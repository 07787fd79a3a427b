import Lispico.Runtime.LazyTemplate

/-!
# Loading, unloading and reloading plugins

A plugin operation runs `Init` through the view of a registration, then the vocabulary pass. If
all succeeds the engine keeps the writes and records the owned names; otherwise the registration
is aborted and the lazy layer restored. An `Init` is the sequence of what it does, with its
outcome. Logging, statistics and the call cache are left out.
-/

namespace Lispico

namespace Runtime

open Lispico.Core

/-- One thing that `Init` does to its environment. -/
inductive InitOp (V : Type) where
  | set (key : RegistrationKey) (val : V) (canonical : Bool)
  | setBoth (name : String) (val : V) (canonical : Bool)
  | delete (name : String)
  | get (key : RegistrationKey)
  | registerValue (name : String) (val : V) (canonical : Bool)
  | registerSource (name source : String)
  | bumpMacroEpoch

/-- How `Init` ends. -/
inductive Outcome where
  | returned
  | failed (err : String)
  | panicked (value : String)

structure Plugin (V : Type) where
  name : String
  version : String
  init : List (InitOp V)
  outcome : Outcome

/-- A plugin operation: the plugin, whether registration is eager, what the meter replies to
its charges and to their settlement. -/
structure Operation (V : Type) where
  plugin : Plugin V
  eager : Bool
  charges : Charges
  settlement : Option String

/-- An engine: its root, the loaded plugins with their versions, and the names they own. -/
structure Engine (V : Type) where
  root : LazyEnv V
  plugins : AList fun _ : String => String
  bindings : AList fun _ : String => List String

section

variable {V : Type}

def andThen {S : Type} (r : S × Option String) (f : S → S × Option String) : S × Option String :=
  match r with
  | (s, none) => f s
  | (s, some err) => (s, some err)

def passAll {S A : Type} (f : S → A → S × Option String) (s : S) : List A → S × Option String
  | [] => (s, none)
  | a :: as => andThen (f s a) fun s => passAll f s as

/-- `Names`: the names of the value cells that the running registration has written. -/
def regNames (e : Env V) : List String :=
  match e.reg with
  | some r => (r.entries.keys.filter fun key => !key.fn).map RegistrationKey.name
  | none => []

/-- `BindingNames`: the names whose live cell is the registration's last write. -/
def bindingNames (e : Env V) : List String :=
  match e.reg with
  | some r =>
    (r.entries.entries.filter fun x =>
      (e.bound x.1).any fun b => Registration.owns x.2 b.1 b.2 && b.2.v.isSome).map
        fun x => x.1.name
  | none => []

/-- `snapshotBindings`: the names with a live cell in either namespace. -/
def snapshotBindings (e : Env V) : List String :=
  (e.binds.keys.filter fun key => (e.getCanonical key).isSome).map RegistrationKey.name

def diff (later before : List String) : List String :=
  (later.filter fun name => name ∉ before).dedup

variable [ValueShallowBytes V]

/-- A write through `via` that may fail. -/
def setCell (s : LazyEnv V) (via : Option Nat) (key : RegistrationKey) (v : V)
    (canonical : Bool) (charges : Charges) : LazyEnv V × Option String :=
  match s.env.setLocked via key v canonical false (charges key) with
  | .ok (env, _) => ({ s with env := env }, none)
  | .error err => (s, some err)

def setVocabValue (s : LazyEnv V) (via : Option Nat) (b : VocabBinding V) (charges : Charges) :
    LazyEnv V × Option String :=
  setCell s via ⟨b.name, false⟩ b.value b.canonical charges

def setVocabFunc (s : LazyEnv V) (via : Option Nat) (b : VocabBinding V) (charges : Charges) :
    LazyEnv V × Option String :=
  setCell s via ⟨b.name, true⟩ b.value b.canonical charges

variable [VocabValue V]

def setVocabFuncUnlessRebound (s : LazyEnv V) (via : Option Nat) (b : VocabBinding V)
    (charges : Charges) : LazyEnv V × Option String :=
  if (s.env.getCanonical ⟨b.name, true⟩).any fun cur => !VocabValue.equals cur.1 b.value then
    (s, none)
  else setVocabFunc s via b charges

/-- The own binding of a written name, which holds a value and a canonical flag. -/
def setOwn (s : LazyEnv V) (via : Option Nat) (charges : Charges) (v : V) (canon : Bool)
    (b : VocabBinding V) : LazyEnv V × Option String :=
  andThen
    (if canon != b.canonical || !VocabValue.equals v b.value then setVocabValue s via b charges
      else (s, none))
    fun s => if b.func then setVocabFuncUnlessRebound s via b charges else (s, none)

/-- One written name in the first loop of `applyVocabulary`, with the renames so far. -/
def ownPass (d : Vocabulary V) (via : Option Nat) (charges : Charges)
    (st : LazyEnv V × List (VocabBinding V)) (name : String) :
    (LazyEnv V × List (VocabBinding V)) × Option String :=
  let (s, renames) := st
  match s.env.getCanonical ⟨name, false⟩ with
  | none => ((s, renames), none)
  | some (v, canon) =>
    match d.appendVocabBindings name v canon with
    | [] => ((s.delete via name, renames), none)
    | b :: bs =>
      if b.name ≠ name then ((s.delete via name, renames ++ b :: bs), none)
      else
        let (s, err) := setOwn s via charges v canon b
        ((s, renames ++ bs), err)

/-- One rename in the second loop of `applyVocabulary`. -/
def renamePass (via : Option Nat) (charges : Charges) (written : List String) (s : LazyEnv V)
    (b : VocabBinding V) : LazyEnv V × Option String :=
  let ours := decide (b.name ∈ written)
  andThen (if ours || (s.env.getCanonical ⟨b.name, false⟩).all fun cur =>
        VocabValue.equals cur.1 b.value then setVocabValue s via b charges
      else (s, none))
    fun s =>
      if !b.func then (s, none)
      else if ours then setVocabFunc s via b charges
      else setVocabFuncUnlessRebound s via b charges

/-- One adapter in the last loop of `applyVocabulary`. -/
def adapterPass (d : Vocabulary V) (via : Option Nat) (charges : Charges) (s : LazyEnv V)
    (name : String) : LazyEnv V × Option String :=
  match d.vocabEntry name with
  | some (.adapter value) =>
    andThen (if (s.env.getCanonical ⟨name, false⟩).isNone then
          setCell s via ⟨name, false⟩ value false charges
        else (s, none))
      fun s =>
        if d.lisp2 && VocabValue.isGoFunc value && (s.env.getCanonical ⟨name, true⟩).isNone then
          setCell s via ⟨name, true⟩ value false charges
        else (s, none)
  | _ => (s, none)

def applyVocabulary (d : Vocabulary V) (s : LazyEnv V) (via : Option Nat) (charges : Charges) :
    LazyEnv V × Option String :=
  if d.vocab.isNone && !d.lisp2 then (s, none)
  else
    let written := (regNames s.env).insertionSort (· ≤ ·)
    match passAll (ownPass d via charges) (s, []) written with
    | ((s, _), some err) => (s, some err)
    | ((s, renames), none) =>
      match passAll (renamePass via charges written) s renames with
      | (s, some err) => (s, some err)
      | (s, none) => passAll (adapterPass d via charges) s d.adapters

/-- One thing that `Init` does. -/
def initOp (cfg : EngineConfig V) (via : Option Nat) (charges : Charges) (s : LazyEnv V) :
    InitOp V → LazyEnv V
  | .set key val canonical => (setCell s via key val canonical charges).1
  | .setBoth name val canonical =>
    { s with
      env := (attempt s.env (s.env.setBothLocked via name val canonical false
        (charges ⟨name, false⟩))).1 }
  | .delete name => s.delete via name
  | .get key => (s.getCanonical cfg via key charges).1
  | .registerValue name val canonical => s.registerValue cfg via name val canonical charges
  | .registerSource name source => (s.registerSource cfg via name source).1
  | .bumpMacroEpoch => s.bumpMacroEpoch

def runInit (cfg : EngineConfig V) (via : Option Nat) (charges : Charges) (s : LazyEnv V)
    (ops : List (InitOp V)) : LazyEnv V :=
  ops.foldl (initOp cfg via charges) s

/-- The error of an outcome, as `loadPlugin` reports it. -/
def Outcome.error (name : String) : Outcome → Option String
  | .returned => none
  | .failed err => some ("init plugin " ++ name ++ ": " ++ err)
  | .panicked value => some ("init plugin " ++ name ++ ": panic: " ++ value)

/-- `initPlugin` and `ensureLayer`: the standard library is built once for all engines. -/
def initPlugin (cfg : EngineConfig V) (s : LazyEnv V) (via : Option Nat) (o : Operation V) :
    LazyEnv V × Option String :=
  let p := o.plugin
  let key : TemplateKey := ⟨cfg.dialectFP, p.name, p.version⟩
  if p.name ≠ "" || o.eager then
    (runInit cfg via o.charges s p.init, p.outcome.error p.name)
  else if s.layers.layerState key then (s, none)
  else
    let s := runInit cfg via o.charges s p.init
    let layers :=
      match p.outcome with
      | .returned => s.layers.markComplete key
      | .failed _ => s.layers.discardLayer key
      | .panicked _ => s.layers
    ({ s with layers := layers }, p.outcome.error p.name)

/-- `loadPlugin`: the names that the plugin introduced, or its error. -/
def loadPlugin (cfg : EngineConfig V) (s : LazyEnv V) (via : Option Nat) (o : Operation V) :
    LazyEnv V × Except String (List String) :=
  let before := snapshotBindings s.env
  match initPlugin cfg s via o with
  | (s, some err) => (s, .error err)
  | (s, none) =>
    match applyVocabulary cfg.dialect s via o.charges with
    | (s, some err) =>
      (s, .error ("apply vocabulary for plugin " ++ o.plugin.name ++ ": " ++ err))
    | (s, none) =>
      match o.settlement with
      | some err => (s, .error err)
      | none => (s, .ok (diff (bindingNames s.env) before))

namespace Engine

omit [ValueShallowBytes V] [VocabValue V] in
def removePluginBindings (s : LazyEnv V) (via : Option Nat) (names : List String) : LazyEnv V :=
  if names = [] then s
  else
    (names.foldl (fun s name => s.delete via name) s).bumpMacroEpoch

omit [ValueShallowBytes V] [VocabValue V] in
def owned (e : Engine V) (name : String) : List String := (e.bindings.lookup name).getD []

omit [ValueShallowBytes V] [VocabValue V] in
def populateTemplateBindings (cfg : EngineConfig V) (e : Engine V) (name version : String) :
    Engine V :=
  let names := e.root.layers.publishedNames ⟨cfg.dialectFP, name, version⟩
  if names = [] then e
  else
    let owned := e.owned name ++ names.filter fun n => n ∉ e.owned name
    { e with
      bindings := e.bindings.insert name owned
      root := e.root.activate name version owned }

omit [ValueShallowBytes V] [VocabValue V] in
def publishBindings (cfg : EngineConfig V) (e : Engine V) (name version : String)
    (added : List String) : Engine V :=
  let bindings := if added = [] then e.bindings.erase name else e.bindings.insert name added
  populateTemplateBindings cfg { e with bindings := bindings } name version

omit [ValueShallowBytes V] [VocabValue V] in
/-- The end of an operation: `abortPlugin`, or `Complete` and `publishBindings`. -/
def finish (cfg : EngineConfig V) (e : Engine V) (view : Nat) (p : Plugin V) :
    LazyEnv V × Except String (List String) → Engine V × Option String
  | (s, .error err) =>
    let s := s.endOp false
    ({ e with root := { s with env := (s.env.abort view).1 } }, some err)
  | (s, .ok added) =>
    let s := { s with env := s.env.complete view }.endOp true
    let e := { e with root := s, plugins := e.plugins.insert p.name p.version }
    (e.publishBindings cfg p.name p.version added, none)

def use (cfg : EngineConfig V) (e : Engine V) (o : Operation V) : Engine V × Option String :=
  let p := o.plugin
  if (e.plugins.lookup p.name).isSome then
    (e, some ("register plugin " ++ p.name ++ ": plugin " ++ cfg.quote p.name ++
      " already registered"))
  else
    match e.root.env.beginRegistration with
    | .error err => (e, some ("register plugin " ++ p.name ++ ": " ++ err))
    | .ok env =>
      let view := e.root.env.nextReg
      let s := { e.root with env := env }.beginOp view p.name p.version o.eager
      e.finish cfg view p (loadPlugin cfg s (some view) o)

def reloadPlugin (cfg : EngineConfig V) (e : Engine V) (o : Operation V) :
    Engine V × Option String :=
  let p := o.plugin
  match e.root.env.beginRegistration with
  | .error err => (e, some ("register plugin " ++ p.name ++ ": " ++ err))
  | .ok env =>
    let view := e.root.env.nextReg
    let s := { e.root with env := env }.beginOp view p.name p.version o.eager
    let s := if (e.plugins.lookup p.name).isSome then
        removePluginBindings s (some view) (e.owned p.name)
      else s
    e.finish cfg view p (loadPlugin cfg s (some view) o)

omit [ValueShallowBytes V] [VocabValue V] in
def unloadPlugin (cfg : EngineConfig V) (e : Engine V) (name : String) :
    Engine V × Option String :=
  if (e.plugins.lookup name).isNone then (e, some ("plugin " ++ cfg.quote name ++ " not found"))
  else
    ({ root := (removePluginBindings e.root none (e.owned name)).deactivate name
       plugins := e.plugins.erase name
       bindings := e.bindings.erase name }, none)

inductive Event (V : Type) where
  | set (key : RegistrationKey) (val : V) (canonical : Bool) (charges : Charges)
  | setBoth (name : String) (val : V) (canonical : Bool) (charges : Charges)
  | delete (name : String)
  | get (key : RegistrationKey) (charges : Charges)
  | use (o : Operation V)
  | unload (name : String)
  | reload (o : Operation V)

omit [ValueShallowBytes V] [VocabValue V] in
/-- `New`: an engine with these limits, in a process with these layers. -/
def new (maxRetainedBytes maxRetainedSlots : Int) (layers : TemplateRegistry V) : Engine V :=
  { root := ⟨Env.newEnvWithRetainedLimits maxRetainedBytes maxRetainedSlots, ∅, ∅, ∅, none,
    layers⟩
    plugins := ∅
    bindings := ∅ }

def step (cfg : EngineConfig V) (e : Engine V) : Event V → Engine V
  | .set key val canonical charges =>
    { e with root := (setCell e.root none key val canonical charges).1 }
  | .setBoth name val canonical charges =>
    { e with
      root := { e.root with
        env := (attempt e.root.env (e.root.env.setBothLocked none name val canonical false
          (charges ⟨name, false⟩))).1 } }
  | .delete name => { e with root := e.root.delete none name }
  | .get key charges => { e with root := (e.root.getCanonical cfg none key charges).1 }
  | .use o => (e.use cfg o).1
  | .unload name => (e.unloadPlugin cfg name).1
  | .reload o => (e.reloadPlugin cfg o).1

def run (cfg : EngineConfig V) (e : Engine V) (evs : List (Event V)) : Engine V :=
  evs.foldl (step cfg) e

end Engine

end

end Runtime

end Lispico
