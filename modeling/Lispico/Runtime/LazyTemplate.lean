import Lispico.Runtime.Vocabulary
import Mathlib

/-!
# Deferred bindings of the standard library

The standard library registers its builtins in a shared template layer, and an engine binds a
name when it is first looked up. A plugin operation notes the membership of each name it
changes. Everything is one step; locks and counts are left out, and what a definition evaluates
to and a meter replies are inputs.
-/

namespace Lispico

namespace Runtime

open Lispico.Core

structure TemplateKey where
  dialectFP : String
  pluginName : String
  pluginVersion : String
deriving DecidableEq

inductive TemplateKind (V : Type) where
  | goValue (value : V)
  | bootstrap (source : String)

/-- `stdlibTemplateEntry`; its name is the key of its layer. -/
structure TemplateEntry (V : Type) where
  kind : TemplateKind V
  canonical : Bool
  fn : Bool
  isAlias : Bool

/-- `stdlibTemplateLayer`; a complete layer is published. -/
structure TemplateLayer (V : Type) where
  entries : AList fun _ : String => TemplateEntry V
  complete : Bool

abbrev TemplateRegistry (V : Type) : Type := AList fun _ : TemplateKey => TemplateLayer V

/-- `lazyOpEntry`: the membership of a name before the operation. -/
structure LazyOpEntry where
  tomb : Bool
  installed : Bool
  foreign : Bool

/-- `lazyOp`: a plugin operation, its view and the names it has changed. -/
structure LazyOp where
  view : Nat
  name : String
  version : String
  eager : Bool
  entries : AList fun _ : String => LazyOpEntry

/-- What an engine is configured with: its dialect, the staged value of a definition, whether
it is bound in the function cell and whether it is canonical, and `%q`. -/
structure EngineConfig (V : Type) where
  dialect : Vocabulary V
  dialectFP : String
  defineBootstrap : String → String → Option (V × Bool × Bool)
  quote : String → String

structure LazyEnv (V : Type) where
  env : Env V
  active : AList fun _ : String => String
  installed : Finset String
  tombstoned : Finset String
  op : Option LazyOp
  layers : TemplateRegistry V

abbrev Charges : Type := RegistrationKey → Charge

namespace TemplateRegistry

section

variable {V : Type}

def entryFor (layers : TemplateRegistry V) (key : TemplateKey) (name : String) :
    Option (TemplateEntry V) := do
  let layer ← layers.lookup key
  layer.entries.lookup name

/-- `putEntry`: a published layer refuses, and a rename keeps its name. -/
def putEntry (quote : String → String) (layers : TemplateRegistry V) (key : TemplateKey)
    (name : String) (entry : TemplateEntry V) : Except String (TemplateRegistry V) :=
  let layer := (layers.lookup key).getD ⟨∅, false⟩
  if layer.complete then
    .error ("stdlib template layer " ++ key.dialectFP ++ "/" ++ key.pluginName ++ "/" ++
      key.pluginVersion ++ " already published: refusing write to " ++ quote name)
  else if (layer.entries.lookup name).any fun prev => prev.isAlias && !entry.isAlias then
    .ok (layers.insert key layer)
  else .ok (layers.insert key { layer with entries := layer.entries.insert name entry })

def layerState (layers : TemplateRegistry V) (key : TemplateKey) : Bool :=
  (layers.lookup key).any fun layer => layer.complete

def markComplete (layers : TemplateRegistry V) (key : TemplateKey) : TemplateRegistry V :=
  match layers.lookup key with
  | some layer => layers.insert key { layer with complete := true }
  | none => layers

def discardLayer (layers : TemplateRegistry V) (key : TemplateKey) : TemplateRegistry V :=
  if layers.layerState key then layers else layers.erase key

def publishedNames (layers : TemplateRegistry V) (key : TemplateKey) : List String :=
  match layers.lookup key with
  | some layer => if layer.complete then layer.entries.keys else []
  | none => []

end

end TemplateRegistry

/-- A write that may fail: the environment after it, and whether it succeeded. -/
def attempt {V : Type} (e : Env V) (r : Except String (Env V × Bool)) : Env V × Bool :=
  match r with
  | .ok (e', _) => (e', true)
  | .error _ => (e, false)

namespace LazyOp

/-- `own`: note the membership of a name before the operation's first change of it. -/
def own (op : LazyOp) (tomb installed : Bool) (name : String) : LazyOp :=
  if (op.entries.lookup name).any fun ent => !ent.foreign then op
  else { op with entries := op.entries.insert name ⟨tomb, installed, false⟩ }

def disown (op : LazyOp) (name : String) : LazyOp :=
  match op.entries.lookup name with
  | some ent => { op with entries := op.entries.insert name { ent with foreign := true } }
  | none => op

end LazyOp

namespace LazyEnv

section

variable {V : Type}

/-- `opFor`: the open operation, if it is its view that asks. -/
def opFor (s : LazyEnv V) (via : Option Nat) : Option LazyOp :=
  s.op.filter fun op => via == some op.view

def noteLocked (s : LazyEnv V) (via : Option Nat) (name : String) : LazyEnv V :=
  { s with
    op := s.op.map fun op =>
      if via == some op.view then
        op.own (decide (name ∈ s.tombstoned)) (decide (name ∈ s.installed)) name
      else op.disown name }

def recordInstall (s : LazyEnv V) (via : Option Nat) (name : String) : LazyEnv V :=
  if name ∈ s.installed then s
  else
    let s := s.noteLocked via name
    { s with installed := insert name s.installed }

def beginDelete (s : LazyEnv V) (via : Option Nat) (name : String) : LazyEnv V :=
  let s := s.noteLocked via name
  { s with tombstoned := insert name s.tombstoned, installed := s.installed.erase name }

def delete (s : LazyEnv V) (via : Option Nat) (name : String) : LazyEnv V :=
  let s := s.beginDelete via name
  { s with env := s.env.deleteName via name }

def bumpMacroEpoch (s : LazyEnv V) : LazyEnv V :=
  { s with env := { s.env with macroEpoch := s.env.macroEpoch + 1 } }

def beginOp (s : LazyEnv V) (view : Nat) (name version : String) (eager : Bool) : LazyEnv V :=
  { s with op := some ⟨view, name, version, eager, ∅⟩ }

/-- Put a name into a set or take it out, `setMember`. -/
def setMember (set : Finset String) (name : String) (member : Bool) : Finset String :=
  if member then insert name set else set.erase name

/-- Give a name the membership it had, unless others have changed it since. -/
def restore (s : LazyEnv V) (name : String) (ent : LazyOpEntry) : LazyEnv V :=
  if ent.foreign then s
  else
    { s with
      tombstoned := setMember s.tombstoned name ent.tomb
      installed := setMember s.installed name ent.installed }

def endOp (s : LazyEnv V) (commit : Bool) : LazyEnv V :=
  match s.op with
  | none => s
  | some op =>
    let s := { s with op := none }
    if commit then s else op.entries.foldl restore s

def activate (s : LazyEnv V) (pluginName pluginVersion : String) (names : List String) :
    LazyEnv V :=
  { s with
    active := s.active.insert pluginName pluginVersion
    tombstoned := s.tombstoned.filter fun name => name ∉ names }

def deactivate (s : LazyEnv V) (pluginName : String) : LazyEnv V :=
  { s with active := s.active.erase pluginName }

def activeEntry (s : LazyEnv V) (dialectFP name : String) : Option (TemplateEntry V) :=
  s.active.entries.findSome? fun x => s.layers.entryFor ⟨dialectFP, x.1, x.2⟩ name

variable [ValueShallowBytes V]

/-- `installValue`: the cells are filled only if they are empty. -/
def installValue (e : Env V) (via : Option Nat) (name : String) (value : V)
    (entry : TemplateEntry V) (charges : Charges) : Env V × Bool :=
  if entry.fn then
    attempt e (e.setBothLocked via name value entry.canonical true (charges ⟨name, false⟩))
  else
    attempt e (e.setLocked via ⟨name, false⟩ value entry.canonical true (charges ⟨name, false⟩))

/-- The binding of a staged definition, in `publishStaged`. -/
def installStaged (lisp2 : Bool) (e : Env V) (via : Option Nat) (name : String)
    (staged : V × Bool × Bool) (charges : Charges) : Env V × Bool :=
  let (value, stagedFunc, stagedCanon) := staged
  if stagedFunc then
    attempt e (e.setLocked via ⟨name, true⟩ value stagedCanon true (charges ⟨name, true⟩))
  else
    let (e, ok) := attempt e
      (e.setLocked via ⟨name, false⟩ value stagedCanon true (charges ⟨name, false⟩))
    if ok && lisp2 then
      attempt e (e.setLocked via ⟨name, true⟩ value false true (charges ⟨name, true⟩))
    else (e, ok)

/-- `stageEntry` and `publishStaged`: the environment with the entry bound, and whether it
could be. -/
def publishEntry (cfg : EngineConfig V) (e : Env V) (via : Option Nat) (name : String)
    (entry : TemplateEntry V) (charges : Charges) : Env V × Bool :=
  match entry.kind with
  | .goValue value => installValue e via name value entry charges
  | .bootstrap source =>
    match cfg.defineBootstrap name source with
    | some staged => installStaged cfg.dialect.lisp2 e via name staged charges
    | none => (e, false)

/-- `materializeOne`: only the view of the open operation writes through itself. -/
def materializeOne (cfg : EngineConfig V) (s : LazyEnv V) (via : Option Nat)
    (key : RegistrationKey) (entry : TemplateEntry V) (charges : Charges) :
    LazyEnv V × Option (V × Bool) :=
  let via := if (s.opFor via).isSome then via else none
  let (env, ok) := publishEntry cfg s.env via key.name entry charges
  let s := { s with env := env }
  if ok then
    let s := s.recordInstall via key.name
    (s, s.env.getCanonical key)
  else (s, none)

def lookupAndMaterialize (cfg : EngineConfig V) (s : LazyEnv V) (via : Option Nat)
    (key : RegistrationKey) (charges : Charges) : LazyEnv V × Option (V × Bool) :=
  if s.op.any fun op => op.eager then (s, none)
  else if key.name ∈ s.tombstoned then (s, none)
  else if key.name ∈ s.installed then (s, s.env.getCanonical key)
  else
    match s.activeEntry cfg.dialectFP key.name with
    | some entry => s.materializeOne cfg via key entry charges
    | none => (s, none)

/-- `GetCanonical` and `GetFuncCanonical`: the lazy layer is asked for a name that has no
live binding. -/
def getCanonical (cfg : EngineConfig V) (s : LazyEnv V) (via : Option Nat)
    (key : RegistrationKey) (charges : Charges) : LazyEnv V × Option (V × Bool) :=
  match s.env.getCanonical key with
  | some r => (s, some r)
  | none => s.lookupAndMaterialize cfg via key charges

/-- `deferKey`: only a registration of the standard library through its view is deferred. -/
def deferKey (cfg : EngineConfig V) (s : LazyEnv V) (via : Option Nat) : Option TemplateKey :=
  match s.opFor via with
  | some op =>
    if op.eager || op.name != "" then none else some ⟨cfg.dialectFP, op.name, op.version⟩
  | none => none

def valueEntry (name : String) (b : VocabBinding V) : TemplateEntry V :=
  ⟨.goValue b.value, b.canonical, b.func, b.name != name⟩

/-- The entries of a deferred `RegisterValue`, up to the first that is refused. -/
def putBindings (cfg : EngineConfig V) (layers : TemplateRegistry V) (key : TemplateKey)
    (name : String) (bs : List (VocabBinding V)) : TemplateRegistry V :=
  match bs with
  | [] => layers
  | b :: bs =>
    match layers.putEntry cfg.quote key b.name (valueEntry name b) with
    | .ok layers => putBindings cfg layers key name bs
    | .error _ => layers

variable [VocabValue V]

def registerValue (cfg : EngineConfig V) (s : LazyEnv V) (via : Option Nat) (name : String)
    (val : V) (canonical : Bool) (charges : Charges) : LazyEnv V :=
  match s.deferKey cfg via with
  | some key =>
    { s with
      layers := putBindings cfg s.layers key name
        (cfg.dialect.appendVocabBindings name val canonical) }
  | none =>
    { s with
      env := (attempt s.env (s.env.setLocked via ⟨name, false⟩ val canonical false
        (charges ⟨name, false⟩))).1 }

omit [VocabValue V] in
/-- `RegisterSource`: a definition that is not deferred is left to the caller. -/
def registerSource (cfg : EngineConfig V) (s : LazyEnv V) (via : Option Nat)
    (name source : String) : LazyEnv V × Bool :=
  match s.deferKey cfg via with
  | some key =>
    match s.layers.putEntry cfg.quote key name ⟨.bootstrap source, false, false, false⟩ with
    | .ok layers => ({ s with layers := layers }, true)
    | .error _ => (s, false)
  | none => (s, false)

end

end LazyEnv

end Runtime

end Lispico
