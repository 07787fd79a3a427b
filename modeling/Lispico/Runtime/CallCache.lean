import Lispico.VM.SiteCache

/-!
# The cache of `Engine.Call`

`Engine.Call` finds the cell of a name in a cache, or resolves and publishes it. An entry is
good for one generation of the root, its value for one version of the cell. The parts of a call
are separate reads; the generation and the versions are read without the lock and may be seen at
any value between the beginning and the end of a write. There is no lazy layer.
-/

namespace Lispico

namespace Runtime

open Lispico.Core Lispico.VM

/-- `callCacheEntry`; a cell is named by its key and its place. -/
structure CallCacheEntry (V : Type) where
  gen : Nat
  key : RegistrationKey
  cell : Nat
  value : Option V
  cellVer : Nat
deriving DecidableEq

inductive CallPc (V : Type) where
  | lookup
  | checkGen (entry : CallCacheEntry V)
  | checkVersion (entry : CallCacheEntry V)
  | readEntry (entry : CallCacheEntry V)
  | drop
  | readGen
  | resolveCell (gen : Nat)
  | fallback (gen : Nat)
  | readSnapshot (gen : Nat) (key : RegistrationKey) (cell : Nat) (cacheable : Bool)
  | store (entry : CallCacheEntry V)
  | readCell (entry : CallCacheEntry V)
  | done (result : Option V)
deriving DecidableEq

/-- A call up to the invocation of what it found. `states` are the environments there have
been since it began, the first one first; `overlapped` says whether a write has been in
progress meanwhile. -/
structure Call (V : Type) where
  name : String
  fast : Bool
  states : List (Env V)
  overlapped : Bool
  pc : CallPc V

/-- The root environment, what the write in progress will leave of it, the cache and the
calls begun so far. -/
structure CallSystem (V : Type) where
  env : Env V
  writing : Option (Env V)
  cache : AList fun _ : String => CallCacheEntry V
  calls : List (Call V)

section

variable {V : Type}

def maxCallCacheEntries : Nat := 1024

def loadCounter (now later seen : Nat) : Nat := max now (min seen later)

namespace CallPc

def isDone : CallPc V → Bool
  | .done _ => true
  | _ => false

def locks : CallPc V → Bool
  | .readEntry _ => true
  | .resolveCell _ => true
  | .fallback _ => true
  | .readSnapshot _ _ _ _ => true
  | .readCell _ => true
  | _ => false

end CallPc

namespace CallSystem

def settled (s : CallSystem V) : Env V := s.writing.getD s.env

def nameGen (s : CallSystem V) (seen : Nat) : Nat :=
  loadCounter s.env.newNameGen s.settled.newNameGen seen

def cellVersion (s : CallSystem V) (key : RegistrationKey) (i seen : Nat) : Nat :=
  loadCounter (VM.readCell s.env key i).version (VM.readCell s.settled key i).version seen

end CallSystem

/-- `store`: a full cache is flushed. -/
def storeEntry (cache : AList fun _ : String => CallCacheEntry V) (name : String)
    (entry : CallCacheEntry V) : AList fun _ : String => CallCacheEntry V :=
  (if cache.entries.length ≥ maxCallCacheEntries then ∅ else cache).insert name entry

/-- The entry that `resolveCallEntry` makes of a snapshot. -/
def snapshotEntry (gen : Nat) (key : RegistrationKey) (i : Nat) (cell : Cell V) :
    CallCacheEntry V :=
  ⟨gen, key, i, cell.v, if cell.v.isSome then cell.version else 0⟩

namespace Call

/-- The next part of `Call`. Under Lisp-2 the function cell comes first. -/
def next (lisp2 : Bool) (s : CallSystem V) (seen : Nat) (c : Call V) : CallPc V :=
  match c.pc with
  | .lookup =>
    match s.cache.lookup c.name with
    | none => .readGen
    | some entry => .checkGen entry
  | .checkGen entry =>
    if entry.gen = s.nameGen seen then
      if c.fast then .checkVersion entry else .readEntry entry
    else .readGen
  | .checkVersion entry =>
    match entry.value with
    | some v =>
      if s.cellVersion entry.key entry.cell seen = entry.cellVer then .done (some v) else .drop
    | none => .drop
  | .readEntry entry =>
    match (VM.readCell s.env entry.key entry.cell).v with
    | some v => .done (some v)
    | none => .drop
  | .drop => .readGen
  | .readGen => .resolveCell (s.nameGen seen)
  | .resolveCell gen =>
    match s.env.cellLocal ⟨c.name, lisp2⟩ with
    | some i => .readSnapshot gen ⟨c.name, lisp2⟩ i true
    | none => if lisp2 then .fallback gen else .done none
  | .fallback gen =>
    match s.env.cellLocal ⟨c.name, false⟩ with
    | some i => .readSnapshot gen ⟨c.name, false⟩ i false
    | none => .done none
  | .readSnapshot gen key i cacheable =>
    let entry := snapshotEntry gen key i (VM.readCell s.env key i)
    if cacheable then .store entry else .readCell entry
  | .store entry => .readCell entry
  | .readCell entry => .done (VM.readCell s.env entry.key entry.cell).v
  | .done r => .done r

def publish (c : Call V) (cache : AList fun _ : String => CallCacheEntry V) :
    AList fun _ : String => CallCacheEntry V :=
  match c.pc with
  | .drop => cache.erase c.name
  | .store entry => storeEntry cache c.name entry
  | _ => cache

def overlap (c : Call V) : Call V := if c.pc.isDone then c else { c with overlapped := true }

def observe (e : Env V) (c : Call V) : Call V :=
  if c.pc.isDone then c else { c with states := c.states ++ [e] }

end Call

/-- What can happen: a write takes the lock and gives it back, a call begins, does its next
part, or an unload drops a name from the cache. -/
inductive CallEvent (V : Type) where
  | lock (w : Env.Write V)
  | unlock
  | call (name : String) (fast : Bool)
  | advance (n seen : Nat)
  | dropName (name : String)

namespace CallSystem

def init (env : Env V) : CallSystem V := ⟨env, none, ∅, []⟩

variable [ValueShallowBytes V]

/-- One event; an event that has to wait for the lock does not happen. -/
def step (lisp2 : Bool) (s : CallSystem V) : CallEvent V → CallSystem V
  | .lock w =>
    match s.writing with
    | some _ => s
    | none => { s with writing := some (w.apply s.env), calls := s.calls.map Call.overlap }
  | .unlock =>
    match s.writing with
    | none => s
    | some e => { s with env := e, writing := none, calls := s.calls.map (Call.observe e) }
  | .call name fast =>
    { s with calls := s.calls ++ [⟨name, fast, [s.env], s.writing.isSome, .lookup⟩] }
  | .advance n seen =>
    match s.calls[n]? with
    | none => s
    | some c =>
      if c.pc.locks && s.writing.isSome then s
      else
        { s with
          cache := c.publish s.cache
          calls := s.calls.set n { c with pc := c.next lisp2 s seen } }
  | .dropName name => { s with cache := s.cache.erase name }

def run (lisp2 : Bool) (s : CallSystem V) (evs : List (CallEvent V)) : CallSystem V :=
  evs.foldl (step lisp2) s

end CallSystem

end

end Runtime

end Lispico
