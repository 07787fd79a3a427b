import Lispico.Core.Env

/-!
# Lookup sites

A chunk has a cache entry for each global name it reads. The resolvers answer from it while the
environment's generation and the cell's version are those of the entry. The parts of a lookup
are separate reads, between which writes and parts of other lookups may come.
-/

namespace Lispico

namespace VM

open Lispico.Core

structure Site where
  id : Nat
  key : RegistrationKey
deriving DecidableEq

structure SiteEntry (V : Type) where
  env : Nat
  cell : Nat
  val : V
  gen : Nat
  ver : Nat
  canonical : Bool
deriving DecidableEq

inductive Pc (V : Type) where
  | loadEntry
  | readGen (entry : SiteEntry V)
  | readVersion (entry : SiteEntry V) (gen : Nat)
  | readCell (entry : SiteEntry V)
  | cellLocal
  | readSnapshot (cell : Nat)
  | readNameGen (cell : Nat) (val : V) (canonical : Bool) (ver : Nat)
  | publish (entry : SiteEntry V)
  | getCanonical
  | done (result : Option (V × Bool))
deriving DecidableEq

/-- A lookup by a machine with these globals. `seen` are the answers that `GetCanonical`
has had for the name since the lookup began. -/
structure Lookup (V : Type) where
  site : Option Nat
  key : RegistrationKey
  env : Nat
  globals : Nat
  seen : List (Option (V × Bool))
  pc : Pc V

structure System (V : Type) where
  envs : Nat → Env V
  sites : AList fun _ : Site => SiteEntry V
  lookups : List (Lookup V)

section

variable {V : Type}

def readCell (e : Env V) (key : RegistrationKey) (i : Nat) : Cell V :=
  (e.cells key)[i]?.getD Env.emptyCell

/-- The value and the canonical flag of a cell that is no tombstone. -/
def liveValue (c : Cell V) : Option (V × Bool) := c.v.map fun v => (v, c.canonical)

namespace Lookup

def miss (l : Lookup V) : Pc V := if l.env = l.globals then .cellLocal else .getCanonical

/-- The next part of `resolveGlobalValue` or `resolveFuncValue`. -/
def next (s : System V) (l : Lookup V) : Pc V :=
  let env := s.envs l.env
  match l.pc with
  | .loadEntry =>
    match l.site with
    | none => .getCanonical
    | some id =>
      match s.sites.lookup ⟨id, l.key⟩ with
      | none => l.miss
      | some entry => if entry.env = l.env then .readGen entry else l.miss
  | .readGen entry => .readVersion entry env.newNameGen
  | .readVersion entry gen =>
    let ver := (readCell env l.key entry.cell).version
    if entry.gen = gen ∧ ver = entry.ver then .done (some (entry.val, entry.canonical))
    else if ver ≠ entry.ver then .readCell entry
    else l.miss
  | .readCell entry =>
    match liveValue (readCell env l.key entry.cell) with
    | some r => .done (some r)
    | none => .getCanonical
  | .cellLocal =>
    match env.cellLocal l.key with
    | some i => .readSnapshot i
    | none => .getCanonical
  | .readSnapshot i =>
    let c := readCell env l.key i
    match c.v with
    | some v => .readNameGen i v c.canonical c.version
    | none => .getCanonical
  | .readNameGen i v canonical ver =>
    .publish ⟨l.env, i, v, env.newNameGen, ver, canonical⟩
  | .publish entry => .done (some (entry.val, entry.canonical))
  | .getCanonical => .done (env.getCanonical l.key)
  | .done r => .done r

def published (l : Lookup V) : Option (Site × SiteEntry V) :=
  match l.site, l.pc with
  | some id, .publish entry => some (⟨id, l.key⟩, entry)
  | _, _ => none

def isDone (l : Lookup V) : Bool :=
  match l.pc with
  | .done _ => true
  | _ => false

def observe (env : Nat) (e : Env V) (l : Lookup V) : Lookup V :=
  if l.env = env ∧ l.isDone = false then { l with seen := e.getCanonical l.key :: l.seen }
  else l

end Lookup

/-- What can happen: a write, the beginning of a lookup, or the next part of one. -/
inductive Event (V : Type) where
  | write (env : Nat) (w : Env.Write V)
  | start (site : Option Nat) (key : RegistrationKey) (env globals : Nat)
  | advance (n : Nat)

namespace System

def init (envs : Nat → Env V) : System V := ⟨envs, ∅, []⟩

variable [ValueShallowBytes V]

def step (s : System V) : Event V → System V
  | .write env w =>
    let e := w.apply (s.envs env)
    { s with
      envs := Function.update s.envs env e
      lookups := s.lookups.map (Lookup.observe env e) }
  | .start site key env globals =>
    let l := ⟨site, key, env, globals, [(s.envs env).getCanonical key], .loadEntry⟩
    { s with lookups := s.lookups ++ [l] }
  | .advance n =>
    match s.lookups[n]? with
    | none => s
    | some l =>
      { s with
        sites := (l.published.map fun p => s.sites.insert p.1 p.2).getD s.sites
        lookups := s.lookups.set n { l with pc := l.next s } }

def run (s : System V) (evs : List (Event V)) : System V := evs.foldl step s

end System

end

end VM

end Lispico
