import Lispico.Core.Value

/-!
# Scopes

An environment is a chain of scopes, from the innermost to the root. A scope maps names to
cells, and a cell holds a value and whether it is the canonical binding of a native operator.
Two scopes may share a cell, as iterations of a loop do.
-/

namespace Lispico

namespace Core

structure VarCell where
  v : Value
  canonical : Bool
deriving Repr

structure Scope where
  vars : List (String × Nat)
  funcs : List (String × Nat)
deriving Repr

structure Store where
  cells : List VarCell
  scopes : List Scope
deriving Repr

namespace Store

def localCell (st : Store) (scope : Nat) (name : String) : Option Nat :=
  (st.scopes[scope]?).bind fun s => s.vars.lookup name

def localFunc (st : Store) (scope : Nat) (name : String) : Option Nat :=
  (st.scopes[scope]?).bind fun s => s.funcs.lookup name

def resolve (st : Store) (env : List Nat) (name : String) : Option Nat :=
  env.findSome? fun scope => st.localCell scope name

def get (st : Store) (env : List Nat) (name : String) : Option Value :=
  (st.resolve env name).bind fun c => (st.cells[c]?).map VarCell.v

def getCanonical (st : Store) (env : List Nat) (name : String) : Option VarCell :=
  (st.resolve env name).bind fun c => st.cells[c]?

def getFuncCanonical (st : Store) (env : List Nat) (name : String) : Option VarCell :=
  (env.findSome? fun scope => st.localFunc scope name).bind fun c => st.cells[c]?

def getFunc (st : Store) (env : List Nat) (name : String) : Option Value :=
  (st.getFuncCanonical env name).map VarCell.v

/-- `Find`: the scope that owns a name. -/
def find (st : Store) (env : List Nat) (name : String) : Option Nat :=
  env.find? fun scope => (st.localCell scope name).isSome

/-- `Set` in a scope: write the cell the name has there, or make one. -/
def set (st : Store) (scope : Nat) (name : String) (v : Value) : Store :=
  match st.localCell scope name with
  | some c => { st with cells := st.cells.set c ⟨v, false⟩ }
  | none =>
    { cells := st.cells ++ [⟨v, false⟩]
      scopes := st.scopes.modify scope fun s =>
        { s with vars := (name, st.cells.length) :: s.vars } }

def setFunc (st : Store) (scope : Nat) (name : String) (v : Value) : Store :=
  match st.localFunc scope name with
  | some c => { st with cells := st.cells.set c ⟨v, false⟩ }
  | none =>
    { cells := st.cells ++ [⟨v, false⟩]
      scopes := st.scopes.modify scope fun s =>
        { s with funcs := (name, st.cells.length) :: s.funcs } }

/-- `ReplaceCell`: a new cell for a name, whatever cell it had. -/
def replaceCell (st : Store) (scope : Nat) (name : String) (v : Value) : Store :=
  { cells := st.cells ++ [⟨v, false⟩]
    scopes := st.scopes.modify scope fun s =>
      { s with vars := (name, st.cells.length) :: s.vars } }

def alloc (st : Store) (s : Scope) : Nat × Store :=
  (st.scopes.length, { st with scopes := st.scopes ++ [s] })

def child (st : Store) (env : List Nat) : List Nat × Store :=
  let (scope, st) := st.alloc ⟨[], []⟩
  (scope :: env, st)

/-- The cells that `forkCells` carries over. -/
def forkVars (st : Store) (scope : Nat) : List String → List (String × Nat)
  | [] => []
  | name :: names =>
    match st.localCell scope name with
    | some c => (name, c) :: forkVars st scope names
    | none => forkVars st scope names

/-- `forkCells`: a scope under `parent` that shares the cells of the names. -/
def forkCells (st : Store) (scope : Nat) (parent : List Nat) (names : List String) :
    List Nat × Store :=
  let (next, st') := st.alloc ⟨st.forkVars scope names, []⟩
  (next :: parent, st')

def bindAll (st : Store) (scope : Nat) : List (String × Value) → Store
  | [] => st
  | (name, v) :: bindings => bindAll (st.set scope name v) scope bindings

end Store

end Core

end Lispico
