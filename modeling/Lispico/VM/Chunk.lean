import Lispico.Core.Dialect
import Lispico.Core.Fingerprint

/-!
# Chunks

A chunk is the code of one function body or one top-level form. An instruction packs an
opcode with an operand of 24 bits. The constant pool reuses an equal constant, looked
for among those filed under its fingerprint and those that have none.
-/

namespace Lispico

namespace VM

open Lispico.Core

inductive NativeOp where
  | add
  | sub
  | mul
  | div
  | lt
  | gt
  | le
  | ge
  | eq
deriving DecidableEq, Repr

def nativeOp : String → Option NativeOp
  | "+" => some .add
  | "-" => some .sub
  | "*" => some .mul
  | "/" => some .div
  | "<" => some .lt
  | ">" => some .gt
  | "<=" => some .le
  | ">=" => some .ge
  | "=" => some .eq
  | _ => none

def NativeOp.symbol : NativeOp → String
  | .add => "+"
  | .sub => "-"
  | .mul => "*"
  | .div => "/"
  | .lt => "<"
  | .gt => ">"
  | .le => "<="
  | .ge => ">="
  | .eq => "="

inductive Opcode where
  | const
  | constCharged
  | getGlobal
  | setGlobal
  | setLexical
  | checkLexical
  | getLocal
  | setLocal
  | call
  | tailCall
  | ret
  | jump
  | jumpIfFalse
  | pop
  | closure
  | makeList
  | makeVector
  | makeMap
  | nil
  | true
  | false
  | loop
  | setupTry
  | popTry
  | throw
  | dup
  | native (op : NativeOp)
  | freezeNative
  | freezeNativeFunc
  | getFunc
  | setFunc
  | structEnter
  | structLeave
  | getCell
  | setCell
  | bindCell
  | getCap
  | setCap
  | defMacro
  | defMacroFunc
  | fusedNativeOp
deriving DecidableEq, Repr

structure Instruction where
  op : Opcode
  a : Nat
deriving DecidableEq, Repr

def operandLimit : Nat := 2 ^ 24

/-- `Encode`: the operand is truncated to 24 bits. -/
def encode (op : Opcode) (a : Nat) : Instruction := ⟨op, a % operandLimit⟩

inductive OperandKind where
  | local
  | const
deriving DecidableEq, Repr

structure FusedOp where
  op : NativeOp
  sym : Nat
  func : Bool
  aKind : OperandKind
  a : Nat
  bKind : OperandKind
  b : Nat
deriving DecidableEq, Repr

/-- `CapDesc`: the box in a slot of the enclosing frame, or a box it has captured. -/
inductive CapDesc where
  | slot (slot : Nat)
  | fromCaps (cap : Nat)
deriving DecidableEq, Repr

inductive Chunk where
  | mk (arity : Nat) (variadic : Bool) (locals : Nat) (captured : List Bool)
      (caps : List CapDesc) (code : List Instruction) (constants : List Value)
      (subChunks : List Chunk) (fused : List FusedOp)

namespace Chunk

def arity : Chunk → Nat
  | mk arity _ _ _ _ _ _ _ _ => arity

def variadic : Chunk → Bool
  | mk _ variadic _ _ _ _ _ _ _ => variadic

def locals : Chunk → Nat
  | mk _ _ locals _ _ _ _ _ _ => locals

def captured : Chunk → List Bool
  | mk _ _ _ captured _ _ _ _ _ => captured

def caps : Chunk → List CapDesc
  | mk _ _ _ _ caps _ _ _ _ => caps

def code : Chunk → List Instruction
  | mk _ _ _ _ _ code _ _ _ => code

def constants : Chunk → List Value
  | mk _ _ _ _ _ _ constants _ _ => constants

def subChunks : Chunk → List Chunk
  | mk _ _ _ _ _ _ _ subChunks _ => subChunks

def fused : Chunk → List FusedOp
  | mk _ _ _ _ _ _ _ _ fused => fused

end Chunk

/-- The first index at or after `i` that a test accepts. -/
def findIndexFrom (p : Value → Bool) : Nat → List Value → Option Nat
  | _, [] => none
  | i, c :: cs => if p c then some i else findIndexFrom p (i + 1) cs

/-- The constant that `AddConstant` reuses: with a fingerprint, one filed under it, or
else one that has none; without, any. -/
def findConstant (constants : List Value) (v : Value) : Option Nat :=
  match fingerprint v with
  | none => findIndexFrom (fun c => c.equals v) 0 constants
  | some fp =>
    (findIndexFrom (fun c => fingerprint c == some fp && c.equals v) 0 constants).or
      (findIndexFrom (fun c => fingerprint c == none && c.equals v) 0 constants)

/-- `AddConstant`: the index, and the pool. -/
def addConstant (constants : List Value) (v : Value) : Nat × List Value :=
  match findConstant constants v with
  | some i => (i, constants)
  | none => (constants.length, constants ++ [v])

theorem findIndexFrom_spec {p : Value → Bool} {i j : Nat} {cs : List Value}
    (h : findIndexFrom p i cs = some j) : ∃ k c, j = i + k ∧ cs[k]? = some c ∧ p c = true := by
  induction cs generalizing i with
  | nil => cases h
  | cons c cs ih =>
    rw [findIndexFrom] at h
    split at h
    · cases h
      exact ⟨0, c, rfl, rfl, by assumption⟩
    · obtain ⟨k, d, hj, hk, hd⟩ := ih h
      exact ⟨k + 1, d, by rw [hj, Nat.add_assoc, Nat.add_comm 1], hk, hd⟩

theorem findConstant_spec {constants : List Value} {v : Value} {i : Nat}
    (h : findConstant constants v = some i) :
    ∃ c, constants[i]? = some c ∧ c.equals v = true := by
  unfold findConstant at h
  split at h
  · obtain ⟨k, c, hi, hk, hc⟩ := findIndexFrom_spec h
    exact ⟨c, by rw [hi, Nat.zero_add, hk], hc⟩
  · rw [Option.or_eq_some_iff] at h
    rcases h with h | ⟨-, h⟩ <;>
    · obtain ⟨k, c, hi, hk, hc⟩ := findIndexFrom_spec h
      rw [Bool.and_eq_true] at hc
      exact ⟨c, by rw [hi, Nat.zero_add, hk], hc.2⟩

variable (constants : List Value) (v : Value)

/-- Where `AddConstant` puts a value: in the pool it returns, which extends the pool it
got, stands the value or an equal one that was there. -/
theorem addConstant_spec :
    ∃ c, (addConstant constants v).2[(addConstant constants v).1]? = some c ∧
      (c = v ∨ c ∈ constants ∧ c.equals v = true) := by
  unfold addConstant
  cases h : findConstant constants v with
  | none => exact ⟨v, by simp, .inl rfl⟩
  | some i =>
    obtain ⟨c, hc, heq⟩ := findConstant_spec h
    exact ⟨c, hc, .inr ⟨List.mem_of_getElem? hc, heq⟩⟩

theorem addConstant_extends : constants <+: (addConstant constants v).2 := by
  unfold addConstant
  split
  · exact List.prefix_refl _
  · exact List.prefix_append _ _

end VM

end Lispico
