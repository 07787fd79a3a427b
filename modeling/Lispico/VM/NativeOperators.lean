import Lispico.Core.BuiltinBudget
import Lispico.Core.EqualsBounded
import Lispico.VM.FusedNative
import Mathlib

/-!
# Native operators and the builtins they replace

The machine computes nine operators itself instead of calling the builtins of the standard
library, which do the same under a work budget. A builtin is so many budget steps, which the
arguments determine, followed by the answer of the native operator.
-/

namespace Lispico

namespace Native

open Lispico.Core Lib Lib.Comp
open Lispico.VM (NativeOp Natives nativeInt2 hasStructuralArg)
open Lispico.Core.BuiltinWorkBudget (step budgeted)

/-- The operations on the bits of floats that the operators use. -/
structure FloatOps where
  add : UInt64 → UInt64 → UInt64
  sub : UInt64 → UInt64 → UInt64
  mul : UInt64 → UInt64 → UInt64
  div : UInt64 → UInt64 → UInt64
  neg : UInt64 → UInt64
  lt : UInt64 → UInt64 → Bool
  ofInt : Int64 → UInt64

/-- A number; an accumulator is an integer until the first float. -/
inductive Num where
  | int (v : Int64)
  | float (bits : UInt64)

namespace Num

def of : Value → Option Num
  | .int v => some (.int v)
  | .float bits => some (.float bits)
  | _ => none

def value : Num → Value
  | .int v => .int v
  | .float bits => .float bits

def isZero : Num → Bool
  | .int v => v == 0
  | .float bits => Value.floatEq bits 0

def toFloat (F : FloatOps) : Num → UInt64
  | .int v => F.ofInt v
  | .float bits => bits

/-- One round of an accumulation. -/
def combine (F : FloatOps) (onInt : Int64 → Int64 → Int64) (onFloat : UInt64 → UInt64 → UInt64) :
    Num → Num → Num
  | .int a, .int b => .int (onInt a b)
  | a, b => .float (onFloat (a.toFloat F) (b.toFloat F))

def negate (F : FloatOps) : Num → Num
  | .int v => .int (-v)
  | .float bits => .float (F.neg bits)

end Num

def expectedNumber (name : String) (arg : Value) : GoErr :=
  typeErrorf s!"{name}: expected number, got {arg.goType}"

section

variable (F : FloatOps)

def accumulate (name : String) (op : Num → Num → Num) : Num → List Value → Except GoErr Value
  | acc, [] => .ok acc.value
  | acc, arg :: args =>
    match Num.of arg with
    | some v => accumulate name op (op acc v) args
    | none => .error (expectedNumber name arg)

def nativeAdd : List Value → Except GoErr Value :=
  accumulate "+" (Num.combine F (· + ·) F.add) (.int 0)

def nativeSub : List Value → Except GoErr Value
  | [] => .error (arityErrorf "-: requires at least 1 argument")
  | arg :: args =>
    match Num.of arg with
    | none => .error (expectedNumber "-" arg)
    | some v =>
      if args = [] then .ok (v.negate F).value
      else accumulate "-" (Num.combine F (· - ·) F.sub) v args

def nativeMul : List Value → Except GoErr Value :=
  accumulate "*" (Num.combine F (· * ·) F.mul) (.int 1)

def divideBy : UInt64 → List Value → Except GoErr Value
  | dividend, [] => .ok (.float dividend)
  | dividend, arg :: args =>
    match Num.of arg with
    | none => .error (expectedNumber "/" arg)
    | some v =>
      if v.isZero then .error (evalErrorf "/: division by zero")
      else divideBy (F.div dividend (v.toFloat F)) args

def nativeDiv (args : List Value) : Except GoErr Value :=
  match args with
  | arg :: _ :: _ =>
    match Num.of arg with
    | none => .error (expectedNumber "/" arg)
    | some v => divideBy F (v.toFloat F) args.tail
  | _ => .error (arityErrorf "/: requires at least 2 arguments")

def toFloat (name : String) (v : Value) : Except GoErr UInt64 :=
  match Num.of v with
  | some n => .ok (n.toFloat F)
  | none => .error (expectedNumber name v)

def numCmp (name : String) (a b : Value) : Except GoErr Ordering :=
  match a, b with
  | .int a, .int b => .ok (if a < b then .lt else if a > b then .gt else .eq)
  | a, b => do
      let af ← toFloat F name a
      let bf ← toFloat F name b
      .ok (if F.lt af bf then .lt else if F.lt bf af then .gt else .eq)

def chain (name : String) (ok : Ordering → Bool) : Value → List Value → Except GoErr Value
  | _, [] => .ok (.bool true)
  | prev, arg :: args => do
      let cmp ← numCmp F name prev arg
      if ok cmp then chain name ok arg args else .ok (.bool false)

def nativeOrder (name : String) (ok : Ordering → Bool) : List Value → Except GoErr Value
  | [] => .error (arityErrorf s!"{name}: requires at least 1 argument")
  | arg :: args => do
      let _ ← toFloat F name arg
      chain F name ok arg args

def nativeEq : List Value → Except GoErr Value
  | [] => .error (arityErrorf "=: requires at least 1 argument")
  | arg :: args => .ok (.bool (args.all arg.equals))

def execNative : NativeOp → List Value → Except GoErr Value
  | .add => nativeAdd F
  | .sub => nativeSub F
  | .mul => nativeMul F
  | .div => nativeDiv F
  | .lt => nativeOrder F "<" (· == .lt)
  | .gt => nativeOrder F ">" (· == .gt)
  | .le => nativeOrder F "<=" (· != .gt)
  | .ge => nativeOrder F ">=" (· != .lt)
  | .eq => nativeEq

end

section

variable {σ : Type} (H : EvalHost σ) (F : FloatOps)

abbrev Work (σ α : Type) := Comp (BuiltinWorkBudget σ) GoErr α

def accumulateBounded (name : String) (op : Num → Num → Num) : Num → List Value → Work σ Value
  | acc, [] => ret acc.value
  | acc, arg :: args => do
      step H
      match Num.of arg with
      | some v => accumulateBounded name op (op acc v) args
      | none => fail (expectedNumber name arg)

def addNumbers (args : List Value) : Work σ Value :=
  accumulateBounded H "+" (Num.combine F (· + ·) F.add) (.int 0) args

def subtractNumbers : List Value → Work σ Value
  | [] => fail (arityErrorf "-: requires at least 1 argument")
  | arg :: args => do
      step H
      match Num.of arg with
      | none => fail (expectedNumber "-" arg)
      | some v =>
        if args = [] then ret (v.negate F).value
        else accumulateBounded H "-" (Num.combine F (· - ·) F.sub) v args

def multiplyNumbers (args : List Value) : Work σ Value :=
  if args = [] then ret (.int 1)
  else accumulateBounded H "*" (Num.combine F (· * ·) F.mul) (.int 1) args

def divideByBounded : UInt64 → List Value → Work σ Value
  | dividend, [] => ret (.float dividend)
  | dividend, arg :: args => do
      step H
      match Num.of arg with
      | none => fail (expectedNumber "/" arg)
      | some v =>
        if v.isZero then fail (evalErrorf "/: division by zero")
        else divideByBounded (F.div dividend (v.toFloat F)) args

def divideNumbers (args : List Value) : Work σ Value :=
  match args with
  | arg :: _ :: _ => do
      step H
      match Num.of arg with
      | none => fail (expectedNumber "/" arg)
      | some v => divideByBounded H F (v.toFloat F) args.tail
  | _ => fail (arityErrorf "/: requires at least 2 arguments")

def chainBounded (name : String) (ok : Ordering → Bool) : Value → List Value → Work σ Value
  | _, [] => ret (.bool true)
  | prev, arg :: args => do
      step H
      let cmp ← Comp.lift (numCmp F name prev arg)
      if ok cmp then chainBounded name ok arg args else ret (.bool false)

def orderingFunc (name : String) (ok : Ordering → Bool) : List Value → Work σ Value
  | [] => fail (arityErrorf s!"{name}: requires at least 1 argument")
  | arg :: args => do
      step H
      let _ ← Comp.lift (toFloat F name arg)
      chainBounded H F name ok arg args

/-- The comparisons of `equalsAll`, each after a step of its own, and of `boundedEqArgs`. -/
def equalToFirst (before : Work σ Unit) (first : Value) : List Value → Work σ Value
  | [] => ret (.bool true)
  | arg :: args => do
      before
      let eq ← Value.EqualsBounded (step H) first arg
      if eq then equalToFirst before first args else ret (.bool false)

def equalsAll : List Value → Work σ Value
  | [] => fail (arityErrorf "=: requires at least 1 argument")
  | arg :: args => step H >>= fun _ => equalToFirst H (step H) arg args

def boundedEqWalk : List Value → Work σ Value
  | [] => fail (arityErrorf "=: requires at least 1 argument")
  | arg :: args => step H >>= fun _ => equalToFirst H (ret ()) arg args

/-- The work of the builtin that an operator replaces. -/
def builtinOf : NativeOp → List Value → Work σ Value
  | .add => addNumbers H F
  | .sub => subtractNumbers H F
  | .mul => multiplyNumbers H F
  | .div => divideNumbers H F
  | .lt => orderingFunc H F "<" (· == .lt)
  | .gt => orderingFunc H F ">" (· == .gt)
  | .le => orderingFunc H F "<=" (· != .gt)
  | .ge => orderingFunc H F ">=" (· != .lt)
  | .eq => equalsAll H

/-- The general path of the machine: an equality of collections is bounded by a budget. -/
def nativeGeneral (op : NativeOp) (args : List Value) : Comp σ GoErr Value :=
  if op = .eq ∧ hasStructuralArg args then budgeted H (boundedEqWalk H args)
  else Comp.lift (execNative F op args)

end

/-- Some budget steps, then this answer. -/
def Answers {S α : Type} (tick : Comp S GoErr Unit) (m : Comp S GoErr α) (r : Except GoErr α) :
    Prop :=
  ∃ n, m = tick.times n >>= fun _ => Comp.lift r

namespace Answers

variable {S α β : Type} {tick : Comp S GoErr Unit} {m : Comp S GoErr α} {r : Except GoErr α}

theorem lift (r : Except GoErr α) : Answers tick (Comp.lift r) r := ⟨0, rfl⟩

theorem times_bind (n : Nat) (h : Answers tick m r) :
    Answers tick (tick.times n >>= fun _ => m) r := by
  obtain ⟨k, rfl⟩ := h
  exact ⟨n + k, by rw [times_add, bind_assoc']⟩

theorem tick_bind (h : Answers tick m r) : Answers tick (tick >>= fun _ => m) r := by
  have := times_bind 1 h
  rwa [times_one] at this

/-- A step that depends on a result which is the same on both sides. -/
theorem lift_bind {x : Except GoErr β} {f : β → Comp S GoErr α} {g : β → Except GoErr α}
    (h : ∀ b, Answers tick (f b) (g b)) : Answers tick (Comp.lift x >>= f) (x >>= g) := by
  cases x with
  | ok b => exact h b
  | error err =>
    rw [lift_error, fail_bind]
    exact lift (.error err)

end Answers

section

variable {σ : Type} (H : EvalHost σ) (F : FloatOps) (name : String) (ok : Ordering → Bool)
  (args : List Value)

theorem accumulate_answers (op : Num → Num → Num) (args : List Value) (acc : Num) :
    Answers (step H) (accumulateBounded H name op acc args) (accumulate name op acc args) := by
  induction args generalizing acc with
  | nil => exact .lift (.ok _)
  | cons arg args ih =>
    rw [accumulateBounded, accumulate]
    refine .tick_bind ?_
    cases Num.of arg with
    | none => exact .lift (.error _)
    | some v => exact ih _

theorem divideBy_answers (dividend : UInt64) :
    Answers (step H) (divideByBounded H F dividend args) (divideBy F dividend args) := by
  induction args generalizing dividend with
  | nil => exact .lift (.ok _)
  | cons arg args ih =>
    rw [divideByBounded, divideBy]
    refine .tick_bind ?_
    cases Num.of arg with
    | none => exact .lift (.error _)
    | some v =>
      dsimp only
      split
      · exact .lift (.error _)
      · exact ih _

theorem chain_answers (prev : Value) :
    Answers (step H) (chainBounded H F name ok prev args) (chain F name ok prev args) := by
  induction args generalizing prev with
  | nil => exact .lift (.ok _)
  | cons arg args ih =>
    refine .tick_bind (.lift_bind fun cmp => ?_)
    split
    · exact ih arg
    · exact .lift (.ok _)

theorem order_answers :
    Answers (step H) (orderingFunc H F name ok args) (nativeOrder F name ok args) := by
  cases args with
  | nil => exact .lift (.error _)
  | cons arg args =>
    exact .tick_bind (.lift_bind fun _ => chain_answers H F name ok args arg)

theorem equalToFirst_answers (before : Work σ Unit)
    (hbefore : ∀ {m : Work σ Value} {r}, Answers (step H) m r →
      Answers (step H) (before >>= fun _ => m) r) (first : Value) (args : List Value) :
    Answers (step H) (equalToFirst H before first args) (.ok (.bool (args.all first.equals))) := by
  induction args with
  | nil => exact .lift (.ok _)
  | cons arg args ih =>
    rw [equalToFirst, Value.EqualsBounded, Value.equalsBounded_eq, bind_assoc']
    refine hbefore (.times_bind _ ?_)
    rw [ret_bind, List.all_cons, Value.equals]
    cases Value.boundedEquals _ first arg with
    | false => exact .lift (.ok _)
    | true => exact ih

theorem builtinOf_answers (op : NativeOp) (args : List Value) :
    Answers (step H) (builtinOf H F op args) (execNative F op args) := by
  cases op with
  | add => exact accumulate_answers H _ _ _ _
  | sub =>
    cases args with
    | nil => exact .lift (.error _)
    | cons arg args =>
      refine .tick_bind ?_
      change Answers _ _ (nativeSub F (arg :: args))
      rw [nativeSub]
      cases Num.of arg with
      | none => exact .lift (.error _)
      | some v =>
        dsimp only
        split
        · exact .lift (.ok _)
        · exact accumulate_answers H _ _ _ _
  | mul =>
    change Answers _ (multiplyNumbers H F args) _
    rw [multiplyNumbers]
    split
    · rename_i h
      subst h
      exact .lift (.ok _)
    · exact accumulate_answers H _ _ _ _
  | div =>
    rcases args with _ | ⟨arg, _ | ⟨_, _⟩⟩
    · exact .lift (.error _)
    · exact .lift (.error _)
    · refine .tick_bind ?_
      change Answers _ _ (nativeDiv F (arg :: _ :: _))
      rw [nativeDiv]
      cases Num.of arg with
      | none => exact .lift (.error _)
      | some v => exact divideBy_answers H F _ _
  | lt | gt | le | ge => exact order_answers H F _ _ _
  | eq =>
    cases args with
    | nil => exact .lift (.error _)
    | cons arg args =>
      exact .tick_bind (equalToFirst_answers H _ Answers.tick_bind arg args)

theorem boundedEqWalk_answers : Answers (step H) (boundedEqWalk H args) (nativeEq args) := by
  cases args with
  | nil => exact .lift (.error _)
  | cons arg args => exact .tick_bind (equalToFirst_answers H (ret ()) (fun h => h) arg args)

end

theorem nativeInt2_eq {σ : Type} (F : FloatOps) (N : Natives σ) {op : NativeOp} {a b : Int64}
    {v : Value} (hdiv : ∀ a b, N.floatDiv a b = F.div (F.ofInt a) (F.ofInt b))
    (h : nativeInt2 N op a b = some v) : execNative F op [.int a, .int b] = .ok v := by
  have hlt : a < b ↔ a.toInt < b.toInt := Int64.lt_iff_toInt_lt
  have hgt : b < a ↔ b.toInt < a.toInt := Int64.lt_iff_toInt_lt
  have hle : a ≤ b ↔ a.toInt ≤ b.toInt := Int64.le_iff_toInt_le
  have hge : b ≤ a ↔ b.toInt ≤ a.toInt := Int64.le_iff_toInt_le
  cases op with
  | add =>
    cases h
    change Except.ok (Value.int (0 + a + b)) = _
    rw [Int64.zero_add]
  | sub =>
    cases h
    rfl
  | mul =>
    cases h
    change Except.ok (Value.int (1 * a * b)) = _
    rw [Int64.one_mul]
  | div =>
    simp only [nativeInt2] at h
    split at h
    · cases h
    · rename_i hb
      cases h
      simp [execNative, nativeDiv, Num.of, divideBy, Num.isZero, Num.toFloat, hb, hdiv]
  | eq =>
    cases h
    simp [execNative, nativeEq, Value.equals, Value.boundedEquals]
  | lt | gt | le | ge =>
    cases h
    simp only [execNative, nativeOrder, toFloat, Num.of, chain, numCmp]
    split_ifs <;> simp_all [bind, Except.bind] <;> omega

/-- For every operator and every argument list the machine's general path and the builtin
answer the same, the one without a budget or after budget steps, the other after budget steps;
on an evaluation that refuses nothing both give that answer. For two integers the fast path,
where it applies, gives that answer too. -/
theorem native_agrees_builtin (F : FloatOps) (op : NativeOp) (args : List Value) :
    ∃ r : Except GoErr Value, (∀ (σ : Type) (H : EvalHost σ),
        (∃ n, builtinOf H F op args = (step H).times n >>= fun _ => Comp.lift r) ∧
        (nativeGeneral H F op args = Comp.lift r ∨ ∃ n, nativeGeneral H F op args =
            budgeted H ((step H).times n >>= fun _ => Comp.lift r)) ∧
        (H.Unlimited → ∀ s, (∃ s', budgeted H (builtinOf H F op args) s = some (r, s')) ∧
          ∃ s', nativeGeneral H F op args s = some (r, s'))) ∧
      ∀ (σ : Type) (N : Natives σ) (a b : Int64) (v : Value),
        (∀ a b, N.floatDiv a b = F.div (F.ofInt a) (F.ofInt b)) → args = [.int a, .int b] →
        nativeInt2 N op a b = some v → r = .ok v := by
  refine ⟨execNative F op args, fun σ H => ?_, ?_⟩
  · have hbuiltin := builtinOf_answers H F op args
    have hgeneral : nativeGeneral H F op args = Comp.lift (execNative F op args) ∨
        ∃ n, nativeGeneral H F op args =
          budgeted H ((step H).times n >>= fun _ => Comp.lift (execNative F op args)) := by
      rw [nativeGeneral]
      split
      · rename_i h
        obtain ⟨n, hn⟩ := boundedEqWalk_answers H args
        exact .inr ⟨n, by rw [hn, h.1]; rfl⟩
      · exact .inl rfl
    refine ⟨hbuiltin, hgeneral, fun hH s => ⟨?_, ?_⟩⟩
    · obtain ⟨n, hn⟩ := hbuiltin
      rw [hn]
      exact BuiltinWorkBudget.budgeted_of_unlimited hH n _ s
    · rcases hgeneral with hn | ⟨n, hn⟩
      · refine ⟨s, ?_⟩
        rw [hn]
        cases execNative F op args <;> rfl
      · rw [hn]
        exact BuiltinWorkBudget.budgeted_of_unlimited hH n _ s
  · rintro σ N a b v hdiv rfl hfast
    exact nativeInt2_eq F N hdiv hfast

end Native

end Lispico
