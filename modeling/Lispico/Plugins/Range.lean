import Lispico.Core.BuiltinBudget
import Lispico.Lib.Int64

/-!
# The builtin range

The number of terms is computed without signs: the span between the bounds and the size of
the step are 64-bit words, so bounds and steps at the ends of the range need no care. The
loop adds the step only between two terms, never after the last one.
-/

namespace Lispico

namespace Stdlib

open Lispico.Core Lib Lib.Comp
open Lispico.Core.BuiltinWorkBudget (step onHost budgeted)

def defaultStdlibCollectionLen : Int64 := 10000000

/-- `collectionLimit`, of an evaluator that may set no limit. -/
def collectionLimit : Option Int64 → Int64
  | some n => if n > 0 then n else defaultStdlibCollectionLen
  | none => defaultStdlibCollectionLen

def lengthError (name : String) (n : Nat) (maxLen : Int64) : GoErr :=
  newResourceLimitError s!"{name} length {n} exceeds collection limit {maxLen}"

/-- The number of terms from `start` to before `stop`, as the source computes it. -/
def rangeCount (start stop by' : Int64) : UInt64 :=
  let stepMag := if by' > 0 then by'.toUInt64 else (-by').toUInt64
  let span :=
    if by' > 0 then if stop > start then stop.toUInt64 - start.toUInt64 else 0
    else if start > stop then start.toUInt64 - stop.toUInt64 else 0
  if span % stepMag ≠ 0 then span / stepMag + 1 else span / stepMag

section

variable {σ : Type} (H : EvalHost σ)

def rangeItems (by' : Int64) : Nat → Int64 → Comp (BuiltinWorkBudget σ) GoErr (List Value)
  | 0, _ => ret []
  | n + 1, cur => do
      step H
      onHost H.ctxErr
      let items ← rangeItems by' n (if n = 0 then cur else cur + by')
      ret (.int cur :: items)

/-- `chargeFreshDeepResult` of a list; `charge` checks the depth of the result and charges
its deep size. -/
def chargeFreshDeepResult (charge : Value → Comp σ GoErr Unit) (maxLen : Int64) (name : String)
    (items : List Value) : Comp σ GoErr Unit :=
  if (items.length : Int) > maxLen.toInt then fail (lengthError name items.length maxLen)
  else charge (.list items)

def rangeFrom (charge : Value → Comp σ GoErr Unit) (maxLen start stop by' : Int64) :
    Comp σ GoErr Value :=
  let count := rangeCount start stop by'
  if count > maxLen.toUInt64 then fail (lengthError "range" count.toNat maxLen)
  else do
    H.ctxErr
    budgeted H do
      let items ← rangeItems H by' count.toNat start
      onHost (chargeFreshDeepResult charge maxLen "range" items)
      ret (.list items)

def rangeBounds : List Value → Except GoErr (List Int64)
  | [] => .ok []
  | .int n :: args => (rangeBounds args).map (n :: ·)
  | arg :: _ => .error (typeErrorf s!"range: requires integer arguments, got {arg.goType}")

def range (charge : Value → Comp σ GoErr Unit) (limiter : Option Int64) (args : List Value) :
    Comp σ GoErr Value :=
  if args.length < 1 ∨ args.length > 3 then
    fail (arityErrorf "range: requires 1 to 3 arguments")
  else
    match rangeBounds args with
    | .error err => fail err
    | .ok [stop] => rangeFrom H charge (collectionLimit limiter) 0 stop 1
    | .ok [start, stop] => rangeFrom H charge (collectionLimit limiter) start stop 1
    | .ok [start, stop, by'] =>
      if by' = 0 then fail (evalErrorf "range: step must not be zero")
      else rangeFrom H charge (collectionLimit limiter) start stop by'
    | .ok _ => fail (arityErrorf "range: requires 1 to 3 arguments")

end

/-- The terms `start + k * step` for `k` below `n`. -/
def progression (start by' : Int64) (n : Nat) : List Value :=
  (List.range n).map fun k : Nat => .int (Int64.ofInt (start.toInt + (k : Int) * by'.toInt))

/-- A term lies strictly before the end, in the direction of the step. -/
def Before (by' : Int64) (stop term : Int) : Prop :=
  if 0 < by'.toInt then term < stop else stop < term

theorem progression_succ {start by' : Int64} {n : Nat}
    (h : (start + by').toInt = start.toInt + by'.toInt) :
    progression start by' (n + 1) = .int start :: progression (start + by') by' n := by
  have hhead : Int64.ofInt (start.toInt + (0 : Nat) * by'.toInt) = start := by simp
  rw [progression, List.range_succ_eq_map, List.map_cons, List.map_map, hhead, progression, h]
  congr 1
  apply List.map_congr_left
  intro k _
  simp only [Function.comp, Nat.succ_eq_add_one, Nat.cast_add, Nat.cast_one, add_mul, one_mul]
  rw [add_assoc, add_comm by'.toInt]

theorem toNat_toUInt64 (x : Int64) : (x.toUInt64.toNat : Int) = x.toInt % 2 ^ 64 := by
  have h := BitVec.toInt_eq_toNat_bmod x.toBitVec
  rw [Int64.toInt_toBitVec] at h
  change ((x.toBitVec.toNat : Nat) : Int) = _
  have := x.toBitVec.isLt
  rw [h, Int.bmod_def]
  omega

theorem toNat_toUInt64_sub {a b : Int64} (h : b.toInt ≤ a.toInt) :
    ((a.toUInt64 - b.toUInt64).toNat : Int) = a.toInt - b.toInt := by
  have ha := toNat_toUInt64 a
  have hb := toNat_toUInt64 b
  have := Int64.toInt_lt a
  have := Int64.le_toInt b
  have := a.toUInt64.toNat_lt
  have := b.toUInt64.toNat_lt
  rw [UInt64.toNat_sub]
  omega

theorem toNat_toUInt64_neg {a : Int64} (h : a.toInt ≤ 0) :
    ((-a).toUInt64.toNat : Int) = -a.toInt := by
  have := Int64.le_toInt a
  rw [toNat_toUInt64, Int64.toInt_neg, Int.bmod_def]
  omega

theorem toNat_ceilDiv (span mag : UInt64) (hmag : 0 < mag.toNat) (k : Nat) :
    k < (if span % mag ≠ 0 then span / mag + 1 else span / mag).toNat ↔
      k * mag.toNat < span.toNat := by
  have hmod : span % mag = 0 ↔ span.toNat % mag.toNat = 0 := by
    rw [← UInt64.toNat_mod, ← UInt64.toNat_inj]
    rfl
  by_cases h0 : span % mag = 0
  · rw [if_neg (not_not.2 h0), UInt64.toNat_div]
    exact Nat.lt_div_iff_mul_lt_of_dvd hmag.ne' (Nat.dvd_of_mod_eq_zero (hmod.1 h0))
  · rw [if_pos h0, UInt64.toNat_add, UInt64.toNat_div]
    rw [hmod] at h0
    -- A remainder needs a divisor of at least two, so the quotient has room for one more.
    have htwo : 2 ≤ mag.toNat := by
      by_contra h
      exact h0 (by rw [show mag.toNat = 1 by omega, Nat.mod_one])
    have hhalf : span.toNat / mag.toNat ≤ span.toNat / 2 := Nat.div_le_div_left htwo (by norm_num)
    have hspan := span.toNat_lt
    have hne : k * mag.toNat ≠ span.toNat := fun h => h0 (by rw [← h, Nat.mul_mod_left])
    rw [show (1 : UInt64).toNat = 1 from rfl, Nat.mod_eq_of_lt (by omega), Nat.lt_succ_iff,
      Nat.le_div_iff_mul_le hmag]
    omega

theorem lt_rangeCount_iff (start stop : Int64) {by' : Int64} (hby : by' ≠ 0) (k : Nat) :
    k < (rangeCount start stop by').toNat ↔
      Before by' stop.toInt (start.toInt + k * by'.toInt) := by
  have hne : by'.toInt ≠ 0 := fun h => hby (Int64.toInt_inj.1 h)
  have hstop : start < stop ↔ start.toInt < stop.toInt := Int64.lt_iff_toInt_lt
  have hstart : stop < start ↔ stop.toInt < start.toInt := Int64.lt_iff_toInt_lt
  have hpos : by' > 0 ↔ 0 < by'.toInt := Int64.lt_iff_toInt_lt
  have hzero : (0 : UInt64).toNat = 0 := rfl
  rw [rangeCount, Before]
  by_cases h : 0 < by'.toInt
  · have hmag : (by'.toUInt64.toNat : Int) = by'.toInt := by
      have := Int64.toInt_lt by'
      rw [toNat_toUInt64]
      omega
    simp only [if_pos (hpos.2 h), if_pos h]
    rw [toNat_ceilDiv _ _ (by omega), ← hmag]
    by_cases hlt : start.toInt < stop.toInt
    · have hspan := toNat_toUInt64_sub hlt.le
      rw [if_pos (hstop.2 hlt)]
      omega
    · have : 0 ≤ (k : Int) * by'.toUInt64.toNat := by positivity
      rw [if_neg (fun h => hlt (hstop.1 h)), hzero]
      omega
  · have hmag : ((-by').toUInt64.toNat : Int) = -by'.toInt := toNat_toUInt64_neg (by omega)
    have hterm : (k : Int) * by'.toInt = -((k * (-by').toUInt64.toNat : Nat) : Int) := by
      push_cast
      rw [hmag, mul_neg, neg_neg]
    simp only [if_neg (fun hp => h (hpos.1 hp)), if_neg h]
    rw [toNat_ceilDiv _ _ (by omega), hterm]
    by_cases hlt : stop.toInt < start.toInt
    · have hspan := toNat_toUInt64_sub hlt.le
      rw [if_pos (hstart.2 hlt)]
      omega
    · rw [if_neg (fun h => hlt (hstart.1 h)), hzero]
      omega

theorem Before.bounds {start stop by' : Int64} {k : Nat}
    (h : Before by' stop.toInt (start.toInt + k * by'.toInt)) :
    -2 ^ 63 ≤ start.toInt + k * by'.toInt ∧ start.toInt + k * by'.toInt < 2 ^ 63 := by
  have := Int64.le_toInt start
  have := Int64.toInt_lt start
  have := Int64.le_toInt stop
  have := Int64.toInt_lt stop
  rw [Before] at h
  split at h
  · have : 0 ≤ (k : Int) * by'.toInt := by positivity
    omega
  · have : (k : Int) * by'.toInt ≤ 0 := mul_nonpos_of_nonneg_of_nonpos (by positivity) (by omega)
    omega

section

variable {σ : Type} (H : EvalHost σ)

def rangeTick : Comp (BuiltinWorkBudget σ) GoErr Unit := step H >>= fun _ => onHost H.ctxErr

theorem rangeItems_eq (by' : Int64) (n : Nat) (cur : Int64)
    (h : ∀ k < n, -2 ^ 63 ≤ cur.toInt + k * by'.toInt ∧ cur.toInt + k * by'.toInt < 2 ^ 63) :
    rangeItems H by' n cur = (rangeTick H).times n >>= fun _ => ret (progression cur by' n) := by
  induction n generalizing cur with
  | zero => rfl
  | succ n ih =>
    rw [rangeItems, Comp.times, rangeTick, bind_assoc', bind_assoc']
    congr 1; funext _; congr 1; funext _
    cases n with
    | zero =>
      rw [ih _ (by simp)]
      simp [Comp.times, progression]
    | succ n =>
      have hnext := h 1 (by omega)
      have hcur : (cur + by').toInt = cur.toInt + by'.toInt := toInt_add_eq (by omega) (by omega)
      rw [if_neg n.succ_ne_zero, ih, ← rangeTick, bind_assoc', progression_succ hcur]
      · rfl
      · intro k hk
        have := h (k + 1) (by omega)
        push_cast at this
        rw [hcur]
        constructor <;> linarith

/-- For every start and end and every step but zero there is a number of terms, those strictly
before the end. If it is within the collection limit, `range` does a round of budget and
cancellation checks for each of them, charges the result and gives exactly these terms, which
are words; beyond the limit it refuses. -/
theorem range_progression (charge : Value → Comp σ GoErr Unit) (limiter : Option Int64)
    (start stop by' : Int64) (hby : by' ≠ 0) :
    ∃ n : Nat, (∀ k : Nat, k < n ↔ Before by' stop.toInt (start.toInt + k * by'.toInt)) ∧
      (∀ k < n, (Int64.ofInt (start.toInt + k * by'.toInt)).toInt = start.toInt + k * by'.toInt) ∧
      ((n : Int) ≤ (collectionLimit limiter).toInt →
        range H charge limiter [.int start, .int stop, .int by'] = H.ctxErr >>= fun _ =>
          budgeted H ((rangeTick H).times n >>= fun _ =>
            onHost (charge (.list (progression start by' n))) >>= fun _ =>
              ret (.list (progression start by' n)))) ∧
      ((collectionLimit limiter).toInt < n →
        range H charge limiter [.int start, .int stop, .int by'] =
          fail (lengthError "range" n (collectionLimit limiter))) := by
  have hcount := lt_rangeCount_iff start stop hby
  have hbounds : ∀ k < (rangeCount start stop by').toNat, _ := fun k hk =>
    ((hcount k).1 hk).bounds
  have hlimit : 0 < (collectionLimit limiter).toInt := by
    rcases limiter with _ | m
    · decide
    · rw [collectionLimit]
      split
      · rename_i hm
        exact Int64.lt_iff_toInt_lt.1 hm
      · decide
  have hmax :
      ((collectionLimit limiter).toUInt64.toNat : Int) = (collectionLimit limiter).toInt := by
    have := Int64.toInt_lt (collectionLimit limiter)
    rw [toNat_toUInt64]
    omega
  have hargs : range H charge limiter [.int start, .int stop, .int by'] =
      rangeFrom H charge (collectionLimit limiter) start stop by' := if_neg hby
  refine ⟨_, hcount, fun k hk => Int64.toInt_ofInt_of_le (hbounds k hk).1 (hbounds k hk).2, ?_, ?_⟩
  · intro hle
    have hlen : (progression start by' (rangeCount start stop by').toNat).length =
        (rangeCount start stop by').toNat := by simp [progression]
    rw [hargs, rangeFrom, if_neg (by rw [gt_iff_lt, UInt64.lt_iff_toNat_lt]; omega),
      rangeItems_eq H by' _ start hbounds]
    simp only [bind_assoc', ret_bind, chargeFreshDeepResult, hlen, if_neg (not_lt.2 hle)]
  · intro hlt
    rw [hargs, rangeFrom, if_pos (by rw [gt_iff_lt, UInt64.lt_iff_toNat_lt]; omega)]

end

/-- From the least integer to the greatest, in steps of the greatest. -/
theorem range_progression_extremes : Int64.maxValue ≠ 0 ∧ ∃ n : Nat, ∀ k : Nat, k < n ↔
    Before Int64.maxValue Int64.maxValue.toInt
      (Int64.minValue.toInt + k * Int64.maxValue.toInt) :=
  ⟨by decide, (range_progression (σ := Unit) ⟨fun _ => ret (), fun _ => ret (),
    ret ()⟩ (fun _ => ret ()) none _ _ _ (by decide)).imp fun _ h => h.1⟩

end Stdlib

end Lispico
