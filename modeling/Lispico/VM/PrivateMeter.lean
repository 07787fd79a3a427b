import Lispico.Lib.Int64
import Lispico.Meter.Charge

/-!
# The private counters of a VM

A VM without an evaluation meter counts in two plain integers and finds an overflow by comparing
the sum with the charge; the shared ledger keeps a charge above the limit off its add and
saturates. The two give the same answers and totals.
-/

namespace Lispico

namespace VM

open Lib Lispico.Core Meter Int64

def defaultLimit : Resource → Int64
  | .reductions => 10000000
  | .allocBytes => 67108864

def normalizeEvalLimit (v def' : Int64) : Int64 := if v ≤ 0 then def' else v

structure EvalMeterSnapshot where
  max : Resource → Int64
  total : Resource → Int64

structure PrivateMeter where
  max : Resource → Int64
  total : Resource → Int64

def chargePrivate (total max n : Int64) : Int64 × Bool :=
  let sum := total + n
  if sum < n then (Int64.maxValue, false) else (sum, sum ≤ max)

namespace PrivateMeter

def setResourceLimits (limits : Resource → Int64) : PrivateMeter :=
  ⟨fun r => if limits r ≤ 0 then defaultLimit r else limits r, fun _ => 0⟩

def charge (vm : PrivateMeter) (r : Resource) (n : Int64) : Except GoErr Unit × PrivateMeter :=
  if n ≤ 0 then (.ok (), vm)
  else if vm.max r ≤ 0 then (.ok (), vm)
  else
    let charged := chargePrivate (vm.total r) (vm.max r) n
    (if charged.2 then .ok () else .error (chargeError r (vm.max r)),
      { vm with total := Function.update vm.total r charged.1 })

def snapshot (vm : PrivateMeter) : EvalMeterSnapshot := ⟨vm.max, vm.total⟩

def run (vm : PrivateMeter) : List (Resource × Int64) → List (Except GoErr Unit) × PrivateMeter
  | [] => ([], vm)
  | (r, n) :: charges =>
    let charged := vm.charge r n
    let rest := charged.2.run charges
    (charged.1 :: rest.1, rest.2)

end PrivateMeter

/-- The limits and counters of an evaluation state without a session meter. -/
structure EvalLedger where
  max : Resource → Int64
  counter : Resource → Int64

namespace EvalLedger

def newEvalStateWithLimits (limits : Resource → Int64) : EvalLedger :=
  ⟨fun r => normalizeEvalLimit (limits r) (defaultLimit r), fun _ => 0⟩

/-- So many atomic steps of a charge, with no other charge in between. -/
def advanceAlone (max n : Int64) : Nat → Int64 × Phase → Int64 × Phase
  | 0, s => s
  | steps + 1, s => advanceAlone max n steps (advance max n s.1 s.2)

/-- A charge from its call to its end: the call, the add, a load and a swap. -/
def chargeAlone (max n counter : Int64) : Int64 × Phase :=
  advanceAlone max n 4 (counter, .calling)

def charge (st : EvalLedger) (r : Resource) (n : Int64) : Except GoErr Unit × EvalLedger :=
  let max := if st.max r ≤ 0 then defaultLimit r else st.max r
  let charged := chargeAlone max n (st.counter r)
  (if charged.2 = .admitted then .ok () else .error (chargeError r max),
    { st with counter := Function.update st.counter r charged.1 })

def snapshot (st : EvalLedger) : EvalMeterSnapshot :=
  ⟨st.max, fun r => publishedTotal (st.counter r)⟩

def run (st : EvalLedger) : List (Resource × Int64) → List (Except GoErr Unit) × EvalLedger
  | [] => ([], st)
  | (r, n) :: charges =>
    let charged := st.charge r n
    let rest := charged.2.run charges
    (charged.1 :: rest.1, rest.2)

end EvalLedger

theorem chargeAlone_nonpos {max n : Int64} (hn : n ≤ 0) (counter : Int64) :
    EvalLedger.chargeAlone max n counter = (counter, .admitted) := by
  simp [EvalLedger.chargeAlone, EvalLedger.advanceAlone, advance, hn]

section

variable {max n counter : Int64}

theorem sum_lt_iff (hn : 0 < n) (hc : 0 ≤ counter) :
    counter + n < n ↔ 2 ^ 63 ≤ counter.toInt + n.toInt := by
  rw [lt_iff_toInt_lt, toInt_zero] at hn
  rw [le_iff_toInt_le, toInt_zero] at hc
  rw [lt_iff_toInt_lt]
  by_cases h : 2 ^ 63 ≤ counter.toInt + n.toInt
  · rw [toInt_add_wrapped h]
    have := toInt_lt counter
    omega
  · rw [toInt_add_eq (by omega) (by omega)]
    omega

theorem le_sum_iff (hn : 0 < n) (hc : 0 ≤ counter) :
    counter ≤ counter + n ↔ counter.toInt + n.toInt < 2 ^ 63 := by
  rw [lt_iff_toInt_lt, toInt_zero] at hn
  rw [le_iff_toInt_le, toInt_zero] at hc
  rw [le_iff_toInt_le]
  by_cases h : 2 ^ 63 ≤ counter.toInt + n.toInt
  · rw [toInt_add_wrapped h]
    have := toInt_lt n
    omega
  · rw [toInt_add_eq (by omega) (by omega)]
    omega

theorem chargePrivate_eq (hn : 0 < n) (hc : 0 ≤ counter) : chargePrivate counter max n =
      if 2 ^ 63 ≤ counter.toInt + n.toInt then (Int64.maxValue, false)
      else (counter + n, decide (counter + n ≤ max)) := by
  simp only [chargePrivate, sum_lt_iff hn hc]

theorem saturatedTotal_eq (hlarge : max < n) (hn : 0 < n) (hc : 0 ≤ counter) :
    saturatedTotal max n counter =
      if 2 ^ 63 ≤ counter.toInt + n.toInt then Int64.maxValue else counter + n := by
  unfold saturatedTotal
  by_cases h : 2 ^ 63 ≤ counter.toInt + n.toInt
  · rw [if_pos h, if_neg]
    rintro ⟨-, -, hsum⟩
    have := (le_sum_iff hn hc).1 hsum
    omega
  · rw [if_neg h, if_pos ⟨hlarge, hc, (le_sum_iff hn hc).2 (by omega)⟩]

theorem advanceAlone_loading (max n counter : Int64) (steps : Nat) :
    EvalLedger.advanceAlone max n (steps + 2) (counter, .loading) =
      (saturatedTotal max n counter, .refused) := by
  have hend : ∀ k c, EvalLedger.advanceAlone max n k (c, .refused) = (c, .refused) := by
    intro k c
    induction k with
    | zero => rfl
    | succ k ih => exact ih
  by_cases h : saturatedTotal max n counter = counter
  · simp only [EvalLedger.advanceAlone, advance, h, if_true, hend]
  · simp only [EvalLedger.advanceAlone, advance, h, if_false, if_true, hend]

theorem chargeAlone_large (hlarge : max < n) (hn : 0 < n) (counter : Int64) :
    EvalLedger.chargeAlone max n counter = (saturatedTotal max n counter, .refused) := by
  have hpos : ¬ n ≤ 0 := Int64.not_le.2 hn
  have hcall : advance max n counter .calling = (counter, .loading) := by
    simp only [advance, if_neg hpos, gt_iff_lt, hlarge, if_true]
  rw [EvalLedger.chargeAlone, EvalLedger.advanceAlone, hcall, advanceAlone_loading]

theorem chargeAlone_small (hsmall : ¬ max < n) (hn : 0 < n) (counter : Int64) :
    EvalLedger.chargeAlone max n counter =
      if counter + n < n then (Int64.maxValue, .refused)
      else (counter + n, if counter + n ≤ max then .admitted else .refused) := by
  have hpos : ¬ n ≤ 0 := Int64.not_le.2 hn
  have hcall : advance max n counter .calling = (counter, .adding) := by
    simp only [advance, if_neg hpos, gt_iff_lt, hsmall, if_false]
  rw [EvalLedger.chargeAlone, EvalLedger.advanceAlone, hcall, EvalLedger.advanceAlone]
  by_cases hwrap : counter + n < n
  · have hadd : advance max n counter .adding = (counter + n, .loading) := by
      simp only [advance, ge_iff_le, Int64.not_le.2 hwrap, if_false]
    have hpin : saturatedTotal max n (counter + n) = Int64.maxValue := by
      rw [saturatedTotal, if_neg fun h => hsmall h.1]
    rw [hadd, advanceAlone_loading, hpin, if_pos hwrap]
  · have hadd : advance max n counter .adding =
        (counter + n, if counter + n ≤ max then .admitted else .refused) := by
      simp only [advance, ge_iff_le, Int64.not_lt.1 hwrap, if_true]
    rw [hadd, if_neg hwrap]
    by_cases hle : counter + n ≤ max
    · rw [if_pos hle]
      rfl
    · rw [if_neg hle]
      rfl

theorem chargeAlone_eq (hn : 0 < n) (hc : 0 ≤ counter) : EvalLedger.chargeAlone max n counter =
      ((chargePrivate counter max n).1,
        if (chargePrivate counter max n).2 then .admitted else .refused) := by
  by_cases hlarge : max < n
  · rw [chargeAlone_large hlarge hn, saturatedTotal_eq hlarge hn hc, chargePrivate_eq hn hc]
    by_cases h : 2 ^ 63 ≤ counter.toInt + n.toInt
    · simp only [h, if_true, Bool.false_eq_true, if_false]
    · have hle : ¬ counter + n ≤ max := by
        rw [lt_iff_toInt_lt] at hlarge hn
        rw [le_iff_toInt_le] at hc
        rw [toInt_zero] at hn hc
        rw [le_iff_toInt_le, toInt_add_eq (by omega) (by omega)]
        omega
      simp only [h, if_false, hle, decide_false, Bool.false_eq_true]
  · rw [chargeAlone_small hlarge hn, chargePrivate]
    by_cases h : counter + n < n
    · simp only [h, if_true, Bool.false_eq_true, if_false]
    · simp only [h, if_false, decide_eq_true_eq]

theorem chargePrivate_nonneg (hn : 0 < n) : 0 ≤ (chargePrivate counter max n).1 := by
  unfold chargePrivate
  by_cases h : counter + n < n
  · simp only [h, if_true]
    decide
  · simp only [h, if_false]
    exact Int64.le_trans (Int64.le_of_lt hn) (Int64.not_lt.1 h)

end

/-- The VM and the ledger have the same positive limits and the same plain totals. -/
structure Mirrors (vm : PrivateMeter) (st : EvalLedger) : Prop where
  max : vm.max = st.max
  max_pos : ∀ r, 0 < vm.max r
  total : vm.total = st.counter
  nonneg : ∀ r, 0 ≤ vm.total r

theorem mirrors_new (limits : Resource → Int64) :
    Mirrors (PrivateMeter.setResourceLimits limits)
      (EvalLedger.newEvalStateWithLimits limits) := by
  refine ⟨rfl, fun r => ?_, rfl, fun _ => Int64.le_refl 0⟩
  by_cases h : limits r ≤ 0
  · simp only [PrivateMeter.setResourceLimits, h, if_true]
    cases r <;> decide
  · simp only [PrivateMeter.setResourceLimits, h, if_false]
    exact Int64.not_le.1 h

variable {vm : PrivateMeter} {st : EvalLedger}

theorem Mirrors.charge (h : Mirrors vm st) (r : Resource) (n : Int64) :
    (vm.charge r n).1 = (st.charge r n).1 ∧ Mirrors (vm.charge r n).2 (st.charge r n).2 := by
  have hmax : ¬ vm.max r ≤ 0 := Int64.not_le.2 (h.max_pos r)
  have hmax' : ¬ st.max r ≤ 0 := h.max ▸ hmax
  by_cases hn : n ≤ 0
  · have hkept : Function.update st.counter r (st.counter r) = st.counter :=
      Function.update_eq_self r st.counter
    simp only [PrivateMeter.charge, EvalLedger.charge, hn, if_true, hmax', if_false,
      chargeAlone_nonpos hn, hkept]
    exact ⟨trivial, h⟩
  · have hpos : 0 < n := Int64.not_le.1 hn
    have hcharge := @chargeAlone_eq (vm.max r) n (vm.total r) hpos (h.nonneg r)
    simp only [PrivateMeter.charge, EvalLedger.charge, hn, hmax, if_false, ← h.max,
      ← h.total, hcharge]
    refine ⟨?_, rfl, h.max_pos, rfl, fun r' => ?_⟩
    · cases (chargePrivate (vm.total r) (vm.max r) n).2 <;> rfl
    · by_cases hr : r' = r
      · subst hr
        simp only [Function.update_self]
        exact chargePrivate_nonneg hpos
      · simp only [Function.update_of_ne hr]
        exact h.nonneg r'

theorem Mirrors.run (h : Mirrors vm st) (charges : List (Resource × Int64)) :
    (vm.run charges).1 = (st.run charges).1 ∧ Mirrors (vm.run charges).2 (st.run charges).2 := by
  induction charges generalizing vm st with
  | nil => exact ⟨rfl, h⟩
  | cons c charges ih =>
    obtain ⟨r, n⟩ := c
    obtain ⟨hanswer, hnext⟩ := h.charge r n
    obtain ⟨hanswers, hlast⟩ := ih hnext
    exact ⟨List.cons_eq_cons.2 ⟨hanswer, hanswers⟩, hlast⟩

theorem Mirrors.snapshot (h : Mirrors vm st) : vm.snapshot = st.snapshot := by
  have hpublished : (fun r => publishedTotal (st.counter r)) = vm.total := by
    funext r
    have hnot : ¬ vm.total r < 0 := Int64.not_lt.2 (h.nonneg r)
    rw [publishedTotal, ← h.total, if_neg hnot]
  rw [PrivateMeter.snapshot, EvalLedger.snapshot, hpublished, h.max]

/-- For all limits and all sequences of charges, the private counters answer as the ledger does
and report the totals that it reports. -/
theorem privateMeter_mirrors_ledger (limits : Resource → Int64)
    (charges : List (Resource × Int64)) :
    ((PrivateMeter.setResourceLimits limits).run charges).1 =
        ((EvalLedger.newEvalStateWithLimits limits).run charges).1 ∧
      ((PrivateMeter.setResourceLimits limits).run charges).2.snapshot =
        ((EvalLedger.newEvalStateWithLimits limits).run charges).2.snapshot := by
  obtain ⟨hanswers, hlast⟩ := (mirrors_new limits).run charges
  exact ⟨hanswers, hlast.snapshot⟩

end VM

end Lispico
