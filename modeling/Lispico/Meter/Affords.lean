import Lispico.Meter.Lease
import Lispico.Lib.Int64

/-!
# What an evaluation affords

An evaluation affords an amount of each resource when its ledger admits every sequence of
charges within these amounts, whether it charges counters of its own or takes leases from a
session meter. A charge on a counter that is admitted is added to it; a charge on a lease
leaves the counters alone.
-/

namespace Lispico

namespace Meter

namespace EvalState

open Function Int64

def amount (r : Resource) (charges : List (Resource × Nat)) : Nat :=
  ((charges.filter fun c => c.1 = r).map Prod.snd).sum

def AdmitsAll (meters : Meters) : List (Resource × Nat) → EvalState → Prop
  | [], _ => True
  | (r, n) :: charges, s =>
    (s.charge meters r (Int64.ofNat n)).1 = .done ∧
      AdmitsAll meters charges (s.charge meters r (Int64.ofNat n)).2

/-- The ledger admits every sequence of charges within these amounts. -/
def Affords (meters : Meters) (room : Resource → Nat) (s : EvalState) : Prop :=
  ∀ charges, (∀ r, amount r charges ≤ room r) → AdmitsAll meters charges s

theorem amount_cons (r r' : Resource) (n : Nat) (charges : List (Resource × Nat)) :
    amount r ((r', n) :: charges) = (if r' = r then n else 0) + amount r charges := by
  by_cases h : r' = r <;> simp [amount, h]

section

variable {meters : Meters} {room room' : Resource → Nat} {s : EvalState} {r : Resource} {n : Nat}

theorem Affords.mono (h : s.Affords meters room) (hle : ∀ r, room' r ≤ room r) :
    s.Affords meters room' :=
  fun charges hc => h charges fun r => (hc r).trans (hle r)

theorem Affords.charge (h : s.Affords meters room) (hn : n ≤ room r) :
    (s.charge meters r (Int64.ofNat n)).1 = .done ∧
      (s.charge meters r (Int64.ofNat n)).2.Affords meters (update room r (room r - n)) := by
  have hfirst (charges : List (Resource × Nat))
      (hc : ∀ r', amount r' charges ≤ update room r (room r - n) r') :
      AdmitsAll meters ((r, n) :: charges) s := by
    refine h _ fun r' => ?_
    rw [amount_cons]
    have hc' := hc r'
    by_cases hr : r = r'
    · subst hr
      rw [update_self] at hc'
      rw [if_pos rfl]
      omega
    · rw [update_of_ne (.symm hr)] at hc'
      rw [if_neg hr, Nat.zero_add]
      exact hc'
  exact ⟨(hfirst [] fun r' => Nat.zero_le _).1, fun charges hc => (hfirst charges hc).2⟩

end

section

variable (meters : Meters) (r : Resource) (n : Int64) (s : EvalState)

def SameCounters (s s' : EvalState) : Prop := s'.limits = s.limits ∧ s'.counter = s.counter

def Unused (s s' : EvalState) : Prop :=
  SameCounters s s' ∧ s'.budget = s.budget ∧ s'.meter = s.meter ∧
    s'.book .consumed = s.book .consumed

theorem leaseEval_unused (want : Resource → Int64) : Unused s (leaseEval meters want s).2 := by
  unfold leaseEval
  split
  · exact ⟨⟨rfl, rfl⟩, rfl, rfl, rfl⟩
  · split_ifs
    · exact ⟨⟨rfl, rfl⟩, rfl, rfl, rfl⟩
    · split
      · exact ⟨⟨rfl, rfl⟩, rfl, rfl, rfl⟩
      · unfold takeLease giveBack
        split
        · dsimp only
          split_ifs <;> exact ⟨⟨rfl, rfl⟩, rfl, rfl, rfl⟩
        · dsimp only
          split_ifs <;> exact ⟨⟨rfl, rfl⟩, rfl, rfl, rfl⟩

theorem renewLease_unused : Unused s (renewLease meters r n s).2 := by
  unfold renewLease
  split_ifs
  · exact leaseEval_unused meters s _
  · exact ⟨⟨rfl, rfl⟩, rfl, rfl, rfl⟩

theorem use_counters (used : Int64) : SameCounters s (s.use r used) := by
  unfold use
  dsimp only
  split <;> exact ⟨rfl, rfl⟩

def roundState : Except (Reply × EvalState) (Int64 × EvalState) → EvalState
  | .error ended => ended.2
  | .ok rest => rest.2

theorem consumeRound_counters : SameCounters s (roundState (consumeRound meters r n s)) := by
  have hrenew := (renewLease_unused meters r n s).1
  unfold consumeRound
  generalize renewLease meters r n s = out at hrenew
  rcases out with ⟨_ | _ | _, s'⟩
  · dsimp only
    split_ifs
    · exact hrenew
    · have huse := use_counters r s' (min n (s'.leased r))
      exact ⟨huse.1.trans hrenew.1, huse.2.trans hrenew.2⟩
  · exact hrenew
  · exact hrenew

theorem consumeLease_counters (rounds : Nat) :
    SameCounters s (consumeLease meters r rounds n s).2 := by
  induction rounds generalizing n s with
  | zero => exact ⟨rfl, rfl⟩
  | succ rounds ih =>
    have hround := consumeRound_counters meters r n s
    rw [consumeLease]
    split_ifs
    · exact ⟨rfl, rfl⟩
    · generalize consumeRound meters r n s = out at hround
      rcases out with ended | ⟨n', s'⟩
      · exact hround
      · have hrest := ih n' s'
        exact ⟨hrest.1.trans hround.1, hrest.2.trans hround.2⟩

theorem charge_limits : (s.charge meters r n).2.limits = s.limits := by
  unfold EvalState.charge
  split_ifs
  · rfl
  · exact (consumeLease_counters meters r n s _).1
  · rfl

theorem charge_counter_of_ne {r' : Resource} (h : r' ≠ r) :
    (s.charge meters r n).2.counter r' = s.counter r' := by
  unfold EvalState.charge
  split_ifs
  · rfl
  · rw [(consumeLease_counters meters r n s _).2]
  · exact update_of_ne h _ _

end

variable (max n counter : Int64) (meters : Meters) {s : EvalState}

theorem advance_of_loading :
    ((fun c : Int64 × Phase => advance max n c.1 c.2)^[2] (counter, .loading)).2 = .refused := by
  by_cases h : saturatedTotal max n counter = counter
  · have hload : advance max n counter .loading = (counter, .refused) := by
      simp only [advance, h, if_true]
    change (advance max n (advance max n counter .loading).1 (advance max n counter .loading).2).2
      = .refused
    rw [hload]
    rfl
  · have hload : advance max n counter .loading =
        (counter, .swapping counter (saturatedTotal max n counter)) := by
      simp only [advance, h, if_false]
    change (advance max n (advance max n counter .loading).1 (advance max n counter .loading).2).2
      = .refused
    rw [hload]
    simp only [advance, if_true]

theorem toInt_add_of_ge {n counter : Int64} (hn : 0 < n.toInt) (hc : 0 ≤ counter.toInt)
    (h : counter + n ≥ n) : (counter + n).toInt = counter.toInt + n.toInt := by
  rw [ge_iff_le, le_iff_toInt_le] at h
  rcases lt_or_ge (counter.toInt + n.toInt) (2 ^ 63) with hlt | hge
  · exact Lib.toInt_add_eq (by omega) hlt
  · rw [Lib.toInt_add_wrapped hge] at h
    have hcounter := toInt_lt counter
    omega

theorem settleCharge_admitted {max n counter : Int64} (hn : 0 < n.toInt)
    (hc : 0 ≤ counter.toInt) (h : (settleCharge max n counter).2 = .admitted) :
    (settleCharge max n counter).1.toInt = counter.toInt + n.toInt := by
  have hpos : ¬n ≤ 0 := by
    rw [le_iff_toInt_le, toInt_zero]
    omega
  unfold settleCharge at h ⊢
  rw [iterate_succ_apply] at h ⊢
  by_cases hmax : n > max
  · have hcall : advance max n counter .calling = (counter, .loading) := by
      simp only [advance, hpos, hmax, if_true, if_false]
    rw [hcall, iterate_succ_apply', advance_of_loading] at h
    cases h
  · have hcall : advance max n counter .calling = (counter, .adding) := by
      simp only [advance, hpos, hmax, if_false]
    rw [hcall, iterate_succ_apply] at h ⊢
    by_cases hadd : counter + n ≥ n
    · have hstep : advance max n counter .adding =
          (counter + n, if counter + n ≤ max then .admitted else .refused) := by
        simp only [advance, hadd, if_true]
      rw [hstep] at h ⊢
      by_cases hfits : counter + n ≤ max
      · rw [if_pos hfits]
        exact toInt_add_of_ge hn hc hadd
      · rw [if_neg hfits] at h
        cases h
    · have hstep : advance max n counter .adding = (counter + n, .loading) := by
        simp only [advance, hadd, if_false]
      rw [hstep, advance_of_loading] at h
      cases h

/-- The bytes that the ledger still admits, as an embedder reads them. -/
def headroom (s : EvalState) : Nat :=
  (s.limits.max .allocBytes).toInt.toNat - (publishedTotal (s.counter .allocBytes)).toInt.toNat

theorem headroom_le (s : EvalState) : s.headroom ≤ 2 ^ 63 - 1 := by
  have hmax := toInt_lt (s.limits.max .allocBytes)
  unfold headroom
  omega

theorem charge_headroom_reductions (n : Int64) (s : EvalState) :
    (s.charge meters .reductions n).2.headroom = s.headroom := by
  unfold headroom
  rw [charge_limits, charge_counter_of_ne _ _ _ _ (by decide)]

theorem charge_headroom_bytes {meters : Meters} {n : Int64}
    (h : (s.charge meters .allocBytes n).1 = .done) :
    s.headroom ≤ (s.charge meters .allocBytes n).2.headroom + n.toInt.toNat := by
  unfold headroom
  rw [charge_limits]
  unfold EvalState.charge at h ⊢
  split_ifs at h ⊢ with hn hmeter
  · exact Nat.le_add_right _ _
  · rw [(consumeLease_counters meters .allocBytes n s _).2]
    omega
  · have hpos : 0 < n.toInt := by
      rw [le_iff_toInt_le, toInt_zero] at hn
      omega
    unfold chargeCounter at h ⊢
    dsimp only at h ⊢
    rw [update_self]
    split_ifs at h with hadmitted
    by_cases hc : 0 ≤ (s.counter .allocBytes).toInt
    · have hsum := settleCharge_admitted hpos hc hadmitted
      unfold publishedTotal
      rw [if_neg, if_neg, hsum]
      · omega
      · rw [lt_iff_toInt_lt, toInt_zero, hsum]
        omega
      · rw [lt_iff_toInt_lt, toInt_zero]
        omega
    · have hwrapped : publishedTotal (s.counter .allocBytes) = Int64.maxValue := by
        unfold publishedTotal
        rw [if_pos]
        rw [lt_iff_toInt_lt, toInt_zero]
        omega
      have hmax := toInt_lt (s.limits.max .allocBytes)
      rw [hwrapped, toInt_maxValue]
      omega

theorem settleCharge_fits (hn : 0 < n.toInt) (hc : 0 ≤ counter.toInt)
    (hfits : counter.toInt + n.toInt ≤ max.toInt) :
    settleCharge max n counter = (counter + n, .admitted) := by
  have hmax := toInt_lt max
  have hsum : (counter + n).toInt = counter.toInt + n.toInt :=
    Lib.toInt_add_eq (by omega) (by omega)
  have hcall : advance max n counter .calling = (counter, .adding) := by
    simp only [advance, le_iff_toInt_le, gt_iff_lt, lt_iff_toInt_lt, toInt_zero]
    rw [if_neg (by omega), if_neg (by omega)]
  have hadd : advance max n counter .adding = (counter + n, .admitted) := by
    simp only [advance, ge_iff_le, le_iff_toInt_le, hsum]
    rw [if_pos (by omega), if_pos (by omega)]
  unfold settleCharge
  rw [iterate_succ_apply, hcall, iterate_succ_apply, hadd]
  rfl

theorem affords_of_room {room : Resource → Nat}
    (hmeter : s.meter = none) (hcounter : ∀ r, 0 ≤ (s.counter r).toInt)
    (hroom : ∀ r, (s.counter r).toInt + room r ≤ (s.limits.max r).toInt) :
    s.Affords meters room := by
  intro charges
  induction charges generalizing room s with
  | nil => exact fun _ => trivial
  | cons c charges ih =>
    obtain ⟨r, n⟩ := c
    intro hamount
    have hr := hamount r
    rw [amount_cons, if_pos rfl] at hr
    have hmax := toInt_lt (s.limits.max r)
    have hfits := hroom r
    have hpos := hcounter r
    have hn : (Int64.ofNat n).toInt = n := toInt_ofNat_of_lt (by omega)
    -- The charges that follow are within what is left.
    have hrest (r' : Resource) : amount r' charges ≤ update room r (room r - n) r' := by
      have h := hamount r'
      rw [amount_cons] at h
      by_cases heq : r = r'
      · subst heq
        rw [update_self]
        omega
      · rw [update_of_ne (.symm heq)]
        omega
    unfold AdmitsAll
    by_cases hzero : n = 0
    · subst hzero
      have hsame : s.charge meters r (Int64.ofNat 0) = (.done, s) := if_pos (by decide)
      rw [hsame]
      refine ⟨rfl, ih hmeter hcounter hroom fun r' => (hrest r').trans ?_⟩
      rw [Nat.sub_zero, update_eq_self]
    · have hsettled := settleCharge_fits (s.limits.max r) (Int64.ofNat n) (s.counter r)
        (by omega) hpos (by omega)
      have hcharge : s.charge meters r (Int64.ofNat n) = (.done, { s with
          counter := update s.counter r (s.counter r + Int64.ofNat n) }) := by
        unfold EvalState.charge
        rw [if_neg (by rw [le_iff_toInt_le, toInt_zero]; omega),
          if_neg (by rw [hmeter]; exact fun h => h rfl)]
        unfold chargeCounter
        simp only [hsettled, if_true]
      have hsum : (s.counter r + Int64.ofNat n).toInt = (s.counter r).toInt + n := by
        rw [Lib.toInt_add_eq (by omega) (by omega), hn]
      rw [hcharge]
      refine ⟨rfl, ih hmeter (fun r' => ?_) (fun r' => ?_) hrest⟩
      · by_cases heq : r' = r
        · subst heq
          dsimp only
          rw [update_self]
          omega
        · dsimp only
          rw [update_of_ne heq]
          exact hcounter r'
      · by_cases heq : r' = r
        · subst heq
          dsimp only
          rw [update_self, update_self]
          omega
        · dsimp only
          rw [update_of_ne heq, update_of_ne heq]
          exact hroom r'

end EvalState

end Meter

end Lispico
