import Lispico.Reader.Budget
import Lispico.Meter.Affords

/-!
# Budgets with room

A budget has room for `c` when it has not failed, nothing interrupts it, and its evaluation
affords `c` of each resource beyond the work that is still to be settled. Each operation of a
budget succeeds when there is room for what it takes, and takes no more.
-/

namespace Lispico

namespace Reader

open Lispico.Core Meter Lib

namespace Budget

/-- What the evaluation of a budget affords: `c` bytes, and `c` reductions beyond `pending`. -/
structure Backed (ctx : Context) (pending c : Nat) (st : EvalState) : Prop where
  affords : st.Affords ctx.meters fun r => if r = .reductions then pending + c else c
  headroom : c ≤ st.headroom
  reductions : c ≤ (st.limits.max .reductions).toInt.toNat

/-- Room for `c` reductions and `c` bytes. -/
structure Enough (c : Nat) (b : Budget) : Prop where
  sound : b.failed = none
  calm : ∀ k, b.ctx.interrupt k = none
  pending_lt : b.pending < checkInterval
  backed : ∀ st, b.meter = some st → Backed b.ctx b.pending c st
  small : c ≤ maxInt64

theorem Backed.mono {ctx : Context} {pending c d : Nat} {st : EvalState} (hcd : c ≤ d)
    (h : Backed ctx pending d st) : Backed ctx pending c st where
  affords := h.affords.mono fun r => by
    split_ifs <;> omega
  headroom := hcd.trans h.headroom
  reductions := hcd.trans h.reductions

theorem Enough.mono {c d : Nat} {b : Budget} (hcd : c ≤ d) (h : Enough d b) : Enough c b where
  sound := h.sound
  calm := h.calm
  pending_lt := h.pending_lt
  backed := fun st hst => (h.backed st hst).mono hcd
  small := hcd.trans h.small

def funds : Guarded.Funds Budget := ⟨Enough, Enough.mono⟩

section

variable {c n rest : Nat} {b : Budget}

theorem unlessFailed_of_sound {op : Budget → Option GoErr × Budget} (h : b.failed = none) :
    unlessFailed op b = op b := by
  unfold unlessFailed
  rw [h]

variable {ctx : Context} {st : EvalState} {pending : Nat}

theorem Backed.settle (h : Backed ctx n c st) :
    (st.charge ctx.meters .reductions (Int64.ofNat n)).1 = .done ∧
      Backed ctx 0 c (st.charge ctx.meters .reductions (Int64.ofNat n)).2 := by
  have hcharge := h.affords.charge (r := .reductions) (n := n) (by simp)
  refine ⟨hcharge.1, ⟨hcharge.2.mono fun r => ?_, ?_, ?_⟩⟩
  · cases r <;> simp [Function.update]
  · rw [EvalState.charge_headroom_reductions]
    exact h.headroom
  · rw [EvalState.charge_limits]
    exact h.reductions

theorem Backed.record (h : Backed ctx pending (n + c) st) : Backed ctx (pending + n) c st where
  affords := h.affords.mono fun r => by
    split_ifs <;> omega
  headroom := (Nat.le_add_left _ _).trans h.headroom
  reductions := (Nat.le_add_left _ _).trans h.reductions

theorem Backed.alloc (h : Backed ctx pending (n + c) st) :
    (st.charge ctx.meters .allocBytes (Int64.ofNat n)).1 = .done ∧
      Backed ctx pending c (st.charge ctx.meters .allocBytes (Int64.ofNat n)).2 := by
  have hcharge := h.affords.charge (r := .allocBytes) (n := n) (by simp)
  have hroom := EvalState.charge_headroom_bytes hcharge.1
  have hn : (Int64.ofNat n).toInt.toNat = n := by
    have := h.headroom
    have := st.headroom_le
    rw [Int64.toInt_ofNat_of_lt (by omega)]
    rfl
  refine ⟨hcharge.1, ⟨hcharge.2.mono fun r => ?_, ?_, ?_⟩⟩
  · cases r <;> simp [Function.update]
  · have := h.headroom
    omega
  · rw [EvalState.charge_limits]
    exact (Nat.le_add_left _ _).trans h.reductions

structure Steady (c : Nat) (b : Budget) : Prop where
  sound : b.failed = none
  calm : ∀ k, b.ctx.interrupt k = none
  backed : ∀ st, b.meter = some st → Backed b.ctx b.pending c st
  small : c ≤ maxInt64

theorem Enough.steady (h : Enough c b) : Steady c b := ⟨h.sound, h.calm, h.backed, h.small⟩

theorem checkpoint_of_steady (h : Steady c b) :
    ∃ b', checkpoint b = (none, b') ∧ Enough c b' := by
  unfold checkpoint
  rw [unlessFailed_of_sound h.sound]
  unfold settleWork charge consult
  cases hmeter : b.meter with
  | none =>
    dsimp only
    rw [h.calm]
    exact ⟨_, rfl, h.sound, h.calm, Nat.zero_lt_succ _, (fun st hst => by cases hst), h.small⟩
  | some st =>
    obtain ⟨hdone, hbacked⟩ := (h.backed st hmeter).settle
    dsimp only
    rw [hdone]
    dsimp only [replyError]
    rw [h.calm]
    refine ⟨_, rfl, h.sound, h.calm, Nat.zero_lt_succ _, fun st' hst => ?_, h.small⟩
    cases hst
    exact hbacked

theorem checkpoint_of_enough (h : Enough c b) : ∃ b', checkpoint b = (none, b') ∧ Enough c b' :=
  checkpoint_of_steady h.steady

theorem workRounds_of_enough (rounds : Nat) (hn : n ≤ rounds) (h : Enough (n + rest) b) :
    ∃ b', workRounds rounds n b = (none, b') ∧ Enough rest b' := by
  induction rounds generalizing n b with
  | zero =>
    obtain rfl : n = 0 := by omega
    exact ⟨b, rfl, h.mono (Nat.le_add_left _ _)⟩
  | succ rounds ih =>
    have hlt := h.pending_lt
    rw [workRounds]
    split_ifs with hzero hroom
    · exact ⟨b, rfl, h.mono (Nat.le_add_left _ _)⟩
    · refine ⟨_, rfl, h.sound, h.calm, by dsimp only; omega, fun st hst => ?_, ?_⟩
      · exact (h.backed st hst).record
      · exact (Nat.le_add_left _ _).trans h.small
    · -- The round fills the interval and settles it.
      have hsteady : Steady (n - (checkInterval - b.pending) + rest)
          { b with pending := b.pending + (checkInterval - b.pending) } := by
        refine ⟨h.sound, h.calm, fun st hst => ?_, ?_⟩
        · exact ((h.backed st hst).mono (by omega)).record
        · have := h.small
          omega
      obtain ⟨b', hcheck, hb'⟩ := checkpoint_of_steady hsteady
      rw [hcheck]
      exact ih (by omega) hb'

theorem work_of_enough (n rest : Nat) (b : Budget) (h : Enough (n + rest) b) :
    ∃ b', work n b = (none, b') ∧ Enough rest b' := by
  unfold work
  rw [unlessFailed_of_sound h.sound]
  exact workRounds_of_enough n le_rfl h

theorem admitAlloc_of_enough (n rest : Nat) (b : Budget) (h : Enough (n + rest) b) :
    ∃ b', admitAlloc n b = (none, b') ∧ Enough rest b' := by
  unfold admitAlloc
  rw [unlessFailed_of_sound h.sound]
  unfold charge
  have hsmall : rest ≤ maxInt64 := (Nat.le_add_left _ _).trans h.small
  cases hmeter : b.meter with
  | none =>
    exact ⟨_, rfl, h.sound, h.calm, h.pending_lt, (fun st hst => by cases hst), hsmall⟩
  | some st =>
    obtain ⟨hdone, hbacked⟩ := (h.backed st hmeter).alloc
    dsimp only
    rw [hdone]
    refine ⟨_, rfl, h.sound, h.calm, h.pending_lt, fun st' hst => ?_, hsmall⟩
    cases hst
    exact hbacked

theorem checkPlan_of_enough {tokens payload headroom : Nat}
    (hplan : tokens * readerTokenUnitBytes + payload ≤ headroom) (hsmall : headroom ≤ maxInt64)
    (h : Enough rest b) : checkPlan tokens payload headroom b = (none, b) := by
  unfold checkPlan
  rw [unlessFailed_of_sound h.sound, if_pos]
  unfold checkedTokenPlanBytes
  unfold readerTokenUnitBytes at *
  rw [if_neg (by omega), Option.any_some, decide_eq_true_eq]
  omega

theorem reservePlan_of_enough (tokens payload rest : Nat) (b : Budget)
    (h : Enough (tokens * readerTokenUnitBytes + payload + rest) b) :
    ∃ b', reservePlan tokens payload b = (none, b') ∧ Enough rest b' := by
  have hsmall := h.small
  unfold reservePlan checkedTokenPlanBytes
  unfold readerTokenUnitBytes at *
  rw [unlessFailed_of_sound h.sound, if_neg (by omega)]
  rw [Nat.add_assoc] at h
  obtain ⟨b₁, hplan, hb₁⟩ := admitAlloc_of_enough _ _ b h
  obtain ⟨b₂, hpayload, hb₂⟩ := admitAlloc_of_enough _ _ b₁ hb₁
  dsimp only
  rw [hplan]
  exact ⟨b₂, hpayload, hb₂⟩

theorem admitConversionStorage_of_enough (rest : Nat) (b : Budget)
    (h : Enough (2 * n + readerConversionSlackBytes + rest) b) :
    ∃ b', admitConversionStorage n b = (none, b') ∧ Enough rest b' := by
  have hsmall := h.small
  unfold admitConversionStorage checkedConversionBytes
  unfold readerConversionSlackBytes at *
  rw [unlessFailed_of_sound h.sound, if_neg (by omega)]
  exact admitAlloc_of_enough _ _ b h

theorem admitConversion_of_enough (rest : Nat) (b : Budget) (h : Enough (3 * n + rest) b) :
    ∃ b', admitConversion n b = (none, b') ∧ Enough rest b' := by
  unfold admitConversion
  rw [unlessFailed_of_sound h.sound]
  dsimp only
  rw [if_neg]
  · exact work_of_enough n rest b (h.mono (by omega))
  · rintro ⟨hpos, hlarge⟩
    unfold maxReductions at hpos hlarge
    cases hmeter : b.meter with
    | none =>
      rw [hmeter] at hpos
      cases hpos
    | some st =>
      rw [hmeter] at hlarge
      have := (h.backed st hmeter).reductions
      dsimp only at hlarge
      omega

/-- A read on an evaluation with counters of its own has the room that they leave of the
limits. -/
theorem init_enough (hcalm : ∀ k, ctx.interrupt k = none) (hmeter : st.meter = none)
    (hcounter : ∀ r, 0 ≤ (st.counter r).toInt)
    (hroom : ∀ r, (st.counter r).toInt + c ≤ (st.limits.max r).toInt) :
    (init ctx (some st)).Enough c := by
  have hbytes := hroom .allocBytes
  have hused := hcounter .allocBytes
  have hlimit := Int64.toInt_lt (st.limits.max .allocBytes)
  refine ⟨rfl, hcalm, Nat.zero_lt_succ _, fun st' hst => ?_, by unfold maxInt64; omega⟩
  cases hst
  refine ⟨EvalState.affords_of_room _ hmeter hcounter fun r => ?_, ?_, ?_⟩
  · have := hroom r
    have hzero : (init ctx (some st)).pending = 0 := rfl
    split_ifs <;> omega
  · unfold EvalState.headroom publishedTotal
    rw [if_neg]
    · omega
    · rw [Int64.lt_iff_toInt_lt, Int64.toInt_zero]
      omega
  · have := hroom .reductions
    have := hcounter .reductions
    omega

end

end Budget

end Reader

end Lispico
