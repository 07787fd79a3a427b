import Lispico.Meter.LeaseConservation

/-!
# Polls on the reduction ledger

A batched poll only counts down; the polls are charged when the countdown is spent, by a forced
poll or by a flush. Charged reductions and polls since the last charge are the polls made, but
for a batched poll that finds a fresh countdown, as long as no charge is refused.
-/

namespace Lispico

namespace Meter

open Lispico.Core Lib Int64

namespace EvalState

/-- The reductions charged so far: on the counter of the state, and as units that the
attached meter has had consumed. -/
def ledger (s : EvalState) : Int :=
  (s.counter .reductions).toInt + (s.meter.map fun m => s.book .consumed m .reductions).getD 0

def pending (s : EvalState) : Int :=
  if s.budget ≤ 0 then 0 else checkInterval.toInt - s.budget.toInt

/-- The counter holds a total, and the countdown has not run below zero. -/
structure Ready (s : EvalState) : Prop where
  counter : 0 ≤ (s.counter .reductions).toInt
  low : 0 ≤ s.budget.toInt
  high : s.budget.toInt ≤ 128

variable {meters : Meters} {s s' : EvalState} {calls : List Call} {n : Int64}

theorem pending_of_pos (h : 0 < s.budget.toInt) : s.pending = 128 - s.budget.toInt := by
  have hpos : ¬s.budget ≤ 0 := by
    rw [le_iff_toInt_le, toInt_zero]
    exact not_le.2 h
  exact if_neg hpos

theorem pending_of_full (h : s.budget = checkInterval) : s.pending = 0 := by
  rw [pending, h]
  rfl

theorem use_consumed {m : Nat} (hmeter : s.meter = some m) (r : Resource) (used : Int64) :
    (s.use r used).book .consumed m r = s.book .consumed m r + used.toInt ∧
      (s.use r used).budget = s.budget := by
  simp only [use, hmeter, record_book, units]
  exact ⟨rfl, rfl⟩

theorem consumeLease_consumed {r : Resource} {m : Nat} (rounds : Nat)
    (hmeter : s.meter = some m) (hn : 0 ≤ n.toInt) (hrounds : n.toInt ≤ rounds)
    (h : consumeLease meters r rounds n s = (.done, s')) :
    s'.book .consumed m r = s.book .consumed m r + n.toInt ∧ s'.meter = s.meter ∧
      s'.budget = s.budget := by
  induction rounds generalizing n s with
  | zero =>
    cases h
    exact ⟨by omega, rfl, rfl⟩
  | succ rounds ih =>
    rw [consumeLease] at h
    split_ifs at h with hzero
    · cases h
      rw [le_iff_toInt_le, toInt_zero] at hzero
      exact ⟨by omega, rfl, rfl⟩
    · rw [le_iff_toInt_le, toInt_zero, not_le] at hzero
      obtain ⟨-, hbudget, hkept, hbook⟩ := renewLease_unused meters r n s
      unfold consumeRound at h
      generalize renewLease meters r n s = out at h hbudget hkept hbook
      obtain ⟨_ | _ | _, s₁⟩ := out
      · dsimp only at h hbudget hkept hbook
        split_ifs at h with hleft
        · cases h
        · rw [le_iff_toInt_le, toInt_zero, not_le] at hleft
          have hmin := toInt_min n (s₁.leased r)
          have hsub : (n - min n (s₁.leased r)).toInt = n.toInt - (min n (s₁.leased r)).toInt :=
            toInt_sub_eq (by omega) (by have := toInt_lt n; omega)
          rw [hmeter] at hkept
          obtain ⟨hused, hmeter', hbudget'⟩ := ih ((use_meter _).trans hkept) (by omega)
            (by omega) h
          obtain ⟨huse, hbudget₁⟩ := use_consumed hkept r (min n (s₁.leased r))
          rw [hbook] at huse
          exact ⟨by omega, hmeter'.trans ((use_meter _).trans (hkept.trans hmeter.symm)),
            hbudget'.trans (hbudget₁.trans hbudget)⟩
      · cases h
      · cases h

theorem charge_ledger (h : charge meters .reductions n s = (.done, s'))
    (hn : 0 < n.toInt) (hc : 0 ≤ (s.counter .reductions).toInt) :
    s'.ledger = s.ledger + n.toInt ∧ s'.budget = s.budget ∧
      0 ≤ (s'.counter .reductions).toInt := by
  unfold charge at h
  have hpos : ¬n ≤ 0 := by
    rw [le_iff_toInt_le, toInt_zero]
    omega
  rw [if_neg hpos] at h
  cases hmeter : s.meter with
  | some m =>
    have hcounter := (consumeLease_counters meters .reductions n s n.toInt.toNat).2
    rw [if_pos (by simp [hmeter])] at h
    obtain ⟨hused, hkept, hbudget⟩ := consumeLease_consumed _ hmeter (by omega) (by omega) h
    rw [h] at hcounter
    dsimp only at hcounter
    simp only [ledger, hkept, hmeter, hcounter, Option.map_some, Option.getD_some, hused]
    exact ⟨by omega, hbudget, hc⟩
  | none =>
    rw [if_neg (by simp [hmeter])] at h
    obtain ⟨hreply, rfl⟩ := Prod.mk.inj h
    split_ifs at hreply with hadmitted
    have hadd := settleCharge_admitted hn hc hadmitted
    refine ⟨?_, rfl, ?_⟩
    · simp only [ledger, hmeter, Function.update_self, hadd, Option.map_none, Option.getD_none]
      omega
    · simp only [Function.update_self]
      omega

theorem flushReductions_ledger (h : s.Ready) (hdone : flushReductions meters s = (.done, s')) :
    0 ≤ (s'.counter .reductions).toInt ∧ s'.budget = checkInterval ∧
      s'.ledger = s.ledger + s.pending := by
  obtain ⟨hcounter, hlow, hhigh⟩ := h
  have hinterval : checkInterval.toInt = 128 := rfl
  unfold flushReductions at hdone
  split_ifs at hdone with hidle
  · cases hdone
    refine ⟨hcounter, rfl, ?_⟩
    simp only [ge_iff_le, le_iff_toInt_le, toInt_zero, hinterval] at hidle
    change s.ledger = _
    by_cases hzero : s.budget.toInt = 0
    · have hle : s.budget ≤ 0 := le_iff_toInt_le.2 hzero.le
      rw [pending, if_pos hle, add_zero]
    · rw [pending_of_pos (by omega)]
      omega
  · simp only [ge_iff_le, le_iff_toInt_le, toInt_zero, hinterval] at hidle
    have hsub : (checkInterval - s.budget).toInt = checkInterval.toInt - s.budget.toInt :=
      toInt_sub_eq (by omega) (by omega)
    obtain ⟨hledger, hbudget, hcounter'⟩ := charge_ledger hdone (by omega) hcounter
    refine ⟨hcounter', hbudget, ?_⟩
    rw [hledger, pending_of_pos (by omega), hsub]
    rfl

/-- A poll, or a flush before a dispatch or at the end of the evaluation. -/
inductive Call where
  | poll (force : Bool) (interrupt : Option GoErr)
  | flush

namespace Call

def apply (meters : Meters) (s : EvalState) : Call → Reply × EvalState
  | poll force interrupt => pollCancel meters force interrupt s
  | flush => flushReductions meters s

/-- The call with nothing to report but what becomes of its charges. -/
def bare : Call → Call
  | poll force _ => poll force none
  | flush => flush

def polls : Call → Int
  | poll .. => 1
  | _ => 0

/-- What a call adds to the ledger of a state with a fresh countdown. -/
def atFirst : Call → Int
  | poll true _ => 1
  | _ => 0

end Call

def after (meters : Meters) (s : EvalState) (calls : List Call) : EvalState :=
  calls.foldl (fun s c => (c.apply meters s).2) s

def admitted (meters : Meters) : EvalState → List Call → Bool
  | _, [] => true
  | s, c :: calls =>
    (c.bare.apply meters s).1 matches .done && admitted meters (c.apply meters s).2 calls

theorem andThen_done {first : Reply × EvalState} {next : EvalState → Reply × EvalState}
    (h : (andThen first next).1 = .done) :
    ∃ s, first = (.done, s) ∧ (next s).1 = .done := by
  obtain ⟨_ | _ | _, s⟩ := first
  · exact ⟨s, rfl, h⟩
  · cases h
  · cases h

/-- What a call leaves, of which `n` more polls are on the ledger or pending. -/
structure Counts (s s' : EvalState) (n : Int) : Prop where
  ready : s'.Ready
  pos : 0 < s'.budget.toInt
  total : s'.ledger + s'.pending = s.ledger + s.pending + n

theorem counts_of_full {n : Int} (hc : 0 ≤ (s'.counter .reductions).toInt)
    (hbudget : s'.budget = checkInterval) (hledger : s'.ledger = s.ledger + s.pending + n) :
    Counts s s' n := by
  refine ⟨⟨hc, ?_, ?_⟩, ?_, ?_⟩
  · rw [hbudget]
    decide
  · rw [hbudget]
    decide
  · rw [hbudget]
    decide
  · rw [pending_of_full hbudget, hledger, add_zero]

theorem forced_counts (h : s.Ready) (interrupt : Option GoErr)
    (hdone : (pollCancel meters true none s).1 = .done) :
    Counts s (pollCancel meters true interrupt s).2 1 := by
  obtain ⟨s₂, hcharged, -⟩ := andThen_done hdone
  obtain ⟨s₁, hflush, -⟩ := andThen_done (congrArg Prod.fst hcharged)
  obtain ⟨hcounter, -, hledger⟩ := flushReductions_ledger h hflush
  have heq : pollCancel meters true interrupt s = rearm interrupt s₂ := by
    simp only [pollCancel, if_true, hcharged]
    rfl
  rw [hflush] at hcharged
  obtain ⟨hledger', -, hcounter'⟩ := charge_ledger hcharged (by decide) hcounter
  rw [heq]
  exact counts_of_full hcounter' rfl (hledger'.trans (congrArg (· + 1) hledger))

theorem batched_counts (h : s.Ready) (interrupt : Option GoErr)
    (hdone : (pollCancel meters false none s).1 = .done) :
    Counts s (pollCancel meters false interrupt s).2 (if s.budget = 0 then 0 else 1) := by
  obtain ⟨hcounter, hlow, hhigh⟩ := h
  obtain ⟨s₀, hs₀⟩ : ∃ s₀, s₀ = { s with budget := s.budget - 1 } := ⟨_, rfl⟩
  have hpoll : ∀ i, pollCancel meters false i s =
      if s₀.budget > 0 then (.done, s₀)
      else if s₀.budget = 0 then andThen (charge meters .reductions checkInterval s₀) (rearm i)
      else rearm i s₀ := fun i => hs₀ ▸ rfl
  have hledger₀ : s₀.ledger = s.ledger := hs₀ ▸ rfl
  have hcounter₀ : 0 ≤ (s₀.counter .reductions).toInt := hs₀ ▸ hcounter
  have hbudget₀ : s₀.budget.toInt = s.budget.toInt - 1 := by
    have hone : (1 : Int64).toInt = 1 := rfl
    rw [hs₀, toInt_sub_eq (by omega) (by omega), hone]
  rw [hpoll] at hdone ⊢
  simp only [gt_iff_lt, lt_iff_toInt_lt, ← toInt_inj, toInt_zero, hbudget₀]
    at hdone ⊢
  split_ifs at hdone ⊢ with hleft hzero hspent hzero hzero
  · omega
  · change Counts s s₀ 1
    refine ⟨⟨hcounter₀, by omega, by omega⟩, by omega, ?_⟩
    rw [pending_of_pos (by omega), pending_of_pos (by omega)]
    omega
  · omega
  · obtain ⟨s₁, hcharged, -⟩ := andThen_done hdone
    obtain ⟨hledger, -, hcounter'⟩ := charge_ledger hcharged (by decide) hcounter₀
    rw [hcharged]
    refine counts_of_full hcounter' rfl ?_
    rw [pending_of_pos (by omega)]
    change s₁.ledger = s₀.ledger + 128 at hledger
    change s₁.ledger = _
    omega
  · -- the countdown is fresh: the poll sets it and charges nothing
    have hnone : s.pending = 0 := if_pos (le_iff_toInt_le.2 hzero.le)
    refine counts_of_full hcounter₀ rfl ?_
    rw [hnone, add_zero, add_zero]
    exact hledger₀
  · omega

theorem step_counts (h : s.Ready) (c : Call) (hdone : (c.bare.apply meters s).1 = .done) :
    Counts s (c.apply meters s).2 (if s.budget = 0 then c.atFirst else c.polls) := by
  cases c with
  | poll force interrupt =>
    cases force with
    | true =>
      rw [Call.atFirst, Call.polls, ite_self]
      exact forced_counts h interrupt hdone
    | false => exact batched_counts h interrupt hdone
  | flush =>
    obtain ⟨hcounter, hbudget, hledger⟩ := flushReductions_ledger h (Prod.ext hdone rfl)
    simp only [Call.atFirst, Call.polls, ite_self]
    exact counts_of_full hcounter hbudget (hledger.trans (add_zero _).symm)

theorem admitted_cons {c : Call} (h : admitted meters s (c :: calls)) :
    (c.bare.apply meters s).1 = .done ∧ admitted meters (c.apply meters s).2 calls := by
  obtain ⟨hdone, hrest⟩ := Bool.and_eq_true_iff.1 h
  refine ⟨?_, hrest⟩
  split at hdone
  · assumption
  · cases hdone

theorem after_counts (h : admitted meters s calls) (hready : s.Ready)
    (hpos : 0 < s.budget.toInt) : Counts s (after meters s calls) (calls.map Call.polls).sum := by
  induction calls generalizing s with
  | nil => exact ⟨hready, hpos, (add_zero _).symm⟩
  | cons c calls ih =>
    have hne : s.budget ≠ 0 := by
      intro h
      rw [h] at hpos
      cases hpos
    obtain ⟨hdone, hrest⟩ := admitted_cons h
    have hstep := step_counts hready c hdone
    rw [if_neg hne] at hstep
    have hrun := ih hrest hstep.ready hstep.pos
    refine ⟨hrun.ready, hrun.pos, hrun.total.trans ?_⟩
    rw [hstep.total, List.map_cons, List.sum_cons, add_assoc]

/-- From a fresh countdown, in every sequence of polls and flushes none of whose charges is
refused, the reductions charged and the polls still to be charged are the polls made; a
flush leaves none to be charged. Only a first call that is a batched poll is not counted. -/
theorem polls_charged_once (meters : Meters) (s : EvalState) (first : Call)
    (calls : List Call) (hfresh : s.budget = 0) (hcounter : 0 ≤ (s.counter .reductions).toInt)
    (hrun : admitted meters s (first :: calls)) :
    let s' := after meters s (first :: calls)
    let polls := first.atFirst + (calls.map Call.polls).sum
    s'.ledger + s'.pending = s.ledger + polls ∧
      ∀ t, flushReductions meters s' = (.done, t) → t.ledger = s.ledger + polls := by
  intro s' polls
  have hready : s.Ready := by
    refine ⟨hcounter, ?_, ?_⟩
    · rw [hfresh]
      decide
    · rw [hfresh]
      decide
  have hnone : s.pending = 0 := if_pos (hfresh ▸ Int64.le_refl 0)
  obtain ⟨hdone, hrest⟩ := admitted_cons hrun
  have hstep := step_counts hready first hdone
  rw [if_pos hfresh] at hstep
  have hcounts := after_counts hrest hstep.ready hstep.pos
  have htotal : s'.ledger + s'.pending = s.ledger + polls := by
    rw [← add_assoc]
    refine hcounts.total.trans ?_
    rw [hstep.total, hnone, add_zero]
  refine ⟨htotal, fun t ht => ?_⟩
  exact (flushReductions_ledger hcounts.ready ht).2.2.trans htotal

theorem polls_charged_once_and_flushed :
    let s := .fresh someLimits
    let s' := after generous s [.poll false none, .poll true none, .flush]
    s'.ledger + s'.pending = s.ledger + 1 :=
  (polls_charged_once generous (.fresh someLimits) (.poll false none)
    [.poll true none, .flush] rfl (by decide) (by decide +kernel)).1

def oneReduction : Limits := ⟨fun _ => 1, fun _ => by decide⟩

/-- The flush of the second forced poll is refused, and the poll itself is never charged: of
the three polls after the first, two are on the ledger and none is pending. -/
theorem refused_poll_uncharged :
    let s := after generous (.fresh oneReduction)
      [.poll false none, .poll true none, .poll false none, .poll true none]
    s.ledger = 2 ∧ s.pending = 0 ∧ (flushReductions generous s).2.ledger = 2 := by
  decide +kernel

end EvalState

end Meter

end Lispico
