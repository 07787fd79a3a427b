import Lispico.Reader.Settling

/-!
# Runs of a reader budget

The bill and the work still to settle are the work recorded, less than an interval is unsettled,
and the first refusal is all a budget reports from then on. A read under a failed budget reports
that failure.
-/

namespace Lispico

namespace Reader

open Lispico.Core Meter Lib Guarded

namespace Budget

/-- `settle` for a read that returns an error. -/
def settle (err : GoErr) (b : Budget) : Option GoErr × Budget :=
  match checkpoint b with
  | (some failed, b) => (some failed, b)
  | (none, b) => (some err, b)

/-- What `n` units of work do to a budget that has not failed: all are recorded, or those up
to an interval that is refused. -/
inductive Takes (b : Budget) (n : Nat) : Option GoErr × Budget → Prop where
  | all {b' : Budget} (hfailed : b'.failed = none) (hpending : b'.pending < checkInterval)
      (hbill : b'.bill .reductions + b'.pending = b.bill .reductions + b.pending + n) :
      Takes b n (none, b')
  | part {err : GoErr} {b' : Budget} {k : Nat} (hfailed : b'.failed = some err)
      (hpending : b'.pending = 0) (hk : k ≤ n)
      (hbill : b'.bill .reductions = b.bill .reductions + b.pending + k) : Takes b n
        (some err, b')

section

variable {b : Budget} {n : Nat}

theorem checkpoint_pending (h : b.failed = none) : (checkpoint b).2.pending = 0 := by
  have hcharge := (charge_keeps .reductions b.pending { b with pending := 0 }).2
  unfold checkpoint unlessFailed settleWork
  rw [h]
  dsimp only
  generalize charge .reductions b.pending { b with pending := 0 } = out at hcharge
  rcases out with ⟨_ | err, b'⟩
  · unfold consult
    dsimp only
    cases b'.ctx.interrupt b'.checks <;> exact hcharge
  · exact hcharge

theorem checkpoint_takes (h : b.failed = none) : Takes b 0 (checkpoint b) := by
  have hpending := checkpoint_pending h
  have hkept := checkpoint_reports.kept b
  have hcheck := checkpoint_checked h
  generalize checkpoint b = out at hpending hkept hcheck
  cases hcheck with
  | passed hfailed hzero hbill =>
    refine .all hfailed (by rw [hzero]; exact Nat.zero_lt_succ _) ?_
    rw [hbill, Function.update_self, hzero]
  | refused _ hbill =>
    refine .part hkept hpending le_rfl ?_
    rw [hbill, Function.update_self]
    rfl

theorem workRounds_takes (rounds : Nat) (hn : n ≤ rounds) (hb : b.Sound) :
    Takes b n (workRounds rounds n b) := by
  induction rounds generalizing n b with
  | zero =>
    obtain rfl : n = 0 := by omega
    exact .all hb.failed hb.pending rfl
  | succ rounds ih =>
    have hlt := hb.pending
    unfold workRounds
    dsimp only
    split_ifs with hzero hroom
    · subst hzero
      exact .all hb.failed hb.pending rfl
    · exact .all hb.failed (show b.pending + n < checkInterval by omega)
        (Nat.add_assoc _ _ _).symm
    · -- The interval that fills up is settled, and the rest is work from there on.
      have hcheck := checkpoint_takes
        (b := { b with pending := b.pending + (checkInterval - b.pending) }) hb.failed
      generalize checkpoint _ = out at hcheck
      cases hcheck with
      | part hfailed hpending hk hbill =>
        refine .part (k := checkInterval - b.pending) hfailed hpending (by omega) ?_
        dsimp only at hbill
        omega
      | all hfailed hpending hbill =>
        dsimp only at hbill ⊢
        have hrest := ih (n := n - (checkInterval - b.pending)) (by omega) ⟨hfailed, hpending⟩
        generalize workRounds rounds (n - (checkInterval - b.pending)) _ = last at hrest
        cases hrest with
        | all hfailed' hpending' hbill' => exact .all hfailed' hpending' (by omega)
        | @part _ _ k hfailed' hpending' hk hbill' =>
          exact .part (k := checkInterval - b.pending + k) hfailed' hpending' (by omega)
            (by omega)

theorem work_takes (n : Nat) (hb : b.Sound) : Takes b n (work n b) := by
  unfold work unlessFailed
  rw [hb.failed]
  exact workRounds_takes n le_rfl hb

end

end Budget

inductive BudgetOp where
  | work (n : Nat)
  | checkpoint
  | settle (err : GoErr)

namespace BudgetOp

def apply : BudgetOp → Budget → Option GoErr × Budget
  | .work n, b => b.work n
  | .checkpoint, b => b.checkpoint
  | .settle err, b => b.settle err

def amount : BudgetOp → Nat
  | .work n => n
  | _ => 0

/-- What a call answers that finds and leaves the budget without a failure. -/
def unrefused : BudgetOp → Option GoErr
  | .settle err => some err
  | _ => none

theorem apply_of_failed (op : BudgetOp) {b : Budget} {err : GoErr} (h : b.failed = some err) :
    op.apply b = (some err, b) := by
  cases op with
  | work n => exact (Budget.work_reports n).again b err h
  | checkpoint => exact Budget.checkpoint_of_failed h
  | settle err' =>
    change b.settle err' = _
    unfold Budget.settle
    rw [Budget.checkpoint_of_failed h]

theorem apply_takes (op : BudgetOp) {b : Budget} (hb : b.Sound) :
    ∃ reply, Budget.Takes b op.amount (reply, (op.apply b).2) ∧
      (op.apply b).1 = reply.or op.unrefused := by
  cases op with
  | work n => exact ⟨_, Budget.work_takes n hb, by unfold unrefused; rw [Option.or_none]; rfl⟩
  | checkpoint =>
    exact ⟨_, Budget.checkpoint_takes hb.failed, by unfold unrefused; rw [Option.or_none]; rfl⟩
  | settle err =>
    have htakes := Budget.checkpoint_takes hb.failed
    refine ⟨b.checkpoint.1, ?_⟩
    change b.Takes 0 (_, (b.settle err).2) ∧ (b.settle err).1 = _
    unfold Budget.settle
    generalize b.checkpoint = out at htakes
    rcases out with ⟨_ | failed, b'⟩ <;> exact ⟨htakes, rfl⟩

def run (b : Budget) (ops : List BudgetOp) : Budget := ops.foldl (fun b op => (op.apply b).2) b

def total (ops : List BudgetOp) : Nat := (ops.map amount).sum

end BudgetOp

/-- What holds of a budget on which `total` units of work have been called for. -/
structure Accounted (total : Nat) (b : Budget) : Prop where
  pending : b.pending < checkInterval
  billed : b.failed = none → b.bill .reductions + b.pending = total
  stopped : b.failed ≠ none → b.pending = 0 ∧ b.bill .reductions ≤ total

theorem Accounted.apply {total : Nat} {b : Budget} (h : Accounted total b) (op : BudgetOp) :
    Accounted (total + op.amount) (op.apply b).2 := by
  cases hfailed : b.failed with
  | some err =>
    rw [op.apply_of_failed hfailed]
    have hstopped := h.stopped (by rw [hfailed]; nofun)
    refine ⟨h.pending, fun hnone => (nomatch hfailed.symm.trans hnone), fun _ => ?_⟩
    refine ⟨hstopped.1, ?_⟩
    exact hstopped.2.trans (Nat.le_add_right _ _)
  | none =>
    have hbilled := h.billed hfailed
    obtain ⟨reply, htakes, -⟩ := op.apply_takes ⟨hfailed, h.pending⟩
    generalize (op.apply b).2 = b' at htakes
    cases htakes with
    | all hfailed' hpending hbill =>
      exact ⟨hpending, fun _ => by omega, fun hne => absurd hfailed' hne⟩
    | part hfailed' hpending hk hbill =>
      refine ⟨by rw [hpending]; exact Nat.zero_lt_succ _, fun hnone => ?_, fun _ =>
        ⟨hpending, ?_⟩⟩
      · exact nomatch hfailed'.symm.trans hnone
      · omega

end Reader

end Lispico
