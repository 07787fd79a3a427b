import Lispico.Meter.Affords
import Mathlib

/-!
# Conservation of leased units

Every unit that a meter granted is consumed, returned or outstanding, as long as the meter stays
attached while units are outstanding. A context without a meter detaches it even in the middle
of an evaluation, and what was leased is then never returned.
-/

namespace Lispico

namespace Meter

open Lib Int64

namespace EvalState

def outstanding (s : EvalState) (m : Nat) (r : Resource) : Int :=
  if s.meter = some m then (s.leased r).toInt else 0

structure Balanced (s : EvalState) : Prop where
  book : ∀ m r, s.book .granted m r =
    s.book .consumed m r + s.book .returned m r + s.outstanding m r
  idle : s.meter = none → ∀ r, s.leased r = 0

theorem fresh_balanced (limits : Limits) : (EvalState.fresh limits).Balanced :=
  ⟨fun _ _ => rfl, fun _ _ => rfl⟩

section Record

variable (e : Entry) (m : Nat) (units : Resource → Int64) (s : EvalState)

@[simp]
theorem record_meter : (s.record e m units).meter = s.meter := rfl

@[simp]
theorem record_leased : (s.record e m units).leased = s.leased := rfl

theorem record_book (e' : Entry) (m' : Nat) (r : Resource) : (s.record e m units).book e' m' r =
      s.book e' m' r + if e' = e ∧ m' = m then (units r).toInt else 0 := by
  unfold record
  by_cases he : e' = e
  · subst he
    by_cases hm : m' = m
    · subst hm
      simp
    · simp [hm]
  · simp [he]

end Record

/-- The context leaves the attached meter in place while units of it are outstanding. -/
def Keeps (ctx : Option Nat) (s : EvalState) : Prop :=
  (∃ r, s.leased r ≠ 0) → s.meter = ctx ∨ ctx ≠ none ∧ s.evalDepth > 0 ∧ s.meter ≠ none

variable {s : EvalState}

theorem balanced_of_unleased (hs : s.Balanced) (hleased : ∀ r, s.leased r = 0)
    (ctx : Option Nat) :
    { s with meter := ctx }.Balanced := by
  refine ⟨fun m r => ?_, fun _ => hleased⟩
  have hbook := hs.book m r
  simp only [outstanding, hleased r, toInt_zero, ite_self] at hbook ⊢
  exact hbook

variable {ctx : Option Nat}

theorem attachMeter_balanced (hs : s.Balanced) (hkeeps : Keeps ctx s) :
    (s.attachMeter ctx).Balanced := by
  by_cases hleased : ∀ r, s.leased r = 0
  · have hany := balanced_of_unleased hs hleased
    unfold attachMeter
    split
    · exact hany none
    · split_ifs
      · exact hs
      · exact hs
      · exact hany _
  · push Not at hleased
    have heq : s.attachMeter ctx = s := by
      unfold attachMeter
      rcases hkeeps hleased with rfl | ⟨hctx, hdepth, hmeter⟩
      · cases hmeter : s.meter with
        | none =>
          obtain ⟨r, hr⟩ := hleased
          exact absurd (hs.idle hmeter r) hr
        | some m => simp
      · cases ctx with
        | none => exact absurd rfl hctx
        | some m => simp [hdepth, hmeter]
    rwa [heq]

theorem attachMeter_of_top (hs : s.Balanced) (hkeeps : Keeps ctx s) (hdepth : ¬s.evalDepth > 0) :
    { s with meter := ctx }.Balanced := by
  by_cases hleased : ∀ r, s.leased r = 0
  · exact balanced_of_unleased hs hleased ctx
  · push Not at hleased
    rcases hkeeps hleased with rfl | ⟨-, hpos, -⟩
    · exact hs
    · exact absurd hpos hdepth

theorem giveBack_book {m : Nat} {granted : Resource → Int64} (s : EvalState)
    (hpos : ∀ r, 0 ≤ granted r) (e : Entry) (m' : Nat) (r : Resource) :
    (s.giveBack m granted).book e m' r = (s.record .returned m granted).book e m' r := by
  unfold giveBack
  split_ifs with hgranted
  · rfl
  · push Not at hgranted
    have hzero : granted r = 0 := by
      cases r with
      | reductions => exact Int64.le_antisymm (Int64.not_lt.1 hgranted.1) (hpos _)
      | allocBytes => exact Int64.le_antisymm (Int64.not_lt.1 hgranted.2) (hpos _)
    simp [record_book, hzero]

theorem giveBack_balanced {s : EvalState} {m : Nat} {granted : Resource → Int64}
    (hs : s.Balanced) (hpos : ∀ r, 0 ≤ granted r) :
    ((s.record .granted m granted).giveBack m granted).Balanced := by
  have hkept : ((s.record .granted m granted).giveBack m granted).meter = s.meter ∧
      ((s.record .granted m granted).giveBack m granted).leased = s.leased := by
    unfold giveBack
    split_ifs <;> exact ⟨rfl, rfl⟩
  refine ⟨fun m' r => ?_, fun hnone => ?_⟩
  · have hbook := hs.book m' r
    simp only [giveBack_book _ hpos, record_book, outstanding, hkept.1, hkept.2, true_and,
      reduceCtorEq, false_and, if_false, add_zero] at hbook ⊢
    omega
  · rw [hkept.1] at hnone
    rw [hkept.2]
    exact hs.idle hnone

theorem takeLease_balanced {m : Nat} {want granted : Resource → Int64} {err : Option String}
    (hs : s.Balanced) (hmeter : s.meter = some m) (hpos : ∀ r, 0 ≤ granted r)
    (hfits : ∀ r, (s.leased r).toInt + (granted r).toInt < 2 ^ 63) :
    (takeLease m want granted err s).2.Balanced := by
  have hback := @giveBack_balanced s m granted hs hpos
  unfold takeLease
  split
  · exact hback
  · split_ifs
    · exact hback
    · exact hback
    · refine ⟨fun m' r => ?_, fun hnone => ?_⟩
      · have hbook := hs.book m' r
        have hlow := le_toInt (s.leased r)
        have hgranted := le_iff_toInt_le.1 (hpos r)
        rw [toInt_zero] at hgranted
        have hsum := @toInt_add_eq (s.leased r) (granted r) (by omega) (hfits r)
        simp only [record_book, outstanding, record_meter, record_leased, hmeter, true_and,
          reduceCtorEq, false_and, if_false, add_zero, Option.some.injEq] at hbook ⊢
        split_ifs at hbook ⊢ <;> omega
      · rw [record_meter, hmeter] at hnone
        cases hnone

/-- The lease that `want` asks for in `s` does not overflow what is leased. -/
def LeaseFits (meters : Meters) (want : Resource → Int64) (s : EvalState) : Prop :=
  ∀ m granted err, s.meter = some m → meters s.asked m (clamp want) = .answered granted err →
    ∀ r, (s.leased r).toInt + (granted r).toInt < 2 ^ 63

variable {meters : Meters}

theorem leaseEval_balanced {want : Resource → Int64} (hs : s.Balanced)
    (hfits : LeaseFits meters want s) :
    (leaseEval meters want s).2.Balanced := by
  unfold leaseEval
  split
  · exact hs
  · rename_i m hmeter
    split_ifs
    · exact hs
    · split
      · exact ⟨hs.book, hs.idle⟩
      · rename_i granted err hanswer
        have hcounted : { s with asked := s.asked + 1 }.Balanced := ⟨hs.book, hs.idle⟩
        refine takeLease_balanced hcounted hmeter (fun r => ?_) (fun r => ?_)
        · rw [le_iff_toInt_le, toInt_max]
          exact le_max_right _ _
        · have hroom := hfits m granted err hmeter hanswer r
          have hleased := toInt_lt (s.leased r)
          dsimp only
          rw [toInt_max, toInt_zero]
          omega

theorem use_balanced {r : Resource} {used : Int64} (hs : s.Balanced) (hmeter : s.meter ≠ none)
    (hpos : 0 ≤ used.toInt) (hle : used.toInt ≤ (s.leased r).toInt) :
    (s.use r used).Balanced := by
  obtain ⟨m, hm⟩ := Option.ne_none_iff_exists'.1 hmeter
  have huse : s.use r used =
      { s with leased := Function.update s.leased r (s.leased r - used) }.record .consumed m
        (units r used) := by
    simp only [use, hm]
  have hleft : (s.leased r - used).toInt = (s.leased r).toInt - used.toInt :=
    toInt_sub_eq (by omega) (by have := toInt_lt (s.leased r); omega)
  rw [huse]
  refine ⟨fun m' r' => ?_, fun hnone => ?_⟩
  · have hbook := hs.book m' r'
    simp only [record_book, outstanding, record_meter, record_leased, hm, true_and, reduceCtorEq,
      false_and, if_false, add_zero, Option.some.injEq, units] at hbook ⊢
    by_cases hr : r' = r
    · subst hr
      simp only [Function.update_self, hleft, if_true]
      split_ifs at hbook ⊢ <;> omega
    · simp only [Function.update_of_ne hr, hr, if_false, toInt_zero, ite_self, add_zero]
      exact hbook
  · rw [record_meter] at hnone
    exact absurd hnone hmeter

section Charges

variable {meters : Meters} {r : Resource} {n : Int64} {s : EvalState}

theorem renewLease_balanced (hs : s.Balanced)
    (hfits : s.leased r = 0 → LeaseFits meters (units r (min n r.maxLease)) s) :
    (renewLease meters r n s).2.Balanced := by
  unfold renewLease
  split_ifs with hempty
  · exact leaseEval_balanced hs (hfits hempty)
  · exact hs

@[simp]
theorem use_meter (used : Int64) : (s.use r used).meter = s.meter := by
  unfold use
  cases s.meter <;> simp

theorem consumeRound_balanced (hs : s.Balanced) (hmeter : s.meter ≠ none) (hn : 0 < n.toInt)
    (hfits : s.leased r = 0 → LeaseFits meters (units r (min n r.maxLease)) s) :
    (roundState (consumeRound meters r n s)).Balanced ∧
      (roundState (consumeRound meters r n s)).meter = s.meter := by
  have hrenewed := renewLease_balanced hs hfits
  have hkept := (renewLease_unused meters r n s).2.2.1
  unfold consumeRound
  split
  · rename_i s' heq
    rw [heq] at hrenewed hkept
    split_ifs with hleft
    · exact ⟨hrenewed, hkept⟩
    · rw [le_iff_toInt_le, toInt_zero, not_le] at hleft
      have hused := toInt_min n (s'.leased r)
      refine ⟨use_balanced hrenewed (hkept ▸ hmeter) ?_ ?_, (use_meter _).trans hkept⟩
      · omega
      · omega
  · rename_i heq
    rw [heq] at hrenewed hkept
    exact ⟨hrenewed, hkept⟩

variable (meters r) in
/-- No lease taken by the rounds of a charge overflows what is leased. -/
def ConsumeFits : Nat → Int64 → EvalState → Prop
  | 0, _, _ => True
  | rounds + 1, n, s =>
    (s.leased r = 0 → LeaseFits meters (units r (min n r.maxLease)) s) ∧
      ∀ n' s', consumeRound meters r n s = .ok (n', s') → ConsumeFits rounds n' s'

theorem consumeLease_balanced (rounds : Nat) (hs : s.Balanced) (hmeter : s.meter ≠ none)
    (hfits : ConsumeFits meters r rounds n s) :
    (consumeLease meters r rounds n s).2.Balanced := by
  induction rounds generalizing n s with
  | zero => exact hs
  | succ rounds ih =>
    unfold consumeLease
    split_ifs with hn
    · exact hs
    · rw [le_iff_toInt_le, toInt_zero, not_le] at hn
      obtain ⟨hbalanced, hkept⟩ := consumeRound_balanced hs hmeter hn hfits.1
      split
      · rename_i ended heq
        rw [heq] at hbalanced
        exact hbalanced
      · rename_i n' s' heq
        rw [heq] at hbalanced hkept
        exact ih hbalanced (hkept ▸ hmeter) (hfits.2 n' s' heq)

variable (meters) in
def ChargeFits (r : Resource) (n : Int64) (s : EvalState) : Prop :=
  s.meter ≠ none → ConsumeFits meters r n.toInt.toNat n s

theorem charge_balanced (hs : s.Balanced) (hfits : ChargeFits meters r n s) :
    (charge meters r n s).2.Balanced := by
  unfold charge
  split_ifs with hn hmeter
  · exact hs
  · exact consumeLease_balanced _ hs hmeter (hfits hmeter)
  · exact ⟨hs.book, hs.idle⟩

variable (meters) in
def FlushFits (s : EvalState) : Prop :=
  ¬(s.budget ≤ 0 ∨ s.budget ≥ checkInterval) →
    ChargeFits meters .reductions (checkInterval - s.budget) { s with budget := checkInterval }

theorem flushReductions_balanced (hs : s.Balanced) (hfits : FlushFits meters s) :
    (flushReductions meters s).2.Balanced := by
  have hrest : { s with budget := checkInterval }.Balanced := ⟨hs.book, hs.idle⟩
  unfold flushReductions
  split_ifs with hidle
  · exact hrest
  · exact charge_balanced hrest (hfits hidle)

theorem andThen_balanced {first : Reply × EvalState} {next : EvalState → Reply × EvalState}
    (hfirst : first.2.Balanced) (hnext : ∀ s', first = (.done, s') → (next s').2.Balanced) :
    (andThen first next).2.Balanced := by
  unfold andThen
  split
  · exact hnext _ rfl
  · exact hfirst

theorem rearm_balanced (hs : s.Balanced) (interrupt : Option Core.GoErr) :
    (rearm interrupt s).2.Balanced := ⟨hs.book, hs.idle⟩

variable (meters) in
def PollFits (force : Bool) (s : EvalState) : Prop :=
  if force then
    FlushFits meters s ∧
      ∀ s', flushReductions meters s = (.done, s') → ChargeFits meters .reductions 1 s'
  else s.budget - 1 = 0 →
    ChargeFits meters .reductions checkInterval { s with budget := s.budget - 1 }

theorem pollCancel_balanced {force : Bool} (hs : s.Balanced) (hfits : PollFits meters force s)
    (interrupt : Option Core.GoErr) : (pollCancel meters force interrupt s).2.Balanced := by
  unfold PollFits at hfits
  unfold pollCancel
  cases force with
  | true =>
    rw [if_pos rfl] at hfits ⊢
    have hflushed := flushReductions_balanced hs hfits.1
    have hcharged : (andThen (flushReductions meters s)
        (charge meters .reductions 1)).2.Balanced := by
      refine andThen_balanced hflushed fun s' heq => ?_
      rw [heq] at hflushed
      exact charge_balanced hflushed (hfits.2 s' heq)
    refine andThen_balanced hcharged fun s' heq => ?_
    rw [heq] at hcharged
    exact rearm_balanced hcharged interrupt
  | false =>
    rw [if_neg Bool.false_ne_true] at hfits ⊢
    have hrest : { s with budget := s.budget - 1 }.Balanced := ⟨hs.book, hs.idle⟩
    dsimp only
    split_ifs with hleft hspent
    · exact hrest
    · have hcharged := charge_balanced hrest (hfits hspent)
      refine andThen_balanced hcharged fun s' heq => ?_
      rw [heq] at hcharged
      exact rearm_balanced hcharged interrupt
    · exact rearm_balanced hrest interrupt

theorem returnEvalLease_balanced (hs : s.Balanced) : s.returnEvalLease.Balanced := by
  unfold returnEvalLease
  split
  · exact hs
  · rename_i m hmeter
    refine ⟨fun m' r => ?_, fun _ _ => rfl⟩
    have hbook := hs.book m' r
    simp only [record_book, outstanding, record_meter, record_leased, hmeter, true_and,
      reduceCtorEq, false_and, if_false, add_zero, Option.some.injEq, toInt_zero,
      ite_self] at hbook ⊢
    split_ifs at hbook ⊢ <;> omega

theorem returnEvalLease_leased (hs : s.Balanced) (r : Resource) :
    s.returnEvalLease.leased r = 0 := by
  unfold returnEvalLease
  split
  · rename_i hnone
    exact hs.idle hnone r
  · rfl

end Charges

theorem startEval_balanced (hs : s.Balanced) (hkeeps : ¬s.evalDepth > 0 → Keeps ctx s)
    (hfits : ¬s.evalDepth > 0 → LeaseFits meters Resource.maxLease { s with meter := ctx }) :
    (startEval meters ctx s).2.Balanced := by
  unfold startEval
  split_ifs with hnested
  · exact ⟨hs.book, hs.idle⟩
  · have htop := attachMeter_of_top hs (hkeeps hnested) hnested
    have hattached := attachMeter_balanced hs (hkeeps hnested)
    dsimp only
    split_ifs
    · have hdrawn : (drawInitialLease meters
          { s.attachMeter ctx with evalDepth := s.evalDepth + 1, meter := ctx }).2.Balanced := by
        unfold drawInitialLease
        have hstate : { s.attachMeter ctx with
            evalDepth := s.evalDepth + 1, meter := ctx } =
            { s with evalDepth := s.evalDepth + 1, meter := ctx } := by
          unfold attachMeter
          split
          · rfl
          · split_ifs <;> rfl
        rw [hstate]
        split_ifs
        · exact ⟨htop.book, htop.idle⟩
        · exact leaseEval_balanced ⟨htop.book, htop.idle⟩ (hfits hnested)
      split
      · rename_i s' heq
        rw [heq] at hdrawn
        exact ⟨hdrawn.book, hdrawn.idle⟩
      · rename_i err s' heq
        rw [heq] at hdrawn
        exact ⟨hdrawn.book, hdrawn.idle⟩
      · rename_i value s' heq
        rw [heq] at hdrawn
        exact hdrawn
    · exact ⟨hattached.book, hattached.idle⟩

theorem finishEval_balanced {settled : Reply} (hs : s.Balanced)
    (hfits : FlushFits meters { s with evalDepth := s.evalDepth - 1 }) :
    (finishEval meters settled s).2.Balanced ∧
      ∀ r, (finishEval meters settled s).2.leased r = 0 := by
  have hrest : { s with evalDepth := s.evalDepth - 1 }.Balanced := ⟨hs.book, hs.idle⟩
  have hflushed := flushReductions_balanced hrest hfits
  exact ⟨returnEvalLease_balanced hflushed, returnEvalLease_leased hflushed⟩

end EvalState

open EvalState

variable (meters : Meters)

/-- While units are leased, the context of the call leaves the meter in place, and no lease
that the call takes overflows. -/
def Careful (s : EvalState) : Op → Prop
  | .attach ctx => Keeps ctx s
  | .start ctx => ¬s.evalDepth > 0 →
      Keeps ctx s ∧ LeaseFits meters Resource.maxLease { s with meter := ctx }
  | .charge none r n => ChargeFits meters r n s
  | .charge (some ctx) r n => Keeps ctx s ∧ ChargeFits meters r n (s.attachMeter ctx)
  | .flush ctx => Keeps ctx s ∧ FlushFits meters (s.attachMeter ctx)
  | .poll ctx force _ => Keeps ctx s ∧ PollFits meters force (s.attachMeter ctx)
  | .finish ctx i _ => s.tops[i]? = some true →
      Keeps ctx s ∧ FlushFits meters { s.attachMeter ctx with
          tops := s.tops.eraseIdx i, evalDepth := (s.attachMeter ctx).evalDepth - 1 }

/-- A sequence of calls, each of them careful in the state it finds. -/
def CarefulOps : EvalState → List Op → Prop
  | _, [] => True
  | s, op :: ops => Careful meters s op ∧ CarefulOps (op.apply meters s).2 ops

variable {meters}

theorem attachMeter_tops (s : EvalState) (ctx : Option Nat) (tops : List Bool) :
    { s with tops := tops }.attachMeter ctx = { s.attachMeter ctx with tops := tops } := by
  unfold attachMeter
  split
  · rfl
  · dsimp only
    split_ifs <;> rfl

variable {s : EvalState} (ops : List Op)

theorem finish_balanced {ctx : Option Nat} {i : Nat} (hs : s.Balanced)
    (htop : s.tops[i]? = some true) (settled : Reply)
    (hcareful : Careful meters s (.finish ctx i settled)) :
    ((Op.finish ctx i settled).apply meters s).2.Balanced ∧
      ∀ r, ((Op.finish ctx i settled).apply meters s).2.leased r = 0 := by
  obtain ⟨hkeeps, hfits⟩ := hcareful htop
  have hattached := attachMeter_balanced hs hkeeps
  simp only [Op.apply, htop, if_true, attachMeter_tops]
  exact finishEval_balanced ⟨hattached.book, hattached.idle⟩ hfits

theorem step_balanced {op : Op} (hs : s.Balanced) (hcareful : Careful meters s op) :
    (op.apply meters s).2.Balanced := by
  cases op with
  | attach ctx => exact attachMeter_balanced hs hcareful
  | start ctx =>
    exact startEval_balanced hs (fun h => (hcareful h).1) (fun h => (hcareful h).2)
  | charge ctx r n =>
    cases ctx with
    | none => exact charge_balanced hs hcareful
    | some ctx => exact charge_balanced (attachMeter_balanced hs hcareful.1) hcareful.2
  | flush ctx => exact flushReductions_balanced (attachMeter_balanced hs hcareful.1) hcareful.2
  | poll ctx force interrupt =>
    exact pollCancel_balanced (attachMeter_balanced hs hcareful.1) hcareful.2 interrupt
  | finish ctx i settled =>
    by_cases htop : s.tops[i]? = some true
    · exact (finish_balanced hs htop settled hcareful).1
    · simp only [Op.apply, htop, if_false]
      exact ⟨hs.book, hs.idle⟩

theorem run_balanced (hs : s.Balanced) (hcareful : CarefulOps meters s ops) :
    (run meters s ops).Balanced := by
  induction ops generalizing s with
  | nil => exact hs
  | cons op ops ih => exact ih (step_balanced hs hcareful.1) hcareful.2

theorem CarefulOps.append {op : Op} (h : CarefulOps meters s (ops ++ [op])) :
    CarefulOps meters s ops ∧ Careful meters (run meters s ops) op := by
  induction ops generalizing s with
  | nil => exact ⟨trivial, h.1⟩
  | cons first ops ih =>
    obtain ⟨hops, hop⟩ := ih h.2
    exact ⟨⟨h.1, hops⟩, hop⟩

/-- After any sequence of careful calls the units granted are those consumed, those returned
and those leased from the attached meter, for every meter; after the `FinishEval` of an
outermost evaluation nothing is leased. -/
theorem leases_consumed_or_returned (meters : Meters) (limits : Limits) (ops : List Op)
    (hcareful : CarefulOps meters (EvalState.fresh limits) ops) :
    (∀ m r, (run meters (EvalState.fresh limits) ops).book .granted m r =
      (run meters (EvalState.fresh limits) ops).book .consumed m r +
        (run meters (EvalState.fresh limits) ops).book .returned m r +
        (run meters (EvalState.fresh limits) ops).outstanding m r) ∧
    ∀ before ctx i settled, ops = before ++ [.finish ctx i settled] →
      (run meters (EvalState.fresh limits) before).tops[i]? = some true →
      ∀ m r, (run meters (EvalState.fresh limits) ops).book .granted m r =
        (run meters (EvalState.fresh limits) ops).book .consumed m r +
          (run meters (EvalState.fresh limits) ops).book .returned m r := by
  have hbalanced := run_balanced ops (fresh_balanced limits) hcareful
  refine ⟨hbalanced.book, ?_⟩
  rintro before ctx i settled rfl htop m r
  obtain ⟨hbefore, hfinish⟩ := hcareful.append before
  have hempty := (finish_balanced (run_balanced before (fresh_balanced limits) hbefore) htop
    settled hfinish).2
  have hrun : run meters (.fresh limits) (before ++ [.finish ctx i settled]) =
      ((Op.finish ctx i settled).apply meters
        (run meters (.fresh limits) before)).2 := by
    simp [run]
  rw [hbalanced.book m r, EvalState.outstanding, hrun, hempty r, toInt_zero, ite_self,
    add_zero]

def generous : Meters := fun _ _ want => .answered want none

def someLimits : Limits := ⟨fun _ => 1000, fun _ => by decide⟩

theorem leases_consumed_or_returned_once :
    let ops := [.start (some 1), .charge (some (some 1)) .reductions 1, .finish (some 1) 0 .done]
    CarefulOps generous (.fresh someLimits) ops ∧
      ∀ r, (run generous (.fresh someLimits) ops).book .granted 1 r =
        (run generous (.fresh someLimits) ops).book .consumed 1 r +
          (run generous (.fresh someLimits) ops).book .returned 1 r := by
  intro ops
  have hcareful : CarefulOps generous (.fresh someLimits) ops := by
    refine ⟨fun _ => ⟨?_, ?_⟩, ⟨fun _ => .inl rfl, fun _ => ⟨?_, fun _ _ _ => trivial⟩⟩,
      fun _ => ⟨fun _ => .inl rfl, ?_⟩, trivial⟩
    · rintro ⟨r, hr⟩
      exact absurd rfl hr
    · rintro m granted err - hanswer r
      cases hanswer
      cases r <;> decide
    · intro hempty
      exact absurd hempty (by decide +kernel)
    · intro hidle
      exact absurd (.inl (by decide +kernel)) hidle
  exact ⟨hcareful, (leases_consumed_or_returned generous someLimits ops hcareful).2
    [.start (some 1), .charge (some (some 1)) .reductions 1] (some 1) 0 .done rfl
    (by decide +kernel) 1⟩

/-- A charge through a context without a meter detaches the meter 1, one through a context
with another meter attaches the meter 2, and the units of the first are returned to the
second. -/
theorem detached_lease_lost :
    let ops := [.start (some 1), .charge (some none) .reductions 1,
      .charge (some (some 2)) .reductions 1]
    let finished := run generous (.fresh someLimits) (ops ++ [.finish (some 1) 0 .done])
    (run generous (.fresh someLimits) ops).tops[0]? = some true ∧
      finished.book .granted 1 .reductions = 1024 ∧
      finished.book .consumed 1 .reductions = 0 ∧ finished.book .returned 1 .reductions = 0 ∧
      finished.book .granted 2 .reductions = 0 ∧
      finished.book .consumed 2 .reductions = 1 ∧
      finished.book .returned 2 .reductions = 1023 := by
  decide +kernel

end Meter

end Lispico
