import Lispico.Runtime.ResultCharges
import Mathlib

/-!
# Each result is charged once

The flag of an evaluation state is right for the builtin being called as long as its context
keeps finding the same state. A wrapper stops doing so when the VM it is stamped for ends a run,
which may be another VM than the one that rearmed it. So the charges are right in runs in which
no VM starts while a wrapper stamped for it is live, and no builtin panics.
-/

namespace Lispico

namespace Runtime

namespace ResultCharges

def World.Idle (W : World) (v : Nat) : Prop :=
  ∀ w < W.wrappers, (W.wrapper w).owner = some v → W.live w = false

instance (W : World) (v : Nat) : Decidable (W.Idle v) :=
  inferInstanceAs (Decidable (∀ w < W.wrappers, _ → _))

def Evaluator.Ready : Evaluator → World → Prop
  | .tree, _ => True
  | .vm v, W => W.Idle v

mutual

def Acts.Careful : Acts → Ctx → World → Prop
  | .done outcome, _, _ => outcome ≠ .panicked
  | .chargeResult rest, c, W => rest.Careful c (W.chargeGoFuncResultBytes c)
  | .charge rest, c, W => rest.Careful c (W.evalStateFrom c).2
  | .enter entry run rest, c, W =>
    let start := entry.start c W
    entry.evaluator.Ready start.2 ∧ run.Careful entry.evaluator start.1 start.2 ∧ rest.Careful c
        (entry.evaluator.finish (run.run entry.evaluator start.1 start.2).2.2)

def Run.Careful : Run → Evaluator → Ctx → World → Prop
  | .done, _, _, _ => True
  | .charge rest, ev, c, W =>
    let site := siteCtx ev c W
    rest.Careful ev c (site.2.evalStateFrom site.1).2
  | .dispatch callee rest, ev, c, W =>
    let site := siteCtx ev c W
    let begun := beginDispatch ev site.1 site.2
    callee.Careful site.1 begun.2.2 ∧ rest.Careful ev c
        (endDispatch begun.2.1 site.1 begun.1 (callee.run site.1 begun.2.2).2.2).2
  | .apply v run rest, ev, c, W =>
    let site := siteCtx ev c W
    let start := site.2.ensureEvalState site.1
    (ev.other v).Ready start.2 ∧ run.Careful (ev.other v) start.1 start.2 ∧
      rest.Careful ev c ((ev.other v).finish (run.run (ev.other v) start.1 start.2).2.2)

end

def HostCareful : List (Entry × Run) → World → Prop
  | [], _ => True
  | (entry, run) :: rest, W =>
    let start := entry.start (.plain 0 true) W
    entry.evaluator.Ready start.2 ∧ run.Careful entry.evaluator start.1 start.2 ∧ HostCareful rest
        (entry.evaluator.finish (run.run entry.evaluator start.1 start.2).2.2)

def Ctx.stateless : Ctx → Bool
  | .plain _ _ => true
  | .derived _ parent => parent.stateless
  | _ => false

namespace World

def stateOf (W : World) : Ctx → Option Nat
  | .plain _ _ => none
  | .derived _ parent => W.stateOf parent
  | .withState st _ => some st
  | .wrapper w _ => (W.wrapper w).state

/-- The flag that a context finds; a state not yet built has it down. -/
def charged (W : World) (c : Ctx) : Bool :=
  match W.stateOf c with
  | none => false
  | some st => W.calleeCharged st

/-- A context in use: its wrapper is live and stands on nothing that carries a state. -/
def Good (W : World) : Ctx → Prop
  | .plain _ _ => True
  | .derived _ parent => W.Good parent
  | .withState st _ => st < W.states
  | .wrapper w parent => w < W.wrappers ∧ W.live w = true ∧ parent.stateless = true

structure Inv (W : World) : Prop where
  state_lt : ∀ w < W.wrappers, ∀ st, (W.wrapper w).state = some st → st < W.states
  kept : ∀ v w parent, (W.vm v).reentryCtx = some (.wrapper w parent) →
    w < W.wrappers ∧ parent.stateless = true

/-- What a step may do: build states and wrappers. Live wrappers stay live and keep their
state; the flags stay as they are, but for one, and those of new states are down. The invariant
is kept. -/
structure Settled (but : Option Nat) (W W' : World) : Prop where
  states : W.states ≤ W'.states
  wrappers : W.wrappers ≤ W'.wrappers
  owner : ∀ w < W.wrappers, (W'.wrapper w).owner = (W.wrapper w).owner
  live : ∀ w < W.wrappers, W.live w = true → W'.live w = true
  state : ∀ w < W.wrappers, W.live w = true → (W'.wrapper w).state = (W.wrapper w).state ∨
      (W.wrapper w).state = none ∧
        ∃ st, (W'.wrapper w).state = some st ∧ W.states ≤ st ∧ st < W'.states
  old : ∀ st < W.states, some st ≠ but → W'.calleeCharged st = W.calleeCharged st
  new : ∀ st, W.states ≤ st → st < W'.states → some st ≠ but → W'.calleeCharged st = false
  inv : W.Inv → W'.Inv

theorem Settled.refl (but : Option Nat) (W : World) : Settled but W W :=
  ⟨Nat.le_refl _, Nat.le_refl _, fun _ _ => rfl, fun _ _ h => h, fun _ _ _ => .inl rfl,
    fun _ _ _ => rfl, fun _ hle hlt => absurd hlt (Nat.not_lt.2 hle), id⟩

variable {b : Option Nat} {W W₁ W₂ : World}

theorem Settled.trans {b' : Option Nat} (h : Settled b W W₁) (h' : Settled b' W₁ W₂)
    (hb : b = none ∨ b = b') : Settled b' W W₂ := by
  have hne : ∀ st, some st ≠ b' → some st ≠ b := by
    rintro st hst rfl
    rcases hb with hb | hb
    · cases hb
    · exact hst hb
  refine ⟨Nat.le_trans h.states h'.states, Nat.le_trans h.wrappers h'.wrappers, fun w hw => ?_,
    fun w hw hl => h'.live w (Nat.lt_of_lt_of_le hw h.wrappers) (h.live w hw hl),
    fun w hw hl => ?_, fun st hst hbut => ?_, fun st hle hlt hbut => ?_,
    fun hi => h'.inv (h.inv hi)⟩
  · rw [h'.owner w (Nat.lt_of_lt_of_le hw h.wrappers), h.owner w hw]
  · rcases h'.state w (Nat.lt_of_lt_of_le hw h.wrappers) (h.live w hw hl) with heq | ⟨hnone, hst⟩
    · rw [heq]
      rcases h.state w hw hl with heq' | ⟨hnone, st, hst, hle, hlt⟩
      · exact .inl heq'
      · exact .inr ⟨hnone, st, hst, hle, Nat.lt_of_lt_of_le hlt h'.states⟩
    · obtain ⟨st, hst, hle, hlt⟩ := hst
      rcases h.state w hw hl with heq' | ⟨hnone', st', hst', -, -⟩
      · exact .inr ⟨heq' ▸ hnone, st, hst, Nat.le_trans h.states hle, hlt⟩
      · rw [hnone] at hst'
        cases hst'
  · rw [h'.old st (Nat.lt_of_lt_of_le hst h.states) hbut, h.old st hst (hne st hbut)]
  · by_cases hold : st < W₁.states
    · rw [h'.old st hold hbut, h.new st hle hold (hne st hbut)]
    · exact h'.new st (Nat.not_lt.1 hold) hlt hbut

theorem Settled.andThen (h : Settled none W W₁) (h' : Settled b W₁ W₂) : Settled b W W₂ :=
  h.trans h' (.inl rfl)

variable {W' : World} {c : Ctx}

theorem Settled.good (h : Settled b W W') (hg : W.Good c) : W'.Good c := by
  induction c with
  | plain id cmp => trivial
  | derived id parent ih => exact ih hg
  | withState st parent => exact Nat.lt_of_lt_of_le hg h.states
  | wrapper w parent =>
    exact ⟨Nat.lt_of_lt_of_le hg.1 h.wrappers, h.live w hg.1 hg.2.1, hg.2.2⟩

variable {st : Nat}

theorem stateOf_lt (hi : W.Inv) (hg : W.Good c) (h : W.stateOf c = some st) : st < W.states := by
  induction c with
  | plain id cmp => cases h
  | derived id parent ih => exact ih hg h
  | withState st' parent =>
    cases h
    exact hg
  | wrapper w parent => exact hi.state_lt w hg.1 st h

theorem Settled.stateOf (h : Settled b W W') (hg : W.Good c) : W'.stateOf c = W.stateOf c ∨
      W.stateOf c = none ∧ ∃ st, W'.stateOf c = some st ∧ W.states ≤ st ∧ st < W'.states := by
  induction c with
  | plain id cmp => exact .inl rfl
  | derived id parent ih => exact ih hg
  | withState st parent => exact .inl rfl
  | wrapper w parent => exact h.state w hg.1 hg.2.1

theorem Settled.stateOf_some (h : Settled b W W') (hg : W.Good c) (hst : W.stateOf c = some st) :
    W'.stateOf c = some st := by
  rcases h.stateOf hg with heq | ⟨hnone, -⟩
  · rw [heq, hst]
  · rw [hnone] at hst
    cases hst

theorem Settled.charged (hi : W.Inv) (h : Settled none W W') (hg : W.Good c) :
    W'.charged c = W.charged c := by
  unfold World.charged
  rcases h.stateOf hg with heq | ⟨hnone, st, hst, hle, hlt⟩
  · rw [heq]
    cases hst : W.stateOf c with
    | none => rfl
    | some st => exact h.old st (stateOf_lt hi hg hst) nofun
  · rw [hst, hnone]
    exact h.new st hle hlt nofun

theorem Settled.close (h : Settled (W'.stateOf c) W W') (hi : W.Inv) (hg : W.Good c)
    (hflag : ∀ st, W'.stateOf c = some st → W'.calleeCharged st = W.charged c) :
    Settled none W W' := by
  refine ⟨h.states, h.wrappers, h.owner, h.live, h.state, fun st hst _ => ?_,
    fun st hle hlt _ => ?_, h.inv⟩
  · by_cases hbut : some st = W'.stateOf c
    · rw [hflag st hbut.symm]
      rcases h.stateOf hg with heq | ⟨-, st', hst', hle, -⟩
      · rw [World.charged, ← heq, ← hbut]
      · rw [hst', Option.some.injEq] at hbut
        omega
    · exact h.old st hst hbut
  · by_cases hbut : some st = W'.stateOf c
    · rw [hflag st hbut.symm]
      rcases h.stateOf hg with heq | ⟨hnone, -⟩
      · have hlt' := stateOf_lt hi hg (heq ▸ hbut.symm)
        omega
      · rw [World.charged, hnone]
    · exact h.new st hle hlt hbut

theorem settled_mark (W : World) (st : Nat) (charged : Bool) :
    Settled (some st) W (W.mark st charged) := by
  refine ⟨Nat.le_refl _, Nat.le_refl _, fun _ _ => rfl, fun _ _ h => h, fun _ _ _ => .inl rfl,
    fun st' _ hne => ?_, fun _ hle hlt => absurd hlt (Nat.not_lt.2 hle),
    fun hi => ⟨hi.state_lt, hi.kept⟩⟩
  exact Function.update_of_ne (fun heq => hne (by rw [heq])) _ _

theorem stateOf_mark (W : World) (st : Nat) (charged : Bool) (c : Ctx) :
    (W.mark st charged).stateOf c = W.stateOf c := by
  induction c with
  | derived id parent ih => exact ih
  | _ => rfl

theorem charged_mark (h : W.stateOf c = some st) (charged : Bool) :
    (W.mark st charged).charged c = charged := by
  rw [World.charged, stateOf_mark, h]
  exact Function.update_self _ _ _

theorem settled_newEvalState (W : World) : Settled none W W.newEvalState.2 := by
  refine ⟨Nat.le_succ _, Nat.le_refl _, fun _ _ => rfl, fun _ _ h => h, fun _ _ _ => .inl rfl,
    fun st hst _ => ?_, fun st hle hlt _ => ?_,
    fun hi => ⟨fun w hw st hst => Nat.lt_succ_of_lt (hi.state_lt w hw st hst), hi.kept⟩⟩
  · exact Function.update_of_ne (Nat.ne_of_lt hst) _ _
  · have heq : st = W.states := Nat.le_antisymm (Nat.le_of_lt_succ hlt) hle
    rw [heq]
    exact Function.update_self _ _ _

theorem live_materialize (W : World) (w w' : Nat) : (W.materialize w).2.live w' = W.live w' := by
  unfold World.live
  by_cases h : w' = w
  · subst h
    simp [World.materialize, World.newEvalState, World.mark]
  · simp [World.materialize, World.newEvalState, World.mark, h]

variable {w : Nat} {owner : Option Nat} {gen : Nat}

theorem settled_materialize (W : World) (h : (W.wrapper w).state = none) :
    Settled none W (W.materialize w).2 := by
  have hnew := settled_newEvalState W
  refine ⟨hnew.states, Nat.le_refl _, fun w' _ => ?_, fun w' _ hl => ?_, fun w' _ _ => ?_,
    hnew.old, hnew.new, fun hi => ⟨fun w' hw' st hst => ?_, hi.kept⟩⟩
  · by_cases hw : w' = w
    · subst hw
      simp [World.materialize]
    · simp [World.materialize, World.newEvalState, World.mark, hw]
  · rw [live_materialize, hl]
  · by_cases hw : w' = w
    · subst hw
      refine .inr ⟨h, W.states, ?_, Nat.le_refl _, Nat.lt_succ_self _⟩
      simp [World.materialize, World.newEvalState]
    · exact .inl (by simp [World.materialize, World.newEvalState, World.mark, hw])
  · by_cases hw : w' = w
    · subst hw
      simp only [World.materialize, Function.update_self, Option.some.injEq] at hst
      rw [← hst]
      exact Nat.lt_succ_self _
    · simp only [World.materialize, Function.update_of_ne hw] at hst
      exact (hnew.inv hi).state_lt w' hw' st hst

theorem value_of_stateless (h : c.stateless = true) : W.value c = (none, W) := by
  induction c with
  | plain id cmp => rfl
  | derived id parent ih => exact ih h
  | withState st parent => cases h
  | wrapper w parent => cases h

theorem value_of_good (hg : W.Good c) (hs : c.stateless = false) :
    ∃ st W', W.value c = (some st, W') ∧ Settled none W W' ∧ W'.stateOf c = some st := by
  induction c with
  | plain id cmp => cases hs
  | derived id parent ih => exact ih hg hs
  | withState st parent => exact ⟨st, W, rfl, .refl none W, rfl⟩
  | wrapper w parent =>
    obtain ⟨-, hlive, hparent⟩ := hg
    rw [value, if_pos hlive, value_of_stateless hparent]
    cases hst : (W.wrapper w).state with
    | some st => exact ⟨st, W, by simp only [hst], .refl none W, hst⟩
    | none =>
      refine ⟨(W.materialize w).1, (W.materialize w).2, by simp only [hst],
        settled_materialize W hst, ?_⟩
      simp [stateOf, materialize]

theorem evalStateFrom_of_good (hg : W.Good c) (hs : c.stateless = false) :
    ∃ st W', W.evalStateFrom c = (st, W') ∧ Settled none W W' ∧ W'.stateOf c = some st := by
  obtain ⟨st, W', hval, hset, hst⟩ := value_of_good hg hs
  exact ⟨st, W', by rw [evalStateFrom, hval], hset, hst⟩

/-- A context that has been made: it is in use, and no flag has changed. -/
structure Made (W : World) (c : Ctx) (W' : World) : Prop where
  good : W'.Good c
  settled : Settled none W W'

theorem Made.andThen {c' : Ctx} (h : Made W c W₁) (h' : Made W₁ c' W₂) : Made W c' W₂ :=
  ⟨h'.good, h.settled.andThen h'.settled⟩

theorem made_detach (W : World) (c : Ctx) :
    Made W (W.detachEvalState c).1 (W.detachEvalState c).2 :=
  ⟨Nat.lt_succ_self _, settled_newEvalState W⟩

theorem made_ensure (hg : W.Good c) : Made W (W.ensureEvalState c).1 (W.ensureEvalState c).2 ∧
      (W.ensureEvalState c).1.stateless = false := by
  cases hs : c.stateless with
  | true =>
    rw [ensureEvalState, value_of_stateless hs]
    exact ⟨made_detach W c, rfl⟩
  | false =>
    obtain ⟨st, W', hval, hset, -⟩ := value_of_good hg hs
    rw [ensureEvalState, hval]
    exact ⟨⟨hset.good hg, hset⟩, hs⟩

theorem live_newWrapper (hw : w < W.wrappers) : (W.newWrapper owner gen).2.live w = W.live w := by
  simp [World.live, newWrapper, Nat.ne_of_lt hw]

theorem settled_newWrapper (W : World) (owner : Option Nat) (gen : Nat) :
    Settled none W (W.newWrapper owner gen).2 := by
  refine ⟨Nat.le_refl _, Nat.le_succ _, fun w hw => ?_, fun w hw hl => ?_, fun w hw _ => .inl ?_,
    fun _ _ _ => rfl, fun _ hle hlt => absurd hlt (Nat.not_lt.2 hle),
    fun hi => ⟨fun w hw st hst => ?_, fun v w parent h => ?_⟩⟩
  · simp [newWrapper, Nat.ne_of_lt hw]
  · rw [live_newWrapper hw, hl]
  · simp [newWrapper, Nat.ne_of_lt hw]
  · by_cases hnew : w = W.wrappers
    · subst hnew
      simp [World.newWrapper] at hst
    · have hlt : w < W.wrappers := Nat.lt_of_le_of_ne (Nat.le_of_lt_succ hw) hnew
      simp only [World.newWrapper, Function.update_of_ne hnew] at hst
      exact hi.state_lt w hlt st hst
  · exact ⟨Nat.lt_succ_of_lt (hi.kept v w parent h).1, (hi.kept v w parent h).2⟩

theorem good_newWrapper (hs : c.stateless = true)
    (hlive : ∀ v, owner = some v → gen = (W.vm v).runGen) :
    (W.newWrapper owner gen).2.Good (.wrapper (W.newWrapper owner gen).1 c) := by
  refine ⟨Nat.lt_succ_self _, ?_, hs⟩
  cases owner with
  | none => simp [World.live, newWrapper]
  | some v => simp [World.live, newWrapper, hlive v rfl]

theorem made_adopt (hg : W.Good c) : Made W (W.adoptEvalState c).1 (W.adoptEvalState c).2 := by
  cases hs : c.stateless with
  | true =>
    rw [adoptEvalState, value_of_stateless hs]
    exact ⟨good_newWrapper hs nofun, settled_newWrapper W none 0⟩
  | false =>
    obtain ⟨st, W', hval, hset, -⟩ := value_of_good hg hs
    rw [adoptEvalState, hval]
    exact ⟨hset.good hg, hset⟩

theorem live_keep (W : World) (v : Nat) (c : Ctx) (w : Nat) : (W.keep v c).live w = W.live w := by
  unfold World.live
  simp only [keep]
  cases (W.wrapper w).owner with
  | none => rfl
  | some v' =>
    by_cases h : v' = v
    · subst h
      simp
    · simp [h]

theorem settled_keep (v : Nat) (hg : W.Good c) : Settled none W (W.keep v c) := by
  refine ⟨Nat.le_refl _, Nat.le_refl _, fun _ _ => rfl, fun w _ h => by rw [live_keep, h],
    fun _ _ _ => .inl rfl, fun _ _ _ => rfl, fun _ hle hlt => absurd hlt (Nat.not_lt.2 hle),
    fun hi => ⟨hi.state_lt, fun v' w parent h => ?_⟩⟩
  by_cases hv : v' = v
  · subst hv
    simp only [World.keep, Function.update_self, Option.some.injEq] at h
    subst h
    exact ⟨hg.1, hg.2.2⟩
  · simp only [World.keep, Function.update_of_ne hv] at h
    exact hi.kept v' w parent h

theorem Made.keep (h : Made W c W') (v : Nat) : Made W c (W'.keep v c) :=
  have hkept := settled_keep v h.good
  ⟨hkept.good h.good, h.settled.andThen hkept⟩

theorem made_adoptReentrant (v : Nat) (hg : W.Good c) :
    Made W (W.adoptReentrant v c).1 (W.adoptReentrant v c).2 ∧
      (W.adoptReentrant v c).1.stateless = false := by
  cases hs : c.stateless with
  | true =>
    rw [adoptReentrant, value_of_stateless hs]
    have hmade : Made W (.wrapper (W.newWrapper (some v) (W.vm v).runGen).1 c)
        (W.newWrapper (some v) (W.vm v).runGen).2 :=
      ⟨good_newWrapper hs fun v' hv => by cases hv; rfl, settled_newWrapper W _ _⟩
    exact ⟨hmade.keep v, rfl⟩
  | false =>
    obtain ⟨st, W', hval, hset, -⟩ := value_of_good hg hs
    rw [adoptReentrant, hval]
    exact ⟨.keep ⟨hset.good hg, hset⟩ v, hs⟩

theorem live_rearm_self (W : World) (w : Nat) : (W.rearm w).live w = true := by
  unfold World.live rearm
  cases h : (W.wrapper w).owner with
  | none => simp
  | some v => simp

theorem live_rearm_of_ne (W : World) {w' : Nat} (h : w' ≠ w) :
    (W.rearm w).live w' = W.live w' := by
  simp [World.live, rearm, h]

theorem settled_rearm (h : W.live w = false) : Settled none W (W.rearm w) := by
  have hne : ∀ w', W.live w' = true → w' ≠ w := by
    rintro w' hl rfl
    rw [h] at hl
    cases hl
  refine ⟨Nat.le_refl _, Nat.le_refl _, fun w' _ => ?_, fun w' _ hl => ?_, fun w' _ hl => .inl ?_,
    fun _ _ _ => rfl, fun _ hle hlt => absurd hlt (Nat.not_lt.2 hle),
    fun hi => ⟨fun w' hw' st hst => ?_, hi.kept⟩⟩
  · by_cases hw : w' = w
    · subst hw
      simp [rearm]
    · simp [rearm, hw]
  · rw [live_rearm_of_ne W (hne w' hl), hl]
  · simp [rearm, hne w' hl]
  · by_cases hw : w' = w
    · subst hw
      simp [World.rearm] at hst
    · simp only [World.rearm, Function.update_of_ne hw] at hst
      exact hi.state_lt w' hw' st hst

theorem made_reentrantCtx (hi : W.Inv) (v : Nat) (hg : W.Good c) :
    Made W (W.reentrantCtx v c).1 (W.reentrantCtx v c).2 ∧
      (W.reentrantCtx v c).1.stateless = false := by
  unfold reentrantCtx
  split
  · rename_i w parent hkept
    obtain ⟨hw, hparent⟩ := hi.kept v w parent hkept
    split
    · rename_i hlive
      exact ⟨⟨⟨hw, hlive, hparent⟩, .refl none W⟩, rfl⟩
    · rename_i hlive
      split
      · exact ⟨⟨⟨hw, live_rearm_self W w, hparent⟩,
          settled_rearm (Bool.eq_false_iff.2 hlive)⟩, rfl⟩
      · exact made_adoptReentrant v hg
  · exact made_adoptReentrant v hg

theorem meterIfMaterialized_of_good (hg : W.Good c) (hs : c.stateless = false) :
    ∃ W', W.meterIfMaterialized c = (W'.stateOf c, W') ∧ Settled none W W' := by
  cases c with
  | plain id cmp => cases hs
  | derived id parent =>
    obtain ⟨st, W', hval, hset, hst⟩ := value_of_good hg hs
    exact ⟨W', by rw [hst]; exact hval, hset⟩
  | withState st parent => exact ⟨W, rfl, .refl none W⟩
  | wrapper w parent =>
    refine ⟨W, ?_, .refl none W⟩
    rw [meterIfMaterialized, if_pos hg.2.1]
    rfl

theorem settled_mark_stateOf (h : W.stateOf c = some st) (charged : Bool) :
    Settled ((W.mark st charged).stateOf c) W (W.mark st charged) := by
  rw [stateOf_mark, h]
  exact settled_mark W st charged

theorem chargeResult_spec (hg : W.Good c) (hs : c.stateless = false) :
    Settled ((W.chargeGoFuncResultBytes c).stateOf c) W (W.chargeGoFuncResultBytes c) ∧
      (W.chargeGoFuncResultBytes c).charged c = true := by
  obtain ⟨st, W', hfound, hset, hst⟩ := evalStateFrom_of_good hg hs
  rw [chargeGoFuncResultBytes, hfound]
  exact ⟨hset.andThen (settled_mark_stateOf hst true), charged_mark hst true⟩

end World

open World

variable {W : World} {c : Ctx} (ev : Evaluator)

theorem calleeCharged_of_mark {st : Nat} (prev : Bool) (h : W.stateOf c = some st) :
    ∀ st', (W.mark st prev).stateOf c = some st' → (W.mark st prev).calleeCharged st' = prev := by
  intro st' hst'
  rw [stateOf_mark, h] at hst'
  cases hst'
  exact Function.update_self _ _ _

/-- Both ends of a dispatch by a VM: `beginGoFuncDispatch` puts the flag down. -/
theorem endGoFuncDispatch_spec (hi : W.Inv) (hg : W.Good c) (hs : c.stateless = false)
    (prev : Bool) :
    ∃ W', W.endGoFuncDispatch c prev = (W.charged c, W') ∧ Settled (W'.stateOf c) W W' ∧
      ∀ st, W'.stateOf c = some st → W'.calleeCharged st = prev := by
  obtain ⟨W', hfound, hset⟩ := meterIfMaterialized_of_good hg hs
  have hcharged := hset.charged hi hg
  cases hst : W'.stateOf c with
  | none =>
    rw [hst] at hfound
    rw [charged, hst] at hcharged
    refine ⟨W', by simp only [endGoFuncDispatch, hfound, hcharged], ?_, by simp [hst]⟩
    rw [hst]
    exact hset
  | some st =>
    rw [hst] at hfound
    rw [charged, hst] at hcharged
    exact ⟨W'.mark st prev, by simp only [endGoFuncDispatch, hfound, hcharged],
      hset.andThen (settled_mark_stateOf hst prev), calleeCharged_of_mark prev hst⟩

theorem beginDispatch_spec (hi : W.Inv) (hg : W.Good c) (hs : c.stateless = false) :
    ∃ held W', beginDispatch ev c W = (W.charged c, held, W') ∧
      Settled (W'.stateOf c) W W' ∧ W'.charged c = false ∧
        ∀ st, held = some st → W'.stateOf c = some st := by
  cases ev with
  | tree =>
    obtain ⟨st, W', hfound, hset, hst⟩ := evalStateFrom_of_good hg hs
    have hprev : W'.calleeCharged st = W.charged c := by
      rw [← hset.charged hi hg, charged, hst]
    refine ⟨some st, W'.mark st false, ?_, hset.andThen (settled_mark_stateOf hst false),
      charged_mark hst false, ?_⟩
    · simp only [beginDispatch, hfound, hprev]
    · intro st' hheld
      cases hheld
      rw [stateOf_mark, hst]
  | vm v =>
    obtain ⟨W', hbegun, hset, hdown⟩ := endGoFuncDispatch_spec hi hg hs false
    have hbegun' : W.beginGoFuncDispatch c = (W.charged c, W') := hbegun
    refine ⟨none, W', by simp only [beginDispatch, hbegun'], hset, ?_, nofun⟩
    unfold charged
    split
    · rfl
    · exact hdown _ ‹_›

theorem endDispatch_spec (hi : W.Inv) (hg : W.Good c) (hs : c.stateless = false) (prev : Bool)
    {held : Option Nat} (hheld : ∀ st, held = some st → W.stateOf c = some st) :
    ∃ W', endDispatch held c prev W = (W.charged c, W') ∧ Settled (W'.stateOf c) W W' ∧
      ∀ st, W'.stateOf c = some st → W'.calleeCharged st = prev := by
  cases held with
  | some st =>
    have hst := hheld st rfl
    refine ⟨W.mark st prev, ?_, settled_mark_stateOf hst prev, calleeCharged_of_mark prev hst⟩
    rw [endDispatch, charged, hst]
  | none => exact endGoFuncDispatch_spec hi hg hs prev

theorem siteCtx_spec (hi : W.Inv) (hg : W.Good c) :
    Made W (siteCtx ev c W).1 (siteCtx ev c W).2 ∧ (siteCtx ev c W).1.stateless = false := by
  cases ev with
  | tree => exact made_ensure hg
  | vm v => exact made_reentrantCtx hi v hg

theorem make_spec (source : Source) (hg : W.Good c) :
    Made W (source.make c W).1 (source.make c W).2 := by
  induction source with
  | own => exact ⟨hg, .refl none W⟩
  | bare id cmp => exact ⟨trivial, .refl none W⟩
  | derived id source ih => exact ⟨ih.good, ih.settled⟩
  | detached source ih => exact ih.andThen (made_detach _ _)
  | adopted source ih => exact ih.andThen (made_adopt ih.good)

theorem start_spec (entry : Entry) (hg : W.Good c) :
    Made W (entry.start c W).1 (entry.start c W).2 := by
  have hmade := make_spec entry.source hg
  unfold Entry.start
  simp only
  split
  · exact hmade.andThen (made_ensure hmade.good).1
  · refine hmade.andThen ?_
    cases hs : (entry.source.make c W).1.stateless with
    | true =>
      rw [value_of_stateless hs]
      exact ⟨hmade.good, .refl none _⟩
    | false =>
      obtain ⟨st, W', hval, hset, -⟩ := value_of_good hmade.good hs
      rw [hval]
      exact ⟨hset.good hmade.good, hset⟩

theorem settled_finish {ev : Evaluator} {W' : World} (hready : ev.Ready W)
    (h : Settled none W W') : Settled none W (ev.finish W') := by
  cases ev with
  | tree => exact h
  | vm v =>
    unfold Evaluator.finish bumpRunGen
    by_cases hkept : (W'.vm v).reentryCtx.isSome
    · simp only [hkept, if_true]
      refine ⟨h.states, h.wrappers, h.owner, fun w hw hl => ?_, h.state, h.old, h.new,
        fun hi => ⟨(h.inv hi).state_lt, fun v' w parent hv' => ?_⟩⟩
      · have howner : (W'.wrapper w).owner ≠ some v := by
          intro howner
          rw [h.owner w hw] at howner
          rw [hready w hw howner] at hl
          cases hl
        have hl' := h.live w hw hl
        unfold World.live at hl' ⊢
        cases hown : (W'.wrapper w).owner with
        | none => rfl
        | some v' =>
          have hne : v' ≠ v := fun heq => howner (by rw [hown, heq])
          simp only [hown] at hl'
          simp only [Function.update_of_ne hne, hl']
      · by_cases hv : v' = v
        · subst hv
          simp only [Function.update_self] at hv'
          exact (h.inv hi).kept v' w parent hv'
        · simp only [Function.update_of_ne hv] at hv'
          exact (h.inv hi).kept v' w parent hv'
    · simp only [hkept]
      exact h

/-- Every builtin that has returned is charged for by itself or by its apply site. -/
def Attributed (log : List Applied) : Prop := ∀ a ∈ log, a.fallback = !a.charged

theorem attributed_nil : Attributed [] := by
  intro a ha
  cases ha

theorem Attributed.append {log log' : List Applied} (h : Attributed log) (h' : Attributed log') :
    Attributed (log ++ log') := by
  intro a ha
  rcases List.mem_append.1 ha with ha | ha
  · exact h a ha
  · exact h' a ha

theorem attributed_settle (callee : Acts) (outcome : Outcome) :
    Attributed (settle callee outcome callee.charges) := by
  cases outcome with
  | returned =>
    intro a ha
    rw [List.mem_singleton.1 ha]
  | failed => exact attributed_nil
  | panicked => exact attributed_nil

/-- What is known after a builtin with the context `c`. -/
structure Acted (acts : Acts) (c : Ctx) (W : World) (r : Outcome × List Applied × World) :
    Prop where
  outcome : r.1 ≠ .panicked
  attributed : Attributed r.2.1
  settled : Settled (r.2.2.stateOf c) W r.2.2
  charged : r.2.2.charged c = (W.charged c || acts.charges)

structure Evaluated (W : World) (r : Bool × List Applied × World) : Prop where
  calm : r.1 = false
  attributed : Attributed r.2.1
  settled : Settled none W r.2.2

theorem Settled.andThen_stateOf {W₁ W₂ : World} (h : Settled (W₁.stateOf c) W W₁)
    (h' : Settled (W₂.stateOf c) W₁ W₂) (hg : W₁.Good c) : Settled (W₂.stateOf c) W W₂ := by
  refine h.trans h' ?_
  cases hst : W₁.stateOf c with
  | none => exact .inl rfl
  | some st => exact .inr (h'.stateOf_some hg hst).symm

/-- The dispatch of a builtin: no flag is changed, and the apply site knows whether this very
builtin has charged its result. -/
theorem dispatch_spec (hi : W.Inv) (hg : W.Good c) (hs : c.stateless = false) {callee : Acts}
    (hcallee : Acted callee c (beginDispatch ev c W).2.2 (callee.run c
      (beginDispatch ev c W).2.2)) :
    let begun := beginDispatch ev c W
    let called := callee.run c begun.2.2
    let ended := endDispatch begun.2.1 c begun.1 called.2.2
    ended.1 = callee.charges ∧ Settled none W ended.2 := by
  obtain ⟨held, W₁, hbegun, hset₁, hdown, hheld⟩ := beginDispatch_spec ev hi hg hs
  simp only [hbegun] at hcallee ⊢
  have hg₁ := hset₁.good hg
  have hg₂ := hcallee.settled.good hg₁
  obtain ⟨W₃, hended, hset₃, hback⟩ := endDispatch_spec (hcallee.settled.inv (hset₁.inv hi)) hg₂
    hs (W.charged c) fun st hst => hcallee.settled.stateOf_some hg₁ (hheld st hst)
  have hcharged := hcallee.charged
  rw [hdown, Bool.false_or] at hcharged
  rw [hended]
  refine ⟨hcharged, ?_⟩
  have hset := Settled.andThen_stateOf (Settled.andThen_stateOf hset₁ hcallee.settled hg₁) hset₃
    hg₂
  exact hset.close hi hg hback

theorem finished_spec {ev : Evaluator} {W₁ : World} (hstart : Made W c W₁) (hready : ev.Ready W₁)
    {r : Bool × List Applied × World} (hr : Evaluated W₁ r) :
    Settled none W (ev.finish r.2.2) :=
  hstart.settled.andThen (settled_finish hready hr.settled)

mutual

theorem Acts.run_spec : ∀ (acts : Acts) {c : Ctx} {W : World}, W.Inv → W.Good c →
    c.stateless = false → acts.Careful c W → Acted acts c W (acts.run c W)
  | .done outcome, c, W, _, _, _, hcareful => by
    refine ⟨hcareful, attributed_nil, .refl _ W, ?_⟩
    rw [Acts.charges, Bool.or_false]
    rfl
  | .chargeResult rest, c, W, hi, hg, hs, hcareful => by
    obtain ⟨hset, hup⟩ := chargeResult_spec hg hs
    have hrest := rest.run_spec (hset.inv hi) (hset.good hg) hs hcareful
    refine ⟨hrest.outcome, hrest.attributed, ?_, ?_⟩
    · exact Settled.andThen_stateOf hset hrest.settled (hset.good hg)
    · rw [Acts.run, hrest.charged, hup, Acts.charges, Bool.true_or, Bool.or_true]
  | .charge rest, c, W, hi, hg, hs, hcareful => by
    obtain ⟨st, W', hfound, hset, -⟩ := evalStateFrom_of_good hg hs
    rw [Acts.Careful, hfound] at hcareful
    rw [Acts.run, hfound]
    have hrest := rest.run_spec (hset.inv hi) (hset.good hg) hs hcareful
    refine ⟨hrest.outcome, hrest.attributed, hset.andThen hrest.settled, ?_⟩
    rw [hrest.charged, hset.charged hi hg, Acts.charges]
  | .enter entry run rest, c, W, hi, hg, hs, hcareful => by
    obtain ⟨hready, hrun, hafter⟩ := hcareful
    have hstart := start_spec entry hg
    have hinner := run.run_spec (hstart.settled.inv hi) hstart.good hrun
    have hset := finished_spec hstart hready hinner
    have hrest := rest.run_spec (hset.inv hi) (hset.good hg) hs hafter
    rw [Acts.run]
    simp only [hinner.calm, Bool.false_and, Bool.false_eq_true, if_false]
    refine ⟨hrest.outcome, hinner.attributed.append hrest.attributed,
      hset.andThen hrest.settled, ?_⟩
    rw [Acts.charges, ← hset.charged hi hg]
    exact hrest.charged

theorem Run.run_spec : ∀ (run : Run) {ev : Evaluator} {c : Ctx} {W : World}, W.Inv → W.Good c →
    run.Careful ev c W → Evaluated W (run.run ev c W)
  | .done, ev, c, W, _, _, _ => ⟨rfl, attributed_nil, .refl none W⟩
  | .charge rest, ev, c, W, hi, hg, hcareful => by
    obtain ⟨hsite, hs⟩ := siteCtx_spec ev hi hg
    obtain ⟨st, W', hfound, hset, -⟩ := evalStateFrom_of_good hsite.good hs
    rw [Run.Careful] at hcareful
    simp only [hfound] at hcareful
    rw [Run.run]
    simp only [hfound]
    have hset' := hsite.settled.andThen hset
    have hrest := rest.run_spec (hset'.inv hi) (hset'.good hg) hcareful
    exact ⟨hrest.calm, hrest.attributed, hset'.andThen hrest.settled⟩
  | .dispatch callee rest, ev, c, W, hi, hg, hcareful => by
    obtain ⟨hcallee, hafter⟩ := hcareful
    obtain ⟨hsite, hs⟩ := siteCtx_spec ev hi hg
    have hi' := hsite.settled.inv hi
    obtain ⟨held, W₁, hbegun, hset₁, -, -⟩ := beginDispatch_spec ev hi' hsite.good hs
    have hcalled : Acted callee (siteCtx ev c W).1
        (beginDispatch ev (siteCtx ev c W).1 (siteCtx ev c W).2).2.2
        (callee.run (siteCtx ev c W).1
          (beginDispatch ev (siteCtx ev c W).1 (siteCtx ev c W).2).2.2) := by
      refine callee.run_spec ?_ ?_ hs hcallee
      · rw [hbegun]
        exact hset₁.inv hi'
      · rw [hbegun]
        exact hset₁.good hsite.good
    obtain ⟨hflag, hset⟩ := dispatch_spec ev hi' hsite.good hs hcalled
    have hset' := hsite.settled.andThen hset
    have hrest := rest.run_spec (hset'.inv hi) (hset'.good hg) hafter
    rw [Run.run]
    simp only [hcalled.outcome, if_false, hflag]
    refine ⟨hrest.calm, hcalled.attributed.append ?_, hset'.andThen hrest.settled⟩
    exact (attributed_settle callee _).append hrest.attributed
  | .apply v run rest, ev, c, W, hi, hg, hcareful => by
    obtain ⟨hready, hrun, hafter⟩ := hcareful
    obtain ⟨hsite, -⟩ := siteCtx_spec ev hi hg
    have hstart := hsite.andThen (made_ensure hsite.good).1
    have hinner := run.run_spec (hstart.settled.inv hi) hstart.good hrun
    have hset := finished_spec hstart hready hinner
    have hrest := rest.run_spec (hset.inv hi) (hset.good hg) hafter
    rw [Run.run]
    simp only [hinner.calm, Bool.false_eq_true, if_false]
    exact ⟨hrest.calm, hinner.attributed.append hrest.attributed, hset.andThen hrest.settled⟩

end

theorem inv_init : World.init.Inv :=
  ⟨fun _ hw => absurd hw (Nat.not_lt_zero _), nofun⟩

theorem hostRun_attributed {host : List (Entry × Run)} (hi : W.Inv)
    (hcareful : HostCareful host W) : Attributed (hostRun host W).1 := by
  induction host generalizing W with
  | nil => exact attributed_nil
  | cons step host ih =>
    obtain ⟨entry, run⟩ := step
    obtain ⟨hready, hrun, hafter⟩ := hcareful
    have hstart := start_spec entry (W := W) (c := .plain 0 true) trivial
    have hinner := run.run_spec (hstart.settled.inv hi) hstart.good hrun
    have hset := finished_spec hstart hready hinner
    exact hinner.attributed.append (ih (hset.inv hi) hafter)

/-- In every run in which no builtin panics and no VM starts while a wrapper stamped for it is
live, an apply site charges the result of a builtin just when this very builtin has not. -/
theorem results_charged_once {host : List (Entry × Run)} (h : HostCareful host World.init) :
    ∀ a ∈ (hostRun host World.init).1, a.fallback = !a.charged :=
  hostRun_attributed inv_init h

/-- `Engine.Call` with a plain context, on a VM. -/
def callOn (v : Nat) : Entry := ⟨.bare 0 true, .vm v, false, true⟩

/-- A builtin applies a compiled function with its own context, on a VM. -/
def applyOn (v : Nat) : Entry := ⟨.own, .vm v, true, false⟩

/-- A builtin that applies a compiled function, which calls a builtin, and then charges its own
result. -/
def mapping (v : Nat) : Acts :=
  .enter (applyOn v) (.dispatch (.done .returned) .done) (.chargeResult (.done .returned))

theorem mapping_charged_once : (hostRun [(callOn 0, .dispatch (mapping 1) .done)] World.init).1 =
        [⟨false, true⟩, ⟨true, false⟩] ∧
      ∀ a ∈ (hostRun [(callOn 0, .dispatch (mapping 1) .done)] World.init).1,
        a.fallback = !a.charged := by
  refine ⟨by decide, results_charged_once ⟨?_, ⟨⟨?_, ⟨?_, trivial⟩, ?_⟩, trivial⟩, trivial⟩⟩
  · change World.Idle _ 0
    decide
  · change World.Idle _ 1
    decide
  · change Outcome.returned ≠ .panicked
    decide
  · change Outcome.returned ≠ .panicked
    decide

/-- The second call runs on the VM that the first one used below it, and the other way round.
The wrapper it rearms goes stale when the VM below ends its run, so the result that the builtin
has charged is charged again. -/
theorem charged_result_charged_again :
    ⟨true, true⟩ ∈ (hostRun [(callOn 0, .dispatch (mapping 1) .done),
      (callOn 1, .dispatch (mapping 0) .done)] World.init).1 := by
  decide

end ResultCharges

end Runtime

end Lispico
