import Lispico.Reader.Capacities
import Lispico.Reader.Settling

/-!
# What a read charges and the pool

A read charges the same whatever capacity its pooled scratch has, up to where it releases the
scratch and clears the used slots as far as the capacity goes. So the charges agree just when
the number of cleared slots does, or the budget refuses before.
-/

namespace Lispico

namespace Reader

open Lispico.Core Meter Lib Guarded

/-- The capacity of a buffer of capacity `c` after appends up to `n` slots. -/
def grownCap (grow : Nat → Nat → Nat) (c : Nat) : Nat → Nat
  | 0 => c
  | n + 1 => capAfter grow (grownCap grow c n) (n + 1)

variable {grow : Nat → Nat → Nat} {b : Budget} (su : Setup) (s : Scratch)

theorem le_grownCap (hgrow : ∀ cap len, len ≤ grow cap len) (c n : Nat) :
    n ≤ grownCap grow c n := by
  cases n with
  | zero => exact Nat.zero_le _
  | succ n =>
    unfold grownCap capAfter
    split_ifs with h
    · exact h
    · exact hgrow _ _

theorem grownCap_stack (hgrow : ∀ cap len, len ≤ grow cap len)
    (c : Nat) {len high : Nat} (hlen : len ≤ high) :
    capAfter grow (grownCap grow c high) (len + 1) = grownCap grow c (max high (len + 1)) := by
  rcases Nat.lt_or_ge len high with hlt | hge
  · have hle := le_grownCap hgrow c high
    rw [max_eq_left hlt]
    exact if_pos (by omega)
  · obtain rfl : len = high := by omega
    rw [max_eq_right (Nat.le_succ len)]
    rfl

/-- Two scratches that were taken from the pool as `p` and `p'`. -/
def pooledRel {grow : Nat → Nat → Nat} (hgrow : ∀ cap len, len ≤ grow cap len)
    (p p' : Pooled) : ReadRel grow where
  source := Eq
  rest := fun h => by rw [h]
  nodes :=
    { rel := fun c c' len high => len ≤ high ∧ c = grownCap grow p.nodesCap high ∧
        c' = grownCap grow p'.nodesCap high
      stack := by
        rintro c c' len high ⟨hlen, rfl, rfl⟩
        exact ⟨le_max_right _ _, grownCap_stack hgrow _ hlen, grownCap_stack hgrow _ hlen⟩
      truncate := fun h hn => ⟨hn.trans h.1, h.2⟩ }
  tokens := fun c c' planned planned' len => planned' = planned ∧
    c = grownCap grow (max p.tokensCap planned) len ∧
    c' = grownCap grow (max p'.tokensCap planned) len
  append := by
    rintro c c' planned planned' len ⟨hplanned, rfl, rfl⟩
    exact ⟨hplanned, rfl, rfl⟩

abbrev Anyhow (_ : Option Budget) : Prop := True

theorem Anyhow.of_some (b b' : Budget) (_ : Anyhow (some b)) : Anyhow (some b') := trivial

section

variable {su : Setup} (hgrow : ∀ cap len, len ≤ su.grow cap len) (p p' : Pooled) {s s' : Scratch}
  (src : Text)

structure Unsized (s s' : Scratch) : Prop where
  same : SameRead (pooledRel hgrow p p') s s'
  tokens : s.tokens = []
  cap : s.tokensCap = p.tokensCap
  cap' : s'.tokensCap = p'.tokensCap

theorem reset_unsized : Unsized hgrow p p' (p.reset su src) (p'.reset su src) := by
  refine ⟨⟨rfl, .mk ⟨le_rfl, rfl, rfl⟩, rfl, rfl, ?_, ?_⟩, rfl, rfl, rfl⟩
  · change p.tokensCap = max p.tokensCap 0
    rw [Nat.max_zero]
  · change p'.tokensCap = max p'.tokensCap 0
    rw [Nat.max_zero]

theorem Unsized.sized (h : Unsized hgrow p p' s s') (n : Nat) :
    SameRead (pooledRel hgrow p p') (s.sized n) (s'.sized n) := by
  refine ⟨h.same.source, h.same.parser, h.same.tokens, rfl, ?_, ?_⟩
  · change max s.tokensCap n = grownCap su.grow (max p.tokensCap n) s.tokens.length
    rw [h.tokens, h.cap]
    rfl
  · change max s'.tokensCap n = grownCap su.grow (max p'.tokensCap n) s.tokens.length
    rw [h.tokens, h.cap']
    rfl

theorem countTokens_alike :
    Matches Anyhow (Unsized hgrow p p') Eq (scanning countTokens) (scanning countTokens) :=
  .zoom (.refl (fun _ => trivial) countTokens) (fun _ _ h => h.same.source)
    fun _ _ _ _ h hr =>
      ⟨⟨hr, h.same.parser, h.same.tokens, h.same.caps⟩, h.tokens, h.cap, h.cap'⟩

theorem planTokens_paired (h : Unsized hgrow p p' s s') (b : Option Budget) :
    Paired Anyhow (SameRead (pooledRel hgrow p p')) Eq (planTokens s b) (planTokens s' b) := by
  refine (countTokens_alike hgrow p p' s s' b trivial h).bind (fun _ _ h => h.same) ?_
  rintro n _ s s' b rfl hs -
  have hpayload : s'.source.copiedPayload = s.source.copiedPayload := by rw [hs.same.source]
  have hreserve := Matches.spend (R := Unsized hgrow p p') Anyhow.of_some
    (Budget.reservePlan n s.source.copiedPayload) s s' b trivial hs
  rw [bind_apply, bind_apply]
  simp only [look_apply, hpayload]
  exact hreserve.bind (fun _ _ h => h.same) fun _ _ s s' b _ hs hg =>
    .ok rfl (hs.sized hgrow p p' n) hg

omit hgrow p p' in
theorem tokenizeInto_metered (s : Scratch) (b : Budget) :
    (do tokenizeInto su.grow; readForms su : ReadM (List Datum)) s (some b) =
      (planTokens >>= fun _ => do scanAll su.grow; readForms su) s (some b) := by
  simp only [tokenizeInto, bind_apply, inspect_apply, Option.isSome_some, if_true]
  rcases planTokens s (some b) with ⟨_ | _, _, _⟩ <;> rfl

theorem tokenizeAndParse_paired (h : Unsized hgrow p p' s s') (b : Option Budget) :
    Paired Anyhow (SameRead (pooledRel hgrow p p')) Eq (tokenizeAndParse su s b)
      (tokenizeAndParse su s' b) := by
  refine Matches.settled_paired Anyhow.of_some _ ?_
  have hscan : Matches Anyhow (pooledRel hgrow p p').source Eq nextToken nextToken :=
    Matches.refl (fun _ => trivial) nextToken
  have hkeep : ReadsAlike Anyhow (pooledRel hgrow p p') (do scanAll su.grow; readForms su) :=
    (scanAll_alike hscan).bind fun _ _ _ => readForms_alike Anyhow.of_some
  cases b with
  | none => exact hkeep s s' none trivial h.same
  | some b =>
    rw [tokenizeInto_metered, tokenizeInto_metered]
    exact (planTokens_paired hgrow p p' h (some b)).bind (fun _ _ h => h)
      fun _ _ s s' b _ hs hg => hkeep s s' b hg hs

theorem guardedRead_paired (b : Budget) :
    Paired Anyhow (SameRead (pooledRel hgrow p p')) Eq (guardedRead su (p.reset su src) (some b))
      (guardedRead su (p'.reset su src) (some b)) := by
  have hfirst := Matches.spend (R := Unsized hgrow p p') Anyhow.of_some Budget.checkpoint
    (p.reset su src) (p'.reset su src) (some b) trivial (reset_unsized hgrow p p' src)
  refine hfirst.bind (fun _ _ h => h.same) fun _ _ s s' b _ hs _ => ?_
  refine (tokenizeAndParse_paired hgrow p p' hs b).bind (fun _ _ h => h) ?_
  rintro forms _ s s' b rfl hs hg
  have hend : ReadsAlike Anyhow (pooledRel hgrow p p') (do
      spend Budget.checkpoint
      let stats ← look fun s => s.parser.stats
      ret (forms, stats)) := by
    refine (Matches.spend Anyhow.of_some _).bind fun _ _ _ => stats_alike.bindEq fun _ => ?_
    exact Matches.ret rfl
  exact hend s s' b hg hs

end

def Settled (b : Option Budget) : Prop :=
  ∀ b', b = some b' → b'.failed = none → b'.pending = 0

theorem checkpoint_settled {S : Type} (s : S) (b : Option Budget) :
    Settled (spend Budget.checkpoint s b : Except GoErr Unit × S × Option Budget).2.2 := by
  cases b with
  | none => exact fun _ h => by cases h
  | some b =>
    intro b' hb' hsound
    rw [spend_budget] at hb'
    cases hb'
    cases hfailed : b.failed with
    | some err =>
      rw [Budget.checkpoint_of_failed hfailed, hfailed] at hsound
      cases hsound
    | none =>
      have hcheck := Budget.checkpoint_checked hfailed
      generalize b.checkpoint = out at hcheck hsound
      cases hcheck with
      | passed _ hpending _ => exact hpending
      | refused hne _ => exact absurd hsound hne

theorem checkpoint_bind_settled {S α : Type} {k : Unit → Guarded Budget S GoErr α} (s : S)
    (b : Option Budget) (hk : ∀ s b, (k () s b).2.2 = b) :
    Settled ((spend Budget.checkpoint >>= k) s b).2.2 := by
  have hcheck := checkpoint_settled s b
  rw [bind_apply]
  generalize spend Budget.checkpoint s b = out at hcheck
  rcases out with ⟨err | _, s', b'⟩
  · exact hcheck
  · dsimp only at hcheck ⊢
    rw [hk]
    exact hcheck

theorem read_settled (b : Option Budget) : Settled (read su s b).2.2 := by
  unfold read tokenizeAndParse
  rw [bind_apply]
  unfold settled
  rcases (do tokenizeInto su.grow; readForms su : ReadM (List Datum)) s b with
    ⟨err | forms, s', b'⟩
  · have hfail := checkpoint_bind_settled
      (k := fun _ => (fail err : Guarded Budget Scratch GoErr (List Datum))) s' b' fun _ _ => rfl
    dsimp only
    generalize (spend Budget.checkpoint >>= fun _ => fail err :
      Guarded Budget Scratch GoErr (List Datum)) s' b' = out at hfail
    rcases out with ⟨err' | forms, s₂, b₂⟩
    · exact hfail
    · exact checkpoint_bind_settled _ _ fun _ _ => rfl
  · exact checkpoint_bind_settled _ _ fun _ _ => rfl

theorem guardedRead_settled (b : Option Budget) : Settled (guardedRead su s b).2.2 := by
  have hcheck := checkpoint_settled s b
  unfold guardedRead
  rw [bind_apply]
  generalize spend Budget.checkpoint s b = out at hcheck
  rcases out with ⟨err | _, s', b'⟩
  · exact hcheck
  · exact read_settled su s' b'

def billOf : Option Budget → Resource → Nat
  | none => fun _ => 0
  | some b => b.bill

def Outcome.bill (o : Outcome) : Resource → Nat := billOf o.budget

/-- The slots that `release` clears. -/
def Scratch.cleared (ceiling : Nat) (s : Scratch) : Nat :=
  if s.retained > ceiling then 0 else s.tokens.length + s.nodeSlots

theorem clear_budget (hfailed : b.failed = none) (hpending : b.pending = 0) :
    (clear s (some b)).2.2 = some (Budget.drain (s.tokens.length + s.nodeSlots) b).2 := by
  have hpos : 0 < readerClearBatch := Nat.zero_lt_succ _
  have hb : b.Sound := ⟨hfailed, by rw [hpending]; exact Nat.zero_lt_succ _⟩
  have hsound := Budget.settleAll_sound s.tokens.length hfailed
  have hadd := Budget.settleAll_add s.tokens.length s.nodeSlots hfailed
  unfold Budget.drain
  simp only [clear, clearSlots, bind_apply, look_apply, id]
  rw [workBatches_eq hpos _ le_rfl _ hb, hpending, Nat.zero_add, spend_some]
  unfold Budget.followed
  rw [← hadd]
  unfold Budget.followed
  rcases hall : Budget.settleAll s.tokens.length b with ⟨_ | err, b₁⟩
  · rw [hall] at hsound
    have hb₁ := (hsound rfl).1
    dsimp only
    rw [workBatches_eq hpos _ le_rfl _ hb₁, Budget.work_eq _ hb₁, spend_some]
    rcases Budget.settleAll (b₁.pending + s.nodeSlots) b₁ with ⟨_ | err, b₂⟩
    · exact spend_budget Budget.checkpoint s b₂
    · rfl
  · rfl

variable (ceiling : Nat) (s : Scratch)

theorem release_bill (hfailed : b.failed = none) (hpending : b.pending = 0) :
    billOf (release ceiling s (some b)).1 = (Budget.drain (s.cleared ceiling) b).2.bill := by
  unfold release Scratch.cleared
  rw [Option.bind_some, hfailed, Option.isSome_none]
  by_cases hretained : s.retained > ceiling
  · rw [if_pos (.inr hretained), if_pos hretained, Budget.drain_zero_bill hfailed]
    rfl
  · have hclear := clear_budget s hfailed hpending
    rw [if_neg (by simp [hretained]), if_neg hretained]
    generalize clear s (some b) = out at hclear
    rcases out with ⟨err | _, s', b'⟩
    · dsimp only at hclear ⊢
      rw [hclear]
      rfl
    · dsimp only at hclear ⊢
      rw [hclear]
      rfl

theorem release_of_failed (h : b.failed ≠ none) : (release ceiling s (some b)).1 = some b := by
  unfold release
  rw [if_pos]
  left
  rw [Option.bind_some]
  exact Option.isSome_iff_ne_none.mpr h

/-- The capacities of a scratch taken from the pool as `pooled`, when the read has left it as
`s`. -/
def Pooled.grown (grow : Nat → Nat → Nat) (pooled : Pooled) (s : Scratch) : Pooled where
  tokensCap := grownCap grow (max pooled.tokensCap s.planned) s.tokens.length
  nodesCap := grownCap grow pooled.nodesCap s.parser.high

/-- The slots that `release` clears of a scratch taken from the pool as `pooled`. -/
def Pooled.cleared (grow : Nat → Nat → Nat) (ceiling : Nat) (pooled : Pooled) (s : Scratch) :
    Nat :=
  let kept := pooled.grown grow s
  if kept.tokensCap * readerTokenUnitBytes + valueSlotsBytes kept.nodesCap > ceiling then 0
  else s.tokens.length + min s.parser.nodePlan.capacity kept.nodesCap

/-- The budget has not failed and the evaluation admits `k` more intervals of work. -/
def Endures (k : Nat) (b : Option Budget) : Prop :=
  ∃ b', b = some b' ∧ b'.failed = none ∧ (b'.settleIntervals k).1 = none

/-- When the pool does not tell in the charges of a read: two scratches come to the same
number of slots to clear, or the work on the slots that both clear is refused. -/
def ClearsAlike (su : Setup) (src : Text) (b : Budget) (p p' : Pooled) : Prop :=
  let ended := guardedRead su (p.reset su src) (some b)
  let n := p.cleared su.grow (Budget.allocCeiling (some b)) ended.2.1
  let n' := p'.cleared su.grow (Budget.allocCeiling (some b)) ended.2.1
  n = n' ∨ ¬Endures (min n n' / checkInterval) ended.2.2

section

variable {su : Setup} {hgrow : ∀ cap len, len ≤ su.grow cap len} {p p' : Pooled} {s s' : Scratch}

theorem SameRead.cleared (h : SameRead (pooledRel hgrow p p') s s') (ceiling : Nat) :
    s.cleared ceiling = p.cleared su.grow ceiling s ∧
      s'.cleared ceiling = p'.cleared su.grow ceiling s := by
  obtain ⟨-, hcap, hcap'⟩ := h.caps
  have htokens := h.tokens
  have hparser := h.parser
  unfold Scratch.cleared Pooled.cleared Scratch.retained Scratch.nodeSlots Pooled.grown
  generalize s'.parser = q at hparser
  cases hparser with
  | mk hnodes =>
    obtain ⟨-, hnodesCap, hnodesCap'⟩ := hnodes
    rw [htokens, hcap, hcap', hnodesCap, hnodesCap']
    exact ⟨rfl, rfl⟩

end

theorem release_bill_eq_iff (s s' : Scratch) {b : Option Budget} (hb : Settled b) :
    billOf (release ceiling s b).1 = billOf (release ceiling s' b).1 ↔
      s.cleared ceiling = s'.cleared ceiling ∨
        ¬Endures (min (s.cleared ceiling) (s'.cleared ceiling) / checkInterval) b := by
  cases b with
  | none =>
    have hnone (t : Scratch) : billOf (release ceiling t none).1 = fun _ => 0 := by
      have hbatches (batch rounds n : Nat) (t : Scratch) :
          workBatches batch rounds n t none = (.ok (), t, none) := by
        induction rounds generalizing n with
        | zero => rfl
        | succ rounds ih =>
          unfold workBatches
          split_ifs
          · rfl
          · rw [bind_apply, spend_none]
            exact ih _
      unfold release
      split_ifs
      · rfl
      · simp only [clear, clearSlots, bind_apply, look_apply, hbatches, spend_none]
        rfl
    rw [hnone, hnone]
    refine iff_of_true rfl (.inr ?_)
    rintro ⟨b', h, -⟩
    cases h
  | some b =>
    by_cases hfailed : b.failed = none
    · have hpending := hb b rfl hfailed
      rw [release_bill ceiling s hfailed hpending, release_bill ceiling s' hfailed hpending]
      generalize s.cleared ceiling = n, s'.cleared ceiling = n'
      constructor
      · intro hbill
        by_contra hcontra
        obtain ⟨hne, hendures⟩ := not_or.mp hcontra
        obtain ⟨b', ⟨⟩, -, hok⟩ := not_not.mp hendures
        have hreductions := congrFun hbill .reductions
        rcases Nat.lt_or_gt_of_ne hne with hlt | hgt
        · rw [min_eq_left hlt.le] at hok
          exact absurd hreductions (Nat.ne_of_lt (Budget.drain_bill_lt hlt hfailed hok))
        · rw [min_eq_right hgt.le] at hok
          exact absurd hreductions (Nat.ne_of_gt (Budget.drain_bill_lt hgt hfailed hok))
      · rintro (rfl | hendures)
        · rfl
        · -- The refusal comes before the slots that only one of them clears.
          have hne : (b.settleIntervals (min n n' / checkInterval)).1 ≠ none :=
            fun hok => hendures ⟨b, rfl, hfailed, hok⟩
          rw [Budget.drain_of_refused (Nat.div_le_div_right (min_le_left _ _)) hne,
            Budget.drain_of_refused (Nat.div_le_div_right (min_le_right _ _)) hne]
    · rw [release_of_failed ceiling s hfailed, release_of_failed ceiling s' hfailed]
      refine iff_of_true rfl (.inr ?_)
      rintro ⟨b', ⟨⟩, hsound, -⟩
      exact hfailed hsound

/-- Two reads of one text under one budget that differ in the scratch they take from the pool
end alike, and they charge alike just when their releases clear alike. -/
theorem readWithContextStats_pool_iff (su : Setup) (hgrow : ∀ cap len, len ≤ su.grow cap len)
    (src : Text) (b : Budget) (p p' : Pooled) :
    ((readWithContextStats su src p b).result = (readWithContextStats su src p' b).result ∧
        (readWithContextStats su src p b).bill = (readWithContextStats su src p' b).bill) ↔
      ClearsAlike su src b p p' := by
  have hpair := guardedRead_paired hgrow p p' src b
  have hcleared := hpair.state.cleared (Budget.allocCeiling (some b))
  have hbill := release_bill_eq_iff (Budget.allocCeiling (some b))
    (guardedRead su (p.reset su src) (some b)).2.1
    (guardedRead su (p'.reset su src) (some b)).2.1
    (guardedRead_settled su (p.reset su src) (some b))
  rw [hcleared.1, hcleared.2] at hbill
  unfold ClearsAlike
  rw [← hbill]
  have hresult : (readWithContextStats su src p b).result =
      (readWithContextStats su src p' b).result := hpair.result
  have hbudget : (readWithContextStats su src p' b).bill =
      billOf (release (Budget.allocCeiling (some b))
        (guardedRead su (p'.reset su src) (some b)).2.1
        (guardedRead su (p.reset su src) (some b)).2.2).1 := by
    rw [hpair.budget]
    rfl
  rw [hbudget]
  exact ⟨fun h => h.2, fun h => ⟨hresult, h⟩⟩

theorem readWithContextStats_pool_iff_list :
    let conv : Strconv := ⟨fun _ => none, fun _ => [], fun _ => [], fun _ => List.not_mem_nil⟩
    let su : Setup := ⟨conv, defaultReaderFlags, readerDepth 0, fun _ len => len⟩
    let ctx : Context := ⟨fun _ _ _ => (fun _ => 0, none), fun _ => none⟩
    let b := .init ctx (some (.fresh ⟨fun _ => 100000, fun _ => by decide⟩))
    let src := text "(a 1)"
    (∀ cap len, len ≤ su.grow cap len) ∧ (((readWithContextStats su src ⟨0, 0⟩ b).result =
            (readWithContextStats su src ⟨64, 16⟩ b).result ∧
          (readWithContextStats su src ⟨0, 0⟩ b).bill =
            (readWithContextStats su src ⟨64, 16⟩ b).bill) ↔
        ClearsAlike su src b ⟨0, 0⟩ ⟨64, 16⟩) := by
  intro conv su ctx b src
  have hgrow : ∀ cap len, len ≤ su.grow cap len := fun _ _ => le_rfl
  exact ⟨hgrow, readWithContextStats_pool_iff su hgrow src b ⟨0, 0⟩ ⟨64, 16⟩⟩

/-- A scratch that an earlier read has grown past the limit of this one is dropped without the
charge for clearing it, which the same read pays on a fresh scratch. -/
theorem empty_read_charges_by_pool :
    let conv : Strconv := ⟨fun _ => none, fun _ => [], fun _ => [], fun _ => List.not_mem_nil⟩
    let su : Setup := ⟨conv, defaultReaderFlags, readerDepth 0, fun cap len => max (2 * cap) len⟩
    let ctx : Context := ⟨fun _ _ _ => (fun _ => 0, none), fun _ => none⟩
    let b := .init ctx (some (.fresh ⟨fun _ => 100000, fun _ => by decide⟩))
    (∀ cap len, len ≤ su.grow cap len) ∧
      (readWithContextStats su [] ⟨0, 0⟩ b).bill .reductions = 1 ∧
      (readWithContextStats su [] ⟨4000, 0⟩ b).bill .reductions = 0 := by
  intro conv su ctx b
  exact ⟨fun _ _ => le_max_right _ _, by decide +kernel, by decide +kernel⟩

end Reader

end Lispico
