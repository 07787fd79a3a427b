import Lispico.Reader.Capacities
import Lispico.Reader.CountPass
import Lispico.Reader.ParseFunded

/-!
# Guarded reads

A guarded read counts the tokens, reserves the storage for them and goes on as the read
without a budget does. Given room for a cost that is quadratic in the length of the source,
it returns the same forms and statistics, or the same error.
-/

namespace Lispico

namespace Reader

open Lispico.Core Meter Lib Guarded

/-- Room that suffices to read a source of `n` bytes. -/
def readingCost (n : Nat) : Nat := 37 * n + 32 + tokenCredit (n + 1) * (n + 1)

variable (grow : Nat → Nat → Nat)

theorem tokenRounds_paid (n rounds d : Nat) (s : Scratch) (hn : s.source.rest.length ≤ n) :
    Paid (d + s.source.rest.length + s.source.rest.length) (tokenRounds grow rounds) s
      (fun _ s' => s'.parser = s.parser ∧ s'.tokens.length ≤ s.tokens.length + rounds ∧
        ∀ tok ∈ s'.tokens, tok ∈ s.tokens ∨ tok.Within n)
      (fun _ _ => d) := by
  induction rounds generalizing s with
  | zero => exact .ret ⟨rfl, le_rfl, fun _ h => .inl h⟩ (by omega)
  | succ rounds ih =>
    have htoken : Paid (d + s.source.rest.length + s.source.rest.length) (scanning nextToken) s
        (fun tok s' => s'.parser = s.parser ∧ s'.tokens = s.tokens ∧
          s'.source.rest.length ≤ n ∧ tok.Within n)
        (fun _ s' => d + s'.source.rest.length + s'.source.rest.length) :=
      Funded.zoom (nextToken_scans s.source d) fun tok r h =>
        ⟨⟨rfl, rfl, h.1.length_le.trans hn, h.2.trans hn⟩, le_rfl⟩
    refine htoken.bind fun tok s₁ h₁ => .update_bind ?_
    obtain ⟨hparser, htokens, hrest, htok⟩ := h₁
    have happend : (s₁.append grow tok).tokens = s.tokens ++ [tok] := by
      change s₁.tokens ++ [tok] = _
      rw [htokens]
    have hlen : (s₁.append grow tok).tokens.length = s.tokens.length + 1 := by
      rw [happend, List.length_append, List.length_singleton]
    have hmem (t : Token) (ht : t ∈ (s₁.append grow tok).tokens) : t ∈ s.tokens ∨ t.Within n := by
      rw [happend, List.mem_append, List.mem_singleton] at ht
      rcases ht with ht | rfl
      · exact .inl ht
      · exact .inr htok
    refine .ite (fun _ => .ret ⟨hparser, by omega, hmem⟩ (by omega)) fun _ => ?_
    refine (ih (s₁.append grow tok) hrest).weaken le_rfl fun _ s' h => ?_
    refine ⟨⟨h.1.trans hparser, by omega, fun t ht => ?_⟩, le_rfl⟩
    exact (h.2.2 t ht).elim (hmem t) .inr

variable {n : Nat} {s : Scratch} (su : Setup)

theorem formRounds_paid (rounds d : Nat) {plan : GrowthPlan} {forms : List Datum}
    (hs : Provided n s.parser) (hplan : plan.unit = meterValueSlotBytes)
    (hforms : forms.length + s.parser.rest.length ≤ n) :
    Paid (d + tokenCredit n * s.parser.rest.length) (formRounds su rounds plan forms) s
      (fun _ _ => True) (fun _ _ => d) := by
  induction rounds generalizing plan forms s with
  | zero => exact Funded.ret trivial (Nat.le_add_right _ _)
  | succ rounds ih =>
    refine Funded.look_bind (Funded.ite (fun _ => ?_) fun _ =>
      Funded.ret trivial (Nat.le_add_right _ _))
    have hform : Paid (d + tokenCredit n * s.parser.rest.length) (parsing (parse su)) s
        (fun _ s' => Later s.parser s'.parser ∧ s'.parser.rest.length < s.parser.rest.length)
        (fun _ s' => d + tokenCredit n * s'.parser.rest.length + formCredit n) :=
      Funded.zoom (parse_paid su d hs) fun _ _ h => ⟨⟨h.1, h.2.1⟩, le_rfl⟩
    refine hform.bind fun form s₁ h₁ => ?_
    have hadmit : Paid (d + tokenCredit n * s₁.parser.rest.length + formCredit n)
        (GrowthPlan.admitGrowth (forms.length + 1)) plan
        (fun _ g => g.unit = meterValueSlotBytes)
        (fun _ _ => d + tokenCredit n * s₁.parser.rest.length) := by
      refine ((admit_paid (forms.length + 1) plan).frame
        (d + tokenCredit n * s₁.parser.rest.length)).weaken ?_
        fun _ _ h => ⟨h.trans hplan, Nat.le_add_right _ _⟩
      have := h₁.2
      rw [hplan]
      unfold meterValueSlotBytes formCredit
      omega
    refine hadmit.apart.bind fun grown s₂ h₂ => ?_
    obtain ⟨rfl, hunit⟩ := h₂
    refine ih (hs.later h₁.1) hunit ?_
    rw [List.length_append, List.length_singleton]
    have := h₁.2
    omega

structure Fresh (s : Scratch) : Prop where
  keeps : s.source.countOnly = false
  tokens : s.tokens = []
  nodes : s.parser.nodes = []
  unit : s.parser.nodePlan.unit = meterValueSlotBytes

theorem reset_fresh (pooled : Pooled) (su : Setup) (src : Text) : Fresh (pooled.reset su src) :=
  ⟨rfl, rfl, rfl, rfl⟩

/-- What follows the counting pass, or the whole of a read without a budget. -/
def keepAndParse (su : Setup) : ReadM (List Datum × ReaderStats) := do
  let forms ← settled Budget.checkpoint do
    scanAll su.grow
    readForms su
  spend Budget.checkpoint
  let stats ← look fun s => s.parser.stats
  ret (forms, stats)

theorem keepAndParse_paid (hs : Fresh s) (hn : s.source.rest.length ≤ n) :
    Paid (2 * n + tokenCredit (n + 1) * (n + 1)) (keepAndParse su) s (fun _ _ => True)
      (fun _ _ => 0) := by
  have hbody : Paid (2 * n + tokenCredit (n + 1) * (n + 1))
      (do scanAll su.grow; readForms su) s (fun _ _ => True) (fun _ _ => 0) := by
    have hscan : Paid (2 * n + tokenCredit (n + 1) * (n + 1)) (scanAll su.grow) s
        (fun _ s' => s'.parser = s.parser ∧ s'.tokens.length ≤ n + 1 ∧
          ∀ tok ∈ s'.tokens, tok.Within (n + 1))
        (fun _ _ => tokenCredit (n + 1) * (n + 1)) := by
      refine .look_bind ?_
      refine (tokenRounds_paid su.grow n _ (tokenCredit (n + 1) * (n + 1)) s hn).weaken
        (by omega) fun _ s' h => ?_
      rw [hs.tokens, List.length_nil] at h
      refine ⟨⟨h.1, by omega, fun tok htok => ?_⟩, le_rfl⟩
      rcases h.2.2 tok htok with h | h
      · cases h
      · exact h.trans (Nat.le_succ n)
    refine hscan.bind fun _ s₁ h₁ => .update_bind (.look_bind ?_)
    obtain ⟨hparser, hlen, hwithin⟩ := h₁
    have hprovided : Provided (n + 1) s₁.toParser.parser := by
      refine ⟨hwithin, ?_, ?_⟩
      · change s₁.parser.nodes.length + s₁.tokens.length ≤ _
        rw [hparser, hs.nodes, List.length_nil]
        omega
      · change s₁.parser.nodePlan.unit = _
        rw [hparser, hs.unit]
    refine (formRounds_paid su _ 0 hprovided rfl ?_).of_le ?_
    · change 0 + s₁.tokens.length ≤ _
      omega
    · rw [Nat.zero_add]
      exact Nat.mul_le_mul_left _ hlen
  refine (Funded.settled (fun _ _ hb => Budget.checkpoint_of_enough hb) hbody).bind
    fun forms s' _ => checkpoint_bind (.look_bind (.ret trivial le_rfl))

/-- Reads without a budget that differ in what was counted, planned or left in the pool. -/
def unmeteredRel (grow : Nat → Nat → Nat) : ReadRel grow where
  source := Parallel true
  rest := fun h => h.rest
  nodes := ⟨fun _ _ _ _ => True, fun _ => trivial, fun _ _ => trivial⟩
  tokens := fun _ _ _ _ _ => True
  append := fun _ => trivial

theorem keepAndParse_alike : ReadsAlike Unmetered (unmeteredRel su.grow) (keepAndParse su) := by
  have hscan : Matches Unmetered (Parallel true) Eq nextToken nextToken := by
    intro r r' b hb hr
    have h := nextToken_parallels r r' b hb hr
    generalize nextToken r b = x, nextToken r' b = x' at h
    cases h with
    | ok htok hr hb => exact .ok (htok.eq rfl).symm hr hb
    | error hr hb => exact .error hr hb
  have hbody : ReadsAlike Unmetered (unmeteredRel su.grow) (do scanAll su.grow; readForms su) :=
    (scanAll_alike hscan).bind fun _ _ _ => readForms_alike Unmetered.of_some
  refine (Matches.settled Unmetered.of_some _ hbody).bindEq fun forms => ?_
  refine (Matches.spend Unmetered.of_some _).bind fun _ _ _ => stats_alike.bindEq fun _ => ?_
  exact .ret rfl

def Scratch.afterCount (s : Scratch) (n payload : Nat) : Scratch :=
  (s.withSource { s.source with countOnly := false, copiedPayload := payload }).sized n

theorem afterCount_fresh (hs : Fresh s) (n payload : Nat) :
    Fresh (s.afterCount n payload) := ⟨rfl, hs.tokens, hs.nodes, hs.unit⟩

variable {s' : Scratch} {su : Setup}

theorem afterCount_alike {grow : Nat → Nat → Nat} {src : Text} {pooled pooled' : Pooled}
    (n payload : Nat) (hs : s = pooled.reset su src) (hs' : s' = pooled'.reset su src) :
    SameRead (unmeteredRel grow) (s.afterCount n payload) s' := by
  subst hs hs'
  exact ⟨⟨rfl, rfl, rfl, rfl, fun _ => rfl⟩, .mk trivial, rfl, trivial⟩

def Source.counting (r : Source) : Source := { r with countOnly := true, copiedPayload := 0 }

variable {e : GoErr} {b b' : Option Budget} {r' : Source}

theorem planTokens_of_error
    (h : countRounds (Budget.allocHeadroom b) (s.source.rest.length + 1) 0 s.source.counting b =
      (.error e, r', b')) :
    ∃ s', planTokens s b = (.error e, s', b') := by
  refine ⟨s.withSource { r' with
    rest := s.source.rest
    line := s.source.line
    col := s.source.col
    countOnly := false }, ?_⟩
  unfold Source.counting at h
  simp only [planTokens, scanning, countTokens, bind_apply, zoom, within, inspect_apply,
    look_apply]
  rw [h]

theorem planTokens_of_ok {k : Nat}
    (h : countRounds (Budget.allocHeadroom b) (s.source.rest.length + 1) 0 s.source.counting b =
      (.ok k, r', b'))
    (hflags : r'.flags = s.source.flags) :
    planTokens s b =
      (spend (Budget.reservePlan k r'.copiedPayload) >>= fun _ => update (Scratch.sized k))
        (s.withSource { s.source with countOnly := false, copiedPayload := r'.copiedPayload })
        b' := by
  unfold Source.counting at h
  simp only [planTokens, scanning, countTokens, bind_apply, zoom, within, inspect_apply,
    look_apply]
  rw [h]
  dsimp only
  rw [hflags]
  rfl

variable {b : Budget}

theorem Budget.Enough.headroom {c : Nat} (hb : b.Enough c) :
    c ≤ Budget.allocHeadroom (some b) ∧ Budget.allocHeadroom (some b) ≤ maxInt64 := by
  unfold Budget.allocHeadroom
  rw [Option.bind_some]
  cases hmeter : b.meter with
  | none => exact ⟨hb.small, le_rfl⟩
  | some st => exact ⟨(hb.backed st hmeter).headroom, st.headroom_le⟩

/-- With room in the budget the counting pass reserves the storage, or it ends in the error of
the pass that keeps the tokens. -/
theorem planTokens_enough (s : Scratch) {rest : Nat}
    (hn : s.source.rest.length ≤ n) (hb : b.Enough (35 * n + 32 + rest)) :
    (∃ e e' s' s'' b', planTokens s (some b) = (.error e', s', some b') ∧
        scanAll grow s none = (.error e, s'', none) ∧ SameError e' e ∧ b'.Enough rest) ∨
      ∃ k payload b', planTokens s (some b) = (.ok (), s.afterCount k payload, some b') ∧
        b'.Enough rest := by
  obtain ⟨hroom, hsmall⟩ := hb.headroom
  have hlen : s.source.counting.rest.length = s.source.rest.length := rfl
  have hzero : s.source.counting.copiedPayload = 0 := rfl
  have hcount := countRounds_paid hsmall (s.source.rest.length + 1) 0 s.source.counting
    (33 * n + 32) (by unfold readerTokenUnitBytes; omega)
  have hpair := countRounds_keeps (Budget.allocHeadroom (some b)) grow
    (s.source.rest.length + 1) 0 (r := s.source.counting) (s := s)
    ⟨rfl, rfl, rfl, rfl, fun h => by cases h⟩
  cases hcount with
  | error e r' hfree hpaid =>
    left
    obtain ⟨e', r'', b', hrun, hsim, hb'⟩ := hpaid rest b (hb.mono (by omega))
    obtain ⟨s', hplan⟩ := planTokens_of_error hrun
    rcases hpair with ⟨e₂, r₂, s₂, hcounted, hkept⟩ | ⟨k, r₂, s₂, hcounted, -⟩
    · rw [hcounted] at hfree
      cases hfree
      exact ⟨e, e', s', s₂, b', hplan, hkept, hsim, hb'⟩
    · rw [hcounted] at hfree
      cases hfree
  | ok k r' hfree hq hpaid =>
    right
    obtain ⟨hk, hpayload, hflags⟩ := hq
    obtain ⟨b₁, hrun, hb₁⟩ := hpaid rest b (hb.mono (by omega))
    obtain ⟨b₂, hreserve, hb₂⟩ := Budget.reservePlan_of_enough k r'.copiedPayload rest b₁
      (hb₁.mono (by unfold readerTokenUnitBytes; omega))
    refine ⟨k, r'.copiedPayload, b₂, ?_, hb₂⟩
    rw [planTokens_of_ok hrun hflags]
    simp only [bind_apply, spend, hreserve, update_apply]
    rfl

theorem read_unmetered (su : Setup) (s : Scratch) : read su s none = keepAndParse su s none := rfl

theorem read_of_planned {b' : Budget} (h : planTokens s (some b) = (.ok (), s', some b')) :
    read su s (some b) = keepAndParse su s' (some b') := by
  have hbody : (do tokenizeInto su.grow; readForms su : ReadM (List Datum)) s (some b) =
      (do scanAll su.grow; readForms su : ReadM (List Datum)) s' (some b') := by
    simp only [tokenizeInto, bind_apply, inspect_apply, Option.isSome_some, if_true, h]
  simp only [read, keepAndParse, tokenizeAndParse, bind_apply, settled] at hbody ⊢
  rw [hbody]

theorem read_of_unplanned {b' : Budget} (h : planTokens s (some b) = (.error e, s', some b'))
    {c : Nat} (hb : b'.Enough c) :
    (read su s (some b)).1 = .error e := by
  obtain ⟨b₂, hcheck, -⟩ := Budget.checkpoint_of_enough hb
  simp only [read, tokenizeAndParse, settled, tokenizeInto, bind_apply, inspect_apply,
    Option.isSome_some, if_true, h, spend, hcheck, fail_apply]

theorem keepAndParse_of_error (h : scanAll su.grow s none = (.error e, s', none)) :
    (keepAndParse su s none).1 = .error e := by
  simp only [keepAndParse, settled, bind_apply, h, spend_none, fail_apply]

inductive SameResult {α : Type} : Except GoErr α → Except GoErr α → Prop where
  | ok (a : α) : SameResult (.ok a) (.ok a)
  | error {e e' : GoErr} (h : SameError e e') : SameResult (.error e) (.error e')

theorem Paid.sameResult {S α : Type} {d : Nat} {m : Guarded Budget S GoErr α} {s : S}
    {Q : α → S → Prop} {left : α → S → Nat} (h : Paid d m s Q left) (hb : b.Enough d) :
    SameResult (m s (some b)).1 (m s none).1 := by
  cases h with
  | ok a s' hfree _ hpaid =>
    obtain ⟨b', hrun, -⟩ := hpaid 0 b hb
    rw [hrun, hfree]
    exact .ok a
  | error e s' hfree hpaid =>
    obtain ⟨e', s'', b', hrun, hsim, -⟩ := hpaid 0 b hb
    rw [hrun, hfree]
    exact .error hsim

theorem guardedRead_sameResult (su : Setup) (src : Text) (pooled pooled' : Pooled)
    (hb : b.Enough (readingCost src.length)) :
    SameResult (guardedRead su (pooled.reset su src) (some b)).1
      (read su (pooled'.reset su src) none).1 := by
  obtain ⟨b₀, hstart, hb₀⟩ := Budget.checkpoint_of_enough hb
  have hguarded : guardedRead su (pooled.reset su src) (some b) =
      read su (pooled.reset su src) (some b₀) := by
    simp only [guardedRead, bind_apply, spend, hstart]
  rw [hguarded, read_unmetered]
  set s := pooled.reset su src with hs
  set s' := pooled'.reset su src with hs'
  -- The two unmetered reads agree, whatever the pool and the counting pass have left.
  have hpool (k payload : Nat) :
      (keepAndParse su (s.afterCount k payload) none).1 = (keepAndParse su s' none).1 :=
    (keepAndParse_alike su _ _ none rfl (afterCount_alike k payload hs hs')).result
  have hlen : s.source.rest.length ≤ src.length := le_rfl
  have hroom : b₀.Enough (35 * src.length + 32 +
      (2 * src.length + tokenCredit (src.length + 1) * (src.length + 1))) :=
    hb₀.mono (by unfold readingCost; omega)
  rcases planTokens_enough su.grow s hlen hroom with
    ⟨e, e', s₁, s₂, b₁, hplan, hscan, hsim, hb₁⟩ | ⟨k, payload, b₁, hplan, hb₁⟩
  · have hfree : (keepAndParse su s' none).1 = .error e := by
      rw [← keepAndParse_of_error hscan]
      have hsame : SameRead (unmeteredRel su.grow) s s' :=
        ⟨⟨rfl, rfl, rfl, rfl, fun _ => rfl⟩, .mk trivial, rfl, trivial⟩
      exact (keepAndParse_alike su _ _ none rfl hsame).result.symm
    rw [read_of_unplanned hplan hb₁, hfree]
    exact .error hsim
  · rw [read_of_planned hplan, ← hpool k payload]
    exact (keepAndParse_paid su (afterCount_fresh (reset_fresh pooled su src) k payload)
      hlen).sameResult hb₁

/-- A read under a context whose evaluation has room for it returns the forms, the statistics
or the error of the read without a context, whatever the pool holds for either. -/
theorem readWithContextStats_agrees (su : Setup) (src : Text) (pooled pooled' : Pooled)
    (b : Budget) (hb : b.Enough (readingCost src.length)) :
    SameResult (readWithContextStats su src pooled b).result
      (readWithMaxDepthStats su src pooled').result :=
  guardedRead_sameResult su src pooled pooled' hb

theorem readWithContextStats_agrees_list :
    let conv : Strconv := ⟨fun _ => none, fun _ => [], fun _ => [], fun _ => List.not_mem_nil⟩
    let su : Setup := ⟨conv, defaultReaderFlags, readerDepth 0, fun _ len => len⟩
    let ctx : Context := ⟨fun _ _ _ => (fun _ => 0, none), fun _ => none⟩
    let b := .init ctx (some (.fresh ⟨fun _ => 100000, fun _ => by decide⟩))
    let src := text "(a 1)"
    b.Enough (readingCost src.length) ∧ SameResult (readWithContextStats su src ⟨0, 0⟩ b).result
        (readWithMaxDepthStats su src ⟨64, 16⟩).result := by
  intro conv su ctx b src
  have hb : b.Enough (readingCost src.length) :=
    Budget.init_enough (fun _ => rfl) rfl (fun r => by cases r <;> decide)
      fun r => by cases r <;> decide
  exact ⟨hb, readWithContextStats_agrees su src ⟨0, 0⟩ ⟨64, 16⟩ b hb⟩

end Reader

end Lispico
