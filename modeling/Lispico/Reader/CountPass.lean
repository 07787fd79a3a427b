import Lispico.Reader.Settling
import Mathlib

/-!
# The two passes of the scanner

The scanner moves alike whether it counts tokens or keeps them, whatever budget it runs under:
until the budget fails the same input is left, the token has the same type, and a pass ends in
the same error. What one pass counts the other copies.
-/

namespace Lispico

namespace Reader

open Lispico.Core Lib Guarded

abbrev Unmetered (b : Option Budget) : Prop := b = none

theorem Unmetered.of_some (b b' : Budget) (h : Unmetered (some b)) : Unmetered (some b') := by
  cases h

/-- Two scanners at one position, of one mode if `same` holds. -/
structure Parallel (same : Bool) (r r' : Source) : Prop where
  rest : r'.rest = r.rest
  line : r'.line = r.line
  col : r'.col = r.col
  flags : r'.flags = r.flags
  mode : same = true → r'.countOnly = r.countOnly

/-- Tokens of one type that are equal if `same` holds. -/
structure SameToken (same : Bool) (tok tok' : Token) : Prop where
  typ : tok'.typ = tok.typ
  eq : same = true → tok' = tok

abbrev Parallels {α α' : Type} (same : Bool) (Q : α → α' → Prop) (m : ScanM α) (m' : ScanM α') :
    Prop :=
  Matches Unmetered (Parallel same) Q m m'

def Token.copiedBytes (tok : Token) : Nat := if tok.copied then tok.val.length else 0

/-- Scanners at one position, of the modes `c` and `c'`. -/
structure Abreast (c c' : Bool) (fl : ReaderFlags) (r r' : Source) : Prop where
  place : Parallel (c == c') r r'
  left : r.countOnly = c ∧ r.flags = fl
  right : r'.countOnly = c'

/-- Scanners of which the first has counted `base` bytes, if it counts and the other one does
not. -/
structure Twinned (c c' : Bool) (fl : ReaderFlags) (base : Nat) (r r' : Source) : Prop
    extends Abreast c c' fl r r' where
  payload : c = true → c' = false → r.copiedPayload = base

/-- Buffers of which the second one holds `n` bytes, if only the first pass counts. -/
structure Buffered (c c' : Bool) (n : Nat) (buf buf' : Text) : Prop where
  eq : c = c' → buf' = buf
  length : c = true → c' = false → buf'.length = n

structure TokenPair (c c' : Bool) (fl : ReaderFlags) (base : Nat) (tok tok' : Token)
    (r r' : Source) : Prop where
  token : SameToken (c == c') tok tok'
  source : Twinned c c' fl (base + tok'.copiedBytes) r r'

abbrev Moves (c c' : Bool) (fl : ReaderFlags) (base : Nat) {α : Type} (P : α → α → Prop)
    (m m' : ScanM α) : Prop :=
  Beside Budget.failed (Abreast c c' fl) (Twinned c c' fl base)
    (fun a a' r r' => P a a' ∧ Twinned c c' fl base r r') m m'

abbrev Twins (c c' : Bool) (fl : ReaderFlags) (base : Nat) (m m' : ScanM Token) : Prop :=
  Beside Budget.failed (Abreast c c' fl) (Twinned c c' fl base) (TokenPair c c' fl base) m m'

theorem SameToken.refl (same : Bool) (tok : Token) : SameToken same tok tok :=
  ⟨rfl, fun _ => rfl⟩

section

variable {same : Bool} {r r' : Source}

theorem Parallel.refl (r : Source) : Parallel same r r := ⟨rfl, rfl, rfl, rfl, fun _ => rfl⟩

variable (h : Parallel same r r')

include h

theorem Parallel.peek : r'.peek = r.peek := by
  unfold Source.peek
  rw [h.rest]

theorem Parallel.peekNext : r'.peekNext = r.peekNext := by
  unfold Source.peekNext
  rw [h.rest]

theorem Parallel.since (start : Text) : r'.since start = r.since start := by
  unfold Source.since
  rw [h.rest]

theorem Parallel.past (ch : UInt8) (rest : Text) :
    Parallel same (r.past ch rest) (r'.past ch rest) := by
  unfold Source.past
  split_ifs
  · exact ⟨rfl, by rw [h.line], rfl, h.flags, h.mode⟩
  · exact ⟨rfl, h.line, by rw [h.col], h.flags, h.mode⟩

variable {c c' : Bool} {fl : ReaderFlags} {base : Nat}

omit h in
theorem Twinned.past (h : Twinned c c' fl base r r') (ch : UInt8) (rest : Text) :
    Twinned c c' fl base (r.past ch rest) (r'.past ch rest) where
  place := h.place.past ch rest
  left := ⟨(past_countOnly r ch rest).trans h.left.1, (past_flags r ch rest).trans h.left.2⟩
  right := (past_countOnly r' ch rest).trans h.right
  payload := fun hc hc' => (past_copiedPayload r ch rest).trans (h.payload hc hc')

theorem Parallel.twinned : Twinned r.countOnly r'.countOnly r.flags r.copiedPayload r r' where
  place := ⟨h.rest, h.line, h.col, h.flags, fun hmode => (eq_of_beq hmode).symm⟩
  left := ⟨rfl, rfl⟩
  right := rfl
  payload := fun _ _ => rfl

omit h

theorem Abreast.counted (h : Abreast c c' fl r r') (n n' : Nat) :
    Abreast c c' fl { r with copiedPayload := n } { r' with copiedPayload := n' } where
  place := ⟨h.place.rest, h.place.line, h.place.col, h.place.flags, h.place.mode⟩
  left := h.left
  right := h.right

theorem TokenPair.of_uncopied (h : Twinned c c' fl base r r') {tok : Token}
    (htok : tok.copied = false) : TokenPair c c' fl base tok tok r r' := by
  have hzero : tok.copiedBytes = 0 := by
    unfold Token.copiedBytes
    rw [htok]
    rfl
  exact ⟨.refl _ _, by rw [hzero]; exact h⟩

end

section

variable {c c' : Bool} {fl : ReaderFlags} {base : Nat} (p : UInt8 → Bool) (typ : TokenType)
  (rounds : Nat)

theorem next_moves : Moves c c' fl base Eq next next := by
  refine ⟨fun r b hb => ?_, fun r r' b hr => ?_⟩
  · unfold next
    cases r.rest with
    | nil => exact hb
    | cons ch rest =>
      have h := (Budget.work_reports 1).steady r b hb
      generalize spend (Budget.work 1) r b = x at h
      rcases x with ⟨_ | _, r₁, b₁⟩ <;> exact h
  · unfold next
    rw [hr.place.rest]
    cases r.rest with
    | nil => exact .ok id ⟨rfl, hr⟩
    | cons ch rest =>
      rcases (Budget.work_reports 1).outcome r b with ⟨b', h, hb, -⟩ | ⟨err, b', h, hlost, hb⟩
      · simp only [h, spend_none]
        exact .ok hb ⟨rfl, hr.past ch rest⟩
      · simp only [h]
        exact .lost hb (by simp [hlost])

theorem look_moves {α : Type} {P : α → α → Prop} {g g' : Source → α}
    (h : ∀ r r', Twinned c c' fl base r r' → P (g r) (g' r')) :
    Moves c c' fl base P (look g) (look g') :=
  .look fun r r' hr => ⟨h r r' hr, hr⟩

theorem rest_moves : Moves c c' fl base Eq (look Source.rest) (look Source.rest) :=
  look_moves fun _ _ hr => hr.place.rest.symm

theorem peek_moves : Moves c c' fl base Eq (look Source.peek) (look Source.peek) :=
  look_moves fun _ _ hr => hr.place.peek.symm

theorem since_moves (start : Text) :
    Moves c c' fl base Eq (look (Source.since start)) (look (Source.since start)) :=
  look_moves fun _ _ hr => (hr.place.since start).symm

theorem source_bind {β : Type} {Q : β → β → Source → Source → Prop} {k k' : Source → ScanM β}
    (hk : ∀ r r', Parallel false r r' →
      Beside Budget.failed (Abreast c c' fl) (Twinned c c' fl base) Q (k r) (k' r')) :
    Beside Budget.failed (Abreast c c' fl) (Twinned c c' fl base) Q (look id >>= k)
      (look id >>= k') :=
  .bind (P := Parallel false) (fun r => ⟨r, .refl r⟩) (look_moves fun _ _ hr =>
      ⟨hr.place.rest, hr.place.line, hr.place.col, hr.place.flags, nofun⟩) hk

theorem advance_moves : Moves c c' fl base Eq (advance p rounds) (advance p rounds) := by
  induction rounds with
  | zero => exact .ret fun _ _ hr => ⟨rfl, hr⟩
  | succ rounds ih =>
    refine peek_moves.bindEq fun ch => .ite (next_moves.bindEq fun _ => ih) ?_
    exact .ret fun _ _ hr => ⟨rfl, hr⟩

theorem advanceWhile_moves : Moves c c' fl base Eq (advanceWhile p) (advanceWhile p) :=
  rest_moves.bindEq fun rest => advance_moves p rest.length

theorem ret_twins {tok : Token} (htok : tok.copied = false) :
    Twins c c' fl base (ret tok) (ret tok) :=
  .ret fun _ _ hr => .of_uncopied hr htok

theorem single_twins (line col : Nat) :
    Twins c c' fl base (single typ line col) (single typ line col) :=
  next_moves.bindEq fun _ => ret_twins rfl

theorem fail_twins (e : GoErr) : Twins c c' fl base (fail e) (fail e) :=
  .fail e fun _ _ hr => hr.toAbreast

theorem unterminated_twins : Twins c c' fl base unterminated unterminated := by
  refine source_bind fun r r' hr => ?_
  rw [hr.line, hr.col]
  exact fail_twins _

section

variable {n : Nat} {buf buf' : Text}

theorem Buffered.total (c c' : Bool) (n : Nat) (buf : Text) :
    ∃ buf', Buffered c c' n buf buf' := by
  by_cases hsame : c = c'
  · exact ⟨buf, fun _ => rfl, fun h h' => nomatch h.symm.trans (hsame.trans h')⟩
  · exact ⟨List.replicate n 0, fun h => absurd h hsame, fun _ _ => List.length_replicate⟩

section

variable (hbuf : Buffered c c' n buf buf')

include hbuf

theorem writeByte_moves (ch : UInt8) :
    Moves c c' fl base (Buffered c c' (n + 1)) (writeByte buf ch) (writeByte buf' ch) := by
  refine look_moves fun r r' hr => ⟨fun hsame => ?_, fun hc hc' => ?_⟩
  · rw [hr.left.1, hr.right, hbuf.eq hsame, hsame]
  · rw [hr.right, hc']
    simp [hbuf.length hc hc']

theorem appendEscape_moves :
    Moves c c' fl base (Buffered c c' (n + 1)) (appendEscape buf) (appendEscape buf') := by
  refine next_moves.bindEq fun ch => source_bind fun r r' hr => ?_
  rw [hr.line, hr.col]
  cases escaped ch with
  | none => exact .fail _ fun _ _ hr => hr.toAbreast
  | some decoded => exact writeByte_moves hbuf decoded

theorem finishEscaped_twins (line col : Nat) :
    Twins c c' fl base (finishEscaped buf n line col) (finishEscaped buf' n line col) := by
  refine ⟨fun r b hb => ?_, fun r r' b hr => ?_⟩
  · simp only [finishEscaped, bind_apply, look_apply]
    cases r.countOnly <;> exact hb
  · have hsame : (c == c') = true → c = c' := eq_of_beq
    simp only [finishEscaped, bind_apply, look_apply, hr.left.1, hr.right]
    cases c <;> cases c'
    · rw [hbuf.eq rfl]
      exact .ok id ⟨.refl _ _, hr.toAbreast, nofun⟩
    · exact .ok id ⟨⟨rfl, fun h => nomatch hsame h⟩, hr.counted r.copiedPayload _, nofun⟩
    · refine .ok id ⟨⟨rfl, fun h => nomatch hsame h⟩, hr.counted _ r'.copiedPayload,
        fun _ _ => ?_⟩
      change r.copiedPayload + n = base + buf'.length
      rw [hr.payload rfl rfl, hbuf.length rfl rfl]
    · exact .ok id ⟨.refl _ _, hr.counted _ _, nofun⟩

end

theorem readEscapes_twins (line col rounds : Nat) (hbuf : Buffered c c' n buf buf') :
    Twins c c' fl base (readEscapes line col rounds buf n)
      (readEscapes line col rounds buf' n) := by
  induction rounds generalizing buf buf' n with
  | zero => exact unterminated_twins
  | succ rounds ih =>
    refine next_moves.bindEq fun ch => .ite unterminated_twins ?_
    refine .ite (finishEscaped_twins hbuf line col) (.ite ?_ ?_)
    · exact (appendEscape_moves hbuf).bind (Buffered.total c c' _) fun _ _ => ih
    · exact (writeByte_moves hbuf ch).bind (Buffered.total c c' _) fun _ _ => ih

end

theorem copyPrefix_moves (run : Text) :
    Moves c c' fl base (Buffered c c' run.length) (copyPrefix run) (copyPrefix run) := by
  have hwork := Budget.work_reports run.length
  refine ⟨fun r b hb => ?_, fun r r' b hr => ?_⟩
  · simp only [copyPrefix, bind_apply, look_apply]
    cases r.countOnly with
    | true => exact hb
    | false => exact hwork.steady.bind (fun _ _ _ h => h) r b hb
  · simp only [copyPrefix, bind_apply, look_apply, hr.left.1, hr.right]
    rcases hwork.outcome r b with ⟨b', h, hb, -⟩ | ⟨err, b', h, hlost, hb⟩
    · cases c <;> cases c'
      · simp only [Bool.false_eq_true, if_false, bind_apply, h]
        exact .ok hb ⟨⟨fun _ => rfl, nofun⟩, hr⟩
      · simp only [Bool.false_eq_true, if_false, bind_apply, h]
        exact .ok hb ⟨⟨nofun, nofun⟩, hr⟩
      · exact .ok id ⟨⟨nofun, fun _ _ => rfl⟩, hr⟩
      · exact .ok id ⟨⟨fun _ => rfl, nofun⟩, hr⟩
    · cases c with
      | false =>
        simp only [Bool.false_eq_true, if_false, bind_apply, h]
        exact .lost hb (by simp [hlost])
      | true =>
        cases c'
        · exact .ok id ⟨⟨nofun, fun _ _ => rfl⟩, hr⟩
        · exact .ok id ⟨⟨fun _ => rfl, nofun⟩, hr⟩

variable (line col : Nat)

theorem readStringEscaped_twins (run : Text) :
    Twins c c' fl base (readStringEscaped line col run) (readStringEscaped line col run) := by
  refine (copyPrefix_moves run).bind (Buffered.total c c' _) fun _ _ hbuf => ?_
  refine (appendEscape_moves hbuf).bind (Buffered.total c c' _) fun _ _ hbuf' => ?_
  exact rest_moves.bindEq fun rest => readEscapes_twins line col _ hbuf'

theorem readRun_twins (start : Text) (rounds : Nat) :
    Twins c c' fl base (readRun line col start rounds) (readRun line col start rounds) := by
  induction rounds with
  | zero => exact unterminated_twins
  | succ rounds ih =>
    have hrun : Moves c c' fl base Eq (look fun r => (r.since start).dropLast)
        (look fun r => (r.since start).dropLast) :=
      look_moves fun _ _ hr => by rw [hr.place.since]
    refine next_moves.bindEq fun ch => hrun.bindEq fun run => ?_
    refine .ite unterminated_twins (.ite (ret_twins rfl) ?_)
    exact .ite (readStringEscaped_twins line col run) ih

theorem readString_twins : Twins c c' fl base (readString line col) (readString line col) :=
  next_moves.bindEq fun _ => rest_moves.bindEq fun start => readRun_twins line col start _

theorem readWord_twins (line col : Nat) (p : UInt8 → Bool) :
    Twins c c' fl base (readWord typ line col p) (readWord typ line col p) :=
  rest_moves.bindEq fun start => (advanceWhile_moves p).bindEq fun _ =>
    (since_moves start).bindEq fun _ => ret_twins rfl

theorem readSign_moves : Moves c c' fl base Eq readSign readSign := by
  refine peek_moves.bindEq fun ch => .ite (next_moves.bindEq fun _ => ?_) ?_
  · exact .ret fun _ _ hr => ⟨rfl, hr⟩
  · exact .ret fun _ _ hr => ⟨rfl, hr⟩

theorem readNumber_twins : Twins c c' fl base (readNumber line col) (readNumber line col) :=
  rest_moves.bindEq fun start => readSign_moves.bindEq fun _ =>
    (advanceWhile_moves _).bindEq fun _ => (since_moves start).bindEq fun _ => ret_twins rfl

theorem readKeyword_twins : Twins c c' fl base (readKeyword line col) (readKeyword line col) :=
  next_moves.bindEq fun _ => readWord_twins .keyword line col isSymbolChar

theorem readTilde_twins : Twins c c' fl base (readTilde line col) (readTilde line col) :=
  next_moves.bindEq fun _ => peek_moves.bindEq fun _ =>
    Beside.ite (single_twins _ _ _) (ret_twins rfl)

theorem readHash_twins : Twins c c' fl base (readHash line col) (readHash line col) := by
  refine next_moves.bindEq fun _ => source_bind fun r r' hr => ?_
  rw [hr.flags, hr.peek]
  exact .ite (single_twins _ _ _) (.ite (single_twins _ _ _) (ret_twins rfl))

theorem scanHere_twins {r r' : Source} (hr : Parallel false r r') :
    Twins c c' fl base (scanHere r) (scanHere r') := by
  unfold scanHere
  rw [hr.peek, hr.peekNext, hr.line, hr.col, hr.flags]
  have hsingle (typ : TokenType) : Twins c c' fl base
      (single typ r.line r.col) (single typ r.line r.col) := single_twins typ r.line r.col
  refine .ite (hsingle _) (.ite (hsingle _) ?_)
  refine .ite (.ite (hsingle _) (fail_twins _)) ?_
  refine .ite (hsingle _) (.ite (hsingle _) ?_)
  refine .ite (readTilde_twins _ _) (.ite (hsingle _) ?_)
  refine .ite (readHash_twins _ _) (.ite (readString_twins _ _) ?_)
  refine .ite (readKeyword_twins _ _) (.ite (readNumber_twins _ _) ?_)
  exact .ite (readWord_twins _ _ _ _) (fail_twins _)

theorem scanRounds_twins : Twins c c' fl base (scanRounds rounds) (scanRounds rounds) := by
  induction rounds with
  | zero =>
    refine .look fun r r' hr => ?_
    rw [hr.place.line, hr.place.col]
    exact .of_uncopied hr rfl
  | succ rounds ih =>
    refine (advanceWhile_moves _).bindEq fun _ => source_bind fun r r' hr => ?_
    rw [hr.rest, hr.peek, hr.line, hr.col]
    refine .ite (ret_twins rfl) ?_
    exact .ite ((advanceWhile_moves _).bindEq fun _ => ih) (scanHere_twins hr)

theorem nextToken_twins : Twins c c' fl base nextToken nextToken :=
  .outranked (rest_moves.bindEq fun _ => scanRounds_twins _)

end

theorem nextToken_parallels {same : Bool} :
    Parallels same (SameToken same) nextToken nextToken := by
  rintro r r' _ rfl hr
  have hmode {p p' : Source} (h : Abreast r.countOnly r'.countOnly r.flags p p') : Parallel same
    p p' :=
    ⟨h.place.rest, h.place.line, h.place.col, h.place.flags,
      fun hsame => h.right.trans ((hr.mode hsame).trans h.left.1.symm)⟩
  have h := nextToken_twins.agrees r r' none hr.twinned
  generalize nextToken r none = x, nextToken r' none = x' at h
  cases h with
  | ok hb hq =>
    cases hb rfl
    exact .ok ⟨hq.token.typ, fun hsame => hq.token.eq (beq_iff_eq.mpr (hr.mode hsame).symm)⟩
      (hmode hq.source.toAbreast) rfl
  | error hb hr' =>
    cases hb rfl
    exact .error (hmode hr') rfl
  | lost hb _ => exact absurd rfl hb

def copiedBytes (toks : List Token) : Nat := (toks.map Token.copiedBytes).sum

/-- How a counting pass that has counted `n` tokens goes beside a pass from `s` on that keeps
them without a budget. -/
inductive Counts (c c' : Bool) (fl : ReaderFlags) (base n : Nat) (s : Scratch)
    (b : Option Budget) : Except GoErr Nat × Source × Option Budget →
      Except GoErr Unit × Scratch × Option Budget → Prop where
  | ok (toks : List Token) {k r' s' b'} (hb : b = none → b' = none) (hk : k = n + toks.length)
      (htoks : s'.tokens = s.tokens ++ toks)
      (hr : Twinned c c' fl (base + copiedBytes toks) r' s'.source) :
      Counts c c' fl base n s b (.ok k, r', b') (.ok (), s', none)
  | error {e r' s' b'} (hb : b = none → b' = none) (hflags : r'.flags = fl) :
      Counts c c' fl base n s b (.error e, r', b') (.error e, s', none)
  | lost {e r' b' x'} (hb : b ≠ none) (h : b'.bind Budget.failed ≠ none) :
      Counts c c' fl base n s b (.error e, r', b') x'

theorem countRounds_counts (headroom : Nat) (grow : Nat → Nat → Nat) (rounds n : Nat)
    {c c' : Bool} {fl : ReaderFlags} {base : Nat} {r : Source} {s : Scratch} (b : Option Budget)
    (hr : Twinned c c' fl base r s.source) :
    Counts c c' fl base n s b (countRounds headroom rounds n r b)
      (tokenRounds grow rounds s none) := by
  induction rounds generalizing n base r s b with
  | zero => exact .ok [] id rfl (List.append_nil _).symm hr
  | succ rounds ih =>
    have hpair := nextToken_twins.agrees r s.source b hr
    have hlost : (nextToken r b).2.2.bind Budget.failed ≠ none →
        ∃ e r' b', nextToken r b = (.error e, r', b') := outranked_of_lost
    unfold countRounds tokenRounds scanning
    simp only [bind_apply, zoom]
    generalize nextToken r b = x, nextToken s.source none = x' at hpair hlost
    cases hpair with
    | error hb hr' => exact .error hb hr'.left.2
    | lost hb h =>
      obtain ⟨e, r₁, b₁, rfl⟩ := hlost h
      exact .lost hb h
    | @ok tok tok' r₁ r₁' b₁ hb hq =>
      have hplan := (Budget.checkPlan_reports (n + 1) r₁.copiedPayload headroom).outcome r₁ b₁
      have hone : copiedBytes [tok'] = tok'.copiedBytes := by simp [copiedBytes]
      simp only [look_apply, update_apply]
      rcases hplan with ⟨b₂, hspend, hb₂, -⟩ | ⟨err, b₂, hspend, hfailed, hb₁⟩
      · have hnone : b = none → b₂ = none := fun h => hb₂ (hb h)
        simp only [hspend]
        rw [hq.token.typ]
        split_ifs
        · exact .ok [tok'] hnone rfl rfl (by rw [hone]; exact hq.source)
        · have hrest := ih (n + 1) b₂ (s := (s.withSource r₁').append grow tok') hq.source
          generalize countRounds headroom rounds (n + 1) r₁ b₂ = y,
            tokenRounds grow rounds _ none = y' at hrest
          cases hrest with
          | error hb' hflags => exact .error (fun h => hb' (hnone h)) hflags
          | lost hb' h => exact .lost (fun h => hb' (hnone h)) h
          | @ok toks _ _ _ _ hb' hk htoks hr' =>
            refine .ok (tok' :: toks) (fun h => hb' (hnone h)) ?_ ?_ ?_
            · rw [hk, List.length_cons]
              omega
            · rw [htoks]
              exact List.append_assoc s.tokens [tok'] toks
            · simpa [copiedBytes, Nat.add_assoc] using hr'
      · simp only [hspend]
        exact .lost (fun h => hb₁ (hb h)) (by simp [hfailed])

theorem countRounds_keeps (headroom : Nat) (grow : Nat → Nat → Nat) (rounds n : Nat)
    {r : Source} {s : Scratch} (hr : Parallel false r s.source) :
    (∃ e r' s', countRounds headroom rounds n r none = (.error e, r', none) ∧
        tokenRounds grow rounds s none = (.error e, s', none)) ∨
      ∃ k r' s', countRounds headroom rounds n r none = (.ok k, r', none) ∧
        tokenRounds grow rounds s none = (.ok (), s', none) := by
  have h := countRounds_counts headroom grow rounds n none hr.twinned
  generalize countRounds headroom rounds n r none = x, tokenRounds grow rounds s none = x' at h
  cases h with
  | error hb _ =>
    cases hb rfl
    exact .inl ⟨_, _, _, rfl, rfl⟩
  | ok _ hb _ _ _ =>
    cases hb rfl
    exact .inr ⟨_, _, _, rfl, rfl⟩
  | lost hb _ => exact absurd rfl hb

variable (grow : Nat → Nat → Nat) (rounds : Nat)

theorem tokenRounds_grows (s : Scratch) (b : Option Budget) :
    s.tokens <+: (tokenRounds grow rounds s b).2.1.tokens ∧
      ((tokenRounds grow rounds s b).2.1.tokens.length ≤ s.tokensCap →
        (tokenRounds grow rounds s b).2.1.tokensCap = s.tokensCap) := by
  induction rounds generalizing s b with
  | zero => exact ⟨List.prefix_rfl, fun _ => rfl⟩
  | succ rounds ih =>
    unfold tokenRounds scanning
    simp only [bind_apply, zoom]
    rcases nextToken s.source b with ⟨e | tok, r₁, b₁⟩
    · exact ⟨List.prefix_rfl, fun _ => rfl⟩
    · have hfirst : s.tokens <+: ((s.withSource r₁).append grow tok).tokens :=
        List.prefix_append _ _
      have hcap (h : s.tokens.length + 1 ≤ s.tokensCap) :
          ((s.withSource r₁).append grow tok).tokensCap = s.tokensCap := if_pos h
      simp only [update_apply]
      split_ifs
      · refine ⟨hfirst, fun h => hcap ?_⟩
        simpa [Scratch.append, Scratch.withSource] using h
      · obtain ⟨hgrown, hkept⟩ := ih ((s.withSource r₁).append grow tok) b₁
        refine ⟨hfirst.trans hgrown, fun h => ?_⟩
        have hlen : s.tokens.length + 1 ≤ _ := List.length_append ▸ hgrown.length_le
        have hroom := hcap (hlen.trans h)
        exact (hkept (by rw [hroom]; exact h)).trans hroom

theorem tokenRounds_kept {fl : ReaderFlags}
    {s s₀ s₀' : Scratch} (b : Option Budget) (hr : Abreast false false fl s.source s₀.source)
    (htoks : s.tokens = s₀.tokens) (h₀ : tokenRounds grow rounds s₀ none = (.ok (), s₀', none)) :
    (tokenRounds grow rounds s b).2.1.tokens <+: s₀'.tokens ∧
      ((tokenRounds grow rounds s b).1 = .ok () →
        (tokenRounds grow rounds s b).2.1.tokens = s₀'.tokens) := by
  induction rounds generalizing s s₀ b with
  | zero =>
    cases h₀
    exact ⟨by rw [← htoks]; exact List.prefix_rfl, fun _ => htoks⟩
  | succ rounds ih =>
    have hgrown := (tokenRounds_grows grow (rounds + 1) s₀ none).1
    rw [h₀, ← htoks] at hgrown
    have hstart : Twinned false false fl 0 s.source s₀.source := ⟨hr, by rintro ⟨⟩⟩
    have hpair := nextToken_twins.agrees s.source s₀.source b hstart
    have hlost : (nextToken s.source b).2.2.bind Budget.failed ≠ none →
        ∃ e r' b', nextToken s.source b = (.error e, r', b') := outranked_of_lost
    unfold tokenRounds scanning at h₀ ⊢
    simp only [bind_apply, zoom] at h₀ ⊢
    generalize nextToken s.source b = x, nextToken s₀.source none = x' at hpair hlost h₀
    cases hpair with
    | error _ _ => cases h₀
    | lost _ h =>
      obtain ⟨e, r₁, b₁, rfl⟩ := hlost h
      exact ⟨hgrown, by rintro ⟨⟩⟩
    | ok _ hq =>
      cases hq.token.eq rfl
      simp only [update_apply] at h₀ ⊢
      have happend {r₁ r₁' : Source} {tok : Token} : ((s.withSource r₁).append grow tok).tokens =
            ((s₀.withSource r₁').append grow tok).tokens :=
        congrArg (· ++ [tok]) htoks
      split_ifs at h₀ ⊢
      · cases h₀
        exact ⟨⟨[], (List.append_nil _).trans happend⟩, fun _ => happend⟩
      · refine ih _ ?_ happend h₀
        exact hq.source.toAbreast

/-- The counting pass reports the number of tokens that a pass over the same source keeps and
the bytes it copies. Under a budget of its own that pass keeps the first of them, all if it
does not fail, in the buffer it begins with if that has room for the number reported. A
source that the counting pass refuses for its text is refused by the other one too. -/
theorem count_pass_exact (grow : Nat → Nat → Nat) (r : Source) (b : Option Budget) (s : Scratch)
    (hs : s.source = (countTokens r b).2.1) (htoks : s.tokens = []) :
    (∀ n, (countTokens r b).1 = .ok n →
      (scanAll grow s none).1 = .ok () ∧ ∃ toks : List Token, toks.length = n ∧
        copiedBytes toks = s.source.copiedPayload ∧
        ∀ b', (scanAll grow s b').2.1.tokens <+: toks ∧
          ((scanAll grow s b').1 = .ok () → (scanAll grow s b').2.1.tokens = toks) ∧
          (n ≤ s.tokensCap → (scanAll grow s b').2.1.tokensCap = s.tokensCap)) ∧
      ∀ e, (countTokens r b).1 = .error e → (countTokens r b).2.2.bind Budget.failed = none →
        (scanAll grow s none).1 = .error e := by
  let x := countRounds (Budget.allocHeadroom b) (r.rest.length + 1) 0
    { r with countOnly := true, copiedPayload := 0 } b
  let r₀ : Source := { r with countOnly := false, copiedPayload := x.2.1.copiedPayload }
  have hresult : (countTokens r b).1 = x.1 := rfl
  have hbudget : (countTokens r b).2.2 = x.2.2 := rfl
  have hsource : s.source = { r₀ with flags := x.2.1.flags } := hs
  have hstart :
      Twinned true false r.flags 0 { r with countOnly := true, copiedPayload := 0 } r₀ :=
    ⟨⟨⟨rfl, rfl, rfl, rfl, nofun⟩, ⟨rfl, rfl⟩, rfl⟩, fun _ _ => rfl⟩
  have hcount := countRounds_counts (Budget.allocHeadroom b) grow (r.rest.length + 1) 0
    (s := s.withSource r₀) b hstart
  generalize hy : tokenRounds grow (r.rest.length + 1) (s.withSource r₀) none = y at hcount
  have hscan (b' : Option Budget) :
      scanAll grow s b' = tokenRounds grow (r.rest.length + 1) s b' := by
    change tokenRounds grow (s.source.rest.length + 1) s b' = _
    rw [hsource]
  -- The flags are those of the source, so the two passes begin alike.
  have hsame (hflags : x.2.1.flags = r.flags) : s.withSource r₀ = s := by
    rw [hflags] at hsource
    exact congrArg (fun source => s.withSource source) hsource.symm
  have hpayload : s.source.copiedPayload = x.2.1.copiedPayload := by rw [hsource]
  have hplace : Abreast false false x.2.1.flags s.source s.source :=
    ⟨Parallel.refl _, by rw [hsource]; exact ⟨rfl, rfl⟩, by rw [hsource]⟩
  rw [hresult, hbudget]
  change Counts true false r.flags 0 0 (s.withSource r₀) b x y at hcount
  clear_value r₀ x
  cases hcount with
  | @ok toks n r' s' _ _ hk hkept hr =>
    rw [hsame hr.left.2] at hy
    have hall : s'.tokens = toks := by
      rw [hkept]
      exact congrArg (· ++ toks) htoks
    refine ⟨fun n' hn => ?_, nofun⟩
    cases hn
    refine ⟨by rw [hscan, hy], toks, by omega, ?_, fun b' => ?_⟩
    · rw [hpayload, ← Nat.zero_add (copiedBytes toks)]
      exact (hr.payload rfl rfl).symm
    · obtain ⟨hfirst, hdone⟩ := tokenRounds_kept grow _ b' hplace rfl hy
      rw [hscan, ← hall]
      refine ⟨hfirst, hdone, fun hroom => (tokenRounds_grows grow _ s b').2 ?_⟩
      have hlen := hfirst.length_le
      rw [hall] at hlen
      omega
  | error _ hflags =>
    rw [hsame hflags] at hy
    refine ⟨nofun, fun e' he _ => ?_⟩
    cases he
    rw [hscan, hy]
  | lost _ h => exact ⟨nofun, fun _ _ hnone => absurd hnone h⟩

def openBudget : Budget := Budget.init ⟨fun _ _ want => (want, none), fun _ => none⟩ none

def escapedSource : Source := Source.start [34, 92, 110, 34, 32, 120] defaultReaderFlags

/-- With the end there are three tokens, of which one copies a byte. -/
theorem count_pass_exact_escaped :
    let r := (countTokens escapedSource (some openBudget)).2.1
    let s : Scratch := ⟨r, ⟨[], ⟨0, 0⟩, [], 0, ⟨meterValueSlotBytes, 0⟩, 0⟩, [], 3, 3⟩
    s.source.copiedPayload = 1 ∧ (scanAll (fun _ n => n) s none).1 = .ok () := by
  intro r s
  have h := count_pass_exact (fun _ n => n) escapedSource (some openBudget) s rfl rfl
  exact ⟨rfl, (h.1 3 rfl).1⟩

end Reader

end Lispico
