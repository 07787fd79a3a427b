import Lispico.Reader.Read
import Lispico.Reader.Enough

/-!
# Scanning with room in the budget

With room in the budget for two units for each byte of the input, a step of the scanner does
what it does without a budget and leaves room for the input that it leaves. The second unit
pays for the copy of the run before the first escape of a string.
-/

namespace Lispico

namespace Reader

open Lispico.Core Meter Lib Guarded

/-- Two errors that are the same but for the text of an invalid number, which a guarded read
cuts short. -/
inductive SameError : GoErr → GoErr → Prop where
  | same (e : GoErr) : SameError e e
  | number (t : Text) (line col : Nat) :
      SameError (newReadError ("invalid number: " ++ shown (boundedSource t)) line col)
        (newReadError ("invalid number: " ++ shown t) line col)

/-- A computation that does the same with and without a budget, given room for `d`. -/
abbrev Paid {S α : Type} (d : Nat) (m : Guarded Budget S GoErr α) (s : S)
    (Q : α → S → Prop) (left : α → S → Nat) : Prop :=
  Funded Budget.funds SameError d m s Q left

variable (line col : Nat) (p : UInt8 → Bool) (rounds n : Nat) (g : GrowthPlan)

theorem admitRounds_paid :
    Paid (g.unit * (4 * n - 2 * g.capacity)) (GrowthPlan.admitRounds rounds n) g
      (fun _ g' => g'.unit = g.unit) (fun _ _ => 0) := by
  induction rounds generalizing g with
  | zero => exact Funded.ret rfl (Nat.zero_le _)
  | succ rounds ih =>
    refine Funded.look_bind ?_
    dsimp only [id]
    split_ifs with hlt
    · refine Funded.update_bind ?_
      have hcap : 2 * g.capacity ≤ g.doubled.capacity ∧ 1 ≤ g.doubled.capacity ∧
          g.doubled.capacity ≤ 2 * n := by
        unfold GrowthPlan.doubled
        dsimp only
        split_ifs <;> omega
      have hcost : g.doubled.capacity * g.unit + g.unit * (4 * n - 2 * g.doubled.capacity) ≤
          g.unit * (4 * n - 2 * g.capacity) := by
        rw [Nat.mul_comm g.doubled.capacity, ← Nat.mul_add]
        exact Nat.mul_le_mul_left _ (by omega)
      refine Funded.spend_bind (Budget.admitAlloc_of_enough _) (by omega) ?_
      exact (ih g.doubled).of_le (by change g.unit * _ ≤ _; omega)
    · exact Funded.ret rfl (Nat.zero_le _)

theorem admit_paid :
    Paid (g.unit * (4 * n)) (GrowthPlan.admitGrowth n) g (fun _ g' => g'.unit = g.unit)
      (fun _ _ => 0) :=
  (admitRounds_paid n n g).of_le (Nat.mul_le_mul_left _ (Nat.sub_le _ _))

theorem workBatches_paid {S : Type} (batch rounds n : Nat) (s : S) :
    Paid n (workBatches batch rounds n) s (fun _ s' => s' = s) (fun _ _ => 0) := by
  induction rounds generalizing n with
  | zero => exact .ret rfl (Nat.zero_le _)
  | succ rounds ih =>
    unfold workBatches
    split_ifs with hzero
    · exact .ret rfl (Nat.zero_le _)
    · exact Funded.spend_bind (Budget.work_of_enough _) (Nat.min_le_left _ _) (ih _)

def Source.advanced (r : Source) : Source :=
  match r.rest with
  | [] => r
  | ch :: rest => r.past ch rest

/-- A later state of the same pass. The bytes that strings have decoded to are among those
passed. -/
structure Ahead (r r' : Source) : Prop where
  suffix : r'.rest <:+ r.rest
  flags : r'.flags = r.flags
  countOnly : r'.countOnly = r.countOnly
  payload : r'.copiedPayload + r'.rest.length ≤ r.copiedPayload + r.rest.length

theorem Ahead.refl (r : Source) : Ahead r r := ⟨List.suffix_rfl, rfl, rfl, le_rfl⟩

theorem Ahead.trans {r₁ r₂ r₃ : Source} (h : Ahead r₁ r₂) (h' : Ahead r₂ r₃) : Ahead r₁ r₃ :=
  ⟨h'.suffix.trans h.suffix, h'.flags.trans h.flags, h'.countOnly.trans h.countOnly,
    h'.payload.trans h.payload⟩

variable {r : Source}

theorem Ahead.length_le {r' : Source} (h : Ahead r r') : r'.rest.length ≤ r.rest.length :=
  h.suffix.length_le

theorem advanced_rest (r : Source) : r.advanced.rest = r.rest.tail := by
  unfold Source.advanced
  split <;> rename_i h <;> rw [h]
  · rfl
  · exact past_rest r _ _

theorem advanced_ahead (r : Source) : Ahead r r.advanced := by
  unfold Source.advanced
  split <;> rename_i h
  · exact .refl r
  · refine ⟨?_, past_flags _ _ _, past_countOnly _ _ _, ?_⟩
    · rw [past_rest, h]
      exact List.suffix_cons _ _
    · rw [past_rest, past_copiedPayload, h, List.length_cons]
      omega

theorem advanced_length (h : r.peek ≠ 0) : r.advanced.rest.length + 1 = r.rest.length := by
  rw [advanced_rest]
  unfold Source.peek at h
  cases hr : r.rest with
  | nil =>
    rw [hr] at h
    exact absurd rfl h
  | cons ch rest => rfl

theorem next_paid (r : Source) (d : Nat) :
    Paid (d + r.rest.length) next r (fun ch r' => ch = r.peek ∧ r' = r.advanced)
      (fun _ r' => d + r'.rest.length) := by
  cases hr : r.rest with
  | nil =>
    have hadv : r.advanced = r := by
      unfold Source.advanced
      rw [hr]
    have hrun (b : Option Budget) : next r b = (.ok 0, r, b) := by simp only [next, hr]
    refine Funded.of_free hrun ⟨?_, hadv.symm⟩ (by rw [hr])
    · unfold Source.peek
      rw [hr]
      rfl
  | cons ch rest =>
    have hadv : r.advanced = r.past ch rest := by
      unfold Source.advanced
      rw [hr]
    refine .ok ch (r.past ch rest) (by simp only [next, hr, spend_none])
      ⟨by unfold Source.peek; rw [hr]; rfl, hadv.symm⟩ fun more b hb => ?_
    rw [List.length_cons] at hb
    obtain ⟨b', hwork, hb'⟩ := Budget.work_of_enough 1 (d + rest.length + more) b
      (Budget.Enough.mono (by omega) hb)
    refine ⟨b', by simp only [next, hr, spend, hwork], ?_⟩
    rw [past_rest]
    exact hb'

variable {d : Nat}

theorem next_bind {β : Type} {k : UInt8 → ScanM β} {Q : β → Source → Prop}
    {left : β → Source → Nat} (h : Paid (d + r.advanced.rest.length) (k r.peek) r.advanced Q
      left) :
    Paid (d + r.rest.length) (next >>= k) r Q left := by
  refine (next_paid r d).bind fun ch r' hnext => ?_
  obtain ⟨rfl, rfl⟩ := hnext
  exact h

/-- What a step of the scanner guarantees: it moves ahead and pays for what it passes. -/
abbrev Scans {α : Type} (d : Nat) (m : ScanM α) (r : Source) (Q : α → Prop) : Prop :=
  Paid (d + r.rest.length) m r (fun a r' => Ahead r r' ∧ Q a) (fun _ r' => d + r'.rest.length)

variable {r₀ : Source}

theorem Scans.after {α : Type} {m : ScanM α} {Q Q' : α → Prop} (h : Scans d m r Q)
    (hr : Ahead r₀ r) (hq : ∀ a, Q a → Q' a) :
    Paid (d + r.rest.length) m r (fun a r' => Ahead r₀ r' ∧ Q' a)
      (fun _ r' => d + r'.rest.length) :=
  h.weaken le_rfl fun a _ h => ⟨⟨hr.trans h.1, hq a h.2⟩, le_rfl⟩

theorem advance_scans (r : Source) (d : Nat) : Scans d (advance p rounds) r (fun _ => True) := by
  induction rounds generalizing r with
  | zero => exact .ret ⟨.refl r, trivial⟩ le_rfl
  | succ rounds ih =>
    refine .look_bind ?_
    split_ifs
    · exact next_bind ((ih r.advanced).after (advanced_ahead r) fun _ h => h)
    · exact .ret ⟨.refl r, trivial⟩ le_rfl

theorem advanceWhile_scans (r : Source) (d : Nat) : Scans d (advanceWhile p) r (fun _ => True) :=
  .look_bind (advance_scans p _ r d)

/-- A token whose text is no longer than `n`. -/
def Token.Within (n : Nat) (tok : Token) : Prop := tok.val.length ≤ n

variable (typ : TokenType)

theorem Token.plain_within (line col : Nat) : (Token.plain typ line col).Within n := Nat.zero_le _

theorem since_length (start : Text) (r : Source) :
    (r.since start).length ≤ start.length - r.rest.length := by
  unfold Source.since
  rw [List.length_take]
  exact Nat.min_le_left _ _

/-- The tokens that a step of the scanner gives are no longer than the input. -/
abbrev ScansToken (d : Nat) (m : ScanM Token) (r : Source) : Prop :=
  Scans d m r (Token.Within r.rest.length)

variable {m : ScanM Token} (buf : Text)

theorem ScansToken.after (h : ScansToken d m r) (hr : Ahead r₀ r) :
    Paid (d + r.rest.length) m r (fun tok r' => Ahead r₀ r' ∧ tok.Within r₀.rest.length)
      (fun _ r' => d + r'.rest.length) :=
  Scans.after h hr fun _ hw => hw.trans hr.length_le

theorem single_scans (line col : Nat) (r : Source) (d : Nat) :
    ScansToken d (single typ line col) r :=
  next_bind (Funded.ret ⟨advanced_ahead r, Token.plain_within _ _ _ _⟩ le_rfl)

theorem readWord_scans (line col : Nat) (p : UInt8 → Bool) (r : Source)
    (d : Nat) : ScansToken d (readWord typ line col p) r := by
  refine .look_bind ((advanceWhile_scans p r d).bind fun _ r' h => ?_)
  refine .look_bind (.ret ⟨h.1, ?_⟩ le_rfl)
  exact (since_length _ _).trans (Nat.sub_le _ _)

variable (r)

variable (d)

theorem readSign_scans : Scans d readSign r (fun _ => True) := by
  refine .look_bind ?_
  split_ifs
  · exact next_bind (.ret ⟨advanced_ahead r, trivial⟩ le_rfl)
  · exact .ret ⟨.refl r, trivial⟩ le_rfl

theorem readNumber_scans : ScansToken d (readNumber line col) r := by
  refine .look_bind ((readSign_scans r d).bind fun _ r₁ h₁ => ?_)
  refine (advanceWhile_scans _ r₁ d).bind fun _ r₂ h₂ => ?_
  refine .look_bind (.ret ⟨h₁.1.trans h₂.1, ?_⟩ le_rfl)
  exact (since_length _ _).trans (Nat.sub_le _ _)

theorem readKeyword_scans : ScansToken d (readKeyword line col) r :=
  next_bind ((readWord_scans .keyword line col isSymbolChar r.advanced d).after
    (advanced_ahead r))

theorem readTilde_scans : ScansToken d (readTilde line col) r := by
  refine next_bind (Funded.look_bind ?_)
  split_ifs
  · exact (single_scans .tildeAt line col r.advanced d).after (advanced_ahead r)
  · exact Funded.ret ⟨advanced_ahead r, Token.plain_within _ _ _ _⟩ le_rfl

theorem readHash_scans : ScansToken d (readHash line col) r := by
  refine next_bind (Funded.look_bind ?_)
  split_ifs
  · exact (single_scans .functionRef line col r.advanced d).after (advanced_ahead r)
  · exact (single_scans .hashParen line col r.advanced d).after (advanced_ahead r)
  · exact Funded.ret ⟨advanced_ahead r, Token.plain_within _ _ _ _⟩ le_rfl

variable {d}

variable {r}

theorem sameError_refl (e : GoErr) : SameError e e := .same e

theorem unterminated_paid {Q : Token → Source → Prop} {left : Token → Source → Nat} :
    Paid d unterminated r Q left :=
  .look_bind (.fail sameError_refl _)

theorem escaped_zero : escaped 0 = none := by decide

theorem written_length (ch : UInt8) (r : Source) :
    (if r.countOnly then buf else buf ++ [ch]).length ≤ buf.length + 1 := by
  split_ifs
  · exact Nat.le_succ _
  · rw [List.length_append, List.length_singleton]

theorem appendEscape_paid (r : Source) (d : Nat) : Paid (d + r.rest.length) (appendEscape buf) r
      (fun buf' r' => r' = r.advanced ∧ r.peek ≠ 0 ∧ buf'.length ≤ buf.length + 1)
      (fun _ r' => d + r'.rest.length) := by
  refine next_bind (.look_bind ?_)
  cases hch : escaped r.peek with
  | none => exact .fail sameError_refl _
  | some decoded =>
    have hne : r.peek ≠ 0 := by
      intro hzero
      rw [hzero, escaped_zero] at hch
      cases hch
    exact .of_free (fun _ => rfl) ⟨rfl, hne, written_length _ _ _⟩ le_rfl

/-- Where a string stands that began at `r₀`: what it has decoded to is among the bytes it
has passed. -/
structure InString (r₀ r : Source) (decoded : Nat) : Prop where
  ahead : Ahead r₀ r
  payload : r.copiedPayload + decoded + r.rest.length ≤ r₀.copiedPayload + r₀.rest.length
  length : decoded + r.rest.length ≤ r₀.rest.length

variable {decoded : Nat} {start : Text}

theorem InString.next (h : InString r₀ r decoded) (hne : r.peek ≠ 0) :
    InString r₀ r.advanced (decoded + 1) := by
  have hlen := advanced_length hne
  have hpayload : r.advanced.copiedPayload = r.copiedPayload := by
    unfold Source.advanced
    split
    · rfl
    · exact past_copiedPayload _ _ _
  refine ⟨h.ahead.trans (advanced_ahead r), ?_, ?_⟩
  · have := h.payload
    omega
  · have := h.length
    omega

theorem InString.pass (h : InString r₀ r decoded) : InString r₀ r.advanced decoded := by
  have hnext := advanced_ahead r
  refine ⟨h.ahead.trans hnext, ?_, ?_⟩
  · have := h.payload
    have := hnext.payload
    omega
  · have := h.length
    have := hnext.length_le
    omega

abbrev ScansString (d : Nat) (m : ScanM Token) (r₀ r : Source) : Prop :=
  Paid (d + r.rest.length) m r
    (fun tok r' => Ahead r₀ r' ∧ r'.rest.length ≤ r.rest.length ∧ tok.Within r₀.rest.length)
    (fun _ r' => d + r'.rest.length)

theorem finishEscaped_paid {buf : Text} (d : Nat) (hr : InString r₀ r decoded)
    (hbuf : buf.length ≤ decoded) :
    ScansString d (finishEscaped buf decoded line col) r₀ r := by
  refine Funded.look_bind ?_
  have hlength := hr.length
  split_ifs with hcount
  · refine Funded.update_bind (Funded.ret ⟨?_, le_rfl, Token.plain_within _ _ _ _⟩ le_rfl)
    exact ⟨hr.ahead.suffix, hr.ahead.flags, hr.ahead.countOnly, hr.payload⟩
  · refine Funded.ret ⟨hr.ahead, le_rfl, ?_⟩ le_rfl
    unfold Token.Within
    dsimp only
    omega

theorem readEscapes_paid {buf : Text} (d : Nat) (hr : InString r₀ r decoded)
    (hbuf : buf.length ≤ decoded) :
    ScansString d (readEscapes line col rounds buf decoded) r₀ r := by
  induction rounds generalizing buf decoded r with
  | zero => exact unterminated_paid
  | succ rounds ih =>
    have hstep {buf' : Text} {r' : Source} (hr' : InString r₀ r' (decoded + 1))
        (hlen : r'.rest.length ≤ r.rest.length) (hbuf' : buf'.length ≤ buf.length + 1) :
        Paid (d + r'.rest.length) (readEscapes line col rounds buf' (decoded + 1)) r'
          (fun tok r'' => Ahead r₀ r'' ∧ r''.rest.length ≤ r.rest.length ∧
            tok.Within r₀.rest.length) (fun _ r'' => d + r''.rest.length) :=
      (ih hr' (by omega)).weaken le_rfl fun _ _ h => ⟨⟨h.1, h.2.1.trans hlen, h.2.2⟩, le_rfl⟩
    have hnext := (advanced_ahead r).length_le
    refine next_bind ?_
    split_ifs with hzero hquote hback
    · exact unterminated_paid
    · exact (finishEscaped_paid line col d hr.pass hbuf).weaken le_rfl
        fun _ _ h => ⟨⟨h.1, h.2.1.trans hnext, h.2.2⟩, le_rfl⟩
    · refine (appendEscape_paid buf r.advanced d).bind fun buf' r' h => ?_
      obtain ⟨rfl, hne, hbuf'⟩ := h
      exact hstep (hr.pass.next hne) ((advanced_ahead _).length_le.trans hnext) hbuf'
    · exact .look_bind (hstep (hr.next hzero) hnext (written_length _ _ _))

theorem copyPrefix_paid (run : Text) (r : Source) (d : Nat) :
    Paid (d + run.length) (copyPrefix run) r
      (fun buf r' => r' = r ∧ buf.length ≤ run.length) (fun _ _ => d) := by
  refine .look_bind ?_
  split_ifs
  · exact .ret ⟨rfl, Nat.zero_le _⟩ (Nat.le_add_right _ _)
  · exact Funded.spend_bind (Budget.work_of_enough _) (Nat.le_add_left _ _)
      (.ret ⟨rfl, le_rfl⟩ (by omega))

theorem readStringEscaped_paid {run : Text} (d : Nat) (hr : InString r₀ r run.length) :
    Paid (d + r.rest.length + run.length) (readStringEscaped line col run) r
      (fun tok r' => Ahead r₀ r' ∧ r'.rest.length ≤ r.rest.length ∧ tok.Within r₀.rest.length)
      (fun _ r' => d + r'.rest.length) := by
  refine (copyPrefix_paid run r _).bind fun buf r₁ h₁ => ?_
  obtain ⟨rfl, hbuf⟩ := h₁
  refine (appendEscape_paid buf r₁ d).bind fun buf' r₂ h₂ => ?_
  obtain ⟨rfl, hne, hbuf'⟩ := h₂
  refine .look_bind ?_
  refine (readEscapes_paid line col _ d (hr.next hne) (by omega)).weaken le_rfl fun _ _ h => ?_
  exact ⟨⟨h.1, h.2.1.trans (advanced_ahead r₁).length_le, h.2.2⟩, le_rfl⟩

theorem run_length (h : r.rest.length ≤ start.length) :
    (r.since start).dropLast.length + r.rest.length ≤ start.length := by
  have := since_length start r
  rw [List.length_dropLast]
  omega

theorem readRun_paid (d : Nat) (hr : Ahead r₀ r)
    (hrest : r.rest.length ≤ start.length) (hstart : start.length ≤ r₀.rest.length)
    (hpayload : r.copiedPayload + start.length ≤ r₀.copiedPayload + r₀.rest.length) :
    Paid (d + start.length + r.rest.length) (readRun line col start rounds) r
      (fun tok r' => Ahead r₀ r' ∧ tok.Within r₀.rest.length)
      (fun _ r' => d + r'.rest.length + r'.rest.length) := by
  induction rounds generalizing r with
  | zero => exact unterminated_paid
  | succ rounds ih =>
    have hnext := advanced_ahead r
    have hrest' := hnext.length_le.trans hrest
    have hsame : r.advanced.copiedPayload = r.copiedPayload := by
      unfold Source.advanced
      split
      · rfl
      · exact past_copiedPayload _ _ _
    have hrun := run_length hrest'
    refine next_bind (.look_bind ?_)
    split_ifs with hzero hquote hback
    · exact unterminated_paid
    · refine .ret ⟨hr.trans hnext, ?_⟩ (by omega)
      unfold Token.Within
      dsimp only
      omega
    · have hin : InString r₀ r.advanced (r.advanced.since start).dropLast.length :=
        ⟨hr.trans hnext, by omega, by omega⟩
      refine (readStringEscaped_paid line col
        (d + (start.length - (r.advanced.since start).dropLast.length)) hin).weaken (by omega)
        fun _ r' h => ⟨⟨h.1, h.2.2⟩, ?_⟩
      have := h.2.1
      omega
    · exact ih (hr.trans hnext) hrest' (by omega)

/-- What the scanner guarantees at two units for each byte it passes. -/
abbrev ScansTwice (d : Nat) (m : ScanM Token) (r : Source) : Prop :=
  Paid (d + r.rest.length + r.rest.length) m r
    (fun tok r' => Ahead r r' ∧ tok.Within r.rest.length)
    (fun _ r' => d + r'.rest.length + r'.rest.length)

theorem ScansToken.twice (h : ScansToken (d + r.rest.length) m r) : ScansTwice d m r := by
  refine h.weaken le_rfl fun _ r' h => ⟨h, ?_⟩
  have := h.1.length_le
  omega

theorem readString_scans (r : Source) (d : Nat) : ScansTwice d (readString line col) r := by
  have hnext := advanced_ahead r
  refine next_bind (.look_bind ?_)
  refine (readRun_paid line col _ d hnext le_rfl hnext.length_le hnext.payload).of_le ?_
  have := hnext.length_le
  omega

theorem scanHere_scans (r : Source) (d : Nat) : ScansTwice d (scanHere r) r := by
  have hsingle (typ : TokenType) : ScansTwice d (single typ r.line r.col) r :=
    (single_scans typ r.line r.col r _).twice
  unfold scanHere
  refine .ite (fun _ => hsingle _) fun _ => ?_
  refine .ite (fun _ => hsingle _) fun _ => ?_
  refine .ite (fun _ => .ite (fun _ => hsingle _)
    fun _ => .fail sameError_refl _) fun _ => ?_
  refine .ite (fun _ => hsingle _) fun _ => ?_
  refine .ite (fun _ => hsingle _) fun _ => ?_
  refine .ite (fun _ => (readTilde_scans _ _ _ _).twice) fun _ => ?_
  refine .ite (fun _ => hsingle _) fun _ => ?_
  refine .ite (fun _ => (readHash_scans _ _ _ _).twice) fun _ => ?_
  refine .ite (fun _ => readString_scans _ _ _ _) fun _ => ?_
  refine .ite (fun _ => (readKeyword_scans _ _ _ _).twice) fun _ => ?_
  refine .ite (fun _ => (readNumber_scans _ _ _ _).twice) fun _ => ?_
  exact .ite (fun _ => (readWord_scans _ _ _ _ _ _).twice)
    fun _ => .fail sameError_refl _

theorem advanceWhile_twice (r : Source) (d : Nat) :
    Paid (d + r.rest.length + r.rest.length) (advanceWhile p) r (fun _ r' => Ahead r r')
      (fun _ r' => d + r'.rest.length + r'.rest.length) := by
  refine (advanceWhile_scans p r (d + r.rest.length)).weaken le_rfl fun _ r' h => ⟨h.1, ?_⟩
  have := h.1.length_le
  omega

theorem ScansTwice.after (h : ScansTwice d m r) (hr : Ahead r₀ r) :
    Paid (d + r.rest.length + r.rest.length) m r
      (fun tok r' => Ahead r₀ r' ∧ tok.Within r₀.rest.length)
      (fun _ r' => d + r'.rest.length + r'.rest.length) :=
  h.weaken le_rfl fun _ _ h => ⟨⟨hr.trans h.1, h.2.trans hr.length_le⟩, le_rfl⟩

theorem scanRounds_scans (r : Source) (d : Nat) : ScansTwice d (scanRounds rounds) r := by
  induction rounds generalizing r with
  | zero => exact Funded.of_free (fun _ => rfl) ⟨Ahead.refl r, Token.plain_within _ _ _ _⟩ le_rfl
  | succ rounds ih =>
    refine (advanceWhile_twice _ r d).bind fun _ r₁ h₁ => Funded.look_bind ?_
    dsimp only [id]
    split_ifs
    · exact Funded.ret ⟨h₁, Token.plain_within _ _ _ _⟩ le_rfl
    · refine (advanceWhile_twice _ r₁ d).bind fun _ r₂ h₂ => ?_
      exact (ih r₂).after (h₁.trans h₂)
    · exact (scanHere_scans r₁ d).after h₁

theorem nextToken_scans (r : Source) (d : Nat) : ScansTwice d nextToken r :=
  .outranked (fun _ _ h => h.sound) (.look_bind (scanRounds_scans _ r d))

/-- The counting pass, when the headroom covers the tokens that the rounds left may add and
the bytes that the input left may decode to. -/
theorem countRounds_paid {headroom : Nat} (hsmall : headroom ≤ maxInt64) (rounds n : Nat)
    (r : Source) (d : Nat)
    (hplan : (n + rounds) * readerTokenUnitBytes + (r.copiedPayload + r.rest.length) ≤ headroom) :
    Paid (d + r.rest.length + r.rest.length) (countRounds headroom rounds n) r
      (fun k r' => k ≤ n + rounds ∧ r'.copiedPayload ≤ r.copiedPayload + r.rest.length ∧
        r'.flags = r.flags)
      (fun _ _ => d) := by
  induction rounds generalizing n r with
  | zero => exact Funded.ret ⟨le_rfl, Nat.le_add_right _ _, rfl⟩ (by omega)
  | succ rounds ih =>
    refine (nextToken_scans r d).bind fun tok r' h => Funded.look_bind ?_
    have hpayload := h.1.payload
    unfold readerTokenUnitBytes at *
    refine Funded.spend_bind (c := 0) (fun rest b hb => ?_) (Nat.zero_le _) ?_
    · rw [Nat.zero_add] at hb
      refine ⟨b, Budget.checkPlan_of_enough ?_ hsmall hb, hb⟩
      unfold readerTokenUnitBytes
      omega
    · refine Funded.ite
        (fun _ => Funded.ret ⟨by omega, by omega, h.1.flags⟩ (by omega)) fun _ => ?_
      refine (ih (n + 1) r' (by omega)).weaken le_rfl fun _ _ h' => ?_
      exact ⟨⟨by omega, by omega, h'.2.2.trans h.1.flags⟩, le_rfl⟩

end Reader

end Lispico
