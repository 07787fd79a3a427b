import Lispico.Reader.Lexemes

/-!
# Scanning printed values

The scanner takes the text of each lexeme off the input and leaves what follows it, as long
as what follows cannot be a part of it: a space or a closing bracket, or the end.
-/

namespace Lispico

namespace Reader

open Lispico.Core Lib Guarded List

/-- A scanner of the identity dialect that keeps its tokens, at the start of a text. -/
structure At (t : Text) (r : Source) : Prop where
  rest : r.rest = t
  flags : r.flags = defaultReaderFlags
  keeps : r.countOnly = false

/-- Where `skipWhitespace` goes on. -/
def isSkipped (ch : UInt8) : Bool := ch != 0 && (isWhitespace ch || ch == byte ',')

structure Before (t : Text) (r : Source) : Prop where
  rest : ∃ blank, r.rest = blank ++ t ∧ blank.all isSkipped
  flags : r.flags = defaultReaderFlags
  keeps : r.countOnly = false

variable {t : Text} {r : Source}

theorem At.before (h : At t r) : Before t r :=
  ⟨⟨[], h.rest, rfl⟩, h.flags, h.keeps⟩

theorem At.before_space (h : At (byte ' ' :: t) r) : Before t r :=
  ⟨⟨[byte ' '], h.rest, by decide⟩, h.flags, h.keeps⟩

theorem At.peek (h : At t r) : r.peek = t.headD 0 := by
  unfold Source.peek
  rw [h.rest]

variable {ch : UInt8} {start : Text}

theorem At.next (h : At (ch :: t) r) : Yields next r ch (At t) := by
  refine ⟨r.past ch t, by simp only [Reader.next, h.rest, spend_none], past_rest r ch t, ?_, ?_⟩
  · rw [past_flags, h.flags]
  · rw [past_countOnly, h.keeps]

theorem since_eq (passed : Text) (h : start = passed ++ r.rest) : r.since start = passed := by
  unfold Source.since
  rw [h, length_append, Nat.add_sub_cancel_right, take_left']
  rfl

variable {p : UInt8 → Bool} {run rest : Text} (line col : Nat) (typ : TokenType) {l : Lexeme}
  (v : Int64)

theorem advance_yields (rounds : Nat) (hr : At (run ++ rest) r) (hrun : run.all p)
    (hrest : p (rest.headD 0) = false) (hrounds : run.length ≤ rounds) :
    Yields (advance p rounds) r () (At rest) := by
  induction run generalizing rounds r with
  | nil =>
    cases rounds with
    | zero => exact .ret hr
    | succ rounds =>
      refine .look_bind ?_
      rw [hr.peek, nil_append, hrest]
      exact .ret hr
  | cons ch run ih =>
    cases rounds with
    | zero => exact absurd hrounds (Nat.not_succ_le_zero _)
    | succ rounds =>
      rw [all_cons, Bool.and_eq_true] at hrun
      refine .look_bind ?_
      rw [hr.peek, cons_append, headD_cons, hrun.1]
      refine hr.next.bind fun r' hr' => ?_
      exact ih rounds hr' hrun.2 (Nat.le_of_succ_le_succ hrounds)

theorem advanceWhile_yields (hr : At (run ++ rest) r) (hrun : run.all p)
    (hrest : p (rest.headD 0) = false) :
    Yields (advanceWhile p) r () (At rest) := by
  refine .look_bind (advance_yields _ hr hrun hrest ?_)
  rw [hr.rest, length_append]
  exact Nat.le_add_right _ _

/-- A step of the scanner that gives a token with this lexeme and leaves this input. -/
def Scanned (m : ScanM Token) (r : Source) (l : Lexeme) (t : Text) : Prop :=
  ∃ tok, tok.lexeme = l ∧ Yields m r tok (At t)

theorem Scanned.after {α : Type} {m : ScanM α} {a : α} {k : α → ScanM Token} {Q : Source → Prop}
    (h : Yields m r a Q) (hk : ∀ r', Q r' → Scanned (k a) r' l t) :
    Scanned (m >>= k) r l t := by
  obtain ⟨r', hrun, hq⟩ := h
  obtain ⟨tok, hl, r'', hrun', hr''⟩ := hk r' hq
  exact ⟨tok, hl, r'', (bind_of_ok k hrun).trans hrun', hr''⟩

theorem single_scanned (line col : Nat) (hr : At (ch :: t) r) :
    Scanned (single typ line col) r (typ, []) t :=
  .after hr.next fun _ hr' => ⟨_, rfl, .ret hr'⟩

theorem readWord_scanned (line col : Nat) (hr : At (run ++ rest) r)
    (hrun : run.all p) (hrest : p (rest.headD 0) = false) :
    Scanned (readWord typ line col p) r (typ, run) rest := by
  refine ⟨⟨typ, false, run, line, col⟩, rfl, .look_bind ?_⟩
  refine (advanceWhile_yields hr hrun hrest).bind fun r' hr' => .look_bind ?_
  rw [since_eq run (by rw [hr.rest, hr'.rest])]
  exact .ret hr'

theorem readKeyword_scanned (hr : At (byte ':' :: (run ++ rest)) r)
    (hrun : run.all isSymbolChar) (hrest : isSymbolChar (rest.headD 0) = false) :
    Scanned (readKeyword line col) r (.keyword, run) rest :=
  .after hr.next fun _ hr' => readWord_scanned .keyword line col hr' hrun hrest

theorem not_number_of_not_symbolChar (h : isSymbolChar ch = false) :
    (isDigit ch || ch == byte '.') = false := by
  unfold isSymbolChar at h
  simp only [Bool.or_eq_false_iff] at h
  have hdot : ch ≠ byte '.' := by
    rintro rfl
    exact absurd h.1.1.1 (by decide)
  rw [h.1.1.2, Bool.false_or, beq_eq_false_iff_ne]
  exact hdot

theorem decimal_run (n : Nat) : (decimal n).all fun ch => isDigit ch || ch == byte '.' := by
  rw [all_eq_true]
  intro ch hch
  rw [decimal_digits n ch hch]
  rfl

theorem readNumber_scanned (hr : At (formatInt v ++ rest) r)
    (hrest : isSymbolChar (rest.headD 0) = false) :
    Scanned (readNumber line col) r (.number, formatInt v) rest := by
  have hend := not_number_of_not_symbolChar hrest
  refine ⟨⟨.number, false, formatInt v, line, col⟩, rfl, .look_bind ?_⟩
  have hsign : Yields readSign r () (At (decimal v.toInt.natAbs ++ rest)) := by
    refine .look_bind ?_
    unfold formatInt at hr
    by_cases hneg : v.toInt < 0
    · rw [if_pos hneg] at hr
      rw [hr.peek, cons_append, headD_cons, if_pos rfl]
      exact hr.next.bind fun _ hr' => .ret hr'
    · rw [if_neg hneg] at hr
      rw [hr.peek, if_neg]
      · exact .ret hr
      · obtain ⟨ch, digits, hdigits⟩ := exists_cons_of_ne_nil (decimal_ne_nil v.toInt.natAbs)
        rw [hdigits, cons_append, headD_cons]
        rintro rfl
        have hdigit := decimal_digits v.toInt.natAbs (byte '-')
          (by rw [hdigits]; exact mem_cons_self)
        exact absurd hdigit (by decide)
  refine hsign.bind fun r₁ hr₁ => ?_
  refine (advanceWhile_yields hr₁ (decimal_run _) hend).bind fun r₂ hr₂ => .look_bind ?_
  rw [since_eq (formatInt v) (by rw [hr.rest, hr₂.rest])]
  exact .ret hr₂

theorem escape_cases (ch : UInt8) : (escape ch = [ch] ∧ ch ≠ byte '"' ∧ ch ≠ byte '\\') ∨
      ∃ letter, escape ch = [byte '\\', letter] ∧ escaped letter = some ch := by
  unfold escape
  split_ifs with h₁ h₂ h₃ h₄ h₅
  · exact .inr ⟨_, rfl, by rw [h₁]; decide⟩
  · exact .inr ⟨_, rfl, by rw [h₂]; decide⟩
  · exact .inr ⟨_, rfl, by rw [h₃]; decide⟩
  · exact .inr ⟨_, rfl, by rw [h₄]; decide⟩
  · exact .inr ⟨_, rfl, by rw [h₅]; decide⟩
  · exact .inl ⟨rfl, h₃, h₄⟩

theorem writeByte_yields (hr : At t r) (buf : Text) (ch : UInt8) :
    Yields (writeByte buf ch) r (buf ++ [ch]) (At t) := by
  refine ⟨r, ?_, hr⟩
  simp only [writeByte, look_apply, hr.keeps]
  rfl

theorem appendEscape_yields {letter : UInt8} (hr : At (letter :: t) r)
    (hletter : escaped letter = some ch) (buf : Text) :
    Yields (appendEscape buf) r (buf ++ [ch]) (At t) := by
  refine hr.next.bind fun r' hr' => Yields.look_bind ?_
  rw [hletter]
  exact writeByte_yields hr' buf ch

variable {s : Text}

theorem readEscapes_yields (line col rounds : Nat) (hs : 0 ∉ s) (buf : Text) (decoded : Nat)
    (hr : At (s.flatMap escape ++ byte '"' :: rest) r) (hrounds : s.length < rounds) :
    Yields (readEscapes line col rounds buf decoded) r ⟨.string, true, buf ++ s, line, col⟩
      (At rest) := by
  induction s generalizing rounds buf decoded r with
  | nil =>
    obtain ⟨rounds, rfl⟩ := Nat.exists_eq_succ_of_ne_zero (Nat.ne_of_gt hrounds)
    refine hr.next.bind fun r' hr' => ?_
    rw [if_neg (by decide), if_pos rfl, append_nil]
    refine .look_bind ?_
    rw [hr'.keeps]
    exact .ret hr'
  | cons ch s ih =>
    obtain ⟨rounds, rfl⟩ := Nat.exists_eq_succ_of_ne_zero (Nat.ne_zero_of_lt hrounds)
    have hne : ch ≠ 0 := fun h => hs (h ▸ mem_cons_self)
    have hs' : 0 ∉ s := fun h => hs (mem_cons_of_mem _ h)
    have hlen : s.length < rounds := Nat.lt_of_succ_lt_succ hrounds
    have happend : buf ++ ch :: s = buf ++ [ch] ++ s := by simp
    rw [happend]
    rw [flatMap_cons, append_assoc] at hr
    rcases escape_cases ch with ⟨hplain, hquote, hback⟩ | ⟨letter, hesc, hletter⟩
    · rw [hplain] at hr
      refine hr.next.bind fun r' hr' => ?_
      rw [if_neg hne, if_neg hquote, if_neg hback]
      exact (writeByte_yields hr' buf ch).bind fun _ hr'' => ih rounds hs' _ _ hr'' hlen
    · rw [hesc] at hr
      refine hr.next.bind fun r' hr' => ?_
      rw [if_neg (by decide), if_neg (by decide), if_pos rfl]
      exact (appendEscape_yields hr' hletter buf).bind fun _ hr'' =>
        ih rounds hs' _ _ hr'' hlen

theorem escapes_length (s : Text) : s.length ≤ (s.flatMap escape).length := by
  induction s with
  | nil => exact le_rfl
  | cons ch s ih =>
    rw [flatMap_cons, length_append, length_cons]
    rcases escape_cases ch with ⟨hplain, -⟩ | ⟨letter, hesc, -⟩
    · rw [hplain, length_singleton]
      omega
    · rw [hesc, length_cons, length_singleton]
      omega

theorem readRun_scanned (line col rounds : Nat) (hs : 0 ∉ s) (run : Text)
    (hr : At (s.flatMap escape ++ byte '"' :: rest) r) (hstart : start = run ++ r.rest)
    (hrounds : s.length < rounds) :
    Scanned (readRun line col start rounds) r (.string, run ++ s) rest := by
  induction s generalizing rounds run r with
  | nil =>
    obtain ⟨rounds, rfl⟩ := Nat.exists_eq_succ_of_ne_zero (Nat.ne_of_gt hrounds)
    refine .after hr.next fun r' hr' => ?_
    have hrun : (r'.since start).dropLast = run := by
      rw [since_eq (run ++ [byte '"']) (by rw [hstart, hr.rest, hr'.rest]; simp)]
      exact dropLast_concat
    refine ⟨⟨.string, false, run, line, col⟩, by simp [Token.lexeme], .look_bind ?_⟩
    rw [if_neg (by decide), if_pos rfl, hrun]
    exact .ret hr'
  | cons ch s ih =>
    obtain ⟨rounds, rfl⟩ := Nat.exists_eq_succ_of_ne_zero (Nat.ne_zero_of_lt hrounds)
    have hne : ch ≠ 0 := fun h => hs (h ▸ mem_cons_self)
    have hs' : 0 ∉ s := fun h => hs (mem_cons_of_mem _ h)
    have happend : run ++ ch :: s = run ++ [ch] ++ s := by simp
    rw [happend]
    rw [flatMap_cons, append_assoc] at hr
    rcases escape_cases ch with ⟨hplain, hquote, hback⟩ | ⟨letter, hesc, hletter⟩
    · rw [hplain] at hr
      refine .after hr.next fun r' hr' => .after (Q := At _) ⟨r', rfl, hr'⟩ fun r' hr' => ?_
      rw [if_neg hne, if_neg hquote, if_neg hback]
      refine ih rounds hs' (run ++ [ch]) hr' ?_ (Nat.lt_of_succ_lt_succ hrounds)
      rw [hstart, hr.rest, hr'.rest]
      simp
    · -- The first escape: the run so far is copied and the rest decoded.
      rw [hesc] at hr
      refine .after hr.next fun r' hr' => ?_
      have hrun : (r'.since start).dropLast = run := by
        rw [since_eq (run ++ [byte '\\']) (by rw [hstart, hr.rest, hr'.rest]; simp)]
        exact dropLast_concat
      refine ⟨⟨.string, true, run ++ [ch] ++ s, line, col⟩, rfl, .look_bind ?_⟩
      rw [if_neg (by decide), if_neg (by decide), if_pos rfl, hrun]
      have hcopy : Yields (copyPrefix run) r' run (At (letter :: (s.flatMap escape ++
          byte '"' :: rest))) := by
        refine Yields.look_bind ?_
        rw [hr'.keeps]
        exact Yields.spend_bind (Yields.ret hr')
      refine hcopy.bind fun r₁ hr₁ => (appendEscape_yields hr₁ hletter run).bind fun r₂ hr₂ => ?_
      refine Yields.look_bind (readEscapes_yields line col _ hs' _ _ hr₂ ?_)
      have := escapes_length s
      rw [hr₂.rest, List.length_append]
      omega

theorem readString_scanned (hs : 0 ∉ s) (hr : At (quoted s ++ rest) r) :
    Scanned (readString line col) r (.string, s) rest := by
  have hr₀ : At (byte '"' :: (s.flatMap escape ++ byte '"' :: rest)) r := by
    refine ⟨?_, hr.flags, hr.keeps⟩
    rw [hr.rest]
    simp [quoted]
  refine .after hr₀.next fun r' hr' => .after (Q := At _) ⟨r', rfl, hr'⟩ fun r₁ hr₁ => ?_
  rw [show s = [] ++ s from rfl]
  refine readRun_scanned line col _ hs [] hr₁ ?_ ?_
  · rw [List.nil_append, hr'.rest, hr₁.rest]
  · have := escapes_length s
    rw [hr'.rest, List.length_append]
    omega

theorem nextToken_scanned {t' : Text} (hr : Before (ch :: t) r)
    (hskip : isSkipped ch = false) (hsemi : ch ≠ byte ';')
    (h : ∀ r', At (ch :: t) r' → Scanned (scanHere r') r' l t') : Scanned nextToken r l t' := by
  obtain ⟨blank, hrest, hblank⟩ := hr.rest
  have hat : At (blank ++ ch :: t) r := ⟨hrest, hr.flags, hr.keeps⟩
  obtain ⟨r₁, hrun, hr₁⟩ := advanceWhile_yields hat hblank (by rw [List.headD_cons]; exact hskip)
  obtain ⟨tok, hl, htok⟩ := h r₁ hr₁
  refine ⟨tok, hl, Yields.outranked (Yields.look_bind ?_)⟩
  refine Yields.bind (m := skipWhitespace) (Q := fun r' => r' = r₁) ⟨r₁, hrun, rfl⟩
    fun r' heq => ?_
  subst heq
  refine Yields.look_bind ?_
  rw [id, hr₁.rest, hr₁.peek, if_neg (List.cons_ne_nil _ _), List.headD_cons, if_neg hsemi]
  exact htok

theorem nextToken_eof (hr : At [] r) :
    ∃ tok, tok.typ = .eof ∧ Yields nextToken r tok (At []) := by
  obtain ⟨r₁, hrun, hr₁⟩ := advanceWhile_yields (p := isSkipped)
    (show At ([] ++ []) r from hr) rfl rfl
  refine ⟨Token.plain .eof r₁.line r₁.col, rfl, Yields.outranked (Yields.look_bind ?_)⟩
  refine Yields.bind (m := skipWhitespace) (Q := fun r' => r' = r₁) ⟨r₁, hrun, rfl⟩
    fun r' heq => ?_
  subst heq
  refine Yields.look_bind ?_
  rw [id, hr₁.rest, if_pos rfl]
  exact Yields.ret hr₁

section

variable {t : Text} {r : Source}

theorem lParen_scanned (hr : Before (byte '(' :: t) r) : Scanned nextToken r (.lParen, []) t := by
  refine nextToken_scanned hr (by decide) (by decide) fun r' hr' => ?_
  rw [scanHere, hr'.peek]
  exact single_scanned _ _ _ hr'

theorem rParen_scanned (hr : Before (byte ')' :: t) r) : Scanned nextToken r (.rParen, []) t := by
  refine nextToken_scanned hr (by decide) (by decide) fun r' hr' => ?_
  rw [scanHere, hr'.peek]
  exact single_scanned _ _ _ hr'

variable {ch : UInt8} {name : Text}

theorem bracket_scanned
    (hch : ch = byte '[' ∨ ch = byte ']' ∨ ch = byte '\x7b' ∨ ch = byte '\x7d')
    (hr : Before (ch :: t) r) : Scanned nextToken r (bracketToken ch, []) t := by
  have hplain : isSkipped ch = false ∧ ch ≠ byte ';' ∧ ch ≠ byte '(' ∧ ch ≠ byte ')' := by
    rcases hch with rfl | rfl | rfl | rfl <;> decide
  refine nextToken_scanned hr hplain.1 hplain.2.1 fun r' hr' => ?_
  unfold scanHere
  rw [hr'.peek, List.headD_cons, if_neg hplain.2.2.1, if_neg hplain.2.2.2, if_pos hch, hr'.flags,
    if_pos (by decide)]
  exact single_scanned _ _ _ hr'

theorem string_scanned {s : Text} (hs : 0 ∉ s) (hr : Before (quoted s ++ t) r) :
    Scanned nextToken r (.string, s) t := by
  refine nextToken_scanned hr (by decide) (by decide) fun r' hr' => ?_
  rw [scanHere, hr'.peek]
  exact readString_scanned _ _ hs hr'

theorem keyword_scanned (hname : name.all isSymbolChar)
    (ht : isSymbolChar (t.headD 0) = false) (hr : Before (byte ':' :: name ++ t) r) :
    Scanned nextToken r (.keyword, name) t := by
  refine nextToken_scanned hr (by decide) (by decide) fun r' hr' => ?_
  rw [scanHere, hr'.peek]
  exact readKeyword_scanned _ _ hr' hname ht

/-- The bytes that the scanner looks for before it comes to numbers and symbols. -/
def marks : List UInt8 :=
  [byte '(', byte ')', byte '[', byte ']', byte '\x7b', byte '\x7d', byte '\'', backtick,
    byte '~', byte '@', byte '#', byte '"', byte ':']

def blanks : List UInt8 := [byte ' ', byte '\t', byte '\n', byte '\r', byte ',']

theorem mem_blanks (h : isSkipped ch = true) : ch ∈ blanks := by
  unfold isSkipped isWhitespace at h
  simp only [Bool.and_eq_true, Bool.or_eq_true, beq_iff_eq] at h
  simp only [blanks, mem_cons, not_mem_nil, or_false]
  tauto

theorem clear_of_class {q : UInt8 → Bool} (hch : q ch = true) (hmarks : ∀ d ∈ marks, q d = false)
    (hblanks : ∀ d ∈ blanks, q d = false) (hsemi : q (byte ';') = false) :
    ch ∉ marks ∧ isSkipped ch = false ∧ ch ≠ byte ';' := by
  have hne (d : UInt8) (hd : q d = false) : ch ≠ d := by
    rintro rfl
    rw [hd] at hch
    cases hch
  refine ⟨fun h => hne ch (hmarks ch h) rfl, ?_, hne _ hsemi⟩
  cases h : isSkipped ch with
  | false => rfl
  | true => exact absurd rfl (hne ch (hblanks ch (mem_blanks h)))

theorem digit_mem (h : isDigit ch = true) :
    ch ∈ (List.range 10).map fun d => UInt8.ofNat (d + 48) := by
  unfold isDigit at h
  simp only [Bool.and_eq_true, decide_eq_true_eq, UInt8.le_iff_toNat_le] at h
  have hlow : 48 ≤ ch.toNat := h.1
  have hhigh : ch.toNat ≤ 57 := h.2
  refine List.mem_map.mpr ⟨ch.toNat - 48, List.mem_range.mpr (by omega), ?_⟩
  rw [Nat.sub_add_cancel hlow, UInt8.ofNat_toNat]

theorem symbolStart_not_digit (h : isSymbolStart ch = true) : isDigit ch = false := by
  cases hd : isDigit ch with
  | false => rfl
  | true =>
    have hall : ∀ d ∈ (List.range 10).map fun d => .ofNat (d + 48),
        isSymbolStart d = false := by decide +kernel
    rw [hall ch (digit_mem hd)] at h
    cases h

theorem scanHere_of_not_mark {r' : Source} (hr' : At (ch :: t) r') (hch : ch ∉ marks) :
    scanHere r' =
      if isDigit ch ∨ (ch = byte '-' ∧ isDigit (t.headD 0)) then readNumber r'.line r'.col
      else if isSymbolStart ch then readSymbol r'.line r'.col
      else fail (newReadError ("unexpected character: " ++ percentC ch) r'.line r'.col) := by
  have hnext : r'.peekNext = t.headD 0 := by
    unfold Source.peekNext
    rw [hr'.rest, tail_cons]
  simp only [marks, mem_cons, not_mem_nil, or_false, not_or] at hch
  simp only [scanHere, hr'.peek, headD_cons, hnext, hch, or_self, if_false]

theorem symbol_scanned (hname : SymbolName name)
    (ht : isSymbolChar (t.headD 0) = false) (hr : Before (name ++ t) r) :
    Scanned nextToken r (.symbol, name) t := by
  obtain ⟨ch, rest, rfl, hstart, htilde, hrest, hsign⟩ := hname
  have hclass : (isSymbolStart ch && ch != byte '~') = true := by
    rw [hstart, Bool.true_and, bne_iff_ne]
    exact htilde
  obtain ⟨hmark, hskip, hsemi⟩ := clear_of_class (q := fun d => isSymbolStart d && d != byte '~')
    hclass (by decide +kernel) (by decide +kernel) (by decide +kernel)
  refine nextToken_scanned hr hskip hsemi fun r' hr' => ?_
  rw [scanHere_of_not_mark hr' hmark, if_neg, if_pos hstart]
  · refine readWord_scanned .symbol _ _ hr' ?_ ht
    rw [all_cons, hrest, Bool.and_true]
    unfold isSymbolChar
    rw [hstart]
    rfl
  · rintro (h | ⟨h, hd⟩)
    · rw [symbolStart_not_digit hstart] at h
      cases h
    · cases rest with
      | nil =>
        -- What follows the name would be a digit of it.
        change isDigit (t.headD 0) = true at hd
        unfold isSymbolChar at ht
        rw [hd, Bool.or_true, Bool.true_or, Bool.true_or] at ht
        cases ht
      | cons ch' rest => exact hsign ⟨h, hd⟩

theorem number_scanned (ht : isSymbolChar (t.headD 0) = false)
    (hr : Before (formatInt v ++ t) r) : Scanned nextToken r (.number, formatInt v) t := by
  obtain ⟨ch, rest, hcons⟩ := exists_cons_of_ne_nil (decimal_ne_nil v.toInt.natAbs)
  have hch : isDigit ch = true :=
    decimal_digits v.toInt.natAbs ch (by rw [hcons]; exact mem_cons_self)
  have hread (r' : Source) (hr' : At (formatInt v ++ t) r') :
      Scanned (readNumber r'.line r'.col) r' (.number, formatInt v) t :=
    readNumber_scanned _ _ v hr' ht
  unfold formatInt at hr hread ⊢
  rw [hcons] at hr hread ⊢
  by_cases hneg : v.toInt < 0
  · rw [if_pos hneg] at hr hread ⊢
    refine nextToken_scanned hr (by decide) (by decide) fun r' hr' => ?_
    rw [scanHere_of_not_mark hr' (by decide), if_pos (.inr ⟨rfl, hch⟩)]
    exact hread r' hr'
  · rw [if_neg hneg] at hr hread ⊢
    obtain ⟨hmark, hskip, hsemi⟩ := clear_of_class hch (by decide +kernel) (by decide +kernel)
      (by decide +kernel)
    refine nextToken_scanned hr hskip hsemi fun r' hr' => ?_
    rw [scanHere_of_not_mark hr' hmark, if_pos (.inl hch)]
    exact hread r' hr'

end

end Reader

end Lispico
