import Lispico.Reader.LexPrinted
import Mathlib

/-!
# Reading what was printed

The parser turns the lexemes of a value back into the value, by induction on it. So reading a
printed value gives that value, unless one of its symbols is a word that the reader takes for a
constant.
-/

namespace Lispico

namespace Reader

open Lispico.Core Lib Guarded List

theorem textLess_asymm {s t : Text} (h : textLess s t = true) : textLess t s = false := by
  induction s generalizing t with
  | nil =>
    cases t with
    | nil => cases h
    | cons b t => rfl
  | cons a s ih =>
    cases t with
    | nil => cases h
    | cons b t =>
      unfold textLess at h ⊢
      simp only [Bool.or_eq_true, decide_eq_true_eq, Bool.and_eq_true, beq_iff_eq] at h
      simp only [Bool.or_eq_false_iff, decide_eq_false_iff_not, Bool.and_eq_false_iff,
        beq_eq_false_iff_ne]
      rcases h with hlt | ⟨rfl, hrest⟩
      · exact ⟨UInt8.lt_asymm hlt, .inl (UInt8.ne_of_lt hlt).symm⟩
      · exact ⟨UInt8.lt_irrefl a, .inr (ih hrest)⟩

variable {hk : DatumKey} {other : DatumKey} {m : MapLit}

theorem less_asymm (h : hk.less other = true) : other.less hk = false := by
  unfold DatumKey.less at h ⊢
  by_cases htyp : hk.typ = other.typ
  · rw [if_neg (not_not.mpr htyp)] at h
    rw [if_neg (not_not.mpr htyp.symm)]
    by_cases hnum : hk.num = other.num
    · rw [if_neg (not_not.mpr hnum)] at h
      rw [if_neg (not_not.mpr hnum.symm)]
      exact textLess_asymm h
    · rw [if_pos hnum, decide_eq_true_eq] at h
      rw [if_pos (.symm hnum), decide_eq_false_iff_not]
      exact UInt64.lt_asymm h
  · rw [if_pos htyp, decide_eq_true_eq] at h
    rw [if_pos (.symm htyp), decide_eq_false_iff_not]
    exact Nat.lt_asymm h

theorem less_ne (h : hk.less other = true) : hk ≠ other := by
  rintro rfl
  rw [less_asymm h] at h
  cases h

theorem findFrom_after (es : List MapEntry) (i : Nat) (h : ∀ e ∈ es, e.hk.less hk = true) :
    findFrom hk es i = (i + es.length, false) := by
  induction es generalizing i with
  | nil => rfl
  | cons e es ih =>
    have he := h e mem_cons_self
    rw [findFrom, if_neg (less_ne he), less_asymm he, if_neg Bool.false_ne_true,
      ih (i + 1) fun e' hmem => h e' (mem_cons_of_mem _ hmem), length_cons]
    exact Prod.ext (by dsimp only; omega) rfl

theorem put_after {e : MapEntry} (h : ∀ e' ∈ m.entries, e'.hk.less e.hk = true) :
    (m.find e.hk).2 = false ∧ m.put e = m.entries ++ [e] := by
  have hfind : m.find e.hk = (m.entries.length, false) := by
    unfold MapLit.find
    rw [findFrom_after m.entries 0 h, Nat.zero_add]
  refine ⟨by rw [hfind], ?_⟩
  unfold MapLit.put
  rw [hfind]
  exact insertIdx_length_self

theorem admit_yields (n : Nat) (g : GrowthPlan) :
    Yields (GrowthPlan.admitGrowth n) g () (fun _ => True) := by
  unfold GrowthPlan.admitGrowth
  suffices h : ∀ rounds, Yields (GrowthPlan.admitRounds rounds n) g () (fun _ => True) from h n
  intro rounds
  induction rounds generalizing g with
  | zero => exact Yields.ret trivial
  | succ rounds ih =>
    refine Yields.look_bind ?_
    dsimp only [id]
    split_ifs
    · exact Yields.update_bind (Yields.spend_bind (ih _))
    · exact Yields.ret trivial

theorem workBatches_yields {S : Type} (batch rounds n : Nat) (s : S) :
    Yields (workBatches batch rounds n) s () (fun s' => s' = s) := by
  induction rounds generalizing n with
  | zero => exact .ret rfl
  | succ rounds ih =>
    unfold workBatches
    split_ifs
    · exact .ret rfl
    · exact .spend_bind (ih _)

/-- A parser with these tokens left and these nodes on its buffer. -/
structure Rests (rest : List Token) (nodes : List Datum) (p : Parser) : Prop where
  rest : p.rest = rest
  nodes : p.nodes = nodes

section

variable {rest : List Token} {nodes : List Datum} {p : Parser} {tok : Token}

theorem Rests.peek {t : Token} (h : Rests (t :: rest) nodes p) : p.peek = t := by
  unfold Parser.peek
  rw [h.rest, headD_cons]

theorem Rests.nextTok (h : Rests (tok :: rest) nodes p) :
    Yields nextTok p tok (Rests rest nodes) := by
  refine ⟨p.past, ?_, ?_, h.nodes⟩
  · rw [← h.peek]
    rfl
  · change p.rest.tail = rest
    rw [h.rest, tail_cons]

theorem addNode_yields (h : Rests rest nodes p) (bytes payload : Nat) :
    Yields (admitNode bytes payload) p () (Rests rest nodes) :=
  .spend_bind (.spend_bind ⟨p.count bytes, rfl, h.rest, h.nodes⟩)

theorem addChild_yields (grow : Nat → Nat → Nat) (item : Datum) (h : Rests rest nodes p) :
    Yields (addChild grow item) p () (Rests rest (nodes ++ [item])) := by
  refine .look_bind ?_
  refine (Yields.zoom (admit_yields _ _) (Q := Rests rest nodes) fun _ _ =>
    ⟨h.rest, h.nodes⟩).bind fun p' hp' => ?_
  refine ⟨p'.stack grow item, rfl, hp'.rest, ?_⟩
  change p'.nodes ++ [item] = _
  rw [hp'.nodes]

theorem takeChildren_yields {items : List Datum} (h : Rests rest (nodes ++ items) p) :
    Yields (takeChildren nodes.length) p items (Rests rest nodes) := by
  refine .look_bind (.spend_bind ?_)
  have hdrop : p.nodes.drop nodes.length = items := by rw [h.nodes, drop_left']; rfl
  rw [hdrop]
  refine (workBatches_yields _ _ _ p).bind fun p' heq => ?_
  subst heq
  refine .update_bind (.ret ⟨h.rest, ?_⟩)
  change p'.nodes.take nodes.length = nodes
  rw [h.nodes, take_left']
  rfl

theorem expect_yields (h : Rests (tok :: rest) nodes p) :
    Yields (expect tok.typ) p () (Rests rest nodes) := by
  refine h.nextTok.bind fun p' hp' => ?_
  rw [if_neg (not_not.mpr rfl)]
  exact .ret hp'

theorem buildList_yields (items : List Datum) (h : Rests rest nodes p) :
    Yields (buildList items) p (.list items) (Rests rest nodes) := by
  have hlink : ∀ (items : List Datum) linked,
      Yields (linkCells (fun _ _ cells => cells) items linked ()) p () (fun p' => p' = p) := by
    intro items
    induction items with
    | nil => exact fun _ => .ret rfl
    | cons item items ih =>
      intro linked
      unfold linkCells
      split_ifs
      · exact .spend_bind (ih _)
      · exact ih _
  unfold buildList
  split_ifs
  · exact .ret h
  · refine .spend_bind ((hlink _ _).bind fun p' heq => ?_)
    subst heq
    exact .ret h

end

def ParsesTo (form : ParseM Datum) (v : Datum) : Prop :=
  ∀ toks rest nodes p, toks.map Token.lexeme = v.lexemes → Rests (toks ++ rest) nodes p →
    Yields form p v (Rests rest nodes)

variable {conv : Strconv} {v : Datum}

theorem lexemes_head (hv : v.Readable conv) :
    ∃ l ls, v.lexemes = l :: ls ∧ l.1 ≠ .eof ∧ l.1 ≠ .rParen ∧ l.1 ≠ .rBracket ∧
      l.1 ≠ .rBrace := by
  cases v with
  | float bits => exact hv.elim
  | _ => exact ⟨_, _, rfl, by simp, by simp, by simp, by simp⟩

variable {toks : List Token}

theorem head_of_lexemes (hv : v.Readable conv) (htoks : toks.map Token.lexeme = v.lexemes) :
    ∃ tok toks', toks = tok :: toks' ∧ tok.typ ≠ .eof ∧ tok.typ ≠ .rParen ∧
      tok.typ ≠ .rBracket ∧ tok.typ ≠ .rBrace := by
  obtain ⟨l, ls, hl, hne⟩ := lexemes_head hv
  rw [hl] at htoks
  cases toks with
  | nil => cases htoks
  | cons tok toks =>
    rw [map_cons, List.cons.injEq] at htoks
    obtain ⟨rfl, -⟩ := htoks
    exact ⟨tok, toks, rfl, hne⟩

def IsClose (close : TokenType) : Prop :=
  close = .rParen ∨ close = .rBracket ∨ close = .rBrace

variable {form : ParseM Datum} {close : Token} {rest : List Token} {nodes : List Datum}
  {p : Parser} (grow : Nat → Nat → Nat) {ls : List Lexeme} {first : Token} {s : Scratch}

theorem parseItems_yields (hclose : IsClose close.typ)
    (items : List Datum) (hitems : AllReadable conv items) (hform : ∀ v ∈ items, ParsesTo form v)
    (rounds : Nat) (htoks : toks.map Token.lexeme = allLexemes items)
    (hrounds : toks.length ≤ rounds) (hp : Rests (toks ++ close :: rest) nodes p) :
    Yields (parseItems grow form close.typ rounds) p ()
      (Rests (close :: rest) (nodes ++ items)) := by
  induction items generalizing rounds toks nodes p with
  | nil =>
    rw [allLexemes, map_eq_nil_iff] at htoks
    subst htoks
    rw [append_nil]
    cases rounds with
    | zero => exact .ret hp
    | succ rounds =>
      refine .look_bind ?_
      rw [hp.peek, if_neg fun h => h.1 rfl]
      exact .ret hp
  | cons item items ih =>
    rw [allLexemes] at htoks
    obtain ⟨toks₁, toks₂, rfl, htoks₁, htoks₂⟩ := List.map_eq_append_iff.mp htoks
    obtain ⟨tok, toks', rfl, heof, hparen, hbracket, hbrace⟩ :=
      head_of_lexemes hitems.1 htoks₁
    have hne : tok.typ ≠ close.typ := by
      rcases hclose with h | h | h <;> rw [h] <;> assumption
    cases rounds with
    | zero => exact absurd hrounds (Nat.not_succ_le_zero _)
    | succ rounds =>
      rw [append_assoc] at hp
      refine .look_bind ?_
      rw [Rests.peek (t := tok) hp, if_pos ⟨hne, heof⟩]
      refine (hform item mem_cons_self _ _ _ _ htoks₁ hp).bind fun p₁ hp₁ => ?_
      refine (addChild_yields grow item hp₁).bind fun p₂ hp₂ => ?_
      refine (ih hitems.2 (fun v hv => hform v (mem_cons_of_mem _ hv)) rounds htoks₂ ?_
        hp₂).mono fun p₃ hp₃ => ?_
      · rw [length_append, length_cons] at hrounds
        omega
      · rwa [append_assoc] at hp₃

theorem parseChildren_yields (hclose : IsClose close.typ)
    (items : List Datum) (hitems : AllReadable conv items) (hform : ∀ v ∈ items, ParsesTo form v)
    (htoks : toks.map Token.lexeme = allLexemes items)
    (hp : Rests (first :: (toks ++ close :: rest)) nodes p) :
    Yields (parseChildren grow form close.typ) p items (Rests rest nodes) := by
  refine hp.nextTok.bind fun p₁ hp₁ => .look_bind ?_
  dsimp only [id]
  rw [hp₁.nodes]
  have hbody : Yields (do
      parseItems grow form close.typ p₁.rest.length
      expect close.typ
      takeChildren nodes.length) p₁ items (Rests rest nodes) := by
    refine (parseItems_yields grow hclose items hitems hform _ htoks ?_ hp₁).bind
      fun p₂ hp₂ => (expect_yields hp₂).bind fun p₃ hp₃ => takeChildren_yields hp₃
    rw [hp₁.rest, length_append]
    exact Nat.le_add_right _ _
  refine hbody.cleanup.bind fun p₂ hp₂ => ?_
  exact (addNode_yields hp₂ 0 0).bind fun p₃ hp₃ => .ret hp₃

section

variable {rest : List Token} {nodes : List Datum} {p : Parser}

theorem mapSet_yields {key : Datum} {hk : DatumKey} (hkey : toHashKey key = .ok hk)
    (val : Datum) (hafter : ∀ e ∈ m.entries, e.hk.less hk = true) (hp : Rests rest nodes p) :
    ∃ m' : MapLit, m'.entries = m.entries ++ [⟨hk, key, val⟩] ∧
      Yields (mapSet m key val) p m' (Rests rest nodes) := by
  obtain ⟨hfind, hput⟩ := put_after (e := ⟨hk, key, val⟩) hafter
  have hentry (large : Bool) : ∃ m' : MapLit, m'.entries = m.entries ++ [⟨hk, key, val⟩] ∧
      Yields (m.admitEntry >>= fun plan => ret ⟨m.put ⟨hk, key, val⟩, large, plan⟩) p m'
        (Rests rest nodes) := by
    obtain ⟨plan, hrun, -⟩ := admit_yields (m.entries.length + 1) m.plan
    refine ⟨⟨m.put ⟨hk, key, val⟩, large, plan⟩, hput, p, ?_, hp⟩
    simp only [MapLit.admitEntry, bind_apply, apart, hrun, ret_apply]
  unfold mapSet
  rw [hkey]
  cases hlarge : m.large with
  | true =>
    obtain ⟨m', hm', hyields⟩ := hentry m.large
    refine ⟨m', hm', .spend_bind ?_⟩
    rw [if_pos rfl, mapSetLarge, insertLarge, hfind, if_neg Bool.false_ne_true]
    exact hyields
  | false =>
    by_cases hlimit : m.entries.length ≥ hashMapSmallLimit
    · obtain ⟨m', hm', hyields⟩ := hentry true
      refine ⟨m', hm', .spend_bind ?_⟩
      rw [if_neg Bool.false_ne_true, mapSetSmall, insertSmall]
      refine .spend_bind ?_
      rw [hfind, if_neg Bool.false_ne_true, if_pos hlimit]
      exact .spend_bind hyields
    · obtain ⟨m', hm', hyields⟩ := hentry m.large
      refine ⟨m', hm', .spend_bind ?_⟩
      rw [if_neg Bool.false_ne_true, mapSetSmall, insertSmall]
      refine .spend_bind ?_
      rw [hfind, if_neg Bool.false_ne_true, if_neg hlimit]
      exact hyields

end

/-- The keys of a map under construction come before those still to be parsed. -/
def KeysBefore (m : MapLit) (pairs : List (Datum × Datum)) : Prop :=
  ∀ e ∈ m.entries, ∀ pair ∈ pairs, ∀ hk, toHashKey pair.1 = .ok hk → e.hk.less hk = true

theorem parseEntries_yields (hclose : close.typ = .rBrace) (pairs : List (Datum × Datum))
    (hpairs : PairsReadable conv pairs) (hsorted : SortedKeys pairs)
    (hform : ∀ pair ∈ pairs, ParsesTo form pair.1 ∧ ParsesTo form pair.2) (rounds : Nat)
    (m : MapLit) (hbefore : KeysBefore m pairs)
    (htoks : toks.map Token.lexeme = pairLexemes pairs) (hrounds : toks.length ≤ rounds)
    (hp : Rests (toks ++ close :: rest) nodes p) :
    ∃ m' : MapLit, (m'.entries.map fun e => (e.k, e.v)) =
        (m.entries.map fun e => (e.k, e.v)) ++ pairs ∧
      Yields (parseEntries form rounds m) p m' (Rests (close :: rest) nodes) := by
  induction pairs generalizing rounds m toks p with
  | nil =>
    rw [pairLexemes, map_eq_nil_iff] at htoks
    subst htoks
    refine ⟨m, (append_nil _).symm, ?_⟩
    cases rounds with
    | zero => exact .ret hp
    | succ rounds =>
      refine .look_bind ?_
      rw [hp.peek, if_neg fun h => h.1 hclose]
      exact .ret hp
  | cons pair pairs ih =>
    obtain ⟨k, v⟩ := pair
    obtain ⟨hk, hv, hrest⟩ := hpairs
    obtain ⟨hash, hhash⟩ := hsorted.1 _ mem_cons_self
    have hordered := List.pairwise_cons.mp hsorted.2
    have hparse := hform _ mem_cons_self
    rw [pairLexemes] at htoks
    obtain ⟨toks₁, toks₂, rfl, htoks₁, htoks₂⟩ := List.map_eq_append_iff.mp htoks
    obtain ⟨toks₃, toks₄, rfl, htoks₃, htoks₄⟩ := List.map_eq_append_iff.mp htoks₂
    obtain ⟨tok, toks', rfl, heof, -, -, hbrace⟩ := head_of_lexemes hk htoks₁
    obtain ⟨tok', toks'', rfl, heof', -⟩ := head_of_lexemes hv htoks₃
    rw [append_assoc, append_assoc] at hp
    cases rounds with
    | zero => exact absurd hrounds (Nat.not_succ_le_zero _)
    | succ rounds =>
      obtain ⟨p₁, hrun₁, hp₁⟩ := hparse.1 _ _ _ _ htoks₁ hp
      have hvalue : Yields (parseMapValue form) p₁ v (Rests (toks₄ ++ close :: rest) nodes) := by
        refine .look_bind ?_
        rw [Rests.peek (t := tok') hp₁, if_neg heof']
        exact hparse.2 _ _ _ _ htoks₃ hp₁
      obtain ⟨p₂, hrun₂, hp₂⟩ := hvalue
      obtain ⟨m₁, hm₁, p₃, hrun₃, hp₃⟩ := mapSet_yields hhash v
        (fun e he => hbefore e he _ mem_cons_self hash hhash) hp₂
      have hbefore₁ : KeysBefore m₁ pairs := by
        intro e he pair hpair hk' hhk'
        rw [hm₁, mem_append, mem_singleton] at he
        rcases he with he | rfl
        · exact hbefore e he pair (mem_cons_of_mem _ hpair) hk' hhk'
        · exact hordered.1 pair hpair hash hk' hhash hhk'
      have hsorted₁ : SortedKeys pairs :=
        ⟨fun pair hpair => hsorted.1 pair (mem_cons_of_mem _ hpair), hordered.2⟩
      obtain ⟨m₂, hm₂, hyields⟩ := ih hrest hsorted₁
        (fun pair hpair => hform pair (mem_cons_of_mem _ hpair)) rounds m₁ hbefore₁
        htoks₄ (by
          simp only [length_append, length_cons] at hrounds
          omega) hp₃
      refine ⟨m₂, ?_, .look_bind ?_⟩
      · rw [hm₂, hm₁, map_append, append_assoc]
        rfl
      · rw [Rests.peek (t := tok) hp, if_pos ⟨by rw [hclose] at *; exact hbrace, heof⟩]
        refine .bind (Q := fun p' => p' = p₁) ⟨p₁, hrun₁, rfl⟩ fun p' heq => ?_
        subst heq
        refine .bind (Q := fun p' => p' = p₂) ⟨p₂, hrun₂, rfl⟩ fun p' heq => ?_
        subst heq
        refine .bind (Q := fun p' => p' = p₃) ⟨p₃, hrun₃, rfl⟩ fun p' heq => ?_
        subst heq
        exact hyields

theorem parseHashMap_yields (hclose : close.typ = .rBrace)
    (pairs : List (Datum × Datum)) (hpairs : PairsReadable conv pairs)
    (hsorted : SortedKeys pairs)
    (hform : ∀ pair ∈ pairs, ParsesTo form pair.1 ∧ ParsesTo form pair.2)
    (htoks : toks.map Token.lexeme = pairLexemes pairs)
    (hp : Rests (first :: (toks ++ close :: rest)) nodes p) :
    Yields (parseHashMap form) p (.map pairs) (Rests rest nodes) := by
  refine hp.nextTok.bind fun p₁ hp₁ => .look_bind ?_
  obtain ⟨m, hm, hyields⟩ := parseEntries_yields hclose pairs hpairs hsorted hform p₁.rest.length
    ⟨[], false, ⟨meterHashMapEntryBytes, 0⟩⟩ (fun e he => by cases he) htoks
    (by rw [hp₁.rest, length_append]; exact Nat.le_add_right _ _) hp₁
  refine hyields.bind fun p₂ hp₂ => ?_
  have hexpect : Yields (expect .rBrace) p₂ () (Rests rest nodes) := hclose ▸ expect_yields hp₂
  refine hexpect.bind fun p₃ hp₃ => (addNode_yields hp₃ 0 0).bind fun p₄ hp₄ => ?_
  rw [hm]
  exact .ret hp₄

section

variable {rest : List Token} {nodes : List Datum} {p : Parser} {tok : Token}

theorem parseAtom_yields (payload : Nat) (v : Datum) (hp : Rests (tok :: rest) nodes p) :
    Yields (parseAtom payload v) p v (Rests rest nodes) :=
  hp.nextTok.bind fun _ hp' => (addNode_yields hp' _ _).bind fun _ hp'' => .ret hp''

theorem parseNumber_yields (conv : Strconv) {v : Int64} (htok : tok.val = formatInt v)
    (hp : Rests (tok :: rest) nodes p) :
    Yields (parseNumber conv tok) p (.int v) (Rests rest nodes) := by
  refine hp.nextTok.bind fun p₁ hp₁ => (addNode_yields hp₁ 0 0).bind fun p₂ hp₂ => ?_
  have hconvert (t : Text) : convertNumber conv tok.val tok.line tok.col t = .ok (.int v) := by
    unfold convertNumber
    have hdot : (formatInt v).contains (byte '.') = false := by
      have hdecimal (n : Nat) : byte '.' ∉ decimal n := fun h =>
        absurd (decimal_digits n _ h) (by decide)
      rw [contains_eq_mem, decide_eq_false_iff_not]
      unfold formatInt
      split_ifs
      · rw [mem_cons, not_or]
        exact ⟨by decide, hdecimal _⟩
      · exact hdecimal _
    rw [htok, hdot, parseInt_formatInt]
    rfl
  refine .spend_bind (.spend_bind (.inspect_bind ?_))
  rw [hconvert]
  exact .spend_bind (.ret hp₂)

theorem parseSymbolToken_yields {v : Datum} (hp : Rests (tok :: rest) nodes p)
    (hv : v = if tok.val = text "nil" then .nil else if tok.val = text "true" then .bool true
      else if tok.val = text "false" then .bool false else .symbol tok.val) :
    Yields (parseSymbolToken tok) p v (Rests rest nodes) := by
  unfold parseSymbolToken
  subst hv
  split_ifs
  · exact parseAtom_yields _ _ hp
  · exact parseAtom_yields _ _ hp
  · exact parseAtom_yields _ _ hp
  · exact parseAtom_yields _ _ hp

theorem parseForm_yields {su : Setup} {levels : Nat} {v : Datum}
    (hp : Rests (tok :: rest) nodes p)
    {Q : Parser → Prop} (h : Yields (parseTok su (parseForm su levels) tok) p v Q) :
    Yields (parseForm su (levels + 1)) p v Q := by
  refine .look_bind ?_
  rw [hp.peek]
  exact h

end

theorem token_of_lexemes {l : Lexeme} (h : toks.map Token.lexeme = [l]) :
    ∃ tok, toks = [tok] ∧ tok.typ = l.1 ∧ tok.val = l.2 := by
  obtain ⟨tok, rfl, rfl⟩ := List.map_eq_singleton_iff.mp h
  exact ⟨tok, rfl, rfl, rfl⟩

theorem tokens_of_collection {first close : Lexeme}
    (h : toks.map Token.lexeme = first :: (ls ++ [close])) :
    ∃ tok parts tok', toks = tok :: (parts ++ [tok']) ∧ tok.typ = first.1 ∧
      parts.map Token.lexeme = ls ∧ tok'.typ = close.1 := by
  obtain ⟨tok, toks, rfl, rfl, hrest⟩ := List.map_eq_cons_iff.mp h
  obtain ⟨parts, last, rfl, rfl, hlast⟩ := List.map_eq_append_iff.mp hrest
  obtain ⟨tok', rfl, htyp, -⟩ := token_of_lexemes hlast
  exact ⟨tok, parts, tok', rfl, rfl, rfl, htyp⟩

section

variable (su : Setup)

mutual

theorem datum_parses : (v : Datum) → (levels : Nat) → v.Readable su.conv → v.Distinct →
    v.height ≤ levels → ParsesTo (parseForm su levels) v
  | v, 0, _, _, hlevels => absurd (height_pos v) (by omega)
  | .nil, levels + 1, _, _, _ => fun toks rest nodes p htoks hp => by
    obtain ⟨tok, rfl, htyp, hval⟩ := token_of_lexemes htoks
    refine parseForm_yields hp ?_
    rw [parseTok, htyp]
    exact parseSymbolToken_yields hp (by rw [hval, if_pos rfl])
  | .bool v, levels + 1, _, _, _ => fun toks rest nodes p htoks hp => by
    obtain ⟨tok, rfl, htyp, hval⟩ := token_of_lexemes htoks
    refine parseForm_yields hp ?_
    rw [parseTok, htyp]
    refine parseSymbolToken_yields hp ?_
    rw [hval]
    cases v with
    | true => rfl
    | false => rfl
  | .int v, levels + 1, _, _, _ => fun toks rest nodes p htoks hp => by
    obtain ⟨tok, rfl, htyp, hval⟩ := token_of_lexemes htoks
    refine parseForm_yields hp ?_
    rw [parseTok, htyp]
    exact parseNumber_yields su.conv hval hp
  | .float _, _ + 1, hv, _, _ => hv.elim
  | .string s, levels + 1, _, _, _ => fun toks rest nodes p htoks hp => by
    obtain ⟨tok, rfl, htyp, rfl⟩ := token_of_lexemes htoks
    refine parseForm_yields hp ?_
    rw [parseTok, htyp]
    exact hp.nextTok.bind fun _ hp' => (addNode_yields hp' _ _).bind fun _ hp'' =>
      Yields.ret hp''
  | .symbol s, levels + 1, _, hd, _ => fun toks rest nodes p htoks hp => by
    obtain ⟨tok, rfl, htyp, rfl⟩ := token_of_lexemes htoks
    refine parseForm_yields hp ?_
    rw [parseTok, htyp]
    refine parseSymbolToken_yields hp ?_
    rw [if_neg fun h => hd (.inl h), if_neg fun h => hd (.inr (.inl h)),
      if_neg fun h => hd (.inr (.inr h))]
  | .keyword s, levels + 1, _, _, _ => fun toks rest nodes p htoks hp => by
    obtain ⟨tok, rfl, htyp, rfl⟩ := token_of_lexemes htoks
    refine parseForm_yields hp ?_
    rw [parseTok, htyp]
    exact parseAtom_yields _ _ hp
  | .list items, levels + 1, hv, hd, hlevels => fun toks rest nodes p htoks hp => by
    obtain ⟨tok, parts, tok', rfl, htyp, hparts, htyp'⟩ := tokens_of_collection htoks
    rw [cons_append, append_assoc] at hp
    have hitems := items_parse items levels hv hd (by rw [Datum.height] at hlevels; omega)
    refine parseForm_yields hp ?_
    rw [parseTok, htyp]
    have hchildren := parseChildren_yields su.grow (.inl htyp') items hv hitems hparts hp
    rw [htyp'] at hchildren
    exact hchildren.bind fun _ hp' => buildList_yields items hp'
  | .vector items, levels + 1, hv, hd, hlevels => fun toks rest nodes p htoks hp => by
    obtain ⟨tok, parts, tok', rfl, htyp, hparts, htyp'⟩ := tokens_of_collection htoks
    rw [cons_append, append_assoc] at hp
    have hitems := items_parse items levels hv hd (by rw [Datum.height] at hlevels; omega)
    refine parseForm_yields hp ?_
    rw [parseTok, htyp]
    have hchildren :=
      parseChildren_yields su.grow (.inr (.inl htyp')) items hv hitems hparts hp
    rw [htyp'] at hchildren
    exact hchildren.bind fun _ hp' => .ret hp'
  | .map pairs, levels + 1, hv, hd, hlevels => fun toks rest nodes p htoks hp => by
    obtain ⟨tok, parts, tok', rfl, htyp, hparts, htyp'⟩ := tokens_of_collection htoks
    rw [cons_append, append_assoc] at hp
    have hpairs := pairs_parse pairs levels hv.2 hd (by rw [Datum.height] at hlevels; omega)
    refine parseForm_yields hp ?_
    rw [parseTok, htyp]
    exact parseHashMap_yields htyp' pairs hv.2 hv.1 hpairs hparts hp

theorem items_parse : (items : List Datum) → (levels : Nat) → AllReadable su.conv items →
    AllDistinct items → heights items ≤ levels → ∀ v ∈ items, ParsesTo (parseForm su levels) v
  | [], _, _, _, _, _, hmem => by cases hmem
  | item :: items, levels, hitems, hd, hlevels, v, hmem => by
    rw [heights] at hlevels
    rcases mem_cons.mp hmem with hsame | hmem
    · rw [hsame]
      exact datum_parses item levels hitems.1 hd.1 (by omega)
    · exact items_parse items levels hitems.2 hd.2 (by omega) v hmem

theorem pairs_parse : (pairs : List (Datum × Datum)) → (levels : Nat) →
    PairsReadable su.conv pairs → PairsDistinct pairs → pairHeights pairs ≤ levels →
      ∀ pair ∈ pairs,
        ParsesTo (parseForm su levels) pair.1 ∧ ParsesTo (parseForm su levels) pair.2
  | [], _, _, _, _, _, hmem => by cases hmem
  | (k, v) :: pairs, levels, hpairs, hd, hlevels, pair, hmem => by
    rw [pairHeights] at hlevels
    rcases mem_cons.mp hmem with hsame | hmem
    · rw [hsame]
      exact ⟨datum_parses k levels hpairs.1 hd.1 (by omega),
        datum_parses v levels hpairs.2.1 hd.2.1 (by omega)⟩
    · exact pairs_parse pairs levels hpairs.2.2 hd.2.2 (by omega) pair hmem

end

end

theorem tokenRounds_yields {r : Source}
    (h : Lexes ls r []) (rounds : Nat) (hrounds : ls.length < rounds) (s : Scratch)
    (hs : s.source = r) :
    ∃ toks eof, toks.map Token.lexeme = ls ∧ eof.typ = .eof ∧
      Yields (tokenRounds grow rounds) s () (fun s' => s'.parser = s.parser ∧
        s'.tokens = s.tokens ++ (toks ++ [eof])) := by
  generalize hend : ([] : Text) = t at h
  induction h generalizing rounds s with
  | @done r t hr =>
    subst hend
    obtain ⟨rounds, rfl⟩ := Nat.exists_eq_succ_of_ne_zero (Nat.ne_of_gt hrounds)
    obtain ⟨eof, heof, r', hrun, -⟩ := nextToken_eof hr
    refine ⟨[], eof, rfl, heof, (s.withSource r').append grow eof, ?_, rfl, rfl⟩
    simp only [tokenRounds, scanning, bind_apply, zoom, hs, hrun, update_apply, heof, if_true,
      ret_apply]
  | @token tok ls r r' t hrun heof hlt hrest ih =>
    obtain ⟨rounds, rfl⟩ := Nat.exists_eq_succ_of_ne_zero (Nat.ne_zero_of_lt hrounds)
    obtain ⟨toks, eof, htoks, hlast, s', hrun', hparser, htokens⟩ :=
      ih rounds (Nat.lt_of_succ_lt_succ hrounds) ((s.withSource r').append grow tok) rfl hend
    refine ⟨tok :: toks, eof, by rw [map_cons, htoks], hlast, s', ?_, hparser, ?_⟩
    · simp only [tokenRounds, scanning, bind_apply, zoom, hs, hrun, update_apply, heof, if_false]
      exact hrun'
    · rw [htokens]
      change s.tokens ++ [tok] ++ (toks ++ [eof]) = _
      simp

def identityReader (conv : Strconv) (grow : Nat → Nat → Nat) : Setup :=
  ⟨conv, defaultReaderFlags, readerDepth 0, grow⟩

theorem printed_tokenizes (hv : v.Readable conv) (hheight : v.height ≤ defaultReaderDepth)
    (grow : Nat → Nat → Nat) (hs : At (boundedString conv v 0) s.source)
    (hempty : s.tokens = []) :
    ∃ toks eof, toks.map Token.lexeme = v.lexemes ∧ eof.typ = .eof ∧
      Yields (scanAll grow) s ()
        (fun s' => s'.parser = s.parser ∧ s'.tokens = toks ++ [eof]) := by
  have hdepth : 0 + v.height ≤ defaultMaxStructuralDepth + 1 := by
    have hsame : defaultMaxStructuralDepth = defaultReaderDepth := rfl
    omega
  have hlexes : Lexes v.lexemes s.source [] :=
    datum_scans conv v 0 hv hdepth s.source [] (by decide)
      (by rw [append_nil]; exact hs.before)
  obtain ⟨toks, eof, htoks, heof, hyields⟩ := tokenRounds_yields grow hlexes
    (s.source.rest.length + 1) (Nat.lt_succ_of_le hlexes.length_le) s rfl
  rw [hempty] at hyields
  exact ⟨toks, eof, htoks, heof, .look_bind hyields⟩

theorem tokens_read {su : Setup} (hv : v.Readable su.conv) (hd : v.Distinct)
    (hheight : v.height ≤ su.maxDepth) {eof : Token} (htoks : toks.map Token.lexeme = v.lexemes)
    (heof : eof.typ = .eof) (hs : s.tokens = toks ++ [eof])
    (hnodes : s.parser.nodes = []) :
    Yields (readForms su) s [v] (fun _ => True) := by
  refine .update_bind (.look_bind ?_)
  have hp : Rests (toks ++ [eof]) [] s.toParser.parser := ⟨hs, hnodes⟩
  obtain ⟨tok, toks', rfl, hne, -⟩ := head_of_lexemes hv htoks
  have hlen : s.toParser.tokens.length = toks'.length + 2 := by
    change s.tokens.length = _
    rw [hs, length_append, length_cons, length_singleton]
  have hform : Yields (parsing (parse su)) s.toParser v (fun s' => Rests [eof] [] s'.parser) := by
    have hparse : Yields (parse su) s.toParser.parser v (Rests [eof] []) := by
      refine .look_bind ?_
      rw [Rests.peek (t := tok) hp, if_neg hne]
      exact datum_parses su v su.maxDepth hv hd hheight _ _ _ _ htoks hp
    exact .zoom hparse fun _ h => h
  rw [hlen]
  refine .look_bind ?_
  rw [Rests.peek (t := tok) hp, if_pos hne]
  refine hform.bind fun s₁ hs₁ => .apart_bind (admit_yields _ _) fun plan _ => ?_
  refine .look_bind ?_
  rw [hs₁.peek, if_neg (not_not.mpr heof)]
  exact .ret trivial

/-- A value that is readable, of no more than the reader's depth and with no symbol that the
reader takes for a constant is read back from what it prints as. -/
theorem printed_reads_back (conv : Strconv) (grow : Nat → Nat → Nat) (pooled : Pooled)
    (v : Datum) (hv : v.Readable conv) (hd : v.Distinct)
    (hheight : v.height ≤ defaultReaderDepth) :
    ∃ stats, (readWithMaxDepthStats (identityReader conv grow) (boundedString conv v 0)
      pooled).result = .ok ([v], stats) := by
  set su := identityReader conv grow with hsu
  set s := pooled.reset su (boundedString conv v 0) with hs
  obtain ⟨toks, eof, htoks, heof, hscan⟩ := printed_tokenizes hv hheight su.grow (s := s)
    ⟨rfl, rfl, rfl⟩ rfl
  have hforms : Yields (tokenizeAndParse su) s [v] (fun _ => True) := by
    refine .settled (.bind (Q := fun s' => s'.parser = s.parser ∧
      s'.tokens = toks ++ [eof]) (.inspect_bind (by exact hscan)) fun s₁ hs₁ => ?_)
    exact tokens_read hv hd hheight htoks heof hs₁.2 (by rw [hs₁.1]; rfl)
  obtain ⟨s₁, hrun, -⟩ := hforms
  refine ⟨s₁.parser.stats, ?_⟩
  unfold readWithMaxDepthStats readAndRelease
  simp only [read, bind_apply, ← hs, hrun, spend_none, look_apply, ret_apply]

theorem printed_reads_back_nested :
    let conv : Strconv := ⟨fun _ => none, fun _ => [], fun t => (quoted t).filter (· ≠ 0),
      fun _ h => absurd rfl (of_decide_eq_true (List.mem_filter.mp h).2)⟩
    let v : Datum := .list [.symbol (text "-x"), .int (-1), .vector [.string (text "a\n")],
      .map [(.keyword (text "k"), .nil)]]
    v.Readable conv ∧ v.Distinct ∧ v.height ≤ defaultReaderDepth ∧
      ∃ stats, (readWithMaxDepthStats (identityReader conv fun _ len => len)
        (boundedString conv v 0) ⟨0, 0⟩).result = .ok ([v], stats) := by
  intro conv v
  have hv : v.Readable conv :=
    ⟨⟨_, _, rfl, by decide, by decide, by decide, by decide⟩, trivial,
      ⟨(by decide : (quoted (text "a\n")).filter (· ≠ 0) = quoted (text "a\n")), trivial⟩,
      ⟨⟨fun pair hpair => by rw [mem_singleton.mp hpair]; exact ⟨_, rfl⟩,
        pairwise_singleton _ _⟩,
        ⟨(by decide : (text "k").all isSymbolChar = true), trivial, trivial⟩⟩, trivial⟩
  have hd : v.Distinct := by
    refine ⟨?_, trivial, ⟨trivial, trivial⟩, ⟨trivial, trivial, trivial⟩, trivial⟩
    rintro (h | h | h) <;> revert h <;> decide
  have hheight : v.height ≤ defaultReaderDepth := by decide
  exact ⟨hv, hd, hheight, printed_reads_back conv _ _ v hv hd hheight⟩

/-- The symbol that is named like the constant prints like it. -/
theorem symbol_nil_reads_as_nil :
    let conv : Strconv := ⟨fun _ => none, fun _ => [], fun _ => [], fun _ => not_mem_nil⟩
    let v : Datum := .symbol (text "nil")
    v.Readable conv ∧ v.height ≤ defaultReaderDepth ∧
      (∃ stats, (readWithMaxDepthStats (identityReader conv fun _ len => len)
        (boundedString conv v 0) ⟨0, 0⟩).result = .ok ([.nil], stats)) ∧ v ≠ .nil := by
  intro conv v
  exact ⟨⟨_, _, rfl, by decide, by decide, by decide, by decide⟩, by decide, ⟨_, rfl⟩,
    Datum.noConfusion⟩

end Reader

end Lispico
