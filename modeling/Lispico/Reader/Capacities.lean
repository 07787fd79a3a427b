import Lispico.Reader.Read

/-!
# Capacities

No step of the parser depends on the capacity of its buffer. Two parsers that differ in
nothing else run alike under any budget, and what relates their capacities is kept as long as
`append` keeps it.
-/

namespace Lispico

namespace Reader

open Lispico.Core Lib Guarded

/-- What is known of two capacities, given how many slots are in use and how many ever were. -/
structure CapRel (grow : Nat → Nat → Nat) where
  rel : (c c' len high : Nat) → Prop
  stack : ∀ {c c' len high}, rel c c' len high →
    rel (capAfter grow c (len + 1)) (capAfter grow c' (len + 1)) (len + 1) (max high (len + 1))
  truncate : ∀ {c c' len high n}, rel c c' len high → n ≤ len → rel c c' n high

inductive SameParse {grow : Nat → Nat → Nat} (C : CapRel grow) : Parser → Parser → Prop where
  | mk {p : Parser} {c' : Nat} (h : C.rel p.nodesCap c' p.nodes.length p.high) :
      SameParse C p { p with nodesCap := c' }

section

variable {grow : Nat → Nat → Nat} {C : CapRel grow} {p p' : Parser}

variable (h : SameParse C p p')

include h

theorem SameParse.peek : p'.peek = p.peek := by
  cases h with
  | mk _ => rfl

theorem SameParse.stats : p'.stats = p.stats := by
  cases h with
  | mk _ => rfl

theorem SameParse.withRest (rest : List Token) :
    SameParse C { p with rest := rest } { p' with rest := rest } := by
  cases h with
  | mk h => exact .mk h

end

section

variable {G : Option Budget → Prop} (hG : ∀ b b', G (some b) → G (some b'))

include hG

theorem admit_matches (n : Nat) :
    Matches G Eq Eq (GrowthPlan.admitGrowth n) (GrowthPlan.admitGrowth n) := by
  unfold GrowthPlan.admitGrowth
  suffices h : ∀ rounds,
      Matches G Eq Eq (GrowthPlan.admitRounds rounds n) (GrowthPlan.admitRounds rounds n) from h n
  intro rounds
  induction rounds with
  | zero => exact Matches.ret rfl
  | succ rounds ih =>
    refine (Matches.look (Q := Eq) fun _ _ h => h).bindEq fun g => ?_
    refine Matches.ite Iff.rfl ?_ (Matches.ret rfl)
    refine (Matches.update fun _ _ h => by rw [h]).bind fun _ _ _ => ?_
    exact (Matches.spend hG _).bind fun _ _ _ => ih

theorem workBatches_matches {S : Type} {R : S → S → Prop} (batch rounds n : Nat) :
    Matches G R Eq (workBatches batch rounds n) (workBatches batch rounds n) := by
  induction rounds generalizing n with
  | zero => exact .ret rfl
  | succ rounds ih =>
    refine .ite Iff.rfl (.ret rfl) ?_
    exact (Matches.spend hG _).bind fun _ _ _ => ih _

variable {grow : Nat → Nat → Nat} (C : CapRel grow) (mark : Nat)

/-- What a step of the parser does to two parsers that differ in their capacities. -/
abbrev ParsesAlike {α : Type} (G : Option Budget → Prop) (C : CapRel grow) (m : ParseM α) :
    Prop :=
  Matches G (SameParse C) Eq m m

omit hG in
theorem peek_alike : ParsesAlike G C (look Parser.peek) :=
  .look fun _ _ h => h.peek.symm

omit hG in
theorem nextTok_alike : ParsesAlike G C nextTok := by
  refine (peek_alike C).bind fun tok _ heq => ?_
  refine (Matches.update fun _ _ ⟨h⟩ => .mk h).bind fun _ _ _ => ?_
  exact .ret heq

theorem admitNode_alike (bytes payload : Nat) : ParsesAlike G C (admitNode bytes payload) := by
  refine (Matches.spend hG _).bind fun _ _ _ => (Matches.spend hG _).bind fun _ _ _ => ?_
  exact .update fun _ _ ⟨h⟩ => .mk h

theorem addChild_alike (item : Datum) : ParsesAlike G C (addChild grow item) := by
  refine (Matches.look (Q := Eq) fun _ _ ⟨_⟩ => rfl).bindEq fun n => ?_
  refine (Matches.zoom (admit_matches hG (n + 1)) (fun _ _ ⟨_⟩ => rfl) ?_).bind fun _ _ _ => ?_
  · rintro _ _ g _ ⟨h⟩ rfl
    exact .mk h
  · refine Matches.update fun p _ hp => ?_
    obtain ⟨h⟩ := hp
    refine .mk ?_
    have hlen : (p.stack grow item).nodes.length = p.nodes.length + 1 :=
      List.length_append
    rw [hlen]
    exact C.stack h

omit hG in
theorem truncate_alike {p p' : Parser} (h : SameParse C p p') :
    SameParse C (p.truncate mark) (p'.truncate mark) := by
  cases h with
  | mk h =>
    refine .mk (C.truncate h ?_)
    exact List.length_take_le' _ _

theorem takeChildren_alike : ParsesAlike G C (takeChildren mark) := by
  refine (Matches.look (Q := Eq) fun _ _ ⟨_⟩ => rfl).bindEq fun items => ?_
  refine (Matches.spend hG _).bind fun _ _ _ => ?_
  refine (workBatches_matches hG _ _ _).bind fun _ _ _ => ?_
  refine (Matches.update fun _ _ h => truncate_alike C mark h).bind fun _ _ _ => ?_
  exact .ret rfl

omit hG in
theorem expect_alike (tt : TokenType) : ParsesAlike G C (expect tt) := by
  refine (nextTok_alike C).bindEq fun tok => ?_
  exact .ite Iff.rfl (.fail _) (.ret rfl)

section

variable {form : ParseM Datum} (hform : ParsesAlike G C form) (close : TokenType)

include hform

theorem parseItems_alike (rounds : Nat) :
    ParsesAlike G C (parseItems grow form close rounds) := by
  induction rounds with
  | zero => exact .ret rfl
  | succ rounds ih =>
    refine (peek_alike C).bindEq fun tok => ?_
    refine .ite Iff.rfl ?_ (.ret rfl)
    refine hform.bindEq fun item => ?_
    exact (addChild_alike hG C item).bind fun _ _ _ => ih

theorem parseChildren_alike : ParsesAlike G C (parseChildren grow form close) := by
  refine (nextTok_alike C).bind fun _ _ _ => ?_
  refine (Matches.look (Q := SameParse C) fun _ _ h => h).bind fun p p' hp => ?_
  obtain ⟨_⟩ := hp
  have hbody : ParsesAlike G C (do
      parseItems grow form close p.rest.length
      expect close
      takeChildren p.nodes.length) := by
    refine (parseItems_alike hG C hform close _).bind fun _ _ _ => ?_
    exact (expect_alike C close).bind fun _ _ _ => takeChildren_alike hG C _
  refine (hbody.cleanup fun _ _ h => truncate_alike C p.nodes.length h).bindEq fun items => ?_
  exact (admitNode_alike hG C _ _).bind fun _ _ _ => .ret rfl

end

theorem linkCells_alike (items : List Datum) (linked : Nat) :
    ParsesAlike G C (linkCells (fun _ _ cells => cells) items linked ()) := by
  induction items generalizing linked with
  | nil => exact .ret rfl
  | cons item items ih =>
    exact .ite Iff.rfl ((Matches.spend hG _).bind fun _ _ _ => ih _) (ih _)

theorem buildList_alike (items : List Datum) : ParsesAlike G C (buildList items) := by
  refine .ite Iff.rfl (.ret rfl) ?_
  refine (Matches.spend hG _).bind fun _ _ _ => ?_
  exact (linkCells_alike hG C _ _).bind fun _ _ _ => .ret rfl

variable (m : MapLit) (e : MapEntry) (tok : Token)

theorem admitEntry_alike : ParsesAlike G C m.admitEntry := by
  refine (Matches.apart m.plan (admit_matches hG _)).bindEq fun grown => ?_
  exact .ret rfl

theorem mapSetLarge_alike : ParsesAlike G C (mapSetLarge m e) := by
  refine .ite Iff.rfl (.ret rfl) ?_
  refine (admitEntry_alike hG C m).bindEq fun plan => ?_
  exact .ret rfl

theorem mapSetSmall_alike : ParsesAlike G C (mapSetSmall m e) := by
  refine (Matches.spend hG _).bind fun _ _ _ => .ite Iff.rfl (.ret rfl) ?_
  refine .ite Iff.rfl ((Matches.spend hG _).bind fun _ _ _ => ?_) ?_
  all_goals
    refine (admitEntry_alike hG C m).bindEq fun plan => ?_
    exact .ret rfl

theorem mapSet_alike (key val : Datum) : ParsesAlike G C (mapSet m key val) := by
  unfold mapSet
  cases toHashKey key with
  | error err => exact .fail _
  | ok hk =>
    refine (Matches.spend hG _).bind fun _ _ _ => ?_
    exact .ite Iff.rfl (mapSetLarge_alike hG C m _) (mapSetSmall_alike hG C m _)

section

variable {form : ParseM Datum} (hform : ParsesAlike G C form)

include hform

omit hG in
theorem parseMapValue_alike : ParsesAlike G C (parseMapValue form) := by
  refine (peek_alike C).bindEq fun tok => ?_
  exact .ite Iff.rfl (.fail _) hform

theorem parseEntries_alike (rounds : Nat) (m : MapLit) :
    ParsesAlike G C (parseEntries form rounds m) := by
  induction rounds generalizing m with
  | zero => exact .ret rfl
  | succ rounds ih =>
    refine (peek_alike C).bindEq fun tok => ?_
    refine .ite Iff.rfl ?_ (.ret rfl)
    refine hform.bindEq fun key => ?_
    refine (parseMapValue_alike C hform).bindEq fun val => ?_
    refine (mapSet_alike hG C m key val).bind fun m' _ heq => ?_
    subst heq
    exact ih m'

theorem parseHashMap_alike : ParsesAlike G C (parseHashMap form) := by
  refine (nextTok_alike C).bind fun _ _ _ => ?_
  refine (Matches.look (Q := SameParse C) fun _ _ h => h).bind fun p p' hp => ?_
  obtain ⟨_⟩ := hp
  refine (parseEntries_alike hG C hform _ _).bindEq fun m => ?_
  refine (expect_alike C _).bind fun _ _ _ => ?_
  exact (admitNode_alike hG C _ _).bind fun _ _ _ => .ret rfl

theorem parseList_alike : ParsesAlike G C (parseList grow form) := by
  refine (parseChildren_alike hG C hform _).bindEq fun items => ?_
  exact buildList_alike hG C items

theorem parseVector_alike (close : TokenType) :
    ParsesAlike G C
      (parseChildren grow form close >>= fun items => ret (Datum.vector items)) := by
  refine (parseChildren_alike hG C hform close).bindEq fun items => ?_
  exact .ret rfl

theorem parseWrapped_alike (name : String) : ParsesAlike G C (parseWrapped name form) := by
  refine (nextTok_alike C).bind fun _ _ _ => hform.bindEq fun inner => ?_
  refine (admitNode_alike hG C _ _).bind fun _ _ _ => ?_
  refine (admitNode_alike hG C _ _).bind fun _ _ _ => ?_
  exact (Matches.spend hG _).bind fun _ _ _ => .ret rfl

end

theorem parseAtom_alike (payload : Nat) (v : Datum) : ParsesAlike G C (parseAtom payload v) :=
  (nextTok_alike C).bind fun _ _ _ =>
    (admitNode_alike hG C _ _).bind fun _ _ _ => .ret rfl

theorem parseStringToken_alike : ParsesAlike G C (parseStringToken tok) :=
  (nextTok_alike C).bind fun _ _ _ =>
    (admitNode_alike hG C _ _).bind fun _ _ _ => .ret rfl

theorem parseSymbolToken_alike : ParsesAlike G C (parseSymbolToken tok) :=
  .ite Iff.rfl (parseAtom_alike hG C _ _) (.ite Iff.rfl (parseAtom_alike hG C _ _)
      (.ite Iff.rfl (parseAtom_alike hG C _ _) (parseAtom_alike hG C _ _)))

theorem parseNumber_alike (conv : Strconv) (tok : Token) :
    ParsesAlike G C (parseNumber conv tok) := by
  refine (nextTok_alike C).bind fun _ _ _ => (admitNode_alike hG C _ _).bind fun _ _ _ => ?_
  refine (Matches.spend hG _).bind fun _ _ _ => (Matches.spend hG _).bind fun _ _ _ => ?_
  refine (Matches.inspect _).bindEq fun guarded => ?_
  cases convertNumber conv tok.val tok.line tok.col
      (if guarded then boundedSource tok.val else tok.val) with
  | error err => exact .fail _
  | ok v => exact (Matches.spend hG _).bind fun _ _ _ => .ret rfl

variable {su : Setup} (C : CapRel su.grow)

theorem parseTok_alike {form : ParseM Datum} (hform : ParsesAlike G C form) (tok : Token) :
    ParsesAlike G C (parseTok su form tok) := by
  unfold parseTok
  cases tok.typ with
  | eof => exact .fail _
  | lParen => exact parseList_alike hG C hform
  | lBracket => exact parseVector_alike hG C hform _
  | lBrace => exact parseHashMap_alike hG C hform
  | functionRef => exact parseWrapped_alike hG C hform _
  | hashParen => exact parseVector_alike hG C hform _
  | quote => exact parseWrapped_alike hG C hform _
  | backtick => exact parseWrapped_alike hG C hform _
  | tilde => exact parseWrapped_alike hG C hform _
  | tildeAt => exact parseWrapped_alike hG C hform _
  | string => exact parseStringToken_alike hG C tok
  | number => exact parseNumber_alike hG C su.conv tok
  | symbol => exact parseSymbolToken_alike hG C tok
  | keyword => exact parseAtom_alike hG C _ _
  | rParen => exact .fail _
  | rBracket => exact .fail _
  | rBrace => exact .fail _
  | «at» => exact .fail _
  | hash => exact .fail _

theorem parseForm_alike (levels : Nat) : ParsesAlike G C (parseForm su levels) := by
  induction levels with
  | zero =>
    refine (peek_alike C).bindEq fun tok => ?_
    exact .fail _
  | succ levels ih =>
    refine (peek_alike C).bindEq fun tok => ?_
    exact parseTok_alike hG C ih tok

theorem parse_alike : ParsesAlike G C (parse su) := by
  refine (peek_alike C).bindEq fun tok => ?_
  exact .ite Iff.rfl (.fail _) (parseForm_alike hG C _)

end

/-- What is known of two scratches: their scanners, the capacities of their buffers, and how
many tokens were planned for. -/
structure ReadRel (grow : Nat → Nat → Nat) where
  source : Source → Source → Prop
  rest : ∀ {r r'}, source r r' → r'.rest = r.rest
  nodes : CapRel grow
  tokens : (c c' planned planned' len : Nat) → Prop
  append : ∀ {c c' planned planned' len}, tokens c c' planned planned' len →
    tokens (capAfter grow c (len + 1)) (capAfter grow c' (len + 1)) planned planned' (len + 1)

/-- Two scratches that are the same but for what their relation leaves open. -/
structure SameRead {grow : Nat → Nat → Nat} (R : ReadRel grow) (s s' : Scratch) : Prop where
  source : R.source s.source s'.source
  parser : SameParse R.nodes s.parser s'.parser
  tokens : s'.tokens = s.tokens
  caps : R.tokens s.tokensCap s'.tokensCap s.planned s'.planned s.tokens.length

section

variable {G : Option Budget → Prop} (hG : ∀ b b', G (some b) → G (some b'))
  {grow : Nat → Nat → Nat} {R : ReadRel grow} {s s' : Scratch}

abbrev ReadsAlike {α : Type} (G : Option Budget → Prop) (R : ReadRel grow) (m : ReadM α) : Prop :=
  Matches G (SameRead R) Eq m m

theorem append_alike (h : SameRead R s s') (tok : Token) :
    SameRead R (s.append grow tok) (s'.append grow tok) := by
  refine ⟨h.source, h.parser, ?_, ?_⟩
  · change s'.tokens ++ [tok] = s.tokens ++ [tok]
    rw [h.tokens]
  · have hlen : (s.append grow tok).tokens.length = s.tokens.length + 1 := List.length_append
    rw [hlen]
    change R.tokens _ (capAfter grow s'.tokensCap (s'.tokens.length + 1)) _ _ _
    rw [h.tokens]
    exact R.append h.caps

theorem peekForm_alike : ReadsAlike G R (look fun s => s.parser.peek) :=
  .look fun _ _ h => h.parser.peek.symm

theorem stats_alike : ReadsAlike G R (look fun s => s.parser.stats) :=
  .look fun _ _ h => h.parser.stats.symm

theorem toParser_alike (h : SameRead R s s') : SameRead R s.toParser s'.toParser := by
  refine ⟨h.source, ?_, h.tokens, h.caps⟩
  change SameParse R.nodes { s.parser with rest := s.tokens } { s'.parser with rest := s'.tokens }
  rw [h.tokens]
  exact h.parser.withRest _

theorem tokenRounds_alike (hscan : Matches G R.source Eq nextToken nextToken) (rounds : Nat) :
    ReadsAlike G R (tokenRounds grow rounds) := by
  induction rounds with
  | zero => exact .ret rfl
  | succ rounds ih =>
    refine (Matches.zoom hscan (fun _ _ h => h.source)
      (fun _ _ _ _ h hr => ⟨hr, h.parser, h.tokens, h.caps⟩)).bindEq fun tok => ?_
    refine (Matches.update fun _ _ h => append_alike h tok).bind fun _ _ _ => ?_
    exact .ite Iff.rfl (.ret rfl) ih

theorem scanAll_alike (hscan : Matches G R.source Eq nextToken nextToken) :
    ReadsAlike G R (scanAll grow) := by
  refine (Matches.look (Q := Eq) fun _ _ h => (R.rest h.source).symm).bindEq fun rest => ?_
  exact tokenRounds_alike hscan _

include hG

variable {su : Setup} {R : ReadRel su.grow}

theorem formRounds_alike (rounds : Nat) (plan : GrowthPlan) (forms : List Datum) :
    ReadsAlike G R (formRounds su rounds plan forms) := by
  induction rounds generalizing plan forms with
  | zero => exact .ret rfl
  | succ rounds ih =>
    refine peekForm_alike.bindEq fun tok => ?_
    refine .ite Iff.rfl ?_ (.ret rfl)
    refine (Matches.zoom (parse_alike hG R.nodes) (fun _ _ h => h.parser)
      (fun _ _ _ _ h hp => ⟨h.source, hp, h.tokens, h.caps⟩)).bindEq fun form => ?_
    refine (Matches.apart plan (admit_matches hG _)).bindEq fun grown => ?_
    exact ih _ _

theorem readForms_alike : ReadsAlike G R (readForms su) := by
  refine (Matches.update fun _ _ h => toParser_alike h).bind fun _ _ _ => ?_
  refine (Matches.look (Q := Eq) fun _ _ h => by rw [h.tokens]).bindEq fun n => ?_
  exact formRounds_alike hG _ _ _

end

end Reader

end Lispico
