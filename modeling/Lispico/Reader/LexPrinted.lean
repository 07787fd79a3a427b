import Lispico.Reader.ScanPrinted

/-!
# The tokens of a printed value

Printing a readable value and scanning the text gives the lexemes of the value, by induction
on the value; the depth at which the printer cuts off is not reached by a value that the
reader's depth limit admits.
-/

namespace Lispico

namespace Reader

open Lispico.Core Lib Guarded List

/-- The tokens that the scanner takes have these lexemes, and it ends at this text. -/
inductive Lexes : List Lexeme → Source → Text → Prop where
  | done {r : Source} {t : Text} (h : At t r) : Lexes [] r t
  | token {tok : Token} {ls : List Lexeme} {r r' : Source} {t : Text}
      (hrun : nextToken r none = (.ok tok, r', none)) (heof : tok.typ ≠ .eof)
      (hlt : r'.rest.length < r.rest.length) (h : Lexes ls r' t) :
      Lexes (tok.lexeme :: ls) r t

variable {r : Source} {t : Text} {l : Lexeme}

theorem Lexes.append {ls ls' : List Lexeme} {t' : Text} (h : Lexes ls r t)
    (h' : ∀ r', At t r' → Lexes ls' r' t') : Lexes (ls ++ ls') r t' := by
  induction h with
  | done hr => exact h' _ hr
  | token hrun heof hlt _ ih => exact .token hrun heof hlt (ih h')

theorem Lexes.length_le {ls : List Lexeme} (h : Lexes ls r t) : ls.length ≤ r.rest.length := by
  induction h with
  | done _ => exact Nat.zero_le _
  | token _ _ hlt _ ih =>
    rw [length_cons]
    omega

theorem Scanned.lexes {x : Text} (h : Scanned nextToken r l t)
    (hr : Before (x ++ t) r) (hx : x ≠ []) (hl : l.1 ≠ .eof) : Lexes [l] r t := by
  obtain ⟨tok, rfl, r', hrun, hr'⟩ := h
  obtain ⟨blank, hrest, -⟩ := hr.rest
  refine .token hrun hl ?_ (.done hr')
  have hpos := List.length_pos_iff.mpr hx
  rw [hrest, hr'.rest, length_append, length_append]
  omega

theorem height_pos (v : Datum) : 1 ≤ v.height := by
  cases v <;> simp [Datum.height]

variable {depth : Nat}

theorem depth_le {v : Datum} (h : depth + v.height ≤ defaultMaxStructuralDepth + 1) :
    depth ≤ defaultMaxStructuralDepth := by
  have := height_pos v
  omega

theorem bounded_eq (h : depth ≤ defaultMaxStructuralDepth) (t : Text) :
    bounded depth t = t := if_neg (Nat.not_lt.mpr h)

theorem not_zero_mem {conv : Strconv} {s : Text} (h : conv.quote s = quoted s) : 0 ∉ s := by
  intro hmem
  refine conv.quote_ne_zero s ?_
  rw [h]
  refine mem_cons_of_mem _ (mem_append_left _ (List.mem_flatMap.mpr ⟨0, hmem, ?_⟩))
  decide

theorem symbolName_nil : SymbolName (text "nil") :=
  ⟨byte 'n', text "il", rfl, by decide, by decide, by decide, by decide⟩

theorem symbolName_bool (v : Bool) : SymbolName (text (if v then "true" else "false")) := by
  cases v with
  | true => exact ⟨byte 't', text "rue", rfl, by decide, by decide, by decide, by decide⟩
  | false => exact ⟨byte 'f', text "alse", rfl, by decide, by decide, by decide, by decide⟩

theorem symbol_lexes {name : Text} (hname : SymbolName name)
    (ht : isSymbolChar (t.headD 0) = false) (hr : Before (name ++ t) r) :
    Lexes [(.symbol, name)] r t := by
  refine (symbol_scanned hname ht hr).lexes hr ?_ nofun
  obtain ⟨ch, rest, rfl, -⟩ := hname
  exact cons_ne_nil _ _

/-- The text of a part of a printed collection, with its lexemes. -/
abbrev Part := Text × List Lexeme

def Datum.part (conv : Strconv) (depth : Nat) (v : Datum) : Part :=
  (boundedString conv v depth, v.lexemes)

def pairPart (conv : Strconv) (depth : Nat) (pair : Datum × Datum) : List Part :=
  [pair.1.part conv depth, pair.2.part conv depth]

variable (conv : Strconv)

theorem parts_eq (items : List Datum)
    (h : depth + heights items ≤ defaultMaxStructuralDepth + 1) :
    parts conv items depth = (items.map (Datum.part conv depth)).map Prod.fst := by
  induction items with
  | nil => rfl
  | cons item items ih =>
    have hpos := height_pos item
    rw [heights] at h
    rw [parts, if_pos (by omega), ih (by omega)]
    rfl

theorem pairParts_eq (pairs : List (Datum × Datum))
    (h : depth + pairHeights pairs ≤ defaultMaxStructuralDepth + 1) :
    pairParts conv pairs depth = (pairs.flatMap (pairPart conv depth)).map Prod.fst := by
  induction pairs with
  | nil => rfl
  | cons pair pairs ih =>
    have hpos := height_pos pair.1
    rw [pairHeights] at h
    rw [pairParts, if_pos (by omega), ih (by omega)]
    rfl

theorem allLexemes_eq (depth : Nat) (items : List Datum) :
    allLexemes items = ((items.map (Datum.part conv depth)).map Prod.snd).flatten := by
  induction items with
  | nil => rfl
  | cons item items ih =>
    rw [allLexemes, ih]
    rfl

theorem pairLexemes_eq (depth : Nat) (pairs : List (Datum × Datum)) :
    pairLexemes pairs = ((pairs.flatMap (pairPart conv depth)).map Prod.snd).flatten := by
  induction pairs with
  | nil => rfl
  | cons pair pairs ih =>
    rw [pairLexemes, ih]
    rfl

/-- A closing bracket: how it is scanned, and that no word goes on with it. -/
structure Closes (ch : UInt8) (l : Lexeme) : Prop where
  lexes : ∀ {t r}, Before (ch :: t) r → Lexes [l] r t
  ends : isSymbolChar ch = false

theorem closes_paren : Closes (byte ')') (.rParen, []) :=
  ⟨fun hr => (rParen_scanned hr).lexes (x := [_]) hr (cons_ne_nil _ _) nofun, by decide⟩

theorem closes_bracket : Closes (byte ']') (.rBracket, []) :=
  ⟨fun hr => (bracket_scanned (by decide) hr).lexes (x := [_]) hr (cons_ne_nil _ _)
    (by decide), by decide⟩

theorem closes_brace : Closes (byte '\x7d') (.rBrace, []) :=
  ⟨fun hr => (bracket_scanned (by decide) hr).lexes (x := [_]) hr (cons_ne_nil _ _)
    (by decide), by decide⟩

/-- A part that is scanned as its lexemes wherever no word goes on after it. -/
def Part.Scans (part : Part) : Prop :=
  ∀ r t, isSymbolChar (t.headD 0) = false → Before (part.1 ++ t) r → Lexes part.2 r t

theorem parts_lexes {ch : UInt8} (hclose : Closes ch l) (ps : List Part)
    (hps : ∀ part ∈ ps, part.Scans) (hr : Before (join (ps.map Prod.fst) ++ ch :: t) r) :
    Lexes ((ps.map Prod.snd).flatten ++ [l]) r t := by
  induction ps generalizing r with
  | nil => exact hclose.lexes hr
  | cons part ps ih =>
    have hfirst := hps part mem_cons_self
    have hrest (r' : Source) :=
      ih (r := r') fun part' hmem => hps part' (mem_cons_of_mem _ hmem)
    rw [map_cons, flatten_cons, append_assoc]
    cases ps with
    | nil =>
      exact (hfirst r (ch :: t) hclose.ends hr).append fun r' hr' => hclose.lexes hr'.before
    | cons part' ps =>
      have htext : join (part.1 :: (part' :: ps).map Prod.fst) ++ ch :: t =
          part.1 ++ byte ' ' :: (join ((part' :: ps).map Prod.fst) ++ ch :: t) := by
        simp [join]
      rw [map_cons, htext] at hr
      have hspace : isSymbolChar (byte ' ') = false := by decide
      exact (hfirst r (byte ' ' :: _) hspace hr).append fun r' hr' => hrest r' hr'.before_space

section

variable (conv : Strconv)

mutual

theorem datum_scans : (v : Datum) → (depth : Nat) → v.Readable conv →
    depth + v.height ≤ defaultMaxStructuralDepth + 1 → (v.part conv depth).Scans
  | .nil, depth, _, hdepth, r, t, ht, hr => by
    rw [Datum.part, boundedString, bounded_eq (depth_le hdepth)] at hr
    exact symbol_lexes symbolName_nil ht hr
  | .bool v, depth, _, hdepth, r, t, ht, hr => by
    rw [Datum.part, boundedString, bounded_eq (depth_le hdepth)] at hr
    exact symbol_lexes (symbolName_bool v) ht hr
  | .int v, depth, _, hdepth, r, t, ht, hr => by
    rw [Datum.part, boundedString, bounded_eq (depth_le hdepth)] at hr
    refine (number_scanned v ht hr).lexes hr ?_ nofun
    unfold formatInt
    split_ifs
    · exact cons_ne_nil _ _
    · exact decimal_ne_nil _
  | .float _, _, hv, _, _, _, _, _ => hv.elim
  | .string s, depth, hv, hdepth, r, t, ht, hr => by
    have hquote : conv.quote s = quoted s := hv
    rw [Datum.part, boundedString, bounded_eq (depth_le hdepth), hquote] at hr
    exact (string_scanned (not_zero_mem hquote) hr).lexes hr (cons_ne_nil _ _) nofun
  | .symbol s, depth, hv, hdepth, r, t, ht, hr => by
    rw [Datum.part, boundedString, bounded_eq (depth_le hdepth)] at hr
    exact symbol_lexes hv ht hr
  | .keyword s, depth, hv, hdepth, r, t, ht, hr => by
    rw [Datum.part, boundedString, bounded_eq (depth_le hdepth)] at hr
    exact (keyword_scanned hv ht hr).lexes hr (cons_ne_nil _ _) nofun
  | .list items, depth, hv, hdepth, r, t, ht, hr => by
    rw [Datum.height] at hdepth
    rw [Datum.part, boundedString, bounded_eq (by omega), cons_append,
      append_assoc, parts_eq conv items (by omega)] at hr
    have hitems := items_scan items (depth + 1) hv (by omega)
    have hopen := (lParen_scanned hr).lexes (x := [_]) hr (cons_ne_nil _ _) nofun
    rw [Datum.part, Datum.lexemes, allLexemes_eq conv (depth + 1)]
    exact hopen.append fun r' hr' => parts_lexes closes_paren _ hitems hr'.before
  | .vector items, depth, hv, hdepth, r, t, ht, hr => by
    rw [Datum.height] at hdepth
    rw [Datum.part, boundedString, bounded_eq (by omega), cons_append,
      append_assoc, parts_eq conv items (by omega)] at hr
    have hitems := items_scan items (depth + 1) hv (by omega)
    have hopen := (bracket_scanned (by decide) hr).lexes (x := [_]) hr (cons_ne_nil _ _)
      (by decide)
    rw [Datum.part, Datum.lexemes, allLexemes_eq conv (depth + 1)]
    exact hopen.append fun r' hr' => parts_lexes closes_bracket _ hitems hr'.before
  | .map pairs, depth, hv, hdepth, r, t, ht, hr => by
    rw [Datum.height] at hdepth
    rw [Datum.part, boundedString, bounded_eq (by omega), cons_append,
      append_assoc, pairParts_eq conv pairs (by omega)] at hr
    have hpairs := pairs_scan pairs (depth + 1) hv.2 (by omega)
    have hopen := (bracket_scanned (by decide) hr).lexes (x := [_]) hr (cons_ne_nil _ _)
      (by decide)
    rw [Datum.part, Datum.lexemes, pairLexemes_eq conv (depth + 1)]
    exact hopen.append fun r' hr' => parts_lexes closes_brace _ hpairs hr'.before

theorem items_scan : (items : List Datum) → (depth : Nat) → AllReadable conv items →
    depth + heights items ≤ defaultMaxStructuralDepth + 1 →
      ∀ part ∈ items.map (Datum.part conv depth), part.Scans
  | [], _, _, _, _, hmem => by cases hmem
  | item :: items, depth, hitems, hdepth, part, hmem => by
    rw [heights] at hdepth
    rcases List.mem_cons.mp hmem with rfl | hmem
    · exact datum_scans item depth hitems.1 (by omega)
    · exact items_scan items depth hitems.2 (by omega) part hmem

theorem pairs_scan : (pairs : List (Datum × Datum)) → (depth : Nat) → PairsReadable conv pairs →
    depth + pairHeights pairs ≤ defaultMaxStructuralDepth + 1 →
      ∀ part ∈ pairs.flatMap (pairPart conv depth), part.Scans
  | [], _, _, _, _, hmem => by cases hmem
  | (k, v) :: pairs, depth, hpairs, hdepth, part, hmem => by
    rw [pairHeights] at hdepth
    rcases List.mem_cons.mp hmem with rfl | hmem
    · exact datum_scans k depth hpairs.1 (by omega)
    rcases List.mem_cons.mp hmem with rfl | hmem
    · exact datum_scans v depth hpairs.2.1 (by omega)
    · exact pairs_scan pairs depth hpairs.2.2 (by omega) part hmem

end

end

end Reader

end Lispico
