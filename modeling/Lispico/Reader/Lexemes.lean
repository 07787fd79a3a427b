import Lispico.Reader.Read

/-!
# What a printed value is made of

A readable value has symbols and keywords that the scanner reads, strings quoted with escapes
that the reader decodes, and scalar map keys. Printed, it is a sequence of lexemes.
-/

namespace Lispico

namespace Reader

open Lispico.Core Lib Guarded List

abbrev Lexeme := TokenType × Text

def Token.lexeme (tok : Token) : Lexeme := (tok.typ, tok.val)

/-- The bytes that a symbol may begin with so that the scanner reads a symbol there. -/
def SymbolName (t : Text) : Prop :=
  ∃ ch rest, t = ch :: rest ∧ isSymbolStart ch ∧ ch ≠ byte '~' ∧ rest.all isSymbolChar ∧
    ¬(ch = byte '-' ∧ isDigit (rest.headD 0))

def escape (ch : UInt8) : Text :=
  if ch = byte '\n' then [byte '\\', byte 'n']
  else if ch = byte '\t' then [byte '\\', byte 't']
  else if ch = byte '"' then [byte '\\', byte '"']
  else if ch = byte '\\' then [byte '\\', byte '\\']
  else if ch = byte '\r' then [byte '\\', byte 'r']
  else [ch]

/-- A string in quotes, with the escapes that the reader decodes. -/
def quoted (t : Text) : Text := byte '"' :: (t.flatMap escape ++ [byte '"'])

def SortedKeys (pairs : List (Datum × Datum)) : Prop :=
  (∀ pair ∈ pairs, ∃ hk, toHashKey pair.1 = .ok hk) ∧
    pairs.Pairwise fun pair pair' => ∀ hk hk', toHashKey pair.1 = .ok hk →
      toHashKey pair'.1 = .ok hk' → hk.less hk' = true

mutual

/-- The collections that enclose one another in a value, with the value itself. -/
def Datum.height : Datum → Nat
  | .list items => heights items + 1
  | .vector items => heights items + 1
  | .map pairs => pairHeights pairs + 1
  | _ => 1

def heights : List Datum → Nat
  | [] => 0
  | item :: items => max item.height (heights items)

def pairHeights : List (Datum × Datum) → Nat
  | [] => 0
  | (k, v) :: pairs => max (max k.height v.height) (pairHeights pairs)

end

mutual

/-- A value that the reader has a notation for, but for the words it reads as constants. -/
def Datum.Readable (conv : Strconv) : Datum → Prop
  | .nil => True
  | .bool _ => True
  | .int _ => True
  | .float _ => False
  | .string v => conv.quote v = quoted v
  | .symbol v => SymbolName v
  | .keyword v => v.all isSymbolChar
  | .list items => AllReadable conv items
  | .vector items => AllReadable conv items
  | .map pairs => SortedKeys pairs ∧ PairsReadable conv pairs

def AllReadable (conv : Strconv) : List Datum → Prop
  | [] => True
  | item :: items => item.Readable conv ∧ AllReadable conv items

def PairsReadable (conv : Strconv) : List (Datum × Datum) → Prop
  | [] => True
  | (k, v) :: pairs => k.Readable conv ∧ v.Readable conv ∧ PairsReadable conv pairs

end

def Constant (t : Text) : Prop := t = text "nil" ∨ t = text "true" ∨ t = text "false"

mutual

/-- No symbol of the value is a word that the reader takes for a constant. -/
def Datum.Distinct : Datum → Prop
  | .symbol v => ¬Constant v
  | .list items => AllDistinct items
  | .vector items => AllDistinct items
  | .map pairs => PairsDistinct pairs
  | _ => True

def AllDistinct : List Datum → Prop
  | [] => True
  | item :: items => item.Distinct ∧ AllDistinct items

def PairsDistinct : List (Datum × Datum) → Prop
  | [] => True
  | (k, v) :: pairs => k.Distinct ∧ v.Distinct ∧ PairsDistinct pairs

end

mutual

def Datum.lexemes : Datum → List Lexeme
  | .nil => [(.symbol, text "nil")]
  | .bool v => [(.symbol, text (if v then "true" else "false"))]
  | .int v => [(.number, formatInt v)]
  | .float _ => []
  | .string v => [(.string, v)]
  | .symbol v => [(.symbol, v)]
  | .keyword v => [(.keyword, v)]
  | .list items => (.lParen, []) :: (allLexemes items ++ [(.rParen, [])])
  | .vector items => (.lBracket, []) :: (allLexemes items ++ [(.rBracket, [])])
  | .map pairs => (.lBrace, []) :: (pairLexemes pairs ++ [(.rBrace, [])])

def allLexemes : List Datum → List Lexeme
  | [] => []
  | item :: items => item.lexemes ++ allLexemes items

def pairLexemes : List (Datum × Datum) → List Lexeme
  | [] => []
  | (k, v) :: pairs => k.lexemes ++ (v.lexemes ++ pairLexemes pairs)

end

variable (n : Nat)

theorem digits_value :
    ((Nat.digits 10 n).reverse.map fun d => UInt8.ofNat (d + (byte '0').toNat)).foldl
      (fun n ch => n * 10 + (ch.toNat - (byte '0').toNat)) 0 = n := by
  have hfold : ∀ ds : List Nat, (∀ d ∈ ds, d < 10) →
      (ds.reverse.map fun d => UInt8.ofNat (d + (byte '0').toNat)).foldl
        (fun n ch => n * 10 + (ch.toNat - (byte '0').toNat)) 0 = Nat.ofDigits 10 ds := by
    intro ds hds
    induction ds with
    | nil => rfl
    | cons d ds ih =>
      have hd : d < 10 := hds d mem_cons_self
      have hbyte : (UInt8.ofNat (d + (byte '0').toNat)).toNat - (byte '0').toNat = d := by
        have hzero : (byte '0').toNat = 48 := rfl
        rw [hzero, UInt8.toNat_ofNat_of_lt' (by unfold UInt8.size; omega)]
        omega
      rw [reverse_cons, map_append, foldl_append,
        ih fun d hd => hds d (mem_cons_of_mem _ hd), Nat.ofDigits_cons]
      simp only [map_cons, map_nil, foldl_cons, foldl_nil, hbyte]
      omega
  rw [hfold _ fun d hd => Nat.digits_lt_base (by decide) hd, Nat.ofDigits_digits]

theorem decimal_digits : ∀ ch ∈ decimal n, isDigit ch = true := by
  intro ch hch
  unfold decimal at hch
  split_ifs at hch
  · rw [mem_singleton] at hch
    subst hch
    decide
  · obtain ⟨d, hd, rfl⟩ := List.mem_map.mp hch
    have hlt : d < 10 := Nat.digits_lt_base (by decide) (List.mem_reverse.mp hd)
    have hall : ∀ d < 10, isDigit (.ofNat (d + (byte '0').toNat)) = true := by decide
    exact hall d hlt

theorem decimal_ne_nil : decimal n ≠ [] := by
  unfold decimal
  split_ifs with h
  · exact cons_ne_nil _ _
  · intro hnil
    rw [map_eq_nil_iff, reverse_eq_nil_iff, Nat.digits_eq_nil_iff_eq_zero] at hnil
    exact h hnil

theorem digitsValue_decimal : digitsValue (decimal n) = some n := by
  unfold digitsValue
  rw [if_pos ⟨decimal_ne_nil n, List.all_eq_true.mpr (decimal_digits n)⟩]
  unfold decimal
  split_ifs with h
  · subst h
    rfl
  · rw [digits_value]

theorem parseInt_formatInt (v : Int64) : parseInt (formatInt v) = some v := by
  have hlow := Int64.le_toInt v
  have hhigh := Int64.toInt_lt v
  have hhead (ch : UInt8) (hch : isDigit ch = false) :
      ¬(decimal v.toInt.natAbs).head? = some ch := fun h => by
    rw [decimal_digits _ ch (mem_of_mem_head? h)] at hch
    cases hch
  unfold parseInt formatInt
  by_cases hneg : v.toInt < 0
  · rw [if_pos hneg, if_pos head?_cons, tail_cons, digitsValue_decimal,
      Option.bind_some, if_pos (by omega)]
    have habs : -(v.toInt.natAbs : Int) = v.toInt := by omega
    rw [habs, Int64.ofInt_toInt]
  · rw [if_neg hneg, if_neg (hhead (byte '-') (by decide)), if_neg (hhead (byte '+') (by decide)),
      digitsValue_decimal, Option.bind_some, if_pos (by omega)]
    have habs : (v.toInt.natAbs : Int) = v.toInt := by omega
    rw [habs, Int64.ofInt_toInt]

end Reader

end Lispico
