import Lispico.Core.Error
import Lispico.Core.HashKey
import Mathlib

/-!
# Data

The values that the reader builds, with Go strings as their bytes and a map as its entries in
key order. Integers are formatted and parsed here; floats are their bits, and `strconv` formats,
parses and quotes.
-/

namespace Lispico

namespace Reader

open Lispico.Core

abbrev Text := List UInt8

def byte (c : Char) : UInt8 := c.toUInt8

def text (s : String) : Text := s.toUTF8.data.toList

/-- A string of bytes, each shown as the character with its number; the bytes of a number
are ASCII. -/
def shown (t : Text) : String := String.ofList (t.map fun b => Char.ofNat b.toNat)

/-- The functions of `strconv` that are not written out. Quoting leaves no NUL byte. -/
structure Strconv where
  parseFloat : Text → Option UInt64
  formatFloat : UInt64 → Text
  quote : Text → Text
  quote_ne_zero : ∀ t, 0 ∉ quote t

inductive Datum where
  | nil
  | bool (v : Bool)
  | int (v : Int64)
  | float (bits : UInt64)
  | string (v : Text)
  | symbol (v : Text)
  | keyword (v : Text)
  | list (items : List Datum)
  | vector (items : List Datum)
  | map (pairs : List (Datum × Datum))

/-- The `hashKey` of a datum. -/
structure DatumKey where
  typ : HkType
  num : UInt64
  str : Text
deriving DecidableEq, Repr

def textLess : Text → Text → Bool
  | _, [] => false
  | [], _ :: _ => true
  | a :: s, b :: t => a < b || (a == b && textLess s t)

/-- `less`: by type, then by bit pattern, then by text. -/
def DatumKey.less (hk other : DatumKey) : Bool :=
  if hk.typ ≠ other.typ then hk.typ.toNat < other.typ.toNat
  else if hk.num ≠ other.num then hk.num < other.num
  else textLess hk.str other.str

def toHashKey : Datum → Except GoErr DatumKey
  | .nil => .ok ⟨.hkNil, 0, []⟩
  | .bool v => .ok ⟨.hkBool, if v then 1 else 0, []⟩
  | .int v => .ok ⟨.hkInt, v.toUInt64, []⟩
  | .float bits =>
    let bits := if isNaNBits bits then nanBits else if bits = negZeroBits then 0 else bits
    .ok ⟨.hkFloat, bits, []⟩
  | .string v => .ok ⟨.hkString, 0, v⟩
  | .symbol v => .ok ⟨.hkSymbol, 0, v⟩
  | .keyword v => .ok ⟨.hkKeyword, 0, v⟩
  | .list _ => .error (.plain "unhashable type: core.List")
  | .vector _ => .error (.plain "unhashable type: core.Vector")
  | .map _ => .error (.plain "unhashable type: *core.HashMap")

def decimal (n : Nat) : Text :=
  if n = 0 then [byte '0']
  else (Nat.digits 10 n).reverse.map fun d => UInt8.ofNat (d + (byte '0').toNat)

/-- `strconv.FormatInt` to base ten. -/
def formatInt (v : Int64) : Text :=
  if v.toInt < 0 then byte '-' :: decimal v.toInt.natAbs else decimal v.toInt.natAbs

def isDigit (ch : UInt8) : Bool := byte '0' ≤ ch && ch ≤ byte '9'

def digitsValue (t : Text) : Option Nat :=
  if t ≠ [] ∧ t.all isDigit then
    some (t.foldl (fun n ch => n * 10 + (ch.toNat - (byte '0').toNat)) 0)
  else none

/-- `strconv.ParseInt` to base ten and 64 bits. -/
def parseInt (t : Text) : Option Int64 :=
  if t.head? = some (byte '-') then
    (digitsValue t.tail).bind fun n =>
      if n ≤ 2 ^ 63 then some (Int64.ofInt (-n)) else none
  else
    (digitsValue (if t.head? = some (byte '+') then t.tail else t)).bind fun n =>
      if n < 2 ^ 63 then some (Int64.ofInt n) else none

def defaultMaxStructuralDepth : Nat := 1024

def join : List Text → Text
  | [] => []
  | [part] => part
  | part :: parts => part ++ byte ' ' :: join parts

/-- The text of a value at a depth, cut off below the deepest level printed. -/
def bounded (depth : Nat) (t : Text) : Text :=
  if depth > defaultMaxStructuralDepth then text "..." else t

mutual

def boundedString (conv : Strconv) : Datum → Nat → Text
  | .nil, depth => bounded depth (text "nil")
  | .bool v, depth => bounded depth (text (if v then "true" else "false"))
  | .int v, depth => bounded depth (formatInt v)
  | .float bits, depth => bounded depth (conv.formatFloat bits)
  | .string v, depth => bounded depth (conv.quote v)
  | .symbol v, depth => bounded depth v
  | .keyword v, depth => bounded depth (byte ':' :: v)
  | .list items, depth =>
    bounded depth (byte '(' :: (join (parts conv items (depth + 1)) ++ [byte ')']))
  | .vector items, depth =>
    bounded depth (byte '[' :: (join (parts conv items (depth + 1)) ++ [byte ']']))
  | .map pairs, depth =>
    bounded depth (byte '{' :: (join (pairParts conv pairs (depth + 1)) ++ [byte '}']))

/-- The parts of a list or a vector; below the deepest level only the first one. -/
def parts (conv : Strconv) : List Datum → Nat → List Text
  | [], _ => []
  | item :: items, depth =>
    boundedString conv item depth ::
      if depth ≤ defaultMaxStructuralDepth then parts conv items depth else []

def pairParts (conv : Strconv) : List (Datum × Datum) → Nat → List Text
  | [], _ => []
  | (k, v) :: pairs, depth =>
    boundedString conv k depth :: boundedString conv v depth ::
      if depth ≤ defaultMaxStructuralDepth then pairParts conv pairs depth else []

end

end Reader

end Lispico
