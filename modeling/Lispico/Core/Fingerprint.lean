import Lispico.Core.Value

/-!
# Fingerprints of constants

A structural hash under which a chunk files its constants. Equal values should share
one; lambdas, macros and host values have none. Values are trees here, so the memo of
the walk and its guard against cycles have nothing to do.
-/

namespace Lispico

namespace Core

namespace Fingerprint

def fingerprintMaxDepth : Nat := 64

def mix (h x : UInt64) : UInt64 :=
  let h := (h ^^^ x) * 0x9E3779B97F4A7C15
  h ^^^ (h >>> 29)

def hashString (s : String) : UInt64 :=
  s.toUTF8.data.toList.foldl (fun h b => (h ^^^ b.toUInt64) * 0x100000001B3) 0xCBF29CE484222325

def fingerprintHashKey (hk : HashKey) : UInt64 :=
  mix (UInt64.ofNat hk.typ.toNat) (mix hk.num (hashString hk.str))

/-- Fold the fingerprints of items into a hash; one item without any spoils the whole. -/
def foldItems (f : Value → UInt64 × Bool) (h : UInt64 × Bool) (items : List Value) :
    UInt64 × Bool :=
  items.foldl (fun h item => (mix h.1 (f item).1, h.2 && (f item).2)) h

def foldPairs (f : Value → UInt64 × Bool) (h : UInt64 × Bool) (pairs : List (Value × Value)) :
    UInt64 × Bool :=
  pairs.foldl (fun h pair =>
    match toHashKey pair.1.key with
    | .ok hk =>
      (h.1 ^^^ mix (mix 15 (fingerprintHashKey hk)) (f pair.2).1, h.2 && (f pair.2).2)
    | .error _ => (h.1, false)) h

/-- `fingerprint`, with the number of nesting levels that are left. -/
def fingerprint : Nat → Value → UInt64 × Bool
  | 0, _ => (0x9E3779B97F4A7C15, true)
  | levels + 1, v =>
    match v with
    | .nil => (2, true)
    | .bool b => (if b then 3 else 4, true)
    | .int i => (mix 5 i.toUInt64, true)
    | .float bits => (mix 6 (if Value.floatEq bits 0 then 0 else bits), true)
    | .string s => (mix 7 (hashString s), true)
    | .symbol s => (mix 8 (hashString s), true)
    | .keyword s => (mix 9 (hashString s), true)
    | .goFunc name _ => (mix 10 (hashString name), true)
    | .list items => foldItems (fingerprint levels) (11, true) items
    | .vector items => foldItems (fingerprint levels) (12, true) items
    | .map pairs =>
      foldPairs (fingerprint levels) (mix 14 (UInt64.ofNat pairs.length), true) pairs
    | _ => (0, false)

end Fingerprint

/-- `Fingerprint`: none for a value that has no safe one. -/
def fingerprint (v : Value) : Option UInt64 :=
  match Fingerprint.fingerprint (Fingerprint.fingerprintMaxDepth + 1) v with
  | (h, true) => some h
  | (_, false) => none

end Core

end Lispico
