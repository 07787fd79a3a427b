import Mathlib

/-!
# Hash keys

Map keys are scalars. `toHashKey` gives each its type tag and payload, with the
signed zeros and the NaNs of floating-point numbers folded together, and
`hashOfKey` hashes that with FNV-1a, folded to 32 bits. Strings are compared by
code points, which for UTF-8 is the order of their bytes.
-/

namespace Lispico

namespace Core

/-- A value used as a map key: the hashable scalars, and every other value by the name
of its type. -/
inductive Key where
  | nil
  | bool (v : Bool)
  | int (v : Int64)
  | float (bits : UInt64)
  | string (v : String)
  | symbol (v : String)
  | keyword (v : String)
  | other (typ : String)
deriving DecidableEq, Repr

inductive HkType where
  | hkBool
  | hkFloat
  | hkInt
  | hkKeyword
  | hkNil
  | hkString
  | hkSymbol
deriving DecidableEq, Repr

def HkType.toNat : HkType → Nat
  | .hkBool => 0
  | .hkFloat => 1
  | .hkInt => 2
  | .hkKeyword => 3
  | .hkNil => 4
  | .hkString => 5
  | .hkSymbol => 6

structure HashKey where
  typ : HkType
  num : UInt64
  str : String
deriving DecidableEq, Repr

/-- `less`: by type, then by bit pattern, then by text. -/
def HashKey.less (hk other : HashKey) : Bool :=
  if hk.typ ≠ other.typ then
    hk.typ.toNat < other.typ.toNat
  else if hk.num ≠ other.num then
    hk.num < other.num
  else
    hk.str < other.str

def negZeroBits : UInt64 := (1 : UInt64) <<< 63

/-- The bits of the NaN that `math.NaN` returns. -/
def nanBits : UInt64 := 0x7FF8000000000001

/-- `math.IsNaN` on a bit pattern: all exponent bits set and some mantissa bit set. -/
def isNaNBits (bits : UInt64) : Bool :=
  (bits &&& 0x7FF0000000000000) == 0x7FF0000000000000 && (bits &&& 0x000FFFFFFFFFFFFF) != 0

def toHashKey : Key → Except String HashKey
  | .nil => .ok ⟨.hkNil, 0, ""⟩
  | .bool v => .ok ⟨.hkBool, if v then 1 else 0, ""⟩
  | .int v => .ok ⟨.hkInt, v.toUInt64, ""⟩
  | .float bits =>
    let bits :=
      if isNaNBits bits then nanBits
      else if bits = negZeroBits then 0
      else bits
    .ok ⟨.hkFloat, bits, ""⟩
  | .string v => .ok ⟨.hkString, 0, v⟩
  | .symbol v => .ok ⟨.hkSymbol, 0, v⟩
  | .keyword v => .ok ⟨.hkKeyword, 0, v⟩
  | .other typ => .error ("unhashable type: " ++ typ)

def fnvOffset : UInt64 := 14695981039346656037

def fnvPrime : UInt64 := 1099511628211

/-- The loop of `hashOfKey` over the bytes of the number, lowest first, up to its highest
nonzero byte. Eight rounds see all of a 64-bit number. -/
def hashNum : Nat → UInt64 → UInt64 → UInt64
  | 0, h, _ => h
  | rounds + 1, h, n =>
    let h := (h ^^^ (n &&& 0xff)) * fnvPrime
    if n < 0x100 then h else hashNum rounds h (n >>> 8)

/-- `hashOfKey`: FNV-1a over type, number and text, with the high half folded down. -/
def hashOfKey (hk : HashKey) : BitVec 32 :=
  let h := (fnvOffset ^^^ UInt64.ofNat hk.typ.toNat) * fnvPrime
  let h := hashNum 8 h hk.num
  let h := hk.str.toUTF8.data.toList.foldl (fun h b => (h ^^^ b.toUInt64) * fnvPrime) h
  (h ^^^ (h >>> 32)).toBitVec.setWidth 32

namespace HashKey

/-- The position of a key in the order of `less`. -/
def rank (hk : HashKey) : ℕ ×ₗ ℕ ×ₗ String :=
  toLex (hk.typ.toNat, toLex (hk.num.toNat, hk.str))

theorem typ_toNat_injective : Function.Injective HkType.toNat := by
  intro s t h
  cases s <;> cases t <;> first | rfl | cases h

theorem rank_injective : Function.Injective rank := by
  rintro ⟨s, n, a⟩ ⟨t, m, b⟩ h
  simp only [rank, EmbeddingLike.apply_eq_iff_eq, Prod.mk.injEq] at h
  obtain ⟨htyp, hnum, rfl⟩ := h
  rw [typ_toNat_injective htyp, UInt64.toNat_inj.1 hnum]

theorem less_iff_rank_lt (a b : HashKey) : a.less b = true ↔ a.rank < b.rank := by
  simp only [less, rank, Prod.Lex.toLex_lt_toLex]
  by_cases htyp : a.typ = b.typ
  · by_cases hnum : a.num = b.num
    · simp [htyp, hnum]
    · have hne : a.num.toNat ≠ b.num.toNat := fun h => hnum (UInt64.toNat_inj.1 h)
      simp [htyp, hnum, hne, UInt64.lt_iff_toNat_lt]
  · have hne : a.typ.toNat ≠ b.typ.toNat := fun h => htyp (typ_toNat_injective h)
    simp [htyp, hne]

end HashKey

end Core

end Lispico
