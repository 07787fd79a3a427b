import Mathlib

/-!
# Arithmetic of 64-bit integers

The sum of two 64-bit integers is their sum as integers, or wraps around once; order,
minimum and maximum are those of the integers.
-/

namespace Lispico

namespace Lib

open Int64

variable {a b : Int64}

theorem toInt_add_eq (hle : -2 ^ 63 ≤ a.toInt + b.toInt)
    (hlt : a.toInt + b.toInt < 2 ^ 63) : (a + b).toInt = a.toInt + b.toInt := by
  rw [toInt_add, Int.bmod_def]
  omega

theorem toInt_add_wrapped (h : 2 ^ 63 ≤ a.toInt + b.toInt) :
    (a + b).toInt = a.toInt + b.toInt - 2 ^ 64 := by
  have ha := toInt_lt a
  have hb := toInt_lt b
  rw [toInt_add, Int.bmod_def]
  omega

theorem toInt_sub_eq (hle : -2 ^ 63 ≤ a.toInt - b.toInt)
    (hlt : a.toInt - b.toInt < 2 ^ 63) : (a - b).toInt = a.toInt - b.toInt := by
  rw [toInt_sub, Int.bmod_def]
  omega

theorem toInt_min (a b : Int64) : (min a b).toInt = min a.toInt b.toInt := by
  change (if a ≤ b then a else b).toInt = _
  split
  · rename_i h
    rw [le_iff_toInt_le] at h
    omega
  · rename_i h
    rw [le_iff_toInt_le] at h
    omega

theorem toInt_max (a b : Int64) : (max a b).toInt = max a.toInt b.toInt := by
  change (if a ≤ b then b else a).toInt = _
  split
  · rename_i h
    rw [le_iff_toInt_le] at h
    omega
  · rename_i h
    rw [le_iff_toInt_le] at h
    omega

end Lib

end Lispico
