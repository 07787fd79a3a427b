import Mathlib

/-!
# Compacted sparse arrays

`Compacts b xs f` says that the bitmap `b` and the list `xs` keep the sparse array `f`. Slot `s`
is found at the population count below `s`; writing, filling or clearing a slot is a write, an
insertion or a removal there.
-/

namespace Lispico

namespace Lib

namespace Sparse

open List

def onesCount {w : Nat} (b : BitVec w) : Nat := (List.range w).countP b.getLsbD

/-- The bitmap with only the bit of slot `s`. -/
def bit (w s : Nat) : BitVec w := 1#w <<< s

structure Compacts {α : Type*} {w : Nat} (b : BitVec w) (xs : List α)
    (f : Nat → Option α) : Prop where
  bits : ∀ i < w, b.getLsbD i = (f i).isSome
  list : xs = (List.range w).filterMap f

/-- The place of slot `s` in the list. -/
def index {w : Nat} (b : BitVec w) (s : Nat) : Nat := onesCount (b &&& (bit w s - 1#w))

theorem getLsbD_bit {w s i : Nat} (hs : s < w) : (bit w s).getLsbD i = decide (i = s) := by
  simp only [bit, BitVec.getLsbD_shiftLeft, BitVec.getLsbD_one]
  grind

variable {w s : Nat}

theorem bit_sub_one (hs : s < w) : bit w s - 1#w = BitVec.ofNat w (2 ^ s - 1) := by
  apply BitVec.eq_of_toNat_eq
  have hpow : 2 ^ s < 2 ^ w := Nat.pow_lt_pow_right (by decide) hs
  have hpos : 0 < 2 ^ s := Nat.pow_pos (by decide)
  have hone : 1 < 2 ^ w := by omega
  simp only [bit, BitVec.toNat_sub, BitVec.toNat_shiftLeft, BitVec.toNat_ofNat,
    Nat.shiftLeft_eq, Nat.mod_eq_of_lt hone, Nat.one_mul, Nat.mod_eq_of_lt hpow]
  have hsum : 2 ^ w - 1 + 2 ^ s = 2 ^ s - 1 + 2 ^ w := by omega
  rw [hsum, Nat.add_mod_right]

theorem getLsbD_bit_sub_one {w s i : Nat} (hs : s < w) (hi : i < w) :
    (bit w s - 1#w).getLsbD i = decide (i < s) := by
  rw [bit_sub_one hs, BitVec.getLsbD_ofNat, Nat.testBit_two_pow_sub_one]
  simp [hi]

theorem and_bit_ne_zero (hs : s < w) (b : BitVec w) :
    b &&& bit w s ≠ 0#w ↔ b.getLsbD s = true := by
  constructor
  · intro h
    by_contra hfalse
    apply h
    apply BitVec.eq_of_getLsbD_eq
    intro i hi
    simp only [BitVec.getLsbD_and, getLsbD_bit hs]
    grind
  · intro h hzero
    have hget := congrArg (fun c => c.getLsbD s) hzero
    simp [getLsbD_bit hs, h] at hget

theorem index_eq (hs : s < w) (b : BitVec w) : index b s = (List.range s).countP b.getLsbD := by
  have hsplit : List.range w = List.range s ++ (List.range (w - s)).map (s + ·) := by
    rw [← range_add, Nat.add_sub_cancel' (Nat.le_of_lt hs)]
  rw [index, onesCount, hsplit, countP_append]
  have hlow : (List.range s).countP (b &&& (bit w s - 1#w)).getLsbD =
      (List.range s).countP b.getLsbD := by
    apply countP_congr
    intro i hi
    rw [mem_range] at hi
    simp [getLsbD_bit_sub_one hs (Nat.lt_trans hi hs), hi]
  have hhigh : ((List.range (w - s)).map (s + ·)).countP (b &&& (bit w s - 1#w)).getLsbD = 0 := by
    rw [countP_eq_zero]
    intro i hi
    obtain ⟨j, hj, rfl⟩ := List.mem_map.1 hi
    rw [mem_range] at hj
    simp [getLsbD_bit_sub_one hs (show s + j < w by omega)]
  rw [hlow, hhigh, Nat.add_zero]

namespace Compacts

section

variable {α : Type*} {w s : Nat} {b : BitVec w} {xs : List α} {f : Nat → Option α}

section

variable (h : Compacts b xs f)

include h

section

variable (hs : s < w)

include hs

theorem split : ∃ ys zs, xs = ys ++ (f s).toList ++ zs ∧ index b s = ys.length ∧
      ∀ g : Nat → Option α, (∀ i, i ≠ s → g i = f i) →
        (List.range w).filterMap g = ys ++ (g s).toList ++ zs := by
  have hsplit : List.range w =
      List.range s ++ [s] ++ (List.range (w - s - 1)).map (s + 1 + ·) := by
    rw [← range_succ, ← range_add]
    congr 1
    omega
  have hgen : ∀ g : Nat → Option α, (∀ i, i ≠ s → g i = f i) →
      (List.range w).filterMap g = (List.range s).filterMap f ++ (g s).toList ++
        ((List.range (w - s - 1)).map (s + 1 + ·)).filterMap f := by
    intro g hg
    have hlow : (List.range s).filterMap g = (List.range s).filterMap f := by
      apply filterMap_congr
      intro i hi
      exact hg i (Nat.ne_of_lt (mem_range.1 hi))
    have hhigh : ((List.range (w - s - 1)).map (s + 1 + ·)).filterMap g =
        ((List.range (w - s - 1)).map (s + 1 + ·)).filterMap f := by
      apply filterMap_congr
      intro i hi
      obtain ⟨j, -, rfl⟩ := List.mem_map.1 hi
      exact hg _ (by omega)
    rw [hsplit, filterMap_append, filterMap_append, hlow, hhigh]
    have hone : List.filterMap g [s] = (g s).toList := by
      cases hgs : g s <;> simp [hgs]
    rw [hone]
  refine ⟨_, _, h.list.trans (hgen f fun _ _ => rfl), ?_, hgen⟩
  rw [index_eq hs, length_filterMap_eq_countP]
  apply countP_congr
  intro i hi
  rw [h.bits i (Nat.lt_trans (mem_range.1 hi) hs)]

theorem getElem? (hf : (f s).isSome) : xs[index b s]? = f s := by
  obtain ⟨ys, zs, rfl, hidx, -⟩ := h.split hs
  obtain ⟨a, ha⟩ := Option.isSome_iff_exists.1 hf
  simp [hidx, ha]

theorem isSome_iff : b &&& bit w s ≠ 0#w ↔ (f s).isSome := by
  rw [and_bit_ne_zero hs, h.bits s hs]

theorem set (hf : (f s).isSome) (a : α) :
    Compacts b (xs.set (index b s) a) (Function.update f s (some a)) := by
  obtain ⟨ys, zs, rfl, hidx, hgen⟩ := h.split hs
  obtain ⟨c, hc⟩ := Option.isSome_iff_exists.1 hf
  constructor
  · intro i hi
    rw [h.bits i hi]
    by_cases his : i = s
    · simp [his, hc]
    · simp [his]
  · rw [hgen _ fun i hi => Function.update_of_ne hi _ _, hidx]
    simp [hc]

theorem insert (hf : f s = none) (a : α) :
    Compacts (b ||| bit w s) (xs.take (index b s) ++ [a] ++ xs.drop (index b s))
      (Function.update f s (some a)) := by
  obtain ⟨ys, zs, rfl, hidx, hgen⟩ := h.split hs
  constructor
  · intro i hi
    rw [BitVec.getLsbD_or, getLsbD_bit hs, h.bits i hi]
    by_cases his : i = s
    · simp [his]
    · simp [his]
  · rw [hgen _ fun i hi => Function.update_of_ne hi _ _, hidx]
    simp [hf]

theorem erase (hf : (f s).isSome) :
    Compacts (b &&& ~~~bit w s) (xs.take (index b s) ++ xs.drop (index b s + 1))
      (Function.update f s none) := by
  obtain ⟨ys, zs, rfl, hidx, hgen⟩ := h.split hs
  obtain ⟨c, hc⟩ := Option.isSome_iff_exists.1 hf
  constructor
  · intro i hi
    rw [BitVec.getLsbD_and, BitVec.getLsbD_not, getLsbD_bit hs, h.bits i hi]
    by_cases his : i = s
    · simp [his]
    · simp [his, hi]
  · rw [hgen _ fun i hi => Function.update_of_ne hi _ _, hidx]
    simp [hc]

theorem eq_bit_iff (hf : (f s).isSome) : b = bit w s ↔ ∀ i < w, i ≠ s → f i = none := by
  rw [BitVec.eq_of_getLsbD_eq_iff]
  refine forall₂_congr fun i hi => ?_
  rw [h.bits i hi, getLsbD_bit hs]
  by_cases his : i = s
  · simp [his, hf]
  · simp [his]

end

theorem eq_zero_iff : b = 0#w ↔ ∀ i < w, f i = none := by
  rw [BitVec.eq_of_getLsbD_eq_iff]
  refine forall₂_congr fun i hi => ?_
  rw [h.bits i hi]
  simp

end

theorem countP_bit (hs : s < w) (t : Nat) :
    (List.range t).countP (bit w s).getLsbD = if s < t then 1 else 0 := by
  have hcount : (List.range t).countP (bit w s).getLsbD = (List.range t).count s := by
    rw [List.count]
    apply countP_congr
    intro i _
    simp [getLsbD_bit hs]
  rw [hcount, List.nodup_range.count]
  simp

theorem index_bit {t : Nat} (hs : s < w) (ht : t < w) :
    index (bit w s) t = if s < t then 1 else 0 := by
  rw [index_eq ht, countP_bit hs]

theorem index_le_onesCount (hs : s < w) (b : BitVec w) : index b s ≤ onesCount b := by
  rw [index_eq hs]
  exact (List.range_sublist.2 (Nat.le_of_lt hs)).countP_le

theorem index_or_bit (hs : s < w) (b : BitVec w) : index (b ||| bit w s) s = index b s := by
  rw [index_eq hs, index_eq hs]
  apply countP_congr
  intro i hi
  rw [BitVec.getLsbD_or, getLsbD_bit hs]
  simp [Nat.ne_of_lt (mem_range.1 hi)]

theorem length (h : Compacts b xs f) : xs.length = onesCount b := by
  rw [h.list, length_filterMap_eq_countP]
  apply countP_congr
  intro i hi
  rw [h.bits i (mem_range.1 hi)]

theorem empty (w : Nat) : Compacts (0#w) ([] : List α) fun _ => none :=
  ⟨by simp, by simp⟩

end

end Compacts

end Sparse

end Lib

end Lispico
