import Mathlib

/-!
# Sums over the keys of finite maps

A quantity that is kept by key, and zero at all but finitely many keys, has a sum. A change
of finitely many keys changes the sum by what it changes at these keys.
-/

namespace Lispico

namespace Lib

section

variable {K : Type*} [DecidableEq K] {f g : K → Int} {keys : List K}

noncomputable def tally (f : K → Int) : Int := ∑ᶠ k, f k

theorem tally_eq_sum (hkeys : keys.Nodup) (h : ∀ k ∉ keys, f k = 0) :
    tally f = (keys.map f).sum := by
  have hsupport : Function.support f ⊆ (keys.toFinset : Set K) := by
    intro k hk
    rw [Finset.mem_coe, List.mem_toFinset]
    by_contra hnot
    exact hk (h k hnot)
  rw [tally, finsum_eq_sum_of_support_subset f hsupport, List.sum_toFinset f hkeys]

theorem tally_eq_add (hkeys : keys.Nodup) (hf : (Function.support f).Finite)
    (h : ∀ k ∉ keys, g k = f k) :
    tally g = tally f + (keys.map fun k => g k - f k).sum := by
  have hzero : ∀ k ∉ keys, (fun k => g k - f k) k = 0 := by
    intro k hk
    dsimp only
    rw [h k hk, sub_self]
  have hdiff : (Function.support fun k => g k - f k).Finite := by
    refine keys.toFinset.finite_toSet.subset fun k hk => ?_
    rw [Finset.mem_coe, List.mem_toFinset]
    by_contra hnot
    exact hk (hzero k hnot)
  rw [← tally_eq_sum hkeys hzero, tally, tally, tally, ← finsum_add_distrib hf hdiff]
  exact finsum_congr fun k => by omega

omit [DecidableEq K] in
theorem tally_congr (h : ∀ k, g k = f k) : tally g = tally f := finsum_congr h

theorem tally_mono (hf : (Function.support f).Finite) (hg : (Function.support g).Finite)
    (h : ∀ k, f k ≤ g k) : tally f ≤ tally g := by
  rw [tally, tally, finsum_eq_sum_of_support_subset f (s := hf.toFinset ∪ hg.toFinset),
    finsum_eq_sum_of_support_subset g (s := hf.toFinset ∪ hg.toFinset)]
  · exact Finset.sum_le_sum fun k _ => h k
  · simp
  · simp

variable {β : K → Type*} (s : AList β) (w : ∀ k, β k → Int)

def quantity (s : AList β) (w : ∀ k, β k → Int) (k : K) : Int :=
  match s.lookup k with
  | some b => w k b
  | none => 0

theorem quantity_of_not_mem {s : AList β} {k : K} (h : k ∉ s.keys) : quantity s w k = 0 := by
  rw [quantity, AList.lookup_eq_none.2 (by rwa [AList.mem_keys])]

theorem quantity_finite : (Function.support (quantity s w)).Finite := by
  refine s.keys.toFinset.finite_toSet.subset fun k hk => ?_
  rw [Finset.mem_coe, List.mem_toFinset]
  by_contra hnot
  exact hk (quantity_of_not_mem w hnot)

theorem tally_quantity : tally (quantity s w) = (s.entries.map fun x => w x.1 x.2).sum := by
  rw [tally_eq_sum s.keys_nodup fun k hk => quantity_of_not_mem w hk, AList.keys, List.keys,
    List.map_map]
  congr 1
  refine List.map_congr_left fun x hx => ?_
  have hlook : s.lookup x.1 = some x.2 := AList.mem_lookup_iff.2 hx
  simp [quantity, hlook]

end

end Lib

end Lispico
