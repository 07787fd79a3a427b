import Lispico.Core.Equality
import Lispico.Core.Fingerprint

/-!
# Equal values share a fingerprint

The fingerprint truncates at a depth of its own, well before equality does. So the lemma
speaks of any two depths: whatever number of levels two values are equal at, they have the
same fingerprint, and one has a safe one if the other has, at every number of levels.
-/

namespace Lispico

namespace Core

open Lib List

namespace Fingerprint

theorem fingerprint_float {bits : UInt64} (h : isNaNBits bits = false) (levels : Nat) :
    fingerprint (levels + 1) (.float bits) = (mix 6 (Value.floatNorm bits), true) := by
  have hzero : Value.floatEq bits 0 = true ↔ Value.floatNorm bits = 0 := by
    rw [Value.floatEq_iff]
    have hnorm : Value.floatNorm 0 = 0 := by decide
    have hnan : isNaNBits 0 = false := by decide
    simp [h, hnorm, hnan]
  rw [fingerprint]
  by_cases hz : Value.floatNorm bits = 0
  · rw [if_pos (hzero.2 hz), hz]
  · have hneg : bits ≠ negZeroBits := by
      rintro rfl
      exact hz (if_pos rfl)
    rw [if_neg fun hf => hz (hzero.1 hf), Value.floatNorm, if_neg hneg]

theorem fingerprint_scalarNorm {v c : Value} (h : v.scalarNorm = some c) (levels : Nat) :
    fingerprint (levels + 1) v = fingerprint (levels + 1) c := by
  cases v with
  | float bits =>
    rw [Value.scalarNorm] at h
    cases hnan : isNaNBits bits with
    | true => simp [hnan] at h
    | false =>
      simp only [hnan, Bool.false_eq_true, if_false, Option.some.injEq] at h
      subst h
      have hidem : Value.floatNorm (Value.floatNorm bits) = Value.floatNorm bits := by
        unfold Value.floatNorm
        split <;> simp_all
      have hnan' : isNaNBits (Value.floatNorm bits) = false := by
        unfold Value.floatNorm
        split
        · decide
        · exact hnan
      rw [fingerprint_float hnan, fingerprint_float hnan', hidem]
  | goFunc name fn =>
    cases h
    rfl
  | lambda => cases h
  | macroVal => cases h
  | recurVal => cases h
  | list => cases h
  | vector => cases h
  | map => cases h
  | _ =>
    cases h
    rfl

variable {f : Value → UInt64 × Bool}

theorem foldItems_congr {xs ys : List Value}
    (h : List.Forall₂ (fun x y => f x = f y) xs ys) (acc : UInt64 × Bool) :
    foldItems f acc xs = foldItems f acc ys := by
  induction h generalizing acc with
  | nil => rfl
  | cons hxy _ ih =>
    simp only [foldItems, foldl_cons, hxy] at ih ⊢
    exact ih _

def foldEntry (h : UInt64 × Bool) (e : HashKey × UInt64 × Bool) : UInt64 × Bool :=
  (h.1 ^^^ mix (mix 15 (fingerprintHashKey e.1)) e.2.1, h.2 && e.2.2)

instance : RightCommutative foldEntry where
  right_comm h e e' := by
    simp only [foldEntry, Prod.mk.injEq]
    exact ⟨by rw [UInt64.xor_assoc, UInt64.xor_comm (mix _ _), ← UInt64.xor_assoc],
      Bool.and_right_comm _ _ _⟩

theorem foldPairs_eq (f : Value → UInt64 × Bool) {pairs : List (Value × Value)}
    (h : ∀ p ∈ pairs, ∃ hk, toHashKey p.1.key = .ok hk) (acc : UInt64 × Bool) :
    foldPairs f acc pairs =
      ((Value.entries pairs).map fun e => (e.1, f e.2)).foldl foldEntry acc := by
  induction pairs generalizing acc with
  | nil => rfl
  | cons p pairs ih =>
    obtain ⟨hk, hkey⟩ := h p mem_cons_self
    rw [Value.entries_cons_ok hkey, map_cons, foldl_cons,
      ← ih fun q hq => h q (mem_cons_of_mem p hq)]
    simp only [foldPairs, foldl_cons, hkey]
    rfl

theorem foldPairs_congr {ps qs : List (Value × Value)}
    (hps : Value.WellKeyed ps) (hqs : Value.WellKeyed qs)
    (hlen : (Value.entries ps).length = (Value.entries qs).length)
    (h : ∀ e ∈ Value.entries ps, ∃ e' ∈ Value.entries qs, e'.1 = e.1 ∧ f e.2 = f e'.2)
    (acc : UInt64 × Bool) : foldPairs f acc ps = foldPairs f acc qs := by
  rw [foldPairs_eq f hps.hashable, foldPairs_eq f hqs.hashable]
  exact (hps.entries_perm hlen h).foldl_eq acc

theorem fingerprint_congr {depth levels : Nat} {a b : Value} (ha : a.WellFormed)
    (hb : b.WellFormed) (h : Value.boundedEquals depth a b = true) :
    fingerprint levels a = fingerprint levels b := by
  induction depth generalizing levels a b with
  | zero => cases h
  | succ depth ih =>
    cases levels with
    | zero => rfl
    | succ levels =>
      have hitems {xs ys : List Value} (hall : List.Forall₂ (Value.Equated depth) xs ys) :
          List.Forall₂ (fun x y => fingerprint levels x = fingerprint levels y) xs ys :=
        hall.imp fun x y h => ih h.left h.right h.equal
      cases (Value.equated_succ_iff ha hb).1 h with
      | scalar heq hsome =>
        obtain ⟨c, hc⟩ := Option.ne_none_iff_exists'.1 hsome
        rw [fingerprint_scalarNorm hc, fingerprint_scalarNorm (heq.symm.trans hc)]
      | list hall => exact foldItems_congr (hitems hall) _
      | vector hall => exact foldItems_congr (hitems hall) _
      | map hps hqs hlen hall =>
        rw [fingerprint, fingerprint, ← hps.length_entries, ← hqs.length_entries, hlen]
        refine foldPairs_congr hps hqs hlen (fun e he => ?_) _
        obtain ⟨e', he', hkey, h⟩ := hall e he
        exact ⟨e', he', hkey, ih h.left h.right h.equal⟩

end Fingerprint

end Core

end Lispico
