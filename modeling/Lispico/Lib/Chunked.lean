import Mathlib

/-!
# Sequences cut into chunks of one width

`Chunked w xss` says that the chunks all have width `w`, the last one excepted. The element at
index `i` of the joined sequence is then element `i % w` of chunk `i / w`.
-/

namespace Lispico

namespace Lib

open List

structure Chunked {α : Type*} (w : Nat) (xss : List (List α)) : Prop where
  full : ∀ ys ∈ xss.dropLast, ys.length = w
  last : ∃ ys, xss.getLast? = some ys ∧ 0 < ys.length ∧ ys.length ≤ w

namespace Chunked

variable {α : Type*} {w : Nat} {xss : List (List α)} {ys : List α}

theorem length_flatten_of_full (h : ∀ ys ∈ xss, ys.length = w) :
    xss.flatten.length = xss.length * w := by
  induction xss with
  | nil => simp
  | cons ys xss ih =>
    have hys := h ys (by simp)
    have hrest := ih fun zs hzs => h zs (by simp [hzs])
    rw [flatten_cons, length_append, hys, hrest, length_cons]
    ring

theorem append_singleton (h : ∀ zs ∈ xss, zs.length = w) (hpos : 0 < ys.length)
    (hle : ys.length ≤ w) :
    Chunked w (xss ++ [ys]) :=
  ⟨by simpa using h, ys, by simp, hpos, hle⟩

theorem split (h : Chunked w xss) : ∃ init ys, xss = init ++ [ys] ∧ (∀ zs ∈ init, zs.length = w) ∧
      0 < ys.length ∧ ys.length ≤ w := by
  obtain ⟨ys, hlast, hpos, hle⟩ := h.last
  refine ⟨xss.dropLast, ys, ?_, h.full, hpos, hle⟩
  have hne : xss ≠ [] := by
    rintro rfl
    simp at hlast
  rw [getLast?_eq_some_getLast hne, Option.some_inj] at hlast
  rw [← hlast, dropLast_append_getLast]

theorem length_flatten {init : List (List α)} (h : ∀ zs ∈ init, zs.length = w) :
    (init ++ [ys]).flatten.length = init.length * w + ys.length := by
  rw [flatten_append, length_append, length_flatten_of_full h]
  simp

theorem length_flatten_le (h : Chunked w xss) : xss.flatten.length ≤ xss.length * w := by
  obtain ⟨init, ys, rfl, hfull, -, hle⟩ := h.split
  rw [length_flatten hfull, length_append, length_singleton, Nat.add_mul]
  omega

theorem pos (h : Chunked w xss) : 0 < w := by
  obtain ⟨ys, -, hpos, hle⟩ := h.last
  omega

theorem getElem? (h : Chunked w xss) {i : Nat} (hi : i < xss.flatten.length) :
    ∃ ys, xss[i / w]? = some ys ∧ i % w < ys.length ∧ ys[i % w]? = xss.flatten[i]? := by
  have hw := h.pos
  obtain ⟨init, last, rfl, hfull, hpos, hle⟩ := h.split
  clear h
  induction init generalizing i with
  | nil =>
    simp only [nil_append, flatten_cons, flatten_nil, append_nil] at hi ⊢
    have hlt : i < w := by omega
    exact ⟨last, by simp [Nat.div_eq_of_lt hlt], by rwa [Nat.mod_eq_of_lt hlt],
      by rw [Nat.mod_eq_of_lt hlt]⟩
  | cons zs init ih =>
    have hzs : zs.length = w := hfull zs (by simp)
    simp only [cons_append, flatten_cons, length_append] at hi ⊢
    rcases Nat.lt_or_ge i w with hlt | hge
    · refine ⟨zs, by simp [Nat.div_eq_of_lt hlt], by rwa [Nat.mod_eq_of_lt hlt, hzs], ?_⟩
      rw [Nat.mod_eq_of_lt hlt, getElem?_append_left (by omega)]
    · obtain ⟨j, rfl⟩ := Nat.exists_eq_add_of_le hge
      obtain ⟨ys, hys, hlt, hget⟩ :=
        ih (i := j) (by omega) fun ys hys => hfull ys (by simp [hys])
      have hdiv : (w + j) / w = j / w + 1 := by rw [Nat.add_div_left j hw]
      refine ⟨ys, by rw [hdiv, getElem?_cons_succ, hys], by rwa [Nat.add_mod_left], ?_⟩
      rw [Nat.add_mod_left, hget, getElem?_append_right (by omega), hzs,
        Nat.add_sub_cancel_left]

theorem forall₂_append_singleton {β : Type*} {R : α → β → Prop} {l : List α} {ys : List β} {y : β}
    (h : List.Forall₂ R l (ys ++ [y])) :
    ∃ xs x, l = xs ++ [x] ∧ List.Forall₂ R xs ys ∧ R x y := by
  induction ys generalizing l with
  | nil =>
    cases h with
    | cons hx hnil =>
      cases hnil
      exact ⟨[], _, rfl, .nil, hx⟩
  | cons z ys ih =>
    cases h with
    | @cons x _ _ _ hx hrest =>
      obtain ⟨xs, x', rfl, hxs, hx'⟩ := ih hrest
      exact ⟨x :: xs, x', rfl, .cons hx hxs, hx'⟩

theorem div_mod_of_mod {i n k : Nat} (hk : k < w) (hi : i % (w * 32) = n * w + k) :
    i / w % 32 = n ∧ i % w = k := by
  have hw : 0 < w := by omega
  constructor
  · rw [← Nat.mod_mul_right_div_self, hi, Nat.add_comm, Nat.add_mul_div_right _ _ hw,
      Nat.div_eq_of_lt hk, Nat.zero_add]
  · rw [← Nat.mod_mul_right_mod i w 32, hi, Nat.add_comm, Nat.add_mul_mod_self_right,
      Nat.mod_eq_of_lt hk]

end Chunked

end Lib

end Lispico
