import Mathlib

/-!
# Lists of keyed elements as finite maps

A list whose elements carry distinct keys is a finite map. Every change of such a list is
described by what it does to `lookup`, whichever element stands where. `size` is the number of
keys a map has.
-/

namespace Lispico

namespace Lib

namespace Keyed

open Function List

section

variable {α K : Type*} [DecidableEq K] {key : α → K}

def lookup (key : α → K) (xs : List α) (k : K) : Option α := xs.find? fun x => key x == k

def Distinct (key : α → K) (xs : List α) : Prop := (xs.map key).Nodup

variable {xs : List α} {x y : α}

variable (h : Distinct key xs)

include h

omit [DecidableEq K] in
theorem Distinct.eq (hx : x ∈ xs) (hy : y ∈ xs) (hkey : key x = key y) : x = y :=
  inj_on_of_nodup_map h hx hy hkey

variable {k : K}

omit h in
theorem lookup_eq_none_iff : lookup key xs k = none ↔ ∀ x ∈ xs, key x ≠ k := by
  simp [lookup]

theorem lookup_eq_some_iff : lookup key xs k = some x ↔ x ∈ xs ∧ key x = k := by
  constructor
  · intro hfind
    have hk := find?_some hfind
    exact ⟨mem_of_find?_eq_some hfind, by simpa using hk⟩
  · rintro ⟨hx, rfl⟩
    cases hfind : lookup key xs (key x) with
    | none => exact absurd rfl (lookup_eq_none_iff.1 hfind x hx)
    | some y =>
      have hy : key y = key x := by simpa using find?_some hfind
      rw [h.eq (mem_of_find?_eq_some hfind) hx hy]

variable {ys : List α}

theorem lookup_perm (hp : xs.Perm ys) : lookup key ys = lookup key xs := by
  have h' : Distinct key ys := (hp.map key).nodup_iff.1 h
  funext k
  apply Option.ext
  intro x
  rw [lookup_eq_some_iff h, lookup_eq_some_iff h', hp.mem_iff]

omit [DecidableEq K] h in
/-- Two lists of the same length: if every element of the first has a partner with its key
in the second, every element of the second has one in the first. -/
theorem partners_symm {β : Type*} {key' : β → K} {ys : List β} (hx : Distinct key xs)
    (hy : Distinct key' ys) (hlen : xs.length = ys.length) {r : α → β → Prop}
    (h : ∀ x ∈ xs, ∃ y ∈ ys, key' y = key x ∧ r x y) :
    ∀ y ∈ ys, ∃ x ∈ xs, key x = key' y ∧ r x y := by
  have hsub : xs.map key ⊆ ys.map key' := by
    intro k hk
    obtain ⟨x, hmem, rfl⟩ := mem_map.1 hk
    obtain ⟨y, hy', hkey, -⟩ := h x hmem
    exact mem_map.2 ⟨y, hy', hkey⟩
  have hperm : (xs.map key).Perm (ys.map key') :=
    (subperm_of_subset hx hsub).perm_of_length_le (by simp [hlen])
  intro y hmem
  obtain ⟨x, hx', hkey⟩ := mem_map.1 (hperm.mem_iff.2 (mem_map_of_mem hmem))
  obtain ⟨y', hy', hkey', hr⟩ := h x hx'
  rw [hy.eq hy' hmem (hkey'.trans hkey)] at hr
  exact ⟨x, hx', hkey, hr⟩

omit h in
theorem lookup_cons (x : α) (xs : List α) :
    lookup key (x :: xs) = update (lookup key xs) (key x) (some x) := by
  funext k
  by_cases hk : k = key x
  · subst hk
    simp [lookup]
  · have hne : (key x == k) = false := by simpa using fun h => hk h.symm
    simp [lookup, hne, hk]

theorem insert_anywhere (hnew : ∀ y ∈ xs, key y ≠ key x) (hp : (x :: xs).Perm ys) :
    Distinct key ys ∧ lookup key ys = update (lookup key xs) (key x) (some x) := by
  have hcons : Distinct key (x :: xs) := by
    refine List.nodup_cons.2 ⟨?_, h⟩
    rw [mem_map]
    rintro ⟨y, hy, hkey⟩
    exact hnew y hy hkey
  exact ⟨(hp.map key).nodup_iff.1 hcons, (lookup_perm hcons hp).trans (lookup_cons x xs)⟩

theorem remove (hp : xs.Perm (x :: ys)) :
    Distinct key ys ∧ lookup key ys = update (lookup key xs) (key x) none := by
  have hcons : Distinct key (x :: ys) := (hp.map key).nodup_iff.1 h
  obtain ⟨hx, hys⟩ := List.nodup_cons.1 hcons
  refine ⟨hys, ?_⟩
  have hlook : lookup key (x :: ys) = lookup key xs := lookup_perm h hp
  rw [← hlook, lookup_cons, update_idem]
  funext k
  by_cases hk : k = key x
  · subst hk
    rw [update_self, lookup_eq_none_iff]
    intro y hy hkey
    exact hx (hkey ▸ mem_map_of_mem hy)
  · rw [update_of_ne hk]

theorem replace (hp : xs.Perm (y :: ys)) (hkey : key y = key x)
    {zs : List α} (hz : (x :: ys).Perm zs) :
    Distinct key zs ∧ lookup key zs = update (lookup key xs) (key x) (some x) := by
  obtain ⟨hys, hlook⟩ := remove h hp
  have hcons : Distinct key (y :: ys) := (hp.map key).nodup_iff.1 h
  have hnew : ∀ w ∈ ys, key w ≠ key x := by
    intro w hw hwx
    exact (List.nodup_cons.1 hcons).1 (mem_map.2 ⟨w, hw, hwx.trans hkey.symm⟩)
  obtain ⟨hzs, hlook'⟩ := insert_anywhere hys hnew hz
  exact ⟨hzs, by rw [hlook', hlook, hkey, update_idem]⟩

omit h

variable {i : Nat} (f : K → Option α)

omit [DecidableEq K] in
theorem perm_take_drop (h : xs[i]? = some y) : xs.Perm (y :: (xs.take i ++ xs.drop (i + 1))) := by
  obtain ⟨hi, rfl⟩ := List.getElem?_eq_some_iff.1 h
  have hsplit : xs = xs.take i ++ xs[i] :: xs.drop (i + 1) := by simp
  nth_rewrite 1 [hsplit]
  exact perm_middle

omit [DecidableEq K] in
theorem perm_set (h : xs[i]? = some y) (x : α) :
    (x :: (xs.take i ++ xs.drop (i + 1))).Perm (xs.set i x) := by
  obtain ⟨hi, rfl⟩ := List.getElem?_eq_some_iff.1 h
  rw [set_eq_take_append_cons_drop, if_pos hi]
  exact perm_middle.symm

theorem findIdx?_some (h : xs.findIdx? (fun x => key x == k) = some i) :
    ∃ y, xs[i]? = some y ∧ key y = k := by
  obtain ⟨hi, hkey, -⟩ := List.findIdx?_eq_some_iff_getElem.1 h
  exact ⟨xs[i], getElem?_eq_getElem hi, by simpa using hkey⟩

theorem findIdx?_none (h : xs.findIdx? (fun x => key x == k) = none) : ∀ y ∈ xs, key y ≠ k := by
  simpa [findIdx?_eq_none_iff] using h

def bindAll (key : α → K) (f : K → Option α) (xs : List α) : K → Option α :=
  xs.foldl (fun f x => update f (key x) (some x)) f

theorem bindAll_cons (key : α → K) (f : K → Option α) (x : α) (xs : List α) :
    bindAll key f (x :: xs) = bindAll key (update f (key x) (some x)) xs := rfl

theorem bindAll_eq (h : Distinct key xs) (f : K → Option α) :
    bindAll key f xs = fun k => (lookup key xs k).or (f k) := by
  induction xs generalizing f with
  | nil => rfl
  | cons x xs ih =>
    obtain ⟨hx, hxs⟩ := List.nodup_cons.1 h
    rw [bindAll_cons, ih hxs, lookup_cons]
    funext k
    by_cases hk : k = key x
    · subst hk
      have hnone : lookup key xs (key x) = none := by
        rw [lookup_eq_none_iff]
        intro y hy hyx
        exact hx (mem_map.2 ⟨y, hy, hyx⟩)
      simp [hnone]
    · simp [hk]

theorem lookup_filter (key : α → K) (xs : List α) (k : K) :
    lookup key (xs.filter fun x => key x ≠ k) = update (lookup key xs) k none := by
  funext j
  by_cases hj : j = k
  · subst hj
    rw [update_self, lookup_eq_none_iff]
    intro x hx
    simpa using (mem_filter.1 hx).2
  · rw [update_of_ne hj, lookup, lookup, find?_filter]
    congr 1
    funext x
    by_cases hx : key x = j
    · simp [hx, hj]
    · simp [hx]

noncomputable def size (f : K → Option α) : Nat := {k | (f k).isSome}.ncard

def Finite (f : K → Option α) : Prop := {k | (f k).isSome}.Finite

theorem support_lookup (key : α → K) (xs : List α) :
    {k | (lookup key xs k).isSome} = ((xs.map key).toFinset : Set K) := by
  ext k
  simp [lookup]

theorem finite_lookup (key : α → K) (xs : List α) : Finite (lookup key xs) := by
  rw [Finite, support_lookup]
  exact Finset.finite_toSet _

theorem size_lookup (h : Distinct key xs) : size (lookup key xs) = xs.length := by
  rw [size, support_lookup, Set.ncard_coe_finset, toFinset_card_of_nodup h, length_map]

theorem support_update_some (k : K) (x : α) :
    {j | (update f k (some x) j).isSome} = insert k {j | (f j).isSome} := by
  ext j
  by_cases hj : j = k
  · simp [hj]
  · simp [hj]

theorem support_update_none (k : K) :
    {j | (update f k none j).isSome} = {j | (f j).isSome} \ {k} := by
  ext j
  by_cases hj : j = k
  · simp [hj]
  · simp [hj]

variable {f : K → Option α}

theorem Finite.update (h : Finite f) (k : K) (x : Option α) : Finite (update f k x) := by
  cases x with
  | none =>
    rw [Finite, support_update_none]
    exact h.subset Set.sdiff_subset
  | some x =>
    rw [Finite, support_update_some]
    exact h.insert k

theorem size_update_some (h : Finite f) (k : K) (x : α) :
    size (update f k (some x)) = if (f k).isNone then size f + 1 else size f := by
  rw [size, support_update_some]
  cases hk : f k with
  | none =>
    have hout : k ∉ {j | (f j).isSome} := by simp [hk]
    rw [Set.ncard_insert_of_notMem hout h]
    rfl
  | some y =>
    have hin : k ∈ {j | (f j).isSome} := by simp [hk]
    rw [Set.insert_eq_of_mem hin]
    rfl

theorem size_update_none (h : Finite f) (k : K) :
    size f = if (f k).isSome then size (update f k none) + 1
      else size (update f k none) := by
  rw [size, size, support_update_none]
  cases hk : f k with
  | none =>
    have hout : k ∉ {j | (f j).isSome} := by simp [hk]
    rw [Set.sdiff_singleton_eq_self hout]
    rfl
  | some y =>
    have hin : k ∈ {j | (f j).isSome} := by simp [hk]
    exact (Set.ncard_sdiff_singleton_add_one hin h).symm

end

section

variable {K : Type*} [DecidableEq K] {β : K → Type*}

def keep (s : AList β) (p : ∀ a, β a → Bool) : AList β :=
  ⟨s.entries.filter fun x => p x.1 x.2, s.nodupKeys.sublist filter_sublist⟩

theorem lookup_keep (s : AList β) (p : ∀ a, β a → Bool) (a : K) :
    (keep s p).lookup a = (s.lookup a).filter (p a) := by
  apply Option.ext
  intro b
  have h : (keep s p).lookup a = some b ↔ _ := AList.mem_lookup_iff
  have h' : s.lookup a = some b ↔ _ := AList.mem_lookup_iff
  rw [h, Option.filter_eq_some_iff, h']
  exact mem_filter

end

end Keyed

end Lib

end Lispico
