import Lispico.Lib.Heap
import Mathlib

/-!
# Slices over shared backing arrays

A slice is a window on a backing array that others may look at; `make` and a growing `append`
allocate, reslicing shares. How much room a growing `append` reserves is the parameter `Growth`.
-/

namespace Lispico

namespace Lib

open List

/-- The backing arrays. An array keeps its length once allocated. -/
abbrev Arrays (α : Type*) := Heap (List α)

/-- A window of `len` elements, extensible to `cap`, at `off` in the array `arr`. -/
structure Slice where
  arr : Addr
  off : Nat
  len : Nat
  cap : Nat
deriving DecidableEq, Repr

/-- The capacity a growing `append` reserves, from the old capacity and the
length that has to fit. -/
structure Growth where
  cap : Nat → Nat → Nat
  le_cap : ∀ old need, need ≤ cap old need

namespace Slice

def nil : Slice := ⟨0, 0, 0, 0⟩

def backing {α : Type*} (m : Arrays α) (s : Slice) : List α := (m.read s.arr).getD []

def view {α : Type*} (m : Arrays α) (s : Slice) : List α :=
  ((s.backing m).drop s.off).take s.len

structure Valid {α : Type*} (m : Arrays α) (s : Slice) : Prop where
  len_le : s.len ≤ s.cap
  cap_le : s.off + s.cap ≤ (s.backing m).length

/-- Nothing of the heap `h` can be written through `s`. -/
def FreshFor {α : Type*} (h : Arrays α) (s : Slice) : Prop := s.cap = 0 ∨ h.next ≤ s.arr

/-- Overwrite `xs` from position `i` on with `ys`. -/
def splice {α : Type*} (xs : List α) (i : Nat) (ys : List α) : List α :=
  xs.take i ++ ys ++ xs.drop (i + ys.length)

/-- `make([]T, n)`: a fresh array of zero values. -/
def make {α : Type*} [Inhabited α] (m : Arrays α) (n : Nat) : Arrays α × Slice :=
  let (m', a) := m.alloc (List.replicate n default)
  (m', ⟨a, 0, n, n⟩)

/-- `s[i]`; `none` is the index panic. -/
def get {α : Type*} (m : Arrays α) (s : Slice) (i : Nat) : Option α := (s.view m)[i]?

/-- Write `ys` into the array of `s`, from element `i` of the window on. -/
def store {α : Type*} (m : Arrays α) (s : Slice) (i : Nat) (ys : List α) : Arrays α :=
  m.modify s.arr fun xs => splice xs (s.off + i) ys

/-- `s[i] = v`; `none` is the index panic. -/
def set {α : Type*} (m : Arrays α) (s : Slice) (i : Nat) (v : α) : Option (Arrays α) :=
  if i < s.len then some (s.store m i [v]) else none

/-- `s[lo:]`; `none` is the bounds panic. -/
def from? (s : Slice) (lo : Nat) : Option Slice :=
  if lo ≤ s.len then some ⟨s.arr, s.off + lo, s.len - lo, s.cap - lo⟩ else none

/-- `s[lo:hi]` with `hi` at most the length; `none` is the bounds panic. -/
def sub? (s : Slice) (lo hi : Nat) : Option Slice :=
  if lo ≤ hi ∧ hi ≤ s.len then some ⟨s.arr, s.off + lo, hi - lo, s.cap - lo⟩ else none

/-- `copy(dst, src)`: as many elements as both have. The source is read before the
destination is written. -/
def copy {α : Type*} (m : Arrays α) (dst src : Slice) : Arrays α × Nat :=
  let ys := (src.view m).take dst.len
  (dst.store m 0 ys, ys.length)

/-- `append(s, ys...)`: in place where the capacity allows it, else on a fresh array. -/
def append {α : Type*} [Inhabited α] (g : Growth) (m : Arrays α) (s : Slice)
    (ys : List α) : Arrays α × Slice :=
  let need := s.len + ys.length
  if need ≤ s.cap then
    (s.store m s.len ys, { s with len := need })
  else
    let c := g.cap s.cap need
    let (m', a) := m.alloc (s.view m ++ ys ++ List.replicate (c - need) default)
    (m', ⟨a, 0, need, c⟩)

variable {α : Type*} {xs ys : List α} {i : Nat} {o n : Nat}

theorem length_splice (h : i + ys.length ≤ xs.length) : (splice xs i ys).length = xs.length := by
  simp only [splice, length_append, length_take, length_drop]
  omega

@[simp] theorem splice_nil {α : Type*} (xs : List α) (i : Nat) : splice xs i [] = xs := by
  simp [splice]

theorem take_drop_splice (hi : o ≤ i) (h : i + ys.length ≤ xs.length)
    (hn : i + ys.length = o + n) :
    ((splice xs i ys).drop o).take n = ((xs.drop o).take (i - o)) ++ ys := by
  apply ext_getElem?
  intro j
  simp only [splice, getElem?_take, getElem?_drop, getElem?_append,
    length_append, length_take, length_drop]
  grind

theorem splice_singleton {v : α} (h : i < xs.length) : splice xs i [v] = xs.set i v := by
  rw [set_eq_take_append_cons_drop, if_pos h]
  simp [splice]

theorem splice_splice_append (h : i ≤ xs.length) (ys zs : List α) :
    splice (splice xs i ys) (i + ys.length) zs = splice xs i (ys ++ zs) := by
  apply ext_getElem?
  intro j
  simp only [splice, getElem?_append, getElem?_take, getElem?_drop,
    length_append, length_take]
  grind

theorem drop_take_splice (h : i + ys.length ≤ n) (hn : o + n ≤ xs.length) :
    ((splice xs (o + i) ys).drop o).take n = splice ((xs.drop o).take n) i ys := by
  apply ext_getElem?
  intro j
  simp only [splice, getElem?_take, getElem?_drop, getElem?_append,
    length_append, length_take, length_drop]
  grind

variable {m : Arrays α} {s : Slice}

theorem Valid.length_view (h : s.Valid m) : (s.view m).length = s.len := by
  have h₁ := h.len_le
  have h₂ := h.cap_le
  simp only [view, length_take, length_drop]
  omega

theorem Valid.of_read (h : s.Valid m) (m' : Arrays α)
    (hread : ∀ xs, m.read s.arr = some xs → m'.read s.arr = some xs) :
    s.Valid m' ∧ s.view m' = s.view m := by
  have h₁ := h.len_le
  have h₂ := h.cap_le
  cases harr : m.read s.arr with
  | none =>
    simp only [backing, harr, Option.getD_none, length_nil] at h₂
    have hlen : s.len = 0 := by omega
    exact ⟨⟨h₁, by omega⟩, by simp [view, hlen]⟩
  | some xs =>
    have hback : s.backing m' = s.backing m := by simp [backing, harr, hread xs harr]
    exact ⟨⟨h₁, hback ▸ h₂⟩, by simp [view, hback]⟩

variable {m' : Arrays α}

theorem Valid.extends (h : s.Valid m) (hm : m.Extends m') : s.Valid m' ∧ s.view m' = s.view m :=
  h.of_read m' fun _ => hm.read

theorem valid_nil (m : Arrays α) : Slice.nil.Valid m :=
  ⟨Nat.le_refl 0, Nat.zero_le _⟩

@[simp] theorem view_nil {α : Type*} (m : Arrays α) : Slice.nil.view m = [] := by
  simp [view, nil]

theorem freshFor_nil (m : Arrays α) : FreshFor m Slice.nil := .inl rfl

variable {h : Arrays α} {s' : Slice} {g : Growth}

theorem FreshFor.of_extends {h' : Arrays α} (hs : FreshFor h' s) (hext : h.Extends h') :
    FreshFor h s :=
  hs.imp_right fun hle => Nat.le_trans hext.next_le hle

theorem FreshFor.next_le (hs : FreshFor h s) (hv : s.Valid m) (hne : s.view m ≠ []) :
    h.next ≤ s.arr := by
  rcases hs with hzero | hle
  · have hlen := hv.len_le
    rw [← hv.length_view, hzero, Nat.le_zero] at hlen
    exact absurd (eq_nil_of_length_eq_zero hlen) hne
  · exact hle

theorem alloc_spec (m : Arrays α) (xs ys : List α) (n c : Nat) (hn : n = xs.length)
    (hc : c = (xs ++ ys).length) :
    let s : Slice := ⟨m.next, 0, n, c⟩
    m.Extends (m.alloc (xs ++ ys)).1 ∧ s.Valid (m.alloc (xs ++ ys)).1 ∧
      s.view (m.alloc (xs ++ ys)).1 = xs ∧ FreshFor m s := by
  subst hn hc
  refine ⟨m.extends_alloc _, ⟨by simp, by simp [backing]⟩, ?_, .inr (Nat.le_refl _)⟩
  simp [view, backing]

theorem make_spec [Inhabited α] (m : Arrays α) (n : Nat) :
    m.Extends (make m n).1 ∧ (make m n).2.Valid (make m n).1 ∧
      (make m n).2.view (make m n).1 = List.replicate n default ∧
      FreshFor m (make m n).2 := by
  have h := alloc_spec m (List.replicate n default) [] n n (by simp) (by simp)
  simpa [make] using h

theorem store_nil (m : Arrays α) (s : Slice) (i : Nat) : s.store m i [] = m := by
  have hid : (fun xs : List α => splice xs (s.off + i) []) = id := by
    funext xs
    simp
  rw [store, hid, Heap.modify, modify_id]

theorem FreshFor.store (hs : FreshFor h s) (hext : h.Extends m) (hfit : i + ys.length ≤ s.cap) :
    h.Extends (s.store m i ys) := by
  rcases hs with hzero | hle
  · have hys : ys = [] := eq_nil_of_length_eq_zero (by omega)
    rw [hys, store_nil]
    exact hext
  · exact hext.modify hle _

theorem Valid.backing_store (h : s.Valid m) (hfit : i + ys.length ≤ s.cap) :
    s.backing (s.store m i ys) = splice (s.backing m) (s.off + i) ys := by
  cases hread : m.read s.arr with
  | none =>
    have h₂ := h.cap_le
    simp only [backing, hread, Option.getD_none, length_nil] at h₂ ⊢
    have hys : ys = [] := eq_nil_of_length_eq_zero (by omega)
    simp [hys, store_nil, hread]
  | some xs =>
    simp [backing, store, Heap.read_modify_self _ hread, hread]

theorem Valid.store (h : s.Valid m) (hfit : i + ys.length ≤ s.cap) :
    s.Valid (s.store m i ys) := by
  have h₂ := h.cap_le
  refine ⟨h.len_le, ?_⟩
  rw [h.backing_store hfit, length_splice (by omega)]
  exact h₂

theorem Valid.store_append (h : s.Valid m) (hi : i ≤ s.cap) (ys zs : List α) :
    s.store (s.store m i ys) (i + ys.length) zs = s.store m i (ys ++ zs) := by
  have h₂ := h.cap_le
  simp only [Slice.store, Heap.modify, modify_modify_eq, ← Nat.add_assoc]
  rw [modify_eq_set, modify_eq_set]
  have happ := splice_splice_append (show s.off + i ≤ (s.backing m).length by omega) ys zs
  exact congrArg (fun xs => (⟨m.cells.set s.arr xs⟩ : Arrays α)) happ

theorem Valid.view_store (h : s.Valid m) (hfit : i + ys.length ≤ s.len) :
    s.view (s.store m i ys) = splice (s.view m) i ys := by
  have h₁ := h.len_le
  have h₂ := h.cap_le
  rw [view, h.backing_store (by omega), drop_take_splice hfit (by omega), view]

theorem Valid.set_spec (hv : s.Valid m) (hs : FreshFor h s) (hext : h.Extends m) (hi : i < s.len)
    (v : α) :
    ∃ m', s.set m i v = some m' ∧ h.Extends m' ∧ s.Valid m' ∧ s.view m' = (s.view m).set i v := by
  have h₁ := hv.len_le
  have hcap : i + [v].length ≤ s.cap := by
    simp only [length_singleton]
    omega
  refine ⟨s.store m i [v], by simp [set, hi], hs.store hext hcap, hv.store hcap, ?_⟩
  have hlen : i < (s.view m).length := by rwa [hv.length_view]
  rw [hv.view_store hi, splice_singleton hlen]

theorem Valid.copy_spec {dst : Slice} (hv : dst.Valid m) (hs : FreshFor h dst)
    (hext : h.Extends m) (src : Slice) :
    h.Extends (copy m dst src).1 ∧ dst.Valid (copy m dst src).1 ∧ dst.view (copy m dst src).1 =
        (src.view m).take dst.len ++ (dst.view m).drop (src.view m).length := by
  have h₁ := hv.len_le
  have hlen : ((src.view m).take dst.len).length ≤ dst.len := length_take_le _ _
  refine ⟨hs.store hext (by omega), hv.store (by omega), ?_⟩
  simp only [copy]
  rw [hv.view_store (by omega)]
  simp only [splice, take_zero, nil_append, Nat.zero_add, length_take]
  congr 1
  rcases Nat.le_total dst.len (src.view m).length with hle | hle
  · rw [Nat.min_eq_left hle, drop_eq_nil_of_le (by simp [hv.length_view]),
      drop_eq_nil_of_le (by simpa [hv.length_view] using hle)]
  · rw [Nat.min_eq_right hle]

theorem Valid.append_spec [Inhabited α]
    (happ : append g m s ys = (m', s')) (hv : s.Valid m) (hs : FreshFor h s)
      (hext : h.Extends m) :
    h.Extends m' ∧ s'.Valid m' ∧ s'.view m' = s.view m ++ ys ∧ FreshFor h s' := by
  have h₁ := hv.len_le
  have h₂ := hv.cap_le
  by_cases hfit : s.len + ys.length ≤ s.cap
  · simp only [append, hfit, if_true, Prod.mk.injEq] at happ
    obtain ⟨rfl, rfl⟩ := happ
    have hback := hv.backing_store hfit
    refine ⟨hs.store hext hfit, ⟨hfit, ?_⟩, ?_, hs⟩
    · exact (hv.store hfit).cap_le
    · change ((s.backing (s.store m s.len ys)).drop s.off).take (s.len + ys.length) = _
      rw [hback, take_drop_splice (Nat.le_add_right _ _) (by omega) (by omega)]
      simp [view]
  · simp only [append, hfit, if_false, Prod.mk.injEq] at happ
    obtain ⟨rfl, rfl⟩ := happ
    have hgrow := g.le_cap s.cap (s.len + ys.length)
    obtain ⟨hext', hv', hview, hfresh⟩ := alloc_spec m (s.view m ++ ys)
      (List.replicate (g.cap s.cap (s.len + ys.length) - (s.len + ys.length)) default)
      (s.len + ys.length) (g.cap s.cap (s.len + ys.length))
      (by simp [hv.length_view]) (by simp [hv.length_view]; omega)
    exact ⟨hext.trans hext', hv', hview, hfresh.of_extends hext⟩

theorem append_nil_spec [Inhabited α] (g : Growth) (m : Arrays α) (ys : List α) :
    ∃ m' s, append g m nil ys = (m', s) ∧ m.Extends m' ∧ s.Valid m' ∧ s.view m' = ys ∧
      FreshFor m s := by
  cases happ : append g m nil ys with
  | mk m' s =>
    have hspec := (valid_nil m).append_spec happ (freshFor_nil m) (.refl m)
    rw [view_nil, nil_append] at hspec
    exact ⟨m', s, rfl, hspec⟩

theorem append_read [Inhabited α] (happ : append g m s ys = (m', s'))
    {a : Addr} (ha : a ≠ s.arr) (hread : m.read a = some xs) : m'.read a = some xs := by
  simp only [append] at happ
  split at happ
  · obtain ⟨rfl, -⟩ := Prod.mk.inj happ
    exact Heap.read_modify_ne _ ha hread
  · obtain ⟨rfl, -⟩ := Prod.mk.inj happ
    exact (m.extends_alloc _).read hread

theorem set_read {v : α} (hset : s.set m i v = some m') {a : Addr} (ha : a ≠ s.arr)
    (hread : m.read a = some xs) : m'.read a = some xs := by
  simp only [set] at hset
  split at hset
  · obtain rfl := Option.some.inj hset
    exact Heap.read_modify_ne _ ha hread
  · cases hset

theorem arr_lt_next (hne : s.view m ≠ []) : s.arr < m.next := by
  cases hread : m.read s.arr with
  | none => simp [view, backing, hread] at hne
  | some xs => exact Heap.lt_next_of_read hread

theorem Valid.sub_spec (hv : s.Valid m) {lo hi : Nat} (hlo : lo ≤ hi) (hhi : hi ≤ s.len) :
    ∃ t, s.sub? lo hi = some t ∧ t.Valid m ∧ t.view m = ((s.view m).take hi).drop lo := by
  have h₁ := hv.len_le
  have h₂ := hv.cap_le
  refine ⟨_, if_pos ⟨hlo, hhi⟩, ⟨by simp only; omega, ?_⟩, ?_⟩
  · change s.off + lo + (s.cap - lo) ≤ (s.backing m).length
    omega
  · change ((s.backing m).drop (s.off + lo)).take (hi - lo) = _
    rw [view, take_take, Nat.min_eq_left hhi, drop_take, drop_drop]

theorem Valid.from_spec (hv : s.Valid m) (lo : Nat) (hlo : lo ≤ s.len) :
    ∃ t, s.from? lo = some t ∧ t.Valid m ∧ t.view m = (s.view m).drop lo := by
  have hsub : s.from? lo = s.sub? lo s.len := by simp [from?, sub?, hlo]
  rw [hsub]
  obtain ⟨t, ht, hvt, hview⟩ := hv.sub_spec hlo (Nat.le_refl _)
  refine ⟨t, ht, hvt, ?_⟩
  rw [hview, take_of_length_le (Nat.le_of_eq hv.length_view)]

theorem Valid.from_window (hv : s.Valid m) (hs : FreshFor h s) (lo : Nat) (hlo : lo ≤ s.len) :
    ∃ t, s.from? lo = some t ∧ t.Valid m ∧ FreshFor h t ∧ t.len = s.len - lo ∧
      ∀ (m' : Arrays α) i ys, t.store m' i ys = s.store m' (lo + i) ys := by
  obtain ⟨t, ht, hvt, -⟩ := hv.from_spec lo hlo
  simp only [from?, hlo, if_true, Option.some_inj] at ht
  subst ht
  refine ⟨_, if_pos hlo, hvt, hs.imp (fun h => ?_) id, rfl, fun m' i ys => ?_⟩
  · change s.cap - lo = 0
    omega
  · simp only [Slice.store, Nat.add_assoc]

theorem Valid.copy_from_spec (hv : s.Valid m) (hs : FreshFor h s) (hext : h.Extends m)
    (src : Slice) (lo : Nat) (hlo : lo ≤ s.len) :
    ∃ t, s.from? lo = some t ∧ h.Extends (copy m t src).1 ∧ s.Valid (copy m t src).1 ∧
      s.view (copy m t src).1 = splice (s.view m) lo ((src.view m).take (s.len - lo)) := by
  have h₁ := hv.len_le
  have hlen : ((src.view m).take (s.len - lo)).length ≤ s.len - lo := length_take_le _ _
  obtain ⟨t, ht, -, -, htlen, hstore⟩ := hv.from_window hs lo hlo
  refine ⟨t, ht, ?_, ?_, ?_⟩ <;> simp only [copy, hstore, htlen, Nat.add_zero]
  · exact hs.store hext (by omega)
  · exact hv.store (by omega)
  · exact hv.view_store (by omega)

/-- The elements of a slice someone else made, with what its array holds around them. -/
structure Window (α : Type*) where
  before : List α
  items : List α
  after : List α
deriving DecidableEq, Repr

def Window.alloc {α : Type*} (m : Arrays α) (w : Window α) : Arrays α × Slice :=
  let (m', a) := Heap.alloc m (w.before ++ w.items ++ w.after)
  (m', ⟨a, w.before.length, w.items.length, w.items.length + w.after.length⟩)

theorem Window.alloc_spec (m : Arrays α) (w : Window α) :
    m.Extends (w.alloc m).1 ∧ (w.alloc m).2.Valid (w.alloc m).1 ∧
      (w.alloc m).2.view (w.alloc m).1 = w.items := by
  refine ⟨Heap.extends_alloc _ _, ⟨Nat.le_add_right _ _, ?_⟩, ?_⟩
  · simp [Window.alloc, backing]
  · simp [Window.alloc, view, backing]

end Slice

end Lib

end Lispico
