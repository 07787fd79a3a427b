import Lispico.Core.List

/-!
# Lists stand for sequences

`Rep m l xs` says that the list stands for the sequence `xs` on the memory `m`, in either form.
The operations keep lists represented on memories that only grow; runs are those of persistent
objects.
-/

namespace Lispico

namespace Core

open Lib List

namespace LispList

section

variable {α : Type}

/-- The chain at a pointer holds a sequence. A tail is older than its node, and the
cached count of each node is the number of elements from it on. -/
inductive Chain (h : Heap (ListNode α)) : Option Addr → List α → Prop where
  | nil : Chain h none []
  | cons {a : Addr} {x : α} {t : Option Addr} {xs : List α}
      (hread : h.read a = some ⟨x, t, xs.length + 1⟩)
      (hold : ∀ b, t = some b → b < a) (htail : Chain h t xs) : Chain h (some a) (x :: xs)

variable {h : Heap (ListNode α)} {p : Option Addr} {xs : List α}

theorem Chain.extends {h' : Heap (ListNode α)} (hc : Chain h p xs) (hext : h.Extends h') :
    Chain h' p xs := by
  induction hc with
  | nil => exact .nil
  | cons hread hold _ ih => exact .cons (hext.read hread) hold ih

variable {a : Addr}

theorem Chain.addr_lt (hc : Chain h (some a) xs) : a < h.next := by
  cases hc with
  | cons hread _ _ => exact Heap.lt_next_of_read hread

theorem Chain.length_le (hc : Chain h (some a) xs) : xs.length ≤ a + 1 := by
  generalize hp : some a = p at hc
  induction hc generalizing a with
  | nil => cases hp
  | @cons a' x t xs hread hold htail ih =>
    cases hp
    cases t with
    | none =>
      cases htail
      simp
    | some b =>
      have hb := hold b rfl
      have hlen := ih rfl
      exact Nat.succ_le_succ (Nat.le_trans hlen hb)

theorem Chain.alloc (hc : Chain h p xs) (x : α) {n : Nat} (hn : n = xs.length + 1) :
    Chain (h.alloc ⟨x, p, n⟩).1 (some h.next) (x :: xs) := by
  subst hn
  refine Chain.cons (Heap.read_alloc _ _) ?_ (hc.extends (h.extends_alloc _))
  rintro b rfl
  exact hc.addr_lt

theorem chain_foldr (h : Heap (ListNode α)) (n : Nat) (items : List α) (k : Nat)
    (hn : n = k + items.length) :
    let r := (items.zipIdx k).foldr (fun item acc =>
        let (h', a) := Heap.alloc acc.1 (⟨item.1, acc.2, n - item.2⟩ : ListNode α)
        (h', some a))
      (h, none)
    h.Extends r.1 ∧ Chain r.1 r.2 items := by
  induction items generalizing k with
  | nil => exact ⟨Heap.Extends.refl h, Chain.nil⟩
  | cons x xs ih =>
    obtain ⟨hext, hc⟩ := ih (k + 1) (by simp only [length_cons] at hn; omega)
    refine ⟨hext.trans (Heap.extends_alloc _ _), hc.alloc x ?_⟩
    simp only [length_cons] at hn
    omega

theorem newListChain_spec (h : Heap (ListNode α)) (items : List α) :
    h.Extends (newListChain h items).1 ∧
      Chain (newListChain h items).1 (newListChain h items).2 items :=
  chain_foldr h items.length items 0 (by simp)

theorem newListChain_ne_none (h : Heap (ListNode α)) {items : List α}
    (hne : items ≠ []) : ∃ a, (newListChain h items).2 = some a := by
  have hc := (newListChain_spec h items).2
  cases hp : (newListChain h items).2 with
  | none =>
    rw [hp] at hc
    cases hc
    exact absurd rfl hne
  | some a => exact ⟨a, rfl⟩

theorem Chain.nodeAt (hc : Chain h p xs) (i : Nat) : nodeAt h i p = xs[i]? := by
  induction hc generalizing i with
  | nil => cases i <;> simp [LispList.nodeAt]
  | cons hread _ _ ih =>
    cases i with
    | zero => simp [LispList.nodeAt, hread]
    | succ i => simp [LispList.nodeAt, hread, ih]

theorem Chain.eachNode {σ : Type} (hc : Chain h p xs) (fn : α → σ → Bool × σ) (s : σ) {fuel : Nat}
    (hfuel : xs.length ≤ fuel) : eachNode h fn fuel p s = some (eachFlat fn xs s) := by
  induction hc generalizing s fuel with
  | nil => simp [LispList.eachNode, eachFlat]
  | @cons a x t xs hread _ _ ih =>
    obtain ⟨f, rfl⟩ : ∃ f, fuel = f + 1 := Nat.exists_eq_add_one.2 (by simp at hfuel; omega)
    simp only [LispList.eachNode, hread, Option.bind_eq_bind, Option.bind_some, eachFlat]
    split
    · exact ih _ (by simpa using hfuel)
    · rfl

theorem Chain.fillFrom (hc : Chain h p xs) {arrays₀ arrays : Arrays α} {out : Slice} {i : Nat}
    (hv : out.Valid arrays) (hs : Slice.FreshFor arrays₀ out) (hext : arrays₀.Extends arrays)
    (hi : i + xs.length ≤ out.len) :
    ∃ arrays', fillFrom h out xs.length i p arrays = some arrays' ∧
      arrays₀.Extends arrays' ∧ out.Valid arrays' ∧
      out.view arrays' = Slice.splice (out.view arrays) i xs := by
  induction hc generalizing i arrays with
  | nil => exact ⟨arrays, rfl, hext, hv, by simp⟩
  | @cons a x t xs hread _ _ ih =>
    simp only [length_cons] at hi
    obtain ⟨arrays₁, hset, hext₁, hv₁, hview₁⟩ :=
      hv.set_spec hs hext (i := i) (by omega) x
    obtain ⟨arrays₂, hfill, hext₂, hv₂, hview₂⟩ := ih hv₁ hext₁ (i := i + 1) (by omega)
    refine ⟨arrays₂, ?_, hext₂, hv₂, ?_⟩
    · simp [LispList.fillFrom, hread, hset, hfill]
    · have hlt : i < (out.view arrays).length := by rw [hv.length_view]; omega
      rw [hview₂, hview₁, ← Slice.splice_singleton hlt]
      exact Slice.splice_splice_append (Nat.le_of_lt hlt) [x] xs

/-- The list stands for the sequence: its chain holds it, or its slice does. -/
def Rep (m : ListMem α) (l : LispList) (xs : List α) : Prop :=
  match l.shared with
  | some a => Chain m.nodes (some a) xs
  | none => l.flat.Valid m.arrays ∧ l.flat.view m.arrays = xs

variable {m : ListMem α} {l : LispList}

theorem Rep.mono {m' : ListMem α} (hm : m ≤ m') (h : Rep m l xs) : Rep m' l xs := by
  unfold Rep at h ⊢
  split at h
  · exact h.extends hm.2
  · obtain ⟨hv, hview⟩ := h
    exact ⟨(hv.extends hm.1).1, (hv.extends hm.1).2.trans hview⟩

/-- The cursor gives these elements, one a call, and then reports the end. -/
def Cursor.Yields (m : ListMem α) : Cursor → List α → Prop
  | c, [] => c.next m = some (none, c)
  | c, x :: xs => ∃ c', c.next m = some (some x, c') ∧ Yields m c' xs

structure Describes [Inhabited α] (m : ListMem α) (l : LispList) (xs : List α) : Prop where
  len : l.len m = some xs.length
  at? : ∀ i : Int, l.at? m i = if i < 0 then none else xs[i.toNat]?
  toSlice : ∃ m' s, l.toSlice m = some (m', s) ∧ m ≤ m' ∧
    s.Valid m'.arrays ∧ s.view m'.arrays = xs
  each : ∀ (σ : Type) (fn : α → σ → Bool × σ) (s : σ), l.each m fn s = some (eachFlat fn xs s)
  cursor : l.cursor.Yields m xs

theorem Chain.yields (hc : Chain m.nodes p xs) : Cursor.Yields m ⟨Slice.nil, p⟩ xs := by
  induction hc with
  | nil => simp [Cursor.Yields, Cursor.next, Slice.nil]
  | cons hread _ _ ih => exact ⟨_, by simp [Cursor.next, hread], ih⟩

theorem yields_flat {s : Slice} (hv : s.Valid m.arrays) (hview : s.view m.arrays = xs) :
    Cursor.Yields m ⟨s, none⟩ xs := by
  induction xs generalizing s with
  | nil =>
    have hlen : s.len = 0 := by rw [← hv.length_view, hview, length_nil]
    simp [Cursor.Yields, Cursor.next, hlen]
  | cons x xs ih =>
    have hlen : s.len = xs.length + 1 := by rw [← hv.length_view, hview, length_cons]
    obtain ⟨t, ht, hvt, htview⟩ := hv.from_spec 1 (by omega)
    refine ⟨⟨t, none⟩, ?_, ih hvt (by rw [htview, hview, drop_one, tail_cons])⟩
    simp [Cursor.next, hlen, Slice.get, hview, ht]

theorem Chain.describes [Inhabited α] (hl : l.shared = some a) (hc : Chain m.nodes (some a) xs) :
    Describes m l xs := by
  obtain ⟨x, t, hread⟩ : ∃ x t, m.nodes.read a = some ⟨x, t, xs.length⟩ := by
    cases hc with
    | cons hread _ _ => exact ⟨_, _, hread⟩
  constructor
  · simp [len, hl, hread]
  · intro i
    simp only [LispList.at?, hl, hread, Option.bind_eq_bind, Option.bind_some]
    by_cases hneg : i < 0
    · simp [hneg]
    · by_cases hge : i ≥ xs.length
      · simp only [hneg, hge, or_true, if_true, if_false]
        exact (getElem?_eq_none (by omega)).symm
      · simp only [hneg, hge, or_self, if_false, hc.nodeAt]
  · obtain ⟨hext, hv, hview, hfresh⟩ := Slice.make_spec m.arrays xs.length
    have hlen : (Slice.make m.arrays xs.length).2.len = xs.length := rfl
    obtain ⟨arrays', hfill, hext', hv', hview'⟩ :=
      hc.fillFrom hv hfresh hext (i := 0) (by omega)
    refine ⟨⟨arrays', m.nodes⟩, _, ?_, ⟨hext', Heap.Extends.refl _⟩, hv', ?_⟩
    · simp [LispList.toSlice, hl, hread, hfill]
    · rw [hview', hview]
      simp [Slice.splice]
  · intro σ fn s
    simp only [LispList.each, hl]
    exact hc.eachNode fn s (Nat.le_trans hc.length_le hc.addr_lt)
  · simpa [LispList.cursor, hl] using hc.yields

theorem describes_flat [Inhabited α] (hl : l.shared = none) (hv : l.flat.Valid m.arrays)
    (hview : l.flat.view m.arrays = xs) : Describes m l xs := by
  have hlen : l.flat.len = xs.length := by rw [← hv.length_view, hview]
  constructor
  · simp [len, hl, hlen]
  · intro i
    simp [LispList.at?, hl, Slice.get, hview]
  · obtain ⟨hext, hvm, -, hfresh⟩ := Slice.make_spec m.arrays l.flat.len
    obtain ⟨hext', hv', hview'⟩ := hvm.copy_spec hfresh hext l.flat
    refine ⟨⟨_, m.nodes⟩, _, by simp [LispList.toSlice, hl], ⟨hext', Heap.Extends.refl _⟩,
      hv', ?_⟩
    have hsrc : l.flat.view (Slice.make m.arrays l.flat.len).1 = xs :=
      (hv.extends hext).2.trans hview
    have hmake : (Slice.make m.arrays l.flat.len).2.len = xs.length := hlen
    rw [hview', hsrc, hmake, take_length,
      drop_eq_nil_of_le (Nat.le_of_eq (hvm.length_view.trans hmake)), append_nil]
  · intro σ fn s
    simp [LispList.each, hl, hview]
  · simpa [LispList.cursor, hl] using yields_flat hv hview

theorem Rep.describes [Inhabited α] (h : Rep m l xs) : Describes m l xs := by
  unfold Rep at h
  split at h
  case h_1 a ha => exact h.describes ha
  case h_2 hnone => exact describes_flat hnone h.1 h.2

theorem rep_empty (m : ListMem α) : Rep m empty [] :=
  ⟨Slice.valid_nil _, Slice.view_nil _⟩

theorem newList_spec (m : ListMem α) {items : Slice} (hv : items.Valid m.arrays)
    (hview : items.view m.arrays = xs) :
    m ≤ (newList m items).1 ∧ Rep (newList m items).1 (newList m items).2 xs := by
  unfold newList
  split
  · exact ⟨le_refl m, hv, hview⟩
  case isFalse hlong =>
    have hne : items.view m.arrays ≠ [] := by
      intro hnil
      have hlen := hv.length_view
      rw [hnil, length_nil] at hlen
      simp [← hlen] at hlong
    obtain ⟨hext, hc⟩ := newListChain_spec m.nodes (items.view m.arrays)
    obtain ⟨a, ha⟩ := newListChain_ne_none m.nodes hne
    refine ⟨⟨.refl _, hext⟩, ?_⟩
    rw [ha] at hc
    simpa only [Rep, ha, ← hview] using hc

theorem Rep.rest (h : Rep m l xs) : ∃ l', rest m l = some l' ∧ Rep m l' xs.tail := by
  unfold Rep at h
  split at h
  case h_1 a ha =>
    cases h with
    | @cons _ x t xs hread _ htail =>
      cases t with
      | none =>
        cases htail
        exact ⟨empty, by simp [LispList.rest, ha, hread], rep_empty m⟩
      | some b => exact ⟨⟨.nil, some b⟩, by simp [LispList.rest, ha, hread], htail⟩
  case h_2 hnone =>
    obtain ⟨hv, hview⟩ := h
    have hlen : l.flat.len = xs.length := by rw [← hv.length_view, hview]
    by_cases hle : l.flat.len ≤ 1
    · refine ⟨empty, by simp [LispList.rest, hnone, hle], ?_⟩
      have htail : xs.tail = [] := eq_nil_of_length_eq_zero (by simp; omega)
      exact htail ▸ rep_empty m
    · obtain ⟨t, ht, hvt, htview⟩ := hv.from_spec 1 (by omega)
      refine ⟨⟨t, none⟩, by simp [LispList.rest, hnone, hle, ht], hvt, ?_⟩
      rw [htview, hview, drop_one]

theorem cons_flat [Inhabited α] {m : Arrays α} {flat : Slice} (hv : flat.Valid m)
    (hview : flat.view m = xs) (v : α) :
    let items := (Slice.make m (flat.len + 1)).2
    ∃ arrays tail, items.set (Slice.make m (flat.len + 1)).1 0 v = some arrays ∧
      items.from? 1 = some tail ∧ m.Extends (Slice.copy arrays tail flat).1 ∧
      items.Valid (Slice.copy arrays tail flat).1 ∧
      items.view (Slice.copy arrays tail flat).1 = v :: xs := by
  intro items
  have hlen : flat.len = xs.length := by rw [← hv.length_view, hview]
  have hitems : items.len = xs.length + 1 := by rw [← hlen]; rfl
  obtain ⟨hext, hvm, hmake, hfresh⟩ := Slice.make_spec m (flat.len + 1)
  obtain ⟨arrays, hset, hext₁, hv₁, hview₁⟩ :=
    hvm.set_spec hfresh hext (i := 0) (Nat.succ_pos _) v
  obtain ⟨tail, htail, hext₂, hv₂, hview₂⟩ :=
    hv₁.copy_from_spec hfresh hext₁ flat 1 (Nat.le_add_left 1 _)
  refine ⟨arrays, tail, hset, htail, hext₂, hv₂, ?_⟩
  rw [hview₂, (hv.extends hext₁).2, hview, hview₁, hmake]
  simp [Slice.splice, Slice.make, hlen, replicate_succ, Nat.add_comm 1]

theorem cons_shared [Inhabited α] {node : ListNode α} (hl : l.shared = some a)
    (hread : m.nodes.read a = some node) (v : α) :
    cons m l v = some (⟨m.arrays, (m.nodes.alloc ⟨v, some a, node.count + 1⟩).1⟩,
      ⟨Slice.nil, some m.nodes.next⟩, listShallowBytes 1) := by
  simp [LispList.cons, hl, hread]

theorem cons_short [Inhabited α] {v : α} {arrays : Arrays α} {tail : Slice} (hl : l.shared = none)
    (hle : l.flat.len + 1 ≤ listFlatThreshold)
    (hset : (Slice.make m.arrays (l.flat.len + 1)).2.set (Slice.make m.arrays
      (l.flat.len + 1)).1 0 v = some arrays)
    (htail : (Slice.make m.arrays (l.flat.len + 1)).2.from? 1 = some tail) :
    cons m l v = some (⟨(Slice.copy arrays tail l.flat).1, m.nodes⟩,
      ⟨(Slice.make m.arrays (l.flat.len + 1)).2, none⟩,
      listShallowBytes (l.flat.len + 1)) := by
  simp [LispList.cons, hl, hle, hset, htail]

theorem cons_long [Inhabited α] (hl : l.shared = none)
    (hle : ¬ l.flat.len + 1 ≤ listFlatThreshold) (v : α) :
    let r := newListChain m.nodes (l.flat.view m.arrays)
    cons m l v = some (⟨m.arrays, (r.1.alloc ⟨v, r.2, l.flat.len + 1⟩).1⟩,
      ⟨.nil, some r.1.next⟩, listShallowBytes 1 * (l.flat.len + 1 : Nat)) := by
  simp [LispList.cons, hl, hle]

theorem Rep.cons [Inhabited α] {m : ListMem α} {l : LispList} {xs : List α}
    (h : Rep m l xs) (v : α) :
    ∃ m' l' bytes, cons m l v = some (m', l', bytes) ∧ m ≤ m' ∧ Rep m' l' (v :: xs) := by
  unfold Rep at h
  split at h
  case h_1 a ha =>
    obtain ⟨x, t, hread⟩ : ∃ x t, m.nodes.read a = some ⟨x, t, xs.length⟩ := by
      cases h with
      | cons hread _ _ => exact ⟨_, _, hread⟩
    refine ⟨_, _, _, cons_shared ha hread v, ⟨Heap.Extends.refl _, ?_⟩, h.alloc v rfl⟩
    exact m.nodes.extends_alloc _
  case h_2 hnone =>
    obtain ⟨hv, hview⟩ := h
    have hlen : l.flat.len = xs.length := by rw [← hv.length_view, hview]
    by_cases hle : l.flat.len + 1 ≤ listFlatThreshold
    · obtain ⟨arrays, tail, hset, htail, hext, hvi, hiview⟩ := cons_flat hv hview v
      exact ⟨_, _, _, cons_short hnone hle hset htail, ⟨hext, Heap.Extends.refl _⟩, hvi, hiview⟩
    · obtain ⟨hext, hc⟩ := newListChain_spec m.nodes (l.flat.view m.arrays)
      refine ⟨_, _, _, cons_long hnone hle v,
        ⟨Heap.Extends.refl _, hext.trans (Heap.extends_alloc _ _)⟩, ?_⟩
      subst hview
      exact hc.alloc v (congrArg Nat.succ hlen)

inductive ListOp (α : Type) where
  | cons (v : α)
  | rest
deriving DecidableEq, Repr

def lists [Inhabited α] : Persistent (ListMem α) LispList (Slice.Window α) (ListOp α) where
  create m c :=
    let (arrays, items) := c.alloc m.arrays
    some (newList ⟨arrays, m.nodes⟩ items)
  apply m l
    | .cons v => (cons m l v).map fun r => (r.1, r.2.1)
    | .rest => (rest m l).map fun l' => (m, l')

def sequences : Spec (List α) (Slice.Window α) (ListOp α) where
  create c := c.items
  apply xs
    | .cons v => v :: xs
    | .rest => xs.tail

theorem lists_refines [Inhabited α] :
    Persistent.Refines (lists (α := α)) sequences Rep fun _ => True where
  mono hm h := h.mono hm
  create m c _ := by
    obtain ⟨hext, hv, hview⟩ := c.alloc_spec m.arrays
    have hm : m ≤ ⟨(c.alloc m.arrays).1, m.nodes⟩ := ⟨hext, .refl _⟩
    obtain ⟨hm', hrep⟩ := newList_spec ⟨(c.alloc m.arrays).1, m.nodes⟩ hv hview
    exact ⟨_, _, rfl, hm.trans hm', hrep⟩
  apply {m l xs} o h _ := by
    cases o with
    | cons v =>
      obtain ⟨m', l', bytes, hc, hm, hrep⟩ := h.cons v
      exact ⟨m', l', by simp [lists, hc], hm, hrep⟩
    | rest =>
      obtain ⟨l', hr, hrep⟩ := h.rest
      exact ⟨m, l', by simp [lists, hr], le_refl m, hrep⟩

/-- Every list that `NewList`, `Cons` and `Rest` make, in any order and from any lists
made before, is read as one sequence by every reader, then and after any further calls;
a list consed onto and then rested reads as before. -/
theorem lists_describe_sequences [Inhabited α] (m₀ : ListMem α)
    (calls more : List (Persistent.Call (Slice.Window α) (ListOp α))) :
    ∃ p p', lists.run ⟨m₀, []⟩ calls = some p ∧ lists.run p more = some p' ∧
      p.objs.length = (Persistent.specRun sequences [] calls).length ∧
      ∀ (k : Nat) l xs, p.objs[k]? = some l →
        (Persistent.specRun sequences [] calls)[k]? = some xs →
        p'.objs[k]? = some l ∧ Describes p.mem l xs ∧ Describes p'.mem l xs ∧
        ∀ v, ∃ m₁ l₁ bytes l₂, cons p'.mem l v = some (m₁, l₁, bytes) ∧
          Describes m₁ l₁ (v :: xs) ∧ rest m₁ l₁ = some l₂ ∧ Describes m₁ l₂ xs := by
  obtain ⟨p, p', hrun, hrun', hlen, hobjs⟩ :=
    lists_refines.run_then_run m₀ calls more fun _ _ => trivial
  refine ⟨p, p', hrun, hrun', hlen, ?_⟩
  intro k l xs hl hxs
  obtain ⟨hkeep, hrep, hrep'⟩ := hobjs k l xs hl hxs
  refine ⟨hkeep, hrep.describes, hrep'.describes, ?_⟩
  intro v
  obtain ⟨m₁, l₁, bytes, hc, -, hrep₁⟩ := hrep'.cons v
  obtain ⟨l₂, hr, hrep₂⟩ := hrep₁.rest
  exact ⟨m₁, l₁, bytes, l₂, hc, hrep₁.describes, hr, hrep₂.describes⟩

end

end LispList

end Core

end Lispico
