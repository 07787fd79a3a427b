import Mathlib

/-!
# Heaps of objects in allocation order

A heap lists the objects of one type in the order of their allocation. `Heap.Extends h h'` says
that `h'` holds the objects of `h`, unchanged, and possibly more, which is what a computation
leaves that writes only to objects of its own.
-/

namespace Lispico

namespace Lib

abbrev Addr := Nat

structure Heap (β : Type*) where
  cells : List β
deriving DecidableEq, Repr

namespace Heap

def empty {β : Type*} : Heap β := ⟨[]⟩

def next {β : Type*} (h : Heap β) : Addr := h.cells.length

def read {β : Type*} (h : Heap β) (a : Addr) : Option β := h.cells[a]?

def alloc {β : Type*} (h : Heap β) (b : β) : Heap β × Addr :=
  (⟨h.cells ++ [b]⟩, h.next)

/-- Change the object at `a`; nothing happens where no object is. -/
def modify {β : Type*} (h : Heap β) (a : Addr) (f : β → β) : Heap β :=
  ⟨h.cells.modify a f⟩

/-- The second heap holds the objects of the first one, unchanged. -/
def Extends {β : Type*} (h h' : Heap β) : Prop := h.cells <+: h'.cells

@[refl] theorem Extends.refl {β : Type*} (h : Heap β) : h.Extends h :=
  List.prefix_refl h.cells

variable {β : Type*} {h h' : Heap β}

theorem Extends.trans {h'' : Heap β} (h₁ : h.Extends h') (h₂ : h'.Extends h'') : h.Extends h'' :=
  List.IsPrefix.trans h₁ h₂

theorem Extends.next_le (hext : h.Extends h') : h.next ≤ h'.next :=
  List.IsPrefix.length_le hext

variable {b : β}

theorem getElem?_of_prefix {l l' : List β} (h : l <+: l') {k : Nat} (hb : l[k]? = some b) :
    l'[k]? = some b := by
  obtain ⟨t, rfl⟩ := h
  obtain ⟨hlt, -⟩ := List.getElem?_eq_some_iff.1 hb
  rw [List.getElem?_append_left hlt, hb]

variable {a : Addr} (f : β → β)

theorem Extends.read (hext : h.Extends h') (hb : h.read a = some b) : h'.read a = some b :=
  getElem?_of_prefix hext hb

theorem lt_next_of_read (hb : h.read a = some b) : a < h.next :=
  (List.getElem?_eq_some_iff.1 hb).1

@[simp] theorem alloc_snd {β : Type*} (h : Heap β) (b : β) : (h.alloc b).2 = h.next := rfl

@[simp] theorem read_alloc {β : Type*} (h : Heap β) (b : β) :
    (h.alloc b).1.read h.next = some b := by
  simp [alloc, read, next]

@[simp] theorem next_alloc {β : Type*} (h : Heap β) (b : β) :
    (h.alloc b).1.next = h.next + 1 := by
  simp [alloc, next]

theorem extends_alloc (h : Heap β) (b : β) : h.Extends (h.alloc b).1 :=
  List.prefix_append h.cells [b]

theorem read_modify_self (hb : h.read a = some b) : (h.modify a f).read a = some (f b) := by
  simp only [read] at hb
  simp [modify, read, hb]

theorem read_modify_ne {c : Addr} (hne : c ≠ a) (hb : h.read c = some b) :
    (h.modify a f).read c = some b := by
  simp only [read] at hb
  simp [modify, read, hne.symm, hb]

theorem Extends.modify (hext : h.Extends h') (ha : h.next ≤ a) (f : β → β) :
    h.Extends (h'.modify a f) := by
  rw [Extends, List.prefix_iff_getElem?] at hext ⊢
  intro i hi
  have hne : a ≠ i := by
    rintro rfl
    exact absurd hi (Nat.not_lt.2 ha)
  simp only [Heap.modify, List.getElem?_modify, hne, if_false]
  simpa using hext i hi

end Heap

end Lib

end Lispico
