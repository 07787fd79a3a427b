import Lispico.Lib.Slice
import Lispico.Lib.Persistent

/-!
# Lists

A list is a flat slice up to `listFlatThreshold` elements and a chain of nodes with shared tails
above it. An operation takes the memory of arrays and nodes and returns the memory it leaves;
`none` is a panic.
-/

namespace Lispico

namespace Core

open Lib

def listFlatThreshold : Nat := 32

/-- The bytes charged for `n` value slots. -/
def valueSlotsBytes (n : Nat) : Int := n * 16

def listShallowBytes (n : Nat) : Int := 24 + valueSlotsBytes n

/-- One cons cell: `count` is the number of elements from here to the end. -/
structure ListNode (α : Type) where
  head : α
  tail : Option Addr
  count : Nat
deriving DecidableEq, Repr

structure LispList where
  flat : Slice
  shared : Option Addr
deriving DecidableEq, Repr

structure ListMem (α : Type) where
  arrays : Arrays α
  nodes : Heap (ListNode α)

/-- A memory is below another that keeps all of its arrays and nodes. -/
instance {α : Type} : Preorder (ListMem α) where
  le m m' := m.arrays.Extends m'.arrays ∧ m.nodes.Extends m'.nodes
  le_refl _ := ⟨Heap.Extends.refl _, Heap.Extends.refl _⟩
  le_trans _ _ _ h h' := ⟨h.1.trans h'.1, h.2.trans h'.2⟩

namespace LispList

section

variable {α : Type}

def empty : LispList := ⟨Slice.nil, none⟩

/-- Link the items back to front, the first one becoming the outermost node. -/
def newListChain (h : Heap (ListNode α)) (items : List α) : Heap (ListNode α) × Option Addr :=
  items.zipIdx.foldr (fun item acc =>
      let (h', a) := acc.1.alloc ⟨item.1, acc.2, items.length - item.2⟩
      (h', some a))
    (h, none)

/-- `NewList`: borrow a short slice, copy a long one into a chain. -/
def newList (m : ListMem α) (items : Slice) : ListMem α × LispList :=
  if items.len ≤ listFlatThreshold then
    (m, ⟨items, none⟩)
  else
    let (nodes, node) := newListChain m.nodes (items.view m.arrays)
    (⟨m.arrays, nodes⟩, ⟨Slice.nil, node⟩)

def len (m : ListMem α) (l : LispList) : Option Nat :=
  match l.shared with
  | some a => (m.nodes.read a).map ListNode.count
  | none => some l.flat.len

/-- Follow `i` tails and return the head found there. -/
def nodeAt (h : Heap (ListNode α)) : Nat → Option Addr → Option α
  | _, none => none
  | 0, some a => (h.read a).map ListNode.head
  | i + 1, some a => (h.read a).bind fun node => nodeAt h i node.tail

def at? (m : ListMem α) (l : LispList) (i : Int) : Option α :=
  match l.shared with
  | none => if i < 0 then none else l.flat.get m.arrays i.toNat
  | some a => do
      let node ← m.nodes.read a
      if i < 0 ∨ i ≥ node.count then none else nodeAt m.nodes i.toNat (some a)

/-- The loop of `ToSlice` on a chain: fill `out` from index `i` on, `n` elements. -/
def fillFrom (h : Heap (ListNode α)) (out : Slice) :
    Nat → Nat → Option Addr → Arrays α → Option (Arrays α)
  | 0, _, _, arrays => some arrays
  | _ + 1, _, none, _ => none
  | n + 1, i, some a, arrays => do
      let node ← h.read a
      let arrays ← out.set arrays i node.head
      fillFrom h out n (i + 1) node.tail arrays

def toSlice [Inhabited α] (m : ListMem α) (l : LispList) : Option (ListMem α × Slice) :=
  match l.shared with
  | none =>
    let (arrays, out) := Slice.make m.arrays l.flat.len
    some (⟨(Slice.copy arrays out l.flat).1, m.nodes⟩, out)
  | some a => do
      let node ← m.nodes.read a
      let (arrays, out) := Slice.make m.arrays node.count
      let arrays ← fillFrom m.nodes out node.count 0 (some a) arrays
      some (⟨arrays, m.nodes⟩, out)

/-- The loop of `each` on a slice: `fn` runs on a state and says whether to go on. -/
def eachFlat {σ : Type} (fn : α → σ → Bool × σ) : List α → σ → σ
  | [], s => s
  | v :: vs, s =>
    let (go, s') := fn v s
    if go then eachFlat fn vs s' else s'

/-- The loop of `each` on a chain. The fuel bounds the number of nodes met. -/
def eachNode {σ : Type} (h : Heap (ListNode α)) (fn : α → σ → Bool × σ) :
    Nat → Option Addr → σ → Option σ
  | _, none, s => some s
  | 0, some _, _ => none
  | fuel + 1, some a, s => do
      let node ← h.read a
      let (go, s') := fn node.head s
      if go then eachNode h fn fuel node.tail s' else some s'

/-- `each`. A chain has at most as many nodes as were ever allocated. -/
def each {σ : Type} (m : ListMem α) (l : LispList) (fn : α → σ → Bool × σ) (s : σ) : Option σ :=
  match l.shared with
  | none => some (eachFlat fn (l.flat.view m.arrays) s)
  | some a => eachNode m.nodes fn m.nodes.next (some a) s

structure Cursor where
  flat : Slice
  node : Option Addr
deriving DecidableEq, Repr

def cursor (l : LispList) : Cursor :=
  match l.shared with
  | none => ⟨l.flat, none⟩
  | some a => ⟨Slice.nil, some a⟩

/-- `next`: the element under the cursor, if there is one, and the advanced cursor. -/
def Cursor.next (m : ListMem α) (c : Cursor) : Option (Option α × Cursor) :=
  match c.node with
  | some a => (m.nodes.read a).map fun node => (some node.head, ⟨c.flat, node.tail⟩)
  | none =>
    if c.flat.len = 0 then
      some (none, c)
    else do
      let v ← c.flat.get m.arrays 0
      let flat ← c.flat.from? 1
      some (some v, ⟨flat, none⟩)

def rest (m : ListMem α) (l : LispList) : Option LispList :=
  match l.shared with
  | some a => do
      let node ← m.nodes.read a
      match node.tail with
      | none => some empty
      | some b => some ⟨Slice.nil, some b⟩
  | none =>
    if l.flat.len ≤ 1 then
      some empty
    else do
      let flat ← l.flat.from? 1
      some ⟨flat, none⟩

/-- `Cons`: the new list and the bytes charged for what it allocated. -/
def cons [Inhabited α] (m : ListMem α) (l : LispList) (v : α) :
    Option (ListMem α × LispList × Int) :=
  match l.shared with
  | some a => do
      let node ← m.nodes.read a
      let (nodes, b) := m.nodes.alloc ⟨v, some a, node.count + 1⟩
      some (⟨m.arrays, nodes⟩, ⟨Slice.nil, some b⟩, listShallowBytes 1)
  | none =>
    let newLen := l.flat.len + 1
    if newLen ≤ listFlatThreshold then do
      let (arrays, items) := Slice.make m.arrays newLen
      let arrays ← items.set arrays 0 v
      let tail ← items.from? 1
      let arrays := (Slice.copy arrays tail l.flat).1
      some (⟨arrays, m.nodes⟩, ⟨items, none⟩, listShallowBytes newLen)
    else
      -- promotion: a chain of `newLen` fresh nodes
      let (nodes, tail) := newListChain m.nodes (l.flat.view m.arrays)
      let (nodes, b) := nodes.alloc ⟨v, tail, newLen⟩
      some (⟨m.arrays, nodes⟩, ⟨Slice.nil, some b⟩, listShallowBytes 1 * newLen)

end

end LispList

end Core

end Lispico
