import Lispico.Lib.Slice
import Lispico.Lib.Persistent
import Mathlib

/-!
# Vectors

A vector is a flat slice, or a 32-way trie with a tail buffer. `Conj` promotes past
`vectorFlatThreshold` and copies only the path to the new leaf. An operation takes the memory of
arrays and nodes and returns the memory it leaves; `none` is a panic. The capacity of a growing
`append` is `g`.
-/

namespace Lispico

namespace Core

open Lib

/-- The largest length `Conj` leaves flat. -/
def vectorFlatThreshold : Nat := 32

def vecBits : Nat := 5

/-- The branching factor, `1 << vecBits`. -/
def vecBranch : Nat := 1 <<< vecBits

def vectorShallowBytes (n : Nat) : Int := 24 + n * 16

structure VecNode where
  kids : Slice
  vals : Slice
deriving DecidableEq, Repr

/-- A vector value. `count` is a signed 32-bit and `shift` an unsigned 8-bit number. -/
structure LispVector where
  flat : Slice
  root : Option Addr
  shift : Nat
  count : Int
  tail : Slice
deriving DecidableEq, Repr

structure VecMem (α : Type) where
  arrays : Arrays α
  kidArrays : Arrays (Option Addr)
  nodes : Heap VecNode

/-- A memory is below another that keeps all of its arrays and nodes. -/
instance {α : Type} : Preorder (VecMem α) where
  le m m' := m.arrays.Extends m'.arrays ∧ m.kidArrays.Extends m'.kidArrays ∧
    m.nodes.Extends m'.nodes
  le_refl _ := ⟨Heap.Extends.refl _, Heap.Extends.refl _, Heap.Extends.refl _⟩
  le_trans _ _ _ h h' := ⟨h.1.trans h'.1, h.2.1.trans h'.2.1, h.2.2.trans h'.2.2⟩

def VecMem.newNode {α : Type} (m : VecMem α) (node : VecNode) : VecMem α × Addr :=
  let (nodes, a) := m.nodes.alloc node
  ({ m with nodes := nodes }, a)

def toInt32 (n : Nat) : Int := Int.bmod n (2 ^ 32)

def toUint8 (n : Nat) : Nat := n % 2 ^ 8

namespace LispVector

section

variable {α : Type}

/-- `NewVector`: borrow the slice, whatever its length. -/
def newVector (items : Slice) : LispVector := ⟨items, none, 0, 0, Slice.nil⟩

def len (v : LispVector) : Int :=
  match v.root with
  | some _ => v.count
  | none => v.flat.len

/-- The loop of `At`: from a node at height `shift` down to a leaf. -/
def descend (m : VecMem α) (i shift : Nat) (a : Addr) : Option VecNode :=
  match shift with
  | 0 => m.nodes.read a
  | s + 1 => do
      let node ← m.nodes.read a
      let kid ← node.kids.get m.kidArrays ((i >>> (s + 1)) &&& (vecBranch - 1))
      descend m i (s + 1 - vecBits) (← kid)
termination_by shift
decreasing_by simp only [vecBits]; omega

def at? (m : VecMem α) (v : LispVector) (i : Int) : Option α :=
  match v.root with
  | none => if i < 0 then none else v.flat.get m.arrays i.toNat
  | some root =>
    if i < 0 ∨ i ≥ v.count then
      none
    else
      let trieLen := v.count - v.tail.len
      if i ≥ trieLen then
        v.tail.get m.arrays (i - trieLen).toNat
      else do
        let node ← descend m i.toNat v.shift root
        node.vals.get m.arrays (i.toNat &&& (vecBranch - 1))

/-- `flattenVecNode`: write the elements below a node into `out`, return how many. -/
def flattenVecNode (m : VecMem α) (shift : Nat) (a : Addr) (out : Slice)
    (arrays : Arrays α) : Option (Arrays α × Nat) :=
  match shift with
  | 0 => do
      let node ← m.nodes.read a
      some (Slice.copy arrays out node.vals)
  | s + 1 => do
      let node ← m.nodes.read a
      (node.kids.view m.kidArrays).foldlM (fun acc kid => do
        let dst ← out.from? acc.2
        let r ← flattenVecNode m (s + 1 - vecBits) (← kid) dst acc.1
        some (r.1, acc.2 + r.2)) (arrays, 0)
termination_by shift
decreasing_by simp only [vecBits]; omega

def toSlice [Inhabited α] (m : VecMem α) (v : LispVector) : Option (VecMem α × Slice) :=
  match v.root with
  | none =>
    let (arrays, out) := Slice.make m.arrays v.flat.len
    some ({ m with arrays := (Slice.copy arrays out v.flat).1 }, out)
  | some root =>
    -- `make` panics on a negative length
    if v.count < 0 then
      none
    else do
      let (arrays, out) := Slice.make m.arrays v.count.toNat
      let (arrays, i) ← flattenVecNode m v.shift root out arrays
      let rest ← out.from? i
      some ({ m with arrays := (Slice.copy arrays rest v.tail).1 }, out)

/-- `newVecPath`: single-child nodes from height `shift` down to the leaf. -/
def newVecPath (m : VecMem α) (shift : Nat) (leaf : Addr) : VecMem α × Addr :=
  match shift with
  | 0 => (m, leaf)
  | s + 1 =>
    let (m, kid) := newVecPath m (s + 1 - vecBits) leaf
    let (kidArrays, a) := m.kidArrays.alloc [some kid]
    VecMem.newNode { m with kidArrays := kidArrays } ⟨⟨a, 0, 1, 1⟩, Slice.nil⟩
termination_by shift
decreasing_by simp only [vecBits]; omega

/-- `pushVecLeaf`: copy the path to the next free slot and put the leaf there. Only
heights from `vecBits` on occur; below it the unsigned `shift - vecBits` would wrap. -/
def pushVecLeaf (g : Growth) (m : VecMem α) (a : Addr) (shift trieLen : Nat) (leaf : Addr) :
    Option (VecMem α × Addr) := do
  let idx := (trieLen >>> shift) &&& (vecBranch - 1)
  let node ← m.nodes.read a
  let (kidArrays, kids) :=
    Slice.append g m.kidArrays Slice.nil (node.kids.view m.kidArrays)
  let m := { m with kidArrays := kidArrays }
  if shift < vecBits then
    none
  else if shift = vecBits then
    let (kidArrays, kids) := Slice.append g m.kidArrays kids [some leaf]
    some (VecMem.newNode { m with kidArrays := kidArrays } ⟨kids, Slice.nil⟩)
  else if idx < kids.len then do
    let kid ← kids.get m.kidArrays idx
    let (m, kid) ← pushVecLeaf g m (← kid) (shift - vecBits) trieLen leaf
    let kidArrays ← kids.set m.kidArrays idx (some kid)
    some (VecMem.newNode { m with kidArrays := kidArrays } ⟨kids, Slice.nil⟩)
  else
    let (m, kid) := newVecPath m (shift - vecBits) leaf
    let (kidArrays, kids) := Slice.append g m.kidArrays kids [some kid]
    some (VecMem.newNode { m with kidArrays := kidArrays } ⟨kids, Slice.nil⟩)
termination_by shift
decreasing_by simp only [vecBits] at *; omega

/-- `pushVecTail`: a full tail becomes a leaf; a full trie grows by a level first. -/
def pushVecTail (g : Growth) (m : VecMem α) (root : Option Addr) (shift trieLen : Nat)
    (tail : Slice) : Option (VecMem α × Option Addr × Nat) :=
  if tail.len ≠ vecBranch then
    none
  else
    let (m, leaf) := m.newNode ⟨Slice.nil, tail⟩
    match root with
    | none => some (m, some leaf, 0)
    | some root =>
      if trieLen >>> vecBits ≥ 1 <<< shift then
        let (m, path) := newVecPath m shift leaf
        let (kidArrays, a) := m.kidArrays.alloc [some root, some path]
        let (m, node) :=
          VecMem.newNode { m with kidArrays := kidArrays } ⟨⟨a, 0, 2, 2⟩, Slice.nil⟩
        some (m, some node, shift + vecBits)
      else do
        let (m, node) ← pushVecLeaf g m root shift trieLen leaf
        some (m, some node, shift)

/-- The loop of `buildVecTrieFromFlat`: `n` more chunks of `flat` from index `i` on. -/
def buildLoop [Inhabited α] (g : Growth) (flat : Slice) :
    Nat → Nat → VecMem α → Option Addr → Nat → Nat → Option (VecMem α × Option Addr × Nat × Nat)
  | 0, _, m, root, shift, trieLen => some (m, root, shift, trieLen)
  | n + 1, i, m, root, shift, trieLen => do
      let part ← flat.sub? i (i + vecBranch)
      let (arrays, chunk) := Slice.append g m.arrays Slice.nil (part.view m.arrays)
      let (m, root, shift) ← pushVecTail g { m with arrays := arrays } root shift trieLen chunk
      buildLoop g flat n (i + vecBranch) m root shift (trieLen + vecBranch)

/-- `buildVecTrieFromFlat`: full chunks go into a trie, the remainder is the tail. -/
def buildVecTrieFromFlat [Inhabited α] (g : Growth) (m : VecMem α) (flat : Slice) :
    Option (VecMem α × Option Addr × Nat × Nat × Slice) := do
  let full := flat.len / vecBranch * vecBranch
  let (m, root, shift, trieLen) ← buildLoop g flat (flat.len / vecBranch) 0 m none 0 0
  let part ← flat.from? full
  let (arrays, tail) := Slice.append g m.arrays Slice.nil (part.view m.arrays)
  some ({ m with arrays := arrays }, root, shift, trieLen, tail)

/-- `vecPathBytes`: the charge for a leaf and one copied node per level. -/
def vecPathBytes (shift : Nat) : Int :=
  (shift / vecBits + 1 : Nat) * vectorShallowBytes vecBranch

/-- The variables of the loop of `Conj`. -/
structure ConjState (α : Type) where
  mem : VecMem α
  root : Option Addr
  shift : Nat
  trieLen : Nat
  tail : Slice
  bytes : Int

/-- One element of the loop of `Conj`: a full tail goes into the trie first. -/
def conjStep [Inhabited α] (g : Growth) (st : ConjState α) (val : α) : Option (ConjState α) := do
  let st ←
    if st.tail.len = vecBranch then do
      let (m, root, shift) ← pushVecTail g st.mem st.root st.shift st.trieLen st.tail
      some ⟨m, root, shift, st.trieLen + vecBranch, Slice.nil, st.bytes + vecPathBytes st.shift⟩
    else
      some st
  let (arrays, tail) := Slice.append g st.mem.arrays st.tail [val]
  some { st with mem := { st.mem with arrays := arrays }, tail := tail }

/-- Where the loop of `Conj` starts: the trie of `v`, or the one its flat form is
promoted to. -/
def conjStart [Inhabited α] (g : Growth) (m : VecMem α) (v : LispVector) : Option (ConjState α) :=
  match v.root with
  | some root =>
    let (arrays, tail) := Slice.append g m.arrays Slice.nil (v.tail.view m.arrays)
    some ⟨{ m with arrays := arrays }, some root, v.shift, (v.count - v.tail.len).toNat, tail, 0⟩
  | none => do
      let (m, root, shift, trieLen, tail) ← buildVecTrieFromFlat g m v.flat
      some ⟨m, root, shift, trieLen, tail, vectorShallowBytes v.flat.len⟩

/-- `Conj`: the new vector and the bytes charged for what it allocated. -/
def conj [Inhabited α] (g : Growth) (m : VecMem α) (v : LispVector) (vs : Slice) :
    Option (VecMem α × LispVector × Int) :=
  let newLen := v.len + vs.len
  if v.root = none ∧ newLen ≤ vectorFlatThreshold then do
    let (arrays, items) := Slice.make m.arrays (v.flat.len + vs.len)
    let arrays := (Slice.copy arrays items v.flat).1
    let rest ← items.from? v.flat.len
    let arrays := (Slice.copy arrays rest vs).1
    some ({ m with arrays := arrays }, ⟨items, none, 0, 0, Slice.nil⟩,
      vectorShallowBytes items.len)
  else do
    let st ← conjStart g m v
    let st ← (vs.view m.arrays).foldlM (conjStep g) st
    some (st.mem, ⟨Slice.nil, st.root, toUint8 st.shift, toInt32 (st.trieLen + st.tail.len),
      st.tail⟩, st.bytes + vectorShallowBytes st.tail.len)

end

end LispVector

end Core

end Lispico
