import Lispico.Core.HashKey
import Lispico.Core.Vector
import Lispico.Lib.Sparse

/-!
# The trie of large maps

A node has for each of its 32 slots an entry, a child or nothing, in two compacted lists under
two bitmaps; entries whose hashes agree go into a collision node. Nodes are values here. The
recursive functions take the number of levels they may descend, and `none` is a panic.
-/

namespace Lispico

namespace Core

structure Entry (V : Type) where
  hk : HashKey
  k : Key
  v : V
deriving DecidableEq, Repr

inductive HamtNode (V : Type) where
  | mk (dataMap nodeMap : BitVec 32) (entries : List (Entry V)) (children : List (HamtNode V))

namespace HamtNode

section

variable {V : Type}

def dataMap : HamtNode V → BitVec 32
  | mk d _ _ _ => d

def nodeMap : HamtNode V → BitVec 32
  | mk _ n _ _ => n

def entries : HamtNode V → List (Entry V)
  | mk _ _ es _ => es

def children : HamtNode V → List (HamtNode V)
  | mk _ _ _ cs => cs

/-- The node `&hamtNode{}`. -/
def empty : HamtNode V := mk 0#32 0#32 [] []

/-- The levels of a trie: seven that use hash bits, and the collision level. -/
def levels : Nat := 8

def onesCount32 (b : BitVec 32) : Nat := Lib.Sparse.onesCount b

/-- The slot of a hash at a level; the geometry is that of the vector trie. -/
def slot (h : BitVec 32) (shift : Nat) : Nat :=
  ((h >>> shift) &&& BitVec.ofNat 32 (vecBranch - 1)).toNat

def bitOf (h : BitVec 32) (shift : Nat) : BitVec 32 := 1#32 <<< slot h shift

def hamtSizeBytes (entries children : Nat) : Int := 24 + entries * 64 + children * 8

def hamtNodeBytes (n : HamtNode V) : Int := hamtSizeBytes n.entries.length n.children.length

def isCollision (n : HamtNode V) : Bool :=
  n.dataMap == 0#32 && n.nodeMap == 0#32 && !n.entries.isEmpty

def get : Nat → HamtNode V → HashKey → BitVec 32 → Nat → Option (Option V)
  | 0, _, _, _, _ => none
  | lvl + 1, n, hk, h, shift =>
    if n.isCollision then
      some ((n.entries.find? fun e => e.hk == hk).map Entry.v)
    else
      let bit := bitOf h shift
      if n.dataMap &&& bit ≠ 0#32 then do
        let e ← n.entries[onesCount32 (n.dataMap &&& (bit - 1#32))]?
        some (if e.hk = hk then some e.v else none)
      else if n.nodeMap &&& bit ≠ 0#32 then do
        let child ← n.children[onesCount32 (n.nodeMap &&& (bit - 1#32))]?
        get lvl child hk h (shift + vecBits)
      else
        some none

def mergeEntries : Nat → Entry V → BitVec 32 → Entry V → BitVec 32 → Nat → Option (HamtNode V)
  | 0, _, _, _, _, _ => none
  | lvl + 1, a, ha, b, hb, shift =>
    if shift ≥ 32 then
      some (mk 0#32 0#32 [a, b] [])
    else
      let fa := slot ha shift
      let fb := slot hb shift
      if fa = fb then do
        let child ← mergeEntries lvl a ha b hb (shift + vecBits)
        some (mk 0#32 (1#32 <<< fa) [] [child])
      else
        some (mk (1#32 <<< fa ||| 1#32 <<< fb) 0#32 (if fa < fb then [a, b] else [b, a]) [])

/-- `assoc`: the new node, the bytes it allocated, and whether the key is new. -/
def assoc : Nat → HamtNode V → Entry V → BitVec 32 → Nat → Option (HamtNode V × Int × Bool)
  | 0, _, _, _, _ => none
  | lvl + 1, n, e, h, shift =>
    if n.isCollision then
      match n.entries.findIdx? fun x => x.hk == e.hk with
      | some i =>
        let out := mk 0#32 0#32 (n.entries.set i e) []
        some (out, out.hamtNodeBytes, false)
      | none =>
        let out := mk 0#32 0#32 (n.entries ++ [e]) []
        some (out, out.hamtNodeBytes, true)
    else
      let bit := bitOf h shift
      let idx := onesCount32 (n.dataMap &&& (bit - 1#32))
      let cidx := onesCount32 (n.nodeMap &&& (bit - 1#32))
      if n.dataMap &&& bit ≠ 0#32 then do
        let existing ← n.entries[idx]?
        if existing.hk = e.hk then
          let out := mk n.dataMap n.nodeMap (n.entries.set idx e) n.children
          some (out, out.hamtNodeBytes, false)
        else do
          let child ← mergeEntries lvl existing (hashOfKey existing.hk) e h (shift + vecBits)
          let out := mk (n.dataMap &&& ~~~bit) (n.nodeMap ||| bit)
            (n.entries.take idx ++ n.entries.drop (idx + 1))
            (n.children.take cidx ++ [child] ++ n.children.drop cidx)
          some (out, out.hamtNodeBytes + child.hamtNodeBytes, true)
      else if n.nodeMap &&& bit ≠ 0#32 then do
        let child ← n.children[cidx]?
        let (child, bytes, added) ← assoc lvl child e h (shift + vecBits)
        let out := mk n.dataMap n.nodeMap n.entries (n.children.set cidx child)
        some (out, bytes + out.hamtNodeBytes, added)
      else
        let out := mk (n.dataMap ||| bit) n.nodeMap
          (n.entries.take idx ++ [e] ++ n.entries.drop idx) n.children
        some (out, out.hamtNodeBytes, true)

/-- `dissoc`: the node without the key (`none` once it is empty), the bytes, and whether
the key was there. -/
def dissoc : Nat → HamtNode V → HashKey → BitVec 32 → Nat →
    Option (Option (HamtNode V) × Int × Bool)
  | 0, _, _, _, _ => none
  | lvl + 1, n, hk, h, shift =>
    if n.isCollision then
      match n.entries.findIdx? fun x => x.hk == hk with
      | some i =>
        if n.entries.length = 1 then
          some (none, 0, true)
        else
          let out := mk 0#32 0#32 (n.entries.take i ++ n.entries.drop (i + 1)) []
          some (some out, out.hamtNodeBytes, true)
      | none => some (some n, 0, false)
    else
      let bit := bitOf h shift
      let idx := onesCount32 (n.dataMap &&& (bit - 1#32))
      let cidx := onesCount32 (n.nodeMap &&& (bit - 1#32))
      if n.dataMap &&& bit ≠ 0#32 then do
        let existing ← n.entries[idx]?
        if existing.hk ≠ hk then
          some (some n, 0, false)
        else if n.dataMap = bit ∧ n.nodeMap = 0#32 then
          some (none, 0, true)
        else
          let out := mk (n.dataMap &&& ~~~bit) n.nodeMap
            (n.entries.take idx ++ n.entries.drop (idx + 1)) n.children
          some (some out, out.hamtNodeBytes, true)
      else if n.nodeMap &&& bit ≠ 0#32 then do
        let child ← n.children[cidx]?
        let (child, bytes, removed) ← dissoc lvl child hk h (shift + vecBits)
        if !removed then
          some (some n, 0, false)
        else
          match child with
          | some child =>
            let out := mk n.dataMap n.nodeMap n.entries (n.children.set cidx child)
            some (some out, bytes + out.hamtNodeBytes, true)
          | none =>
            if n.dataMap = 0#32 ∧ n.nodeMap = bit then
              some (none, 0, true)
            else
              let out := mk n.dataMap (n.nodeMap &&& ~~~bit) n.entries
                (n.children.take cidx ++ n.children.drop (cidx + 1))
              some (some out, out.hamtNodeBytes, true)
      else
        some (some n, 0, false)

end

end HamtNode

end Core

end Lispico
