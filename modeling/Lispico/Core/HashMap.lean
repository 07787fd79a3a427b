import Lispico.Core.Hamt
import Mathlib

/-!
# Maps

A map is a sorted slice of up to `hashMapSmallLimit` entries, a Go map under construction, or a
trie. `Assoc` and `Dissoc` leave the trie they convert a Go map to in the memo of their
receiver, so an operation returns what it leaves of its receiver. A Go map is the list of its
entries in some order; `none` is a panic.
-/

namespace Lispico

namespace Core

def hashMapSmallLimit : Nat := 8

def hashMapShallowBytes (n : Nat) : Int := 32 + n * 64

/-- Whichever large form is active: a Go map `m` (`none` is the nil map) or a trie. -/
structure LargeMap (V : Type) where
  m : Option (List (Entry V))
  root : Option (HamtNode V)
  count : Int
  memo : Option (HamtNode V)

structure HashMap (V : Type) where
  entries : List (Entry V)
  large : Option (LargeMap V)

namespace HashMap

section

variable {V : Type}

def newHashMap : HashMap V := ⟨[], none⟩

/-- The loop of `find`, at index `i`. -/
def findFrom (hk : HashKey) : List (Entry V) → Nat → Nat × Bool
  | [], i => (i, false)
  | e :: es, i =>
    if e.hk = hk then (i, true)
    else if hk.less e.hk then (i, false)
    else findFrom hk es (i + 1)

/-- `find`: where the key is, or where it would be inserted. -/
def find (h : HashMap V) (hk : HashKey) : Nat × Bool := findFrom hk h.entries 0

def mapGet (m : List (Entry V)) (hk : HashKey) : Option (Entry V) :=
  m.find? fun e => e.hk == hk

def mapSet : List (Entry V) → Entry V → List (Entry V)
  | [], e => [e]
  | x :: m, e => if x.hk = e.hk then e :: m else x :: mapSet m e

def getByHashKey (h : HashMap V) (hk : HashKey) : Option (Option V) :=
  match h.large with
  | some l =>
    match l.root with
    | some root => root.get HamtNode.levels hk (hashOfKey hk) 0
    | none => some ((mapGet (l.m.getD []) hk).map Entry.v)
  | none =>
    match h.find hk with
    | (i, true) => (h.entries[i]?).map fun e => some e.v
    | (_, false) => some none

/-- `Get`; an unhashable key is not found. -/
def get (h : HashMap V) (key : Key) : Option (Option V) :=
  match toHashKey key with
  | .error _ => some none
  | .ok hk => h.getByHashKey hk

def len (h : HashMap V) : Int :=
  match h.large with
  | some l =>
    match l.root with
    | some _ => l.count
    | none => (l.m.getD []).length
  | none => h.entries.length

def addAll (acc : HamtNode V × Int) (es : List (Entry V)) : Option (HamtNode V × Int) :=
  es.foldlM (fun acc e => do
    let (next, b, _) ← acc.1.assoc HamtNode.levels e (hashOfKey e.hk) 0
    some (next, acc.2 + b)) acc

def newTrieFromEntries (entries : List (Entry V)) (extra : Entry V) : Option (HamtNode V × Int) :=
  addAll (HamtNode.empty, 0) (entries ++ [extra])

def sortedEntries (m : List (Entry V)) : List (Entry V) :=
  m.insertionSort fun a b => ¬ b.hk.less a.hk

def trieFromBuildMap (m : List (Entry V)) : Option (HamtNode V × Int) :=
  let entries := sortedEntries m
  addAll (HamtNode.empty, 24 + entries.length * 64) entries

/-- `trieRoot`: the trie of a large map, its count and the bytes of a conversion, with the
record that the receiver keeps. -/
def trieRoot (l : LargeMap V) : Option (HamtNode V × Int × Int × LargeMap V) :=
  match l.root with
  | some root => some (root, l.count, 0, l)
  | none =>
    match l.memo with
    | some memo => some (memo, (l.m.getD []).length, 0, l)
    | none => do
        let (root, bytes) ← trieFromBuildMap (l.m.getD [])
        some (root, (l.m.getD []).length, bytes, { l with memo := some root })

def newTrie (root : Option (HamtNode V)) (count : Int) : HashMap V :=
  ⟨[], some ⟨none, root, count, none⟩⟩

/-- What `Assoc` and `Dissoc` give: the receiver as it is left, the new map, the bytes. -/
structure Derived (V : Type) where
  receiver : HashMap V
  map : HashMap V
  bytes : Int

def assoc (h : HashMap V) (key : Key) (val : V) : Option (Except String (Derived V)) :=
  match toHashKey key with
  | .error err => some (.error err)
  | .ok hk =>
    let e : Entry V := ⟨hk, key, val⟩
    match h.large with
    | some l => do
        let (root, count, bytes, l') ← trieRoot l
        let (next, b, added) ← root.assoc HamtNode.levels e (hashOfKey hk) 0
        some (.ok ⟨⟨h.entries, some l'⟩,
          newTrie (some next) (if added then count + 1 else count), bytes + b⟩)
    | none =>
      match h.find hk with
      | (i, true) =>
        let entries := h.entries.set i e
        some (.ok ⟨h, ⟨entries, none⟩, hashMapShallowBytes entries.length⟩)
      | (i, false) =>
        if h.entries.length ≥ hashMapSmallLimit then do
          let (root, bytes) ← newTrieFromEntries h.entries e
          some (.ok ⟨h, newTrie (some root) (h.entries.length + 1), bytes⟩)
        else
          let entries := h.entries.take i ++ [e] ++ h.entries.drop i
          some (.ok ⟨h, ⟨entries, none⟩, hashMapShallowBytes entries.length⟩)

def dissoc (h : HashMap V) (key : Key) : Option (Except String (Derived V)) :=
  match toHashKey key with
  | .error err => some (.error err)
  | .ok hk =>
    match h.large with
    | some l => do
        let (root, count, bytes, l') ← trieRoot l
        let (next, b, removed) ← root.dissoc HamtNode.levels hk (hashOfKey hk) 0
        some (.ok ⟨⟨h.entries, some l'⟩,
          newTrie next (if removed then count - 1 else count), bytes + b⟩)
    | none =>
      let entries := h.entries.filter fun e => e.hk ≠ hk
      some (.ok ⟨h, ⟨entries, none⟩, hashMapShallowBytes entries.length⟩)

/-- `Set`: the receiver as it is left. Writing to the nil map panics. -/
def set (h : HashMap V) (key : Key) (val : V) : Option (Except String (HashMap V)) :=
  match toHashKey key with
  | .error err => some (.error err)
  | .ok hk =>
    let e : Entry V := ⟨hk, key, val⟩
    match h.large with
    | some l =>
      let l := { l with memo := none }
      match l.root with
      | some root => do
          let (root, _, added) ← root.assoc HamtNode.levels e (hashOfKey hk) 0
          some (.ok ⟨h.entries, some { l with
            root := some root, count := if added then l.count + 1 else l.count }⟩)
      | none => do
          let m ← l.m
          some (.ok ⟨h.entries, some { l with m := some (mapSet m e) }⟩)
    | none =>
      match h.find hk with
      | (i, true) => some (.ok ⟨h.entries.set i e, none⟩)
      | (i, false) =>
        if h.entries.length ≥ hashMapSmallLimit then
          let m := mapSet (h.entries.foldl mapSet []) e
          some (.ok ⟨[], some ⟨some m, none, 0, none⟩⟩)
        else
          some (.ok ⟨h.entries.take i ++ [e] ++ h.entries.drop i, none⟩)

end

end HashMap

end Core

end Lispico
