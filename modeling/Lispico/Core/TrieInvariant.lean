import Lispico.Core.HashMapListing

/-!
# The invariant of the trie

A node stands below the root at a path of slots. The entries of a subtree are those of the trie
whose hash follows the path, so that a node that stands for a finite map has the invariant of
the trie, and the tries that are built, extended and reduced all do.
-/

namespace Lispico

namespace Core

open Lib

namespace HamtNode

section

variable {V : Type}

/-- The node that a path of slots leads to. -/
def descend : HamtNode V → List Nat → Option (HamtNode V)
  | n, [] => some n
  | n, i :: p =>
    if n.nodeMap.getLsbD i then (n.children[Sparse.index n.nodeMap i]?).bind fun c => c.descend p
    else none

/-- The slots of a hash, from a level on. -/
def hashPath (h : BitVec 32) : Nat → Nat → List Nat
  | _, 0 => []
  | shift, k + 1 => slot h shift :: hashPath h (shift + vecBits) k

def keys (n : HamtNode V) : Set HashKey := {hk | ∃ e ∈ n.each, e.hk = hk}

structure Invariant (root : HamtNode V) : Prop where
  path : ∀ p n, root.descend p = some n → ∀ e ∈ n.entries,
    p = hashPath (hashOfKey e.hk) 0 p.length
  children : ∀ p n, root.descend p = some n → n.children.length = onesCount32 n.nodeMap
  entries : ∀ p n, root.descend p = some n → n.isCollision = false →
    n.entries.length = onesCount32 n.dataMap ∧ n.dataMap &&& n.nodeMap = 0#32 ∧
      ∀ i e, n.dataMap.getLsbD i = true → n.entries[Sparse.index n.dataMap i]? = some e →
        slot (hashOfKey e.hk) (vecBits * p.length) = i
  distinct : Keyed.Distinct Entry.hk root.each
  shared : ∀ p n q m, root.descend p = some n → root.descend q = some m → ∀ e ∈ n.entries,
    ∀ e' ∈ m.entries, hashOfKey e'.hk = hashOfKey e.hk → e' ≠ e → q = p ∧ n.isCollision = true
  inhabited : ∀ p n, p ≠ [] → root.descend p = some n → n.each ≠ []

/-- The tries that the code makes: from the entries of a small map, and from one another. -/
inductive Reachable : HamtNode V → Prop where
  | empty : Reachable empty
  | built {entries : List (Entry V)} {extra : Entry V} {n : HamtNode V} {bytes : Int}
      (h : HashMap.newTrieFromEntries entries extra = some (n, bytes)) : Reachable n
  | assoc {n n' : HamtNode V} {e : Entry V} {bytes : Int} {added : Bool} (hn : Reachable n)
      (h : n.assoc levels e (hashOfKey e.hk) 0 = some (n', bytes, added)) : Reachable n'
  | dissoc {n n' : HamtNode V} {hk : HashKey} {bytes : Int} {removed : Bool} (hn : Reachable n)
      (h : n.dissoc levels hk (hashOfKey hk) 0 = some (some n', bytes, removed)) : Reachable n'

variable {n m : HamtNode V} {f : Bindings V} {lvl shift : Nat}
  {R : HamtNode V → Bindings V → Prop} {s : Nat → Slot V}

section

variable (h : BranchRep R shift n f s) {e : Entry V}

include h

theorem BranchRep.child_at {i : Nat} {c : HamtNode V}
    (hi : n.nodeMap.getLsbD i = true) (hc : n.children[Sparse.index n.nodeMap i]? = some c) :
    ∃ g, s i = .child c g := by
  have hlt := BitVec.lt_of_getLsbD hi
  rw [h.node.bits i hlt] at hi
  rw [h.node.getElem? hlt hi] at hc
  cases hs : s i with
  | child n' g =>
    rw [hs] at hc
    cases hc
    exact ⟨g, rfl⟩
  | _ => simp [hs, Slot.child?] at hi

theorem BranchRep.data_at {i : Nat}
    (hi : n.dataMap.getLsbD i = true) (he : n.entries[Sparse.index n.dataMap i]? = some e) :
    s i = .data e := by
  have hlt := BitVec.lt_of_getLsbD hi
  rw [h.data.bits i hlt] at hi
  rw [h.data.getElem? hlt hi] at he
  cases hs : s i with
  | data x =>
    rw [hs] at he
    cases he
    rfl
  | _ => simp [hs, Slot.entryOf] at hi

omit h in
/-- A node below stands for the entries whose hash follows the path to it. -/
theorem NodeRep.descend (h : NodeRep lvl shift n f) {p : List Nat} (hp : n.descend p = some m) :
    ∃ lvl' g, lvl' + p.length = lvl ∧ NodeRep lvl' (shift + vecBits * p.length) m g ∧
      (p ≠ [] ∨ Live f → Live g) ∧ ∀ hk e, g hk = some e ↔
        f hk = some e ∧ p = hashPath (hashOfKey hk) shift p.length := by
  induction p generalizing lvl shift n f with
  | nil =>
    cases hp
    exact ⟨lvl, f, rfl, h, by simp, by simp [hashPath]⟩
  | cons i p ih =>
    rw [HamtNode.descend] at hp
    split at hp
    case isFalse => cases hp
    rename_i hi
    obtain ⟨c, hc, hp⟩ := Option.bind_eq_some_iff.1 hp
    cases lvl with
    | zero => exact h.elim
    | succ lvl =>
      unfold NodeRep at h
      split at h
      · rw [h.kids] at hc
        cases hc
      obtain ⟨s, hs⟩ := h
      obtain ⟨gc, hslot⟩ := hs.child_at hi hc
      obtain ⟨hrep, hlive⟩ := hs.kids i c gc hslot
      obtain ⟨lvl', g, hlen, hrep', hlive', hsem⟩ := ih hrep hp
      have hgc (hk : HashKey) (e : Entry V) :
          gc hk = some e ↔ f hk = some e ∧ i = slot (hashOfKey hk) shift := by
        constructor
        · intro he
          have hhome := hs.home i hk e (by rw [hslot]; exact he)
          exact ⟨by rw [hs.sem, hhome, hslot]; exact he, hhome.symm⟩
        · rintro ⟨he, hi⟩
          rwa [hs.sem, ← hi, hslot] at he
      refine ⟨lvl', g, by rw [List.length_cons]; omega, ?_, fun _ => hlive' (.inr hlive), ?_⟩
      · rw [List.length_cons, Nat.mul_succ, Nat.add_comm (vecBits * _), ← Nat.add_assoc]
        exact hrep'
      · intro hk e
        rw [hsem, hgc, List.length_cons, hashPath, List.cons.injEq, and_assoc]

omit h in
theorem NodeRep.mem_entries (h : NodeRep lvl shift n f) (he : e ∈ n.entries) :
    f e.hk = some e := by
  refine h.lists.mem_iff.1 ?_
  rw [each_eq]
  exact List.mem_append_left _ he

/-- In a branch node the slot of an entry has no other entry. -/
theorem BranchRep.alone {e e' : Entry V} (he : e ∈ n.entries)
    (he' : f e'.hk = some e') (hhash : hashOfKey e'.hk = hashOfKey e.hk) : e' = e := by
  rw [h.data.list, List.mem_filterMap] at he
  obtain ⟨i, -, hi⟩ := he
  cases hs : s i with
  | data x =>
    rw [hs] at hi
    cases hi
    have hhome := h.home i e.hk e (by rw [hs]; exact if_pos rfl)
    rw [h.sem, hhash, hhome, hs] at he'
    simp only [Slot.find] at he'
    split at he'
    · exact (Option.some.inj he').symm
    · cases he'
  | _ => simp [hs, Slot.entryOf] at hi

omit h in
theorem NodeRep.branch_or_collision (h : NodeRep lvl shift n f) :
    (shift ≥ 32 ∧ CollisionRep n f) ∨ ∃ R s, BranchRep R shift n f s := by
  cases lvl with
  | zero => exact h.elim
  | succ lvl =>
    unfold NodeRep at h
    split at h
    · exact .inl ⟨‹_›, h⟩
    · exact .inr ⟨_, h⟩

theorem BranchRep.dataMap_and_nodeMap : n.dataMap &&& n.nodeMap = 0#32 := by
  rw [BitVec.eq_of_getLsbD_eq_iff]
  intro i hi
  rw [BitVec.getLsbD_and, h.data.bits i hi, h.node.bits i hi]
  cases s i <;> simp [Slot.entryOf, Slot.child?]

end

theorem NodeRep.shared (h : NodeRep levels 0 n f) {p q : List Nat} {a b : HamtNode V}
    (hp : n.descend p = some a) (hq : n.descend q = some b) {e e' : Entry V} (he : e ∈ a.entries)
    (he' : e' ∈ b.entries) (hhash : hashOfKey e'.hk = hashOfKey e.hk) (hne : e' ≠ e) :
    q = p ∧ a.isCollision = true := by
  obtain ⟨la, ga, hla, hra, -, hga⟩ := h.descend hp
  obtain ⟨lb, gb, hlb, hrb, -, hgb⟩ := h.descend hq
  obtain ⟨hfe, hpath⟩ := (hga _ _).1 (hra.mem_entries he)
  obtain ⟨hfe', hpath'⟩ := (hgb _ _).1 (hrb.mem_entries he')
  rcases hra.branch_or_collision with ⟨hdeep, hca⟩ | ⟨R, s, hs⟩
  · rcases hrb.branch_or_collision with ⟨hdeep', -⟩ | ⟨R, s, hs⟩
    · -- the collision nodes stand on the last level
      have hlen : q.length = p.length := by
        simp only [levels, vecBits] at hla hlb hdeep hdeep'
        have hpos : 0 < la := Nat.pos_of_ne_zero fun hz => by subst hz; exact hra
        have hpos' : 0 < lb := Nat.pos_of_ne_zero fun hz => by subst hz; exact hrb
        omega
      rw [hlen, hhash, ← hpath] at hpath'
      exact ⟨hpath', hca.isCollision⟩
    · refine absurd (hs.alone he' ((hgb e.hk e).2 ⟨hfe, ?_⟩) hhash.symm) (Ne.symm hne)
      rwa [← hhash]
  · refine absurd (hs.alone he ((hga e'.hk e').2 ⟨hfe', ?_⟩) hhash) hne
    rwa [hhash]

theorem NodeRep.invariant (h : NodeRep levels 0 n f) : n.Invariant where
  path p m hp e he := by
    obtain ⟨_, g, -, hrep, -, hg⟩ := h.descend hp
    exact ((hg _ _).1 (hrep.mem_entries he)).2
  children p m hp := by
    obtain ⟨_, g, -, hrep, -⟩ := h.descend hp
    rcases hrep.branch_or_collision with ⟨-, hc⟩ | ⟨R, s, hs⟩
    · rw [hc.kids, hc.node]
      exact (by decide : 0 = onesCount32 0#32)
    · exact hs.node.length
  entries p m hp hm := by
    obtain ⟨_, g, -, hrep, -⟩ := h.descend hp
    rw [Nat.zero_add] at hrep
    rcases hrep.branch_or_collision with ⟨-, hc⟩ | ⟨R, s, hs⟩
    · rw [hc.isCollision] at hm
      cases hm
    · refine ⟨hs.data.length, hs.dataMap_and_nodeMap, fun i e hi he => hs.home i e.hk e ?_⟩
      rw [hs.data_at hi he]
      exact if_pos rfl
  distinct := h.lists.1
  shared p m q m' hp hq e he e' he' := h.shared hp hq he he'
  inhabited p m hne hp := by
    obtain ⟨_, g, -, hrep, hlive, -⟩ := h.descend hp
    obtain ⟨hk, e, he⟩ := hlive (.inl hne)
    rw [← hrep.lists.2, Keyed.lookup_eq_some_iff hrep.lists.1] at he
    exact List.ne_nil_of_mem he.1

theorem NodeRep.keys_eq (h : NodeRep lvl shift n f) : n.keys = {hk | (f hk).isSome} := by
  ext hk
  simp only [keys, Set.mem_ofPred_eq, Option.isSome_iff_exists, ← h.lists.2,
    Keyed.lookup_eq_some_iff h.lists.1]

theorem update_keys_ne_iff (f : Bindings V) (k : HashKey) (v : Option (Entry V)) :
    {hk | (Function.update f k v hk).isSome} ≠ {hk | (f hk).isSome} ↔
      v.isSome ≠ (f k).isSome := by
  rw [not_iff_not, Set.ext_iff]
  constructor
  · intro h
    have hk := h k
    rwa [Set.mem_ofPred_eq, Set.mem_ofPred_eq, Function.update_self, Bool.eq_iff_iff.symm] at hk
  · intro h hk
    by_cases hkk : hk = k
    · rw [hkk, Set.mem_ofPred_eq, Set.mem_ofPred_eq, Function.update_self, h]
    · rw [Set.mem_ofPred_eq, Set.mem_ofPred_eq, Function.update_of_ne hkk]

theorem Reachable.nodeRep (h : Reachable n) : ∃ f, NodeRep levels 0 n f := by
  induction h with
  | empty => exact ⟨_, nodeRep_empty⟩
  | built h =>
    obtain ⟨root, bytes, hrun, hrep⟩ := HashMap.addAll_spec _ nodeRep_empty 0
    rw [HashMap.newTrieFromEntries, hrun] at h
    cases h
    exact ⟨_, hrep⟩
  | @assoc n n' e _ _ _ h ih =>
    obtain ⟨f, hf⟩ := ih
    obtain ⟨next, bytes, hrun, hrep⟩ := NodeRep.assoc hf (by decide) e
    cases hrun.symm.trans h
    exact ⟨_, hrep⟩
  | @dissoc n n' hk _ _ _ h ih =>
    obtain ⟨f, hf⟩ := ih
    obtain ⟨next, bytes, hrun, hrep⟩ := hf.dissoc hk
    cases hrun.symm.trans h
    exact ⟨_, hrep.1⟩

theorem reachable_trie (h : Reachable n) : n.Invariant ∧ (∀ e : Entry V, ∃ n' bytes added,
      n.assoc levels e (hashOfKey e.hk) 0 = some (n', bytes, added) ∧
        (added = true ↔ n'.keys ≠ n.keys)) ∧
    ∀ hk, ∃ r bytes removed, n.dissoc levels hk (hashOfKey hk) 0 = some (r, bytes, removed) ∧
      (removed = true ↔ r.elim ∅ keys ≠ n.keys) := by
  obtain ⟨f, hf⟩ := h.nodeRep
  refine ⟨hf.invariant, fun e => ?_, fun hk => ?_⟩
  · obtain ⟨n', bytes, hrun, hrep⟩ := NodeRep.assoc hf (by decide) e
    refine ⟨n', bytes, _, hrun, ?_⟩
    rw [hrep.keys_eq, hf.keys_eq, update_keys_ne_iff]
    cases f e.hk <;> simp
  · obtain ⟨r, bytes, hrun, hrep⟩ := hf.dissoc hk
    refine ⟨r, bytes, _, hrun, ?_⟩
    have hkeys : r.elim ∅ keys = {k | (Function.update f hk none k).isSome} := by
      cases r with
      | none =>
        rw [show Function.update f hk none = fun _ => none from hrep]
        simp
      | some n' => exact hrep.1.keys_eq
    rw [hkeys, hf.keys_eq, update_keys_ne_iff]
    cases f hk <;> simp

def intEntry (v : Int64) : Entry Unit := ⟨⟨.hkInt, v.toUInt64, ""⟩, .int v, ()⟩

theorem reachable_trie_built : ∃ n bytes,
    HashMap.newTrieFromEntries [intEntry 0] (intEntry 32) = some (n, bytes) ∧ n.Invariant := by
  obtain ⟨n, bytes, hrun, -⟩ := HashMap.addAll_spec ([intEntry 0] ++ [intEntry 32])
    nodeRep_empty 0
  have hbuilt : HashMap.newTrieFromEntries [intEntry 0] (intEntry 32) = some (n, bytes) := hrun
  exact ⟨n, bytes, hbuilt, (reachable_trie (.built hbuilt)).1⟩

/-- The two keys share their first slot, and the node below it keeps one entry. -/
theorem dissoc_keeps_single : ∃ n bytes n' bytes' c,
    HashMap.newTrieFromEntries [intEntry 0] (intEntry 32) = some (n, bytes) ∧
    n.dissoc levels (intEntry 32).hk (hashOfKey (intEntry 32).hk) 0 =
      some (some n', bytes', true) ∧
    n'.descend [24] = some c ∧ c.entries.length = 1 ∧ c.children.length = 0 := by
  have hrun : ((HashMap.newTrieFromEntries [intEntry 0] (intEntry 32)).bind fun b =>
      (b.1.dissoc levels (intEntry 32).hk (hashOfKey (intEntry 32).hk) 0).bind fun d =>
      d.1.bind fun n' => (n'.descend [24]).bind fun c =>
      some (d.2.2, c.entries.length, c.children.length)) = some (true, 1, 0) := by
    decide +kernel
  obtain ⟨⟨n, bytes⟩, hbuilt, hrun⟩ := Option.bind_eq_some_iff.1 hrun
  obtain ⟨⟨r, bytes', removed⟩, hdissoc, hrun⟩ := Option.bind_eq_some_iff.1 hrun
  obtain ⟨n', rfl, hrun⟩ := Option.bind_eq_some_iff.1 hrun
  obtain ⟨c, hc, hrun⟩ := Option.bind_eq_some_iff.1 hrun
  obtain ⟨rfl, hentries, hchildren⟩ : removed = true ∧ c.entries.length = 1 ∧
      c.children.length = 0 := by simpa using hrun
  exact ⟨n, bytes, n', bytes', c, hbuilt, hdissoc, hc, hentries, hchildren⟩

end

end HamtNode

end Core

end Lispico
