import Lispico.Core.Hamt
import Lispico.Lib.Keyed

/-!
# The trie stands for a finite map

`NodeRep lvl shift n f` says that the node holds for each key the entry that `f` gives, a branch
node slot by slot. `get` reads `f`, `assoc` updates it at one key and `dissoc` clears it.
-/

namespace Lispico

namespace Core

open Lib Function Option Keyed

namespace HamtNode

section

variable {V : Type} (e : Entry V)

abbrev Bindings (V : Type) := HashKey → Option (Entry V)

inductive Slot (V : Type) where
  | empty
  | data (e : Entry V)
  | child (n : HamtNode V) (g : Bindings V)

namespace Slot

def entryOf : Slot V → Option (Entry V)
  | data e => some e
  | _ => none

def child? : Slot V → Option (HamtNode V)
  | child n _ => some n
  | _ => none

def find : Slot V → Bindings V
  | empty, _ => none
  | data e, hk => if e.hk = hk then some e else none
  | child _ g, hk => g hk

end Slot

theorem Slot.find_data : (Slot.data e).find = Function.update (fun _ => none) e.hk (some e) := by
  funext hk
  by_cases hk' : hk = e.hk
  · simp [hk', Slot.find]
  · simp [hk', Ne.symm hk', Slot.find]

theorem Slot.home_data (shift : Nat) (hk : HashKey) (x : Entry V)
    (hx : (Slot.data e).find hk = some x) :
    slot (hashOfKey hk) shift = slot (hashOfKey e.hk) shift := by
  simp only [Slot.find] at hx
  split at hx
  · rename_i hkey
    rw [hkey]
  · cases hx

structure BranchRep (R : HamtNode V → Bindings V → Prop) (shift : Nat) (n : HamtNode V)
    (f : Bindings V) (s : Nat → Slot V) : Prop where
  data : Sparse.Compacts n.dataMap n.entries fun i => (s i).entryOf
  node : Sparse.Compacts n.nodeMap n.children fun i => (s i).child?
  kids : ∀ i n' g, s i = .child n' g → R n' g
  home : ∀ i hk e, (s i).find hk = some e → slot (hashOfKey hk) shift = i
  sem : ∀ hk, f hk = (s (slot (hashOfKey hk) shift)).find hk

structure CollisionRep (n : HamtNode V) (f : Bindings V) : Prop where
  data : n.dataMap = 0#32
  node : n.nodeMap = 0#32
  kids : n.children = []
  nonempty : n.entries ≠ []
  distinct : Keyed.Distinct Entry.hk n.entries
  sem : f = Keyed.lookup Entry.hk n.entries

def Live (f : Bindings V) : Prop := ∃ hk e, f hk = some e

/-- The node holds these entries, and a child some entry. Below the last hash bit stand the
collision nodes. -/
def NodeRep : Nat → Nat → HamtNode V → Bindings V → Prop
  | 0, _, _, _ => False
  | lvl + 1, shift, n, f =>
    if shift ≥ 32 then CollisionRep n f
    else ∃ s, BranchRep (fun n g => NodeRep lvl (shift + vecBits) n g ∧ Live g) shift n f s

theorem slot_lt (h : BitVec 32) (shift : Nat) : slot h shift < 32 := by
  have hmask : slot h shift = (h >>> shift).toNat &&& 31 := by
    simp [slot, vecBranch, vecBits]
  rw [hmask]
  exact Nat.lt_of_le_of_lt Nat.and_le_right (by decide)

variable {n : HamtNode V} {f : Bindings V}

theorem CollisionRep.isCollision (h : CollisionRep n f) : n.isCollision = true := by
  simp [HamtNode.isCollision, h.data, h.node, h.nonempty]

variable {R : HamtNode V → Bindings V → Prop} {shift : Nat} {s : Nat → Slot V} {out : HamtNode V}

theorem BranchRep.isCollision (h : BranchRep R shift n f s) : n.isCollision = false := by
  by_cases hzero : n.dataMap = 0#32
  · have hnil : n.entries = [] := by
      rw [h.data.list, List.filterMap_eq_nil_iff]
      exact fun i hi => h.data.eq_zero_iff.1 hzero i (List.mem_range.1 hi)
    simp [HamtNode.isCollision, hnil]
  · simp [HamtNode.isCollision, hzero]

theorem branchRep_empty (R : HamtNode V → Bindings V → Prop) (shift : Nat) :
    BranchRep R shift (HamtNode.mk 0#32 0#32 [] []) (fun _ => none) fun _ => .empty :=
  ⟨.empty 32, .empty 32, by simp, nofun, fun _ => rfl⟩

theorem nodeRep_empty : NodeRep levels 0 (empty : HamtNode V) fun _ => none :=
  ⟨_, branchRep_empty _ 0⟩

theorem BranchRep.update (h : BranchRep R shift n f s) (i : Nat) (x : Slot V)
    (hdata : Sparse.Compacts out.dataMap out.entries (Function.update (fun j => (s j).entryOf) i
      x.entryOf))
    (hnode : Sparse.Compacts out.nodeMap out.children (Function.update (fun j => (s j).child?) i
      x.child?))
    (hkid : ∀ n' g, x = .child n' g → R n' g)
    (hhome : ∀ hk e, x.find hk = some e → slot (hashOfKey hk) shift = i) {f' : Bindings V}
    (hsem : ∀ hk, f' hk = if slot (hashOfKey hk) shift = i then x.find hk else f hk) :
    BranchRep R shift out f' (Function.update s i x) := by
  constructor
  · change Sparse.Compacts _ _ (Slot.entryOf ∘ Function.update s i x)
    rw [Function.comp_update]
    exact hdata
  · change Sparse.Compacts _ _ (Slot.child? ∘ Function.update s i x)
    rw [Function.comp_update]
    exact hnode
  · intro j n' g hj
    by_cases hji : j = i
    · subst hji
      rw [update_self] at hj
      exact hkid n' g hj
    · rw [Function.update_of_ne hji] at hj
      exact h.kids j n' g hj
  · intro j hk e hj
    by_cases hji : j = i
    · subst hji
      rw [update_self] at hj
      exact hhome hk e hj
    · rw [Function.update_of_ne hji] at hj
      exact h.home j hk e hj
  · intro hk
    rw [hsem, h.sem, update_apply]
    split <;> rfl

theorem BranchRep.slot_cases (h : BranchRep R shift n f s) (hash : BitVec 32) :
    (s (slot hash shift) = .empty ∧ ¬ n.dataMap &&& bitOf hash shift ≠ 0#32 ∧
      ¬ n.nodeMap &&& bitOf hash shift ≠ 0#32) ∨
    (∃ e, s (slot hash shift) = .data e ∧ n.dataMap &&& bitOf hash shift ≠ 0#32 ∧
      n.entries[onesCount32 (n.dataMap &&& (bitOf hash shift - 1#32))]? = some e) ∨
    (∃ n' g, s (slot hash shift) = .child n' g ∧ ¬ n.dataMap &&& bitOf hash shift ≠ 0#32 ∧
      n.nodeMap &&& bitOf hash shift ≠ 0#32 ∧
      n.children[onesCount32 (n.nodeMap &&& (bitOf hash shift - 1#32))]? = some n' ∧
      R n' g) := by
  have hlt := slot_lt hash shift
  have hdata : n.dataMap &&& bitOf hash shift ≠ 0#32 ↔ _ := h.data.isSome_iff hlt
  have hnode : n.nodeMap &&& bitOf hash shift ≠ 0#32 ↔ _ := h.node.isSome_iff hlt
  cases hs : s (slot hash shift) with
  | empty =>
    rw [hs] at hdata hnode
    refine Or.inl ⟨rfl, ?_, ?_⟩
    · rw [hdata]
      simp [Slot.entryOf]
    · rw [hnode]
      simp [Slot.child?]
  | data e =>
    rw [hs] at hdata
    have hget := h.data.getElem? hlt (by simp [hs, Slot.entryOf])
    simp only [hs, Slot.entryOf] at hget
    exact Or.inr (Or.inl ⟨e, rfl, hdata.2 rfl, hget⟩)
  | child n' g =>
    rw [hs] at hdata hnode
    have hget := h.node.getElem? hlt (by simp [hs, Slot.child?])
    simp only [hs, Slot.child?] at hget
    refine Or.inr (Or.inr ⟨n', g, rfl, ?_, hnode.2 rfl, hget, h.kids _ n' g hs⟩)
    rw [hdata]
    simp [Slot.entryOf]

variable {lvl : Nat}

theorem NodeRep.of_branch (hshift : ¬ shift ≥ 32)
    (h : ∃ s, BranchRep (fun n g => NodeRep lvl (shift + vecBits) n g ∧ Live g) shift n f s) :
    NodeRep (lvl + 1) shift n f := by
  rw [NodeRep, if_neg hshift]
  exact h

theorem NodeRep.get (h : NodeRep lvl shift n f) (hk : HashKey) :
    get lvl n hk (hashOfKey hk) shift = some ((f hk).map Entry.v) := by
  induction lvl generalizing shift n f with
  | zero => exact h.elim
  | succ lvl ih =>
    unfold NodeRep at h
    split at h
    · simp [HamtNode.get, h.isCollision, h.sem, Keyed.lookup]
    · obtain ⟨s, hs⟩ := h
      simp only [HamtNode.get, hs.isCollision, Bool.false_eq_true, if_false, hs.sem hk]
      rcases hs.slot_cases (hashOfKey hk) with ⟨hslot, hd, hn⟩ | ⟨e, hslot, hd, he⟩ |
        ⟨n', g, hslot, hd, hn, hc, hrep⟩
      · rw [if_neg hd, if_neg hn, hslot]
        rfl
      · rw [if_pos hd, he, hslot]
        simp only [Slot.find, bind_eq_bind, bind_some]
        split <;> rfl
      · rw [if_neg hd, if_pos hn, hc, hslot]
        exact ih hrep.1

theorem CollisionRep.assoc (h : CollisionRep n f) (lvl : Nat) (e : Entry V) (hash : BitVec 32)
    (shift : Nat) :
    ∃ n' bytes, assoc (lvl + 1) n e hash shift = some (n', bytes, (f e.hk).isNone) ∧
      CollisionRep n' (Function.update f e.hk (some e)) := by
  simp only [HamtNode.assoc, h.isCollision, if_true]
  cases hidx : n.entries.findIdx? fun x => x.hk == e.hk with
  | some i =>
    obtain ⟨y, hy, hkey⟩ := findIdx?_some hidx
    obtain ⟨hdis, hlook⟩ := Keyed.replace h.distinct (perm_take_drop hy) hkey
      (perm_set hy e)
    have hf : (f e.hk).isNone = false := by
      rw [h.sem, (lookup_eq_some_iff h.distinct).2 ⟨List.mem_of_getElem? hy, hkey⟩]
      rfl
    refine ⟨HamtNode.mk 0#32 0#32 (n.entries.set i e) [], _, by rw [hf], rfl, rfl, rfl, ?_,
      hdis, ?_⟩
    · simpa [entries] using h.nonempty
    · rw [h.sem]
      exact hlook.symm
  | none =>
    have hnew := findIdx?_none hidx
    obtain ⟨hdis, hlook⟩ := insert_anywhere h.distinct hnew
      (List.perm_append_singleton e n.entries).symm
    have hf : (f e.hk).isNone = true := by
      rw [h.sem, Keyed.lookup_eq_none_iff.2 hnew]
      rfl
    refine ⟨HamtNode.mk 0#32 0#32 (n.entries ++ [e]) [], _, by rw [hf], rfl, rfl, rfl, ?_,
      hdis, ?_⟩
    · simp [entries]
    · rw [h.sem]
      exact hlook.symm

/-- What is left of a node, which has an entry if one was removed. -/
def Removed (R : HamtNode V → Bindings V → Prop) (removed : Bool) (r : Option (HamtNode V))
    (f : Bindings V) : Prop :=
  match r with
  | some n => R n f ∧ (removed = true → Live f)
  | none => f = fun _ => none

theorem Removed.some {R : HamtNode V → Bindings V → Prop} {removed : Bool} (h : R n f)
    (hlive : removed = true → Live f) : Removed R removed (some n) f := ⟨h, hlive⟩

theorem CollisionRep.live (h : CollisionRep n f) : Live f := by
  obtain ⟨e, es, hcons⟩ := List.exists_cons_of_ne_nil h.nonempty
  refine ⟨e.hk, e, ?_⟩
  rw [h.sem, lookup_eq_some_iff h.distinct, hcons]
  exact ⟨List.mem_cons_self, rfl⟩

theorem CollisionRep.dissoc (h : CollisionRep n f) (lvl : Nat) (hk : HashKey) (hash : BitVec 32)
    (shift : Nat) :
    ∃ r bytes, dissoc (lvl + 1) n hk hash shift = some (r, bytes, (f hk).isSome) ∧
      Removed CollisionRep (f hk).isSome r (Function.update f hk none) := by
  simp only [HamtNode.dissoc, h.isCollision, if_true]
  cases hidx : n.entries.findIdx? fun x => x.hk == hk with
  | some i =>
    obtain ⟨y, hy, rfl⟩ := findIdx?_some hidx
    obtain ⟨hdis, hlook⟩ := Keyed.remove h.distinct (perm_take_drop hy)
    have hf : (f y.hk).isSome = true := by
      rw [h.sem, (lookup_eq_some_iff h.distinct).2 ⟨List.mem_of_getElem? hy, rfl⟩]
      rfl
    obtain ⟨hi, -⟩ := List.getElem?_eq_some_iff.1 hy
    by_cases hone : n.entries.length = 1
    · refine ⟨none, 0, by simp [hone, hf], ?_⟩
      have hnil : n.entries.take i ++ n.entries.drop (i + 1) = [] :=
        List.eq_nil_of_length_eq_zero (by simp; omega)
      rw [Removed, h.sem, ← hlook, hnil]
      rfl
    · refine ⟨some (HamtNode.mk 0#32 0#32 (n.entries.take i ++ n.entries.drop (i + 1)) []), _,
        by simp only [hone, if_false, hf]; rfl, ?_⟩
      have hrep : CollisionRep (HamtNode.mk 0#32 0#32 (n.entries.take i ++
          n.entries.drop (i + 1)) []) (Function.update f y.hk none) := by
        refine ⟨rfl, rfl, rfl, fun hnil => ?_, hdis, by rw [h.sem]; exact hlook.symm⟩
        have hlen : (n.entries.take i ++ n.entries.drop (i + 1)).length = 0 :=
          congrArg List.length hnil
        rw [List.length_append, List.length_take, List.length_drop] at hlen
        omega
      exact ⟨hrep, fun _ => hrep.live⟩
  | none =>
    have hf : f hk = none := by
      rw [h.sem, Keyed.lookup_eq_none_iff.2 (findIdx?_none hidx)]
    refine ⟨some n, 0, by simp [hf], ?_⟩
    rw [Function.update_eq_self_iff.2 hf.symm]
    exact ⟨h, fun _ => h.live⟩

theorem lookup_pair (a b : Entry V) (hk : HashKey) : Keyed.lookup Entry.hk [a, b] hk =
      if a.hk = hk then some a else if b.hk = hk then some b else none := by
  simp only [Keyed.lookup, List.find?_cons, List.find?_nil]
  split
  · rename_i h
    simp only [beq_iff_eq] at h
    simp [h]
  · rename_i h
    simp only [beq_eq_false_iff_ne] at h
    simp only [h, if_false]
    split <;> simp_all

variable {a b : Entry V}

theorem lookup_pair_update (hne : a.hk ≠ b.hk) : Keyed.lookup Entry.hk [a, b] =
      Function.update (Function.update (fun _ => none) a.hk (some a)) b.hk (some b) := by
  rw [update_comm hne, lookup_cons, lookup_cons]
  rfl

theorem branchRep_merge_same {child : HamtNode V}
    (hslot : slot (hashOfKey a.hk) shift = slot (hashOfKey b.hk) shift)
    (hchild : R child (Keyed.lookup Entry.hk [a, b])) :
    ∃ s, BranchRep R shift (HamtNode.mk 0#32 (1#32 <<< slot (hashOfKey a.hk) shift) [] [child])
      (Keyed.lookup Entry.hk [a, b]) s := by
  have hlt := slot_lt (hashOfKey a.hk) shift
  have hins := (Sparse.Compacts.empty 32).insert hlt rfl child
  refine ⟨_, (branchRep_empty R shift).update (slot (hashOfKey a.hk) shift)
    (.child child (Keyed.lookup Entry.hk [a, b])) ?_ ?_ ?_ ?_ ?_⟩
  · simpa [Slot.entryOf, dataMap, entries] using Sparse.Compacts.empty 32
  · simpa [Slot.child?, nodeMap, children, Sparse.bit] using hins
  · rintro n' g hx
    cases hx
    exact hchild
  · intro hk e he
    simp only [Slot.find, lookup_pair] at he
    split at he
    · rename_i hkey
      rw [← hkey]
    split at he
    · rename_i hkey
      rw [← hkey, hslot]
    · cases he
  · intro hk
    simp only [Slot.find]
    split
    · rfl
    · rename_i hne
      rw [lookup_pair, if_neg, if_neg]
      · rintro rfl
        exact hne hslot.symm
      · rintro rfl
        exact hne rfl

theorem branchRep_merge_apart (hslot : slot (hashOfKey a.hk) shift ≠ slot (hashOfKey b.hk)
    shift) :
    ∃ s, BranchRep R shift (HamtNode.mk
        (1#32 <<< slot (hashOfKey a.hk) shift ||| 1#32 <<< slot (hashOfKey b.hk) shift) 0#32
        (if slot (hashOfKey a.hk) shift < slot (hashOfKey b.hk) shift then [a, b] else [b, a])
        [])
      (Keyed.lookup Entry.hk [a, b]) s := by
  have hlta := slot_lt (hashOfKey a.hk) shift
  have hltb := slot_lt (hashOfKey b.hk) shift
  have hone : BranchRep R shift
      (HamtNode.mk (Sparse.bit 32 (slot (hashOfKey a.hk) shift)) 0#32 [a] [])
      (fun hk => if a.hk = hk then some a else none)
      (Function.update (fun _ => .empty) (slot (hashOfKey a.hk) shift) (.data a)) := by
    refine (branchRep_empty R shift).update (slot (hashOfKey a.hk) shift) (.data a) ?_ ?_ ?_
      (Slot.home_data a shift) ?_
    · simpa [Slot.entryOf, dataMap, entries] using (Sparse.Compacts.empty 32).insert hlta rfl a
    · simpa [Slot.child?, nodeMap, children] using Sparse.Compacts.empty 32
    · simp
    · intro hk
      by_cases hkey : a.hk = hk
      · simp [hkey, Slot.find]
      · simp [hkey, Slot.find]
  have hins := hone.data.insert hltb (by simp [hslot.symm, Slot.entryOf]) b
  refine ⟨_, hone.update (slot (hashOfKey b.hk) shift) (.data b) ?_ ?_ ?_
    (Slot.home_data b shift) ?_⟩
  · have hentries : (if slot (hashOfKey a.hk) shift < slot (hashOfKey b.hk) shift
        then [a, b] else [b, a]) =
        [a].take (Sparse.index (Sparse.bit 32 (slot (hashOfKey a.hk) shift))
          (slot (hashOfKey b.hk) shift)) ++ [b] ++
        [a].drop (Sparse.index (Sparse.bit 32 (slot (hashOfKey a.hk) shift))
          (slot (hashOfKey b.hk) shift)) := by
      rw [Sparse.Compacts.index_bit hlta hltb]
      split <;> rfl
    rw [hentries]
    exact hins
  · rw [Function.update_eq_self_iff.2]
    · exact hone.node
    · simp [hslot.symm, Slot.child?]
  · simp
  · intro hk
    rw [lookup_pair]
    by_cases hb : b.hk = hk
    · have ha : a.hk ≠ hk := by
        rintro ha
        exact hslot (by rw [ha, hb])
      simp [ha, hb, Slot.find]
    · by_cases hs : slot (hashOfKey hk) shift = slot (hashOfKey b.hk) shift
      · have ha : a.hk ≠ hk := by
          rintro rfl
          exact hslot hs
        simp [hs, hb, ha, Slot.find]
      · simp [hs, hb]

theorem nodeRep_collision (hne : a.hk ≠ b.hk) (hdeep : shift ≥ 32) :
    NodeRep (lvl + 1) shift (HamtNode.mk 0#32 0#32 [a, b] []) (Keyed.lookup Entry.hk [a, b]) := by
  rw [NodeRep, if_pos hdeep]
  exact ⟨rfl, rfl, rfl, by simp [entries], by simpa [Keyed.Distinct, entries] using hne, rfl⟩

theorem mergeEntries_spec (hne : a.hk ≠ b.hk) (hroom : 32 ≤ shift + vecBits * lvl) :
    ∃ n, mergeEntries (lvl + 1) a (hashOfKey a.hk) b (hashOfKey b.hk) shift = some n ∧
      NodeRep (lvl + 1) shift n (Keyed.lookup Entry.hk [a, b]) := by
  induction lvl generalizing shift with
  | zero =>
    have hdeep : shift ≥ 32 := by simpa using hroom
    exact ⟨_, by rw [mergeEntries, if_pos hdeep], nodeRep_collision hne hdeep⟩
  | succ lvl ih =>
    by_cases hdeep : shift ≥ 32
    · exact ⟨_, by rw [mergeEntries, if_pos hdeep], nodeRep_collision hne hdeep⟩
    · rw [mergeEntries, if_neg hdeep]
      by_cases hslot : slot (hashOfKey a.hk) shift = slot (hashOfKey b.hk) shift
      · have hroom' : 32 ≤ shift + vecBits + vecBits * lvl := by
          rw [Nat.mul_succ] at hroom
          omega
        obtain ⟨child, hmerge, hrep⟩ := ih hroom'
        refine ⟨_, by simp only [hslot, if_true, hmerge]; rfl, ?_⟩
        rw [NodeRep, if_neg hdeep, ← hslot]
        exact branchRep_merge_same hslot ⟨hrep, a.hk, a, by rw [lookup_pair, if_pos rfl]⟩
      · refine ⟨_, by simp only [hslot, if_false]; rfl, ?_⟩
        rw [NodeRep, if_neg hdeep]
        exact branchRep_merge_apart hslot

section

variable (h : BranchRep R shift n f s) {i : Nat} {hash : BitVec 32} {n' : HamtNode V}
  {g : Bindings V} {hk : HashKey} (k : HashKey)

include h

/-- A node that differs from another in the slot of one key, where it binds or clears that
key, binds or clears it. -/
theorem BranchRep.bind (v : Option (Entry V)) (x : Slot V)
    (hx : x.find = Function.update (s (slot (hashOfKey k) shift)).find k v)
    (hdata : Sparse.Compacts out.dataMap out.entries (Function.update (fun j => (s j).entryOf)
      (slot (hashOfKey k) shift) x.entryOf))
    (hnode : Sparse.Compacts out.nodeMap out.children (Function.update (fun j => (s j).child?)
      (slot (hashOfKey k) shift) x.child?))
    (hkid : ∀ n' g, x = .child n' g → R n' g) :
    ∃ s', BranchRep R shift out (Function.update f k v) s' := by
  refine ⟨_, h.update (slot (hashOfKey k) shift) x hdata hnode hkid (fun hk e he => ?_)
    fun hk => ?_⟩
  · by_cases hkk : hk = k
    · rw [hkk]
    · rw [hx, Function.update_of_ne hkk] at he
      exact h.home _ hk e he
  · by_cases hkk : hk = k
    · subst hkk
      simp [hx]
    · rw [Function.update_of_ne hkk, hx, Function.update_of_ne hkk, h.sem hk]
      split
      · rename_i hs
        rw [hs]
      · rfl

theorem BranchRep.data_same {x : Option (Entry V)} (hx : (s i).entryOf = x) :
    Sparse.Compacts n.dataMap n.entries (Function.update (fun j => (s j).entryOf) i x) := by
  rw [Function.update_eq_self_iff.2 hx.symm]
  exact h.data

theorem BranchRep.node_same {x : Option (HamtNode V)} (hx : (s i).child? = x) :
    Sparse.Compacts n.nodeMap n.children (Function.update (fun j => (s j).child?) i x) := by
  rw [Function.update_eq_self_iff.2 hx.symm]
  exact h.node

omit h in
theorem NodeRep.assoc (h : NodeRep (lvl + 1) shift n f) (hroom : 32 ≤ shift + vecBits * lvl)
    (e : Entry V) :
    ∃ n' bytes, assoc (lvl + 1) n e (hashOfKey e.hk) shift = some (n', bytes, (f e.hk).isNone) ∧
      NodeRep (lvl + 1) shift n' (Function.update f e.hk (some e)) := by
  induction lvl generalizing shift n f with
  | zero =>
    have hdeep : shift ≥ 32 := by simpa using hroom
    simp only [NodeRep, hdeep, if_true] at h ⊢
    exact h.assoc 0 e _ _
  | succ lvl ih =>
    rw [NodeRep] at h
    by_cases hdeep : shift ≥ 32
    · rw [if_pos hdeep] at h
      simp only [NodeRep, hdeep, if_true]
      exact h.assoc (lvl + 1) e _ _
    rw [if_neg hdeep] at h
    obtain ⟨s, hs⟩ := h
    have hroom' : 32 ≤ shift + vecBits + vecBits * lvl := by
      rw [Nat.mul_succ] at hroom
      omega
    have hlt := slot_lt (hashOfKey e.hk) shift
    have hf := hs.sem e.hk
    rw [HamtNode.assoc]
    simp only [hs.isCollision, Bool.false_eq_true, if_false]
    rcases hs.slot_cases (hashOfKey e.hk) with ⟨hslot, hd, hn⟩ | ⟨x, hslot, hd, hx⟩ |
      ⟨n', g, hslot, hd, hn, hc, hrep⟩
    · -- a free slot takes the entry
      rw [if_neg hd, if_neg hn, hf, hslot]
      refine ⟨_, _, rfl, NodeRep.of_branch hdeep
        (hs.bind e.hk (some e) (.data e) ?_ ?_ ?_ (by simp))⟩
      · rw [hslot]
        exact Slot.find_data e
      · exact hs.data.insert hlt (by simp [hslot, Slot.entryOf]) e
      · exact hs.node_same (by simp [hslot, Slot.child?])
    · rw [if_pos hd, hx, hf, hslot]
      by_cases hkey : x.hk = e.hk
      · -- the entry takes the place of the one with its key
        simp only [bind_eq_bind, bind_some, hkey, if_true, Slot.find]
        refine ⟨_, _, rfl, NodeRep.of_branch hdeep
          (hs.bind e.hk (some e) (.data e) ?_ ?_ ?_ (by simp))⟩
        · rw [hslot, Slot.find_data, Slot.find_data, hkey, update_idem]
        · exact hs.data.set hlt (by simp [hslot, Slot.entryOf]) e
        · exact hs.node_same (by simp [hslot, Slot.child?])
      · -- the slot is full with another key: both entries move below it
        obtain ⟨child, hmerge, hrep⟩ := mergeEntries_spec hkey hroom'
        simp only [bind_eq_bind, bind_some, hkey, if_false, Slot.find, hmerge]
        refine ⟨_, _, rfl, NodeRep.of_branch hdeep
          (hs.bind e.hk (some e) (.child child (Keyed.lookup Entry.hk [x, e])) ?_ ?_ ?_ ?_)⟩
        · rw [hslot, Slot.find_data]
          exact lookup_pair_update hkey
        · exact hs.data.erase hlt (by simp [hslot, Slot.entryOf])
        · exact hs.node.insert hlt (by simp [hslot, Slot.child?]) child
        · rintro n' g ⟨⟩
          exact ⟨hrep, x.hk, x, by rw [lookup_pair, if_pos rfl]⟩
    · -- the entry goes below the slot
      obtain ⟨child, bytes, hassoc, hrep'⟩ := ih hrep.1 hroom'
      rw [if_neg hd, if_pos hn, hc, hf, hslot]
      simp only [bind_eq_bind, bind_some, hassoc, Slot.find]
      refine ⟨_, _, rfl, NodeRep.of_branch hdeep
        (hs.bind e.hk (some e) (.child child (Function.update g e.hk (some e))) ?_ ?_ ?_ ?_)⟩
      · rw [hslot]
        rfl
      · exact hs.data_same (by simp [hslot, Slot.entryOf])
      · exact hs.node.set hlt (by simp [hslot, Slot.child?]) child
      · rintro n' g ⟨⟩
        exact ⟨hrep', e.hk, e, update_self _ _ _⟩

theorem BranchRep.clear_only (honly : ∀ i < 32, i ≠ slot (hashOfKey k) shift → s i = .empty)
    (hclear : ∀ hk, hk ≠ k → (s (slot (hashOfKey k) shift)).find hk = none) :
    Function.update f k none = fun _ => none := by
  funext hk
  by_cases hkk : hk = k
  · rw [hkk, update_self]
  · rw [Function.update_of_ne hkk, h.sem hk]
    by_cases hs : slot (hashOfKey hk) shift = slot (hashOfKey k) shift
    · rw [hs]
      exact hclear hk hkk
    · rw [honly _ (slot_lt _ _) hs]
      rfl

omit h in
theorem Slot.eq_empty {x : Slot V} (hd : x.entryOf = none) (hc : x.child? = none) :
    x = .empty := by
  cases x with
  | empty => rfl
  | data e => cases hd
  | child n g => cases hc

theorem BranchRep.only_data {x : Entry V} (hslot : s (slot hash shift) = .data x) :
    n.dataMap = bitOf hash shift ∧ n.nodeMap = 0#32 ↔
      ∀ i < 32, i ≠ slot hash shift → s i = .empty := by
  have hbit : n.dataMap = bitOf hash shift ↔ _ :=
    h.data.eq_bit_iff (slot_lt hash shift) (by simp [hslot, Slot.entryOf])
  rw [hbit, h.node.eq_zero_iff]
  constructor
  · exact fun hone i hi hne => Slot.eq_empty (hone.1 i hi hne) (hone.2 i hi)
  · refine fun hone => ⟨fun i hi hne => by simp [hone i hi hne, Slot.entryOf], fun i hi => ?_⟩
    by_cases hne : i = slot hash shift
    · simp [hne, hslot, Slot.child?]
    · simp [hone i hi hne, Slot.child?]

theorem BranchRep.only_node (hslot : s (slot hash shift) = .child n' g) :
    n.dataMap = 0#32 ∧ n.nodeMap = bitOf hash shift ↔
      ∀ i < 32, i ≠ slot hash shift → s i = .empty := by
  have hbit : n.nodeMap = bitOf hash shift ↔ _ :=
    h.node.eq_bit_iff (slot_lt hash shift) (by simp [hslot, Slot.child?])
  rw [hbit, h.data.eq_zero_iff]
  constructor
  · exact fun hone i hi hne => Slot.eq_empty (hone.1 i hi) (hone.2 i hi hne)
  · refine fun hone => ⟨fun i hi => ?_, fun i hi hne => by simp [hone i hi hne, Slot.child?]⟩
    by_cases hne : i = slot hash shift
    · simp [hne, hslot, Slot.entryOf]
    · simp [hone i hi hne, Slot.entryOf]

/-- A slot that is not empty has an entry of the node. -/
theorem BranchRep.slot_live (hlive : ∀ n g, R n g → Live g)
    (hi : s i ≠ .empty) : ∃ hk e, f hk = some e ∧ slot (hashOfKey hk) shift = i := by
  have hfind : Live (s i).find := by
    cases hs : s i with
    | empty => exact absurd hs hi
    | data e => exact ⟨e.hk, e, if_pos rfl⟩
    | child n' g => exact hlive n' g (h.kids i n' g hs)
  obtain ⟨hk, e, he⟩ := hfind
  have hhome := h.home i hk e he
  exact ⟨hk, e, by rw [h.sem, hhome, he], hhome⟩

theorem BranchRep.live_of_other (hlive : ∀ n g, R n g → Live g)
    (hother : ¬ ∀ i < 32, i ≠ slot (hashOfKey hk) shift → s i = .empty) :
    Live (Function.update f hk none) := by
  push Not at hother
  obtain ⟨i, -, hne, hi⟩ := hother
  obtain ⟨k, e, he, hk'⟩ := h.slot_live hlive hi
  refine ⟨k, e, ?_⟩
  rwa [Function.update_of_ne]
  rintro rfl
  exact hne hk'.symm

theorem BranchRep.live_of_child (hslot : s (slot (hashOfKey hk) shift) = .child n' g)
    (hg : Live (Function.update g hk none)) : Live (Function.update f hk none) := by
  obtain ⟨k, e, he⟩ := hg
  have hne : k ≠ hk := by
    rintro rfl
    simp at he
  rw [Function.update_of_ne hne] at he
  have hfind : (s (slot (hashOfKey hk) shift)).find k = some e := by rw [hslot]; exact he
  exact ⟨k, e, by rw [Function.update_of_ne hne, h.sem, h.home _ k e hfind, hfind]⟩

end

theorem NodeRep.unchanged (h : NodeRep lvl shift n f) {hk : HashKey} (hf : f hk = none) :
    ∃ r bytes, some (some n, (0 : Int), false) = some (r, bytes, (f hk).isSome) ∧
      Removed (NodeRep lvl shift) (f hk).isSome r (Function.update f hk none) := by
  refine ⟨some n, 0, by rw [hf]; rfl, ?_⟩
  rw [Function.update_eq_self_iff.2 hf.symm]
  exact ⟨h, by simp [hf]⟩

theorem NodeRep.dissoc (h : NodeRep lvl shift n f) (hk : HashKey) :
    ∃ r bytes, dissoc lvl n hk (hashOfKey hk) shift = some (r, bytes, (f hk).isSome) ∧
      Removed (NodeRep lvl shift) (f hk).isSome r (Function.update f hk none) := by
  induction lvl generalizing shift n f with
  | zero => exact h.elim
  | succ lvl ih =>
    have hn := h
    rw [NodeRep] at h
    by_cases hdeep : shift ≥ 32
    · rw [if_pos hdeep] at h
      obtain ⟨r, bytes, hrun, hrep⟩ := h.dissoc lvl hk (hashOfKey hk) shift
      refine ⟨r, bytes, hrun, ?_⟩
      cases r with
      | none => exact hrep
      | some n' => simpa only [Removed, NodeRep, hdeep, if_true] using hrep
    rw [if_neg hdeep] at h
    obtain ⟨s, hs⟩ := h
    have hlt := slot_lt (hashOfKey hk) shift
    have hf := hs.sem hk
    rw [HamtNode.dissoc]
    simp only [hs.isCollision, Bool.false_eq_true, if_false]
    rcases hs.slot_cases (hashOfKey hk) with ⟨hslot, hd, hn'⟩ | ⟨x, hslot, hd, hx⟩ |
      ⟨n', g, hslot, hd, hn', hc, hrep⟩
    · rw [if_neg hd, if_neg hn']
      exact hn.unchanged (by rw [hf, hslot]; rfl)
    · rw [if_pos hd, hx]
      simp only [bind_eq_bind, bind_some]
      by_cases hkey : x.hk = hk
      · have hfs : (f hk).isSome = true := by simp [hf, hslot, Slot.find, hkey]
        rw [if_neg (not_not.2 hkey)]
        by_cases hone : n.dataMap = bitOf (hashOfKey hk) shift ∧ n.nodeMap = 0#32
        · rw [if_pos hone]
          refine ⟨none, 0, by rw [hfs], hs.clear_only hk ((hs.only_data hslot).1 hone) ?_⟩
          intro k' hk'
          rw [hslot, Slot.find_data, hkey, Function.update_of_ne hk']
        · rw [if_neg hone]
          rw [hs.only_data hslot] at hone
          refine ⟨_, _, by rw [hfs], Removed.some (NodeRep.of_branch hdeep
            (hs.bind hk none .empty ?_ ?_ ?_ (by simp)))
            fun _ => hs.live_of_other (fun _ _ => And.right) hone⟩
          · rw [hslot, Slot.find_data, hkey, update_idem]
            exact (update_eq_self hk fun _ => none).symm
          · exact hs.data.erase hlt (by simp [hslot, Slot.entryOf])
          · exact hs.node_same (by simp [hslot, Slot.child?])
      · rw [if_pos hkey]
        exact hn.unchanged (by simp [hf, hslot, Slot.find, hkey])
    · obtain ⟨r, bytes, hdis, hrem⟩ := ih hrep.1
      rw [if_neg hd, if_pos hn', hc]
      simp only [bind_eq_bind, bind_some, hdis]
      have hfg : f hk = g hk := by rw [hf, hslot]; rfl
      cases hg : g hk with
      | none =>
        exact hn.unchanged (hfg.trans hg)
      | some e =>
        have hfs : (f hk).isSome = true := by rw [hfg, hg]; rfl
        rw [hfs]
        simp only [isSome_some, Bool.not_true, Bool.false_eq_true, if_false]
        cases r with
        | some child =>
          have hchild := hrem.2 (by rw [hg]; rfl)
          refine ⟨_, _, rfl, Removed.some (NodeRep.of_branch hdeep (hs.bind hk none
            (.child child (Function.update g hk none)) ?_ ?_ ?_ ?_))
            fun _ => hs.live_of_child hslot hchild⟩
          · rw [hslot]
            rfl
          · exact hs.data_same (by simp [hslot, Slot.entryOf])
          · exact hs.node.set hlt (by simp [hslot, Slot.child?]) child
          · rintro n' g ⟨⟩
            exact ⟨hrem.1, hchild⟩
        | none =>
          have hempty : ∀ k', k' ≠ hk → g k' = none := by
            intro k' hk'
            have hat := congrFun hrem k'
            rwa [Function.update_of_ne hk'] at hat
          simp only
          by_cases hone : n.dataMap = 0#32 ∧ n.nodeMap = bitOf (hashOfKey hk) shift
          · rw [if_pos hone]
            refine ⟨none, 0, rfl, hs.clear_only hk ((hs.only_node hslot).1 hone) ?_⟩
            rw [hslot]
            exact hempty
          · rw [if_neg hone]
            rw [hs.only_node hslot] at hone
            refine ⟨_, _, rfl, Removed.some (NodeRep.of_branch hdeep
              (hs.bind hk none .empty ?_ ?_ ?_ (by simp)))
              fun _ => hs.live_of_other (fun _ _ => And.right) hone⟩
            · rw [hslot]
              exact hrem.symm
            · exact hs.data_same (by simp [hslot, Slot.entryOf])
            · exact hs.node.erase hlt (by simp [hslot, Slot.child?])

end

end HamtNode

end Core

end Lispico
