import Lispico.Core.HashMapListing

/-!
# What deriving a map from a built one is charged

The first `Assoc` or `Dissoc` on a Go map makes a trie of it in sorted order and leaves it in
the memo, so its charge is settled by the entries and the key. Later calls are charged for the
nodes they copy, which lie on the path of the key in the new trie.
-/

namespace Lispico

namespace Core

open Lib Option

namespace HamtNode

section

variable {V : Type} {lvl shift : Nat} {n n' c : HamtNode V} {e e' : Entry V} {h : BitVec 32}

theorem mergeEntries_bytes (a : Entry V) (ha : BitVec 32) (e e' : Entry V) :
    (mergeEntries lvl a ha e h shift).map hamtNodeBytes =
      (mergeEntries lvl a ha e' h shift).map hamtNodeBytes := by
  induction lvl generalizing shift with
  | zero => rfl
  | succ lvl ih =>
    simp only [mergeEntries, bind_eq_bind]
    split
    · rfl
    split
    · have hbelow := @ih (shift + vecBits)
      cases hone : mergeEntries lvl a ha e h (shift + vecBits) <;>
        cases htwo : mergeEntries lvl a ha e' h (shift + vecBits) <;>
          simp_all [hamtNodeBytes, entries, children]
    · split <;> rfl

theorem assoc_bytes (hkey : e.hk = e'.hk) : (assoc lvl n e h shift).map (fun r => r.2.1) =
      (assoc lvl n e' h shift).map fun r => r.2.1 := by
  induction lvl generalizing n shift with
  | zero => rfl
  | succ lvl ih =>
    simp only [assoc, hkey, bind_eq_bind]
    split
    · split <;> simp [hamtNodeBytes, entries, children]
    split
    · cases n.entries[onesCount32 (n.dataMap &&& (bitOf h shift - 1#32))]? with
      | none => rfl
      | some x =>
        have hmerge := @mergeEntries_bytes V lvl (shift + vecBits) h x (hashOfKey x.hk) e e'
        simp only [bind_some]
        split
        · simp [hamtNodeBytes, entries, children]
        generalize mergeEntries lvl x (hashOfKey x.hk) e h (shift + vecBits) = one at hmerge ⊢
        generalize mergeEntries lvl x (hashOfKey x.hk) e' h (shift + vecBits) = two at hmerge ⊢
        cases one <;> cases two <;> simp_all [hamtNodeBytes, entries, children]
    split
    · cases n.children[onesCount32 (n.nodeMap &&& (bitOf h shift - 1#32))]? with
      | none => rfl
      | some c =>
        have hbelow := @ih (shift + vecBits) c
        simp only [bind_some]
        generalize assoc lvl c e h (shift + vecBits) = one at hbelow ⊢
        generalize assoc lvl c e' h (shift + vecBits) = two at hbelow ⊢
        cases one <;> cases two <;> simp_all [hamtNodeBytes, entries, children]
    · simp [hamtNodeBytes, entries, children]

def pathBytes : Nat → HamtNode V → BitVec 32 → Nat → Int
  | 0, _, _, _ => 0
  | lvl + 1, n, h, shift =>
    let child :=
      if n.nodeMap &&& bitOf h shift ≠ 0#32 then
        n.children[onesCount32 (n.nodeMap &&& (bitOf h shift - 1#32))]?
      else none
    n.hamtNodeBytes + child.elim 0 fun c => pathBytes lvl c h (shift + vecBits)

theorem hamtNodeBytes_nonneg (n : HamtNode V) : 0 ≤ n.hamtNodeBytes := by
  simp only [hamtNodeBytes, hamtSizeBytes]
  omega

theorem pathBytes_nonneg (lvl : Nat) (n : HamtNode V) (h : BitVec 32) (shift : Nat) :
    0 ≤ pathBytes lvl n h shift := by
  induction lvl generalizing n shift with
  | zero => exact Int.le_refl _
  | succ lvl ih =>
    refine Int.add_nonneg n.hamtNodeBytes_nonneg ?_
    generalize (if n.nodeMap &&& bitOf h shift ≠ 0#32 then _ else none) = child
    cases child with
    | none => exact Int.le_refl _
    | some c => exact ih c _

theorem hamtNodeBytes_le_pathBytes (lvl : Nat) (n : HamtNode V) (h : BitVec 32) (shift : Nat) :
    n.hamtNodeBytes ≤ pathBytes (lvl + 1) n h shift := by
  refine Int.le_add_of_nonneg_right ?_
  generalize (if n.nodeMap &&& bitOf h shift ≠ 0#32 then _ else none) = child
  cases child with
  | none => exact Int.le_refl _
  | some c => exact pathBytes_nonneg _ _ _ _

theorem copied_le_pathBytes {b : Int} (hn : n.nodeMap &&& bitOf h shift ≠ 0#32)
    (hc : n.children[onesCount32 (n.nodeMap &&& (bitOf h shift - 1#32))]? = some c)
    (hb : b ≤ pathBytes lvl c h (shift + vecBits)) :
    b + n.hamtNodeBytes ≤ pathBytes (lvl + 1) n h shift := by
  simp only [pathBytes, if_pos hn, hc, elim_some]
  omega

variable {lvl shift : Nat} {h : BitVec 32} {n : HamtNode V} {bytes : Int}

theorem mergeEntries_le_pathBytes {a b : Entry V} {ha hb : BitVec 32}
    (hrun : mergeEntries lvl a ha b hb shift = some n) :
    n.hamtNodeBytes ≤ pathBytes lvl n h shift := by
  cases lvl with
  | zero => cases hrun
  | succ lvl => exact hamtNodeBytes_le_pathBytes _ _ _ _

/-- A node has as many children as its bitmap says. -/
def Packed : Nat → HamtNode V → Prop
  | 0, _ => False
  | lvl + 1, n => n.children.length = onesCount32 n.nodeMap ∧ ∀ c ∈ n.children, Packed lvl c

theorem NodeRep.packed {f : Bindings V} (h : NodeRep lvl shift n f) : Packed lvl n := by
  induction lvl generalizing shift n f with
  | zero => exact h
  | succ lvl ih =>
    unfold NodeRep at h
    split at h
    · refine ⟨?_, by simp [h.kids]⟩
      rw [h.kids, h.node]
      exact (by decide : 0 = onesCount32 0#32)
    · obtain ⟨s, hs⟩ := h
      refine ⟨hs.node.length, fun c hc => ?_⟩
      rw [hs.node.list, List.mem_filterMap] at hc
      obtain ⟨i, -, hc⟩ := hc
      cases hslot : s i with
      | child n' g =>
        rw [hslot] at hc
        cases hc
        exact ih (hs.kids i c g hslot).1
      | _ => simp [hslot, Slot.child?] at hc

theorem Packed.assoc_bytes_le {n' : HamtNode V} {e : Entry V} {added : Bool}
    (hn : Packed lvl n) (hrun : assoc lvl n e h shift = some (n', bytes, added)) :
    bytes ≤ pathBytes lvl n' h shift := by
  induction lvl generalizing shift n n' bytes added with
  | zero => cases hrun
  | succ lvl ih =>
    have hslot := slot_lt h shift
    simp only [assoc, bind_eq_bind] at hrun
    split at hrun
    · split at hrun <;> cases hrun <;> exact hamtNodeBytes_le_pathBytes _ _ _ _
    split at hrun
    · obtain ⟨x, -, hrun⟩ := Option.bind_eq_some_iff.1 hrun
      split at hrun
      · cases hrun
        exact hamtNodeBytes_le_pathBytes _ _ _ _
      · obtain ⟨child, hchild, hrun⟩ := Option.bind_eq_some_iff.1 hrun
        cases hrun
        have hidx : onesCount32 ((n.nodeMap ||| bitOf h shift) &&& (bitOf h shift - 1#32)) =
            onesCount32 (n.nodeMap &&& (bitOf h shift - 1#32)) :=
          Sparse.Compacts.index_or_bit hslot n.nodeMap
        have hle : onesCount32 (n.nodeMap &&& (bitOf h shift - 1#32)) ≤ n.children.length :=
          hn.1 ▸ Sparse.Compacts.index_le_onesCount hslot n.nodeMap
        rw [Int.add_comm]
        refine copied_le_pathBytes ?_ ?_ (mergeEntries_le_pathBytes hchild)
        · refine (Sparse.and_bit_ne_zero hslot _).2 ?_
          change (n.nodeMap ||| Sparse.bit 32 (slot h shift)).getLsbD (slot h shift) = true
          simp [Sparse.getLsbD_bit hslot]
        · simp only [nodeMap, children] at hidx hle ⊢
          rw [hidx]
          simp [hle]
    split at hrun
    case isTrue hbit =>
      obtain ⟨c, hc, hrun⟩ := Option.bind_eq_some_iff.1 hrun
      obtain ⟨⟨c', b, a⟩, hchild, hrun⟩ := Option.bind_eq_some_iff.1 hrun
      cases hrun
      refine copied_le_pathBytes hbit ?_ (ih (hn.2 c (List.mem_of_getElem? hc)) hchild)
      exact List.getElem?_set_self (List.getElem?_eq_some_iff.1 hc).1
    · cases hrun
      exact hamtNodeBytes_le_pathBytes _ _ _ _

theorem Packed.dissoc_bytes_le {r : Option (HamtNode V)} {hk : HashKey}
    {removed : Bool} (hn : Packed lvl n)
    (hrun : dissoc lvl n hk h shift = some (r, bytes, removed)) :
    bytes ≤ (r.map fun n' => pathBytes lvl n' h shift).getD 0 := by
  induction lvl generalizing shift n r bytes removed with
  | zero => cases hrun
  | succ lvl ih =>
    have hsame : (0 : Int) ≤ pathBytes (lvl + 1) n h shift := pathBytes_nonneg _ _ _ _
    have hout := fun out : HamtNode V => hamtNodeBytes_le_pathBytes lvl out h shift
    simp only [dissoc, bind_eq_bind] at hrun
    split at hrun
    · split at hrun
      · split at hrun
        · cases hrun
          exact Int.le_refl _
        · cases hrun
          exact hout _
      · cases hrun
        exact hsame
    split at hrun
    · obtain ⟨x, -, hrun⟩ := Option.bind_eq_some_iff.1 hrun
      split at hrun
      · cases hrun
        exact hsame
      split at hrun
      · cases hrun
        exact Int.le_refl _
      · cases hrun
        exact hout _
    split at hrun
    case isTrue hbit =>
      obtain ⟨c, hc, hrun⟩ := Option.bind_eq_some_iff.1 hrun
      obtain ⟨⟨r', b, gone⟩, hchild, hrun⟩ := Option.bind_eq_some_iff.1 hrun
      have hone := ih (hn.2 c (List.mem_of_getElem? hc)) hchild
      cases gone with
      | false =>
        cases hrun
        exact hsame
      | true =>
        cases r' with
        | some c' =>
          cases hrun
          refine copied_le_pathBytes hbit ?_ hone
          exact List.getElem?_set_self (List.getElem?_eq_some_iff.1 hc).1
        | none =>
          simp only [Bool.not_true, Bool.false_eq_true, if_false] at hrun
          split at hrun
          · cases hrun
            exact Int.le_refl _
          · cases hrun
            exact hout _
    · cases hrun
      exact hsame

end

end HamtNode

namespace HashMap

open HamtNode (Bindings)

section

variable {V : Type} {h h₁ h₂ : HashMap V} {f : Bindings V}

def charged (r : Option (Except String (Derived V))) : Option (Except String Int) :=
  r.map (Except.map Derived.bytes)

def pathBytes (h : HashMap V) (hk : HashKey) : Int :=
  match h.large.bind LargeMap.root with
  | some root => root.pathBytes HamtNode.levels (hashOfKey hk) 0
  | none => 0

/-- Calls of `Set` on one map. -/
def setOps (ps : List (Key × V)) : List (Op V) := ps.map fun p => ⟨0, p.1, .set p.2⟩

/-- A map in the large form is a Go map that was never converted. -/
def Built (h : HashMap V) : Prop := ∀ l, h.large = some l → l.root = none ∧ l.memo = none

theorem Built.set {h' : HashMap V} (hb : Built h) {key : Key} {val : V}
    (hrun : h.set key val = some (.ok h')) : Built h' := by
  cases hkey : toHashKey key with
  | error err => simp [HashMap.set, hkey] at hrun
  | ok hk =>
    simp only [HashMap.set, hkey, bind_eq_bind] at hrun
    split at hrun
    · rename_i l hlarge
      simp only [(hb l hlarge).1] at hrun
      obtain ⟨m, -, hrun⟩ := Option.bind_eq_some_iff.1 hrun
      cases hrun
      rintro l' ⟨⟩
      exact ⟨rfl, rfl⟩
    · split at hrun
      · cases hrun
        rintro l ⟨⟩
      split at hrun
      · cases hrun
        rintro l ⟨⟩
        exact ⟨rfl, rfl⟩
      · cases hrun
        rintro l ⟨⟩

theorem built_of_run {ps : List (Key × V)} {pool : List (HashMap V)} (hb : Built h)
    (hrun : run [h] (setOps ps) = some pool) : ∀ h' ∈ pool, Built h' := by
  induction ps generalizing h with
  | nil =>
    cases hrun
    simpa using hb
  | cons p ps ih =>
    obtain ⟨pool₁, hstep, hrest⟩ := Option.bind_eq_some_iff.1 hrun
    simp only [step, List.getElem?_cons_zero] at hstep
    obtain ⟨r, hset, rfl⟩ := Option.map_eq_some_iff.1 hstep
    cases r with
    | error err => exact ih hb hrest
    | ok h' => exact ih (hb.set hset) hrest

theorem sortedEntries_eq {m m' : List (Entry V)} (hd : Keyed.Distinct Entry.hk m)
    (hd' : Keyed.Distinct Entry.hk m') (hmem : ∀ e, e ∈ m ↔ e ∈ m') :
    sortedEntries m = sortedEntries m' := by
  refine (sorted_sortedEntries hd).eq_of_mem_iff (sorted_sortedEntries hd') fun e => ?_
  rw [(perm_sortedEntries m).mem_iff, (perm_sortedEntries m').mem_iff]
  exact hmem e

variable {l : LargeMap V} {root : HamtNode V}

theorem trieRoot_built (hroot : l.root = none) (hmemo : l.memo = none) :
    trieRoot l = (trieFromBuildMap (l.m.getD [])).map fun r =>
      (r.1, ((l.m.getD []).length : Int), r.2, { l with memo := some r.1 }) := by
  simp only [trieRoot, hroot, hmemo, bind_eq_bind]
  cases trieFromBuildMap (l.m.getD []) <;> rfl

/-- A map whose trie is at hand keeps its form, and a call is charged for its path. -/
def PaysForPaths (h : HashMap V) (x : HashKey → Option V) : Prop :=
  ∀ key hk, toHashKey key = .ok hk →
    (∀ val, ∃ d, h.assoc key val = some (.ok d) ∧ d.receiver = h ∧
      d.bytes ≤ d.map.pathBytes hk ∧ Reads d.map (Function.update x hk (some val))) ∧
    ∃ d, h.dissoc key = some (.ok d) ∧ d.receiver = h ∧
      d.bytes ≤ d.map.pathBytes hk ∧ Reads d.map (Function.update x hk none)

theorem trieRoot_of_trie (h : l.root.or l.memo = some root) :
    ∃ count, trieRoot l = some (root, count, 0, l) := by
  cases hroot : l.root with
  | some n =>
    rw [hroot] at h
    cases h
    exact ⟨l.count, by simp only [trieRoot, hroot]⟩
  | none =>
    rw [hroot, none_or] at h
    exact ⟨(l.m.getD []).length, by simp only [trieRoot, hroot, h]⟩

theorem trieRoot_kept {l' : LargeMap V} {count bytes : Int}
    (hrun : trieRoot l = some (root, count, bytes, l')) : l'.root.or l'.memo = some root := by
  unfold trieRoot at hrun
  split at hrun
  · rename_i hroot
    cases hrun
    simp [hroot]
  split at hrun
  · rename_i hroot _ _ hmemo
    cases hrun
    simp [hroot, hmemo]
  · obtain ⟨r, -, hrun⟩ := Option.bind_eq_some_iff.1 hrun
    cases hrun
    simp_all

theorem Tracked.paysForPaths (ht : Tracked h f) (hlarge : h.large = some l)
    (htrie : l.root.or l.memo = some root) :
    PaysForPaths h (values f) := by
  obtain ⟨count, hroot⟩ := trieRoot_of_trie htrie
  have hl : LargeRep l f := by simpa [Rep, hlarge] using ht.rep
  obtain ⟨_, _, _, hroot', hnode, -⟩ := hl.trieRoot
  have hpacked : HamtNode.Packed HamtNode.levels root := by
    cases hroot.symm.trans hroot'
    exact hnode.packed
  have hself : (⟨h.entries, some l⟩ : HashMap V) = h := by
    cases h
    cases hlarge
    rfl
  intro key hk hkey
  refine ⟨fun val => ?_, ?_⟩
  · obtain ⟨d, hrun, -, hmap⟩ := ht.assoc hkey val
    refine ⟨d, hrun, ?_⟩
    simp only [HashMap.assoc, hkey, hlarge, hroot, bind_eq_bind, bind_some] at hrun
    obtain ⟨⟨next, b, added⟩, hassoc, hrun⟩ := Option.bind_eq_some_iff.1 hrun
    cases hrun
    refine ⟨hself, ?_, hmap.holds_update.reads⟩
    rw [Int.zero_add]
    exact hpacked.assoc_bytes_le hassoc
  · obtain ⟨d, hrun, -, hmap⟩ := ht.dissoc hkey
    refine ⟨d, hrun, ?_⟩
    simp only [HashMap.dissoc, hkey, hlarge, hroot, bind_eq_bind, bind_some] at hrun
    obtain ⟨⟨next, b, removed⟩, hdissoc, hrun⟩ := Option.bind_eq_some_iff.1 hrun
    cases hrun
    refine ⟨hself, ?_, hmap.holds_update.reads⟩
    rw [Int.zero_add]
    have hle := hpacked.dissoc_bytes_le hdissoc
    cases next <;> exact hle

/-- `d` is what an `Assoc` or a `Dissoc` of the map gave. -/
def Called (h : HashMap V) (d : Derived V) : Prop :=
  (∃ key val, h.assoc key val = some (.ok d)) ∨ ∃ key, h.dissoc key = some (.ok d)

theorem Tracked.called (ht : Tracked h f) (hlarge : h.large = some l) {d : Derived V}
    (hcall : Called h d) :
    Tracked d.receiver f ∧
      ∃ l' root, d.receiver.large = some l' ∧ l'.root.or l'.memo = some root := by
  rcases hcall with ⟨key, val, hrun⟩ | ⟨key, hrun⟩
  · cases hkey : toHashKey key with
    | error err => simp [HashMap.assoc, hkey] at hrun
    | ok hk =>
      obtain ⟨d', hrun', hrec, -⟩ := ht.assoc hkey val
      cases hrun.symm.trans hrun'
      refine ⟨hrec, ?_⟩
      simp only [HashMap.assoc, hkey, hlarge, bind_eq_bind] at hrun
      obtain ⟨⟨root, count, bytes, l'⟩, hroot, hrun⟩ := Option.bind_eq_some_iff.1 hrun
      obtain ⟨⟨next, b, added⟩, -, hrun⟩ := Option.bind_eq_some_iff.1 hrun
      cases hrun
      exact ⟨l', root, rfl, trieRoot_kept hroot⟩
  · cases hkey : toHashKey key with
    | error err => simp [HashMap.dissoc, hkey] at hrun
    | ok hk =>
      obtain ⟨d', hrun', hrec, -⟩ := ht.dissoc hkey
      cases hrun.symm.trans hrun'
      refine ⟨hrec, ?_⟩
      simp only [HashMap.dissoc, hkey, hlarge, bind_eq_bind] at hrun
      obtain ⟨⟨root, count, bytes, l'⟩, hroot, hrun⟩ := Option.bind_eq_some_iff.1 hrun
      obtain ⟨⟨next, b, removed⟩, -, hrun⟩ := Option.bind_eq_some_iff.1 hrun
      cases hrun
      exact ⟨l', root, rfl, trieRoot_kept hroot⟩

theorem charged_built {l₁ l₂ : LargeMap V} (hl₁ : h₁.large = some l₁) (hl₂ : h₂.large = some l₂)
    (hb₁ : Built h₁) (hb₂ : Built h₂)
    (hbuild : trieFromBuildMap (l₁.m.getD []) = trieFromBuildMap (l₂.m.getD [])) (key : Key) :
    (∀ v w, charged (h₁.assoc key v) = charged (h₂.assoc key w)) ∧
      charged (h₁.dissoc key) = charged (h₂.dissoc key) := by
  cases hkey : toHashKey key with
  | error err => simp [HashMap.assoc, HashMap.dissoc, hkey, charged, Except.map]
  | ok hk =>
    obtain ⟨hroot₁, hmemo₁⟩ := hb₁ l₁ hl₁
    obtain ⟨hroot₂, hmemo₂⟩ := hb₂ l₂ hl₂
    simp only [HashMap.assoc, HashMap.dissoc, hkey, hl₁, hl₂, bind_eq_bind, charged,
      trieRoot_built hroot₁ hmemo₁, trieRoot_built hroot₂ hmemo₂, hbuild]
    cases trieFromBuildMap (l₂.m.getD []) with
    | none => simp
    | some r =>
      simp only [map_some, bind_some]
      refine ⟨fun v w => ?_, ?_⟩
      · have hb := @HamtNode.assoc_bytes V HamtNode.levels 0 r.1 ⟨hk, key, v⟩ ⟨hk, key, w⟩
          (hashOfKey hk) rfl
        generalize r.1.assoc HamtNode.levels ⟨hk, key, v⟩ (hashOfKey hk) 0 = one at hb ⊢
        generalize r.1.assoc HamtNode.levels ⟨hk, key, w⟩ (hashOfKey hk) 0 = two at hb ⊢
        cases one <;> cases two <;> simp_all [Except.map]
      · cases r.1.dissoc HamtNode.levels hk (hashOfKey hk) 0 <;> simp [Except.map]

/-- A large map that was built with `Set`: the first call is charged by the pairs of the map
and the key, whatever order they were set in and the Go map is read in. Every later call
leaves its receiver as it is, is charged for its path and gives the right map. -/
theorem built_map_charges {ps qs : List (Key × V)}
    (hrun₁ : run [newHashMap] (setOps ps) = some [h₁])
    (hrun₂ : run [newHashMap] (setOps qs) = some [h₂]) {l₁ l₂ : LargeMap V}
    (hl₁ : h₁.large = some l₁) (hl₂ : h₂.large = some l₂)
    (hsame : ∀ p, p ∈ h₁.pairs ↔ p ∈ h₂.pairs) :
    (∀ key, (∀ v w, charged (h₁.assoc key v) = charged (h₂.assoc key w)) ∧
      charged (h₁.dissoc key) = charged (h₂.dissoc key)) ∧
    (∀ m', m'.Perm (l₁.m.getD []) → trieFromBuildMap m' = trieFromBuildMap (l₁.m.getD [])) ∧
    ∃ x, Reads h₁ x ∧ ∀ d, Called h₁ d → Reads d.receiver x ∧ PaysForPaths d.receiver x := by
  have hbuilt : Built (newHashMap : HashMap V) := fun _ hl => by cases hl
  have hb₁ := built_of_run hbuilt hrun₁ h₁ (List.mem_singleton_self _)
  have hb₂ := built_of_run hbuilt hrun₂ h₂ (List.mem_singleton_self _)
  obtain ⟨f₁, ht₁⟩ := reached_tracked hrun₁ h₁ (List.mem_singleton_self _)
  obtain ⟨f₂, ht₂⟩ := reached_tracked hrun₂ h₂ (List.mem_singleton_self _)
  have hraw₁ : h₁.eachRaw = l₁.m.getD [] := by simp [eachRaw, hl₁, (hb₁ l₁ hl₁).1]
  have hraw₂ : h₂.eachRaw = l₂.m.getD [] := by simp [eachRaw, hl₂, (hb₂ l₂ hl₂).1]
  have hlist := ht₁.sortedListing_eq ht₂ hsame
  simp only [sortedListing, hl₁, hl₂, hraw₁, hraw₂] at hlist
  refine ⟨charged_built hl₁ hl₂ hb₁ hb₂ (by simp only [trieFromBuildMap, hlist]), ?_,
    values f₁, Holds.reads ⟨f₁, ht₁, rfl⟩, ?_⟩
  · intro m' hperm
    have hd := hraw₁ ▸ ht₁.eachRaw.1
    have hsorted := sortedEntries_eq ((hperm.map Entry.hk).nodup_iff.2 hd) hd fun e =>
      hperm.mem_iff
    simp only [trieFromBuildMap, hsorted]
  · intro d hcall
    obtain ⟨ht, l', root, hlarge, htrie⟩ := ht₁.called hl₁ hcall
    exact ⟨Holds.reads ⟨f₁, ht, rfl⟩, ht.paysForPaths hlarge htrie⟩

def goMap (ns : List Int64) : LargeMap Nat := ⟨some (ns.map (intEntry · 7)), none, 0, none⟩

/-- Nine keys set upwards, and set downwards. -/
theorem built_map_charges_nine :
    run [newHashMap] (setOps ([0, 1, 2, 3, 4, 5, 6, 7, 8].map fun n => (.int n, 7))) =
      some [⟨[], some (goMap [0, 1, 2, 3, 4, 5, 6, 7, 8])⟩] ∧
    run [newHashMap] (setOps ([8, 7, 6, 5, 4, 3, 2, 1, 0].map fun n => (.int n, 7))) =
      some [⟨[], some (goMap [1, 2, 3, 4, 5, 6, 7, 8, 0])⟩] ∧
    charged (HashMap.dissoc ⟨[], some (goMap [0, 1, 2, 3, 4, 5, 6, 7, 8])⟩ (.int 3)) =
      charged (HashMap.dissoc ⟨[], some (goMap [1, 2, 3, 4, 5, 6, 7, 8, 0])⟩ (.int 3)) := by
  have hrun₁ : run [newHashMap] (setOps ([0, 1, 2, 3, 4, 5, 6, 7, 8].map fun n => (.int n, 7))) =
      some [⟨[], some (goMap [0, 1, 2, 3, 4, 5, 6, 7, 8])⟩] := by
    rfl
  have hrun₂ : run [newHashMap] (setOps ([8, 7, 6, 5, 4, 3, 2, 1, 0].map fun n => (.int n, 7))) =
      some [⟨[], some (goMap [1, 2, 3, 4, 5, 6, 7, 8, 0])⟩] := by
    rfl
  have hpairs : (⟨[], some (goMap [0, 1, 2, 3, 4, 5, 6, 7, 8])⟩ : HashMap Nat).pairs =
      (⟨[], some (goMap [1, 2, 3, 4, 5, 6, 7, 8, 0])⟩ : HashMap Nat).pairs := by
    decide +kernel
  exact ⟨hrun₁, hrun₂, ((built_map_charges hrun₁ hrun₂ rfl rfl fun p => by rw [hpairs]).1 _).2⟩

end

end HashMap

end Core

end Lispico
