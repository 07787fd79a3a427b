import Lispico.Core.HashMap
import Lispico.Core.HamtRefinement

/-!
# Maps stand for finite maps

`Rep h f` says that the map, in whichever form, has for each key the entry that `f` gives.
`Assoc`, `Dissoc` and `Set` bind or clear one key, but a trie that loses its last key is left
with neither a root nor a Go map, and `Set` on it writes to a nil map.
-/

namespace Lispico

namespace Core

open Lib Function List Keyed

namespace HashMap

open HamtNode (Bindings NodeRep)

section

variable {V : Type}

def Sorted (es : List (Entry V)) : Prop := es.Pairwise fun a b => a.hk.rank < b.hk.rank

variable {es : List (Entry V)}

theorem Sorted.distinct (h : Sorted es) : Keyed.Distinct Entry.hk es := by
  refine pairwise_map.2 (h.imp ?_)
  intro a b hlt heq
  rw [heq] at hlt
  exact lt_irrefl _ hlt

/-- `find` on sorted entries: the key is at the index, or belongs between what is before
and what is after it. -/
theorem findFrom_spec (hk : HashKey) (h : Sorted es) (i : Nat) :
    (∃ j e, findFrom hk es i = (i + j, true) ∧ es[j]? = some e ∧ e.hk = hk) ∨
    (∃ j, findFrom hk es i = (i + j, false) ∧ (∀ e ∈ es.take j, e.hk.rank < hk.rank) ∧
      ∀ e ∈ es.drop j, hk.rank < e.hk.rank) := by
  induction es generalizing i with
  | nil => exact .inr ⟨0, rfl, by simp, by simp⟩
  | cons x es ih =>
    obtain ⟨hx, hes⟩ := pairwise_cons.1 h
    by_cases heq : x.hk = hk
    · exact .inl ⟨0, x, by simp [findFrom, heq], rfl, heq⟩
    by_cases hless : hk.less x.hk = true
    · refine .inr ⟨0, by simp [findFrom, heq, hless], by simp, ?_⟩
      have hlt := (HashKey.less_iff_rank_lt hk x.hk).1 hless
      intro e he
      rcases mem_cons.1 he with rfl | he
      · exact hlt
      · exact hlt.trans (hx e he)
    · have hstep : findFrom hk (x :: es) i = findFrom hk es (i + 1) := by
        simp [findFrom, heq, hless]
      have hlt : x.hk.rank < hk.rank := by
        rw [HashKey.less_iff_rank_lt, not_lt] at hless
        exact lt_of_le_of_ne hless fun h => heq (HashKey.rank_injective h)
      rcases ih hes (i + 1) with ⟨j, e, hfind, hget, hkey⟩ | ⟨j, hfind, hbefore, hafter⟩
      · refine .inl ⟨j + 1, e, ?_, by simpa using hget, hkey⟩
        rw [hstep, hfind, Nat.add_assoc, Nat.add_comm 1]
      · refine .inr ⟨j + 1, ?_, ?_, by simpa using hafter⟩
        · rw [hstep, hfind, Nat.add_assoc, Nat.add_comm 1]
        · intro e he
          rw [take_succ_cons, mem_cons] at he
          rcases he with rfl | he
          · exact hlt
          · exact hbefore e he

variable {h : HashMap V}

theorem find_cases (hs : Sorted h.entries) (hk : HashKey) :
    (∃ i e, h.find hk = (i, true) ∧ h.entries[i]? = some e ∧ e.hk = hk) ∨
    (∃ i, h.find hk = (i, false) ∧ (∀ e ∈ h.entries.take i, e.hk.rank < hk.rank) ∧
      (∀ e ∈ h.entries.drop i, hk.rank < e.hk.rank) ∧ ∀ e ∈ h.entries, e.hk ≠ hk) := by
  rcases findFrom_spec hk hs 0 with ⟨j, e, hfind, hget, hkey⟩ | ⟨j, hfind, hbefore, hafter⟩
  · exact .inl ⟨j, e, by rw [find, hfind, Nat.zero_add], hget, hkey⟩
  · refine .inr ⟨j, by rw [find, hfind, Nat.zero_add], hbefore, hafter, ?_⟩
    intro e he hkey
    rw [← take_append_drop j h.entries, mem_append] at he
    rcases he with he | he
    · exact lt_irrefl _ (hkey ▸ hbefore e he)
    · exact lt_irrefl _ (hkey ▸ hafter e he)

variable {e : Entry V}

theorem Sorted.insert (h : Sorted es) {i : Nat} (hbefore : ∀ x ∈ es.take i, x.hk.rank < e.hk.rank)
    (hafter : ∀ x ∈ es.drop i, e.hk.rank < x.hk.rank) :
    Sorted (es.take i ++ [e] ++ es.drop i) := by
  rw [Sorted, append_assoc, pairwise_append]
  have hsplit := h
  rw [← take_append_drop i es, Sorted, pairwise_append] at hsplit
  obtain ⟨htake, hdrop, hcross⟩ := hsplit
  refine ⟨htake, ?_, ?_⟩
  · rw [singleton_append, pairwise_cons]
    exact ⟨hafter, hdrop⟩
  · intro x hx y hy
    rw [singleton_append, mem_cons] at hy
    rcases hy with rfl | hy
    · exact hbefore x hx
    · exact hcross x hx y hy

theorem Sorted.set (h : Sorted es) {i : Nat} {x : Entry V} (hx : es[i]? = some x)
    (hkey : x.hk = e.hk) : Sorted (es.set i e) := by
  have hmap : (es.set i e).map Entry.hk = es.map Entry.hk := by
    apply ext_getElem?
    intro j
    rw [getElem?_map, getElem?_map]
    by_cases hij : i = j
    · subst hij
      obtain ⟨hi, -⟩ := List.getElem?_eq_some_iff.1 hx
      rw [getElem?_set_self hi, hx, Option.map_some, Option.map_some, hkey]
    · rw [getElem?_set_ne hij]
  have hpair : ∀ l : List (Entry V),
      Sorted l ↔ (l.map Entry.hk).Pairwise fun a b => a.rank < b.rank := by
    intro l
    rw [Sorted, pairwise_map]
  rw [hpair, hmap, ← hpair]
  exact h

theorem mapSet_spec {m : List (Entry V)} (h : Keyed.Distinct Entry.hk m) (e : Entry V) :
    Keyed.Distinct Entry.hk (mapSet m e) ∧ Keyed.lookup Entry.hk (mapSet m e) =
        update (Keyed.lookup Entry.hk m) e.hk (some e) := by
  suffices hperm : (∃ x ys, m.Perm (x :: ys) ∧ x.hk = e.hk ∧ (e :: ys).Perm (mapSet m e)) ∨
      ((∀ y ∈ m, y.hk ≠ e.hk) ∧ (e :: m).Perm (mapSet m e)) by
    rcases hperm with ⟨x, ys, hp, hkey, hz⟩ | ⟨hnew, hp⟩
    · exact Keyed.replace h hp hkey hz
    · exact insert_anywhere h hnew hp
  clear h
  induction m with
  | nil => exact .inr ⟨by simp, .refl _⟩
  | cons x m ih =>
    rw [mapSet]
    by_cases hkey : x.hk = e.hk
    · rw [if_pos hkey]
      exact .inl ⟨x, m, .refl _, hkey, .refl _⟩
    · rw [if_neg hkey]
      rcases ih with ⟨y, ys, hp, hy, hz⟩ | ⟨hnew, hp⟩
      · exact .inl ⟨y, x :: ys, (hp.cons x).trans (.swap y x ys), hy,
          (List.Perm.swap x e ys).trans (hz.cons x)⟩
      · refine .inr ⟨?_, (List.Perm.swap x e m).trans (hp.cons x)⟩
        intro y hy
        rcases mem_cons.1 hy with rfl | hy
        · exact hkey
        · exact hnew y hy

theorem foldl_mapSet_spec {es m : List (Entry V)} (h : Keyed.Distinct Entry.hk m) :
    Keyed.Distinct Entry.hk (es.foldl mapSet m) ∧ Keyed.lookup Entry.hk (es.foldl mapSet m) =
        Keyed.bindAll Entry.hk (Keyed.lookup Entry.hk m) es := by
  induction es generalizing m with
  | nil => exact ⟨h, rfl⟩
  | cons e es ih =>
    obtain ⟨hd, hlook⟩ := mapSet_spec h e
    rw [foldl_cons, bindAll_cons, ← hlook]
    exact ih hd

theorem foldl_mapSet_nil (h : Keyed.Distinct Entry.hk es) :
    Keyed.Distinct Entry.hk (es.foldl mapSet []) ∧
      Keyed.lookup Entry.hk (es.foldl mapSet []) = Keyed.lookup Entry.hk es := by
  obtain ⟨hd, hlook⟩ := @foldl_mapSet_spec V es [] nodup_nil
  rw [bindAll_eq h] at hlook
  refine ⟨hd, hlook.trans (funext fun k => ?_)⟩
  exact Option.or_none

variable {root : HamtNode V} {f : Bindings V} {l : LargeMap V}

theorem addAll_spec (es : List (Entry V)) (h : NodeRep HamtNode.levels 0 root f) (bytes : Int) :
    ∃ root' bytes', addAll (root, bytes) es = some (root', bytes') ∧
      NodeRep HamtNode.levels 0 root' (Keyed.bindAll Entry.hk f es) := by
  induction es generalizing root f bytes with
  | nil => exact ⟨root, bytes, rfl, h⟩
  | cons e es ih =>
    obtain ⟨next, b, hassoc, hrep⟩ := NodeRep.assoc h (by decide) e
    obtain ⟨root', bytes', hrest, hrep'⟩ := ih hrep (bytes + b)
    refine ⟨root', bytes', ?_, hrep'⟩
    have hstep : root.assoc HamtNode.levels e (hashOfKey e.hk) 0 =
        some (next, b, (f e.hk).isNone) := hassoc
    rw [addAll, foldlM_cons]
    simp only [hstep, Option.bind_eq_bind, Option.bind_some]
    exact hrest

theorem addAll_empty (h : Keyed.Distinct Entry.hk es) (bytes : Int) :
    ∃ root bytes', addAll (HamtNode.empty, bytes) es = some (root, bytes') ∧
      NodeRep HamtNode.levels 0 root (Keyed.lookup Entry.hk es) := by
  obtain ⟨root, bytes', hrun, hrep⟩ := addAll_spec es HamtNode.nodeRep_empty bytes
  refine ⟨root, bytes', hrun, ?_⟩
  rw [bindAll_eq h] at hrep
  simpa using hrep

/-- The large form holds these entries: a trie with its count, or a Go map with a memo
that agrees with it. -/
def LargeRep (l : LargeMap V) (f : Bindings V) : Prop :=
  match l.root with
  | some root => NodeRep HamtNode.levels 0 root f ∧ Keyed.Finite f ∧ l.count = Keyed.size f
  | none => Keyed.Distinct Entry.hk (l.m.getD []) ∧ f = Keyed.lookup Entry.hk (l.m.getD []) ∧
      ∀ memo, l.memo = some memo → NodeRep HamtNode.levels 0 memo f

def Rep (h : HashMap V) (f : Bindings V) : Prop :=
  match h.large with
  | none => Sorted h.entries ∧ f = Keyed.lookup Entry.hk h.entries
  | some l => LargeRep l f

theorem LargeRep.finite (h : LargeRep l f) : Keyed.Finite f := by
  unfold LargeRep at h
  split at h
  · exact h.2.1
  · rw [h.2.1]
    exact finite_lookup _ _

theorem Rep.getByHashKey (hr : Rep h f) (hk : HashKey) :
    h.getByHashKey hk = some ((f hk).map Entry.v) := by
  unfold Rep at hr
  split at hr
  case h_1 hlarge =>
    obtain ⟨hs, rfl⟩ := hr
    rw [HashMap.getByHashKey, hlarge]
    rcases find_cases hs hk with ⟨i, e, hfind, hget, hkey⟩ | ⟨i, hfind, -, -, hnew⟩
    · have hlook := (lookup_eq_some_iff hs.distinct).2 ⟨mem_of_getElem? hget, hkey⟩
      simp [hfind, hget, hlook]
    · have hlook : Keyed.lookup Entry.hk h.entries hk = none := Keyed.lookup_eq_none_iff.2 hnew
      simp [hfind, hlook]
  case h_2 l hlarge =>
    rw [HashMap.getByHashKey, hlarge]
    unfold LargeRep at hr
    split at hr
    case h_1 root hroot =>
      simp only [hroot]
      exact hr.1.get hk
    case h_2 hroot =>
      obtain ⟨-, rfl, -⟩ := hr
      simp [hroot, mapGet, Keyed.lookup]

theorem Rep.len (hr : Rep h f) : h.len = Keyed.size f := by
  unfold Rep at hr
  split at hr
  case h_1 hlarge =>
    obtain ⟨hs, rfl⟩ := hr
    rw [HashMap.len, hlarge, size_lookup hs.distinct]
  case h_2 l hlarge =>
    rw [HashMap.len, hlarge]
    unfold LargeRep at hr
    split at hr
    case h_1 root hroot => simp only [hroot, hr.2.2]
    case h_2 hroot =>
      obtain ⟨hd, rfl, -⟩ := hr
      simp only [hroot, size_lookup hd]

theorem rep_newHashMap : Rep (newHashMap : HashMap V) fun _ => none :=
  ⟨.nil, rfl⟩

theorem LargeRep.trieRoot (hr : LargeRep l f) :
    ∃ root bytes l', trieRoot l = some (root, (Keyed.size f : Int), bytes, l') ∧
      NodeRep HamtNode.levels 0 root f ∧ LargeRep l' f := by
  have hrep := hr
  unfold LargeRep at hr
  split at hr
  case h_1 root hroot =>
    exact ⟨root, 0, l, by simp [HashMap.trieRoot, hroot, hr.2.2], hr.1, hrep⟩
  case h_2 hroot =>
    obtain ⟨hd, rfl, hmemo⟩ := hr
    rw [size_lookup hd]
    cases hm : l.memo with
    | some memo =>
      exact ⟨memo, 0, l, by simp [HashMap.trieRoot, hroot, hm], hmemo memo hm, hrep⟩
    | none =>
      have hperm : (sortedEntries (l.m.getD [])).Perm (l.m.getD []) :=
        perm_insertionSort _ _
      have hd' : Keyed.Distinct Entry.hk (sortedEntries (l.m.getD [])) :=
        (hperm.map Entry.hk).nodup_iff.2 hd
      obtain ⟨root, bytes, hrun, hroot'⟩ :=
        addAll_empty hd' (24 + (sortedEntries (l.m.getD [])).length * 64)
      rw [← lookup_perm hd' hperm] at hroot'
      refine ⟨root, bytes, { l with memo := some root }, ?_, hroot', ?_⟩
      · simp [HashMap.trieRoot, hroot, hm, trieFromBuildMap, hrun]
      · simp only [LargeRep, hroot]
        refine ⟨hd, trivial, ?_⟩
        rintro memo ⟨⟩
        exact hroot'

theorem rep_newTrie (h : NodeRep HamtNode.levels 0 root f) (hfin : Keyed.Finite f) :
    Rep (newTrie (some root) (Keyed.size f)) f :=
  ⟨h, hfin, rfl⟩

theorem nodeRep_bind (h : NodeRep HamtNode.levels 0 root f) (hfin : Keyed.Finite f)
    (e : Entry V) :
    ∃ next b added, root.assoc HamtNode.levels e (hashOfKey e.hk) 0 = some (next, b, added) ∧
      NodeRep HamtNode.levels 0 next (update f e.hk (some e)) ∧
      (if added then (Keyed.size f : Int) + 1 else Keyed.size f) =
        Keyed.size (update f e.hk (some e)) := by
  obtain ⟨next, b, hrun, hrep⟩ := NodeRep.assoc h (by decide) e
  refine ⟨next, b, _, hrun, hrep, ?_⟩
  rw [size_update_some hfin]
  split
  · exact (Nat.cast_succ _).symm
  · rfl

theorem nodeRep_clear (h : NodeRep HamtNode.levels 0 root f) (hfin : Keyed.Finite f)
    (hk : HashKey) :
    ∃ next b removed, root.dissoc HamtNode.levels hk (hashOfKey hk) 0 = some (next, b, removed) ∧
      Rep (newTrie next (if removed then (Keyed.size f : Int) - 1 else Keyed.size f))
        (update f hk none) := by
  obtain ⟨next, b, hrun, hrep⟩ := NodeRep.dissoc h hk
  refine ⟨next, b, _, hrun, ?_⟩
  cases next with
  | none =>
    have hempty : update f hk none = fun _ => none := hrep
    rw [hempty]
    exact ⟨nodup_nil, rfl, fun memo hmemo => by cases hmemo⟩
  | some next =>
    refine ⟨hrep.1, hfin.update hk none, ?_⟩
    rw [size_update_none hfin hk]
    split
    · exact (congrArg (· - 1) (Nat.cast_succ _)).trans (add_sub_cancel_right _ _)
    · rfl

theorem Sorted.bind (hs : Sorted h.entries) (e : Entry V) :
    (∃ i, h.find e.hk = (i, true) ∧ Sorted (h.entries.set i e) ∧
      update (Keyed.lookup Entry.hk h.entries) e.hk (some e) =
        Keyed.lookup Entry.hk (h.entries.set i e)) ∨
    (∃ i, h.find e.hk = (i, false) ∧ (∀ x ∈ h.entries, x.hk ≠ e.hk) ∧
      Sorted (h.entries.take i ++ [e] ++ h.entries.drop i) ∧
      update (Keyed.lookup Entry.hk h.entries) e.hk (some e) =
        Keyed.lookup Entry.hk (h.entries.take i ++ [e] ++ h.entries.drop i)) := by
  rcases find_cases hs e.hk with ⟨i, x, hfind, hget, hkey⟩ | ⟨i, hfind, hlt, hgt, hnew⟩
  · obtain ⟨-, hlook⟩ := Keyed.replace hs.distinct (perm_take_drop hget) hkey
      (perm_set hget e)
    exact Or.inl ⟨i, hfind, hs.set hget hkey, hlook.symm⟩
  · have hperm : (e :: h.entries).Perm (h.entries.take i ++ [e] ++ h.entries.drop i) := by
      rw [append_assoc, singleton_append]
      refine List.Perm.trans ?_ List.perm_middle.symm
      rw [take_append_drop]
    obtain ⟨-, hlook⟩ := insert_anywhere hs.distinct hnew hperm
    exact Or.inr ⟨i, hfind, hnew, hs.insert hlt hgt, hlook.symm⟩

theorem newTrieFromEntries_spec (h : Keyed.Distinct Entry.hk es) (hnew : ∀ x ∈ es, x.hk ≠ e.hk) :
    ∃ root bytes, newTrieFromEntries es e = some (root, bytes) ∧
      Rep (newTrie (some root) (es.length + 1))
        (update (Keyed.lookup Entry.hk es) e.hk (some e)) := by
  have hperm : (e :: es).Perm (es ++ [e]) := (perm_append_singleton e es).symm
  obtain ⟨hd, hlook⟩ := insert_anywhere h hnew hperm
  obtain ⟨root, bytes, hrun, hrep⟩ := addAll_empty hd 0
  refine ⟨root, bytes, hrun, ?_⟩
  rw [← hlook]
  refine ⟨hrep, finite_lookup _ _, ?_⟩
  rw [size_lookup hd, length_append]
  rfl

variable {key : Key} {hk : HashKey}

theorem Rep.assoc (hr : Rep h f) (hkey : toHashKey key = .ok hk) (val : V) :
    ∃ d, h.assoc key val = some (.ok d) ∧ Rep d.receiver f ∧
      Rep d.map (update f hk (some ⟨hk, key, val⟩)) := by
  have hrep := hr
  unfold Rep at hr
  split at hr
  case h_1 hlarge =>
    obtain ⟨hs, rfl⟩ := hr
    rcases hs.bind ⟨hk, key, val⟩ with ⟨i, hfind, hs', hlook⟩ | ⟨i, hfind, hnew, hs', hlook⟩
    · refine ⟨⟨h, ⟨h.entries.set i ⟨hk, key, val⟩, none⟩,
        hashMapShallowBytes (h.entries.set i ⟨hk, key, val⟩).length⟩, ?_, hrep, ⟨hs', hlook⟩⟩
      simp only [HashMap.assoc, hkey, hlarge, hfind]
    by_cases hlen : h.entries.length ≥ hashMapSmallLimit
    · obtain ⟨root, bytes, hrun, htrie⟩ := newTrieFromEntries_spec hs.distinct hnew
      refine ⟨⟨h, newTrie (some root) (h.entries.length + 1), bytes⟩, ?_, hrep, htrie⟩
      simp [HashMap.assoc, hkey, hlarge, hfind, hlen, hrun]
    · refine ⟨⟨h, ⟨h.entries.take i ++ [⟨hk, key, val⟩] ++ h.entries.drop i, none⟩,
        hashMapShallowBytes (h.entries.take i ++ [(⟨hk, key, val⟩ : Entry V)] ++
          h.entries.drop i).length⟩, ?_, hrep, ⟨hs', hlook⟩⟩
      simp only [HashMap.assoc, hkey, hlarge, hfind, if_neg hlen]
  case h_2 l hlarge =>
    obtain ⟨root, bytes, l', hroot, hnode, hl'⟩ := hr.trieRoot
    obtain ⟨next, b, added, hrun, hnext, hcount⟩ :=
      nodeRep_bind hnode hr.finite ⟨hk, key, val⟩
    refine ⟨⟨⟨h.entries, some l'⟩, newTrie (some next) _, bytes + b⟩, ?_, hl',
      rep_newTrie hnext (hr.finite.update _ _)⟩
    simp [HashMap.assoc, hkey, hlarge, hroot, hrun, ← hcount]

theorem Rep.dissoc (hr : Rep h f) (hkey : toHashKey key = .ok hk) :
    ∃ d, h.dissoc key = some (.ok d) ∧ Rep d.receiver f ∧ Rep d.map (update f hk none) := by
  have hrep := hr
  unfold Rep at hr
  split at hr
  case h_1 hlarge =>
    obtain ⟨hs, rfl⟩ := hr
    refine ⟨⟨h, ⟨h.entries.filter fun e => e.hk ≠ hk, none⟩,
      hashMapShallowBytes (h.entries.filter fun e => e.hk ≠ hk).length⟩, ?_, hrep,
      ⟨hs.filter _, (lookup_filter _ _ _).symm⟩⟩
    simp only [HashMap.dissoc, hkey, hlarge]
  case h_2 l hlarge =>
    obtain ⟨root, bytes, l', hroot, hnode, hl'⟩ := hr.trieRoot
    obtain ⟨next, b, removed, hrun, hnext⟩ := nodeRep_clear hnode hr.finite hk
    refine ⟨⟨⟨h.entries, some l'⟩, newTrie next _, bytes + b⟩, ?_, hl', hnext⟩
    simp [HashMap.dissoc, hkey, hlarge, hroot, hrun]

/-- A trie that lost its last key: the large form with neither a root nor a Go map. -/
def Emptied (h : HashMap V) : Prop := ∃ l, h.large = some l ∧ l.root = none ∧ l.m = none

theorem Rep.set (hr : Rep h f) (hlive : ¬ Emptied h) (hkey : toHashKey key = .ok hk) (val : V) :
    ∃ h', h.set key val = some (.ok h') ∧ Rep h' (update f hk (some ⟨hk, key, val⟩)) := by
  unfold Rep at hr
  split at hr
  case h_1 hlarge =>
    obtain ⟨hs, rfl⟩ := hr
    rcases hs.bind ⟨hk, key, val⟩ with ⟨i, hfind, hs', hlook⟩ | ⟨i, hfind, hnew, hs', hlook⟩
    · refine ⟨⟨h.entries.set i ⟨hk, key, val⟩, none⟩, ?_, ⟨hs', hlook⟩⟩
      simp [HashMap.set, hkey, hlarge, hfind]
    by_cases hlen : h.entries.length ≥ hashMapSmallLimit
    · obtain ⟨hd, hmap⟩ := foldl_mapSet_nil hs.distinct
      obtain ⟨hd', hmap'⟩ := mapSet_spec hd ⟨hk, key, val⟩
      refine ⟨⟨[], some ⟨some (mapSet (h.entries.foldl mapSet []) ⟨hk, key, val⟩), none, 0,
        none⟩⟩,
        ?_, hd', ?_, fun memo hmemo => by cases hmemo⟩
      · simp [HashMap.set, hkey, hlarge, hfind, hlen]
      · rw [Option.getD_some, hmap', hmap]
    · refine ⟨⟨h.entries.take i ++ [⟨hk, key, val⟩] ++ h.entries.drop i, none⟩, ?_, ⟨hs', hlook⟩⟩
      simp [HashMap.set, hkey, hlarge, hfind, hlen]
  case h_2 l hlarge =>
    unfold LargeRep at hr
    split at hr
    case h_1 root hroot =>
      obtain ⟨hnode, hfin, hcount⟩ := hr
      obtain ⟨next, b, added, hrun, hnext, hcount'⟩ := nodeRep_bind hnode hfin ⟨hk, key, val⟩
      refine ⟨⟨h.entries, some ⟨l.m, some next, _, none⟩⟩, ?_, hnext, hfin.update _ _, rfl⟩
      simp [HashMap.set, hkey, hlarge, hroot, hrun, hcount, ← hcount']
    case h_2 hroot =>
      obtain ⟨hd, rfl, -⟩ := hr
      cases hm : l.m with
      | none => exact absurd ⟨l, hlarge, hroot, hm⟩ hlive
      | some m =>
        rw [hm, Option.getD_some] at hd
        obtain ⟨hd', hlook⟩ := mapSet_spec hd ⟨hk, key, val⟩
        refine ⟨⟨h.entries, some ⟨some (mapSet m ⟨hk, key, val⟩), none, l.count, none⟩⟩,
          ?_, hd', hlook.symm, fun memo hmemo => by cases hmemo⟩
        simp [HashMap.set, hkey, hlarge, hroot, hm]

theorem set_emptied (he : Emptied h) (hkey : toHashKey key = .ok hk) (val : V) :
    h.set key val = none := by
  obtain ⟨l, hlarge, hroot, hm⟩ := he
  simp [HashMap.set, hkey, hlarge, hroot, hm]

end

end HashMap

end Core

end Lispico
