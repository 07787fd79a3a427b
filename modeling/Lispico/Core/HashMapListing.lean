import Lispico.Core.HashMapRuns
import Lispico.Core.Printing

/-!
# Listing a map

`Pairs`, `Each` and `String` go through a sorted walk. Along a run the walk lists each entry
once, and the order of hash keys is strict and total, so the sorted listing is settled by the
entries and does not show how a map was built.
-/

namespace Lispico

namespace Core

open Lib List

namespace HamtNode

section

variable {V : Type}

mutual

/-- `each`: the entries of a node in storage order. -/
def each : HamtNode V → List (Entry V)
  | mk _ _ es cs => es ++ eachChild cs

def eachChild : List (HamtNode V) → List (Entry V)
  | [] => []
  | c :: cs => each c ++ eachChild cs

end

theorem each_eq (n : HamtNode V) : n.each = n.entries ++ eachChild n.children := by
  cases n
  rfl

theorem eachChild_eq_flatMap (cs : List (HamtNode V)) : eachChild cs = cs.flatMap each := by
  induction cs with
  | nil => rfl
  | cons c cs ih => rw [eachChild, ih, flatMap_cons]

/-- The entries have distinct hash keys, and are what `f` gives. -/
def Lists (es : List (Entry V)) (f : Bindings V) : Prop :=
  Keyed.Distinct Entry.hk es ∧ Keyed.lookup Entry.hk es = f

variable {es : List (Entry V)} {f : Bindings V} {e : Entry V}

theorem Lists.mem_iff (h : Lists es f) : e ∈ es ↔ f e.hk = some e := by
  rw [← h.2, Keyed.lookup_eq_some_iff h.1]
  simp

def Slot.listed : Slot V → List (Entry V)
  | empty => []
  | data e => [e]
  | child n _ => n.each

theorem Slot.lists {x : Slot V} (h : ∀ n g, x = .child n g → Lists n.each g) :
    Lists x.listed x.find := by
  cases x with
  | empty => exact ⟨nodup_nil, rfl⟩
  | data e => exact ⟨nodup_singleton _, (Keyed.lookup_cons e []).trans (find_data e).symm⟩
  | child n g => exact h n g rfl

variable {R : HamtNode V → Bindings V → Prop} {lvl shift : Nat} {n : HamtNode V}
  {s : Nat → Slot V}

/-- A walk lists the slots, in some order. -/
theorem BranchRep.each_perm (h : BranchRep R shift n f s) :
    n.each.Perm ((List.range 32).flatMap fun i => (s i).listed) := by
  rw [each_eq, eachChild_eq_flatMap, h.data.list, h.node.list]
  generalize List.range 32 = is
  induction is with
  | nil => exact List.Perm.refl _
  | cons i is ih =>
    rw [flatMap_cons]
    cases hs : s i with
    | empty => simpa [hs, Slot.listed, Slot.entryOf, Slot.child?] using ih
    | data e => simpa [hs, Slot.listed, Slot.entryOf, Slot.child?] using ih
    | child n' g =>
      simp only [filterMap_cons, hs, Slot.entryOf, Slot.child?, Slot.listed,
        flatMap_cons]
      refine (perm_append_comm_assoc _ _ _).trans ?_
      exact ih.append_left n'.each

theorem BranchRep.lists (h : BranchRep R shift n f s) (hkids : ∀ n g, R n g → Lists n.each g) :
    Lists n.each f := by
  have hslot (i : Nat) : Lists (s i).listed (s i).find :=
    Slot.lists fun n' g hi => hkids n' g (h.kids i n' g hi)
  have hd : Keyed.Distinct Entry.hk ((List.range 32).flatMap fun i => (s i).listed) := by
    rw [Keyed.Distinct, map_flatMap, nodup_flatMap]
    refine ⟨fun i _ => (hslot i).1, List.nodup_range.imp fun {i j} hne k hi hj => hne ?_⟩
    obtain ⟨e, he, rfl⟩ := List.mem_map.1 hi
    obtain ⟨e', he', hkey⟩ := List.mem_map.1 hj
    rw [← h.home i _ e ((hslot i).mem_iff.1 he), ← hkey]
    exact h.home j _ e' ((hslot j).mem_iff.1 he')
  refine ⟨(h.each_perm.map Entry.hk).nodup_iff.2 hd, ?_⟩
  rw [Keyed.lookup_perm hd h.each_perm.symm]
  funext hk
  refine Option.ext fun e => ?_
  rw [Keyed.lookup_eq_some_iff hd, h.sem hk, mem_flatMap]
  constructor
  · rintro ⟨⟨i, -, he⟩, rfl⟩
    have hfind := (hslot i).mem_iff.1 he
    rwa [h.home i _ e hfind]
  · intro hfind
    rw [← (hslot _).2, Keyed.lookup_eq_some_iff (hslot _).1] at hfind
    exact ⟨⟨_, List.mem_range.2 (slot_lt _ _), hfind.1⟩, hfind.2⟩

theorem NodeRep.lists (h : NodeRep lvl shift n f) : Lists n.each f := by
  induction lvl generalizing shift n f with
  | zero => exact h.elim
  | succ lvl ih =>
    unfold NodeRep at h
    split at h
    · rw [each_eq, h.kids, eachChild, append_nil]
      exact ⟨h.distinct, h.sem.symm⟩
    · obtain ⟨s, hs⟩ := h
      exact hs.lists fun _ _ h => ih h.1

end

end HamtNode

namespace HashMap

open HamtNode (Bindings NodeRep Lists)

section

variable {V : Type}

/-- `eachRaw`: the entries in storage order. -/
def eachRaw (h : HashMap V) : List (Entry V) :=
  match h.large with
  | some l =>
    match l.root with
    | some root => root.each
    | none => l.m.getD []
  | none => h.entries

/-- The method `sortedEntries`, for each of the three forms. -/
def sortedListing (h : HashMap V) : List (Entry V) :=
  match h.large with
  | none => h.entries
  | some _ => sortedEntries h.eachRaw

def pairs (h : HashMap V) : List (Key × V) := h.sortedListing.map fun e => (e.k, e.v)

/-- `Each`, with what the callback keeps passed from call to call. -/
def each {S : Type} (h : HashMap V) (fn : S → Key → V → S) (s : S) : S :=
  h.sortedListing.foldl (fun s e => fn s e.k e.v) s

/-- `String`, with the texts of the keys and values. -/
def string (keyText : Key → String) (text : V → String) (h : HashMap V) : String :=
  "\x7b" ++ Value.join (h.sortedListing.flatMap fun e => [keyText e.k, text e.v]) ++ "\x7d"

theorem perm_sortedEntries (m : List (Entry V)) : (sortedEntries m).Perm m :=
  perm_insertionSort _ _

variable {es : List (Entry V)} {f : Bindings V} {e : Entry V} {h : HashMap V} {f₁ f₂ : Bindings V}
  {h₁ h₂ : HashMap V}

theorem Tracked.eachRaw (ht : Tracked h f) : Lists h.eachRaw f := by
  have hrep := ht.rep
  unfold Rep at hrep
  split at hrep
  case h_1 hlarge =>
    rw [HashMap.eachRaw, hlarge]
    exact ⟨hrep.1.distinct, hrep.2.symm⟩
  case h_2 l hlarge =>
    rw [HashMap.eachRaw, hlarge]
    unfold LargeRep at hrep
    split at hrep
    case h_1 root hroot =>
      simp only [hroot]
      exact hrep.1.lists
    case h_2 hroot =>
      simp only [hroot]
      exact ⟨hrep.1, hrep.2.1.symm⟩

theorem sorted_sortedEntries (hd : Keyed.Distinct Entry.hk es) : Sorted (sortedEntries es) := by
  have hle : ∀ a b : Entry V, (¬ b.hk.less a.hk = true) ↔ a.hk.rank ≤ b.hk.rank := by
    intro a b
    rw [HashKey.less_iff_rank_lt, not_lt]
  have htotal : Std.Total fun a b : Entry V => ¬ b.hk.less a.hk = true :=
    ⟨fun a b => by rw [hle, hle]; exact le_total _ _⟩
  have htrans : IsTrans (Entry V) fun a b => ¬ b.hk.less a.hk = true :=
    ⟨fun a b c => by rw [hle, hle, hle]; exact le_trans⟩
  have hweak := pairwise_insertionSort (fun a b : Entry V => ¬ b.hk.less a.hk = true) es
  have hperm := perm_sortedEntries es
  have hne := List.pairwise_map.1 ((hperm.map Entry.hk).nodup_iff.2 hd)
  refine (hweak.and hne).imp ?_
  rintro a b ⟨hab, hkey⟩
  exact lt_of_le_of_ne ((hle a b).1 hab) fun heq => hkey (HashKey.rank_injective heq)

theorem Tracked.sortedListing (ht : Tracked h f) :
    Sorted h.sortedListing ∧ Lists h.sortedListing f := by
  have hlist := ht.eachRaw
  have hrep := ht.rep
  cases hlarge : h.large with
  | none =>
    simp only [Rep, hlarge] at hrep
    simp only [HashMap.sortedListing, hlarge]
    exact ⟨hrep.1, hrep.1.distinct, hrep.2.symm⟩
  | some l =>
    simp only [HashMap.sortedListing, hlarge]
    have hperm := perm_sortedEntries h.eachRaw
    refine ⟨sorted_sortedEntries hlist.1, (hperm.map Entry.hk).nodup_iff.2 hlist.1, ?_⟩
    rw [Keyed.lookup_perm hlist.1 hperm.symm]
    exact hlist.2

theorem Sorted.eq_of_mem_iff {xs ys : List (Entry V)} (hx : Sorted xs) (hy : Sorted ys)
    (h : ∀ e, e ∈ xs ↔ e ∈ ys) : xs = ys := by
  have hperm : xs.Perm ys :=
    (perm_ext_iff_of_nodup hx.distinct.of_map hy.distinct.of_map).2 h
  refine List.Perm.eq_of_pairwise ?_ hx hy hperm
  intro a b _ _ hab hba
  exact absurd (hab.trans hba) (lt_irrefl _)

theorem Tracked.mem_sortedListing (ht₁ : Tracked h₁ f₁)
    (ht₂ : Tracked h₂ f₂) (hsub : ∀ p ∈ h₁.pairs, p ∈ h₂.pairs) (he : e ∈ h₁.sortedListing) :
    e ∈ h₂.sortedListing := by
  obtain ⟨e', he', hp⟩ := List.mem_map.1 (hsub (e.k, e.v) (mem_map_of_mem he))
  have h₁ := ht₁.keyed _ _ (ht₁.sortedListing.2.mem_iff.1 he)
  have h₂ := ht₂.keyed _ _ (ht₂.sortedListing.2.mem_iff.1 he')
  obtain ⟨hk, hv⟩ := Prod.mk.inj hp
  rw [hk, h₁] at h₂
  cases e
  cases e'
  cases h₂
  cases hk
  cases hv
  exact he'

theorem Tracked.sortedListing_eq
    (ht₁ : Tracked h₁ f₁) (ht₂ : Tracked h₂ f₂) (hsame : ∀ p, p ∈ h₁.pairs ↔ p ∈ h₂.pairs) :
    h₁.sortedListing = h₂.sortedListing := by
  refine ht₁.sortedListing.1.eq_of_mem_iff ht₂.sortedListing.1 fun e => ⟨?_, ?_⟩
  · exact ht₁.mem_sortedListing ht₂ fun p => (hsame p).1
  · exact ht₂.mem_sortedListing ht₁ fun p => (hsame p).2

/-- Maps with the same pairs list them alike, by the strict total order of hash keys. -/
theorem listing_of_equal_contents {ops₁ ops₂ : List (Op V)} {pool₁ pool₂ : List (HashMap V)}
    (hrun₁ : run [newHashMap] ops₁ = some pool₁) (hrun₂ : run [newHashMap] ops₂ = some pool₂)
    {h₁ h₂ : HashMap V} (hmem₁ : h₁ ∈ pool₁) (hmem₂ : h₂ ∈ pool₂)
    (hsame : ∀ p, p ∈ h₁.pairs ↔ p ∈ h₂.pairs) :
    h₁.pairs = h₂.pairs ∧
    (∀ (S : Type) (fn : S → Key → V → S) (s : S), h₁.each fn s = h₂.each fn s) ∧
    (∀ keyText text, h₁.string keyText text = h₂.string keyText text) ∧
    h₁.sortedListing.Pairwise (fun a b => a.hk.less b.hk = true) ∧
    (∀ a : HashKey, a.less a = false) ∧
    (∀ a b c : HashKey, a.less b = true → b.less c = true → a.less c = true) ∧
    ∀ a b : HashKey, a ≠ b → (a.less b = true ↔ ¬ b.less a = true) := by
  obtain ⟨f₁, ht₁⟩ := reached_tracked hrun₁ h₁ hmem₁
  obtain ⟨f₂, ht₂⟩ := reached_tracked hrun₂ h₂ hmem₂
  have hlist := ht₁.sortedListing_eq ht₂ hsame
  refine ⟨?_, ?_, ?_, ?_, ?_, ?_, ?_⟩
  · rw [pairs, pairs, hlist]
  · intro S fn s
    rw [each, each, hlist]
  · intro keyText text
    rw [string, string, hlist]
  · refine ht₁.sortedListing.1.imp ?_
    intro a b hab
    exact (HashKey.less_iff_rank_lt _ _).2 hab
  · intro a
    rw [← Bool.not_eq_true, HashKey.less_iff_rank_lt]
    exact lt_irrefl _
  · intro a b c
    simp only [HashKey.less_iff_rank_lt]
    exact lt_trans
  · intro a b hne
    simp only [HashKey.less_iff_rank_lt, not_lt]
    refine ⟨le_of_lt, fun hle => lt_of_le_of_ne hle ?_⟩
    exact fun heq => hne (HashKey.rank_injective heq)

def intEntry (n : Int64) (v : Nat) : Entry Nat := ⟨⟨.hkInt, n.toUInt64, ""⟩, .int n, v⟩

/-- Two keys set in place, and assoc'ed in the other order. -/
theorem listing_of_two_orders : ∃ h₁ h₂ : HashMap Nat,
      run [newHashMap] [⟨0, .int 1, .set 7⟩, ⟨0, .int 2, .set 8⟩] = some [h₁] ∧
      (run [newHashMap] [⟨0, .int 2, .assoc 8⟩, ⟨1, .int 1, .assoc 7⟩]).bind List.getLast? =
        some h₂ ∧ h₁.pairs = h₂.pairs := by
  have hrun₁ : run [newHashMap] [⟨0, .int 1, .set 7⟩, ⟨0, .int 2, .set 8⟩] =
      some [⟨[intEntry 1 7, intEntry 2 8], none⟩] := by
    rfl
  have hrun₂ : run [newHashMap] [⟨0, .int 2, .assoc 8⟩, ⟨1, .int 1, .assoc 7⟩] =
      some [newHashMap, ⟨[intEntry 2 8], none⟩, ⟨[intEntry 1 7, intEntry 2 8], none⟩] := by
    rfl
  refine ⟨_, _, hrun₁, (by rw [hrun₂]; rfl), ?_⟩
  exact (listing_of_equal_contents hrun₁ hrun₂ (mem_singleton_self _)
    (mem_cons_of_mem _ (mem_cons_of_mem _ (mem_singleton_self _)))
    fun p => .rfl).1

theorem reads_single {x : HashKey → Option V}
    (hx : x = Function.update (fun _ => none) e.hk (some e.v)) :
    Reads (⟨[e], none⟩ : HashMap V) x := by
  have hr : Rep (⟨[e], none⟩ : HashMap V) (Keyed.lookup Entry.hk [e]) :=
    ⟨pairwise_singleton _ _, rfl⟩
  have hreads := hr.reads
  rw [Keyed.lookup_cons, values_update] at hreads
  exact hx ▸ hreads

/-- The zeros are one key to `Get`, and each is listed as it was given. -/
theorem pairs_of_signed_zeros : ∃ (h₁ h₂ : HashMap Nat) (x : HashKey → Option Nat),
      run [newHashMap] [⟨0, .float 0, .set 1⟩] = some [h₁] ∧
      run [newHashMap] [⟨0, .float negZeroBits, .set 1⟩] = some [h₂] ∧
      Reads h₁ x ∧ Reads h₂ x ∧ h₁.pairs ≠ h₂.pairs ∧
      ∀ keyText text, keyText (.float 0) = "0" → keyText (.float negZeroBits) = "-0" →
        text 1 = "1" → h₁.string keyText text ≠ h₂.string keyText text := by
  have hrun₁ : run [newHashMap] [⟨0, .float 0, .set 1⟩] =
      some [⟨[⟨⟨.hkFloat, 0, ""⟩, .float 0, 1⟩], none⟩] := by
    rfl
  have hrun₂ : run [newHashMap] [⟨0, .float negZeroBits, .set 1⟩] =
      some [⟨[⟨⟨.hkFloat, 0, ""⟩, .float negZeroBits, 1⟩], none⟩] := by
    rfl
  refine ⟨_, _, _, hrun₁, hrun₂, reads_single rfl, reads_single rfl, by decide, ?_⟩
  intro keyText text hpos hneg hone
  simp [string, sortedListing, hpos, hneg, hone, Value.join]

end

end HashMap

end Core

end Lispico
