import Lispico.Reader.Parser
import Lispico.Core.HashMapRefinement
import Lispico.Core.List

/-!
# How the collections that are read are stored

The reader has its own insertion into a map under construction and its own linking of a
long list, with the charges between their steps. What they leave is what `Set` and
`NewList` leave, in contents and in the form it is stored in.
-/

namespace Lispico

namespace Reader

namespace Stored

open Lispico.Core Lib Guarded

section Maps

variable {V : Type} {m : HashMap V}

/-- `mapSet`. The Go map of a literal is made with its first entries and is never nil. -/
def mapSet (m : HashMap V) (key : Key) (val : V) : Guarded Budget GrowthPlan GoErr (HashMap V) :=
  match Core.toHashKey key with
  | .error err => fail (.plain err)
  | .ok hk => do
      spend (Budget.work (hk.str.utf8ByteSize + 1))
      let e : Entry V := ⟨hk, key, val⟩
      match m.large with
      | some l =>
        let held := l.m.getD []
        -- no memo can have been made of a map that is not shared yet
        let stored : HashMap V := ⟨m.entries, some { l with m := some (HashMap.mapSet held e) }⟩
        insertLarge (GrowthPlan.admitGrowth (held.length + 1)) (HashMap.mapGet held hk).isSome
          stored fun _ => stored
      | none =>
        let i := (m.find hk).1
        let large := HashMap.mapSet (m.entries.foldl HashMap.mapSet []) e
        insertSmall (GrowthPlan.admitGrowth (m.entries.length + 1)) (m.find hk) m.entries.length
          ⟨m.entries.set i e, none⟩
          (fun _ => ⟨m.entries.take i ++ [e] ++ m.entries.drop i, none⟩)
          fun _ => ⟨[], some ⟨some large, none, 0, none⟩⟩

/-- The pairs of a map literal that have been read and the map they are in. What is read
between two of them may leave any budget. -/
inductive Literal : List (Key × V) → HashMap V → Prop where
  | start : Literal [] HashMap.newHashMap
  | insert {ps : List (Key × V)} {m m' : HashMap V} {key : Key} {val : V} (plan : GrowthPlan)
      (b : Option Budget) (h : Literal ps m) (hset : (mapSet m key val plan b).1 = .ok m') :
      Literal (ps ++ [(key, val)]) m'

/-- The calls of `Set` on a new map. -/
def setAll (ps : List (Key × V)) : Option (Except String (HashMap V)) :=
  ps.foldl (fun r p => r.bind fun
    | .ok h => h.set p.1 p.2
    | .error err => some (.error err)) (some (.ok HashMap.newHashMap))

def lastValue (ps : List (Key × V)) (hk : HashKey) : Option V :=
  (ps.reverse.find? fun p => (Core.toHashKey p.1).toOption = some hk).map Prod.snd

/-- A map in the large form is a Go map that was never converted. -/
def Unshared (m : HashMap V) : Prop :=
  ∀ l, m.large = some l → l.m.isSome ∧ l.root = none ∧ l.memo = none

theorem mapSet_gives (h : Unshared m) (key : Key) (val : V) :
    Gives (mapSet m key val) fun m' => m.set key val = some (.ok m') ∧ Unshared m' ∧
      ∃ hk, Core.toHashKey key = .ok hk := by
  unfold mapSet HashMap.set
  cases hkey : Core.toHashKey key with
  | error err =>
    rintro s b a ⟨⟩
  | ok hk =>
    refine .after fun _ => ?_
    obtain ⟨entries, large⟩ := m
    cases large with
    | some l =>
      obtain ⟨m, root, count, memo⟩ := l
      obtain ⟨hm, hroot, hmemo⟩ := h _ rfl
      obtain ⟨m, rfl⟩ := Option.isSome_iff_exists.1 hm
      cases hroot
      cases hmemo
      have hstored : Unshared (V := V)
          ⟨entries, some ⟨some (HashMap.mapSet m ⟨hk, key, val⟩), none, count, none⟩⟩ := by
        rintro l ⟨⟩
        exact ⟨rfl, rfl, rfl⟩
      dsimp only [insertLarge]
      split_ifs
      · exact .ret ⟨rfl, hstored, hk, rfl⟩
      · exact .after fun _ => .ret ⟨rfl, hstored, hk, rfl⟩
    | none =>
      dsimp only [insertSmall]
      generalize HashMap.find _ hk = place
      obtain ⟨i, found⟩ := place
      refine .after fun _ => ?_
      cases found with
      | true => exact .ret ⟨rfl, nofun, hk, rfl⟩
      | false =>
        simp only [Bool.false_eq_true, if_false]
        split_ifs
        · refine .after fun _ => .after fun _ => .ret ⟨rfl, ?_, hk, rfl⟩
          rintro l ⟨⟩
          exact ⟨rfl, rfl, rfl⟩
        · exact .after fun _ => .ret ⟨rfl, nofun, hk, rfl⟩

theorem lastValue_snoc (ps : List (Key × V)) {key : Key} {hk : HashKey}
    (hkey : Core.toHashKey key = .ok hk) (val : V) :
    lastValue (ps ++ [(key, val)]) = Function.update (lastValue ps) hk (some val) := by
  funext hk'
  unfold lastValue
  rw [List.reverse_append, List.reverse_singleton, List.singleton_append, List.find?_cons]
  by_cases h : hk' = hk
  · subst h
    simp [hkey, Except.toOption]
  · simp [hkey, Except.toOption, Ne.symm h, h]

theorem Literal.stored {ps : List (Key × V)} (h : Literal ps m) :
    setAll ps = some (.ok m) ∧ Unshared m ∧
      ∃ f, HashMap.Rep m f ∧ ∀ hk, (f hk).map Entry.v = lastValue ps hk := by
  induction h with
  | start => exact ⟨rfl, nofun, _, HashMap.rep_newHashMap, fun _ => rfl⟩
  | @insert ps m m' key val plan b h hset ih =>
    obtain ⟨hall, hunshared, f, hrep, hlast⟩ := ih
    obtain ⟨hstep, hunshared', hk, hkey⟩ := mapSet_gives hunshared key val plan b m' hset
    have hlive : ¬ HashMap.Emptied m := by
      rintro ⟨l, hlarge, -, hnil⟩
      have hm := (hunshared l hlarge).1
      rw [hnil] at hm
      cases hm
    obtain ⟨m'', hset', hrep'⟩ := hrep.set hlive hkey val
    cases hstep.symm.trans hset'
    refine ⟨?_, hunshared', _, hrep', fun hk' => ?_⟩
    · rw [setAll, List.foldl_append]
      change (setAll ps).bind _ = _
      rw [hall]
      exact hstep
    · rw [lastValue_snoc ps hkey, Function.update_apply, Function.update_apply, ← hlast]
      split_ifs <;> rfl

end Maps

section Lists

variable {S α : Type} (m : ListMem α)

def linkCell (item : α) (count : Nat) (chain : Heap (ListNode α) × Option Addr) :
    Heap (ListNode α) × Option Addr :=
  let (nodes, cell) := chain.1.alloc ⟨item, chain.2, count⟩
  (nodes, some cell)

def newGuardedListChain (nodes : Heap (ListNode α)) (items : List α) :
    Guarded Budget S GoErr (Heap (ListNode α) × Option Addr) :=
  linkCells linkCell items.reverse 0 (nodes, none)

def buildList (items : Slice) : Guarded Budget S GoErr (ListMem α × LispList) :=
  if items.len ≤ Core.listFlatThreshold then ret (LispList.newList m items)
  else do
    spend (Budget.admitListCells items.len)
    let (nodes, chain) ← newGuardedListChain m.nodes (items.view m.arrays)
    ret (⟨m.arrays, nodes⟩, ⟨Slice.nil, chain⟩)

/-- The loop has linked `xs`, and `ys` are left. -/
theorem linkCells_gives {P : Heap (ListNode α) × Option Addr → Prop} (xs ys : List α) (k : Nat)
    (chain : Heap (ListNode α) × Option Addr)
    (h : Gives (linkCells linkCell ys xs.length ((xs.zipIdx k).foldr
      (fun x => linkCell x.1 (k + xs.length - x.2)) chain) : Guarded Budget S GoErr _) P) :
    Gives (linkCells linkCell (xs.reverse ++ ys) 0 chain : Guarded Budget S GoErr _) P := by
  induction xs generalizing ys k with
  | nil => exact h
  | cons x xs ih =>
    rw [List.reverse_cons, List.append_assoc]
    refine ih (x :: ys) (k + 1) ?_
    have hcount : k + (xs.length + 1) - k = xs.length + 1 := by omega
    rw [List.length_cons, List.zipIdx_cons, List.foldr_cons, hcount, ← Nat.add_assoc k,
      Nat.add_right_comm k] at h
    unfold linkCells
    split_ifs
    · exact .after fun _ => h
    · exact h

theorem buildList_gives (items : Slice) :
    Gives (buildList m items : Guarded Budget S GoErr _) (· = LispList.newList m items) := by
  unfold buildList
  split_ifs with hflat
  · exact .ret rfl
  · have hchain := linkCells_gives (S := S) (items.view m.arrays) [] 0 (m.nodes, none)
      (P := (· = _)) (.ret rfl)
    rw [List.append_nil, Nat.zero_add] at hchain
    refine .after fun _ => .bind hchain ?_
    rintro out rfl
    refine .ret ?_
    rw [LispList.newList, if_neg hflat]
    rfl

end Lists

/-- The map of a literal is the one that `Set` builds from its pairs, in the same form, and
has the last value of every key; the list of a literal is the one that `NewList` makes. -/
theorem literals_stored_as_built {V α S : Type} :
    (∀ (ps : List (Key × V)) (m : HashMap V), Literal ps m →
      setAll ps = some (.ok m) ∧ ∀ hk, m.getByHashKey hk = some (lastValue ps hk)) ∧
    ∀ (m : ListMem α) (items : Slice) (s : S) (b : Option Budget) (out : ListMem α × LispList),
      (buildList m items s b).1 = .ok out → out = LispList.newList m items := by
  refine ⟨fun ps m h => ?_, fun m items => buildList_gives m items⟩
  obtain ⟨hall, -, f, hrep, hlast⟩ := h.stored
  refine ⟨hall, fun hk => ?_⟩
  rw [hrep.getByHashKey, hlast]

def keyTwice : List (Key × Nat) := [(.keyword "a", 1), (.keyword "a", 2)]

theorem literals_stored_as_built_keyTwice :
    setAll keyTwice = some (.ok ⟨[⟨⟨.hkKeyword, 0, "a"⟩, .keyword "a", 2⟩], none⟩) ∧
      lastValue keyTwice ⟨.hkKeyword, 0, "a"⟩ = some 2 :=
  ⟨((literals_stored_as_built (α := Nat) (S := Unit)).1 keyTwice _
    (.insert ⟨0, 0⟩ none (.insert ⟨0, 0⟩ none .start (by rfl)) (by rfl))).1, by rfl⟩

end Stored

end Reader

end Lispico
