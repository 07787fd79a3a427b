import Lispico.Core.VectorTrie

/-!
# Vectors stand for sequences

`Rep m v xs` says that the vector stands for `xs` on the memory `m`. The loop of `Conj` appends
to its tail in place; `ConjInv` keeps an older memory, on which the trie is represented and to
which the tail does not belong.
-/

namespace Lispico

namespace Core

open Lib List Slice

namespace LispVector

section

variable {α : Type}

/-- The vector stands for the sequence: its slice holds it, or its trie and then its
tail do. Only a sequence too long for one leaf is kept in a trie. -/
def Rep (m : VecMem α) (v : LispVector) (xs : List α) : Prop :=
  match v.root with
  | none => v.flat.Valid m.arrays ∧ v.flat.view m.arrays = xs
  | some a => ∃ txs, TrieRep m (some a) v.shift txs ∧ v.tail.Valid m.arrays ∧
      xs = txs ++ v.tail.view m.arrays ∧ v.tail.len ≤ 32 ∧ v.count = xs.length ∧
      32 < xs.length

variable {m : VecMem α} {v : LispVector} {xs : List α}

theorem Rep.mono {m' : VecMem α} (hm : m ≤ m') (h : Rep m v xs) : Rep m' v xs := by
  unfold Rep at h ⊢
  split at h
  · obtain ⟨hv, hview⟩ := h
    exact ⟨(hv.extends hm.1).1, (hv.extends hm.1).2.trans hview⟩
  · obtain ⟨txs, htrie, hv, hxs, hle, hcount⟩ := h
    obtain ⟨hv', hview'⟩ := hv.extends hm.1
    exact ⟨txs, htrie.mono hm, hv', by rw [hview', hxs], hle, hcount⟩

structure Describes [Inhabited α] (m : VecMem α) (v : LispVector) (xs : List α) : Prop where
  len : v.len = xs.length
  at? : ∀ i : Int, v.at? m i = if i < 0 then none else xs[i.toNat]?
  toSlice : ∃ m' s, v.toSlice m = some (m', s) ∧ m ≤ m' ∧
    s.Valid m'.arrays ∧ s.view m'.arrays = xs

theorem describes_flat [Inhabited α] (hroot : v.root = none) (hv : v.flat.Valid m.arrays)
    (hview : v.flat.view m.arrays = xs) : Describes m v xs := by
  have hlen : v.flat.len = xs.length := by rw [← hv.length_view, hview]
  constructor
  · simp [LispVector.len, hroot, hlen]
  · intro i
    simp [LispVector.at?, hroot, Slice.get, hview]
  · obtain ⟨hext, hvm, -, hfresh⟩ := make_spec m.arrays v.flat.len
    obtain ⟨hext', hv', hview'⟩ := hvm.copy_spec hfresh hext v.flat
    refine ⟨_, _, by simp only [LispVector.toSlice, hroot], le_arrays hext', hv', ?_⟩
    have hsrc : v.flat.view (Slice.make m.arrays v.flat.len).1 = xs :=
      (hv.extends hext).2.trans hview
    have hmake : (Slice.make m.arrays v.flat.len).2.len = xs.length := hlen
    rw [hview', hsrc, hmake, take_length,
      drop_eq_nil_of_le (Nat.le_of_eq (hvm.length_view.trans hmake)), append_nil]

variable {a : Addr} {shift : Nat} {txs : List α}

theorem TrieRep.at_trie (h : TrieRep m (some a) shift txs) {i : Nat} (hi : i < txs.length) :
    ((descend m i shift a).bind fun node =>
      node.vals.get m.arrays (i &&& (vecBranch - 1))) = txs[i]? := by
  obtain ⟨d, rfl, hnode, -⟩ := h
  have hmod : i % 32 ^ (d + 1) = i := Nat.mod_eq_of_lt (Nat.lt_of_lt_of_le hi hnode.length_le)
  obtain ⟨node, hdesc, hget⟩ := hnode.descend (i := i) (by rwa [hmod])
  have hmask : i &&& (vecBranch - 1) = i % 32 := Nat.and_two_pow_sub_one_eq_mod i 5
  rw [hdesc, Option.bind_some, hmask, hget, hmod]

theorem toSlice_trie [Inhabited α] (hroot : v.root = some a)
    (htrie : TrieRep m (some a) v.shift txs) (hv : v.tail.Valid m.arrays)
    (hxs : xs = txs ++ v.tail.view m.arrays) (hcount : v.count = xs.length) :
    ∃ m' s, v.toSlice m = some (m', s) ∧ m ≤ m' ∧ s.Valid m'.arrays ∧ s.view m'.arrays = xs := by
  obtain ⟨d, hshift, hnode, -⟩ := htrie
  have hlen : xs.length = txs.length + v.tail.len := by
    rw [hxs, length_append, hv.length_view]
  obtain ⟨hext, hvm, hmake, hfresh⟩ := make_spec m.arrays xs.length
  have hout : (Slice.make m.arrays xs.length).2.len = xs.length := rfl
  have hcap : (Slice.make m.arrays xs.length).2.cap = xs.length := rfl
  have hflat := hnode.flattens _ _ hext hvm hfresh (by omega)
  have hfit : 0 + txs.length ≤ (Slice.make m.arrays xs.length).2.cap := by omega
  have hv₁ := hvm.store hfit
  have hext₁ := hfresh.store hext hfit
  obtain ⟨rest, hrest, hext₂, hv₂, hview₂⟩ :=
    hv₁.copy_from_spec hfresh hext₁ v.tail txs.length (by omega)
  refine ⟨_, _, ?_, le_arrays hext₂, hv₂, ?_⟩
  · have hnonneg : ¬ (xs.length : Int) < 0 := by omega
    simp only [LispVector.toSlice, hroot, hcount, hnonneg, if_false, Int.toNat_natCast,
      hshift, hflat, hrest, Option.bind_eq_bind, Option.bind_some]
  · have htake : (v.tail.view m.arrays).take (xs.length - txs.length) = v.tail.view m.arrays :=
      take_of_length_le (by rw [hv.length_view]; omega)
    have happ := splice_splice_append
      (Nat.zero_le (List.replicate xs.length (default : α)).length) txs
      (v.tail.view m.arrays)
    rw [Nat.zero_add, ← hxs] at happ
    rw [hview₂, hvm.view_store (by omega), hmake, (hv.extends hext₁).2, hout, htake, happ]
    simp [Slice.splice]

theorem describes_trie [Inhabited α] (hroot : v.root = some a)
    (htrie : TrieRep m (some a) v.shift txs) (hv : v.tail.Valid m.arrays)
    (hxs : xs = txs ++ v.tail.view m.arrays) (hcount : v.count = xs.length) :
    Describes m v xs := by
  have hlen : xs.length = txs.length + v.tail.len := by
    rw [hxs, length_append, hv.length_view]
  have htrieLen : v.count - v.tail.len = txs.length := by omega
  constructor
  · simp [LispVector.len, hroot, hcount]
  · intro i
    simp only [LispVector.at?, hroot, htrieLen]
    by_cases hneg : i < 0
    · simp [hneg]
    obtain ⟨n, rfl⟩ := Int.eq_ofNat_of_zero_le (Int.not_lt.1 hneg)
    by_cases hge : v.count ≤ n
    · have hout : xs[n]? = none := getElem?_eq_none (by omega)
      simp [hge, hout]
    · simp only [hneg, ge_iff_le, hge, or_self, if_false, Int.toNat_natCast]
      by_cases htail : txs.length ≤ n
      · have hsub : ((n : Int) - txs.length).toNat = n - txs.length := by omega
        rw [if_pos (by omega), hsub, Slice.get, hxs, getElem?_append_right htail]
      · rw [if_neg (by omega), hxs, getElem?_append_left (by omega)]
        exact htrie.at_trie (by omega)
  · exact toSlice_trie hroot htrie hv hxs hcount

theorem Rep.describes [Inhabited α] (h : Rep m v xs) : Describes m v xs := by
  unfold Rep at h
  split at h
  case h_1 hnone => exact describes_flat hnone h.1 h.2
  case h_2 a ha =>
    obtain ⟨txs, htrie, hv, hxs, -, hcount, -⟩ := h
    exact describes_trie ha htrie hv hxs hcount

/-- The variables of the loop of `Conj` stand for `xs`. The trie is represented on the
memory `m₁`, which the loop does not write to through its tail. -/
structure ConjInv (m₀ m₁ : VecMem α) (st : ConjState α) (txs tl : List α) : Prop where
  base : m₀ ≤ m₁
  keeps : m₁ ≤ st.mem
  trie : TrieRep m₁ st.root st.shift txs
  trieLen : st.trieLen = txs.length
  valid : st.tail.Valid st.mem.arrays
  view : st.tail.view st.mem.arrays = tl
  fresh : Slice.FreshFor m₁.arrays st.tail
  short : tl.length ≤ 32

variable {m₀ m₁ : VecMem α} {st : ConjState α} {tl : List α}

theorem ConjInv.len_eq (h : ConjInv m₀ m₁ st txs tl) : st.tail.len = tl.length := by
  rw [← h.valid.length_view, h.view]

variable (g : Growth) {root : Option Addr} {flat : Slice}

theorem ConjInv.append [Inhabited α] (h : ConjInv m₀ m₁ st txs tl)
    (hroom : tl.length < 32) (val : α) :
    let r := Slice.append g st.mem.arrays st.tail [val]
    ConjInv m₀ m₁ { st with mem := { st.mem with arrays := r.1 }, tail := r.2 } txs
      (tl ++ [val]) := by
  cases happ : Slice.append g st.mem.arrays st.tail [val] with
  | mk arrays tail =>
    obtain ⟨hext, hv, hview, hfresh⟩ := h.valid.append_spec happ h.fresh h.keeps.1
    refine ⟨h.base, ⟨hext, h.keeps.2⟩, h.trie, h.trieLen, hv, ?_, hfresh, ?_⟩
    · exact hview.trans (congrArg (· ++ [val]) h.view)
    · rw [length_append]
      exact hroom

theorem conjStep_spec [Inhabited α] (h : ConjInv m₀ m₁ st txs tl) (val : α) :
    ∃ st' m₁' txs' tl', conjStep g st val = some st' ∧ ConjInv m₀ m₁' st' txs' tl' ∧
      txs' ++ tl' = txs ++ tl ++ [val] := by
  rcases Nat.lt_or_eq_of_le h.short with hlt | hfull
  · have hne : st.tail.len ≠ vecBranch := by
      rw [h.len_eq]
      exact Nat.ne_of_lt hlt
    exact ⟨_, m₁, txs, tl ++ [val], by simp only [conjStep, hne, if_false]; rfl,
      h.append g hlt val, by simp⟩
  · obtain ⟨m', root', shift', hpush, hm', htrie⟩ :=
      pushVecTail_spec g (h.trie.mono h.keeps) h.valid h.view hfull
    have hlen : st.tail.len = vecBranch := h.len_eq.trans hfull
    have hinv : ConjInv m₀ m' ⟨m', some root', shift', st.trieLen + vecBranch, Slice.nil,
        st.bytes + vecPathBytes st.shift⟩ (txs ++ tl) [] :=
      ⟨h.base.trans (h.keeps.trans hm'), le_refl m', htrie,
        by simp only [h.trieLen, length_append, hfull]; rfl, valid_nil _,
        view_nil _, freshFor_nil _, by simp⟩
    refine ⟨_, m', txs ++ tl, [] ++ [val], ?_, hinv.append g (by simp) val, by simp⟩
    rw [← h.trieLen] at hpush
    simp only [conjStep, hlen, if_true, hpush]
    rfl

theorem conjFold_spec [Inhabited α] (vs : List α) (h : ConjInv m₀ m₁ st txs tl) :
    ∃ st' m₁' txs' tl', vs.foldlM (conjStep g) st = some st' ∧
      ConjInv m₀ m₁' st' txs' tl' ∧ txs' ++ tl' = txs ++ tl ++ vs := by
  induction vs generalizing m₁ st txs tl with
  | nil => exact ⟨st, m₁, txs, tl, rfl, h, by simp⟩
  | cons val vs ih =>
    obtain ⟨st₁, m₁', txs', tl', hstep, hinv, happ⟩ := conjStep_spec g h val
    obtain ⟨st₂, m₂, txs'', tl'', hfold, hinv', happ'⟩ := ih hinv
    refine ⟨st₂, m₂, txs'', tl'', ?_, hinv', ?_⟩
    · rw [foldlM_cons, hstep]
      exact hfold
    · rw [happ', happ]
      simp

theorem buildLoop_spec [Inhabited α] {fs : List α}
    (hv : flat.Valid m₀.arrays) (hview : flat.view m₀.arrays = fs) (n : Nat) {i : Nat}
    (hm : m₀ ≤ m) (htrie : TrieRep m root shift (fs.take i))
    (hi : i + n * 32 ≤ fs.length) :
    ∃ m' root' shift', buildLoop g flat n i m root shift i =
        some (m', root', shift', i + n * 32) ∧ m ≤ m' ∧
      TrieRep m' root' shift' (fs.take (i + n * 32)) := by
  induction n generalizing i m root shift with
  | zero =>
    have hzero : i + 0 * 32 = i := by omega
    rw [hzero]
    exact ⟨m, root, shift, rfl, le_refl m, htrie⟩
  | succ n ih =>
    obtain ⟨hvm, hviewm⟩ := hv.extends hm.1
    have hlen : flat.len = fs.length := by rw [← hv.length_view, hview]
    obtain ⟨part, hpart, -, hpview⟩ :=
      hvm.sub_spec (show i ≤ i + 32 by omega) (show i + 32 ≤ flat.len by omega)
    rw [hviewm, hview] at hpview
    obtain ⟨arrays, chunk, happ, hext, hvc, hcview, -⟩ :=
      append_nil_spec g m.arrays (part.view m.arrays)
    rw [hpview] at hcview
    have hclen : ((fs.take (i + 32)).drop i).length = 32 := by simp; omega
    have hilen : (fs.take i).length = i := by simp; omega
    have happend : fs.take i ++ (fs.take (i + 32)).drop i = fs.take (i + 32) := by
      rw [drop_take, ← take_add, Nat.add_sub_cancel_left]
    obtain ⟨m', root', shift', hpush, hm', htrie'⟩ :=
      pushVecTail_spec g (htrie.mono (le_arrays hext)) hvc hcview hclen
    rw [hilen] at hpush
    rw [happend] at htrie'
    have hmm' := (le_arrays hext).trans hm'
    obtain ⟨m'', root'', shift'', hloop, hm'', htrie''⟩ := ih (hm.trans hmm') htrie' (by omega)
    have hnext : i + 32 + n * 32 = i + (n + 1) * 32 := by omega
    rw [hnext] at hloop htrie''
    refine ⟨m'', root'', shift'', ?_, hmm'.trans hm'', htrie''⟩
    have hbranch : vecBranch = 32 := rfl
    simp only [buildLoop, hbranch, hpart, happ, hpush, Option.bind_eq_bind, Option.bind_some,
      hloop]

theorem conjStart_spec [Inhabited α] (h : Rep m v xs) :
    ∃ st m₁ txs tl, conjStart g m v = some st ∧ ConjInv m m₁ st txs tl ∧ txs ++ tl = xs := by
  unfold Rep at h
  split at h
  case h_1 hroot =>
    obtain ⟨hv, hview⟩ := h
    have hlen : v.flat.len = xs.length := by rw [← hv.length_view, hview]
    obtain ⟨m₁, root, shift, hloop, hm₁, htrie⟩ :=
      buildLoop_spec g hv hview (v.flat.len / 32) (le_refl m)
        (show TrieRep m none 0 (xs.take 0) from ⟨rfl, by simp⟩) (by omega)
    obtain ⟨hvm, hviewm⟩ := hv.extends hm₁.1
    have hbranch : vecBranch = 32 := rfl
    obtain ⟨part, hpart, -, hpview⟩ := hvm.from_spec (v.flat.len / 32 * 32) (by omega)
    rw [hviewm, hview] at hpview
    obtain ⟨arrays, tail, happ, hext, hvt, htview, hfresh⟩ :=
      append_nil_spec g m₁.arrays (part.view m₁.arrays)
    rw [hpview] at htview
    rw [Nat.zero_add] at hloop htrie
    refine ⟨⟨{ m₁ with arrays := arrays }, root, shift, v.flat.len / 32 * 32, tail,
      vectorShallowBytes v.flat.len⟩, m₁, _, _, ?_,
      ⟨hm₁, le_arrays hext, htrie, ?_, hvt, htview, hfresh, ?_⟩, take_append_drop _ _⟩
    · simp only [conjStart, hroot, buildVecTrieFromFlat, hbranch, hloop, hpart, happ,
        Option.bind_eq_bind, Option.bind_some]
    · change v.flat.len / 32 * 32 = _
      rw [length_take]
      omega
    · rw [length_drop, ← hlen]
      omega
  case h_2 a hroot =>
    obtain ⟨txs, htrie, hv, hxs, hle, hcount, -⟩ := h
    have hlen : xs.length = txs.length + v.tail.len := by
      rw [hxs, length_append, hv.length_view]
    obtain ⟨arrays, tail, happ, hext, hvt, htview, hfresh⟩ :=
      append_nil_spec g m.arrays (v.tail.view m.arrays)
    refine ⟨⟨{ m with arrays := arrays }, some a, v.shift, (v.count - v.tail.len).toNat, tail,
      0⟩, m, txs, _, ?_,
      ⟨le_refl m, le_arrays hext, htrie, ?_, hvt, htview, hfresh, ?_⟩, hxs.symm⟩
    · simp only [conjStart, hroot, happ]
    · change (v.count - v.tail.len).toNat = txs.length
      omega
    · rw [hv.length_view]
      exact hle

theorem toInt32_of_lt {n : Nat} (h : n < 2 ^ 31) : toInt32 n = n := by
  unfold toInt32
  rw [Int.bmod_eq_emod_of_lt]
  · omega
  · omega

theorem TrieRep.shift_lt (h : TrieRep m root shift txs)
    (hlt : txs.length < 2 ^ 31) : toUint8 shift = shift := by
  cases root with
  | none =>
    obtain ⟨rfl, -⟩ := h
    rfl
  | some a =>
    obtain ⟨d, rfl, -, rfl | hfit⟩ := h
    · rfl
    · have hpow : 2 ^ (5 * d) < 2 ^ 31 := by
        rw [Nat.pow_mul]
        exact Nat.lt_trans hfit hlt
      have hd : 5 * d < 31 := (Nat.pow_lt_pow_iff_right (by decide)).1 hpow
      exact Nat.mod_eq_of_lt (by simp only [vecBits]; omega)

variable {vs : Slice} {ys : List α}

theorem conj_flat [Inhabited α] {m : Arrays α} (hv : flat.Valid m)
    (hview : flat.view m = xs) (hvs : vs.Valid m) (hys : vs.view m = ys) :
    let items := (Slice.make m (flat.len + vs.len)).2
    let arrays := (Slice.copy (Slice.make m (flat.len + vs.len)).1 items flat).1
    ∃ rest, items.from? flat.len = some rest ∧ m.Extends (Slice.copy arrays rest vs).1 ∧
      items.Valid (Slice.copy arrays rest vs).1 ∧
      items.view (Slice.copy arrays rest vs).1 = xs ++ ys := by
  intro items arrays
  have hlen : flat.len = xs.length := by rw [← hv.length_view, hview]
  have hvlen : vs.len = ys.length := by rw [← hvs.length_view, hys]
  have hitems : items.len = xs.length + ys.length := by rw [← hlen, ← hvlen]; rfl
  obtain ⟨hext, hvm, hmake, hfresh⟩ := make_spec m (flat.len + vs.len)
  obtain ⟨hext₁, hv₁, hview₁⟩ := hvm.copy_spec hfresh hext flat
  obtain ⟨rest, hrest, hext₂, hv₂, hview₂⟩ :=
    hv₁.copy_from_spec hfresh hext₁ vs flat.len (Nat.le_add_right _ _)
  refine ⟨rest, hrest, hext₂, hv₂, ?_⟩
  have htake : xs.take (xs.length + ys.length) = xs :=
    take_of_length_le (Nat.le_add_right _ _)
  change items.view _ = _
  rw [hview₂, hview₁, (hvs.extends hext₁).2, hys, (hv.extends hext).2, hview, hmake]
  simp [Slice.splice, Slice.make, hlen, hvlen, htake]

theorem conj_short [Inhabited α] {g : Growth} {rest : Slice}
    (hshort : v.root = none ∧ v.len + vs.len ≤ vectorFlatThreshold)
    (hrest : (Slice.make m.arrays (v.flat.len + vs.len)).2.from? v.flat.len = some rest) :
    let r := Slice.make m.arrays (v.flat.len + vs.len)
    conj g m v vs = some
      ({ m with arrays := (Slice.copy (Slice.copy r.1 r.2 v.flat).1 rest vs).1 },
        ⟨r.2, none, 0, 0, Slice.nil⟩, vectorShallowBytes r.2.len) := by
  simp [LispVector.conj, hshort, hrest]

theorem conj_long [Inhabited α] {g : Growth} {st' : ConjState α}
    (hlong : ¬ (v.root = none ∧ v.len + vs.len ≤ vectorFlatThreshold))
    (hstart : conjStart g m v = some st)
    (hfold : (vs.view m.arrays).foldlM (conjStep g) st = some st') :
    conj g m v vs = some (st'.mem, ⟨Slice.nil, st'.root, toUint8 st'.shift,
      toInt32 (st'.trieLen + st'.tail.len), st'.tail⟩,
      st'.bytes + vectorShallowBytes st'.tail.len) := by
  simp [LispVector.conj, hlong, hstart, hfold]

theorem ConjInv.rep (h : ConjInv m₀ m₁ st txs tl) (hlong : 32 < (txs ++ tl).length)
    (hlt : (txs ++ tl).length < 2 ^ 31) :
    Rep st.mem ⟨Slice.nil, st.root, toUint8 st.shift, toInt32 (st.trieLen + st.tail.len),
      st.tail⟩ (txs ++ tl) := by
  have hsum : st.trieLen + st.tail.len = (txs ++ tl).length := by
    rw [h.trieLen, h.len_eq, length_append]
  have hshort := h.short
  rw [hsum, toInt32_of_lt hlt, h.trie.shift_lt (by rw [length_append] at hlt; omega)]
  cases hroot : st.root with
  | none =>
    have htrie := h.trie
    rw [hroot] at htrie
    obtain ⟨-, rfl⟩ := htrie
    rw [nil_append] at hlong
    omega
  | some a =>
    exact ⟨txs, hroot ▸ h.trie.mono h.keeps, h.valid, by rw [h.view],
      by rw [h.len_eq]; exact hshort, rfl, hlong⟩

theorem Rep.conj [Inhabited α] (h : Rep m v xs)
    (hvs : vs.Valid m.arrays) (hys : vs.view m.arrays = ys) (hlt : (xs ++ ys).length < 2 ^ 31) :
    ∃ m' v' bytes, conj g m v vs = some (m', v', bytes) ∧ m ≤ m' ∧ Rep m' v' (xs ++ ys) := by
  by_cases hshort : v.root = none ∧ v.len + vs.len ≤ vectorFlatThreshold
  · have hroot := hshort.1
    simp only [Rep, hroot] at h
    obtain ⟨rest, hrest, hext, hv, hview⟩ := conj_flat h.1 h.2 hvs hys
    exact ⟨_, _, _, conj_short hshort hrest, le_arrays hext, hv, hview⟩
  · obtain ⟨st, m₁, txs, tl, hstart, hinv, happ⟩ := conjStart_spec g h
    obtain ⟨st', m₁', txs', tl', hfold, hinv', happ'⟩ := conjFold_spec g ys hinv
    rw [happ] at happ'
    have hlong : 32 < (xs ++ ys).length := by
      have hlen := h.describes.len
      have hvlen : vs.len = ys.length := by rw [← hvs.length_view, hys]
      rw [length_append]
      unfold Rep at h
      split at h
      case h_1 hroot =>
        rw [vectorFlatThreshold] at hshort
        have hsum : ¬ v.len + vs.len ≤ (32 : Nat) := fun hle => hshort ⟨hroot, hle⟩
        omega
      case h_2 =>
        obtain ⟨-, -, -, -, -, -, hlong⟩ := h
        omega
    refine ⟨_, _, _, conj_long hshort hstart (hys ▸ hfold), hinv'.base.trans hinv'.keeps, ?_⟩
    rw [← happ'] at hlong hlt ⊢
    exact hinv'.rep hlong hlt

/-- Vectors as persistent objects, made by `NewVector` and `Conj` from slices of the
caller. -/
def vectors [Inhabited α] (g : Growth) :
    Persistent (VecMem α) LispVector (Slice.Window α) (Slice.Window α) where
  create m c :=
    let (arrays, items) := c.alloc m.arrays
    some ({ m with arrays := arrays }, newVector items)
  apply m v c :=
    let (arrays, vs) := c.alloc m.arrays
    (conj g { m with arrays := arrays } v vs).map fun r => (r.1, r.2.1)

def sequences : Spec (List α) (Slice.Window α) (Slice.Window α) where
  create c := c.items
  apply xs c := xs ++ c.items

theorem vectors_refines [Inhabited α] : Persistent.Refines (vectors (α := α) g) sequences Rep
      fun xs => xs.length < 2 ^ 31 where
  mono hm h := h.mono hm
  create m c _ := by
    obtain ⟨hext, hv, hview⟩ := c.alloc_spec m.arrays
    exact ⟨_, _, rfl, le_arrays hext, hv, hview⟩
  apply {m v xs} c h hlt := by
    obtain ⟨hext, hvs, hys⟩ := c.alloc_spec m.arrays
    have hm := le_arrays hext
    obtain ⟨m', v', bytes, hconj, hm', hrep⟩ := (h.mono hm).conj g hvs hys hlt
    exact ⟨m', v', by simp [vectors, hconj], hm.trans hm', hrep⟩

/-- Every vector that `NewVector` and any `Conj` calls make reads as the initial elements
followed by the appended ones, and still does after any further calls. -/
theorem vectors_describe_sequences [Inhabited α] (g : Growth) (m₀ : VecMem α)
    (calls more : List (Persistent.Call (Slice.Window α) (Slice.Window α)))
    (hlen : ∀ xs ∈ Persistent.specRun sequences [] (calls ++ more), xs.length < 2 ^ 31) :
    ∃ p p', (vectors g).run ⟨m₀, []⟩ calls = some p ∧ (vectors g).run p more = some p' ∧
      p.objs.length = (Persistent.specRun sequences [] calls).length ∧
      ∀ (k : Nat) v xs, p.objs[k]? = some v →
        (Persistent.specRun sequences [] calls)[k]? = some xs →
        p'.objs[k]? = some v ∧ Describes p.mem v xs ∧ Describes p'.mem v xs := by
  obtain ⟨p, p', hrun, hrun', hobjs, hreps⟩ :=
    (vectors_refines g).run_then_run m₀ calls more hlen
  refine ⟨p, p', hrun, hrun', hobjs, ?_⟩
  intro k v xs hv hxs
  obtain ⟨hkeep, hrep, hrep'⟩ := hreps k v xs hv hxs
  exact ⟨hkeep, hrep.describes, hrep'.describes⟩

/-- The run that promotes a flat vector of 32 elements to a trie. -/
theorem vectors_describe_sequences_promotion :
    ∃ p p', (vectors ⟨fun _ n => n, fun _ _ => Nat.le_refl _⟩).run
        ⟨⟨⟨[]⟩, ⟨[]⟩, ⟨[]⟩⟩, []⟩ [.create ⟨[], List.replicate 32 7, []⟩] = some p ∧
      (vectors ⟨fun _ n => n, fun _ _ => Nat.le_refl _⟩).run p
        [.apply 0 ⟨[], [8], []⟩] = some p' ∧
      p.objs.length = 1 ∧
      ∀ (k : Nat) v xs, p.objs[k]? = some v → (Persistent.specRun sequences []
          [.create ⟨[], List.replicate 32 (7 : Nat), []⟩])[k]? = some xs →
        p'.objs[k]? = some v ∧ Describes p.mem v xs ∧ Describes p'.mem v xs :=
  vectors_describe_sequences ⟨fun _ n => n, fun _ _ => Nat.le_refl _⟩ ⟨⟨[]⟩, ⟨[]⟩, ⟨[]⟩⟩
    [.create ⟨[], List.replicate 32 7, []⟩] [.apply 0 ⟨[], [8], []⟩] (by decide)

end

end LispVector

end Core

end Lispico
