import Lispico.Core.Vector
import Lispico.Lib.Chunked

/-!
# The trie of a vector stands for a sequence

A node of depth `d` covers up to `32 ^ (d + 1)` elements in full blocks, the last one excepted.
`NodeRep` gives the sequence below a node. A lookup divides by the block width at each level;
pushing a leaf copies only the path to it.
-/

namespace Lispico

namespace Core

open Lib List Option

namespace LispVector

section

variable {α : Type}

def NodeRep (m : VecMem α) : Nat → Addr → List α → Prop
  | 0, a, xs => ∃ node, m.nodes.read a = some node ∧ node.vals.Valid m.arrays ∧
      node.vals.view m.arrays = xs ∧ xs.length = 32
  | d + 1, a, xs => ∃ node kids xss, m.nodes.read a = some node ∧
      node.kids.Valid m.kidArrays ∧ node.kids.view m.kidArrays = kids.map some ∧
      List.Forall₂ (NodeRep m d) kids xss ∧ xss.length ≤ 32 ∧
      Chunked (32 ^ (d + 1)) xss ∧ xs = xss.flatten

variable {m m' : VecMem α} {d : Nat} {a : Addr} {xs : List α}

theorem NodeRep.mono (hm : m ≤ m') (h : NodeRep m d a xs) : NodeRep m' d a xs := by
  induction d generalizing a xs with
  | zero =>
    obtain ⟨node, hread, hv, hview, hlen⟩ := h
    obtain ⟨hv', hview'⟩ := hv.extends hm.1
    exact ⟨node, hm.2.2.read hread, hv', hview'.trans hview, hlen⟩
  | succ d ih =>
    obtain ⟨node, kids, xss, hread, hv, hview, hkids, hle, hchunk, rfl⟩ := h
    obtain ⟨hv', hview'⟩ := hv.extends hm.2.1
    exact ⟨node, kids, xss, hm.2.2.read hread, hv', hview'.trans hview,
      hkids.imp fun _ _ => ih, hle, hchunk, rfl⟩

theorem NodeRep.length_leaf (h : NodeRep m 0 a xs) : xs.length = 32 := by
  obtain ⟨_, _, _, _, hlen⟩ := h
  exact hlen

theorem NodeRep.length_le (h : NodeRep m d a xs) : xs.length ≤ 32 ^ (d + 1) := by
  cases d with
  | zero => simp [h.length_leaf]
  | succ d =>
    obtain ⟨_, kids, xss, _, _, _, _, hle, hchunk, rfl⟩ := h
    calc xss.flatten.length ≤ xss.length * 32 ^ (d + 1) := hchunk.length_flatten_le
      _ ≤ 32 * 32 ^ (d + 1) := Nat.mul_le_mul_right _ hle
      _ = 32 ^ (d + 1 + 1) := (Nat.pow_succ' ..).symm

theorem NodeRep.pos (h : NodeRep m d a xs) : 0 < xs.length := by
  cases d with
  | zero => simp [h.length_leaf]
  | succ d =>
    obtain ⟨_, kids, xss, _, _, _, _, _, hchunk, rfl⟩ := h
    obtain ⟨init, ys, rfl, hfull, hpos, -⟩ := hchunk.split
    rw [Chunked.length_flatten hfull]
    omega

theorem shift_mask (i d : Nat) : (i >>> (vecBits * d)) &&& (vecBranch - 1) = i / 32 ^ d % 32 := by
  have hmask : vecBranch - 1 = 2 ^ 5 - 1 := rfl
  rw [hmask, Nat.and_two_pow_sub_one_eq_mod, Nat.shiftRight_eq_div_pow, vecBits, Nat.pow_mul]

theorem vecBits_succ (d : Nat) : vecBits * (d + 1) = vecBits * d + 4 + 1 := by
  simp only [vecBits]
  omega

theorem vecBits_back (d : Nat) : vecBits * d + 4 + 1 - vecBits = vecBits * d := by
  simp only [vecBits]
  omega

theorem descend_zero (m : VecMem α) (i : Nat) (a : Addr) : descend m i 0 a = m.nodes.read a := by
  rw [descend]

theorem descend_succ (m : VecMem α) (i d : Nat) (a : Addr) : descend m i (vecBits * (d + 1)) a =
      (m.nodes.read a).bind fun node =>
        (node.kids.get m.kidArrays (i / 32 ^ (d + 1) % 32)).bind fun kid =>
          kid.bind (descend m i (vecBits * d)) := by
  rw [← shift_mask]
  rw [vecBits_succ, descend, vecBits_back]
  rfl

theorem NodeRep.descend (h : NodeRep m d a xs) {i : Nat} (hi : i % 32 ^ (d + 1) < xs.length) :
    ∃ node, descend m i (vecBits * d) a = some node ∧
      node.vals.get m.arrays (i % 32) = xs[i % 32 ^ (d + 1)]? := by
  induction d generalizing a xs with
  | zero =>
    obtain ⟨node, hread, _, hview, _⟩ := h
    exact ⟨node, by rw [Nat.mul_zero, descend_zero, hread], by simp [Slice.get, hview]⟩
  | succ d ih =>
    obtain ⟨node, kids, xss, hread, hv, hview, hkids, _, hchunk, rfl⟩ := h
    obtain ⟨ys, hys, hlt, hget⟩ := hchunk.getElem? hi
    have hdiv : i % 32 ^ (d + 1 + 1) / 32 ^ (d + 1) = i / 32 ^ (d + 1) % 32 := by
      rw [Nat.pow_succ, Nat.mod_mul_right_div_self]
    have hmod : i % 32 ^ (d + 1 + 1) % 32 ^ (d + 1) = i % 32 ^ (d + 1) :=
      Nat.mod_mod_of_dvd _ (Nat.pow_dvd_pow 32 (Nat.le_succ _))
    rw [hdiv] at hys
    rw [hmod] at hlt hget
    obtain ⟨hk, rfl⟩ := List.getElem?_eq_some_iff.1 hys
    have hk' : i / 32 ^ (d + 1) % 32 < kids.length := hkids.length_eq ▸ hk
    obtain ⟨leaf, hleaf, hval⟩ := ih (List.Forall₂.get hkids hk' hk) hlt
    refine ⟨leaf, ?_, hval.trans hget⟩
    have hkid : node.kids.get m.kidArrays (i / 32 ^ (d + 1) % 32) =
        some (some kids[i / 32 ^ (d + 1) % 32]) := by
      simp [Slice.get, hview, getElem?_eq_getElem hk']
    rw [descend_succ, hread, bind_some, hkid, bind_some, bind_some]
    exact hleaf

theorem flattenVecNode_zero (m : VecMem α) (a : Addr) (out : Slice) (arrays : Arrays α) :
    flattenVecNode m 0 a out arrays =
      (m.nodes.read a).map fun node => Slice.copy arrays out node.vals := by
  rw [flattenVecNode]
  cases m.nodes.read a <;> rfl

def flattenKid (m : VecMem α) (d : Nat) (out : Slice) (acc : Arrays α × Nat)
    (kid : Option Addr) : Option (Arrays α × Nat) := do
  let dst ← out.from? acc.2
  let r ← flattenVecNode m (vecBits * d) (← kid) dst acc.1
  some (r.1, acc.2 + r.2)

theorem flattenVecNode_succ (m : VecMem α) (d : Nat) (a : Addr) (out : Slice)
    (arrays : Arrays α) : flattenVecNode m (vecBits * (d + 1)) a out arrays =
      (m.nodes.read a).bind fun node =>
        (node.kids.view m.kidArrays).foldlM (flattenKid m d out) (arrays, 0) := by
  rw [vecBits_succ, flattenVecNode, vecBits_back]
  rfl

/-- What `flattenVecNode` does to the arrays: one write of the whole sequence. -/
def Flattens (m : VecMem α) (d : Nat) (a : Addr) (xs : List α) : Prop :=
  ∀ (out : Slice) (arrays : Arrays α), m.arrays.Extends arrays → out.Valid arrays →
    Slice.FreshFor m.arrays out → xs.length ≤ out.len →
    flattenVecNode m (vecBits * d) a out arrays = some (out.store arrays 0 xs, xs.length)

variable {kids : List Addr} {xss : List (List α)} {arrays : Arrays α}

theorem flattenKid_fold (h : List.Forall₂ (Flattens m d) kids xss) {out : Slice} {i : Nat}
    (hext : m.arrays.Extends arrays) (hv : out.Valid arrays)
    (hs : Slice.FreshFor m.arrays out) (hi : i + xss.flatten.length ≤ out.len) :
    (kids.map some).foldlM (flattenKid m d out) (arrays, i) =
      some (out.store arrays i xss.flatten, i + xss.flatten.length) := by
  induction h generalizing arrays i with
  | nil => simp [Slice.store_nil]
  | @cons kid xs kids xss hkid _ ih =>
    have hcap := hv.len_le
    simp only [flatten_cons, length_append] at hi ⊢
    obtain ⟨dst, hdst, hvd, hfresh, hlen, hstore⟩ := hv.from_window hs i (by omega)
    have hstep : flattenKid m d out (arrays, i) (some kid) =
        some (out.store arrays i xs, i + xs.length) := by
      have hflat := hkid dst arrays hext hvd hfresh (by omega)
      simp [flattenKid, hdst, hflat, hstore]
    rw [map_cons, foldlM_cons, hstep, bind_eq_bind, bind_some,
      ih (hs.store hext (by omega)) (hv.store (by omega)) (by omega),
      hv.store_append (by omega), Nat.add_assoc]

theorem NodeRep.flattens (h : NodeRep m d a xs) : Flattens m d a xs := by
  induction d generalizing a xs with
  | zero =>
    intro out arrays hext hv hs hlen
    obtain ⟨node, hread, hvn, hview, _⟩ := h
    have hview' : node.vals.view arrays = xs := (hvn.extends hext).2.trans hview
    simp [flattenVecNode_zero, hread, Slice.copy, hview', take_of_length_le hlen, hlen]
  | succ d ih =>
    intro out arrays hext hv hs hlen
    obtain ⟨node, kids, xss, hread, _, hview, hkids, _, _, rfl⟩ := h
    rw [flattenVecNode_succ, hread, bind_some, hview,
      flattenKid_fold (hkids.imp fun _ _ => ih) hext hv hs (by omega), Nat.zero_add]

theorem le_newNode (m : VecMem α) (node : VecNode) : m ≤ (m.newNode node).1 :=
  ⟨.refl _, .refl _, m.nodes.extends_alloc node⟩

theorem le_kidArrays {kidArrays : Arrays (Option Addr)} (h : m.kidArrays.Extends kidArrays) :
    m ≤ { m with kidArrays := kidArrays } :=
  ⟨.refl _, h, .refl _⟩

theorem le_arrays (h : m.arrays.Extends arrays) : m ≤ { m with arrays := arrays } :=
  ⟨h, .refl _, .refl _⟩

variable {tail : Slice} {ys : List α}

theorem nodeRep_leaf (hv : tail.Valid m.arrays) (hview : tail.view m.arrays = ys)
    (hlen : ys.length = 32) :
    NodeRep (m.newNode ⟨Slice.nil, tail⟩).1 0 (m.newNode ⟨Slice.nil, tail⟩).2 ys :=
  ⟨⟨Slice.nil, tail⟩, Heap.read_alloc _ _, hv, hview, hlen⟩

theorem block_le (d : Nat) : 32 ≤ 32 ^ (d + 1) := by
  calc 32 = 32 ^ 1 := rfl
    _ ≤ 32 ^ (d + 1) := Nat.pow_le_pow_right (by decide) (Nat.le_add_left 1 d)

theorem newVecPath_zero (m : VecMem α) (leaf : Addr) : newVecPath m 0 leaf = (m, leaf) := by
  rw [newVecPath]

theorem newVecPath_succ (m : VecMem α) (d : Nat) (leaf : Addr) :
    newVecPath m (vecBits * (d + 1)) leaf =
      let r := newVecPath m (vecBits * d) leaf
      VecMem.newNode { r.1 with kidArrays := (r.1.kidArrays.alloc [some r.2]).1 }
        ⟨⟨r.1.kidArrays.next, 0, 1, 1⟩, .nil⟩ := by
  rw [vecBits_succ, newVecPath, vecBits_back]
  rfl

/-- The memory `m''` still holds what `b` holds and, of the child arrays, what `m'` holds
beyond those of `m`. A write to a child array of `m` that is younger than `b` is allowed:
this is what the copied path of `pushVecLeaf` does once the recursion has returned. -/
structure After (b m m' m'' : VecMem α) : Prop where
  base : b ≤ m''
  arrays : m'.arrays.Extends m''.arrays
  nodes : m'.nodes.Extends m''.nodes
  kids : ∀ a ks, m.kidArrays.next ≤ a → m'.kidArrays.read a = some ks →
    m''.kidArrays.read a = some ks

variable {b m₂ : VecMem α}

theorem After.of_le {m₁ m'' : VecMem α} (h : After b m m₂ m'') (hm : m₁ ≤ m₂) :
    After b m m₁ m'' :=
  ⟨h.base, hm.1.trans h.arrays, hm.2.2.trans h.nodes,
    fun a ks ha hks => h.kids a ks ha (hm.2.1.read hks)⟩

theorem After.self (h : b ≤ m') : After b m m' m' :=
  ⟨h, .refl _, .refl _, fun _ _ _ hks => hks⟩

/-- Below the node at `a`, on `m'` and on every memory after it, stands `xs`. -/
def StableRep (b m m' : VecMem α) (d : Nat) (a : Addr) (xs : List α) : Prop :=
  ∀ m'', After b m m' m'' → NodeRep m'' d a xs

variable {ks : Slice}

theorem stableRep_newNode (kids : List Addr) (hv : ks.Valid m'.kidArrays)
    (hview : ks.view m'.kidArrays = kids.map some) (hyoung : m.kidArrays.next ≤ ks.arr)
    (hkids : ∀ m'', After b m m' m'' → List.Forall₂ (NodeRep m'' d) kids xss)
    (hle : xss.length ≤ 32) (hchunk : Chunked (32 ^ (d + 1)) xss) :
    StableRep b m (m'.newNode ⟨ks, Slice.nil⟩).1 (d + 1)
      (m'.newNode ⟨ks, Slice.nil⟩).2 xss.flatten := by
  intro m'' hafter
  obtain ⟨hv', hview'⟩ := hv.of_read m''.kidArrays fun xs => hafter.kids _ xs hyoung
  exact ⟨⟨ks, Slice.nil⟩, kids, xss, hafter.nodes.read (Heap.read_alloc _ _), hv',
    hview'.trans hview, hkids m'' (hafter.of_le (le_newNode m' _)), hle, hchunk, rfl⟩

variable {leaf : Addr}

theorem newVecPath_spec (m : VecMem α) (h : NodeRep b 0 leaf ys) (d : Nat) :
    m ≤ (newVecPath m (vecBits * d) leaf).1 ∧ StableRep b m (newVecPath m (vecBits * d) leaf).1 d
        (newVecPath m (vecBits * d) leaf).2 ys := by
  have hlen := h.length_leaf
  induction d with
  | zero =>
    rw [Nat.mul_zero, newVecPath_zero]
    exact ⟨le_refl m, fun m'' hafter => h.mono hafter.base⟩
  | succ d ih =>
    obtain ⟨hm, hrep⟩ := ih
    rw [newVecPath_succ]
    obtain ⟨hext, hv, hview, -⟩ :=
      Slice.alloc_spec (newVecPath m (vecBits * d) leaf).1.kidArrays
        [some (newVecPath m (vecBits * d) leaf).2] [] 1 1 rfl rfl
    have hm' := le_kidArrays hext
    refine ⟨hm.trans (hm'.trans (le_newNode _ _)), ?_⟩
    have hchunk : Chunked (32 ^ (d + 1)) ([] ++ [ys]) :=
      Chunked.append_singleton (by simp) (by omega) (hlen ▸ block_le d)
    have hys : ([] ++ [ys]).flatten = ys := by simp
    rw [← hys]
    exact stableRep_newNode [(newVecPath m (vecBits * d) leaf).2] hv hview hm.2.1.next_le
      (fun m'' hafter => .cons (hrep m'' (hafter.of_le hm')) List.Forall₂.nil)
      (by simp) hchunk

variable {g : Growth} {node : VecNode} {ka : Arrays (Option Addr)} {ka' : Arrays (Option Addr)}

theorem pushVecLeaf_bottom {ks' : Slice} (hread : m.nodes.read a = some node)
    (hc : Slice.append g m.kidArrays Slice.nil (node.kids.view m.kidArrays) = (ka, ks))
    (hr : Slice.append g ka ks [some leaf] = (ka', ks')) (trieLen : Nat) :
    pushVecLeaf g m a (vecBits * (0 + 1)) trieLen leaf =
      some (VecMem.newNode { m with kidArrays := ka' } ⟨ks', Slice.nil⟩) := by
  have hshift : vecBits * (0 + 1) = vecBits := by simp
  rw [hshift, pushVecLeaf]
  simp [hread, hc, hr]

theorem pushVecLeaf_above (hread : m.nodes.read a = some node)
    (hc : Slice.append g m.kidArrays Slice.nil (node.kids.view m.kidArrays) = (ka, ks))
    (d trieLen : Nat) (leaf : Addr) :
    pushVecLeaf g m a (vecBits * (d + 1 + 1)) trieLen leaf =
      let idx := trieLen / 32 ^ (d + 1 + 1) % 32
      if idx < ks.len then
        (ks.get ka idx).bind fun kid => kid.bind fun kid =>
          (pushVecLeaf g { m with kidArrays := ka } kid (vecBits * (d + 1)) trieLen leaf).bind
            fun r => (ks.set r.1.kidArrays idx (some r.2)).bind fun ka' =>
              some (VecMem.newNode { r.1 with kidArrays := ka' } ⟨ks, Slice.nil⟩)
      else
        let p := newVecPath { m with kidArrays := ka } (vecBits * (d + 1)) leaf
        let r := Slice.append g p.1.kidArrays ks [some p.2]
        some (VecMem.newNode { p.1 with kidArrays := r.1 } ⟨r.2, Slice.nil⟩) := by
  have hlt : vecBits < vecBits * (d + 1 + 1) := by
    simp only [vecBits]
    omega
  rw [pushVecLeaf, Nat.mul_succ vecBits (d + 1), Nat.add_sub_cancel, ← Nat.mul_succ, shift_mask]
  simp only [hread, hc, hlt.le.not_gt, hlt.ne', if_false, bind_eq_bind, bind_some]

/-- What `pushVecLeaf` starts with: the children of the node, on a fresh array. -/
structure Copied (b m : VecMem α) (g : Growth) (d : Nat) (a : Addr) (xs : List α)
    (node : VecNode) (kids : List Addr) (xss : List (List α))
    (ka : Arrays (Option Addr)) (ks : Slice) : Prop where
  read : m.nodes.read a = some node
  copy : Slice.append g m.kidArrays Slice.nil (node.kids.view m.kidArrays) = (ka, ks)
  rep : List.Forall₂ (NodeRep b d) kids xss
  chunked : Chunked (32 ^ (d + 1)) xss
  flat : xs = xss.flatten
  keeps : m.kidArrays.Extends ka
  valid : ks.Valid ka
  view : ks.view ka = kids.map some
  fresh : Slice.FreshFor m.kidArrays ks

theorem NodeRep.copied (hb : b ≤ m) (h : NodeRep b (d + 1) a xs) (g : Growth) :
    ∃ node kids xss ka ks, Copied b m g d a xs node kids xss ka ks := by
  obtain ⟨node, kids, xss, hread, hv, hview, hkids, hle, hchunk, hxs⟩ := h
  have hview' : node.kids.view m.kidArrays = kids.map some :=
    (hv.extends hb.2.1).2.trans hview
  obtain ⟨ka, ks, hc, hext, hvalid, hnew, hfresh⟩ :=
    Slice.append_nil_spec g m.kidArrays (node.kids.view m.kidArrays)
  exact ⟨node, kids, xss, ka, ks, hb.2.2.read hread, hc, hkids, hchunk, hxs, hext, hvalid,
    hnew.trans hview', hfresh⟩

section

variable (h : Copied b m g d a xs node kids xss ka ks)

include h

theorem Copied.len_eq : ks.len = xss.length := by
  rw [← h.valid.length_view, h.view, length_map, h.rep.length_eq]

theorem Copied.view_ne_nil : ks.view ka ≠ [] := by
  obtain ⟨init, ys, rfl, -⟩ := h.chunked.split
  have hlen := h.rep.length_eq
  intro hnil
  rw [h.view, map_eq_nil_iff] at hnil
  simp [hnil] at hlen

omit h in
/-- A memory after the last write is one after the recursion: that write went to an array
older than the recursion. -/
theorem After.narrow {m₁ m'' : VecMem α} {ka' : Arrays (Option Addr)}
    (h : After b m { m₂ with kidArrays := ka' } m'') (hm : m ≤ m₁)
    (hwrite : ∀ a ks, m₁.kidArrays.next ≤ a → m₂.kidArrays.read a = some ks → ka'.read a = some
      ks) :
    After b m₁ m₂ m'' :=
  ⟨h.base, h.arrays, h.nodes, fun a ks ha hks =>
    h.kids a ks (Nat.le_trans hm.2.1.next_le ha) (hwrite a ks ha hks)⟩

theorem Copied.le : m ≤ { m with kidArrays := ka } :=
  le_kidArrays h.keeps

theorem Copied.ne_arr {c : Addr} (hc : ka.next ≤ c) : c ≠ ks.arr := by
  rintro rfl
  exact Nat.lt_irrefl _ (Nat.lt_of_lt_of_le (Slice.arr_lt_next h.view_ne_nil) hc)

end

/-- A copy of the node gets one more child, which holds `ys` on all memories to come. -/
theorem Copied.append_child (hc : Copied b m g d a xs node kids xss ka ks) {m₂ : VecMem α}
    (hm₂ : { m with kidArrays := ka } ≤ m₂) {k : Addr} {ks' : Slice}
    (hr : Slice.append g m₂.kidArrays ks [some k] = (ka', ks'))
    (hfull : ∀ zs ∈ xss, zs.length = 32 ^ (d + 1)) (hroom : xss.length < 32)
    (hpos : 0 < ys.length) (hle : ys.length ≤ 32 ^ (d + 1))
    (hkid : ∀ m'', After b m { m₂ with kidArrays := ka' } m'' → NodeRep m'' d k ys) :
    let r := VecMem.newNode { m₂ with kidArrays := ka' } ⟨ks', Slice.nil⟩
    m ≤ r.1 ∧ StableRep b m r.1 (d + 1) r.2 (xs ++ ys) := by
  obtain ⟨hv₂, hview₂⟩ := hc.valid.extends hm₂.2.1
  obtain ⟨hext, hv, hview, hfresh⟩ := hv₂.append_spec hr hc.fresh (hc.keeps.trans hm₂.2.1)
  have hflat : xs ++ ys = (xss ++ [ys]).flatten := by simp [hc.flat]
  refine ⟨⟨hm₂.1, hext, hm₂.2.2.trans (Heap.extends_alloc _ _)⟩, ?_⟩
  rw [hflat]
  refine stableRep_newNode (kids ++ [k]) hv
    (by rw [hview, hview₂, hc.view, map_append]; rfl)
    (hfresh.next_le hv (by simp [hview])) ?_ (by simp; omega)
    (Chunked.append_singleton hfull hpos hle)
  intro m'' hafter
  exact rel_append (hc.rep.imp fun _ _ => NodeRep.mono hafter.base)
    (List.Forall₂.cons (hkid m'' hafter) List.Forall₂.nil)

variable {trieLen : Nat} {root : Option Addr} {shift : Nat}

theorem pushVecLeaf_spec_bottom (g : Growth) (hb : b ≤ m) (h : NodeRep b (0 + 1) a xs)
    (hleaf : NodeRep b 0 leaf ys) (hlen : trieLen % 32 ^ (0 + 1 + 1) = xs.length) :
    ∃ m' a', pushVecLeaf g m a (vecBits * (0 + 1)) trieLen leaf = some (m', a') ∧ m ≤ m' ∧
      StableRep b m m' (0 + 1) a' (xs ++ ys) := by
  obtain ⟨node, kids, xss, ka, ks, hc⟩ := h.copied hb g
  have hfull : ∀ zs ∈ xss, zs.length = 32 := by
    intro zs hzs
    obtain ⟨i, hi, rfl⟩ := List.mem_iff_getElem.1 hzs
    exact (List.Forall₂.get hc.rep (hc.rep.length_eq ▸ hi) hi).length_leaf
  have hroom : xss.length < 32 := by
    have hlt : trieLen % 32 ^ 2 < 32 ^ 2 := Nat.mod_lt _ (by decide)
    rw [hlen, hc.flat, Chunked.length_flatten_of_full hfull] at hlt
    omega
  cases hr : Slice.append g ka ks [some leaf] with
  | mk ka' ks' =>
    exact ⟨_, _, pushVecLeaf_bottom hc.read hc.copy hr trieLen,
      hc.append_child (le_refl _) hr hfull hroom hleaf.pos hleaf.length_le
        fun m'' hafter => hleaf.mono hafter.base⟩

theorem pushVecLeaf_spec_path (hc : Copied b m g (d + 1) a xs node kids xss ka ks)
    (hfull : ∀ zs ∈ xss, zs.length = 32 ^ (d + 1 + 1)) (hroom : xss.length < 32)
    (hleaf : NodeRep b 0 leaf ys) (hidx : trieLen / 32 ^ (d + 1 + 1) % 32 = xss.length) :
    ∃ m' a', pushVecLeaf g m a (vecBits * (d + 1 + 1)) trieLen leaf = some (m', a') ∧
      m ≤ m' ∧ StableRep b m m' (d + 1 + 1) a' (xs ++ ys) := by
  have hpush := pushVecLeaf_above hc.read hc.copy d trieLen leaf
  simp only [hidx, hc.len_eq, Nat.lt_irrefl, if_false] at hpush
  obtain ⟨hm₂, hstable⟩ := newVecPath_spec { m with kidArrays := ka } hleaf (d + 1)
  have hle : ys.length ≤ 32 ^ (d + 1 + 1) := hleaf.length_leaf ▸ block_le (d + 1)
  exact ⟨_, _, hpush, hc.append_child hm₂ rfl hfull hroom hleaf.pos hle fun m'' hafter =>
    hstable m'' (hafter.narrow hc.le fun c zs hle hread =>
      Slice.append_read rfl (hc.ne_arr hle) hread)⟩

/-- The last child has room: the leaf goes below it, and a copy of the node points to
the copied child. -/
theorem pushVecLeaf_spec_descend {k : Addr} {last : List α} {init : List (List α)} {k' : Addr}
    (hc : Copied b m g (d + 1) a xs node (kids ++ [k]) (init ++ [last]) ka ks)
    (hkids : List.Forall₂ (NodeRep b (d + 1)) kids init)
    (hfull : ∀ zs ∈ init, zs.length = 32 ^ (d + 1 + 1)) (hroom : init.length < 32)
    (hpush : pushVecLeaf g { m with kidArrays := ka } k (vecBits * (d + 1)) trieLen leaf = some
      (m₂, k'))
    (hm₂ : { m with kidArrays := ka } ≤ m₂) (hb : b ≤ m)
    (hstable : StableRep b { m with kidArrays := ka } m₂ (d + 1) k' (last ++ ys))
    (hidx : trieLen / 32 ^ (d + 1 + 1) % 32 = init.length) :
    ∃ m' a', pushVecLeaf g m a (vecBits * (d + 1 + 1)) trieLen leaf = some (m', a') ∧
      m ≤ m' ∧ StableRep b m m' (d + 1 + 1) a' (xs ++ ys) := by
  have hlen : kids.length = init.length := hkids.length_eq
  have hlt : init.length < ks.len := by simp [hc.len_eq]
  obtain ⟨hv₂, hview₂⟩ := hc.valid.extends hm₂.2.1
  obtain ⟨ka', hset, hext, hv, hview⟩ :=
    hv₂.set_spec hc.fresh (hc.keeps.trans hm₂.2.1) hlt (some k')
  have hget : ks.get ka init.length = some (some k) := by
    simp [Slice.get, hc.view, ← hlen]
  have hrun := pushVecLeaf_above hc.read hc.copy d trieLen leaf
  simp only [hidx, hlt, if_true, hget, bind_some, hpush, hset] at hrun
  have hflat : xs ++ ys = (init ++ [last ++ ys]).flatten := by simp [hc.flat]
  have hnode := hstable m₂ (After.self (hb.trans (hc.le.trans hm₂)))
  have hview' : ks.view ka' = (kids ++ [k']).map some := by
    rw [hview, hview₂, hc.view, ← hlen]
    simp
  refine ⟨_, _, hrun, ⟨hm₂.1, hext, hm₂.2.2.trans (Heap.extends_alloc _ _)⟩, ?_⟩
  rw [hflat]
  refine stableRep_newNode (kids ++ [k']) hv hview'
    (hc.fresh.next_le hv (by simp [hview'])) ?_ (by simp; omega)
    (Chunked.append_singleton hfull hnode.pos hnode.length_le)
  intro m'' hafter
  have hnarrow := hafter.narrow hc.le fun c zs hle hread =>
    Slice.set_read hset (hc.ne_arr hle) hread
  exact rel_append (hkids.imp fun _ _ => NodeRep.mono hafter.base)
    (List.Forall₂.cons (hstable m'' hnarrow) List.Forall₂.nil)

variable (g)

theorem pushVecLeaf_spec (hleaf : NodeRep b 0 leaf ys) (hb : b ≤ m)
    (h : NodeRep b (d + 1) a xs) (hlen : trieLen % 32 ^ (d + 1 + 1) = xs.length) :
    ∃ m' a', pushVecLeaf g m a (vecBits * (d + 1)) trieLen leaf = some (m', a') ∧ m ≤ m' ∧
      StableRep b m m' (d + 1) a' (xs ++ ys) := by
  induction d generalizing m a xs with
  | zero => exact pushVecLeaf_spec_bottom g hb h hleaf hlen
  | succ d ih =>
    obtain ⟨node, kids, xss, ka, ks, hc⟩ := h.copied hb g
    obtain ⟨init, last, rfl, hfull, hpos, hle⟩ := hc.chunked.split
    obtain ⟨kinit, k, rfl, hkids, hk⟩ := Chunked.forall₂_append_singleton hc.rep
    have hxs : xs.length = init.length * 32 ^ (d + 1 + 1) + last.length := by
      rw [hc.flat, Chunked.length_flatten hfull]
    have hlt : trieLen % 32 ^ (d + 1 + 1 + 1) < 32 * 32 ^ (d + 1 + 1) := by
      rw [← Nat.pow_succ']
      exact Nat.mod_lt _ (Nat.pow_pos (by decide))
    rw [hlen, hxs] at hlt
    rw [hxs, Nat.pow_succ 32 (d + 1 + 1)] at hlen
    have hroom : init.length < 32 :=
      Nat.lt_of_mul_lt_mul_right (Nat.lt_of_le_of_lt (Nat.le_add_right _ _) hlt)
    rcases Nat.lt_or_ge last.length (32 ^ (d + 1 + 1)) with hshort | hge
    · obtain ⟨hdiv, hmod⟩ := Chunked.div_mod_of_mod hshort hlen
      obtain ⟨m₂, k', hpush, hm₂, hstable⟩ := ih (hb.trans hc.le) hk hmod
      exact pushVecLeaf_spec_descend hc hkids hfull hroom hpush hm₂ hb hstable hdiv
    · have hlast : last.length = 32 ^ (d + 1 + 1) := Nat.le_antisymm hle hge
      have hnext : (init.length + 1) * 32 ^ (d + 1 + 1) < 32 * 32 ^ (d + 1 + 1) := by
        rw [Nat.add_mul, Nat.one_mul, ← hlast]
        rwa [← hlast] at hlt
      have hlen' : trieLen % (32 ^ (d + 1 + 1) * 32) =
          (init.length + 1) * 32 ^ (d + 1 + 1) + 0 := by
        rw [hlen, hlast, Nat.add_mul, Nat.one_mul]
        rfl
      obtain ⟨hdiv, -⟩ := Chunked.div_mod_of_mod (Nat.pow_pos (by decide)) hlen'
      refine pushVecLeaf_spec_path hc ?_ ?_ hleaf ?_
      · intro zs hzs
        rcases List.mem_append.1 hzs with hin | hin
        · exact hfull zs hin
        · rw [List.mem_singleton.1 hin, hlast]
      · rw [length_append]
        exact Nat.lt_of_mul_lt_mul_right hnext
      · rw [hdiv, length_append, length_singleton]

/-- The trie of a vector: none, or a root whose height fits the number of elements. -/
def TrieRep (m : VecMem α) (root : Option Addr) (shift : Nat) (xs : List α) : Prop :=
  match root with
  | none => shift = 0 ∧ xs = []
  | some a => ∃ d, shift = vecBits * d ∧ NodeRep m d a xs ∧ (d = 0 ∨ 32 ^ d < xs.length)

theorem TrieRep.mono (hm : m ≤ m') (h : TrieRep m root shift xs) : TrieRep m' root shift xs := by
  unfold TrieRep at h ⊢
  split at h
  · exact h
  · obtain ⟨d, hshift, hnode, hfit⟩ := h
    exact ⟨d, hshift, hnode.mono hm, hfit⟩

theorem full_iff (n d : Nat) : n >>> vecBits ≥ 1 <<< (vecBits * d) ↔ 32 ^ (d + 1) ≤ n := by
  rw [Nat.shiftRight_eq_div_pow, Nat.one_shiftLeft, vecBits, Nat.pow_mul, Nat.pow_succ]
  exact Nat.le_div_iff_mul_le (by decide)

theorem pushVecTail_some (m : VecMem α) (hlen : tail.len = vecBranch) (a : Addr)
    (d trieLen : Nat) :
    pushVecTail g m (some a) (vecBits * d) trieLen tail =
      let l := m.newNode ⟨Slice.nil, tail⟩
      if 32 ^ (d + 1) ≤ trieLen then
        let p := newVecPath l.1 (vecBits * d) l.2
        let r := VecMem.newNode
          { p.1 with kidArrays := (p.1.kidArrays.alloc [some a, some p.2]).1 }
          ⟨⟨p.1.kidArrays.next, 0, 2, 2⟩, Slice.nil⟩
        some (r.1, some r.2, vecBits * (d + 1))
      else
        (pushVecLeaf g l.1 a (vecBits * d) trieLen l.2).map
          fun r => (r.1, some r.2, vecBits * d) := by
  have hfull := full_iff trieLen d
  simp only [pushVecTail, hlen, ne_eq, not_true_eq_false, if_false, hfull]
  split
  · rfl
  · cases pushVecLeaf g (m.newNode ⟨Slice.nil, tail⟩).1 a (vecBits * d) trieLen
      (m.newNode ⟨Slice.nil, tail⟩).2 <;> rfl

theorem growRoot_spec (h : NodeRep m d a xs) (hfull : 32 ^ (d + 1) ≤ xs.length)
    (hleaf : NodeRep m 0 leaf ys) :
    let p := newVecPath m (vecBits * d) leaf
    let r := VecMem.newNode { p.1 with kidArrays := (p.1.kidArrays.alloc [some a, some p.2]).1 }
      ⟨⟨p.1.kidArrays.next, 0, 2, 2⟩, Slice.nil⟩
    m ≤ r.1 ∧ NodeRep r.1 (d + 1) r.2 (xs ++ ys) := by
  intro p r
  obtain ⟨hm, hstable⟩ := newVecPath_spec m hleaf d
  have hpath : NodeRep p.1 d p.2 ys := hstable _ (After.self hm)
  obtain ⟨hext, hv, hview, -⟩ :=
    Slice.alloc_spec p.1.kidArrays [some a, some p.2] [] 2 2 rfl rfl
  have hxs : xs.length = 32 ^ (d + 1) := Nat.le_antisymm h.length_le hfull
  have hr : p.1 ≤ r.1 := (le_kidArrays hext).trans (le_newNode _ _)
  have hflat : xs ++ ys = ([xs] ++ [ys]).flatten := by simp
  refine ⟨hm.trans hr, ?_⟩
  rw [hflat]
  refine stableRep_newNode [a, p.2] hv hview (Nat.le_refl _) ?_ (by simp)
    (Chunked.append_singleton (by simpa using hxs) hpath.pos hpath.length_le) _
    (After.self hr)
  intro m'' hafter
  exact List.Forall₂.cons (h.mono (hm.trans hafter.base))
    (List.Forall₂.cons (hpath.mono hafter.base) List.Forall₂.nil)

/-- A full tail pushed into the trie appends its elements. The memory before keeps what it
holds. -/
theorem pushVecTail_spec
    (h : TrieRep m root shift xs) (hv : tail.Valid m.arrays) (hview : tail.view m.arrays = ys)
    (hys : ys.length = 32) :
    ∃ m' root' shift', pushVecTail g m root shift xs.length tail =
        some (m', some root', shift') ∧ m ≤ m' ∧ TrieRep m' (some root') shift' (xs ++ ys) := by
  have hlen : tail.len = vecBranch := by rw [← hv.length_view, hview, hys]; rfl
  have hleaf := nodeRep_leaf hv hview hys
  have hm := le_newNode m ⟨Slice.nil, tail⟩
  cases root with
  | none =>
    obtain ⟨rfl, rfl⟩ := h
    exact ⟨_, _, 0, by simp only [pushVecTail, hlen, ne_eq, not_true_eq_false, if_false],
      hm, 0, rfl, hleaf, Or.inl rfl⟩
  | some a =>
    obtain ⟨d, rfl, hnode, hfit⟩ := h
    have hrun := pushVecTail_some g m hlen a d xs.length
    by_cases hfull : 32 ^ (d + 1) ≤ xs.length
    · simp only [hfull, if_true] at hrun
      obtain ⟨hm', hrep⟩ := growRoot_spec (hnode.mono hm) hfull hleaf
      refine ⟨_, _, _, hrun, hm.trans hm', d + 1, rfl, hrep, Or.inr ?_⟩
      rw [length_append]
      omega
    · simp only [hfull, if_false] at hrun
      -- a root with room is above the leaves, since leaves are full
      cases d with
      | zero => exact absurd hnode.length_leaf.ge hfull
      | succ d =>
        have hmod := Nat.mod_eq_of_lt (Nat.lt_of_not_le hfull)
        obtain ⟨m', a', hpush, hm', hstable⟩ :=
          pushVecLeaf_spec g hleaf (le_refl _) (hnode.mono hm) hmod
        rw [hpush] at hrun
        refine ⟨m', a', _, hrun, hm.trans hm', d + 1, rfl, hstable _ (After.self hm'), Or.inr ?_⟩
        rw [length_append]
        omega

end

end LispVector

end Core

end Lispico
