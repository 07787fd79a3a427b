import Lispico.Core.ValueWalks

/-!
# Extending a container by an element

When a container is extended, only the new element is checked, as if it stood one level inside a
container. The rest of the container was checked when it was built.
-/

namespace Lispico

namespace Core

namespace ValueWalk

open Value List

def checkConstructionDepth (v : Value) (constructionDepthLimit : Option Int) :
    Except GoErr Unit :=
  checkDepthAt v 0 (depthLimit constructionDepthLimit)

def checkNestedElementDepth (v : Value) (constructionDepthLimit : Option Int) :
    Except GoErr Unit :=
  checkDepthAt v 1 (depthLimit constructionDepthLimit)

/-- A container that has been extended, with the container it was and the elements it was extended
by. The key of a map's entry is an element too. -/
inductive Extended : Value → List Value → Value → Prop where
  | listAt (before after : List Value) (e : Value) :
      Extended (.list (before ++ after)) [e] (.list (before ++ e :: after))
  | vectorAt (before after : List Value) (e : Value) :
      Extended (.vector (before ++ after)) [e] (.vector (before ++ e :: after))
  | mapSet {pairs pairs' : List (Value × Value)} {k v : Value}
      (h : Value.mapSet pairs k v = .ok pairs') : Extended (.map pairs) [k, v] (.map pairs')

theorem checkDepthAt_ok_iff {v : Value} {depth limit : Nat} :
    checkDepthAt v depth limit = .ok () ↔ constructionDepthExceeded limit v depth = false := by
  unfold checkDepthAt
  cases constructionDepthExceeded limit v depth <;> simp

/-- A container is within the limit just when it may be built at all and its parts may stand in
it. -/
theorem within_iff {c : Value} (hc : isNested c = true) {limit : Nat} :
    constructionDepthExceeded limit c 0 = false ↔
      1 ≤ limit ∧ ∀ v ∈ parts c, constructionDepthExceeded limit v 1 = false := by
  have hpos : limit < 0 + 1 ↔ ¬ 1 ≤ limit := Nat.not_le.symm
  rw [constructionDepthExceeded_eq, hc, Bool.true_and, Bool.or_eq_false_iff,
    decide_eq_false_iff_not,
    gt_iff_lt, hpos, not_not, any_eq_false]
  simp only [Bool.not_eq_true]

variable {pairs : List (Value × Value)} {P : Value → Prop} {es : List Value} {hk : HashKey}
  {c c' : Value} {k v : Value}

theorem forall_parts_map : (∀ v ∈ parts (.map pairs), P v) ↔ ∀ e ∈ pairs, P e.1 ∧ P e.2 := by
  simp only [parts, mem_flatMap, mem_sortedEntries]
  constructor
  · intro h e he
    exact ⟨h _ ⟨e, he, mem_cons_self⟩, h _ ⟨e, he, mem_cons_of_mem _
      mem_cons_self⟩⟩
  · rintro h v ⟨e, he, hv⟩
    rcases List.mem_pair.1 hv with rfl | rfl
    · exact (h e he).1
    · exact (h e he).2

theorem mem_pairsSet_self (hk : HashKey) (k v : Value) (pairs : List (Value × Value)) :
    (k, v) ∈ pairsSet hk k v pairs := by
  induction pairs with
  | nil => exact mem_singleton_self _
  | cons e pairs ih =>
    obtain ⟨k', v'⟩ := e
    unfold pairsSet
    split
    · split
      · exact mem_cons_self
      · split
        · exact mem_cons_self
        · exact mem_cons_of_mem _ ih
    · exact mem_cons_of_mem _ ih

theorem mem_pairsSet
    {e : Value × Value} (h : e ∈ pairsSet hk k v pairs) : e = (k, v) ∨ e ∈ pairs := by
  induction pairs with
  | nil => exact .inl (List.mem_singleton.1 h)
  | cons e' pairs ih =>
    obtain ⟨k', v'⟩ := e'
    have hrest : e ∈ (k', v') :: pairsSet hk k v pairs → e = (k, v) ∨ e ∈ (k', v') :: pairs := by
      intro hmem
      rcases List.mem_cons.1 hmem with rfl | hmem
      · exact .inr mem_cons_self
      · exact (ih hmem).imp_right (mem_cons_of_mem _)
    unfold pairsSet at h
    split at h
    · split at h
      · exact (List.mem_cons.1 h).imp_right (mem_cons_of_mem _)
      · split at h
        · exact List.mem_cons.1 h
        · exact hrest h
    · exact hrest h

theorem forall_pairsSet_iff {P : Value × Value → Prop} (h : ∀ e ∈ pairs, P e) :
    (∀ e ∈ pairsSet hk k v pairs, P e) ↔ P (k, v) := by
  refine ⟨fun hall => hall _ (mem_pairsSet_self hk k v pairs), fun hnew e he => ?_⟩
  rcases mem_pairsSet he with rfl | he
  · exact hnew
  · exact h e he

/-- If the parts of a container have a property, those of the extended one have it just when the
elements have it. -/
theorem Extended.forall_parts_iff (h : Extended c es c') (hc : ∀ v ∈ parts c, P v) :
    (∀ v ∈ parts c', P v) ↔ ∀ e ∈ es, P e := by
  cases h with
  | listAt before after e =>
    obtain ⟨hbefore, hafter⟩ := forall_mem_append.1 hc
    simp only [parts, forall_mem_append, forall_mem_cons]
    exact ⟨fun h => ⟨h.2.1, by simp⟩, fun h => ⟨hbefore, h.1, hafter⟩⟩
  | vectorAt before after e =>
    obtain ⟨hbefore, hafter⟩ := forall_mem_append.1 hc
    simp only [parts, forall_mem_append, forall_mem_cons]
    exact ⟨fun h => ⟨h.2.1, by simp⟩, fun h => ⟨hbefore, h.1, hafter⟩⟩
  | @mapSet pairs pairs' k v hset =>
    obtain ⟨hk, rfl⟩ : ∃ hk, pairsSet hk k v pairs = pairs' := by
      unfold Value.mapSet at hset
      split at hset
      · exact ⟨_, Except.ok.inj hset⟩
      · cases hset
    rw [forall_parts_map] at hc ⊢
    rw [forall_pairsSet_iff hc, forall_mem_cons, forall_mem_singleton]

theorem Extended.isNested (h : Extended c es c') :
    ValueWalk.isNested c = true ∧ ValueWalk.isNested c' = true := by
  cases h <;> exact ⟨rfl, rfl⟩

/-- With a container within the limit, checking the elements it is extended by accepts exactly
when the full check of the extended container does. -/
theorem nested_check_iff {c c' : Value} {es : List Value} (h : Extended c es c')
    (limit : Option Int) (hc : checkConstructionDepth c limit = .ok ()) :
    (∀ e ∈ es, checkNestedElementDepth e limit = .ok ()) ↔
      checkConstructionDepth c' limit = .ok () := by
  simp only [checkConstructionDepth, checkNestedElementDepth, checkDepthAt_ok_iff] at hc ⊢
  rw [within_iff h.isNested.1] at hc
  rw [within_iff h.isNested.2, and_iff_right hc.1, h.forall_parts_iff hc.2]

/-- A map with a vector in it is one level too deep between the elements of this list. -/
theorem nested_check_of_map : let element := Value.map [(.keyword "k", .vector [.int 1])]
    checkNestedElementDepth element (some 2) ≠ .ok () ∧
      checkConstructionDepth (.list [.nil, element, .list [.int 2]]) (some 2) ≠ .ok () := by
  intro element
  have hiff := nested_check_iff (.listAt [.nil] [.list [.int 2]] element) (some 2)
    (by rfl)
  have hnested : checkNestedElementDepth element (some 2) ≠ .ok () := by
    rw [checkNestedElementDepth, ne_eq, checkDepthAt_ok_iff]
    decide
  refine ⟨hnested, fun hfull => hnested ?_⟩
  exact hiff.2 hfull _ (mem_singleton_self _)

end ValueWalk

end Core

end Lispico
