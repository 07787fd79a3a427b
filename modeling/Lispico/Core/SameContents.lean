import Lispico.Core.Equality
import Mathlib

/-!
# Values that hold the same

Two values hold the same if they differ at most in the order of the pairs of their maps, at
any depth. No program can tell them apart: maps are printed and listed in key order, and a
lookup does not see the order of the pairs.
-/

namespace Lispico

namespace Core

open Lib

namespace Value

inductive SameContents : Value → Value → Prop where
  | scalar {v : Value} (h : v.isCollection = false) : SameContents v v
  | list {xs ys : List Value} (hlen : xs.length = ys.length)
      (h : ∀ p ∈ xs.zip ys, SameContents p.1 p.2) : SameContents (.list xs) (.list ys)
  | vector {xs ys : List Value} (hlen : xs.length = ys.length)
      (h : ∀ p ∈ xs.zip ys, SameContents p.1 p.2) : SameContents (.vector xs) (.vector ys)
  | map {ps rs qs : List (Value × Value)} (hperm : ps.Perm rs) (hlen : rs.length = qs.length)
      (hkeys : ∀ p ∈ rs.zip qs, p.1.1 = p.2.1)
      (h : ∀ p ∈ rs.zip qs, SameContents p.1.2 p.2.2) : SameContents (.map ps) (.map qs)

variable {α β : Type*} {xs : List α} {ys : List β} {R : α → β → Prop}

theorem forall₂_of_zip (hlen : xs.length = ys.length)
    (h : ∀ p ∈ xs.zip ys, R p.1 p.2) : List.Forall₂ R xs ys :=
  List.forall₂_iff_zip.2 ⟨hlen, fun hmem => h _ hmem⟩

theorem zip_of_forall₂ (h : List.Forall₂ R xs ys) : ∀ p ∈ xs.zip ys, R p.1 p.2 :=
  fun _ hmem => (List.forall₂_iff_zip.1 h).2 hmem

/-- The pairs stand at the same places with the same keys, and their values are related. -/
def PairsRel (R : Value → Value → Prop) (p q : Value × Value) : Prop := p.1 = q.1 ∧ R p.2 q.2

theorem sameContents_list {xs ys : List Value} (h : List.Forall₂ SameContents xs ys) :
    SameContents (.list xs) (.list ys) :=
  .list h.length_eq (zip_of_forall₂ h)

theorem sameContents_vector {xs ys : List Value} (h : List.Forall₂ SameContents xs ys) :
    SameContents (.vector xs) (.vector ys) :=
  .vector h.length_eq (zip_of_forall₂ h)

variable {ps rs qs : List (Value × Value)}

theorem sameContents_map (hperm : ps.Perm rs) (h : List.Forall₂ (PairsRel SameContents) rs qs) :
    SameContents (.map ps) (.map qs) :=
  .map hperm h.length_eq (fun p hp => (zip_of_forall₂ h p hp).1)
    fun p hp => (zip_of_forall₂ h p hp).2

theorem WellFormed.sameContents {v : Value} (h : WellFormed v) : SameContents v v := by
  induction h with
  | scalar h => exact .scalar h
  | list _ ih => exact sameContents_list (List.forall₂_same.2 ih)
  | vector _ ih => exact sameContents_vector (List.forall₂_same.2 ih)
  | map hkeys _ ih =>
    refine sameContents_map (List.Perm.refl _) (List.forall₂_same.2 fun p hp => ⟨rfl, ?_⟩)
    obtain ⟨hk, hkey⟩ := hkeys.hashable p hp
    exact ih (hk, p.2) (WellKeyed.mem_entries.2 ⟨p, hp, hkey, rfl⟩)

variable {a b : Value} {R : Value → Value → Prop}

theorem SameContents.symm (h : SameContents a b) : SameContents b a := by
  induction h with
  | scalar h => exact .scalar h
  | list hlen _ ih =>
    exact sameContents_list (forall₂_of_zip hlen ih : List.Forall₂ (flip SameContents) _ _).flip
  | vector hlen _ ih =>
    exact sameContents_vector (forall₂_of_zip hlen ih : List.Forall₂ (flip SameContents) _ _).flip
  | map hperm hlen hkeys _ ih =>
    have hpairs : List.Forall₂ (flip (PairsRel SameContents)) _ _ :=
      forall₂_of_zip hlen fun p hp => ⟨(hkeys p hp).symm, ih p hp⟩
    obtain ⟨ss, hss, hperm'⟩ := List.perm_comp_forall₂ hperm hpairs
    exact sameContents_map hperm'.symm hss.flip

theorem forall₂_trans {R : α → α → Prop} {ys zs : List α}
    (hxy : List.Forall₂ (fun x y => ∀ z, R y z → R x z) xs ys) (hyz : List.Forall₂ R ys zs) :
    List.Forall₂ R xs zs := by
  induction hxy generalizing zs with
  | nil => exact hyz
  | cons hhead _ ih =>
    cases hyz with
    | cons hhead' htail' => exact .cons (hhead _ hhead') (ih htail')

theorem SameContents.trans {c : Value} (hab : SameContents a b) (hbc : SameContents b c) :
    SameContents a c := by
  induction hab generalizing c with
  | scalar h => exact hbc
  | list hlen _ ih =>
    cases hbc with
    | scalar h => cases h
    | list hlen' h' =>
      exact sameContents_list (forall₂_trans
        (forall₂_of_zip hlen fun p hp z hz => ih p hp hz) (forall₂_of_zip hlen' h'))
  | vector hlen _ ih =>
    cases hbc with
    | scalar h => cases h
    | vector hlen' h' =>
      exact sameContents_vector (forall₂_trans
        (forall₂_of_zip hlen fun p hp z hz => ih p hp hz) (forall₂_of_zip hlen' h'))
  | map hperm hlen hkeys _ ih =>
    cases hbc with
    | scalar h => cases h
    | map hperm' hlen' hkeys' h' =>
      have hpairs : List.Forall₂
          (fun p q => ∀ r, PairsRel SameContents q r → PairsRel SameContents p r) _ _ :=
        forall₂_of_zip hlen fun p hp r hr =>
          ⟨(hkeys p hp).trans hr.1, ih p hp hr.2⟩
      have hcomp : Relation.Comp (List.Forall₂ _) List.Perm _ _ := ⟨_, hpairs, hperm'⟩
      rw [List.forall₂_comp_perm_eq_perm_comp_forall₂] at hcomp
      obtain ⟨ts, hts, hpairs'⟩ := hcomp
      refine sameContents_map (hperm.trans hts) (forall₂_trans hpairs' ?_)
      exact forall₂_of_zip hlen' fun p hp => ⟨hkeys' p hp, h' p hp⟩

theorem entries_keys (pairs : List (Value × Value)) : (entries pairs).map Prod.fst =
      (pairs.map Prod.fst).filterMap fun k => (toHashKey k.key).toOption := by
  rw [entries, List.map_filterMap, List.filterMap_map]
  congr 1
  funext p
  cases h : toHashKey p.1.key <;> simp [h, Except.toOption]

theorem WellKeyed.of_keys (hqs : WellKeyed qs) (h : (ps.map Prod.fst).Perm (qs.map Prod.fst)) :
    WellKeyed ps := by
  constructor
  · intro p hp
    obtain ⟨q, hq, hkey⟩ := List.mem_map.1 (h.mem_iff.1 (List.mem_map_of_mem hp))
    obtain ⟨hk, hhash⟩ := hqs.hashable q hq
    exact ⟨hk, hkey ▸ hhash⟩
  · have hdistinct := hqs.distinct
    rw [Keyed.Distinct, entries_keys] at hdistinct ⊢
    exact (h.filterMap _).nodup_iff.2 hdistinct

theorem PairsRel.keys (h : List.Forall₂ (PairsRel R) rs qs) :
    rs.map Prod.fst = qs.map Prod.fst := by
  induction h with
  | nil => rfl
  | cons hpq _ ih => rw [List.map_cons, List.map_cons, hpq.1, ih]

theorem forall_left {P : α → Prop} {Q : β → Prop} (h : List.Forall₂ (fun x y => Q y → P x) xs ys)
    (hys : ∀ y ∈ ys, Q y) : ∀ x ∈ xs, P x := by
  induction h with
  | nil => simp
  | cons hxy _ ih =>
    rintro x (_ | ⟨_, hx⟩)
    · exact hxy (hys _ List.mem_cons_self)
    · exact ih (fun y hy => hys y (List.mem_cons_of_mem _ hy)) x hx

theorem SameContents.wellFormed (h : SameContents a b) (hb : WellFormed b) : WellFormed a := by
  induction h with
  | scalar => exact hb
  | list hlen _ ih => exact .list (forall_left (forall₂_of_zip hlen ih) hb.list_items)
  | vector hlen _ ih => exact .vector (forall_left (forall₂_of_zip hlen ih) hb.vector_items)
  | @map ps rs qs hperm hlen hkeys _ ih =>
    have hrel : List.Forall₂ (PairsRel fun x y => WellFormed y → WellFormed x) rs qs :=
      forall₂_of_zip hlen fun p hp => ⟨hkeys p hp, ih p hp⟩
    have hps : WellKeyed ps := by
      refine hb.map_entries.1.of_keys ?_
      rw [← PairsRel.keys hrel]
      exact hperm.map Prod.fst
    have hvals : ∀ p ∈ rs, WellFormed p.2 :=
      forall_left (hrel.imp fun p q hpq => hpq.2) fun q hq => hb.map_value hq
    refine .map hps fun e he => ?_
    obtain ⟨p, hp, -, hval⟩ := WellKeyed.mem_entries.1 he
    exact hval ▸ hvals p (hperm.mem_iff.1 hp)

theorem SameContents.scalarNorm_eq (h : SameContents a b) : a.scalarNorm = b.scalarNorm := by
  cases h <;> rfl

theorem mapGet_perm (h : WellKeyed ps) (hperm : ps.Perm rs) (k : Value) :
    mapGet rs k = mapGet ps k := by
  unfold mapGet
  cases toHashKey k.key with
  | error err => rfl
  | ok hk =>
    simp only [pairsGet_eq]
    have hentries : (entries ps).Perm (entries rs) := hperm.filterMap _
    rw [Keyed.lookup_perm h.distinct hentries]

theorem mapGet_rel (h : List.Forall₂ (PairsRel R) rs qs) (k : Value) :
    Option.Rel R (mapGet rs k) (mapGet qs k) := by
  unfold mapGet
  cases toHashKey k.key with
  | error err => exact .none
  | ok hk =>
    induction h with
    | nil => exact .none
    | @cons r q _ _ hpair _ ih =>
      obtain ⟨hkey, hval⟩ := hpair
      obtain ⟨rk, rv⟩ := r
      obtain ⟨qk, qv⟩ := q
      cases hkey
      simp only [pairsGet]
      cases toHashKey rk.key with
      | error err => exact ih
      | ok hk' =>
        by_cases heq : hk' = hk
        · simp only [heq, if_true]
          exact .some hval
        · simp only [heq, if_false]
          exact ih

end Value

end Core

end Lispico
