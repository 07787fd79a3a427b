import Lispico.Core.Value
import Lispico.Lib.Keyed
import Mathlib

/-!
# Equality of values

The pairs of a map stand in any order here; what matters is that no two keys have one hash key.
Values that are no collections are equal when they have the same normal form, which the NaNs,
lambdas and macros lack.
-/

namespace Lispico

namespace Core

open Lib List

theorem forall₂_imp_of_mem {α β : Type*} {R S : α → β → Prop} {xs : List α} {ys : List β}
    (h : ∀ x ∈ xs, ∀ y ∈ ys, R x y → S x y) (hall : List.Forall₂ R xs ys) :
    List.Forall₂ S xs ys := by
  rw [forall₂_iff_zip] at hall ⊢
  refine ⟨hall.1, fun hmem => ?_⟩
  exact h _ (of_mem_zip hmem).1 _ (of_mem_zip hmem).2 (hall.2 hmem)

theorem part_of_negZeroBits {a b : UInt64} (h : a ||| b = negZeroBits) :
    a = 0 ∨ a = negZeroBits := by
  have hor : a.toNat ||| b.toNat = 2 ^ 63 := by
    rw [← UInt64.toNat_or, h]
    rfl
  have hand : a.toNat &&& 2 ^ 63 = a.toNat := by
    rw [← hor]
    apply Nat.eq_of_testBit_eq
    intro i
    rw [Nat.testBit_and, Nat.testBit_or]
    cases a.toNat.testBit i <;> simp
  rw [Nat.and_two_pow] at hand
  cases hbit : a.toNat.testBit 63 with
  | false => exact .inl (UInt64.toNat_inj.1 (by rw [← hand, hbit]; rfl))
  | true => exact .inr (UInt64.toNat_inj.1 (by rw [← hand, hbit]; rfl))

theorem or_eq_negZeroBits {a b : UInt64} (h : a ||| b = negZeroBits) :
    (a = 0 ∨ a = negZeroBits) ∧ (b = 0 ∨ b = negZeroBits) :=
  ⟨part_of_negZeroBits h, part_of_negZeroBits ((UInt64.or_comm b a).trans h)⟩

namespace Value

def floatNorm (bits : UInt64) : UInt64 := if bits = negZeroBits then 0 else bits

theorem floatEq_iff (a b : UInt64) : floatEq a b = true ↔
      isNaNBits a = false ∧ isNaNBits b = false ∧ floatNorm a = floatNorm b := by
  have hbits : (a = b ∨ a ||| b = negZeroBits) ↔ floatNorm a = floatNorm b := by
    constructor
    · rintro (rfl | h)
      · rfl
      · obtain ⟨ha | ha, hb | hb⟩ := or_eq_negZeroBits h <;> subst ha <;> subst hb <;> decide
    · intro h
      unfold floatNorm at h
      split at h <;> split at h
      · rename_i ha hb
        exact .inl (ha.trans hb.symm)
      · rename_i ha hb
        subst ha
        subst h
        right
        decide
      · rename_i ha hb
        subst hb
        subst h
        right
        decide
      · exact .inl h
  simp only [floatEq, Bool.and_eq_true, Bool.not_eq_true', Bool.or_eq_true, beq_iff_eq, hbits,
    and_assoc]

/-- Whether a value has parts that `Equals` descends into. -/
def isCollection : Value → Bool
  | .list _ => true
  | .vector _ => true
  | .map _ => true
  | _ => false

/-- The normal form that equal values share. Collections are compared by their parts. -/
def scalarNorm : Value → Option Value
  | .float bits => if isNaNBits bits then none else some (.float (floatNorm bits))
  | .goFunc name _ => some (.goFunc name 0)
  | .lambda _ _ _ _ _ => none
  | .macroVal _ _ _ _ _ => none
  | .recurVal _ => none
  | .list _ => none
  | .vector _ => none
  | .map _ => none
  | v => some v

variable {a : Value} (levels : Nat) (xs : List Value) (b : Value)

theorem boundedEquals_scalar (ha : a.isCollection = false) (levels : Nat) (b : Value) :
    boundedEquals (levels + 1) a b = true ↔
      a.scalarNorm = b.scalarNorm ∧ a.scalarNorm ≠ none := by
  cases a with
  | list items => cases ha
  | vector items => cases ha
  | map pairs => cases ha
  | float bits =>
    cases b with
    | float bits' =>
      simp only [boundedEquals, floatEq_iff, scalarNorm]
      cases isNaNBits bits <;> cases isNaNBits bits' <;> simp
    | _ =>
      simp only [boundedEquals, scalarNorm]
      split <;> simp
  | _ =>
    cases b <;> simp [boundedEquals, scalarNorm, and_assoc]

theorem boundedEquals_list : boundedEquals (levels + 1) (.list xs) b = true ↔
      ∃ ys, b = .list ys ∧ List.Forall₂ (fun x y => boundedEquals levels x y = true) xs ys := by
  cases b <;> simp [boundedEquals, forall₂_iff_zip]

theorem boundedEquals_vector : boundedEquals (levels + 1) (.vector xs) b = true ↔
      ∃ ys, b = .vector ys ∧ List.Forall₂ (fun x y => boundedEquals levels x y = true) xs ys := by
  cases b <;> simp [boundedEquals, forall₂_iff_zip]

def entries (pairs : List (Value × Value)) : List (HashKey × Value) :=
  pairs.filterMap fun p => (toHashKey p.1.key).toOption.map fun hk => (hk, p.2)

variable {p : Value × Value} {hk : HashKey}

theorem entries_cons_ok (h : toHashKey p.1.key = .ok hk)
    (pairs : List (Value × Value)) : entries (p :: pairs) = (hk, p.2) :: entries pairs := by
  simp [entries, h, Except.toOption]

theorem entries_cons_error {err : String} (h : toHashKey p.1.key = .error err)
    (pairs : List (Value × Value)) :
    entries (p :: pairs) = entries pairs := by
  simp [entries, h, Except.toOption]

theorem pairsGet_eq (hk : HashKey) (pairs : List (Value × Value)) :
    pairsGet hk pairs = (Keyed.lookup Prod.fst (entries pairs) hk).map Prod.snd := by
  induction pairs with
  | nil => rfl
  | cons p pairs ih =>
    obtain ⟨k, v⟩ := p
    cases h : toHashKey k.key with
    | ok hk' =>
      rw [entries_cons_ok h, pairsGet, h, ih]
      by_cases hkey : hk' = hk <;> simp [Keyed.lookup, hkey]
    | error err =>
      rw [entries_cons_error h, pairsGet, h, ih]

theorem mapGet_eq {k : Value} (h : toHashKey k.key = .ok hk) (pairs : List (Value × Value)) :
    mapGet pairs k = (Keyed.lookup Prod.fst (entries pairs) hk).map Prod.snd := by
  rw [mapGet, h, ← pairsGet_eq]

/-- The keys of a map can be hashed, and no two of them have one hash key. -/
structure WellKeyed (pairs : List (Value × Value)) : Prop where
  hashable : ∀ p ∈ pairs, ∃ hk, toHashKey p.1.key = .ok hk
  distinct : Keyed.Distinct Prod.fst (entries pairs)

variable {pairs : List (Value × Value)} {ps qs : List (Value × Value)} {items : List Value}

theorem WellKeyed.mem_entries {e : HashKey × Value} :
    e ∈ entries pairs ↔ ∃ p ∈ pairs, toHashKey p.1.key = .ok e.1 ∧ p.2 = e.2 := by
  simp only [entries, mem_filterMap]
  constructor
  · rintro ⟨p, hp, he⟩
    cases h : toHashKey p.1.key with
    | ok hk =>
      simp only [h, Except.toOption, Option.map_some, Option.some.injEq] at he
      subst he
      exact ⟨p, hp, h, rfl⟩
    | error err => simp [h, Except.toOption] at he
  · rintro ⟨p, hp, hkey, hval⟩
    refine ⟨p, hp, ?_⟩
    simp [hkey, hval, Except.toOption]

theorem WellKeyed.length_entries (h : WellKeyed pairs) :
    (entries pairs).length = pairs.length := by
  have hlen : ∀ ps : List (Value × Value), (∀ p ∈ ps, ∃ hk, toHashKey p.1.key = .ok hk) →
      (entries ps).length = ps.length := by
    intro ps
    induction ps with
    | nil => exact fun _ => rfl
    | cons p ps ih =>
      intro hps
      obtain ⟨hk, hkey⟩ := hps p mem_cons_self
      rw [entries_cons_ok hkey, length_cons, length_cons,
        ih fun q hq => hps q (mem_cons_of_mem p hq)]
  exact hlen pairs h.hashable

theorem WellKeyed.entries_perm {β : Type*} {f : Value → β}
    (hps : WellKeyed ps) (hlen : (entries ps).length = (entries qs).length)
    (h : ∀ e ∈ entries ps, ∃ e' ∈ entries qs, e'.1 = e.1 ∧ f e.2 = f e'.2) :
    ((entries ps).map fun e => (e.1, f e.2)).Perm ((entries qs).map fun e => (e.1, f e.2)) := by
  have hnodup : ((entries ps).map fun e => (e.1, f e.2)).Nodup := by
    apply List.Nodup.of_map Prod.fst
    rw [map_map]
    exact hps.distinct
  have hsub : ((entries ps).map fun e => (e.1, f e.2)) ⊆
      (entries qs).map fun e => (e.1, f e.2) := by
    intro x hx
    obtain ⟨e, he, rfl⟩ := List.mem_map.1 hx
    obtain ⟨e', he', hkey, hval⟩ := h e he
    exact List.mem_map.2 ⟨e', he', by rw [hkey, hval]⟩
  exact (subperm_of_subset hnodup hsub).perm_of_length_le (by simp [hlen])

/-- A value as the runtime builds it: below it, every map is well keyed. -/
inductive WellFormed : Value → Prop where
  | scalar {v : Value} (h : v.isCollection = false) : WellFormed v
  | list {items : List Value} (h : ∀ v ∈ items, WellFormed v) : WellFormed (.list items)
  | vector {items : List Value} (h : ∀ v ∈ items, WellFormed v) : WellFormed (.vector items)
  | map {pairs : List (Value × Value)} (hkeys : WellKeyed pairs)
      (h : ∀ e ∈ entries pairs, WellFormed e.2) : WellFormed (.map pairs)

theorem WellFormed.list_items (h : WellFormed (.list items)) : ∀ v ∈ items, WellFormed v := by
  cases h with
  | scalar h => cases h
  | list h => exact h

theorem WellFormed.vector_items (h : WellFormed (.vector items)) : ∀ v ∈ items, WellFormed v := by
  cases h with
  | scalar h => cases h
  | vector h => exact h

section

variable (h : WellFormed (.map pairs))

include h

theorem WellFormed.map_entries : WellKeyed pairs ∧ ∀ e ∈ entries pairs, WellFormed e.2 := by
  cases h with
  | scalar h => cases h
  | map hkeys h => exact ⟨hkeys, h⟩

theorem WellFormed.map_value (hp : p ∈ pairs) : WellFormed p.2 := by
  obtain ⟨hkeys, hvals⟩ := h.map_entries
  obtain ⟨hk, hkey⟩ := hkeys.hashable p hp
  exact hvals (hk, p.2) (WellKeyed.mem_entries.2 ⟨p, hp, hkey, rfl⟩)

theorem WellFormed.mapGet {k v : Value}
    (hget : Value.mapGet pairs k = some v) : WellFormed v := by
  cases hkey : toHashKey k.key with
  | error err => simp [Value.mapGet, hkey] at hget
  | ok hk =>
    rw [mapGet_eq hkey, Option.map_eq_some_iff] at hget
    obtain ⟨e, hlook, rfl⟩ := hget
    exact h.map_entries.2 e (mem_of_find?_eq_some hlook)

end

variable {b : Value}

theorem boundedEquals_map_other (ps : List (Value × Value))
    (h : boundedEquals (levels + 1) (.map ps) b = true) : ∃ qs, b = .map qs := by
  cases b with
  | map qs => exact ⟨qs, rfl⟩
  | _ => simp [boundedEquals] at h

theorem boundedEquals_map (hp : WellKeyed ps) (hq : WellKeyed qs) (levels : Nat) :
    boundedEquals (levels + 1) (.map ps) (.map qs) = true ↔
      (entries ps).length = (entries qs).length ∧
        ∀ e ∈ entries ps, ∃ e' ∈ entries qs, e'.1 = e.1 ∧
          boundedEquals levels e.2 e'.2 = true := by
  simp only [boundedEquals, Bool.and_eq_true, beq_iff_eq, all_eq_true,
    hp.length_entries, hq.length_entries]
  refine and_congr_right fun _ => ?_
  constructor
  · intro h e he
    obtain ⟨p, hmem, hkey, hval⟩ := WellKeyed.mem_entries.1 he
    have hp' := h p hmem
    rw [mapGet_eq hkey] at hp'
    cases hlook : Keyed.lookup Prod.fst (entries qs) e.1 with
    | none => simp [hlook] at hp'
    | some e' =>
      obtain ⟨he', hkey'⟩ := (Keyed.lookup_eq_some_iff hq.distinct).1 hlook
      simp only [hlook, Option.map_some, hval] at hp'
      exact ⟨e', he', hkey', hp'⟩
  · intro h p hmem
    obtain ⟨hk, hkey⟩ := hp.hashable p hmem
    obtain ⟨e', he', hkey', heq⟩ :=
      h (hk, p.2) (WellKeyed.mem_entries.2 ⟨p, hmem, hkey, rfl⟩)
    have hlook := (Keyed.lookup_eq_some_iff hq.distinct).2 ⟨he', hkey'⟩
    simp only [mapGet_eq hkey, hlook, Option.map_some]
    exact heq

theorem isCollection_of_scalarNorm {v : Value} (h : v.scalarNorm ≠ none) :
    v.isCollection = false := by
  cases v <;> first | rfl | exact absurd rfl h

/-- Equality of two values one level down, where `R` relates the parts. -/
inductive Level (R : Value → Value → Prop) : Value → Value → Prop where
  | scalar {a b : Value} (h : a.scalarNorm = b.scalarNorm) (hsome : a.scalarNorm ≠ none) :
      Level R a b
  | list {xs ys : List Value} (h : List.Forall₂ R xs ys) : Level R (.list xs) (.list ys)
  | vector {xs ys : List Value} (h : List.Forall₂ R xs ys) : Level R (.vector xs) (.vector ys)
  | map {ps qs : List (Value × Value)} (hps : WellKeyed ps) (hqs : WellKeyed qs)
      (hlen : (entries ps).length = (entries qs).length)
      (h : ∀ e ∈ entries ps, ∃ e' ∈ entries qs, e'.1 = e.1 ∧ R e.2 e'.2) :
      Level R (.map ps) (.map qs)

section

variable {c : Value} {R S T : Value → Value → Prop}

theorem Level.symm (h : Level R a b) (hR : ∀ x y, R x y → S y x) : Level S b a := by
  cases h with
  | scalar heq hsome => exact .scalar heq.symm (heq ▸ hsome)
  | list h => exact .list (h.imp hR).flip
  | vector h => exact .vector (h.imp hR).flip
  | map hps hqs hlen h =>
    refine .map hqs hps hlen.symm fun e he => ?_
    obtain ⟨e', he', hkey, hr⟩ := Keyed.partners_symm hps.distinct hqs.distinct hlen h e he
    exact ⟨e', he', hkey, hR _ _ hr⟩

theorem Level.trans (h : Level R a b) (h' : Level S b c) (hR : ∀ x y z, R x y → S y z → T x z) :
    Level T a c := by
  have hitems {xs ys zs : List Value} (h : List.Forall₂ R xs ys) (h' : List.Forall₂ S ys zs) :
      List.Forall₂ T xs zs := by
    induction h generalizing zs with
    | nil =>
      cases h'
      exact .nil
    | cons hxy _ ih =>
      cases h' with
      | cons hyz h' => exact .cons (hR _ _ _ hxy hyz) (ih h')
  cases h' with
  | scalar heq' hsome =>
    cases h with
    | scalar heq hsome' => exact .scalar (heq.trans heq') hsome'
    | list => exact absurd rfl hsome
    | vector => exact absurd rfl hsome
    | map => exact absurd rfl hsome
  | list h' =>
    cases h with
    | scalar heq hsome => exact absurd heq hsome
    | list h => exact .list (hitems h h')
  | vector h' =>
    cases h with
    | scalar heq hsome => exact absurd heq hsome
    | vector h => exact .vector (hitems h h')
  | map _ hrs hlen' h' =>
    cases h with
    | scalar heq hsome => exact absurd heq hsome
    | map hps _ hlen h =>
      refine .map hps hrs (hlen.trans hlen') fun e he => ?_
      obtain ⟨e', he', hkey, hr⟩ := h e he
      obtain ⟨e'', he'', hkey', hs⟩ := h' e' he'
      exact ⟨e'', he'', hkey'.trans hkey, hR _ _ _ hr hs⟩

end

/-- Well-formed values that are equal within so many levels. -/
structure Equated (levels : Nat) (a b : Value) : Prop where
  left : WellFormed a
  right : WellFormed b
  equal : boundedEquals levels a b = true

theorem equated_succ_iff {levels : Nat} (ha : WellFormed a) (hb : WellFormed b) :
    boundedEquals (levels + 1) a b = true ↔ Level (Equated levels) a b := by
  constructor
  · intro h
    cases ha with
    | scalar hscalar =>
      obtain ⟨heq, hsome⟩ := (boundedEquals_scalar hscalar levels b).1 h
      exact .scalar heq hsome
    | list hxs =>
      obtain ⟨ys, rfl, hall⟩ := (boundedEquals_list levels _ b).1 h
      exact .list (forall₂_imp_of_mem (fun x hx y hy => .mk (hxs x hx) (hb.list_items y hy)) hall)
    | vector hxs =>
      obtain ⟨ys, rfl, hall⟩ := (boundedEquals_vector levels _ b).1 h
      exact .vector
        (forall₂_imp_of_mem (fun x hx y hy => .mk (hxs x hx) (hb.vector_items y hy)) hall)
    | map hps hvals =>
      obtain ⟨qs, rfl⟩ := boundedEquals_map_other levels _ h
      obtain ⟨hqs, hvals'⟩ := hb.map_entries
      obtain ⟨hlen, hall⟩ := (boundedEquals_map hps hqs levels).1 h
      refine .map hps hqs hlen fun e he => ?_
      obtain ⟨e', he', hkey, heq⟩ := hall e he
      exact ⟨e', he', hkey, hvals e he, hvals' e' he', heq⟩
  · rintro (⟨heq, hsome⟩ | hall | hall | ⟨hps, hqs, hlen, hall⟩)
    · exact (boundedEquals_scalar (isCollection_of_scalarNorm hsome) levels b).2 ⟨heq, hsome⟩
    · exact (boundedEquals_list levels _ _).2 ⟨_, rfl, hall.imp fun _ _ h => h.equal⟩
    · exact (boundedEquals_vector levels _ _).2 ⟨_, rfl, hall.imp fun _ _ h => h.equal⟩
    · refine (boundedEquals_map hps hqs levels).2 ⟨hlen, fun e he => ?_⟩
      obtain ⟨e', he', hkey, h⟩ := hall e he
      exact ⟨e', he', hkey, h.equal⟩

theorem boundedEquals_symm {levels : Nat} (ha : WellFormed a) (hb : WellFormed b)
    (h : boundedEquals levels a b = true) : boundedEquals levels b a = true := by
  induction levels generalizing a b with
  | zero => cases h
  | succ levels ih =>
    refine (equated_succ_iff hb ha).2 (((equated_succ_iff ha hb).1 h).symm fun x y h => ?_)
    exact ⟨h.right, h.left, ih h.left h.right h.equal⟩

theorem boundedEquals_trans {levels : Nat} {c : Value} (ha : WellFormed a) (hb : WellFormed b)
    (hc : WellFormed c) (hab : boundedEquals levels a b = true)
    (hbc : boundedEquals levels b c = true) : boundedEquals levels a c = true := by
  induction levels generalizing a b c with
  | zero => cases hab
  | succ levels ih =>
    have hlevel := (equated_succ_iff ha hb).1 hab
    refine (equated_succ_iff ha hc).2 (hlevel.trans ((equated_succ_iff hb hc).1 hbc) ?_)
    exact fun x y z h h' => ⟨h.left, h'.right, ih h.left h.right h'.right h.equal h'.equal⟩

end Value

end Core

end Lispico
