import Lispico.Core.SameContents
import Lispico.Lib.Comp

/-!
# Equality under a work budget

`EqualsBounded` charges a step for each node it compares, and a step may refuse. It is so many
steps followed by the answer of `Equals`, and the number of steps does not depend on the order
in which maps are walked.
-/

namespace Lispico

namespace Core

open Lib List Lib.Comp

namespace Value

section

variable {B E : Type} (step : Comp B E Unit)

/-- The walk over two sequences of one length, which stops at the first mismatch. -/
def equalPairs (eq : Value → Value → Comp B E Bool) : List (Value × Value) → Comp B E Bool
  | [] => ret true
  | p :: ps => do
      let same ← eq p.1 p.2
      if same then equalPairs eq ps else ret false

/-- The walk over the entries of a map, which only an error stops. A key the other map lacks
costs a step. -/
def equalEntries (eq : Value → Value → Comp B E Bool) (qs : List (Value × Value)) :
    List (Value × Value) → Bool → Comp B E Bool
  | [], equal => ret equal
  | p :: ps, equal =>
    match mapGet qs p.1 with
    | none => do
        step
        equalEntries eq qs ps false
    | some other => do
        let same ← eq p.2 other
        equalEntries eq qs ps (equal && same)

/-- `equalsBounded`, with the number of nesting levels that are left. -/
def equalsBounded : Nat → Value → Value → Comp B E Bool
  | 0, _, _ => ret false
  | levels + 1, a, b => do
      step
      match a, b with
      | .list xs, .list ys =>
        if xs.length == ys.length then equalPairs (equalsBounded levels) (xs.zip ys)
        else ret false
      | .list _, _ => ret false
      | .vector xs, .vector ys =>
        if xs.length == ys.length then equalPairs (equalsBounded levels) (xs.zip ys)
        else ret false
      | .vector _, _ => ret false
      | .map ps, .map qs =>
        if ps.length == qs.length then equalEntries step (equalsBounded levels) qs ps true
        else ret false
      | .map _, _ => ret false
      | a, b => ret (a.equals b)

end

def EqualsBounded {B E : Type} (step : Comp B E Unit) (a b : Value) : Comp B E Bool :=
  equalsBounded step (defaultMaxStructuralDepth + 1) a b

def pairSteps (eq : Value → Value → Bool) (steps : Value → Value → Nat) :
    List (Value × Value) → Nat
  | [] => 0
  | p :: ps => steps p.1 p.2 + if eq p.1 p.2 then pairSteps eq steps ps else 0

def entrySteps (steps : Value → Value → Nat) (qs : List (Value × Value)) (p : Value × Value) :
    Nat :=
  match mapGet qs p.1 with
  | none => 1
  | some other => steps p.2 other

def equalsSteps : Nat → Value → Value → Nat
  | 0, _, _ => 0
  | levels + 1, a, b =>
    1 + match a, b with
      | .list xs, .list ys =>
        if xs.length == ys.length then
          pairSteps (boundedEquals levels) (equalsSteps levels) (xs.zip ys)
        else 0
      | .vector xs, .vector ys =>
        if xs.length == ys.length then
          pairSteps (boundedEquals levels) (equalsSteps levels) (xs.zip ys)
        else 0
      | .map ps, .map qs =>
        if ps.length == qs.length then (ps.map (entrySteps (equalsSteps levels) qs)).sum
        else 0
      | _, _ => 0

section

variable {B E : Type} {step : Comp B E Unit} {eq : Value → Value → Comp B E Bool}
  {same : Value → Value → Bool} {steps : Value → Value → Nat}

theorem equalPairs_eq (h : ∀ a b, eq a b = step.times (steps a b) >>= fun _ => ret (same a b))
    (ps : List (Value × Value)) :
    equalPairs eq ps = step.times (pairSteps same steps ps) >>= fun _ =>
        ret (ps.all fun p => same p.1 p.2) := by
  induction ps with
  | nil => rfl
  | cons p ps ih =>
    rw [equalPairs, h, bind_assoc', pairSteps, all_cons]
    simp only [ret_bind]
    cases same p.1 p.2 with
    | true =>
      simp only [if_true, Bool.true_and]
      rw [ih, times_add, bind_assoc']
    | false => rfl

theorem equalEntries_eq (h : ∀ a b, eq a b = step.times (steps a b) >>= fun _ => ret (same a b))
    (qs ps : List (Value × Value)) (equal : Bool) :
    equalEntries step eq qs ps equal = step.times (ps.map (entrySteps steps qs)).sum >>= fun _ =>
        ret (equal && ps.all fun p =>
          match mapGet qs p.1 with
          | some v => same p.2 v
          | none => false) := by
  induction ps generalizing equal with
  | nil =>
    rw [equalEntries, all_nil, Bool.and_true]
    rfl
  | cons p ps ih =>
    rw [equalEntries, map_cons, sum_cons, all_cons, times_add,
      bind_assoc', entrySteps]
    cases mapGet qs p.1 with
    | none =>
      simp only [ih, times_one, Bool.false_and, Bool.and_false]
    | some other =>
      simp only [h, ih, bind_assoc', ret_bind, Bool.and_assoc]

theorem boundedEquals_eq_equals {a : Value} (ha : a.isCollection = false) (levels : Nat)
    (b : Value) : a.equals b = boundedEquals (levels + 1) a b := by
  rw [Bool.eq_iff_iff, equals, boundedEquals_scalar ha, boundedEquals_scalar ha]

theorem equalsBounded_eq (levels : Nat) (a b : Value) : equalsBounded step levels a b =
      step.times (equalsSteps levels a b) >>= fun _ => ret (boundedEquals levels a b) := by
  induction levels generalizing a b with
  | zero => rfl
  | succ levels ih =>
    unfold equalsBounded equalsSteps
    rw [times_add, times_one, bind_assoc']
    congr 1
    funext _
    cases a with
    | list xs =>
      cases b with
      | list ys =>
        simp only [boundedEquals, equalPairs_eq ih]
        cases xs.length == ys.length with
        | false => rfl
        | true => rfl
      | _ => rfl
    | vector xs =>
      cases b with
      | vector ys =>
        simp only [boundedEquals, equalPairs_eq ih]
        cases xs.length == ys.length with
        | false => rfl
        | true => rfl
      | _ => rfl
    | map ps =>
      cases b with
      | map qs =>
        simp only [boundedEquals, equalEntries_eq ih]
        cases ps.length == qs.length with
        | false => rfl
        | true => rfl
      | _ => rfl
    | _ =>
      cases b <;> exact congrArg ret (boundedEquals_eq_equals rfl levels _)

end

def Agree (levels : Nat) (a b a' b' : Value) : Prop :=
  equalsSteps levels a b = equalsSteps levels a' b' ∧
    boundedEquals levels a b = boundedEquals levels a' b'

variable {levels : Nat}

theorem agree_pairs {ps qs : List (Value × Value)}
    (h : List.Forall₂ (fun p q => Agree levels p.1 p.2 q.1 q.2) ps qs) :
    pairSteps (boundedEquals levels) (equalsSteps levels) ps =
        pairSteps (boundedEquals levels) (equalsSteps levels) qs ∧
      (ps.all fun p => boundedEquals levels p.1 p.2) =
        qs.all fun p => boundedEquals levels p.1 p.2 := by
  induction h with
  | nil => exact ⟨rfl, rfl⟩
  | cons hpq _ ih =>
    rw [pairSteps, pairSteps, all_cons, all_cons, hpq.1, hpq.2, ih.1, ih.2]
    exact ⟨rfl, rfl⟩

/-- Whether the other map has an equal value for the key of a pair. -/
def entryEquals (levels : Nat) (qs : List (Value × Value)) (p : Value × Value) : Bool :=
  match mapGet qs p.1 with
  | some v => boundedEquals levels p.2 v
  | none => false

theorem agree_entries {ps qs rs ss : List (Value × Value)} (h : List.Forall₂ (fun p q =>
      entrySteps (equalsSteps levels) rs p = entrySteps (equalsSteps levels) ss q ∧
        entryEquals levels rs p = entryEquals levels ss q) ps qs) :
    (ps.map (entrySteps (equalsSteps levels) rs)).sum =
        (qs.map (entrySteps (equalsSteps levels) ss)).sum ∧
      ps.all (entryEquals levels rs) = qs.all (entryEquals levels ss) := by
  induction h with
  | nil => exact ⟨rfl, rfl⟩
  | cons hpq _ ih =>
    rw [map_cons, map_cons, sum_cons, sum_cons, all_cons,
      all_cons, hpq.1, hpq.2, ih.1, ih.2]
    exact ⟨rfl, rfl⟩

theorem agree_of_sameContents {a b a' b' : Value} (ha : WellFormed a)
    (hb : WellFormed b) (haa : SameContents a a') (hbb : SameContents b b') :
    Agree levels a b a' b' := by
  induction levels generalizing a b a' b' with
  | zero => exact ⟨rfl, rfl⟩
  | succ levels ih =>
    have hitems : ∀ {xs ys xs' ys' : List Value}, (∀ x ∈ xs, WellFormed x) →
        (∀ y ∈ ys, WellFormed y) → List.Forall₂ SameContents xs xs' →
        List.Forall₂ SameContents ys ys' →
          List.Forall₂ (fun p q => Agree levels p.1 p.2 q.1 q.2) (xs.zip ys) (xs'.zip ys') := by
      intro xs ys xs' ys' hxs hys hx hy
      induction hx generalizing ys ys' with
      | nil => exact .nil
      | cons hhead _ ihall =>
        cases hy with
        | nil => exact .nil
        | cons hhead' htail' =>
          exact .cons (ih (hxs _ mem_cons_self) (hys _ mem_cons_self) hhead hhead')
            (ihall (fun x hx => hxs x (mem_cons_of_mem _ hx))
              (fun y hy => hys y (mem_cons_of_mem _ hy)) htail')
    cases haa with
    | scalar hscalar =>
      constructor
      · cases a <;> first | rfl | cases hscalar
      · rw [Bool.eq_iff_iff, boundedEquals_scalar hscalar, boundedEquals_scalar hscalar,
          hbb.scalarNorm_eq]
    | list hlen hx =>
      cases hbb with
      | list hlen' hy =>
        obtain ⟨hsteps, hsame⟩ := agree_pairs (hitems ha.list_items hb.list_items
          (forall₂_of_zip hlen hx) (forall₂_of_zip hlen' hy))
        simp only [Agree, equalsSteps, boundedEquals, hsteps, hsame, hlen, hlen', and_self]
      | scalar hscalar => cases b <;> first | exact ⟨rfl, rfl⟩ | cases hscalar
      | vector => exact ⟨rfl, rfl⟩
      | map => exact ⟨rfl, rfl⟩
    | vector hlen hx =>
      cases hbb with
      | vector hlen' hy =>
        obtain ⟨hsteps, hsame⟩ := agree_pairs (hitems ha.vector_items hb.vector_items
          (forall₂_of_zip hlen hx) (forall₂_of_zip hlen' hy))
        simp only [Agree, equalsSteps, boundedEquals, hsteps, hsame, hlen, hlen', and_self]
      | scalar hscalar => cases b <;> first | exact ⟨rfl, rfl⟩ | cases hscalar
      | list => exact ⟨rfl, rfl⟩
      | map => exact ⟨rfl, rfl⟩
    | @map ps rs qs hperm hlen hkeys hx =>
      cases hbb with
      | @map ps' rs' qs' hperm' hlen' hkeys' hy =>
        have hrs : List.Forall₂ (PairsRel SameContents) rs qs :=
          forall₂_of_zip hlen fun p hp => ⟨hkeys p hp, hx p hp⟩
        have hrs' : List.Forall₂ (PairsRel SameContents) rs' qs' :=
          forall₂_of_zip hlen' fun p hp => ⟨hkeys' p hp, hy p hp⟩
        have hget : ∀ k, Option.Rel SameContents (mapGet ps' k) (mapGet qs' k) := by
          intro k
          rw [← mapGet_perm hb.map_entries.1 hperm']
          exact mapGet_rel hrs' k
        have hpairs : List.Forall₂ (fun p q =>
            entrySteps (equalsSteps levels) ps' p = entrySteps (equalsSteps levels) qs' q ∧
              entryEquals levels ps' p = entryEquals levels qs' q) rs qs := by
          refine forall₂_imp_of_mem ?_ hrs
          rintro ⟨k, v⟩ hmem ⟨k', v'⟩ - ⟨hk, hsame⟩
          cases hk
          have hv := ha.map_value (hperm.mem_iff.2 hmem)
          have hrel := hget k
          simp only [entrySteps, entryEquals]
          generalize mapGet qs' k = found at hrel ⊢
          cases hfound : mapGet ps' k with
          | none =>
            rw [hfound] at hrel
            cases hrel
            exact ⟨rfl, rfl⟩
          | some w =>
            rw [hfound] at hrel
            cases hrel with
            | some hww => exact ih hv (hb.mapGet hfound) hsame hww
        obtain ⟨hsteps, hsame⟩ := agree_entries hpairs
        have hps := hperm.length_eq.trans hlen
        have hps' := hperm'.length_eq.trans hlen'
        constructor
        · simp only [equalsSteps, hps, hps', (hperm.map _).sum_nat, hsteps]
        · change (_ && ps.all (entryEquals levels ps')) = (_ && qs.all (entryEquals levels qs'))
          rw [hperm.all_eq, hsame, hps, hps']
      | scalar hscalar => cases b <;> first | exact ⟨rfl, rfl⟩ | cases hscalar
      | list => exact ⟨rfl, rfl⟩
      | vector => exact ⟨rfl, rfl⟩

/-- Equality is symmetric and transitive. Under a budget it is a number of steps and then the
same answer, and that number is the same for values that hold the same. -/
theorem equality_within_budget :
    (∀ a b : Value, WellFormed a → WellFormed b → a.equals b = true → b.equals a = true) ∧
      (∀ a b c : Value, WellFormed a → WellFormed b → WellFormed c →
        a.equals b = true → b.equals c = true → a.equals c = true) ∧
      ∃ steps : Value → Value → Nat, (∀ (B E : Type) (step : Comp B E Unit) (a b : Value),
          EqualsBounded step a b = step.times (steps a b) >>= fun _ => ret (a.equals b)) ∧
        ∀ a b a' b' : Value, WellFormed a → WellFormed b → SameContents a a' →
          SameContents b b' → steps a b = steps a' b' := by
  refine ⟨fun a b ha hb h => boundedEquals_symm ha hb h,
    fun a b c ha hb hc hab hbc => boundedEquals_trans ha hb hc hab hbc,
    equalsSteps (defaultMaxStructuralDepth + 1),
    fun B E step a b => equalsBounded_eq _ a b, ?_⟩
  intro a b a' b' ha hb haa hbb
  exact (agree_of_sameContents ha hb haa hbb).1

end Value

end Core

end Lispico
