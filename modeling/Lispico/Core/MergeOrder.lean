import Lispico.Core.RetainedLimits
import Lispico.Lib.Admission
import Mathlib

/-!
# The order in which a merge visits its source

A merge visits cells in the order of a Go map. A new binding is checked against a total that the
overwritten ones before it have moved, so the order may decide whether the merge succeeds. It
does not if the bindings fit in the worst order, or in no order.
-/

namespace Lispico

namespace Core

open Lib

namespace Env

section

variable {V : Type}

def liveIn (src : Env V) (fn : Bool) : List (RegistrationKey × Cell V) :=
  src.liveBindings.filter fun x => x.1.fn == fn

theorem liveBindings_eq (src : Env V) :
    src.liveBindings = src.liveIn false ++ src.liveIn true := by
  unfold liveIn liveBindings
  simp [List.filter_filter]

def Visits (src : Env V) (order : List (RegistrationKey × Cell V)) : Prop :=
  ∃ vars funcs, order = vars ++ funcs ∧ vars.Perm (src.liveIn false) ∧
    funcs.Perm (src.liveIn true)

/-- `mergeInto` with the bindings of its source in a given order. -/
def mergeAlong (order : List (RegistrationKey × Cell V)) (target : Env V) (via : Option Nat)
    (canonical : Bool) : Except String (Env V × List RetainedRelease) := do
  let plan ← order.foldlM (fun p x => MergePlan.add p target x.1 x.2 canonical) ⟨[], [], 0, 0⟩
  let e := plan.commits.foldl (applyCommit via) target
  return ({ e with
    retainedBytes := e.retainedBytes + plan.bytes
    retainedSlots := e.retainedSlots + plan.slots }, plan.releases)

theorem mergeInto_eq_mergeAlong (src target : Env V) (via : Option Nat) (canonical : Bool) :
    src.mergeInto target via canonical = mergeAlong src.liveBindings target via canonical ∧
      src.Visits src.liveBindings :=
  ⟨rfl, _, _, src.liveBindings_eq, .refl _, .refl _⟩

/-- The planning loop, on the target as it is at each binding. -/
def planSteps (canonical : Bool) : List (RegistrationKey × Cell V) → MergePlan V →
    Comp (Env V) String (MergePlan V)
  | [], p => Comp.ret p
  | x :: order, p => do
      let target ← Comp.read
      let p ← Comp.lift (p.add target x.1 x.2 canonical)
      planSteps canonical order p

/-- `mergeAlong` step by step: a failure keeps the target that it has reached. -/
def mergeSteps (order : List (RegistrationKey × Cell V)) (via : Option Nat) (canonical : Bool) :
    Comp (Env V) String (List RetainedRelease) := do
  let plan ← planSteps canonical order ⟨[], [], 0, 0⟩
  Comp.update fun e => plan.commits.foldl (applyCommit via) e
  Comp.update fun e => { e with
    retainedBytes := e.retainedBytes + plan.bytes
    retainedSlots := e.retainedSlots + plan.slots }
  Comp.ret plan.releases

theorem planSteps_eq (canonical : Bool) (order : List (RegistrationKey × Cell V))
    (p : MergePlan V) (target : Env V) : planSteps canonical order p target =
      some (order.foldlM (fun p x => p.add target x.1 x.2 canonical) p, target) := by
  induction order generalizing p with
  | nil => rfl
  | cons x order ih =>
    rw [List.foldlM_cons, planSteps, Comp.bind_of_ok _ (Comp.read_apply target)]
    cases p.add target x.1 x.2 canonical with
    | error msg => rfl
    | ok p₁ => exact ih p₁

theorem mergeSteps_eq (order : List (RegistrationKey × Cell V)) (target : Env V)
    (via : Option Nat) (canonical : Bool) : mergeSteps order via canonical target =
      match mergeAlong order target via canonical with
      | .error msg => some (.error msg, target)
      | .ok (e, releases) => some (.ok releases, e) := by
  unfold mergeSteps mergeAlong
  rw [Comp.bind_apply, planSteps_eq]
  cases order.foldlM (fun p x => MergePlan.add p target x.1 x.2 canonical) ⟨[], [], 0, 0⟩ with
  | error msg => rfl
  | ok plan => rfl

def isNew (target : Env V) (x : RegistrationKey × Cell V) : Bool := (target.bound x.1).isNone

def newSlot (target : Env V) (x : RegistrationKey × Cell V) : Int := target.reserved x.1 1

variable {target : Env V} {x : RegistrationKey × Cell V}

theorem isNew_delta (h : target.isNew x = true) : target.mergeDelta x = x.2.retainedBytes := by
  unfold mergeDelta
  rw [Option.isNone_iff_eq_none.1 h]

variable {p : MergePlan V} {canonical : Bool}

theorem add_totals {p₁ : MergePlan V} (h : p.add target x.1 x.2 canonical = .ok p₁) :
    target.retainedBytes + p₁.bytes = target.retainedBytes + p.bytes + target.mergeDelta x ∧
      target.retainedSlots + p₁.slots = target.retainedSlots + p.slots + target.newSlot x := by
  obtain ⟨-, hbytes, hslots, -⟩ := add_spec h
  rw [hbytes, hslots, newSlot]
  omega

theorem add_ok_iff : (∃ p₁, p.add target x.1 x.2 canonical = .ok p₁) ↔
      (target.isNew x = true → (target.maxRetainedBytes ≤ 0 ∨
        target.retainedBytes + p.bytes + target.mergeDelta x ≤ target.maxRetainedBytes) ∧
        (target.maxRetainedSlots ≤ 0 ∨
          target.retainedSlots + p.slots + target.newSlot x ≤ target.maxRetainedSlots)) := by
  unfold MergePlan.add isNew mergeDelta newSlot reserved
  cases target.bound x.1 with
  | some b => simp
  | none =>
    simp only [Lib.except_bind_eq_ok_iff, Option.isNone_none, if_true, forall_const]
    rw [add_assoc, add_assoc, ← reserve_ok_iff]
    constructor
    · rintro ⟨_, _, h, _⟩
      exact h
    · exact fun h => ⟨_, (), h, rfl⟩

theorem plan_cons_ok_iff {xs : List (RegistrationKey × Cell V)} :
    (∃ p', (x :: xs).foldlM (fun p x => MergePlan.add p target x.1 x.2 canonical) p = .ok p') ↔
      ∃ p₁, p.add target x.1 x.2 canonical = .ok p₁ ∧
        ∃ p', xs.foldlM (fun p x => MergePlan.add p target x.1 x.2 canonical) p₁ = .ok p' := by
  simp only [List.foldlM_cons, Lib.except_bind_eq_ok_iff]
  constructor
  · rintro ⟨p', p₁, hadd, hrest⟩
    exact ⟨p₁, hadd, p', hrest⟩
  · rintro ⟨p₁, hadd, p', hrest⟩
    exact ⟨p', p₁, hadd, hrest⟩

theorem plan_ok_iff (target : Env V) (canonical : Bool) (xs : List (RegistrationKey × Cell V))
    (p : MergePlan V) :
    (∃ p', xs.foldlM (fun p x => MergePlan.add p target x.1 x.2 canonical) p = .ok p') ↔
      (target.maxRetainedBytes ≤ 0 ∨ Admits target.mergeDelta target.isNew
        target.maxRetainedBytes (target.retainedBytes + p.bytes) xs) ∧
      (target.maxRetainedSlots ≤ 0 ∨ Admits target.newSlot target.isNew
        target.maxRetainedSlots (target.retainedSlots + p.slots) xs) := by
  induction xs generalizing p with
  | nil => exact ⟨fun _ => ⟨.inr trivial, .inr trivial⟩, fun _ => ⟨p, rfl⟩⟩
  | cons x xs ih =>
    rw [plan_cons_ok_iff, Admits, Admits]
    constructor
    · rintro ⟨p₁, hadd, hrest⟩
      obtain ⟨hb, hs⟩ := add_totals hadd
      have hchecks := add_ok_iff.1 ⟨p₁, hadd⟩
      rw [ih, hb, hs] at hrest
      refine ⟨?_, ?_⟩
      · by_cases hoff : target.maxRetainedBytes ≤ 0
        · exact .inl hoff
        · exact .inr ⟨fun hnew => (hchecks hnew).1.resolve_left hoff, hrest.1.resolve_left hoff⟩
      · by_cases hoff : target.maxRetainedSlots ≤ 0
        · exact .inl hoff
        · exact .inr ⟨fun hnew => (hchecks hnew).2.resolve_left hoff, hrest.2.resolve_left hoff⟩
    · rintro ⟨hbytes, hslots⟩
      obtain ⟨p₁, hadd⟩ := add_ok_iff.2 fun hnew =>
        ⟨hbytes.imp_right fun h => h.1 hnew, hslots.imp_right fun h => h.1 hnew⟩
      obtain ⟨hb, hs⟩ := add_totals hadd
      refine ⟨p₁, hadd, (ih p₁).2 ?_⟩
      rw [hb, hs]
      exact ⟨hbytes.imp_right And.right, hslots.imp_right And.right⟩

def Succeeds (order : List (RegistrationKey × Cell V)) (target : Env V) (via : Option Nat)
    (canonical : Bool) : Prop :=
  ∃ r, mergeAlong order target via canonical = .ok r

theorem succeeds_iff (order : List (RegistrationKey × Cell V)) (target : Env V)
    (via : Option Nat) (canonical : Bool) : Succeeds order target via canonical ↔
      (target.maxRetainedBytes ≤ 0 ∨ Admits target.mergeDelta target.isNew
        target.maxRetainedBytes target.retainedBytes order) ∧
      (target.maxRetainedSlots ≤ 0 ∨ Admits target.newSlot target.isNew
        target.maxRetainedSlots target.retainedSlots order) := by
  have hplan := plan_ok_iff target canonical order ⟨[], [], 0, 0⟩
  rw [add_zero, add_zero] at hplan
  rw [← hplan, Succeeds]
  unfold mergeAlong
  simp only [Lib.except_bind_eq_ok_iff]
  constructor
  · rintro ⟨_, plan, h, _⟩
    exact ⟨plan, h⟩
  · rintro ⟨plan, h⟩
    exact ⟨_, plan, h, rfl⟩

def SlotsFit (src target : Env V) : Prop :=
  target.maxRetainedSlots ≤ 0 ∨ Within target.isNew target.maxRetainedSlots
    (target.retainedSlots + (src.liveBindings.map target.newSlot).sum) src.liveBindings

/-- The bytes suffice in both namespaces, where `most` gives what the bindings of a namespace
add until the last check. -/
def BytesFit (src target : Env V) (most : List (RegistrationKey × Cell V) → Int) : Prop :=
  Within target.isNew target.maxRetainedBytes (target.retainedBytes + most (src.liveIn false))
      (src.liveIn false) ∧
    Within target.isNew target.maxRetainedBytes
      (target.retainedBytes + ((src.liveIn false).map target.mergeDelta).sum +
        most (src.liveIn true)) (src.liveIn true)

instance (src target : Env V) : Decidable (SlotsFit src target) :=
  inferInstanceAs (Decidable (_ ∨ _))

instance (src target : Env V) (most : List (RegistrationKey × Cell V) → Int) :
    Decidable (BytesFit src target most) :=
  inferInstanceAs (Decidable (_ ∧ _))

variable {src : Env V} {order : List (RegistrationKey × Cell V)}

theorem Visits.perm (h : src.Visits order) : order.Perm src.liveBindings := by
  obtain ⟨vars, funcs, rfl, hvars, hfuncs⟩ := h
  rw [liveBindings_eq]
  exact hvars.append hfuncs

theorem newSlot_of_new : target.newSlot x = if target.isNew x then 1 else 0 := rfl

theorem admits_slots_iff (h : src.Visits order) :
    (target.maxRetainedSlots ≤ 0 ∨ Admits target.newSlot target.isNew
      target.maxRetainedSlots target.retainedSlots order) ↔ SlotsFit src target := by
  have hhigh : highest target.newSlot target.isNew order = (order.map target.newSlot).sum := by
    refine congrArg List.sum (List.map_congr_left fun x _ => ?_)
    rw [newSlot_of_new]
    split <;> rfl
  have hlow : lowest target.newSlot target.isNew order = (order.map target.newSlot).sum := by
    refine congrArg List.sum (List.map_congr_left fun x _ => ?_)
    rw [newSlot_of_new]
    split <;> rfl
  have hsum := (h.perm.map target.newSlot).sum_eq
  refine or_congr_right ⟨fun hadmits => ?_, fun hwithin => admits_of_highest (fun x _ hx => ?_)
    ?_⟩
  · have hwithin := within_lowest_of_admits hadmits
    rwa [hlow, hsum, within_perm h.perm] at hwithin
  · rw [newSlot_of_new, if_pos hx]
    decide
  · rwa [hhigh, hsum, within_perm h.perm]

theorem succeeds_append_iff {vars funcs : List (RegistrationKey × Cell V)}
    (hvars : vars.Perm (src.liveIn false)) (hfuncs : funcs.Perm (src.liveIn true))
    (hlimit : 0 < target.maxRetainedBytes) (via : Option Nat) (canonical : Bool) :
    Succeeds (vars ++ funcs) target via canonical ↔ SlotsFit src target ∧
      Admits target.mergeDelta target.isNew target.maxRetainedBytes target.retainedBytes vars ∧
      Admits target.mergeDelta target.isNew target.maxRetainedBytes
        (target.retainedBytes + ((src.liveIn false).map target.mergeDelta).sum) funcs := by
  rw [succeeds_iff, admits_slots_iff ⟨vars, funcs, rfl, hvars, hfuncs⟩, admits_append,
    (hvars.map target.mergeDelta).sum_eq, and_comm]
  simp only [not_le.2 hlimit, false_or]

/-- Success and failure do not depend on the order: the limit is off, the slots do not
suffice, the bytes suffice in the worst order, or they suffice in no order. -/
def OrderFree (src target : Env V) : Prop :=
  target.maxRetainedBytes ≤ 0 ∨ ¬ SlotsFit src target ∨
    BytesFit src target (highest target.mergeDelta target.isNew) ∨
    ¬ BytesFit src target (lowest target.mergeDelta target.isNew)

instance (src target : Env V) : Decidable (OrderFree src target) :=
  inferInstanceAs (Decidable (_ ∨ _ ∨ _ ∨ _))

section

variable {src target : Env V} (hcharged : src.Charged)

include hcharged

theorem new_delta_nonneg {fn : Bool} : ∀ x ∈ src.liveIn fn, target.isNew x = true →
    0 ≤ target.mergeDelta x := by
  intro x hx hnew
  rw [isNew_delta hnew]
  exact liveBindings_charged hcharged (List.mem_filter.1 hx).1

theorem bytesFit_highest_iff : BytesFit src target (highest target.mergeDelta target.isNew) ↔
    (∀ vars, vars.Perm (src.liveIn false) → Admits target.mergeDelta target.isNew
      target.maxRetainedBytes target.retainedBytes vars) ∧
    ∀ funcs, funcs.Perm (src.liveIn true) → Admits target.mergeDelta target.isNew
      target.maxRetainedBytes
        (target.retainedBytes + ((src.liveIn false).map target.mergeDelta).sum) funcs := by
  rw [admits_all_iff (new_delta_nonneg hcharged), admits_all_iff (new_delta_nonneg hcharged),
    BytesFit]

theorem bytesFit_lowest_iff : BytesFit src target (lowest target.mergeDelta target.isNew) ↔
    (∃ vars, vars.Perm (src.liveIn false) ∧ Admits target.mergeDelta target.isNew
      target.maxRetainedBytes target.retainedBytes vars) ∧
    ∃ funcs, funcs.Perm (src.liveIn true) ∧ Admits target.mergeDelta target.isNew
      target.maxRetainedBytes
        (target.retainedBytes + ((src.liveIn false).map target.mergeDelta).sum) funcs := by
  rw [admits_some_iff (new_delta_nonneg hcharged), admits_some_iff (new_delta_nonneg hcharged),
    BytesFit]

theorem exists_orders_of_not_orderFree (h : ¬ OrderFree src target) (via : Option Nat)
    (canonical : Bool) : ∃ order order', src.Visits order ∧ src.Visits order' ∧
      Succeeds order target via canonical ∧ ¬ Succeeds order' target via canonical := by
  simp only [OrderFree, not_or, not_not, not_le] at h
  obtain ⟨hlimit, hslots, hworst, hbest⟩ := h
  obtain ⟨⟨vars, hvars, hadmits⟩, funcs, hfuncs, hadmits'⟩ := (bytesFit_lowest_iff hcharged).1
    hbest
  have hgood := (succeeds_append_iff hvars hfuncs hlimit via canonical).2
    ⟨hslots, hadmits, hadmits'⟩
  rw [bytesFit_highest_iff hcharged, not_and_or, not_forall, not_forall] at hworst
  rcases hworst with ⟨bad, hbad⟩ | ⟨bad, hbad⟩
  · obtain ⟨hperm, hnot⟩ := Classical.not_imp.1 hbad
    refine ⟨vars ++ funcs, bad ++ funcs, ⟨_, _, rfl, hvars, hfuncs⟩, ⟨_, _, rfl, hperm, hfuncs⟩,
      hgood, fun hsucceeds => hnot ?_⟩
    exact ((succeeds_append_iff hperm hfuncs hlimit via canonical).1 hsucceeds).2.1
  · obtain ⟨hperm, hnot⟩ := Classical.not_imp.1 hbad
    refine ⟨vars ++ funcs, vars ++ bad, ⟨_, _, rfl, hvars, hfuncs⟩, ⟨_, _, rfl, hvars, hperm⟩,
      hgood, fun hsucceeds => hnot ?_⟩
    exact ((succeeds_append_iff hvars hperm hlimit via canonical).1 hsucceeds).2.2

theorem succeeds_congr_of_orderFree (h : OrderFree src target) (via : Option Nat)
    (canonical : Bool) {order order' : List (RegistrationKey × Cell V)}
      (horder : src.Visits order)
    (horder' : src.Visits order') (hsucceeds : Succeeds order target via canonical) :
    Succeeds order' target via canonical := by
  by_cases hlimit : 0 < target.maxRetainedBytes
  · obtain ⟨vars, funcs, rfl, hvars, hfuncs⟩ := horder
    obtain ⟨vars', funcs', rfl, hvars', hfuncs'⟩ := horder'
    rw [succeeds_append_iff hvars hfuncs hlimit] at hsucceeds
    rw [succeeds_append_iff hvars' hfuncs' hlimit]
    have hbest := (bytesFit_lowest_iff hcharged).2
      ⟨⟨vars, hvars, hsucceeds.2.1⟩, funcs, hfuncs, hsucceeds.2.2⟩
    rcases h with hoff | hslots | hworst | hnone
    · omega
    · exact absurd hsucceeds.1 hslots
    · have hall := (bytesFit_highest_iff hcharged).1 hworst
      exact ⟨hsucceeds.1, hall.1 vars' hvars', hall.2 funcs' hfuncs'⟩
    · exact absurd hbest hnone
  · rw [succeeds_iff, admits_slots_iff horder] at hsucceeds
    rw [succeeds_iff, admits_slots_iff horder']
    exact ⟨.inl (not_lt.1 hlimit), hsucceeds.2⟩

end

variable [ValueShallowBytes V] [LawfulShallowBytes V]

/-- Whether a merge succeeds does not depend on the order, and a merge that fails leaves its
target, exactly if the bindings fit in every order or in none. -/
theorem merge_order_independent_iff {src : Env V} (hsrc : Built src) (target : Env V)
    (via : Option Nat) (canonical : Bool) :
    ((∀ order order', src.Visits order → src.Visits order' →
        ((∃ r, mergeAlong order target via canonical = .ok r) ↔
          ∃ r, mergeAlong order' target via canonical = .ok r)) ∧
      ∀ order msg e', src.Visits order →
        mergeSteps order via canonical target = some (.error msg, e') → e' = target) ↔
      OrderFree src target := by
  constructor
  · rintro ⟨hfree, -⟩
    by_contra hnot
    obtain ⟨order, order', horder, horder', hgood, hbad⟩ :=
      exists_orders_of_not_orderFree hsrc.charged hnot via canonical
    exact hbad ((hfree order order' horder horder').1 hgood)
  · intro hfree
    refine ⟨fun order order' horder horder' => ⟨?_, ?_⟩, fun order msg e' _ hfails => ?_⟩
    · exact succeeds_congr_of_orderFree hsrc.charged hfree via canonical horder horder'
    · exact succeeds_congr_of_orderFree hsrc.charged hfree via canonical horder' horder
    · rw [mergeSteps_eq] at hfails
      cases hmerge : mergeAlong order target via canonical with
      | error msg' =>
        rw [hmerge] at hfails
        cases hfails
        rfl
      | ok r =>
        rw [hmerge] at hfails
        cases hfails

end

def sourceXY : Env String :=
  (Write.set none ⟨"y", false⟩ "" false false ⟨none, false, none⟩).apply (sourceX "")

theorem sourceXY_built : Built sourceXY := (sourceX_built "").write nofun

def targetX (maxBytes : Int) : Env String :=
  (setX none "abcdef").apply (newEnvWithRetainedLimits maxBytes 2)

/-- The two bindings fit in any order under a limit of 264 bytes. -/
theorem merge_order_independent_fits : Built sourceXY ∧ OrderFree sourceXY (targetX 264) ∧
      ∀ order order', sourceXY.Visits order → sourceXY.Visits order' →
        ((∃ r, mergeAlong order (targetX 264) none false = .ok r) ↔
          ∃ r, mergeAlong order' (targetX 264) none false = .ok r) := by
  have hfree : OrderFree sourceXY (targetX 264) := by decide +kernel
  exact ⟨sourceXY_built, hfree,
    ((merge_order_independent_iff sourceXY_built (targetX 264) none false).2 hfree).1⟩

/-- Under a limit of 260 bytes they fit only if `x`, which shrinks, is visited first. -/
theorem merge_depends_on_order : sourceXY.Visits (sourceXY.liveIn false ++ sourceXY.liveIn true) ∧
      sourceXY.Visits ((sourceXY.liveIn false).reverse ++ sourceXY.liveIn true) ∧
      (mergeAlong (sourceXY.liveIn false ++ sourceXY.liveIn true) (targetX 260) none false).isOk =
        false ∧
      (mergeAlong ((sourceXY.liveIn false).reverse ++ sourceXY.liveIn true) (targetX 260) none
        false).isOk = true :=
  ⟨⟨_, _, rfl, .refl _, .refl _⟩, ⟨_, _, rfl, List.reverse_perm _, .refl _⟩, by decide +kernel,
    by decide +kernel⟩

end Env

end Core

end Lispico
