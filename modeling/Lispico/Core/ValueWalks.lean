import Lispico.Core.Printing

/-!
# Walks over values with and without a budget

The deep bytes, nodes and construction depth of a value are computed by a plain walk and by one
that charges a budget for every value visited. The metered walk gives the result of the plain
one or the error its budget keeps. Overflow of the byte sums is left out.
-/

namespace Lispico

namespace Core

namespace ValueWalk

open Lib ValueWalkBudget Value

section Plain

variable (own : Value → Nat) (below : Value → List Value)

def boundedSum : Nat → Value → Nat
  | 0, _ => 0
  | levels + 1, v => own v + ((below v).map (boundedSum levels)).sum

end Plain

/-- `boundedDeepBytes`, with the number of nesting levels that are left. -/
def boundedDeepBytes : Nat → Value → Nat := boundedSum valueShallowBytes payload

def valueDeepBytes (v : Value) : Nat := boundedDeepBytes (defaultMaxStructuralDepth + 1) v

/-- `boundedNodeCount`, with the number of nesting levels that are left. -/
def boundedNodeCount : Nat → Value → Nat := boundedSum (fun _ => 1) parts

def valueNodeCount (v : Value) : Nat := boundedNodeCount (defaultMaxStructuralDepth + 1) v

mutual

def constructionDepthExceeded (limit : Nat) : Value → Nat → Bool
  | .list items, depth => depth + 1 > limit || anyDepthExceeded limit items (depth + 1)
  | .vector items, depth => depth + 1 > limit || anyDepthExceeded limit items (depth + 1)
  | .map pairs, depth => depth + 1 > limit || anyPairExceeded limit pairs (depth + 1)
  | .lambda _ _ _ body _, depth => depth + 1 > limit || anyDepthExceeded limit body (depth + 1)
  | .macroVal _ _ _ body _, depth => depth + 1 > limit || anyDepthExceeded limit body (depth + 1)
  | _, _ => false

def anyDepthExceeded (limit : Nat) : List Value → Nat → Bool
  | [], _ => false
  | v :: vs, depth => constructionDepthExceeded limit v depth || anyDepthExceeded limit vs depth

def anyPairExceeded (limit : Nat) : List (Value × Value) → Nat → Bool
  | [], _ => false
  | (k, v) :: pairs, depth =>
    constructionDepthExceeded limit k depth || constructionDepthExceeded limit v depth ||
      anyPairExceeded limit pairs depth

end

/-- The limit of `checkDepthAt`: that of the evaluator, if it sets one. -/
def depthLimit (constructionDepthLimit : Option Int) : Nat :=
  match constructionDepthLimit with
  | some n => if 0 < n then n.toNat else defaultMaxStructuralDepth
  | none => defaultMaxStructuralDepth

def depthError (limit : Nat) : GoErr :=
  newResourceLimitError ("structural depth limit " ++ toString limit ++ " exceeded")

def checkDepthAt (v : Value) (depth limit : Nat) : Except GoErr Unit :=
  if constructionDepthExceeded limit v depth then .error (depthError limit) else .ok ()

section Metered

variable (interrupts : Nat → Option GoErr)

/-- `walkNodeCount` and `walkClosureNodeCount`, with the nesting levels that are left. -/
def walkNodeCount : Nat → Value → Comp ValueWalkBudget GoErr Nat :=
  walkSum interrupts (fun _ => 1) parts

/-- `walkDepth` and `walkClosureDepth`, with the number of levels up to the limit, the current one
included. -/
def walkDepth : Nat → Value → Comp ValueWalkBudget GoErr Bool
  | 0, _ => Comp.ret true
  | levels + 1, v => do
      step interrupts
      if isNested v && levels == 0 then Comp.ret true
      else Comp.anyOf (walkDepth levels) (parts v)

def synced (m : Comp ValueWalkBudget GoErr Nat) : Comp ValueWalkBudget GoErr Nat := do
  let n ← m
  sync interrupts
  Comp.ret n

def valueDeepBytesContext (v : Value) : Comp ValueWalkBudget GoErr Nat :=
  synced interrupts (walkDeepBytes interrupts (defaultMaxStructuralDepth + 1) v)

def valueNodeCountContext (v : Value) : Comp ValueWalkBudget GoErr Nat :=
  synced interrupts (walkNodeCount interrupts (defaultMaxStructuralDepth + 1) v)

def checkDepthContext (v : Value) (depth limit : Nat) : Comp ValueWalkBudget GoErr Unit := do
  let bad ← walkDepth interrupts (limit + 1 - depth) v
  if bad then Comp.fail (depthError limit) else sync interrupts

end Metered

/-- A computation ends with this result or with the error that its budget keeps. A budget with so
many units left ends it with the result if nothing interrupts. -/
structure Meters {α : Type} (interrupts : Nat → Option GoErr)
    (m : Comp ValueWalkBudget GoErr α) (r : Except GoErr α) (n : Nat) : Prop where
  agrees : ∀ w, w.terminal = none → (∃ w', m w = some (r, w') ∧ w'.terminal = none) ∨
      ∃ err w', m w = some (.error err, w') ∧ w'.terminal = some err
  lasts : (∀ k, interrupts k = none) → ∀ w, w.terminal = none → w.used + n ≤ w.limit →
    ∃ w', m w = some (r, w') ∧ w'.terminal = none ∧ w'.limit = w.limit ∧ w'.used ≤ w.used + n

section Meters

variable {α β : Type} {interrupts : Nat → Option GoErr} {f : α → Comp ValueWalkBudget GoErr β}

theorem meters_ret (a : α) (n : Nat) : Meters interrupts (Comp.ret a) (.ok a) n :=
  ⟨fun w hw => .inl ⟨w, rfl, hw⟩, fun _ w hw _ => ⟨w, rfl, hw, rfl, Nat.le_add_right _ _⟩⟩

theorem meters_fail (err : GoErr) :
    Meters interrupts (Comp.fail err : Comp ValueWalkBudget GoErr α) (.error err) 0 :=
  ⟨fun w hw => .inl ⟨w, rfl, hw⟩, fun _ w hw _ => ⟨w, rfl, hw, rfl, Nat.le_refl _⟩⟩

theorem Meters.bind {m : Comp ValueWalkBudget GoErr α}
    {a : α} {r : Except GoErr β} {n k t : Nat} (hm : Meters interrupts m (.ok a) n)
    (hf : Meters interrupts (f a) r k) (ht : n + k = t) : Meters interrupts (m >>= f) r t := by
  constructor
  · intro w hw
    rcases hm.agrees w hw with ⟨w₁, hma, hw₁⟩ | ⟨err, w₁, hme, hw₁⟩
    · rw [Comp.bind_of_ok f hma]
      exact hf.agrees w₁ hw₁
    · exact .inr ⟨err, w₁, Comp.bind_of_error f hme, hw₁⟩
  · intro hcalm w hw hroom
    obtain ⟨w₁, hma, hw₁, hlimit, hused⟩ := hm.lasts hcalm w hw (by omega)
    obtain ⟨w₂, hfb, hw₂, hlimit', hused'⟩ := hf.lasts hcalm w₁ hw₁ (by omega)
    exact ⟨w₂, (Comp.bind_of_ok f hma).trans hfb, hw₂, hlimit'.trans hlimit, by omega⟩

theorem meters_sync : Meters interrupts (sync interrupts) (.ok ()) 0 := by
  constructor
  · intro w hw
    simp only [sync, hw]
    cases interrupts w.syncs with
    | none => exact .inl ⟨_, rfl, rfl⟩
    | some err => exact .inr ⟨err, _, rfl, rfl⟩
  · intro hcalm w hw _
    simp only [sync, hw, hcalm]
    exact ⟨_, rfl, rfl, rfl, Nat.le_refl _⟩

theorem meters_step : Meters interrupts (step interrupts) (.ok ()) 1 := by
  constructor
  · intro w hw
    simp only [step, hw, spend]
    split
    · exact .inr ⟨resource, _, rfl, rfl⟩
    · split
      · exact meters_sync.agrees _ rfl
      · exact .inl ⟨_, rfl, rfl⟩
  · intro hcalm w hw hroom
    have hroom' : ¬ w.used ≥ w.limit := by omega
    simp only [step, hw, if_neg hroom', spend]
    split
    · simp only [sync, hcalm]
      exact ⟨_, rfl, rfl, rfl, Nat.le_refl _⟩
    · exact ⟨_, rfl, rfl, rfl, Nat.le_refl _⟩

variable {cost : α → Nat} (items : List α)

theorem meters_each {g : α → β} (h : ∀ x ∈ items, Meters interrupts (f x) (.ok (g x)) (cost x)) :
    Meters interrupts (Comp.each f items) (.ok (items.map g)) (items.map cost).sum := by
  induction items with
  | nil => exact meters_ret [] 0
  | cons x items ih =>
    have hrest := ih fun y hy => h y (List.mem_cons_of_mem x hy)
    exact (h x List.mem_cons_self).bind (hrest.bind (meters_ret _ 0) rfl) (by simp)

theorem meters_anyOf {f : α → Comp ValueWalkBudget GoErr Bool} {g : α → Bool}
    (h : ∀ x ∈ items, Meters interrupts (f x) (.ok (g x)) (cost x)) :
    Meters interrupts (Comp.anyOf f items) (.ok (items.any g)) (items.map cost).sum := by
  induction items with
  | nil => exact meters_ret false 0
  | cons x items ih =>
    refine (h x List.mem_cons_self).bind (k := (items.map cost).sum) ?_ (by simp)
    rw [List.any_cons]
    cases g x with
    | true => exact meters_ret true _
    | false => exact ih fun y hy => h y (List.mem_cons_of_mem x hy)

theorem meters_walkSum (own : Value → Nat) (below : Value → List Value) (levels : Nat)
    (v : Value) :
    Meters interrupts (walkSum interrupts own below levels v)
      (.ok (boundedSum own below levels v))
      (boundedSum (fun _ => 1) below levels v) := by
  induction levels generalizing v with
  | zero => exact meters_ret 0 0
  | succ levels ih =>
    have hparts := meters_each (below v) fun x _ => ih x
    exact meters_step.bind (hparts.bind (meters_ret (own v + _) 0) rfl) rfl

theorem Meters.synced {m : Comp ValueWalkBudget GoErr Nat} {r n : Nat}
    (h : Meters interrupts m (.ok r) n) : Meters interrupts (synced interrupts m) (.ok r) n :=
  h.bind (meters_sync.bind (meters_ret r 0) rfl) rfl

end Meters

variable (limit depth : Nat)

theorem anyDepthExceeded_eq (items : List Value) : anyDepthExceeded limit items depth =
      items.any fun v => constructionDepthExceeded limit v depth := by
  induction items with
  | nil => rfl
  | cons v items ih => rw [anyDepthExceeded, List.any_cons, ih]

theorem anyPairExceeded_eq (pairs : List (Value × Value)) :
    anyPairExceeded limit pairs depth = pairs.any fun e =>
      constructionDepthExceeded limit e.1 depth ||
        constructionDepthExceeded limit e.2 depth := by
  induction pairs with
  | nil => rfl
  | cons e pairs ih =>
    obtain ⟨k, v⟩ := e
    rw [anyPairExceeded, List.any_cons, ih]

theorem constructionDepthExceeded_eq (v : Value) :
    constructionDepthExceeded limit v depth = (isNested v && (decide (depth + 1 > limit) ||
      (parts v).any fun x => constructionDepthExceeded limit x (depth + 1))) := by
  cases v with
  | map pairs =>
    have hperm : (sortedEntries pairs).Perm pairs := List.mergeSort_perm pairs _
    rw [constructionDepthExceeded, anyPairExceeded_eq, parts, List.any_flatMap, hperm.any_eq]
    simp [isNested]
  | _ => simp [constructionDepthExceeded, anyDepthExceeded_eq, isNested, parts]

variable {interrupts : Nat → Option GoErr}

theorem meters_walkDepth {limit depth levels : Nat} (hlevels : limit = depth + levels)
    (v : Value) :
    Meters interrupts (walkDepth interrupts (levels + 1) v)
      (.ok (constructionDepthExceeded limit v depth)) (boundedNodeCount (levels + 1) v) := by
  induction levels generalizing depth v with
  | zero =>
    have hdeep : depth + 1 > limit := by omega
    refine meters_step.bind ?_ rfl
    rw [constructionDepthExceeded_eq, decide_eq_true hdeep, Bool.true_or, Bool.and_true]
    cases v <;> exact meters_ret _ _
  | succ levels ih =>
    have hfits : ¬ depth + 1 > limit := by omega
    refine meters_step.bind ?_ rfl
    have hparts := meters_anyOf (parts v) fun x _ => @ih (depth + 1) (by omega) x
    rw [constructionDepthExceeded_eq, decide_eq_false hfits, Bool.false_or]
    cases v with
    | list items => exact hparts
    | vector items => exact hparts
    | map pairs => exact hparts
    | lambda name params variadic body env => exact hparts
    | macroVal name params variadic body env => exact hparts
    | _ => exact meters_ret false _

theorem meters_checkDepthContext {limit depth : Nat} (hdepth : depth ≤ limit) (v : Value) :
    Meters interrupts (checkDepthContext interrupts v depth limit) (checkDepthAt v depth limit)
      (boundedNodeCount (limit + 1 - depth) v) := by
  obtain ⟨levels, rfl⟩ := Nat.exists_eq_add_of_le hdepth
  have hlevels : depth + levels + 1 - depth = levels + 1 := by omega
  have hwalk : Meters interrupts (walkDepth interrupts (levels + 1) v)
      (.ok (constructionDepthExceeded (depth + levels) v depth))
      (boundedNodeCount (levels + 1) v) := meters_walkDepth rfl v
  unfold checkDepthContext checkDepthAt
  rw [hlevels]
  refine hwalk.bind (k := 0) ?_ rfl
  cases constructionDepthExceeded (depth + levels) v depth with
  | true => exact meters_fail _
  | false => exact meters_sync

/-- A walk gives a result unless its budget is used up, and a budget of so many units is not if
nothing interrupts. -/
def Lends {α : Type} (interrupts : Nat → Option GoErr) (w : ValueWalkBudget)
    (m : Comp ValueWalkBudget GoErr α) (r : Except GoErr α) (n : Nat) : Prop :=
  (∀ s w', m w = some (s, w') → w'.terminal = none → s = r) ∧
    ((∀ k, interrupts k = none) → n ≤ w.limit → ∃ w', m w = some (r, w') ∧ w'.terminal = none)

theorem Meters.lends {α : Type} {m : Comp ValueWalkBudget GoErr α} {r : Except GoErr α} {n : Nat}
    (h : Meters interrupts m r n) (maxAllocBytes : Nat) :
    Lends interrupts (ValueWalkBudget.new maxAllocBytes) m r n := by
  constructor
  · intro s w' hrun hlast
    rcases h.agrees (.new maxAllocBytes) rfl with ⟨w₁, hok, -⟩ | ⟨err, w₁, herr, hterminal⟩
    · rw [hrun] at hok
      cases hok
      rfl
    · rw [hrun] at herr
      cases herr
      rw [hlast] at hterminal
      cases hterminal
  · intro hcalm hroom
    have hunits : (ValueWalkBudget.new maxAllocBytes).used + n ≤
        (ValueWalkBudget.new maxAllocBytes).limit := (Nat.zero_add n).symm ▸ hroom
    obtain ⟨w', hrun, hlast, -, -⟩ := h.lasts hcalm _ rfl hunits
    exact ⟨w', hrun, hlast⟩

/-- Metered walks give what the plain walks give unless their budget is used up. A construction
depth is checked from depth 0, that of a nested element from depth 1. -/
theorem metered_walks_as_plain (interrupts : Nat → Option GoErr) (maxAllocBytes : Nat) (v : Value)
    {depth limit : Nat} (hdepth : depth ≤ 1) (hlimit : 1 ≤ limit) :
    let w := .new maxAllocBytes
    Lends interrupts w (valueDeepBytesContext interrupts v) (.ok (valueDeepBytes v))
        (boundedSum (fun _ => 1) payload (defaultMaxStructuralDepth + 1) v) ∧
      Lends interrupts w (valueNodeCountContext interrupts v) (.ok (valueNodeCount v))
        (valueNodeCount v) ∧
      Lends interrupts w (checkDepthContext interrupts v depth limit) (checkDepthAt v depth limit)
        (boundedNodeCount (limit + 1 - depth) v) :=
  ⟨(meters_walkSum _ _ _ v).synced.lends maxAllocBytes,
    (meters_walkSum _ _ _ v).synced.lends maxAllocBytes,
    (meters_checkDepthContext (hdepth.trans hlimit) v).lends maxAllocBytes⟩

theorem metered_walks_of_nested :
    let v := Value.list [.vector [.int 1, .string "a"], .lambda "f" ["x"] "" [.symbol "x"] []]
    ∃ w', checkDepthContext (fun _ => none) v 1 3 (.new 160) =
      some (checkDepthAt v 1 3, w') ∧ w'.terminal = none :=
  (metered_walks_as_plain (fun _ => none) 160 _ (Nat.le_refl 1) (by decide)).2.2.2
    (fun _ => rfl) (by decide)

end ValueWalk

end Core

end Lispico
