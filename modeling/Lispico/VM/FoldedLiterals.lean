import Lispico.Core.LiteralCosts
import Lispico.VM.Chunk

/-!
# Folded literals

A literal made of constants is built at compile time. Its code raises the depth by the nesting,
pushes the constant with the bytes its construction would have charged, and lowers the depth
again.
-/

namespace Lispico

namespace VM

open Lib Lispico.Core Lispico.Core.Value.Measure List

def maxCompileDepth : Nat := 1024

/-- Why a form is not folded: it is not a constant, or the compilation fails. -/
inductive Unfolded where
  | notConstant
  | failed (err : GoErr)

section Fold

variable (allowLists : Bool)

mutual

/-- `foldCompileTimeConstant`: the constant and the bytes of its construction. -/
def foldCompileTimeConstant : Value → Except Unfolded (Value × Nat)
  | .list items =>
    if allowLists then do
      let r ← foldItems items
      .ok (.list r.1, Ledger.listShallowBytes items.length + r.2)
    else .error .notConstant
  | .vector items => do
      let r ← foldItems items
      .ok (.vector r.1, Ledger.vectorShallowBytes items.length + r.2)
  | .map pairs => do
      let r ← foldPairs [] pairs
      .ok (.map r.1, Ledger.hashMapShallowBytes pairs.length + r.2)
  | .nil => .ok (.nil, 0)
  | .bool v => .ok (.bool v, 0)
  | .int v => .ok (.int v, 0)
  | .float bits => .ok (.float bits, 0)
  | .string v => .ok (.string v, 0)
  | .keyword v => .ok (.keyword v, 0)
  | _ => .error .notConstant

def foldItems : List Value → Except Unfolded (List Value × Nat)
  | [] => .ok ([], 0)
  | v :: vs => do
      let r ← foldCompileTimeConstant v
      let rs ← foldItems vs
      .ok (r.1 :: rs.1, r.2 + rs.2)

def foldPairs : List (Value × Value) → List (Value × Value) →
    Except Unfolded (List (Value × Value) × Nat)
  | folded, [] => .ok (folded, 0)
  | folded, (k, v) :: pairs => do
      let key ← foldCompileTimeConstant k
      let value ← foldCompileTimeConstant v
      match Value.mapSet folded key.1 value.1 with
      | .error err => .error (.failed (.plain err))
      | .ok folded => do
          let r ← foldPairs folded pairs
          .ok (r.1, (key.2 + value.2) + r.2)

end

end Fold

/-- The larger of two depths, if neither literal reaches too deep. -/
def deeper (x y : Option Nat) : Option Nat := do
  let d ← x
  let d' ← y
  some (max d d')

mutual

/-- `literalDepth`, with `none` for a literal that reaches too deep. -/
def literalDepth : Value → Nat → Option Nat
  | .list items, depth =>
    if depth > maxCompileDepth then none else (itemsDepth items (depth + 1)).map (· + 1)
  | .vector items, depth =>
    if depth > maxCompileDepth then none else (itemsDepth items (depth + 1)).map (· + 1)
  | .map pairs, depth =>
    if depth > maxCompileDepth then none else (pairsDepth pairs (depth + 1)).map (· + 1)
  | _, depth => if depth > maxCompileDepth then none else some 0

def itemsDepth : List Value → Nat → Option Nat
  | [], _ => some 0
  | v :: vs, depth => deeper (literalDepth v depth) (itemsDepth vs depth)

def pairsDepth : List (Value × Value) → Nat → Option Nat
  | [], _ => some 0
  | (k, v) :: pairs, depth =>
    deeper (literalDepth k depth) (deeper (literalDepth v depth) (pairsDepth pairs depth))

end

/-- The constants of a chunk and its `ConstCharges`. -/
structure Constants where
  pool : List Value
  charges : Nat → Nat

namespace Constants

def empty : Constants := ⟨[], fun _ => 0⟩

def addChargedConstant (c : Constants) (v : Value) (charge : Nat) : Nat × Constants :=
  let added := addConstant c.pool v
  (added.1, ⟨added.2, Function.update c.charges added.1 charge⟩)

def constantCollectionCandidate (allowLists : Bool) : Value → Bool
  | .vector _ => true
  | .map _ => true
  | .list _ => allowLists
  | _ => false

/-- `compileConstantCollection`: the code it emits, and the constants. -/
def compileConstantCollection (c : Constants) (v : Value) (allowLists : Bool) :
    Except Unfolded (List Instruction × Constants) :=
  if constantCollectionCandidate allowLists v then do
    let folded ← foldCompileTimeConstant allowLists v
    match literalDepth folded.1 0 with
    | none => .error (.failed (newResourceLimitError "compile depth limit exceeded"))
    | some d =>
      let added := c.addChargedConstant folded.1 folded.2
      .ok ([encode .structEnter d, encode .constCharged added.1, encode .structLeave d], added.2)
  else .error .notConstant

inductive Addition where
  | const (v : Value)
  | literal (v : Value) (allowLists : Bool)

def Addition.value : Addition → Value
  | .const v => v
  | .literal v _ => v

/-- One addition. A literal that is not folded adds nothing itself. -/
def add (c : Constants) : Addition → Constants
  | .const v => { c with pool := (addConstant c.pool v).2 }
  | .literal v allowLists =>
    match c.compileConstantCollection v allowLists with
    | .ok r => r.2
    | .error _ => c

def addAll (c : Constants) (additions : List Addition) : Constants := additions.foldl add c

end Constants

structure Regs where
  stack : List Value
  pending : Nat
  ledger : Ledger

section Run

variable (limits : Ledger.Limits) (c : Constants)

/-- The instructions of a folded literal. An index out of range is a Go panic. -/
def stepFolded (i : Instruction) : Comp Regs GoErr Unit := fun s =>
  match i.op with
  | .structEnter =>
    if Ledger.TooDeep limits (s.ledger.enter i.a) then
      some (.error (Ledger.depthError limits), s)
    else some (.ok (), { s with ledger := s.ledger.enter i.a })
  | .constCharged =>
    match c.pool[i.a]? with
    | none => none
    | some v =>
      some (.ok (), { s with stack := v :: s.stack, pending := s.pending + c.charges i.a })
  | .structLeave => some (.ok (), { s with ledger := s.ledger.leave i.a })
  | _ => none

def flushPendingAllocBytes : Comp Regs GoErr Unit := fun s =>
  match Ledger.chargeAllocBytes limits s.pending s.ledger with
  | none => none
  | some (r, ledger) => some (r, ⟨s.stack, 0, ledger⟩)

def popResult : Comp Regs GoErr Value := fun s =>
  match s.stack with
  | [] => none
  | v :: stack => some (.ok v, { s with stack })

/-- Run the code of a literal up to the next settlement of the charges. -/
def runFolded (code : List Instruction) : Comp Regs GoErr Value := do
  let _ ← Comp.each (stepFolded limits c) code
  flushPendingAllocBytes limits
  popResult

end Run

section Evaluated

variable (limits : Ledger.Limits) (rest : Value → Comp Ledger GoErr Value)

mutual

/-- The tree-walker gives the folded constant, for the nesting of the literal and the bytes the
compiler computes. -/
theorem evalLiteral_costs : ∀ (v : Value) {r : Value × Nat},
    foldCompileTimeConstant false v = .ok r →
      Ledger.Costs limits (evalLiteral limits rest v) (nesting.of v) r.2 r.1
  | .vector items, r, h => by
    rw [foldCompileTimeConstant, except_bind_eq_ok_iff] at h
    obtain ⟨rs, hitems, ⟨⟩⟩ := h
    rw [evalLiteral]
    exact (evalItems_costs items hitems).collection _
  | .map pairs, r, h => by
    rw [foldCompileTimeConstant, except_bind_eq_ok_iff] at h
    obtain ⟨rs, hpairs, ⟨⟩⟩ := h
    rw [evalLiteral]
    exact (evalEntries_costs [] pairs hpairs).collection _
  | .nil, _, rfl => .ret _
  | .bool _, _, rfl => .ret _
  | .int _, _, rfl => .ret _
  | .float _, _, rfl => .ret _
  | .string _, _, rfl => .ret _
  | .keyword _, _, rfl => .ret _

theorem evalItems_costs : ∀ (vs : List Value) {r : List Value × Nat}, foldItems false vs = .ok r →
      Ledger.Costs limits (evalItems limits rest vs) (nesting.ofItems vs) r.2 r.1
  | [], _, rfl => Ledger.Costs.ret _
  | v :: vs, r, h => by
    rw [foldItems, except_bind_eq_ok_iff] at h
    obtain ⟨r₁, hv, h⟩ := h
    rw [except_bind_eq_ok_iff] at h
    obtain ⟨rs, hvs, ⟨⟩⟩ := h
    have hall : Ledger.Costs limits (evalItems limits rest (v :: vs))
        (max (nesting.of v) (max (nesting.ofItems vs) 0)) (r₁.2 + (rs.2 + 0))
        (r₁.1 :: rs.1) := by
      rw [evalItems]
      refine (evalLiteral_costs v hv).bind ?_
      refine (evalItems_costs vs hvs).bind ?_
      exact .ret _
    exact hall.cast (congrArg _ (Nat.max_zero _)) rfl

theorem evalEntries_costs : ∀ (folded pairs : List (Value × Value))
    {r : List (Value × Value) × Nat}, foldPairs false folded pairs = .ok r →
      Ledger.Costs limits (evalEntries limits rest folded pairs) (nesting.ofPairs pairs) r.2 r.1
  | _, [], _, rfl => Ledger.Costs.ret _
  | folded, (k, v) :: pairs, r, h => by
    rw [foldPairs, except_bind_eq_ok_iff] at h
    obtain ⟨rk, hk, h⟩ := h
    rw [except_bind_eq_ok_iff] at h
    obtain ⟨rv, hv, h⟩ := h
    cases hset : Value.mapSet folded rk.1 rv.1 with
    | error err =>
      rw [hset] at h
      cases h
    | ok folded' =>
      simp only [hset] at h
      rw [except_bind_eq_ok_iff] at h
      obtain ⟨rs, hpairs, ⟨⟩⟩ := h
      have hall : Ledger.Costs limits (evalEntries limits rest folded ((k, v) :: pairs))
          (max (nesting.of k) (max (nesting.of v) (nesting.ofPairs pairs)))
          (rk.2 + (rv.2 + rs.2)) rs.1 := by
        rw [evalEntries]
        refine (evalLiteral_costs k hk).bind ?_
        refine (evalLiteral_costs v hv).bind ?_
        rw [hset]
        exact evalEntries_costs folded' pairs hpairs
      exact hall.cast rfl (Nat.add_assoc _ _ _).symm

end

end Evaluated

section Folded

open Value

variable {hk : HashKey}

theorem pairsSet_perm (k v : Value) {pairs : List (Value × Value)}
    (h : ∀ p ∈ pairs, toHashKey p.1.key ≠ .ok hk) :
    (pairsSet hk k v pairs).Perm ((k, v) :: pairs) := by
  induction pairs with
  | nil => exact .refl _
  | cons p pairs ih =>
    obtain ⟨k', v'⟩ := p
    have hswap : ((k', v') :: pairsSet hk k v pairs).Perm ((k, v) :: (k', v') :: pairs) :=
      ((ih fun q hq => h q (mem_cons_of_mem _ hq)).cons _).trans (.swap _ _ _)
    rw [pairsSet]
    cases hkey : toHashKey k'.key with
    | error err => exact hswap
    | ok hk' =>
      have hne : hk' ≠ hk := by
        rintro rfl
        exact h _ mem_cons_self hkey
      simp only [if_neg hne]
      split
      · exact .refl _
      · exact hswap

variable (allowLists : Bool)

theorem fold_key {k : Value} (hkey : toHashKey k.key = .ok hk) {r : Value × Nat}
    (h : foldCompileTimeConstant allowLists k = .ok r) : r = (k, 0) := by
  cases k with
  | list => cases hkey
  | vector => cases hkey
  | map => cases hkey
  | _ => first | (cases h; rfl) | cases h

theorem WellKeyed.fresh {folded pairs : List (Value × Value)} {k v : Value}
    (h : WellKeyed (folded ++ (k, v) :: pairs)) (hkey : toHashKey k.key = .ok hk) :
    ∀ p ∈ folded, toHashKey p.1.key ≠ .ok hk := by
  intro p hp hsame
  have hdistinct := h.distinct
  rw [Keyed.Distinct, entries, filterMap_append, map_append] at hdistinct
  refine (List.nodup_append.1 hdistinct).2.2 hk ?_ hk ?_ rfl
  · exact List.mem_map.2 ⟨(hk, p.2), WellKeyed.mem_entries.2 ⟨p, hp, hsame, rfl⟩, rfl⟩
  · refine List.mem_map.2 ⟨(hk, v), WellKeyed.mem_entries.2 ⟨(k, v), ?_, hkey, rfl⟩, rfl⟩
    exact mem_cons_self

mutual

theorem fold_spec : ∀ (v : Value) {r : Value × Nat}, WellFormed v →
    foldCompileTimeConstant allowLists v = .ok r → SameContents r.1 v ∧ r.2 = bytes.of v
  | .list items, r, hv, h => by
    rw [foldCompileTimeConstant] at h
    split at h
    · rw [except_bind_eq_ok_iff] at h
      obtain ⟨rs, hitems, ⟨⟩⟩ := h
      obtain ⟨hsame, hbytes⟩ := foldItems_spec items hv.list_items hitems
      exact ⟨sameContents_list hsame, congrArg _ hbytes⟩
    · cases h
  | .vector items, r, hv, h => by
    rw [foldCompileTimeConstant, except_bind_eq_ok_iff] at h
    obtain ⟨rs, hitems, ⟨⟩⟩ := h
    obtain ⟨hsame, hbytes⟩ := foldItems_spec items hv.vector_items hitems
    exact ⟨sameContents_vector hsame, congrArg _ hbytes⟩
  | .map pairs, r, hv, h => by
    rw [foldCompileTimeConstant, except_bind_eq_ok_iff] at h
    obtain ⟨rs, hpairs, ⟨⟩⟩ := h
    obtain ⟨ps, hperm, hsame, hbytes⟩ :=
      foldPairs_spec [] pairs hv.map_entries.1 (fun p hp => hv.map_value hp) hpairs
    exact ⟨sameContents_map hperm hsame, congrArg _ hbytes⟩
  | .nil, _, _, rfl => ⟨.scalar rfl, rfl⟩
  | .bool _, _, _, rfl => ⟨.scalar rfl, rfl⟩
  | .int _, _, _, rfl => ⟨.scalar rfl, rfl⟩
  | .float _, _, _, rfl => ⟨.scalar rfl, rfl⟩
  | .string _, _, _, rfl => ⟨.scalar rfl, rfl⟩
  | .keyword _, _, _, rfl => ⟨.scalar rfl, rfl⟩

theorem foldItems_spec : ∀ (vs : List Value) {r : List Value × Nat}, (∀ v ∈ vs, WellFormed v) →
    foldItems allowLists vs = .ok r → List.Forall₂ SameContents r.1 vs ∧ r.2 = bytes.ofItems vs
  | [], _, _, rfl => ⟨.nil, rfl⟩
  | v :: vs, r, hvs, h => by
    rw [foldItems, except_bind_eq_ok_iff] at h
    obtain ⟨r₁, hv, h⟩ := h
    rw [except_bind_eq_ok_iff] at h
    obtain ⟨rs, hrest, ⟨⟩⟩ := h
    obtain ⟨hsame, hbytes⟩ := fold_spec v (hvs v mem_cons_self) hv
    obtain ⟨hsames, hbytess⟩ :=
      foldItems_spec vs (fun w hw => hvs w (mem_cons_of_mem v hw)) hrest
    exact ⟨.cons hsame hsames, congrArg₂ _ hbytes hbytess⟩

theorem foldPairs_spec : ∀ (folded pairs : List (Value × Value))
    {r : List (Value × Value) × Nat}, WellKeyed (folded ++ pairs) →
    (∀ p ∈ pairs, WellFormed p.2) → foldPairs allowLists folded pairs = .ok r →
      ∃ rs, r.1.Perm (folded ++ rs) ∧ List.Forall₂ (PairsRel SameContents) rs pairs ∧
        r.2 = bytes.ofPairs pairs
  | folded, [], _, _, _, rfl => ⟨[], by simp, .nil, rfl⟩
  | folded, (k, v) :: pairs, r, hkeys, hvals, h => by
    rw [foldPairs, except_bind_eq_ok_iff] at h
    obtain ⟨rk, hrk, h⟩ := h
    rw [except_bind_eq_ok_iff] at h
    obtain ⟨rv, hrv, h⟩ := h
    obtain ⟨hk, hkey⟩ := hkeys.hashable (k, v) (by simp)
    obtain rfl := fold_key allowLists hkey hrk
    obtain ⟨hsame, hbytes⟩ := fold_spec v (hvals (k, v) mem_cons_self) hrv
    have hset : mapSet folded k rv.1 = .ok (pairsSet hk k rv.1 folded) := by
      rw [mapSet, hkey]
    simp only [hset] at h
    rw [except_bind_eq_ok_iff] at h
    obtain ⟨rs, hrest, ⟨⟩⟩ := h
    have hperm := pairsSet_perm k rv.1 (WellKeyed.fresh hkeys hkey)
    have hkeys' : WellKeyed (pairsSet hk k rv.1 folded ++ pairs) := by
      refine hkeys.of_keys ?_
      rw [map_append, map_append, map_cons]
      exact ((hperm.map Prod.fst).append_right _).trans List.perm_middle.symm
    obtain ⟨qs, hqs, hsames, hbytess⟩ := foldPairs_spec _ pairs hkeys'
      (fun p hp => hvals p (mem_cons_of_mem _ hp)) hrest
    refine ⟨(k, rv.1) :: qs, ?_, .cons ⟨rfl, hsame⟩ hsames, ?_⟩
    · exact hqs.trans ((hperm.append_right qs).trans List.perm_middle.symm)
    · rw [ofPairs, of_key bytes hkey, bytes.zero_op, ← hbytes, ← hbytess, Nat.zero_add]
      rfl

end

mutual

def isConstant : Value → Bool
  | .nil => true
  | .bool _ => true
  | .int _ => true
  | .float _ => true
  | .string _ => true
  | .keyword _ => true
  | .vector items => areConstant items
  | .map pairs => pairsConstant pairs
  | _ => false

def areConstant : List Value → Bool
  | [] => true
  | v :: vs => isConstant v && areConstant vs

def pairsConstant : List (Value × Value) → Bool
  | [] => true
  | (k, v) :: pairs => isConstant k && isConstant v && pairsConstant pairs

end

mutual

theorem fold_of_isConstant : ∀ (v : Value), WellFormed v → isConstant v = true →
    ∃ r, foldCompileTimeConstant false v = .ok r
  | .vector items, hv, h => by
    obtain ⟨rs, hrs⟩ := foldItems_of_areConstant items hv.vector_items h
    exact ⟨_, except_bind_eq_ok_iff.2 ⟨rs, hrs, rfl⟩⟩
  | .map pairs, hv, h => by
    obtain ⟨rs, hrs⟩ := foldPairs_of_pairsConstant [] pairs hv.map_entries.1.hashable
      (fun p hp => hv.map_value hp) h
    exact ⟨_, except_bind_eq_ok_iff.2 ⟨rs, hrs, rfl⟩⟩
  | .nil, _, _ => ⟨_, rfl⟩
  | .bool _, _, _ => ⟨_, rfl⟩
  | .int _, _, _ => ⟨_, rfl⟩
  | .float _, _, _ => ⟨_, rfl⟩
  | .string _, _, _ => ⟨_, rfl⟩
  | .keyword _, _, _ => ⟨_, rfl⟩

theorem foldItems_of_areConstant : ∀ (vs : List Value), (∀ v ∈ vs, WellFormed v) →
    areConstant vs = true → ∃ r, foldItems false vs = .ok r
  | [], _, _ => ⟨_, rfl⟩
  | v :: vs, hvs, h => by
    rw [areConstant, Bool.and_eq_true] at h
    obtain ⟨r, hr⟩ := fold_of_isConstant v (hvs v mem_cons_self) h.1
    obtain ⟨rs, hrs⟩ :=
      foldItems_of_areConstant vs (fun w hw => hvs w (mem_cons_of_mem v hw)) h.2
    rw [foldItems]
    exact ⟨_, except_bind_eq_ok_iff.2 ⟨r, hr, except_bind_eq_ok_iff.2 ⟨rs, hrs, rfl⟩⟩⟩

theorem foldPairs_of_pairsConstant : ∀ (folded pairs : List (Value × Value)),
    (∀ p ∈ pairs, ∃ hk, toHashKey p.1.key = .ok hk) → (∀ p ∈ pairs, WellFormed p.2) →
    pairsConstant pairs = true → ∃ r, foldPairs false folded pairs = .ok r
  | _, [], _, _, _ => ⟨_, rfl⟩
  | folded, (k, v) :: pairs, hkeys, hvals, h => by
    rw [pairsConstant, Bool.and_eq_true, Bool.and_eq_true] at h
    obtain ⟨hk, hkey⟩ := hkeys (k, v) mem_cons_self
    have hscalar : k.isCollection = false := by
      cases k <;> first | rfl | cases hkey
    obtain ⟨rk, hrk⟩ := fold_of_isConstant k (.scalar hscalar) h.1.1
    obtain ⟨rv, hrv⟩ := fold_of_isConstant v (hvals (k, v) mem_cons_self) h.1.2
    obtain rfl := fold_key false hkey hrk
    obtain ⟨rs, hrs⟩ := foldPairs_of_pairsConstant (pairsSet hk k rv.1 folded) pairs
      (fun p hp => hkeys p (mem_cons_of_mem _ hp))
      (fun p hp => hvals p (mem_cons_of_mem _ hp)) h.2
    have hset : mapSet folded k rv.1 = .ok (pairsSet hk k rv.1 folded) := by
      rw [mapSet, hkey]
    rw [foldPairs]
    refine ⟨(rs.1, 0 + rv.2 + rs.2), except_bind_eq_ok_iff.2 ⟨_, hrk, ?_⟩⟩
    refine except_bind_eq_ok_iff.2 ⟨rv, hrv, ?_⟩
    simp only [hset]
    exact except_bind_eq_ok_iff.2 ⟨rs, hrs, rfl⟩

end

end Folded

section Depth

theorem nodeDepth_eq {n depth reached nested : Nat} : (if depth > maxCompileDepth then none
      else (if n = 0 ∨ depth + 1 + reached ≤ maxCompileDepth then some nested
        else none).map (· + 1)) =
      if depth + (if n = 0 then 0 else reached + 1) ≤ maxCompileDepth then some (nested + 1)
      else none := by
  by_cases hdeep : depth > maxCompileDepth
  · rw [if_pos hdeep, if_neg (by omega)]
  · rw [if_neg hdeep]
    by_cases hn : n = 0
    · rw [if_pos (.inl hn), if_pos hn, if_pos (by omega)]
      rfl
    · rw [if_neg hn]
      by_cases hreach : depth + 1 + reached ≤ maxCompileDepth
      · rw [if_pos (.inr hreach), if_pos (by omega)]
        rfl
      · rw [if_neg (by omega), if_neg (by omega)]
        rfl

theorem deeper_ite {P Q : Prop} [Decidable P] [Decidable Q] (x y : Nat) :
    deeper (if P then some x else none) (if Q then some y else none) =
      if P ∧ Q then some (max x y) else none := by
  by_cases hP : P
  · by_cases hQ : Q
    · simp only [hP, hQ, and_self, if_true]
      rfl
    · simp only [hP, hQ, and_false, if_true, if_false]
      rfl
  · simp only [hP, false_and, if_false]
    rfl

theorem literalDepth_scalar {v : Value} (h : v.isCollection = false) (depth : Nat) :
    literalDepth v depth =
      if depth + reach.of v ≤ maxCompileDepth then some (nesting.of v) else none := by
  have hdepth : literalDepth v depth = if depth > maxCompileDepth then none else some 0 := by
    cases v <;> first | rfl | cases h
  rw [hdepth, of_scalar reach h, of_scalar nesting h]
  by_cases hdeep : depth > maxCompileDepth
  · rw [if_pos hdeep, if_neg (by omega)]
  · rw [if_neg hdeep, if_pos (by omega)]

mutual

theorem literalDepth_eq : ∀ (v : Value) (depth : Nat), literalDepth v depth =
    if depth + reach.of v ≤ maxCompileDepth then some (nesting.of v) else none
  | .list items, depth => by
    rw [literalDepth, itemsDepth_eq items]
    exact nodeDepth_eq
  | .vector items, depth => by
    rw [literalDepth, itemsDepth_eq items]
    exact nodeDepth_eq
  | .map pairs, depth => by
    rw [literalDepth, pairsDepth_eq pairs]
    exact nodeDepth_eq
  | .nil, depth => literalDepth_scalar rfl depth
  | .bool _, depth => literalDepth_scalar rfl depth
  | .int _, depth => literalDepth_scalar rfl depth
  | .float _, depth => literalDepth_scalar rfl depth
  | .string _, depth => literalDepth_scalar rfl depth
  | .symbol _, depth => literalDepth_scalar rfl depth
  | .keyword _, depth => literalDepth_scalar rfl depth
  | .goFunc _ _, depth => literalDepth_scalar rfl depth
  | .lambda _ _ _ _ _, depth => literalDepth_scalar rfl depth
  | .macroVal _ _ _ _ _, depth => literalDepth_scalar rfl depth
  | .closure _ _ _, depth => literalDepth_scalar rfl depth
  | .recurVal _, depth => literalDepth_scalar rfl depth
  | .cellBox _, depth => literalDepth_scalar rfl depth

theorem itemsDepth_eq : ∀ (vs : List Value) (depth : Nat), itemsDepth vs depth =
    if vs.length = 0 ∨ depth + reach.ofItems vs ≤ maxCompileDepth then some (nesting.ofItems vs)
    else none
  | [], _ => rfl
  | v :: vs, depth => by
    have hnone : vs.length = 0 → reach.ofItems vs = 0 := by
      intro h
      rw [List.length_eq_zero_iff.1 h, ofItems]
    rw [itemsDepth, literalDepth_eq v, itemsDepth_eq vs, deeper_ite]
    refine if_congr ?_ rfl rfl
    simp only [length_cons, ofItems, reach_op]
    omega

theorem pairsDepth_eq : ∀ (pairs : List (Value × Value)) (depth : Nat), pairsDepth pairs depth =
    if pairs.length = 0 ∨ depth + reach.ofPairs pairs ≤ maxCompileDepth then
      some (nesting.ofPairs pairs)
    else none
  | [], _ => rfl
  | (k, v) :: pairs, depth => by
    have hnone : pairs.length = 0 → reach.ofPairs pairs = 0 := by
      intro h
      rw [List.length_eq_zero_iff.1 h, ofPairs]
    rw [pairsDepth, literalDepth_eq k, literalDepth_eq v, pairsDepth_eq pairs, deeper_ite,
      deeper_ite]
    refine if_congr ?_ rfl rfl
    simp only [length_cons, ofPairs, reach_op]
    omega

end

end Depth

end VM

end Lispico
