import Lispico.Core.EqualsBounded
import Lispico.VM.ConstantPool
import Lispico.VM.FoldedLiterals

/-!
# Running a folded literal

The code of a folded literal stays right while the chunk grows. Running it ends as the
evaluation of the literal does, but that the compiler refuses a literal that reaches deeper than
its own limit, whatever the limit of the engine.
-/

namespace Lispico

namespace VM

open Lib Lispico.Core Lispico.Core.Value.Measure

namespace Constants

open Value

/-- The constant at an index and its charge, which is the bytes of the constant. -/
def ChargedAt (c : Constants) (i : Nat) (u : Value) : Prop :=
  c.pool[i]? = some u ∧ c.charges i = bytes.of u

variable {c c' : Constants} {v u : Value} {code : List Instruction} {allowLists : Bool} {i : Nat}
  {additions : List Addition} {pool : List Value} {a : Addition}

theorem compile_eq_ok_iff : c.compileConstantCollection v allowLists = .ok (code, c') ↔
      constantCollectionCandidate allowLists v = true ∧
        ∃ r d, foldCompileTimeConstant allowLists v = .ok r ∧ literalDepth r.1 0 = some d ∧
          code = [encode .structEnter d, encode .constCharged (addConstant c.pool r.1).1,
            encode .structLeave d] ∧
          c' = (c.addChargedConstant r.1 r.2).2 := by
  unfold compileConstantCollection
  by_cases hcand : constantCollectionCandidate allowLists v = true
  · rw [if_pos hcand, except_bind_eq_ok_iff]
    simp only [hcand, true_and]
    refine exists_congr fun r => ?_
    cases hdepth : literalDepth r.1 0 with
    | none => simp
    | some d =>
      constructor
      · rintro ⟨hr, ⟨⟩⟩
        exact ⟨d, hr, rfl, rfl, rfl⟩
      · rintro ⟨_, hr, ⟨⟩, rfl, rfl⟩
        exact ⟨hr, rfl⟩
  · rw [if_neg hcand]
    simp [hcand]

theorem wellFormed_addConstant (hpool : ∀ u ∈ pool, u.WellFormed)
    (hv : v.WellFormed) : ∀ u ∈ (addConstant pool v).2, u.WellFormed := by
  rcases addConstant_cases hpool hv with ⟨i, c, hadd, -, -⟩ | ⟨hadd, -⟩
  · rw [hadd]
    exact hpool
  · rw [hadd]
    intro u hu
    rcases List.mem_append.1 hu with hu | hu
    · exact hpool u hu
    · rw [List.mem_singleton.1 hu]
      exact hv

theorem getElem?_addConstant (v : Value) (h : pool[i]? = some u) :
    (addConstant pool v).2[i]? = some u := by
  obtain ⟨more, hmore⟩ := addConstant_extends pool v
  rw [← hmore, List.getElem?_append_left (List.getElem?_eq_some_iff.1 h).1, h]

theorem chargedAt_added (hpool : ∀ u ∈ c.pool, u.WellFormed) (hv : v.WellFormed) :
    ∃ u, (c.addChargedConstant v (bytes.of v)).2.ChargedAt (addConstant c.pool v).1 u ∧
      (u = v ∨ u ∈ c.pool ∧ u.equals v = true) := by
  obtain ⟨u, hu, heq⟩ := addConstant_spec c.pool v
  refine ⟨u, ⟨hu, ?_⟩, heq⟩
  have hcharge : (c.addChargedConstant v (bytes.of v)).2.charges (addConstant c.pool v).1 =
      bytes.of v := Function.update_self _ _ _
  rw [hcharge]
  rcases heq with rfl | ⟨hmem, heq⟩
  · rfl
  · exact (of_equals bytes (hpool u hmem) hv heq).symm

theorem ChargedAt.addCharged (h : c.ChargedAt i u) (hpool : ∀ u ∈ c.pool, u.WellFormed)
    (hv : v.WellFormed) : (c.addChargedConstant v (bytes.of v)).2.ChargedAt i u := by
  have hkept : (c.addChargedConstant v (bytes.of v)).2.pool[i]? = some u :=
    getElem?_addConstant v h.1
  refine ⟨hkept, ?_⟩
  by_cases hi : i = (addConstant c.pool v).1
  · obtain ⟨w, hw, -⟩ := chargedAt_added hpool hv
    rw [← hi] at hw
    have hsame : w = u := Option.some.inj (hw.1.symm.trans hkept)
    exact hsame ▸ hw.2
  · exact (Function.update_of_ne hi _ _).trans h.2

theorem compile_adds (hv : v.WellFormed)
    (h : c.compileConstantCollection v allowLists = .ok (code, c')) :
    ∃ w, w.WellFormed ∧ SameContents w v ∧ c' = (c.addChargedConstant w (bytes.of w)).2 := by
  obtain ⟨-, r, d, hr, -, -, rfl⟩ := compile_eq_ok_iff.1 h
  obtain ⟨hsame, hbytes⟩ := fold_spec allowLists v hv hr
  exact ⟨r.1, hsame.wellFormed hv, hsame, by rw [hbytes, of_sameContents bytes hsame]⟩

theorem add_cases (c : Constants) (a : Addition) (ha : a.value.WellFormed) :
    c.add a = c ∨ ∃ w : Value, w.WellFormed ∧
      (c.add a = { c with pool := (addConstant c.pool w).2 } ∨
        c.add a = (c.addChargedConstant w (bytes.of w)).2) := by
  cases a with
  | const v => exact .inr ⟨v, ha, .inl rfl⟩
  | literal v allowLists =>
    rw [add]
    cases h : c.compileConstantCollection v allowLists with
    | error err => exact .inl rfl
    | ok r =>
      obtain ⟨w, hw, -, hadds⟩ := compile_adds ha h
      exact .inr ⟨w, hw, .inr hadds⟩

theorem wellFormed_add (hpool : ∀ u ∈ c.pool, u.WellFormed)
    (ha : a.value.WellFormed) : ∀ u ∈ (c.add a).pool, u.WellFormed := by
  rcases add_cases c a ha with h | ⟨w, hw, h | h⟩
  · rw [h]
    exact hpool
  · rw [h]
    exact wellFormed_addConstant hpool hw
  · rw [h]
    exact wellFormed_addConstant hpool hw

theorem wellFormed_addAll (hpool : ∀ u ∈ c.pool, u.WellFormed)
    (h : ∀ a ∈ additions, a.value.WellFormed) :
    ∀ u ∈ (c.addAll additions).pool, u.WellFormed := by
  induction additions generalizing c with
  | nil => exact hpool
  | cons a additions ih =>
    exact ih (wellFormed_add hpool (h a List.mem_cons_self))
      fun b hb => h b (List.mem_cons_of_mem a hb)

theorem ChargedAt.add (h : c.ChargedAt i u) (hpool : ∀ u ∈ c.pool, u.WellFormed)
    (ha : a.value.WellFormed) : (c.add a).ChargedAt i u := by
  rcases add_cases c a ha with hadd | ⟨w, hw, hadd | hadd⟩
  · rw [hadd]
    exact h
  · rw [hadd]
    exact ⟨getElem?_addConstant w h.1, h.2⟩
  · rw [hadd]
    exact h.addCharged hpool hw

theorem ChargedAt.addAll (h : c.ChargedAt i u) (hpool : ∀ u ∈ c.pool, u.WellFormed)
    (hadditions : ∀ a ∈ additions, a.value.WellFormed) :
    (c.addAll additions).ChargedAt i u := by
  induction additions generalizing c with
  | nil => exact h
  | cons a additions ih =>
    have ha := hadditions a List.mem_cons_self
    exact ih (h.add hpool ha) (wellFormed_add hpool ha)
      fun b hb => hadditions b (List.mem_cons_of_mem a hb)

end Constants

section Literals

open Value

variable (limits : Ledger.Limits) {c : Constants} {d i : Nat} {u v : Value}

/-- The ledger once the charges that the VM holds back are settled. -/
def Regs.settled (s : Regs) : Ledger := ⟨s.ledger.depth, s.ledger.bytes + s.pending⟩

theorem encode_of_lt (op : Opcode) {a : Nat} (h : a < operandLimit) : encode op a = ⟨op, a⟩ := by
  rw [encode, Nat.mod_eq_of_lt h]

theorem runFolded_eq (hu : c.ChargedAt i u) (hd : d < operandLimit) (hi : i < operandLimit)
    (s : Regs) :
    runFolded limits c [encode .structEnter d, encode .constCharged i, encode .structLeave d] s =
      if Ledger.TooDeep limits (s.ledger.enter d) then some (.error (Ledger.depthError limits), s)
      else
        (flushPendingAllocBytes limits >>= fun _ => popResult)
          ⟨u :: s.stack, s.pending + bytes.of u, s.ledger⟩ := by
  rw [encode_of_lt _ hd, encode_of_lt _ hi, encode_of_lt _ hd]
  unfold runFolded
  by_cases hdeep : Ledger.TooDeep limits (s.ledger.enter d)
  · simp [Comp.each, Comp.bind_apply, stepFolded, hdeep]
  · simp only [Comp.each, Comp.bind_apply, stepFolded, hdeep, if_false, hu.1, hu.2,
      Comp.ret_apply]
    simp [Ledger.enter, Ledger.leave]

theorem settle_eq (stack : List Value) {n : Nat} (hn : n ≠ 0) (ledger : Ledger) :
    (flushPendingAllocBytes limits >>= fun _ => popResult) ⟨u :: stack, n, ledger⟩ =
      if ledger.bytes + n ≤ limits.maxAllocationBytes then
        some (.ok u, ⟨stack, 0, ⟨ledger.depth, ledger.bytes + n⟩⟩)
      else
        some (.error (Ledger.allocError limits),
          ⟨u :: stack, 0, ⟨ledger.depth, ledger.bytes + n⟩⟩) := by
  rw [Comp.bind_apply]
  unfold flushPendingAllocBytes Ledger.chargeAllocBytes
  rw [if_neg hn]
  by_cases hroom : ledger.bytes + n ≤ limits.maxAllocationBytes
  · rw [if_pos hroom, if_pos hroom]
    rfl
  · rw [if_neg hroom, if_neg hroom]

/-- How the two evaluations of a literal can end, from the charges of `s` on: with values that
hold the same and the same depth and charges, or both refused and back at the depth before. The
two name different limits only if both are passed. -/
inductive Alike (s : Regs) :
    Option (Except GoErr Value × Ledger) → Option (Except GoErr Value × Regs) → Prop
  | accepted {v u : Value} {ledger : Ledger} (h : SameContents u v) :
      Alike s (some (.ok v, ledger)) (some (.ok u, ⟨s.stack, 0, ledger⟩))
  | refused {err err' : GoErr} {bytes : Nat} {s' : Regs}
      (herr : err = Ledger.depthError limits ∨ err = Ledger.allocError limits)
      (herr' : err' = err ∨ err = Ledger.allocError limits ∧ err' = Ledger.depthError limits)
      (hdepth : s'.ledger.depth = s.ledger.depth) :
      Alike s (some (.error err, ⟨s.ledger.depth, bytes⟩)) (some (.error err', s'))

variable {limits}

theorem alike_of_verdict (hu : c.ChargedAt i u) (hd : d < operandLimit) (hi : i < operandLimit)
    (hpos : 0 < d) (hbytes : 0 < bytes.of u) (hsame : SameContents u v) (s : Regs)
    {r : Option (Except GoErr Value × Ledger)}
    (h : Ledger.Verdict limits s.settled d (bytes.of u) v r) :
    Alike limits s r (runFolded limits c
      [encode .structEnter d, encode .constCharged i, encode .structLeave d] s) := by
  have hdeep : ¬ Ledger.DepthFits limits s.settled d ↔
      Ledger.TooDeep limits (s.ledger.enter d) := by
    simp only [Ledger.DepthFits, Ledger.TooDeep, Ledger.enter, Regs.settled]
    omega
  have hpending : s.pending + bytes.of u ≠ 0 := by omega
  have hroom : Ledger.BytesFit limits s.settled (bytes.of u) ↔
      s.ledger.bytes + (s.pending + bytes.of u) ≤ limits.maxAllocationBytes := by
    simp only [Ledger.BytesFit, Regs.settled]
    omega
  rw [runFolded_eq limits hu hd hi]
  cases h with
  | accepted hfit hfits =>
    rw [if_neg fun hover => hdeep.2 hover hfit, settle_eq limits _ hpending,
      if_pos (hroom.1 hfits), ← Nat.add_assoc]
    exact .accepted hsame
  | tooDeep hover bytes =>
    rw [if_pos (hdeep.1 hover)]
    exact .refused (.inl rfl) (.inl rfl) rfl
  | tooLarge hfull bytes =>
    by_cases hover : Ledger.TooDeep limits (s.ledger.enter d)
    · rw [if_pos hover]
      exact .refused (.inr rfl) (.inr ⟨rfl, rfl⟩) rfl
    · rw [if_neg hover, settle_eq limits _ hpending, if_neg fun hfits => hfull (hroom.2 hfits)]
      exact .refused (.inr rfl) (.inl rfl) rfl

theorem candidate_of_isConstant (hconst : isConstant v = true) (hcoll : v.isCollection = true) :
    Constants.constantCollectionCandidate false v = true := by
  cases v with
  | vector => rfl
  | map => rfl
  | list => cases hconst
  | _ => cases hcoll

theorem addConstant_length (pool : List Value) (v : Value) :
    (addConstant pool v).2.length ≤ pool.length + 1 := by
  unfold addConstant
  split
  · exact Nat.le_succ _
  · rw [List.length_append, List.length_singleton]

theorem nesting_collection (h : v.isCollection = true) : 0 < nesting.of v := by
  cases v <;> first | exact Nat.succ_pos _ | cases h

theorem bytes_collection (h : v.isCollection = true) : 0 < bytes.of v := by
  cases v with
  | list items => exact Nat.add_pos_left (Nat.add_pos_left (by decide) _) _
  | vector items => exact Nat.add_pos_left (Nat.add_pos_left (by decide) _) _
  | map pairs => exact Nat.add_pos_left (Nat.add_pos_left (by decide) _) _
  | _ => cases h

theorem nodeNesting_le {n nested reached : Nat} (h : nested ≤ if n = 0 then 0 else reached + 1) :
    nested + 1 ≤ (if n = 0 then 0 else reached + 1) + 1 := Nat.succ_le_succ h

mutual

theorem nesting_le : ∀ v : Value, nesting.of v ≤ reach.of v + 1
  | .list items => nodeNesting_le (nestingItems_le items)
  | .vector items => nodeNesting_le (nestingItems_le items)
  | .map pairs => nodeNesting_le (nestingPairs_le pairs)
  | .nil => Nat.zero_le _
  | .bool _ => Nat.zero_le _
  | .int _ => Nat.zero_le _
  | .float _ => Nat.zero_le _
  | .string _ => Nat.zero_le _
  | .symbol _ => Nat.zero_le _
  | .keyword _ => Nat.zero_le _
  | .goFunc _ _ => Nat.zero_le _
  | .lambda _ _ _ _ _ => Nat.zero_le _
  | .macroVal _ _ _ _ _ => Nat.zero_le _
  | .closure _ _ _ => Nat.zero_le _
  | .recurVal _ => Nat.zero_le _
  | .cellBox _ => Nat.zero_le _

theorem nestingItems_le : ∀ vs : List Value,
    nesting.ofItems vs ≤ if vs.length = 0 then 0 else reach.ofItems vs + 1
  | [] => Nat.le_refl 0
  | v :: vs => by
    have hv := nesting_le v
    have hvs := nestingItems_le vs
    rw [List.length_cons, if_neg (Nat.succ_ne_zero _), ofItems, ofItems, reach_op, nesting_op]
    split at hvs <;> omega

theorem nestingPairs_le : ∀ pairs : List (Value × Value),
    nesting.ofPairs pairs ≤ if pairs.length = 0 then 0 else reach.ofPairs pairs + 1
  | [] => Nat.le_refl 0
  | (k, v) :: pairs => by
    have hk := nesting_le k
    have hv := nesting_le v
    have hpairs := nestingPairs_le pairs
    rw [List.length_cons, if_neg (Nat.succ_ne_zero _)]
    simp only [ofPairs, reach_op, nesting_op]
    split at hpairs <;> omega

end

/-- A collection literal of constants compiles to a constant that is loaded as the tree-walker
evaluates the literal, whatever else the chunk holds and whatever the limits are. -/
theorem folded_literal_runs_as_evaluated (limits : Ledger.Limits)
    (rest : Value → Comp Ledger GoErr Value) (before : List Constants.Addition)
    (hbefore : ∀ a ∈ before, a.value.WellFormed) (hv : v.WellFormed)
    (hconst : isConstant v = true) (hcoll : v.isCollection = true)
    (hreach : reach.of v ≤ maxCompileDepth)
    (htold : ∀ u ∈ (Constants.empty.addAll before).pool, Told u v) :
    ∃ code c, (Constants.empty.addAll before).compileConstantCollection v false = .ok (code, c) ∧
      ∀ after : List Constants.Addition, (∀ a ∈ after, a.value.WellFormed) →
        (c.addAll after).pool.length ≤ operandLimit → ∀ s : Regs,
          Alike limits s (evalLiteral limits rest v s.settled)
            (runFolded limits (c.addAll after) code s) := by
  have hpool : ∀ u ∈ (Constants.empty.addAll before).pool, u.WellFormed :=
    Constants.wellFormed_addAll (by simp [Constants.empty]) hbefore
  obtain ⟨r, hr⟩ := fold_of_isConstant v hv hconst
  obtain ⟨hsame, hbytes⟩ := fold_spec false v hv hr
  have hw := hsame.wellFormed hv
  have hnesting := of_sameContents nesting hsame
  have hdepth : literalDepth r.1 0 = some (nesting.of v) := by
    rw [literalDepth_eq, of_sameContents reach hsame, Nat.zero_add, if_pos hreach, hnesting]
  have hcharge : r.2 = bytes.of r.1 := hbytes.trans (of_sameContents bytes hsame).symm
  obtain ⟨u, hu, hfrom⟩ := Constants.chargedAt_added hpool hw
  rw [← hcharge] at hu
  refine ⟨_, _, Constants.compile_eq_ok_iff.2
    ⟨candidate_of_isConstant hconst hcoll, r, _, hr, hdepth, rfl, rfl⟩, ?_⟩
  intro after hafter hlimit s
  have hloaded : SameContents u r.1 := by
    rcases hfrom with rfl | ⟨hmem, heq⟩
    · exact hw.sameContents
    · have hagree : u.equals r.1 = u.equals v :=
        (agree_of_sameContents (hpool u hmem) hw (hpool u hmem).sameContents hsame).2
      exact (htold u hmem (hagree.symm.trans heq)).trans hsame.symm
  have hload := hu.addAll (Constants.wellFormed_addConstant hpool hw) hafter
  have hd : nesting.of v < operandLimit := by
    have hle := nesting_le v
    have hcap : maxCompileDepth + 1 < operandLimit := by decide
    omega
  have hi := Nat.lt_of_lt_of_le (List.getElem?_eq_some_iff.1 hload.1).1 hlimit
  have hsize : bytes.of u = r.2 := (of_sameContents bytes hloaded).trans hcharge.symm
  have hpos : 0 < bytes.of u := by
    rw [hsize, hbytes]
    exact bytes_collection hcoll
  refine alike_of_verdict hload hd hi (nesting_collection hcoll) hpos hloaded s ?_
  rw [hsize]
  exact evalLiteral_costs limits rest v hr s.settled

theorem pair_literal_runs_as_evaluated :
    ∃ code c, Constants.empty.compileConstantCollection (.vector [.int 1, .int 2]) false =
        .ok (code, c) ∧
      ∀ s : Regs, Alike ⟨8, 4096⟩ s
        (evalLiteral ⟨8, 4096⟩ (fun _ => Comp.diverge) (.vector [.int 1, .int 2]) s.settled)
        (runFolded ⟨8, 4096⟩ c code s) := by
  have hitems : ∀ v ∈ [Value.int 1, .int 2], v.WellFormed := by
    intro v hv
    simp only [List.mem_cons, List.not_mem_nil, or_false] at hv
    rcases hv with rfl | rfl <;> exact .scalar rfl
  obtain ⟨code, c, hcompiled, hruns⟩ := folded_literal_runs_as_evaluated ⟨8, 4096⟩
    (fun _ => Comp.diverge) [] (by simp) (.vector hitems) rfl rfl (by decide)
    (by simp [Constants.addAll, Constants.empty])
  refine ⟨code, c, hcompiled, hruns [] (by simp) ?_⟩
  obtain ⟨-, r, d, -, -, -, rfl⟩ := Constants.compile_eq_ok_iff.1 hcompiled
  refine Nat.le_trans (addConstant_length _ _) ?_
  decide

theorem compile_tooDeep (c : Constants) (hv : v.WellFormed) (hconst : isConstant v = true)
    (hcoll : v.isCollection = true) (hreach : maxCompileDepth < reach.of v) :
    c.compileConstantCollection v false =
      .error (.failed (newResourceLimitError "compile depth limit exceeded")) := by
  obtain ⟨r, hr⟩ := fold_of_isConstant v hv hconst
  obtain ⟨hsame, -⟩ := fold_spec false v hv hr
  have hdepth : literalDepth r.1 0 = none := by
    rw [literalDepth_eq, of_sameContents reach hsame, Nat.zero_add, if_neg (Nat.not_le.2 hreach)]
  rw [Constants.compileConstantCollection, if_pos (candidate_of_isConstant hconst hcoll), hr]
  simp only [bind, Except.bind, hdepth]

def nestedVector : Nat → Value
  | 0 => .vector []
  | n + 1 => .vector [nestedVector n]

variable (n : Nat)

theorem nestedVector_isCollection : (nestedVector n).isCollection = true := by
  cases n <;> rfl

theorem nestedVector_isConstant : isConstant (nestedVector n) = true := by
  induction n with
  | zero => rfl
  | succ n ih => simp [nestedVector, isConstant, areConstant, ih]

theorem nestedVector_wellFormed : (nestedVector n).WellFormed := by
  induction n with
  | zero => exact .vector (by simp)
  | succ n ih => exact .vector (by simpa using ih)

theorem reach_nestedVector : reach.of (nestedVector n) = n := by
  induction n with
  | zero => rfl
  | succ n ih =>
    have hstep : reach.of (nestedVector (n + 1)) = max (reach.of (nestedVector n)) 0 + 1 := rfl
    rw [hstep, ih, Nat.max_zero]

theorem nesting_nestedVector : nesting.of (nestedVector n) = n + 1 := by
  induction n with
  | zero => rfl
  | succ n ih =>
    have hstep : nesting.of (nestedVector (n + 1)) = max (nesting.of (nestedVector n)) 0 + 1 :=
      rfl
    rw [hstep, ih, Nat.max_zero]

theorem bytes_nestedVector : bytes.of (nestedVector n) = 24 + 40 * n := by
  induction n with
  | zero => rfl
  | succ n ih =>
    have hstep : bytes.of (nestedVector (n + 1)) = 40 + (bytes.of (nestedVector n) + 0) := rfl
    rw [hstep, ih]
    omega

/-- Under a limit of 2000 levels the tree-walker evaluates a vector inside 1100 others. The
compiler refuses it. -/
theorem deep_literal_refused :
    Constants.empty.compileConstantCollection (nestedVector 1100) false =
        .error (.failed (newResourceLimitError "compile depth limit exceeded")) ∧
      ∃ v s, evalLiteral ⟨2000, 67108864⟩ (fun _ => Comp.diverge) (nestedVector 1100) ⟨0, 0⟩ =
        some (.ok v, s) := by
  have hv := nestedVector_wellFormed 1100
  have hconst := nestedVector_isConstant 1100
  constructor
  · refine compile_tooDeep _ hv hconst (nestedVector_isCollection 1100) ?_
    rw [reach_nestedVector]
    decide
  · obtain ⟨r, hr⟩ := fold_of_isConstant _ hv hconst
    obtain ⟨-, hbytes⟩ := fold_spec false _ hv hr
    have hverdict := evalLiteral_costs ⟨2000, 67108864⟩ (fun _ => Comp.diverge) _ hr ⟨0, 0⟩
    rw [nesting_nestedVector, hbytes, bytes_nestedVector] at hverdict
    generalize evalLiteral _ _ _ _ = result at hverdict ⊢
    cases hverdict with
    | accepted => exact ⟨_, _, rfl⟩
    | tooDeep h => exact absurd (.inr (.inr (by decide))) h
    | tooLarge h => exact absurd (.inr (by decide)) h

end Literals

end VM

end Lispico
