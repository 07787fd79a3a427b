import Lispico.Core.Evaluator
import Lispico.Core.ScanRules

/-!
# What a loop does beside its iterations

The scan for captured variables evaluates the heads of the lists it finds. So a loop evaluates
no more than its initializers and its body when every head the scan comes to is harmless: a name
not bound to a macro, a function expression, or a value that evaluates to itself. Heads that the
scan does not come to are free.
-/

namespace Lispico

namespace Core

open Lib Lib.Comp

/-- Evaluation is never interrupted, and asking whether it is changes nothing. -/
def Engine.Unlimited {σ : Type} (E : Engine σ) : Prop := ∀ h, E.poll h = (none, h)

section Plain

variable {σ : Type} (ev : Value → List Nat → EvalM σ Value)

/-- A loop that knows which variables are captured: its initializers, then its
iterations. -/
def plainLoop (captured : List String) (n : Nat) (args : List Value) (env : List Nat) :
    EvalM σ Value :=
  match args with
  | raw :: first :: body =>
    match normalizeBindings "loop" raw with
    | .error err => fail (evalErrorf err)
    | .ok bindings => do
        let loopEnv ← childEnv env
        evalLoopBindings ev loopEnv env bindings
        within World.enterLoop World.leaveLoop
          (loopIterations ev env (bindings.map Prod.fst) captured (first :: body) n loopEnv)
  | _ => fail (evalErrorf "loop requires at least 2 arguments")

/-- The state a loop is scanned in: its initializers are bound in a scope of its own. -/
def loopEntry (bindings : List (String × Value)) (env : List Nat) : EvalM σ (List Nat) := do
  let loopEnv ← childEnv env
  evalLoopBindings ev loopEnv env bindings
  return loopEnv

end Plain

section Guarded

variable {σ : Type} (E : Engine σ)

def harmlessHead (st : Store) (env : List Nat) : Value → Bool
  | .symbol name =>
    (E.dialect.canonicalName name).isSome ||
      match st.get env name with
      | some v => (asMacro v).isNone
      | none => true
  | .list [] => true
  | .list (.symbol name :: _) => E.dialect.canonicalName name == some .fnForm
  | .list _ => false
  | .vector _ => false
  | .map _ => false
  | .macroVal _ _ _ _ _ => false
  | _ => true

/-- The evaluator, without an answer at the first head that is not harmless. -/
def guardHeads (ev : Value → List Nat → EvalM σ Value) (head : Value) (env : List Nat) :
    EvalM σ Value := fun w =>
  if harmlessHead E w.store env head then ev head env w else none

end Guarded

section Keeps

variable {σ : Type} {E : Engine σ} {env : List Nat}

variable {head : Value}

theorem pollCancel_eq (hE : E.Unlimited) : E.pollCancel = ret () := by
  funext w
  simp [Engine.pollCancel, hE w.host]

theorem evalFn_keeps (args : List Value) (w : World σ) :
    ∃ r, evalFn args env w = some (r, w) ∧ ∀ v, r = .ok v → asMacro v = none := by
  unfold evalFn
  split
  · rename_i params form body
    cases paramsAsVector params with
    | error err => exact ⟨_, rfl, by simp⟩
    | ok items =>
      cases hparse : parseParams items with
      | error err => exact ⟨_, by simp only [hparse]; rfl, by simp⟩
      | ok parsed => exact ⟨_, by simp only [hparse]; rfl, by rintro _ ⟨⟩; rfl⟩
  · exact ⟨_, rfl, by simp⟩

variable {w : World σ}

theorem eval_harmlessHead (hE : E.Unlimited) (app : Value → List Value → List Nat → EvalM σ Value)
    (m : Nat) (h : harmlessHead E w.store env head = true)
    (hspecial : isSpecialHead E head = false) :
    ∃ r, eval E app (m + 1) head env w = some (r, w) ∧ ∀ v, r = .ok v → asMacro v = none := by
  rw [eval, pollCancel_eq hE, ret_bind]
  cases head with
  | symbol name =>
    rw [harmlessHead, Bool.or_eq_true] at h
    simp only [isSpecialHead] at hspecial
    simp only [hspecial, Bool.false_eq_true, false_or] at h
    cases hget : w.store.get env name with
    | none =>
      refine ⟨.error (newUndefinedError name), ?_, by simp⟩
      simp [evalNode, getVar, bind_apply, hget]
    | some v =>
      refine ⟨.ok v, ?_, ?_⟩
      · simp [evalNode, getVar, bind_apply, hget]
      · rintro _ ⟨⟩
        simpa [hget] using h
  | list items =>
    cases items with
    | nil => exact ⟨.ok (.list []), rfl, by rintro _ ⟨⟩; rfl⟩
    | cons f args =>
      cases f with
      | symbol name =>
        have hfn : E.dialect.canonicalName name = some .fnForm := by
          simpa [harmlessHead] using h
        simp only [evalNode, evalList, hfn, evalForm]
        exact evalFn_keeps args w
      | _ => cases h
  | vector items => cases h
  | map pairs => cases h
  | macroVal name params variadic body menv => cases h
  | closure chunk caps globals => exact ⟨_, rfl, by simp⟩
  | recurVal args => exact ⟨_, rfl, by simp⟩
  | cellBox box => exact ⟨_, rfl, by simp⟩
  | _ => exact ⟨_, rfl, by rintro _ ⟨⟩; rfl⟩

/-- The guarded scan decides what the scan decides, and leaves the state as it is. -/
theorem scanRules_guarded (hE : E.Unlimited)
    (app : Value → List Value → List Nat → EvalM σ Value) (m : Nat) :
    ScanRules E (guardHeads E (eval E app m)) (eval E app m) env
      fun m' m => ∀ out, m' w = some out → m w = some out ∧ out.2 = w where
  ret a := by
    rintro out ⟨⟩
    exact ⟨rfl, rfl⟩
  bind hm hf := by
    intro out h
    rcases bind_eq_some_iff.1 h with ⟨a, w₁, ha, hout⟩ | ⟨e, w₁, he, rfl⟩
    · obtain ⟨ha', rfl⟩ := hm _ ha
      rw [bind_of_ok _ ha']
      exact hf a out hout
    · obtain ⟨he', rfl⟩ := hm _ he
      exact ⟨bind_of_error _ he', rfl⟩
  diverge _ h := by cases h
  expand head args := by
    intro out h
    unfold expandMacroForLoopScan at h ⊢
    cases hspecial : isSpecialHead E head with
    | true =>
      rw [hspecial, if_pos rfl] at h
      cases h
      exact ⟨rfl, rfl⟩
    | false =>
      rw [hspecial, if_neg (by simp), attempt_bind, guardHeads] at h
      rw [if_neg (by simp), attempt_bind]
      split_ifs at h with hharmless
      cases m with
      | zero => cases h
      | succ m =>
        obtain ⟨r, hr, hno⟩ := eval_harmlessHead hE app m hharmless hspecial
        rw [hr] at h ⊢
        cases r with
        | error err =>
          cases h
          exact ⟨rfl, rfl⟩
        | ok v =>
          simp only [hno v rfl] at h ⊢
          cases h
          exact ⟨rfl, rfl⟩

end Keeps

section Loops

variable {σ : Type} {E : Engine σ}

/-- In the state the initializers lead to, the scan comes to harmless heads only. -/
def QuietAtEntry (E : Engine σ) (ev : Value → List Nat → EvalM σ Value) (n : Nat)
    (args : List Value) (env : List Nat) (w : World σ) : Prop :=
  ∀ bindings loopEnv w', normalizeBindings "loop" (args.headD .nil) = .ok bindings →
    loopEntry ev bindings env w = some (.ok loopEnv, w') →
      ∃ captured w'', loopCapturedVars E (guardHeads E ev) n args.tail (bindings.map Prod.fst)
        loopEnv w' = some (.ok captured, w'')

section Entry

variable (ev : Value → List Nat → EvalM σ Value) (n : Nat) {raw : Value}
  {bindings : List (String × Value)} (first : Value) (body : List Value) (env : List Nat)

theorem evalLoop_entry (h : normalizeBindings "loop" raw = .ok bindings) :
    evalLoop E ev n (raw :: first :: body) env = loopEntry ev bindings env >>= fun loopEnv =>
        loopCapturedVars E ev n (first :: body) (bindings.map Prod.fst) loopEnv >>=
          fun captured => within World.enterLoop World.leaveLoop (loopIterations ev env
            (bindings.map Prod.fst) captured (first :: body) n loopEnv) := by
  simp only [evalLoop, h, loopEntry, bind_assoc', pure_bind']

theorem plainLoop_entry (captured : List String)
    (h : normalizeBindings "loop" raw = .ok bindings) :
    plainLoop ev captured n (raw :: first :: body) env =
      loopEntry ev bindings env >>= fun loopEnv =>
        within World.enterLoop World.leaveLoop
          (loopIterations ev env (bindings.map Prod.fst) captured (first :: body) n loopEnv) := by
  simp only [plainLoop, h, loopEntry, bind_assoc', pure_bind']

end Entry

theorem evalLoop_eq_plainLoop (hE : E.Unlimited)
    (app : Value → List Value → List Nat → EvalM σ Value) {n : Nat} {args : List Value}
    {env : List Nat} {w : World σ} (hq : QuietAtEntry E (eval E app n) n args env w) :
    ∃ captured, evalLoop E (eval E app n) n args env w =
      plainLoop (eval E app n) captured n args env w := by
  match args, hq with
  | [], _ => exact ⟨[], rfl⟩
  | [_], _ => exact ⟨[], rfl⟩
  | raw :: first :: body, hq =>
    cases hraw : normalizeBindings "loop" raw with
    | error err => exact ⟨[], by simp only [evalLoop, plainLoop, hraw]⟩
    | ok bindings =>
      cases hentry : loopEntry (eval E app n) bindings env w with
      | none =>
        refine ⟨[], ?_⟩
        rw [evalLoop_entry _ _ _ _ _ hraw, plainLoop_entry _ _ _ _ _ _ hraw,
          bind_of_none _ hentry, bind_of_none _ hentry]
      | some out =>
        obtain ⟨err | loopEnv, w'⟩ := out
        · refine ⟨[], ?_⟩
          rw [evalLoop_entry _ _ _ _ _ hraw, plainLoop_entry _ _ _ _ _ _ hraw,
            bind_of_error _ hentry, bind_of_error _ hentry]
        · obtain ⟨captured, w'', hguarded⟩ := hq bindings loopEnv w' hraw hentry
          obtain ⟨hcaptured, hstate⟩ :=
            (scanRules_guarded hE app n).loopCapturedVars n _ _ _ hguarded
          obtain rfl : w'' = w' := hstate
          rw [List.tail_cons] at hcaptured
          refine ⟨captured, ?_⟩
          rw [evalLoop_entry _ _ _ _ _ hraw, plainLoop_entry _ _ _ _ _ _ hraw,
            bind_of_ok _ hentry, bind_of_ok _ hentry, bind_of_ok _ hcaptured]

/-- Evaluating a loop whose scan comes to harmless heads only performs the effects of its
initializers and of its iterations, and no others. -/
theorem quiet_loop_effects (hE : E.Unlimited)
    (app : Value → List Value → List Nat → EvalM σ Value) {n : Nat} {name : String}
    {args : List Value} {env : List Nat} {w : World σ}
    (hname : E.dialect.canonicalName name = some .loopForm)
    (hq : QuietAtEntry E (eval E app n) n args env w) :
    ∃ captured, eval E app (n + 1) (.list (.symbol name :: args)) env w =
      plainLoop (eval E app n) captured n args env w := by
  obtain ⟨captured, h⟩ := evalLoop_eq_plainLoop hE app hq
  refine ⟨captured, ?_⟩
  rw [← h, eval, pollCancel_eq hE, ret_bind]
  simp only [evalNode, evalList, hname, evalForm]

end Loops

section Picking

def countingEngine : Engine Nat where
  dialect := .identity
  maxMacroDepth := 100
  string := Value.goType
  quote := id
  poll := fun h => (none, h)

/-- The builtin `pick` counts and returns a builtin that does nothing. -/
def countingHost : Host Nat where
  builtin := fun f _ _ =>
    if f = 0 then step fun w => (.goFunc "done" 1, { w with host := w.host + 1 })
    else ret .nil
  applier := fun _ _ _ _ => ret .nil
  lambda := fun _ _ _ => ret .nil

/-- A root scope that binds `pick`. -/
def pickingWorld : World Nat where
  store := ⟨[⟨.goFunc "pick" 0, false⟩], [⟨[("pick", 0)], []⟩]⟩
  boxes := []
  loopDepth := 0
  macroDepth := 0
  caught := []
  host := 0

/-- `[i 0] ((pick) i)`. -/
def computedHeadLoop : List Value :=
  [.vector [.symbol "i", .int 0], .list [.list [.symbol "pick"], .symbol "i"]]

def countingApply : Value → List Value → List Nat → EvalM Nat Value :=
  apply countingEngine (fun _ => countingHost) 1

/-- `[] ((pick) 1)` and `[i 0] (if nil (fn ((pick) i)) (pick i))`: there is no variable to scan
for, and the `fn` is malformed. -/
def unreachedHeadLoops : List (List Value) :=
  [[.vector [], .list [.list [.symbol "pick"], .int 1]],
    [.vector [.symbol "i", .int 0], .list [.symbol "if", .nil,
      .list [.symbol "fn", .list [.list [.symbol "pick"], .symbol "i"]],
      .list [.symbol "pick", .symbol "i"]]]]

theorem quiet_loop_effects_unreached : unreachedHeadLoops.Forall fun args => ∃ captured,
    eval countingEngine countingApply 6 (.list (.symbol "loop" :: args)) [0] pickingWorld =
      plainLoop (eval countingEngine countingApply 5) captured 5 args [0] pickingWorld := by
  refine List.forall_iff_forall_mem.2 fun args hargs => ?_
  refine quiet_loop_effects (fun _ => rfl) _ rfl ?_
  intro bindings loopEnv w' hbindings hentry
  simp only [unreachedHeadLoops, List.mem_cons, List.not_mem_nil, or_false] at hargs
  rcases hargs with rfl | rfl
  · cases hbindings
    cases hentry
    exact ⟨_, _, rfl⟩
  · cases hbindings
    cases hentry
    exact ⟨_, _, rfl⟩

/-- A computed head is evaluated by the scan and again by the one iteration. -/
theorem computed_head_evaluated_twice :
    (eval countingEngine countingApply 4 (.list (.symbol "loop" :: computedHeadLoop)) [0]
        pickingWorld).map (fun out => out.2.host) = some 2 ∧
    ∀ captured, (plainLoop (eval countingEngine countingApply 3) captured 3 computedHeadLoop [0]
        pickingWorld).map (fun out => out.2.host) = some 1 :=
  ⟨by decide +kernel, fun _ => rfl⟩

end Picking

end Core

end Lispico
