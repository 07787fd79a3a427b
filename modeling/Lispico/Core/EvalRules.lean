import Lispico.Core.Evaluator
import Lispico.Core.ScanRules

/-!
# A rule for the tree-walker

A judgement about computations holds of the whole evaluator if it holds of results, errors and
sequences and of the steps on the state: of what a scope is asked and told, of an error bound by a
handler that is not terminal, and of the counters of loops and macros.
-/

namespace Lispico

namespace Core

open Lib Lib.Comp

structure EvalRules {σ : Type} (E : Engine σ) (T : {α : Type} → EvalM σ α → Prop) : Prop where
  ret : ∀ {α : Type} (a : α), T (Comp.ret a)
  fail : ∀ {α : Type} (err : GoErr), T (Comp.fail err : EvalM σ α)
  diverge : ∀ {α : Type}, T (Comp.diverge : EvalM σ α)
  bind : ∀ {α β : Type} {m : EvalM σ α} {f : α → EvalM σ β}, T m → (∀ a, T (f a)) → T (m >>= f)
  attempt : ∀ {α : Type} {m : EvalM σ α}, T m → T m.attempt
  read : ∀ {α : Type} {f : World σ → EvalM σ α}, (∀ w, T (f w)) → (∀ w w' : World σ,
    w.loopDepth = w'.loopDepth → w.macroDepth = w'.macroDepth → f w = f w') → T (Comp.read >>= f)
  inLoop : ∀ {α : Type} {m : EvalM σ α}, T m → T (within World.enterLoop World.leaveLoop m)
  inMacro : ∀ {α : Type} {m : EvalM σ α}, T m → T (within World.deeper World.shallower m)
  pollCancel : T E.pollCancel
  getVar : ∀ env name, T (getVar env name)
  getFuncVar : ∀ env name, T (getFuncVar env name)
  findVar : ∀ env name, T (findVar env name)
  setVar : ∀ scope name v, T (setVar scope name v)
  setFuncVar : ∀ scope name v, T (setFuncVar scope name v)
  replaceVar : ∀ scope name v, T (replaceVar scope name v)
  childEnv : ∀ env, T (childEnv env)
  forkEnv : ∀ env parent names, T (forkEnv env parent names)
  setAll : ∀ scope bindings, T (setAll scope bindings)
  noteCaught : ∀ {err : GoErr} (value : Value), ¬err.Terminal → T (noteCaught err value)

namespace EvalRules

variable {σ : Type} {E : Engine σ} {T : {α : Type} → EvalM σ α → Prop}
  (R : EvalRules E (fun m => T m))

include R

omit R in
theorem ite_holds {α : Type} {c : Prop} [Decidable c] {m m' : EvalM σ α} (hm : T m) (hm' : T m') :
    T (if c then m else m') := by
  split_ifs
  · exact hm
  · exact hm'

theorem lift {α : Type} (r : Except GoErr α) : T (Comp.lift r) := by
  cases r with
  | ok a => exact R.ret a
  | error err => exact R.fail err

theorem each {α β : Type} {f : α → EvalM σ β} (hf : ∀ x, T (f x)) (xs : List α) :
    T (Comp.each f xs) := by
  induction xs with
  | nil => exact R.ret []
  | cons x xs ih => exact R.bind (hf x) fun y => R.bind ih fun ys => R.ret _

section Steps

variable (scope : Nat) (env : List Nat) (name : String) (v : Value)

theorem childVariadic_holds (params : List String) (args : List Value) (variadic : String) :
    T (childVariadic env params args variadic) := by
  refine R.bind (R.childEnv env) fun child => ?_
  split
  · refine ite_holds (R.fail _) ?_
    exact R.bind (R.setAll _ _) fun _ => R.bind (R.setVar _ _ _) fun _ => R.ret _
  · refine ite_holds (R.fail _) ?_
    exact R.bind (R.setAll _ _) fun _ => R.ret _

theorem bindOperator_holds : T (bindOperator E env name v) :=
  ite_holds (R.setFuncVar _ _ _) (R.setVar _ _ _)

theorem assignLoopVars_holds (captured : List String) (bindings : List (String × Value)) :
    T (assignLoopVars captured scope bindings) := by
  induction bindings with
  | nil => exact R.ret ()
  | cons binding bindings ih =>
    exact ite_holds (R.bind (R.replaceVar _ _ _) fun _ => ih)
      (R.bind (R.setVar _ _ _) fun _ => ih)

theorem nextLoopEnv_holds (vars captured : List String) (loopEnv : List Nat) (args : List Value) :
    T (nextLoopEnv env vars captured loopEnv args) := by
  refine ite_holds (R.bind (R.assignLoopVars_holds _ _ _) fun _ => R.ret loopEnv) ?_
  refine R.bind (R.forkEnv _ _ _) fun next => ?_
  exact R.bind (R.assignLoopVars_holds _ _ _) fun _ => R.ret next

end Steps

section Forms

variable {ev : Value → List Nat → EvalM σ Value}
  {app : Value → List Value → List Nat → EvalM σ Value}
  (hev : ∀ v env, T (ev v env)) (happ : ∀ fn args env, T (app fn args env))
  (n : Nat) (m : MacroParts) (args : List Value) (env : List Nat) {expand : Value → EvalM σ Value}
  (last : Value) (head : Value) (v : Value)

theorem evalDefn_holds : T (evalDefn E args env) := by
  unfold evalDefn
  split
  · split
    · split
      · exact R.fail _
      · split
        · exact R.fail _
        · exact R.bind (R.bindOperator_holds _ _ _) fun _ => R.ret _
    · exact R.fail _
  · exact R.fail _

theorem evalDefmacro_holds : T ( evalDefmacro E args env) := by
  unfold evalDefmacro
  split
  · split
    · split
      · exact R.fail _
      · split
        · exact R.fail _
        · exact R.bind (R.bindOperator_holds _ _ _) fun _ => R.ret _
    · exact R.fail _
  · exact R.fail _

theorem evalFn_holds : T (evalFn args env) := by
  unfold evalFn
  split
  · split
    · exact R.fail _
    · split
      · exact R.fail _
      · exact R.ret _
  · exact R.fail _

theorem evalQuote_holds : T (evalQuote args) := by
  unfold evalQuote
  split
  · exact R.ret _
  · exact R.fail _

theorem evalFunction_holds : T (evalFunction args env) := by
  unfold evalFunction
  split
  · refine R.bind (R.getFuncVar _ _) fun fn => ?_
    cases fn with
    | some fn => exact R.ret fn
    | none => exact R.fail _
  · exact R.fail _
  · exact R.fail _

theorem macroScope_holds : T (macroScope m args) := by
  refine R.bind (R.attempt (R.childVariadic_holds _ _ _ _)) fun scope => ?_
  cases scope with
  | ok env => exact R.ret env
  | error err => exact R.fail _

include hev

theorem evalBodyFrom_holds (result : Value) (body : List Value) :
    T (evalBodyFrom ev env result body) := by
  induction body generalizing result with
  | nil => exact R.ret result
  | cons form body ih => exact R.bind (hev form env) fun v => ih v

theorem evalBody_holds : T (evalBody ev args env) :=
  R.evalBodyFrom_holds hev env .nil args

theorem evalAll_holds : T (evalAll ev args env) :=
  R.each (fun form => hev form env) args

theorem evalPairs_holds (result pairs : List (Value × Value)) :
    T (evalPairs (ev · env) result pairs) := by
  induction pairs generalizing result with
  | nil => exact R.ret result
  | cons pair pairs ih =>
    refine R.bind (hev _ env) fun k => R.bind (hev _ env) fun v => ?_
    split
    · exact ih _
    · exact R.fail _

theorem evalDef_holds : T (evalDef ev args env) := by
  unfold evalDef
  split
  · exact R.bind (hev _ _) fun v => R.bind (R.setVar _ _ _) fun _ => R.ret v
  · exact R.fail _
  · exact R.fail _

theorem evalIf_holds : T (evalIf ev args env) := by
  unfold evalIf
  split
  · exact R.bind (hev _ _) fun c => ite_holds (hev _ _) (R.ret _)
  · exact R.bind (hev _ _) fun c => ite_holds (hev _ _) (hev _ _)
  · exact R.fail _

theorem evalClauses_holds (clauses : List (Value × List Value)) :
    T (evalClauses ev env clauses) := by
  induction clauses with
  | nil => exact R.ret _
  | cons clause clauses ih =>
    refine ite_holds (R.evalBody_holds hev _ _) (R.bind (hev _ _) fun result => ?_)
    exact ite_holds (R.evalBody_holds hev _ _) ih

theorem evalCond_holds : T (evalCond E ev args env) := by
  unfold evalCond
  split
  · exact R.fail _
  · exact R.evalClauses_holds hev env _

theorem evalWhen_holds : T (evalWhen ev args env) := by
  unfold evalWhen
  split
  · exact R.bind (hev _ _) fun c => ite_holds (R.evalBody_holds hev _ _) (R.ret _)
  · exact R.fail _

theorem evalLetBindings_holds (child : List Nat) (bindings : List (String × Value)) :
    T (evalLetBindings ev child bindings) := by
  induction bindings with
  | nil => exact R.ret ()
  | cons binding bindings ih =>
    exact R.bind (hev _ _) fun v => R.bind (R.setVar _ _ _) fun _ => ih

theorem evalLetNamed_holds (form : String) : T (evalLetNamed ev form args env) := by
  unfold evalLetNamed
  split
  · split
    · exact R.fail _
    · refine R.bind (R.childEnv env) fun child => ?_
      exact R.bind (R.evalLetBindings_holds hev child _) fun _ => R.evalBody_holds hev _ child
  · exact R.fail _

theorem evalSet_holds : T (evalSet E ev args env) := by
  unfold evalSet
  split
  · refine R.bind (R.findVar _ _) fun owner => ?_
    cases owner with
    | none => exact R.fail _
    | some scope =>
      exact R.bind (hev _ _) fun v => R.bind (R.setVar _ _ _) fun _ => R.ret v
  · exact R.fail _
  · exact R.fail _

theorem evalRecur_holds : T (evalRecur ev args env) := by
  refine R.read (fun w => ite_holds (R.fail _) ?_) fun w w' hloop _ => by simp only [hloop]
  exact R.bind (R.evalAll_holds hev args env) fun vals => R.ret _

theorem evalTry_holds : T (evalTry E ev args env) := by
  unfold evalTry
  refine ite_holds (R.fail _) ?_
  split
  · exact R.fail _
  · refine R.bind (R.attempt (R.evalBody_holds hev _ env)) fun result => ?_
    cases result with
    | ok v => exact R.ret v
    | error err =>
      dsimp only
      split
      · exact R.fail err
      · rename_i hterminal
        refine R.bind (R.childEnv env) fun catchEnv => R.bind (R.setVar _ _ _) fun _ => ?_
        rw [GoErr.isTerminalEvalError_iff] at hterminal
        refine R.bind (R.noteCaught _ hterminal) fun _ => ?_
        exact R.evalBody_holds hev _ catchEnv

theorem evalThrow_holds : T (evalThrow E ev args env) := by
  unfold evalThrow
  split
  · refine R.bind (hev _ _) fun val => ?_
    split
    · exact R.fail _
    · exact R.fail _
  · exact R.fail _

theorem evalAndFrom_holds : T (evalAndFrom ev env last args) := by
  induction args generalizing last with
  | nil => exact R.ret last
  | cons arg args ih => exact R.bind (hev _ _) fun v => ite_holds (ih v) (R.ret v)

theorem evalOrFrom_holds : T (evalOrFrom ev env last args) := by
  induction args generalizing last with
  | nil => exact R.ret last
  | cons arg args ih => exact R.bind (hev _ _) fun v => ite_holds (R.ret v) (ih v)

theorem evalNot_holds : T (evalNot ev args env) := by
  unfold evalNot
  split
  · exact R.bind (hev _ _) fun v => R.ret _
  · exact R.fail _

theorem expandMacroForm_holds : T (expandMacroForm E ev m args) := by
  refine R.bind R.pollCancel fun _ =>
    R.read (fun w => ite_holds (R.fail _) (R.inMacro ?_)) fun w w' _ hin => by simp only [hin]
  exact R.bind (R.macroScope_holds m args) fun env => R.evalBody_holds hev _ env

theorem expandMacro_holds : T (expandMacro E ev m args env) :=
  R.bind (R.expandMacroForm_holds hev m args) fun v => hev v env

theorem quasiItems_holds (hexpand : ∀ v, T (expand v))
    (items : List Value) : T (quasiItems ev expand env items) := by
  induction items with
  | nil => exact R.ret []
  | cons item items ih =>
    unfold quasiItems
    split
    · exact R.ret []
    · rename_i heq
      cases heq
      split
      · refine R.bind (hev _ _) fun v => R.bind (R.lift _) fun front => ?_
        exact R.bind ih fun rest => R.ret _
      · exact R.fail _
    · rename_i heq
      cases heq
      exact R.bind (hexpand _) fun v => R.bind ih fun rest => R.ret _

omit hev in
theorem quasiPairs_holds (hexpand : ∀ v, T (expand v))
    (result pairs : List (Value × Value)) : T (quasiPairs expand result pairs) := by
  induction pairs generalizing result with
  | nil => exact R.ret result
  | cons pair pairs ih =>
    refine R.bind (hexpand _) fun k => R.bind (hexpand _) fun v => ?_
    split
    · exact ih _
    · exact R.fail _

theorem expandQuasiquote_holds : T (expandQuasiquote ev env n v) := by
  induction n generalizing v with
  | zero => exact R.diverge
  | succ n ih =>
    unfold expandQuasiquote
    split
    · split
      · exact hev _ env
      · exact R.fail _
    · exact R.fail _
    · exact R.bind (R.quasiItems_holds hev env ih _) fun items => R.ret _
    · exact R.bind (R.each ih _) fun items => R.ret _
    · exact R.bind (R.quasiPairs_holds ih [] _) fun pairs => R.ret _
    · exact R.ret _

theorem evalQuasiquote_holds : T (evalQuasiquote ev n args env) := by
  unfold evalQuasiquote
  split
  · exact R.expandQuasiquote_holds hev n env _
  · exact R.fail _

include happ in
theorem evalFuncall_holds : T (evalFuncall ev app args env) := by
  unfold evalFuncall
  split
  · exact R.fail _
  · refine R.bind (hev _ _) fun fn => R.bind (R.evalAll_holds hev _ env) fun vals => ?_
    exact happ fn vals env

theorem expandMacroForLoopScan_holds : T (expandMacroForLoopScan E ev env head args) := by
  refine ite_holds (R.ret none) (R.bind (R.attempt (hev _ _)) fun fn => ?_)
  cases fn with
  | error err => exact R.ret none
  | ok fn =>
    dsimp only
    split
    · exact R.ret none
    · refine R.bind (R.attempt (R.expandMacroForm_holds hev _ args)) fun expanded => ?_
      cases expanded with
      | ok v => exact R.ret _
      | error err => exact R.ret none

theorem scanRules_holds : ScanRules E ev ev env fun m _ => T m where
  ret := R.ret
  bind := R.bind
  diverge := R.diverge
  expand head args := R.expandMacroForLoopScan_holds hev args env head

theorem evalLoopBindings_holds (loopEnv env : List Nat) (bindings : List (String × Value)) :
    T (evalLoopBindings ev loopEnv env bindings) := by
  induction bindings with
  | nil => exact R.ret ()
  | cons binding bindings ih =>
    exact R.bind (hev _ _) fun v => R.bind (R.setVar _ _ _) fun _ => ih

theorem loopIterations_holds (vars captured : List String) (body : List Value)
    (n : Nat) (loopEnv : List Nat) :
    T (loopIterations ev env vars captured body n loopEnv) := by
  induction n generalizing loopEnv with
  | zero => exact R.diverge
  | succ n ih =>
    refine R.bind (R.evalBody_holds hev body loopEnv) fun result => ?_
    split
    · refine ite_holds (R.fail _) ?_
      exact R.bind (R.nextLoopEnv_holds _ _ _ _ _) fun next => ih next
    · exact R.ret _

theorem evalLoop_holds : T (evalLoop E ev n args env) := by
  unfold evalLoop
  split
  · split
    · exact R.fail _
    · refine R.bind (R.childEnv env) fun loopEnv => ?_
      refine R.bind (R.evalLoopBindings_holds hev _ _ _) fun _ => ?_
      refine R.bind ((R.scanRules_holds hev _).loopCapturedVars _ _ _) fun captured => ?_
      exact R.inLoop (R.loopIterations_holds hev _ _ _ _ _ _)
  · exact R.fail _

include happ

theorem evalForm_holds (form : Form) : T (evalForm E ev app n form args env) := by
  cases form with
  | defForm => exact R.evalDef_holds hev args env
  | defnForm => exact R.evalDefn_holds args env
  | defmacroForm => exact R.evalDefmacro_holds args env
  | fnForm => exact R.evalFn_holds args env
  | ifForm => exact R.evalIf_holds hev args env
  | condForm => exact R.evalCond_holds hev args env
  | whenForm => exact R.evalWhen_holds hev args env
  | letForm => exact R.evalLetNamed_holds hev args env "let"
  | letStarForm => exact R.evalLetNamed_holds hev args env "let*"
  | doForm => exact R.evalBody_holds hev args env
  | quoteForm => exact R.evalQuote_holds args
  | quasiquoteForm => exact R.evalQuasiquote_holds hev n args env
  | setForm => exact R.evalSet_holds hev args env
  | loopForm => exact R.evalLoop_holds hev n args env
  | recurForm => exact R.evalRecur_holds hev args env
  | tryForm => exact R.evalTry_holds hev args env
  | catchForm => exact R.fail _
  | throwForm => exact R.evalThrow_holds hev args env
  | andForm => exact R.evalAndFrom_holds hev args env _
  | orForm => exact R.evalOrFrom_holds hev args env _
  | notForm => exact R.evalNot_holds hev args env
  | funcallForm => exact R.evalFuncall_holds hev happ args env
  | functionForm => exact R.evalFunction_holds args env

omit happ in
theorem evalHead_holds : T (evalHead E ev head env) := by
  unfold evalHead
  split
  · refine ite_holds (R.bind (R.getFuncVar _ _) fun fn => ?_) (hev _ env)
    cases fn with
    | some fn => exact R.ret fn
    | none => exact R.fail _
  · exact hev _ env

theorem evalCall_holds (fn : Value) : T (evalCall E ev app fn args env) := by
  unfold evalCall
  split
  · exact R.expandMacro_holds hev _ args env
  · exact R.bind (R.evalAll_holds hev args env) fun vals => happ fn vals env

theorem evalNode_holds : T (evalNode E ev app n v env) := by
  unfold evalNode
  split
  · exact R.bind (R.evalAll_holds hev _ env) fun items => R.ret _
  · exact R.bind (R.evalPairs_holds hev env _ _) fun pairs => R.ret _
  · refine R.bind (R.getVar _ _) fun r => ?_
    cases r with
    | some r => exact R.ret r
    | none => exact R.fail _
  · exact R.ret _
  · unfold evalList
    split
    · exact R.evalForm_holds hev happ n _ env _
    · exact R.bind (R.evalHead_holds hev env _) fun fn => R.evalCall_holds hev happ _ env fn
  · exact R.fail _
  · exact R.fail _
  · exact R.fail _
  · exact R.ret _

omit hev in
theorem eval_holds (n : Nat) (v : Value) (env : List Nat) : T (eval E app n v env) := by
  induction n generalizing v env with
  | zero => exact R.diverge
  | succ n ih => exact R.bind R.pollCancel fun _ => R.evalNode_holds ih happ n env v

end Forms

theorem apply_holds {hosts : Nat → Host σ}
    (hbuiltin : ∀ n f args env, T ((hosts n).builtin f args env))
    (happlier : ∀ n chunk caps globals args, T ((hosts n).applier chunk caps globals args))
    (n : Nat) (fn : Value) (args : List Value) (env : List Nat) :
    T (apply E hosts n fn args env) := by
  induction n generalizing fn args env with
  | zero => exact R.diverge
  | succ n ih =>
    refine R.bind R.pollCancel fun _ => ?_
    split
    · exact hbuiltin n _ _ _
    · refine R.bind (R.childVariadic_holds _ _ _ _) fun child => ?_
      refine R.bind (R.evalBody_holds (R.eval_holds ih n) _ child) fun result => ?_
      split
      · exact R.fail _
      · exact R.ret _
    · exact R.lift _
    · exact happlier n _ _ _ _
    · exact R.fail _

end EvalRules

end Core

end Lispico
