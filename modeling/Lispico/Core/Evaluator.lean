import Lispico.Core.LoopScan

/-!
# Evaluation and application

`evalList` dispatches a list on its head, `eval` a form on its kind. `apply` dispatches
a callee: what a builtin and a compiled closure do is given by a host, one for each
number of levels, so that a builtin may call the evaluator again.
-/

namespace Lispico

namespace Core

open Lib Lib.Comp

section

variable {σ : Type} (E : Engine σ)

section Node

variable (ev : Value → List Nat → EvalM σ Value)
  (app : Value → List Value → List Nat → EvalM σ Value)

def evalForm (n : Nat) (form : Form) (args : List Value) (env : List Nat) : EvalM σ Value :=
  match form with
  | .defForm => evalDef ev args env
  | .defnForm => evalDefn E args env
  | .defmacroForm => evalDefmacro E args env
  | .fnForm => evalFn args env
  | .ifForm => evalIf ev args env
  | .condForm => evalCond E ev args env
  | .whenForm => evalWhen ev args env
  | .letForm => evalLet ev args env
  | .letStarForm => evalLetStar ev args env
  | .doForm => evalDo ev args env
  | .quoteForm => evalQuote args
  | .quasiquoteForm => evalQuasiquote ev n args env
  | .setForm => evalSet E ev args env
  | .loopForm => evalLoop E ev n args env
  | .recurForm => evalRecur ev args env
  | .tryForm => evalTry E ev args env
  | .catchForm => fail (evalErrorf "catch used outside of try")
  | .throwForm => evalThrow E ev args env
  | .andForm => evalAnd ev args env
  | .orForm => evalOr ev args env
  | .notForm => evalNot ev args env
  | .funcallForm => evalFuncall ev app args env
  | .functionForm => evalFunction args env

/-- The callee of a list, once its head is known to be no special form. -/
def evalHead (head : Value) (env : List Nat) : EvalM σ Value :=
  match head with
  | .symbol name =>
    if E.dialect.lisp2 then do
      let fn ← getFuncVar env name
      match fn with
      | some fn => ret fn
      | none => fail (newUndefinedError name)
    else ev head env
  | head => ev head env

def evalCall (fn : Value) (args : List Value) (env : List Nat) : EvalM σ Value :=
  match asMacro fn with
  | some m => expandMacro E ev m args env
  | none => do
      let vals ← evalAll ev args env
      app fn vals env

def evalList (n : Nat) (head : Value) (args : List Value) (env : List Nat) : EvalM σ Value :=
  match (match head with
    | .symbol name => E.dialect.canonicalName name
    | _ => none) with
  | some form => evalForm E ev app n form args env
  | none => do
      let fn ← evalHead E ev head env
      evalCall E ev app fn args env

/-- The body of `Eval`. -/
def evalNode (n : Nat) (v : Value) (env : List Nat) : EvalM σ Value :=
  match v with
  | .vector items => do
      let items ← evalAll ev items env
      return .vector items
  | .map pairs => do
      let pairs ← evalPairs (ev · env) [] pairs
      return .map pairs
  | .symbol name => do
      let r ← getVar env name
      match r with
      | some r => ret r
      | none => fail (newUndefinedError name)
  | .list [] => ret v
  | .list (head :: args) => evalList E ev app n head args env
  | .closure _ _ _ => fail (newTypeError "evaluable" v)
  | .recurVal _ => fail (newTypeError "evaluable" v)
  | .cellBox _ => fail (newTypeError "evaluable" v)
  | _ => ret v

end Node

/-- `Eval`, with a number of levels. -/
def eval (app : Value → List Value → List Nat → EvalM σ Value) :
    Nat → Value → List Nat → EvalM σ Value
  | 0, _, _ => diverge
  | n + 1, v, env => do
      E.pollCancel
      evalNode E (eval app n) app n v env

variable (ev : Value → List Nat → EvalM σ Value)

variable (app : Value → List Value → List Nat → EvalM σ Value) (n : Nat) {name : String}
  {form : Form}

theorem evalNode_list (head : Value) (args : List Value) (env : List Nat) :
    evalNode E ev app n (.list (head :: args)) env = evalList E ev app n head args env := rfl

theorem evalList_form
    (h : E.dialect.canonicalName name = some form) (args : List Value) (env : List Nat) :
    evalList E ev app n (.symbol name) args env = evalForm E ev app n form args env := by
  simp only [evalList, h]

theorem eval_form (h : E.dialect.canonicalName name = some form) (args : List Value)
    (env : List Nat) :
    eval E app (n + 1) (.list (.symbol name :: args)) env =
      E.pollCancel >>= fun _ => evalForm E (eval E app n) app n form args env := by
  rw [eval, evalNode_list, evalList_form E _ _ _ h]

structure Host (σ : Type) where
  /-- The Go function of a builtin. -/
  builtin : Nat → List Value → List Nat → EvalM σ Value
  /-- The applier of compiled closures, for the tree-walker. -/
  applier : List Nat → List Nat → List Nat → List Value → EvalM σ Value
  /-- The application of a tree-walker's function, for the machine. -/
  lambda : Value → List Value → List Nat → EvalM σ Value

def keywordLookup (name : String) (args : List Value) : Except GoErr Value :=
  match args with
  | [.map pairs] => .ok ((Value.mapGet pairs (.keyword name)).getD .nil)
  | [_] => .ok .nil
  | _ =>
    .error (evalErrorf ("keyword lookup requires exactly 1 argument, got "
      ++ toString args.length))

/-- `apply`, with a number of levels. -/
def apply (hosts : Nat → Host σ) : Nat → Value → List Value → List Nat → EvalM σ Value
  | 0, _, _, _ => diverge
  | n + 1, fn, args, env => do
      E.pollCancel
      match fn with
      | .goFunc _ f => (hosts n).builtin f args env
      | .lambda _ params variadic body lambdaEnv => do
          let child ← childVariadic lambdaEnv params args variadic
          let result ← evalBody (eval E (apply hosts n) n) body child
          match result with
          | .recurVal _ => fail (evalErrorf "recur outside loop")
          | result => ret result
      | .keyword name => lift (keywordLookup name args)
      | .closure chunk caps globals => (hosts n).applier chunk caps globals args
      | fn => fail (newTypeError "function" fn)

end

end Core

end Lispico
