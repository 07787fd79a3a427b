import Lispico.Core.Dialect
import Lispico.Core.Scope
import Lispico.Lib.Comp

/-!
# The tree-walking evaluator

Every special form is a function of the evaluator `ev` it calls on subforms and of the function
`app` that applies values. `eval` and `apply` tie the knots with a number of levels. Interrupts
and builtins are a parameter with a state of its own. No depth limits are configured; charges
and cancellation checks are the `poll` before every form and application.
-/

namespace Lispico

namespace Core

open Lib Lib.Comp

/-- An error that a handler bound, and the value it was bound as. -/
structure Caught where
  err : GoErr
  value : Value

/-- The state of an evaluation: scopes and cells, the boxes of compiled closures, the
counters of the evaluation state, the errors bound by handlers so far, and the host. -/
structure World (σ : Type) where
  store : Store
  boxes : List Value
  loopDepth : Nat
  macroDepth : Nat
  caught : List Caught
  host : σ

abbrev EvalM (σ : Type) := Comp (World σ) GoErr

/-- The configuration of an evaluator: its dialect and macro depth, how `fmt` prints a
value and quotes a text, and how the host answers a poll. -/
structure Engine (σ : Type) where
  dialect : Dialect
  maxMacroDepth : Nat
  string : Value → String
  quote : String → String
  poll : σ → Option GoErr × σ

def here (env : List Nat) : Nat := env.headD 0

section Steps

variable {σ : Type} {E : Engine σ} {w : World σ}

/-- `pollCancel`, and the charges made on the way. -/
def Engine.pollCancel (E : Engine σ) : EvalM σ Unit := fun w =>
  match E.poll w.host with
  | (none, h) => some (.ok (), { w with host := h })
  | (some err, h) => some (.error err, { w with host := h })

theorem Engine.pollCancel_of_none {h : σ}
    (hp : E.poll w.host = (none, h)) : E.pollCancel w = some (.ok (), { w with host := h }) := by
  simp only [Engine.pollCancel, hp]

theorem Engine.pollCancel_of_some {err : GoErr} {h : σ} (hp : E.poll w.host = (some err, h)) :
    E.pollCancel w = some (.error err, { w with host := h }) := by
  simp only [Engine.pollCancel, hp]

def getVar (env : List Nat) (name : String) : EvalM σ (Option Value) :=
  step fun w => (w.store.get env name, w)

def getFuncVar (env : List Nat) (name : String) : EvalM σ (Option Value) :=
  step fun w => (w.store.getFunc env name, w)

def findVar (env : List Nat) (name : String) : EvalM σ (Option Nat) :=
  step fun w => (w.store.find env name, w)

def setVar (scope : Nat) (name : String) (v : Value) : EvalM σ Unit :=
  update fun w => { w with store := w.store.set scope name v }

def setFuncVar (scope : Nat) (name : String) (v : Value) : EvalM σ Unit :=
  update fun w => { w with store := w.store.setFunc scope name v }

def replaceVar (scope : Nat) (name : String) (v : Value) : EvalM σ Unit :=
  update fun w => { w with store := w.store.replaceCell scope name v }

def childEnv (env : List Nat) : EvalM σ (List Nat) :=
  step fun w => ((w.store.child env).1, { w with store := (w.store.child env).2 })

/-- `forkCells`. -/
def forkEnv (env parent : List Nat) (names : List String) : EvalM σ (List Nat) :=
  step fun w =>
    ((w.store.forkCells (here env) parent names).1,
      { w with store := (w.store.forkCells (here env) parent names).2 })

def setAll (scope : Nat) (bindings : List (String × Value)) : EvalM σ Unit :=
  update fun w => { w with store := w.store.bindAll scope bindings }

def childVariadic (env : List Nat) (params : List String) (args : List Value)
    (variadic : String) : EvalM σ (List Nat) := do
  let child ← childEnv env
  if variadic ≠ "" then
    if args.length < params.length then
      fail (newArityError params.length args.length)
    else do
      setAll (here child) (params.zip args)
      setVar (here child) variadic (.list (args.drop params.length))
      return child
  else if args.length ≠ params.length then
    fail (newArityError params.length args.length)
  else do
    setAll (here child) (params.zip args)
    return child

def noteCaught (err : GoErr) (value : Value) : EvalM σ Unit :=
  update fun w => { w with caught := w.caught ++ [⟨err, value⟩] }

end Steps

section Forms

variable {σ : Type} (E : Engine σ) (ev : Value → List Nat → EvalM σ Value)
  (app : Value → List Value → List Nat → EvalM σ Value)

/-- The loop of `evalBody`, with the result so far. -/
def evalBodyFrom (env : List Nat) : Value → List Value → EvalM σ Value
  | result, [] => ret result
  | _, form :: body => do
      let result ← ev form env
      evalBodyFrom env result body

def evalBody (body : List Value) (env : List Nat) : EvalM σ Value :=
  evalBodyFrom ev env .nil body

def evalAll (forms : List Value) (env : List Nat) : EvalM σ (List Value) :=
  each (fun form => ev form env) forms

/-- The entries of `evalMap`, each put into the map as soon as it is evaluated. -/
def evalPairs {S : Type} (run : Value → Comp S GoErr Value) : List (Value × Value) →
    List (Value × Value) → Comp S GoErr (List (Value × Value))
  | result, [] => ret result
  | result, (key, value) :: pairs => do
      let k ← run key
      let v ← run value
      match Value.mapSet result k v with
      | .ok result => evalPairs run result pairs
      | .error err => fail (.plain err)

def evalDef (args : List Value) (env : List Nat) : EvalM σ Value :=
  match args with
  | [.symbol name, form] => do
      let val ← ev form env
      setVar (here env) name val
      return val
  | [name, _] =>
    fail (evalErrorf ("def: first argument must be a symbol, got " ++ name.goType))
  | _ => fail (evalErrorf ("def requires 2 arguments, got " ++ toString args.length))

def bindOperator (env : List Nat) (name : String) (val : Value) : EvalM σ Unit :=
  if E.dialect.lisp2 then setFuncVar (here env) name val else setVar (here env) name val

/-- A parse error of a parameter list, as the definition forms report it. -/
def paramsError (form : String) (err : String) : GoErr :=
  .lispico ⟨"EvalError", form ++ ": " ++ err, "", 0, 0⟩ (some (.plain err))

def evalDefn (args : List Value) (env : List Nat) : EvalM σ Value :=
  match args with
  | name :: params :: form :: body =>
    match name with
    | .symbol name =>
      match paramsAsVector params with
      | .error err => fail err
      | .ok items =>
        match parseParams items with
        | .error err => fail (paramsError ("defn " ++ name) err)
        | .ok (fixed, variadic) => do
            let lambda := Value.lambda name fixed variadic (form :: body) env
            bindOperator E env name lambda
            return lambda
    | _ => fail (evalErrorf "defn: first argument must be a symbol")
  | _ => fail (evalErrorf "defn requires at least 3 arguments (name params body...)")

/-- `BindMacro`, apart from the macro epoch, which no evaluation reads. -/
def bindMacro (env : List Nat) (name : String) (val : Value) : EvalM σ Unit :=
  bindOperator E env name val

def evalDefmacro (args : List Value) (env : List Nat) : EvalM σ Value :=
  match args with
  | name :: params :: form :: body =>
    match name with
    | .symbol name =>
      match paramsAsVector params with
      | .error err => fail err
      | .ok items =>
        match parseParams items with
        | .error err => fail (paramsError ("defmacro " ++ name) err)
        | .ok (fixed, variadic) => do
            let val := Value.macroVal name fixed variadic (form :: body) env
            bindMacro E env name val
            return val
    | _ => fail (evalErrorf "defmacro: first argument must be a symbol")
  | _ => fail (evalErrorf "defmacro requires at least 3 arguments (name params body...)")

def evalFn (args : List Value) (env : List Nat) : EvalM σ Value :=
  match args with
  | params :: form :: body =>
    match paramsAsVector params with
    | .error err => fail err
    | .ok items =>
      match parseParams items with
      | .error err => fail (paramsError "fn" err)
      | .ok (fixed, variadic) =>
        ret (.lambda "" fixed variadic (form :: body) env)
  | _ => fail (evalErrorf "fn requires at least 2 arguments (params body...)")

def evalIf (args : List Value) (env : List Nat) : EvalM σ Value :=
  match args with
  | [cond, thn] => do
      let c ← ev cond env
      if c.isTruthy then ev thn env else ret .nil
  | [cond, thn, els] => do
      let c ← ev cond env
      if c.isTruthy then ev thn env else ev els env
  | _ => fail (evalErrorf "if requires 2 or 3 arguments")

def evalClauses (env : List Nat) : List (Value × List Value) → EvalM σ Value
  | [] => ret .nil
  | (test, body) :: clauses =>
    if isCondElse test then evalBody ev body env
    else do
      let result ← ev test env
      if result.isTruthy then evalBody ev body env else evalClauses env clauses

def evalCond (args : List Value) (env : List Nat) : EvalM σ Value :=
  match E.dialect.normalizeCond args with
  | .error err => fail err
  | .ok clauses => evalClauses ev env clauses

def evalWhen (args : List Value) (env : List Nat) : EvalM σ Value :=
  match args with
  | cond :: form :: body => do
      let c ← ev cond env
      if c.isTruthy then evalBody ev (form :: body) env else ret .nil
  | _ => fail (evalErrorf "when requires at least 2 arguments")

def evalLetBindings (child : List Nat) : List (String × Value) → EvalM σ Unit
  | [] => ret ()
  | (name, form) :: bindings => do
      let val ← ev form child
      setVar (here child) name val
      evalLetBindings child bindings

/-- `evalLet` and `evalLetStar`, which differ in the name they report. -/
def evalLetNamed (form : String) (args : List Value) (env : List Nat) : EvalM σ Value :=
  match args with
  | raw :: first :: body =>
    match normalizeBindings form raw with
    | .error err => fail (evalErrorf err)
    | .ok bindings => do
        let child ← childEnv env
        evalLetBindings ev child bindings
        evalBody ev (first :: body) child
  | _ => fail (evalErrorf (form ++ " requires at least 2 arguments"))

def evalLet (args : List Value) (env : List Nat) : EvalM σ Value :=
  evalLetNamed ev "let" args env

def evalLetStar (args : List Value) (env : List Nat) : EvalM σ Value :=
  evalLetNamed ev "let*" args env

def evalDo (args : List Value) (env : List Nat) : EvalM σ Value := evalBody ev args env

def evalQuote (args : List Value) : EvalM σ Value :=
  match args with
  | [v] => ret v
  | _ => fail (evalErrorf "quote requires exactly 1 argument")

/-- `evalSet`: the target is found before the right side is evaluated. -/
def evalSet (args : List Value) (env : List Nat) : EvalM σ Value :=
  match args with
  | [.symbol name, form] => do
      let owner ← findVar env name
      match owner with
      | none =>
        fail (evalErrorf ("set!: cannot mutate undefined variable " ++ E.quote name))
      | some scope => do
          let val ← ev form env
          setVar scope name val
          return val
  | [_, _] => fail (evalErrorf "set!: first argument must be a symbol")
  | _ => fail (evalErrorf "set! requires exactly 2 arguments")

def evalRecur (args : List Value) (env : List Nat) : EvalM σ Value := do
  let w ← Comp.read
  if w.loopDepth = 0 then
    fail (evalErrorf "recur outside loop")
  else do
    let vals ← evalAll ev args env
    return .recurVal vals

/-- A `catch` clause as `evalTry` reads it: the name it binds and its body. -/
def catchClause (clause : Value) : Except GoErr (String × List Value) :=
  match clause with
  | .list (head :: i1 :: i2 :: rest) =>
    match head with
    | .symbol "catch" =>
      match rest, i1, i2 with
      | [], .symbol name, _ => .ok (name, [i2])
      | _ :: _, _, .symbol name => .ok (name, rest)
      | _, _, _ => .error (evalErrorf "catch: error binding must be a symbol")
    | _ => .error (evalErrorf ("try: expected catch clause, got " ++ E.string head))
  | _ => .error (evalErrorf "try: last argument must be (catch <sym> <handler>)")

def caughtValue (err : GoErr) : Value :=
  match err.asCarrier with
  | some v => v
  | none => .string err.error

def evalTry (args : List Value) (env : List Nat) : EvalM σ Value :=
  if args.length < 2 then
    fail (evalErrorf "try: requires a body and a (catch ...) clause")
  else
    match catchClause E (args.getLastD .nil) with
    | .error err => fail err
    | .ok (name, handler) => do
        let result ← (evalBody ev args.dropLast env).attempt
        match result with
        | .ok v => ret v
        | .error err =>
          if err.isTerminalEvalError then fail err
          else do
            let catchEnv ← childEnv env
            setVar (here catchEnv) name (caughtValue err)
            noteCaught err (caughtValue err)
            evalBody ev handler catchEnv

def evalThrow (args : List Value) (env : List Nat) : EvalM σ Value :=
  match args with
  | [form] => do
      let val ← ev form env
      match val with
      | .string s => fail (.thrown val ⟨"ThrowError", s, "", 0, 0⟩)
      | _ => fail (.thrown val ⟨"ThrowError", E.string val, "", 0, 0⟩)
  | _ => fail (evalErrorf "throw requires exactly 1 argument")

def evalAndFrom (env : List Nat) : Value → List Value → EvalM σ Value
  | last, [] => ret last
  | _, arg :: args => do
      let v ← ev arg env
      if v.isTruthy then evalAndFrom env v args else ret v

def evalAnd (args : List Value) (env : List Nat) : EvalM σ Value :=
  evalAndFrom ev env (.bool true) args

def evalOrFrom (env : List Nat) : Value → List Value → EvalM σ Value
  | last, [] => ret last
  | _, arg :: args => do
      let v ← ev arg env
      if v.isTruthy then ret v else evalOrFrom env v args

def evalOr (args : List Value) (env : List Nat) : EvalM σ Value :=
  evalOrFrom ev env .nil args

def evalNot (args : List Value) (env : List Nat) : EvalM σ Value :=
  match args with
  | [form] => do
      let v ← ev form env
      return .bool (!v.isTruthy)
  | _ => fail (evalErrorf "not requires exactly 1 argument")

def evalFuncall (args : List Value) (env : List Nat) : EvalM σ Value :=
  match args with
  | [] => fail (evalErrorf "funcall requires at least 1 argument")
  | head :: rest => do
      let fn ← ev head env
      let callArgs ← evalAll ev rest env
      app fn callArgs env

def evalFunction (args : List Value) (env : List Nat) : EvalM σ Value :=
  match args with
  | [.symbol name] => do
      let fn ← getFuncVar env name
      match fn with
      | some fn => ret fn
      | none => fail (newUndefinedError name)
  | [v] => fail (evalErrorf ("function: argument must be a symbol, got " ++ v.goType))
  | _ => fail (evalErrorf "function requires exactly 1 argument")

structure MacroParts where
  name : String
  params : List String
  variadic : String
  body : List Value
  env : List Nat

def asMacro : Value → Option MacroParts
  | .macroVal name params variadic body env => some ⟨name, params, variadic, body, env⟩
  | _ => none

def World.deeper (w : World σ) : World σ := { w with macroDepth := w.macroDepth + 1 }

def World.shallower (w : World σ) : World σ := { w with macroDepth := w.macroDepth - 1 }

def macroScope (m : MacroParts) (args : List Value) : EvalM σ (List Nat) := do
  let scope ← (childVariadic m.env m.params args m.variadic).attempt
  match scope with
  | .ok env => ret env
  | .error err =>
    fail (.lispico ⟨"EvalError", "macro " ++ m.name ++ ": " ++ err.error, "", 0, 0⟩
      (some err))

def expandMacroForm (m : MacroParts) (args : List Value) : EvalM σ Value := do
  E.pollCancel
  let w ← Comp.read
  if w.macroDepth ≥ E.maxMacroDepth then
    fail (evalErrorf ("macro expansion depth " ++ toString E.maxMacroDepth ++ " exceeded"))
  else
    within World.deeper World.shallower do
      let env ← macroScope m args
      evalBody ev m.body env

def expandMacro (m : MacroParts) (args : List Value) (env : List Nat) : EvalM σ Value := do
  let expanded ← expandMacroForm E ev m args
  ev expanded env

/-- What a `(unquote-splicing form)` item of a template contributes. -/
def spliceItems : Value → Except GoErr (List Value)
  | .list items => .ok items
  | .vector items => .ok items
  | v => .error (evalErrorf ("unquote-splicing requires a sequence, got " ++ v.goType))

def quasiItems (expand : Value → EvalM σ Value) (env : List Nat) :
    List Value → EvalM σ (List Value)
  | [] => ret []
  | .list (.symbol "unquote-splicing" :: rest) :: items =>
    match rest with
    | [form] => do
        let expanded ← ev form env
        let here ← lift (spliceItems expanded)
        let others ← quasiItems expand env items
        return here ++ others
    | _ => fail (evalErrorf "unquote-splicing requires 1 argument")
  | item :: items => do
      let expanded ← expand item
      let others ← quasiItems expand env items
      return expanded :: others

def quasiPairs (expand : Value → EvalM σ Value) : List (Value × Value) →
    List (Value × Value) → EvalM σ (List (Value × Value))
  | result, [] => ret result
  | result, (key, value) :: pairs => do
      let k ← expand key
      let v ← expand value
      match Value.mapSet result k v with
      | .ok result => quasiPairs expand result pairs
      | .error err => fail (.plain err)

def expandQuasiquote (env : List Nat) : Nat → Value → EvalM σ Value
  | 0, _ => diverge
  | n + 1, v =>
    match v with
    | .list (.symbol "unquote" :: rest) =>
      match rest with
      | [form] => ev form env
      | _ => fail (evalErrorf "unquote requires 1 argument")
    | .list (.symbol "unquote-splicing" :: _) =>
      fail (evalErrorf "unquote-splicing used outside of list context")
    | .list items => do
        let items ← quasiItems ev (expandQuasiquote env n) env items
        return .list items
    | .vector items => do
        let items ← each (expandQuasiquote env n) items
        return .vector items
    | .map pairs => do
        let pairs ← quasiPairs (expandQuasiquote env n) [] pairs
        return .map pairs
    | v => ret v

def evalQuasiquote (n : Nat) (args : List Value) (env : List Nat) : EvalM σ Value :=
  match args with
  | [v] => expandQuasiquote ev env n v
  | _ => fail (evalErrorf "quasiquote requires exactly 1 argument")

end Forms

end Core

end Lispico
