import Lispico.Core.Eval

/-!
# Loops of the tree-walker

Before a loop runs, its body is scanned for closures over the loop variables; a captured
variable gets a new cell in every iteration. The scan expands macros and evaluates heads to find
them. Names of forms are compared as written.
-/

namespace Lispico

namespace Core

open Lib Lib.Comp

section Scan

variable {σ : Type} (E : Engine σ) (ev : Value → List Nat → EvalM σ Value)

def isSpecialHead : Value → Bool
  | .symbol name => (E.dialect.canonicalName name).isSome
  | _ => false

/-- `expandMacroForLoopScan`: the expansion, if the head evaluates to a macro. -/
def expandMacroForLoopScan (env : List Nat) (head : Value) (args : List Value) :
    EvalM σ (Option Value) :=
  if isSpecialHead E head then ret none
  else do
    let fn ← (ev head env).attempt
    match fn with
    | .error _ => ret none
    | .ok fn =>
      match asMacro fn with
      | none => ret none
      | some m => do
          let expanded ← (expandMacroForm E ev m args).attempt
          match expanded with
          | .ok v => ret (some v)
          | .error _ => ret none

def flatPairs : List (Value × Value) → List Value
  | [] => []
  | (k, v) :: pairs => k :: v :: flatPairs pairs

def formMayCreateClosure (env : List Nat) : Nat → Value → EvalM σ Bool
  | 0, _ => diverge
  | n + 1, form =>
    match form with
    | .list (head :: args) =>
      match head with
      | .symbol "quote" => ret false
      | .symbol "fn" => ret true
      | .symbol "defn" => ret true
      | .symbol "defmacro" => ret true
      | head => do
          let expanded ← expandMacroForLoopScan E ev env head args
          match expanded with
          | some v => formMayCreateClosure env n v
          | none => Comp.anyOf (formMayCreateClosure env n) (head :: args)
    | .vector items => Comp.anyOf (formMayCreateClosure env n) items
    | .map pairs => Comp.anyOf (formMayCreateClosure env n) (flatPairs pairs)
    | _ => ret false

def addShadow (shadow : List String) (name : String) : List String :=
  if shadow.contains name then shadow else name :: shadow

def extendShadow (shadow fixed : List String) (variadic : String) : List String :=
  let next := fixed.foldl addShadow shadow
  if variadic ≠ "" then addShadow next variadic else next

/-- The names a parameter list binds, added to a shadow; `none` for a malformed list. -/
def paramShadow (shadow : List String) (params : Value) : Option (List String) :=
  match paramsAsVector params with
  | .error _ => none
  | .ok items =>
    match parseParams items with
    | .error _ => none
    | .ok (fixed, variadic) => some (extendShadow shadow fixed variadic)

/-- A test of forms for a reference to a target that is not shadowed. -/
abbrev Refers (σ : Type) := List String → List String → Value → EvalM σ Bool

/-- The initializers of a binding form, with the shadow its body is tested under. -/
def bindingsReferTarget (refers : Refers σ) (targets : List String) (sequential : Bool) :
    List String → List (String × Value) → EvalM σ Bool
  | _, [] => ret false
  | shadow, (name, form) :: bindings => do
      let hit ← refers targets shadow form
      if hit then ret true
      else
        bindingsReferTarget refers targets sequential
          (if sequential then addShadow shadow name else shadow) bindings

def bindingFormReferencesTarget (refers : Refers σ) (targets shadow : List String)
    (sequential : Bool) (args : List Value) : EvalM σ Bool :=
  match args with
  | raw :: first :: body =>
    match normalizeBindings "binding" raw with
    | .error _ => Comp.anyOf (refers targets shadow) args
    | .ok bindings => do
        let hit ← bindingsReferTarget refers targets sequential shadow bindings
        if hit then ret true
        else
          Comp.anyOf (refers targets ((bindings.map Prod.fst).foldl addShadow shadow))
            (first :: body)
  | _ => Comp.anyOf (refers targets shadow) args

def listReferencesTarget (env : List Nat) (refers : Refers σ) (targets shadow : List String)
    (head : Value) (args : List Value) : EvalM σ Bool := do
  let expanded ← expandMacroForLoopScan E ev env head args
  match expanded with
  | some v => refers targets shadow v
  | none =>
    match head with
    | .symbol "quote" => ret false
    | .symbol "fn" =>
      match args with
      | params :: form :: body =>
        match paramShadow shadow params with
        | none => ret false
        | some shadow => Comp.anyOf (refers targets shadow) (form :: body)
      | _ => ret false
    | .symbol "defn" => defReferences args
    | .symbol "defmacro" => defReferences args
    | .symbol "let" => bindingFormReferencesTarget refers targets shadow false args
    | .symbol "loop" => bindingFormReferencesTarget refers targets shadow false args
    | .symbol "let*" => bindingFormReferencesTarget refers targets shadow true args
    | .symbol "set!" =>
      match args with
      | [.symbol name, form] =>
        if targets.contains name && !shadow.contains name then ret true
        else refers targets shadow form
      | [_, form] => refers targets shadow form
      | _ => Comp.anyOf (refers targets shadow) args
    | head => Comp.anyOf (refers targets shadow) (head :: args)
where
  /-- The `defn` and `defmacro` case. -/
  defReferences (args : List Value) : EvalM σ Bool :=
    match args with
    | _ :: params :: form :: body =>
      match paramShadow shadow params with
      | none => ret false
      | some shadow => Comp.anyOf (refers targets shadow) (form :: body)
    | _ => ret false

def formReferencesTarget (env : List Nat) : Nat → Refers σ
  | 0, _, _, _ => diverge
  | n + 1, targets, shadow, form =>
    match form with
    | .symbol name => ret (targets.contains name && !shadow.contains name)
    | .vector items => Comp.anyOf (formReferencesTarget env n targets shadow) items
    | .map pairs => Comp.anyOf (formReferencesTarget env n targets shadow) (flatPairs pairs)
    | .list (head :: args) =>
      listReferencesTarget E ev env (formReferencesTarget env n) targets shadow head args
    | _ => ret false

def markLoopCaptured (captured : List String) (name : String) : List String :=
  if captured.contains name then captured else name :: captured

def markReferenced (refers : Refers σ) (shadow bodyShadow : List String) (body : List Value) :
    List String → List String → EvalM σ (List String)
  | captured, [] => ret captured
  | captured, name :: targets =>
    if shadow.contains name then markReferenced refers shadow bodyShadow body captured targets
    else do
      let hit ← Comp.anyOf (refers [name] bodyShadow) body
      markReferenced refers shadow bodyShadow body
        (if hit then markLoopCaptured captured name else captured) targets

/-- A scan of a form under a shadow, adding to the captured variables. -/
abbrev Scanner (σ : Type) := List String → List String → Value → EvalM σ (List String)

def scanAll (scan : Scanner σ) (shadow : List String) : List String → List Value →
    EvalM σ (List String)
  | captured, [] => ret captured
  | captured, form :: forms => do
      let captured ← scan shadow captured form
      scanAll scan shadow captured forms

def scanBindings (scan : Scanner σ) (sequential : Bool) : List String → List String →
    List (String × Value) → EvalM σ (List String)
  | _, captured, [] => ret captured
  | shadow, captured, (name, form) :: bindings => do
      let captured ← scan shadow captured form
      scanBindings scan sequential (if sequential then addShadow shadow name else shadow)
        captured bindings

def scanBindingFormCapture (scan : Scanner σ) (sequential : Bool) (shadow captured : List String)
    (args : List Value) : EvalM σ (List String) :=
  match args with
  | raw :: first :: body =>
    match normalizeBindings "binding" raw with
    | .error _ => scanAll scan shadow captured args
    | .ok bindings => do
        let captured ← scanBindings scan sequential shadow captured bindings
        scanAll scan ((bindings.map Prod.fst).foldl addShadow shadow) captured (first :: body)
  | _ => scanAll scan shadow captured args

/-- The function-defining cases of `scanLoopCapture`. -/
def scanFunction (refers : Refers σ) (targets shadow captured : List String) (params : Value)
    (body : List Value) : EvalM σ (List String) :=
  match paramShadow shadow params with
  | none => ret captured
  | some bodyShadow => markReferenced refers shadow bodyShadow body captured targets

def scanLoopCapture (env : List Nat) (targets : List String) : Nat → Scanner σ
  | 0, _, _, _ => diverge
  | n + 1, shadow, captured, form =>
    match form with
    | .list (head :: args) => do
        let expanded ← expandMacroForLoopScan E ev env head args
        match expanded with
        | some v => scanLoopCapture env targets n shadow captured v
        | none =>
          match head with
          | .symbol "quote" => ret captured
          | .symbol "fn" =>
            match args with
            | params :: form :: body =>
              scanFunction (formReferencesTarget E ev env n) targets shadow captured
                params (form :: body)
            | _ => ret captured
          | .symbol "defn" => scanDefinition env targets n shadow captured args
          | .symbol "defmacro" => scanDefinition env targets n shadow captured args
          | .symbol "let" =>
            scanBindingFormCapture (scanLoopCapture env targets n) false shadow captured args
          | .symbol "loop" =>
            scanBindingFormCapture (scanLoopCapture env targets n) false shadow captured args
          | .symbol "let*" =>
            scanBindingFormCapture (scanLoopCapture env targets n) true shadow captured args
          | head => scanAll (scanLoopCapture env targets n) shadow captured (head :: args)
    | .vector items => scanAll (scanLoopCapture env targets n) shadow captured items
    | .map pairs => scanAll (scanLoopCapture env targets n) shadow captured (flatPairs pairs)
    | _ => ret captured
where
  /-- The `defn` and `defmacro` case. -/
  scanDefinition (env : List Nat) (targets : List String) (n : Nat)
      (shadow captured : List String) (args : List Value) : EvalM σ (List String) :=
    match args with
    | _ :: params :: form :: body =>
      scanFunction (formReferencesTarget E ev env n) targets shadow captured params (form :: body)
    | _ => ret captured

def loopCapturedVars (n : Nat) (body : List Value) (vars : List String) (env : List Nat) :
    EvalM σ (List String) :=
  if vars.isEmpty then ret []
  else do
    let may ← Comp.anyOf (formMayCreateClosure E ev env n) body
    if may then scanAll (scanLoopCapture E ev env vars.dedup n) [] [] body else ret []

end Scan

section Loop

variable {σ : Type} (E : Engine σ) (ev : Value → List Nat → EvalM σ Value)

/-- The initializers of a loop: evaluated outside, bound in the loop's scope. -/
def evalLoopBindings (loopEnv env : List Nat) : List (String × Value) → EvalM σ Unit
  | [] => ret ()
  | (name, form) :: bindings => do
      let val ← ev form env
      setVar (here loopEnv) name val
      evalLoopBindings loopEnv env bindings

/-- Give the loop variables their next values; a captured one gets a new cell. -/
def assignLoopVars (captured : List String) (scope : Nat) : List (String × Value) → EvalM σ Unit
  | [] => ret ()
  | (name, v) :: rest => do
      if captured.contains name then replaceVar scope name v else setVar scope name v
      assignLoopVars captured scope rest

def nextLoopEnv (env : List Nat) (vars captured : List String) (loopEnv : List Nat)
    (args : List Value) : EvalM σ (List Nat) :=
  if captured.isEmpty then do
    assignLoopVars [] (here loopEnv) (vars.zip args)
    return loopEnv
  else do
    let next ← forkEnv loopEnv env vars
    assignLoopVars captured (here next) (vars.zip args)
    return next

def loopIterations (env : List Nat) (vars captured : List String) (body : List Value) :
    Nat → List Nat → EvalM σ Value
  | 0, _ => diverge
  | n + 1, loopEnv => do
      let result ← evalBody ev body loopEnv
      match result with
      | .recurVal args =>
        if args.length ≠ vars.length then
          fail (evalErrorf ("recur: expected " ++ toString vars.length ++ " args, got "
            ++ toString args.length))
        else do
          let next ← nextLoopEnv env vars captured loopEnv args
          loopIterations env vars captured body n next
      | result => ret result

def World.enterLoop (w : World σ) : World σ := { w with loopDepth := w.loopDepth + 1 }

def World.leaveLoop (w : World σ) : World σ := { w with loopDepth := w.loopDepth - 1 }

def evalLoop (n : Nat) (args : List Value) (env : List Nat) : EvalM σ Value :=
  match args with
  | raw :: first :: body =>
    match normalizeBindings "loop" raw with
    | .error err => fail (evalErrorf err)
    | .ok bindings => do
        let loopEnv ← childEnv env
        evalLoopBindings ev loopEnv env bindings
        let vars := bindings.map Prod.fst
        let captured ← loopCapturedVars E ev n (first :: body) vars loopEnv
        within World.enterLoop World.leaveLoop
          (loopIterations ev env vars captured (first :: body) n loopEnv)
  | _ => fail (evalErrorf "loop requires at least 2 arguments")

end Loop

end Core

end Lispico
