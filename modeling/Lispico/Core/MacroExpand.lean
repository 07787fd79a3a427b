import Lispico.Core.Eval

/-!
# Macro expansion before evaluation

`MacroExpandDeep` expands macros in every position an evaluation may reach. Names that an
enclosing form binds hide macros where there is one namespace. What a lookup gives and an
expander returns are parameters, since both may change the state; everything has a number of
levels.
-/

namespace Lispico

namespace Core

open Lib Lib.Comp

def maxCompileDepth : Nat := 1024

def expansionLimitError : GoErr :=
  newResourceLimitError
    ("macro expansion nesting limit " ++ toString maxCompileDepth ++ " exceeded")

def paramNames (params : Value) : List String :=
  match paramsAsVector params with
  | .error _ => []
  | .ok items =>
    match parseParams items with
    | .error _ => []
    | .ok (fixed, variadic) => if variadic ≠ "" then fixed ++ [variadic] else fixed

def rebuildBindings (original : Value) (bindings : List (String × Value)) : Value :=
  match original with
  | .vector _ => .vector (bindings.flatMap fun b => [.symbol b.1, b.2])
  | _ => .list (bindings.map fun b => .list [.symbol b.1, b.2])

section

variable {S : Type} (d : Dialect) (look : String → Comp S GoErr (Option Value))
  (expander : MacroParts → List Value → Comp S GoErr Value)

/-- `MacroExpand`; the head is resolved as `resolveHead` does. -/
def macroExpand : Nat → Value → Comp S GoErr Value
  | 0, _ => diverge
  | n + 1, form =>
    match form with
    | .list (.symbol name :: args) =>
      if !d.lisp2 && (d.canonicalName name).isSome then ret form
      else do
        let fn ← look name
        match fn.bind asMacro with
        | some m => do
            let expanded ← expander m args
            macroExpand n expanded
        | none => ret form
    | form => ret form

section Positions

variable (deep : Value → List String → Nat → Comp S GoErr Value)

def expandDeepFrom (items : List Value) (locals : List String) (depth skip : Nat) :
    Comp S GoErr Value := do
  let rest ← each (fun item => deep item locals (depth + 1)) (items.drop skip)
  return .list (items.take skip ++ rest)

def expandPairs (expand : Value → Comp S GoErr Value) :
    List (Value × Value) → List (Value × Value) → Comp S GoErr (List (Value × Value))
  | out, [] => ret out
  | out, (key, value) :: pairs => do
      let k ← expand key
      let v ← expand value
      match Value.mapSet out k v with
      | .ok out => expandPairs expand out pairs
      | .error err => fail (.plain err)

/-- The bindings of `let`: each initializer sees the names before it. -/
def expandLetBindings (depth : Nat) : List String → List (String × Value) →
    Comp S GoErr (List (String × Value))
  | _, [] => ret []
  | inner, (name, value) :: bindings => do
      let x ← deep value inner (depth + 1)
      let rest ← expandLetBindings depth (inner ++ [name]) bindings
      return (name, x) :: rest

/-- The bindings of `loop`: the initializers see none of its names. -/
def expandLoopBinding (locals : List String) (depth : Nat) (binding : String × Value) :
    Comp S GoErr (String × Value) := do
  let x ← deep binding.2 locals (depth + 1)
  return (binding.1, x)

def expandScoped (head raw : Value) (bindings : List (String × Value)) (body : List Value)
    (locals : List String) (depth : Nat) : Comp S GoErr Value := do
  let inner := locals ++ bindings.map Prod.fst
  let body ← each (fun form => deep form inner (depth + 1)) body
  return .list (head :: rebuildBindings raw bindings :: body)

def expandDeepLet (items : List Value) (locals : List String) (depth : Nat) :
    Comp S GoErr Value :=
  match items with
  | head :: raw :: body =>
    match normalizeBindings "let" raw with
    | .error _ => ret (.list items)
    | .ok bindings => do
        let bindings ← expandLetBindings deep depth locals bindings
        expandScoped deep head raw bindings body locals depth
  | _ => ret (.list items)

def expandDeepLoop (items : List Value) (locals : List String) (depth : Nat) :
    Comp S GoErr Value :=
  match items with
  | head :: raw :: body =>
    match normalizeBindings "loop" raw with
    | .error _ => ret (.list items)
    | .ok bindings => do
        let bindings ← each (expandLoopBinding deep locals depth) bindings
        expandScoped deep head raw bindings body locals depth
  | _ => ret (.list items)

/-- The last item of `try`: the handler sees the name of the error. -/
def expandCatch (locals : List String) (depth : Nat) (clause : Value) : Comp S GoErr Value :=
  match clause with
  | .list (head :: i1 :: i2 :: rest) =>
    let items := head :: i1 :: i2 :: rest
    match rest, i1, i2 with
    | [], .symbol name, _ => expandDeepFrom deep items (locals ++ [name]) depth 2
    | _ :: _, _, .symbol name => expandDeepFrom deep items (locals ++ [name]) depth 3
    | _, _, _ => ret clause
  | clause => ret clause

def expandDeepTry (items : List Value) (locals : List String) (depth : Nat) :
    Comp S GoErr Value :=
  match items with
  | head :: first :: rest => do
      let args := first :: rest
      let body ← each (fun form => deep form locals (depth + 1)) args.dropLast
      let clause ← expandCatch deep locals depth (args.getLastD .nil)
      return .list (head :: body ++ [clause])
  | _ => ret (.list items)

def templateItems (expand : Value → Comp S GoErr Value) (items : List Value) :
    Comp S GoErr Value := do
  let items ← each expand items
  return .list items

/-- `expandDeepTemplate`: only what is unquoted is code. -/
def expandDeepTemplate (locals : List String) : Nat → Value → Nat → Comp S GoErr Value
  | 0, _, _ => diverge
  | n + 1, v, depth =>
    if maxCompileDepth < depth then fail expansionLimitError
    else
      match v with
      | .list (.symbol name :: args) =>
        if name = "unquote" ∨ name = "unquote-splicing" then
          match args with
          | [arg] => do
              let arg ← deep arg locals (depth + 1)
              return .list [.symbol name, arg]
          | _ => ret v
        else
          templateItems (fun item => expandDeepTemplate locals n item (depth + 1))
            (.symbol name :: args)
      | .list items =>
        templateItems (fun item => expandDeepTemplate locals n item (depth + 1)) items
      | .vector items => do
          let items ← each (fun item => expandDeepTemplate locals n item (depth + 1)) items
          return .vector items
      | .map pairs => do
          let pairs ← expandPairs (fun x => expandDeepTemplate locals n x (depth + 1)) [] pairs
          return .map pairs
      | v => ret v

def expandDeepForm (n : Nat) (form : Form) (items : List Value) (locals : List String)
    (depth : Nat) : Comp S GoErr Value :=
  match form with
  | .quoteForm => ret (.list items)
  | .defmacroForm => ret (.list items)
  | .functionForm => ret (.list items)
  | .defForm => expandDeepFrom deep items locals depth 2
  | .setForm => expandDeepFrom deep items locals depth 2
  | .fnForm =>
    match items with
    | _ :: params :: _ => expandDeepFrom deep items (locals ++ paramNames params) depth 2
    | _ => ret (.list items)
  | .defnForm =>
    match items with
    | _ :: _ :: params :: _ => expandDeepFrom deep items (locals ++ paramNames params) depth 3
    | _ => ret (.list items)
  | .letForm => expandDeepLet deep items locals depth
  | .letStarForm => expandDeepLet deep items locals depth
  | .loopForm => expandDeepLoop deep items locals depth
  | .tryForm => expandDeepTry deep items locals depth
  | .quasiquoteForm =>
    match items with
    | [head, v] => do
        let t ← expandDeepTemplate deep locals n v (depth + 1)
        return .list [head, t]
    | _ => ret (.list items)
  | _ => expandDeepFrom deep items locals depth 1

/-- `expandDeepList`: special forms come first, and a local name hides a macro where there is
one namespace. -/
def expandDeepList (n : Nat) (items : List Value) (locals : List String) (depth : Nat) :
    Comp S GoErr Value :=
  match items with
  | .symbol name :: _ =>
    match d.canonicalName name with
    | some form => expandDeepForm deep n form items locals depth
    | none =>
      if !d.lisp2 && locals.contains name then expandDeepFrom deep items locals depth 1
      else do
        let fn ← look name
        if (fn.bind asMacro).isSome then do
          let expanded ← macroExpand d look expander n (.list items)
          deep expanded locals (depth + 1)
        else expandDeepFrom deep items locals depth 1
  | items => expandDeepFrom deep items locals depth 0

/-- The body of `expandDeep`. -/
def expandDeepNode (n : Nat) (form : Value) (locals : List String) (depth : Nat) :
    Comp S GoErr Value :=
  match form with
  | .list [] => ret form
  | .list items =>
    if maxCompileDepth < depth then fail expansionLimitError
    else expandDeepList d look expander deep n items locals depth
  | .vector items => do
      let items ← each (fun item => deep item locals (depth + 1)) items
      return .vector items
  | .map pairs => do
      let pairs ← expandPairs (fun x => deep x locals (depth + 1)) [] pairs
      return .map pairs
  | form => ret form

end Positions

/-- `expandDeep`, with a number of levels. -/
def expandDeep : Nat → Value → List String → Nat → Comp S GoErr Value
  | 0, _, _, _ => diverge
  | n + 1, form, locals, depth =>
    expandDeepNode d look expander (expandDeep n) n form locals depth

def macroExpandDeep (n : Nat) (form : Value) : Comp S GoErr Value := do
  let expanded ← macroExpand d look expander n form
  expandDeep d look expander n expanded [] 0

end

end Core

end Lispico
