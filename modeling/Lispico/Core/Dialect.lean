import Lispico.Core.Error

/-!
# Dialects and the shapes of forms

A dialect resolves the name at the head of a list to a kernel form. The shapes of
binding lists, parameter lists and `cond` clauses are parsed here, once for both
evaluators, except for the messages of the compiler's own parameter parser.
-/

namespace Lispico

namespace Core

/-- The special forms: the kernel table and the two forms of the Lisp-2 namespace. -/
inductive Form where
  | defForm
  | defnForm
  | defmacroForm
  | fnForm
  | ifForm
  | condForm
  | whenForm
  | letForm
  | letStarForm
  | doForm
  | quoteForm
  | quasiquoteForm
  | setForm
  | loopForm
  | recurForm
  | tryForm
  | catchForm
  | throwForm
  | andForm
  | orForm
  | notForm
  | funcallForm
  | functionForm
deriving DecidableEq, Repr

/-- A frozen dialect: its table of visible names, its namespace rule and its clause
shape. -/
structure Dialect where
  canonicalName : String → Option Form
  lisp2 : Bool
  flatCond : Bool

def kernel : String → Option Form
  | "def" => some .defForm
  | "defn" => some .defnForm
  | "defmacro" => some .defmacroForm
  | "fn" => some .fnForm
  | "if" => some .ifForm
  | "cond" => some .condForm
  | "when" => some .whenForm
  | "let" => some .letForm
  | "let*" => some .letStarForm
  | "do" => some .doForm
  | "quote" => some .quoteForm
  | "quasiquote" => some .quasiquoteForm
  | "set!" => some .setForm
  | "loop" => some .loopForm
  | "recur" => some .recurForm
  | "try" => some .tryForm
  | "catch" => some .catchForm
  | "throw" => some .throwForm
  | "and" => some .andForm
  | "or" => some .orForm
  | "not" => some .notForm
  | _ => none

def Dialect.identity : Dialect := ⟨kernel, false, false⟩

def bindingSyntaxError (form : String) : String :=
  form ++ " bindings must be a vector [name value ...] or a list of (name value) pairs"

def vectorBindings (form : String) : List Value → Except String (List (String × Value))
  | .symbol name :: value :: items =>
    match vectorBindings form items with
    | .ok bindings => .ok ((name, value) :: bindings)
    | .error err => .error err
  | item :: _ :: _ =>
    .error (bindingSyntaxError form ++ "; binding name must be a symbol, got " ++ item.goType)
  | _ => .ok []

def bindingPair (form : String) : Value → Except String (String × Value)
  | .list [.symbol name, value] => .ok (name, value)
  | .list [name, _] =>
    .error (bindingSyntaxError form ++ "; binding name must be a symbol, got " ++ name.goType)
  | .list _ => .error (bindingSyntaxError form ++ "; each binding pair must have 2 items")
  | _ => .error (bindingSyntaxError form ++ "; each binding must be a two-item list")

def listBindings (form : String) : List Value → Except String (List (String × Value))
  | [] => .ok []
  | pair :: pairs =>
    match bindingPair form pair, listBindings form pairs with
    | .ok binding, .ok bindings => .ok (binding :: bindings)
    | .error err, _ => .error err
    | _, .error err => .error err

def normalizeBindings (form : String) : Value → Except String (List (String × Value))
  | .vector items =>
    if items.length % 2 ≠ 0 then
      .error (bindingSyntaxError form ++ "; vector form must have even number of elements")
    else vectorBindings form items
  | .list items => listBindings form items
  | _ => .error (bindingSyntaxError form)

/-- The items of a parameter declaration, as `paramsAsVector` accepts them. -/
def paramsAsVector : Value → Except GoErr (List Value)
  | .vector items => .ok items
  | .list items => .ok items
  | v => .error (evalErrorf ("parameters must be a vector or list, got " ++ v.goType))

/-- The loop of `parseParams` in `core`: the fixed parameters and the rest parameter. -/
def parseParamsFrom (fixed : List String) : List Value → Except String (List String × String)
  | [] => .ok (fixed, "")
  | .symbol "&" :: items =>
    match items with
    | [] => .error "& requires a following symbol"
    | .symbol rest :: _ => .ok (fixed, rest)
    | _ :: _ => .error "variadic param must be symbol"
  | .symbol name :: items => parseParamsFrom (fixed ++ [name]) items
  | item :: _ => .error ("param must be symbol, got " ++ item.goType)

def parseParams (items : List Value) : Except String (List String × String) :=
  parseParamsFrom [] items

/-- One clause of a nested `cond`. -/
def condClause : Value → Except GoErr (Value × List Value)
  | .list (test :: form :: body) => .ok (test, form :: body)
  | _ => .error (evalErrorf "cond: clauses must be (test body...) lists")

def normalizeCondNested : List Value → Except GoErr (List (Value × List Value))
  | [] => .ok []
  | arg :: args =>
    match condClause arg, normalizeCondNested args with
    | .ok clause, .ok clauses => .ok (clause :: clauses)
    | .error err, _ => .error err
    | _, .error err => .error err

/-- The pairs of a flat `cond`. -/
def condPairs : List Value → List (Value × List Value)
  | test :: body :: args => (test, [body]) :: condPairs args
  | _ => []

def Dialect.normalizeCond (d : Dialect) (args : List Value) :
    Except GoErr (List (Value × List Value)) :=
  if d.flatCond then
    if args.length % 2 ≠ 0 then
      .error (evalErrorf "cond: flat pairs require an even number of forms")
    else .ok (condPairs args)
  else normalizeCondNested args

def isCondElse : Value → Bool
  | .keyword v => v == "else"
  | _ => false

end Core

end Lispico
