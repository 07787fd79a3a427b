import Lispico.Core.HashKey

/-!
# Values

The values both evaluators work on, which are also forms. Lists and vectors are their elements
and a map is its pairs, in any order: what visits them in key order sorts them or, as the
conversion to Go values, is given them in that order. What Go holds by pointer is held by its
place: a lambda names its scopes, a closure its chunk, boxes and globals, a builtin its Go
function.
-/

namespace Lispico

namespace Core

/-- A value. A variadic name that is empty stands for no rest parameter. -/
inductive Value where
  | nil
  | bool (v : Bool)
  | int (v : Int64)
  | float (bits : UInt64)
  | string (v : String)
  | symbol (v : String)
  | keyword (v : String)
  | list (items : List Value)
  | vector (items : List Value)
  | map (pairs : List (Value × Value))
  | goFunc (name : String) (fn : Nat)
  | lambda (name : String) (params : List String) (variadic : String) (body : List Value)
      (env : List Nat)
  | macroVal (name : String) (params : List String) (variadic : String) (body : List Value)
      (env : List Nat)
  | closure (chunk : List Nat) (caps : List Nat) (globals : List Nat)
  | recurVal (args : List Value)
  | cellBox (box : Nat)
deriving Repr, Inhabited

namespace Value

/-- The name `%T` prints for a value. -/
def goType : Value → String
  | .nil => "core.Nil"
  | .bool _ => "core.Bool"
  | .int _ => "core.Int"
  | .float _ => "core.Float"
  | .string _ => "core.String"
  | .symbol _ => "core.Symbol"
  | .keyword _ => "core.Keyword"
  | .list _ => "core.List"
  | .vector _ => "core.Vector"
  | .map _ => "*core.HashMap"
  | .goFunc _ _ => "core.GoFunc"
  | .lambda _ _ _ _ _ => "core.Lambda"
  | .macroVal _ _ _ _ _ => "core.Macro"
  | .closure _ _ _ => "*vm.Closure"
  | .recurVal _ => "core.recurVal"
  | .cellBox _ => "*vm.cellBox"

def isTruthy : Value → Bool
  | .nil => false
  | .bool v => v
  | _ => true

def key : Value → Key
  | .nil => .nil
  | .bool v => .bool v
  | .int v => .int v
  | .float bits => .float bits
  | .string v => .string v
  | .symbol v => .symbol v
  | .keyword v => .keyword v
  | v => .other v.goType

/-- Floating-point equality of bit patterns: a NaN equals nothing, the zeros each other. -/
def floatEq (a b : UInt64) : Bool :=
  !isNaNBits a && !isNaNBits b && (a == b || (a ||| b) == negZeroBits)

def pairsGet (hk : HashKey) : List (Value × Value) → Option Value
  | [] => none
  | (k, v) :: pairs =>
    match toHashKey k.key with
    | .ok hk' => if hk' = hk then some v else pairsGet hk pairs
    | .error _ => pairsGet hk pairs

/-- `HashMap.Get`, an unhashable key being absent. -/
def mapGet (pairs : List (Value × Value)) (k : Value) : Option Value :=
  match toHashKey k.key with
  | .ok hk => pairsGet hk pairs
  | .error _ => none

def pairsSet (hk : HashKey) (k v : Value) : List (Value × Value) → List (Value × Value)
  | [] => [(k, v)]
  | (k', v') :: pairs =>
    match toHashKey k'.key with
    | .ok hk' =>
      if hk' = hk then (k, v) :: pairs
      else if hk.less hk' then (k, v) :: (k', v') :: pairs
      else (k', v') :: pairsSet hk k v pairs
    | .error _ => (k', v') :: pairsSet hk k v pairs

def mapSet (pairs : List (Value × Value)) (k v : Value) : Except String (List (Value × Value)) :=
  match toHashKey k.key with
  | .ok hk => .ok (pairsSet hk k v pairs)
  | .error err => .error err

def defaultMaxStructuralDepth : Nat := 1024

/-- `boundedEquals`, with the number of nesting levels that are left. -/
def boundedEquals : Nat → Value → Value → Bool
  | 0, _, _ => false
  | levels + 1, a, b =>
    match a, b with
    | .nil, .nil => true
    | .bool x, .bool y => x == y
    | .int x, .int y => x == y
    | .float x, .float y => floatEq x y
    | .string x, .string y => x == y
    | .symbol x, .symbol y => x == y
    | .keyword x, .keyword y => x == y
    | .list xs, .list ys =>
      xs.length == ys.length && (xs.zip ys).all fun p => boundedEquals levels p.1 p.2
    | .vector xs, .vector ys =>
      xs.length == ys.length && (xs.zip ys).all fun p => boundedEquals levels p.1 p.2
    | .map ps, .map qs =>
      ps.length == qs.length && ps.all fun p =>
        match mapGet qs p.1 with
        | some v => boundedEquals levels p.2 v
        | none => false
    | .goFunc x _, .goFunc y _ => x == y
    | .closure x xs gs, .closure y ys hs => x == y && xs == ys && gs == hs
    | .cellBox x, .cellBox y => x == y
    | _, _ => false

/-- `Equals`. Lambdas, macros and the result of `recur` equal nothing. -/
def equals (a b : Value) : Bool := boundedEquals (defaultMaxStructuralDepth + 1) a b

end Value

end Core

end Lispico
