import Lispico.Core.Value

/-!
# Errors

A Go error is a tree: it may wrap one error or several. `errors.Is` and `errors.As`
walk it depth first and stop at the first match. `IsTerminalEvalError` is written over
a walk of its own, `asLispicoError`, which is shown to be `errors.As`.
-/

namespace Lispico

namespace Core

/-- The fields of a `LispicoError` other than its cause. -/
structure LispicoError where
  code : String
  message : String
  source : String := ""
  line : Nat := 0
  col : Nat := 0
deriving DecidableEq, Repr

def LispicoError.error (e : LispicoError) : String :=
  if e.source ≠ "" then
    e.code ++ " at " ++ e.source ++ ":" ++ toString e.line ++ ":" ++ toString e.col ++ ": "
      ++ e.message
  else e.code ++ ": " ++ e.message

/-- The errors that `IsTerminalEvalError` looks for by identity. -/
inductive Sentinel where
  | canceled
  | deadlineExceeded
deriving DecidableEq, Repr

/-- An error. `thrown` and `parity` are the private carriers of the evaluators, `wrap`
and `join` the errors whose `Unwrap` gives one error or several, any of which may be
nil, and `hook` an error with `Is` and `As` methods of its own. -/
inductive GoErr where
  | sentinel (s : Sentinel)
  | plain (text : String)
  | lispico (e : LispicoError) (cause : Option GoErr)
  | thrown (value : Value) (e : LispicoError)
  | parity (err : GoErr) (handlerMsg : String)
  | wrap (text : String) (inner : Option GoErr)
  | join (text : String) (children : List (Option GoErr))
  | hook (text : String) (is : Sentinel → Bool) (asLispico : Option LispicoError)
      (asCarrier : Option Value) (inner : Option GoErr)

namespace GoErr

def sentinelText : Sentinel → String
  | .canceled => "context canceled"
  | .deadlineExceeded => "context deadline exceeded"

def error : GoErr → String
  | .sentinel s => sentinelText s
  | .plain text => text
  | .lispico e _ => e.error
  | .thrown _ e => e.message
  | .parity err _ => err.error
  | .wrap text _ => text
  | .join text _ => text
  | .hook text _ _ _ _ => text

mutual

/-- The first match of `p` in an error, depth first. -/
def first {α : Type} (p : GoErr → Option α) : GoErr → Option α
  | .sentinel s => p (.sentinel s)
  | .plain text => p (.plain text)
  | .lispico e cause => (p (.lispico e cause)).or (firstOf p cause)
  | .thrown value e => (p (.thrown value e)).or (p (.lispico e none))
  | .parity err msg => (p (.parity err msg)).or (first p err)
  | .wrap text inner => (p (.wrap text inner)).or (firstOf p inner)
  | .join text children => (p (.join text children)).or (firstAmong p children)
  | .hook text is l c inner => (p (.hook text is l c inner)).or (firstOf p inner)

def firstOf {α : Type} (p : GoErr → Option α) : Option GoErr → Option α
  | none => none
  | some err => first p err

def firstAmong {α : Type} (p : GoErr → Option α) : List (Option GoErr) → Option α
  | [] => none
  | child :: children => (firstOf p child).or (firstAmong p children)

end

def isHere (target : Sentinel) : GoErr → Option Unit
  | .sentinel s => if s = target then some () else none
  | .hook _ is _ _ _ => if is target then some () else none
  | _ => none

/-- `errors.Is` for the sentinels. -/
def is (err : GoErr) (target : Sentinel) : Bool := (first (isHere target) err).isSome

/-- What an error gives for a `*LispicoError` target. -/
def lispicoHere : GoErr → Option LispicoError
  | .lispico e _ => some e
  | .hook _ _ l _ _ => l
  | _ => none

/-- `errors.As` with a `*LispicoError` target. -/
def asLispico (err : GoErr) : Option LispicoError := first lispicoHere err

/-- What an error gives for a target with a `ThrownValue` method. -/
def carrierHere : GoErr → Option Value
  | .thrown value _ => some value
  | .hook _ _ _ c _ => c
  | _ => none

/-- `errors.As` with a target that has a `ThrownValue` method. -/
def asCarrier (err : GoErr) : Option Value := first carrierHere err

/-- What an error gives for a `*catchParityError` target. -/
def parityHere : GoErr → Option String
  | .parity _ msg => some msg
  | _ => none

/-- `errors.As` with a `*catchParityError` target: its message. -/
def asParity (err : GoErr) : Option String := first parityHere err

mutual

/-- `asLispicoError`: the walk of its own, which leaves an error with an `As` method to
`errors.As`. -/
def asLispicoError : GoErr → Option LispicoError
  | .lispico e _ => some e
  | .hook text is l c inner => asLispico (.hook text is l c inner)
  | .thrown _ e => some e
  | .parity err _ => asLispicoError err
  | .wrap _ inner => asLispicoErrorOf inner
  | .join _ children => asLispicoErrorAmong children
  | .sentinel _ => none
  | .plain _ => none

/-- The loop of `asLispicoError` at an error that may be nil. -/
def asLispicoErrorOf : Option GoErr → Option LispicoError
  | none => none
  | some err => asLispicoError err

/-- The loop of `asLispicoError` over children. -/
def asLispicoErrorAmong : List (Option GoErr) → Option LispicoError
  | [] => none
  | child :: children => (asLispicoErrorOf child).or (asLispicoErrorAmong children)

end

def codeResourceLimit : String := "ResourceLimitError"

def isTerminalEvalError (err : GoErr) : Bool :=
  err.is .canceled || err.is .deadlineExceeded ||
    match asLispicoError err with
    | some e => e.code == codeResourceLimit
    | none => false

mutual

theorem asLispicoError_eq_asLispico (err : GoErr) : asLispicoError err = asLispico err := by
  cases err with
  | sentinel s => rfl
  | plain text => rfl
  | lispico e cause => rfl
  | thrown value e => rfl
  | parity err msg =>
    have h := asLispicoError_eq_asLispico err
    simpa [asLispicoError, asLispico, first, lispicoHere] using h
  | wrap text inner =>
    have h := asLispicoErrorOf_eq inner
    simpa [asLispicoError, asLispico, first, lispicoHere] using h
  | join text children =>
    have h := asLispicoErrorAmong_eq children
    simpa [asLispicoError, asLispico, first, lispicoHere] using h
  | hook text is l c inner => rfl

theorem asLispicoErrorOf_eq (err : Option GoErr) :
    asLispicoErrorOf err = firstOf lispicoHere err := by
  cases err with
  | none => rfl
  | some err => exact asLispicoError_eq_asLispico err

theorem asLispicoErrorAmong_eq (children : List (Option GoErr)) :
    asLispicoErrorAmong children = firstAmong lispicoHere children := by
  cases children with
  | nil => rfl
  | cons child children =>
    rw [asLispicoErrorAmong, firstAmong, asLispicoErrorOf_eq child,
      asLispicoErrorAmong_eq children]

end

/-- An error is terminal: it holds a cancellation or an expired deadline anywhere, or the
first `LispicoError` that `errors.As` finds in it is a resource limit. -/
def Terminal (err : GoErr) : Prop :=
  err.is .canceled = true ∨ err.is .deadlineExceeded = true ∨
    ∃ e, err.asLispico = some e ∧ e.code = codeResourceLimit

theorem isTerminalEvalError_iff (err : GoErr) :
    err.isTerminalEvalError = true ↔ err.Terminal := by
  unfold isTerminalEvalError Terminal
  rw [asLispicoError_eq_asLispico]
  cases err.asLispico with
  | none => simp
  | some e => simp [or_assoc]

theorem isTerminalEvalError_eq_false (err : GoErr) :
    err.isTerminalEvalError = false ↔ ¬err.Terminal := by
  rw [← isTerminalEvalError_iff, Bool.not_eq_true]

end GoErr

def evalErrorf (message : String) : GoErr := .lispico ⟨"EvalError", message, "", 0, 0⟩ none

def newTypeError (expected : String) (got : Value) : GoErr :=
  .lispico ⟨"TypeError", "expected " ++ expected ++ ", got " ++ got.goType, "", 0, 0⟩ none

def newArityError (expected got : Nat) : GoErr :=
  .lispico ⟨"ArityError", "expected " ++ toString expected ++ " args, got " ++ toString got,
    "", 0, 0⟩ none

def newUndefinedError (name : String) : GoErr :=
  .lispico ⟨"UndefinedError", "undefined: " ++ name, "", 0, 0⟩ none

def newResourceLimitError (message : String) : GoErr :=
  .lispico ⟨GoErr.codeResourceLimit, message, "", 0, 0⟩ none

/-- `NewPanicError` for a runtime boundary with a plain name. -/
def newPanicError (name value : String) : GoErr :=
  .lispico ⟨"PanicError", "recovered panic in \"" ++ name ++ "\": " ++ value, "", 0, 0⟩ none

end Core

end Lispico
