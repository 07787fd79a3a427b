import Lispico.Core.Error
import Lispico.Lib.Comp

/-!
# The work budget of a builtin

A builtin counts its work locally and settles it with the evaluation every 128 units: the
reductions are charged, the deadline and the caller's context are checked. The first refusal
is latched. What the evaluation answers is a parameter.
-/

namespace Lispico

namespace Core

open Lib Lib.Comp

def arityErrorf (message : String) : GoErr := .lispico ⟨"ArityError", message, "", 0, 0⟩ none

def typeErrorf (message : String) : GoErr := .lispico ⟨"TypeError", message, "", 0, 0⟩ none

/-- What a budget reaches of its evaluation. The flag of `checkDeadline` asks for the clock to
be read even when a reading is not due. -/
structure EvalHost (σ : Type) where
  chargeReductions : Nat → Comp σ GoErr Unit
  checkDeadline : Bool → Comp σ GoErr Unit
  ctxErr : Comp σ GoErr Unit

structure BuiltinWorkBudget (σ : Type) where
  pending : Nat
  latched : Option GoErr
  host : σ

/-- No charge and no check is refused. -/
structure EvalHost.Unlimited {σ : Type} (H : EvalHost σ) : Prop where
  chargeReductions : ∀ n s, ∃ s', H.chargeReductions n s = some (.ok (), s')
  checkDeadline : ∀ force s, ∃ s', H.checkDeadline force s = some (.ok (), s')
  ctxErr : ∀ s, ∃ s', H.ctxErr s = some (.ok (), s')

namespace BuiltinWorkBudget

def checkInterval : Nat := 128

section

variable {σ α : Type} (H : EvalHost σ)

def onHost (m : Comp σ GoErr α) : Comp (BuiltinWorkBudget σ) GoErr α := fun b =>
  match m b.host with
  | none => none
  | some (r, s) => some (r, { b with host := s })

def flushPending (forceDeadline : Bool) : Comp (BuiltinWorkBudget σ) GoErr Unit := fun b =>
  let sync : Comp σ GoErr Unit := do
    H.chargeReductions b.pending
    H.checkDeadline forceDeadline
    H.ctxErr
  match sync b.host with
  | none => none
  | some (.ok (), s) => some (.ok (), ⟨0, b.latched, s⟩)
  | some (.error e, s) => some (.error e, ⟨0, some e, s⟩)

def step : Comp (BuiltinWorkBudget σ) GoErr Unit := fun b =>
  match b.latched with
  | some e => some (.error e, b)
  | none =>
    if b.pending + 1 < checkInterval then some (.ok (), { b with pending := b.pending + 1 })
    else flushPending H false { b with pending := b.pending + 1 }

def flush : Comp (BuiltinWorkBudget σ) GoErr Unit := fun b =>
  match b.latched with
  | some e => some (.error e, b)
  | none => if b.pending = 0 then some (.ok (), b) else flushPending H false b

/-- `Finish` for an error: a terminal error of the settlement outranks one that is not. -/
def finish (err : GoErr) : Comp (BuiltinWorkBudget σ) GoErr α := do
  let b ← Comp.read
  let settled ←
    if err.isTerminalEvalError then attempt (flush H)
    else
      match b.latched with
      | some e => ret (.error e)
      | none => attempt (flushPending H true)
  match settled with
  | .ok () => fail err
  | .error ferr =>
    if !err.isTerminalEvalError && ferr.isTerminalEvalError then fail ferr
    else fail err

def finishBuiltin : Except GoErr α → Comp (BuiltinWorkBudget σ) GoErr α
  | .error err => finish H err
  | .ok v => flush H >>= fun _ => ret v

/-- A builtin's work on a new budget, all of whose returns go through `finishBuiltin`. -/
def budgeted (m : Comp (BuiltinWorkBudget σ) GoErr α) : Comp σ GoErr α := fun s =>
  match (m.attempt >>= finishBuiltin H) ⟨0, none, s⟩ with
  | none => none
  | some (r, b) => some (r, b.host)

variable {H}

variable (hH : H.Unlimited) {b : BuiltinWorkBudget σ}

include hH

theorem flushPending_of_unlimited (force : Bool) (hb : b.latched = none) :
    ∃ b', flushPending H force b = some (.ok (), b') ∧ b'.latched = none := by
  obtain ⟨s₁, h₁⟩ := hH.chargeReductions b.pending b.host
  obtain ⟨s₂, h₂⟩ := hH.checkDeadline force s₁
  obtain ⟨s₃, h₃⟩ := hH.ctxErr s₂
  refine ⟨⟨0, b.latched, s₃⟩, ?_, hb⟩
  rw [flushPending, bind_of_ok _ h₁, bind_of_ok _ h₂, h₃]

theorem step_of_unlimited (hb : b.latched = none) :
    ∃ b', step H b = some (.ok (), b') ∧ b'.latched = none := by
  rw [step, hb]
  dsimp only
  split
  · exact ⟨_, rfl, rfl⟩
  · exact flushPending_of_unlimited hH false rfl

theorem flush_of_unlimited (hb : b.latched = none) :
    ∃ b', flush H b = some (.ok (), b') ∧ b'.latched = none := by
  rw [flush, hb]
  dsimp only
  split
  · exact ⟨_, rfl, hb⟩
  · exact flushPending_of_unlimited hH false hb

theorem times_of_unlimited (n : Nat) (hb : b.latched = none) :
    ∃ b', (step H).times n b = some (.ok (), b') ∧ b'.latched = none := by
  induction n generalizing b with
  | zero => exact ⟨b, rfl, hb⟩
  | succ n ih =>
    obtain ⟨b₁, h₁, hb₁⟩ := step_of_unlimited hH hb
    rw [Comp.times, bind_of_ok _ h₁]
    exact ih hb₁

theorem finishBuiltin_of_unlimited (r : Except GoErr α) (hb : b.latched = none) :
    ∃ b', finishBuiltin H r b = some (r, b') := by
  cases r with
  | ok v =>
    obtain ⟨b', h, -⟩ := flush_of_unlimited hH hb
    exact ⟨b', bind_of_ok _ h⟩
  | error err =>
    rw [finishBuiltin, finish, bind_of_ok _ (read_apply b)]
    cases err.isTerminalEvalError with
    | true =>
      obtain ⟨b', h, -⟩ := flush_of_unlimited hH hb
      rw [if_pos rfl, attempt_bind, h]
      exact ⟨b', rfl⟩
    | false =>
      obtain ⟨b', h, -⟩ := flushPending_of_unlimited hH true hb
      rw [if_neg Bool.false_ne_true, hb]
      dsimp only
      rw [attempt_bind, h]
      exact ⟨b', rfl⟩

/-- Work and an answer, on an evaluation that refuses nothing. -/
theorem budgeted_of_unlimited (n : Nat) (r : Except GoErr α) (s : σ) :
    ∃ s', budgeted H ((step H).times n >>= fun _ => lift r) s = some (r, s') := by
  obtain ⟨b, hb, hl⟩ := times_of_unlimited hH n (b := ⟨0, none, s⟩) rfl
  have hlift : (lift r : Comp (BuiltinWorkBudget σ) GoErr α) b = some (r, b) := by
    cases r <;> rfl
  obtain ⟨b', hfin⟩ := finishBuiltin_of_unlimited hH r hl
  refine ⟨b'.host, ?_⟩
  rw [budgeted, attempt_bind, bind_of_ok _ hb, hlift]
  dsimp only
  rw [hfin]

end

end BuiltinWorkBudget

end Core

end Lispico
