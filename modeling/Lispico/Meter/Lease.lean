import Lispico.Meter.Charge
import Mathlib

/-!
# Leases of an evaluation

With a session meter an evaluation state takes leases, uses them up and returns what is left
when the outermost evaluation finishes. Every call first attaches the meter of its context. The
meters answer as they like; what they granted, got back and had used is in a book that the code
does not have.
-/

namespace Lispico

namespace Meter

open Lispico.Core

inductive LeaseAnswer where
  | answered (granted : Resource → Int64) (err : Option String)
  | panicked (value : String)

/-- The meters of the host: the answer to the `k`-th request, made to the meter `m`. -/
abbrev Meters := (k m : Nat) → (Resource → Int64) → LeaseAnswer

inductive Entry where
  | granted
  | consumed
  | returned
deriving DecidableEq, Repr

inductive Reply where
  | done
  | failed (err : GoErr)
  | panicked (value : String)

structure EvalState where
  limits : Limits
  counter : Resource → Int64
  budget : Int64
  meter : Option Nat
  evalDepth : Int
  leased : Resource → Int64
  /-- How many leases have been asked for. -/
  asked : Nat
  /-- The units of every meter by what became of them. -/
  book : Entry → Nat → Resource → Int
  /-- What the calls of `StartEval` that are not finished have returned. -/
  tops : List Bool

def EvalState.fresh (limits : Limits) : EvalState where
  limits := limits
  counter := fun _ => 0
  budget := 0
  meter := none
  evalDepth := 0
  leased := fun _ => 0
  asked := 0
  book := fun _ _ _ => 0
  tops := []

/-- `maxEvalReductionLease` and `maxEvalAllocLease`. -/
def Resource.maxLease : Resource → Int64
  | .reductions => 1024
  | .allocBytes => 65536

def checkInterval : Int64 := 128

def exhausted : Resource → GoErr
  | .reductions => newResourceLimitError "evaluation reduction meter exhausted"
  | .allocBytes => newResourceLimitError "evaluation allocation meter exhausted"

namespace EvalState

def record (e : Entry) (m : Nat) (units : Resource → Int64) (s : EvalState) : EvalState :=
  let added := Function.update (s.book e) m fun r => s.book e m r + (units r).toInt
  { s with book := Function.update s.book e added }

def attachMeter (m : Option Nat) (s : EvalState) : EvalState :=
  match m with
  | none => { s with meter := none }
  | some m =>
    if s.meter = some m then s
    else if s.evalDepth > 0 ∧ s.meter ≠ none then s
    else { s with meter := some m }

/-- What `leaseEval` hands back at once when the lease fails. -/
def giveBack (m : Nat) (granted : Resource → Int64) (s : EvalState) : EvalState :=
  if granted .reductions > 0 ∨ granted .allocBytes > 0 then s.record .returned m granted else s

/-- What `leaseEval` does with an answer to the request `want`. -/
def takeLease (m : Nat) (want granted : Resource → Int64) (err : Option String)
    (s : EvalState) : Reply × EvalState :=
  let s := s.record .granted m granted
  match err with
  | some text =>
    (.failed (newResourceLimitError ("evaluation meter exhausted: " ++ text)),
      s.giveBack m granted)
  | none =>
    if want .reductions > 0 ∧ granted .reductions ≤ 0 then
      (.failed (exhausted .reductions), s.giveBack m granted)
    else if want .allocBytes > 0 ∧ granted .allocBytes ≤ 0 then
      (.failed (exhausted .allocBytes), s.giveBack m granted)
    else (.done, { s with leased := fun r => s.leased r + granted r })

/-- The request that `leaseEval` makes. -/
def clamp (want : Resource → Int64) : Resource → Int64 :=
  fun r => min (max (want r) 0) r.maxLease

def leaseEval (meters : Meters) (want : Resource → Int64) (s : EvalState) : Reply × EvalState :=
  match s.meter with
  | none => (.done, s)
  | some m =>
    if clamp want .reductions = 0 ∧ clamp want .allocBytes = 0 then (.done, s)
    else
      match meters s.asked m (clamp want) with
      | .panicked value => (.panicked value, { s with asked := s.asked + 1 })
      | .answered granted err =>
        takeLease m (clamp want) (fun r => max (granted r) 0) err { s with asked := s.asked + 1 }

def drawInitialLease (meters : Meters) (s : EvalState) : Reply × EvalState :=
  if s.meter = none then (.done, s) else leaseEval meters Resource.maxLease s

def units (r : Resource) (n : Int64) : Resource → Int64 := fun r' => if r' = r then n else 0

/-- A charge takes `used` units of the lease. -/
def use (r : Resource) (used : Int64) (s : EvalState) : EvalState :=
  let s := { s with leased := Function.update s.leased r (s.leased r - used) }
  match s.meter with
  | none => s
  | some m => s.record .consumed m (units r used)

/-- The lease that a round of `consumeReductionLease` or `consumeAllocLease` takes. -/
def renewLease (meters : Meters) (r : Resource) (n : Int64) (s : EvalState) : Reply × EvalState :=
  if s.leased r = 0 then leaseEval meters (units r (min n r.maxLease)) s else (.done, s)

def consumeRound (meters : Meters) (r : Resource) (n : Int64) (s : EvalState) :
    Except (Reply × EvalState) (Int64 × EvalState) :=
  match renewLease meters r n s with
  | (.done, s) =>
    if s.leased r ≤ 0 then .error (.failed (exhausted r), s)
    else .ok (n - min n (s.leased r), s.use r (min n (s.leased r)))
  | (reply, s) => .error (reply, s)

/-- `consumeReductionLease` and `consumeAllocLease`. Every round uses a unit at least, so a
charge of `n` needs no more than `n` rounds. -/
def consumeLease (meters : Meters) (r : Resource) : Nat → Int64 → EvalState → Reply × EvalState
  | 0, _, s => (.done, s)
  | rounds + 1, n, s =>
    if n ≤ 0 then (.done, s)
    else
      match consumeRound meters r n s with
      | .error ended => ended
      | .ok (n, s) => consumeLease meters r rounds n s

/-- A charge on the counter alone, from its first atomic step to its last. -/
def settleCharge (max n counter : Int64) : Int64 × Phase :=
  (fun c : Int64 × Phase => advance max n c.1 c.2)^[4] (counter, .calling)

/-- A charge on the counter of the state, which holds as long as no meter is attached. -/
def chargeCounter (r : Resource) (n : Int64) (s : EvalState) : Reply × EvalState :=
  let settled := settleCharge (s.limits.max r) n (s.counter r)
  (if settled.2 = .admitted then .done else .failed (chargeError r (s.limits.max r)),
    { s with counter := Function.update s.counter r settled.1 })

/-- `chargeReductions` and `chargeAllocBytes`. -/
def charge (meters : Meters) (r : Resource) (n : Int64) (s : EvalState) : Reply × EvalState :=
  if n ≤ 0 then (.done, s)
  else if s.meter ≠ none then consumeLease meters r n.toInt.toNat n s
  else chargeCounter r n s

def flushReductions (meters : Meters) (s : EvalState) : Reply × EvalState :=
  let rest := { s with budget := checkInterval }
  if s.budget ≤ 0 ∨ s.budget ≥ checkInterval then (.done, rest)
  else charge meters .reductions (checkInterval - s.budget) rest

def andThen (first : Reply × EvalState) (next : EvalState → Reply × EvalState) :
    Reply × EvalState :=
  match first with
  | (.done, s) => next s
  | ended => ended

/-- The end of `pollCancel`; `interrupt` is what the deadline or the context reports. -/
def rearm (interrupt : Option GoErr) (s : EvalState) : Reply × EvalState :=
  (match interrupt with
    | none => .done
    | some err => .failed err, { s with budget := checkInterval })

def pollCancel (meters : Meters) (force : Bool) (interrupt : Option GoErr) (s : EvalState) :
    Reply × EvalState :=
  if force then
    andThen (andThen (flushReductions meters s) (charge meters .reductions 1)) (rearm interrupt)
  else
    let rest := { s with budget := s.budget - 1 }
    if rest.budget > 0 then (.done, rest)
    else if rest.budget = 0 then
      andThen (charge meters .reductions checkInterval rest) (rearm interrupt)
    else rearm interrupt rest

def returnEvalLease (s : EvalState) : EvalState :=
  match s.meter with
  | none => s
  | some m => { s with leased := fun _ => 0 }.record .returned m s.leased

/-- `StartEval` through a context that carries the meter `ctx`. A panic of the meter passes
through it and leaves the depth as it is. -/
def startEval (meters : Meters) (ctx : Option Nat) (s : EvalState) : Reply × EvalState :=
  if s.evalDepth > 0 then (.done, { s with tops := false :: s.tops })
  else
    let s : EvalState := { s.attachMeter ctx with evalDepth := s.evalDepth + 1 }
    if s.evalDepth = 1 then
      match drawInitialLease meters { s with meter := ctx } with
      | (.done, s) => (.done, { s with tops := true :: s.tops })
      | (.failed err, s) => (.failed err, { s with evalDepth := s.evalDepth - 1 })
      | (.panicked value, s) => (.panicked value, s)
    else (.done, { s with tops := false :: s.tops })

/-- What `finishEval` reports: a panic of the flush or of the settlement as an error, or the
error of the flush before the one of the settlement. -/
def settlement (flushed settled : Reply) : Reply :=
  match flushed with
  | .panicked value => .failed (newPanicError "settlement" value)
  | .failed err => .failed err
  | .done =>
    match settled with
    | .panicked value => .failed (newPanicError "settlement" value)
    | reply => reply

/-- `finishEval`; `settled` is what settling the retained cells ends with. -/
def finishEval (meters : Meters) (settled : Reply) (s : EvalState) : Reply × EvalState :=
  let flushed := flushReductions meters { s with evalDepth := s.evalDepth - 1 }
  (settlement flushed.1 settled, flushed.2.returnEvalLease)

end EvalState

/-- A call on an evaluation state. The contexts are those that hold this state, and `ctx`
is the meter one of them carries. -/
inductive Op where
  /-- `WithEvalMeter`, or `ensureEvalState` on a context with or without a meter. -/
  | attach (ctx : Option Nat)
  | start (ctx : Option Nat)
  /-- A charge through a context, or through an `EvalMeter`, which attaches nothing. -/
  | charge (ctx : Option (Option Nat)) (r : Resource) (n : Int64)
  | flush (ctx : Option Nat)
  | poll (ctx : Option Nat) (force : Bool) (interrupt : Option GoErr)
  /-- `FinishEval` with what the `i`-th unfinished `StartEval` returned. -/
  | finish (ctx : Option Nat) (i : Nat) (settled : Reply)

open EvalState in
def Op.apply (meters : Meters) (s : EvalState) : Op → Reply × EvalState
  | .attach ctx => (.done, s.attachMeter ctx)
  | .start ctx => startEval meters ctx s
  | .charge none r n => EvalState.charge meters r n s
  | .charge (some ctx) r n => EvalState.charge meters r n (s.attachMeter ctx)
  | .flush ctx => flushReductions meters (s.attachMeter ctx)
  | .poll ctx force interrupt => pollCancel meters force interrupt (s.attachMeter ctx)
  | .finish ctx i settled =>
    let rest := { s with tops := s.tops.eraseIdx i }
    if s.tops[i]? = some true then finishEval meters settled (rest.attachMeter ctx)
    else (.done, rest)

def run (meters : Meters) (s : EvalState) (ops : List Op) : EvalState :=
  ops.foldl (fun s op => (op.apply meters s).2) s

end Meter

end Lispico
