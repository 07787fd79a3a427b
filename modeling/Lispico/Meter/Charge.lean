import Lispico.Core.Error
import Mathlib

/-!
# Charges on the counters of an evaluation

An evaluation state counts reductions and bytes in two atomic counters. A charge is one atomic
add and, when that cannot answer for it, a loop that swaps in a saturated total; charges run
concurrently, each with the place it has reached. Calls with a session meter do not touch the
counters.
-/

namespace Lispico

namespace Meter

open Lispico.Core

inductive Resource where
  | reductions
  | allocBytes
deriving DecidableEq, Repr

/-- The limits of an evaluation state; `normalizeEvalLimit` makes them positive. -/
structure Limits where
  max : Resource → Int64
  max_pos : ∀ r, 0 < max r

inductive Phase where
  | calling
  | adding
  | loading
  | swapping (used total : Int64)
  | admitted
  | refused
deriving DecidableEq, Repr

/-- A call of `chargeReductions` or `chargeAllocBytes` with the amount `n`. -/
structure ChargeCall where
  resource : Resource
  n : Int64
  phase : Phase
deriving DecidableEq, Repr

/-- The total that `saturateCounter` derives from the value it has loaded. -/
def saturatedTotal (max n used : Int64) : Int64 :=
  if n > max ∧ used ≥ 0 ∧ used + n ≥ used then used + n else Int64.maxValue

/-- One atomic step of a charge: the counter and the place after it. -/
def advance (max n counter : Int64) : Phase → Int64 × Phase
  | .calling =>
    if n ≤ 0 then (counter, .admitted)
    -- `addCharge` keeps a charge above the whole budget off the add.
    else if n > max then (counter, .loading)
    else (counter, .adding)
  | .adding =>
    let total := counter + n
    if total ≥ n then (total, if total ≤ max then .admitted else .refused)
    else (total, .loading)
  | .loading =>
    let total := saturatedTotal max n counter
    (counter, if total = counter then .refused else .swapping counter total)
  | .swapping used total =>
    if counter = used then (total, .refused) else (counter, .loading)
  | .admitted => (counter, .admitted)
  | .refused => (counter, .refused)

def chargeError (r : Resource) (max : Int64) : GoErr :=
  match r with
  | .reductions =>
    newResourceLimitError ("reduction limit " ++ toString max.toInt ++ " exceeded")
  | .allocBytes =>
    newResourceLimitError ("allocation limit " ++ toString max.toInt ++ " bytes exceeded")

/-- The counters and the charges made on them so far or still to be made. -/
structure ChargeState where
  counter : Resource → Int64
  calls : List ChargeCall

def ChargeState.fresh (charges : List (Resource × Int64)) : ChargeState :=
  ⟨fun _ => 0, charges.map fun c => ⟨c.1, c.2, .calling⟩⟩

/-- The next atomic step of the charge `i`. -/
def ChargeState.step (limits : Limits) (s : ChargeState) (i : Nat) : ChargeState :=
  match s.calls[i]? with
  | none => s
  | some c =>
    let next := advance (limits.max c.resource) c.n (s.counter c.resource) c.phase
    ⟨Function.update s.counter c.resource next.1, s.calls.set i { c with phase := next.2 }⟩

def ChargeCall.taken (r : Resource) (c : ChargeCall) : Int :=
  if c.resource = r ∧ c.phase = .admitted then max c.n.toInt 0 else 0

def ChargeState.admitted (s : ChargeState) (r : Resource) : Int :=
  (s.calls.map (ChargeCall.taken r)).sum

/-- The snapshot an embedder reads: a counter that has wrapped reads as the ceiling. -/
def publishedTotal (counter : Int64) : Int64 :=
  if counter < 0 then Int64.maxValue else counter

end Meter

end Lispico
