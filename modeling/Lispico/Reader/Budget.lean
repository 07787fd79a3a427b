import Lispico.Lib.Guarded
import Lispico.Meter.Lease

/-!
# The budget of a read

A guarded read settles its work against the evaluation's ledger at checkpoints, where it also
looks at the deadline and the context, and admits storage before it is obtained. The first
refusal is kept. What deadline, context and session meter answer is an input; `bill` adds up the
charges and is not in the code.
-/

namespace Lispico

namespace Reader

open Lispico.Core Meter Lib

/-- What the context of a read answers: to the `k`-th lease asked of the meter `m`, and at
the `k`-th checkpoint. -/
structure Context where
  lease : (k m : Nat) → (Resource → Int64) → (Resource → Int64) × Option String
  interrupt : Nat → Option GoErr

def Context.meters (ctx : Context) : Meters := fun k m want =>
  .answered (ctx.lease k m want).1 (ctx.lease k m want).2

/-- `readerBudget`. Without an evaluation state in the context the meter charges nothing. -/
structure Budget where
  ctx : Context
  meter : Option EvalState
  pending : Nat
  failed : Option GoErr
  /-- How often the deadline and the context have been consulted. -/
  checks : Nat
  bill : Resource → Nat

def maxInt64 : Nat := 2 ^ 63 - 1

def readerTokenUnitBytes : Nat := 32

def readerConversionSlackBytes : Nat := 256

def readerListCellBytes : Nat := 32

def readerLinkBatch : Nat := 128

def readerClearBatch : Nat := 128

def readerScratchNoCeiling : Nat := maxInt64

def meterValueSlotBytes : Nat := 16

def meterCollectionHeaderBytes : Nat := 24

def meterHashMapEntryBytes : Nat := 64

def meterReaderNodeBytes : Nat := 32

def valueSlotsBytes (n : Nat) : Nat := n * meterValueSlotBytes

def checkInterval : Nat := 128

/-- An error of a charge. The meters answer every request, so no charge panics. -/
def replyError : Reply → Option GoErr
  | .failed err => some err
  | _ => none

namespace Budget

/-- `init` on a context that holds this ledger. -/
def init (ctx : Context) (meter : Option EvalState) : Budget :=
  ⟨ctx, meter, 0, none, 0, fun _ => 0⟩

def charge (r : Resource) (n : Nat) (b : Budget) : Option GoErr × Budget :=
  let b := { b with bill := Function.update b.bill r (b.bill r + n) }
  match b.meter with
  | none => (none, b)
  | some st =>
    let answer := st.charge b.ctx.meters r (Int64.ofNat n)
    (replyError answer.1, { b with meter := some answer.2 })

def refuse (err : GoErr) (b : Budget) : Option GoErr × Budget :=
  (some err, { b with failed := some err })

/-- A method that reports a failure already observed and does nothing more. -/
def unlessFailed (op : Budget → Option GoErr × Budget) (b : Budget) : Option GoErr × Budget :=
  match b.failed with
  | some err => (some err, b)
  | none => op b

/-- The end of `checkpoint`: the deadline, then the context. -/
def consult (b : Budget) : Option GoErr × Budget :=
  let rest := { b with checks := b.checks + 1 }
  match b.ctx.interrupt b.checks with
  | some err => rest.refuse err
  | none => (none, rest)

def settleWork (n : Nat) (b : Budget) : Option GoErr × Budget :=
  match b.charge .reductions n with
  | (some err, b) => b.refuse err
  | (none, b) => b.consult

def checkpoint : Budget → Option GoErr × Budget :=
  unlessFailed fun b => settleWork b.pending { b with pending := 0 }

/-- The loop of `work`; a round takes one unit at least. -/
def workRounds : Nat → Nat → Budget → Option GoErr × Budget
  | 0, _, b => (none, b)
  | rounds + 1, n, b =>
    let room := checkInterval - b.pending
    if n = 0 then (none, b)
    else if n < room then (none, { b with pending := b.pending + n })
    else
      match checkpoint { b with pending := b.pending + room } with
      | (some err, b) => (some err, b)
      | (none, b) => workRounds rounds (n - room) b

def work (n : Nat) : Budget → Option GoErr × Budget :=
  unlessFailed (workRounds n n)

def admitAlloc (n : Nat) : Budget → Option GoErr × Budget :=
  unlessFailed fun b =>
    match b.charge .allocBytes n with
    | (some err, b) => b.refuse err
    | (none, b) => (none, b)

def admitOutputNode (payload : Nat) : Budget → Option GoErr × Budget :=
  admitAlloc (meterReaderNodeBytes + payload)

def admitSlots (n : Nat) : Budget → Option GoErr × Budget :=
  admitAlloc (valueSlotsBytes n)

def admitListCells (n : Nat) : Budget → Option GoErr × Budget :=
  admitAlloc (n * readerListCellBytes)

/-- `allocLimit`; the limits of an evaluation state are positive. -/
def allocLimit (st : EvalState) : Nat := (st.limits.max .allocBytes).toInt.toNat

def allocHeadroom (b : Option Budget) : Nat :=
  match b.bind Budget.meter with
  | none => maxInt64
  | some st => allocLimit st - (publishedTotal (st.counter .allocBytes)).toInt.toNat

def allocCeiling (b : Option Budget) : Nat :=
  match b.bind Budget.meter with
  | none => readerScratchNoCeiling
  | some st => allocLimit st

def checkedTokenPlanBytes (tokens : Nat) : Option Nat :=
  if tokens > maxInt64 / readerTokenUnitBytes then none else some (tokens * readerTokenUnitBytes)

def checkedConversionBytes (tokenBytes : Nat) : Option Nat :=
  if tokenBytes > (maxInt64 - readerConversionSlackBytes) / 2 then none
  else some (2 * tokenBytes + readerConversionSlackBytes)

def checkPlan (tokens payload headroom : Nat) : Budget → Option GoErr × Budget :=
  unlessFailed fun b =>
    if (checkedTokenPlanBytes tokens).any fun plan => plan ≤ headroom ∧ payload ≤ headroom - plan
    then (none, b)
    else
      b.refuse (newResourceLimitError ("reader storage for " ++ toString tokens ++ " tokens and "
        ++ toString payload ++ " decoded bytes exceeds the remaining allocation allowance of "
        ++ toString headroom ++ " bytes"))

def reservePlan (tokens payload : Nat) : Budget → Option GoErr × Budget :=
  unlessFailed fun b =>
    match checkedTokenPlanBytes tokens with
    | none =>
      b.refuse (newResourceLimitError ("reader token plan of " ++ toString tokens
        ++ " tokens overflows the storage budget"))
    | some plan =>
      match admitAlloc plan b with
      | (some err, b) => (some err, b)
      | (none, b) => admitAlloc payload b

def admitConversionStorage (tokenBytes : Nat) : Budget → Option GoErr × Budget :=
  unlessFailed fun b =>
    match checkedConversionBytes tokenBytes with
    | none =>
      b.refuse (newResourceLimitError ("numeric token of " ++ toString tokenBytes
        ++ " bytes overflows the reader conversion storage budget"))
    | some n => admitAlloc n b

/-- The reduction limit that `Snapshot` reports; nothing without an evaluation state. -/
def maxReductions (b : Budget) : Nat :=
  match b.meter with
  | none => 0
  | some st => (st.limits.max .reductions).toInt.toNat

def admitConversion (n : Nat) : Budget → Option GoErr × Budget :=
  unlessFailed fun b =>
    let limit := b.maxReductions / 3
    if limit > 0 ∧ n > limit then
      b.refuse (newResourceLimitError ("numeric token of " ++ toString n
        ++ " bytes exceeds the reader conversion limit of " ++ toString limit))
    else work n b

end Budget

/-- `growthPlan`: the doubling schedule that a buffer is charged by. -/
structure GrowthPlan where
  unit : Nat
  capacity : Nat
deriving DecidableEq, Repr

namespace GrowthPlan

def doubled (g : GrowthPlan) : GrowthPlan :=
  { g with capacity := if g.capacity = 0 then 1 else g.capacity * 2 }

/-- The loop of `admit`; after `n` rounds the capacity is at least `n`. -/
def admitRounds : Nat → Nat → Guarded Budget GrowthPlan GoErr Unit
  | 0, _ => Guarded.ret ()
  | rounds + 1, n => do
      let g ← Guarded.look id
      if g.capacity < n then
        Guarded.update doubled
        Guarded.spend (Budget.admitAlloc (g.doubled.capacity * g.unit))
        admitRounds rounds n
      else Guarded.ret ()

def admitGrowth (n : Nat) : Guarded Budget GrowthPlan GoErr Unit := admitRounds n n

end GrowthPlan

/-- The loop of `takeChildren`, and of `clearSlots`, over `n` slots: work in batches. -/
def workBatches {S : Type} (batch : Nat) : Nat → Nat → Guarded Budget S GoErr Unit
  | 0, _ => Guarded.ret ()
  | rounds + 1, n =>
    if n = 0 then Guarded.ret ()
    else do
      Guarded.spend (Budget.work (min n batch))
      workBatches batch rounds (n - min n batch)

end Reader

end Lispico
