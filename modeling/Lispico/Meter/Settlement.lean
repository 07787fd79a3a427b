import Lispico.Meter.Lease
import Mathlib

/-!
# Settlement of retained cells

The cells bound anew wait in a ledger until the evaluation finishes. The settlement charges
every meter once, anchors the cells, and releases what it charged if a meter refuses. Other
goroutines drop or rebuild cells between its steps; a record keeps its calls and writes.
-/

namespace Lispico

namespace Meter

open Lispico.Core

/-- `pendingCellAlloc`; `recordFreshRetained` makes one for one slot. -/
structure PendingCellAlloc where
  env : Nat
  cell : Nat
  meter : Option Nat
  bytes : Int64
  slots : Int64
  slots_eq : slots = 1
deriving DecidableEq

/-- The pending allocations of an evaluation: a cell is new when it gets one. -/
structure Ledger where
  pending : List PendingCellAlloc
  distinct : (pending.map (·.cell)).Nodup

namespace Ledger

def cells (ledger : Ledger) : List Nat := ledger.pending.map (·.cell)

def empty : Ledger := ⟨[], List.nodup_nil⟩

/-- `recordFreshRetained` for a pending cell; a cell without a charge is not recorded. -/
def recordFreshRetained (ledger : Ledger) (env cell : Nat) (meter : Option Nat) (bytes : Int64)
    (hfresh : cell ∉ ledger.cells) : Ledger :=
  if bytes = 0 then ledger
  else
    ⟨ledger.pending ++ [⟨env, cell, meter, bytes, 1, rfl⟩], by
      rw [List.map_append, List.nodup_append]
      refine ⟨ledger.distinct, List.nodup_singleton _, ?_⟩
      rintro a ha b hb rfl
      rw [List.mem_singleton.1 hb] at ha
      exact hfresh ha⟩

end Ledger

structure CellCharge where
  retainedMeter : Option Nat
  retainedBytes : Int64
  rebuilt : Bool
  dropped : Bool

/-- `retainedCharge` and `retainedRelease`. -/
structure RetainedCharge where
  meter : Nat
  bytes : Int64
  slots : Int64
deriving DecidableEq

inductive ChargeAnswer where
  | accepted
  | denied (err : String)
  | panicked (value : String)

/-- The meters of the host: what the `k`-th call does. A release may panic. -/
structure RetainedMeters where
  charge : (k : Nat) → RetainedCharge → ChargeAnswer
  release : (k : Nat) → RetainedCharge → Option String

inductive SettlePhase where
  | attaching (rest : List PendingCellAlloc)
  | planning (rest : List PendingCellAlloc) (charges : List RetainedCharge)
  | charging (rest charged : List RetainedCharge)
  | anchoring (rest : List PendingCellAlloc) (releases : List (Option Nat × RetainedCharge))
  /-- The settlement holds the lock of the environment of `p`. -/
  | locked (p : PendingCellAlloc) (rest : List PendingCellAlloc)
      (releases : List (Option Nat × RetainedCharge))
  /-- `releaseAll`, with the first panic of a release and what the settlement returns if no
  release panics. -/
  | releasing (rest : List (Option Nat × RetainedCharge)) (first : Option String) (reply : Reply)
  | ended (reply : Reply)

/-- A settlement under way. A release is recorded with the cell whose charge it gives back;
it has none when it makes up for a charge of this settlement. -/
structure Settling where
  cells : Nat → CellCharge
  envMeter : Nat → Option Nat
  calls : Nat
  phase : SettlePhase
  charged : List RetainedCharge
  refused : Bool
  anchored : List (Nat × Option Nat × Int64)
  released : List (Option Nat × RetainedCharge)

/-- Adds the charge of a pending cell to the one of its meter, which is found or appended. -/
def addRetained (m : Nat) (bytes slots : Int64) : List RetainedCharge → List RetainedCharge
  | [] => [⟨m, bytes, slots⟩]
  | c :: charges =>
    if c.meter = m then { c with bytes := c.bytes + bytes, slots := c.slots + slots } :: charges
    else c :: addRetained m bytes slots charges

def planCharge (charges : List RetainedCharge) (p : PendingCellAlloc) : List RetainedCharge :=
  match p.meter with
  | none => charges
  | some m =>
    if p.bytes = 0 ∧ p.slots = 0 then charges else addRetained m p.bytes p.slots charges

def releaseOf (p : PendingCellAlloc) : List (Option Nat × RetainedCharge) :=
  match p.meter with
  | none => []
  | some m => if p.bytes > 0 ∨ p.slots > 0 then [(some p.cell, ⟨m, p.bytes, p.slots⟩)] else []

/-- The environment keeps the first meter that pays for one of its cells. -/
def attachEnv (p : PendingCellAlloc) (envMeter : Nat → Option Nat) : Nat → Option Nat :=
  if envMeter p.env = none ∧ p.meter ≠ none then Function.update envMeter p.env p.meter
  else envMeter

/-- The pending cell gets its anchor, if it has not been rebuilt. -/
def Settling.anchor (s : Settling) (p : PendingCellAlloc) (rest : List PendingCellAlloc)
    (releases : List (Option Nat × RetainedCharge)) : Settling :=
  let cell := s.cells p.cell
  if cell.rebuilt then { s with phase := .anchoring rest (releases ++ releaseOf p) }
  else
    let anchored := { cell with retainedMeter := p.meter, retainedBytes := p.bytes }
    { s with
      cells := Function.update s.cells p.cell anchored
      phase := .anchoring rest releases
      anchored := s.anchored ++ [(p.cell, p.meter, p.bytes)] }

/-- The settlement is abandoned, and what was charged is released. -/
def Settling.abandon (s : Settling) (charged : List RetainedCharge) (reply : Reply) : Settling :=
  { s with
    calls := s.calls + 1
    refused := true
    phase := .releasing (charged.map (none, ·)) none reply }

/-- The next step of `settleRetained`. -/
def Settling.step (host : RetainedMeters) (ledger : Ledger) (s : Settling) : Settling :=
  match s.phase with
  | .attaching [] => { s with phase := .planning ledger.pending [] }
  | .attaching (p :: rest) =>
    if (s.cells p.cell).dropped then { s with phase := .attaching rest }
    else { s with envMeter := attachEnv p s.envMeter, phase := .attaching rest }
  | .planning [] charges => { s with phase := .charging charges [] }
  | .planning (p :: rest) charges =>
    if (s.cells p.cell).dropped then { s with phase := .planning rest charges }
    else { s with phase := .planning rest (planCharge charges p) }
  | .charging [] _ => { s with phase := .anchoring ledger.pending [] }
  | .charging (c :: rest) charged =>
    match host.charge s.calls c with
    | .accepted =>
      { s with
        calls := s.calls + 1
        phase := .charging rest (charged ++ [c])
        charged := s.charged ++ [c] }
    | .denied err =>
      s.abandon charged (.failed (newResourceLimitError ("retained meter: " ++ err)))
    | .panicked value => s.abandon charged (.panicked value)
  | .anchoring [] releases => { s with phase := .releasing releases none .done }
  | .anchoring (p :: rest) releases =>
    if (s.cells p.cell).dropped then { s with phase := .anchoring rest releases }
    else { s with phase := .locked p rest releases }
  | .locked p rest releases => s.anchor p rest releases
  | .releasing [] first reply =>
    { s with phase := .ended (match first with
      | none => reply
      | some value => .panicked value) }
  | .releasing (release :: rest) first reply =>
    { s with
      calls := s.calls + 1
      phase := .releasing rest (first.or (host.release s.calls release.2)) reply
      released := s.released ++ [release] }
  | .ended _ => s

def Settling.start (ledger : Ledger) (cells : Nat → CellCharge) (envMeter : Nat → Option Nat) :
    Settling where
  cells := cells
  envMeter := envMeter
  calls := 0
  phase := .attaching ledger.pending
  charged := []
  refused := false
  anchored := []
  released := []

end Meter

end Lispico
