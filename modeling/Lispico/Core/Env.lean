import Lispico.Core.Registration
import Lispico.Lib.Keyed

/-!
# Root environments

A root environment binds names to cells. The cells made for a key stay in `cells`, bound or not,
since a lookup site or a journal may hold them. A write runs under the lock and is one step; it
goes through the root or through the view of a registration, which `via` names. There is no
parent and no lazy layer, and what a session meter replies comes with the write (`Charge`).
-/

namespace Lispico

namespace Core

open Lib

/-- `ValueShallowBytes` of a type of values. -/
class ValueShallowBytes (V : Type) where
  valueShallowBytes : V → Int

/-- `ValueShallowBytes` of a string. -/
instance : ValueShallowBytes String := ⟨fun s => 16 + s.utf8ByteSize⟩

/-- The meter a write charges: whether an evaluation takes the charge on its ledger
instead, and the meter's refusal. -/
structure Charge where
  meter : Option Nat
  pending : Bool
  refused : Option String

structure RetainedRelease where
  meter : Nat
  bytes : Int
  slots : Int

structure Env (V : Type) where
  cells : RegistrationKey → List (Cell V)
  binds : AList fun _ : RegistrationKey => Nat
  newNameGen : Nat
  macroEpoch : Nat
  reg : Option (Registration V)
  nextReg : Nat
  retainedBytes : Int
  retainedSlots : Int
  maxRetainedBytes : Int
  maxRetainedSlots : Int

namespace Env

section

variable {V : Type}

/-- `NewEnvWithRetainedLimits`, without a parent. -/
def newEnvWithRetainedLimits (maxRetainedBytes maxRetainedSlots : Int) : Env V :=
  ⟨fun _ => [], ∅, 0, 0, none, 0, 0, 0, maxRetainedBytes, maxRetainedSlots⟩

def bound (e : Env V) (key : RegistrationKey) : Option (Nat × Cell V) := do
  let i ← e.binds.lookup key
  let cell ← (e.cells key)[i]?
  some (i, cell)

/-- `GetCanonical`, or `GetFuncCanonical` for a function key: the value and the canonical
flag of a live binding. -/
def getCanonical (e : Env V) (key : RegistrationKey) : Option (V × Bool) := do
  let (_, cell) ← e.bound key
  let v ← cell.v
  some (v, cell.canonical)

/-- `CellLocal`, or `FuncCellLocal`: the cell of a live binding. -/
def cellLocal (e : Env V) (key : RegistrationKey) : Option Nat := do
  let (i, cell) ← e.bound key
  if cell.v.isSome then some i else none

def updateCell (e : Env V) (key : RegistrationKey) (i : Nat) (f : Cell V → Cell V) : Env V :=
  { e with cells := Function.update e.cells key ((e.cells key).modify i f) }

def bindFresh (e : Env V) (key : RegistrationKey) (cell : Cell V) : Env V :=
  { e with
    cells := Function.update e.cells key (e.cells key ++ [cell])
    binds := e.binds.insert key (e.cells key).length }

def bumpNameGen (e : Env V) : Env V := { e with newNameGen := e.newNameGen + 1 }

/-- `active`: the running registration, if the write goes through its view. -/
def active (e : Env V) (via : Option Nat) : Option (Registration V) :=
  e.reg.filter fun r => via == some r.id

def beforeWrite (e : Env V) (via : Option Nat) (key : RegistrationKey) : Env V :=
  match e.active via with
  | none => e
  | some r => { e with reg := some (r.record key (e.bound key)) }

/-- `afterWrite` for the cell that is now bound. -/
def afterWrite (e : Env V) (via : Option Nat) (key : RegistrationKey)
    (reservedBytes reservedSlots : Int) : Env V :=
  match e.active via, e.bound key with
  | some r, some (i, cell) =>
    { e with reg := some (r.afterWrite key i cell.version reservedBytes reservedSlots) }
  | _, _ => e

def reserveRetainedBindings (e : Env V) (bytes slots : Int) : Except String Unit :=
  if e.maxRetainedBytes > 0 ∧ e.retainedBytes + bytes > e.maxRetainedBytes then
    .error "retained state capacity limit exceeded"
  else if e.maxRetainedSlots > 0 ∧ e.retainedSlots + slots > e.maxRetainedSlots then
    .error "retained state capacity limit exceeded"
  else .ok ()

def Charge.onLedger (charge : Charge) : Bool := charge.pending && charge.meter.isSome

def chargeRetainedMeter (charge : Charge) (bytes slots : Int) : Except String Unit :=
  if charge.meter.isNone ∨ (bytes ≤ 0 ∧ slots ≤ 0) then .ok ()
  else
    match charge.refused with
    | some err => .error ("retained meter: " ++ err)
    | none => .ok ()

def prepareFreshRetained (e : Env V) (charge : Charge) (bytes slots : Int) :
    Except String (Env V) := do
  if bytes = 0 ∧ slots = 0 then
    return e
  e.reserveRetainedBindings bytes slots
  if !Charge.onLedger charge then
    chargeRetainedMeter charge bytes slots
  return { e with
    retainedBytes := e.retainedBytes + bytes
    retainedSlots := e.retainedSlots + slots }

/-- `recordFreshRetained`: the cell keeps a charge that is not on a ledger. -/
def recordFreshRetained (e : Env V) (charge : Charge) (key : RegistrationKey) (i : Nat)
    (bytes : Int) : Env V :=
  if bytes = 0 ∨ Charge.onLedger charge then e
  else e.updateCell key i fun c => { c with retainedMeter := charge.meter, retainedBytes :=
    bytes }

/-- A cell as `localCell` makes it. -/
def emptyCell : Cell V := ⟨none, false, 0, none, 0⟩

/-- `localCell` and `localFuncCell`: the bound cell, made if there is none. -/
def localCell (e : Env V) (key : RegistrationKey) : Env V × Nat :=
  match e.bound key with
  | some (i, _) => (e, i)
  | none => (e.bindFresh key emptyCell, (e.cells key).length)

/-- Write a value to a bound cell. Reviving a value cell counts as a new name. -/
def writeCell (e : Env V) (key : RegistrationKey) (i : Nat) (val : V) (canonical : Bool) :
    Env V :=
  let e := if ((e.cells key)[i]?.any fun c => c.v.isNone) && !key.fn then e.bumpNameGen else e
  e.updateCell key i fun c =>
    { c with v := some val, canonical := canonical, version := c.version + 1 }

variable [ValueShallowBytes V]

def retainedBindingBytes (name : String) (val : V) : Int :=
  64 + 32 + (16 + name.utf8ByteSize) + ValueShallowBytes.valueShallowBytes val

/-- `setVarLocked` and `setFuncCellLocked`: whether the binding was written. -/
def setLocked (e : Env V) (via : Option Nat) (key : RegistrationKey) (val : V)
    (canonical ifVacant : Bool) (charge : Charge) : Except String (Env V × Bool) :=
  match e.bound key with
  | some (i, cell) =>
    if ifVacant && cell.v.isSome then .ok (e, false)
    else
      let e := e.beforeWrite via key
      let e := e.writeCell key i val canonical
      .ok (e.afterWrite via key 0 0, true)
  | none => do
      let b := retainedBindingBytes key.name val
      let e ← e.prepareFreshRetained charge b 1
      let e := e.beforeWrite via key
      let (e, i) := e.localCell key
      let e := e.writeCell key i val canonical
      let e := e.recordFreshRetained charge key i b
      .ok (e.afterWrite via key b 1, true)

/-- The writes of `setBothLocked`, once the capacity is reserved. -/
def writeBoth (e : Env V) (via : Option Nat) (name : String) (val : V) (canonical : Bool)
    (charge : Charge) (newVar newFunc : Bool) : Env V :=
  let varKey : RegistrationKey := ⟨name, false⟩
  let funcKey : RegistrationKey := ⟨name, true⟩
  let b := retainedBindingBytes name val
  let e := (e.beforeWrite via varKey).beforeWrite via funcKey
  let (e, i) := e.localCell varKey
  let (e, j) := e.localCell funcKey
  let e := e.writeCell varKey i val canonical
  let e := if newVar then e.recordFreshRetained charge varKey i b else e
  let e := e.writeCell funcKey j val canonical
  let e := if newFunc then e.recordFreshRetained charge funcKey j b else e
  let e := e.afterWrite via varKey (if newVar then b else 0) (if newVar then 1 else 0)
  e.afterWrite via funcKey (if newFunc then b else 0) (if newFunc then 1 else 0)

/-- `setBothLocked`: one reservation for the cells that both namespaces lack. -/
def setBothLocked (e : Env V) (via : Option Nat) (name : String) (val : V)
    (canonical ifVacant : Bool) (charge : Charge) : Except String (Env V × Bool) :=
  let newVar := (e.bound ⟨name, false⟩).isNone
  let newFunc := (e.bound ⟨name, true⟩).isNone
  if ifVacant && ((e.getCanonical ⟨name, false⟩).isSome || (e.getCanonical ⟨name, true⟩).isSome)
  then .ok (e, false)
  else do
    let b := retainedBindingBytes name val
    let newSlots : Int := (if newVar then 1 else 0) + (if newFunc then 1 else 0)
    let e ← e.prepareFreshRetained charge (b * newSlots) newSlots
    .ok (e.writeBoth via name val canonical charge newVar newFunc, true)

/-- `replaceCell`: the old cell keeps its value; its settled charge moves to the new one if
the operation wrote it last. -/
def replaceCell (e : Env V) (via : Option Nat) (name : String) (val : V) (charge : Charge) :
    Except String (Env V) :=
  let key : RegistrationKey := ⟨name, false⟩
  match e.bound key with
  | none => do
      let b := retainedBindingBytes name val
      let e ← e.prepareFreshRetained charge b 1
      let e := e.beforeWrite via key
      let i := (e.cells key).length
      let e := (e.bindFresh key ⟨some val, false, 1, none, 0⟩).bumpNameGen
      let e := e.recordFreshRetained charge key i b
      .ok (e.afterWrite via key b 1)
  | some (old, oldCell) =>
    let e := e.beforeWrite via key
    let e :=
      if Registration.pins (e.active via) key old oldCell && oldCell.retainedMeter.isSome then
        (e.updateCell key old fun c => { c with retainedMeter := none, retainedBytes := 0 })
          |>.bindFresh key ⟨some val, false, 1, oldCell.retainedMeter, oldCell.retainedBytes⟩
      else e.bindFresh key ⟨some val, false, 1, none, 0⟩
    .ok (e.bumpNameGen.afterWrite via key 0 0)

/-- One namespace of `deleteName`: the cell becomes a tombstone. -/
def deleteKey (e : Env V) (via : Option Nat) (key : RegistrationKey) : Env V :=
  match e.bound key with
  | some (i, cell) =>
    if cell.v.isSome || cell.canonical then
      let e := e.beforeWrite via key
      let e := e.updateCell key i fun c =>
        { c with v := none, canonical := false, version := c.version + 1 }
      e.afterWrite via key 0 0
    else e
  | none => e

def deleteName (e : Env V) (via : Option Nat) (name : String) : Env V :=
  (e.deleteKey via ⟨name, false⟩).deleteKey via ⟨name, true⟩

/-- What `Rebuild` does with a bound cell: keep it at a number of bytes, or drop it. -/
def rebuiltBytes (e : Env V) (key : RegistrationKey) (i : Nat) : Option Int := do
  let cell ← (e.cells key)[i]?
  match cell.v with
  | none => if Registration.pins e.reg key i cell then some cell.retainedBytes else none
  | some v =>
    some (if cell.retainedBytes > 0 then cell.retainedBytes
      else retainedBindingBytes key.name v)

/-- The charge that `Rebuild` releases with a dropped cell. -/
def droppedRelease (cell : Cell V) : List RetainedRelease :=
  cell.retainedMeter.toList.map fun m => ⟨m, cell.retainedBytes, 1⟩

/-- What `Rebuild` returns besides the environment. -/
structure Rebuilt (V : Type) where
  env : Env V
  freedBytes : Int
  freedSlots : Int
  releases : List RetainedRelease

/-- `Rebuild`: drop the tombstones that no registration pins and count what is left. -/
def rebuild (e : Env V) : Rebuilt V :=
  let binds := Keyed.keep e.binds fun key i => (e.rebuiltBytes key i).isSome
  let dropped := e.binds.entries.filterMap fun x =>
    if (e.rebuiltBytes x.1 x.2).isSome then none else (e.cells x.1)[x.2]?
  { env := { e with
      binds := binds
      retainedBytes := (e.binds.entries.filterMap fun x => e.rebuiltBytes x.1 x.2).sum
      retainedSlots := binds.entries.length
      newNameGen := e.newNameGen + 1 }
    freedBytes := (dropped.map Cell.retainedBytes).sum
    freedSlots := dropped.length
    releases := dropped.flatMap droppedRelease }

/-- One staged binding of a merge; no cell means that one is made at commit. -/
structure MergeCellCommit (V : Type) where
  key : RegistrationKey
  src : Cell V
  cell : Option Nat
  canonical : Bool

structure MergePlan (V : Type) where
  commits : List (MergeCellCommit V)
  releases : List RetainedRelease
  bytes : Int
  slots : Int

def MergePlan.add (p : MergePlan V) (target : Env V) (key : RegistrationKey) (src : Cell V)
    (canonical : Bool) : Except String (MergePlan V) :=
  match target.bound key with
  | none => do
      target.reserveRetainedBindings (p.bytes + src.retainedBytes) (p.slots + 1)
      return { p with
        bytes := p.bytes + src.retainedBytes
        slots := p.slots + 1
        commits := p.commits ++ [⟨key, src, none, canonical⟩] }
  | some (i, cell) =>
    .ok { p with
      bytes := p.bytes + (src.retainedBytes - cell.retainedBytes)
      releases := p.releases ++ droppedRelease cell
      commits := p.commits ++ [⟨key, src, some i, canonical⟩] }

def MergeCellCommit.write (c : MergeCellCommit V) (cell : Cell V) : Cell V :=
  { v := c.src.v
    canonical := c.canonical
    version := cell.version + 1
    retainedMeter := c.src.retainedMeter
    retainedBytes := c.src.retainedBytes }

/-- One commit of `applyMergePlan`. -/
def applyCommit (via : Option Nat) (e : Env V) (c : MergeCellCommit V) : Env V :=
  let e := e.beforeWrite via c.key
  let (e, i) :=
    match c.cell with
    | some i => (e, i)
    | none =>
      let (e, i) := e.localCell c.key
      (e.bumpNameGen, i)
  let e := e.updateCell c.key i c.write
  let isNew := c.cell.isNone
  e.afterWrite via c.key (if isNew then c.src.retainedBytes else 0) (if isNew then 1 else 0)

def liveBindings (src : Env V) : List (RegistrationKey × Cell V) :=
  let all := src.binds.entries.filterMap fun x =>
    ((src.cells x.1)[x.2]?.filter fun c => c.v.isSome).map fun c => (x.1, c)
  all.filter (fun x => !x.1.fn) ++ all.filter fun x => x.1.fn

/-- `mergeInto`, with the charges to release. -/
def mergeInto (src target : Env V) (via : Option Nat) (canonical : Bool) :
    Except String (Env V × List RetainedRelease) := do
  let plan ← src.liveBindings.foldlM
    (fun p x => MergePlan.add p target x.1 x.2 canonical) ⟨[], [], 0, 0⟩
  let e := plan.commits.foldl (applyCommit via) target
  return ({ e with
    retainedBytes := e.retainedBytes + plan.bytes
    retainedSlots := e.retainedSlots + plan.slots }, plan.releases)

/-- `BeginRegistration`; a root runs one registration at a time. -/
def beginRegistration (e : Env V) : Except String (Env V) :=
  match e.reg with
  | some _ => .error "environment already has an active registration"
  | none => .ok { e with reg := some ⟨e.nextReg, ∅⟩, nextReg := e.nextReg + 1 }

def complete (e : Env V) (id : Nat) : Env V :=
  if e.reg.any fun r => r.id == id then { e with reg := none } else e

/-- `Abort` in progress: whether anything was restored, and the charges to release. -/
structure Aborting (V : Type) where
  root : Env V
  restored : Bool
  releases : List RetainedRelease

/-- Take back the cell an operation bound: its capacity is refunded, its settled charge
released, and it becomes a tombstone. -/
def withdraw (e : Env V) (key : RegistrationKey) (i : Nat) (ent : RegistrationEntry V) : Env V :=
  let e := { e with
    retainedBytes := e.retainedBytes - ent.bytes
    retainedSlots := e.retainedSlots - ent.slots }
  e.updateCell key i fun c =>
    { c with
      retainedMeter := none
      retainedBytes := if c.retainedMeter.isSome then 0 else c.retainedBytes
      v := none
      canonical := false
      version := c.version + 1 }

/-- One key of `Abort`. It is restored only while the operation still owns it. -/
def abortEntry (st : Aborting V) (key : RegistrationKey) (ent : RegistrationEntry V) :
    Aborting V :=
  match st.root.bound key with
  | none => st
  | some (i, cell) =>
    if !Registration.owns ent i cell then st
    else
      match ent.prior with
      | none =>
        let root := st.root.withdraw key i ent
        ⟨{ root with binds := root.binds.erase key }, true, st.releases ++ droppedRelease cell⟩
      | some prior =>
        if prior = i then
          ⟨st.root.updateCell key i fun c =>
            { c with v := ent.v, canonical := ent.canonical, version := c.version + 1 },
            true, st.releases⟩
        else
          let root := { st.root with binds := st.root.binds.insert key prior }
          let root := root.updateCell key prior fun c =>
            { c with v := ent.v, canonical := ent.canonical, version := c.version + 1 }
          ⟨root.withdraw key i ent, true, st.releases ++ droppedRelease cell⟩

/-- `Abort`, with the charges to release. -/
def abort (e : Env V) (id : Nat) : Env V × List RetainedRelease :=
  match e.reg with
  | none => (e, [])
  | some r =>
    if r.id ≠ id then (e, [])
    else
      let st := r.entries.foldl (fun st key ent => abortEntry st key ent) ⟨e, false, []⟩
      let root := if st.restored then
          { st.root with
            newNameGen := st.root.newNameGen + 1
            macroEpoch := st.root.macroEpoch + 1 }
        else st.root
      ({ root with reg := none }, st.releases)

/-- A write to a root environment, or the beginning or end of a registration. -/
inductive Write (V : Type) where
  | set (via : Option Nat) (key : RegistrationKey) (val : V) (canonical ifVacant : Bool)
      (charge : Charge)
  | setBoth (via : Option Nat) (name : String) (val : V) (canonical ifVacant : Bool)
      (charge : Charge)
  | replaceCell (via : Option Nat) (name : String) (val : V) (charge : Charge)
  | delete (via : Option Nat) (name : String)
  | rebuild
  | mergeInto (src : Env V) (via : Option Nat) (canonical : Bool)
  | beginRegistration
  | complete (id : Nat)
  | abort (id : Nat)

/-- The result of a call that can fail; a failed one leaves the environment. -/
def orSame (e : Env V) : Except String (Env V) → Env V
  | .ok e' => e'
  | .error _ => e

def Write.apply (e : Env V) : Write V → Env V
  | .set via key val canonical ifVacant charge =>
    e.orSame ((e.setLocked via key val canonical ifVacant charge).map Prod.fst)
  | .setBoth via name val canonical ifVacant charge =>
    e.orSame ((e.setBothLocked via name val canonical ifVacant charge).map Prod.fst)
  | .replaceCell via name val charge => e.orSame (e.replaceCell via name val charge)
  | .delete via name => e.deleteName via name
  | .rebuild => e.rebuild.env
  | .mergeInto src via canonical => e.orSame ((src.mergeInto e via canonical).map Prod.fst)
  | .beginRegistration => e.orSame e.beginRegistration
  | .complete id => e.complete id
  | .abort id => (e.abort id).1

end

end Env

end Core

end Lispico
