import Lispico.VM.Handlers

/-!
# Fused native instructions

A native operator of two operands that are locals or constants is one instruction instead of
four: the freeze of the operator, the two operands and the operator. The machine is the one of
`Machine` with the allocation bytes that are still to be charged; it keeps its state when an
operation fails, and only its callees are its own.
-/

namespace Lispico

namespace VM

open Lispico.Core Lib Lib.Comp

/-- A machine with its pending allocation bytes, in the world of its evaluation. -/
structure Metered (σ : Type) where
  vm : Machine
  pendingAlloc : Nat
  world : World σ

abbrev MeterM (σ : Type) := Comp (Metered σ) GoErr

structure Natives (σ : Type) where
  execNative : NativeOp → List Value → Except GoErr Value
  /-- The bits of the quotient of two integers as floats. -/
  floatDiv : Int64 → Int64 → UInt64
  /-- The walk of `boundedEqArgs` over arguments of which there is at least one. -/
  boundedEq : List Value → EvalM σ Value
  chargeAllocBytes : Nat → EvalM σ Unit
  shallowBytes : Value → Nat
  /-- The builtin that has just returned charged its own result. -/
  charged : World σ → Bool

namespace Metered

variable {σ : Type}

/-- The same machine, with the counter of the top frame moved on. -/
def skip (s : Metered σ) (n : Nat) : Metered σ :=
  match s.vm.frames with
  | [] => s
  | f :: fs => { s with vm := { s.vm with frames := { f with ip := f.ip + n } :: fs } }

/-- `Reset`, of what is modelled. -/
def reset (s : Metered σ) : Metered σ :=
  { s with vm := ⟨[], [], [], [], 0, 0⟩, pendingAlloc := 0 }

end Metered

def hasStructuralArg (values : List Value) : Bool :=
  values.any fun
    | .list _ | .vector _ | .map _ => true
    | _ => false

section Steps

variable {σ : Type} (S : Setup σ) (N : Natives σ)

def onWorld {α : Type} (m : EvalM σ α) : MeterM σ α := fun s =>
  match m s.world with
  | none => none
  | some (r, w) => some (r, { s with world := w })

def getVM : MeterM σ Machine := Comp.step fun s => (s.vm, s)

def setVM (vm : Machine) : MeterM σ Unit := Comp.update fun s => { s with vm := vm }

def pendingAllocBytes (n : Nat) : MeterM σ Unit :=
  Comp.update fun s => { s with pendingAlloc := s.pendingAlloc + n }

def flushPendingAlloc : MeterM σ Unit := fun s =>
  if s.pendingAlloc = 0 then some (.ok (), s)
  else onWorld (N.chargeAllocBytes s.pendingAlloc) { s with pendingAlloc := 0 }

/-- `reentrantCtx`: what has been counted is settled. -/
def reentrantCtx : MeterM σ Unit := do
  onWorld S.engine.pollCancel
  flushPendingAlloc N

def boundedEqArgs (args : List Value) : MeterM σ Value :=
  match args with
  | [] => fail (.lispico ⟨"ArityError", "=: requires at least 1 argument", "", 0, 0⟩ none)
  | _ :: _ => do
      reentrantCtx S N
      onWorld (N.boundedEq args)

/-- `nativeInt2`; division by zero is left to the general operators. -/
def nativeInt2 (op : NativeOp) (a b : Int64) : Option Value :=
  match op with
  | .add => some (.int (a + b))
  | .sub => some (.int (a - b))
  | .mul => some (.int (a * b))
  | .div => if b = 0 then none else some (.float (N.floatDiv a b))
  | .lt => some (.bool (a < b))
  | .gt => some (.bool (a > b))
  | .le => some (.bool (a ≤ b))
  | .ge => some (.bool (a ≥ b))
  | .eq => some (.bool (a == b))

/-- The allocation bytes of a scalar, `MeterScalarBytes`. -/
def meterScalarBytes : Nat := 16

def nativeFast (op : NativeOp) (args : List Value) : Option Value :=
  match args with
  | [.int a, .int b] => nativeInt2 N op a b
  | _ => none

/-- `execNativeFastFused` of the arguments on the stack, `execFusedNative` of two operands. -/
def execFusedNative (op : NativeOp) (args : List Value) : MeterM σ Value :=
  match nativeFast N op args with
  | some result => ret result
  | none =>
    if op = .eq ∧ hasStructuralArg args then boundedEqArgs S N args
    else lift (N.execNative op args)

/-- The callees of a metered machine. -/
def meteredCallees : Callees σ (MeterM σ) where
  chunkAt := S.chunkAt
  keep := setVM
  run := onWorld
  builtin f args env := do
    flushPendingAlloc N
    reentrantCtx S N
    onWorld S.engine.pollCancel
    let result ← onWorld (S.host.builtin f args env)
    let charged ← Comp.step fun s => (N.charged s.world, s)
    pendingAllocBytes (if charged then 0 else N.shallowBytes result)
    ret result
  lambda fn args env := do
    reentrantCtx S N
    onWorld (S.host.lambda fn args env)
  native op args := do
    let result ← execFusedNative S N op args
    pendingAllocBytes meterScalarBytes
    ret result

/-- The operation of an instruction that reads, after its frame has moved on. -/
def performOther (vm : Machine) (f : Frame) (fs : List Frame) (instr : Instruction) :
    MeterM σ Unit := do
  let r ← onWorld (operate S vm f fs instr)
  match r with
  | .ok (.running vm) => setVM vm
  | .ok _ => diverge
  | .error err => fail err

/-- Execute an instruction in the top frame, up to the routing of its errors. -/
def perform (instr : Instruction) : MeterM σ Unit := do
  let vm ← getVM
  match vm.frames with
  | [] => diverge
  | f :: fs => do
      let vm := { vm with frames := f.next :: fs }
      setVM vm
      match instr.op with
      | .native op => do
          let vm ← dispatchNativeOp (meteredCallees S N) vm f.env op instr.a
          setVM vm
      | .fusedNativeOp => do
          let r ← dispatchFusedNativeOp (meteredCallees S N) vm f.next instr.a
          r.elim diverge setVM
      | _ => performOther S vm f.next fs instr

/-- Execute instructions one after the other, up to the first error. -/
def performAll : List Instruction → MeterM σ Unit
  | [] => ret ()
  | instr :: instrs => do
      perform S N instr
      performAll instrs

/-- `Reset`, and an error that leaves the machine. -/
def resetWith (err : GoErr) : MeterM σ Unit := do
  Comp.update Metered.reset
  fail err

def route (err : GoErr) : MeterM σ Unit :=
  if err.isTerminalEvalError then do
    let flush ← (flushPendingAlloc N).attempt
    match flush with
    | .error flushErr => resetWith flushErr
    | .ok () => resetWith err
  else do
    let settled ← (reentrantCtx S N).attempt
    match settled with
    | .error flushErr => resetWith flushErr
    | .ok () => do
        let vm ← getVM
        match vm.throw (handlerValue err) with
        | some vm => do
            onWorld (noteCaught err (handlerValue err))
            setVM vm
        | none => fail err

def routed (m : MeterM σ Unit) : MeterM σ Unit := do
  let r ← m.attempt
  match r with
  | .ok () => ret ()
  | .error err => route S N err

end Steps

/-- The instruction for an operand on its own: a captured local is read through its cell, and
`nil` and the booleans have instructions of their own. -/
def operandInstruction (chunk : Chunk) (kind : OperandKind) (i : Nat) : Instruction :=
  match kind with
  | .local => if chunk.captured.getD i false then ⟨.getCell, i⟩ else ⟨.getLocal, i⟩
  | .const =>
    match chunk.constants[i]? with
    | some .nil => ⟨.nil, 0⟩
    | some (.bool true) => ⟨.true, 0⟩
    | some (.bool false) => ⟨.false, 0⟩
    | _ => ⟨.const, i⟩

def freezeInstruction (fo : FusedOp) : Instruction :=
  ⟨if fo.func then .freezeNativeFunc else .freezeNative, fo.sym⟩

def unfused (chunk : Chunk) (fo : FusedOp) : List Instruction :=
  [freezeInstruction fo, operandInstruction chunk fo.aKind fo.a,
    operandInstruction chunk fo.bKind fo.b, ⟨.native fo.op, 2⟩]

end VM

end Lispico
