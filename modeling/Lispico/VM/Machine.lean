import Lispico.Core.Evaluator
import Lispico.VM.Chunk

/-!
# The virtual machine

A machine has a value stack, which grows at its end, and stacks of frames, handlers and frozen
operators, whose tops come first. No depth limits are configured. Settlements and cancellation
checks are polls; a global is read from its scope, without its site. A step that would panic
gives `panicked`.
-/

namespace Lispico

namespace VM

open Lispico.Core Lib Lib.Comp

/-- A call frame: the chunk and its place in the program, the next instruction, the first
stack slot, the environment of globals and the captured boxes. -/
structure Frame where
  chunk : Chunk
  ref : List Nat
  ip : Nat
  base : Nat
  env : List Nat
  caps : List Nat
  isClosure : Bool

def Frame.next (f : Frame) : Frame := { f with ip := f.ip + 1 }

/-- An active handler; the frame that set it up is counted in its depth. -/
structure Handler where
  addr : Nat
  frameDepth : Nat
  stackDepth : Nat
  freezeDepth : Nat
  structDepth : Int
  frameDepth_pos : 0 < frameDepth

/-- A frozen operator: the native operator, if its binding was canonical, and the value. -/
structure FreezeRec where
  depth : Nat
  op : Option NativeOp
  val : Value

structure Machine where
  stack : List Value
  frames : List Frame
  handlers : List Handler
  freezeStack : List FreezeRec
  depth : Nat
  structDepth : Int

inductive Next where
  | running (vm : Machine)
  | returned (v : Value)
  | panicked

/-- What the machine takes from outside: the evaluation's engine and host, the chunks
closures refer to, and the native operators. -/
structure Setup (σ : Type) where
  engine : Engine σ
  host : Host σ
  chunkAt : List Nat → Option Chunk
  native : NativeOp → List Value → Except GoErr Value

def bytecodeError (message : String) : GoErr := .lispico ⟨"BytecodeError", message, "", 0, 0⟩ none

def newThrowError (string : Value → String) (value : Value) : GoErr :=
  match value with
  | .string s => .thrown value ⟨"ThrowError", s, "", 0, 0⟩
  | _ => .thrown value ⟨"ThrowError", string value, "", 0, 0⟩

def setLexicalError (quote : String → String) (name : String) : GoErr :=
  .parity (newUndefinedError name)
    (evalErrorf ("set!: cannot mutate undefined variable " ++ quote name)).error

namespace Machine

def push (vm : Machine) (v : Value) : Machine := { vm with stack := vm.stack ++ [v] }

def drop (vm : Machine) : Machine := { vm with stack := vm.stack.dropLast }

def goto (vm : Machine) (ip : Nat) : Machine :=
  match vm.frames with
  | [] => vm
  | f :: fs => { vm with frames := { f with ip := ip } :: fs }

def reserveLocals (vm : Machine) (base locals : Nat) : Machine :=
  if locals = 0 then vm
  else
    { vm with
      stack := (vm.stack ++ List.replicate (base + locals - vm.stack.length) Value.nil).take
        (base + locals) }

def unwindDepth (depth : Nat) : List Frame → Nat
  | [] => depth
  | f :: fs => unwindDepth (if f.isClosure then depth - 1 else depth) fs

/-- The handlers whose frame is among the first `frames` ones or deeper. -/
def liveHandlers (handlers : List Handler) (frames : Nat) : List Handler :=
  handlers.dropWhile fun h => frames < h.frameDepth

/-- `throw`: the machine at its innermost live handler, if it has one. -/
def throw (vm : Machine) (value : Value) : Option Machine :=
  match liveHandlers vm.handlers vm.frames.length with
  | [] => none
  | h :: hs =>
    let popped := vm.frames.length - h.frameDepth
    match vm.frames.drop popped with
    | [] => none
    | f :: fs =>
      some {
        stack := vm.stack.take h.stackDepth ++ [value]
        frames := { f with ip := h.addr } :: fs
        handlers := hs
        freezeStack := vm.freezeStack.drop (vm.freezeStack.length - h.freezeDepth)
        depth := unwindDepth vm.depth (vm.frames.take popped)
        structDepth := h.structDepth }

def splice (vm : Machine) (argc : Nat) (v : Value) : Machine :=
  { vm with
    stack := vm.stack.take (vm.stack.length - argc) ++ [v]
      ++ vm.stack.drop (vm.stack.length - argc) }

def top (vm : Machine) (n : Nat) : List Value := vm.stack.drop (vm.stack.length - n)

/-- Replace the top `n` values by one. -/
def collapse (vm : Machine) (n : Nat) (v : Value) : Machine :=
  { vm with stack := vm.stack.take (vm.stack.length - n) ++ [v] }

/-- `pushFreeze` at the current height. -/
def pushFreeze (vm : Machine) (op : Option NativeOp) (val : Value) : Machine :=
  { vm with freezeStack := ⟨vm.stack.length, op, val⟩ :: vm.freezeStack }

end Machine

section Steps

variable {σ : Type} (S : Setup σ)

def newBox (v : Value) : EvalM σ Nat :=
  step fun w => (w.boxes.length, { w with boxes := w.boxes ++ [v] })

def loadBox (box : Nat) : EvalM σ Value := step fun w => (w.boxes.getD box .nil, w)

def storeBox (box : Nat) (v : Value) : EvalM σ Unit :=
  update fun w => { w with boxes := w.boxes.set box v }

def boxSlot (captured : Bool) (slot : Value) : EvalM σ Value :=
  if captured then Value.cellBox <$> newBox slot else ret slot

def boxCaptured : List Bool → List Value → EvalM σ (List Value)
  | captured :: rest, slot :: slots => do
      let slot ← boxSlot captured slot
      let slots ← boxCaptured rest slots
      return slot :: slots
  | _, slots => ret slots

def handlerValue (err : GoErr) : Value :=
  match err.asCarrier with
  | some v => v
  | none => .string (err.asParity.getD err.error)

/-- Enter the innermost handler with an error that is not terminal. -/
def enterHandler (vm : Machine) (err : GoErr) : EvalM σ Machine :=
  match vm.throw (handlerValue err) with
  | some vm => do
      noteCaught err (handlerValue err)
      return vm
  | none => fail err

/-- `routeRuntimeError`: the machine in its handler, or the error that leaves it. -/
def routeRuntimeError (vm : Machine) (err : GoErr) : EvalM σ Machine :=
  if err.isTerminalEvalError then do
    let flush ← S.engine.pollCancel.attempt
    match flush with
    | .error flushErr => fail flushErr
    | .ok () => fail err
  else do
    S.engine.pollCancel
    S.engine.pollCancel
    enterHandler vm err

def frameEnv (vm : Machine) : List Nat := (vm.frames.head?.map Frame.env).getD []

/-- Enter a closure whose arguments are on top of the stack, under its own value. -/
def enterClosure (vm : Machine) (chunk : Chunk) (ref caps globals : List Nat) (argc : Nat)
    (tail : Bool) : EvalM σ Machine := do
  let args := vm.top argc
  let slots :=
    if chunk.variadic then
      args.take chunk.arity ++ [.list (args.drop chunk.arity)]
    else args
  let slots ← boxCaptured chunk.captured slots
  match tail, vm.frames with
  | true, f :: fs =>
    let vm := { vm with
      stack := vm.stack.take f.base ++ slots
      frames := ⟨chunk, ref, 0, f.base, globals, caps, true⟩ :: fs }
    return vm.reserveLocals f.base chunk.locals
  | _, frames =>
    let base := vm.stack.length - argc - 1
    let vm := { vm with
      stack := vm.stack.take base ++ slots
      frames := ⟨chunk, ref, 0, base, globals, caps, true⟩ :: frames
      depth := vm.depth + 1 }
    return vm.reserveLocals base chunk.locals

/-- `readFusedOperand`; `none` is a panic. -/
def readFusedOperand (vm : Machine) (f : Frame) (kind : OperandKind) (a : Nat) :
    EvalM σ (Option Value) :=
  match kind with
  | .const => ret f.chunk.constants[a]?
  | .local =>
    match vm.stack[f.base + a]? with
    | none => fail (bytecodeError ("local slot " ++ toString a ++ " out of range"))
    | some (.cellBox box) => some <$> loadBox box
    | some v => ret (some v)

def resolveOperator (env : List Nat) (func : Bool) (name : String) : EvalM σ (Option VarCell) :=
  step fun w =>
    (if func then w.store.getFuncCanonical env name else w.store.getCanonical env name, w)

/-- The callees of a machine in a monad that has its operations. `keep` takes the machine that a
failure leaves. -/
structure Callees (σ : Type) (m : Type → Type) where
  chunkAt : List Nat → Option Chunk
  keep : Machine → m Unit
  run : {α : Type} → EvalM σ α → m α
  builtin : Nat → List Value → List Nat → m Value
  lambda : Value → List Value → List Nat → m Value
  native : NativeOp → List Value → m Value

/-- The callees of a machine whose failures are routed from where its instruction began. -/
def callees : Callees σ (EvalM σ) where
  chunkAt := S.chunkAt
  keep _ := ret ()
  run m := m
  builtin f args env := do
    S.engine.pollCancel
    S.host.builtin f args env
  lambda fn args env := do
    S.engine.pollCancel
    S.host.lambda fn args env
  native op args := lift (S.native op args)

section Dispatch

variable {m : Type → Type} [Monad m] (C : Callees σ m)

/-- `call`: the callee stands under its arguments. An error is the caller's to route. -/
def call (vm : Machine) (argc : Nat) (tail : Bool) : m Machine := do
  C.keep vm
  if vm.stack.length < argc + 1 then
    C.run (fail (bytecodeError ("call: " ++ toString argc ++ " args exceeds stack")))
  else
    match vm.stack.getD (vm.stack.length - argc - 1) .nil with
    | .goFunc _ f => do
        let result ← C.builtin f (vm.top argc) (frameEnv vm)
        return vm.collapse (argc + 1) result
    | .lambda name params variadic body env => do
        let result ← C.lambda (.lambda name params variadic body env) (vm.top argc) (frameEnv vm)
        return vm.collapse (argc + 1) result
    | .keyword name => do
        let result ← C.run (lift (keywordLookup name (vm.top argc)))
        return vm.collapse (argc + 1) result
    | .closure ref caps globals =>
      match C.chunkAt ref with
      | none => C.run diverge
      | some chunk =>
        if chunk.variadic && argc < chunk.arity || !chunk.variadic && argc != chunk.arity then
          C.run (fail (newArityError chunk.arity argc))
        else C.run (enterClosure vm chunk ref caps globals argc tail)
    | fn => C.run (fail (.parity (newTypeError "callable" fn) (newTypeError "function" fn).error))

def dispatchNativeOp (vm : Machine) (env : List Nat) (op : NativeOp) (argc : Nat) : m Machine :=
  if vm.stack.length < argc then
    C.run (fail (bytecodeError ("native: argc=" ++ toString argc ++ " exceeds stack")))
  else
    match vm.freezeStack with
    | rec :: freeze =>
      if rec.depth = vm.stack.length - argc then
        let vm := { vm with freezeStack := freeze }
        if rec.op = some op then do
          C.keep vm
          let result ← C.native op (vm.top argc)
          return vm.collapse argc result
        else call C (vm.splice argc rec.val) argc false
      else unfrozen
    | [] => unfrozen
where
  /-- The recovery without a matching record. -/
  unfrozen : m Machine := do
    let cell ← C.run (resolveOperator env false op.symbol)
    match cell with
    | none => C.run (fail (newUndefinedError op.symbol))
    | some cell => call C (vm.splice argc cell.v) argc false

/-- `dispatchFusedNativeOp`; `none` is a panic. -/
def dispatchFusedNativeOp (vm : Machine) (f : Frame) (idx : Nat) : m (Option Machine) :=
  match f.chunk.fused[idx]? with
  | none => return none
  | some fo =>
    match f.chunk.constants[fo.sym]? with
    | some (.symbol name) => do
        let cell ← C.run (resolveOperator f.env fo.func name)
        match cell with
        | none => C.run (fail (newUndefinedError name))
        | some cell => do
            let a ← C.run (readFusedOperand vm f fo.aKind fo.a)
            match a with
            | none => return none
            | some a => do
                let b ← C.run (readFusedOperand vm f fo.bKind fo.b)
                match b with
                | none => return none
                | some b =>
                  if cell.canonical then do
                    let result ← C.native fo.op [a, b]
                    return some (vm.push result)
                  else do
                    let vm ← call C (((vm.push cell.v).push a).push b) 2 false
                    return some vm
    | _ => return none

end Dispatch

/-- What an operation leads to: the machine goes on, or an error is raised for the
handlers. An error that is the computation's own leaves the machine. -/
abbrev Raised := Except GoErr Next

def continueWith (vm : Machine) : EvalM σ Raised := ret (.ok (.running vm))

def raising (m : EvalM σ Machine) : EvalM σ Raised := do
  let r ← m.attempt
  return r.map .running

def orPanic : Option Machine → EvalM σ Raised
  | some vm => continueWith vm
  | none => ret (.ok .panicked)

def withSymbol (f : Frame) (a : Nat) (k : String → EvalM σ Raised) : EvalM σ Raised :=
  match f.chunk.constants[a]? with
  | some (.symbol name) => k name
  | _ => ret (.ok .panicked)

/-- The boxes of a new closure; `none` is a panic. -/
def captureBoxes (vm : Machine) (f : Frame) : List CapDesc → Except GoErr (Option (List Nat))
  | [] => .ok (some [])
  | .fromCaps cap :: descs =>
    match f.caps[cap]?, captureBoxes vm f descs with
    | some box, .ok (some boxes) => .ok (some (box :: boxes))
    | none, _ => .ok none
    | _, r => r
  | .slot slot :: descs =>
    match vm.stack[f.base + slot]?, captureBoxes vm f descs with
    | some (.cellBox box), .ok (some boxes) => .ok (some (box :: boxes))
    | some (.cellBox _), r => r
    | some _, _ =>
      .error (bytecodeError ("capture slot " ++ toString slot ++ " does not hold a cell"))
    | none, _ => .ok none

def pairsOf : List (Value × Value) → List Value → Except String (List (Value × Value))
  | pairs, k :: v :: rest =>
    match Value.mapSet pairs k v with
    | .ok pairs => pairsOf pairs rest
    | .error err => .error err
  | pairs, _ => .ok pairs

def boxAt (vm : Machine) (f : Frame) (a : Nat) : Except GoErr Nat :=
  match vm.stack[f.base + a]? with
  | none => .error (bytecodeError ("cell slot " ++ toString a ++ " out of range"))
  | some (.cellBox box) => .ok box
  | some _ => .error (bytecodeError ("cell slot " ++ toString a ++ " does not hold a cell"))

def peek (vm : Machine) : Except GoErr Value :=
  match vm.stack.getLast? with
  | some v => .ok v
  | none => .error (bytecodeError "stack underflow")

def freeze (vm : Machine) (f : Frame) (func : Bool) (name : String) : EvalM σ Machine := do
  let cell ← resolveOperator f.env func name
  match cell with
  | none => fail (newUndefinedError name)
  | some cell => return vm.pushFreeze (if cell.canonical then nativeOp name else none) cell.v

def pushGlobal (vm : Machine) (f : Frame) (func : Bool) (name : String) : EvalM σ Machine := do
  let cell ← resolveOperator f.env func name
  match cell with
  | none => fail (newUndefinedError name)
  | some cell => return vm.push cell.v

def lexicalOwner (f : Frame) (name : String) : EvalM σ Nat := do
  let owner ← findVar f.env name
  match owner with
  | none => fail (setLexicalError S.engine.quote name)
  | some scope => return scope

def doReturn (vm : Machine) (f : Frame) (fs : List Frame) : EvalM σ Raised := do
  let result ← lift (peek vm)
  let vm := { vm with
    stack := vm.stack.take f.base
    frames := fs
    handlers := Machine.liveHandlers vm.handlers fs.length
    depth := if f.isClosure then vm.depth - 1 else vm.depth }
  match fs with
  | [] => do
      S.engine.pollCancel
      S.engine.pollCancel
      return .ok (.returned result)
  | _ :: _ => continueWith (vm.push result)

def doThrow (vm : Machine) : EvalM σ Raised := do
  let value ← lift (peek vm)
  match vm.drop.throw value with
  | some vm => do
      noteCaught (newThrowError S.engine.string value) value
      continueWith vm
  | none => fail (newThrowError S.engine.string value)

def doDefMacro (vm : Machine) (f : Frame) (a : Nat) (func : Bool) : EvalM σ Raised :=
  match f.chunk.constants[a]? with
  | some (.macroVal name params variadic body _) => do
      let val := Value.macroVal name params variadic body f.env
      if func then setFuncVar (here f.env) name val else setVar (here f.env) name val
      continueWith (vm.push val)
  | _ => ret (.ok .panicked)

def doMakeMap (vm : Machine) (a : Nat) : EvalM σ Raised :=
  if vm.stack.length < 2 * a then
    fail (bytecodeError ("make-map: " ++ toString (2 * a) ++ " items exceeds stack"))
  else
    match pairsOf [] (vm.top (2 * a)) with
    | .ok pairs => continueWith (vm.collapse (2 * a) (.map pairs))
    | .error err =>
      ret (.error (.parity
        (.lispico ⟨"EvalError", "map literal: " ++ err, "", 0, 0⟩ (some (.plain err))) err))

/-- The operation of an instruction. The machine's program counter is already past it; `f`
is the top frame and `fs` the frames below. -/
def operate (vm : Machine) (f : Frame) (fs : List Frame) (instr : Instruction) : EvalM σ Raised :=
  let a := instr.a
  match instr.op with
  | .nil => continueWith (vm.push .nil)
  | .true => continueWith (vm.push (.bool true))
  | .false => continueWith (vm.push (.bool false))
  | .const => orPanic ((f.chunk.constants[a]?).map vm.push)
  | .constCharged => orPanic ((f.chunk.constants[a]?).map vm.push)
  | .getLocal =>
    match vm.stack[f.base + a]? with
    | none => fail (bytecodeError ("local slot " ++ toString a ++ " out of range"))
    | some v => continueWith (vm.push v)
  | .setLocal =>
    if vm.stack.length ≤ f.base + a then
      fail (bytecodeError ("local slot " ++ toString a ++ " out of range"))
    else do
      let top ← lift (peek vm)
      continueWith { vm with stack := vm.stack.set (f.base + a) top }
  | .getCell => do
      let box ← lift (boxAt vm f a)
      let v ← loadBox box
      continueWith (vm.push v)
  | .setCell => do
      let box ← lift (boxAt vm f a)
      let top ← lift (peek vm)
      storeBox box top
      continueWith vm
  | .bindCell =>
    if vm.stack.length ≤ f.base + a then
      fail (bytecodeError ("cell slot " ++ toString a ++ " out of range"))
    else do
      let top ← lift (peek vm)
      let box ← newBox top
      continueWith { vm with stack := vm.stack.set (f.base + a) (.cellBox box) }
  | .getCap =>
    match f.caps[a]? with
    | none => fail (bytecodeError ("capture index " ++ toString a ++ " out of range"))
    | some box => do
        let v ← loadBox box
        continueWith (vm.push v)
  | .setCap =>
    match f.caps[a]? with
    | none => fail (bytecodeError ("capture index " ++ toString a ++ " out of range"))
    | some box => do
        let top ← lift (peek vm)
        storeBox box top
        continueWith vm
  | .getGlobal => withSymbol f a fun name => raising (pushGlobal vm f false name)
  | .getFunc => withSymbol f a fun name => raising (pushGlobal vm f true name)
  | .freezeNative => withSymbol f a fun name => raising (freeze vm f false name)
  | .freezeNativeFunc => withSymbol f a fun name => raising (freeze vm f true name)
  | .setGlobal => withSymbol f a fun name => do
      let top ← lift (peek vm)
      setVar (here f.env) name top
      continueWith vm
  | .setFunc => withSymbol f a fun name => do
      let top ← lift (peek vm)
      setFuncVar (here f.env) name top
      continueWith vm
  | .defMacro => doDefMacro vm f a false
  | .defMacroFunc => doDefMacro vm f a true
  | .setLexical => withSymbol f a fun name => do
      let top ← lift (peek vm)
      raising do
        let scope ← lexicalOwner S f name
        setVar scope name top
        return vm
  | .checkLexical => withSymbol f a fun name => raising do
      let _ ← lexicalOwner S f name
      return vm
  | .pop => do
      let _ ← lift (peek vm)
      continueWith vm.drop
  | .jump => continueWith (vm.goto (f.ip + a))
  | .jumpIfFalse => do
      let top ← lift (peek vm)
      continueWith (if top.isTruthy then vm.drop else vm.drop.goto (f.ip + a))
  | .call => raising (call (callees S) vm a false)
  | .tailCall => raising (call (callees S) vm a true)
  | .ret => doReturn S vm f fs
  | .makeList =>
    if vm.stack.length < a then
      fail (bytecodeError ("make-list: " ++ toString a ++ " items exceeds stack"))
    else continueWith (vm.collapse a (.list (vm.top a)))
  | .makeVector =>
    if vm.stack.length < a then
      fail (bytecodeError ("make-vector: " ++ toString a ++ " items exceeds stack"))
    else continueWith (vm.collapse a (.vector (vm.top a)))
  | .makeMap => doMakeMap vm a
  | .structEnter => continueWith { vm with structDepth := vm.structDepth + a }
  | .structLeave => continueWith { vm with structDepth := vm.structDepth - a }
  | .closure =>
    match f.chunk.subChunks[a]? with
    | none => ret (.ok .panicked)
    | some sub => do
        let boxes ← lift (captureBoxes vm f sub.caps)
        orPanic (boxes.map fun boxes => vm.push (.closure (f.ref ++ [a]) boxes f.env))
  | .dup => do
      let top ← lift (peek vm)
      continueWith (vm.push top)
  | .loop => continueWith (vm.goto a)
  | .setupTry =>
    continueWith { vm with
      handlers := ⟨a, fs.length + 1, vm.stack.length, vm.freezeStack.length, vm.structDepth,
        Nat.succ_pos _⟩ :: vm.handlers }
  | .popTry => continueWith { vm with handlers := vm.handlers.tail }
  | .throw => doThrow S vm
  | .native op => raising (dispatchNativeOp (callees S) vm f.env op a)
  | .fusedNativeOp => do
      let r ← (dispatchFusedNativeOp (callees S) vm f a).attempt
      match r with
      | .ok (some vm) => continueWith vm
      | .ok none => ret (.ok .panicked)
      | .error err => ret (.error err)

/-- Execute an instruction: an error that its operation raises is routed. -/
def execute (vm : Machine) (f : Frame) (fs : List Frame) (instr : Instruction) :
    EvalM σ Next := do
  let r ← operate S vm f fs instr
  match r with
  | .ok next => return next
  | .error err => Next.running <$> routeRuntimeError S vm err

def step (vm : Machine) : EvalM σ Next := do
  S.engine.pollCancel
  match vm.frames with
  | [] => ret .panicked
  | f :: fs =>
    match f.chunk.code[f.ip]? with
    | none => ret .panicked
    | some instr => execute S { vm with frames := f.next :: fs } f.next fs instr

def loop : Nat → Machine → EvalM σ Value
  | 0, _ => diverge
  | n + 1, vm => do
      let next ← step S vm
      match next with
      | .running vm => loop n vm
      | .returned v => ret v
      | .panicked => diverge

/-- `run`: the dispatch loop, and the settlement when it fails. -/
def run (n : Nat) (vm : Machine) : EvalM σ Value := do
  let r ← (S.engine.pollCancel >>= fun _ => loop S n vm).attempt
  match r with
  | .ok v => ret v
  | .error err => do
      let flush ← S.engine.pollCancel.attempt
      match flush with
      | .error flushErr => fail flushErr
      | .ok () => fail err

def start (chunk : Chunk) (ref : List Nat) (globals : List Nat) : Machine :=
  let vm : Machine := ⟨[], [⟨chunk, ref, 0, 0, globals, [], false⟩], [], [], 0, 0⟩
  vm.reserveLocals 0 chunk.locals

def runChunk (n : Nat) (chunk : Chunk) (ref : List Nat) (globals : List Nat) : EvalM σ Value :=
  run S n (start chunk ref globals)

/-- The callable applier on a closure: `Apply` on a fresh machine. -/
def applyClosure (n : Nat) (ref caps globals : List Nat) (args : List Value) : EvalM σ Value := do
  let vm : Machine := ⟨.closure ref caps globals :: args, [], [], [], 0, 0⟩
  let vm ← call (callees S) vm args.length false
  run S n vm

end Steps

end VM

end Lispico
