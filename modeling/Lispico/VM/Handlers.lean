import Lispico.Core.CaughtErrors
import Lispico.VM.Machine

/-!
# Handlers of the machine

An error that an operation raises goes to the innermost live handler, unless it is
terminal or the settlement before the handler fails. Only such errors, faults of the
bytecode, and errors no handler waits for leave a step.
-/

namespace Lispico

namespace VM

open Lispico.Core Lib Lib.Comp

namespace Machine

def handler (vm : Machine) : Option Handler := (liveHandlers vm.handlers vm.frames.length).head?

structure Entered (vm : Machine) (h : Handler) (value : Value) (vm' : Machine) : Prop where
  frames : vm'.frames.length = h.frameDepth
  addr : vm'.frames.head?.map Frame.ip = some h.addr
  chunk : vm'.frames.head?.map Frame.chunk =
    (vm.frames.drop (vm.frames.length - h.frameDepth)).head?.map Frame.chunk
  stack : vm'.stack = vm.stack.take h.stackDepth ++ [value]
  handlers : vm'.handlers = (liveHandlers vm.handlers vm.frames.length).tail

theorem liveHandlers_cons_le {handlers hs : List Handler} {n : Nat} {h : Handler}
    (hlive : liveHandlers handlers n = h :: hs) : h.frameDepth ≤ n := by
  have hnot := List.head?_dropWhile_not (fun h : Handler => decide (n < h.frameDepth)) handlers
  unfold liveHandlers at hlive
  rw [hlive] at hnot
  simpa using hnot

theorem throw_of_handler {vm : Machine} {h : Handler} (value : Value) (hh : vm.handler = some h) :
    ∃ vm', vm.throw value = some vm' ∧ vm.Entered h value vm' := by
  unfold handler at hh
  cases hlive : liveHandlers vm.handlers vm.frames.length with
  | nil => simp [hlive] at hh
  | cons h' hs =>
    rw [hlive] at hh
    cases hh
    have hle := liveHandlers_cons_le hlive
    have hpos := h.frameDepth_pos
    have hlength : (vm.frames.drop (vm.frames.length - h.frameDepth)).length = h.frameDepth := by
      rw [List.length_drop]
      omega
    cases hframes : vm.frames.drop (vm.frames.length - h.frameDepth) with
    | nil =>
      rw [hframes] at hlength
      simp only [List.length_nil] at hlength
      omega
    | cons f fs =>
      rw [hframes] at hlength
      refine ⟨_, by simp only [throw, hlive, hframes]; rfl, ?_⟩
      exact ⟨by simpa using hlength, rfl, by simp [hframes], rfl, by simp [hlive]⟩

theorem throw_eq_none {vm : Machine} {value : Value} (h : vm.throw value = none) :
    vm.handler = none := by
  cases hh : vm.handler with
  | none => rfl
  | some handler =>
    obtain ⟨vm', hthrow, -⟩ := throw_of_handler value hh
    rw [h] at hthrow
    cases hthrow

end Machine

section Routing

variable {σ : Type} (S : Setup σ)

def IsFault (err : GoErr) : Prop := ∃ message, err = bytecodeError message

/-- An error is the answer of a settlement or a cancellation check. -/
def Settles (err : GoErr) : Prop := ∃ host, (S.engine.poll host).1 = some err

/-- A world in which the settlements before a handler succeed, and the world after them. -/
def settle (w : World σ) : Option (World σ) :=
  match (S.engine.pollCancel >>= fun _ => S.engine.pollCancel) w with
  | some (.ok (), w') => some w'
  | _ => none

theorem pollCancel_meets : Meets NoneTerminal (Settles S) S.engine.pollCancel := by
  intro w r w' h
  refine ⟨fun hw => pollCancel_safe S.engine w r w' hw h, ?_⟩
  rintro err rfl
  unfold Engine.pollCancel at h
  split at h
  · cases h
  · rename_i err' host heq
    cases h
    exact ⟨w.host, by rw [heq]⟩

/-- An error that is not terminal is bound by the innermost live handler, once the
settlements have succeeded. -/
theorem routeRuntimeError_binds {vm : Machine} {err : GoErr} {h : Handler} {w w' : World σ}
    (herr : ¬err.Terminal) (hh : vm.handler = some h) (hw : settle S w = some w') :
    ∃ vm', vm.Entered h (handlerValue err) vm' ∧ routeRuntimeError S vm err w =
        some (.ok vm', { w' with caught := w'.caught ++ [⟨err, handlerValue err⟩] }) := by
  obtain ⟨vm', hthrow, hentered⟩ := Machine.throw_of_handler (handlerValue err) hh
  refine ⟨vm', hentered, ?_⟩
  have hterminal : ¬err.isTerminalEvalError = true := by
    rwa [GoErr.isTerminalEvalError_iff]
  unfold settle at hw
  split at hw
  · rename_i t hpolls
    cases hw
    unfold routeRuntimeError
    rw [if_neg hterminal, ← bind_assoc', bind_of_ok _ hpolls]
    unfold enterHandler
    rw [hthrow]
    rfl
  · cases hw

theorem routeRuntimeError_meets (vm : Machine) (err : GoErr) :
    Meets NoneTerminal (fun e => Settles S e ∨ e = err ∧ (err.Terminal ∨ vm.handler = none))
      (routeRuntimeError S vm err) := by
  have hpoll := (pollCancel_meets S).mono fun e he =>
    (.inl he : Settles S e ∨ e = err ∧ (err.Terminal ∨ vm.handler = none))
  unfold routeRuntimeError
  split
  · rename_i hterminal
    rw [GoErr.isTerminalEvalError_iff] at hterminal
    intro w r w' h
    rcases bind_eq_some_iff.1 h with ⟨flush, t, hflush, hrest⟩ | ⟨e', t, hflush, hout⟩
    · unfold Comp.attempt at hflush
      split at hflush
      · cases hflush
      · rename_i r' w₁ hpolled
        cases hflush
        obtain ⟨hkeep, hfail⟩ := hpoll _ _ _ hpolled
        cases flush with
        | ok u =>
          cases hrest
          refine ⟨hkeep, ?_⟩
          rintro _ ⟨⟩
          exact .inr ⟨rfl, .inl hterminal⟩
        | error flushErr =>
          cases hrest
          refine ⟨hkeep, ?_⟩
          rintro _ ⟨⟩
          exact hfail flushErr rfl
    · unfold Comp.attempt at hflush
      split at hflush <;> cases hflush
  · rename_i hterminal
    rw [GoErr.isTerminalEvalError_iff] at hterminal
    refine hpoll.bind fun _ => hpoll.bind fun _ => ?_
    unfold enterHandler
    split
    · exact (noteCaught_safe _ hterminal).meets_update.bind fun _ => meets_ret _
    · rename_i hthrow
      exact meets_fail (.inr ⟨rfl, .inr (Machine.throw_eq_none hthrow)⟩)

end Routing

section Operations

variable {σ : Type} (S : Setup σ) (box : Nat) (v : Value)

/-- What may leave an operation: a fault of the bytecode, the answer of a settlement, or a
throw that no handler waits for. -/
def Leaves (vm : Machine) (err : GoErr) : Prop :=
  IsFault err ∨ Settles S err ∨ vm.handler = none

/-- No terminal error is bound, and only what may leave an operation does. -/
abbrev Contained {α : Type} (vm : Machine) (m : EvalM σ α) : Prop :=
  Meets NoneTerminal (Leaves S vm) m

theorem newThrowError_not_terminal (string : Value → String) (value : Value) :
    ¬(newThrowError string value).Terminal := by
  rw [← GoErr.isTerminalEvalError_eq_false]
  cases value <;> rfl

theorem loadBox_safe : Safe (σ := σ) (loadBox box) := preserves_step fun _ h => h

theorem storeBox_safe : Safe (σ := σ) (storeBox box v) :=
  preserves_update fun _ h => h

theorem newBox_safe : Safe (σ := σ) (newBox v) := preserves_step fun _ h => h

theorem resolveOperator_safe (env : List Nat) (func : Bool) (name : String) :
    Safe (σ := σ) (resolveOperator env func name) :=
  preserves_step fun _ h => h

theorem boxCaptured_safe (captured : List Bool) (slots : List Value) :
    Safe (σ := σ) (boxCaptured captured slots) := by
  induction captured generalizing slots with
  | nil => exact preserves_ret slots
  | cons c captured ih =>
    cases slots with
    | nil => exact preserves_ret []
    | cons slot slots =>
      have hslot : Safe (σ := σ) (boxSlot c slot) :=
        preserves_ite ((newBox_safe slot).map _) (preserves_ret slot)
      exact hslot.bind fun _ => (ih slots).bind fun _ => preserves_ret _

theorem enterClosure_safe (vm : Machine) (chunk : Chunk) (ref caps globals : List Nat)
    (argc : Nat) (tail : Bool) :
    Safe (σ := σ) (enterClosure vm chunk ref caps globals argc tail) := by
  refine (boxCaptured_safe _ _).bind fun slots => ?_
  split <;> exact preserves_ret _

variable {S} {vm : Machine} {f : Frame} {a : Nat} (func : Bool) (name : String)

theorem meets_fault {α : Type} (message : String) :
    Contained S vm (Comp.fail (bytecodeError message) : EvalM σ α) :=
  meets_fail (.inl ⟨message, rfl⟩)

theorem peek_meets : Contained S vm (Comp.lift (peek vm)) := by
  refine meets_lift fun e he => ?_
  unfold peek at he
  split at he
  · cases he
  · cases he
    exact .inl ⟨_, rfl⟩

theorem boxAt_meets : Contained S vm (Comp.lift (boxAt vm f a)) := by
  refine meets_lift fun e he => ?_
  unfold boxAt at he
  split at he
  · cases he
    exact .inl ⟨_, rfl⟩
  · cases he
  · cases he
    exact .inl ⟨_, rfl⟩

theorem captureBoxes_error {vm : Machine} {f : Frame} {descs : List CapDesc} {e : GoErr}
    (h : captureBoxes vm f descs = .error e) : IsFault e := by
  induction descs with
  | nil => cases h
  | cons desc descs ih =>
    cases desc with
    | fromCaps cap =>
      unfold captureBoxes at h
      split at h
      · cases h
      · cases h
      · exact ih h
    | slot slot =>
      unfold captureBoxes at h
      split at h
      · cases h
      · exact ih h
      · cases h
        exact ⟨_, rfl⟩
      · cases h

theorem raising_meets {m : EvalM σ Machine} (hm : Safe m) : Contained S vm (raising m) :=
  hm.meets_attempt.bind fun _ => meets_ret _

theorem orPanic_meets (vm' : Option Machine) : Contained S vm (orPanic vm') := by
  cases vm' <;> exact meets_ret _

theorem withSymbol_meets {k : String → EvalM σ Raised} (hk : ∀ name, Contained S vm (k name)) :
    Contained S vm (withSymbol f a k) := by
  unfold withSymbol
  split
  · exact hk _
  · exact meets_ret _

theorem doReturn_meets (fs : List Frame) : Contained S vm (doReturn S vm f fs) := by
  have hpoll := (pollCancel_meets S).mono fun e he => (.inr (.inl he) : Leaves S vm e)
  refine peek_meets.bind fun result => ?_
  cases fs with
  | nil => exact hpoll.bind fun _ => hpoll.bind fun _ => meets_ret _
  | cons g fs => exact meets_ret _

theorem doThrow_meets : Contained S vm (doThrow S vm) := by
  refine peek_meets.bind fun value => ?_
  split
  · have hnote := noteCaught_safe (σ := σ) value (newThrowError_not_terminal S.engine.string value)
    exact hnote.meets_update.bind fun _ => meets_ret _
  · rename_i hthrow
    exact meets_fail (.inr (.inr (Machine.throw_eq_none hthrow : vm.drop.handler = none)))

theorem doDefMacro_meets : Contained S vm (doDefMacro vm f a func) := by
  unfold doDefMacro
  split
  · cases func with
    | true => exact (setFuncVar_safe _ _ _).meets_update.bind fun _ => meets_ret _
    | false => exact (setVar_safe _ _ _).meets_update.bind fun _ => meets_ret _
  · exact meets_ret _

theorem doMakeMap_meets : Contained S vm (doMakeMap vm a) := by
  unfold doMakeMap
  refine meets_ite (meets_fault _) ?_
  split <;> exact meets_ret _

theorem pushGlobal_safe : Safe (σ := σ) (pushGlobal vm f func name) := by
  refine (resolveOperator_safe _ _ _).bind fun cell => ?_
  split
  · exact preserves_fail _
  · exact preserves_ret _

theorem freeze_safe : Safe (σ := σ) (freeze vm f func name) := by
  refine (resolveOperator_safe _ _ _).bind fun cell => ?_
  split
  · exact preserves_fail _
  · exact preserves_ret _

theorem lexicalOwner_safe : Safe (lexicalOwner S f name) := by
  refine (findVar_safe _ _).bind fun owner => ?_
  split
  · exact preserves_fail _
  · exact preserves_ret _

theorem readFusedOperand_safe (kind : OperandKind) :
    Safe (σ := σ) (readFusedOperand vm f kind a) := by
  unfold readFusedOperand
  split
  · exact preserves_ret _
  · split
    · exact preserves_fail _
    · exact (loadBox_safe _).map _
    · exact preserves_ret _

end Operations

section Running

variable {σ : Type} (S : Setup σ)

variable (hhost : S.host.Safe) (n : Nat) (vm : Machine) (f : Frame) (env : List Nat)
  (op : NativeOp) (argc : Nat)

include hhost

theorem call_safe (tail : Bool) : Safe (call (callees S) vm argc tail) := by
  unfold call
  refine (preserves_ret ()).bind fun _ => preserves_ite (preserves_fail _) ?_
  split
  · refine .bind ?_ fun _ => preserves_ret _
    exact (pollCancel_safe _).bind fun _ => hhost.builtin _ _ _
  · refine .bind ?_ fun _ => preserves_ret _
    exact (pollCancel_safe _).bind fun _ => hhost.lambda _ _ _
  · exact (preserves_lift _).bind fun _ => preserves_ret _
  · split
    · exact preserves_diverge
    · exact preserves_ite (preserves_fail _) (enterClosure_safe _ _ _ _ _ _ _)
  · exact preserves_fail _

theorem unfrozen_safe : Safe (dispatchNativeOp.unfrozen (callees S) vm env op argc) := by
  refine (resolveOperator_safe _ _ _).bind fun cell => ?_
  split
  · exact preserves_fail _
  · exact call_safe S hhost _ _ _

theorem dispatchNativeOp_safe : Safe (dispatchNativeOp (callees S) vm env op argc) := by
  unfold dispatchNativeOp
  refine preserves_ite (preserves_fail _) ?_
  split
  · refine preserves_ite (preserves_ite ?_ (call_safe S hhost _ _ _))
      (unfrozen_safe S hhost _ _ _ _)
    exact (preserves_ret ()).bind fun _ => (preserves_lift _).bind fun _ => preserves_ret _
  · exact unfrozen_safe S hhost _ _ _ _

theorem dispatchFusedNativeOp_safe (idx : Nat) :
    Safe (dispatchFusedNativeOp (callees S) vm f idx) := by
  unfold dispatchFusedNativeOp
  split
  · exact preserves_ret _
  · split
    · refine (resolveOperator_safe _ _ _).bind fun cell => ?_
      split
      · exact preserves_fail _
      · refine (readFusedOperand_safe _).bind fun a => ?_
        split
        · exact preserves_ret _
        · refine (readFusedOperand_safe _).bind fun b => ?_
          split
          · exact preserves_ret _
          · refine preserves_ite ?_ ((call_safe S hhost _ _ _).bind fun _ => preserves_ret _)
            exact (preserves_lift _).bind fun _ => preserves_ret _
    · exact preserves_ret _

/-- An operation binds no terminal error, and apart from what it raises only faults,
settlements and unhandled throws leave it. -/
theorem operate_meets (fs : List Frame) (instr : Instruction) :
    Contained S vm (operate S vm f fs instr) := by
  have hgo := fun vm' =>
    (meets_ret _ : Contained S vm (continueWith vm' : EvalM σ Raised))
  obtain ⟨op, a⟩ := instr
  cases op with
  | const => exact orPanic_meets _
  | constCharged => exact orPanic_meets _
  | getGlobal => exact withSymbol_meets fun _ => raising_meets (pushGlobal_safe _ _)
  | setGlobal =>
    exact withSymbol_meets fun _ => peek_meets.bind fun _ =>
      (setVar_safe _ _ _).meets_update.bind fun _ => hgo _
  | setLexical =>
    refine withSymbol_meets fun name => peek_meets.bind fun _ => raising_meets ?_
    exact (lexicalOwner_safe name).bind fun _ => (setVar_safe _ _ _).bind fun _ =>
      preserves_ret _
  | checkLexical =>
    refine withSymbol_meets fun name => raising_meets ?_
    exact (lexicalOwner_safe name).bind fun _ => preserves_ret _
  | getLocal =>
    unfold operate
    dsimp only
    split
    · exact meets_fault _
    · exact hgo _
  | setLocal => exact meets_ite (meets_fault _) (peek_meets.bind fun _ => hgo _)
  | call => exact raising_meets (call_safe S hhost _ _ _)
  | tailCall => exact raising_meets (call_safe S hhost _ _ _)
  | ret => exact doReturn_meets fs
  | jump => exact hgo _
  | jumpIfFalse => exact peek_meets.bind fun _ => hgo _
  | pop => exact peek_meets.bind fun _ => hgo _
  | closure =>
    unfold operate
    dsimp only
    split
    · exact meets_ret _
    · refine (meets_lift fun e he => ?_).bind fun _ => orPanic_meets _
      exact .inl (captureBoxes_error he)
  | makeList => exact meets_ite (meets_fault _) (hgo _)
  | makeVector => exact meets_ite (meets_fault _) (hgo _)
  | makeMap => exact doMakeMap_meets
  | nil => exact hgo _
  | true => exact hgo _
  | false => exact hgo _
  | loop => exact hgo _
  | setupTry => exact hgo _
  | popTry => exact hgo _
  | throw => exact doThrow_meets
  | dup => exact peek_meets.bind fun _ => hgo _
  | native op => exact raising_meets (dispatchNativeOp_safe S hhost _ _ _ _)
  | freezeNative => exact withSymbol_meets fun _ => raising_meets (freeze_safe _ _)
  | freezeNativeFunc => exact withSymbol_meets fun _ => raising_meets (freeze_safe _ _)
  | getFunc => exact withSymbol_meets fun _ => raising_meets (pushGlobal_safe _ _)
  | setFunc =>
    exact withSymbol_meets fun _ => peek_meets.bind fun _ =>
      (setFuncVar_safe _ _ _).meets_update.bind fun _ => hgo _
  | structEnter => exact hgo _
  | structLeave => exact hgo _
  | getCell => exact boxAt_meets.bind fun _ => (loadBox_safe _).meets_step.bind fun _ => hgo _
  | setCell =>
    exact boxAt_meets.bind fun _ => peek_meets.bind fun _ =>
      (storeBox_safe _ _).meets_update.bind fun _ => hgo _
  | bindCell =>
    exact meets_ite (meets_fault _)
      (peek_meets.bind fun _ => (newBox_safe _).meets_step.bind fun _ => hgo _)
  | getCap =>
    unfold operate
    dsimp only
    split
    · exact meets_fault _
    · exact (loadBox_safe _).meets_step.bind fun _ => hgo _
  | setCap =>
    unfold operate
    dsimp only
    split
    · exact meets_fault _
    · exact peek_meets.bind fun _ => (storeBox_safe _ _).meets_update.bind fun _ => hgo _
  | defMacro => exact doDefMacro_meets false
  | defMacroFunc => exact doDefMacro_meets true
  | fusedNativeOp =>
    refine (dispatchFusedNativeOp_safe S hhost _ _ _).meets_attempt.bind fun r => ?_
    rcases r with e | _ | vm'
    · exact meets_ret _
    · exact meets_ret _
    · exact hgo _

/-- An error that leaves a step is terminal, or leaves its operation, or no handler waits
for it. -/
theorem step_meets : Meets NoneTerminal (fun e => e.Terminal ∨ Leaves S vm e) (step S vm) := by
  have hpoll := (pollCancel_meets S).mono fun e he =>
    (.inr (.inr (.inl he)) : e.Terminal ∨ Leaves S vm e)
  refine hpoll.bind fun _ => ?_
  split
  · exact meets_ret _
  · rename_i f fs hframes
    split
    · exact meets_ret _
    · rename_i instr hinstr
      have hhandler : ({ vm with frames := f.next :: fs } : Machine).handler = vm.handler := by
        simp [Machine.handler, hframes]
      have hleaves : ∀ e, Leaves S { vm with frames := f.next :: fs } e → Leaves S vm e := by
        intro e he
        rwa [Leaves, hhandler] at he
      have hoperate := operate_meets S hhost { vm with frames := f.next :: fs } f.next fs instr
      refine (hoperate.mono fun e he => .inr (hleaves e he)).bind fun r => ?_
      cases r with
      | ok next => exact meets_ret next
      | error err =>
        refine ((routeRuntimeError_meets S _ err).mono fun e he => ?_).bind fun _ => meets_ret _
        rcases he with he | ⟨rfl, he | he⟩
        · exact .inr (.inr (.inl he))
        · exact .inl he
        · exact .inr (.inr (.inr (hhandler ▸ he)))

theorem loop_safe : Safe (loop S n vm) := by
  induction n generalizing vm with
  | zero => exact preserves_diverge
  | succ n ih =>
    refine (step_meets S hhost vm).preserves.bind fun next => ?_
    cases next with
    | running vm => exact ih vm
    | returned v => exact preserves_ret v
    | panicked => exact preserves_diverge

theorem run_safe : Safe (run S n vm) := by
  have hloop := (pollCancel_safe S.engine).bind fun _ => loop_safe S hhost n vm
  refine hloop.attempt.bind fun r => ?_
  cases r with
  | ok v => exact preserves_ret v
  | error err =>
    refine (pollCancel_safe S.engine).attempt.bind fun flush => ?_
    cases flush <;> exact preserves_fail _

theorem applyClosure_safe (ref caps globals : List Nat) (args : List Value) :
    Safe (applyClosure S n ref caps globals args) :=
  (call_safe S hhost _ _ _).bind fun vm => run_safe S hhost n vm

end Running

end VM

end Lispico
