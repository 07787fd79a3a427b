import Lispico.VM.FusedNative

/-!
# A fused instruction and the sequence it replaces

The two read their operands in different ways, and only the sequence has them on the stack. Both
resolve the operator first. They are compared where they end: past the sequence, in the same
frame or in the frame of a compiled function that the operator is bound to.
-/

namespace Lispico

namespace VM

open Lispico.Core Lib Lib.Comp

section Operands

variable {σ : Type} {S : Setup σ} {N : Natives σ} {s : Metered σ} {f : Frame} {fs : List Frame}

/-- The value of an operand: a constant, or the value of a local. A captured local is kept in a
cell, and no other local is. -/
def Holds (f : Frame) (stack : List Value) (w : World σ) (kind : OperandKind) (i : Nat)
    (v : Value) : Prop :=
  match kind with
  | .const => f.chunk.constants[i]? = some v
  | .local =>
    if f.chunk.captured.getD i false then
      ∃ box, stack[f.base + i]? = some (.cellBox box) ∧ w.boxes.getD box .nil = v
    else stack[f.base + i]? = some v ∧ ∀ box, v ≠ .cellBox box

variable {kind : OperandKind} {i : Nat} {v : Value} {w : World σ}

theorem Holds.push {stack : List Value} (h : Holds f stack w kind i v) (u : Value) :
    Holds f (stack ++ [u]) w kind i v := by
  have hslot : ∀ {c : Value}, stack[f.base + i]? = some c →
      (stack ++ [u])[f.base + i]? = some c := by
    intro c hc
    rw [List.getElem?_append_left (List.getElem?_eq_some_iff.mp hc).1]
    exact hc
  cases kind with
  | const => exact h
  | «local» =>
    unfold Holds at h ⊢
    dsimp only at h ⊢
    split at h
    next hcap =>
      rw [if_pos hcap]
      obtain ⟨box, hbox, hv⟩ := h
      exact ⟨box, hslot hbox, hv⟩
    next hcap =>
      rw [if_neg hcap]
      exact ⟨hslot h.1, h.2⟩

variable {vm : Machine} {instr : Instruction} {w' : World σ}

theorem performOther_of_running {vm' : Machine}
    (h : operate S vm f fs instr s.world = some (.ok (.ok (.running vm')), w')) :
    performOther S vm f fs instr s = some (.ok (), { s with vm := vm', world := w' }) := by
  have honWorld : onWorld (operate S vm f fs instr) s
      = some (.ok (.ok (.running vm')), { s with world := w' }) := by
    rw [onWorld, h]
  rw [performOther, bind_of_ok _ honWorld]
  rfl

theorem performOther_of_raised {err : GoErr}
    (h : operate S vm f fs instr s.world = some (.ok (.error err), w')) :
    performOther S vm f fs instr s = some (.error err, { s with world := w' }) := by
  have honWorld : onWorld (operate S vm f fs instr) s
      = some (.ok (.error err), { s with world := w' }) := by
    rw [onWorld, h]
  rw [performOther, bind_of_ok _ honWorld]
  rfl

/-- The state in which an instruction of the top frame is executed. -/
def advanced (s : Metered σ) (f : Frame) (fs : List Frame) : Metered σ :=
  { s with vm := { s.vm with frames := f.next :: fs } }

theorem perform_other (hf : s.vm.frames = f :: fs) (hnative : ∀ op, instr.op ≠ .native op)
    (hfused : instr.op ≠ .fusedNativeOp) :
    perform S N instr s
      = performOther S (advanced s f fs).vm f.next fs instr (advanced s f fs) := by
  have hget : getVM s = some (.ok s.vm, s) := rfl
  rw [perform, bind_of_ok _ hget, hf]
  dsimp only
  rw [bind_of_ok _ (show setVM _ s = some (.ok (), advanced s f fs) from rfl)]
  obtain ⟨op, i⟩ := instr
  cases op with
  | native op => exact absurd rfl (hnative op)
  | fusedNativeOp => exact absurd rfl hfused
  | _ => rfl

theorem operandInstruction_plain (chunk : Chunk) (kind : OperandKind) (i : Nat) :
    (∀ op, (operandInstruction chunk kind i).op ≠ .native op) ∧
      (operandInstruction chunk kind i).op ≠ .fusedNativeOp := by
  unfold operandInstruction
  split <;> split <;> exact ⟨fun _ => nofun, nofun⟩

theorem operate_operandInstruction (h : Holds f vm.stack w kind i v) :
    operate S vm f.next fs (operandInstruction f.chunk kind i) w
      = some (.ok (.ok (.running (vm.push v))), w) := by
  cases kind with
  | const =>
    have hconst : f.chunk.constants[i]? = some v := h
    have hload : operate S vm f.next fs ⟨.const, i⟩ w
        = some (.ok (.ok (.running (vm.push v))), w) := by
      rw [operate, show f.next.chunk.constants[i]? = some v from hconst]
      rfl
    unfold operandInstruction
    dsimp only
    rw [hconst]
    cases v with
    | nil => rfl
    | bool b => cases b <;> rfl
    | _ => exact hload
  | «local» =>
    unfold Holds at h
    unfold operandInstruction
    dsimp only at h ⊢
    split at h
    next hcap =>
      rw [if_pos hcap]
      obtain ⟨box, hbox, hv⟩ := h
      have hboxAt : boxAt vm f.next i = .ok box := by
        rw [boxAt, show vm.stack[f.next.base + i]? = some (.cellBox box) from hbox]
      simp only [operate, hboxAt, lift_ok, ret_bind]
      rw [bind_of_ok _ (show loadBox box w = some (.ok v, w) by rw [← hv]; rfl)]
      rfl
    next hcap =>
      rw [if_neg hcap, operate]
      dsimp only
      rw [show vm.stack[f.next.base + i]? = some v from h.1]
      rfl

theorem perform_operand (hf : s.vm.frames = f :: fs) (h : Holds f s.vm.stack s.world kind i v) :
    perform S N (operandInstruction f.chunk kind i) s
      = some (.ok (), { advanced s f fs with vm := (advanced s f fs).vm.push v }) := by
  obtain ⟨hnative, hfused⟩ := operandInstruction_plain f.chunk kind i
  have hadvanced : Holds f (advanced s f fs).vm.stack (advanced s f fs).world kind i v := h
  rw [perform_other hf hnative hfused,
    performOther_of_running (operate_operandInstruction hadvanced)]

theorem readFusedOperand_holds (h : Holds f vm.stack w kind i v) :
    readFusedOperand vm f.next kind i w = some (.ok (some v), w) := by
  cases kind with
  | const => exact congrArg (fun c => some (Except.ok c, w)) h
  | «local» =>
    unfold Holds at h
    dsimp only at h
    unfold readFusedOperand
    dsimp only
    split at h
    next hcap =>
      obtain ⟨box, hbox, hv⟩ := h
      rw [show vm.stack[f.next.base + i]? = some (.cellBox box) from hbox, ← hv]
      rfl
    next hcap =>
      rw [show vm.stack[f.next.base + i]? = some v from h.1]
      cases v with
      | cellBox box => exact absurd rfl (h.2 box)
      | _ => rfl

end Operands

namespace Machine

/-! The top two values of a stack. -/

variable (vm : Machine) (a b v : Value)

theorem top_push_push (a b : Value) : ((vm.push a).push b).top 2 = [a, b] := by
  simp [top, push]

theorem collapse_push_push : ((vm.push a).push b).collapse 2 v = vm.push v := by
  simp [collapse, push]

theorem splice_push_push : ((vm.push a).push b).splice 2 v = ((vm.push v).push a).push b := by
  simp [splice, push]

end Machine

section Natives

variable {σ : Type} {S : Setup σ} {N : Natives σ}

def Blind {α : Type} (m : MeterM σ α) : Prop :=
  ∀ s vm, m { s with vm := vm } = (m s).map fun out => (out.1, { out.2 with vm := vm })

variable {α : Type} {m : MeterM σ α}

theorem Blind.vm_eq (hm : Blind m) {s t : Metered σ} {r : Except GoErr α}
    (h : m s = some (r, t)) : t.vm = s.vm := by
  have hself := hm s s.vm
  rw [show ({ s with vm := s.vm } : Metered σ) = s from rfl, h] at hself
  have ht : t = { t with vm := s.vm } := (Prod.mk.inj (Option.some.inj hself)).2
  rw [ht]

theorem blind_onWorld (m : EvalM σ α) : Blind (onWorld m) := by
  intro s vm
  unfold onWorld
  cases m s.world <;> rfl

theorem blind_lift (x : Except GoErr α) : Blind (lift x : MeterM σ α) := by
  intro s vm
  cases x <;> rfl

theorem Blind.bind {β : Type} {g : α → MeterM σ β} (hm : Blind m)
    (hg : ∀ a, Blind (g a)) : Blind (m >>= g) := by
  intro s vm
  rw [bind_apply, bind_apply, hm s vm]
  rcases m s with _ | ⟨_ | a, s'⟩
  · rfl
  · rfl
  · exact hg a s' vm

theorem blind_flushPendingAlloc : Blind (flushPendingAlloc N) := by
  intro s vm
  unfold flushPendingAlloc
  by_cases hpending : s.pendingAlloc = 0
  · rw [if_pos hpending, if_pos hpending]
    rfl
  · rw [if_neg hpending, if_neg hpending]
    exact blind_onWorld _ { s with pendingAlloc := 0 } vm

theorem blind_reentrantCtx : Blind (reentrantCtx S N) :=
  (blind_onWorld _).bind fun _ => blind_flushPendingAlloc

theorem blind_boundedEqArgs (args : List Value) : Blind (boundedEqArgs S N args) := by
  cases args with
  | nil => exact blind_lift (.error _)
  | cons arg args => exact blind_reentrantCtx.bind fun _ => blind_onWorld _

theorem blind_execFusedNative (op : NativeOp) (args : List Value) :
    Blind (execFusedNative S N op args) := by
  unfold execFusedNative
  split
  · exact blind_lift (.ok _)
  · split
    · exact blind_boundedEqArgs _
    · exact blind_lift _

theorem blind_native (op : NativeOp) (args : List Value) :
    Blind ((meteredCallees S N).native op args) :=
  (blind_execFusedNative op args).bind fun _ _ _ => rfl

end Natives

section Sequence

variable {σ : Type} {S : Setup σ} {N : Natives σ} {s : Metered σ} {f : Frame} {fs : List Frame}

def operatorCell (w : World σ) (env : List Nat) (func : Bool) (name : String) : Option VarCell :=
  if func then w.store.getFuncCanonical env name else w.store.getCanonical env name

theorem resolveOperator_apply (w : World σ) (env : List Nat) (func : Bool) (name : String) :
    resolveOperator env func name w = some (.ok (operatorCell w env func name), w) := rfl

variable {fo : FusedOp} {name : String}

theorem perform_freeze (hf : s.vm.frames = f :: fs)
    (hsym : f.chunk.constants[fo.sym]? = some (.symbol name)) :
    perform S N (freezeInstruction fo) s = match operatorCell s.world f.env fo.func name with
        | none => some (.error (newUndefinedError name), advanced s f fs)
        | some cell =>
          some (.ok (), { advanced s f fs with
            vm := (advanced s f fs).vm.pushFreeze
              (if cell.canonical then nativeOp name else none) cell.v }) := by
  have hplain : (∀ op, (freezeInstruction fo).op ≠ .native op) ∧
      (freezeInstruction fo).op ≠ .fusedNativeOp := by
    unfold freezeInstruction
    cases fo.func <;> exact ⟨fun _ => nofun, nofun⟩
  have hoperate : operate S (advanced s f fs).vm f.next fs (freezeInstruction fo) s.world
      = raising (freeze (advanced s f fs).vm f.next fo.func name) s.world := by
    unfold freezeInstruction
    cases fo.func with
    | true =>
      show withSymbol f.next fo.sym _ _ = _
      rw [withSymbol, show f.next.chunk.constants[fo.sym]? = _ from hsym]
    | false =>
      show withSymbol f.next fo.sym _ _ = _
      rw [withSymbol, show f.next.chunk.constants[fo.sym]? = _ from hsym]
  rw [perform_other hf hplain.1 hplain.2]
  cases hcell : operatorCell s.world f.env fo.func name with
  | none =>
    have hraised : operate S (advanced s f fs).vm f.next fs (freezeInstruction fo) s.world
        = some (.ok (.error (newUndefinedError name)), s.world) := by
      rw [hoperate, raising, bind_apply, attempt, freeze, bind_apply,
        resolveOperator_apply, show operatorCell s.world f.next.env fo.func name = none from
          hcell]
      rfl
    exact performOther_of_raised (s := advanced s f fs) hraised
  | some cell =>
    have hrunning : operate S (advanced s f fs).vm f.next fs (freezeInstruction fo) s.world
        = some (.ok (.ok (.running ((advanced s f fs).vm.pushFreeze
            (if cell.canonical then nativeOp name else none) cell.v))), s.world) := by
      rw [hoperate, raising, bind_apply, attempt, freeze, bind_apply,
        resolveOperator_apply,
        show operatorCell s.world f.next.env fo.func name = some cell from hcell]
      rfl
    exact performOther_of_running (s := advanced s f fs) hrunning

/-- The state with the counter of the top frame past the sequence. -/
def past (s : Metered σ) (f : Frame) (fs : List Frame) : Metered σ :=
  { s with vm := { s.vm with frames := f.next.next.next.next :: fs } }

def frozen (s : Metered σ) (f : Frame) (fs : List Frame) (op : Option NativeOp)
    (val a b : Value) :
    Metered σ :=
  { past s f fs with
    vm := (((past s f fs).vm.pushFreeze op val).push a).push b }

variable {a b : Value} {idx : Nat}

section Operated

variable (hf : s.vm.frames = f :: fs) (hsym : f.chunk.constants[fo.sym]? = some (.symbol name))
  (ha : Holds f s.vm.stack s.world fo.aKind fo.a a)
  (hb : Holds f s.vm.stack s.world fo.bKind fo.b b)

include hf hsym ha hb

theorem performAll_unfused :
    performAll S N (unfused f.chunk fo) s = match operatorCell s.world f.env fo.func name with
        | none => some (.error (newUndefinedError name), advanced s f fs)
        | some cell =>
          let t := frozen s f fs (if cell.canonical then nativeOp name else none) cell.v a b
          (dispatchNativeOp (meteredCallees S N) t.vm f.env fo.op 2 >>= setVM) t := by
  have hfreeze := perform_freeze (S := S) (N := N) hf hsym
  cases hcell : operatorCell s.world f.env fo.func name with
  | none =>
    rw [hcell] at hfreeze
    exact bind_of_error _ hfreeze
  | some cell =>
    rw [hcell] at hfreeze
    let frozenOp := if cell.canonical then nativeOp name else none
    let s₁ : Metered σ :=
      { advanced s f fs with vm := (advanced s f fs).vm.pushFreeze frozenOp cell.v }
    let s₂ : Metered σ :=
      { advanced s₁ f.next fs with vm := (advanced s₁ f.next fs).vm.push a }
    have hreadA : perform S N (operandInstruction f.chunk fo.aKind fo.a) s₁ = some (.ok (), s₂) :=
      perform_operand (s := s₁) (f := f.next) rfl ha
    have hreadB : perform S N (operandInstruction f.chunk fo.bKind fo.b) s₂ = some (.ok (),
        { advanced s₂ f.next.next fs with vm := (advanced s₂ f.next.next fs).vm.push b }) :=
      perform_operand (s := s₂) (f := f.next.next) rfl (hb.push a)
    refine (bind_of_ok _ hfreeze).trans ?_
    refine (bind_of_ok _ hreadA).trans ?_
    refine (bind_of_ok _ hreadB).trans ?_
    exact congrFun (bind_ret _) _

omit hf hsym ha hb in
theorem dispatchNativeOp_frozen (env : List Nat) (op : NativeOp) (frozenOp : Option NativeOp)
    (val a b : Value) :
    let t := frozen s f fs frozenOp val a b
    let vm := ((past s f fs).vm.push a).push b
    (dispatchNativeOp (meteredCallees S N) t.vm env op 2 >>= setVM) t =
      if frozenOp = some op then
        ((meteredCallees S N).native op [a, b] >>= fun result => setVM (vm.collapse 2 result))
          { past s f fs with vm := vm }
      else
        (call (meteredCallees S N) ((((past s f fs).vm.push val).push a).push b) 2 false >>= setVM)
          (past s f fs) := by
  intro t vm
  have hlength : ¬ t.vm.stack.length < 2 := by simp [t, frozen, Machine.push]
  have hdepth : (past s f fs).vm.stack.length = t.vm.stack.length - 2 := by
    simp [t, frozen, Machine.push, Machine.pushFreeze]
  have hfreeze : t.vm.freezeStack =
      ⟨(past s f fs).vm.stack.length, frozenOp, val⟩ :: (past s f fs).vm.freezeStack := rfl
  rw [dispatchNativeOp, if_neg hlength, hfreeze]
  dsimp only
  rw [if_pos hdepth]
  split
  · rw [← Machine.top_push_push (past s f fs).vm a b, bind_assoc']
    exact congrFun (bind_assoc' _ _ _) _
  · rw [← Machine.splice_push_push]
    rfl

theorem perform_fused (hfo : f.chunk.fused[idx]? = some fo) :
    perform S N ⟨.fusedNativeOp, idx⟩ (s.skip 3)
      = match operatorCell s.world f.env fo.func name with
        | none => some (.error (newUndefinedError name), past s f fs)
        | some cell =>
          if cell.canonical then
            ((meteredCallees S N).native fo.op [a, b] >>= fun result =>
              setVM ((past s f fs).vm.push result)) (past s f fs)
          else
            (call (meteredCallees S N) ((((past s f fs).vm.push cell.v).push a).push b) 2 false
              >>= setVM) (past s f fs) := by
  let g := f.next.next.next.next
  have hperform : perform S N ⟨.fusedNativeOp, idx⟩ (s.skip 3)
      = (dispatchFusedNativeOp (meteredCallees S N) (past s f fs).vm g idx >>= fun r =>
          r.elim diverge setVM) (past s f fs) := by
    rw [Metered.skip, hf]
    rfl
  rw [hperform, dispatchFusedNativeOp, show g.chunk.fused[idx]? = some fo from hfo]
  dsimp only
  rw [show g.chunk.constants[fo.sym]? = some (.symbol name) from hsym, bind_assoc']
  have hcell : onWorld (resolveOperator g.env fo.func name) (past s f fs)
      = some (.ok (operatorCell s.world f.env fo.func name), past s f fs) := rfl
  have hread {kind i v} (h : Holds f s.vm.stack s.world kind i v) :
      onWorld (readFusedOperand (past s f fs).vm g kind i) (past s f fs)
        = some (.ok (some v), past s f fs) := by
    have hv : readFusedOperand (past s f fs).vm g kind i (past s f fs).world
        = some (.ok (some v), s.world) := readFusedOperand_holds (f := f.next.next.next) h
    rw [onWorld, hv]
    rfl
  refine (bind_of_ok _ hcell).trans ?_
  cases operatorCell s.world f.env fo.func name with
  | none => rfl
  | some cell =>
    dsimp only
    rw [bind_assoc']
    refine (bind_of_ok _ (hread ha)).trans ?_
    dsimp only
    rw [bind_assoc']
    refine (bind_of_ok _ (hread hb)).trans ?_
    dsimp only
    split
    · exact congrFun (bind_assoc' _ _ _) _
    · exact congrFun (bind_assoc' _ _ _) _

end Operated

/-- What a failed sequence leaves, beside what the failed fused instruction leaves: the same; the
same and the operands, if the native operator failed; or the same with the counter still at the
freeze, if the operator is unbound. -/
inductive Leftover (s : Metered σ) (f : Frame) (fs : List Frame) (a b : Value)
    (sequence fused : Metered σ) : Prop where
  | same (h : sequence = fused)
  | operands (hvm : fused.vm = (past s f fs).vm)
      (h : sequence = { fused with vm := (fused.vm.push a).push b })
  | freeze (hfused : fused = past s f fs) (h : sequence = advanced s f fs)

/-- The outcomes of a sequence and of the instruction that replaces it. -/
inductive Agree (s : Metered σ) (f : Frame) (fs : List Frame) (a b : Value) :
    Option (Except GoErr Unit × Metered σ) → Option (Except GoErr Unit × Metered σ) → Prop where
  | unanswered : Agree s f fs a b none none
  | completed (t : Metered σ) : Agree s f fs a b (some (.ok (), t)) (some (.ok (), t))
  | failed (err : GoErr) {t t' : Metered σ} (h : Leftover s f fs a b t t') :
      Agree s f fs a b (some (.error err, t)) (some (.error err, t'))

theorem Agree.of_eq (a b : Value) {out out' : Option (Except GoErr Unit × Metered σ)}
    (h : out = out') : Agree s f fs a b out out' := by
  subst h
  rcases out with _ | ⟨err | _, t⟩
  · exact .unanswered
  · exact .failed err (.same rfl)
  · exact .completed t

variable {t : Metered σ}

theorem native_agree (op : NativeOp) (ht : t.vm = (past s f fs).vm) (a b : Value) :
    Agree s f fs a b
      (((meteredCallees S N).native op [a, b] >>= fun result =>
        setVM (((t.vm.push a).push b).collapse 2 result)) { t with vm := (t.vm.push a).push b })
      (((meteredCallees S N).native op [a, b] >>= fun result => setVM (t.vm.push result)) t) := by
  rw [bind_apply, bind_apply, blind_native op [a, b] t]
  rcases hout : (meteredCallees S N).native op [a, b] t with _ | ⟨err | result, t'⟩
  · exact .unanswered
  · have hvm := (blind_native op [a, b]).vm_eq hout
    refine .failed err (.operands (hvm.trans ht) ?_)
    rw [hvm]
  · refine .of_eq a b ?_
    dsimp only [Option.map_some]
    rw [Machine.collapse_push_push]
    rfl

theorem unfused_agree (hf : s.vm.frames = f :: fs) (hfo : f.chunk.fused[idx]? = some fo)
    (hsym : f.chunk.constants[fo.sym]? = some (.symbol name)) (hop : nativeOp name = some fo.op)
    (ha : Holds f s.vm.stack s.world fo.aKind fo.a a)
    (hb : Holds f s.vm.stack s.world fo.bKind fo.b b) :
    Agree s f fs a b (performAll S N (unfused f.chunk fo) s)
      (perform S N ⟨.fusedNativeOp, idx⟩ (s.skip 3)) := by
  rw [performAll_unfused hf hsym ha hb, perform_fused hf hsym ha hb hfo]
  cases operatorCell s.world f.env fo.func name with
  | none => exact .failed _ (.freeze rfl rfl)
  | some cell =>
    dsimp only
    rw [dispatchNativeOp_frozen]
    cases hcanonical : cell.canonical with
    | true =>
      rw [if_pos rfl, if_pos hop, if_pos rfl]
      exact native_agree fo.op rfl a b
    | false =>
      rw [if_neg Bool.false_ne_true, if_neg (Option.some_ne_none _).symm,
        if_neg Bool.false_ne_true]
      exact Agree.of_eq a b rfl

variable {h : Handler} {vm : Machine}

theorem throw_congr {g : Frame} (v : Value) (above : List Value) (ip : Nat)
    (hframes : vm.frames = g :: fs) (hh : vm.handler = some h)
    (hdepth : h.stackDepth ≤ vm.stack.length) :
    { vm with stack := vm.stack ++ above, frames := { g with ip := ip } :: fs }.throw v
      = vm.throw v := by
  unfold Machine.handler at hh
  rw [hframes] at hh
  unfold Machine.throw
  rw [hframes]
  dsimp only
  simp only [List.length_cons] at hh ⊢
  cases hlive : Machine.liveHandlers vm.handlers (fs.length + 1) with
  | nil => rfl
  | cons h' hs =>
    rw [hlive] at hh
    cases hh
    dsimp only
    rw [List.take_append_of_le_length hdepth]
    -- The frame is that of the handler, or is unwound.
    cases fs.length + 1 - h.frameDepth with
    | zero => rfl
    | succ n => rfl

/-- Routing settles what is pending and looks for a handler; of the machine it asks nothing
else. -/
theorem route_congr (err : GoErr)
    (hthrow : vm.throw (handlerValue err) = t.vm.throw (handlerValue err))
    (hsome : t.vm.throw (handlerValue err) ≠ none) :
    route S N err { t with vm := vm } = route S N err t := by
  have hreset : ∀ (e : GoErr) (t' : Metered σ),
      resetWith e { t' with vm := vm } = resetWith e t' := fun _ _ => rfl
  unfold route
  split
  · rw [attempt_bind, attempt_bind, blind_flushPendingAlloc t vm]
    rcases flushPendingAlloc N t with _ | ⟨_ | _, t'⟩
    · rfl
    · exact hreset _ t'
    · exact hreset err t'
  · rw [attempt_bind, attempt_bind, blind_reentrantCtx t vm]
    rcases hout : reentrantCtx S N t with _ | ⟨_ | _, t'⟩
    · rfl
    · exact hreset _ t'
    · obtain ⟨entered, hentered⟩ := Option.ne_none_iff_exists'.mp hsome
      refine (bind_of_ok _ (show getVM _ = some (.ok vm, _) from rfl)).trans ?_
      refine Eq.trans ?_ (bind_of_ok _ (show getVM t' = some (.ok t'.vm, t') from rfl)).symm
      rw [hthrow, blind_reentrantCtx.vm_eq hout, hentered]
      rfl

theorem past_handler (hf : s.vm.frames = f :: fs) : (past s f fs).vm.handler = s.vm.handler := by
  unfold Machine.handler past
  rw [hf]
  rfl

theorem Leftover.route_eq {t' : Metered σ} (hleft : Leftover s f fs a b t t')
    (hf : s.vm.frames = f :: fs) (hh : s.vm.handler = some h)
    (hdepth : h.stackDepth ≤ s.vm.stack.length) (err : GoErr) :
    route S N err t = route S N err t' := by
  have hpast : (past s f fs).vm.handler = some h := (past_handler hf).trans hh
  obtain ⟨entered, hentered, -⟩ := Machine.throw_of_handler (handlerValue err) hpast
  have hsome : (past s f fs).vm.throw (handlerValue err) ≠ none := by
    rw [hentered]
    exact Option.some_ne_none entered
  cases hleft with
  | same heq => rw [heq]
  | operands hvm heq =>
    have hthrow := throw_congr (handlerValue err) [a, b] f.next.next.next.next.ip
      (show (past s f fs).vm.frames = f.next.next.next.next :: fs from rfl) hpast hdepth
    rw [heq]
    refine route_congr err ?_ ?_
    · rw [hvm, ← hthrow]
      simp [Machine.push, past]
    · rw [hvm]
      exact hsome
  | freeze hfused heq =>
    have hthrow := throw_congr (handlerValue err) [] f.next.ip
      (show (past s f fs).vm.frames = f.next.next.next.next :: fs from rfl) hpast hdepth
    rw [List.append_nil] at hthrow
    rw [heq, hfused]
    exact route_congr (t := past s f fs) err hthrow hsome

theorem Agree.routed_eq {m m' : MeterM σ Unit} {s₀ : Metered σ}
    (hagree : Agree s f fs a b (m s) (m' s₀)) (hf : s.vm.frames = f :: fs)
    (hh : s.vm.handler = some h) (hdepth : h.stackDepth ≤ s.vm.stack.length) :
    routed S N m s = routed S N m' s₀ := by
  rw [routed, routed, attempt_bind, attempt_bind]
  generalize m s = sequence at hagree ⊢
  generalize m' s₀ = fused at hagree ⊢
  cases hagree with
  | unanswered => rfl
  | completed t => rfl
  | failed err hleft => exact hleft.route_eq hf hh hdepth err

/-- A fused instruction leaves what the sequence it replaces leaves, but for the operands of a
native operator that fails, and the two are the same in full if a handler is entered. -/
theorem fused_as_unfused (S : Setup σ) (N : Natives σ) {s : Metered σ} {f : Frame}
    {fs : List Frame} {fo : FusedOp} {idx : Nat} {name : String} {a b : Value}
    (hf : s.vm.frames = f :: fs) (hfo : f.chunk.fused[idx]? = some fo)
    (hsym : f.chunk.constants[fo.sym]? = some (.symbol name)) (hop : nativeOp name = some fo.op)
    (ha : Holds f s.vm.stack s.world fo.aKind fo.a a)
    (hb : Holds f s.vm.stack s.world fo.bKind fo.b b) :
    Agree s f fs a b (performAll S N (unfused f.chunk fo) s)
        (perform S N ⟨.fusedNativeOp, idx⟩ (s.skip 3)) ∧
      ∀ h, s.vm.handler = some h → h.stackDepth ≤ s.vm.stack.length →
        routed S N (performAll S N (unfused f.chunk fo)) s
          = routed S N (perform S N ⟨.fusedNativeOp, idx⟩) (s.skip 3) := by
  have hagree := unfused_agree (S := S) (N := N) hf hfo hsym hop ha hb
  exact ⟨hagree, fun h hh hdepth => hagree.routed_eq hf hh hdepth⟩

end Sequence

section Samples

/-- Nothing is interrupted or refused, and nothing but operators is called. -/
private def sampleSetup : Setup Unit where
  engine := ⟨.identity, 0, fun _ => "", id, fun _ => (none, ())⟩
  host := ⟨fun _ _ _ => diverge, fun _ _ _ _ => diverge, fun _ _ _ => diverge⟩
  chunkAt := fun _ => none
  native := fun _ _ => .ok .nil

private def addInts : Int64 → List Value → Except GoErr Value
  | sum, [] => .ok (.int sum)
  | sum, .int v :: args => addInts (sum + v) args
  | _, arg :: _ =>
    .error (.lispico ⟨"TypeError", "+: expected number, got " ++ arg.goType, "", 0, 0⟩ none)

private def sampleNatives : Natives Unit where
  execNative := fun _ args => addInts 0 args
  floatDiv := fun _ _ => 0
  boundedEq := fun _ => ret (.bool true)
  chargeAllocBytes := fun _ => ret ()
  shallowBytes := fun _ => 16
  charged := fun _ => false

private def sumFrame (locals : Nat) (captured : List Bool) (constants : List Value)
    (fo : FusedOp) : Frame :=
  ⟨.mk 0 false locals captured [] [] constants [] [fo], [], 0, 0, [0], [], false⟩

private def sumOf (stack boxes : List Value) (f : Frame) : Metered Unit :=
  ⟨⟨stack, [f], [], [], 0, 0⟩, 0,
    ⟨⟨[⟨.goFunc "+" 0, true⟩], [⟨[("+", 0)], []⟩]⟩, boxes, 0, 0, [], ()⟩⟩

/-- The sum of a captured local and a constant. -/
theorem captured_sum_as_unfused :
    let fo : FusedOp := ⟨.add, 0, false, .local, 0, .const, 1⟩
    let f := sumFrame 1 [true] [.symbol "+", .int 1] fo
    let s := sumOf [.cellBox 0] [.int 2] f
    Agree s f [] (.int 2) (.int 1) (performAll sampleSetup sampleNatives (unfused f.chunk fo) s)
      (perform sampleSetup sampleNatives ⟨.fusedNativeOp, 0⟩ (s.skip 3)) := by
  intro fo f s
  have ha : Holds f s.vm.stack s.world fo.aKind fo.a (.int 2) := ⟨0, rfl, rfl⟩
  have hb : Holds f s.vm.stack s.world fo.bKind fo.b (.int 1) := rfl
  have hsym : f.chunk.constants[fo.sym]? = some (.symbol "+") := rfl
  exact (fused_as_unfused sampleSetup sampleNatives rfl rfl hsym rfl ha hb).1

/-- The sum of `nil` and one has no handler: the sequence leaves its operands on the stack. -/
theorem failed_sum_leaves_operands :
    let fo : FusedOp := ⟨.add, 0, false, .const, 1, .const, 2⟩
    let f := sumFrame 0 [] [.symbol "+", .nil, .int 1] fo
    let s := sumOf [] [] f
    (routed sampleSetup sampleNatives
        (performAll sampleSetup sampleNatives (unfused f.chunk fo)) s).map (·.2.vm.stack)
      = some [.nil, .int 1] ∧
    (routed sampleSetup sampleNatives
        (perform sampleSetup sampleNatives ⟨.fusedNativeOp, 0⟩) (s.skip 3)).map (·.2.vm.stack)
      = some [] := by
  exact ⟨rfl, rfl⟩

end Samples

end VM

end Lispico
