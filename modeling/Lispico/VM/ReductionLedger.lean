import Lispico.VM.Machine

/-!
# The reductions of a run

The dispatch loop settles its instructions every 128, before it hands over to a callee, on an
error and on return. A charge goes to the evaluation state, or to the VM's own counter while it
has none; a state that a callee asks for starts from a copy of that counter. Refused charges and
session meters are left out. A run is the list of what its instructions did, which the machine of
`Machine` gives for each of its own.
-/

namespace Lispico

namespace VM

namespace ReductionLedger

/-- The context made for the callees of a run: not made, made with a copy of the reductions, or
with an evaluation state of its own. -/
inductive Reentry where
  | unbuilt
  | seeded (reductions : Nat)
  | materialized (reductions : Nat)
deriving DecidableEq, Repr

/-- Where a VM charges: the evaluation state, or its own counter, which counts only if limits
were set. -/
inductive Meter where
  | evalState (reductions : Nat)
  | own (limited : Bool) (reductions : Nat) (reentry : Reentry)
deriving DecidableEq, Repr

namespace Meter

def reductions : Meter → Nat
  | .evalState n => n
  | .own _ n _ => n

def charge (k : Nat) : Meter → Meter
  | .evalState n => .evalState (n + k)
  | .own limited n reentry => .own limited (if limited then n + k else n) reentry

/-- `reentrantCtx` without the settlement before it. -/
def adopt : Meter → Meter
  | .own limited n .unbuilt => .own limited n (.seeded n)
  | m => m

def work (k : Nat) : Meter → Meter
  | .evalState n => .evalState (n + k)
  | .own limited n (.seeded r) => .own limited n (.materialized (r + k))
  | .own limited n (.materialized r) => .own limited n (.materialized (r + k))
  | m => m

def sync : Meter → Meter
  | .own _ _ (.materialized r) => .evalState r
  | m => m

def freshRun : Meter → Meter
  | .evalState n => .evalState n
  | .own limited n _ => .own limited n .unbuilt

end Meter

/-- What an instruction hands over to: a builtin, which may ask for the evaluation state and
charge it; a tree-walker lambda; or the walk of `=` over collections. -/
inductive Callee where
  | builtin (work : Option Nat)
  | lambda (work : Nat)
  | equality (work : Nat)
deriving DecidableEq, Repr

/-- An executed instruction that does not end the run. `routed` is an ordinary error that reaches
a handler, after a callee or not, and `thrown` an `OpThrow` that does. -/
inductive Step where
  | plain
  | calls (callee : Callee)
  | routed (callee : Option Callee)
  | thrown
deriving DecidableEq, Repr

/-- The last instruction: the return of the last frame, an ordinary error or an `OpThrow` without
a handler, or an error that the loop returns as it is, such as a report of malformed code. -/
inductive Exit where
  | returned
  | routed (callee : Option Callee)
  | thrown
  | direct
deriving DecidableEq, Repr

def checkInterval : Nat := 128

structure Machine where
  meter : Meter
  budget : Nat
  flushedBudget : Nat
deriving DecidableEq, Repr

namespace Machine

def used (vm : Machine) : Nat := vm.flushedBudget - vm.budget

def flush (vm : Machine) : Machine :=
  if vm.used = 0 then vm
  else ⟨vm.meter.charge vm.used, vm.budget, vm.budget⟩

def poll (vm : Machine) : Machine := ⟨vm.flush.meter, checkInterval, checkInterval⟩

/-- The head of the loop: count the instruction, and poll when the budget is used up. -/
def tick (vm : Machine) : Machine :=
  let vm := { vm with budget := vm.budget - 1 }
  if vm.budget = 0 then vm.poll else vm

def reentrantCtx (vm : Machine) : Machine := { vm.flush with meter := vm.flush.meter.adopt }

/-- Dispatch to a callee. Only a builtin costs a reduction of its own, and nothing is read back
after a walk of `=`. -/
def call (vm : Machine) : Callee → Machine
  | .builtin none =>
    let vm := vm.reentrantCtx
    { vm with meter := (vm.meter.charge 1).sync }
  | .builtin (some k) =>
    let vm := vm.reentrantCtx
    { vm with meter := ((vm.meter.charge 1).work k).sync }
  | .lambda k =>
    let vm := vm.reentrantCtx
    { vm with meter := (vm.meter.work k).sync }
  | .equality k =>
    let vm := vm.reentrantCtx
    { vm with meter := vm.meter.work k }

def callAny (vm : Machine) : Option Callee → Machine
  | none => vm
  | some callee => vm.call callee

def step (vm : Machine) : Step → Machine
  | .plain => vm.tick
  | .calls callee => vm.tick.call callee
  | .routed callee => (vm.tick.callAny callee).flush
  | .thrown => vm.tick

def exit (vm : Machine) : Exit → Machine
  | .returned => vm.tick.flush
  | .routed callee => (vm.tick.callAny callee).flush
  | .thrown => vm.tick
  | .direct => vm.tick

/-- `Run`, up to its last instruction. -/
def running (meter : Meter) (steps : List Step) : Machine :=
  steps.foldl step ⟨meter.freshRun, checkInterval, checkInterval⟩

end Machine

/-- `Run`: the meter when it returns. -/
def run (meter : Meter) (steps : List Step) (last : Exit) : Meter :=
  ((Machine.running meter steps).exit last).meter

/-- What a callee is to cost: a reduction for a builtin, and what the callee charged. -/
def Callee.cost : Callee → Nat
  | .builtin none => 1
  | .builtin (some k) => 1 + k
  | .lambda k => k
  | .equality k => k

def Step.callee : Step → Option Callee
  | .calls callee => some callee
  | .routed callee => callee
  | _ => none

def Exit.callee : Exit → Option Callee
  | .routed callee => callee
  | _ => none

def instructionCost (callee : Option Callee) : Nat := 1 + (callee.map Callee.cost).getD 0

def runCost (steps : List Step) (last : Exit) : Nat :=
  (steps.map fun s => instructionCost s.callee).sum + instructionCost last.callee

namespace Meter

/-- The callees a run may have: any on an evaluation state; on an own counter, which needs limits
to count at all, only builtins that never ask for the evaluation state. -/
def Fits (callees : List Callee) : Meter → Prop
  | .evalState _ => True
  | .own limited _ reentry =>
    limited = true ∧ (∀ r, reentry ≠ .materialized r) ∧ ∀ c ∈ callees, c = .builtin none

section

variable {m : Meter} {callees : List Callee}

variable (h : m.Fits callees)

include h

theorem Fits.charge (k : Nat) : (m.charge k).Fits callees := by
  cases m with
  | evalState n => trivial
  | own limited n reentry => exact h

theorem Fits.adopt : m.adopt.Fits callees := by
  cases m with
  | evalState n => trivial
  | own limited n reentry =>
    cases reentry with
    | unbuilt => exact ⟨h.1, fun _ => nofun, h.2.2⟩
    | seeded r => exact h
    | materialized r => exact h

theorem Fits.reductions_charge (k : Nat) : (m.charge k).reductions = m.reductions + k := by
  cases m with
  | evalState n => rfl
  | own limited n reentry =>
    show (if limited then n + k else n) = n + k
    rw [if_pos h.1]

omit h in
theorem reductions_adopt (m : Meter) : m.adopt.reductions = m.reductions := by
  cases m with
  | evalState n => rfl
  | own limited n reentry => cases reentry <;> rfl

theorem Fits.sync_eq : m.sync = m := by
  cases m with
  | evalState n => rfl
  | own limited n reentry =>
    cases reentry with
    | unbuilt => rfl
    | seeded r => rfl
    | materialized r => exact absurd rfl (h.2.1 r)

theorem Fits.evalState_or {callee : Callee} (hmem : callee ∈ callees) :
    (∃ n, m = .evalState n) ∨ callee = .builtin none := by
  cases m with
  | evalState n => exact .inl ⟨n, rfl⟩
  | own limited n reentry => exact .inr (h.2.2 callee hmem)

end

end Meter

namespace Machine

def counted (vm : Machine) : Nat := vm.meter.reductions + vm.used

def Running (vm : Machine) : Prop := 0 < vm.budget ∧ vm.budget ≤ vm.flushedBudget

section

variable {vm : Machine} {callees : List Callee}

theorem flush_spec (h : vm.meter.Fits callees) :
    vm.flush.meter.Fits callees ∧ vm.flush.meter.reductions = vm.counted ∧ vm.flush.used = 0 := by
  unfold flush counted
  split
  next hused => exact ⟨h, by rw [hused]; rfl, hused⟩
  next => exact ⟨h.charge _, h.reductions_charge _, Nat.sub_self _⟩

theorem counted_flush (h : vm.meter.Fits callees) : vm.flush.counted = vm.counted := by
  obtain ⟨-, hmeter, hused⟩ := flush_spec h
  rw [counted, hused, hmeter, Nat.add_zero]

theorem Running.flush (h : vm.Running) : vm.flush.Running := by
  unfold Machine.flush
  split
  · exact h
  · exact ⟨h.1, Nat.le_refl _⟩

theorem flush_budget (vm : Machine) : vm.flush.budget = vm.budget := by
  unfold flush
  split <;> rfl

theorem poll_used (vm : Machine) : vm.poll.used = 0 := Nat.sub_self checkInterval

section

variable (hrun : vm.Running) {callee : Option Callee}

include hrun

theorem tick_spec (h : vm.meter.Fits callees) :
    vm.tick.Running ∧ vm.tick.meter.Fits callees ∧ vm.tick.counted = vm.counted + 1 := by
  obtain ⟨hpos, hle⟩ := hrun
  have hused : vm.flushedBudget - (vm.budget - 1) = vm.used + 1 := by
    unfold used
    omega
  unfold tick
  dsimp only
  split
  next hzero =>
    have hticked : ({ vm with budget := vm.budget - 1 } : Machine).meter.Fits callees := h
    obtain ⟨hfits, hmeter, -⟩ := flush_spec hticked
    refine ⟨⟨Nat.zero_lt_succ 127, Nat.le_refl _⟩, hfits, ?_⟩
    rw [counted, poll_used, poll, hmeter]
    show vm.meter.reductions + (vm.flushedBudget - (vm.budget - 1)) = _
    rw [hused]
    rfl
  next hzero =>
    refine ⟨⟨Nat.pos_of_ne_zero hzero, Nat.le_trans (Nat.sub_le _ _) hle⟩, h, ?_⟩
    show _ + (vm.flushedBudget - (vm.budget - 1)) = _
    rw [hused]
    rfl

theorem used_tick_eq_zero_iff : vm.tick.used = 0 ↔ vm.budget = 1 := by
  obtain ⟨hpos, hle⟩ := hrun
  unfold tick
  dsimp only
  split
  next hzero => exact ⟨fun _ => by omega, fun _ => poll_used _⟩
  next hzero =>
    show vm.flushedBudget - (vm.budget - 1) = 0 ↔ _
    omega

theorem reentrantCtx_spec (h : vm.meter.Fits callees) :
    vm.reentrantCtx.Running ∧ vm.reentrantCtx.meter.Fits callees ∧
      vm.reentrantCtx.meter.reductions = vm.counted ∧ vm.reentrantCtx.used = 0 := by
  obtain ⟨hfits, hmeter, hused⟩ := flush_spec h
  exact ⟨hrun.flush, hfits.adopt, (Meter.reductions_adopt _).trans hmeter, hused⟩

theorem call_builtin_none (h : vm.meter.Fits callees) :
    (vm.call (.builtin none)).Running ∧ (vm.call (.builtin none)).meter.Fits callees ∧
      (vm.call (.builtin none)).counted = vm.counted + 1 := by
  obtain ⟨hrun, hfits, hmeter, hused⟩ := reentrantCtx_spec hrun h
  have hcharged := hfits.charge 1
  have hcall : vm.call (.builtin none)
      = { vm.reentrantCtx with meter := vm.reentrantCtx.meter.charge 1 } := by
    rw [call, hcharged.sync_eq]
  rw [hcall]
  refine ⟨hrun, hcharged, ?_⟩
  show (vm.reentrantCtx.meter.charge 1).reductions + vm.reentrantCtx.used = _
  rw [hfits.reductions_charge, hmeter, hused, Nat.add_zero]

omit hrun in
theorem reentrantCtx_evalState {n : Nat} (hmeter : vm.meter = .evalState n) :
    vm.reentrantCtx.meter = .evalState vm.counted := by
  unfold reentrantCtx flush counted
  rw [hmeter]
  split
  next hused => rw [hused, hmeter]; rfl
  next => rfl

theorem call_evalState {n : Nat} (hmeter : vm.meter = .evalState n) (callee : Callee) :
    (vm.call callee).Running ∧ (vm.call callee).meter.Fits callees ∧
      (vm.call callee).counted = vm.counted + callee.cost := by
  have hfits : vm.meter.Fits callees := hmeter ▸ trivial
  obtain ⟨hrun', -, -, hused⟩ := reentrantCtx_spec hrun hfits
  have hcall : vm.call callee
      = { vm.reentrantCtx with meter := .evalState (vm.counted + callee.cost) } := by
    cases callee with
    | builtin work =>
      cases work with
      | none => rw [call, reentrantCtx_evalState hmeter]; rfl
      | some k => rw [call, reentrantCtx_evalState hmeter, Callee.cost, ← Nat.add_assoc]; rfl
    | lambda k => rw [call, reentrantCtx_evalState hmeter]; rfl
    | equality k => rw [call, reentrantCtx_evalState hmeter]; rfl
  rw [hcall]
  refine ⟨hrun', trivial, ?_⟩
  show vm.counted + callee.cost + vm.reentrantCtx.used = _
  rw [hused, Nat.add_zero]

theorem callAny_spec (h : vm.meter.Fits callees) (hmem : ∀ c ∈ callee, c ∈ callees) :
    (vm.callAny callee).Running ∧ (vm.callAny callee).meter.Fits callees ∧
      (vm.callAny callee).counted = vm.counted + (callee.map Callee.cost).getD 0 := by
  cases callee with
  | none => exact ⟨hrun, h, rfl⟩
  | some callee =>
    obtain ⟨n, hmeter⟩ | rfl := h.evalState_or (hmem callee rfl)
    · exact call_evalState hrun hmeter callee
    · exact call_builtin_none hrun h

theorem tick_callAny_spec (h : vm.meter.Fits callees) (hmem : ∀ c ∈ callee, c ∈ callees) :
    (vm.tick.callAny callee).Running ∧ (vm.tick.callAny callee).meter.Fits callees ∧
      (vm.tick.callAny callee).counted = vm.counted + instructionCost callee := by
  obtain ⟨hrun, hfits, htick⟩ := tick_spec hrun h
  obtain ⟨hrun, hfits, hcall⟩ := callAny_spec hrun hfits hmem
  refine ⟨hrun, hfits, ?_⟩
  rw [hcall, htick, instructionCost, Nat.add_assoc]

theorem step_spec (h : vm.meter.Fits callees) (s : Step) (hmem : ∀ c ∈ s.callee, c ∈ callees) :
    (vm.step s).Running ∧ (vm.step s).meter.Fits callees ∧
      (vm.step s).counted = vm.counted + instructionCost s.callee := by
  have hspec := tick_callAny_spec hrun h hmem
  cases s with
  | plain => exact hspec
  | calls callee => exact hspec
  | routed callee =>
    obtain ⟨hrun, hfits, hcounted⟩ := hspec
    exact ⟨hrun.flush, (flush_spec hfits).1, (counted_flush hfits).trans hcounted⟩
  | thrown => exact hspec

end

theorem foldl_step_spec (steps : List Step) (vm : Machine) (hrun : vm.Running)
    (h : vm.meter.Fits callees) (hmem : ∀ s ∈ steps, ∀ c ∈ s.callee, c ∈ callees) :
    (steps.foldl step vm).Running ∧ (steps.foldl step vm).meter.Fits callees ∧
      (steps.foldl step vm).counted
        = vm.counted + (steps.map fun s => instructionCost s.callee).sum := by
  induction steps generalizing vm with
  | nil => exact ⟨hrun, h, rfl⟩
  | cons s steps ih =>
    obtain ⟨hs, hsteps⟩ := List.forall_mem_cons.mp hmem
    obtain ⟨hrun, hfits, hstep⟩ := step_spec hrun h s hs
    obtain ⟨hrun, hfits, hrest⟩ := ih (vm.step s) hrun hfits hsteps
    refine ⟨hrun, hfits, ?_⟩
    rw [List.foldl_cons, hrest, hstep, List.map_cons, List.sum_cons, Nat.add_assoc]

end

end Machine

def Exit.Settles : Exit → Prop
  | .returned => True
  | .routed _ => True
  | .thrown => False
  | .direct => False

def runCallees (steps : List Step) (last : Exit) : List Callee :=
  steps.filterMap Step.callee ++ last.callee.toList

namespace Machine

variable {vm : Machine} {callees : List Callee}

/-- The last instruction is recorded with all that was unsettled before it, unless it leaves the
loop without a settlement, and then nothing is left over only if it polled. -/
theorem exit_reductions_iff (hrun : vm.Running) (h : vm.meter.Fits callees) (last : Exit)
    (hmem : ∀ c ∈ last.callee, c ∈ callees) :
    (vm.exit last).meter.reductions = vm.counted + instructionCost last.callee
      ↔ last.Settles ∨ vm.budget = 1 := by
  have hspec := tick_callAny_spec hrun h hmem
  have hunsettled : vm.tick.meter.reductions = vm.counted + 1 ↔ vm.budget = 1 := by
    obtain ⟨-, -, hcounted⟩ := tick_spec hrun h
    rw [← used_tick_eq_zero_iff hrun, ← hcounted, counted]
    exact Nat.left_eq_add
  cases last with
  | returned => exact iff_of_true ((flush_spec hspec.2.1).2.1.trans hspec.2.2) (.inl trivial)
  | routed callee =>
    exact iff_of_true ((flush_spec hspec.2.1).2.1.trans hspec.2.2) (.inl trivial)
  | thrown => exact hunsettled.trans (iff_of_eq (false_or _)).symm
  | direct => exact hunsettled.trans (iff_of_eq (false_or _)).symm

end Machine

theorem mem_runCallees (steps : List Step) (last : Exit) :
    (∀ s ∈ steps, ∀ c ∈ s.callee, c ∈ runCallees steps last) ∧
      ∀ c ∈ last.callee, c ∈ runCallees steps last := by
  refine ⟨fun s hs c hc => ?_, fun c hc => ?_⟩
  · exact List.mem_append_left _ (List.mem_filterMap.mpr ⟨s, hs, hc⟩)
  · exact List.mem_append_right _ (Option.mem_toList.mpr hc)

namespace Machine

theorem call_budget (vm : Machine) (callee : Callee) : (vm.call callee).budget = vm.budget := by
  cases callee with
  | builtin work => cases work <;> exact flush_budget vm
  | lambda k => exact flush_budget vm
  | equality k => exact flush_budget vm

theorem step_budget (vm : Machine) (s : Step) : (vm.step s).budget = vm.tick.budget := by
  cases s with
  | plain => rfl
  | calls callee => exact call_budget _ callee
  | routed callee =>
    cases callee with
    | none => exact flush_budget _
    | some callee => exact (flush_budget _).trans (call_budget _ callee)
  | thrown => rfl

theorem tick_budget {vm : Machine} {n : Nat} (h : vm.budget = 128 - n % 128) :
    vm.tick.budget = 128 - (n + 1) % 128 := by
  unfold tick
  dsimp only
  split
  next hzero =>
    show 128 = _
    omega
  next hzero =>
    show vm.budget - 1 = _
    omega

theorem foldl_step_budget (steps : List Step) (vm : Machine) (n : Nat)
    (h : vm.budget = 128 - n % 128) :
    (steps.foldl step vm).budget = 128 - (n + steps.length) % 128 := by
  induction steps generalizing vm n with
  | nil => exact h
  | cons s steps ih =>
    rw [List.foldl_cons, ih (vm.step s) (n + 1) ((step_budget vm s).trans (tick_budget h)),
      List.length_cons, Nat.add_assoc, Nat.add_comm 1]

end Machine

section Trace

open Lispico.Core Lib Lib.Comp

variable {σ : Type} (S : Setup σ) (callee : VM.Machine → World σ → Option Callee)

/-- The instructions that the machine executes, as the ledger sees them. What each of them hands
over to, and what that charges, is given. -/
def ledger : Nat → VM.Machine → World σ → Option (List Step × Exit)
  | 0, _, _ => none
  | n + 1, vm, w =>
    match vm.frames with
    | [] => none
    | f :: fs =>
      match f.chunk.code[f.ip]? with
      | none => none
      | some instr =>
        let vm := { vm with frames := f.next :: fs }
        let after (s : Step) (vm : VM.Machine) (w : World σ) :=
          (ledger n vm w).map fun x => (s :: x.1, x.2)
        match operate S vm f.next fs instr w with
        | some (.ok (.ok (.running vm')), w') =>
          after (if instr.op = .throw then .thrown else (callee vm w).elim .plain .calls) vm' w'
        | some (.ok (.ok (.returned _)), _) => some ([], .returned)
        | some (.ok (.error err), w') =>
          match routeRuntimeError S vm err w' with
          | some (.ok vm', w') => after (.routed (callee vm w)) vm' w'
          | some (.error _, _) => some ([], .routed (callee vm w))
          | none => none
        | some (.error _, _) => some ([], if instr.op = .throw then .thrown else .direct)
        | _ => none

variable {S}

/-- A run of the machine, without cancellation or refused charges, is such a list, which ends
with a return exactly if the run gives a value. -/
theorem ledger_of_loop (hpoll : S.engine.pollCancel = ret ()) {n : Nat} {vm : VM.Machine}
    {w w' : World σ} {r : Except GoErr Value} (h : loop S n vm w = some (r, w')) :
    ∃ steps last, ledger S callee n vm w = some (steps, last) ∧ steps.length < n ∧
      (r.isOk ↔ last = .returned) := by
  induction n generalizing vm w with
  | zero => cases h
  | succ n ih =>
    have hafter : ∀ {vm' w₁} (s : Step), loop S n vm' w₁ = some (r, w') → ∃ steps last,
        ((ledger S callee n vm' w₁).map fun x => (s :: x.1, x.2)) = some (steps, last) ∧
          steps.length < n + 1 ∧ (r.isOk ↔ last = .returned) := by
      intro vm' w₁ s hloop
      obtain ⟨steps, last, hledger, hlen, hlast⟩ := ih hloop
      exact ⟨s :: steps, last, by rw [hledger]; rfl, Nat.succ_lt_succ hlen, hlast⟩
    rw [loop, VM.step, hpoll, ret_bind] at h
    rw [ledger]
    cases hframes : vm.frames with
    | nil =>
      rw [hframes] at h
      cases h
    | cons f fs =>
      rw [hframes] at h
      dsimp only at h ⊢
      cases hinstr : f.chunk.code[f.ip]? with
      | none =>
        rw [hinstr] at h
        cases h
      | some instr =>
        rw [hinstr] at h
        dsimp only at h ⊢
        rw [execute, bind_assoc', bind_apply] at h
        rcases hop : operate S { vm with frames := f.next :: fs } f.next fs instr w with
          _ | ⟨err | err | (vm' | v | _), w₁⟩ <;> rw [hop] at h
        · cases h
        · cases h
          exact ⟨_, _, rfl, Nat.succ_pos n, by split <;> simp [Except.isOk, Except.toBool]⟩
        · dsimp only at h ⊢
          change ((routeRuntimeError S _ err >>= fun vm => ret (Next.running vm)) >>= _) w₁ = _ at h
          rw [bind_assoc', bind_apply] at h
          rcases hroute : routeRuntimeError S { vm with frames := f.next :: fs } err w₁ with
            _ | ⟨err' | vm', w₂⟩ <;> rw [hroute] at h
          · cases h
          · cases h
            exact ⟨_, _, rfl, Nat.succ_pos n, by simp [Except.isOk, Except.toBool]⟩
          · exact hafter _ h
        · exact hafter _ h
        · cases h
          exact ⟨_, _, rfl, Nat.succ_pos n, iff_of_true rfl rfl⟩
        · cases h

end Trace

/-- A run records one reduction for each executed instruction, one for each builtin and what its
callees charged, exactly if its last instruction settles or is one at which the loop polls. -/
theorem run_records_iff (meter : Meter) (steps : List Step) (last : Exit)
    (h : meter.freshRun.Fits (runCallees steps last)) :
    (run meter steps last).reductions = meter.reductions + runCost steps last
      ↔ last.Settles ∨ (steps.length + 1) % checkInterval = 0 := by
  obtain ⟨hsteps, hlast⟩ := mem_runCallees steps last
  let start : Machine := ⟨meter.freshRun, checkInterval, checkInterval⟩
  have hstart : start.Running := ⟨Nat.zero_lt_succ 127, Nat.le_refl _⟩
  have hbase : start.counted = meter.reductions := by
    rw [Machine.counted, show start.used = 0 from Nat.sub_self checkInterval]
    cases meter <;> rfl
  obtain ⟨hrun, hfits, hcounted⟩ := Machine.foldl_step_spec steps start hstart h hsteps
  have hpolls : (steps.foldl Machine.step start).budget = 1
      ↔ (steps.length + 1) % checkInterval = 0 := by
    rw [Machine.foldl_step_budget steps start 0 rfl, checkInterval]
    omega
  have hexit := Machine.exit_reductions_iff hrun hfits last hlast
  rw [hcounted, hbase, Nat.add_assoc, hpolls] at hexit
  exact hexit

/-- Two instructions and an error routed out of the run, on an evaluation state. -/
theorem routed_run_records :
    (run (.evalState 5) [.plain, .calls (.builtin (some 3))] (.routed none)).reductions = 12 :=
  (run_records_iff (.evalState 5) [.plain, .calls (.builtin (some 3))] (.routed none)
    trivial).mpr (.inl trivial)

/-- An uncaught throw: neither the constant nor the throw is recorded. -/
theorem uncaught_throw_unrecorded :
    (run (.evalState 0) [.plain] .thrown).reductions = 0 ∧ runCost [.plain] .thrown = 2 := by
  decide

end ReductionLedger

end VM

end Lispico
