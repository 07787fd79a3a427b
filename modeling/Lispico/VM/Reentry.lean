import Lispico.VM.Handlers

/-!
# Both evaluators together

A builtin is a script that may call the evaluator again and go on with the result or error of
each call. `Runtime.host` ties the knots between the evaluators, with one level for each
boundary crossed; `ErrorPolicy` says which errors reach a handler.
-/

namespace Lispico

namespace VM

open Lispico.Core Lib Lib.Comp

/-- A builtin's course: a result or an error, a change of the host's state or of the
bindings, or a call of the evaluator and what follows each of its outcomes. -/
inductive Script (σ : Type) where
  | done (r : Except GoErr Value)
  | host (change : σ → σ) (next : σ → Script σ)
  | store (change : Store → Store) (next : Store → Script σ)
  | eval (form : Value) (env : List Nat) (next : Except GoErr Value → Script σ)
  | apply (fn : Value) (args : List Value) (env : List Nat)
      (next : Except GoErr Value → Script σ)

namespace Script

variable {σ : Type}

def follow (ev : Value → List Nat → EvalM σ Value)
    (app : Value → List Value → List Nat → EvalM σ Value) : Script σ → EvalM σ Value
  | .done r => Comp.lift r
  | .host change next => do
      let host ← Comp.step fun w => (w.host, { w with host := change w.host })
      follow ev app (next host)
  | .store change next => do
      let store ← Comp.step fun w => (w.store, { w with store := change w.store })
      follow ev app (next store)
  | .eval form env next => do
      let r ← (ev form env).attempt
      follow ev app (next r)
  | .apply fn args env next => do
      let r ← (app fn args env).attempt
      follow ev app (next r)

theorem follow_safe {ev : Value → List Nat → EvalM σ Value}
    {app : Value → List Value → List Nat → EvalM σ Value} (hev : ∀ v env, Safe (ev v env))
    (happ : ∀ fn args env, Safe (app fn args env)) (s : Script σ) : Safe (s.follow ev app) := by
  induction s with
  | done r => exact preserves_lift r
  | host change next ih => exact (preserves_step fun _ h => h).bind fun host => ih host
  | store change next ih => exact (preserves_step fun _ h => h).bind fun store => ih store
  | eval form env next ih => exact (hev form env).attempt.bind fun r => ih r
  | apply fn args env next ih => exact (happ fn args env).attempt.bind fun r => ih r

end Script

structure Runtime (σ : Type) where
  engine : Engine σ
  chunkAt : List Nat → Option Chunk
  native : NativeOp → List Value → Except GoErr Value
  builtin : Nat → List Value → List Nat → Script σ

namespace Runtime

variable {σ : Type} (R : Runtime σ) (m n : Nat)

def setup (host : Host σ) : Setup σ := ⟨R.engine, host, R.chunkAt, R.native⟩

/-- What each evaluator finds on the other side, with a number of boundaries to cross. -/
def host : Nat → Host σ
  | 0 => ⟨fun _ _ _ => Comp.diverge, fun _ _ _ _ => Comp.diverge, fun _ _ _ => Comp.diverge⟩
  | m + 1 =>
    let app := Core.apply R.engine (fun _ => host m) m
    { builtin := fun f args env => (R.builtin f args env).follow (Core.eval R.engine app m) app
      applier := applyClosure (R.setup (host m)) m
      lambda := app }

def apply (m : Nat) : Value → List Value → List Nat → EvalM σ Value :=
  Core.apply R.engine (fun _ => R.host m) m

/-- Evaluation by the tree-walker: `m` bounds the boundaries, `n` the nesting. -/
def eval (m n : Nat) : Value → List Nat → EvalM σ Value := Core.eval R.engine (R.apply m) n

def machine (m : Nat) : Setup σ := R.setup (R.host m)

theorem host_safe (m : Nat) : (R.host m).Safe := by
  induction m with
  | zero => exact ⟨fun _ _ _ => preserves_diverge, fun _ _ _ _ => preserves_diverge,
      fun _ _ _ => preserves_diverge⟩
  | succ m ih =>
    have happ := apply_safe R.engine (fun _ => ih) m
    have heval := (evalRules_safe R.engine).eval_holds happ m
    exact ⟨fun f args env => (R.builtin f args env).follow_safe heval happ,
      applyClosure_safe (R.setup (R.host m)) ih m, happ⟩

theorem eval_safe (form : Value) (env : List Nat) : Safe (R.eval m n form env) :=
  (evalRules_safe R.engine).eval_holds (apply_safe R.engine (fun _ => R.host_safe m) m) n form env

theorem machine_safe (vm : Machine) : Safe (run (R.machine m) n vm) :=
  run_safe (R.machine m) (R.host_safe m) n vm

end Runtime

section Policy

variable {σ : Type}

/-- The world in which the handler of a `catch` clause runs. -/
def caughtIn (env : List Nat) (name : String) (err : GoErr) (w : World σ) : World σ :=
  { w with
    store := (w.store.child env).2.set (here (w.store.child env).1) name (caughtValue err)
    caught := w.caught ++ [⟨err, caughtValue err⟩] }

variable {err : GoErr} {w w' : World σ} {handler : List Value} {args : List Value}
  {env : List Nat} {name : String}

theorem evalTry_of_error (E : Engine σ) {ev : Value → List Nat → EvalM σ Value}
    (hargs : 2 ≤ args.length) (hclause : catchClause E (args.getLastD .nil) = .ok (name, handler))
    (hbody : evalBody ev args.dropLast env w = some (.error err, w')) :
    evalTry E ev args env w =
      if err.isTerminalEvalError then some (.error err, w')
      else evalBody ev handler (w'.store.child env).1 (caughtIn env name err w') := by
  have hattempt : (evalBody ev args.dropLast env).attempt w = some (.ok (.error err), w') := by
    unfold Comp.attempt
    rw [hbody]
  unfold evalTry
  rw [if_neg (by omega), hclause]
  dsimp only
  rw [bind_of_ok _ hattempt]
  dsimp only
  split <;> rfl

variable {vm : Machine} (S : Setup σ) {h : Handler}

theorem step_of_raise {f : Frame} {fs : List Frame} {instr : Instruction}
    {w₁ w₂ : World σ} (hframes : vm.frames = f :: fs) (hinstr : f.chunk.code[f.ip]? = some instr)
    (hpoll : S.engine.pollCancel w = some (.ok (), w₁))
    (hraise : operate S { vm with frames := f.next :: fs } f.next fs instr w₁ = some
      (.ok (.error err), w₂)) :
    step S vm w =
      (Next.running <$> routeRuntimeError S { vm with frames := f.next :: fs } err) w₂ := by
  unfold step
  rw [bind_of_ok _ hpoll, hframes]
  dsimp only
  rw [hinstr]
  dsimp only
  unfold execute
  rw [bind_of_ok _ hraise]

/-- Evaluation of a `try` form with a well-formed clause, whose body fails. -/
structure TryFails (E : Engine σ) (ev : Value → List Nat → EvalM σ Value) (head : String)
    (args : List Value) (env : List Nat) (w : World σ) (name : String) (handler : List Value)
    (err : GoErr) (w' : World σ) : Prop where
  form : E.dialect.canonicalName head = some .tryForm
  length : 2 ≤ args.length
  clause : catchClause E (args.getLastD .nil) = .ok (name, handler)
  body : ∃ w₁, E.pollCancel w = some (.ok (), w₁) ∧
    evalBody ev args.dropLast env w₁ = some (.error err, w')

def StepRaises (S : Setup σ) (vm : Machine) (w : World σ) (err : GoErr) (w' : World σ) : Prop :=
  ∃ f fs instr w₁, vm.frames = f :: fs ∧ f.chunk.code[f.ip]? = some instr ∧
    S.engine.pollCancel w = some (.ok (), w₁) ∧
    operate S { vm with frames := f.next :: fs } f.next fs instr w₁ = some (.ok (.error err), w')

theorem eval_of_tryFails {E : Engine σ} {app : Value → List Value → List Nat → EvalM σ Value}
    {n : Nat} {head : String}
    (h : TryFails E (Core.eval E app n) head args env w name handler err w') :
    Core.eval E app (n + 1) (.list (.symbol head :: args)) env w =
      if err.isTerminalEvalError then some (.error err, w')
      else evalBody (Core.eval E app n) handler (w'.store.child env).1
        (caughtIn env name err w') := by
  obtain ⟨w₁, hpoll, hbody⟩ := h.body
  rw [eval_form E app n h.form, bind_of_ok _ hpoll]
  exact evalTry_of_error E h.length h.clause hbody

theorem entered_of_next {vm vm' : Machine} {f : Frame} {fs : List Frame} {h : Handler}
    {value : Value} (hframes : vm.frames = f :: fs)
    (hentered : Machine.Entered { vm with frames := f.next :: fs } h value vm') :
    vm.Entered h value vm' := by
  obtain ⟨hlength, haddr, hchunk, hstack, hhandlers⟩ := hentered
  refine ⟨hlength, haddr, ?_, hstack, by rw [hhandlers, hframes]; rfl⟩
  rw [hchunk, hframes]
  simp only [List.length_cons]
  cases fs.length + 1 - h.frameDepth <;> rfl

/-- Which errors are bound, and by which handler, when builtins and both evaluators call
each other across up to `m` boundaries. -/
structure ErrorPolicy (R : Runtime σ) (m : Nat) : Prop where
  /-- No evaluation by the tree-walker binds a terminal error. -/
  tree_never : ∀ n form env, Preserves NoneTerminal (R.eval m n form env)
  /-- No run of the machine binds a terminal error. -/
  machine_never : ∀ n vm, Preserves NoneTerminal (run (R.machine m) n vm)
  /-- A terminal error passes through a `try` form. -/
  tree_terminal : ∀ n head args env w name handler err w',
    TryFails R.engine (R.eval m n) head args env w name handler err w' → err.Terminal →
      R.eval m (n + 1) (.list (.symbol head :: args)) env w = some (.error err, w')
  /-- Every other error of its body is bound by a `try` form, which goes on with its handler. -/
  tree_binds : ∀ n head args env w name handler err w',
    TryFails R.engine (R.eval m n) head args env w name handler err w' → ¬err.Terminal →
      R.eval m (n + 1) (.list (.symbol head :: args)) env w =
        evalBody (R.eval m n) handler (w'.store.child env).1 (caughtIn env name err w')
  /-- A terminal error leaves the machine, unless the settlement fails. -/
  machine_terminal : ∀ vm w err w', StepRaises (R.machine m) vm w err w' → err.Terminal →
    ∃ e w'', step (R.machine m) vm w = some (.error e, w'') ∧
      (e = err ∨ Settles (R.machine m) e) ∧ w''.caught = w'.caught
  /-- Every other error that is raised is bound by the innermost live handler, once the
  settlement has succeeded. -/
  machine_binds : ∀ vm w err w' h w'', StepRaises (R.machine m) vm w err w' → ¬err.Terminal →
    vm.handler = some h → settle (R.machine m) w' = some w'' →
      ∃ vm', vm.Entered h (handlerValue err) vm' ∧ step (R.machine m) vm w =
          some (.ok (.running vm'), { w'' with caught := w''.caught ++ [⟨err, handlerValue err⟩]
            })
  /-- A thrown value is bound by the innermost live handler. -/
  machine_throws : ∀ (vm : Machine) f fs a v h w w', vm.frames = f :: fs →
    f.chunk.code[f.ip]? = some ⟨.throw, a⟩ → vm.stack.getLast? = some v → vm.handler = some h →
      (R.machine m).engine.pollCancel w = some (.ok (), w') → ∃ vm', vm.drop.Entered h v vm' ∧
          step (R.machine m) vm w = some (.ok (.running vm'),
            { w' with caught := w'.caught ++ [⟨newThrowError R.engine.string v, v⟩] })
  /-- No other error leaves a step while a handler is live: only terminal errors, answers of
  settlements and reports of malformed bytecode do. -/
  machine_leaves : ∀ vm w err w', step (R.machine m) vm w = some (.error err, w') →
    err.Terminal ∨ IsFault err ∨ Settles (R.machine m) err ∨ vm.handler = none

theorem step_terminal {S : Setup σ} (hraise : StepRaises S vm w err w') (herr : err.Terminal) :
    ∃ e w'', step S vm w = some (.error e, w'') ∧ (e = err ∨ Settles S e) ∧
      w''.caught = w'.caught := by
  obtain ⟨f, fs, instr, w₁, hframes, hinstr, hpoll, hraised⟩ := hraise
  rw [step_of_raise S hframes hinstr hpoll hraised]
  unfold routeRuntimeError
  rw [if_pos ((GoErr.isTerminalEvalError_iff err).2 herr)]
  rcases hsettle : S.engine.poll w'.host with ⟨_ | e, host⟩
  · refine ⟨err, { w' with host := host }, ?_, .inl rfl, rfl⟩
    have hpolled := Engine.pollCancel_of_none hsettle
    simp only [Functor.map, bind, Comp.andThen, Comp.attempt, hpolled, Comp.fail]
  · refine ⟨e, { w' with host := host }, ?_, .inr ⟨w'.host, by rw [hsettle]⟩, rfl⟩
    have hpolled := Engine.pollCancel_of_some hsettle
    simp only [Functor.map, bind, Comp.andThen, Comp.attempt, hpolled, Comp.fail]

theorem step_binds {S : Setup σ} {w'' : World σ} (hraise : StepRaises S vm w err w')
    (herr : ¬err.Terminal) (hh : vm.handler = some h) (hsettle : settle S w' = some w'') :
    ∃ vm', vm.Entered h (handlerValue err) vm' ∧ step S vm w =
        some (.ok (.running vm'), { w'' with caught := w''.caught ++ [⟨err, handlerValue err⟩]
          }) := by
  obtain ⟨f, fs, instr, w₁, hframes, hinstr, hpoll, hraised⟩ := hraise
  have hh' : ({ vm with frames := f.next :: fs } : Machine).handler = some h := by
    rw [← hh]
    simp [Machine.handler, hframes]
  obtain ⟨vm', hentered, hroute⟩ := routeRuntimeError_binds S herr hh' hsettle
  refine ⟨vm', entered_of_next hframes hentered, ?_⟩
  rw [step_of_raise S hframes hinstr hpoll hraised]
  exact bind_of_ok _ hroute

theorem step_throws {f : Frame} {fs : List Frame} {a : Nat} {v : Value}
    (hframes : vm.frames = f :: fs)
    (hinstr : f.chunk.code[f.ip]? = some ⟨.throw, a⟩) (htop : vm.stack.getLast? = some v)
    (hh : vm.handler = some h) (hpoll : S.engine.pollCancel w = some (.ok (), w')) :
    ∃ vm', vm.drop.Entered h v vm' ∧ step S vm w = some (.ok (.running vm'),
        { w' with caught := w'.caught ++ [⟨newThrowError S.engine.string v, v⟩] }) := by
  have hh' : ({ vm with frames := f.next :: fs } : Machine).drop.handler = some h := by
    rw [← hh]
    simp [Machine.handler, Machine.drop, hframes]
  obtain ⟨vm', hthrow, hentered⟩ := Machine.throw_of_handler v hh'
  refine ⟨vm', @entered_of_next vm.drop _ _ _ _ _ hframes hentered, ?_⟩
  have hpeek : peek { vm with frames := f.next :: fs } = .ok v := by
    simp only [peek, htop]
  unfold step
  rw [bind_of_ok _ hpoll, hframes]
  dsimp only
  rw [hinstr]
  simp only [execute, operate, doThrow, hpeek, lift_ok, ret_bind, hthrow]
  rfl

/-- The policy holds for every engine, every set of builtins and any number of boundaries. -/
theorem errorPolicy_holds (R : Runtime σ) (m : Nat) : ErrorPolicy R m where
  tree_never := R.eval_safe m
  machine_never := R.machine_safe m
  tree_terminal := by
    intro n head args env w name handler err w' htry herr
    rw [Runtime.eval, eval_of_tryFails htry, if_pos ((GoErr.isTerminalEvalError_iff err).2 herr)]
  tree_binds := by
    intro n head args env w name handler err w' htry herr
    rw [Runtime.eval, eval_of_tryFails htry,
      if_neg fun h => herr ((GoErr.isTerminalEvalError_iff err).1 h)]
    rfl
  machine_terminal := fun _ _ _ _ hraise herr => step_terminal hraise herr
  machine_binds := fun _ _ _ _ _ _ hraise herr hh hsettle => step_binds hraise herr hh hsettle
  machine_throws := fun _ _ _ _ _ _ _ _ hframes hinstr htop hh hpoll =>
    step_throws (R.machine m) hframes hinstr htop hh hpoll
  machine_leaves := fun vm w err w' h =>
    (step_meets (R.machine m) (R.host_safe m) vm w _ w' h).2 err rfl

end Policy

section Limits

def holdsLimit (err : GoErr) : Bool :=
  (err.first fun e => if (e.lispicoHere.map LispicoError.code) = some GoErr.codeResourceLimit
    then some () else none).isSome

def wrappedLimit : GoErr :=
  .lispico ⟨"TypeError", "expected number", "", 0, 0⟩ (some
    (newResourceLimitError "reduction limit"))

/-- An engine whose builtin fails with `err` and whose host refuses the poll that finds its
count at zero. -/
def failingRuntime (err : GoErr) : Runtime Nat where
  engine :=
    { dialect := Dialect.identity
      maxMacroDepth := 16
      string := fun _ => ""
      quote := fun s => s
      poll := fun
        | 0 => (some (newResourceLimitError "allocation limit"), 0)
        | k + 1 => (none, k) }
  chunkAt := fun _ => none
  native := fun _ _ => .ok .nil
  builtin := fun _ _ _ => .done (.error err)

/-- A root scope in which `f` is the builtin, with a number of polls to answer. -/
def failingWorld (polls : Nat) : World Nat where
  store := ⟨[⟨.goFunc "f" 0, true⟩], [⟨[("f", 0)], []⟩]⟩
  boxes := []
  loopDepth := 0
  macroDepth := 0
  caught := []
  host := polls

/-- `(try (f) (catch e e))`. -/
def tryForm : Value :=
  .list [.symbol "try", .list [.symbol "f"], .list [.symbol "catch", .symbol "e", .symbol "e"]]

def tryChunk : Chunk :=
  .mk 0 false 1 [] []
    [encode .setupTry 5, encode .getGlobal 0, encode .call 0, encode .popTry 0, encode .jump 3,
      encode .setLocal 0, encode .pop 0, encode .getLocal 0, encode .ret 0]
    [.symbol "f"] [] []

def boundErrors {α : Type} (out : Option (Except GoErr α × World Nat)) : Option (List GoErr) :=
  out.map fun r => r.2.caught.map Caught.err

/-- A resource limit below a type error is bound by the handlers of both evaluators; and an
ordinary error is not bound by a handler of the machine when the settlement before it
fails. -/
theorem wrapped_limit_bound : holdsLimit wrappedLimit = true ∧
      (boundErrors ((failingRuntime wrappedLimit).eval 2 4 tryForm [0] (failingWorld 100))).map
        (List.map holdsLimit) = some [true] ∧
      (boundErrors (runChunk ((failingRuntime wrappedLimit).machine 2) 20 tryChunk [] [0]
        (failingWorld 100))).map (List.map holdsLimit) = some [true] ∧
      (newTypeError "number" .nil).isTerminalEvalError = false ∧
      (boundErrors (runChunk ((failingRuntime (newTypeError "number" .nil)).machine 2) 20 tryChunk
        [] [0] (failingWorld 5))).map List.length = some 0 := by
  decide +kernel

end Limits

end VM

end Lispico
