import Mathlib

/-!
# Who charges the result of a builtin

A builtin may charge its result itself; the apply site charges it otherwise. The flag
`calleeCharged` tells which: each site saves and clears it, reads it afterwards and puts it
back. The state is found through the context; a VM passes a wrapper that builds it on demand and
reads as empty once the VM's `runGen` has moved on. A run is given by what happened in it.
Amounts, limits and locks are left out.
-/

namespace Lispico

namespace Runtime

namespace ResultCharges

/-- A context. `plain` is one of the host's, `derived` one that adds a key or a cancellation,
`withState` one that carries an evaluation state and `wrapper` a `lazyEvalStateCtx`. -/
inductive Ctx where
  | plain (id : Nat) (comparable : Bool)
  | derived (id : Nat) (parent : Ctx)
  | withState (st : Nat) (parent : Ctx)
  | wrapper (w : Nat) (parent : Ctx)
deriving DecidableEq, Repr

/-- The fields of a `lazyEvalStateCtx` that change: the VM it is stamped for, the stamp and the
state it has built. -/
structure Wrapper where
  owner : Option Nat
  gen : Nat
  state : Option Nat
deriving DecidableEq, Repr

structure Machine where
  runGen : Nat
  reentryCtx : Option Ctx
deriving DecidableEq, Repr

/-- The evaluation states with their flags, the wrappers and the VMs. -/
structure World where
  states : Nat
  calleeCharged : Nat → Bool
  wrappers : Nat
  wrapper : Nat → Wrapper
  vm : Nat → Machine

namespace World

def init : World := ⟨0, fun _ => false, 0, fun _ => ⟨none, 0, none⟩, fun _ => ⟨0, none⟩⟩

def live (W : World) (w : Nat) : Bool :=
  match (W.wrapper w).owner with
  | none => true
  | some v => (W.wrapper w).gen == (W.vm v).runGen

def mark (W : World) (st : Nat) (charged : Bool) : World :=
  { W with calleeCharged := Function.update W.calleeCharged st charged }

def newEvalState (W : World) : Nat × World :=
  (W.states, { W.mark W.states false with states := W.states + 1 })

def materialize (W : World) (w : Nat) : Nat × World :=
  let built := W.newEvalState
  (built.1, { built.2 with
    wrapper := Function.update built.2.wrapper w { W.wrapper w with state := some built.1 } })

def newWrapper (W : World) (owner : Option Nat) (gen : Nat) : Nat × World :=
  (W.wrappers, { W with
    wrappers := W.wrappers + 1
    wrapper := Function.update W.wrapper W.wrappers ⟨owner, gen, none⟩ })

/-- `Value` with the key of the evaluation state. -/
def value (W : World) : Ctx → Option Nat × World
  | .plain _ _ => (none, W)
  | .derived _ parent => W.value parent
  | .withState st _ => (some st, W)
  | .wrapper w parent =>
    if W.live w then
      match W.value parent with
      | (some st, W) => (some st, W)
      | (none, W) =>
        match (W.wrapper w).state with
        | some st => (some st, W)
        | none =>
          let built := W.materialize w
          (some built.1, built.2)
    else W.value parent

/-- `evalStateFrom`: a state that nobody else sees if the context carries none. -/
def evalStateFrom (W : World) (c : Ctx) : Nat × World :=
  match W.value c with
  | (some st, W) => (st, W)
  | (none, W) => W.newEvalState

def ensureEvalState (W : World) (c : Ctx) : Ctx × World :=
  match W.value c with
  | (some _, W) => (c, W)
  | (none, W) =>
    let built := W.newEvalState
    (.withState built.1 c, built.2)

def detachEvalState (W : World) (c : Ctx) : Ctx × World :=
  let built := W.newEvalState
  (.withState built.1 c, built.2)

def adoptEvalState (W : World) (c : Ctx) : Ctx × World :=
  match W.value c with
  | (some _, W) => (c, W)
  | (none, W) =>
    let built := W.newWrapper none 0
    (.wrapper built.1 c, built.2)

def meterIfMaterialized (W : World) : Ctx → Option Nat × World
  | .wrapper w _ => (if W.live w then (W.wrapper w).state else none, W)
  | c => W.value c

def chargeGoFuncResultBytes (W : World) (c : Ctx) : World :=
  let found := W.evalStateFrom c
  found.2.mark found.1 true

def beginGoFuncDispatch (W : World) (c : Ctx) : Bool × World :=
  match W.meterIfMaterialized c with
  | (none, W) => (false, W)
  | (some st, W) => (W.calleeCharged st, W.mark st false)

def endGoFuncDispatch (W : World) (c : Ctx) (prev : Bool) : Bool × World :=
  match W.meterIfMaterialized c with
  | (none, W) => (false, W)
  | (some st, W) => (W.calleeCharged st, W.mark st prev)

def keep (W : World) (v : Nat) (c : Ctx) : World :=
  { W with vm := Function.update W.vm v { W.vm v with reentryCtx := some c } }

/-- `AdoptReentrantEvalState`, kept by the VM. -/
def adoptReentrant (W : World) (v : Nat) (c : Ctx) : Ctx × World :=
  match W.value c with
  | (some _, W) => (c, W.keep v c)
  | (none, W) =>
    let built := W.newWrapper (some v) (W.vm v).runGen
    (.wrapper built.1 c, built.2.keep v (.wrapper built.1 c))

/-- `ctxComparable`: only a context of the host's own type can fail. -/
def comparable : Ctx → Bool
  | .plain _ comparable => comparable
  | _ => true

/-- `RearmReentrantEvalState` for a wrapper: its state is dropped and it is stamped anew. -/
def rearm (W : World) (w : Nat) : World :=
  let gen :=
    match (W.wrapper w).owner with
    | none => (W.wrapper w).gen
    | some v => (W.vm v).runGen
  { W with wrapper := Function.update W.wrapper w ⟨(W.wrapper w).owner, gen, none⟩ }

/-- `reentrantCtx`: the wrapper kept is live, or is rearmed for the same outer context, or a
context is adopted. -/
def reentrantCtx (W : World) (v : Nat) (c : Ctx) : Ctx × World :=
  match (W.vm v).reentryCtx with
  | some (.wrapper w parent) =>
    if W.live w then (.wrapper w parent, W)
    else if comparable parent = true ∧ parent = c then (.wrapper w parent, W.rearm w)
    else W.adoptReentrant v c
  | _ => W.adoptReentrant v c

/-- The end of `Run` or `ApplyPooled`. -/
def bumpRunGen (W : World) (v : Nat) : World :=
  if (W.vm v).reentryCtx.isSome then
    { W with vm := Function.update W.vm v { W.vm v with runGen := (W.vm v).runGen + 1 } }
  else W

end World

/-- The context a builtin or the host enters evaluation with, made from its own. -/
inductive Source where
  | own
  | bare (id : Nat) (comparable : Bool)
  | derived (id : Nat) (source : Source)
  | detached (source : Source)
  | adopted (source : Source)

def Source.make : Source → Ctx → World → Ctx × World
  | .own, c, W => (c, W)
  | .bare id comparable, _, W => (.plain id comparable, W)
  | .derived id source, c, W =>
    let made := source.make c W
    (.derived id made.1, made.2)
  | .detached source, c, W =>
    let made := source.make c W
    made.2.detachEvalState made.1
  | .adopted source, c, W =>
    let made := source.make c W
    made.2.adoptEvalState made.1

/-- The evaluator that runs: the tree-walker, or a VM of the pool. -/
inductive Evaluator where
  | tree
  | vm (v : Nat)
deriving DecidableEq, Repr

/-- How evaluation is entered from Go. The tree-walker and `bytecodeEvaluator.Apply` ensure an
evaluation state, as `Engine.Eval` does; `Engine.Call` on a VM looks for one. The entry points of
the engine recover from panics. -/
structure Entry where
  source : Source
  evaluator : Evaluator
  ensures : Bool
  recovers : Bool

def Entry.start (e : Entry) (c : Ctx) (W : World) : Ctx × World :=
  let made := e.source.make c W
  if e.ensures || e.evaluator == .tree then made.2.ensureEvalState made.1
  else (made.1, (made.2.value made.1).2)

inductive Outcome where
  | returned
  | failed
  | panicked
deriving DecidableEq, Repr

mutual

/-- What a builtin does: it charges its result, charges anything else, or enters evaluation. -/
inductive Acts where
  | done (outcome : Outcome)
  | chargeResult (rest : Acts)
  | charge (rest : Acts)
  | enter (entry : Entry) (run : Run) (rest : Acts)

/-- What an evaluator does: it reads the evaluation state, dispatches a builtin, or applies a
function of the other evaluator, on the VM `v` if that is the compiled one. -/
inductive Run where
  | done
  | charge (rest : Run)
  | dispatch (callee : Acts) (rest : Run)
  | apply (v : Nat) (run : Run) (rest : Run)

end

/-- Whether the invocation itself calls `ChargeGoFuncResultBytes`. -/
def Acts.charges : Acts → Bool
  | .done _ => false
  | .chargeResult _ => true
  | .charge rest => rest.charges
  | .enter _ _ rest => rest.charges

/-- A builtin that has returned: whether it charged its result, and whether its apply site
did. -/
structure Applied where
  charged : Bool
  fallback : Bool
deriving DecidableEq, Repr

/-- The end of a dispatch: the apply site charges the result of a builtin that has returned and
has not been seen to charge it. -/
def settle (callee : Acts) (outcome : Outcome) (charged : Bool) : List Applied :=
  match outcome with
  | .returned => [⟨callee.charges, !charged⟩]
  | _ => []

def siteCtx (ev : Evaluator) (c : Ctx) (W : World) : Ctx × World :=
  match ev with
  | .tree => W.ensureEvalState c
  | .vm v => W.reentrantCtx v c

/-- Before the call of a builtin: what the flag was, and the state whose flag it was if the
apply site holds on to it, as the tree-walker does. -/
def beginDispatch (ev : Evaluator) (c : Ctx) (W : World) : Bool × Option Nat × World :=
  match ev with
  | .tree =>
    let found := W.evalStateFrom c
    (found.2.calleeCharged found.1, some found.1, found.2.mark found.1 false)
  | .vm _ =>
    let begun := W.beginGoFuncDispatch c
    (begun.1, none, begun.2)

def endDispatch (held : Option Nat) (c : Ctx) (prev : Bool) (W : World) : Bool × World :=
  match held with
  | some st => (W.calleeCharged st, W.mark st prev)
  | none => W.endGoFuncDispatch c prev

def Evaluator.other : Evaluator → Nat → Evaluator
  | .tree, v => .vm v
  | .vm _, _ => .tree

def Evaluator.finish : Evaluator → World → World
  | .tree, W => W
  | .vm v, W => W.bumpRunGen v

mutual

/-- Run a builtin with its context: how it ends, and the builtins that returned meanwhile. -/
def Acts.run : Acts → Ctx → World → Outcome × List Applied × World
  | .done outcome, _, W => (outcome, [], W)
  | .chargeResult rest, c, W => rest.run c (W.chargeGoFuncResultBytes c)
  | .charge rest, c, W => rest.run c (W.evalStateFrom c).2
  | .enter entry run rest, c, W =>
    let start := entry.start c W
    let inner := run.run entry.evaluator start.1 start.2
    let left := entry.evaluator.finish inner.2.2
    -- A panic that nobody recovers from ends the builtin too.
    if inner.1 && !entry.recovers then (.panicked, inner.2.1, left)
    else
      let after := rest.run c left
      (after.1, inner.2.1 ++ after.2.1, after.2.2)

/-- Run an evaluator with its context: whether it panics, and the builtins that returned. -/
def Run.run : Run → Evaluator → Ctx → World → Bool × List Applied × World
  | .done, _, _, W => (false, [], W)
  | .charge rest, ev, c, W =>
    let site := siteCtx ev c W
    rest.run ev c (site.2.evalStateFrom site.1).2
  | .dispatch callee rest, ev, c, W =>
    let site := siteCtx ev c W
    let begun := beginDispatch ev site.1 site.2
    let called := callee.run site.1 begun.2.2
    -- A panic passes the apply site, which then does not put the flag back.
    if called.1 = .panicked then (true, called.2.1, called.2.2)
    else
      let ended := endDispatch begun.2.1 site.1 begun.1 called.2.2
      let after := rest.run ev c ended.2
      (after.1, called.2.1 ++ (settle callee called.1 ended.1 ++ after.2.1), after.2.2)
  | .apply v run rest, ev, c, W =>
    let site := siteCtx ev c W
    let start := site.2.ensureEvalState site.1
    let inner := run.run (ev.other v) start.1 start.2
    let left := (ev.other v).finish inner.2.2
    if inner.1 then (true, inner.2.1, left)
    else
      let after := rest.run ev c left
      (after.1, inner.2.1 ++ after.2.1, after.2.2)

end

/-- The host enters evaluation again and again, with contexts of its own. -/
def hostRun : List (Entry × Run) → World → List Applied × World
  | [], W => ([], W)
  | (entry, run) :: rest, W =>
    let start := entry.start (.plain 0 true) W
    let inner := run.run entry.evaluator start.1 start.2
    let after := hostRun rest (entry.evaluator.finish inner.2.2)
    (inner.2.1 ++ after.1, after.2)

end ResultCharges

end Runtime

end Lispico
