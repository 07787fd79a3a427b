import Lispico.Core.Error
import Lispico.Lib.Comp
import Lispico.Lib.Heap

/-!
# The state machine plugin

`fsm/create` reads a machine, `fsm/on-transition` adds a callback and `fsm/transition` takes an
event. Guards, actions and callbacks run in the calling evaluator with no lock held and may call
the plugin again; a machine is held by its place.
-/

namespace Lispico

namespace Fsm

open Lib Comp

abbrev Value := Core.Value

abbrev GoErr := Core.GoErr

abbrev Pairs := List (Value × Value)

structure Transition where
  target : String
  guard : Option Value
  action : Option Value

/-- `StateConfig`: the transitions by event. -/
abbrev StateConfig := List (String × Transition)

structure StateMachine where
  id : String
  initial : String
  current : String
  states : List (String × StateConfig)
  callbacks : List Value
  inTransition : Bool

def asKeyword : Value → Option String
  | .keyword v => some v
  | _ => none

def asMap : Value → Option Pairs
  | .map pairs => some pairs
  | _ => none

def asLambda : Value → Option Value
  | .lambda name params variadic body env => some (.lambda name params variadic body env)
  | _ => none

def get (pairs : Pairs) (name : String) : Option Value := Core.Value.mapGet pairs (.keyword name)

def parseFunction (what : String) (t : Pairs) : Except String (Option Value) :=
  match get t what with
  | none => .ok none
  | some .nil => .ok none
  | some f =>
    match asLambda f with
    | some f => .ok (some f)
    | none => .error (what ++ " must be a function")

/-- A keyword under `:target`, any other value being no state. -/
def parseTarget (t : Pairs) : String := ((get t "target").bind asKeyword).getD ""

def parseTransition (v : Value) : Except String Transition :=
  match asKeyword v, asMap v with
  | some target, _ => .ok ⟨target, none, none⟩
  | none, some t => do
      let guard ← parseFunction "guard" t
      let action ← parseFunction "action" t
      .ok ⟨parseTarget t, guard, action⟩
  | none, none => .ok ⟨"", none, none⟩

def parseOn : Pairs → Except String StateConfig
  | [] => .ok []
  | (k, v) :: on =>
    match asKeyword k with
    | none => .error "definition key must be a keyword"
    | some event => do
        let tr ← parseTransition v
        let rest ← parseOn on
        .ok ((event, tr) :: rest)

def parseState (stateDef : Pairs) : Except String StateConfig :=
  match get stateDef "on" with
  | none => .ok []
  | some on =>
    match asMap on with
    | none => .error "on must be a map"
    | some on => parseOn on

/-- The loop over the states, with how `%q` prints a name. -/
def parseStates (quote : String → String) : Pairs → Except String (List (String × StateConfig))
  | [] => .ok []
  | (k, v) :: states =>
    match asKeyword k with
    | none => .error "state key must be a keyword"
    | some state =>
      match asMap v with
      | none => .error ("state " ++ quote state ++ " must be a map")
      | some stateDef => do
          let cfg ← parseState stateDef
          let rest ← parseStates quote states
          .ok ((state, cfg) :: rest)

def parseInitial (def_ : Pairs) : Except String String :=
  match get def_ "initial" with
  | none => .ok ""
  | some v =>
    match asKeyword v with
    | none => .error "initial must be keyword"
    | some initial => .ok initial

/-- The checks on the states and the transitions of a definition. -/
def validate (quote : String → String) (id initial : String)
    (states : List (String × StateConfig)) : Except String Unit :=
  if states.isEmpty then .error ("state machine " ++ quote id ++ " declares no states")
  else if initial = "" then
    .error ("state machine " ++ quote id ++ " declares no initial state")
  else if (states.lookup initial).isNone then
    .error ("initial state " ++ quote initial ++ " is not declared")
  else
    match (states.flatMap fun s => s.2.map fun t => t.2.target).find?
      fun target => (states.lookup target).isNone with
    | some target => .error ("transition target " ++ quote target ++ " is not a declared state")
    | none => .ok ()

/-- The states under `:states`. -/
def parseDeclared (quote : String → String) (def_ : Pairs) :
    Except String (List (String × StateConfig)) :=
  match get def_ "states" with
  | none => .ok []
  | some v =>
    match asMap v with
    | none => .error "states must be a map"
    | some states => parseStates quote states

def createMachine (quote : String → String) (id : String) (def_ : Pairs) :
    Except String StateMachine :=
  if def_.any fun pair => (asKeyword pair.1).isNone then .error "definition key must be a keyword"
  else do
    let initial ← parseInitial def_
    let states ← parseDeclared quote def_
    validate quote id initial states
    .ok ⟨id, initial, initial, states, [], false⟩

/-- The machines of the plugin, and what else evaluation changes. -/
structure World (W : Type) where
  machines : List (String × Addr)
  heap : Heap StateMachine
  rest : W

/-- The evaluator that calls the plugin, and how `%q` prints a name. -/
structure Host (W : Type) where
  apply : Value → List Value → Comp (World W) GoErr Value
  quote : String → String

section

variable {W : Type}

def fail (text : String) {α : Type} : Comp (World W) GoErr α := Comp.fail (.plain text)

def World.modify (i : Addr) (f : StateMachine → StateMachine) (w : World W) : World W :=
  { w with heap := w.heap.modify i f }

def World.put (id : String) (sm : StateMachine) (w : World W) : World W :=
  let (heap, i) := w.heap.alloc sm
  { w with heap := heap, machines := (id, i) :: w.machines }

def World.find (w : World W) (id : String) : Option (Addr × StateMachine) := do
  let i ← w.machines.lookup id
  let sm ← w.heap.read i
  some (i, sm)

def create (host : Host W) : List Value → Comp (World W) GoErr Value
  | [id, def_] =>
    match asKeyword id, asMap def_ with
    | none, _ => fail "fsm/create: first argument must be keyword"
    | some _, none => fail "fsm/create: second argument must be map"
    | some id, some def_ =>
      match createMachine host.quote id def_ with
      | .error err => fail ("fsm/create: " ++ err)
      | .ok sm => do
          update (World.put id sm)
          ret (.keyword id)
  | _ => fail "fsm/create: requires 2 arguments (id, definition)"

structure TransitionResult where
  state : String := ""
  from_ : String := ""
  to_ : String := ""
  valid : Bool := false
  error : String := ""

def TransitionResult.refused (state error : String) : TransitionResult :=
  ⟨state, state, state, false, error⟩

def transitionArgs (from_ target event : String) : List Value :=
  [.keyword from_, .keyword target, .keyword event]

/-- The guard: whether the transition is let through, or how it ends. -/
def runGuard (host : Host W) (from_ event : String) (tr : Transition) :
    Comp (World W) GoErr (Option TransitionResult) :=
  match tr.guard with
  | none => ret none
  | some guard => do
      let r ← attempt (host.apply guard (transitionArgs from_ tr.target event))
      match r with
      | .error err =>
        if err.isTerminalEvalError then
          Comp.fail (.wrap ("fsm: guard: " ++ err.error) (some err))
        else ret (some (.refused from_ ("guard error: " ++ err.error)))
      | .ok v =>
        if v.isTruthy then ret none else ret (some (.refused from_ "guard returned false"))

def runAction (host : Host W) (from_ event : String) (tr : Transition) :
    Comp (World W) GoErr TransitionResult :=
  match tr.action with
  | none => ret ⟨tr.target, from_, tr.target, true, ""⟩
  | some action => do
      let r ← attempt (host.apply action (transitionArgs from_ tr.target event))
      match r with
      | .error err =>
        if err.isTerminalEvalError then
          Comp.fail (.wrap ("fsm: action: " ++ err.error) (some err))
        else ret ⟨tr.target, from_, tr.target, false, "action: " ++ err.error⟩
      | .ok _ => ret ⟨tr.target, from_, tr.target, true, ""⟩

def commit (host : Host W) (i : Addr) (from_ event : String) (tr : Transition) :
    Comp (World W) GoErr TransitionResult := do
  let w ← read
  match w.heap.read i with
  -- A machine stays where it is.
  | none => diverge
  | some sm =>
    if sm.current ≠ from_ then
      ret { error := "state changed during guard evaluation" }
    else do
      update (World.modify i fun sm => { sm with current := tr.target })
      runAction host from_ event tr

/-- `TransitionWithEval` on a machine that was read as `sm`, while its flag is set. -/
def takeEvent (host : Host W) (i : Addr) (sm : StateMachine) (event : String) :
    Comp (World W) GoErr TransitionResult :=
  match sm.states.lookup sm.current with
  | none => fail ("invalid current state: " ++ sm.current)
  | some cfg =>
    match cfg.lookup event with
    | none =>
      ret (.refused sm.current ("event " ++ event ++ " not valid in state " ++ sm.current))
    | some tr => do
        let refused ← runGuard host sm.current event tr
        match refused with
        | some result => ret result
        | none => commit host i sm.current event tr

def transitionWithEval (host : Host W) (i : Addr) (sm : StateMachine) (event : String) :
    Comp (World W) GoErr TransitionResult :=
  if sm.inTransition then
    fail ("fsm: transition already in progress on machine " ++ sm.id)
  else
    within (World.modify i fun sm => { sm with inTransition := true })
      (World.modify i fun sm => { sm with inTransition := false }) (takeEvent host i sm event)

/-- The loop of `notify`, with the first error so far. -/
def notifyAll (host : Host W) (args : List Value) :
    List Value → Option String → Comp (World W) GoErr (Option String)
  | [], first => ret first
  | cb :: cbs, first => do
      let r ← attempt (host.apply cb args)
      match r with
      | .error err => notifyAll host args cbs (first.or (some ("callback: " ++ err.error)))
      | .ok _ => notifyAll host args cbs first

/-- `broadcast`: the callbacks of the machine that now has the name. -/
def broadcast (host : Host W) (id : String) (result : TransitionResult) :
    Comp (World W) GoErr (Option String) := do
  let w ← read
  match w.find id with
  | none => ret none
  | some (_, sm) =>
    notifyAll host [.string id, .keyword result.from_, .keyword result.to_] sm.callbacks none

/-- `Assoc` with a keyword for the key. -/
def assoc (name : String) (v : Value) (pairs : Pairs) : Pairs :=
  Core.Value.pairsSet ⟨.hkKeyword, 0, name⟩ (.keyword name) v pairs

def TransitionResult.toMap (result : TransitionResult) : Value :=
  let pairs := assoc "valid" (.bool result.valid) (assoc "state" (.keyword result.state) [])
  .map (if result.error = "" then pairs else assoc "error" (.string result.error) pairs)

def TransitionResult.adding (result : TransitionResult) : Option String → TransitionResult
  | none => result
  | some err =>
    { result with error := if result.error ≠ "" then result.error ++ "; " ++ err else err }

def transitionResult (host : Host W) (i : Addr) (sm : StateMachine) (event : String) :
    Comp (World W) GoErr Value := do
  let result ← transitionWithEval host i sm event
  if result.valid then do
    let err ← broadcast host sm.id result
    ret (result.adding err).toMap
  else ret result.toMap

/-- The machine that an argument names, for a function of the plugin. -/
def withMachine (id : Value) (notKeyword : String) (unknown : String → Comp (World W) GoErr Value)
    (k : Addr → StateMachine → Comp (World W) GoErr Value) : Comp (World W) GoErr Value :=
  match asKeyword id with
  | none => fail notKeyword
  | some id => do
      let w ← read
      match w.find id with
      | none => unknown id
      | some (i, sm) => k i sm

def transitionOf (host : Host W) (id event : Value) : Comp (World W) GoErr Value :=
  withMachine id "fsm/transition: first argument must be keyword"
    (fun id => fail ("fsm/transition: unknown machine " ++ id)) fun i sm =>
    match asKeyword event with
    | none => fail "fsm/transition: event must be keyword"
    | some event => transitionResult host i sm event

/-- The context of a transition, its third argument, only goes with the event to the host. -/
def transition (host : Host W) : List Value → Comp (World W) GoErr Value
  | [id, event] => transitionOf host id event
  | [id, event, _] => transitionOf host id event
  | _ => fail "fsm/transition: requires 2-3 arguments"

def addCallback (cb : Value) (sm : StateMachine) : StateMachine :=
  { sm with callbacks := sm.callbacks ++ [cb] }

def onTransition : List Value → Comp (World W) GoErr Value
  | [id, cb] =>
    withMachine id "fsm/on-transition: first argument must be keyword"
      (fun id => fail ("fsm/on-transition: unknown machine " ++ id)) fun i _ =>
      match asLambda cb with
      | none => fail "fsm/on-transition: callback must be function"
      | some cb => do
          update (World.modify i (addCallback cb))
          ret .nil
  | _ => fail "fsm/on-transition: requires 2 arguments"

def currentState : List Value → Comp (World W) GoErr Value
  | [id] =>
    withMachine id "fsm/current-state: argument must be keyword"
      (fun id => fail ("fsm/current-state: unknown machine " ++ id)) fun _ sm =>
      ret (.keyword sm.current)
  | _ => fail "fsm/current-state: requires 1 argument"

def reset : List Value → Comp (World W) GoErr Value
  | [id] =>
    withMachine id "fsm/reset: argument must be keyword"
      (fun id => fail ("fsm/reset: unknown machine " ++ id)) fun i sm =>
      if sm.inTransition then
        fail ("fsm/reset: fsm: transition already in progress on machine " ++ sm.id)
      else do
        update (World.modify i fun sm => { sm with current := sm.initial })
        ret (.keyword sm.initial)
  | _ => fail "fsm/reset: requires 1 argument"

def StateMachine.canTransition (sm : StateMachine) (event : String) : Bool :=
  match sm.states.lookup sm.current with
  | none => false
  | some cfg => (cfg.lookup event).isSome

def valid : List Value → Comp (World W) GoErr Value
  | [id, event] =>
    withMachine id "fsm/valid?: first argument must be keyword"
      (fun _ => ret (.bool false)) fun _ sm =>
      match asKeyword event with
      | none => fail "fsm/valid?: event must be keyword"
      | some event => ret (.bool (sm.canTransition event))
  | _ => fail "fsm/valid?: requires 2 arguments"

inductive Builtin where
  | create
  | transition
  | valid
  | currentState
  | reset
  | onTransition
deriving DecidableEq, Repr

def Builtin.run (host : Host W) : Builtin → List Value → Comp (World W) GoErr Value
  | .create => Fsm.create host
  | .transition => Fsm.transition host
  | .valid => Fsm.valid
  | .currentState => Fsm.currentState
  | .reset => Fsm.reset
  | .onTransition => Fsm.onTransition

structure Call where
  fn : Builtin
  args : List Value

/-- Calls one after another: what each returned, as far as they all did. -/
def runCalls (host : Host W) : List Call → Comp (World W) GoErr (List (Except GoErr Value))
  | [] => ret []
  | call :: calls => do
      let r ← attempt (call.fn.run host call.args)
      let rs ← runCalls host calls
      ret (r :: rs)

end

end Fsm

end Lispico
