import Lispico.Plugins.Fsm

/-!
# State machines under the two evaluators

The calls that a program makes on the plugin from the two evaluators differ in lambdas against
closures only. The plugin takes a lambda for a guard, an action or a callback and refuses a
closure; calls that hand it no function come out alike.
-/

namespace Lispico

namespace Fsm

open Lib Comp List

def isFunction : Value → Bool
  | .lambda _ _ _ _ _ => true
  | .closure _ _ _ => true
  | _ => false

def isCollection : Value → Bool
  | .list _ => true
  | .vector _ => true
  | .map _ => true
  | _ => false

section

variable (same : Value → Value → Prop)

mutual

/-- A value of the tree-walker and a value of the machine, from the same source: `same` are
a lambda and a closure of one function. -/
inductive Twin : Value → Value → Prop where
  | scalar {v : Value} (hf : isFunction v = false) (hc : isCollection v = false) : Twin v v
  | list {xs ys : List Value} (h : List.Forall₂ Twin xs ys) : Twin (.list xs) (.list ys)
  | vector {xs ys : List Value} (h : List.Forall₂ Twin xs ys) : Twin (.vector xs) (.vector ys)
  | map {ps qs : Pairs} (h : TwinPairs ps qs) : Twin (.map ps) (.map qs)
  | function {name : String} {params : List String} {variadic : String} {body : List Value}
      {env chunk caps globals : List Nat}
      (h : same (.lambda name params variadic body env) (.closure chunk caps globals)) :
      Twin (.lambda name params variadic body env) (.closure chunk caps globals)

inductive TwinPairs : Pairs → Pairs → Prop where
  | nil : TwinPairs [] []
  | cons {k v v' : Value} {ps qs : Pairs} (hv : Twin v v') (h : TwinPairs ps qs) :
      TwinPairs ((k, v) :: ps) ((k, v') :: qs)

end

structure TwinCall (call call' : Call) : Prop where
  fn : call'.fn = call.fn
  args : List.Forall₂ (Twin same) call.args call'.args

end

def PlainTransition (v : Value) : Prop :=
  ∀ t, asMap v = some t → ∀ what ∈ ["guard", "action"], ∀ f, get t what = some f →
    isFunction f = false

def PlainState (v : Value) : Prop :=
  ∀ stateDef, asMap v = some stateDef → ∀ on, (get stateDef "on").bind asMap = some on →
    ∀ p ∈ on, PlainTransition p.2

def PlainDefinition (v : Value) : Prop :=
  ∀ def_, asMap v = some def_ → ∀ states, (get def_ "states").bind asMap = some states →
    ∀ p ∈ states, PlainState p.2

def Call.Plain (call : Call) : Prop :=
  match call.fn, call.args with
  | .create, [_, def_] => PlainDefinition def_
  | .onTransition, [_, cb] => isFunction cb = false
  | _, _ => True

def PlainConfig (cfg : StateConfig) : Prop := ∀ t ∈ cfg, t.2.guard = none ∧ t.2.action = none

structure StateMachine.Plain (sm : StateMachine) : Prop where
  states : ∀ s ∈ sm.states, PlainConfig s.2
  callbacks : sm.callbacks = []

section

variable {same : Value → Value → Prop} {v v' : Value} (name : String)

theorem asKeyword_twin (h : Twin same v v') : asKeyword v' = asKeyword v := by
  cases h <;> rfl

theorem asMap_twin (h : Twin same v v') : Option.Rel (TwinPairs same) (asMap v) (asMap v') := by
  cases h with
  | map h => exact .some h
  | scalar hf hc => cases v <;> first | exact .none | cases hc
  | _ => exact .none

theorem asLambda_twin (h : Twin same v v') (hplain : isFunction v = false) :
    asLambda v = none ∧ asLambda v' = none := by
  cases h with
  | function _ => cases hplain
  | scalar hf hc => cases v <;> first | exact ⟨rfl, rfl⟩ | cases hf
  | _ => exact ⟨rfl, rfl⟩

theorem pairsGet_twin (hk : Core.HashKey) : {ps qs : Pairs} → TwinPairs same ps qs →
    Option.Rel (Twin same) (Core.Value.pairsGet hk ps) (Core.Value.pairsGet hk qs)
  | _, _, .nil => .none
  | _, _, @TwinPairs.cons _ k _ _ _ _ hv h => by
    unfold Core.Value.pairsGet
    cases Core.toHashKey (Core.Value.key k) with
    | error _ => exact pairsGet_twin hk h
    | ok hk' =>
      dsimp only
      by_cases heq : hk' = hk
      · rw [if_pos heq, if_pos heq]
        exact .some hv
      · rw [if_neg heq, if_neg heq]
        exact pairsGet_twin hk h

theorem get_twin {ps qs : Pairs} (h : TwinPairs same ps qs) :
    Option.Rel (Twin same) (get ps name) (get qs name) :=
  pairsGet_twin _ h

variable {t : Pairs} {t' : Pairs}

theorem parseTarget_twin (h : TwinPairs same t t') : parseTarget t' = parseTarget t := by
  unfold parseTarget
  have hget := get_twin "target" h
  generalize get t "target" = x, get t' "target" = y at hget
  cases hget with
  | none => rfl
  | some hv => rw [Option.bind_some, Option.bind_some, asKeyword_twin hv]

/-- Two parses agree, and what they give has a property. -/
structure Alike {α : Type} (P : α → Prop) (r r' : Except String α) : Prop where
  same : r' = r
  plain : ∀ a, r = .ok a → P a

namespace Alike

variable {α β : Type} {P : α → Prop} {Q : β → Prop}

theorem ok {a : α} (h : P a) : Alike P (.ok a) (.ok a) :=
  ⟨rfl, fun _ ha => Except.ok.inj ha ▸ h⟩

theorem error (err : String) : Alike P (.error err) (.error err) := ⟨rfl, nofun⟩

theorem bind {r r' : Except String α} {f f' : α → Except String β} (h : Alike P r r')
    (hf : ∀ a, P a → Alike Q (f a) (f' a)) : Alike Q (r >>= f) (r' >>= f') := by
  obtain ⟨rfl, hP⟩ := h
  cases r' with
  | error err => exact error err
  | ok a => exact hf a (hP a rfl)

end Alike

theorem parseFunction_twin (what : String) (h : TwinPairs same t t')
    (hplain : ∀ f, get t what = some f → isFunction f = false) :
    Alike (· = none) (parseFunction what t) (parseFunction what t') := by
  unfold parseFunction
  have hget := get_twin what h
  generalize get t what = x, get t' what = y at hget hplain
  cases hget with
  | none => exact .ok rfl
  | @some v _ hv =>
    cases hv with
    | function _ => cases hplain _ rfl
    | scalar hf hc => cases v <;> first | exact .ok rfl | exact .error _ | cases hf
    | _ => exact .error _

theorem parseTransition_twin (h : Twin same v v') (hplain : PlainTransition v) :
    Alike (fun tr => tr.guard = none ∧ tr.action = none) (parseTransition v)
      (parseTransition v') := by
  unfold parseTransition
  rw [asKeyword_twin h]
  have hmap := asMap_twin h
  unfold PlainTransition at hplain
  generalize asMap v = x, asMap v' = y at hmap hplain
  cases asKeyword v with
  | some target => exact .ok ⟨rfl, rfl⟩
  | none =>
    cases hmap with
    | none => exact .ok ⟨rfl, rfl⟩
    | some ht =>
      refine (parseFunction_twin "guard" ht (hplain _ rfl _ (by simp))).bind fun _ hguard => ?_
      refine (parseFunction_twin "action" ht (hplain _ rfl _ (by simp))).bind fun _ haction => ?_
      rw [parseTarget_twin ht]
      exact .ok ⟨hguard, haction⟩

theorem parseOn_twin : {on on' : Pairs} → TwinPairs same on on' →
    (∀ p ∈ on, PlainTransition p.2) → Alike PlainConfig (parseOn on) (parseOn on')
  | _, _, .nil, _ => .ok nofun
  | (k, v) :: on, _, .cons hv h, hplain => by
    unfold parseOn
    cases asKeyword k with
    | none => exact .error _
    | some event =>
      refine (parseTransition_twin hv (hplain (k, v) mem_cons_self)).bind fun _ htr => ?_
      refine (parseOn_twin h fun p hp => hplain p (mem_cons_of_mem _ hp)).bind
        fun _ hrest => .ok ?_
      exact List.forall_mem_cons.2 ⟨htr, hrest⟩

/-- The parse of what two definitions have under a name, if it is a map. -/
theorem getMap_alike {α : Type} {P : α → Prop} (F : Pairs → Except String α) {a : α} {err : String}
    {d d' : Pairs} (h : TwinPairs same d d') (ha : P a)
    (hF : ∀ m m', (get d name).bind asMap = some m → TwinPairs same m m' → Alike P (F m) (F m')) :
    let parse (d : Pairs) := match get d name with
      | none => Except.ok a
      | some v =>
        match asMap v with
        | none => .error err
        | some m => F m
    Alike P (parse d) (parse d') := by
  dsimp only
  have hget := get_twin name h
  generalize get d name = x, get d' name = y at hget hF
  cases hget with
  | none => exact .ok ha
  | @some v v' hv =>
    have hmap := asMap_twin hv
    rw [Option.bind_some] at hF
    dsimp only
    generalize asMap v = x, asMap v' = y at hmap hF
    cases hmap with
    | none => exact .error _
    | some hm => exact hF _ _ rfl hm

theorem parseState_twin {sd sd' : Pairs} (h : TwinPairs same sd sd')
    (hplain : ∀ on, (get sd "on").bind asMap = some on → ∀ p ∈ on, PlainTransition p.2) :
    Alike PlainConfig (parseState sd) (parseState sd') :=
  getMap_alike "on" parseOn h nofun fun _ _ hon hm => parseOn_twin hm (hplain _ hon)

theorem parseStates_twin (quote : String → String) : {sts sts' : Pairs} →
    TwinPairs same sts sts' → (∀ p ∈ sts, PlainState p.2) →
      Alike (fun states => ∀ s ∈ states, PlainConfig s.2) (parseStates quote sts)
        (parseStates quote sts')
  | _, _, .nil, _ => .ok nofun
  | (k, v) :: sts, (_, v') :: _, .cons hv h, hplain => by
    have hstate := hplain (k, v) mem_cons_self
    have hmap := asMap_twin hv
    unfold PlainState at hstate
    unfold parseStates
    dsimp only at hstate
    generalize asMap v = x, asMap v' = y at hmap hstate
    cases asKeyword k with
    | none => exact .error _
    | some state =>
      cases hmap with
      | none => exact .error _
      | some hsd =>
        refine (parseState_twin hsd (hstate _ rfl)).bind fun _ hcfg => ?_
        refine (parseStates_twin quote h fun p hp => hplain p (mem_cons_of_mem _ hp)).bind
          fun _ hrest => .ok ?_
        exact List.forall_mem_cons.2 ⟨hcfg, hrest⟩

variable {d d' : Pairs} (quote : String → String)

theorem parseInitial_twin (h : TwinPairs same d d') : parseInitial d' = parseInitial d := by
  unfold parseInitial
  have hget := get_twin "initial" h
  generalize get d "initial" = x, get d' "initial" = y at hget
  cases hget with
  | none => rfl
  | some hv => simp only [asKeyword_twin hv]

theorem keys_twin : {d d' : Pairs} → TwinPairs same d d' →
    (d'.any fun pair => (asKeyword pair.1).isNone) = d.any fun pair => (asKeyword pair.1).isNone
  | _, _, .nil => rfl
  | _, _, .cons _ h => by rw [any_cons, any_cons, keys_twin h]

theorem parseDeclared_twin (h : TwinPairs same d d')
    (hplain : ∀ sts, (get d "states").bind asMap = some sts → ∀ p ∈ sts, PlainState p.2) :
    Alike (fun states => ∀ s ∈ states, PlainConfig s.2) (parseDeclared quote d)
      (parseDeclared quote d') :=
  getMap_alike "states" (parseStates quote) h nofun fun _ _ hstates hm =>
    parseStates_twin quote hm (hplain _ hstates)

theorem createMachine_twin (id : String) (h : TwinPairs same d d')
    (hplain : ∀ sts, (get d "states").bind asMap = some sts → ∀ p ∈ sts, PlainState p.2) :
    Alike StateMachine.Plain (createMachine quote id d) (createMachine quote id d') := by
  unfold createMachine
  rw [keys_twin h, parseInitial_twin h]
  split
  · exact .error _
  · refine .bind (P := fun _ => True) ⟨rfl, fun _ _ => trivial⟩ fun initial _ => ?_
    refine (parseDeclared_twin quote h hplain).bind fun states hstates => ?_
    refine .bind (P := fun _ => True) ⟨rfl, fun _ _ => trivial⟩ fun _ _ => ?_
    exact .ok ⟨hstates, rfl⟩

end

section

variable {W α β : Type}

def World.Plain (w : World W) : Prop := ∀ i sm, w.heap.read i = some sm → sm.Plain

variable {w : World W} {sm : StateMachine}

theorem World.Plain.find (hw : w.Plain) {id : String} {i : Addr} (h : w.find id = some (i, sm)) :
    w.heap.read i = some sm ∧ sm.Plain := by
  unfold World.find at h
  simp only [Option.bind_eq_bind, Option.bind_eq_some_iff, Option.some.injEq,
    Prod.mk.injEq] at h
  obtain ⟨j, -, sm', hread, rfl, rfl⟩ := h
  exact ⟨hread, hw _ _ hread⟩

theorem World.Plain.modify (hw : w.Plain) (i : Addr) {f : StateMachine → StateMachine}
    (hf : ∀ sm, sm.Plain → (f sm).Plain) :
    (w.modify i f).Plain := by
  intro j sm h
  simp only [World.modify, Heap.modify, Heap.read, getElem?_modify] at h
  obtain ⟨sm', hread, h⟩ := Option.map_eq_some_iff.mp h
  by_cases hij : i = j
  · rw [if_pos hij] at h
    exact h ▸ hf sm' (hw j sm' hread)
  · rw [if_neg hij] at h
    exact h ▸ hw j sm' hread

theorem World.Plain.put (hw : w.Plain) (id : String) (hsm : sm.Plain) : (w.put id sm).Plain := by
  intro j sm' h
  change (w.heap.cells ++ [sm])[j]? = some sm' at h
  rcases List.mem_append.mp (mem_of_getElem? h) with hmem | hmem
  · obtain ⟨k, hk⟩ := mem_iff_getElem?.mp hmem
    exact hw k sm' hk
  · rw [List.mem_singleton.mp hmem]
    exact hsm

/-- Two computations have the same outcome, and the machines still run nothing. -/
def Agree (m m' : Comp (World W) GoErr α) (w : World W) : Prop :=
  ∃ r w', m w = some (r, w') ∧ m' w = some (r, w') ∧ w'.Plain

namespace Agree

variable {m m' : Comp (World W) GoErr α} {f f' : α → Comp (World W) GoErr β} {w : World W}

theorem ret (hw : w.Plain) (a : α) : Agree (ret a) (ret a) w := ⟨.ok a, w, rfl, rfl, hw⟩

theorem fail (hw : w.Plain) (text : String) : Agree (α := α) (fail text) (fail text) w :=
  ⟨.error (.plain text), w, rfl, rfl, hw⟩

theorem bind (hm : Agree m m' w) (hf : ∀ a w', w'.Plain → Agree (f a) (f' a) w') :
    Agree (m >>= f) (m' >>= f') w := by
  obtain ⟨r, w', hrun, hrun', hw'⟩ := hm
  cases r with
  | error e => exact ⟨.error e, w', bind_of_error f hrun, bind_of_error f' hrun', hw'⟩
  | ok a =>
    obtain ⟨r, w'', hr, hr', hw''⟩ := hf a w' hw'
    exact ⟨r, w'', (bind_of_ok f hrun).trans hr, (bind_of_ok f' hrun').trans hr', hw''⟩

theorem read_bind {f f' : World W → Comp (World W) GoErr β} (h : Agree (f w) (f' w) w) :
    Agree (read >>= f) (read >>= f') w := h

theorem update_bind {g : World W → World W} {k k' : Unit → Comp (World W) GoErr β}
    (h : Agree (k ()) (k' ()) (g w)) : Agree (update g >>= k) (update g >>= k') w := h

theorem within {enter leave : World W → World W} (h : Agree m m' (enter w))
    (hleave : ∀ w : World W, w.Plain → (leave w).Plain) :
    Agree (within enter leave m) (within enter leave m') w := by
  obtain ⟨r, w', hrun, hrun', hw'⟩ := h
  exact ⟨r, leave w', by simp only [Comp.within, hrun], by simp only [Comp.within, hrun'],
    hleave w' hw'⟩

end Agree

end

section

variable {W : Type} {tree vm : Host W} {w : World W} {same : Value → Value → Prop}
  {args args' : List Value}

theorem create_agrees (hquote : tree.quote = vm.quote) (hw : w.Plain)
    (h : List.Forall₂ (Twin same) args args') (hplain : (Call.mk .create args).Plain) :
    Agree (create tree args) (create vm args') w := by
  rcases h with _ | @⟨id, id', _, _, hid, _ | @⟨d, d', _, _, hdef, _ | ⟨_, _⟩⟩⟩
  · exact .fail hw _
  · exact .fail hw _
  · change PlainDefinition d at hplain
    unfold PlainDefinition at hplain
    unfold create
    dsimp only
    rw [asKeyword_twin hid, ← hquote]
    have hmap := asMap_twin hdef
    generalize asMap d = x, asMap d' = y at hmap hplain
    cases asKeyword id with
    | none => exact .fail hw _
    | some id =>
      cases hmap with
      | none => exact .fail hw _
      | some hd =>
        obtain ⟨hsame, hsm⟩ := createMachine_twin tree.quote id hd (hplain _ rfl)
        dsimp only
        rw [hsame]
        generalize createMachine tree.quote id _ = r at hsm
        cases r with
        | error err => exact .fail hw _
        | ok sm => exact .update_bind (.ret (hw.put id (hsm sm rfl)) _)
  · exact .fail hw _

theorem withMachine_agrees {id id' : Value} {notKeyword : String}
    {unknown : String → Comp (World W) GoErr Value}
    {k k' : Addr → StateMachine → Comp (World W) GoErr Value} (hw : w.Plain)
    (hid : Twin same id id') (hunknown : ∀ id, Agree (unknown id) (unknown id) w)
    (hk : ∀ i sm, w.heap.read i = some sm → sm.Plain → Agree (k i sm) (k' i sm) w) :
    Agree (withMachine id notKeyword unknown k) (withMachine id' notKeyword unknown k') w := by
  unfold withMachine
  rw [asKeyword_twin hid]
  cases asKeyword id with
  | none => exact .fail hw _
  | some name =>
    refine .read_bind ?_
    cases hfind : w.find name with
    | none => exact hunknown name
    | some found => exact hk _ _ (hw.find hfind).1 (hw.find hfind).2

theorem mem_of_lookup {β : Type} {l : List (String × β)} {k : String} {v : β}
    (h : l.lookup k = some v) : (k, v) ∈ l := by
  induction l with
  | nil => cases h
  | cons p l ih =>
    obtain ⟨k', v'⟩ := p
    rw [lookup_cons] at h
    split at h
    · rename_i heq
      cases h
      rw [beq_iff_eq.mp heq]
      exact mem_cons_self
    · exact mem_cons_of_mem _ (ih h)

variable {i : Addr} {sm : StateMachine}

theorem commit_agrees (hw : w.Plain) (from_ event : String) {tr : Transition}
    (haction : tr.action = none) (hread : w.heap.read i = some sm) :
    Agree (commit tree i from_ event tr) (commit vm i from_ event tr) w := by
  have hdone (host : Host W) :
      runAction host from_ event tr = ret ⟨tr.target, from_, tr.target, true, ""⟩ := by
    unfold runAction
    rw [haction]
  unfold commit
  refine .read_bind ?_
  rw [hread]
  dsimp only
  by_cases hmoved : sm.current ≠ from_
  · rw [if_pos hmoved, if_pos hmoved]
    exact .ret hw _
  · rw [if_neg hmoved, if_neg hmoved, hdone, hdone]
    refine .update_bind (.ret ?_ _)
    exact hw.modify i fun sm hsm => ⟨hsm.states, hsm.callbacks⟩

theorem takeEvent_agrees {sm' : StateMachine} (hsm : sm.Plain) (hw : w.Plain) (event : String)
    (hread : w.heap.read i = some sm') :
    Agree (takeEvent tree i sm event) (takeEvent vm i sm event) w := by
  unfold takeEvent
  cases hcfg : sm.states.lookup sm.current with
  | none => exact .fail hw _
  | some cfg =>
    dsimp only
    cases htr : cfg.lookup event with
    | none => exact .ret hw _
    | some tr =>
      obtain ⟨hguard, haction⟩ :=
        hsm.states _ (mem_of_lookup hcfg) _ (mem_of_lookup htr)
      have hnone (host : Host W) : runGuard host sm.current event tr = ret none := by
        unfold runGuard
        rw [hguard]
      dsimp only
      rw [hnone, hnone]
      exact commit_agrees hw sm.current event haction hread

theorem transitionWithEval_agrees (hsm : sm.Plain) (hw : w.Plain) (event : String)
    (hread : w.heap.read i = some sm) :
    Agree (transitionWithEval tree i sm event) (transitionWithEval vm i sm event) w := by
  have hkeep (flag : Bool) (w : World W) (hw : w.Plain) :
      (w.modify i fun sm => { sm with inTransition := flag }).Plain :=
    hw.modify i fun sm hsm => ⟨hsm.states, hsm.callbacks⟩
  unfold transitionWithEval
  cases sm.inTransition with
  | true => exact .fail hw _
  | false =>
    exact .within (takeEvent_agrees hsm (hkeep true w hw) event
      (Heap.read_modify_self _ hread)) (hkeep false)

section

variable (hw : w.Plain)

include hw

theorem broadcast_agrees (id : String) (result : TransitionResult) :
    Agree (broadcast tree id result) (broadcast vm id result) w := by
  refine .read_bind ?_
  cases hfind : w.find id with
  | none => exact .ret hw _
  | some found =>
    dsimp only
    rw [(hw.find hfind).2.callbacks]
    exact .ret hw _

theorem transitionOf_agrees {id id' event event' : Value}
    (hid : Twin same id id') (hevent : Twin same event event') :
    Agree (transitionOf tree id event) (transitionOf vm id' event') w := by
  refine withMachine_agrees hw hid (fun _ => .fail hw _) fun i sm hread hsm => ?_
  rw [asKeyword_twin hevent]
  cases asKeyword event with
  | none => exact .fail hw _
  | some event =>
    refine (transitionWithEval_agrees hsm hw event hread).bind fun result w' hw' => ?_
    cases result.valid with
    | true => exact (broadcast_agrees hw' sm.id result).bind fun _ _ hw'' => .ret hw'' _
    | false => exact .ret hw' _

variable (h : List.Forall₂ (Twin same) args args')

include h

theorem transition_agrees : Agree (transition tree args) (transition vm args') w := by
  rcases h with _ | ⟨hid, _ | ⟨hevent, _ | ⟨_, _ | ⟨_, _⟩⟩⟩⟩
  · exact .fail hw _
  · exact .fail hw _
  · exact transitionOf_agrees hw hid hevent
  · exact transitionOf_agrees hw hid hevent
  · exact .fail hw _

theorem onTransition_agrees (hplain : (Call.mk .onTransition args).Plain) :
    Agree (onTransition args) (onTransition args') w := by
  rcases h with _ | ⟨hid, _ | ⟨hcb, _ | ⟨_, _⟩⟩⟩
  · exact .fail hw _
  · exact .fail hw _
  · refine withMachine_agrees hw hid (fun _ => .fail hw _) fun _ _ _ _ => ?_
    rw [(asLambda_twin hcb hplain).1, (asLambda_twin hcb hplain).2]
    exact .fail hw _
  · exact .fail hw _

theorem currentState_agrees : Agree (currentState args) (currentState args') w := by
  rcases h with _ | ⟨hid, _ | ⟨_, _⟩⟩
  · exact .fail hw _
  · exact withMachine_agrees hw hid (fun _ => .fail hw _) fun _ _ _ _ => .ret hw _
  · exact .fail hw _

theorem reset_agrees : Agree (reset args) (reset args') w := by
  rcases h with _ | ⟨hid, _ | ⟨_, _⟩⟩
  · exact .fail hw _
  · refine withMachine_agrees hw hid (fun _ => .fail hw _) fun i sm _ _ => ?_
    cases sm.inTransition with
    | true => exact .fail hw _
    | false =>
      refine .update_bind (.ret ?_ _)
      exact hw.modify i fun sm hsm => ⟨hsm.states, hsm.callbacks⟩
  · exact .fail hw _

theorem valid_agrees : Agree (valid args) (valid args') w := by
  rcases h with _ | ⟨hid, _ | @⟨event, _, _, _, hevent, _ | ⟨_, _⟩⟩⟩
  · exact .fail hw _
  · exact .fail hw _
  · refine withMachine_agrees hw hid (fun _ => .ret hw _) fun _ sm _ _ => ?_
    rw [asKeyword_twin hevent]
    cases asKeyword event with
    | none => exact .fail hw _
    | some event => exact .ret hw _
  · exact .fail hw _

end

theorem call_agrees (hquote : tree.quote = vm.quote) (hw : w.Plain) {call call' : Call}
    (h : TwinCall same call call') (hplain : call.Plain) :
    Agree (call.fn.run tree call.args) (call'.fn.run vm call'.args) w := by
  obtain ⟨fn, args⟩ := call
  obtain ⟨fn', args'⟩ := call'
  obtain ⟨hfn, hargs⟩ := h
  dsimp only at hfn hargs ⊢
  subst hfn
  cases fn' with
  | create => exact create_agrees hquote hw hargs hplain
  | transition => exact transition_agrees hw hargs
  | valid => exact valid_agrees hw hargs
  | currentState => exact currentState_agrees hw hargs
  | reset => exact reset_agrees hw hargs
  | onTransition => exact onTransition_agrees hw hargs hplain

/-- Calls that hand the plugin no function come out alike under the two evaluators: every call
returns the same, the machines visit the same states, and neither evaluator runs anything. -/
theorem plain_calls_agree (hquote : tree.quote = vm.quote) (hw : w.Plain)
    {calls calls' : List Call} (h : List.Forall₂ (TwinCall same) calls calls')
    (hplain : ∀ call ∈ calls, call.Plain) :
    ∃ outcomes w', runCalls tree calls w = some (.ok outcomes, w') ∧
      runCalls vm calls' w = some (.ok outcomes, w') ∧ w'.Plain := by
  induction h generalizing w with
  | nil => exact ⟨[], w, rfl, rfl, hw⟩
  | @cons call call' calls calls' hcall _ ih =>
    obtain ⟨r, w₁, hrun, hrun', hw₁⟩ :=
      call_agrees hquote hw hcall (hplain call mem_cons_self)
    obtain ⟨outcomes, w₂, hrest, hrest', hw₂⟩ :=
      ih hw₁ fun c hc => hplain c (mem_cons_of_mem _ hc)
    refine ⟨r :: outcomes, w₂, ?_, ?_, hw₂⟩
    · simp only [runCalls, bind_apply, attempt, hrun, hrest, ret_apply]
    · simp only [runCalls, bind_apply, attempt, hrun', hrest', ret_apply]

end

/-- A definition with two states and an event that leads from the one to the other. -/
def twoStates (go : Value) : Value :=
  .map [(.keyword "initial", .keyword "a"), (.keyword "states", .map
    [(.keyword "a", .map [(.keyword "on", .map [(.keyword "go", go)])]),
      (.keyword "b", .map [])])]

theorem twoStates_twin {same : Value → Value → Prop} {go go' : Value} (h : Twin same go go') :
    Twin same (twoStates go) (twoStates go') :=
  .map (.cons (.scalar rfl rfl) (.cons (.map (.cons (.map (.cons (.map (.cons h .nil)) .nil))
    (.cons (.map .nil) .nil))) .nil))

theorem plain_calls_agree_twoStates :
    let tree : Host Unit := ⟨fun _ _ => ret .nil, id⟩
    let vm : Host Unit := ⟨fun _ _ => fail "closed", id⟩
    let w : World Unit := ⟨[], .empty, ()⟩
    let calls : List Call := [⟨.create, [.keyword "m", twoStates (.keyword "b")]⟩,
      ⟨.transition, [.keyword "m", .keyword "go"]⟩]
    ∃ outcomes w', runCalls tree calls w = some (.ok outcomes, w') ∧
      runCalls vm calls w = some (.ok outcomes, w') ∧ w'.Plain := by
  intro tree vm w calls
  have hscalar (name : String) : Twin (fun _ _ => False) (.keyword name) (.keyword name) :=
    .scalar rfl rfl
  refine plain_calls_agree rfl (fun _ _ h => by cases h)
    (.cons ⟨rfl, .cons (hscalar _) (.cons (twoStates_twin (hscalar _)) .nil)⟩
      (.cons ⟨rfl, .cons (hscalar _) (.cons (hscalar _) .nil)⟩ .nil)) ?_
  intro call hcall
  rcases List.mem_cons.mp hcall with rfl | hcall
  · rintro d ⟨⟩ states ⟨⟩ p hp
    rcases List.mem_cons.mp hp with rfl | hp
    · rintro sd ⟨⟩ on ⟨⟩ p hp
      rw [List.mem_singleton.mp hp]
      rintro t ⟨⟩
    · rw [List.mem_singleton.mp hp]
      rintro sd ⟨⟩ on ⟨⟩
  · rw [List.mem_singleton.mp hcall]
    trivial

/-- A guard is taken as a lambda and refused as a closure. -/
theorem closure_guard_refused :
    let host : Host Unit := ⟨fun _ _ => ret (.bool true), id⟩
    let w : World Unit := ⟨[], .empty, ()⟩
    let guarded (guard : Value) : Call := ⟨.create, [.keyword "m", twoStates
      (.map [(.keyword "guard", guard), (.keyword "target", .keyword "b")])]⟩
    let lambda : Value := .lambda "" ["from", "to", "event"] "" [.bool true] []
    let closure : Value := .closure [0] [] []
    TwinCall (fun l c => l = lambda ∧ c = closure) (guarded lambda) (guarded closure) ∧
      (∃ w', runCalls host [guarded lambda] w = some (.ok [.ok (.keyword "m")], w')) ∧
      runCalls host [guarded closure] w =
        some (.ok [.error (.plain "fsm/create: guard must be a function")], w) := by
  intro host w guarded lambda closure
  refine ⟨⟨rfl, .cons (.scalar rfl rfl) (.cons (twoStates_twin (.map (.cons
    (.function ⟨rfl, rfl⟩) (.cons (.scalar rfl rfl) .nil)))) .nil)⟩, ⟨_, rfl⟩, rfl⟩

end Fsm

end Lispico
