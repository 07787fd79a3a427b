import Lispico.Runtime.HostBindings
import Lispico.Runtime.LazyEager

/-!
# Loading the standard library

After loading, the eager engine has bound the image of the registered values; the deferring one
has bound the adapters, and its template holds an entry for each name. So the two engines mirror
each other from the start.
-/

namespace Lispico

namespace Runtime

open Lispico.Core List

section

variable {V : Type}

/-- Builtin registrations: a value and its canonical flag for each name. -/
abbrev Registrations (V : Type) : Type := AList fun _ : String => V × Bool

/-- The bindings that the registrations make in an empty environment. -/
def Registrations.bindings (regs : Registrations V) : Bindings V := fun key =>
  if key.fn then none else regs.lookup key.name

theorem bindings_value (regs : Registrations V) (name : String) :
    regs.bindings ⟨name, false⟩ = regs.lookup name := rfl

variable {regs : Registrations V} (e : Env V)

theorem mem_keys_iff_lookup {name : String} :
    name ∈ regs.keys ↔ ∃ v canon, regs.lookup name = some (v, canon) := by
  rw [← AList.mem_keys, ← AList.lookup_isSome, Option.isSome_iff_exists]
  simp

def registration (x : Sigma fun _ : String => V × Bool) : InitOp V :=
  .registerValue x.1 x.2.1 x.2.2

def stdlib (version : String) (regs : Registrations V) (eager : Bool) (charges : Charges) :
    Operation V :=
  ⟨⟨"", version, regs.entries.map registration, .returned⟩, eager, charges, none⟩

theorem journaled_eq (key : RegistrationKey) :
    journaled e key = (e.keyState key).entry.isSome := by
  unfold journaled Env.keyState
  cases e.reg with
  | none => rfl
  | some r => rfl

section Eager

variable [ValueShallowBytes V]

theorem setLocked_journaled {e e' : Env V} {via : Option Nat} {key : RegistrationKey} {val : V}
    {canonical : Bool} {charge : Charge} {w : Bool} (hon : e.on via = true)
    (h : e.setLocked via key val canonical false charge = .ok (e', w)) :
    e'.on via = true ∧ ∀ k, journaled e' k = (decide (k = key) || journaled e k) := by
  have hw : w = true := Env.setLocked_written h
  subst hw
  have hwrites := (Env.setLocked_spec h).writes
  refine ⟨?_, fun k => ?_⟩
  · rw [Env.on_eq, hwrites.regId, ← Env.on_eq, hon]
  · rw [journaled_eq, journaled_eq]
    by_cases hk : k = key
    · subst hk
      have htouch := hwrites.touched _ (.head _)
      rw [hon] at htouch
      simp only [decide_true, Bool.true_or]
      generalize e'.keyState k = ks' at htouch
      cases htouch with
      | inPlace => rfl
      | fresh => rfl
    · rw [hwrites.untouched k (by simpa using hk)]
      simp [hk]

variable [VocabValue V]

/-- What the registrations leave of a key: its binding, and whether it is journaled. -/
def Registered (xs : List (Sigma fun _ : String => V × Bool)) (env env' : Env V) : Prop :=
  ∀ k, (env'.getCanonical k, journaled env' k) =
    if k.fn = false ∧ (xs.dlookup k.name).isSome then (xs.dlookup k.name, true)
    else (env.getCanonical k, journaled env k)

theorem runInit_eager (cfg : EngineConfig V) (via : Option Nat) {charges : Charges}
    (hfree : charges.Free) (xs : List (Sigma fun _ : String => V × Bool))
    (hdistinct : xs.NodupKeys) {s : LazyEnv V} {op : LazyOp} (hop : s.op = some op)
    (heager : op.eager = true) (hroomy : Roomy s.env) (hon : s.env.on via = true) :
    ∃ env, runInit cfg via charges s (xs.map registration) = { s with env := env } ∧ Roomy env ∧
      Registered xs s.env env := by
  induction xs generalizing s with
  | nil => exact ⟨s.env, rfl, hroomy, fun k => by simp⟩
  | cons x xs ih =>
    obtain ⟨name, v, canon⟩ := x
    rw [nodupKeys_cons] at hdistinct
    have hlast : xs.dlookup name = none := List.dlookup_eq_none.2 hdistinct.1
    have hother : ∀ n, n ≠ name →
        List.dlookup n ((⟨name, v, canon⟩ : Sigma fun _ : String => V × Bool) :: xs) =
          xs.dlookup n :=
      fun n hn => dlookup_cons_ne xs (⟨name, v, canon⟩ : Sigma fun _ : String => V × Bool) hn
    have hdefer : s.deferKey cfg via = none := by
      unfold LazyEnv.deferKey LazyEnv.opFor
      rw [hop]
      cases hvia : via == some op.view <;> simp [Option.filter, hvia, heager]
    obtain ⟨env₁, w, hset, hroomy₁⟩ := setLocked_free hroomy via ⟨name, false⟩ v canon false
      (hfree ⟨name, false⟩)
    obtain ⟨hon₁, hjournal₁⟩ := setLocked_journaled hon hset
    have hfirst : initOp cfg via charges s (registration ⟨name, v, canon⟩) =
        { s with env := env₁ } := by
      simp [initOp, registration, LazyEnv.registerValue, hdefer, hset, attempt]
    obtain ⟨env, hrun, hroomy', hrest⟩ :=
      ih hdistinct.2 (s := { s with env := env₁ }) hop hroomy₁ hon₁
    refine ⟨env, ?_, hroomy', fun k => ?_⟩
    · rw [map_cons, runInit, foldl_cons, hfirst]
      exact hrun
    · obtain ⟨kname, fn⟩ := k
      rw [hrest, Env.setLocked_getCanonical hset, hjournal₁]
      by_cases hname : kname = name
      · subst hname
        cases fn <;> simp [hlast, dlookup_cons_eq]
      · simp [hname, hother kname hname]

end Eager

section Deferred

theorem templateEntry_congr [VocabValue V] (d : Vocabulary V) {names names' : List String}
    (h : ∀ name, name ∈ names ↔ name ∈ names') (e : Bindings V) :
    d.templateEntry names e = d.templateEntry names' e := by
  funext name
  have hrenamed : d.renamed names e = d.renamed names' e := by
    funext name
    simp only [Vocabulary.renamed, h]
  simp only [Vocabulary.templateEntry, hrenamed, h]

variable [ValueShallowBytes V] [VocabValue V]

/-- An unfinished layer that holds the entries of the registrations `done`. -/
structure LayerHolds (d : Vocabulary V) (key : TemplateKey) (e : Bindings V) (done : List String)
    (layers : TemplateRegistry V) : Prop where
  pending : layers.layerState key = false
  entries : ∀ x, layers.entryFor key x = d.templateEntry done e x

theorem runInit_deferred (cfg : EngineConfig V) {view : Nat} (charges : Charges) {e : Bindings V}
    (xs : List (Sigma fun _ : String => V × Bool)) (hdistinct : xs.NodupKeys)
    (hvalues : ∀ x ∈ xs, e ⟨x.1, false⟩ = some x.2) {s : LazyEnv V} {op : LazyOp}
    (hop : s.op = some op) (hview : op.view = view) (hdeferring : op.eager = false ∧ op.name = "")
    (done : List String) (hdone : ∀ x ∈ xs, x.1 ∉ done)
    (hlayer : LayerHolds cfg.dialect ⟨cfg.dialectFP, "", op.version⟩ e done s.layers) :
    ∃ layers, runInit cfg (some view) charges s (xs.map registration) =
        { s with layers := layers } ∧
      LayerHolds cfg.dialect ⟨cfg.dialectFP, "", op.version⟩ e (xs.keys ++ done) layers := by
  induction xs generalizing s done with
  | nil => exact ⟨s.layers, rfl, hlayer⟩
  | cons x xs ih =>
    obtain ⟨name, v, canon⟩ := x
    rw [nodupKeys_cons] at hdistinct
    have hdefer : s.deferKey cfg (some view) = some ⟨cfg.dialectFP, "", op.version⟩ := by
      have hopFor : s.opFor (some view) = some op := by
        simp [LazyEnv.opFor, hop, hview]
      rw [LazyEnv.deferKey, hopFor]
      simp [hdeferring]
    obtain ⟨hopen₁, hlayer₁⟩ := putBindings_templateEntry cfg hlayer.pending hlayer.entries
      (hdone _ (.head _)) (hvalues _ (.head _))
    have hdone₁ : ∀ x ∈ xs, x.1 ∉ name :: done := by
      intro x hx
      rw [mem_cons, not_or]
      refine ⟨fun heq => ?_, hdone x (.tail _ hx)⟩
      have hmem : x.1 ∈ xs.keys := mem_keys_of_mem hx
      rw [heq] at hmem
      exact hdistinct.1 hmem
    obtain ⟨layers, hrun, hpending, hentries⟩ := ih hdistinct.2
      (fun x hx => hvalues x (.tail _ hx)) (s := { s with
        layers := LazyEnv.putBindings cfg s.layers ⟨cfg.dialectFP, "", op.version⟩ name
          (cfg.dialect.appendVocabBindings name v canon) }) hop (name :: done) hdone₁
            ⟨hopen₁, hlayer₁⟩
    refine ⟨layers, ?_, hpending, fun x => ?_⟩
    · rw [← hrun]
      simp [runInit, initOp, registration, LazyEnv.registerValue, hdefer]
    · rw [hentries, templateEntry_congr]
      intro n
      simp only [keys_cons, mem_append, mem_cons]
      tauto

end Deferred

theorem complete_getCanonical (id : Nat) (k : RegistrationKey) :
    (e.complete id).getCanonical k = e.getCanonical k := by
  unfold Env.complete
  split
  · rfl
  · rfl

theorem complete_roomy {e : Env V} (h : Roomy e) (id : Nat) : Roomy (e.complete id) := by
  unfold Env.complete
  split
  · exact h
  · exact h

variable {version : String} {s : LazyEnv V}

theorem activeEntry_single {plugin : String}
    (h : s.active = (∅ : AList fun _ : String => String).insert plugin version)
    (dialectFP name : String) :
    s.activeEntry dialectFP name = s.layers.entryFor ⟨dialectFP, plugin, version⟩ name := by
  have hentries : s.active.entries = [⟨plugin, version⟩] := by
    rw [h]
    rfl
  rw [LazyEnv.activeEntry, hentries, findSome?_cons]
  cases s.layers.entryFor ⟨dialectFP, plugin, version⟩ name with
  | none => rfl
  | some entry => rfl

theorem finish_ok_root (cfg : EngineConfig V) (e : Engine V) (view : Nat) (p : Plugin V)
    (s : LazyEnv V) (added : List String) :
    ∃ owned, (e.finish cfg view p (s, .ok added)).1.root =
      let s' : LazyEnv V := { s with env := s.env.complete view, op := none }
      if s.layers.publishedNames ⟨cfg.dialectFP, p.name, p.version⟩ = [] then s'
      else s'.activate p.name p.version owned := by
  rw [finish_ok]
  unfold Engine.publishBindings Engine.populateTemplateBindings
  dsimp only
  split
  · exact ⟨[], rfl⟩
  · exact ⟨_, rfl⟩

section Layers

variable {layers : TemplateRegistry V} {key : TemplateKey}

theorem markComplete_entryFor (layers : TemplateRegistry V) (key : TemplateKey) (x : String) :
    (layers.markComplete key).entryFor key x = layers.entryFor key x := by
  unfold TemplateRegistry.markComplete
  cases hlook : layers.lookup key with
  | none => rfl
  | some layer => simp [TemplateRegistry.entryFor, hlook]

/-- The layer, if it is there, is published. -/
def Settled (key : TemplateKey) (layers : TemplateRegistry V) : Prop :=
  ∀ layer, layers.lookup key = some layer → layer.complete = true

theorem settled_markComplete (layers : TemplateRegistry V) (key : TemplateKey) :
    Settled key (layers.markComplete key) := by
  intro layer hlayer
  unfold TemplateRegistry.markComplete at hlayer
  cases hlook : layers.lookup key with
  | none => simp [hlook] at hlayer
  | some layer' =>
    rw [hlook] at hlayer
    simp only [AList.lookup_insert, Option.some.injEq] at hlayer
    rw [← hlayer]

theorem Settled.entryFor_eq_none (hs : Settled key layers) (h : layers.publishedNames key = [])
    (x : String) : layers.entryFor key x = none := by
  unfold TemplateRegistry.publishedNames at h
  unfold TemplateRegistry.entryFor
  cases hlook : layers.lookup key with
  | none => rfl
  | some layer =>
    have hkeys : layer.entries.keys = [] := by simpa [hlook, hs layer hlook] using h
    have hempty : x ∉ layer.entries := by
      rw [AList.mem_keys, hkeys]
      exact not_mem_nil
    exact AList.lookup_eq_none.2 hempty

end Layers

variable [ValueShallowBytes V] [VocabValue V]

/-- A new engine that may retain whatever it is given, in some process. -/
inductive Engine.Unlimited : Engine V → Prop where
  | new {maxBytes maxSlots : Int} (layers : TemplateRegistry V) (hbytes : maxBytes ≤ 0)
      (hslots : maxSlots ≤ 0) : Unlimited (Engine.new maxBytes maxSlots layers)

def startRoot (e : Engine V) (o : Operation V) : LazyEnv V :=
  ({ e.root with env := { e.root.env with reg := some ⟨0, ∅⟩, nextReg := 1 } } :
    LazyEnv V).beginOp 0 o.plugin.name o.plugin.version o.eager

variable {cfg : EngineConfig V} {o : Operation V}

theorem finish_loads {e : Engine V} {via : Option Nat} {view : Nat}
    (h : (e.finish cfg view o.plugin (loadPlugin cfg s via o)).2 = none) :
    ∃ s₁ s', initPlugin cfg s via o = (s₁, none) ∧
      applyVocabulary cfg.dialect s₁ via o.charges = (s', none) ∧
      loadPlugin cfg s via o =
        (s', .ok (diff (bindingNames s'.env) (snapshotBindings s.env))) := by
  unfold loadPlugin at h ⊢
  dsimp only at h ⊢
  generalize hinit : initPlugin cfg s via o = out at h
  rcases out with ⟨s₁, _ | err⟩
  · dsimp only at h ⊢
    generalize hvocab : applyVocabulary cfg.dialect s₁ via o.charges = out at h
    rcases out with ⟨s', _ | err⟩
    · dsimp only at h
      cases hsettle : o.settlement with
      | some err =>
        rw [hsettle] at h
        cases h
      | none => exact ⟨s₁, s', rfl, hvocab, rfl⟩
    · cases h
  · cases h

variable {e : Engine V} (hnew : e.Unlimited)

include hnew

theorem use_new_ok (h : (e.use cfg o).2 = none) :
    ∃ s₁ s' owned, initPlugin cfg (startRoot e o) (some 0) o = (s₁, none) ∧
      applyVocabulary cfg.dialect s₁ (some 0) o.charges = (s', none) ∧
      (e.use cfg o).1.root =
        let t : LazyEnv V := { s' with env := s'.env.complete 0, op := none }
        if s'.layers.publishedNames ⟨cfg.dialectFP, o.plugin.name, o.plugin.version⟩ = [] then t
        else t.activate o.plugin.name o.plugin.version owned := by
  have huse : e.use cfg o = e.finish cfg 0 o.plugin
      (loadPlugin cfg (startRoot e o) (some 0) o) := by
    cases hnew
    rfl
  rw [huse] at h ⊢
  obtain ⟨s₁, s', hinit, hvocab, hload⟩ := finish_loads h
  rw [hload]
  obtain ⟨owned, hroot⟩ := finish_ok_root cfg e 0 o.plugin s'
    (diff (bindingNames s'.env) (snapshotBindings (startRoot e o).env))
  exact ⟨s₁, s', owned, hinit, hvocab, hroot⟩

omit [ValueShallowBytes V] [VocabValue V] in
theorem startRoot_spec (o : Operation V) :
    (∀ k, (startRoot e o).env.getCanonical k = none) ∧ Roomy (startRoot e o).env ∧
      (startRoot e o).active = ∅ := by
  cases hnew with
  | new layers hbytes hslots => exact ⟨fun _ => rfl, ⟨hbytes, hslots⟩, rfl⟩

omit hnew

variable (d : Vocabulary V)

omit [ValueShallowBytes V] in
theorem vocabImage_unwritten (k : RegistrationKey) :
    d.vocabImage [] (fun _ => none) k = d.adapterImage k none := by
  have hrenamed : d.renamed [] (fun _ => none) k.name = none := by
    unfold Vocabulary.renamed
    split
    · simp
    · rfl
  simp [Vocabulary.vocabImage, Vocabulary.renameStage, Vocabulary.ownStage, hrenamed]

omit [ValueShallowBytes V] in
theorem templateEntry_nil (e : Bindings V) (name : String) :
    d.templateEntry [] e name = none := by
  have hrenamed : d.renamed [] e name = none := by
    unfold Vocabulary.renamed
    split
    · simp
    · rfl
  simp [Vocabulary.templateEntry, hrenamed]

theorem applyVocabulary_unwritten (h : regNames s.env = [])
    (via : Option Nat) (charges : Charges) :
    ∃ env, (applyVocabulary d s via charges).1 = { s with env := env } := by
  unfold applyVocabulary
  rw [h]
  split
  · exact ⟨s.env, rfl⟩
  · refine passAll_invariant (P := fun s' => ∃ env, s' = { s with env := env })
      (adapterPass_invariant ?_ d) d.adapters ⟨s.env, rfl⟩
    rintro _ key v canonical ⟨env, rfl⟩
    unfold setCell
    split
    · exact ⟨_, rfl⟩
    · exact ⟨_, rfl⟩

/-- The layer of the registrations is still to be made, or has been published. -/
def Ready (cfg : EngineConfig V) (version : String) (regs : Registrations V)
    (layers : TemplateRegistry V) : Prop :=
  layers.lookup ⟨cfg.dialectFP, "", version⟩ = none ∨
    layers.layerState ⟨cfg.dialectFP, "", version⟩ = true ∧
      ∀ name, layers.entryFor ⟨cfg.dialectFP, "", version⟩ name =
        cfg.dialect.templateEntry regs.keys regs.bindings name

theorem Ready.initPlugin {charges : Charges} {s₁ : LazyEnv V} {op : LazyOp}
    (h : Ready cfg version regs s.layers) (hop : s.op = some op) (hview : op.view = 0)
    (hdeferring : op.eager = false ∧ op.name = "") (hversion : op.version = version)
    (hinit : initPlugin cfg s (some 0) (stdlib version regs false charges) = (s₁, none)) :
    ∃ layers, s₁ = { s with layers := layers } ∧ Settled ⟨cfg.dialectFP, "", version⟩ layers ∧
      ∀ name, layers.entryFor ⟨cfg.dialectFP, "", version⟩ name =
        cfg.dialect.templateEntry regs.keys regs.bindings name := by
  subst hversion
  rcases h with habsent | ⟨hstate, hentries⟩
  · have hpending : s.layers.layerState ⟨cfg.dialectFP, "", op.version⟩ = false := by
      simp [TemplateRegistry.layerState, habsent]
    have hnothing : ∀ x, s.layers.entryFor ⟨cfg.dialectFP, "", op.version⟩ x =
        cfg.dialect.templateEntry [] regs.bindings x := by
      intro x
      simp [TemplateRegistry.entryFor, habsent, templateEntry_nil]
    have hvalues : ∀ x ∈ regs.entries, regs.bindings ⟨x.1, false⟩ = some x.2 := fun x hx =>
      mem_dlookup regs.nodupKeys hx
    obtain ⟨layers, hrun, -, hlayer⟩ := runInit_deferred cfg charges regs.entries regs.nodupKeys
      hvalues hop hview hdeferring [] (fun _ _ => not_mem_nil) ⟨hpending, hnothing⟩
    rw [append_nil] at hlayer
    refine ⟨layers.markComplete _, ?_, settled_markComplete layers _, fun name => ?_⟩
    · simp only [Runtime.initPlugin, stdlib, hpending, hrun] at hinit
      cases hinit
      rfl
    · exact (markComplete_entryFor layers _ name).trans (hlayer name)
  · refine ⟨s.layers, ?_, fun layer hlayer => ?_, hentries⟩
    · simp only [Runtime.initPlugin, stdlib, hstate] at hinit
      cases hinit
      rfl
    · simpa [TemplateRegistry.layerState, hlayer] using hstate

section Free

variable {charges : Charges} (hfree : charges.Free)

include hfree

theorem applyVocabulary_roomy {s s' : LazyEnv V} (hroomy : Roomy s.env)
    (h : applyVocabulary cfg.dialect s (some 0) charges = (s', none)) :
    s'.active = s.active ∧ s'.layers = s.layers ∧ Roomy s'.env := by
  have hkept := @applyVocabulary_invariant V _ _ (some 0) charges
    (fun t => t.active = s.active ∧ t.layers = s.layers ∧ Roomy t.env)
    (fun t key v canonical ht => by
      obtain ⟨e', hset, hroomy, -⟩ := setCell_free ht.2.2 (some 0) key v canonical hfree
      exact hset ▸ ⟨ht.1, ht.2.1, hroomy⟩) s
    (fun t name ht => ⟨ht.1, ht.2.1, deleteName_roomy ht.2.2 (some 0) name⟩) cfg.dialect
    ⟨rfl, rfl, hroomy⟩
  rwa [h] at hkept

include hnew

theorem eager_root (hlayer : e.root.layers.lookup ⟨cfg.dialectFP, "", version⟩ = none)
    (h : (e.use cfg (stdlib version regs true charges)).2 = none) :
    let t := (e.use cfg (stdlib version regs true charges)).1.root
    t.op = none ∧ t.active = ∅ ∧ Roomy t.env ∧
      ∀ k, t.env.getCanonical k = cfg.dialect.vocabImage regs.keys regs.bindings k := by
  obtain ⟨s₁, s', owned, hinit, hvocab, hroot⟩ := use_new_ok hnew h
  set start := startRoot e (stdlib version regs true charges) with hstart
  obtain ⟨hempty, hfits, hdetached⟩ := startRoot_spec hnew (stdlib version regs true charges)
  obtain ⟨env, hrun, hroomy, hreg⟩ := runInit_eager cfg (some 0) hfree regs.entries
    regs.nodupKeys (s := start) rfl rfl hfits rfl
  have hs₁ : s₁ = { start with env := env } := by
    have heq : initPlugin cfg start (some 0) (stdlib version regs true charges) =
        (runInit cfg (some 0) charges start (regs.entries.map registration), none) := rfl
    rw [heq, hrun] at hinit
    cases hinit
    rfl
  subst hs₁
  obtain ⟨hactive, hlayers, hroomy'⟩ := applyVocabulary_roomy hfree hroomy hvocab
  have hnames : s'.layers.publishedNames ⟨cfg.dialectFP, "", version⟩ = [] := by
    rw [hlayers, TemplateRegistry.publishedNames, show start.layers.lookup _ = none from hlayer]
  have hbindings : env.getCanonical = regs.bindings := by
    funext k
    have hk := congrArg Prod.fst (hreg k)
    obtain ⟨name, fn⟩ := k
    unfold Registrations.bindings AList.lookup
    cases fn with
    | true => exact hk.trans (hempty _)
    | false =>
      cases hlook : regs.entries.dlookup name <;>
        simpa [hlook, hstart, hempty] using hk
  have hwritten : ∀ name, name ∈ regNames env ↔ name ∈ regs.keys := by
    intro name
    have hk := congrArg Prod.snd (hreg ⟨name, false⟩)
    rw [mem_regNames, ← AList.mem_keys, ← AList.lookup_isSome, AList.lookup]
    cases hlook : regs.entries.dlookup name <;>
      simpa [hlook, hstart, startRoot, journaled, LazyEnv.beginOp] using hk
  intro t
  have ht : t = { s' with env := s'.env.complete 0, op := none } := by
    refine hroot.trans ?_
    exact if_pos hnames
  rw [ht]
  refine ⟨rfl, hactive.trans hdetached, complete_roomy hroomy' 0, fun k => ?_⟩
  dsimp only
  rw [complete_getCanonical, applyVocabulary_getCanonical hvocab, ← hbindings]
  exact congrFun (vocabImage_congr cfg.dialect hwritten _) k

/-- The root after a deferred load: the adapters are bound, and the template stands for the
registrations. -/
theorem deferred_root (hlayer : Ready cfg version regs e.root.layers)
    (h : (e.use cfg (stdlib version regs false charges)).2 = none) :
    let s := (e.use cfg (stdlib version regs false charges)).1.root
    s.op = none ∧ Roomy s.env ∧ (∀ name, ¬ s.Touched name) ∧
      (∀ k, s.env.getCanonical k = cfg.dialect.adapterImage k none) ∧
      ∀ name, s.activeEntry cfg.dialectFP name =
        cfg.dialect.templateEntry regs.keys regs.bindings name := by
  obtain ⟨s₁, s', owned, hinit, hvocab, hroot⟩ := use_new_ok hnew h
  have hready : Ready cfg version regs
      (startRoot e (stdlib version regs false charges)).layers := hlayer
  obtain ⟨layers, rfl, hsettled, hentries⟩ := hready.initPlugin rfl rfl ⟨rfl, rfl⟩ rfl hinit
  cases hnew with
  | new layers₀ hbytes hslots =>
    obtain ⟨-, -, hroomy⟩ := applyVocabulary_roomy hfree ⟨hbytes, hslots⟩ hvocab
    obtain ⟨env, hs'⟩ := applyVocabulary_unwritten cfg.dialect
      (s := { startRoot _ (stdlib version regs false charges) with layers := layers }) rfl
      (some 0) charges
    have hget := applyVocabulary_getCanonical hvocab
    rw [show applyVocabulary cfg.dialect _ (some 0) charges = _ from hvocab] at hs'
    dsimp only at hs'
    subst hs'
    have hcomplete : ∀ k, (env.complete 0).getCanonical k = cfg.dialect.adapterImage k none := by
      intro k
      rw [complete_getCanonical]
      exact (hget k).trans (vocabImage_unwritten cfg.dialect k)
    intro s
    by_cases hnames : layers.publishedNames ⟨cfg.dialectFP, "", version⟩ = []
    · -- no name is published, and no layer is attached
      have hs := hroot.trans (if_pos hnames)
      rw [show s = _ from hs]
      refine ⟨rfl, complete_roomy hroomy 0, fun name => ?_, hcomplete, fun name => ?_⟩
      · simp [LazyEnv.Touched, startRoot, LazyEnv.beginOp, Engine.new]
      · exact (hsettled.entryFor_eq_none hnames name).symm.trans (hentries name)
    · have hs := hroot.trans (if_neg hnames)
      rw [show s = _ from hs]
      refine ⟨rfl, complete_roomy hroomy 0, fun name => ?_, hcomplete, fun name => ?_⟩
      · simp [LazyEnv.Touched, LazyEnv.activate, startRoot, LazyEnv.beginOp, Engine.new]
      · exact (activeEntry_single rfl _ name).trans (hentries name)

end Free

end

end Runtime

end Lispico
