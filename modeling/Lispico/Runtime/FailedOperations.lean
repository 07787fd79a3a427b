import Lispico.Runtime.Rollback

/-!
# Failed operations of an engine

From a state between operations a `Use` or `ReloadPlugin` that returns an error leaves the
plugin list and the ownership as they were, and a root in which every name resolves to what it
resolved to before.
-/

namespace Lispico

namespace Runtime

open Lispico.Core

section

variable {V : Type} (s : LazyEnv V) {view : Nat}

structure LazyEnv.Alike (cfg : EngineConfig V) (s s' : LazyEnv V) : Prop where
  env : Env.Alike s.env s'.env
  idle : s.op = none
  idle' : s'.op = none
  tombstoned : s'.tombstoned = s.tombstoned
  installed : s'.installed = s.installed
  entries : ∀ name, s'.activeEntry cfg.dialectFP name = s.activeEntry cfg.dialectFP name

structure LazyEnv.Settled (cfg : EngineConfig V) (s : LazyEnv V) : Prop where
  idle : s.op = none
  published : ∀ x ∈ s.active.entries, s.layers.layerState ⟨cfg.dialectFP, x.1, x.2⟩ = true

/-- Two writes that leave like environments and both count as done, or neither. -/
abbrev OutAlike (r r' : Env V × Bool) : Prop := Env.Alike r.1 r'.1 ∧ r'.2 = r.2

theorem attempt_alike {e e' : Env V} (h : Env.Alike e e') {r r' : Except String (Env V × Bool)}
    (hr : Env.EndAlike r r') : OutAlike (attempt e r) (attempt e' r') := by
  cases r with
  | error err =>
    cases r' with
    | error err' => exact ⟨h, rfl⟩
    | ok x => exact hr.elim
  | ok x =>
    cases r' with
    | error err' => exact hr.elim
    | ok x' => exact ⟨hr.2, rfl⟩

theorem LazyEnv.Settled.activeEntry_eq {cfg : EngineConfig V} {s₀ s : LazyEnv V}
    (h : s₀.Settled cfg) (hactive : s.active = s₀.active) (hlayers : LayersKept s₀.layers
      s.layers)
    (name : String) : s.activeEntry cfg.dialectFP name = s₀.activeEntry cfg.dialectFP name := by
  have hentry : ∀ x ∈ s₀.active.entries, s.layers.entryFor ⟨cfg.dialectFP, x.1, x.2⟩ name =
      s₀.layers.entryFor ⟨cfg.dialectFP, x.1, x.2⟩ name := by
    intro x hx
    rw [TemplateRegistry.entryFor, TemplateRegistry.entryFor, hlayers _ (h.published x hx)]
  unfold LazyEnv.activeEntry
  rw [hactive]
  generalize s₀.active.entries = xs at hentry
  induction xs with
  | nil => rfl
  | cons x xs ih =>
    rw [List.findSome?_cons, List.findSome?_cons, hentry x (.head _),
      ih fun y hy => hentry y (.tail _ hy)]

section

variable {cfg : EngineConfig V} {s s' : LazyEnv V}

section

variable (h : s.Settled cfg) (name : String)

include h

theorem LazyEnv.Settled.of_kept (hidle : s'.op = none)
    (hactive : s'.active = s.active) (hlayers : LayersKept s.layers s'.layers) :
    s'.Settled cfg := by
  refine ⟨hidle, fun x hx => ?_⟩
  rw [hactive] at hx
  exact layerState_of_kept hlayers (h.published x hx)

theorem LazyEnv.Settled.delete : (s.delete none name).Settled cfg := by
  refine h.of_kept ?_ rfl fun _ _ => rfl
  simp [LazyEnv.delete, LazyEnv.beginDelete, LazyEnv.noteLocked, h.idle]

theorem LazyEnv.Settled.recordInstall : (s.recordInstall none name).Settled cfg := by
  unfold LazyEnv.recordInstall
  split
  · exact h
  · refine h.of_kept ?_ rfl fun _ _ => rfl
    simp [LazyEnv.noteLocked, h.idle]

theorem LazyEnv.Settled.removePluginBindings (names : List String) :
    (Engine.removePluginBindings s none names).Settled cfg :=
  removePluginBindings_invariant (fun _ name hs => hs.delete name)
    (fun _ hs => ⟨hs.idle, hs.published⟩) names h

theorem LazyEnv.Settled.deactivate : (s.deactivate name).Settled cfg :=
  ⟨h.idle, fun x hx => h.published x (List.kerase_sublist name s.active.entries |>.subset hx)⟩

end

theorem publishedNames_ne_nil {layers : TemplateRegistry V} {key : TemplateKey}
    (h : layers.publishedNames key ≠ []) : layers.layerState key = true := by
  unfold TemplateRegistry.publishedNames at h
  unfold TemplateRegistry.layerState
  cases hlook : layers.lookup key with
  | none => simp [hlook] at h
  | some layer =>
    rw [hlook] at h
    dsimp only at h
    split at h
    · assumption
    · exact absurd rfl h

theorem LazyEnv.Settled.publishBindings {e : Engine V} (h : e.root.Settled cfg)
    (name version : String) (added : List String) :
    (e.publishBindings cfg name version added).root.Settled cfg := by
  unfold Engine.publishBindings Engine.populateTemplateBindings
  dsimp only
  split
  · exact h
  · rename_i hnames
    refine ⟨h.idle, fun x hx => ?_⟩
    have hmem : x ∈ (⟨name, version⟩ : Sigma fun _ : String => String) ::
        e.root.active.entries.kerase name := hx
    rcases List.mem_cons.1 hmem with rfl | hx
    · exact publishedNames_ne_nil hnames
    · exact h.published x (List.kerase_sublist name _ |>.subset hx)

end

theorem recordInstall_env (via : Option Nat) (name : String) :
    (s.recordInstall via name).env = s.env := by
  unfold LazyEnv.recordInstall
  split
  · rfl
  · rfl

theorem endOp_commit : s.endOp true = { s with op := none } := by
  unfold LazyEnv.endOp
  cases hop : s.op with
  | none =>
    dsimp only
    rw [← hop]
  | some op => rfl

theorem finish_ok (cfg : EngineConfig V) (e : Engine V) (view : Nat) (p : Plugin V)
    (s : LazyEnv V) (added : List String) :
    e.finish cfg view p (s, .ok added) =
      (({ root := { s with env := s.env.complete view, op := none }
          plugins := e.plugins.insert p.name p.version
          bindings := e.bindings } : Engine V).publishBindings cfg p.name p.version added,
        none) := by
  unfold Engine.finish
  dsimp only
  rw [endOp_commit]

theorem Operating.aborted {cfg : EngineConfig V} {s₀ s : LazyEnv V}
    (h : Operating view s₀ s) (hsettled : s₀.Settled cfg) :
    let s' : LazyEnv V := { s.endOp false with env := ((s.endOp false).env.abort view).1 }
    s₀.Alike cfg s' ∧ s'.Settled cfg := by
  rw [h.endOp]
  dsimp only
  refine ⟨⟨h.env.abort.1, hsettled.idle, rfl, rfl, rfl, fun name => ?_⟩, ?_⟩
  · exact hsettled.activeEntry_eq h.active h.layers name
  · exact hsettled.of_kept rfl h.active h.layers

variable [ValueShallowBytes V]

section

variable {e e' : Env V}

theorem installValue_alike (h : Env.Alike e e') (via : Option Nat) (name : String) (value : V)
    (entry : TemplateEntry V) (charges : Charges) :
    OutAlike (LazyEnv.installValue e via name value entry charges)
      (LazyEnv.installValue e' via name value entry charges) := by
  unfold LazyEnv.installValue
  split
  · exact attempt_alike h (h.setBothLocked ..)
  · exact attempt_alike h (h.setLocked ..)

theorem installStaged_alike (h : Env.Alike e e') (lisp2 : Bool) (via : Option Nat) (name : String)
    (staged : V × Bool × Bool) (charges : Charges) :
    OutAlike (LazyEnv.installStaged lisp2 e via name staged charges)
      (LazyEnv.installStaged lisp2 e' via name staged charges) := by
  obtain ⟨value, stagedFunc, stagedCanon⟩ := staged
  dsimp only [LazyEnv.installStaged]
  split
  · exact attempt_alike h (h.setLocked ..)
  · obtain ⟨hfirst, hok⟩ := attempt_alike h
      (h.setLocked via ⟨name, false⟩ value stagedCanon true (charges ⟨name, false⟩))
    rw [hok]
    split
    · exact attempt_alike hfirst (hfirst.setLocked ..)
    · exact ⟨hfirst, rfl⟩

theorem publishEntry_alike (h : Env.Alike e e') (cfg : EngineConfig V) (via : Option Nat)
    (name : String) (entry : TemplateEntry V) (charges : Charges) :
    OutAlike (LazyEnv.publishEntry cfg e via name entry charges)
      (LazyEnv.publishEntry cfg e' via name entry charges) := by
  unfold LazyEnv.publishEntry
  cases entry.kind with
  | goValue value => exact installValue_alike h ..
  | bootstrap source =>
    dsimp only
    cases cfg.defineBootstrap name source with
    | none => exact ⟨h, rfl⟩
    | some staged => exact installStaged_alike h ..

end

section

variable {cfg : EngineConfig V} {s s' : LazyEnv V}

theorem materializeOne_eq (cfg : EngineConfig V) (s : LazyEnv V) (key : RegistrationKey)
    (entry : TemplateEntry V) (charges : Charges) :
    s.materializeOne cfg none key entry charges =
      let r := LazyEnv.publishEntry cfg s.env none key.name entry charges
      let s' : LazyEnv V := { s with env := r.1 }
      if r.2 then (s'.recordInstall none key.name, s'.env.getCanonical key) else (s', none) := by
  simp only [LazyEnv.materializeOne, ite_self, recordInstall_env]

theorem LazyEnv.Alike.getCanonical (h : s.Alike cfg s') (key : RegistrationKey)
    (charges : Charges) :
    (s'.getCanonical cfg none key charges).2 = (s.getCanonical cfg none key charges).2 := by
  unfold LazyEnv.getCanonical
  rw [h.env.getCanonical]
  cases s.env.getCanonical key with
  | some r => rfl
  | none =>
    unfold LazyEnv.lookupAndMaterialize
    rw [h.idle, h.idle', h.tombstoned, h.installed, h.entries, h.env.getCanonical]
    dsimp only [Option.any_none]
    split
    · rfl
    · split
      · rfl
      · split
        · rfl
        · cases s.activeEntry cfg.dialectFP key.name with
          | none => rfl
          | some entry =>
            obtain ⟨hwrite, hok⟩ := publishEntry_alike h.env cfg none key.name entry charges
            dsimp only
            rw [materializeOne_eq, materializeOne_eq]
            dsimp only
            rw [hok]
            split
            · exact hwrite.getCanonical key
            · rfl

theorem LazyEnv.Settled.getCanonical (h : s.Settled cfg) (key : RegistrationKey)
    (charges : Charges) : (s.getCanonical cfg none key charges).1.Settled cfg := by
  refine getCanonical_invariant (fun entry => ?_) h
  rw [materializeOne_eq]
  dsimp only
  have hwritten : ∀ env, ({ s with env := env } : LazyEnv V).Settled cfg :=
    fun env => ⟨h.idle, h.published⟩
  split
  · exact (hwritten _).recordInstall key.name
  · exact hwritten _

theorem setCell_settled (h : s.Settled cfg) (key : RegistrationKey) (v : V) (canonical : Bool)
    (charges : Charges) : (setCell s none key v canonical charges).1.Settled cfg := by
  unfold setCell
  split
  · exact ⟨h.idle, h.published⟩
  · exact h

end

namespace Engine

/-- Every name resolves as before, and the plugins and what they own are the same. -/
structure Unchanged (cfg : EngineConfig V) (e e' : Engine V) : Prop where
  resolve : ∀ key charges,
    (e'.root.getCanonical cfg none key charges).2 = (e.root.getCanonical cfg none key charges).2
  plugins : e'.plugins = e.plugins
  bindings : e'.bindings = e.bindings

theorem finish_spec {cfg : EngineConfig V} {e : Engine V}
    {r : LazyEnv V × Except String (List String)} (hsettled : e.root.Settled cfg)
    (h : Operating view e.root r.1) (p : Plugin V) :
    (e.finish cfg view p r).1.root.Settled cfg ∧ ∀ err, (e.finish cfg view p r).2 = some err →
        e.Unchanged cfg (e.finish cfg view p r).1 := by
  obtain ⟨s, _ | added⟩ := r
  · obtain ⟨halike, hafter⟩ := h.aborted hsettled
    exact ⟨hafter, fun _ _ => ⟨halike.getCanonical, rfl, rfl⟩⟩
  · refine ⟨?_, nofun⟩
    rw [finish_ok]
    refine .publishBindings ?_ p.name p.version added
    exact hsettled.of_kept rfl h.active h.layers

variable [VocabValue V] {cfg : EngineConfig V} {e : Engine V}

theorem use_spec (hsettled : e.root.Settled cfg) (o : Operation V) :
    (e.use cfg o).1.root.Settled cfg ∧
      ∀ err, (e.use cfg o).2 = some err → e.Unchanged cfg (e.use cfg o).1 := by
  unfold Engine.use
  dsimp only
  split
  · exact ⟨hsettled, fun _ _ => ⟨fun _ _ => rfl, rfl, rfl⟩⟩
  · split
    · exact ⟨hsettled, fun _ _ => ⟨fun _ _ => rfl, rfl, rfl⟩⟩
    · rename_i env hbegin
      exact finish_spec hsettled ((operating_start hbegin ..).loadPlugin cfg o) o.plugin

theorem reloadPlugin_spec (hsettled : e.root.Settled cfg) (o : Operation V) :
    (e.reloadPlugin cfg o).1.root.Settled cfg ∧
      ∀ err, (e.reloadPlugin cfg o).2 = some err → e.Unchanged cfg (e.reloadPlugin cfg o).1 := by
  unfold Engine.reloadPlugin
  dsimp only
  split
  · exact ⟨hsettled, fun _ _ => ⟨fun _ _ => rfl, rfl, rfl⟩⟩
  · rename_i env hbegin
    have hstart := operating_start hbegin o.plugin.name o.plugin.version o.eager
    refine finish_spec hsettled (.loadPlugin ?_ cfg o) o.plugin
    split
    · exact hstart.removePluginBindings _
    · exact hstart

theorem step_settled (h : e.root.Settled cfg) (ev : Event V) :
    (e.step cfg ev).root.Settled cfg := by
  cases ev with
  | set key val canonical charges => exact setCell_settled h key val canonical charges
  | setBoth name val canonical charges => exact ⟨h.idle, h.published⟩
  | delete name => exact h.delete name
  | get key charges => exact h.getCanonical key charges
  | use o => exact (use_spec h o).1
  | reload o => exact (reloadPlugin_spec h o).1
  | unload name =>
    dsimp only [step]
    unfold unloadPlugin
    split
    · exact h
    · exact (h.removePluginBindings _).deactivate name

theorem run_settled (h : e.root.Settled cfg) (evs : List (Event V)) :
    (e.run cfg evs).root.Settled cfg := by
  induction evs generalizing e with
  | nil => exact h
  | cons ev evs ih => exact ih (step_settled h ev)

omit [ValueShallowBytes V] [VocabValue V] in
theorem new_settled (maxRetainedBytes maxRetainedSlots : Int) (layers : TemplateRegistry V) :
    (new maxRetainedBytes maxRetainedSlots layers).root.Settled cfg :=
  ⟨rfl, nofun⟩

/-- A `Use` or `ReloadPlugin` that returns an error changes nothing that a lookup, the plugin
list or a later unload can tell. -/
theorem failed_operation_unchanged (cfg : EngineConfig V) (maxRetainedBytes maxRetainedSlots :
    Int)
    (layers : TemplateRegistry V) (evs : List (Event V)) (o : Operation V) :
    let e := (new maxRetainedBytes maxRetainedSlots layers).run cfg evs
    (∀ err, (e.use cfg o).2 = some err → e.Unchanged cfg (e.use cfg o).1) ∧
      ∀ err, (e.reloadPlugin cfg o).2 = some err → e.Unchanged cfg (e.reloadPlugin cfg o).1 := by
  have hsettled : ((new maxRetainedBytes maxRetainedSlots layers).run cfg evs).root.Settled cfg :=
    run_settled (new_settled maxRetainedBytes maxRetainedSlots layers) evs
  exact ⟨(use_spec hsettled o).2, (reloadPlugin_spec hsettled o).2⟩

section

private def sampleConfig : EngineConfig SampleValue :=
  ⟨⟨true, false, none⟩, "lisp2", fun _ _ => none, id⟩

private def freeCharges : Charges := fun _ => ⟨none, false, none⟩

private def sampleStdlib : Operation SampleValue :=
  ⟨⟨"", "1", [.registerValue "car" (.goFunc "car" 0) true, .registerValue "cdr"
    (.goFunc "cdr" 1) true],
    .returned⟩, false, freeCharges, none⟩

/-- A plugin that defines a name, looks one up that is deferred and one that was deleted,
deletes what it has found, and fails. -/
private def failingPlugin : Operation SampleValue :=
  ⟨⟨"p", "1", [.set ⟨"x", false⟩ (.int 1) false, .get ⟨"car", true⟩, .get ⟨"cdr", false⟩,
    .delete "car"], .failed "no room"⟩, false, freeCharges, none⟩

theorem failed_operation_unchanged_sample :
    let e := (new 0 0 ∅).run sampleConfig [.use sampleStdlib, .delete "cdr"]
    (e.use sampleConfig failingPlugin).2 = some "init plugin p: no room" ∧
      (e.root.getCanonical sampleConfig none ⟨"car", false⟩ freeCharges).2 =
        some (.goFunc "car" 0, true) ∧
      e.Unchanged sampleConfig (e.use sampleConfig failingPlugin).1 := by
  have hfailed : (((new 0 0 ∅).run sampleConfig [.use sampleStdlib, .delete "cdr"]).use
      sampleConfig failingPlugin).2 = some "init plugin p: no room" := by
    decide +kernel
  refine ⟨hfailed, by decide +kernel, ?_⟩
  exact (failed_operation_unchanged sampleConfig 0 0 ∅ [.use sampleStdlib, .delete "cdr"]
    failingPlugin).1 _ hfailed

end

end Engine

end

end Runtime

end Lispico
