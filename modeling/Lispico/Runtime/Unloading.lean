import Lispico.Runtime.StdlibLoad

/-!
# What an unload takes away

A plugin owns the names that its load has bound and that had no binding before, and, if its
registrations are deferred, all names of its template layer. Unloading the plugin deletes the
names that it owns.
-/

namespace Lispico

namespace Runtime

open Lispico.Core AList

section

variable {V : Type}

def LazyEnv.Bound (s : LazyEnv V) (name : String) : Prop :=
  ∃ fn, (s.env.getCanonical ⟨name, fn⟩).isSome = true

variable {name : String} {s : LazyEnv V} {key : RegistrationKey}

theorem mem_snapshotBindings : name ∈ snapshotBindings s.env ↔ s.Bound name := by
  unfold snapshotBindings
  rw [List.mem_map]
  constructor
  · rintro ⟨⟨kname, fn⟩, hk, rfl⟩
    exact ⟨fn, (List.mem_filter.1 hk).2⟩
  · rintro ⟨fn, hlive⟩
    refine ⟨⟨name, fn⟩, List.mem_filter.2 ⟨?_, hlive⟩, rfl⟩
    rw [← mem_keys, ← lookup_isSome]
    unfold Env.getCanonical Env.bound at hlive
    cases hlook : s.env.binds.lookup ⟨name, fn⟩ with
    | none => simp [hlook] at hlive
    | some i => rfl

theorem mem_diff {later before : List String} :
    name ∈ diff later before ↔ name ∈ later ∧ name ∉ before := by
  simp [diff]

theorem mem_bindingNames_of_undoable {id : Nat} {e₀ e : Env V} (h : Env.Undoable id e₀ e)
    (hdead : e₀.getCanonical key = none)
    (hlive : (e.getCanonical key).isSome = true) : key.name ∈ bindingNames e := by
  obtain ⟨r, hreg, -⟩ := Option.map_eq_some_iff.1 h.running
  have hnoted := h.noted key
  cases hentry : (e.keyState key).entry with
  | none =>
    have hbound := hnoted.bound_eq hentry
    rw [Env.keyState_bound, Env.keyState_bound] at hbound
    rw [Env.isSome_getCanonical_iff, hbound, ← Env.isSome_getCanonical_iff, hdead] at hlive
    cases hlive
  | some ent =>
    obtain ⟨howned, -, -⟩ := hnoted.written ent hentry
    have hlook : r.entries.lookup key = some ent := by
      simpa [Env.keyState, hreg] using hentry
    rw [Env.isSome_getCanonical_iff] at hlive
    unfold bindingNames
    rw [hreg]
    refine List.mem_map.2 ⟨⟨key, ent⟩, List.mem_filter.2 ⟨?_, ?_⟩, rfl⟩
    · exact AList.mem_lookup_iff.1 hlook
    · cases hb : e.bound key with
      | none =>
        rw [hb] at hlive
        cases hlive
      | some b =>
        rw [hb] at hlive
        have howns : Registration.owns ent b.1 b.2 = true := by
          simpa [KeyState.owned, hentry, hb] using howned
        simpa [howns] using hlive

theorem bound_of_mem_bindingNames (h : name ∈ bindingNames s.env) :
    s.Bound name := by
  unfold bindingNames at h
  split at h
  · obtain ⟨⟨⟨kname, fn⟩, ent⟩, hx, rfl⟩ := List.mem_map.1 h
    have howned := (List.mem_filter.1 hx).2
    refine ⟨fn, ?_⟩
    rw [Env.isSome_getCanonical_iff]
    cases hb : s.env.bound ⟨kname, fn⟩ with
    | none => simp [hb] at howned
    | some b =>
      simp only [hb, Option.any_some, Bool.and_eq_true] at howned
      exact howned.2
  · cases h

namespace Engine

section

variable {cfg : EngineConfig V} {e : Engine V}

variable {name : String} {added : List String} {version : String}

theorem mem_owned_publishBindings {n : String} :
    n ∈ (e.publishBindings cfg name version added).owned name ↔
      n ∈ added ∨ n ∈ e.root.layers.publishedNames ⟨cfg.dialectFP, name, version⟩ := by
  have howned : Engine.owned ({ e with
      bindings := if added = [] then e.bindings.erase name else e.bindings.insert name added } :
      Engine V) name = added := by
    unfold owned
    dsimp only
    split
    · rename_i hempty
      simp [hempty]
    · simp
  unfold publishBindings populateTemplateBindings
  dsimp only
  split
  · rename_i hnames
    rw [howned, hnames]
    simp
  · rw [howned]
    simp only [owned, lookup_insert, Option.getD_some, List.mem_append, List.mem_filter,
      decide_eq_true_eq]
    tauto

theorem owned_publishBindings_ne {p : String}
    (hp : p ≠ name) : (e.publishBindings cfg name version added).owned p = e.owned p := by
  have howned : Engine.owned ({ e with
      bindings := if added = [] then e.bindings.erase name else e.bindings.insert name added } :
      Engine V) p = e.owned p := by
    unfold owned
    dsimp only
    split
    · rw [lookup_erase_ne hp]
    · rw [lookup_insert_ne hp]
  unfold publishBindings populateTemplateBindings
  dsimp only
  split
  · exact howned
  · rw [← howned]
    simp only [owned, lookup_insert_ne hp]

theorem publishBindings_env (cfg : EngineConfig V) (e : Engine V) (name version : String)
    (added : List String) :
    (e.publishBindings cfg name version added).root.env = e.root.env ∧
      (e.publishBindings cfg name version added).root.layers = e.root.layers ∧
      (e.publishBindings cfg name version added).plugins = e.plugins := by
  unfold publishBindings populateTemplateBindings
  dsimp only
  split
  · exact ⟨rfl, rfl, rfl⟩
  · exact ⟨rfl, rfl, rfl⟩

theorem foldl_delete_spec (via : Option Nat) (names : List String) (s : LazyEnv V) :
    (∀ k, (names.foldl (fun s name => s.delete via name) s).env.getCanonical k =
      if k.name ∈ names then none else s.env.getCanonical k) ∧
    ∀ n, n ∈ (names.foldl (fun s name => s.delete via name) s).tombstoned ↔
      n ∈ names ∨ n ∈ s.tombstoned := by
  induction names generalizing s with
  | nil => simp
  | cons name names ih =>
    obtain ⟨ihget, ihtomb⟩ := ih (s.delete via name)
    refine ⟨fun k => ?_, fun n => ?_⟩
    · rw [List.foldl_cons, ihget, delete_getCanonical]
      by_cases hname : k.name = name
      · simp [hname]
      · simp [hname]
    · rw [List.foldl_cons, ihtomb]
      simp only [LazyEnv.delete, LazyEnv.beginDelete, LazyEnv.noteLocked, Finset.mem_insert,
        List.mem_cons]
      tauto

theorem unloadPlugin_spec (cfg : EngineConfig V) (hloaded : (e.plugins.lookup name).isSome =
    true) :
    (∀ k, (e.unloadPlugin cfg name).1.root.env.getCanonical k =
      if k.name ∈ e.owned name then none else e.root.env.getCanonical k) ∧
    ∀ n ∈ e.owned name, n ∈ (e.unloadPlugin cfg name).1.root.tombstoned := by
  obtain ⟨hget, htomb⟩ := foldl_delete_spec none (e.owned name) e.root
  have hnone : (e.plugins.lookup name).isNone = false := by
    rw [← Option.not_isSome, hloaded]
    rfl
  unfold unloadPlugin
  rw [if_neg (by simp [hnone])]
  unfold removePluginBindings
  by_cases hempty : e.owned name = []
  · rw [if_pos hempty, hempty]
    refine ⟨fun k => ?_, nofun⟩
    rw [if_neg List.not_mem_nil]
    rfl
  · rw [if_neg hempty]
    exact ⟨hget, fun n hn => (htomb n).2 (.inl hn)⟩

end

def Event.Spares (name : String) : Event V → Prop
  | .unload n => n ≠ name
  | .reload o => o.plugin.name ≠ name
  | _ => True

variable [ValueShallowBytes V] [VocabValue V] {cfg : EngineConfig V} {e : Engine V}

variable {o : Operation V}

theorem use_ok (h : (e.use cfg o).2 = none) :
    ∃ s' : LazyEnv V, Operating e.root.env.nextReg e.root s' ∧ (e.use cfg o).1 =
        ({ root := { s' with env := s'.env.complete e.root.env.nextReg, op := none }
           plugins := e.plugins.insert o.plugin.name o.plugin.version
           bindings := e.bindings } : Engine V).publishBindings cfg o.plugin.name
          o.plugin.version (diff (bindingNames s'.env) (snapshotBindings e.root.env)) := by
  unfold Engine.use at h ⊢
  dsimp only at h ⊢
  split at h
  · cases h
  · rename_i hnew
    rw [if_neg hnew]
    cases hbegin : e.root.env.beginRegistration with
    | error err =>
      rw [hbegin] at h
      cases h
    | ok env =>
      rw [hbegin] at h
      dsimp only at h ⊢
      have hload := (operating_start hbegin o.plugin.name o.plugin.version o.eager).loadPlugin
        cfg o
      have hbefore : snapshotBindings env = snapshotBindings e.root.env := by
        unfold Env.beginRegistration at hbegin
        split at hbegin
        · cases hbegin
        · cases hbegin
          rfl
      obtain ⟨s₁, s', -, -, hresult⟩ := finish_loads h
      rw [hresult] at hload
      rw [hresult, finish_ok, ← hbefore]
      exact ⟨s', hload, rfl⟩

/-- Which names a plugin owns after its load: those of its layer, and those that the load has
bound. -/
theorem use_owned (h : (e.use cfg o).2 = none) :
    ((e.use cfg o).1.plugins.lookup o.plugin.name).isSome = true ∧
      ∀ name, name ∈ (e.use cfg o).1.owned o.plugin.name ↔
        name ∈ (e.use cfg o).1.root.layers.publishedNames
          ⟨cfg.dialectFP, o.plugin.name, o.plugin.version⟩ ∨
        ¬ e.root.Bound name ∧ (e.use cfg o).1.root.Bound name := by
  obtain ⟨s', hop, heq⟩ := use_ok h
  set e' : Engine V := { root := { s' with env := s'.env.complete e.root.env.nextReg, op := none }
                         plugins := e.plugins.insert o.plugin.name o.plugin.version
                         bindings := e.bindings } with he'
  obtain ⟨henv, hlayers, hplugins⟩ := publishBindings_env cfg e' o.plugin.name o.plugin.version
    (diff (bindingNames s'.env) (snapshotBindings e.root.env))
  rw [heq, hplugins, hlayers]
  refine ⟨by simp [he'], fun name => ?_⟩
  · have hbound : LazyEnv.Bound (e'.publishBindings cfg o.plugin.name o.plugin.version
        (diff (bindingNames s'.env) (snapshotBindings e.root.env))).root name ↔ s'.Bound name := by
      unfold LazyEnv.Bound
      rw [henv]
      simp only [he', complete_getCanonical]
    rw [mem_owned_publishBindings, hbound, mem_diff, mem_snapshotBindings, or_comm]
    refine or_congr Iff.rfl ⟨fun ⟨hmem, hnew⟩ => ⟨hnew, bound_of_mem_bindingNames hmem⟩, ?_⟩
    rintro ⟨hnew, fn, hlive⟩
    have hdead : e.root.env.getCanonical ⟨name, fn⟩ = none := by
      cases hget : e.root.env.getCanonical ⟨name, fn⟩ with
      | none => rfl
      | some r => exact absurd ⟨fn, by rw [hget]; rfl⟩ hnew
    exact ⟨mem_bindingNames_of_undoable hop.env hdead hlive, hnew⟩

variable {name : String}

variable (cfg)

omit [ValueShallowBytes V] [VocabValue V] in
theorem finish_owned (e : Engine V) {p : Plugin V} (hne : name ≠ p.name)
    (view : Nat) (r : LazyEnv V × Except String (List String)) :
    (e.finish cfg view p r).1.owned name = e.owned name ∧
      (e.finish cfg view p r).1.plugins.lookup name = e.plugins.lookup name := by
  obtain ⟨s, result⟩ := r
  cases result with
  | error err => exact ⟨rfl, rfl⟩
  | ok added =>
    rw [finish_ok]
    refine ⟨owned_publishBindings_ne hne, ?_⟩
    rw [(publishBindings_env ..).2.2, lookup_insert_ne hne]

theorem step_owned (hloaded : (e.plugins.lookup name).isSome = true)
    {ev : Event V} (hev : ev.Spares name) : (e.step cfg ev).owned name = e.owned name ∧
      ((e.step cfg ev).plugins.lookup name).isSome = true := by
  cases ev with
  | set key val canonical charges => exact ⟨rfl, hloaded⟩
  | setBoth n val canonical charges => exact ⟨rfl, hloaded⟩
  | delete n => exact ⟨rfl, hloaded⟩
  | get key charges => exact ⟨rfl, hloaded⟩
  | use o =>
    dsimp only [step]
    unfold Engine.use
    dsimp only
    split
    · exact ⟨rfl, hloaded⟩
    · rename_i hnew
      have hne : name ≠ o.plugin.name := by
        rintro rfl
        exact hnew hloaded
      split
      · exact ⟨rfl, hloaded⟩
      · obtain ⟨howned, hplugins⟩ := finish_owned cfg e hne e.root.env.nextReg _
        exact ⟨howned, by rw [hplugins, hloaded]⟩
  | reload o =>
    dsimp only [step]
    unfold Engine.reloadPlugin
    dsimp only
    have hne : name ≠ o.plugin.name := fun heq => hev heq.symm
    split
    · exact ⟨rfl, hloaded⟩
    · obtain ⟨howned, hplugins⟩ := finish_owned cfg e hne e.root.env.nextReg _
      exact ⟨howned, by rw [hplugins, hloaded]⟩
  | unload n =>
    have hne : name ≠ n := fun heq => hev heq.symm
    dsimp only [step]
    unfold unloadPlugin
    split
    · exact ⟨rfl, hloaded⟩
    · refine ⟨?_, ?_⟩
      · simp only [owned, lookup_erase_ne hne]
      · rw [lookup_erase_ne hne, hloaded]

theorem run_owned (hloaded : (e.plugins.lookup name).isSome = true)
    (evs : List (Event V)) (hevs : ∀ ev ∈ evs, ev.Spares name) :
    (e.run cfg evs).owned name = e.owned name ∧
      ((e.run cfg evs).plugins.lookup name).isSome = true := by
  induction evs generalizing e with
  | nil => exact ⟨rfl, hloaded⟩
  | cons ev evs ih =>
    obtain ⟨howned, hloaded'⟩ := step_owned cfg hloaded (hevs ev (.head _))
    obtain ⟨ihowned, ihloaded⟩ := ih hloaded' fun ev hev => hevs ev (.tail _ hev)
    exact ⟨ihowned.trans howned, ihloaded⟩

variable {cfg}

omit [VocabValue V] in
theorem getCanonical_deleted (hidle : s.op = none)
    (hget : s.env.getCanonical key = none) (htomb : key.name ∈ s.tombstoned) (charges : Charges) :
    (s.getCanonical cfg none key charges).2 = none := by
  simp [LazyEnv.getCanonical, LazyEnv.lookupAndMaterialize, hidle, hget, htomb]

def Resolves (cfg : EngineConfig V) (e : Engine V) (name : String) : Prop :=
  ∃ fn charges, (e.root.getCanonical cfg none ⟨name, fn⟩ charges).2.isSome = true

/-- After any history, the unload of a plugin. A name that resolved before the load keeps its
bindings exactly if, unless it has none left, it is no name of the layer that the load
attached and was bound before the load or not by it. A name that the load has bound or
attached resolves to nothing any more. -/
theorem unload_keeps_iff (cfg : EngineConfig V) (maxRetainedBytes maxRetainedSlots : Int)
    (layers : TemplateRegistry V) (before after : List (Event V)) (o : Operation V)
    (hload : (((new maxRetainedBytes maxRetainedSlots layers).run cfg before).use cfg o).2 = none)
    (hafter : ∀ ev ∈ after, ev.Spares o.plugin.name) :
    let e₁ := (new maxRetainedBytes maxRetainedSlots layers).run cfg before
    let e₂ := (e₁.use cfg o).1
    let e₃ := e₂.run cfg after
    let e₄ := (e₃.unloadPlugin cfg o.plugin.name).1
    let attached := e₂.root.layers.publishedNames ⟨cfg.dialectFP, o.plugin.name, o.plugin.version⟩
    (∀ name, e₁.Resolves cfg name →
      ((∀ fn, e₄.root.env.getCanonical ⟨name, fn⟩ = e₃.root.env.getCanonical ⟨name, fn⟩) ↔
        (e₃.root.Bound name → name ∉ attached ∧ (e₁.root.Bound name ∨ ¬ e₂.root.Bound name)))) ∧
    ∀ name, ¬ e₁.root.Bound name → e₂.root.Bound name ∨ name ∈ attached →
      ∀ fn charges, (e₄.root.getCanonical cfg none ⟨name, fn⟩ charges).2 = none := by
  intro e₁ e₂ e₃ e₄ attached
  obtain ⟨hloaded, hmine⟩ := use_owned hload
  obtain ⟨howned, hloaded₃⟩ := run_owned cfg hloaded after hafter
  obtain ⟨hget, htomb⟩ := unloadPlugin_spec cfg hloaded₃
  rw [howned] at hget htomb
  have hsettled : e₄.root.Settled cfg := by
    have hsettled₁ : e₁.root.Settled cfg := run_settled (new_settled ..) before
    have hsettled₃ : e₃.root.Settled cfg := run_settled (use_spec hsettled₁ o).1 after
    exact step_settled hsettled₃ (.unload o.plugin.name)
  refine ⟨fun name _ => ?_, fun name hnew hnow fn charges => ?_⟩
  · have hcondition : (name ∉ attached ∧ (e₁.root.Bound name ∨ ¬ e₂.root.Bound name)) ↔
        name ∉ e₂.owned o.plugin.name := by
      rw [hmine name]
      tauto
    rw [hcondition]
    constructor
    · rintro hkept ⟨fn, hlive⟩ hmem
      rw [← hkept fn, hget, if_pos hmem] at hlive
      cases hlive
    · intro hsafe fn
      rw [hget]
      split
      · rename_i hmem
        cases hlive : e₃.root.env.getCanonical ⟨name, fn⟩ with
        | none => rfl
        | some r => exact absurd hmem (hsafe ⟨fn, by rw [hlive]; rfl⟩)
      · rfl
  · have hmem : name ∈ e₂.owned o.plugin.name := by
      rw [hmine name]
      tauto
    refine getCanonical_deleted hsettled.idle ?_ (htomb name hmem) charges
    rw [hget, if_pos hmem]

section

private def lisp1Config : EngineConfig SampleValue :=
  ⟨⟨false, false, none⟩, "lisp1", fun _ _ => none, id⟩

private def unmetered : Charges := fun _ => ⟨none, false, none⟩

private def carStdlib : Operation SampleValue :=
  ⟨⟨"", "1", [.registerValue "car" (.goFunc "car" 0) true], .returned⟩, false, unmetered, none⟩

private def hostCar : Event SampleValue := .set ⟨"car", false⟩ (.int 1) false unmetered

theorem unload_keeps_iff_sample :
    let e₁ := (new 0 0 ∅).run lisp1Config [.set ⟨"x", false⟩ (.int 1) false unmetered]
    let e₂ := (e₁.use lisp1Config carStdlib).1
    let e₄ := (e₂.unloadPlugin lisp1Config "").1
    (e₂.root.getCanonical lisp1Config none ⟨"car", false⟩ unmetered).2 =
        some (.goFunc "car" 0, true) ∧
      (e₄.root.getCanonical lisp1Config none ⟨"car", false⟩ unmetered).2 = none ∧
      ∀ fn, e₄.root.env.getCanonical ⟨"x", fn⟩ = e₂.root.env.getCanonical ⟨"x", fn⟩ := by
  obtain ⟨hkept, hgone⟩ := unload_keeps_iff lisp1Config 0 0 ∅
    [.set ⟨"x", false⟩ (.int 1) false unmetered] [] carStdlib (by decide +kernel) nofun
  refine ⟨by decide +kernel, ?_, ?_⟩
  · refine hgone "car" ?_ (.inr (by decide +kernel)) false unmetered
    rintro ⟨fn, hlive⟩
    revert hlive
    cases fn <;> decide +kernel
  · refine (hkept "x" ⟨false, unmetered, by decide +kernel⟩).2 fun _ =>
      ⟨by decide +kernel, .inl ?_⟩
    exact ⟨false, by decide +kernel⟩

/-- The unload of the standard library removes the host's `car`. -/
theorem unload_removes_host_binding :
    let e₁ := (new 0 0 ∅).run lisp1Config [hostCar]
    let e₂ := e₁.use lisp1Config carStdlib
    let e₄ := e₂.1.unloadPlugin lisp1Config ""
    e₁.root.env.getCanonical ⟨"car", false⟩ = some (.int 1, false) ∧ e₂.2 = none ∧
      e₂.1.root.env.getCanonical ⟨"car", false⟩ = some (.int 1, false) ∧ e₄.2 = none ∧
      (e₄.1.root.getCanonical lisp1Config none ⟨"car", false⟩ unmetered).2 = none := by
  decide +kernel

end

end Engine

end

end Runtime

end Lispico
