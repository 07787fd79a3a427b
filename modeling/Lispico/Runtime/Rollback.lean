import Lispico.Core.RegistrationUndo
import Lispico.Runtime.PluginOps

/-!
# A failed plugin operation leaves the engine as it was

While an operation runs, everything it changes can be taken back: writes are in the journal,
lazy memberships in its own record, and it adds only to unpublished layers. `Operating` says
this of the state of an operation that began in `s₀`; aborting leaves a root that resolves every
name as `s₀` does.
-/

namespace Lispico

namespace Runtime

open Lispico.Core

section

variable {S : Type} {P : S → Prop}

theorem andThen_invariant {r : S × Option String} {f : S → S × Option String}
    (hr : P r.1) (hf : ∀ s, P s → P (f s).1) : P (andThen r f).1 := by
  obtain ⟨s, err⟩ := r
  cases err with
  | none => exact hf s hr
  | some err => exact hr

theorem passAll_invariant {A : Type} {f : S → A → S × Option String}
    (hf : ∀ s a, P s → P (f s a).1) (as : List A) {s : S} (hs : P s) : P (passAll f s as).1 := by
  induction as generalizing s with
  | nil => exact hs
  | cons a as ih => exact andThen_invariant (hf s a hs) fun s hs => ih hs

end

section

variable {V : Type} [ValueShallowBytes V] [VocabValue V] {via : Option Nat} {charges : Charges}
  {P : LazyEnv V → Prop}
  (hset : ∀ s key v canonical, P s → P (setCell s via key v canonical charges).1) {s : LazyEnv V}

include hset

theorem setVocabFuncUnlessRebound_invariant (hs : P s) (b : VocabBinding V) :
    P (setVocabFuncUnlessRebound s via b charges).1 := by
  unfold setVocabFuncUnlessRebound
  split
  · exact hs
  · exact hset _ _ _ _ hs

variable (hdelete : ∀ s name, P s → P (s.delete via name))

include hdelete

variable (d : Vocabulary V)

theorem ownPass_invariant (st : LazyEnv V × List (VocabBinding V)) (name : String) (hs : P st.1) :
    P (ownPass d via charges st name).1.1 := by
  obtain ⟨s, renames⟩ := st
  unfold ownPass
  dsimp only
  split
  · exact hs
  · split
    · exact hdelete s name hs
    · split
      · exact hdelete s name hs
      · refine andThen_invariant ?_ fun s hs => ?_
        · split
          · exact hset _ _ _ _ hs
          · exact hs
        · split
          · exact setVocabFuncUnlessRebound_invariant hset hs _
          · exact hs

omit hdelete in
theorem renamePass_invariant (written : List String) (s : LazyEnv V) (b : VocabBinding V)
    (hs : P s) : P (renamePass via charges written s b).1 := by
  refine andThen_invariant ?_ fun s hs => ?_
  · split
    · exact hset _ _ _ _ hs
    · exact hs
  · split
    · exact hs
    · split
      · exact hset _ _ _ _ hs
      · exact setVocabFuncUnlessRebound_invariant hset hs b

omit hdelete in
theorem adapterPass_invariant (s : LazyEnv V) (name : String) (hs : P s) :
    P (adapterPass d via charges s name).1 := by
  unfold adapterPass
  split
  · refine andThen_invariant ?_ fun s hs => ?_
    · split
      · exact hset _ _ _ _ hs
      · exact hs
    · split
      · exact hset _ _ _ _ hs
      · exact hs
  · exact hs

theorem applyVocabulary_invariant (hs : P s) : P (applyVocabulary d s via charges).1 := by
  unfold applyVocabulary
  split
  · exact hs
  · dsimp only
    generalize (regNames s.env).insertionSort (· ≤ ·) = written
    have hown := passAll_invariant (P := fun st => P st.1) (ownPass_invariant hset hdelete d)
      written (s := (s, [])) hs
    split
    · rename_i heq
      rw [heq] at hown
      exact hown
    · rename_i s₁ renames heq
      rw [heq] at hown
      have hrename := passAll_invariant (renamePass_invariant hset written) renames hown
      split
      · rename_i heq'
        rw [heq'] at hrename
        exact hrename
      · rename_i heq'
        rw [heq'] at hrename
        exact passAll_invariant (adapterPass_invariant hset d) _ hrename

omit hset [VocabValue V] hdelete in
theorem getCanonical_invariant {cfg : EngineConfig V} {key : RegistrationKey}
    (hmaterialize : ∀ entry, P (s.materializeOne cfg via key entry charges).1) (hs : P s) :
    P (s.getCanonical cfg via key charges).1 := by
  unfold LazyEnv.getCanonical
  split
  · exact hs
  · unfold LazyEnv.lookupAndMaterialize
    split
    · exact hs
    · split
      · exact hs
      · split
        · exact hs
        · split
          · exact hmaterialize _
          · exact hs

omit hset [ValueShallowBytes V] [VocabValue V] in
theorem removePluginBindings_invariant
    (hbump : ∀ s : LazyEnv V, P s → P s.bumpMacroEpoch) (names : List String)
    (hs : P s) : P (Engine.removePluginBindings s via names) := by
  unfold Engine.removePluginBindings
  split
  · exact hs
  · refine hbump _ ?_
    clear * - hdelete hs
    induction names generalizing s with
    | nil => exact hs
    | cons name names ih => exact ih (hdelete s name hs)

end

section

variable {V : Type} {e₀ e : Env V}

/-- The operation has noted the membership that the name had in `s₀`, or has not changed
it. -/
def MemberNoted (s₀ s : LazyEnv V) (noted : Option LazyOpEntry) (name : String) : Prop :=
  match noted with
  | some ent => ent = ⟨decide (name ∈ s₀.tombstoned), decide (name ∈ s₀.installed), false⟩
  | none => (name ∈ s.tombstoned ↔ name ∈ s₀.tombstoned) ∧
      (name ∈ s.installed ↔ name ∈ s₀.installed)

def LayersKept (layers₀ layers : TemplateRegistry V) : Prop :=
  ∀ key, layers₀.layerState key = true → layers.lookup key = layers₀.lookup key

/-- The state of the operation `view`, which began in `s₀`. -/
structure Operating (view : Nat) (s₀ s : LazyEnv V) : Prop where
  env : Env.Undoable view s₀.env s.env
  op : ∃ op, s.op = some op ∧ op.view = view ∧
    ∀ name, MemberNoted s₀ s (op.entries.lookup name) name
  active : s.active = s₀.active
  layers : LayersKept s₀.layers s.layers

section

variable {view : Nat} {s₀ s : LazyEnv V}

theorem operating_start {s : LazyEnv V} {env : Env V} (h : s.env.beginRegistration = .ok env)
    (name version : String) (eager : Bool) :
    Operating s.env.nextReg s
      (({ s with env := env } : LazyEnv V).beginOp s.env.nextReg name version eager) :=
  ⟨Env.undoable_start h, ⟨_, rfl, rfl, fun _ => ⟨Iff.rfl, Iff.rfl⟩⟩, rfl, fun _ _ => rfl⟩

variable (h : Operating view s₀ s) (name : String)

include h

theorem Operating.setEnv {e : Env V}
    (he : Env.Undoable view s₀.env e) : Operating view s₀ { s with env := e } :=
  ⟨he, h.op, h.active, h.layers⟩

theorem Operating.setLayers {layers : TemplateRegistry V}
    (hl : LayersKept s₀.layers layers) : Operating view s₀ { s with layers := layers } :=
  ⟨h.env, h.op, h.active, hl⟩

theorem Operating.note (tombstoned installed : Finset String)
    (htomb : ∀ n, n ≠ name → (n ∈ tombstoned ↔ n ∈ s.tombstoned))
    (hinst : ∀ n, n ≠ name → (n ∈ installed ↔ n ∈ s.installed)) :
    Operating view s₀ { s.noteLocked (some view) name with
      tombstoned := tombstoned, installed := installed } := by
  obtain ⟨op, hop, hview, hnoted⟩ := h.op
  have hname := hnoted name
  unfold MemberNoted at hname
  -- the other names keep their membership and their entries
  have hother : ∀ n, n ≠ name → MemberNoted s₀ { s.noteLocked (some view) name with
      tombstoned := tombstoned, installed := installed } (op.entries.lookup n) n := by
    intro n hn
    have hkept := hnoted n
    unfold MemberNoted at hkept ⊢
    cases hlook : op.entries.lookup n with
    | some ent => rwa [hlook] at hkept
    | none =>
      rw [hlook] at hkept
      exact ⟨(htomb n hn).trans hkept.1, (hinst n hn).trans hkept.2⟩
  refine ⟨h.env, ⟨op.own (decide (name ∈ s.tombstoned)) (decide (name ∈ s.installed)) name, ?_,
    ?_, fun n => ?_⟩, h.active, h.layers⟩
  · simp [LazyEnv.noteLocked, hop, hview]
  · unfold LazyOp.own
    split
    · exact hview
    · exact hview
  · unfold LazyOp.own
    by_cases hn : n = name
    · subst hn
      unfold MemberNoted
      cases hlook : op.entries.lookup n with
      | some ent =>
        rw [hlook] at hname
        rw [Option.any_some, if_pos (by simp [hname]), hlook]
        exact hname
      | none =>
        rw [hlook] at hname
        rw [Option.any_none, if_neg (by simp), AList.lookup_insert]
        simp [hname.1, hname.2]
    · split
      · exact hother n hn
      · rw [AList.lookup_insert_ne hn]
        exact hother n hn

theorem Operating.recordInstall : Operating view s₀ (s.recordInstall (some view) name) := by
  unfold LazyEnv.recordInstall
  split
  · exact h
  · refine h.note name s.tombstoned (insert name s.installed) (fun _ _ => .rfl) fun n hn => ?_
    simp [hn]

theorem Operating.delete : Operating view s₀ (s.delete (some view) name) := by
  have hnote := h.note name (insert name s.tombstoned) (s.installed.erase name)
    (fun n hn => by simp [hn]) fun n hn => by simp [hn]
  exact hnote.setEnv (h.env.deleteName name)

theorem Operating.opFor : (s.opFor (some view)).isSome = true := by
  obtain ⟨op, hop, hview, -⟩ := h.op
  simp [LazyEnv.opFor, hop, hview]

theorem Operating.bumpMacroEpoch : Operating view s₀ s.bumpMacroEpoch := by
  obtain ⟨henv, hop, hactive, hlayers⟩ := h
  exact ⟨⟨henv.running, henv.tracks, henv.noted, henv.bytes, henv.slots, henv.maxBytes,
    henv.maxSlots⟩, hop, hactive, hlayers⟩

theorem Operating.removePluginBindings (names : List String) :
    Operating view s₀ (Engine.removePluginBindings s (some view) names) :=
  removePluginBindings_invariant (fun _ name hs => hs.delete name) (fun _ hs => hs.bumpMacroEpoch)
    names h

omit h in
theorem restore_noted (s₀ : LazyEnv V) (xs : List (Sigma fun _ : String => LazyOpEntry))
    (hdistinct : xs.NodupKeys)
    {s : LazyEnv V} (h : ∀ name, MemberNoted s₀ s (xs.dlookup name) name) :
    xs.foldl (fun s x => s.restore x.1 x.2) s =
      { s with tombstoned := s₀.tombstoned, installed := s₀.installed } := by
  induction xs generalizing s with
  | nil =>
    have htomb : s.tombstoned = s₀.tombstoned := Finset.ext fun name => (h name).1
    have hinst : s.installed = s₀.installed := Finset.ext fun name => (h name).2
    rw [← htomb, ← hinst]
    rfl
  | cons x xs ih =>
    obtain ⟨name, ent⟩ := x
    rw [List.nodupKeys_cons] at hdistinct
    have hent : ent = ⟨decide (name ∈ s₀.tombstoned), decide (name ∈ s₀.installed), false⟩ := by
      have hname := h name
      rw [List.dlookup_cons_eq] at hname
      exact hname
    have hmember : ∀ (set : Finset String) (member : Bool) (n : String),
        n ∈ LazyEnv.setMember set name member ↔ if n = name then member = true else n ∈ set := by
      intro set member n
      by_cases hn : n = name <;> cases member <;> simp [LazyEnv.setMember, hn]
    rw [List.foldl_cons, ih hdistinct.2]
    · simp [LazyEnv.restore, hent]
    · intro n
      by_cases hn : n = name
      · subst hn
        rw [List.dlookup_eq_none.2 hdistinct.1]
        simp [MemberNoted, LazyEnv.restore, hent, hmember]
      · have hkept := h n
        rw [List.dlookup_cons_ne _ _ hn] at hkept
        unfold MemberNoted at hkept ⊢
        split
        · rename_i heq
          rwa [heq] at hkept
        · rename_i heq
          rw [heq] at hkept
          simpa [LazyEnv.restore, hent, hmember, hn] using hkept

theorem Operating.endOp : s.endOp false =
      { s with op := none, tombstoned := s₀.tombstoned, installed := s₀.installed } := by
  obtain ⟨op, hop, -, hnoted⟩ := h.op
  unfold LazyEnv.endOp
  rw [hop]
  dsimp only
  rw [if_neg (by simp)]
  exact restore_noted s₀ op.entries.entries op.entries.nodupKeys (s := { s with op := none })
    hnoted

end

section Layers

variable {layers₀ layers layers' : TemplateRegistry V}

variable {key : TemplateKey}

variable (h : LayersKept layers₀ layers)

include h

theorem layerState_of_kept (hkey : layers₀.layerState key = true) :
    layers.layerState key = true := by
  rw [TemplateRegistry.layerState, h key hkey]
  exact hkey

theorem LayersKept.open_of_open
    (hopen : layers.layerState key = false) : layers₀.layerState key = false := by
  cases hkey : layers₀.layerState key with
  | false => rfl
  | true =>
    rw [layerState_of_kept h hkey] at hopen
    cases hopen

theorem LayersKept.change (hopen : layers₀.layerState key = false)
    (hother : ∀ k, k ≠ key → layers'.lookup k = layers.lookup k) :
    LayersKept layers₀ layers' := by
  intro k hk
  have hne : k ≠ key := by
    rintro rfl
    rw [hk] at hopen
    cases hopen
  rw [hother k hne, h k hk]

theorem LayersKept.putEntry {quote : String → String} {name : String} {entry : TemplateEntry V}
    (hput : layers.putEntry quote key name entry = .ok layers') : LayersKept layers₀ layers' := by
  unfold TemplateRegistry.putEntry at hput
  dsimp only at hput
  split at hput
  · cases hput
  · rename_i hcomplete
    have hopen : layers.layerState key = false := by
      unfold TemplateRegistry.layerState
      cases hlook : layers.lookup key with
      | none => rfl
      | some layer =>
        rw [hlook] at hcomplete
        simpa using hcomplete
    refine h.change (h.open_of_open hopen) fun k hk => ?_
    split at hput
    · cases hput
      exact AList.lookup_insert_ne hk
    · cases hput
      exact AList.lookup_insert_ne hk

theorem LayersKept.putBindings (cfg : EngineConfig V)
    (key : TemplateKey) (name : String) (bs : List (VocabBinding V)) :
    LayersKept layers₀ (LazyEnv.putBindings cfg layers key name bs) := by
  induction bs generalizing layers with
  | nil => exact h
  | cons b bs ih =>
    unfold LazyEnv.putBindings
    cases hput : layers.putEntry cfg.quote key b.name (LazyEnv.valueEntry name b) with
    | error err => exact h
    | ok layers' => exact ih (h.putEntry hput)

theorem LayersKept.markComplete
    (hopen : layers₀.layerState key = false) : LayersKept layers₀ (layers.markComplete key) := by
  refine h.change hopen fun k hk => ?_
  unfold TemplateRegistry.markComplete
  split
  · exact AList.lookup_insert_ne hk
  · rfl

theorem LayersKept.discardLayer (key : TemplateKey) :
    LayersKept layers₀ (layers.discardLayer key) := by
  unfold TemplateRegistry.discardLayer
  split
  · exact h
  · rename_i hopen
    exact h.change (h.open_of_open (by simpa using hopen)) fun k hk => AList.lookup_erase_ne hk

end Layers

theorem undoable_attempt {view : Nat} (h : Env.Undoable view e₀ e)
    {r : Except String (Env V × Bool)} (hr : ∀ e' w, r = .ok (e', w) → Env.Undoable view e₀ e') :
    Env.Undoable view e₀ (attempt e r).1 := by
  cases r with
  | error err => exact h
  | ok x => exact hr x.1 x.2 rfl

variable [ValueShallowBytes V]

section

variable {view : Nat} {s₀ s : LazyEnv V}

theorem undoable_publishEntry (h : Env.Undoable view e₀ e) (cfg : EngineConfig V)
    (name : String) (entry : TemplateEntry V) (charges : Charges) :
    Env.Undoable view e₀ (LazyEnv.publishEntry cfg e (some view) name entry charges).1 := by
  unfold LazyEnv.publishEntry
  cases entry.kind with
  | goValue value =>
    dsimp only
    unfold LazyEnv.installValue
    split
    · exact undoable_attempt h fun _ _ hset => h.setBothLocked hset
    · exact undoable_attempt h fun _ _ hset => h.setLocked hset
  | bootstrap source =>
    dsimp only
    cases cfg.defineBootstrap name source with
    | none => exact h
    | some staged =>
      obtain ⟨value, stagedFunc, stagedCanon⟩ := staged
      dsimp only [LazyEnv.installStaged]
      split
      · exact undoable_attempt h fun _ _ hset => h.setLocked hset
      · have hfirst := undoable_attempt (r := e.setLocked (some view) ⟨name, false⟩ value
          stagedCanon true (charges ⟨name, false⟩)) h fun _ _ hset => h.setLocked hset
        split
        · exact undoable_attempt hfirst fun _ _ hset => hfirst.setLocked hset
        · exact hfirst

variable (h : Operating view s₀ s)

include h

variable (cfg : EngineConfig V)

variable (key : RegistrationKey)

theorem Operating.materializeOne (entry : TemplateEntry V) (charges : Charges) :
    Operating view s₀ (s.materializeOne cfg (some view) key entry charges).1 := by
  have hwrite := h.setEnv (undoable_publishEntry h.env cfg key.name entry charges)
  unfold LazyEnv.materializeOne
  simp only [h.opFor, ↓reduceIte]
  split
  · exact hwrite.recordInstall key.name
  · exact hwrite

variable (charges : Charges)

theorem Operating.getCanonical :
    Operating view s₀ (s.getCanonical cfg (some view) key charges).1 :=
  getCanonical_invariant (fun entry => h.materializeOne cfg key entry charges) h

theorem Operating.setCell (v : V) (canonical : Bool) (charges : Charges) :
    Operating view s₀ (setCell s (some view) key v canonical charges).1 := by
  unfold Runtime.setCell
  cases hset : s.env.setLocked (some view) key v canonical false (charges key) with
  | error err => exact h
  | ok x => exact h.setEnv (h.env.setLocked hset)

variable [VocabValue V] (o : Operation V)

theorem Operating.registerValue (name : String) (val : V) (canonical : Bool) (charges : Charges) :
    Operating view s₀ (s.registerValue cfg (some view) name val canonical charges) := by
  unfold LazyEnv.registerValue
  split
  · exact h.setLayers (h.layers.putBindings cfg _ name _)
  · exact h.setEnv (undoable_attempt h.env fun _ _ hset => h.env.setLocked hset)

omit [VocabValue V] [ValueShallowBytes V] in
theorem Operating.registerSource (name source : String) :
    Operating view s₀ (s.registerSource cfg (some view) name source).1 := by
  unfold LazyEnv.registerSource
  split
  · split
    · rename_i hput
      exact h.setLayers (h.layers.putEntry hput)
    · exact h
  · exact h

theorem Operating.initOp
    (op : InitOp V) : Operating view s₀ (initOp cfg (some view) charges s op) := by
  cases op with
  | set key val canonical => exact h.setCell key val canonical charges
  | setBoth name val canonical =>
    exact h.setEnv (undoable_attempt h.env fun _ _ hset => h.env.setBothLocked hset)
  | delete name => exact h.delete name
  | get key => exact h.getCanonical cfg key charges
  | registerValue name val canonical => exact h.registerValue cfg name val canonical charges
  | registerSource name source => exact h.registerSource cfg name source
  | bumpMacroEpoch => exact h.bumpMacroEpoch

theorem Operating.runInit
    (ops : List (InitOp V)) : Operating view s₀ (runInit cfg (some view) charges s ops) := by
  induction ops generalizing s with
  | nil => exact h
  | cons op ops ih => exact ih (h.initOp cfg charges op)

theorem Operating.initPlugin : Operating view s₀ (initPlugin cfg s (some view) o).1 := by
  have hinit := h.runInit cfg o.charges o.plugin.init
  unfold Runtime.initPlugin
  dsimp only
  split
  · exact hinit
  · split
    · exact h
    · rename_i hopen
      cases o.plugin.outcome with
      | failed err => exact hinit.setLayers (hinit.layers.discardLayer _)
      | panicked value => exact hinit
      | returned =>
        have hopen₀ := h.layers.open_of_open (Bool.not_eq_true _ ▸ hopen)
        exact hinit.setLayers (hinit.layers.markComplete hopen₀)

theorem Operating.applyVocabulary (d : Vocabulary V)
    (charges : Charges) : Operating view s₀ (applyVocabulary d s (some view) charges).1 :=
  applyVocabulary_invariant (fun _ key v canonical hs => hs.setCell key v canonical charges)
    (fun _ name hs => hs.delete name) d h

theorem Operating.loadPlugin : Operating view s₀ (loadPlugin cfg s (some view) o).1 := by
  unfold Runtime.loadPlugin
  dsimp only
  have hinit := h.initPlugin cfg o
  split
  · rename_i heq
    rw [heq] at hinit
    exact hinit
  · rename_i s₁ heq
    rw [heq] at hinit
    have hvocab := hinit.applyVocabulary cfg.dialect o.charges
    split
    · rename_i heq'
      rw [heq'] at hvocab
      exact hvocab
    · rename_i heq'
      rw [heq'] at hvocab
      split
      · exact hvocab
      · exact hvocab

end

end

end Runtime

end Lispico
