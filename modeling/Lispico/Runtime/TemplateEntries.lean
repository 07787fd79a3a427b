import Lispico.Runtime.VocabularyImage

/-!
# What a template layer holds

Deferred registrations fill a layer one by one. Whatever their order, the layer ends with
one entry for each name: the rename that the name is, if the builtin that it renames was
registered, and otherwise the own binding of a registered name.
-/

namespace Lispico

namespace Runtime

open Lispico.Core List

section

variable {V : Type}

section PutEntry

variable {layers : TemplateRegistry V} {key : TemplateKey}

theorem putEntry_spec (quote : String → String) (hopen : layers.layerState key = false)
    (name : String) (entry : TemplateEntry V) :
    ∃ layers', layers.putEntry quote key name entry = .ok layers' ∧
      layers'.layerState key = false ∧ ∀ x, layers'.entryFor key x =
        if x = name ∧ ((layers.entryFor key name).any fun prev =>
            prev.isAlias && !entry.isAlias) = false then some entry
        else layers.entryFor key x := by
  have hcomplete : ((layers.lookup key).getD ⟨∅, false⟩).complete = false := by
    unfold TemplateRegistry.layerState at hopen
    cases hlook : layers.lookup key with
    | none => rfl
    | some layer =>
      rw [hlook] at hopen
      exact hopen
  have hentry : ∀ x, layers.entryFor key x =
      ((layers.lookup key).getD ⟨∅, false⟩).entries.lookup x := by
    intro x
    unfold TemplateRegistry.entryFor
    cases layers.lookup key with
    | none => rfl
    | some layer => rfl
  unfold TemplateRegistry.putEntry
  dsimp only
  rw [if_neg (by simp [hcomplete])]
  simp only [hentry]
  generalize (layers.lookup key).getD ⟨∅, false⟩ = layer at hcomplete
  split
  · rename_i hkept
    refine ⟨_, rfl, ?_, fun x => ?_⟩
    · simp [TemplateRegistry.layerState, hcomplete]
    · rw [if_neg (by simp [hkept])]
      simp [TemplateRegistry.entryFor]
  · rename_i hput
    rw [Bool.not_eq_true] at hput
    refine ⟨_, rfl, ?_, fun x => ?_⟩
    · simp [TemplateRegistry.layerState, hcomplete]
    · by_cases hx : x = name
      · subst hx
        simp [TemplateRegistry.entryFor, hput]
      · simp [TemplateRegistry.entryFor, hx, AList.lookup_insert_ne hx]

theorem putBindings_spec (cfg : EngineConfig V) (name : String) (bs : List (VocabBinding V))
    (hdistinct : (bs.map VocabBinding.name).Nodup) (hopen : layers.layerState key = false) :
    (LazyEnv.putBindings cfg layers key name bs).layerState key = false ∧
      (∀ b ∈ bs, (LazyEnv.putBindings cfg layers key name bs).entryFor key b.name =
        if ((layers.entryFor key b.name).any fun prev =>
            prev.isAlias && !(LazyEnv.valueEntry name b).isAlias) = false then
          some (LazyEnv.valueEntry name b)
        else layers.entryFor key b.name) ∧
      ∀ x ∉ bs.map VocabBinding.name,
        (LazyEnv.putBindings cfg layers key name bs).entryFor key x = layers.entryFor key x := by
  induction bs generalizing layers with
  | nil => exact ⟨hopen, nofun, fun _ _ => rfl⟩
  | cons b bs ih =>
    rw [map_cons, nodup_cons] at hdistinct
    obtain ⟨layers₁, hput, hopen₁, hentry⟩ :=
      putEntry_spec cfg.quote hopen b.name (LazyEnv.valueEntry name b)
    obtain ⟨hopen', hin, hout⟩ := ih hdistinct.2 hopen₁
    unfold LazyEnv.putBindings
    rw [hput]
    refine ⟨hopen', fun c hc => ?_, fun x hx => ?_⟩
    · rcases mem_cons.1 hc with rfl | hc
      · rw [hout _ hdistinct.1, hentry]
        simp only [true_and]
      · have hne : c.name ≠ b.name := by
          intro heq
          exact hdistinct.1 (heq ▸ mem_map_of_mem hc)
        have hkept : layers₁.entryFor key c.name = layers.entryFor key c.name := by
          rw [hentry, if_neg (fun h => hne h.1)]
        rw [hin c hc, hkept]
    · rw [map_cons, mem_cons, not_or] at hx
      rw [hout x hx.2, hentry, if_neg (fun h => hx.1 h.1)]

end PutEntry

variable [VocabValue V]

namespace Vocabulary

def ownEntry (d : Vocabulary V) (name : String) (value : Option (V × Bool)) :
    Option (TemplateEntry V) :=
  value.bind fun x => (d.ownOf name x.1 x.2).map fun b =>
    ⟨.goValue b.value, b.canonical, b.func, false⟩

/-- The entry of a name when the values of `e` are registered under the names `done`. -/
def templateEntry (d : Vocabulary V) (done : List String) (e : Bindings V) (name : String) :
    Option (TemplateEntry V) :=
  match d.renamed done e name with
  | some b => some ⟨.goValue b.value, b.canonical, b.func, true⟩
  | none => if name ∈ done then d.ownEntry name (e ⟨name, false⟩) else none

end Vocabulary

section

variable {d : Vocabulary V} {e : Bindings V} {name : String} {done : List String} {n : String}

theorem templateEntry_goValue {entry : TemplateEntry V}
    (h : d.templateEntry done e name = some entry) : ∃ v, entry.kind = .goValue v := by
  unfold Vocabulary.templateEntry at h
  split at h
  · cases h
    exact ⟨_, rfl⟩
  · split at h
    · obtain ⟨x, -, h⟩ := Option.bind_eq_some_iff.1 h
      obtain ⟨b, -, rfl⟩ := Option.map_eq_some_iff.1 h
      exact ⟨_, rfl⟩
    · cases h

theorem renamed_cons_of_ne (done : List String)
    (h : ∀ b ∈ d.renamesOf n (e ⟨n, false⟩), b.name ≠ name) :
    d.renamed (n :: done) e name = d.renamed done e name := by
  refine Option.ext fun b => ?_
  rw [renamed_eq_some_iff, renamed_eq_some_iff, flatMap_cons, mem_append]
  constructor
  · rintro ⟨hname, hmem | hmem⟩
    · exact absurd hname (h b hmem)
    · exact ⟨hname, hmem⟩
  · rintro ⟨hname, hmem⟩
    exact ⟨hname, .inr hmem⟩

theorem renamed_cons_of_mem {b : VocabBinding V}
    (h : b ∈ d.renamesOf n (e ⟨n, false⟩)) : d.renamed (n :: done) e b.name = some b := by
  rw [renamed_eq_some_iff, flatMap_cons, mem_append]
  exact ⟨rfl, .inl h⟩

theorem nodup_renamesOf (d : Vocabulary V) (n : String) (value : Option (V × Bool)) :
    ((d.renamesOf n value).map VocabBinding.name).Nodup := by
  have h := nodup_allRenames (d := d) (nodup_singleton n) fun _ => value
  simpa using h

theorem nodup_appendVocabBindings (d : Vocabulary V) (n : String) (v : V) (canon : Bool) :
    ((d.appendVocabBindings n v canon).map VocabBinding.name).Nodup := by
  rw [appendVocabBindings_eq]
  cases hown : d.ownOf n v canon with
  | none => simpa using nodup_renamesOf d n (some (v, canon))
  | some b =>
    refine nodup_cons.2 ⟨fun hmem => ?_, nodup_renamesOf d n _⟩
    obtain ⟨c, hc, hname⟩ := List.mem_map.1 hmem
    exact renamesOf_name_ne hc (hname.trans (ownOf_name hown))

theorem putBindings_templateEntry (cfg : EngineConfig V) {layers : TemplateRegistry V}
    {key : TemplateKey} {v : V} {canon : Bool}
    (hopen : layers.layerState key = false)
    (hlayer : ∀ x, layers.entryFor key x = cfg.dialect.templateEntry done e x) (hn : n ∉ done)
    (hvalue : e ⟨n, false⟩ = some (v, canon)) :
    (LazyEnv.putBindings cfg layers key n
        (cfg.dialect.appendVocabBindings n v canon)).layerState key = false ∧
      ∀ x, (LazyEnv.putBindings cfg layers key n
        (cfg.dialect.appendVocabBindings n v canon)).entryFor key x =
          cfg.dialect.templateEntry (n :: done) e x := by
  obtain ⟨hopen', hin, hout⟩ :=
    putBindings_spec cfg n _ (nodup_appendVocabBindings cfg.dialect n v canon) hopen
  refine ⟨hopen', fun x => ?_⟩
  rw [appendVocabBindings_eq, ← hvalue] at hin hout ⊢
  by_cases hmem : x ∈ (cfg.dialect.renamesOf n (e ⟨n, false⟩)).map VocabBinding.name
  · -- a rename replaces whatever entry there is
    obtain ⟨c, hc, rfl⟩ := List.mem_map.1 hmem
    have hne : (c.name != n) = true := bne_iff_ne.2 (renamesOf_name_ne hc)
    rw [hin c (mem_append_right _ hc), Vocabulary.templateEntry, renamed_cons_of_mem hc]
    simp [LazyEnv.valueEntry, hne]
  · have hother : ∀ b ∈ cfg.dialect.renamesOf n (e ⟨n, false⟩), b.name ≠ x := fun b hb hname =>
      hmem (List.mem_map.2 ⟨b, hb, hname⟩)
    rw [Vocabulary.templateEntry, renamed_cons_of_ne done hother]
    by_cases hx : x = n
    · subst hx
      cases hown : cfg.dialect.ownOf x v canon with
      | some b =>
        have hname := ownOf_name hown
        have hput := hin b (by simp [hown])
        rw [hname, hlayer, Vocabulary.templateEntry] at hput
        rw [hown] at hput
        rw [hput]
        cases cfg.dialect.renamed done e x with
        | some b' => simp [LazyEnv.valueEntry, hname]
        | none => simp [hn, hvalue, Vocabulary.ownEntry, hown, LazyEnv.valueEntry, hname]
      | none =>
        rw [hown] at hout
        rw [hout x (by simpa using hmem), hlayer, Vocabulary.templateEntry]
        simp [hn, hvalue, Vocabulary.ownEntry, hown]
    · -- a name that the registration does not bind keeps its entry
      rw [hout x, hlayer, Vocabulary.templateEntry]
      · simp [hx]
      · rw [map_append, mem_append, not_or]
        refine ⟨fun hself => ?_, hmem⟩
        obtain ⟨b, hb, rfl⟩ := List.mem_map.1 hself
        exact hx (ownOf_name (Option.mem_toList.1 hb))

end

end

end Runtime

end Lispico
