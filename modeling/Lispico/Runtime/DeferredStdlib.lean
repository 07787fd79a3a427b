import Lispico.Runtime.StdlibLoad

/-!
# A deferred standard library against an eager one

The image of the registrations, name by name, is what the template entries and the adapters
stand for, except where an adapter has the name of a builtin: the eager pass leaves a registered
value there that the deferring engine has replaced.
-/

namespace Lispico

namespace Runtime

open Lispico.Core

section

variable {V : Type} [VocabValue V]

/-- What is registered under the name of an adapter is a function that the adapter replaces,
or the adapter itself. -/
def AdaptersAgree (d : Vocabulary V) (regs : Registrations V) : Prop :=
  ∀ name a v canon, d.vocabEntry name = some (.adapter a) → regs.lookup name = some (v, canon) →
    (v, canon) = (a, false) ∨
      VocabValue.isGoFunc v = true ∧ (canon = true ∨ VocabValue.equals v a = false)

section

variable {d : Vocabulary V} {regs : Registrations V} {name : String}

theorem vocabImage_unrenamed {names : List String} {e : Bindings V}
    (h : d.renamed names e name = none) (fn : Bool) :
    d.vocabImage names e ⟨name, fn⟩ =
      d.adapterImage ⟨name, fn⟩ (d.ownStage names e ⟨name, fn⟩) := by
  simp only [Vocabulary.vocabImage, Vocabulary.renameStage, h]

theorem ownStage_unwritten (h : regs.lookup name = none) (fn : Bool) :
    d.ownStage regs.keys regs.bindings ⟨name, fn⟩ = none := by
  rw [Vocabulary.ownStage, if_neg (show name ∉ regs.keys from AList.lookup_eq_none.1 h)]
  cases fn with
  | false => exact h
  | true => rfl

section

variable {v : V} {canon : Bool} (h : regs.lookup name = some (v, canon))

include h

theorem ownStage_written (fn : Bool) : d.ownStage regs.keys regs.bindings ⟨name, fn⟩ =
    d.ownImage ⟨name, fn⟩ (some (v, canon)) (regs.bindings ⟨name, fn⟩) := by
  rw [Vocabulary.ownStage, if_pos (mem_keys_iff_lookup.2 ⟨v, canon, h⟩), bindings_value, h]

theorem ownStage_own {b : VocabBinding V} (hown : d.ownOf name v canon = some b) (fn : Bool) :
    d.ownStage regs.keys regs.bindings ⟨name, fn⟩ =
      if fn then if b.func then some (b.value, b.canonical) else none
      else if canon != b.canonical || !VocabValue.equals v b.value then
        some (b.value, b.canonical)
      else some (v, canon) := by
  rw [ownStage_written h]
  cases fn <;> simp [Vocabulary.ownImage, hown, Registrations.bindings]

end

theorem adapter_level (h : AdaptersAgree d regs) {a : V}
    (hentry : d.vocabEntry name = some (.adapter a)) (fn : Bool) :
    d.adapterImage ⟨name, fn⟩ none = d.vocabImage regs.keys regs.bindings ⟨name, fn⟩ := by
  have hrenamed : d.renamed regs.keys regs.bindings name = none := by
    rw [Vocabulary.renamed, hentry]
  rw [vocabImage_unrenamed hrenamed]
  cases hlook : regs.lookup name with
  | none => rw [ownStage_unwritten hlook]
  | some cur =>
    obtain ⟨v, canon⟩ := cur
    cases hfunc : VocabValue.isGoFunc v with
    | false =>
      -- the registered value is the adapter, which is no function
      obtain heq | ⟨hfunc', -⟩ := h name a v canon hentry hlook
      · cases heq
        rw [ownStage_own hlook (b := ⟨name, a, false, false⟩) (by simp [Vocabulary.ownOf, hfunc])]
        cases fn <;> simp [Vocabulary.adapterImage, hentry, hfunc]
      · rw [hfunc] at hfunc'
        cases hfunc'
    | true =>
      rw [ownStage_own hlook (b := ⟨name, a, false, d.lisp2 && VocabValue.isGoFunc a⟩)
        (by simp [Vocabulary.ownOf, Vocabulary.ownBinding, hfunc, hentry])]
      cases fn with
      | true =>
        cases hmirror : d.lisp2 && VocabValue.isGoFunc a <;>
          simp [Vocabulary.adapterImage, hentry, hmirror]
      | false =>
        obtain heq | ⟨-, hcanon | hequals⟩ := h name a v canon hentry hlook
        · cases heq
          simp [Vocabulary.adapterImage, hentry]
        · simp [Vocabulary.adapterImage, hentry, hcanon]
        · simp [Vocabulary.adapterImage, hentry, hequals]

/-- The cells of a name in the deferring engine follow those in the eager one. -/
abbrev NameFollows (d : Vocabulary V) (regs : Registrations V) (name : String) : Prop :=
  Follows (d.templateEntry regs.keys regs.bindings name) False
    (fun fn => d.adapterImage ⟨name, fn⟩ none)
    fun fn => d.vocabImage regs.keys regs.bindings ⟨name, fn⟩

theorem rename_follows {b : VocabBinding V}
    (hrenamed : d.renamed regs.keys regs.bindings name = some b) : NameFollows d regs name := by
  obtain ⟨hfunc, c, hentry⟩ := renamed_spec hrenamed
  have hadapter : ∀ fn cur, d.adapterImage ⟨name, fn⟩ cur = cur := fun fn cur =>
    adapterImage_of_ne (by simp [hentry]) cur
  have himage : ∀ fn, d.vocabImage regs.keys regs.bindings ⟨name, fn⟩ =
      Vocabulary.renameImage fn (decide (name ∈ regs.keys)) b
        (d.ownStage regs.keys regs.bindings ⟨name, fn⟩) := by
    intro fn
    simp only [Vocabulary.vocabImage, Vocabulary.renameStage, hrenamed, hadapter]
  -- a name that is not written has no binding before the rename
  have hours : ∀ fn, (decide (name ∈ regs.keys) ||
      (d.ownStage regs.keys regs.bindings ⟨name, fn⟩).all fun cur =>
        VocabValue.equals cur.1 b.value) = true := by
    intro fn
    by_cases hmem : name ∈ regs.keys
    · simp [hmem]
    · rw [ownStage_unwritten (AList.lookup_eq_none.2 hmem)]
      simp
  refine .pending ⟨.goValue b.value, b.canonical, b.func, true⟩ b.value ?_ rfl id ?_ ?_ ?_ ?_
  · rw [Vocabulary.templateEntry, hrenamed]
  · exact hadapter false none
  · rw [himage, Vocabulary.renameImage, hours]
    simp
  · intro hfn
    dsimp only at hfn
    refine ⟨hadapter true none, ?_⟩
    rw [himage, Vocabulary.renameImage, hours, hfn]
    simp
  · intro hfn
    dsimp only at hfn
    rw [hadapter, himage, Vocabulary.renameImage, hfn]
    rw [hfn] at hfunc
    simp only [Bool.not_true, Bool.or_self, Bool.false_and, Bool.false_eq_true, if_false]
    cases hlook : regs.lookup name with
    | none => rw [ownStage_unwritten hlook]
    | some cur =>
      have hown : d.ownOf name cur.1 cur.2 = some ⟨name, cur.1, cur.2, false⟩ := by
        simp [Vocabulary.ownOf, Vocabulary.ownBinding, hentry, ← hfunc]
      rw [ownStage_own hlook hown]
      rfl

theorem own_follows (hentry : ∀ a, d.vocabEntry name ≠ some (.adapter a))
    (hrenamed : d.renamed regs.keys regs.bindings name = none) : NameFollows d regs name := by
  have hadapter : ∀ fn cur, d.adapterImage ⟨name, fn⟩ cur = cur := fun fn cur =>
    adapterImage_of_ne hentry cur
  have himage : ∀ fn, d.vocabImage regs.keys regs.bindings ⟨name, fn⟩ =
      d.ownStage regs.keys regs.bindings ⟨name, fn⟩ := by
    intro fn
    rw [vocabImage_unrenamed hrenamed, hadapter]
  have htemplate : d.templateEntry regs.keys regs.bindings name =
      if name ∈ regs.keys then d.ownEntry name (regs.lookup name) else none := by
    rw [Vocabulary.templateEntry, hrenamed]
    rfl
  cases hlook : regs.lookup name with
  | none =>
    rw [if_neg (show name ∉ regs.keys from AList.lookup_eq_none.1 hlook)] at htemplate
    refine .level (fun fn => ?_) (.inr fun entry hsome => ?_)
    · rw [hadapter, himage, ownStage_unwritten hlook]
    · rw [htemplate] at hsome
      cases hsome
  | some cur =>
    obtain ⟨v, canon⟩ := cur
    rw [if_pos (mem_keys_iff_lookup.2 ⟨v, canon, hlook⟩), hlook] at htemplate
    cases hown : d.ownOf name v canon with
    | none =>
      refine .level (fun fn => ?_) (.inr fun entry hsome => ?_)
      · rw [hadapter, himage, ownStage_written hlook]
        simp [Vocabulary.ownImage, hown]
      · rw [htemplate] at hsome
        simp [Vocabulary.ownEntry, hown] at hsome
    | some b =>
      -- a value that binds its own name is pending under it
      have hb : b.value = v ∧ b.canonical = canon := by
        unfold Vocabulary.ownOf Vocabulary.ownBinding at hown
        grind
      refine .pending ⟨.goValue v, canon, b.func, false⟩ v ?_ rfl id (hadapter false none) ?_
        (fun hfn => ⟨hadapter true none, ?_⟩) fun hfn => ?_
      · rw [htemplate]
        simp [Vocabulary.ownEntry, hown, hb]
      · rw [himage, ownStage_own hlook hown]
        simp [hb]
      · rw [himage, ownStage_own hlook hown, if_pos rfl, if_pos hfn, hb.1, hb.2]
      · dsimp only at hfn
        rw [hadapter, himage, ownStage_own hlook hown]
        simp [hfn]

theorem start_follows (h : AdaptersAgree d regs) (name : String) : NameFollows d regs name := by
  cases hrenamed : d.renamed regs.keys regs.bindings name with
  | some b => exact rename_follows hrenamed
  | none =>
    by_cases hentry : ∃ a, d.vocabEntry name = some (.adapter a)
    · obtain ⟨a, hentry⟩ := hentry
      refine .level (adapter_level h hentry) (.inr fun _ _ => .inl ?_)
      simp [Vocabulary.adapterImage, hentry]
    · exact own_follows (fun a ha => hentry ⟨a, ha⟩) hrenamed

end

namespace Engine

variable [ValueShallowBytes V]

/-- New engines that have loaded the same registrations, one deferred and one eager, resolve
every name alike after every run of host events. -/
theorem deferred_resolves_as_eager (cfg : EngineConfig V) (version : String)
    (regs : Registrations V) (charges : Charges) (evs : List (Event V)) (e e' : Engine V)
    (hnew : e.Unlimited) (hnew' : e'.Unlimited) (hready : Ready cfg version regs e.root.layers)
    (hlayer : e'.root.layers.lookup ⟨cfg.dialectFP, "", version⟩ = none) (hfree : charges.Free)
    (hadapters : AdaptersAgree cfg.dialect regs)
    (hdeferred : (e.use cfg (stdlib version regs false charges)).2 = none)
    (heager : (e'.use cfg (stdlib version regs true charges)).2 = none)
    (hevs : (e.use cfg (stdlib version regs false charges)).1.UndeferredRun cfg evs)
    (key : RegistrationKey) (charges' : Charges) (hfree' : charges'.Free) :
    (((e.use cfg (stdlib version regs false charges)).1.run cfg evs).root.getCanonical cfg none
        key charges').2 =
      (((e'.use cfg (stdlib version regs true charges)).1.run cfg evs).root.getCanonical cfg none
        key charges').2 := by
  obtain ⟨hidle, hroomy, htouched, hget, hentries⟩ := deferred_root hnew hfree hready hdeferred
  obtain ⟨hidle', hdetached, hroomy', hget'⟩ := eager_root hnew' hfree hlayer heager
  have hmirrors : LazyEnv.Mirrors cfg (e.use cfg (stdlib version regs false charges)).1.root
      (e'.use cfg (stdlib version regs true charges)).1.root := by
    refine ⟨hidle, hidle', hdetached, hroomy, hroomy', fun name entry hentry => ?_,
      fun name => ?_⟩
    · rw [hentries] at hentry
      exact templateEntry_goValue hentry
    · have hcells := funext fun fn => hget ⟨name, fn⟩
      have hcells' := funext fun fn => hget' ⟨name, fn⟩
      unfold LazyEnv.cellsOf
      rw [hentries, hcells, hcells', eq_false (htouched name)]
      exact start_follows hadapters name
  exact ((mirrors_run hmirrors evs hevs).getCanonical key hfree').1

section

private def plainLisp2 : EngineConfig SampleValue :=
  ⟨⟨true, false, none⟩, "lisp2", fun _ _ => none, id⟩

private def noMeter : Charges := fun _ => ⟨none, false, none⟩

private def carCdr : Registrations SampleValue :=
  AList.insert "car" (.goFunc "car" 0, true) (AList.insert "cdr" (.goFunc "cdr" 1, true) ∅)

private def loaded (eager : Bool) : Engine SampleValue × Option String :=
  (new 0 0 ∅).use plainLisp2 (stdlib "1" carCdr eager noMeter)

theorem deferred_resolves_as_eager_sample :
    let evs : List (Event SampleValue) :=
      [.get ⟨"car", false⟩ noMeter, .set ⟨"car", false⟩ (.int 1) false noMeter, .delete "cdr"]
    (((loaded false).1.run plainLisp2 evs).root.getCanonical plainLisp2 none ⟨"car", true⟩
        noMeter).2 =
      (((loaded true).1.run plainLisp2 evs).root.getCanonical plainLisp2 none ⟨"car", true⟩
        noMeter).2 := by
  have hnew : (new 0 0 ∅ : Engine SampleValue).Unlimited := .new ∅ le_rfl le_rfl
  refine deferred_resolves_as_eager plainLisp2 "1" carCdr noMeter _ _ _ hnew hnew (.inl rfl) rfl
    (fun _ => rfl) ?_ (by decide +kernel) (by decide +kernel) ?_ ⟨"car", true⟩ noMeter
    fun _ => rfl
  · rintro name a v canon ⟨⟩
  · refine ⟨fun _ => rfl, ⟨fun _ => rfl, fun hdeferred => ?_⟩, trivial, trivial⟩
    have hbound : (((loaded false).1.step plainLisp2
        (.get ⟨"car", false⟩ noMeter)).root.cellsOf "car" false).isSome = true := by
      decide +kernel
    have hnone : ((loaded false).1.step plainLisp2
        (.get ⟨"car", false⟩ noMeter)).root.cellsOf "car" false = none := hdeferred.1 false
    rw [hnone] at hbound
    cases hbound

/-- The host defines the value `car`: the eager engine keeps the builtin function, and the
deferring one never binds it. -/
theorem value_definition_hides_deferred_function :
    let evs : List (Event SampleValue) := [.set ⟨"car", false⟩ (.int 1) false noMeter]
    (loaded false).2 = none ∧ (loaded true).2 = none ∧
      (((loaded true).1.run plainLisp2 evs).root.getCanonical plainLisp2 none ⟨"car", true⟩
        noMeter).2 = some (.goFunc "car" 0, true) ∧
      (((loaded false).1.run plainLisp2 evs).root.getCanonical plainLisp2 none ⟨"car", true⟩
        noMeter).2 = none := by
  decide +kernel

end

end Engine

end

end Runtime

end Lispico
