import Lispico.Runtime.VocabularyImage

/-!
# Bindings that the vocabulary pass should leave alone

A live binding that the operation has not written belongs to the host or to another plugin. The
pass keeps it unless the name was written in the other namespace and the dialect does not list
it, or unless it counts the binding as its own.
-/

namespace Lispico

namespace Runtime

open Lispico.Core Option

section

variable {V : Type} {name : String}

def journaled (e : Env V) (key : RegistrationKey) : Bool :=
  e.reg.any fun r => (r.entries.lookup key).isSome

theorem mem_regNames {e : Env V} : name ∈ regNames e ↔ journaled e ⟨name, false⟩ = true := by
  unfold regNames journaled
  cases e.reg with
  | none => simp
  | some r =>
    rw [any_some, AList.lookup_isSome, List.mem_map]
    constructor
    · rintro ⟨⟨kname, fn⟩, hk, rfl⟩
      obtain ⟨hmem, hfn⟩ := List.mem_filter.1 hk
      simp only [Bool.not_eq_true'] at hfn
      subst hfn
      exact hmem
    · intro hmem
      exact ⟨⟨name, false⟩, List.mem_filter.2 ⟨hmem, rfl⟩, rfl⟩

variable [VocabValue V]

namespace Vocabulary

/-- A binding that is not the operation's is safe. If its name is a rename of a builtin that
was written, it is not counted as the operation's own, or is what the rename binds. If its
name was written as a `GoFunc` in the value namespace, the dialect admits the name, and the
binding does not equal what the mirror binds, or is just that. -/
def Spared (d : Vocabulary V) (written : List String) (e : Bindings V) (key : RegistrationKey)
    (cur : V × Bool) : Prop :=
  match d.renamed written e key.name with
  | some b =>
    (key.fn = true → d.lisp2 = true) →
      key.name ∈ written ∨ VocabValue.equals cur.1 b.value = true → (b.value, b.canonical) = cur
  | none =>
    key.name ∈ written → ∀ v canon, e ⟨key.name, false⟩ = some (v, canon) →
      VocabValue.isGoFunc v = true → ∃ b, d.ownBinding key.name v canon = some b ∧
          (b.func = true → VocabValue.equals cur.1 b.value = true → (b.value, b.canonical) = cur)

end Vocabulary

section

variable {d : Vocabulary V} {written : List String} {e : Bindings V} {key : RegistrationKey}
  {cur : V × Bool} {b : VocabBinding V}

theorem adapterImage_some (d : Vocabulary V) (key : RegistrationKey) (cur : V × Bool) :
    d.adapterImage key (some cur) = some cur := by
  unfold Vocabulary.adapterImage
  split
  · rfl
  · rfl

theorem adapterImage_of_ne (h : ∀ a, d.vocabEntry key.name ≠ some (.adapter a))
    (cur : Option (V × Bool)) : d.adapterImage key cur = cur := by
  unfold Vocabulary.adapterImage
  split
  · rename_i a hentry
    exact absurd hentry (h a)
  · rfl

theorem ownBinding_eq_none {v : V} {canon : Bool} (h : d.ownBinding key.name v canon = none) :
    d.vocabEntry key.name = none := by
  unfold Vocabulary.ownBinding at h
  split at h
  · cases h
  · cases h
  · assumption

theorem ownImage_rename {c : String} (hentry : d.vocabEntry key.name = some (.rename c))
    (hfn : key.fn = true) (hlisp1 : d.lisp2 = false) (value : Option (V × Bool))
      (cur : V × Bool) :
    d.ownImage key value (some cur) = some cur := by
  unfold Vocabulary.ownImage Vocabulary.ownOf Vocabulary.ownBinding
  cases value with
  | none => rfl
  | some value => cases VocabValue.isGoFunc value.1 <;> simp [hentry, hfn, hlisp1]

theorem renamed_spec (h : d.renamed written e name = some b) :
    b.func = d.lisp2 ∧ ∃ c, d.vocabEntry name = some (.rename c) := by
  obtain ⟨rfl, hmem⟩ := renamed_eq_some_iff.1 h
  obtain ⟨c, -, hb⟩ := List.mem_flatMap.1 hmem
  obtain ⟨hentry, -, v, canon, -, -, hb⟩ := mem_renamesOf.1 hb
  exact ⟨by rw [hb], c, hentry⟩

theorem renameImage_eq_iff (hrenamed : d.renamed written e key.name = some b)
    (hcur : e key = some cur) (hkey : key.fn = false → key.name ∉ written) :
    Vocabulary.renameImage key.fn (decide (key.name ∈ written)) b (d.ownStage written e key) =
        some cur ↔
      ((key.fn = true → d.lisp2 = true) →
        key.name ∈ written ∨ VocabValue.equals cur.1 b.value = true →
          (b.value, b.canonical) = cur) := by
  obtain ⟨hfunc, c, hentry⟩ := renamed_spec hrenamed
  unfold Vocabulary.renameImage Vocabulary.ownStage
  by_cases hw : key.name ∈ written
  · have hfn : key.fn = true := by
      cases hfn : key.fn with
      | false => exact absurd hw (hkey hfn)
      | true => rfl
    cases hlisp : d.lisp2 with
    | true => simp [hw, hfn, hfunc, hlisp]
    | false =>
      have hown := ownImage_rename hentry hfn hlisp (e ⟨key.name, false⟩) cur
      simp [hw, hfn, hfunc, hlisp, hcur, hown]
  · simp only [hw, decide_false, Bool.false_or, if_false, hcur, all_some, false_or, hfunc]
    cases hequals : VocabValue.equals cur.1 b.value <;> cases hfn : key.fn <;>
      cases hlisp : d.lisp2 <;> simp

theorem ownStage_eq_iff (hcur : e key = some cur) (hkey : key.fn = false → key.name ∉ written) :
    d.adapterImage key (d.ownStage written e key) = some cur ↔
      (key.name ∈ written → ∀ v canon, e ⟨key.name, false⟩ = some (v, canon) →
        VocabValue.isGoFunc v = true →
          ∃ b, d.ownBinding key.name v canon = some b ∧ (b.func = true →
            VocabValue.equals cur.1 b.value = true → (b.value, b.canonical) = cur)) := by
  unfold Vocabulary.ownStage
  by_cases hw : key.name ∈ written
  · have hfn : key.fn = true := by
      cases hfn : key.fn with
      | false => exact absurd hw (hkey hfn)
      | true => rfl
    unfold Vocabulary.ownImage Vocabulary.ownOf
    rw [if_pos hw, hcur]
    cases hvalue : e ⟨key.name, false⟩ with
    | none => simp [adapterImage_some]
    | some value =>
      obtain ⟨v, canon⟩ := value
      cases hfunc : VocabValue.isGoFunc v with
      | false =>
        simp only [hfunc, hfn, elim_some, if_true]
        refine ⟨fun _ _ v' canon' hv' hfunc' => ?_, fun _ => adapterImage_some d key cur⟩
        cases hv'
        rw [hfunc] at hfunc'
        cases hfunc'
      | true =>
        cases hown : d.ownBinding key.name v canon with
        | none =>
          simp only [hfunc, hown, if_true, elim_some, bind_none]
          rw [adapterImage_of_ne (by simp [ownBinding_eq_none hown])]
          refine ⟨nofun, fun h => ?_⟩
          obtain ⟨b, hb, -⟩ := h hw v canon rfl hfunc
          rw [hown] at hb
          cases hb
        | some b =>
          simp only [hfunc, hown, hfn, if_true, elim_some, bind_some,
            all_some]
          refine ⟨fun h _ v' canon' hv' _ => ?_, fun h => ?_⟩
          · cases hv'
            refine ⟨b, hown, fun hmirror hequals => ?_⟩
            rw [if_pos (by simp [hmirror, hequals]), adapterImage_some] at h
            exact Option.some.inj h
          · obtain ⟨b', hb', hsame⟩ := h hw v canon rfl hfunc
            rw [hown] at hb'
            cases hb'
            split
            · rename_i hboth
              rw [Bool.and_eq_true] at hboth
              rw [adapterImage_some, hsame hboth.1 hboth.2]
            · exact adapterImage_some d key cur
  · simp [hw, hcur, adapterImage_some]

theorem vocabImage_eq_iff_spared (hcur : e key = some cur)
    (hkey : key.fn = false → key.name ∉ written) :
    d.vocabImage written e key = some cur ↔ d.Spared written e key cur := by
  unfold Vocabulary.vocabImage Vocabulary.renameStage Vocabulary.Spared
  cases hrenamed : d.renamed written e key.name with
  | none => exact ownStage_eq_iff hcur hkey
  | some b =>
    obtain ⟨-, c, hentry⟩ := renamed_spec hrenamed
    dsimp only
    rw [← renameImage_eq_iff hrenamed hcur hkey, adapterImage_of_ne (by simp [hentry])]

end

variable [ValueShallowBytes V]

/-- A pass that succeeds keeps the bindings that are not the operation's exactly if they are
all safe. -/
theorem applyVocabulary_keeps_iff (d : Vocabulary V) (s s' : LazyEnv V) (via : Option Nat)
    (charges : Charges) (h : applyVocabulary d s via charges = (s', none)) :
    (∀ key cur, journaled s.env key = false → s.env.getCanonical key = some cur →
      s'.env.getCanonical key = some cur) ↔
    ∀ key cur, journaled s.env key = false → s.env.getCanonical key = some cur →
      d.Spared (regNames s.env) s.env.getCanonical key cur := by
  have hpoint : ∀ key cur, journaled s.env key = false → s.env.getCanonical key = some cur →
      (s'.env.getCanonical key = some cur ↔
        d.Spared (regNames s.env) s.env.getCanonical key cur) := by
    intro key cur hkey hcur
    rw [applyVocabulary_getCanonical h]
    refine vocabImage_eq_iff_spared hcur fun hfn hmem => ?_
    obtain ⟨name, fn⟩ := key
    subst hfn
    rw [mem_regNames.1 hmem] at hkey
    cases hkey
  constructor
  · intro hkept key cur hkey hcur
    exact (hpoint key cur hkey hcur).1 (hkept key cur hkey hcur)
  · intro hsafe key cur hkey hcur
    exact (hpoint key cur hkey hcur).2 (hsafe key cur hkey hcur)

end

namespace Engine

private def firstOnly : EngineConfig SampleValue :=
  ⟨⟨true, true, some (AList.insert "first" (.rename "first") ∅)⟩, "first", fun _ _ => none, id⟩

private def tickPlugin : Operation SampleValue :=
  ⟨⟨"clock", "1", [.set ⟨"tick", false⟩ (.goFunc "tick" 0) false], .returned⟩, false,
    fun _ => ⟨none, false, none⟩, none⟩

private def tickHost : Engine SampleValue :=
  (new 0 0 ∅).run firstOnly
    [.set ⟨"tick", true⟩ (.goFunc "host/tick" 1) false fun _ => ⟨none, false, none⟩]

/-- The root after the `Init` of the plugin. -/
private def tickWritten : LazyEnv SampleValue :=
  match tickHost.root.env.beginRegistration with
  | .ok env =>
    runInit firstOnly (some 0) tickPlugin.charges
      (({ tickHost.root with env := env } : LazyEnv SampleValue).beginOp 0 "clock" "1" false)
      tickPlugin.plugin.init
  | .error _ => tickHost.root

theorem applyVocabulary_keeps_iff_sample :
    let r := applyVocabulary firstOnly.dialect tickWritten (some 0) tickPlugin.charges
    r.2 = none ∧
    ((∀ key cur, journaled tickWritten.env key = false →
      tickWritten.env.getCanonical key = some cur → r.1.env.getCanonical key = some cur) ↔
    ∀ key cur, journaled tickWritten.env key = false →
      tickWritten.env.getCanonical key = some cur →
        firstOnly.dialect.Spared (regNames tickWritten.env) tickWritten.env.getCanonical
          key cur) := by
  have hok : (applyVocabulary firstOnly.dialect tickWritten (some 0) tickPlugin.charges).2 =
    none := by
    decide +kernel
  exact ⟨hok, applyVocabulary_keeps_iff firstOnly.dialect tickWritten _ (some 0)
    tickPlugin.charges
    (Prod.ext rfl hok)⟩

/-- Loading the plugin, which binds no function `tick`, removes the host's. -/
theorem unlisted_name_unbinds_host_function : journaled tickWritten.env ⟨"tick", true⟩ = false ∧
      tickHost.root.env.getCanonical ⟨"tick", true⟩ = some (.goFunc "host/tick" 1, false) ∧
      (tickHost.use firstOnly tickPlugin).2 = none ∧
      (tickHost.use firstOnly tickPlugin).1.root.env.getCanonical ⟨"tick", true⟩ = none := by
  decide +kernel

end Engine

end Runtime

end Lispico
