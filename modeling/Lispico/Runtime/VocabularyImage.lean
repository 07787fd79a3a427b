import Lispico.Core.EnvBindings
import Lispico.Runtime.PluginOps

/-!
# What the vocabulary pass makes of the bindings

The pass writes cell by cell, but its result can be said of each name alone: the own binding of
a name that was written, then the rename that the name is, then its adapter.
-/

namespace Lispico

namespace Runtime

open Lispico.Core List

section

variable {V : Type}

abbrev Bindings (V : Type) : Type := RegistrationKey → Option (V × Bool)

section

variable {S : Type} {r : S × Option String} {f : S → S × Option String} {s' : S}

theorem andThen_eq_none_iff :
    andThen r f = (s', none) ↔ ∃ s, r = (s, none) ∧ f s = (s', none) := by
  obtain ⟨s, err⟩ := r
  cases err with
  | none => simp [andThen]
  | some err => simp [andThen]

theorem passAll_cons_eq_none_iff {A : Type} {f : S → A → S × Option String} {s s' : S} {a : A}
    {as : List A} : passAll f s (a :: as) = (s', none) ↔
      ∃ s₁, f s a = (s₁, none) ∧ passAll f s₁ as = (s', none) := by
  rw [passAll, andThen_eq_none_iff]

end

namespace Vocabulary

def adapterImage [VocabValue V] (d : Vocabulary V) (key : RegistrationKey)
    (cur : Option (V × Bool)) : Option (V × Bool) :=
  match d.vocabEntry key.name with
  | some (.adapter value) =>
    if cur.isNone && (!key.fn || (d.lisp2 && VocabValue.isGoFunc value)) then some (value, false)
    else cur
  | _ => cur

variable [VocabValue V]

/-- The binding of its own name that a registered value makes. -/
def ownOf (d : Vocabulary V) (name : String) (v : V) (canon : Bool) : Option (VocabBinding V) :=
  if VocabValue.isGoFunc v then d.ownBinding name v canon else some ⟨name, v, canon, false⟩

/-- The binding of a written name after the first loop, in either namespace. -/
def ownImage (d : Vocabulary V) (key : RegistrationKey) (value cur : Option (V × Bool)) :
    Option (V × Bool) :=
  value.elim cur fun x =>
    (d.ownOf key.name x.1 x.2).bind fun b =>
      if key.fn then
        if b.func && cur.all fun cur => VocabValue.equals cur.1 b.value then
          some (b.value, b.canonical)
        else cur
      else if x.2 != b.canonical || !VocabValue.equals x.1 b.value then
        some (b.value, b.canonical)
      else some x

def renameImage (fn ours : Bool) (b : VocabBinding V) (cur : Option (V × Bool)) :
    Option (V × Bool) :=
  if (!fn || b.func) && (ours || cur.all fun cur => VocabValue.equals cur.1 b.value) then
    some (b.value, b.canonical)
  else cur

/-- The renames of a name that is bound to a `GoFunc`. -/
def renamesOf (d : Vocabulary V) (name : String) (value : Option (V × Bool)) :
    List (VocabBinding V) :=
  match value with
  | none => []
  | some (v, _) =>
    if VocabValue.isGoFunc v then
      (d.aliases name).map fun visible => ⟨visible, v, false, d.lisp2⟩
    else []

def renamed (d : Vocabulary V) (written : List String) (e : Bindings V) (name : String) :
    Option (VocabBinding V) :=
  match d.vocabEntry name with
  | some (.rename c) =>
    if c ≠ name ∧ c ∈ written then
      (e ⟨c, false⟩).bind fun cur =>
        if VocabValue.isGoFunc cur.1 then some ⟨name, cur.1, false, d.lisp2⟩ else none
    else none
  | _ => none

def ownStage (d : Vocabulary V) (written : List String) (e : Bindings V) : Bindings V := fun key
    =>
  if key.name ∈ written then d.ownImage key (e ⟨key.name, false⟩) (e key) else e key

def renameStage (d : Vocabulary V) (written : List String) (e : Bindings V) : Bindings V := fun
    key =>
  match d.renamed written e key.name with
  | some b => renameImage key.fn (decide (key.name ∈ written)) b (d.ownStage written e key)
  | none => d.ownStage written e key

def vocabImage (d : Vocabulary V) (written : List String) (e : Bindings V) : Bindings V := fun
    key =>
  d.adapterImage key (d.renameStage written e key)

end Vocabulary

section Names

variable {d : Vocabulary V}

variable {name : String}

theorem vocabEntry_eq_some_iff {entry : VocabEntry V} :
    d.vocabEntry name = some entry ↔ ∃ vocab, d.vocab = some vocab ∧
      (⟨name, entry⟩ : Sigma fun _ : String => VocabEntry V) ∈ vocab.entries := by
  unfold Vocabulary.vocabEntry
  cases d.vocab with
  | none => simp
  | some vocab =>
    rw [Option.bind_some, ← Option.mem_def, AList.mem_lookup_iff]
    simp

theorem mem_namesWith {p : String → VocabEntry V → Bool} :
    name ∈ d.namesWith p ↔ ∃ entry, d.vocabEntry name = some entry ∧ p name entry = true := by
  simp only [vocabEntry_eq_some_iff]
  unfold Vocabulary.namesWith
  cases d.vocab with
  | none => simp
  | some vocab =>
    simp only [mem_insertionSort, mem_map, mem_filter, Option.some.injEq]
    constructor
    · rintro ⟨x, ⟨hx, hp⟩, rfl⟩
      exact ⟨x.2, ⟨vocab, rfl, hx⟩, hp⟩
    · rintro ⟨entry, ⟨_, rfl, hmem⟩, hp⟩
      exact ⟨⟨name, entry⟩, ⟨hmem, hp⟩, rfl⟩

theorem nodup_namesWith (p : String → VocabEntry V → Bool) : (d.namesWith p).Nodup := by
  unfold Vocabulary.namesWith
  cases d.vocab with
  | none => exact nodup_nil
  | some vocab =>
    refine (perm_insertionSort _ _).nodup_iff.2 ?_
    exact vocab.nodupKeys.sublist filter_sublist

theorem mem_aliases {c : String} :
    name ∈ d.aliases c ↔ d.vocabEntry name = some (.rename c) ∧ c ≠ name := by
  unfold Vocabulary.aliases
  rw [mem_namesWith]
  constructor
  · rintro ⟨entry, hentry, hp⟩
    cases entry with
    | adapter a => cases hp
    | rename c' =>
      simp only [Bool.and_eq_true, beq_iff_eq, bne_iff_ne, ne_eq] at hp
      exact ⟨hp.1 ▸ hentry, fun h => hp.2 h.symm⟩
  · rintro ⟨hentry, hne⟩
    exact ⟨_, hentry, by simpa using fun h => hne h.symm⟩

theorem mem_adapters : name ∈ d.adapters ↔ ∃ a, d.vocabEntry name = some (.adapter a) := by
  unfold Vocabulary.adapters
  rw [mem_namesWith]
  constructor
  · rintro ⟨entry, hentry, hp⟩
    cases entry with
    | adapter a => exact ⟨a, hentry⟩
    | rename c => cases hp
  · rintro ⟨a, hentry⟩
    exact ⟨_, hentry, rfl⟩

end Names

section

variable [VocabValue V] {d : Vocabulary V} {name : String} {v : V} {canon : Bool}

variable {b : VocabBinding V} {value : Option (V × Bool)}

theorem ownOf_name (h : d.ownOf name v canon = some b) : b.name = name := by
  unfold Vocabulary.ownOf Vocabulary.ownBinding at h
  split at h
  · split at h
    · cases h
      rfl
    · cases h
      rfl
    · split at h
      · cases h
      · cases h
        rfl
  · cases h
    rfl

theorem appendVocabBindings_eq (d : Vocabulary V) (name : String) (v : V) (canon : Bool) :
    d.appendVocabBindings name v canon =
      (d.ownOf name v canon).toList ++ d.renamesOf name (some (v, canon)) := by
  unfold Vocabulary.appendVocabBindings Vocabulary.ownOf Vocabulary.renamesOf
  dsimp only
  split
  · rfl
  · rfl

theorem mem_renamesOf :
    b ∈ d.renamesOf name value ↔ d.vocabEntry b.name = some (.rename name) ∧ name ≠ b.name ∧
      ∃ v canon, value = some (v, canon) ∧ VocabValue.isGoFunc v = true ∧
        b = ⟨b.name, v, false, d.lisp2⟩ := by
  unfold Vocabulary.renamesOf
  constructor
  · intro h
    split at h
    · cases h
    · rename_i v canon
      split at h
      · rename_i hfunc
        obtain ⟨visible, hvisible, rfl⟩ := mem_map.1 h
        obtain ⟨hentry, hne⟩ := mem_aliases.1 hvisible
        exact ⟨hentry, hne, v, canon, rfl, hfunc, rfl⟩
      · cases h
  · rintro ⟨hentry, hne, v, canon, rfl, hfunc, hb⟩
    dsimp only
    rw [if_pos hfunc]
    exact mem_map.2 ⟨b.name, mem_aliases.2 ⟨hentry, hne⟩, hb.symm⟩

theorem renamesOf_name_ne (h : b ∈ d.renamesOf name value) : b.name ≠ name :=
  (mem_renamesOf.1 h).2.1.symm

variable {names : List String}

theorem renamed_eq_some_iff {e : Bindings V} : d.renamed names e name = some b ↔
    b.name = name ∧ b ∈ names.flatMap fun c => d.renamesOf c (e ⟨c, false⟩) := by
  rw [mem_flatMap]
  constructor
  · intro h
    unfold Vocabulary.renamed at h
    split at h
    · rename_i c hentry
      split at h
      · rename_i hc
        obtain ⟨cur, hvalue, h⟩ := Option.bind_eq_some_iff.1 h
        split at h
        · rename_i hfunc
          cases h
          exact ⟨rfl, c, hc.2, mem_renamesOf.2 ⟨hentry, hc.1, cur.1, cur.2, hvalue, hfunc, rfl⟩⟩
        · cases h
      · cases h
    · cases h
  · rintro ⟨rfl, c, hc, hb⟩
    obtain ⟨hentry, hne, v, canon, hvalue, hfunc, heq⟩ := mem_renamesOf.1 hb
    simp only [Vocabulary.renamed, hentry, if_pos (And.intro hne hc), hvalue, Option.bind_some,
      hfunc, if_true]
    rw [← heq]

theorem nodup_allRenames (hdistinct : names.Nodup) (e : Bindings V) :
    ((names.flatMap fun name => d.renamesOf name (e ⟨name, false⟩)).map
      VocabBinding.name).Nodup := by
  rw [map_flatMap, nodup_flatMap]
  refine ⟨fun c _ => ?_, hdistinct.imp ?_⟩
  · unfold Vocabulary.renamesOf
    split
    · exact nodup_nil
    · split
      · rw [map_map]
        exact (nodup_namesWith _).map (fun _ _ h => h)
      · exact nodup_nil
  · intro c c' hne a ha ha'
    obtain ⟨b, hb, rfl⟩ := mem_map.1 ha
    obtain ⟨b', hb', hname⟩ := mem_map.1 ha'
    have hentry := (mem_renamesOf.1 hb).1
    rw [← hname, (mem_renamesOf.1 hb').1] at hentry
    cases hentry
    exact hne rfl

end

theorem nodup_regNames (e : Env V) : (regNames e).Nodup := by
  unfold regNames
  cases e.reg with
  | none => exact nodup_nil
  | some r =>
    refine (r.entries.nodupKeys.filter _).map_on fun x hx y hy heq => ?_
    obtain ⟨xname, xfn⟩ := x
    obtain ⟨yname, yfn⟩ := y
    have hxfn := (mem_filter.1 hx).2
    have hyfn := (mem_filter.1 hy).2
    simp only [Bool.not_eq_true'] at hxfn hyfn
    cases hxfn
    cases hyfn
    cases heq
    rfl

section

variable [VocabValue V]

theorem vocabImage_congr (d : Vocabulary V) {names names' : List String}
    (h : ∀ name, name ∈ names ↔ name ∈ names') (e : Bindings V) :
    d.vocabImage names e = d.vocabImage names' e := by
  funext key
  have hown : d.ownStage names e = d.ownStage names' e := by
    funext key
    simp only [Vocabulary.ownStage, h]
  have hrenamed : d.renamed names e = d.renamed names' e := by
    funext name
    simp only [Vocabulary.renamed, h]
  simp only [Vocabulary.vocabImage, Vocabulary.renameStage, hown, hrenamed, h]

theorem vocabImage_trivial {d : Vocabulary V} (hvocab : d.vocab = none) (hlisp1 : d.lisp2 = false)
    (names : List String) (e : Bindings V) : d.vocabImage names e = e := by
  have hentry : ∀ name, d.vocabEntry name = none := by
    intro name
    rw [Vocabulary.vocabEntry, hvocab]
    rfl
  funext key
  obtain ⟨name, fn⟩ := key
  have hown : d.ownStage names e ⟨name, fn⟩ = e ⟨name, fn⟩ := by
    unfold Vocabulary.ownStage Vocabulary.ownImage
    split
    · cases hvalue : e ⟨name, false⟩ with
      | none => rfl
      | some cur =>
        obtain ⟨v, canon⟩ := cur
        cases VocabValue.isGoFunc v <;> cases fn <;>
          simp [Vocabulary.ownOf, Vocabulary.ownBinding, hentry, hvocab, hlisp1, hvalue]
    · rfl
  simp [Vocabulary.vocabImage, Vocabulary.renameStage, Vocabulary.renamed,
    Vocabulary.adapterImage,
    hentry, hown]

end

theorem delete_getCanonical (s : LazyEnv V) (via : Option Nat) (name : String)
    (k : RegistrationKey) : (s.delete via name).env.getCanonical k =
      if k.name = name then none else s.env.getCanonical k :=
  Env.deleteName_getCanonical s.env via name k

section Cells

variable [ValueShallowBytes V] {s s' : LazyEnv V} {via : Option Nat} {charges : Charges}

variable {v : V} {key : RegistrationKey} {canonical : Bool}

theorem setCell_getCanonical
    (h : setCell s via key v canonical charges = (s', none)) (k : RegistrationKey) :
    s'.env.getCanonical k = if k = key then some (v, canonical) else s.env.getCanonical k := by
  unfold setCell at h
  cases hset : s.env.setLocked via key v canonical false (charges key) with
  | error err =>
    rw [hset] at h
    cases h
  | ok x =>
    rw [hset] at h
    cases h
    rw [Env.setLocked_getCanonical hset]
    simp

theorem setCellIf_getCanonical {c : Bool}
    (h : (if c then setCell s via key v canonical charges else (s, none)) = (s', none))
    (k : RegistrationKey) :
    s'.env.getCanonical k =
      if k = key ∧ c = true then some (v, canonical) else s.env.getCanonical k := by
  cases c with
  | true => simpa using setCell_getCanonical h k
  | false =>
    cases h
    simp

variable [VocabValue V] {b : VocabBinding V}

theorem setVocabFuncUnlessRebound_eq (s : LazyEnv V) (via : Option Nat) (b : VocabBinding V)
    (charges : Charges) :
    setVocabFuncUnlessRebound s via b charges =
      if (s.env.getCanonical ⟨b.name, true⟩).all fun cur => VocabValue.equals cur.1 b.value then
        setCell s via ⟨b.name, true⟩ b.value b.canonical charges
      else (s, none) := by
  unfold setVocabFuncUnlessRebound
  cases s.env.getCanonical ⟨b.name, true⟩ with
  | none => rfl
  | some cur => cases h : VocabValue.equals cur.1 b.value <;> simp [h, setVocabFunc]

theorem setOwn_getCanonical {canon : Bool}
    (h : setOwn s via charges v canon b = (s', none)) (k : RegistrationKey) :
    s'.env.getCanonical k =
      if k.name = b.name then
        if k.fn then
          if b.func && (s.env.getCanonical k).all fun cur => VocabValue.equals cur.1 b.value then
            some (b.value, b.canonical)
          else s.env.getCanonical k
        else if canon != b.canonical || !VocabValue.equals v b.value then
          some (b.value, b.canonical)
        else s.env.getCanonical k
      else s.env.getCanonical k := by
  unfold setOwn at h
  rw [andThen_eq_none_iff] at h
  obtain ⟨s₁, hvalue, hfunc⟩ := h
  have hvalue := setCellIf_getCanonical hvalue
  have hfunc : ∀ k, s'.env.getCanonical k =
      if k = ⟨b.name, true⟩ ∧ (b.func && (s₁.env.getCanonical ⟨b.name, true⟩).all fun cur =>
          VocabValue.equals cur.1 b.value) = true then some (b.value, b.canonical)
      else s₁.env.getCanonical k := by
    cases hb : b.func with
    | true =>
      rw [hb, if_pos rfl, setVocabFuncUnlessRebound_eq] at hfunc
      simpa using setCellIf_getCanonical hfunc
    | false =>
      rw [hb, if_neg (by simp)] at hfunc
      cases hfunc
      simp
  obtain ⟨name, fn⟩ := k
  rw [hfunc, hvalue, hvalue]
  by_cases hname : name = b.name
  · subst hname
    cases fn <;> simp
  · simp [hname]

variable {d : Vocabulary V} {renames renames' : List (VocabBinding V)} {name : String}

theorem ownPass_spec (h : ownPass d via charges (s, renames) name = ((s', renames'), none)) :
    (∀ k, s'.env.getCanonical k =
      if k.name = name then
        d.ownImage k (s.env.getCanonical ⟨name, false⟩) (s.env.getCanonical k)
      else s.env.getCanonical k) ∧
      renames' = renames ++ d.renamesOf name (s.env.getCanonical ⟨name, false⟩) := by
  unfold ownPass at h
  dsimp only at h
  unfold Vocabulary.ownImage
  cases hvalue : s.env.getCanonical ⟨name, false⟩ with
  | none =>
    rw [hvalue] at h
    cases h
    simp [Vocabulary.renamesOf]
  | some cur =>
    obtain ⟨v, canon⟩ := cur
    rw [hvalue] at h
    dsimp only at h
    rw [appendVocabBindings_eq] at h
    cases hown : d.ownOf name v canon with
    | some b =>
      have hname := ownOf_name hown
      rw [hown] at h
      dsimp only [Option.toList_some, singleton_append] at h
      rw [if_neg (by simp [hname])] at h
      simp only [Prod.mk.injEq] at h
      obtain ⟨⟨rfl, rfl⟩, herr⟩ := h
      refine ⟨fun k => ?_, rfl⟩
      rw [setOwn_getCanonical (Prod.ext rfl herr), hname]
      obtain ⟨kname, fn⟩ := k
      by_cases hk : kname = name
      · subst hk
        cases fn <;> simp [hown, hvalue]
      · simp [hk]
    | none =>
      -- the own name is not bound: it is deleted, whether it has renames or not
      rw [hown] at h
      dsimp only [Option.toList_none, nil_append] at h
      have hdelete : s' = s.delete via name ∧
          renames' = renames ++ d.renamesOf name (some (v, canon)) := by
        cases hrenames : d.renamesOf name (some (v, canon)) with
        | nil =>
          rw [hrenames] at h
          cases h
          simp
        | cons b bs =>
          have hne : b.name ≠ name := renamesOf_name_ne (hrenames ▸ mem_cons_self)
          rw [hrenames] at h
          dsimp only at h
          rw [if_pos hne] at h
          cases h
          exact ⟨rfl, rfl⟩
      obtain ⟨rfl, rfl⟩ := hdelete
      refine ⟨fun k => ?_, rfl⟩
      rw [delete_getCanonical]
      obtain ⟨kname, fn⟩ := k
      by_cases hk : kname = name
      · subst hk
        simp [hown]
      · simp [hk]

variable {s s' : LazyEnv V}

theorem passAll_ownPass_spec (names : List String) (hdistinct : names.Nodup)
    (h : passAll (ownPass d via charges) (s, renames) names = ((s', renames'), none)) :
    (∀ k, s'.env.getCanonical k = d.ownStage names s.env.getCanonical k) ∧
      renames' = renames ++ names.flatMap fun name =>
        d.renamesOf name (s.env.getCanonical ⟨name, false⟩) := by
  unfold Vocabulary.ownStage
  induction names generalizing s renames with
  | nil =>
    cases h
    simp
  | cons name names ih =>
    rw [passAll_cons_eq_none_iff] at h
    obtain ⟨⟨s₁, renames₁⟩, hfirst, hrest⟩ := h
    rw [nodup_cons] at hdistinct
    obtain ⟨hget, hrenames⟩ := ownPass_spec hfirst
    obtain ⟨ihget, ihrenames⟩ := ih hdistinct.2 hrest
    -- the names that follow are still as they were
    have hkept : ∀ n ∈ names, ∀ fn, s₁.env.getCanonical ⟨n, fn⟩ = s.env.getCanonical ⟨n, fn⟩ := by
      intro n hn fn
      rw [hget, if_neg]
      rintro rfl
      exact hdistinct.1 hn
    refine ⟨fun k => ?_, ?_⟩
    · rw [ihget]
      by_cases hk : k.name ∈ names
      · rw [if_pos hk, if_pos (.tail _ hk), hkept _ hk, ← hkept _ hk k.fn]
      · rw [if_neg hk, hget]
        by_cases hname : k.name = name
        · simp [hname]
        · simp [hk, hname]
    · rw [ihrenames, hrenames, flatMap_cons, append_assoc]
      congr 2
      exact flatMap_congr fun n hn => by rw [hkept n hn]

omit [ValueShallowBytes V] [VocabValue V] in
/-- A pass over distinct names, each of whose steps acts on the bindings of one name. -/
theorem passAll_getCanonical {A : Type} {step : LazyEnv V → A → LazyEnv V × Option String}
    {n : A → String} {image : A → RegistrationKey → Option (V × Bool) → Option (V × Bool)}
    (hstep : ∀ {s a s'}, step s a = (s', none) → ∀ k, s'.env.getCanonical k =
      if k.name = n a then image a k (s.env.getCanonical k) else s.env.getCanonical k)
    {as : List A} (hdistinct : (as.map n).Nodup) (h : passAll step s as = (s', none))
    (k : RegistrationKey) :
    (∀ a ∈ as, k.name = n a → s'.env.getCanonical k = image a k (s.env.getCanonical k)) ∧
      (k.name ∉ as.map n → s'.env.getCanonical k = s.env.getCanonical k) := by
  induction as generalizing s with
  | nil =>
    cases h
    exact ⟨nofun, fun _ => rfl⟩
  | cons a as ih =>
    rw [passAll_cons_eq_none_iff] at h
    obtain ⟨s₁, hfirst, hrest⟩ := h
    rw [map_cons, nodup_cons] at hdistinct
    obtain ⟨ihin, ihout⟩ := ih hdistinct.2 hrest
    have hget := hstep hfirst k
    refine ⟨fun c hc hname => ?_, fun hk => ?_⟩
    · rcases mem_cons.1 hc with rfl | hc
      · rw [ihout (hname ▸ hdistinct.1), hget, if_pos hname]
      · have hne : k.name ≠ n a := by
          intro heq
          exact hdistinct.1 (heq ▸ hname ▸ mem_map_of_mem hc)
        rw [ihin c hc hname, hget, if_neg hne]
    · rw [map_cons, mem_cons, not_or] at hk
      rw [ihout hk.2, hget, if_neg hk.1]

theorem renamePass_spec {written : List String}
    (h : renamePass via charges written s b = (s', none)) (k : RegistrationKey) :
    s'.env.getCanonical k =
      if k.name = b.name then
        Vocabulary.renameImage k.fn (decide (b.name ∈ written)) b (s.env.getCanonical k)
      else s.env.getCanonical k := by
  unfold renamePass at h
  dsimp only at h
  rw [andThen_eq_none_iff] at h
  obtain ⟨s₁, hvalue, hfunc⟩ := h
  have hvalue := setCellIf_getCanonical hvalue
  have hfunc : ∀ k, s'.env.getCanonical k =
      if k = ⟨b.name, true⟩ ∧ (b.func && (decide (b.name ∈ written) ||
          (s₁.env.getCanonical ⟨b.name, true⟩).all fun cur =>
            VocabValue.equals cur.1 b.value)) = true then some (b.value, b.canonical)
      else s₁.env.getCanonical k := by
    cases hb : b.func with
    | false =>
      rw [hb, if_pos (by rfl)] at hfunc
      cases hfunc
      simp
    | true =>
      rw [hb, if_neg (by simp)] at hfunc
      by_cases hours : b.name ∈ written
      · rw [if_pos (by simpa using hours)] at hfunc
        simpa [hours] using setCell_getCanonical hfunc
      · rw [if_neg (by simpa using hours), setVocabFuncUnlessRebound_eq] at hfunc
        simpa [hours] using setCellIf_getCanonical hfunc
  unfold Vocabulary.renameImage
  obtain ⟨name, fn⟩ := k
  rw [hfunc, hvalue, hvalue]
  by_cases hname : name = b.name
  · subst hname
    cases fn <;> simp
  · simp [hname]

theorem adapterPass_spec (h : adapterPass d via charges s name = (s', none))
    (k : RegistrationKey) :
    s'.env.getCanonical k = if k.name = name then d.adapterImage k (s.env.getCanonical k)
      else s.env.getCanonical k := by
  unfold Vocabulary.adapterImage
  unfold adapterPass at h
  obtain ⟨kname, fn⟩ := k
  split at h
  · rename_i value hentry
    rw [andThen_eq_none_iff] at h
    obtain ⟨s₁, hvalue, hfunc⟩ := h
    have hvalue := setCellIf_getCanonical hvalue
    have hfunc := setCellIf_getCanonical hfunc
    by_cases hname : kname = name
    · subst hname
      cases fn <;> simp [hentry, hfunc, hvalue, and_comm]
    · simp [hname, hfunc, hvalue]
  · rename_i hentry
    cases h
    by_cases hname : kname = name
    · subst hname
      rw [if_pos rfl]
      split
      · rename_i value heq
        exact absurd heq (hentry value)
      · rfl
    · rw [if_neg hname]

theorem applyVocabulary_getCanonical (h : applyVocabulary d s via charges = (s', none))
    (k : RegistrationKey) :
    s'.env.getCanonical k = d.vocabImage (regNames s.env) s.env.getCanonical k := by
  unfold applyVocabulary at h
  split at h
  · rename_i htrivial
    cases h
    simp only [Bool.and_eq_true, Option.isNone_iff_eq_none, Bool.not_eq_true'] at htrivial
    rw [vocabImage_trivial htrivial.1 htrivial.2]
  · have hmem : ∀ name, name ∈ regNames s.env ↔
        name ∈ (regNames s.env).insertionSort (· ≤ ·) := by
      intro name
      rw [mem_insertionSort]
    have hdistinct : ((regNames s.env).insertionSort (· ≤ ·)).Nodup :=
      (perm_insertionSort _ _).nodup_iff.2 (nodup_regNames s.env)
    rw [vocabImage_congr d hmem]
    dsimp only at h
    generalize (regNames s.env).insertionSort (· ≤ ·) = written at h hdistinct
    split at h
    · cases h
    · rename_i s₁ renames hown
      obtain ⟨hownGet, hrenames⟩ := passAll_ownPass_spec written hdistinct hown
      rw [nil_append] at hrenames
      split at h
      · cases h
      · rename_i s₂ hrename
        subst hrenames
        obtain ⟨hin, hout⟩ := passAll_getCanonical renamePass_spec
          (nodup_allRenames hdistinct s.env.getCanonical) hrename k
        obtain ⟨hadapt, hkeep⟩ := passAll_getCanonical (n := id) adapterPass_spec
          (by rw [map_id]; exact nodup_namesWith _) h k
        have hrenamed : s₂.env.getCanonical k = d.renameStage written s.env.getCanonical k := by
          unfold Vocabulary.renameStage
          rw [← hownGet]
          cases hb : d.renamed written s.env.getCanonical k.name with
          | some b =>
            obtain ⟨hname, hmem⟩ := renamed_eq_some_iff.1 hb
            rw [hin b hmem hname.symm, hname]
          | none =>
            refine hout fun hmem => ?_
            obtain ⟨b, hb', hname⟩ := mem_map.1 hmem
            rw [renamed_eq_some_iff.2 ⟨hname, hb'⟩] at hb
            cases hb
        rw [Vocabulary.vocabImage, ← hrenamed]
        by_cases hmem : k.name ∈ d.adapters
        · exact hadapt k.name hmem rfl
        · rw [hkeep (by rwa [map_id])]
          unfold Vocabulary.adapterImage
          split
          · rename_i a hentry
            exact absurd (mem_adapters.2 ⟨a, hentry⟩) hmem
          · rfl

end Cells

end

end Runtime

end Lispico
