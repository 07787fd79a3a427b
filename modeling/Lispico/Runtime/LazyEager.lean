import Lispico.Runtime.FailedOperations
import Lispico.Runtime.TemplateEntries

/-!
# Deferred and eager registration

Two engines with the same standard library, one of which defers its registrations. A name is
pending on the deferring engine, or both bind it alike. Host events keep this as long as the
host does not define one namespace of a pending name whose entry fills both.
-/

namespace Lispico

namespace Runtime

open Lispico.Core Env

section

variable {V : Type} {cfg : EngineConfig V} {charge : Charge} {e : Env V}

def Charges.Free (charges : Charges) : Prop := ∀ key, (charges key).refused = none

def Roomy (e : Env V) : Prop := e.maxRetainedBytes ≤ 0 ∧ e.maxRetainedSlots ≤ 0

theorem prepareFreshRetained_isOk_of_roomy (h : Roomy e)
    (hfree : charge.refused = none) (bytes slots : Int) :
    (e.prepareFreshRetained charge bytes slots).isOk = true := by
  have hreserve : e.reserveRetainedBindings bytes slots = .ok () := by
    unfold Env.reserveRetainedBindings
    rw [if_neg (fun hlimit => absurd hlimit.1 (not_lt.2 h.1)),
      if_neg (fun hlimit => absurd hlimit.1 (not_lt.2 h.2))]
  have hmeter : Env.chargeRetainedMeter charge bytes slots = .ok () := by
    unfold Env.chargeRetainedMeter
    rw [hfree]
    split
    · rfl
    · rfl
  unfold Env.prepareFreshRetained
  rw [hreserve, hmeter]
  split
  · rfl
  · dsimp only [bind, Except.bind]
    split
    · rfl
    · rfl

theorem exists_of_isOk {r : Except String (Env V × Bool)} (h : r.isOk = true) :
    ∃ e w, r = .ok (e, w) := by
  cases r with
  | error err => cases h
  | ok x => exact ⟨x.1, x.2, rfl⟩

theorem deleteName_roomy (h : Roomy e) (via : Option Nat) (name : String) :
    Roomy (e.deleteName via name) := by
  have hkey : ∀ {e : Env V} (key : RegistrationKey), Roomy e → Roomy (e.deleteKey via key) := by
    intro e key h
    obtain ⟨husage, -⟩ := deleteKey_spec e via key
    obtain ⟨-, -, hbytes, hslots⟩ := Env.usage_eq_iff.1 husage
    exact ⟨hbytes ▸ h.1, hslots ▸ h.2⟩
  exact hkey _ (hkey _ h)

section

variable [ValueShallowBytes V] {e : Env V}

theorem setLocked_free (h : Roomy e) (via : Option Nat) (key : RegistrationKey) (val : V)
    (canonical ifVacant : Bool) (hfree : charge.refused = none) :
    ∃ e' w, e.setLocked via key val canonical ifVacant charge = .ok (e', w) ∧ Roomy e' := by
  have hok : (e.setLocked via key val canonical ifVacant charge).isOk = true := by
    rw [setLocked_isOk, prepareFreshRetained_isOk_of_roomy h hfree, Bool.or_true]
  obtain ⟨e', w, hset⟩ := exists_of_isOk hok
  refine ⟨e', w, hset, ?_⟩
  cases w with
  | false => exact setLocked_unwritten hset ▸ h
  | true =>
    have hwrites := (setLocked_spec hset).writes
    exact ⟨hwrites.maxBytes ▸ h.1, hwrites.maxSlots ▸ h.2⟩

theorem setBothLocked_free (h : Roomy e) (via : Option Nat) (name : String) (val : V)
    (canonical ifVacant : Bool) (hfree : charge.refused = none) :
    ∃ e' w, e.setBothLocked via name val canonical ifVacant charge = .ok (e', w) ∧ Roomy e' := by
  have hok : (e.setBothLocked via name val canonical ifVacant charge).isOk = true := by
    rw [setBothLocked_isOk, prepareFreshRetained_isOk_of_roomy h hfree, Bool.or_true]
  obtain ⟨e', w, hset⟩ := exists_of_isOk hok
  refine ⟨e', w, hset, ?_⟩
  cases w with
  | false => exact setBothLocked_unwritten hset ▸ h
  | true =>
    have hwrites := (setBothLocked_spec hset).1
    exact ⟨hwrites.maxBytes ▸ h.1, hwrites.maxSlots ▸ h.2⟩

theorem setCell_free {s : LazyEnv V} (h : Roomy s.env) (via : Option Nat) (key : RegistrationKey)
    (val : V) (canonical : Bool) {charges : Charges} (hfree : charges.Free) :
    ∃ e', setCell s via key val canonical charges = ({ s with env := e' }, none) ∧ Roomy e' ∧
      ∀ k, e'.getCanonical k =
        if k = key then some (val, canonical) else s.env.getCanonical k := by
  obtain ⟨e', w, hset, hroomy⟩ := setLocked_free h via key val canonical false (hfree key)
  refine ⟨e', ?_, hroomy, fun k => ?_⟩
  · rw [setCell, hset]
  · rw [setLocked_getCanonical hset]
    simp

end

/-- How the two engines stand with a name: `slot` is its template entry, `touched` says that
the deferring engine has installed or deleted it, and `b` and `b'` are the bindings of its two
namespaces. -/
inductive Follows (slot : Option (TemplateEntry V)) (touched : Prop)
    (b b' : Bool → Option (V × Bool)) : Prop where
  | pending (entry : TemplateEntry V) (v : V) (hentry : slot = some entry)
      (hkind : entry.kind = .goValue v) (htouched : ¬ touched) (hvalue : b false = none)
      (hvalue' : b' false = some (v, entry.canonical))
      (hfunc : entry.fn = true → b true = none ∧ b' true = some (v, entry.canonical))
      (hother : entry.fn = false → b true = b' true)
  | level (hlevel : ∀ fn, b fn = b' fn)
      (hclosed : touched ∨ ∀ entry, slot = some entry →
        (b false).isSome = true ∨ entry.fn = true ∧ (b true).isSome = true)

namespace LazyEnv

def cellsOf (s : LazyEnv V) (name : String) (fn : Bool) : Option (V × Bool) :=
  s.env.getCanonical ⟨name, fn⟩

def Touched (s : LazyEnv V) (name : String) : Prop := name ∈ s.tombstoned ∨ name ∈ s.installed

/-- A name with an entry for both namespaces that no one has touched yet. -/
def Deferred (cfg : EngineConfig V) (s : LazyEnv V) (name : String) : Prop :=
  (∀ fn, s.cellsOf name fn = none) ∧ ¬ s.Touched name ∧
    ∃ entry, s.activeEntry cfg.dialectFP name = some entry ∧ entry.fn = true

structure Mirrors (cfg : EngineConfig V) (s t : LazyEnv V) : Prop where
  idle : s.op = none
  idle' : t.op = none
  detached : t.active = ∅
  roomy : Roomy s.env
  roomy' : Roomy t.env
  values : ∀ name entry, s.activeEntry cfg.dialectFP name = some entry →
    ∃ v, entry.kind = .goValue v
  follows : ∀ name, Follows (s.activeEntry cfg.dialectFP name) (s.Touched name) (s.cellsOf name)
    (t.cellsOf name)

end LazyEnv

section

variable {slot : Option (TemplateEntry V)} {touched : Prop} {b b' : Bool → Option (V × Bool)}

variable (h : Follows slot touched b b')

include h

theorem Follows.eq_of_isSome {fn : Bool} (hb : (b fn).isSome = true) : b' fn = b fn := by
  cases h with
  | level hlevel hclosed => exact (hlevel fn).symm
  | pending entry v hentry hkind htouched hvalue hvalue' hfunc hother =>
    cases fn with
    | false => simp [hvalue] at hb
    | true =>
      cases hfn : entry.fn with
      | true => simp [(hfunc hfn).1] at hb
      | false => exact (hother hfn).symm

theorem Follows.eq_of_touched (ht : touched ∨ slot = none) (fn : Bool) : b' fn = b fn := by
  cases h with
  | level hlevel hclosed => exact (hlevel fn).symm
  | pending entry v hentry hkind htouched hvalue hvalue' hfunc hother =>
    rcases ht with ht | ht
    · exact absurd ht htouched
    · rw [ht] at hentry
      cases hentry

theorem Follows.set (fn : Bool) (r : V × Bool) (hdefine : ¬ ((∀ fn, b fn = none) ∧ ¬ touched ∧
      ∃ entry, slot = some entry ∧ entry.fn = true)) :
    Follows slot touched (fun f => if f = fn then some r else b f)
      fun f => if f = fn then some r else b' f := by
  cases h with
  | level hlevel hclosed =>
    refine .level (fun f => by rw [hlevel f]) (hclosed.imp_right fun hlive entry hentry => ?_)
    obtain hvalue | ⟨hfn, hfunc⟩ := hlive entry hentry
    · left
      split
      · rfl
      · exact hvalue
    · refine .inr ⟨hfn, ?_⟩
      split
      · rfl
      · exact hfunc
  | pending entry v hentry hkind htouched hvalue hvalue' hfunc hother =>
    cases hfn : entry.fn with
    | true =>
      refine absurd ⟨fun f => ?_, htouched, entry, hentry, hfn⟩ hdefine
      cases f with
      | false => exact hvalue
      | true => exact (hfunc hfn).1
    | false =>
      cases fn with
      | false =>
        refine .level (fun f => ?_) (.inr fun _ _ => .inl rfl)
        cases f with
        | false => rfl
        | true => simpa using hother hfn
      | true =>
        refine .pending entry v hentry hkind htouched ?_ ?_ ?_ ?_
        · simpa using hvalue
        · simpa using hvalue'
        · intro htrue
          rw [hfn] at htrue
          cases htrue
        · exact fun _ => rfl

end

theorem getCanonical_detached [ValueShallowBytes V] (cfg : EngineConfig V) {t : LazyEnv V}
    (hidle : t.op = none) (hdetached : t.active = ∅) (key : RegistrationKey) (charges : Charges) :
    t.getCanonical cfg none key charges = (t, t.env.getCanonical key) := by
  unfold LazyEnv.getCanonical
  cases hget : t.env.getCanonical key with
  | some r => rfl
  | none =>
    have hentry : t.activeEntry cfg.dialectFP key.name = none := by
      rw [LazyEnv.activeEntry, hdetached]
      rfl
    simp [LazyEnv.lookupAndMaterialize, hidle, hentry, hget]

theorem LazyEnv.Mirrors.of_name {s t s' t' : LazyEnv V}
    (h : s.Mirrors cfg t) (name : String) (hidle : s'.op = none) (hidle' : t'.op = none)
    (hactive : s'.active = s.active) (hlayers : s'.layers = s.layers)
    (hactive' : t'.active = t.active) (hroomy : Roomy s'.env) (hroomy' : Roomy t'.env)
    (hkeys : ∀ n fn, n ≠ name → s'.env.getCanonical ⟨n, fn⟩ = s.env.getCanonical ⟨n, fn⟩ ∧
      t'.env.getCanonical ⟨n, fn⟩ = t.env.getCanonical ⟨n, fn⟩)
    (htouched : ∀ n, n ≠ name → (s'.Touched n ↔ s.Touched n))
    (hfollows : Follows (s.activeEntry cfg.dialectFP name) (s'.Touched name) (s'.cellsOf name)
      (t'.cellsOf name)) : s'.Mirrors cfg t' := by
  have hentry : ∀ n, s'.activeEntry cfg.dialectFP n = s.activeEntry cfg.dialectFP n := by
    intro n
    rw [LazyEnv.activeEntry, LazyEnv.activeEntry, hactive, hlayers]
  refine ⟨hidle, hidle', hactive'.trans h.detached, hroomy, hroomy', ?_, ?_⟩
  · intro n entry hn
    rw [hentry] at hn
    exact h.values n entry hn
  · intro n
    rw [hentry]
    by_cases hn : n = name
    · subst hn
      exact hfollows
    · have hs : s'.cellsOf n = s.cellsOf n := funext fun fn => (hkeys n fn hn).1
      have ht : t'.cellsOf n = t.cellsOf n := funext fun fn => (hkeys n fn hn).2
      rw [hs, ht, propext (htouched n hn)]
      exact h.follows n

section

variable [ValueShallowBytes V] {charges : Charges} {s t : LazyEnv V}

theorem installValue_free {e : Env V} (h : Roomy e) (via : Option Nat) (name : String) (v : V)
    (entry : TemplateEntry V) (hfree : charges.Free) :
    ∃ e', LazyEnv.installValue e via name v entry charges = (e', true) ∧ Roomy e' ∧
      ∀ k, e'.getCanonical k =
        if k.name = name ∧ (k.fn = true → entry.fn = true) ∧ e.getCanonical ⟨name, false⟩ = none ∧
          (entry.fn = true → e.getCanonical ⟨name, true⟩ = none) then some (v, entry.canonical)
        else e.getCanonical k := by
  unfold LazyEnv.installValue
  cases hfn : entry.fn with
  | true =>
    obtain ⟨e', w, hset, hroomy⟩ := setBothLocked_free h via name v entry.canonical true
      (hfree ⟨name, false⟩)
    refine ⟨e', by simp [hset, attempt], hroomy, fun k => ?_⟩
    rw [setBothLocked_getCanonical hset]
    simp
  | false =>
    obtain ⟨e', w, hset, hroomy⟩ := setLocked_free h via ⟨name, false⟩ v entry.canonical true
      (hfree ⟨name, false⟩)
    refine ⟨e', by simp [hset, attempt], hroomy, fun k => ?_⟩
    rw [setLocked_getCanonical hset]
    obtain ⟨kname, fn⟩ := k
    cases fn <;> simp

omit [ValueShallowBytes V] in
theorem recordInstall_idle {s : LazyEnv V} (h : s.op = none) (via : Option Nat) (name : String) :
    s.recordInstall via name = { s with installed := insert name s.installed } := by
  unfold LazyEnv.recordInstall
  split
  · rename_i hmem
    rw [Finset.insert_eq_of_mem hmem]
  · simp [LazyEnv.noteLocked, h]

theorem LazyEnv.Mirrors.materializeOne
    (h : s.Mirrors cfg t) {key : RegistrationKey} {entry : TemplateEntry V}
    (hfree : charges.Free) (hentry : s.activeEntry cfg.dialectFP key.name = some entry)
    (htouched : ¬ s.Touched key.name) :
    (s.materializeOne cfg none key entry charges).2 = t.env.getCanonical key ∧
      (s.materializeOne cfg none key entry charges).1.Mirrors cfg t := by
  obtain ⟨v, hkind⟩ := h.values key.name entry hentry
  obtain ⟨e', hinstall, hroomy, hget⟩ := installValue_free h.roomy none key.name v entry hfree
  have hlevel : ∀ fn, e'.getCanonical ⟨key.name, fn⟩ = t.cellsOf key.name fn := by
    intro fn
    rw [hget]
    have hfollows := h.follows key.name
    cases hfollows with
    | pending entry' v' hentry' hkind' _ hvalue hvalue' hfunc hother =>
      rw [hentry] at hentry'
      cases hentry'
      rw [hkind] at hkind'
      cases hkind'
      cases fn with
      | false =>
        rw [if_pos ⟨rfl, nofun, hvalue, fun hfn => (hfunc hfn).1⟩]
        exact hvalue'.symm
      | true =>
        cases hfn : entry.fn with
        | true =>
          rw [if_pos ⟨rfl, fun _ => rfl, hvalue, fun _ => (hfunc hfn).1⟩]
          exact (hfunc hfn).2.symm
        | false =>
          rw [if_neg (fun hboth => nomatch hboth.2.1 rfl)]
          exact hother hfn
    | level hlevel hclosed =>
      obtain hlive := hclosed.resolve_left htouched entry hentry
      rw [if_neg]
      · exact hlevel fn
      · rintro ⟨-, -, hvalue, hfunc⟩
        obtain hlive | ⟨hfn, hlive⟩ := hlive
        · rw [LazyEnv.cellsOf, hvalue] at hlive
          cases hlive
        · rw [LazyEnv.cellsOf, hfunc hfn] at hlive
          cases hlive
  have hpublish : LazyEnv.publishEntry cfg s.env none key.name entry charges = (e', true) := by
    rw [LazyEnv.publishEntry, hkind]
    exact hinstall
  rw [materializeOne_eq, hpublish]
  refine ⟨hlevel key.fn, ?_⟩
  dsimp only
  rw [if_pos rfl, recordInstall_idle (s := { s with env := e' }) h.idle]
  refine h.of_name key.name h.idle h.idle' rfl rfl rfl hroomy h.roomy'
    (fun n fn hn => ⟨?_, rfl⟩) (fun n hn => ?_)
    (.level hlevel (.inl (.inr (Finset.mem_insert_self _ _))))
  · rw [hget, if_neg (fun hboth => hn hboth.1)]
  · simp [LazyEnv.Touched, hn]

theorem LazyEnv.Mirrors.getCanonical
    (h : s.Mirrors cfg t) (key : RegistrationKey) (hfree : charges.Free) :
    (s.getCanonical cfg none key charges).2 = (t.getCanonical cfg none key charges).2 ∧
      (s.getCanonical cfg none key charges).1.Mirrors cfg
        (t.getCanonical cfg none key charges).1 := by
  rw [getCanonical_detached cfg h.idle' h.detached]
  have hfollows := h.follows key.name
  unfold LazyEnv.getCanonical
  cases hget : s.env.getCanonical key with
  | some r =>
    refine ⟨?_, h⟩
    have hlive : (s.cellsOf key.name key.fn).isSome = true := by
      rw [LazyEnv.cellsOf, hget]
      rfl
    have hsame := hfollows.eq_of_isSome hlive
    rw [LazyEnv.cellsOf, LazyEnv.cellsOf, hget] at hsame
    exact hsame.symm
  | none =>
    have hnone : s.Touched key.name ∨ s.activeEntry cfg.dialectFP key.name = none →
        none = t.env.getCanonical key := by
      intro hgone
      have hsame := hfollows.eq_of_touched hgone key.fn
      rw [LazyEnv.cellsOf, LazyEnv.cellsOf, hget] at hsame
      exact hsame.symm
    dsimp only
    unfold LazyEnv.lookupAndMaterialize
    rw [h.idle, Option.any_none, if_neg (by simp)]
    split
    · rename_i hgone
      exact ⟨hnone (.inl (.inl hgone)), h⟩
    · rename_i htomb
      split
      · rename_i hgone
        rw [hget]
        exact ⟨hnone (.inl (.inr hgone)), h⟩
      · rename_i hinst
        split
        · rename_i entry hentry
          exact h.materializeOne hfree hentry fun hgone => hgone.elim htomb hinst
        · rename_i hentry
          exact ⟨hnone (.inr hentry), h⟩

end

namespace Engine

variable [ValueShallowBytes V] [VocabValue V] {e e' : Engine V}

/-- A host event that meets no refusal and defines no single namespace of a name that is
deferred in both. -/
def Event.Undeferred (cfg : EngineConfig V) (e : Engine V) : Event V → Prop
  | .set key _ _ charges => charges.Free ∧ ¬ e.root.Deferred cfg key.name
  | .setBoth _ _ _ charges => charges.Free
  | .delete _ => True
  | .get _ charges => charges.Free
  | .use _ => False
  | .unload _ => False
  | .reload _ => False

def UndeferredRun (cfg : EngineConfig V) (e : Engine V) : List (Event V) → Prop
  | [] => True
  | ev :: evs => ev.Undeferred cfg e ∧ UndeferredRun cfg (e.step cfg ev) evs

theorem mirrors_step (h : e.root.Mirrors cfg e'.root) (ev : Event V) (hev : ev.Undeferred cfg e) :
    (e.step cfg ev).root.Mirrors cfg (e'.step cfg ev).root := by
  cases ev with
  | set key val canonical charges =>
    obtain ⟨hfree, hdefine⟩ := hev
    obtain ⟨env, hset, hroomy, hget⟩ := setCell_free h.roomy none key val canonical hfree
    obtain ⟨env', hset', hroomy', hget'⟩ := setCell_free h.roomy' none key val canonical hfree
    obtain ⟨name, fn⟩ := key
    dsimp only [step]
    rw [hset, hset']
    refine h.of_name name h.idle h.idle' rfl rfl rfl hroomy hroomy' (fun n f hn => ?_)
      (fun _ _ => Iff.rfl) ?_
    · simp [hget, hget', hn]
    · convert (h.follows name).set fn (val, canonical) hdefine using 1
      · rfl
      · funext f
        simp [LazyEnv.cellsOf, hget]
      · funext f
        simp [LazyEnv.cellsOf, hget']
  | setBoth name val canonical charges =>
    obtain ⟨env, w, hset, hroomy⟩ := setBothLocked_free h.roomy none name val canonical false
      (hev ⟨name, false⟩)
    obtain ⟨env', w', hset', hroomy'⟩ := setBothLocked_free h.roomy' none name val canonical
      false (hev ⟨name, false⟩)
    have hget := setBothLocked_getCanonical hset
    have hget' := setBothLocked_getCanonical hset'
    dsimp only [step]
    rw [hset, hset']
    refine h.of_name name h.idle h.idle' rfl rfl rfl hroomy hroomy' (fun n f hn => ?_)
      (fun _ _ => Iff.rfl) ?_
    · simp [attempt, hget, hget', hn]
    · refine .level (fun f => ?_) (.inr fun _ _ => .inl ?_)
      · simp [LazyEnv.cellsOf, attempt, hget, hget']
      · simp [LazyEnv.cellsOf, attempt, hget]
  | delete name =>
    have hget := delete_getCanonical e.root none name
    have hget' := delete_getCanonical e'.root none name
    refine h.of_name name ?_ ?_ rfl rfl rfl (deleteName_roomy h.roomy none name)
      (deleteName_roomy h.roomy' none name) (fun n f hn => ?_) (fun n hn => ?_) ?_
    · simp [step, LazyEnv.delete, LazyEnv.beginDelete, LazyEnv.noteLocked, h.idle]
    · simp [step, LazyEnv.delete, LazyEnv.beginDelete, LazyEnv.noteLocked, h.idle']
    · simp [step, hget, hget', hn]
    · simp [step, LazyEnv.Touched, LazyEnv.delete, LazyEnv.beginDelete, LazyEnv.noteLocked, hn]
    · refine .level (fun f => ?_) (.inl (.inl (Finset.mem_insert_self _ _)))
      simp [step, LazyEnv.cellsOf, hget, hget']
  | get key charges => exact (h.getCanonical key hev).2
  | use o => exact hev.elim
  | unload name => exact hev.elim
  | reload o => exact hev.elim

theorem mirrors_run (h : e.root.Mirrors cfg e'.root)
    (evs : List (Event V)) (hevs : e.UndeferredRun cfg evs) :
    (e.run cfg evs).root.Mirrors cfg (e'.run cfg evs).root := by
  induction evs generalizing e e' with
  | nil => exact h
  | cons ev evs ih => exact ih (mirrors_step h ev hevs.1) hevs.2

end Engine

end

end Runtime

end Lispico
