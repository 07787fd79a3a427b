import Lispico.VM.SiteCache
import Lispico.Core.EnvEvolution

/-!
# What a lookup through a site returns

The entry of a site promises that a cell at its version holds its value, that at its generation
the cell is bound or a tombstone, and that a cell that has left its version is bound or a
tombstone. `ReplaceCell` breaks the third: a site whose entry is out of date goes on reading the
cell taken out, and a lookup that has found it publishes it under the new generation. Runs in
which no `ReplaceCell` meets such a site or lookup are coherent.
-/

namespace Lispico

namespace VM

open Lispico.Core

section

variable {V : Type}

def Pc.holds (i : Nat) : Pc V → Bool
  | .readSnapshot j => i == j
  | .readNameGen j _ _ _ => i == j
  | .publish entry => i == entry.cell
  | _ => false

namespace System

/-- No site has an outdated entry for the cell, and no lookup is about to publish it. -/
def unheld (s : System V) (env : Nat) (key : RegistrationKey) (i ver : Nat) : Bool :=
  (s.sites.entries.all fun x =>
    !(x.1.key == key && x.2.env == env && x.2.cell == i) || x.2.ver == ver) &&
  s.lookups.all fun l => !(l.key == key && l.env == env && l.pc.holds i)

/-- A `ReplaceCell` finds the live cell it replaces unheld. -/
def careful (s : System V) : Event V → Bool
  | .write env (.replaceCell _ name _ _) =>
    match (s.envs env).bound ⟨name, false⟩ with
    | some (i, c) => c.v.isNone || s.unheld env ⟨name, false⟩ i c.version
    | none => true
  | _ => true

def carefulRun [ValueShallowBytes V] : System V → List (Event V) → Bool
  | _, [] => true
  | s, ev :: evs => s.careful ev && carefulRun (s.step ev) evs

/-- Every lookup that has returned gave an answer that `GetCanonical` had meanwhile. -/
def Coherent (s : System V) : Prop :=
  ∀ l ∈ s.lookups, ∀ r, l.pc = .done r → r ∈ l.seen

end System

def Held (e : Env V) (key : RegistrationKey) (i : Nat) : Prop :=
  e.binds.lookup key = some i ∨ (readCell e key i).v = none

structure Snapshot (e : Env V) (key : RegistrationKey) (i : Nat) (val : V) (canonical : Bool)
    (ver : Nat) : Prop where
  lt : i < (e.cells key).length
  ver_le : ver ≤ (readCell e key i).version
  contents : (readCell e key i).version = ver → liveValue (readCell e key i) = some
    (val, canonical)

def BoundAt (e : Env V) (key : RegistrationKey) (i gen : Nat) : Prop :=
  gen ≤ e.newNameGen ∧ (gen = e.newNameGen → Held e key i)

variable {e : Env V} {key : RegistrationKey} {i : Nat}

theorem getElem?_readCell (h : i < (e.cells key).length) :
    (e.cells key)[i]? = some (readCell e key i) := by
  rw [readCell, List.getElem?_eq_getElem h, Option.getD_some]

theorem getCanonical_of_bound (hi : i < (e.cells key).length) (hb : e.binds.lookup key = some i) :
    e.getCanonical key = liveValue (readCell e key i) := by
  have hbound := Env.bound_eq_some_iff.2 ⟨hb, getElem?_readCell hi⟩
  cases hv : (readCell e key i).v with
  | none => simp [Env.getCanonical, hbound, liveValue, hv]
  | some v => simp [Env.getCanonical, hbound, liveValue, hv]

section

variable {replaced : RegistrationKey → Prop} {e e' : Env V} {key : RegistrationKey} {i : Nat}

section

variable (h : Env.Evolves replaced e e')

include h

variable (hi : i < (e.cells key).length)

include hi

theorem cellMoves : i < (e'.cells key).length ∧ Env.CellMoves (replaced key) (e.binds.lookup key)
      (e'.binds.lookup key) i (readCell e key i) (readCell e' key i) := by
  obtain ⟨c', hc', hm⟩ := h.moves key i _ (getElem?_readCell hi)
  have hread : readCell e' key i = c' := by rw [readCell, hc', Option.getD_some]
  exact ⟨(List.getElem?_eq_some_iff.1 hc').1, hread ▸ hm⟩

omit hi in
theorem Snapshot.evolves {val : V} {canonical : Bool} {ver : Nat}
    (hs : Snapshot e key i val canonical ver) :
    Snapshot e' key i val canonical ver := by
  obtain ⟨hi', hm⟩ := cellMoves h hs.lt
  refine ⟨hi', hs.ver_le.trans hm.version_le, ?_⟩
  intro hver
  have heq : (readCell e key i).version = ver :=
    le_antisymm (hver ▸ hm.version_le) hs.ver_le
  obtain ⟨hv, hcanon⟩ := hm.same (hver.trans heq.symm)
  rw [liveValue, hv, hcanon]
  exact hs.contents heq

theorem held_of_version_ne
    (hver : (readCell e' key i).version ≠ (readCell e key i).version) : Held e' key i :=
  ((cellMoves h hi).2.changed hver).symm

theorem Held.evolves (hh : Held e key i)
    (hkeep : replaced key → e.binds.lookup key = some i → (readCell e key i).v = none) :
    Held e' key i := by
  have hm := (cellMoves h hi).2
  by_cases hver : (readCell e' key i).version = (readCell e key i).version
  · rcases hh with hb | hdead
    · rcases hm.unbound hb with hb' | hdead | ⟨hr, -⟩
      · exact Or.inl hb'
      · exact Or.inr hdead
      · exact Or.inr ((hm.same hver).1.trans (hkeep hr hb))
    · exact Or.inr ((hm.same hver).1.trans hdead)
  · exact held_of_version_ne h hi hver

theorem BoundAt.evolves {gen : Nat} (hb : BoundAt e key i gen) : BoundAt e' key i gen := by
  refine ⟨hb.1.trans h.gen_le, ?_⟩
  intro hgen
  have heq : e'.newNameGen = e.newNameGen := le_antisymm (hgen ▸ hb.1) h.gen_le
  rcases hb.2 (hgen.trans heq) with hbound | hdead
  · exact Or.inl (h.kept heq key i _ (Env.bound_eq_some_iff.2 ⟨hbound, getElem?_readCell hi⟩))
  · by_cases hver : (readCell e' key i).version = (readCell e key i).version
    · exact Or.inr (((cellMoves h hi).2.same hver).1.trans hdead)
    · exact held_of_version_ne h hi hver

/-- The cell may be read in place of the name: it is held, or its value was an answer. -/
def Answered (seen : List (Option (V × Bool))) (e : Env V) (key : RegistrationKey) (i : Nat) :
    Prop :=
  Held e key i ∨ liveValue (readCell e key i) ∈ seen

theorem Answered.evolves {seen : List (Option (V × Bool))} (hnow : e.getCanonical key ∈ seen)
    (ha : Answered seen e key i) : Answered seen e' key i := by
  have hm := (cellMoves h hi).2
  by_cases hver : (readCell e' key i).version = (readCell e key i).version
  · have hlive : liveValue (readCell e' key i) = liveValue (readCell e key i) := by
      rw [liveValue, liveValue, (hm.same hver).1, (hm.same hver).2]
    rcases ha with hh | hseen
    · by_cases hb : e.binds.lookup key = some i
      · rw [getCanonical_of_bound hi hb, ← hlive] at hnow
        exact Or.inr hnow
      · exact Or.inl (hh.evolves h hi fun _ hb' => absurd hb' hb)
    · exact Or.inr (hlive ▸ hseen)
  · exact Or.inl (held_of_version_ne h hi hver)

end

theorem Held.answer (hh : Held e key i) (hi : i < (e.cells key).length) {r : V × Bool}
    (hr : liveValue (readCell e key i) = some r) : e.getCanonical key = some r := by
  rcases hh with hb | hdead
  · rw [getCanonical_of_bound hi hb, hr]
  · rw [liveValue, hdead] at hr
    cases hr

end

structure SiteOk (e : Env V) (key : RegistrationKey) (entry : SiteEntry V) : Prop where
  snapshot : Snapshot e key entry.cell entry.val entry.canonical entry.ver
  boundAt : BoundAt e key entry.cell entry.gen
  moved : (readCell e key entry.cell).version ≠ entry.ver → Held e key entry.cell

def PcOk (e : Env V) (l : Lookup V) : Prop :=
  match l.pc with
  | .loadEntry => True
  | .readGen entry =>
    Snapshot e l.key entry.cell entry.val entry.canonical entry.ver ∧
    BoundAt e l.key entry.cell entry.gen ∧
    ((readCell e l.key entry.cell).version ≠ entry.ver → Answered l.seen e l.key entry.cell)
  | .readVersion entry gen =>
    Snapshot e l.key entry.cell entry.val entry.canonical entry.ver ∧
    ((readCell e l.key entry.cell).version ≠ entry.ver → Answered l.seen e l.key entry.cell) ∧
    (entry.gen = gen → (readCell e l.key entry.cell).version = entry.ver →
      some (entry.val, entry.canonical) ∈ l.seen)
  | .readCell entry =>
    entry.cell < (e.cells l.key).length ∧ Answered l.seen e l.key entry.cell
  | .cellLocal => True
  | .readSnapshot i => i < (e.cells l.key).length ∧ Held e l.key i
  | .readNameGen i val canonical ver =>
    Snapshot e l.key i val canonical ver ∧ Held e l.key i ∧ some (val, canonical) ∈ l.seen
  | .publish entry =>
    entry.env = l.env ∧ Snapshot e l.key entry.cell entry.val entry.canonical entry.ver ∧
    BoundAt e l.key entry.cell entry.gen ∧ Held e l.key entry.cell ∧
    some (entry.val, entry.canonical) ∈ l.seen
  | .getCanonical => True
  | .done r => r ∈ l.seen

/-- A lookup under way has noted the present answer, and knows what its part needs. -/
structure LookupOk (e : Env V) (l : Lookup V) : Prop where
  now : l.isDone = false → e.getCanonical l.key ∈ l.seen
  pc : PcOk e l

structure Inv (s : System V) : Prop where
  sites : ∀ site entry, s.sites.lookup site = some entry →
    SiteOk (s.envs entry.env) site.key entry
  lookups : ∀ l ∈ s.lookups, LookupOk (s.envs l.env) l

section

variable {replaced : RegistrationKey → Prop} {e e' : Env V}

variable {key : RegistrationKey}

theorem SiteOk.evolves {entry : SiteEntry V} (h : Env.Evolves replaced e e')
    (hs : SiteOk e key entry)
    (hkeep : replaced key → e.binds.lookup key = some entry.cell → (readCell e key entry.cell).v
      = none ∨ (readCell e key entry.cell).version = entry.ver) :
    SiteOk e' key entry := by
  have hi := hs.snapshot.lt
  refine ⟨hs.snapshot.evolves h, hs.boundAt.evolves h hi, ?_⟩
  intro hmoved
  by_cases hver : (readCell e' key entry.cell).version = (readCell e key entry.cell).version
  · rw [hver] at hmoved
    refine (hs.moved hmoved).evolves h hi ?_
    intro hr hb
    exact (hkeep hr hb).resolve_right hmoved
  · exact held_of_version_ne h hi hver

theorem Answered.mono {seen seen' : List (Option (V × Bool))} {i : Nat} (hsub : seen ⊆ seen')
    (h : Answered seen e key i) : Answered seen' e key i :=
  h.imp_right fun hs => hsub hs

theorem Answered.next {seen : List (Option (V × Bool))} {i ver : Nat} (a : Option (V × Bool))
    (h : Env.Evolves replaced e e') (hi : i < (e.cells key).length)
    (hnow : e.getCanonical key ∈ seen)
    (ha : (readCell e key i).version ≠ ver → Answered seen e key i) :
    (readCell e' key i).version ≠ ver → Answered (a :: seen) e' key i := by
  intro hmoved
  by_cases hver : (readCell e' key i).version = (readCell e key i).version
  · rw [hver] at hmoved
    exact ((ha hmoved).evolves h hi hnow).mono (List.subset_cons_self _ _)
  · exact Or.inl (held_of_version_ne h hi hver)

theorem PcOk.evolves {l : Lookup V} (h : Env.Evolves replaced e e')
    (hnow : e.getCanonical l.key ∈ l.seen) (hl : PcOk e l)
    (hkeep : ∀ i, l.pc.holds i = true → i < (e.cells l.key).length → replaced l.key →
      e.binds.lookup l.key = some i → (readCell e l.key i).v = none) (a : Option (V × Bool)) :
    PcOk e' { l with seen := a :: l.seen } := by
  have hcons : ∀ {r : Option (V × Bool)}, r ∈ l.seen → r ∈ a :: l.seen :=
    fun hr => List.mem_cons_of_mem a hr
  unfold PcOk at hl ⊢
  dsimp only
  split at hl
  case h_1 => trivial
  case h_2 entry hpc =>
    obtain ⟨hs, hb, ha⟩ := hl
    exact ⟨hs.evolves h, hb.evolves h hs.lt, Answered.next a h hs.lt hnow ha⟩
  case h_3 entry gen hpc =>
    obtain ⟨hs, ha, hhit⟩ := hl
    refine ⟨hs.evolves h, Answered.next a h hs.lt hnow ha, ?_⟩
    intro hgen hver
    have heq : (readCell e l.key entry.cell).version = entry.ver :=
      le_antisymm (hver ▸ (cellMoves h hs.lt).2.version_le) hs.ver_le
    exact hcons (hhit hgen heq)
  case h_4 entry hpc =>
    obtain ⟨hi, ha⟩ := hl
    exact ⟨(cellMoves h hi).1, (ha.evolves h hi hnow).mono (List.subset_cons_self _ _)⟩
  case h_5 => trivial
  case h_6 i hpc =>
    obtain ⟨hi, hh⟩ := hl
    exact ⟨(cellMoves h hi).1, hh.evolves h hi (hkeep i (by simp [hpc, Pc.holds]) hi)⟩
  case h_7 i val canonical ver hpc =>
    obtain ⟨hs, hh, hr⟩ := hl
    exact ⟨hs.evolves h, hh.evolves h hs.lt (hkeep i (by simp [hpc, Pc.holds]) hs.lt), hcons hr⟩
  case h_8 entry hpc =>
    obtain ⟨henv, hs, hb, hh, hr⟩ := hl
    exact ⟨henv, hs.evolves h, hb.evolves h hs.lt,
      hh.evolves h hs.lt (hkeep entry.cell (by simp [hpc, Pc.holds]) hs.lt), hcons hr⟩
  case h_9 => trivial
  case h_10 r hpc => exact hcons hl

end

theorem pcOk_miss (e : Env V) (l : Lookup V) : PcOk e { l with pc := l.miss } := by
  unfold Lookup.miss
  split
  · trivial
  · trivial

variable {s : System V} {l : Lookup V} {w : Env.Write V} {env : Nat}

theorem PcOk.next (hs : Inv s) (hl : LookupOk (s.envs l.env) l) :
    PcOk (s.envs l.env) { l with pc := l.next s } := by
  have hpcOk := hl.pc
  have hnow := hl.now
  unfold PcOk at hpcOk
  unfold Lookup.next
  cases hpc : l.pc with
  | loadEntry =>
    dsimp only
    split
    case h_1 => trivial
    case h_2 id hsite =>
      split
      case h_1 => exact pcOk_miss _ l
      case h_2 entry hentry =>
        split
        case isTrue henv =>
          obtain ⟨hsnap, hbound, hmoved⟩ := hs.sites _ _ hentry
          rw [henv] at hsnap hbound hmoved
          exact ⟨hsnap, hbound, fun hne => Or.inl (hmoved hne)⟩
        case isFalse => exact pcOk_miss _ l
  | readGen entry =>
    rw [hpc] at hpcOk
    obtain ⟨hsnap, hbound, ha⟩ := hpcOk
    refine ⟨hsnap, ha, ?_⟩
    intro hgen hver
    have hlive := hsnap.contents hver
    rw [← (hbound.2 hgen).answer hsnap.lt hlive]
    exact hnow (by simp [Lookup.isDone, hpc])
  | readVersion entry gen =>
    rw [hpc] at hpcOk
    obtain ⟨hsnap, ha, hhit⟩ := hpcOk
    dsimp only
    split
    case isTrue hboth => exact hhit hboth.1 hboth.2
    case isFalse =>
      split
      case isTrue hne => exact ⟨hsnap.lt, ha hne⟩
      case isFalse => exact pcOk_miss _ l
  | readCell entry =>
    rw [hpc] at hpcOk
    obtain ⟨hi, ha⟩ := hpcOk
    dsimp only
    split
    case h_1 r hr =>
      rcases ha with hh | hseen
      · exact hh.answer hi hr ▸ hnow (by simp [Lookup.isDone, hpc])
      · exact hr ▸ hseen
    case h_2 => trivial
  | cellLocal =>
    dsimp only
    split
    case h_1 i hi =>
      simp only [Env.cellLocal, Option.bind_eq_bind, Option.bind_eq_some_iff] at hi
      obtain ⟨⟨j, c⟩, hb, hlive⟩ := hi
      split at hlive
      · cases hlive
        obtain ⟨hlook, hc⟩ := Env.bound_eq_some_iff.1 hb
        exact ⟨(List.getElem?_eq_some_iff.1 hc).1, Or.inl hlook⟩
      · cases hlive
    case h_2 => trivial
  | readSnapshot i =>
    rw [hpc] at hpcOk
    obtain ⟨hi, hh⟩ := hpcOk
    dsimp only
    split
    case h_1 v hv =>
      have hlive : liveValue (readCell (s.envs l.env) l.key i) =
          some (v, (readCell (s.envs l.env) l.key i).canonical) := by rw [liveValue, hv]; rfl
      refine ⟨⟨hi, le_refl _, fun _ => hlive⟩, hh, ?_⟩
      rw [← hh.answer hi hlive]
      exact hnow (by simp [Lookup.isDone, hpc])
    case h_2 => trivial
  | readNameGen i val canonical ver =>
    rw [hpc] at hpcOk
    obtain ⟨hsnap, hh, hr⟩ := hpcOk
    exact ⟨rfl, hsnap, ⟨le_refl _, fun _ => hh⟩, hh, hr⟩
  | publish entry =>
    rw [hpc] at hpcOk
    exact hpcOk.2.2.2.2
  | getCanonical =>
    exact hnow (by simp [Lookup.isDone, hpc])
  | done r =>
    rw [hpc] at hpcOk
    exact hpcOk

theorem siteOk_published (hl : PcOk e l) {site : Site} {entry : SiteEntry V}
    (hp : l.published = some (site, entry)) :
    entry.env = l.env ∧ SiteOk e site.key entry := by
  unfold Lookup.published at hp
  split at hp
  case h_1 id entry' hsite hpc =>
    cases hp
    unfold PcOk at hl
    rw [hpc] at hl
    obtain ⟨henv, hsnap, hbound, hh, -⟩ := hl
    exact ⟨henv, hsnap, hbound, fun _ => hh⟩
  case h_2 => cases hp

theorem careful_replace (hc : s.careful (.write env w) = true)
    (hr : w.replaces key) (hi : i < ((s.envs env).cells key).length)
    (hb : (s.envs env).binds.lookup key = some i) :
    (readCell (s.envs env) key i).v = none ∨
      s.unheld env key i (readCell (s.envs env) key i).version = true := by
  cases w with
  | replaceCell via name val charge =>
    cases hr
    rw [System.careful, Env.bound_eq_some_iff.2 ⟨hb, getElem?_readCell hi⟩] at hc
    simpa using hc
  | _ => exact hr.elim

theorem LookupOk.of_done {e' : Env V} (hdone : l.isDone = true) (h : LookupOk e l) :
    LookupOk e' l := by
  refine ⟨fun hnot => absurd (hdone.symm.trans hnot) Bool.noConfusion, ?_⟩
  have hpc := h.pc
  unfold Lookup.isDone at hdone
  split at hdone
  case h_1 r hr =>
    unfold PcOk at hpc ⊢
    rw [hr] at hpc ⊢
    exact hpc
  case h_2 => cases hdone

theorem inv_init (envs : Nat → Env V) : Inv (System.init envs) := by
  refine ⟨?_, ?_⟩
  · intro site entry h
    cases h
  · intro l hl
    cases hl

variable [ValueShallowBytes V]

theorem Inv.write (hs : Inv s)
    (hc : s.careful (.write env w) = true) : Inv (s.step (.write env w)) := by
  have hev := w.evolves (s.envs env)
  refine ⟨?_, ?_⟩
  · intro site entry hentry
    have hsite := hs.sites site entry hentry
    simp only [System.step]
    by_cases henv : entry.env = env
    · subst henv
      rw [Function.update_self]
      refine hsite.evolves hev ?_
      intro hr hb
      refine (careful_replace hc hr hsite.snapshot.lt hb).imp_right ?_
      intro hun
      rw [System.unheld, Bool.and_eq_true] at hun
      have hmem := List.all_eq_true.1 hun.1 _ (AList.mem_lookup_iff.1 hentry)
      have hver : entry.ver = (readCell (s.envs entry.env) site.key entry.cell).version := by
        simpa using hmem
      exact hver.symm
    · rw [Function.update_of_ne henv]
      exact hsite
  · intro l' hl'
    obtain ⟨l, hl, rfl⟩ := List.mem_map.1 hl'
    have hok := hs.lookups l hl
    unfold Lookup.observe
    split
    case isTrue hcase =>
      obtain ⟨rfl, hdone⟩ := hcase
      simp only [System.step, Function.update_self]
      refine ⟨fun _ => List.mem_cons_self, hok.pc.evolves hev (hok.now hdone) ?_ _⟩
      intro i hholds hi hr hb
      refine (careful_replace hc hr hi hb).resolve_right ?_
      intro hun
      rw [System.unheld, Bool.and_eq_true] at hun
      have hnone := List.all_eq_true.1 hun.2 l hl
      simp [hholds] at hnone
    case isFalse hcase =>
      by_cases henv : l.env = env
      · have hdone : l.isDone = true := by
          by_contra hnot
          exact hcase ⟨henv, by simpa using hnot⟩
        exact hok.of_done hdone
      · simp only [System.step, Function.update_of_ne henv]
        exact hok

theorem Inv.start (hs : Inv s) (site : Option Nat) (key : RegistrationKey) (env globals : Nat) :
    Inv (s.step (.start site key env globals)) := by
  refine ⟨hs.sites, ?_⟩
  intro l hl
  rcases List.mem_append.1 hl with hl | hl
  · exact hs.lookups l hl
  · rw [List.mem_singleton.1 hl]
    exact ⟨fun _ => List.mem_cons_self, trivial⟩

theorem Inv.advance (hs : Inv s) (n : Nat) : Inv (s.step (.advance n)) := by
  simp only [System.step]
  cases hn : s.lookups[n]? with
  | none => exact hs
  | some l =>
    have hok := hs.lookups l (List.mem_of_getElem? hn)
    dsimp only
    refine ⟨?_, ?_⟩
    · intro site entry hentry
      cases hp : l.published with
      | none =>
        rw [hp] at hentry
        exact hs.sites site entry hentry
      | some p =>
        rw [hp] at hentry
        obtain ⟨henv, hnew⟩ := siteOk_published hok.pc hp
        by_cases hsite : site = p.1
        · subst hsite
          have heq : p.2 = entry := by simpa using hentry
          rw [← heq, henv]
          exact hnew
        · refine hs.sites site entry ?_
          simpa [AList.lookup_insert_ne hsite] using hentry
    · intro l' hl'
      rcases List.mem_or_eq_of_mem_set hl' with hl' | rfl
      · exact hs.lookups l' hl'
      · refine ⟨?_, PcOk.next hs hok⟩
        intro hdone
        refine hok.now ?_
        by_contra hnot
        have hpc : ∃ r, l.pc = .done r := by
          unfold Lookup.isDone at hnot
          split at hnot
          case h_1 r hr => exact ⟨r, hr⟩
          case h_2 => exact absurd rfl hnot
        obtain ⟨r, hr⟩ := hpc
        simp [Lookup.isDone, Lookup.next, hr] at hdone

theorem Inv.step (hs : Inv s) {ev : Event V} (hc : s.careful ev = true) : Inv (s.step ev) := by
  cases ev with
  | write env w => exact hs.write hc
  | start site key env globals => exact hs.start site key env globals
  | advance n => exact hs.advance n

theorem Inv.run (hs : Inv s) {evs : List (Event V)} (hc : s.carefulRun evs = true) :
    Inv (s.run evs) := by
  induction evs generalizing s with
  | nil => exact hs
  | cons ev evs ih =>
    rw [System.carefulRun, Bool.and_eq_true] at hc
    exact ih (hs.step hc.1) hc.2

/-- In a careful run every lookup returns what `GetCanonical` or `GetFuncCanonical`
answered at some moment of the lookup. -/
theorem careful_run_coherent (envs : Nat → Env V) (evs : List (Event V))
    (hc : (System.init envs).carefulRun evs = true) :
    ((System.init envs).run evs).Coherent := by
  intro l hl r hr
  have hpc := ((inv_init envs).run hc).lookups l hl |>.pc
  unfold PcOk at hpc
  rw [hr] at hpc
  exact hpc

end

/-- Numbers as values. -/
instance : ValueShallowBytes Nat := ⟨fun _ => 16⟩

def setX (val : Nat) : Event Nat :=
  .write 0 (.set none ⟨"x", false⟩ val false false ⟨none, false, none⟩)

def replaceX (val : Nat) : Event Nat := .write 0 (.replaceCell none "x" val ⟨none, false, none⟩)

/-- The `n`-th lookup begins, resolves `x` at the first site, and does `parts` of its parts. -/
def lookX (n parts : Nat) : List (Event Nat) :=
  .start (some 0) ⟨"x", false⟩ 0 0 :: List.replicate parts (.advance n)

def noLimits : Nat → Env Nat := fun _ => Env.newEnvWithRetainedLimits 0 0

/-- A replacement of a cell whose site is up to date is careful, and the lookup after it
resolves the name anew. -/
theorem careful_run_coherent_replace : (System.init noLimits).carefulRun
        ([setX 1] ++ lookX 0 6 ++ [replaceX 3] ++ lookX 1 8) = true ∧
      ((System.init noLimits).run
        ([setX 1] ++ lookX 0 6 ++ [replaceX 3] ++ lookX 1 8)).Coherent :=
  have hc : (System.init noLimits).carefulRun
      ([setX 1] ++ lookX 0 6 ++ [replaceX 3] ++ lookX 1 8) = true := by decide +kernel
  ⟨hc, careful_run_coherent noLimits _ hc⟩

/-- The site is filled at the value 1, the value becomes 2 and then the cell is replaced: the
next lookup reads 2 from the replaced cell, where every answer since it began is 3. -/
theorem outdated_site_reads_replaced_cell : ((System.init noLimits).run
        ([setX 1] ++ lookX 0 6 ++ [setX 2, replaceX 3] ++ lookX 1 4)).lookups[1]?.map
      (fun l => (l.pc, l.seen)) = some (.done (some (2, false)), [some (3, false)]) := by
  decide +kernel

-- The cell is replaced between the parts of the first lookup, which publishes the old cell
-- under the new generation; the second lookup is served from it.
example : ((System.init noLimits).run
        ([setX 1] ++ lookX 0 3 ++ [replaceX 3] ++ List.replicate 3 (.advance 0) ++
          lookX 1 3)).lookups[1]?.map
      (fun l => (l.pc, l.seen)) = some (.done (some (1, false)), [some (3, false)]) := by
  decide +kernel

end VM

end Lispico
