import Lispico.Runtime.CallCache
import Lispico.VM.SiteCoherence

/-!
# What a call through the cache finds

A call through the cache finds only what an uncached resolution could have found while the call
ran. An entry promises that its cell is bound at its generation, or a tombstone, and holds the
entry's value at the entry's version. The generation was read before the cell was resolved, so
writes that bind other cells leave the entry behind.
-/

namespace Lispico

namespace Runtime

open Lispico.Core Lispico.VM List

section

variable {V : Type}

/-- `Get`, or `GetFunc` for a function key. -/
def value (e : Env V) (key : RegistrationKey) : Option V := (e.getCanonical key).map Prod.fst

/-- The uncached resolution of a head: the function cell is read in `e₁` and the value cell
in `e₂`. Under Lisp-1 there is only the value cell. -/
def resolveHead (lisp2 : Bool) (name : String) (e₁ e₂ : Env V) : Option V :=
  if lisp2 then (value e₁ ⟨name, true⟩).or (value e₂ ⟨name, false⟩) else value e₂ ⟨name, false⟩

/-- An uncached resolution that runs through these environments can find the value. -/
def Findable (lisp2 : Bool) (name : String) (states : List (Env V)) (v : V) : Prop :=
  ∃ past e₁ later, states = past ++ e₁ :: later ∧
    ∃ e₂ ∈ e₁ :: later, resolveHead lisp2 name e₁ e₂ = some v

namespace Findable

variable {lisp2 : Bool} {name : String} {states : List (Env V)} {v : V} {e : Env V}

theorem append (h : Findable lisp2 name states v) (e : Env V) :
    Findable lisp2 name (states ++ [e]) v := by
  obtain ⟨past, e₁, later, rfl, e₂, he₂, hv⟩ := h
  refine ⟨past, e₁, later ++ [e], by simp, e₂, ?_, hv⟩
  exact mem_append_left [e] he₂

theorem of_mem (he : e ∈ states) (hv : value e ⟨name, lisp2⟩ = some v) :
    Findable lisp2 name states v := by
  obtain ⟨past, later, rfl⟩ := append_of_mem he
  refine ⟨past, e, later, rfl, e, mem_cons_self, ?_⟩
  cases lisp2 with
  | false => exact hv
  | true => simp [resolveHead, hv]

theorem of_fallback {past later : List (Env V)} {e₁ e₂ : Env V}
    (hdead : value e₁ ⟨name, true⟩ = none) (he₂ : e₂ ∈ e₁ :: later)
    (hv : value e₂ ⟨name, false⟩ = some v) :
    Findable true name (past ++ e₁ :: later) v :=
  ⟨past, e₁, later, rfl, e₂, he₂, by simp [resolveHead, hdead, hv]⟩

theorem singleton (h : Findable lisp2 name [e] v) : resolveHead lisp2 name e e = some v := by
  obtain ⟨past, e₁, later, heq, e₂, he₂, hv⟩ := h
  cases past with
  | nil =>
    cases heq
    rw [List.mem_singleton.1 he₂] at hv
    exact hv
  | cons _ past => simp at heq

end Findable

def Call.Sound (lisp2 : Bool) (c : Call V) (r : Option V) : Prop :=
  (∀ v, r = some v → Findable lisp2 c.name c.states v) ∧
  (c.overlapped = false → ∃ e, c.states = [e] ∧ r = resolveHead lisp2 c.name e e)

def CallSystem.Coherent (lisp2 : Bool) (s : CallSystem V) : Prop :=
  ∀ c ∈ s.calls, ∀ r, c.pc = .done r → c.Sound lisp2 r

/-- The environments since a call may have found the cell of a key: all of them for the key
it reads first, and for the value cell under Lisp-2 those since the function cell was found
dead. -/
structure Since (lisp2 : Bool) (name : String) (states : List (Env V)) (e : Env V)
    (key : RegistrationKey) (later : List (Env V)) : Prop where
  suffix : later <:+ states
  present : e ∈ later
  order : key = ⟨name, lisp2⟩ ∨ lisp2 = true ∧ key = ⟨name, false⟩ ∧
    ∃ e₁ rest, later = e₁ :: rest ∧ value e₁ ⟨name, true⟩ = none

def answers (later : List (Env V)) (key : RegistrationKey) : List (Option (V × Bool)) :=
  later.map fun e => e.getCanonical key

/-- A call may read the cell: it is held, or its value was an answer for the key. -/
def Readable (lisp2 : Bool) (name : String) (states : List (Env V)) (e : Env V)
    (key : RegistrationKey) (i : Nat) : Prop :=
  ∃ later, Since lisp2 name states e key later ∧ Answered (answers later key) e key i

section

variable {lisp2 : Bool} {name : String} {states later : List (Env V)} {e e' : Env V}
  {key : RegistrationKey} {i : Nat}

section

variable (h : Since lisp2 name states e key later)

include h

theorem Since.findable {v : V} (canonical : Bool)
    (hv : some (v, canonical) ∈ answers later key) : Findable lisp2 name states v := by
  obtain ⟨e₂, he₂, hget⟩ := List.mem_map.1 hv
  have hvalue : value e₂ key = some v := by rw [value, hget, Option.map_some]
  rcases h.order with rfl | ⟨rfl, rfl, e₁, rest, rfl, hdead⟩
  · exact .of_mem (h.suffix.subset he₂) hvalue
  · obtain ⟨past, hpast⟩ := h.suffix
    rw [← hpast]
    exact .of_fallback hdead he₂ hvalue

theorem Since.answer : e.getCanonical key ∈ answers later key :=
  List.mem_map.2 ⟨e, h.present, rfl⟩

theorem Since.append (e' : Env V) : Since lisp2 name (states ++ [e']) e' key (later ++ [e']) := by
  obtain ⟨past, hpast⟩ := h.suffix
  refine ⟨⟨past, by rw [← hpast, append_assoc]⟩, by simp, h.order.imp_right ?_⟩
  rintro ⟨hl, hkey, e₁, rest, hlater, hdead⟩
  exact ⟨hl, hkey, e₁, rest ++ [e'], by rw [hlater]; rfl, hdead⟩

end

theorem Since.dead (h : Since true name [e] e ⟨name, false⟩ later) :
    value e ⟨name, true⟩ = none := by
  rcases h.order with hkey | ⟨-, -, e₁, rest, rfl, hdead⟩
  · cases hkey
  · have he₁ : e₁ ∈ [e] := h.suffix.subset mem_cons_self
    rw [← List.mem_singleton.1 he₁]
    exact hdead

theorem since_first (he : e ∈ states) : Since lisp2 name states e ⟨name, lisp2⟩ states :=
  ⟨suffix_refl _, he, .inl rfl⟩

theorem Readable.findable (h : Readable lisp2 name states e key i)
    (hi : i < (e.cells key).length) {v : V} (hv : (readCell e key i).v = some v) :
    Findable lisp2 name states v := by
  obtain ⟨later, hsince, ha⟩ := h
  have hlive : liveValue (readCell e key i) = some (v, (readCell e key i).canonical) := by
    rw [liveValue, hv, Option.map_some]
  refine hsince.findable (readCell e key i).canonical ?_
  rcases ha with hheld | hseen
  · rw [← hheld.answer hi hlive]
    exact hsince.answer
  · exact hlive ▸ hseen

theorem Readable.evolves {replaced : RegistrationKey → Prop} (hev : Env.Evolves replaced e e')
    (hi : i < (e.cells key).length) (h : Readable lisp2 name states e key i) :
    Readable lisp2 name (states ++ [e']) e' key i := by
  obtain ⟨later, hsince, ha⟩ := h
  refine ⟨later ++ [e'], hsince.append e', ?_⟩
  refine (ha.evolves hev hi hsince.answer).mono ?_
  rw [answers, answers, map_append]
  exact subset_append_left _ _

end

structure EntryOk (e : Env V) (entry : CallCacheEntry V) : Prop where
  lt : entry.cell < (e.cells entry.key).length
  boundAt : BoundAt e entry.key entry.cell entry.gen
  snapshot : ∀ v, entry.value = some v →
    ∃ canonical, Snapshot e entry.key entry.cell v canonical entry.cellVer

variable {replaced : RegistrationKey → Prop} {e e' : Env V} {entry : CallCacheEntry V}

theorem EntryOk.evolves (hev : Env.Evolves replaced e e') (h : EntryOk e entry) :
    EntryOk e' entry := by
  refine ⟨(cellMoves hev h.lt).1, h.boundAt.evolves hev h.lt, ?_⟩
  intro v hv
  obtain ⟨canonical, hsnap⟩ := h.snapshot v hv
  exact ⟨canonical, hsnap.evolves hev⟩

/-- What a call knows about the cell it has resolved. With no write in progress the cell is
live. -/
structure Resolved (lisp2 : Bool) (name : String) (states : List (Env V)) (overlapped : Bool)
    (e : Env V) (key : RegistrationKey) (i : Nat) : Prop where
  lt : i < (e.cells key).length
  readable : Readable lisp2 name states e key i
  live : overlapped = false → (readCell e key i).v.isSome

/-- What a call knows about what it has read, in the environment `e` that a write in
progress turns into `settled`. -/
def CallPcOk (lisp2 : Bool) (e settled : Env V) (c : Call V) : Prop :=
  match c.pc with
  | .lookup => True
  | .checkGen entry => entry.key = ⟨c.name, lisp2⟩ ∧ EntryOk e entry
  | .checkVersion entry =>
    EntryOk e entry ∧ ∀ v, entry.value = some v →
      (readCell e entry.key entry.cell).version = entry.cellVer →
      Findable lisp2 c.name c.states v
  | .readEntry entry =>
    entry.cell < (e.cells entry.key).length ∧
      Readable lisp2 c.name c.states e entry.key entry.cell
  | .drop => True
  | .readGen => True
  | .resolveCell gen => gen ≤ settled.newNameGen
  | .fallback _ =>
    lisp2 = true ∧ ∃ later, Since lisp2 c.name c.states e ⟨c.name, false⟩ later
  | .readSnapshot gen key i cacheable =>
    Resolved lisp2 c.name c.states c.overlapped e key i ∧
      (cacheable = true → key = ⟨c.name, lisp2⟩ ∧ BoundAt e key i gen)
  | .store entry =>
    Resolved lisp2 c.name c.states c.overlapped e entry.key entry.cell ∧
      entry.key = ⟨c.name, lisp2⟩ ∧ EntryOk e entry
  | .readCell entry => Resolved lisp2 c.name c.states c.overlapped e entry.key entry.cell
  | .done r => c.Sound lisp2 r

/-- A call under way has the present environment among its own, and no other without a
write in progress. -/
structure CallOk (lisp2 : Bool) (s : CallSystem V) (c : Call V) : Prop where
  present : c.pc.isDone = false → [s.env] <:+ c.states
  quiet : c.pc.isDone = false → c.overlapped = false → c.states = [s.env] ∧ s.writing = none
  pc : CallPcOk lisp2 s.env s.settled c

structure CallInv (lisp2 : Bool) (s : CallSystem V) : Prop where
  writing : ∀ e, s.writing = some e → ∃ replaced, Env.Evolves replaced s.env e
  cache : ∀ name entry, s.cache.lookup name = some entry →
    entry.key = ⟨name, lisp2⟩ ∧ EntryOk s.env entry
  calls : ∀ c ∈ s.calls, CallOk lisp2 s c

theorem le_loadCounter (now later seen : Nat) : now ≤ loadCounter now later seen :=
  le_max_left _ _

theorem loadCounter_le {now later : Nat} (seen : Nat) (h : now ≤ later) :
    loadCounter now later seen ≤ later :=
  max_le h (min_le_right _ _)

variable {key : RegistrationKey} {i : Nat}

theorem cellLocal_eq_some (h : e.cellLocal key = some i) :
    i < (e.cells key).length ∧ Held e key i ∧ (readCell e key i).v.isSome := by
  simp only [Env.cellLocal, Option.bind_eq_bind, Option.bind_eq_some_iff] at h
  obtain ⟨⟨j, cell⟩, hb, hlive⟩ := h
  split at hlive
  case isFalse => cases hlive
  case isTrue hsome =>
    cases hlive
    obtain ⟨hlook, hcell⟩ := Env.bound_eq_some_iff.1 hb
    refine ⟨(List.getElem?_eq_some_iff.1 hcell).1, Or.inl hlook, ?_⟩
    rw [readCell, hcell]
    exact hsome

theorem value_eq_none (h : e.cellLocal key = none) : value e key = none := by
  rw [Env.cellLocal] at h
  rw [value, Env.getCanonical]
  cases hb : e.bound key with
  | none => rfl
  | some b =>
    cases hv : b.2.v with
    | none => simp [hv]
    | some v => simp [hb, hv] at h

variable {lisp2 : Bool} {c : Call V}

theorem Call.sound_of_findable {v : V} (hquiet : c.overlapped = false → c.states = [e])
    (h : Findable lisp2 c.name c.states v) : c.Sound lisp2 (some v) := by
  refine ⟨?_, ?_⟩
  · rintro w ⟨⟩
    exact h
  · intro hover
    refine ⟨e, hquiet hover, ?_⟩
    rw [hquiet hover] at h
    exact h.singleton.symm

theorem Call.sound_none (hquiet : c.overlapped = false → c.states = [e])
    (h : c.overlapped = false → resolveHead lisp2 c.name e e = none) : c.Sound lisp2 none := by
  refine ⟨?_, ?_⟩
  · rintro w ⟨⟩
  · intro hover
    exact ⟨e, hquiet hover, (h hover).symm⟩

theorem CallPcOk.overlap {settled : Env V} (hgen : e.newNameGen ≤ settled.newNameGen)
    (h : CallPcOk lisp2 e e c) (hdone : c.pc.isDone = false) :
    CallPcOk lisp2 e settled { c with overlapped := true } := by
  obtain ⟨name, fast, states, overlapped, pc⟩ := c
  cases pc with
  | resolveCell gen => exact Nat.le_trans h hgen
  | readSnapshot gen key i cacheable =>
    obtain ⟨hres, hcache⟩ := h
    exact ⟨⟨hres.lt, hres.readable, nofun⟩, hcache⟩
  | store entry =>
    obtain ⟨hres, hentry⟩ := h
    exact ⟨⟨hres.lt, hres.readable, nofun⟩, hentry⟩
  | readCell entry =>
    obtain ⟨hlt, hreadable, -⟩ := h
    exact ⟨hlt, hreadable, nofun⟩
  | done r => cases hdone
  | _ => exact h

variable {name : String}

theorem Resolved.evolves {states : List (Env V)} {overlapped : Bool}
    (hev : Env.Evolves replaced e e') (hover : overlapped = true)
    (h : Resolved lisp2 name states overlapped e key i) :
    Resolved lisp2 name (states ++ [e']) overlapped e' key i :=
  ⟨(cellMoves hev h.lt).1, h.readable.evolves hev h.lt,
    fun hquiet => absurd (hover.symm.trans hquiet) Bool.noConfusion⟩

theorem CallPcOk.evolves (hev : Env.Evolves replaced e e') (h : CallPcOk lisp2 e e' c)
    (hdone : c.pc.isDone = false) (hover : c.overlapped = true) :
    CallPcOk lisp2 e' e' { c with states := c.states ++ [e'] } := by
  obtain ⟨name, fast, states, overlapped, pc⟩ := c
  cases pc with
  | checkGen entry => exact ⟨h.1, h.2.evolves hev⟩
  | checkVersion entry =>
    obtain ⟨hentry, hhit⟩ := h
    refine ⟨hentry.evolves hev, ?_⟩
    intro v hv hver
    obtain ⟨canonical, hsnap⟩ := hentry.snapshot v hv
    have heq : (VM.readCell e entry.key entry.cell).version = entry.cellVer :=
      le_antisymm (hver ▸ (cellMoves hev hsnap.lt).2.version_le) hsnap.ver_le
    exact (hhit v hv heq).append e'
  | readEntry entry => exact ⟨(cellMoves hev h.1).1, h.2.evolves hev h.1⟩
  | fallback gen =>
    obtain ⟨hl, later, hsince⟩ := h
    exact ⟨hl, later ++ [e'], hsince.append e'⟩
  | readSnapshot gen key i cacheable =>
    obtain ⟨hres, hcache⟩ := h
    refine ⟨hres.evolves hev hover, ?_⟩
    intro hc
    exact ⟨(hcache hc).1, (hcache hc).2.evolves hev hres.lt⟩
  | store entry =>
    obtain ⟨hres, hkey, hentry⟩ := h
    exact ⟨hres.evolves hev hover, hkey, hentry.evolves hev⟩
  | readCell entry => exact .evolves hev hover h
  | done r => cases hdone
  | _ => exact h

theorem EntryOk.held (h : EntryOk e entry) {later seen : Nat}
    (hgen : entry.gen = loadCounter e.newNameGen later seen) :
    Held e entry.key entry.cell := by
  have hle : e.newNameGen ≤ entry.gen := hgen ▸ le_loadCounter _ _ _
  exact h.boundAt.2 (le_antisymm h.boundAt.1 hle)

theorem entryOk_snapshot {gen : Nat} (hi : i < (e.cells key).length) (hb : BoundAt e key i gen) :
    EntryOk e (snapshotEntry gen key i (VM.readCell e key i)) := by
  refine ⟨hi, hb, ?_⟩
  intro v hv
  have hv' : (VM.readCell e key i).v = some v := hv
  refine ⟨(VM.readCell e key i).canonical, hi, ?_, ?_⟩
  · simp [snapshotEntry, hv']
  · intro _
    simp [liveValue, snapshotEntry, hv']

variable {s : CallSystem V} {cache : AList fun _ : String => CallCacheEntry V} {name' : String}

theorem CallPcOk.next (hs : CallInv lisp2 s) (hc : CallOk lisp2 s c)
    (hfree : (c.pc.locks && s.writing.isSome) = false) (seen : Nat) :
    CallPcOk lisp2 s.env s.settled { c with pc := c.next lisp2 s seen } := by
  have hok := hc.pc
  have hmem : c.pc.isDone = false → s.env ∈ c.states := fun h =>
    (hc.present h).subset mem_cons_self
  have hquiet : c.pc.isDone = false → c.overlapped = false → c.states = [s.env] :=
    fun h hover => (hc.quiet h hover).1
  have hsettled : c.pc.locks = true → s.settled = s.env := by
    intro hlocks
    rw [hlocks, Bool.true_and] at hfree
    rw [CallSystem.settled, Option.isSome_eq_false_iff.1 hfree |> Option.isNone_iff_eq_none.1]
    rfl
  have hle : s.env.newNameGen ≤ s.settled.newNameGen := by
    rw [CallSystem.settled]
    cases hw : s.writing with
    | none => exact le_refl _
    | some e => exact (hs.writing e hw).choose_spec.gen_le
  obtain ⟨name, fast, states, overlapped, pc⟩ := c
  unfold Call.next
  cases pc with
  | lookup =>
    cases hlook : s.cache.lookup name with
    | none => trivial
    | some entry => exact hs.cache _ _ hlook
  | checkGen entry =>
    obtain ⟨hkey, hentry⟩ := hok
    dsimp only
    split
    case isFalse => trivial
    case isTrue hgen =>
      have hheld := hentry.held hgen
      have hsince : Since lisp2 name states s.env entry.key states :=
        hkey ▸ since_first (hmem rfl)
      split
      case isFalse => exact ⟨hentry.lt, states, hsince, Or.inl hheld⟩
      case isTrue =>
        refine ⟨hentry, ?_⟩
        intro v hv hver
        obtain ⟨canonical, hsnap⟩ := hentry.snapshot v hv
        refine hsince.findable canonical ?_
        rw [← hheld.answer hentry.lt (hsnap.contents hver)]
        exact hsince.answer
  | checkVersion entry =>
    obtain ⟨hentry, hhit⟩ := hok
    dsimp only
    cases hv : entry.value with
    | none => trivial
    | some v =>
      dsimp only
      split
      case isFalse => trivial
      case isTrue hver =>
        obtain ⟨canonical, hsnap⟩ := hentry.snapshot v hv
        have heq : (VM.readCell s.env entry.key entry.cell).version = entry.cellVer :=
          le_antisymm (hver ▸ le_loadCounter _ _ _) hsnap.ver_le
        exact Call.sound_of_findable (hquiet rfl) (hhit v hv heq)
  | readEntry entry =>
    obtain ⟨hi, hread⟩ := hok
    dsimp only
    cases hv : (VM.readCell s.env entry.key entry.cell).v with
    | none => trivial
    | some v => exact Call.sound_of_findable (hquiet rfl) (hread.findable hi hv)
  | drop => trivial
  | readGen => exact loadCounter_le seen hle
  | resolveCell gen =>
    rw [hsettled rfl] at hok
    cases hlocal : s.env.cellLocal ⟨name, lisp2⟩ with
    | some i =>
      obtain ⟨hi, hheld, hlive⟩ := cellLocal_eq_some hlocal
      exact ⟨⟨hi, ⟨states, since_first (hmem rfl), Or.inl hheld⟩, fun _ => hlive⟩,
        fun _ => ⟨rfl, hok, fun _ => hheld⟩⟩
    | none =>
      have hdead := value_eq_none hlocal
      cases lisp2 with
      | false => exact Call.sound_none (hquiet rfl) fun _ => hdead
      | true =>
        refine ⟨rfl, [s.env], ?_⟩
        exact ⟨hc.present rfl, mem_cons_self,
          Or.inr ⟨rfl, rfl, s.env, [], rfl, hdead⟩⟩
  | fallback gen =>
    obtain ⟨rfl, later, hsince⟩ := hok
    cases hlocal : s.env.cellLocal ⟨name, false⟩ with
    | some i =>
      obtain ⟨hi, hheld, hlive⟩ := cellLocal_eq_some hlocal
      exact ⟨⟨hi, ⟨later, hsince, Or.inl hheld⟩, fun _ => hlive⟩,
        fun hcache => nomatch hcache⟩
    | none =>
      refine Call.sound_none (hquiet rfl) ?_
      intro hover
      rw [hquiet rfl hover] at hsince
      simp [resolveHead, hsince.dead, value_eq_none hlocal]
  | readSnapshot gen key i cacheable =>
    obtain ⟨hres, hcache⟩ := hok
    cases cacheable with
    | false => exact hres
    | true =>
      obtain ⟨hkey, hbound⟩ := hcache rfl
      exact ⟨hres, hkey, entryOk_snapshot hres.lt hbound⟩
  | store entry => exact hok.1
  | readCell entry =>
    dsimp only
    cases hv : (VM.readCell s.env entry.key entry.cell).v with
    | some v => exact Call.sound_of_findable (hquiet rfl) (hok.readable.findable hok.lt hv)
    | none =>
      refine Call.sound_none (hquiet rfl) ?_
      intro hover
      have hlive := hok.live hover
      rw [hv] at hlive
      cases hlive
  | done r => exact hok

theorem CallOk.of_done {s' : CallSystem V} (hdone : c.pc.isDone = true) (h : CallOk lisp2 s c) :
    CallOk lisp2 s' c := by
  have hnot : c.pc.isDone ≠ false := fun hfalse => Bool.noConfusion (hdone.symm.trans hfalse)
  refine ⟨fun hfalse => absurd hfalse hnot, fun hfalse => absurd hfalse hnot, ?_⟩
  have hok := h.pc
  obtain ⟨name, fast, states, overlapped, pc⟩ := c
  cases pc with
  | done r => exact hok
  | _ => cases hdone

theorem lookup_storeEntry
    {entry' : CallCacheEntry V} (h : (storeEntry cache name entry).lookup name' = some entry') :
    name' = name ∧ entry' = entry ∨ cache.lookup name' = some entry' := by
  unfold storeEntry at h
  by_cases hname : name' = name
  · subst hname
    rw [AList.lookup_insert] at h
    exact .inl ⟨rfl, (Option.some.inj h).symm⟩
  · rw [AList.lookup_insert_ne hname] at h
    split at h
    · cases h
    · exact .inr h

theorem lookup_erase (h : (cache.erase name).lookup name' = some entry) :
    cache.lookup name' = some entry := by
  by_cases hname : name' = name
  · subst hname
    rw [AList.lookup_erase] at h
    cases h
  · rwa [AList.lookup_erase_ne hname] at h

variable (hs : CallInv lisp2 s)

include hs

theorem cache_publish (hc : CallOk lisp2 s c) (h : (c.publish s.cache).lookup name = some entry) :
    entry.key = ⟨name, lisp2⟩ ∧ EntryOk s.env entry := by
  unfold Call.publish at h
  split at h
  case h_1 => exact hs.cache _ _ (lookup_erase h)
  case h_2 stored hpc =>
    rcases lookup_storeEntry h with ⟨rfl, rfl⟩ | hold
    · have hok := hc.pc
      unfold CallPcOk at hok
      rw [hpc] at hok
      exact hok.2
    · exact hs.cache _ _ hold
  case h_3 => exact hs.cache _ _ h

variable [ValueShallowBytes V]

theorem CallInv.lock (w : Env.Write V) : CallInv lisp2 (s.step lisp2 (.lock w)) := by
  cases hw : s.writing with
  | some e => simpa [CallSystem.step, hw] using hs
  | none =>
    have hev := w.evolves s.env
    have hstep : s.step lisp2 (.lock w) =
        { s with writing := some (w.apply s.env), calls := s.calls.map Call.overlap } := by
      simp [CallSystem.step, hw]
    rw [hstep]
    refine ⟨?_, hs.cache, ?_⟩
    · rintro e ⟨⟩
      exact ⟨_, hev⟩
    · intro c' hc'
      obtain ⟨c, hc, rfl⟩ := List.mem_map.1 hc'
      have hok := hs.calls c hc
      unfold Call.overlap
      split
      case isTrue hdone => exact hok.of_done hdone
      case isFalse hnot =>
        have hdone : c.pc.isDone = false := by simpa using hnot
        have hsettled : s.settled = s.env := by rw [CallSystem.settled, hw]; rfl
        refine ⟨fun _ => hok.present hdone, (fun _ hover => nomatch hover), ?_⟩
        exact .overlap hev.gen_le (hsettled ▸ hok.pc) hdone

theorem CallInv.unlock : CallInv lisp2 (s.step lisp2 .unlock) := by
  cases hw : s.writing with
  | none => simpa [CallSystem.step, hw] using hs
  | some e =>
    obtain ⟨replaced, hev⟩ := hs.writing e hw
    have hstep : s.step lisp2 .unlock =
        { s with env := e, writing := none, calls := s.calls.map (.observe e) } := by
      simp [CallSystem.step, hw]
    rw [hstep]
    refine ⟨(fun _ h => nomatch h), ?_, ?_⟩
    · intro name entry hentry
      obtain ⟨hkey, hok⟩ := hs.cache name entry hentry
      exact ⟨hkey, hok.evolves hev⟩
    · intro c' hc'
      obtain ⟨c, hc, rfl⟩ := List.mem_map.1 hc'
      have hok := hs.calls c hc
      unfold Call.observe
      split
      case isTrue hdone => exact hok.of_done hdone
      case isFalse hnot =>
        have hdone : c.pc.isDone = false := by simpa using hnot
        have hover : c.overlapped = true := by
          by_contra hfalse
          have hnone := (hok.quiet hdone (by simpa using hfalse)).2
          rw [hw] at hnone
          cases hnone
        have hsettled : s.settled = e := by rw [CallSystem.settled, hw]; rfl
        refine ⟨fun _ => suffix_append _ _, ?_, ?_⟩
        · exact fun _ hquiet => absurd (hover.symm.trans hquiet) Bool.noConfusion
        · exact .evolves hev (hsettled ▸ hok.pc) hdone hover

theorem CallInv.call (name : String) (fast : Bool) :
    CallInv lisp2 (s.step lisp2 (.call name fast)) := by
  refine ⟨hs.writing, hs.cache, ?_⟩
  intro c hc
  rcases List.mem_append.1 hc with hc | hc
  · obtain ⟨hpresent, hquiet, hpc⟩ := hs.calls c hc
    exact ⟨hpresent, hquiet, hpc⟩
  · rw [List.mem_singleton.1 hc]
    refine ⟨fun _ => suffix_refl _, ?_, trivial⟩
    intro _ hnone
    exact ⟨rfl, Option.isNone_iff_eq_none.1 (Option.isSome_eq_false_iff.1 hnone)⟩

theorem CallInv.advance (n seen : Nat) : CallInv lisp2 (s.step lisp2 (.advance n seen)) := by
  simp only [CallSystem.step]
  cases hn : s.calls[n]? with
  | none => exact hs
  | some c =>
    have hc := hs.calls c (mem_of_getElem? hn)
    dsimp only
    split
    case isTrue => exact hs
    case isFalse hnot =>
      have hfree : (c.pc.locks && s.writing.isSome) = false := by simpa using hnot
      refine ⟨hs.writing, fun name entry h => ?_, ?_⟩
      · have hpublished := cache_publish hs hc h
        exact hpublished
      intro c' hc'
      rcases mem_or_eq_of_mem_set hc' with hc' | rfl
      · obtain ⟨hpresent, hquiet, hpc⟩ := hs.calls c' hc'
        exact ⟨hpresent, hquiet, hpc⟩
      · have hback : (c.next lisp2 s seen).isDone = false → c.pc.isDone = false := by
          intro hnext
          cases hpc : c.pc with
          | done r => simp [Call.next, hpc, CallPc.isDone] at hnext
          | _ => rfl
        refine ⟨fun h => hc.present (hback h), fun h => hc.quiet (hback h), ?_⟩
        exact CallPcOk.next hs hc hfree seen

theorem CallInv.step (ev : CallEvent V) : CallInv lisp2 (s.step lisp2 ev) := by
  cases ev with
  | lock w => exact hs.lock w
  | unlock => exact hs.unlock
  | call name fast => exact hs.call name fast
  | advance n seen => exact hs.advance n seen
  | dropName name =>
    refine ⟨hs.writing, fun _ _ h => hs.cache _ _ (lookup_erase h), ?_⟩
    intro c hc
    obtain ⟨hpresent, hquiet, hpc⟩ := hs.calls c hc
    exact ⟨hpresent, hquiet, hpc⟩

theorem CallInv.run (evs : List (CallEvent V)) : CallInv lisp2 (s.run lisp2 evs) := by
  induction evs generalizing s with
  | nil => exact hs
  | cons ev evs ih => exact ih (hs.step ev)

omit hs

end

def setF (val : Nat) : List (CallEvent Nat) :=
  [.lock (.set none ⟨"f", true⟩ val false false ⟨none, false, none⟩), .unlock]

/-- The `n`-th call begins, calls `f`, and does `parts` of its parts. -/
def callF (n parts : Nat) : List (CallEvent Nat) :=
  .call "f" true :: List.replicate parts (.advance n 0)

-- The second call is served from the cache in three parts; the third one finds the version
-- of the cell changed and resolves the name anew.
example : (((CallSystem.init (noLimits 0)).run true
        (setF 1 ++ callF 0 7 ++ callF 1 3 ++ setF 2 ++ callF 2 10)).calls.map Call.pc) =
      [.done (some 1), .done (some 1), .done (some 2)] := by
  decide +kernel

end Runtime

end Lispico
