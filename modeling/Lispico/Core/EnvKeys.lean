import Lispico.Lib.Comp
import Lispico.Core.Env

/-!
# An environment key by key

An environment is a family of key states, the cells, the binding and the journal entry of a key,
with a few counters. A write touches the state of one key: in place, with a first cell, or with
a new cell for the old one. `SetBoth` touches two keys, a merge one after the other.
-/

namespace Lispico

namespace Core

open Option

structure KeyState (V : Type) where
  cells : List (Cell V)
  bind : Option Nat
  entry : Option (RegistrationEntry V)

/-- What is written to a key: the value, the flag and the charge that its cell then holds,
and the bytes that the journal notes if the cell is the first one. -/
structure Effect (V : Type) where
  v : Option V
  canonical : Bool
  retained : Int
  bytes : Int

def Effect.InCell {V : Type} (x : Effect V) (c : Cell V) : Prop :=
  c.v = x.v ∧ c.canonical = x.canonical ∧ c.retainedBytes = x.retained

section

variable {V : Type}

def RegistrationEntry.before (cur : Option (Nat × Cell V)) (ent : RegistrationEntry V) :
    RegistrationEntry V :=
  { ent with
    prior := cur.map Prod.fst
    v := cur.bind fun c => c.2.v
    canonical := (cur.map fun c => c.2.canonical).getD false }

def RegistrationEntry.mark (i ver : Nat) (bytes slots : Int) (ent : RegistrationEntry V) :
    RegistrationEntry V :=
  let ent := { ent with last := some i, lastVer := ver }
  if bytes ≠ 0 ∨ slots ≠ 0 then { ent with bytes := bytes, slots := slots } else ent

variable (ent : RegistrationEntry V) (i ver : Nat)

theorem RegistrationEntry.mark_spec (bytes slots : Int) :
    (ent.mark i ver bytes slots).prior = ent.prior ∧ (ent.mark i ver bytes slots).v = ent.v ∧
      (ent.mark i ver bytes slots).canonical = ent.canonical ∧
      (ent.mark i ver bytes slots).last = some i ∧
      (ent.mark i ver bytes slots).lastVer = ver := by
  unfold RegistrationEntry.mark
  dsimp only
  split <;> exact ⟨rfl, rfl, rfl, rfl, rfl⟩

/-- The entry after `record`. -/
def recordEntry (entry : Option (RegistrationEntry V)) (cur : Option (Nat × Cell V)) :
    RegistrationEntry V :=
  match entry with
  | some ent => if cur.any fun c => Registration.owns ent c.1 c.2 then ent else ent.before cur
  | none => RegistrationEntry.before cur ⟨none, none, false, none, 0, 0, 0⟩

namespace KeyState

def bound (ks : KeyState V) : Option (Nat × Cell V) := do
  let i ← ks.bind
  let cell ← ks.cells[i]?
  some (i, cell)

def binding (ks : KeyState V) : Option (V × Bool) := do
  let (_, cell) ← ks.bound
  let v ← cell.v
  some (v, cell.canonical)

def owned (ks : KeyState V) : Bool :=
  ks.entry.any fun ent => ks.bound.any fun c => Registration.owns ent c.1 c.2

/-- The entry after `record` for the present binding. -/
def recorded (ks : KeyState V) : RegistrationEntry V := recordEntry ks.entry ks.bound

/-- The state after a write that leaves `cells` with the cell `i` bound. -/
def journaled (ks : KeyState V) (on : Bool) (cells : List (Cell V)) (i : Nat)
    (bytes slots : Int) : KeyState V :=
  { cells := cells
    bind := some i
    entry :=
      if on then some (ks.recorded.mark i ((cells[i]?.map Cell.version).getD 0) bytes slots)
      else ks.entry }

/-- What a write does to the state of a key; `on` says whether it goes through the view of
the running registration. The bound cell is written in place, or a first cell is bound. -/
inductive Touch (on : Bool) (x : Effect V) : KeyState V → KeyState V → Prop where
  | inPlace {ks : KeyState V} {i : Nat} {c c' : Cell V} (hbound : ks.bound = some (i, c))
      (hx : x.InCell c') (hversion : c'.version = c.version + 1) :
      Touch on x ks (ks.journaled on (ks.cells.set i c') i 0 0)
  | fresh {ks : KeyState V} {c' : Cell V} (hbound : ks.bound = none) (hx : x.InCell c') :
      Touch on x ks (ks.journaled on (ks.cells ++ [c']) ks.cells.length x.bytes 1)

/-- What `ReplaceCell` does to the state of a bound key: a new cell is bound, and the old one
stays as it is but for its charge. -/
inductive Retire (on : Bool) (x : Effect V) : KeyState V → KeyState V → Prop where
  | retire {ks : KeyState V} {i : Nat} {c c' old : Cell V} (hbound : ks.bound = some (i, c))
      (hold : old.v = c.v ∧ old.canonical = c.canonical ∧ old.version = c.version)
      (hcharge : old.retainedBytes = c.retainedBytes ∨ old.retainedBytes = 0)
      (hx : x.InCell c') :
      Retire on x ks (ks.journaled on (ks.cells.set i old ++ [c']) ks.cells.length 0 0)

def record (ks : KeyState V) (on : Bool) : KeyState V :=
  { ks with entry := if on then some ks.recorded else ks.entry }

def bindFresh (ks : KeyState V) (c : Cell V) : KeyState V :=
  { ks with cells := ks.cells ++ [c], bind := some ks.cells.length }

def localCell (ks : KeyState V) : KeyState V × Nat :=
  match ks.bound with
  | some (i, _) => (ks, i)
  | none => (ks.bindFresh Env.emptyCell, ks.cells.length)

def updateCell (ks : KeyState V) (i : Nat) (f : Cell V → Cell V) : KeyState V :=
  { ks with cells := ks.cells.modify i f }

def note (ks : KeyState V) (on : Bool) (bytes slots : Int) : KeyState V :=
  match on, ks.bound with
  | true, some (i, c) => { ks with entry := ks.entry.map (.mark i c.version bytes slots) }
  | _, _ => ks

/-- A write to the bound cell of a key, made if there is none. -/
def put (ks : KeyState V) (on : Bool) (f : Cell V → Cell V) (bytes slots : Int) : KeyState V :=
  let p := (ks.record on).localCell
  (p.1.updateCell p.2 f).note on bytes slots

def restore (ent : RegistrationEntry V) (c : Cell V) : Cell V :=
  { c with v := ent.v, canonical := ent.canonical, version := c.version + 1 }

def withdrawn (c : Cell V) : Cell V :=
  { c with
    retainedMeter := none
    retainedBytes := if c.retainedMeter.isSome then 0 else c.retainedBytes
    v := none
    canonical := false
    version := c.version + 1 }

/-- What `Abort` does to a key with a journal entry. -/
def undo (ks : KeyState V) (ent : RegistrationEntry V) : KeyState V :=
  match ks.bound with
  | none => ks
  | some (i, c) =>
    if !Registration.owns ent i c then ks
    else
      match ent.prior with
      | none => { ks with cells := ks.cells.modify i withdrawn, bind := none }
      | some p =>
        if p = i then { ks with cells := ks.cells.modify i (restore ent) }
        else
          { ks with
            cells := (ks.cells.modify p (restore ent)).modify i withdrawn
            bind := some p }

/-- What `Abort` does to a key. -/
def aborted (ks : KeyState V) : KeyState V :=
  { (match ks.entry with
      | some ent => ks.undo ent
      | none => ks) with entry := none }

/-- What `Rebuild` does to a key: an unpinned tombstone is unbound. -/
def rebuilt (ks : KeyState V) : KeyState V :=
  { ks with bind := ks.bind.filter fun i => ks.cells[i]?.any fun c =>
      c.v.isSome || ks.entry.any fun ent => Registration.owns ent i c }

variable {ks : KeyState V} {i : Nat} {c : Cell V} {x : Effect V} {ks₂ : KeyState V} {on : Bool}
  {α : Type}

theorem bound_eq_some_iff :
    ks.bound = some (i, c) ↔ ks.bind = some i ∧ ks.cells[i]? = some c := by
  simp only [bound, bind_eq_bind, bind_eq_some_iff]
  constructor
  · rintro ⟨j, hj, d, hd, heq⟩
    cases heq
    exact ⟨hj, hd⟩
  · rintro ⟨hi, hc⟩
    exact ⟨i, hi, c, hc, rfl⟩

theorem bind_of_bound (h : ks.bound = some (i, c)) : ks.bind = some i ∧ ks.cells[i]? = some c :=
  bound_eq_some_iff.1 h

theorem lt_of_bound (h : ks.bound = some (i, c)) : i < ks.cells.length := by
  obtain ⟨hi, -⟩ := List.getElem?_eq_some_iff.1 (bind_of_bound h).2
  exact hi

theorem owned_iff {ent : RegistrationEntry V} (hentry : ks.entry = some ent)
    (hbound : ks.bound = some (i, c)) :
    ks.owned = true ↔ ent.last = some i ∧ c.version = ent.lastVer := by
  simp [owned, hentry, hbound, Registration.owns]

theorem owned_of_bound_none (hbound : ks.bound = none) : ks.owned = false := by
  simp [owned, hbound]

/-- The entry that `record` leaves: the old one if the operation wrote last, and one for the
present binding otherwise. -/
theorem recorded_cases (ks : KeyState V) :
    (∃ ent, ks.entry = some ent ∧ ks.owned = true ∧ ks.recorded = ent) ∨
      ks.owned = false ∧ ∃ ent, (ks.entry = some ent ∨
        ks.entry = none ∧ ent.bytes = 0 ∧ ent.slots = 0) ∧ ks.recorded = ent.before ks.bound := by
  unfold recorded recordEntry owned
  cases hentry : ks.entry with
  | none => exact .inr ⟨rfl, ⟨none, none, false, none, 0, 0, 0⟩, .inr ⟨rfl, rfl, rfl⟩, rfl⟩
  | some ent =>
    dsimp only [any_some]
    split
    · rename_i howns
      exact .inl ⟨ent, rfl, howns, rfl⟩
    · rename_i howns
      exact .inr ⟨by simpa using howns, ent, .inl rfl, rfl⟩

theorem recorded_prior_lt (h : ∀ ent p, ks.entry = some ent → ent.prior = some p →
    p < ks.cells.length) {p : Nat} (hp : ks.recorded.prior = some p) : p < ks.cells.length := by
  rcases ks.recorded_cases with ⟨ent, hentry, -, hrec⟩ | ⟨-, ent, -, hrec⟩
  · exact h ent p hentry (hrec ▸ hp)
  · rw [hrec, RegistrationEntry.before] at hp
    obtain ⟨b, hb, rfl⟩ := Option.map_eq_some_iff.1 hp
    exact lt_of_bound hb

theorem note_eq_journaled (hbound : ks₂.bound = some (i, c))
    (hentry : ks₂.entry = (ks.record on).entry) (bytes slots : Int) :
    ks₂.note on bytes slots = ks.journaled on ks₂.cells i bytes slots := by
  obtain ⟨hbind, hcell⟩ := bind_of_bound hbound
  unfold note journaled
  rw [hbound, hcell, ← hbind]
  cases on with
  | false => exact congrArg (KeyState.mk _ _) hentry
  | true => simp [hentry, record]

theorem modify_eq_set {l : List α} {i : Nat} {a : α} (h : l[i]? = some a)
    (f : α → α) : l.modify i f = l.set i (f a) := by
  rw [List.modify_eq_set_getElem?, h]
  rfl

theorem modify_append_length (l : List α) (a : α) (f : α → α) :
    (l ++ [a]).modify l.length f = l ++ [f a] := by
  rw [@modify_eq_set α (l ++ [a]) l.length a (by simp) f]
  simp

theorem touch_fresh (hb : ks.bound = none) {c' : Cell V} (hx : x.InCell c')
    (on : Bool) : Touch on x ks (((ks.record on).bindFresh c').note on x.bytes 1) := by
  have hbound : ((ks.record on).bindFresh c').bound = some (ks.cells.length, c') :=
    bound_eq_some_iff.2 ⟨rfl, by simp [bindFresh, record]⟩
  rw [note_eq_journaled hbound rfl]
  exact .fresh hb hx

theorem bindFresh_updateCell (ks : KeyState V) (c : Cell V) (f : Cell V → Cell V) :
    (ks.bindFresh c).updateCell ks.cells.length f = ks.bindFresh (f c) := by
  simp [bindFresh, updateCell, modify_append_length]

theorem touch_put {f : Cell V → Cell V} (hversion : ∀ c, (f c).version = c.version + 1)
    (hx : x.InCell (f ((ks.bound.map Prod.snd).getD Env.emptyCell))) (on : Bool) :
    Touch on x ks (ks.put on f (if ks.bound.isNone then x.bytes else 0)
      (if ks.bound.isNone then 1 else 0)) := by
  have hbound : (ks.record on).bound = ks.bound := rfl
  unfold put localCell
  rw [hbound]
  cases hb : ks.bound with
  | none =>
    have htouch := @touch_fresh V ks x hb (f Env.emptyCell) (by simpa [hb] using hx) on
    rw [← bindFresh_updateCell] at htouch
    exact htouch
  | some b =>
    obtain ⟨i, c⟩ := b
    rw [hb] at hx
    obtain ⟨hbind, hcell⟩ := bind_of_bound hb
    have hcells : ((ks.record on).updateCell i f).cells = ks.cells.set i (f c) :=
      modify_eq_set hcell f
    have hwritten : ((ks.record on).updateCell i f).bound = some (i, f c) := by
      refine bound_eq_some_iff.2 ⟨hbind, ?_⟩
      rw [hcells, List.getElem?_set_self (lt_of_bound hb)]
    simp only [isNone_some, Bool.false_eq_true, if_false]
    rw [note_eq_journaled hwritten rfl, hcells]
    exact .inPlace hb hx (hversion c)

theorem retire_bindFresh {c' old : Cell V}
    (hb : ks.bound = some (i, c)) (hcells : ks₂.cells = ks.cells.set i old)
    (hentry : ks₂.entry = (ks.record on).entry)
    (hold : old.v = c.v ∧ old.canonical = c.canonical ∧ old.version = c.version)
    (hcharge : old.retainedBytes = c.retainedBytes ∨ old.retainedBytes = 0)
    (hx : x.InCell c') : Retire on x ks ((ks₂.bindFresh c').note on 0 0) := by
  have hbound : (ks₂.bindFresh c').bound = some (ks.cells.length, c') :=
    bound_eq_some_iff.2 ⟨by simp [bindFresh, hcells], by simp [bindFresh, hcells]⟩
  rw [note_eq_journaled hbound hentry, bindFresh, hcells]
  exact .retire hb hold hcharge hx

def charge (ks : KeyState V) : Int :=
  match ks.bound with
  | some (_, c) => c.retainedBytes
  | none => 0

theorem charge_of_bound (h : ks.bound = some (i, c)) : ks.charge = c.retainedBytes := by
  rw [charge, h]

theorem bound_journaled (ks : KeyState V) (on : Bool) {cells : List (Cell V)} {i : Nat}
    (hcell : cells[i]? = some c) (bytes slots : Int) :
    (ks.journaled on cells i bytes slots).bound = some (i, c) := by
  simp [bound, journaled, hcell]

theorem owned_eq_false_of_entry_none (h : ks.entry = none) : ks.owned = false := by
  simp [owned, h]

/-- After a foreign write the operation does not own the key: no version goes back. -/
theorem journaled_unowned {cells : List (Cell V)}
    (hlast : ∀ ent j, ks.entry = some ent → ent.last = some j →
      ∃ d, ks.cells[j]? = some d ∧ ent.lastVer ≤ d.version) (hcell : cells[i]? = some c)
    (hmoved : ∀ d, ks.cells[i]? = some d → d.version < c.version) (bytes slots : Int) :
    (ks.journaled false cells i bytes slots).owned = false := by
  cases hentry : ks.entry with
  | none => exact owned_eq_false_of_entry_none hentry
  | some ent =>
    have hentry' : (ks.journaled false cells i bytes slots).entry = some ent := hentry
    rw [Bool.eq_false_iff]
    intro howned
    obtain ⟨hi, hver⟩ :=
      (owned_iff hentry' (ks.bound_journaled false hcell bytes slots)).1 howned
    obtain ⟨d, hd, hle⟩ := hlast ent i hentry hi
    have hlt := hmoved d hd
    omega

/-- A write leaves its effect in the bound cell, which is new or has a new version, and no
version goes back. -/
inductive Placed (on : Bool) (x : Effect V) (ks : KeyState V) : KeyState V → Prop where
  | mk {cells : List (Cell V)} {i : Nat} {c : Cell V} (hcell : cells[i]? = some c)
      (hx : x.InCell c) (hlen : ks.cells.length ≤ cells.length)
      (hversions : ∀ (j : Nat) (d : Cell V), ks.cells[j]? = some d →
        ∃ d', cells[j]? = some d' ∧ d.version ≤ d'.version)
      (hmoved : ∀ d, ks.cells[i]? = some d → d.version < c.version) (bytes slots : Int) :
      Placed on x ks (ks.journaled on cells i bytes slots)

theorem versions_set {cells : List (Cell V)} {c c' : Cell V} (hi : cells[i]? = some c)
    (hversion : c.version ≤ c'.version) (j : Nat) (d : Cell V) (hd : cells[j]? = some d) :
    ∃ d', (cells.set i c')[j]? = some d' ∧ d.version ≤ d'.version := by
  by_cases hj : i = j
  · subst hj
    rw [hi] at hd
    cases hd
    obtain ⟨hlt, -⟩ := List.getElem?_eq_some_iff.1 hi
    exact ⟨c', by simp [hlt], hversion⟩
  · exact ⟨d, by rw [List.getElem?_set_ne hj, hd], le_rfl⟩

theorem versions_append {cells cells' : List (Cell V)}
    (h : ∀ (j : Nat) (d : Cell V), cells[j]? = some d →
      ∃ d', cells'[j]? = some d' ∧ d.version ≤ d'.version) (c' : Cell V) (j : Nat) (d : Cell V)
    (hd : cells[j]? = some d) :
    ∃ d', (cells' ++ [c'])[j]? = some d' ∧ d.version ≤ d'.version := by
  obtain ⟨d', hd', hle⟩ := h j d hd
  obtain ⟨hlt, -⟩ := List.getElem?_eq_some_iff.1 hd'
  exact ⟨d', by rw [List.getElem?_append_left hlt, hd'], hle⟩

theorem Touch.placed {ks ks' : KeyState V} (h : Touch on x ks ks') :
    Placed on x ks ks' := by
  cases h with
  | @inPlace i c c' hbound hx hversion =>
    obtain ⟨-, hi⟩ := bind_of_bound hbound
    refine .mk (c := c') (by simp [lt_of_bound hbound]) hx (by simp)
      (versions_set hi (by omega)) (fun d hd => ?_) 0 0
    rw [hi] at hd
    cases hd
    omega
  | @fresh c' hbound hx =>
    refine .mk (c := c') (by simp) hx (by simp)
      (versions_append (fun j d hd => ⟨d, hd, le_rfl⟩) c') (fun d hd => ?_) x.bytes 1
    simp at hd

theorem Retire.placed {ks ks' : KeyState V} (h : Retire on x ks ks') :
    Placed on x ks ks' := by
  cases h with
  | @retire i c c' old hbound hold hcharge hx =>
    obtain ⟨-, hi⟩ := bind_of_bound hbound
    refine .mk (c := c') (by simp) hx (by simp)
      (versions_append (versions_set hi hold.2.2.ge) c') (fun d hd => ?_) 0 0
    simp at hd

theorem Placed.bound (h : Placed on x ks ks₂) : ∃ i c, ks₂.bound = some (i, c) ∧ x.InCell c := by
  cases h with
  | mk hcell hx _ _ _ bytes slots => exact ⟨_, _, ks.bound_journaled on hcell bytes slots, hx⟩

theorem Placed.charge_eq (h : Placed on x ks ks₂) : ks₂.charge = x.retained := by
  obtain ⟨i, c, hbound, hx⟩ := h.bound
  rw [charge_of_bound hbound, hx.2.2]

theorem rebuilt_eq (ks : KeyState V) :
    ks.rebuilt = if (ks.bound.any fun b => b.2.v.isSome) || ks.owned then ks
      else { ks with bind := none } := by
  obtain ⟨cells, bind, entry⟩ := ks
  unfold rebuilt owned bound
  dsimp only
  cases bind with
  | none => simp
  | some i =>
    cases hcell : cells[i]? with
    | none => simp [filter_some, hcell]
    | some c =>
      simp only [filter_some, hcell, bind_eq_bind, bind_some,
        any_some]
      split <;> rfl

end KeyState

end

namespace Env

section

variable {V : Type} (e : Env V) (key : RegistrationKey)

def keyState (e : Env V) (key : RegistrationKey) : KeyState V :=
  ⟨e.cells key, e.binds.lookup key, e.reg.bind fun r => r.entries.lookup key⟩

@[simp]
theorem keyState_bound : (e.keyState key).bound = e.bound key := rfl

@[simp]
theorem keyState_binding : (e.keyState key).binding = e.getCanonical key := rfl

variable {e : Env V} {k : RegistrationKey} {i : Nat} {c : Cell V}

theorem bound_eq_some_iff :
    e.bound k = some (i, c) ↔ e.binds.lookup k = some i ∧ (e.cells k)[i]? = some c :=
  @KeyState.bound_eq_some_iff V (e.keyState k) i c

def on (e : Env V) (via : Option Nat) : Bool := (e.active via).isSome

variable {via : Option Nat}

theorem active_eq_some {r : Registration V} (h : e.active via = some r) :
    e.reg = some r ∧ via = some r.id := by
  rw [active, filter_eq_some_iff] at h
  exact ⟨h.1, by simpa using h.2⟩

theorem on_eq (e : Env V) (via : Option Nat) :
    e.on via = (e.reg.map Registration.id).any fun id => via == some id := by
  unfold on active
  cases e.reg with
  | none => rfl
  | some r => by_cases h : via = some r.id <;> simp [Option.filter, h]

variable (r : Registration V) (key : RegistrationKey) (cur : Option (Nat × Cell V))

theorem record_id : (r.record key cur).id = r.id := by
  unfold Registration.record
  dsimp only
  split
  · split <;> rfl
  · rfl

theorem record_lookup :
    (r.record key cur).entries.lookup key = some (recordEntry (r.entries.lookup key) cur) := by
  unfold Registration.record recordEntry
  cases h : r.entries.lookup key with
  | none => exact AList.lookup_insert _
  | some ent =>
    dsimp only
    split
    · exact h
    · exact AList.lookup_insert _

variable {key : RegistrationKey}

theorem record_lookup_ne (hk : k ≠ key) (cur : Option (Nat × Cell V)) :
    (r.record key cur).entries.lookup k = r.entries.lookup k := by
  unfold Registration.record
  dsimp only
  split
  · split
    · rfl
    · exact AList.lookup_insert_ne hk
  · exact AList.lookup_insert_ne hk

theorem afterWrite_id (key : RegistrationKey) (i ver : Nat) (bytes slots : Int) :
    (r.afterWrite key i ver bytes slots).id = r.id := by
  unfold Registration.afterWrite
  split <;> rfl

theorem afterWrite_lookup (key : RegistrationKey) (i ver : Nat) (bytes slots : Int) :
    (r.afterWrite key i ver bytes slots).entries.lookup key =
      (r.entries.lookup key).map (RegistrationEntry.mark i ver bytes slots) := by
  unfold Registration.afterWrite
  split
  · rename_i h
    rw [h]
    rfl
  · rename_i ent h
    rw [h]
    exact AList.lookup_insert _

theorem afterWrite_lookup_ne (hk : k ≠ key) (i ver : Nat) (bytes slots : Int) :
    (r.afterWrite key i ver bytes slots).entries.lookup k = r.entries.lookup k := by
  unfold Registration.afterWrite
  split
  · rfl
  · exact AList.lookup_insert_ne hk

def usage (e : Env V) : Int × Int × Int × Int :=
  (e.retainedBytes, e.retainedSlots, e.maxRetainedBytes, e.maxRetainedSlots)

variable {e' : Env V}

theorem usage_eq_iff : e'.usage = e.usage ↔
    e'.retainedBytes = e.retainedBytes ∧ e'.retainedSlots = e.retainedSlots ∧
      e'.maxRetainedBytes = e.maxRetainedBytes ∧ e'.maxRetainedSlots = e.maxRetainedSlots := by
  simp [usage]

/-- The state of each key changes as `F` says, and the usage stays. -/
structure Acts (e e' : Env V) (F : RegistrationKey → KeyState V → KeyState V) : Prop where
  keys : ∀ k, e'.keyState k = F k (e.keyState k)
  regId : e'.reg.map Registration.id = e.reg.map Registration.id
  usage : e'.usage = e.usage

abbrev only (key : RegistrationKey) (f : KeyState V → KeyState V) :
    RegistrationKey → KeyState V → KeyState V :=
  Function.update (fun _ => id) key f

section

variable {e₁ e₂ e₃ : Env V} {F : RegistrationKey → KeyState V → KeyState V}
  {f g : KeyState V → KeyState V}

theorem acts_only (hkey : e₂.keyState key = f (e₁.keyState key))
    (hother : ∀ k, k ≠ key → e₂.keyState k = e₁.keyState k)
    (hregId : e₂.reg.map Registration.id = e₁.reg.map Registration.id)
    (husage : e₂.usage = e₁.usage) : Acts e₁ e₂ (only key f) := by
  refine ⟨fun k => ?_, hregId, husage⟩
  by_cases hk : k = key
  · subst hk
    rw [hkey, only, Function.update_self]
  · rw [hother k hk, only, Function.update_of_ne hk, id]

section

variable (h : Acts e₁ e₂ (only key f))

include h

theorem Acts.self : e₂.keyState key = f (e₁.keyState key) := by
  rw [h.keys, only, Function.update_self]

theorem Acts.other (hk : k ≠ key) : e₂.keyState k = e₁.keyState k := by
  rw [h.keys, only, Function.update_of_ne hk, id]

theorem Acts.andThen (h' : Acts e₂ e₃ (only key g)) : Acts e₁ e₃ (only key fun ks => g (f ks)) :=
  acts_only (by rw [h'.self, h.self]) (fun k hk => (h'.other hk).trans (h.other hk))
    (h'.regId.trans h.regId) (h'.usage.trans h.usage)

end

theorem Acts.bumped (h : Acts e₁.bumpNameGen e₂ F) : Acts e₁ e₂ F :=
  ⟨h.keys, h.regId, h.usage⟩

theorem Acts.on_eq (h : Acts e₁ e₂ F) (via : Option Nat) : e₂.on via = e₁.on via := by
  rw [Env.on_eq, Env.on_eq, h.regId]

end

variable (e)

theorem acts_beforeWrite (via : Option Nat) (key : RegistrationKey) :
    Acts e (e.beforeWrite via key) (only key fun ks => ks.record (e.on via)) := by
  unfold beforeWrite on
  cases hactive : e.active via with
  | none => exact acts_only rfl (fun _ _ => rfl) rfl rfl
  | some r =>
    obtain ⟨hreg, -⟩ := active_eq_some hactive
    refine acts_only ?_ (fun k hk => ?_) ?_ rfl
    · simp [keyState, KeyState.record, KeyState.recorded, hreg, record_lookup, bound,
        KeyState.bound]
    · simp [keyState, hreg, record_lookup_ne r hk]
    · simp [hreg, record_id]

theorem acts_afterWrite (via : Option Nat) (key : RegistrationKey)
    (bytes slots : Int) : Acts e (e.afterWrite via key bytes slots)
      (only key fun ks => ks.note (e.on via) bytes slots) := by
  unfold afterWrite on KeyState.note
  cases hactive : e.active via with
  | none => exact acts_only rfl (fun _ _ => rfl) rfl rfl
  | some r =>
    obtain ⟨hreg, -⟩ := active_eq_some hactive
    cases hbound : e.bound key with
    | none => exact acts_only (by simp [hbound]) (fun _ _ => rfl) rfl rfl
    | some b =>
      refine acts_only ?_ (fun k hk => ?_) ?_ rfl
      · simp only [keyState_bound, hbound]
        simp [keyState, hreg, afterWrite_lookup]
      · simp [keyState, hreg, afterWrite_lookup_ne r hk]
      · simp [hreg, afterWrite_id]

variable (key)

theorem acts_bindFresh (c : Cell V) :
    Acts e (e.bindFresh key c) (only key fun ks => ks.bindFresh c) := by
  refine acts_only ?_ (fun k hk => ?_) rfl rfl
  · simp [keyState, bindFresh, KeyState.bindFresh]
  · simp [keyState, bindFresh, hk, AList.lookup_insert_ne hk]

theorem acts_updateCell (i : Nat) (f : Cell V → Cell V) :
    Acts e (e.updateCell key i f) (only key fun ks => ks.updateCell i f) := by
  refine acts_only ?_ (fun k hk => ?_) rfl rfl
  · simp [keyState, updateCell, KeyState.updateCell]
  · simp [keyState, updateCell, hk]

theorem acts_localCell : Acts e (e.localCell key).1 (only key fun ks => ks.localCell.1) ∧
      (e.localCell key).2 = (e.keyState key).localCell.2 := by
  unfold localCell KeyState.localCell
  rw [keyState_bound]
  cases hb : e.bound key with
  | none =>
    refine ⟨acts_only ?_ (fun k hk => (acts_bindFresh e key emptyCell).other hk) rfl rfl, rfl⟩
    rw [keyState_bound, hb]
    exact (acts_bindFresh e key emptyCell).self
  | some b => exact ⟨acts_only (by rw [keyState_bound, hb]) (fun _ _ => rfl) rfl rfl, rfl⟩

variable {key}

variable {e}

/-- The writes `ws` touch their keys, each once, and nothing else. -/
structure Writes (e e' : Env V) (on : Bool) (ws : List (RegistrationKey × Effect V)) : Prop where
  distinct : (ws.map Prod.fst).Nodup
  untouched : ∀ k ∉ ws.map Prod.fst, e'.keyState k = e.keyState k
  touched : ∀ x ∈ ws, KeyState.Touch on x.2 (e.keyState x.1) (e'.keyState x.1)
  regId : e'.reg.map Registration.id = e.reg.map Registration.id
  maxBytes : e'.maxRetainedBytes = e.maxRetainedBytes
  maxSlots : e'.maxRetainedSlots = e.maxRetainedSlots

theorem Writes.refl (e : Env V) (on : Bool) : Writes e e on [] :=
  ⟨List.nodup_nil, fun _ _ => rfl, nofun, rfl, rfl, rfl⟩

variable {on : Bool} {ws : List (RegistrationKey × Effect V)}

theorem Writes.on_eq (h : Writes e e' on ws) (via : Option Nat) : e'.on via = e.on via := by
  rw [Env.on_eq, Env.on_eq, h.regId]

variable {e₁ e₂ e₃ : Env V}

theorem Writes.append {ws' : List (RegistrationKey × Effect V)} (h : Writes e₁ e₂ on ws)
    (h' : Writes e₂ e₃ on ws') (hdisjoint : ∀ k ∈ ws.map Prod.fst, k ∉ ws'.map Prod.fst) :
    Writes e₁ e₃ on (ws ++ ws') := by
  refine ⟨?_, fun k hk => ?_, fun x hx => ?_, h'.regId.trans h.regId,
    h'.maxBytes.trans h.maxBytes, h'.maxSlots.trans h.maxSlots⟩
  · rw [List.map_append, List.nodup_append]
    exact ⟨h.distinct, h'.distinct, fun a ha b hb heq => hdisjoint a ha (heq ▸ hb)⟩
  · rw [List.map_append, List.mem_append, not_or] at hk
    rw [h'.untouched k hk.2, h.untouched k hk.1]
  · rcases List.mem_append.1 hx with hx | hx
    · rw [h'.untouched x.1 (hdisjoint x.1 (List.mem_map_of_mem hx))]
      exact h.touched x hx
    · have hnot : x.1 ∉ ws.map Prod.fst := fun hmem =>
        hdisjoint x.1 hmem (List.mem_map_of_mem hx)
      rw [← h.untouched x.1 hnot]
      exact h'.touched x hx

structure SameKeys (e e' : Env V) : Prop where
  keys : e'.keyState = e.keyState
  regId : e'.reg.map Registration.id = e.reg.map Registration.id
  maxBytes : e'.maxRetainedBytes = e.maxRetainedBytes
  maxSlots : e'.maxRetainedSlots = e.maxRetainedSlots

theorem Writes.left (h : SameKeys e₁ e₂) (h' : Writes e₂ e₃ on ws) : Writes e₁ e₃ on ws :=
  ⟨h'.distinct, h.keys ▸ h'.untouched, h.keys ▸ h'.touched, h'.regId.trans h.regId,
    h'.maxBytes.trans h.maxBytes, h'.maxSlots.trans h.maxSlots⟩

theorem Writes.right (h : Writes e₁ e₂ on ws) (h' : SameKeys e₂ e₃) : Writes e₁ e₃ on ws :=
  ⟨h.distinct, h'.keys ▸ h.untouched, h'.keys ▸ h.touched, h'.regId.trans h.regId,
    h'.maxBytes.trans h.maxBytes, h'.maxSlots.trans h.maxSlots⟩

/-- What a write reserves for a key: nothing, unless the key is not bound yet. -/
def reserved (e : Env V) (key : RegistrationKey) (n : Int) : Int :=
  if (e.bound key).isNone then n else 0

variable {x : Effect V}

theorem Acts.writes {f : KeyState V → KeyState V} (h : Acts e e' (only key f))
    (htouch : KeyState.Touch on x (e.keyState key) (f (e.keyState key))) :
    Writes e e' on [(key, x)] := by
  obtain ⟨-, -, hbytes, hslots⟩ := usage_eq_iff.1 h.usage
  refine ⟨by simp, fun k hk => h.other (by simpa using hk), fun y hy => ?_, h.regId, hbytes,
    hslots⟩
  rw [List.mem_singleton.1 hy, h.self]
  exact htouch

/-- What `writeCell` does to the cell. -/
def writeValue (val : V) (canonical : Bool) (c : Cell V) : Cell V :=
  { c with v := some val, canonical := canonical, version := c.version + 1 }

theorem acts_writeCell (e : Env V) (key : RegistrationKey) (i : Nat) (val : V)
    (canonical : Bool) : Acts e (e.writeCell key i val canonical)
      (only key fun ks => ks.updateCell i (writeValue val canonical)) := by
  unfold writeCell
  dsimp only
  split
  · exact (acts_updateCell e.bumpNameGen key i (writeValue val canonical)).bumped
  · exact acts_updateCell e key i _

/-- The charge that a cell bound anew keeps when it is not on a ledger. -/
def freshRetained (charge : Charge) (bytes : Int) : Int :=
  if bytes = 0 ∨ Charge.onLedger charge then 0 else bytes

/-- What `recordFreshRetained` does to the cell. -/
def keepCharge (charge : Charge) (bytes : Int) (c : Cell V) : Cell V :=
  if bytes = 0 ∨ Charge.onLedger charge then c
  else { c with retainedMeter := charge.meter, retainedBytes := bytes }

theorem recordFreshRetained_eq (e : Env V) (charge : Charge) (key : RegistrationKey) (i : Nat)
    (bytes : Int) : e.recordFreshRetained charge key i bytes =
      e.updateCell key i (keepCharge charge bytes) := by
  unfold recordFreshRetained keepCharge
  split
  · change e = e.updateCell key i id
    simp [updateCell]
  · rfl

theorem keepCharge_spec (charge : Charge) (bytes : Int) (c : Cell V) :
    (keepCharge charge bytes c).v = c.v ∧ (keepCharge charge bytes c).canonical = c.canonical ∧
      (keepCharge charge bytes c).version = c.version ∧
      (c.retainedBytes = 0 →
        (keepCharge charge bytes c).retainedBytes = freshRetained charge bytes) := by
  unfold keepCharge freshRetained
  split
  · exact ⟨rfl, rfl, rfl, id⟩
  · exact ⟨rfl, rfl, rfl, fun _ => rfl⟩

theorem prepareFreshRetained_spec {charge : Charge} {bytes slots : Int}
    (h : e.prepareFreshRetained charge bytes slots = .ok e') :
    SameKeys e e' ∧ e'.retainedBytes = e.retainedBytes + bytes ∧
      e'.retainedSlots = e.retainedSlots + slots ∧
      (bytes = 0 ∧ slots = 0 ∨ e.reserveRetainedBindings bytes slots = .ok ()) := by
  unfold prepareFreshRetained at h
  by_cases hzero : bytes = 0 ∧ slots = 0
  · rw [if_pos hzero] at h
    cases h
    exact ⟨⟨rfl, rfl, rfl, rfl⟩, by omega, by omega, .inl hzero⟩
  · rw [if_neg hzero, Lib.except_bind_eq_ok_iff] at h
    obtain ⟨⟨⟩, hreserve, h⟩ := h
    split at h
    · rw [Lib.except_bind_eq_ok_iff] at h
      obtain ⟨_, _, h⟩ := h
      cases h
      exact ⟨⟨rfl, rfl, rfl, rfl⟩, rfl, rfl, .inr hreserve⟩
    · cases h
      exact ⟨⟨rfl, rfl, rfl, rfl⟩, rfl, rfl, .inr hreserve⟩

theorem SameKeys.on_eq (h : SameKeys e e') (via : Option Nat) : e'.on via = e.on via := by
  rw [Env.on_eq, Env.on_eq, h.regId]

theorem SameKeys.bound_eq (h : SameKeys e e') (key : RegistrationKey) :
    e'.bound key = e.bound key := by
  rw [← keyState_bound, ← keyState_bound, h.keys]

/-- The value that a cell keeps of its charge when a write of its key is accepted. -/
def keptRetained (e : Env V) (key : RegistrationKey) (charge : Charge) (bytes : Int) : Int :=
  match e.bound key with
  | some (_, c) => c.retainedBytes
  | none => freshRetained charge bytes

/-- What a write of a value does to the cell of a key: a cell made for it keeps the charge of
the new binding. -/
def writeKept (charge : Charge) (bytes : Int) (val : V) (canonical new : Bool) (c : Cell V) :
    Cell V :=
  (if new then keepCharge charge bytes else id) (writeValue val canonical c)

theorem acts_writeKept (e : Env V) (key : RegistrationKey) (i : Nat) (charge : Charge)
    (bytes : Int) (val : V) (canonical new : Bool) :
    Acts e (if new then (e.writeCell key i val canonical).recordFreshRetained charge key i bytes
        else e.writeCell key i val canonical)
      (only key fun ks => ks.updateCell i (writeKept charge bytes val canonical new)) := by
  have hwrite := acts_writeCell e key i val canonical
  cases new with
  | false => exact hwrite
  | true =>
    have hkeep := hwrite.andThen (acts_updateCell _ key i (keepCharge charge bytes))
    simp only [KeyState.updateCell, List.modify_modify_eq] at hkeep
    rw [if_pos rfl, recordFreshRetained_eq]
    exact hkeep

theorem touch_writeKept (e : Env V) (key : RegistrationKey) (charge : Charge) (bytes : Int)
    (val : V) (canonical on : Bool) :
    KeyState.Touch on ⟨some val, canonical, e.keptRetained key charge bytes, bytes⟩
      (e.keyState key)
      ((e.keyState key).put on (writeKept charge bytes val canonical (e.bound key).isNone)
        (e.reserved key bytes) (e.reserved key 1)) := by
  refine KeyState.touch_put (fun c => ?_) ?_ on
  · unfold writeKept
    split
    · exact (keepCharge_spec charge bytes _).2.2.1
    · rfl
  · rw [keyState_bound]
    unfold writeKept keptRetained
    cases e.bound key with
    | none =>
      obtain ⟨hv, hcanonical, -, hretained⟩ := keepCharge_spec charge bytes
        (writeValue val canonical emptyCell)
      exact ⟨hv, hcanonical, hretained rfl⟩
    | some b => exact ⟨rfl, rfl, rfl⟩

variable {e₂ : Env V} {f : Cell V → Cell V}

/-- A write between the two halves of its journal. -/
theorem Acts.put (h : Acts ((e.beforeWrite via key).localCell key).1 e₂
      (only key fun ks => ks.updateCell ((e.beforeWrite via key).localCell key).2 f))
    (bytes slots : Int) : Acts e (e₂.afterWrite via key bytes slots)
      (only key fun ks => ks.put (e.on via) f bytes slots) := by
  have hbefore := acts_beforeWrite e via key
  obtain ⟨hlocal, hidx⟩ := acts_localCell (e.beforeWrite via key) key
  have hwritten := (hbefore.andThen hlocal).andThen h
  have hall := hwritten.andThen (acts_afterWrite e₂ via key bytes slots)
  refine acts_only ?_ (fun k hk => hall.other hk) hall.regId hall.usage
  rw [hall.self, hwritten.on_eq, hidx, hbefore.self]
  rfl

theorem localCell_bound {i : Nat} {c : Cell V} (hb : e.bound key = some (i, c))
    (via : Option Nat) :
    (e.beforeWrite via key).localCell key = (e.beforeWrite via key, i) := by
  have hbound : (e.beforeWrite via key).bound key = some (i, c) := by
    rw [← keyState_bound, (acts_beforeWrite e via key).self]
    exact hb
  simp [localCell, hbound]

/-- Two writes of different keys, taken by turns. -/
theorem keyState_both {k₁ k₂ : RegistrationKey} (hne : k₁ ≠ k₂)
    {e e₁ e₂ e₃ e₄ e₅ e₆ e₇ e₈ : Env V} {i j : Nat} {f g : Cell V → Cell V} {b s b' s' : Int}
    (h₁ : Acts e e₁ (only k₁ fun ks => ks.record (e.on via)))
    (h₂ : Acts e₁ e₂ (only k₂ fun ks => ks.record (e₁.on via)))
    (h₃ : Acts e₂ e₃ (only k₁ fun ks => ks.localCell.1) ∧ i = (e₂.keyState k₁).localCell.2)
    (h₄ : Acts e₃ e₄ (only k₂ fun ks => ks.localCell.1) ∧ j = (e₃.keyState k₂).localCell.2)
    (h₅ : Acts e₄ e₅ (only k₁ fun ks => ks.updateCell i f))
    (h₆ : Acts e₅ e₆ (only k₂ fun ks => ks.updateCell j g))
    (h₇ : Acts e₆ e₇ (only k₁ fun ks => ks.note (e₆.on via) b s))
    (h₈ : Acts e₇ e₈ (only k₂ fun ks => ks.note (e₇.on via) b' s')) :
    (∀ k, k ≠ k₁ → k ≠ k₂ → e₈.keyState k = e.keyState k) ∧
      e₈.keyState k₁ = (e.keyState k₁).put (e.on via) f b s ∧
      e₈.keyState k₂ = (e.keyState k₂).put (e.on via) g b' s' ∧
      e₈.reg.map Registration.id = e.reg.map Registration.id ∧ e₈.usage = e.usage := by
  obtain ⟨h₃, hi⟩ := h₃
  obtain ⟨h₄, hj⟩ := h₄
  have hon₁ := h₁.on_eq via
  have hon₆ : e₆.on via = e.on via := by
    rw [h₆.on_eq, h₅.on_eq, h₄.on_eq, h₃.on_eq, h₂.on_eq, hon₁]
  refine ⟨fun k hk₁ hk₂ => ?_, ?_, ?_, ?_, ?_⟩
  · rw [h₈.other hk₂, h₇.other hk₁, h₆.other hk₂, h₅.other hk₁, h₄.other hk₂, h₃.other hk₁,
      h₂.other hk₂, h₁.other hk₁]
  · rw [h₈.other hne, h₇.self, h₆.other hne, h₅.self, h₄.other hne, h₃.self, hi, h₂.other hne,
      h₁.self, hon₆]
    rfl
  · rw [h₈.self, h₇.other hne.symm, h₆.self, h₅.other hne.symm, h₄.self, hj, h₃.other hne.symm,
      h₂.self, h₁.other hne.symm, h₇.on_eq, hon₆, hon₁]
    rfl
  · rw [h₈.regId, h₇.regId, h₆.regId, h₅.regId, h₄.regId, h₃.regId, h₂.regId, h₁.regId]
  · rw [h₈.usage, h₇.usage, h₆.usage, h₅.usage, h₄.usage, h₃.usage, h₂.usage, h₁.usage]

/-- `ReplaceCell` on a bound key. -/
structure Retires (e e' : Env V) (on : Bool) (key : RegistrationKey) (x : Effect V) : Prop where
  untouched : ∀ k, k ≠ key → e'.keyState k = e.keyState k
  retire : KeyState.Retire on x (e.keyState key) (e'.keyState key)
  regId : e'.reg.map Registration.id = e.reg.map Registration.id
  usage : e'.usage = e.usage

theorem Acts.retires {f : KeyState V → KeyState V} (h : Acts e e' (only key f))
    (hretire : KeyState.Retire on x (e.keyState key) (f (e.keyState key))) :
    Retires e e' on key x :=
  ⟨fun _ hk => h.other hk, h.self.symm ▸ hretire, h.regId, h.usage⟩

end

end Env

end Core

end Lispico
