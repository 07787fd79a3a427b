import Lispico.Core.EnvWrites
import Lispico.Lib.Tally
import Mathlib

/-!
# Retained usage counts the bindings of an environment

The usage is what is held for the bound keys: a slot each, and the bytes that writes reserved.
`Abort` gives back what the journal recorded for a binding that it takes out. The record survives
when its before-image moves to a foreign write, and a merge or `Rebuild` can change the bytes of a
binding behind it. Where neither happens, the usage stays in step with the bindings.
-/

namespace Lispico

namespace Core

open Lib List

inductive Capacity where
  | bytes
  | slots
deriving DecidableEq

namespace Capacity

variable {V : Type}

/-- What the journal has recorded for a key. -/
def recorded : Capacity → RegistrationEntry V → Int
  | .bytes, ent => ent.bytes
  | .slots, ent => ent.slots

/-- What a write reserves for a new binding. -/
def reserve : Capacity → Effect V → Int
  | .bytes, x => x.bytes
  | .slots, _ => 1

def used : Capacity → Env V → Int
  | .bytes, e => e.retainedBytes
  | .slots, e => e.retainedSlots

variable (cap : Capacity) (ent : RegistrationEntry V) (i ver : Nat)

theorem recorded_before (cur : Option (Nat × Cell V)) :
    cap.recorded (ent.before cur) = cap.recorded ent := by
  cases cap <;> rfl

theorem recorded_mark_zero : cap.recorded (ent.mark i ver 0 0) = cap.recorded ent := by
  cases cap <;> rfl

theorem recorded_mark_fresh (x : Effect V) :
    cap.recorded (ent.mark i ver x.bytes 1) = cap.reserve x := by
  have hmark : ent.mark i ver x.bytes 1 =
      { ent with last := some i, lastVer := ver, bytes := x.bytes, slots := 1 } :=
    if_pos (.inr (by decide))
  rw [hmark]
  cases cap <;> rfl

end Capacity

section

variable {V : Type} {ent : RegistrationEntry V} {cap : Capacity} {held held' : Int}

namespace KeyState

def slot (ks : KeyState V) : Int := if ks.bind.isSome then 1 else 0

/-- The operation made the binding, and no foreign write has touched it. -/
def made (ks : KeyState V) : Bool := ks.owned && ks.entry.any fun ent => ent.prior.isNone

/-- A key for which so much is held. The journal has recorded that much for a binding that the
operation made, and nothing for one that `Abort` would bring back in another cell. -/
structure Sound (cap : Capacity) (held : Int) (ks : KeyState V) : Prop where
  bind_lt : ∀ i, ks.bind = some i → i < ks.cells.length
  last_ok : ∀ ent i, ks.entry = some ent → ent.last = some i →
    ∃ c, ks.cells[i]? = some c ∧ ent.lastVer ≤ c.version
  prior_lt : ∀ ent p, ks.entry = some ent → ent.prior = some p → p < ks.cells.length
  created : ∀ ent, ks.entry = some ent → ks.owned = true → ent.prior = none →
    cap.recorded ent = held
  replaced : ∀ ent p, ks.entry = some ent → ent.prior = some p → ent.last ≠ some p →
    cap.recorded ent = 0
  unbound : ks.bind = none → held = 0
  slot_eq : cap = .slots → held = ks.slot

variable {ks ks' : KeyState V} {i : Nat} {c : Cell V} {on : Bool} {x : Effect V}

theorem slot_of_bound (h : ks.bound = some (i, c)) : ks.slot = 1 := by
  simp [slot, (bind_of_bound h).1]

theorem made_iff (hentry : ks.entry = some ent) :
    ks.made = true ↔ ks.owned = true ∧ ent.prior = none := by
  simp [made, hentry]

/-- A key without a journal entry. -/
theorem sound_of_no_entry (hbind : ∀ i, ks.bind = some i → i < ks.cells.length)
    (hentry : ks.entry = none) (hunbound : ks.bind = none → held = 0)
    (hslot : cap = .slots → held = ks.slot) : ks.Sound cap held := by
  have hno : ∀ ent, ks.entry ≠ some ent := by
    intro ent
    rw [hentry]
    exact Option.some_ne_none ent ∘ Eq.symm
  exact ⟨hbind, fun ent _ h => absurd h (hno ent), fun ent _ h => absurd h (hno ent),
    fun ent h => absurd h (hno ent), fun ent _ h => absurd h (hno ent), hunbound, hslot⟩

variable (h : ks.Sound cap held)

include h

theorem Sound.bind_none (hbound : ks.bound = none) : ks.bind = none := by
  cases hbind : ks.bind with
  | none => rfl
  | some i =>
    have hi := h.bind_lt i hbind
    simp [bound, hbind, hi] at hbound

/-- A foreign write takes the key from the operation, whatever is held for it then. -/
theorem Sound.host (hplaced : Placed false x ks ks') (hslot : cap = .slots → held' = 1) :
    ks'.Sound cap held' := by
  cases hplaced with
  | @mk cells i c hcell hx hlen hversions hmoved bytes slots =>
    have hunowned := journaled_unowned h.last_ok hcell hmoved bytes slots
    refine ⟨fun j hj => ?_, fun ent j hent hj => ?_, fun ent p hent hp => ?_,
      fun ent _ howned => ?_, h.replaced, fun hnone => ?_, hslot⟩
    · cases hj
      exact (List.getElem?_eq_some_iff.1 hcell).1
    · obtain ⟨d, hd, hle⟩ := h.last_ok ent j hent hj
      obtain ⟨d', hd', hle'⟩ := hversions j d hd
      exact ⟨d', hd', hle.trans hle'⟩
    · exact (h.prior_lt ent p hent hp).trans_le hlen
    · rw [hunowned] at howned
      cases howned
    · cases hnone

/-- A write of the operation, by what its entry has then recorded. -/
theorem Sound.op {cells : List (Cell V)} {bytes slots : Int} (hcell : cells[i]? = some c)
    (hlen : ks.cells.length ≤ cells.length)
    (hcreated : ks.recorded.prior = none →
      cap.recorded (ks.recorded.mark i c.version bytes slots) = held')
    (hreplaced : ∀ p, ks.recorded.prior = some p → p ≠ i →
      cap.recorded (ks.recorded.mark i c.version bytes slots) = 0)
    (hslot : cap = .slots → held' = 1) :
    (ks.journaled true cells i bytes slots).Sound cap held' := by
  obtain ⟨hprior, -, -, hlast, hver⟩ := ks.recorded.mark_spec i c.version bytes slots
  have hent : ∀ ent, (ks.journaled true cells i bytes slots).entry = some ent →
      ent = ks.recorded.mark i c.version bytes slots := by
    intro ent hent
    simp only [journaled, hcell, if_true, Option.map_some, Option.getD_some] at hent
    exact (Option.some.inj hent).symm
  refine ⟨fun j hj => ?_, fun ent j hentry hj => ?_, fun ent p hentry hp => ?_,
    fun ent hentry _ hp => ?_, fun ent p hentry hp hne => ?_, fun hnone => ?_, hslot⟩
  · cases hj
    exact (List.getElem?_eq_some_iff.1 hcell).1
  · rw [hent ent hentry, hlast] at hj
    cases hj
    exact ⟨c, hcell, by rw [hent ent hentry, hver]⟩
  · rw [hent ent hentry, hprior] at hp
    exact (recorded_prior_lt h.prior_lt hp).trans_le hlen
  · rw [hent ent hentry, hprior] at hp
    rw [hent ent hentry]
    exact hcreated hp
  · rw [hent ent hentry, hlast] at hne
    rw [hent ent hentry, hprior] at hp
    rw [hent ent hentry]
    exact hreplaced p hp fun hpi => hne (congrArg some hpi.symm)
  · cases hnone

theorem Sound.touch (htouch : Touch on x ks ks')
    (hfresh : ks.bound = none → held' = cap.reserve x)
    (hkept : on = true → ks.made = true → held' = held) (hslot : cap = .slots → held' = 1) :
    ks'.Sound cap held' := by
  cases on with
  | false => exact h.host htouch.placed hslot
  | true =>
    cases htouch with
    | @inPlace i c c' hbound hx hversion =>
      -- The operation wrote the key last, or its entry now restores the cell in place.
      refine h.op (c := c') (by simp [lt_of_bound hbound]) (by simp) (fun hp => ?_)
        (fun p hp hne => ?_) hslot
      · rw [cap.recorded_mark_zero]
        rcases ks.recorded_cases with ⟨ent, hentry, howned, hrec⟩ | ⟨-, ent, -, hrec⟩
        · rw [hrec] at hp ⊢
          rw [hkept rfl ((made_iff hentry).2 ⟨howned, hp⟩)]
          exact h.created ent hentry howned hp
        · rw [hrec, hbound] at hp
          cases hp
      · rw [cap.recorded_mark_zero]
        rcases ks.recorded_cases with ⟨ent, hentry, howned, hrec⟩ | ⟨-, ent, -, hrec⟩
        · obtain ⟨hlast, -⟩ := (owned_iff hentry hbound).1 howned
          rw [hrec] at hp ⊢
          refine h.replaced ent p hentry hp fun heq => hne ?_
          exact Option.some.inj (heq.symm.trans hlast)
        · rw [hrec, hbound] at hp
          exact absurd (Option.some.inj hp).symm hne
    | @fresh c' hbound hx =>
      have hprior : ks.recorded.prior = none := by
        rcases ks.recorded_cases with ⟨ent, -, howned, -⟩ | ⟨-, ent, -, hrec⟩
        · rw [owned_of_bound_none hbound] at howned
          cases howned
        · rw [hrec, hbound]
          rfl
      refine h.op (c := c') (by simp) (by simp) (fun _ => ?_) (fun p hp _ => ?_) hslot
      · rw [cap.recorded_mark_fresh, hfresh hbound]
      · rw [hprior] at hp
        cases hp

omit h in
/-- A new cell in the place of the bound one does not turn what the journal has recorded into the
capacity of a binding that stays. -/
def cleanRetire (ks : KeyState V) : Bool :=
  ks.made || ks.entry.all fun ent => ent.bytes == 0 && ent.slots == 0

omit h in
theorem recorded_of_clean (hclean : ks.cleanRetire = true) (hnot : ks.made = false)
    (cap : Capacity) : cap.recorded ks.recorded = 0 := by
  have hzero : ∀ ent, ks.entry = some ent → cap.recorded ent = 0 := by
    intro ent hentry
    simp only [cleanRetire, hnot, Bool.false_or, hentry, Option.all_some, Bool.and_eq_true,
      beq_iff_eq] at hclean
    cases cap with
    | bytes => exact hclean.1
    | slots => exact hclean.2
  rcases ks.recorded_cases with ⟨ent, hentry, -, hrec⟩ | ⟨-, ent, hentry, hrec⟩
  · rw [hrec, hzero ent hentry]
  · rw [hrec, cap.recorded_before]
    rcases hentry with hentry | ⟨-, hbytes, hslots⟩
    · exact hzero ent hentry
    · cases cap with
      | bytes => exact hbytes
      | slots => exact hslots

theorem Sound.retire (hretire : Retire on x ks ks')
    (hclean : on = true → ks.cleanRetire = true) : ks'.Sound cap held := by
  have hslot : cap = .slots → held = 1 := by
    intro hcap
    cases hretire with
    | retire hbound hold hcharge hx => rw [h.slot_eq hcap, slot_of_bound hbound]
  cases on with
  | false => exact h.host hretire.placed hslot
  | true =>
    cases hretire with
    | @retire i c c' old hbound hold hcharge hx =>
      refine h.op (c := c') (by simp) (by simp) (fun hp => ?_) (fun p hp _ => ?_) hslot
      · rw [cap.recorded_mark_zero]
        rcases ks.recorded_cases with ⟨ent, hentry, howned, hrec⟩ | ⟨-, ent, -, hrec⟩
        · rw [hrec] at hp ⊢
          exact h.created ent hentry howned hp
        · rw [hrec, hbound] at hp
          cases hp
      · rw [cap.recorded_mark_zero]
        refine recorded_of_clean (hclean rfl) ?_ cap
        rcases ks.recorded_cases with ⟨ent, hentry, -, hrec⟩ | ⟨howned, -⟩
        · rw [hrec] at hp
          simp [made, hentry, hp]
        · simp [made, howned]

omit h in
/-- What `Abort` takes back for a key. -/
def refund (cap : Capacity) (ks : KeyState V) : Int :=
  match ks.entry, ks.bound with
  | some ent, some (i, c) =>
    if Registration.owns ent i c && ent.prior != some i then cap.recorded ent else 0
  | _, _ => 0

omit h in
theorem aborted_of_unbound (hbound : ks.bound = none) : ks.aborted.bind = ks.bind := by
  unfold aborted undo
  rw [hbound]
  cases ks.entry <;> rfl

/-- `Abort` takes back exactly what is held for a binding that it takes out, and nothing for one
that stays. -/
theorem Sound.aborted : ks.aborted.Sound cap (held - ks.refund cap) ∧
    (ks.aborted.bind.isSome → held - ks.refund cap = held) := by
  cases hentry : ks.entry with
  | none =>
    have hsame : ks.aborted = ks := by
      unfold KeyState.aborted
      rw [hentry]
      cases ks
      exact congrArg _ hentry.symm
    have hzero : ks.refund cap = 0 := by simp [refund, hentry]
    rw [hsame, hzero, sub_zero]
    exact ⟨h, fun _ => rfl⟩
  | some ent =>
    unfold KeyState.aborted KeyState.undo refund
    rw [hentry]
    cases hbound : ks.bound with
    | none =>
      rw [sub_zero]
      exact ⟨sound_of_no_entry h.bind_lt rfl h.unbound h.slot_eq, fun _ => rfl⟩
    | some b =>
      obtain ⟨i, c⟩ := b
      dsimp only
      by_cases howns : Registration.owns ent i c = true
      · have howned : ks.owned = true := by simp [owned, hentry, hbound, howns]
        obtain ⟨hlast, -⟩ := (owned_iff hentry hbound).1 howned
        rw [howns]
        cases hprior : ent.prior with
        | none =>
          have hheld := h.created ent hentry howned hprior
          simp only [Bool.not_true, Bool.false_eq_true, if_false]
          refine ⟨sound_of_no_entry ?_ rfl ?_ ?_, ?_⟩ <;> simp [hheld, slot]
        | some p =>
          by_cases hpi : p = i
          · subst hpi
            simp only [Bool.not_true, Bool.false_eq_true, if_false, if_true, bne_self_eq_false,
              Bool.and_false, sub_zero]
            exact ⟨sound_of_no_entry (by simpa using h.bind_lt) rfl h.unbound h.slot_eq,
              fun _ => trivial⟩
          · have hzero : cap.recorded ent = 0 := h.replaced ent p hentry hprior fun heq =>
              hpi (Option.some.inj (heq.symm.trans hlast))
            have hslot : cap = .slots → held = 1 := fun hcap =>
              (h.slot_eq hcap).trans (slot_of_bound hbound)
            simp only [Bool.not_true, Bool.false_eq_true, if_false, if_neg hpi, hzero, ite_self,
              sub_zero]
            refine ⟨sound_of_no_entry (fun j hj => ?_) rfl (fun hnone => ?_) hslot,
              fun _ => trivial⟩
            · cases hj
              simpa using h.prior_lt ent p hentry hprior
            · cases hnone
      · simp only [howns, Bool.not_false, if_true, Bool.false_and, Bool.false_eq_true, if_false,
          sub_zero]
        exact ⟨sound_of_no_entry h.bind_lt rfl h.unbound h.slot_eq, fun _ => trivial⟩

theorem Sound.rebuilt (hmade : ∀ ent, ks.entry = some ent → ks.made = true →
      cap.recorded ent = held')
    (hdropped : ks.rebuilt.bind = none → held' = 0)
    (hslot : cap = .slots → held' = ks.rebuilt.slot) : ks.rebuilt.Sound cap held' := by
  refine ⟨fun i hi => h.bind_lt i (Option.eq_some_of_filter_eq_some hi), h.last_ok, h.prior_lt,
    fun ent hentry howned hp => ?_, h.replaced, hdropped, hslot⟩
  have hentry : ks.entry = some ent := hentry
  refine hmade ent hentry ((made_iff hentry).2 ⟨?_, hp⟩)
  rw [rebuilt_eq] at howned
  split at howned
  · exact howned
  · rw [owned_of_bound_none rfl] at howned
    cases howned

theorem Sound.ended : Sound cap held { ks with entry := none } :=
  sound_of_no_entry h.bind_lt rfl h.unbound h.slot_eq

end KeyState

end

namespace Env

section

variable {V : Type}

def retainedUsage (e : Env V) : Int × Int := (e.retainedBytes, e.retainedSlots)

def varCells (e : Env V) : Nat := (e.binds.entries.filter fun x => !x.1.fn).length

def funcCells (e : Env V) : Nat := (e.binds.entries.filter fun x => x.1.fn).length

variable (e : Env V)

theorem slot_eq_quantity : (fun k => (e.keyState k).slot) = quantity e.binds fun _ _ => 1 := by
  funext k
  unfold KeyState.slot quantity keyState
  cases e.binds.lookup k <;> rfl

theorem slot_finite : (Function.support fun k => (e.keyState k).slot).Finite := by
  rw [slot_eq_quantity]
  exact quantity_finite _ _

theorem tally_slot : tally (fun k => (e.keyState k).slot) = e.binds.entries.length := by
  rw [slot_eq_quantity, tally_quantity]
  simp

theorem varCells_add_funcCells : e.varCells + e.funcCells = e.binds.entries.length := by
  have hsplit := length_eq_length_filter_add (fun x : Sigma fun _ => Nat => x.1.fn)
    (l := e.binds.entries)
  unfold varCells funcCells
  omega

/-- The usage is what is held for the keys. -/
structure Counts (cap : Capacity) (held : RegistrationKey → Int) (e : Env V) : Prop where
  keys : ∀ k, (e.keyState k).Sound cap (held k)
  count : cap.used e = tally held

/-- The slots are those of the bound keys. -/
abbrev SlotsSound (e : Env V) : Prop := Counts .slots (fun k => (e.keyState k).slot) e

variable {e e' : Env V} {cap : Capacity} {held held' : RegistrationKey → Int}

theorem Counts.congr (h : Counts cap held e) (heq : ∀ k, held' k = held k) :
    Counts cap held' e := by
  rwa [funext heq]

variable (h : Counts cap held e) {on : Bool}

include h

theorem Counts.zero {k : RegistrationKey} (hk : k ∉ e.binds.keys) : held k = 0 :=
  (h.keys k).unbound (AList.lookup_eq_none.2 (by rwa [AList.mem_keys]))

theorem Counts.finite : (Function.support held).Finite := by
  refine e.binds.keys.toFinset.finite_toSet.subset fun k hk => ?_
  rw [Finset.mem_coe, mem_toFinset]
  by_contra hnot
  exact hk (h.zero hnot)

theorem Counts.used_eq : cap.used e = (e.binds.keys.map held).sum := by
  rw [h.count, tally_eq_sum e.binds.keys_nodup fun k hk => h.zero hk]

theorem Counts.slot_eq (hcap : cap = .slots) (k : RegistrationKey) :
    held k = (e.keyState k).slot := (h.keys k).slot_eq hcap

theorem Counts.writes {ws : List (RegistrationKey × Effect V)} (hwrites : Writes e e' on ws)
    (hother : ∀ k ∉ ws.map Prod.fst, held' k = held k)
    (hfresh : ∀ x ∈ ws, e.bound x.1 = none → held' x.1 = cap.reserve x.2)
    (hkept : on = true → ∀ x ∈ ws, (e.keyState x.1).made = true → held' x.1 = held x.1)
    (hslot : cap = .slots → ∀ x ∈ ws, held' x.1 = 1)
    (hused : cap.used e' = cap.used e + (ws.map fun x => held' x.1 - held x.1).sum) :
    Counts cap held' e' := by
  refine ⟨fun k => ?_, ?_⟩
  · by_cases hk : k ∈ ws.map Prod.fst
    · obtain ⟨x, hx, rfl⟩ := mem_map.1 hk
      exact (h.keys x.1).touch (hwrites.touched x hx) (hfresh x hx) (fun hon => hkept hon x hx)
        fun hcap => hslot hcap x hx
    · rw [hwrites.untouched k hk, hother k hk]
      exact h.keys k
  · rw [hused, h.count, tally_eq_add hwrites.distinct h.finite hother, map_map]
    rfl

omit h in
theorem Counts.slotsSound (h : Counts .slots held e) : e.SlotsSound :=
  h.congr fun k => (h.slot_eq rfl k).symm

theorem Counts.zero_of_unbound {k : RegistrationKey} (hb : e.bound k = none) : held k = 0 :=
  (h.keys k).unbound ((h.keys k).bind_none hb)

omit h in
theorem made_bound {k : RegistrationKey} (hmade : (e.keyState k).made = true) :
    (e.bound k).isSome = true := by
  by_contra hnone
  have hnone : (e.keyState k).bound = none := by simpa using hnone
  have howned := KeyState.owned_of_bound_none hnone
  simp [KeyState.made, howned] at hmade

omit h in
theorem slot_eq_ite (e : Env V) (h : e.SlotsSound) (k : RegistrationKey) :
    (e.keyState k).slot = if (e.bound k).isSome then 1 else 0 := by
  cases hb : e.bound k with
  | none => exact h.zero_of_unbound hb
  | some b => exact KeyState.slot_of_bound ((e.keyState_bound k).trans hb)

omit h in
theorem SlotsSound.writes (h : e.SlotsSound) {ws : List (RegistrationKey × Effect V)}
    (hwrites : Writes e e' on ws)
    (hslots : e'.retainedSlots = e.retainedSlots + (ws.map fun x => e.reserved x.1 1).sum) :
    e'.SlotsSound := by
  have hone : ∀ x ∈ ws, (e'.keyState x.1).slot = 1 := by
    intro x hx
    obtain ⟨i, c, hb, -⟩ := (hwrites.touched x hx).placed.bound
    exact KeyState.slot_of_bound hb
  refine Counts.writes h hwrites (fun k hk => by rw [hwrites.untouched k hk])
    (fun x hx _ => hone x hx) (fun _ x hx hmade => ?_) (fun _ => hone) ?_
  · rw [hone x hx, slot_eq_ite e h, if_pos (made_bound hmade)]
  · refine hslots.trans (congrArg (e.retainedSlots + List.sum ·) (map_congr_left fun x hx => ?_))
    rw [hone x hx, slot_eq_ite e h, reserved]
    cases e.bound x.1 <;> rfl

theorem Counts.retires {key : RegistrationKey} {x : Effect V}
    (hclean : on = true → (e.keyState key).cleanRetire = true)
    (hretires : Retires e e' on key x) : Counts cap held e' := by
  refine ⟨fun k => ?_, ?_⟩
  · by_cases hk : k = key
    · rw [hk]
      exact (h.keys key).retire hretires.retire hclean
    · rw [hretires.untouched k hk]
      exact h.keys k
  · obtain ⟨hbytes, hslots, -⟩ := usage_eq_iff.1 hretires.usage
    cases cap with
    | bytes => exact hbytes.trans h.count
    | slots => exact hslots.trans h.count

theorem Counts.ended (hused : cap.used e' = cap.used e)
    (hkeys : ∀ k, e'.keyState k = { e.keyState k with entry := none }) : Counts cap held e' := by
  refine ⟨fun k => ?_, hused.trans h.count⟩
  rw [hkeys]
  exact (h.keys k).ended

theorem Counts.complete (id : Nat) : Counts cap held (e.complete id) := by
  by_cases hid : ∃ r, e.reg = some r ∧ r.id = id
  · obtain ⟨r, hreg, rfl⟩ := hid
    refine h.ended ?_ (complete_keyState hreg)
    unfold Env.complete
    split <;> cases cap <;> rfl
  · rwa [complete_of_ne fun r hreg heq => hid ⟨r, hreg, heq⟩]

theorem Counts.beginRegistration (hbegin : e.beginRegistration = .ok e') :
    Counts cap held e' := by
  unfold Env.beginRegistration at hbegin
  cases hreg : e.reg with
  | some r =>
    rw [hreg] at hbegin
    cases hbegin
  | none =>
    rw [hreg] at hbegin
    cases hbegin
    refine h.ended (by cases cap <;> rfl) fun k => ?_
    simp [keyState]

theorem Counts.deleteKey (via : Option Nat) (key : RegistrationKey) :
    Counts cap held (e.deleteKey via key) := by
  obtain ⟨husage, ⟨i, c, hb, -, hwrites⟩ | ⟨heq, -⟩⟩ := deleteKey_spec e via key
  · obtain ⟨hbytes, hslots, -⟩ := usage_eq_iff.1 husage
    refine h.writes hwrites (fun _ _ => rfl) (fun x hx hnone => ?_) (fun _ _ _ _ => rfl)
      (fun hcap x hx => ?_) ?_
    · rw [mem_singleton.1 hx, hb] at hnone
      cases hnone
    · rw [mem_singleton.1 hx, h.slot_eq hcap]
      exact KeyState.slot_of_bound ((e.keyState_bound key).trans hb)
    · cases cap with
      | bytes => simpa [Capacity.used] using hbytes
      | slots => simpa [Capacity.used] using hslots
  · rwa [heq]

omit h in
theorem abortEntry_used (cap : Capacity) (st : Aborting V) (key : RegistrationKey)
    {ent : RegistrationEntry V} (hentry : (st.root.keyState key).entry = some ent) :
    cap.used (abortEntry st key ent).root =
      cap.used st.root - (st.root.keyState key).refund cap := by
  unfold abortEntry KeyState.refund
  rw [hentry, keyState_bound]
  cases st.root.bound key with
  | none => simp
  | some b =>
    dsimp only
    split
    · rename_i howns
      simp_all
    · rename_i howns
      cases hprior : ent.prior with
      | none => cases cap <;> simp_all [withdraw, updateCell, Capacity.used, Capacity.recorded]
      | some p =>
        dsimp only
        split <;> cases cap <;>
          simp_all [withdraw, updateCell, Capacity.used, Capacity.recorded]

omit h in
theorem abortEntries_used (cap : Capacity)
    (xs : List (Sigma fun _ : RegistrationKey => RegistrationEntry V))
    (hdistinct : xs.NodupKeys) (st : Aborting V)
    (hentries : ∀ x ∈ xs, (st.root.keyState x.1).entry = some x.2) :
    cap.used (xs.foldl (fun st x => abortEntry st x.1 x.2) st).root =
      cap.used st.root + (xs.map fun x => -(st.root.keyState x.1).refund cap).sum := by
  induction xs generalizing st with
  | nil => simp
  | cons x xs ih =>
    rw [nodupKeys_cons] at hdistinct
    have hother : ∀ y ∈ xs, (abortEntry st x.1 x.2).root.keyState y.1 = st.root.keyState y.1 := by
      intro y hy
      refine abortEntry_keyState_ne st x.2 fun heq => hdistinct.1 ?_
      rw [← heq]
      exact mem_map_of_mem hy
    rw [foldl_cons, ih hdistinct.2 _ fun y hy => by
      rw [hother y hy]
      exact hentries y (.tail _ hy)]
    rw [abortEntry_used cap st x.1 (hentries x (.head _)), map_cons, sum_cons,
      map_congr_left fun y hy => by rw [hother y hy]]
    omega

theorem Counts.abort {r : Registration V} (hreg : e.reg = some r) :
    Counts cap (fun k => held k - (e.keyState k).refund cap) (e.abort r.id).1 := by
  have hentry : ∀ x ∈ r.entries.entries, (e.keyState x.1).entry = some x.2 := by
    intro x hx
    simp only [keyState, hreg, Option.bind_some]
    exact mem_dlookup r.entries.nodupKeys hx
  refine ⟨fun k => ?_, ?_⟩
  · rw [abort_keyState hreg]
    exact (h.keys k).aborted.1
  · have hloop := abortEntries_used cap r.entries.entries r.entries.nodupKeys ⟨e, false, []⟩ hentry
    have hnone : ∀ k ∉ r.entries.keys, held k - (e.keyState k).refund cap = held k := by
      intro k hk
      have hno : (e.keyState k).entry = none := by
        simp only [keyState, hreg, Option.bind_some]
        exact AList.lookup_eq_none.2 (by rwa [AList.mem_keys])
      simp [KeyState.refund, hno]
    rw [tally_eq_add r.entries.keys_nodup h.finite hnone, ← h.count]
    have hsum : (r.entries.keys.map fun k => held k - (e.keyState k).refund cap - held k).sum =
        (r.entries.entries.map fun x => -(e.keyState x.1).refund cap).sum := by
      rw [AList.keys, List.keys, map_map]
      exact congrArg List.sum (map_congr_left fun x _ => by simp)
    rw [hsum, ← hloop]
    unfold Env.abort
    rw [hreg]
    dsimp only
    rw [if_neg (by simp)]
    unfold AList.foldl
    split <;> cases cap <;> rfl

omit h in
theorem counts_new (cap : Capacity) (maxBytes maxSlots : Int) :
    Counts cap (fun _ => 0) (newEnvWithRetainedLimits maxBytes maxSlots : Env V) := by
  refine ⟨fun k => KeyState.sound_of_no_entry ?_ rfl (fun _ => rfl) fun _ => rfl, ?_⟩
  · intro i hi
    cases hi
  · rw [tally, finsum_zero]
    cases cap <;> rfl

variable [ValueShallowBytes V]

/-- What is held after a write that neither merges nor rebuilds: what the write has reserved for a
key that it bound, and what was held for the other bound keys. -/
def kept (cap : Capacity) (held : RegistrationKey → Int) (e e' : Env V) (k : RegistrationKey) :
    Int :=
  match cap, e'.bound k with
  | .slots, _ => (e'.keyState k).slot
  | .bytes, none => 0
  | .bytes, some (_, c) =>
    if (e.bound k).isSome then held k else (c.v.map (retainedBindingBytes k.name)).getD 0

omit h in
/-- A write that binds no key. -/
theorem Counts.kept_of_bound (h' : Counts cap held' e')
    (hbound : ∀ k, (e'.bound k).isSome → (e.bound k).isSome ∧ held' k = held k) :
    Counts cap (kept cap held e e') e' := by
  cases cap with
  | slots => exact h'.slotsSound
  | bytes =>
    refine h'.congr fun k => ?_
    unfold kept
    cases hb : e'.bound k with
    | none => exact (h'.zero_of_unbound hb).symm
    | some b =>
      obtain ⟨hsome, hheld⟩ := hbound k (by simp [hb])
      simp only [hsome, if_true, hheld]

theorem Counts.kept_self : Counts cap (kept cap held e e) e :=
  kept_of_bound h fun _ hb => ⟨hb, rfl⟩

/-- Writes of values, with the usage that they reserve for the keys they bind. -/
theorem Counts.kept_writes {ws : List (RegistrationKey × Effect V)} (hwrites : Writes e e' on ws)
    (hval : ∀ x ∈ ws, ∃ val, x.2.v = some val ∧ x.2.bytes = retainedBindingBytes x.1.name val)
    (hused : cap.used e' = cap.used e + (ws.map fun x => e.reserved x.1 (cap.reserve x.2)).sum) :
    Counts cap (kept cap held e e') e' := by
  cases cap with
  | slots => exact h.slotsSound.writes hwrites hused
  | bytes =>
    have hnew : ∀ x ∈ ws, kept .bytes held e e' x.1 =
        if (e.bound x.1).isSome then held x.1 else x.2.bytes := by
      intro x hx
      obtain ⟨val, hv, hbytes⟩ := hval x hx
      obtain ⟨i, c, hb, hcell⟩ := (hwrites.touched x hx).placed.bound
      rw [keyState_bound] at hb
      simp only [kept, hb, hcell.1, hv, Option.map_some, Option.getD_some, hbytes]
    refine h.writes hwrites (fun k hk => ?_) (fun x hx hnone => ?_) (fun _ x hx hmade => ?_)
      (fun hcap => by cases hcap) ?_
    · have hb : e'.bound k = e.bound k := congrArg KeyState.bound (hwrites.untouched k hk)
      unfold kept
      rw [hb]
      cases hold : e.bound k with
      | none => exact (h.zero_of_unbound hold).symm
      | some b => rfl
    · rw [hnew x hx, hnone]
      rfl
    · rw [hnew x hx, if_pos (made_bound hmade)]
    · refine hused.trans (congrArg (e.retainedBytes + List.sum ·) (map_congr_left fun x hx => ?_))
      rw [hnew x hx, reserved]
      cases hold : e.bound x.1 with
      | none => simp [h.zero_of_unbound hold, Capacity.reserve]
      | some b => simp

/-- What is held after a merge: a binding changes by the difference of the charges. -/
def merged (cap : Capacity) (held : RegistrationKey → Int) (e e' : Env V) (k : RegistrationKey) :
    Int :=
  match cap with
  | .slots => (e'.keyState k).slot
  | .bytes => held k + ((e'.keyState k).charge - (e.keyState k).charge)

omit [ValueShallowBytes V] in
theorem Counts.merged_writes {ws : List (RegistrationKey × Effect V)}
    (hwrites : Writes e e' on ws) (hcopied : ∀ x ∈ ws, x.2.retained = x.2.bytes)
    (hclean : on = true → ∀ x ∈ ws, (e.keyState x.1).made = true →
      x.2.retained = (e.keyState x.1).charge)
    (hbytes : e'.retainedBytes =
      e.retainedBytes + (ws.map fun x => x.2.retained - (e.keyState x.1).charge).sum)
    (hslots : e'.retainedSlots = e.retainedSlots + (ws.map fun x => e.reserved x.1 1).sum) :
    Counts cap (merged cap held e e') e' := by
  cases cap with
  | slots => exact h.slotsSound.writes hwrites hslots
  | bytes =>
    have hcharge : ∀ x ∈ ws, (e'.keyState x.1).charge = x.2.retained := fun x hx =>
      (hwrites.touched x hx).placed.charge_eq
    refine h.writes hwrites (fun k hk => ?_) (fun x hx hnone => ?_) (fun hon x hx hmade => ?_)
      (fun hcap => by cases hcap) ?_
    · simp [merged, hwrites.untouched k hk]
    · have hnothing : (e.keyState x.1).charge = 0 := by simp [KeyState.charge, hnone]
      simp [merged, h.zero_of_unbound hnone, hnothing, hcharge x hx, hcopied x hx,
        Capacity.reserve]
    · simp [merged, hcharge x hx, hclean hon x hx hmade]
    · refine hbytes.trans (congrArg (e.retainedBytes + List.sum ·) (map_congr_left fun x hx => ?_))
      simp [merged, hcharge x hx]

/-- What `Rebuild` counts for a key. -/
def rebuiltFor (cap : Capacity) (e : Env V) (k : RegistrationKey) : Int :=
  match cap with
  | .slots => (e.rebuild.env.keyState k).slot
  | .bytes => quantity e.binds (fun k i => (e.rebuiltBytes k i).getD 0) k

omit h [ValueShallowBytes V] in
theorem sum_filterMap {α : Type} (f : α → Option Int) (l : List α) :
    (l.filterMap f).sum = (l.map fun a => (f a).getD 0).sum := by
  induction l with
  | nil => rfl
  | cons a l ih => cases hf : f a <;> simp [hf, ih]

theorem Counts.rebuild (hclean : ∀ k i ent, e.binds.lookup k = some i →
      (e.keyState k).entry = some ent → (e.keyState k).made = true →
        e.rebuiltBytes k i = some ent.bytes) :
    Counts cap (e.rebuiltFor cap) e.rebuild.env := by
  refine ⟨fun k => ?_, ?_⟩
  · have hk := rebuild_keyState e k
    rw [hk]
    refine (h.keys k).rebuilt (fun ent hentry hmade => ?_) (fun hdropped => ?_) (fun hcap => ?_)
    · obtain ⟨howned, hprior⟩ := (KeyState.made_iff hentry).1 hmade
      obtain ⟨⟨i, c⟩, hb⟩ : ∃ b, (e.keyState k).bound = some b := by
        refine Option.ne_none_iff_exists'.1 fun hnone => ?_
        rw [KeyState.owned_of_bound_none hnone] at howned
        cases howned
      cases cap with
      | bytes =>
        have hlook : e.binds.lookup k = some i := (KeyState.bind_of_bound hb).1
        simp [rebuiltFor, quantity, hlook, hclean k i ent hlook hentry hmade, Capacity.recorded]
      | slots =>
        rw [(h.keys k).created ent hentry howned hprior, h.slot_eq rfl, rebuiltFor, hk,
          KeyState.rebuilt_eq, howned, Bool.or_true, if_pos rfl]
    · cases cap with
      | slots => simp [rebuiltFor, hk, KeyState.slot, hdropped]
      | bytes =>
        have hdropped :
            (e.binds.lookup k).filter (fun i => (e.rebuiltBytes k i).isSome) = none := by
          rw [← Keyed.lookup_keep e.binds fun k i => (e.rebuiltBytes k i).isSome]
          exact (congrArg KeyState.bind hk).trans hdropped
        unfold rebuiltFor quantity
        cases hlook : e.binds.lookup k with
        | none => rfl
        | some i =>
          have hnone : e.rebuiltBytes k i = none := by simpa [hlook] using hdropped
          simp [hnone]
    · rw [hcap, rebuiltFor, hk]
  · cases cap with
    | slots => exact (tally_slot e.rebuild.env).symm
    | bytes =>
      have hsum := tally_quantity e.binds fun k i => (e.rebuiltBytes k i).getD 0
      rw [← sum_filterMap] at hsum
      exact hsum.symm

/-- The writes that keep the usage in step with the bindings. An operation that binds a new cell
under a bound name has recorded nothing for it, or has made the binding itself. The bytes of a
binding that the running operation made are changed neither by a merge through its view nor by
`Rebuild`. -/
def cleanWrite (e : Env V) : Write V → Bool
  | .replaceCell via name _ _ =>
    !e.on via || (e.bound ⟨name, false⟩).isNone || (e.keyState ⟨name, false⟩).cleanRetire
  | .mergeInto src via _ => !e.on via || src.liveBindings.all fun x =>
    !(e.keyState x.1).made || x.2.retainedBytes == (e.keyState x.1).charge
  | .rebuild => e.binds.entries.all fun x => !(e.keyState x.1).made ||
    e.rebuiltBytes x.1 x.2 == (e.keyState x.1).entry.map RegistrationEntry.bytes
  | _ => true

/-- What is held for the keys after a write, by what was held before. -/
def heldAfter (cap : Capacity) (held : RegistrationKey → Int) (e : Env V) (w : Write V) :
    RegistrationKey → Int :=
  match w with
  | .mergeInto _ _ _ => merged cap held e (w.apply e)
  | .rebuild => e.rebuiltFor cap
  | _ => kept cap held e (w.apply e)

theorem Counts.setSpec {via : Option Nat} {key : RegistrationKey} {x : Effect V}
    (hspec : SetSpec e e' via key x) (hval : ∃ val, x.v = some val ∧
      x.bytes = retainedBindingBytes key.name val) : Counts cap (kept cap held e e') e' := by
  refine h.kept_writes hspec.writes (fun y hy => ?_) ?_
  · rwa [mem_singleton.1 hy]
  · cases cap with
    | bytes => simpa [Capacity.used, Capacity.reserve] using hspec.bytes_eq
    | slots => simpa [Capacity.used, Capacity.reserve] using hspec.slots_eq

theorem Counts.apply (w : Write V) (hclean : e.cleanWrite w = true) :
    Counts cap (heldAfter cap held e w) (w.apply e) := by
  cases w with
  | set via key val canonical ifVacant charge =>
    refine orSame_map_fst (P := fun e' => Counts cap (kept cap held e e') e') h.kept_self
      fun e' written hok => ?_
    cases written with
    | true => exact h.setSpec (setLocked_spec hok) ⟨val, rfl, rfl⟩
    | false =>
      rw [setLocked_unwritten hok]
      exact h.kept_self
  | setBoth via name val canonical ifVacant charge =>
    refine orSame_map_fst (P := fun e' => Counts cap (kept cap held e e') e') h.kept_self
      fun e' written hok => ?_
    cases written with
    | true =>
      obtain ⟨hwrites, hbytes, hslots, -⟩ := setBothLocked_spec hok
      refine h.kept_writes hwrites (fun x hx => ?_) ?_
      · simp only [bothEffects, mem_cons, not_mem_nil, or_false] at hx
        rcases hx with rfl | rfl <;> exact ⟨val, rfl, rfl⟩
      · cases cap with
        | bytes => simpa [bothEffects, Capacity.used, Capacity.reserve] using hbytes
        | slots => simpa [bothEffects, Capacity.used, Capacity.reserve] using hslots
    | false =>
      rw [setBothLocked_unwritten hok]
      exact h.kept_self
  | replaceCell via name val charge =>
    refine orSame_of_ok (P := fun e' => Counts cap (kept cap held e e') e') h.kept_self
      fun e' hok => ?_
    cases hb : e.bound ⟨name, false⟩ with
    | none => exact h.setSpec (replaceCell_fresh hb hok) ⟨val, rfl, rfl⟩
    | some b =>
      obtain ⟨r, -, hretires⟩ := replaceCell_bound hb hok
      have hcounts : Counts cap held e' := by
        refine h.retires (fun hon => ?_) hretires
        simpa [cleanWrite, hon, hb] using hclean
      refine Counts.kept_of_bound hcounts fun k hsome => ⟨?_, rfl⟩
      by_cases hk : k = ⟨name, false⟩
      · simp [hk, hb]
      · rwa [← keyState_bound, hretires.untouched k hk] at hsome
  | delete via name =>
    refine Counts.kept_of_bound ((h.deleteKey via _).deleteKey via _) fun k hsome => ⟨?_, rfl⟩
    rwa [Write.apply, deleteName, deleteKey_bound, deleteKey_bound] at hsome
  | rebuild =>
    refine h.rebuild fun k i ent hlook hentry hmade => ?_
    have hk := all_eq_true.1 hclean ⟨k, i⟩ (AList.mem_lookup_iff.1 hlook)
    simpa [hmade, hentry] using hk
  | mergeInto src via canonical =>
    refine orSame_map_fst (P := fun e' => Counts cap (merged cap held e e') e') ?_
      fun e' releases hok => ?_
    · cases cap with
      | slots => exact h.slotsSound
      | bytes => exact h.congr fun k => by simp [merged]
    · obtain ⟨hwrites, hbytes, hslots⟩ := mergeInto_spec hok
      refine h.merged_writes hwrites (fun x hx => ?_) (fun hon x hx hmade => ?_) ?_ ?_
      · obtain ⟨y, -, rfl⟩ := mem_map.1 hx
        rfl
      · obtain ⟨y, hy, rfl⟩ := mem_map.1 hx
        simp only [cleanWrite, hon, Bool.not_true, Bool.false_or] at hclean
        simpa [hmade] using all_eq_true.1 hclean y hy
      · rw [hbytes, mergeEffects, map_map]
        exact congrArg (e.retainedBytes + List.sum ·)
          (map_congr_left fun x _ => (charge_eq_mergeDelta e x).symm)
      · rw [hslots, mergeEffects, map_map]
        rfl
  | beginRegistration =>
    refine orSame_of_ok (P := fun e' => Counts cap (kept cap held e e') e') h.kept_self
      fun e' hok => ?_
    refine Counts.kept_of_bound (h.beginRegistration hok) fun k hsome => ⟨?_, rfl⟩
    unfold Env.beginRegistration at hok
    split at hok <;> cases hok
    exact hsome
  | complete id =>
    refine Counts.kept_of_bound (h.complete id) fun k hsome => ⟨?_, rfl⟩
    simp only [Write.apply, Env.complete] at hsome
    split at hsome <;> exact hsome
  | abort id =>
    by_cases hid : ∃ r, e.reg = some r ∧ r.id = id
    · obtain ⟨r, hreg, rfl⟩ := hid
      refine Counts.kept_of_bound (h.abort hreg) fun k hsome => ?_
      have hkey := abort_keyState hreg k
      obtain ⟨⟨i, c⟩, hb⟩ := Option.isSome_iff_exists.1 hsome
      have hbind : ((e.abort r.id).1.keyState k).bind = some i := (bound_eq_some_iff.1 hb).1
      rw [hkey] at hbind
      refine ⟨?_, (h.keys k).aborted.2 (by simp [hbind])⟩
      by_contra hnone
      have hbound : (e.keyState k).bound = none := by simpa using hnone
      rw [KeyState.aborted_of_unbound hbound, (h.keys k).bind_none hbound] at hbind
      cases hbind
    · have hsame := abort_of_ne fun r hreg heq => hid ⟨r, hreg, heq⟩
      simp only [heldAfter, Write.apply, hsame]
      exact h.kept_self

def writeAll (e : Env V) (ws : List (Write V)) : Env V := ws.foldl (fun e w => w.apply e) e

def cleanRun (e : Env V) : List (Write V) → Bool
  | [] => true
  | w :: ws => e.cleanWrite w && cleanRun (w.apply e) ws

/-- What is held for the keys after a run. -/
def heldAll (cap : Capacity) (held : RegistrationKey → Int) (e : Env V) :
    List (Write V) → RegistrationKey → Int
  | [] => held
  | w :: ws => heldAll cap (heldAfter cap held e w) (w.apply e) ws

theorem Counts.writeAll (ws : List (Write V)) (hclean : e.cleanRun ws = true) :
    Counts cap (heldAll cap held e ws) (e.writeAll ws) := by
  induction ws generalizing e held with
  | nil => exact h
  | cons w ws ih =>
    simp only [cleanRun, Bool.and_eq_true] at hclean
    exact ih (h.apply w hclean.1) hclean.2

omit h

/-- In a clean run `RetainedUsage` reports the bytes held for the bound keys, and as many slots as
there are value cells and function cells. -/
theorem retained_usage_of_bindings (maxBytes maxSlots : Int) (ws : List (Write V))
    (hclean : (newEnvWithRetainedLimits maxBytes maxSlots).cleanRun ws = true) :
    let e := (newEnvWithRetainedLimits maxBytes maxSlots).writeAll ws
    let held := heldAll .bytes (fun _ => 0) (newEnvWithRetainedLimits maxBytes maxSlots) ws
    e.retainedUsage = ((e.binds.keys.map held).sum, (e.varCells + e.funcCells : Int)) := by
  intro e held
  have hbytes : e.retainedBytes = (e.binds.keys.map held).sum :=
    ((counts_new .bytes maxBytes maxSlots).writeAll ws hclean).used_eq
  have hcounts := (counts_new .slots maxBytes maxSlots).writeAll ws hclean
  have hslots : e.retainedSlots = (e.varCells + e.funcCells : Int) := by
    have hsame := funext (hcounts.slot_eq rfl)
    rw [← Nat.cast_add, varCells_add_funcCells, ← tally_slot, ← hsame]
    exact hcounts.count
  exact Prod.ext hbytes hslots

end

def setX (via : Option Nat) (val : String) : Write String :=
  .set via ⟨"x", false⟩ val false false ⟨none, false, none⟩

def setY (val : String) : Write String :=
  .set none ⟨"y", false⟩ val false false ⟨none, false, none⟩

def replaceX (via : Option Nat) (val : String) : Write String :=
  .replaceCell via "x" val ⟨none, false, none⟩

def sourceX (val : String) : Env String :=
  (setX none val).apply (newEnvWithRetainedLimits 0 0)

/-- An operation writes, merges over and replaces a binding that it made itself, beside one of the
host: its abort takes back what is held for its own. -/
theorem retained_usage_beside_host :
    let ws : List (Write String) := [setY "", .beginRegistration, setX (some 0) "abcdef",
      .mergeInto (sourceX "ghijkl") (some 0) false, .rebuild, replaceX (some 0) "b", .abort 0]
    let e := (newEnvWithRetainedLimits 0 0).writeAll ws
    let held := heldAll .bytes (fun _ => 0) (newEnvWithRetainedLimits 0 0) ws
    (newEnvWithRetainedLimits 0 0).cleanRun ws = true ∧ held ⟨"y", false⟩ = 129 ∧
      e.retainedUsage = ((e.binds.keys.map held).sum, (e.varCells + e.funcCells : Int)) := by
  intro ws e held
  have hclean : (newEnvWithRetainedLimits 0 0).cleanRun ws = true := by decide +kernel
  exact ⟨hclean, by decide +kernel, retained_usage_of_bindings 0 0 ws hclean⟩

/-- The operation binds a name, the host writes it, and the operation replaces its cell: the
abort brings back the host's binding and takes back its slot. -/
theorem abort_refunds_surviving_slot : ((newEnvWithRetainedLimits 0 0).writeAll
        [.beginRegistration, setX (some 0) "a", setX none "b", replaceX (some 0) "c",
          .abort 0]).retainedUsage.2 = 0 ∧
      ((newEnvWithRetainedLimits 0 0).writeAll
        [.beginRegistration, setX (some 0) "a", setX none "b", replaceX (some 0) "c",
          .abort 0]).varCells = 1 := by
  decide +kernel

/-- A merge through the view makes the operation's binding smaller: the abort takes back the bytes
of a binding of the host as well. -/
example : ((newEnvWithRetainedLimits 0 0).writeAll [setY "", .beginRegistration,
      setX (some 0) "abcdef", .mergeInto (sourceX "") (some 0) false, .abort 0]).retainedUsage =
    (123, 1) := by
  decide +kernel

end Env

end Core

end Lispico
