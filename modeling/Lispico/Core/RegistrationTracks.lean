import Lispico.Core.RetainedLimits

/-!
# What the journal of a key remembers

While an operation runs, a key holds what the host has written last, or the journal remembers
it. Versions tell the two apart. Only the deletion of a name that the operation has deleted
before leaves no trace; it is lost.
-/

namespace Lispico

namespace Core

section

variable {V : Type} {x : Effect V}

def Effect.image (x : Effect V) : Option (V × Bool) := x.v.map fun v => (v, x.canonical)

def RegistrationEntry.image (ent : RegistrationEntry V) : Option (V × Bool) :=
  ent.v.map fun v => (v, ent.canonical)

def Cell.image (c : Cell V) : Option (V × Bool) := c.v.map fun v => (v, c.canonical)

theorem Effect.InCell.image_eq {c : Cell V} (h : x.InCell c) : c.image = x.image := by
  rw [Cell.image, Effect.image, h.1, h.2.1]

namespace KeyState

variable {ks : KeyState V} {i : Nat} {c : Cell V} {on : Bool}

theorem binding_of_bound (h : ks.bound = some (i, c)) : ks.binding = c.image := by
  rw [binding, h, Cell.image]
  cases hv : c.v <;> simp [hv]

theorem binding_of_unbound (h : ks.bound = none) : ks.binding = none := by
  rw [binding, h]
  rfl

theorem binding_eq (ks : KeyState V) : ks.binding = ks.bound.bind fun b => b.2.image := by
  cases hb : ks.bound with
  | none => exact binding_of_unbound hb
  | some b => exact binding_of_bound hb

theorem image_before (ks : KeyState V) (ent : RegistrationEntry V) :
    (ent.before ks.bound).image = ks.binding := by
  rw [binding_eq, RegistrationEntry.image, RegistrationEntry.before]
  cases ks.bound with
  | none => rfl
  | some b => rfl

/-- The operation deleted the key, which was live before it: `Delete` does nothing here. -/
def shadowed (ks : KeyState V) : Bool :=
  ks.owned && (ks.bound.any fun b => b.2.v.isNone && !b.2.canonical) &&
    ks.entry.any fun ent => ent.v.isSome

/-- The key and its journal, for the binding that the host's writes leave. -/
structure Tracks (ks : KeyState V) (host : Option (V × Bool)) (lost : Bool) : Prop where
  last_ok : ∀ ent i, ks.entry = some ent → ent.last = some i →
    ∃ c, ks.cells[i]? = some c ∧ ent.lastVer ≤ c.version
  prior_lt : ∀ ent p, ks.entry = some ent → ent.prior = some p → p < ks.cells.length
  absent : ∀ ent, ks.entry = some ent → ent.prior = none → ent.v = none
  free : ks.owned = false → ks.binding = host ∧ lost = false
  held : ∀ ent, ks.entry = some ent → ks.owned = true →
    if lost then ent.v.isSome = true ∧ host = none else ent.image = host

theorem tracks_start (h : ks.entry = none) : ks.Tracks ks.binding false := by
  refine ⟨?_, ?_, ?_, fun _ => ⟨rfl, rfl⟩, ?_⟩
  · intro ent i hent
    rw [h] at hent
    cases hent
  · intro ent p hent
    rw [h] at hent
    cases hent
  · intro ent hent
    rw [h] at hent
    cases hent
  · intro ent hent
    rw [h] at hent
    cases hent

section

variable {ks : KeyState V} {host : Option (V × Bool)} {lost : Bool}

variable (h : ks.Tracks host lost) {cells : List (Cell V)}

include h

theorem Tracks.recorded_absent (hp : ks.recorded.prior = none) : ks.recorded.v = none := by
  rcases ks.recorded_cases with ⟨ent, hentry, -, hrec⟩ | ⟨-, ent, -, hrec⟩
  · rw [hrec] at hp ⊢
    exact h.absent ent hentry hp
  · rw [hrec, RegistrationEntry.before] at hp ⊢
    rw [Option.map_eq_none_iff.1 hp]
    rfl

theorem Tracks.recorded_held :
    if lost then ks.recorded.v.isSome = true ∧ host = none else ks.recorded.image = host := by
  rcases ks.recorded_cases with ⟨ent, hentry, howned, hrec⟩ | ⟨howned, ent, -, hrec⟩
  · rw [hrec]
    exact h.held ent hentry howned
  · obtain ⟨hbinding, hlost⟩ := h.free howned
    rw [hlost, hrec, image_before, hbinding]
    rfl

theorem Tracks.journaled_op (hcell : cells[i]? = some c) (hlen : ks.cells.length ≤ cells.length)
    (bytes slots : Int) : (ks.journaled true cells i bytes slots).Tracks host lost := by
  obtain ⟨hprior, hv, hcanonical, hlast, hver⟩ :=
    ks.recorded.mark_spec i c.version bytes slots
  have hentry : (ks.journaled true cells i bytes slots).entry =
      some (ks.recorded.mark i c.version bytes slots) := by
    simp [journaled, hcell]
  have howned : (ks.journaled true cells i bytes slots).owned = true :=
    (owned_iff hentry (ks.bound_journaled true hcell bytes slots)).2 ⟨hlast, hver.symm⟩
  have hent : ∀ ent, (ks.journaled true cells i bytes slots).entry = some ent →
      ent = ks.recorded.mark i c.version bytes slots := by
    intro ent h'
    rw [hentry] at h'
    exact (Option.some.inj h').symm
  refine ⟨fun ent j h' hj => ?_, fun ent p h' hp => ?_, fun ent h' hp => ?_, fun hfree => ?_,
    fun ent h' _ => ?_⟩
  · rw [hent ent h', hlast] at hj
    cases hj
    exact ⟨c, hcell, by rw [hent ent h', hver]⟩
  · rw [hent ent h', hprior] at hp
    exact (recorded_prior_lt h.prior_lt hp).trans_le hlen
  · rw [hent ent h', hprior] at hp
    rw [hent ent h', hv, h.recorded_absent hp]
  · rw [howned] at hfree
    cases hfree
  · have hheld := h.recorded_held
    rw [hent ent h', RegistrationEntry.image, hv, hcanonical]
    exact hheld

theorem Tracks.journaled_host (hcell : cells[i]? = some c) (hlen : ks.cells.length ≤ cells.length)
    (hversions : ∀ (j : Nat) (d : Cell V), ks.cells[j]? = some d →
      ∃ d', cells[j]? = some d' ∧ d.version ≤ d'.version)
    (hmoved : ∀ d, ks.cells[i]? = some d → d.version < c.version) (bytes slots : Int) :
    (ks.journaled false cells i bytes slots).Tracks c.image false := by
  have hbound := ks.bound_journaled false hcell bytes slots
  have hunowned := journaled_unowned h.last_ok hcell hmoved bytes slots
  refine ⟨fun ent j h' hj => ?_, fun ent p h' hp => ?_, h.absent, fun _ => ⟨?_, rfl⟩,
    fun ent _ howned => ?_⟩
  · obtain ⟨d, hd, hle⟩ := h.last_ok ent j h' hj
    obtain ⟨d', hd', hle'⟩ := hversions j d hd
    exact ⟨d', hd', hle.trans hle'⟩
  · exact (h.prior_lt ent p h' hp).trans_le hlen
  · exact binding_of_bound hbound
  · rw [hunowned] at howned
    cases howned

end

section

variable {ks ks' : KeyState V} {host : Option (V × Bool)} {lost : Bool} {x : Effect V}

variable (h : ks.Tracks host lost)

include h

theorem Tracks.op_placed (hplaced : Placed true x ks ks') :
    ks'.Tracks host lost := by
  cases hplaced with
  | mk hcell hx hlen hversions hmoved bytes slots => exact h.journaled_op hcell hlen bytes slots

theorem Tracks.host_placed (hplaced : Placed false x ks ks') : ks'.Tracks x.image false := by
  cases hplaced with
  | mk hcell hx hlen hversions hmoved bytes slots =>
    rw [← hx.image_eq]
    exact h.journaled_host hcell hlen hversions hmoved bytes slots

omit h in
theorem Placed.binding_eq (h : Placed on x ks ks') : ks'.binding = x.image := by
  cases h with
  | mk hcell hx hlen hversions hmoved bytes slots =>
    rw [binding_of_bound (ks.bound_journaled on hcell bytes slots), hx.image_eq]

theorem Tracks.idle (hidle : ∀ i c, ks.bound = some (i, c) → c.v = none ∧ c.canonical = false) :
    ks.Tracks none ks.shadowed := by
  have hbinding : ks.binding = none := by
    cases hb : ks.bound with
    | none => exact binding_of_unbound hb
    | some b => rw [binding_of_bound hb, Cell.image, (hidle b.1 b.2 hb).1, Option.map_none]
  refine ⟨h.last_ok, h.prior_lt, h.absent, fun hfree => ⟨hbinding, ?_⟩, fun ent hent howned => ?_⟩
  · simp [shadowed, hfree]
  · have hbound : ∃ b, ks.bound = some b := by
      cases hb : ks.bound with
      | none =>
        rw [owned_of_bound_none hb] at howned
        cases howned
      | some b => exact ⟨b, rfl⟩
    obtain ⟨⟨i, c⟩, hb⟩ := hbound
    obtain ⟨hv, hcanonical⟩ := hidle i c hb
    have hshadow : ks.shadowed = ent.v.isSome := by
      simp [shadowed, howned, hb, hv, hcanonical, hent]
    rw [hshadow]
    cases hev : ent.v with
    | none => simp [RegistrationEntry.image, hev]
    | some v => simp

omit h in
theorem binding_of_dead (h : (ks.bound.any fun b => b.2.v.isSome) = false) :
    ks.binding = none := by
  cases hb : ks.bound with
  | none => exact binding_of_unbound hb
  | some b =>
    rw [hb, Option.any_some, Option.isSome_eq_false_iff, Option.isNone_iff_eq_none] at h
    rw [binding_of_bound hb, Cell.image, h, Option.map_none]

omit h in
theorem rebuilt_binding (ks : KeyState V) : ks.rebuilt.binding = ks.binding := by
  rw [rebuilt_eq]
  split
  · rfl
  · rename_i hdead
    simp only [Bool.or_eq_true, not_or, Bool.not_eq_true] at hdead
    rw [binding_of_dead hdead.1]
    rfl

theorem Tracks.rebuilt : ks.rebuilt.Tracks host lost := by
  have hbinding := ks.rebuilt_binding
  rw [rebuilt_eq] at hbinding ⊢
  split
  · exact h
  · rename_i hdead
    rw [if_neg hdead] at hbinding
    simp only [Bool.or_eq_true, not_or, Bool.not_eq_true] at hdead
    obtain ⟨hhost, hlost⟩ := h.free hdead.2
    refine ⟨h.last_ok, h.prior_lt, h.absent, fun _ => ⟨hbinding.trans hhost, hlost⟩,
      fun ent _ howned => ?_⟩
    rw [owned_of_bound_none rfl] at howned
    cases howned

omit h in
theorem binding_of_entry (ks : KeyState V) (entry : Option (RegistrationEntry V)) :
    binding { ks with entry := entry } = ks.binding := rfl

theorem Tracks.undo {ent : RegistrationEntry V}
    (hent : ks.entry = some ent) (howned : ks.owned = true) :
    (ks.undo ent).binding = ent.image := by
  cases hb : ks.bound with
  | none =>
    rw [owned_of_bound_none hb] at howned
    cases howned
  | some b =>
    obtain ⟨i, c⟩ := b
    obtain ⟨hlast, hver⟩ := (owned_iff hent hb).1 howned
    obtain ⟨-, hcell⟩ := bind_of_bound hb
    have hlt := lt_of_bound hb
    have howns : Registration.owns ent i c = true := by simp [Registration.owns, hlast, hver]
    unfold KeyState.undo
    rw [hb]
    dsimp only
    rw [howns, if_neg (by simp)]
    cases hprior : ent.prior with
    | none =>
      rw [RegistrationEntry.image, h.absent ent hent hprior]
      rfl
    | some p =>
      dsimp only
      split
      · rename_i hpi
        refine (@binding_of_bound V _ i (restore ent c) ?_).trans rfl
        obtain ⟨hbind, -⟩ := bind_of_bound hb
        simp [bound, hbind, hcell]
      · rename_i hpi
        have hp := h.prior_lt ent p hent hprior
        refine (@binding_of_bound V _ p (restore ent ks.cells[p]) ?_).trans rfl
        simp [bound, hp, List.getElem?_modify, Ne.symm hpi]

theorem Tracks.aborted : ks.aborted.binding = host ↔ lost = false := by
  unfold KeyState.aborted
  rw [binding_of_entry]
  cases hent : ks.entry with
  | none =>
    obtain ⟨hbinding, hlost⟩ := h.free (owned_eq_false_of_entry_none hent)
    exact iff_of_true hbinding hlost
  | some ent =>
    dsimp only
    cases howned : ks.owned with
    | false =>
      obtain ⟨hbinding, hlost⟩ := h.free howned
      have hundo : ks.undo ent = ks := by
        unfold KeyState.undo
        simp only [owned, hent, Option.any_some] at howned
        cases hb : ks.bound with
        | none => rfl
        | some b =>
          rw [hb, Option.any_some] at howned
          simp [howned]
      rw [hundo]
      exact iff_of_true hbinding hlost
    | true =>
      have hheld := h.held ent hent howned
      rw [h.undo hent howned]
      cases lost with
      | false => exact iff_of_true hheld rfl
      | true =>
        obtain ⟨v, hv⟩ := Option.isSome_iff_exists.1 hheld.1
        rw [hheld.2, RegistrationEntry.image, hv]
        simp

end

end KeyState

end

end Core

end Lispico
