import Lispico.Core.EnvBindings
import Mathlib

/-!
# Taking back an operation that was alone

If nobody but the operation writes while it runs, `Abort` restores every binding and the
retained usage: the journal remembers the cell that was bound, and its entries hold the bytes
and slots that the operation has reserved.
-/

namespace Lispico

namespace Core

open Lib List

section

variable {V : Type}

namespace KeyState

def journaledBytes (ks : KeyState V) : Int := (ks.entry.map RegistrationEntry.bytes).getD 0

def journaledSlots (ks : KeyState V) : Int := (ks.entry.map RegistrationEntry.slots).getD 0

/-- The state of a key that only the operation has written since it was `ks₀`. -/
structure Noted (ks₀ ks : KeyState V) : Prop where
  unwritten : ks.entry = none → ks.cells = ks₀.cells ∧ ks.bind = ks₀.bind
  written : ∀ ent, ks.entry = some ent → ks.owned = true ∧
    ent.prior = ks₀.bound.map Prod.fst ∧ (ent.prior ≠ none → ent.bytes = 0 ∧ ent.slots = 0)
  longer : ks₀.cells.length ≤ ks.cells.length

variable {ks₀ ks : KeyState V}

variable (h : Noted ks₀ ks)

include h

theorem Noted.bound_eq (hentry : ks.entry = none) : ks.bound = ks₀.bound := by
  obtain ⟨hcells, hbind⟩ := h.unwritten hentry
  rw [bound, bound, hcells, hbind]

theorem Noted.recorded : ks.recorded.prior = ks₀.bound.map Prod.fst ∧
      (ks.recorded.prior ≠ none → ks.recorded.bytes = 0 ∧ ks.recorded.slots = 0) ∧
      ks.recorded.bytes = ks.journaledBytes ∧ ks.recorded.slots = ks.journaledSlots := by
  unfold KeyState.recorded journaledBytes journaledSlots
  cases hentry : ks.entry with
  | none =>
    refine ⟨?_, fun _ => ⟨rfl, rfl⟩, rfl, rfl⟩
    rw [h.bound_eq hentry]
    rfl
  | some ent =>
    obtain ⟨howned, hprior, hzero⟩ := h.written ent hentry
    have howns : (ks.bound.any fun c => Registration.owns ent c.1 c.2) = true := by
      simpa [owned, hentry] using howned
    unfold recordEntry
    dsimp only
    rw [if_pos howns]
    exact ⟨hprior, hzero, rfl, rfl⟩

theorem Noted.entry_eq_none (hb : ks.bound = none) : ks.entry = none := by
  cases hentry : ks.entry with
  | none => rfl
  | some ent =>
    have howned := (h.written ent hentry).1
    rw [owned_of_bound_none hb] at howned
    cases howned

omit h in
theorem owned_journaled (ks : KeyState V) {cells : List (Cell V)} {i : Nat} {c : Cell V}
    (hcell : cells[i]? = some c) (bytes slots : Int) :
    (ks.journaled true cells i bytes slots).owned = true := by
  have hbound := ks.bound_journaled true hcell bytes slots
  obtain ⟨-, -, -, hlast, hver⟩ := ks.recorded.mark_spec i ((cells[i]?.map Cell.version).getD 0)
    bytes slots
  have hentry : (ks.journaled true cells i bytes slots).entry =
      some (ks.recorded.mark i ((cells[i]?.map Cell.version).getD 0) bytes slots) := rfl
  refine (owned_iff hentry hbound).2 ⟨hlast, ?_⟩
  rw [hver, hcell]
  rfl

/-- A write of the operation to a bound key reserves nothing, and the first one to a key that
is not bound reserves a slot and its bytes. -/
theorem Noted.touch {ks' : KeyState V} {x : Effect V} (ht : Touch true x ks ks') : Noted ks₀ ks' ∧
      ks'.journaledBytes - ks.journaledBytes = (if ks.bound.isNone then x.bytes else 0) ∧
      ks'.journaledSlots - ks.journaledSlots = if ks.bound.isNone then 1 else 0 := by
  obtain ⟨hprior, hzero, hbytes, hslots⟩ := h.recorded
  cases ht with
  | @inPlace i c c' hbound hx hversion =>
    have hcell : (ks.cells.set i c')[i]? = some c' := by simp [lt_of_bound hbound]
    rw [hbound, ← hbytes, ← hslots]
    refine ⟨⟨by rintro ⟨⟩, ?_, ?_⟩, sub_self _, sub_self _⟩
    · rintro ent ⟨⟩
      exact ⟨ks.owned_journaled hcell 0 0, hprior, hzero⟩
    · simpa [journaled] using h.longer
  | @fresh c' hbound hx =>
    have hcell : (ks.cells ++ [c'])[ks.cells.length]? = some c' := by simp
    have hentry := h.entry_eq_none hbound
    have hnone : ks₀.bound.map Prod.fst = none := by
      rw [← h.bound_eq hentry, hbound]
      rfl
    refine ⟨⟨by rintro ⟨⟩, ?_, ?_⟩, ?_⟩
    · rintro ent ⟨⟩
      have hmark := (ks.recorded.mark_spec ks.cells.length
        (((ks.cells ++ [c'])[ks.cells.length]?.map Cell.version).getD 0) x.bytes 1).1
      refine ⟨ks.owned_journaled hcell x.bytes 1, hmark.trans hprior, ?_⟩
      intro hne
      exact absurd (hmark.trans (hprior.trans hnone)) hne
    · have hlonger := h.longer
      simp only [journaled, length_append, length_cons, length_nil]
      omega
    · simp [journaledBytes, journaledSlots, journaled, hentry, hbound, RegistrationEntry.mark]

theorem Noted.aborted_bound {host : Option (V × Bool)} {lost : Bool}
    (ht : ks.Tracks host lost) : ks.aborted.bound.isSome = ks₀.bound.isSome := by
  unfold aborted
  cases hentry : ks.entry with
  | none =>
    have hbound := h.bound_eq hentry
    rw [bound] at hbound
    rw [bound, hbound]
  | some ent =>
    obtain ⟨howned, hprior, -⟩ := h.written ent hentry
    have hsome : ks₀.bound.isSome = ent.prior.isSome := by rw [hprior, Option.isSome_map]
    cases hb : ks.bound with
    | none =>
      rw [owned_of_bound_none hb] at howned
      cases howned
    | some b =>
      obtain ⟨i, c⟩ := b
      have howns : Registration.owns ent i c = true := by simpa [owned, hentry, hb] using howned
      have hi := lt_of_bound hb
      dsimp only [undo]
      rw [hb]
      dsimp only
      rw [howns, if_neg (by simp), hsome]
      cases hp : ent.prior with
      | none => rfl
      | some p =>
        have hlt := ht.prior_lt ent p hentry hp
        dsimp only
        split
        · simp [bound, (bind_of_bound hb).1, hi]
        · simp [bound, hlt]

end KeyState

namespace Env

/-- Only the operation has written since the environment was `e₀`. -/
structure Undoable (id : Nat) (e₀ e : Env V) : Prop where
  running : e.reg.map Registration.id = some id
  tracks : ∀ k, (e.keyState k).Tracks (e₀.getCanonical k) false
  noted : ∀ k, (e₀.keyState k).Noted (e.keyState k)
  bytes : e.retainedBytes = e₀.retainedBytes + tally fun k => (e.keyState k).journaledBytes
  slots : e.retainedSlots = e₀.retainedSlots + tally fun k => (e.keyState k).journaledSlots
  maxBytes : e.maxRetainedBytes = e₀.maxRetainedBytes
  maxSlots : e.maxRetainedSlots = e₀.maxRetainedSlots

section

variable {e : Env V} {r : Registration V} (f : RegistrationEntry V → Int)

theorem journal_eq_quantity (hreg : e.reg = some r) (k : RegistrationKey) :
    ((e.keyState k).entry.map f).getD 0 = quantity r.entries (fun _ => f) k := by
  simp only [keyState, quantity, hreg, Option.bind_some]
  cases r.entries.lookup k <;> rfl

theorem journal_finite (e : Env V) :
    (Function.support fun k => ((e.keyState k).entry.map f).getD 0).Finite := by
  cases hreg : e.reg with
  | none => simp [keyState, hreg]
  | some r =>
    simp only [journal_eq_quantity f hreg]
    exact quantity_finite r.entries fun _ => f

theorem tally_journal (hreg : e.reg = some r) :
    (tally fun k => ((e.keyState k).entry.map f).getD 0) =
      (r.entries.entries.map fun x => f x.2).sum := by
  rw [← tally_quantity r.entries fun _ => f]
  exact tally_congr (journal_eq_quantity f hreg)

theorem Writes.tally_journal {e' : Env V} {on : Bool} {ws : List (RegistrationKey × Effect V)}
    {g : RegistrationKey × Effect V → Int} (hw : Writes e e' on ws) (hg : ∀ x ∈ ws,
      ((e'.keyState x.1).entry.map f).getD 0 - ((e.keyState x.1).entry.map f).getD 0 = g x) :
    (tally fun k => ((e'.keyState k).entry.map f).getD 0) =
      (tally fun k => ((e.keyState k).entry.map f).getD 0) + (ws.map g).sum := by
  rw [tally_eq_add (g := fun k => ((e'.keyState k).entry.map f).getD 0) hw.distinct
    (e.journal_finite f) fun k hk => by rw [hw.untouched k hk], map_map]
  exact congrArg (_ + List.sum ·) (map_congr_left hg)

end

variable {e : Env V} {key : RegistrationKey}

theorem undoable_start {e' : Env V} (h : e.beginRegistration = .ok e') :
    Undoable e.nextReg e e' := by
  unfold beginRegistration at h
  cases hreg : e.reg with
  | some r =>
    rw [hreg] at h
    cases h
  | none =>
    rw [hreg] at h
    cases h
    have hentry : ∀ k, (keyState { e with
        reg := some ⟨e.nextReg, ∅⟩, nextReg := e.nextReg + 1 } k).entry = none := by
      intro k
      rfl
    have hstart : ∀ k, (e.keyState k).entry = none := by
      intro k
      simp [keyState, hreg]
    refine ⟨rfl, fun k => KeyState.tracks_start (hentry k), fun k => ?_, ?_, ?_, rfl, rfl⟩
    · exact ⟨fun _ => ⟨rfl, rfl⟩, by rintro _ ⟨⟩, le_refl _⟩
    · simp [KeyState.journaledBytes, hentry, tally]
    · simp [KeyState.journaledSlots, hentry, tally]

section

variable {id : Nat} {e₀ e e' : Env V}

theorem Undoable.on_eq (h : Undoable id e₀ e) : e.on (some id) = true := by
  simp [Env.on_eq, h.running]

theorem Undoable.writes (h : Undoable id e₀ e) {ws : List (RegistrationKey × Effect V)}
    (hwrites : Writes e e' (e.on (some id)) ws)
    (hbytes : e'.retainedBytes = e.retainedBytes + (ws.map fun x => e.reserved x.1 x.2.bytes).sum)
    (hslots : e'.retainedSlots = e.retainedSlots + (ws.map fun x => e.reserved x.1 1).sum) :
    Undoable id e₀ e' := by
  have hw : Writes e e' true ws := h.on_eq ▸ hwrites
  have hplaces := hw.places
  have hnoted := fun x hx => (h.noted x.1).touch (hw.touched x hx)
  refine ⟨hw.regId.trans h.running, fun k => ?_, fun k => ?_, ?_, ?_,
    hw.maxBytes.trans h.maxBytes, hw.maxSlots.trans h.maxSlots⟩
  · by_cases hk : k ∈ ws.map Prod.fst
    · obtain ⟨x, hx, rfl⟩ := List.mem_map.1 hk
      exact (h.tracks x.1).op_placed (hplaces.placed x hx)
    · rw [hw.untouched k hk]
      exact h.tracks k
  · by_cases hk : k ∈ ws.map Prod.fst
    · obtain ⟨x, hx, rfl⟩ := List.mem_map.1 hk
      exact (hnoted x hx).1
    · rw [hw.untouched k hk]
      exact h.noted k
  · rw [hbytes, h.bytes, add_assoc]
    exact congrArg (e₀.retainedBytes + ·) (hw.tally_journal RegistrationEntry.bytes
      fun x hx => (hnoted x hx).2.1).symm
  · rw [hslots, h.slots, add_assoc]
    exact congrArg (e₀.retainedSlots + ·) (hw.tally_journal RegistrationEntry.slots
      fun x hx => (hnoted x hx).2.2).symm

end

theorem abortEntry_usage {st : Aborting V} {ent : RegistrationEntry V}
    {i : Nat} {c : Cell V} (hbound : st.root.bound key = some (i, c))
    (howns : Registration.owns ent i c = true)
    (hzero : ent.prior ≠ none → ent.bytes = 0 ∧ ent.slots = 0) :
    (abortEntry st key ent).root.retainedBytes = st.root.retainedBytes - ent.bytes ∧
      (abortEntry st key ent).root.retainedSlots = st.root.retainedSlots - ent.slots := by
  unfold abortEntry
  rw [hbound]
  dsimp only
  rw [howns, if_neg (by simp)]
  cases hprior : ent.prior with
  | none => exact ⟨rfl, rfl⟩
  | some p =>
    obtain ⟨hbytes, hslots⟩ := hzero (by simp [hprior])
    dsimp only
    split
    · simp [updateCell, hbytes, hslots]
    · simp [withdraw, updateCell]

theorem abortEntries_usage (xs : List (Sigma fun _ : RegistrationKey => RegistrationEntry V))
    (hdistinct : xs.NodupKeys) (st : Aborting V)
    (howned : ∀ x ∈ xs, ∃ i c, st.root.bound x.1 = some (i, c) ∧
      Registration.owns x.2 i c = true ∧ (x.2.prior ≠ none → x.2.bytes = 0 ∧ x.2.slots = 0)) :
    (xs.foldl (fun st x => abortEntry st x.1 x.2) st).root.retainedBytes =
        st.root.retainedBytes - (xs.map fun x => x.2.bytes).sum ∧
      (xs.foldl (fun st x => abortEntry st x.1 x.2) st).root.retainedSlots =
        st.root.retainedSlots - (xs.map fun x => x.2.slots).sum ∧
      (xs.foldl (fun st x => abortEntry st x.1 x.2) st).root.maxRetainedBytes =
        st.root.maxRetainedBytes ∧
      (xs.foldl (fun st x => abortEntry st x.1 x.2) st).root.maxRetainedSlots =
        st.root.maxRetainedSlots := by
  induction xs generalizing st with
  | nil => simp
  | cons x xs ih =>
    rw [nodupKeys_cons] at hdistinct
    obtain ⟨i, c, hbound, howns, hzero⟩ := howned x (.head _)
    obtain ⟨hbytes, hslots⟩ := abortEntry_usage hbound howns hzero
    obtain ⟨hmaxBytes, hmaxSlots, -⟩ := @abortEntry_max V st x.1 x.2
    obtain ⟨ihbytes, ihslots, ihmaxBytes, ihmaxSlots⟩ := ih hdistinct.2
      (abortEntry st x.1 x.2) fun y hy => by
        obtain ⟨j, d, hb, hrest⟩ := howned y (.tail _ hy)
        refine ⟨j, d, ?_, hrest⟩
        have hne : y.1 ≠ x.1 := by
          intro heq
          exact hdistinct.1 (heq ▸ mem_keys_of_mem hy)
        rw [← keyState_bound, abortEntry_keyState_ne st x.2 hne, keyState_bound, hb]
    rw [foldl_cons, map_cons, map_cons, sum_cons, sum_cons]
    refine ⟨?_, ?_, ihmaxBytes.trans hmaxBytes, ihmaxSlots.trans hmaxSlots⟩
    · rw [ihbytes, hbytes]
      omega
    · rw [ihslots, hslots]
      omega

variable {id : Nat} {e₀ : Env V}

theorem Undoable.abort (h : Undoable id e₀ e) :
    Alike e₀ (e.abort id).1 ∧ (e.abort id).1.reg = none := by
  obtain ⟨r, hreg, rfl⟩ := Option.map_eq_some_iff.1 h.running
  have hlook : ∀ x ∈ r.entries.entries, (e.keyState x.1).entry = some x.2 := by
    intro x hx
    simp only [keyState, hreg, Option.bind_some]
    exact mem_dlookup r.entries.nodupKeys hx
  obtain ⟨hbytes, hslots, hmaxBytes, hmaxSlots⟩ := abortEntries_usage r.entries.entries
    r.entries.nodupKeys ⟨e, false, []⟩ fun x hx => by
      obtain ⟨howned, -, hzero⟩ := (h.noted x.1).written x.2 (hlook x hx)
      cases hb : e.bound x.1 with
      | none =>
        rw [KeyState.owned_of_bound_none ((e.keyState_bound x.1).trans hb)] at howned
        cases howned
      | some b =>
        refine ⟨b.1, b.2, rfl, ?_, hzero⟩
        simpa [KeyState.owned, hlook x hx, hb] using howned
  have hkeyState := fun k => abort_keyState hreg k
  have husage : (e.abort r.id).1.usage = e₀.usage ∧ (e.abort r.id).1.reg = none := by
    have hbytes₀ := h.bytes.trans
      (congrArg _ (tally_journal RegistrationEntry.bytes hreg))
    have hslots₀ := h.slots.trans
      (congrArg _ (tally_journal RegistrationEntry.slots hreg))
    unfold Env.abort
    rw [hreg]
    dsimp only
    rw [if_neg (by simp)]
    unfold AList.foldl
    generalize r.entries.entries.foldl (fun st x => abortEntry st x.1 x.2) ⟨e, false, []⟩ = st
      at hbytes hslots hmaxBytes hmaxSlots
    rw [usage_eq_iff]
    dsimp only at hbytes hslots hmaxBytes hmaxSlots
    split <;> refine ⟨⟨?_, ?_, hmaxBytes.trans h.maxBytes, hmaxSlots.trans h.maxSlots⟩, rfl⟩ <;>
      dsimp only <;> omega
  refine ⟨⟨fun k => ?_, fun k => ?_, husage.1⟩, husage.2⟩
  · rw [← keyState_binding, hkeyState]
    exact (h.tracks k).aborted.2 rfl
  · rw [← keyState_bound, hkeyState]
    exact (h.noted k).aborted_bound (h.tracks k)

theorem Undoable.deleteKey (h : Undoable id e₀ e) (key : RegistrationKey) :
    Undoable id e₀ (e.deleteKey (some id) key) := by
  obtain ⟨husage, ⟨i, c, hbound, -, hwrites⟩ | ⟨heq, -⟩⟩ := deleteKey_spec e (some id) key
  · obtain ⟨hbytes, hslots, -, -⟩ := usage_eq_iff.1 husage
    refine h.writes hwrites ?_ ?_
    · simp [hbytes, Env.reserved, hbound]
    · simp [hslots, Env.reserved, hbound]
  · rwa [heq]

theorem Undoable.deleteName (h : Undoable id e₀ e) (name : String) :
    Undoable id e₀ (e.deleteName (some id) name) :=
  (h.deleteKey _).deleteKey _

section

variable [ValueShallowBytes V] {id : Nat} {e₀ e e' : Env V}

variable {val : V} {canonical ifVacant w : Bool} {charge : Charge}

theorem Undoable.setLocked (h : Undoable id e₀ e)
    (hset : e.setLocked (some id) key val canonical ifVacant charge = .ok (e', w)) :
    Undoable id e₀ e' := by
  cases w with
  | false => exact setLocked_unwritten hset ▸ h
  | true =>
    obtain ⟨hwrites, hbytes, hslots, -⟩ := setLocked_spec hset
    exact h.writes hwrites (by simpa using hbytes) (by simpa using hslots)

theorem Undoable.setBothLocked (h : Undoable id e₀ e) {name : String}
    (hset : e.setBothLocked (some id) name val canonical ifVacant charge = .ok (e', w)) :
    Undoable id e₀ e' := by
  cases w with
  | false => exact setBothLocked_unwritten hset ▸ h
  | true =>
    obtain ⟨hwrites, hbytes, hslots, -⟩ := setBothLocked_spec hset
    exact h.writes hwrites (by simpa [bothEffects] using hbytes)
      (by simpa [bothEffects] using hslots)

end

end Env

end

end Core

end Lispico
