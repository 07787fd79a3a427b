import Lispico.Core.MergeOrder
import Lispico.Core.RegistrationTracks
import Mathlib

/-!
# Replaying the writes of the host

The replay makes the host's accepted writes alone, without limits. The root and its replay go in
lockstep: under every key the root or the journal holds the binding of the replay, unless the
last deletion by the host was lost.
-/

namespace Lispico

namespace Core

open Lib

namespace Env

section

variable {V : Type}

def Write.via : Write V → Option Nat
  | .set via _ _ _ _ _ | .setBoth via _ _ _ _ _ | .replaceCell via _ _ _ | .delete via _
  | .mergeInto _ via _ => via
  | .rebuild | .beginRegistration | .complete _ | .abort _ => none

def Write.images : Write V → List (RegistrationKey × Option (V × Bool))
  | .set _ key val canonical _ _ => [(key, some (val, canonical))]
  | .setBoth _ name val canonical _ _ =>
    [(⟨name, false⟩, some (val, canonical)), (⟨name, true⟩, some (val, canonical))]
  | .replaceCell _ name val _ => [(⟨name, false⟩, some (val, false))]
  | .delete _ name => [(⟨name, false⟩, none), (⟨name, true⟩, none)]
  | .mergeInto src _ canonical =>
    src.liveBindings.map fun x => (x.1, x.2.v.map fun v => (v, canonical))
  | .rebuild | .beginRegistration | .complete _ | .abort _ => []

def Write.assigns : Write V → Bool
  | .set .. | .setBoth .. | .replaceCell .. | .mergeInto .. => true
  | _ => false

/-- The write goes to the root of the host: it has no meter that could refuse it, and does not
ask whether the name is vacant. -/
def Write.forced : Write V → Write V
  | .set _ key val canonical _ _ => .set none key val canonical false ⟨none, false, none⟩
  | .setBoth _ name val canonical _ _ =>
    .setBoth none name val canonical false ⟨none, false, none⟩
  | .replaceCell _ name val _ => .replaceCell none name val ⟨none, false, none⟩
  | .delete _ name => .delete none name
  | .mergeInto src _ canonical => .mergeInto src none canonical
  | w => w

/-- The writes of one kind leave their effects in the bound cells of their keys. -/
structure Places (e e' : Env V) (on : Bool) (ws : List (RegistrationKey × Effect V)) : Prop where
  untouched : ∀ k ∉ ws.map Prod.fst, e'.keyState k = e.keyState k
  placed : ∀ x ∈ ws, KeyState.Placed on x.2 (e.keyState x.1) (e'.keyState x.1)
  regId : e'.reg.map Registration.id = e.reg.map Registration.id
  maxBytes : e'.maxRetainedBytes = e.maxRetainedBytes
  maxSlots : e'.maxRetainedSlots = e.maxRetainedSlots

variable {e : Env V} {ws : List (RegistrationKey × Effect V)} {e' : Env V} {on : Bool}

theorem Writes.places (h : Writes e e' on ws) : Places e e' on ws :=
  ⟨h.untouched, fun x hx => (h.touched x hx).placed, h.regId, h.maxBytes, h.maxSlots⟩

theorem Retires.places {key : RegistrationKey} {x : Effect V}
    (h : Retires e e' on key x) : Places e e' on [(key, x)] := by
  obtain ⟨-, -, hbytes, hslots⟩ := usage_eq_iff.1 h.usage
  refine ⟨fun k hk => h.untouched k (by simpa using hk), fun y hy => ?_, h.regId, hbytes, hslots⟩
  rw [List.mem_singleton.1 hy]
  exact h.retire.placed

/-- An environment of a replay: no registration runs on it and it has no limits. -/
structure Lifted (e : Env V) : Prop where
  reg : e.reg = none
  bytes : e.maxRetainedBytes ≤ 0
  slots : e.maxRetainedSlots ≤ 0

theorem Lifted.prepareFreshRetained (h : e.Lifted) (bytes slots : Int) :
    ∃ e', e.prepareFreshRetained ⟨none, false, none⟩ bytes slots = .ok e' := by
  have hreserve : e.reserveRetainedBindings bytes slots = .ok () :=
    reserve_ok_iff.2 ⟨.inl h.bytes, .inl h.slots⟩
  unfold Env.prepareFreshRetained
  split
  · exact ⟨_, rfl⟩
  · exact ⟨_, by rw [hreserve]; rfl⟩

theorem Write.forced_assigns (w : Write V) :
    w.forced.assigns = w.assigns ∧ w.forced.images = w.images ∧ w.forced.via = none := by
  cases w <;> exact ⟨rfl, rfl, rfl⟩

/-- The root and its replay: `lost` marks the keys whose last deletion by the host is lost. -/
structure Lockstep (id : Nat) (e replay : Env V) (lost : RegistrationKey → Bool) : Prop where
  running : e.reg.map Registration.id = some id
  lifted : replay.Lifted
  tracks : ∀ k, (e.keyState k).Tracks (replay.getCanonical k) (lost k)

section

variable {id : Nat} {e e' replay replay' : Env V} {lost lost' : RegistrationKey → Bool}

theorem Lockstep.op (h : Lockstep id e replay lost)
    (hplaces : Places e e' true ws) : Lockstep id e' replay lost := by
  refine ⟨hplaces.regId.trans h.running, h.lifted, fun k => ?_⟩
  by_cases hk : k ∈ ws.map Prod.fst
  · obtain ⟨x, hx, rfl⟩ := List.mem_map.1 hk
    exact (h.tracks x.1).op_placed (hplaces.placed x hx)
  · rw [hplaces.untouched k hk]
    exact h.tracks k

theorem Lockstep.host (h : Lockstep id e replay lost)
    (hplaces : Places e e' false ws) (hlifted : replay'.Lifted)
    (hwritten : ∀ x ∈ ws, replay'.getCanonical x.1 = x.2.image)
    (hother : ∀ k ∉ ws.map Prod.fst, replay'.getCanonical k = replay.getCanonical k)
    (hlost : ∀ k, lost' k = if k ∈ ws.map Prod.fst then false else lost k) :
    Lockstep id e' replay' lost' := by
  refine ⟨hplaces.regId.trans h.running, hlifted, fun k => ?_⟩
  rw [hlost]
  by_cases hk : k ∈ ws.map Prod.fst
  · rw [if_pos hk]
    obtain ⟨x, hx, rfl⟩ := List.mem_map.1 hk
    rw [hwritten x hx]
    exact (h.tracks x.1).host_placed (hplaces.placed x hx)
  · rw [if_neg hk, hplaces.untouched k hk, hother k hk]
    exact h.tracks k

end

theorem deleteKey_getCanonical (e : Env V) (via : Option Nat) (key : RegistrationKey) :
    (e.deleteKey via key).getCanonical key = none ∧
      (e.deleteKey via key).reg.map Registration.id = e.reg.map Registration.id ∧
      ∀ k, k ≠ key → (e.deleteKey via key).keyState k = e.keyState k := by
  obtain ⟨-, ⟨i, c, -, -, hwrites⟩ | ⟨heq, hidle⟩⟩ := deleteKey_spec e via key
  · refine ⟨?_, hwrites.regId, fun k hk => hwrites.untouched k (by simpa using hk)⟩
    rw [← keyState_binding]
    exact (hwrites.touched _ (.head _)).placed.binding_eq
  · rw [heq]
    refine ⟨?_, rfl, fun _ _ => rfl⟩
    rw [← keyState_binding]
    cases hb : e.bound key with
    | none => exact KeyState.binding_of_unbound hb
    | some b =>
      rw [KeyState.binding_of_bound ((e.keyState_bound key).trans hb), Cell.image,
        (hidle b.1 b.2 hb).1, Option.map_none]

theorem Lifted.deleteKey (h : e.Lifted) (via : Option Nat) (key : RegistrationKey) :
    (e.deleteKey via key).Lifted := by
  obtain ⟨-, -, hbytes, hslots⟩ := usage_eq_iff.1 (deleteKey_spec e via key).1
  have hreg := (deleteKey_getCanonical e via key).2.1
  rw [h.reg] at hreg
  exact ⟨Option.map_eq_none_iff.1 hreg, hbytes ▸ h.bytes, hslots ▸ h.slots⟩

theorem deleteKey_on (e : Env V) (via : Option Nat) (key : RegistrationKey) :
    (e.deleteKey via key).on via = e.on via := by
  rw [on_eq, on_eq, (deleteKey_getCanonical e via key).2.1]

section

variable {id : Nat} {e replay : Env V} {lost : RegistrationKey → Bool} {via : Option Nat}

theorem Lockstep.deleteKey_op (h : Lockstep id e replay lost)
    (hon : e.on via = true) (key : RegistrationKey) :
    Lockstep id (e.deleteKey via key) replay lost := by
  obtain ⟨-, ⟨i, c, -, -, hwrites⟩ | ⟨heq, -⟩⟩ := deleteKey_spec e via key
  · rw [hon] at hwrites
    exact h.op hwrites.places
  · rwa [heq]

theorem Lockstep.deleteKey_host (h : Lockstep id e replay lost)
    (hoff : e.on via = false) (key : RegistrationKey) :
    Lockstep id (e.deleteKey via key) (replay.deleteKey none key)
      (Function.update lost key (e.keyState key).shadowed) := by
  obtain ⟨hnone, -, hother⟩ := deleteKey_getCanonical replay none key
  obtain ⟨-, hreg, hkept⟩ := deleteKey_getCanonical e via key
  refine ⟨hreg.trans h.running, h.lifted.deleteKey none key, fun k => ?_⟩
  by_cases hk : k = key
  · subst hk
    rw [hnone, Function.update_self]
    obtain ⟨-, ⟨i, c, hb, hlive, hwrites⟩ | ⟨heq, hidle⟩⟩ := deleteKey_spec e via k
    · have hshadow : (e.keyState k).shadowed = false := by
        cases hv : c.v <;> simp_all [KeyState.shadowed]
      rw [hshadow]
      rw [hoff] at hwrites
      exact (h.tracks k).host_placed (hwrites.touched _ (.head _)).placed
    · rw [heq]
      exact (h.tracks k).idle hidle
  · rw [hkept k hk, Function.update_of_ne hk, ← keyState_binding, hother k hk]
    exact h.tracks k

end

variable [ValueShallowBytes V]

/-- The root accepts the write: it neither refuses it nor finds the name occupied. -/
def Write.accepted (e : Env V) : Write V → Bool
  | .set via key val canonical ifVacant charge =>
    match e.setLocked via key val canonical ifVacant charge with
    | .ok (_, written) => written
    | .error _ => false
  | .setBoth via name val canonical ifVacant charge =>
    match e.setBothLocked via name val canonical ifVacant charge with
    | .ok (_, written) => written
    | .error _ => false
  | .replaceCell via name val charge => (e.replaceCell via name val charge).isOk
  | .mergeInto src via canonical => (src.mergeInto e via canonical).isOk
  | .delete .. | .rebuild => true
  | .beginRegistration | .complete _ | .abort _ => false

def Write.byHost (e : Env V) (w : Write V) : Bool := !e.on w.via && w.accepted e

variable {w : Write V}

theorem Write.apply_spec (hassigns : w.assigns = true) :
    (w.accepted e = true → ∃ ws, (ws.map fun x => (x.1, x.2.image)) = w.images ∧
      Places e (w.apply e) (e.on w.via) ws) ∧ (w.accepted e = false → w.apply e = e) := by
  cases w with
  | set via key val canonical ifVacant charge =>
    simp only [Write.accepted, Write.apply]
    cases hset : e.setLocked via key val canonical ifVacant charge with
    | error msg => exact ⟨by rintro ⟨⟩, fun _ => rfl⟩
    | ok r =>
      obtain ⟨e', _ | _⟩ := r
      · exact ⟨by rintro ⟨⟩, fun _ => setLocked_unwritten hset⟩
      · exact ⟨fun _ => ⟨_, rfl, (setLocked_spec hset).writes.places⟩, by rintro ⟨⟩⟩
  | setBoth via name val canonical ifVacant charge =>
    simp only [Write.accepted, Write.apply]
    cases hset : e.setBothLocked via name val canonical ifVacant charge with
    | error msg => exact ⟨by rintro ⟨⟩, fun _ => rfl⟩
    | ok r =>
      obtain ⟨e', _ | _⟩ := r
      · exact ⟨by rintro ⟨⟩, fun _ => setBothLocked_unwritten hset⟩
      · exact ⟨fun _ => ⟨_, rfl, (setBothLocked_spec hset).1.places⟩, by rintro ⟨⟩⟩
  | replaceCell via name val charge =>
    simp only [Write.accepted, Write.apply]
    cases hset : e.replaceCell via name val charge with
    | error msg => exact ⟨by rintro ⟨⟩, fun _ => rfl⟩
    | ok e' =>
      refine ⟨fun _ => ?_, by rintro ⟨⟩⟩
      cases hb : e.bound ⟨name, false⟩ with
      | none => exact ⟨_, rfl, (replaceCell_fresh hb hset).writes.places⟩
      | some b =>
        obtain ⟨r, -, hretires⟩ := replaceCell_bound hb hset
        exact ⟨_, rfl, hretires.places⟩
  | mergeInto src via canonical =>
    simp only [Write.accepted, Write.apply]
    cases hset : src.mergeInto e via canonical with
    | error msg => exact ⟨by rintro ⟨⟩, fun _ => rfl⟩
    | ok r =>
      refine ⟨fun _ => ⟨_, ?_, (mergeInto_spec hset).1.places⟩, by rintro ⟨⟩⟩
      rw [mergeEffects, List.map_map]
      rfl
  | _ => cases hassigns

theorem Lifted.accepts (h : e.Lifted) (hassigns : w.assigns = true) :
    w.forced.accepted e = true := by
  cases w with
  | set via key val canonical ifVacant charge =>
    obtain ⟨e', hprepare⟩ := h.prepareFreshRetained (retainedBindingBytes key.name val) 1
    simp only [Write.forced, Write.accepted, setLocked]
    cases e.bound key with
    | none =>
      rw [hprepare]
      rfl
    | some b => rfl
  | setBoth via name val canonical ifVacant charge =>
    simp only [Write.forced, Write.accepted, setBothLocked, Bool.false_and, Bool.false_eq_true,
      if_false]
    obtain ⟨e', hprepare⟩ := h.prepareFreshRetained
      (retainedBindingBytes name val * ((if (e.bound ⟨name, false⟩).isNone then 1 else 0) +
        (if (e.bound ⟨name, true⟩).isNone then 1 else 0)))
      ((if (e.bound ⟨name, false⟩).isNone then 1 else 0) +
        (if (e.bound ⟨name, true⟩).isNone then 1 else 0))
    rw [hprepare]
    rfl
  | replaceCell via name val charge =>
    obtain ⟨e', hprepare⟩ := h.prepareFreshRetained (retainedBindingBytes name val) 1
    simp only [Write.forced, Write.accepted, replaceCell]
    cases e.bound ⟨name, false⟩ with
    | none =>
      rw [hprepare]
      rfl
    | some b => rfl
  | mergeInto src via canonical =>
    obtain ⟨r, hr⟩ := (succeeds_iff src.liveBindings e none canonical).2
      ⟨.inl h.bytes, .inl h.slots⟩
    simp only [Write.forced, Write.accepted]
    rw [(mergeInto_eq_mergeAlong src e none canonical).1, hr]
    rfl
  | _ => cases hassigns

theorem Lifted.apply (h : e.Lifted) (hassigns : w.assigns = true) :
    (w.forced.apply e).Lifted ∧ (∀ x ∈ w.images, (w.forced.apply e).getCanonical x.1 = x.2) ∧
      ∀ k ∉ w.images.map Prod.fst, (w.forced.apply e).getCanonical k = e.getCanonical k := by
  obtain ⟨hkind, himages, -⟩ := w.forced_assigns
  obtain ⟨ws, hws, hplaces⟩ := (Write.apply_spec (hkind.trans hassigns)).1 (h.accepts hassigns)
  rw [himages] at hws
  refine ⟨⟨?_, ?_, ?_⟩, fun x hx => ?_, fun k hk => ?_⟩
  · have hreg := hplaces.regId
    rw [h.reg] at hreg
    exact Option.map_eq_none_iff.1 hreg
  · rw [hplaces.maxBytes]
    exact h.bytes
  · rw [hplaces.maxSlots]
    exact h.slots
  · rw [← hws] at hx
    obtain ⟨y, hy, rfl⟩ := List.mem_map.1 hx
    rw [← keyState_binding]
    exact (hplaces.placed y hy).binding_eq
  · rw [← hws, List.map_map] at hk
    rw [← keyState_binding, ← keyState_binding, hplaces.untouched k hk]

theorem rebuild_getCanonical (e : Env V) (k : RegistrationKey) :
    e.rebuild.env.getCanonical k = e.getCanonical k := by
  rw [← keyState_binding, rebuild_keyState, KeyState.rebuilt_binding, keyState_binding]

def Write.loses (e : Env V) (w : Write V) (k : RegistrationKey) : Bool :=
  match w with
  | .delete _ _ => (e.keyState k).shadowed
  | _ => false

def Write.lostAfter (e : Env V) (w : Write V) (lost : RegistrationKey → Bool)
    (k : RegistrationKey) : Bool :=
  if w.byHost e && decide (k ∈ w.images.map Prod.fst) then w.loses e k else lost k

def Write.replayed (e replay : Env V) (w : Write V) : Env V :=
  if w.byHost e then w.forced.apply replay else replay

section

variable {id : Nat} {e replay : Env V} {lost : RegistrationKey → Bool}

variable (h : Lockstep id e replay lost)

include h

theorem Lockstep.assigns {w : Write V} (hassigns : w.assigns = true) :
    Lockstep id (w.apply e) (w.replayed e replay) (w.lostAfter e lost) := by
  have hloses : ∀ k, w.loses e k = false := by
    intro k
    cases w <;> first | rfl | cases hassigns
  have hlostAfter : ∀ k, w.lostAfter e lost k =
      if w.byHost e && decide (k ∈ w.images.map Prod.fst) then false else lost k := by
    intro k
    rw [Write.lostAfter, hloses]
  cases haccepted : w.accepted e with
  | false =>
    have hhost : w.byHost e = false := by simp [Write.byHost, haccepted]
    have hlost : w.lostAfter e lost = lost := by
      funext k
      simp [hlostAfter, hhost]
    rw [(Write.apply_spec hassigns).2 haccepted, Write.replayed, hhost, hlost]
    exact h
  | true =>
    obtain ⟨ws, hws, hplaces⟩ := (Write.apply_spec hassigns).1 haccepted
    cases hon : e.on w.via with
    | true =>
      have hhost : w.byHost e = false := by simp [Write.byHost, hon]
      have hlost : w.lostAfter e lost = lost := by
        funext k
        simp [hlostAfter, hhost]
      rw [hon] at hplaces
      rw [Write.replayed, hhost, hlost]
      exact h.op hplaces
    | false =>
      have hhost : w.byHost e = true := by simp [Write.byHost, hon, haccepted]
      have hkeys : w.images.map Prod.fst = ws.map Prod.fst := by
        rw [← hws, List.map_map]
        rfl
      obtain ⟨hlifted, hwritten, hother⟩ := h.lifted.apply hassigns
      rw [hon] at hplaces
      rw [Write.replayed, if_pos hhost]
      refine h.host hplaces hlifted (fun x hx => ?_) (hkeys ▸ hother) fun k => ?_
      · exact hwritten (x.1, x.2.image) (hws ▸ List.mem_map_of_mem hx)
      · rw [hlostAfter, hhost, hkeys]
        simp

theorem Lockstep.delete (via : Option Nat) (name : String) :
    Lockstep id ((Write.delete via name).apply e) ((Write.delete via name).replayed e replay)
      ((Write.delete via name).lostAfter e lost) := by
  cases hon : e.on via with
  | true =>
    have hhost : (Write.delete via name).byHost e = false := by
      simp [Write.byHost, Write.via, hon]
    have hlost : (Write.delete via name).lostAfter e lost = lost := by
      funext k
      simp [Write.lostAfter, hhost]
    rw [Write.replayed, hhost, hlost]
    exact (h.deleteKey_op hon _).deleteKey_op ((deleteKey_on e via _).trans hon) _
  | false =>
    have hhost : (Write.delete via name).byHost e = true := by
      simp [Write.byHost, Write.via, Write.accepted, hon]
    have hboth := (h.deleteKey_host hon ⟨name, false⟩).deleteKey_host
      ((deleteKey_on e via _).trans hon) ⟨name, true⟩
    have hother := (deleteKey_getCanonical e via ⟨name, false⟩).2.2 ⟨name, true⟩ (by simp)
    have hlost : (Write.delete via name).lostAfter e lost =
        Function.update (Function.update lost ⟨name, false⟩
          (e.keyState ⟨name, false⟩).shadowed) ⟨name, true⟩
          ((e.deleteKey via ⟨name, false⟩).keyState ⟨name, true⟩).shadowed := by
      funext k
      rw [hother]
      simp only [Write.lostAfter, hhost, Write.images, Write.loses, Function.update_apply,
        List.map_cons, List.map_nil, List.mem_cons, List.not_mem_nil, or_false, Bool.true_and,
        decide_eq_true_eq]
      split_ifs <;> simp_all
    rw [Write.replayed, if_pos hhost, hlost]
    exact hboth

theorem Lockstep.rebuild : Lockstep id (Write.rebuild.apply e) (Write.rebuild.replayed e replay)
      (Write.rebuild.lostAfter e lost) := by
  have hlost : Write.rebuild.lostAfter e lost = lost := by
    funext k
    simp [Write.lostAfter, Write.images]
  rw [hlost]
  have hlifted : (Write.rebuild.replayed e replay).Lifted := by
    unfold Write.replayed
    split
    · exact ⟨h.lifted.reg, h.lifted.bytes, h.lifted.slots⟩
    · exact h.lifted
  have hbindings : ∀ k, (Write.rebuild.replayed e replay).getCanonical k =
      replay.getCanonical k := by
    intro k
    unfold Write.replayed
    split
    · exact rebuild_getCanonical replay k
    · rfl
  refine ⟨h.running, hlifted, fun k => ?_⟩
  rw [hbindings]
  simp only [Write.apply]
  rw [rebuild_keyState]
  exact (h.tracks k).rebuilt

theorem Lockstep.apply (w : Write V) (hplain : w.unregistered = true) :
    Lockstep id (w.apply e) (w.replayed e replay) (w.lostAfter e lost) := by
  cases w with
  | delete via name => exact h.delete via name
  | rebuild => exact h.rebuild
  | beginRegistration => cases hplain
  | complete id => cases hplain
  | abort id => cases hplain
  | _ => exact h.assigns rfl

end

end

end Env

end Core

end Lispico
