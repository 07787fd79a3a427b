import Lispico.Core.RegistrationReplay

/-!
# What writes do to bindings

A write that succeeds changes what its names answer and nothing else; whether it succeeds
depends only on which keys are bound and on the room that is left. So environments that
answer alike and have the same room go on answering alike.
-/

namespace Lispico

namespace Core

namespace Env

section

variable {V : Type}

theorem deleteName_getCanonical (e : Env V) (via : Option Nat) (name : String)
    (k : RegistrationKey) :
    (e.deleteName via name).getCanonical k =
      if k.name = name then none else e.getCanonical k := by
  obtain ⟨hvar, -, hvarOther⟩ := deleteKey_getCanonical e via ⟨name, false⟩
  obtain ⟨hfunc, -, hfuncOther⟩ :=
    deleteKey_getCanonical (e.deleteKey via ⟨name, false⟩) via ⟨name, true⟩
  obtain ⟨kname, fn⟩ := k
  unfold deleteName
  by_cases hname : kname = name
  · subst hname
    rw [if_pos rfl]
    cases fn with
    | true => exact hfunc
    | false => rw [← keyState_binding, hfuncOther _ (by simp), keyState_binding, hvar]
  · rw [if_neg hname, ← keyState_binding, hfuncOther _ (by simp [hname]),
      hvarOther _ (by simp [hname]), keyState_binding]

variable {e e' : Env V} {ws : List (RegistrationKey × Effect V)} {on : Bool}

theorem Writes.getCanonical (h : Writes e e' on ws) :
    (∀ x ∈ ws, e'.getCanonical x.1 = x.2.image) ∧
      ∀ k ∉ ws.map Prod.fst, e'.getCanonical k = e.getCanonical k := by
  refine ⟨fun x hx => ?_, fun k hk => ?_⟩
  · rw [← keyState_binding]
    exact (h.touched x hx).placed.binding_eq
  · rw [← keyState_binding, h.untouched k hk, keyState_binding]

theorem isSome_getCanonical_iff (e : Env V) (k : RegistrationKey) :
    (e.getCanonical k).isSome = (e.bound k).any fun b => b.2.v.isSome := by
  unfold getCanonical
  cases e.bound k with
  | none => rfl
  | some b => cases hv : b.2.v <;> simp [hv]

structure Alike (e e' : Env V) : Prop where
  getCanonical : ∀ k, e'.getCanonical k = e.getCanonical k
  bound : ∀ k, (e'.bound k).isSome = (e.bound k).isSome
  usage : e'.usage = e.usage

theorem Writes.bound_isSome (h : Writes e e' on ws) (k : RegistrationKey) :
    (e'.bound k).isSome = (decide (k ∈ ws.map Prod.fst) || (e.bound k).isSome) := by
  by_cases hk : k ∈ ws.map Prod.fst
  · obtain ⟨x, hx, rfl⟩ := List.mem_map.1 hk
    obtain ⟨i, c, hbound, -⟩ := (h.touched x hx).placed.bound
    rw [← keyState_bound, hbound]
    simp [hk]
  · rw [← keyState_bound, h.untouched k hk, keyState_bound]
    simp [hk]

theorem prepareFreshRetained_isOk (h : e'.usage = e.usage) (charge : Charge) (bytes slots : Int) :
    (e'.prepareFreshRetained charge bytes slots).isOk =
      (e.prepareFreshRetained charge bytes slots).isOk := by
  obtain ⟨hbytes, hslots, hmaxBytes, hmaxSlots⟩ := usage_eq_iff.1 h
  have hreserve : e'.reserveRetainedBindings bytes slots =
      e.reserveRetainedBindings bytes slots := by
    rw [reserveRetainedBindings, reserveRetainedBindings, hbytes, hslots, hmaxBytes, hmaxSlots]
  unfold prepareFreshRetained
  rw [hreserve]
  split
  · rfl
  · cases e.reserveRetainedBindings bytes slots with
    | error err => rfl
    | ok u =>
      split
      · cases chargeRetainedMeter charge bytes slots <;> rfl
      · rfl

section

variable {e e' : Env V}

/-- Two writes that end alike: both fail, or both succeed and leave environments that answer
alike. -/
def EndAlike (r r' : Except String (Env V × Bool)) : Prop :=
  match r, r' with
  | .ok (e, w), .ok (e', w') => w' = w ∧ Alike e e'
  | .error _, .error _ => True
  | _, _ => False

theorem endAlike_of_isOk {r r' : Except String (Env V × Bool)} (hok : r'.isOk = r.isOk)
    (h : ∀ e₁ w e₁' w', r = .ok (e₁, w) → r' = .ok (e₁', w') → w' = w ∧ Alike e₁ e₁') :
    EndAlike r r' := by
  cases r with
  | error err =>
    cases r' with
    | error err' => trivial
    | ok x => cases hok
  | ok x =>
    cases r' with
    | error err' => cases hok
    | ok y => exact h x.1 x.2 y.1 y.2 rfl rfl

theorem Alike.reserved (h : Alike e e') (key : RegistrationKey) (n : Int) :
    e'.reserved key n = e.reserved key n := by
  have hnone : (e'.bound key).isNone = (e.bound key).isNone := by
    rw [← Option.not_isSome, ← Option.not_isSome, h.bound]
  rw [Env.reserved, Env.reserved, hnone]

theorem Alike.writes (h : Alike e e') {e₁ e₁' : Env V} {on on' : Bool}
    {ws ws' : List (RegistrationKey × Effect V)} (hw : Writes e e₁ on ws)
    (hw' : Writes e' e₁' on' ws') (hkeys : ws'.map Prod.fst = ws.map Prod.fst)
    (hget : ∀ k, e₁'.getCanonical k = e₁.getCanonical k)
    (hbytes : e₁'.retainedBytes = e₁.retainedBytes)
    (hslots : e₁'.retainedSlots = e₁.retainedSlots) : Alike e₁ e₁' := by
  obtain ⟨-, -, hmaxBytes, hmaxSlots⟩ := usage_eq_iff.1 h.usage
  refine ⟨hget, fun k => ?_, usage_eq_iff.2 ⟨hbytes, hslots, ?_, ?_⟩⟩
  · rw [hw'.bound_isSome, hw.bound_isSome, hkeys, h.bound]
  · rw [hw'.maxBytes, hw.maxBytes, hmaxBytes]
  · rw [hw'.maxSlots, hw.maxSlots, hmaxSlots]

end

variable [ValueShallowBytes V]

variable {via : Option Nat} {val : V} {canonical ifVacant w : Bool} {charge : Charge}
  {key : RegistrationKey} {name : String}

theorem setLocked_written (h : e.setLocked via key val canonical ifVacant charge = .ok (e', w)) :
    w = !(ifVacant && (e.getCanonical key).isSome) := by
  rw [isSome_getCanonical_iff]
  unfold setLocked at h
  cases hb : e.bound key with
  | some b =>
    rw [hb] at h
    dsimp only at h
    split at h
    · rename_i hvacant
      cases h
      simp [hvacant]
    · rename_i hvacant
      cases h
      rw [Bool.not_eq_true] at hvacant
      rw [Option.any_some, hvacant]
      rfl
  | none =>
    rw [hb] at h
    dsimp only at h
    rw [Lib.except_bind_eq_ok_iff] at h
    obtain ⟨e₁, -, h⟩ := h
    cases h
    simp

theorem setLocked_getCanonical
    (h : e.setLocked via key val canonical ifVacant charge = .ok (e', w)) (k : RegistrationKey) :
    e'.getCanonical k =
      if k = key ∧ (ifVacant = true → e.getCanonical key = none) then some (val, canonical)
      else e.getCanonical k := by
  have hw := setLocked_written h
  cases w with
  | false =>
    have hboth : ifVacant = true ∧ (e.getCanonical key).isSome = true := by simpa using hw
    rw [setLocked_unwritten h, if_neg]
    rintro ⟨-, hvacant⟩
    rw [hvacant hboth.1] at hboth
    simp at hboth
  | true =>
    have hvacant : ifVacant = true → e.getCanonical key = none := by
      intro htrue
      simpa [htrue] using hw
    obtain ⟨hwritten, hother⟩ := (setLocked_spec h).writes.getCanonical
    by_cases hk : k = key
    · subst hk
      rw [if_pos ⟨rfl, hvacant⟩]
      exact hwritten _ (.head _)
    · rw [if_neg (fun hboth => hk hboth.1)]
      exact hother k (by simpa using hk)

theorem setBothLocked_written
    (h : e.setBothLocked via name val canonical ifVacant charge = .ok (e', w)) :
    w = !(ifVacant && ((e.getCanonical ⟨name, false⟩).isSome ||
      (e.getCanonical ⟨name, true⟩).isSome)) := by
  unfold setBothLocked at h
  dsimp only at h
  split at h
  · rename_i hvacant
    cases h
    simp [hvacant]
  · rename_i hvacant
    rw [Lib.except_bind_eq_ok_iff] at h
    obtain ⟨e₁, -, h⟩ := h
    cases h
    rw [Bool.not_eq_true] at hvacant
    rw [hvacant]
    rfl

theorem setBothLocked_getCanonical
    (h : e.setBothLocked via name val canonical ifVacant charge = .ok (e', w))
    (k : RegistrationKey) :
    e'.getCanonical k =
      if k.name = name ∧ (ifVacant = true → e.getCanonical ⟨name, false⟩ = none ∧
        e.getCanonical ⟨name, true⟩ = none) then some (val, canonical)
      else e.getCanonical k := by
  have hw := setBothLocked_written h
  cases w with
  | false =>
    have hboth : ifVacant = true ∧ ((e.getCanonical ⟨name, false⟩).isSome = true ∨
        (e.getCanonical ⟨name, true⟩).isSome = true) := by
      rw [eq_comm, Bool.not_eq_false', Bool.and_eq_true, Bool.or_eq_true] at hw
      exact hw
    rw [setBothLocked_unwritten h, if_neg]
    rintro ⟨-, hvacant⟩
    obtain ⟨hvar, hfunc⟩ := hvacant hboth.1
    simp [hvar, hfunc] at hboth
  | true =>
    have hvacant : ifVacant = true → e.getCanonical ⟨name, false⟩ = none ∧
        e.getCanonical ⟨name, true⟩ = none := by
      intro htrue
      simpa [htrue] using hw
    obtain ⟨hwritten, hother⟩ := (setBothLocked_spec h).1.getCanonical
    obtain ⟨kname, fn⟩ := k
    by_cases hname : kname = name
    · subst hname
      rw [if_pos ⟨rfl, hvacant⟩]
      cases fn with
      | false => exact hwritten _ (.head _)
      | true => exact hwritten _ (.tail _ (.head _))
    · rw [if_neg (fun hboth => hname hboth.1)]
      exact hother _ (by simp [bothEffects, hname])

theorem setLocked_isOk (e : Env V) (via : Option Nat) (key : RegistrationKey) (val : V)
    (canonical ifVacant : Bool) (charge : Charge) :
    (e.setLocked via key val canonical ifVacant charge).isOk = ((e.bound key).isSome ||
        (e.prepareFreshRetained charge (retainedBindingBytes key.name val) 1).isOk) := by
  unfold setLocked
  cases hb : e.bound key with
  | some b =>
    dsimp only
    split <;> rfl
  | none =>
    dsimp only
    cases e.prepareFreshRetained charge (retainedBindingBytes key.name val) 1 <;> rfl

theorem setBothLocked_isOk (e : Env V) (via : Option Nat) (name : String) (val : V)
    (canonical ifVacant : Bool) (charge : Charge) :
    (e.setBothLocked via name val canonical ifVacant charge).isOk =
      ((ifVacant && ((e.getCanonical ⟨name, false⟩).isSome ||
        (e.getCanonical ⟨name, true⟩).isSome)) ||
        (e.prepareFreshRetained charge
          (retainedBindingBytes name val * (e.reserved ⟨name, false⟩ 1 + e.reserved ⟨name, true⟩
            1))
          (e.reserved ⟨name, false⟩ 1 + e.reserved ⟨name, true⟩ 1)).isOk) := by
  unfold setBothLocked reserved
  dsimp only
  split
  · rename_i hvacant
    rw [hvacant]
    rfl
  · rename_i hvacant
    rw [Bool.not_eq_true] at hvacant
    rw [hvacant, Bool.false_or]
    generalize e.prepareFreshRetained charge _ _ = r
    cases r <;> rfl

section

variable {e e' : Env V}

theorem Alike.setLocked (h : Alike e e') (via : Option Nat) (key : RegistrationKey) (val : V)
    (canonical ifVacant : Bool) (charge : Charge) :
    EndAlike (e.setLocked via key val canonical ifVacant charge)
      (e'.setLocked via key val canonical ifVacant charge) := by
  refine endAlike_of_isOk ?_ fun e₁ w e₁' w' hset hset' => ?_
  · rw [setLocked_isOk, setLocked_isOk, h.bound, prepareFreshRetained_isOk h.usage]
  · have hw : w' = w := by rw [setLocked_written hset', setLocked_written hset, h.getCanonical]
    subst hw
    refine ⟨rfl, ?_⟩
    cases w' with
    | false => exact setLocked_unwritten hset ▸ setLocked_unwritten hset' ▸ h
    | true =>
      have hspec := setLocked_spec hset
      have hspec' := setLocked_spec hset'
      obtain ⟨hbytes, hslots, -, -⟩ := usage_eq_iff.1 h.usage
      refine h.writes hspec.writes hspec'.writes rfl (fun k => ?_) ?_ ?_
      · rw [setLocked_getCanonical hset', setLocked_getCanonical hset, h.getCanonical,
          h.getCanonical]
      · rw [hspec'.bytes_eq, hspec.bytes_eq, hbytes, h.reserved]
      · rw [hspec'.slots_eq, hspec.slots_eq, hslots, h.reserved]

theorem Alike.setBothLocked (h : Alike e e') (via : Option Nat) (name : String) (val : V)
    (canonical ifVacant : Bool) (charge : Charge) :
    EndAlike (e.setBothLocked via name val canonical ifVacant charge)
      (e'.setBothLocked via name val canonical ifVacant charge) := by
  refine endAlike_of_isOk ?_ fun e₁ w e₁' w' hset hset' => ?_
  · rw [setBothLocked_isOk, setBothLocked_isOk, h.getCanonical, h.getCanonical, h.reserved,
      h.reserved, prepareFreshRetained_isOk h.usage]
  · have hw : w' = w := by
      rw [setBothLocked_written hset', setBothLocked_written hset, h.getCanonical, h.getCanonical]
    subst hw
    refine ⟨rfl, ?_⟩
    cases w' with
    | false => exact setBothLocked_unwritten hset ▸ setBothLocked_unwritten hset' ▸ h
    | true =>
      obtain ⟨hwrites, hbytes₁, hslots₁, -⟩ := setBothLocked_spec hset
      obtain ⟨hwrites', hbytes₁', hslots₁', -⟩ := setBothLocked_spec hset'
      obtain ⟨hbytes, hslots, -, -⟩ := usage_eq_iff.1 h.usage
      refine h.writes hwrites hwrites' rfl (fun k => ?_) ?_ ?_
      · rw [setBothLocked_getCanonical hset', setBothLocked_getCanonical hset, h.getCanonical,
          h.getCanonical, h.getCanonical]
      · rw [hbytes₁', hbytes₁, hbytes, h.reserved, h.reserved]
      · rw [hslots₁', hslots₁, hslots, h.reserved, h.reserved]

end

end

end Env

end Core

end Lispico
