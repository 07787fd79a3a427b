import Lispico.Core.RetainedCharges

/-!
# Retained usage and its limits

A fresh binding is reserved before it is made. Two writes move the usage without a reservation:
a merge that overwrites, and `Rebuild` of a cell without a charge. The usage stays within its
limits where neither can raise it.
-/

namespace Lispico

namespace Core

open Lib List KeyState

section

variable {V : Type}

namespace Env

theorem charge_eq_quantity (e : Env V) : (fun k => (e.keyState k).charge) =
    quantity e.binds fun k i => ((e.cells k)[i]?.map Cell.retainedBytes).getD 0 := by
  funext k
  unfold KeyState.charge quantity KeyState.bound keyState
  cases e.binds.lookup k with
  | none => rfl
  | some i => cases hcell : (e.cells k)[i]? <;> simp [hcell]

theorem charge_finite (e : Env V) : (Function.support fun k => (e.keyState k).charge).Finite := by
  rw [charge_eq_quantity]
  exact quantity_finite _ _

variable {e : Env V} {ws : List (RegistrationKey × Effect V)} {bytes slots : Int} {on : Bool}

theorem tally_charge_writes {e' : Env V}
    (h : Writes e e' on ws) : tally (fun k => (e'.keyState k).charge) =
      tally (fun k => (e.keyState k).charge) +
        (ws.map fun x => x.2.retained - (e.keyState x.1).charge).sum := by
  have htally := tally_eq_add (g := fun k => (e'.keyState k).charge) h.distinct e.charge_finite
    fun k hk => by rw [h.untouched k hk]
  rw [htally, map_map]
  congr 2
  exact map_congr_left fun x hx => by
    rw [Function.comp_apply, (h.touched x hx).placed.charge_eq]

theorem reserve_ok_iff : e.reserveRetainedBindings bytes slots = .ok () ↔
      (e.maxRetainedBytes ≤ 0 ∨ e.retainedBytes + bytes ≤ e.maxRetainedBytes) ∧
        (e.maxRetainedSlots ≤ 0 ∨ e.retainedSlots + slots ≤ e.maxRetainedSlots) := by
  unfold reserveRetainedBindings
  split
  · rename_i hbytes
    refine ⟨nofun, fun h => absurd h.1 ?_⟩
    omega
  · split
    · rename_i hslots
      refine ⟨nofun, fun h => absurd h.2 ?_⟩
      omega
    · rename_i hbytes hslots
      refine ⟨fun _ => ⟨?_, ?_⟩, fun _ => rfl⟩ <;> omega

/-- An environment without a registration whose usage is within its limits and covers the
charges of its cells. -/
structure WithinLimits (maxBytes maxSlots : Int) (e : Env V) : Prop where
  sound : e.SlotsSound
  charged : e.Charged
  reg : e.reg = none
  limits : e.maxRetainedBytes = maxBytes ∧ e.maxRetainedSlots = maxSlots
  covers : tally (fun k => (e.keyState k).charge) ≤ e.retainedBytes
  bytes_le : e.retainedBytes ≤ maxBytes
  slots_le : e.retainedSlots ≤ maxSlots

section

variable {maxBytes maxSlots : Int} {e e' : Env V}

variable (h : WithinLimits maxBytes maxSlots e)

include h

theorem WithinLimits.reserve (hbytes : 0 < maxBytes) (hslots : 0 < maxSlots)
    (hfits : e.reserveRetainedBindings bytes slots = .ok ()) :
    e.retainedBytes + bytes ≤ maxBytes ∧ e.retainedSlots + slots ≤ maxSlots := by
  have hfits := reserve_ok_iff.1 hfits
  rw [h.limits.1, h.limits.2] at hfits
  exact ⟨hfits.1.resolve_left (by omega), hfits.2.resolve_left (by omega)⟩

theorem WithinLimits.writes (hwrites : Writes e e' on ws) (hx : ∀ x ∈ ws, 0 ≤ x.2.retained)
    (hslots : e'.retainedSlots = e.retainedSlots + (ws.map fun x => e.reserved x.1 1).sum)
    (hcovers : (ws.map fun x => x.2.retained - (e.keyState x.1).charge).sum ≤
      e'.retainedBytes - e.retainedBytes)
    (hle : e'.retainedBytes ≤ maxBytes ∧ e'.retainedSlots ≤ maxSlots) :
    WithinLimits maxBytes maxSlots e' := by
  refine ⟨h.sound.writes hwrites hslots, h.charged.writes hwrites hx, ?_, ?_, ?_, hle.1, hle.2⟩
  · have hreg := hwrites.regId
    rw [h.reg] at hreg
    exact Option.map_eq_none_iff.1 hreg
  · rw [hwrites.maxBytes, hwrites.maxSlots]
    exact h.limits
  · have hcov := h.covers
    rw [tally_charge_writes hwrites]
    omega

variable {via : Option Nat} {key : RegistrationKey} {canonical : Bool} {x : Effect V}

theorem WithinLimits.setSpec (hbytes : 0 < maxBytes) (hslots : 0 < maxSlots)
    (hspec : SetSpec e e' via key x) (hx : 0 ≤ x.retained)
    (hkept : x.retained - (e.keyState key).charge ≤ e.reserved key x.bytes) :
    WithinLimits maxBytes maxSlots e' := by
  refine h.writes hspec.writes (fun y hy => ?_) (by simpa using hspec.slots_eq) ?_ ?_
  · rw [List.mem_singleton.1 hy]
    exact hx
  · rw [hspec.bytes_eq]
    simpa using hkept
  · rw [hspec.bytes_eq, hspec.slots_eq]
    unfold reserved
    cases hb : e.bound key with
    | none => exact h.reserve hbytes hslots (hspec.fits hb)
    | some b => simpa using ⟨h.bytes_le, h.slots_le⟩

theorem WithinLimits.retires (hretires : Retires e e' (e.on via) key x) (hx : 0 ≤ x.retained)
    (hle : x.retained ≤ (e.keyState key).charge) :
    WithinLimits maxBytes maxSlots e' := by
  obtain ⟨hb, hs, hmb, hms⟩ := usage_eq_iff.1 hretires.usage
  have hoff : e.on via = false := by simp [on_eq, h.reg]
  refine ⟨(h.sound.retires (fun hon => ?_) hretires).slotsSound, h.charged.retires hx hretires,
    ?_, ?_, ?_, hb ▸ h.bytes_le, hs ▸ h.slots_le⟩
  · rw [hoff] at hon
    cases hon
  · have hreg := hretires.regId
    rw [h.reg] at hreg
    exact Option.map_eq_none_iff.1 hreg
  · rw [hmb, hms]
    exact h.limits
  · rw [hb]
    refine le_trans (tally_mono e'.charge_finite e.charge_finite fun k => ?_) h.covers
    by_cases hk : k = key
    · rw [hk, hretires.retire.placed.charge_eq]
      exact hle
    · rw [hretires.untouched k hk]

theorem WithinLimits.deleteKey (via : Option Nat)
    (key : RegistrationKey) : WithinLimits maxBytes maxSlots (e.deleteKey via key) := by
  obtain ⟨husage, ⟨i, c, hb, -, hwrites⟩ | ⟨heq, -⟩⟩ := deleteKey_spec e via key
  · obtain ⟨hbytes, hslots, -, -⟩ := usage_eq_iff.1 husage
    refine h.writes hwrites (fun x hx => ?_) ?_ ?_ ⟨hbytes ▸ h.bytes_le, hslots ▸ h.slots_le⟩
    · rw [List.mem_singleton.1 hx]
      exact (h.charged key).bound hb
    · simp [hslots, reserved, hb]
    · simp [hbytes, charge_of_bound ((e.keyState_bound key).trans hb)]
  · rwa [heq]

theorem WithinLimits.plan {xs : List (RegistrationKey × Cell V)}
    {p p' : MergePlan V} (hbytes : 0 < maxBytes)
    (hslots : 0 < maxSlots)
    (hplan : xs.foldlM (fun p x => MergePlan.add p e x.1 x.2 canonical) p = .ok p')
    (hfits : ∀ x ∈ xs, (e.bound x.1).isSome → x.2.retainedBytes ≤ (e.keyState x.1).charge)
    (hle : e.retainedBytes + p.bytes ≤ maxBytes ∧ e.retainedSlots + p.slots ≤ maxSlots) :
    e.retainedBytes + p'.bytes ≤ maxBytes ∧ e.retainedSlots + p'.slots ≤ maxSlots := by
  induction xs generalizing p with
  | nil =>
    cases hplan
    exact hle
  | cons x xs ih =>
    rw [foldlM_cons, Lib.except_bind_eq_ok_iff] at hplan
    obtain ⟨p₁, hadd, hrest⟩ := hplan
    obtain ⟨-, hb, hs, hreserve⟩ := add_spec hadd
    refine ih hrest (fun y hy => hfits y (.tail _ hy)) ?_
    rw [hb, hs]
    unfold reserved
    cases hbound : e.bound x.1 with
    | none => exact h.reserve hbytes hslots (hreserve hbound)
    | some b =>
      have hx := hfits x (.head _) (by simp [hbound])
      rw [charge_of_bound ((e.keyState_bound x.1).trans hbound)] at hx
      simp only [mergeDelta, hbound, Option.isNone_some, Bool.false_eq_true, if_false]
      omega

theorem WithinLimits.mergeInto (hbytes : 0 < maxBytes)
    (hslots : 0 < maxSlots) {src : Env V} (hsrc : src.Charged)
    {releases : List RetainedRelease}
    (hfits : ∀ x ∈ src.liveBindings, (e.bound x.1).isSome → x.2.retainedBytes ≤
      (e.keyState x.1).charge)
    (hok : src.mergeInto e via canonical = .ok (e', releases)) :
    WithinLimits maxBytes maxSlots e' := by
  obtain ⟨hwrites, hb, hs⟩ := mergeInto_spec hok
  have hle : e'.retainedBytes ≤ maxBytes ∧ e'.retainedSlots ≤ maxSlots := by
    unfold Env.mergeInto at hok
    rw [Lib.except_bind_eq_ok_iff] at hok
    obtain ⟨plan, hplan, -⟩ := hok
    obtain ⟨-, hpb, hps⟩ := plan_spec hplan
    have hfinal := h.plan hbytes hslots hplan hfits (by simpa using ⟨h.bytes_le, h.slots_le⟩)
    rw [hpb, hps, zero_add, zero_add] at hfinal
    rwa [hb, hs]
  refine h.writes hwrites (fun x hx => ?_) ?_ ?_ hle
  · obtain ⟨y, hy, rfl⟩ := List.mem_map.1 hx
    exact liveBindings_charged hsrc hy
  · rw [hs, mergeEffects, map_map]
    rfl
  · rw [hb, mergeEffects, map_map, add_sub_cancel_left]
    exact (congrArg List.sum (map_congr_left fun x _ => e.charge_eq_mergeDelta x)).le

variable [ValueShallowBytes V]

omit h in
theorem rebuild_charge (hreg : e.reg = none)
    (hlive : ∀ k i c, e.bound k = some (i, c) → c.v.isSome → 0 < c.retainedBytes) :
    (fun k => (e.rebuild.env.keyState k).charge) =
      quantity e.binds fun k i => (e.rebuiltBytes k i).getD 0 := by
  funext k
  have hentry : (e.keyState k).entry = none := by simp [keyState, hreg]
  have howned : (e.keyState k).owned = false := by simp [KeyState.owned, hentry]
  rw [rebuild_keyState, rebuilt_eq, howned, Bool.or_false, keyState_bound]
  unfold quantity
  cases hlook : e.binds.lookup k with
  | none =>
    have hb : e.bound k = none := by simp [bound, hlook]
    simp [hb, KeyState.charge, KeyState.bound]
  | some i =>
    cases hcell : (e.cells k)[i]? with
    | none =>
      have hb : e.bound k = none := by simp [bound, hlook, hcell]
      simp [hb, rebuiltBytes, hcell, KeyState.charge, KeyState.bound]
    | some c =>
      have hb : e.bound k = some (i, c) := bound_eq_some_iff.2 ⟨hlook, hcell⟩
      cases hv : c.v with
      | none =>
        simp [hb, rebuiltBytes, hcell, hv, Registration.pins, hreg, KeyState.charge,
          KeyState.bound]
      | some v =>
        have hpos := hlive k i c hb (by simp [hv])
        simp [hb, rebuiltBytes, hcell, hv, hpos, KeyState.charge]

omit h in
theorem rebuild_charge_le (hcharged : e.Charged) (k : RegistrationKey) :
    (e.rebuild.env.keyState k).charge ≤ (e.keyState k).charge ∧
      (e.rebuild.env.keyState k).slot ≤ (e.keyState k).slot := by
  rw [rebuild_keyState, rebuilt_eq]
  split
  · exact ⟨le_rfl, le_rfl⟩
  · constructor
    · unfold KeyState.charge
      cases hb : (e.keyState k).bound with
      | none => simp [KeyState.bound]
      | some b => simpa [KeyState.bound] using (hcharged k).bound hb
    · unfold KeyState.slot
      rw [if_neg (by simp)]
      split <;> decide

theorem WithinLimits.rebuild
    (hlive : ∀ k i c, e.bound k = some (i, c) → c.v.isSome → 0 < c.retainedBytes) :
    WithinLimits maxBytes maxSlots e.rebuild.env := by
  have hbytes : e.rebuild.env.retainedBytes =
      tally fun k => (e.rebuild.env.keyState k).charge := by
    rw [rebuild_charge h.reg hlive, tally_quantity, ← sum_filterMap]
    rfl
  have hcharge : tally (fun k => (e.rebuild.env.keyState k).charge) ≤
      tally fun k => (e.keyState k).charge :=
    tally_mono (charge_finite _) e.charge_finite fun k => (rebuild_charge_le h.charged k).1
  have hslot : tally (fun k => (e.rebuild.env.keyState k).slot) ≤
      tally fun k => (e.keyState k).slot :=
    tally_mono (slot_finite _) e.slot_finite fun k => (rebuild_charge_le h.charged k).2
  have hsound : e.rebuild.env.SlotsSound := h.sound.rebuild fun k i ent _ hentry _ => by
    simp [keyState, h.reg] at hentry
  refine ⟨hsound, h.charged.of_cells rfl, h.reg, h.limits, hbytes.ge, ?_, ?_⟩
  · rw [hbytes]
    exact hcharge.trans (h.covers.trans h.bytes_le)
  · exact hsound.count.le.trans (hslot.trans (h.sound.count.ge.trans h.slots_le))

end

def Write.unregistered : Write V → Bool
  | .beginRegistration | .complete _ | .abort _ => false
  | _ => true

/-- The writes that cannot raise the usage without a reservation: a merge replaces no binding
by one with a larger charge, and `Rebuild` finds a charge in every live cell. -/
def fittingWrite (e : Env V) : Write V → Bool
  | .mergeInto src _ _ => src.liveBindings.all fun x =>
    (e.bound x.1).isNone || decide (x.2.retainedBytes ≤ (e.keyState x.1).charge)
  | .rebuild => e.binds.entries.all fun x =>
    !((e.cells x.1)[x.2]?.any fun c => c.v.isSome) || decide (0 < (e.keyState x.1).charge)
  | _ => true

theorem live_charged_of_fitting (h : e.fittingWrite .rebuild = true) (k : RegistrationKey)
    (i : Nat) (c : Cell V) (hb : e.bound k = some (i, c)) (hv : c.v.isSome = true) :
    0 < c.retainedBytes := by
  obtain ⟨hlook, hcell⟩ := bound_eq_some_iff.1 hb
  have hmem : (⟨k, i⟩ : Sigma fun _ : RegistrationKey => Nat) ∈ e.binds.entries :=
    AList.mem_lookup_iff.1 hlook
  have hk := List.all_eq_true.1 h _ hmem
  simpa [hcell, hv, charge_of_bound ((e.keyState_bound k).trans hb)] using hk

variable [ValueShallowBytes V] [LawfulShallowBytes V]

theorem keptRetained_le (key : RegistrationKey) (charge : Charge) (val : V) :
    e.keptRetained key charge (retainedBindingBytes key.name val) - (e.keyState key).charge ≤
      e.reserved key (retainedBindingBytes key.name val) := by
  unfold keptRetained KeyState.charge reserved
  rw [keyState_bound]
  cases e.bound key with
  | none => simpa using (freshRetained_bounds charge key.name val).2
  | some b => simp

variable {maxBytes maxSlots : Int}

theorem WithinLimits.apply (h : WithinLimits maxBytes maxSlots e) (hbytes : 0 < maxBytes)
    (hslots : 0 < maxSlots) (w : Write V) (hplain : w.unregistered = true)
    (hsource : ∀ src, w.source = some src → Built src) (hfits : e.fittingWrite w = true) :
    WithinLimits maxBytes maxSlots (w.apply e) := by
  cases w with
  | set via key val canonical ifVacant charge =>
    refine orSame_map_fst h fun e' written hok => ?_
    cases written with
    | true =>
      exact h.setSpec hbytes hslots (setLocked_spec hok) (h.charged.keptRetained key charge val)
        (keptRetained_le key charge val)
    | false => rwa [setLocked_unwritten hok]
  | setBoth via name val canonical ifVacant charge =>
    refine orSame_map_fst h fun e' written hok => ?_
    cases written with
    | true =>
      obtain ⟨hwrites, hb, hs, hreserve⟩ := setBothLocked_spec hok
      have hvar := keptRetained_le (e := e) ⟨name, false⟩ charge val
      have hfunc := keptRetained_le (e := e) ⟨name, true⟩ charge val
      dsimp only at hvar hfunc
      refine h.writes hwrites (fun x hx => ?_) (by simpa [bothEffects] using hs) ?_ ?_
      · simp only [bothEffects, mem_cons, not_mem_nil, or_false] at hx
        rcases hx with rfl | rfl
        · exact h.charged.keptRetained ⟨name, false⟩ charge val
        · exact h.charged.keptRetained ⟨name, true⟩ charge val
      · rw [hb]
        simp only [bothEffects, map_cons, map_nil, sum_cons, sum_nil]
        omega
      · rw [hb, hs]
        rcases hreserve with hzero | hreserve
        · have hle := h.bytes_le
          have hle' := h.slots_le
          unfold reserved at hzero ⊢
          split at hzero <;> split at hzero <;> simp_all
        · exact h.reserve hbytes hslots hreserve
    | false => rwa [setBothLocked_unwritten hok]
  | replaceCell via name val charge =>
    refine orSame_of_ok h fun e' hok => ?_
    cases hb : e.bound ⟨name, false⟩ with
    | none =>
      obtain ⟨hnonneg, hle⟩ := freshRetained_bounds charge name val
      refine h.setSpec hbytes hslots (replaceCell_fresh hb hok) hnonneg ?_
      simpa [KeyState.charge, reserved, hb] using hle
    | some b =>
      obtain ⟨r, hr, hretires⟩ := replaceCell_bound hb hok
      have hcharge := charge_of_bound ((e.keyState_bound ⟨name, false⟩).trans hb)
      have hnonneg := (h.charged ⟨name, false⟩).bound hb
      rcases hr with rfl | rfl
      · exact h.retires hretires le_rfl (hcharge ▸ hnonneg)
      · exact h.retires hretires hnonneg hcharge.ge
  | delete via name => exact (h.deleteKey via _).deleteKey via _
  | rebuild => exact h.rebuild (live_charged_of_fitting hfits)
  | mergeInto src via canonical =>
    refine orSame_map_fst h fun e' releases hok => ?_
    refine h.mergeInto hbytes hslots (hsource src rfl).charged (fun x hx hsome => ?_) hok
    have hk := List.all_eq_true.1 hfits x hx
    simpa [Option.isSome_iff_ne_none.1 hsome] using hk
  | beginRegistration => cases hplain
  | complete id => cases hplain
  | abort id => cases hplain

def fittingRun (e : Env V) : List (Write V) → Bool
  | [] => true
  | w :: ws => e.fittingWrite w && fittingRun (w.apply e) ws

theorem WithinLimits.writeAll (h : WithinLimits maxBytes maxSlots e) (hbytes : 0 < maxBytes)
    (hslots : 0 < maxSlots) (ws : List (Write V)) (hplain : ∀ w ∈ ws, w.unregistered = true)
    (hsource : ∀ w ∈ ws, ∀ src, w.source = some src → Built src)
      (hfits : e.fittingRun ws = true) :
    WithinLimits maxBytes maxSlots (e.writeAll ws) := by
  induction ws generalizing e with
  | nil => exact h
  | cons w ws ih =>
    simp only [fittingRun, Bool.and_eq_true] at hfits
    have hstep := h.apply hbytes hslots w (hplain w (.head _)) (hsource w (.head _)) hfits.1
    exact ih hstep (fun w hw => hplain w (.tail _ hw)) (fun w hw => hsource w (.tail _ hw))
      hfits.2

theorem withinLimits_new (hbytes : 0 < maxBytes) (hslots : 0 < maxSlots) :
    WithinLimits maxBytes maxSlots (newEnvWithRetainedLimits maxBytes maxSlots : Env V) := by
  refine ⟨(counts_new .slots _ _).slotsSound, (Built.new _ _).charged, rfl, ⟨rfl, rfl⟩, ?_,
    hbytes.le, hslots.le⟩
  rw [charge_eq_quantity, tally_quantity]
  exact le_rfl

/-- The usage that `RetainedUsage` reports is within the limits. -/
theorem retained_usage_within_limits {maxBytes maxSlots : Int} (hbytes : 0 < maxBytes)
    (hslots : 0 < maxSlots) (ws : List (Write V)) (hplain : ∀ w ∈ ws, w.unregistered = true)
    (hsource : ∀ w ∈ ws, ∀ src, w.source = some src → Built src)
    (hfits : (newEnvWithRetainedLimits maxBytes maxSlots).fittingRun ws = true) :
    ((newEnvWithRetainedLimits maxBytes maxSlots).writeAll ws).retainedUsage.1 ≤ maxBytes ∧
      ((newEnvWithRetainedLimits maxBytes maxSlots).writeAll ws).retainedUsage.2 ≤ maxSlots := by
  have hwithin := (withinLimits_new hbytes hslots).writeAll hbytes hslots ws hplain hsource hfits
  exact ⟨hwithin.bytes_le, hwithin.slots_le⟩

end Env

end

namespace Env

theorem sourceX_built (val : String) : Built (sourceX val) := (Built.new 0 0).write nofun

/-- A merge that replaces a value by one of the same size, and a rebuild. -/
theorem retained_usage_within_limits_merge :
    (∀ src, (Write.mergeInto (sourceX "b") none false).source = some src → Built src) ∧
      (newEnvWithRetainedLimits 130 1).fittingRun
        [setX none "a", .mergeInto (sourceX "b") none false, .rebuild] = true ∧
      ((newEnvWithRetainedLimits 130 1).writeAll
        [setX none "a", .mergeInto (sourceX "b") none false, .rebuild]).retainedUsage.1 ≤ 130 ∧
      ((newEnvWithRetainedLimits 130 1).writeAll
        [setX none "a", .mergeInto (sourceX "b") none false, .rebuild]).retainedUsage.2 ≤ 1 := by
  have hfits : (newEnvWithRetainedLimits 130 1).fittingRun
      [setX none "a", .mergeInto (sourceX "b") none false, .rebuild] = true := by decide +kernel
  have hsource : ∀ src, (Write.mergeInto (sourceX "b") none false).source = some src →
      Built src := by
    intro src h
    cases h
    exact sourceX_built "b"
  refine ⟨hsource, hfits, retained_usage_within_limits (by decide) (by decide) _ ?_ ?_ hfits⟩
  · decide
  · intro w hw
    simp only [mem_cons, not_mem_nil, or_false] at hw
    rcases hw with rfl | rfl | rfl
    · nofun
    · exact hsource
    · nofun

/-- A merge replaces a value of 129 bytes by one of 131 bytes, and the usage passes the limit of
130 bytes. -/
theorem merge_exceeds_byte_limit : Built (sourceX "ab") ∧
      ((newEnvWithRetainedLimits 130 1).writeAll
        [setX none "", .mergeInto (sourceX "ab") none false]).retainedUsage = (131, 1) :=
  ⟨sourceX_built "ab", by decide +kernel⟩

-- A replaced cell has no charge of its own, and a rebuild measures its value.
example : ((newEnvWithRetainedLimits 130 1).writeAll
    [setX none "", replaceX none "ab", .rebuild]).retainedUsage = (131, 1) := by
  decide +kernel

end Env

end Core

end Lispico
