import Lispico.Core.RetainedSlots

/-!
# The charges that cells keep

No cell of an environment that was built by writes holds a negative charge, whatever the
registrations on it did. A merge copies the charges of its source, so the sources of its
merges have to be such environments as well.
-/

namespace Lispico

namespace Core

open Lib

/-- Sizes are not negative. -/
class LawfulShallowBytes (V : Type) [ValueShallowBytes V] : Prop where
  valueShallowBytes_nonneg : ∀ v : V, 0 ≤ ValueShallowBytes.valueShallowBytes v

instance : LawfulShallowBytes String := by
  refine ⟨fun s => ?_⟩
  simp only [ValueShallowBytes.valueShallowBytes]
  omega

section

variable {V : Type}

namespace KeyState

def Charged (ks : KeyState V) : Prop := ∀ c ∈ ks.cells, 0 ≤ c.retainedBytes

variable {ks : KeyState V} {x : Effect V} {c : Cell V} {on : Bool}

theorem Charged.bound (h : ks.Charged) {i : Nat} (hbound : ks.bound = some (i, c)) :
    0 ≤ c.retainedBytes :=
  h c (List.mem_of_getElem? (bind_of_bound hbound).2)

theorem Charged.touch {ks' : KeyState V} (h : ks.Charged)
    (hx : 0 ≤ x.retained) (htouch : Touch on x ks ks') : ks'.Charged := by
  intro c hc
  cases htouch with
  | @inPlace i c₀ c' hbound hcell hversion =>
    rcases List.mem_or_eq_of_mem_set hc with hc | rfl
    · exact h c hc
    · exact hcell.2.2 ▸ hx
  | @fresh c' hbound hcell =>
    rcases List.mem_append.1 hc with hc | hc
    · exact h c hc
    · rw [List.mem_singleton.1 hc, hcell.2.2]
      exact hx

theorem Charged.retire {ks ks' : KeyState V} (h : ks.Charged)
    (hx : 0 ≤ x.retained) (hretire : Retire on x ks ks') : ks'.Charged := by
  intro c hc
  cases hretire with
  | @retire i c₀ c' old hbound hold hcharge hcell =>
    rcases List.mem_append.1 hc with hc | hc
    · rcases List.mem_or_eq_of_mem_set hc with hc | rfl
      · exact h c hc
      · rcases hcharge with hcharge | hcharge
        · exact hcharge ▸ h.bound hbound
        · exact hcharge.ge
    · rw [List.mem_singleton.1 hc, hcell.2.2]
      exact hx

theorem charged_modify {cells : List (Cell V)} (h : ∀ c ∈ cells, 0 ≤ c.retainedBytes) (i : Nat)
    {f : Cell V → Cell V} (hf : ∀ c, 0 ≤ c.retainedBytes → 0 ≤ (f c).retainedBytes) :
    ∀ c ∈ cells.modify i f, 0 ≤ c.retainedBytes := by
  intro c hc
  obtain ⟨j, hj⟩ := List.mem_iff_getElem?.1 hc
  rw [List.getElem?_modify] at hj
  obtain ⟨d, hd, rfl⟩ := Option.map_eq_some_iff.1 hj
  have hd := h d (List.mem_of_getElem? hd)
  split
  · exact hf d hd
  · exact hd

theorem withdrawn_charge (h : 0 ≤ c.retainedBytes) : 0 ≤ (withdrawn c).retainedBytes := by
  unfold withdrawn
  dsimp only
  split
  · exact le_rfl
  · exact h

theorem Charged.undo (h : ks.Charged) (ent : RegistrationEntry V) : (ks.undo ent).Charged := by
  unfold KeyState.undo
  split
  · exact h
  · rename_i i c hbound
    split
    · exact h
    · split
      · exact charged_modify h i fun _ => withdrawn_charge
      · rename_i p hprior
        have hrestored := charged_modify h p (f := restore ent) fun _ => id
        split
        · rename_i hpi
          exact hpi ▸ hrestored
        · exact charged_modify hrestored i fun _ => withdrawn_charge

end KeyState

namespace Env

def Charged (e : Env V) : Prop := ∀ k, (e.keyState k).Charged

variable {e e' : Env V}

variable (h : e.Charged) {on : Bool}

include h

theorem Charged.writes {ws : List (RegistrationKey × Effect V)}
    (hwrites : Writes e e' on ws) (hx : ∀ x ∈ ws, 0 ≤ x.2.retained) : e'.Charged := by
  intro k
  by_cases hk : k ∈ ws.map Prod.fst
  · obtain ⟨x, hmem, rfl⟩ := List.mem_map.1 hk
    exact (h x.1).touch (hx x hmem) (hwrites.touched x hmem)
  · rw [hwrites.untouched k hk]
    exact h k

theorem Charged.retires {key : RegistrationKey} {x : Effect V}
    (hx : 0 ≤ x.retained) (hretires : Retires e e' on key x) : e'.Charged := by
  intro k
  by_cases hk : k = key
  · rw [hk]
    exact (h key).retire hx hretires.retire
  · rw [hretires.untouched k hk]
    exact h k

theorem Charged.of_cells (hcells : e'.cells = e.cells) : e'.Charged := by
  intro k c hc
  exact h k c (by simpa [keyState, hcells] using hc)

theorem Charged.deleteKey (via : Option Nat) (key : RegistrationKey) :
    (e.deleteKey via key).Charged := by
  obtain ⟨-, ⟨i, c, hb, -, hwrites⟩ | ⟨heq, -⟩⟩ := deleteKey_spec e via key
  · refine h.writes hwrites fun x hx => ?_
    rw [List.mem_singleton.1 hx]
    exact (h key).bound hb
  · rwa [heq]

theorem Charged.abort (id : Nat) : (e.abort id).1.Charged := by
  by_cases hid : ∃ r, e.reg = some r ∧ r.id = id
  · obtain ⟨r, hreg, rfl⟩ := hid
    intro k
    rw [abort_keyState hreg]
    unfold KeyState.aborted
    cases (e.keyState k).entry with
    | none => exact h k
    | some ent => exact (h k).undo ent
  · rw [abort_of_ne fun r hreg heq => hid ⟨r, hreg, heq⟩]
    exact h

omit h in
theorem liveBindings_charged {src : Env V} (h : src.Charged) {x : RegistrationKey × Cell V}
    (hx : x ∈ src.liveBindings) : 0 ≤ x.2.retainedBytes := by
  have hall : x ∈ src.binds.entries.filterMap fun x =>
      ((src.cells x.1)[x.2]?.filter fun c => c.v.isSome).map fun c => (x.1, c) := by
    unfold liveBindings at hx
    rcases List.mem_append.1 hx with hx | hx <;> exact (List.mem_filter.1 hx).1
  obtain ⟨y, -, hy⟩ := List.mem_filterMap.1 hall
  obtain ⟨c, hc, rfl⟩ := Option.map_eq_some_iff.1 hy
  exact h y.1 c (List.mem_of_getElem? (Option.eq_some_of_filter_eq_some hc))

def Write.source : Write V → Option (Env V)
  | .mergeInto src _ _ => some src
  | _ => none

variable [ValueShallowBytes V]

inductive Built : Env V → Prop where
  | new (maxBytes maxSlots : Int) : Built (newEnvWithRetainedLimits maxBytes maxSlots)
  | write {e : Env V} {w : Write V} (h : Built e) (hsource : ∀ src, w.source = some src → Built
      src) :
      Built (w.apply e)

variable [LawfulShallowBytes V]

omit h in
theorem retainedBindingBytes_pos (name : String) (val : V) :
    0 < retainedBindingBytes name val := by
  have hval := LawfulShallowBytes.valueShallowBytes_nonneg val
  unfold retainedBindingBytes
  omega

omit h in
theorem freshRetained_bounds (charge : Charge) (name : String) (val : V) :
    0 ≤ freshRetained charge (retainedBindingBytes name val) ∧
      freshRetained charge (retainedBindingBytes name val) ≤ retainedBindingBytes name val := by
  have hpos := retainedBindingBytes_pos name val
  unfold freshRetained
  split
  · exact ⟨le_rfl, hpos.le⟩
  · exact ⟨hpos.le, le_rfl⟩

theorem Charged.keptRetained (key : RegistrationKey) (charge : Charge) (val : V) :
    0 ≤ e.keptRetained key charge (retainedBindingBytes key.name val) := by
  unfold Env.keptRetained
  split
  · rename_i i c hb
    exact (h key).bound hb
  · exact (freshRetained_bounds charge key.name val).1

theorem Charged.apply (w : Write V)
    (hsource : ∀ src, w.source = some src → src.Charged) : (w.apply e).Charged := by
  cases w with
  | set via key val canonical ifVacant charge =>
    refine orSame_map_fst h fun e' written hok => ?_
    cases written with
    | true =>
      refine h.writes (setLocked_spec hok).writes fun x hx => ?_
      rw [List.mem_singleton.1 hx]
      exact h.keptRetained key charge val
    | false => rwa [setLocked_unwritten hok]
  | setBoth via name val canonical ifVacant charge =>
    refine orSame_map_fst h fun e' written hok => ?_
    cases written with
    | true =>
      refine h.writes (setBothLocked_spec hok).1 fun x hx => ?_
      simp only [bothEffects, List.mem_cons, List.not_mem_nil, or_false] at hx
      rcases hx with rfl | rfl
      · exact h.keptRetained ⟨name, false⟩ charge val
      · exact h.keptRetained ⟨name, true⟩ charge val
    | false => rwa [setBothLocked_unwritten hok]
  | replaceCell via name val charge =>
    refine orSame_of_ok h fun e' hok => ?_
    cases hb : e.bound ⟨name, false⟩ with
    | none =>
      refine h.writes (replaceCell_fresh hb hok).writes fun x hx => ?_
      rw [List.mem_singleton.1 hx]
      exact (freshRetained_bounds charge name val).1
    | some b =>
      obtain ⟨r, hr, hretires⟩ := replaceCell_bound hb hok
      refine h.retires ?_ hretires
      rcases hr with rfl | rfl
      · exact le_rfl
      · exact (h ⟨name, false⟩).bound hb
  | delete via name => exact (h.deleteKey via _).deleteKey via _
  | rebuild => exact h.of_cells rfl
  | mergeInto src via canonical =>
    refine orSame_map_fst h fun e' releases hok => ?_
    refine h.writes (mergeInto_spec hok).1 fun x hx => ?_
    obtain ⟨y, hy, rfl⟩ := List.mem_map.1 hx
    exact liveBindings_charged (hsource src rfl) hy
  | beginRegistration =>
    refine orSame_of_ok h fun e' hok => h.of_cells ?_
    unfold Env.beginRegistration at hok
    split at hok <;> cases hok
    rfl
  | complete id =>
    refine h.of_cells ?_
    simp only [Write.apply, Env.complete]
    split <;> rfl
  | abort id => exact h.abort id

omit h

theorem Built.charged (h : Built e) : e.Charged := by
  induction h with
  | new maxBytes maxSlots =>
    intro k c hc
    cases hc
  | write h hsource ih ihsource => exact ih.apply _ ihsource

end Env

end

end Core

end Lispico
