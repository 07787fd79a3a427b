import Lispico.Core.EnvKeys

/-!
# What the writes of an environment do

For every write that is accepted: the keys it touches and what it writes to them, and what
it adds to the retained usage.
-/

namespace Lispico

namespace Core

open Lib List KeyState

namespace Env

section

variable {V : Type} [ValueShallowBytes V]

/-- What an accepted `Set` or `SetFunc` does. -/
structure SetSpec (e e' : Env V) (via : Option Nat) (key : RegistrationKey) (x : Effect V) :
    Prop where
  writes : Writes e e' (e.on via) [(key, x)]
  bytes_eq : e'.retainedBytes = e.retainedBytes + e.reserved key x.bytes
  slots_eq : e'.retainedSlots = e.retainedSlots + e.reserved key 1
  fits : e.bound key = none → e.reserveRetainedBindings x.bytes 1 = .ok ()

variable {e e' : Env V} {via : Option Nat} {val : V} {canonical ifVacant : Bool} {charge : Charge}
  {key : RegistrationKey} {f : KeyState V → KeyState V} {x : Effect V}

omit [ValueShallowBytes V] in
theorem SetSpec.of_bound {b : Nat × Cell V} (hb : e.bound key = some b) (h : Acts e e' (only key f))
    (htouch : KeyState.Touch (e.on via) x (e.keyState key) (f (e.keyState key))) :
    SetSpec e e' via key x := by
  obtain ⟨hbytes, hslots, -⟩ := usage_eq_iff.1 h.usage
  refine ⟨h.writes htouch, ?_, ?_, fun hnone => ?_⟩
  · simpa [reserved, hb] using hbytes
  · simpa [reserved, hb] using hslots
  · rw [hb] at hnone
    cases hnone

omit [ValueShallowBytes V] in
theorem SetSpec.of_fresh {e₁ : Env V} (hprep : e.prepareFreshRetained charge x.bytes 1 = .ok e₁)
    (hb : e.bound key = none) (h : Acts e₁ e' (only key f))
    (htouch : KeyState.Touch (e.on via) x (e.keyState key) (f (e.keyState key))) :
    SetSpec e e' via key x := by
  obtain ⟨hsame, hbytes, hslots, hfits⟩ := prepareFreshRetained_spec hprep
  have husage := usage_eq_iff.1 h.usage
  rw [← hsame.keys] at htouch
  refine ⟨(h.writes htouch).left hsame, ?_, ?_, fun _ => ?_⟩
  · rw [reserved, hb]
    exact husage.1.trans hbytes
  · rw [reserved, hb]
    exact husage.2.1.trans hslots
  · rcases hfits with ⟨-, hzero⟩ | hfits
    · cases hzero
    · exact hfits

theorem setLocked_spec (h : e.setLocked via key val canonical ifVacant charge = .ok (e', true)) :
    SetSpec e e' via key ⟨some val, canonical,
      e.keptRetained key charge (retainedBindingBytes key.name val),
      retainedBindingBytes key.name val⟩ := by
  have htouch := e.touch_writeKept key charge (retainedBindingBytes key.name val) val canonical
    (e.on via)
  unfold setLocked at h
  cases hb : e.bound key with
  | some b =>
    obtain ⟨i, c⟩ := b
    rw [hb] at h
    dsimp only at h
    split at h
    · cases h
    · cases h
      have hwrite := acts_writeKept ((e.beforeWrite via key).localCell key).1 key
        ((e.beforeWrite via key).localCell key).2 charge (retainedBindingBytes key.name val) val
        canonical (e.bound key).isNone
      have hput := hwrite.put (e.reserved key (retainedBindingBytes key.name val))
        (e.reserved key 1)
      refine .of_bound (f := fun ks => ks.put _ _ _ _) hb ?_ htouch
      simpa [localCell_bound hb, reserved, hb] using hput
  | none =>
    rw [hb] at h
    dsimp only at h
    rw [Lib.except_bind_eq_ok_iff] at h
    obtain ⟨e₁, hprep, h⟩ := h
    cases h
    have hsame := (prepareFreshRetained_spec hprep).1
    have hwrite := acts_writeKept ((e₁.beforeWrite via key).localCell key).1 key
      ((e₁.beforeWrite via key).localCell key).2 charge (retainedBindingBytes key.name val) val
      canonical (e.bound key).isNone
    have hput := hwrite.put (e.reserved key (retainedBindingBytes key.name val))
      (e.reserved key 1)
    rw [hsame.on_eq] at hput
    refine .of_fresh (f := fun ks => ks.put _ _ _ _) hprep hb ?_ htouch
    simpa [reserved, hb] using hput

theorem setLocked_unwritten
    (h : e.setLocked via key val canonical ifVacant charge = .ok (e', false)) : e' = e := by
  unfold setLocked at h
  split at h
  · split at h
    · cases h
      rfl
    · cases h
  · rw [Lib.except_bind_eq_ok_iff] at h
    obtain ⟨e₁, -, h⟩ := h
    cases h

def bothEffects (e : Env V) (name : String) (val : V) (canonical : Bool) (charge : Charge) :
    List (RegistrationKey × Effect V) :=
  [(⟨name, false⟩, ⟨some val, canonical,
      e.keptRetained ⟨name, false⟩ charge (retainedBindingBytes name val),
      retainedBindingBytes name val⟩),
    (⟨name, true⟩, ⟨some val, canonical,
      e.keptRetained ⟨name, true⟩ charge (retainedBindingBytes name val),
      retainedBindingBytes name val⟩)]

section Both

variable (e : Env V) (via : Option Nat) (name : String) (val : V) (canonical : Bool)
  (charge : Charge) (newVar newFunc : Bool)

variable {newVar newFunc}

theorem writeBoth_writes (hnewVar : newVar = (e.bound ⟨name, false⟩).isNone)
    (hnewFunc : newFunc = (e.bound ⟨name, true⟩).isNone) :
    Writes e (e.writeBoth via name val canonical charge newVar newFunc) (e.on via)
        (e.bothEffects name val canonical charge) ∧
      (e.writeBoth via name val canonical charge newVar newFunc).usage = e.usage := by
  subst hnewVar hnewFunc
  have hne : (⟨name, false⟩ : RegistrationKey) ≠ ⟨name, true⟩ := by simp
  obtain ⟨hother, hvar, hfunc, hregId, husage⟩ := keyState_both hne
    (acts_beforeWrite e via _) (acts_beforeWrite _ via _) (acts_localCell _ _)
    (acts_localCell _ _)
    (acts_writeKept _ _ _ charge (retainedBindingBytes name val) val canonical
      (e.bound ⟨name, false⟩).isNone)
    (acts_writeKept _ _ _ charge (retainedBindingBytes name val) val canonical
      (e.bound ⟨name, true⟩).isNone)
    (acts_afterWrite _ via _ (e.reserved ⟨name, false⟩ (retainedBindingBytes name val))
      (e.reserved ⟨name, false⟩ 1))
    (acts_afterWrite _ via _ (e.reserved ⟨name, true⟩ (retainedBindingBytes name val))
      (e.reserved ⟨name, true⟩ 1))
  obtain ⟨-, -, hbytes, hslots⟩ := usage_eq_iff.1 husage
  refine ⟨⟨by simp [bothEffects], fun k hk => ?_, fun x hx => ?_, hregId, hbytes, hslots⟩,
    husage⟩
  · simp only [bothEffects, map_cons, map_nil, mem_cons, not_mem_nil,
      or_false, not_or] at hk
    exact hother k hk.1 hk.2
  · simp only [bothEffects, mem_cons, not_mem_nil, or_false] at hx
    rcases hx with rfl | rfl
    · exact hvar.symm ▸ touch_writeKept ..
    · exact hfunc.symm ▸ touch_writeKept ..

end Both

variable {name : String}

theorem setBothLocked_spec
    (h : e.setBothLocked via name val canonical ifVacant charge = .ok (e', true)) :
    Writes e e' (e.on via) (e.bothEffects name val canonical charge) ∧
      e'.retainedBytes = e.retainedBytes +
        (e.reserved ⟨name, false⟩ (retainedBindingBytes name val) +
          e.reserved ⟨name, true⟩ (retainedBindingBytes name val)) ∧
      e'.retainedSlots =
        e.retainedSlots + (e.reserved ⟨name, false⟩ 1 + e.reserved ⟨name, true⟩ 1) ∧
      (e.reserved ⟨name, false⟩ 1 + e.reserved ⟨name, true⟩ 1 = 0 ∨
        e.reserveRetainedBindings (e.reserved ⟨name, false⟩ (retainedBindingBytes name val) +
          e.reserved ⟨name, true⟩ (retainedBindingBytes name val))
          (e.reserved ⟨name, false⟩ 1 + e.reserved ⟨name, true⟩ 1) = .ok ()) := by
  unfold setBothLocked at h
  dsimp only at h
  split at h
  · cases h
  · rw [Lib.except_bind_eq_ok_iff] at h
    obtain ⟨e₁, hprep, h⟩ := h
    cases h
    obtain ⟨hsame, hbytes, hslots, hfits⟩ := prepareFreshRetained_spec hprep
    obtain ⟨hwrites, husage⟩ := writeBoth_writes e₁ via name val canonical charge rfl rfl
    simp only [hsame.bound_eq] at hwrites husage
    obtain ⟨hb, hs, -⟩ := usage_eq_iff.1 husage
    have hslotsEq : (if (e.bound ⟨name, false⟩).isNone then 1 else 0) +
        (if (e.bound ⟨name, true⟩).isNone then (1 : Int) else 0) =
        e.reserved ⟨name, false⟩ 1 + e.reserved ⟨name, true⟩ 1 := rfl
    have hbytesEq : retainedBindingBytes name val *
        (e.reserved ⟨name, false⟩ 1 + e.reserved ⟨name, true⟩ 1) =
        e.reserved ⟨name, false⟩ (retainedBindingBytes name val) +
          e.reserved ⟨name, true⟩ (retainedBindingBytes name val) := by
      unfold reserved
      split <;> split <;> omega
    rw [hslotsEq, hbytesEq] at hbytes hfits
    rw [hslotsEq] at hslots
    refine ⟨?_, hb.trans hbytes, hs.trans hslots, ?_⟩
    · have hleft := hwrites.left hsame
      simp only [hsame.bound_eq, hsame.on_eq, bothEffects, keptRetained] at hleft
      exact hleft
    · exact hfits.imp_left And.right

theorem setBothLocked_unwritten
    (h : e.setBothLocked via name val canonical ifVacant charge = .ok (e', false)) : e' = e := by
  unfold setBothLocked at h
  dsimp only at h
  split at h
  · cases h
    rfl
  · rw [Lib.except_bind_eq_ok_iff] at h
    obtain ⟨e₁, -, h⟩ := h
    cases h

theorem replaceCell_fresh (hb : e.bound ⟨name, false⟩ = none)
    (h : e.replaceCell via name val charge = .ok e') :
    SetSpec e e' via ⟨name, false⟩ ⟨some val, false,
      freshRetained charge (retainedBindingBytes name val), retainedBindingBytes name val⟩ := by
  unfold replaceCell at h
  dsimp only at h
  rw [hb] at h
  dsimp only at h
  rw [Lib.except_bind_eq_ok_iff] at h
  obtain ⟨e₁, hprep, h⟩ := h
  cases h
  have hsame := (prepareFreshRetained_spec hprep).1
  have hbefore := acts_beforeWrite e₁ via ⟨name, false⟩
  have hbind := hbefore.andThen
    (acts_bindFresh _ ⟨name, false⟩ (⟨some val, false, 1, none, 0⟩ : Cell V))
  have hkept := hbind.andThen (acts_updateCell (bumpNameGen _) ⟨name, false⟩
    ((e₁.beforeWrite via ⟨name, false⟩).cells ⟨name, false⟩).length
    (keepCharge charge (retainedBindingBytes name val))).bumped
  have hlen : ((e₁.beforeWrite via ⟨name, false⟩).cells ⟨name, false⟩).length =
      ((e.keyState ⟨name, false⟩).record (e.on via)).cells.length := by
    rw [← hsame.keys]
    exact congrArg (fun ks => ks.cells.length) hbefore.self
  obtain ⟨hv, hcanonical, -, hretained⟩ := keepCharge_spec charge (retainedBindingBytes name val)
    (⟨some val, false, 1, none, 0⟩ : Cell V)
  rw [recordFreshRetained_eq]
  refine .of_fresh hprep hb (hkept.andThen (acts_afterWrite _ via ⟨name, false⟩
    (retainedBindingBytes name val) 1)) ?_
  rw [hkept.on_eq, hsame.on_eq, hlen, bindFresh_updateCell]
  exact @touch_fresh V (e.keyState _) _ hb _ ⟨hv, hcanonical, hretained rfl⟩ _

/-- `ReplaceCell` binds a new cell in the place of the old one. The new cell has no charge,
or the charge of the old one. -/
theorem replaceCell_bound {i : Nat} {c : Cell V} (hb : e.bound ⟨name, false⟩ = some (i, c))
    (h : e.replaceCell via name val charge = .ok e') :
    ∃ r, (r = 0 ∨ r = c.retainedBytes) ∧
      Retires e e' (e.on via) ⟨name, false⟩ ⟨some val, false, r, 0⟩ := by
  obtain ⟨-, hcell⟩ := bound_eq_some_iff.1 hb
  have hbefore := acts_beforeWrite e via ⟨name, false⟩
  unfold replaceCell at h
  dsimp only at h
  rw [hb] at h
  cases h
  split
  · have hbind := (hbefore.andThen (acts_updateCell _ ⟨name, false⟩ i
      fun c => { c with retainedMeter := none, retainedBytes := 0 })).andThen
      (acts_bindFresh _ ⟨name, false⟩
        ⟨some val, false, 1, c.retainedMeter, c.retainedBytes⟩)
    refine ⟨c.retainedBytes, .inr rfl, (hbind.andThen
      (acts_afterWrite (bumpNameGen _) via ⟨name, false⟩ 0 0).bumped).retires ?_⟩
    exact hbind.on_eq via ▸ retire_bindFresh hb (modify_eq_set hcell _) rfl
      ⟨rfl, rfl, rfl⟩ (.inr rfl) ⟨rfl, rfl, rfl⟩
  · have hbind := hbefore.andThen
      (acts_bindFresh _ ⟨name, false⟩ ⟨some val, false, 1, none, 0⟩)
    refine ⟨0, .inl rfl, (hbind.andThen
      (acts_afterWrite (bumpNameGen _) via ⟨name, false⟩ 0 0).bumped).retires ?_⟩
    have hsame := modify_eq_set hcell id
    rw [modify_id] at hsame
    exact hbind.on_eq via ▸ retire_bindFresh hb hsame rfl ⟨rfl, rfl, rfl⟩ (.inl rfl)
      ⟨rfl, rfl, rfl⟩

theorem rebuild_keyState (e : Env V) (k : RegistrationKey) :
    e.rebuild.env.keyState k = (e.keyState k).rebuilt := by
  simp only [rebuild, keyState, KeyState.rebuilt, Keyed.lookup_keep]
  congr 2
  funext i
  unfold rebuiltBytes Registration.pins
  cases (e.cells k)[i]? with
  | none => rfl
  | some c =>
    cases hv : c.v with
    | none =>
      simp only [Option.bind_eq_bind, Option.bind_some, hv, Option.any_some,
        Option.isSome_none, Bool.false_or]
      split <;> simp_all
    | some v => simp [hv]

end

section

variable {V : Type} (via : Option Nat) (e : Env V)

theorem deleteKey_spec (via : Option Nat) (key : RegistrationKey) :
    (e.deleteKey via key).usage = e.usage ∧
      ((∃ i c, e.bound key = some (i, c) ∧ (c.v.isSome || c.canonical) = true ∧
          Writes e (e.deleteKey via key) (e.on via) [(key, ⟨none, false, c.retainedBytes, 0⟩)]) ∨
        e.deleteKey via key = e ∧
          ∀ i c, e.bound key = some (i, c) → c.v = none ∧ c.canonical = false) := by
  unfold deleteKey
  cases hb : e.bound key with
  | none => exact ⟨rfl, .inr ⟨rfl, nofun⟩⟩
  | some b =>
    obtain ⟨i, c⟩ := b
    obtain ⟨hlook, hcell⟩ := bound_eq_some_iff.1 hb
    dsimp only
    split
    · rename_i hlive
      have hupdate := acts_updateCell ((e.beforeWrite via key).localCell key).1 key
        ((e.beforeWrite via key).localCell key).2
        fun c => { c with v := none, canonical := false, version := c.version + 1 }
      have hput := hupdate.put 0 0
      rw [localCell_bound hb] at hput
      have htouch := @touch_put V (e.keyState key) ⟨none, false, c.retainedBytes, 0⟩
        (fun c => { c with v := none, canonical := false, version := c.version + 1 })
        (fun _ => rfl) (by rw [keyState_bound, hb]; exact ⟨rfl, rfl, rfl⟩) (e.on via)
      rw [keyState_bound, hb] at htouch
      exact ⟨hput.usage, .inl ⟨i, c, rfl, hlive, hput.writes htouch⟩⟩
    · rename_i hdead
      refine ⟨rfl, .inr ⟨rfl, fun i' c' heq => ?_⟩⟩
      cases heq
      simpa using hdead

theorem deleteKey_bound (key k : RegistrationKey) :
    ((e.deleteKey via key).bound k).isSome = (e.bound k).isSome := by
  obtain ⟨-, ⟨i, c, hb, -, hwrites⟩ | ⟨heq, -⟩⟩ := deleteKey_spec e via key
  · by_cases hk : k = key
    · obtain ⟨j, d, hbound, -⟩ := (hwrites.touched _ (.head _)).placed.bound
      rw [hk, hb, ← keyState_bound, hbound]
      rfl
    · rw [← keyState_bound, hwrites.untouched k (by simpa using hk), keyState_bound]
  · rw [heq]

def MergeCellCommit.effect (c : MergeCellCommit V) : RegistrationKey × Effect V :=
  (c.key, ⟨c.src.v, c.canonical, c.src.retainedBytes, c.src.retainedBytes⟩)

theorem applyCommit_writes (c : MergeCellCommit V)
    (hcell : c.cell = (e.bound c.key).map Prod.fst) :
    (applyCommit via e c).usage = e.usage ∧
      Writes e (applyCommit via e c) (e.on via) [c.effect] := by
  have hput : Acts e (applyCommit via e c) (only c.key fun ks => ks.put (e.on via) c.write
      (e.reserved c.key c.src.retainedBytes) (e.reserved c.key 1)) := by
    unfold applyCommit reserved
    rw [hcell]
    cases hb : e.bound c.key with
    | none => exact (acts_updateCell (bumpNameGen _) c.key _ c.write).bumped.put _ _
    | some b =>
      have hupdate := acts_updateCell ((e.beforeWrite via c.key).localCell c.key).1 c.key
        ((e.beforeWrite via c.key).localCell c.key).2 c.write
      have hput := hupdate.put 0 0
      rw [localCell_bound hb] at hput
      exact hput
  exact ⟨hput.usage, hput.writes (touch_put (fun _ => rfl) ⟨rfl, rfl, rfl⟩ _)⟩

/-- The commits of a merge, with different keys and each planned for the binding of its
key. -/
theorem applyCommits_writes (commits : List (MergeCellCommit V)) (e : Env V)
    (hdistinct : (commits.map MergeCellCommit.key).Nodup)
    (hcells : ∀ c ∈ commits, c.cell = (e.bound c.key).map Prod.fst) :
    (commits.foldl (applyCommit via) e).usage = e.usage ∧
      Writes e (commits.foldl (applyCommit via) e) (e.on via)
        (commits.map MergeCellCommit.effect) := by
  induction commits generalizing e with
  | nil => exact ⟨rfl, .refl e _⟩
  | cons c commits ih =>
    rw [map_cons, nodup_cons] at hdistinct
    obtain ⟨husage, hwrites⟩ := applyCommit_writes via e c (hcells c (.head _))
    have hbound : ∀ d ∈ commits, (applyCommit via e c).bound d.key = e.bound d.key := by
      intro d hd
      have hne : d.key ≠ c.key := fun h => hdistinct.1 (h ▸ mem_map_of_mem hd)
      rw [← keyState_bound, ← keyState_bound,
        hwrites.untouched d.key (by simpa [MergeCellCommit.effect] using hne)]
    obtain ⟨husage', hwrites'⟩ := ih (applyCommit via e c) hdistinct.2 fun d hd => by
      rw [hbound d hd]
      exact hcells d (.tail _ hd)
    rw [hwrites.on_eq via] at hwrites'
    refine ⟨husage'.trans husage, hwrites.append hwrites' ?_⟩
    intro k hk
    rw [map_map]
    simp only [map_cons, map_nil, mem_singleton] at hk
    rw [hk]
    exact hdistinct.1

def commitOf (target : Env V) (canonical : Bool) (x : RegistrationKey × Cell V) :
    MergeCellCommit V :=
  ⟨x.1, x.2, (target.bound x.1).map Prod.fst, canonical⟩

/-- What a binding of the source adds to the retained bytes of the target. -/
def mergeDelta (target : Env V) (x : RegistrationKey × Cell V) : Int :=
  match target.bound x.1 with
  | none => x.2.retainedBytes
  | some (_, c) => x.2.retainedBytes - c.retainedBytes

theorem charge_eq_mergeDelta (e : Env V) (x : RegistrationKey × Cell V) :
    x.2.retainedBytes - (e.keyState x.1).charge = e.mergeDelta x := by
  unfold mergeDelta KeyState.charge
  rw [keyState_bound]
  cases e.bound x.1 with
  | none => exact Int.sub_zero _
  | some b => rfl

variable {target : Env V} {canonical : Bool} {p p' : MergePlan V}

theorem add_spec {x : RegistrationKey × Cell V} (h : p.add target x.1 x.2 canonical = .ok p') :
    p'.commits = p.commits ++ [target.commitOf canonical x] ∧
      p'.bytes = p.bytes + target.mergeDelta x ∧
      p'.slots = p.slots + target.reserved x.1 1 ∧
      (target.bound x.1 = none → target.reserveRetainedBindings
        (p.bytes + target.mergeDelta x) (p.slots + 1) = .ok ()) := by
  unfold MergePlan.add at h
  unfold commitOf mergeDelta reserved
  cases hb : target.bound x.1 with
  | none =>
    rw [hb] at h
    dsimp only at h
    rw [Lib.except_bind_eq_ok_iff] at h
    obtain ⟨⟨⟩, hfits, h⟩ := h
    cases h
    exact ⟨rfl, rfl, rfl, fun _ => hfits⟩
  | some b =>
    rw [hb] at h
    cases h
    exact ⟨rfl, rfl, by simp, nofun⟩

theorem plan_spec {xs : List (RegistrationKey × Cell V)}
    (h : xs.foldlM (fun p x => MergePlan.add p target x.1 x.2 canonical) p = .ok p') :
    p'.commits = p.commits ++ xs.map (target.commitOf canonical) ∧
      p'.bytes = p.bytes + (xs.map target.mergeDelta).sum ∧
      p'.slots = p.slots + (xs.map fun x => target.reserved x.1 1).sum := by
  induction xs generalizing p with
  | nil =>
    cases h
    simp
  | cons x xs ih =>
    rw [foldlM_cons, Lib.except_bind_eq_ok_iff] at h
    obtain ⟨p₁, hadd, hrest⟩ := h
    obtain ⟨hcommits, hbytes, hslots, -⟩ := add_spec hadd
    obtain ⟨hcommits', hbytes', hslots'⟩ := ih hrest
    refine ⟨?_, ?_, ?_⟩
    · simp [hcommits', hcommits]
    · rw [hbytes', hbytes, map_cons, sum_cons]
      omega
    · rw [hslots', hslots, map_cons, sum_cons]
      omega

theorem liveBindings_distinct (src : Env V) : (src.liveBindings.map Prod.fst).Nodup := by
  have hall : ((src.binds.entries.filterMap fun x =>
      ((src.cells x.1)[x.2]?.filter fun c => c.v.isSome).map fun c => (x.1, c)).map
        Prod.fst).Nodup := by
    have hkeys : src.binds.entries.Pairwise fun x y => x.1 ≠ y.1 :=
      src.binds.nodupKeys.pairwise_ne
    rw [List.Nodup, pairwise_map]
    refine .filterMap _ ?_ hkeys
    intro x y hne a ha b hb
    obtain ⟨c, -, rfl⟩ := Option.map_eq_some_iff.1 ha
    obtain ⟨d, -, rfl⟩ := Option.map_eq_some_iff.1 hb
    exact hne
  unfold liveBindings
  dsimp only
  rw [map_append, nodup_append]
  refine ⟨hall.sublist (List.filter_sublist.map _), hall.sublist (List.filter_sublist.map _), ?_⟩
  intro a ha b hb heq
  obtain ⟨x, hx, rfl⟩ := List.mem_map.1 ha
  obtain ⟨y, hy, rfl⟩ := List.mem_map.1 hb
  have hxf := (List.mem_filter.1 hx).2
  have hyf := (List.mem_filter.1 hy).2
  rw [heq] at hxf
  simp [hyf] at hxf

def mergeEffects (src : Env V) (canonical : Bool) : List (RegistrationKey × Effect V) :=
  src.liveBindings.map fun x => (x.1, ⟨x.2.v, canonical, x.2.retainedBytes, x.2.retainedBytes⟩)

theorem mergeInto_spec {src e' : Env V} {via : Option Nat} {releases : List RetainedRelease}
    (h : src.mergeInto target via canonical = .ok (e', releases)) :
    Writes target e' (target.on via) (src.mergeEffects canonical) ∧
      e'.retainedBytes = target.retainedBytes + (src.liveBindings.map target.mergeDelta).sum ∧
      e'.retainedSlots =
        target.retainedSlots + (src.liveBindings.map fun x => target.reserved x.1 1).sum := by
  unfold mergeInto at h
  rw [Lib.except_bind_eq_ok_iff] at h
  obtain ⟨plan, hplan, h⟩ := h
  cases h
  obtain ⟨hcommits, hbytes, hslots⟩ := plan_spec hplan
  rw [nil_append] at hcommits
  have hkeys : plan.commits.map MergeCellCommit.key = src.liveBindings.map Prod.fst := by
    rw [hcommits, map_map]
    rfl
  have hcells : ∀ c ∈ plan.commits, c.cell = (target.bound c.key).map Prod.fst := by
    intro c hc
    rw [hcommits] at hc
    obtain ⟨x, -, rfl⟩ := List.mem_map.1 hc
    rfl
  obtain ⟨husage, hwrites⟩ := applyCommits_writes via plan.commits target
    (hkeys ▸ src.liveBindings_distinct) hcells
  have heffects : plan.commits.map MergeCellCommit.effect = src.mergeEffects canonical := by
    rw [hcommits, map_map]
    rfl
  obtain ⟨hb, hs, -, -⟩ := usage_eq_iff.1 husage
  rw [heffects] at hwrites
  refine ⟨hwrites.right ⟨rfl, rfl, rfl, rfl⟩, ?_, ?_⟩
  · dsimp only at hbytes ⊢
    rw [hb, hbytes, zero_add]
  · dsimp only at hslots ⊢
    rw [hs, hslots, zero_add]

variable {e : Env V} {P : Env V → Prop} {r : Registration V}

theorem orSame_map_fst {α : Type} (h : P e) {r : Except String (Env V × α)}
    (hok : ∀ e' a, r = .ok (e', a) → P e') :
    P (e.orSame (r.map Prod.fst)) := by
  cases r with
  | error msg => exact h
  | ok x => exact hok x.1 x.2 rfl

theorem orSame_of_ok (h : P e) {r : Except String (Env V)}
    (hok : ∀ e', r = .ok e' → P e') : P (e.orSame r) := by
  cases r with
  | error msg => exact h
  | ok x => exact hok x rfl

theorem complete_keyState (hreg : e.reg = some r) (k : RegistrationKey) :
    (e.complete r.id).keyState k = { e.keyState k with entry := none } := by
  simp [complete, hreg, keyState]

theorem complete_of_ne {id : Nat} (h : ∀ r, e.reg = some r → r.id ≠ id) : e.complete id = e := by
  unfold complete
  cases hreg : e.reg with
  | none => rfl
  | some r => simp [h r hreg]

section Abort

variable (st : Aborting V) {key : RegistrationKey} (ent : RegistrationEntry V)

theorem abortEntry_keyState :
    (abortEntry st key ent).root.keyState key = (st.root.keyState key).undo ent := by
  unfold abortEntry KeyState.undo
  rw [keyState_bound]
  cases st.root.bound key with
  | none => rfl
  | some b =>
    dsimp only
    split
    · rfl
    · cases ent.prior with
      | none =>
        simp only [withdraw, updateCell, keyState, Function.update_self, AList.lookup_erase]
        rfl
      | some p =>
        dsimp only
        split
        · simp only [updateCell, keyState, Function.update_self]
          rfl
        · simp only [withdraw, updateCell, keyState, Function.update_self, AList.lookup_insert]
          rfl

theorem abortEntry_keyState_ne {k : RegistrationKey} (hk : k ≠ key) :
    (abortEntry st key ent).root.keyState k = st.root.keyState k := by
  unfold abortEntry
  dsimp only
  split
  · rfl
  · split
    · rfl
    · split
      · simp [withdraw, updateCell, keyState, hk, AList.lookup_erase_ne hk]
      · split
        · simp [updateCell, keyState, hk]
        · simp [withdraw, updateCell, keyState, hk, AList.lookup_insert_ne hk]

theorem abortEntry_max :
    (abortEntry st key ent).root.maxRetainedBytes = st.root.maxRetainedBytes ∧
      (abortEntry st key ent).root.maxRetainedSlots = st.root.maxRetainedSlots ∧
      (abortEntry st key ent).root.reg = st.root.reg := by
  unfold abortEntry
  dsimp only
  split
  · exact ⟨rfl, rfl, rfl⟩
  · split
    · exact ⟨rfl, rfl, rfl⟩
    · split
      · exact ⟨rfl, rfl, rfl⟩
      · split <;> exact ⟨rfl, rfl, rfl⟩

end Abort

theorem abortEntries_keyState (xs : List (Sigma fun _ : RegistrationKey => RegistrationEntry V))
    (hdistinct : xs.NodupKeys) (st : Aborting V) (k : RegistrationKey) :
    (xs.foldl (fun st x => abortEntry st x.1 x.2) st).root.keyState k =
      match xs.dlookup k with
      | some ent => (st.root.keyState k).undo ent
      | none => st.root.keyState k := by
  induction xs generalizing st with
  | nil => rfl
  | cons x xs ih =>
    obtain ⟨key, ent⟩ := x
    rw [nodupKeys_cons] at hdistinct
    rw [foldl_cons, ih hdistinct.2]
    by_cases hk : k = key
    · subst hk
      rw [dlookup_cons_eq, List.dlookup_eq_none.2 hdistinct.1]
      exact abortEntry_keyState st ent
    · rw [dlookup_cons_ne _ _ hk, abortEntry_keyState_ne st ent hk]

theorem abort_keyState (hreg : e.reg = some r) (k : RegistrationKey) :
    (e.abort r.id).1.keyState k = (e.keyState k).aborted := by
  have hkey := abortEntries_keyState r.entries.entries r.entries.nodupKeys ⟨e, false, []⟩ k
  have hentry : (e.keyState k).entry = r.entries.entries.dlookup k := by
    simp [keyState, hreg, AList.lookup]
  unfold abort KeyState.aborted
  rw [hreg, hentry]
  dsimp only
  rw [if_neg (by simp)]
  unfold AList.foldl
  generalize r.entries.entries.foldl (fun st x => abortEntry st x.1 x.2) ⟨e, false, []⟩ = st at *
  have hcells := congrArg KeyState.cells hkey
  have hbind := congrArg KeyState.bind hkey
  dsimp only [keyState] at hcells hbind
  generalize r.entries.entries.dlookup k = ent at *
  cases ent with
  | none => split <;> simp only [keyState, hcells, hbind, Option.bind_none]
  | some ent => split <;> simp only [keyState, hcells, hbind, Option.bind_none]

theorem abort_of_ne {id : Nat} (h : ∀ r, e.reg = some r → r.id ≠ id) : e.abort id = (e, []) := by
  unfold abort
  cases hreg : e.reg with
  | none => rfl
  | some r => simp [h r hreg]

end

end Env

end Core

end Lispico
