import Lispico.Core.EnvWrites

/-!
# What a write can do to an environment

`Evolves` says what a write can do to a cell: its version never goes back, its contents change
only with its version, and a changed cell is a tombstone or bound. A cell that loses its binding
is a tombstone, unless `ReplaceCell` took it out, and then the generation has moved.
-/

namespace Lispico

namespace Core

open Lib

namespace Env

section

variable {V : Type}

structure CellMoves (replaced : Prop) (before after : Option Nat) (i : Nat)
    (c c' : Cell V) : Prop where
  version_le : c.version ≤ c'.version
  same : c'.version = c.version → c'.v = c.v ∧ c'.canonical = c.canonical
  changed : c'.version ≠ c.version → c'.v = none ∨ after = some i
  unbound : before = some i → after = some i ∨ c'.v = none ∨ (replaced ∧ c'.version = c.version)

section

variable {replaced : Prop} {b b' : Option Nat} {i : Nat} {c c' : Cell V}

theorem CellMoves.alone (hsame : c'.v = c.v ∧ c'.canonical = c.canonical ∧ c'.version = c.version)
    (hb : b = some i → b' = some i ∨ c'.v = none ∨ replaced) :
    CellMoves replaced b b' i c c' := by
  obtain ⟨hv, hcanonical, hversion⟩ := hsame
  refine ⟨hversion.ge, fun _ => ⟨hv, hcanonical⟩, fun h => absurd hversion h, fun h => ?_⟩
  exact (hb h).imp_right (.imp_right fun hreplaced => ⟨hreplaced, hversion⟩)

theorem CellMoves.written (hver : c'.version = c.version + 1) (hb : c'.v = none ∨ b' = some i) :
    CellMoves replaced b b' i c c' :=
  ⟨hver.ge.trans' (Nat.le_succ _), fun h => absurd (hver.symm.trans h) (Nat.succ_ne_self _),
    fun _ => hb, fun _ => hb.symm.imp_right Or.inl⟩

end

/-- What happens to the cells of an environment; `replaced` are the keys of `ReplaceCell`. -/
def Moves (replaced : RegistrationKey → Prop) (e e' : Env V) : Prop :=
  ∀ k i c, (e.cells k)[i]? = some c → ∃ c', (e'.cells k)[i]? = some c' ∧
    CellMoves (replaced k) (e.binds.lookup k) (e'.binds.lookup k) i c c'

structure Evolves (replaced : RegistrationKey → Prop) (e e' : Env V) : Prop where
  moves : Moves replaced e e'
  gen_le : e.newNameGen ≤ e'.newNameGen
  kept : e'.newNameGen = e.newNameGen → ∀ k i c, e.bound k = some (i, c) →
    e'.binds.lookup k = some i

abbrev noKey : RegistrationKey → Prop := fun _ => False

def KeyMoves (replaced : Prop) (ks ks' : KeyState V) : Prop :=
  ∀ i c, ks.cells[i]? = some c → ∃ c', ks'.cells[i]? = some c' ∧
    CellMoves replaced ks.bind ks'.bind i c c'

/-- The cells and the binding of a key stay, or a write touches them. -/
def Stepped (ks ks' : KeyState V) : Prop :=
  ks'.cells = ks.cells ∧ ks'.bind = ks.bind ∨ ∃ on x, KeyState.Touch on x ks ks'

variable {replaced : Prop} {ks ks' : KeyState V} {on : Bool}

theorem keyMoves_of_same (hcells : ks'.cells = ks.cells) (hbind : ks'.bind = ks.bind) :
    KeyMoves replaced ks ks' := by
  intro i c hc
  exact ⟨c, by rw [hcells, hc], .alone ⟨rfl, rfl, rfl⟩ fun h => .inl (hbind.trans h)⟩

theorem Stepped.moves (h : Stepped ks ks') : KeyMoves replaced ks ks' := by
  rcases h with ⟨hcells, hbind⟩ | ⟨on, x, h⟩
  · exact keyMoves_of_same hcells hbind
  · cases h with
    | @inPlace i c c' hbound hx hversion =>
      obtain ⟨hbind, hcell⟩ := KeyState.bind_of_bound hbound
      intro j d hd
      by_cases hj : i = j
      · subst hj
        cases hcell.symm.trans hd
        exact ⟨c', by simp [KeyState.journaled, KeyState.lt_of_bound hbound],
          .written hversion (.inr rfl)⟩
      · refine ⟨d, by simpa [KeyState.journaled, hj] using hd, .alone ⟨rfl, rfl, rfl⟩ ?_⟩
        exact fun h => absurd (Option.some.inj (hbind.symm.trans h)) hj
    | @fresh c' hbound hx =>
      intro j d hd
      obtain ⟨hj, -⟩ := List.getElem?_eq_some_iff.1 hd
      refine ⟨d, by simpa [KeyState.journaled, List.getElem?_append_left hj] using hd,
        .alone ⟨rfl, rfl, rfl⟩ fun h => ?_⟩
      rw [KeyState.bound_eq_some_iff.2 ⟨h, hd⟩] at hbound
      cases hbound

theorem Stepped.bind (h : Stepped ks ks') {i : Nat} {c : Cell V} (hb : ks.bound = some (i, c)) :
    ks'.bind = some i := by
  rcases h with ⟨-, hbind⟩ | ⟨on, x, h⟩
  · exact hbind.trans (KeyState.bind_of_bound hb).1
  · cases h with
    | inPlace hbound =>
      cases hbound.symm.trans hb
      rfl
    | fresh hbound => cases hbound.symm.trans hb

theorem keyMoves_of_retire (hreplaced : replaced) {x : Effect V}
    (h : KeyState.Retire on x ks ks') : KeyMoves replaced ks ks' := by
  obtain ⟨hbound, hold, -, -⟩ := h
  obtain ⟨hbind, hcell⟩ := KeyState.bind_of_bound hbound
  intro j d hd
  obtain ⟨hj, -⟩ := List.getElem?_eq_some_iff.1 hd
  rw [KeyState.journaled, List.getElem?_append_left (by simpa using hj), List.getElem?_set]
  split
  case isTrue hij =>
    subst hij
    cases hcell.symm.trans hd
    exact ⟨_, if_pos hj, .alone hold fun _ => .inr (.inr hreplaced)⟩
  case isFalse => exact ⟨d, hd, .alone ⟨rfl, rfl, rfl⟩ fun _ => .inr (.inr hreplaced)⟩

/-- `Abort` restores the cell of the operation or makes it a tombstone, and binds a cell it
had replaced again. -/
theorem keyMoves_undo (ks : KeyState V) (ent : RegistrationEntry V) :
    KeyMoves replaced ks (ks.undo ent) := by
  unfold KeyState.undo
  cases hbound : ks.bound with
  | none => exact keyMoves_of_same rfl rfl
  | some b =>
    obtain ⟨i, c⟩ := b
    obtain ⟨hbind, -⟩ := KeyState.bind_of_bound hbound
    have hother : ∀ j, i ≠ j → ks.bind ≠ some j := fun j hij h =>
      hij (Option.some.inj (hbind.symm.trans h))
    dsimp only
    split
    · exact keyMoves_of_same rfl rfl
    · cases ent.prior with
      | none =>
        intro j d hd
        refine ⟨_, (List.getElem?_modify ..).trans (congrArg _ hd), ?_⟩
        by_cases hij : i = j
        · simp only [if_pos hij]
          exact .written rfl (.inl rfl)
        · simp only [if_neg hij]
          exact .alone ⟨rfl, rfl, rfl⟩ fun h => absurd h (hother j hij)
      | some p =>
        dsimp only
        split
        · intro j d hd
          refine ⟨_, (List.getElem?_modify ..).trans (congrArg _ hd), ?_⟩
          by_cases hij : i = j
          · simp only [if_pos hij]
            exact .written rfl (.inr (hbind.trans (congrArg _ hij)))
          · simp only [if_neg hij]
            exact .alone ⟨rfl, rfl, rfl⟩ .inl
        · rename_i hne
          intro j d hd
          refine ⟨_, (List.getElem?_modify ..).trans (congrArg _ ((List.getElem?_modify ..).trans
            (congrArg _ hd))), ?_⟩
          by_cases hij : i = j
          · have hpj : p ≠ j := fun h => hne (h.trans hij.symm)
            simp only [if_pos hij, if_neg hpj]
            exact .written rfl (.inl rfl)
          · by_cases hpj : p = j
            · simp only [if_neg hij, if_pos hpj]
              exact .written rfl (.inr (congrArg _ hpj))
            · simp only [if_neg hij, if_neg hpj]
              exact .alone ⟨rfl, rfl, rfl⟩ fun h => absurd h (hother j hij)

variable {e e' : Env V} (st : Aborting V)

theorem evolves_of_steps (hgen : e.newNameGen ≤ e'.newNameGen)
    (h : ∀ k, Stepped (e.keyState k) (e'.keyState k)) : Evolves noKey e e' :=
  ⟨fun k => (h k).moves, hgen, fun _ k _ _ hb => (h k).bind hb⟩

theorem Evolves.refl (e : Env V) : Evolves noKey e e :=
  evolves_of_steps le_rfl fun _ => .inl ⟨rfl, rfl⟩

theorem Writes.steps {ws : List (RegistrationKey × Effect V)}
    (h : Writes e e' on ws) (k : RegistrationKey) :
    Stepped (e.keyState k) (e'.keyState k) := by
  by_cases hk : k ∈ ws.map Prod.fst
  · obtain ⟨x, hx, rfl⟩ := List.mem_map.1 hk
    exact .inr ⟨on, x.2, h.touched x hx⟩
  · rw [h.untouched k hk]
    exact .inl ⟨rfl, rfl⟩

section Generation

variable (e) (via : Option Nat) (key : RegistrationKey) (charge : Charge) (bytes slots : Int)

@[simp]
theorem beforeWrite_newNameGen : (e.beforeWrite via key).newNameGen = e.newNameGen := by
  unfold beforeWrite
  split <;> rfl

@[simp]
theorem afterWrite_newNameGen : (e.afterWrite via key bytes slots).newNameGen = e.newNameGen := by
  unfold afterWrite
  split <;> rfl

@[simp]
theorem localCell_newNameGen : (e.localCell key).1.newNameGen = e.newNameGen := by
  unfold localCell
  split <;> rfl

@[simp]
theorem recordFreshRetained_newNameGen (i : Nat) :
    (e.recordFreshRetained charge key i bytes).newNameGen = e.newNameGen := by
  unfold recordFreshRetained
  split <;> rfl

theorem writeCell_newNameGen (i : Nat) (val : V) (canonical : Bool) :
    e.newNameGen ≤ (e.writeCell key i val canonical).newNameGen := by
  unfold writeCell
  dsimp only
  split
  · exact Nat.le_succ _
  · exact le_rfl

variable {e charge bytes slots} in
theorem prepareFreshRetained_newNameGen (h : e.prepareFreshRetained charge bytes slots = .ok e') :
    e'.newNameGen = e.newNameGen := by
  unfold prepareFreshRetained at h
  split at h
  · cases h
    rfl
  · rw [Lib.except_bind_eq_ok_iff] at h
    obtain ⟨_, _, h⟩ := h
    split at h
    · rw [Lib.except_bind_eq_ok_iff] at h
      obtain ⟨_, _, h⟩ := h
      cases h
      rfl
    · cases h
      rfl

theorem applyCommit_newNameGen (c : MergeCellCommit V) :
    e.newNameGen ≤ (applyCommit via e c).newNameGen := by
  unfold applyCommit
  cases c.cell with
  | some i => simp [updateCell]
  | none => simp [updateCell, bumpNameGen]

theorem applyCommits_newNameGen (commits : List (MergeCellCommit V)) :
    e.newNameGen ≤ (commits.foldl (applyCommit via) e).newNameGen := by
  induction commits generalizing e with
  | nil => exact le_rfl
  | cons c commits ih => exact (applyCommit_newNameGen e via c).trans (ih _)

end Generation

theorem abortEntry_unrestored (key : RegistrationKey) (ent : RegistrationEntry V) :
    (abortEntry st key ent).root.newNameGen = st.root.newNameGen ∧
      ((abortEntry st key ent).restored = false → abortEntry st key ent = st) := by
  unfold abortEntry
  dsimp only
  split
  · exact ⟨rfl, fun _ => rfl⟩
  · split
    · exact ⟨rfl, fun _ => rfl⟩
    · split
      · exact ⟨rfl, nofun⟩
      · split
        · exact ⟨rfl, nofun⟩
        · exact ⟨rfl, nofun⟩

theorem abortEntries_unrestored
    (xs : List (Sigma fun _ : RegistrationKey => RegistrationEntry V)) :
    (xs.foldl (fun st x => abortEntry st x.1 x.2) st).root.newNameGen = st.root.newNameGen ∧
      ((xs.foldl (fun st x => abortEntry st x.1 x.2) st).restored = false →
        xs.foldl (fun st x => abortEntry st x.1 x.2) st = st) := by
  induction xs generalizing st with
  | nil => exact ⟨rfl, fun _ => rfl⟩
  | cons x xs ih =>
    obtain ⟨hgen, hsame⟩ := ih (abortEntry st x.1 x.2)
    obtain ⟨hgen', hsame'⟩ := abortEntry_unrestored st x.1 x.2
    rw [List.foldl_cons]
    refine ⟨hgen.trans hgen', fun hfalse => ?_⟩
    have heq := hsame hfalse
    rw [heq] at hfalse ⊢
    exact hsame' hfalse

theorem evolves_abort (e : Env V) (id : Nat) : Evolves noKey e (e.abort id).1 := by
  by_cases hid : ∃ r, e.reg = some r ∧ r.id = id
  · obtain ⟨r, hreg, rfl⟩ := hid
    have hmoves : Moves noKey e (e.abort r.id).1 := by
      intro k
      have hkey : KeyMoves False (e.keyState k) (e.keyState k).aborted := by
        unfold KeyState.aborted
        cases (e.keyState k).entry with
        | none => exact keyMoves_of_same rfl rfl
        | some ent => exact keyMoves_undo _ ent
      rw [← abort_keyState hreg] at hkey
      exact hkey
    obtain ⟨hgen, hsame⟩ := abortEntries_unrestored ⟨e, false, []⟩ r.entries.entries
    refine ⟨hmoves, ?_, ?_⟩
    all_goals
      unfold abort
      rw [hreg]
      dsimp only
      rw [if_neg (by simp)]
      unfold AList.foldl
      generalize r.entries.entries.foldl _ _ = st at hgen hsame
    · split
      · exact hgen.ge.trans (Nat.le_succ _)
      · exact hgen.ge
    · split
      · intro h
        exact absurd (h.trans hgen.symm) (Nat.succ_ne_self _)
      · rename_i hrestored
        rw [hsame (by simpa using hrestored)]
        exact fun _ k i c hb => (bound_eq_some_iff.1 hb).1
  · rw [abort_of_ne fun r hreg h => hid ⟨r, hreg, h⟩]
    exact .refl e

theorem evolves_complete (e : Env V) (id : Nat) : Evolves noKey e (e.complete id) := by
  unfold complete
  split
  · exact evolves_of_steps le_rfl fun _ => .inl ⟨rfl, rfl⟩
  · exact .refl e

theorem evolves_beginRegistration (h : e.beginRegistration = .ok e') : Evolves noKey e e' := by
  unfold beginRegistration at h
  split at h
  · cases h
  · cases h
    exact evolves_of_steps le_rfl fun _ => .inl ⟨rfl, rfl⟩

theorem deleteKey_newNameGen (e : Env V) (via : Option Nat) (key : RegistrationKey) :
    (e.deleteKey via key).newNameGen = e.newNameGen := by
  unfold deleteKey
  split
  · split
    · simp [updateCell]
    · rfl
  · rfl

theorem deleteKey_steps (e : Env V) (via : Option Nat) (key : RegistrationKey) :
    (∀ k, Stepped (e.keyState k) ((e.deleteKey via key).keyState k)) ∧
      ∀ k, k ≠ key → (e.deleteKey via key).keyState k = e.keyState k := by
  rcases (deleteKey_spec e via key).2 with ⟨i, c, -, -, hwrites⟩ | ⟨heq, -⟩
  · exact ⟨hwrites.steps, fun k hk => hwrites.untouched k (by simpa using hk)⟩
  · rw [heq]
    exact ⟨fun _ => .inl ⟨rfl, rfl⟩, fun _ _ => rfl⟩

theorem evolves_deleteName (e : Env V) (via : Option Nat) (name : String) :
    Evolves noKey e (e.deleteName via name) := by
  obtain ⟨hvar, -⟩ := deleteKey_steps e via ⟨name, false⟩
  obtain ⟨hfunc, hother⟩ := deleteKey_steps (e.deleteKey via ⟨name, false⟩) via ⟨name, true⟩
  refine evolves_of_steps ?_ fun k => ?_
  · simp only [deleteName, deleteKey_newNameGen, le_refl]
  · by_cases hk : k = ⟨name, true⟩
    · rw [← (deleteKey_steps e via ⟨name, false⟩).2 k (by simp [hk])]
      exact hfunc k
    · rw [deleteName, hother k hk]
      exact hvar k

theorem evolves_mergeInto {src target : Env V} {via : Option Nat} {canonical : Bool}
    {releases : List RetainedRelease}
    (h : src.mergeInto target via canonical = .ok (e', releases)) :
    Evolves noKey target e' := by
  refine evolves_of_steps ?_ (mergeInto_spec h).1.steps
  unfold mergeInto at h
  rw [Lib.except_bind_eq_ok_iff] at h
  obtain ⟨plan, -, h⟩ := h
  cases h
  exact applyCommits_newNameGen target via plan.commits

section

variable [ValueShallowBytes V] {via : Option Nat} {val : V} {charge : Charge}
  {canonical ifVacant written : Bool} {name : String}

theorem evolves_setLocked {key : RegistrationKey}
    (h : e.setLocked via key val canonical ifVacant charge = .ok (e', written)) :
    Evolves noKey e e' := by
  cases written with
  | false =>
    rw [setLocked_unwritten h]
    exact .refl e
  | true =>
    refine evolves_of_steps ?_ (setLocked_spec h).writes.steps
    unfold setLocked at h
    split at h
    · split at h
      · cases h
      · cases h
        rw [afterWrite_newNameGen, ← beforeWrite_newNameGen e via key]
        exact writeCell_newNameGen ..
    · rw [Lib.except_bind_eq_ok_iff] at h
      obtain ⟨e₁, hprep, h⟩ := h
      cases h
      rw [← prepareFreshRetained_newNameGen hprep, ← beforeWrite_newNameGen e₁ via key,
        ← localCell_newNameGen _ key, afterWrite_newNameGen, recordFreshRetained_newNameGen]
      exact writeCell_newNameGen ..

theorem evolves_setBothLocked
    (h : e.setBothLocked via name val canonical ifVacant charge = .ok (e', written)) :
    Evolves noKey e e' := by
  cases written with
  | false =>
    rw [setBothLocked_unwritten h]
    exact .refl e
  | true =>
    refine evolves_of_steps ?_ (setBothLocked_spec h).1.steps
    have hrecord : ∀ (e : Env V) (new : Bool) (key : RegistrationKey) (i : Nat) (bytes : Int),
        (if new then e.recordFreshRetained charge key i bytes else e).newNameGen =
          e.newNameGen := by
      intro e new key i bytes
      split
      · exact recordFreshRetained_newNameGen ..
      · rfl
    unfold setBothLocked at h
    dsimp only at h
    split at h
    · cases h
    · rw [Lib.except_bind_eq_ok_iff] at h
      obtain ⟨e₁, hprep, h⟩ := h
      cases h
      simp only [writeBoth, afterWrite_newNameGen, hrecord]
      refine le_trans (le_of_eq ?_) ((writeCell_newNameGen _ ⟨name, false⟩ _ val canonical).trans
        ((hrecord ..).ge.trans (writeCell_newNameGen _ ⟨name, true⟩ _ val canonical)))
      simp [prepareFreshRetained_newNameGen hprep]

theorem replaceCell_newNameGen (h : e.replaceCell via name val charge = .ok e') :
    e'.newNameGen = e.newNameGen + 1 := by
  unfold replaceCell at h
  dsimp only at h
  split at h
  · rw [Lib.except_bind_eq_ok_iff] at h
    obtain ⟨e₁, hprep, h⟩ := h
    cases h
    simp [bumpNameGen, bindFresh, prepareFreshRetained_newNameGen hprep]
  · cases h
    split <;> simp [bumpNameGen, bindFresh, updateCell]

theorem evolves_replaceCell (h : e.replaceCell via name val charge = .ok e') :
    Evolves (· = ⟨name, false⟩) e e' := by
  have hgen := replaceCell_newNameGen h
  refine ⟨?_, hgen.ge.trans' (Nat.le_succ _), fun heq => absurd (hgen.symm.trans heq)
    (Nat.succ_ne_self _)⟩
  intro k
  cases hb : e.bound ⟨name, false⟩ with
  | none => exact ((replaceCell_fresh hb h).writes.steps k).moves
  | some b =>
    obtain ⟨r, -, hretires⟩ := replaceCell_bound hb h
    by_cases hk : k = ⟨name, false⟩
    · subst hk
      exact keyMoves_of_retire rfl hretires.retire
    · have hsame := hretires.untouched k hk
      exact keyMoves_of_same (congrArg KeyState.cells hsame) (congrArg KeyState.bind hsame)

theorem evolves_rebuild (e : Env V) : Evolves noKey e e.rebuild.env := by
  refine ⟨?_, Nat.le_succ _, fun hgen => absurd hgen (Nat.succ_ne_self _)⟩
  intro k i c hc
  refine ⟨c, hc, .alone ⟨rfl, rfl, rfl⟩ fun hb => ?_⟩
  simp only [rebuild, Keyed.lookup_keep, hb]
  cases hv : c.v with
  | none => exact .inr (.inl rfl)
  | some v => exact .inl (by simp [rebuiltBytes, hc, hv])

def Write.replaces : Write V → RegistrationKey → Prop
  | .replaceCell _ name _ _ => (· = ⟨name, false⟩)
  | _ => noKey

theorem Write.evolves (e : Env V) (w : Write V) : Evolves w.replaces e (w.apply e) := by
  cases w with
  | set via key val canonical ifVacant charge =>
    exact orSame_map_fst (.refl e) fun _ _ h => evolves_setLocked h
  | setBoth via name val canonical ifVacant charge =>
    exact orSame_map_fst (.refl e) fun _ _ h => evolves_setBothLocked h
  | replaceCell via name val charge =>
    refine orSame_of_ok (P := Evolves _ e) ?_ fun _ h => evolves_replaceCell h
    refine ⟨fun k => @keyMoves_of_same V _ (e.keyState k) _ rfl rfl, le_rfl, fun _ k i c hb => ?_⟩
    exact (bound_eq_some_iff.1 hb).1
  | delete via name => exact evolves_deleteName e via name
  | rebuild => exact evolves_rebuild e
  | mergeInto src via canonical =>
    exact orSame_map_fst (.refl e) fun _ _ h => evolves_mergeInto h
  | beginRegistration =>
    exact orSame_of_ok (.refl e) fun _ h => evolves_beginRegistration h
  | complete id => exact evolves_complete e id
  | abort id => exact evolves_abort e id

end

end

end Env

end Core

end Lispico
