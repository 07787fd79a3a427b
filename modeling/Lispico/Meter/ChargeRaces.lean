import Lispico.Lib.Int64
import Lispico.Meter.Charge
import Mathlib

/-!
# Concurrent charges

A counter above the limit, at its ceiling or negative is closed: it admits nothing. It stays
closed unless an add brings a negative counter back to a total that is not negative; such an add
is refused, but what it leaves looks like a fresh budget.
-/

namespace Lispico

namespace Meter

open Lib Function List Int64

/-- The counter admits no charge: it has wrapped, passed the limit or reached its ceiling. -/
def Closed (max counter : Int64) : Prop :=
  counter.toInt < 0 ∨ max.toInt < counter.toInt ∨ counter = Int64.maxValue

def StaysWrapped (n counter : Int64) : Prop :=
  counter.toInt < 0 → counter.toInt + n.toInt < 0

section Step

variable {max n counter : Int64}

theorem saturatedTotal_closed (hn : 0 < n.toInt) : Closed max (saturatedTotal max n counter) := by
  unfold saturatedTotal
  split
  · rename_i h
    obtain ⟨hlarge, hcounter, hsum⟩ := h
    rw [gt_iff_lt, lt_iff_toInt_lt] at hlarge
    rw [ge_iff_le, le_iff_toInt_le] at hcounter hsum
    rw [toInt_zero] at hcounter
    have hlt : counter.toInt + n.toInt < 2 ^ 63 := by
      by_contra hge
      rw [toInt_add_wrapped (by omega)] at hsum
      have := toInt_lt n
      omega
    refine .inr (.inl ?_)
    rw [toInt_add_eq (by omega) hlt]
    omega
  · exact .inr (.inr rfl)

theorem saturatedTotal_nonneg : 0 ≤ (saturatedTotal max n counter).toInt := by
  unfold saturatedTotal
  split
  · rename_i h
    obtain ⟨-, hcounter, hsum⟩ := h
    rw [ge_iff_le, le_iff_toInt_le] at hcounter hsum
    rw [toInt_zero] at hcounter
    omega
  · rw [toInt_maxValue]
    omega

theorem closed_add (hn : 0 < n.toInt) (hc : Closed max counter)
    (hstays : StaysWrapped n counter) :
    Closed max (counter + n) ∧
      ¬(n.toInt ≤ (counter + n).toInt ∧ (counter + n).toInt ≤ max.toInt) := by
  have hlow := le_toInt counter
  rcases lt_or_ge (counter.toInt + n.toInt) (2 ^ 63) with hlt | hge
  · have hsum := toInt_add_eq (by omega) hlt
    rcases hc with hneg | habove | hceiling
    · have := hstays hneg
      exact ⟨.inl (by omega), by omega⟩
    · exact ⟨.inr (.inl (by omega)), by omega⟩
    · rw [hceiling, toInt_maxValue] at hlt
      omega
  · have hsum := toInt_add_wrapped hge
    have hcounter := toInt_lt counter
    have hamount := toInt_lt n
    exact ⟨.inl (by omega), by omega⟩

/-- An add on a counter that is not closed is admitted with its exact total, or leaves the
counter closed. -/
theorem open_add (hn : 0 < n.toInt) (hc : ¬Closed max counter) :
    ((counter + n).toInt = counter.toInt + n.toInt ∧ (counter + n).toInt ≤ max.toInt) ∨
      Closed max (counter + n) ∧
        ¬(n.toInt ≤ (counter + n).toInt ∧ (counter + n).toInt ≤ max.toInt) := by
  unfold Closed at hc
  push Not at hc
  obtain ⟨hpos, hle, -⟩ := hc
  rcases lt_or_ge (counter.toInt + n.toInt) (2 ^ 63) with hlt | hge
  · have hsum := toInt_add_eq (by omega) hlt
    rcases le_or_gt (counter + n).toInt max.toInt with hfits | habove
    · exact .inl ⟨hsum, hfits⟩
    · exact .inr ⟨.inr (.inl habove), by omega⟩
  · have hsum := toInt_add_wrapped hge
    have hcounter := toInt_lt counter
    have hamount := toInt_lt n
    exact .inr ⟨.inl (by omega), by omega⟩

end Step

/-- What is true of a charge at its place: only a positive amount within the limit is
added, and a total to be swapped in is a closed one. -/
def PhaseFits (max n : Int64) : Phase → Prop
  | .calling => True
  | .adding => 0 < n.toInt ∧ n.toInt ≤ max.toInt
  | .loading => 0 < n.toInt
  | .swapping _ total => 0 < n.toInt ∧ Closed max total ∧ 0 ≤ total.toInt
  | .admitted => True
  | .refused => True

structure Moves (max n counter : Int64) (phase : Phase) (counter' : Int64) (phase' : Phase) :
    Prop where
  fits : PhaseFits max n phase'
  /-- A step admits a charge of no amount, or adds its amount to a counter that is not
  closed, within the limit. -/
  admits : phase' = .admitted → phase = .admitted ∨ n.toInt ≤ 0 ∨
    ¬Closed max counter ∧ counter'.toInt = counter.toInt + n.toInt ∧ counter'.toInt ≤ max.toInt
  /-- A refusal leaves the counter closed. -/
  refuses : phase' = .refused → phase = .refused ∨ Closed max counter'
  /-- A closed counter stays closed. -/
  closed : Closed max counter → Closed max counter'
  /-- The counter goes down only to a closed total. -/
  rises : counter.toInt ≤ counter'.toInt ∨ Closed max counter'

theorem advance_moves {max n counter : Int64} {phase : Phase} (hfits : PhaseFits max n phase)
    (hstays : phase = .adding → StaysWrapped n counter) :
    Moves max n counter phase (advance max n counter phase).1
      (advance max n counter phase).2 := by
  cases phase with
  | calling =>
    simp only [advance]
    split
    · rename_i hle
      rw [le_iff_toInt_le, toInt_zero] at hle
      exact ⟨trivial, fun _ => .inr (.inl hle), nofun, id, .inl (le_refl _)⟩
    · rename_i hpos
      rw [le_iff_toInt_le, toInt_zero, not_le] at hpos
      split
      · exact ⟨hpos, nofun, nofun, id, .inl (le_refl _)⟩
      · rename_i hlarge
        rw [gt_iff_lt, lt_iff_toInt_lt, not_lt] at hlarge
        exact ⟨⟨hpos, hlarge⟩, nofun, nofun, id, .inl (le_refl _)⟩
  | adding =>
    obtain ⟨hpos, -⟩ := hfits
    have hclosed := fun hc : Closed max counter => closed_add hpos hc (hstays rfl)
    have hopen := fun hc : ¬Closed max counter => open_add hpos hc
    simp only [advance, ge_iff_le, le_iff_toInt_le]
    split
    · rename_i hexact
      split
      · rename_i hfit
        have hnot : ¬Closed max counter := fun hc => (hclosed hc).2 ⟨hexact, hfit⟩
        rcases hopen hnot with ⟨hsum, hmax⟩ | ⟨-, hno⟩
        · exact ⟨trivial, fun _ => .inr (.inr ⟨hnot, hsum, hmax⟩), nofun,
            fun hc => absurd hc hnot, .inl (by dsimp only; omega)⟩
        · exact absurd ⟨hexact, hfit⟩ hno
      · rename_i habove
        have hc' : Closed max (counter + n) := .inr (.inl (not_le.1 habove))
        exact ⟨trivial, nofun, fun _ => .inr hc', fun _ => hc', .inr hc'⟩
    · rename_i hinexact
      have hc' : Closed max (counter + n) := by
        by_cases hc : Closed max counter
        · exact (hclosed hc).1
        · rcases hopen hc with ⟨hsum, -⟩ | ⟨hc', -⟩
          · unfold Closed at hc
            push Not at hc
            omega
          · exact hc'
      exact ⟨hpos, nofun, nofun, fun _ => hc', .inr hc'⟩
  | loading =>
    have hsat := @saturatedTotal_closed max n counter hfits
    simp only [advance]
    split
    · rename_i heq
      rw [heq] at hsat
      exact ⟨trivial, nofun, fun _ => .inr hsat, id, .inl (le_refl _)⟩
    · exact ⟨⟨hfits, hsat, saturatedTotal_nonneg⟩, nofun, nofun, id, .inl (le_refl _)⟩
  | swapping used total =>
    obtain ⟨hpos, htotal, -⟩ := hfits
    simp only [advance]
    split
    · exact ⟨trivial, nofun, fun _ => .inr htotal, fun _ => htotal, .inr htotal⟩
    · exact ⟨hpos, nofun, nofun, id, .inl (le_refl _)⟩
  | admitted => exact ⟨trivial, fun _ => .inl rfl, nofun, id, .inl (le_refl _)⟩
  | refused => exact ⟨trivial, nofun, fun _ => .inl rfl, id, .inl (le_refl _)⟩

section Runs

variable (limits : Limits)

/-- The step of the charge `i`, where an add leaves a negative counter negative. -/
def CarefulStep (s s' : ChargeState) : Prop :=
  ∃ i, s' = s.step limits i ∧
    ∀ c, s.calls[i]? = some c → c.phase = .adding → StaysWrapped c.n (s.counter c.resource)

abbrev CarefulRun : ChargeState → ChargeState → Prop := Relation.ReflTransGen (CarefulStep limits)

structure ChargeInv (s : ChargeState) : Prop where
  fits : ∀ c ∈ s.calls, PhaseFits (limits.max c.resource) c.n c.phase
  within : ∀ r, s.admitted r ≤ (limits.max r).toInt
  counted : ∀ r, ¬Closed (limits.max r) (s.counter r) → s.admitted r ≤ (s.counter r).toInt
  refused : ∀ c ∈ s.calls, c.phase = .refused →
    Closed (limits.max c.resource) (s.counter c.resource)

variable {limits}

variable (charges : List (Resource × Int64)) (r : Resource)

theorem fresh_admitted : (ChargeState.fresh charges).admitted r = 0 := by
  unfold ChargeState.admitted ChargeState.fresh
  refine sum_eq_zero fun x hx => ?_
  simp only [map_map, mem_map] at hx
  obtain ⟨c, -, rfl⟩ := hx
  simp [ChargeCall.taken]

theorem fresh_inv : ChargeInv limits (ChargeState.fresh charges) := by
  have hcalls : ∀ c ∈ (ChargeState.fresh charges).calls, c.phase = .calling := by
    intro c hc
    obtain ⟨x, -, rfl⟩ := mem_map.1 hc
    rfl
  refine ⟨fun c hc => ?_, fun r => ?_, fun r _ => ?_, fun c hc href => ?_⟩
  · rw [hcalls c hc]
    trivial
  · have hpos := lt_iff_toInt_lt.1 (limits.max_pos r)
    rw [toInt_zero] at hpos
    rw [fresh_admitted]
    omega
  · rw [fresh_admitted]
    exact le_refl _
  · rw [hcalls c hc] at href
    cases href

variable {s : ChargeState} {i : Nat} {c : ChargeCall} {phase' : Phase}

theorem admitted_set (hc : s.calls[i]? = some c) (counter : Resource → Int64) (phase : Phase)
    (r : Resource) :
    (ChargeState.mk counter (s.calls.set i { c with phase := phase })).admitted r =
      s.admitted r - c.taken r + ({ c with phase := phase } : ChargeCall).taken r := by
  obtain ⟨hi, hget⟩ := List.getElem?_eq_some_iff.1 hc
  simp only [ChargeState.admitted, map_set, sum_set', length_map, hi, dite_true,
    getElem_map, hget]
  omega

theorem step_of_some (hc : s.calls[i]? = some c) : s.step limits i = ⟨update s.counter c.resource
        (advance (limits.max c.resource) c.n (s.counter c.resource) c.phase).1,
        s.calls.set i { c with
          phase := (advance (limits.max c.resource) c.n (s.counter c.resource) c.phase).2 }⟩ := by
  simp only [ChargeState.step, hc]

theorem step_of_none (hc : s.calls[i]? = none) : s.step limits i = s := by
  simp only [ChargeState.step, hc]

theorem taken_nonneg (c : ChargeCall) : 0 ≤ c.taken r := by
  unfold ChargeCall.taken
  split
  · exact le_max_right _ _
  · exact le_refl _

theorem Moves.taken_le {max counter counter' : Int64}
    (h : Moves max c.n counter c.phase counter' phase') (r : Resource) :
    ({ c with phase := phase' } : ChargeCall).taken r ≤ c.taken r ∨
      c.resource = r ∧ ¬Closed max counter ∧ counter'.toInt = counter.toInt + c.n.toInt ∧
        counter'.toInt ≤ max.toInt ∧
        ({ c with phase := phase' } : ChargeCall).taken r ≤ c.n.toInt := by
  have hold := taken_nonneg r c
  by_cases hnew : c.resource = r ∧ phase' = .admitted
  · have htaken : ({ c with phase := phase' } : ChargeCall).taken r = Max.max c.n.toInt 0 :=
      if_pos hnew
    rcases h.admits hnew.2 with hphase | hle | ⟨hopen, hsum, hmax⟩
    · exact .inl (by rw [htaken, ChargeCall.taken, if_pos ⟨hnew.1, hphase⟩])
    · exact .inl (by omega)
    · rcases le_or_gt c.n.toInt 0 with hle | hpos
      · exact .inl (by omega)
      · exact .inr ⟨hnew.1, hopen, hsum, hmax, by omega⟩
  · have htaken : ({ c with phase := phase' } : ChargeCall).taken r = 0 := if_neg hnew
    exact .inl (by omega)

variable {s' : ChargeState}

theorem CarefulStep.cases (hs : ChargeInv limits s) (h : CarefulStep limits s s') :
    s' = s ∨ ∃ i c counter' phase', s.calls[i]? = some c ∧
      Moves (limits.max c.resource) c.n (s.counter c.resource) c.phase counter' phase' ∧
      s' = ⟨update s.counter c.resource counter', s.calls.set i { c with phase := phase' }⟩ := by
  obtain ⟨i, rfl, hcareful⟩ := h
  cases hc : s.calls[i]? with
  | none => exact .inl (step_of_none hc)
  | some c =>
    have hmoves := advance_moves (hs.fits c (mem_of_getElem? hc)) (hcareful c hc)
    exact .inr ⟨i, c, _, _, hc, hmoves, step_of_some hc⟩

variable {r : Resource} {n : Int64}

theorem Moves.closed_update {counter' : Int64}
    (hmoves : Moves (limits.max c.resource) c.n (s.counter c.resource) c.phase counter' phase')
    (hr : Closed (limits.max r) (s.counter r)) :
    Closed (limits.max r) (update s.counter c.resource counter' r) := by
  by_cases heq : r = c.resource
  · subst heq
    rw [update_self]
    exact hmoves.closed hr
  · rwa [update_of_ne heq]

theorem step_inv (hs : ChargeInv limits s) (h : CarefulStep limits s s') :
    ChargeInv limits s' := by
  rcases h.cases hs with rfl | ⟨i, c, counter', phase', hc, hmoves, rfl⟩
  · exact hs
  · have hmem := mem_of_getElem? hc
    refine ⟨fun d hd => ?_, fun r => ?_, fun r hr => ?_, fun d hd hrefused => ?_⟩
    · rcases mem_or_eq_of_mem_set hd with hd | rfl
      · exact hs.fits d hd
      · exact hmoves.fits
    · have hwithin := hs.within r
      rw [admitted_set hc]
      have hold := taken_nonneg r c
      rcases hmoves.taken_le r with hle | ⟨rfl, hopen, hsum, hmax, hle⟩
      · omega
      · have hcounted := hs.counted c.resource hopen
        omega
    · rw [admitted_set hc]
      have hold := taken_nonneg r c
      have hopen : ¬Closed (limits.max r) (s.counter r) := fun h => hr (hmoves.closed_update h)
      have hcounted := hs.counted r hopen
      by_cases heq : r = c.resource
      · subst heq
        simp only [update_self] at hr ⊢
        rcases hmoves.taken_le c.resource with hle | ⟨-, -, hsum, -, hle⟩
        · rcases hmoves.rises with hrises | hcl
          · omega
          · exact absurd hcl hr
        · omega
      · simp only [update_of_ne heq]
        rcases hmoves.taken_le r with hle | ⟨hres, -⟩
        · omega
        · exact absurd hres.symm heq
    · rcases mem_or_eq_of_mem_set hd with hd | rfl
      · exact hmoves.closed_update (hs.refused d hd hrefused)
      · rcases hmoves.refuses hrefused with hphase | hcl
        · exact hmoves.closed_update (hs.refused c hmem hphase)
        · simp only [update_self]
          exact hcl

theorem run_inv (hs : ChargeInv limits s) (h : CarefulRun limits s s') : ChargeInv limits s' := by
  induction h with
  | refl => exact hs
  | tail _ hstep ih => exact step_inv ih hstep

structure Barred (limits : Limits) (s : ChargeState) (j : Nat) (r : Resource) (n : Int64) :
    Prop where
  closed : Closed (limits.max r) (s.counter r)
  call : ∃ phase, s.calls[j]? = some ⟨r, n, phase⟩ ∧ phase ≠ .admitted

theorem step_barred {j : Nat} (hn : 0 < n) (hs : ChargeInv limits s)
    (hbarred : Barred limits s j r n) (h : CarefulStep limits s s') :
    Barred limits s' j r n := by
  rcases h.cases hs with rfl | ⟨i, c, counter', phase', hc, hmoves, rfl⟩
  · exact hbarred
  · obtain ⟨phase, hj, hphase⟩ := hbarred.call
    refine ⟨hmoves.closed_update hbarred.closed, ?_⟩
    by_cases hij : i = j
    · subst hij
      rw [hc] at hj
      cases hj
      have hi := (List.getElem?_eq_some_iff.1 hc).1
      refine ⟨phase', getElem?_set_self hi, fun hadmitted => ?_⟩
      rcases hmoves.admits hadmitted with hbefore | hle | ⟨hopen, -⟩
      · exact hphase hbefore
      · rw [lt_iff_toInt_lt, toInt_zero] at hn
        exact absurd hle (not_le.2 hn)
      · exact hopen hbarred.closed
    · exact ⟨phase, by rw [getElem?_set_ne hij, hj], hphase⟩

theorem run_barred {j : Nat} (hn : 0 < n) (hs : ChargeInv limits s)
    (hbarred : Barred limits s j r n) (h : CarefulRun limits s s') :
    Barred limits s' j r n := by
  induction h with
  | refl => exact hbarred
  | tail hrun hstep ih => exact step_barred hn (run_inv hs hrun) ih hstep

/-- In a run whose adds leave a negative counter negative, the charges admitted on each
resource stay within its limit, and once a charge is refused every charge of the resource
that starts afterwards is refused. -/
theorem careful_charges_within_limit (limits : Limits) (charges : List (Resource × Int64))
    (s : ChargeState) (hrun : CarefulRun limits (ChargeState.fresh charges) s) :
    (∀ r, s.admitted r ≤ (limits.max r).toInt) ∧
      ∀ (c : ChargeCall) (j : Nat) (n : Int64), c ∈ s.calls → c.phase = .refused →
        s.calls[j]? = some ⟨c.resource, n, .calling⟩ → 0 < n → ∀ s', CarefulRun limits s s' →
            ∃ phase, s'.calls[j]? = some ⟨c.resource, n, phase⟩ ∧ phase ≠ .admitted := by
  have hinv := run_inv (fresh_inv charges) hrun
  refine ⟨hinv.within, ?_⟩
  intro c j n hc hrefused hj hn s' hrun'
  have hbarred : Barred limits s j c.resource n :=
    ⟨hinv.refused c hc hrefused, .calling, hj, nofun⟩
  exact (run_barred hn hinv hbarred hrun').call

/-- The state after the charges have stepped in the order of a schedule. -/
def ChargeState.schedule (limits : Limits) (s : ChargeState) (is : List Nat) : ChargeState :=
  is.foldl (ChargeState.step limits) s

/-- Whether the step of the charge `i` is careful. -/
def ChargeState.careful (s : ChargeState) (i : Nat) : Bool :=
  match s.calls[i]? with
  | none => true
  | some c => c.phase != .adding || !decide ((s.counter c.resource).toInt < 0) ||
      decide ((s.counter c.resource).toInt + c.n.toInt < 0)

def ChargeState.carefulAll (limits : Limits) : ChargeState → List Nat → Bool
  | _, [] => true
  | s, i :: is => s.careful i && carefulAll limits (s.step limits i) is

theorem carefulRun_schedule {s : ChargeState} {is : List Nat}
    (h : ChargeState.carefulAll limits s is = true) :
    CarefulRun limits s (s.schedule limits is) := by
  induction is generalizing s with
  | nil => exact .refl
  | cons i is ih =>
    rw [ChargeState.carefulAll, Bool.and_eq_true] at h
    refine .head ⟨i, rfl, fun c hc hadding hneg => ?_⟩ (ih h.2)
    have hcareful := h.1
    simp only [ChargeState.careful, hc, hadding, bne_self_eq_false, Bool.false_or, hneg,
      decide_true, Bool.not_true, decide_eq_true_eq] at hcareful
    exact hcareful

def tenEach : Limits := ⟨fun _ => 10, fun _ => by decide⟩

/-- Of charges of 4, 8 and 1 under a limit of ten the first is refused, since the second
added before it, and so is the third, which starts later. -/
theorem careful_charges_within_limit_ten :
    let s := (ChargeState.fresh [(.reductions, 4), (.reductions, 8), (.reductions, 1)]).schedule
      tenEach [0, 1, 1, 0]
    (∀ r, s.admitted r ≤ (tenEach.max r).toInt) ∧
      ∃ phase, (s.schedule tenEach [2, 2]).calls[2]? = some ⟨.reductions, 1, phase⟩ ∧
        phase ≠ .admitted := by
  have h := careful_charges_within_limit tenEach
    [(.reductions, 4), (.reductions, 8), (.reductions, 1)] _
    (@carefulRun_schedule tenEach _ [0, 1, 1, 0] (by decide))
  exact ⟨h.1, h.2 ⟨.reductions, 4, .refused⟩ 2 1 (by decide) rfl (by decide) (by decide) _
    (@carefulRun_schedule tenEach _ [2, 2] (by decide))⟩

def ceilingEach : Limits := ⟨fun _ => Int64.maxValue, fun _ => by decide⟩

def ceilingCharges : ChargeState :=
  ChargeState.fresh [(.reductions, Int64.maxValue), (.reductions, Int64.maxValue),
    (.reductions, Int64.maxValue), (.reductions, Int64.maxValue), (.reductions, 1)]

/-- The first charge is admitted and the second refused, which pins the counter. The adds of
the third and the fourth then wrap the counter to a negative total and back, and before
either has pinned it again the last charge, which starts after the refusal, is admitted. -/
theorem rewrapped_counter_admits :
    let s₁ := ceilingCharges.schedule ceilingEach [0, 0, 1, 1, 1, 1, 2, 2, 3, 3]
    let s₂ := s₁.schedule ceilingEach [4, 4]
    s₁.calls[1]? = some ⟨.reductions, Int64.maxValue, .refused⟩ ∧
      s₁.calls[4]? = some ⟨.reductions, 1, .calling⟩ ∧
      s₂.calls[4]? = some ⟨.reductions, 1, .admitted⟩ ∧
      (ceilingEach.max .reductions).toInt < s₂.admitted .reductions := by
  decide

end Runs

end Meter

end Lispico
