import Lispico.Meter.Settlement
import Mathlib

/-!
# Settlements are all or nothing

In a settlement that no meter refuses a pending cell is found dropped, anchored, or its charge
is kept for release, and the record lists exactly that; each meter is charged once, with the
sums of its planned cells. When a meter refuses, the record lists the releases of exactly the
charges made so far.
-/

namespace Lispico

namespace Meter

open List

inductive Fate where
  | dropped
  | anchored
  | released
deriving DecidableEq

/-- The anchor that the fate of a cell makes the settlement write. -/
def anchorOf : PendingCellAlloc × Fate → List (Nat × Option Nat × Int64)
  | (p, .anchored) => [(p.cell, p.meter, p.bytes)]
  | _ => []

/-- The release that the fate of a cell makes the settlement ask for. -/
def releaseFor : PendingCellAlloc × Fate → List (Option Nat × RetainedCharge)
  | (p, .released) => releaseOf p
  | _ => []

/-- The cells that the charges are for; `rest` is still to be planned. -/
structure Planned (ledger : Ledger) (s : Settling) (charges : List RetainedCharge)
    (planned rest : List PendingCellAlloc) : Prop where
  sublist : (planned ++ rest).Sublist ledger.pending
  covers : ∀ p ∈ ledger.pending, p ∈ planned ++ rest ∨ (s.cells p.cell).dropped = true
  charges : charges = planned.foldl planCharge []

/-- The fates of the pending cells met so far; `rest` is still to come. -/
structure Handled (ledger : Ledger) (s : Settling) (fates : List (PendingCellAlloc × Fate))
    (rest : List PendingCellAlloc) : Prop where
  covers : ledger.pending = fates.map Prod.fst ++ rest
  anchored : s.anchored = fates.flatMap anchorOf
  dropped : ∀ p, (p, .dropped) ∈ fates → (s.cells p.cell).dropped = true

/-- No meter has refused: the charges are made, and `releases` lists those to take back. -/
def Accepted (ledger : Ledger) (s : Settling) (rest : List PendingCellAlloc)
    (releases : List (Option Nat × RetainedCharge)) : Prop :=
  s.refused = false ∧ (∃ planned, Planned ledger s s.charged planned []) ∧
    ∃ fates, Handled ledger s fates rest ∧ releases = fates.flatMap releaseFor

/-- The settlement has made its writes, and the releases `rest` are still to come. -/
def Concluded (ledger : Ledger) (s : Settling) (rest : List (Option Nat × RetainedCharge)) :
    Prop :=
  (s.refused = true ∧ s.anchored = [] ∧ (s.released ++ rest).map Prod.snd = s.charged) ∨
    Accepted ledger s [] (s.released ++ rest)

section Fates

variable {ledger : Ledger} {s s' : Settling} {p : PendingCellAlloc}
  {fates : List (PendingCellAlloc × Fate)} {rest : List PendingCellAlloc}

theorem Handled.mono (h : Handled ledger s fates rest) (hanchored : s'.anchored = s.anchored)
    (hkept : ∀ c, (s.cells c).dropped = true → (s'.cells c).dropped = true) :
    Handled ledger s' fates rest :=
  ⟨h.covers, hanchored.trans h.anchored, fun p hp => hkept _ (h.dropped p hp)⟩

theorem Planned.mono {charges : List RetainedCharge} {planned : List PendingCellAlloc}
    (h : Planned ledger s charges planned rest)
    (hkept : ∀ c, (s.cells c).dropped = true → (s'.cells c).dropped = true) :
    Planned ledger s' charges planned rest :=
  ⟨h.sublist, fun p hp => (h.covers p hp).imp_right (hkept _), h.charges⟩

theorem Accepted.mono {releases : List (Option Nat × RetainedCharge)}
    (h : Accepted ledger s rest releases)
    (hrecord : (s'.refused, s'.charged, s'.anchored) = (s.refused, s.charged, s.anchored))
    (hkept : ∀ c, (s.cells c).dropped = true → (s'.cells c).dropped = true) :
    Accepted ledger s' rest releases := by
  simp only [Prod.mk.injEq] at hrecord
  obtain ⟨hrefused, hcharged, hanchored⟩ := hrecord
  obtain ⟨haccepted, ⟨planned, hplanned⟩, fates, hfates, heq⟩ := h
  refine ⟨hrefused.trans haccepted, ⟨planned, ?_⟩, fates, hfates.mono hanchored hkept, heq⟩
  rw [hcharged]
  exact hplanned.mono hkept

theorem Concluded.mono {rest : List (Option Nat × RetainedCharge)} (h : Concluded ledger s rest)
    (hrecord : (s'.refused, s'.charged, s'.anchored) = (s.refused, s.charged, s.anchored))
    (hreleased : s'.released = s.released)
    (hkept : ∀ c, (s.cells c).dropped = true → (s'.cells c).dropped = true) :
    Concluded ledger s' rest := by
  unfold Concluded at h ⊢
  rw [hreleased]
  rcases h with hno | hyes
  · simp only [Prod.mk.injEq] at hrecord
    obtain ⟨hrefused, hcharged, hanchored⟩ := hrecord
    rw [hrefused, hcharged, hanchored]
    exact .inl hno
  · exact .inr (hyes.mono hrecord hkept)

end Fates

section Steps

variable {host : RetainedMeters} {ledger : Ledger} {s s' : Settling}

end Steps

/-- The charge that a pending cell is for, if a meter pays for it. -/
def PendingCellAlloc.charge (p : PendingCellAlloc) : Option RetainedCharge :=
  p.meter.map fun m => ⟨m, p.bytes, p.slots⟩

section Outcome

variable {ledger : Ledger} {s : Settling} {p : PendingCellAlloc} {fate : Fate}
  {fates : List (PendingCellAlloc × Fate)}

variable (h : Handled ledger s fates [])

include h

theorem Handled.distinct : (fates.map fun x => x.1.cell).Nodup := by
  have hdistinct := ledger.distinct
  rw [h.covers, append_nil, map_map] at hdistinct
  exact hdistinct

end Outcome

section Totals

variable (m : Nat) (charges : List RetainedCharge)

/-- What adding to the charge of `m` makes of the charges of `m`, of which there is at most
one. -/
def raise (m : Nat) (bytes slots : Int64) : List RetainedCharge → List RetainedCharge
  | [] => [⟨m, bytes, slots⟩]
  | c :: charges => { c with bytes := c.bytes + bytes, slots := c.slots + slots } :: charges

end Totals

end Meter

end Lispico
