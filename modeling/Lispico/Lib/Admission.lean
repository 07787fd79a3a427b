import Mathlib

/-!
# Items admitted one by one under a limit

Every item adds to a running total, and the total is checked against the limit when some
of the items are added. Whether all of them pass depends on their order: it is best to
add first what lowers the total, and worst to add first what raises it unchecked.
-/

namespace Lispico

namespace Lib

open List

section

variable {α : Type*} (delta : α → Int) (checked : α → Bool) (limit : Int)

def Admits : Int → List α → Prop
  | _, [] => True
  | total, a :: l =>
    (checked a = true → total + delta a ≤ limit) ∧ Admits (total + delta a) l

def highest (l : List α) : Int :=
  (l.map fun a => if checked a then delta a else max (delta a) 0).sum

def lowest (l : List α) : Int :=
  (l.map fun a => if checked a then delta a else min (delta a) 0).sum

def Within (total : Int) (l : List α) : Prop := (∃ a ∈ l, checked a = true) → total ≤ limit

instance (total : Int) (l : List α) : Decidable (Within checked limit total l) :=
  inferInstanceAs (Decidable (_ → _))

variable {delta checked limit}

variable {total : Int} {l l' : List α}

theorem admits_append :
    Admits delta checked limit total (l ++ l') ↔ Admits delta checked limit total l ∧
      Admits delta checked limit (total + (l.map delta).sum) l' := by
  induction l generalizing total with
  | nil => simp [Admits]
  | cons a l ih =>
    rw [cons_append, Admits, Admits, ih, map_cons, sum_cons, and_assoc,
      ← add_assoc]

theorem admits_of_unchecked (h : ∀ a ∈ l, checked a = false) :
    Admits delta checked limit total l := by
  induction l generalizing total with
  | nil => trivial
  | cons a l ih =>
    refine ⟨fun ha => ?_, ih fun b hb => h b (.tail _ hb)⟩
    rw [h a (.head _)] at ha
    cases ha

theorem highest_nonneg (h : ∀ a ∈ l, checked a = true → 0 ≤ delta a) :
    0 ≤ highest delta checked l := by
  refine sum_nonneg fun x hx => ?_
  obtain ⟨a, ha, rfl⟩ := List.mem_map.1 hx
  split
  · rename_i hc
    exact h a ha hc
  · exact le_max_right _ _

theorem lowest_nonpos {l : List α} (h : ∀ a ∈ l, checked a = false) :
    lowest delta checked l ≤ 0 := by
  induction l with
  | nil => exact le_rfl
  | cons a l ih =>
    have hrest := ih fun b hb => h b (.tail _ hb)
    have ha := min_le_right (delta a) 0
    simp only [lowest, map_cons, sum_cons, h a (.head _), Bool.false_eq_true,
      if_false] at hrest ⊢
    omega

theorem admits_of_highest (hnonneg : ∀ a ∈ l, checked a = true → 0 ≤ delta a)
    (h : Within checked limit (total + highest delta checked l) l) :
    Admits delta checked limit total l := by
  induction l generalizing total with
  | nil => trivial
  | cons a l ih =>
    have hrest := highest_nonneg fun b hb => hnonneg b (.tail _ hb)
    have hcons : highest delta checked (a :: l) =
        (if checked a then delta a else max (delta a) 0) + highest delta checked l := rfl
    refine ⟨fun ha => ?_, ih (fun b hb => hnonneg b (.tail _ hb)) fun ⟨b, hb, hc⟩ => ?_⟩
    · have hall := h ⟨a, .head _, ha⟩
      rw [hcons, if_pos ha] at hall
      omega
    · have hall := h ⟨b, .tail _ hb, hc⟩
      rw [hcons] at hall
      split at hall
      · omega
      · have hmax := le_max_left (delta a) 0
        omega

theorem within_lowest_of_admits (h : Admits delta checked limit total l) :
    Within checked limit (total + lowest delta checked l) l := by
  induction l generalizing total with
  | nil =>
    rintro ⟨a, ha, -⟩
    cases ha
  | cons a l ih =>
    intro hchecked
    have hcons : lowest delta checked (a :: l) =
        (if checked a then delta a else min (delta a) 0) + lowest delta checked l := rfl
    have hle : (if checked a then delta a else min (delta a) 0) ≤ delta a := by
      split
      · exact le_rfl
      · exact min_le_left _ _
    by_cases hlater : ∃ b ∈ l, checked b = true
    · have hrest := ih h.2 hlater
      omega
    · have hnone : ∀ b ∈ l, checked b = false := fun b hb => by
        by_contra hb'
        exact hlater ⟨b, hb, by simpa using hb'⟩
      obtain ⟨b, hb, hc⟩ := hchecked
      rcases List.mem_cons.1 hb with rfl | hb
      · have hhead := h.1 hc
        have hrest := @lowest_nonpos α delta checked l hnone
        omega
      · exact absurd ⟨b, hb, hc⟩ hlater

variable (delta checked)

def bestFirst (l : List α) : List α :=
  l.filter (fun a => !checked a && decide (delta a < 0)) ++
    (l.filter checked ++ l.filter fun a => !checked a && !decide (delta a < 0))

def worstFirst (l : List α) : List α :=
  l.filter (fun a => !checked a && !decide (delta a < 0)) ++
    (l.filter checked ++ l.filter fun a => !checked a && decide (delta a < 0))

variable {delta checked}

theorem split_perm (checked p : α → Bool) (l : List α) : (l.filter (fun a => !checked a && p a) ++
      (l.filter checked ++ l.filter fun a => !checked a && !p a)).Perm l := by
  have hrest : (l.filter (fun a => !checked a && p a) ++
      l.filter fun a => !checked a && !p a).Perm (l.filter fun a => !checked a) := by
    have hsplit := filter_append_perm p (l.filter fun a => !checked a)
    rw [filter_filter, filter_filter] at hsplit
    simpa only [Bool.and_comm] using hsplit
  refine (perm_append_comm_assoc _ _ _).trans ?_
  exact (hrest.append_left _).trans (filter_append_perm checked l)

theorem bestFirst_perm (delta : α → Int) (checked : α → Bool) (l : List α) :
    (bestFirst delta checked l).Perm l := split_perm checked _ l

theorem worstFirst_perm (delta : α → Int) (checked : α → Bool) (l : List α) :
    (worstFirst delta checked l).Perm l := by
  have hperm := split_perm checked (fun a => !decide (delta a < 0)) l
  simp only [Bool.not_not] at hperm
  exact hperm

theorem highest_perm (h : l'.Perm l) :
    highest delta checked l' = highest delta checked l := (h.map _).sum_eq

theorem lowest_perm (h : l'.Perm l) :
    lowest delta checked l' = lowest delta checked l := (h.map _).sum_eq

theorem within_perm (h : l'.Perm l) :
    Within checked limit total l' ↔ Within checked limit total l := by
  simp only [Within, h.mem_iff]

theorem highest_append (l l' : List α) :
    highest delta checked (l ++ l') = highest delta checked l + highest delta checked l' := by
  simp [highest]

theorem lowest_append (l l' : List α) :
    lowest delta checked (l ++ l') = lowest delta checked l + lowest delta checked l' := by
  simp [lowest]

variable (l)

theorem highest_checked :
    highest delta checked (l.filter checked) = ((l.filter checked).map delta).sum := by
  refine congrArg List.sum (map_congr_left fun a ha => ?_)
  rw [if_pos (mem_filter.1 ha).2]

theorem lowest_checked :
    lowest delta checked (l.filter checked) = ((l.filter checked).map delta).sum := by
  refine congrArg List.sum (map_congr_left fun a ha => ?_)
  rw [if_pos (mem_filter.1 ha).2]

theorem unchecked_rising :
    highest delta checked (l.filter fun a => !checked a && !decide (delta a < 0)) =
        ((l.filter fun a => !checked a && !decide (delta a < 0)).map delta).sum ∧
      lowest delta checked (l.filter fun a => !checked a && !decide (delta a < 0)) = 0 := by
  have hmem : ∀ a ∈ l.filter (fun a => !checked a && !decide (delta a < 0)),
      checked a = false ∧ 0 ≤ delta a := by
    intro a ha
    simpa using (mem_filter.1 ha).2
  refine ⟨congrArg List.sum (map_congr_left fun a ha => ?_), ?_⟩
  · rw [(hmem a ha).1, max_eq_left (hmem a ha).2]
    rfl
  · refine sum_eq_zero fun x hx => ?_
    obtain ⟨a, ha, rfl⟩ := List.mem_map.1 hx
    rw [(hmem a ha).1, min_eq_right (hmem a ha).2]
    rfl

theorem unchecked_falling :
    lowest delta checked (l.filter fun a => !checked a && decide (delta a < 0)) =
        ((l.filter fun a => !checked a && decide (delta a < 0)).map delta).sum ∧
      highest delta checked (l.filter fun a => !checked a && decide (delta a < 0)) = 0 := by
  have hmem : ∀ a ∈ l.filter (fun a => !checked a && decide (delta a < 0)),
      checked a = false ∧ delta a < 0 := by
    intro a ha
    simpa using (mem_filter.1 ha).2
  refine ⟨congrArg List.sum (map_congr_left fun a ha => ?_), ?_⟩
  · rw [(hmem a ha).1, min_eq_left (hmem a ha).2.le]
    rfl
  · refine sum_eq_zero fun x hx => ?_
    obtain ⟨a, ha, rfl⟩ := List.mem_map.1 hx
    rw [(hmem a ha).1, max_eq_right (hmem a ha).2.le]
    rfl

variable {l}

theorem admits_unchecked_filter (total : Int) (p : α → Bool) (l : List α) :
    Admits delta checked limit total (l.filter fun a => !checked a && p a) := by
  refine admits_of_unchecked fun a ha => ?_
  have hmem := (mem_filter.1 ha).2
  simp only [Bool.and_eq_true, Bool.not_eq_true'] at hmem
  exact hmem.1

theorem within_checked :
    Within checked limit total (l.filter checked) ↔ Within checked limit total l := by
  simp only [Within, mem_filter]
  exact ⟨fun h ⟨a, ha, hc⟩ => h ⟨a, ⟨ha, hc⟩, hc⟩, fun h ⟨a, ha, hc⟩ => h ⟨a, ha.1, hc⟩⟩

variable (hnonneg : ∀ a ∈ l, checked a = true → 0 ≤ delta a)

include hnonneg

theorem admits_bestFirst (h : Within checked limit (total + lowest delta checked l) l) :
    Admits delta checked limit total (bestFirst delta checked l) := by
  rw [← lowest_perm (bestFirst_perm delta checked l), bestFirst, lowest_append, lowest_append,
    (unchecked_falling l).1, lowest_checked, (unchecked_rising l).2, add_zero, ← add_assoc,
    ← within_checked, ← @highest_checked α delta checked l] at h
  rw [bestFirst, admits_append, admits_append]
  refine ⟨admits_unchecked_filter total _ l, admits_of_highest (fun a ha => ?_) h,
    admits_unchecked_filter _ _ l⟩
  exact hnonneg a (mem_filter.1 ha).1

omit hnonneg in
theorem within_of_worstFirst (h : Admits delta checked limit total (worstFirst delta checked l)) :
    Within checked limit (total + highest delta checked l) l := by
  rw [worstFirst, admits_append, admits_append] at h
  have hmiddle := within_lowest_of_admits h.2.1
  rw [← highest_perm (worstFirst_perm delta checked l), worstFirst, highest_append,
    highest_append,
    (unchecked_rising l).1, highest_checked, (unchecked_falling l).2, add_zero, ← add_assoc,
    ← within_checked, ← @lowest_checked α delta checked l]
  exact hmiddle

theorem admits_all_iff : (∀ l', l'.Perm l → Admits delta checked limit total l') ↔
      Within checked limit (total + highest delta checked l) l := by
  constructor
  · intro h
    exact within_of_worstFirst (h _ (worstFirst_perm delta checked l))
  · intro h l' hperm
    refine admits_of_highest (fun a ha => hnonneg a (hperm.mem_iff.1 ha)) ?_
    rwa [highest_perm hperm, within_perm hperm]

theorem admits_some_iff : (∃ l', l'.Perm l ∧ Admits delta checked limit total l') ↔
      Within checked limit (total + lowest delta checked l) l := by
  constructor
  · rintro ⟨l', hperm, h⟩
    have hwithin := within_lowest_of_admits h
    rwa [lowest_perm hperm, within_perm hperm] at hwithin
  · intro h
    exact ⟨_, bestFirst_perm delta checked l, admits_bestFirst hnonneg h⟩

end

end Lib

end Lispico
