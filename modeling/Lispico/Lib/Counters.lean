import Lispico.Lib.Int64
import Mathlib

/-!
# Programs on shared atomic counters

Threads run compare-and-swap loops on counters that they share, with atomic actions on a
store in between. Of each counter the store owns a part and every thread holds a part. A
program is covered by what its thread holds if it never gives back more, keeps each counter
within its ceiling and ends with nothing held.
-/

namespace Lispico

namespace Lib

open Function

/-- A program over counters `C` and a store `S`. The loop loads the counter, asks `swap` for
the new value, and goes on with what it has loaded once it was swapped in or none was asked
for. `choose` leaves a decision to the outside. -/
inductive CounterProg (C S R : Type) where
  | done (r : R)
  | loop (c : C) (swap : Int64 → Option Int64) (next : Int64 → CounterProg C S R)
  | act (f : S → S) (next : S → CounterProg C S R)
  | choose (yes no : CounterProg C S R)

/-- What the store owns of each counter. Counters that no loop works on may be owed. -/
structure Accounts (C S : Type) where
  own : S → C → Int
  ceiling : C → Int64
  real : C → Prop
  own_nonneg : ∀ s c, real c → 0 ≤ own s c

structure CounterThread (C S R : Type) where
  prog : CounterProg C S R
  loaded : Option Int64
  held : C → Int

section

variable {C S R : Type} [DecidableEq C] (A : Accounts C S)

/-- One atomic step of a thread: the counters, the store and the thread after it. -/
def CounterThread.step (answer : Bool) (k : C → Int64) (s : S) (t : CounterThread C S R) :
    (C → Int64) × S × CounterThread C S R :=
  match t.prog with
  | .done _ => (k, s, t)
  | .act f next => (k, f s, ⟨next s, none, fun c => t.held c + A.own s c - A.own (f s) c⟩)
  | .choose yes no => (k, s, ⟨if answer then yes else no, none, t.held⟩)
  | .loop c swap next =>
    match t.loaded with
    | none => (k, s, { t with loaded := some (k c) })
    | some used =>
      match swap used with
      | none => (k, s, ⟨next used, none, t.held⟩)
      | some v =>
        if k c = used then
          (update k c v, s, ⟨next used, none,
            update t.held c (t.held c + (v.toInt - used.toInt))⟩)
        else (k, s, { t with loaded := none })

/-- The program gives back no more than is held, and ends with nothing held. -/
def Covers : (C → Int) → CounterProg C S R → Prop
  | held, .done _ => ∀ c, held c = 0
  | held, .loop c swap next => A.real c ∧ ∀ used, (swap used = none → Covers held (next used)) ∧
      ∀ v, swap used = some v → 0 ≤ used.toInt → used.toInt ≤ (A.ceiling c).toInt →
        held c ≤ used.toInt → 0 ≤ v.toInt ∧ v.toInt ≤ (A.ceiling c).toInt ∧
          0 ≤ held c + (v.toInt - used.toInt) ∧
          Covers (update held c (held c + (v.toInt - used.toInt))) (next used)
  | held, .act f next => ∀ s, (∀ c, A.real c → 0 ≤ held c + A.own s c - A.own (f s) c) ∧
      Covers (fun c => held c + A.own s c - A.own (f s) c) (next s)
  | held, .choose yes no => Covers held yes ∧ Covers held no

structure Balanced (k : C → Int64) (s : S) (ts : List (CounterThread C S R)) : Prop where
  level : ∀ c, (k c).toInt = A.own s c + (ts.map (·.held c)).sum
  bounds : ∀ c, A.real c → 0 ≤ (k c).toInt ∧ (k c).toInt ≤ (A.ceiling c).toInt
  covered : ∀ t ∈ ts, Covers A t.held t.prog ∧ ∀ c, A.real c → 0 ≤ t.held c

variable {A} {k : C → Int64} {s : S} {t : CounterThread C S R} {l₁ l₂ : List (CounterThread C S R)}

omit [DecidableEq C] in
theorem sum_held_nonneg {l : List (CounterThread C S R)} {c : C}
    (h : ∀ t ∈ l, 0 ≤ t.held c) : 0 ≤ (l.map (·.held c)).sum := by
  apply List.sum_nonneg
  intro x hx
  obtain ⟨t, ht, rfl⟩ := List.mem_map.1 hx
  exact h t ht

section

variable (h : Balanced A k s (l₁ ++ t :: l₂))

include h

/-- No thread holds more of a counter than its value. -/
theorem Balanced.held_le {c : C} (hc : A.real c) : t.held c ≤ (k c).toInt := by
  have hown := A.own_nonneg s c hc
  have h₁ := sum_held_nonneg (l := l₁) fun t ht => (h.covered t (by simp [ht])).2 c hc
  have h₂ := sum_held_nonneg (l := l₂) fun t ht => (h.covered t (by simp [ht])).2 c hc
  rw [h.level, List.map_append, List.map_cons, List.sum_append, List.sum_cons]
  omega

/-- A thread moves on and takes or leaves what the counters and the store lose or gain. -/
theorem Balanced.move {k' : C → Int64} {s' : S} {t' : CounterThread C S R}
    (hlevel : ∀ c, (k' c).toInt - A.own s' c - t'.held c = (k c).toInt - A.own s c - t.held c)
    (hbounds : ∀ c, A.real c → 0 ≤ (k' c).toInt ∧ (k' c).toInt ≤ (A.ceiling c).toInt)
    (hcov : Covers A t'.held t'.prog) (hheld : ∀ c, A.real c → 0 ≤ t'.held c) :
    Balanced A k' s' (l₁ ++ t' :: l₂) where
  level c := by
    have hold := h.level c
    have hnew := hlevel c
    simp only [List.map_append, List.map_cons, List.sum_append, List.sum_cons] at hold ⊢
    omega
  bounds := hbounds
  covered := by
    intro u hu
    rcases List.mem_append.1 hu with hu | hu
    · exact h.covered u (by simp [hu])
    · rcases List.mem_cons.1 hu with rfl | hu
      · exact ⟨hcov, hheld⟩
      · exact h.covered u (by simp [hu])

theorem Balanced.step (answer : Bool) :
    Balanced A (t.step A answer k s).1 (t.step A answer k s).2.1
      (l₁ ++ (t.step A answer k s).2.2 :: l₂) := by
  obtain ⟨hcov, hheld⟩ := h.covered t (by simp)
  obtain ⟨prog, loaded, held⟩ := t
  cases prog with
  | done r => exact h
  | act f next =>
    refine h.move (fun c => ?_) h.bounds (hcov s).2 (hcov s).1
    simp only [CounterThread.step]
    omega
  | choose yes no =>
    refine h.move (fun _ => rfl) h.bounds ?_ hheld
    cases answer with
    | true => exact hcov.1
    | false => exact hcov.2
  | loop c swap next =>
    cases loaded with
    | none => exact h.move (fun _ => rfl) h.bounds hcov hheld
    | some used =>
      simp only [CounterThread.step]
      cases hs : swap used with
      | none => exact h.move (fun _ => rfl) h.bounds ((hcov.2 used).1 hs) hheld
      | some v =>
        dsimp only
        split
        · rename_i heq
          subst heq
          have hb := h.bounds c hcov.1
          obtain ⟨hv, hv', hpos, hnext⟩ := (hcov.2 (k c)).2 v hs hb.1 hb.2 (h.held_le hcov.1)
          refine h.move (fun d => ?_) (fun d hd => ?_) hnext fun d hd => ?_
          · by_cases hd : d = c
            · subst hd
              simp only [update_self]
              omega
            · simp only [update_of_ne hd]
          · by_cases hdc : d = c
            · subst hdc
              simp only [update_self]
              exact ⟨hv, hv'⟩
            · simp only [update_of_ne hdc]
              exact h.bounds d hd
          · by_cases hdc : d = c
            · subst hdc
              simp only [update_self]
              exact hpos
            · simp only [update_of_ne hdc]
              exact hheld d hd
        · exact h.move (fun _ => rfl) h.bounds hcov hheld

end

/-- A new thread takes over a part of what the store owns. -/
theorem Balanced.spawn {ts : List (CounterThread C S R)} (h : Balanced A k s ts) {s' : S}
    (hown : ∀ c, A.own s c = A.own s' c + t.held c) (hcov : Covers A t.held t.prog)
    (hheld : ∀ c, A.real c → 0 ≤ t.held c) : Balanced A k s' (t :: ts) where
  level c := by
    rw [h.level, hown, List.map_cons, List.sum_cons, add_assoc]
  bounds := h.bounds
  covered := by
    intro u hu
    rcases List.mem_cons.1 hu with rfl | hu
    · exact ⟨hcov, hheld⟩
    · exact h.covered u hu

end

end Lib

end Lispico
