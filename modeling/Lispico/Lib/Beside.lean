import Lispico.Lib.Guarded

/-!
# A run beside one without a budget

A run under a budget, or under none, goes in step with a run without one for as long as its
budget has not failed. `Beside` keeps the two states in a relation and relates the results; a
budget that has failed stays so and excuses its run from then on.
-/

namespace Lispico

namespace Lib

namespace Guarded

section

variable {B S S' E α α' β β' : Type} (f : B → Option E) (RE : S → S' → Prop)

/-- Two outcomes that are in step, unless the first one, which began with the budget `b₀`, has
lost its budget. -/
inductive Agrees (b₀ : Option B) (Q : α → α' → S → S' → Prop) :
    Except E α × S × Option B → Except E α' × S' × Option B → Prop where
  | ok {a a' s s' b} (hb : b₀ = none → b = none) (hq : Q a a' s s') :
      Agrees b₀ Q (.ok a, s, b) (.ok a', s', none)
  | error {e s s' b} (hb : b₀ = none → b = none) (hr : RE s s') :
      Agrees b₀ Q (.error e, s, b) (.error e, s', none)
  | lost {x x'} (hb : b₀ ≠ none) (h : x.2.2.bind f ≠ none) : Agrees b₀ Q x x'

def Steady (m : Guarded B S E α) : Prop := ∀ s b, b.bind f ≠ none → (m s b).2.2.bind f ≠ none

/-- A computation that stays in step with one without a budget, on related states. -/
structure Beside (R : S → S' → Prop) (Q : α → α' → S → S' → Prop) (m : Guarded B S E α)
    (m' : Guarded B S' E α') : Prop where
  steady : Steady f m
  agrees : ∀ s s' b, R s s' → Agrees f RE b Q (m s b) (m' s' none)

variable {f RE} {R R' : S → S' → Prop} {Q : α → α' → S → S' → Prop}
  {Q' : β → β' → S → S' → Prop} {m : Guarded B S E α} {m' : Guarded B S' E α'}
  {k : α → Guarded B S E β} {k' : α' → Guarded B S' E β'}

theorem Steady.bind (hm : Steady f m) (hk : ∀ a, Steady f (k a)) : Steady f (m >>= k) := by
  intro s b hb
  have h := hm s b hb
  rw [bind_apply]
  generalize m s b = x at h
  rcases x with ⟨e | a, s', b'⟩
  · exact h
  · exact hk a s' b' h

theorem Agrees.since {b₀ b : Option B} {x : Except E α × S × Option B}
    {x' : Except E α' × S' × Option B} (h : Agrees f RE b Q x x') (hb : b₀ = none → b = none) :
    Agrees f RE b₀ Q x x' := by
  cases h with
  | ok hb' hq => exact .ok (fun h => hb' (hb h)) hq
  | error hb' hr => exact .error (fun h => hb' (hb h)) hr
  | lost hb' h => exact .lost (fun h => hb' (hb h)) h

theorem outranked_of_lost {s : S} {b : Option B} (h : (outranked f m s b).2.2.bind f ≠ none) :
    ∃ e s' b', outranked f m s b = (.error e, s', b') := by
  unfold outranked at h ⊢
  generalize m s b = x at h
  rcases x with ⟨r, s', b'⟩
  dsimp only at h ⊢
  cases hf : b'.bind f with
  | some e => exact ⟨e, s', b', rfl⟩
  | none =>
    rw [hf] at h
    exact absurd hf h

namespace Beside

theorem ret {a : α} {a' : α'} (h : ∀ s s', R s s' → Q a a' s s') :
    Beside f RE R Q (Guarded.ret a) (Guarded.ret a') :=
  ⟨fun _ _ h => h, fun s s' _ hr => .ok id (h s s' hr)⟩

theorem fail (e : E) (h : ∀ s s', R s s' → RE s s') :
    Beside f RE R Q (Guarded.fail e) (Guarded.fail e) :=
  ⟨fun _ _ h => h, fun s s' _ hr => .error id (h s s' hr)⟩

theorem look {g : S → α} {g' : S' → α'} (h : ∀ s s', R s s' → Q (g s) (g' s') s s') :
    Beside f RE R Q (Guarded.look g) (Guarded.look g') :=
  ⟨fun _ _ h => h, fun s s' _ hr => .ok id (h s s' hr)⟩

theorem ite {p : Prop} [Decidable p] {m₁ : Guarded B S E α} {m₁' : Guarded B S' E α'}
    (h : Beside f RE R Q m m') (h₁ : Beside f RE R Q m₁ m₁') :
    Beside f RE R Q (if p then m else m₁) (if p then m' else m₁') := by
  split
  · exact h
  · exact h₁

theorem bind {P : α → α' → Prop} (htotal : ∀ a, ∃ a', P a a')
    (hm : Beside f RE R (fun a a' s s' => P a a' ∧ R' s s') m m')
    (hk : ∀ a a', P a a' → Beside f RE R' Q' (k a) (k' a')) :
    Beside f RE R Q' (m >>= k) (m' >>= k') := by
  have hsteady : ∀ a, Steady f (k a) := by
    intro a
    obtain ⟨a', ha⟩ := htotal a
    exact (hk a a' ha).steady
  refine ⟨hm.steady.bind hsteady, fun s s' b hr => ?_⟩
  have h := hm.agrees s s' b hr
  rw [bind_apply, bind_apply]
  generalize m s b = x, m' s' none = x' at h
  cases h with
  | ok hb hq => exact ((hk _ _ hq.1).agrees _ _ _ hq.2).since hb
  | error hb hr => exact .error hb hr
  | lost hb h =>
    refine .lost hb ?_
    rcases x with ⟨e | a, s₁, b₁⟩
    · exact h
    · exact hsteady a s₁ b₁ h

theorem bindEq {m' : Guarded B S' E α} {k' : α → Guarded B S' E β'}
    (hm : Beside f RE R (fun a a' s s' => a = a' ∧ R' s s') m m')
    (hk : ∀ a, Beside f RE R' Q' (k a) (k' a)) : Beside f RE R Q' (m >>= k) (m' >>= k') :=
  hm.bind (fun a => ⟨a, rfl⟩) fun a _ heq => heq ▸ hk a

theorem outranked (hm : Beside f RE R Q m m') :
    Beside f RE R Q (Guarded.outranked f m) (Guarded.outranked f m') := by
  refine ⟨fun s b hb => ?_, fun s s' b hr => ?_⟩
  · have h := hm.steady s b hb
    unfold Guarded.outranked
    generalize m s b = x at h
    rcases x with ⟨r, s', b'⟩
    dsimp only at h ⊢
    split <;> exact h
  · have h := hm.agrees s s' b hr
    unfold Guarded.outranked
    generalize m s b = x, m' s' none = x' at h
    rcases x with ⟨r, s₁, b₁⟩
    dsimp only
    cases hf : b₁.bind f with
    | some e =>
      refine .lost (fun hb => ?_) (by simp [hf])
      cases h with
      | ok hnone _ => simp [hnone hb] at hf
      | error hnone _ => simp [hnone hb] at hf
      | lost hne _ => exact hne hb
    | none =>
      cases h with
      | ok hb hq => exact .ok hb hq
      | error hb hr => exact .error hb hr
      | lost _ h => exact absurd hf h

end Beside

end

end Guarded

end Lib

end Lispico
