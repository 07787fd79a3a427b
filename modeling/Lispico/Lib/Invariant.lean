import Lispico.Lib.Comp

/-!
# Invariants of computations

A computation preserves an invariant if every answer it gives, result or error, leaves
the invariant true. A second notion bounds the errors it may end in. The rules follow
the ways computations are put together.
-/

namespace Lispico

namespace Lib

namespace Comp

section

variable {S E α β : Type}

/-- Every answer from a state with the invariant is in a state with the invariant. -/
def Preserves (I : S → Prop) (m : Comp S E α) : Prop :=
  ∀ s r s', I s → m s = some (r, s') → I s'

variable {I : S → Prop}

theorem preserves_ret (a : α) : Preserves I (ret a : Comp S E α) := by
  intro s r s' hs h
  cases h
  exact hs

theorem preserves_fail (e : E) : Preserves I (fail e : Comp S E α) := by
  intro s r s' hs h
  cases h
  exact hs

theorem preserves_diverge : Preserves I (diverge : Comp S E α) := by
  intro s r s' hs h
  cases h

theorem preserves_read : Preserves I (read : Comp S E S) := by
  intro s r s' hs h
  cases h
  exact hs

theorem preserves_update {f : S → S} (hf : ∀ s, I s → I (f s)) :
    Preserves I (update f : Comp S E Unit) := by
  intro s r s' hs h
  cases h
  exact hf s hs

theorem preserves_step {f : S → α × S} (hf : ∀ s, I s → I (f s).2) :
    Preserves I (step f : Comp S E α) := by
  intro s r s' hs h
  cases h
  exact hf s hs

theorem preserves_lift (r : Except E α) : Preserves I (lift r : Comp S E α) := by
  cases r with
  | ok a => exact preserves_ret a
  | error e => exact preserves_fail e

variable {m : Comp S E α} {f : α → Comp S E β} {m' : Comp S E α}

theorem Preserves.bind (hm : Preserves I m) (hf : ∀ a, Preserves I (f a)) :
    Preserves I (m >>= f) := by
  intro s r s' hs h
  rcases bind_eq_some_iff.1 h with ⟨a, t, hma, hfa⟩ | ⟨e, t, hme, hout⟩
  · exact hf a t r s' (hm s _ t hs hma) hfa
  · cases hout
    exact hm s _ s' hs hme

theorem Preserves.map {m : Comp S E α} (f : α → β) (hm : Preserves I m) : Preserves I (f <$> m) :=
  hm.bind fun a => preserves_ret (f a)

theorem Preserves.attempt (hm : Preserves I m) : Preserves I m.attempt := by
  intro s r s' hs h
  unfold Comp.attempt at h
  split at h
  · cases h
  · rename_i r' t hmt
    cases h
    exact hm s r' s' hs hmt

theorem Preserves.within {enter leave : S → S} (hm : Preserves I m)
    (henter : ∀ s, I s → I (enter s)) (hleave : ∀ s, I s → I (leave s)) :
    Preserves I (within enter leave m) := by
  intro s r s' hs h
  unfold Comp.within at h
  split at h
  · cases h
  · rename_i r' t hmt
    cases h
    exact hleave t (hm _ r t (henter s hs) hmt)

theorem preserves_ite {c : Prop} [Decidable c] (hm : Preserves I m)
    (hm' : Preserves I m') : Preserves I (if c then m else m') := by
  split
  · exact hm
  · exact hm'

/-- The invariant is preserved, and no error but those with `Q` is raised. -/
def Meets (I : S → Prop) (Q : E → Prop) (m : Comp S E α) : Prop :=
  ∀ s r s', m s = some (r, s') → (I s → I s') ∧ ∀ e, r = .error e → Q e

variable {Q : E → Prop}

theorem Meets.preserves (h : Meets I Q m) : Preserves I m :=
  fun s r s' hs hm => (h s r s' hm).1 hs

theorem meets_ret (a : α) : Meets I Q (ret a : Comp S E α) := by
  rintro s r s' ⟨⟩
  exact ⟨id, nofun⟩

theorem meets_fail {e : E} (he : Q e) : Meets I Q (fail e : Comp S E α) := by
  rintro s r s' ⟨⟩
  refine ⟨id, ?_⟩
  rintro _ ⟨⟩
  exact he

theorem Preserves.meets_step {f : S → α × S} (h : Preserves I (step f : Comp S E α)) :
    Meets I Q (step f : Comp S E α) := by
  rintro s r s' ⟨⟩
  exact ⟨fun hs => h s _ _ hs rfl, nofun⟩

theorem Preserves.meets_update {f : S → S} (h : Preserves I (update f : Comp S E Unit)) :
    Meets I Q (update f : Comp S E Unit) := by
  rintro s r s' ⟨⟩
  exact ⟨fun hs => h s _ _ hs rfl, nofun⟩

theorem meets_lift {r : Except E α} (hr : ∀ e, r = .error e → Q e) :
    Meets I Q (lift r : Comp S E α) := by
  cases r with
  | ok a => exact meets_ret a
  | error e => exact meets_fail (hr e rfl)

theorem Preserves.meets_attempt (hm : Preserves I m) : Meets I Q m.attempt := by
  intro s r s' h
  refine ⟨fun hs => hm.attempt s r s' hs h, ?_⟩
  rintro e rfl
  unfold Comp.attempt at h
  split at h <;> cases h

theorem Meets.bind (hm : Meets I Q m) (hf : ∀ a, Meets I Q (f a)) : Meets I Q (m >>= f) := by
  intro s r s' h
  rcases bind_eq_some_iff.1 h with ⟨a, t, hma, hfa⟩ | ⟨e, t, hme, hout⟩
  · obtain ⟨hkeep, hfail⟩ := hf a t r s' hfa
    exact ⟨fun hs => hkeep ((hm s _ t hma).1 hs), hfail⟩
  · cases hout
    obtain ⟨hkeep, hfail⟩ := hm s _ s' hme
    refine ⟨hkeep, ?_⟩
    rintro _ ⟨⟩
    exact hfail e rfl

theorem meets_ite {c : Prop} [Decidable c] (hm : Meets I Q m)
    (hm' : Meets I Q m') : Meets I Q (if c then m else m') := by
  split
  · exact hm
  · exact hm'

theorem Meets.mono {Q' : E → Prop} (hm : Meets I Q m) (h : ∀ e, Q e → Q' e) : Meets I Q' m :=
  fun s r s' hs => ⟨(hm s r s' hs).1, fun e he => h e ((hm s r s' hs).2 e he)⟩

end

end Comp

end Lib

end Lispico
