import Mathlib

/-!
# Computations with and without a budget

A computation over a state runs with a budget, whose operations may refuse it, or without one.
`Funded` says that a large enough budget changes nothing, with an account of what each part
takes and leaves. `Matches` relates runs from two states, `Yields` follows one run without a
budget, and `Gives` speaks of the results of every run.
-/

namespace Lispico

namespace Lib

/-- A computation over states `S` with errors `E`, under a budget `B` or none. -/
def Guarded (B S E α : Type) : Type := S → Option B → Except E α × S × Option B

namespace Guarded

section

variable {B S T E α β : Type}

def ret (a : α) : Guarded B S E α := fun s b => (.ok a, s, b)

def fail (e : E) : Guarded B S E α := fun s b => (.error e, s, b)

def andThen (m : Guarded B S E α) (f : α → Guarded B S E β) : Guarded B S E β := fun s b =>
  match m s b with
  | (.error e, s, b) => (.error e, s, b)
  | (.ok a, s, b) => f a s b

instance : Monad (Guarded B S E) where
  pure := ret
  bind := andThen

def look (f : S → α) : Guarded B S E α := fun s b => (.ok (f s), s, b)

def update (f : S → S) : Guarded B S E Unit := fun s b => (.ok (), f s, b)

/-- An operation of the budget, which may refuse; nothing without a budget. -/
def spend (op : B → Option E × B) : Guarded B S E Unit := fun s b =>
  match b with
  | none => (.ok (), s, none)
  | some b =>
    match op b with
    | (some e, b) => (.error e, s, some b)
    | (none, b) => (.ok (), s, some b)

def inspect (f : Option B → α) : Guarded B S E α := fun s b => (.ok (f b), s, b)

def cleanup (f : S → S) (m : Guarded B S E α) : Guarded B S E α := fun s b =>
  match m s b with
  | (.error e, s, b) => (.error e, f s, b)
  | (.ok a, s, b) => (.ok a, s, b)

def outranked (f : B → Option E) (m : Guarded B S E α) : Guarded B S E α := fun s b =>
  match m s b with
  | (r, s, b) =>
    match b.bind f with
    | some e => (.error e, s, b)
    | none => (r, s, b)

/-- A computation and, when it fails, an operation of the budget, whose refusal outranks the
error. -/
def settled (op : B → Option E × B) (m : Guarded B S E α) : Guarded B S E α := fun s b =>
  match m s b with
  | (.error e, s, b) => (spend op >>= fun _ => fail e : Guarded B S E α) s b
  | (.ok a, s, b) => (.ok a, s, b)

/-- A computation between two changes of the state, the second made also when it fails and
with the state before it at hand. -/
def within (enter : S → S) (leave : S → S → S) (m : Guarded B S E α) : Guarded B S E α :=
  fun s b =>
    match m (enter s) b with
    | (r, s', b) => (r, leave s s', b)

def zoom (get : S → T) (set : T → S → S) (m : Guarded B T E α) : Guarded B S E α := fun s b =>
  match m (get s) b with
  | (r, t, b) => (r, set t s, b)

/-- A computation on a state of its own, which is lost when it fails. -/
def apart (t : T) (m : Guarded B T E α) : Guarded B S E (α × T) := fun s b =>
  match m t b with
  | (.error e, _, b) => (.error e, s, b)
  | (.ok a, t, b) => (.ok (a, t), s, b)

@[simp] theorem ret_apply (a : α) (s : S) (b : Option B) :
    (ret a : Guarded B S E α) s b = (.ok a, s, b) := rfl

@[simp] theorem pure_apply (a : α) (s : S) (b : Option B) :
    (pure a : Guarded B S E α) s b = (.ok a, s, b) := rfl

@[simp] theorem fail_apply (e : E) (s : S) (b : Option B) :
    (fail e : Guarded B S E α) s b = (.error e, s, b) := rfl

@[simp] theorem look_apply (f : S → α) (s : S) (b : Option B) :
    (look f : Guarded B S E α) s b = (.ok (f s), s, b) := rfl

@[simp] theorem update_apply (f : S → S) (s : S) (b : Option B) :
    (update f : Guarded B S E Unit) s b = (.ok (), f s, b) := rfl

@[simp] theorem inspect_apply (f : Option B → α) (s : S) (b : Option B) :
    (inspect f : Guarded B S E α) s b = (.ok (f b), s, b) := rfl

variable (op : B → Option E × B) (f : α → Guarded B S E β) {m : Guarded B S E α} {b b' : Option B}
  (s : S)

@[simp] theorem spend_none : (spend op : Guarded B S E Unit) s none = (.ok (), s, none) := rfl

theorem spend_some (b : B) : (spend op : Guarded B S E Unit) s (some b) =
      match op b with
      | (some e, b) => (.error e, s, some b)
      | (none, b) => (.ok (), s, some b) := rfl

theorem spend_budget (b : B) :
    ((spend op : Guarded B S E Unit) s (some b)).2.2 = some (op b).2 := by
  rw [spend_some]
  rcases op b with ⟨_ | _, _⟩ <;> rfl

theorem bind_apply (m : Guarded B S E α) (f : α → Guarded B S E β) (s : S) (b : Option B) :
    (m >>= f) s b =
      match m s b with
      | (.error e, s, b) => (.error e, s, b)
      | (.ok a, s, b) => f a s b := rfl

theorem bind_of_ok {a : α} {s s' : S} (h : m s b = (.ok a, s', b')) :
    (m >>= f) s b = f a s' b' := by
  rw [bind_apply, h]

theorem bind_of_error {e : E} {s s' : S} (h : m s b = (.error e, s', b')) :
    (m >>= f) s b = (.error e, s', b') := by
  rw [bind_apply, h]

end

section

variable {B S T E α β α' β' : Type}

/-- Two outcomes that agree but for the states, which are related, and the results, which
are too. The budgets are the same and satisfy `G`. -/
inductive Paired (G : Option B → Prop) (R : S → S → Prop) (Q : α → α' → Prop) :
    Except E α × S × Option B → Except E α' × S × Option B → Prop where
  | ok {a a' s s' b} (hq : Q a a') (hr : R s s') (hg : G b) :
      Paired G R Q (.ok a, s, b) (.ok a', s', b)
  | error {e s s' b} (hr : R s s') (hg : G b) : Paired G R Q (.error e, s, b) (.error e, s', b)

variable {G : Option B → Prop} {R : S → S → Prop} {x : Except E α × S × Option B}

theorem Paired.result {x' : Except E α × S × Option B} (h : Paired G R Eq x x') : x.1 = x'.1 := by
  cases h with
  | ok hq _ _ => rw [hq]
  | error _ _ => rfl

variable {Q : α → α' → Prop} {f : α → Guarded B S E β} {x' : Except E α' × S × Option B}
  {f' : α' → Guarded B S E β'} {b : Option B}

theorem Paired.budget (h : Paired G R Q x x') : x.2.2 = x'.2.2 := by
  cases h with
  | ok _ _ _ => rfl
  | error _ _ => rfl

theorem Paired.state (h : Paired G R Q x x') : R x.2.1 x'.2.1 := by
  cases h with
  | ok _ hr _ => exact hr
  | error hr _ => exact hr

theorem Paired.bind {R' : S → S → Prop} {Q' : β → β' → Prop} {m : Guarded B S E α}
    {m' : Guarded B S E α'} {s s' : S} (h : Paired G R Q (m s b) (m' s' b))
    (hR : ∀ s s', R s s' → R' s s')
    (hf : ∀ a a' s s' b, Q a a' → R s s' → G b → Paired G R' Q' (f a s b) (f' a' s' b)) :
    Paired G R' Q' ((m >>= f) s b) ((m' >>= f') s' b) := by
  rw [bind_apply, bind_apply]
  generalize m s b = x, m' s' b = x' at h
  cases h with
  | ok hq hr hg => exact hf _ _ _ _ _ hq hr hg
  | error hr hg => exact .error (hR _ _ hr) hg

/-- Two computations that have paired outcomes on related states. -/
def Matches (G : Option B → Prop) (R : S → S → Prop) (Q : α → α' → Prop)
    (m : Guarded B S E α) (m' : Guarded B S E α') : Prop :=
  ∀ s s' b, G b → R s s' → Paired G R Q (m s b) (m' s' b)

namespace Matches

variable {G : Option B → Prop} {R : S → S → Prop} {Q : α → α' → Prop} {Q' : β → β' → Prop}
  {m : Guarded B S E α} {m' : Guarded B S E α'} {n : Guarded B T E α}

theorem ret {a : α} {a' : α'} (h : Q a a') :
    Matches G R Q (Guarded.ret a : Guarded B S E α) (Guarded.ret a') :=
  fun _ _ _ hg hr => .ok h hr hg

theorem fail (e : E) : Matches G R Q (Guarded.fail e : Guarded B S E α) (Guarded.fail e) :=
  fun _ _ _ hg hr => .error hr hg

theorem bind (hm : Matches G R Q m m') (hf : ∀ a a', Q a a' → Matches G R Q' (f a) (f' a')) :
    Matches G R Q' (m >>= f) (m' >>= f') := by
  intro s s' b hg hr
  rw [bind_apply, bind_apply]
  have h := hm s s' b hg hr
  generalize m s b = x, m' s' b = x' at h
  cases h with
  | ok hq hr hg => exact hf _ _ hq _ _ _ hg hr
  | error hr hg => exact .error hr hg

theorem bindEq {m m' : Guarded B S E α} {f' : α → Guarded B S E β'}
    (hm : Matches G R Eq m m') (hf : ∀ a, Matches G R Q' (f a) (f' a)) :
    Matches G R Q' (m >>= f) (m' >>= f') :=
  hm.bind fun a _ h => h ▸ hf a

theorem ite {p p' : Prop} [Decidable p] [Decidable p'] {m₁ m₂ : Guarded B S E α}
    {m₁' m₂' : Guarded B S E α'} (hp : p ↔ p') (h₁ : Matches G R Q m₁ m₁')
    (h₂ : Matches G R Q m₂ m₂') :
    Matches G R Q (if p then m₁ else m₂) (if p' then m₁' else m₂') := by
  by_cases h : p
  · rw [if_pos h, if_pos (hp.mp h)]
    exact h₁
  · rw [if_neg h, if_neg (mt hp.mpr h)]
    exact h₂

theorem look {f : S → α} {f' : S → α'} (h : ∀ s s', R s s' → Q (f s) (f' s')) :
    Matches G R Q (Guarded.look f : Guarded B S E α) (Guarded.look f') :=
  fun _ _ _ hg hr => .ok (h _ _ hr) hr hg

theorem update {f f' : S → S} (h : ∀ s s', R s s' → R (f s) (f' s')) :
    Matches G R Eq (Guarded.update f : Guarded B S E Unit) (Guarded.update f') :=
  fun _ _ _ hg hr => .ok rfl (h _ _ hr) hg

theorem inspect (f : Option B → α) :
    Matches G R Eq (Guarded.inspect f : Guarded B S E α) (Guarded.inspect f) :=
  fun _ _ _ hg hr => .ok rfl hr hg

section

variable (hG : ∀ b b', G (some b) → G (some b'))

include hG

variable (op : B → Option E × B)

theorem spend : Matches G R Eq (Guarded.spend op : Guarded B S E Unit) (Guarded.spend op) := by
  intro s s' b hg hr
  cases b with
  | none => exact .ok rfl hr hg
  | some b =>
    unfold Guarded.spend
    dsimp only
    rcases op b with ⟨_ | e, b'⟩
    · exact .ok rfl hr (hG _ _ hg)
    · exact .error hr (hG _ _ hg)

omit hG in
theorem cleanup {f f' : S → S} (hm : Matches G R Q m m') (hf : ∀ s s', R s s' → R (f s) (f' s')) :
    Matches G R Q (Guarded.cleanup f m) (Guarded.cleanup f' m') := by
  intro s s' b hg hr
  unfold Guarded.cleanup
  have h := hm s s' b hg hr
  generalize m s b = x, m' s' b = x' at h
  cases h with
  | ok hq hr hg => exact .ok hq hr hg
  | error hr hg => exact .error (hf _ _ hr) hg

theorem settled_paired {s s' : S} (h : Paired G R Q (m s b) (m' s' b)) :
    Paired G R Q (Guarded.settled op m s b) (Guarded.settled op m' s' b) := by
  unfold Guarded.settled
  generalize m s b = x, m' s' b = x' at h
  cases h with
  | ok hq hr hg => exact .ok hq hr hg
  | @error e _ _ _ hr hg =>
    exact (Matches.spend hG op).bind (fun _ _ _ => .fail e) _ _ _ hg hr

theorem settled (hm : Matches G R Q m m') :
    Matches G R Q (Guarded.settled op m) (Guarded.settled op m') :=
  fun s s' b hg hr => settled_paired hG op (hm s s' b hg hr)

end

theorem zoom {get : S → T} {set : T → S → S} {RT : T → T → Prop}
    {n' : Guarded B T E α'} (hn : Matches G RT Q n n')
    (hget : ∀ s s', R s s' → RT (get s) (get s'))
    (hset : ∀ s s' t t', R s s' → RT t t' → R (set t s) (set t' s')) :
    Matches G R Q (Guarded.zoom get set n) (Guarded.zoom get set n') := by
  intro s s' b hg hr
  unfold Guarded.zoom
  have h := hn _ _ b hg (hget s s' hr)
  generalize n (get s) b = x, n' (get s') b = x' at h
  cases h with
  | ok hq ht hg => exact .ok hq (hset _ _ _ _ hr ht) hg
  | error ht hg => exact .error (hset _ _ _ _ hr ht) hg

theorem apart (t : T) (hn : Matches G Eq Eq n n) :
    Matches G R Eq (Guarded.apart t n : Guarded B S E (α × T)) (Guarded.apart t n) := by
  intro s s' b hg hr
  unfold Guarded.apart
  rcases hx : n t b with ⟨e | a, t', b'⟩
  · cases hx ▸ hn t t b hg rfl with
    | error _ hg => exact .error hr hg
  · cases hx ▸ hn t t b hg rfl with
    | ok _ _ hg => exact .ok rfl hr hg

theorem refl (hG : ∀ b, G b) (n : Guarded B S E α) : Matches G Eq Eq n n := by
  rintro s _ b - rfl
  rcases n s b with ⟨e | a, s', b'⟩
  · exact .error rfl (hG b')
  · exact .ok rfl rfl (hG b')

end Matches

end

/-- When a budget has room for an amount; an amount that fits leaves room for less. -/
structure Funds (B : Type) where
  enough : Nat → B → Prop
  mono : ∀ {c d : Nat} {b : B}, c ≤ d → enough d b → enough c b

section

variable {B S T E α β : Type}

/-- With room for `d` in its budget, `m` does what it does without one. It ends in a result
with `Q` and leaves room for `left`, or in an error like the one without a budget, in some
state. What the budget has room for beyond that is left as it was. -/
inductive Funded (F : Funds B) (sim : E → E → Prop) (d : Nat) (m : Guarded B S E α) (s : S)
    (Q : α → S → Prop) (left : α → S → Nat) : Prop where
  | ok (a : α) (s' : S) (hfree : m s none = (.ok a, s', none)) (hq : Q a s')
      (hpaid : ∀ rest b, F.enough (d + rest) b →
        ∃ b', m s (some b) = (.ok a, s', some b') ∧ F.enough (left a s' + rest) b')
  | error (e : E) (s' : S) (hfree : m s none = (.error e, s', none))
      (hpaid : ∀ rest b, F.enough (d + rest) b →
        ∃ e' s'' b', m s (some b) = (.error e', s'', some b') ∧ sim e' e ∧ F.enough rest b')

namespace Funded

variable {F : Funds B} {sim : E → E → Prop} {c d : Nat} {m : Guarded B S E α} {s : S}
  {Q Q' : α → S → Prop} {left left' : α → S → Nat}

section

variable (h : Funded F sim d m s Q left)

include h

theorem weaken (hd : d ≤ c) (hq : ∀ a s', Q a s' → Q' a s' ∧ left' a s' ≤ left a s') :
    Funded F sim c m s Q' left' := by
  cases h with
  | ok a s' hfree hQ hpaid =>
    refine .ok a s' hfree (hq a s' hQ).1 fun rest b hb => ?_
    obtain ⟨b', hrun, hb'⟩ := hpaid rest b (F.mono (Nat.add_le_add_right hd rest) hb)
    exact ⟨b', hrun, F.mono (Nat.add_le_add_right (hq a s' hQ).2 rest) hb'⟩
  | error e s' hfree hpaid =>
    exact .error e s' hfree fun rest b hb =>
      hpaid rest b (F.mono (Nat.add_le_add_right hd rest) hb)

theorem of_le (hd : d ≤ c) : Funded F sim c m s Q left :=
  h.weaken hd fun _ _ hq => ⟨hq, Nat.le_refl _⟩

theorem frame (c : Nat) : Funded F sim (c + d) m s Q (fun a s' => c + left a s') := by
  cases h with
  | ok a s' hfree hQ hpaid =>
    refine .ok a s' hfree hQ fun rest b hb => ?_
    obtain ⟨b', hrun, hb'⟩ := hpaid (c + rest) b (F.mono (by omega) hb)
    exact ⟨b', hrun, F.mono (by omega) hb'⟩
  | error e s' hfree hpaid =>
    exact .error e s' hfree fun rest b hb => hpaid rest b (F.mono (by omega) hb)

end

theorem of_run {m₂ : Guarded B S E α} {s₂ : S} (h : Funded F sim d m₂ s₂ Q left)
    (hrun : ∀ b, m s b = m₂ s₂ b) : Funded F sim d m s Q left := by
  cases h with
  | ok a s' hfree hQ hpaid =>
    exact .ok a s' (by rw [hrun, hfree]) hQ fun rest b hb => by rw [hrun]; exact hpaid rest b hb
  | error e s' hfree hpaid =>
    exact .error e s' (by rw [hrun, hfree]) fun rest b hb => by rw [hrun]; exact hpaid rest b hb

theorem of_free {a : α} {s' : S} (hrun : ∀ b, m s b = (.ok a, s', b)) (hq : Q a s')
    (hleft : left a s' ≤ d) : Funded F sim d m s Q left :=
  .ok a s' (hrun none) hq fun rest b hb =>
    ⟨b, hrun (some b), F.mono (Nat.add_le_add_right hleft rest) hb⟩

theorem ret {a : α} (hq : Q a s) (hleft : left a s ≤ d) :
    Funded F sim d (Guarded.ret a) s Q left :=
  of_free (fun _ => rfl) hq hleft

theorem fail (hsim : ∀ e, sim e e) (e : E) :
    Funded F sim d (Guarded.fail e : Guarded B S E α) s Q left :=
  .error e s rfl fun _ b hb => ⟨e, s, b, rfl, hsim e, F.mono (Nat.le_add_left _ _) hb⟩

variable {Qβ : β → S → Prop} {leftβ : β → S → Nat} {k : Unit → Guarded B S E β} {f : S → S}

theorem bind {f : α → Guarded B S E β} (hm : Funded F sim d m s Q left)
    (hf : ∀ a s', Q a s' → Funded F sim (left a s') (f a) s' Qβ leftβ) :
    Funded F sim d (m >>= f) s Qβ leftβ := by
  cases hm with
  | error e s' hfree hpaid =>
    refine .error e s' (bind_of_error f hfree) fun rest b hb => ?_
    obtain ⟨e', s'', b', hrun, hrest⟩ := hpaid rest b hb
    exact ⟨e', s'', b', bind_of_error f hrun, hrest⟩
  | ok a s' hfree hQ hpaid =>
    cases hf a s' hQ with
    | ok a₂ s₂ hfree₂ hQ₂ hpaid₂ =>
      refine .ok a₂ s₂ ((bind_of_ok f hfree).trans hfree₂) hQ₂ fun rest b hb => ?_
      obtain ⟨b', hrun, hb'⟩ := hpaid rest b hb
      obtain ⟨b₂, hrun₂, hb₂⟩ := hpaid₂ rest b' hb'
      exact ⟨b₂, (bind_of_ok f hrun).trans hrun₂, hb₂⟩
    | error e s₂ hfree₂ hpaid₂ =>
      refine .error e s₂ ((bind_of_ok f hfree).trans hfree₂) fun rest b hb => ?_
      obtain ⟨b', hrun, hb'⟩ := hpaid rest b hb
      obtain ⟨e', s'', b₂, hrun₂, hrest⟩ := hpaid₂ rest b' hb'
      exact ⟨e', s'', b₂, (bind_of_ok f hrun).trans hrun₂, hrest⟩

theorem ite {p : Prop} [Decidable p] {m₁ m₂ : Guarded B S E α}
    (h₁ : p → Funded F sim d m₁ s Q left) (h₂ : ¬p → Funded F sim d m₂ s Q left) :
    Funded F sim d (if p then m₁ else m₂) s Q left := by
  by_cases hp : p
  · rw [if_pos hp]
    exact h₁ hp
  · rw [if_neg hp]
    exact h₂ hp

theorem look_bind {f : S → α} {k : α → Guarded B S E β} (h : Funded F sim d (k (f s)) s Qβ
    leftβ) :
    Funded F sim d (Guarded.look f >>= k) s Qβ leftβ := h.of_run fun _ => rfl

theorem update_bind (h : Funded F sim d (k ()) (f s) Qβ leftβ) :
    Funded F sim d (Guarded.update f >>= k) s Qβ leftβ := h.of_run fun _ => rfl

variable {op : B → Option E × B} {leftT : α → T → Nat} {QT : α → T → Prop} {n : Guarded B T E α}

section

variable (hop : ∀ rest b, F.enough (c + rest) b → ∃ b', op b = (none, b') ∧ F.enough rest b')

include hop

theorem spend :
    Funded F sim (c + d) (Guarded.spend op : Guarded B S E Unit) s (fun _ s' => s' = s)
      (fun _ _ => d) := by
  refine .ok () s rfl rfl fun rest b hb => ?_
  obtain ⟨b', hrun, hb'⟩ := hop (d + rest) b (by rwa [← Nat.add_assoc])
  exact ⟨b', by simp only [Guarded.spend, hrun], hb'⟩

theorem spend_bind (hd : c ≤ d) (h : Funded F sim (d - c) (k ()) s Qβ leftβ) :
    Funded F sim d (Guarded.spend op >>= k) s Qβ leftβ := by
  have hpay : Funded F sim d (.spend op : Guarded B S E Unit) s (fun _ s' => s' = s)
      (fun _ _ => d - c) :=
    (spend (d := d - c) hop).weaken (by omega) fun _ _ hs => ⟨hs, Nat.le_refl _⟩
  refine hpay.bind fun _ s' hs => ?_
  subst hs
  exact h

end

theorem cleanup (h : Funded F sim d m s Q left) :
    Funded F sim d (Guarded.cleanup f m) s Q left := by
  cases h with
  | ok a s' hfree hQ hpaid =>
    refine .ok a s' (by simp only [Guarded.cleanup, hfree]) hQ fun rest b hb => ?_
    obtain ⟨b', hrun, hb'⟩ := hpaid rest b hb
    exact ⟨b', by simp only [Guarded.cleanup, hrun], hb'⟩
  | error e s' hfree hpaid =>
    refine .error e (f s') (by simp only [Guarded.cleanup, hfree]) fun rest b hb => ?_
    obtain ⟨e', s'', b', hrun, hrest⟩ := hpaid rest b hb
    exact ⟨e', f s'', b', by simp only [Guarded.cleanup, hrun], hrest⟩

theorem outranked {f : B → Option E} (hf : ∀ c b, F.enough c b → f b = none)
    (h : Funded F sim d m s Q left) : Funded F sim d (Guarded.outranked f m) s Q left := by
  cases h with
  | ok a s' hfree hQ hpaid =>
    refine .ok a s' (by simp only [Guarded.outranked, hfree, Option.bind_none]) hQ
      fun rest b hb => ?_
    obtain ⟨b', hrun, hb'⟩ := hpaid rest b hb
    exact ⟨b', by simp only [Guarded.outranked, hrun, Option.bind_some, hf _ _ hb'], hb'⟩
  | error e s' hfree hpaid =>
    refine .error e s' (by simp only [Guarded.outranked, hfree, Option.bind_none])
      fun rest b hb => ?_
    obtain ⟨e', s'', b', hrun, hsim, hb'⟩ := hpaid rest b hb
    exact ⟨e', s'', b', by simp only [Guarded.outranked, hrun, Option.bind_some, hf _ _ hb'],
      hsim, hb'⟩

theorem settled (hop : ∀ rest b, F.enough rest b → ∃ b', op b = (none, b') ∧ F.enough rest b')
    (h : Funded F sim d m s Q left) : Funded F sim d (Guarded.settled op m) s Q left := by
  cases h with
  | ok a s' hfree hQ hpaid =>
    refine .ok a s' (by simp only [Guarded.settled, hfree]) hQ fun rest b hb => ?_
    obtain ⟨b', hrun, hb'⟩ := hpaid rest b hb
    exact ⟨b', by simp only [Guarded.settled, hrun], hb'⟩
  | error e s' hfree hpaid =>
    refine .error e s' (by simp only [Guarded.settled, hfree, bind_apply, spend_none,
      fail_apply]) fun rest b hb => ?_
    obtain ⟨e', s'', b', hrun, hsim, hb'⟩ := hpaid rest b hb
    obtain ⟨b₂, hop₂, hb₂⟩ := hop rest b' hb'
    exact ⟨e', s'', b₂, by simp only [Guarded.settled, hrun, bind_apply, Guarded.spend, hop₂,
      fail_apply], hsim, hb₂⟩

theorem zoom {get : S → T} {set : T → S → S} (h : Funded F sim d n (get s) QT leftT)
    (hq : ∀ a t, QT a t → Q a (set t s) ∧ left a (set t s) ≤ leftT a t) :
    Funded F sim d (Guarded.zoom get set n) s Q left := by
  cases h with
  | ok a t hfree hQ hpaid =>
    refine .ok a (set t s) (by simp only [Guarded.zoom, hfree]) (hq a t hQ).1
      fun rest b hb => ?_
    obtain ⟨b', hrun, hb'⟩ := hpaid rest b hb
    exact ⟨b', by simp only [Guarded.zoom, hrun],
      F.mono (Nat.add_le_add_right (hq a t hQ).2 rest) hb'⟩
  | error e t hfree hpaid =>
    refine .error e (set t s) (by simp only [Guarded.zoom, hfree]) fun rest b hb => ?_
    obtain ⟨e', t', b', hrun, hrest⟩ := hpaid rest b hb
    exact ⟨e', set t' s, b', by simp only [Guarded.zoom, hrun], hrest⟩

theorem apart {t : T} (h : Funded F sim d n t QT leftT) :
    Funded F sim d (Guarded.apart t n : Guarded B S E (α × T)) s
      (fun r s' => s' = s ∧ QT r.1 r.2) (fun r _ => leftT r.1 r.2) := by
  cases h with
  | ok a t' hfree hQ hpaid =>
    refine .ok (a, t') s (by simp only [Guarded.apart, hfree]) ⟨rfl, hQ⟩ fun rest b hb => ?_
    obtain ⟨b', hrun, hb'⟩ := hpaid rest b hb
    exact ⟨b', by simp only [Guarded.apart, hrun], hb'⟩
  | error e t' hfree hpaid =>
    refine .error e s (by simp only [Guarded.apart, hfree]) fun rest b hb => ?_
    obtain ⟨e', t'', b', hrun, hrest⟩ := hpaid rest b hb
    exact ⟨e', s, b', by simp only [Guarded.apart, hrun], hrest⟩

end Funded

end

section

variable {B S T E α β : Type}

/-- Without a budget `m` gives `a` and leaves a state with `Q`. -/
def Yields (m : Guarded B S E α) (s : S) (a : α) (Q : S → Prop) : Prop :=
  ∃ s', m s none = (.ok a, s', none) ∧ Q s'

namespace Yields

variable {m : Guarded B S E α} {s : S} {a : α} {c : β} {Q Q' : S → Prop}

theorem mono (h : Yields m s a Q) (hq : ∀ s', Q s' → Q' s') : Yields m s a Q' :=
  let ⟨s', hrun, hs⟩ := h
  ⟨s', hrun, hq s' hs⟩

theorem ret (hq : Q s) : Yields (Guarded.ret a : Guarded B S E α) s a Q := ⟨s, rfl, hq⟩

variable {k : α → Guarded B S E β} {op : B → Option E × B} {n : Guarded B T E α} {QT : T → Prop}
  {f : S → S}

theorem bind (h : Yields m s a Q) (hk : ∀ s', Q s' → Yields (k a) s' c Q') :
    Yields (m >>= k) s c Q' := by
  obtain ⟨s', hrun, hs⟩ := h
  obtain ⟨s'', hrun', hs'⟩ := hk s' hs
  exact ⟨s'', (bind_of_ok k hrun).trans hrun', hs'⟩

theorem look_bind {f : S → α} (h : Yields (k (f s)) s c Q) :
    Yields (Guarded.look f >>= k) s c Q := h

theorem update_bind {k : Unit → Guarded B S E β} (h : Yields (k ()) (f s) c Q) :
    Yields (Guarded.update f >>= k) s c Q := h

theorem inspect_bind {f : Option B → α} (h : Yields (k (f none)) s c Q) :
    Yields (Guarded.inspect f >>= k) s c Q := h

theorem spend_bind {k : Unit → Guarded B S E β}
    (h : Yields (k ()) s c Q) : Yields (Guarded.spend op >>= k) s c Q := h

theorem cleanup (h : Yields m s a Q) : Yields (Guarded.cleanup f m) s a Q := by
  obtain ⟨s', hrun, hs⟩ := h
  exact ⟨s', by simp only [Guarded.cleanup, hrun], hs⟩

theorem outranked {f : B → Option E} (h : Yields m s a Q) :
    Yields (Guarded.outranked f m) s a Q := by
  obtain ⟨s', hrun, hs⟩ := h
  exact ⟨s', by simp only [Guarded.outranked, hrun, Option.bind_none], hs⟩

theorem settled (h : Yields m s a Q) : Yields (Guarded.settled op m) s a Q := by
  obtain ⟨s', hrun, hs⟩ := h
  exact ⟨s', by simp only [Guarded.settled, hrun], hs⟩

theorem zoom {get : S → T} {set : T → S → S}
    (h : Yields n (get s) a QT) (hq : ∀ t, QT t → Q (set t s)) :
    Yields (Guarded.zoom get set n) s a Q := by
  obtain ⟨t, hrun, ht⟩ := h
  exact ⟨set t s, by simp only [Guarded.zoom, hrun], hq t ht⟩

theorem apart_bind {t : T} {k : α × T → Guarded B S E β}
    (h : Yields n t a QT) (hk : ∀ t', QT t' → Yields (k (a, t')) s c Q) :
    Yields (Guarded.apart t n >>= k) s c Q := by
  obtain ⟨t', hrun, ht⟩ := h
  obtain ⟨s', hrun', hs⟩ := hk t' ht
  refine ⟨s', ?_, hs⟩
  rw [bind_apply]
  simp only [Guarded.apart, hrun]
  exact hrun'

end Yields

/-- Whatever the state and the budget, a result of `m` has `Q`. -/
def Gives (m : Guarded B S E α) (Q : α → Prop) : Prop := ∀ s b a, (m s b).1 = .ok a → Q a

namespace Gives

variable {m : Guarded B S E α} {k : α → Guarded B S E β} {P : α → Prop} {Q : β → Prop}

theorem ret {c : β} (hq : Q c) : Gives (Guarded.ret c : Guarded B S E β) Q := by
  rintro s b a ⟨⟩
  exact hq

theorem bind (h : Gives m P) (hk : ∀ a, P a → Gives (k a) Q) : Gives (m >>= k) Q := by
  intro s b c hc
  have hm := h s b
  rw [bind_apply] at hc
  generalize m s b = out at hc hm
  obtain ⟨_ | a, s', b'⟩ := out
  · cases hc
  · exact hk a (hm a rfl) s' b' c hc

theorem after (hk : ∀ a, Gives (k a) Q) : Gives (m >>= k) Q :=
  bind (P := fun _ => True) (fun _ _ _ _ => trivial) fun a _ => hk a

end Gives

end

end Guarded

end Lib

end Lispico
