import Mathlib

/-!
# Computations that change a state, may fail and may not end

A computation takes a state and either gives no answer, or ends in a state with a
result or an error. A failed computation keeps the state it reached. A recursion on a
number of steps that runs out of steps gives no answer.
-/

namespace Lispico

namespace Lib

/-- A computation over states `S` with errors `E`. -/
def Comp (S E α : Type) : Type := S → Option (Except E α × S)

theorem except_bind_eq_ok_iff {E α β : Type} {x : Except E α} {f : α → Except E β} {b : β} :
    (x >>= f) = .ok b ↔ ∃ a, x = .ok a ∧ f a = .ok b := by
  cases x with
  | error err =>
    constructor
    · intro h
      cases h
    · rintro ⟨a, h, -⟩
      cases h
  | ok a =>
    constructor
    · intro h
      exact ⟨a, rfl, h⟩
    · rintro ⟨_, ⟨⟩, h⟩
      exact h

namespace Comp

section

variable {S E α β : Type}

def ret (a : α) : Comp S E α := fun s => some (.ok a, s)

def fail (e : E) : Comp S E α := fun s => some (.error e, s)

def diverge : Comp S E α := fun _ => none

def andThen (m : Comp S E α) (f : α → Comp S E β) : Comp S E β := fun s =>
  match m s with
  | none => none
  | some (.error e, s') => some (.error e, s')
  | some (.ok a, s') => f a s'

instance : Monad (Comp S E) where
  pure := ret
  bind := andThen

def read : Comp S E S := fun s => some (.ok s, s)

def update (f : S → S) : Comp S E Unit := fun s => some (.ok (), f s)

def step (f : S → α × S) : Comp S E α := fun s => some (.ok (f s).1, (f s).2)

def lift : Except E α → Comp S E α
  | .ok a => ret a
  | .error e => fail e

def attempt (m : Comp S E α) : Comp S E (Except E α) := fun s =>
  match m s with
  | none => none
  | some (r, s') => some (.ok r, s')

/-- A computation between two changes of the state, the second made also when it fails. -/
def within (enter leave : S → S) (m : Comp S E α) : Comp S E α := fun s =>
  match m (enter s) with
  | none => none
  | some (r, s') => some (r, leave s')

/-- Run a computation on each element, in order, and collect the results. -/
def each (f : α → Comp S E β) : List α → Comp S E (List β)
  | [] => ret []
  | x :: xs => do
      let y ← f x
      let ys ← each f xs
      ret (y :: ys)

/-- Whether a test holds of some element; elements after the first hit are not tested. -/
def anyOf (f : α → Comp S E Bool) : List α → Comp S E Bool
  | [] => ret false
  | x :: xs => do
      let hit ← f x
      if hit then ret true else anyOf f xs

def times (m : Comp S E Unit) : Nat → Comp S E Unit
  | 0 => ret ()
  | n + 1 => m >>= fun _ => times m n

@[simp] theorem pure_apply (a : α) (s : S) : (pure a : Comp S E α) s = some (.ok a, s) := rfl

@[simp] theorem ret_apply (a : α) (s : S) : (ret a : Comp S E α) s = some (.ok a, s) := rfl

@[simp] theorem fail_apply (e : E) (s : S) : (fail e : Comp S E α) s = some (.error e, s) := rfl

@[simp] theorem read_apply (s : S) : (read : Comp S E S) s = some (.ok s, s) := rfl

@[simp] theorem update_apply (f : S → S) (s : S) :
    (update f : Comp S E Unit) s = some (.ok (), f s) := rfl

@[simp] theorem step_apply (f : S → α × S) (s : S) :
    (step f : Comp S E α) s = some (.ok (f s).1, (f s).2) := rfl

@[simp] theorem lift_ok (a : α) : (lift (.ok a) : Comp S E α) = ret a := rfl

@[simp] theorem lift_error (e : E) : (lift (.error e) : Comp S E α) = fail e := rfl

theorem bind_apply (m : Comp S E α) (f : α → Comp S E β) (s : S) : (m >>= f) s =
      match m s with
      | none => none
      | some (.error e, s') => some (.error e, s')
      | some (.ok a, s') => f a s' := rfl

variable {m : Comp S E α} {s : S}

theorem bind_of_ok {a : α} {s' : S} (f : α → Comp S E β) (h : m s = some (.ok a, s')) :
    (m >>= f) s = f a s' := by
  rw [bind_apply, h]

theorem bind_of_error {e : E} {s' : S} (f : α → Comp S E β) (h : m s = some (.error e, s')) :
    (m >>= f) s = some (.error e, s') := by
  rw [bind_apply, h]

theorem bind_of_none (f : α → Comp S E β) (h : m s = none) : (m >>= f) s = none := by
  rw [bind_apply, h]

theorem attempt_bind (m : Comp S E α) (f : Except E α → Comp S E β) (s : S) :
    (m.attempt >>= f) s =
      match m s with
      | none => none
      | some (r, s') => f r s' := by
  rw [bind_apply, attempt]
  rcases m s with _ | ⟨_, _⟩ <;> rfl

@[simp] theorem ret_bind (a : α) (f : α → Comp S E β) : (ret a >>= f) = f a := rfl

@[simp] theorem pure_bind' (a : α) (f : α → Comp S E β) :
    ((pure a : Comp S E α) >>= f) = f a := rfl

@[simp] theorem fail_bind (e : E) (f : α → Comp S E β) :
    ((fail e : Comp S E α) >>= f) = fail e := rfl

theorem bind_ret (m : Comp S E α) : (m >>= ret) = m := by
  funext s
  rw [bind_apply]
  rcases m s with _ | ⟨_ | _, _⟩ <;> rfl

theorem bind_assoc' {γ : Type} (m : Comp S E α) (f : α → Comp S E β) (g : β → Comp S E γ) :
    (m >>= f) >>= g = m >>= fun a => f a >>= g := by
  funext s
  rw [bind_apply, bind_apply, bind_apply]
  rcases m s with _ | ⟨_ | _, _⟩ <;> rfl

theorem times_one (m : Comp S E Unit) : m.times 1 = m := bind_ret m

theorem times_add (m : Comp S E Unit) (i j : Nat) :
    m.times (i + j) = m.times i >>= fun _ => m.times j := by
  induction i with
  | zero => rw [Nat.zero_add, times, ret_bind]
  | succ i ih => rw [Nat.succ_add, times, times, ih, bind_assoc']

variable {f : α → Comp S E β}

theorem bind_eq_some_iff {out : Except E β × S} : (m >>= f) s = some out ↔
      (∃ a s', m s = some (.ok a, s') ∧ f a s' = some out) ∨
        ∃ e s', m s = some (.error e, s') ∧ out = (.error e, s') := by
  rw [bind_apply]
  rcases m s with _ | ⟨e | a, s'⟩
  · simp
  · constructor
    · intro h
      cases h
      exact .inr ⟨e, s', rfl, rfl⟩
    · rintro (⟨b, t, h, -⟩ | ⟨e', t, h, rfl⟩)
      · cases h
      · cases h
        rfl
  · constructor
    · intro h
      exact .inl ⟨a, s', rfl, h⟩
    · rintro (⟨b, t, h, hf⟩ | ⟨e', t, h, -⟩)
      · cases h
        exact hf
      · cases h

theorem each_cons (f : α → Comp S E β) (x : α) (xs : List α) :
    each f (x :: xs) = f x >>= fun y => each f xs >>= fun ys => ret (y :: ys) := rfl

end

section Over

variable {S S' E α β : Type}

/-- The first computation is the second one with more in its state. -/
def Over (π : S' → S) (m' : Comp S' E α) (m : Comp S E α) : Prop :=
  ∀ s, (m' s).map (Prod.map id π) = m (π s)

variable {π : S' → S}

theorem Over.bind {m' : Comp S' E α} {m : Comp S E α} {f' : α → Comp S' E β}
    {f : α → Comp S E β} (hm : Over π m' m) (hf : ∀ a, Over π (f' a) (f a)) :
    Over π (m' >>= f') (m >>= f) := by
  intro s
  rw [bind_apply, bind_apply, ← hm s]
  rcases m' s with _ | ⟨_ | a, s'⟩
  · rfl
  · rfl
  · exact hf a s'

theorem Over.attempt {m' : Comp S' E α} {m : Comp S E α} (hm : Over π m' m) :
    Over π m'.attempt m.attempt := by
  intro s
  rw [Comp.attempt, Comp.attempt, ← hm s]
  rcases m' s with _ | ⟨_, _⟩ <;> rfl

end Over

end Comp

end Lib

end Lispico
