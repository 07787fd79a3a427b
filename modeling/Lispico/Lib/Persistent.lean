import Lispico.Lib.Heap
import Mathlib

/-!
# Persistent objects over a memory

A persistent type hands out objects on a memory: created from data, or made from an object
handed out before. `Refines` asks for a representation that survives a growing memory and that
creation and operations represent the specified value within the limits `Ok`. `Refines.run` says
that a whole run then never fails and keeps all its objects.
-/

namespace Lispico

namespace Lib

/-- Objects `H` on a memory `M`, created from `C` and transformed by operations `O`.
`none` stands for a panic. -/
structure Persistent (M H C O : Type*) where
  create : M → C → Option (M × H)
  apply : M → H → O → Option (M × H)

/-- The values `X` that the objects stand for. -/
structure Spec (X C O : Type*) where
  create : C → X
  apply : X → O → X

namespace Persistent

/-- One call: creation, or an operation on the `k`-th object handed out. -/
inductive Call (C O : Type*) where
  | create (c : C)
  | apply (k : Nat) (o : O)
deriving DecidableEq, Repr

structure Pool (M H : Type*) where
  mem : M
  objs : List H

section

variable {M H X C O : Type*}

def Pool.push (p : Pool M H) (r : M × H) : Pool M H := ⟨r.1, p.objs ++ [r.2]⟩

/-- One call on a pool. A call on an object that was not handed out is no call. -/
def step (P : Persistent M H C O) (p : Pool M H) : Call C O → Option (Pool M H)
  | .create c => (P.create p.mem c).map p.push
  | .apply k o =>
    match p.objs[k]? with
    | none => some p
    | some h => (P.apply p.mem h o).map p.push

def run (P : Persistent M H C O) (p : Pool M H) : List (Call C O) → Option (Pool M H)
  | [] => some p
  | c :: cs => (P.step p c).bind fun p' => run P p' cs

def specStep (S : Spec X C O) (xs : List X) : Call C O → List X
  | .create c => xs ++ [S.create c]
  | .apply k o =>
    match xs[k]? with
    | none => xs
    | some x => xs ++ [S.apply x o]

def specRun (S : Spec X C O) (xs : List X) (cs : List (Call C O)) : List X :=
  cs.foldl (specStep S) xs

variable (S : Spec X C O)

variable (xs : List X) (c : Call C O) (cs : List (Call C O))

theorem specStep_extends : xs <+: specStep S xs c := by
  cases c with
  | create c => exact List.prefix_append _ _
  | apply k o =>
    simp only [specStep]
    split
    · exact List.prefix_refl _
    · exact List.prefix_append _ _

theorem specRun_prefix : xs <+: specRun S xs cs := by
  induction cs generalizing xs with
  | nil => exact List.prefix_refl _
  | cons c cs ih => exact (specStep_extends S xs c).trans (ih _)

variable [Preorder M] {p : Pool M H} {Rep : M → H → X → Prop}

/-- The type implements the specification, on memories that only grow. -/
structure Refines (P : Persistent M H C O) (S : Spec X C O)
    (Rep : M → H → X → Prop) (Ok : X → Prop) : Prop where
  mono : ∀ {m m' h x}, m ≤ m' → Rep m h x → Rep m' h x
  create : ∀ m c, Ok (S.create c) →
    ∃ m' h, P.create m c = some (m', h) ∧ m ≤ m' ∧ Rep m' h (S.create c)
  apply : ∀ {m h x} o, Rep m h x → Ok (S.apply x o) →
    ∃ m' h', P.apply m h o = some (m', h') ∧ m ≤ m' ∧ Rep m' h' (S.apply x o)

def Pool.Represents (Rep : M → H → X → Prop) (p : Pool M H) (xs : List X) : Prop :=
  List.Forall₂ (Rep p.mem) p.objs xs

omit [Preorder M] in
theorem Pool.Represents.get {xs : List X}
    (h : p.Represents Rep xs) {k : Nat} {o : H} (ho : p.objs[k]? = some o) :
    ∃ x, xs[k]? = some x ∧ Rep p.mem o x := by
  obtain ⟨hlt, rfl⟩ := List.getElem?_eq_some_iff.1 ho
  have hlt' : k < xs.length := h.length_eq ▸ hlt
  exact ⟨xs[k], List.getElem?_eq_getElem hlt', List.Forall₂.get h hlt hlt'⟩

theorem Pool.Represents.push {xs : List X}
    (h : p.Represents Rep xs) (hmono : ∀ {m m' h x}, m ≤ m' → Rep m h x → Rep m' h x)
    {m' : M} {o : H} {x : X} (hm : p.mem ≤ m') (ho : Rep m' o x) :
    (p.push (m', o)).Represents Rep (xs ++ [x]) :=
  List.rel_append (h.imp fun _ _ => hmono hm) (List.Forall₂.cons ho List.Forall₂.nil)

namespace Refines

variable {P : Persistent M H C O} {S : Spec X C O} {Rep : M → H → X → Prop} {Ok : X → Prop}

theorem step (R : Refines P S Rep Ok) {xs : List X}
    (h : p.Represents Rep xs) (c : Call C O) (hok : ∀ x ∈ specStep S xs c, Ok x) :
    ∃ p', P.step p c = some p' ∧ p.mem ≤ p'.mem ∧ p.objs <+: p'.objs ∧
      p'.Represents Rep (specStep S xs c) := by
  cases c with
  | create c =>
    obtain ⟨m', o, hc, hm, ho⟩ := R.create p.mem c (hok _ (by simp [specStep]))
    exact ⟨p.push (m', o), by simp [Persistent.step, hc], hm, List.prefix_append _ _,
      h.push R.mono hm ho⟩
  | apply k o =>
    cases hk : p.objs[k]? with
    | none =>
      have hk' : xs[k]? = none := by
        rw [List.getElem?_eq_none_iff] at hk ⊢
        rwa [← h.length_eq]
      exact ⟨p, by simp [Persistent.step, hk], le_refl _, List.prefix_refl _,
        by simpa [specStep, hk'] using h⟩
    | some obj =>
      obtain ⟨x, hx, hrep⟩ := h.get hk
      obtain ⟨m', obj', ha, hm, ho⟩ := R.apply o hrep (hok _ (by simp [specStep, hx]))
      refine ⟨p.push (m', obj'), by simp [Persistent.step, hk, ha], hm,
        List.prefix_append _ _, ?_⟩
      simp only [specStep, hx]
      exact h.push R.mono hm ho

theorem run (R : Refines P S Rep Ok) {xs : List X}
    (h : p.Represents Rep xs) (cs : List (Call C O)) (hok : ∀ x ∈ specRun S xs cs, Ok x) :
    ∃ p', P.run p cs = some p' ∧ p.mem ≤ p'.mem ∧ p.objs <+: p'.objs ∧
      p'.Represents Rep (specRun S xs cs) := by
  induction cs generalizing p xs with
  | nil => exact ⟨p, rfl, le_refl _, List.prefix_refl _, h⟩
  | cons c cs ih =>
    have hpre := specRun_prefix S (specStep S xs c) cs
    obtain ⟨p₁, hs, hm₁, hp₁, h₁⟩ := R.step h c fun x hx => hok x (hpre.subset hx)
    obtain ⟨p₂, hr, hm₂, hp₂, h₂⟩ := ih h₁ hok
    refine ⟨p₂, ?_, hm₁.trans hm₂, hp₁.trans hp₂, h₂⟩
    rw [Persistent.run, hs, Option.bind_some, hr]

/-- A run from an empty pool, cut in two: the objects of the first part represent their
values then, and the same objects still do after the second part. -/
theorem run_then_run (R : Refines P S Rep Ok) (m₀ : M) (cs ds : List (Call C O))
    (hok : ∀ x ∈ specRun S [] (cs ++ ds), Ok x) :
    ∃ p p', P.run ⟨m₀, []⟩ cs = some p ∧ P.run p ds = some p' ∧
      p.objs.length = (specRun S [] cs).length ∧
      ∀ (k : Nat) h x, p.objs[k]? = some h → (specRun S [] cs)[k]? = some x →
        p'.objs[k]? = some h ∧ Rep p.mem h x ∧ Rep p'.mem h x := by
  have happ : specRun S [] (cs ++ ds) = specRun S (specRun S [] cs) ds :=
    List.foldl_append
  have hpre := specRun_prefix S (specRun S [] cs) ds
  rw [happ] at hok
  have hnil : (⟨m₀, []⟩ : Pool M H).Represents Rep [] := List.Forall₂.nil
  obtain ⟨p, hrun, -, -, hp⟩ := R.run hnil cs fun x hx => hok x (hpre.subset hx)
  obtain ⟨p', hrun', hm, hkeep, -⟩ := R.run hp ds hok
  refine ⟨p, p', hrun, hrun', hp.length_eq, ?_⟩
  intro k h x hh hx
  obtain ⟨x', hx', hrep⟩ := hp.get hh
  obtain rfl : x' = x := Option.some.inj (hx'.symm.trans hx)
  exact ⟨Heap.getElem?_of_prefix hkeep hh, hrep, R.mono hm hrep⟩

end Refines

end

end Persistent

end Lib

end Lispico
