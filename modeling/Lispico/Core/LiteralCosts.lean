import Lispico.Core.Eval
import Lispico.Core.SameContents

/-!
# What the evaluation of a literal costs

A collection literal is evaluated one level at a time: the depth is raised and checked, the
bytes are charged, the elements evaluated. Whether all of it is admitted depends on the nesting
and the bytes of the literal. Polls are left out.
-/

namespace Lispico

namespace Core

open Lib

structure Ledger where
  depth : Nat
  bytes : Nat
deriving DecidableEq, Repr

namespace Ledger

def valueSlotsBytes (n : Nat) : Nat := n * 16

def sequenceShallowBytes (n : Nat) : Nat := 24 + valueSlotsBytes n

def listShallowBytes (n : Nat) : Nat := sequenceShallowBytes n

def vectorShallowBytes (n : Nat) : Nat := sequenceShallowBytes n

def hashMapShallowBytes (n : Nat) : Nat := 32 + n * 64

structure Limits where
  maxStructuralDepth : Int
  maxAllocationBytes : Nat

def enter (n : Nat) (s : Ledger) : Ledger := { s with depth := s.depth + n }

def leave (n : Nat) (s : Ledger) : Ledger := { s with depth := s.depth - n }

variable (limits : Limits)

def depthError : GoErr :=
  newResourceLimitError
    ("structural depth limit " ++ toString limits.maxStructuralDepth ++ " exceeded")

def allocError : GoErr :=
  newResourceLimitError
    ("allocation limit " ++ toString limits.maxAllocationBytes ++ " bytes exceeded")

def TooDeep (s : Ledger) : Prop :=
  0 < limits.maxStructuralDepth ∧ limits.maxStructuralDepth < s.depth

instance (s : Ledger) : Decidable (TooDeep limits s) := inferInstanceAs (Decidable (_ ∧ _))

def checkDepth : Comp Ledger GoErr Unit := fun s =>
  if TooDeep limits s then some (.error (depthError limits), s) else some (.ok (), s)

/-- `chargeAllocBytes`. A refused charge is recorded too. -/
def chargeAllocBytes (n : Nat) : Comp Ledger GoErr Unit := fun s =>
  if n = 0 then some (.ok (), s)
  else if s.bytes + n ≤ limits.maxAllocationBytes then
    some (.ok (), { s with bytes := s.bytes + n })
  else some (.error (allocError limits), { s with bytes := s.bytes + n })

end Ledger

section Eval

variable (limits : Ledger.Limits) (rest : Value → Comp Ledger GoErr Value)

mutual

/-- `Eval` on a literal; `rest` evaluates the other forms. -/
def evalLiteral : Value → Comp Ledger GoErr Value
  | .vector items => Comp.within (Ledger.enter 1) (Ledger.leave 1) do
      Ledger.checkDepth limits
      Ledger.chargeAllocBytes limits (Ledger.vectorShallowBytes items.length)
      let items ← evalItems items
      Comp.ret (.vector items)
  -- `evalMap`
  | .map pairs => Comp.within (Ledger.enter 1) (Ledger.leave 1) do
      Ledger.checkDepth limits
      Ledger.chargeAllocBytes limits (Ledger.hashMapShallowBytes pairs.length)
      let pairs ← evalEntries [] pairs
      Comp.ret (.map pairs)
  | .nil => Comp.ret .nil
  | .bool v => Comp.ret (.bool v)
  | .int v => Comp.ret (.int v)
  | .float bits => Comp.ret (.float bits)
  | .string v => Comp.ret (.string v)
  | .keyword v => Comp.ret (.keyword v)
  | v => rest v

def evalItems : List Value → Comp Ledger GoErr (List Value)
  | [] => Comp.ret []
  | item :: items => do
      let r ← evalLiteral item
      let rs ← evalItems items
      Comp.ret (r :: rs)

def evalEntries : List (Value × Value) → List (Value × Value) →
    Comp Ledger GoErr (List (Value × Value))
  | result, [] => Comp.ret result
  | result, (key, value) :: pairs => do
      let k ← evalLiteral key
      let v ← evalLiteral value
      match Value.mapSet result k v with
      | .ok result => evalEntries result pairs
      | .error err => Comp.fail (.plain err)

end

/-- The entries are put into the map as the evaluator puts them. -/
theorem evalEntries_eq_evalPairs (result pairs : List (Value × Value)) :
    evalEntries limits rest result pairs = evalPairs (evalLiteral limits rest) result pairs := by
  induction pairs generalizing result with
  | nil => rw [evalEntries, evalPairs]
  | cons p pairs ih =>
    rw [evalEntries, evalPairs]
    refine congrArg (_ >>= ·) (funext fun k => congrArg (_ >>= ·) (funext fun v => ?_))
    cases Value.mapSet result k v with
    | ok result => exact ih result
    | error err => rfl

end Eval

namespace Ledger

section Costs

variable (limits : Limits) {α β : Type}

def DepthFits (s : Ledger) (d : Nat) : Prop :=
  d = 0 ∨ limits.maxStructuralDepth ≤ 0 ∨ (s.depth + d : Int) ≤ limits.maxStructuralDepth

def BytesFit (s : Ledger) (c : Nat) : Prop := c = 0 ∨ s.bytes + c ≤ limits.maxAllocationBytes

/-- How a computation of so many levels and bytes can end. A refusal names a limit that was
passed. -/
inductive Verdict (s : Ledger) (d c : Nat) (a : α) : Option (Except GoErr α × Ledger) → Prop
  | accepted (hdepth : DepthFits limits s d) (hbytes : BytesFit limits s c) :
      Verdict s d c a (some (.ok a, ⟨s.depth, s.bytes + c⟩))
  | tooDeep (h : ¬ DepthFits limits s d) (bytes : Nat) :
      Verdict s d c a (some (.error (depthError limits), ⟨s.depth, bytes⟩))
  | tooLarge (h : ¬ BytesFit limits s c) (bytes : Nat) :
      Verdict s d c a (some (.error (allocError limits), ⟨s.depth, bytes⟩))

/-- A computation that gives `a` for so many levels and bytes. -/
def Costs (m : Comp Ledger GoErr α) (d c : Nat) (a : α) : Prop :=
  ∀ s, Verdict limits s d c a (m s)

variable {limits} {s : Ledger} {d d' c c' : Nat}

theorem DepthFits.of_max (h : DepthFits limits s (max d d')) :
    DepthFits limits s d ∧ DepthFits limits s d' := by
  unfold DepthFits at h ⊢
  omega

theorem DepthFits.max {bytes : Nat} (h : DepthFits limits s d)
    (h' : DepthFits limits ⟨s.depth, bytes⟩ d') : DepthFits limits s (Max.max d d') := by
  unfold DepthFits at h h' ⊢
  simp only at h'
  omega

theorem BytesFit.of_add (h : BytesFit limits s (c + c')) :
    BytesFit limits s c ∧ BytesFit limits ⟨s.depth, s.bytes + c⟩ c' := by
  unfold BytesFit at h ⊢
  simp only
  omega

theorem BytesFit.add (h : BytesFit limits s c)
    (h' : BytesFit limits ⟨s.depth, s.bytes + c⟩ c') : BytesFit limits s (c + c') := by
  unfold BytesFit at h h' ⊢
  simp only at h'
  omega

variable {m : Comp Ledger GoErr α} {a : α}

theorem Costs.cast (h : Costs limits m d c a) (hd : d = d') (hc : c = c') :
    Costs limits m d' c' a := hd ▸ hc ▸ h

theorem Costs.ret (a : α) : Costs limits (Comp.ret a) 0 0 a := fun _ =>
  .accepted (.inl rfl) (.inl rfl)

theorem Costs.bind {f : α → Comp Ledger GoErr β} {b : β} (hm : Costs limits m d c a)
    (hf : Costs limits (f a) d' c' b) :
    Costs limits (m >>= f) (max d d') (c + c') b := by
  intro s
  have hfirst := hm s
  rw [Comp.bind_apply]
  generalize m s = r at hfirst
  cases hfirst with
  | accepted hdepth hbytes =>
    have hsecond := hf ⟨s.depth, s.bytes + c⟩
    simp only
    generalize f a ⟨s.depth, s.bytes + c⟩ = r at hsecond
    cases hsecond with
    | accepted hdepth' hbytes' =>
      rw [Nat.add_assoc]
      exact .accepted (hdepth.max hdepth') (hbytes.add hbytes')
    | tooDeep h bytes =>
      have hdeep : ¬ DepthFits limits s d' := h
      exact .tooDeep (fun hfit => hdeep hfit.of_max.2) bytes
    | tooLarge h bytes => exact .tooLarge (fun hfit => h hfit.of_add.2) bytes
  | tooDeep h bytes => exact .tooDeep (fun hfit => h hfit.of_max.1) bytes
  | tooLarge h bytes => exact .tooLarge (fun hfit => h hfit.of_add.1) bytes

theorem Costs.charge (n : Nat) : Costs limits (chargeAllocBytes limits n) 0 n () := by
  intro s
  unfold chargeAllocBytes
  by_cases hn : n = 0
  · subst hn
    exact .accepted (.inl rfl) (.inl rfl)
  · by_cases hfit : s.bytes + n ≤ limits.maxAllocationBytes
    · rw [if_neg hn, if_pos hfit]
      exact .accepted (.inl rfl) (.inr hfit)
    · rw [if_neg hn, if_neg hfit]
      exact .tooLarge (fun h => h.elim hn hfit) _

theorem Costs.level (hm : Costs limits m d c a) :
    Costs limits (Comp.within (enter 1) (leave 1) (checkDepth limits >>= fun _ => m)) (d + 1) c
      a := by
  intro s
  unfold Comp.within
  rw [Comp.bind_apply]
  unfold checkDepth
  by_cases hdeep : TooDeep limits (enter 1 s)
  · rw [if_pos hdeep]
    refine .tooDeep (fun hfit => ?_) s.bytes
    simp only [TooDeep, enter, DepthFits] at hdeep hfit
    omega
  · rw [if_neg hdeep]
    have hbelow := hm (enter 1 s)
    simp only
    generalize m (enter 1 s) = r at hbelow
    have hback : ∀ d, (DepthFits limits (enter 1 s) d ↔ DepthFits limits s (d + 1)) := by
      intro d
      simp only [TooDeep, enter, DepthFits] at hdeep ⊢
      omega
    cases hbelow with
    | accepted hdepth hbytes => exact .accepted ((hback d).1 hdepth) hbytes
    | tooDeep h bytes => exact .tooDeep (fun hfit => h ((hback d).2 hfit)) bytes
    | tooLarge h bytes =>
      have hlarge : ¬ BytesFit limits s c := h
      exact .tooLarge hlarge bytes

theorem Costs.collection (n : Nat) {f : α → β} (hm : Costs limits m d c a) : Costs limits
      (Comp.within (enter 1) (leave 1) do
        checkDepth limits
        chargeAllocBytes limits n
        let a ← m
        Comp.ret (f a))
      (d + 1) (n + c) (f a) := by
  have hbelow : Costs limits (chargeAllocBytes limits n >>= fun _ => m >>= fun a => Comp.ret
    (f a))
      (max 0 (max d 0)) (n + (c + 0)) (f a) := by
    refine (Costs.charge n).bind ?_
    refine hm.bind ?_
    exact .ret (f a)
  exact (Costs.level hbelow).cast (by omega) (by omega)

end Costs

end Ledger

namespace Value

inductive Shape where
  | list
  | vector
  | map
deriving DecidableEq, Repr

def Shape.shallowBytes : Shape → Nat → Nat
  | .list => Ledger.listShallowBytes
  | .vector => Ledger.vectorShallowBytes
  | .map => Ledger.hashMapShallowBytes

/-- A number that a value gets from the numbers of its elements, whatever their order. A
scalar has 0. -/
structure Measure where
  op : Nat → Nat → Nat
  node : Shape → Nat → Nat → Nat
  zero_op : ∀ x, op 0 x = x
  op_left_comm : ∀ x y z, op x (op y z) = op y (op x z)

namespace Measure

def bytes : Measure where
  op := (· + ·)
  node shape n below := shape.shallowBytes n + below
  zero_op := Nat.zero_add
  op_left_comm := Nat.add_left_comm

def nesting : Measure where
  op := max
  node _ _ below := below + 1
  zero_op := Nat.zero_max
  op_left_comm := Nat.max_left_comm

def reach : Measure where
  op := max
  node _ n below := if n = 0 then 0 else below + 1
  zero_op := Nat.zero_max
  op_left_comm := Nat.max_left_comm

theorem nesting_op (x y : Nat) : nesting.op x y = max x y := rfl

theorem reach_op (x y : Nat) : reach.op x y = max x y := rfl

variable (m : Measure) {a b : Value}

mutual

def of : Value → Nat
  | .list items => m.node .list items.length (ofItems items)
  | .vector items => m.node .vector items.length (ofItems items)
  | .map pairs => m.node .map pairs.length (ofPairs pairs)
  | _ => 0

def ofItems : List Value → Nat
  | [] => 0
  | v :: vs => m.op (of v) (ofItems vs)

def ofPairs : List (Value × Value) → Nat
  | [] => 0
  | (k, v) :: pairs => m.op (of k) (m.op (of v) (ofPairs pairs))

end

instance : LeftCommutative m.op := ⟨m.op_left_comm⟩

theorem of_scalar {v : Value} (h : v.isCollection = false) : m.of v = 0 := by
  cases v <;> first | rfl | cases h

theorem of_key {k : Value} {hk : HashKey} (h : toHashKey k.key = .ok hk) : m.of k = 0 := by
  cases k <;> first | rfl | cases h

theorem ofItems_congr {xs ys : List Value} (h : List.Forall₂ (fun x y => m.of x = m.of y) xs ys) :
    m.ofItems xs = m.ofItems ys := by
  induction h with
  | nil => rfl
  | cons hxy _ ih => rw [ofItems, ofItems, hxy, ih]

theorem ofPairs_eq {pairs : List (Value × Value)}
    (h : ∀ p ∈ pairs, ∃ hk, toHashKey p.1.key = .ok hk) :
    m.ofPairs pairs = ((entries pairs).map fun e => m.of e.2).foldr m.op 0 := by
  induction pairs with
  | nil => rfl
  | cons p pairs ih =>
    obtain ⟨hk, hkey⟩ := h p List.mem_cons_self
    rw [ofPairs, of_key m hkey, m.zero_op, entries_cons_ok hkey,
      ih fun q hq => h q (List.mem_cons_of_mem p hq)]
    rfl

theorem ofPairs_congr {ps qs : List (Value × Value)} (hps : WellKeyed ps) (hqs : WellKeyed qs)
    (hlen : (entries ps).length = (entries qs).length)
    (h : ∀ e ∈ entries ps, ∃ e' ∈ entries qs, e'.1 = e.1 ∧ m.of e.2 = m.of e'.2) :
    m.ofPairs ps = m.ofPairs qs := by
  rw [ofPairs_eq m hps.hashable, ofPairs_eq m hqs.hashable]
  have hvals := (hps.entries_perm hlen h).map Prod.snd
  rw [List.map_map, List.map_map] at hvals
  exact hvals.foldr_eq 0

theorem of_equals {levels : Nat} (ha : WellFormed a) (hb : WellFormed b)
    (h : boundedEquals levels a b = true) : m.of a = m.of b := by
  induction levels generalizing a b with
  | zero => cases h
  | succ levels ih =>
    cases (equated_succ_iff ha hb).1 h with
    | scalar heq hsome =>
      rw [of_scalar m (isCollection_of_scalarNorm hsome),
        of_scalar m (isCollection_of_scalarNorm (heq ▸ hsome))]
    | list hall =>
      have hitems := ofItems_congr m (hall.imp fun x y h => ih h.left h.right h.equal)
      rw [of, of, hall.length_eq, hitems]
    | vector hall =>
      have hitems := ofItems_congr m (hall.imp fun x y h => ih h.left h.right h.equal)
      rw [of, of, hall.length_eq, hitems]
    | map hps hqs hlen hall =>
      have hpairs := ofPairs_congr m hps hqs hlen fun e he => by
        obtain ⟨e', he', hkey, h⟩ := hall e he
        exact ⟨e', he', hkey, ih h.left h.right h.equal⟩
      rw [of, of, ← hps.length_entries, ← hqs.length_entries, hlen, hpairs]

theorem ofPairs_foldr (pairs : List (Value × Value)) :
    m.ofPairs pairs = pairs.foldr (fun p acc => m.op (m.of p.1) (m.op (m.of p.2) acc)) 0 := by
  induction pairs with
  | nil => rfl
  | cons p pairs ih => rw [ofPairs, ih, List.foldr_cons]

theorem ofPairs_perm {ps rs : List (Value × Value)} (h : ps.Perm rs) :
    m.ofPairs ps = m.ofPairs rs := by
  rw [ofPairs_foldr, ofPairs_foldr]
  refine h.foldr_eq' (fun p _ q _ acc => ?_) 0
  rw [m.op_left_comm (m.of p.2) (m.of q.1), m.op_left_comm (m.of p.1) (m.of q.1),
    m.op_left_comm (m.of p.2) (m.of q.2), m.op_left_comm (m.of p.1) (m.of q.2)]

theorem of_sameContents (h : SameContents a b) : m.of a = m.of b := by
  induction h with
  | scalar => rfl
  | list hlen _ ih => rw [of, of, hlen, ofItems_congr m (forall₂_of_zip hlen ih)]
  | vector hlen _ ih => rw [of, of, hlen, ofItems_congr m (forall₂_of_zip hlen ih)]
  | map hperm hlen hkeys _ ih =>
    have hpairs : List.Forall₂ (PairsRel fun x y => m.of x = m.of y) _ _ :=
      forall₂_of_zip hlen fun p hp => ⟨hkeys p hp, ih p hp⟩
    have hrel : ∀ {rs qs : List (Value × Value)},
        List.Forall₂ (PairsRel fun x y => m.of x = m.of y) rs qs →
          m.ofPairs rs = m.ofPairs qs := by
      intro rs qs h
      induction h with
      | nil => rfl
      | cons hpq _ ih => rw [ofPairs, ofPairs, hpq.1, hpq.2, ih]
    rw [of, of, hperm.length_eq, hlen, ofPairs_perm m hperm, hrel hpairs]

end Measure

end Value

end Core

end Lispico
