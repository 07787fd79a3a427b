import Lispico.Core.HashMapRefinement

/-!
# Runs over maps

A run applies `Set`, `Assoc` and `Dissoc` to the maps obtained so far, in any order. It agrees
with the specification, where maps are functions, up to its first `Set` on an emptied trie,
which panics.
-/

namespace Lispico

namespace Core

open Lib

namespace HashMap

open HamtNode (Bindings)

section

variable {V : Type} (f : Bindings V)

inductive Action (V : Type) where
  | set (val : V)
  | assoc (val : V)
  | dissoc

/-- One call: the receiver is given by its place among the maps obtained so far. -/
structure Op (V : Type) where
  receiver : Nat
  key : Key
  action : Action V

def written (pool : List (HashMap V)) (i : Nat) : Except String (HashMap V) → List (HashMap V)
  | .error _ => pool
  | .ok h => pool.set i h

def derived (pool : List (HashMap V)) (i : Nat) : Except String (Derived V) → List (HashMap V)
  | .error _ => pool
  | .ok d => pool.set i d.receiver ++ [d.map]

/-- One call; `none` is a panic. A call on a map that was not obtained is no call. -/
def step (pool : List (HashMap V)) (op : Op V) : Option (List (HashMap V)) :=
  match pool[op.receiver]? with
  | none => some pool
  | some h =>
    match op.action with
    | .set val => (h.set op.key val).map (written pool op.receiver)
    | .assoc val => (h.assoc op.key val).map (derived pool op.receiver)
    | .dissoc => (h.dissoc op.key).map (derived pool op.receiver)

def run (pool : List (HashMap V)) : List (Op V) → Option (List (HashMap V))
  | [] => some pool
  | op :: ops => (step pool op).bind fun pool' => run pool' ops

def specStep (xs : List (HashKey → Option V)) (op : Op V) : List (HashKey → Option V) :=
  match xs[op.receiver]?, toHashKey op.key with
  | some x, .ok hk =>
    match op.action with
    | .set val => xs.set op.receiver (Function.update x hk (some val))
    | .assoc val => xs ++ [Function.update x hk (some val)]
    | .dissoc => xs ++ [Function.update x hk none]
  | _, _ => xs

def specRun (xs : List (HashKey → Option V)) (ops : List (Op V)) : List (HashKey → Option V) :=
  ops.foldl specStep xs

/-- `Get` and `Len` describe this function: the value of each key, and how many there are. -/
def Reads (h : HashMap V) (x : HashKey → Option V) : Prop :=
  (∀ key hk, toHashKey key = .ok hk → h.get key = some (x hk)) ∧ h.len = Keyed.size x

/-- The call is a `Set` on a trie that lost its last key. -/
def SetsEmptied (pool : List (HashMap V)) (op : Op V) : Prop :=
  ∃ val h hk, op.action = .set val ∧ pool[op.receiver]? = some h ∧
    toHashKey op.key = .ok hk ∧ h.Emptied

/-- No call of the run is a `Set` on a trie that lost its last key. -/
def NeverSetsEmptied : List (HashMap V) → List (Op V) → Prop
  | _, [] => True
  | pool, op :: ops =>
    ¬ SetsEmptied pool op ∧ ∀ pool', step pool op = some pool' → NeverSetsEmptied pool' ops

def values (f : Bindings V) (hk : HashKey) : Option V := (f hk).map Entry.v

/-- The map holds these entries, and each stands under the hash key of its key. -/
structure Tracked (h : HashMap V) (f : Bindings V) : Prop where
  rep : Rep h f
  keyed : ∀ hk e, f hk = some e → toHashKey e.k = .ok hk

def Holds (h : HashMap V) (x : HashKey → Option V) : Prop := ∃ f, Tracked h f ∧ x = values f

theorem values_update (hk : HashKey) (x : Option (Entry V)) :
    values (Function.update f hk x) = Function.update (values f) hk (x.map Entry.v) := by
  funext j
  by_cases hj : j = hk
  · subst hj
    simp [values]
  · simp [values, hj]

theorem size_values : Keyed.size (values f) = Keyed.size f := by
  simp [Keyed.size, values]

section

variable {h : HashMap V} {f : Bindings V} {hk : HashKey} {key : Key}

theorem Rep.reads (hr : Rep h f) : Reads h (values f) := by
  refine ⟨?_, ?_⟩
  · intro key hk hkey
    rw [HashMap.get, hkey]
    exact hr.getByHashKey hk
  · rw [hr.len, size_values]

theorem Holds.reads {x : HashKey → Option V} (hx : Holds h x) : Reads h x := by
  obtain ⟨f, ht, rfl⟩ := hx
  exact ht.rep.reads

theorem Tracked.update {h' : HashMap V} (ht : Tracked h f) {x : Option (Entry V)}
    (hr : Rep h' (Function.update f hk x)) (hx : ∀ e, x = some e → toHashKey e.k = .ok hk) :
    Tracked h' (Function.update f hk x) := by
  refine ⟨hr, fun hk' e he => ?_⟩
  by_cases heq : hk' = hk
  · subst heq
    rw [Function.update_self] at he
    exact hx e he
  · rw [Function.update_of_ne heq] at he
    exact ht.keyed hk' e he

theorem Tracked.set (ht : Tracked h f) (hlive : ¬ Emptied h) (hkey : toHashKey key = .ok hk)
    (val : V) :
    ∃ h', h.set key val = some (.ok h') ∧
      Tracked h' (Function.update f hk (some ⟨hk, key, val⟩)) := by
  obtain ⟨h', hrun, hr⟩ := ht.rep.set hlive hkey val
  exact ⟨h', hrun, ht.update hr fun _ he => Option.some.inj he ▸ hkey⟩

theorem Tracked.assoc (ht : Tracked h f) (hkey : toHashKey key = .ok hk) (val : V) :
    ∃ d, h.assoc key val = some (.ok d) ∧ Tracked d.receiver f ∧
      Tracked d.map (Function.update f hk (some ⟨hk, key, val⟩)) := by
  obtain ⟨d, hrun, hrec, hmap⟩ := ht.rep.assoc hkey val
  exact ⟨d, hrun, ⟨hrec, ht.keyed⟩, ht.update hmap fun _ he => Option.some.inj he ▸ hkey⟩

theorem Tracked.dissoc (ht : Tracked h f) (hkey : toHashKey key = .ok hk) :
    ∃ d, h.dissoc key = some (.ok d) ∧ Tracked d.receiver f ∧
      Tracked d.map (Function.update f hk none) := by
  obtain ⟨d, hrun, hrec, hmap⟩ := ht.rep.dissoc hkey
  exact ⟨d, hrun, ⟨hrec, ht.keyed⟩, ht.update hmap nofun⟩

theorem Tracked.holds_update {e : Option (Entry V)} (ht : Tracked h (Function.update f hk e)) :
    Holds h (Function.update (values f) hk (e.map Entry.v)) :=
  ⟨_, ht, (values_update f hk e).symm⟩

end

section

variable {R : HashMap V → (HashKey → Option V) → Prop} {pool : List (HashMap V)}
  {xs : List (HashKey → Option V)}

variable (h : List.Forall₂ R pool xs) {a : HashMap V}

include h

theorem forall₂_set (i : Nat)
    {b : HashKey → Option V} (hab : R a b) : List.Forall₂ R (pool.set i a) (xs.set i b) := by
  induction h generalizing i with
  | nil => exact List.Forall₂.nil
  | cons hr h ih =>
    cases i with
    | zero => exact List.Forall₂.cons hab h
    | succ i => exact List.Forall₂.cons hr (ih i)

theorem forall₂_getElem? {i : Nat} (ha : pool[i]? = some a) : ∃ b, xs[i]? = some b ∧ R a b := by
  obtain ⟨hi, rfl⟩ := List.getElem?_eq_some_iff.1 ha
  have hi' : i < xs.length := h.length_eq ▸ hi
  exact ⟨xs[i], List.getElem?_eq_getElem hi', List.Forall₂.get h hi hi'⟩

theorem forall₂_derived {i : Nat} {d : Derived V}
    {x y : HashKey → Option V} (hx : xs[i]? = some x) (hd : R d.receiver x) (hy : R d.map y) :
    List.Forall₂ R (derived pool i (.ok d)) (xs ++ [y]) := by
  have hset := forall₂_set h i hd
  obtain ⟨hi, rfl⟩ := List.getElem?_eq_some_iff.1 hx
  rw [List.set_getElem_self] at hset
  exact List.rel_append hset (List.Forall₂.cons hy List.Forall₂.nil)

end

variable {op : Op V}

theorem step_unhashable (pool : List (HashMap V)) {err : String}
    (hkey : toHashKey op.key = .error err) : step pool op = some pool := by
  rw [step]
  cases pool[op.receiver]? with
  | none => rfl
  | some h =>
    cases op.action with
    | set val => simp [HashMap.set, hkey, written]
    | assoc val => simp [HashMap.assoc, hkey, derived]
    | dissoc => simp [HashMap.dissoc, hkey, derived]

variable {pool : List (HashMap V)} {ops : List (Op V)} {xs : List (HashKey → Option V)}

theorem step_setsEmptied (h : SetsEmptied pool op) : step pool op = none := by
  obtain ⟨val, m, hk, hact, hget, hkey, hempty⟩ := h
  rw [step, hget]
  simp only [hact]
  rw [set_emptied hempty hkey, Option.map_none]

theorem step_spec (h : List.Forall₂ Holds pool xs) (hop : ¬ SetsEmptied pool op) :
    ∃ pool', step pool op = some pool' ∧ List.Forall₂ Holds pool' (specStep xs op) := by
  cases hkey : toHashKey op.key with
  | error err =>
    refine ⟨pool, step_unhashable pool hkey, ?_⟩
    simpa [specStep, hkey] using h
  | ok hk =>
    cases hget : pool[op.receiver]? with
    | none =>
      have hget' : xs[op.receiver]? = none := by
        rw [List.getElem?_eq_none_iff] at hget ⊢
        rwa [← h.length_eq]
      exact ⟨pool, by simp [step, hget], by simpa [specStep, hget'] using h⟩
    | some m =>
      obtain ⟨x, hx, hm⟩ := forall₂_getElem? h hget
      have hheld := hm
      obtain ⟨f, hr, rfl⟩ := hm
      cases hact : op.action with
      | set val =>
        have hlive : ¬ m.Emptied := fun he => hop ⟨val, m, hk, hact, hget, hkey, he⟩
        obtain ⟨m', hrun, hm'⟩ := hr.set hlive hkey val
        refine ⟨pool.set op.receiver m', by simp [step, hget, hact, hrun, written], ?_⟩
        simp only [specStep, hx, hkey, hact]
        exact forall₂_set h _ hm'.holds_update
      | assoc val =>
        obtain ⟨d, hrun, hrec, hmap⟩ := hr.assoc hkey val
        refine ⟨derived pool op.receiver (.ok d), by simp [step, hget, hact, hrun], ?_⟩
        simp only [specStep, hx, hkey, hact]
        exact forall₂_derived h hx ⟨f, hrec, rfl⟩ hmap.holds_update
      | dissoc =>
        obtain ⟨d, hrun, hrec, hmap⟩ := hr.dissoc hkey
        refine ⟨derived pool op.receiver (.ok d), by simp [step, hget, hact, hrun], ?_⟩
        simp only [specStep, hx, hkey, hact]
        exact forall₂_derived h hx ⟨f, hrec, rfl⟩ hmap.holds_update

theorem run_spec (h : List.Forall₂ Holds pool xs) (hops : NeverSetsEmptied pool ops) :
    ∃ pool', run pool ops = some pool' ∧ List.Forall₂ Holds pool' (specRun xs ops) := by
  induction ops generalizing pool xs with
  | nil => exact ⟨pool, rfl, h⟩
  | cons op ops ih =>
    obtain ⟨hop, hrest⟩ := hops
    obtain ⟨pool₁, hstep, h₁⟩ := step_spec h hop
    obtain ⟨pool₂, hrun, h₂⟩ := ih h₁ (hrest pool₁ hstep)
    exact ⟨pool₂, by rw [run, hstep, Option.bind_some, hrun], h₂⟩

theorem neverSetsEmptied_of_run {pool' : List (HashMap V)}
    (h : run pool ops = some pool') : NeverSetsEmptied pool ops := by
  induction ops generalizing pool with
  | nil => trivial
  | cons op ops ih =>
    refine ⟨?_, ?_⟩
    · intro hop
      rw [run, step_setsEmptied hop] at h
      cases h
    · intro pool₁ hstep
      rw [run, hstep] at h
      exact ih h

theorem holds_newHashMap : Holds (newHashMap : HashMap V) fun _ => none :=
  ⟨_, ⟨rep_newHashMap, nofun⟩, rfl⟩

theorem reached_tracked (hrun : run [newHashMap] ops = some pool) :
    ∀ h ∈ pool, ∃ f, Tracked h f := by
  intro h hh
  obtain ⟨pool', hrun', hpool⟩ := run_spec
    (List.Forall₂.cons holds_newHashMap List.Forall₂.nil) (neverSetsEmptied_of_run hrun)
  obtain rfl := Option.some.inj (hrun.symm.trans hrun')
  obtain ⟨i, hi⟩ := List.mem_iff_getElem?.1 hh
  obtain ⟨x, -, f, ht, -⟩ := forall₂_getElem? hpool hi
  exact ⟨f, ht⟩

/-- A run comes to its end with every map holding what the specification says, exactly
if it never calls `Set` on a trie that lost its last key. -/
theorem maps_describe_functions_iff (ops : List (Op V)) :
    (∃ pool, run [newHashMap] ops = some pool ∧
      List.Forall₂ Reads pool (specRun [fun _ => none] ops)) ↔
    NeverSetsEmptied [newHashMap] ops := by
  constructor
  · rintro ⟨pool, hrun, -⟩
    exact neverSetsEmptied_of_run hrun
  · intro hops
    obtain ⟨pool, hrun, hpool⟩ :=
      run_spec (List.Forall₂.cons holds_newHashMap List.Forall₂.nil) hops
    exact ⟨pool, hrun, hpool.imp fun _ _ => Holds.reads⟩

/-- Bind nine keys one after the other, remove them again, and set one. -/
def fillEmptySet : List (Op Nat) :=
  (List.range 9).map (fun i => ⟨i, .int (Int64.ofNat i), .assoc i⟩) ++
  (List.range 9).map (fun i => ⟨9 + i, .int (Int64.ofNat i), .dissoc⟩) ++
  [⟨18, .int 0, .set 1⟩]

/-- The nine removals succeed; the last call panics. -/
theorem fillEmptySet_panics : (run [newHashMap] fillEmptySet.dropLast).isSome = true ∧
      (run [newHashMap] fillEmptySet).isNone = true := by
  decide +kernel

end

end HashMap

end Core

end Lispico
