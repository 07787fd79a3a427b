import Lispico.Core.Error
import Lispico.Lib.Counters
import Mathlib

/-!
# The limit meter

The calls of a limit meter are compare-and-swap loops on four counters, which run concurrently.
Beside the counters there is a history, which the code does not have: what each call has
answered, and what was given to the calls that give back.
-/

namespace Lispico

namespace Meter

namespace LimitMeter

open Lib Lispico.Core Function Int64

/-- A limit that is not positive is none. -/
def ceil (max : Int64) : Int64 := if max ≤ 0 then Int64.maxValue else max

section

variable {C S R : Type}

def leaseCounter (c : C) (max requested : Int64) (next : Int64 → CounterProg C S R) :
    CounterProg C S R :=
  if requested ≤ 0 then next 0
  else .loop c
    (fun used =>
      if ceil max - used ≤ 0 then none else some (used + min requested (ceil max - used)))
    fun used => if ceil max - used ≤ 0 then next 0 else next (min requested (ceil max - used))

def chargeCounter (c : C) (max n : Int64) (ok : CounterProg C S R)
    (refused : GoErr → CounterProg C S R) : CounterProg C S R :=
  if n ≤ 0 then ok
  else .loop c (fun used => if n > ceil max - used then none else some (used + n))
    fun used =>
      if n > ceil max - used then refused (newResourceLimitError "meter limit exceeded") else ok

def returnCounter (c : C) (n : Int64) (next : CounterProg C S R) : CounterProg C S R :=
  if n ≤ 0 then next
  else .loop c (fun used => some (if used - n < 0 then 0 else used - n)) fun _ => next

/-- What a request asks for: nothing if it is not positive. -/
def amount (n : Int64) : Int := max n.toInt 0

theorem ceil_pos (m : Int64) : 0 < (ceil m).toInt := by
  rw [ceil]
  split
  · decide
  · rename_i h
    rw [le_iff_toInt_le, toInt_zero] at h
    omega

variable [DecidableEq C] {A : Accounts C S} {held : C → Int} {c : C} {m : Int64}

variable (hc : A.real c) {n : Int64}

include hc

/-- A loop that stops or raises the counter by an amount that there is room for. -/
theorem covers_raise {stop : Int64 → Prop} [DecidablePred stop] {raise : Int64 → Int64}
    {no : CounterProg C S R} {yes : Int64 → CounterProg C S R}
    (hm : A.ceiling c = ceil m) (hheld : 0 ≤ held c) (hno : Covers A held no)
    (hraise : ∀ used : Int64, (ceil m - used).toInt = (ceil m).toInt - used.toInt → ¬ stop used →
      0 ≤ (raise used).toInt ∧ (raise used).toInt ≤ (ceil m).toInt - used.toInt)
    (hyes : ∀ used : Int64, 0 ≤ (raise used).toInt →
      Covers A (update held c (held c + (raise used).toInt)) (yes used)) :
    Covers A held (.loop c (fun used => if stop used then none else some (used + raise used))
      fun used => if stop used then no else yes used) := by
  refine ⟨hc, fun used => ?_⟩
  dsimp only
  by_cases hstop : stop used
  · simp only [if_pos hstop]
    exact ⟨fun _ => hno, nofun⟩
  · simp only [if_neg hstop]
    refine ⟨nofun, fun v hs h0 hle _ => ?_⟩
    injection hs with hs
    subst hs
    rw [hm] at hle ⊢
    have hlt := toInt_lt (ceil m)
    obtain ⟨hpos, hroom⟩ := hraise used (toInt_sub_eq (by omega) (by omega)) hstop
    rw [toInt_add_eq (by omega) (by omega), add_sub_cancel_left]
    exact ⟨by omega, by omega, by omega, hyes used hpos⟩

theorem covers_charge {ok : CounterProg C S R} {refused : GoErr → CounterProg C S R}
    (hm : A.ceiling c = ceil m) (hheld : 0 ≤ held c)
    (hok : Covers A (update held c (held c + amount n)) ok)
    (hrefused : ∀ err, Covers A held (refused err)) :
    Covers A held (chargeCounter c m n ok refused) := by
  rw [chargeCounter]
  split
  · rename_i hn
    rw [le_iff_toInt_le, toInt_zero] at hn
    rwa [amount, max_eq_right hn, add_zero, update_eq_self] at hok
  · rename_i hn
    rw [le_iff_toInt_le, toInt_zero] at hn
    rw [amount, max_eq_left (by omega)] at hok
    refine covers_raise hc hm hheld (hrefused _) (fun used hrest hroom => ?_) fun _ _ => hok
    rw [gt_iff_lt, lt_iff_toInt_lt] at hroom
    omega

theorem covers_lease {next : Int64 → CounterProg C S R}
    (hm : A.ceiling c = ceil m) (hheld : 0 ≤ held c)
    (hnext : ∀ g : Int64, 0 ≤ g.toInt → Covers A (update held c (held c + g.toInt)) (next g)) :
    Covers A held (leaseCounter c m n next) := by
  have hzero : Covers A held (next 0) := by
    simpa only [toInt_zero, add_zero, update_eq_self] using hnext 0 le_rfl
  rw [leaseCounter]
  split
  · exact hzero
  · rename_i hn
    rw [le_iff_toInt_le, toInt_zero] at hn
    refine covers_raise hc hm hheld hzero (fun used hrest hroom => ?_) fun _ hg => hnext _ hg
    rw [le_iff_toInt_le, toInt_zero] at hroom
    have := toInt_min n (ceil m - used)
    omega

theorem covers_return {next : CounterProg C S R}
    (hle : amount n ≤ held c) (hnext : Covers A (update held c (held c - amount n)) next) :
    Covers A held (returnCounter c n next) := by
  rw [returnCounter]
  split
  · rename_i hn
    rw [le_iff_toInt_le, toInt_zero] at hn
    rwa [amount, max_eq_right hn, sub_zero, update_eq_self] at hnext
  · rename_i hn
    rw [le_iff_toInt_le, toInt_zero] at hn
    rw [amount, max_eq_left (by omega)] at hle hnext
    refine ⟨hc, fun used => ⟨nofun, fun v hs h0 hceil hused => ?_⟩⟩
    have hlt := toInt_lt used
    have hdiff : (used - n).toInt = used.toInt - n.toInt := toInt_sub_eq (by omega) (by omega)
    dsimp only at hs
    rw [if_neg (by rw [lt_iff_toInt_lt, hdiff, toInt_zero]; omega)] at hs
    injection hs with hs
    subst hs
    rw [hdiff, sub_sub_cancel_left, ← sub_eq_add_neg]
    exact ⟨by omega, by omega, by omega, hnext⟩

end

inductive Counter where
  | usedRed
  | usedAlloc
  | retainedBytes
  | retainedSlots
deriving DecidableEq, Repr

open Counter

/-- An amount on each counter of a pair, nothing on the others. -/
def pair (c d : Counter) (x y : Int64) (e : Counter) : Int :=
  if e = c then amount x else if e = d then amount y else 0

theorem pair_nonneg (c d : Counter) (x y : Int64) (e : Counter) : 0 ≤ pair c d x y e := by
  unfold pair amount
  split_ifs <;> omega

inductive Answer where
  | granted (red alloc : Int64) (err : Option GoErr)
  | returned (red alloc : Int64)
  | charged (bytes slots : Int64)
  | refused (err : GoErr)
  | released (bytes slots : Int64)

/-- What the caller has gained by an answer. -/
def Answer.gain : Answer → Counter → Int
  | .granted red alloc _, c => pair usedRed usedAlloc red alloc c
  | .returned red alloc, c => -pair usedRed usedAlloc red alloc c
  | .charged bytes slots, c => pair retainedBytes retainedSlots bytes slots c
  | .refused _, _ => 0
  | .released bytes slots, c => -pair retainedBytes retainedSlots bytes slots c

/-- A history of answers in which no more is given back than was obtained. -/
structure History where
  answers : List Answer
  nonneg : ∀ c, 0 ≤ (answers.map (·.gain c)).sum

namespace History

/-- What the callers have: granted or charged, and not returned or released. -/
def total (h : History) (c : Counter) : Int := (h.answers.map (·.gain c)).sum

def add (h : History) (a : Answer) (ha : ∀ c, 0 ≤ h.total c + a.gain c) : History :=
  ⟨a :: h.answers, fun c => by
    rw [List.map_cons, List.sum_cons, add_comm]
    exact ha c⟩

theorem total_add (h : History) (a : Answer) (ha : ∀ c, 0 ≤ h.total c + a.gain c) (c : Counter) :
    (h.add a ha).total c = a.gain c + h.total c :=
  rfl

end History

abbrev Program := CounterProg Counter History Answer

abbrev Call := CounterThread Counter History Answer

/-- The answer goes into the history as the call returns. -/
def answer (a : Answer) (ha : ∀ c, 0 ≤ a.gain c) : Program :=
  .act (fun h => h.add a fun c => add_nonneg (h.nonneg c) (ha c)) fun _ => .done a

section

variable (limits : Counter → Int64)

def leaseError (reductions allocBytes grantedRed grantedAlloc : Int64) : Option GoErr :=
  if reductions > 0 ∧ grantedRed = 0 then
    some (newResourceLimitError "evaluation reduction meter exhausted")
  else if allocBytes > 0 ∧ grantedAlloc = 0 then
    some (newResourceLimitError "evaluation allocation meter exhausted")
  else none

def leaseEval (reductions allocBytes : Int64) : Program :=
  leaseCounter usedRed (limits usedRed) reductions fun grantedRed =>
    leaseCounter usedAlloc (limits usedAlloc) allocBytes fun grantedAlloc =>
      answer (.granted grantedRed grantedAlloc
        (leaseError reductions allocBytes grantedRed grantedAlloc)) (pair_nonneg _ _ _ _)

def returnEval (reductions allocBytes : Int64) : Program :=
  returnCounter usedRed reductions
    (returnCounter usedAlloc allocBytes (.done (.returned reductions allocBytes)))

def chargeRetained (bytes slots : Int64) : Program :=
  chargeCounter retainedBytes (limits retainedBytes) bytes
    (chargeCounter retainedSlots (limits retainedSlots) slots
      (answer (.charged bytes slots) (pair_nonneg _ _ _ _)) fun err =>
        returnCounter retainedBytes bytes
          (answer (.refused (.wrap ("retained slots: " ++ err.error) (some err))) fun _ => le_rfl))
    fun err =>
      answer (.refused (.wrap ("retained bytes: " ++ err.error) (some err))) fun _ => le_rfl

def releaseRetained (bytes slots : Int64) : Program :=
  returnCounter retainedBytes bytes
    (returnCounter retainedSlots slots (.done (.released bytes slots)))

def accounts : Accounts Counter History where
  own h c := h.total c
  ceiling c := ceil (limits c)
  real _ := True
  own_nonneg h c _ := h.nonneg c

/-- The meter: its counters, the history and the calls, finished or in flight. -/
structure State where
  counters : Counter → Int64
  history : History
  calls : List Call

def initial : State := ⟨fun _ => 0, ⟨[], fun _ => le_rfl⟩, []⟩

/-- A call begins, or makes one atomic step. What a call is to give back has been obtained, and
is no longer the caller's as it begins. -/
inductive Step : State → State → Prop where
  | leaseEval (s : State) (red alloc : Int64) :
      Step s { s with calls := ⟨leaseEval limits red alloc, none, fun _ => 0⟩ :: s.calls }
  | returnEval (s : State) (red alloc : Int64)
      (h : ∀ c, 0 ≤ s.history.total c + (Answer.returned red alloc).gain c) :
      Step s { s with
        history := s.history.add (.returned red alloc) h
        calls := ⟨returnEval red alloc, none, pair usedRed usedAlloc red alloc⟩ :: s.calls }
  | chargeRetained (s : State) (bytes slots : Int64) :
      Step s { s with calls := ⟨chargeRetained limits bytes slots, none, fun _ => 0⟩ :: s.calls }
  | releaseRetained (s : State) (bytes slots : Int64)
      (h : ∀ c, 0 ≤ s.history.total c + (Answer.released bytes slots).gain c) :
      Step s { s with
        history := s.history.add (.released bytes slots) h
        calls := ⟨releaseRetained bytes slots, none,
          pair retainedBytes retainedSlots bytes slots⟩ :: s.calls }
  | advance (counters : Counter → Int64) (history : History) (l₁ : List Call) (t : Call)
      (l₂ : List Call) :
      Step ⟨counters, history, l₁ ++ t :: l₂⟩
        ⟨(t.step (accounts limits) true counters history).1,
          (t.step (accounts limits) true counters history).2.1,
          l₁ ++ (t.step (accounts limits) true counters history).2.2 :: l₂⟩

variable {limits}

theorem covers_answer {a : Answer} {ha : ∀ c, 0 ≤ a.gain c} {held : Counter → Int}
    (h : ∀ c, held c = a.gain c) : Covers (accounts limits) held (answer a ha) := by
  intro s
  have hzero : ∀ c, held c + s.total c - (a.gain c + s.total c) = 0 := by
    intro c
    rw [h c, sub_self]
  exact ⟨fun c _ => (hzero c).ge, hzero⟩

theorem covers_leaseEval (red alloc : Int64) :
    Covers (accounts limits) (fun _ => 0) (leaseEval limits red alloc) := by
  refine covers_lease trivial rfl le_rfl fun g hg =>
    covers_lease trivial rfl le_rfl fun g' hg' => covers_answer fun c => ?_
  cases c <;> simp [Answer.gain, pair, amount, hg, hg']

theorem covers_chargeRetained (bytes slots : Int64) :
    Covers (accounts limits) (fun _ => 0) (chargeRetained limits bytes slots) := by
  refine covers_charge trivial rfl le_rfl (covers_charge trivial rfl le_rfl
    (covers_answer fun c => ?_) fun _ => covers_return trivial ?_ (covers_answer fun c => ?_))
    fun _ => covers_answer fun _ => rfl
  · cases c <;> simp [Answer.gain, pair]
  · simp
  · cases c <;> simp [Answer.gain]

/-- Both counters of a pair are given back. -/
theorem covers_giveBack {c d : Counter} (hcd : d ≠ c) (x y : Int64) (a : Answer) :
    Covers (accounts limits) (pair c d x y)
      (returnCounter c x (returnCounter d y (.done a))) := by
  refine covers_return trivial (by simp [pair]) (covers_return trivial ?_ fun e => ?_)
  · simp [pair, hcd]
  · by_cases hd : e = d
    · subst hd
      simp [pair, hcd]
    · by_cases hc : e = c
      · subst hc
        simp [pair, hd]
      · simp [pair, hc, hd]

theorem balanced_initial :
    Balanced (accounts limits) initial.counters initial.history initial.calls where
  level _ := rfl
  bounds c _ := ⟨le_rfl, (ceil_pos (limits c)).le⟩
  covered _ h := absurd h List.not_mem_nil

theorem Step.balanced {s s' : State} (h : Step limits s s')
    (hs : Balanced (accounts limits) s.counters s.history s.calls) :
    Balanced (accounts limits) s'.counters s'.history s'.calls := by
  cases h with
  | leaseEval _ red alloc =>
    exact hs.spawn (fun _ => (add_zero _).symm) (covers_leaseEval red alloc) fun _ _ => le_rfl
  | returnEval _ red alloc hle =>
    refine hs.spawn (fun c => ?_)
      (covers_giveBack (c := usedRed) (d := usedAlloc) nofun red alloc _) fun _ _ => pair_nonneg ..
    simp only [accounts, History.total_add, Answer.gain, neg_add_cancel_comm]
  | chargeRetained _ bytes slots =>
    exact hs.spawn (fun _ => (add_zero _).symm) (covers_chargeRetained bytes slots)
      fun _ _ => le_rfl
  | releaseRetained _ bytes slots hle =>
    refine hs.spawn (fun c => ?_)
      (covers_giveBack (c := retainedBytes) (d := retainedSlots) nofun bytes slots _)
      fun _ _ => pair_nonneg ..
    simp only [accounts, History.total_add, Answer.gain, neg_add_cancel_comm]
  | advance counters history l₁ t l₂ => exact hs.step true

/-- In every state of every interleaving each counter is between zero and its limit, and is what
the history says the callers have, with what the calls in flight hold. A call that has returned
holds nothing: a refused charge has left the counters as they were. -/
theorem counters_exact {s : State} (h : Relation.ReflTransGen (Step limits) initial s)
    (c : Counter) :
    0 ≤ (s.counters c).toInt ∧ (s.counters c).toInt ≤ (ceil (limits c)).toInt ∧
    (s.counters c).toInt = s.history.total c + (s.calls.map (·.held c)).sum ∧
    ∀ t ∈ s.calls, 0 ≤ t.held c ∧ ∀ a, t.prog = .done a → t.held c = 0 := by
  have hs : Balanced (accounts limits) s.counters s.history s.calls := by
    induction h with
    | refl => exact balanced_initial
    | tail _ hstep ih => exact hstep.balanced ih
  refine ⟨(hs.bounds c trivial).1, (hs.bounds c trivial).2, hs.level c, fun t ht => ?_⟩
  obtain ⟨hcov, hheld⟩ := hs.covered t ht
  refine ⟨hheld c trivial, fun a ha => ?_⟩
  rw [ha] at hcov
  exact hcov c

variable (limits) in
/-- The call at `i` makes one atomic step. -/
def State.advance (s : State) (i : Nat) : State :=
  match s.calls[i]? with
  | none => s
  | some t =>
    let r := t.step (accounts limits) true s.counters s.history
    ⟨r.1, r.2.1, s.calls.set i r.2.2⟩

theorem advance_reaches (s : State) (order : List Nat) :
    Relation.ReflTransGen (Step limits) s (order.foldl (State.advance limits) s) := by
  induction order generalizing s with
  | nil => exact .refl
  | cons i order ih =>
    refine .trans ?_ (ih _)
    unfold State.advance
    split
    · exact .refl
    · rename_i t ht
      obtain ⟨hi, rfl⟩ := List.getElem?_eq_some_iff.1 ht
      have hstep : Step limits _ _ := .advance s.counters s.history (s.calls.take i) s.calls[i]
        (s.calls.drop (i + 1))
      rw [List.getElem_cons_drop, List.take_append_drop] at hstep
      dsimp only
      rw [List.set_eq_take_append_cons_drop, if_pos hi]
      exact .single hstep

/-- Ten of each, and one slot. -/
def tight : Counter → Int64
  | retainedSlots => 1
  | _ => 10

/-- A lease of 4 reductions and 20 bytes and two charges of one slot are made at once; `order`
says which of the three steps next. -/
def contended (order : List Nat) : State :=
  order.foldl (State.advance tight) { initial with calls :=
    [⟨leaseEval tight 4 20, none, fun _ => 0⟩, ⟨chargeRetained tight 5 1, none, fun _ => 0⟩,
      ⟨chargeRetained tight 3 1, none, fun _ => 0⟩] }

theorem contended_reached (order : List Nat) :
    Relation.ReflTransGen (Step tight) initial (contended order) :=
  .trans (.tail (.tail (.single (.chargeRetained _ 3 1)) (.chargeRetained _ 5 1))
    (.leaseEval _ 4 20)) (advance_reaches _ order)

/-- The lease gets 10 of its 20 bytes. The charge of 5 bytes loses a race for the counter, and
then holds the bytes while it finds no slot left; it is refused and gives them back. -/
theorem counters_exact_contended :
    let held := contended [0, 1, 2, 2, 1, 1, 1, 0, 2, 2, 2, 1, 1, 0, 0, 0]
    let s := contended [0, 1, 2, 2, 1, 1, 1, 0, 2, 2, 2, 1, 1, 0, 0, 0, 1, 1, 1]
    (held.history.total usedAlloc = 10 ∧ (held.calls.map (·.held retainedBytes)).sum = 5 ∧
      (held.counters retainedBytes).toInt = held.history.total retainedBytes + 5) ∧
    (s.history.answers.length = 3 ∧ s.history.total retainedBytes = 3 ∧
      (s.counters retainedBytes).toInt = 3) := by
  have hheld := (counters_exact (contended_reached
    [0, 1, 2, 2, 1, 1, 1, 0, 2, 2, 2, 1, 1, 0, 0, 0]) retainedBytes).2.2.1
  have hs := (counters_exact (contended_reached
    [0, 1, 2, 2, 1, 1, 1, 0, 2, 2, 2, 1, 1, 0, 0, 0, 1, 1, 1]) retainedBytes).2.2.1
  exact ⟨⟨by decide +kernel, by decide +kernel, hheld⟩, by decide +kernel, by decide +kernel, hs⟩

end

end LimitMeter

end Meter

end Lispico
