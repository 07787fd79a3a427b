import Mathlib

/-!
# Sweeps of the chunk cache by macro epoch

Evaluations look their form up in a stripe, sweep all stripes when they find the macro epoch
raised, plan their admission and publish it, each part under the lock of one stripe. Only between
the checks of a publication and its insertion can the epoch move while a stripe is locked. A
stripe is the list of its keys, last used first.
-/

namespace Lispico

namespace Runtime

namespace ChunkCache

open Function List

structure CacheKey where
  sourceHash : BitVec 256
  formIndex : Int
  macroEpoch : Int
deriving DecidableEq

section

variable {n : Nat}

/-- The stripe of a key among `n + 1`. The hash is taken as its bytes, the first one lowest. -/
def stripeIndex (h : BitVec 256) (formIndex : Int) : Fin (n + 1) :=
  let mixed := h.truncate 64 ^^^ BitVec.ofInt 64 formIndex
  if n = 0 then 0
  else ⟨mixed.toNat &&& n % 2 ^ 64,
    Nat.lt_succ_of_le (Nat.le_trans Nat.and_le_right (Nat.mod_le _ _))⟩

def stripeFor (key : CacheKey) : Fin (n + 1) := stripeIndex key.sourceHash key.formIndex

abbrev Stripe := List CacheKey

def Stripe.moveCacheEntryToHead (s : Stripe) (key : CacheKey) : Stripe := key :: s.erase key

/-- The loop that makes room at the tail, with the answers of `cacheBudgetShort`. -/
def Stripe.evict : List Bool → Stripe → Stripe
  | true :: short, s => evict short s.dropLast
  | _, s => s

def Stripe.flushCacheEpoch (s : Stripe) (epoch : Int) : Stripe :=
  s.filter fun key => epoch ≤ key.macroEpoch

/-- Where an evaluation is on its way through `EvalCached`. -/
inductive Pc where
  | probe
  | readEpoch
  | loadFlushed (epoch : Int)
  | swapFlushed (epoch prev : Int)
  | sweep (epoch : Int) (i : Nat)
  | plan
  | publish
  | insert
  | done
deriving DecidableEq

structure Evaluation where
  key : CacheKey
  pc : Pc

structure Cache (n : Nat) where
  macroEpoch : Int := 0
  lastFlushedEpoch : Int := 0
  stripes : Fin (n + 1) → Stripe := fun _ => []
  evals : List Evaluation := []
  /-- The epochs whose sweep has returned. -/
  swept : List Int := []

/-- What the budget counters of all stripes answer, and whether the reservation is granted. -/
structure Answers where
  fitsAlone : Bool
  short : List Bool
  reserved : Bool
  exceeded : Bool

namespace Cache

def stripe (s : Cache n) (key : CacheKey) : Stripe := s.stripes (stripeFor key)

def setStripe (s : Cache n) (i : Fin (n + 1)) (st : Stripe) : Cache n :=
  { s with stripes := update s.stripes i st }

/-- `cacheGetLocked`: a key that is there moves to the head, and its evaluation is served. -/
def cacheGet (s : Cache n) (key : CacheKey) (miss : Cache n × Pc) : Cache n × Pc :=
  if key ∈ s.stripe key then
    (s.setStripe (stripeFor key) ((s.stripe key).moveCacheEntryToHead key), .done)
  else miss

/-- The stripe whose lock an evaluation needs for its next part. -/
def needs (e : Evaluation) : Option (Fin (n + 1)) :=
  match e.pc with
  | .sweep _ i => if h : i < n + 1 then some ⟨i, h⟩ else none
  | .probe => some (stripeFor e.key)
  | .plan => some (stripeFor e.key)
  | .publish => some (stripeFor e.key)
  | _ => none

/-- A publication has passed its checks and not yet inserted its entry. -/
def locked (s : Cache n) (i : Fin (n + 1)) : Bool :=
  s.evals.any fun e => e.pc = .insert ∧ stripeFor (n := n) e.key = i

def next (s : Cache n) (e : Evaluation) (a : Answers) : Cache n × Pc :=
  match e.pc with
  | .probe => s.cacheGet e.key (s, .readEpoch)
  | .readEpoch => (s, .loadFlushed s.macroEpoch)
  | .loadFlushed epoch =>
    if s.lastFlushedEpoch ≥ epoch then (s, .plan) else (s, .swapFlushed epoch s.lastFlushedEpoch)
  | .swapFlushed epoch prev =>
    if s.lastFlushedEpoch = prev then ({ s with lastFlushedEpoch := epoch }, .sweep epoch 0)
    else (s, .loadFlushed epoch)
  | .sweep epoch i =>
    if h : i < n + 1 then
      (s.setStripe ⟨i, h⟩ ((s.stripes ⟨i, h⟩).flushCacheEpoch epoch), .sweep epoch (i + 1))
    else ({ s with swept := epoch :: s.swept }, .plan)
  | .plan =>
    s.cacheGet e.key <|
      if e.key.macroEpoch ≠ s.macroEpoch then (s, .done)
      else if !a.fitsAlone then (s, .done)
      else (s.setStripe (stripeFor e.key) ((s.stripe e.key).evict a.short),
        if a.reserved then .publish else .done)
  | .publish =>
    s.cacheGet e.key <|
      if e.key.macroEpoch ≠ s.macroEpoch ∨ a.exceeded then (s, .done) else (s, .insert)
  | .insert => (s.setStripe (stripeFor e.key) (e.key :: s.stripe e.key), .done)
  | .done => (s, .done)

/-- The cache after the next part of the evaluation at place `j`. -/
def advance (s : Cache n) (j : Nat) (e : Evaluation) (a : Answers) : Cache n :=
  { (s.next e a).1 with evals := s.evals.set j { e with pc := (s.next e a).2 } }

inductive Event where
  | bumpMacroEpoch
  | evalCached (sourceHash : BitVec 256) (formIndex : Int)
  | advance (j : Nat) (a : Answers)

def step (s : Cache n) : Event → Cache n
  | .bumpMacroEpoch => { s with macroEpoch := s.macroEpoch + 1 }
  | .evalCached h formIndex =>
    { s with evals := s.evals ++ [⟨⟨h, formIndex, s.macroEpoch⟩, .probe⟩] }
  | .advance j a =>
    match s.evals[j]? with
    | none => s
    | some e =>
      if (needs (n := n) e).any s.locked then s else s.advance j e a

def run (n : Nat) (evs : List Event) : Cache n := evs.foldl step {}

/-- No entry of the stripe is older than the epoch, nor one that is about to be inserted. -/
structure Floor (s : Cache n) (epoch : Int) (i : Fin (n + 1)) : Prop where
  resident : ∀ key ∈ s.stripes i, epoch ≤ key.macroEpoch
  inserted : ∀ e ∈ s.evals, e.pc = .insert → stripeFor e.key = i → epoch ≤ e.key.macroEpoch

/-- The epoch has been reached and the first `k` stripes have been swept for it. -/
def SweptTo (s : Cache n) (epoch : Int) (k : Nat) : Prop :=
  epoch ≤ s.macroEpoch ∧ ∀ i : Fin (n + 1), i.val < k → s.Floor epoch i

/-- The epoch that an evaluation sweeps for or is about to, and how many stripes it has swept. -/
def progress : Pc → Option (Int × Nat)
  | .loadFlushed epoch => some (epoch, 0)
  | .swapFlushed epoch _ => some (epoch, 0)
  | .sweep epoch i => some (epoch, i)
  | _ => none

structure Inv (s : Cache n) : Prop where
  evals : ∀ e ∈ s.evals, ∀ p, progress e.pc = some p → s.SweptTo p.1 p.2
  swept : ∀ epoch ∈ s.swept, s.SweptTo epoch (n + 1)

variable {s : Cache n} {e : Evaluation} {a : Answers} {i : Fin (n + 1)} {key : CacheKey}
  {epoch : Int} {st : Stripe} {k : Nat} {j : Fin (n + 1)}

theorem mem_evict {short : List Bool} (h : key ∈ st.evict short) : key ∈ st := by
  induction short generalizing st with
  | nil => exact h
  | cons b short ih =>
    cases b with
    | false => exact h
    | true => exact mem_of_mem_dropLast (ih h)

theorem mem_setStripe
    (h : key ∈ (s.setStripe j st).stripes i) : key ∈ s.stripes i ∨ key ∈ st ∧ i = j := by
  unfold setStripe at h
  by_cases hi : i = j
  · subst hi
    exact .inr ⟨by simpa using h, rfl⟩
  · exact .inl (by simpa [hi] using h)

theorem mem_of_mem_setStripe
    (hst : st ⊆ s.stripes j) (h : key ∈ (s.setStripe j st).stripes i) : key ∈ s.stripes i :=
  (mem_setStripe h).elim id fun hkey => hkey.2 ▸ hst hkey.1

theorem mem_next (h : key ∈ (s.next e a).1.stripes i) :
    key ∈ s.stripes i ∨ e.pc = .insert ∧ key = e.key ∧ stripeFor e.key = i := by
  have hflush (j : Fin (n + 1)) (epoch : Int) :
      (s.stripes j).flushCacheEpoch epoch ⊆ s.stripes j := filter_sublist.subset
  have hevict (short : List Bool) : (s.stripe e.key).evict short ⊆ s.stripe e.key :=
    fun _ => mem_evict
  have hmove (hmem : e.key ∈ s.stripe e.key) :
      (s.stripe e.key).moveCacheEntryToHead e.key ⊆ s.stripe e.key :=
    cons_subset.2 ⟨hmem, erase_subset⟩
  unfold next cacheGet at h
  split at h
  case h_8 hpc =>
    rcases mem_setStripe h with h | ⟨h, hi⟩
    · exact .inl h
    · rcases List.mem_cons.1 h with hkey | h
      · exact .inr ⟨hpc, hkey, hi.symm⟩
      · exact .inl (hi ▸ h)
  all_goals
    left
    grind [mem_of_mem_setStripe, stripe]

/-- What a step can do to what is resident or about to be. -/
structure Moves (s s' : Cache n) : Prop where
  epoch : s.macroEpoch ≤ s'.macroEpoch
  resident : ∀ i, ∀ key ∈ s'.stripes i, key ∈ s.stripes i ∨
    ∃ e ∈ s.evals, e.pc = .insert ∧ e.key = key ∧ stripeFor e.key = i
  inserted : ∀ e ∈ s'.evals, e.pc = .insert → e ∈ s.evals ∨ s.macroEpoch ≤ e.key.macroEpoch

theorem SweptTo.moves {s' : Cache n} (hm : Moves s s')
    (h : s.SweptTo epoch k) : s'.SweptTo epoch k := by
  refine ⟨h.1.trans hm.epoch, fun i hi => ⟨fun key hkey => ?_, fun e he hpc hstripe => ?_⟩⟩
  · rcases hm.resident i key hkey with hkey | ⟨e, he, hpc, rfl, hstripe⟩
    · exact (h.2 i hi).resident key hkey
    · exact (h.2 i hi).inserted e he hpc hstripe
  · rcases hm.inserted e he hpc with he | hepoch
    · exact (h.2 i hi).inserted e he hpc hstripe
    · exact h.1.trans hepoch

theorem next_macroEpoch : (s.next e a).1.macroEpoch = s.macroEpoch := by
  unfold next cacheGet setStripe
  grind

theorem next_insert (h : (s.next e a).2 = .insert) : e.key.macroEpoch = s.macroEpoch := by
  unfold next cacheGet at h
  grind

variable {j : Nat}

theorem step_advance (s : Cache n) (j : Nat) (a : Answers) :
    s.step (.advance j a) = s ∨ ∃ e, s.evals[j]? = some e ∧
      (needs (n := n) e).any s.locked = false ∧ s.step (.advance j a) = s.advance j e a := by
  unfold step
  dsimp only
  split
  case h_1 => exact .inl rfl
  case h_2 e he =>
    split
    case isTrue => exact .inl rfl
    case isFalse hfree => exact .inr ⟨e, he, Bool.eq_false_iff.2 hfree, rfl⟩

theorem Moves.refl (s : Cache n) : Moves s s :=
  ⟨le_rfl, fun _ _ h => .inl h, fun _ h _ => .inl h⟩

theorem advance_moves (he : s.evals[j]? = some e) : Moves s (s.advance j e a) := by
  refine ⟨next_macroEpoch.ge, fun i key hkey => ?_, fun e' he' hpc => ?_⟩
  · refine (mem_next hkey).imp_right ?_
    rintro ⟨hpc, rfl, hi⟩
    exact ⟨e, mem_of_getElem? he, hpc, rfl, hi⟩
  · rcases mem_or_eq_of_mem_set he' with he' | rfl
    · exact .inl he'
    · exact .inr (next_insert hpc).ge

theorem step_moves (s : Cache n) (ev : Event) : Moves s (s.step ev) := by
  cases ev with
  | bumpMacroEpoch => exact ⟨Int.le_add_one le_rfl, fun _ _ h => .inl h, fun _ h _ => .inl h⟩
  | evalCached h formIndex =>
    refine ⟨le_rfl, fun _ _ h => .inl h, fun e he hpc => ?_⟩
    rcases mem_append.1 he with he | he
    · exact .inl he
    · rw [mem_singleton.1 he] at hpc
      cases hpc
  | advance j a =>
    rcases step_advance s j a with hs | ⟨e, he, -, hs⟩
    · rw [hs]
      exact .refl s
    · rw [hs]
      exact advance_moves he

/-- The stripe that a sweep visits is not locked, and what is older is removed. -/
theorem floor_swept (hpc : e.pc = .sweep epoch i)
    (hfree : (needs (n := n) e).any s.locked = false) : (s.advance j e a).Floor epoch i := by
  have hnext : s.next e a = (s.setStripe i ((s.stripes i).flushCacheEpoch epoch),
      .sweep epoch (i + 1)) := by
    simp only [next, hpc, i.isLt, dif_pos]
  constructor
  · intro key hkey
    simp only [advance, hnext, setStripe, update_self, Stripe.flushCacheEpoch] at hkey
    simpa using (mem_filter.1 hkey).2
  · intro e' he' hinsert hi
    rcases mem_or_eq_of_mem_set he' with he' | rfl
    · simp only [needs, hpc, i.isLt, dif_pos, Option.any_some] at hfree
      have hnot := any_eq_false.1 hfree e' he'
      simp [hinsert, hi] at hnot
    · rw [hnext] at hinsert
      cases hinsert

theorem progress_next {p : Int × Nat} (hp : progress (s.next e a).2 = some p) :
    p = (s.macroEpoch, 0) ∨ progress e.pc = some p ∨
      ∃ i : Fin (n + 1), e.pc = .sweep p.1 i ∧ p.2 = i + 1 := by
  unfold next cacheGet at hp
  split at hp
  case h_5 hpc =>
    split_ifs at hp with hi
    · cases hp
      exact .inr (.inr ⟨⟨_, hi⟩, hpc, rfl⟩)
    · cases hp
  all_goals grind [progress]

theorem mem_swept_next (h : epoch ∈ (s.next e a).1.swept) :
    epoch ∈ s.swept ∨ ∃ i, e.pc = .sweep epoch i ∧ n + 1 ≤ i := by
  unfold next cacheGet setStripe at h
  grind

theorem Inv.advance (hs : Inv s) (he : s.evals[j]? = some e)
    (hfree : (needs (n := n) e).any s.locked = false) : Inv (s.advance j e a) := by
  have hold := hs.evals e (mem_of_getElem? he)
  have hmoves : Moves s (s.advance j e a) := advance_moves he
  constructor
  · intro e' he' p hp
    rcases mem_or_eq_of_mem_set he' with he' | rfl
    · exact (hs.evals e' he' p hp).moves hmoves
    · rcases progress_next hp with rfl | hp | ⟨i, hpc, hk⟩
      · exact ⟨hmoves.epoch, fun i hi => absurd hi (Nat.not_lt_zero _)⟩
      · exact (hold p hp).moves hmoves
      · have hbefore := (hold (p.1, i) (by rw [hpc]; rfl)).moves hmoves
        refine ⟨hbefore.1, fun i' hi' => ?_⟩
        rcases Nat.lt_succ_iff_lt_or_eq.1 (hk ▸ hi') with hlt | heq
        · exact hbefore.2 i' hlt
        · exact Fin.ext heq ▸ floor_swept hpc hfree
  · intro epoch hepoch
    rcases mem_swept_next hepoch with hepoch | ⟨i, hpc, hi⟩
    · exact (hs.swept epoch hepoch).moves hmoves
    · obtain ⟨hle, hfloor⟩ := (hold (epoch, i) (by rw [hpc]; rfl)).moves hmoves
      exact ⟨hle, fun i' hi' => hfloor i' (hi'.trans_le hi)⟩

theorem Inv.step (hs : Inv s) (ev : Event) : Inv (s.step ev) := by
  have hmoves := step_moves s ev
  have hswept (epoch : Int) (h : epoch ∈ s.swept) := (hs.swept epoch h).moves hmoves
  cases ev with
  | bumpMacroEpoch => exact ⟨fun e he p hp => (hs.evals e he p hp).moves hmoves, hswept⟩
  | evalCached h formIndex =>
    refine ⟨fun e he p hp => ?_, hswept⟩
    rcases mem_append.1 he with he | he
    · exact (hs.evals e he p hp).moves hmoves
    · rw [mem_singleton.1 he] at hp
      cases hp
  | advance j a =>
    rcases step_advance s j a with hstep | ⟨e, he, hfree, hstep⟩
    · rwa [hstep]
    · rw [hstep]
      exact hs.advance he hfree

theorem inv_run (evs : List Event) : Inv (run n evs) := by
  induction evs using List.reverseRecOn with
  | nil => exact ⟨(fun _ h => nomatch h), fun _ h => nomatch h⟩
  | append_singleton evs ev ih =>
    rw [run, foldl_append]
    exact ih.step ev

theorem SweptTo.run (h : s.SweptTo epoch k) (evs : List Event) :
    (evs.foldl step s).SweptTo epoch k := by
  induction evs generalizing s with
  | nil => exact h
  | cons ev evs ih => exact ih (h.moves (step_moves s ev))

theorem mem_sweep (hpc : e.pc = .sweep epoch k)
    (hkey : key ∈ s.stripes i) (hepoch : epoch ≤ key.macroEpoch) :
    key ∈ (s.next e a).1.stripes i := by
  simp only [next, hpc]
  split_ifs with hk
  · by_cases hi : i = ⟨k, hk⟩
    · subst hi
      simp [setStripe, Stripe.flushCacheEpoch, hkey, hepoch]
    · simpa [setStripe, hi] using hkey
  · exact hkey

/-- In every run an epoch whose sweep has returned stays a bound on all that is resident, and a
sweep leaves what is not older than its epoch. -/
theorem sweeps_bound_residents (n : Nat) (evs later : List Event) :
    (∀ epoch ∈ (run n evs).swept, ∀ i, ∀ key ∈ (run n (evs ++ later)).stripes i,
        epoch ≤ key.macroEpoch) ∧
      ∀ e j a epoch k, (run n evs).evals[j]? = some e → e.pc = .sweep epoch k →
        ∀ i, ∀ key ∈ (run n evs).stripes i, epoch ≤ key.macroEpoch →
          key ∈ ((run n evs).step (.advance j a)).stripes i := by
  constructor
  · intro epoch hepoch i
    have hrun := ((inv_run evs).swept epoch hepoch).run later
    rw [run, foldl_append]
    exact (hrun.2 i i.isLt).resident
  · intro e j a epoch k he hpc i key hkey hepoch
    rcases step_advance (run n evs) j a with hstep | ⟨e', he', -, hstep⟩
    · rwa [hstep]
    · cases he.symm.trans he'
      rw [hstep]
      exact mem_sweep hpc hkey hepoch

/-- A form is admitted, the epoch is raised, and another evaluation sweeps both stripes. -/
def sweepingRun : List Event :=
  let granted : Answers := ⟨true, [], true, false⟩
  .evalCached 1 0 :: replicate 6 (.advance 0 granted) ++
    .bumpMacroEpoch :: .evalCached 2 0 :: replicate 7 (.advance 1 granted)

theorem sweepingRun_bounds :
    (run 1 (sweepingRun.take 8)).stripes 1 = [⟨1, 0, 0⟩] ∧ 1 ∈ (run 1 sweepingRun).swept ∧
      ∀ later i, ∀ key ∈ (run 1 (sweepingRun ++ later)).stripes i, 1 ≤ key.macroEpoch := by
  have hswept : 1 ∈ (run 1 sweepingRun).swept := by decide +kernel
  refine ⟨by decide +kernel, hswept, fun later => ?_⟩
  exact (sweeps_bound_residents 1 sweepingRun later).1 1 hswept

end Cache

end

end ChunkCache

end Runtime

end Lispico
