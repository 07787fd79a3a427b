import Lispico.Lib.Beside
import Lispico.Reader.Read

/-!
# How work is settled

Work is settled in full intervals as it is recorded, and the rest of it at the next
checkpoint. So what a budget does for some work depends only on how much work there is, not
on the batches it is recorded in, and the bill grows by that much unless an interval is
refused on the way.
-/

namespace Lispico

namespace Reader

open Lispico.Core Meter Lib Guarded Function

namespace Budget

/-- Settle `k` full intervals, up to the first one refused. -/
def settleIntervals : Nat → Budget → Option GoErr × Budget
  | 0, b => (none, b)
  | k + 1, b =>
    match checkpoint { b with pending := checkInterval } with
    | (some err, b) => (some err, b)
    | (none, b) => settleIntervals k b

def followed (first next : Budget → Option GoErr × Budget) (b : Budget) : Option GoErr × Budget :=
  match first b with
  | (some err, b) => (some err, b)
  | (none, b) => next b

def defer (n : Nat) (b : Budget) : Option GoErr × Budget := (none, { b with pending := n })

/-- Work in all: the full intervals are settled, the rest is left. -/
def settleAll (n : Nat) : Budget → Option GoErr × Budget :=
  followed (settleIntervals (n / checkInterval)) (defer (n % checkInterval))

/-- A budget that has not failed, with less than an interval of work to settle. -/
structure Sound (b : Budget) : Prop where
  failed : b.failed = none
  pending : b.pending < checkInterval

variable {b : Budget} (k : Nat)

theorem checkpoint_of_failed {err : GoErr} (h : b.failed = some err) :
    checkpoint b = (some err, b) := by
  unfold checkpoint unlessFailed
  rw [h]

/-- An operation that keeps its refusal, and that a failed budget answers with what it kept. -/
structure Reports (op : Budget → Option GoErr × Budget) : Prop where
  kept : ∀ b, (op b).2.failed = (op b).1
  again : ∀ b err, b.failed = some err → op b = (some err, b)

theorem reports_unlessFailed {op : Budget → Option GoErr × Budget}
    (h : ∀ b, b.failed = none → (op b).2.failed = (op b).1) : Reports (unlessFailed op) := by
  have hagain : ∀ b err, b.failed = some err → unlessFailed op b = (some err, b) := by
    intro b err hb
    unfold unlessFailed
    rw [hb]
  refine ⟨fun b => ?_, hagain⟩
  cases hb : b.failed with
  | some err =>
    rw [hagain b err hb]
    exact hb
  | none =>
    unfold unlessFailed
    rw [hb]
    exact h b hb

theorem consult_kept (h : b.failed = none) : b.consult.2.failed = b.consult.1 := by
  unfold consult
  cases b.ctx.interrupt b.checks with
  | none => exact h
  | some err => rfl

theorem charge_keeps (r : Resource) (n : Nat) (b : Budget) :
    (b.charge r n).2.failed = b.failed ∧ (b.charge r n).2.pending = b.pending := by
  unfold charge
  dsimp only
  cases b.meter <;> exact ⟨rfl, rfl⟩

theorem checkpoint_reports : Reports checkpoint := by
  refine reports_unlessFailed fun b hb => ?_
  have hcharge := (charge_keeps .reductions b.pending { b with pending := 0 }).1
  unfold settleWork
  generalize charge .reductions b.pending { b with pending := 0 } = out at hcharge
  rcases out with ⟨_ | err, b'⟩
  · exact consult_kept (hcharge.trans hb)
  · rfl

theorem work_reports (n : Nat) : Reports (work n) := by
  refine reports_unlessFailed fun b hb => ?_
  suffices h : ∀ rounds n b, b.failed = none →
      (workRounds rounds n b).2.failed = (workRounds rounds n b).1 from h n n b hb
  intro rounds
  induction rounds with
  | zero => exact fun _ _ hb => hb
  | succ rounds ih =>
    intro n b hb
    unfold workRounds
    dsimp only
    have hkept := checkpoint_reports.kept
      { b with pending := b.pending + (checkInterval - b.pending) }
    generalize checkpoint _ = out at hkept
    rcases out with ⟨_ | err, b'⟩
    · split_ifs
      · exact hb
      · exact hb
      · exact ih _ b' hkept
    · split_ifs
      · exact hb
      · exact hb
      · exact hkept

theorem checkPlan_reports (tokens payload headroom : Nat) :
    Reports (checkPlan tokens payload headroom) := by
  refine reports_unlessFailed fun b hb => ?_
  split_ifs
  · exact hb
  · rfl

section

variable {S : Type} {op : Budget → Option GoErr × Budget}

theorem Reports.steady (h : Reports op) :
    Guarded.Steady Budget.failed (spend op : Guarded Budget S GoErr Unit) := by
  intro s b hb
  cases b with
  | none => exact hb
  | some b =>
    obtain ⟨err, hfailed⟩ := Option.ne_none_iff_exists'.mp hb
    rw [spend_budget, h.again b err hfailed]
    exact hb

theorem Reports.outcome (h : Reports op) (s : S) (b : Option Budget) :
    (∃ b', spend op s b = (.ok (), s, b') ∧ (b = none → b' = none) ∧
        b'.bind Budget.failed = none) ∨
      ∃ err b', spend op s b = (.error err, s, some b') ∧ b'.failed = some err ∧ b ≠ none := by
  cases b with
  | none => exact .inl ⟨none, rfl, id, rfl⟩
  | some b =>
    have hkept := h.kept b
    rw [spend_some]
    generalize op b = out at hkept
    rcases out with ⟨_ | err, b'⟩
    · exact .inl ⟨some b', rfl, nofun, hkept⟩
    · exact .inr ⟨err, b', rfl, hkept, nofun⟩

end

inductive Checked (b : Budget) : Option GoErr × Budget → Prop where
  | passed {b' : Budget} (hfailed : b'.failed = none) (hpending : b'.pending = 0)
      (hbill : b'.bill = update b.bill .reductions (b.bill .reductions + b.pending)) :
      Checked b (none, b')
  | refused {err : GoErr} {b' : Budget} (hfailed : b'.failed ≠ none)
      (hbill : b'.bill = update b.bill .reductions (b.bill .reductions + b.pending)) :
      Checked b (some err, b')

theorem checkpoint_checked (h : b.failed = none) : Checked b (checkpoint b) := by
  unfold checkpoint unlessFailed settleWork charge consult
  rw [h]
  dsimp only
  cases b.meter with
  | none =>
    dsimp only
    cases b.ctx.interrupt b.checks with
    | none => exact .passed h rfl rfl
    | some err => exact .refused (Option.some_ne_none err) rfl
  | some st =>
    dsimp only
    cases replyError (st.charge b.ctx.meters .reductions (Int64.ofNat b.pending)).1 with
    | some err => exact .refused (Option.some_ne_none err) rfl
    | none =>
      dsimp only
      cases b.ctx.interrupt b.checks with
      | none => exact .passed h rfl rfl
      | some err => exact .refused (Option.some_ne_none err) rfl

theorem settleIntervals_succ (b : Budget) : settleIntervals (k + 1) b =
      followed checkpoint (settleIntervals k) { b with pending := checkInterval } := rfl

theorem settleIntervals_add (j k : Nat) (b : Budget) :
    settleIntervals (j + k) b = followed (settleIntervals j) (settleIntervals k) b := by
  induction j generalizing b with
  | zero =>
    rw [Nat.zero_add]
    rfl
  | succ j ih =>
    rw [Nat.succ_add]
    unfold followed
    rw [settleIntervals_succ, settleIntervals_succ]
    unfold followed
    generalize checkpoint { b with pending := checkInterval } = out
    rcases out with ⟨_ | err, b'⟩
    · exact ih b'
    · rfl

theorem settleIntervals_pending (k n pending : Nat) (b : Budget) :
    followed (settleIntervals k) (defer n) { b with pending := pending } =
      followed (settleIntervals k) (defer n) b := by
  cases k with
  | zero => rfl
  | succ k => rfl

theorem settleIntervals_sound (h : b.failed = none)
    (hok : (settleIntervals k b).1 = none) : (settleIntervals k b).2.failed = none := by
  induction k generalizing b with
  | zero => exact h
  | succ k ih =>
    have hcheck := checkpoint_checked (b := { b with pending := checkInterval }) h
    unfold settleIntervals at hok ⊢
    generalize checkpoint { b with pending := checkInterval } = out at hcheck hok
    cases hcheck with
    | passed hfailed _ _ => exact ih hfailed hok
    | refused _ _ => cases hok

theorem settleIntervals_bill (h : b.failed = none) :
    (0 < k → b.bill .reductions + checkInterval ≤ (settleIntervals k b).2.bill .reductions) ∧
      ((settleIntervals k b).1 = none →
        (settleIntervals k b).2.bill .reductions = b.bill .reductions + k * checkInterval) := by
  induction k generalizing b with
  | zero => exact ⟨fun hk => absurd hk (Nat.lt_irrefl 0), fun _ => by simp [settleIntervals]⟩
  | succ k ih =>
    have hcheck := checkpoint_checked (b := { b with pending := checkInterval }) h
    unfold settleIntervals
    generalize checkpoint { b with pending := checkInterval } = out at hcheck
    cases hcheck with
    | @passed b' hfailed _ hbill =>
      have hfirst : b'.bill .reductions = b.bill .reductions + checkInterval := by
        rw [hbill, update_self]
      obtain ⟨hmore, hall⟩ := ih hfailed
      refine ⟨fun _ => ?_, fun hrest => ?_⟩
      · rcases Nat.eq_zero_or_pos k with rfl | hk
        · exact Nat.le_of_eq hfirst.symm
        · have := hmore hk
          dsimp only
          omega
      · have := hall hrest
        rw [Nat.succ_mul]
        dsimp only at this ⊢
        omega
    | @refused err b' _ hbill =>
      have hfirst : b'.bill .reductions = b.bill .reductions + checkInterval := by
        rw [hbill, update_self]
      exact ⟨fun _ => Nat.le_of_eq hfirst.symm, fun hne => by cases hne⟩

variable {n : Nat}

theorem workRounds_eq (rounds : Nat) (hn : n ≤ rounds) (hb : b.Sound) :
    workRounds rounds n b = settleAll (b.pending + n) b := by
  have hlt := hb.pending
  induction rounds generalizing n b with
  | zero =>
    obtain rfl : n = 0 := by omega
    unfold settleAll
    rw [Nat.add_zero, Nat.div_eq_of_lt hlt, Nat.mod_eq_of_lt hlt]
    rfl
  | succ rounds ih =>
    rw [workRounds]
    by_cases hzero : n = 0
    · subst hzero
      unfold settleAll
      rw [if_pos rfl, Nat.add_zero, Nat.div_eq_of_lt hlt, Nat.mod_eq_of_lt hlt]
      rfl
    · rw [if_neg hzero]
      by_cases hroom : n < checkInterval - b.pending
      · have hless : b.pending + n < checkInterval := by omega
        unfold settleAll
        rw [if_pos hroom, Nat.div_eq_of_lt hless, Nat.mod_eq_of_lt hless]
        rfl
      · -- The round fills an interval; the rest starts the next one.
        have hfill : b.pending + (checkInterval - b.pending) = checkInterval := by omega
        have hrest : b.pending + n = n - (checkInterval - b.pending) + checkInterval := by omega
        have hpos : 0 < checkInterval := Nat.zero_lt_succ _
        rw [if_neg hroom, hfill]
        unfold settleAll followed
        rw [hrest, Nat.add_div_right _ hpos, Nat.add_mod_right]
        unfold settleIntervals
        have hcheck := checkpoint_checked (b := { b with pending := checkInterval }) hb.failed
        generalize checkpoint { b with pending := checkInterval } = out at hcheck
        cases hcheck with
        | @passed b' hfailed hpending _ =>
          have hb' : b'.Sound := ⟨hfailed, by rw [hpending]; exact hpos⟩
          dsimp only
          rw [ih (by omega) hb' hb'.pending, hpending, Nat.zero_add]
          rfl
        | refused _ _ => rfl

theorem work_eq (n : Nat) (hb : b.Sound) : work n b = settleAll (b.pending + n) b := by
  unfold work unlessFailed
  rw [hb.failed]
  exact workRounds_eq n le_rfl hb

theorem settleAll_sound (n : Nat) (h : b.failed = none) (hok : (settleAll n b).1 = none) :
    (settleAll n b).2.Sound ∧ (settleAll n b).2.pending = n % checkInterval := by
  have hsound := settleIntervals_sound (n / checkInterval) h
  unfold settleAll followed at hok ⊢
  generalize settleIntervals (n / checkInterval) b = out at hsound hok
  rcases out with ⟨_ | err, b'⟩
  · exact ⟨⟨hsound rfl, Nat.mod_lt _ (Nat.zero_lt_succ _)⟩, rfl⟩
  · cases hok

theorem settleAll_add (m n : Nat) (h : b.failed = none) :
    followed (settleAll m) (work n) b = settleAll (m + n) b := by
  have hsound := settleAll_sound m h
  have hpos : 0 < checkInterval := Nat.zero_lt_succ _
  have hdiv : (m + n) / checkInterval =
      m / checkInterval + (m % checkInterval + n) / checkInterval := by
    rw [← Nat.mul_add_div hpos, ← Nat.add_assoc, Nat.div_add_mod]
  have hmod : (m + n) % checkInterval = (m % checkInterval + n) % checkInterval := by
    rw [Nat.mod_add_mod]
  change _ = followed (settleIntervals ((m + n) / checkInterval))
    (defer ((m + n) % checkInterval)) b
  rw [hdiv, hmod]
  unfold followed
  rw [settleIntervals_add]
  unfold settleAll followed at hsound ⊢
  generalize settleIntervals (m / checkInterval) b = out at hsound
  rcases out with ⟨_ | err, b'⟩
  · dsimp only [defer] at hsound ⊢
    have hb' := (hsound rfl).1
    rw [work_eq n hb']
    exact settleIntervals_pending _ _ _ b'
  · rfl

def drain (n : Nat) : Budget → Option GoErr × Budget := followed (settleAll n) checkpoint

theorem settleAll_eq (n : Nat) (b : Budget) : settleAll n b =
      followed (settleIntervals (n / checkInterval)) (defer (n % checkInterval)) b := rfl

theorem settleAll_pending (hb : b.Sound) : settleAll b.pending b = (none, b) := by
  rw [settleAll_eq, Nat.div_eq_of_lt hb.pending, Nat.mod_eq_of_lt hb.pending]
  rfl

theorem drain_bill (h : b.failed = none) (hok : (settleIntervals (n / checkInterval) b).1 =
    none) :
    (drain n b).2.bill .reductions = b.bill .reductions + n := by
  have hsound := settleIntervals_sound (n / checkInterval) h hok
  have hbill := (settleIntervals_bill (n / checkInterval) h).2 hok
  have hdiv := Nat.div_add_mod' n checkInterval
  unfold drain
  unfold followed
  rw [settleAll_eq]
  unfold followed
  generalize settleIntervals (n / checkInterval) b = out at hok hsound hbill
  rcases out with ⟨_ | err, b'⟩
  · have hcheck := checkpoint_checked (b := { b' with pending := n % checkInterval }) hsound
    dsimp only [defer] at hbill ⊢
    generalize checkpoint { b' with pending := n % checkInterval } = last at hcheck
    cases hcheck with
    | passed _ _ hlast =>
      rw [hlast, update_self]
      dsimp only
      omega
    | refused _ hlast =>
      rw [hlast, update_self]
      dsimp only
      omega
  · cases hok

theorem followed_bill_le {first next : Budget → Option GoErr × Budget}
    (hnext : ∀ b', (first b).2 = b' → b'.bill .reductions ≤ (next b').2.bill .reductions) :
    (first b).2.bill .reductions ≤ (followed first next b).2.bill .reductions := by
  unfold followed
  generalize first b = out at hnext
  rcases out with ⟨_ | err, b'⟩
  · exact hnext b' rfl
  · exact le_rfl

theorem checkpoint_bill_le (b : Budget) :
    b.bill .reductions ≤ (checkpoint b).2.bill .reductions := by
  cases hfailed : b.failed with
  | some err => rw [checkpoint_of_failed hfailed]
  | none =>
    have hcheck := checkpoint_checked hfailed
    generalize checkpoint b = out at hcheck
    cases hcheck with
    | passed _ _ hbill =>
      rw [hbill, update_self]
      exact Nat.le_add_right _ _
    | refused _ hbill =>
      rw [hbill, update_self]
      exact Nat.le_add_right _ _

theorem settleIntervals_bill_le_drain (n : Nat) (b : Budget) :
    (settleIntervals (n / checkInterval) b).2.bill .reductions ≤
      (drain n b).2.bill .reductions := by
  have hall : (settleIntervals (n / checkInterval) b).2.bill .reductions ≤
      (settleAll n b).2.bill .reductions :=
    followed_bill_le fun b' _ => le_rfl
  exact hall.trans (followed_bill_le fun b' _ => checkpoint_bill_le b')

theorem drain_bill_lt {m : Nat} (hlt : m < n) (h : b.failed = none)
    (hok : (settleIntervals (m / checkInterval) b).1 = none) :
    (drain m b).2.bill .reductions < (drain n b).2.bill .reductions := by
  have hm := drain_bill h hok
  have hdiv := Nat.div_le_div_right (c := checkInterval) hlt.le
  rcases Nat.eq_or_lt_of_le hdiv with heq | hmore
  · rw [heq] at hok
    have hn := drain_bill h hok
    omega
  · -- The work beyond fills another interval.
    have hsound := settleIntervals_sound (m / checkInterval) h hok
    have hbill := (settleIntervals_bill (m / checkInterval) h).2 hok
    have hsplit : n / checkInterval = m / checkInterval + (n / checkInterval - m /
      checkInterval) :=
      by omega
    have hmod := Nat.mod_lt m (show 0 < checkInterval from Nat.zero_lt_succ _)
    have hrest := Nat.div_add_mod' m checkInterval
    have hle := settleIntervals_bill_le_drain n b
    have hstep : (settleIntervals (m / checkInterval) b).2.bill .reductions + checkInterval ≤
        (settleIntervals (n / checkInterval) b).2.bill .reductions := by
      rw [hsplit, settleIntervals_add]
      unfold followed
      generalize settleIntervals (m / checkInterval) b = out at hok hsound
      rcases out with ⟨_ | err, b'⟩
      · exact (settleIntervals_bill _ hsound).1 (by omega)
      · cases hok
    omega

theorem drain_of_refused {k : Nat} (hk : k ≤ n / checkInterval)
    (hne : (settleIntervals k b).1 ≠ none) : drain n b = settleIntervals k b := by
  have hsplit : n / checkInterval = k + (n / checkInterval - k) := by omega
  unfold drain
  unfold followed
  rw [settleAll_eq]
  unfold followed
  rw [hsplit, settleIntervals_add]
  unfold followed
  generalize settleIntervals k b = out at hne
  rcases out with ⟨_ | err, b'⟩
  · exact absurd rfl hne
  · rfl

theorem drain_zero_bill (h : b.failed = none) : (drain 0 b).2.bill = b.bill := by
  have hcheck := checkpoint_checked (b := { b with pending := 0 }) h
  change (checkpoint { b with pending := 0 }).2.bill = b.bill
  generalize checkpoint { b with pending := 0 } = out at hcheck
  cases hcheck with
  | passed _ _ hbill => exact hbill.trans (update_eq_self _ _)
  | refused _ hbill => exact hbill.trans (update_eq_self _ _)

end Budget

theorem workBatches_eq {S : Type} {batch : Nat} (hbatch : 0 < batch) (rounds : Nat) {n : Nat}
    (hn : n ≤ rounds) (s : S) {b : Budget} (hb : b.Sound) :
    workBatches batch rounds n s (some b) =
      spend (Budget.settleAll (b.pending + n)) s (some b) := by
  induction rounds generalizing n b with
  | zero =>
    obtain rfl : n = 0 := by omega
    simp only [workBatches, ret_apply, spend, Nat.add_zero, Budget.settleAll_pending hb]
  | succ rounds ih =>
    unfold workBatches
    by_cases hzero : n = 0
    · subst hzero
      simp only [if_true, ret_apply, spend, Nat.add_zero, Budget.settleAll_pending hb]
    · have hmin : 0 < min n batch := by omega
      have hsound := Budget.settleAll_sound (b.pending + min n batch) hb.failed
      have hadd := Budget.settleAll_add (b.pending + min n batch) (n - min n batch) hb.failed
      have hall : b.pending + min n batch + (n - min n batch) = b.pending + n := by omega
      rw [hall] at hadd
      rw [if_neg hzero, bind_apply]
      simp only [spend, Budget.work_eq _ hb]
      rw [← hadd]
      unfold Budget.followed
      generalize Budget.settleAll (b.pending + min n batch) b = out at hsound
      rcases out with ⟨_ | err, b'⟩
      · have hb' := (hsound rfl).1
        dsimp only
        rw [ih (by omega) hb', Budget.work_eq _ hb']
        rfl
      · rfl

end Reader

end Lispico
