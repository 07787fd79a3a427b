import Lispico.Reader.ScanFunded

/-!
# Parsing with room in the budget

Each token has a credit, linear in a bound on the number of tokens and their length, that pays
for the node it becomes. What is left of the credit of a form's first token pays for the slot
that the form takes.
-/

namespace Lispico

namespace Reader

open Lispico.Core Meter Lib Guarded List

def formCredit (n : Nat) : Nat := 258 * n + 75

def tokenCredit (n : Nat) : Nat := formCredit n + (5 * n + 300)

/-- A parser whose tokens are no longer than `n`, with no more than `n` tokens and nodes. -/
structure Provided (n : Nat) (p : Parser) : Prop where
  within : ∀ tok ∈ p.rest, tok.Within n
  stacked : p.nodes.length + p.rest.length ≤ n
  unit : p.nodePlan.unit = meterValueSlotBytes

/-- A later state of the parser with the same nodes on its buffer. -/
structure Later (p p' : Parser) : Prop where
  suffix : p'.rest <:+ p.rest
  nodes : p'.nodes = p.nodes
  unit : p'.nodePlan.unit = p.nodePlan.unit

theorem Later.refl (p : Parser) : Later p p := ⟨suffix_rfl, rfl, rfl⟩

variable {p₁ p₂ p₃ : Parser}

theorem Later.trans (h : Later p₁ p₂) (h' : Later p₂ p₃) : Later p₁ p₃ :=
  ⟨h'.suffix.trans h.suffix, h'.nodes.trans h.nodes, h'.unit.trans h.unit⟩

variable {p p' : Parser}

theorem Later.length_le (h : Later p p') : p'.rest.length ≤ p.rest.length :=
  h.suffix.length_le

variable {n : Nat}

theorem Provided.later (hp : Provided n p) (h : Later p p') : Provided n p' where
  within := fun tok htok => hp.within tok (h.suffix.subset htok)
  stacked := by
    rw [h.nodes]
    exact (Nat.add_le_add_left h.length_le _).trans hp.stacked
  unit := h.unit.trans hp.unit

theorem past_later (p : Parser) : Later p p.past := ⟨tail_suffix _, rfl, rfl⟩

theorem count_later (bytes : Nat) (p : Parser) : Later p (p.count bytes) :=
  ⟨suffix_rfl, rfl, rfl⟩

theorem past_length (h : p.peek.typ ≠ .eof) : p.past.rest.length + 1 = p.rest.length := by
  unfold Parser.past
  unfold Parser.peek at h
  cases hrest : p.rest with
  | nil =>
    rw [hrest] at h
    exact absurd rfl h
  | cons tok rest => rfl

theorem Provided.peek (hp : Provided n p) : p.peek.Within n := by
  have hwithin := hp.within
  unfold Parser.peek
  cases hrest : p.rest with
  | nil => exact Token.plain_within _ _ _ _
  | cons tok rest => exact hwithin tok (by rw [hrest]; exact mem_cons_self)

variable {β : Type} {d : Nat} {Q : β → Parser → Prop} {left : β → Parser → Nat}
  {k : Token → ParseM β}

theorem nextTok_bind (h : Paid d (k p.peek) p.past Q left) : Paid d (nextTok >>= k) p Q left :=
  h.of_run fun _ => rfl

/-- The credit of a token is split into that of its form and the rest. -/
theorem token_bind (hpeek : p.peek.typ ≠ .eof) (h : p.past.rest.length + 1 = p.rest.length →
      Paid (d + tokenCredit n * p.past.rest.length + formCredit n + (5 * n + 300)) (k p.peek) p.past
        Q left) : Paid (d + tokenCredit n * p.rest.length) (nextTok >>= k) p Q left := by
  have hpast := past_length hpeek
  refine nextTok_bind ((h hpast).of_le (le_of_eq ?_))
  rw [← hpast, Nat.mul_succ, tokenCredit]
  omega

theorem checkpoint_bind {S : Type} {s : S} {k : Unit → Guarded Budget S GoErr β}
    {Q : β → S → Prop} {left : β → S → Nat} (h : Paid d (k ()) s Q left) :
    Paid d (spend Budget.checkpoint >>= k) s Q left := by
  refine .spend_bind (c := 0) (fun rest b hb => ?_) (Nat.zero_le _) h
  rw [Nat.zero_add] at hb
  exact Budget.checkpoint_of_enough hb

theorem admitNode_bind {bytes payload c : Nat} {k : Unit → ParseM β}
    (hd : d + (33 + payload) ≤ c) (h : Paid d (k ()) (p.count bytes) Q left) :
    Paid c (admitNode bytes payload >>= k) p Q left := by
  have hnode : Paid c (admitNode bytes payload) p
      (fun _ p' => p' = p.count bytes) (fun _ _ => d) := by
    unfold admitNode Budget.admitOutputNode meterReaderNodeBytes
    refine Funded.spend_bind (Budget.admitAlloc_of_enough _) (by omega) ?_
    refine Funded.spend_bind (Budget.work_of_enough _) (by omega) ?_
    exact Funded.of_free (fun _ => rfl) rfl (by omega)
  refine hnode.bind fun _ p' hp => ?_
  subst hp
  exact h

theorem addChild_paid (grow : Nat → Nat → Nat) (item : Datum) (d : Nat)
    (hlen : p.nodes.length + 1 ≤ n) (hunit : p.nodePlan.unit = meterValueSlotBytes) :
    Paid (d + 64 * n) (addChild grow item) p
      (fun _ p' => p'.rest = p.rest ∧ p'.nodes = p.nodes ++ [item] ∧
        p'.nodePlan.unit = meterValueSlotBytes) (fun _ _ => d) := by
  refine Funded.look_bind ?_
  have hadmit := ((admit_paid (p.nodes.length + 1) p.nodePlan).frame d).of_le (c := d + 64 * n)
    (by rw [hunit]; unfold meterValueSlotBytes; omega)
  have hplan : Paid (d + 64 * n) (zoom Parser.nodePlan (fun g p => { p with nodePlan := g })
      (GrowthPlan.admitGrowth (p.nodes.length + 1))) p (fun _ p' => p'.rest = p.rest ∧
        p'.nodes = p.nodes ∧ p'.nodePlan.unit = meterValueSlotBytes) (fun _ _ => d) :=
    Funded.zoom hadmit fun _ g hg => ⟨⟨rfl, rfl, hg.trans hunit⟩, Nat.le_add_right _ _⟩
  refine hplan.bind fun _ p' hp => ?_
  refine Funded.of_free (fun _ => rfl) ⟨hp.1, ?_, hp.2.2⟩ le_rfl
  change p'.nodes ++ [item] = _
  rw [hp.2.1]

theorem takeChildren_paid (mark : Nat) (p : Parser) (d : Nat) :
    Paid (d + 17 * (p.nodes.drop mark).length) (takeChildren mark) p
      (fun items p' => items = p.nodes.drop mark ∧ p' = p.truncate mark) (fun _ _ => d) := by
  refine Funded.look_bind ?_
  unfold Budget.admitSlots valueSlotsBytes meterValueSlotBytes
  refine Funded.spend_bind (Budget.admitAlloc_of_enough _) (by omega) ?_
  have hwork := (workBatches_paid readerLinkBatch (p.nodes.drop mark).length
    (p.nodes.drop mark).length p).frame d
  refine (hwork.of_le (by omega)).bind fun _ p' hp => ?_
  subst hp
  exact Funded.of_free (fun _ => rfl) ⟨rfl, rfl⟩ (Nat.le_add_right _ _)

theorem expect_bind {tt : TokenType} {k : Unit → ParseM β} (h : Paid d (k ()) p.past Q left) :
    Paid d (expect tt >>= k) p Q left := by
  have hexpect : Paid d (expect tt) p (fun _ p' => p' = p.past) (fun _ _ => d) :=
    nextTok_bind (.ite (fun _ => .fail sameError_refl _) fun _ => .ret rfl
      le_rfl)
  refine hexpect.bind fun _ p' hp => ?_
  subst hp
  exact h

/-- A key whose text is no longer than `n`. -/
def KeyWithin (n : Nat) (v : Datum) : Prop := ∀ hk, toHashKey v = .ok hk → hk.str.length ≤ n

/-- What a parse of a form guarantees: it takes tokens, restores the buffer and pays out of
the credits of what it takes. -/
abbrev Parses (n d : Nat) (m : ParseM Datum) (p : Parser) : Prop :=
  Paid (d + tokenCredit n * p.rest.length) m p
    (fun v p' => Later p p' ∧ p'.rest.length < p.rest.length ∧ KeyWithin n v)
    (fun _ p' => d + tokenCredit n * p'.rest.length + formCredit n)

structure Stacked (p p' : Parser) : Prop where
  suffix : p'.rest <:+ p.rest
  nodes : p.nodes <+: p'.nodes
  unit : p'.nodePlan.unit = p.nodePlan.unit
  length : p'.nodes.length + p'.rest.length ≤ p.nodes.length + p.rest.length

theorem Stacked.refl (p : Parser) : Stacked p p :=
  ⟨suffix_rfl, prefix_rfl, rfl, le_rfl⟩

theorem Stacked.trans (h : Stacked p₁ p₂) (h' : Stacked p₂ p₃) : Stacked p₁ p₃ :=
  ⟨h'.suffix.trans h.suffix, h.nodes.trans h'.nodes, h'.unit.trans h.unit,
    h'.length.trans h.length⟩

theorem Provided.stackedOn (hp : Provided n p) (h : Stacked p p') : Provided n p' where
  within := fun tok htok => hp.within tok (h.suffix.subset htok)
  stacked := h.length.trans hp.stacked
  unit := h.unit.trans hp.unit

section

variable {n : Nat} {form : ParseM Datum}
  (hform : ∀ (d : Nat) (p : Parser), Provided n p → Parses n d form p) (grow : Nat → Nat → Nat)
  (close : TokenType)

include hform

theorem parseItems_paid (rounds d : Nat) {p : Parser} (hp : Provided n p) :
    Paid (d + tokenCredit n * p.rest.length) (parseItems grow form close rounds) p
      (fun _ p' => Stacked p p')
      (fun _ p' => d + tokenCredit n * p'.rest.length +
        49 * (p'.nodes.length - p.nodes.length)) := by
  induction rounds generalizing p d with
  | zero => exact .ret (.refl p) (by omega)
  | succ rounds ih =>
    refine .look_bind (.ite (fun _ => ?_) fun _ =>
      Funded.ret (.refl p) (by omega))
    refine (hform d p hp).bind fun item p₁ h₁ => ?_
    obtain ⟨hlater, hlt, -⟩ := h₁
    have hp₁ := hp.later hlater
    have hstacked := hp.stacked
    have hlen₁ : p₁.nodes.length = p.nodes.length := by rw [hlater.nodes]
    -- The form's credit pays for its slot and leaves what taking it off the buffer costs.
    have hchild := addChild_paid grow item (d + 49 + tokenCredit n * p₁.rest.length)
      (p := p₁) (n := n) (by omega) hp₁.unit
    refine (hchild.of_le (by unfold formCredit; omega)).bind fun _ p₂ h₂ => ?_
    obtain ⟨hrest, hnodes, hunit⟩ := h₂
    have hlen₂ : p₂.nodes.length = p.nodes.length + 1 := by
      rw [hnodes, length_append, length_singleton, hlen₁]
    have hgrown : Stacked p p₂ := by
      refine ⟨hrest ▸ hlater.suffix, ?_, hunit.trans hp.unit.symm, ?_⟩
      · rw [hnodes, hlater.nodes]
        exact prefix_append _ _
      · rw [hlen₂, hrest]
        omega
    refine (ih (d + 49) (hp.stackedOn hgrown)).weaken (by rw [hrest]) fun _ p₃ h₃ => ?_
    have := h₃.nodes.length_le
    exact ⟨hgrown.trans h₃, by omega⟩

theorem parseChildren_paid (d : Nat) {p : Parser}
    (hp : Provided n p) (hpeek : p.peek.typ ≠ .eof) :
    Paid (d + tokenCredit n * p.rest.length) (parseChildren grow form close) p
      (fun _ p' => Later p p' ∧ p'.rest.length < p.rest.length)
      (fun items p' => d + tokenCredit n * p'.rest.length + formCredit n +
        32 * items.length) := by
  have hp₁ := hp.later (past_later p)
  refine token_bind hpeek fun hpast => .look_bind ?_
  have hbody : Paid (d + tokenCredit n * p.past.rest.length + formCredit n + (5 * n + 300))
      (cleanup (.truncate p.past.nodes.length) (do
        parseItems grow form close p.past.rest.length
        expect close
        takeChildren p.past.nodes.length)) p.past
      (fun _ p' => Later p p' ∧ p'.rest.length < p.rest.length)
      (fun items p' => d + tokenCredit n * p'.rest.length + formCredit n + 32 * items.length +
        33) := by
    refine .cleanup ?_
    refine ((parseItems_paid hform grow close _ (d + formCredit n + 33) hp₁).of_le
      (by omega)).bind fun _ p₂ h₂ => expect_bind ?_
    have htail := (past_later p₂).length_le
    have hlen : (p₂.past.nodes.drop p.past.nodes.length).length =
        p₂.nodes.length - p.past.nodes.length := length_drop
    have hcredit₂ := Nat.mul_le_mul_left (tokenCredit n) htail
    refine (takeChildren_paid p.past.nodes.length p₂.past (d + tokenCredit n *
      p₂.past.rest.length + formCredit n + 32 * (p₂.nodes.length - p.past.nodes.length) +
      33)).weaken (by omega) fun items p' h => ?_
    obtain ⟨rfl, rfl⟩ := h
    have hsuffix : p₂.past.rest <:+ p.past.rest := (past_later p₂).suffix.trans h₂.suffix
    refine ⟨⟨⟨hsuffix.trans (past_later p).suffix, ?_, h₂.unit⟩, ?_⟩, ?_⟩
    · exact List.prefix_iff_eq_take.mp h₂.nodes |>.symm
    · have := hsuffix.length_le
      change p₂.past.rest.length < _
      omega
    · rw [hlen]
      exact le_rfl
  refine hbody.bind fun items p' h => admitNode_bind le_rfl ?_
  exact .ret ⟨h.1.trans (count_later 0 p'), h.2⟩ le_rfl

end

theorem linkCells_paid (items : List Datum) (linked : Nat) (p : Parser) (d : Nat) :
    Paid d (linkCells (fun _ _ cells => cells) items linked ()) p (fun _ p' => p' = p)
      (fun _ _ => d) := by
  induction items generalizing linked with
  | nil => exact .ret rfl le_rfl
  | cons item items ih => exact .ite (fun _ => checkpoint_bind (ih _)) fun _ => ih _

theorem buildList_paid (items : List Datum) (p : Parser) (d : Nat) :
    Paid (d + 32 * items.length) (buildList items) p
      (fun v p' => p' = p ∧ v = .list items) (fun _ _ => d) := by
  refine Funded.ite (fun _ => Funded.ret ⟨rfl, rfl⟩ (by omega)) fun _ => ?_
  unfold Budget.admitListCells readerListCellBytes
  refine Funded.spend_bind (Budget.admitAlloc_of_enough _) (by omega) ?_
  refine (linkCells_paid _ _ p _).bind fun _ p' hp => ?_
  subst hp
  exact Funded.ret ⟨rfl, rfl⟩ (by omega)

theorem find_le (hk : DatumKey) (es : List MapEntry) (i : Nat) :
    (findFrom hk es i).1 ≤ i + es.length := by
  induction es generalizing i with
  | nil => exact le_rfl
  | cons e es ih =>
    unfold findFrom
    split_ifs
    · exact Nat.le_add_right _ _
    · exact Nat.le_add_right _ _
    · have := ih (i + 1)
      rw [length_cons]
      omega

theorem put_length (m : MapLit) (e : MapEntry) : (m.put e).length ≤ m.entries.length + 1 := by
  unfold MapLit.put
  split
  · rw [length_set]
    exact Nat.le_succ _
  · rw [length_insertIdx]
    split_ifs <;> omega

/-- A map under construction with `n` entries at most, and its plan by the size of an entry. -/
structure MapWithin (n : Nat) (m : MapLit) : Prop where
  entries : m.entries.length ≤ n
  unit : m.plan.unit = meterHashMapEntryBytes

variable {m : MapLit} {v : Datum}

theorem admitEntry_bind {k : GrowthPlan → ParseM β} (hm : MapWithin n m)
    (h : ∀ plan : GrowthPlan, plan.unit = meterHashMapEntryBytes → Paid d (k plan) p Q left) :
    Paid (d + 256 * (n + 1)) (m.admitEntry >>= k) p Q left := by
  have hentry : Paid (d + 256 * (n + 1)) m.admitEntry p
      (fun plan p' => p' = p ∧ plan.unit = meterHashMapEntryBytes) (fun _ _ => d) := by
    have hadmit : Paid (d + 256 * (n + 1)) (GrowthPlan.admitGrowth (m.entries.length + 1)) m.plan
        (fun _ g => g.unit = meterHashMapEntryBytes) (fun _ _ => d) := by
      refine ((admit_paid (m.entries.length + 1) m.plan).frame d).weaken ?_
        fun _ _ h => ⟨h.trans hm.unit, Nat.le_add_right _ _⟩
      have := hm.entries
      rw [hm.unit]
      unfold meterHashMapEntryBytes
      omega
    exact hadmit.apart.bind fun grown p' hp => Funded.ret hp le_rfl
  refine hentry.bind fun plan p' hp => ?_
  obtain ⟨rfl, hunit⟩ := hp
  exact h plan hunit

theorem mapSetLarge_paid (hm : MapWithin n m) (e : MapEntry) (p : Parser) (d : Nat) :
    Paid (d + 256 * (n + 1)) (mapSetLarge m e) p
      (fun m' p' => p' = p ∧ MapWithin (n + 1) m') (fun _ _ => d) := by
  have hput := (put_length m e).trans (Nat.succ_le_succ hm.entries)
  refine .ite (fun _ => .ret ⟨rfl, hput, hm.unit⟩ (Nat.le_add_right _ _)) fun _ => ?_
  exact admitEntry_bind hm fun plan hunit => .ret ⟨rfl, hput, hunit⟩ le_rfl

theorem mapSetSmall_paid (hm : MapWithin n m) (e : MapEntry) (p : Parser) (d : Nat) :
    Paid (d + 257 * (n + 1) + 24) (mapSetSmall m e) p
      (fun m' p' => p' = p ∧ MapWithin (n + 1) m') (fun _ _ => d) := by
  have hput := (put_length m e).trans (Nat.succ_le_succ hm.entries)
  have hfind : (m.find e.hk).1 ≤ n := by
    have := find_le e.hk m.entries 0
    have := hm.entries
    unfold MapLit.find
    omega
  refine Funded.spend_bind (Budget.work_of_enough _) (by omega) ?_
  refine Funded.ite (fun _ => Funded.ret ⟨rfl, hput, hm.unit⟩ (by omega)) fun _ => ?_
  have hgrow (large : Bool) : Paid (d + 256 * (n + 1))
      (m.admitEntry >>= fun plan => ret ⟨m.put e, large, plan⟩) p
      (fun m' p' => p' = p ∧ MapWithin (n + 1) m') (fun _ _ => d) :=
    admitEntry_bind hm fun plan hunit => Funded.ret ⟨rfl, hput, hunit⟩ le_rfl
  refine Funded.ite (fun _ => ?_) fun _ => ?_
  · unfold meterCollectionHeaderBytes
    refine Funded.spend_bind (Budget.admitAlloc_of_enough _) (by omega) ?_
    exact (hgrow true).of_le (by omega)
  · exact (hgrow m.large).of_le (by omega)

theorem mapSet_paid {k : Nat} (hm : MapWithin k m) (hk : k + 1 ≤ n) {key : Datum}
    (hkey : KeyWithin n key) (val : Datum) (p : Parser) (d : Nat) :
    Paid (d + formCredit n) (mapSet m key val) p
      (fun m' p' => p' = p ∧ MapWithin (k + 1) m') (fun _ _ => d) := by
  unfold mapSet
  cases hhash : toHashKey key with
  | error err => exact Funded.fail sameError_refl _
  | ok hash =>
    have hstr := hkey hash hhash
    unfold formCredit
    refine Funded.spend_bind (Budget.work_of_enough _) (by omega) ?_
    refine Funded.ite (fun _ => ?_) fun _ => ?_
    · exact (mapSetLarge_paid hm _ p d).of_le (by omega)
    · exact (mapSetSmall_paid hm _ p d).of_le (by omega)

section

variable {n : Nat} {form : ParseM Datum}
  (hform : ∀ (d : Nat) (p : Parser), Provided n p → Parses n d form p)

include hform

theorem parseMapValue_paid (d : Nat) (p : Parser) (hp : Provided n p) :
    Parses n d (parseMapValue form) p :=
  .look_bind (.ite (fun _ => .fail sameError_refl _) fun _ => hform d p hp)

variable {p : Parser} (grow : Nat → Nat → Nat)

theorem parseEntries_paid (rounds d : Nat) {k : Nat} {m : MapLit} (hp : Provided n p)
    (hm : MapWithin k m) (hk : k + p.rest.length ≤ n) :
    Paid (d + tokenCredit n * p.rest.length) (parseEntries form rounds m) p
      (fun _ p' => Later p p') (fun _ p' => d + tokenCredit n * p'.rest.length) := by
  induction rounds generalizing k m p with
  | zero => exact .ret (.refl p) le_rfl
  | succ rounds ih =>
    refine .look_bind (.ite (fun _ => ?_) fun _ =>
      Funded.ret (.refl p) le_rfl)
    refine (hform d p hp).bind fun key p₁ h₁ => ?_
    obtain ⟨hlater₁, hlt₁, hkey⟩ := h₁
    have hp₁ := hp.later hlater₁
    refine ((parseMapValue_paid hform d p₁ hp₁).of_le (Nat.le_add_right _ _)).bind
      fun val p₂ h₂ => ?_
    obtain ⟨hlater₂, hlt₂, -⟩ := h₂
    refine (mapSet_paid hm (by omega) hkey val p₂ _).bind fun m' p₃ h₃ => ?_
    obtain ⟨rfl, hm'⟩ := h₃
    refine (ih (hp₁.later hlater₂) hm' (by omega)).weaken le_rfl fun _ _ h => ?_
    exact ⟨(hlater₁.trans hlater₂).trans h, le_rfl⟩

theorem parseHashMap_paid (d : Nat) (hp : Provided n p) (hpeek : p.peek.typ ≠ .eof) :
    Parses n d (parseHashMap form) p := by
  have hp₁ := hp.later (past_later p)
  have hstacked := hp₁.stacked
  refine token_bind hpeek fun hpast => .look_bind ?_
  refine ((parseEntries_paid hform _ (d + formCredit n + (5 * n + 300)) (k := 0) hp₁
    ⟨le_rfl, rfl⟩ (by omega)).of_le (by omega)).bind fun m p₂ h₂ => expect_bind ?_
  have hlater := h₂.trans (past_later p₂)
  have hcredit₂ := Nat.mul_le_mul_left (tokenCredit n) (past_later p₂).length_le
  refine admitNode_bind (d := d + tokenCredit n * p₂.past.rest.length + formCredit n) (by omega)
    (.ret ⟨((past_later p).trans hlater).trans (count_later 0 _), ?_, ?_⟩ le_rfl)
  · have := hlater.length_le
    change p₂.past.rest.length < _
    omega
  · exact fun hk h => by cases h

theorem parseList_paid (d : Nat) (hp : Provided n p)
    (hpeek : p.peek.typ ≠ .eof) : Parses n d (parseList grow form) p := by
  refine (parseChildren_paid hform grow _ d hp hpeek).bind fun items p₁ h₁ => ?_
  refine (buildList_paid items p₁ _).weaken le_rfl fun v p' h => ?_
  obtain ⟨rfl, rfl⟩ := h
  exact ⟨⟨h₁.1, h₁.2, fun hk h => by cases h⟩, le_rfl⟩

theorem parseVector_paid (close : TokenType) (d : Nat)
    (hp : Provided n p) (hpeek : p.peek.typ ≠ .eof) :
    Parses n d (parseChildren grow form close >>= fun items => ret (Datum.vector items)) p := by
  refine (parseChildren_paid hform grow close d hp hpeek).bind fun items p₁ h₁ => ?_
  exact .ret ⟨h₁.1, h₁.2, fun hk h => by cases h⟩ (Nat.le_add_right _ _)

theorem parseWrapped_paid {name : String} (hname : (text name).length ≤ 16) (d : Nat)
    (hp : Provided n p) (hpeek : p.peek.typ ≠ .eof) :
    Parses n d (parseWrapped name form) p := by
  refine token_bind hpeek fun hpast => ?_
  refine ((hform (d + 150) p.past (hp.later (past_later p))).of_le (by omega)).bind
    fun inner p₁ h₁ => ?_
  obtain ⟨hlater, hlt, -⟩ := h₁
  refine admitNode_bind (d := d + 80 + tokenCredit n * p₁.rest.length + formCredit n) (by omega) ?_
  refine admitNode_bind (d := d + 40 + tokenCredit n * p₁.rest.length + formCredit n) (by omega) ?_
  unfold Budget.admitSlots valueSlotsBytes meterValueSlotBytes
  refine Funded.spend_bind (Budget.admitAlloc_of_enough _) (by omega) ?_
  refine Funded.ret ⟨?_, ?_, fun hk h => by cases h⟩ ?_
  · exact (((past_later p).trans hlater).trans (count_later _ _)).trans (count_later _ _)
  · change p₁.rest.length < _
    omega
  · change d + tokenCredit n * p₁.rest.length + _ ≤ _
    omega

end

theorem parseAtom_paid {payload : Nat} (d : Nat) (hpeek : p.peek.typ ≠ .eof)
    (hpayload : payload ≤ n) (hv : KeyWithin n v) :
    Parses n d (parseAtom payload v) p := by
  refine token_bind hpeek fun hpast => admitNode_bind (d := d + tokenCredit n *
    p.past.rest.length + formCredit n) (by omega) ?_
  refine .ret ⟨(past_later p).trans (count_later _ _), ?_, hv⟩ le_rfl
  change p.past.rest.length < _
  omega

variable {tok : Token} (conv : Strconv) (su : Setup)

theorem parseStringToken_paid (d : Nat) (hpeek : p.peek.typ ≠ .eof) (htok : tok.Within n) :
    Parses n d (parseStringToken tok) p := by
  unfold Token.Within at htok
  refine token_bind hpeek fun hpast => admitNode_bind (d := d + tokenCredit n *
    p.past.rest.length + formCredit n) (by split_ifs <;> omega) ?_
  refine .ret ⟨(past_later p).trans (count_later _ _), ?_, ?_⟩ le_rfl
  · change p.past.rest.length < _
    omega
  · rintro hk ⟨⟩
    exact htok

theorem keyWithin_of_str {t : Text} (ht : t.length ≤ n)
    (hv : ∀ hk, toHashKey v = .ok hk → hk.str = [] ∨ hk.str = t) : KeyWithin n v := by
  intro hk h
  rcases hv hk h with hstr | hstr
  · rw [hstr]
    exact Nat.zero_le _
  · rw [hstr]
    exact ht

theorem parseSymbolToken_paid (d : Nat) (hpeek : p.peek.typ ≠ .eof) (htok : tok.Within n) :
    Parses n d (parseSymbolToken tok) p := by
  have hconst {v : Datum} (hv : ∀ hk, toHashKey v = .ok hk → hk.str = []) :
      Parses n d (parseAtom 0 v) p :=
    parseAtom_paid d hpeek (Nat.zero_le _)
      (keyWithin_of_str (t := []) (Nat.zero_le _) fun hk h => .inl (hv hk h))
  refine .ite (fun _ => hconst ?_) fun _ => ?_
  · rintro hk ⟨⟩
    rfl
  refine .ite (fun _ => hconst ?_) fun _ => ?_
  · rintro hk ⟨⟩
    rfl
  refine .ite (fun _ => hconst ?_) fun _ => ?_
  · rintro hk ⟨⟩
    rfl
  refine parseAtom_paid d hpeek htok (keyWithin_of_str htok ?_)
  rintro hk ⟨⟩
  exact .inr rfl

theorem convertNumber_cases (s : Text) (line col : Nat) :
    (∃ v, (∀ t, convertNumber conv s line col t = .ok v) ∧
        ∀ hk, toHashKey v = .ok hk → hk.str = []) ∨
      ∀ t, convertNumber conv s line col t =
        .error (newReadError ("invalid number: " ++ shown t) line col) := by
  unfold convertNumber
  dsimp only
  by_cases hdot : s.contains (byte '.') = true
  · simp only [if_pos hdot]
    cases conv.parseFloat s with
    | none => exact .inr fun _ => rfl
    | some f =>
      refine .inl ⟨.float f, fun _ => rfl, ?_⟩
      rintro hk ⟨⟩
      rfl
  · simp only [if_neg hdot]
    cases parseInt s with
    | none => exact .inr fun _ => rfl
    | some i =>
      refine .inl ⟨.int i, fun _ => rfl, ?_⟩
      rintro hk ⟨⟩
      rfl

theorem converted_paid (tok : Token) (p : Parser) (d : Nat) :
    Paid d (inspect Option.isSome >>= fun guarded =>
        match convertNumber conv tok.val tok.line tok.col
          (if guarded then boundedSource tok.val else tok.val) with
        | .error err => fail err
        | .ok v => spend Budget.checkpoint >>= fun _ => ret v) p
      (fun v p' => p' = p ∧ ∀ hk, toHashKey v = .ok hk → hk.str = []) (fun _ _ => d) := by
  rcases convertNumber_cases conv tok.val tok.line tok.col with ⟨v, hok, hkey⟩ | herr
  · have hpaid : Paid d (spend Budget.checkpoint >>= fun _ => ret v) p
        (fun v p' => p' = p ∧ ∀ hk, toHashKey v = .ok hk → hk.str = []) (fun _ _ => d) :=
      checkpoint_bind (.ret ⟨rfl, hkey⟩ le_rfl)
    refine hpaid.of_run fun b => ?_
    simp only [bind_apply, inspect_apply, hok]
  · refine .error (newReadError ("invalid number: " ++ shown tok.val) tok.line tok.col) p ?_
      fun rest b hb => ⟨_, p, b, ?_, .number tok.val tok.line tok.col,
        Budget.Enough.mono (Nat.le_add_left _ _) hb⟩
    · simp only [bind_apply, inspect_apply, herr]
      rfl
    · simp only [bind_apply, inspect_apply, herr]
      rfl

theorem parseNumber_paid (d : Nat) (hpeek : p.peek.typ ≠ .eof)
    (htok : tok.Within n) : Parses n d (parseNumber conv tok) p := by
  unfold Token.Within at htok
  refine token_bind hpeek fun hpast => admitNode_bind (d := d + tokenCredit n *
    p.past.rest.length + formCredit n + (5 * n + 256)) (by omega) ?_
  refine Funded.spend_bind (c := 3 * tok.val.length) (Budget.admitConversion_of_enough)
    (by omega) ?_
  refine Funded.spend_bind (Budget.admitConversionStorage_of_enough)
    (by unfold readerConversionSlackBytes; omega) ?_
  refine (converted_paid conv tok _ _).weaken le_rfl fun v p' h => ?_
  obtain ⟨rfl, hkey⟩ := h
  refine ⟨⟨(past_later p).trans (count_later _ _), ?_, ?_⟩, ?_⟩
  · change p.past.rest.length < _
    omega
  · exact keyWithin_of_str (t := []) (Nat.zero_le _) fun hk h => .inl (hkey hk h)
  · unfold readerConversionSlackBytes
    change d + tokenCredit n * p.past.rest.length + _ ≤ _
    omega

theorem parseTok_paid {form : ParseM Datum}
    (hform : ∀ (d : Nat) (p : Parser), Provided n p → Parses n d form p) (d : Nat)
    (hp : Provided n p) : Parses n d (parseTok su form p.peek) p := by
  have htok := hp.peek
  have hfail (e : GoErr) : Parses n d (fail e) p := .fail sameError_refl e
  unfold parseTok
  by_cases hpeek : p.peek.typ = .eof
  · rw [hpeek]
    exact hfail _
  cases htyp : p.peek.typ with
  | eof => exact absurd htyp hpeek
  | lParen => exact parseList_paid hform su.grow d hp hpeek
  | lBracket => exact parseVector_paid hform su.grow _ d hp hpeek
  | lBrace => exact parseHashMap_paid hform d hp hpeek
  | functionRef => exact parseWrapped_paid hform (by decide) d hp hpeek
  | hashParen => exact parseVector_paid hform su.grow _ d hp hpeek
  | quote => exact parseWrapped_paid hform (by decide) d hp hpeek
  | backtick => exact parseWrapped_paid hform (by decide) d hp hpeek
  | tilde => exact parseWrapped_paid hform (by decide) d hp hpeek
  | tildeAt => exact parseWrapped_paid hform (by decide) d hp hpeek
  | string => exact parseStringToken_paid d hpeek htok
  | number => exact parseNumber_paid su.conv d hpeek htok
  | symbol => exact parseSymbolToken_paid d hpeek htok
  | keyword =>
    refine parseAtom_paid d hpeek htok (keyWithin_of_str htok ?_)
    rintro hk ⟨⟩
    exact .inr rfl
  | rParen => exact hfail _
  | rBracket => exact hfail _
  | rBrace => exact hfail _
  | «at» => exact hfail _
  | hash => exact hfail _

theorem parseForm_paid (levels d : Nat) (p : Parser) (hp : Provided n p) :
    Parses n d (parseForm su levels) p := by
  induction levels generalizing d p with
  | zero => exact .look_bind (.fail sameError_refl _)
  | succ levels ih => exact .look_bind (parseTok_paid su (fun d p hp => ih d p hp) d hp)

theorem parse_paid (d : Nat) (hp : Provided n p) : Parses n d (parse su) p :=
  .look_bind (.ite (fun _ => .fail sameError_refl _)
    fun _ => parseForm_paid su _ d p hp)

end Reader

end Lispico
