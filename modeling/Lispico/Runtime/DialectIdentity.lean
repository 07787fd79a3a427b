import Lispico.Reader.Lexemes
import Mathlib

/-!
# The identity of a dialect

The fingerprint of a resolved specification is the hash of a text that writes it out, each name
after its length and each table in key order. The text can be read back in one way only, so
without a collision equal fingerprints mean equal resolutions.
-/

namespace Lispico

namespace Runtime

namespace DialectIdentity

open Lispico.Reader List

abbrev Table (β : Type) := Finmap fun _ : Text => β

structure Axes where
  emptyBase : Bool
  lisp2 : Bool
  bracketsOff : Bool
  funcRef : Bool
  readerVec : Bool
  condFlat : Bool
deriving DecidableEq

/-- `VocabEntry` but for the value of an adapter. -/
structure VocabEntry where
  canonical : Text
  adapterID : Text
deriving DecidableEq

/-- `DialectSpec`, with the pairs of each map in the order a `range` visits them. `none` is
the nil map, and an adapter is given by its ID. -/
structure DialectSpec where
  axes : Axes
  forms : List (Text × Text)
  hide : List Text
  vocab : Option (List (Text × Text))
  adapters : Option (List (Text × Text))

/-- What `dialectState` holds that the fingerprint reads. -/
structure DialectState where
  axes : Axes
  canon : Table Text
  vocab : Option (Table VocabEntry)

def kernelNames : List Text :=
  ["def", "defn", "defmacro", "fn", "if", "cond", "when", "let", "let*", "do", "quote",
    "quasiquote", "set!", "loop", "recur", "try", "catch", "throw", "and", "or", "not"].map text

def insertAll {β : Type} (t : Table β) (pairs : List (Text × β)) : Table β :=
  pairs.foldl (fun t p => t.insert p.1 p.2) t

def freeze (spec : DialectSpec) : DialectState where
  axes := spec.axes
  canon :=
    let base := if spec.axes.emptyBase then ∅ else insertAll ∅ (kernelNames.map fun n => (n, n))
    let forms := insertAll (spec.hide.foldl (fun t name => t.erase name) base) spec.forms
    if spec.axes.lisp2 then
      insertAll forms [(text "funcall", text "funcall"), (text "function", text "function")]
    else forms
  vocab :=
    if spec.vocab = none ∧ spec.adapters = none then none
    else
      let renames := (spec.vocab.getD []).map fun p => (p.1, VocabEntry.mk p.2 [])
      let adapters := (spec.adapters.getD []).map fun p => (p.1, VocabEntry.mk [] p.2)
      some (insertAll (insertAll ∅ renames) adapters)

def writeField (s : Text) : Text := byte ':' :: (decimal s.length ++ byte ':' :: s)

def axis (label : String) (on : Bool) : Text := text label ++ decimal on.toNat

/-- The entries of a table, the names as `slices.Sorted` lists them. -/
def listing {β : Type} (t : Table β) : List (Text × β) :=
  t.keys.sort.filterMap fun name => (t.lookup name).map (Prod.mk name)

def writeForm (p : Text × Text) : Text := writeField p.1 ++ writeField p.2

def writeEntry (p : Text × VocabEntry) : Text :=
  writeForm (p.1, p.2.canonical) ++ writeField p.2.adapterID

def records {α : Type} (tag : Text) (write : α → Text) (items : List α) : Text :=
  items.flatMap fun x => tag ++ write x

def percentT (b : Bool) : Text := text (if b then "true" else "false")

/-- The text that `fingerprint` hashes. -/
def written (st : DialectState) : Text :=
  axis "dialect/2|base=" st.axes.emptyBase ++ (axis "|ns=" st.axes.lisp2 ++
    (axis "|brackets=" st.axes.bracketsOff ++ (axis "|funcRef=" st.axes.funcRef ++
      (axis "|readerVec=" st.axes.readerVec ++ (axis "|cond=" st.axes.condFlat ++
        (records (text "|f") writeForm (listing st.canon) ++ (text "|vocab=" ++
          (percentT st.vocab.isSome ++
            (records (text "|v") writeEntry (listing (st.vocab.getD ∅)) ++ [])))))))))

/-- `fingerprint`; `sum` is the hash. -/
def fingerprint (sum : Text → Text) (st : DialectState) : Text := sum (written st)

def Decodes {α : Type} (write : α → Text) : Prop :=
  ∀ x y t u, write x ++ t = write y ++ u → x = y ∧ t = u

theorem axis_decodes (label : String) : Decodes (axis label) := by
  intro x y t u h
  unfold axis at h
  rw [append_assoc, append_assoc] at h
  have hrest := append_cancel_left h
  cases x <;> cases y <;> simp_all [decimal]

theorem percentT_decodes : Decodes percentT := by
  intro x y t u h
  cases x <;> cases y
  · exact ⟨rfl, append_cancel_left h⟩
  · cases h
  · cases h
  · exact ⟨rfl, append_cancel_left h⟩

theorem writeField_decodes : Decodes writeField := by
  intro x y t u h
  have hspan (s rest : Text) :
      (decimal s.length ++ byte ':' :: rest).takeWhile isDigit = decimal s.length := by
    rw [takeWhile_append_of_pos (decimal_digits _), takeWhile_cons_of_neg (by decide),
      append_nil]
  have hsplit : decimal x.length ++ byte ':' :: (x ++ t) =
      decimal y.length ++ byte ':' :: (y ++ u) := by
    simpa [writeField] using h
  have hdigits := congrArg (List.takeWhile isDigit) hsplit
  rw [hspan, hspan] at hdigits
  have hlen := congrArg digitsValue hdigits
  rw [digitsValue_decimal, digitsValue_decimal] at hlen
  rw [hdigits] at hsplit
  have hrest := tail_eq_of_cons_eq (append_cancel_left hsplit)
  exact append_inj hrest (Option.some.inj hlen)

theorem writeForm_decodes : Decodes writeForm := by
  rintro ⟨x, c⟩ ⟨y, d⟩ t u h
  unfold writeForm at h
  rw [append_assoc, append_assoc] at h
  obtain ⟨rfl, h⟩ := writeField_decodes _ _ _ _ h
  obtain ⟨rfl, rfl⟩ := writeField_decodes _ _ _ _ h
  exact ⟨rfl, rfl⟩

theorem writeEntry_decodes : Decodes writeEntry := by
  rintro ⟨x, c, i⟩ ⟨y, d, j⟩ t u h
  unfold writeEntry at h
  rw [append_assoc, append_assoc] at h
  obtain ⟨heq, h⟩ := writeForm_decodes _ _ _ _ h
  obtain ⟨rfl, rfl⟩ := writeField_decodes _ _ _ _ h
  cases heq
  exact ⟨rfl, rfl⟩

theorem records_decodes {α : Type} {write : α → Text} (hwrite : Decodes write) {tag t u : Text}
    (ht : ¬tag <+: t) (hu : ¬tag <+: u) {xs ys : List α}
    (h : records tag write xs ++ t = records tag write ys ++ u) : xs = ys ∧ t = u := by
  have hcons (x : α) (xs : List α) (rest : Text) : records tag write (x :: xs) ++ rest =
        tag ++ (write x ++ (records tag write xs ++ rest)) := by
    simp [records]
  induction xs generalizing ys with
  | nil =>
    cases ys with
    | nil => exact ⟨rfl, h⟩
    | cons y ys =>
      rw [hcons] at h
      exact absurd ⟨_, h.symm⟩ ht
  | cons x xs ih =>
    cases ys with
    | nil =>
      rw [hcons] at h
      exact absurd ⟨_, h⟩ hu
    | cons y ys =>
      rw [hcons, hcons] at h
      obtain ⟨rfl, hrest⟩ := hwrite _ _ _ _ (append_cancel_left h)
      obtain ⟨rfl, rfl⟩ := ih hrest
      exact ⟨rfl, rfl⟩

theorem listing_injective {β : Type} {t t' : Table β} (heq : listing t = listing t') :
    t = t' := by
  have hmem (t : Table β) (name : Text) (x : β) :
      (name, x) ∈ listing t ↔ t.lookup name = some x := by
    simp only [listing, mem_filterMap, Option.map_eq_some_iff, Prod.mk.injEq]
    constructor
    · rintro ⟨_, -, _, hx, rfl, rfl⟩
      exact hx
    · intro hx
      refine ⟨name, ?_, x, hx, rfl, rfl⟩
      rw [← mem_toFinset, Finset.sort_toFinset, Finmap.mem_keys, Finmap.mem_iff]
      exact ⟨x, hx⟩
  refine Finmap.ext_lookup fun name => Option.ext fun x => ?_
  rw [← hmem, heq, hmem]

theorem written_injective {st st' : DialectState} (heq : written st = written st') :
    st = st' := by
  unfold written at heq
  obtain ⟨h₁, heq⟩ := axis_decodes _ _ _ _ _ heq
  obtain ⟨h₂, heq⟩ := axis_decodes _ _ _ _ _ heq
  obtain ⟨h₃, heq⟩ := axis_decodes _ _ _ _ _ heq
  obtain ⟨h₄, heq⟩ := axis_decodes _ _ _ _ _ heq
  obtain ⟨h₅, heq⟩ := axis_decodes _ _ _ _ _ heq
  obtain ⟨h₆, heq⟩ := axis_decodes _ _ _ _ _ heq
  have hends (rest : Text) : ¬text "|f" <+: text "|vocab=" ++ rest := by
    rintro ⟨tail, htail⟩
    cases htail
  obtain ⟨hcanon, heq⟩ := records_decodes writeForm_decodes (hends _) (hends _) heq
  obtain ⟨hsome, heq⟩ := percentT_decodes _ _ _ _ (append_cancel_left heq)
  have hnil : ¬text "|v" <+: [] := by
    rintro ⟨tail, htail⟩
    cases htail
  have hvocab := listing_injective (records_decodes writeEntry_decodes hnil hnil heq).1
  rcases st with ⟨⟨_, _, _, _, _, _⟩, canon, vocab⟩
  rcases st' with ⟨⟨_, _, _, _, _, _⟩, canon', vocab'⟩
  obtain rfl : canon = canon' := listing_injective hcanon
  obtain rfl : vocab = vocab' := by
    cases vocab <;> cases vocab' <;> simp_all
  simp_all

/-- Without a collision of the hash, specifications have equal fingerprints exactly when they
resolve to the same axes, the same table of forms and the same vocabulary. -/
theorem fingerprint_eq_iff (sum : Text → Text) (hsum : Function.Injective sum)
    (spec spec' : DialectSpec) :
    fingerprint sum (freeze spec) = fingerprint sum (freeze spec') ↔
      (freeze spec).axes = (freeze spec').axes ∧ (freeze spec).canon = (freeze spec').canon ∧
        (freeze spec).vocab = (freeze spec').vocab := by
  constructor
  · intro heq
    rw [written_injective (hsum heq)]
    exact ⟨rfl, rfl, rfl⟩
  · rintro ⟨haxes, hcanon, hvocab⟩
    have hstate : freeze spec = freeze spec' := by
      generalize freeze spec = st, freeze spec' = st' at *
      cases st
      cases st'
      simp_all
    rw [hstate]

/-- The axes of a dialect that exposes what it maps and nothing else. -/
def bareAxes (condFlat : Bool) : Axes := ⟨true, false, false, false, false, condFlat⟩

theorem insertAll_swap {β : Type} {t : Table β} {p q : Text × β} (h : p.1 ≠ q.1) :
    insertAll t [p, q] = insertAll t [q, p] :=
  Finmap.insert_insert_of_ne t h

/-- The order in which the maps of a specification are visited does not matter. -/
theorem fingerprint_of_reordered :
    let a := (text "when", text "if")
    let b := (text "unless", text "cond")
    let c := (text "car", text "first")
    let d := (text "cdr", text "rest")
    fingerprint id (freeze ⟨bareAxes false, [a, b], [text "do"], some [c, d],
        some [(text "nth", text "nth/swapped")]⟩) =
      fingerprint id (freeze ⟨bareAxes false, [b, a], [text "do"], some [d, c],
        some [(text "nth", text "nth/swapped")]⟩) := by
  intro a b c d
  have hforms : a.1 ≠ b.1 := by decide
  have hnames : c.1 ≠ d.1 := by decide
  refine (fingerprint_eq_iff id Function.injective_id _ _).2 ⟨rfl, ?_, ?_⟩
  · simp only [freeze, bareAxes, Bool.false_eq_true, if_false]
    exact insertAll_swap hforms
  · exact congrArg (fun t => some (insertAll t _)) (insertAll_swap hnames)

/-- The shape of `cond` alone tells fingerprints apart. -/
theorem fingerprint_of_cond_axis : ∃ sum : Text → Text, Function.Injective sum ∧
      let st := freeze ⟨bareAxes false, [], [], none, none⟩
      let st' := freeze ⟨bareAxes true, [], [], none, none⟩
      st.axes = { st'.axes with condFlat := false } ∧ st.canon = st'.canon ∧
        st.vocab = st'.vocab ∧ fingerprint sum st ≠ fingerprint sum st' := by
  refine ⟨id, Function.injective_id, rfl, rfl, rfl, fun heq => ?_⟩
  have hstate := congrArg (fun st => st.axes.condFlat) (written_injective heq)
  cases hstate

end DialectIdentity

end Runtime

end Lispico
