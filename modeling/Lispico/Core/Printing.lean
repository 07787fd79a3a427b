import Lispico.Core.LiteralCosts
import Lispico.Lib.Comp
import Mathlib

/-!
# Printing with and without a budget

`boundedString` and the budgeted `walkString` both write dots for what lies below the deepest
level, but the first stops after one part of a collection there. So the texts agree just when no
collection at that level has two parts. Formatting of numbers and quoting are parameters.
-/

namespace Lispico

namespace Core

open Lib List

/-- The functions of `strconv` and `fmt` that printing uses, and the name of a chunk. -/
structure Formats where
  float : UInt64 → String
  quote : String → String
  chunkName : List Nat → String

namespace Value

/-- `sortedEntries`: the pairs of a map in the order of their keys. -/
def sortedEntries (pairs : List (Value × Value)) : List (Value × Value) :=
  pairs.mergeSort fun p q =>
    match toHashKey p.1.key, toHashKey q.1.key with
    | .ok hk, .ok hk' => !hk'.less hk
    | _, _ => true

def join : List String → String
  | [] => ""
  | [part] => part
  | part :: next :: parts => part ++ (" " ++ join (next :: parts))

def closureTag (kind name : String) : String :=
  if name = "" then "#<" ++ kind ++ ">" else "#<" ++ kind ++ ":" ++ name ++ ">"

/-- The `String` method of a value that is printed without a descent. -/
def scalarString (fmt : Formats) : Value → String
  | .nil => "nil"
  | .bool v => if v then "true" else "false"
  | .int v => toString v.toInt
  | .float bits => fmt.float bits
  | .string v => fmt.quote v
  | .symbol v => v
  | .keyword v => ":" ++ v
  | .goFunc name _ => "#<builtin:" ++ name ++ ">"
  | .closure chunk _ _ => "#<closure " ++ fmt.chunkName chunk ++ ">"
  | .recurVal _ => "#<recur>"
  | .cellBox _ => "#<cell>"
  | .lambda name _ _ _ _ => closureTag "fn" name
  | .macroVal name _ _ _ _ => closureTag "macro" name
  | _ => ""

/-- The parts that are printed: below the deepest level only the first. -/
def printedParts {α : Type} (levels : Nat) (items : List α) : List α :=
  match levels with
  | 0 => items.take 1
  | _ + 1 => items

/-- `boundedString`, with the number of nesting levels that are left. -/
def boundedString (fmt : Formats) : Nat → Value → String
  | 0, _ => "..."
  | levels + 1, v =>
    match v with
    | .list items =>
      "(" ++ join ((printedParts levels items).map (boundedString fmt levels)) ++ ")"
    | .vector items =>
      "[" ++ join ((printedParts levels items).map (boundedString fmt levels)) ++ "]"
    | .map pairs =>
      "\x7b" ++ join ((printedParts levels (sortedEntries pairs)).flatMap fun e =>
        [boundedString fmt levels e.1, boundedString fmt levels e.2]) ++ "\x7d"
    | v => scalarString fmt v

def goString (fmt : Formats) (v : Value) : String :=
  boundedString fmt (defaultMaxStructuralDepth + 1) v

end Value

def meterValueSlotBytes : Nat := 16

def checkInterval : Nat := 128

/-- `valueWalkBudget`. The deadline and the context are asked at each `sync`; `syncs` counts
how often. -/
structure ValueWalkBudget where
  limit : Nat
  used : Nat := 0
  since : Nat := 0
  terminal : Option GoErr := none
  syncs : Nat := 0

namespace ValueWalkBudget

def new (maxAllocBytes : Nat) : ValueWalkBudget :=
  { limit := max 1 (maxAllocBytes / meterValueSlotBytes) }

def resource : GoErr :=
  .lispico ⟨GoErr.codeResourceLimit, "value walk allocation budget exceeded", "", 0, 0⟩ none

section

variable (interrupts : Nat → Option GoErr)

def refuse (err : GoErr) : Comp ValueWalkBudget GoErr Unit := fun w =>
  some (.error err, { w with terminal := some err })

/-- `sync`: what the deadline and the context report is given by the number of the call. -/
def sync : Comp ValueWalkBudget GoErr Unit := fun w =>
  match w.terminal with
  | some err => some (.error err, w)
  | none =>
    match interrupts w.syncs with
    | some err => refuse err { w with syncs := w.syncs + 1 }
    | none => some (.ok (), { w with syncs := w.syncs + 1 })

/-- Count units of work, and look for an interruption once in a while. -/
def spend (units : Nat) : Comp ValueWalkBudget GoErr Unit := fun w =>
  if w.since + units ≥ checkInterval then
    sync interrupts { w with used := w.used + units, since := 0 }
  else some (.ok (), { w with used := w.used + units, since := w.since + units })

def step : Comp ValueWalkBudget GoErr Unit := fun w =>
  match w.terminal with
  | some err => some (.error err, w)
  | none => if w.used ≥ w.limit then refuse resource w else spend interrupts 1 w

def reserve (n : Nat) : Comp ValueWalkBudget GoErr Unit := fun w =>
  if n = 0 then some (.ok (), w)
  else
    let units := (n + meterValueSlotBytes - 1) / meterValueSlotBytes
    if units > w.limit - w.used then refuse resource w else spend interrupts units w

end

end ValueWalkBudget

namespace ValueWalk

open ValueWalkBudget Value

def stringShallowBytes (n : Nat) : Nat := 16 + n

def closureShallowBytes (captures : Nat) : Nat := 64 + captures * 8

def valueShallowBytes : Value → Nat
  | .string v | .symbol v | .keyword v => stringShallowBytes v.utf8ByteSize
  | .list items => Ledger.listShallowBytes items.length
  | .vector items => Ledger.vectorShallowBytes items.length
  | .map pairs => Ledger.hashMapShallowBytes pairs.length
  | .goFunc name _ => closureShallowBytes 0 + stringShallowBytes name.utf8ByteSize
  | .lambda name params _ body _ | .macroVal name params _ body _ =>
    closureShallowBytes (params.length + body.length) + stringShallowBytes name.utf8ByteSize
  | _ => 16

/-- The elements of a collection, a map's in the order of `Each`, and the body of a closure. -/
def parts : Value → List Value
  | .list items | .vector items => items
  | .map pairs => (sortedEntries pairs).flatMap fun e => [e.1, e.2]
  | .lambda _ _ _ body _ | .macroVal _ _ _ body _ => body
  | _ => []

/-- The parameters of a closure, its rest parameter if it has one, and its body. -/
def closurePayload (params : List String) (variadic : String) (body : List Value) : List Value :=
  params.map .symbol ++ (if variadic = "" then [] else [.symbol variadic]) ++ body

def payload : Value → List Value
  | .lambda _ params variadic body _ | .macroVal _ params variadic body _ =>
    closurePayload params variadic body
  | v => parts v

def isNested : Value → Bool
  | .list _ | .vector _ | .map _ | .lambda _ _ _ _ _ | .macroVal _ _ _ _ _ => true
  | _ => false

section

variable (interrupts : Nat → Option GoErr) (own : Value → Nat) (below : Value → List Value)

def walkSum : Nat → Value → Comp ValueWalkBudget GoErr Nat
  | 0, _ => Comp.ret 0
  | levels + 1, v => do
      step interrupts
      let sums ← Comp.each (walkSum levels) (below v)
      Comp.ret (own v + sums.sum)

/-- `walkDeepBytes` and `walkClosurePayload`, with the number of nesting levels that are left. -/
def walkDeepBytes : Nat → Value → Comp ValueWalkBudget GoErr Nat :=
  walkSum interrupts valueShallowBytes payload

end

end ValueWalk

namespace Value

section

variable (fmt : Formats) (interrupts : Nat → Option GoErr)

open ValueWalkBudget ValueWalk

def walkClosurePayload (levels : Nat) (params : List String) (variadic : String)
    (body : List Value) : Comp ValueWalkBudget GoErr Unit :=
  discard (Comp.each (walkDeepBytes interrupts levels) (closurePayload params variadic body))

def writeClosure (levels : Nat) (kind name : String) (params : List String) (variadic : String)
    (body : List Value) : Comp ValueWalkBudget GoErr String := do
  walkClosurePayload interrupts levels params variadic body
  reserve interrupts (closureTag kind name).utf8ByteSize
  Comp.ret (closureTag kind name)

/-- `scalarRender`: only the text of a string is reserved. -/
def scalarRender (v : Value) : Comp ValueWalkBudget GoErr String :=
  match v with
  | .string _ => do
      reserve interrupts (scalarString fmt v).utf8ByteSize
      Comp.ret (scalarString fmt v)
  | v => Comp.ret (scalarString fmt v)

/-- `walkString`, with the number of nesting levels that are left. -/
def walkString : Nat → Value → Comp ValueWalkBudget GoErr String
  | 0, _ => Comp.ret "..."
  | levels + 1, v => do
      step interrupts
      match v with
      | .list items => do
          let parts ← Comp.each (walkString levels) items
          Comp.ret ("(" ++ join parts ++ ")")
      | .vector items => do
          let parts ← Comp.each (walkString levels) items
          Comp.ret ("[" ++ join parts ++ "]")
      | .map pairs => do
          let parts ← Comp.each (fun e => do
            let k ← walkString levels e.1
            let v ← walkString levels e.2
            Comp.ret (k ++ (" " ++ v))) (sortedEntries pairs)
          Comp.ret ("\x7b" ++ join parts ++ "\x7d")
      | .lambda name params variadic body _ =>
        writeClosure interrupts levels "fn" name params variadic body
      | .macroVal name params variadic body _ =>
        writeClosure interrupts levels "macro" name params variadic body
      | v => scalarRender fmt interrupts v

/-- The text that `ValueStringContext` renders: a value with nothing to descend into needs no
walk. -/
def render (v : Value) : Comp ValueWalkBudget GoErr String :=
  if isNested v then walkString fmt interrupts (defaultMaxStructuralDepth + 1) v
  else do
    step interrupts
    scalarRender fmt interrupts v

/-- `ValueStringContext`, under a budget of so many bytes. -/
def valueStringContext (maxAllocBytes : Nat) (v : Value) : Option (Except GoErr String) :=
  let text : Comp ValueWalkBudget GoErr String := do
    let s ← render fmt interrupts v
    sync interrupts
    Comp.ret s
  (text (new maxAllocBytes)).map Prod.fst

end

/-- No collection at the deepest level that is printed has two parts. -/
def Narrow : Nat → Value → Prop
  | 0, _ => True
  | levels + 1, v =>
    match v with
    | .list items => (levels = 0 → items.length ≤ 1) ∧ ∀ x ∈ items, Narrow levels x
    | .vector items => (levels = 0 → items.length ≤ 1) ∧ ∀ x ∈ items, Narrow levels x
    | .map pairs =>
      (levels = 0 → pairs.length ≤ 1) ∧ ∀ e ∈ pairs, Narrow levels e.1 ∧ Narrow levels e.2
    | _ => True

def fullString (fmt : Formats) : Nat → Value → String
  | 0, _ => "..."
  | levels + 1, v =>
    match v with
    | .list items => "(" ++ join (items.map (fullString fmt levels)) ++ ")"
    | .vector items => "[" ++ join (items.map (fullString fmt levels)) ++ "]"
    | .map pairs =>
      "\x7b" ++ join ((sortedEntries pairs).map fun e =>
        fullString fmt levels e.1 ++ (" " ++ fullString fmt levels e.2)) ++ "\x7d"
    | v => scalarString fmt v

section

variable {α : Type}

theorem join_cons (part : String) {parts : List String} (h : parts ≠ []) :
    join (part :: parts) = part ++ (" " ++ join parts) := by
  cases parts with
  | nil => exact absurd rfl h
  | cons next parts => rfl

theorem join_pairs (f g : α → String) (items : List α) :
    join (items.flatMap fun x => [f x, g x]) = join (items.map fun x => f x ++ (" " ++ g x)) := by
  induction items with
  | nil => rfl
  | cons x items ih =>
    rw [flatMap_cons, map_cons, cons_append, cons_append, nil_append,
      join_cons (f x) (by simp)]
    cases items with
    | nil => rfl
    | cons y items =>
      rw [join_cons (g x) (by simp), join_cons _ (by simp), ih]
      simp only [String.append_assoc]

/-- The second text is the first one, or it lacks something and is shorter. -/
def Cut (full cut : String) (whole : Prop) : Prop :=
  whole ∧ full = cut ∨ ¬ whole ∧ cut.length < full.length

theorem Cut.rfl {s : String} : Cut s s True := .inl ⟨trivial, Eq.refl s⟩

variable {full cut : String} {whole : Prop}

theorem Cut.eq_iff (h : Cut full cut whole) : full = cut ↔ whole := by
  rcases h with ⟨hwhole, heq⟩ | ⟨hnot, hlt⟩
  · exact ⟨fun _ => hwhole, fun _ => heq⟩
  · refine ⟨fun heq => ?_, fun hwhole => absurd hwhole hnot⟩
    rw [heq] at hlt
    exact absurd hlt (Nat.lt_irrefl _)

theorem Cut.length_le (h : Cut full cut whole) : cut.length ≤ full.length := by
  rcases h with ⟨-, heq⟩ | ⟨-, hlt⟩
  · rw [heq]
  · exact Nat.le_of_lt hlt

variable {p : Prop}

theorem Cut.congr {q : Prop} (h : Cut full cut p) (hpq : p ↔ q) : Cut full cut q := by
  rw [← propext hpq]
  exact h

theorem Cut.append {full' cut' : String} {q : Prop} (h : Cut full cut p) (h' : Cut full' cut' q) :
    Cut (full ++ full') (cut ++ cut') (p ∧ q) := by
  have hle := h.length_le
  have hle' := h'.length_le
  rcases h with ⟨hp, heq⟩ | ⟨hp, hlt⟩
  · rcases h' with ⟨hq, heq'⟩ | ⟨hq, hlt'⟩
    · exact .inl ⟨⟨hp, hq⟩, by rw [heq, heq']⟩
    · refine .inr ⟨fun hpq => hq hpq.2, ?_⟩
      simp only [String.length_append]
      omega
  · refine .inr ⟨fun hpq => hp hpq.1, ?_⟩
    simp only [String.length_append]
    omega

theorem Cut.wrap (before after : String) (h : Cut full cut p) :
    Cut (before ++ full ++ after) (before ++ cut ++ after) p :=
  ((Cut.rfl.append h).append Cut.rfl).congr (by simp)

theorem cut_join {f g : α → String} {whole : α → Prop} {items : List α}
    (h : ∀ x ∈ items, Cut (f x) (g x) (whole x)) :
    Cut (join (items.map f)) (join (items.map g)) (∀ x ∈ items, whole x) := by
  induction items with
  | nil => exact Cut.rfl.congr (by simp)
  | cons x items ih =>
    have hx := h x mem_cons_self
    cases items with
    | nil => exact hx.congr (by simp)
    | cons y items =>
      have hsplit : ∀ k : α → String, join ((x :: y :: items).map k) =
          k x ++ (" " ++ join ((y :: items).map k)) := fun k => join_cons (k x) (by simp)
      have hrest := ih fun z hz => h z (mem_cons_of_mem x hz)
      rw [hsplit f, hsplit g]
      refine (hx.append (Cut.rfl.append hrest)).congr ?_
      rw [true_and, forall_mem_cons (a := x)]

theorem cut_take (f : α → String) (items : List α) :
    Cut (join (items.map f)) (join ((items.take 1).map f)) (items.length ≤ 1) := by
  match items with
  | [] => exact .inl ⟨Nat.zero_le 1, Eq.refl _⟩
  | [x] => exact .inl ⟨Nat.le_refl 1, Eq.refl _⟩
  | x :: y :: items =>
    refine .inr ⟨by simp, ?_⟩
    rw [map_cons, join_cons _ (by simp)]
    simp only [take_succ_cons, take_zero, map_cons, map_nil, join,
      String.length_append]
    have hspace : " ".length = 1 := Eq.refl 1
    omega

/-- The parts of a collection: at the deepest level all are dots and only the first one is
printed, above it all are printed. -/
theorem cut_parts (f g : Nat → α → String) (whole : Nat → α → Prop) (levels : Nat)
    (items : List α) (hdots : ∀ x, f 0 x = g 0 x) (hwhole : ∀ x, whole 0 x)
    (h : ∀ x ∈ items, Cut (f levels x) (g levels x) (whole levels x)) :
    Cut (join (items.map (f levels))) (join ((printedParts levels items).map (g levels)))
      ((levels = 0 → items.length ≤ 1) ∧ ∀ x ∈ items, whole levels x) := by
  cases levels with
  | zero =>
    have hfg : g 0 = f 0 := funext fun x => (hdots x).symm
    rw [printedParts, hfg]
    exact (cut_take (f 0) items).congr (by simp [hwhole])
  | succ levels => exact (cut_join h).congr (by simp)

end

theorem mem_sortedEntries {pairs : List (Value × Value)} {e : Value × Value} :
    e ∈ sortedEntries pairs ↔ e ∈ pairs :=
  (mergeSort_perm pairs _).mem_iff

theorem length_sortedEntries (pairs : List (Value × Value)) :
    (sortedEntries pairs).length = pairs.length :=
  (mergeSort_perm pairs _).length_eq

theorem cut_boundedString (fmt : Formats) (levels : Nat) (v : Value) :
    Cut (fullString fmt levels v) (boundedString fmt levels v) (Narrow levels v) := by
  induction levels generalizing v with
  | zero => exact Cut.rfl
  | succ levels ih =>
    cases v with
    | list items =>
      exact (cut_parts (fullString fmt) (boundedString fmt) Narrow levels items (fun _ => rfl)
        (fun _ => trivial) fun x _ => ih x).wrap _ _
    | vector items =>
      exact (cut_parts (fullString fmt) (boundedString fmt) Narrow levels items (fun _ => rfl)
        (fun _ => trivial) fun x _ => ih x).wrap _ _
    | map pairs =>
      have hparts := cut_parts (fun l e => fullString fmt l e.1 ++ (" " ++ fullString fmt l e.2))
        (fun l e => boundedString fmt l e.1 ++ (" " ++ boundedString fmt l e.2))
        (fun l e => Narrow l e.1 ∧ Narrow l e.2) levels (sortedEntries pairs)
        (fun _ => rfl) (fun _ => ⟨trivial, trivial⟩)
        fun e _ => ((ih e.1).append (Cut.rfl.append (ih e.2))).congr (by simp)
      simp only [mem_sortedEntries, length_sortedEntries] at hparts
      simp only [boundedString, join_pairs]
      exact hparts.wrap _ _
    | _ => exact Cut.rfl

section

variable {fmt : Formats} {interrupts : Nat → Option GoErr}

open ValueWalkBudget

def Gives {α : Type} (m : Comp ValueWalkBudget GoErr α) (a : α) : Prop :=
  ∀ w w' b, m w = some (.ok b, w') → b = a

variable {α : Type} (levels : Nat) (v : Value)

theorem gives_ret (a : α) : Gives (Comp.ret a) a := by
  intro w w' b h
  cases h
  rfl

theorem Gives.bind {β : Type} {m : Comp ValueWalkBudget GoErr α}
    {f : α → Comp ValueWalkBudget GoErr β} {a : α} {b : β} (hm : Gives m a) (hf : Gives (f a) b) :
    Gives (m >>= f) b := by
  intro w w' c h
  rcases Comp.bind_eq_some_iff.1 h with ⟨a', w₁, hma, hfa⟩ | ⟨e, w₁, -, hout⟩
  · rw [hm w w₁ a' hma] at hfa
    exact hf w₁ w' c hfa
  · cases hout

theorem gives_unit (m : Comp ValueWalkBudget GoErr Unit) : Gives m () := fun _ _ _ _ => rfl

theorem gives_each {f : α → Comp ValueWalkBudget GoErr String} {g : α → String} (items : List α)
    (h : ∀ x, Gives (f x) (g x)) : Gives (Comp.each f items) (items.map g) := by
  induction items with
  | nil => exact gives_ret []
  | cons x items ih => exact (h x).bind (ih.bind (gives_ret _))

theorem gives_writeClosure (kind name : String) (params : List String)
    (variadic : String) (body : List Value) :
    Gives (writeClosure interrupts levels kind name params variadic body)
      (closureTag kind name) :=
  (gives_unit _).bind ((gives_unit _).bind (gives_ret _))

theorem gives_scalarRender : Gives (scalarRender fmt interrupts v) (scalarString fmt v) := by
  unfold scalarRender
  split
  · exact (gives_unit _).bind (gives_ret _)
  · exact gives_ret _

theorem gives_walkString :
    Gives (walkString fmt interrupts levels v) (fullString fmt levels v) := by
  induction levels generalizing v with
  | zero => exact gives_ret _
  | succ levels ih =>
    refine (gives_unit _).bind ?_
    cases v with
    | list items => exact (gives_each items ih).bind (gives_ret _)
    | vector items => exact (gives_each items ih).bind (gives_ret _)
    | map pairs =>
      refine (gives_each (sortedEntries pairs) fun e => ?_).bind (gives_ret _)
      refine (ih e.1).bind ?_
      refine (ih e.2).bind ?_
      exact gives_ret _
    | lambda name params variadic body env => exact gives_writeClosure levels _ _ _ _ _
    | macroVal name params variadic body env => exact gives_writeClosure levels _ _ _ _ _
    | _ => exact gives_scalarRender _

theorem valueStringContext_gives {maxAllocBytes : Nat} {v : Value} {text : String}
    (h : valueStringContext fmt interrupts maxAllocBytes v = some (.ok text)) :
    text = fullString fmt (defaultMaxStructuralDepth + 1) v := by
  have hrender : Gives (render fmt interrupts v)
      (fullString fmt (defaultMaxStructuralDepth + 1) v) := by
    unfold render
    split
    · exact gives_walkString _ _
    · rename_i hnested
      cases v with
      | list | vector | map | lambda | macroVal => exact absurd rfl hnested
      | _ => exact (gives_unit _).bind (gives_scalarRender _)
  have hall : Gives (do let s ← render fmt interrupts v; sync interrupts; Comp.ret s)
      (fullString fmt (defaultMaxStructuralDepth + 1) v) := by
    refine hrender.bind ?_
    refine (gives_unit _).bind ?_
    exact gives_ret _
  obtain ⟨⟨r, w'⟩, hrun, hr⟩ := Option.map_eq_some_iff.1 h
  cases hr
  exact hall _ w' text hrun

/-- Whenever the budget lasts, the metered text is the text that `String` gives just when no
collection at the deepest level has two parts. -/
theorem valueStringContext_eq_iff {maxAllocBytes : Nat} {v : Value} {text : String}
    (h : valueStringContext fmt interrupts maxAllocBytes v = some (.ok text)) :
    text = goString fmt v ↔ Narrow (defaultMaxStructuralDepth + 1) v := by
  rw [valueStringContext_gives h]
  exact (cut_boundedString fmt _ v).eq_iff

end

def plainFormats : Formats := ⟨fun _ => "", fun v => v, fun _ => ""⟩

theorem valueStringContext_of_nested :
    let v := Value.list [.int 1, .vector [.nil, .bool true], .list [.keyword "k"]]
    valueStringContext plainFormats (fun _ => none) 1024 v = some (.ok "(1 [nil true] (:k))") ∧
      "(1 [nil true] (:k))" = goString plainFormats v := by
  intro v
  have h : valueStringContext plainFormats (fun _ => none) 1024 v =
      some (.ok "(1 [nil true] (:k))") := rfl
  have hnarrow (levels : Nat) : Narrow (levels + 3) v := by simp [v, Narrow]
  exact ⟨h, (valueStringContext_eq_iff h).2 (hnarrow (defaultMaxStructuralDepth - 2))⟩

def nested : Nat → Value
  | 0 => .list [.nil, .nil]
  | n + 1 => .list [nested n]

theorem not_narrow_nested (n : Nat) : ¬ Narrow (n + 1) (nested n) := by
  induction n with
  | zero =>
    rintro ⟨hwidth, -⟩
    exact absurd (hwidth rfl) (by decide)
  | succ n ih =>
    rintro ⟨-, hinner⟩
    exact ih (hinner (nested n) (mem_singleton_self _))

section

open ValueWalkBudget

variable {w : ValueWalkBudget} (fmt : Formats) (interrupts : Nat → Option GoErr)

theorem step_calm (h : w.terminal = none) (hlt : w.used < w.limit) :
    ∃ w', step (fun _ => none) w = some (.ok (), w') ∧ w'.terminal = none ∧
      w'.used = w.used + 1 ∧ w'.limit = w.limit := by
  unfold step
  simp only [h, if_neg (Nat.not_le.2 hlt), spend]
  by_cases hsync : w.since + 1 ≥ checkInterval
  · exact ⟨{ w with used := w.used + 1, since := 0, syncs := w.syncs + 1 },
      by simp [hsync, sync, h], h, rfl, rfl⟩
  · exact ⟨{ w with used := w.used + 1, since := w.since + 1 }, by simp [hsync, h], h, rfl, rfl⟩

theorem walkString_list (levels : Nat) (items : List Value) :
    walkString fmt interrupts (levels + 1) (.list items) = step interrupts >>= fun _ =>
        Comp.each (walkString fmt interrupts levels) items >>= fun parts =>
          Comp.ret ("(" ++ join parts ++ ")") := rfl

theorem walkString_nested (n : Nat) (h : w.terminal = none) (hroom : w.used + n < w.limit) :
    ∃ text w', walkString fmt (fun _ => none) (n + 1) (nested n) w = some (.ok text, w') ∧
      w'.terminal = none := by
  induction n generalizing w with
  | zero =>
    obtain ⟨w', hstep, hcalm, -, -⟩ := step_calm h hroom
    refine ⟨"(... ...)", w', ?_, hcalm⟩
    rw [nested, walkString_list, Comp.bind_of_ok _ hstep]
    rfl
  | succ n ih =>
    obtain ⟨w₁, hstep, hcalm, hused, hlimit⟩ := step_calm h (by omega)
    obtain ⟨text, w', hinner, hcalm'⟩ := ih hcalm (by omega)
    refine ⟨"(" ++ join [text] ++ ")", w', ?_, hcalm'⟩
    have heach : Comp.each (walkString fmt (fun _ => none) (n + 1)) [nested n] w₁ =
        some (.ok [text], w') := by
      rw [Comp.each_cons, Comp.bind_of_ok _ hinner]
      rfl
    rw [nested, walkString_list, Comp.bind_of_ok _ hstep, Comp.bind_of_ok _ heach]
    rfl

theorem render_nested (n : Nat) : render fmt interrupts (nested n) =
      walkString fmt interrupts (defaultMaxStructuralDepth + 1) (nested n) := by
  cases n <;> rfl

theorem sync_calm (h : w.terminal = none) :
    sync (fun _ => none) w = some (.ok (), { w with syncs := w.syncs + 1 }) := by
  rw [sync, h]

end

/-- A list of two elements at the deepest level: the metered text is not that of `String`. -/
theorem metered_text_differs :
    ∃ text, valueStringContext plainFormats (fun _ => none) (64 * 1024 * 1024)
        (nested defaultMaxStructuralDepth) = some (.ok text) ∧
      text ≠ goString plainFormats (nested defaultMaxStructuralDepth) := by
  obtain ⟨text, w', hwalk, hcalm⟩ := walkString_nested plainFormats defaultMaxStructuralDepth
    (w := .new (64 * 1024 * 1024)) rfl (by decide)
  have hrun : valueStringContext plainFormats (fun _ => none) (64 * 1024 * 1024)
      (nested defaultMaxStructuralDepth) = some (.ok text) := by
    rw [valueStringContext, render_nested, Comp.bind_of_ok _ hwalk,
      Comp.bind_of_ok _ (sync_calm hcalm)]
    rfl
  refine ⟨text, hrun, fun heq => ?_⟩
  rw [valueStringContext_gives hrun] at heq
  exact not_narrow_nested _ ((cut_boundedString plainFormats _ _).eq_iff.1 heq)

end Value

end Core

end Lispico
