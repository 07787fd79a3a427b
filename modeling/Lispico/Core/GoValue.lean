import Lispico.Core.Error
import Lispico.Core.HashMapListing
import Mathlib

/-!
# Values as Go values

`ToGoValue` gives the Go value of a Lisp value. A Go map has strings as keys, and a string, a
keyword and a symbol of one text give one string, so entries of a Lisp map may meet in the Go
map; the last one in key order stays.
-/

namespace Lispico

namespace Core

open Lib

/-- A native Go value. The entries of a map stand in the order of their last assignment. -/
inductive GoValue where
  | nil
  | bool (v : Bool)
  | int (v : Int64)
  | float (bits : UInt64)
  | string (v : String)
  | slice (items : List GoValue)
  | map (entries : List (String × GoValue))

namespace GoValue

/-- The name `%T` prints for a Go value. -/
def goType : GoValue → String
  | .nil => "<nil>"
  | .bool _ => "bool"
  | .int _ => "int64"
  | .float _ => "float64"
  | .string _ => "string"
  | .slice _ => "[]interface \x7b\x7d"
  | .map _ => "map[string]interface \x7b\x7d"

/-- The Go map after the assignments in order: of those to one key the last one stays. -/
def assign (entries : List (String × GoValue)) : List (String × GoValue) :=
  entries.pwFilter fun a b => a.1 ≠ b.1

end GoValue

namespace Value

mutual

def toGoValue : Value → Except GoErr GoValue
  | .nil => .ok .nil
  | .bool v => .ok (.bool v)
  | .int v => .ok (.int v)
  | .float bits => .ok (.float bits)
  | .string v | .keyword v | .symbol v => .ok (.string v)
  | .vector items | .list items => do
      let result ← toGoValues items
      .ok (.slice result)
  | .map pairs => do
      let entries ← toGoEntries pairs
      .ok (.map (GoValue.assign entries))
  | v => .error (.plain s!"unsupported Lisp type: {v.goType}")

def toGoValues : List Value → Except GoErr (List GoValue)
  | [] => .ok []
  | item :: items => do
      let v ← toGoValue item
      let result ← toGoValues items
      .ok (v :: result)

/-- The assignments that `Each` makes over pairs given in key order. -/
def toGoEntries : List (Value × Value) → Except GoErr (List (String × GoValue))
  | [] => .ok []
  | (k, v) :: pairs => do
      let keyStr ← toGoValue k >>= fun
        | .string s => .ok s
        | keyVal => .error (.plain s!"map key must convert to string, got {keyVal.goType}")
      let value ← toGoValue v
      let entries ← toGoEntries pairs
      .ok ((keyStr, value) :: entries)

end

def text : Value → Option String
  | .string v | .keyword v | .symbol v => some v
  | _ => none

mutual

/-- The Go value has one element for every element and one entry for every entry, at every
level. -/
def Lossless : Value → GoValue → Prop
  | .vector items, .slice result | .list items, .slice result => LosslessItems items result
  | .map pairs, .map entries => LosslessEntries pairs entries
  | .vector _, _ | .list _, _ | .map _, _ => False
  | _, _ => True

def LosslessItems : List Value → List GoValue → Prop
  | [], [] => True
  | item :: items, v :: result => Lossless item v ∧ LosslessItems items result
  | _, _ => False

def LosslessEntries : List (Value × Value) → List (String × GoValue) → Prop
  | [], [] => True
  | (k, v) :: pairs, e :: entries =>
    text k = some e.1 ∧ Lossless v e.2 ∧ LosslessEntries pairs entries
  | _, _ => False

end

mutual

def DistinctTexts : Value → Prop
  | .vector items | .list items => DistinctItems items
  | .map pairs => (pairs.map fun p => text p.1).Nodup ∧ DistinctValues pairs
  | _ => True

def DistinctItems : List Value → Prop
  | [] => True
  | item :: items => DistinctTexts item ∧ DistinctItems items

def DistinctValues : List (Value × Value) → Prop
  | [] => True
  | (_, v) :: pairs => DistinctTexts v ∧ DistinctValues pairs

end

theorem text_of_toGoValue {k : Value} {s : String} (h : toGoValue k = .ok (.string s)) :
    text k = some s := by
  cases k with
  | string v | keyword v | symbol v =>
    rw [toGoValue] at h
    injection h with h
    injection h with h
    rw [text, h]
  | vector items | list items =>
    rw [toGoValue, except_bind_eq_ok_iff] at h
    obtain ⟨_, -, h⟩ := h
    cases h
  | map pairs =>
    rw [toGoValue, except_bind_eq_ok_iff] at h
    obtain ⟨_, -, h⟩ := h
    cases h
  | _ => cases h

variable {pairs : List (Value × Value)} {entries : List (String × GoValue)}

theorem toGoEntries_cons {k v : Value}
    {out : List (String × GoValue)} (h : toGoEntries ((k, v) :: pairs) = .ok out) :
    ∃ s value entries, text k = some s ∧ toGoValue v = .ok value ∧
      toGoEntries pairs = .ok entries ∧ out = (s, value) :: entries := by
  simp only [toGoEntries, except_bind_eq_ok_iff] at h
  obtain ⟨s, ⟨keyVal, hkey, hs⟩, value, hv, entries, hes, hout⟩ := h
  cases keyVal with
  | string s' =>
    cases hs
    exact ⟨s, value, entries, text_of_toGoValue hkey, hv, hes, by cases hout; rfl⟩
  | _ => cases hs

theorem toGoEntries_texts (h : toGoEntries pairs = .ok entries) :
    pairs.map (fun p => text p.1) = entries.map fun e => some e.1 := by
  induction pairs generalizing entries with
  | nil =>
    cases h
    rfl
  | cons p pairs ih =>
    obtain ⟨s, value, entries, hs, -, hes, rfl⟩ := toGoEntries_cons h
    rw [List.map_cons, List.map_cons, ih hes, hs]

theorem LosslessEntries.length
    (h : LosslessEntries pairs entries) : entries.length = pairs.length := by
  induction pairs generalizing entries with
  | nil =>
    cases entries with
    | nil => rfl
    | cons e entries => exact h.elim
  | cons p pairs ih =>
    cases entries with
    | nil => exact h.elim
    | cons e entries => rw [List.length_cons, List.length_cons, ih h.2.2]

theorem losslessEntries_assign_iff (h : toGoEntries pairs = .ok entries) :
    LosslessEntries pairs (GoValue.assign entries) ↔
      (pairs.map fun p => text p.1).Nodup ∧ LosslessEntries pairs entries := by
  have htexts := toGoEntries_texts h
  have hnodup : (pairs.map fun p => text p.1).Nodup ↔ GoValue.assign entries = entries := by
    rw [htexts, GoValue.assign, List.pwFilter_eq_self, List.Nodup, List.pairwise_map]
    simp
  constructor
  · intro hl
    have hlen := congrArg List.length htexts
    rw [List.length_map, List.length_map] at hlen
    have heq : GoValue.assign entries = entries :=
      (List.pwFilter_sublist entries).eq_of_length (hl.length.trans hlen)
    exact ⟨hnodup.2 heq, heq ▸ hl⟩
  · rintro ⟨hd, hl⟩
    rwa [hnodup.1 hd]

mutual

theorem lossless_iff : ∀ (v : Value) {g : GoValue}, toGoValue v = .ok g →
    (Lossless v g ↔ DistinctTexts v)
  | .vector items, _, h | .list items, _, h => by
    rw [toGoValue, except_bind_eq_ok_iff] at h
    obtain ⟨result, hr, ⟨⟩⟩ := h
    exact losslessItems_iff items hr
  | .map pairs, _, h => by
    rw [toGoValue, except_bind_eq_ok_iff] at h
    obtain ⟨entries, hes, ⟨⟩⟩ := h
    rw [Lossless, losslessEntries_assign_iff hes, losslessEntries_iff pairs hes, DistinctTexts]
  | .nil, _, _ | .bool _, _, _ | .int _, _, _ | .float _, _, _ | .string _, _, _
  | .keyword _, _, _ | .symbol _, _, _ => by simp [Lossless, DistinctTexts]
  | .goFunc _ _, _, h | .lambda _ _ _ _ _, _, h | .macroVal _ _ _ _ _, _, h
  | .closure _ _ _, _, h | .recurVal _, _, h | .cellBox _, _, h => nomatch h

theorem losslessItems_iff : ∀ (items : List Value) {result : List GoValue},
    toGoValues items = .ok result → (LosslessItems items result ↔ DistinctItems items)
  | [], _, h => by
    cases h
    simp [LosslessItems, DistinctItems]
  | item :: items, _, h => by
    simp only [toGoValues, except_bind_eq_ok_iff] at h
    obtain ⟨v, hv, result, hr, ⟨⟩⟩ := h
    rw [LosslessItems, DistinctItems, lossless_iff item hv, losslessItems_iff items hr]

theorem losslessEntries_iff : ∀ (pairs : List (Value × Value)) {entries : List (String × GoValue)},
    toGoEntries pairs = .ok entries → (LosslessEntries pairs entries ↔ DistinctValues pairs)
  | [], _, h => by
    cases h
    simp [LosslessEntries, DistinctValues]
  | (k, v) :: pairs, _, h => by
    obtain ⟨s, value, entries, hs, hv, hes, rfl⟩ := toGoEntries_cons h
    rw [LosslessEntries, DistinctValues, lossless_iff v hv, losslessEntries_iff pairs hes]
    simp [hs]

end

/-- The value of a stored map whose keys are read as values: the pairs that `Each` visits. -/
def ofHashMap (unkey : Key → Value) (h : HashMap Value) : Value :=
  .map (h.pairs.map fun p => (unkey p.1, p.2))

/-- Where `ToGoValue` succeeds, the Go value has an element for every element and an entry for
every entry exactly when no map of the value has two keys of one text. Two maps with the same
pairs, built by whatever operations, have one Go value. -/
theorem toGoValue_lossless_iff (v : Value) (g : GoValue) (h : toGoValue v = .ok g) :
    (Lossless v g ↔ DistinctTexts v) ∧
    ∀ (unkey : Key → Value) (ops₁ ops₂ : List (HashMap.Op Value))
      (pool₁ pool₂ : List (HashMap Value)) (h₁ h₂ : HashMap Value),
      HashMap.run [HashMap.newHashMap] ops₁ = some pool₁ → h₁ ∈ pool₁ →
      HashMap.run [HashMap.newHashMap] ops₂ = some pool₂ → h₂ ∈ pool₂ →
      (∀ p, p ∈ h₁.pairs ↔ p ∈ h₂.pairs) →
      toGoValue (ofHashMap unkey h₁) = toGoValue (ofHashMap unkey h₂) := by
  refine ⟨lossless_iff v h, ?_⟩
  intro unkey ops₁ ops₂ pool₁ pool₂ h₁ h₂ hrun₁ hmem₁ hrun₂ hmem₂ hsame
  obtain ⟨f₁, ht₁⟩ := HashMap.reached_tracked hrun₁ h₁ hmem₁
  obtain ⟨f₂, ht₂⟩ := HashMap.reached_tracked hrun₂ h₂ hmem₂
  rw [ofHashMap, ofHashMap, HashMap.pairs, HashMap.pairs, ht₁.sortedListing_eq ht₂ hsame]

/-- One text may be a key of a map, a key of a map in it and an element. -/
theorem toGoValue_lossless_nested :
    let inner := Value.map [(.string "a", .bool true)]
    let v := Value.list [.map [(.keyword "a", .vector [.int 1, .nil]), (.symbol "b", inner)],
      .string "a"]
    let g := .slice [.map [("a", .slice [.int 1, .nil]), ("b", .map [("a", .bool true)])],
      .string "a"]
    toGoValue v = .ok g ∧ Lossless v g := by
  intro inner v g
  have h : toGoValue v = .ok g := rfl
  refine ⟨h, (toGoValue_lossless_iff v g h).1.2 ?_⟩
  simp [v, inner, DistinctTexts, DistinctItems, DistinctValues, text]

/-- The keyword and the string of one text leave one entry. -/
theorem toGoValue_drops_entry : toGoValue (.map [(.keyword "a", .int 2), (.string "a", .int 1)]) =
      .ok (.map [("a", .int 1)]) ∧
    ¬ Lossless (.map [(.keyword "a", .int 2), (.string "a", .int 1)]) (.map [("a", .int 1)]) :=
  ⟨rfl, fun h => h.2.2⟩

end Value

end Core

end Lispico
