import Lispico.Core.FingerprintEqual
import Lispico.Core.SameContents
import Lispico.VM.Chunk

/-!
# What a constant pool gives back

`AddConstant` files a value under the index of an equal constant if there is one. So a load
gives back what was added, for every value of a sequence of additions, just when equal values
of the sequence hold the same. They need not: the two zeros are equal, and so are two builtins
of one name.
-/

namespace Lispico

namespace VM

open Lispico.Core List

/-- The values added one after the other: their indices, and the pool. -/
def addConstants : List Value → List Value → List Nat × List Value
  | pool, [] => ([], pool)
  | pool, v :: vs =>
    let added := addConstant pool v
    let rest := addConstants added.2 vs
    (added.1 :: rest.1, rest.2)

theorem addConstants_extends (pool vs : List Value) : pool <+: (addConstants pool vs).2 := by
  induction vs generalizing pool with
  | nil => exact prefix_refl pool
  | cons v vs ih => exact (addConstant_extends pool v).trans (ih _)

def Faithful (pool vs : List Value) : Prop :=
  List.Forall₂ (fun i v => ∃ c, (addConstants pool vs).2[i]? = some c ∧ Value.SameContents c v)
    (addConstants pool vs).1 vs

def Told (u v : Value) : Prop := u.equals v = true → Value.SameContents u v

def Interned (pool : List Value) : Prop := pool.Pairwise fun c d => c.equals d = false

variable {pool : List Value}

theorem Interned.eq (h : Interned pool) (hpool : ∀ c ∈ pool, c.WellFormed) {c d : Value}
    (hc : c ∈ pool) (hd : d ∈ pool) (heq : c.equals d = true) : c = d := by
  let Same (c d : Value) : Prop := c.WellFormed → d.WellFormed → c.equals d = true → c = d
  have hsymm : Std.Symm Same := ⟨fun c d hcd wd wc hdc =>
    (hcd wc wd (Value.boundedEquals_symm wd wc hdc)).symm⟩
  have hpair : pool.Pairwise Same := by
    refine .imp (fun hne _ _ hcd => ?_) h
    rw [hne] at hcd
    cases hcd
  exact hpair.forall_of_forall (fun _ _ _ _ _ => rfl) hc hd (hpool c hc) (hpool d hd) heq

variable {v : Value}

theorem Interned.append (h : Interned pool) (hnone : ∀ c ∈ pool, c.equals v = false) :
    Interned (pool ++ [v]) := by
  refine List.pairwise_append.2 ⟨h, pairwise_singleton _ v, fun c hc d hd => ?_⟩
  rw [List.mem_singleton.1 hd]
  exact hnone c hc

theorem findIndexFrom_eq_none {p : Value → Bool} {i : Nat} {cs : List Value}
    (h : findIndexFrom p i cs = none) : ∀ c ∈ cs, p c = false := by
  induction cs generalizing i with
  | nil => simp
  | cons c cs ih =>
    rw [findIndexFrom] at h
    split at h
    · cases h
    · rename_i hp
      rintro d (_ | ⟨_, hd⟩)
      · exact Bool.eq_false_iff.2 hp
      · exact ih h d hd

section

variable (hpool : ∀ c ∈ pool, c.WellFormed)

include hpool

theorem findConstant_eq_none (hv : v.WellFormed)
    (h : findConstant pool v = none) : ∀ c ∈ pool, c.equals v = false := by
  intro c hc
  unfold findConstant at h
  split at h
  · exact findIndexFrom_eq_none h c hc
  · rename_i fp hfp
    rw [Option.or_eq_none_iff] at h
    have hmiss := findIndexFrom_eq_none h.1 c hc
    rw [Bool.and_eq_false_iff] at hmiss
    rcases hmiss with hother | heq
    · by_contra hne
      rw [Bool.not_eq_false] at hne
      have hsame : fingerprint c = fingerprint v := by
        unfold fingerprint
        rw [Fingerprint.fingerprint_congr (hpool c hc) hv hne]
      rw [hsame, hfp, beq_self_eq_true] at hother
      cases hother
    · exact heq

theorem addConstant_cases (hv : v.WellFormed) :
    (∃ i c, addConstant pool v = (i, pool) ∧ pool[i]? = some c ∧ c.equals v = true) ∨
      addConstant pool v = (pool.length, pool ++ [v]) ∧ ∀ c ∈ pool, c.equals v = false := by
  unfold addConstant
  cases h : findConstant pool v with
  | some i =>
    obtain ⟨c, hc, heq⟩ := findConstant_spec h
    exact .inl ⟨i, c, rfl, hc, heq⟩
  | none => exact .inr ⟨rfl, findConstant_eq_none hpool hv h⟩

omit hpool in
theorem faithful_cons (pool : List Value) (v : Value) (vs : List Value) :
    Faithful pool (v :: vs) ↔
      (∃ c, (addConstant pool v).2[(addConstant pool v).1]? = some c ∧ Value.SameContents c v) ∧
        Faithful (addConstant pool v).2 vs := by
  obtain ⟨c, hc, -⟩ := addConstant_spec pool v
  have hlater : (addConstants (addConstant pool v).2 vs).2[(addConstant pool v).1]? = some c := by
    obtain ⟨more, hmore⟩ := addConstants_extends (addConstant pool v).2 vs
    rw [← hmore, getElem?_append_left (List.getElem?_eq_some_iff.1 hc).1, hc]
  unfold Faithful
  rw [addConstants, forall₂_cons, hlater, hc]

/-- Additions to a pool without equal constants are faithful just when equal values, among
those in the pool and those added, hold the same. -/
theorem faithful_iff {vs : List Value} (hvs : ∀ v ∈ vs, v.WellFormed) (hint : Interned pool) :
    Faithful pool vs ↔ (∀ c ∈ pool, ∀ v ∈ vs, Told c v) ∧ vs.Pairwise Told := by
  induction vs generalizing pool with
  | nil => simp [Faithful, addConstants]
  | cons v vs ih =>
    have hv := hvs v mem_cons_self
    have hvs' : ∀ w ∈ vs, w.WellFormed := fun w hw => hvs w (mem_cons_of_mem v hw)
    rw [faithful_cons, pairwise_cons]
    rcases addConstant_cases hpool hv with ⟨i, c, hadd, hc, heq⟩ | ⟨hadd, hnone⟩
    · have hmem := mem_of_getElem? hc
      have hc' := hpool c hmem
      rw [hadd, ih hpool hvs' hint, hc]
      constructor
      · rintro ⟨⟨_, ⟨⟩, hsame⟩, htold, hpair⟩
        refine ⟨fun d hd w hw => ?_, fun w hw hvw => ?_, hpair⟩
        · rcases List.mem_cons.1 hw with rfl | hw
          · intro hdw
            have hdc : d.equals c = true := Value.boundedEquals_trans (hpool d hd) hv hc' hdw
              (Value.boundedEquals_symm hc' hv heq)
            rw [hint.eq hpool hd hmem hdc]
            exact hsame
          · exact htold d hd w hw
        · have hcw : c.equals w = true :=
            Value.boundedEquals_trans hc' hv (hvs' w hw) heq hvw
          exact hsame.symm.trans (htold c hmem w hw hcw)
      · rintro ⟨htold, -, hpair⟩
        exact ⟨⟨c, rfl, htold c hmem v mem_cons_self heq⟩,
          fun d hd w hw => htold d hd w (mem_cons_of_mem v hw), hpair⟩
    · have hpool' : ∀ c ∈ pool ++ [v], c.WellFormed := by
        intro c hc
        rcases List.mem_append.1 hc with hc | hc
        · exact hpool c hc
        · rw [List.mem_singleton.1 hc]
          exact hv
      rw [hadd, ih hpool' hvs' (hint.append hnone)]
      constructor
      · rintro ⟨-, htold, hpair⟩
        refine ⟨fun d hd w hw => ?_, fun w hw => htold v (by simp) w hw, hpair⟩
        rcases List.mem_cons.1 hw with rfl | hw
        · intro hdw
          rw [hnone d hd] at hdw
          cases hdw
        · exact htold d (mem_append_left [v] hd) w hw
      · rintro ⟨htold, hhead, hpair⟩
        refine ⟨⟨v, by simp, hv.sameContents⟩, fun d hd w hw => ?_, hpair⟩
        rcases List.mem_append.1 hd with hd | hd
        · exact htold d hd w (mem_cons_of_mem v hw)
        · rw [List.mem_singleton.1 hd]
          exact hhead w hw

end

/-- The loads from a pool give back what was added, whatever was added in whatever order, just
when of the values added equal ones hold the same. -/
theorem constants_faithful_iff {vs : List Value} (hvs : ∀ v ∈ vs, v.WellFormed) :
    Faithful [] vs ↔ vs.Pairwise Told := by
  rw [faithful_iff (by simp) hvs List.Pairwise.nil]
  simp

theorem repeated_constant_faithful : Faithful [] [.float 0, .float 0] := by
  have hwf : (Value.float 0).WellFormed := .scalar rfl
  have hpair : [Value.float 0, .float 0].Pairwise Told := by
    rw [pairwise_pair]
    exact fun _ => hwf.sameContents
  exact (constants_faithful_iff (by simpa using hwf)).2 hpair

/-- The negative zero is loaded as the positive one that was added before it. -/
theorem negative_zero_lost : ¬ Faithful [] [.float 0, .float negZeroBits] := by
  intro h
  have hfirst : findConstant [] (.float 0) = none := by decide +kernel
  have hfound : findConstant [.float 0] (.float negZeroBits) = some 0 := by decide +kernel
  have hadded : addConstants [] [.float 0, .float negZeroBits] = ([0, 0], [.float 0]) := by
    simp [addConstants, addConstant, hfirst, hfound]
  unfold Faithful at h
  rw [hadded] at h
  cases h with
  | cons _ htail =>
    cases htail with
    | cons hload _ =>
      obtain ⟨c, hc, hsame⟩ := hload
      cases hc
      cases hsame

end VM

end Lispico
