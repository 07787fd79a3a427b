import Mathlib

/-!
# Exact integers among JSON numbers

`exactInt` decides on the text of a JSON number whether the decimal it denotes is an integer
of 64 bits. The exponent saturates, zeros at either end are dropped, and at most 19 digits
are accumulated.
-/

namespace Lispico

namespace Json

open List

def digit (c : Char) : Nat := c.toNat - 48

def satExp (bound : Nat) : Nat → List Char → Nat
  | exp, [] => exp
  | exp, c :: es => if exp ≥ bound then exp else satExp bound (exp * 10 + digit c) es

/-- The loop that drops trailing zeros, over the digits from the last one on. -/
def dropTrailing : List Char → Int → List Char × Int
  | [], scale => ([], scale)
  | c :: cs, scale =>
    if scale < 0 ∧ c = '0' then dropTrailing cs (scale + 1) else (c :: cs, scale)

def signed (neg : Bool) (mag : UInt64) : Option Int64 :=
  if neg then
    if mag > 9223372036854775808 then none
    else if mag = 9223372036854775808 then some Int64.minValue
    else some (-mag.toInt64)
  else if mag > 9223372036854775807 then none
  else some mag.toInt64

def scaled (neg : Bool) (digits : List Char) (scale : Int) : Option Int64 :=
  let digits := digits.dropWhile (· = '0')
  if digits = [] then some 0
  else
    let (rdigits, scale) := dropTrailing digits.reverse scale
    if scale < 0 ∨ rdigits.length + scale > 19 then none
    else
      let mag := rdigits.reverse.foldl (fun mag c => mag * 10 + (digit c).toUInt64) 0
      signed neg ((· * 10)^[scale.toNat] mag)

def exponent (bound : Nat) : List Char → Int
  | '-' :: es => -satExp bound 0 es
  | '+' :: es => satExp bound 0 es
  | es => satExp bound 0 es

-- The offsets of the point and of the exponent mark cut the text; a number has at most one of
-- each.
def exactInt (text : List Char) : Option Int64 :=
  let neg := text.head? = some '-'
  let s := if neg then text.tail else text
  let mantissa := s.takeWhile fun c => c ≠ 'e' ∧ c ≠ 'E'
  let frac := (mantissa.dropWhile (· ≠ '.')).tail
  let exp := match s.dropWhile fun c => c ≠ 'e' ∧ c ≠ 'E' with
    | _ :: es => exponent (s.length + 20) es
    | [] => 0
  scaled neg (mantissa.takeWhile (· ≠ '.') ++ frac) (exp - frac.length)

inductive ExpSign where
  | none
  | plus
  | minus

/-- A number of the JSON grammar, where leading zeros are allowed too. No digits after the
point stand for no point; an exponent is its mark, its sign and its digits. -/
structure Number where
  neg : Bool
  int : List Char
  frac : List Char
  exp : Option (Char × ExpSign × List Char)
  int_ne_nil : int ≠ []
  isDigit : ∀ c ∈ int ++ frac, c.isDigit
  exp_digits : ∀ e ∈ exp, (e.1 = 'e' ∨ e.1 = 'E') ∧ e.2.2 ≠ [] ∧ ∀ c ∈ e.2.2, c.isDigit

def numeral (cs : List Char) : Nat := cs.foldl (fun n c => n * 10 + digit c) 0

namespace Number

def fracText (n : Number) : List Char := if n.frac = [] then [] else '.' :: n.frac

def signText : ExpSign → List Char
  | .none => []
  | .plus => ['+']
  | .minus => ['-']

def expText (n : Number) : List Char := n.exp.elim [] fun e => e.1 :: (signText e.2.1 ++ e.2.2)

def text (n : Number) : List Char :=
  (if n.neg then ['-'] else []) ++ (n.int ++ n.fracText ++ n.expText)

def expValue (n : Number) : Int :=
  match n.exp with
  | none => 0
  | some (_, .minus, es) => -numeral es
  | some (_, _, es) => numeral es

def value (n : Number) : ℚ :=
  (if n.neg then -1 else 1) * numeral (n.int ++ n.frac) * 10 ^ (n.expValue - n.frac.length)

end Number

variable {c : Char}

theorem isDigit_bounds (h : c.isDigit) : 48 ≤ c.toNat ∧ c.toNat ≤ 57 := by
  simpa [Char.isDigit, UInt32.le_iff_toNat_le] using h

theorem digit_lt (h : c.isDigit) : digit c < 10 := by
  have := isDigit_bounds h
  unfold digit
  omega

theorem digit_eq_zero_iff (h : c.isDigit) : digit c = 0 ↔ c = '0' := by
  have := isDigit_bounds h
  constructor
  · intro h0
    have hn : c.toNat = '0'.toNat := by
      unfold digit at h0
      change c.toNat = 48
      omega
    exact Char.toNat_inj.1 hn
  · rintro rfl
    rfl

variable (cs : List Char) (neg : Bool) (mag : UInt64)

theorem numeral_concat (c : Char) : numeral (cs ++ [c]) = numeral cs * 10 + digit c := by
  rw [numeral, foldl_append]
  rfl

theorem numeral_cons (c : Char) (cs : List Char) :
    numeral (c :: cs) = digit c * 10 ^ cs.length + numeral cs := by
  induction cs using List.reverseRecOn with
  | nil => simp [numeral]
  | append_singleton cs d ih =>
    rw [← cons_append, numeral_concat, numeral_concat, ih, length_append,
      length_singleton, pow_succ]
    ring

theorem numeral_lt {cs : List Char} (h : ∀ c ∈ cs, c.isDigit) : numeral cs < 10 ^ cs.length := by
  induction cs with
  | nil => simp [numeral]
  | cons c cs ih =>
    have hc := digit_lt (h c (by simp))
    have hcs := ih fun d hd => h d (by simp [hd])
    rw [numeral_cons, length_cons, pow_succ]
    nlinarith

theorem numeral_dropWhile : numeral (cs.dropWhile (· = '0')) = numeral cs := by
  induction cs with
  | nil => rfl
  | cons c cs ih =>
    by_cases hc : c = '0'
    · subst hc
      rw [dropWhile_cons_of_pos (by simp), ih, numeral_cons]
      simp [digit]
    · rw [dropWhile_cons_of_neg (by simpa using hc)]

theorem le_numeral {cs : List Char} (h : ∀ c ∈ cs, c.isDigit) (hne : cs ≠ [])
    (hhead : cs.head hne ≠ '0') : 10 ^ (cs.length - 1) ≤ numeral cs := by
  cases cs with
  | nil => exact absurd rfl hne
  | cons c cs =>
    have hc : digit c ≠ 0 := fun h0 => hhead ((digit_eq_zero_iff (h c (by simp))).1 h0)
    rw [numeral_cons, length_cons, Nat.add_sub_cancel]
    exact le_add_right (Nat.le_mul_of_pos_left _ (Nat.pos_of_ne_zero hc))

/-- The result of dropping trailing zeros denotes the same, and ends in a digit other than
zero if the scale is still negative. -/
theorem dropTrailing_spec (scale : Int) : ∃ zs, cs = zs ++ (dropTrailing cs scale).1 ∧
      (numeral cs.reverse : ℚ) * 10 ^ scale =
        numeral (dropTrailing cs scale).1.reverse * 10 ^ (dropTrailing cs scale).2 ∧
      ((dropTrailing cs scale).2 < 0 → (dropTrailing cs scale).1.head? ≠ some '0') := by
  induction cs generalizing scale with
  | nil => exact ⟨[], rfl, rfl, fun _ => by simp [dropTrailing]⟩
  | cons c cs ih =>
    rw [dropTrailing]
    split
    · rename_i h
      obtain ⟨zs, hzs, hval, hlast⟩ := ih (scale + 1)
      refine ⟨c :: zs, by rw [cons_append, ← hzs], ?_, hlast⟩
      rw [← hval, reverse_cons, numeral_concat, h.2, zpow_add_one₀ (by norm_num)]
      simp [digit]
      ring
    · rename_i h
      exact ⟨[], rfl, rfl, fun hneg hc => h ⟨hneg, by simpa using hc⟩⟩

theorem signed_iff (v : Int64) :
    signed neg mag = some v ↔ (if neg then -1 else 1) * (mag.toNat : Int) = v.toInt := by
  have hlt := mag.toNat_lt
  have hv := Int64.le_toInt v
  have hv' := Int64.toInt_lt v
  have hmag : mag.toNat < 2 ^ 63 → mag.toInt64.toInt = mag.toNat := by
    intro h
    change mag.toBitVec.toInt = _
    rw [BitVec.toInt_eq_toNat_bmod, Int.bmod_def]
    have : mag.toBitVec.toNat = mag.toNat := rfl
    omega
  have hmin : mag = 9223372036854775808 ↔ mag.toNat = 9223372036854775808 := UInt64.toNat_inj.symm
  have hover : mag > 9223372036854775808 ↔ 9223372036854775808 < mag.toNat :=
    UInt64.lt_iff_toNat_lt
  have hmax : mag > 9223372036854775807 ↔ 9223372036854775807 < mag.toNat :=
    UInt64.lt_iff_toNat_lt
  have hleast : Int64.minValue.toInt = -9223372036854775808 := rfl
  cases neg with
  | true =>
    simp only [signed, if_true, hover, hmin]
    split
    · simp
      omega
    · rw [← apply_ite some, Option.some_inj, ← Int64.toInt_inj]
      split
      · omega
      · rw [Int64.toInt_neg, hmag (by omega), Int.bmod_def]
        omega
  | false =>
    simp only [signed, hmax, Bool.false_eq_true, if_false]
    split
    · simp
      omega
    · rw [Option.some_inj, ← Int64.toInt_inj, hmag (by omega), one_mul]

theorem toNat_accumulate :
    (cs.foldl (fun mag c => mag * 10 + (digit c).toUInt64) (0 : UInt64)).toNat =
      numeral cs % 2 ^ 64 := by
  induction cs using List.reverseRecOn with
  | nil => rfl
  | append_singleton cs c ih =>
    rw [foldl_append, foldl_cons, foldl_nil, UInt64.toNat_add, UInt64.toNat_mul,
      ih, numeral_concat, show (10 : UInt64).toNat = 10 from rfl]
    have hd : (digit c).toUInt64.toNat = digit c % 2 ^ 64 := UInt64.toNat_ofNat'
    omega

theorem toNat_scaleUp (k : Nat) : ((· * 10)^[k] mag).toNat = mag.toNat * 10 ^ k % 2 ^ 64 := by
  induction k with
  | zero => simp [Nat.mod_eq_of_lt mag.toNat_lt]
  | succ k ih =>
    rw [Function.iterate_succ_apply', UInt64.toNat_mul, ih, pow_succ 10 k, ← mul_assoc,
      show (10 : UInt64).toNat = 10 from rfl]
    omega

theorem scaled_iff {digits : List Char} (h : ∀ c ∈ digits, c.isDigit) (scale : Int)
    (v : Int64) : scaled neg digits scale = some v ↔
      (if neg then -1 else 1) * (numeral digits : ℚ) * 10 ^ scale = v.toInt := by
  have hv := Int64.le_toInt v
  have hv' := Int64.toInt_lt v
  rw [scaled, ← numeral_dropWhile digits]
  have hds : ∀ c ∈ digits.dropWhile (· = '0'), c.isDigit := fun c hc =>
    h c ((dropWhile_sublist _).mem hc)
  have hfirst : ∀ hne, (digits.dropWhile (· = '0')).head hne ≠ '0' := fun hne h0 => by
    simpa [h0] using head_dropWhile_not (· = '0') hne
  generalize digits.dropWhile (· = '0') = ds at *
  by_cases hnil : ds = []
  · subst hnil
    rw [if_pos rfl, Option.some_inj, ← Int64.toInt_inj]
    simp [numeral, eq_comm]
  rw [if_neg hnil]
  obtain ⟨zs, hzs, hval, hlast⟩ := dropTrailing_spec ds.reverse scale
  rw [reverse_reverse] at hval
  have hpre : ds = (dropTrailing ds.reverse scale).1.reverse ++ zs.reverse := by
    rw [← reverse_append, ← hzs, reverse_reverse]
  rw [mul_assoc, hval]
  have hpos : 0 < numeral ds := lt_of_lt_of_le (by positivity) (le_numeral hds hnil (hfirst hnil))
  generalize dropTrailing ds.reverse scale = p at *
  obtain ⟨r, sc⟩ := p
  dsimp only at *
  have hm : numeral r.reverse ≠ 0 := by
    intro h0
    rw [h0, Nat.cast_zero, zero_mul, mul_eq_zero, Nat.cast_eq_zero] at hval
    exact hval.elim hpos.ne' (zpow_ne_zero _ (by norm_num))
  have hr : r.reverse ≠ [] := fun h0 => hm (by rw [h0]; rfl)
  have hlow : 10 ^ (r.length - 1) ≤ numeral r.reverse := by
    have := le_numeral (fun c hc => hds c (by rw [hpre]; exact mem_append_left _ hc)) hr ?_
    · rwa [length_reverse] at this
    · have := hfirst hnil
      simp only [hpre] at this
      rwa [head_append_left hr] at this
  by_cases hneg : sc < 0
  · rw [if_pos (.inl hneg)]
    refine ⟨nofun, fun heq => ?_⟩
    -- The last digit is not zero, so what is denoted is no integer.
    obtain ⟨k, hk⟩ : ∃ k : Nat, sc = -((k + 1 : Nat) : Int) := ⟨(-sc).toNat - 1, by omega⟩
    have hten : (10 : Int) ∣ numeral r.reverse := by
      rw [hk, zpow_neg, zpow_natCast, pow_succ] at heq
      have hq : (numeral r.reverse : ℚ) = (if neg then -1 else 1) * v.toInt * 10 ^ k * 10 := by
        rw [← heq]
        cases neg <;> simp <;> field_simp
      exact ⟨(if neg then -1 else 1) * v.toInt * 10 ^ k, by
        rw [mul_comm]
        exact_mod_cast hq⟩
    cases r with
    | nil => exact absurd rfl hr
    | cons c r =>
      have hc : c.isDigit := hds c (by simp [hpre])
      have h0 : digit c ≠ 0 := fun h0 => hlast hneg (by simp [(digit_eq_zero_iff hc).1 h0])
      have hlt := digit_lt hc
      rw [reverse_cons, numeral_concat] at hten
      omega
  · obtain ⟨k, rfl⟩ : ∃ k : Nat, sc = k := ⟨sc.toNat, by omega⟩
    have hlen : 0 < r.length := List.length_pos_iff.2 fun h0 => hr (by rw [h0]; rfl)
    have hprod : 10 ^ (r.length - 1 + k) ≤ numeral r.reverse * 10 ^ k := by
      rw [pow_add]
      exact Nat.mul_le_mul_right _ hlow
    have hcast : (if neg then -1 else 1) * ((numeral r.reverse : ℚ) * 10 ^ (k : Int)) = v.toInt ↔
        (if neg then -1 else 1) * ((numeral r.reverse * 10 ^ k : Nat) : Int) = v.toInt := by
      rw [zpow_natCast, ← Int.cast_inj (α := ℚ)]
      push_cast
      rfl
    rw [hcast]
    by_cases hmany : r.length + (k : Int) > 19
    · rw [if_pos (.inr hmany)]
      have := Nat.pow_le_pow_right (n := 10) (by norm_num) (show 19 ≤ r.length - 1 + k by omega)
      generalize numeral r.reverse * 10 ^ k = mag at *
      refine ⟨nofun, fun heq => ?_⟩
      split at heq <;> omega
    · have hupper : numeral r.reverse * 10 ^ k < 2 ^ 64 := by
        have hlt := @numeral_lt r.reverse fun c hc =>
          hds c (by rw [hpre]; exact mem_append_left _ hc)
        have h19 := Nat.pow_le_pow_right (n := 10) (by norm_num) (show r.length + k ≤ 19 by omega)
        calc numeral r.reverse * 10 ^ k < 10 ^ r.reverse.length * 10 ^ k :=
              Nat.mul_lt_mul_of_pos_right hlt (by positivity)
          _ = 10 ^ (r.length + k) := by rw [length_reverse, pow_add]
          _ ≤ 10 ^ 19 := h19
          _ < 2 ^ 64 := by norm_num
      have hsmall : numeral r.reverse < 2 ^ 64 :=
        (Nat.le_mul_of_pos_right _ (by positivity)).trans_lt hupper
      rw [if_neg (not_or.2 ⟨hneg, hmany⟩), signed_iff, toNat_scaleUp, toNat_accumulate,
        Int.toNat_natCast, Nat.mod_eq_of_lt hsmall, Nat.mod_eq_of_lt hupper]

theorem satExp_spec (bound e : Nat) (cs : List Char) :
    satExp bound e cs = e * 10 ^ cs.length + numeral cs ∨
      bound ≤ satExp bound e cs ∧ bound ≤ e * 10 ^ cs.length + numeral cs := by
  induction cs generalizing e with
  | nil => simp [satExp, numeral]
  | cons c cs ih =>
    rw [satExp, length_cons, numeral_cons]
    split
    · rename_i h
      have := Nat.le_mul_of_pos_right e (pow_pos (show 0 < 10 by norm_num) (cs.length + 1))
      exact .inr ⟨h, by omega⟩
    · have hstep : e * 10 ^ (cs.length + 1) + (digit c * 10 ^ cs.length + numeral cs) =
          (e * 10 + digit c) * 10 ^ cs.length + numeral cs := by ring
      rw [hstep]
      exact ih _

theorem not_denoted {cs : List Char} (h : ∀ c ∈ cs, c.isDigit)
    (hpos : 0 < numeral cs) {scale : Int} (hfar : 20 ≤ scale ∨ scale ≤ -cs.length) (v : Int64) :
    (if neg then -1 else 1) * (numeral cs : ℚ) * 10 ^ scale ≠ v.toInt := by
  intro heq
  have hv := Int64.le_toInt v
  have hv' := Int64.toInt_lt v
  have habs : (numeral cs : ℚ) * 10 ^ scale = |v.toInt| := by
    rw [Int.cast_abs, ← heq, abs_mul, abs_mul, abs_of_pos (show (0 : ℚ) < 10 ^ scale by positivity),
      Nat.abs_cast]
    cases neg <;> simp
  have hone : (1 : ℚ) ≤ numeral cs := by exact_mod_cast hpos
  rcases hfar with hlarge | hsmall
  · have hpow : (10 : ℚ) ^ (20 : Int) ≤ 10 ^ scale := zpow_le_zpow_right₀ (by norm_num) hlarge
    have hle : (10 : ℚ) ^ (20 : Int) ≤ |v.toInt| := by
      rw [← habs]
      nlinarith
    have : (10 : Int) ^ 20 ≤ |v.toInt| := by exact_mod_cast hle
    rw [le_abs] at this
    omega
  · have hlt : (numeral cs : ℚ) * 10 ^ scale < 1 := by
      have hnum : (numeral cs : ℚ) < 10 ^ cs.length := by exact_mod_cast numeral_lt h
      have hpow : (10 : ℚ) ^ scale ≤ 10 ^ (-(cs.length : Int)) :=
        zpow_le_zpow_right₀ (by norm_num) hsmall
      calc (numeral cs : ℚ) * 10 ^ scale < 10 ^ cs.length * 10 ^ scale :=
            mul_lt_mul_of_pos_right hnum (by positivity)
        _ ≤ 10 ^ cs.length * 10 ^ (-(cs.length : Int)) :=
            mul_le_mul_of_nonneg_left hpow (by positivity)
        _ = 1 := by
            rw [zpow_neg, zpow_natCast]
            exact mul_inv_cancel₀ (by positivity)
    have hgt : (0 : ℚ) < numeral cs * 10 ^ scale := by positivity
    rw [habs] at hlt hgt
    have h0 : 0 < |v.toInt| := by exact_mod_cast hgt
    have h1 : |v.toInt| < 1 := by exact_mod_cast hlt
    omega

theorem isDigit_ne {c d : Char} (h : c.isDigit) (hd : d.isDigit = false) : c ≠ d := by
  rintro rfl
  rw [h] at hd
  cases hd

namespace Number

variable (n : Number)

/-- The text after the sign. -/
def body : List Char := n.int ++ n.fracText ++ n.expText

/-- The exponent that is computed. -/
def satValue : Int :=
  n.exp.elim 0 fun e => exponent (n.body.length + 20) (signText e.2.1 ++ e.2.2)

theorem exactInt_text :
    exactInt n.text = scaled n.neg (n.int ++ n.frac) (n.satValue - n.frac.length) := by
  have hint : ∀ c ∈ n.int, c.isDigit := fun c hc => n.isDigit c (mem_append_left _ hc)
  have hneg : (n.text.head? = some '-') ↔ n.neg = true := by
    obtain ⟨c, cs, heq⟩ := exists_cons_of_ne_nil n.int_ne_nil
    have := isDigit_ne (hint c (by simp [heq])) (d := '-') rfl
    cases hn : n.neg <;> simp [text, hn, heq, this]
  have hbody : (if n.text.head? = some '-' then n.text.tail else n.text) = n.body := by
    by_cases h : n.neg = true
    · rw [if_pos (hneg.2 h), text, if_pos h]
      rfl
    · rw [if_neg (mt hneg.1 h), text, if_neg h]
      rfl
  have hmant : ∀ c ∈ n.int ++ n.fracText, decide (c ≠ 'e' ∧ c ≠ 'E') = true := by
    intro c hc
    have hc' : c ∈ n.int ++ n.frac ∨ c = '.' := by
      rw [fracText] at hc
      split at hc <;> simp_all
      tauto
    rcases hc' with h | rfl
    · simp [isDigit_ne (n.isDigit c h) (d := 'e') rfl, isDigit_ne (n.isDigit c h) (d := 'E') rfl]
    · rfl
  have hpoint : ∀ c ∈ n.int, decide (c ≠ '.') = true := fun c hc =>
    decide_eq_true (isDigit_ne (hint c hc) rfl)
  have hcut : n.expText.takeWhile (fun c => c ≠ 'e' ∧ c ≠ 'E') = [] ∧
      n.expText.dropWhile (fun c => c ≠ 'e' ∧ c ≠ 'E') = n.expText := by
    rw [expText]
    cases he : n.exp with
    | none => exact ⟨rfl, rfl⟩
    | some e => rcases (n.exp_digits e he).1 with h | h <;> simp [h]
  have hfrac : n.fracText.takeWhile (· ≠ '.') = [] ∧
      (n.fracText.dropWhile (· ≠ '.')).tail = n.frac := by
    rw [fracText]
    split <;> simp_all
  simp only [exactInt, hbody]
  rw [body, takeWhile_append_of_pos hmant, dropWhile_append_of_pos hmant, hcut.1, hcut.2,
    append_nil, takeWhile_append_of_pos hpoint, dropWhile_append_of_pos hpoint,
    hfrac.1, hfrac.2, append_nil, satValue, ← body]
  congr 1
  · simp [hneg]
  · cases he : n.exp <;> simp [expText, he]

/-- The computed exponent is the true one, or both are out of bounds on one side. -/
theorem satValue_spec : n.satValue = n.expValue ∨
    (n.body.length + 20 : Int) ≤ n.satValue ∧ (n.body.length + 20 : Int) ≤ n.expValue ∨
    n.satValue ≤ -(n.body.length + 20 : Int) ∧ n.expValue ≤ -(n.body.length + 20 : Int) := by
  rw [satValue, expValue]
  cases he : n.exp with
  | none => exact .inl rfl
  | some e =>
    obtain ⟨mark, sign, es⟩ := e
    have hsat := satExp_spec (n.body.length + 20) 0 es
    rw [zero_mul, zero_add] at hsat
    cases sign with
    | none =>
      obtain ⟨-, hne, hes⟩ := n.exp_digits _ he
      dsimp only at hne hes
      obtain ⟨c, cs, rfl⟩ := exists_cons_of_ne_nil hne
      have hplain : exponent (n.body.length + 20) (c :: cs) =
          satExp (n.body.length + 20) 0 (c :: cs) := by
        rw [exponent]
        · exact fun _ h => isDigit_ne (hes c (by simp)) rfl (List.cons.inj h).1
        · exact fun _ h => isDigit_ne (hes c (by simp)) rfl (List.cons.inj h).1
      simp only [Option.elim_some, signText, nil_append, hplain]
      omega
    | plus =>
      simp only [Option.elim_some, signText, cons_append, nil_append, exponent]
      omega
    | minus =>
      simp only [Option.elim_some, signText, cons_append, nil_append, exponent]
      omega

end Number

/-- For every JSON number, `exactInt` returns an integer exactly when the decimal it denotes is
that integer, and one of 64 bits. -/
theorem exactInt_iff (n : Number) (v : Int64) : exactInt n.text = some v ↔ n.value = v.toInt := by
  rw [n.exactInt_text, scaled_iff _ n.isDigit, Number.value]
  have hlen : (n.int ++ n.frac).length ≤ n.body.length := by
    rw [Number.body, Number.fracText]
    split
    · simp_all
    · simp only [length_append, length_cons]
      omega
  have hfrac : n.frac.length ≤ (n.int ++ n.frac).length := by simp
  rcases n.satValue_spec with h | h
  · rw [h]
  · rcases Nat.eq_zero_or_pos (numeral (n.int ++ n.frac)) with h0 | hpos
    · simp [h0]
    · exact iff_of_false (not_denoted _ n.isDigit hpos (by omega) v)
        (not_denoted _ n.isDigit hpos (by omega) v)

def twoPlaces (expSign : ExpSign) : Number where
  neg := true
  int := ['1', '2']
  frac := ['5', '0']
  exp := some ('e', expSign, ['1'])
  int_ne_nil := by simp
  isDigit := by simp
  exp_digits := by simp

/-- The exponent moves the point past the last digit that counts, or away from it. -/
theorem exactInt_of_two_places :
    (twoPlaces .plus).text = "-12.50e+1".toList ∧ (twoPlaces .minus).text = "-12.50e-1".toList ∧
      exactInt (twoPlaces .plus).text = some (-125) ∧
        ∀ v, exactInt (twoPlaces .minus).text ≠ some v := by
  have hplus : (twoPlaces .plus).value = -1 * (1250 : ℕ) * 10 ^ (((1 : ℕ) : ℤ) - 2) := rfl
  have hminus : (twoPlaces .minus).value = -1 * (1250 : ℕ) * 10 ^ (-((1 : ℕ) : ℤ) - 2) := rfl
  refine ⟨rfl, rfl, (exactInt_iff _ _).2 ?_, fun v hv => ?_⟩
  · have hv : (-125 : Int64).toInt = -125 := rfl
    rw [hplus, hv]
    norm_num
  · have hvalue := (exactInt_iff _ v).1 hv
    rw [hminus] at hvalue
    norm_num at hvalue
    have hscaled : (-5 : Int) = 4 * v.toInt := by
      exact_mod_cast (by linarith : (-5 : ℚ) = 4 * v.toInt)
    omega

end Json

end Lispico
