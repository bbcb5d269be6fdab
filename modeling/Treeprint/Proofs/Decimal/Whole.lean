import Mathlib.Algebra.Order.Field.Power
import Mathlib.Algebra.Order.Field.Rat
import Mathlib.Tactic.NormNum
import Mathlib.Tactic.Ring
import Treeprint.Proofs.Reading.Scan

/-!
# Whole floats

The value of a pattern is the rational number that its three fields stand for (`Binary64.value`).
Up to its sign it is a multiple of `2^-1074`, the least subnormal number, and how many times
(`Binary64.steps`) grows strictly along the patterns, so that no two patterns with the same sign bit
have the same value.

A pattern whose value is whole is printed with all digits of the value and a place behind the point,
and a minus in front if the sign bit is set. Thus sign bit and value can be told from the text, and
so can the pattern. The text of an integer has no point.

Main statement: `Value.float_text_of_whole`.
-/

namespace Treeprint

namespace Text

theorem length_toString_le {n k : ℕ} (hk : 0 < k) (h : n < 10 ^ k) : (toString n).length ≤ k := by
  rw [← String.length_toList, toList_toString]
  exact (Nat.length_toDigits_le_iff (by decide) hk).mpr h

/-- No numeral but that of zero starts with a zero. -/
theorem tail_of_head_zero {n : ℕ} {t : List Char} (ht : (toString n).toList = '0' :: t) :
    t = [] := by
  rw [toList_toString] at ht
  induction n using Nat.strongRecOn generalizing t with
  | ind n ih =>
    rcases Nat.lt_or_ge n 10 with hn | hn
    · rw [Nat.toDigits_of_lt_base hn] at ht
      exact (List.cons.inj ht).2.symm
    · rw [Nat.toDigits_of_base_le (by decide) hn] at ht
      rcases hfront : Nat.toDigits 10 (n / 10) with _ | ⟨c, cs⟩
      · exact absurd hfront Nat.toDigits_ne_nil
      · rw [hfront, List.cons_append] at ht
        obtain rfl : c = '0' := (List.cons.inj ht).1
        obtain rfl : cs = [] := ih (n / 10) (by omega) hfront
        have hzero : n / 10 = 0 := by
          rw [← Nat.ofDigitChars_ten_toDigits (n := n / 10), hfront]
          rfl
        omega

end Text

namespace Binary64

def signBit (bits : UInt64) : Bool := bits.toBitVec.msb

def exponentField (bits : UInt64) : ℕ := (bits.toBitVec.extractLsb' 52 11).toNat

def fraction (bits : UInt64) : ℕ := (bits.toBitVec.extractLsb' 0 52).toNat

def IsFinite (bits : UInt64) : Prop := exponentField bits ≠ 2047

instance : DecidablePred IsFinite := fun bits =>
  inferInstanceAs (Decidable (exponentField bits ≠ 2047))

def magnitude (bits : UInt64) : ℚ :=
  if exponentField bits = 0 then fraction bits / 2 ^ 52 * 2 ^ (-1022 : ℤ)
  else (1 + fraction bits / 2 ^ 52) * 2 ^ (exponentField bits - 1023 : ℤ)

/-- The number that a finite pattern encodes. -/
def value (bits : UInt64) : ℚ := if signBit bits then -magnitude bits else magnitude bits

/-! ## Fields -/

theorem signBit_eq (bits : UInt64) :
    signBit bits = decide (bits.toNat / 0x8000000000000000 = 1) := by
  have hlt : bits.toNat < 2 ^ 64 := bits.toNat_lt
  rw [signBit, BitVec.msb_eq_decide, UInt64.toNat_toBitVec]
  congr 1
  rw [eq_iff_iff]
  omega

theorem exponentField_eq (bits : UInt64) : exponentField bits = bits.toNat / hiddenBit % 2048 := by
  rw [exponentField, BitVec.extractLsb'_toNat, Nat.shiftRight_eq_div_pow]
  rfl

theorem fraction_eq (bits : UInt64) : fraction bits = bits.toNat % hiddenBit := by
  rw [fraction, BitVec.extractLsb'_toNat, Nat.shiftRight_zero]
  rfl

theorem fraction_lt (bits : UInt64) : fraction bits < hiddenBit := by
  rw [fraction_eq]
  exact Nat.mod_lt _ (by decide)

theorem eq_of_fields {a b : UInt64} (hsign : signBit a = signBit b)
    (hfield : exponentField a = exponentField b) (hfraction : fraction a = fraction b) :
    a = b := by
  have ha : a.toNat < 2 ^ 64 := a.toNat_lt
  have hb : b.toNat < 2 ^ 64 := b.toNat_lt
  rw [signBit_eq, signBit_eq, decide_eq_decide] at hsign
  rw [exponentField_eq, exponentField_eq, hiddenBit] at hfield
  rw [fraction_eq, fraction_eq, hiddenBit] at hfraction
  apply UInt64.toNat_inj.mp
  omega

/-! ## Magnitudes -/

/-- The magnitude as a multiple of the least subnormal number. -/
def steps (field fraction : ℕ) : ℕ :=
  if field = 0 then fraction else (hiddenBit + fraction) * 2 ^ (field - 1)

theorem steps_lt {field fraction : ℕ} (h : fraction < hiddenBit) :
    steps field fraction < hiddenBit * 2 ^ field := by
  rw [steps]
  split
  · next hz => simpa [hz] using h
  · next hz =>
    obtain ⟨e, rfl⟩ := Nat.exists_eq_succ_of_ne_zero hz
    calc (hiddenBit + fraction) * 2 ^ e < (hiddenBit + hiddenBit) * 2 ^ e :=
          Nat.mul_lt_mul_of_pos_right (by omega) (by positivity)
      _ = hiddenBit * 2 ^ (e + 1) := by ring

theorem le_steps_of_lt {e field fraction : ℕ} (h : e < field) :
    hiddenBit * 2 ^ e ≤ steps field fraction := by
  rw [steps, if_neg (by omega)]
  exact Nat.mul_le_mul (by omega) (Nat.pow_le_pow_right (by decide) (by omega))

/-- Patterns with a larger exponent field are larger. -/
theorem steps_lt_steps {e f e' f' : ℕ} (hf : f < hiddenBit) (he : e < e') :
    steps e f < steps e' f' :=
  (steps_lt hf).trans_le (le_steps_of_lt he)

theorem steps_inj {e f e' f' : ℕ} (hf : f < hiddenBit) (hf' : f' < hiddenBit)
    (h : steps e f = steps e' f') : e = e' ∧ f = f' := by
  obtain hlt | rfl | hgt := Nat.lt_trichotomy e e'
  · exact absurd h (steps_lt_steps hf hlt).ne
  · refine ⟨rfl, ?_⟩
    simp only [steps] at h
    split at h
    · exact h
    · have := Nat.mul_right_cancel (by positivity) h
      omega
  · exact absurd h (steps_lt_steps hf' hgt).ne'

theorem div_mul_two_zpow (x : ℚ) (q : ℤ) : x / 2 ^ 52 * 2 ^ q = x * 2 ^ (q - 52) := by
  rw [zpow_sub₀ two_ne_zero, zpow_ofNat, div_mul_eq_mul_div, mul_div_assoc]

/-- The mantissa has the hidden bit unless the exponent field is 0. -/
theorem magnitude_eq (bits : UInt64) :
    magnitude bits =
      if exponentField bits = 0 then fraction bits * (2 : ℚ) ^ minExponent
      else (hiddenBit + fraction bits : ℕ) *
        (2 : ℚ) ^ (minExponent + (exponentField bits - 1 : ℕ)) := by
  rw [magnitude]
  split
  · rw [div_mul_two_zpow]
    rfl
  · next hz =>
    have hexponent : minExponent + (exponentField bits - 1 : ℕ) =
        (exponentField bits - 1023 : ℤ) - 52 := by
      rw [minExponent]
      omega
    rw [hexponent, ← div_mul_two_zpow, Nat.cast_add, add_div]
    norm_num [hiddenBit]

theorem magnitude_eq_steps (bits : UInt64) :
    magnitude bits = steps (exponentField bits) (fraction bits) * (2 : ℚ) ^ minExponent := by
  rw [magnitude_eq, steps]
  split
  · rfl
  · rw [zpow_add₀ two_ne_zero, zpow_natCast]
    push_cast
    ring

theorem magnitude_nonneg (bits : UInt64) : 0 ≤ magnitude bits := by
  rw [magnitude_eq_steps]
  positivity

theorem abs_value (bits : UInt64) : |value bits| = magnitude bits := by
  rw [value]
  split
  · rw [abs_neg, abs_of_nonneg (magnitude_nonneg bits)]
  · rw [abs_of_nonneg (magnitude_nonneg bits)]

theorem magnitude_of_value {bits : UInt64} {z : ℤ} (h : value bits = z) :
    magnitude bits = (z.natAbs : ℚ) := by
  rw [← abs_value, h, Nat.cast_natAbs, Int.cast_abs]

/-- Only the sign bit is lost in the magnitude. -/
theorem eq_of_magnitude {a b : UInt64} (hsign : signBit a = signBit b)
    (h : magnitude a = magnitude b) : a = b := by
  have hpow : (2 : ℚ) ^ minExponent ≠ 0 := zpow_ne_zero _ two_ne_zero
  rw [magnitude_eq_steps, magnitude_eq_steps, mul_left_inj' hpow, Nat.cast_inj] at h
  obtain ⟨hfield, hfraction⟩ := steps_inj (fraction_lt a) (fraction_lt b) h
  exact eq_of_fields hsign hfield hfraction

theorem magnitude_lt {bits : UInt64} (h : IsFinite bits) :
    magnitude bits < (2 : ℚ) ^ (1024 : ℤ) := by
  have hfield : exponentField bits < 2 ^ 11 := BitVec.isLt _
  have hsteps : (steps (exponentField bits) (fraction bits) : ℚ) <
      2 ^ (52 + exponentField bits : ℤ) := by
    have hlt := @steps_lt (exponentField bits) _ (fraction_lt bits)
    rw [show hiddenBit = 2 ^ 52 from rfl, ← pow_add] at hlt
    exact_mod_cast hlt
  rw [IsFinite] at h
  calc magnitude bits
      = steps (exponentField bits) (fraction bits) * (2 : ℚ) ^ minExponent :=
        magnitude_eq_steps bits
    _ < 2 ^ (52 + exponentField bits : ℤ) * 2 ^ minExponent :=
        mul_lt_mul_of_pos_right hsteps (by positivity)
    _ = 2 ^ (52 + exponentField bits + minExponent) := (zpow_add₀ two_ne_zero _ _).symm
    _ ≤ 2 ^ (1024 : ℤ) := zpow_le_zpow_right₀ one_le_two (by rw [minExponent]; omega)

theorem whole_lt {bits : UInt64} {n : ℕ} (hfinite : IsFinite bits) (h : magnitude bits = n) :
    n < 10 ^ 309 := by
  have hlt : (n : ℚ) < 2 ^ (1024 : ℤ) := h ▸ magnitude_lt hfinite
  have hlt' : n < 2 ^ 1024 := by exact_mod_cast hlt
  exact hlt'.trans (by decide +kernel)

/-- What is read from a finite pattern is its magnitude. -/
theorem ofBits_of_finite {bits : UInt64} (h : IsFinite bits) :
    ∃ m q, ofBits bits = .finite (signBit bits) m q ∧ magnitude bits = m * (2 : ℚ) ^ q := by
  rw [IsFinite, exponentField_eq] at h
  simp only [ofBits, if_neg h, signBit_eq, magnitude_eq, exponentField_eq, fraction_eq]
  split
  · exact ⟨_, _, rfl, rfl⟩
  · exact ⟨_, _, rfl, rfl⟩

theorem integral?_eq_some {m n : ℕ} {q : ℤ} (h : (m : ℚ) * 2 ^ q = n) :
    integral? m q = some n := by
  cases q with
  | ofNat q =>
    rw [Int.ofNat_eq_natCast, zpow_natCast] at h
    have hn : m * 2 ^ q = n := by exact_mod_cast h
    rw [integral?, Nat.pow_eq, hn]
  | negSucc k =>
    have hpow : (2 : ℚ) ^ (k + 1) ≠ 0 := pow_ne_zero _ two_ne_zero
    rw [zpow_negSucc, ← div_eq_mul_inv, div_eq_iff hpow] at h
    have hm : m = n * 2 ^ (k + 1) := by exact_mod_cast h
    rw [integral?, Nat.pow_eq, hm, if_pos (Nat.mul_mod_left _ _),
      Nat.mul_div_cancel _ (by positivity)]

end Binary64

/-! ## Texts -/

namespace Decimal

theorem floatText_of_whole {bits : UInt64} {n : ℕ} (hfinite : Binary64.IsFinite bits)
    (h : Binary64.magnitude bits = n) :
    floatText bits = signText (Binary64.signBit bits) ++ (toString n ++ ".0") := by
  obtain ⟨m, q, hbits, hm⟩ := Binary64.ofBits_of_finite hfinite
  rw [floatText, hbits]
  simp only [magnitudeText, Binary64.integral?_eq_some (hm.symm.trans h)]

theorem minus_not_mem_whole (n : ℕ) : '-' ∉ (toString n ++ ".0").toList := by
  intro h
  rw [String.toList_append, List.mem_append] at h
  rcases h with hdigit | hplace
  · exact absurd (Text.isDigit_of_mem_toString hdigit) (by decide)
  · exact absurd hplace (by decide)

theorem whole_inj {s s' : Bool} {n n' : ℕ}
    (h : signText s ++ (toString n ++ ".0") = signText s' ++ (toString n' ++ ".0")) :
    s = s' ∧ n = n' := by
  -- the sign is told from whether there is a minus at all
  have hminus : ∀ (s : Bool) (n : ℕ), '-' ∈ (signText s ++ (toString n ++ ".0")).toList ↔ s := by
    intro s n
    rw [String.toList_append, List.mem_append, or_iff_left (minus_not_mem_whole n)]
    cases s <;> simp [signText]
  have hsign : s = s' := by rw [Bool.eq_iff_iff, ← hminus s n, h, hminus]
  subst hsign
  have hlists := congrArg String.toList h
  simp only [String.toList_append, List.append_cancel_left_eq, List.append_cancel_right_eq]
    at hlists
  exact ⟨rfl, Text.toList_toString_inj hlists⟩

theorem whole_ne_toString (s : Bool) (m n : ℕ) :
    signText s ++ (toString m ++ ".0") ≠ toString n := by
  intro h
  have hpoint : '.' ∈ (toString n).toList := by simp [← h]
  exact absurd (Text.isDigit_of_mem_toString hpoint) (by decide)

end Decimal

theorem Doc.toText_text (ctx : Context) (s : String) : (Doc.text s).toText ctx = .ok s :=
  (Doc.toText_ok_iff _ _).mpr ⟨Doc.printable_text s 0 0, rfl⟩

/-- A float whose value is whole is printed as all digits of the value, at most 309 and with no
zero in front, between the sign and one place. Two of them have the same text exactly if they are
the same pattern, and none has the text of an integer. -/
theorem Value.float_text_of_whole {ctx : Context} {bits : UInt64} {z : ℤ}
    (hfinite : Binary64.IsFinite bits) (hvalue : Binary64.value bits = z) :
    (∀ k, (Value.float bits).doc.print ctx k = .ok () (k.wrote
      ((if Binary64.signBit bits then "-" else "") ++ (toString z.natAbs ++ ".0")) [])) ∧
    (toString z.natAbs).length ≤ 309 ∧
    (∀ t, (toString z.natAbs).toList = '0' :: t → t = []) ∧
    (∀ (bits' : UInt64) (z' : ℤ), Binary64.IsFinite bits' → Binary64.value bits' = z' →
      ((Node.value (.float bits)).render ctx = (Node.value (.float bits')).render ctx ↔
        bits = bits')) ∧
    ∀ n, (Node.value (.float bits)).render ctx ≠ (Node.value (.int n)).render ctx := by
  have hmagnitude := Binary64.magnitude_of_value hvalue
  have htext := Decimal.floatText_of_whole hfinite hmagnitude
  refine ⟨fun k => ?_, ?_, fun t ht => ?_, fun bits' z' hfinite' hvalue' => ?_, fun n h => ?_⟩
  · rw [doc, Doc.print, Printer.write_eq, htext]
    rfl
  · exact Text.length_toString_le (by decide) (Binary64.whole_lt hfinite hmagnitude)
  · exact Text.tail_of_head_zero ht
  · have hmagnitude' := Binary64.magnitude_of_value hvalue'
    have htext' := Decimal.floatText_of_whole hfinite' hmagnitude'
    refine ⟨fun h => ?_, fun h => by rw [h]⟩
    simp only [Node.render, Node.doc, doc, Doc.toText_text, Except.ok.injEq, htext, htext'] at h
    obtain ⟨hsign, habs⟩ := Decimal.whole_inj h
    exact Binary64.eq_of_magnitude hsign (by rw [hmagnitude, hmagnitude', habs])
  · simp only [Node.render, Node.doc, doc, Doc.toText_text, Except.ok.injEq, htext] at h
    exact Decimal.whole_ne_toString _ _ _ h

/-- The negative zero, which is not printed as zero is, and a number with more digits than any
integer literal. -/
theorem Value.float_text_of_whole_negative :
    let ctx : Context := ⟨.empty, 2⟩
    let zero : UInt64 := 0
    let negativeZero : UInt64 := 0x8000000000000000
    let large : UInt64 := 0xC450000000000000
    Binary64.value zero = 0 ∧ Binary64.value negativeZero = 0 ∧
    (Node.value (.float negativeZero)).render ctx ≠ (Node.value (.float zero)).render ctx ∧
    Binary64.value large = -1180591620717411303424 ∧
    ∀ k, (Value.float large).doc.print ctx k =
      .ok () (k.wrote "-1180591620717411303424.0" []) := by
  intro ctx zero negativeZero large
  have hzeros : ∀ {bits : UInt64}, Binary64.exponentField bits = 0 → Binary64.fraction bits = 0 →
      Binary64.value bits = (0 : ℤ) := by
    intro bits hfield hfraction
    simp [Binary64.value, Binary64.magnitude, hfield, hfraction]
  have hzero : Binary64.value zero = (0 : ℤ) := hzeros (by decide) (by decide)
  have hnegativeZero : Binary64.value negativeZero = (0 : ℤ) := hzeros (by decide) (by decide)
  have hlarge : Binary64.value large = (-1180591620717411303424 : ℤ) := by
    have hsign : Binary64.signBit large = true := by decide
    have hfield : Binary64.exponentField large = 1093 := by decide
    have hfraction : Binary64.fraction large = 0 := by decide
    norm_num [Binary64.value, Binary64.magnitude, hsign, hfield, hfraction]
  have hdiffer := (@Value.float_text_of_whole ctx _ _ (by decide) hnegativeZero).2.2.2.1
    zero 0 (by decide) hzero
  refine ⟨by exact_mod_cast hzero, by exact_mod_cast hnegativeZero,
    fun h => absurd (hdiffer.mp h) (by decide), by exact_mod_cast hlarge, fun k => ?_⟩
  have htext : (if Binary64.signBit large then "-" else "") ++
      (toString (-1180591620717411303424 : ℤ).natAbs ++ ".0") = "-1180591620717411303424.0" := by
    decide +kernel
  rw [(Value.float_text_of_whole (by decide) hlarge).1 k, htext]

end Treeprint
