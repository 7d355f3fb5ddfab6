import StackCalc.Proofs.Number.Shortest
import StackCalc.Proofs.Number.SignificantDigits

/-!
# Printed numbers

A number is printed with twelve significant digits. The text is that of its
exact value, rounded to so many digits: in scientific notation where the
exponent of what was rounded is below -4 or above 11, and in plain notation
otherwise. Zeros at the end are dropped, and the text reads back as the rounded
value.

- `exactValue x`: the rational that a double stands for.
- `decimalNotation k q`: `q` with `k` digits behind the point, the last one
  rounded.
- `generalNotation r`: the text of a value of twelve digits.
- `twoStepNotation v`: the text of any value, first rounded to twelve digits to
  find the exponent and then, in plain notation, once more as it is.

Rounding a value that has been rounded could go wrong, but it does not here:
both ways give the same text (`twoStepNotation_eq`).
-/

namespace StackCalc

open Float.Model (Format UnpackedFloat)
open Nearest

/-! ### Exact values -/

/-- The rational that a finite double stands for. -/
def exactValue (x : Float) : ℚ :=
  match x.toModel.unpack with
  | .finite .positive m e _ => m * 2 ^ e
  | .finite .negative m e _ => -(m * 2 ^ e)
  | _ => 0

section

variable (b : BitVec Format.binary64.numBits)

/-- The fraction is the last 52 bits. -/
theorem toNat_unpackMantissa :
    (@UnpackedFloat.unpackMantissa .binary64 b).toNat = b.toNat % 2 ^ 52 := by
  rw [UnpackedFloat.unpackMantissa, BitVec.toNat_cast, BitVec.extractLsb_toNat,
    Nat.shiftRight_zero]
  rfl

/-- The scale is the eleven bits in front of the fraction. -/
theorem toNat_unpackExponent :
    (@UnpackedFloat.unpackExponent .binary64 b).toNat = b.toNat / 2 ^ 52 % 2 ^ 11 := by
  rw [UnpackedFloat.unpackExponent, BitVec.toNat_cast, BitVec.extractLsb_toNat,
    Nat.shiftRight_eq_div_pow]
  rfl

theorem toNat_unpackSign :
    (@UnpackedFloat.unpackSign .binary64 b).toNat = b.toNat / 2 ^ 63 := by
  have hlt : b.toNat < 2 ^ 64 := b.isLt
  rw [UnpackedFloat.unpackSign, BitVec.toNat_cast, BitVec.extractLsb_toNat,
    Nat.shiftRight_eq_div_pow]
  show b.toNat / 2 ^ 63 % 2 = b.toNat / 2 ^ 63
  omega

end

section

variable {x : Float}

/-- The sign of a double. -/
def signOf (x : Float) : Float.Model.UnpackedFloat.Sign :=
  if isNegative x then .negative else .positive

/-- The sign of a double is what its first bit says. -/
theorem ofBitVec_unpackSign_eq (x : Float) :
    .ofBitVec (@UnpackedFloat.unpackSign .binary64 x.toModel.toBits.toBitVec) =
      signOf x := by
  have hsign := toNat_unpackSign x.toModel.toBits.toBitVec
  have hlt : x.toBits.toNat < 2 ^ 64 := x.toBits.toBitVec.isLt
  rw [show x.toModel.toBits.toBitVec.toNat = x.toBits.toNat from rfl] at hsign
  unfold Float.Model.UnpackedFloat.Sign.ofBitVec signOf isNegative
  by_cases hneg : Nat.pow 2 63 ≤ x.toBits.toNat
  · have hone : 2 ^ 63 ≤ x.toBits.toNat := hneg
    have hne : @UnpackedFloat.unpackSign .binary64 x.toModel.toBits.toBitVec ≠ 0#1 := by
      intro hzero
      rw [hzero] at hsign
      have : (0 : ℕ) = x.toBits.toNat / 2 ^ 63 := hsign
      omega
    rw [if_neg hne, decide_eq_true hneg]
    rfl
  · have hsmall : ¬ 2 ^ 63 ≤ x.toBits.toNat := hneg
    have heq : @UnpackedFloat.unpackSign .binary64 x.toModel.toBits.toBitVec = 0#1 := by
      apply BitVec.eq_of_toNat_eq
      rw [hsign]
      show x.toBits.toNat / 2 ^ 63 = 0
      omega
    rw [if_pos heq, decide_eq_false hneg]
    rfl

/-- The scale of a double, as it is stored. -/
def scaleBits (x : Float) : BitVec 11 :=
  @UnpackedFloat.unpackExponent .binary64 x.toModel.toBits.toBitVec

/-- The fraction of a double, as it is stored. -/
def fractionBits (x : Float) : BitVec 52 :=
  @UnpackedFloat.unpackMantissa .binary64 x.toModel.toBits.toBitVec

theorem ofFloat_eq (x : Float) :
    Binary.ofFloat x = if (scaleBits x).toNat = 0 then ⟨(fractionBits x).toNat, -1074⟩
      else ⟨2 ^ 52 + (fractionBits x).toNat, (scaleBits x).toNat - 1075⟩ := by
  rw [scaleBits, fractionBits, toNat_unpackExponent x.toModel.toBits.toBitVec,
    toNat_unpackMantissa x.toModel.toBits.toBitVec]
  rfl

/-- What a double stands for by its scale: with the largest one for no number,
with none for a fraction or zero, and else for a fraction behind a one. -/
theorem unpack_cases (x : Float) :
    x.toModel.unpack.isFinite = false ∨ (∃ s, x.toModel.unpack = .zero s) ∨
      (scaleBits x = 0#11 ∧
        ∃ h, x.toModel.unpack = .finite (signOf x) (fractionBits x).toNat (-1074) h) ∨
      (scaleBits x ≠ 0#11 ∧ scaleBits x ≠ -1#11 ∧
        ∃ h, x.toModel.unpack =
          .finite (signOf x) (2 ^ 52 + (fractionBits x).toNat)
            ((scaleBits x).toNat - 1075) h) := by
  have hunpack : x.toModel.unpack =
      UnpackedFloat.unpack .binary64 x.toModel.toBits.toBitVec := rfl
  have hbias : (Format.binary64.exponentBias : ℤ) +
      Format.binary64.mantissaBitsWithoutImplicit = 1075 := rfl
  unfold UnpackedFloat.unpack at hunpack
  dsimp only at hunpack
  rw [ofBitVec_unpackSign_eq x, hbias] at hunpack
  rw [hunpack, scaleBits, fractionBits]
  generalize x.toModel.toBits.toBitVec = b
  by_cases hall : @UnpackedFloat.unpackExponent .binary64 b = -1#11
  · rw [if_pos hall]
    left
    split <;> rfl
  rw [if_neg hall]
  by_cases hsmall : @UnpackedFloat.unpackExponent .binary64 b = 0#11
  · rw [if_pos hsmall]
    split
    case isTrue => exact .inr (.inl ⟨_, rfl⟩)
    case isFalse hne =>
      have hpos : 0 < (@UnpackedFloat.unpackMantissa .binary64 b).toNat :=
        Nat.pos_of_ne_zero fun h => hne (BitVec.eq_of_toNat_eq h)
      refine .inr (.inr (.inl ⟨hsmall, hpos, finite_congr rfl ?_⟩))
      rw [hsmall]
      rfl
  · rw [if_neg hsmall]
    have hfull := toNat_append_one (@UnpackedFloat.unpackMantissa .binary64 b)
    refine .inr (.inr (.inr ⟨hsmall, hall, by omega, ?_⟩))
    exact finite_congr hfull rfl

/-- The parts of a finite double other than zero are what is read off its bits. -/
theorem unpack_eq (hfinite : x.isFinite = true) (hzero : (x == 0.0) = false) :
    (∃ h, x.toModel.unpack = .finite (signOf x) (Binary.ofFloat x).coefficient
      (Binary.ofFloat x).exponent h) ∧
      (Binary.ofFloat x).coefficient < 2 ^ 53 ∧ -1074 ≤ (Binary.ofFloat x).exponent ∧
      (Binary.ofFloat x).exponent ≤ 971 := by
  have hlong := (fractionBits x).isLt
  have hmany := (scaleBits x).isLt
  rcases unpack_cases x with hnone | ⟨s, hunpack⟩ | ⟨hscale, h, hunpack⟩ |
    ⟨hpos, hall, h, hunpack⟩
  · have hfinite' : x.toModel.unpack.isFinite = true := hfinite
    rw [hnone] at hfinite'
    cases hfinite'
  · have hequal : UnpackedFloat.beq x.toModel.unpack (0.0 : Float).toModel.unpack =
        false := hzero
    rw [hunpack, zero_eq] at hequal
    cases hequal
  · have hparts := ofFloat_eq x
    rw [if_pos (by rw [hscale]; rfl)] at hparts
    rw [hparts]
    exact ⟨⟨h, hunpack⟩, by dsimp only; omega, le_refl _, by norm_num⟩
  · have hsome : (scaleBits x).toNat ≠ 0 := fun h => hpos (BitVec.eq_of_toNat_eq h)
    have hmany' : (scaleBits x).toNat ≠ 2047 := fun h => hall (BitVec.eq_of_toNat_eq h)
    have hparts := ofFloat_eq x
    rw [if_neg hsome] at hparts
    rw [hparts]
    refine ⟨⟨h, hunpack⟩, ?_⟩
    dsimp only
    omega

/-- Up to its sign, a double stands for the mantissa and the exponent that are
read off its bits. -/
theorem abs_exactValue (hfinite : x.isFinite = true) (hzero : (x == 0.0) = false) :
    |exactValue x| = (Binary.ofFloat x).coefficient *
      2 ^ (Binary.ofFloat x).exponent := by
  obtain ⟨⟨hpos, hunpack⟩, -⟩ := unpack_eq hfinite hzero
  have hvalue : (0 : ℚ) ≤ (Binary.ofFloat x).coefficient *
      2 ^ (Binary.ofFloat x).exponent :=
    mul_nonneg (Nat.cast_nonneg _) (zpow_pos two_pos _).le
  rw [exactValue, hunpack]
  cases signOf x with
  | positive => exact abs_of_nonneg hvalue
  | negative => exact (abs_neg _).trans (abs_of_nonneg hvalue)

/-- A finite double other than zero has a value other than zero, and the sign is
that of the value. -/
theorem exactValue_pos_or_neg (hfinite : x.isFinite = true) (hzero : (x == 0.0) = false) :
    0 < |exactValue x| ∧ (exactValue x < 0 ↔ isNegative x = true) := by
  obtain ⟨⟨hpos, hunpack⟩, -⟩ := unpack_eq hfinite hzero
  have hvalue : (0 : ℚ) < (Binary.ofFloat x).coefficient *
      2 ^ (Binary.ofFloat x).exponent :=
    mul_pos (Nat.cast_pos.2 hpos) (zpow_pos two_pos _)
  refine ⟨(abs_exactValue hfinite hzero).symm ▸ hvalue, ?_⟩
  rw [exactValue, hunpack, signOf]
  cases isNegative x with
  | false => exact iff_of_false hvalue.le.not_gt Bool.false_ne_true
  | true => exact iff_of_true (neg_neg_of_pos hvalue) rfl

theorem two_zpow_le_ten_zpow (k : ℕ) : (2 : ℚ) ^ (k : ℤ) ≤ 10 ^ (k : ℤ) := by
  rw [zpow_natCast, zpow_natCast]
  exact pow_le_pow_left₀ (by norm_num) (by norm_num) k

/-- The decimal exponents of doubles are small. -/
theorem log_exactValue_bounds (hfinite : x.isFinite = true) (hzero : (x == 0.0) = false) :
    -1074 ≤ Int.log 10 |exactValue x| ∧ Int.log 10 |exactValue x| < 1024 := by
  obtain ⟨⟨hpos, -⟩, hsmall, hlow, hhigh⟩ := unpack_eq hfinite hzero
  have hvalue := (exactValue_pos_or_neg hfinite hzero).1
  rw [abs_exactValue hfinite hzero] at hvalue ⊢
  have hone : (1 : ℚ) ≤ (Binary.ofFloat x).coefficient := by exact_mod_cast hpos
  have hmany : ((Binary.ofFloat x).coefficient : ℚ) < 2 ^ (53 : ℤ) := by
    exact_mod_cast hsmall
  have hlower : (10 : ℚ) ^ (-1074 : ℤ) ≤
      (Binary.ofFloat x).coefficient * 2 ^ (Binary.ofFloat x).exponent :=
    calc (10 : ℚ) ^ (-1074 : ℤ)
      _ ≤ 2 ^ (-1074 : ℤ) := by
        rw [zpow_neg, zpow_neg]
        exact inv_anti₀ (zpow_pos two_pos _) (two_zpow_le_ten_zpow 1074)
      _ ≤ 2 ^ (Binary.ofFloat x).exponent := zpow_le_zpow_right₀ (by norm_num) hlow
      _ ≤ _ := le_mul_of_one_le_left (zpow_pos two_pos _).le hone
  have hupper : (Binary.ofFloat x).coefficient * 2 ^ (Binary.ofFloat x).exponent <
      (10 : ℚ) ^ (1024 : ℤ) :=
    calc ((Binary.ofFloat x).coefficient : ℚ) * 2 ^ (Binary.ofFloat x).exponent
      _ < 2 ^ (53 : ℤ) * 2 ^ (Binary.ofFloat x).exponent :=
          mul_lt_mul_of_pos_right hmany (zpow_pos two_pos _)
      _ ≤ 2 ^ (53 : ℤ) * 2 ^ (971 : ℤ) :=
        mul_le_mul_of_nonneg_left (zpow_le_zpow_right₀ (by norm_num) hhigh)
          (zpow_pos two_pos _).le
      _ = 2 ^ (1024 : ℤ) := (zpow_add₀ (by norm_num) 53 971).symm
      _ ≤ 10 ^ (1024 : ℤ) := two_zpow_le_ten_zpow 1024
  exact ⟨(Int.zpow_le_iff_le_log (by norm_num) hvalue).1 hlower,
    (Int.lt_zpow_iff_log_lt (by norm_num) hvalue).1 hupper⟩

end

/-- The ratio of a double is its value. -/
theorem Binary.ratio_eq (b : Binary) :
    (b.ratio.1 / b.ratio.2 : ℚ) = b.coefficient * 2 ^ b.exponent := by
  unfold ratio
  split
  · rename_i he
    obtain ⟨k, hk⟩ := Int.eq_ofNat_of_zero_le he
    simp [hk]
  · rename_i he
    obtain ⟨k, hk⟩ : ∃ k : ℕ, b.exponent = -k := ⟨b.exponent.natAbs, by omega⟩
    simp [hk, div_eq_mul_inv]

theorem Binary.ratio_num_pos {b : Binary} (h : 0 < b.coefficient) : 0 < b.ratio.1 := by
  unfold ratio
  split
  · exact Nat.mul_pos h (Nat.pow_pos (by decide))
  · exact h

/-! ### Notation of rationals -/

/-- A rational with `k` digits behind the point, the last one rounded. -/
def decimalNotation (k : ℕ) (q : ℚ) : List Char :=
  Decimal.fixedNotation k (roundEven (q * 10 ^ k))

/-- An exponent with its sign and at least two digits. -/
def exponentPart (x : ℤ) : List Char :=
  'e' :: (if x < 0 then '-' else '+') ::
    (if x.natAbs < 10 then '0' :: Decimal.digits x.natAbs else Decimal.digits x.natAbs)

/-- A positive value of twelve digits: a mantissa and an exponent below `0.0001`
and from `10 ^ 12` on, and otherwise plain notation. Zeros at the end of the
digits are dropped. -/
def generalNotation (r : ℚ) : List Char :=
  let x := Int.log 10 r
  if x < -4 ∨ 12 ≤ x then stripZeros (decimalNotation 11 (r / 10 ^ x)) ++ exponentPart x
  else stripZeros (decimalNotation (11 - x).toNat r)

/-- A positive value in two steps. The first one rounds to twelve digits, which
gives the exponent, and the mantissa where one is written. In plain notation the
second one goes back to the value itself and rounds it where the twelve digits
end. -/
def twoStepNotation (v : ℚ) : List Char :=
  let x := Int.log 10 (roundTo 12 v)
  if x < -4 ∨ 12 ≤ x then
    stripZeros (decimalNotation 11 (roundTo 12 v / 10 ^ x)) ++ exponentPart x
  else stripZeros (decimalNotation (11 - x).toNat v)

/-- The exponent of scientific notation, written out. -/
theorem toList_exponentText (x : ℤ) :
    (Decimal.exponentText 2 x).toList = exponentPart x := by
  have hlength := Decimal.length_digits x.natAbs
  rw [Decimal.exponentText, String.toList_ofList, exponentPart]
  rw [hlength, Decimal.digitCount]
  by_cases hsmall : x.natAbs < 10
  · rw [if_pos hsmall, if_pos hsmall]
    rfl
  · rw [if_neg hsmall, if_neg hsmall]
    have hmore := Decimal.digitCount_pos (x.natAbs / 10)
    have hnone : 2 - (Decimal.digitCount (x.natAbs / 10) + 1) = 0 := by omega
    rw [hnone]
    rfl

/-! ### What rounding leaves -/

namespace Settles

variable {n c : ℕ} {v : ℚ} {x : ℤ}

theorem coefficient_pos (h : Settles n v c x) : 0 < c :=
  (Nat.pow_pos (by decide)).trans_le h.le

/-- The exponent of the leading digit is known from the place of the last. -/
theorem log_eq (h : Settles n v c x) : Int.log 10 (roundTo n v) = x + n - 1 := by
  have hplace := h.place_eq
  rw [lastDigitPlace] at hplace
  omega

/-- The coefficient and its exponent have the order of the rounded value. -/
theorem order_eq (h : Settles n v c x) :
    Decimal.order ⟨c, x⟩ = Int.log 10 (roundTo n v) := by
  rw [Decimal.order_eq_log h.coefficient_pos, h.value_eq]
  rfl

theorem digitCount_eq (h : Settles n v c x) : Decimal.digitCount c = n := by
  have horder := h.order_eq
  rw [h.log_eq, Decimal.order] at horder
  dsimp only at horder
  omega

/-- Trimming does not care whether rounding gave one digit more. -/
theorem trim_eq (h : Settles n v c x) :
    Decimal.trim ⟨roundEven (v / 10 ^ lastDigitPlace n v), lastDigitPlace n v⟩ =
      Decimal.trim ⟨c, x⟩ := by
  rcases h.cases_eq with ⟨hround, hplace⟩ | ⟨hround, hplace⟩
  · rw [hround, hplace]
  · have hpos := h.coefficient_pos
    rw [hround, Decimal.trim, if_neg (by dsimp only; omega),
      if_pos (Nat.mul_mod_right 10 c)]
    dsimp only
    rw [Nat.mul_div_cancel_left c (by decide), hplace]

/-- Before the digits are settled the coefficient is positive, too. -/
theorem unsettled_pos (h : Settles n v c x) :
    0 < roundEven (v / 10 ^ lastDigitPlace n v) := by
  have hc := h.coefficient_pos
  rcases h.cases_eq with ⟨hround, -⟩ | ⟨hround, -⟩ <;> omega

/-- The order is that of the rounded value before the digits are settled, too. -/
theorem order_unsettled (h : Settles n v c x) :
    Decimal.order ⟨roundEven (v / 10 ^ lastDigitPlace n v), lastDigitPlace n v⟩ =
      Int.log 10 (roundTo n v) :=
  Decimal.order_eq_log h.unsettled_pos

/-- Rounding raises the exponent of the leading digit by one at most. -/
theorem log_bounds (h : Settles n v c x) :
    Int.log 10 v ≤ Int.log 10 (roundTo n v) ∧
    Int.log 10 (roundTo n v) ≤ Int.log 10 v + 1 := by
  have hplace := h.cases_eq
  rw [lastDigitPlace] at hplace
  rw [h.log_eq]
  omega

/-- With the last digit of the rounded value, nothing is left to round. -/
theorem decimalNotation_eq (h : Settles n v c x) {k : ℕ} (hk : x = -k) :
    decimalNotation k v = Decimal.fixedNotation k c ∧
    decimalNotation k (roundTo n v) = Decimal.fixedNotation k c := by
  have hscale : ((10 : ℚ) ^ k) = (10 ^ x)⁻¹ := by rw [hk, zpow_neg, inv_inv, zpow_natCast]
  have hexact : roundTo n v * 10 ^ k = c := by
    rw [h.value_eq, hscale, mul_inv_cancel_right₀ (zpow_pos (by norm_num) x).ne']
  rw [decimalNotation, decimalNotation, hexact, roundEven_natCast, hscale,
    ← div_eq_mul_inv, h.round_eq]
  exact ⟨rfl, rfl⟩

/-- The mantissa of scientific notation has the digits of the coefficient. -/
theorem mantissa_eq {k : ℕ} (h : Settles (k + 1) v c x) :
    decimalNotation k (roundTo (k + 1) v / 10 ^ Int.log 10 (roundTo (k + 1) v)) =
      Decimal.fixedNotation k c := by
  have hlog : Int.log 10 (roundTo (k + 1) v) = x + k := by
    rw [h.log_eq]
    push_cast
    ring
  have hexact : roundTo (k + 1) v / 10 ^ (x + k) * 10 ^ k = c := by
    have hpos : (0 : ℚ) < 10 ^ x := zpow_pos (by norm_num) _
    rw [h.value_eq, zpow_add₀ (by norm_num), zpow_natCast]
    field_simp
  rw [hlog, decimalNotation, hexact, roundEven_natCast]

end Settles

/-- Both steps round alike: with as many digits as the rounded value has behind
the point, the value itself has the same text. -/
theorem twoStepNotation_eq {v : ℚ} (hv : 0 < v) :
    twoStepNotation v = generalNotation (roundTo 12 v) := by
  obtain ⟨c, place, hsettles⟩ := exists_settles (by decide : 0 < 12) hv
  have hlog := hsettles.log_eq
  rw [twoStepNotation, generalNotation]
  by_cases hrange : Int.log 10 (roundTo 12 v) < -4 ∨ 12 ≤ Int.log 10 (roundTo 12 v)
  · rw [if_pos hrange, if_pos hrange]
  · have hplace : place = -((11 - Int.log 10 (roundTo 12 v)).toNat : ℤ) := by
      push_cast at hlog
      omega
    obtain ⟨hexact, hrounded⟩ := hsettles.decimalNotation_eq hplace
    rw [if_neg hrange, if_neg hrange, hexact, hrounded]

/-- The text of the nearest decimal of twelve digits. -/
theorem write_significant {num den : ℕ} (hnum : 0 < num) (hden : 0 < den) :
    (NumberFormat.general.write (significant 12 num den)).toList =
      generalNotation (roundTo 12 (num / den)) := by
  have hpos : (0 : ℚ) < num / den := by positivity
  obtain ⟨c, x, hsettles⟩ := exists_settles (by decide : 0 < 12) hpos
  have hlog := hsettles.log_eq
  rw [significant_eq (by decide) hnum hden, NumberFormat.write, hsettles.order_unsettled,
    hsettles.trim_eq, generalNotation, NumberFormat.general]
  dsimp only
  -- the bounds of plain notation are the same for the decimal and for its value
  by_cases hrange : Int.log 10 (roundTo 12 (num / den : ℚ)) < -4 ∨
    12 ≤ Int.log 10 (roundTo 12 (num / den : ℚ))
  · rw [if_pos hrange, if_pos (by simpa using hrange),
      Decimal.scientific_trim hsettles.coefficient_pos hsettles.digitCount_eq,
      hsettles.order_eq, hsettles.mantissa_eq, toList_exponentText]
  · have hk : x = -((11 - Int.log 10 (roundTo 12 (num / den : ℚ))).toNat : ℤ) := by
      push_cast at hlog
      omega
    rw [if_neg hrange, if_neg (by simpa using hrange), (hsettles.decimalNotation_eq hk).2,
      Decimal.stripZeros_fixedNotation hsettles.coefficient_pos, ← hk]

/-! ### Reading back -/

/-- The exponent of scientific notation is one of a numeral. -/
theorem exists_exponent {x : ℤ} (hx : x.natAbs < 65536) :
    ∃ e : Exponent, e.text = (Decimal.exponentText 2 x).toList ∧ e.reading = x := by
  have hdigits := Decimal.isDigit_digits x.natAbs
  -- zeros in front bring the exponent to two digits and do not change it
  obtain ⟨zeros, hzeros⟩ : ∃ zeros,
    zeros = List.replicate (2 - (Decimal.digits x.natAbs).length) '0' := ⟨_, rfl⟩
  have hvalue : Decimal.ofDigits (zeros ++ Decimal.digits x.natAbs) = x.natAbs := by
    rw [hzeros, Decimal.ofDigits_zeros_append, Decimal.ofDigits_digits]
  have hreading : exponentValue (zeros ++ Decimal.digits x.natAbs) = x.natAbs := by
    rcases Numeral.exponentValue_cases (zeros ++ Decimal.digits x.natAbs) with
      heq | ⟨-, hlarge⟩
    · exact heq.trans hvalue
    · omega
  have hall : ∀ c ∈ zeros ++ Decimal.digits x.natAbs, Decimal.isDigit c := by
    rw [hzeros]
    exact List.forall_mem_append.2 ⟨Decimal.isDigit_zeros _, hdigits⟩
  have hne : zeros ++ Decimal.digits x.natAbs ≠ [] := by
    simp [Decimal.digits, Nat.toDigits_ne_nil]
  refine ⟨⟨'e', some (if x < 0 then '-' else '+'), _, .inl rfl, ?_, hne, hall⟩, ?_, ?_⟩
  · rintro c ⟨⟩
    split
    · exact .inr rfl
    · exact .inl rfl
  · rw [Decimal.exponentText, String.toList_ofList, ← hzeros]
    rfl
  · rw [Exponent.reading, Exponent.signed, hreading]
    by_cases hneg : x < 0
    · simp only [hneg, if_true]
      omega
    · simp only [hneg, if_false]
      rw [if_neg (by decide)]
      omega

/-- An exponent scales the value of a numeral. -/
theorem Numeral.value_decimal (n : Numeral) (x : ℤ) :
    (n.decimal x).value = (n.decimal 0).value * 10 ^ x := by
  rw [Decimal.value, Decimal.value, decimal, decimal]
  dsimp only
  rw [mul_assoc, ← zpow_add₀ (by norm_num)]
  congr 2
  ring

/-- Scientific notation is a numeral of the same value. -/
theorem exists_numeral_scientific {d : Decimal} (horder : d.order.natAbs < 65536) :
    ∃ n : Numeral, n.text = (d.scientific 2).toList ∧
      (n.decimal (n.exponent.elim 0 Exponent.reading)).value = d.value := by
  obtain ⟨k, hk⟩ : ∃ k, Decimal.digitCount d.coefficient = k + 1 :=
    ⟨Decimal.digitCount d.coefficient - 1, by
      have := Decimal.digitCount_pos d.coefficient; omega⟩
  obtain ⟨e, htext, hreading⟩ := exists_exponent horder
  obtain ⟨n, hplain, hnone, hvalue⟩ := Decimal.exists_numeral_plain ⟨d.coefficient, -k⟩
  refine ⟨⟨n.whole, n.fraction, some e, n.isDigit_whole, n.isDigit_fraction,
    n.exists_digit⟩, ?_, ?_⟩
  · rw [Decimal.scientific_eq, hk, Nat.add_sub_cancel, ← Decimal.plain_eq_fixedNotation,
      ← hplain, ← htext, Numeral.text, Numeral.text, hnone]
    simp [Numeral.exponentText]
  · show (n.decimal e.reading).value = d.value
    have hexponent : -(k : ℤ) + d.order = d.exponent := by
      rw [Decimal.order, hk]
      push_cast
      ring
    rw [n.value_decimal, hvalue, hreading, Decimal.value, Decimal.value, mul_assoc,
      ← zpow_add₀ (by norm_num), hexponent]

/-- What is printed is a numeral of the same value. -/
theorem exists_numeral_write {d : Decimal} (hpos : 0 < d.coefficient)
    (horder : d.order.natAbs < 65536) :
    ∃ n : Numeral, n.text = (NumberFormat.general.write d).toList ∧
      (n.decimal (n.exponent.elim 0 Exponent.reading)).value = d.value := by
  rw [NumberFormat.write, ← d.value_trim]
  split
  · exact exists_numeral_scientific ((Decimal.order_trim hpos).symm ▸ horder)
  · obtain ⟨n, htext, hnone, hvalue⟩ := Decimal.exists_numeral_plain d.trim
    exact ⟨n, htext, hnone.symm ▸ hvalue⟩

/-! ### The text of a number -/

section

variable {x : Float}

/-- The text of a number is its sign and the text of the decimal of twelve
digits. -/
theorem formatNumber_of_finite (hfinite : x.isFinite = true)
    (hzero : (x == 0.0) = false) :
    formatNumber x = (if isNegative x then "-" else "") ++
      NumberFormat.general.write (significant 12 (Binary.ofFloat x).ratio.1
        (Binary.ofFloat x).ratio.2) := by
  obtain ⟨⟨hpos, hunpack⟩, -⟩ := unpack_eq hfinite hzero
  have hnan : x.isNaN = false := by
    show x.toModel.unpack.isNaN = false
    rw [hunpack]
    rfl
  have hinf : x.isInf = false := by
    show x.toModel.unpack.isInf = false
    rw [hunpack]
    rfl
  rw [formatNumber, hnan, hinf, hzero]
  rfl

/-- A finite number other than zero is printed as its sign and its exact value,
rounded to twelve significant digits. The text reads back as the rounded value.
In front of the exponent it is the same whether the exact value or the rounded
one is written with so many digits, so the number may as well be printed in two
steps. -/
theorem formatNumber_eq_generalNotation (hfinite : x.isFinite = true)
    (hzero : (x == 0.0) = false) :
    formatNumber x =
        (if exactValue x < 0 then "-" else "") ++
          String.ofList (generalNotation (roundTo 12 |exactValue x|)) ∧
      (∃ d, Decimal.read? (generalNotation (roundTo 12 |exactValue x|)) = some d ∧
        d.value = roundTo 12 |exactValue x|) ∧
      (∀ k : ℕ, Int.log 10 (roundTo 12 |exactValue x|) + k = 11 →
        decimalNotation k |exactValue x| =
          decimalNotation k (roundTo 12 |exactValue x|)) ∧
      formatNumber x =
        (if exactValue x < 0 then "-" else "") ++
          String.ofList (twoStepNotation |exactValue x|) := by
  have hden := (Binary.ofFloat x).ratio_den_pos
  have hvalue : ((Binary.ofFloat x).ratio.1 / (Binary.ofFloat x).ratio.2 : ℚ) =
      |exactValue x| :=
    (Binary.ratio_eq _).trans (abs_exactValue hfinite hzero).symm
  obtain ⟨hv, hsign⟩ := exactValue_pos_or_neg hfinite hzero
  obtain ⟨⟨hcoefficient, -⟩, -⟩ := unpack_eq hfinite hzero
  have hnum := Binary.ratio_num_pos hcoefficient
  have hwrite := write_significant hnum hden
  have hdecimal := significant_eq (by decide : 0 < 12) hnum hden
  obtain ⟨c, place, hsettles⟩ := exists_settles (by decide : 0 < 12) hv
  rw [hvalue] at hwrite hdecimal
  have hformat : formatNumber x = (if exactValue x < 0 then "-" else "") ++
      String.ofList (generalNotation (roundTo 12 |exactValue x|)) := by
    rw [formatNumber_of_finite hfinite hzero, ← hwrite, String.ofList_toList]
    simp only [hsign]
  refine ⟨hformat, ?_, fun k hk => ?_, (twoStepNotation_eq hv).symm ▸ hformat⟩
  -- the exponents of doubles are far from those that a numeral cannot have
  · obtain ⟨hlow, hhigh⟩ := log_exactValue_bounds hfinite hzero
    obtain ⟨hle, hnext⟩ := hsettles.log_bounds
    obtain ⟨n, htext, hread⟩ := exists_numeral_write hsettles.unsettled_pos
      (by rw [hsettles.order_unsettled]; omega)
    rw [hdecimal] at hwrite
    rw [← hwrite, ← htext, n.read?_text]
    exact ⟨_, rfl, hread⟩
  · have hplace : place = -k := by
      rw [hsettles.log_eq] at hk
      push_cast at hk
      omega
    obtain ⟨hexact, hrounded⟩ := hsettles.decimalNotation_eq hplace
    exact hexact.trans hrounded.symm

/-- From the middle of two values of twelve digits the even one is taken, and
here it has one digit more. -/
theorem formatNumber_eq_generalNotation_nines :
    formatNumber (-999999999999.5) = "-1e+12" ∧
      (∃ d, Decimal.read? (generalNotation (roundTo 12 |exactValue (-999999999999.5)|)) =
        some d ∧
        d.value = roundTo 12 |exactValue (-999999999999.5)|) ∧
      (if exactValue (-999999999999.5) < 0 then "-" else "") ++
        String.ofList (twoStepNotation |exactValue (-999999999999.5)|) = "-1e+12" := by
  have htext : formatNumber (-999999999999.5) = "-1e+12" := by decide +kernel
  obtain ⟨-, hread, -, hsteps⟩ :=
    formatNumber_eq_generalNotation (x := -999999999999.5) (by decide +kernel)
      (by decide +kernel)
  exact ⟨htext, hread, hsteps.symm.trans htext⟩

end

end StackCalc
