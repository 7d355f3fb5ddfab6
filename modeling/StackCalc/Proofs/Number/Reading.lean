import StackCalc.Proofs.Number.Packing

/-!
# Decimals read as numbers

Reading a decimal yields the number nearest to its value (`Decimal.toFloat_eq`):
on the short way over doubles and a table of powers of ten, on the long way over
mantissas of any length, and also where the size of the decimal settles the
matter. So decimals of one value are read as one number.
-/

namespace StackCalc

open Float.Model (Format UnpackedFloat)

namespace Nearest

variable {m₁ m₂ : ℕ} {e₁ e₂ : ℤ} {x y : Float}

/-! ### Arithmetic of positive doubles -/

/-- A product of doubles is the number nearest to it. With 53 bits in one
mantissa the product has bits enough to round. -/
theorem HasParts.mul (hx : HasParts x m₁ e₁) (hy : HasParts y m₂ e₂)
    (hfull : 2 ^ 52 ≤ m₁) :
    x * y = rounded (m₁ * 2 ^ e₁ * (m₂ * 2 ^ e₂)) := by
  have hone : (1 : ℚ) ≤ m₂ := by exact_mod_cast hy.canonical.pos
  have hmany : (2 : ℚ) ^ (52 : ℤ) ≤ m₁ := by exact_mod_cast hfull
  have hsize : (2 : ℚ) ^ (52 + (e₁ + e₂)) ≤ m₁ * 2 ^ e₁ * (m₂ * 2 ^ e₂) := by
    calc (2 : ℚ) ^ (52 + (e₁ + e₂))
      _ = 2 ^ (52 : ℤ) * 2 ^ e₁ * (1 * 2 ^ e₂) := by
        rw [zpow_add₀ (two_ne_zero' ℚ), zpow_add₀ (two_ne_zero' ℚ)]
        ring
      _ ≤ m₁ * 2 ^ e₁ * (m₂ * 2 ^ e₂) := by
        have hpos₁ : (0 : ℚ) < 2 ^ e₁ := zpow_pos two_pos e₁
        have hpos₂ : (0 : ℚ) < 2 ^ e₂ := zpow_pos two_pos e₂
        gcongr
  have hplace : e₁ + e₂ ≤ lastPlace (m₁ * 2 ^ e₁ * (m₂ * 2 ^ e₂)) := by
    have hlog :=
      (Int.zpow_le_iff_le_log one_lt_two ((zpow_pos two_pos _).trans_le hsize)).1 hsize
    rw [lastPlace]
    omega
  show ofUnpacked (UnpackedFloat.mul .binary64 x.toModel.unpack y.toModel.unpack) = _
  rw [hx.unpack, hy.unpack, mul_eq_nearest hplace, rounded]

/-- A quotient of doubles is the number nearest to it. -/
theorem HasParts.div (hx : HasParts x m₁ e₁) (hy : HasParts y m₂ e₂) :
    x / y = rounded (m₁ * 2 ^ e₁ / (m₂ * 2 ^ e₂)) := by
  show ofUnpacked (UnpackedFloat.div .binary64 x.toModel.unpack y.toModel.unpack) = _
  rw [hx.unpack, hy.unpack, div_eq_nearest, rounded]

/-- A natural of 53 bits and zeros behind them is a double. -/
theorem exists_hasParts {a b : ℕ} (ha : 0 < a) (hlt : a < 2 ^ 53) (hb : b ≤ 971) :
    ∃ m e, HasParts (rounded (a * 2 ^ b)) m e ∧ 2 ^ 52 ≤ m ∧
      (m : ℚ) * 2 ^ e = a * 2 ^ b := by
  obtain ⟨m, e, hcanonical, hle, hfull, hvalue⟩ := exists_canonical_natCast ha hlt
  have hmoved : (m : ℚ) * 2 ^ (e + b) = a * 2 ^ b := by
    rw [zpow_add₀ (two_ne_zero' ℚ), zpow_natCast, ← mul_assoc, hvalue]
  have hleast := hcanonical.le
  have hcanonical' : Canonical m (e + b) :=
    ⟨hcanonical.pos, hcanonical.lt, by omega, fun _ => hfull⟩
  refine ⟨m, e + b, ⟨hcanonical', by omega, ?_⟩, hfull, hmoved⟩
  rw [rounded, ← hmoved, hcanonical'.nearest_eq]

/-! ### Small factors -/

theorem toFloat_toUInt64 {n : ℕ} (hn : 0 < n) (hlt : n < 2 ^ 53) :
    n.toUInt64.toFloat = rounded n := by
  have hsame : n.toUInt64.toNat = n := UInt64.toNat_ofNat_of_lt' (hlt.trans (by decide))
  show ofUnpacked (UnpackedFloat.ofNat .binary64 n.toUInt64.toNat) = rounded n
  rw [hsame, ofNat_eq_nearest hn, rounded]

/-- The powers of ten in the table are conversions of naturals. -/
theorem powersOfTen_eq (k : Fin 23) :
    Float.exactlyRepresentablePowersOfTen[k] =
      ofUnpacked (.ofNat .binary64 (10 ^ k.val)) := by
  revert k
  decide +kernel

theorem ten_pow (k : ℕ) : (10 : ℚ) ^ k = 5 ^ k * 2 ^ k := by
  rw [← mul_pow]
  norm_num

theorem ofUnpacked_powerOfTen (k : ℕ) :
    ofUnpacked (.ofNat .binary64 (10 ^ k)) = rounded (5 ^ k * 2 ^ k) := by
  have hten : ((10 ^ k : ℕ) : ℚ) = 5 ^ k * 2 ^ k := by
    push_cast
    exact ten_pow k
  rw [ofNat_eq_nearest (by positivity), hten, rounded]

end Nearest

namespace Decimal

open Nearest

/-! ### Values -/

/-- The value of a decimal. -/
def value (d : Decimal) : ℚ :=
  d.coefficient * 10 ^ d.exponent

variable {c : ℕ} {x : ℤ}

theorem value_nonneg (d : Decimal) : 0 ≤ d.value :=
  mul_nonneg (Nat.cast_nonneg _) (zpow_nonneg (by norm_num) _)

theorem value_natCast (c k : ℕ) : value ⟨c, k⟩ = c * (10 ^ k : ℕ) := by
  rw [value, zpow_natCast]
  push_cast
  rfl

/-- A decimal with digits behind the point is a quotient. -/
theorem value_neg (c k : ℕ) : value ⟨c, -k⟩ = c / (10 ^ k : ℕ) := by
  rw [value, zpow_neg, zpow_natCast]
  push_cast
  rfl

theorem two_zpow_three_mul (x : ℤ) : (2 : ℚ) ^ (3 * x) = 8 ^ x := by
  rw [zpow_mul]
  norm_num

/-- Decimals of more than 400 digits before the point are too large. -/
theorem le_value (hc : 0 < c) (hx : 400 < x) : (2 : ℚ) ^ (1024 : ℤ) ≤ value ⟨c, x⟩ := by
  have hone : (1 : ℚ) ≤ c := by exact_mod_cast hc
  calc (2 : ℚ) ^ (1024 : ℤ)
    _ ≤ 2 ^ (3 * x) := zpow_le_zpow_right₀ one_le_two (by omega)
    _ = 8 ^ x := two_zpow_three_mul x
    _ ≤ 10 ^ x := zpow_le_zpow_left₀ (by omega) (by norm_num) (by norm_num)
    _ ≤ c * 10 ^ x := le_mul_of_one_le_left (zpow_nonneg (by norm_num) _) hone

/-- Decimals that are below ten to the power of -400 by the bits of the
coefficient are too small. -/
theorem value_lt (hx : x + c.log2 + 1 < -400) : value ⟨c, x⟩ < (2 : ℚ) ^ (-1075 : ℤ) := by
  have hbits : (c : ℚ) < 2 ^ ((c.log2 : ℤ) + 1) := by
    have hlt : c < 2 ^ (c.log2 + 1) := Nat.lt_log2_self
    exact_mod_cast hlt
  have hpower : (10 : ℚ) ^ x ≤ 2 ^ (3 * x) := by
    have hinverse : (8 : ℚ) ^ (-x) ≤ 10 ^ (-x) :=
      zpow_le_zpow_left₀ (by omega) (by norm_num) (by norm_num)
    rw [zpow_neg, zpow_neg, inv_le_inv₀ (zpow_pos (by norm_num) _)
      (zpow_pos (by norm_num) _)] at hinverse
    rwa [two_zpow_three_mul]
  calc (c : ℚ) * 10 ^ x
    _ ≤ c * 2 ^ (3 * x) := mul_le_mul_of_nonneg_left hpower (Nat.cast_nonneg _)
    _ < 2 ^ ((c.log2 : ℤ) + 1) * 2 ^ (3 * x) :=
        mul_lt_mul_of_pos_right hbits (zpow_pos two_pos _)
    _ = 2 ^ ((c.log2 : ℤ) + 1 + 3 * x) := (zpow_add₀ (two_ne_zero' ℚ) _ _).symm
    _ ≤ 2 ^ (-1075 : ℤ) := zpow_le_zpow_right₀ one_le_two (by omega)

/-! ### The two ways of reading -/

/-- The short way: the coefficient and the power of ten are doubles. -/
theorem ofScientific_short {k : ℕ} (hc : 0 < c) (hlt : c < 2 ^ 53) (hk : k ≤ 22) :
    Float.ofScientific c true k = rounded (c / (10 ^ k : ℕ)) ∧
      Float.ofScientific c false k = rounded (c * (10 ^ k : ℕ)) := by
  obtain ⟨m₁, e₁, hparts₁, hfull, hvalue₁⟩ := exists_hasParts (b := 0) hc hlt (by omega)
  -- five to this power has 53 bits, and the rest of ten to it is a matter of
  -- the exponent
  have hfive : 5 ^ k < 2 ^ 53 :=
    (Nat.pow_le_pow_right (by norm_num) hk).trans_lt (by norm_num)
  obtain ⟨m₂, e₂, hparts₂, -, hvalue₂⟩ :=
    exists_hasParts (b := k) (by positivity) hfive (by omega)
  have hten : (m₂ : ℚ) * 2 ^ e₂ = (10 ^ k : ℕ) := by
    rw [hvalue₂]
    push_cast
    exact (ten_pow k).symm
  rw [pow_zero, mul_one] at hparts₁ hvalue₁
  rw [← toFloat_toUInt64 hc hlt] at hparts₁
  push_cast at hparts₂
  rw [← ofUnpacked_powerOfTen, ← powersOfTen_eq ⟨k, by omega⟩] at hparts₂
  have hdiv := hparts₁.div hparts₂
  have hmul := hparts₁.mul hparts₂ hfull
  rw [hvalue₁, hten] at hdiv hmul
  constructor
  · rw [Float.ofScientific, dif_pos ⟨hlt, hk⟩]
    exact hdiv
  · rw [Float.ofScientific, dif_pos ⟨hlt, hk⟩]
    exact hmul

/-- The long way: the power of ten is a mantissa of its own, however long. -/
theorem ofScientific_long {x : ℤ} (hc : 0 < c) (hx : x ≤ 400)
    (hx' : -400 ≤ x + c.log2 + 1) :
    Float.ofModel (Float.Model.ofScientific c x) = rounded (value ⟨c, x⟩) := by
  have hfew : ¬ x > 2 ^ Format.binary64.exponentBits := by
    show ¬ x > 2 ^ 11
    omega
  have hmany : ¬ x < -((2 ^ Format.binary64.exponentBits : ℤ) + c.log2) := by
    show ¬ x < -((2 ^ 11 : ℤ) + c.log2)
    omega
  show ofUnpacked (UnpackedFloat.ofScientific .binary64 c x) = _
  rw [UnpackedFloat.ofScientific, dif_neg hc.ne', if_neg hfew, if_neg hmany, rounded]
  by_cases hsign : 0 ≤ x
  · obtain ⟨k, rfl⟩ := Int.eq_ofNat_of_zero_le hsign
    have hone : (1 : ℚ) ≤ c * (10 ^ k : ℕ) := by
      exact_mod_cast Nat.mul_pos hc (Nat.pow_pos (by norm_num))
    -- the coefficient gets 53 bits more, so that the product has enough of them
    have hvalue : ((c <<< 53 : ℕ) : ℚ) * 2 ^ (-53 : ℤ) * ((10 ^ k : ℕ) * 2 ^ (0 : ℤ)) =
        c * (10 ^ k : ℕ) := by
      rw [Nat.shiftLeft_eq, zpow_zero, mul_one, zpow_neg]
      push_cast
      field_simp
    have hplace : -53 + 0 ≤ lastPlace
        ((c <<< 53 : ℕ) * 2 ^ (-53 : ℤ) * ((10 ^ k : ℕ) * 2 ^ (0 : ℤ))) := by
      have hlog := (Int.zpow_le_iff_le_log one_lt_two (zero_lt_one.trans_le hone)).1
        (by simpa using hone : ((2 : ℕ) : ℚ) ^ (0 : ℤ) ≤ _)
      rw [hvalue, lastPlace]
      omega
    rw [if_pos hsign, value_natCast, ← hvalue]
    exact congrArg ofUnpacked (mul_eq_nearest hplace)
  · obtain ⟨k, rfl⟩ : ∃ k : ℕ, x = -k := ⟨x.natAbs, by omega⟩
    have hvalue : (c : ℚ) * 2 ^ (0 : ℤ) / ((10 ^ k : ℕ) * 2 ^ (0 : ℤ)) =
        c / (10 ^ k : ℕ) := by
      rw [zpow_zero, mul_one, mul_one]
    rw [if_neg hsign, value_neg, ← hvalue]
    simp only [neg_neg, Int.toNat_natCast]
    exact congrArg ofUnpacked div_eq_nearest

/-- Both ways lead to the nearest number. -/
theorem ofScientific_eq {x : ℤ} (hc : 0 < c) (hx : x ≤ 400)
    (hx' : -400 ≤ x + c.log2 + 1) :
    Float.ofScientific c (decide (x < 0)) x.natAbs = rounded (value ⟨c, x⟩) := by
  by_cases hshort : c < 2 ^ 53 ∧ x.natAbs ≤ 22
  · obtain ⟨hdiv, hmul⟩ := ofScientific_short hc hshort.1 hshort.2
    by_cases hsign : x < 0
    · rw [decide_eq_true hsign, hdiv, ← value_neg, ← Int.eq_neg_natAbs_of_nonpos hsign.le]
    · rw [decide_eq_false hsign, hmul, ← value_natCast, Int.natAbs_of_nonneg (by omega)]
  · have hexponent : (if decide (x < 0) = true then Int.negOfNat x.natAbs
        else Int.ofNat x.natAbs) = x := by
      split
      · rename_i hsign
        have hneg := of_decide_eq_true hsign
        rw [Int.negOfNat_eq, Int.ofNat_eq_natCast]
        omega
      · rename_i hsign
        have hneg : ¬ x < 0 := fun hneg => hsign (decide_eq_true hneg)
        exact Int.natAbs_of_nonneg (by omega)
    rw [Float.ofScientific, dif_neg hshort]
    dsimp only
    rw [hexponent, ofScientific_long hc hx hx']

/-- A decimal is read as the number nearest to its value. -/
theorem toFloat_eq (d : Decimal) : d.toFloat = rounded d.value := by
  obtain ⟨c, x⟩ := d
  rw [toFloat]
  dsimp only
  split
  · rename_i hzero
    rw [hzero, value, Nat.cast_zero, zero_mul,
      rounded_of_small (le_refl 0) (zpow_pos two_pos _)]
  rename_i hpos
  have hpos := Nat.pos_of_ne_zero hpos
  split
  · rename_i hlarge
    rw [rounded_of_large (le_value hpos hlarge)]
  split
  · rename_i hsmall
    rw [rounded_of_small (value_nonneg _) (value_lt hsmall)]
  · exact ofScientific_eq hpos (by omega) (by omega)

end Decimal

end StackCalc
