import StackCalc.Number.Rounding
import StackCalc.Proofs.Number.Notation
import StackCalc.Proofs.Number.Reading

/-!
# Rounding to significant digits

The nearest decimal with a given number of digits (`significant`) is found with
quotients of naturals. Here it is described by the rational that is rounded.

- `roundTo n v`: the value of `n` significant digits nearest to `v`, from the
  middle of two the even one.
- `Decimal.order_eq_log`: the exponent of the leading digit is a logarithm.
- `significant_eq`: what is computed is that value.

A value that rounds up to the next power of ten has one digit more in front, and
the place of its last digit moves. Rounding the original value at that place
gives the same digits (`exists_settles`).
-/

namespace StackCalc

open Nearest

/-! ### Powers of ten -/

theorem log_ten_eq {v : ℚ} {x : ℤ} (hle : (10 : ℚ) ^ x ≤ v) (hlt : v < 10 ^ (x + 1)) :
    Int.log 10 v = x := by
  have hpos : 0 < v := (zpow_pos (by norm_num) x).trans_le hle
  have hlower : x ≤ Int.log 10 v := (Int.zpow_le_iff_le_log (by norm_num) hpos).1 hle
  have hupper : Int.log 10 v < x + 1 := (Int.lt_zpow_iff_log_lt (by norm_num) hpos).1 hlt
  omega

/-! ### Digits and logarithms -/

namespace Decimal

/-- The number of digits says between which powers of ten a number is. -/
theorem digitCount_bounds {n : ℕ} (hn : 0 < n) :
    10 ^ (digitCount n - 1) ≤ n ∧ n < 10 ^ digitCount n := by
  fun_induction digitCount n with
  | case1 n h => exact ⟨by simpa using Nat.succ_le_of_lt hn, by omega⟩
  | case2 n h ih =>
    obtain ⟨hle, hlt⟩ := ih (by omega)
    have hpos := digitCount_pos (n / 10)
    obtain ⟨k, hk⟩ : ∃ k, digitCount (n / 10) = k + 1 :=
      ⟨digitCount (n / 10) - 1, by omega⟩
    rw [hk, Nat.add_sub_cancel] at hle
    rw [hk] at hlt ⊢
    rw [Nat.add_sub_cancel, Nat.pow_succ]
    rw [Nat.pow_succ] at hlt ⊢
    constructor
    · omega
    · rw [Nat.pow_succ]
      omega

/-- The exponent of the leading digit. -/
theorem order_eq_log {d : Decimal} (h : 0 < d.coefficient) :
    d.order = Int.log 10 d.value := by
  obtain ⟨hle, hlt⟩ := digitCount_bounds h
  have hpos := digitCount_pos d.coefficient
  obtain ⟨k, hk⟩ : ∃ k, digitCount d.coefficient = k + 1 :=
    ⟨digitCount d.coefficient - 1, by omega⟩
  rw [hk, Nat.add_sub_cancel] at hle
  rw [hk] at hlt
  have hle' : (10 : ℚ) ^ (k : ℤ) ≤ d.coefficient := by exact_mod_cast hle
  have hlt' : (d.coefficient : ℚ) < 10 ^ ((k : ℤ) + 1) := by exact_mod_cast hlt
  have horder : d.order = k + d.exponent := by
    rw [order, hk]
    push_cast
    ring
  rw [horder]
  refine (log_ten_eq ?_ ?_).symm
  · rw [value, zpow_add₀ (by norm_num)]
    exact mul_le_mul_of_nonneg_right hle' (zpow_pos (by norm_num) _).le
  · rw [value, add_right_comm, zpow_add₀ (by norm_num)]
    exact mul_lt_mul_of_pos_right hlt' (zpow_pos (by norm_num) _)

end Decimal

variable {num den : ℕ}

/-- Scaling by `8 ^ s` is already enough to make a quotient at least one. -/
theorem den_le_scaled (den : ℕ) (hnum : 0 < num) :
    den ≤ num * Nat.pow 10 (if den ≤ num then 0 else (den / num).log2 / 3 + 1) := by
  split
  · rename_i h
    show den ≤ num * 1
    omega
  · have hbits : den / num < 2 ^ ((den / num).log2 + 1) := Nat.lt_log2_self
    have hthree : (den / num).log2 + 1 ≤ 3 * ((den / num).log2 / 3 + 1) := by omega
    have hscale : den / num < 10 ^ ((den / num).log2 / 3 + 1) :=
      calc den / num
        _ < 2 ^ ((den / num).log2 + 1) := hbits
        _ ≤ 2 ^ (3 * ((den / num).log2 / 3 + 1)) :=
            Nat.pow_le_pow_right (by decide) hthree
        _ = 8 ^ ((den / num).log2 / 3 + 1) := by rw [Nat.pow_mul]
        _ ≤ 10 ^ ((den / num).log2 / 3 + 1) := Nat.pow_le_pow_left (by decide) _
    have hle : den < num * (den / num + 1) := Nat.lt_mul_div_succ den hnum
    exact hle.le.trans (Nat.mul_le_mul_left num hscale)

/-- The exponent of the leading digit of a quotient is a logarithm as well. -/
theorem orderOf_eq_log (hnum : 0 < num) (hden : 0 < den) :
    orderOf num den = Int.log 10 (num / den : ℚ) := by
  unfold orderOf
  dsimp only
  have hscaled := den_le_scaled den hnum
  generalize (if den ≤ num then 0 else (den / num).log2 / 3 + 1) = s at hscaled ⊢
  have hden' : (0 : ℚ) < den := by exact_mod_cast hden
  have hwhole : 0 < num * Nat.pow 10 s / den := Nat.div_pos hscaled hden
  obtain ⟨hle, hlt⟩ := Decimal.digitCount_bounds hwhole
  have hpos := Decimal.digitCount_pos (num * Nat.pow 10 s / den)
  obtain ⟨k, hk⟩ : ∃ k, Decimal.digitCount (num * Nat.pow 10 s / den) = k + 1 :=
    ⟨Decimal.digitCount (num * Nat.pow 10 s / den) - 1, by omega⟩
  rw [hk] at hle hlt ⊢
  -- the scaled quotient has as many digits as its whole part
  have hlower : 10 ^ k * den ≤ num * 10 ^ s := (Nat.le_div_iff_mul_le hden).1 hle
  have hupper : num * 10 ^ s < 10 ^ (k + 1) * den := (Nat.div_lt_iff_lt_mul hden).1 hlt
  have hlower' : (10 : ℚ) ^ (k : ℤ) * den ≤ num * 10 ^ (s : ℤ) := by exact_mod_cast hlower
  have hupper' : (num : ℚ) * 10 ^ (s : ℤ) < 10 ^ ((k : ℤ) + 1) * den := by
    exact_mod_cast hupper
  have hexponent : ((k + 1 : ℕ) : ℤ) - 1 - s = k - s := by omega
  rw [hexponent]
  refine (log_ten_eq ?_ ?_).symm
  · rw [zpow_sub₀ (by norm_num), div_le_div_iff₀ (zpow_pos (by norm_num) _) hden']
    exact hlower'
  · rw [sub_add_eq_add_sub, zpow_sub₀ (by norm_num),
      div_lt_div_iff₀ hden' (zpow_pos (by norm_num) _)]
    exact hupper'

/-- Rounding a quotient of naturals, by comparing the remainder with half of the
divisor, is rounding the rational. -/
theorem roundHalfEven_eq_roundEven (a : ℕ) {b : ℕ} (hb : 0 < b) :
    roundHalfEven a b = roundEven (a / b : ℚ) := by
  have hb' : (0 : ℚ) < b := by exact_mod_cast hb
  have hparts : ((a / b : ℕ) : ℚ) * b + (a % b : ℕ) = a := by
    exact_mod_cast Nat.div_add_mod' a b
  have hvalue : (a / b : ℚ) = (a / b : ℕ) + (a % b : ℕ) / b := by
    rw [← hparts]
    field_simp
  have hbelow : (a / b : ℚ) < (a / b : ℕ) + 1 / 2 ↔ 2 * (a % b) < b := by
    rw [hvalue, add_lt_add_iff_left, div_lt_div_iff₀ hb' (by norm_num), one_mul, mul_comm]
    exact_mod_cast Iff.rfl
  have habove : ((a / b : ℕ) : ℚ) + 1 / 2 < a / b ↔ b < 2 * (a % b) := by
    rw [hvalue, add_lt_add_iff_left, div_lt_div_iff₀ (by norm_num) hb', one_mul, mul_comm]
    exact_mod_cast Iff.rfl
  rw [roundEven, Nat.floor_div_eq_div, roundHalfEven]
  simp only [hbelow, habove]
  split
  · rfl
  split
  · rfl
  · split <;> omega

/-- Shifting by powers of ten goes into the dividend or into the divisor. -/
theorem scaleByTen_eq (num : ℕ) {den : ℕ} (hden : 0 < den) (x : ℤ) :
    0 < (scaleByTen num den x).2 ∧
      ((scaleByTen num den x).1 / (scaleByTen num den x).2 : ℚ) = num / den * 10 ^ x := by
  unfold scaleByTen
  split
  · rename_i hx
    obtain ⟨k, rfl⟩ := Int.eq_ofNat_of_zero_le hx
    refine ⟨hden, ?_⟩
    simp only [Nat.pow_eq, Int.toNat_natCast, zpow_natCast]
    push_cast
    ring
  · rename_i hx
    obtain ⟨k, rfl⟩ : ∃ k : ℕ, x = -k := ⟨x.natAbs, by omega⟩
    refine ⟨Nat.mul_pos hden (Nat.pow_pos (by decide)), ?_⟩
    simp only [Nat.pow_eq, Int.natAbs_neg, Int.natAbs_natCast, zpow_neg, zpow_natCast]
    push_cast
    rw [div_mul_eq_div_div, div_eq_mul_inv (_ / _)]

/-! ### Rounding -/

/-- The place of the last of `n` significant digits of `v`. -/
def lastDigitPlace (n : ℕ) (v : ℚ) : ℤ :=
  Int.log 10 v + 1 - n

/-- The value of `n` significant digits nearest to `v`; from the middle of two,
the one with the even last digit. -/
def roundTo (n : ℕ) (v : ℚ) : ℚ :=
  roundEven (v / 10 ^ lastDigitPlace n v) * 10 ^ lastDigitPlace n v

/-- What is computed is the rounded value with the place of its last digit. -/
theorem significant_eq {n : ℕ} (hn : 0 < n) (hnum : 0 < num) (hden : 0 < den) :
    significant n num den =
      ⟨roundEven (num / den / 10 ^ lastDigitPlace n (num / den : ℚ) : ℚ),
        lastDigitPlace n (num / den : ℚ)⟩ := by
  have hplace : orderOf num den - ((n - 1 : ℕ) : ℤ) =
      lastDigitPlace n (num / den : ℚ) := by
    rw [orderOf_eq_log hnum hden, lastDigitPlace]
    omega
  obtain ⟨hpos, hvalue⟩ := scaleByTen_eq num hden (-lastDigitPlace n (num / den : ℚ))
  rw [zpow_neg, ← div_eq_mul_inv] at hvalue
  unfold significant
  dsimp only
  rw [hplace, roundHalfEven_eq_roundEven _ hpos, hvalue]

section

variable {y : ℚ} {m : ℕ}

theorem le_roundEven (h : (m : ℚ) ≤ y) : m ≤ roundEven y :=
  (Nat.le_floor h).trans (floor_le_roundEven y)

theorem roundEven_le_of_lt (hy : 0 ≤ y) (h : y < m) : roundEven y ≤ m :=
  (roundEven_le y).trans ((Nat.floor_lt hy).2 h)

/-- What is rounded up lies in the upper half. -/
theorem half_le_of_roundEven (hy : 0 ≤ y) (hlt : y < m + 1) (h : roundEven y = m + 1) :
    (m : ℚ) + 1 / 2 ≤ y := by
  have hfloor : ⌊y⌋₊ = m := by
    have hle := roundEven_le y
    have hbelow : ⌊y⌋₊ < m + 1 := (Nat.floor_lt hy).2 (by exact_mod_cast hlt)
    omega
  by_contra hhalf
  rw [roundEven, hfloor, if_pos (lt_of_not_ge hhalf)] at h
  omega

theorem roundEven_of_half_lt (h : (m : ℚ) + 1 / 2 < y) (hlt : y < m + 1) :
    roundEven y = m + 1 := by
  have hfloor : ⌊y⌋₊ = m :=
    (Nat.floor_eq_iff (by linarith [(Nat.cast_nonneg m : (0 : ℚ) ≤ m)])).2
      ⟨by linarith, hlt⟩
  rw [roundEven, hfloor, if_neg (by linarith), if_pos h]

/-- What is rounded up to a multiple of ten is rounded up to it one digit
earlier. -/
theorem roundEven_tenth (hy : 0 ≤ y) (hlt : y < 10 * m) (h : roundEven y = 10 * m) :
    roundEven (y / 10) = m := by
  obtain ⟨m, rfl⟩ : ∃ m', m = m' + 1 := by
    refine ⟨m - 1, ?_⟩
    by_contra hzero
    have hm : m = 0 := by omega
    rw [hm, Nat.cast_zero, mul_zero] at hlt
    linarith
  push_cast at hlt
  have hhalf : ((10 * m + 9 : ℕ) : ℚ) + 1 / 2 ≤ y := by
    refine half_le_of_roundEven hy ?_ (by omega)
    push_cast
    linarith
  push_cast at hhalf
  exact roundEven_of_half_lt (by linarith) (by linarith)

end

section

variable {n : ℕ} {v : ℚ}

/-- Scaled to the last of `n` digits, a value has `n` digits. -/
theorem scaled_bounds (hn : 0 < n) (hv : 0 < v) :
    ((10 ^ (n - 1) : ℕ) : ℚ) ≤ v / 10 ^ lastDigitPlace n v ∧
    v / 10 ^ lastDigitPlace n v < (10 ^ n : ℕ) := by
  have hpos : (0 : ℚ) < 10 ^ lastDigitPlace n v := zpow_pos (by norm_num) _
  have hfirst : ((n - 1 : ℕ) : ℤ) + lastDigitPlace n v = Int.log 10 v := by
    rw [lastDigitPlace]
    omega
  have hnext : (n : ℤ) + lastDigitPlace n v = Int.log 10 v + 1 := by
    rw [lastDigitPlace]
    omega
  push_cast
  rw [le_div_iff₀ hpos, div_lt_iff₀ hpos, ← zpow_natCast, ← zpow_natCast,
    ← zpow_add₀ (by norm_num), ← zpow_add₀ (by norm_num), hfirst, hnext]
  exact ⟨Int.zpow_log_le_self (by norm_num) hv, Int.lt_zpow_succ_log_self (by norm_num) v⟩

/-- A coefficient of `n` digits says where the last digit of a value is. -/
theorem lastDigitPlace_of_digits {c : ℕ} (hn : 0 < n) (hle : 10 ^ (n - 1) ≤ c)
    (hlt : c < 10 ^ n) (x : ℤ) :
    lastDigitPlace n (c * 10 ^ x : ℚ) = x := by
  have hle' : (10 : ℚ) ^ ((n - 1 : ℕ) : ℤ) ≤ c := by exact_mod_cast hle
  have hlt' : (c : ℚ) < 10 ^ (((n - 1 : ℕ) : ℤ) + 1) := by
    have hn' : ((n - 1 : ℕ) : ℤ) + 1 = (n : ℕ) := by omega
    rw [hn', zpow_natCast]
    exact_mod_cast hlt
  have hlog : Int.log 10 (c * 10 ^ x : ℚ) = ((n - 1 : ℕ) : ℤ) + x := by
    refine log_ten_eq ?_ ?_
    · rw [zpow_add₀ (by norm_num)]
      exact mul_le_mul_of_nonneg_right hle' (zpow_pos (by norm_num) x).le
    · rw [add_right_comm, zpow_add₀ (by norm_num)]
      exact mul_lt_mul_of_pos_right hlt' (zpow_pos (by norm_num) x)
  rw [lastDigitPlace, hlog]
  omega

/-- The coefficient of a value rounded to `n` digits, and the place of its last
digit. -/
structure Settles (n : ℕ) (v : ℚ) (c : ℕ) (x : ℤ) : Prop where
  place_eq : lastDigitPlace n (roundTo n v) = x
  round_eq : roundEven (v / 10 ^ x) = c
  value_eq : roundTo n v = c * 10 ^ x
  le : 10 ^ (n - 1) ≤ c
  lt : c < 10 ^ n
  /-- What was rounded up to the next power of ten has one zero more. -/
  cases_eq : (roundEven (v / 10 ^ lastDigitPlace n v) = c ∧ lastDigitPlace n v = x) ∨
    (roundEven (v / 10 ^ lastDigitPlace n v) = 10 * c ∧ lastDigitPlace n v + 1 = x)

/-- Rounding at the place of the last digit that is left after rounding gives
the same value. -/
theorem exists_settles (hn : 0 < n) (hv : 0 < v) : ∃ c x, Settles n v c x := by
  obtain ⟨hle, hlt⟩ := scaled_bounds hn hv
  have hpos : 0 ≤ v / 10 ^ lastDigitPlace n v := (Nat.cast_nonneg _).trans hle
  have hfirst := le_roundEven hle
  rcases Nat.lt_or_ge (roundEven (v / 10 ^ lastDigitPlace n v)) (10 ^ n) with
    hfits | hfull
  · refine ⟨_, _, ⟨?_, rfl, rfl, hfirst, hfits, .inl ⟨rfl, rfl⟩⟩⟩
    exact lastDigitPlace_of_digits hn hfirst hfits _
  · -- all digits were nines, or nearly so
    have htop := Nat.le_antisymm (roundEven_le_of_lt hpos hlt) hfull
    obtain ⟨k, rfl⟩ : ∃ k, n = k + 1 := ⟨n - 1, by omega⟩
    have hvalue : roundTo (k + 1) v =
        ((10 ^ k : ℕ) : ℚ) * 10 ^ (lastDigitPlace (k + 1) v + 1) := by
      rw [roundTo, htop, zpow_add₀ (by norm_num)]
      push_cast
      ring
    have hround : roundEven (v / 10 ^ (lastDigitPlace (k + 1) v + 1)) = 10 ^ k := by
      have hnext : v / 10 ^ (lastDigitPlace (k + 1) v + 1) =
          v / 10 ^ lastDigitPlace (k + 1) v / 10 := by
        rw [zpow_add₀ (by norm_num), zpow_one, div_div]
      rw [hnext]
      exact roundEven_tenth hpos (hlt.trans_eq (by push_cast; ring))
        (htop.trans (Nat.pow_succ'))
    refine ⟨10 ^ k, lastDigitPlace (k + 1) v + 1,
      ⟨?_, hround, hvalue, Nat.le_refl _, ?_, .inr ⟨?_, rfl⟩⟩⟩
    · rw [hvalue]
      exact lastDigitPlace_of_digits hn (Nat.le_refl _)
        (Nat.pow_lt_pow_right (by decide) (by omega)) _
    · exact Nat.pow_lt_pow_right (by decide) (by omega)
    · rw [htop, Nat.pow_succ, Nat.mul_comm]

end

end StackCalc
