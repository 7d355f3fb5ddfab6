import Mathlib

/-!
# The double nearest to a rational

The arithmetic of doubles works on mantissas and exponents, and rounds where it
has more bits than a double has room for. Here its results are described by the
rational that is rounded, however it is written.

- `lastPlace v`: the exponent of the last bit of the doubles around `v`.
- `roundEven y`: the nearest natural, of two the even one.
- `nearest v`: the double nearest to `v`, as a mantissa and an exponent.

Rounding a mantissa that has enough bits yields the double nearest to the value
(`roundWithAccuracy_eq_nearest`). So do the conversion of a natural, products
and quotients.
-/

namespace StackCalc

open Float.Model (Format UnpackedFloat totalExponent)
open Float.Model.UnpackedFloat
  (Accuracy ExtendedMantissa shiftToTargetExponent shiftToExponent roundWithAccuracy
    decreaseExponent accuracyOfFraction divCore)

namespace Nearest

/-! ### Places -/

/-- The exponent of the last bit of the doubles around `v`. -/
def lastPlace (v : ℚ) : ℤ :=
  max (Int.log 2 v - 52) (-1074)

/-- Where rounding to doubles puts the last bit of a mantissa. -/
theorem targetExponent_eq (x : ℤ) :
    Format.binary64.targetExponent x = max (x - 53) (-1074) :=
  rfl

variable {v : ℚ}

theorem scaled_pos {m : ℕ} (hm : 0 < m) (e : ℤ) : (0 : ℚ) < m * 2 ^ e :=
  mul_pos (by exact_mod_cast hm) (zpow_pos two_pos e)

/-- Doubles have 53 bits. -/
theorem div_lastPlace_lt (v : ℚ) : v / 2 ^ lastPlace v < 2 ^ (53 : ℕ) := by
  rw [div_lt_iff₀ (zpow_pos two_pos _), ← zpow_natCast, ← zpow_add₀ (two_ne_zero' ℚ)]
  refine (Int.lt_zpow_succ_log_self one_lt_two v).trans_le
    (zpow_le_zpow_right₀ one_le_two ?_)
  rw [lastPlace]
  omega

/-- The first of them is set unless the last place is the least there is. -/
theorem le_div_lastPlace (hv : 0 < v) (h : lastPlace v ≠ -1074) :
    (2 : ℚ) ^ (52 : ℕ) ≤ v / 2 ^ lastPlace v := by
  rw [le_div_iff₀ (zpow_pos two_pos _), ← zpow_natCast, ← zpow_add₀ (two_ne_zero' ℚ)]
  refine (zpow_le_zpow_right₀ one_le_two ?_).trans (Int.zpow_log_le_self one_lt_two hv)
  rw [lastPlace] at h ⊢
  omega

/-- The bits of a mantissa and its exponent say how large a value is that is cut
to it. -/
theorem log_eq {m : ℕ} {e : ℤ} (hm : 0 < m) (hle : (m : ℚ) * 2 ^ e ≤ v)
    (hlt : v < (m + 1) * 2 ^ e) :
    Int.log 2 v = m.log2 + e := by
  have hpos : 0 < v := (scaled_pos hm e).trans_le hle
  have hfirst : (2 : ℚ) ^ (m.log2 : ℤ) ≤ m := by
    rw [zpow_natCast]
    exact_mod_cast Nat.log2_self_le hm.ne'
  have hlast : (m : ℚ) + 1 ≤ 2 ^ ((m.log2 : ℤ) + 1) := by
    have hbits : m + 1 ≤ 2 ^ (m.log2 + 1) := Nat.lt_log2_self
    exact_mod_cast hbits
  have hlower : (m.log2 : ℤ) + e ≤ Int.log 2 v := by
    refine (Int.zpow_le_iff_le_log one_lt_two hpos).1 ?_
    rw [Nat.cast_ofNat, zpow_add₀ (two_ne_zero' ℚ)]
    exact (mul_le_mul_of_nonneg_right hfirst (zpow_pos two_pos e).le).trans hle
  have hupper : Int.log 2 v < (m.log2 : ℤ) + 1 + e := by
    refine (Int.lt_zpow_iff_log_lt one_lt_two hpos).1 ?_
    rw [Nat.cast_ofNat, zpow_add₀ (two_ne_zero' ℚ)]
    exact hlt.trans_le (mul_le_mul_of_nonneg_right hlast (zpow_pos two_pos e).le)
  omega

theorem log_scaled {m : ℕ} (hm : 0 < m) (e : ℤ) :
    Int.log 2 ((m : ℚ) * 2 ^ e) = m.log2 + e :=
  log_eq hm le_rfl (mul_lt_mul_of_pos_right (lt_add_one _) (zpow_pos two_pos e))

/-! ### Rounding to naturals -/

/-- The natural nearest to `y`; from the middle of two, the even one. -/
def roundEven (y : ℚ) : ℕ :=
  if y < ⌊y⌋₊ + 1 / 2 then ⌊y⌋₊
  else if ⌊y⌋₊ + 1 / 2 < y then ⌊y⌋₊ + 1
  else ⌊y⌋₊ + ⌊y⌋₊ % 2

@[simp]
theorem roundEven_natCast (n : ℕ) : roundEven n = n := by
  have hbelow : (n : ℚ) < n + 1 / 2 := by linarith
  rw [roundEven, Nat.floor_natCast, if_pos hbelow]

/-- Rounding does not go below the natural part. -/
theorem floor_le_roundEven (y : ℚ) : ⌊y⌋₊ ≤ roundEven y := by
  rw [roundEven]
  split_ifs <;> omega

/-- Rounding does not go above the next natural. -/
theorem roundEven_le (y : ℚ) : roundEven y ≤ ⌊y⌋₊ + 1 := by
  rw [roundEven]
  split_ifs <;> omega

/-- What the mantissa with its residual bits says about `y`: the part below the
last bit is nothing, less than a half, a half or more. -/
def StandsFor (em : ExtendedMantissa) (y : ℚ) : Prop :=
  match em.accuracy with
  | .exact => y = em.mantissa
  | .inexact .lt => em.mantissa < y ∧ y < em.mantissa + 1 / 2
  | .inexact .eq => y = em.mantissa + 1 / 2
  | .inexact .gt => em.mantissa + 1 / 2 < y ∧ y < em.mantissa + 1

variable {em : ExtendedMantissa} {y : ℚ}

theorem StandsFor.le (h : StandsFor em y) : (em.mantissa : ℚ) ≤ y := by
  obtain ⟨m, r, s⟩ := em
  cases r <;> cases s <;> simp only [StandsFor, ExtendedMantissa.accuracy] at h <;>
    linarith

theorem StandsFor.lt (h : StandsFor em y) : y < em.mantissa + 1 := by
  obtain ⟨m, r, s⟩ := em
  cases r <;> cases s <;> simp only [StandsFor, ExtendedMantissa.accuracy] at h <;>
    linarith

theorem StandsFor.floor_eq (h : StandsFor em y) : ⌊y⌋₊ = em.mantissa := by
  rw [Nat.floor_eq_iff ((Nat.cast_nonneg _).trans h.le)]
  exact ⟨h.le, h.lt⟩

/-- The residual bits are enough to round. -/
theorem StandsFor.roundedMantissa (h : StandsFor em y) :
    em.roundedMantissa = roundEven y := by
  rw [roundEven, h.floor_eq]
  obtain ⟨m, r, s⟩ := em
  cases r <;> cases s <;>
    simp only [StandsFor, ExtendedMantissa.accuracy, ExtendedMantissa.roundedMantissa,
      Accuracy.roundToNearestEven] at h ⊢
  · rw [if_pos (by linarith)]
  · rw [if_pos h.2]
  · rw [if_neg (by linarith), if_neg (by linarith)]
  · rw [if_neg (by linarith), if_pos h.1]

/-- One bit is moved to the residual bits, which still tell how much is behind
the mantissa. -/
theorem StandsFor.shiftRightOne (h : StandsFor em y) :
    StandsFor em.shiftRightOne (y / 2) := by
  obtain ⟨m, r, s⟩ := em
  have hm : (m : ℚ) = 2 * (m / 2 : ℕ) + (m % 2 : ℕ) := by
    exact_mod_cast (Nat.div_add_mod m 2).symm
  have hparity := Nat.mod_two_eq_zero_or_one m
  rcases hparity with hbit | hbit <;> rw [hbit] at hm <;> cases r <;> cases s <;>
    simp [StandsFor, ExtendedMantissa.accuracy, ExtendedMantissa.shiftRightOne,
      hbit] at h hm ⊢ <;>
    first | linarith | exact ⟨by linarith, by linarith⟩

theorem StandsFor.shiftRight (h : StandsFor em y) (n : ℕ) :
    StandsFor (em >>> n) (y / 2 ^ n) := by
  show StandsFor (n.repeat ExtendedMantissa.shiftRightOne em) (y / 2 ^ n)
  induction n with
  | zero => simpa [Nat.repeat] using h
  | succ n ih =>
    have hnext := ih.shiftRightOne
    rwa [div_div, ← pow_succ] at hnext

/-! ### Rounding to doubles -/

/-- The mantissa and exponent as a double; a mantissa that has been rounded up
to a 54th bit is halved. -/
def settle (m : ℕ) (e : ℤ) : UnpackedFloat :=
  if h : m = 0 then .zero .positive
  else if m < 2 ^ 53 then .finite .positive m e (Nat.pos_of_ne_zero h)
  else .finite .positive (2 ^ 52) (e + 1) (by norm_num)

/-- The double nearest to `v`; from the middle of two, the one with the even
mantissa. It may be too large for the format. -/
def nearest (v : ℚ) : UnpackedFloat :=
  settle (roundEven (v / 2 ^ lastPlace v)) (lastPlace v)

theorem roundEven_lastPlace_le (hv : 0 < v) :
    roundEven (v / 2 ^ lastPlace v) ≤ 2 ^ 53 := by
  have hfloor : ⌊v / 2 ^ lastPlace v⌋₊ < 2 ^ 53 := by
    rw [Nat.floor_lt (div_pos hv (zpow_pos two_pos _)).le]
    exact_mod_cast div_lastPlace_lt v
  have hround := roundEven_le (v / 2 ^ lastPlace v)
  omega

/-- Bits that are in place are not moved, a 54th bit moves all by one place. -/
theorem shiftToTargetExponent_settled {m : ℕ} {e : ℤ} (hm : m ≤ 2 ^ 53) (he : -1074 ≤ e) :
    shiftToTargetExponent .binary64 m e .exact =
      if m < 2 ^ 53 then (⟨m, false, false⟩, e) else (⟨2 ^ 52, false, false⟩, e + 1) := by
  rw [shiftToTargetExponent, targetExponent_eq, totalExponent, shiftToExponent]
  by_cases hlt : m < 2 ^ 53
  · have hbits : m.log2 ≤ 52 := by
      by_cases hzero : m = 0
      · simp [hzero]
      · have := (Nat.log2_lt hzero).2 hlt
        omega
    have hstay : (max ((m.log2 : ℤ) + 1 + e - 53) (-1074) - e).toNat = 0 := by omega
    rw [if_pos hlt, hstay]
    simp [ExtendedMantissa.ofMantissaAndAccuracy, HShiftRight.hShiftRight, Nat.repeat]
  · obtain rfl : m = 2 ^ 53 := by omega
    have hmove : (max (((2 ^ 53 : ℕ).log2 : ℤ) + 1 + e - 53) (-1074) - e).toNat = 1 := by
      rw [Nat.log2_two_pow]
      omega
    rw [if_neg hlt, hmove]
    simp [ExtendedMantissa.ofMantissaAndAccuracy, HShiftRight.hShiftRight, Nat.repeat,
      ExtendedMantissa.shiftRightOne]

/-- The target of rounding is the last place of the value, if no bit was lost
before. -/
theorem targetExponent_of_cut {m : ℕ} {e : ℤ} (hle : (m : ℚ) ≤ v / 2 ^ e)
    (hlt : v / 2 ^ e < m + 1) (hv : 0 < v) (he : e ≤ lastPlace v) :
    Format.binary64.targetExponent (totalExponent m e) = lastPlace v := by
  rw [le_div_iff₀ (zpow_pos two_pos e)] at hle
  rw [div_lt_iff₀ (zpow_pos two_pos e)] at hlt
  rw [targetExponent_eq, totalExponent]
  by_cases hm : m = 0
  · -- the value is below the last bit of the exponent, which is below all places
    subst hm
    have hsmall : Int.log 2 v < e := by
      refine (Int.lt_zpow_iff_log_lt one_lt_two hv).1 ?_
      simpa using hlt
    simp only [lastPlace, Nat.log2_zero] at he ⊢
    omega
  · rw [lastPlace, log_eq (Nat.pos_of_ne_zero hm) hle hlt]
    omega

/-- Rounding yields the nearest double, provided that the exponent is not above
its last place. -/
theorem roundWithAccuracy_eq_nearest {m : ℕ} {e : ℤ} {accuracy : Accuracy} (hv : 0 < v)
    (h : StandsFor (.ofMantissaAndAccuracy m accuracy) (v / 2 ^ e))
    (he : e ≤ lastPlace v) :
    roundWithAccuracy .binary64 .positive m e accuracy = nearest v := by
  have hmantissa : (ExtendedMantissa.ofMantissaAndAccuracy m accuracy).mantissa = m := by
    rcases accuracy with _ | (_ | _ | _) <;> rfl
  have hle := h.le
  have hlt := h.lt
  rw [hmantissa] at hle hlt
  have htarget := targetExponent_of_cut hle hlt hv he
  -- the first shift brings the last place to the units
  have hshift : e + ((lastPlace v - e).toNat : ℤ) = lastPlace v := by omega
  have hround := (h.shiftRight (lastPlace v - e).toNat).roundedMantissa
  rw [div_div, ← zpow_natCast, ← zpow_add₀ (two_ne_zero' ℚ), hshift] at hround
  have hleast : -1074 ≤ lastPlace v := le_max_right _ _
  rw [roundWithAccuracy, shiftToTargetExponent, htarget, shiftToExponent]
  simp only [hround, hshift,
    shiftToTargetExponent_settled (roundEven_lastPlace_le hv) hleast]
  rw [nearest, settle]
  by_cases hsmall : roundEven (v / 2 ^ lastPlace v) < 2 ^ 53
  · simp only [hsmall, if_true]
  · have hzero : roundEven (v / 2 ^ lastPlace v) ≠ 0 := by
      omega
    simp only [hsmall, hzero, if_false, dite_false]
    rfl

/-! ### Conversion, product and quotient -/

theorem standsFor_exact (m : ℕ) : StandsFor (.ofMantissaAndAccuracy m .exact) m :=
  rfl

/-- A mantissa with any exponent is rounded to the nearest double. Bits are
added first if there are too few. -/
theorem round_eq_nearest {m : ℕ} {e : ℤ} (hm : 0 < m) :
    UnpackedFloat.round .binary64 .positive m e = nearest (m * 2 ^ e) := by
  -- the bits that are missing down to the last place are filled with zeros
  have hlast : Format.binary64.targetExponent (totalExponent m e) =
      lastPlace (m * 2 ^ e) := by
    rw [targetExponent_eq, totalExponent, lastPlace, log_scaled hm]
    omega
  rw [UnpackedFloat.round, hlast]
  simp only [decreaseExponent]
  generalize hk : (e - lastPlace (m * 2 ^ e)).toNat = k
  refine roundWithAccuracy_eq_nearest (scaled_pos hm e) ?_ (by omega)
  have hsame : (m : ℚ) * 2 ^ e / 2 ^ (e - (k : ℤ)) = ((m <<< k : ℕ) : ℚ) := by
    rw [zpow_sub₀ (by norm_num), zpow_natCast, Nat.shiftLeft_eq]
    push_cast
    field_simp
  rw [hsame]
  exact standsFor_exact _

theorem ofNat_eq_nearest {n : ℕ} (hn : 0 < n) :
    UnpackedFloat.ofNat .binary64 n = nearest n := by
  have hcompare : compare (n : ℤ) 0 = .gt := by
    rw [compare_gt_iff_gt]
    omega
  have hround := round_eq_nearest (e := 0) hn
  rw [zpow_zero, mul_one] at hround
  rw [UnpackedFloat.ofNat, UnpackedFloat.ofInt, UnpackedFloat.normalize, hcompare]
  exact hround

/-- A product of mantissas is exact, and is rounded if its exponent is not above
the last place. -/
theorem mul_eq_nearest {m₁ m₂ : ℕ} {e₁ e₂ : ℤ} {h₁ : 0 < m₁} {h₂ : 0 < m₂}
    (he : e₁ + e₂ ≤ lastPlace (m₁ * 2 ^ e₁ * (m₂ * 2 ^ e₂))) :
    UnpackedFloat.mul .binary64 (.finite .positive m₁ e₁ h₁)
      (.finite .positive m₂ e₂ h₂) =
      nearest (m₁ * 2 ^ e₁ * (m₂ * 2 ^ e₂)) := by
  refine roundWithAccuracy_eq_nearest
    (mul_pos (scaled_pos h₁ e₁) (scaled_pos h₂ e₂)) ?_ he
  have hsame : (m₁ : ℚ) * 2 ^ e₁ * (m₂ * 2 ^ e₂) / 2 ^ (e₁ + e₂) =
      ((m₁ * m₂ : ℕ) : ℚ) := by
    rw [zpow_add₀ (two_ne_zero' ℚ)]
    push_cast
    field_simp
  rw [hsame]
  exact standsFor_exact _

/-- The remainder of a division says how much is behind the quotient, compared
with a half. -/
theorem standsFor_quotient (n : ℕ) {d : ℕ} (hd : 0 < d) :
    StandsFor (.ofMantissaAndAccuracy (n / d) (accuracyOfFraction (n % d) d))
      ((n : ℚ) / d) := by
  have hpos : (0 : ℚ) < d := by exact_mod_cast hd
  have hsplit : (n : ℚ) = d * (n / d : ℕ) + (n % d : ℕ) := by
    exact_mod_cast (Nat.div_add_mod n d).symm
  have hrest : ((n % d : ℕ) : ℚ) < d := by exact_mod_cast Nat.mod_lt n hd
  generalize n / d = q at hsplit ⊢
  generalize n % d = r at hsplit hrest ⊢
  have hvalue : (n : ℚ) / d = q + r / d := by
    rw [hsplit, add_div, mul_div_cancel_left₀ _ hpos.ne']
  rw [hvalue, accuracyOfFraction]
  have hless : (r : ℚ) / d < 1 := (div_lt_one hpos).2 hrest
  by_cases hr : r = 0
  · rw [if_pos hr, hr]
    simp [StandsFor, ExtendedMantissa.ofMantissaAndAccuracy, ExtendedMantissa.accuracy]
  · have hr' : (0 : ℚ) < r / d := div_pos (by exact_mod_cast Nat.pos_of_ne_zero hr) hpos
    rw [if_neg hr]
    rcases hcompare : compare (2 * r) d with _ | _ | _
    · have hhalf : (r : ℚ) / d < 1 / 2 := by
        have : (2 * r : ℚ) < d := by exact_mod_cast compare_lt_iff_lt.1 hcompare
        rw [div_lt_iff₀ hpos]
        linarith
      show (q : ℚ) < q + r / d ∧ (q : ℚ) + r / d < q + 1 / 2
      exact ⟨by linarith, by linarith⟩
    · have hhalf : (r : ℚ) / d = 1 / 2 := by
        have : (2 * r : ℚ) = d := by exact_mod_cast compare_eq_iff_eq.1 hcompare
        rw [div_eq_iff hpos.ne']
        linarith
      show (q : ℚ) + r / d = q + 1 / 2
      rw [hhalf]
    · have hhalf : 1 / 2 < (r : ℚ) / d := by
        have : (d : ℚ) < 2 * r := by exact_mod_cast compare_gt_iff_gt.1 hcompare
        rw [lt_div_iff₀ hpos]
        linarith
      show (q : ℚ) + 1 / 2 < q + r / d ∧ (q : ℚ) + r / d < q + 1
      exact ⟨by linarith, by linarith⟩

/-- A quotient has as many bits as the sizes of its operands say, or one less. -/
theorem totalExponent_sub_le_log {m₁ m₂ : ℕ} (e₁ e₂ : ℤ) (h₁ : 0 < m₁) (h₂ : 0 < m₂) :
    totalExponent m₁ e₁ - totalExponent m₂ e₂ ≤
      Int.log 2 ((m₁ : ℚ) * 2 ^ e₁ / (m₂ * 2 ^ e₂)) + 1 := by
  have hpos₁ := scaled_pos h₁ e₁
  have hpos₂ := scaled_pos h₂ e₂
  have hfirst : (2 : ℚ) ^ ((m₁.log2 : ℤ) + e₁) ≤ m₁ * 2 ^ e₁ := by
    rw [zpow_add₀ (two_ne_zero' ℚ), zpow_natCast]
    refine mul_le_mul_of_nonneg_right ?_ (zpow_pos two_pos _).le
    exact_mod_cast Nat.log2_self_le h₁.ne'
  have hsecond : (m₂ : ℚ) * 2 ^ e₂ ≤ 2 ^ ((m₂.log2 : ℤ) + 1 + e₂) := by
    rw [zpow_add₀ (two_ne_zero' ℚ)]
    refine mul_le_mul_of_nonneg_right ?_ (zpow_pos two_pos _).le
    have hbits : m₂ < 2 ^ (m₂.log2 + 1) := Nat.lt_log2_self
    exact_mod_cast hbits.le
  have hlog : (m₁.log2 : ℤ) + e₁ - (m₂.log2 + 1 + e₂) ≤
      Int.log 2 ((m₁ : ℚ) * 2 ^ e₁ / (m₂ * 2 ^ e₂)) := by
    refine (Int.zpow_le_iff_le_log one_lt_two (div_pos hpos₁ hpos₂)).1 ?_
    rw [Nat.cast_ofNat, zpow_sub₀ (by norm_num)]
    exact div_le_div₀ hpos₁.le hfirst hpos₂ hsecond
  rw [totalExponent, totalExponent]
  omega

/-- A quotient has enough bits to round, for the dividend is shifted by as many
as the target asks for. -/
theorem div_eq_nearest {m₁ m₂ : ℕ} {e₁ e₂ : ℤ} {h₁ : 0 < m₁} {h₂ : 0 < m₂} :
    UnpackedFloat.div .binary64 (.finite .positive m₁ e₁ h₁)
      (.finite .positive m₂ e₂ h₂) =
      nearest (m₁ * 2 ^ e₁ / (m₂ * 2 ^ e₂)) := by
  have hbits := totalExponent_sub_le_log e₁ e₂ h₁ h₂
  show roundWithAccuracy .binary64 .positive (divCore .binary64 m₁ e₁ m₂ e₂).1
    (divCore .binary64 m₁ e₁ m₂ e₂).2.1 (divCore .binary64 m₁ e₁ m₂ e₂).2.2 = _
  simp only [divCore, targetExponent_eq]
  generalize htarget : min (e₁ - e₂)
    (max (totalExponent m₁ e₁ - totalExponent m₂ e₂ - 53) (-1074)) = t
  generalize hshift : (e₁ - e₂ - t).toNat = k
  refine roundWithAccuracy_eq_nearest
    (div_pos (scaled_pos h₁ e₁) (scaled_pos h₂ e₂)) ?_ ?_
  -- the shifted dividend over the divisor is the value, in units of the target
  · have hk : t = e₁ - e₂ - k := by omega
    have hsame : (m₁ : ℚ) * 2 ^ e₁ / (m₂ * 2 ^ e₂) / 2 ^ t =
        ((m₁ <<< k : ℕ) : ℚ) / m₂ := by
      have hm₂ : (m₂ : ℚ) ≠ 0 := by exact_mod_cast h₂.ne'
      rw [hk, zpow_sub₀ (by norm_num), zpow_sub₀ (by norm_num), zpow_natCast,
        Nat.shiftLeft_eq]
      push_cast
      field_simp
    rw [hsame]
    exact standsFor_quotient _ h₂
  · rw [lastPlace]
    omega

/-! ### Doubles and what they are nearest to -/

/-- A mantissa and an exponent as a double has them: the first of 53 bits is set
unless the exponent is the least. -/
structure Canonical (m : ℕ) (e : ℤ) : Prop where
  pos : 0 < m
  lt : m < 2 ^ 53
  le : -1074 ≤ e
  normal : e ≠ -1074 → 2 ^ 52 ≤ m

/-- Only in the least place may the first bit be missing. -/
theorem Canonical.eq_least {m : ℕ} {e : ℤ} (h : Canonical m e) (hm : m < 2 ^ 52) :
    e = -1074 := by
  by_contra hother
  have hfirst := h.normal hother
  omega

theorem Canonical.lastPlace_eq {m : ℕ} {e : ℤ} (h : Canonical m e) :
    lastPlace (m * 2 ^ e) = e := by
  have hbits := (Nat.log2_lt h.pos.ne').2 h.lt
  have hleast := h.le
  rw [lastPlace, log_scaled h.pos]
  by_cases he : e = -1074
  · omega
  · have hfirst := (Nat.le_log2 h.pos.ne').2 (h.normal he)
    omega

/-- A double is nearest to its own value. -/
theorem Canonical.nearest_eq {m : ℕ} {e : ℤ} (h : Canonical m e) :
    nearest (m * 2 ^ e) = .finite .positive m e h.pos := by
  rw [nearest, h.lastPlace_eq, mul_div_cancel_right₀ _ (zpow_pos two_pos e).ne',
    roundEven_natCast, settle, dif_neg h.pos.ne', if_pos h.lt]

/-- Small naturals are doubles. -/
theorem exists_canonical_natCast {n : ℕ} (hn : 0 < n) (hlt : n < 2 ^ 53) :
    ∃ m e, Canonical m e ∧ e ≤ 0 ∧ 2 ^ 52 ≤ m ∧ (m : ℚ) * 2 ^ e = n := by
  have hbits := (Nat.log2_lt hn.ne').2 hlt
  have hfirst : 2 ^ 52 ≤ n * 2 ^ (52 - n.log2) := by
    have hshift : 2 ^ n.log2 * 2 ^ (52 - n.log2) = 2 ^ 52 := by
      rw [← pow_add]
      congr 1
      omega
    rw [← hshift]
    exact Nat.mul_le_mul_right _ (Nat.log2_self_le hn.ne')
  have hlast : n * 2 ^ (52 - n.log2) < 2 ^ 53 := by
    have hshift : 2 ^ (n.log2 + 1) * 2 ^ (52 - n.log2) = 2 ^ 53 := by
      rw [← pow_add]
      congr 1
      omega
    rw [← hshift]
    exact Nat.mul_lt_mul_of_pos_right Nat.lt_log2_self (by positivity)
  refine ⟨n * 2 ^ (52 - n.log2), -((52 - n.log2 : ℕ) : ℤ),
    ⟨by positivity, hlast, by omega, fun _ => hfirst⟩,
    by omega, hfirst, ?_⟩
  rw [zpow_neg, zpow_natCast]
  push_cast
  field_simp

theorem nearest_zero : nearest 0 = .zero .positive := by
  have hround : roundEven 0 = 0 := by exact_mod_cast roundEven_natCast 0
  rw [nearest, zero_div, hround, settle, dif_pos rfl]

/-- What is settled is canonical, or zero in the least place. -/
theorem settle_cases {m : ℕ} {e : ℤ} (he : -1074 ≤ e) (hnormal : e ≠ -1074 → 2 ^ 52 ≤ m) :
    e = -1074 ∧ settle m e = .zero .positive ∨
      ∃ m' e', ∃ h : Canonical m' e',
        e ≤ e' ∧ settle m e = .finite .positive m' e' h.pos := by
  rw [settle]
  split_ifs with hzero hsmall
  · left
    refine ⟨?_, rfl⟩
    by_contra hother
    have hfirst := hnormal hother
    omega
  · exact .inr ⟨m, e, ⟨Nat.pos_of_ne_zero hzero, hsmall, he, hnormal⟩, le_refl e, rfl⟩
  · exact .inr ⟨2 ^ 52, e + 1,
      ⟨by norm_num, by norm_num, by omega, fun _ => le_refl _⟩, by omega, rfl⟩

/-- The nearest double is canonical, and zero only in the least place. -/
theorem nearest_cases (hv : 0 < v) :
    lastPlace v = -1074 ∧ nearest v = .zero .positive ∨
      ∃ m e, ∃ h : Canonical m e, lastPlace v ≤ e ∧
        nearest v = .finite .positive m e h.pos := by
  refine settle_cases (le_max_right _ _) fun hleast => ?_
  have hfloor : 2 ^ 52 ≤ ⌊v / 2 ^ lastPlace v⌋₊ := by
    rw [Nat.le_floor_iff (div_pos hv (zpow_pos two_pos _)).le]
    exact_mod_cast le_div_lastPlace hv hleast
  exact hfloor.trans (floor_le_roundEven _)

/-- Less than half the least double is nearest to zero. -/
theorem nearest_of_lt (hv : 0 ≤ v) (h : v < 2 ^ (-1075 : ℤ)) :
    nearest v = .zero .positive := by
  rcases hv.eq_or_lt with rfl | hv
  · exact nearest_zero
  · have hlog := (Int.lt_zpow_iff_log_lt one_lt_two hv).1 h
    have hlast : lastPlace v = -1074 := by
      rw [lastPlace]
      omega
    have hhalf : v / 2 ^ (-1074 : ℤ) < 1 / 2 := by
      have hnext : (-1075 : ℤ) = -1 + -1074 := by norm_num
      rw [hnext, zpow_add₀ (two_ne_zero' ℚ), zpow_neg_one, ← one_div] at h
      exact (div_lt_iff₀ (zpow_pos two_pos _)).2 h
    have hfloor : ⌊v / 2 ^ (-1074 : ℤ)⌋₊ = 0 := by
      rw [Nat.floor_eq_zero]
      exact hhalf.trans (by norm_num)
    rw [nearest, hlast, roundEven, hfloor, if_pos (by simpa using hhalf),
      settle, dif_pos rfl]

end Nearest

end StackCalc
