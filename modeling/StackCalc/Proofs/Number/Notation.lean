import StackCalc.Number.Decimal

/-!
# Decimal notation and trailing zeros

A decimal is written with its coefficient cut down to the digits that matter.
The same texts arise from a fixed number of digits behind the point
(`Decimal.fixedNotation`) if the zeros at the end are taken away, and the point
with them if nothing is left behind it (`stripZeros`). Zeros in front of the
point stay.

- `Decimal.stripZeros_fixedNotation`: plain notation.
- `Decimal.scientific_trim`: the mantissa of scientific notation.
-/

namespace StackCalc

/-- A text without the zeros that end it, and without the point if it then ends
in one. A text without a point stays as it is. -/
def stripZeros (cs : List Char) : List Char :=
  if '.' ∈ cs then ((cs.reverse.dropWhile (· = '0')).dropWhile (· = '.')).reverse else cs

namespace Decimal

/-- The last `k` decimal digits of `n`. -/
def lastDigits : (k n : Nat) → List Char
  | 0, _ => []
  | k + 1, n => lastDigits k (n / 10) ++ [Nat.digitChar (n % 10)]

/-- The quotient of `n` and `10 ^ k` with `k` digits behind the point; without
any there is no point. -/
def fixedNotation (k n : Nat) : List Char :=
  digits (n / Nat.pow 10 k) ++ if k = 0 then [] else '.' :: lastDigits k n

/-! ### Digits -/

theorem digits_of_lt {n : Nat} (h : n < 10) : digits n = [Nat.digitChar n] :=
  Nat.toDigits_of_lt_base h

theorem digits_of_le {n : Nat} (h : 10 ≤ n) :
    digits n = digits (n / 10) ++ [Nat.digitChar (n % 10)] :=
  Nat.toDigits_of_base_le (by decide) h

theorem digits_ten_mul {n : Nat} (h : 0 < n) : digits (10 * n) = digits n ++ ['0'] := by
  rw [digits_of_le (by omega), Nat.mul_div_cancel_left n (by decide), Nat.mul_mod_right]
  rfl

theorem length_digits (n : Nat) : (digits n).length = digitCount n := by
  fun_induction digitCount n with
  | case1 n h => rw [digits_of_lt h, List.length_singleton]
  | case2 n h ih =>
    rw [digits_of_le (by omega), List.length_append, ih, List.length_singleton]

theorem digitCount_ten_mul {n : Nat} (h : 0 < n) :
    digitCount (10 * n) = digitCount n + 1 := by
  rw [← length_digits, ← length_digits, digits_ten_mul h, List.length_append,
    List.length_singleton]

theorem length_lastDigits (k n : Nat) : (lastDigits k n).length = k := by
  induction k generalizing n with
  | zero => rfl
  | succ k ih => rw [lastDigits, List.length_append, ih, List.length_singleton]

theorem lastDigits_ten_mul (k n : Nat) :
    lastDigits (k + 1) (10 * n) = lastDigits k n ++ ['0'] := by
  rw [lastDigits, Nat.mul_div_cancel_left n (by decide), Nat.mul_mod_right]
  rfl

/-- The digits of a number and enough zeros in front of them, cut in two. -/
theorem zeros_append_digits (k n : Nat) :
    List.replicate (k + 1 - (digits n).length) '0' ++ digits n =
      digits (n / Nat.pow 10 k) ++ lastDigits k n := by
  induction k generalizing n with
  | zero =>
    have hpos : 0 < (digits n).length := by
      rw [length_digits]
      exact digitCount_pos n
    have hnone : 0 + 1 - (digits n).length = 0 := by omega
    rw [hnone, lastDigits, List.append_nil]
    show [] ++ digits n = digits (n / 1)
    rw [Nat.div_one, List.nil_append]
  | succ k ih =>
    have hpow : n / Nat.pow 10 (k + 1) = n / 10 / Nat.pow 10 k := by
      show n / 10 ^ (k + 1) = n / 10 / 10 ^ k
      rw [Nat.div_div_eq_div_mul, Nat.pow_succ, Nat.mul_comm]
    rw [lastDigits, hpow, ← List.append_assoc, ← ih (n / 10), List.append_assoc]
    by_cases hn : n < 10
    · -- a zero takes the place of the digits that are not there
      have hzero : n / 10 = 0 := Nat.div_eq_of_lt hn
      rw [hzero, digits_of_lt hn, digits_of_lt (by decide : 0 < 10), Nat.mod_eq_of_lt hn]
      show List.replicate (k + 1) '0' ++ [Nat.digitChar n] =
        List.replicate k '0' ++ (['0'] ++ [Nat.digitChar n])
      rw [List.replicate_succ', List.append_assoc]
    · rw [digits_of_le (by omega : 10 ≤ n), List.length_append, List.length_singleton,
        Nat.add_sub_add_right]

/-! ### Plain notation -/

theorem plain_of_nonneg (n k : Nat) :
    (plain ⟨n, k⟩).toList = digits n ++ List.replicate k '0' := by
  rw [plain, if_pos (Int.natCast_nonneg k), String.toList_ofList, Int.toNat_natCast]

/-- Plain notation is notation with a fixed number of digits behind the point. -/
theorem plain_eq_fixedNotation (k n : Nat) :
    (plain ⟨n, -k⟩).toList = fixedNotation k n := by
  cases k with
  | zero =>
    show (plain ⟨n, (0 : Nat)⟩).toList = digits (n / 1) ++ []
    rw [plain_of_nonneg, Nat.div_one]
    rfl
  | succ k =>
    have hneg : ¬ (0 : Int) ≤ -((k + 1 : Nat) : Int) := by omega
    have hplaces : (-((k + 1 : Nat) : Int)).natAbs = k + 1 := by omega
    have hlength : (digits (n / Nat.pow 10 (k + 1)) ++ lastDigits (k + 1) n).length -
        (k + 1) =
        (digits (n / Nat.pow 10 (k + 1))).length := by
      rw [List.length_append, length_lastDigits]
      omega
    rw [plain, if_neg hneg, String.toList_ofList]
    dsimp only
    rw [hplaces, zeros_append_digits, hlength, List.take_left, List.drop_left,
      fixedNotation, if_neg (Nat.succ_ne_zero k)]

/-- Before the point, trailing zeros are written whether they are digits of the
coefficient or not. -/
theorem plain_trim_of_nonneg {n : Nat} (hn : 0 < n) (k : Nat) :
    (trim ⟨n, k⟩).plain = plain ⟨n, k⟩ := by
  -- by the coefficient, which loses its last digit where that is a zero
  induction n using Nat.strongRecOn generalizing k with
  | ind n ih =>
    rw [trim, if_neg (Nat.ne_of_gt hn)]
    dsimp only
    split
    · rename_i hzero
      obtain ⟨n', rfl⟩ : ∃ n', n = 10 * n' := ⟨n / 10, by omega⟩
      rw [Nat.mul_div_cancel_left n' (by decide)]
      show (trim ⟨n', ((k + 1 : Nat) : Int)⟩).plain = plain ⟨10 * n', k⟩
      rw [ih n' (by omega) (by omega), ← String.toList_inj, plain_of_nonneg,
        plain_of_nonneg, digits_ten_mul (by omega), List.replicate_succ,
        List.append_assoc]
      rfl
    · rfl

/-! ### Trailing zeros -/

theorem stripZeros_of_not_mem {cs : List Char} (h : '.' ∉ cs) : stripZeros cs = cs :=
  if_neg h

/-- A zero at the end does not matter. -/
theorem stripZeros_append_zero {cs : List Char} (h : '.' ∈ cs) :
    stripZeros (cs ++ ['0']) = stripZeros cs := by
  rw [stripZeros, stripZeros, if_pos h, if_pos (List.mem_append_left _ h),
    List.reverse_append]
  rfl

/-- A text that ends in something else stays as it is. -/
theorem stripZeros_append_of_ne {cs : List Char} {c : Char} (hzero : c ≠ '0')
    (hpoint : c ≠ '.') :
    stripZeros (cs ++ [c]) = cs ++ [c] := by
  rw [stripZeros]
  split
  · rw [List.reverse_append, List.reverse_singleton, List.singleton_append,
      List.dropWhile_cons_of_neg (by simpa using hzero),
      List.dropWhile_cons_of_neg (by simpa using hpoint), List.reverse_cons,
      List.reverse_reverse]
  · rfl

theorem point_not_mem_digits (n : Nat) : '.' ∉ digits n := by
  intro h
  exact absurd (Nat.isDigit_of_mem_toDigits (by decide) (by decide) h) (by decide)

theorem digitChar_ne : ∀ d < 10, 0 < d → Nat.digitChar d ≠ '0' ∧
    Nat.digitChar d ≠ '.' := by
  decide

theorem fixedNotation_ten_mul (k n : Nat) :
    fixedNotation (k + 1) (10 * n) =
      digits (n / Nat.pow 10 k) ++ '.' :: (lastDigits k n ++ ['0']) := by
  have hwhole : 10 * n / Nat.pow 10 (k + 1) = n / Nat.pow 10 k := by
    show 10 * n / 10 ^ (k + 1) = n / 10 ^ k
    rw [Nat.pow_succ, Nat.mul_comm (10 ^ k), Nat.mul_div_mul_left _ _ (by decide)]
  rw [fixedNotation, if_neg (Nat.succ_ne_zero k), hwhole, lastDigits_ten_mul]

/-- The last zero behind the point takes the point with it. -/
theorem stripZeros_lone_zero (n : Nat) :
    stripZeros (digits n ++ ['.', '0']) = digits n := by
  have hmem : '.' ∈ digits n ++ ['.', '0'] := by simp
  have hpoint : '.' ∉ (digits n).reverse := by simpa using point_not_mem_digits n
  rw [stripZeros, if_pos hmem, List.reverse_append]
  show ((digits n).reverse.dropWhile (· = '.')).reverse = digits n
  cases hdigits : (digits n).reverse with
  | nil => simpa using hdigits.symm
  | cons c cs =>
    rw [hdigits] at hpoint
    rw [List.dropWhile_cons_of_neg (by simpa using (List.ne_of_not_mem_cons hpoint).symm),
      ← hdigits, List.reverse_reverse]

/-- One digit more behind the point does not matter if it is a zero. -/
theorem stripZeros_fixedNotation_ten_mul (k n : Nat) :
    stripZeros (fixedNotation (k + 1) (10 * n)) = stripZeros (fixedNotation k n) := by
  rw [fixedNotation_ten_mul]
  cases k with
  | zero =>
    show stripZeros (digits (n / 1) ++ ['.', '0']) = stripZeros (digits (n / 1) ++ [])
    rw [stripZeros_lone_zero, List.append_nil,
      stripZeros_of_not_mem (point_not_mem_digits _)]
  | succ k =>
    have hpoint : '.' ∈ fixedNotation (k + 1) n := by
      rw [fixedNotation, if_neg (Nat.succ_ne_zero k)]
      exact List.mem_append_right _ (List.mem_cons_self ..)
    rw [← stripZeros_append_zero hpoint, fixedNotation, if_neg (Nat.succ_ne_zero k),
      List.append_assoc, List.cons_append]

/-- The zeros at the end of a notation are those that trimming a decimal takes
away. -/
theorem stripZeros_fixedNotation {n : Nat} (hn : 0 < n) (k : Nat) :
    stripZeros (fixedNotation k n) = (trim ⟨n, -k⟩).plain.toList := by
  induction n using Nat.strongRecOn generalizing k with
  | ind n ih =>
    cases k with
    | zero =>
      have hwhole : fixedNotation 0 n = digits n := by
        show digits (n / 1) ++ [] = digits n
        rw [Nat.div_one, List.append_nil]
      show stripZeros (fixedNotation 0 n) = (trim ⟨n, (0 : Nat)⟩).plain.toList
      rw [plain_trim_of_nonneg hn, plain_of_nonneg, hwhole,
        stripZeros_of_not_mem (point_not_mem_digits n)]
      exact (List.append_nil _).symm
    | succ k =>
      rw [trim, if_neg (Nat.ne_of_gt hn)]
      dsimp only
      split
      · rename_i hzero
        obtain ⟨n', rfl⟩ : ∃ n', n = 10 * n' := ⟨n / 10, by omega⟩
        have hn' : 0 < n' := by omega
        have hexponent : -((k + 1 : Nat) : Int) + 1 = -(k : Int) := by omega
        rw [Nat.mul_div_cancel_left n' (by decide), hexponent, ← ih n' (by omega) hn']
        exact stripZeros_fixedNotation_ten_mul k n'
      -- the last digit is no zero, so that nothing is taken away
      · rename_i hlast
        have hdigit := digitChar_ne (n % 10) (by omega) (by omega)
        rw [plain_eq_fixedNotation, fixedNotation, if_neg (Nat.succ_ne_zero k),
          lastDigits, ← List.cons_append, ← List.append_assoc]
        exact stripZeros_append_of_ne hdigit.1 hdigit.2

/-! ### Scientific notation -/

/-- Taking zeros from the coefficient leaves the leading digit where it is. -/
theorem order_trim {d : Decimal} (h : 0 < d.coefficient) : d.trim.order = d.order := by
  fun_induction trim d with
  | case1 d hzero => omega
  | case2 d hpos hzero ih =>
    rw [ih (by dsimp only; omega)]
    have hcount : digitCount d.coefficient = digitCount (d.coefficient / 10) + 1 := by
      rw [← digitCount_ten_mul (by omega),
        Nat.mul_div_cancel' (Nat.dvd_of_mod_eq_zero hzero)]
    rw [order, order, hcount]
    dsimp only
    omega
  | case3 d hpos hlast => rfl

theorem coefficient_trim_pos {d : Decimal} (h : 0 < d.coefficient) :
    0 < d.trim.coefficient := by
  fun_induction trim d with
  | case1 d hzero => omega
  | case2 d hpos hzero ih => exact ih (by dsimp only; omega)
  | case3 d hpos hlast => exact h

/-- What is left of the coefficient does not depend on the exponent. -/
theorem coefficient_trim (n : Nat) (x y : Int) :
    (trim ⟨n, x⟩).coefficient = (trim ⟨n, y⟩).coefficient := by
  induction n using Nat.strongRecOn generalizing x y with
  | ind n ih =>
    unfold trim
    dsimp only
    split
    · rfl
    · split
      · exact ih (n / 10) (by omega) _ _
      · rfl

/-- Scientific notation is one digit, the others behind a point, and the
exponent. -/
theorem scientific_eq (width : Nat) (d : Decimal) :
    (d.scientific width).toList =
      fixedNotation (digitCount d.coefficient - 1) d.coefficient ++
        (exponentText width d.order).toList := by
  obtain ⟨k, hk⟩ : ∃ k, digitCount d.coefficient = k + 1 :=
    ⟨digitCount d.coefficient - 1, by have := digitCount_pos d.coefficient; omega⟩
  have hsplit := zeros_append_digits k d.coefficient
  rw [length_digits, hk, Nat.sub_self, List.replicate_zero, List.nil_append] at hsplit
  -- only one digit is left in front of the others
  obtain ⟨c, hc⟩ : ∃ c, digits (d.coefficient / Nat.pow 10 k) = [c] := by
    have hlength := congrArg List.length hsplit
    rw [length_digits, hk, List.length_append, length_lastDigits] at hlength
    exact List.length_eq_one_iff.mp (by omega)
  rw [scientific, String.toList_append, String.toList_ofList, hk, Nat.add_sub_cancel,
    fixedNotation, hsplit, hc]
  cases k with
  | zero => rfl
  | succ k =>
    obtain ⟨b, bs, hlast⟩ :=
      List.exists_cons_of_length_eq_add_one (length_lastDigits (k + 1) d.coefficient)
    rw [hlast]
    rfl

/-- Behind the first of `k + 1` digits, those are left that trimming leaves. -/
theorem scientific_trim {n k : Nat} (hn : 0 < n) (hcount : digitCount n = k + 1) (x : Int)
    (width : Nat) :
    ((trim ⟨n, x⟩).scientific width).toList =
      stripZeros (fixedNotation k n) ++ (exponentText width (order ⟨n, x⟩)).toList := by
  have hpos : 0 < (trim ⟨n, -k⟩).coefficient := coefficient_trim_pos hn
  have hexponent : (trim ⟨n, -k⟩).exponent =
      -((digitCount (trim ⟨n, -k⟩).coefficient - 1 : Nat) : Int) := by
    have horder : (trim ⟨n, -k⟩).order = order ⟨n, -k⟩ := order_trim hn
    have hdigits := digitCount_pos (trim ⟨n, -k⟩).coefficient
    rw [order, order, hcount] at horder
    dsimp only at horder
    omega
  have hplain : (trim ⟨n, -k⟩).plain.toList =
      fixedNotation (digitCount (trim ⟨n, -k⟩).coefficient - 1)
        (trim ⟨n, -k⟩).coefficient := by
    rw [← plain_eq_fixedNotation, ← hexponent]
  rw [scientific_eq, stripZeros_fixedNotation hn, hplain, coefficient_trim n (-k) x,
    order_trim hn]

end Decimal

end StackCalc
