import StackCalc.Number.Format
import StackCalc.Proofs.Number.Reading
import StackCalc.Proofs.Token.Numerals

/-!
# Shown numbers read back

A number that was read from a text is shown as a numeral without exponent, and
that numeral is read as the same number (`exists_numeral_literalText`). Digits
are only taken if they read back, and the exact value always does, since a
number is nearest to its own value.
-/

namespace StackCalc

open Nearest

namespace Decimal

/-! ### Values of written decimals -/

/-- Trailing zeros of the coefficient are a matter of the exponent. -/
theorem value_trim (d : Decimal) : d.trim.value = d.value := by
  fun_induction trim d with
  | case1 d hzero => simp [value, hzero]
  | case2 d hpos hzero ih =>
    have hten : (d.coefficient : ℚ) = 10 * (d.coefficient / 10 : ℕ) := by
      exact_mod_cast (Nat.mul_div_cancel' (Nat.dvd_of_mod_eq_zero hzero)).symm
    rw [ih, value, value, zpow_add₀ (by norm_num), zpow_one, hten]
    dsimp only
    ring
  | case3 d hpos hlast => rfl

theorem ofDigits_digits (n : ℕ) : ofDigits (digits n) = n :=
  Nat.ofDigitChars_ten_toDigits

theorem ofDigits_append_zeros (ds : List Char) (k : ℕ) :
    ofDigits (ds ++ List.replicate k '0') = ofDigits ds * 10 ^ k := by
  show Nat.ofDigitChars 10 (ds ++ List.replicate k '0') 0 = ofDigits ds * 10 ^ k
  rw [Nat.ofDigitChars_append, Nat.ofDigitChars_replicate_zero, Nat.mul_comm]
  rfl

theorem ofDigits_zeros_append (ds : List Char) (k : ℕ) :
    ofDigits (List.replicate k '0' ++ ds) = ofDigits ds := by
  show Nat.ofDigitChars 10 (List.replicate k '0' ++ ds) 0 = ofDigits ds
  rw [Nat.ofDigitChars_append, Nat.ofDigitChars_replicate_zero, Nat.mul_zero]
  rfl

theorem isDigit_digits (n : ℕ) : ∀ c ∈ digits n, isDigit c := by
  intro c hc
  exact Nat.isDigit_of_mem_toDigits (by decide) (by decide) hc

theorem isDigit_zeros (k : ℕ) : ∀ c ∈ List.replicate k '0', isDigit c := by
  intro c hc
  rw [List.eq_of_mem_replicate hc]
  rfl

/-- Positional notation is a numeral of the same value. -/
theorem exists_numeral_plain (d : Decimal) :
    ∃ n : Numeral, n.text = d.plain.toList ∧ n.exponent = none ∧
      (n.decimal 0).value = d.value := by
  obtain ⟨c, x⟩ := d
  have hdigits := isDigit_digits c
  by_cases hx : 0 ≤ x
  -- zeros are written behind the digits
  · obtain ⟨k, rfl⟩ := Int.eq_ofNat_of_zero_le hx
    have hwhole : ∀ a ∈ digits c ++ List.replicate k '0', isDigit a :=
      List.forall_mem_append.2 ⟨hdigits, isDigit_zeros k⟩
    have hne : digits c ++ List.replicate k '0' ≠ [] := by
      simp [digits, Nat.toDigits_ne_nil]
    refine ⟨⟨_, none, none, hwhole, by simp, .inl hne⟩, ?_, rfl, ?_⟩
    · rw [plain, if_pos hx]
      simp [Numeral.text, Numeral.fractionText, Numeral.exponentText]
    · simp [Numeral.decimal, Numeral.digits, value, ofDigits_append_zeros,
        ofDigits_digits]
  -- there are digits behind the point, and zeros in front if there are too few
  -- for it
  · obtain ⟨k, rfl⟩ : ∃ k : ℕ, x = -k := ⟨x.natAbs, by omega⟩
    generalize hpadded : List.replicate (k + 1 - (digits c).length) '0' ++ digits c =
      padded
    have hlength : k + 1 ≤ padded.length := by
      rw [← hpadded, List.length_append, List.length_replicate]
      omega
    have hall : ∀ a ∈ padded, isDigit a := by
      rw [← hpadded]
      exact List.forall_mem_append.2 ⟨isDigit_zeros _, hdigits⟩
    have hsame : ofDigits padded = c := by
      rw [← hpadded, ofDigits_zeros_append, ofDigits_digits]
    have hwhole : padded.take (padded.length - k) ≠ [] := by
      intro hnil
      have hzero := congrArg List.length hnil
      rw [List.length_take, List.length_nil] at hzero
      omega
    refine ⟨⟨padded.take (padded.length - k),
      some (padded.drop (padded.length - k)), none,
      fun a ha => hall a (List.mem_of_mem_take ha), ?_, .inl hwhole⟩, ?_, rfl, ?_⟩
    · intro ds hds a ha
      obtain rfl := Option.some.inj hds
      exact hall a (List.mem_of_mem_drop ha)
    · rw [plain, if_neg hx]
      simp [Numeral.text, Numeral.fractionText, Numeral.exponentText, hpadded]
    · have hplaces : padded.length - (padded.length - k) = k := by omega
      simp [Numeral.decimal, Numeral.digits, value, hsame, hplaces]

end Decimal

/-! ### Reading back -/

/-- Digits that are taken have been read back. -/
theorem readsBack?_eq_some {x : Float} {n : ℕ} {d : Decimal}
    (h : readsBack? x n = some d) :
    (d.toFloat == x) = true := by
  simp only [readsBack?] at h
  split at h
  · rename_i hlower
    obtain rfl := Option.some.inj h
    exact (Bool.and_eq_true_iff.1 hlower).1
  · split at h
    · rename_i hupper
      obtain rfl := Option.some.inj h
      exact hupper
    · cases h

/-- The exact value of a double is a decimal. -/
theorem Binary.value_toDecimal (b : Binary) :
    b.toDecimal.value = b.coefficient * 2 ^ b.exponent := by
  obtain ⟨m, e⟩ := b
  by_cases he : 0 ≤ e
  · obtain ⟨k, rfl⟩ := Int.eq_ofNat_of_zero_le he
    rw [toDecimal, if_pos he, Decimal.value]
    simp
  · obtain ⟨k, rfl⟩ : ∃ k : ℕ, e = -k := ⟨e.natAbs, by omega⟩
    rw [toDecimal, if_neg he, Decimal.value]
    simp only [Int.natAbs_neg, Int.natAbs_natCast, Nat.pow_eq, zpow_neg,
      zpow_natCast, ten_pow]
    push_cast
    field_simp

/-- The fewest digits that read back do so; without any, the exact value does. -/
theorem Nearest.HasParts.toFloat_shortest {x : Float} {m : ℕ} {e : ℤ}
    (h : HasParts x m e) :
    (shortest x).toFloat = x := by
  rw [shortest]
  cases hfound : (List.range 17).findSome? fun n => readsBack? x (n + 1) with
  | some d =>
    obtain ⟨n, -, hn⟩ := List.exists_of_findSome?_eq_some hfound
    have hback := readsBack?_eq_some hn
    rw [Option.getD_some]
    rw [Decimal.toFloat_eq] at hback ⊢
    exact h.rounded_eq_of_beq d.value_nonneg hback
  | none =>
    rw [Option.getD_none, Decimal.toFloat_eq, Binary.value_toDecimal, h.ofFloat]
    exact h.rounded_eq

/-- A finite number that was read is shown as a numeral that is read as this
number. -/
theorem exists_numeral_literalText {d : Decimal} (h : d.toFloat.isInf = false) :
    ∃ n : Numeral, n.text = (literalText d.toFloat).toList ∧ n.reading = d.toFloat := by
  rw [Decimal.toFloat_eq] at h ⊢
  rcases rounded_cases d.value_nonneg with hzero | ⟨m, e, hparts⟩ | hinfinity
  · have htext : literalText (rounded d.value) = "0" := by
      rw [hzero]
      decide +kernel
    rw [htext, hzero]
    exact ⟨⟨['0'], none, none, Decimal.isDigit_zeros 1, by simp, .inl (by simp)⟩, rfl, by
      decide +kernel⟩
  · generalize rounded d.value = x at hparts ⊢
    have htext : literalText x = (shortest x).trim.plain := by
      rw [literalText, hparts.isNaN, hparts.isInf, hparts.isNegative,
        hparts.beq_zero, hparts.abs]
      exact String.empty_append
    obtain ⟨n, htext', hnone, hvalue⟩ := (shortest x).trim.exists_numeral_plain
    refine ⟨n, by rw [htext, htext'], ?_⟩
    rw [Numeral.reading, hnone, Option.elim_none, Decimal.toFloat_eq, hvalue,
      Decimal.value_trim, ← Decimal.toFloat_eq, hparts.toFloat_shortest]
  · rw [hinfinity] at h
    exact absurd h (by decide)

end StackCalc
