import StackCalc.Number.Binary
import StackCalc.Proofs.Number.Nearest

/-!
# Doubles as bits

A double is stored as a sign, a scale and a fraction. A canonical mantissa and
exponent are stored without loss if the exponent fits (`unpack_pack`), and the
model reads them off the bits as they are (`HasParts.ofFloat`). Comparison for
equality of such doubles is equality (`HasParts.rounded_eq_of_beq`).
-/

namespace StackCalc

open Float.Model (Format UnpackedFloat)
open Float.Model.UnpackedFloat
  (Sign packComponents unpackSign unpackExponent unpackMantissa)

namespace Nearest

/-! ### Components -/

theorem ofBitVec_unpackSign {spec : Format} (s : Sign) (scale : BitVec spec.exponentBits)
    (fraction : BitVec spec.mantissaBitsWithoutImplicit) :
    Sign.ofBitVec (unpackSign (packComponents spec s scale fraction)) = s := by
  have hsign : unpackSign (packComponents spec s scale fraction) = s.toBitVec := by
    ext i hi
    obtain rfl : i = 0 := by omega
    simp [unpackSign, packComponents, BitVec.getLsbD_append, BitVec.getElem_append]
  rw [hsign]
  cases s <;> rfl

theorem toNat_packComponents {spec : Format} (scale : BitVec spec.exponentBits)
    (fraction : BitVec spec.mantissaBitsWithoutImplicit) :
    (packComponents spec .positive scale fraction).toNat =
      scale.toNat * 2 ^ spec.mantissaBitsWithoutImplicit + fraction.toNat := by
  have hzero : (Sign.toBitVec .positive ++ scale).toNat = scale.toNat := by
    simp [Sign.toBitVec, BitVec.toNat_append]
  rw [packComponents, BitVec.toNat_append, hzero,
    ← Nat.shiftLeft_add_eq_or_of_lt fraction.isLt, Nat.shiftLeft_eq]

variable {m : ℕ} {e : ℤ}

theorem biased_eq (e : ℤ) :
    e + Format.binary64.exponentBias + Format.binary64.mantissaBitsWithoutImplicit =
      e + 1075 := by
  show e + (1023 : ℕ) + (52 : ℕ) = e + 1075
  omega

/-- The scale that a canonical mantissa and exponent are stored with. -/
def scaleOf (m : ℕ) (e : ℤ) : ℕ :=
  if 2 ^ 52 ≤ m then (e + 1075).toNat else 0

/-- A canonical mantissa is stored without its first bit, if that is set, and
else with the scale zero. -/
theorem pack_finite (h : Canonical m e) (he : e ≤ 971) :
    UnpackedFloat.pack .binary64 (.finite .positive m e h.pos) =
      packComponents .binary64 .positive (.ofNat _ (scaleOf m e)) (.ofNat _ m) := by
  have hleast := h.le
  have hbits := (Nat.log2_lt h.pos.ne').2 h.lt
  have hfits : ¬ 2 ^ Format.binary64.exponentBits ≤ (e + 1075).toNat + 1 := by
    show ¬ 2 ^ 11 ≤ (e + 1075).toNat + 1
    omega
  simp only [UnpackedFloat.pack]
  rw [biased_eq, if_neg hfits, scaleOf]
  -- a mantissa of 53 bits is normal, and one with fewer stands in the least
  -- place
  by_cases hnormal : 2 ^ 52 ≤ m
  · have hfirst := (Nat.le_log2 h.pos.ne').2 hnormal
    have hfull : m.log2 + 1 = Format.binary64.mantissaBits := by
      show m.log2 + 1 = 53
      omega
    rw [if_pos hfull, if_pos hnormal]
  · have hfirst : m.log2 < 52 := by
      rw [Nat.log2_lt h.pos.ne']
      omega
    have hshort : m.log2 + 1 ≠ Format.binary64.mantissaBits := by
      show m.log2 + 1 ≠ 53
      omega
    rw [if_neg hshort, if_neg hnormal]

/-- An exponent that does not fit is stored as infinity. -/
theorem pack_large {hm : 0 < m} (he : 972 ≤ e) :
    UnpackedFloat.pack .binary64 (.finite .positive m e hm) =
      UnpackedFloat.packedInfinity .binary64 .positive := by
  have hlarge : 2 ^ Format.binary64.exponentBits ≤ (e + 1075).toNat + 1 := by
    show 2 ^ 11 ≤ (e + 1075).toNat + 1
    omega
  simp only [UnpackedFloat.pack]
  rw [biased_eq, if_pos hlarge]

/-- The largest scale is left for infinity. -/
theorem scaleOf_lt (h : Canonical m e) (he : e ≤ 971) : scaleOf m e < 2047 := by
  have hleast := h.le
  rw [scaleOf]
  split <;> omega

theorem finite_congr {s : Sign} {m' : ℕ} {e' : ℤ} {hm : 0 < m} {hm' : 0 < m'} (h : m = m')
    (he : e = e') :
    UnpackedFloat.finite s m e hm = .finite s m' e' hm' := by
  subst h he
  rfl

theorem toNat_append_one (fraction : BitVec 52) :
    (1#1 ++ fraction).toNat = 2 ^ 52 + fraction.toNat := by
  rw [BitVec.toNat_append, ← Nat.shiftLeft_add_eq_or_of_lt fraction.isLt]
  rfl

/-- Canonical mantissas and exponents that fit are stored without loss. -/
theorem unpack_pack (h : Canonical m e) (he : e ≤ 971) :
    UnpackedFloat.unpack .binary64
      (UnpackedFloat.pack .binary64 (.finite .positive m e h.pos)) =
      .finite .positive m e h.pos := by
  have hleast := h.le
  have hlt := h.lt
  have hscale := scaleOf_lt h he
  have hsame : (BitVec.ofNat 11 (scaleOf m e)).toNat = scaleOf m e := by
    rw [BitVec.toNat_ofNat, Nat.mod_eq_of_lt (by omega)]
  have hfinite : BitVec.ofNat 11 (scaleOf m e) ≠ -1#11 := by
    intro heq
    have hall : (BitVec.ofNat 11 (scaleOf m e)).toNat = 2047 := by rw [heq]; rfl
    omega
  rw [pack_finite h he]
  simp only [UnpackedFloat.unpack,
    Float.Model.UnpackedFloat.unpackMantissa_packComponents,
    Float.Model.UnpackedFloat.unpackExponent_packComponents, ofBitVec_unpackSign]
  rw [if_neg hfinite]
  -- a normal mantissa gets its first bit back; the others are stored as they
  -- are
  by_cases hnormal : 2 ^ 52 ≤ m
  · have hplace : scaleOf m e = (e + 1075).toNat := if_pos hnormal
    have hzero : BitVec.ofNat 11 (scaleOf m e) ≠ 0#11 := by
      intro heq
      have hnone : (BitVec.ofNat 11 (scaleOf m e)).toNat = 0 := by rw [heq]; rfl
      omega
    rw [if_neg hzero]
    refine finite_congr ?_ ?_
    · have hfraction : (BitVec.ofNat 52 m).toNat = m - 2 ^ 52 := by
        rw [BitVec.toNat_ofNat]
        omega
      rw [toNat_append_one, hfraction]
      omega
    · show ((BitVec.ofNat 11 (scaleOf m e)).toNat : ℤ) - ((1023 : ℕ) + (52 : ℕ)) = e
      omega
  · have hplace : scaleOf m e = 0 := if_neg hnormal
    have hfraction : (BitVec.ofNat 52 m).toNat = m := by
      rw [BitVec.toNat_ofNat]
      omega
    have hzero : BitVec.ofNat 52 m ≠ 0#52 := by
      intro heq
      have hnone : (BitVec.ofNat 52 m).toNat = 0 := by rw [heq]; rfl
      have := h.pos
      omega
    have hlast := h.eq_least (Nat.lt_of_not_le hnormal)
    rw [hplace, if_pos rfl, dif_neg hzero]
    refine finite_congr hfraction ?_
    rw [hlast]
    rfl

/-! ### Positive doubles -/

/-- The number with the given sign, mantissa and exponent. -/
def ofUnpacked (u : UnpackedFloat) : Float :=
  .ofModel (.pack u)

theorem infinity_eq : Decimal.infinity = ofUnpacked (.infinity .positive) := by
  decide

theorem zero_eq : (0.0 : Float) = ofUnpacked (.zero .positive) := by
  decide

/-- `x` is the positive double with mantissa `m` and exponent `e`. -/
structure HasParts (x : Float) (m : ℕ) (e : ℤ) : Prop where
  canonical : Canonical m e
  fits : e ≤ 971
  eq_pack : x = ofUnpacked (.finite .positive m e canonical.pos)

variable {x : Float}

theorem HasParts.unpack (h : HasParts x m e) :
    x.toModel.unpack = .finite .positive m e h.canonical.pos := by
  obtain ⟨hcanonical, hfits, rfl⟩ := h
  exact unpack_pack hcanonical hfits

/-- A positive double is a number. -/
theorem HasParts.isNaN (h : HasParts x m e) : x.isNaN = false := by
  show x.toModel.unpack.isNaN = false
  rw [h.unpack]
  rfl

/-- It is finite. -/
theorem HasParts.isInf (h : HasParts x m e) : x.isInf = false := by
  show x.toModel.unpack.isInf = false
  rw [h.unpack]
  rfl

theorem HasParts.abs (h : HasParts x m e) : x.abs = x := by
  show ofUnpacked x.toModel.unpack.abs = x
  rw [h.unpack]
  exact h.eq_pack.symm

theorem HasParts.beq_zero (h : HasParts x m e) : (x == 0.0) = false := by
  have hzero : (0.0 : Float).toModel.unpack = .zero .positive := by
    rw [zero_eq]
    rfl
  show UnpackedFloat.beq x.toModel.unpack (0.0 : Float).toModel.unpack = false
  rw [h.unpack, hzero]
  rfl

theorem HasParts.toNat_toBits (h : HasParts x m e) :
    x.toBits.toNat = scaleOf m e * 2 ^ 52 + m % 2 ^ 52 := by
  have hscale := scaleOf_lt h.canonical h.fits
  rw [h.eq_pack]
  show (UnpackedFloat.pack .binary64 (.finite .positive m e h.canonical.pos)).toNat = _
  rw [pack_finite h.canonical h.fits, toNat_packComponents, BitVec.toNat_ofNat,
    BitVec.toNat_ofNat]
  show scaleOf m e % 2 ^ 11 * 2 ^ 52 + m % 2 ^ 52 = _
  rw [Nat.mod_eq_of_lt (by omega)]

theorem HasParts.isNegative (h : HasParts x m e) : isNegative x = false := by
  have hscale := scaleOf_lt h.canonical h.fits
  have hsmall : ¬ Nat.pow 2 63 ≤ x.toBits.toNat := by
    rw [h.toNat_toBits]
    show ¬ 2 ^ 63 ≤ _
    omega
  rw [StackCalc.isNegative, decide_eq_false hsmall]

/-- The parts are read off the bits. -/
theorem HasParts.ofFloat (h : HasParts x m e) : Binary.ofFloat x = ⟨m, e⟩ := by
  have hscale := scaleOf_lt h.canonical h.fits
  have hlt := h.canonical.lt
  have hleast := h.canonical.le
  have hplace : x.toBits.toNat / Nat.pow 2 52 % Nat.pow 2 11 = scaleOf m e := by
    rw [h.toNat_toBits]
    show (scaleOf m e * 2 ^ 52 + m % 2 ^ 52) / 2 ^ 52 % 2 ^ 11 = _
    omega
  have hfraction : x.toBits.toNat % Nat.pow 2 52 = m % 2 ^ 52 := by
    rw [h.toNat_toBits]
    show (scaleOf m e * 2 ^ 52 + m % 2 ^ 52) % 2 ^ 52 = _
    omega
  simp only [Binary.ofFloat, hplace, hfraction]
  by_cases hnormal : 2 ^ 52 ≤ m
  · have hscale' : scaleOf m e = (e + 1075).toNat := if_pos hnormal
    rw [if_neg (by omega), Binary.mk.injEq]
    constructor
    · show 2 ^ 52 + m % 2 ^ 52 = m
      omega
    · omega
  · have hlast := h.canonical.eq_least (Nat.lt_of_not_le hnormal)
    have hnone : scaleOf m e = 0 := if_neg hnormal
    rw [if_pos hnone, hlast, Nat.mod_eq_of_lt (by omega)]

/-! ### Nearest numbers -/

/-- The number nearest to `v`. -/
def rounded (v : ℚ) : Float :=
  ofUnpacked (nearest v)

variable {v : ℚ}

/-- An exponent that does not fit gives infinity. -/
theorem ofUnpacked_large {hm : 0 < m} (he : 972 ≤ e) :
    ofUnpacked (.finite .positive m e hm) = Decimal.infinity := by
  have hmodel : Float.Model.pack (.finite .positive m e hm) =
      Float.Model.pack (.infinity .positive) := by
    rw [Float.Model.mk.injEq]
    exact congrArg UInt64.ofBitVec (pack_large he)
  rw [infinity_eq, ofUnpacked, ofUnpacked, hmodel]

theorem rounded_of_large (h : 2 ^ (1024 : ℤ) ≤ v) : rounded v = Decimal.infinity := by
  have hv : 0 < v := (zpow_pos two_pos 1024).trans_le h
  have hplace : 972 ≤ lastPlace v := by
    have hlog := (Int.zpow_le_iff_le_log one_lt_two hv).1 h
    rw [lastPlace]
    omega
  rcases nearest_cases hv with ⟨hleast, -⟩ | ⟨m, e, hcanonical, hle, heq⟩
  · omega
  · rw [rounded, heq, ofUnpacked_large (by omega)]

/-- A value below half the least double is nearest to zero. -/
theorem rounded_of_small (hv : 0 ≤ v) (h : v < 2 ^ (-1075 : ℤ)) : rounded v = 0.0 := by
  rw [rounded, nearest_of_lt hv h, zero_eq]

/-- The number nearest to a value is zero, a positive double or infinity. -/
theorem rounded_cases (hv : 0 ≤ v) :
    rounded v = 0.0 ∨ (∃ m e, HasParts (rounded v) m e) ∨
    rounded v = Decimal.infinity := by
  rcases hv.eq_or_lt with rfl | hv
  · left
    rw [rounded, nearest_zero, zero_eq]
  · rcases nearest_cases hv with ⟨-, hzero⟩ | ⟨m, e, hcanonical, -, heq⟩
    · left
      rw [rounded, hzero, zero_eq]
    · right
      by_cases hfits : e ≤ 971
      · left
        exact ⟨m, e, hcanonical, hfits, by rw [rounded, heq]⟩
      · right
        rw [rounded, heq, ofUnpacked_large (by omega)]

/-- A number is nearest to its own value. -/
theorem HasParts.rounded_eq (h : HasParts x m e) : rounded (m * 2 ^ e) = x := by
  rw [rounded, h.canonical.nearest_eq, ← h.eq_pack]

/-- Nearest numbers that compare equal to a positive double are that double. -/
theorem HasParts.rounded_eq_of_beq (h : HasParts x m e) (hv : 0 ≤ v)
    (heq : (rounded v == x) = true) :
    rounded v = x := by
  have hcompare : UnpackedFloat.compare (rounded v).toModel.unpack x.toModel.unpack =
      some .eq :=
    eq_of_beq heq
  rw [h.unpack] at hcompare
  -- the parts of doubles that compare equal are equal, and neither zero nor
  -- infinity compares equal to a positive double
  rcases rounded_cases hv with hzero | ⟨m', e', h'⟩ | hinfinity
  · rw [hzero, zero_eq] at hcompare
    cases hcompare
  · rw [h'.unpack] at hcompare
    have hparts : (compare e' e).then (compare m' m) = .eq := Option.some.inj hcompare
    rw [Ordering.then_eq_eq, compare_eq_iff_eq, compare_eq_iff_eq] at hparts
    obtain ⟨rfl, rfl⟩ := hparts
    rw [h'.eq_pack, h.eq_pack]
  · rw [hinfinity, infinity_eq] at hcompare
    cases hcompare

end Nearest

end StackCalc
