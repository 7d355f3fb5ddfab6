import Mathlib.Computability.Language
import StackCalc.Token.Lexer

/-!
# Numerals

The texts that are read as numbers. A `Numeral` is such a text in its parts:
digits, a point with the digits behind it, an exponent. What the lexer measures
with `numberLength` is the longest numeral in front, and reading a numeral
yields the number its parts stand for.

- `Lexer.numeral`: the numerals as a language, `Numeral.mem_language` that these
  are the texts of `Numeral`.
- `Numeral.length_le`, `Numeral.exists_take`: the lexer takes a numeral, and the
  longest one.
- `Numeral.read_text`, `Numeral.reading_eq_value`: what a numeral is read as,
  and that this is the number it stands for unless both its exponent and its
  digits go on beyond all measure.
- `Numeral.text_injective`: a text has its parts in one way only.
-/

namespace StackCalc

open Decimal (isDigit)
open scoped Computability

/-! ### Patterns -/

namespace Lexer

/-- The texts of one character that satisfies `p`. -/
def one (p : Char → Bool) : Language Char :=
  {w | ∃ c, p c ∧ w = [c]}

/-- One text of `l` or several in a row. -/
def several (l : Language Char) : Language Char :=
  l * l∗

theorem mem_one {p : Char → Bool} {w : List Char} : w ∈ one p ↔ ∃ c, p c ∧ w = [c] :=
  Iff.rfl

/-- A row of characters that each satisfy `p`. -/
theorem mem_kstar_one {p : Char → Bool} {w : List Char} :
    w ∈ (one p)∗ ↔ ∀ c ∈ w, p c := by
  constructor
  · rintro ⟨ws, rfl, hws⟩ c hc
    obtain ⟨w, hw, hcw⟩ := List.mem_flatten.mp hc
    obtain ⟨d, hd, rfl⟩ := mem_one.mp (hws w hw)
    rwa [List.mem_singleton.mp hcw]
  · intro hw
    refine Language.mem_kstar.mpr ⟨w.map fun c => [c], ?_, ?_⟩
    · simp [← List.flatMap_def]
    · intro v hv
      obtain ⟨c, hc, rfl⟩ := List.mem_map.mp hv
      exact ⟨c, hw c hc, rfl⟩

/-- A row of characters that each satisfy `p`, at least one of them. -/
theorem mem_several_one {p : Char → Bool} {w : List Char} :
    w ∈ several (one p) ↔ w ≠ [] ∧ ∀ c ∈ w, p c := by
  rw [several, Language.mem_mul]
  constructor
  · rintro ⟨_, ⟨c, hc, rfl⟩, ds, hds, rfl⟩
    exact ⟨List.cons_ne_nil c ds, List.forall_mem_cons.mpr ⟨hc, mem_kstar_one.mp hds⟩⟩
  · rintro ⟨hne, hw⟩
    obtain ⟨c, ds, rfl⟩ := List.exists_cons_of_ne_nil hne
    obtain ⟨hc, hds⟩ := List.forall_mem_cons.mp hw
    exact ⟨[c], ⟨c, hc, rfl⟩, ds, mem_kstar_one.mpr hds, rfl⟩

/-- The language of a digit. -/
def digit : Language Char :=
  one isDigit

/-- The language of a point. -/
def point : Language Char :=
  one (· = '.')

/-- What an exponent is: `[eE][+-]?\d+`. -/
def exponentPattern : Language Char :=
  one (fun c => c = 'e' || c = 'E') * (1 + one fun c => c = '+' || c = '-') *
    several digit

/-- What a numeral is: `(\d*\.\d+|\d+\.?)([eE][+-]?\d+)?`. -/
def numeral : Language Char :=
  (digit∗ * point * several digit + several digit * (1 + point)) * (1 + exponentPattern)

end Lexer

/-! ### Numerals in parts -/

/-- The exponent of a numeral: a mark, an optional sign, and digits. -/
structure Exponent where
  mark : Char
  sign : Option Char
  digits : List Char
  mark_eq : mark = 'e' ∨ mark = 'E'
  sign_eq : ∀ c ∈ sign, c = '+' ∨ c = '-'
  digits_ne_nil : digits ≠ []
  isDigit_digits : ∀ c ∈ digits, isDigit c

namespace Exponent

/-- The text of an exponent. -/
def text (e : Exponent) : List Char :=
  e.mark :: (e.sign.toList ++ e.digits)

/-- A number with the sign of an exponent. -/
def signed (e : Exponent) (n : Nat) : Int :=
  if e.sign = some '-' then -(n : Int) else n

/-- The number an exponent stands for. -/
def value (e : Exponent) : Int :=
  e.signed (Decimal.ofDigits e.digits)

/-- The number an exponent is read as, which stops growing. -/
def reading (e : Exponent) : Int :=
  e.signed (exponentValue e.digits)

/-- A text is that of one exponent at most. -/
theorem text_injective {e e' : Exponent} (h : e.text = e'.text) : e = e' := by
  obtain ⟨mark, sign, ds, hmark, hsign, hne, hds⟩ := e
  obtain ⟨mark', sign', ds', hmark', hsign', hne', hds'⟩ := e'
  obtain ⟨rfl, htail⟩ := List.cons.inj h
  dsimp only at htail
  -- a sign is no digit, so either both exponents have one or neither has
  have hdigit : ∀ {c : Char} {cs : List Char}, c = '+' ∨ c = '-' → ¬ ∀ d ∈ c :: cs,
      isDigit d := by
    rintro c cs (rfl | rfl) hcs
    · exact absurd (hcs _ List.mem_cons_self) (by decide)
    · exact absurd (hcs _ List.mem_cons_self) (by decide)
  cases sign with
  | none =>
    cases sign' with
    | none =>
      obtain rfl : ds = ds' := htail
      rfl
    | some c =>
      obtain rfl : ds = c :: ds' := htail
      exact absurd hds (hdigit (hsign' c rfl))
  | some c =>
    cases sign' with
    | none =>
      obtain rfl : c :: ds = ds' := htail
      exact absurd hds' (hdigit (hsign c rfl))
    | some c' =>
      obtain ⟨rfl, rfl⟩ := List.cons.inj htail
      rfl

end Exponent

/-- A numeral: digits, a point and the digits behind it, and an exponent. Point
and exponent may be missing, and there is at least one digit in front of the
exponent. -/
structure Numeral where
  whole : List Char
  /-- The digits behind the point, if there is one. -/
  fraction : Option (List Char)
  exponent : Option Exponent
  isDigit_whole : ∀ c ∈ whole, isDigit c
  isDigit_fraction : ∀ ds ∈ fraction, ∀ c ∈ ds, isDigit c
  exists_digit : whole ≠ [] ∨ ∃ ds ∈ fraction, ds ≠ []

namespace Numeral

/-- The text of the point and the digits behind it. -/
def fractionText (fraction : Option (List Char)) : List Char :=
  fraction.elim [] ('.' :: ·)

/-- The text of an exponent that may be missing. -/
def exponentText (exponent : Option Exponent) : List Char :=
  exponent.elim [] Exponent.text

/-- The text of a numeral. -/
def text (n : Numeral) : List Char :=
  n.whole ++ (fractionText n.fraction ++ exponentText n.exponent)

/-- The digits of a numeral, those behind the point last. -/
def digits (n : Numeral) : List Char :=
  n.whole ++ n.fraction.getD []

/-- The decimal of the digits of a numeral with a given exponent: one number,
scaled by the exponent less the places behind the point. -/
def decimal (n : Numeral) (exponent : Int) : Decimal :=
  ⟨Decimal.ofDigits n.digits, exponent - (n.fraction.getD []).length⟩

/-- The number a numeral stands for: the double nearest to its decimal. -/
def value (n : Numeral) : Float :=
  (n.decimal (n.exponent.elim 0 Exponent.value)).toFloat

/-- The number a numeral is read as. -/
def reading (n : Numeral) : Float :=
  (n.decimal (n.exponent.elim 0 Exponent.reading)).toFloat

/-- A numeral is moderate if it has not more than 16000 digits in front of its
exponent, or an exponent that is read in full. -/
def Moderate (n : Numeral) : Prop :=
  n.digits.length ≤ 16000 ∨ ∀ e ∈ n.exponent, Decimal.ofDigits e.digits < 65536

/-! ### The language of numerals -/

open Lexer

/-- The texts of exponents are those of the pattern. -/
theorem mem_exponentPattern {w : List Char} :
    w ∈ exponentPattern ↔ ∃ e : Exponent, e.text = w := by
  constructor
  · intro h
    obtain ⟨_, ⟨_, ⟨c, hc, rfl⟩, s, hs, rfl⟩, ds, hds, rfl⟩ := h
    obtain ⟨hne, hds⟩ := mem_several_one.mp hds
    have hmark : c = 'e' ∨ c = 'E' := by simpa using hc
    rcases (Language.mem_add _ _ _).mp hs with hnone | ⟨d, hd, rfl⟩
    · rw [(Language.mem_one s).mp hnone]
      exact ⟨⟨c, none, ds, hmark, by simp, hne, hds⟩, rfl⟩
    · have hsign : d = '+' ∨ d = '-' := by simpa using hd
      exact ⟨⟨c, some d, ds, hmark, by simpa using hsign, hne, hds⟩, rfl⟩
  · rintro ⟨e, rfl⟩
    have hsign : e.sign.toList ∈ (1 + one fun c => c = '+' || c = '-') := by
      rw [Language.mem_add]
      cases hs : e.sign with
      | none => exact .inl rfl
      | some c => exact .inr ⟨c, by simpa using e.sign_eq c hs, rfl⟩
    have hmark : [e.mark] ∈ one fun c => c = 'e' || c = 'E' :=
      ⟨e.mark, by simpa using e.mark_eq, rfl⟩
    have hdigits := mem_several_one.mpr ⟨e.digits_ne_nil, e.isDigit_digits⟩
    exact Language.append_mem_mul (Language.append_mem_mul hmark hsign) hdigits

/-- An exponent may be missing. -/
theorem mem_exponents {w : List Char} :
    w ∈ 1 + exponentPattern ↔ ∃ x : Option Exponent, exponentText x = w := by
  rw [Language.mem_add, mem_exponentPattern, Language.mem_one]
  constructor
  · rintro (rfl | ⟨e, rfl⟩)
    · exact ⟨none, rfl⟩
    · exact ⟨some e, rfl⟩
  · rintro ⟨_ | e, rfl⟩
    · exact .inl rfl
    · exact .inr ⟨e, rfl⟩

/-- The texts of numerals are those of the pattern. -/
theorem mem_language {w : List Char} : w ∈ numeral ↔ ∃ n : Numeral, n.text = w := by
  constructor
  · rintro ⟨m, hm, x, hx, rfl⟩
    obtain ⟨exponent, rfl⟩ := mem_exponents.mp hx
    rcases (Language.mem_add _ _ _).mp hm with hpoint | hwhole
    · obtain ⟨_, ⟨ds, hds, _, ⟨c, hc, rfl⟩, rfl⟩, fs, hfs, rfl⟩ := hpoint
      obtain rfl : c = '.' := by simpa using hc
      obtain ⟨hne, hfs⟩ := mem_several_one.mp hfs
      refine ⟨⟨ds, some fs, exponent, mem_kstar_one.mp hds, ?_, .inr ⟨fs, rfl, hne⟩⟩, ?_⟩
      · rintro _ ⟨⟩
        exact hfs
      · simp [text, fractionText]
    · obtain ⟨ds, hds, p, hp, rfl⟩ := hwhole
      obtain ⟨hne, hds⟩ := mem_several_one.mp hds
      rcases (Language.mem_add _ _ _).mp hp with hnone | ⟨c, hc, rfl⟩
      · rw [(Language.mem_one p).mp hnone]
        exact ⟨⟨ds, none, exponent, hds, by simp, .inl hne⟩, by simp [text, fractionText]⟩
      · obtain rfl : c = '.' := by simpa using hc
        exact ⟨⟨ds, some [], exponent, hds, by simp, .inl hne⟩, by
          simp [text, fractionText]⟩
  · rintro ⟨n, rfl⟩
    have hexponent : exponentText n.exponent ∈ 1 + exponentPattern :=
      mem_exponents.mpr ⟨n.exponent, rfl⟩
    have hpoint : ['.'] ∈ point := ⟨'.', rfl, rfl⟩
    rw [text, ← List.append_assoc]
    refine Language.append_mem_mul ((Language.mem_add _ _ _).mpr ?_) hexponent
    -- a point with digits behind it is one branch of the pattern, anything else the other
    rcases hfraction : n.fraction with _ | _ | ⟨c, fs⟩
    · have hne : n.whole ≠ [] := by simpa [hfraction] using n.exists_digit
      exact .inr (Language.append_mem_mul (mem_several_one.mpr ⟨hne, n.isDigit_whole⟩)
        (.inl rfl))
    · have hne : n.whole ≠ [] := by simpa [hfraction] using n.exists_digit
      exact .inr (Language.append_mem_mul (mem_several_one.mpr ⟨hne, n.isDigit_whole⟩)
        (.inr hpoint))
    · have hdigits := n.isDigit_fraction _ hfraction
      have hmem := Language.append_mem_mul
        (Language.append_mem_mul (mem_kstar_one.mpr n.isDigit_whole) hpoint)
        (mem_several_one.mpr ⟨List.cons_ne_nil c fs, hdigits⟩)
      rw [List.append_assoc] at hmem
      exact .inl hmem

/-! ### The longest numeral in front -/

theorem digitsLength_append {ds : List Char} (h : ∀ c ∈ ds, isDigit c)
    (rest : List Char) :
    digitsLength (ds ++ rest) = ds.length + digitsLength rest := by
  rw [digitsLength, digitsLength, List.takeWhile_append_of_pos h, List.length_append]

theorem digitsLength_of_not {c : Char} (h : isDigit c = false) (rest : List Char) :
    digitsLength (c :: rest) = 0 := by
  simp [digitsLength, h]

/-- Neither the mark nor the sign of an exponent is a digit. -/
theorem digitsLength_exponent (e : Exponent) (rest : List Char) :
    digitsLength (e.text ++ rest) = 0 := by
  refine digitsLength_of_not ?_ _
  rcases e.mark_eq with h | h <;> rw [h] <;> rfl

theorem fractionLength_exponent (e : Exponent) (rest : List Char) :
    fractionLength (e.text ++ rest) = 0 := by
  rw [Exponent.text, List.cons_append]
  rcases e.mark_eq with h | h <;> rw [h] <;> rfl

/-- An exponent in front is measured with the digits that follow it. -/
theorem exponentLength_text (e : Exponent) (rest : List Char) :
    exponentLength (e.text ++ rest) = e.text.length + digitsLength rest := by
  have hdigits := digitsLength_append e.isDigit_digits rest
  have hpos : 0 < e.digits.length := List.length_pos_iff.mpr e.digits_ne_nil
  -- the sign is measured as what it is; digits follow it
  have hsign : signLength (e.sign.toList ++ e.digits ++ rest) = e.sign.toList.length := by
    cases hs : e.sign with
    | some c => rcases e.sign_eq c hs with rfl | rfl <;> rfl
    | none =>
      obtain ⟨c, ds, heq⟩ := List.exists_cons_of_ne_nil e.digits_ne_nil
      have hc : isDigit c := e.isDigit_digits c (heq ▸ List.mem_cons_self)
      rw [heq]
      show signLength (c :: (ds ++ rest)) = 0
      unfold signLength
      split
      · rename_i h
        cases h
        exact absurd hc (by decide)
      · rename_i h
        cases h
        exact absurd hc (by decide)
      · rfl
  rw [Exponent.text, List.cons_append, exponentLength, if_pos e.mark_eq]
  dsimp only
  rw [hsign, List.append_assoc, List.drop_left, hdigits, if_neg (by omega),
    List.length_cons, List.length_append]
  omega

/-- No numeral in front is longer than what is measured. -/
theorem length_le {n : Numeral} {cs : List Char} (h : n.text <+: cs) :
    n.text.length ≤ numberLength cs := by
  obtain ⟨rest, rfl⟩ := h
  have hwhole := digitsLength_append n.isDigit_whole
    (fractionText n.fraction ++ (exponentText n.exponent ++ rest))
  rw [text, List.append_assoc, List.append_assoc, numberLength, hwhole,
    List.length_append, List.length_append]
  -- a point ends the digits in front, and so does the mark of an exponent
  cases hfraction : n.fraction with
  | none =>
    cases n.exponent with
    | none =>
      simp only [fractionText, exponentText, Option.elim, List.length_nil]
      omega
    | some e =>
      simp only [fractionText, exponentText, Option.elim, List.length_nil,
        List.nil_append, digitsLength_exponent, Nat.add_zero, List.drop_left,
        fractionLength_exponent, exponentLength_text]
      omega
  | some fs =>
    have hdigits := n.isDigit_fraction fs hfraction
    have hpoint : ∀ r, digitsLength ('.' :: r) = 0 := digitsLength_of_not rfl
    simp only [fractionText, Option.elim, List.cons_append, hpoint, Nat.add_zero,
      List.drop_left, fractionLength, digitsLength_append hdigits, List.length_cons]
    cases n.exponent with
    | none =>
      simp only [exponentText, Option.elim, List.length_nil]
      omega
    | some e =>
      have hdrop : (n.whole ++ '.' :: (fs ++ (e.text ++ rest))).drop
          (n.whole.length + (fs.length + 1)) = e.text ++ rest := by
        rw [← List.drop_drop, List.drop_left, List.drop_succ_cons, List.drop_left]
      simp only [exponentText, Option.elim, digitsLength_exponent, Nat.add_zero, hdrop,
        exponentLength_text]
      omega

theorem isDigit_take_digitsLength (cs : List Char) :
    ∀ c ∈ cs.take (digitsLength cs), isDigit c := by
  intro c hc
  rw [digitsLength, ← List.prefix_iff_eq_take.mp (List.takeWhile_prefix isDigit)] at hc
  exact (List.all_eq_true.mp List.all_takeWhile) c hc

/-- What is measured as an exponent is one. -/
theorem exists_exponent (cs : List Char) :
    ∃ x : Option Exponent, exponentText x = cs.take (exponentLength cs) := by
  rcases cs with _ | ⟨c, cs⟩
  · exact ⟨none, rfl⟩
  -- without a mark, or without digits behind it, there is no exponent
  · by_cases hmark : c = 'e' ∨ c = 'E'
    · by_cases hnone : digitsLength (cs.drop (signLength cs)) = 0
      · refine ⟨none, ?_⟩
        simp [exponentLength, hmark, hnone, exponentText]
      · have hlength : exponentLength (c :: cs) =
            (signLength cs + digitsLength (cs.drop (signLength cs))) + 1 := by
          rw [exponentLength, if_pos hmark]
          dsimp only
          rw [if_neg hnone]
          omega
        have hsign : ∃ s : Option Char, (∀ d ∈ s, d = '+' ∨ d = '-') ∧
            s.toList = cs.take (signLength cs) := by
          unfold signLength
          split
          · exact ⟨some '+', by simp, rfl⟩
          · exact ⟨some '-', by simp, rfl⟩
          · exact ⟨none, by simp, rfl⟩
        obtain ⟨s, hs, htake⟩ := hsign
        have hne : (cs.drop (signLength cs)).take
            (digitsLength (cs.drop (signLength cs))) ≠ [] := by
          intro hnil
          rcases List.take_eq_nil_iff.mp hnil with h | h
          · exact hnone h
          · exact hnone (by rw [h]; rfl)
        refine ⟨some ⟨c, s, _, hmark, hs, hne, isDigit_take_digitsLength _⟩, ?_⟩
        rw [hlength, List.take_succ_cons, List.take_add, ← htake]
        rfl
    · exact ⟨none, by simp [exponentLength, hmark, exponentText]⟩

/-- What is measured as a point and digits is such. -/
theorem exists_fraction (cs : List Char) : ∃ x : Option (List Char),
    (∀ ds ∈ x, ∀ c ∈ ds, isDigit c) ∧ fractionText x = cs.take (fractionLength cs) ∧
      ((∃ d ds, cs = '.' :: d :: ds ∧ isDigit d) → ∃ ds ∈ x, ds ≠ []) := by
  by_cases hpoint : ∃ ds, cs = '.' :: ds
  · obtain ⟨ds, rfl⟩ := hpoint
    refine ⟨some (ds.take (digitsLength ds)), ?_, rfl, ?_⟩
    · rintro _ ⟨⟩
      exact isDigit_take_digitsLength ds
    · rintro ⟨d, es, heq, hd⟩
      cases heq
      refine ⟨_, rfl, ?_⟩
      simp [digitsLength, hd]
  · refine ⟨none, by simp, ?_, ?_⟩
    · have hzero : fractionLength cs = 0 := by
        unfold fractionLength
        split
        · exact absurd ⟨_, rfl⟩ hpoint
        · rfl
      rw [hzero, List.take_zero]
      rfl
    · rintro ⟨d, es, heq, -⟩
      exact absurd ⟨_, heq⟩ hpoint

/-- What is measured as a number is a numeral. -/
theorem exists_take {c : Char} {cs : List Char} (h : startsNumber c cs) :
    ∃ n : Numeral, n.text = (c :: cs).take (numberLength (c :: cs)) := by
  let whole := digitsLength (c :: cs)
  let rest := (c :: cs).drop whole
  obtain ⟨fraction, hdigits, hfraction, hpoint⟩ := exists_fraction rest
  obtain ⟨exponent, hexponent⟩ :=
    exists_exponent ((c :: cs).drop (whole + fractionLength rest))
  have hsome : (c :: cs).take whole ≠ [] ∨ ∃ ds ∈ fraction, ds ≠ [] := by
    by_cases hc : isDigit c
    · left
      simp [whole, digitsLength, hc]
    · right
      -- no digit in front, so there is a point and a digit behind it
      have hzero : whole = 0 := digitsLength_of_not (by simpa using hc) cs
      rw [startsNumber, Bool.or_eq_true, Bool.and_eq_true, decide_eq_true_eq] at h
      obtain ⟨rfl, hhead⟩ := h.resolve_left hc
      obtain ⟨d, hd, hdigit⟩ := (Option.any_eq_true _ _).mp hhead
      obtain ⟨ds, rfl⟩ := List.head?_eq_some_iff.mp hd
      refine hpoint ⟨d, ds, ?_, hdigit⟩
      simp [rest, hzero]
  refine ⟨⟨_, fraction, exponent, isDigit_take_digitsLength (c :: cs), hdigits, hsome⟩,
    ?_⟩
  rw [text, hfraction, hexponent, numberLength, List.take_add, List.take_add,
    List.append_assoc]

/-! ### Reading a numeral -/

/-- The digits in front are split off. -/
theorem takeWhile_digits {ds rest : List Char} (h : ∀ c ∈ ds, isDigit c)
    (hrest : digitsLength rest = 0) :
    (ds ++ rest).takeWhile isDigit = ds ∧ (ds ++ rest).dropWhile isDigit = rest := by
  have hnil : rest.takeWhile isDigit = [] := List.length_eq_zero_iff.mp hrest
  have hdrop : rest.dropWhile isDigit = rest := by
    have hsplit := List.takeWhile_append_dropWhile (p := isDigit) (l := rest)
    rwa [hnil, List.nil_append] at hsplit
  constructor
  · rw [List.takeWhile_append_of_pos h, hnil, List.append_nil]
  · rw [List.dropWhile_append_of_pos h, hdrop]

/-- The text of an exponent is read as what it is. -/
theorem readExponent?_text (x : Option Exponent) :
    readExponent? (exponentText x) = some (x.elim 0 Exponent.reading) := by
  cases x with
  | none => rfl
  | some e =>
    have hall : e.digits.all isDigit := List.all_eq_true.mpr e.isDigit_digits
    show readExponent? (e.mark :: (e.sign.toList ++ e.digits)) = some e.reading
    unfold readExponent?
    dsimp only
    rw [if_pos e.mark_eq, Exponent.reading, Exponent.signed]
    cases hs : e.sign with
    | some c => rcases e.sign_eq c hs with rfl | rfl <;> simp [e.digits_ne_nil, hall]
    | none =>
      -- the first of the digits is no sign
      obtain ⟨c, ds, heq⟩ := List.exists_cons_of_ne_nil e.digits_ne_nil
      have hc : isDigit c := e.isDigit_digits c (heq ▸ List.mem_cons_self)
      have hminus : c ≠ '-' := by
        rintro rfl
        exact absurd hc (by decide)
      have hplus : c ≠ '+' := by
        rintro rfl
        exact absurd hc (by decide)
      rw [heq] at hall ⊢
      simp [hminus, hplus, hall]

/-- An exponent does not start with a digit. -/
theorem digitsLength_exponentText (x : Option Exponent) :
    digitsLength (exponentText x) = 0 := by
  cases x with
  | none => rfl
  | some e => simpa [exponentText] using digitsLength_exponent e []

/-- What follows the digits in front is no point, unless there is a fraction. -/
theorem exponentText_ne_point (x : Option Exponent) (cs : List Char) :
    exponentText x ≠ '.' :: cs := by
  intro heq
  cases x with
  | none => cases heq
  | some e =>
    have hc : e.mark = '.' := (List.cons.inj heq).1
    rcases e.mark_eq with h | h <;> exact absurd (h.symm.trans hc) (by decide)

/-- The text of a numeral is read as the decimal of its parts. -/
theorem read?_text (n : Numeral) :
    Decimal.read? n.text = some (n.decimal (n.exponent.elim 0 Exponent.reading)) := by
  have hexponent := digitsLength_exponentText n.exponent
  rw [Decimal.read?, text, decimal, digits]
  cases hfraction : n.fraction with
  | none =>
    have hne : n.whole ≠ [] := by simpa [hfraction] using n.exists_digit
    obtain ⟨htake, hdrop⟩ := takeWhile_digits n.isDigit_whole hexponent
    have hmark := exponentText_ne_point n.exponent
    simp only [fractionText, Option.elim_none, List.nil_append, htake, hdrop,
      Option.getD_none]
    rw [if_neg fun hc => hne hc.1, readExponent?_text]
    simp
  | some fs =>
    have hfs := n.isDigit_fraction fs hfraction
    have hpoint : digitsLength ('.' :: (fs ++ exponentText n.exponent)) = 0 :=
      digitsLength_of_not rfl _
    obtain ⟨htake, hdrop⟩ := takeWhile_digits n.isDigit_whole hpoint
    obtain ⟨htake', hdrop'⟩ := takeWhile_digits hfs hexponent
    have hne : ¬ (n.whole = [] ∧ fs = []) := by
      rintro ⟨hw, hf⟩
      simpa [hw, hf, hfraction] using n.exists_digit
    simp only [fractionText, Option.elim_some, List.cons_append, htake, hdrop,
      htake', hdrop', Option.getD_some]
    rw [if_neg hne, readExponent?_text]
    rfl

/-- The digits of an exponent are read as their value, unless it is large, and
then it stays large. -/
theorem exponentValue_cases (ds : List Char) :
    exponentValue ds = Decimal.ofDigits ds ∨
      65536 ≤ exponentValue ds ∧ 65536 ≤ Decimal.ofDigits ds := by
  have hstep : ∀ m n : Nat, m = n ∨ 65536 ≤ m ∧ 65536 ≤ n →
      ds.foldl (fun n c => if n < 65536 then 10 * n + (c.toNat - '0'.toNat) else n) m =
          ds.foldl (fun n c => 10 * n + (c.toNat - '0'.toNat)) n ∨
        65536 ≤ ds.foldl (fun n c => if n < 65536 then 10 * n + (c.toNat - '0'.toNat)
          else n) m ∧
          65536 ≤ ds.foldl (fun n c => 10 * n + (c.toNat - '0'.toNat)) n := by
    induction ds with
    | nil => exact fun m n h => h
    | cons c ds ih =>
      intro m n h
      refine ih _ _ ?_
      dsimp only
      split <;> omega
  exact hstep 0 0 (.inl rfl)

/-- A number has as many digits as are written, or fewer. -/
theorem ofDigits_lt {ds : List Char} (h : ∀ c ∈ ds, isDigit c) :
    Decimal.ofDigits ds < Nat.pow 10 ds.length := by
  have hstep : ∀ n k : Nat, n < Nat.pow 10 k →
      ds.foldl (fun n c => 10 * n + (c.toNat - '0'.toNat)) n <
        Nat.pow 10 (k + ds.length) := by
    induction ds with
    | nil => exact fun n k hn => hn
    | cons c ds ih =>
      intro n k hn
      obtain ⟨hc, hds⟩ := List.forall_mem_cons.mp h
      have hdigit : c.toNat - '0'.toNat < 10 := by
        rw [isDigit, Bool.and_eq_true, decide_eq_true_eq, decide_eq_true_eq] at hc
        have hle : c.toNat ≤ '9'.toNat := hc.2
        have hnine : '9'.toNat = '0'.toNat + 9 := rfl
        omega
      have hpow : Nat.pow 10 (k + 1) = Nat.pow 10 k * 10 := rfl
      have hnext := ih hds (10 * n + (c.toNat - '0'.toNat)) (k + 1) (by omega)
      rw [Nat.add_right_comm] at hnext
      exact hnext
  have hall := hstep 0 0 Nat.zero_lt_one
  rwa [Nat.zero_add] at hall

/-- A digit takes less than four bits. -/
theorem log2_ofDigits_le {ds : List Char} (h : ∀ c ∈ ds, isDigit c) :
    (Decimal.ofDigits ds).log2 ≤ 4 * ds.length := by
  by_cases hzero : Decimal.ofDigits ds = 0
  · rw [hzero]
    exact Nat.zero_le _
  · refine Nat.le_of_lt ((Nat.log2_lt hzero).mpr ?_)
    calc Decimal.ofDigits ds
      _ < 10 ^ ds.length := ofDigits_lt h
      _ ≤ (2 ^ 4) ^ ds.length := Nat.pow_le_pow_left (by decide) _
      _ = 2 ^ (4 * ds.length) := (Nat.pow_mul 2 4 ds.length).symm

theorem isDigit_digits (n : Numeral) : ∀ c ∈ n.digits, isDigit c := by
  intro c hc
  rcases List.mem_append.mp hc with hwhole | hfraction
  · exact n.isDigit_whole c hwhole
  · cases hf : n.fraction with
    | none =>
      rw [hf] at hfraction
      cases hfraction
    | some ds =>
      rw [hf] at hfraction
      exact n.isDigit_fraction ds hf c hfraction

/-- Far from the doubles it does not matter how far. -/
theorem toFloat_of_far {c : Nat} {x y : Int} (h : 400 < x ∧ 400 < y ∨
    x + c.log2 + 1 < -400 ∧ y + c.log2 + 1 < -400) :
    Decimal.toFloat ⟨c, x⟩ = Decimal.toFloat ⟨c, y⟩ := by
  unfold Decimal.toFloat
  dsimp only
  split
  · rfl
  · rcases h with ⟨hx, hy⟩ | ⟨hx, hy⟩
    · rw [if_pos hx, if_pos hy]
    · have hx' : ¬ 400 < x := by omega
      have hy' : ¬ 400 < y := by omega
      rw [if_neg hx', if_pos hx, if_neg hy', if_pos hy]

/-- A moderate numeral is read as the number it stands for. -/
theorem reading_eq_value {n : Numeral} (h : n.Moderate) : n.reading = n.value := by
  rw [reading, value]
  cases hx : n.exponent with
  | none => rfl
  | some e =>
    -- an exponent that is not read in full is so large that the number is zero
    -- or infinite either way
    rcases exponentValue_cases e.digits with heq | ⟨hread, hvalue⟩
    · rw [Option.elim_some, Option.elim_some, Exponent.reading, Exponent.value, heq]
    · have hlength : n.digits.length ≤ 16000 := by
        refine h.resolve_right fun hsmall => ?_
        exact absurd (hsmall e hx) (by omega)
      have hlog := log2_ofDigits_le n.isDigit_digits
      have hplaces : (n.fraction.getD []).length ≤ n.digits.length := by
        rw [digits, List.length_append]
        exact Nat.le_add_left _ _
      refine toFloat_of_far ?_
      simp only [Option.elim_some, Exponent.reading, Exponent.value, Exponent.signed]
      split
      · right
        omega
      · left
        omega

/-- A numeral starts like a number. -/
theorem startsNumber_of_text {n : Numeral} {rest : List Char} {c : Char} {cs : List Char}
    (h : n.text ++ rest = c :: cs) : startsNumber c cs := by
  rw [text, List.append_assoc] at h
  rw [startsNumber, Bool.or_eq_true, Bool.and_eq_true, decide_eq_true_eq]
  cases hwhole : n.whole with
  | cons d ds =>
    rw [hwhole] at h
    have hc : d = c := (List.cons.inj h).1
    exact .inl (hc ▸ n.isDigit_whole d (hwhole ▸ List.mem_cons_self))
  | nil =>
    obtain ⟨ds, hds, hne⟩ := n.exists_digit.resolve_left fun hne => hne hwhole
    obtain ⟨d, ds, rfl⟩ := List.exists_cons_of_ne_nil hne
    have hdigit := n.isDigit_fraction _ hds d List.mem_cons_self
    rw [hwhole, Option.mem_def.mp hds] at h
    obtain ⟨hc, hcs⟩ := List.cons.inj h
    refine .inr ⟨hc.symm, ?_⟩
    rw [← hcs]
    exact hdigit

/-- What a numeral is read as: it has no sign, so this is the decimal of its
parts. -/
theorem read_text (n : Numeral) : readNumber? n.text = some n.reading := by
  have hmagnitude : readMagnitude? n.text = some n.reading := by
    rw [readMagnitude?, read?_text]
    rfl
  have hsign : ∀ c cs, n.text = c :: cs → c ≠ '-' ∧ c ≠ '+' := by
    intro c cs heq
    have hstarts : startsNumber c cs :=
      @startsNumber_of_text n [] c cs (by rw [List.append_nil, heq])
    constructor
    · rintro rfl
      exact absurd hstarts (by simp [startsNumber, isDigit])
    · rintro rfl
      exact absurd hstarts (by simp [startsNumber, isDigit])
  unfold readNumber?
  split
  · rename_i heq
    exact absurd rfl (hsign _ _ heq).1
  · rename_i heq
    exact absurd rfl (hsign _ _ heq).2
  · exact hmagnitude

/-! ### One text, one numeral -/

/-- A text is that of one exponent at most, or of none. -/
theorem exponentText_injective {x x' : Option Exponent}
    (h : exponentText x = exponentText x') :
    x = x' := by
  cases x with
  | none =>
    cases x' with
    | none => rfl
    | some e => cases h
  | some e =>
    cases x' with
    | none => cases h
    | some e' => rw [Exponent.text_injective h]

/-- What follows the whole part does not start with a digit. -/
theorem digitsLength_tail (n : Numeral) :
    digitsLength (fractionText n.fraction ++ exponentText n.exponent) = 0 := by
  cases n.fraction with
  | none => exact digitsLength_exponentText n.exponent
  | some fs => exact digitsLength_of_not rfl _

/-- A text is that of one numeral at most. -/
theorem text_injective {n n' : Numeral} (h : n.text = n'.text) : n = n' := by
  obtain ⟨hwhole, htail⟩ := takeWhile_digits n.isDigit_whole n.digitsLength_tail
  obtain ⟨hwhole', htail'⟩ := takeWhile_digits n'.isDigit_whole n'.digitsLength_tail
  rw [text, text] at h
  rw [h, hwhole'] at hwhole
  rw [h, htail'] at htail
  obtain ⟨whole, fraction, x, hw, hfraction, hsome⟩ := n
  obtain ⟨whole', fraction', x', hw', hfraction', hsome'⟩ := n'
  obtain rfl : whole' = whole := hwhole
  dsimp only at htail
  cases fraction with
  | none =>
    cases fraction' with
    | none =>
      obtain rfl := exponentText_injective htail
      rfl
    | some fs' => exact absurd htail.symm (exponentText_ne_point x _)
  | some fs =>
    cases fraction' with
    | none => exact absurd htail (exponentText_ne_point x' _)
    | some fs' =>
      have hrest : fs' ++ exponentText x' = fs ++ exponentText x :=
        (List.cons.inj htail).2
      obtain ⟨hfs, hx⟩ :=
        takeWhile_digits (hfraction fs rfl) (digitsLength_exponentText x)
      obtain ⟨hfs', hx'⟩ :=
        takeWhile_digits (hfraction' fs' rfl) (digitsLength_exponentText x')
      rw [← hrest, hfs'] at hfs
      rw [← hrest, hx'] at hx
      obtain rfl := hfs
      obtain rfl := exponentText_injective hx
      rfl

end Numeral

end StackCalc
