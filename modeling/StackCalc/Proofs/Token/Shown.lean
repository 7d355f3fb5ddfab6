import StackCalc.Proofs.Number.Shortest
import StackCalc.Proofs.Token.Decomposition

/-!
# Shown tokens are read back

The text of a token is a lexeme of it, for numbers and arguments possibly
another one than it was read from. In front of a blank the lexer takes exactly
this lexeme: the class is settled by the first characters (`Lexer.classAt`), and
no lexeme goes on over a blank, quoted texts apart, which end at their own
quote. So the texts of tokens with blanks between them are read as these tokens
(`token_lexFrom_joined`).
-/

namespace StackCalc

open Decimal (isDigit)
open Lexer
open scoped Computability

/-! ### Texts of tokens as lexemes -/

/-- Whether lexemes of the class stand for tokens that are known. -/
def LexemeClass.isRegular : LexemeClass → Bool
  | unclosed | illegal => false
  | number | word | quoted | argument | mark => true

/-- The text of the token is a lexeme of it. -/
structure Token.Readable (t : Token) (k : LexemeClass) : Prop where
  regular : k.isRegular
  mem : t.shown.toList ∈ k.language
  denotes : Denotes k t.shown.toList t

/-- A token that is shown as it was read is readable. -/
theorem readable_of_shown {k : LexemeClass} {w : List Char} {t : Token}
    (hregular : k.isRegular) (hmem : w ∈ k.language) (hdenotes : Denotes k w t)
    (hshown : t.shown.toList = w) : t.Readable k := by
  subst hshown
  exact ⟨hregular, hmem, hdenotes⟩

/-- A number is shown as a numeral of it, be it the one it was read from or
another. -/
theorem readable_number {n : Numeral} (h : n.reading.isInf = false) :
    (Token.number n.reading).Readable .number := by
  obtain ⟨n', htext, hreading⟩ :=
    exists_numeral_literalText (d := n.decimal (n.exponent.elim 0 Exponent.reading)) h
  have hdenotes := Denotes.number n'
  rw [hreading] at hdenotes
  exact readable_of_shown rfl (Numeral.mem_language.mpr ⟨n', rfl⟩) hdenotes htext.symm

theorem readable_arg {n : Nat} (h : n < Nat.pow 2 64) :
    (Token.arg n).Readable .argument := by
  have hshown : (Token.arg n).shown.toList = '$' :: Decimal.digits n := by
    simp [Token.shown, Decimal.digits]
  have hne : Decimal.digits n ≠ [] := Nat.toDigits_ne_nil
  have hdenotes := Denotes.arg hne (by rwa [Decimal.ofDigits_digits])
  rw [Decimal.ofDigits_digits] at hdenotes
  refine readable_of_shown rfl ?_ hdenotes hshown
  exact mem_one_mul_kstar.mpr ⟨'$', _, rfl, rfl, Decimal.isDigit_digits n⟩

/-- Tokens that lexemes stand for are readable, unless they are unknown or
infinite. -/
theorem exists_readable {k : LexemeClass} {w : List Char} {t : Token}
    (hmem : w ∈ k.language) (h : Denotes k w t) (hknown : ∀ s, t ≠ .unknown s)
    (hfinite : ∀ x, t = .number x → x.isInf = false) :
    ∃ k', t.Readable k' := by
  cases h with
  | number n => exact ⟨_, readable_number (hfinite _ rfl)⟩
  | keyword k => exact ⟨_, rfl, hmem, .keyword k⟩
  | name hname => exact ⟨_, readable_of_shown rfl hmem (.name hname) String.toList_ofList⟩
  | text body =>
    exact ⟨_, readable_of_shown rfl hmem (.text body) (by simp [Token.shown])⟩
  | arg hne hlt => exact ⟨_, readable_arg hlt⟩
  | mark hmark => exact ⟨_, rfl, hmem, .mark hmark⟩
  | noArg | unclosed | illegal => exact absurd rfl (hknown _)

/-! ### The token of a lexeme -/

/-- The token that a lexeme of the class stands for. -/
def LexemeClass.token (k : LexemeClass) (w : List Char) : Token :=
  match k with
  | number => numberToken w
  | word => wordToken w
  | quoted => .text (String.ofList w.tail.dropLast)
  | argument => argToken w.tail
  | mark => (Token.ofText? (String.ofList w)).getD (.unknown (String.ofList w))
  | unclosed | illegal => .unknown (String.ofList w)

/-- A lexeme stands for one token only. -/
theorem Denotes.eq_token {k : LexemeClass} {w : List Char} {t : Token}
    (h : Denotes k w t) : t = k.token w := by
  cases h with
  | number n => rw [LexemeClass.token, numberToken, n.read_text]
  | keyword k => cases k <;> decide +kernel
  | name hname =>
    have hnone : Keyword.ofText? (String.ofList w) = none := by
      refine Option.eq_none_iff_forall_ne_some.mpr fun k hk => hname k ?_
      rw [Token.keyword_of_ofText? hk, String.toList_ofList]
    rw [LexemeClass.token, wordToken, hnone]
  | text body => simp [LexemeClass.token]
  | arg hne hlt => rw [LexemeClass.token, List.tail_cons, argToken, if_pos ⟨hne, hlt⟩]
  | noArg hnone =>
    rw [LexemeClass.token, List.tail_cons, argToken, if_neg]
    rintro ⟨hne, hlt⟩
    rcases hnone with hnil | hge
    · exact hne hnil
    · exact absurd hlt (Nat.not_lt.mpr hge)
  | mark hmark =>
    rw [LexemeClass.token, String.ofList_toList, Token.ofText?_shown hmark,
      Option.getD_some]
  | unclosed | illegal => rfl

namespace Lexer

/-! ### Heads of lexemes -/

/-- The class of the lexemes that `c :: cs` may start with. -/
def classAt (c : Char) (cs : List Char) : LexemeClass :=
  if startsNumber c cs then .number
  else if isLetter c then .word
  else if c = '"' then .quoted
  else if c = '$' then .argument
  else .mark

/-- The first character of a mark starts nothing else. -/
theorem head_of_isMark {t : Token} (h : t.isMark) {c : Char} {cs : List Char}
    (heq : t.shown.toList = c :: cs) :
    (isDigit c = false ∧ c ≠ '.') ∧ isLetter c = false ∧ c ≠ '"' ∧ c ≠ '$' ∧
    isBlank c = false ∧
      c ≠ '#' := by
  have hall : ∀ t : Token, t.isMark → t.shown.toList.head?.all fun c =>
      (!isDigit c && c ≠ '.') && !isLetter c && c ≠ '"' && c ≠ '$' &&
        !isBlank c && c ≠ '#' := by
    intro t ht
    cases t with
    | operator op => cases op <;> decide +kernel
    | leftParen | rightParen | leftBrace | rightBrace | comma | semicolon =>
      decide +kernel
    | unknown | number | text | keyword | ident | arg => cases ht
  have hhead := hall t h
  rw [heq] at hhead
  simpa [and_assoc] using hhead

/-- A letter starts no number. -/
theorem startsNumber_of_isLetter {c : Char} (h : isLetter c) (cs : List Char) :
    startsNumber c cs = false := by
  have hdigit : isDigit c = false := by
    by_contra hdigit
    simp only [isLetter, isDigit, Bool.not_eq_false, Bool.and_eq_true, Bool.or_eq_true,
      decide_eq_true_eq] at h hdigit
    rcases h with (⟨hlower, -⟩ | ⟨hupper, -⟩) | rfl
    · exact absurd (Char.le_trans hlower hdigit.2) (by decide)
    · exact absurd (Char.le_trans hupper hdigit.2) (by decide)
    · exact absurd hdigit.2 (by decide)
  have hpoint : c ≠ '.' := by
    rintro rfl
    exact absurd h (by decide)
  simp [startsNumber, hdigit, hpoint]

/-- The class of a lexeme is settled by the first characters, but for the quotes
that are not closed. -/
theorem classAt_of_mem {k : LexemeClass} {w : List Char} {c : Char} {cs : List Char}
    (hmem : w ∈ k.language) (hfront : w <+: c :: cs) (hk : k ≠ .illegal) :
    classAt c cs = if k = .unclosed then .quoted else k := by
  obtain ⟨hword, hquote, harg⟩ := head_of_mem hmem hfront
  rw [classAt]
  cases k with
  | number =>
    rw [if_pos (startsNumber_of_numeral hmem hfront)]
    rfl
  | word =>
    have hletter := hword rfl
    rw [startsNumber_of_isLetter hletter, if_neg Bool.false_ne_true, if_pos hletter]
    rfl
  | quoted =>
    obtain rfl := hquote (.inl rfl)
    rfl
  | unclosed =>
    obtain rfl := hquote (.inr rfl)
    rfl
  | argument =>
    obtain rfl := harg rfl
    rfl
  | mark =>
    obtain ⟨t, hmark, rfl⟩ := hmem
    obtain ⟨d, ds, heq⟩ :=
      List.exists_cons_of_ne_nil (LexemeClass.ne_nil_of_mem (c := .mark) ⟨t, hmark, rfl⟩)
    rw [heq] at hfront
    obtain rfl := (List.cons_prefix_cons.mp hfront).1
    obtain ⟨⟨hdigit, hpoint⟩, hletter, hquote, harg, -⟩ := head_of_isMark hmark heq
    simp [startsNumber, hdigit, hpoint, hletter, hquote, harg]
  | illegal => exact absurd rfl hk

/-! ### Lexemes in front of a blank -/

/-- Nothing follows, or a blank does. -/
def Separated (rest : List Char) : Prop :=
  rest = [] ∨ ∃ cs, rest = ' ' :: cs

/-- No lexeme but quoted texts has a blank in it. -/
theorem not_mem_lexeme {k : LexemeClass} (hk : k.isRegular) (hquoted : k ≠ .quoted)
    {w : List Char} (h : w ∈ k.language) : ' ' ∉ w := by
  cases k with
  | number | word | argument => exact not_mem_of_isForeign (by decide) (by decide) h
  | mark =>
    obtain ⟨t, ht, rfl⟩ := h
    cases t with
    | operator op => cases op <;> decide +kernel
    | leftParen | rightParen | leftBrace | rightBrace | comma | semicolon =>
      decide +kernel
    | unknown | number | text | keyword | ident | arg => cases ht
  | quoted => exact absurd rfl hquoted
  | unclosed | illegal => cases hk

/-- In front of a blank the longest lexeme ends. -/
theorem eq_of_leads {k : LexemeClass} (hk : k.isRegular) {w rest w' rest' : List Char}
    (hmem : w ∈ k.language) (hrest : Separated rest) (hleads : k.Leads w' rest')
    (heq : w' ++ rest' = w ++ rest) : w' = w := by
  have hfront : w <+: w' ++ rest' := ⟨rest, heq.symm⟩
  have hle := hleads.longest w hfront hmem
  obtain ⟨u, rfl⟩ : w <+: w' :=
    List.prefix_of_prefix_length_le hfront (List.prefix_append _ _) hle
  by_cases hquoted : k = .quoted
  · -- both end at the quote that closes the text
    subst hquoted
    obtain ⟨c, cs, hcons⟩ := List.exists_cons_of_ne_nil (LexemeClass.ne_nil_of_mem hmem)
    have hinput : w ++ u ++ rest' = c :: (cs ++ (u ++ rest')) := by
      rw [hcons, List.append_assoc, List.cons_append]
    obtain ⟨n, hn, hlength⟩ := closingQuote?_of_quoted hmem (hinput ▸ hfront)
    obtain ⟨n', hn', hlength'⟩ :=
      closingQuote?_of_quoted hleads.mem (hinput ▸ List.prefix_append _ _)
    obtain rfl := Option.some.inj (hn.symm.trans hn')
    rw [List.length_append, hlength] at hlength'
    rw [List.length_eq_zero_iff.mp (Nat.add_eq_left.mp hlength'), List.append_nil]
  -- a longer lexeme would have the blank in it
  · rw [List.append_assoc] at heq
    have hrest' := List.append_cancel_left heq
    cases u with
    | nil => exact List.append_nil w
    | cons c u =>
      have hblank : ' ' ∈ w ++ c :: u := by
        rcases hrest with rfl | ⟨cs, rfl⟩
        · cases hrest'
        · rw [(List.cons.inj hrest').1]
          exact List.mem_append_right _ List.mem_cons_self
      exact absurd hblank (not_mem_lexeme hk hquoted hleads.mem)

/-- A comment starts with `#`, or with `/` and another `/` or a `*`. -/
theorem comment?_cases {c : Char} {cs : List Char} {n : Nat}
    (h : comment? c cs = some n) :
    c = '#' ∨ c = '/' ∧ ∃ d ds, cs = d :: ds ∧ (d = '*' ∨ d = '/') := by
  unfold comment? at h
  split at h
  · exact .inr ⟨rfl, _, _, rfl, .inl rfl⟩
  · exact .inr ⟨rfl, _, _, rfl, .inr rfl⟩
  · exact .inl rfl
  · cases h

/-- A mark in front of a blank starts no comment. -/
theorem comment?_of_isMark {t : Token} (h : t.isMark) {c : Char} {cs rest : List Char}
    (hrest : Separated rest) (heq : t.shown.toList ++ rest = c :: cs) :
    comment? c cs = none := by
  refine Option.eq_none_iff_forall_ne_some.mpr fun n hn => ?_
  have hfound := Token.ofText?_shown h
  rw [← String.ofList_toList (s := t.shown)] at hfound
  rcases Token.exists_of_isMark h with ⟨d, hd⟩ | ⟨d, e, hd⟩
  · obtain ⟨-, -, -, -, -, hsharp⟩ := head_of_isMark h hd
    rw [hd] at heq
    obtain ⟨rfl, rfl⟩ := List.cons.inj heq
    -- behind a single `/` there would have to be a `/` or a `*`, and there is a
    -- blank
    rcases comment?_cases hn with rfl | ⟨-, e, ds, rfl, he⟩
    · exact hsharp rfl
    · rcases hrest with hnil | ⟨es, hblank⟩
      · cases hnil
      · obtain rfl : e = ' ' := (List.cons.inj hblank).1
        rcases he with he | he <;> exact absurd he (by decide)
  · obtain ⟨-, -, -, -, -, hsharp⟩ := head_of_isMark h hd
    rw [hd] at heq hfound
    obtain ⟨rfl, rfl⟩ := List.cons.inj heq
    rcases comment?_cases hn with rfl | ⟨rfl, e', ds, hds, he⟩
    · exact hsharp rfl
    · obtain rfl : e = e' := (List.cons.inj hds).1
      rcases he with rfl | rfl
      · have hnone : Token.ofText? (String.ofList ['/', '*']) = none := by decide +kernel
        rw [hnone] at hfound
        cases hfound
      · have hnone : Token.ofText? (String.ofList ['/', '/']) = none := by decide +kernel
        rw [hnone] at hfound
        cases hfound

/-- A character of a class without blanks, `/` and `#` starts no gap. -/
theorem not_gap_of_class {p : Char → Bool}
    (hp : [' ', '\t', '\r', '\n', '/', '#'].any p = false) {c : Char} (hc : p c)
    (cs : List Char) : isBlank c = false ∧ comment? c cs = none := by
  have hne : ∀ d ∈ [' ', '\t', '\r', '\n', '/', '#'], c ≠ d := by
    rintro d hd rfl
    exact List.any_eq_false.mp hp _ hd hc
  constructor
  · rw [Bool.eq_false_iff]
    intro hblank
    exact hne c (List.mem_append_left ['/', '#'] (isBlank_iff.mp hblank)) rfl
  · refine Option.eq_none_iff_forall_ne_some.mpr fun n hn => ?_
    rcases comment?_cases hn with rfl | ⟨rfl, -⟩
    · exact hne '#' (by simp) rfl
    · exact hne '/' (by simp) rfl

/-- No lexeme in front of a blank starts a gap. -/
theorem not_gap_of_mem {k : LexemeClass} (hk : k.isRegular) {w rest : List Char}
    {c : Char} {cs : List Char} (hmem : w ∈ k.language) (hrest : Separated rest)
    (heq : w ++ rest = c :: cs) :
    isBlank c = false ∧ comment? c cs = none := by
  have hfront : w <+: c :: cs := ⟨rest, heq⟩
  obtain ⟨hword, hquote, harg⟩ := head_of_mem hmem hfront
  cases k with
  | number =>
    have hstarts := startsNumber_of_numeral hmem hfront
    have hhead : isDigit c || c = '.' := by
      rw [startsNumber, Bool.or_eq_true, Bool.and_eq_true] at hstarts
      rw [Bool.or_eq_true]
      exact hstarts.imp_right And.left
    exact not_gap_of_class (p := fun c => isDigit c || c = '.') rfl hhead cs
  | word => exact not_gap_of_class rfl (hword rfl) cs
  | quoted =>
    obtain rfl := hquote (.inl rfl)
    exact ⟨rfl, rfl⟩
  | argument =>
    obtain rfl := harg rfl
    exact ⟨rfl, rfl⟩
  | mark =>
    obtain ⟨t, ht, rfl⟩ := hmem
    refine ⟨?_, comment?_of_isMark ht hrest heq⟩
    obtain ⟨d, ds, hd⟩ :=
      List.exists_cons_of_ne_nil (LexemeClass.ne_nil_of_mem (c := .mark) ⟨t, ht, rfl⟩)
    obtain ⟨-, -, -, -, hblank, -⟩ := head_of_isMark ht hd
    rw [hd] at heq
    rwa [← (List.cons.inj heq).1]
  | unclosed | illegal => cases hk

/-- A shown token in front of a blank is what is read there. -/
theorem lexeme_of_readable {t : Token} {k : LexemeClass} (h : t.Readable k) {c : Char}
    {cs rest : List Char} (hrest : Separated rest)
    (heq : t.shown.toList ++ rest = c :: cs) :
    (lexeme c cs).1 = t ∧ cs.drop (lexeme c cs).2 = rest := by
  obtain ⟨k', hleads, hdenotes⟩ := lexeme_leads c cs
  have hinput : taken c cs ++ cs.drop (lexeme c cs).2 = c :: cs := by
    rw [List.cons_append, List.take_append_drop]
  have hfront : t.shown.toList <+: c :: cs := ⟨rest, heq⟩
  have htaken : taken c cs <+: c :: cs := ⟨_, hinput⟩
  -- the text of the token is looked for before what stands for no known token
  have hprecedence := fun hyields =>
    hleads.precedence k hyields _ (hinput.symm ▸ hfront) h.mem
  obtain rfl : k' = k := by
    have hk := classAt_of_mem h.mem hfront (by rintro rfl; cases h.regular)
    rw [if_neg (by rintro rfl; cases h.regular)] at hk
    cases k' with
    | illegal =>
      have hyields : LexemeClass.yieldsTo .illegal k := by
        cases k <;> first | rfl | cases h.regular
      exact (hprecedence hyields).elim
    | unclosed =>
      obtain rfl :=
        hk.symm.trans (classAt_of_mem hleads.mem htaken LexemeClass.noConfusion)
      exact (hprecedence rfl).elim
    | number | word | quoted | argument | mark =>
      exact (classAt_of_mem hleads.mem htaken LexemeClass.noConfusion).symm.trans hk
  have hsame := eq_of_leads h.regular h.mem hrest hleads (hinput.trans heq.symm)
  constructor
  · rw [hdenotes.eq_token, hsame, ← h.denotes.eq_token]
  · rw [hsame, ← heq] at hinput
    exact List.append_cancel_left hinput

/-- The token is read, and then what follows. -/
theorem token_lexFrom_readable {t : Token} {k : LexemeClass} (h : t.Readable k)
    {rest : List Char} (hrest : Separated rest) (line : Nat) :
    (lexFrom line (t.shown.toList ++ rest)).map Located.token =
      t :: (lexFrom 1 rest).map Located.token := by
  obtain ⟨c, cs, heq⟩ : ∃ c cs, t.shown.toList ++ rest = c :: cs := by
    refine List.exists_cons_of_ne_nil fun hnil => ?_
    exact LexemeClass.ne_nil_of_mem h.mem (List.append_eq_nil_iff.mp hnil).1
  obtain ⟨hblank, hcomment⟩ := not_gap_of_mem h.regular h.mem hrest heq
  obtain ⟨htoken, hdrop⟩ := lexeme_of_readable h hrest heq
  have hscan : scan c cs = (some t, (lexeme c cs).2) := by
    rw [scan, hblank, if_neg Bool.false_ne_true, hcomment, ← htoken]
  rw [heq, lexFrom_cons, hscan]
  dsimp only
  rw [hdrop, List.map_append, token_lexFrom rest _ 1]
  rfl

theorem token_lexFrom_blank (line : Nat) (cs : List Char) :
    (lexFrom line (' ' :: cs)).map Located.token = (lexFrom 1 cs).map Located.token := by
  have hscan : scan ' ' cs = (none, 0) := rfl
  rw [lexFrom_cons, hscan]
  exact token_lexFrom cs _ 1

/-- The texts of tokens with blanks between them are read as these tokens. -/
theorem token_lexFrom_joined (line : Nat) {ts : List Token}
    (h : ∀ t ∈ ts, ∃ k, t.Readable k) :
    (lexFrom line ([' '].intercalate ((ts.map Token.shown).map String.toList))).map
      Located.token = ts := by
  induction ts generalizing line with
  | nil =>
    rw [List.map_nil, List.map_nil, List.intercalate_nil, lexFrom]
    rfl
  | cons t ts ih =>
    obtain ⟨⟨k, ht⟩, hts⟩ := List.forall_mem_cons.mp h
    cases ts with
    | nil =>
      have hlast := token_lexFrom_readable ht (.inl rfl) line
      rw [List.append_nil, lexFrom] at hlast
      rw [List.map_singleton, List.map_singleton, List.intercalate_singleton]
      exact hlast
    | cons u us =>
      have hrest := ih 1 hts
      simp only [List.map_cons, List.intercalate_cons_cons, List.append_assoc] at hrest ⊢
      rw [List.singleton_append, token_lexFrom_readable ht (.inr ⟨_, rfl⟩),
        token_lexFrom_blank, hrest]

end Lexer

/-- Token lists without unknown tokens and infinite numbers are read back from
the texts of their tokens with single blanks between them. -/
theorem lex_shown {source : String}
    (hknown : ∀ s, Token.unknown s ∉ (lex source).map Located.token)
    (hfinite : ∀ x, Token.number x ∈ (lex source).map Located.token → x.isInf = false) :
    (lex (" ".intercalate (((lex source).map Located.token).map Token.shown))).map
      Located.token =
      (lex source).map Located.token := by
  have hreadable : ∀ t ∈ (lex source).map Located.token, ∃ k, t.Readable k := by
    intro t ht
    obtain ⟨k, w, hmem, hdenotes⟩ := exists_denotes_of_mem ht
    refine exists_readable hmem hdenotes ?_ ?_
    · rintro s rfl
      exact hknown s ht
    · rintro x rfl
      exact hfinite x ht
  have hjoined := token_lexFrom_joined 1 hreadable
  rw [lex, String.toList_intercalate]
  exact hjoined

/-- A text with comments, and with numbers and an argument that are written in
another way than they are shown. -/
def roundabout : String :=
  "func f() return $01 ^ 2.50e1 // squares\nprint \"a  b\", f(1e-7) # and the rest"

/-- Comments are gone, and the numbers and the argument are written as they are
shown. -/
theorem lex_shown_roundabout :
    " ".intercalate (((lex roundabout).map Located.token).map Token.shown) =
        "func f ( ) return $1 ^ 25 print \"a  b\" , f ( 0.0000001 )" ∧
      (lex (" ".intercalate (((lex roundabout).map Located.token).map Token.shown))).map
        Located.token =
        (lex roundabout).map Located.token := by
  have htokens : (lex roundabout).map Located.token =
      [.keyword .funcKw, .ident "f", .leftParen, .rightParen, .keyword .returnKw, .arg 1,
        .operator .caret, .number 25.0, .keyword .printKw, .text "a  b", .comma,
        .ident "f", .leftParen, .number 1e-7, .rightParen] := by
    decide +kernel
  refine ⟨by decide +kernel, lex_shown ?_ ?_⟩
  · rw [htokens]
    intro s hs
    simp at hs
  · rw [htokens]
    intro x hx
    have hvalue : x = 25.0 ∨ x = 1e-7 := by simpa using hx
    rcases hvalue with rfl | rfl <;> decide +kernel

end StackCalc
