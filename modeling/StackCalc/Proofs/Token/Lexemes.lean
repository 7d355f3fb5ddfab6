import StackCalc.Proofs.Token.Joining
import StackCalc.Proofs.Token.Numerals

/-!
# Lexemes

The classes of lexemes as languages, and what the lexer takes of them. At every
place it takes the longest text in front that belongs to a class
(`LexemeClass.Leads`); a quote that is not closed and a character that starts
nothing are lexemes only where no other class has one. `Denotes` says which
token a lexeme stands for. The result is `Lexer.lexeme_leads`.
-/

namespace StackCalc

open Decimal (isDigit)
open scoped Computability

/-! ### Marks -/

namespace Token

/-- Whether a token is an operator or a punctuation mark. -/
def isMark : Token → Bool
  | operator _ | leftParen | rightParen | leftBrace | rightBrace | comma | semicolon =>
    true
  | _ => false

/-- A keyword is found by its spelling only. -/
theorem keyword_of_ofText? {s : String} {k : Keyword} (h : Keyword.ofText? s = some k) :
    k.text = s := by
  have heq := List.find?_some h
  simpa using heq

/-- What has one spelling is a mark or a keyword, and is shown as it is spelled. -/
theorem shown_of_ofText? {s : String} {t : Token} (h : ofText? s = some t) :
    t.shown = s ∧ (t.isMark ∨ ∃ k, t = keyword k ∧ k.text = s) := by
  unfold ofText? at h
  split at h
  case h_1 k hk =>
    cases h
    have htext := keyword_of_ofText? hk
    exact ⟨htext, .inr ⟨k, rfl, htext⟩⟩
  case h_2 =>
    split at h
    case h_1 op hop =>
      cases h
      have heq : op.text = s := by simpa using List.find?_some hop
      exact ⟨heq, .inl rfl⟩
    case h_2 =>
      split at h
      case h_7 => exact nomatch h
      all_goals
        cases h
        exact ⟨rfl, .inl rfl⟩

/-- A mark is found by its spelling. -/
theorem ofText?_shown {t : Token} (h : t.isMark) : ofText? t.shown = some t := by
  cases t with
  | operator op => cases op <;> decide +kernel
  | leftParen | rightParen | leftBrace | rightBrace | comma | semicolon => decide +kernel
  | unknown | number | text | keyword | ident | arg => exact nomatch h

/-- A mark has one character or two. -/
theorem exists_of_isMark {t : Token} (h : t.isMark) :
    (∃ c, t.shown.toList = [c]) ∨ ∃ c d, t.shown.toList = [c, d] := by
  cases t with
  | operator op =>
    cases op <;> first | exact .inl ⟨_, rfl⟩ | exact .inr ⟨_, _, rfl⟩
  | leftParen | rightParen | leftBrace | rightBrace | comma | semicolon =>
    exact .inl ⟨_, rfl⟩
  | unknown | number | text | keyword | ident | arg => exact nomatch h

end Token

namespace Lexer

/-- A keyword is a word. -/
theorem isLetter_of_keyword {k : Keyword} {c : Char} {cs : List Char}
    (h : k.text.toList = c :: cs) :
    isLetter c := by
  have hhead : k.text.toList.head? = some c := by rw [h]; rfl
  have hall : ∀ k : Keyword, k.text.toList.head?.all isLetter := by
    intro k
    cases k <;> decide +kernel
  have hk := hall k
  rwa [hhead] at hk

/-! ### Quoted texts -/

/-- Whether a character stands for itself between quotes. -/
def isOrdinary (c : Char) : Bool :=
  c ≠ '"' && c ≠ '\\' && c ≠ '\n'

/-- What stands between quotes: ordinary characters, and pairs of a backslash
and another character, all in one line. -/
def quotedBody : Language Char :=
  (one isOrdinary + one (· = '\\') * one (· ≠ '\n'))∗

theorem closingQuote?_ordinary {c : Char} (hc : isOrdinary c) (cs : List Char) :
    closingQuote? (c :: cs) = (closingQuote? cs).map (· + 1) := by
  simp only [isOrdinary, ne_eq, Bool.and_eq_true, decide_eq_true_eq] at hc
  obtain ⟨⟨hquote, hbackslash⟩, hline⟩ := hc
  rw [closingQuote?]
  · exact hquote
  · exact hline
  · exact fun _ h => absurd h hbackslash
  · exact fun _ _ h => absurd h hbackslash

theorem closingQuote?_pair {c : Char} (hc : c ≠ '\n') (cs : List Char) :
    closingQuote? ('\\' :: c :: cs) = (closingQuote? cs).map (· + 2) := by
  rw [closingQuote?]
  exact hc

/-- The quote behind a body is the one that closes it. -/
theorem closingQuote?_body {body : List Char} (h : body ∈ quotedBody) (rest : List Char) :
    closingQuote? (body ++ '"' :: rest) = some body.length := by
  obtain ⟨ws, rfl, hws⟩ := h
  induction ws with
  | nil => rfl
  | cons w ws ih =>
    obtain ⟨hw, hws⟩ := List.forall_mem_cons.mp hws
    have hrest := ih hws
    rw [List.flatten_cons, List.append_assoc]
    rcases (Language.mem_add _ _ _).mp hw with
      ⟨c, hc, rfl⟩ | ⟨_, ⟨b, hb, rfl⟩, _, ⟨c, hc, rfl⟩, rfl⟩
    · show closingQuote? (c :: (ws.flatten ++ '"' :: rest)) = _
      rw [closingQuote?_ordinary hc, hrest, Option.map_some, List.length_append,
        List.length_singleton, Nat.add_comm]
    · obtain rfl : b = '\\' := by simpa using hb
      show closingQuote? ('\\' :: c :: (ws.flatten ++ '"' :: rest)) = _
      rw [closingQuote?_pair (by simpa using hc), hrest, Option.map_some,
        List.length_append, Nat.add_comm]
      rfl

theorem nil_mem_quotedBody : [] ∈ quotedBody :=
  Language.nil_mem_kstar _

theorem append_mem_quotedBody {w body : List Char}
    (hw : w ∈ one isOrdinary + one (· = '\\') * one (· ≠ '\n')) (h : body ∈ quotedBody) :
    w ++ body ∈ quotedBody := by
  obtain ⟨ws, rfl, hws⟩ := h
  exact ⟨w :: ws, rfl, List.forall_mem_cons.mpr ⟨hw, hws⟩⟩

/-- What stands in front of the closing quote is a body. -/
theorem exists_body {cs : List Char} {n : Nat} (h : closingQuote? cs = some n) :
    ∃ body rest, cs = body ++ '"' :: rest ∧ body.length = n ∧ body ∈ quotedBody := by
  induction cs using closingQuote?.induct generalizing n with
  | case1 | case3 | case4 => cases h
  | case2 rest =>
    cases h
    exact ⟨[], rest, rfl, rfl, nil_mem_quotedBody⟩
  | case5 c cs hc ih =>
    have hne : c ≠ '\n' := hc
    rw [closingQuote?_pair hne] at h
    obtain ⟨k, hk, rfl⟩ := Option.map_eq_some_iff.mp h
    obtain ⟨body, rest, rfl, rfl, hbody⟩ := ih hk
    have hpair : ['\\', c] ∈ one (· = '\\') * one (· ≠ '\n') :=
      ⟨['\\'], ⟨'\\', rfl, rfl⟩, [c], ⟨c, by simpa using hne, rfl⟩, rfl⟩
    exact ⟨'\\' :: c :: body, rest, rfl, rfl, append_mem_quotedBody (.inr hpair) hbody⟩
  | case6 c cs hquote hline hend hpair ih =>
    by_cases hc : c = '\\'
    · subst hc
      -- a backslash that starts no pair stands at the end of the text
      rcases cs with _ | ⟨d, cs⟩
      · cases h
      · exact (hpair d cs rfl rfl).elim
    · have hordinary : isOrdinary c := by
        simp only [isOrdinary, ne_eq, Bool.and_eq_true, decide_eq_true_eq]
        exact ⟨⟨hquote, hc⟩, hline⟩
      rw [closingQuote?_ordinary hordinary] at h
      obtain ⟨k, hk, rfl⟩ := Option.map_eq_some_iff.mp h
      obtain ⟨body, rest, rfl, rfl, hbody⟩ := ih hk
      exact ⟨c :: body, rest, rfl, rfl,
        append_mem_quotedBody (.inl ⟨c, hordinary, rfl⟩) hbody⟩

end Lexer

/-! ### Classes -/

open Lexer

/-- The classes of lexemes. -/
inductive LexemeClass where
  | number
  /-- A name or a keyword. -/
  | word
  | quoted
  /-- A dollar sign and the digits behind it. -/
  | argument
  /-- An operator or a punctuation mark. -/
  | mark
  /-- A quote that is not closed in its line, with the rest of the line. -/
  | unclosed
  /-- A character that starts no other lexeme. -/
  | illegal
deriving DecidableEq

namespace LexemeClass

/-- The lexemes of a class. -/
def language : LexemeClass → Language Char
  | number => numeral
  | word => one isLetter * (one isWordChar)∗
  | quoted => one (· = '"') * (quotedBody * one (· = '"'))
  | argument => one (· = '$') * digit∗
  | mark => {w | ∃ t : Token, t.isMark ∧ w = t.shown.toList}
  | unclosed => one (· = '"') * (one (· ≠ '\n'))∗
  | illegal => one fun _ => true

/-- Whether lexemes of the first class are looked for only where there is none
of the second. -/
def yieldsTo : LexemeClass → LexemeClass → Bool
  | unclosed, quoted => true
  | illegal, c => c ≠ illegal
  | _, _ => false

/-- Of the text `w ++ rest`, the part `w` is the longest in front that belongs
to the class, and no class that has precedence has one. -/
structure Leads (c : LexemeClass) (w rest : List Char) : Prop where
  mem : w ∈ c.language
  longest : ∀ v, v <+: w ++ rest → v ∈ c.language → v.length ≤ w.length
  precedence : ∀ c', c.yieldsTo c' → ∀ v, v <+: w ++ rest → v ∉ c'.language

/-- Every lexeme has a character at least. -/
theorem ne_nil_of_mem {c : LexemeClass} {w : List Char} (h : w ∈ c.language) :
    w ≠ [] := by
  rintro rfl
  cases c with
  | number =>
    obtain ⟨n, hn⟩ := Numeral.mem_language.mp h
    have hwhole : n.whole = [] := (List.append_eq_nil_iff.mp hn).1
    obtain ⟨ds, hds, -⟩ := n.exists_digit.resolve_left fun hne => hne hwhole
    have hfraction := (List.append_eq_nil_iff.mp (List.append_eq_nil_iff.mp hn).2).1
    rw [Option.mem_def.mp hds] at hfraction
    exact nomatch hfraction
  | word | quoted | argument | unclosed =>
    obtain ⟨_, ⟨c, -, rfl⟩, v, -, heq⟩ := h
    exact nomatch heq
  | mark =>
    obtain ⟨t, ht, heq⟩ := h
    rcases Token.exists_of_isMark ht with ⟨c, hc⟩ | ⟨c, d, hc⟩ <;> rw [hc] at heq <;>
      exact nomatch heq
  | illegal =>
    obtain ⟨c, -, heq⟩ := h
    exact nomatch heq

/-- A lexeme in front of `c :: cs` that takes `n` characters beyond the first. -/
theorem leads_of_length {k : LexemeClass} {c : Char} {cs : List Char} {n : Nat}
    (hn : n ≤ cs.length) (hmem : c :: cs.take n ∈ k.language)
    (hlongest : ∀ v, v <+: c :: cs → v ∈ k.language → v.length ≤ n + 1)
    (hprecedence : ∀ k', k.yieldsTo k' → ∀ v, v <+: c :: cs → v ∉ k'.language) :
    k.Leads (c :: cs.take n) (cs.drop n) := by
  have hinput : c :: cs.take n ++ cs.drop n = c :: cs := by
    rw [List.cons_append, List.take_append_drop]
  have hlength : (c :: cs.take n).length = n + 1 := by
    rw [List.length_cons, List.length_take, Nat.min_eq_left hn]
  refine ⟨hmem, ?_, ?_⟩
  · rw [hinput, hlength]
    exact hlongest
  · rw [hinput]
    exact hprecedence

end LexemeClass

/-- Which token a lexeme stands for. -/
inductive Denotes : LexemeClass → List Char → Token → Prop
  | number (n : Numeral) : Denotes .number n.text (.number n.reading)
  | keyword (k : Keyword) : Denotes .word k.text.toList (.keyword k)
  | name {w : List Char} (h : ∀ k : Keyword, k.text.toList ≠ w) :
    Denotes .word w (.ident (String.ofList w))
  | text (body : List Char) : Denotes .quoted ('"' :: (body ++ ['"']))
    (.text (String.ofList body))
  | arg {ds : List Char} (hne : ds ≠ []) (hlt : Decimal.ofDigits ds < Nat.pow 2 64) :
    Denotes .argument ('$' :: ds) (.arg (Decimal.ofDigits ds))
  | noArg {ds : List Char} (h : ds = [] ∨ Nat.pow 2 64 ≤ Decimal.ofDigits ds) :
    Denotes .argument ('$' :: ds) (.unknown (String.ofList ('$' :: ds)))
  | mark {t : Token} (h : t.isMark) : Denotes .mark t.shown.toList t
  | unclosed (w : List Char) : Denotes .unclosed w (.unknown (String.ofList w))
  | illegal (w : List Char) : Denotes .illegal w (.unknown (String.ofList w))

/-- A token that is neither a number nor an argument is shown as its lexeme. -/
theorem Denotes.shown {c : LexemeClass} {w : List Char} {t : Token} (h : Denotes c w t)
    (hnumber : ∀ x, t ≠ .number x) (harg : ∀ n, t ≠ .arg n) :
    t.shown = String.ofList w := by
  cases h with
  | number n => exact absurd rfl (hnumber _)
  | keyword k => exact String.ofList_toList.symm
  | name | noArg | unclosed | illegal => rfl
  | text body =>
    refine String.toList_injective ?_
    simp [Token.shown]
  | arg => exact absurd rfl (harg _)
  | mark => exact String.ofList_toList.symm

/-- A number is what its lexeme is read as, which is the value of the lexeme if
it is moderate. -/
theorem Denotes.exists_numeral {c : LexemeClass} {w : List Char} {t : Token}
    (h : Denotes c w t) (x : Float) (ht : t = .number x) :
    ∃ n : Numeral, n.text = w ∧ n.reading = x ∧ (n.Moderate → n.value = x) := by
  cases h with
  | number n =>
    cases ht
    exact ⟨n, rfl, rfl, fun hmoderate => (Numeral.reading_eq_value hmoderate).symm⟩
  | mark hmark =>
    subst ht
    cases hmark
  | keyword | name | text | arg | noArg | unclosed | illegal => cases ht

/-- No name is spelled like a keyword. -/
theorem Denotes.ne_keyword {c : LexemeClass} {w : List Char} {name : String}
    (h : Denotes c w (.ident name)) (k : Keyword) : name ≠ k.text := by
  cases h with
  | name hne =>
    intro heq
    exact hne k (heq ▸ String.toList_ofList)
  | mark hmark => cases hmark

/-- An argument has the number its digits are. -/
theorem Denotes.exists_digits {c : LexemeClass} {w : List Char} {t : Token}
    (h : Denotes c w t) (n : Nat) (ht : t = .arg n) :
    ∃ ds, w = '$' :: ds ∧ ds ≠ [] ∧ Decimal.ofDigits ds = n := by
  cases h with
  | arg hne hlt =>
    cases ht
    exact ⟨_, rfl, hne, rfl⟩
  | mark hmark =>
    subst ht
    cases hmark
  | keyword | name | text | number | noArg | unclosed | illegal => cases ht

/-! ### What is taken -/

namespace Lexer

/-- Of a row of characters in front, what is taken is the longest. -/
theorem length_le_takeWhile {p : Char → Bool} {ds cs : List Char} (h : ds <+: cs)
    (hds : ∀ c ∈ ds, p c) : ds.length ≤ (cs.takeWhile p).length := by
  obtain ⟨rest, rfl⟩ := h
  rw [List.takeWhile_append_of_pos hds, List.length_append]
  exact Nat.le_add_right _ _

theorem of_mem_takeWhile (p : Char → Bool) (cs : List Char) : ∀ c ∈ cs.takeWhile p, p c :=
  List.all_eq_true.mp List.all_takeWhile

theorem take_length_takeWhile (p : Char → Bool) (cs : List Char) :
    cs.take (cs.takeWhile p).length = cs.takeWhile p :=
  (List.prefix_iff_eq_take.mp (List.takeWhile_prefix p)).symm

/-- A character that satisfies `p` and a row of characters that satisfy `q`
behind it. -/
theorem mem_one_mul_kstar {p q : Char → Bool} {w : List Char} :
    w ∈ one p * (one q)∗ ↔ ∃ c cs, w = c :: cs ∧ p c ∧ ∀ d ∈ cs, q d := by
  constructor
  · rintro ⟨_, ⟨c, hc, rfl⟩, cs, hcs, rfl⟩
    exact ⟨c, cs, rfl, hc, mem_kstar_one.mp hcs⟩
  · rintro ⟨c, cs, rfl, hc, hcs⟩
    exact ⟨[c], ⟨c, hc, rfl⟩, cs, mem_kstar_one.mpr hcs, rfl⟩

/-- Whether `c` stands in no number, no word and no argument. -/
def isForeign (c : Char) : Bool :=
  !isWordChar c && c ≠ '.' && c ≠ '+' && c ≠ '-' && c ≠ '$'

section

variable {c : Char} (hc : isForeign c)

include hc

theorem ne_of_isForeign {d : Char} (hd : isForeign d = false) : c ≠ d := by
  rintro rfl
  exact absurd hc (by simp [hd])

/-- A foreign character stands in no word. -/
theorem not_mem_of_isWordChar {cs : List Char} (h : ∀ d ∈ cs, isWordChar d) : c ∉ cs :=
  fun hmem => ne_of_isForeign hc (by simp [isForeign, h c hmem]) rfl

/-- It stands in no row of digits. -/
theorem not_mem_of_isDigit {ds : List Char} (h : ∀ d ∈ ds, isDigit d) : c ∉ ds :=
  not_mem_of_isWordChar hc fun d hd => by simp [isWordChar, h d hd]

/-- It stands in no numeral. -/
theorem not_mem_numeral (n : Numeral) : c ∉ n.text := by
  rw [Numeral.text, List.mem_append, List.mem_append]
  rintro (hwhole | hfraction | hexponent)
  · exact not_mem_of_isDigit hc n.isDigit_whole hwhole
  · cases hf : n.fraction with
    | none => simp [hf, Numeral.fractionText] at hfraction
    | some ds =>
      have hds := not_mem_of_isDigit hc (n.isDigit_fraction ds hf)
      have hpoint : c ≠ '.' := ne_of_isForeign hc (by decide)
      simp [hf, Numeral.fractionText, hds, hpoint] at hfraction
  · cases hx : n.exponent with
    | none => simp [hx, Numeral.exponentText] at hexponent
    | some e =>
      have hds := not_mem_of_isDigit hc e.isDigit_digits
      have hmark : c ≠ e.mark := by
        rcases e.mark_eq with h | h <;> rw [h] <;> exact ne_of_isForeign hc (by decide)
      have hsign : e.sign ≠ some c := by
        intro hs
        rcases e.sign_eq _ hs with h | h <;>
          exact absurd h (ne_of_isForeign hc (by decide))
      simp [hx, Numeral.exponentText, Exponent.text, hds, hmark, hsign] at hexponent

/-- A character that is foreign to these classes is in none of their lexemes. -/
theorem not_mem_of_isForeign {k : LexemeClass} (hk : k ∈ [.number, .word, .argument])
    {w : List Char} (h : w ∈ k.language) : c ∉ w := by
  cases k with
  | number =>
    obtain ⟨n, rfl⟩ := Numeral.mem_language.mp h
    exact not_mem_numeral hc n
  | word =>
    obtain ⟨d, ds, rfl, hd, hds⟩ := mem_one_mul_kstar.mp h
    exact not_mem_of_isWordChar hc
      (List.forall_mem_cons.mpr ⟨by simp [isWordChar, hd], hds⟩)
  | argument =>
    obtain ⟨d, ds, rfl, hd, hds⟩ := mem_one_mul_kstar.mp h
    have hne : c ≠ d := by
      obtain rfl : d = '$' := by simpa using hd
      exact ne_of_isForeign hc (by decide)
    rw [List.mem_cons, not_or]
    exact ⟨hne, not_mem_of_isDigit hc hds⟩
  | quoted | mark | unclosed | illegal => simp at hk

end

/-- A quoted text in front is closed where the lexer finds the quote. -/
theorem closingQuote?_of_quoted {v : List Char} {c : Char} {cs : List Char}
    (hv : v ∈ LexemeClass.quoted.language) (hfront : v <+: c :: cs) :
    ∃ n, closingQuote? cs = some n ∧ v.length = n + 2 := by
  obtain ⟨_, ⟨a, -, rfl⟩, _, ⟨body, hbody, _, ⟨b, hb, rfl⟩, rfl⟩, rfl⟩ := hv
  obtain rfl : b = '"' := by simpa using hb
  obtain ⟨rest, heq⟩ := hfront
  have hcs : cs = body ++ '"' :: rest := by simpa using (List.cons.inj heq).2.symm
  refine ⟨body.length, ?_, by simp⟩
  rw [hcs, closingQuote?_body hbody]

theorem startsNumber_of_numeral {v : List Char} {c : Char} {cs : List Char}
    (hv : v ∈ numeral) (hfront : v <+: c :: cs) : startsNumber c cs := by
  obtain ⟨n, rfl⟩ := Numeral.mem_language.mp hv
  obtain ⟨rest, heq⟩ := hfront
  exact Numeral.startsNumber_of_text heq

/-- The head of a text that starts with a lexeme of a class other than numbers
and marks. -/
theorem head_of_mem {k : LexemeClass} {v : List Char} {c : Char} {cs : List Char}
    (hv : v ∈ k.language) (hfront : v <+: c :: cs) :
    (k = .word → isLetter c) ∧ (k = .quoted ∨ k = .unclosed → c = '"') ∧
      (k = .argument → c = '$') := by
  have hhead : ∀ {p : Char → Bool} {l : Language Char}, v ∈ one p * l → p c := by
    rintro p l ⟨_, ⟨d, hd, rfl⟩, u, -, rfl⟩
    obtain ⟨rest, heq⟩ := hfront
    rwa [← (List.cons.inj heq).1]
  refine ⟨?_, ?_, ?_⟩
  · rintro rfl
    exact hhead hv
  · rintro (rfl | rfl)
    · simpa using hhead hv
    · simpa using hhead hv
  · rintro rfl
    simpa using hhead hv

/-- A mark in front is found by its spelling. -/
theorem ofText?_of_mark {v : List Char} {c : Char} {cs : List Char}
    (hv : v ∈ LexemeClass.mark.language) (hfront : v <+: c :: cs) :
    (v = [c] ∧ ∃ t, Token.ofText? (String.ofList [c]) = some t) ∨
      v.length = 2 ∧ ∃ t, pairToken? c cs = some t := by
  obtain ⟨t, ht, rfl⟩ := hv
  have hfound := Token.ofText?_shown ht
  obtain ⟨rest, heq⟩ := hfront
  rcases Token.exists_of_isMark ht with ⟨d, hd⟩ | ⟨d, e, hd⟩
  · rw [hd] at heq ⊢
    obtain rfl : d = c := (List.cons.inj heq).1
    refine .inl ⟨rfl, t, ?_⟩
    rw [← hd, String.ofList_toList]
    exact hfound
  · rw [hd] at heq ⊢
    obtain ⟨rfl, rfl⟩ := List.cons.inj heq
    refine .inr ⟨rfl, t, ?_⟩
    show Token.ofText? (String.ofList [d, e]) = some t
    rw [← hd, String.ofList_toList]
    exact hfound

/-- What is spelled with a character that is no letter is a mark. -/
theorem isMark_of_ofText? {w : List Char} {c : Char} {cs : List Char} {t : Token}
    (hw : w = c :: cs) (hc : isLetter c = false)
    (h : Token.ofText? (String.ofList w) = some t) :
    t.isMark ∧ t.shown.toList = w := by
  obtain ⟨hshown, hmark | ⟨k, -, hk⟩⟩ := Token.shown_of_ofText? h
  · exact ⟨hmark, by rw [hshown, String.toList_ofList]⟩
  · have hletter : isLetter c :=
      isLetter_of_keyword (k := k) (by rw [hk, String.toList_ofList, hw])
    exact absurd hletter (by simp [hc])

section

variable (c : Char) (cs : List Char)

/-- The lexeme in front, as it was taken. -/
abbrev taken : List Char :=
  c :: cs.take (lexeme c cs).2

variable {c cs}

/-- What starts like a number is the longest numeral in front. -/
theorem leads_number (h : startsNumber c cs) :
    LexemeClass.number.Leads (taken c cs) (cs.drop (lexeme c cs).2) ∧
      Denotes .number (taken c cs) (lexeme c cs).1 := by
  have hlexeme : lexeme c cs = (numberToken (c :: cs.take (numberLength (c :: cs) - 1)),
      numberLength (c :: cs) - 1) := by rw [lexeme, if_pos h]
  obtain ⟨n, hn⟩ := Numeral.exists_take h
  have hpos : 0 < numberLength (c :: cs) := by
    refine Nat.pos_of_ne_zero fun hzero => ?_
    rw [hzero, List.take_zero] at hn
    exact LexemeClass.ne_nil_of_mem (c := .number) (Numeral.mem_language.mpr ⟨n, hn⟩) rfl
  have htaken : n.text = c :: cs.take (numberLength (c :: cs) - 1) := by
    rw [hn, ← List.take_succ_cons]
    congr 1
    omega
  have hlength := lexeme_le cs c
  rw [hlexeme] at hlength
  rw [taken, hlexeme]
  constructor
  · refine LexemeClass.leads_of_length hlength ?_ ?_ (by simp [LexemeClass.yieldsTo])
    · exact Numeral.mem_language.mpr ⟨n, htaken⟩
    · intro v hfront hv
      obtain ⟨m, rfl⟩ := Numeral.mem_language.mp hv
      have hle := Numeral.length_le hfront
      omega
  · rw [← htaken, numberToken, n.read_text]
    exact .number n

/-- What starts with a letter is the longest word in front, a keyword or a name. -/
theorem leads_word (hnumber : ¬ startsNumber c cs) (h : isLetter c) :
    LexemeClass.word.Leads (taken c cs) (cs.drop (lexeme c cs).2) ∧
      Denotes .word (taken c cs) (lexeme c cs).1 := by
  have hlexeme : lexeme c cs = (wordToken (c :: cs.take (cs.takeWhile isWordChar).length),
      (cs.takeWhile isWordChar).length) := by rw [lexeme, if_neg hnumber, if_pos h]
  have hlength := lexeme_le cs c
  rw [hlexeme] at hlength
  rw [taken, hlexeme]
  constructor
  · refine LexemeClass.leads_of_length hlength ?_ ?_ (by simp [LexemeClass.yieldsTo])
    · rw [take_length_takeWhile]
      exact mem_one_mul_kstar.mpr ⟨c, _, rfl, h, of_mem_takeWhile _ _⟩
    · intro v hfront hv
      obtain ⟨d, ds, rfl, -, hds⟩ := mem_one_mul_kstar.mp hv
      have hds' : ds <+: cs := (List.cons_prefix_cons.mp hfront).2
      exact Nat.succ_le_succ (length_le_takeWhile hds' hds)
  · unfold wordToken
    dsimp only
    cases hk : Keyword.ofText?
      (String.ofList (c :: cs.take (cs.takeWhile isWordChar).length)) with
    | some k =>
      have htext := congrArg String.toList (Token.keyword_of_ofText? hk)
      rw [String.toList_ofList] at htext
      exact htext ▸ .keyword k
    | none =>
      refine .name fun k heq => ?_
      have hne := List.find?_eq_none.mp hk k (by cases k <;> decide)
      rw [← heq, String.ofList_toList] at hne
      exact hne (beq_self_eq_true _)

/-- A quote that is closed is a text up to the quote that closes it. -/
theorem leads_quoted {n : Nat} (hquote : closingQuote? cs = some n) :
    LexemeClass.quoted.Leads (taken '"' cs) (cs.drop (lexeme '"' cs).2) ∧
      Denotes .quoted (taken '"' cs) (lexeme '"' cs).1 := by
  have hlexeme : lexeme '"' cs = (.text (String.ofList (cs.take n)), n + 1) := by
    rw [lexeme, hquote]
    rfl
  have hlength := lexeme_le cs '"'
  rw [hlexeme] at hlength
  rw [taken, hlexeme]
  obtain ⟨body, rest, rfl, rfl, hbody⟩ := exists_body hquote
  have htake : (body ++ '"' :: rest).take (body.length + 1) = body ++ ['"'] := by
    simp [List.take_append]
  constructor
  · refine LexemeClass.leads_of_length hlength ?_ ?_ (by simp [LexemeClass.yieldsTo])
    · rw [htake]
      exact ⟨['"'], ⟨'"', rfl, rfl⟩, _, ⟨body, hbody, ['"'], ⟨'"', rfl, rfl⟩, rfl⟩, rfl⟩
    · intro v hfront hv
      obtain ⟨m, hm, hv'⟩ := closingQuote?_of_quoted hv hfront
      cases hquote.symm.trans hm
      exact Nat.le_of_eq hv'
  · rw [htake, List.take_left]
    exact .text body

/-- A quote that is not closed takes the rest of its line. -/
theorem leads_unclosed (hquote : closingQuote? cs = none) :
    LexemeClass.unclosed.Leads (taken '"' cs) (cs.drop (lexeme '"' cs).2) ∧
      Denotes .unclosed (taken '"' cs) (lexeme '"' cs).1 := by
  have hlexeme : lexeme '"' cs =
      (.unknown (String.ofList ('"' :: cs.take (lineLength cs))), lineLength cs) := by
    rw [lexeme, hquote]
    rfl
  have hlength := lexeme_le cs '"'
  rw [hlexeme] at hlength
  rw [taken, hlexeme]
  constructor
  · refine LexemeClass.leads_of_length hlength ?_ ?_ ?_
    · rw [lineLength, take_length_takeWhile]
      exact mem_one_mul_kstar.mpr ⟨'"', _, rfl, rfl, of_mem_takeWhile _ _⟩
    · intro v hfront hv
      obtain ⟨d, ds, rfl, -, hds⟩ := mem_one_mul_kstar.mp hv
      have hds' : ds <+: cs := (List.cons_prefix_cons.mp hfront).2
      exact Nat.succ_le_succ (length_le_takeWhile hds' hds)
    -- a quoted text in front would be closed
    · intro k hk v hfront hv
      cases k with
      | quoted =>
        obtain ⟨m, hm, -⟩ := closingQuote?_of_quoted hv hfront
        rw [hquote] at hm
        cases hm
      | _ => cases hk
  · exact .unclosed _

/-- A dollar sign takes the digits behind it, and is unknown without digits or
with too large a number. -/
theorem leads_argument :
    LexemeClass.argument.Leads (taken '$' cs) (cs.drop (lexeme '$' cs).2) ∧
      Denotes .argument (taken '$' cs) (lexeme '$' cs).1 := by
  have hlength := lexeme_le cs '$'
  have hlexeme : lexeme '$' cs =
      (argToken (cs.take (digitsLength cs)), digitsLength cs) := rfl
  rw [hlexeme] at hlength
  rw [taken, hlexeme]
  constructor
  · refine LexemeClass.leads_of_length hlength ?_ ?_ (by simp [LexemeClass.yieldsTo])
    · exact mem_one_mul_kstar.mpr ⟨'$', _, rfl, rfl, Numeral.isDigit_take_digitsLength cs⟩
    · intro v hfront hv
      obtain ⟨d, ds, rfl, -, hds⟩ := mem_one_mul_kstar.mp hv
      have hds' : ds <+: cs := (List.cons_prefix_cons.mp hfront).2
      exact Nat.succ_le_succ (length_le_takeWhile hds' hds)
  · unfold argToken
    dsimp only
    split
    case isTrue harg => exact .arg harg.1 harg.2
    case isFalse harg =>
      refine .noArg ?_
      by_cases hnil : cs.take (digitsLength cs) = []
      · exact .inl hnil
      · exact .inr (Nat.le_of_not_lt fun hlt => harg ⟨hnil, hlt⟩)

/-- What starts with none of the characters of the other classes is a mark, or
illegal. -/
theorem leads_mark (hnumber : ¬ startsNumber c cs) (hletter : ¬ isLetter c)
    (hquote : c ≠ '"') (harg : c ≠ '$') :
    ∃ k : LexemeClass, k.Leads (taken c cs) (cs.drop (lexeme c cs).2) ∧
      Denotes k (taken c cs) (lexeme c cs).1 := by
  have hlength := lexeme_le cs c
  have hletter' : isLetter c = false := by simpa using hletter
  cases hpair : pairToken? c cs with
  | some t =>
    have hlexeme : lexeme c cs = (t, 1) := by
      rw [lexeme, if_neg hnumber, if_neg hletter, if_neg hquote, if_neg harg, hpair]
    rw [hlexeme] at hlength
    rw [taken, hlexeme]
    obtain ⟨d, ds, rfl⟩ : ∃ d ds, cs = d :: ds := by
      cases cs with
      | nil => cases hpair
      | cons d ds => exact ⟨d, ds, rfl⟩
    obtain ⟨hmark, hshown⟩ := isMark_of_ofText? rfl hletter' hpair
    refine ⟨.mark, LexemeClass.leads_of_length hlength ⟨t, hmark, hshown.symm⟩ ?_
      (by simp [LexemeClass.yieldsTo]), ?_⟩
    · intro v hfront hv
      rcases ofText?_of_mark hv hfront with ⟨rfl, -⟩ | ⟨htwo, -⟩
      · exact Nat.le_succ 1
      · exact Nat.le_of_eq htwo
    · have hmark' := Denotes.mark hmark
      rwa [hshown] at hmark'
  | none =>
    have hlexeme : lexeme c cs = (markToken c, 0) := by
      rw [lexeme, if_neg hnumber, if_neg hletter, if_neg hquote, if_neg harg, hpair]
    rw [hlexeme] at hlength
    rw [taken, hlexeme]
    cases hone : Token.ofText? (String.ofList [c]) with
    | some t =>
      obtain ⟨hmark, hshown⟩ := isMark_of_ofText? rfl hletter' hone
      refine ⟨.mark, LexemeClass.leads_of_length hlength ⟨t, hmark, hshown.symm⟩ ?_
        (by simp [LexemeClass.yieldsTo]), ?_⟩
      · intro v hfront hv
        rcases ofText?_of_mark hv hfront with ⟨rfl, -⟩ | ⟨-, t', ht'⟩
        · exact Nat.le_refl 1
        · rw [hpair] at ht'
          cases ht'
      · have hmark' := Denotes.mark hmark
        rw [markToken, hone, List.take_zero]
        rwa [hshown] at hmark'
    | none =>
      rw [markToken, hone]
      refine ⟨.illegal, LexemeClass.leads_of_length hlength ⟨c, rfl, rfl⟩ ?_ ?_,
        .illegal _⟩
      · rintro v - ⟨d, -, rfl⟩
        exact Nat.le_refl 1
      · -- each of the other classes would have been found out by its first characters
        intro k hk v hfront hv
        obtain ⟨hword, hquoted, hargument⟩ := head_of_mem hv hfront
        cases k with
        | number => exact hnumber (startsNumber_of_numeral hv hfront)
        | word => exact hletter (hword rfl)
        | quoted => exact hquote (hquoted (.inl rfl))
        | unclosed => exact hquote (hquoted (.inr rfl))
        | argument => exact harg (hargument rfl)
        | mark =>
          rcases ofText?_of_mark hv hfront with ⟨-, t', ht'⟩ | ⟨-, t', ht'⟩
          · rw [hone] at ht'
            cases ht'
          · rw [hpair] at ht'
            cases ht'
        | illegal => cases hk

end

/-- What the lexer takes is the longest lexeme of its class, and the token is
the one it stands for. -/
theorem lexeme_leads (c : Char) (cs : List Char) :
    ∃ k : LexemeClass, k.Leads (taken c cs) (cs.drop (lexeme c cs).2) ∧
      Denotes k (taken c cs) (lexeme c cs).1 := by
  by_cases hnumber : startsNumber c cs
  · exact ⟨.number, leads_number hnumber⟩
  · by_cases hletter : isLetter c
    · exact ⟨.word, leads_word hnumber hletter⟩
    · by_cases hquote : c = '"'
      · subst hquote
        cases hclosed : closingQuote? cs with
        | some n => exact ⟨.quoted, leads_quoted hclosed⟩
        | none => exact ⟨.unclosed, leads_unclosed hclosed⟩
      · by_cases harg : c = '$'
        · subst harg
          exact ⟨.argument, leads_argument⟩
        · exact leads_mark hnumber hletter hquote harg

end Lexer

end StackCalc
