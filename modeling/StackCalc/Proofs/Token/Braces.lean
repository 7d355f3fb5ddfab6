import StackCalc.CommandLine.RunFile
import StackCalc.Proofs.Token.Decomposition

/-!
# Braces of a text and of its tokens

A text that is typed in line by line goes on while it has more opening than
closing braces. This is decided by its characters (`isOpen`), so braces count
that are no tokens: those in comments and those in quoted texts, closed or not
(`Lexer.aside`). `isOpen_iff_braces` says what that comes to. Where the braces
that are no tokens are as many opening as closing ones, the text goes on just if
a block is open among its tokens.
-/

namespace StackCalc

/-- The two braces. -/
inductive Brace where
  | left
  | right
deriving DecidableEq

namespace Brace

/-- A brace as a character. -/
def char : Brace → Char
  | left => '\x7b'
  | right => '\x7d'

/-- A brace as a token. -/
def token : Brace → Token
  | left => .leftBrace
  | right => .rightBrace

/-- A brace stands in no number, no word and no argument. -/
theorem isForeign_char (b : Brace) : Lexer.isForeign b.char := by
  cases b <;> decide

theorem shown_token (b : Brace) : b.token.shown.toList = [b.char] := by
  cases b <;> rfl

theorem isMark_token (b : Brace) : b.token.isMark := by
  cases b <;> rfl

/-- A mark has a brace in it only if it is that brace. -/
theorem count_mark {t : Token} (ht : t.isMark) (b : Brace) :
    t.shown.toList.count b.char = [t].count b.token := by
  cases t with
  | operator op => cases op <;> cases b <;> decide +kernel
  | leftParen | rightParen | leftBrace | rightBrace | comma | semicolon =>
    cases b <;> decide +kernel
  | unknown | number | text | keyword | ident | arg => cases ht

theorem count_of_not_isMark {t : Token} (ht : t.isMark = false) (b : Brace) :
    [t].count b.token = 0 := by
  refine List.count_eq_zero.mpr fun hmem => ?_
  rw [← List.mem_singleton.mp hmem, b.isMark_token] at ht
  cases ht

end Brace

namespace Lexer

/-- What a piece quotes: its lexeme if that is a text, closed or not. -/
def Piece.quotation (p : Piece) : List Char :=
  if p.kind = .quoted ∨ p.kind = .unclosed then p.text else []

/-- What the lexer passes over in a row of pieces, and what these quote. -/
def aside (pieces : List Piece) (last : List Char) : List Char :=
  pieces.flatMap (fun p => p.gap ++ p.quotation) ++ last

/-- A character that no class has a lexeme for is no brace. -/
theorem not_mem_illegal {w rest : List Char} (h : LexemeClass.illegal.Leads w rest)
    (b : Brace) :
    b.char ∉ w := by
  obtain ⟨c, -, rfl⟩ := h.mem
  intro hmem
  have hmark : [c] ∈ LexemeClass.mark.language :=
    ⟨b.token, b.isMark_token, by rw [b.shown_token, List.mem_singleton.mp hmem]⟩
  exact h.precedence .mark (by decide) [c] (List.prefix_append _ _) hmark

/-- A brace in a lexeme is a token, or is quoted. -/
theorem Piece.Fits.count_brace {p : Piece} {rest : List Char}
    (h : p.Fits rest) (b : Brace) :
    p.text.count b.char = [p.token].count b.token + p.quotation.count b.char := by
  obtain ⟨-, -, hleads, hdenotes⟩ := h
  obtain ⟨gap, w, kind, t⟩ := p
  dsimp only at hleads hdenotes ⊢
  have hforeign : kind ∈ [.number, .word, .argument] → b.char ∉ w := fun hk =>
    not_mem_of_isForeign b.isForeign_char hk hleads.mem
  -- by the sort of token; only quoted texts have braces that are no tokens
  cases hdenotes with
  | mark ht => exact b.count_mark ht
  | text | unclosed =>
    rw [b.count_of_not_isMark rfl, Nat.zero_add]
    rfl
  | illegal =>
    rw [b.count_of_not_isMark rfl, List.count_eq_zero.mpr (not_mem_illegal hleads b)]
    rfl
  | number | keyword | name | arg | noArg =>
    rw [b.count_of_not_isMark rfl, List.count_eq_zero.mpr (hforeign (by decide))]
    rfl

/-- Every brace of a text is a token, or is passed over or quoted. -/
theorem Fitting.count_brace {pieces : List Piece} {last : List Char}
    (h : Fitting pieces last) (b : Brace) :
    (joined pieces ++ last).count b.char =
      (pieces.map Piece.token).count b.token + (aside pieces last).count b.char := by
  induction pieces with
  | nil => exact (Nat.zero_add _).symm
  | cons p pieces ih =>
    obtain ⟨hfits, hrest⟩ := h
    have hpiece := hfits.count_brace b
    have htail := ih hrest
    have htokens : (p.token :: pieces.map Piece.token).count b.token =
        [p.token].count b.token + (pieces.map Piece.token).count b.token := by
      rw [← List.count_append, List.singleton_append]
    simp only [joined, aside, List.flatMap_cons, List.map_cons,
      List.count_append] at htail ⊢
    omega

end Lexer

open Lexer

/-- A text goes on just if there are more opening braces than closing ones among
its tokens, in its comments and in what it quotes. So it goes on just if there
are more among its tokens, provided that its comments and what it quotes have as
many of either. -/
theorem isOpen_iff_braces (source : String) :
    ∃ (pieces : List Piece) (last : List Char),
      source.toList = joined pieces ++ last ∧ Fitting pieces last ∧
      (lex source).map Located.token = pieces.map Piece.token ∧
      (isOpen source ↔
        ((lex source).map Located.token).count .rightBrace +
          (aside pieces last).count '\x7d' <
          ((lex source).map Located.token).count .leftBrace +
            (aside pieces last).count '\x7b') ∧
      ((aside pieces last).count '\x7b' = (aside pieces last).count '\x7d' →
        (isOpen source ↔
          ((lex source).map Located.token).count .rightBrace <
            ((lex source).map Located.token).count .leftBrace)) := by
  obtain ⟨pieces, last, hsource, hfitting, hlex⟩ := exists_decomposition source.toList
  have htokens : (lex source).map Located.token = pieces.map Piece.token := by
    rw [lex, hlex, map_token_located]
  have hleft : source.toList.count '\x7b' =
      ((lex source).map Located.token).count .leftBrace +
        (aside pieces last).count '\x7b' := by
    rw [hsource, htokens]
    exact hfitting.count_brace .left
  have hright : source.toList.count '\x7d' =
      ((lex source).map Located.token).count .rightBrace +
        (aside pieces last).count '\x7d' := by
    rw [hsource, htokens]
    exact hfitting.count_brace .right
  have hopen : isOpen source ↔ source.toList.count '\x7d' < source.toList.count '\x7b' :=
    decide_eq_true_iff
  rw [hleft, hright] at hopen
  refine ⟨pieces, last, hsource, hfitting, htokens, hopen,
    fun hbalanced => hopen.trans ?_⟩
  omega

/-- So a brace that is printed is taken for an open block, and one that is
printed hides that a block is open. -/
theorem isOpen_misled :
    isOpen "print \"\x7b\"" = true ∧
      (lex "print \"\x7b\"").map Located.token = [.keyword .printKw, .text "\x7b"] ∧
      isOpen "if (x) \x7b print \"\x7d\"" = false ∧
      (lex "if (x) \x7b print \"\x7d\"").map Located.token =
        [.keyword .ifKw, .leftParen, .ident "x", .rightParen, .leftBrace,
          .keyword .printKw, .text "\x7d"] := by
  decide +kernel

end StackCalc
