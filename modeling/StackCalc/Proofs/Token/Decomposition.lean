import StackCalc.Proofs.Number.Shortest
import StackCalc.Proofs.Token.Lexemes

/-!
# A source text and its tokens

Every text is gaps and lexemes in turn. A gap is blanks and comments, as many as
there are; a lexeme is the longest of its class, and stands for one token. `lex`
returns these tokens, each with the line its lexeme starts in
(`lex_decomposition`).

The recursion of the lexer goes from piece to piece. `Lexer.exists_gap` collects
the pieces up to the next lexeme into one gap, and `Lexer.exists_decomposition`
goes from lexeme to lexeme.
-/

namespace StackCalc

namespace Lexer

open Decimal (isDigit)

/-! ### Gaps -/

/-- A comment, with the text behind it: a comment that is not closed takes
everything. -/
inductive Comment : List Char → List Char → Prop
  | block {body rest : List Char} (h : ¬ ['*', '/'] <:+: body) :
    Comment ('/' :: '*' :: (body ++ ['*', '/'])) rest
  | openBlock {body : List Char} (h : ¬ ['*', '/'] <:+: body) : Comment
    ('/' :: '*' :: body) []
  | line {opening body rest : List Char}
    (hopening : opening = ['/', '/'] ∨ opening = ['#']) (h : '\n' ∉ body) :
    Comment (opening ++ body ++ ['\n']) rest
  | lastLine {opening body : List Char}
    (hopening : opening = ['/', '/'] ∨ opening = ['#']) (h : '\n' ∉ body) :
    Comment (opening ++ body) []

/-- Blanks and comments, with the text behind them. -/
inductive Gap : List Char → List Char → Prop
  | nil {rest : List Char} : Gap [] rest
  | blank {c : Char} {g rest : List Char} (hc : c ∈ [' ', '\t', '\r', '\n'])
    (h : Gap g rest) :
    Gap (c :: g) rest
  | comment {w g rest : List Char} (hw : Comment w (g ++ rest))
    (h : Gap g rest) : Gap (w ++ g) rest

/-- No blank and no comment stands in front. -/
def Gapless (cs : List Char) : Prop :=
  ∀ g rest, cs = g ++ rest → Gap g rest → g = []

theorem isBlank_iff {c : Char} : isBlank c ↔ c ∈ [' ', '\t', '\r', '\n'] := by
  simp [isBlank, or_assoc]

/-- A block comment reaches to the first closing mark, or to the end of the text. -/
theorem blockLength_cases (cs : List Char) :
    (∃ body rest, cs = body ++ '*' :: '/' :: rest ∧ ¬ ['*', '/'] <:+: body ∧
        blockLength cs = body.length + 2) ∨
      ¬ ['*', '/'] <:+: cs ∧ blockLength cs = cs.length := by
  induction cs using closesBlock.induct with
  | case1 => exact .inr ⟨by simp, rfl⟩
  | case2 rest => exact .inl ⟨[], rest, rfl, by simp, rfl⟩
  | case3 c cs hpair ih =>
    have hlength : blockLength (c :: cs) = blockLength cs + 1 := by
      rw [blockLength]
      exact hpair
    rcases ih with ⟨body, rest, rfl, hbody, heq⟩ | ⟨hnone, heq⟩
    · refine .inl ⟨c :: body, rest, rfl, ?_, by
        rw [hlength, heq, List.length_cons, Nat.add_right_comm]⟩
      -- the closing mark would start at the first character, or behind it
      intro hinfix
      rcases List.infix_cons_iff.mp hinfix with ⟨ds, hfront⟩ | hinfix
      · obtain ⟨rfl, hbody'⟩ := List.cons.inj hfront
        exact hpair _ rfl (by rw [← hbody']; rfl)
      · exact hbody hinfix
    · refine .inr ⟨?_, by rw [hlength, heq, List.length_cons]⟩
      intro hinfix
      rcases List.infix_cons_iff.mp hinfix with ⟨ds, hfront⟩ | hinfix
      · obtain ⟨rfl, hcs⟩ := List.cons.inj hfront
        exact hpair ds rfl hcs.symm
      · exact hnone hinfix

/-- A line reaches to its line end, or to the end of the text. -/
theorem lineLength_cases (cs : List Char) :
    (∃ body rest, cs = body ++ '\n' :: rest ∧ '\n' ∉ body ∧ lineLength cs = body.length) ∨
      '\n' ∉ cs ∧ lineLength cs = cs.length := by
  induction cs with
  | nil => exact .inr ⟨by simp, rfl⟩
  | cons c cs ih =>
    by_cases hc : c = '\n'
    · subst hc
      exact .inl ⟨[], cs, rfl, by simp, rfl⟩
    · have hlength : lineLength (c :: cs) = lineLength cs + 1 := by simp [lineLength, hc]
      have hne : ∀ {body : List Char}, '\n' ∉ body → '\n' ∉ c :: body := fun hbody hmem =>
        (List.mem_cons.mp hmem).elim (fun heq => hc heq.symm) hbody
      rcases ih with ⟨body, rest, rfl, hbody, heq⟩ | ⟨hnone, heq⟩
      · exact .inl ⟨c :: body, rest, rfl, hne hbody, by
          rw [hlength, heq, List.length_cons]⟩
      · exact .inr ⟨hne hnone, by rw [hlength, heq, List.length_cons]⟩

/-- A comment to the end of its line takes the line end with it, if there is one. -/
theorem comment_of_line {opening cs : List Char}
    (hopening : opening = ['/', '/'] ∨ opening = ['#']) :
    Comment (opening ++ cs.take (lineLength cs + 1)) (cs.drop (lineLength cs + 1)) := by
  rcases lineLength_cases cs with ⟨body, rest, rfl, hbody, heq⟩ | ⟨hnone, heq⟩
  · have htake : (body ++ '\n' :: rest).take (body.length + 1) = body ++ ['\n'] := by
      rw [List.take_length_add_append]
      rfl
    rw [heq, htake, ← List.append_assoc]
    exact .line hopening hbody
  · rw [heq, List.take_of_length_le (Nat.le_succ _),
      List.drop_eq_nil_of_le (Nat.le_succ _)]
    exact .lastLine hopening hnone

/-- What is passed over as a comment is one. -/
theorem comment_of_comment? {c : Char} {cs : List Char} {n : Nat}
    (h : comment? c cs = some n) :
    Comment (c :: cs.take n) (cs.drop n) := by
  unfold comment? at h
  split at h
  case h_1 rest =>
    cases h
    rw [Nat.add_comm, List.take_succ_cons, List.drop_succ_cons]
    rcases blockLength_cases rest with ⟨body, tail, rfl, hbody, heq⟩ | ⟨hnone, heq⟩
    · have htake : (body ++ '*' :: '/' :: tail).take (body.length + 2) =
          body ++ ['*', '/'] := by
        rw [List.take_length_add_append]
        rfl
      rw [heq, htake]
      exact .block hbody
    · rw [heq, List.take_length, List.drop_length]
      exact .openBlock hnone
  case h_2 rest =>
    cases h
    have hline : lineLength ('/' :: rest) = lineLength rest + 1 := by simp [lineLength]
    rw [hline, List.take_succ_cons, List.drop_succ_cons]
    exact comment_of_line (.inl rfl)
  case h_3 =>
    cases h
    exact comment_of_line (.inr rfl)
  case h_4 => cases h

/-- Where a comment stands in front, one is passed over. -/
theorem comment?_of_comment {w rest : List Char} {c : Char} {cs : List Char}
    (hw : Comment w rest) (h : c :: cs = w ++ rest) : comment? c cs ≠ none := by
  have hmark : ∀ {opening tail : List Char}, opening = ['/', '/'] ∨ opening = ['#'] →
      c :: cs = opening ++ tail → comment? c cs ≠ none := by
    rintro opening tail (rfl | rfl) heq
    · cases heq
      exact Option.some_ne_none _
    · cases heq
      exact Option.some_ne_none _
  cases hw with
  | block | openBlock =>
    cases h
    exact Option.some_ne_none _
  | line hopening =>
    rw [List.append_assoc, List.append_assoc] at h
    exact hmark hopening h
  | lastLine hopening =>
    rw [List.append_assoc] at h
    exact hmark hopening h

/-- Where the lexer finds neither blank nor comment there is none. -/
theorem gapless_cons {c : Char} {cs : List Char} (hblank : ¬ isBlank c)
    (hcomment : comment? c cs = none) :
    Gapless (c :: cs) := by
  intro g rest heq hg
  cases hg with
  | nil => rfl
  | blank hc =>
    cases heq
    exact absurd (isBlank_iff.mpr hc) hblank
  | comment hw =>
    rw [List.append_assoc] at heq
    exact absurd hcomment (comment?_of_comment hw heq)

theorem lineEnds_append (cs ds : List Char) :
    lineEnds (cs ++ ds) = lineEnds cs + lineEnds ds :=
  List.count_append

/-- The blanks and comments in front of a text are one gap, and the lexer passes
over it. -/
theorem exists_gap (cs : List Char) :
    ∃ g rest, cs = g ++ rest ∧ Gap g rest ∧
      (∀ c ds, rest = c :: ds → ¬ isBlank c ∧ comment? c ds = none) ∧
      ∀ line, lexFrom line cs = lexFrom (line + lineEnds g) rest := by
  -- the recursion of `endsInComment` goes from piece to piece, as the lexer
  -- does
  induction cs using endsInComment.induct with
  | case1 => exact ⟨[], [], rfl, .nil, by simp, fun _ => rfl⟩
  | case2 c cs ih =>
    by_cases hblank : isBlank c
    · have hscan : scan c cs = (none, 0) := by rw [scan, if_pos hblank]
      rw [hscan, List.drop_zero] at ih
      obtain ⟨g, rest, rfl, hgap, hnext, hlex⟩ := ih
      refine ⟨c :: g, rest, rfl, .blank (isBlank_iff.mp hblank) hgap, hnext,
        fun line => ?_⟩
      rw [lexFrom_cons, hscan, List.drop_zero, hlex, Nat.add_assoc, ← lineEnds_append]
      rfl
    · cases hcomment : comment? c cs with
      | some n =>
        have hscan : scan c cs = (none, n) := by rw [scan, if_neg hblank, hcomment]
        rw [hscan] at ih
        obtain ⟨g, rest, heq, hgap, hnext, hlex⟩ := ih
        have hw := comment_of_comment? hcomment
        dsimp only at heq
        rw [heq] at hw
        refine ⟨c :: cs.take n ++ g, rest, ?_, .comment hw hgap, hnext, fun line => ?_⟩
        · rw [List.append_assoc, ← heq, List.cons_append, List.take_append_drop]
        · rw [lexFrom_cons, hscan, hlex, Nat.add_assoc, ← lineEnds_append]
          rfl
      | none =>
        refine ⟨[], c :: cs, rfl, .nil, ?_, fun _ => rfl⟩
        rintro d ds heq
        cases heq
        exact ⟨hblank, hcomment⟩

/-! ### Pieces -/

/-- A lexeme with the gap in front of it, its class and its token. -/
structure Piece where
  gap : List Char
  text : List Char
  kind : LexemeClass
  token : Token

/-- The text of a row of pieces. -/
def joined : List Piece → List Char
  | [] => []
  | p :: ps => p.gap ++ p.text ++ joined ps

/-- The tokens of a row of pieces that starts in the given line. -/
def located : Nat → List Piece → List Located
  | _, [] => []
  | line, p :: ps =>
    ⟨line + lineEnds p.gap, p.token⟩ :: located (line + lineEnds (p.gap ++ p.text)) ps

/-- A piece is what the lexer takes in front of `p.gap ++ p.text ++ rest`: the
whole gap, the longest lexeme behind it, and the token this lexeme stands for. -/
structure Piece.Fits (p : Piece) (rest : List Char) : Prop where
  gap : Gap p.gap (p.text ++ rest)
  gapless : Gapless (p.text ++ rest)
  leads : p.kind.Leads p.text rest
  denotes : Denotes p.kind p.text p.token

/-- Every piece fits what follows it, and behind the last there is only a gap. -/
def Fitting : List Piece → List Char → Prop
  | [], last => Gap last []
  | p :: ps, last => p.Fits (joined ps ++ last) ∧ Fitting ps last

/-- Every text is a row of pieces, and its tokens are theirs. -/
theorem exists_decomposition (cs : List Char) :
    ∃ pieces last, cs = joined pieces ++ last ∧ Fitting pieces last ∧
      ∀ line, lexFrom line cs = located line pieces := by
  -- each lexeme has a character at least, so what is left is shorter
  induction hn : cs.length using Nat.strongRecOn generalizing cs with
  | ind n ih =>
    obtain ⟨g, rest, rfl, hgap, hnext, hlex⟩ := exists_gap cs
    cases rest with
    | nil =>
      refine ⟨[], g, by simp [joined], hgap, fun line => ?_⟩
      rw [hlex, lexFrom, located]
    | cons c ds =>
      obtain ⟨hblank, hcomment⟩ := hnext c ds rfl
      obtain ⟨k, hleads, hdenotes⟩ := lexeme_leads c ds
      have hscan : scan c ds = (some (lexeme c ds).1, (lexeme c ds).2) := by
        rw [scan, if_neg hblank, hcomment]
      obtain ⟨pieces, last, hrest, hfits, hrec⟩ := ih (ds.drop (lexeme c ds).2).length
        (by rw [← hn, List.length_append, List.length_drop, List.length_cons]; omega)
        _ rfl
      have hsplit : taken c ds ++ (joined pieces ++ last) = c :: ds := by
        rw [← hrest, List.cons_append, List.take_append_drop]
      rw [hrest] at hleads
      refine ⟨⟨g, taken c ds, k, (lexeme c ds).1⟩ :: pieces, last, ?_,
        ⟨⟨?_, ?_, hleads, hdenotes⟩, hfits⟩, fun line => ?_⟩
      · rw [joined, List.append_assoc, List.append_assoc, hsplit]
      · rwa [hsplit]
      · rw [hsplit]
        exact gapless_cons hblank hcomment
      · rw [hlex, lexFrom_cons, hscan, hrec, located, lineEnds_append, ← Nat.add_assoc]
        rfl

/-- What a piece in the middle of a row is behind, and in front of. -/
theorem fits_of_fitting {before after : List Piece} {p : Piece} {last : List Char}
    (h : Fitting (before ++ p :: after) last) : p.Fits (joined after ++ last) := by
  induction before with
  | nil => exact h.1
  | cons q before ih => exact ih h.2

/-- Behind the last piece there is only a gap. -/
theorem gap_of_fitting {pieces : List Piece} {last : List Char}
    (h : Fitting pieces last) :
    Gap last [] := by
  induction pieces with
  | nil => exact h
  | cons p pieces ih => exact ih h.2

/-- There is one token for each piece. -/
theorem length_located (line : Nat) (pieces : List Piece) :
    (located line pieces).length = pieces.length := by
  induction pieces generalizing line with
  | nil => rfl
  | cons p pieces ih => exact congrArg (· + 1) (ih _)

theorem map_token_located (line : Nat) (pieces : List Piece) :
    (located line pieces).map Located.token = pieces.map Piece.token := by
  induction pieces generalizing line with
  | nil => rfl
  | cons p pieces ih => exact congrArg (p.token :: ·) (ih _)

/-- A token has the line in which its lexeme starts. -/
theorem located_at (line : Nat) (before : List Piece) (p : Piece) (after : List Piece) :
    (located line (before ++ p :: after))[before.length]? =
      some ⟨line + lineEnds (joined before ++ p.gap), p.token⟩ := by
  induction before generalizing line with
  | nil => rfl
  | cons q before ih =>
    rw [List.cons_append, located, List.length_cons, List.getElem?_cons_succ, ih, joined,
      List.append_assoc _ _ p.gap, lineEnds_append (q.gap ++ q.text), Nat.add_assoc]

/-- A numeral that stands alone is one number. -/
theorem lexFrom_text (line : Nat) (n : Numeral) :
    lexFrom line n.text = [⟨line, .number n.reading⟩] := by
  have hread := n.read_text
  have hlength := Numeral.length_le (n := n) (List.prefix_refl n.text)
  have hne : n.text ≠ [] :=
    LexemeClass.ne_nil_of_mem (c := .number) (Numeral.mem_language.mpr ⟨n, rfl⟩)
  obtain ⟨c, cs, heq⟩ := List.exists_cons_of_ne_nil hne
  have hstarts : startsNumber c cs :=
    @Numeral.startsNumber_of_text n [] c cs (by rw [List.append_nil, heq])
  -- neither a blank nor a comment starts like a number
  have hblank : ¬ isBlank c := by
    intro hblank
    have hmem := isBlank_iff.mp hblank
    simp only [List.mem_cons, List.not_mem_nil, or_false] at hmem
    rcases hmem with rfl | rfl | rfl | rfl <;> simp [startsNumber, isDigit] at hstarts
  have hcomment : comment? c cs = none := by
    unfold comment?
    split
    · simp [startsNumber, isDigit] at hstarts
    · simp [startsNumber, isDigit] at hstarts
    · simp [startsNumber, isDigit] at hstarts
    · rfl
  rw [heq] at hread hlength
  have hrest : cs.length ≤ numberLength (c :: cs) - 1 := by
    rw [List.length_cons] at hlength
    omega
  have hscan : scan c cs = (some (.number n.reading), numberLength (c :: cs) - 1) := by
    rw [scan, if_neg hblank, hcomment, lexeme, if_pos hstarts]
    dsimp only
    rw [List.take_of_length_le hrest, numberToken, hread]
  rw [heq, lexFrom_cons, hscan, List.drop_eq_nil_of_le hrest, lexFrom]
  rfl

end Lexer

open Lexer

/-- Every token of a text is one that a lexeme stands for. -/
theorem exists_denotes_of_mem {source : String} {t : Token}
    (h : t ∈ (lex source).map Located.token) :
    ∃ k w, w ∈ k.language ∧ Denotes k w t := by
  obtain ⟨pieces, last, -, hfitting, hlex⟩ := exists_decomposition source.toList
  rw [lex, hlex, map_token_located] at h
  obtain ⟨p, hp, rfl⟩ := List.mem_map.mp h
  obtain ⟨before, after, rfl⟩ := List.append_of_mem hp
  have hfits := fits_of_fitting hfitting
  exact ⟨p.kind, p.text, hfits.leads.mem, hfits.denotes⟩

/-- A source text is gaps and lexemes in turn; each lexeme is the longest of its
class, and `lex` returns its token with the line it starts in. -/
theorem lex_decomposition (source : String) :
    ∃ (pieces : List Piece) (last : List Char),
      source.toList = joined pieces ++ last ∧ Gap last [] ∧
      (lex source).length = pieces.length ∧
      ∀ before p after, pieces = before ++ p :: after →
        (Gap p.gap (p.text ++ (joined after ++ last)) ∧
          Gapless (p.text ++ (joined after ++ last))) ∧
        (p.text ≠ [] ∧ p.kind.Leads p.text (joined after ++ last)) ∧
        (lex source)[before.length]? =
          some ⟨1 + (joined before ++ p.gap).count '\n', p.token⟩ ∧
        Denotes p.kind p.text p.token ∧
        ((∀ x, p.token ≠ .number x) → (∀ n, p.token ≠ .arg n) →
          p.token.shown = String.ofList p.text) ∧
        (∀ x, p.token = .number x →
          ∃ n : Numeral, n.text = p.text ∧ n.reading = x ∧ (n.Moderate → n.value = x)) ∧
        ∀ n, p.token = .arg n → ∃ ds, p.text = '$' :: ds ∧ ds ≠ [] ∧
          Decimal.ofDigits ds = n := by
  obtain ⟨pieces, last, hsource, hfitting, hlex⟩ := exists_decomposition source.toList
  refine ⟨pieces, last, hsource, gap_of_fitting hfitting, ?_, ?_⟩
  · rw [lex, hlex, length_located]
  · rintro before p after rfl
    obtain ⟨hgap, hgapless, hleads, hdenotes⟩ := fits_of_fitting hfitting
    refine ⟨⟨hgap, hgapless⟩, ⟨LexemeClass.ne_nil_of_mem hleads.mem, hleads⟩,
      ?_, hdenotes, hdenotes.shown, hdenotes.exists_numeral, hdenotes.exists_digits⟩
    rw [lex, hlex]
    exact located_at 1 before p after

namespace Numeral

/-- One with zeros behind it, in front of the exponent `-655360`. -/
def lengthy (zeros : Nat) : Numeral where
  whole := ['1'] ++ List.replicate zeros '0'
  fraction := none
  exponent := some
    { mark := 'e'
      sign := some '-'
      digits := ['6', '5', '5', '3', '6', '0']
      mark_eq := .inl rfl
      sign_eq := fun _ hc => .inr (Option.some.inj hc).symm
      digits_ne_nil := List.cons_ne_nil _ _
      isDigit_digits := List.all_eq_true.mp rfl }
  isDigit_whole := List.forall_mem_cons.mpr ⟨rfl, Decimal.isDigit_zeros _⟩
  isDigit_fraction := fun ds h => absurd h (Option.not_mem_none ds)
  exists_digit := .inl (List.cons_ne_nil _ _)

theorem digits_lengthy (zeros : Nat) :
    (lengthy zeros).digits = ['1'] ++ List.replicate zeros '0' :=
  List.append_nil _

/-- Of the exponent five digits are read. With as many zeros as they say the
number is read as one. -/
theorem reading_lengthy : (lengthy 65536).reading = 1.0 := by
  have hexponent : (lengthy 65536).exponent.elim 0 Exponent.reading =
      -(65536 : Nat) := by decide
  have hone : (Decimal.toFloat ⟨1, 0⟩) = 1.0 := by decide +kernel
  rw [reading, hexponent, ← hone, Decimal.toFloat_eq, Decimal.toFloat_eq]
  generalize 65536 = k
  have hvalue : ((lengthy k).decimal (-k)).value = Decimal.value ⟨1, 0⟩ := by
    have hdecimal : (lengthy k).decimal (-k) = ⟨Decimal.ofDigits ['1'] * 10 ^ k, -k⟩ := by
      rw [decimal, digits_lengthy, Decimal.ofDigits_append_zeros]
      exact congrArg (Decimal.mk _) (Int.sub_zero _)
    rw [hdecimal, show Decimal.ofDigits ['1'] = 1 from rfl, Nat.one_mul,
      Decimal.value_neg, div_self (by positivity), Decimal.value]
    norm_num
  rw [hvalue]

/-- It stands for far less: the exponent takes away more than the zeros. -/
theorem value_lengthy : (lengthy 65536).value = 0.0 := by
  have hexponent : (lengthy 65536).exponent.elim 0 Exponent.value = -655360 := by decide
  have hbits := log2_ofDigits_le (lengthy 65536).isDigit_digits
  have hlength : (lengthy 65536).digits.length = 65537 := by
    rw [digits_lengthy, List.length_append, List.length_replicate]
    rfl
  rw [value, hexponent, Decimal.toFloat_eq]
  refine Nearest.rounded_of_small (Decimal.value_nonneg _) (Decimal.value_lt ?_)
  rw [show ((lengthy 65536).fraction.getD []).length = 0 from rfl]
  omega

end Numeral

/-- The digits of an exponent count only until it has passed `65535`. -/
theorem lex_lengthy :
    lex (String.ofList (Numeral.lengthy 65536).text) = [⟨1, .number 1.0⟩] ∧
      ∀ n : Numeral, n.text = (Numeral.lengthy 65536).text →
        n.value = 0.0 ∧ n.value ≠ 1.0 := by
  constructor
  · rw [lex, String.toList_ofList, lexFrom_text, Numeral.reading_lengthy]
  · intro n htext
    rw [Numeral.text_injective htext, Numeral.value_lengthy]
    exact ⟨rfl, by decide⟩

end StackCalc
