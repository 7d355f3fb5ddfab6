import StackCalc.Token.Lexer

/-!
# Texts one after the other

No lexeme reaches beyond the end of a line, and a piece at the end of a text is
measured as it is in front of a line end. So the tokens of two texts with a line
end between them are those of the first text and then those of the second
(`Lexer.lexFrom_append`), unless the first text ends inside a block comment,
which would go on into the second. The lines of the second text count on from
those of the first (`lex_append_lines`).
-/

namespace StackCalc

/-- The same token, `n` lines further down. -/
def Located.later (n : Nat) (t : Located) : Located :=
  { t with line := t.line + n }

namespace Lexer

open Decimal (isDigit)

variable (cs rest : List Char)

/-! ### Lengths in front of a line end -/

theorem takeWhile_lineEnd {p : Char → Bool} (hp : p '\n' = false) :
    (cs ++ '\n' :: rest).takeWhile p = cs.takeWhile p := by
  induction cs with
  | nil => simp [hp]
  | cons c cs ih => rw [List.cons_append, List.takeWhile_cons, List.takeWhile_cons, ih]

theorem lineLength_lineEnd : lineLength (cs ++ '\n' :: rest) = lineLength cs := by
  rw [lineLength, lineLength, takeWhile_lineEnd cs rest (by decide)]

theorem digitsLength_lineEnd : digitsLength (cs ++ '\n' :: rest) = digitsLength cs := by
  rw [digitsLength, digitsLength, takeWhile_lineEnd cs rest (by decide)]

theorem digitsLength_le : digitsLength cs ≤ cs.length :=
  (List.takeWhile_sublist _).length_le

theorem fractionLength_lineEnd :
    fractionLength (cs ++ '\n' :: rest) = fractionLength cs := by
  rcases cs with _ | ⟨c, cs⟩
  · rfl
  · by_cases hc : c = '.'
    · subst hc
      exact congrArg (· + 1) (digitsLength_lineEnd cs rest)
    · simp [fractionLength, hc]

theorem fractionLength_le : fractionLength cs ≤ cs.length := by
  unfold fractionLength
  split
  · exact Nat.succ_le_succ (digitsLength_le _)
  · exact Nat.zero_le _

theorem signLength_lineEnd : signLength (cs ++ '\n' :: rest) = signLength cs := by
  rcases cs with _ | ⟨c, cs⟩
  · rfl
  · unfold signLength
    rw [List.cons_append]
    split <;> split <;> simp_all

theorem signLength_le : signLength cs ≤ cs.length := by
  unfold signLength
  split <;> simp

theorem exponentLength_lineEnd :
    exponentLength (cs ++ '\n' :: rest) = exponentLength cs := by
  rcases cs with _ | ⟨c, cs⟩
  · simp [exponentLength]
  · rw [List.cons_append, exponentLength, exponentLength, signLength_lineEnd]
    dsimp only
    rw [List.drop_append_of_le_length (signLength_le cs), digitsLength_lineEnd]

theorem exponentLength_le : exponentLength cs ≤ cs.length := by
  rcases cs with _ | ⟨c, cs⟩
  · exact Nat.le_refl _
  · have hdigits := digitsLength_le (cs.drop (signLength cs))
    have hsign := signLength_le cs
    rw [List.length_drop] at hdigits
    rw [exponentLength, List.length_cons]
    dsimp only
    split
    · split
      · omega
      · omega
    · omega

theorem numberLength_lineEnd : numberLength (cs ++ '\n' :: rest) = numberLength cs := by
  have hwhole := digitsLength_le cs
  have hfraction := fractionLength_le (cs.drop (digitsLength cs))
  rw [List.length_drop] at hfraction
  rw [numberLength, numberLength, digitsLength_lineEnd,
    List.drop_append_of_le_length hwhole, fractionLength_lineEnd,
    List.drop_append_of_le_length (by omega), exponentLength_lineEnd]

theorem numberLength_le : numberLength cs ≤ cs.length := by
  have hwhole := digitsLength_le cs
  have hfraction := fractionLength_le (cs.drop (digitsLength cs))
  have hexponent := exponentLength_le
    (cs.drop (digitsLength cs + fractionLength (cs.drop (digitsLength cs))))
  rw [List.length_drop] at hfraction hexponent
  rw [numberLength]
  omega

/-- A quote that is not closed in its line is not closed. -/
theorem closingQuote?_lineEnd :
    closingQuote? (cs ++ '\n' :: rest) = closingQuote? cs := by
  induction cs using closingQuote?.induct with
  | case1 | case2 | case3 | case4 => rfl
  | case5 c cs hc ih =>
    rw [closingQuote?, List.cons_append, List.cons_append, closingQuote?, ih]
    · exact hc
    · exact hc
  | case6 c cs hquote hline _ hpair ih =>
    by_cases hc : c = '\\'
    · subst hc
      -- a backslash in the last place makes no pair
      rcases cs with _ | ⟨d, cs⟩
      · rfl
      · exact (hpair d cs rfl rfl).elim
    · simp [closingQuote?, hc, ih]

/-- The closing quote is inside the text. -/
theorem closingQuote?_lt {n : Nat} (h : closingQuote? cs = some n) : n < cs.length := by
  induction cs using closingQuote?.induct generalizing n with
  | case1 | case3 | case4 => exact nomatch h
  | case2 =>
    cases h
    exact Nat.succ_pos _
  | case5 c cs hc ih =>
    rw [closingQuote?] at h
    · obtain ⟨k, hk, rfl⟩ := Option.map_eq_some_iff.mp h
      have hlt := ih hk
      rw [List.length_cons, List.length_cons]
      omega
    · exact hc
  | case6 c cs hquote hline hend hpair ih =>
    rw [closingQuote?] at h
    · obtain ⟨k, hk, rfl⟩ := Option.map_eq_some_iff.mp h
      exact Nat.succ_lt_succ (ih hk)
    all_goals assumption

/-! ### Pieces in front of a line end -/

theorem toList_ne_lineEnd {s : String} {c : Char} (h : s.toList ≠ [c, '\n']) :
    s ≠ String.ofList [c, '\n'] := by
  rintro rfl
  exact h String.toList_ofList

/-- No word, operator or mark has a line end in it. -/
theorem ofText?_lineEnd (c : Char) : Token.ofText? (String.ofList [c, '\n']) = none := by
  have hword : Keyword.ofText? (String.ofList [c, '\n']) = none := by
    refine List.find?_eq_none.mpr fun k _ => ?_
    have hne : k.text ≠ String.ofList [c, '\n'] :=
      toList_ne_lineEnd (by cases k <;> simp [Keyword.text])
    simpa using hne
  have hop : Operator.ofText? (String.ofList [c, '\n']) = none := by
    refine List.find?_eq_none.mpr fun op _ => ?_
    have hne : op.text ≠ String.ofList [c, '\n'] :=
      toList_ne_lineEnd (by cases op <;> simp [Operator.text])
    simpa using hne
  rw [Token.ofText?, hword, hop]
  all_goals exact fun heq => toList_ne_lineEnd (by simp) heq.symm

theorem pairToken?_lineEnd (c : Char) :
    pairToken? c (cs ++ '\n' :: rest) = pairToken? c cs := by
  rcases cs with _ | ⟨d, cs⟩
  · exact ofText?_lineEnd c
  · rfl

/-- Whether a number starts does not depend on a line end that follows. -/
theorem startsNumber_lineEnd (c : Char) :
    startsNumber c (cs ++ '\n' :: rest) = startsNumber c cs := by
  rcases cs with _ | ⟨d, cs⟩
  · rfl
  · rfl

/-- A lexeme in front of a line end is the same as at the end of a text. -/
theorem lexeme_lineEnd (c : Char) : lexeme c (cs ++ '\n' :: rest) = lexeme c cs := by
  have hnumber := numberLength_lineEnd (c :: cs) rest
  have hlength := numberLength_le (c :: cs)
  rw [List.cons_append] at hnumber
  rw [List.length_cons] at hlength
  have hword : (cs.takeWhile isWordChar).length ≤ cs.length :=
    (List.takeWhile_sublist _).length_le
  have hline : lineLength cs ≤ cs.length := (List.takeWhile_sublist _).length_le
  unfold lexeme
  rw [startsNumber_lineEnd, hnumber, takeWhile_lineEnd cs rest (by decide),
    closingQuote?_lineEnd, lineLength_lineEnd, digitsLength_lineEnd, pairToken?_lineEnd]
  dsimp only
  rw [List.take_append_of_le_length (by omega), List.take_append_of_le_length hword,
    List.take_append_of_le_length hline,
    List.take_append_of_le_length (digitsLength_le cs)]
  -- a text that is closed ends in front of the line end
  cases hquote : closingQuote? cs with
  | none => rfl
  | some n =>
    dsimp only
    rw [List.take_append_of_le_length (Nat.le_of_lt (closingQuote?_lt cs hquote))]

/-- A lexeme does not reach beyond the text. -/
theorem lexeme_le (c : Char) : (lexeme c cs).2 ≤ cs.length := by
  unfold lexeme
  split
  · have hle := numberLength_le (c :: cs)
    rw [List.length_cons] at hle
    dsimp only
    omega
  · split
    · exact (List.takeWhile_sublist _).length_le
    · split
      · split
        · exact closingQuote?_lt cs ‹_›
        · exact (List.takeWhile_sublist _).length_le
      · split
        · exact digitsLength_le cs
        · split
          · rename_i heq
            rcases cs with _ | ⟨d, cs⟩
            · cases heq
            · exact Nat.succ_le_succ (Nat.zero_le _)
          · exact Nat.zero_le _

/-! ### Comments -/

/-- Whether a block comment is closed in what follows its opening mark. -/
def closesBlock : List Char → Bool
  | [] => false
  | '*' :: '/' :: _ => true
  | _ :: cs => closesBlock cs

/-- Whether a text ends inside a block comment. -/
def endsInComment : List Char → Bool
  | [] => false
  | c :: cs =>
    (c = '/' && cs.head? = some '*' && !closesBlock cs.tail) ||
      endsInComment (cs.drop (scan c cs).2)
termination_by cs => cs.length
decreasing_by
  rw [List.length_drop, List.length_cons]
  omega

/-- A block comment that is closed is as long as before, and inside the text. -/
theorem blockLength_of_closes (h : closesBlock cs) :
    blockLength (cs ++ '\n' :: rest) = blockLength cs ∧ blockLength cs ≤ cs.length := by
  induction cs using closesBlock.induct with
  | case1 => exact nomatch h
  | case2 cs => exact ⟨rfl, by simp [blockLength]⟩
  | case3 c cs hpair ih =>
    rw [closesBlock] at h
    · obtain ⟨hsame, hle⟩ := ih h
      rw [List.cons_append, blockLength, blockLength, hsame]
      · exact ⟨rfl, Nat.succ_le_succ hle⟩
      · exact hpair
      · -- the closing mark is not cut by the line end
        rintro ds rfl heq
        rcases cs with _ | ⟨d, cs⟩
        · exact nomatch heq
        · exact hpair cs rfl (by rw [(List.cons.inj heq).1])
    · exact hpair

/-- A comment in front of a line end is as long as at the end of a text; one
that goes to the end of its line takes the line end with it. -/
theorem comment?_lineEnd {c : Char}
    (hclosed : (c = '/' && cs.head? = some '*' && !closesBlock cs.tail) = false) :
    comment? c (cs ++ '\n' :: rest) = comment? c cs := by
  by_cases hslash : c = '/'
  · subst hslash
    rcases cs with _ | ⟨d, cs⟩
    · rfl
    · by_cases hblock : d = '*'
      · subst hblock
        have hcloses : closesBlock cs := by simpa using hclosed
        exact congrArg (fun n => some (1 + n)) (blockLength_of_closes cs rest hcloses).1
      · by_cases hline : d = '/'
        · subst hline
          exact congrArg (fun n => some (n + 1)) (lineLength_lineEnd ('/' :: cs) rest)
        · simp [comment?, hblock, hline]
  · by_cases hhash : c = '#'
    · subst hhash
      exact congrArg (fun n => some (n + 1)) (lineLength_lineEnd cs rest)
    · simp [comment?, hslash]

/-- A comment that is closed reaches to the end of the text at most, and takes
the line end behind it. -/
theorem comment?_le {c : Char} {n : Nat}
    (hclosed : (c = '/' && cs.head? = some '*' && !closesBlock cs.tail) = false)
    (h : comment? c cs = some n) : n ≤ cs.length + 1 := by
  unfold comment? at h
  split at h
  · rename_i ds
    obtain ⟨-, hle⟩ := blockLength_of_closes ds [] (by simpa using hclosed)
    cases h
    rw [List.length_cons]
    omega
  · cases h
    exact Nat.succ_le_succ (List.takeWhile_sublist _).length_le
  · cases h
    exact Nat.succ_le_succ (List.takeWhile_sublist _).length_le
  · exact nomatch h

/-- A piece in front of a line end is the same as at the end of a text. Only a
comment takes the line end. -/
theorem scan_lineEnd {c : Char}
    (hclosed : (c = '/' && cs.head? = some '*' && !closesBlock cs.tail) = false) :
    scan c (cs ++ '\n' :: rest) = scan c cs ∧
      ((scan c cs).2 ≤ cs.length ∨ (scan c cs).1 = none ∧
        (scan c cs).2 = cs.length + 1) := by
  rw [scan, scan, comment?_lineEnd cs rest hclosed, lexeme_lineEnd]
  refine ⟨rfl, ?_⟩
  split
  · exact .inl (Nat.zero_le _)
  · cases hcomment : comment? c cs with
    | none => exact .inl (lexeme_le cs c)
    | some n =>
      have hle := comment?_le cs hclosed hcomment
      rcases Nat.lt_or_ge cs.length n with hlt | hge
      · exact .inr ⟨rfl, Nat.le_antisymm hle hlt⟩
      · exact .inl hge

/-! ### Texts -/

/-- A text is read from piece to piece. -/
theorem lexFrom_cons (line : Nat) (c : Char) :
    lexFrom line (c :: cs) =
      (scan c cs).1.toList.map (Located.mk line) ++
        lexFrom (line + lineEnds (c :: cs.take (scan c cs).2))
          (cs.drop (scan c cs).2) := by
  rw [lexFrom]
  rcases scan c cs with ⟨_ | tok, n⟩ <;> rfl

theorem lineEnds_cons_append (c : Char) (ds : List Char) :
    lineEnds (c :: (cs ++ ds)) = lineEnds (c :: cs) + lineEnds ds := by
  rw [lineEnds, lineEnds, lineEnds, ← List.cons_append, List.count_append]

/-- The tokens of two texts with a line end between them are those of one and
then of the other. -/
theorem lexFrom_append (line : Nat) (h : endsInComment cs = false) :
    lexFrom line (cs ++ '\n' :: rest) =
      lexFrom line cs ++ lexFrom (line + lineEnds cs + 1) rest := by
  induction cs using endsInComment.induct generalizing line with
  | case1 =>
    have hblank : scan '\n' rest = (none, 0) := rfl
    rw [List.nil_append, lexFrom_cons, hblank, lexFrom]
    rfl
  | case2 c cs ih =>
    rw [endsInComment, Bool.or_eq_false_iff] at h
    obtain ⟨hsame, hlength⟩ := scan_lineEnd cs rest h.1
    rw [List.cons_append, lexFrom_cons, lexFrom_cons, hsame]
    rcases hlength with hle | ⟨hnone, hall⟩
    · -- the piece ends in the first text, and so does its line
      have hlines : lineEnds (c :: cs) =
          lineEnds (c :: cs.take (scan c cs).2) + lineEnds (cs.drop (scan c cs).2) := by
        rw [← lineEnds_cons_append, List.take_append_drop]
      rw [List.take_append_of_le_length hle, List.drop_append_of_le_length hle, ih _ h.2,
        List.append_assoc, hlines, Nat.add_assoc line]
    · -- the piece is a comment that takes the line end too
      have htake : (cs ++ '\n' :: rest).take (cs.length + 1) = cs ++ ['\n'] := by
        rw [List.take_length_add_append]
        rfl
      have hdrop : (cs ++ '\n' :: rest).drop (cs.length + 1) = rest := by
        rw [List.drop_length_add_append]
        rfl
      rw [hall, hnone, htake, hdrop, List.drop_eq_nil_of_le (Nat.le_succ _), lexFrom,
        lineEnds_cons_append]
      rfl

/-- A text that starts in a later line has the same tokens, in later lines. -/
theorem lexFrom_later (line n : Nat) :
    lexFrom (line + n) cs = (lexFrom line cs).map (Located.later n) := by
  induction cs using endsInComment.induct generalizing line with
  | case1 => rw [lexFrom, lexFrom, List.map_nil]
  | case2 c cs ih =>
    rw [lexFrom_cons, lexFrom_cons, List.map_append, List.map_map, Nat.add_right_comm, ih]
    rfl

/-- The line a text starts in does not matter to what its tokens are. -/
theorem token_lexFrom (line line' : Nat) :
    (lexFrom line cs).map Located.token = (lexFrom line' cs).map Located.token := by
  have hfirst : ∀ n, (lexFrom n cs).map Located.token =
      (lexFrom 0 cs).map Located.token := by
    intro n
    rw [← Nat.zero_add n, lexFrom_later, List.map_map]
    rfl
  exact (hfirst line).trans (hfirst line').symm

end Lexer

/-- Whether a source text ends inside a block comment. -/
def endsInComment (source : String) : Bool :=
  Lexer.endsInComment source.toList

/-- A text below another one: its tokens come behind those of the other, and
each is as many lines further down as the other text has lines. -/
theorem lex_append_lines {a : String} (h : endsInComment a = false) (b : String) :
    lex (a ++ "\n" ++ b) = lex a ++
      (lex b).map (Located.later (1 + Lexer.lineEnds a.toList)) := by
  have htext : (a ++ "\n" ++ b).toList = a.toList ++ '\n' :: b.toList := by simp
  rw [lex, lex, lex, htext, Lexer.lexFrom_append _ _ _ h, Nat.add_assoc,
    Nat.add_comm (Lexer.lineEnds a.toList), Lexer.lexFrom_later]

/-- The first text ends in a string that is not closed, behind a number that
breaks off; the second one goes on with a comment over two lines. -/
theorem lex_append_lines_broken :
    let a := "x /* \n */ = 2e+\n$ . \"ab\\"
    let b := "/* c\n*/ y // z"
    endsInComment a = false ∧
      lex (a ++ "\n" ++ b) = lex a ++ (lex b).map (Located.later 3) ∧
      (lex a).getLast? = some ⟨3, .unknown "\"ab\\"⟩ ∧ lex b = [⟨2, .ident "y"⟩] := by
  intro a b
  have ha : endsInComment a = false := by decide +kernel
  have hlines : 1 + Lexer.lineEnds a.toList = 3 := by decide +kernel
  exact ⟨ha, hlines ▸ lex_append_lines ha b, by decide +kernel, by decide +kernel⟩

/-- The tokens of two texts with a semicolon in a line of its own between them. -/
theorem token_lex_joined {a : String} (h : endsInComment a = false) (b : String) :
    (lex (a ++ "\n;\n" ++ b)).map Located.token =
      (lex a).map Located.token ++ .semicolon :: (lex b).map Located.token := by
  have htext : (a ++ "\n;\n" ++ b).toList =
      a.toList ++ '\n' :: ([';'] ++ '\n' :: b.toList) := by
    simp
  have hmark : Lexer.endsInComment [';'] = false := by decide +kernel
  have hsemicolon : ∀ line, Lexer.lexFrom line [';'] = [⟨line, .semicolon⟩] := by
    intro line
    have hscan : Lexer.scan ';' [] = (some .semicolon, 0) := by decide +kernel
    rw [Lexer.lexFrom_cons, hscan, List.drop_nil, Lexer.lexFrom]
    rfl
  rw [lex, htext, Lexer.lexFrom_append _ _ _ h,
    Lexer.lexFrom_append _ _ _ hmark, hsemicolon, List.map_append, List.map_append,
    Lexer.token_lexFrom b.toList _ 1]
  rfl

end StackCalc
