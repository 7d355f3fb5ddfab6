import StackCalc.Proofs.Parser.Layered

/-!
# The limit on nesting

Statements, operands and right sides of operators are read with one level less
than what they stand in. A text that needs more levels than there are fails for
that reason. Nothing else depends on the limit: with more levels, every parser
does the same wherever it did not fail for depth (`Parser.Refines`), because
each is made of parsers that do so. And a program that has fewer tokens than
there are levels, but for two, needs no more (`Parser.takes_programItems`). So
the levels that a text needs are a threshold: below it reading fails for depth,
and from it on the result is the same for every limit (`parse_threshold`).
-/

namespace StackCalc

namespace Parser

/-! ### Expressions -/

section

variable {sc : Scope} {binary binary' : Nat → Parser Expr}
  (hbinary : ∀ least, Refines (binary least) (binary' least))

include hbinary

/-- An operand is read by the parsers it is made of. -/
theorem refines_operand : Refines (operand sc binary) (operand sc binary') := by
  refine .after _ fun t => ?_
  split
  · exact .after _ fun _ => (hbinary _).map _
  · exact .after _ fun _ => (hbinary _).map _
  · exact refines_primary (hbinary 1)

/-- Each right side of an operator is one. -/
theorem refines_climb (least : Nat) (bound : List Located) (lhs : Expr) :
    Refines (climb binary least bound lhs) (climb binary' least bound lhs) := by
  induction bound generalizing lhs with
  | nil => exact .refl _
  | cons _ bound ih =>
    refine .after _ fun t => ?_
    split
    · split
      · split
        · exact .after _ fun _ => (hbinary _).bind fun _ => ih _
        · exact .refl _
      · exact .refl _
    · exact .refl _

end

/-- With more levels an expression is read alike, unless it was too deep. -/
theorem refines_binary (sc : Scope) {d d' : Nat} (h : d ≤ d') (least : Nat) :
    Refines (binary sc d least) (binary sc d' least) := by
  induction d generalizing d' least with
  | zero => exact .tooDeep sc _
  | succ d ih =>
    obtain ⟨d', rfl⟩ : ∃ k, d' = k + 1 := ⟨d' - 1, by omega⟩
    have hinner : ∀ least, Refines (binary sc d least) (binary sc d' least) :=
      ih (Nat.le_of_succ_le_succ h)
    exact (refines_operand hinner).bind fun lhs => .after _ fun bound =>
      refines_climb hinner least bound lhs

/-! ### Statements -/

section

variable {sc : Scope} {expression expression' : Parser Expr}
  (hexpr : Refines expression expression')

include hexpr

/-- An expression or an assignment is read alike. -/
theorem refines_simple : Refines (simple sc expression) (simple sc expression') := by
  refine .after _ fun first => .after _ fun second => ?_
  split
  · split
    · exact .after _ fun _ => .after _ fun _ => .after _ fun _ => hexpr.map _
    · exact hexpr.map _
  · exact .after _ fun _ => .after _ fun _ => .after _ fun _ => hexpr.map _
  · exact hexpr.map _

theorem refines_condition :
    Refines (condition sc expression) (condition sc expression') :=
  .after _ fun _ => hexpr.bind fun _ => .refl _

/-- So is an item of a print statement, of which a text needs no levels. -/
theorem refines_printItem : Refines (printItem expression) (printItem expression') := by
  refine .after _ fun t => ?_
  split
  · exact .refl _
  · exact hexpr

/-- So are the items that follow. -/
theorem refines_morePrintItems (bound : List Located) :
    Refines (morePrintItems expression bound) (morePrintItems expression' bound) := by
  induction bound with
  | nil => exact .refl _
  | cons _ bound ih =>
    refine .after _ fun t => ?_
    split
    · exact .after _ fun _ => (refines_printItem hexpr).bind fun _ => ih.map _
    · exact .refl _

theorem refines_printItems : Refines (printItems expression) (printItems expression') :=
  (refines_printItem hexpr).bind fun _ => .after _ fun bound =>
    (refines_morePrintItems hexpr bound).map _

/-- So is a return, with a value or without. -/
theorem refines_returnStmt :
    Refines (returnStmt sc expression) (returnStmt sc expression') := by
  unfold returnStmt
  split
  · exact .refl _
  · refine .after _ fun _ => .after _ fun t => ?_
    split
    case h_4 | h_6 => exact hexpr.map _
    all_goals exact .refl _

/-- So is a statement that starts with a name. -/
theorem refines_namedStmt (name : String) :
    Refines (namedStmt sc expression name) (namedStmt sc expression' name) := by
  refine .after _ fun t => ?_
  split
  · refine .after _ fun table => ?_
    split
    · split
      · exact .after _ fun _ => (refines_arguments hexpr).map _
      · exact refines_simple hexpr
    · exact refines_simple hexpr
  · exact refines_simple hexpr

end

section

variable {sc : Scope} {expression expression' : Parser Expr}
  {statement statement' : Parser (List Stmt)} (hexpr : Refines expression expression')
  (hstmt : Refines statement statement')

include hstmt

/-- So are the statements of a block. -/
theorem refines_blockItems (bound : List Located) :
    Refines (blockItems sc statement bound) (blockItems sc statement' bound) := by
  induction bound with
  | nil => exact .refl _
  | cons _ bound ih =>
    refine .after _ fun t => ?_
    split
    · exact .refl _
    · exact .after _ fun _ => ih
    · exact .refl _
    · exact hstmt.bind fun _ => ih.map _

include hexpr

/-- So is a loop, whose head needs expressions and whose body a statement. -/
theorem refines_forStmt :
    Refines (forStmt sc expression statement) (forStmt sc expression' statement') :=
  .after _ fun _ => .after _ fun _ => (refines_simple hexpr).bind fun _ =>
    .after _ fun _ =>
    hexpr.bind fun _ => .after _ fun _ => (refines_simple hexpr).bind fun _ =>
      .after _ fun _ =>
      hstmt.map _

/-- So is a branch, with one statement or two. -/
theorem refines_ifStmt :
    Refines (ifStmt sc expression statement) (ifStmt sc expression' statement') := by
  refine .after _ fun _ => (refines_condition hexpr).bind fun _ => hstmt.bind fun _ =>
    .after _ fun t => ?_
  split
  · exact .after _ fun _ => hstmt.map _
  · exact .refl _

/-- A statement is read alike if what it is made of is. -/
theorem refines_anyStatement :
    Refines (anyStatement sc expression statement)
      (anyStatement sc expression' statement') := by
  have hterminated : ∀ {p p' : Parser Stmt},
      Refines p p' → Refines (terminated p) (terminated p') :=
    fun hp => hp.bind fun _ => .refl _
  -- by the token ahead, which is the same for both
  refine .after _ fun t => ?_
  split
  · exact .after _ fun _ => .after _ fun bound => refines_blockItems hstmt bound
  · exact hterminated (.after _ fun _ => (refines_printItems hexpr).map _)
  · exact hterminated (.after _ fun _ => (refines_condition hexpr).bind fun _ =>
      hstmt.map _)
  · exact (refines_forStmt hexpr hstmt).map _
  · exact (refines_ifStmt hexpr hstmt).map _
  · exact hterminated (refines_returnStmt hexpr)
  · exact hterminated (refines_simple hexpr)
  · exact .refl _
  · exact hterminated (refines_namedStmt hexpr _)
  · exact hterminated (refines_simple hexpr)

end

/-- With more levels a statement is read alike, unless it was too deep. -/
theorem refines_statement (sc : Scope) {d d' : Nat} (h : d ≤ d') :
    Refines (statement sc d) (statement sc d') := by
  induction d generalizing d' with
  | zero => exact .tooDeep sc _
  | succ d ih =>
    obtain ⟨d', rfl⟩ : ∃ k, d' = k + 1 := ⟨d' - 1, by omega⟩
    have hd : d ≤ d' := Nat.le_of_succ_le_succ h
    exact refines_anyStatement (refines_binary sc hd 1) (ih hd)

/-! ### Programs -/

section

variable (sc : Scope) {d d' : Nat} (h : d ≤ d')

include h

/-- A definition is as deep as its body. -/
theorem refines_definition (kind : DefinitionKind) :
    Refines (definition sc kind d) (definition sc kind d') := by
  refine .after _ fun _ => .after _ fun name => .after _ fun id => .after _ fun t => ?_
  split
  · exact .refl _
  · exact .after _ fun _ => .after _ fun _ => .after _ fun _ =>
      (refines_statement _ h).map _

/-- A program is as deep as the deepest of its parts. -/
theorem refines_programItems (bound : List Located) :
    Refines (programItems sc d bound) (programItems sc d' bound) := by
  induction bound with
  | nil => exact .refl _
  | cons _ bound ih =>
    refine .after _ fun t => ?_
    split
    · exact .refl _
    · exact .after _ fun _ => ih
    · exact (refines_definition sc h .function).bind fun _ => ih.map _
    · exact (refines_definition sc h .procedure).bind fun _ => ih.map _
    · exact (refines_statement sc h).bind fun _ => ih.map _

end

end Parser

/-- Whether reading failed because statements or expressions nest too deeply. -/
def failsForDepth : Except Fault (List Stmt) → Bool
  | .ok _ => false
  | .error f => f.kind = .nestedTooDeeply

/-- Reading fails for depth where the parser of programs does. -/
theorem failsForDepth_iff {tokens : List Located} {t : SymbolTable} {d : Nat} :
    failsForDepth (parse tokens t d).1 ↔ Parser.TooDeep
      (Parser.programItems ⟨false, tokens.getLast?.map Located.line⟩ d tokens
        ⟨tokens, t⟩) := by
  unfold parse
  dsimp only
  cases Parser.programItems ⟨false, tokens.getLast?.map Located.line⟩ d tokens
    ⟨tokens, t⟩ with
  | ok program s => simp [failsForDepth, Parser.TooDeep]
  | error f s => simp [failsForDepth, Parser.TooDeep]

/-- A text that does not fail for depth is read alike with every greater limit:
the same program or the same fault, and the same symbols. With two levels more
than there are tokens, no text fails for depth. -/
theorem parse_threshold (tokens : List Located) (t : SymbolTable) :
    (∀ d d', d ≤ d' → failsForDepth (parse tokens t d).1 = false →
      parse tokens t d' = parse tokens t d) ∧
    ∀ d, tokens.length + 2 ≤ d → failsForDepth (parse tokens t d).1 = false := by
  let sc : Scope := ⟨false, tokens.getLast?.map Located.line⟩
  constructor
  · intro d d' hd hfits
    -- the smaller limit is enough, so the larger one gives the same
    have hshallow : ¬ Parser.TooDeep (Parser.programItems sc d tokens ⟨tokens, t⟩) := by
      rw [← failsForDepth_iff, hfits]
      exact Bool.false_ne_true
    have hsame := (Parser.refines_programItems sc hd tokens).eq_of_not_tooDeep hshallow
    unfold parse
    dsimp only
    rw [hsame]
  · intro d hd
    -- every level takes a token, so there are levels enough
    have hshallow : ¬ Parser.TooDeep (Parser.programItems sc d tokens ⟨tokens, t⟩) :=
      (Parser.takes_programItems sc d tokens ⟨tokens, t⟩).not_tooDeep
        (Nat.lt_sub_of_add_lt hd)
    exact Bool.eq_false_iff.mpr fun hfails => hshallow (failsForDepth_iff.mp hfails)

/-- A text that needs ten levels and breaks off at its end: with nine it fails
for depth, with ten or more for its end. -/
theorem parse_threshold_broken :
    let tokens :=
      lex "func f() \x7b if ($1 > 0) return -(2 ^ -f($1 - 1)) \x7d\nwhile (f((3))) x = y +"
    failsForDepth (parse tokens .initial 9).1 = true ∧
      failsForDepth (parse tokens .initial 10).1 = false ∧
      (∀ d, 10 ≤ d → parse tokens .initial d = parse tokens .initial 10) ∧
      tokens.length + 2 ≤ 40 ∧ failsForDepth (parse tokens .initial 40).1 = false := by
  intro tokens
  have hfits : failsForDepth (parse tokens .initial 10).1 = false := by decide +kernel
  have hlength : tokens.length + 2 ≤ 40 := by decide +kernel
  obtain ⟨hsame, hnever⟩ := parse_threshold tokens .initial
  exact ⟨by
    decide +kernel, hfits, fun d hd => hsame 10 d hd hfits, hlength, hnever 40 hlength⟩

end StackCalc
