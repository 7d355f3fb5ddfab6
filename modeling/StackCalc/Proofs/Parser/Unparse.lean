import StackCalc.Parser.Stmt

/-!
# Writing programs as tokens

`unparse` writes a program as tokens that read as that program. Parentheses
stand where an operand binds less tightly than its place demands and nowhere
else, braces around every body, and a semicolon after every simple statement. A
tree holds places of the symbol table, so writing it takes the table in which
their names, numbers and texts are found.

Reading a tree back installs symbols in turn. `Expr.Reads` and `Stmt.Reads` say
which tables a tree leads from and to: each name must stand for the place in the
tree, and be of a kind for the tree to be read and no other.
-/

namespace StackCalc

/-! ### Levels -/

/-- How tightly an operand without operators binds. -/
def primaryLevel : Nat := 9

namespace Operator

/-- How tightly an operator binds; one that stands between no operands does not. -/
def level (op : Operator) : Nat :=
  op.precedence?.getD 0

/-- How tightly the left operand has to bind. -/
def leftLevel (op : Operator) : Nat :=
  if op = caret then primaryLevel else op.level

/-- How tightly the right operand has to bind. -/
def rightLevel (op : Operator) : Nat :=
  if op = caret then unaryPrecedence else op.level + 1

end Operator

/-- How tightly an expression binds. -/
def Expr.level : Expr → Nat
  | .binary op _ _ => op.level
  | .unary _ _ => unaryPrecedence
  | _ => primaryLevel

/-- Tokens in parentheses, if they bind less tightly than they have to. -/
def enclose (level least : Nat) (ts : List Token) : List Token :=
  if level < least then .leftParen :: ts ++ [.rightParen] else ts

/-! ### Tokens -/

section

variable (T : SymbolTable)

/-- The token of a name. -/
def SymbolTable.nameToken (id : Nat) : Token :=
  .ident (T.get id).label

mutual

/-- An expression as tokens. -/
def Expr.tokens : Expr → List Token
  | .literal id => [.number (T.get id).value]
  | .variable id => [T.nameToken id]
  | .text id => [.text ((T.get id).text.getD "")]
  | .binary op l r =>
    enclose l.level op.leftLevel l.tokens ++
      .operator op :: enclose r.level op.rightLevel r.tokens
  | .unary op e => .operator op :: enclose e.level unaryPrecedence e.tokens
  | .builtin id e => T.nameToken id :: .leftParen :: e.tokens ++ [.rightParen]
  | .step .preInc id => [.operator .increment, T.nameToken id]
  | .step .preDec id => [.operator .decrement, T.nameToken id]
  | .step .postInc id => [T.nameToken id, .operator .increment]
  | .step .postDec id => [T.nameToken id, .operator .decrement]
  | .call id es => T.nameToken id :: .leftParen :: rowTokens es ++ [.rightParen]
  | .arg n => [.arg n]
  | .read id => [.keyword .readKw, .leftParen, T.nameToken id, .rightParen]

/-- A row of expressions as tokens, commas between them. -/
def Expr.rowTokens : List Expr → List Token
  | [] => []
  | e :: es => e.tokens ++ restTokens es

/-- The expressions after the first of a row. -/
def Expr.restTokens : List Expr → List Token
  | [] => []
  | e :: es => .comma :: e.tokens ++ restTokens es

end

/-- A clause of a `for` loop as tokens. -/
def Stmt.clauseTokens : Stmt → List Token
  | .assign op id e => T.nameToken id :: .operator op :: e.tokens T
  | .argAssign n e => .arg n :: .operator .assign :: e.tokens T
  | .expr e => e.tokens T
  | _ => []

/-- Tokens in braces. -/
def braced (ts : List Token) : List Token :=
  .leftBrace :: ts ++ [.rightBrace]

/-- The keyword of a definition. -/
def DefinitionKind.keyword : DefinitionKind → Keyword
  | .function => .funcKw
  | .procedure => .procKw

mutual

/-- A statement as tokens. -/
def Stmt.tokens : Stmt → List Token
  | .assign op id e => (Stmt.assign op id e).clauseTokens T ++ [.semicolon]
  | .argAssign n e => (Stmt.argAssign n e).clauseTokens T ++ [.semicolon]
  | .expr e => (Stmt.expr e).clauseTokens T ++ [.semicolon]
  | .print items => .keyword .printKw :: Expr.rowTokens T items ++ [.semicolon]
  | .whileLoop c body =>
    .keyword .whileKw :: .leftParen :: c.tokens T ++
      .rightParen :: braced (allTokens body)
  | .forLoop init c post body =>
    .keyword .forKw :: .leftParen :: init.clauseTokens T ++ .semicolon :: c.tokens T ++
      .semicolon :: post.clauseTokens T ++ .rightParen :: braced (allTokens body)
  | .ifThen c body =>
    .keyword .ifKw :: .leftParen :: c.tokens T ++ .rightParen :: braced (allTokens body)
  | .ifElse c body other =>
    .keyword .ifKw :: .leftParen :: c.tokens T ++
      .rightParen :: braced (allTokens body) ++
      .keyword .elseKw :: braced (allTokens other)
  | .call id es =>
    T.nameToken id :: .leftParen :: Expr.rowTokens T es ++ [.rightParen, .semicolon]
  | .returnValue e => .keyword .returnKw :: e.tokens T ++ [.semicolon]
  | .returnNothing => [.keyword .returnKw, .semicolon]
  | .define kind id body =>
    .keyword kind.keyword :: T.nameToken id :: .leftParen :: .rightParen ::
      braced (allTokens body)

/-- Statements as tokens. -/
def Stmt.allTokens : List Stmt → List Token
  | [] => []
  | s :: ss => s.tokens ++ allTokens ss

end

/-- Tokens that stand in one line. -/
def located (ts : List Token) : List Located :=
  ts.map fun tok => ⟨1, tok⟩

/-- A program as tokens. -/
def unparse (program : List Stmt) : List Located :=
  located (Stmt.allTokens T program)

end

/-! ### What reading a tree does to the table -/

/-- A name that is read as that of a value. -/
def SymbolTable.IsPlain (t : SymbolTable) (name : String) : Prop :=
  ∀ id, t.lookup name = some id →
    (t.get id).kind ≠ .builtin ∧ (t.get id).kind ≠ .function ∧
    (t.get id).kind ≠ .procedure

/-- The name of `id`, as `T` has it, stands for `id` in `t`, and `id` is of a
given kind there. -/
def SymbolTable.Finds (T t : SymbolTable) (id : Nat) (kind : SymbolKind) : Prop :=
  t.lookup (T.get id).label = some id ∧ (t.get id).kind = kind

section

variable (T : SymbolTable) (inside : Bool)

mutual

/-- An expression, its names and numbers as `T` has them, is read from the table
`t` and leaves `t'`. -/
def Expr.Reads : Expr → (t t' : SymbolTable) → Prop
  | .literal id, t, t' => t.addNumber (T.get id).value = (id, t')
  | .variable id, t, t' =>
    t.IsPlain (T.get id).label ∧ t.resolve (T.get id).label = (id, t')
  | .text _, _, _ => False
  | .binary op l r, t, t' => op.precedence?.isSome ∧ ∃ t₁, l.Reads t t₁ ∧ r.Reads t₁ t'
  | .unary op e, t, t' => (op = .minus ∨ op = .not) ∧ e.Reads t t'
  | .builtin id e, t, t' => T.Finds t id .builtin ∧ e.Reads t t'
  | .step .preInc id, t, t' => t.resolve (T.get id).label = (id, t')
  | .step .preDec id, t, t' => t.resolve (T.get id).label = (id, t')
  | .step .postInc id, t, t' =>
    t.IsPlain (T.get id).label ∧ t.resolve (T.get id).label = (id, t')
  | .step .postDec id, t, t' =>
    t.IsPlain (T.get id).label ∧ t.resolve (T.get id).label = (id, t')
  | .call id es, t, t' => T.Finds t id .function ∧ Expr.ReadsAll es t t'
  | .arg n, t, t' => inside = true ∧ n ≠ 0 ∧ t' = t
  | .read id, t, t' => t.resolve (T.get id).label = (id, t')

/-- Expressions that are read one after the other. -/
def Expr.ReadsAll : List Expr → (t t' : SymbolTable) → Prop
  | [], t, t' => t' = t
  | e :: es, t, t' => ∃ t₁, e.Reads t t₁ ∧ Expr.ReadsAll es t₁ t'

end

/-- An item of a print statement that is read. -/
def Expr.ReadsItem : Expr → (t t' : SymbolTable) → Prop
  | .text id, t, t' => t.addText ((T.get id).text.getD "") = (id, t')
  | e, t, t' => e.Reads T inside t t'

theorem Expr.Reads.item {T t t' : SymbolTable} {inside : Bool} {e : Expr}
    (h : e.Reads T inside t t') : e.ReadsItem T inside t t' := by
  cases e
  case text => exact h.elim
  all_goals exact h

/-- Items of a print statement that are read one after the other. -/
def Expr.ReadsItems : List Expr → (t t' : SymbolTable) → Prop
  | [], t, t' => t' = t
  | e :: es, t, t' => ∃ t₁, e.ReadsItem T inside t t₁ ∧ Expr.ReadsItems es t₁ t'

/-- A clause of a `for` loop that is read. -/
def Stmt.ReadsClause : Stmt → (t t' : SymbolTable) → Prop
  | .assign op id e, t, t' =>
    op.isAssignment ∧ ∃ t₁, t.resolve (T.get id).label = (id, t₁) ∧ e.Reads T inside t₁ t'
  | .argAssign n e, t, t' => inside = true ∧ n ≠ 0 ∧ e.Reads T inside t t'
  | .expr e, t, t' => e.Reads T inside t t'
  | _, _, _ => False

mutual

/-- A statement that is read from the table `t` and leaves `t'`. -/
def Stmt.Reads : Stmt → (t t' : SymbolTable) → Prop
  | .assign op id e, t, t' => (Stmt.assign op id e).ReadsClause T inside t t'
  | .argAssign n e, t, t' => (Stmt.argAssign n e).ReadsClause T inside t t'
  | .expr e, t, t' => (Stmt.expr e).ReadsClause T inside t t'
  | .print items, t, t' => items ≠ [] ∧ Expr.ReadsItems T inside items t t'
  | .whileLoop c body, t, t' => ∃ t₁, c.Reads T inside t t₁ ∧ Stmt.ReadsAll body t₁ t'
  | .forLoop init c post body, t, t' =>
    ∃ t₁ t₂ t₃, init.ReadsClause T inside t t₁ ∧ c.Reads T inside t₁ t₂ ∧
      post.ReadsClause T inside t₂ t₃ ∧ Stmt.ReadsAll body t₃ t'
  | .ifThen c body, t, t' => ∃ t₁, c.Reads T inside t t₁ ∧ Stmt.ReadsAll body t₁ t'
  | .ifElse c body other, t, t' =>
    ∃ t₁ t₂, c.Reads T inside t t₁ ∧ Stmt.ReadsAll body t₁ t₂ ∧ Stmt.ReadsAll other t₂ t'
  | .call id es, t, t' => T.Finds t id .procedure ∧ Expr.ReadsAll T inside es t t'
  | .returnValue e, t, t' => inside = true ∧ e.Reads T inside t t'
  | .returnNothing, t, t' => inside = true ∧ t' = t
  | .define _ _ _, _, _ => False

/-- Statements that are read one after the other. -/
def Stmt.ReadsAll : List Stmt → (t t' : SymbolTable) → Prop
  | [], t, t' => t' = t
  | s :: ss, t, t' => ∃ t₁, s.Reads t t₁ ∧ Stmt.ReadsAll ss t₁ t'

end

end

theorem Stmt.ReadsClause.reads {T t t' : SymbolTable} {inside : Bool} {s : Stmt}
    (h : s.ReadsClause T inside t t') : s.Reads T inside t t' := by
  cases s
  case assign | argAssign | expr => exact h
  all_goals exact h.elim

/-- Statements that are read one after the other. -/
theorem Stmt.ReadsAll.append {T t t₁ t' : SymbolTable} {inside : Bool}
    {ss ss' : List Stmt} (h : Stmt.ReadsAll T inside ss t t₁)
    (h' : Stmt.ReadsAll T inside ss' t₁ t') :
    Stmt.ReadsAll T inside (ss ++ ss') t t' := by
  induction ss generalizing t with
  | nil =>
    cases h
    exact h'
  | cons s ss ih =>
    obtain ⟨t₀, hs, hss⟩ := h
    exact ⟨t₀, hs, ih hss⟩

/-- A definition or a statement of a program that is read. -/
def Stmt.ReadsTop (T : SymbolTable) : Stmt → (t t' : SymbolTable) → Prop
  | .define kind id body, t, t' =>
    ∃ t₁, t.resolve (T.get id).label = (id, t₁) ∧ (t₁.get id).kind ≠ .builtin ∧
      Stmt.ReadsAll T true body (t₁.modify id fun e =>
        { e with kind := kind.symbolKind }) t'
  | s, t, t' => s.Reads T false t t'

/-- A program that is read. -/
def Stmt.ReadsProgram (T : SymbolTable) : List Stmt → (t t' : SymbolTable) → Prop
  | [], t, t' => t' = t
  | s :: ss, t, t' => ∃ t₁, s.ReadsTop T t t₁ ∧ Stmt.ReadsProgram T ss t₁ t'

theorem Stmt.Reads.top {T t t' : SymbolTable} {s : Stmt} (h : s.Reads T false t t') :
    s.ReadsTop T t t' := by
  cases s
  case define => exact h.elim
  all_goals exact h

/-- Statements followed by the rest of a program. -/
theorem Stmt.ReadsAll.program {T t t₁ t' : SymbolTable} {ss ss' : List Stmt}
    (h : Stmt.ReadsAll T false ss t t₁) (h' : Stmt.ReadsProgram T ss' t₁ t') :
    Stmt.ReadsProgram T (ss ++ ss') t t' := by
  induction ss generalizing t with
  | nil =>
    cases h
    exact h'
  | cons s ss ih =>
    obtain ⟨t₀, hs, hss⟩ := h
    exact ⟨t₀, hs.top, ih hss⟩

end StackCalc
