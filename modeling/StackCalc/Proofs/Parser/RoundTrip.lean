import StackCalc.Proofs.Parser.ReadBack
import StackCalc.Proofs.Session.Reachable

/-!
# Reading programs back

The tokens of a program that has been read are read as that program again, with
the same symbols (`parse_unparse`). What was read is described by
`Parser.traces_programItems`; here every statement with that description is read
back from its tokens. Bodies are written in braces, so what follows a statement
matters only as far as an `else` or a semicolon would be taken.
-/

namespace StackCalc

namespace Parser

variable {sc : Scope} {T t t' : SymbolTable} {d : Nat} {rest : List Located}

/-! ### Clauses -/

theorem peek_apply (s : ParseState) : peek s = .ok (s.tokens.head?.map Located.token) s :=
  rfl

theorem peekSecond_apply (s : ParseState) :
    peekSecond s = .ok (s.tokens.tail.head?.map Located.token) s :=
  rfl

/-- Without an assigning operator in the second place, a clause is an expression. -/
theorem simple_of_second {expression : Parser Expr} {s : ParseState}
    (h : ∀ op, s.tokens.tail.head?.map Located.token = some (.operator op) →
      op.isAssignment = false) :
    simple sc expression s = (expression >>= fun e => pure (.expr e)) s := by
  rw [simple, Action.bind_of_ok (peek_apply s), Action.bind_of_ok (peekSecond_apply s)]
  refine congrFun ?_ s
  split
  case h_1 name op _ hsecond =>
    rw [if_neg (by rw [h op hsecond]; exact Bool.false_ne_true)]
  case h_2 n _ hsecond => exact nomatch h .assign hsecond
  case h_3 => rfl

/-- A mark that ends a clause. -/
structure Token.EndsClause (tok : Token) : Prop where
  operator : ∀ op, tok ≠ .operator op
  paren : tok ≠ .leftParen

/-- A clause is read back in front of a mark that ends it. -/
theorem simple_located {s : Stmt} (hreads : s.ReadsClause T sc.inDefinition t t')
    (hlen : (s.clauseTokens T).length < d) {tok : Token} (htok : Token.EndsClause tok) :
    simple sc (expression sc d) ⟨located (s.clauseTokens T) ++ ⟨1, tok⟩ :: rest, t⟩ =
      .ok s ⟨⟨1, tok⟩ :: rest, t'⟩ := by
  have hfollows : Follows 1 (⟨1, tok⟩ :: rest) := .mark htok.operator htok.paren
  cases s
  case assign op id e =>
    obtain ⟨hop, t₁, hresolve, he⟩ := hreads
    have hlen : (e.tokens T).length + 2 < d := by simpa [Stmt.clauseTokens] using hlen
    have hvalue := (readsBack sc T e).expression he (show _ < d by omega) hfollows
    show (if op.isAssignment then skip >>= fun _ => skip >>= fun _ =>
        resolve (T.get id).label >>= fun id => expression sc d >>=
          fun e => pure (Stmt.assign op id e)
      else expression sc d >>= fun e => pure (Stmt.expr e) : Parser Stmt)
        ⟨⟨1, T.nameToken id⟩ :: ⟨1, .operator op⟩ ::
          (located (e.tokens T) ++ ⟨1, tok⟩ :: rest), t⟩ = _
    rw [if_pos hop]
    show (resolve (T.get id).label >>= fun id => expression sc d >>=
      fun e => pure (Stmt.assign op id e)) ⟨located (e.tokens T) ++ ⟨1, tok⟩ :: rest, t⟩ =
        _
    rw [Action.bind_of_ok (resolve_apply hresolve), Action.bind_of_ok hvalue]
    rfl
  case argAssign n e =>
    obtain ⟨hin, hn, he⟩ := hreads
    have hlen : (e.tokens T).length + 2 < d := by simpa [Stmt.clauseTokens] using hlen
    have hvalue := (readsBack sc T e).expression he (show _ < d by omega) hfollows
    show (checkArg sc n >>= fun _ => skip >>= fun _ => skip >>= fun _ =>
      expression sc d >>= fun e => pure (Stmt.argAssign n e))
        ⟨⟨1, .arg n⟩ :: ⟨1, .operator .assign⟩ ::
          (located (e.tokens T) ++ ⟨1, tok⟩ :: rest), t⟩ = _
    rw [Action.bind_of_ok (checkArg_apply hin hn)]
    show (expression sc d >>= fun e => pure (Stmt.argAssign n e))
      ⟨located (e.tokens T) ++ ⟨1, tok⟩ :: rest, t⟩ = _
    rw [Action.bind_of_ok hvalue]
    rfl
  case expr e =>
    have he : e.Reads T sc.inDefinition t t' := hreads
    have hvalue := (readsBack sc T e).expression he hlen hfollows
    -- no assigning operator is in the second place, so the clause is an
    -- expression
    have hsecond : ∀ op, (located (e.tokens T) ++ ⟨1, tok⟩ :: rest).tail.head?.map
        Located.token =
        some (.operator op) → op.isAssignment = false := by
      intro op h
      rw [second_token, token_located] at h
      cases hassign : op.isAssignment with
      | false => rfl
      | true =>
        have hhead := e.second_isAssignment he h hassign
        exact absurd (Option.some.inj hhead) (htok.operator op)
    show simple sc (expression sc d) ⟨located (e.tokens T) ++ ⟨1, tok⟩ :: rest, t⟩ = _
    rw [simple_of_second hsecond, Action.bind_of_ok hvalue]
    rfl
  all_goals exact hreads.elim

/-! ### Items of a print statement -/

/-- An item of a print statement is a text or an expression. -/
theorem printItem_located {e : Expr} (hreads : e.ReadsItem T sc.inDefinition t t')
    (hlen : (e.tokens T).length < d) (hrest : Follows 1 rest) :
    printItem (expression sc d) ⟨located (e.tokens T) ++ rest, t⟩ = .ok e ⟨rest, t'⟩ := by
  by_cases htext : ∃ id, e = .text id
  · obtain ⟨id, rfl⟩ := htext
    have hreads : t.addText ((T.get id).text.getD "") = (id, t') := hreads
    obtain ⟨hid, rfl⟩ := Prod.mk.inj hreads
    exact congrArg (fun id => EStateM.Result.ok (Expr.text id) _) hid
  · have he : e.Reads T sc.inDefinition t t' := by
      cases e
      case text id => exact absurd ⟨id, rfl⟩ htext
      all_goals exact hreads
    have hvalue := (readsBack sc T e).expression he hlen hrest
    -- an expression does not start with a text
    obtain ⟨tok, us, htokens, htok⟩ := e.exists_head he
    rw [htokens] at hvalue ⊢
    cases tok
    case text => exact nomatch htok
    all_goals exact hvalue

/-- The further items, each behind a comma. -/
theorem morePrintItems_located {es : List Expr}
    (hreads : Expr.ReadsItems T sc.inDefinition es t t')
    (hlen : (Expr.restTokens T es).length ≤ d) {bound : List Located}
    (hbound : es.length < bound.length) :
    morePrintItems (expression sc d) bound
      ⟨located (Expr.restTokens T es) ++ ⟨1, .semicolon⟩ :: rest, t⟩ =
        .ok es ⟨⟨1, .semicolon⟩ :: rest, t'⟩ := by
  induction es generalizing t bound with
  | nil =>
    cases hreads
    obtain ⟨b, bound, rfl⟩ := List.exists_cons_of_length_pos hbound
    rfl
  | cons e es ih =>
    obtain ⟨t₁, he, hreads⟩ := hreads
    obtain ⟨b, bound, rfl⟩ := List.exists_cons_of_length_pos (Nat.zero_lt_of_lt hbound)
    have hlen : (e.tokens T).length + (Expr.restTokens T es).length + 1 ≤ d := by
      simpa [Expr.restTokens] using hlen
    have hfollows : Follows 1 (located (Expr.restTokens T es) ++
        ⟨1, .semicolon⟩ :: rest) := by
      cases es <;> exact .mark (by intro _ h; cases h) (by intro h; cases h)
    have hfirst := printItem_located he (show _ < d by omega) hfollows
    have hrest := ih hreads (by omega) (Nat.lt_of_succ_lt_succ hbound)
    rw [Expr.restTokens, List.cons_append, located_cons, located_append, List.cons_append,
      List.append_assoc]
    show (printItem (expression sc d) >>= fun e =>
      morePrintItems (expression sc d) bound >>= fun es =>
      pure (e :: es)) ⟨located (e.tokens T) ++ _, t⟩ = _
    rw [Action.bind_of_ok hfirst, Action.bind_of_ok hrest]
    rfl

/-- The items of a print statement, up to the semicolon. -/
theorem printItems_located {es : List Expr} (hne : es ≠ [])
    (hreads : Expr.ReadsItems T sc.inDefinition es t t')
    (hlen : (Expr.rowTokens T es).length < d) :
    printItems (expression sc d) ⟨located (Expr.rowTokens T es) ++
      ⟨1, .semicolon⟩ :: rest, t⟩ =
      .ok es ⟨⟨1, .semicolon⟩ :: rest, t'⟩ := by
  cases es with
  | nil => exact absurd rfl hne
  | cons e es =>
    obtain ⟨t₁, he, hreads⟩ := hreads
    have hlen : (e.tokens T).length + (Expr.restTokens T es).length < d := by
      simpa [Expr.rowTokens] using hlen
    let more := located (Expr.restTokens T es) ++ ⟨1, .semicolon⟩ :: rest
    have hfollows : Follows 1 more := by
      cases es <;> exact .mark (by intro _ h; cases h) (by intro h; cases h)
    have hbound : es.length < more.length := by
      have hle := Expr.length_le_restTokens T es
      rw [List.length_append, located, List.length_map, List.length_cons]
      omega
    have hfirst := printItem_located he (show _ < d by omega) hfollows
    have hmore : morePrintItems (expression sc d) more ⟨more, t₁⟩ =
        .ok es ⟨⟨1, .semicolon⟩ :: rest, t'⟩ :=
        morePrintItems_located hreads (by omega) hbound
    rw [Expr.rowTokens, located_append, List.append_assoc, printItems,
      Action.bind_of_ok hfirst]
    show (morePrintItems (expression sc d) more >>= fun es => pure (e :: es)) ⟨more, t₁⟩ =
      _
    rw [Action.bind_of_ok hmore]
    rfl

/-! ### Statements that a name starts -/

/-- A statement that starts with a name is a clause, unless it calls a procedure
of that name. -/
theorem namedStmt_of_simple {expression : Parser Expr} {name : String} {s : ParseState}
    (h : s.tokens.tail.head?.map Located.token = some .leftParen →
      ∀ id, s.symbols.lookup name = some id → (s.symbols.get id).kind ≠ .procedure) :
    namedStmt sc expression name s = simple sc expression s := by
  rw [namedStmt, Action.bind_of_ok (peekSecond_apply s)]
  cases hsecond : s.tokens.tail.head?.map Located.token with
  | none => rfl
  | some tok =>
    cases tok
    case leftParen =>
      have hsymbols : symbols s = .ok s.symbols s := rfl
      dsimp only
      rw [Action.bind_of_ok hsymbols]
      cases hlookup : s.symbols.lookup name with
      | none => rfl
      | some id =>
        dsimp only
        rw [if_neg (h hsecond id hlookup)]
    all_goals rfl

/-! ### Statements -/

/-- What may follow a statement: neither an `else` nor a semicolon. -/
structure FollowsStmt (rest : List Located) : Prop where
  notElse : rest.head?.map Located.token ≠ some (.keyword .elseKw)
  notSemicolon : rest.head?.map Located.token ≠ some .semicolon

/-- A statement is read back from its tokens. -/
def StmtReadsBack (sc : Scope) (T : SymbolTable) (s : Stmt) : Prop :=
  ∀ t t' d rest, s.Reads T sc.inDefinition t t' → (s.tokens T).length < d →
    FollowsStmt rest →
    statement sc d ⟨located (s.tokens T) ++ rest, t⟩ = .ok [s] ⟨rest, t'⟩

theorem terminated_of_semicolon {p : Parser Stmt} {s : Stmt} {state : ParseState}
    (h : p state = .ok s ⟨⟨1, .semicolon⟩ :: rest, t⟩) :
    terminated p state = .ok [s] ⟨rest, t⟩ := by
  rw [terminated, Action.bind_of_ok h]
  rfl

theorem terminated_of_follows {p : Parser Stmt} {s : Stmt} {state : ParseState}
    (h : p state = .ok s ⟨rest, t⟩) (hrest : FollowsStmt rest) :
    terminated p state = .ok [s] ⟨rest, t⟩ := by
  rw [terminated, Action.bind_of_ok h]
  rcases rest with _ | ⟨⟨line, tok⟩, rest⟩
  · rfl
  · cases tok
    case semicolon => exact absurd rfl hrest.notSemicolon
    all_goals rfl

/-- A statement that starts as an expression does is a clause, unless it is the
call of a procedure. -/
theorem anyStatement_of_clause {expression : Parser Expr} {statement : Parser (List Stmt)}
    {tok : Token} {us : List Located} {s : Stmt} (htok : tok.startsExpr)
    (hname : ∀ name, tok = .ident name →
      namedStmt sc expression name ⟨⟨1, tok⟩ :: us, t⟩ =
        simple sc expression ⟨⟨1, tok⟩ :: us, t⟩)
    (h : simple sc expression ⟨⟨1, tok⟩ :: us, t⟩ = .ok s ⟨⟨1, .semicolon⟩ :: rest, t'⟩) :
    anyStatement sc expression statement ⟨⟨1, tok⟩ :: us, t⟩ = .ok [s] ⟨rest, t'⟩ := by
  have hsimple := terminated_of_semicolon h
  cases tok
  case ident name => exact terminated_of_semicolon ((hname name rfl).trans h)
  case keyword word =>
    cases word
    case readKw => exact hsimple
    all_goals exact nomatch htok
  case number | operator | arg | leftParen => exact hsimple
  all_goals exact nomatch htok

/-- An assignment to a variable. -/
theorem stmtReadsBack_assign (op : Operator) (id : Nat) (e : Expr) :
    StmtReadsBack sc T (.assign op id e) := by
  intro t t' d rest hreads hlen _
  have hclause : (Stmt.assign op id e).ReadsClause T sc.inDefinition t t' := hreads
  obtain ⟨d, rfl⟩ : ∃ k, d = k + 1 := ⟨d - 1, by omega⟩
  have hlen : ((Stmt.assign op id e).clauseTokens T).length < d := by
    simpa [Stmt.tokens] using hlen
  rw [Stmt.tokens, located_append, List.append_assoc]
  exact anyStatement_of_clause rfl (fun _ _ => namedStmt_of_simple nofun)
    (simple_located hclause hlen ⟨nofun, nofun⟩)

theorem stmtReadsBack_argAssign (n : Nat) (e : Expr) :
    StmtReadsBack sc T (.argAssign n e) := by
  intro t t' d rest hreads hlen _
  have hclause : (Stmt.argAssign n e).ReadsClause T sc.inDefinition t t' := hreads
  obtain ⟨d, rfl⟩ : ∃ k, d = k + 1 := ⟨d - 1, by omega⟩
  have hlen : ((Stmt.argAssign n e).clauseTokens T).length < d := by
    simpa [Stmt.tokens] using hlen
  rw [Stmt.tokens, located_append, List.append_assoc]
  exact anyStatement_of_clause rfl nofun (simple_located hclause hlen ⟨nofun, nofun⟩)

/-- An expression that stands alone. It is not taken for the call of a procedure. -/
theorem stmtReadsBack_expr (e : Expr) : StmtReadsBack sc T (.expr e) := by
  intro t t' d rest hreads hlen _
  have hclause : (Stmt.expr e).ReadsClause T sc.inDefinition t t' := hreads
  obtain ⟨d, rfl⟩ : ∃ k, d = k + 1 := ⟨d - 1, by omega⟩
  have hlen : ((Stmt.expr e).clauseTokens T).length < d := by
    simpa [Stmt.tokens] using hlen
  have hsimple : simple sc (expression sc d)
      ⟨located (e.tokens T) ++ ⟨1, .semicolon⟩ :: rest, t⟩ =
      .ok (.expr e) ⟨⟨1, .semicolon⟩ :: rest, t'⟩ :=
      simple_located hclause hlen ⟨nofun, nofun⟩
  obtain ⟨tok, us, htokens, htok⟩ := e.exists_head hclause
  rw [Stmt.tokens, located_append, List.append_assoc]
  show statement sc (d + 1) ⟨located (e.tokens T) ++ ⟨1, .semicolon⟩ :: rest, t⟩ = _
  rw [htokens] at hsimple ⊢
  refine anyStatement_of_clause htok (fun name hname =>
    namedStmt_of_simple fun hsecond => ?_) hsimple
  -- if it looks like a call, the name is not that of a procedure
  intro id hlookup
  have hhead : (us ++ Token.semicolon :: rest.map Located.token).head? =
      some .leftParen := by
    have hsame := second_token (located (tok :: us) ++ ⟨1, .semicolon⟩ :: rest)
    rw [token_located] at hsame
    exact hsame.symm.trans hsecond
  obtain ⟨us', hus⟩ := List.head?_eq_some_iff.mp hhead
  have hwhole : e.tokens T ++ .semicolon :: rest.map Located.token =
      .ident name :: .leftParen :: us' := by
    rw [htokens, hname, List.cons_append, hus]
  have hnot : (Token.semicolon :: rest.map Located.token).head? ≠ some .leftParen := nofun
  exact e.head_not_procedure hclause hnot hwhole hlookup

/-- A print statement. -/
theorem stmtReadsBack_print (items : List Expr) : StmtReadsBack sc T (.print items) := by
  rintro t t' d rest ⟨hne, hreads⟩ hlen _
  obtain ⟨d, rfl⟩ : ∃ k, d = k + 1 := ⟨d - 1, by omega⟩
  have hlen : (Expr.rowTokens T items).length + 1 < d := by simpa [Stmt.tokens] using hlen
  have hitems : printItems (expression sc d)
      ⟨located (Expr.rowTokens T items) ++ ⟨1, .semicolon⟩ :: rest, t⟩ =
        .ok items ⟨⟨1, .semicolon⟩ :: rest, t'⟩ :=
        printItems_located hne hreads (by omega)
  rw [Stmt.tokens, List.cons_append, located_cons, located_append, List.cons_append,
    List.append_assoc]
  exact terminated_of_semicolon (Action.bind_of_ok hitems)

/-- The call of a procedure. -/
theorem stmtReadsBack_call (id : Nat) (es : List Expr) :
    StmtReadsBack sc T (.call id es) := by
  rintro t t' d rest ⟨⟨hlookup, hkind⟩, hreads⟩ hlen _
  obtain ⟨d, rfl⟩ : ∃ k, d = k + 1 := ⟨d - 1, by omega⟩
  have hlen : (Expr.rowTokens T es).length + 3 < d := by simpa [Stmt.tokens] using hlen
  let args : List Located := ⟨1, .leftParen⟩ ::
    (located (Expr.rowTokens T es) ++ ⟨1, .rightParen⟩ :: ⟨1, .semicolon⟩ :: rest)
  have hargs : arguments sc (expression sc d) ⟨args, t⟩ =
      .ok es ⟨⟨1, .semicolon⟩ :: rest, t'⟩ :=
    arguments_located (readsBack_all sc T es) hreads (by omega)
  have hnamed : namedStmt sc (expression sc d) (T.get id).label
      ⟨⟨1, T.nameToken id⟩ :: args, t⟩ =
      (arguments sc (expression sc d) >>= fun es => pure (Stmt.call id es))
        ⟨args, t⟩ := by
    have hsymbols : symbols ⟨⟨1, T.nameToken id⟩ :: args, t⟩ =
        .ok t ⟨⟨1, T.nameToken id⟩ :: args, t⟩ :=
      rfl
    rw [namedStmt, Action.bind_of_ok (peekSecond_apply _)]
    dsimp only [args, List.tail_cons, List.head?_cons, Option.map_some]
    rw [Action.bind_of_ok hsymbols, hlookup]
    dsimp only
    rw [if_pos hkind]
    rfl
  rw [Stmt.tokens, List.cons_append, List.cons_append, located_cons, located_cons,
    located_append, List.cons_append, List.cons_append, List.append_assoc]
  refine terminated_of_semicolon (hnamed.trans ?_)
  rw [Action.bind_of_ok hargs]
  rfl

/-- A return with a value, which starts as an expression does. -/
theorem stmtReadsBack_returnValue (e : Expr) : StmtReadsBack sc T (.returnValue e) := by
  rintro t t' d rest ⟨hin, hreads⟩ hlen _
  obtain ⟨d, rfl⟩ : ∃ k, d = k + 1 := ⟨d - 1, by omega⟩
  have hlen : (e.tokens T).length + 1 < d := by simpa [Stmt.tokens] using hlen
  have hvalue : (expression sc d >>= fun e => pure (Stmt.returnValue e))
      ⟨located (e.tokens T) ++ ⟨1, .semicolon⟩ :: rest, t⟩ =
        .ok (.returnValue e) ⟨⟨1, .semicolon⟩ :: rest, t'⟩ :=
    Action.bind_of_ok ((readsBack sc T e).expression hreads (show _ < d by omega)
      (.mark nofun nofun))
  obtain ⟨tok, us, htokens, htok⟩ := e.exists_head hreads
  rw [Stmt.tokens, List.cons_append, located_cons, located_append, List.cons_append,
    List.append_assoc]
  refine terminated_of_semicolon ?_
  rw [returnStmt, hin]
  rw [htokens] at hvalue ⊢
  -- the value cannot be taken for the end of the statement
  cases tok
  case keyword word =>
    cases word
    case readKw => exact hvalue
    all_goals exact nomatch htok
  case semicolon | rightBrace => exact nomatch htok
  all_goals exact hvalue

theorem stmtReadsBack_returnNothing : StmtReadsBack sc T .returnNothing := by
  rintro t t' d rest ⟨hin, rfl⟩ hlen _
  obtain ⟨d, rfl⟩ : ∃ k, d = k + 1 := ⟨d - 1, by omega⟩
  refine terminated_of_semicolon ?_
  rw [returnStmt, hin]
  rfl

/-! ### Bodies -/

/-- A token that may start a statement. -/
structure Token.StartsStmt (tok : Token) : Prop where
  notElse : tok ≠ .keyword .elseKw
  notSemicolon : tok ≠ .semicolon
  notRightBrace : tok ≠ .rightBrace

theorem Token.startsStmt_of_startsExpr {tok : Token} (h : tok.startsExpr) :
    Token.StartsStmt tok := by
  constructor <;> (rintro rfl; exact nomatch h)

/-- The tokens of a statement start as a statement may. -/
def Stmt.Starts (T : SymbolTable) (s : Stmt) : Prop :=
  ∃ tok us, s.tokens T = tok :: us ∧ Token.StartsStmt tok

theorem starts_of_reads {s : Stmt} {inside : Bool} (h : s.Reads T inside t t') :
    Stmt.Starts T s := by
  cases s
  case expr e =>
    obtain ⟨tok, us, htokens, htok⟩ := e.exists_head h
    refine ⟨tok, us ++ [.semicolon], ?_, Token.startsStmt_of_startsExpr htok⟩
    rw [Stmt.tokens, Stmt.clauseTokens, htokens, List.cons_append]
  case define => exact h.elim
  all_goals exact ⟨_, _, rfl, by constructor <;> (intro h; cases h)⟩

theorem starts_of_readsAll {ss : List Stmt} {inside : Bool}
    (h : Stmt.ReadsAll T inside ss t t') :
    ∀ s ∈ ss, Stmt.Starts T s := by
  induction ss generalizing t with
  | nil => exact nofun
  | cons s ss ih =>
    obtain ⟨t₁, hs, hss⟩ := h
    exact List.forall_mem_cons.mpr ⟨starts_of_reads hs, ih hss⟩

/-- Statements may stand behind a statement. -/
theorem followsStmt_append {ss : List Stmt} (h : ∀ s ∈ ss, Stmt.Starts T s)
    (hrest : FollowsStmt rest) :
    FollowsStmt (located (Stmt.allTokens T ss) ++ rest) := by
  cases ss with
  | nil => exact hrest
  | cons s ss =>
    obtain ⟨tok, us, htokens, htok⟩ := h s List.mem_cons_self
    rw [Stmt.allTokens, htokens]
    exact ⟨fun h => htok.notElse (Option.some.inj h),
      fun h => htok.notSemicolon (Option.some.inj h)⟩

theorem length_le_allTokens {ss : List Stmt} (h : ∀ s ∈ ss, Stmt.Starts T s) :
    ss.length ≤ (Stmt.allTokens T ss).length := by
  induction ss with
  | nil => exact Nat.le_refl _
  | cons s ss ih =>
    obtain ⟨⟨tok, us, htokens, -⟩, hss⟩ := List.forall_mem_cons.mp h
    have hle := ih hss
    rw [Stmt.allTokens, htokens, List.length_append, List.length_cons, List.length_cons]
    omega

/-- The statements of a block, up to the closing brace. -/
theorem blockItems_located {ss : List Stmt} (hss : ∀ s ∈ ss, StmtReadsBack sc T s)
    (hreads : Stmt.ReadsAll T sc.inDefinition ss t t')
    (hlen : (Stmt.allTokens T ss).length < d) {bound : List Located}
    (hbound : ss.length < bound.length) :
    blockItems sc (statement sc d) bound
      ⟨located (Stmt.allTokens T ss) ++ ⟨1, .rightBrace⟩ :: rest, t⟩ =
        .ok ss ⟨rest, t'⟩ := by
  induction ss generalizing t bound with
  | nil =>
    cases hreads
    obtain ⟨b, bound, rfl⟩ := List.exists_cons_of_length_pos hbound
    rfl
  | cons s ss ih =>
    obtain ⟨t₁, hs, hreads⟩ := hreads
    obtain ⟨b, bound, rfl⟩ := List.exists_cons_of_length_pos (Nat.zero_lt_of_lt hbound)
    have hlen : (s.tokens T).length + (Stmt.allTokens T ss).length < d := by
      simpa [Stmt.allTokens] using hlen
    have hfollows : FollowsStmt (located (Stmt.allTokens T ss) ++
        ⟨1, .rightBrace⟩ :: rest) :=
      followsStmt_append (starts_of_readsAll hreads) ⟨nofun, nofun⟩
    have hfirst := hss s List.mem_cons_self _ _ _ _ hs (show _ < d by omega) hfollows
    have hrest := ih (fun s hs => hss s (List.mem_cons_of_mem _ hs)) hreads (by omega)
      (Nat.lt_of_succ_lt_succ hbound)
    have hall : (statement sc d >>= fun first => blockItems sc (statement sc d) bound >>=
        fun rest =>
        pure (first ++ rest)) ⟨located (s.tokens T) ++ (located (Stmt.allTokens T ss) ++
          ⟨1, .rightBrace⟩ :: rest), t⟩ = .ok (s :: ss) ⟨rest, t'⟩ := by
      rw [Action.bind_of_ok hfirst, Action.bind_of_ok hrest]
      rfl
    obtain ⟨tok, us, htokens, htok⟩ := starts_of_reads hs
    rw [Stmt.allTokens, located_append, List.append_assoc, htokens]
    rw [htokens] at hall
    cases tok
    case semicolon => exact absurd rfl htok.notSemicolon
    case rightBrace => exact absurd rfl htok.notRightBrace
    all_goals exact hall

/-- The statements of a body are read back from their tokens in braces. -/
theorem statement_braced {ss : List Stmt} (hss : ∀ s ∈ ss, StmtReadsBack sc T s)
    (hreads : Stmt.ReadsAll T sc.inDefinition ss t t')
    (hlen : (Stmt.allTokens T ss).length + 1 < d) :
    statement sc d ⟨located (braced (Stmt.allTokens T ss)) ++ rest, t⟩ =
      .ok ss ⟨rest, t'⟩ := by
  obtain ⟨d, rfl⟩ : ∃ k, d = k + 1 := ⟨d - 1, by omega⟩
  let items := located (Stmt.allTokens T ss) ++ ⟨1, .rightBrace⟩ :: rest
  have hbound : ss.length < items.length := by
    have hle := length_le_allTokens (starts_of_readsAll hreads)
    rw [List.length_append, located, List.length_map, List.length_cons]
    omega
  have hitems : blockItems sc (statement sc d) items ⟨items, t⟩ = .ok ss ⟨rest, t'⟩ :=
    blockItems_located hss hreads (by omega) hbound
  rw [braced, List.cons_append, located_cons, located_append, List.cons_append,
    List.append_assoc]
  exact hitems

/-- A condition in its parentheses. -/
theorem condition_located {c : Expr} (hreads : c.Reads T sc.inDefinition t t')
    (hlen : (c.tokens T).length < d) :
    condition sc (expression sc d)
      ⟨⟨1, .leftParen⟩ :: (located (c.tokens T) ++ ⟨1, .rightParen⟩ :: rest), t⟩ =
        .ok c ⟨rest, t'⟩ := by
  have hfollows : Follows 1 (⟨1, .rightParen⟩ :: rest) := .mark nofun nofun
  have hcond := (readsBack sc T c).expression hreads hlen hfollows
  rw [condition, Action.bind_of_ok (expect_apply fun _ => Token.noConfusion),
    Action.bind_of_ok hcond, Action.bind_of_ok (expect_apply fun _ => Token.noConfusion)]
  rfl

/-- A `while` loop. -/
theorem stmtReadsBack_whileLoop (c : Expr) {body : List Stmt}
    (hbody : ∀ s ∈ body, StmtReadsBack sc T s) :
    StmtReadsBack sc T (.whileLoop c body) := by
  rintro t t' d rest ⟨t₁, hc, hreads⟩ hlen hrest
  obtain ⟨d, rfl⟩ : ∃ k, d = k + 1 := ⟨d - 1, by omega⟩
  have hlen : (c.tokens T).length + (Stmt.allTokens T body).length + 4 < d := by
    simp [Stmt.tokens, braced] at hlen
    omega
  let after := located (braced (Stmt.allTokens T body)) ++ rest
  let head := ⟨1, .leftParen⟩ :: (located (c.tokens T) ++ ⟨1, .rightParen⟩ :: after)
  have hcond : condition sc (expression sc d) ⟨head, t⟩ = .ok c ⟨after, t₁⟩ :=
    condition_located hc (by omega)
  have hstmt : statement sc d ⟨after, t₁⟩ = .ok body ⟨rest, t'⟩ :=
    statement_braced hbody hreads (by omega)
  have hloop : (condition sc (expression sc d) >>= fun c => statement sc d >>= fun body =>
      pure (Stmt.whileLoop c body)) ⟨head, t⟩ = .ok (.whileLoop c body) ⟨rest, t'⟩ := by
    rw [Action.bind_of_ok hcond, Action.bind_of_ok hstmt]
    rfl
  simp only [Stmt.tokens, located_append, located_cons, List.cons_append,
    List.append_assoc]
  exact terminated_of_follows hloop hrest

/-- A `for` loop, part by part. -/
theorem stmtReadsBack_forLoop (init : Stmt) (c : Expr) (post : Stmt) {body : List Stmt}
    (hbody : ∀ s ∈ body, StmtReadsBack sc T s) :
    StmtReadsBack sc T (.forLoop init c post body) := by
  rintro t t' d rest ⟨t₁, t₂, t₃, hinit, hc, hpost, hreads⟩ hlen -
  obtain ⟨d, rfl⟩ : ∃ k, d = k + 1 := ⟨d - 1, by omega⟩
  have hlen : (init.clauseTokens T).length + (c.tokens T).length +
      (post.clauseTokens T).length + (Stmt.allTokens T body).length + 6 < d := by
    simp [Stmt.tokens, braced] at hlen
    omega
  -- the tokens from each part of the loop on
  let fromBody := located (braced (Stmt.allTokens T body)) ++ rest
  let fromPost := located (post.clauseTokens T) ++ ⟨1, .rightParen⟩ :: fromBody
  let fromCond := located (c.tokens T) ++ ⟨1, .semicolon⟩ :: fromPost
  let fromInit := located (init.clauseTokens T) ++ ⟨1, .semicolon⟩ :: fromCond
  have hinit : simple sc (expression sc d) ⟨fromInit, t⟩ =
      .ok init ⟨⟨1, .semicolon⟩ :: fromCond, t₁⟩ :=
    simple_located hinit (by omega) ⟨nofun, nofun⟩
  have hcond : expression sc d ⟨fromCond, t₁⟩ = .ok c ⟨⟨1, .semicolon⟩ :: fromPost, t₂⟩ :=
    (readsBack sc T c).expression hc (by omega) (.mark nofun nofun)
  have hpost : simple sc (expression sc d) ⟨fromPost, t₂⟩ =
      .ok post ⟨⟨1, .rightParen⟩ :: fromBody, t₃⟩ :=
    simple_located hpost (by omega) ⟨nofun, nofun⟩
  have hstmt : statement sc d ⟨fromBody, t₃⟩ = .ok body ⟨rest, t'⟩ :=
    statement_braced hbody hreads (by omega)
  simp only [Stmt.tokens, located_append, located_cons, List.cons_append,
    List.append_assoc]
  show (forStmt sc (expression sc d) (statement sc d) >>= fun s => pure [s])
    ⟨⟨1, .keyword .forKw⟩ :: ⟨1, .leftParen⟩ :: fromInit, t⟩ = _
  have hfor : forStmt sc (expression sc d) (statement sc d)
      ⟨⟨1, .keyword .forKw⟩ :: ⟨1, .leftParen⟩ :: fromInit, t⟩ =
        .ok (.forLoop init c post body) ⟨rest, t'⟩ := by
    have hskip : skip ⟨⟨1, .keyword .forKw⟩ :: ⟨1, .leftParen⟩ :: fromInit, t⟩ =
        .ok () ⟨⟨1, .leftParen⟩ :: fromInit, t⟩ := rfl
    rw [forStmt, Action.bind_of_ok hskip,
      Action.bind_of_ok (expect_apply fun _ => Token.noConfusion),
      Action.bind_of_ok hinit,
      Action.bind_of_ok (expect_apply fun _ => Token.noConfusion),
      Action.bind_of_ok hcond,
      Action.bind_of_ok (expect_apply fun _ => Token.noConfusion),
      Action.bind_of_ok hpost,
      Action.bind_of_ok (expect_apply fun _ => Token.noConfusion),
      Action.bind_of_ok hstmt]
    rfl
  rw [Action.bind_of_ok hfor]
  rfl

/-- A branch without `else`, which must not follow it. -/
theorem stmtReadsBack_ifThen (c : Expr) {body : List Stmt}
    (hbody : ∀ s ∈ body, StmtReadsBack sc T s) :
    StmtReadsBack sc T (.ifThen c body) := by
  rintro t t' d rest ⟨t₁, hc, hreads⟩ hlen hrest
  obtain ⟨d, rfl⟩ : ∃ k, d = k + 1 := ⟨d - 1, by omega⟩
  have hlen : (c.tokens T).length + (Stmt.allTokens T body).length + 4 < d := by
    simp [Stmt.tokens, braced] at hlen
    omega
  let after := located (braced (Stmt.allTokens T body)) ++ rest
  let head := ⟨1, .leftParen⟩ :: (located (c.tokens T) ++ ⟨1, .rightParen⟩ :: after)
  have hcond : condition sc (expression sc d) ⟨head, t⟩ = .ok c ⟨after, t₁⟩ :=
    condition_located hc (by omega)
  have hstmt : statement sc d ⟨after, t₁⟩ = .ok body ⟨rest, t'⟩ :=
    statement_braced hbody hreads (by omega)
  have hif : ifStmt sc (expression sc d) (statement sc d)
      ⟨⟨1, .keyword .ifKw⟩ :: head, t⟩ =
      .ok (.ifThen c body) ⟨rest, t'⟩ := by
    have hskip : skip ⟨⟨1, .keyword .ifKw⟩ :: head, t⟩ = .ok () ⟨head, t⟩ := rfl
    rw [ifStmt, Action.bind_of_ok hskip, Action.bind_of_ok hcond, Action.bind_of_ok hstmt,
      Action.bind_of_ok (peek_apply _)]
    show _ = (pure (Stmt.ifThen c body) : Parser Stmt) ⟨rest, t'⟩
    refine congrFun ?_ _
    split
    · exact absurd ‹_› hrest.notElse
    · rfl
  simp only [Stmt.tokens, located_append, located_cons, List.cons_append,
    List.append_assoc]
  exact Action.bind_of_ok hif

/-- A branch with `else`. -/
theorem stmtReadsBack_ifElse (c : Expr) {body other : List Stmt}
    (hbody : ∀ s ∈ body, StmtReadsBack sc T s)
    (hother : ∀ s ∈ other, StmtReadsBack sc T s) :
    StmtReadsBack sc T (.ifElse c body other) := by
  rintro t t' d rest ⟨t₁, t₂, hc, hreads, hreads'⟩ hlen -
  obtain ⟨d, rfl⟩ : ∃ k, d = k + 1 := ⟨d - 1, by omega⟩
  have hlen : (c.tokens T).length + (Stmt.allTokens T body).length +
      (Stmt.allTokens T other).length + 7 < d := by
    simp [Stmt.tokens, braced] at hlen
    omega
  let fromOther := located (braced (Stmt.allTokens T other)) ++ rest
  let fromBody := located (braced (Stmt.allTokens T body)) ++
    ⟨1, .keyword .elseKw⟩ :: fromOther
  let head := ⟨1, .leftParen⟩ :: (located (c.tokens T) ++ ⟨1, .rightParen⟩ :: fromBody)
  have hcond : condition sc (expression sc d) ⟨head, t⟩ = .ok c ⟨fromBody, t₁⟩ :=
    condition_located hc (by omega)
  have hstmt : statement sc d ⟨fromBody, t₁⟩ =
      .ok body ⟨⟨1, .keyword .elseKw⟩ :: fromOther, t₂⟩ :=
    statement_braced hbody hreads (by omega)
  have hstmt' : statement sc d ⟨fromOther, t₂⟩ = .ok other ⟨rest, t'⟩ :=
    statement_braced hother hreads' (by omega)
  have hif : ifStmt sc (expression sc d) (statement sc d)
      ⟨⟨1, .keyword .ifKw⟩ :: head, t⟩ =
      .ok (.ifElse c body other) ⟨rest, t'⟩ := by
    have hskip : skip ⟨⟨1, .keyword .ifKw⟩ :: head, t⟩ = .ok () ⟨head, t⟩ := rfl
    have helse : (skip >>= fun _ => statement sc d >>=
        fun other => pure (Stmt.ifElse c body other)) ⟨⟨1, .keyword .elseKw⟩ :: fromOther,
        t₂⟩ = .ok (.ifElse c body other) ⟨rest, t'⟩ :=
      Action.bind_of_ok hstmt'
    rw [ifStmt, Action.bind_of_ok hskip, Action.bind_of_ok hcond, Action.bind_of_ok hstmt]
    exact helse
  simp only [Stmt.tokens, located_append, located_cons, List.cons_append,
    List.append_assoc]
  exact Action.bind_of_ok hif

mutual

/-- Every statement is read back from its tokens. -/
theorem stmtReadsBack (sc : Scope) (T : SymbolTable) : ∀ s : Stmt, StmtReadsBack sc T s
  | .assign op id e => stmtReadsBack_assign op id e
  | .argAssign n e => stmtReadsBack_argAssign n e
  | .expr e => stmtReadsBack_expr e
  | .print items => stmtReadsBack_print items
  | .whileLoop c body => stmtReadsBack_whileLoop c (stmtReadsBack_all sc T body)
  | .forLoop init c post body =>
    stmtReadsBack_forLoop init c post (stmtReadsBack_all sc T body)
  | .ifThen c body => stmtReadsBack_ifThen c (stmtReadsBack_all sc T body)
  | .ifElse c body other =>
    stmtReadsBack_ifElse c (stmtReadsBack_all sc T body) (stmtReadsBack_all sc T other)
  | .call id es => stmtReadsBack_call id es
  | .returnValue e => stmtReadsBack_returnValue e
  | .returnNothing => stmtReadsBack_returnNothing
  | .define _ _ _ => fun _ _ _ _ hreads => hreads.elim

theorem stmtReadsBack_all (sc : Scope) (T : SymbolTable) :
    ∀ ss : List Stmt, ∀ s ∈ ss, StmtReadsBack sc T s
  | [] => nofun
  | s :: ss => List.forall_mem_cons.mpr ⟨stmtReadsBack sc T s, stmtReadsBack_all sc T ss⟩

end

/-! ### Programs -/

/-- A definition. Its name gets its kind before the body is read. -/
theorem definition_located (kind : DefinitionKind) {id : Nat} {body : List Stmt}
    (hreads : (Stmt.define kind id body).ReadsTop T t t')
    (hlen : ((Stmt.define kind id body).tokens T).length < d) :
    definition sc kind d ⟨located ((Stmt.define kind id body).tokens T) ++ rest, t⟩ =
      .ok (.define kind id body) ⟨rest, t'⟩ := by
  obtain ⟨t₁, hresolve, hkind, hreads⟩ := hreads
  have hlen : (Stmt.allTokens T body).length + 6 < d := by
    simpa [Stmt.tokens, braced] using hlen
  let inner : Scope := { sc with inDefinition := true }
  let defined := t₁.modify id fun e => { e with kind := kind.symbolKind }
  let fromBody := located (braced (Stmt.allTokens T body)) ++ rest
  let fromParens := ⟨1, .leftParen⟩ :: ⟨1, .rightParen⟩ :: fromBody
  have hbody : statement inner d ⟨fromBody, defined⟩ = .ok body ⟨rest, t'⟩ :=
    statement_braced (stmtReadsBack_all inner T body) hreads (by omega)
  let fromName := ⟨1, T.nameToken id⟩ :: fromParens
  have hkeyword : skip ⟨⟨1, .keyword kind.keyword⟩ :: fromName, t⟩ =
      .ok () ⟨fromName, t⟩ := rfl
  have hident : ident sc ⟨fromName, t⟩ = .ok (T.get id).label ⟨fromParens, t⟩ := rfl
  have hname : resolve (T.get id).label ⟨fromParens, t⟩ = .ok id ⟨fromParens, t₁⟩ :=
    resolve_apply hresolve
  have hsymbols : symbols ⟨fromParens, t₁⟩ = .ok t₁ ⟨fromParens, t₁⟩ := rfl
  rw [Stmt.tokens]
  show definition sc kind d ⟨⟨1, .keyword kind.keyword⟩ :: fromName, t⟩ = _
  rw [definition, Action.bind_of_ok hkeyword, Action.bind_of_ok hident,
    Action.bind_of_ok hname, Action.bind_of_ok hsymbols, if_neg hkind]
  exact Action.bind_of_ok hbody

/-- In a program every statement starts as a statement may, definitions included. -/
theorem starts_of_readsProgram {ss : List Stmt} (h : Stmt.ReadsProgram T ss t t') :
    ∀ s ∈ ss, Stmt.Starts T s := by
  induction ss generalizing t with
  | nil => exact nofun
  | cons s ss ih =>
    obtain ⟨t₁, hs, hss⟩ := h
    refine List.forall_mem_cons.mpr ⟨?_, ih hss⟩
    cases s
    case define kind id body => cases kind <;> exact ⟨_, _, rfl, nofun, nofun, nofun⟩
    all_goals exact starts_of_reads hs

/-- A statement does not start with the keyword of a definition. -/
theorem head_ne_definition {s : Stmt} {inside : Bool} (h : s.Reads T inside t t')
    {us : List Token} (kind : DefinitionKind) :
    s.tokens T ≠ .keyword kind.keyword :: us := by
  intro htokens
  cases s
  case expr e =>
    obtain ⟨tok, vs, he, htok⟩ := e.exists_head h
    rw [Stmt.tokens, Stmt.clauseTokens, he] at htokens
    obtain ⟨rfl, -⟩ := List.cons.inj htokens
    cases kind <;> cases htok
  case define => exact h.elim
  all_goals cases kind <;> cases htokens

/-- A program is read back to its end, statement by statement. -/
theorem programItems_located (hsc : sc.inDefinition = false) {ss : List Stmt}
    (hreads : Stmt.ReadsProgram T ss t t') (hlen : (Stmt.allTokens T ss).length < d)
    {bound : List Located} (hbound : ss.length ≤ bound.length) :
    programItems sc d bound ⟨located (Stmt.allTokens T ss), t⟩ = .ok ss ⟨[], t'⟩ := by
  induction ss generalizing t bound with
  | nil =>
    cases hreads
    cases bound <;> rfl
  | cons s ss ih =>
    have hstarts := starts_of_readsProgram hreads
    obtain ⟨t₁, hs, hreads⟩ := hreads
    obtain ⟨b, bound, rfl⟩ := List.exists_cons_of_length_pos (Nat.zero_lt_of_lt hbound)
    have hsum : (s.tokens T).length + (Stmt.allTokens T ss).length < d := by
      simpa [Stmt.allTokens] using hlen
    have hrest := ih hreads (by omega) (Nat.le_of_succ_le_succ hbound)
    let more := located (Stmt.allTokens T ss)
    rw [Stmt.allTokens, located_append]
    -- a definition is read by its keyword, any other statement by what may
    -- stand in a block
    by_cases hdef : ∃ kind id body, s = .define kind id body
    · obtain ⟨kind, id, body, rfl⟩ := hdef
      let first := located ((Stmt.define kind id body).tokens T)
      have hfirst : definition sc kind d ⟨first ++ more, t⟩ =
          .ok (.define kind id body) ⟨more, t₁⟩ :=
        definition_located kind hs (by omega)
      have hall : (definition sc kind d >>= fun s => programItems sc d bound >>=
          fun rest =>
          pure (s :: rest)) ⟨first ++ more, t⟩ =
            .ok (.define kind id body :: ss) ⟨[], t'⟩ := by
        rw [Action.bind_of_ok hfirst, Action.bind_of_ok hrest]
        rfl
      cases kind <;> exact hall
    · have hs : s.Reads T sc.inDefinition t t₁ := by
        rw [hsc]
        cases s
        case define kind id body => exact absurd ⟨kind, id, body, rfl⟩ hdef
        all_goals exact hs
      have hfollows : FollowsStmt (more ++ []) :=
        followsStmt_append (starts_of_readsProgram hreads) ⟨nofun, nofun⟩
      rw [List.append_nil] at hfollows
      have hfirst := stmtReadsBack sc T s _ _ _ _ hs (show _ < d by omega) hfollows
      have hall : (statement sc d >>= fun first => programItems sc d bound >>= fun rest =>
          pure (first ++ rest)) ⟨located (s.tokens T) ++ more, t⟩ =
            .ok (s :: ss) ⟨[], t'⟩ := by
        rw [Action.bind_of_ok hfirst, Action.bind_of_ok hrest]
        rfl
      obtain ⟨tok, us, htokens, htok⟩ := starts_of_reads hs
      have hnot : ∀ kind : DefinitionKind, s.tokens T ≠ .keyword kind.keyword :: us :=
        head_ne_definition hs
      rw [htokens] at hall hnot ⊢
      -- by the token ahead: it is neither a semicolon nor the keyword of a
      -- definition
      cases tok
      case semicolon => exact absurd rfl htok.notSemicolon
      case keyword word =>
        cases word
        case funcKw => exact absurd rfl (hnot .function)
        case procKw => exact absurd rfl (hnot .procedure)
        all_goals exact hall
      all_goals exact hall

end Parser

/-! ### The result -/

/-- A program that is read from a sound table is read from its tokens again. -/
theorem SymbolTable.Sound.parse_located {t t' : SymbolTable} (ht : t.Sound)
    {tokens : List Located} {depth depth' : Nat} {program : List Stmt}
    (h : parse tokens t depth = (.ok program, t'))
    (hdepth : (Stmt.allTokens t' program).length < depth') :
    parse (unparse t' program) t depth' = (.ok program, t') := by
  obtain ⟨rest, hitems⟩ := programItems_of_parse h
  obtain ⟨-, htraces⟩ := Parser.traces_programItems _ rfl _ _ _ _ _ ht hitems
  have hreads : Stmt.ReadsProgram t' program t t' :=
    htraces t' (SymbolTable.Evolves.refl _)
  have hbound : program.length ≤ (unparse t' program).length := by
    rw [unparse, located, List.length_map]
    exact Parser.length_le_allTokens (Parser.starts_of_readsProgram hreads)
  let sc : Scope := ⟨false, (unparse t' program).getLast?.map Located.line⟩
  have hagain : Parser.programItems sc depth' (unparse t' program)
      ⟨unparse t' program, t⟩ =
      .ok program ⟨[], t'⟩ := Parser.programItems_located rfl hreads hdepth hbound
  rw [parse, hagain]

namespace Session

/-- Take the symbols of any session that can be reached and any tokens that are
read as a program from them. Written as tokens and read from the same symbols
again, with a bound on the depth that exceeds the number of the tokens, the
program is the same, places included, and so are the symbols it leaves. -/
theorem parse_unparse {rs : List Region} {s : Session} (hs : Reachable rs s)
    {tokens : List Located} {depth depth' : Nat} {program : List Stmt} {t : SymbolTable}
    (hparse : parse tokens s.machine.symbols depth = (.ok program, t))
    (hdepth : (unparse t program).length < depth') :
    parse (unparse t program) s.machine.symbols depth' = (.ok program, t) := by
  rw [unparse, located, List.length_map] at hdepth
  exact hs.intact.sound.parse_located hparse hdepth

/-- A text with a definition, a loop, and parentheses that are needed and that
are not. -/
def tangled : String :=
  "proc p() if ($1) print \"!\" else return\nfor (i = 0; i < (-2) ^ -(1 - (2 - i)); i++) p((i))"

/-- The symbols are those of a session in which a function was defined. -/
theorem parse_unparse_tangled :
    ∃ rs s program t, Reachable rs s ∧
      parse (lex tangled) s.machine.symbols 100 = (.ok program, t) ∧
      program.length = 2 ∧ (unparse t program).length < 100 ∧
      parse (unparse t program) s.machine.symbols 100 = (.ok program, t) := by
  let s : Session := (Session.fresh {}).handle (.enter 100 "func half() return $1 / 2")
  have hs : Reachable _ s := (Reachable.fresh {}).step _ trivial
  let r := parse (lex tangled) s.machine.symbols 100
  have hread : r.1.toOption.map (fun program => (program.length,
      decide ((unparse r.2 program).length < 100))) = some (2, true) := by decide +kernel
  obtain ⟨program, hprogram, hsizes⟩ := Option.map_eq_some_iff.mp hread
  obtain ⟨hlength, hsmall⟩ := Prod.mk.inj hsizes
  have hsmall := of_decide_eq_true hsmall
  have hparse : r = (.ok program, r.2) := by
    refine Prod.ext ?_ rfl
    cases hr : r.1 with
    | error f =>
      rw [hr] at hprogram
      exact nomatch hprogram
    | ok p =>
      rw [hr] at hprogram
      exact congrArg Except.ok (Option.some.inj hprogram)
  exact ⟨_, s, program, r.2, hs, hparse, hlength, hsmall, parse_unparse hs hparse hsmall⟩

end Session

end StackCalc
