import StackCalc.Proofs.Parser.Climbing
import StackCalc.Proofs.Parser.Reading

/-!
# Reading expressions back

The tokens of an expression that has been read are read as that expression again
(`Parser.readsBack`), whatever follows them and does not belong to it. What
follows matters: climbing goes on where the tokens of the tree end. Reading at a
precedence that does not exceed the level of a tree is taking the operators
after its tokens with the whole tree as their left side (`Parser.ReadsBack`).
-/

namespace StackCalc

/-! ### What may follow an expression -/

/-- Tokens that do not extend an expression in front of them: an operator ahead
binds less tightly than `least`, and nothing ahead makes a call or a step of a
name. -/
structure Follows (least : Nat) (rest : List Located) : Prop where
  operator : ∀ {op p}, rest.head?.map Located.token = some (.operator op) →
    op.precedence? = some p → p < least
  paren : rest.head?.map Located.token ≠ some .leftParen
  increment : rest.head?.map Located.token ≠ some (.operator .increment)
  decrement : rest.head?.map Located.token ≠ some (.operator .decrement)

namespace Follows

variable {least least' : Nat} {rest : List Located}

theorem mono (h : Follows least rest) (hle : least ≤ least') : Follows least' rest :=
  ⟨fun hop hp => Nat.lt_of_lt_of_le (h.operator hop hp) hle, h.paren,
    h.increment, h.decrement⟩

/-- A mark other than an opening parenthesis. -/
theorem mark {line : Nat} {tok : Token} (hop : ∀ op, tok ≠ .operator op)
    (hparen : tok ≠ .leftParen) :
    Follows least (⟨line, tok⟩ :: rest) where
  operator h := absurd (Option.some.inj h) (hop _)
  paren h := absurd (Option.some.inj h) hparen
  increment h := absurd (Option.some.inj h) (hop _)
  decrement h := absurd (Option.some.inj h) (hop _)

/-- An operator that binds less tightly. -/
theorem of_operator {line p : Nat} {op : Operator} (hp : op.precedence? = some p)
    (hlt : p < least) :
    Follows least (⟨line, .operator op⟩ :: rest) where
  operator := by
    rintro op' p' ⟨⟩ hp'
    cases hp.symm.trans hp'
    exact hlt
  paren := nofun
  increment := by
    rintro ⟨⟩
    exact nomatch hp
  decrement := by
    rintro ⟨⟩
    exact nomatch hp

theorem operatorAhead_none (h : Follows least rest) (t : SymbolTable) :
    Parser.operatorAhead least ⟨rest, t⟩ = none := by
  cases hs : Parser.operatorAhead least ⟨rest, t⟩ with
  | none => rfl
  | some found =>
    obtain ⟨hhead, hprec, hle⟩ := Parser.operatorAhead_eq_some.mp hs
    exact absurd (h.operator hhead hprec) (Nat.not_lt.mpr hle)

end Follows

/-- How loosely an operator behind an expression has to bind for the expression
to end in front of it. -/
def Expr.endLevel : Expr → Nat
  | .binary op _ _ => op.rightLevel
  | .unary _ _ => unaryPrecedence
  | _ => primaryLevel

namespace Operator

/-- The levels of an operator between two operands. -/
theorem levels_of_precedence? {op : Operator} (h : op.precedence?.isSome) :
    op.precedence? = some op.level ∧ 1 ≤ op.level ∧
      (op = caret ∧ op.level = 8 ∨ op ≠ caret ∧ op.level ≤ 6) := by
  revert h
  cases op <;> decide

end Operator

/-- The levels of an expression that is read. -/
theorem Expr.Reads.levels {T t t' : SymbolTable} {inside : Bool} {e : Expr}
    (h : e.Reads T inside t t') : 1 ≤ e.level ∧
      (e.level ≤ 6 ∧ e.endLevel = e.level + 1 ∨
        7 ≤ e.level ∧ e.level ≤ 8 ∧ e.endLevel = 7 ∨
        e.level = 9 ∧ e.endLevel = 9) := by
  cases e
  case binary op l r =>
    obtain ⟨-, hpos, ⟨hop, hlevel⟩ | ⟨hop, hlevel⟩⟩ := Operator.levels_of_precedence? h.1
    · have hend : (Expr.binary op l r).endLevel = 7 := if_pos hop
      have hl : (Expr.binary op l r).level = op.level := rfl
      omega
    · have hend : (Expr.binary op l r).endLevel = op.level + 1 := if_neg hop
      have hl : (Expr.binary op l r).level = op.level := rfl
      omega
  all_goals simp [Expr.level, Expr.endLevel, unaryPrecedence, primaryLevel]

/-! ### The tokens of an expression -/

/-- Whether an expression may start with a token. -/
def Token.startsExpr : Token → Bool
  | .number _ | .ident _ | .leftParen | .arg _ | .keyword .readKw => true
  | .operator op => op = .minus || op = .not || op = .increment || op = .decrement
  | _ => false

section

variable {T : SymbolTable} {inside : Bool}

theorem exists_head_enclose {ts : List Token}
    (h : ∃ tok us, ts = tok :: us ∧ tok.startsExpr) (level least : Nat) :
    ∃ tok us, enclose level least ts = tok :: us ∧ tok.startsExpr := by
  unfold enclose
  split
  · exact ⟨_, _, rfl, rfl⟩
  · exact h

/-- What an expression starts with. -/
theorem Expr.exists_head : ∀ (e : Expr) {t t' : SymbolTable}, e.Reads T inside t t' →
    ∃ tok us, e.tokens T = tok :: us ∧ tok.startsExpr
  | .binary op l r, _, _, ⟨_, t₁, hleft, _⟩ => by
    obtain ⟨tok, us, htokens, htok⟩ :=
      exists_head_enclose (exists_head l hleft) l.level op.leftLevel
    exact ⟨tok, _, by rw [Expr.tokens, htokens]; rfl, htok⟩
  | .unary .minus _, _, _, _ | .unary .not _, _, _, _ => ⟨_, _, rfl, rfl⟩
  | .step .preInc _, _, _, _ | .step .preDec _, _, _, _ => ⟨_, _, rfl, rfl⟩
  | .step .postInc _, _, _, _ | .step .postDec _, _, _, _ => ⟨_, _, rfl, rfl⟩
  | .literal _, _, _, _ | .variable _, _, _, _ | .builtin _ _, _, _, _ => ⟨_, _, rfl, rfl⟩
  | .call _ _, _, _, _ | .arg _, _, _, _ | .read _, _, _, _ => ⟨_, _, rfl, rfl⟩
  | .text _, _, _, h => h.elim

theorem Expr.length_le_restTokens (T : SymbolTable) (es : List Expr) :
    es.length ≤ (Expr.restTokens T es).length := by
  induction es with
  | nil => exact Nat.le_refl _
  | cons e es ih =>
    rw [Expr.restTokens, List.length_append, List.length_cons, List.length_cons]
    omega

theorem Token.not_isAssignment_of_startsExpr {op : Operator}
    (h : (Token.operator op).startsExpr) :
    op.isAssignment = false := by
  revert h
  cases op <;> decide

theorem Operator.not_isAssignment_of_precedence? {op : Operator}
    (h : op.precedence?.isSome) :
    op.isAssignment = false := by
  revert h
  cases op <;> decide

theorem token_located (ts : List Token) (rest : List Located) :
    (located ts ++ rest).map Located.token = ts ++ rest.map Located.token := by
  simp [located, Function.comp_def]

/-- The token in the second place. -/
theorem second_token (xs : List Located) :
    xs.tail.head?.map Located.token = (xs.map Located.token).tail.head? := by
  rcases xs with _ | ⟨x, _ | ⟨y, xs⟩⟩ <;> rfl

/-- An assigning operator in the second place does not belong to the expression. -/
theorem Expr.second_isAssignment :
    ∀ (e : Expr) {t t' : SymbolTable}, e.Reads T inside t t' →
    ∀ {rest : List Token} {op}, (e.tokens T ++ rest).tail.head? = some (.operator op) →
      op.isAssignment → rest.head? = some (.operator op)
  | .binary op' l r, _, _, ⟨hop, _, hl, _⟩, rest, op, hsecond, hassign => by
    rw [Expr.tokens, List.append_assoc] at hsecond
    by_cases hlevel : l.level < op'.leftLevel
    · -- an operand in parentheses: its first token is the second one
      obtain ⟨tok, us, htokens, htok⟩ := l.exists_head hl
      rw [enclose, if_pos hlevel, htokens] at hsecond
      cases hsecond
      rw [Token.not_isAssignment_of_startsExpr htok] at hassign
      exact nomatch hassign
    · rw [enclose, if_neg hlevel] at hsecond
      cases l.second_isAssignment hl hsecond hassign
      rw [Operator.not_isAssignment_of_precedence? hop] at hassign
      exact nomatch hassign
  | .unary op' e, _, _, ⟨_, he⟩, rest, op, hsecond, hassign => by
    obtain ⟨tok, us, htokens, htok⟩ :=
      exists_head_enclose (e.exists_head he) e.level unaryPrecedence
    rw [Expr.tokens, htokens] at hsecond
    cases hsecond
    rw [Token.not_isAssignment_of_startsExpr htok] at hassign
    exact nomatch hassign
  | .step .postInc _, _, _, _, _, _, hsecond, hassign => by
    cases hsecond
    exact nomatch hassign
  | .step .postDec _, _, _, _, _, _, hsecond, hassign => by
    cases hsecond
    exact nomatch hassign
  | .step .preInc _, _, _, _, _, _, hsecond, _ | .step .preDec _, _, _, _, _,
      _, hsecond, _ =>
    nomatch hsecond
  | .builtin _ _, _, _, _, _, _, hsecond, _ | .call _ _, _, _, _, _, _, hsecond, _ |
    .read _, _, _, _, _, _, hsecond, _ => nomatch hsecond
  | .literal _, _, _, _, _, _, hsecond, _ | .variable _, _, _, _, _, _, hsecond, _ |
    .arg _, _, _, _, _, _, hsecond, _ => hsecond
  | .text _, _, _, h, _, _, _, _ => h.elim

/-- A name in front of an opening parenthesis is not that of a procedure, where
an expression is read. -/
theorem Expr.head_not_procedure : ∀ (e : Expr) {t t' : SymbolTable},
    e.Reads T inside t t' → ∀ {rest us : List Token} {name id},
      rest.head? ≠ some .leftParen →
      e.tokens T ++ rest = .ident name :: .leftParen :: us → t.lookup name = some id →
      (t.get id).kind ≠ .procedure
  | .binary op l r, _, _, ⟨_, _, hl, _⟩, rest, us, name, id, hrest, htokens, hlookup => by
    rw [Expr.tokens, List.append_assoc] at htokens
    by_cases hlevel : l.level < op.leftLevel
    · rw [enclose, if_pos hlevel] at htokens
      exact nomatch htokens
    · rw [enclose, if_neg hlevel] at htokens
      exact l.head_not_procedure hl (by simp) htokens hlookup
  | .builtin id' e, _, _, ⟨⟨hfind, hkind⟩, _⟩, rest, us, name, id, _,
      htokens, hlookup => by
    cases htokens
    cases hfind.symm.trans hlookup
    rw [hkind]
    exact SymbolKind.noConfusion
  | .call id' es, _, _, ⟨⟨hfind, hkind⟩, _⟩, rest, us, name, id, _, htokens, hlookup => by
    cases htokens
    cases hfind.symm.trans hlookup
    rw [hkind]
    exact SymbolKind.noConfusion
  | .variable _, _, _, _, rest, _, _, _, hrest, htokens, _ => by
    cases rest with
    | nil => exact nomatch htokens
    | cons tok rest =>
      cases htokens
      exact absurd rfl hrest
  | .unary _ _, _, _, _, _, _, _, _, _, htokens, _ | .literal _, _, _, _, _, _, _, _,
    _, htokens, _ | .arg _, _, _, _, _, _, _, _, _, htokens, _ | .read _, _, _, _, _, _,
    _, _, _, htokens, _ | .step .preInc _, _, _, _, _, _, _, _, _, htokens, _ |
    .step .preDec _, _, _, _, _, _, _, _, _, htokens, _ |
    .step .postInc _, _, _, _, _, _, _, _, _, htokens, _ |
    .step .postDec _, _, _, _, _, _, _, _, _, htokens, _ => nomatch htokens
  | .text _, _, _, h, _, _, _, _, _, _, _ => h.elim

end

/-! ### Single parsers on the tokens they take -/

namespace Parser

variable {sc : Scope} {t t' : SymbolTable} {rest : List Located} {line : Nat}

/-- The token that is expected is taken. -/
theorem expect_apply {tok : Token} (h : ∀ text, tok ≠ .unknown text) :
    expect sc tok ⟨⟨line, tok⟩ :: rest, t⟩ = .ok () ⟨rest, t⟩ := by
  have hrun : ∀ tok', (∀ text, tok' ≠ .unknown text) →
      expect sc tok ⟨⟨line, tok'⟩ :: rest, t⟩ =
      (if tok' = tok then skip else malformed sc ("expected '" ++ tok.shown ++ "'") :
        Parser Unit) ⟨⟨line, tok'⟩ :: rest, t⟩ := by
    intro tok' h'
    cases tok'
    case unknown text => exact absurd rfl (h' text)
    all_goals rfl
  rw [hrun tok h, if_pos rfl]
  rfl

section

variable {expression : Parser Expr} {name : String} {id : Nat}

/-- After the name of a built-in function comes its argument. -/
theorem named_of_builtin (hlookup : t.lookup name = some id)
    (hkind : (t.get id).kind = .builtin) :
    named sc expression name ⟨rest, t⟩ =
      (expect sc .leftParen >>= fun _ => expression >>=
        fun e => expect sc .rightParen >>= fun _ =>
        pure (.builtin id e)) ⟨rest, t⟩ := by
  have hsymbols : symbols ⟨rest, t⟩ = .ok t ⟨rest, t⟩ := rfl
  rw [named, Action.bind_of_ok hsymbols]
  simp only [hlookup, Option.map_some, hkind]

theorem named_of_function (hlookup : t.lookup name = some id)
    (hkind : (t.get id).kind = .function) :
    named sc expression name ⟨rest, t⟩ =
      (arguments sc expression >>= fun es => pure (.call id es)) ⟨rest, t⟩ := by
  have hsymbols : symbols ⟨rest, t⟩ = .ok t ⟨rest, t⟩ := rfl
  rw [named, Action.bind_of_ok hsymbols]
  simp only [hlookup, Option.map_some, hkind]

theorem named_of_procedure (hlookup : t.lookup name = some id)
    (hkind : (t.get id).kind = .procedure) :
    named sc expression name ⟨rest, t⟩ =
      malformed sc ("procedure " ++ name ++ " used in expression") ⟨rest, t⟩ := by
  have hsymbols : symbols ⟨rest, t⟩ = .ok t ⟨rest, t⟩ := rfl
  rw [named, Action.bind_of_ok hsymbols]
  simp only [hlookup, Option.map_some, hkind]

/-- What comes after a plain name. -/
def afterName (sc : Scope) (name : String) : Parser Expr := do
  match ← peek with
  | some .leftParen => malformed sc ("undefined function " ++ name)
  | _ =>
    let id ← resolve name
    match ← peek with
    | some (.operator .increment) =>
      skip
      return .step .postInc id
    | some (.operator .decrement) =>
      skip
      return .step .postDec id
    | _ => return .variable id

/-- A name that stands for no function and no procedure is a plain one. -/
theorem named_of_plain (h : t.IsPlain name) :
    named sc expression name ⟨rest, t⟩ = afterName sc name ⟨rest, t⟩ := by
  have hsymbols : symbols ⟨rest, t⟩ = .ok t ⟨rest, t⟩ := rfl
  rw [named, Action.bind_of_ok hsymbols]
  cases hlookup : t.lookup name with
  | none => rfl
  | some id =>
    obtain ⟨hbuiltin, hfunction, hprocedure⟩ := h id hlookup
    cases hkind : (t.get id).kind
    case builtin => exact absurd hkind hbuiltin
    case function => exact absurd hkind hfunction
    case procedure => exact absurd hkind hprocedure
    all_goals
      simp only [Option.map_some, hkind]
      rfl

theorem resolve_apply (h : t.resolve name = (id, t')) :
    resolve name ⟨rest, t⟩ = .ok id ⟨rest, t'⟩ := by
  show EStateM.Result.ok (t.resolve name).1 (⟨rest, (t.resolve name).2⟩ : ParseState) = _
  rw [h]

/-- A name is a variable, if what follows makes neither a call nor a step of it. -/
theorem afterName_of_follows {least : Nat} (h : Follows least rest)
    (hresolve : t.resolve name = (id, t')) :
    afterName sc name ⟨rest, t⟩ = .ok (.variable id) ⟨rest, t'⟩ := by
  obtain ⟨rfl, rfl⟩ := Prod.mk.inj hresolve
  rcases rest with _ | ⟨⟨line, tok⟩, rest⟩
  · rfl
  · cases tok
    case leftParen => exact absurd rfl h.paren
    case operator op =>
      cases op
      case increment => exact absurd rfl h.increment
      case decrement => exact absurd rfl h.decrement
      all_goals rfl
    all_goals rfl

end

/-! ### Expressions -/

theorem located_cons (tok : Token) (ts : List Token) :
    located (tok :: ts) = ⟨1, tok⟩ :: located ts :=
  rfl

theorem located_append (ts us : List Token) :
    located (ts ++ us) = located ts ++ located us :=
  List.map_append

section

variable (sc : Scope) (T : SymbolTable)

/-- Reading the tokens of an expression, at a precedence that does not exceed
its level, is taking the operators that follow with the expression as their left
side. -/
def ReadsBack (e : Expr) : Prop :=
  ∀ t t' d p rest, e.Reads T sc.inDefinition t t' → (e.tokens T).length ≤ d →
    p ≤ e.level →
    Follows e.endLevel rest →
    binary sc (d + 1) p ⟨located (e.tokens T) ++ rest, t⟩ =
      roundsFrom (climbing (binary sc d) p) e ⟨rest, t'⟩

variable {sc T} {t t' : SymbolTable} {d p least : Nat} {rest : List Located}
  {e l r : Expr}

/-- An operand, and then the operators after it. -/
theorem binary_of_operand {s s' : ParseState}
    (h : operand sc (binary sc d) s = .ok e s') :
    binary sc (d + 1) p s = roundsFrom (climbing (binary sc d) p) e s' := by
  rw [binary_succ, Action.bind_of_ok h]

/-- Where no operator is ahead the expression is complete. -/
theorem roundsFrom_of_follows (h : Follows p rest) :
    roundsFrom (climbing (binary sc d) p) e ⟨rest, t⟩ = .ok e ⟨rest, t⟩ :=
  roundsFrom_of_none (by rw [climbing, h.operatorAhead_none]; rfl)

namespace ReadsBack

/-- In front of tokens that do not extend it, the whole expression is read and
no more. -/
theorem whole (h : ReadsBack sc T e) (hreads : e.Reads T sc.inDefinition t t')
    (hlen : (e.tokens T).length ≤ d) (hp : p ≤ e.level) (hp' : p ≤ 7)
    (hrest : Follows p rest) :
    binary sc (d + 1) p ⟨located (e.tokens T) ++ rest, t⟩ = .ok e ⟨rest, t'⟩ := by
  have hlevels := hreads.levels
  rw [h _ _ _ _ _ hreads hlen hp (hrest.mono (by omega)), roundsFrom_of_follows hrest]

/-- An expression among parentheses. -/
theorem expression (h : ReadsBack sc T e) (hreads : e.Reads T sc.inDefinition t t')
    (hlen : (e.tokens T).length < d) (hrest : Follows 1 rest) :
    Parser.expression sc d ⟨located (e.tokens T) ++ rest, t⟩ = .ok e ⟨rest, t'⟩ := by
  obtain ⟨d, rfl⟩ : ∃ k, d = k + 1 := ⟨d - 1, by omega⟩
  exact h.whole hreads (by omega) hreads.levels.1 (by decide) hrest

/-- An operand that is enclosed if it has to be. -/
theorem enclosed (h : ReadsBack sc T e) (hreads : e.Reads T sc.inDefinition t t')
    (hlen : (enclose e.level least (e.tokens T)).length ≤ d) (hp : p ≤ least)
    (hrest : least ≤ e.level → Follows e.endLevel rest) :
    binary sc (d + 1) p ⟨located (enclose e.level least (e.tokens T)) ++ rest, t⟩ =
      roundsFrom (climbing (binary sc d) p) e ⟨rest, t'⟩ := by
  -- an operand that binds too loosely stands among parentheses, where every
  -- expression may
  by_cases hlevel : e.level < least
  · have henclose : enclose e.level least (e.tokens T) =
        .leftParen :: e.tokens T ++ [.rightParen] :=
      if_pos hlevel
    rw [henclose] at hlen ⊢
    have hlen : (e.tokens T).length + 2 ≤ d := by
      simp only [List.length_append, List.length_cons, List.length_nil] at hlen
      omega
    have hinner : Parser.expression sc d
        ⟨located (e.tokens T) ++ ⟨1, .rightParen⟩ :: rest, t⟩ =
        .ok e ⟨⟨1, .rightParen⟩ :: rest, t'⟩ :=
      h.expression hreads (by omega) (.mark nofun nofun)
    refine binary_of_operand ?_
    rw [List.cons_append, located_cons, located_append, List.cons_append,
      List.append_assoc]
    show (Parser.expression sc d >>= fun e => expect sc .rightParen >>= fun _ => pure e)
      ⟨located (e.tokens T) ++ ⟨1, .rightParen⟩ :: rest, t⟩ = _
    rw [Action.bind_of_ok hinner,
      Action.bind_of_ok (expect_apply fun _ => Token.noConfusion)]
    rfl
  · have hbare : enclose e.level least (e.tokens T) = e.tokens T := if_neg hlevel
    rw [hbare] at hlen ⊢
    have hle : least ≤ e.level := Nat.not_lt.mp hlevel
    exact h _ _ _ _ _ hreads hlen (Nat.le_trans hp hle) (hrest hle)

end ReadsBack

/-- The precedence that climbing asks of a right side is the level that its
tokens are written for. -/
theorem rightPrecedence_eq {op : Operator} (h : op.precedence?.isSome) :
    binary sc d (op.rightPrecedence op.level) = binary sc d op.rightLevel := by
  obtain ⟨-, -, ⟨rfl, -⟩ | ⟨hop, -⟩⟩ := Operator.levels_of_precedence? h
  · exact binary_eight sc d
  · rw [Operator.rightPrecedence, Operator.rightLevel, if_neg hop, if_neg hop]

/-- An operation. Its left operand ends at the operator, and its right operand
is read in one round. -/
theorem readsBack_binary (op : Operator) (hl : ReadsBack sc T l) (hr : ReadsBack sc T r) :
    ReadsBack sc T (.binary op l r) := by
  rintro t t' d p rest ⟨hop, t₁, hleft, hright⟩ hlen hp hrest
  obtain ⟨hprec, -, hcases⟩ := Operator.levels_of_precedence? hop
  have hlevelsl := hleft.levels
  have hlevelsr := hright.levels
  have hp : p ≤ op.level := hp
  have hrest : Follows op.rightLevel rest := hrest
  have hlen : (enclose l.level op.leftLevel (l.tokens T)).length +
      ((enclose r.level op.rightLevel (r.tokens T)).length + 1) ≤ d := by
    simpa [Expr.tokens] using hlen
  rw [Expr.tokens, located_append, located_cons, List.append_assoc, List.cons_append]
  -- the operator ends the left operand
  have hpl : p ≤ op.leftLevel := by
    rcases hcases with ⟨rfl, -⟩ | ⟨hne, -⟩
    · exact Nat.le_trans hp (by decide)
    · rw [Operator.leftLevel, if_neg hne]
      exact hp
  have hendsl : op.leftLevel ≤ l.level → op.level < l.endLevel := by
    intro hle
    rcases hcases with ⟨rfl, hlevel⟩ | ⟨hne, hlevel⟩
    · have hle : 9 ≤ l.level := hle
      omega
    · rw [Operator.leftLevel, if_neg hne] at hle
      omega
  rw [hl.enclosed hleft (by omega) hpl fun hle => .of_operator hprec (hendsl hle)]
  -- and one round reads the right operand
  obtain ⟨d, rfl⟩ : ∃ k, d = k + 1 := ⟨d - 1, by omega⟩
  have hendsr : op.rightLevel ≤ r.level → op.rightLevel ≤ r.endLevel := by
    intro hle
    rcases hcases with ⟨rfl, -⟩ | ⟨hne, hlevel⟩
    · have hle : 7 ≤ r.level := hle
      show 7 ≤ r.endLevel
      omega
    · rw [Operator.rightLevel, if_neg hne] at hle ⊢
      omega
  have hread : binary sc (d + 1) (op.rightPrecedence op.level)
      ⟨located (enclose r.level op.rightLevel (r.tokens T)) ++ rest, t₁⟩ =
        .ok r ⟨rest, t'⟩ := by
    rw [rightPrecedence_eq hop, hr.enclosed hright (by omega) (Nat.le_refl _)
      fun hle => hrest.mono (hendsr hle), roundsFrom_of_follows hrest]
  have hchoice : climbing (binary sc (d + 1)) p
      ⟨⟨1, .operator op⟩ :: (located (enclose r.level op.rightLevel (r.tokens T)) ++
        rest), t₁⟩ =
        some (op, binary sc (d + 1) (op.rightPrecedence op.level)) := by
    rw [climbing, operatorAhead_eq_some.mpr ⟨rfl, hprec, hp⟩]
    rfl
  rw [roundsFrom_of_some (climbing_proper (takes_binary sc (d + 1)) p) hchoice]
  exact Action.bind_of_ok hread

/-- A sign. Its operand is read at the precedence of unary operators. -/
theorem readsBack_unary (op : Operator) (he : ReadsBack sc T e) :
    ReadsBack sc T (.unary op e) := by
  rintro t t' d p rest ⟨hop, hreads⟩ hlen hp hrest
  have hrest : Follows 7 rest := hrest
  have hlevels := hreads.levels
  have hlen : (enclose e.level 7 (e.tokens T)).length + 1 ≤ d := by
    simpa [Expr.tokens, unaryPrecedence] using hlen
  obtain ⟨d, rfl⟩ : ∃ k, d = k + 1 := ⟨d - 1, by omega⟩
  -- behind the sign nothing is ahead that belongs to its operand
  have hread : binary sc (d + 1) 7 ⟨located (enclose e.level 7 (e.tokens T)) ++ rest, t⟩ =
      .ok e ⟨rest, t'⟩ := by
    rw [he.enclosed hreads (by omega) (Nat.le_refl _) fun hle => hrest.mono (by omega),
      roundsFrom_of_follows hrest]
  refine binary_of_operand ?_
  rw [Expr.tokens, located_cons, List.cons_append]
  rcases hop with rfl | rfl
  · show (binary sc (d + 1) 7 >>= fun e => pure (Expr.unary .minus e))
      ⟨located (enclose e.level 7 (e.tokens T)) ++ rest, t⟩ = _
    exact Action.bind_of_ok hread
  · show (binary sc (d + 1) 7 >>= fun e => pure (Expr.unary .not e))
      ⟨located (enclose e.level 7 (e.tokens T)) ++ rest, t⟩ = _
    exact Action.bind_of_ok hread

/-- An expression without operators around it is an operand. -/
theorem readsBack_of_operand (h : ∀ {t t' d rest}, e.Reads T sc.inDefinition t t' →
    (e.tokens T).length ≤ d → Follows e.endLevel rest →
      operand sc (binary sc d) ⟨located (e.tokens T) ++ rest, t⟩ = .ok e ⟨rest, t'⟩) :
    ReadsBack sc T e :=
  fun _ _ _ _ _ hreads hlen _ hrest => binary_of_operand (h hreads hlen hrest)

theorem readsBack_literal (id : Nat) : ReadsBack sc T (.literal id) := by
  refine readsBack_of_operand ?_
  intro t t' d rest hreads _ _
  have hreads : t.addNumber (T.get id).value = (id, t') := hreads
  show EStateM.Result.ok (Expr.literal (t.addNumber (T.get id).value).1)
    (⟨rest, (t.addNumber (T.get id).value).2⟩ : ParseState) = _
  rw [hreads]

theorem readsBack_variable (id : Nat) : ReadsBack sc T (.variable id) := by
  refine readsBack_of_operand ?_
  rintro t t' d rest ⟨hplain, hresolve⟩ _ hrest
  show named sc (binary sc d 1) (T.get id).label ⟨rest, t⟩ = _
  rw [named_of_plain hplain, afterName_of_follows hrest hresolve]

/-- A step, in front of its name or behind it. -/
theorem readsBack_step (how : Step) (id : Nat) : ReadsBack sc T (.step how id) := by
  refine readsBack_of_operand ?_
  intro t t' d rest hreads _ _
  cases how with
  | preInc =>
    have hresolve : t.resolve (T.get id).label = (id, t') := hreads
    obtain ⟨hid, rfl⟩ := Prod.mk.inj hresolve
    exact congrArg (fun id => EStateM.Result.ok (Expr.step .preInc id) _) hid
  | preDec =>
    have hresolve : t.resolve (T.get id).label = (id, t') := hreads
    obtain ⟨hid, rfl⟩ := Prod.mk.inj hresolve
    exact congrArg (fun id => EStateM.Result.ok (Expr.step .preDec id) _) hid
  | postInc =>
    obtain ⟨hplain, hresolve⟩ : t.IsPlain (T.get id).label ∧
      t.resolve (T.get id).label = (id, t') := hreads
    obtain ⟨hid, rfl⟩ := Prod.mk.inj hresolve
    show named sc (binary sc d 1) (T.get id).label
      ⟨⟨1, .operator .increment⟩ :: rest, t⟩ = _
    rw [named_of_plain hplain]
    exact congrArg (fun id => EStateM.Result.ok (Expr.step .postInc id) _) hid
  | postDec =>
    obtain ⟨hplain, hresolve⟩ : t.IsPlain (T.get id).label ∧
      t.resolve (T.get id).label = (id, t') := hreads
    obtain ⟨hid, rfl⟩ := Prod.mk.inj hresolve
    show named sc (binary sc d 1) (T.get id).label
      ⟨⟨1, .operator .decrement⟩ :: rest, t⟩ = _
    rw [named_of_plain hplain]
    exact congrArg (fun id => EStateM.Result.ok (Expr.step .postDec id) _) hid

theorem readsBack_read (id : Nat) : ReadsBack sc T (.read id) := by
  refine readsBack_of_operand ?_
  intro t t' d rest hreads _ _
  have hresolve : t.resolve (T.get id).label = (id, t') := hreads
  obtain ⟨hid, rfl⟩ := Prod.mk.inj hresolve
  exact congrArg (fun id => EStateM.Result.ok (Expr.read id) _) hid

theorem checkArg_apply {n : Nat} {s : ParseState} (hin : sc.inDefinition = true)
    (hn : n ≠ 0) :
    checkArg sc n s = .ok () s := by
  simp only [checkArg, hin, Bool.not_true, if_neg hn]
  rfl

theorem readsBack_arg (n : Nat) : ReadsBack sc T (.arg n) := by
  refine readsBack_of_operand ?_
  rintro t t' d rest ⟨hin, hn, rfl⟩ _ _
  show (checkArg sc n >>= fun _ => skip >>= fun _ => pure (Expr.arg n))
    ⟨⟨1, .arg n⟩ :: rest, t'⟩ = _
  rw [Action.bind_of_ok (checkArg_apply hin hn)]
  rfl

/-- A built-in function and its argument, which the closing parenthesis ends. -/
theorem readsBack_builtin (id : Nat) (he : ReadsBack sc T e) :
    ReadsBack sc T (.builtin id e) := by
  refine readsBack_of_operand ?_
  rintro t t' d rest ⟨⟨hlookup, hkind⟩, hreads⟩ hlen _
  have hlen : (e.tokens T).length + 3 ≤ d := by
    simp only [Expr.tokens, List.length_append, List.length_cons, List.length_nil] at hlen
    omega
  have hinner : expression sc d ⟨located (e.tokens T) ++ ⟨1, .rightParen⟩ :: rest, t⟩ =
      .ok e ⟨⟨1, .rightParen⟩ :: rest, t'⟩ :=
    he.expression hreads (by omega) (.mark nofun nofun)
  rw [Expr.tokens, List.cons_append, List.cons_append, located_cons, located_cons,
    located_append]
  simp only [List.cons_append, List.append_assoc]
  show named sc (binary sc d 1) (T.get id).label
    ⟨⟨1, .leftParen⟩ :: (located (e.tokens T) ++ ⟨1, .rightParen⟩ :: rest), t⟩ = _
  rw [named_of_builtin hlookup hkind,
    Action.bind_of_ok (expect_apply fun _ => Token.noConfusion)]
  show (expression sc d >>= _) _ = _
  rw [Action.bind_of_ok hinner,
    Action.bind_of_ok (expect_apply fun _ => Token.noConfusion)]
  rfl

/-! ### Rows of expressions -/

/-- The further arguments of a call, each behind a comma. -/
theorem moreArguments_located {es : List Expr} (hes : ∀ e ∈ es, ReadsBack sc T e)
    (hreads : Expr.ReadsAll T sc.inDefinition es t t')
    (hlen : (Expr.restTokens T es).length ≤ d) {bound : List Located}
    (hbound : es.length < bound.length) :
    moreArguments sc (expression sc d) bound
      ⟨located (Expr.restTokens T es) ++ ⟨1, .rightParen⟩ :: rest, t⟩ =
        .ok es ⟨rest, t'⟩ := by
  induction es generalizing t bound with
  | nil =>
    cases hreads
    obtain ⟨b, bound, rfl⟩ := List.exists_cons_of_length_pos hbound
    rfl
  | cons e es ih =>
    obtain ⟨t₁, he, hreads⟩ := hreads
    obtain ⟨b, bound, rfl⟩ := List.exists_cons_of_length_pos (Nat.zero_lt_of_lt hbound)
    have hlen : (e.tokens T).length + (Expr.restTokens T es).length + 1 ≤ d := by
      simpa [Expr.restTokens] using hlen
    -- a comma or the closing parenthesis ends the expression
    have hfollows : Follows 1 (located (Expr.restTokens T es) ++
        ⟨1, .rightParen⟩ :: rest) := by
      cases es <;> exact .mark nofun nofun
    have hfirst := (hes e List.mem_cons_self).expression he (show _ < d by omega) hfollows
    have hrest := ih (fun e he => hes e (List.mem_cons_of_mem _ he)) hreads (by omega)
      (Nat.lt_of_succ_lt_succ hbound)
    rw [Expr.restTokens, List.cons_append, located_cons, located_append, List.cons_append,
      List.append_assoc]
    show (expression sc d >>= fun e => moreArguments sc (expression sc d) bound >>=
      fun es =>
      pure (e :: es)) ⟨located (e.tokens T) ++ _, t⟩ = _
    rw [Action.bind_of_ok hfirst, Action.bind_of_ok hrest]
    rfl

/-- The arguments of a call. -/
theorem arguments_located {es : List Expr} (hes : ∀ e ∈ es, ReadsBack sc T e)
    (hreads : Expr.ReadsAll T sc.inDefinition es t t')
    (hlen : (Expr.rowTokens T es).length < d) :
    arguments sc (expression sc d)
      ⟨⟨1, .leftParen⟩ :: (located (Expr.rowTokens T es) ++ ⟨1, .rightParen⟩ :: rest),
        t⟩ =
        .ok es ⟨rest, t'⟩ := by
  rw [arguments, Action.bind_of_ok (expect_apply fun _ => Token.noConfusion)]
  cases es with
  | nil =>
    cases hreads
    rfl
  | cons e es =>
    obtain ⟨t₁, he, hreads⟩ := hreads
    have hlen : (e.tokens T).length + (Expr.restTokens T es).length < d := by
      simpa [Expr.rowTokens] using hlen
    have hfollows : Follows 1 (located (Expr.restTokens T es) ++
        ⟨1, .rightParen⟩ :: rest) := by
      cases es <;> exact .mark nofun nofun
    have hfirst := (hes e List.mem_cons_self).expression he (show _ < d by omega) hfollows
    let more := located (Expr.restTokens T es) ++ ⟨1, .rightParen⟩ :: rest
    have hbound : es.length < more.length := by
      have hle := Expr.length_le_restTokens T es
      rw [List.length_append, located, List.length_map, List.length_cons]
      omega
    have hmore : moreArguments sc (expression sc d) more ⟨more, t₁⟩ = .ok es ⟨rest, t'⟩ :=
      moreArguments_located (fun e he => hes e (List.mem_cons_of_mem _ he)) hreads
        (by omega) hbound
    have hall : (expression sc d >>= fun e => ahead >>= fun bound =>
        moreArguments sc (expression sc d) bound >>= fun es => pure (e :: es))
        ⟨located (e.tokens T) ++
          (located (Expr.restTokens T es) ++ ⟨1, .rightParen⟩ :: rest), t⟩ =
          .ok (e :: es) ⟨rest, t'⟩ := by
      rw [Action.bind_of_ok hfirst]
      exact Action.bind_of_ok hmore
    -- an expression does not start with a closing parenthesis
    obtain ⟨tok, us, htokens, htok⟩ := e.exists_head he
    rw [Expr.rowTokens, located_append, List.append_assoc, htokens]
    rw [htokens] at hall
    cases tok
    case rightParen => exact nomatch htok
    all_goals exact hall

/-- A call of a function. -/
theorem readsBack_call (id : Nat) {es : List Expr} (hes : ∀ e ∈ es, ReadsBack sc T e) :
    ReadsBack sc T (.call id es) := by
  refine readsBack_of_operand ?_
  rintro t t' d rest ⟨⟨hlookup, hkind⟩, hreads⟩ hlen _
  have hlen : (Expr.rowTokens T es).length + 3 ≤ d := by
    simp only [Expr.tokens, List.length_append, List.length_cons, List.length_nil] at hlen
    omega
  have hargs : arguments sc (expression sc d)
      ⟨⟨1, .leftParen⟩ :: (located (Expr.rowTokens T es) ++ ⟨1, .rightParen⟩ :: rest),
        t⟩ =
        .ok es ⟨rest, t'⟩ := arguments_located hes hreads (by omega)
  rw [Expr.tokens, List.cons_append, List.cons_append, located_cons, located_cons,
    located_append]
  simp only [List.cons_append, List.append_assoc]
  show named sc (expression sc d) (T.get id).label
    ⟨⟨1, .leftParen⟩ :: (located (Expr.rowTokens T es) ++ ⟨1, .rightParen⟩ :: rest), t⟩ =
      _
  rw [named_of_function hlookup hkind, Action.bind_of_ok hargs]
  rfl

end

mutual

/-- Every expression is read back from its tokens. -/
theorem readsBack (sc : Scope) (T : SymbolTable) : ∀ e : Expr, ReadsBack sc T e
  | .literal id => readsBack_literal id
  | .variable id => readsBack_variable id
  | .text _ => fun _ _ _ _ _ hreads => hreads.elim
  | .binary op l r => readsBack_binary op (readsBack sc T l) (readsBack sc T r)
  | .unary op e => readsBack_unary op (readsBack sc T e)
  | .builtin id e => readsBack_builtin id (readsBack sc T e)
  | .step how id => readsBack_step how id
  | .call id es => readsBack_call id (readsBack_all sc T es)
  | .arg n => readsBack_arg n
  | .read id => readsBack_read id

theorem readsBack_all (sc : Scope) (T : SymbolTable) :
    ∀ es : List Expr, ∀ e ∈ es, ReadsBack sc T e
  | [] => nofun
  | e :: es => List.forall_mem_cons.mpr ⟨readsBack sc T e, readsBack_all sc T es⟩

end

end Parser

end StackCalc
