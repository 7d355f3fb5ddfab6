import StackCalc.Parser.Stmt
import StackCalc.Proofs.Action

/-!
# How parsers use up tokens

`Parser.Takes n k p` says how a parser goes through the tokens ahead of it: it
puts none back, takes at least `k` of them if it succeeds, and fails for depth
only if there are `n` or more. An expression that may nest `n` levels deep is
such a parser with `k = 1` (`Parser.takes_binary`), because every level further
in starts behind a token of its own. So the limit on levels is of no concern to
a text that has fewer tokens than levels. A statement takes a token too and
needs one level more (`Parser.takes_statement`), and so does a program
(`Parser.takes_programItems`).

Parsers that look at the token ahead and then skip it are followed with
`TakesAhead`, which is the same for states in which there is one.
-/

namespace StackCalc

namespace Parser

variable {α β : Type}

/-! ### Results -/

/-- A failure because statements or expressions nest too deeply. -/
def TooDeep : EStateM.Result Fault ParseState α → Prop
  | .ok _ _ => False
  | .error f _ => f.kind = .nestedTooDeeply

/-- What a parser that started with `len` tokens ahead leaves of them. -/
def Left (n k len : Nat) : EStateM.Result Fault ParseState α → Prop
  | .ok _ s => s.tokens.length + k ≤ len
  | .error f s => s.tokens.length ≤ len ∧ (f.kind = .nestedTooDeeply → n ≤ len)

/-- With fewer tokens than levels nothing is too deep. -/
theorem Left.not_tooDeep {n k len : Nat} {r : EStateM.Result Fault ParseState α}
    (h : Left n k len r) (hlen : len < n) : ¬ TooDeep r := by
  cases r with
  | ok a s => exact id
  | error f s => exact fun hdeep => absurd (h.2 hdeep) (Nat.not_le.mpr hlen)

/-- A parser that takes at least `k` tokens if it succeeds, and fails for depth
only if there are `n`. -/
def Takes (n k : Nat) (p : Parser α) : Prop :=
  ∀ s, Left n k s.tokens.length (p s)

/-- The same for states in which there is a token ahead. -/
def TakesAhead (n k : Nat) (p : Parser α) : Prop :=
  ∀ s, s.tokens ≠ [] → Left n k s.tokens.length (p s)

variable {n k j : Nat}

theorem Takes.ahead {p : Parser α} (h : Takes n k p) : TakesAhead n k p :=
  fun s _ => h s

/-- A sequence takes what its parts take together, and puts nothing back in
between. -/
theorem Left.bind {p : Parser α} {f : α → Parser β} {s : ParseState}
    (hp : Left n j s.tokens.length (p s)) (hf : ∀ a, Takes n k (f a)) :
    Left n (j + k) s.tokens.length ((p >>= f) s) := by
  rw [Action.bind_apply]
  cases hrun : p s with
  | error e s' =>
    rw [hrun] at hp
    exact hp
  | ok a s' =>
    rw [hrun] at hp
    have hlen : s'.tokens.length + j ≤ s.tokens.length := hp
    have hsecond := hf a s'
    show Left n (j + k) s.tokens.length (f a s')
    cases hrest : f a s' with
    | error e s'' =>
      rw [hrest] at hsecond
      refine ⟨Nat.le_trans hsecond.1 (by omega), fun hdeep => ?_⟩
      exact Nat.le_trans (hsecond.2 hdeep) (by omega)
    | ok b s'' =>
      rw [hrest] at hsecond
      have hlen' : s''.tokens.length + k ≤ s'.tokens.length := hsecond
      show s''.tokens.length + (j + k) ≤ s.tokens.length
      omega

theorem Takes.bind {p : Parser α} {f : α → Parser β} (hp : Takes n j p)
    (hf : ∀ a, Takes n k (f a)) : Takes n (j + k) (p >>= f) :=
  fun s => (hp s).bind hf

theorem Left.mono {len : Nat} {r : EStateM.Result Fault ParseState α}
    (h : Left n k len r) {n' k' : Nat} (hn : n' ≤ n) (hk : k' ≤ k) :
    Left n' k' len r := by
  cases r with
  | ok a s => exact Nat.le_trans (Nat.add_le_add_left hk _) h
  | error f s => exact ⟨h.1, fun hdeep => Nat.le_trans hn (h.2 hdeep)⟩

/-- A sequence takes what its first part takes. -/
theorem Takes.before {p : Parser α} {f : α → Parser β} (hp : Takes n k p)
    (hf : ∀ a, Takes n j (f a)) : Takes n k (p >>= f) :=
  fun s => (hp.bind hf s).mono (Nat.le_refl n) (Nat.le_add_right k j)

theorem TakesAhead.before {p : Parser α} {f : α → Parser β} (hp : TakesAhead n k p)
    (hf : ∀ a, Takes n j (f a)) : TakesAhead n k (p >>= f) :=
  fun s hs => ((hp s hs).bind hf).mono (Nat.le_refl n) (Nat.le_add_right k j)

/-- A sequence takes what its second part takes. -/
theorem Takes.andThen {p : Parser α} {f : α → Parser β} (hp : Takes n j p)
    (hf : ∀ a, Takes n k (f a)) : Takes n k (p >>= f) :=
  fun s => (hp.bind hf s).mono (Nat.le_refl n) (Nat.le_add_left k j)

/-- A parser that may just as well take nothing. -/
theorem Takes.loose {p : Parser α} (h : Takes n k p) : Takes n 0 p :=
  fun s => (h s).mono (Nat.le_refl n) (Nat.zero_le k)

theorem TakesAhead.loose {p : Parser α} (h : TakesAhead n k p) : TakesAhead n 0 p :=
  fun s hs => (h s hs).mono (Nat.le_refl n) (Nat.zero_le k)

theorem takes_pure (a : α) : Takes n 0 (pure a) :=
  fun _ => Nat.le_refl _

/-- A parser whose result is a function of that of another one. -/
theorem Takes.map {p : Parser α} (hp : Takes n k p) (f : α → β) :
    Takes n k (p >>= fun a => pure (f a)) :=
  hp.before fun _ => takes_pure _

/-- A fault that is not one for depth. -/
theorem takes_fail (sc : Scope) {kind : FaultKind} (note : String)
    (h : kind ≠ .nestedTooDeeply) :
    Takes n k (fail sc kind note : Parser α) :=
  fun _ => ⟨Nat.le_refl _, fun hdeep => absurd hdeep h⟩

theorem takes_malformed (sc : Scope) (note : String) :
    Takes n k (malformed sc note : Parser α) :=
  takes_fail sc note (by decide)

/-! ### Single tokens -/

/-- A parser that looks at the token ahead goes on knowing whether there is one. -/
theorem takes_peek {f : Option Token → Parser α} (hnone : Takes n k (f none))
    (hsome : ∀ t, TakesAhead n k (f (some t))) : Takes n k (peek >>= f) := by
  intro s
  show Left n k s.tokens.length (f (s.tokens.head?.map Located.token) s)
  rcases s with ⟨_ | ⟨t, ts⟩, symbols⟩
  · exact hnone _
  · exact hsome t.token _ (List.cons_ne_nil t ts)

/-- Skipping a token leaves one less, so what follows may nest one level less. -/
theorem takesAhead_skip {g : Unit → Parser α} (h : Takes n j (g ())) :
    TakesAhead (n + 1) 1 (skip >>= g) := by
  rintro ⟨_ | ⟨t, ts⟩, symbols⟩ hs
  · exact absurd rfl hs
  · have hrest := h ⟨ts, symbols⟩
    show Left (n + 1) 1 (ts.length + 1) (g () ⟨ts, symbols⟩)
    cases hrun : g () ⟨ts, symbols⟩ with
    | error e s' =>
      rw [hrun] at hrest
      exact ⟨Nat.le_succ_of_le hrest.1, fun hdeep => Nat.succ_le_succ (hrest.2 hdeep)⟩
    | ok a s' =>
      rw [hrun] at hrest
      have hlen : s'.tokens.length + j ≤ ts.length := hrest
      exact Nat.succ_le_succ (Nat.le_trans (Nat.le_add_right _ j) hlen)

/-- Skipping a token where what follows cannot be too deep for want of one level. -/
theorem takesAhead_skip_same {g : Unit → Parser α} (h : Takes n j (g ())) :
    TakesAhead n 1 (skip >>= g) :=
  fun s hs => (takesAhead_skip h s hs).mono (Nat.le_succ n) (Nat.le_refl 1)

theorem takes_ahead : Takes n 0 ahead :=
  fun _ => Nat.le_refl _

theorem takes_symbols : Takes n 0 symbols :=
  fun _ => Nat.le_refl _

theorem takes_addSymbol (f : SymbolTable → Nat × SymbolTable) : Takes n 0 (addSymbol f) :=
  fun _ => Nat.le_refl _

theorem takes_resolve (name : String) : Takes n 0 (resolve name) :=
  takes_addSymbol _

theorem takes_unexpected (sc : Scope) : Takes n k (unexpected sc : Parser α) := by
  refine takes_peek (takes_malformed sc _) fun t => Takes.ahead ?_
  cases t
  case unknown => exact takes_fail sc _ (by decide)
  all_goals exact takes_malformed sc _

/-- The token that is expected is taken. -/
theorem takes_expect (sc : Scope) (tok : Token) : Takes n 1 (expect sc tok) := by
  have hskip : TakesAhead n 1 skip := takesAhead_skip_same (takes_pure ())
  refine takes_peek (takes_malformed sc _) fun t => ?_
  cases t
  case unknown => exact (takes_unexpected sc).ahead
  all_goals
    dsimp only
    split
    · exact hskip
    · exact (takes_malformed sc _).ahead

theorem takes_ident (sc : Scope) : Takes n 1 (ident sc) := by
  refine takes_peek (takes_malformed sc _) fun t => ?_
  cases t
  case ident name => exact takesAhead_skip_same (takes_pure name)
  all_goals exact (takes_malformed sc _).ahead

/-- A check of an argument leaves the token ahead where it is. -/
theorem takesAhead_checkArg (sc : Scope) (i : Nat) {g : Unit → Parser α}
    (h : TakesAhead n k (g ())) : TakesAhead n k (checkArg sc i >>= g) := by
  intro s hs
  unfold checkArg
  split
  · exact ⟨Nat.le_refl _, nofun⟩
  · split
    · exact ⟨Nat.le_refl _, nofun⟩
    · exact h s hs

/-! ### Operands -/

section

variable {sc : Scope} {expression : Parser Expr} (hexpr : Takes n 1 expression)

include hexpr

/-- The further arguments take the closing parenthesis at least. -/
theorem takes_moreArguments (bound : List Located) :
    Takes n 1 (moreArguments sc expression bound) := by
  induction bound with
  | nil => exact takes_malformed sc _
  | cons _ bound ih =>
    refine takes_peek (takes_malformed sc _) fun t => ?_
    cases t
    case rightParen => exact takesAhead_skip_same (takes_pure [])
    case comma =>
      exact takesAhead_skip_same (hexpr.before fun e => ih.map fun es => e :: es)
    all_goals exact (takes_malformed sc _).ahead

theorem takes_arguments : Takes n 1 (arguments sc expression) := by
  have hitems : Takes n 1 (expression >>= fun e => ahead >>= fun bound =>
      moreArguments sc expression bound >>= fun es => pure (e :: es)) :=
    hexpr.before fun e => takes_ahead.andThen fun bound =>
      (takes_moreArguments hexpr bound).map fun es => e :: es
  refine (takes_expect sc _).before fun _ => takes_peek hitems fun t => ?_
  cases t
  case rightParen => exact takesAhead_skip_same (takes_pure [])
  all_goals exact hitems.ahead

/-- A plain use of a name, or a step behind it. -/
def plainUse (id : Nat) : Parser Expr := do
  match ← peek with
  | some (.operator .increment) =>
    skip
    return .step .postInc id
  | some (.operator .decrement) =>
    skip
    return .step .postDec id
  | _ => return .variable id

/-- What a name starts need not take another token. -/
theorem takes_named (name : String) : Takes n 0 (named sc expression name) := by
  refine takes_symbols.andThen fun t => ?_
  dsimp only
  split
  case h_1 id _ _ =>
    exact ((takes_expect sc _).before fun _ => hexpr.before fun e =>
      (takes_expect sc _).map fun _ => Expr.builtin id e).loose
  case h_2 id _ _ => exact ((takes_arguments hexpr).map fun es => Expr.call id es).loose
  case h_3 => exact takes_malformed sc _
  case h_4 =>
    have huse : Takes n 0 (resolve name >>= plainUse) := by
      refine (takes_resolve name).andThen fun id => takes_peek (takes_pure _) fun t => ?_
      have hstep : ∀ how, TakesAhead n 1 (skip >>= fun _ => pure (Expr.step how id)) :=
        fun how =>
        takesAhead_skip_same (takes_pure _)
      split
      · exact (hstep .postInc).loose
      · exact (hstep .postDec).loose
      · exact (takes_pure _).ahead
    refine takes_peek huse fun t => ?_
    cases t
    case leftParen => exact (takes_malformed sc _).ahead
    all_goals exact huse.ahead

/-- Inside an operand an expression starts behind a token, so it may nest one
level less. -/
theorem takes_primary : Takes (n + 1) 1 (primary sc expression) := by
  have hstep : ∀ how, TakesAhead (n + 1) 1 (skip >>= fun _ => ident sc >>= fun name =>
      resolve name >>= fun id => pure (Expr.step how id)) := fun how =>
    takesAhead_skip ((takes_ident sc).before fun name =>
      (takes_resolve name).map fun id => Expr.step how id)
  refine takes_peek (takes_unexpected sc) fun t => ?_
  cases t
  case number x =>
    exact takesAhead_skip ((takes_addSymbol _).map fun id => Expr.literal id)
  case leftParen =>
    exact takesAhead_skip (hexpr.before fun e => (takes_expect sc _).map fun _ => e)
  case ident name => exact takesAhead_skip (takes_named hexpr name)
  case arg i => exact takesAhead_checkArg sc i (takesAhead_skip (takes_pure _))
  case keyword word =>
    cases word
    case readKw =>
      exact takesAhead_skip ((takes_expect sc _).before fun _ => (takes_ident sc).before
        fun name => (takes_expect sc _).before fun _ =>
          (takes_resolve name).map fun id => Expr.read id)
    all_goals exact (takes_unexpected sc).ahead
  case operator op =>
    cases op
    case increment => exact hstep .preInc
    case decrement => exact hstep .preDec
    all_goals exact (takes_unexpected sc).ahead
  all_goals exact (takes_unexpected sc).ahead

end

/-! ### Operators -/

section

variable {sc : Scope} {binary : Nat → Parser Expr} (hbinary : ∀ p, Takes n 1 (binary p))

include hbinary

/-- A sign is a token, so what follows it may nest one level less. -/
theorem takes_operand : Takes (n + 1) 1 (operand sc binary) := by
  have hprimary : Takes (n + 1) 1 (primary sc (binary 1)) := takes_primary (hbinary 1)
  refine takes_peek hprimary fun t => ?_
  cases t
  case operator op =>
    cases op
    case minus =>
      exact takesAhead_skip ((hbinary unaryPrecedence).map fun e => Expr.unary .minus e)
    case not =>
      exact takesAhead_skip ((hbinary unaryPrecedence).map fun e => Expr.unary .not e)
    all_goals exact hprimary.ahead
  all_goals exact hprimary.ahead

/-- So is an operator, and its right side may nest one level less. -/
theorem takes_climb (least : Nat) (bound : List Located) (lhs : Expr) :
    Takes (n + 1) 0 (climb binary least bound lhs) := by
  induction bound generalizing lhs with
  | nil => exact takes_pure lhs
  | cons _ bound ih =>
    refine takes_peek (takes_pure lhs) fun t => ?_
    cases t
    case operator op =>
      dsimp only
      split
      case h_1 p _ =>
        split
        · have hrest : ∀ rhs, Takes n 0 (climb binary least bound (.binary op lhs rhs)) :=
            fun rhs s => (ih _ s).mono (Nat.le_succ n) (Nat.le_refl 0)
          exact (takesAhead_skip ((hbinary _).before hrest)).loose
        · exact (takes_pure lhs).ahead
      case h_2 => exact (takes_pure lhs).ahead
    all_goals exact (takes_pure lhs).ahead

end

/-- An expression takes a token, and no text with fewer tokens than levels is
too deep for it. -/
theorem takes_binary (sc : Scope) (depth least : Nat) :
    Takes depth 1 (binary sc depth least) := by
  -- operands and right sides start behind a token and have one level less
  induction depth generalizing least with
  | zero => exact fun _ => ⟨Nat.le_refl _, fun _ => Nat.zero_le _⟩
  | succ depth ih =>
    exact (takes_operand ih).before fun lhs => takes_ahead.andThen fun bound =>
      takes_climb ih least bound lhs

/-! ### Statements -/

theorem Takes.mono {p : Parser α} (h : Takes n k p) {n' : Nat} (hn : n' ≤ n) :
    Takes n' k p :=
  fun s => (h s).mono hn (Nat.le_refl k)

theorem takes_look : Takes n 0 peek :=
  fun _ => Nat.le_refl _

theorem takes_peekSecond : Takes n 0 peekSecond :=
  fun _ => Nat.le_refl _

theorem takes_skip : Takes n 0 skip := by
  intro s
  show s.tokens.tail.length ≤ s.tokens.length
  rw [List.length_tail]
  exact Nat.sub_le _ _

theorem takes_checkArg (sc : Scope) (i : Nat) : Takes n 0 (checkArg sc i) := by
  unfold checkArg
  split
  · exact takes_fail sc _ (by decide)
  · split
    · exact takes_malformed sc _
    · exact takes_pure ()

theorem takes_terminator : Takes n 0 terminator := by
  refine takes_look.andThen fun t => ?_
  split
  · exact takes_skip
  · exact takes_pure ()

/-- The end of a statement takes no token that has to be there. -/
theorem takes_ending (s : Stmt) : Takes n 0 (terminator >>= fun _ => pure [s]) :=
  takes_terminator.andThen fun _ => takes_pure [s]

theorem takes_terminated {p : Parser Stmt} (hp : Takes n 1 p) :
    Takes n 1 (terminated p) :=
  hp.before takes_ending

theorem TakesAhead.terminated {p : Parser Stmt} (hp : TakesAhead n 1 p) :
    TakesAhead n 1 (terminated p) :=
  hp.before takes_ending

section

variable {sc : Scope} {expression : Parser Expr} (hexpr : Takes n 1 expression)

include hexpr

/-- An assignment or an expression takes a token. -/
theorem takes_simple : Takes n 1 (simple sc expression) := by
  refine takes_look.andThen fun first => takes_peekSecond.andThen fun second => ?_
  split
  · split
    · exact takes_skip.andThen fun _ => takes_skip.andThen fun _ =>
        (takes_resolve _).andThen fun _ =>
        hexpr.map _
    · exact hexpr.map _
  · exact (takes_checkArg sc _).andThen fun _ => takes_skip.andThen fun _ =>
      takes_skip.andThen fun _ =>
      hexpr.map _
  · exact hexpr.map _

theorem takes_condition : Takes n 1 (condition sc expression) :=
  (takes_expect sc _).before fun _ => hexpr.before fun e =>
    (takes_expect sc _).map fun _ => e

theorem takes_printItem : Takes n 1 (printItem expression) := by
  refine takes_peek hexpr fun t => ?_
  cases t
  case text s => exact takesAhead_skip_same ((takes_addSymbol _).map _)
  all_goals exact hexpr.ahead

/-- Further items may be missing. -/
theorem takes_morePrintItems (bound : List Located) :
    Takes n 0 (morePrintItems expression bound) := by
  induction bound with
  | nil => exact takes_pure []
  | cons _ bound ih =>
    refine takes_look.andThen fun t => ?_
    split
    · exact takes_skip.andThen fun _ => (takes_printItem hexpr).loose.andThen fun e =>
        ih.map _
    · exact takes_pure []

theorem takes_printItems : Takes n 1 (printItems expression) :=
  (takes_printItem hexpr).before fun _ => takes_ahead.andThen fun bound =>
    (takes_morePrintItems hexpr bound).map _

theorem takesAhead_returnStmt : TakesAhead n 1 (returnStmt sc expression) := by
  unfold returnStmt
  split
  · exact (takes_fail sc _ (by decide)).ahead
  · refine takesAhead_skip_same (takes_look.andThen fun t => (?_ : Takes n 0 _))
    split
    case h_4 | h_6 => exact (hexpr.map _).loose
    all_goals exact takes_pure _

/-- A statement that starts with a name takes a token. -/
theorem takes_namedStmt (name : String) : Takes n 1 (namedStmt sc expression name) := by
  refine takes_peekSecond.andThen fun t => ?_
  split
  · refine takes_symbols.andThen fun table => ?_
    split
    · split
      · exact takes_skip.andThen fun _ => (takes_arguments hexpr).map _
      · exact takes_simple hexpr
    · exact takes_simple hexpr
  · exact takes_simple hexpr

end

section

variable {sc : Scope} {expression : Parser Expr} {statement : Parser (List Stmt)}
  (hexpr : Takes n 1 expression) (hstmt : Takes n 1 statement)

include hstmt

/-- A block takes its closing brace. -/
theorem takes_blockItems (bound : List Located) :
    Takes n 1 (blockItems sc statement bound) := by
  induction bound with
  | nil => exact takes_malformed sc _
  | cons _ bound ih =>
    refine takes_peek (takes_malformed sc _) fun t => ?_
    have hfirst : Takes n 1 (statement >>= fun first => blockItems sc statement bound >>=
        fun rest =>
        pure (first ++ rest)) := hstmt.before fun first => ih.map _
    cases t
    case rightBrace => exact takesAhead_skip_same (takes_pure [])
    case semicolon => exact takesAhead_skip_same ih
    all_goals exact hfirst.ahead

include hexpr

/-- What stands inside a loop or a branch starts behind a keyword, so it may
nest one level less. -/
theorem takesAhead_forStmt : TakesAhead (n + 1) 1 (forStmt sc expression statement) :=
  takesAhead_skip ((takes_expect sc _).before fun _ =>
    (takes_simple hexpr).before fun _ =>
    (takes_expect sc _).before fun _ => hexpr.before fun _ =>
      (takes_expect sc _).before fun _ =>
      (takes_simple hexpr).before fun _ => (takes_expect sc _).before fun _ =>
        hstmt.map _)

/-- A `while` loop takes its keyword. -/
theorem takesAhead_whileLoop :
    TakesAhead (n + 1) 1 (skip >>= fun _ => condition sc expression >>= fun cond =>
      statement >>= fun body => pure (Stmt.whileLoop cond body)) :=
  takesAhead_skip ((takes_condition hexpr).before fun _ => hstmt.map _)

theorem takesAhead_ifStmt : TakesAhead (n + 1) 1 (ifStmt sc expression statement) := by
  refine takesAhead_skip ((takes_condition hexpr).before fun cond =>
    hstmt.before fun body =>
    (takes_look.andThen fun t => ?_ : Takes n 0 _))
  split
  · exact takes_skip.andThen fun _ => (hstmt.map _).loose
  · exact takes_pure _

end

/-- The expressions of a statement may start with it, the statements inside
start behind a token. -/
theorem takes_anyStatement {sc : Scope} {expression : Parser Expr}
    {statement : Parser (List Stmt)} (hexpr : Takes n 1 expression)
    (hstmt : Takes (n - 1) 1 statement) :
    Takes n 1 (anyStatement sc expression statement) := by
  have hinner : Takes (n - 1) 1 expression := hexpr.mono (Nat.sub_le n 1)
  have hbehind : ∀ {α : Type} {p : Parser α},
      TakesAhead (n - 1 + 1) 1 p → TakesAhead n 1 p :=
    fun h s hs => (h s hs).mono (by omega) (Nat.le_refl 1)
  have hsimple : Takes n 1 (terminated (simple sc expression)) :=
    takes_terminated (takes_simple hexpr)
  refine takes_peek hsimple fun t => ?_
  cases t
  case leftBrace =>
    exact hbehind
      (takesAhead_skip (takes_ahead.andThen fun bound => takes_blockItems hstmt bound))
  case keyword word =>
    cases word
    case printKw =>
      exact (takes_terminated (takes_skip.andThen fun _ =>
        (takes_printItems hexpr).map _)).ahead
    case whileKw => exact (hbehind (takesAhead_whileLoop hinner hstmt)).terminated
    case forKw =>
      exact (hbehind (takesAhead_forStmt hinner hstmt)).before fun _ => takes_pure _
    case ifKw =>
      exact (hbehind (takesAhead_ifStmt hinner hstmt)).before fun _ => takes_pure _
    case returnKw => exact (takesAhead_returnStmt hexpr).terminated
    case readKw => exact hsimple.ahead
    all_goals exact (takes_unexpected sc).ahead
  case ident name => exact (takes_terminated (takes_namedStmt hexpr name)).ahead
  all_goals exact hsimple.ahead

/-- A statement takes a token. It needs one level more than an expression, since
it may be one. -/
theorem takes_statement (sc : Scope) (depth : Nat) :
    Takes (depth - 1) 1 (statement sc depth) := by
  induction depth with
  | zero => exact fun _ => ⟨Nat.le_refl _, fun _ => Nat.zero_le _⟩
  | succ depth ih => exact takes_anyStatement (takes_binary sc depth 1) ih

/-! ### Programs -/

/-- A definition takes its keyword. -/
theorem takesAhead_definition (sc : Scope) (kind : DefinitionKind) (depth : Nat) :
    TakesAhead (depth - 1) 1 (definition sc kind depth) := by
  refine takesAhead_skip_same ((takes_ident sc).loose.andThen fun name =>
    (?_ : Takes _ 0 _))
  refine (takes_resolve name).andThen fun id => takes_symbols.andThen fun t =>
    (?_ : Takes _ 0 _)
  split
  · exact takes_malformed sc _
  · have hrest : Takes (depth - 1) 1
        (expect sc .leftParen >>= fun _ => expect sc .rightParen >>=
        fun _ => statement { sc with inDefinition := true } depth >>= fun body =>
          pure (Stmt.define kind id body)) :=
      (takes_expect sc _).before fun _ => (takes_expect sc _).before fun _ =>
        (takes_statement _ depth).map _
    exact Takes.andThen (fun _ => Nat.le_refl _ : Takes _ 0 (modify _)) fun _ =>
      hrest.loose

/-- No program with fewer tokens than levels, but for one level, is too deep. -/
theorem takes_programItems (sc : Scope) (depth : Nat) (bound : List Located) :
    Takes (depth - 1) 0 (programItems sc depth bound) := by
  induction bound with
  | nil => exact takes_pure []
  | cons _ bound ih =>
    have hdefinition : ∀ kind,
        TakesAhead (depth - 1) 0 (definition sc kind depth >>= fun d =>
        programItems sc depth bound >>= fun rest => pure (d :: rest)) := fun kind =>
      ((takesAhead_definition sc kind depth).before fun _ => ih.map _).loose
    have hstatement : TakesAhead (depth - 1) 0 (statement sc depth >>= fun first =>
        programItems sc depth bound >>= fun rest => pure (first ++ rest)) :=
      ((takes_statement sc depth).ahead.before fun _ => ih.map _).loose
    refine takes_peek (takes_pure []) fun t => ?_
    cases t
    case semicolon => exact (takesAhead_skip_same ih).loose
    case keyword word =>
      cases word
      case funcKw => exact hdefinition .function
      case procKw => exact hdefinition .procedure
      all_goals exact hstatement
    all_goals exact hstatement

/-- With a round for each token, a program is read up to the end. -/
theorem tokens_of_programItems {sc : Scope} {depth : Nat} {bound : List Located}
    {s s' : ParseState} {ss : List Stmt} (hlen : s.tokens.length ≤ bound.length)
    (h : programItems sc depth bound s = .ok ss s') : s'.tokens = [] := by
  induction bound generalizing s ss with
  | nil =>
    cases h
    exact List.eq_nil_of_length_eq_zero (Nat.le_zero.mp hlen)
  | cons _ bound ih =>
    -- what stands at the front takes a token, so the rounds are enough for the
    -- rest
    have hrest : ∀ {α : Type} {n : Nat} {p : Parser α} {f : α → List Stmt → List Stmt},
        TakesAhead n 1 p → s.tokens ≠ [] →
        (p >>= fun a => programItems sc depth bound >>= fun rest => pure (f a rest)) s =
          .ok ss s' →
        s'.tokens = [] := by
      intro α n p f hp hs hrun
      obtain ⟨a, s₁, hfirst, hrun⟩ := Action.of_bind_ok hrun
      obtain ⟨rest, s₂, hrest, hpure⟩ := Action.of_bind_ok hrun
      cases hpure
      have htakes := hp s hs
      rw [hfirst] at htakes
      have hless : s₁.tokens.length + 1 ≤ s.tokens.length := htakes
      exact ih (Nat.le_of_succ_le_succ (Nat.le_trans hless hlen)) hrest
    have hpeek : peek s = .ok (s.tokens.head?.map Located.token) s := rfl
    rw [programItems, Action.bind_of_ok hpeek] at h
    cases htokens : s.tokens with
    | nil =>
      rw [htokens] at h
      cases h
      exact htokens
    | cons l ls =>
      have hs : s.tokens ≠ [] := htokens ▸ List.cons_ne_nil l ls
      have hfront : s.tokens.head?.map Located.token = some l.token := by
        rw [htokens, List.head?_cons, Option.map_some]
      rw [hfront] at h
      have hstatement := (takes_statement sc depth).ahead
      cases htoken : l.token
      all_goals rw [htoken] at h
      case semicolon =>
        refine ih (s := { s with tokens := s.tokens.tail }) ?_ h
        rw [List.length_tail]
        exact Nat.sub_le_of_le_add hlen
      case keyword word =>
        cases word
        case funcKw | procKw => exact hrest (takesAhead_definition sc _ depth) hs h
        all_goals exact hrest hstatement hs h
      all_goals exact hrest hstatement hs h

end Parser

end StackCalc
