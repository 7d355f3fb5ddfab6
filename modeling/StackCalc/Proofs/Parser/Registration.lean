import StackCalc.Proofs.Parser.Composition
import StackCalc.Proofs.Parser.Reading

/-!
# The order in which symbols are registered

Parsers add symbols in many places, some of them well behind the token that the
symbol stands for. All the same a text that can be read registers its symbols in
the order of its tokens: `Register.add` says what one token does, and reading a
text is a fold of it (`Parser.Registers`). The symbols in the tree that is read
are those of the tokens, from left to right (`Stmt.allIds`).

In `Parser.RegistersAhead ids owed ts p view` the tokens `owed` have been left
behind, but their symbols are registered by `p`; `ids` are the symbols of the
tokens before them, which belong to the same phrase.
-/

namespace StackCalc

/-! ### Registering tokens -/

/-- The symbols known so far, what the token before started the definition of,
and the places of the symbols that the tokens stood for. -/
structure Register where
  symbols : SymbolTable
  defining : Option DefinitionKind
  ids : List Nat

namespace Register

/-- Registers the next token. A literal gets an entry of its own, a name only if
it is new; behind `func` and `proc` its symbol becomes a function or a
procedure. -/
def add (r : Register) : Token → Register
  | .number x =>
    let (id, t) := r.symbols.push { name := none, kind := .number, value := x }
    ⟨t, none, r.ids ++ [id]⟩
  | .text s =>
    let (id, t) :=
      r.symbols.push { name := none, kind := .text, value := 0.0, text := some s }
    ⟨t, none, r.ids ++ [id]⟩
  | .ident name =>
    let (id, t) :=
      match r.symbols.lookup name with
      | some id => (id, r.symbols)
      | none => r.symbols.install name .undefined 0.0
    match r.defining with
    | some kind =>
      ⟨t.modify id fun e => { e with kind := kind.symbolKind }, none, r.ids ++ [id]⟩
    | none => ⟨t, none, r.ids ++ [id]⟩
  | token => ⟨r.symbols, token.defines?, r.ids⟩

/-- Registers tokens from left to right. -/
def addAll (r : Register) (ts : List Token) : Register :=
  ts.foldl add r

theorem addAll_append (r : Register) (ts us : List Token) :
    r.addAll (ts ++ us) = (r.addAll ts).addAll us :=
  List.foldl_append

/-- A name that is known. -/
theorem addAll_known {t : SymbolTable} {name : String} {id : Nat}
    (h : t.lookup name = some id) (ids : List Nat) :
    addAll ⟨t, none, ids⟩ [.ident name] = ⟨t, none, ids ++ [id]⟩ := by
  show add ⟨t, none, ids⟩ (.ident name) = _
  rw [add]
  dsimp only
  rw [h]

/-- The head of a definition. -/
theorem addAll_header {token : Token} {kind : DefinitionKind}
    (h : token.defines? = some kind) (t : SymbolTable) (name : String) (ids : List Nat) :
    addAll ⟨t, none, ids⟩ [token, .ident name] =
      ⟨(t.resolve name).2.modify (t.resolve name).1 fun e =>
        { e with kind := kind.symbolKind }, none, ids ++ [(t.resolve name).1]⟩ := by
  have hkeyword : add ⟨t, none, ids⟩ token = ⟨t, some kind, ids⟩ := by
    cases token
    case keyword word =>
      cases word
      case funcKw | procKw =>
        cases h
        rfl
      all_goals cases h
    all_goals cases h
  show add (add ⟨t, none, ids⟩ token) (.ident name) = _
  rw [hkeyword]
  rfl

end Register

/-! ### The symbols of trees -/

mutual

/-- The symbols in an expression, from left to right. -/
def Expr.ids : Expr → List Nat
  | .literal id | .variable id | .text id | .step _ id | .read id => [id]
  | .binary _ lhs rhs => lhs.ids ++ rhs.ids
  | .unary _ e => e.ids
  | .builtin id e => id :: e.ids
  | .call id es => id :: Expr.allIds es
  | .arg _ => []

/-- The symbols in a row of expressions. -/
def Expr.allIds : List Expr → List Nat
  | [] => []
  | e :: es => e.ids ++ Expr.allIds es

end

mutual

/-- The symbols in a statement, from left to right. -/
def Stmt.ids : Stmt → List Nat
  | .assign _ id e => id :: e.ids
  | .argAssign _ e | .expr e | .returnValue e => e.ids
  | .print es => Expr.allIds es
  | .whileLoop cond body | .ifThen cond body => cond.ids ++ Stmt.allIds body
  | .forLoop init cond post body => init.ids ++ cond.ids ++ post.ids ++ Stmt.allIds body
  | .ifElse cond body other => cond.ids ++ Stmt.allIds body ++ Stmt.allIds other
  | .call id es => id :: Expr.allIds es
  | .returnNothing => []
  | .define _ id body => id :: Stmt.allIds body

/-- The symbols in a row of statements. -/
def Stmt.allIds : List Stmt → List Nat
  | [] => []
  | s :: ss => s.ids ++ Stmt.allIds ss

end

theorem Stmt.allIds_append (ss ss' : List Stmt) :
    Stmt.allIds (ss ++ ss') = Stmt.allIds ss ++ Stmt.allIds ss' := by
  induction ss with
  | nil => rfl
  | cons s ss ih => rw [List.cons_append, Stmt.allIds, Stmt.allIds, ih, List.append_assoc]

namespace Parser

variable {α β : Type} {ids : List Nat} {owed ts : List Token} {view : α → List Nat}

/-! ### Rules -/

/-- If the parser succeeds, then the tokens `owed` and those it takes register
what it adds, and with `ids` in front that is what `view` shows of the result. -/
def RegistersAt (ids : List Nat) (owed : List Token) (p : Parser α) (view : α → List Nat)
    (s : ParseState) : Prop :=
  ∀ a s', p s = .ok a s' → ∃ taken, s.row = taken ++ s'.row ∧
    ∀ before, Register.addAll ⟨s.symbols, none, before ++ ids⟩ (owed ++ taken) =
      ⟨s'.symbols, none, before ++ view a⟩

/-- The same for every state in which the tokens start with `ts`. -/
def RegistersAhead (ids : List Nat) (owed ts : List Token) (p : Parser α)
    (view : α → List Nat) :
    Prop :=
  ∀ s : ParseState, ts <+: s.row → RegistersAt ids owed p view s

/-- The tokens that a parser takes register what it adds, and that is what
`view` shows. -/
abbrev Registers (p : Parser α) (view : α → List Nat) : Prop :=
  RegistersAhead [] [] [] p view

/-- Tokens that register nothing. -/
def Silent (owed : List Token) : Prop :=
  ∀ t ids, Register.addAll ⟨t, none, ids⟩ owed = ⟨t, none, ids⟩

theorem RegistersAhead.ahead {p : Parser α} (h : RegistersAhead ids owed [] p view)
    (ts : List Token) :
    RegistersAhead ids owed ts p view :=
  fun s _ => h s List.nil_prefix

/-- Nothing is owed for tokens that register nothing. -/
theorem RegistersAhead.silent {p : Parser α} (h : RegistersAhead ids [] ts p view)
    (howed : Silent owed) :
    RegistersAhead ids owed ts p view := by
  intro s hs a s' hrun
  obtain ⟨taken, hrow, hadds⟩ := h s hs a s' hrun
  refine ⟨taken, hrow, fun before => ?_⟩
  rw [Register.addAll_append, howed]
  exact hadds before

theorem registers_of_fails {p : Parser α} (h : ∀ s, ∃ e s', p s = .error e s') :
    RegistersAhead ids owed ts p view := by
  intro s _ a s' hrun
  obtain ⟨e, s'', herror⟩ := h s
  cases herror.symm.trans hrun

theorem registers_fail (sc : Scope) (kind : FaultKind) (note : String) :
    RegistersAhead ids owed ts (fail sc kind note : Parser α) view :=
  registers_of_fails fun s => ⟨_, s, rfl⟩

theorem registers_pure {a : α} (h : ids = view a) :
    RegistersAhead ids [] ts (pure a) view := by
  rintro s _ _ _ ⟨⟩
  exact ⟨[], rfl, fun before => by rw [← h]; rfl⟩

/-- The symbols of a phrase come before those of what follows it. -/
theorem RegistersAhead.bind {p : Parser α} {f : α → Parser β} {view' : β → List Nat}
    (hp : RegistersAhead [] owed ts p view)
    (hf : ∀ a, RegistersAhead (ids ++ view a) [] [] (f a) view') :
    RegistersAhead ids owed ts (p >>= f) view' := by
  intro s hs b s' hrun
  obtain ⟨a, s₁, hfirst, hrest⟩ := Action.of_bind_ok hrun
  obtain ⟨taken, hrow, hadds⟩ := hp s hs a s₁ hfirst
  obtain ⟨taken', hrow', hadds'⟩ := hf a s₁ List.nil_prefix b s' hrest
  refine ⟨taken ++ taken', ?_, fun before => ?_⟩
  · rw [hrow, hrow', List.append_assoc]
  · have hstart := hadds (before ++ ids)
    rw [List.append_nil] at hstart
    rw [← List.append_assoc, Register.addAll_append, hstart, List.append_assoc]
    exact hadds' before

theorem RegistersAhead.map {p : Parser α} {f : α → β} {view' : β → List Nat}
    (hp : RegistersAhead [] owed ts p view) (h : ∀ a, ids ++ view a = view' (f a)) :
    RegistersAhead ids owed ts (p >>= fun a => pure (f a)) view' :=
  hp.bind fun a => registers_pure (h a)

/-- After a parser that only looks. -/
theorem RegistersAhead.look {p : Parser α} (hp : Looks p) {f : α → Parser β}
    {view : β → List Nat} (hf : ∀ a, RegistersAhead ids owed ts (f a) view) :
    RegistersAhead ids owed ts (p >>= f) view := by
  intro s hs
  obtain ⟨a, ha⟩ := hp s
  unfold RegistersAt
  rw [Action.bind_of_ok ha]
  exact hf a s hs

theorem registers_peek {f : Option Token → Parser α}
    (hf : ∀ o, RegistersAhead ids owed o.toList (f o) view) :
    RegistersAhead ids owed ts (peek >>= f) view :=
  fun s _ => hf _ s s.front_ahead

theorem registers_peekBoth {f : Option Token → Option Token → Parser α}
    (hf : ∀ o o', RegistersAhead ids owed (o.toList ++ o'.toList) (f o o') view) :
    RegistersAhead ids owed ts (peek >>= fun o => peekSecond >>= fun o' => f o o') view :=
  fun s _ => hf _ _ s s.both_ahead

theorem registers_unexpected (sc : Scope) :
    RegistersAhead ids owed ts (unexpected sc : Parser α) view := by
  refine registers_peek fun o => ?_
  split
  all_goals exact registers_fail sc _ _

/-- A token that is left behind is owed. -/
theorem RegistersAt.skipThen {t : Token} {f : Unit → Parser α} {s : ParseState}
    (hs : t :: ts <+: s.row) (hf : RegistersAt ids (owed ++ [t]) (f ()) view s.next) :
    RegistersAt ids owed (skip >>= f) view s := by
  intro a s' hrun
  obtain ⟨taken, hrow, hadds⟩ := hf a s' hrun
  refine ⟨t :: taken, ?_, fun before => ?_⟩
  · rw [(ParseState.row_of_ahead hs).1, hrow, List.cons_append]
  · have hstart := hadds before
    rwa [List.append_assoc] at hstart

theorem RegistersAhead.skipThen {t : Token} {f : Unit → Parser α}
    (hf : RegistersAhead ids (owed ++ [t]) ts (f ()) view) :
    RegistersAhead ids owed (t :: ts) (skip >>= f) view :=
  fun s hs => .skipThen hs (hf s.next (ParseState.row_of_ahead hs).2)

/-- A token that is expected is owed once it is taken. -/
theorem registers_expect (sc : Scope) {t : Token} {f : Unit → Parser α}
    (hf : RegistersAhead ids (owed ++ [t]) [] (f ()) view) :
    RegistersAhead ids owed ts (expect sc t >>= f) view := by
  intro s _ a s' hrun
  rcases expect_cases sc t s with ⟨hexpect, hrow⟩ | ⟨e, hexpect⟩
  · have hskip : RegistersAhead ids owed [t] (skip >>= f) view := hf.skipThen
    rw [Action.bind_of_ok hexpect] at hrun
    exact hskip s ⟨_, hrow.symm⟩ a s' hrun
  · rw [Action.bind_of_error hexpect] at hrun
    cases hrun

/-- Marks and keywords that register nothing are not owed. -/
theorem RegistersAhead.passing {t : Token} {f : Unit → Parser α} (ht : Silent [t])
    (hf : RegistersAhead ids [] ts (f ()) view) :
    RegistersAhead ids [] (t :: ts) (skip >>= f) view :=
  .skipThen (hf.silent ht)

theorem registers_mark (sc : Scope) {t : Token} {f : Unit → Parser α} (ht : Silent [t])
    (hf : RegistersAhead ids [] [] (f ()) view) :
    RegistersAhead ids [] ts (expect sc t >>= f) view :=
  registers_expect sc (hf.silent ht)

/-- A name is owed once it is taken. -/
theorem registers_ident (sc : Scope) {f : String → Parser α}
    (hf : ∀ name, RegistersAhead ids (owed ++ [.ident name]) [] (f name) view) :
    RegistersAhead ids owed ts (ident sc >>= f) view := by
  intro s _ a s' hrun
  rcases ident_cases sc s with ⟨name, hident, hrow⟩ | ⟨e, hident⟩
  · have hskip : RegistersAhead ids owed [.ident name] (skip >>= fun _ => f name) view :=
      (hf name).skipThen
    rw [Action.bind_of_ok hident] at hrun
    exact hskip s ⟨_, hrow.symm⟩ a s' hrun
  · rw [Action.bind_of_error hident] at hrun
    cases hrun

/-- What is added is what the tokens register that are owed. -/
theorem registers_addSymbol {g : SymbolTable → Nat × SymbolTable}
    (howed : ∀ t ids, Register.addAll ⟨t, none, ids⟩ owed =
      ⟨(g t).2, none, ids ++ [(g t).1]⟩)
    {f : Nat → Parser α} (hf : ∀ id, RegistersAhead (ids ++ [id]) [] ts (f id) view) :
    RegistersAhead ids owed ts (addSymbol g >>= f) view := by
  intro s hs a s' hrun
  obtain ⟨taken, hrow, hadds⟩ :=
    hf (g s.symbols).1 { s with symbols := (g s.symbols).2 } hs a s' hrun
  refine ⟨taken, hrow, fun before => ?_⟩
  rw [Register.addAll_append, howed, List.append_assoc]
  exact hadds before

/-- A name registers the symbol it is resolved to. -/
theorem addAll_resolve (name : String) (t : SymbolTable) (ids : List Nat) :
    Register.addAll ⟨t, none, ids⟩ [.ident name] =
      ⟨(t.resolve name).2, none, ids ++ [(t.resolve name).1]⟩ :=
  rfl

theorem registers_checkArg (sc : Scope) (n : Nat) {f : Unit → Parser α}
    (hf : RegistersAhead ids owed ts (f ()) view) :
    RegistersAhead ids owed ts (checkArg sc n >>= f) view := by
  unfold checkArg malformed
  split
  · exact registers_fail sc _ _
  · split
    · exact registers_fail sc _ _
    · exact hf

/-- Looking at the symbols, and going on by what they are. -/
theorem registers_symbols {f : SymbolTable → Parser α}
    (hf : ∀ s : ParseState, ts <+: s.row → RegistersAt ids owed (f s.symbols) view s) :
    RegistersAhead ids owed ts (symbols >>= f) view :=
  hf

/-- The symbol of a name that is known needs no entry. -/
theorem RegistersAt.known (ids : List Nat) {p : Parser α} {s : ParseState}
    {name : String} {id : Nat} (h : s.symbols.lookup name = some id)
    (hp : RegistersAt (ids ++ [id]) [] p view s) :
    RegistersAt ids [.ident name] p view s := by
  intro a s' hrun
  obtain ⟨taken, hrow, hadds⟩ := hp a s' hrun
  refine ⟨taken, hrow, fun before => ?_⟩
  rw [Register.addAll_append, Register.addAll_known h, List.append_assoc]
  exact hadds before

theorem registers_terminator : Registers terminator fun _ => [] := by
  refine registers_peek fun o => ?_
  split
  · have hskip : RegistersAhead [] [] [.semicolon] (skip >>= fun _ => pure ()) fun _ =>
        [] :=
      .passing (fun _ _ => rfl) (registers_pure rfl)
    exact hskip
  · exact registers_pure rfl

/-! ### Expressions -/

section

variable {sc : Scope} {expression : Parser Expr} {binary : Nat → Parser Expr}

/-- The further arguments of a call, from left to right. -/
theorem registers_moreArguments (he : Registers expression Expr.ids)
    (bound : List Located) :
    Registers (moreArguments sc expression bound) Expr.allIds := by
  induction bound with
  | nil => exact registers_fail sc _ _
  | cons _ bound ih =>
    refine registers_peek fun o => ?_
    split
    · exact .passing (fun _ _ => rfl) (registers_pure rfl)
    · refine .passing (fun _ _ => rfl) (he.bind fun e => ih.map fun es => ?_)
      rw [Expr.allIds, List.nil_append]
    · exact registers_fail sc _ _

theorem registers_arguments (he : Registers expression Expr.ids) :
    Registers (arguments sc expression) Expr.allIds := by
  refine registers_mark sc (fun _ _ => rfl) (registers_peek fun o => ?_)
  split
  · exact .passing (fun _ _ => rfl) (registers_pure rfl)
  · refine RegistersAhead.ahead (he.bind fun e => .look looks_ahead fun bound => ?_) _
    exact (registers_moreArguments he bound).map fun es => by
      rw [Expr.allIds, List.nil_append]

/-- A name in an expression. Functions that are known are used as they are,
other names are resolved. -/
theorem registers_named (he : Registers expression Expr.ids) (name : String) :
    RegistersAhead [] [.ident name] [] (named sc expression name) Expr.ids := by
  have hbuiltin : ∀ id, RegistersAhead [id] [] []
      (expect sc .leftParen >>= fun _ => expression >>=
      fun e => expect sc .rightParen >>= fun _ => pure (Expr.builtin id e)) Expr.ids :=
        fun id =>
    registers_mark sc (fun _ _ => rfl) (he.bind fun e =>
      registers_mark sc (fun _ _ => rfl) (registers_pure rfl))
  have hcall : ∀ id, RegistersAhead [id] [] [] (arguments sc expression >>= fun es =>
      pure (Expr.call id es)) Expr.ids :=
        fun id => (registers_arguments he).map fun es => rfl
  refine registers_symbols fun s _ => ?_
  dsimp only
  split
  case h_1 id hknown hkind =>
    exact RegistersAt.known [] hknown (hbuiltin id s List.nil_prefix)
  case h_2 id hknown hkind =>
    exact RegistersAt.known [] hknown (hcall id s List.nil_prefix)
  case h_3 => exact registers_fail sc _ _ s List.nil_prefix
  case h_4 =>
    refine RegistersAhead.look looks_peek (fun o => ?_) s List.nil_prefix
    split
    · exact registers_fail sc _ _
    · refine registers_addSymbol (addAll_resolve name) fun id =>
        registers_peek fun o => ?_
      split
      · exact .passing (fun _ _ => rfl) (registers_pure rfl)
      · exact .passing (fun _ _ => rfl) (registers_pure rfl)
      · exact registers_pure rfl

/-- An operand without operators, by the token ahead. -/
theorem registers_primary (he : Registers expression Expr.ids) :
    Registers (primary sc expression) Expr.ids := by
  have hstep : ∀ how, Registers (ident sc >>= fun name => resolve name >>= fun id =>
      pure (Expr.step how id)) Expr.ids := fun how =>
    registers_ident sc fun name => registers_addSymbol (addAll_resolve name) fun id =>
      registers_pure rfl
  refine registers_peek fun o => ?_
  split
  · exact .skipThen (registers_addSymbol (fun _ _ => rfl) fun id => registers_pure rfl)
  · refine .passing (fun _ _ => rfl) (he.bind fun e =>
      registers_mark sc (fun _ _ => rfl) ?_)
    exact registers_pure rfl
  · exact .skipThen (registers_named he _)
  · exact registers_checkArg sc _ (.passing (fun _ _ => rfl) (registers_pure rfl))
  · refine .passing (fun _ _ => rfl) (registers_mark sc (fun _ _ => rfl) ?_)
    -- the closing parenthesis is taken before the name is resolved
    refine registers_ident sc fun name =>
      registers_expect sc (registers_addSymbol ?_ fun id => ?_)
    · exact fun t ids => addAll_resolve name t ids
    · exact registers_pure rfl
  · exact .passing (fun _ _ => rfl) (hstep _)
  · exact .passing (fun _ _ => rfl) (hstep _)
  · exact registers_unexpected sc

theorem registers_operand (hb : ∀ least, Registers (binary least) Expr.ids) :
    Registers (operand sc binary) Expr.ids := by
  refine registers_peek fun o => ?_
  split
  · exact .passing (fun _ _ => rfl) ((hb _).map fun e => rfl)
  · exact .passing (fun _ _ => rfl) ((hb _).map fun e => rfl)
  · exact (registers_primary (hb 1)).ahead _

/-- Operators are read behind their left operands. -/
theorem registers_climb (hb : ∀ least, Registers (binary least) Expr.ids) (least : Nat)
    (bound : List Located) (lhs : Expr) :
    RegistersAhead lhs.ids [] [] (climb binary least bound lhs) Expr.ids := by
  have hdone : ∀ (lhs : Expr) ts, RegistersAhead lhs.ids [] ts (pure lhs) Expr.ids :=
    fun lhs ts =>
    registers_pure rfl
  induction bound generalizing lhs with
  | nil => exact hdone lhs []
  | cons _ bound ih =>
    refine registers_peek fun o => ?_
    split
    · split
      · split
        · exact .passing (fun _ _ => rfl) ((hb _).bind fun rhs => ih (.binary _ lhs rhs))
        · exact hdone lhs _
      · exact hdone lhs _
    · exact hdone lhs _

theorem registers_binary (sc : Scope) (depth least : Nat) :
    Registers (Parser.binary sc depth least) Expr.ids := by
  induction depth generalizing least with
  | zero => exact registers_fail sc _ _
  | succ depth ih =>
    exact (registers_operand ih).bind fun lhs => .look looks_ahead fun bound =>
      registers_climb ih least bound lhs

end

/-! ### Statements -/

section

variable {sc : Scope} {expression : Parser Expr} {statement : Parser (List Stmt)}

/-- An assignment registers its variable before its expression. -/
theorem registers_simple (he : Registers expression Expr.ids) :
    Registers (simple sc expression) Stmt.ids := by
  have hexpr : Registers (expression >>= fun e => pure (Stmt.expr e)) Stmt.ids :=
    he.map fun e => rfl
  refine registers_peekBoth fun o o' => ?_
  split
  · split
    · -- the operator is taken before the name is resolved
      refine .skipThen (.skipThen (registers_addSymbol ?_ fun id => he.map fun e => rfl))
      exact fun t ids => addAll_resolve _ t ids
    · exact hexpr.ahead _
  · exact registers_checkArg sc _ (.passing (fun _ _ => rfl) (.passing (fun _ _ => rfl)
      (he.map fun e => rfl)))
  · exact hexpr.ahead _

theorem registers_condition (he : Registers expression Expr.ids) :
    Registers (condition sc expression) Expr.ids :=
  registers_mark sc (fun _ _ => rfl) (he.bind fun _ => registers_mark sc (fun _ _ => rfl)
    (registers_pure rfl))

/-- The statements of a block, from left to right. -/
theorem registers_blockItems (hs : Registers statement Stmt.allIds)
    (bound : List Located) :
    Registers (blockItems sc statement bound) Stmt.allIds := by
  induction bound with
  | nil => exact registers_fail sc _ _
  | cons _ bound ih =>
    refine registers_peek fun o => ?_
    split
    · exact .passing (fun _ _ => rfl) (registers_pure rfl)
    · exact .passing (fun _ _ => rfl) ih
    · exact registers_fail sc _ _
    · refine RegistersAhead.ahead (hs.bind fun first => ih.map fun rest => ?_) _
      rw [Stmt.allIds_append, List.nil_append]

/-- An item of a print statement, which may be a text. -/
theorem registers_printItem (he : Registers expression Expr.ids) :
    Registers (printItem expression) Expr.ids := by
  refine registers_peek fun o => ?_
  split
  · exact .skipThen (registers_addSymbol (fun _ _ => rfl) fun id => registers_pure rfl)
  · exact he.ahead _

/-- The further items, each behind a comma. -/
theorem registers_morePrintItems (he : Registers expression Expr.ids)
    (bound : List Located) :
    Registers (morePrintItems expression bound) Expr.allIds := by
  induction bound with
  | nil => exact registers_pure rfl
  | cons _ bound ih =>
    refine registers_peek fun o => ?_
    split
    · refine .passing (fun _ _ => rfl) ((registers_printItem he).bind fun e =>
        ih.map fun es => ?_)
      rw [Expr.allIds, List.nil_append]
    · exact registers_pure rfl

theorem registers_printItems (he : Registers expression Expr.ids) :
    Registers (printItems expression) Expr.allIds := by
  refine (registers_printItem he).bind fun e => .look looks_ahead fun bound => ?_
  exact (registers_morePrintItems he bound).map fun es => by
    rw [Expr.allIds, List.nil_append]

theorem registers_returnStmt (he : Registers expression Expr.ids) :
    RegistersAhead [] [] [.keyword .returnKw] (returnStmt sc expression) Stmt.ids := by
  unfold returnStmt
  split
  · exact registers_fail sc _ _
  · refine .passing (fun _ _ => rfl) (.look looks_peek fun o => ?_)
    split
    case h_4 | h_6 => exact he.map fun _ => rfl
    all_goals exact registers_pure rfl

theorem registers_forStmt (he : Registers expression Expr.ids)
    (hs : Registers statement Stmt.allIds) :
    RegistersAhead [] [] [.keyword .forKw] (forStmt sc expression statement)
      Stmt.ids := by
  refine .passing (fun _ _ => rfl) (registers_mark sc (fun _ _ => rfl) ?_)
  refine (registers_simple he).bind fun init => registers_mark sc (fun _ _ => rfl) ?_
  refine he.bind fun cond => registers_mark sc (fun _ _ => rfl) ?_
  refine (registers_simple he).bind fun post => registers_mark sc (fun _ _ => rfl) ?_
  exact hs.map fun body => rfl

theorem registers_ifStmt (he : Registers expression Expr.ids)
    (hs : Registers statement Stmt.allIds) :
    RegistersAhead [] [] [.keyword .ifKw] (ifStmt sc expression statement) Stmt.ids := by
  refine .passing (fun _ _ => rfl) ((registers_condition he).bind fun cond =>
    hs.bind fun body => ?_)
  refine registers_peek fun o => ?_
  split
  · exact .passing (fun _ _ => rfl) (hs.map fun other => rfl)
  · exact registers_pure rfl

/-- A statement that starts with a name. The name of a procedure is known, and
every other one is resolved. -/
theorem registers_namedStmt (he : Registers expression Expr.ids) (name : String) :
    RegistersAhead [] [] [.ident name] (namedStmt sc expression name) Stmt.ids := by
  have hsimple : RegistersAhead [] [] [.ident name] (simple sc expression) Stmt.ids :=
    (registers_simple he).ahead _
  have hcall : ∀ id, RegistersAhead [id] [] [] (arguments sc expression >>= fun es =>
      pure (Stmt.call id es)) Stmt.ids :=
        fun id => (registers_arguments he).map fun es => rfl
  refine .look looks_peekSecond fun o => ?_
  split
  · refine registers_symbols fun s hs => ?_
    split
    case h_1 id hknown =>
      split
      · exact .skipThen hs (.known [] hknown (hcall id s.next List.nil_prefix))
      · exact hsimple s hs
    · exact hsimple s hs
  · exact hsimple

theorem RegistersAhead.terminated {p : Parser Stmt}
    (hp : RegistersAhead [] [] ts p Stmt.ids) :
    RegistersAhead [] [] ts (Parser.terminated p) Stmt.allIds :=
  hp.bind fun _ => registers_terminator.map fun _ => rfl

/-- A statement, by the token it starts with. -/
theorem registers_anyStatement (he : Registers expression Expr.ids)
    (hs : Registers statement Stmt.allIds) :
    Registers (anyStatement sc expression statement) Stmt.allIds := by
  have hone : ∀ s : Stmt, s.ids = Stmt.allIds [s] := fun s => (List.append_nil s.ids).symm
  refine registers_peek fun o => ?_
  split
  · exact .passing (fun _ _ => rfl) (.look looks_ahead fun bound =>
      registers_blockItems hs bound)
  · refine RegistersAhead.terminated (.passing (fun _ _ => rfl) ?_)
    exact (registers_printItems he).map fun es => rfl
  · refine RegistersAhead.terminated (.passing (fun _ _ => rfl) ?_)
    exact (registers_condition he).bind fun cond => hs.map fun body => rfl
  · exact (registers_forStmt he hs).map hone
  · exact (registers_ifStmt he hs).map hone
  · exact (registers_returnStmt he).terminated
  · exact ((registers_simple he).ahead _).terminated
  · exact registers_unexpected sc
  · exact (registers_namedStmt he _).terminated
  · exact ((registers_simple he).ahead _).terminated

theorem registers_statement (sc : Scope) (depth : Nat) :
    Registers (Parser.statement sc depth) Stmt.allIds := by
  induction depth with
  | zero => exact registers_fail sc _ _
  | succ depth ih => exact registers_anyStatement (registers_binary sc depth 1) ih

end

/-! ### Programs -/

/-- A definition registers its name before its body is read. -/
theorem registers_definition (sc : Scope) {t : Token} {kind : DefinitionKind}
    (ht : t.defines? = some kind) (depth : Nat) :
    RegistersAhead [] [] [t] (definition sc kind depth) Stmt.ids := by
  have hrest : ∀ id, RegistersAhead [id] [] [] (expect sc .leftParen >>= fun _ =>
      expect sc .rightParen >>= fun _ =>
        statement { sc with inDefinition := true } depth >>=
        fun body => pure (Stmt.define kind id body)) Stmt.ids := fun id =>
    registers_mark sc (fun _ _ => rfl) (registers_mark sc (fun _ _ => rfl)
      ((registers_statement _ depth).map fun body => rfl))
  refine .skipThen (registers_ident sc fun name s _ a s' hrun => ?_)
  let r := s.symbols.resolve name
  have hresolve : resolve name s = .ok r.1 { s with symbols := r.2 } := rfl
  rw [Action.bind_of_ok hresolve] at hrun
  obtain ⟨symbols, s₁, hsymbols, hrun⟩ := Action.of_bind_ok hrun
  cases hsymbols
  split at hrun
  case isTrue => cases hrun
  case isFalse =>
    -- behind the head the name has its kind, and the body is read with it
    let s₂ : ParseState :=
      { s with symbols := r.2.modify r.1 fun e => { e with kind := kind.symbolKind } }
    obtain ⟨taken, hrow, hadds⟩ := hrest r.1 s₂ List.nil_prefix a s' hrun
    refine ⟨taken, hrow, fun before => ?_⟩
    rw [Register.addAll_append, List.nil_append, List.cons_append, List.nil_append,
      Register.addAll_header ht, List.append_nil]
    exact hadds before

/-- A program registers its definitions and statements from left to right. -/
theorem registers_programItems (sc : Scope) (depth : Nat) (bound : List Located) :
    Registers (programItems sc depth bound) Stmt.allIds := by
  induction bound with
  | nil => exact registers_pure rfl
  | cons _ bound ih =>
    have hdefinition : ∀ {t kind}, t.defines? = some kind → RegistersAhead [] [] [t]
        (definition sc kind depth >>= fun d => programItems sc depth bound >>= fun rest =>
          pure (d :: rest)) Stmt.allIds := fun ht =>
      (registers_definition sc ht depth).bind fun d => ih.map fun rest => rfl
    refine registers_peek fun o => ?_
    split
    · exact registers_pure rfl
    · exact .passing (fun _ _ => rfl) ih
    · exact hdefinition rfl
    · exact hdefinition rfl
    · refine RegistersAhead.ahead ((registers_statement sc depth).bind fun first =>
        ih.map fun rest => ?_) _
      rw [Stmt.allIds_append, List.nil_append]

end Parser

/-- A text that can be read registers its symbols in the order of its tokens:
the table that reading ends with is the one it starts with after all tokens have
been added from left to right, and the symbols in the program are those of the
tokens. -/
theorem parse_registers {tokens : List Located} {t t' : SymbolTable} {depth : Nat}
    {program : List Stmt} (h : parse tokens t depth = (.ok program, t')) :
    (tokens.map Located.token).foldl Register.add ⟨t, none, []⟩ =
      ⟨t', none, Stmt.allIds program⟩ := by
  obtain ⟨rest, hrun⟩ := programItems_of_parse h
  have hend : rest = [] :=
    Parser.tokens_of_programItems (s := ⟨tokens, t⟩) (Nat.le_refl _) hrun
  obtain ⟨taken, hrow, hadds⟩ :=
    Parser.registers_programItems _ depth tokens ⟨tokens, t⟩ List.nil_prefix program
      ⟨rest, t'⟩ hrun
  have htaken : tokens.map Located.token = taken := by
    rw [hend] at hrow
    exact hrow.trans (List.append_nil taken)
  rw [htaken]
  exact hadds []

/-- A function that is called in its own body and behind it, a name that stays
undefined, and a text. -/
def recursiveText : String :=
  "func f() if ($1 > 0) return f($1 - 1) + x\nprint \"x\", sin(f(2)), x\nread(y)"

/-- Names that are known keep their places, and every literal gets one of its
own. -/
theorem parse_registers_recursive :
    ∃ program t', parse (lex recursiveText) .initial 200 = (.ok program, t') ∧
      ((lex recursiveText).map Located.token).foldl Register.add ⟨.initial, none, []⟩ =
        ⟨t', none, Stmt.allIds program⟩ ∧
      Stmt.allIds program = [28, 29, 28, 30, 31, 32, 14, 28, 33, 31, 34] := by
  have hok : (parse (lex recursiveText) .initial 200).1.isOk = true := by decide +kernel
  have hids : (((lex recursiveText).map Located.token).foldl Register.add
      ⟨.initial, none, []⟩).ids =
      [28, 29, 28, 30, 31, 32, 14, 28, 33, 31, 34] := by
    decide +kernel
  cases hparse : parse (lex recursiveText) .initial 200 with
  | mk r t' =>
    rw [hparse] at hok
    cases r with
    | error f => cases hok
    | ok program =>
      have hregisters := parse_registers hparse
      rw [hregisters] at hids
      exact ⟨program, t', rfl, hregisters, hids⟩

end StackCalc
