import StackCalc.Proofs.Action
import StackCalc.Proofs.Parser.Unparse
import StackCalc.Proofs.Symbol.Evolution

/-!
# What is read

A tree that a parser returns was read in the sense of `Expr.Reads` and
`Stmt.Reads`, with the names, numbers and texts of every later table
(`Parser.traces_programItems`). `Parser.Traces` is such a statement about a
parser: if it succeeds in a sound table, the table advances, and `post` relates
the table before, the table after and what was read. Later tables are those that
evolve from the table after.
-/

namespace StackCalc

namespace SymbolTable

theorem continues_addNumber (t : SymbolTable) (x : Float) :
    t.Continues (t.addNumber x).2 :=
  t.continues_push ⟨fun _ => rfl, SymbolKind.noConfusion⟩ rfl rfl

theorem continues_addText (t : SymbolTable) (text : String) :
    t.Continues (t.addText text).2 :=
  t.continues_push ⟨fun _ => rfl, SymbolKind.noConfusion⟩ rfl rfl

/-- A name that is not that of a built-in function may become that of a
definition. -/
theorem Sound.continues_declare {t : SymbolTable} (ht : t.Sound) {id : Nat}
    {name : String} (hname : (t.get id).name = some name)
    (hkind : (t.get id).kind ≠ .builtin) (kind : DefinitionKind) :
    t.Continues (t.modify id fun e => { e with kind := kind.symbolKind }) := by
  refine continues_modify (ht.harmless_kind ?_ hkind ?_ ?_ fun _ => ⟨rfl, rfl, rfl⟩)
    fun _ => rfl
  · rw [hname]
    rfl
  · cases kind <;> exact SymbolKind.noConfusion
  · cases kind <;> exact SymbolKind.noConfusion

end SymbolTable

namespace Parser

variable {α β : Type}

/-- If a parser succeeds in a sound table, the table advances, and `post` holds
with every later table `T`, of the table before, the table after and the result. -/
def Traces (p : Parser α) (post : (T t t' : SymbolTable) → α → Prop) : Prop :=
  ∀ s a s', s.symbols.Sound → p s = .ok a s' →
    s.symbols.Advances s'.symbols ∧ ∀ T,
      s'.symbols.Evolves T → post T s.symbols s'.symbols a

/-- A parser that leaves the symbols alone. -/
def Quiet (p : Parser α) : Prop :=
  ∀ s a s', p s = .ok a s' → s'.symbols = s.symbols

namespace Traces

variable {p : Parser α} {f : α → Parser β} {mid : (T t t' : SymbolTable) → α → Prop}
  {post : (T t t' : SymbolTable) → β → Prop}

/-- A sequence: the table after the first parser is the one before the second. -/
theorem bind (hp : Traces p mid)
    (hf : ∀ a, Traces (f a) fun T t₁ t' b => ∀ t, mid T t t₁ a → post T t t' b) :
    Traces (p >>= f) post := by
  intro s b s' hsound hrun
  obtain ⟨a, s₁, hfirst, hrest⟩ := Action.of_bind_ok hrun
  obtain ⟨hadvances, hmid⟩ := hp _ _ _ hsound hfirst
  obtain ⟨hadvances', hpost⟩ := hf a _ _ _ (hadvances.sound hsound) hrest
  refine ⟨hadvances.trans hadvances', fun T hT => ?_⟩
  exact hpost T hT _ (hmid T (hadvances'.evolves.trans hT))

/-- What is read after a parser that leaves the symbols alone. -/
theorem after (hp : Quiet p) (hf : ∀ a, Traces (f a) post) : Traces (p >>= f) post := by
  intro s b s' hsound hrun
  obtain ⟨a, s₁, hfirst, hrest⟩ := Action.of_bind_ok hrun
  have hsame := hp _ _ _ hfirst
  have hsecond := hf a _ _ _ (hsame ▸ hsound) hrest
  rwa [hsame] at hsecond

/-- What is read after looking at the symbols. -/
theorem symbols {f : SymbolTable → Parser β}
    (hf : ∀ t₀, t₀.Sound → Traces (f t₀) fun T t t' b => t = t₀ → t₀.Evolves T →
      post T t t' b) :
    Traces (symbols >>= f) post := by
  intro s b s' hsound hrun
  obtain ⟨hadvances, hpost⟩ := hf s.symbols hsound _ _ _ hsound hrun
  exact ⟨hadvances, fun T hT => hpost T hT rfl (hadvances.evolves.trans hT)⟩

theorem mono {post' : (T t t' : SymbolTable) → α → Prop} (hp : Traces p mid)
    (h : ∀ {T t t' a}, mid T t t' a → post' T t t' a) : Traces p post' := by
  intro s a s' hsound hrun
  obtain ⟨hadvances, hmid⟩ := hp _ _ _ hsound hrun
  exact ⟨hadvances, fun T hT => h (hmid T hT)⟩

/-- A parser whose result is `g` of that of another one. -/
theorem map {g : α → β} (hp : Traces p mid)
    (h : ∀ {T t t' a}, mid T t t' a → post T t t' (g a)) :
    Traces (p >>= fun a => pure (g a)) post := by
  intro s b s' hsound hrun
  obtain ⟨a, s₁, hfirst, hrest⟩ := Action.of_bind_ok hrun
  cases hrest
  obtain ⟨hadvances, hmid⟩ := hp _ _ _ hsound hfirst
  exact ⟨hadvances, fun T hT => h (hmid T hT)⟩

end Traces

theorem traces_pure {a : α} {post : (T t t' : SymbolTable) → α → Prop}
    (h : ∀ {T t}, post T t t a) :
    Traces (pure a) post := by
  intro s b s' _ hrun
  cases hrun
  exact ⟨SymbolTable.Advances.refl _, fun T _ => h⟩

/-- Of a parser that fails there is nothing to say. -/
theorem traces_of_error {p : Parser α} {post : (T t t' : SymbolTable) → α → Prop}
    (h : ∀ s, ∃ f s', p s = .error f s') : Traces p post := by
  intro s a s' _ hrun
  obtain ⟨f, s'', herror⟩ := h s
  exact nomatch herror.symm.trans hrun

theorem traces_fail (sc : Scope) (kind : FaultKind) (note : String)
    {post : (T t t' : SymbolTable) → α → Prop} : Traces (fail sc kind note) post :=
  traces_of_error fun _ => ⟨_, _, rfl⟩

/-! ### Single tokens -/

theorem quiet_peek : Quiet peek := by
  rintro s a s' ⟨⟩
  rfl

theorem traces_unexpected (sc : Scope) {post : (T t t' : SymbolTable) → α → Prop} :
    Traces (unexpected sc) post := by
  refine .after quiet_peek fun t => ?_
  split <;> exact traces_fail sc _ _

theorem quiet_peekSecond : Quiet peekSecond := by
  rintro s a s' ⟨⟩
  rfl

theorem quiet_ahead : Quiet ahead := by
  rintro s a s' ⟨⟩
  rfl

theorem quiet_skip : Quiet skip := by
  rintro s a s' ⟨⟩
  rfl

theorem Quiet.bind {p : Parser α} {f : α → Parser β} (hp : Quiet p)
    (hf : ∀ a, Quiet (f a)) :
    Quiet (p >>= f) := by
  intro s b s' hrun
  obtain ⟨a, s₁, hfirst, hrest⟩ := Action.of_bind_ok hrun
  exact (hf a _ _ _ hrest).trans (hp _ _ _ hfirst)

theorem quiet_pure (a : α) : Quiet (pure a : Parser α) := by
  rintro s b s' ⟨⟩
  rfl

theorem quiet_fail (sc : Scope) (kind : FaultKind) (note : String) :
    Quiet (fail sc kind note : Parser α) :=
  fun _ _ _ hrun => nomatch hrun

theorem quiet_unexpected (sc : Scope) : Quiet (unexpected sc : Parser α) := by
  refine quiet_peek.bind fun t => ?_
  split <;> exact quiet_fail sc _ _

theorem quiet_expect (sc : Scope) (t : Token) : Quiet (expect sc t) := by
  refine quiet_peek.bind fun u => ?_
  split
  · exact quiet_unexpected sc
  · split
    · exact quiet_skip
    · exact quiet_fail sc _ _
  · exact quiet_fail sc _ _

theorem quiet_ident (sc : Scope) : Quiet (ident sc) := by
  refine quiet_peek.bind fun t => ?_
  split
  · exact quiet_skip.bind fun _ => quiet_pure _
  · exact quiet_fail sc _ _

theorem quiet_terminator : Quiet terminator := by
  refine quiet_peek.bind fun t => ?_
  split
  · exact quiet_skip
  · exact quiet_pure _

/-- An argument is one of a definition, and not the zeroth. -/
theorem traces_checkArg (sc : Scope) (n : Nat) :
    Traces (checkArg sc n) fun _ t t' _ => sc.inDefinition = true ∧ n ≠ 0 ∧ t' = t := by
  unfold checkArg
  split
  · exact traces_fail sc _ _
  case isFalse hdef =>
    split
    · exact traces_fail sc _ _
    case isFalse hn => exact traces_pure ⟨by simpa using hdef, hn, rfl⟩

/-! ### Symbols -/

/-- A name that has been read is the name of its symbol in every later table. -/
theorem label_of_evolves {t T : SymbolTable} {id : Nat} {name : String}
    (hlt : id < t.size) (hname : (t.get id).name = some name) (hT : t.Evolves T) :
    (T.get id).label = name := by
  rw [Symbol.label, hT.name hlt, hname]
  rfl

theorem traces_resolve (name : String) :
    Traces (resolve name) fun T t t' id => (T.get id).label = name ∧
    t.resolve name = (id, t') := by
  intro s id s' hsound hrun
  cases hrun
  refine ⟨s.symbols.advances_resolve name, fun T hT => ?_⟩
  obtain ⟨hlt, hname⟩ := hsound.name_resolve name
  exact ⟨label_of_evolves hlt hname hT, rfl⟩

/-- A number keeps its value in every later table. -/
theorem traces_addNumber (x : Float) :
    Traces (addSymbol (·.addNumber x)) fun T t t' id =>
      t.addNumber (T.get id).value = (id, t') := by
  intro s id s' hsound hrun
  cases hrun
  refine ⟨(s.symbols.continues_addNumber x).toAdvances, fun T hT => ?_⟩
  have hT : (s.symbols.addNumber x).2.Evolves T := hT
  have hentry : (s.symbols.addNumber x).2.get (s.symbols.addNumber x).1 =
      { name := none, kind := .number, value := x } := SymbolTable.get_push_self _ _
  have hkind : ((s.symbols.addNumber x).2.get (s.symbols.addNumber x).1).kind =
      .number := by
    rw [hentry]
  have hvalue : (T.get (s.symbols.addNumber x).1).value = x := by
    rw [(hT.number hkind).2, hentry]
  show s.symbols.addNumber (T.get (s.symbols.addNumber x).1).value = _
  rw [hvalue]
  rfl

/-- So does a text. -/
theorem traces_addText (text : String) :
    Traces (addSymbol (·.addText text)) fun T t t' id =>
      t.addText ((T.get id).text.getD "") = (id, t') := by
  intro s id s' hsound hrun
  cases hrun
  refine ⟨(s.symbols.continues_addText text).toAdvances, fun T hT => ?_⟩
  have hT : (s.symbols.addText text).2.Evolves T := hT
  have hentry : (s.symbols.addText text).2.get (s.symbols.addText text).1 =
      { name := none, kind := .text, value := 0.0, text := some text } :=
    SymbolTable.get_push_self _ _
  have hlt : (s.symbols.addText text).1 < (s.symbols.addText text).2.size := by
    rw [SymbolTable.addText, SymbolTable.size_push]
    exact Nat.lt_succ_self _
  have htext : (T.get (s.symbols.addText text).1).text = some text := by
    rw [hT.text hlt, hentry]
  show s.symbols.addText ((T.get (s.symbols.addText text).1).text.getD "") = _
  rw [htext]
  rfl

/-! ### Expressions -/

/-- A parser of expressions. -/
abbrev TracesExpr (sc : Scope) (p : Parser Expr) : Prop :=
  Traces p fun T t t' e => e.Reads T sc.inDefinition t t'

/-- A parser of rows of expressions. -/
abbrev TracesExprs (sc : Scope) (p : Parser (List Expr)) : Prop :=
  Traces p fun T t t' es => Expr.ReadsAll T sc.inDefinition es t t'

section

variable {sc : Scope} {expression : Parser Expr} (hexpr : TracesExpr sc expression)

include hexpr

/-- The further arguments of a call. -/
theorem traces_moreArguments (bound : List Located) :
    TracesExprs sc (moreArguments sc expression bound) := by
  induction bound with
  | nil => exact traces_fail sc _ _
  | cons _ bound ih =>
    refine .after quiet_peek fun t => ?_
    split
    · exact .after quiet_skip fun _ => traces_pure rfl
    · exact .after quiet_skip fun _ => hexpr.bind fun e =>
        ih.map fun hes t he => ⟨_, he, hes⟩
    · exact traces_fail sc _ _

theorem traces_arguments : TracesExprs sc (arguments sc expression) := by
  refine .after (quiet_expect sc _) fun _ => .after quiet_peek fun t => ?_
  split
  · exact .after quiet_skip fun _ => traces_pure rfl
  · exact hexpr.bind fun e => .after quiet_ahead fun bound =>
      (traces_moreArguments hexpr bound).map fun hes t he => ⟨_, he, hes⟩

/-- What a name starts, by what it stands for in the table at hand. -/
theorem traces_named (name : String) : TracesExpr sc (named sc expression name) := by
  refine .symbols fun t₀ hsound => ?_
  -- a name that is known has the same label in every later table
  have hfinds : ∀ {T id kind}, t₀.lookup name = some id → (t₀.get id).kind = kind →
      t₀.Evolves T → T.Finds t₀ id kind := by
    intro T id kind hlookup hkind hT
    obtain ⟨hlt, hname⟩ := hsound.named hlookup
    exact ⟨by rw [label_of_evolves hlt hname hT, hlookup], hkind⟩
  dsimp only
  split
  case h_1 id hlookup hkind =>
    rw [hlookup] at hkind
    refine .after (quiet_expect sc _) fun _ => hexpr.bind fun e =>
      .after (quiet_expect sc _) fun _ => traces_pure fun t he ht hT => ?_
    subst ht
    exact ⟨hfinds hlookup (Option.some.inj hkind) hT, he⟩
  case h_2 id hlookup hkind =>
    rw [hlookup] at hkind
    refine (traces_arguments hexpr).map fun hes ht hT => ?_
    subst ht
    exact ⟨hfinds hlookup (Option.some.inj hkind) hT, hes⟩
  case h_3 => exact traces_fail sc _ _
  case h_4 hprocedure hbuiltin hfunction =>
    have hplain : t₀.IsPlain name := by
      intro id hlookup
      rw [hlookup] at hprocedure hbuiltin hfunction
      exact ⟨fun hk => hbuiltin id rfl (congrArg some hk),
        fun hk => hfunction id rfl (congrArg some hk),
        fun hk => hprocedure (congrArg some hk)⟩
    refine .after quiet_peek fun t => ?_
    split
    · exact traces_fail sc _ _
    · refine (traces_resolve name).bind fun id => .after quiet_peek fun t => ?_
      -- a plain name has the same label in the later table and resolves to the
      -- same symbol
      have hread : ∀ {T t t' : SymbolTable},
          (T.get id).label = name ∧ t.resolve name = (id, t') → t = t₀ →
          t.IsPlain (T.get id).label ∧ t.resolve (T.get id).label = (id, t') := by
        rintro T t t' ⟨hlabel, hresolve⟩ rfl
        rw [hlabel]
        exact ⟨hplain, hresolve⟩
      split
      · exact .after quiet_skip fun _ => traces_pure fun t hid ht _ => hread hid ht
      · exact .after quiet_skip fun _ => traces_pure fun t hid ht _ => hread hid ht
      · exact traces_pure fun t hid ht _ => hread hid ht

/-- An operand without operators, by the token ahead. -/
theorem traces_primary : TracesExpr sc (primary sc expression) := by
  have hresolve : ∀ {name id} {T t t' : SymbolTable},
      (T.get id).label = name ∧ t.resolve name = (id, t') →
      t.resolve (T.get id).label = (id, t') := by
    rintro name id T t t' ⟨rfl, h⟩
    exact h
  refine .after quiet_peek fun t => ?_
  split
  case h_1 => exact .after quiet_skip fun _ => (traces_addNumber _).map fun h => h
  case h_2 =>
    exact .after quiet_skip fun _ => hexpr.bind fun e =>
      .after (quiet_expect sc _) fun _ =>
      traces_pure fun t he => he
  case h_3 => exact .after quiet_skip fun _ => traces_named hexpr _
  case h_4 =>
    exact (traces_checkArg sc _).bind fun _ => .after quiet_skip fun _ =>
      traces_pure fun t harg => harg
  case h_5 =>
    exact .after quiet_skip fun _ => .after (quiet_expect sc _) fun _ =>
      .after (quiet_ident sc) fun _ =>
      .after (quiet_expect sc _) fun _ => (traces_resolve _).map hresolve
  case h_6 =>
    exact .after quiet_skip fun _ => .after (quiet_ident sc) fun _ =>
      (traces_resolve _).map hresolve
  case h_7 =>
    exact .after quiet_skip fun _ => .after (quiet_ident sc) fun _ =>
      (traces_resolve _).map hresolve
  case h_8 => exact traces_unexpected sc

end

section

variable {sc : Scope} {binary : Nat → Parser Expr}
  (hbinary : ∀ p, TracesExpr sc (binary p))

include hbinary

theorem traces_operand : TracesExpr sc (operand sc binary) := by
  refine .after quiet_peek fun t => ?_
  split
  · exact .after quiet_skip fun _ => (hbinary _).map fun he => ⟨.inl rfl, he⟩
  · exact .after quiet_skip fun _ => (hbinary _).map fun he => ⟨.inr rfl, he⟩
  · exact traces_primary (hbinary 1)

/-- The operators that follow an operand extend what was read before. -/
theorem traces_climb (least : Nat) (bound : List Located) (lhs : Expr) :
    Traces (climb binary least bound lhs) fun T t₁ t' e =>
      ∀ t, lhs.Reads T sc.inDefinition t t₁ → e.Reads T sc.inDefinition t t' := by
  induction bound generalizing lhs with
  | nil => exact traces_pure fun t h => h
  | cons _ bound ih =>
    refine .after quiet_peek fun tok => ?_
    split
    · split
      case h_1 op _ p hp =>
        split
        · refine .after quiet_skip fun _ => (hbinary _).bind fun rhs => (ih _).mono ?_
          intro T t₂ t' e h t₁ hrhs t hlhs
          exact h t ⟨by rw [hp]; rfl, t₁, hlhs, hrhs⟩
        · exact traces_pure fun t h => h
      case h_2 => exact traces_pure fun t h => h
    · exact traces_pure fun t h => h

end

theorem traces_binary (sc : Scope) (depth least : Nat) :
    TracesExpr sc (binary sc depth least) := by
  induction depth generalizing least with
  | zero => exact traces_fail sc _ _
  | succ depth ih =>
    exact (traces_operand ih).bind fun lhs => .after quiet_ahead fun bound =>
      traces_climb ih least bound lhs

/-! ### Statements -/

/-- A parser of statements. -/
abbrev TracesStmts (sc : Scope) (p : Parser (List Stmt)) : Prop :=
  Traces p fun T t t' ss => Stmt.ReadsAll T sc.inDefinition ss t t'

/-- A parser of a statement. -/
abbrev TracesStmt (sc : Scope) (p : Parser Stmt) : Prop :=
  Traces p fun T t t' s => s.Reads T sc.inDefinition t t'

section

variable {sc : Scope} {expression : Parser Expr} (hexpr : TracesExpr sc expression)

include hexpr

/-- An assignment to a variable or to an argument, or an expression. -/
theorem traces_simple :
    Traces (simple sc expression) fun T t t' s =>
      s.ReadsClause T sc.inDefinition t t' := by
  refine .after quiet_peek fun _ => .after quiet_peekSecond fun _ => ?_
  split
  · split
    case isTrue hop =>
      refine .after quiet_skip fun _ => .after quiet_skip fun _ =>
        (traces_resolve _).bind fun id =>
        hexpr.map fun he t hid => ?_
      exact ⟨hop, _, by rw [hid.1, hid.2], he⟩
    case isFalse => exact hexpr.map fun he => he
  · refine (traces_checkArg sc _).bind fun _ => .after quiet_skip fun _ =>
      .after quiet_skip fun _ =>
      hexpr.map fun he t harg => ?_
    obtain ⟨hin, hn, rfl⟩ := harg
    exact ⟨hin, hn, he⟩
  · exact hexpr.map fun he => he

theorem traces_condition : TracesExpr sc (condition sc expression) :=
  .after (quiet_expect sc _) fun _ => hexpr.bind fun _ =>
    .after (quiet_expect sc _) fun _ =>
    traces_pure fun _ he => he

/-- An item of a print statement, which may be a text. -/
theorem traces_printItem :
    Traces (printItem expression) fun T t t' e => e.ReadsItem T sc.inDefinition t t' := by
  refine .after quiet_peek fun _ => ?_
  split
  · exact .after quiet_skip fun _ => (traces_addText _).map fun h => h
  · exact hexpr.mono fun he => he.item

/-- The further items, each behind a comma. -/
theorem traces_morePrintItems (bound : List Located) :
    Traces (morePrintItems expression bound) fun T t t' es =>
      Expr.ReadsItems T sc.inDefinition es t t' := by
  induction bound with
  | nil => exact traces_pure rfl
  | cons _ bound ih =>
    refine .after quiet_peek fun _ => ?_
    split
    · exact .after quiet_skip fun _ => (traces_printItem hexpr).bind fun _ =>
        ih.map fun hes _ he => ⟨_, he, hes⟩
    · exact traces_pure rfl

theorem traces_printItems :
    Traces (printItems expression) fun T t t' es =>
      es ≠ [] ∧ Expr.ReadsItems T sc.inDefinition es t t' :=
  (traces_printItem hexpr).bind fun _ => .after quiet_ahead fun bound =>
    (traces_morePrintItems hexpr bound).map fun hes _ he =>
      ⟨List.cons_ne_nil _ _, _, he, hes⟩

/-- A return, with a value or without. -/
theorem traces_returnStmt : TracesStmt sc (returnStmt sc expression) := by
  unfold returnStmt
  split
  · exact traces_fail sc _ _
  case isFalse hdef =>
    have hin : sc.inDefinition = true := by simpa using hdef
    refine .after quiet_skip fun _ => .after quiet_peek fun _ => ?_
    split
    case h_4 | h_6 => exact hexpr.map fun he => ⟨hin, he⟩
    all_goals exact traces_pure ⟨hin, rfl⟩

/-- A statement that starts with a name. It is a call if the name is that of a
procedure. -/
theorem traces_namedStmt (name : String) :
    TracesStmt sc (namedStmt sc expression name) := by
  have hsimple : TracesStmt sc (simple sc expression) :=
    (traces_simple hexpr).mono fun h => h.reads
  refine .after quiet_peekSecond fun _ => ?_
  split
  · refine .symbols fun t₀ hsound => ?_
    split
    case h_1 id hlookup =>
      split
      case isTrue hkind =>
        refine .after quiet_skip fun _ => (traces_arguments hexpr).map fun hes ht hT => ?_
        obtain ⟨hlt, hname⟩ := hsound.named hlookup
        subst ht
        exact ⟨⟨by rw [label_of_evolves hlt hname hT, hlookup], hkind⟩, hes⟩
      case isFalse => exact hsimple.mono fun h _ _ => h
    case h_2 => exact hsimple.mono fun h _ _ => h
  · exact hsimple

variable {statement : Parser (List Stmt)} (hstmt : TracesStmts sc statement)

include hstmt

omit hexpr in
/-- The statements of a block, one after the other. -/
theorem traces_blockItems (bound : List Located) :
    TracesStmts sc (blockItems sc statement bound) := by
  induction bound with
  | nil => exact traces_fail sc _ _
  | cons _ bound ih =>
    refine .after quiet_peek fun _ => ?_
    split
    · exact .after quiet_skip fun _ => traces_pure rfl
    · exact .after quiet_skip fun _ => ih
    · exact traces_fail sc _ _
    · exact hstmt.bind fun _ => ih.map fun hrest _ hfirst => hfirst.append hrest

theorem traces_forStmt : TracesStmt sc (forStmt sc expression statement) := by
  refine .after quiet_skip fun _ => .after (quiet_expect sc _) fun _ =>
    (traces_simple hexpr).bind fun _ => .after (quiet_expect sc _) fun _ =>
      hexpr.bind fun _ =>
      .after (quiet_expect sc _) fun _ => (traces_simple hexpr).bind fun _ =>
        .after (quiet_expect sc _) fun _ => hstmt.map ?_
  intro T t₃ t' body hbody t₂ hpost t₁ hcond t hinit
  exact ⟨t₁, t₂, t₃, hinit, hcond, hpost, hbody⟩

/-- A branch, with or without `else`. -/
theorem traces_ifStmt : TracesStmt sc (ifStmt sc expression statement) := by
  refine .after quiet_skip fun _ => (traces_condition hexpr).bind fun _ =>
    hstmt.bind fun _ =>
    .after quiet_peek fun _ => ?_
  split
  · refine .after quiet_skip fun _ => hstmt.map ?_
    intro T t₂ t' other hother t₁ hbody t hcond
    exact ⟨t₁, t₂, hcond, hbody, hother⟩
  · refine traces_pure ?_
    intro T t' t₁ hbody t hcond
    exact ⟨t₁, hcond, hbody⟩

omit hexpr hstmt in
theorem traces_terminated {p : Parser Stmt} (hp : TracesStmt sc p) :
    TracesStmts sc (terminated p) :=
  hp.bind fun _ => .after quiet_terminator fun _ => traces_pure fun _ hs => ⟨_, hs, rfl⟩

/-- A statement, by the token it starts with. -/
theorem traces_anyStatement : TracesStmts sc (anyStatement sc expression statement) := by
  have hsimple : TracesStmt sc (simple sc expression) :=
    (traces_simple hexpr).mono fun h => h.reads
  refine .after quiet_peek fun _ => ?_
  split
  case h_1 =>
    exact .after quiet_skip fun _ => .after quiet_ahead fun bound =>
      traces_blockItems hstmt bound
  case h_2 =>
    exact traces_terminated (.after quiet_skip fun _ =>
      (traces_printItems hexpr).map fun h => h)
  case h_3 =>
    exact traces_terminated (.after quiet_skip fun _ =>
      (traces_condition hexpr).bind fun _ =>
      hstmt.map fun hbody _ hcond => ⟨_, hcond, hbody⟩)
  case h_4 => exact (traces_forStmt hexpr hstmt).map fun hs => ⟨_, hs, rfl⟩
  case h_5 => exact (traces_ifStmt hexpr hstmt).map fun hs => ⟨_, hs, rfl⟩
  case h_6 => exact traces_terminated (traces_returnStmt hexpr)
  case h_7 => exact traces_terminated hsimple
  case h_8 => exact traces_unexpected sc
  case h_9 => exact traces_terminated (traces_namedStmt hexpr _)
  case h_10 => exact traces_terminated hsimple

end

theorem traces_statement (sc : Scope) (depth : Nat) :
    TracesStmts sc (statement sc depth) := by
  induction depth with
  | zero => exact traces_fail sc _ _
  | succ depth ih => exact traces_anyStatement (traces_binary sc depth 1) ih

/-! ### Programs -/

/-- The kind of the name changes before the body is read. That the table still
advances depends on what the name stands for, so the run is followed step by
step. -/
theorem traces_definition (sc : Scope) (kind : DefinitionKind) (depth : Nat) :
    Traces (definition sc kind depth) fun T t t' s => s.ReadsTop T t t' := by
  refine .after quiet_skip fun _ => .after (quiet_ident sc) fun name => ?_
  intro s d s' hsound hrun
  obtain ⟨id, s₁, hresolve, hrun⟩ := Action.of_bind_ok hrun
  obtain ⟨t, s₂, hsymbols, hrun⟩ := Action.of_bind_ok hrun
  cases hsymbols
  obtain ⟨hadvances, hlabel⟩ := traces_resolve name _ _ _ hsound hresolve
  have hsound₁ := hadvances.sound hsound
  have hname : (s₁.symbols.get id).name = some name := by
    cases hresolve
    exact (hsound.name_resolve name).2
  split at hrun
  · exact nomatch hrun
  case isFalse hkind =>
    obtain ⟨_, s₃, hmodify, hrun⟩ := Action.of_bind_ok hrun
    cases hmodify
    have hset := (hsound₁.continues_declare hname hkind kind).toAdvances
    have hbody : Traces (expect sc .leftParen >>=
        fun _ => expect sc .rightParen >>= fun _ =>
        statement { sc with inDefinition := true } depth >>= fun body =>
          pure (Stmt.define kind id body)) fun T t t' d =>
        ∃ body, d = .define kind id body ∧ Stmt.ReadsAll T true body t t' :=
      .after (quiet_expect sc _) fun _ => .after (quiet_expect sc _) fun _ =>
        (traces_statement { sc with inDefinition := true } depth).map fun h => ⟨_, rfl, h⟩
    obtain ⟨hadvances', hpost⟩ := hbody _ _ _ (hset.sound hsound₁) hrun
    refine ⟨hadvances.trans (hset.trans hadvances'), fun T hT => ?_⟩
    obtain ⟨body, rfl, hreads⟩ := hpost T hT
    obtain ⟨hid, heq⟩ := hlabel T ((hset.trans hadvances').evolves.trans hT)
    exact ⟨s₁.symbols, by rw [hid, heq], hkind, hreads⟩

/-- A program is read definition by definition and statement by statement. -/
theorem traces_programItems (sc : Scope) (hsc : sc.inDefinition = false) (depth : Nat)
    (bound : List Located) :
    Traces (programItems sc depth bound) fun T t t' program =>
      Stmt.ReadsProgram T program t t' := by
  induction bound with
  | nil => exact traces_pure rfl
  | cons _ bound ih =>
    refine .after quiet_peek fun _ => ?_
    split
    · exact traces_pure rfl
    · exact .after quiet_skip fun _ => ih
    · exact (traces_definition sc .function depth).bind fun _ => ih.map fun hrest _ hd =>
        ⟨_, hd, hrest⟩
    · exact (traces_definition sc .procedure depth).bind fun _ => ih.map fun hrest _ hd =>
        ⟨_, hd, hrest⟩
    · have hstmt := traces_statement sc depth
      rw [TracesStmts, hsc] at hstmt
      exact hstmt.bind fun _ => ih.map fun hrest _ hfirst => hfirst.program hrest

end Parser

/-- What was read as a program is what the parser of programs gave. -/
theorem programItems_of_parse {tokens : List Located} {t t' : SymbolTable} {depth : Nat}
    {program : List Stmt} (h : parse tokens t depth = (.ok program, t')) :
    ∃ rest, Parser.programItems ⟨false, tokens.getLast?.map Located.line⟩ depth
      tokens ⟨tokens, t⟩ =
      .ok program ⟨rest, t'⟩ := by
  rw [parse] at h
  split at h
  · rename_i heq
    cases h
    exact ⟨_, heq⟩
  · exact nomatch h

theorem parse_of_programItems {tokens rest : List Located}
    {t t' : SymbolTable} {depth : Nat} {program : List Stmt}
    (h : Parser.programItems ⟨false, tokens.getLast?.map Located.line⟩ depth
      tokens ⟨tokens, t⟩ =
      .ok program ⟨rest, t'⟩) : parse tokens t depth = (.ok program, t') := by
  rw [parse, h]

end StackCalc
