import StackCalc.Proofs.Parser.Composition
import StackCalc.Proofs.Parser.Reading
import StackCalc.Proofs.Tree.WellFormed

/-!
# What parsers yield

A tree that is read from a sound symbol table is well-formed in the table that
reading it leaves (`Expr.wellFormed_of_reads`, `Stmt.wellFormed_of_reads`).

What a parser does if it fails is no matter of trees. `Parser.Yields t p post`
says what a parser does in a sound symbol table that evolved from `t`: the table
continues, whether the parser fails or not, and what it reads satisfies `post`
in the new table. If it fails, then with a fault of the text. The parsers of
statements do so because their steps do (`Parser.Composed.passes`).

The main result is `parse_wellFormed`: the program that is read from any list of
tokens is well-formed.
-/

namespace StackCalc

/-- An operator that binds between two operands has an operation. -/
theorem Operator.isSome_binaryOp?_of_precedence? (op : Operator)
    (h : op.precedence?.isSome) : op.binaryOp?.isSome := by
  revert h
  cases op <;> simp [precedence?, binaryOp?]

theorem Operator.isSome_assignOp?_of_isAssignment (op : Operator) (h : op.isAssignment) :
    op.assignOp?.isSome := by
  revert h
  cases op <;> simp [isAssignment, assignOp?]

/-- Whether a kind of fault is one that reading a text may have. -/
def FaultKind.isOfText (k : FaultKind) : Bool :=
  k.isCompile || k == .nestedTooDeeply

/-! ### Trees that are read -/

section

variable {T t t' : SymbolTable} {inside : Bool} {id : Nat}

theorem SymbolTable.Sound.of_resolve {name : String} (ht : t.Sound)
    (h : t.resolve name = (id, t')) : t.Continues t' ∧ id < t'.size := by
  have hcontinues := t.continues_resolve name
  obtain ⟨hlt, -⟩ := ht.name_resolve name
  rw [h] at hcontinues hlt
  exact ⟨hcontinues, hlt⟩

theorem SymbolTable.of_addNumber {x : Float} (h : t.addNumber x = (id, t')) :
    t.Continues t' ∧ (t'.get id).kind = .number := by
  have hcontinues := t.continues_addNumber x
  have hentry : ((t.addNumber x).2.get (t.addNumber x).1).kind = .number := by
    rw [SymbolTable.addNumber, SymbolTable.get_push_self]
  rw [h] at hcontinues hentry
  exact ⟨hcontinues, hentry⟩

/-- A text gets an entry that holds it. -/
theorem SymbolTable.of_addText {text : String} (h : t.addText text = (id, t')) :
    t.Continues t' ∧ id < t'.size ∧ (t'.get id).text.isSome := by
  have hcontinues := t.continues_addText text
  have hlt : (t.addText text).1 < (t.addText text).2.size := by
    rw [SymbolTable.addText, SymbolTable.size_push]
    exact Nat.lt_succ_self _
  have hentry : ((t.addText text).2.get (t.addText text).1).text.isSome := by
    rw [SymbolTable.addText, SymbolTable.get_push_self]
    rfl
  rw [h] at hcontinues hlt hentry
  exact ⟨hcontinues, hlt, hentry⟩

mutual

/-- An expression that is read has a meaning. Its parts are read in the tables
of their time, and keep their meaning in the last one. -/
theorem Expr.wellFormed_of_reads :
    ∀ (e : Expr) {t t' : SymbolTable}, t.Sound → e.Reads T inside t t' →
    t.Continues t' ∧ e.WellFormed t' inside
  | .literal _, _, _, _, h => SymbolTable.of_addNumber h
  | .variable _, _, _, ht, h => ht.of_resolve h.2
  | .text _, _, _, _, h => h.elim
  | .binary op l r, _, _, ht, ⟨hop, _, hl, hr⟩ => by
    obtain ⟨h₁, hl⟩ := l.wellFormed_of_reads ht hl
    obtain ⟨h₂, hr⟩ := r.wellFormed_of_reads (h₁.sound ht) hr
    exact ⟨h₁.trans h₂, op.isSome_binaryOp?_of_precedence? hop,
      hl.evolve h₂.evolves, hr⟩
  | .unary _ e, _, _, ht, ⟨hop, he⟩ => by
    obtain ⟨h, he⟩ := e.wellFormed_of_reads ht he
    exact ⟨h, by rcases hop with rfl | rfl <;> rfl, he⟩
  | .builtin _ e, _, _, ht, ⟨⟨hlookup, hkind⟩, he⟩ => by
    obtain ⟨h, he⟩ := e.wellFormed_of_reads ht he
    refine ⟨h, h.evolves.builtin hkind, ?_, he⟩
    rw [h.evolves.native (ht.named hlookup).1]
    exact ht.builtin_native hkind
  | .step .preInc _, _, _, ht, h => ht.of_resolve h
  | .step .preDec _, _, _, ht, h => ht.of_resolve h
  | .step .postInc _, _, _, ht, h => ht.of_resolve h.2
  | .step .postDec _, _, _, ht, h => ht.of_resolve h.2
  | .call _ es, _, _, ht, ⟨hfinds, hes⟩ => by
    obtain ⟨h, hes⟩ := Expr.allWellFormed_of_reads es ht hes
    exact ⟨h, Nat.lt_of_lt_of_le (ht.named hfinds.1).1 h.evolves.size_le, hes⟩
  | .arg _, t, _, _, ⟨hinside, hn, heq⟩ =>
    ⟨heq ▸ .refl t, hinside, Nat.pos_of_ne_zero hn⟩
  | .read _, _, _, ht, h => ht.of_resolve h

theorem Expr.allWellFormed_of_reads : ∀ (es : List Expr) {t t' : SymbolTable},
    t.Sound → Expr.ReadsAll T inside es t t' →
    t.Continues t' ∧ Expr.AllWellFormed t' inside es
  | [], t, _, _, h => ⟨h ▸ .refl t, trivial⟩
  | e :: es, _, _, ht, ⟨_, he, hes⟩ => by
    obtain ⟨h₁, he⟩ := e.wellFormed_of_reads ht he
    obtain ⟨h₂, hes⟩ := Expr.allWellFormed_of_reads es (h₁.sound ht) hes
    exact ⟨h₁.trans h₂, he.evolve h₂.evolves, hes⟩

end

/-- The items of a print statement, of which texts are no expressions. -/
theorem Expr.printable_of_reads {es : List Expr} (ht : t.Sound)
    (h : Expr.ReadsItems T inside es t t') :
    t.Continues t' ∧ ∀ e ∈ es, e.Printable t' inside := by
  induction es generalizing t with
  | nil => exact ⟨h ▸ .refl t, by simp⟩
  | cons e es ih =>
    obtain ⟨t₁, he, hes⟩ := h
    have hitem : t.Continues t₁ ∧ e.Printable t₁ inside := by
      cases e
      case text id => exact SymbolTable.of_addText he
      all_goals
        obtain ⟨h₁, he⟩ := Expr.wellFormed_of_reads _ ht he
        exact ⟨h₁, he.printable⟩
    obtain ⟨h₂, hes⟩ := ih (hitem.1.sound ht) hes
    exact ⟨hitem.1.trans h₂,
      List.forall_mem_cons.mpr ⟨hitem.2.evolve h₂.evolves, hes⟩⟩

/-- The statements that may stand in the head of a loop. -/
theorem Stmt.isClause_of_reads {s : Stmt} (ht : t.Sound)
    (h : s.ReadsClause T inside t t') : t.Continues t' ∧ s.IsClause t' inside := by
  cases s
  case assign op id e =>
    obtain ⟨hop, t₁, hresolve, he⟩ := h
    obtain ⟨h₁, hlt⟩ := ht.of_resolve hresolve
    obtain ⟨h₂, he⟩ := e.wellFormed_of_reads (h₁.sound ht) he
    exact ⟨h₁.trans h₂, op.isSome_assignOp?_of_isAssignment hop,
      Nat.lt_of_lt_of_le hlt h₂.evolves.size_le, he⟩
  case argAssign n e =>
    obtain ⟨hinside, hn, he⟩ := h
    obtain ⟨h₁, he⟩ := e.wellFormed_of_reads ht he
    exact ⟨h₁, hinside, Nat.pos_of_ne_zero hn, he⟩
  case expr e => exact e.wellFormed_of_reads ht h
  all_goals exact h.elim

mutual

/-- A statement that is read has a meaning, by its form. -/
theorem Stmt.wellFormed_of_reads :
    ∀ (s : Stmt) {t t' : SymbolTable}, t.Sound → s.Reads T inside t t' →
    t.Continues t' ∧ s.WellFormed t' inside
  | .assign op id e, _, _, ht, h => Stmt.isClause_of_reads (s := .assign op id e) ht h
  | .argAssign n e, _, _, ht, h => Stmt.isClause_of_reads (s := .argAssign n e) ht h
  | .expr e, _, _, ht, h => e.wellFormed_of_reads ht h
  | .print _, _, _, ht, h => Expr.printable_of_reads ht h.2
  | .whileLoop c body, _, _, ht, ⟨_, hc, hbody⟩ => by
    obtain ⟨h₁, hc⟩ := c.wellFormed_of_reads ht hc
    obtain ⟨h₂, hbody⟩ := Stmt.allWellFormed_of_reads body (h₁.sound ht) hbody
    exact ⟨h₁.trans h₂, hc.evolve h₂.evolves, hbody⟩
  | .forLoop _ c _ body, _, _, ht, ⟨_, _, _, hinit, hc, hpost, hbody⟩ => by
    obtain ⟨h₁, hinit⟩ := Stmt.isClause_of_reads ht hinit
    obtain ⟨h₂, hc⟩ := c.wellFormed_of_reads (h₁.sound ht) hc
    have h₁₂ := h₁.trans h₂
    obtain ⟨h₃, hpost⟩ := Stmt.isClause_of_reads (h₁₂.sound ht) hpost
    have h₁₃ := h₁₂.trans h₃
    obtain ⟨h₄, hbody⟩ := Stmt.allWellFormed_of_reads body (h₁₃.sound ht) hbody
    have h₃₄ := h₃.trans h₄
    exact ⟨h₁₃.trans h₄, hinit.evolve (h₂.trans h₃₄).evolves, hc.evolve h₃₄.evolves,
      hpost.evolve h₄.evolves, hbody⟩
  | .ifThen c body, _, _, ht, ⟨_, hc, hbody⟩ => by
    obtain ⟨h₁, hc⟩ := c.wellFormed_of_reads ht hc
    obtain ⟨h₂, hbody⟩ := Stmt.allWellFormed_of_reads body (h₁.sound ht) hbody
    exact ⟨h₁.trans h₂, hc.evolve h₂.evolves, hbody⟩
  | .ifElse c body other, _, _, ht, ⟨_, _, hc, hbody, hother⟩ => by
    obtain ⟨h₁, hc⟩ := c.wellFormed_of_reads ht hc
    obtain ⟨h₂, hbody⟩ := Stmt.allWellFormed_of_reads body (h₁.sound ht) hbody
    have h₁₂ := h₁.trans h₂
    obtain ⟨h₃, hother⟩ := Stmt.allWellFormed_of_reads other (h₁₂.sound ht) hother
    exact ⟨h₁₂.trans h₃, hc.evolve (h₂.trans h₃).evolves,
      Stmt.AllWellFormed.evolve h₃.evolves hbody, hother⟩
  | .call _ es, _, _, ht, ⟨hfinds, hes⟩ => by
    obtain ⟨h, hes⟩ := Expr.allWellFormed_of_reads es ht hes
    exact ⟨h, Nat.lt_of_lt_of_le (ht.named hfinds.1).1 h.evolves.size_le, hes⟩
  | .returnValue e, _, _, ht, ⟨hinside, he⟩ => by
    obtain ⟨h, he⟩ := e.wellFormed_of_reads ht he
    exact ⟨h, hinside, he⟩
  | .returnNothing, t, _, _, ⟨hinside, heq⟩ => ⟨heq ▸ .refl t, hinside⟩
  | .define _ _ _, _, _, _, h => h.elim

theorem Stmt.allWellFormed_of_reads : ∀ (ss : List Stmt) {t t' : SymbolTable},
    t.Sound → Stmt.ReadsAll T inside ss t t' →
    t.Continues t' ∧ Stmt.AllWellFormed t' inside ss
  | [], t, _, _, h => ⟨h ▸ .refl t, trivial⟩
  | s :: ss, _, _, ht, ⟨_, hs, hss⟩ => by
    obtain ⟨h₁, hs⟩ := s.wellFormed_of_reads ht hs
    obtain ⟨h₂, hss⟩ := Stmt.allWellFormed_of_reads ss (h₁.sound ht) hss
    exact ⟨h₁.trans h₂, hs.evolve h₂.evolves, hss⟩

end

/-- A part of a program. The name of a definition has its kind before the body is
read. -/
theorem Stmt.isTopLevel_of_reads {s : Stmt} (ht : t.Sound) (h : s.ReadsTop T t t') :
    t.Continues t' ∧ s.IsTopLevel t' := by
  cases s
  case define kind id body =>
    obtain ⟨t₁, hresolve, hkind, hbody⟩ := h
    obtain ⟨h₁, hlt⟩ := ht.of_resolve hresolve
    have hname : (t₁.get id).name = some (T.get id).label := by
      have := (ht.name_resolve (T.get id).label).2
      rwa [hresolve] at this
    have h₂ := (h₁.sound ht).continues_declare hname hkind kind
    have h₁₂ := h₁.trans h₂
    obtain ⟨h₃, hbody⟩ := Stmt.allWellFormed_of_reads body (h₁₂.sound ht) hbody
    exact ⟨h₁₂.trans h₃, Nat.lt_of_lt_of_le hlt (h₂.trans h₃).evolves.size_le, hbody⟩
  all_goals
    obtain ⟨h₁, hs⟩ := Stmt.wellFormed_of_reads _ ht h
    exact ⟨h₁, hs.isTopLevel⟩

theorem Stmt.allTopLevel_of_reads {ss : List Stmt} (ht : t.Sound)
    (h : Stmt.ReadsProgram T ss t t') : t.Continues t' ∧ ∀ s ∈ ss, s.IsTopLevel t' := by
  induction ss generalizing t with
  | nil => exact ⟨h ▸ .refl t, by simp⟩
  | cons s ss ih =>
    obtain ⟨t₁, hs, hss⟩ := h
    obtain ⟨h₁, hs⟩ := Stmt.isTopLevel_of_reads ht hs
    obtain ⟨h₂, hss⟩ := ih (h₁.sound ht) hss
    exact ⟨h₁.trans h₂, List.forall_mem_cons.mpr ⟨hs.evolve h₂.evolves, hss⟩⟩

end

/-! ### Parsers -/

namespace Parser

variable {α β : Type} {t : SymbolTable}

/-- From a sound table that evolved from `t`, a parser lets the table continue,
and what it reads satisfies `post` there; if it fails, the fault is one of the
text. -/
def Yields (t : SymbolTable) (p : Parser α) (post : SymbolTable → α → Prop) : Prop :=
  ∀ s, s.symbols.Sound → t.Evolves s.symbols →
    match p s with
    | .ok a s' => s.symbols.Continues s'.symbols ∧ post s'.symbols a
    | .error f s' => s.symbols.Continues s'.symbols ∧ f.kind.isOfText

/-- A parser that reads something of which nothing is said. -/
abbrev Passes (t : SymbolTable) (p : Parser α) : Prop :=
  Yields t p fun _ _ => True

/-- A sequence: the second parser starts in a table that evolved from where the
first one started. -/
theorem Yields.bind {p : Parser α} {f : α → Parser β} {mid : SymbolTable → α → Prop}
    {post : SymbolTable → β → Prop} (hp : Yields t p mid)
    (hf : ∀ {t' a}, t.Evolves t' → t'.Sound → mid t' a → Yields t' (f a) post) :
    Yields t (p >>= f) post := by
  intro s hsound hevolves
  have hfirst := hp s hsound hevolves
  rw [Action.bind_apply]
  cases hrun : p s with
  | error e s' =>
    rw [hrun] at hfirst
    exact hfirst
  | ok a s' =>
    rw [hrun] at hfirst
    obtain ⟨hcontinues, hmid⟩ := hfirst
    -- the second parser may rely on the table that the first one left
    have hsecond := hf (hevolves.trans hcontinues.evolves)
      (hcontinues.sound hsound) hmid s' (hcontinues.sound hsound)
      (SymbolTable.Evolves.refl _)
    show match f a s' with
      | .ok b s'' => s.symbols.Continues s''.symbols ∧ post s''.symbols b
      | .error e s'' => s.symbols.Continues s''.symbols ∧ e.kind.isOfText
    cases hrest : f a s' with
    | error e s'' =>
      rw [hrest] at hsecond
      exact ⟨hcontinues.trans hsecond.1, hsecond.2⟩
    | ok b s'' =>
      rw [hrest] at hsecond
      exact ⟨hcontinues.trans hsecond.1, hsecond.2⟩

theorem passes_peek : Passes t peek :=
  fun s _ _ => ⟨.refl s.symbols, trivial⟩

theorem passes_skip : Passes t skip :=
  fun s _ _ => ⟨.refl s.symbols, trivial⟩

theorem passes_pure (a : α) : Passes t (pure a) :=
  fun s _ _ => ⟨.refl s.symbols, trivial⟩

theorem yields_symbols : Yields t symbols fun t' t'' => t'' = t' :=
  fun s _ _ => ⟨.refl s.symbols, rfl⟩

theorem yields_resolve (name : String) :
    Yields t (resolve name) fun t' id => id < t'.size ∧ (t'.get id).name = some name :=
  fun s hsound _ => ⟨s.symbols.continues_resolve name, hsound.name_resolve name⟩

/-- What is made of the steps of a parser lets the table continue, and fails with
a fault of the text. -/
theorem Composed.passes {sc : Scope} {ts : List Token} {p : Parser α}
    (h : Composed sc ts p) : Passes t p := by
  induction h generalizing t with
  | pure a => exact passes_pure a
  | fail hkind note =>
    have hofText : ∀ kind ∈ failures, kind.isOfText := by decide
    exact fun s _ _ => ⟨.refl s.symbols, hofText _ hkind⟩
  | illegal text => exact fun s _ _ => ⟨.refl s.symbols, rfl⟩
  | resolve name => exact fun s _ _ => ⟨s.symbols.continues_resolve name, trivial⟩
  | number x => exact fun s _ _ => ⟨s.symbols.continues_addNumber x, trivial⟩
  | text text => exact fun s _ _ => ⟨s.symbols.continues_addText text, trivial⟩
  | skip => exact passes_skip
  | peek _ ih => exact passes_peek.bind fun _ _ _ => ih _
  | peekBoth _ ih => exact fun s => ih _ _ s
  | look hp _ ih =>
    intro s hsound hevolves
    obtain ⟨a, hlook⟩ := hp s
    rw [Action.bind_of_ok hlook]
    exact ih a s hsound hevolves
  | skipThen _ _ ih => exact passes_skip.bind fun _ _ _ => ih
  | bind _ _ ihp ihf => exact ihp.bind fun _ _ _ => ihf _
  | ahead _ _ ih => exact ih

/-- A name that is not that of a built-in function becomes that of a definition. -/
theorem passes_setKind {id : Nat} {name : String} (hlt : id < t.size)
    (hname : (t.get id).name = some name) (hkind : (t.get id).kind ≠ .builtin)
    (kind : DefinitionKind) :
    Passes t (modify fun s =>
      { s with symbols := s.symbols.modify id fun e =>
        { e with kind := kind.symbolKind } }) := by
  intro s hsound hevolves
  refine ⟨hsound.continues_declare ((hevolves.name hlt).trans hname) ?_ kind, trivial⟩
  exact fun hk => hkind (hevolves.new_builtin hlt hk)

/-- A definition, whose name is not that of a built-in function. -/
theorem passes_definition (sc : Scope) (kind : DefinitionKind) (depth : Nat) :
    Passes t (definition sc kind depth) := by
  refine passes_skip.bind fun _ _ _ => composed_ident.passes.bind fun _ _ _ =>
    (yields_resolve _).bind fun _ _ hid => yields_symbols.bind fun h _ heq => ?_
  subst heq
  split
  · exact (composed_malformed _).passes
  case isFalse hkind =>
    have hlt := Nat.lt_of_lt_of_le hid.1 h.size_le
    exact (passes_setKind hlt ((h.name hid.1).trans hid.2) hkind kind).bind fun _ _ _ =>
      (composed_expect rfl).passes.bind fun _ _ _ =>
      (composed_expect rfl).passes.bind fun _ _ _ =>
        ((composed_statement _ depth).map _).passes

/-- A program, definition by definition and statement by statement. -/
theorem passes_programItems (sc : Scope) (depth : Nat) (bound : List Located) :
    Passes t (programItems sc depth bound) := by
  induction bound generalizing t with
  | nil => exact passes_pure []
  | cons _ bound ih =>
    refine passes_peek.bind fun _ _ _ => ?_
    split
    · exact passes_pure []
    · exact passes_skip.bind fun _ _ _ => ih
    · exact (passes_definition sc .function depth).bind fun _ _ _ =>
        ih.bind fun _ _ _ => passes_pure _
    · exact (passes_definition sc .procedure depth).bind fun _ _ _ =>
        ih.bind fun _ _ _ => passes_pure _
    · exact (composed_statement sc depth).passes.bind fun _ _ _ =>
        ih.bind fun _ _ _ => passes_pure _

end Parser

/-- Reading a program lets the symbol table advance, and the program is
well-formed in the new one, or there is a fault of the text. -/
theorem parse_wellFormed (tokens : List Located) {t : SymbolTable} (ht : t.Sound)
    (depth : Nat) :
    t.Continues (parse tokens t depth).2 ∧
      (∀ program, (parse tokens t depth).1 = .ok program →
        ∀ s ∈ program, s.IsTopLevel (parse tokens t depth).2) ∧
      ∀ f, (parse tokens t depth).1 = .error f → f.kind.isOfText := by
  have hpasses := Parser.passes_programItems ⟨false, tokens.getLast?.map Located.line⟩
    depth tokens ⟨tokens, t⟩ ht (SymbolTable.Evolves.refl t)
  unfold parse
  dsimp only
  cases hrun : Parser.programItems _ depth tokens ⟨tokens, t⟩ with
  | ok program s =>
    rw [hrun] at hpasses
    -- the names and literals are those of the table in which reading ends
    have hreads := (Parser.traces_programItems _ rfl depth tokens _ _ _ ht hrun).2
      s.symbols (SymbolTable.Evolves.refl _)
    obtain ⟨-, htop⟩ := Stmt.allTopLevel_of_reads ht hreads
    exact ⟨hpasses.1, fun _ heq => Except.ok.inj heq ▸ htop, nofun⟩
  | error f s =>
    rw [hrun] at hpasses
    exact ⟨hpasses.1, nofun, fun _ heq => Except.error.inj heq ▸ hpasses.2⟩

end StackCalc
