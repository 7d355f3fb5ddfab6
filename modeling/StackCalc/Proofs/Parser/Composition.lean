import StackCalc.Proofs.Parser.Tokens

/-!
# What parsers are made of

The parsers of expressions and statements are put together from few steps: they
look at the tokens ahead, leave a token behind that they have looked at, add
symbols, and fail in place. `Parser.Composed sc ts p` says that `p` is made of
such steps where the tokens start with `ts`, and `Parser.composed_statement`
that all parsers of statements are. So what is true of the steps, and of
sequences, is true of every statement.

No step leaves an unknown token behind or one that starts a definition.
Definitions, and with them whole programs, are no such parsers: they change
symbols that are there.
-/

namespace StackCalc

/-- What a token starts the definition of. -/
def Token.defines? : Token → Option DefinitionKind
  | .keyword .funcKw => some .function
  | .keyword .procKw => some .procedure
  | _ => none

/-- Whether a token is one of the language. -/
def Token.isKnown : Token → Bool
  | .unknown _ => false
  | _ => true

/-- Whether a token may stand in a statement. -/
def Token.isPlain (t : Token) : Bool :=
  t.isKnown && t.defines?.isNone

theorem Token.isKnown_of_isPlain {t : Token} (h : t.isPlain) : t.isKnown :=
  (Bool.and_eq_true_iff.mp h).1

theorem Token.defines?_of_isPlain {t : Token} (h : t.isPlain) : t.defines? = none :=
  Option.isNone_iff_eq_none.mp (Bool.and_eq_true_iff.mp h).2

/-- The tokens of a state, without their lines. -/
def ParseState.row (s : ParseState) : List Token :=
  s.tokens.map Located.token

/-- The state with the token at the front left behind. -/
def ParseState.next (s : ParseState) : ParseState :=
  { s with tokens := s.tokens.tail }

/-- A token that is ahead is the one at the front. -/
theorem ParseState.row_of_ahead {s : ParseState} {t : Token} {ts : List Token}
    (h : t :: ts <+: s.row) :
    s.row = t :: s.next.row ∧ ts <+: s.next.row := by
  obtain ⟨rest, hrest⟩ := h
  have hnext : s.next.row = ts ++ rest := by
    show s.tokens.tail.map Located.token = ts ++ rest
    rw [List.map_tail]
    exact (congrArg List.tail hrest).symm
  rw [hnext]
  exact ⟨hrest.symm, rest, rfl⟩

/-- The token at the front is ahead. -/
theorem ParseState.front_ahead (s : ParseState) :
    (s.tokens.head?.map Located.token).toList <+: s.row := by
  unfold row
  cases s.tokens with
  | nil => exact List.nil_prefix
  | cons l ls => exact ⟨ls.map Located.token, rfl⟩

/-- The two tokens at the front are ahead. -/
theorem ParseState.both_ahead (s : ParseState) :
    (s.tokens.head?.map Located.token).toList ++
      (s.tokens.tail.head?.map Located.token).toList <+:
      s.row := by
  unfold row
  match s.tokens with
  | [] => exact List.nil_prefix
  | [l] => exact List.prefix_rfl
  | l :: l' :: ls => exact ⟨ls.map Located.token, rfl⟩

namespace Parser

variable {α β : Type} {ts : List Token}

/-! ### Single tokens -/

/-- A name is taken, or there is none. -/
theorem ident_cases (sc : Scope) (s : ParseState) :
    (∃ name, ident sc s = .ok name s.next ∧ s.row = .ident name :: s.next.row) ∨
      ∃ e, ident sc s = .error e s := by
  have hpeek : peek s = .ok (s.tokens.head?.map Located.token) s := rfl
  have hfail : ∃ e, (malformed sc "expected identifier" : Parser String) s = .error e s :=
    ⟨_, rfl⟩
  have hahead := s.front_ahead
  rw [ident, Action.bind_of_ok hpeek]
  clear hpeek
  generalize s.tokens.head?.map Located.token = front at hahead ⊢
  cases front with
  | none => exact .inr hfail
  | some t =>
    cases t
    case ident name => exact .inl ⟨name, rfl, (ParseState.row_of_ahead hahead).1⟩
    all_goals exact .inr hfail

/-- The token is taken, or it is not there. -/
theorem expect_cases (sc : Scope) (t : Token) (s : ParseState) :
    (expect sc t s = .ok () s.next ∧ s.row = t :: s.next.row) ∨ ∃ e,
      expect sc t s = .error e s := by
  have hpeek : peek s = .ok (s.tokens.head?.map Located.token) s := rfl
  have hfail : ∀ note, ∃ e, (malformed sc note : Parser Unit) s = .error e s :=
    fun _ => ⟨_, rfl⟩
  have hahead := s.front_ahead
  rw [expect, Action.bind_of_ok hpeek]
  generalize hfront : s.tokens.head?.map Located.token = front at hahead ⊢
  split
  case h_1 =>
    rw [unexpected, Action.bind_of_ok hpeek, hfront]
    exact .inr ⟨_, rfl⟩
  case h_2 =>
    split
    case isTrue heq =>
      subst heq
      exact .inl ⟨rfl, (ParseState.row_of_ahead hahead).1⟩
    case isFalse => exact .inr (hfail _)
  case h_3 => exact .inr (hfail _)

/-! ### Steps -/

/-- A parser that succeeds and changes nothing. -/
def Looks (p : Parser α) : Prop :=
  ∀ s, ∃ a, p s = .ok a s

/-- The ways to fail other than for an unknown token. -/
def failures : List FaultKind :=
  [.malformed, .definitionOnly, .nestedTooDeeply]

/-- Where the tokens start with `ts`, the parser is made of steps that look
ahead, leave tokens behind, add symbols and fail. -/
inductive Composed (sc : Scope) : {α : Type} → List Token → Parser α → Prop where
  | pure {α : Type} (a : α) : Composed sc [] (Pure.pure a : Parser α)
  | fail {α : Type} {kind : FaultKind} (h : kind ∈ failures) (note : String) :
    Composed sc [] (Parser.fail sc kind note : Parser α)
  /-- The fault for an unknown token names it. -/
  | illegal {α : Type} (text : String) :
    Composed sc [.unknown text] (Parser.fail sc .illegalCharacter text : Parser α)
  | resolve (name : String) : Composed sc [] (Parser.resolve name)
  | number (x : Float) : Composed sc [] (addSymbol (·.addNumber x))
  | text (text : String) : Composed sc [] (addSymbol (·.addText text))
  /-- A token is left behind only if it is known which one it is. -/
  | skip {t : Token} (h : t.isPlain) : Composed sc [t] Parser.skip
  | peek {β : Type} {f : Option Token → Parser β} (hf : ∀ o, Composed sc o.toList (f o)) :
    Composed sc [] (Parser.peek >>= f)
  | peekBoth {β : Type} {f : Option Token → Option Token → Parser β}
    (hf : ∀ o o', Composed sc (o.toList ++ o'.toList) (f o o')) :
    Composed sc [] (Parser.peek >>= fun o => peekSecond >>= fun o' => f o o')
  | look {α β : Type} {ts : List Token} {p : Parser α} {f : α → Parser β} (hp : Looks p)
    (hf : ∀ a, Composed sc ts (f a)) : Composed sc ts (p >>= f)
  | skipThen {β : Type} {t : Token} {ts : List Token} {f : Unit → Parser β}
    (h : t.isPlain) (hf : Composed sc ts (f ())) :
    Composed sc (t :: ts) (Parser.skip >>= f)
  | bind {α β : Type} {ts : List Token} {p : Parser α} {f : α → Parser β}
    (hp : Composed sc ts p) (hf : ∀ a, Composed sc [] (f a)) : Composed sc ts (p >>= f)
  | ahead {α : Type} {p : Parser α} (hp : Composed sc [] p)
    (ts : List Token) : Composed sc ts p

theorem looks_peek : Looks peek := fun _ => ⟨_, rfl⟩

theorem looks_peekSecond : Looks peekSecond := fun _ => ⟨_, rfl⟩

theorem looks_ahead : Looks Parser.ahead := fun _ => ⟨_, rfl⟩

theorem looks_symbols : Looks symbols := fun _ => ⟨_, rfl⟩

section

variable {sc : Scope}

theorem Composed.map {p : Parser α} (hp : Composed sc ts p) (f : α → β) :
    Composed sc ts (p >>= fun a => Pure.pure (f a)) :=
  hp.bind fun _ => .pure _

theorem composed_malformed (note : String) :
    Composed sc [] (malformed sc note : Parser α) :=
  .fail (by decide) note

/-- The fault for what is ahead names it if it is unknown. -/
theorem composed_unexpected : Composed sc [] (unexpected sc : Parser α) := by
  refine .peek fun o => ?_
  split
  · exact .illegal _
  · exact (composed_malformed _).ahead _
  · exact (composed_malformed _).ahead _

/-- A token is left behind once it is known to be the one expected. -/
theorem composed_expect {t : Token} (ht : t.isPlain) : Composed sc [] (expect sc t) := by
  refine .peek fun o => ?_
  split
  · exact composed_unexpected.ahead _
  · split
    case isTrue heq =>
      subst heq
      exact .skip ht
    · exact (composed_malformed _).ahead _
  · exact (composed_malformed _).ahead _

/-- So is a name. -/
theorem composed_ident : Composed sc [] (ident sc) := by
  refine .peek fun o => ?_
  split
  · exact .skipThen rfl (.pure _)
  · exact (composed_malformed _).ahead _

/-- So is a semicolon, which may be missing. -/
theorem composed_terminator : Composed sc [] terminator := by
  refine .peek fun o => ?_
  split
  · exact .skip rfl
  · exact (Composed.pure ()).ahead _

/-- A failure is one of the whole sequence. -/
theorem fail_bind (kind : FaultKind) (note : String) (f : α → Parser β) :
    fail sc kind note >>= f = fail sc kind note :=
  rfl

/-- A check of an argument leaves the token ahead where it is. -/
theorem composed_checkArg (n : Nat) {f : Unit → Parser β} (hf : Composed sc ts (f ())) :
    Composed sc ts (checkArg sc n >>= f) := by
  unfold checkArg malformed
  split
  · rw [fail_bind]
    exact .ahead (.fail (by decide) _) ts
  · split
    · rw [fail_bind]
      exact .ahead (.fail (by decide) _) ts
    · exact hf

end

/-! ### Expressions -/

section

variable {sc : Scope} {expression : Parser Expr} {binary : Nat → Parser Expr}

/-- The further arguments of a call, each behind a comma. -/
theorem composed_moreArguments (he : Composed sc [] expression) (bound : List Located) :
    Composed sc [] (moreArguments sc expression bound) := by
  induction bound with
  | nil => exact composed_malformed _
  | cons _ bound ih =>
    refine .peek fun o => ?_
    split
    · exact .skipThen rfl (.pure _)
    · exact .skipThen rfl (he.bind fun _ => ih.map _)
    · exact (composed_malformed _).ahead _

theorem composed_arguments (he : Composed sc [] expression) :
    Composed sc [] (arguments sc expression) := by
  refine (composed_expect rfl).bind fun _ => .peek fun o => ?_
  split
  · exact .skipThen rfl (.pure _)
  · refine .ahead (he.bind fun _ => ?_) _
    exact .look looks_ahead fun _ => (composed_moreArguments he _).map _

/-- What a name starts, by what it stands for. -/
theorem composed_named (he : Composed sc [] expression) (name : String) :
    Composed sc [] (named sc expression name) := by
  refine .look looks_symbols fun t => ?_
  dsimp only
  split
  · exact (composed_expect rfl).bind fun _ => he.bind fun _ => (composed_expect rfl).map _
  · exact (composed_arguments he).map _
  · exact composed_malformed _
  · refine .look looks_peek fun o => ?_
    split
    · exact composed_malformed _
    · refine (Composed.resolve name).bind fun id => .peek fun o => ?_
      split
      · exact .skipThen rfl (.pure _)
      · exact .skipThen rfl (.pure _)
      · exact (Composed.pure _).ahead _

/-- An operand without operators, by the token ahead. -/
theorem composed_primary (he : Composed sc [] expression) :
    Composed sc [] (primary sc expression) := by
  refine .peek fun o => ?_
  split
  · exact .skipThen rfl ((Composed.number _).map _)
  · exact .skipThen rfl (he.bind fun _ => (composed_expect rfl).map _)
  · exact .skipThen rfl (composed_named he _)
  · exact composed_checkArg _ (.skipThen rfl (.pure _))
  · refine .skipThen rfl ((composed_expect rfl).bind fun _ =>
      composed_ident.bind fun _ => ?_)
    exact (composed_expect rfl).bind fun _ => (Composed.resolve _).map _
  · exact .skipThen rfl (composed_ident.bind fun _ => (Composed.resolve _).map _)
  · exact .skipThen rfl (composed_ident.bind fun _ => (Composed.resolve _).map _)
  · exact composed_unexpected.ahead _

theorem composed_operand (hb : ∀ least, Composed sc [] (binary least)) :
    Composed sc [] (operand sc binary) := by
  refine .peek fun o => ?_
  split
  · exact .skipThen rfl ((hb _).map _)
  · exact .skipThen rfl ((hb _).map _)
  · exact (composed_primary (hb 1)).ahead _

/-- The operators that follow an operand. -/
theorem composed_climb (hb : ∀ least, Composed sc [] (binary least)) (least : Nat)
    (bound : List Located) (lhs : Expr) :
    Composed sc [] (climb binary least bound lhs) := by
  induction bound generalizing lhs with
  | nil => exact .pure lhs
  | cons _ bound ih =>
    refine .peek fun o => ?_
    split
    · split
      · split
        · exact .skipThen rfl ((hb _).bind fun _ => ih _)
        · exact (Composed.pure lhs).ahead _
      · exact (Composed.pure lhs).ahead _
    · exact (Composed.pure lhs).ahead _

theorem composed_binary (sc : Scope) (depth least : Nat) :
    Composed sc [] (Parser.binary sc depth least) := by
  induction depth generalizing least with
  | zero => exact .fail (by decide) _
  | succ depth ih =>
    exact (composed_operand ih).bind fun _ => .look looks_ahead fun _ =>
      composed_climb ih least _ _

end

/-! ### Statements -/

section

variable {sc : Scope} {expression : Parser Expr} {statement : Parser (List Stmt)}

theorem composed_simple (he : Composed sc [] expression) :
    Composed sc [] (simple sc expression) := by
  refine .peekBoth fun o o' => ?_
  split
  · split
    · exact .skipThen rfl (.skipThen rfl ((Composed.resolve _).bind fun _ => he.map _))
    · exact (he.map _).ahead _
  · exact composed_checkArg _ (.skipThen rfl (.skipThen rfl (he.map _)))
  · exact (he.map _).ahead _

theorem composed_condition (he : Composed sc [] expression) :
    Composed sc [] (condition sc expression) :=
  (composed_expect rfl).bind fun _ => he.bind fun _ => (composed_expect rfl).map _

/-- The statements of a block, up to its brace. -/
theorem composed_blockItems (hs : Composed sc [] statement) (bound : List Located) :
    Composed sc [] (blockItems sc statement bound) := by
  induction bound with
  | nil => exact composed_malformed _
  | cons _ bound ih =>
    refine .peek fun o => ?_
    split
    · exact .skipThen rfl (.pure _)
    · exact .skipThen rfl ih
    · exact (composed_malformed _).ahead _
    · exact (hs.bind fun _ => ih.map _).ahead _

/-- An item of a print statement, which may be a text. -/
theorem composed_printItem (he : Composed sc [] expression) :
    Composed sc [] (printItem expression) := by
  refine .peek fun o => ?_
  split
  · exact .skipThen rfl ((Composed.text _).map _)
  · exact he.ahead _

theorem composed_morePrintItems (he : Composed sc [] expression) (bound : List Located) :
    Composed sc [] (morePrintItems expression bound) := by
  induction bound with
  | nil => exact .pure _
  | cons _ bound ih =>
    refine .peek fun o => ?_
    split
    · exact .skipThen rfl ((composed_printItem he).bind fun _ => ih.map _)
    · exact (Composed.pure _).ahead _

theorem composed_printItems (he : Composed sc [] expression) :
    Composed sc [] (printItems expression) :=
  (composed_printItem he).bind fun _ => .look looks_ahead fun _ =>
    (composed_morePrintItems he _).map _

theorem composed_returnStmt (he : Composed sc [] expression) :
    Composed sc [.keyword .returnKw] (returnStmt sc expression) := by
  unfold returnStmt
  split
  · exact .ahead (.fail (by decide) _) _
  · refine .skipThen rfl (.look looks_peek fun o => ?_)
    split
    case h_4 | h_6 => exact he.map _
    all_goals exact .pure _

/-- The head of a `for` loop, and its body. -/
theorem composed_forStmt (he : Composed sc [] expression)
    (hs : Composed sc [] statement) :
    Composed sc [.keyword .forKw] (forStmt sc expression statement) := by
  refine .skipThen rfl ((composed_expect rfl).bind fun _ =>
    (composed_simple he).bind fun _ => ?_)
  refine (composed_expect rfl).bind fun _ => he.bind fun _ =>
    (composed_expect rfl).bind fun _ => ?_
  exact (composed_simple he).bind fun _ => (composed_expect rfl).bind fun _ => hs.map _

theorem composed_ifStmt (he : Composed sc [] expression) (hs : Composed sc [] statement) :
    Composed sc [.keyword .ifKw] (ifStmt sc expression statement) := by
  refine .skipThen rfl ((composed_condition he).bind fun _ => hs.bind fun _ =>
    .peek fun o => ?_)
  split
  · exact .skipThen rfl (hs.map _)
  · exact (Composed.pure _).ahead _

/-- A statement that starts with a name: a call of a procedure, an assignment,
or an expression. -/
theorem composed_namedStmt (he : Composed sc [] expression) (name : String) :
    Composed sc [.ident name] (namedStmt sc expression name) := by
  refine .look looks_peekSecond fun o => ?_
  split
  · refine .look looks_symbols fun t => ?_
    split
    · split
      · exact .skipThen rfl ((composed_arguments he).map _)
      · exact (composed_simple he).ahead _
    · exact (composed_simple he).ahead _
  · exact (composed_simple he).ahead _

theorem Composed.terminated {p : Parser Stmt} (hp : Composed sc ts p) :
    Composed sc ts (Parser.terminated p) :=
  hp.bind fun _ => composed_terminator.map _

/-- A statement, by the token it starts with. -/
theorem composed_anyStatement (he : Composed sc [] expression)
    (hs : Composed sc [] statement) :
    Composed sc [] (anyStatement sc expression statement) := by
  refine .peek fun o => ?_
  split
  · exact .skipThen rfl (.look looks_ahead fun _ => composed_blockItems hs _)
  · exact (Composed.skipThen rfl ((composed_printItems he).map _)).terminated
  · refine (Composed.skipThen rfl ?_).terminated
    exact (composed_condition he).bind fun _ => hs.map _
  · exact (composed_forStmt he hs).map _
  · exact (composed_ifStmt he hs).map _
  · exact (composed_returnStmt he).terminated
  · exact ((composed_simple he).ahead _).terminated
  · exact composed_unexpected.ahead _
  · exact (composed_namedStmt he _).terminated
  · exact ((composed_simple he).ahead _).terminated

theorem composed_statement (sc : Scope) (depth : Nat) :
    Composed sc [] (Parser.statement sc depth) := by
  induction depth with
  | zero => exact .fail (by decide) _
  | succ depth ih => exact composed_anyStatement (composed_binary sc depth 1) ih

end

end Parser

end StackCalc
