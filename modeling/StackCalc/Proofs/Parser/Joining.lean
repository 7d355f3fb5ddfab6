import StackCalc.Proofs.Parser.ReadBack
import StackCalc.Proofs.Symbol.Growth

/-!
# Reading texts that are joined

Two texts without definitions that are joined by a semicolon are read as the one
and then the other (`parse_joined`), also if variables are assigned to in
between. Everything before the semicolon is read as if nothing followed, for an
expression and a statement end at a semicolon as they do at the end of a text;
and everything behind it is read as if it stood alone.

Both parts are instances of one statement about a reading and another one beside
it, which has more tokens at the end and other values in the symbol table
(`Parser.Beside`). A statement ends with a semicolon if there is one, so that at
the end of a statement the second reading may have taken some of the additional
tokens (`Parser.Past`).
-/

namespace StackCalc

namespace Parser

open StackCalc.Action (Mirrors)

variable {α β : Type}

/-! ### One reading beside another -/

/-- What a reading has in common with a second one, which has the tokens `tail`
behind those of the first and started with the symbols `A` in place of `A'`.
Both added the same symbols. At least `k` tokens are ahead in the first one, and
none of them starts a definition. -/
structure Beside (A A' : SymbolTable) (tail : List Token) (k : Nat) (s s' : ParseState) :
    Prop where
  tokens : s'.tokens.map Located.token = s.tokens.map Located.token ++ tail
  symbols : ∃ more, s.symbols = A'.plus more ∧ s'.symbols = A.plus more
  ahead : k ≤ s.tokens.length
  plain : ∀ kind : DefinitionKind, .keyword kind.keyword ∉ s.tokens.map Located.token

/-- A reading at its end, and a second one that has taken semicolons at the
front of the tokens `tail`. -/
structure Past (A A' : SymbolTable) (tail : List Token) (s s' : ParseState) : Prop where
  tokens : s.tokens = []
  taken : ∃ k, tail = List.replicate k .semicolon ++ s'.tokens.map Located.token
  symbols : ∃ more, s.symbols = A'.plus more ∧ s'.symbols = A.plus more

/-- Where two readings stand after a statement. -/
def Reached (A A' : SymbolTable) (tail : List Token) (s s' : ParseState) : Prop :=
  Beside A A' tail 0 s s' ∨ Past A A' tail s s'

/-- Tokens that may follow a text, and symbols that differ in the values of
variables. -/
structure Joins (A A' : SymbolTable) (tail : List Token) : Prop where
  assigned : A.Assigned A'
  starts : tail.head? = none ∨ tail.head? = some .semicolon
  noElse : ∀ k rest, tail ≠ List.replicate k .semicolon ++ .keyword .elseKw :: rest

/-- A parser that is repeated by a second one beside it. -/
abbrev Repeats (A A' : SymbolTable) (tail : List Token) (p p' : Parser α) : Prop :=
  Mirrors (Beside A A' tail 0) (Beside A A' tail 0) p p'

section

variable {A A' : SymbolTable} {tail : List Token} {k : Nat} {s s' : ParseState}
  {R Q : ParseState → ParseState → Prop}

theorem Beside.loose (h : Beside A A' tail k s s') : Beside A A' tail 0 s s' :=
  { h with ahead := Nat.zero_le _ }

/-- At its end, the first reading has taken nothing beyond it. -/
theorem Beside.past (h : Beside A A' tail k s s') (hs : s.tokens = []) :
    Past A A' tail s s' where
  tokens := hs
  taken := ⟨0, by simpa [hs] using h.tokens.symm⟩
  symbols := h.symbols

/-- Failures have nothing to be repeated. -/
theorem mirrors_fail (sc : Scope) (kind : FaultKind) (note : String) (p : Parser α) :
    Mirrors R Q (fail sc kind note) p :=
  .of_error fun _ => ⟨_, _, rfl⟩

theorem mirrors_malformed (sc : Scope) (note : String) (p : Parser α) :
    Mirrors R Q (malformed sc note) p :=
  mirrors_fail sc _ note p

/-- A fault for what is ahead has nothing to be repeated either. -/
theorem mirrors_unexpected (sc : Scope) (p : Parser α) :
    Mirrors R Q (unexpected sc) p := by
  refine .of_error fun s => ?_
  rcases s with ⟨_ | ⟨⟨line, tok⟩, ts⟩, t⟩
  · exact ⟨_, _, rfl⟩
  · cases tok <;> exact ⟨_, _, rfl⟩

/-! ### Single tokens -/

/-- A token ahead of the first reading is ahead of the second. -/
theorem mirrors_peek {f f' : Option Token → Parser α}
    (h : ∀ tok, Mirrors (Beside A A' tail 1) Q (f (some tok)) (f' (some tok))) :
    Mirrors (Beside A A' tail 1) Q (peek >>= f) (peek >>= f') := by
  rintro ⟨_ | ⟨l, ts⟩, t⟩ ⟨ts', t'⟩ a s₁ hs hrun
  · exact nomatch hs.ahead
  · obtain ⟨l', us, rfl, hl, -⟩ := List.map_eq_cons_iff.mp hs.tokens
    have hrun' : f (some l'.token) ⟨l :: ts, t⟩ = .ok a s₁ := by
      rw [hl]
      exact hrun
    exact h l'.token _ _ _ _ hs hrun'

/-- Where the first reading is at its end, the second one is too or has a
semicolon ahead. -/
theorem Joins.peek (h : Joins A A' tail) {f f' : Option Token → Parser α}
    (hend : ∀ o, o = none ∨ o = some .semicolon →
      Mirrors (Beside A A' tail 0) Q (f none) (f' o))
    (hsome : ∀ tok, Mirrors (Beside A A' tail 1) Q (f (some tok)) (f' (some tok))) :
    Mirrors (Beside A A' tail 0) Q (peek >>= f) (peek >>= f') := by
  rintro ⟨_ | ⟨l, ts⟩, t⟩ ⟨ts', t'⟩ a s₁ hs hrun
  · have htokens : ts'.map Located.token = tail := hs.tokens
    have hhead : ts'.head?.map Located.token = none ∨
        ts'.head?.map Located.token = some .semicolon := by
      rw [← List.head?_map, htokens]
      exact h.starts
    exact hend _ hhead _ _ _ _ hs hrun
  · exact mirrors_peek hsome _ _ _ _
      { hs with ahead := Nat.succ_le_succ (Nat.zero_le _) } hrun

/-- The same for the token behind it. -/
theorem Joins.peekSecond (h : Joins A A' tail) {f f' : Option Token → Parser α}
    (hend : ∀ o, o = none ∨ o = some .semicolon →
      Mirrors (Beside A A' tail 1) Q (f none) (f' o))
    (hsome : ∀ tok, Mirrors (Beside A A' tail 2) Q (f (some tok)) (f' (some tok))) :
    Mirrors (Beside A A' tail 1) Q (peekSecond >>= f) (peekSecond >>= f') := by
  rintro ⟨_ | ⟨l, ts⟩, t⟩ ⟨ts', t'⟩ a s₁ hs hrun
  · exact nomatch hs.ahead
  · obtain ⟨l', us, rfl, -, hus⟩ := List.map_eq_cons_iff.mp hs.tokens
    rcases ts with _ | ⟨k, ts⟩
    · have hhead : us.head?.map Located.token = none ∨
          us.head?.map Located.token = some .semicolon := by
        rw [← List.head?_map, hus]
        exact h.starts
      exact hend _ hhead _ _ _ _ hs hrun
    · obtain ⟨k', us', rfl, hk, -⟩ := List.map_eq_cons_iff.mp hus
      have hrun' : f (some k'.token) ⟨l :: k :: ts, t⟩ = .ok a s₁ := by
        rw [hk]
        exact hrun
      have hahead : 2 ≤ (l :: k :: ts).length := Nat.le_add_left 2 ts.length
      exact hsome k'.token _ _ _ _ { hs with ahead := hahead } hrun'

/-- Looking behind a token that decides by itself. -/
theorem mirrors_glance {f f' : Option Token → Parser α}
    (h : ∀ o o', Mirrors R Q (f o) (f' o')) :
    Mirrors R Q (peekSecond >>= f) (peekSecond >>= f') :=
  fun _ _ _ _ hs hrun => h _ _ _ _ _ _ hs hrun

theorem mirrors_skip : Mirrors (Beside A A' tail (k + 1)) (Beside A A' tail k)
    skip skip := by
  rintro ⟨_ | ⟨l, ts⟩, t⟩ ⟨ts', t'⟩ a s₁ hs ⟨⟩
  · exact nomatch hs.ahead
  · obtain ⟨l', us, rfl, -, hus⟩ := List.map_eq_cons_iff.mp hs.tokens
    refine ⟨⟨us, t'⟩, rfl, hus, hs.symbols, Nat.le_of_succ_le_succ hs.ahead,
      fun kind hmem => ?_⟩
    exact hs.plain kind (List.mem_cons_of_mem _ hmem)

/-- Each reading has as many rounds as it has tokens ahead. -/
theorem mirrors_ahead {f f' : List Located → Parser α}
    (h : ∀ bound bound', bound.length ≤ bound'.length →
      Mirrors (fun s s' => Beside A A' tail 0 s s' ∧ s.tokens.length ≤ bound.length) Q
        (f bound) (f' bound')) :
    Mirrors (Beside A A' tail 0) Q (ahead >>= f) (ahead >>= f') := by
  intro s s' a s₁ hs hrun
  have hlen : s.tokens.length ≤ s'.tokens.length := by
    have hsum : s'.tokens.length = s.tokens.length + tail.length := by
      simpa using congrArg List.length hs.tokens
    omega
  exact h _ _ hlen _ _ _ _ ⟨hs, Nat.le_refl _⟩ hrun

/-- Both readings add the same symbol. -/
theorem mirrors_addSymbol {f : SymbolTable → Nat × SymbolTable}
    (hf : ∀ more, ∃ id more', f (A.plus more) = (id, A.plus more') ∧
      f (A'.plus more) = (id, A'.plus more')) :
    Mirrors (Beside A A' tail k) (Beside A A' tail k) (addSymbol f) (addSymbol f) := by
  rintro ⟨ts, t⟩ ⟨ts', t'⟩ a s₁ hs hrun
  obtain ⟨more, rfl, rfl⟩ := hs.symbols
  obtain ⟨id, more', hright, hleft⟩ := hf more
  have hrun' : addSymbol f ⟨ts, A'.plus more⟩ = .ok id ⟨ts, A'.plus more'⟩ := by
    show EStateM.Result.ok (f (A'.plus more)).1
      (⟨ts, (f (A'.plus more)).2⟩ : ParseState) = _
    rw [hleft]
  cases hrun'.symm.trans hrun
  refine ⟨⟨ts', A.plus more'⟩, ?_, { hs with symbols := ⟨more', rfl, rfl⟩ }⟩
  show EStateM.Result.ok (f (A.plus more)).1 (⟨ts', (f (A.plus more)).2⟩ : ParseState) = _
  rw [hright]

theorem Joins.resolve (h : Joins A A' tail) (name : String) :
    Repeats A A' tail (resolve name) (resolve name) :=
  mirrors_addSymbol fun more => h.assigned.resolve_plus more name

theorem Joins.addNumber (h : Joins A A' tail) (x : Float) :
    Repeats A A' tail (addSymbol (·.addNumber x)) (addSymbol (·.addNumber x)) :=
  mirrors_addSymbol fun more => h.assigned.push_plus more _

theorem Joins.addText (h : Joins A A' tail) (text : String) :
    Repeats A A' tail (addSymbol (·.addText text)) (addSymbol (·.addText text)) :=
  mirrors_addSymbol fun more => h.assigned.push_plus more _

theorem mirrors_pure (a : α) :
    Mirrors (Beside A A' tail k) (Beside A A' tail 0) (pure a : Parser α) (pure a) :=
  .pure (fun _ _ hs => hs.loose) a

/-- A token that the first reading finds, the second one finds. -/
theorem Joins.expect (h : Joins A A' tail) (sc sc' : Scope) (tok : Token) :
    Repeats A A' tail (expect sc tok) (expect sc' tok) := by
  refine h.peek (fun _ _ => mirrors_malformed sc _ _) fun t => ?_
  cases t
  case unknown => exact mirrors_unexpected sc _
  all_goals
    dsimp only
    split
    · exact mirrors_skip
    · exact mirrors_malformed sc _ _

theorem Joins.ident (h : Joins A A' tail) (sc sc' : Scope) :
    Repeats A A' tail (ident sc) (ident sc') := by
  refine h.peek (fun _ _ => mirrors_malformed sc _ _) fun t => ?_
  cases t
  case ident name => exact mirrors_skip.map fun _ => name
  all_goals exact mirrors_malformed sc _ _

/-- Outside of a definition an argument is refused. -/
theorem mirrors_checkArg {sc : Scope} (hsc : sc.inDefinition = false) (n : Nat)
    (g : Unit → Parser α) (p : Parser α) : Mirrors R Q (checkArg sc n >>= g) p := by
  refine .of_error fun s => ?_
  unfold checkArg
  rw [hsc]
  exact ⟨_, _, rfl⟩

/-! ### Operands -/

section

variable (h : Joins A A' tail) {sc sc' : Scope} {expression expression' : Parser Expr}
  (hexpr : Repeats A A' tail expression expression')

include h hexpr

/-- The further arguments of a call: at the semicolon the first reading would
fail. -/
theorem Joins.moreArguments {bound bound' : List Located}
    (hlen : bound.length ≤ bound'.length) :
    Repeats A A' tail (moreArguments sc expression bound)
      (moreArguments sc' expression' bound') := by
  induction bound generalizing bound' with
  | nil => exact mirrors_malformed sc _ _
  | cons _ bound ih =>
    rcases bound' with _ | ⟨_, bound'⟩
    · exact nomatch hlen
    · have hrest := ih (Nat.le_of_succ_le_succ hlen)
      refine h.peek (fun _ _ => mirrors_malformed sc _ _) fun t => ?_
      cases t
      case rightParen => exact mirrors_skip.map fun _ => []
      case comma =>
        exact mirrors_skip.bind fun _ => hexpr.bind fun e => hrest.map fun es => e :: es
      all_goals exact mirrors_malformed sc _ _

/-- The arguments of a call, up to the closing parenthesis. -/
theorem Joins.arguments :
    Repeats A A' tail (arguments sc expression) (arguments sc' expression') := by
  have hitems : Repeats A A' tail
      (expression >>= fun e => ahead >>= fun bound =>
        Parser.moreArguments sc expression bound >>= fun es => pure (e :: es))
      (expression' >>= fun e => ahead >>= fun bound =>
        Parser.moreArguments sc' expression' bound >>= fun es => pure (e :: es)) :=
    hexpr.bind fun e => mirrors_ahead fun _ _ hlen =>
      ((h.moreArguments hexpr hlen).map fun es => e :: es).mono (fun _ _ hs => hs.1)
        fun _ _ hs => hs
  refine (h.expect sc sc' _).bind fun _ => h.peek ?_ fun t => ?_
  · rintro _ (rfl | rfl)
    · exact hitems
    · exact hitems
  · cases t
    case rightParen => exact mirrors_skip.map fun _ => []
    all_goals exact hitems.mono (fun _ _ hs => hs.loose) fun _ _ hs => hs

omit hexpr in
/-- A plain name is read alike, since a semicolon makes neither a call nor a
step of it. -/
theorem Joins.afterName (name : String) :
    Repeats A A' tail (afterName sc name) (afterName sc' name) := by
  have huse : ∀ id, Repeats A A' tail (plainUse id) (plainUse id) := by
    intro id
    refine h.peek ?_ fun t => ?_
    · rintro _ (rfl | rfl)
      · exact mirrors_pure _
      · exact mirrors_pure _
    · split
      · exact mirrors_skip.map _
      · exact mirrors_skip.map _
      · exact mirrors_pure _
  have hname := (h.resolve name).bind huse
  refine h.peek ?_ fun t => ?_
  · rintro _ (rfl | rfl)
    · exact hname
    · exact hname
  · cases t
    case leftParen => exact mirrors_malformed sc _ _
    all_goals exact hname.mono (fun _ _ hs => hs.loose) fun _ _ hs => hs

/-- What a name stands for is the same in both readings, up to the values of
variables. -/
theorem Joins.named (name : String) :
    Repeats A A' tail (named sc expression name) (named sc' expression' name) := by
  rintro ⟨ts, t⟩ ⟨ts', t'⟩ e s₁ hs hrun
  obtain ⟨more, rfl, rfl⟩ := hs.symbols
  have hassigned := h.assigned.plus more
  have hlookup := h.assigned.lookup_plus more name
  have hsame : ∀ id,
      (((A'.plus more).get id).kind = .builtin ↔ ((A.plus more).get id).kind = .builtin) ∧
      (((A'.plus more).get id).kind = .function ↔
        ((A.plus more).get id).kind = .function) ∧
      (((A'.plus more).get id).kind = .procedure ↔
        ((A.plus more).get id).kind = .procedure) := fun id =>
    ⟨hassigned.kind_iff (by decide) (by decide) id,
      hassigned.kind_iff (by decide) (by decide) id,
      hassigned.kind_iff (by decide) (by decide) id⟩
  by_cases hbuiltin : ∃ id, (A.plus more).lookup name = some id ∧
    ((A.plus more).get id).kind = .builtin
  · obtain ⟨id, hname, hkind⟩ := hbuiltin
    rw [named_of_builtin (hlookup.trans hname) ((hsame id).1.mpr hkind)] at hrun
    rw [named_of_builtin hname hkind]
    exact ((h.expect sc sc' _).bind fun _ => hexpr.bind fun e =>
      (h.expect sc sc' _).map fun _ => Expr.builtin id e) _ _ _ _ hs hrun
  by_cases hfunction : ∃ id, (A.plus more).lookup name = some id ∧
      ((A.plus more).get id).kind = .function
  · obtain ⟨id, hname, hkind⟩ := hfunction
    rw [named_of_function (hlookup.trans hname) ((hsame id).2.1.mpr hkind)] at hrun
    rw [named_of_function hname hkind]
    exact ((h.arguments hexpr).map fun es => Expr.call id es) _ _ _ _ hs hrun
  by_cases hprocedure : ∃ id, (A'.plus more).lookup name = some id ∧
      ((A'.plus more).get id).kind = .procedure
  · obtain ⟨id, hname, hkind⟩ := hprocedure
    exact nomatch (named_of_procedure hname hkind).symm.trans hrun
  · -- a plain name for both
    have hplain : (A.plus more).IsPlain name := fun id hname =>
      ⟨fun hkind => hbuiltin ⟨id, hname, hkind⟩,
        fun hkind => hfunction ⟨id, hname, hkind⟩,
        fun hkind => hprocedure ⟨id, hlookup.trans hname, (hsame id).2.2.mpr hkind⟩⟩
    have hplain' : (A'.plus more).IsPlain name := by
      intro id hname
      obtain ⟨hb, hf, hp⟩ := hplain id (hlookup.symm.trans hname)
      exact ⟨mt (hsame id).1.mp hb, mt (hsame id).2.1.mp hf, mt (hsame id).2.2.mp hp⟩
    rw [named_of_plain hplain'] at hrun
    rw [named_of_plain hplain]
    exact h.afterName name _ _ _ _ hs hrun

/-- An operand is read alike by the token ahead. At the end of its text the
first reading fails. -/
theorem Joins.primary (hsc : sc.inDefinition = false) :
    Repeats A A' tail (primary sc expression) (primary sc' expression') := by
  have hstep : ∀ how, Mirrors (Beside A A' tail 1) (Beside A A' tail 0)
      (skip >>= fun _ => Parser.ident sc >>= fun name => Parser.resolve name >>= fun id =>
        pure (Expr.step how id))
      (skip >>= fun _ => Parser.ident sc' >>=
        fun name => Parser.resolve name >>= fun id =>
        pure (Expr.step how id)) := fun how =>
    mirrors_skip.bind fun _ => (h.ident sc sc').bind fun name => (h.resolve name).map _
  refine h.peek (fun _ _ => mirrors_unexpected sc _) fun t => ?_
  cases t
  case number x => exact mirrors_skip.bind fun _ => (h.addNumber x).map _
  case leftParen =>
    exact mirrors_skip.bind fun _ => hexpr.bind fun e =>
      (h.expect sc sc' _).map fun _ => e
  case ident name => exact mirrors_skip.bind fun _ => h.named hexpr name
  case arg n => exact mirrors_checkArg hsc n _ _
  case keyword word =>
    cases word
    case readKw =>
      exact mirrors_skip.bind fun _ => (h.expect sc sc' _).bind fun _ =>
        (h.ident sc sc').bind fun name =>
        (h.expect sc sc' _).bind fun _ => (h.resolve name).map _
    all_goals exact mirrors_unexpected sc _
  case operator op =>
    cases op
    case increment => exact hstep .preInc
    case decrement => exact hstep .preDec
    all_goals exact mirrors_unexpected sc _
  all_goals exact mirrors_unexpected sc _

end

/-! ### Operators -/

/-- Only a semicolon may be ahead in the second reading alone. -/
theorem Joins.head_iff (h : Joins A A' tail) (hs : Beside A A' tail k s s') {tok : Token}
    (htok : tok ≠ .semicolon) :
    s'.tokens.head?.map Located.token = some tok ↔
    s.tokens.head?.map Located.token = some tok := by
  rw [← List.head?_map, ← List.head?_map, hs.tokens]
  cases htokens : s.tokens.map Located.token with
  | cons t ts => rfl
  | nil =>
    show tail.head? = some tok ↔ none = some tok
    rcases h.starts with hnone | hsemi
    · rw [hnone]
    · rw [hsemi]
      exact ⟨fun heq => absurd (Option.some.inj heq).symm htok, nofun⟩

theorem Joins.operatorAhead (h : Joins A A' tail) (hs : Beside A A' tail k s s')
    (least : Nat) :
    operatorAhead least s' = operatorAhead least s := by
  refine Option.ext fun (op, p) => ?_
  have htok : Token.operator op ≠ .semicolon := nofun
  rw [operatorAhead_eq_some, operatorAhead_eq_some, h.head_iff hs htok]

/-- Operators are taken round by round by both. -/
theorem Joins.rounds (h : Joins A A' tail) {n n' : Nat} {b b' : Nat → Parser Expr}
    (hb : ∀ p, Takes n 1 (b p)) (hb' : ∀ p, Takes n' 1 (b' p))
    (hsame : ∀ p, Repeats A A' tail (b p) (b' p))
    (least : Nat) (lhs : Expr) :
    Repeats A A' tail (roundsFrom (climbing b least) lhs)
      (roundsFrom (climbing b' least) lhs) := by
  intro s
  -- a round leaves fewer tokens
  induction hlen : s.tokens.length using Nat.strongRecOn generalizing s lhs with
  | ind len ih =>
    subst hlen
    intro s' e s₁ hs hrun
    cases hop : Parser.operatorAhead least s with
    | none =>
      have hchoose : climbing b least s = none := by rw [climbing, hop]; rfl
      have hchoose' : climbing b' least s' = none := by
        rw [climbing, h.operatorAhead hs, hop]; rfl
      rw [roundsFrom_of_none hchoose] at hrun
      cases hrun
      exact ⟨s', roundsFrom_of_none hchoose', hs⟩
    | some found =>
      obtain ⟨op, p⟩ := found
      have hchoose : climbing b least s = some (op, b (op.rightPrecedence p)) := by
        rw [climbing, hop]
        rfl
      have hchoose' : climbing b' least s' = some (op, b' (op.rightPrecedence p)) := by
        rw [climbing, h.operatorAhead hs, hop]
        rfl
      have hahead : 0 < s.tokens.length := by
        rcases s with ⟨_ | ⟨l, ts⟩, t⟩
        · cases (operatorAhead_eq_some.mp hop).1
        · exact Nat.succ_pos _
      obtain ⟨_, hskip, hbehind⟩ :=
        mirrors_skip _ _ _ _ { hs with ahead := hahead } (rfl : skip s = _)
      cases hskip
      rw [roundsFrom_of_some (climbing_proper hb least) hchoose] at hrun
      obtain ⟨rhs, s₂, hright, hrest⟩ := Action.of_bind_ok hrun
      obtain ⟨s₂', hright', hs₂⟩ := hsame _ _ _ _ _ hbehind hright
      obtain ⟨s₁', hrest', hs₁⟩ :=
        ih _ (length_lt_of_round hb hright) _ _ rfl _ _ _ hs₂ hrest
      refine ⟨s₁', ?_, hs₁⟩
      rw [roundsFrom_of_some (climbing_proper hb' least) hchoose']
      exact (Action.bind_of_ok hright').trans hrest'

/-- An operand with the signs in front of it. -/
theorem Joins.operand (h : Joins A A' tail) {sc sc' : Scope}
    (hsc : sc.inDefinition = false) {b b' : Nat → Parser Expr}
    (hsame : ∀ p, Repeats A A' tail (b p) (b' p)) :
    Repeats A A' tail (operand sc b) (operand sc' b') := by
  have hprimary : Repeats A A' tail (Parser.primary sc (b 1))
      (Parser.primary sc' (b' 1)) :=
    h.primary (hsame 1) hsc
  refine h.peek ?_ fun t => ?_
  · rintro _ (rfl | rfl)
    · exact hprimary
    · exact hprimary
  · split
    · exact mirrors_skip.bind fun _ => (hsame _).map _
    · exact mirrors_skip.bind fun _ => (hsame _).map _
    · exact hprimary.mono (fun _ _ hs => hs.loose) fun _ _ hs => hs

/-- An expression outside of a definition is read alike by both. -/
theorem Joins.binary (h : Joins A A' tail) {sc sc' : Scope}
    (hsc : sc.inDefinition = false) (depth least : Nat) :
    Repeats A A' tail (binary sc depth least) (binary sc' depth least) := by
  induction depth generalizing least with
  | zero => exact mirrors_fail sc _ _ _
  | succ depth ih =>
    rw [binary_succ, binary_succ]
    exact (h.operand hsc ih).bind fun lhs =>
      h.rounds (takes_binary sc depth) (takes_binary sc' depth) ih least lhs

/-! ### Clauses -/

section

variable (h : Joins A A' tail) {sc sc' : Scope} {expression expression' : Parser Expr}
  (hexpr : Repeats A A' tail expression expression')

include h hexpr

/-- An expression or an assignment, which a semicolon ends in both. -/
theorem Joins.simple (hsc : sc.inDefinition = false) :
    Repeats A A' tail (simple sc expression) (simple sc' expression') := by
  have hvalue : ∀ k, Mirrors (Beside A A' tail k) (Beside A A' tail 0)
      (expression >>= fun e => pure (Stmt.expr e))
      (expression' >>= fun e => pure (Stmt.expr e)) := fun k =>
    (hexpr.map _).mono (fun _ _ hs => hs.loose) fun _ _ hs => hs
  refine h.peek ?_ fun first => h.peekSecond ?_ fun second => ?_
  · rintro _ (rfl | rfl)
    · exact mirrors_glance fun _ _ => hvalue 0
    · exact mirrors_glance fun _ _ => hvalue 0
  · rintro _ (rfl | rfl)
    · cases first <;> exact hvalue 1
    · cases first <;> exact hvalue 1
  · cases first
    case ident name =>
      cases second
      case operator op =>
        dsimp only
        split
        · exact mirrors_skip.bind fun _ => mirrors_skip.bind fun _ =>
            (h.resolve name).bind fun _ =>
            hexpr.map _
        · exact hvalue 2
      all_goals exact hvalue 2
    case arg n =>
      cases second
      case operator op =>
        cases op
        case assign => exact mirrors_checkArg hsc n _ _
        all_goals exact hvalue 2
      all_goals exact hvalue 2
    all_goals exact hvalue 2

theorem Joins.condition :
    Repeats A A' tail (condition sc expression) (condition sc' expression') :=
  (h.expect sc sc' _).bind fun _ => hexpr.bind fun e => (h.expect sc sc' _).map fun _ => e

theorem Joins.printItem :
    Repeats A A' tail (printItem expression) (printItem expression') := by
  refine h.peek ?_ fun t => ?_
  · rintro _ (rfl | rfl)
    · exact hexpr
    · exact hexpr
  · cases t
    case text text => exact mirrors_skip.bind fun _ => (h.addText text).map _
    all_goals exact hexpr.mono (fun _ _ hs => hs.loose) fun _ _ hs => hs

/-- A statement that starts with a name. Whether the name is that of a procedure
is the same in both tables. -/
theorem Joins.namedStmt (hsc : sc.inDefinition = false) (name : String) :
    Mirrors (Beside A A' tail 1) (Beside A A' tail 0) (namedStmt sc expression name)
      (namedStmt sc' expression' name) := by
  have hsimple : ∀ k, Mirrors (Beside A A' tail k) (Beside A A' tail 0)
      (Parser.simple sc expression) (Parser.simple sc' expression') := fun k =>
    (h.simple hexpr hsc).mono (fun _ _ hs => hs.loose) fun _ _ hs => hs
  refine h.peekSecond ?_ fun second => ?_
  · rintro _ (rfl | rfl)
    · exact hsimple 1
    · exact hsimple 1
  -- by the token behind the name; only a parenthesis makes a call of it
  · cases second
    case leftParen =>
      rintro ⟨ts, t⟩ ⟨ts', t'⟩ st s₁ hs hrun
      obtain ⟨more, rfl, rfl⟩ := hs.symbols
      have hlookup := h.assigned.lookup_plus more name
      have hkind : ∀ id, ((A'.plus more).get id).kind = .procedure ↔
          ((A.plus more).get id).kind = .procedure := fun id =>
        (h.assigned.plus more).kind_iff (by decide) (by decide) id
      have hread : symbols ⟨ts, A'.plus more⟩ =
          .ok (A'.plus more) ⟨ts, A'.plus more⟩ := rfl
      have hread' : symbols ⟨ts', A.plus more⟩ =
          .ok (A.plus more) ⟨ts', A.plus more⟩ := rfl
      dsimp only at hrun ⊢
      rw [Action.bind_of_ok hread, hlookup] at hrun
      rw [Action.bind_of_ok hread']
      cases hname : (A.plus more).lookup name with
      | none =>
        rw [hname] at hrun
        exact hsimple 2 _ _ _ _ hs hrun
      | some id =>
        rw [hname] at hrun
        dsimp only at hrun ⊢
        by_cases hproc : ((A.plus more).get id).kind = .procedure
        · rw [if_pos ((hkind id).mpr hproc)] at hrun
          rw [if_pos hproc]
          exact (mirrors_skip.bind fun _ =>
            ((h.arguments hexpr).map _).mono (fun _ _ hs => hs.loose) fun _ _ hs => hs)
              _ _ _ _ hs hrun
        · rw [if_neg fun hk => hproc ((hkind id).mp hk)] at hrun
          rw [if_neg hproc]
          exact hsimple 2 _ _ _ _ hs hrun
    all_goals exact hsimple 2

end

/-! ### The items of a print statement -/

/-- Without a comma ahead there are no more items. -/
theorem morePrintItems_of_ne {expression : Parser Expr}
    (hs : s.tokens.head?.map Located.token ≠ some .comma) (bound : List Located) :
    morePrintItems expression bound s = .ok [] s := by
  cases bound with
  | nil => rfl
  | cons _ bound =>
    rcases s with ⟨_ | ⟨⟨line, tok⟩, ts⟩, t⟩
    · rfl
    · cases tok
      case comma => exact absurd rfl hs
      all_goals rfl

/-- Behind a comma there is another item. -/
theorem morePrintItems_of_comma {expression : Parser Expr}
    (hs : s.tokens.head?.map Located.token = some .comma) (l : Located)
    (bound : List Located) :
    morePrintItems expression (l :: bound) s =
      ((skip >>= fun _ => printItem expression) >>=
        fun e => morePrintItems expression bound >>=
        fun es => pure (e :: es)) s := by
  rcases s with ⟨_ | ⟨⟨line, tok⟩, ts⟩, t⟩
  · exact nomatch hs
  · cases hs
    rfl

/-- A parser that takes a token leaves one less. -/
theorem mirrors_takes {n m : Nat} {p p' : Parser α} (h : Mirrors R Q p p')
    (htakes : Takes n 1 p) :
    Mirrors (fun s s' => R s s' ∧ s.tokens.length ≤ m + 1)
      (fun s s' => Q s s' ∧ s.tokens.length ≤ m) p p' := by
  rintro s s' a s₁ ⟨hs, hlen⟩ hrun
  obtain ⟨s₁', hrun', hs₁⟩ := h _ _ _ _ hs hrun
  have hleft := htakes s
  rw [hrun] at hleft
  have hshort : s₁.tokens.length + 1 ≤ s.tokens.length := hleft
  exact ⟨s₁', hrun', hs₁, by omega⟩

/-- Items follow a comma, and a semicolon is none. -/
theorem Joins.morePrintItems (h : Joins A A' tail) {n : Nat}
    {expression expression' : Parser Expr} (htakes : Takes n 1 expression)
    (hexpr : Repeats A A' tail expression expression') {bound bound' : List Located}
    (hlen : bound.length ≤ bound'.length) :
    Mirrors (fun s s' => Beside A A' tail 0 s s' ∧ s.tokens.length ≤ bound.length)
      (Beside A A' tail 0) (morePrintItems expression bound)
      (morePrintItems expression' bound') := by
  have hcomma : Token.comma ≠ .semicolon := nofun
  -- by the rounds of the first reading, of which the second one has as many or
  -- more
  induction bound generalizing bound' with
  | nil =>
    rintro ⟨ts, t⟩ s' es s₁ ⟨hs, hbound⟩ ⟨⟩
    cases List.length_eq_zero_iff.mp (Nat.le_zero.mp hbound)
    have hne : s'.tokens.head?.map Located.token ≠ some .comma := by
      rw [Ne, h.head_iff hs hcomma]
      exact nofun
    exact ⟨s', morePrintItems_of_ne hne bound', hs⟩
  | cons l bound ih =>
    rcases bound' with _ | ⟨l', bound'⟩
    · exact nomatch hlen
    rintro s s' es s₁ ⟨hs, hbound⟩ hrun
    by_cases hhead : s.tokens.head?.map Located.token = some .comma
    · have hahead : 1 ≤ s.tokens.length := by
        rcases s with ⟨_ | ⟨l, ts⟩, t⟩
        · exact nomatch hhead
        · exact Nat.succ_le_succ (Nat.zero_le _)
      have hitem : Mirrors (Beside A A' tail 1) (Beside A A' tail 0)
          (skip >>= fun _ => Parser.printItem expression)
          (skip >>= fun _ => Parser.printItem expression') :=
        mirrors_skip.bind fun _ => h.printItem hexpr
      rw [morePrintItems_of_comma hhead] at hrun
      rw [morePrintItems_of_comma ((h.head_iff hs hcomma).mpr hhead)]
      exact ((mirrors_takes hitem (takes_skip.andThen fun _ =>
        takes_printItem htakes)).bind fun e =>
        (ih (Nat.le_of_succ_le_succ hlen)).map _) _ _ _ _
          ⟨{ hs with ahead := hahead }, hbound⟩ hrun
    · rw [morePrintItems_of_ne hhead] at hrun
      cases hrun
      exact ⟨s', morePrintItems_of_ne (mt (h.head_iff hs hcomma).mp hhead) _, hs⟩

theorem Joins.printItems (h : Joins A A' tail) {n : Nat}
    {expression expression' : Parser Expr} (htakes : Takes n 1 expression)
    (hexpr : Repeats A A' tail expression expression') :
    Repeats A A' tail (printItems expression) (printItems expression') :=
  (h.printItem hexpr).bind fun _ => mirrors_ahead fun _ _ hlen =>
    (h.morePrintItems htakes hexpr hlen).map _

/-! ### Statements -/

theorem Beside.cases (h : Beside A A' tail k s s') :
    Beside A A' tail 1 s s' ∨ Past A A' tail s s' := by
  rcases hs : s.tokens with _ | ⟨l, ts⟩
  · exact .inr (h.past hs)
  · exact .inl { h with ahead := by rw [hs]; exact Nat.succ_le_succ (Nat.zero_le _) }

/-- After a statement there are tokens ahead of both readings, or the first is
at its end. -/
theorem mirrors_of_reached {p p' : Parser α}
    (hbeside : Mirrors (Beside A A' tail 1) Q p p')
    (hpast : Mirrors (Past A A' tail) Q p p') : Mirrors (Reached A A' tail) Q p p' := by
  rintro s s' a s₁ (hs | hs) hrun
  · rcases hs.cases with hs | hs
    · exact hbeside _ _ _ _ hs hrun
    · exact hpast _ _ _ _ hs hrun
  · exact hpast _ _ _ _ hs hrun

/-- The semicolon that may end a statement. Where the first reading is at its
end, the second one takes one of the additional tokens or none. -/
theorem mirrors_terminator :
    Mirrors (Reached A A' tail) (Reached A A' tail) terminator terminator := by
  refine mirrors_of_reached (mirrors_peek fun tok => ?_) ?_
  · have hpure : Mirrors (Beside A A' tail 1) (Reached A A' tail)
        (pure () : Parser Unit) (pure ()) :=
      .pure (fun _ _ hs => .inl hs.loose) ()
    cases tok
    case semicolon => exact mirrors_skip.mono (fun _ _ hs => hs) fun _ _ hs => .inl hs
    all_goals exact hpure
  · rintro ⟨ts, t⟩ ⟨ts', t'⟩ a s₁ hs hrun
    cases (hs.tokens : ts = [])
    cases hrun
    rcases ts' with _ | ⟨⟨line, tok⟩, us⟩
    · exact ⟨_, rfl, .inr hs⟩
    · cases tok
      case semicolon =>
        obtain ⟨k, hk⟩ := hs.taken
        refine ⟨⟨us, t'⟩, rfl, .inr { hs with taken := ⟨k + 1, ?_⟩ }⟩
        rw [hk, List.replicate_succ', List.append_assoc]
        rfl
      all_goals exact ⟨_, rfl, .inr hs⟩

theorem mirrors_terminated {p p' : Parser Stmt} (h : Mirrors R (Reached A A' tail) p p') :
    Mirrors R (Reached A A' tail) (terminated p) (terminated p') :=
  h.bind fun s => mirrors_terminator.map fun _ => [s]

theorem mirrors_reached {p p' : Parser α} (h : Mirrors R (Beside A A' tail 0) p p') :
    Mirrors R (Reached A A' tail) p p' :=
  h.mono (fun _ _ hs => hs) fun _ _ hs => .inl hs

section

variable {sc sc' : Scope} {expression expression' : Parser Expr}
  {statement statement' : Parser (List Stmt)}
  (hstmt : Mirrors (Beside A A' tail 0) (Reached A A' tail) statement statement')

include hstmt

/-- The closing brace of a block is ahead of both readings. -/
theorem mirrors_blockItems {bound bound' : List Located}
    (hlen : bound.length ≤ bound'.length) :
    Mirrors (Reached A A' tail) (Beside A A' tail 0) (blockItems sc statement bound)
      (blockItems sc' statement' bound') := by
  induction bound generalizing bound' with
  | nil => exact mirrors_malformed sc _ _
  | cons _ bound ih =>
    rcases bound' with _ | ⟨_, bound'⟩
    · exact nomatch hlen
    have hrest := ih (Nat.le_of_succ_le_succ hlen)
    refine mirrors_of_reached (mirrors_peek fun tok => ?_) ?_
    · have hfirst : Mirrors (Beside A A' tail 1) (Beside A A' tail 0)
          (statement >>= fun first => blockItems sc statement bound >>= fun rest =>
            pure (first ++ rest))
          (statement' >>= fun first => blockItems sc' statement' bound' >>= fun rest =>
            pure (first ++ rest)) :=
        (hstmt.bind fun first => hrest.map _).mono (fun _ _ hs => hs.loose) fun _ _ hs =>
          hs
      cases tok
      case rightBrace => exact mirrors_skip.map fun _ => []
      case semicolon =>
        exact mirrors_skip.bind fun _ =>
          hrest.mono (fun _ _ hs => .inl hs) fun _ _ hs => hs
      all_goals exact hfirst
    · rintro ⟨ts, t⟩ s' a s₁ hs hrun
      cases (hs.tokens : ts = [])
      exact nomatch hrun

variable (h : Joins A A' tail) (hexpr : Repeats A A' tail expression expression')

include h hexpr

theorem Joins.forStmt (hsc : sc.inDefinition = false) :
    Mirrors (Beside A A' tail 1) (Reached A A' tail) (forStmt sc expression statement)
      (forStmt sc' expression' statement') :=
  mirrors_skip.bind fun _ => (h.expect sc sc' _).bind fun _ =>
    (h.simple hexpr hsc).bind fun _ =>
    (h.expect sc sc' _).bind fun _ => hexpr.bind fun _ =>
      (h.expect sc sc' _).bind fun _ =>
      (h.simple hexpr hsc).bind fun _ => (h.expect sc sc' _).bind fun _ => hstmt.map _

/-- No `else` is among the additional tokens, so both readings see the same
branches. -/
theorem Joins.ifStmt :
    Mirrors (Beside A A' tail 1) (Reached A A' tail) (ifStmt sc expression statement)
      (ifStmt sc' expression' statement') := by
  refine mirrors_skip.bind fun _ => (h.condition hexpr).bind fun cond =>
    hstmt.bind fun body =>
    mirrors_of_reached (mirrors_peek fun tok => ?_) ?_
  · have hthen : Mirrors (Beside A A' tail 1) (Reached A A' tail)
        (pure (.ifThen cond body) : Parser Stmt) (pure (.ifThen cond body)) :=
      mirrors_reached (mirrors_pure _)
    cases tok
    case keyword word =>
      cases word
      case elseKw => exact mirrors_skip.bind fun _ => hstmt.map _
      all_goals exact hthen
    all_goals exact hthen
  · rintro ⟨ts, t⟩ ⟨ts', t'⟩ a s₁ hs hrun
    cases (hs.tokens : ts = [])
    cases hrun
    refine ⟨⟨ts', t'⟩, ?_, .inr hs⟩
    rcases ts' with _ | ⟨⟨line, tok⟩, us⟩
    · rfl
    · cases tok
      case keyword word =>
        cases word
        case elseKw =>
          obtain ⟨k, hk⟩ := hs.taken
          exact absurd hk (h.noElse k _)
        all_goals rfl
      all_goals rfl

/-- A statement is read alike, by the token it starts with. -/
theorem Joins.anyStatement {n : Nat} (htakes : Takes n 1 expression)
    (hsc : sc.inDefinition = false) :
    Mirrors (Beside A A' tail 0) (Reached A A' tail)
      (anyStatement sc expression statement)
      (anyStatement sc' expression' statement') := by
  have hsimple : ∀ k, Mirrors (Beside A A' tail k) (Reached A A' tail)
      (terminated (Parser.simple sc expression))
      (terminated (Parser.simple sc' expression')) := fun k =>
    (mirrors_terminated (mirrors_reached (h.simple hexpr hsc))).mono
      (fun _ _ hs => hs.loose) fun _ _ hs => hs
  refine h.peek ?_ fun tok => ?_
  · rintro _ (rfl | rfl)
    · exact hsimple 0
    · exact hsimple 0
  · cases tok
    case leftBrace =>
      exact mirrors_skip.bind fun _ => mirrors_ahead fun _ _ hlen =>
        mirrors_reached ((mirrors_blockItems hstmt hlen).mono (fun _ _ hs => .inl hs.1)
          fun _ _ hs => hs)
    case keyword word =>
      cases word
      case printKw =>
        exact mirrors_terminated (mirrors_reached (mirrors_skip.bind fun _ =>
          (h.printItems htakes hexpr).map _))
      case whileKw =>
        exact mirrors_terminated (mirrors_skip.bind fun _ =>
          (h.condition hexpr).bind fun _ =>
          hstmt.map _)
      case forKw => exact (h.forStmt hstmt hexpr hsc).map _
      case ifKw => exact (h.ifStmt hstmt hexpr).map _
      case returnKw =>
        refine .of_error fun s => ?_
        unfold terminated returnStmt
        rw [hsc]
        exact ⟨_, _, rfl⟩
      case readKw => exact hsimple 1
      all_goals exact mirrors_unexpected sc _
    case ident name =>
      exact mirrors_terminated (mirrors_reached (h.namedStmt hexpr hsc name))
    all_goals exact hsimple 1

end

/-- A statement outside of a definition is read alike by both, up to the
semicolons at its end. -/
theorem Joins.statement (h : Joins A A' tail) {sc sc' : Scope}
    (hsc : sc.inDefinition = false) (depth : Nat) :
    Mirrors (Beside A A' tail 0) (Reached A A' tail) (statement sc depth)
      (statement sc' depth) := by
  induction depth with
  | zero => exact mirrors_fail sc _ _ _
  | succ depth ih =>
    exact h.anyStatement ih (h.binary hsc depth 1) (takes_binary sc depth 1) hsc

/-! ### Programs -/

section

variable {sc sc' : Scope} {depth : Nat}

theorem programItems_nil (bound : List Located) (t : SymbolTable) :
    programItems sc depth bound ⟨[], t⟩ = .ok [] ⟨[], t⟩ := by
  cases bound <;> rfl

theorem programItems_of_semicolon {l b : Located} {ts bound : List Located}
    {t : SymbolTable} (hsemi : l.token = .semicolon) :
    programItems sc depth (b :: bound) ⟨l :: ts, t⟩ =
      programItems sc depth bound ⟨ts, t⟩ := by
  obtain ⟨line, tok⟩ := l
  cases hsemi
  rfl

/-- Semicolons at the front of a program are left out. -/
theorem programItems_semicolons {ts : List Token} {bound us : List Located}
    {t : SymbolTable} {k : Nat} (hlen : us.length ≤ bound.length)
    (htokens : us.map Located.token = List.replicate k .semicolon ++ ts) :
    ∃ bound' us', us'.length ≤ bound'.length ∧ us'.map Located.token = ts ∧
      programItems sc depth bound ⟨us, t⟩ = programItems sc depth bound' ⟨us', t⟩ := by
  induction k generalizing bound us with
  | zero => exact ⟨bound, us, hlen, htokens, rfl⟩
  | succ k ih =>
    obtain ⟨l, us, rfl, hl, hus⟩ := List.map_eq_cons_iff.mp htokens
    rcases bound with _ | ⟨_, bound⟩
    · exact nomatch hlen
    rw [programItems_of_semicolon hl]
    exact ih (Nat.le_of_succ_le_succ hlen) hus

/-- A statement at the front of a program that starts neither with a semicolon
nor as a definition. -/
theorem programItems_statement {l b : Located} {ts bound : List Located} {t : SymbolTable}
    (hsemi : l.token ≠ .semicolon)
    (hplain : ∀ kind : DefinitionKind, l.token ≠ .keyword kind.keyword) :
    programItems sc depth (b :: bound) ⟨l :: ts, t⟩ =
      (statement sc depth >>= fun first => programItems sc depth bound >>= fun rest =>
        pure (first ++ rest)) ⟨l :: ts, t⟩ := by
  obtain ⟨line, tok⟩ := l
  cases tok
  case semicolon => exact absurd rfl hsemi
  case keyword word =>
    cases word
    case funcKw => exact absurd rfl (hplain .function)
    case procKw => exact absurd rfl (hplain .procedure)
    all_goals rfl
  all_goals rfl

/-- How a reading of a program without definitions ends, and how the second one
goes on behind it. -/
structure Continues (A A' : SymbolTable) (tail : List Token) (sc' : Scope) (depth : Nat)
    (program : List Stmt) (s s₁ s₂ : ParseState) (bound₂ : List Located)
    (result : EStateM.Result Fault ParseState (List Stmt)) : Prop where
  past : Past A A' tail s₁ s₂
  enough : s₂.tokens.length ≤ bound₂.length
  reads : ∀ T, s₁.symbols.Evolves T → Stmt.ReadsAll T false program s.symbols s₁.symbols
  continued : result =
    (programItems sc' depth bound₂ >>= fun rest => pure (program ++ rest)) s₂

/-- At the end of the first reading the second one goes on by itself. -/
theorem Past.continues (h : Past A A' tail s s') {bound bound' : List Located}
    {program : List Stmt} {s₁ : ParseState} (hlen : s'.tokens.length ≤ bound'.length)
    (hrun : programItems sc depth bound s = .ok program s₁) :
    Continues A A' tail sc' depth program s s₁ s' bound'
      (programItems sc' depth bound' s') := by
  rcases s with ⟨ts, t⟩
  cases (h.tokens : ts = [])
  rw [programItems_nil] at hrun
  cases hrun
  exact ⟨h, hlen, fun _ _ => rfl, by simp only [List.nil_append, bind_pure]⟩

/-- The second reading of a program goes on behind the first one's end. -/
theorem Joins.programItems (h : Joins A A' tail) (hsc : sc.inDefinition = false)
    {bound bound' : List Located} {program : List Stmt} {s₁ : ParseState}
    (hsound : s.symbols.Sound) (hs : Reached A A' tail s s')
    (hlen : s.tokens.length ≤ bound.length) (hlen' : s'.tokens.length ≤ bound'.length)
    (hrun : programItems sc depth bound s = .ok program s₁) :
    ∃ s₂ bound₂, Continues A A' tail sc' depth program s s₁ s₂ bound₂
      (programItems sc' depth bound' s') := by
  -- each round takes a token of both readings
  induction bound generalizing s s' bound' program s₁ with
  | nil =>
    rcases hs with hs | hs
    · have hpast := hs.past (List.length_eq_zero_iff.mp (Nat.le_zero.mp hlen))
      exact ⟨_, _, hpast.continues hlen' hrun⟩
    · exact ⟨_, _, hs.continues hlen' hrun⟩
  | cons b bound ih =>
    rcases hs with hs | hs
    case inr => exact ⟨_, _, hs.continues hlen' hrun⟩
    rcases hs.cases with hs | hs
    case inr => exact ⟨_, _, hs.continues hlen' hrun⟩
    rcases s with ⟨_ | ⟨l, ts⟩, t⟩
    · exact nomatch hs.ahead
    obtain ⟨l', us, hs', hl, -⟩ := List.map_eq_cons_iff.mp hs.tokens
    rcases s' with ⟨_, t'⟩
    cases hs'
    rcases bound' with _ | ⟨b', bound'⟩
    · exact nomatch hlen'
    have hlen : ts.length + 1 ≤ bound.length + 1 := hlen
    have hlen' : us.length + 1 ≤ bound'.length + 1 := hlen'
    -- a semicolon is left behind by both readings, and a statement is read by
    -- both
    by_cases hsemi : l.token = .semicolon
    · obtain ⟨_, hskip, hbehind⟩ :=
        mirrors_skip _ _ _ _ hs (rfl : skip _ = .ok () ⟨ts, t⟩)
      cases hskip
      rw [programItems_of_semicolon hsemi] at hrun
      rw [programItems_of_semicolon (hl.trans hsemi)]
      have hsound' : (⟨ts, t⟩ : ParseState).symbols.Sound := hsound
      obtain ⟨s₂, bound₂, hcontinues⟩ :=
        ih hsound' (.inl hbehind) (Nat.le_of_succ_le_succ hlen)
        (Nat.le_of_succ_le_succ hlen') hrun
      exact ⟨s₂, bound₂, { hcontinues with }⟩
    · have hplain : ∀ kind : DefinitionKind, l.token ≠ .keyword kind.keyword :=
        fun kind hkind =>
        hs.plain kind (hkind ▸ List.mem_cons_self)
      rw [programItems_statement hsemi hplain] at hrun
      rw [programItems_statement (hl ▸ hsemi) (hl ▸ hplain)]
      obtain ⟨first, s₂, hfirst, hrest⟩ := Action.of_bind_ok hrun
      have hmirrors : Mirrors (Beside A A' tail 0) (Reached A A' tail)
          (Parser.statement sc depth) (Parser.statement sc' depth) :=
          h.statement hsc depth
      obtain ⟨s₂', hfirst', hs₂⟩ := hmirrors _ _ _ _ hs.loose hfirst
      obtain ⟨rest, s₃, hrest, hdone⟩ := Action.of_bind_ok hrest
      cases hdone
      -- the statement has taken a token of each reading, so the rounds that are
      -- left are enough
      have htakes := takes_statement sc depth ⟨l :: ts, t⟩
      have htakes' := takes_statement sc' depth ⟨l' :: us, t'⟩
      rw [hfirst] at htakes
      rw [hfirst'] at htakes'
      have hshort : s₂.tokens.length + 1 ≤ ts.length + 1 := htakes
      have hshort' : s₂'.tokens.length + 1 ≤ us.length + 1 := htakes'
      have htraces := traces_statement sc depth
      rw [TracesStmts, hsc] at htraces
      obtain ⟨hadvances, hreads⟩ := htraces _ _ _ hsound hfirst
      obtain ⟨s₄, bound₂, hcontinues⟩ := ih (hadvances.sound hsound) hs₂ (by omega)
        (show _ ≤ bound'.length by omega) hrest
      have hlater :=
        (traces_programItems sc hsc depth bound _ _ _ (hadvances.sound hsound) hrest).1
      refine ⟨s₄, bound₂, hcontinues.past, hcontinues.enough, fun T hT => ?_, ?_⟩
      · exact (hreads T (hlater.evolves.trans hT)).append (hcontinues.reads T hT)
      · rw [Action.bind_of_ok hfirst', Action.bind_congr hcontinues.continued]
        simp only [bind_assoc, pure_bind, List.append_assoc]

/-- No program starts with an `else`, behind semicolons or not. -/
theorem programItems_ne_ok_of_else {ts : List Token} {bound us : List Located}
    {t : SymbolTable} {k : Nat}
    (hlen : us.length ≤ bound.length)
    (htokens : us.map Located.token =
      List.replicate k .semicolon ++ .keyword .elseKw :: ts)
    {program : List Stmt} {s₁ : ParseState} :
    programItems sc depth bound ⟨us, t⟩ ≠ .ok program s₁ := by
  intro hrun
  obtain ⟨bound', us', hlen', htokens', heq⟩ := programItems_semicolons hlen htokens
  rw [heq] at hrun
  obtain ⟨⟨line, tok⟩, us', rfl, rfl, -⟩ := List.map_eq_cons_iff.mp htokens'
  rcases bound' with _ | ⟨b, bound'⟩
  · exact nomatch hlen'
  have hsemi : Token.keyword .elseKw ≠ .semicolon := nofun
  have hplain : ∀ kind : DefinitionKind,
      Token.keyword .elseKw ≠ .keyword kind.keyword := by
    rintro (_ | _) <;> exact nofun
  rw [programItems_statement hsemi hplain] at hrun
  obtain ⟨first, s₂, hfirst, -⟩ := Action.of_bind_ok hrun
  cases depth <;> exact nomatch hfirst

end

end

end Parser

/-! ### The result -/

open StackCalc.Parser

/-- The tokens of a text without definitions. -/
def Plain (tokens : List Located) : Prop :=
  ∀ kind : DefinitionKind, .keyword kind.keyword ∉ tokens.map Located.token

section

variable {tokens tokens₁ tokens₂ : List Located} {t t₁ t₁' t₂ : SymbolTable} {depth : Nat}
  {program program₁ program₂ : List Stmt}

/-- What reading a text without definitions did. -/
theorem Stmt.readsAll_of_parse (ht : t.Sound) (hplain : Plain tokens)
    (h : parse tokens t depth = (.ok program, t₁)) :
    Stmt.ReadsAll t₁ false program t t₁ := by
  obtain ⟨rest, hrun⟩ := programItems_of_parse h
  have hjoins : Joins t t [] := ⟨.refl t, .inl rfl, by simp⟩
  have hs : Beside t t [] 0 ⟨tokens, t⟩ ⟨tokens, t⟩ :=
    ⟨(List.append_nil _).symm, ⟨{}, (t.plus_empty).symm, (t.plus_empty).symm⟩,
      Nat.zero_le _, hplain⟩
  have hlen := Nat.le_refl tokens.length
  obtain ⟨s₂, bound₂, hcontinues⟩ :=
    @Joins.programItems _ _ _ _ _ _ ⟨false, none⟩ _ hjoins rfl _ _ _ _ ht (.inl hs)
      hlen hlen hrun
  exact hcontinues.reads t₁ (.refl t₁)

/-- Two texts joined by a semicolon are read as the one and then the other.
Between them variables may be assigned to: the second text is read from the
table `t₁'`, the joined one from the table that the first one left; both add the
same to it. -/
theorem parse_joined (ht : t.Sound) (hjoined : tokens.map Located.token =
      tokens₁.map Located.token ++ .semicolon :: tokens₂.map Located.token)
    (hplain₁ : Plain tokens₁) (hplain₂ : Plain tokens₂)
    (h₁ : parse tokens₁ t depth = (.ok program₁, t₁)) (hassigned : t₁.Assigned t₁')
    (ht₁' : t₁'.Sound) (h₂ : parse tokens₂ t₁' depth = (.ok program₂, t₂)) :
    ∃ more, t₂ = t₁'.plus more ∧
      parse tokens t depth = (.ok (program₁ ++ program₂), t₁.plus more) := by
  obtain ⟨rest₁, hrun₁⟩ := programItems_of_parse h₁
  obtain ⟨rest₂, hrun₂⟩ := programItems_of_parse h₂
  -- the first text, beside the joined one
  have hjoins₁ : Joins t t (.semicolon :: tokens₂.map Located.token) := by
    refine ⟨.refl t, .inr rfl, fun k rest heq => ?_⟩
    cases k with
    | zero => exact nomatch heq
    | succ k =>
      exact programItems_ne_ok_of_else (Nat.le_refl _) (List.cons.inj heq).2 hrun₂
  have hs₁ : Beside t t (.semicolon :: tokens₂.map Located.token) 0 ⟨tokens₁, t⟩
      ⟨tokens, t⟩ :=
    ⟨hjoined, ⟨{}, (t.plus_empty).symm, (t.plus_empty).symm⟩, Nat.zero_le _, hplain₁⟩
  let sc : Scope := ⟨false, tokens.getLast?.map Located.line⟩
  obtain ⟨⟨us, u⟩, bound₁, hcontinues₁⟩ :
      ∃ s₂ bound₂, Continues t t _ sc depth program₁ _ _ s₂ bound₂ _ :=
    hjoins₁.programItems rfl ht (.inl hs₁) (Nat.le_refl _) (Nat.le_refl _) hrun₁
  obtain ⟨more₁, ht₁, hu⟩ := hcontinues₁.past.symbols
  obtain rfl : u = t₁ := hu.trans ht₁.symm
  -- what is left of the joined text, and the second text, without the semicolons in front
  obtain ⟨bound₂, bound₂', vs, vs', hvs, hvs', htokens, hplain, hleft, hright⟩ :
      ∃ bound bound' vs vs', vs.length ≤ bound.length ∧ vs'.length ≤ bound'.length ∧
        vs'.map Located.token = vs.map Located.token ∧ Plain vs ∧
        programItems ⟨false, tokens₂.getLast?.map Located.line⟩ depth bound ⟨vs, t₁'⟩ =
          .ok program₂ ⟨rest₂, t₂⟩ ∧
        programItems sc depth bound₁ ⟨us, u⟩ = programItems sc depth bound' ⟨vs', u⟩ := by
    obtain ⟨k, hk⟩ := hcontinues₁.past.taken
    cases k with
    | zero =>
      obtain ⟨bound', vs', hvs', htokens', hright⟩ :=
        @programItems_semicolons sc depth _ _ us u 1 hcontinues₁.enough hk.symm
      exact ⟨_, bound', _, vs', Nat.le_refl _, hvs', htokens', hplain₂, hrun₂, hright⟩
    | succ k =>
      have htail := (List.cons.inj hk).2
      obtain ⟨bound, vs, hvs, htokens', hleft⟩ :=
        @programItems_semicolons ⟨false, tokens₂.getLast?.map Located.line⟩ depth _
          _ tokens₂ t₁' k (Nat.le_refl _) htail
      refine ⟨bound, bound₁, vs, us, hvs, hcontinues₁.enough, htokens'.symm,
        fun kind hmem => ?_, hleft.symm.trans hrun₂, rfl⟩
      rw [htokens'] at hmem
      exact hplain₂ kind (htail ▸ List.mem_append_right _ hmem)
  -- the second text, beside the rest
  have hjoins₂ : Joins u t₁' [] := ⟨hassigned, .inl rfl, by simp⟩
  have hs₂ : Beside u t₁' [] 0 ⟨vs, t₁'⟩ ⟨vs', u⟩ :=
    ⟨htokens.trans (List.append_nil _).symm,
      ⟨{}, (t₁'.plus_empty).symm, (u.plus_empty).symm⟩, Nat.zero_le _, hplain⟩
  obtain ⟨⟨ws, w⟩, bound₃, hcontinues₂⟩ :
      ∃ s₂ bound₂, Continues u t₁' [] sc depth program₂ _ _ s₂ bound₂ _ :=
    hjoins₂.programItems rfl ht₁' (.inl hs₂) hvs hvs' hleft
  obtain ⟨more, ht₂, hw⟩ := hcontinues₂.past.symbols
  have hend : ws = [] := by
    obtain ⟨k, hk⟩ := hcontinues₂.past.taken
    exact List.map_eq_nil_iff.mp (List.append_eq_nil_iff.mp hk.symm).2
  refine ⟨more, ht₂, ?_⟩
  have hrest : programItems sc depth bound₁ ⟨us, u⟩ = .ok program₂ ⟨ws, w⟩ := by
    rw [hright, hcontinues₂.continued, hend,
      Action.bind_of_ok (programItems_nil bound₃ w)]
    exact congrArg (EStateM.Result.ok · _) (List.append_nil _)
  have hall : programItems sc depth tokens ⟨tokens, t⟩ =
      .ok (program₁ ++ program₂) ⟨ws, w⟩ := by
    rw [hcontinues₁.continued, Action.bind_of_ok hrest]
    rfl
  rw [parse_of_programItems hall]
  exact congrArg _ hw

end

end StackCalc
