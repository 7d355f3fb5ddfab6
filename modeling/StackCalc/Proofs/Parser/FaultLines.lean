import StackCalc.Proofs.Parser.Composition
import StackCalc.Proofs.Parser.Reading
import StackCalc.Proofs.Token.Decomposition

/-!
# Where reading fails

A parser that fails stays where it is, so the tokens that remain tell what its
fault is about: `Fault.Marks` says that it names the line of the first of them,
or of the last token of all if none is left, and that a fault for an unknown
token names that token. On the way there no unknown token was left behind
(`ParseState.PassedTo`). Both are true of every step, hence of all parsers
(`Parser.locates_programItems`).

Lines never go down from one token to the next (`sorted_lex`). So whatever is
wrong with a text, it is reported no later than in the line of its first unknown
token, and a text with an unknown token cannot be read at all.
-/

namespace StackCalc

/-! ### Faults in place -/

/-- Known tokens were taken from the front. -/
def ParseState.PassedTo (s s' : ParseState) : Prop :=
  ∃ taken, s.tokens = taken ++ s'.tokens ∧ ∀ l ∈ taken, l.token.isKnown

theorem ParseState.PassedTo.refl (s : ParseState) : s.PassedTo s :=
  ⟨[], rfl, by simp⟩

theorem ParseState.PassedTo.trans {s s' s'' : ParseState} (h : s.PassedTo s')
    (h' : s'.PassedTo s'') :
    s.PassedTo s'' := by
  obtain ⟨taken, htokens, hknown⟩ := h
  obtain ⟨taken', htokens', hknown'⟩ := h'
  refine ⟨taken ++ taken', ?_, ?_⟩
  · rw [htokens, htokens', List.append_assoc]
  · exact fun l hl => (List.mem_append.mp hl).elim (hknown l) (hknown' l)

/-- A known token at the front is passed. -/
theorem ParseState.passedTo_next {s : ParseState} {t : Token} {ts : List Token}
    (ht : t.isKnown) (hs : t :: ts <+: s.row) : s.PassedTo s.next := by
  obtain ⟨rest, hrest⟩ := hs
  unfold row at hrest
  unfold PassedTo next
  cases htokens : s.tokens with
  | nil =>
    rw [htokens] at hrest
    cases hrest
  | cons l ls =>
    rw [htokens] at hrest
    obtain ⟨rfl, -⟩ := List.cons.inj hrest
    exact ⟨[l], rfl, by simpa using ht⟩

/-- The kinds of fault that reading tokens can end with. -/
def FaultKind.ofReading : List FaultKind :=
  .illegalCharacter :: Parser.failures

/-- The fault is about the place in which a parser stopped; `last` is the line
of the last token of all. -/
structure Fault.Marks (f : Fault) (last : Option Nat) (s : ParseState) : Prop where
  kind : f.kind ∈ FaultKind.ofReading
  line : f.line = (s.tokens.head?.map Located.line).or last
  illegal : f.kind = .illegalCharacter → [.unknown f.note] <+: s.row

namespace Parser

variable {α β : Type} {ts : List Token} {last : Option Nat}

/-- A parser leaves only known tokens behind and fails in place. -/
structure LocatesAt (last : Option Nat) (p : Parser α) (s : ParseState) : Prop where
  passed : s.PassedTo (Action.final (p s))
  marks : ∀ f s', p s = .error f s' → f.Marks last s'

/-- Where the tokens start with `ts`, a parser leaves only known tokens behind
and fails in place. -/
def LocatesAhead (last : Option Nat) (ts : List Token) (p : Parser α) : Prop :=
  ∀ s, ts <+: s.row → LocatesAt last p s

/-- The same wherever the parser starts. -/
abbrev Locates (last : Option Nat) (p : Parser α) : Prop :=
  LocatesAhead last [] p

theorem locatesAt_of_ok {p : Parser α} {s s' : ParseState} {a : α} (h : p s = .ok a s')
    (hpassed : s.PassedTo s') : LocatesAt last p s where
  passed := by
    rw [h]
    exact hpassed
  marks f s'' hf := by cases h.symm.trans hf

/-- A sequence whose first part succeeds. -/
theorem LocatesAt.of_ok {p : Parser α} {f : α → Parser β} {s s' : ParseState} {a : α}
    (h : p s = .ok a s') (hpassed : s.PassedTo s') (hf : LocatesAt last (f a) s') :
    LocatesAt last (p >>= f) s where
  passed := by
    rw [Action.bind_of_ok h]
    exact hpassed.trans hf.passed
  marks := by
    rw [Action.bind_of_ok h]
    exact hf.marks

theorem locatesAt_fail (sc : Scope) {kind : FaultKind} {note : String} {s : ParseState}
    (hkind : kind ∈ FaultKind.ofReading)
    (hillegal : kind = .illegalCharacter → [.unknown note] <+: s.row) :
    LocatesAt sc.lastLine (fail sc kind note : Parser α) s where
  passed := .refl s
  marks := by
    rintro f s' ⟨⟩
    refine ⟨hkind, ?_, hillegal⟩
    cases s.tokens <;> rfl

/-- A sequence fails in its first part or in its second, and in both cases in
place. -/
theorem LocatesAhead.bind {p : Parser α} {f : α → Parser β} (hp : LocatesAhead last ts p)
    (hf : ∀ a, Locates last (f a)) : LocatesAhead last ts (p >>= f) := by
  intro s hs
  have hfirst := hp s hs
  rcases Action.bind_cases p f s with ⟨e, s', hp', hrun⟩ | ⟨a, s', hp', -⟩
  · refine ⟨?_, fun e' s'' he' => ?_⟩
    · have hpassed := hfirst.passed
      rw [hp'] at hpassed
      rw [hrun]
      exact hpassed
    · cases hrun.symm.trans he'
      exact hfirst.marks _ _ hp'
  · have hpassed := hfirst.passed
    rw [hp'] at hpassed
    exact .of_ok hp' hpassed (hf a s' List.nil_prefix)

theorem locates_peek {f : Option Token → Parser β}
    (hf : ∀ o, LocatesAhead last o.toList (f o)) :
    Locates last (peek >>= f) :=
  fun s _ => .of_ok rfl (.refl s) (hf _ s s.front_ahead)

theorem LocatesAhead.skipThen {t : Token} (ht : t.isKnown) {f : Unit → Parser β}
    (hf : LocatesAhead last ts (f ())) : LocatesAhead last (t :: ts) (skip >>= f) :=
  fun s hs => .of_ok rfl (s.passedTo_next ht hs)
    (hf s.next (ParseState.row_of_ahead hs).2)

theorem LocatesAhead.look {p : Parser α} (hp : Looks p) {f : α → Parser β}
    (hf : ∀ a, LocatesAhead last ts (f a)) : LocatesAhead last ts (p >>= f) := by
  intro s hs
  obtain ⟨a, ha⟩ := hp s
  exact .of_ok ha (.refl s) (hf a s hs)

/-- Changing the symbols leaves the tokens as they are. -/
theorem locates_of_symbols {p : Parser α} {f : SymbolTable → α × SymbolTable}
    (h : ∀ s, p s = .ok (f s.symbols).1 { s with symbols := (f s.symbols).2 }) :
    Locates last p :=
  fun s _ => locatesAt_of_ok (h s) ⟨[], rfl, by simp⟩

theorem locates_addSymbol (f : SymbolTable → Nat × SymbolTable) :
    Locates last (addSymbol f) :=
  locates_of_symbols fun _ => rfl

/-- The steps of a parser fail in place, and so does what is made of them. -/
theorem Composed.locates {sc : Scope} {p : Parser α} (h : Composed sc ts p) :
    LocatesAhead sc.lastLine ts p := by
  induction h with
  | pure a => exact fun s _ => locatesAt_of_ok rfl (.refl s)
  | fail hkind note =>
    refine fun s _ => locatesAt_fail _ (List.mem_cons_of_mem _ hkind) ?_
    rintro rfl
    exact absurd hkind (by decide)
  | illegal text => exact fun s hs => locatesAt_fail _ List.mem_cons_self fun _ => hs
  | resolve | number | text => exact locates_addSymbol _
  | skip ht =>
    exact fun s hs => locatesAt_of_ok rfl
      (s.passedTo_next (Token.isKnown_of_isPlain ht) hs)
  | peek _ ih => exact locates_peek ih
  | peekBoth _ ih =>
    exact fun s _ => .of_ok rfl (.refl s) (.of_ok rfl (.refl s) (ih _ _ s s.both_ahead))
  | look hp _ ih => exact .look hp ih
  | skipThen ht _ ih => exact .skipThen (Token.isKnown_of_isPlain ht) ih
  | bind _ _ ihp ihf => exact ihp.bind ihf
  | ahead _ ts ih => exact fun s _ => ih s List.nil_prefix

/-! ### Programs -/

/-- A definition takes its name and its body in place. -/
theorem locates_definition (sc : Scope) {t : Token} (ht : t.isKnown)
    (kind : DefinitionKind) (depth : Nat) :
    LocatesAhead sc.lastLine [t] (definition sc kind depth) := by
  refine .skipThen ht (composed_ident.locates.bind fun name =>
    (locates_addSymbol _).bind fun id => ?_)
  refine .look looks_symbols fun symbols => ?_
  split
  · exact (composed_malformed _).locates
  · have hmodify : Locates sc.lastLine (modify fun s : ParseState =>
        { s with symbols := s.symbols.modify id fun e =>
          { e with kind := kind.symbolKind } }) :=
      locates_of_symbols (f := fun t =>
        ((), t.modify id fun e => { e with kind := kind.symbolKind })) fun _ => rfl
    -- faults name the same line inside of a definition and outside
    have hbody : Locates sc.lastLine (statement { sc with inDefinition := true } depth) :=
      (composed_statement { sc with inDefinition := true } depth).locates
    refine hmodify.bind fun _ => (composed_expect rfl).locates.bind fun _ => ?_
    exact (composed_expect rfl).locates.bind fun _ => hbody.bind fun _ =>
      (Composed.pure _).locates

/-- So does a program its definitions and statements. -/
theorem locates_programItems (sc : Scope) (depth : Nat) (bound : List Located) :
    Locates sc.lastLine (programItems sc depth bound) := by
  have hpure : ∀ (ss : List Stmt) ts,
      LocatesAhead sc.lastLine ts (pure ss : Parser (List Stmt)) := fun ss ts =>
    ((Composed.pure ss).ahead ts).locates
  induction bound with
  | nil => exact hpure [] []
  | cons _ bound ih =>
    refine locates_peek fun o => ?_
    split
    · exact hpure [] _
    · exact .skipThen rfl ih
    · exact (locates_definition sc rfl _ depth).bind fun _ => ih.bind fun _ => hpure _ []
    · exact (locates_definition sc rfl _ depth).bind fun _ => ih.bind fun _ => hpure _ []
    · exact ((composed_statement sc depth).ahead _).locates.bind fun _ =>
        ih.bind fun _ => hpure _ []

end Parser

/-! ### Lines -/

/-- The lines of the tokens of a text start with its first line and never go
down. -/
theorem Lexer.sorted_located (line : Nat) (pieces : List Piece) :
    (located line pieces).Pairwise (fun l l' => l.line ≤ l'.line) ∧
      ∀ l ∈ located line pieces, line ≤ l.line := by
  induction pieces generalizing line with
  | nil => exact ⟨.nil, by simp [located]⟩
  | cons p pieces ih =>
    obtain ⟨hsorted, hfrom⟩ := ih (line + lineEnds (p.gap ++ p.text))
    rw [lineEnds_append] at hsorted hfrom
    rw [located, lineEnds_append]
    refine ⟨.cons (fun l hl => Nat.le_trans (Nat.add_le_add_left (Nat.le_add_right _ _) _)
      (hfrom l hl)) hsorted, ?_⟩
    refine List.forall_mem_cons.mpr ⟨Nat.le_add_right _ _, fun l hl => ?_⟩
    exact Nat.le_trans (Nat.le_add_right _ _) (hfrom l hl)

/-- The lines of tokens never go down. -/
theorem sorted_lex (source : String) :
    (lex source).Pairwise fun l l' => l.line ≤ l'.line := by
  obtain ⟨pieces, -, -, -, hlex⟩ := Lexer.exists_decomposition source.toList
  rw [lex, hlex]
  exact (Lexer.sorted_located 1 pieces).1

/-! ### Unknown tokens -/

/-- The first token that is none of the language. -/
def firstUnknown? (tokens : List Located) : Option Located :=
  tokens.find? fun l => !l.token.isKnown

section

variable {s s' : ParseState} {u : Located}

/-- The first unknown token is still ahead. -/
theorem ParseState.PassedTo.firstUnknown? (h : s.PassedTo s') :
    firstUnknown? s'.tokens = firstUnknown? s.tokens := by
  obtain ⟨taken, htokens, hknown⟩ := h
  have hnone : taken.find? (fun l => !l.token.isKnown) = none :=
    List.find?_eq_none.mpr fun l hl => by simp [hknown l hl]
  rw [StackCalc.firstUnknown?, StackCalc.firstUnknown?, htokens, List.find?_append, hnone,
    Option.none_or]

/-- A text stops before its first unknown token or at it. -/
theorem ParseState.PassedTo.line_le (h : s.PassedTo s')
    (hsorted : s.tokens.Pairwise fun l l' => l.line ≤ l'.line)
    (hu : StackCalc.firstUnknown? s.tokens = some u) :
    ∃ l ∈ s'.tokens.head?, l.line ≤ u.line := by
  rw [← h.firstUnknown?] at hu
  obtain ⟨taken, htokens, -⟩ := h
  rw [htokens] at hsorted
  have hmem := List.mem_of_find?_eq_some hu
  -- the first unknown token is among those that are left, and the first of
  -- these is no later
  cases hrest : s'.tokens with
  | nil =>
    rw [hrest] at hmem
    cases hmem
  | cons l ls =>
    rw [hrest] at hmem hsorted
    refine ⟨l, rfl, ?_⟩
    rcases List.mem_cons.mp hmem with rfl | hlater
    · exact Nat.le_refl _
    · exact List.rel_of_pairwise_cons (List.pairwise_append.mp hsorted).2.1 hlater

end

section

variable {tokens : List Located} {t : SymbolTable} {depth : Nat}

/-- The fault of a text is about the place up to which it was read. -/
theorem marks_of_parse {f : Fault} (h : (parse tokens t depth).1 = .error f) :
    ∃ s', ParseState.PassedTo ⟨tokens, t⟩ s' ∧
      f.Marks (tokens.getLast?.map Located.line) s' := by
  have hlocates := Parser.locates_programItems
    ⟨false, tokens.getLast?.map Located.line⟩ depth tokens ⟨tokens, t⟩ List.nil_prefix
  unfold parse at h
  dsimp only at h
  split at h
  · cases h
  case h_2 f' s' hrun =>
    cases h
    have hpassed := hlocates.passed
    rw [hrun] at hpassed
    exact ⟨s', hpassed, hlocates.marks _ _ hrun⟩

/-- A text that can be read has known tokens only. -/
theorem isKnown_of_parse {program : List Stmt}
    (h : (parse tokens t depth).1 = .ok program) :
    ∀ l ∈ tokens, l.token.isKnown := by
  obtain ⟨rest, hrun⟩ := programItems_of_parse (Prod.ext h rfl)
  have hend : rest = [] :=
    Parser.tokens_of_programItems (s := ⟨tokens, t⟩) (Nat.le_refl _) hrun
  have hpassed :=
    (Parser.locates_programItems ⟨false, tokens.getLast?.map Located.line⟩ depth tokens
      ⟨tokens, t⟩ List.nil_prefix).passed
  rw [hrun] at hpassed
  obtain ⟨taken, htokens, hknown⟩ := hpassed
  obtain rfl : tokens = taken := by
    rw [hend] at htokens
    exact htokens.trans (List.append_nil taken)
  exact hknown

/-- A fault of a text names the line of one of its tokens. -/
theorem exists_line_of_parse {f : Fault} (h : (parse tokens t depth).1 = .error f) :
    ∃ l ∈ tokens, f.line = some l.line := by
  obtain ⟨s', ⟨taken, htokens, -⟩, hmarks⟩ := marks_of_parse h
  dsimp only at htokens
  have hline := hmarks.line
  -- what failed is ahead, or the last token is where it is reported
  cases hrest : s'.tokens with
  | cons l ls =>
    rw [hrest] at htokens hline
    exact ⟨l, htokens ▸ List.mem_append_right taken List.mem_cons_self, hline⟩
  | nil =>
    rw [hrest] at hline
    cases hlast : tokens.getLast? with
    | none =>
      -- without tokens there is nothing to fail at
      rw [List.getLast?_eq_none_iff.mp hlast] at h
      cases h
    | some l =>
      rw [hlast] at hline
      exact ⟨l, List.mem_of_getLast? hlast, hline⟩

end

/-- A text with an unknown token cannot be read. Whatever a text fails with is
one of four kinds and names the line of one of its tokens, which is not behind
the line of the first unknown token. A fault for an unknown token is about the
first one: it has its text and its line. -/
theorem parse_faults_located (source : String) (t : SymbolTable) (depth : Nat) :
    (∀ line text, ⟨line, .unknown text⟩ ∈ lex source →
      ∃ f, (parse (lex source) t depth).1 = .error f) ∧
    ∀ f, (parse (lex source) t depth).1 = .error f →
      f.kind ∈ [.malformed, .illegalCharacter, .definitionOnly, .nestedTooDeeply] ∧
      (∃ l ∈ lex source, f.line = some l.line) ∧
      (∀ u, firstUnknown? (lex source) = some u → ∃ line ≤ u.line, f.line = some line) ∧
      (f.kind = .illegalCharacter →
        ∃ line, firstUnknown? (lex source) = some ⟨line, .unknown f.note⟩ ∧
          f.line = some line) := by
  constructor
  · intro line text hmem
    cases hparse : (parse (lex source) t depth).1 with
    | error f => exact ⟨f, rfl⟩
    | ok program => cases isKnown_of_parse hparse _ hmem
  · intro f hfails
    obtain ⟨s', hpassed, hmarks⟩ := marks_of_parse hfails
    have hunknown : firstUnknown? s'.tokens = firstUnknown? (lex source) :=
      hpassed.firstUnknown?
    have hline := hmarks.line
    refine ⟨?_, exists_line_of_parse hfails, fun u hu => ?_, fun hkind => ?_⟩
    · have hkinds : ∀ kind ∈ FaultKind.ofReading,
          kind ∈ [.malformed, .illegalCharacter, .definitionOnly, .nestedTooDeeply] := by
            decide
      exact hkinds _ hmarks.kind
    · obtain ⟨l, hl, hle⟩ := hpassed.line_le (sorted_lex source) hu
      rw [Option.mem_def.mp hl] at hline
      exact ⟨l.line, hle, hline⟩
    · obtain ⟨rest, hrest⟩ := hmarks.illegal hkind
      unfold ParseState.row at hrest
      -- the unknown token is the one ahead, and none was passed on the way
      -- there
      cases htokens : s'.tokens with
      | nil =>
        rw [htokens] at hrest
        cases hrest
      | cons l ls =>
        rw [htokens] at hrest hline
        obtain ⟨htoken, -⟩ := List.cons.inj hrest
        refine ⟨l.line, ?_, hline⟩
        rw [← hunknown, htokens, firstUnknown?, htoken]
        exact List.find?_cons_of_pos (by rw [← htoken]; rfl)

/-- The second line breaks off at an unknown token, and there is another one
behind it. -/
theorem parse_faults_located_behind_plus :
    firstUnknown? (lex "print 1\nx = 2 + ?\n@") = some ⟨2, .unknown "?"⟩ ∧
      ∃ f, (parse (lex "print 1\nx = 2 + ?\n@") .initial 200).1 = .error f ∧
        (∃ line ≤ 2, f.line = some line) ∧
        (f.kind = .illegalCharacter → f.note = "?" ∧ f.line = some 2) := by
  obtain ⟨hfails, hfault⟩ := parse_faults_located "print 1\nx = 2 + ?\n@" .initial 200
  have hfirst : firstUnknown? (lex "print 1\nx = 2 + ?\n@") = some ⟨2, .unknown "?"⟩ := by
    decide +kernel
  obtain ⟨f, hf⟩ := hfails 2 "?" (List.mem_of_find?_eq_some hfirst)
  obtain ⟨-, -, hline, hillegal⟩ := hfault f hf
  refine ⟨hfirst, f, hf, hline _ hfirst, fun hkind => ?_⟩
  obtain ⟨line, hunknown, hline'⟩ := hillegal hkind
  obtain ⟨rfl, hnote⟩ : 2 = line ∧ "?" = f.note := by
    simpa using hfirst.symm.trans hunknown
  exact ⟨hnote.symm, hline'⟩

end StackCalc
