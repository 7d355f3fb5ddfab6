import StackCalc.Proofs.Parser.Tokens

/-!
# Expressions by layers

The grammar of expressions, one parser for each layer: a disjunction is a row of
conjunctions between `||`, a conjunction a row of equalities between `&&`, and
so on down to operands with a unary operator or a power. Nothing here speaks of
precedence.

- `Layered.expression`: recursive descent through the layers.
- `Layered.takes_unary`: the levels it is given, one more than there are tokens,
  always suffice.
- `Parser.Refines p q`: wherever `p` does not fail for depth, it does what `q`
  does.
-/

namespace StackCalc

namespace Parser

/-! ### The grammar -/

namespace Layered

/-- The operators among `ops` that follow the operand `lhs`, each with an
operand of its own; they group to the left. -/
def chainRest (ops : List Operator) (next : Parser Expr) :
    List Located → Expr → Parser Expr
  | [], lhs => return lhs
  | _ :: bound, lhs => do
    match ← peek with
    | some (.operator op) =>
      if op ∈ ops then
        skip
        let rhs ← next
        chainRest ops next bound (.binary op lhs rhs)
      else return lhs
    | _ => return lhs

/-- A layer: `next { op next }` with the operators `ops`. -/
def chain (ops : List Operator) (next : Parser Expr) : Parser Expr := do
  let lhs ← next
  chainRest ops next (← ahead) lhs

section

variable (unary : Parser Expr)

def product : Parser Expr :=
  chain [.times, .divide, .modulo] unary

def sum : Parser Expr :=
  chain [.plus, .minus] (product unary)

def comparison : Parser Expr :=
  chain [.less, .lessEqual, .greater, .greaterEqual] (sum unary)

def equality : Parser Expr :=
  chain [.equal, .notEqual] (comparison unary)

def conjunction : Parser Expr :=
  chain [.and] (equality unary)

def disjunction : Parser Expr :=
  chain [.or] (conjunction unary)

/-- An operand, or an operand to the power of a unary expression. -/
def power (primary : Parser Expr) : Parser Expr := do
  let base ← primary
  match ← peek with
  | some (.operator .caret) =>
    skip
    return .binary .caret base (← unary)
  | _ => return base

/-- A unary operator in front of a unary expression, or a power. -/
def prefixed (sc : Scope) (expression : Parser Expr) : Parser Expr := do
  match ← peek with
  | some (.operator .minus) =>
    skip
    return .unary .minus (← unary)
  | some (.operator .not) =>
    skip
    return .unary .not (← unary)
  | _ => power unary (primary sc expression)

end

/-- A unary expression of at most `levels` levels. -/
def unary (sc : Scope) : (levels : Nat) → Parser Expr
  | 0 => tooDeep sc
  | levels + 1 => prefixed (unary sc levels) sc (disjunction (unary sc levels))

/-- An expression, of as many levels as there may be. -/
def expression (sc : Scope) : Parser Expr := do
  disjunction (unary sc ((← ahead).length + 1))

end Layered

/-! ### Refinement -/

section

variable {α β : Type}

/-- Wherever `p` does not fail for depth, it does what `q` does. -/
def Refines (p q : Parser α) : Prop :=
  ∀ s, TooDeep (p s) ∨ p s = q s

namespace Refines

theorem refl (p : Parser α) : Refines p p :=
  fun _ => .inr rfl

/-- Where `p` is not too deep it does what `q` does, and there `q` is not too
deep either. -/
theorem trans {p q r : Parser α} (hpq : Refines p q) (hqr : Refines q r) :
    Refines p r := by
  intro s
  rcases hpq s with hdeep | hsame
  · exact .inl hdeep
  · rw [hsame]
    exact hqr s

theorem tooDeep (sc : Scope) (q : Parser α) : Refines (tooDeep sc) q :=
  fun _ => .inl rfl

/-- A sequence fails for depth in its first part, or does the same up to its
second. -/
theorem bind {p p' : Parser α} {f f' : α → Parser β} (hp : Refines p p')
    (hf : ∀ a, Refines (f a) (f' a)) : Refines (p >>= f) (p' >>= f') := by
  intro s
  cases hrun : p s with
  | error e s' =>
    rcases hp s with hdeep | hsame
    · rw [hrun] at hdeep
      rw [Action.bind_of_error hrun]
      exact .inl hdeep
    · rw [Action.bind_of_error hrun, Action.bind_of_error (hsame ▸ hrun)]
      exact .inr rfl
  | ok a s' =>
    rcases hp s with hdeep | hsame
    · rw [hrun] at hdeep
      exact hdeep.elim
    · rw [Action.bind_of_ok hrun, Action.bind_of_ok (hsame ▸ hrun)]
      exact hf a s'

/-- What follows a parser that is the same on both sides. -/
theorem after (p : Parser α) {f f' : α → Parser β} (hf : ∀ a, Refines (f a) (f' a)) :
    Refines (p >>= f) (p >>= f') :=
  (refl p).bind hf

/-- A parser whose result is a function of that of another one. -/
theorem map {p p' : Parser α} (hp : Refines p p') (f : α → β) :
    Refines (p >>= fun a => pure (f a)) (p' >>= fun a => pure (f a)) :=
  hp.bind fun _ => refl _

/-- Where it does not fail for depth there is nothing to choose. -/
theorem eq_of_not_tooDeep {p q : Parser α} (h : Refines p q) {s : ParseState}
    (hs : ¬ TooDeep (p s)) : p s = q s :=
  (h s).resolve_left hs

end Refines

end

/-! ### Operands of expressions that refine -/

section

variable {sc : Scope} {expression expression' : Parser Expr}
  (hexpr : Refines expression expression')

include hexpr

/-- The arguments of a call, as far as they are read alike. -/
theorem refines_moreArguments (bound : List Located) :
    Refines (moreArguments sc expression bound) (moreArguments sc expression' bound) := by
  induction bound with
  | nil => exact .refl _
  | cons _ bound ih =>
    refine .after _ fun t => ?_
    split
    · exact .refl _
    · exact .after _ fun _ => hexpr.bind fun e => ih.map _
    · exact .refl _

theorem refines_arguments :
    Refines (arguments sc expression) (arguments sc expression') := by
  refine .after _ fun _ => .after _ fun t => ?_
  split
  · exact .refl _
  · exact hexpr.bind fun e => .after _ fun bound =>
      (refines_moreArguments hexpr bound).map _

/-- What a name starts, which may be a call. -/
theorem refines_named (name : String) :
    Refines (named sc expression name) (named sc expression' name) := by
  refine .after _ fun t => ?_
  dsimp only
  split
  · exact .after _ fun _ => hexpr.bind fun e => .refl _
  · exact (refines_arguments hexpr).map _
  · exact .refl _
  · exact .refl _

/-- An operand without operators, in which an expression may stand among
parentheses. -/
theorem refines_primary : Refines (primary sc expression) (primary sc expression') := by
  refine .after _ fun t => ?_
  split
  case h_2 => exact .after _ fun _ => hexpr.bind fun e => .refl _
  case h_3 => exact .after _ fun _ => refines_named hexpr _
  all_goals exact .refl _

end

namespace Layered

section

variable {next next' : Parser Expr} (hnext : Refines next next')

include hnext

/-- The operators of one layer, each with an operand that is read alike. -/
theorem refines_chainRest (ops : List Operator) (bound : List Located) (lhs : Expr) :
    Refines (chainRest ops next bound lhs) (chainRest ops next' bound lhs) := by
  induction bound generalizing lhs with
  | nil => exact .refl _
  | cons _ bound ih =>
    refine .after _ fun t => ?_
    split
    · split
      · exact .after _ fun _ => hnext.bind fun rhs => ih _
      · exact .refl _
    · exact .refl _

theorem refines_chain (ops : List Operator) :
    Refines (chain ops next) (chain ops next') :=
  hnext.bind fun lhs => .after _ fun bound => refines_chainRest hnext ops bound lhs

end

section

variable {u u' : Parser Expr} (hu : Refines u u')

include hu

theorem refines_disjunction : Refines (disjunction u) (disjunction u') :=
  refines_chain (refines_chain (refines_chain (refines_chain (refines_chain
    (refines_chain hu _) _) _) _) _) _

/-- A sign, or a power, with operands that are read alike. -/
theorem refines_prefixed (sc : Scope) {e e' : Parser Expr} (he : Refines e e') :
    Refines (prefixed u sc e) (prefixed u' sc e') := by
  refine .after _ fun t => ?_
  split
  · exact .after _ fun _ => hu.map _
  · exact .after _ fun _ => hu.map _
  · refine (refines_primary he).bind fun base => .after _ fun t => ?_
    split
    · exact .after _ fun _ => hu.map _
    · exact .refl _

end

/-- More levels change no result but that of a text too deep for fewer. -/
theorem unary_mono (sc : Scope) {n n' : Nat} (h : n ≤ n') :
    Refines (unary sc n) (unary sc n') := by
  induction n generalizing n' with
  | zero => exact .tooDeep sc _
  | succ n ih =>
    obtain ⟨n', rfl⟩ : ∃ k, n' = k + 1 := ⟨n' - 1, by omega⟩
    have hn : n ≤ n' := by omega
    exact refines_prefixed (ih hn) sc (refines_disjunction (ih hn))

/-! ### The levels suffice -/

section

variable {n : Nat} {next : Parser Expr} (hnext : Takes n 1 next)

include hnext

/-- Every operator takes a token, and what follows it another. -/
theorem takes_chainRest (ops : List Operator) (bound : List Located) (lhs : Expr) :
    Takes n 0 (chainRest ops next bound lhs) := by
  induction bound generalizing lhs with
  | nil => exact takes_pure lhs
  | cons _ bound ih =>
    refine takes_peek (takes_pure lhs) fun t => ?_
    cases t
    case operator op =>
      dsimp only
      split
      · exact (takesAhead_skip_same (hnext.before fun rhs => ih _)).loose
      · exact (takes_pure lhs).ahead
    all_goals exact (takes_pure lhs).ahead

theorem takes_chain (ops : List Operator) : Takes n 1 (chain ops next) :=
  hnext.before fun lhs => takes_ahead.andThen fun bound =>
    takes_chainRest hnext ops bound lhs

theorem takes_disjunction : Takes n 1 (disjunction next) :=
  takes_chain (takes_chain (takes_chain (takes_chain (takes_chain
    (takes_chain hnext _) _) _) _) _) _

end

/-- A unary expression takes a token, and no text with fewer tokens than levels
is too deep for it. -/
theorem takes_unary (sc : Scope) (n : Nat) : Takes n 1 (unary sc n) := by
  induction n with
  | zero => exact fun _ => ⟨Nat.le_refl _, fun _ => Nat.zero_le _⟩
  | succ n ih =>
    have hprimary : Takes (n + 1) 1 (primary sc (disjunction (unary sc n))) :=
      takes_primary (takes_disjunction ih)
    have hpower : Takes (n + 1) 1
        (power (unary sc n) (primary sc (disjunction (unary sc n)))) := by
      -- behind an operand there is a power or nothing
      refine hprimary.before fun base => takes_peek (takes_pure base) fun t => ?_
      split
      · exact (takesAhead_skip (ih.map fun e => Expr.binary .caret base e)).loose
      · exact (takes_pure base).ahead
    refine takes_peek hpower fun t => ?_
    split
    · exact takesAhead_skip (ih.map fun e => Expr.unary .minus e)
    · exact takesAhead_skip (ih.map fun e => Expr.unary .not e)
    · exact hpower.ahead

end Layered

end Parser

end StackCalc
