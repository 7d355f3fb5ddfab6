import StackCalc.Proofs.Parser.Layered

/-!
# Climbing reads the layered grammar

Reading operators by climbing, with a least precedence for each place, and
descending through the layers of the grammar give the same result: the same
tree, the same tokens left and the same symbols, or the same fault
(`Parser.expression_eq_layered`). The two recursions have different shapes.
Climbing takes operators of several layers in one loop; the loop for the
precedence `p` is the one for `p + 1` followed by a row of operators of the
precedence `p` alone (`climbing_split`). That holds because what is read at the
precedence `p + 1` stops in front of an operator that binds less tightly
(`Stops`).

Both loops are instances of `rounds`: an operator ahead is chosen, its right
side is read, and the two become the left side of the next round.
-/

namespace StackCalc

namespace Parser

open Layered

/-! ### Rounds of operators -/

/-- The state behind the token ahead. -/
def behind (s : ParseState) : ParseState :=
  { s with tokens := s.tokens.tail }

/-- Which operator ahead is taken, and how its right side is read. -/
abbrev Choice := ParseState → Option (Operator × Parser Expr)

/-- The operators that follow the operand `lhs` as far as `choose` takes them. -/
def rounds (choose : Choice) : List Located → Expr → Parser Expr
  | [], lhs => return lhs
  | _ :: bound, lhs => fun s =>
    match choose s with
    | some (op, right) =>
      (right >>= fun rhs => rounds choose bound (.binary op lhs rhs)) (behind s)
    | none => .ok lhs s

/-- The operators that follow the operand `lhs`, with rounds enough for all
tokens ahead. -/
def roundsFrom (choose : Choice) (lhs : Expr) : Parser Expr := do
  rounds choose (← ahead) lhs

/-- A choice that takes tokens: the operator ahead, and a right side behind it. -/
structure Choice.Proper (n : Nat) (choose : Choice) : Prop where
  ahead : ∀ {s}, s.tokens = [] → choose s = none
  takes : ∀ {s op right}, choose s = some (op, right) → Takes n 1 right

section

variable {n : Nat} {choose : Choice} {lhs : Expr} {s : ParseState}

/-- Without an operator ahead there are no rounds. -/
theorem roundsFrom_of_none (h : choose s = none) :
    roundsFrom choose lhs s = .ok lhs s := by
  show rounds choose s.tokens lhs s = .ok lhs s
  cases s.tokens with
  | nil => rfl
  | cons t ts =>
    show (match choose s with
      | some (op, right) =>
        (right >>= fun rhs => rounds choose ts (.binary op lhs rhs)) (behind s)
      | none => .ok lhs s) = _
    rw [h]

/-- Bounds that the tokens ahead do not exceed are all the same to the loop. -/
theorem rounds_eq_of_le (hchoose : choose.Proper n) {bound bound' : List Located}
    (h : s.tokens.length ≤ bound.length) (h' : s.tokens.length ≤ bound'.length) :
    rounds choose bound lhs s = rounds choose bound' lhs s := by
  -- by the first bound; each round takes a token and leaves less than the other
  -- bound as well
  induction bound generalizing bound' lhs s with
  | nil =>
    have hnone := hchoose.ahead (List.length_eq_zero_iff.mp (Nat.le_zero.mp h))
    cases bound' with
    | nil => rfl
    | cons t' bound' => simp only [rounds, hnone]; rfl
  | cons t bound ih =>
    cases hop : choose s with
    | none =>
      cases bound' with
      | nil => simp only [rounds, hop]; rfl
      | cons t' bound' => simp only [rounds, hop]
    | some choice =>
      obtain ⟨op, right⟩ := choice
      cases bound' with
      | nil =>
        rw [hchoose.ahead (List.length_eq_zero_iff.mp (Nat.le_zero.mp h'))] at hop
        exact nomatch hop
      | cons t' bound' =>
        have htakes := hchoose.takes hop (behind s)
        have htail : (behind s).tokens.length = s.tokens.length - 1 := List.length_tail
        simp only [rounds, hop]
        cases hrun : right (behind s) with
        | error e s' => rw [Action.bind_of_error hrun, Action.bind_of_error hrun]
        | ok rhs s' =>
          rw [hrun] at htakes
          have hlen : s'.tokens.length + 1 ≤ (behind s).tokens.length := htakes
          rw [List.length_cons] at h h'
          rw [Action.bind_of_ok hrun, Action.bind_of_ok hrun]
          exact ih (by omega) (by omega)

/-- One round. -/
theorem roundsFrom_of_some (hchoose : choose.Proper n) {op : Operator}
    {right : Parser Expr} (h : choose s = some (op, right)) :
    roundsFrom choose lhs s =
      (right >>= fun rhs => roundsFrom choose (.binary op lhs rhs)) (behind s) := by
  show rounds choose s.tokens lhs s = _
  cases htokens : s.tokens with
  | nil =>
    rw [hchoose.ahead htokens] at h
    exact nomatch h
  | cons t ts =>
    have htakes := hchoose.takes h (behind s)
    have hts : (behind s).tokens = ts := congrArg List.tail htokens
    simp only [rounds, h]
    cases hrun : right (behind s) with
    | error e s' => rw [Action.bind_of_error hrun, Action.bind_of_error hrun]
    | ok rhs s' =>
      rw [hrun, hts] at htakes
      have hlen : s'.tokens.length + 1 ≤ ts.length := htakes
      rw [Action.bind_of_ok hrun, Action.bind_of_ok hrun]
      exact rounds_eq_of_le hchoose (by omega) (Nat.le_refl _)

end

/-! ### The operator ahead -/

/-- The operator of precedence `least` or more that is ahead, with its
precedence. -/
def operatorAhead (least : Nat) (s : ParseState) : Option (Operator × Nat) :=
  match s.tokens.head?.map Located.token with
  | some (.operator op) =>
    match op.precedence? with
    | some p => if least ≤ p then some (op, p) else none
    | none => none
  | _ => none

/-- What it takes for an operator to be ahead. -/
theorem operatorAhead_eq_some {least p : Nat} {op : Operator} {s : ParseState} :
    operatorAhead least s = some (op, p) ↔
      s.tokens.head?.map Located.token = some (.operator op) ∧ op.precedence? = some p ∧
        least ≤ p := by
  constructor
  · intro h
    unfold operatorAhead at h
    split at h
    · split at h
      · split at h
        · cases h
          exact ⟨‹_›, ‹_›, ‹_›⟩
        · exact nomatch h
      · exact nomatch h
    · exact nomatch h
  · rintro ⟨hhead, hprec, hle⟩
    rw [operatorAhead, hhead]
    dsimp only
    rw [hprec]
    exact if_pos hle

section

variable {least least' p : Nat} {s : ParseState} {op : Operator}

/-- An operator that is ahead is so for smaller precedences. -/
theorem operatorAhead_of_le (h : operatorAhead least s = some (op, p)) (hp : least' ≤ p) :
    operatorAhead least' s = some (op, p) := by
  obtain ⟨hhead, hprec, -⟩ := operatorAhead_eq_some.mp h
  exact operatorAhead_eq_some.mpr ⟨hhead, hprec, hp⟩

/-- Where none is ahead for a smaller precedence there is none for a greater one. -/
theorem operatorAhead_none_of_le (h : operatorAhead least s = none)
    (hle : least ≤ least') :
    operatorAhead least' s = none := by
  cases hs : operatorAhead least' s with
  | none => rfl
  | some found =>
    have hp : least' ≤ found.2 := (operatorAhead_eq_some.mp hs).2.2
    rw [operatorAhead_of_le hs (Nat.le_trans hle hp)] at h
    exact nomatch h

/-- An operator of the least precedence is not ahead for a greater one. -/
theorem operatorAhead_succ_none (h : operatorAhead p s = some (op, p)) :
    operatorAhead (p + 1) s = none := by
  cases hs : operatorAhead (p + 1) s with
  | none => rfl
  | some found =>
    have hp : p + 1 ≤ found.2 := (operatorAhead_eq_some.mp hs).2.2
    have hsame := (operatorAhead_of_le hs (Nat.le_of_succ_le hp)).symm.trans h
    have heq : found.2 = p := congrArg Prod.snd (Option.some.inj hsame)
    omega

end

/-! ### Climbing and rows as rounds -/

/-- Climbing takes every operator of precedence `least` and more. -/
def climbing (binary : Nat → Parser Expr) (least : Nat) : Choice := fun s =>
  (operatorAhead least s).map fun (op, p) => (op, binary (op.rightPrecedence p))

/-- Climbing is a matter of rounds. -/
theorem climb_eq_rounds (binary : Nat → Parser Expr) (least : Nat) (bound : List Located)
    (lhs : Expr) : climb binary least bound lhs =
      rounds (climbing binary least) bound lhs := by
  induction bound generalizing lhs with
  | nil => rfl
  | cons t bound ih =>
    funext s
    simp only [climb, rounds, climbing, ih]
    rcases s with ⟨_ | ⟨⟨line, tok⟩, ts⟩, symbols⟩
    · rfl
    · cases tok
      case operator op =>
        simp only [operatorAhead, List.head?_cons, Option.map_some]
        show (match op.precedence? with
          | some p => if least ≤ p then _ else pure lhs
          | none => pure lhs : Parser Expr) _ = _
        cases op.precedence? with
        | none => rfl
        | some p =>
          by_cases hle : least ≤ p
          · simp only [if_pos hle]
            rfl
          · simp only [if_neg hle]
            rfl
      all_goals rfl

theorem climbing_proper {n : Nat} {binary : Nat → Parser Expr}
    (h : ∀ p, Takes n 1 (binary p)) (least : Nat) : (climbing binary least).Proper n where
  ahead hs := by rw [climbing, operatorAhead, hs]; rfl
  takes hc := by
    obtain ⟨found, -, hright⟩ := Option.map_eq_some_iff.mp hc
    cases hright
    exact h _

/-- The operators of a layer are those of one precedence. -/
def IsLayer (ops : List Operator) (p : Nat) : Prop :=
  ∀ op, op ∈ ops ↔ op.precedence? = some p

/-- A row of a layer takes the operators of its precedence. -/
def ranging (next : Parser Expr) (p : Nat) : Choice := fun s =>
  match operatorAhead p s with
  | some (op, q) => if q = p then some (op, next) else none
  | none => none

/-- A row of one layer takes its operators round by round. -/
theorem chainRest_eq_rounds {ops : List Operator} {p : Nat} (hops : IsLayer ops p)
    (next : Parser Expr) (bound : List Located) (lhs : Expr) :
    chainRest ops next bound lhs = rounds (ranging next p) bound lhs := by
  induction bound generalizing lhs with
  | nil => rfl
  | cons t bound ih =>
    funext s
    simp only [chainRest, rounds, ranging, ih]
    rcases s with ⟨_ | ⟨⟨line, tok⟩, ts⟩, symbols⟩
    · rfl
    · cases tok
      case operator op =>
        show (if op ∈ ops then _ else pure lhs : Parser Expr) _ = _
        by_cases hmem : op ∈ ops
        · have hahead : operatorAhead p ⟨⟨line, .operator op⟩ :: ts, symbols⟩ =
              some (op, p) :=
            operatorAhead_eq_some.mpr ⟨rfl, (hops op).mp hmem, Nat.le_refl p⟩
          rw [if_pos hmem, hahead]
          simp only [if_pos]
          rfl
        · rw [if_neg hmem]
          cases hahead : operatorAhead p ⟨⟨line, .operator op⟩ :: ts, symbols⟩ with
          | none => rfl
          | some found =>
            obtain ⟨op', q⟩ := found
            obtain ⟨hhead, hprec, -⟩ := operatorAhead_eq_some.mp hahead
            cases hhead
            have hq : q ≠ p := fun hq => hmem ((hops op).mpr (hq ▸ hprec))
            simp only [if_neg hq]
            rfl
      all_goals rfl

/-- A row takes the operator and what is read behind it. -/
theorem ranging_proper {n : Nat} {next : Parser Expr} (h : Takes n 1 next) (p : Nat) :
    (ranging next p).Proper n where
  ahead hs := by rw [ranging, operatorAhead, hs]; rfl
  takes hc := by
    unfold ranging at hc
    split at hc
    · split at hc
      · cases hc
        exact h
      · exact nomatch hc
    · exact nomatch hc

/-! ### Where reading stops -/

/-- What a parser reads is not followed by an operator of precedence `least` or
more. -/
def Stops (least : Nat) (p : Parser Expr) : Prop :=
  ∀ {s e s'}, p s = .ok e s' → operatorAhead least s' = none

section

variable {n least : Nat} {binary : Nat → Parser Expr}
  (hbinary : ∀ p, Takes n 1 (binary p))

include hbinary

/-- A round leaves fewer tokens, so proofs about rounds go by induction on the
tokens ahead. -/
theorem length_lt_of_round {s s' : ParseState} {q : Nat} {rhs : Expr}
    (hrun : binary q (behind s) = .ok rhs s') : s'.tokens.length < s.tokens.length := by
  have htakes := hbinary q (behind s)
  rw [hrun] at htakes
  have hlen : s'.tokens.length + 1 ≤ s.tokens.tail.length := htakes
  rw [List.length_tail] at hlen
  omega

/-- Climbing stops only where no operator of its precedence is ahead. -/
theorem stops_climbing (lhs : Expr) :
    Stops least (roundsFrom (climbing binary least) lhs) := by
  intro s
  induction hlen : s.tokens.length using Nat.strongRecOn generalizing s lhs with
  | ind len ih =>
    intro e s' hrun
    cases hop : operatorAhead least s with
    | none =>
      rw [roundsFrom_of_none (by rw [climbing, hop]; rfl)] at hrun
      cases hrun
      exact hop
    | some found =>
      obtain ⟨op, p⟩ := found
      have hchoice : climbing binary least s =
          some (op, binary (op.rightPrecedence p)) := by
        rw [climbing, hop]
        rfl
      rw [roundsFrom_of_some (climbing_proper hbinary least) hchoice] at hrun
      rcases Action.bind_cases (binary (op.rightPrecedence p)) _ (behind s) with
        ⟨f, s₁, -, herror⟩ | ⟨rhs, s₁, hright, hrest⟩
      · exact nomatch herror.symm.trans hrun
      · have hlt := length_lt_of_round hbinary hright
        exact ih _ (hlen ▸ hlt) _ rfl (hrest.symm.trans hrun)

end

/-- Reading an expression, with the operators taken round by round. -/
theorem binary_succ (sc : Scope) (depth least : Nat) :
    binary sc (depth + 1) least =
      operand sc (binary sc depth) >>= fun lhs =>
        roundsFrom (climbing (binary sc depth) least) lhs := by
  simp only [binary, roundsFrom, climb_eq_rounds]

/-- So what is read at a precedence stops there, too. -/
theorem stops_binary (sc : Scope) (depth least : Nat) :
    Stops least (binary sc depth least) := by
  cases depth with
  | zero => exact nofun
  | succ depth =>
    intro s e s' hrun
    rw [binary_succ] at hrun
    rcases Action.bind_cases (operand sc (binary sc depth)) _ s with
      ⟨f, s₁, -, herror⟩ | ⟨lhs, s₁, -, hrest⟩
    · exact nomatch herror.symm.trans hrun
    · exact stops_climbing (takes_binary sc depth) lhs (hrest.symm.trans hrun)

/-! ### One layer -/

/-- Every operator but the power groups to the left. -/
theorem rightPrecedence_of_lt {op : Operator} {p : Nat} (h : op.precedence? = some p)
    (hp : p < 7) :
    op.rightPrecedence p = p + 1 := by
  have hne : op ≠ .caret := by
    rintro rfl
    cases h
    exact absurd hp (by decide)
  exact if_neg hne

section

variable {n p : Nat} {binary : Nat → Parser Expr}

/-- Taking the operators of precedence `p` and more is taking those of more, and
then a row of those of precedence `p`. -/
theorem climbing_split (hbinary : ∀ q, Takes n 1 (binary q)) (hp : p < 7)
    (hstops : Stops (p + 1) (binary (p + 1))) (lhs : Expr) (s : ParseState) :
    roundsFrom (climbing binary p) lhs s =
      (roundsFrom (climbing binary (p + 1)) lhs >>= fun e =>
        roundsFrom (ranging (binary (p + 1)) p) e) s := by
  have hproper := climbing_proper hbinary
  have hranging := ranging_proper (hbinary (p + 1)) p
  -- by the tokens ahead; the operator at the front belongs to the row, or to
  -- what the row is made of
  induction hlen : s.tokens.length using Nat.strongRecOn generalizing s lhs with
  | ind len ih =>
    cases hop : operatorAhead p s with
    | none =>
      have hnone : operatorAhead (p + 1) s = none :=
        operatorAhead_none_of_le hop (Nat.le_succ p)
      have hinner : roundsFrom (climbing binary (p + 1)) lhs s = .ok lhs s :=
        roundsFrom_of_none (by rw [climbing, hnone]; rfl)
      rw [Action.bind_of_ok hinner, roundsFrom_of_none (by rw [climbing, hop]; rfl),
        roundsFrom_of_none (by rw [ranging, hop])]
    | some found =>
      obtain ⟨op, q⟩ := found
      obtain ⟨hhead, hprec, hle⟩ := operatorAhead_eq_some.mp hop
      have houter : climbing binary p s = some (op, binary (op.rightPrecedence q)) := by
        rw [climbing, hop]
        rfl
      rw [roundsFrom_of_some (hproper p) houter]
      by_cases hq : q = p
      · -- the operator belongs to the row: nothing is taken on the inside
        subst hq
        have hnone : operatorAhead (q + 1) s = none := operatorAhead_succ_none hop
        have hinner : roundsFrom (climbing binary (q + 1)) lhs s = .ok lhs s :=
          roundsFrom_of_none (by rw [climbing, hnone]; rfl)
        have hrow : ranging (binary (q + 1)) q s = some (op, binary (q + 1)) := by
          rw [ranging, hop]
          exact if_pos rfl
        rw [Action.bind_of_ok hinner, roundsFrom_of_some hranging hrow,
          rightPrecedence_of_lt hprec hp]
        cases hright : binary (q + 1) (behind s) with
        | error f s' => rw [Action.bind_of_error hright, Action.bind_of_error hright]
        | ok rhs s' =>
          have hlt := length_lt_of_round hbinary hright
          have hstop : roundsFrom (climbing binary (q + 1)) (.binary op lhs rhs) s' =
              .ok (.binary op lhs rhs) s' :=
            roundsFrom_of_none (by rw [climbing, hstops hright]; rfl)
          rw [Action.bind_of_ok hright, Action.bind_of_ok hright,
            ih _ (hlen ▸ hlt) _ s' rfl, Action.bind_of_ok hstop]
      · -- the operator binds more tightly: it is taken on the inside
        have hinner : climbing binary (p + 1) s =
            some (op, binary (op.rightPrecedence q)) := by
          have hop' : operatorAhead (p + 1) s = some (op, q) :=
            operatorAhead_of_le hop (by omega)
          rw [climbing, hop']
          rfl
        rw [Action.bind_apply (roundsFrom (climbing binary (p + 1)) lhs),
          roundsFrom_of_some (hproper (p + 1)) hinner]
        cases hright : binary (op.rightPrecedence q) (behind s) with
        | error f s' => rw [Action.bind_of_error hright, Action.bind_of_error hright]
        | ok rhs s' =>
          have hlt := length_lt_of_round hbinary hright
          rw [Action.bind_of_ok hright, Action.bind_of_ok hright,
            ih _ (hlen ▸ hlt) _ s' rfl]
          rfl

end

section

variable {sc : Scope} {depth p : Nat} {ops : List Operator} {next : Parser Expr}

/-- What is read at a precedence is what is read at the next, and a row of
operators. -/
theorem binary_split (hops : IsLayer ops p) (hp : p < 7) :
    binary sc (depth + 1) p =
      binary sc (depth + 1) (p + 1) >>= fun lhs =>
        ahead >>= fun bound => chainRest ops (binary sc depth (p + 1)) bound lhs := by
  simp only [chainRest_eq_rounds hops]
  rw [binary_succ, binary_succ, bind_assoc]
  refine congrArg _ (funext fun lhs => funext fun s => ?_)
  exact climbing_split (takes_binary sc depth) hp (stops_binary sc depth (p + 1)) lhs s

/-- What climbing reads at a precedence is a row of what it reads at the next. -/
theorem refines_layer (hops : IsLayer ops p) (hp : p < 7)
    (h : ∀ k ≤ depth, Refines (binary sc k (p + 1)) next) :
    ∀ k ≤ depth, Refines (binary sc k p) (chain ops next) := by
  intro k hk
  cases k with
  | zero => exact .tooDeep sc _
  | succ k =>
    rw [binary_split hops hp]
    exact (h (k + 1) hk).bind fun lhs => .after _ fun bound =>
      refines_chainRest (h k (Nat.le_of_succ_le hk)) ops bound lhs

theorem refines_disjunction_of_unary (h : ∀ k ≤ depth, Refines (binary sc k 7) next) :
    ∀ k ≤ depth, Refines (binary sc k 1) (disjunction next) :=
  refines_layer (fun op => by cases op <;> decide) (by decide) <|
    refines_layer (fun op => by cases op <;> decide) (by decide) <|
    refines_layer (fun op => by cases op <;> decide) (by decide) <|
    refines_layer (fun op => by cases op <;> decide) (by decide) <|
    refines_layer (fun op => by cases op <;> decide) (by decide) <|
    refines_layer (fun op => by cases op <;> decide) (by decide) h

end

/-! ### Unary operators and powers -/

/-- The power is the only operator that binds more tightly than the unary ones. -/
theorem operatorAhead_seven (s : ParseState) : operatorAhead 7 s = operatorAhead 8 s := by
  cases hs : operatorAhead 7 s with
  | none => exact (operatorAhead_none_of_le hs (by decide)).symm
  | some found =>
    obtain ⟨hhead, hprec, hle⟩ := operatorAhead_eq_some.mp hs
    have hp : found.2 ≠ 7 := by
      intro heq
      rw [heq] at hprec
      revert hprec
      cases found.1 <;> decide
    exact (operatorAhead_of_le hs (by omega)).symm

/-- Behind an operand, only a power is taken before the unary operators. -/
theorem operatorAhead_seven_cases (s : ParseState) :
    operatorAhead 7 s = none ∨
      operatorAhead 7 s = some (.caret, 8) := by
  cases hs : operatorAhead 7 s with
  | none => exact .inl rfl
  | some found =>
    obtain ⟨op, p⟩ := found
    obtain ⟨-, hprec, hle⟩ := operatorAhead_eq_some.mp hs
    revert hprec
    cases op <;> rintro ⟨⟩ <;> first | exact .inr rfl | exact absurd hle (by decide)

/-- There is no operator of precedence seven, so it makes no difference whether
one asks for seven or for eight. -/
theorem binary_eight (sc : Scope) (depth : Nat) :
    binary sc depth 8 = binary sc depth 7 := by
  cases depth with
  | zero => rfl
  | succ depth =>
    have hsame : climbing (binary sc depth) 8 = climbing (binary sc depth) 7 := by
      funext s
      rw [climbing, climbing, operatorAhead_seven]
    rw [binary_succ, binary_succ, hsame]

/-- What climbing takes after an operand at the precedence of the unary
operators is a power. -/
theorem climbing_unary (sc : Scope) (depth : Nat) (base : Expr) :
    roundsFrom (climbing (binary sc depth) 7) base =
      Layered.power (binary sc depth 7) (pure base) := by
  funext s
  -- without a power nothing is taken; with one, its right side is read and
  -- nothing follows it
  rcases operatorAhead_seven_cases s with hnone | hcaret
  · have hchoice : climbing (binary sc depth) 7 s = none := by
      rw [climbing, hnone]
      rfl
    rw [roundsFrom_of_none hchoice]
    rcases s with ⟨_ | ⟨⟨line, tok⟩, ts⟩, symbols⟩
    · rfl
    · cases tok
      case operator op =>
        cases op
        case caret => exact nomatch hnone
        all_goals rfl
      all_goals rfl
  · have hchoice : climbing (binary sc depth) 7 s = some (.caret, binary sc depth 8) := by
      rw [climbing, hcaret]
      rfl
    rw [roundsFrom_of_some (climbing_proper (takes_binary sc depth) 7) hchoice,
      binary_eight]
    have hpower : Layered.power (binary sc depth 7) (pure base) s =
        (binary sc depth 7 >>= fun e => pure (.binary .caret base e)) (behind s) := by
      obtain ⟨hhead, -⟩ := operatorAhead_eq_some.mp hcaret
      rcases s with ⟨_ | ⟨⟨line, tok⟩, ts⟩, symbols⟩
      · exact nomatch hhead
      · cases hhead
        rfl
    rw [hpower]
    cases hright : binary sc depth 7 (behind s) with
    | error f s' => rw [Action.bind_of_error hright, Action.bind_of_error hright]
    | ok e s' =>
      have hstop : climbing (binary sc depth) 7 s' = none := by
        rw [climbing, stops_binary sc depth 7 hright]
        rfl
      rw [Action.bind_of_ok hright, Action.bind_of_ok hright, roundsFrom_of_none hstop]
      rfl

/-- A sign and what follows it, or a power, are read alike in both ways. -/
theorem binary_unary (sc : Scope) (depth : Nat) :
    binary sc (depth + 1) 7 = prefixed (binary sc depth 7) sc (binary sc depth 1) := by
  rw [binary_succ]
  funext s
  -- behind a sign, what has been read stops in front of every operator that
  -- climbing would take
  have hsigned : ∀ op, ((do return .unary op (← binary sc depth 7)) >>= fun lhs =>
      roundsFrom (climbing (binary sc depth) 7) lhs) (behind s) =
        (do return .unary op (← binary sc depth 7) : Parser Expr) (behind s) := by
    intro op
    cases hright : binary sc depth 7 (behind s) with
    | error f s' => simp only [bind_assoc, Action.bind_of_error hright]
    | ok e s' =>
      have hstop : climbing (binary sc depth) 7 s' = none := by
        rw [climbing, stops_binary sc depth 7 hright]
        rfl
      simp only [bind_assoc, pure_bind, Action.bind_of_ok hright,
        roundsFrom_of_none hstop]
      rfl
  have hpower : (primary sc (binary sc depth 1) >>= fun lhs =>
      roundsFrom (climbing (binary sc depth) 7) lhs) s =
        Layered.power (binary sc depth 7) (primary sc (binary sc depth 1)) s := by
    simp only [climbing_unary]
    rfl
  rcases s with ⟨_ | ⟨⟨line, tok⟩, ts⟩, symbols⟩
  · exact hpower
  · cases tok
    case operator op =>
      cases op
      case minus => exact hsigned .minus
      case not => exact hsigned .not
      all_goals exact hpower
    all_goals exact hpower

/-! ### All layers -/

/-- What climbing reads at the precedence of unary operators is what the grammar
says, if its levels are enough. -/
theorem refines_unary (sc : Scope) (depth : Nat) :
    ∀ k ≤ depth, Refines (binary sc k 7) (unary sc depth) := by
  induction depth with
  | zero =>
    intro k hk
    cases Nat.le_zero.mp hk
    exact .tooDeep sc _
  | succ depth ih =>
    intro k hk
    cases k with
    | zero => exact .tooDeep sc _
    | succ k =>
      have hk : k ≤ depth := Nat.le_of_succ_le_succ hk
      rw [binary_unary]
      exact refines_prefixed (ih k hk) sc (refines_disjunction_of_unary ih k hk)

/-- The same tokens with the same symbols, read by climbing and by the layers of
the grammar, give the same tree, the same tokens left and the same symbols, or
the same fault, unless climbing fails for depth. It does not where the levels
are more than the tokens. -/
theorem expression_eq_layered (sc : Scope) (depth : Nat) (s : ParseState) :
    (¬ TooDeep (expression sc depth s) →
      expression sc depth s = Layered.expression sc s) ∧
      (s.tokens.length < depth → ¬ TooDeep (expression sc depth s)) := by
  constructor
  · intro hshallow
    -- both ways are compared at a common number of levels, which is enough for
    -- either
    let levels := s.tokens.length + 1
    let most := max depth levels
    have hclimb : Refines (expression sc depth) (disjunction (unary sc most)) :=
      (refines_disjunction_of_unary (refines_unary sc depth) depth (Nat.le_refl _)).trans
        (refines_disjunction (unary_mono sc (Nat.le_max_left _ _)))
    have hlayers : Refines (disjunction (unary sc levels))
        (disjunction (unary sc most)) :=
      refines_disjunction (unary_mono sc (Nat.le_max_right _ _))
    have hfits : ¬ TooDeep (disjunction (unary sc levels) s) :=
      (takes_disjunction (takes_unary sc levels) s).not_tooDeep (Nat.lt_succ_self _)
    calc expression sc depth s
      _ = disjunction (unary sc most) s := hclimb.eq_of_not_tooDeep hshallow
      _ = disjunction (unary sc levels) s := (hlayers.eq_of_not_tooDeep hfits).symm
  · intro hlen
    exact (takes_binary sc depth 1 s).not_tooDeep hlen

/-- Operators of every layer, read with fewer levels than there are tokens. -/
theorem expression_eq_layered_mixed :
    let s : ParseState :=
      ⟨lex "-x ^ -y ^ 2 - 3 * (1 - z < 4 || !x == 5 && y) / 6 - 7", .initial⟩
    s.tokens.length = 28 ∧ ¬ TooDeep (expression ⟨false, none⟩ 7 s) ∧
      expression ⟨false, none⟩ 7 s = Layered.expression ⟨false, none⟩ s := by
  intro s
  have hreads : Action.succeeds (expression ⟨false, none⟩ 7 s) := by decide +kernel
  obtain ⟨e, s', hrun⟩ := Action.exists_of_succeeds hreads
  have hshallow : ¬ TooDeep (expression ⟨false, none⟩ 7 s) := by
    rw [hrun]
    exact id
  exact ⟨by
    decide +kernel, hshallow, (expression_eq_layered ⟨false, none⟩ 7 s).1 hshallow⟩

end Parser

end StackCalc
