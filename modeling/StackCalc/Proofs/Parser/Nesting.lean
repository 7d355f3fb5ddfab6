import StackCalc.Proofs.Parser.Reading

/-!
# How deep trees get

The limit on nesting bounds the recursion of the parsers. The operators of one
level are read in a loop, though, each with what was read so far as its left
operand, and these operands nest without one parser nesting in another.
`Expr.height left` and `Stmt.height left` count `left` for the step from an
operation to its left operand and one for every other step to a part, so
`height 1` is the height of the tree and `height 0` leaves those operands out.

What is read within `depth` levels has a height of at most `depth + 2` in the
second sense (`Parser.height_programItems`). There is no bound in the first
sense: a row of additions is read within three levels, however long it is
(`Parser.programItems_sumRow`).
-/

namespace StackCalc

/-! ### Heights -/

section

variable (left : Nat)

mutual

/-- The height of an expression; a left operand is `left` below its operation,
and every other part one. -/
def Expr.height : Expr → Nat
  | .literal _ => 1
  | .variable _ => 1
  | .text _ => 1
  | .binary _ lhs rhs => max (lhs.height + left) (rhs.height + 1)
  | .unary _ e => e.height + 1
  | .builtin _ e => e.height + 1
  | .step _ _ => 1
  | .call _ es => Expr.heights es + 1
  | .arg _ => 1
  | .read _ => 1

/-- The height of the highest of several expressions. -/
def Expr.heights : List Expr → Nat
  | [] => 0
  | e :: es => max e.height (Expr.heights es)

end

mutual

/-- The height of a statement. -/
def Stmt.height : Stmt → Nat
  | .assign _ _ e => e.height left + 1
  | .argAssign _ e => e.height left + 1
  | .print items => Expr.heights left items + 1
  | .whileLoop cond body => max (cond.height left) (Stmt.heights body) + 1
  | .forLoop init cond post body =>
    max (max init.height (cond.height left)) (max post.height (Stmt.heights body)) + 1
  | .ifThen cond body => max (cond.height left) (Stmt.heights body) + 1
  | .ifElse cond body other =>
    max (cond.height left) (max (Stmt.heights body) (Stmt.heights other)) + 1
  | .expr e => e.height left + 1
  | .call _ es => Expr.heights left es + 1
  | .returnValue e => e.height left + 1
  | .returnNothing => 1
  | .define _ _ body => Stmt.heights body + 1

/-- The height of the highest of several statements. -/
def Stmt.heights : List Stmt → Nat
  | [] => 0
  | s :: ss => max s.height (Stmt.heights ss)

end

end

theorem Stmt.heights_append (left : Nat) (ss ss' : List Stmt) :
    Stmt.heights left (ss ++ ss') =
      max (Stmt.heights left ss) (Stmt.heights left ss') := by
  induction ss with
  | nil => exact (Nat.zero_max _).symm
  | cons s ss ih => rw [List.cons_append, heights, heights, ih, Nat.max_assoc]

namespace Parser

variable {α β : Type}

/-! ### What parsers give -/

/-- What a parser reads, if it succeeds, satisfies `P`. -/
def Gives (p : Parser α) (P : α → Prop) : Prop :=
  ∀ s a s', p s = .ok a s' → P a

theorem gives_pure {P : α → Prop} {a : α} (h : P a) : Gives (pure a) P := by
  rintro s _ _ ⟨⟩
  exact h

theorem gives_fail (sc : Scope) (kind : FaultKind) (note : String) (P : α → Prop) :
    Gives (fail sc kind note) P := by
  intro s a s' h
  cases h

theorem Gives.bind {p : Parser α} {f : α → Parser β} {P : α → Prop} {Q : β → Prop}
    (hp : Gives p P) (hf : ∀ a, P a → Gives (f a) Q) : Gives (p >>= f) Q := by
  intro s b s' h
  obtain ⟨a, s₁, hfirst, hrest⟩ := Action.of_bind_ok h
  exact hf a (hp s a s₁ hfirst) s₁ b s' hrest

/-- After something that is no part of what is read. -/
theorem gives_after {p : Parser α} {f : α → Parser β} {Q : β → Prop}
    (hf : ∀ a, Gives (f a) Q) :
    Gives (p >>= f) Q := by
  intro s b s' h
  obtain ⟨a, s₁, -, hrest⟩ := Action.of_bind_ok h
  exact hf a s₁ b s' hrest

theorem Gives.map {p : Parser α} {f : α → β} {P : α → Prop} {Q : β → Prop}
    (hp : Gives p P) (hf : ∀ a, P a → Q (f a)) : Gives (p >>= fun a => pure (f a)) Q :=
  hp.bind fun a ha => gives_pure (hf a ha)

theorem Gives.mono {p : Parser α} {P Q : α → Prop} (hp : Gives p P) (h : ∀ a, P a → Q a) :
    Gives p Q :=
  fun s a s' hrun => h a (hp s a s' hrun)

theorem gives_unexpected (sc : Scope) (P : α → Prop) : Gives (unexpected sc) P := by
  refine gives_after fun o => ?_
  split
  · exact gives_fail sc _ _ P
  · exact gives_fail sc _ _ P
  · exact gives_fail sc _ _ P

/-! ### Expressions -/

section

variable (sc : Scope) {d : Nat} {expression : Parser Expr} {binary : Nat → Parser Expr}

/-- The arguments of a call, none of which is higher than an expression may be. -/
theorem height_moreArguments (he : Gives expression (·.height 0 ≤ d))
    (bound : List Located) :
    Gives (moreArguments sc expression bound) (Expr.heights 0 · ≤ d) := by
  induction bound with
  | nil => exact gives_fail sc _ _ _
  | cons _ bound ih =>
    refine gives_after fun o => ?_
    split
    · exact gives_after fun _ => gives_pure (Nat.zero_le d)
    · exact gives_after fun _ => he.bind fun _ he' => ih.map fun _ hes =>
        Nat.max_le.mpr ⟨he', hes⟩
    · exact gives_fail sc _ _ _

theorem height_arguments (he : Gives expression (·.height 0 ≤ d)) :
    Gives (arguments sc expression) (Expr.heights 0 · ≤ d) := by
  refine gives_after fun _ => gives_after fun o => ?_
  split
  · exact gives_after fun _ => gives_pure (Nat.zero_le d)
  · exact he.bind fun _ he' => gives_after fun _ =>
      (height_moreArguments sc he _).map fun _ hes =>
      Nat.max_le.mpr ⟨he', hes⟩

/-- A call is one higher than its arguments. -/
theorem height_named (he : Gives expression (·.height 0 ≤ d)) (name : String) :
    Gives (named sc expression name) (·.height 0 ≤ d + 1) := by
  have hone : 1 ≤ d + 1 := Nat.le_add_left 1 d
  refine gives_after fun t => ?_
  dsimp only
  split
  · exact gives_after fun _ => he.bind fun _ he' => gives_after fun _ =>
      gives_pure (Nat.succ_le_succ he')
  · exact (height_arguments sc he).map fun _ hes => Nat.succ_le_succ hes
  · exact gives_fail sc _ _ _
  · refine gives_after fun o => ?_
    split
    · exact gives_fail sc _ _ _
    · refine gives_after fun _ => gives_after fun o => ?_
      split
      · exact gives_after fun _ => gives_pure hone
      · exact gives_after fun _ => gives_pure hone
      · exact gives_pure hone

/-- An operand without operators is at most one higher than an expression may be. -/
theorem height_primary (he : Gives expression (·.height 0 ≤ d)) :
    Gives (primary sc expression) (·.height 0 ≤ d + 1) := by
  have hone : 1 ≤ d + 1 := Nat.le_add_left 1 d
  refine gives_after fun o => ?_
  split
  · exact gives_after fun _ => gives_after fun _ => gives_pure hone
  · exact gives_after fun _ => he.bind fun _ he' => gives_after fun _ =>
      gives_pure (Nat.le_succ_of_le he')
  · exact gives_after fun _ => height_named sc he _
  · exact gives_after fun _ => gives_after fun _ => gives_pure hone
  · exact gives_after fun _ => gives_after fun _ => gives_after fun _ =>
      gives_after fun _ =>
      gives_after fun _ => gives_pure hone
  · exact gives_after fun _ => gives_after fun _ => gives_after fun _ => gives_pure hone
  · exact gives_after fun _ => gives_after fun _ => gives_after fun _ => gives_pure hone
  · exact gives_unexpected sc _

theorem height_operand (hb : ∀ least, Gives (binary least) (·.height 0 ≤ d)) :
    Gives (operand sc binary) (·.height 0 ≤ d + 1) := by
  refine gives_after fun o => ?_
  split
  · exact gives_after fun _ => (hb _).map fun _ he => Nat.succ_le_succ he
  · exact gives_after fun _ => (hb _).map fun _ he => Nat.succ_le_succ he
  · exact height_primary sc (hb 1)

/-- The loop adds operations on the left, and each of them a right operand one
level further in. -/
theorem height_climb (hb : ∀ least, Gives (binary least) (·.height 0 ≤ d)) (least : Nat)
    (bound : List Located) {lhs : Expr} (hlhs : lhs.height 0 ≤ d + 1) :
    Gives (climb binary least bound lhs) (·.height 0 ≤ d + 1) := by
  induction bound generalizing lhs with
  | nil => exact gives_pure hlhs
  | cons _ bound ih =>
    refine gives_after fun o => ?_
    split
    · split
      · split
        · refine gives_after fun _ => (hb _).bind fun rhs hrhs => ih ?_
          exact Nat.max_le.mpr ⟨hlhs, Nat.succ_le_succ hrhs⟩
        · exact gives_pure hlhs
      · exact gives_pure hlhs
    · exact gives_pure hlhs

theorem height_binary (depth least : Nat) :
    Gives (Parser.binary sc depth least) (·.height 0 ≤ depth) := by
  induction depth generalizing least with
  | zero => exact gives_fail sc _ _ _
  | succ depth ih =>
    exact (height_operand sc ih).bind fun _ hlhs => gives_after fun _ =>
      height_climb ih least _ hlhs

end

/-! ### Statements -/

section

variable (sc : Scope) {d : Nat} {expression : Parser Expr}
  {statement : Parser (List Stmt)}

/-- An assignment is one higher than its expression. -/
theorem height_simple (he : Gives expression (·.height 0 ≤ d)) :
    Gives (simple sc expression) (·.height 0 ≤ d + 1) := by
  have hone : ∀ e : Expr, e.height 0 ≤ d → e.height 0 + 1 ≤ d + 1 :=
    fun _ => Nat.succ_le_succ
  refine gives_after fun o => gives_after fun o' => ?_
  split
  · split
    · exact gives_after fun _ => gives_after fun _ => gives_after fun _ => he.map hone
    · exact he.map hone
  · exact gives_after fun _ => gives_after fun _ => gives_after fun _ => he.map hone
  · exact he.map hone

theorem height_condition (he : Gives expression (·.height 0 ≤ d)) :
    Gives (condition sc expression) (·.height 0 ≤ d) :=
  gives_after fun _ => he.bind fun _ he' => gives_after fun _ => gives_pure he'

/-- A block is as high as the highest of its statements. -/
theorem height_blockItems (hs : Gives statement (Stmt.heights 0 · ≤ d))
    (bound : List Located) :
    Gives (blockItems sc statement bound) (Stmt.heights 0 · ≤ d) := by
  induction bound with
  | nil => exact gives_fail sc _ _ _
  | cons _ bound ih =>
    refine gives_after fun o => ?_
    split
    · exact gives_after fun _ => gives_pure (Nat.zero_le d)
    · exact gives_after fun _ => ih
    · exact gives_fail sc _ _ _
    · refine hs.bind fun _ hfirst => ih.map fun _ hrest => ?_
      rw [Stmt.heights_append]
      exact Nat.max_le.mpr ⟨hfirst, hrest⟩

theorem height_printItem (hd : 1 ≤ d) (he : Gives expression (·.height 0 ≤ d)) :
    Gives (printItem expression) (·.height 0 ≤ d) := by
  refine gives_after fun o => ?_
  split
  · exact gives_after fun _ => gives_after fun _ => gives_pure hd
  · exact he

theorem height_morePrintItems (hd : 1 ≤ d) (he : Gives expression (·.height 0 ≤ d))
    (bound : List Located) :
    Gives (morePrintItems expression bound) (Expr.heights 0 · ≤ d) := by
  induction bound with
  | nil => exact gives_pure (Nat.zero_le d)
  | cons _ bound ih =>
    refine gives_after fun o => ?_
    split
    · exact gives_after fun _ => (height_printItem hd he).bind fun _ he' =>
        ih.map fun _ hes =>
        Nat.max_le.mpr ⟨he', hes⟩
    · exact gives_pure (Nat.zero_le d)

theorem height_printItems (hd : 1 ≤ d) (he : Gives expression (·.height 0 ≤ d)) :
    Gives (printItems expression) (Expr.heights 0 · ≤ d) :=
  (height_printItem hd he).bind fun _ he' => gives_after fun _ =>
    (height_morePrintItems hd he _).map fun _ hes => Nat.max_le.mpr ⟨he', hes⟩

/-- A return is one higher than its value. -/
theorem height_returnStmt (he : Gives expression (·.height 0 ≤ d)) :
    Gives (returnStmt sc expression) (·.height 0 ≤ d + 1) := by
  have hone : 1 ≤ d + 1 := Nat.le_add_left 1 d
  -- a return has a value unless the statement ends there
  have hvalue : Gives (expression >>= fun e => pure (Stmt.returnValue e))
      (·.height 0 ≤ d + 1) :=
    he.map fun _ => Nat.succ_le_succ
  unfold returnStmt
  split
  · exact gives_fail sc _ _ _
  · refine gives_after fun _ => gives_after fun o => ?_
    split
    · exact gives_pure hone
    · exact gives_pure hone
    · exact gives_pure hone
    · exact hvalue
    · exact gives_pure hone
    · exact hvalue

/-- A loop is one higher than its head and its body. -/
theorem height_forStmt (he : Gives expression (·.height 0 ≤ d))
    (hs : Gives statement (Stmt.heights 0 · ≤ d + 1)) :
    Gives (forStmt sc expression statement) (·.height 0 ≤ d + 2) := by
  refine gives_after fun _ => gives_after fun _ =>
    (height_simple sc he).bind fun _ hinit => ?_
  refine gives_after fun _ => he.bind fun _ hcond => ?_
  refine gives_after fun _ => (height_simple sc he).bind fun _ hpost => ?_
  refine gives_after fun _ => hs.map fun _ hbody => Nat.succ_le_succ ?_
  exact Nat.max_le.mpr ⟨Nat.max_le.mpr ⟨hinit, Nat.le_succ_of_le hcond⟩,
    Nat.max_le.mpr ⟨hpost, hbody⟩⟩

/-- So is a branch. -/
theorem height_ifStmt (he : Gives expression (·.height 0 ≤ d))
    (hs : Gives statement (Stmt.heights 0 · ≤ d + 1)) :
    Gives (ifStmt sc expression statement) (·.height 0 ≤ d + 2) := by
  refine gives_after fun _ => (height_condition sc he).bind fun _ hcond =>
    hs.bind fun _ hbody => ?_
  have hcond' := Nat.le_succ_of_le hcond
  refine gives_after fun o => ?_
  split
  · exact gives_after fun _ => hs.map fun _ hother =>
      Nat.succ_le_succ (Nat.max_le.mpr ⟨hcond', Nat.max_le.mpr ⟨hbody, hother⟩⟩)
  · exact gives_pure (Nat.succ_le_succ (Nat.max_le.mpr ⟨hcond', hbody⟩))

/-- A call statement is one higher than its arguments. -/
theorem height_namedStmt (he : Gives expression (·.height 0 ≤ d)) (name : String) :
    Gives (namedStmt sc expression name) (·.height 0 ≤ d + 1) := by
  refine gives_after fun o => ?_
  split
  · refine gives_after fun t => ?_
    split
    · split
      · exact gives_after fun _ => (height_arguments sc he).map fun _ hes =>
          Nat.succ_le_succ hes
      · exact height_simple sc he
    · exact height_simple sc he
  · exact height_simple sc he

/-- A statement that stands alone. -/
theorem height_single {s : Stmt} {n : Nat} (h : s.height 0 ≤ n) :
    Stmt.heights 0 [s] ≤ n :=
  Nat.max_le.mpr ⟨h, Nat.zero_le n⟩

theorem height_terminated {p : Parser Stmt} {n : Nat} (hp : Gives p (·.height 0 ≤ n)) :
    Gives (terminated p) (Stmt.heights 0 · ≤ n) :=
  hp.bind fun _ hs => gives_after fun _ => gives_pure (height_single hs)

/-- A statement is at most one higher than the statements inside it, and two
higher than the expressions. -/
theorem height_anyStatement (he : Gives expression (·.height 0 ≤ d))
    (hs : Gives statement (Stmt.heights 0 · ≤ d + 1)) :
    Gives (anyStatement sc expression statement) (Stmt.heights 0 · ≤ d + 2) := by
  have hup : ∀ s : Stmt, s.height 0 ≤ d + 1 → s.height 0 ≤ d + 2 :=
    fun _ => Nat.le_succ_of_le
  have hone : ∀ s : Stmt, s.height 0 ≤ d + 2 → Stmt.heights 0 [s] ≤ d + 2 :=
    fun _ => height_single
  refine gives_after fun o => ?_
  split
  · exact gives_after fun _ => gives_after fun _ =>
      (height_blockItems sc hs _).mono fun _ => Nat.le_succ_of_le
  · refine height_terminated (gives_after fun _ => ?_)
    exact (height_printItems (Nat.le_add_left 1 d)
      (he.mono fun _ => Nat.le_succ_of_le)).map fun _ => Nat.succ_le_succ
  · refine height_terminated (gives_after fun _ => ?_)
    exact (height_condition sc he).bind fun _ hcond => hs.map fun _ hbody =>
      Nat.succ_le_succ (Nat.max_le.mpr ⟨Nat.le_succ_of_le hcond, hbody⟩)
  · exact (height_forStmt sc he hs).map hone
  · exact (height_ifStmt sc he hs).map hone
  · exact height_terminated ((height_returnStmt sc he).mono hup)
  · exact height_terminated ((height_simple sc he).mono hup)
  · exact gives_unexpected sc _
  · exact height_terminated ((height_namedStmt sc he _).mono hup)
  · exact height_terminated ((height_simple sc he).mono hup)

theorem height_statement (depth : Nat) :
    Gives (Parser.statement sc depth) (Stmt.heights 0 · ≤ depth + 1) := by
  induction depth with
  | zero => exact gives_fail sc _ _ _
  | succ depth ih => exact height_anyStatement sc (height_binary sc depth 1) ih

end

/-! ### Programs -/

theorem height_definition (sc : Scope) (kind : DefinitionKind) (depth : Nat) :
    Gives (definition sc kind depth) (·.height 0 ≤ depth + 2) := by
  refine gives_after fun _ => gives_after fun _ => gives_after fun _ =>
    gives_after fun t => ?_
  split
  · exact gives_fail sc _ _ _
  · exact gives_after fun _ => gives_after fun _ => gives_after fun _ =>
      (height_statement _ depth).map fun _ => Nat.succ_le_succ

/-- A program is as high as its highest part. -/
theorem height_programItems (sc : Scope) (depth : Nat) (bound : List Located) :
    Gives (programItems sc depth bound) (Stmt.heights 0 · ≤ depth + 2) := by
  induction bound with
  | nil => exact gives_pure (Nat.zero_le _)
  | cons _ bound ih =>
    have hdefinition : ∀ kind, Gives (definition sc kind depth >>= fun d =>
        programItems sc depth bound >>= fun ss => pure (d :: ss))
          (Stmt.heights 0 · ≤ depth + 2) :=
      fun kind => (height_definition sc kind depth).bind fun _ hd => ih.map fun _ hss =>
        Nat.max_le.mpr ⟨hd, hss⟩
    refine gives_after fun o => ?_
    split
    · exact gives_pure (Nat.zero_le _)
    · exact gives_after fun _ => ih
    · exact hdefinition .function
    · exact hdefinition .procedure
    · refine (height_statement sc depth).bind fun _ hfirst => ih.map fun _ hrest => ?_
      rw [Stmt.heights_append]
      exact Nat.max_le.mpr ⟨Nat.le_succ_of_le hfirst, hrest⟩

/-! ### Rows of additions -/

/-- `+1`, `n` times. -/
def additions : Nat → List Located
  | 0 => []
  | n + 1 => ⟨1, .operator .plus⟩ :: ⟨1, .number 1.0⟩ :: additions n

/-- A number to which `n` others are added. -/
def sumRow (n : Nat) : List Located :=
  ⟨1, .number 1.0⟩ :: additions n

section

variable (sc : Scope) (k : Nat)

/-- The right operand of an addition ends where the next addition starts. -/
theorem binary_sumRow (n : Nat) (t : SymbolTable) :
    binary sc (k + 1) 6 ⟨sumRow n, t⟩ =
      .ok (.literal t.size) ⟨additions n, (t.addNumber 1.0).2⟩ := by
  cases n with
  | zero => rfl
  | succ n => rfl

/-- The loop takes every addition of a row, and each of them makes the tree
higher. -/
theorem climb_additions (n : Nat) (lhs : Expr) {bound : List Located}
    (hbound : n ≤ bound.length) (t : SymbolTable) :
    ∃ e t', climb (binary sc (k + 1)) 1 bound lhs ⟨additions n, t⟩ = .ok e ⟨[], t'⟩ ∧
      lhs.height 1 + n ≤ e.height 1 := by
  -- by the additions that are left, each of which makes the left side higher by
  -- one
  induction n generalizing lhs bound t with
  | zero =>
    refine ⟨lhs, t, ?_, Nat.le_refl _⟩
    cases bound with
    | nil => rfl
    | cons l bound => rfl
  | succ n ih =>
    cases bound with
    | nil => exact absurd hbound (Nat.not_succ_le_zero n)
    | cons l bound =>
      have hround : climb (binary sc (k + 1)) 1 (l :: bound) lhs ⟨additions (n + 1), t⟩ =
          climb (binary sc (k + 1)) 1 bound (.binary .plus lhs (.literal t.size))
            ⟨additions n, (t.addNumber 1.0).2⟩ :=
            Action.bind_of_ok (binary_sumRow sc k n t)
      obtain ⟨e, t', hclimb, hheight⟩ := ih (.binary .plus lhs (.literal t.size))
        (Nat.le_of_succ_le_succ hbound) (t.addNumber 1.0).2
      refine ⟨e, t', hround.trans hclimb, Nat.le_trans ?_ hheight⟩
      have hhigher : lhs.height 1 + 1 ≤
          (Expr.binary .plus lhs (.literal t.size)).height 1 :=
        Nat.le_max_left _ _
      omega

theorem length_additions (n : Nat) : n ≤ (additions n).length := by
  induction n with
  | zero => exact Nat.le_refl 0
  | succ n ih =>
    rw [additions, List.length_cons, List.length_cons]
    omega

theorem expression_sumRow (n : Nat) (t : SymbolTable) :
    ∃ e t', expression sc (k + 2) ⟨sumRow n, t⟩ = .ok e ⟨[], t'⟩ ∧ n < e.height 1 := by
  obtain ⟨e, t', hclimb, hheight⟩ :=
    climb_additions sc k n (.literal t.size) (length_additions n) (t.addNumber 1.0).2
  refine ⟨e, t', hclimb, ?_⟩
  have hone : (Expr.literal t.size).height 1 = 1 := rfl
  omega

/-- The row is a statement of its own. -/
theorem statement_sumRow (n : Nat) (t : SymbolTable) :
    ∃ e t', statement sc (k + 3) ⟨sumRow n, t⟩ = .ok [.expr e] ⟨[], t'⟩ ∧
      n < e.height 1 := by
  obtain ⟨e, t', hread, hheight⟩ := expression_sumRow sc k n t
  have hsimple : simple sc (expression sc (k + 2)) ⟨sumRow n, t⟩ =
      (expression sc (k + 2) >>= fun e => pure (Stmt.expr e)) ⟨sumRow n, t⟩ := by
    cases n with
    | zero => rfl
    | succ n => rfl
  have hstatement : statement sc (k + 3) ⟨sumRow n, t⟩ =
      terminated (simple sc (expression sc (k + 2))) ⟨sumRow n, t⟩ := rfl
  refine ⟨e, t', ?_, hheight⟩
  rw [hstatement, terminated, Action.bind_of_ok (hsimple.trans (Action.bind_of_ok hread))]
  rfl

/-- The row is a program. -/
theorem programItems_sumRow (n : Nat) (t : SymbolTable) :
    ∃ e t', programItems sc (k + 3) (sumRow n) ⟨sumRow n, t⟩ = .ok [.expr e] ⟨[], t'⟩ ∧
      n < e.height 1 := by
  obtain ⟨e, t', hread, hheight⟩ := statement_sumRow sc k n t
  have hitems : programItems sc (k + 3) (sumRow n) ⟨sumRow n, t⟩ =
      (statement sc (k + 3) >>= fun first => programItems sc (k + 3) (additions n) >>=
        fun rest =>
        pure (first ++ rest)) ⟨sumRow n, t⟩ := rfl
  have hend : programItems sc (k + 3) (additions n) ⟨[], t'⟩ = .ok [] ⟨[], t'⟩ := by
    cases n with
    | zero => rfl
    | succ n => rfl
  refine ⟨e, t', ?_, hheight⟩
  rw [hitems, Action.bind_of_ok hread, Action.bind_of_ok hend]
  rfl

end

end Parser

/-! ### The result -/

/-- The height of a program that is read within `depth` levels is at most
`depth + 2`, left operands not counted. Counting them, it has no bound: three
levels are enough for trees of any height. -/
theorem parse_nesting (t : SymbolTable) (depth : Nat) :
    (∀ tokens program, (parse tokens t depth).1 = .ok program →
      Stmt.heights 0 program ≤ depth + 2) ∧
      (3 ≤ depth → ∀ n, ∃ tokens program, (parse tokens t depth).1 = .ok program ∧
        n < Stmt.heights 1 program) := by
  constructor
  · intro tokens program h
    obtain ⟨rest, hrun⟩ := programItems_of_parse (Prod.ext h rfl)
    exact Parser.height_programItems _ depth tokens _ program _ hrun
  · intro hdepth n
    obtain ⟨k, rfl⟩ : ∃ k, depth = k + 3 := ⟨depth - 3, by omega⟩
    obtain ⟨e, t', hrun, hheight⟩ := Parser.programItems_sumRow
      ⟨false, (Parser.sumRow n).getLast?.map Located.line⟩ k n t
    refine ⟨Parser.sumRow n, [.expr e], ?_, ?_⟩
    · rw [parse, hrun]
    · show n < max (e.height 1 + 1) 0
      omega

/-- The program that is read from a text, at most `depth` levels deep. -/
def readWithin (depth : Nat) (source : String) : Except Fault (List Stmt) :=
  (parse (lex source) SymbolTable.initial depth).1

theorem exists_of_toOption_map {f : List Stmt → Nat}
    {x : Except Fault (List Stmt)} {n : Nat} (h : x.toOption.map f = some n) :
    ∃ program, x = .ok program ∧ f program = n := by
  obtain ⟨program, hx, hf⟩ := Option.map_eq_some_iff.mp h
  cases x with
  | error e => cases hx
  | ok p =>
    cases hx
    exact ⟨program, rfl, hf⟩

/-- A definition with a loop around a condition, and operations that nest to the
right as far as the limit lets them. -/
theorem parse_nesting_loop :
    ∃ program, readWithin 4 "proc p() for ($1 = 1; $1 < 2; $1 = 3 + -1) if ($2) return" =
      .ok program ∧
      Stmt.heights 0 program = 6 ∧ Stmt.heights 0 program ≤ 4 + 2 ∧
      ∃ tokens program', (parse tokens SymbolTable.initial 4).1 = .ok program' ∧
        100 < Stmt.heights 1 program' := by
  have hheight :
      (readWithin 4
        "proc p() for ($1 = 1; $1 < 2; $1 = 3 + -1) if ($2) return").toOption.map
      (Stmt.heights 0) = some 6 := by decide +kernel
  obtain ⟨program, hread, hsix⟩ := exists_of_toOption_map hheight
  obtain ⟨hbound, hhigh⟩ := parse_nesting SymbolTable.initial 4
  exact ⟨program, hread, hsix, hbound _ program hread, hhigh (by decide) 100⟩

/-- Eight numbers are added up within three levels, and the tree is nine nodes
high. -/
theorem parse_sum_exceeds :
    ∃ program, readWithin 3 "1+1+1+1+1+1+1+1" = .ok program ∧ Stmt.heights 1 program = 9 ∧
      ¬ Stmt.heights 1 program ≤ 2 * 3 + 2 := by
  have hheight : (readWithin 3 "1+1+1+1+1+1+1+1").toOption.map (Stmt.heights 1) =
      some 9 := by
    decide +kernel
  obtain ⟨program, hread, hnine⟩ := exists_of_toOption_map hheight
  exact ⟨program, hread, hnine, by omega⟩

end StackCalc
