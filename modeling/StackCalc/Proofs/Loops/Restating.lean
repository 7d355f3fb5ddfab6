import StackCalc.Proofs.Loops.SideBySide
import StackCalc.Proofs.Simulation.Control

/-!
# Loops written in another way

A `for` loop can be written as its first clause and a `while` loop whose body
ends with its last clause. `Restated` relates statements to the same statements
with some of their `for` loops written that way, wherever in them those stand.
It does so only where expression statements do not show their values, for the
clauses of a `for` loop never do.

The code of statements and of restated ones, run cell by cell, keeps machines in
step. The proofs follow the tree, with calls (`CallsInStep`) and stretches
further in (`EntersInStep`) as parameters; the table that the code was generated
with matters only in that the tree is codable for it. The two loops go round
together: `Exec.inStep_restatedLoop` is the one place where the code of both
sides differs.
-/

namespace StackCalc

/-! ### Restated statements -/

/-- Whether a statement has no other statements in it. -/
def Stmt.isSimple : Stmt → Bool
  | .assign .. | .argAssign .. | .print .. | .expr .. | .call .. | .returnValue .. |
      .returnNothing =>
    true
  | .whileLoop .. | .forLoop .. | .ifThen .. | .ifElse .. | .define .. => false

/-- Statements, and the same ones with some `for` loops written as `while` loops. -/
inductive Restated (echo : Bool) : List Stmt → List Stmt → Prop
  | nil : Restated echo [] []
  | simple {s : Stmt} {ss ss' : List Stmt} (hs : s.isSimple = true)
    (hss : Restated echo ss ss') :
    Restated echo (s :: ss) (s :: ss')
  | whileLoop (cond : Expr) {body body' ss ss' : List Stmt}
    (hbody : Restated echo body body') (hss : Restated echo ss ss') :
    Restated echo (.whileLoop cond body :: ss) (.whileLoop cond body' :: ss')
  | forLoop (init : Stmt) (cond : Expr) (post : Stmt) {body body' ss ss' : List Stmt}
    (hbody : Restated echo body body') (hss : Restated echo ss ss') :
    Restated echo (.forLoop init cond post body :: ss)
      (.forLoop init cond post body' :: ss')
  | ifThen (cond : Expr) {body body' ss ss' : List Stmt}
    (hbody : Restated echo body body') (hss : Restated echo ss ss') :
    Restated echo (.ifThen cond body :: ss) (.ifThen cond body' :: ss')
  | ifElse (cond : Expr) {body body' other other' ss ss' : List Stmt}
    (hbody : Restated echo body body') (hother : Restated echo other other')
    (hss : Restated echo ss ss') :
    Restated echo (.ifElse cond body other :: ss) (.ifElse cond body' other' :: ss')
  | define (kind : DefinitionKind) (id : Nat) {body body' ss ss' : List Stmt}
    (hbody : Restated echo body body') (hss : Restated echo ss ss') :
    Restated echo (.define kind id body :: ss) (.define kind id body' :: ss')
  /-- The loop itself. -/
  | loop (hecho : echo = false) (init : Stmt) (cond : Expr) (post : Stmt)
    {body body' ss ss' : List Stmt} (hbody : Restated echo body body')
    (hss : Restated echo ss ss') :
    Restated echo (.forLoop init cond post body :: ss)
      (init :: .whileLoop cond (body' ++ [post]) :: ss')

/-- Nothing need be restated. -/
theorem Restated.refl (echo : Bool) : ∀ ss : List Stmt, Restated echo ss ss
  | [] => .nil
  | .assign _ _ _ :: ss => .simple rfl (refl echo ss)
  | .argAssign _ _ :: ss => .simple rfl (refl echo ss)
  | .print _ :: ss => .simple rfl (refl echo ss)
  | .whileLoop cond body :: ss => .whileLoop cond (refl echo body) (refl echo ss)
  | .forLoop init cond post body :: ss =>
    .forLoop init cond post (refl echo body) (refl echo ss)
  | .ifThen cond body :: ss => .ifThen cond (refl echo body) (refl echo ss)
  | .ifElse cond body other :: ss =>
    .ifElse cond (refl echo body) (refl echo other) (refl echo ss)
  | .expr _ :: ss => .simple rfl (refl echo ss)
  | .call _ _ :: ss => .simple rfl (refl echo ss)
  | .returnValue _ :: ss => .simple rfl (refl echo ss)
  | .returnNothing :: ss => .simple rfl (refl echo ss)
  | .define kind id body :: ss => .define kind id (refl echo body) (refl echo ss)

mutual

/-- A statement without `for` loops, as the statements it takes. -/
def Stmt.withoutFor : Stmt → List Stmt
  | .whileLoop cond body => [.whileLoop cond (Stmt.allWithoutFor body)]
  | .forLoop init cond post body =>
    [init, .whileLoop cond (Stmt.allWithoutFor body ++ [post])]
  | .ifThen cond body => [.ifThen cond (Stmt.allWithoutFor body)]
  | .ifElse cond body other =>
    [.ifElse cond (Stmt.allWithoutFor body) (Stmt.allWithoutFor other)]
  | .define kind id body => [.define kind id (Stmt.allWithoutFor body)]
  | s => [s]

/-- Statements without `for` loops. -/
def Stmt.allWithoutFor : List Stmt → List Stmt
  | [] => []
  | s :: ss => s.withoutFor ++ Stmt.allWithoutFor ss

end

/-- All `for` loops can be restated at once. -/
theorem restated_withoutFor : ∀ ss : List Stmt, Restated false ss (Stmt.allWithoutFor ss)
  | [] => .nil
  | .assign _ _ _ :: ss => .simple rfl (restated_withoutFor ss)
  | .argAssign _ _ :: ss => .simple rfl (restated_withoutFor ss)
  | .print _ :: ss => .simple rfl (restated_withoutFor ss)
  | .whileLoop cond body :: ss =>
    .whileLoop cond (restated_withoutFor body) (restated_withoutFor ss)
  | .forLoop init cond post body :: ss =>
    .loop rfl init cond post (restated_withoutFor body) (restated_withoutFor ss)
  | .ifThen cond body :: ss =>
    .ifThen cond (restated_withoutFor body) (restated_withoutFor ss)
  | .ifElse cond body other :: ss =>
    .ifElse cond (restated_withoutFor body) (restated_withoutFor other)
      (restated_withoutFor ss)
  | .expr _ :: ss => .simple rfl (restated_withoutFor ss)
  | .call _ _ :: ss => .simple rfl (restated_withoutFor ss)
  | .returnValue _ :: ss => .simple rfl (restated_withoutFor ss)
  | .returnNothing :: ss => .simple rfl (restated_withoutFor ss)
  | .define kind id body :: ss =>
    .define kind id (restated_withoutFor body) (restated_withoutFor ss)

section

variable {t : SymbolTable} {inDefinition echo : Bool}

/-- What restates statements that have a meaning has one. -/
theorem Restated.allWellFormed {ss ss' : List Stmt} (h : Restated echo ss ss')
    (hss : Stmt.AllWellFormed t inDefinition ss) :
    Stmt.AllWellFormed t inDefinition ss' := by
  induction h with
  | nil => exact hss
  | simple _ _ ih => exact ⟨hss.1, ih hss.2⟩
  | whileLoop cond _ _ ihBody ih => exact ⟨⟨hss.1.1, ihBody hss.1.2⟩, ih hss.2⟩
  | forLoop init cond post _ _ ihBody ih =>
    obtain ⟨⟨hinit, hcond, hpost, hbody⟩, hrest⟩ := hss
    exact ⟨⟨hinit, hcond, hpost, ihBody hbody⟩, ih hrest⟩
  | ifThen cond _ _ ihBody ih => exact ⟨⟨hss.1.1, ihBody hss.1.2⟩, ih hss.2⟩
  | ifElse cond _ _ _ ihBody ihOther ih =>
    exact ⟨⟨hss.1.1, ihBody hss.1.2.1, ihOther hss.1.2.2⟩, ih hss.2⟩
  | define => exact hss.1.elim
  | loop _ init cond post _ _ ihBody ih =>
    obtain ⟨⟨hinit, hcond, hpost, hbody⟩, hrest⟩ := hss
    exact ⟨hinit.wellFormed, ⟨hcond, (ihBody hbody).append ⟨hpost.wellFormed, trivial⟩⟩,
      ih hrest⟩

/-! ### Clauses as statements -/

/-- A clause that stands as a statement leaves its value and drops it. -/
theorem Stmt.CodableClause.asStmt {s : Stmt} (hs : s.CodableClause t) (a : Nat) :
    Layout.stmt t false a s = Layout.clause t s ++ [Layout.plain .pop] ∧
      s.size = s.clauseSize + 1 ∧ s.steps = s.clauseSteps + 1 := by
  cases s with
  | assign op id e => exact ⟨rfl, rfl, rfl⟩
  | argAssign n e => exact ⟨rfl, rfl, rfl⟩
  | expr e => exact ⟨rfl, rfl, rfl⟩
  | _ => exact hs.elim

end

/-! ### Calls and stretches further in -/

/-- The first machine sees no interrupt. -/
def Calm (P : Machine → Machine → Prop) (m m' : Machine) : Prop :=
  P m m' ∧ m.interrupted = false

/-- An action that does not touch the flag for interrupts keeps the first
machine calm. -/
theorem Exec.InStep.calm {α : Type} {P Q : Machine → Machine → Prop} {x y : Exec α}
    (h : Exec.InStep (Calm P) Q x y) (hx : Action.Leaves Machine.interrupted x) :
    Exec.InStep (Calm P) (Calm Q) x y := by
  rintro m m' ⟨hm, hi⟩
  have hmatched := h m m' ⟨hm, hi⟩
  have hleaves := hx m
  generalize x m = r at hmatched hleaves
  generalize y m' = r' at hmatched
  cases hmatched with
  | cut he => exact .cut he _
  | ok hq => exact .ok ⟨hq, hleaves.trans hi⟩
  | error hp => exact .error hp

theorem Exec.InStep.of_calm {α : Type} {P Q : Machine → Machine → Prop} {x y : Exec α}
    (h : Exec.InStep P Q x y) : Exec.InStep (Calm P) Q x y :=
  h.mono (fun _ _ hm => hm.1) fun _ _ hm => hm

/-- What calls do, with the same operands for both: they go on behind them. -/
structure CallsInStep (u : Placement) (job job' : Job) (enter enter' : Nat → Exec Unit) :
    Prop where
  limits : job'.limits = job.limits
  call : ∀ {c p p'}, job'.cells[p']? = job.cells[p]? →
    job'.cells[p' + 1]? = job.cells[p + 1]? →
    Exec.InStep (Abreast u c false p p') (Abreast u c false (p + 2) (p' + 2))
      (Exec.call job enter) (Exec.call job' enter')

/-- What entering stretches does. The first clause of a `for` loop is a stretch
of its own for the first machine only, and its last clause belongs to the body
for the second one. -/
structure EntersInStep (u : Placement) (job job' : Job) (enter enter' : Nat → Exec Unit)
    (fuel : Nat) : Prop where
  expr : ∀ {c t e a a' b b' p p'}, Expr.Codable t e →
    Exec.Leads job.cells a b → Exec.Leads job'.cells a' b' →
    Holds job.cells b (Layout.expr t e ++ [.stop]) →
    Holds job'.cells b' (Layout.expr t e ++ [.stop]) →
    Exec.InStep (Abreast u c false p p') (Abreast u c false (b + e.size) (b' + e.size))
      (enter a) (enter' a')
  clause : ∀ {c t s a a' b b' p p'}, Stmt.CodableClause t s →
    Exec.Leads job.cells a b → Exec.Leads job'.cells a' b' →
    Holds job.cells b (Layout.clause t s ++ [.stop]) →
    Holds job'.cells b' (Layout.clause t s ++ [.stop]) →
    Exec.InStep (Abreast u c false p p')
      (Abreast u c false (b + s.clauseSize) (b' + s.clauseSize)) (enter a) (enter' a')
  stmts : ∀ {c t ss ss' echo a a' b b' p p'}, Stmt.AllCodable t ss →
    Restated echo ss ss' → Exec.Leads job.cells a b → Exec.Leads job'.cells a' b' →
    Holds job.cells b (Layout.stmts t echo b ss ++ [.stop]) →
    Holds job'.cells b' (Layout.stmts t echo b' ss' ++ [.stop]) →
    Exec.InStep (Abreast u c false p p')
      (Past u c (b + Stmt.sizes ss) (b' + Stmt.sizes ss')) (enter a) (enter' a')
  body : ∀ {c t ss ss' echo a a' p p'}, Stmt.AllCodable t ss → Restated echo ss ss' →
    Holds job.cells a (Layout.body t echo a ss) →
    Holds job'.cells a' (Layout.body t echo a' ss') →
    Exec.InStep (Abreast u c false p p') (Left u c) (enter a) (enter' a')
  first : ∀ {c t s a b p p'}, Stmt.CodableClause t s → Exec.Leads job.cells a b →
    Holds job.cells b (Layout.clause t s ++ [.stop]) →
    Holds job'.cells p' (Layout.clause t s) →
    Exec.InStep (Abreast u c false p p')
      (Calm (Abreast u c false (b + s.clauseSize) (p' + s.clauseSize))) (enter a)
      (Exec.advance job' enter' fuel s.clauseSteps)
  round : ∀ {c t body body' post a a' b b' d e p p' q q'} {k k' : Exec Unit},
    Stmt.AllCodable t body → Stmt.CodableClause t post →
    Restated false body body' → Exec.Leads job.cells a b → Exec.Leads job.cells d e →
    Exec.Leads job'.cells a' b' →
    Holds job.cells b (Layout.stmts t false b body ++ [.stop]) →
    Holds job.cells e (Layout.clause t post ++ [.stop]) →
    Holds job'.cells b' (Layout.stmts t false b' (body' ++ [post]) ++ [.stop]) →
    (∀ {p p'}, Exec.InStep (Abreast u c false p p') (Past u c q q') k k') →
    Exec.InStep (Abreast u c false p p') (Past u c q q')
      (enter a >>= fun _ => get >>= fun m => if m.returning then pure ()
        else enter d >>= fun _ => Exec.pop >>= fun _ => k)
      (enter' a' >>= fun _ => get >>= fun m => if m.returning then pure () else k')

namespace Exec

variable {u : Placement} {t : SymbolTable} {c : Pairing} {job job' : Job}
  {enter enter' : Nat → Exec Unit} {fuel a a' p p' q q' : Nat} {echo : Bool}
  {P Q R : Machine → Machine → Prop}

theorem InStep.past {x y : Exec Unit} (h : InStep P (Abreast u c false p p') x y) :
    InStep P (Past u c p p') x y :=
  h.mono (fun _ _ hm => hm) fun _ _ hm => .inl hm

theorem InStep.past_of_left {x y : Exec Unit} (h : InStep P (Left u c) x y) :
    InStep P (Past u c p p') x y :=
  h.mono (fun _ _ hm => hm) fun _ _ hm => .inr hm

/-! ### Cells -/

theorem advance_one_of_interrupted {m : Machine} (hr : m.returning = false)
    (hi : m.interrupted = true) :
    advance job enter fuel 1 m = .error (.fault { kind := .interrupted }) m :=
  Action.bind_of_error (cell_of_interrupted hr hi)

theorem advance_one_of_op {m : Machine} (hr : m.returning = false)
    (hi : m.interrupted = false) {o : Opcode} (hc : job.cells[m.pc]? = some (.op o)) :
    advance job enter fuel 1 m =
      operation job enter fuel o { m with pc := m.pc + 1 } := by
  show (cell job enter fuel >>= fun _ => pure ()) m = _
  have hcell : cell job enter fuel m = _ := cell_of_op hr hi hc
  rw [Action.bind_congr hcell, bind_assoc]
  simp only [pure_bind, bind_pure_unit]

/-- The cell of an operation that only the first machine runs. -/
theorem inStep_op_left {o : Opcode} {y : Exec Unit} (h : job.cells[p]? = some (.op o))
    (ho : InStep (Calm (Abreast u c false (p + 1) p')) Q (operation job enter fuel o) y) :
    InStep (Abreast u c false p p') Q (advance job enter fuel 1) y := by
  rintro m m' hm
  obtain rfl := hm.pc
  cases hi : m.interrupted with
  -- the interrupt is seen before the operation is run
  | true =>
    rw [advance_one_of_interrupted hm.flag hi]
    exact .cut Halt.cutsShort_interrupted _
  | false =>
    rw [advance_one_of_op hm.flag hi h]
    refine ho _ _ ⟨⟨?_, rfl, hm.frames, hm.flag, hm.bodies⟩, hi⟩
    rw [hm.other]
    rfl

/-- The cell of an operation that only the second machine runs. -/
theorem inStep_op_right {o : Opcode} {x : Exec Unit} (h : job'.cells[p']? = some (.op o))
    (ho : InStep (Abreast u c false p (p' + 1)) Q x (operation job' enter' fuel o)) :
    InStep (Calm (Abreast u c false p p')) Q x (advance job' enter' fuel 1) := by
  rintro m _ ⟨hm, hi⟩
  obtain rfl := hm.other
  have hone : advance job' enter' fuel 1 (m.moved u.moves c.frames' p') =
      operation job' enter' fuel o (m.moved u.moves c.frames' (p' + 1)) :=
    @advance_one_of_op job' enter' fuel (m.moved u.moves c.frames' p') hm.flag hi o h
  rw [hone]
  exact ho _ _ ⟨rfl, hm.pc, hm.frames, hm.flag, hm.bodies⟩

/-- The cells of operations run these from the cells behind them. -/
theorem inStep_op {o o' : Opcode} (h : job.cells[p]? = some (.op o))
    (h' : job'.cells[p']? = some (.op o'))
    (ho : InStep (Abreast u c false (p + 1) (p' + 1)) Q (operation job enter fuel o)
      (operation job' enter' fuel o')) :
    InStep (Abreast u c false p p') Q (advance job enter fuel 1)
      (advance job' enter' fuel 1) :=
  inStep_op_left h (inStep_op_right h' ho)

/-- The cells of an instruction, which stand at both places. -/
theorem inStep_plain (hlimits : job'.limits = job.limits) {i : Instruction}
    (hi : i.isReturn = false) (rest : List Cell) (hrest : rest.length = i.operandCount)
    (h : Holds job.cells p (Layout.plain i :: rest))
    (h' : Holds job'.cells p' (Layout.plain i :: rest)) :
    InStep (Abreast u c false p p')
      (Abreast u c false (p + (rest.length + 1)) (p' + (rest.length + 1)))
      (advance job enter fuel 1) (advance job' enter' fuel 1) := by
  rw [hrest, Nat.add_comm i.operandCount, ← Nat.add_assoc, ← Nat.add_assoc]
  refine inStep_op h.1 h'.1 (Instruction.inStep_run hlimits hi fun hone => ?_)
  obtain ⟨cell, rfl⟩ := List.length_eq_one_iff.mp (hrest.trans hone)
  rw [h.2.1, h'.2.1]

/-- Stretches of cells follow each other, be they of different lengths on both
sides. -/
theorem inStep_advance_add {k l k' l' : Nat}
    (h : InStep P Q (advance job enter fuel k) (advance job' enter' fuel k'))
    (h' : InStep Q R (advance job enter fuel l) (advance job' enter' fuel l')) :
    InStep P R (advance job enter fuel (k + l)) (advance job' enter' fuel (k' + l')) := by
  rw [advance_add, advance_add]
  exact h.bind fun _ => h'

/-- The cells of a call. -/
theorem inStep_callCells (hcalls : CallsInStep u job job' enter enter') {id k : Nat}
    (h : Holds job.cells p (Layout.callCells id k))
    (h' : Holds job'.cells p' (Layout.callCells id k)) :
    InStep (Abreast u c false p p') (Abreast u c false (p + 3) (p' + 3))
      (advance job enter fuel 1) (advance job' enter' fuel 1) := by
  obtain ⟨hop, hsymbol, hcount, -⟩ := h
  obtain ⟨hop', hsymbol', hcount', -⟩ := h'
  exact inStep_op hop hop'
    (hcalls.call (hsymbol'.trans hsymbol.symm) (hcount'.trans hcount.symm))

/-! ### Expressions -/

mutual

/-- An expression is laid out alike for both, so they go through its cells
together and leave the same value. -/
theorem inStep_expr (hcalls : CallsInStep u job job' enter enter') :
    ∀ (e : Expr) {a a' : Nat}, e.Codable t → Holds job.cells a (Layout.expr t e) →
      Holds job'.cells a' (Layout.expr t e) →
      InStep (Abreast u c false a a') (Abreast u c false (a + e.size) (a' + e.size))
        (advance job enter fuel e.steps) (advance job' enter' fuel e.steps)
  | .literal _, _, _, _, h, h' => inStep_plain hcalls.limits rfl _ rfl h h'
  | .variable id, a, a', _, h, h' =>
    inStep_advance_add
      (inStep_plain hcalls.limits rfl [.symbol id] rfl ⟨h.1, h.2.1, trivial⟩
        ⟨h'.1, h'.2.1, trivial⟩)
      (inStep_plain hcalls.limits rfl _ rfl h.2.2 h'.2.2)
  | .text _, _, _, hw, _, _ => hw.elim
  | .binary op lhs rhs, a, a', ⟨hop, hl, hr⟩, h, h' => by
    obtain ⟨o, ho⟩ := Option.isSome_iff_exists.mp hop
    rw [Layout.expr, ho, holds_append, holds_append, List.length_append,
      Layout.length_expr, Layout.length_expr, ← Nat.add_assoc] at h h'
    obtain ⟨⟨hlhs, hrhs⟩, hcell⟩ := h
    obtain ⟨⟨hlhs', hrhs'⟩, hcell'⟩ := h'
    rw [Expr.steps, Expr.size, ← Nat.add_assoc a, ← Nat.add_assoc a, ← Nat.add_assoc a',
      ← Nat.add_assoc a']
    exact inStep_advance_add (inStep_advance_add (inStep_expr hcalls lhs hl hlhs hlhs')
      (inStep_expr hcalls rhs hr hrhs hrhs'))
        (inStep_plain hcalls.limits rfl _ rfl hcell hcell')
  | .unary op e, a, a', ⟨hop, he⟩, h, h' => by
    obtain ⟨i, hi⟩ := Option.isSome_iff_exists.mp hop
    have hplain : i.isReturn = false ∧ i.operandCount = 0 := by
      cases op <;> cases hi <;> exact ⟨rfl, rfl⟩
    rw [Layout.expr, hi, holds_append, Layout.length_expr] at h h'
    exact inStep_advance_add (inStep_expr hcalls e he h.1 h'.1)
      (inStep_plain hcalls.limits hplain.1 [] hplain.2.symm h.2 h'.2)
  | .builtin id e, a, a', ⟨_, he⟩, h, h' => by
    rw [Layout.expr, holds_append, Layout.length_expr] at h h'
    exact inStep_advance_add (inStep_expr hcalls e he h.1 h'.1)
      (inStep_plain hcalls.limits rfl _ rfl h.2 h'.2)
  | .step how id, _, _, _, h, h' => inStep_plain hcalls.limits rfl _ rfl h h'
  | .call id es, a, a', ⟨_, hes⟩, h, h' => by
    rw [Layout.expr, holds_append, Layout.length_exprs] at h h'
    exact inStep_advance_add (inStep_exprs hcalls es hes h.1 h'.1)
      (inStep_callCells hcalls h.2 h'.2)
  | .arg _, _, _, _, h, h' => inStep_plain hcalls.limits rfl _ rfl h h'
  | .read _, _, _, _, h, h' => inStep_plain hcalls.limits rfl _ rfl h h'

theorem inStep_exprs (hcalls : CallsInStep u job job' enter enter') :
    ∀ (es : List Expr) {a a' : Nat}, Expr.AllCodable t es →
      Holds job.cells a (Layout.exprs t es) → Holds job'.cells a' (Layout.exprs t es) →
      InStep (Abreast u c false a a')
        (Abreast u c false (a + Expr.sizes es) (a' + Expr.sizes es))
        (advance job enter fuel (Expr.stepsAll es))
        (advance job' enter' fuel (Expr.stepsAll es))
  | [], _, _, _, _, _ => inStep_pure ()
  | e :: es, a, a', ⟨he, hes⟩, h, h' => by
    rw [Layout.exprs, holds_append, Layout.length_expr] at h h'
    rw [Expr.sizes, ← Nat.add_assoc, ← Nat.add_assoc]
    exact inStep_advance_add (inStep_expr hcalls e he h.1 h'.1)
      (inStep_exprs hcalls es hes h.2 h'.2)

end

/-! ### Clauses and print statements -/

section

variable (hcalls : CallsInStep u job job' enter enter')

include hcalls

/-- A clause is laid out alike for both. -/
theorem inStep_clause {s : Stmt} (hs : s.CodableClause t)
    (h : Holds job.cells a (Layout.clause t s))
    (h' : Holds job'.cells a' (Layout.clause t s)) :
    InStep (Abreast u c false a a')
      (Abreast u c false (a + s.clauseSize) (a' + s.clauseSize))
      (advance job enter fuel s.clauseSteps)
      (advance job' enter' fuel s.clauseSteps) := by
  cases s with
  | assign op id e =>
    obtain ⟨hop, -, he⟩ := hs
    obtain ⟨o, ho⟩ := Option.isSome_iff_exists.mp hop
    rw [Layout.clause, ho, holds_append, Layout.length_expr] at h h'
    obtain ⟨hvalue, hpush, hsymbol, hassign⟩ := h
    obtain ⟨hvalue', hpush', hsymbol', hassign'⟩ := h'
    exact inStep_advance_add (inStep_expr hcalls e he hvalue hvalue') (inStep_advance_add
      (inStep_plain hcalls.limits rfl [.symbol id] rfl ⟨hpush, hsymbol, trivial⟩
        ⟨hpush', hsymbol', trivial⟩)
      (inStep_plain hcalls.limits rfl _ rfl hassign hassign'))
  | argAssign n e =>
    rw [Layout.clause, holds_append, Layout.length_expr] at h h'
    exact inStep_advance_add (inStep_expr hcalls e hs h.1 h'.1)
      (inStep_plain hcalls.limits rfl _ rfl h.2 h'.2)
  | expr e => exact inStep_expr hcalls e hs h h'
  | _ => exact hs.elim

/-- An item is laid out alike for both, and what they print is the same. -/
theorem inStep_printItem {e : Expr} (he : e.CodableItem t)
    (h : Holds job.cells a (Layout.printItem t e))
    (h' : Holds job'.cells a' (Layout.printItem t e)) :
    InStep (Abreast u c false a a') (Abreast u c false (a + e.itemSize) (a' + e.itemSize))
      (advance job enter fuel e.itemSteps) (advance job' enter' fuel e.itemSteps) := by
  cases e with
  | text id => exact inStep_plain hcalls.limits rfl _ rfl h h'
  | _ =>
    rw [Layout.printItem, holds_append, Layout.length_expr] at h h'
    · exact inStep_advance_add
        (inStep_expr hcalls _ he h.1 h'.1)
        (inStep_plain hcalls.limits rfl _ rfl h.2 h'.2)
    all_goals
      intro id hid
      cases hid

theorem inStep_printItems {es : List Expr} (hes : ∀ e ∈ es, e.CodableItem t)
    (h : Holds job.cells a (Layout.printItems t es))
    (h' : Holds job'.cells a' (Layout.printItems t es)) :
    InStep (Abreast u c false a a')
      (Abreast u c false (a + Expr.itemSizes es) (a' + Expr.itemSizes es))
      (advance job enter fuel (Expr.itemStepsAll es))
      (advance job' enter' fuel (Expr.itemStepsAll es)) := by
  induction es generalizing a a' with
  | nil => exact inStep_pure ()
  | cons e es ih =>
    obtain ⟨he, hes⟩ := List.forall_mem_cons.mp hes
    rw [Layout.printItems, holds_append, Layout.length_printItem] at h h'
    rw [Expr.itemSizes, ← Nat.add_assoc, ← Nat.add_assoc]
    exact inStep_advance_add (inStep_printItem hcalls he h.1 h'.1) (ih hes h.2 h'.2)

/-- A statement without others in it. -/
theorem inStep_simple {s : Stmt} (hsimple : s.isSimple = true) (hs : s.Codable t)
    (h : Holds job.cells a (Layout.stmt t echo a s))
    (h' : Holds job'.cells a' (Layout.stmt t echo a' s)) :
    InStep (Abreast u c false a a') (Past u c (a + s.size) (a' + s.size))
      (advance job enter fuel s.steps) (advance job' enter' fuel s.steps) := by
  cases s with
  | assign op id e =>
    rw [Layout.stmt, holds_append, Layout.length_clause] at h h'
    exact .past (inStep_advance_add (inStep_clause hcalls hs h.1 h'.1)
      (inStep_plain hcalls.limits rfl _ rfl h.2 h'.2))
  | argAssign n e =>
    rw [Layout.stmt, holds_append, Layout.length_clause] at h h'
    exact .past (inStep_advance_add (inStep_clause hcalls hs h.1 h'.1)
      (inStep_plain hcalls.limits rfl _ rfl h.2 h'.2))
  | print items => exact .past (inStep_printItems hcalls hs h h')
  | expr e =>
    have hending : Instruction.isReturn (if echo then .printTop else .pop) = false ∧
        Instruction.operandCount (if echo then .printTop else .pop) = 0 := by
      cases echo <;> exact ⟨rfl, rfl⟩
    rw [Layout.stmt, holds_append, Layout.length_expr] at h h'
    exact .past (inStep_advance_add (inStep_expr hcalls e hs h.1 h'.1)
      (inStep_plain hcalls.limits hending.1 [] hending.2.symm h.2 h'.2))
  | call id es =>
    rw [Layout.stmt, holds_append, Layout.length_exprs] at h h'
    exact .past (inStep_advance_add (inStep_exprs hcalls es hs.2 h.1 h'.1)
      (inStep_callCells hcalls h.2 h'.2))
  | returnValue e =>
    rw [Layout.stmt, holds_append, Layout.length_expr] at h h'
    exact .past_of_left (inStep_advance_add (inStep_expr hcalls e hs h.1 h'.1)
      (inStep_op h.2.1 h'.2.1 (inStep_returnValue hcalls.limits)))
  | returnNothing => exact .past_of_left (inStep_op h.1 h'.1 inStep_returnNothing)
  | _ => cases hsimple

end

/-! ### Loops and conditions -/

/-- The slots of a control operation start where the machine is. -/
theorem inStep_pc_left (f : Nat → Exec Unit) {y : Exec Unit}
    (hf : InStep (Abreast u c false p p') Q (f p) y) :
    InStep (Abreast u c false p p') Q (get >>= fun m => f m.pc) y := by
  intro m m' hm
  rw [Action.bind_of_ok (Action.get_apply m), hm.pc]
  exact hf m m' hm

/-- The same for the second machine. -/
theorem inStep_pc_right {x : Exec Unit} (g : Nat → Exec Unit)
    (hg : InStep (Abreast u c false p p') Q x (g p')) :
    InStep (Abreast u c false p p') Q x (get >>= fun m => g m.pc) := by
  rintro m _ hm
  obtain rfl := hm.other
  exact hg m _ hm

theorem inStep_pc (f g : Nat → Exec Unit)
    (hf : InStep (Abreast u c false p p') Q (f p) (g p')) :
    InStep (Abreast u c false p p') Q (get >>= fun m => f m.pc)
      (get >>= fun m => g m.pc) :=
  inStep_pc_left f (inStep_pc_right g hf)

/-- What follows the body of a loop or a branch: nothing, with a return under
way. -/
theorem inStep_after {k k' : Exec Unit}
    (hk : InStep (Abreast u c false p p') (Past u c q q') k k') :
    InStep (Past u c p p') (Past u c q q')
      (get >>= fun m => if m.returning then pure () else k)
      (get >>= fun m => if m.returning then pure () else k') := by
  rintro m m' (h | h)
  · rw [Action.bind_of_ok (Action.get_apply m), Action.bind_of_ok (Action.get_apply m'),
      h.flag, h.flag']
    exact hk m m' h
  · obtain ⟨hr, hr'⟩ := h.under_way
    rw [Action.bind_of_ok (Action.get_apply m),
      Action.bind_of_ok (Action.get_apply m'), hr, hr']
    exact .ok (.inr h)

/-- The end of a loop or a branch. -/
theorem inStep_leaving (h : job.cells[a]? = some (.address q))
    (h' : job'.cells[a']? = some (.address q')) :
    InStep (Abreast u c false p p') (Past u c q q')
      (slotAddress job a >>= fun b => jump b)
      (slotAddress job' a' >>= fun b => jump b) := by
  rintro m _ hm
  obtain rfl := hm.other
  rw [Action.bind_of_ok (slotAddress_apply h m),
    Action.bind_of_ok (slotAddress_apply h' _)]
  exact .ok (.inl ⟨rfl, rfl, hm.frames, hm.flag, hm.bodies⟩)

section

variable (henters : EntersInStep u job job' enter enter' fuel)

include henters

theorem inStep_condition {e : Expr} {b b' : Nat} (he : e.Codable t)
    (hlead : Leads job.cells b a) (hlead' : Leads job'.cells b' a')
    (h : Holds job.cells a (Layout.expr t e ++ [.stop]))
    (h' : Holds job'.cells a' (Layout.expr t e ++ [.stop])) :
    InStep (Abreast u c false p p') (Abreast u c false (a + e.size) (a' + e.size))
      (condition enter b) (condition enter' b') :=
  (henters.expr he hlead hlead' h h').bind fun _ => inStep_pop.map isTrue

/-- Both loops go round together, by the rounds that are left. -/
theorem inStep_whileLoop {cond : Expr} {body body' : List Stmt} {b b' : Nat}
    (hat : WhileAt job t echo cond body a b q)
    (hat' : WhileAt job' t echo cond body' a' b' q') (hcond : cond.Codable t)
    (hbody : Stmt.AllCodable t body) (hrestated : Restated echo body body')
    (rounds : Nat) :
    InStep (Abreast u c false p p') (Past u c q q') (whileLoop job enter a rounds)
      (whileLoop job' enter' a' rounds) := by
  induction rounds generalizing p p' with
  | zero => exact inStep_throw _
  | succ rounds ih =>
    refine (inStep_condition henters hcond (.inl rfl) (.inl rfl) hat.condCode
      hat'.condCode).bind fun x => ?_
    cases x with
    | true =>
      exact (henters.stmts hbody hrestated (.inr hat.bodyLink)
        (.inr hat'.bodyLink) hat.bodyCode hat'.bodyCode).bind fun _ => inStep_after ih
    | false => exact inStep_leaving hat.endLink hat'.endLink

/-- Two `for` loops go round together, each with its own stretches. -/
theorem inStep_forLoop {cond : Expr} {post : Stmt} {body body' : List Stmt}
    {condAt postAt bodyAt condAt' postAt' bodyAt' : Nat}
    (hat : ForAt job t echo cond post body a condAt postAt bodyAt q)
    (hat' : ForAt job' t echo cond post body' a' condAt' postAt' bodyAt' q')
    (hcond : cond.Codable t) (hpost : post.CodableClause t)
    (hbody : Stmt.AllCodable t body) (hrestated : Restated echo body body')
    (rounds : Nat) :
    InStep (Abreast u c false p p') (Past u c q q') (forLoop job enter a rounds)
      (forLoop job' enter' a' rounds) := by
  induction rounds generalizing p p' with
  | zero => exact inStep_throw _
  | succ rounds ih =>
    refine (inStep_condition henters hcond (.inr hat.condLink)
      (.inr hat'.condLink) hat.condCode hat'.condCode).bind fun x => ?_
    cases x with
    | true =>
      refine (henters.stmts hbody hrestated (.inr hat.bodyLink)
        (.inr hat'.bodyLink) hat.bodyCode hat'.bodyCode).bind fun _ => inStep_after ?_
      exact (henters.clause hpost (.inr hat.postLink) (.inr hat'.postLink) hat.postCode
        hat'.postCode).bind fun _ => inStep_pop.bind fun _ => ih
    | false => exact inStep_leaving hat.endLink hat'.endLink

/-- A `for` loop and a `while` loop whose body ends with the last clause go
round together. -/
theorem inStep_forLoop_whileLoop {cond : Expr} {post : Stmt} {body body' : List Stmt}
    {condAt postAt bodyAt b' : Nat}
    (hat : ForAt job t false cond post body a condAt postAt bodyAt q)
    (hat' : WhileAt job' t false cond (body' ++ [post]) a' b' q') (hcond : cond.Codable t)
    (hpost : post.CodableClause t) (hbody : Stmt.AllCodable t body)
    (hrestated : Restated false body body') (rounds : Nat) :
    InStep (Abreast u c false p p') (Past u c q q') (forLoop job enter a rounds)
      (whileLoop job' enter' a' rounds) := by
  induction rounds generalizing p p' with
  | zero => exact inStep_throw _
  | succ rounds ih =>
    refine (inStep_condition henters hcond (.inr hat.condLink) (.inl rfl) hat.condCode
      hat'.condCode).bind fun x => ?_
    cases x with
    | true =>
      exact henters.round hbody hpost hrestated (.inr hat.bodyLink) (.inr hat.postLink)
        (.inr hat'.bodyLink) hat.bodyCode hat.postCode hat'.bodyCode ih
    | false => exact inStep_leaving hat.endLink hat'.endLink

/-- A condition, given what its other branch does. -/
theorem inStep_branch {cond : Expr} {body body' : List Stmt} {thenAt thenAt' : Nat}
    (hat : BranchAt job t echo cond body a thenAt q)
    (hat' : BranchAt job' t echo cond body' a' thenAt' q') (hcond : cond.Codable t)
    (hbody : Stmt.AllCodable t body) (hrestated : Restated echo body body')
    (hother : ∀ p p', ∃ r r', InStep (Abreast u c false p p') (Past u c r r')
      (if isLinked job (a + 1) then enter (a + 1) else pure ())
      (if isLinked job' (a' + 1) then enter' (a' + 1) else pure ())) :
    InStep (Abreast u c false p p') (Past u c q q') (branch job enter a)
      (branch job' enter' a') := by
  refine (inStep_condition henters hcond (.inl rfl) (.inl rfl) hat.condCode
    hat'.condCode).bind fun x => ?_
  cases x with
  | true =>
    exact (henters.stmts hbody hrestated (.inr hat.thenLink)
      (.inr hat'.thenLink) hat.thenCode hat'.thenCode).bind fun _ =>
        inStep_after (inStep_leaving hat.endLink hat'.endLink)
  | false =>
    obtain ⟨r, r', hr⟩ := hother (a + 3 + cond.size) (a' + 3 + cond.size)
    have hbranch := hr.bind fun _ =>
      inStep_after (inStep_leaving hat.endLink hat'.endLink)
    cases hlinked : isLinked job (a + 1) <;> cases hlinked' : isLinked job' (a' + 1) <;>
      rw [hlinked, hlinked'] at hbranch <;> exact hbranch

end

/-! ### Statements -/

/-- A stretch of cells that may end with a return, and what follows it. -/
theorem inStep_past_add {k l k' l' : Nat}
    (h : InStep P (Past u c p p') (advance job enter fuel k)
      (advance job' enter' fuel k'))
    (hnext : InStep (Abreast u c false p p') Q (advance job enter fuel l)
      (advance job' enter' fuel l'))
    (hleft : ∀ m m', Left u c m m' → Q m m') :
    InStep P Q (advance job enter fuel (k + l)) (advance job' enter' fuel (k' + l')) := by
  refine inStep_advance_add h (hnext.or fun m m' hm => ?_)
  -- behind a return no cell is run
  obtain ⟨hr, hr'⟩ := hm.under_way
  rw [advance_of_cell_false (cell_of_returning hr),
    advance_of_cell_false (cell_of_returning hr')]
  exact .ok (hleft m m' hm)

/-- A statement, what it is restated as, and the statements that follow both. -/
theorem inStep_cons {s s' : Stmt} {ss ss' : List Stmt}
    (hs : InStep (Abreast u c false a a') (Past u c (a + s.size) (a' + s'.size))
      (advance job enter fuel s.steps) (advance job' enter' fuel s'.steps))
    (hss : InStep (Abreast u c false (a + s.size) (a' + s'.size))
      (Past u c (a + s.size + Stmt.sizes ss) (a' + s'.size + Stmt.sizes ss'))
      (advance job enter fuel (Stmt.stepsAll ss))
      (advance job' enter' fuel (Stmt.stepsAll ss'))) :
    InStep (Abreast u c false a a')
      (Past u c (a + Stmt.sizes (s :: ss)) (a' + Stmt.sizes (s' :: ss')))
      (advance job enter fuel (Stmt.stepsAll (s :: ss)))
      (advance job' enter' fuel (Stmt.stepsAll (s' :: ss'))) := by
  rw [Stmt.sizes, Stmt.sizes, ← Nat.add_assoc, ← Nat.add_assoc]
  exact inStep_past_add hs hss fun _ _ => .inr

/-- Dropping a value does not touch the flag for interrupts. -/
theorem leaves_interrupted_pop :
    Action.Leaves Machine.interrupted (pop >>= fun _ => pure ()) := by
  refine Action.Leaves.bind (Action.Leaves.bind (fun m => ?_) fun _ _ => rfl) fun _ _ =>
    rfl
  rw [onStack]
  cases Stack.pop m.stack <;> rfl

/-- The value of a clause is dropped by the loop, and for the second machine by
a cell of its own. -/
theorem inStep_drop_right (hpop : job'.cells[p']? = some (Layout.plain .pop)) :
    InStep (Calm (Abreast u c false p p')) (Calm (Abreast u c false p (p' + 1)))
      (pop >>= fun _ => pure ()) (advance job' enter' fuel 1) :=
  (inStep_op_right hpop (inStep_pop.bind fun _ => inStep_pure ())).calm
    leaves_interrupted_pop

section

variable (hcalls : CallsInStep u job job' enter enter')
  (henters : EntersInStep u job job' enter enter' fuel)

include henters

/-- The code of a `for` loop, and that of its first clause and a `while` loop. -/
theorem inStep_restatedLoop {init : Stmt} {cond : Expr} {post : Stmt}
    {body body' : List Stmt} (hs : (Stmt.forLoop init cond post body).Codable t)
    (hrestated : Restated false body body')
    (h : Holds job.cells a (Layout.stmt t false a (.forLoop init cond post body)))
    (hfirst : Holds job'.cells a' (Layout.stmt t false a' init))
    (hloop : Holds job'.cells (a' + init.size)
      (Layout.stmt t false (a' + init.size) (.whileLoop cond (body' ++ [post])))) :
    InStep (Abreast u c false a a')
      (Past u c (a + (Stmt.forLoop init cond post body).size)
        (a' + init.size + (Stmt.whileLoop cond (body' ++ [post])).size))
      (advance job enter fuel 1) (advance job' enter' fuel (init.steps + 1)) := by
  obtain ⟨hinit, hcond, hpost, hbody⟩ := hs
  obtain ⟨hop, hinitCode, _, _, _, hat⟩ := forAt_of_holds h
  obtain ⟨hop', hat'⟩ := whileAt_of_holds hloop
  obtain ⟨hcode, hsize, hsteps⟩ := hinit.asStmt a'
  rw [hcode, holds_append, Layout.length_clause] at hfirst
  rw [hsize] at hop' hat' ⊢
  obtain ⟨hclause, hpop, -⟩ := hfirst
  -- behind the first clause the two loops go round together
  have hrounds : InStep
      (Calm (Abreast u c false (a + 5 + init.clauseSize) (a' + init.clauseSize + 1)))
      (Past u c (a + (Stmt.forLoop init cond post body).size)
        (a' + (init.clauseSize + 1) + (Stmt.whileLoop cond (body' ++ [post])).size))
      (forLoop job enter (a + 1) fuel) (advance job' enter' fuel 1) :=
    inStep_op_right hop' (inStep_pc_right (fun a => whileLoop job' enter' a fuel)
      (inStep_forLoop_whileLoop henters hat hat' hcond hpost hbody hrestated fuel))
  -- the first clause is a stretch of its own on the left, and a statement on
  -- the right
  have hall : InStep (Abreast u c false (a + 1) a') _
      (enter (a + 5) >>= fun _ => (pop >>= fun _ => pure ()) >>=
        fun _ => forLoop job enter (a + 1) fuel)
      (advance job' enter' fuel init.clauseSteps >>=
        fun _ => advance job' enter' fuel 1 >>= fun _ =>
        advance job' enter' fuel 1) :=
    (henters.first hinit (.inl rfl) hinitCode hclause).bind fun _ =>
      (inStep_drop_right hpop).bind fun _ => hrounds
  simp only [bind_assoc, pure_bind, ← advance_add] at hall
  rw [hsteps, Nat.add_assoc init.clauseSteps]
  exact inStep_op_left hop (inStep_pc_left
    (fun a => enter (a + 4) >>= fun _ => pop >>= fun _ => forLoop job enter a fuel)
    hall).of_calm

include hcalls

/-- The code of statements, and that of the restated ones. -/
theorem inStep_stmts {ss ss' : List Stmt} (hrestated : Restated echo ss ss')
    (hss : Stmt.AllCodable t ss) (h : Holds job.cells a (Layout.stmts t echo a ss))
    (h' : Holds job'.cells a' (Layout.stmts t echo a' ss')) :
    InStep (Abreast u c false a a') (Past u c (a + Stmt.sizes ss) (a' + Stmt.sizes ss'))
      (advance job enter fuel (Stmt.stepsAll ss))
      (advance job' enter' fuel (Stmt.stepsAll ss')) := by
  induction hrestated generalizing a a' with
  | nil => exact .past (inStep_pure ())
  | simple hsimple _ ih =>
    rw [Layout.stmts, holds_append, Layout.length_stmt] at h h'
    exact inStep_cons (inStep_simple hcalls hsimple hss.1 h.1 h'.1) (ih hss.2 h.2 h'.2)
  | whileLoop cond hbody _ _ ih =>
    rw [Layout.stmts, holds_append, Layout.length_stmt] at h h'
    obtain ⟨hop, hat⟩ := whileAt_of_holds h.1
    obtain ⟨hop', hat'⟩ := whileAt_of_holds h'.1
    refine inStep_cons
      (inStep_op hop hop' (inStep_pc (fun a => Exec.whileLoop job enter a fuel)
        (fun a => Exec.whileLoop job' enter' a fuel) ?_)) (ih hss.2 h.2 h'.2)
    exact inStep_whileLoop henters hat hat' hss.1.1 hss.1.2 hbody fuel
  | forLoop init cond post hbody _ _ ih =>
    rw [Layout.stmts, holds_append, Layout.length_stmt] at h h'
    obtain ⟨hinit, hcond, hpost, hbodyWell⟩ := hss.1
    obtain ⟨hop, hinitCode, _, _, _, hat⟩ := forAt_of_holds h.1
    obtain ⟨hop', hinitCode', _, _, _, hat'⟩ := forAt_of_holds h'.1
    refine inStep_cons (inStep_op hop hop' (inStep_pc
      (fun a => enter (a + 4) >>= fun _ => pop >>= fun _ => Exec.forLoop job enter a fuel)
      (fun a => enter' (a + 4) >>= fun _ => pop >>=
        fun _ => Exec.forLoop job' enter' a fuel) ?_))
      (ih hss.2 h.2 h'.2)
    exact (henters.clause hinit (.inl rfl) (.inl rfl) hinitCode hinitCode').bind fun _ =>
      inStep_pop.bind fun _ =>
        inStep_forLoop henters hat hat' hcond hpost hbodyWell hbody fuel
  | ifThen cond hbody _ _ ih =>
    rw [Layout.stmts, holds_append, Layout.length_stmt] at h h'
    obtain ⟨hop, hnone, hat⟩ := branchAt_of_holds_ifThen h.1
    obtain ⟨hop', hnone', hat'⟩ := branchAt_of_holds_ifThen h'.1
    refine inStep_cons (inStep_op hop hop' (inStep_pc _ _
      (inStep_branch henters hat hat' hss.1.1 hss.1.2 hbody fun p p' => ⟨p, p', ?_⟩)))
      (ih hss.2 h.2 h'.2)
    -- without a second branch its slot is a stop, and nothing is entered
    have hlinked : isLinked job (a + 1 + 1) = false := by rw [isLinked, hnone]
    have hlinked' : isLinked job' (a' + 1 + 1) = false := by rw [isLinked, hnone']
    rw [hlinked, hlinked']
    exact .past (inStep_pure ())
  | @ifElse cond _ _ other other' _ _ hbody hother _ _ _ ih =>
    rw [Layout.stmts, holds_append, Layout.length_stmt] at h h'
    obtain ⟨hop, hat, elseAt, helse, helseCode⟩ := branchAt_of_holds_ifElse h.1
    obtain ⟨hop', hat', elseAt', helse', helseCode'⟩ := branchAt_of_holds_ifElse h'.1
    refine inStep_cons
      (inStep_op hop hop'
        (inStep_pc _ _ (inStep_branch henters hat hat' hss.1.1 hss.1.2.1 hbody fun p p' =>
          ⟨elseAt + Stmt.sizes other, elseAt' + Stmt.sizes other', ?_⟩)))
      (ih hss.2 h.2 h'.2)
    have hlinked : isLinked job (a + 1 + 1) = true := by rw [isLinked, helse]
    have hlinked' : isLinked job' (a' + 1 + 1) = true := by rw [isLinked, helse']
    rw [hlinked, hlinked']
    exact henters.stmts hss.1.2.2 hother (.inr helse) (.inr helse') helseCode helseCode'
  | define => exact hss.1.elim
  | loop hecho init cond post hbody _ _ ih =>
    subst hecho
    rw [Layout.stmts, holds_append, Layout.length_stmt] at h h'
    rw [Layout.stmts, holds_append, Layout.length_stmt] at h'
    obtain ⟨hfirst, hloop, hrest⟩ := h'
    rw [Stmt.sizes, Stmt.sizes, Stmt.sizes, ← Nat.add_assoc, ← Nat.add_assoc,
      ← Nat.add_assoc, Stmt.stepsAll, Stmt.stepsAll, Stmt.stepsAll, ← Nat.add_assoc]
    exact inStep_past_add (inStep_restatedLoop henters hss.1 hbody h.1 hfirst hloop)
      (ih hss.2 h.2 hrest) fun _ _ => .inr

/-- The code of bodies leaves the call. -/
theorem inStep_body {ss ss' : List Stmt} (hrestated : Restated echo ss ss')
    (hss : Stmt.AllCodable t ss) (h : Holds job.cells a (Layout.body t echo a ss))
    (h' : Holds job'.cells a' (Layout.body t echo a' ss')) :
    InStep (Abreast u c false a a') (Left u c)
      (advance job enter fuel (Stmt.stepsAll ss + 1))
      (advance job' enter' fuel (Stmt.stepsAll ss' + 1)) := by
  rw [Layout.body, holds_append, Layout.length_stmts] at h h'
  exact inStep_past_add (inStep_stmts hcalls henters hrestated hss h.1 h'.1)
    (inStep_op h.2.1 h'.2.1 inStep_returnNothing) fun _ _ hm => hm

end

end Exec

end StackCalc
