import StackCalc.Code.Generator
import StackCalc.Proofs.Tree.Parts

/-!
# The layout of code

An assembler in two passes. The first computes how many cells each part of a
tree takes; the second writes the cells of a part at a given address, with every
address of a `WHILE`, `FOR` or `IF` written at once, because the sizes say where
each stretch starts.

- `Expr.size`, `Stmt.size`, `footprint`: the first pass.
- `Layout.expr`, `Layout.stmts`, `Layout.regions`: the second pass.
- `Holds`: what it means that code stands at an address of a row of cells.

An operator that stands for no operation, and a text where none may stand, get a
stop; no tree read from a source text has one.
-/

namespace StackCalc

/-! ### Sizes -/

mutual

/-- The number of cells of an expression. -/
def Expr.size : Expr → Nat
  | .literal _ => 2
  | .variable _ => 3
  | .text _ => 1
  | .binary _ lhs rhs => lhs.size + rhs.size + 1
  | .unary _ e => e.size + 1
  | .builtin _ e => e.size + 2
  | .step _ _ => 2
  | .call _ es => Expr.sizes es + 3
  | .arg _ => 2
  | .read _ => 2

/-- The number of cells of several expressions. -/
def Expr.sizes : List Expr → Nat
  | [] => 0
  | e :: es => e.size + Expr.sizes es

end

/-- The number of cells of an item of a print statement. -/
def Expr.itemSize : Expr → Nat
  | .text _ => 2
  | e => e.size + 1

/-- The number of cells of the items of a print statement. -/
def Expr.itemSizes : List Expr → Nat
  | [] => 0
  | e :: es => e.itemSize + Expr.itemSizes es

/-- The number of cells of a statement that leaves its value. -/
def Stmt.clauseSize : Stmt → Nat
  | .assign _ _ e => e.size + 3
  | .argAssign _ e => e.size + 2
  | .expr e => e.size
  | _ => 1

mutual

/-- The number of cells of a statement. -/
def Stmt.size : Stmt → Nat
  | .assign _ _ e => e.size + 4
  | .argAssign _ e => e.size + 3
  | .print items => Expr.itemSizes items
  | .whileLoop cond body => cond.size + Stmt.sizes body + 5
  | .forLoop init cond post body =>
    init.clauseSize + cond.size + post.clauseSize + Stmt.sizes body + 9
  | .ifThen cond body => cond.size + Stmt.sizes body + 6
  | .ifElse cond body other => cond.size + Stmt.sizes body + Stmt.sizes other + 7
  | .expr e => e.size + 1
  | .call _ es => Expr.sizes es + 3
  | .returnValue e => e.size + 1
  | .returnNothing => 1
  | .define _ _ _ => 1

/-- The number of cells of several statements. -/
def Stmt.sizes : List Stmt → Nat
  | [] => 0
  | s :: ss => s.size + Stmt.sizes ss

end

/-- The number of cells that a definition seals: its body, a return and a stop. -/
def Stmt.regionSize : Stmt → Nat
  | .define _ _ body => Stmt.sizes body + 2
  | _ => 0

/-- The number of cells that several definitions seal. -/
def Stmt.regionSizes : List Stmt → Nat
  | [] => 0
  | d :: ds => d.regionSize + Stmt.regionSizes ds

/-- The number of cells of a program: the regions of its definitions, its other
statements, a stop. -/
def footprint (program : List Stmt) : Nat :=
  Stmt.regionSizes (definitionPart program) + Stmt.sizes (mainPart program) + 1

/-- The parts that the generator picks take these cells. -/
theorem footprint_eq (program : List Stmt) : footprint program =
    Stmt.regionSizes (definitions program) + Stmt.sizes (topLevel program) + 1 := by
  rw [footprint, definitionPart_eq, mainPart_eq]

/-! ### Cells -/

namespace Layout

/-- The cell of an instruction. -/
def plain (i : Instruction) : Cell :=
  .op (.plain i)

/-- The cells of a call behind the code of its arguments. -/
def callCells (id count : Nat) : List Cell :=
  [.op (.control .call), .symbol id, .count count]

section

variable (t : SymbolTable)

mutual

/-- The cells of an expression. -/
def expr : Expr → List Cell
  | .literal id => [plain .constPush, .number (t.get id).value]
  | .variable id => [plain .varPush, .symbol id, plain .eval]
  | .text _ => [.stop]
  | .binary op lhs rhs =>
    expr lhs ++ expr rhs ++ [(op.binaryOp?.map fun o => plain (.binary o)).getD .stop]
  | .unary op e => expr e ++ [(op.unaryOp?.map plain).getD .stop]
  | .builtin id e => expr e ++ [plain .builtin, .symbol id]
  | .step how id => [plain (.step how), .symbol id]
  | .call id es => exprs es ++ callCells id es.length
  | .arg n => [plain .arg, .count n]
  | .read id => [plain .read, .symbol id]

/-- The cells of several expressions. -/
def exprs : List Expr → List Cell
  | [] => []
  | e :: es => expr e ++ exprs es

end

/-- The cells of a statement that leaves its value. -/
def clause : Stmt → List Cell
  | .assign op id e =>
    expr t e ++
      [plain .varPush, .symbol id,
        (op.assignOp?.map fun o => plain (.assign o)).getD .stop]
  | .argAssign n e => expr t e ++ [plain .argAssign, .count n]
  | .expr e => expr t e
  | _ => [.stop]

/-- The cells of an item of a print statement. -/
def printItem : Expr → List Cell
  | .text id => [plain .printText, .text ((t.get id).text.getD "")]
  | e => expr t e ++ [plain .printValue]

/-- The cells of the items of a print statement. -/
def printItems : List Expr → List Cell
  | [] => []
  | e :: es => printItem t e ++ printItems es

/-- How an expression statement ends: it shows its value or drops it. -/
def ending (echo : Bool) : Cell :=
  plain (if echo then .printTop else .pop)

variable (echo : Bool)

mutual

/-- The cells of a statement at the address `a`. -/
def stmt (a : Nat) : Stmt → List Cell
  | .assign op id e => clause t (.assign op id e) ++ [plain .pop]
  | .argAssign n e => clause t (.argAssign n e) ++ [plain .pop]
  | .print items => printItems t items
  | .whileLoop cond body =>
    let bodyAt := a + 3 + cond.size + 1
    let endAt := bodyAt + Stmt.sizes body + 1
    [.op (.control .whileLoop), .address bodyAt, .address endAt] ++
      expr t cond ++ [.stop] ++
      stmts bodyAt body ++ [.stop]
  | .forLoop init cond post body =>
    let condAt := a + 5 + init.clauseSize + 1
    let postAt := condAt + cond.size + 1
    let bodyAt := postAt + post.clauseSize + 1
    let endAt := bodyAt + Stmt.sizes body + 1
    [.op (.control .forLoop), .address condAt, .address postAt, .address bodyAt,
      .address endAt] ++
      clause t init ++ [.stop] ++ expr t cond ++ [.stop] ++ clause t post ++ [.stop] ++
      stmts bodyAt body ++ [.stop]
  | .ifThen cond body =>
    let thenAt := a + 4 + cond.size + 1
    let endAt := thenAt + Stmt.sizes body + 1
    [.op (.control .branch), .address thenAt, .stop, .address endAt] ++
      expr t cond ++ [.stop] ++
      stmts thenAt body ++ [.stop]
  | .ifElse cond body other =>
    let thenAt := a + 4 + cond.size + 1
    let elseAt := thenAt + Stmt.sizes body + 1
    let endAt := elseAt + Stmt.sizes other + 1
    [.op (.control .branch), .address thenAt, .address elseAt, .address endAt] ++
      expr t cond ++
      [.stop] ++ stmts thenAt body ++ [.stop] ++ stmts elseAt other ++ [.stop]
  | .expr e => expr t e ++ [ending echo]
  | .call id es => exprs t es ++ callCells id es.length
  | .returnValue e => expr t e ++ [plain .returnValue]
  | .returnNothing => [plain .returnNothing]
  | .define _ _ _ => [.stop]

/-- The cells of several statements at the address `a`. -/
def stmts (a : Nat) : List Stmt → List Cell
  | [] => []
  | s :: ss => stmt a s ++ stmts (a + s.size) ss

end

/-- The cells of the body of a definition at the address `a`. -/
def body (a : Nat) (ss : List Stmt) : List Cell :=
  stmts t echo a ss ++ [plain .returnNothing, .stop]

/-- The region of a definition at the address `a`. -/
def region (a : Nat) : Stmt → List Cell
  | .define _ _ ss => body t echo a ss
  | _ => []

/-- The regions of definitions that follow each other from the address `a`, each
with its address. -/
def regionsFrom (a : Nat) : List Stmt → List (Nat × List Cell)
  | [] => []
  | d :: ds => (a, region t echo a d) :: regionsFrom (a + d.regionSize) ds

/-- The cells of the statements of a program outside its definitions. -/
def main (a : Nat) (program : List Stmt) : List Cell :=
  stmts t echo a (mainPart program) ++ [.stop]

/-- The regions of a program whose code starts at `base`: those of its
definitions in their order, then that of its other statements. -/
def regions (base : Nat) (program : List Stmt) : List (Nat × List Cell) :=
  let entry := base + Stmt.regionSizes (definitionPart program)
  regionsFrom t echo base (definitionPart program) ++ [(entry, main t echo entry program)]

end

/-- The symbols of definitions that follow each other from the address `a`, each
with the address of its region. -/
def starts (a : Nat) : List Stmt → List (Nat × Nat)
  | [] => []
  | .define _ id ss :: ds => (id, a) :: starts (a + Stmt.sizes ss + 2) ds
  | _ :: ds => starts a ds

/-! ### The sizes are right -/

section

variable (t : SymbolTable)

mutual

/-- The first pass says how many cells the second one writes for an expression. -/
theorem length_expr : ∀ e : Expr, (expr t e).length = e.size
  | .literal _ => rfl
  | .variable _ => rfl
  | .text _ => rfl
  | .binary _ lhs rhs => by
    simp [expr, Expr.size, length_expr lhs, length_expr rhs, Nat.add_assoc]
  | .unary _ e => by simp [expr, Expr.size, length_expr e]
  | .builtin _ e => by simp [expr, Expr.size, length_expr e]
  | .step _ _ => rfl
  | .call _ es => by simp [expr, Expr.size, callCells, length_exprs es]
  | .arg _ => rfl
  | .read _ => rfl

theorem length_exprs : ∀ es : List Expr, (exprs t es).length = Expr.sizes es
  | [] => rfl
  | e :: es => by simp [exprs, Expr.sizes, length_expr e, length_exprs es]

end

theorem length_clause : ∀ s : Stmt, (clause t s).length = s.clauseSize
  | .assign _ _ e => by simp [clause, Stmt.clauseSize, length_expr]
  | .argAssign _ e => by simp [clause, Stmt.clauseSize, length_expr]
  | .expr e => length_expr t e
  | .print _ | .whileLoop _ _ | .forLoop _ _ _ _ | .ifThen _ _ | .ifElse _ _ _ | .call _ _
  | .returnValue _ | .returnNothing | .define _ _ _ => rfl

theorem length_printItem (e : Expr) : (printItem t e).length = e.itemSize := by
  cases e <;> simp [printItem, Expr.itemSize, length_expr]

theorem length_printItems : ∀ es : List Expr, (printItems t es).length = Expr.itemSizes es
  | [] => rfl
  | e :: es => by
    simp [printItems, Expr.itemSizes, length_printItem, length_printItems es]

variable (echo : Bool)

mutual

/-- The first pass says how many cells the second one writes for a statement,
wherever it stands. So the addresses in the second pass are right. -/
theorem length_stmt (a : Nat) : ∀ s : Stmt, (stmt t echo a s).length = s.size
  | .assign _ _ e => by simp [stmt, Stmt.size, length_clause, Stmt.clauseSize]
  | .argAssign _ e => by simp [stmt, Stmt.size, length_clause, Stmt.clauseSize]
  | .print items => length_printItems t items
  | .whileLoop cond body => by
    simp only [stmt, Stmt.size, List.length_append, List.length_cons, List.length_nil,
      length_expr, length_stmts _ body]
    omega
  | .forLoop init cond post body => by
    simp only [stmt, Stmt.size, List.length_append, List.length_cons, List.length_nil,
      length_expr, length_clause, length_stmts _ body]
    omega
  | .ifThen cond body => by
    simp only [stmt, Stmt.size, List.length_append, List.length_cons, List.length_nil,
      length_expr, length_stmts _ body]
    omega
  | .ifElse cond body other => by
    simp only [stmt, Stmt.size, List.length_append, List.length_cons, List.length_nil,
      length_expr, length_stmts _ body, length_stmts _ other]
    omega
  | .expr e => by simp [stmt, Stmt.size, length_expr]
  | .call _ es => by simp [stmt, Stmt.size, callCells, length_exprs]
  | .returnValue e => by simp [stmt, Stmt.size, length_expr]
  | .returnNothing => rfl
  | .define _ _ _ => rfl

theorem length_stmts (a : Nat) :
    ∀ ss : List Stmt, (stmts t echo a ss).length = Stmt.sizes ss
  | [] => rfl
  | s :: ss => by simp [stmts, Stmt.sizes, length_stmt a s, length_stmts _ ss]

end

/-- Statements that follow others start behind them. -/
theorem stmts_append (a : Nat) (ss ss' : List Stmt) :
    stmts t echo a (ss ++ ss') = stmts t echo a ss ++
      stmts t echo (a + Stmt.sizes ss) ss' := by
  induction ss generalizing a with
  | nil => rfl
  | cons s ss ih =>
    rw [List.cons_append, stmts, stmts, ih, Stmt.sizes, List.append_assoc, Nat.add_assoc]

theorem length_body (a : Nat) (ss : List Stmt) :
    (body t echo a ss).length = Stmt.sizes ss + 2 := by
  simp [body, length_stmts]

theorem length_region (a : Nat) (d : Stmt) :
    (region t echo a d).length = d.regionSize := by
  cases d with
  | define kind id ss => exact length_body t echo a ss
  | _ => rfl

/-- The cells of the statements that the generator picks. -/
theorem main_eq (a : Nat) (program : List Stmt) :
    main t echo a program = stmts t echo a (topLevel program) ++ [.stop] := by
  rw [main, mainPart_eq]

theorem length_main (a : Nat) (program : List Stmt) :
    (main t echo a program).length = Stmt.sizes (topLevel program) + 1 := by
  simp [main_eq, length_stmts]

end

end Layout

/-! ### Code at an address -/

/-- The row of cells holds `code` from the address `a` on. -/
def Holds (cells : Array Cell) : Nat → List Cell → Prop
  | _, [] => True
  | a, c :: cs => cells[a]? = some c ∧ Holds cells (a + 1) cs

instance decidableHolds (cells : Array Cell) : ∀ a code, Decidable (Holds cells a code)
  | _, [] => inferInstanceAs (Decidable True)
  | a, c :: cs =>
    have := decidableHolds cells (a + 1) cs
    inferInstanceAs (Decidable (cells[a]? = some c ∧ Holds cells (a + 1) cs))

@[simp] theorem holds_nil (cells : Array Cell) (a : Nat) : Holds cells a [] :=
  trivial

@[simp] theorem holds_cons (cells : Array Cell) (a : Nat) (c : Cell) (cs : List Cell) :
    Holds cells a (c :: cs) ↔ cells[a]? = some c ∧ Holds cells (a + 1) cs :=
  Iff.rfl

/-- Code in two parts stands at an address if the second part stands where the
first one ends. -/
@[simp] theorem holds_append (cells : Array Cell) (a : Nat) (xs ys : List Cell) :
    Holds cells a (xs ++ ys) ↔ Holds cells a xs ∧ Holds cells (a + xs.length) ys := by
  induction xs generalizing a with
  | nil => simp
  | cons c cs ih =>
    rw [List.cons_append, holds_cons, ih, holds_cons, List.length_cons, and_assoc,
      show a + 1 + cs.length = a + (cs.length + 1) by omega]

/-- A row that ends in `code` holds it. -/
theorem holds_end (cells : Array Cell) (code : List Cell) :
    Holds (cells ++ code.toArray) cells.size code := by
  induction code generalizing cells with
  | nil => trivial
  | cons c cs ih =>
    have hsplit : cells ++ (c :: cs).toArray = cells.push c ++ cs.toArray := by simp
    rw [hsplit]
    refine ⟨by simp, ?_⟩
    simpa using ih (cells.push c)

/-- Code that stands below an address stands in every row with the same cells
below it. -/
theorem Holds.congr {cells cells' : Array Cell} {a n : Nat} {code : List Cell}
    (h : Holds cells a code) (hn : a + code.length ≤ n)
    (heq : ∀ i < n, cells'[i]? = cells[i]?) : Holds cells' a code := by
  induction code generalizing a with
  | nil => trivial
  | cons c cs ih =>
    rw [List.length_cons] at hn
    refine ⟨?_, ih h.2 (by omega)⟩
    rw [heq a (by omega)]
    exact h.1

/-- Code that a row holds ends inside it. -/
theorem Holds.le_size {cells : Array Cell} {a : Nat} {code : List Cell}
    (h : Holds cells a code) (ha : a ≤ cells.size) : a + code.length ≤ cells.size := by
  induction code generalizing a with
  | nil => exact ha
  | cons c cs ih =>
    obtain ⟨hlt, -⟩ := Array.getElem?_eq_some_iff.mp h.1
    have := ih h.2 hlt
    rw [List.length_cons]
    omega

theorem Holds.length_le_size {cells : Array Cell} {a : Nat} {code : List Cell}
    (h : Holds cells a code) : code.length ≤ cells.size := by
  cases code with
  | nil => exact Nat.zero_le _
  | cons c cs =>
    obtain ⟨hlt, -⟩ := Array.getElem?_eq_some_iff.mp h.1
    have := h.le_size (by omega)
    omega

end StackCalc
