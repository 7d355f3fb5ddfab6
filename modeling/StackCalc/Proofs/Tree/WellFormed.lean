import StackCalc.Code.Generator
import StackCalc.Proofs.Symbol.Evolution

/-!
# Well-formed trees

The trees that have a meaning, and for which code can be generated. A tree is
well-formed for a symbol table: its places are in the table, number literals,
texts and built-in functions are entries of that sort, and operators have
operations. Arguments and returns stand inside definitions only, and definitions
at the top only.

A well-formed tree stays so while the table evolves (`Stmt.WellFormed.evolve`).
-/

namespace StackCalc

section

variable (t : SymbolTable) (inDefinition : Bool)

mutual

/-- An expression that has a meaning, inside a definition or not. -/
def Expr.WellFormed : Expr → Prop
  | .literal id => (t.get id).kind = .number
  | .variable id => id < t.size
  | .text _ => False
  | .binary op lhs rhs => op.binaryOp?.isSome ∧ lhs.WellFormed ∧ rhs.WellFormed
  | .unary op e => op.unaryOp?.isSome ∧ e.WellFormed
  | .builtin id e => (t.get id).kind = .builtin ∧ (t.get id).native.isSome ∧ e.WellFormed
  | .step _ id => id < t.size
  | .call id es => id < t.size ∧ Expr.AllWellFormed es
  | .arg n => inDefinition = true ∧ 0 < n
  | .read id => id < t.size

/-- Expressions that each have a meaning. -/
def Expr.AllWellFormed : List Expr → Prop
  | [] => True
  | e :: es => e.WellFormed ∧ Expr.AllWellFormed es

end

/-- An item of a print statement: a text, or an expression. -/
def Expr.Printable : Expr → Prop
  | .text id => id < t.size ∧ (t.get id).text.isSome
  | e => e.WellFormed t inDefinition

/-- A statement that leaves its value: an assignment or an expression. -/
def Stmt.IsClause : Stmt → Prop
  | .assign op id e => op.assignOp?.isSome ∧ id < t.size ∧ e.WellFormed t inDefinition
  | .argAssign n e => inDefinition = true ∧ 0 < n ∧ e.WellFormed t inDefinition
  | .expr e => e.WellFormed t inDefinition
  | _ => False

mutual

/-- A statement that has a meaning, inside a definition or not. -/
def Stmt.WellFormed : Stmt → Prop
  | .assign op id e => Stmt.IsClause t inDefinition (.assign op id e)
  | .argAssign n e => Stmt.IsClause t inDefinition (.argAssign n e)
  | .print items => ∀ e ∈ items, Expr.Printable t inDefinition e
  | .whileLoop cond body => cond.WellFormed t inDefinition ∧ Stmt.AllWellFormed body
  | .forLoop init cond post body =>
    Stmt.IsClause t inDefinition init ∧ cond.WellFormed t inDefinition ∧
      Stmt.IsClause t inDefinition post ∧ Stmt.AllWellFormed body
  | .ifThen cond body => cond.WellFormed t inDefinition ∧ Stmt.AllWellFormed body
  | .ifElse cond body other =>
    cond.WellFormed t inDefinition ∧ Stmt.AllWellFormed body ∧ Stmt.AllWellFormed other
  | .expr e => e.WellFormed t inDefinition
  | .call id es => id < t.size ∧ Expr.AllWellFormed t inDefinition es
  | .returnValue e => inDefinition = true ∧ e.WellFormed t inDefinition
  | .returnNothing => inDefinition = true
  | .define _ _ _ => False

/-- Statements that each have a meaning. -/
def Stmt.AllWellFormed : List Stmt → Prop
  | [] => True
  | s :: ss => s.WellFormed ∧ Stmt.AllWellFormed ss

end

end

/-- A part of a program: a definition whose body has a meaning inside a
definition, or a statement that has one outside. -/
def Stmt.IsTopLevel (t : SymbolTable) : Stmt → Prop
  | .define _ id body => id < t.size ∧ Stmt.AllWellFormed t true body
  | s => s.WellFormed t false

/-! ### Lists -/

section

variable {t : SymbolTable} {inDefinition : Bool}

theorem Stmt.allWellFormed_iff {ss : List Stmt} :
    Stmt.AllWellFormed t inDefinition ss ↔ ∀ s ∈ ss, s.WellFormed t inDefinition := by
  induction ss with
  | nil => simp [Stmt.AllWellFormed]
  | cons s ss ih => simp [Stmt.AllWellFormed, ih]

theorem Stmt.AllWellFormed.append {ss ss' : List Stmt}
    (h : Stmt.AllWellFormed t inDefinition ss)
    (h' : Stmt.AllWellFormed t inDefinition ss') :
    Stmt.AllWellFormed t inDefinition (ss ++ ss') :=
  Stmt.allWellFormed_iff.mpr (List.forall_mem_append.mpr
    ⟨Stmt.allWellFormed_iff.mp h, Stmt.allWellFormed_iff.mp h'⟩)

theorem Expr.WellFormed.printable {e : Expr} (h : e.WellFormed t inDefinition) :
    e.Printable t inDefinition := by
  cases e with
  | text id => exact h.elim
  | _ => exact h

theorem Stmt.IsClause.wellFormed {s : Stmt} (h : s.IsClause t inDefinition) :
    s.WellFormed t inDefinition := by
  cases s with
  | assign op id e => exact h
  | argAssign n e => exact h
  | expr e => exact h
  | _ => exact h.elim

theorem Stmt.WellFormed.isTopLevel {s : Stmt} (h : s.WellFormed t false) :
    s.IsTopLevel t := by
  cases s with
  | define kind id body => exact h.elim
  | _ => exact h

/-! ### Evolution -/

variable {t' : SymbolTable}

mutual

/-- An expression keeps its meaning: places stay, and literals and built-in
functions stay what they are. -/
theorem Expr.WellFormed.evolve (h : t.Evolves t') :
    ∀ {e : Expr}, e.WellFormed t inDefinition → e.WellFormed t' inDefinition
  | .literal _, hw => (h.number hw).1
  | .variable _, hw => Nat.lt_of_lt_of_le hw h.size_le
  | .binary _ _ _, ⟨hop, hl, hr⟩ => ⟨hop, hl.evolve h, hr.evolve h⟩
  | .unary _ _, ⟨hop, he⟩ => ⟨hop, he.evolve h⟩
  | .builtin id _, ⟨hk, hn, he⟩ => by
    -- only entries in the table keep their operation
    have hlt : id < t.size := SymbolTable.lt_size_of_kind (by rw [hk]; decide)
    refine ⟨h.builtin hk, ?_, he.evolve h⟩
    rw [h.native hlt]
    exact hn
  | .step _ _, hw => Nat.lt_of_lt_of_le hw h.size_le
  | .call _ _, ⟨hid, hes⟩ =>
    ⟨Nat.lt_of_lt_of_le hid h.size_le, Expr.AllWellFormed.evolve h hes⟩
  | .arg _, hw => hw
  | .read _, hw => Nat.lt_of_lt_of_le hw h.size_le

theorem Expr.AllWellFormed.evolve (h : t.Evolves t') :
    ∀ {es : List Expr}, Expr.AllWellFormed t inDefinition es →
      Expr.AllWellFormed t' inDefinition es
  | [], _ => trivial
  | _ :: _, ⟨he, hes⟩ => ⟨he.evolve h, Expr.AllWellFormed.evolve h hes⟩

end

theorem Expr.Printable.evolve (h : t.Evolves t') {e : Expr}
    (hw : e.Printable t inDefinition) :
    e.Printable t' inDefinition := by
  cases e with
  | text id =>
    refine ⟨Nat.lt_of_lt_of_le hw.1 h.size_le, ?_⟩
    rw [h.text hw.1]
    exact hw.2
  | _ => exact Expr.WellFormed.evolve h hw

theorem Stmt.IsClause.evolve (h : t.Evolves t') {s : Stmt}
    (hw : s.IsClause t inDefinition) :
    s.IsClause t' inDefinition := by
  cases s with
  | assign op id e => exact ⟨hw.1, Nat.lt_of_lt_of_le hw.2.1 h.size_le, hw.2.2.evolve h⟩
  | argAssign n e => exact ⟨hw.1, hw.2.1, hw.2.2.evolve h⟩
  | expr e => exact Expr.WellFormed.evolve h hw
  | _ => exact hw.elim

mutual

/-- A statement keeps its meaning. -/
theorem Stmt.WellFormed.evolve (h : t.Evolves t') :
    ∀ {s : Stmt}, s.WellFormed t inDefinition → s.WellFormed t' inDefinition
  | .assign op id e, hw => Stmt.IsClause.evolve (s := .assign op id e) h hw
  | .argAssign n e, hw => Stmt.IsClause.evolve (s := .argAssign n e) h hw
  | .print _, hw => fun e he => (hw e he).evolve h
  | .whileLoop _ _, ⟨hc, hb⟩ => ⟨hc.evolve h, Stmt.AllWellFormed.evolve h hb⟩
  | .forLoop _ _ _ _, ⟨hi, hc, hp, hb⟩ =>
    ⟨hi.evolve h, hc.evolve h, hp.evolve h, Stmt.AllWellFormed.evolve h hb⟩
  | .ifThen _ _, ⟨hc, hb⟩ => ⟨hc.evolve h, Stmt.AllWellFormed.evolve h hb⟩
  | .ifElse _ _ _, ⟨hc, hb, ho⟩ =>
    ⟨hc.evolve h, Stmt.AllWellFormed.evolve h hb, Stmt.AllWellFormed.evolve h ho⟩
  | .expr _, hw => Expr.WellFormed.evolve h hw
  | .call _ _, ⟨hid, hes⟩ =>
    ⟨Nat.lt_of_lt_of_le hid h.size_le, Expr.AllWellFormed.evolve h hes⟩
  | .returnValue _, ⟨hd, he⟩ => ⟨hd, he.evolve h⟩
  | .returnNothing, hw => hw

theorem Stmt.AllWellFormed.evolve (h : t.Evolves t') :
    ∀ {ss : List Stmt}, Stmt.AllWellFormed t inDefinition ss →
      Stmt.AllWellFormed t' inDefinition ss
  | [], _ => trivial
  | _ :: _, ⟨hs, hss⟩ => ⟨hs.evolve h, Stmt.AllWellFormed.evolve h hss⟩

end

theorem Stmt.IsTopLevel.evolve (h : t.Evolves t') {s : Stmt} (hw : s.IsTopLevel t) :
    s.IsTopLevel t' := by
  cases s with
  | define kind id body =>
    exact ⟨Nat.lt_of_lt_of_le hw.1 h.size_le, Stmt.AllWellFormed.evolve h hw.2⟩
  | _ => exact Stmt.WellFormed.evolve h hw

end

end StackCalc
