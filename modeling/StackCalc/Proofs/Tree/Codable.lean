import StackCalc.Proofs.Tree.WellFormed

/-!
# Trees that code can be generated for

The generator refuses some trees that no source text yields: an operator that
stands for no operation, a text outside a print statement, a definition inside
another one. Other such trees it takes: a literal that is no number, an argument
outside a definition, a built-in function that is none. The trees that it takes,
with their places in the table, are codable. A well-formed tree is codable
(`Stmt.WellFormed.codable`).

What is codable is said for the table that the code is generated with. It stays
codable for that table, whatever becomes of its entries later.
-/

namespace StackCalc

section

variable (u : SymbolTable)

mutual

/-- An expression that code can be generated for. -/
def Expr.Codable : Expr → Prop
  | .literal _ => True
  | .variable id => id < u.size
  | .text _ => False
  | .binary op lhs rhs => op.binaryOp?.isSome ∧ lhs.Codable ∧ rhs.Codable
  | .unary op e => op.unaryOp?.isSome ∧ e.Codable
  | .builtin id e => id < u.size ∧ e.Codable
  | .step _ id => id < u.size
  | .call id es => id < u.size ∧ Expr.AllCodable es
  | .arg _ => True
  | .read id => id < u.size

/-- Expressions that code can be generated for. -/
def Expr.AllCodable : List Expr → Prop
  | [] => True
  | e :: es => e.Codable ∧ Expr.AllCodable es

end

/-- An item of a print statement that code can be generated for. -/
def Expr.CodableItem : Expr → Prop
  | .text id => (u.get id).text.isSome
  | e => e.Codable u

/-- A statement that code which leaves its value can be generated for. -/
def Stmt.CodableClause : Stmt → Prop
  | .assign op id e => op.assignOp?.isSome ∧ id < u.size ∧ e.Codable u
  | .argAssign _ e => e.Codable u
  | .expr e => e.Codable u
  | _ => False

mutual

/-- A statement that code can be generated for. -/
def Stmt.Codable : Stmt → Prop
  | .assign op id e => Stmt.CodableClause u (.assign op id e)
  | .argAssign n e => Stmt.CodableClause u (.argAssign n e)
  | .print items => ∀ e ∈ items, Expr.CodableItem u e
  | .whileLoop cond body => cond.Codable u ∧ Stmt.AllCodable body
  | .forLoop init cond post body =>
    Stmt.CodableClause u init ∧ cond.Codable u ∧ Stmt.CodableClause u post ∧
    Stmt.AllCodable body
  | .ifThen cond body => cond.Codable u ∧ Stmt.AllCodable body
  | .ifElse cond body other =>
    cond.Codable u ∧ Stmt.AllCodable body ∧ Stmt.AllCodable other
  | .expr e => e.Codable u
  | .call id es => id < u.size ∧ Expr.AllCodable u es
  | .returnValue e => e.Codable u
  | .returnNothing => True
  | .define _ _ _ => False

/-- Statements that code can be generated for. -/
def Stmt.AllCodable : List Stmt → Prop
  | [] => True
  | s :: ss => s.Codable ∧ Stmt.AllCodable ss

end

end

/-! ### What has a meaning is codable -/

section

variable {t : SymbolTable} {inDefinition : Bool}

mutual

/-- An expression that has a meaning is codable. -/
theorem Expr.WellFormed.codable : ∀ {e : Expr}, e.WellFormed t inDefinition → e.Codable t
  | .literal _, _ => trivial
  | .variable _, h => h
  | .binary _ _ _, ⟨hop, hl, hr⟩ => ⟨hop, hl.codable, hr.codable⟩
  | .unary _ e, ⟨hop, he⟩ => ⟨hop, Expr.WellFormed.codable (e := e) he⟩
  | .builtin _ _, ⟨hk, _, he⟩ =>
    ⟨SymbolTable.lt_size_of_kind (by rw [hk]; decide), he.codable⟩
  | .step _ _, h => h
  | .call _ _, ⟨hid, hes⟩ => ⟨hid, Expr.AllWellFormed.codable hes⟩
  | .arg _, _ => trivial
  | .read _, h => h

theorem Expr.AllWellFormed.codable :
    ∀ {es : List Expr}, Expr.AllWellFormed t inDefinition es → Expr.AllCodable t es
  | [], _ => trivial
  | _ :: _, ⟨he, hes⟩ => ⟨he.codable, Expr.AllWellFormed.codable hes⟩

end

theorem Expr.Printable.codable {e : Expr} (h : e.Printable t inDefinition) :
    e.CodableItem t := by
  cases e with
  | text id => exact h.2
  | _ =>
    have hexpr : Expr.WellFormed t inDefinition _ := h
    exact hexpr.codable

theorem Stmt.IsClause.codable {s : Stmt} (h : s.IsClause t inDefinition) :
    s.CodableClause t := by
  cases s with
  | assign op id e => exact ⟨h.1, h.2.1, h.2.2.codable⟩
  | argAssign n e => exact Expr.WellFormed.codable h.2.2
  | expr e => exact Expr.WellFormed.codable h
  | _ => exact h.elim

mutual

/-- So is a statement. -/
theorem Stmt.WellFormed.codable : ∀ {s : Stmt}, s.WellFormed t inDefinition → s.Codable t
  | .assign op id e, h => Stmt.IsClause.codable (s := .assign op id e) h
  | .argAssign n e, h => Stmt.IsClause.codable (s := .argAssign n e) h
  | .print _, h => fun e he => (h e he).codable
  | .whileLoop _ _, ⟨hc, hb⟩ => ⟨hc.codable, Stmt.AllWellFormed.codable hb⟩
  | .forLoop _ _ _ _, ⟨hi, hc, hp, hb⟩ =>
    ⟨hi.codable, hc.codable, hp.codable, Stmt.AllWellFormed.codable hb⟩
  | .ifThen _ _, ⟨hc, hb⟩ => ⟨hc.codable, Stmt.AllWellFormed.codable hb⟩
  | .ifElse _ _ _, ⟨hc, hb, ho⟩ =>
    ⟨hc.codable, Stmt.AllWellFormed.codable hb, Stmt.AllWellFormed.codable ho⟩
  | .expr _, h => Expr.WellFormed.codable h
  | .call _ _, ⟨hid, hes⟩ => ⟨hid, Expr.AllWellFormed.codable hes⟩
  | .returnValue e, h => Expr.WellFormed.codable (e := e) h.2
  | .returnNothing, _ => trivial

theorem Stmt.AllWellFormed.codable :
    ∀ {ss : List Stmt}, Stmt.AllWellFormed t inDefinition ss → Stmt.AllCodable t ss
  | [], _ => trivial
  | _ :: _, ⟨hs, hss⟩ => ⟨hs.codable, Stmt.AllWellFormed.codable hss⟩

end

end

end StackCalc
