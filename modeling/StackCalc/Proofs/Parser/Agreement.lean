import StackCalc.Proofs.Evaluation.Balance
import StackCalc.Proofs.Parser.Unparse

/-!
# Calls agree when they are read

A call in an expression is read as such because its name is that of a function,
and a call statement because its name is that of a procedure. Statements define
nothing, so while a text without definitions is read these kinds stay as they
are, and at its end all of its calls agree with what they call
(`Stmt.allAgree_of_readsAll`).
-/

namespace StackCalc

/-! ### Tables that keep their entries -/

/-- Every entry of `t` is in `t'` as it is. -/
def SymbolTable.Grows (t t' : SymbolTable) : Prop :=
  ∀ id < t.size, id < t'.size ∧ t'.get id = t.get id

namespace SymbolTable.Grows

theorem refl (t : SymbolTable) : t.Grows t :=
  fun _ hid => ⟨hid, rfl⟩

theorem trans {t t' t'' : SymbolTable} (h : t.Grows t') (h' : t'.Grows t'') :
    t.Grows t'' := by
  intro id hid
  obtain ⟨hid', hget⟩ := h id hid
  obtain ⟨hid'', hget'⟩ := h' id hid'
  exact ⟨hid'', hget'.trans hget⟩

theorem push (t : SymbolTable) (s : Symbol) : t.Grows (t.push s).2 := by
  intro id hid
  rw [size_push]
  exact ⟨Nat.lt_succ_of_lt hid, get_push_of_lt t s hid⟩

theorem resolve (t : SymbolTable) (name : String) : t.Grows (t.resolve name).2 := by
  rcases resolve_cases t name with ⟨id, -, heq⟩ | ⟨-, heq⟩
  · rw [heq]
    exact refl t
  · rw [heq]
    exact push t _

/-- What a name is found to be, it is in every table that keeps the entries. -/
theorem kind_of_finds {T t t' : SymbolTable} {id : Nat} {kind : SymbolKind}
    (h : t.Grows t') (hfinds : T.Finds t id kind) (hkind : kind ≠ .undefined) :
    (t'.get id).kind = kind := by
  have hid : id < t.size := lt_size_of_kind (by rw [hfinds.2]; exact hkind)
  rw [(h id hid).2, hfinds.2]

end SymbolTable.Grows

/-! ### Reading -/

/-- Something is read that keeps the entries of the table, and its calls agree
with every later table that does. -/
def SettledBy (t t' : SymbolTable) (agrees : SymbolTable → Bool) : Prop :=
  t.Grows t' ∧ ∀ U, t'.Grows U → agrees U

section

variable {T t t' t₁ : SymbolTable} {inside : Bool} {f g : SymbolTable → Bool}

/-- Two things that are read one after the other. The calls of the first are
judged by a table that the second has left alone. -/
theorem SettledBy.seq (h : SettledBy t t₁ f) (h' : SettledBy t₁ t' g) :
    SettledBy t t' fun U => f U && g U := by
  refine ⟨h.1.trans h'.1, fun U hU => ?_⟩
  dsimp only
  rw [h.2 U (h'.1.trans hU), h'.2 U hU]
  rfl

/-- Something without calls. -/
theorem SettledBy.of_grows (h : t.Grows t') : SettledBy t t' fun _ => true :=
  ⟨h, fun _ _ => rfl⟩

theorem SettledBy.resolve {name : String} {id : Nat} (h : t.resolve name = (id, t')) :
    SettledBy t t' fun _ => true := by
  have hgrows := SymbolTable.Grows.resolve t name
  rw [h] at hgrows
  exact .of_grows hgrows

theorem SettledBy.push {s : Symbol} {id : Nat} (h : t.push s = (id, t')) :
    SettledBy t t' fun _ => true := by
  have hgrows := SymbolTable.Grows.push t s
  rw [h] at hgrows
  exact .of_grows hgrows

/-- A call, behind its arguments. -/
theorem SettledBy.call {id : Nat} {kind : SymbolKind} (hfinds : T.Finds t id kind)
    (hkind : kind ≠ .undefined) (h : SettledBy t t' f) :
    SettledBy t t' fun U => (U.get id).kind == kind && f U := by
  refine ⟨h.1, fun U hU => ?_⟩
  dsimp only
  rw [(h.1.trans hU).kind_of_finds hfinds hkind, h.2 U hU]
  simp

mutual

/-- Expressions, by their form. -/
theorem Expr.settledBy_of_reads :
    ∀ (e : Expr) {t t' : SymbolTable}, e.Reads T inside t t' →
    SettledBy t t' e.agrees
  | .literal _, _, _, h => SettledBy.push h
  | .variable _, _, _, h => SettledBy.resolve h.2
  | .text _, _, _, h => h.elim
  | .binary _ l r, _, _, ⟨_, _, hl, hr⟩ =>
    (l.settledBy_of_reads hl).seq (r.settledBy_of_reads hr)
  | .unary _ e, _, _, h => e.settledBy_of_reads h.2
  | .builtin _ e, _, _, h => e.settledBy_of_reads h.2
  | .step .preInc _, _, _, h => SettledBy.resolve h
  | .step .preDec _, _, _, h => SettledBy.resolve h
  | .step .postInc _, _, _, h => SettledBy.resolve h.2
  | .step .postDec _, _, _, h => SettledBy.resolve h.2
  | .call _ es, _, _, h => (Expr.settledBy_of_readsAll es h.2).call h.1 (by decide)
  | .arg _, t, _, h => by
    obtain ⟨-, -, rfl⟩ := h
    exact .of_grows (.refl _)
  | .read _, _, _, h => SettledBy.resolve h

theorem Expr.settledBy_of_readsAll : ∀ (es : List Expr) {t t' : SymbolTable},
    Expr.ReadsAll T inside es t t' → SettledBy t t' fun U => Expr.allAgree U es
  | [], t, _, h => by
    cases h
    exact .of_grows (.refl _)
  | e :: es, _, _, ⟨_, he, hes⟩ =>
    (e.settledBy_of_reads he).seq (Expr.settledBy_of_readsAll es hes)

end

/-- The items of a print statement, of which texts are no expressions. -/
theorem Expr.settledBy_of_readsItems {es : List Expr}
    (h : Expr.ReadsItems T inside es t t') :
    SettledBy t t' fun U => Expr.allAgree U es := by
  induction es generalizing t with
  | nil =>
    cases h
    exact .of_grows (.refl _)
  | cons e es ih =>
    obtain ⟨t₁, he, hes⟩ := h
    refine SettledBy.seq ?_ (ih hes)
    cases e
    case text id => exact SettledBy.push he
    all_goals exact @Expr.settledBy_of_reads T inside _ _ _ he

/-- The statements that may stand in the head of a loop. -/
theorem Stmt.settledBy_of_readsClause {s : Stmt} (h : s.ReadsClause T inside t t') :
    SettledBy t t' s.agrees := by
  cases s
  case assign op id e =>
    obtain ⟨-, t₁, hresolve, he⟩ := h
    obtain ⟨hgrows, hagrees⟩ := e.settledBy_of_reads he
    exact ⟨(SettledBy.resolve hresolve).1.trans hgrows, hagrees⟩
  case argAssign n e => exact e.settledBy_of_reads h.2.2
  case expr e => exact e.settledBy_of_reads h
  all_goals exact h.elim

mutual

/-- Statements, by their form. A definition is never read as one. -/
theorem Stmt.settledBy_of_reads :
    ∀ (s : Stmt) {t t' : SymbolTable}, s.Reads T inside t t' →
    SettledBy t t' s.agrees
  | .assign _ _ _, _, _, h => Stmt.settledBy_of_readsClause h
  | .argAssign _ _, _, _, h => Stmt.settledBy_of_readsClause h
  | .expr _, _, _, h => Stmt.settledBy_of_readsClause h
  | .print _, _, _, h => Expr.settledBy_of_readsItems h.2
  | .whileLoop c body, _, _, ⟨_, hc, hbody⟩ =>
    (c.settledBy_of_reads hc).seq (Stmt.settledBy_of_readsAll body hbody)
  | .forLoop _ c _ body, _, _, ⟨_, _, _, hinit, hc, hpost, hbody⟩ =>
    (((Stmt.settledBy_of_readsClause hinit).seq (c.settledBy_of_reads hc)).seq
      (Stmt.settledBy_of_readsClause hpost)).seq (Stmt.settledBy_of_readsAll body hbody)
  | .ifThen c body, _, _, ⟨_, hc, hbody⟩ =>
    (c.settledBy_of_reads hc).seq (Stmt.settledBy_of_readsAll body hbody)
  | .ifElse c body other, _, _, ⟨_, _, hc, hbody, hother⟩ =>
    ((c.settledBy_of_reads hc).seq (Stmt.settledBy_of_readsAll body hbody)).seq
      (Stmt.settledBy_of_readsAll other hother)
  | .call _ es, _, _, h => (Expr.settledBy_of_readsAll es h.2).call h.1 (by decide)
  | .returnValue e, _, _, h => e.settledBy_of_reads h.2
  | .returnNothing, t, _, h => by
    obtain ⟨-, rfl⟩ := h
    exact .of_grows (.refl _)
  | .define _ _ _, _, _, h => h.elim

theorem Stmt.settledBy_of_readsAll : ∀ (ss : List Stmt) {t t' : SymbolTable},
    Stmt.ReadsAll T inside ss t t' → SettledBy t t' fun U => Stmt.allAgree U ss
  | [], t, _, h => by
    cases h
    exact .of_grows (.refl _)
  | s :: ss, _, _, ⟨_, hs, hss⟩ =>
    (s.settledBy_of_reads hs).seq (Stmt.settledBy_of_readsAll ss hss)

end

/-- When statements have been read, their calls agree with what they call. -/
theorem Stmt.allAgree_of_readsAll {ss : List Stmt} (h : Stmt.ReadsAll T inside ss t t') :
    Stmt.allAgree t' ss :=
  (Stmt.settledBy_of_readsAll ss h).2 t' (.refl t')

/-- Statements define nothing. -/
theorem Stmt.topLevel_of_readsAll {ss : List Stmt} (h : Stmt.ReadsAll T inside ss t t') :
    topLevel ss = ss ∧ definitions ss = [] := by
  induction ss generalizing t with
  | nil => exact ⟨rfl, rfl⟩
  | cons s ss ih =>
    obtain ⟨t₁, hs, hss⟩ := h
    obtain ⟨htop, hdefinitions⟩ := ih hss
    cases s
    case define => exact hs.elim
    all_goals exact ⟨congrArg (List.cons _) htop, hdefinitions⟩

end

end StackCalc
