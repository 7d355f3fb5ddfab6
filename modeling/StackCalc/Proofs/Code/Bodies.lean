import StackCalc.Proofs.Code.Sealing

/-!
# The bodies in the sealed code

Every body that a name leads to is the code of a tree, also where the tree was
no source text's. A tree that the generator does not refuse is codable
(`Gen.needs_stmts`), so what it has appended for a body is the layout of that
tree (`Gen.body_of_ok`). Sealed cells do not change any more: the body stays
what it is, although the entries of the table that it was generated with may
change (`Image.HasBody.grows`).

`Image.Housed` says this of all names, and `Image.Housed.generate` that
generating any program keeps it.
-/

namespace StackCalc

namespace Gen

/-! ### What success needs -/

/-- The action succeeds only if `P` holds. -/
def Needs {α : Type} (g : Gen α) (P : Prop) : Prop :=
  ∀ s a s', g s = .ok a s' → P

section

variable {α β : Type} {g : Gen α} {f : α → Gen β} {P Q : Prop}

/-- What the first part of a sequence needs, the sequence needs. -/
theorem Needs.first (h : Needs g P) : Needs (g >>= f) P := by
  intro s b s' hrun
  obtain ⟨a, s₁, hfirst, -⟩ := Action.of_bind_ok hrun
  exact h s a s₁ hfirst

/-- What the second part needs whatever it is given, the sequence needs. -/
theorem Needs.next (h : ∀ a, Needs (f a) P) : Needs (g >>= f) P := by
  intro s b s' hrun
  obtain ⟨a, s₁, -, hrest⟩ := Action.of_bind_ok hrun
  exact h a s₁ b s' hrest

theorem Needs.and (h : Needs g P) (h' : Needs g Q) : Needs g (P ∧ Q) :=
  fun s a s' hrun => ⟨h s a s' hrun, h' s a s' hrun⟩

theorem needs_of_true (hP : P) : Needs g P :=
  fun _ _ _ _ => hP

/-- An action that is refused needs anything, for it never succeeds. -/
theorem needs_refuse (note : String) : Needs (refuse note : Gen α) P :=
  fun _ _ _ hrun => by cases hrun

theorem needs_orRefuse (note : String) (o : Option α) :
    Needs (orRefuse note o) (o.isSome = true) := by
  cases o with
  | some a => exact needs_of_true rfl
  | none => exact needs_refuse note

end

variable (cx : GenContext)

mutual

/-- An expression that is not refused is codable: its operators have operations,
and its places are in the table. -/
theorem needs_expr : ∀ {e : Expr}, e.InRange cx.symbols.size →
    Needs (expr cx e) (e.Codable cx.symbols)
  | .literal _, _ => needs_of_true trivial
  | .variable _, hid => needs_of_true hid
  | .text _, _ => needs_refuse _
  | .binary op _ _, ⟨hl, hr⟩ =>
    -- the operator is looked up behind the code of both operands
    .and (.next fun _ => .next fun _ => (needs_orRefuse _ op.binaryOp?).first)
      ((needs_expr hl).first.and (.next fun _ => (needs_expr hr).first))
  | .unary op e, he =>
    .and (.next fun _ => (needs_orRefuse _ op.unaryOp?).first)
      (needs_expr (e := e) he).first
  | .builtin _ _, ⟨hid, he⟩ => (needs_of_true hid).and (needs_expr he).first
  | .step _ _, hid => needs_of_true hid
  | .call _ _, ⟨hid, hes⟩ => (needs_of_true hid).and (needs_exprs hes).first
  | .arg _, _ => needs_of_true trivial
  | .read _, hid => needs_of_true hid

theorem needs_exprs : ∀ {es : List Expr}, Expr.AllInRange cx.symbols.size es →
    Needs (exprs cx es) (Expr.AllCodable cx.symbols es)
  | [], _ => needs_of_true trivial
  | _ :: _, ⟨he, hes⟩ => (needs_expr he).first.and (.next fun _ => needs_exprs hes)

end

/-- A clause that is not refused is an assignment or an expression, with an
operation for its operator. -/
theorem needs_clause {s : Stmt} (h : s.InRange cx.symbols.size) :
    Needs (clause cx s) (s.CodableClause cx.symbols) := by
  cases s with
  | assign op id e =>
    exact .and (.next fun _ => .next fun _ => (needs_orRefuse _ op.assignOp?).first)
      ((needs_of_true h.1).and (needs_expr cx h.2).first)
  | argAssign n e => exact (needs_expr cx (e := e) h).first
  | expr e => exact needs_expr cx (e := e) h
  | _ => exact needs_refuse _

/-- An item that is printed is a text that the table knows, or a codable
expression. -/
theorem needs_printItem {e : Expr} (h : e.InRange cx.symbols.size) :
    Needs (printItem cx e) (e.CodableItem cx.symbols) := by
  cases e with
  | text id =>
    show Needs (printItem cx (.text id)) ((cx.symbols.get id).text.isSome = true)
    cases htext : (cx.symbols.get id).text with
    | some text => exact needs_of_true rfl
    | none =>
      have hrefuses : printItem cx (.text id) = refuse "string without text" := by
        rw [printItem, htext]
      exact hrefuses ▸ needs_refuse _
  | _ => exact (needs_expr cx h).first

theorem needs_printItems : ∀ {es : List Expr}, Expr.AllInRange cx.symbols.size es →
    Needs (printItems cx es) (∀ e ∈ es, e.CodableItem cx.symbols)
  | [], _ => needs_of_true fun _ he => absurd he List.not_mem_nil
  | e :: es, ⟨he, hes⟩ => by
    have hall : Needs (printItems cx (e :: es)) (e.CodableItem cx.symbols ∧
        ∀ e' ∈ es, e'.CodableItem cx.symbols) :=
      (needs_printItem cx he).first.and (.next fun _ => needs_printItems hes)
    exact fun s a s' hrun => List.forall_mem_cons.mpr (hall s a s' hrun)

mutual

/-- A statement that is not refused is codable. The cells and slots in front of
each part need nothing, so the proof passes over them. -/
theorem needs_stmt : ∀ {s : Stmt}, s.InRange cx.symbols.size →
    Needs (stmt cx s) (s.Codable cx.symbols)
  | .assign op id e, h => (needs_clause cx (s := .assign op id e) h).first
  | .argAssign n e, h => (needs_clause cx (s := .argAssign n e) h).first
  | .print _, h => needs_printItems cx h
  | .whileLoop _ _, ⟨hc, hb⟩ =>
    .next fun _ => .next fun _ => .next fun _ => (needs_expr cx hc).first.and
      (.next fun _ => .next fun _ => .next fun _ => (needs_stmts hb).first)
  | .forLoop _ _ _ _, ⟨hi, hc, hp, hb⟩ =>
    .next fun _ => .next fun _ => .next fun _ => .next fun _ => .next fun _ =>
      (needs_clause cx hi).first.and (.next fun _ => .next fun _ => .next fun _ =>
        (needs_expr cx hc).first.and (.next fun _ => .next fun _ => .next fun _ =>
          (needs_clause cx hp).first.and (.next fun _ => .next fun _ => .next fun _ =>
            (needs_stmts hb).first)))
  | .ifThen _ _, ⟨hc, hb⟩ =>
    .next fun _ => .next fun _ => .next fun _ => .next fun _ =>
      (needs_expr cx hc).first.and (.next fun _ => .next fun _ => .next fun _ =>
        (needs_stmts hb).first)
  | .ifElse _ _ _, ⟨hc, hb, ho⟩ =>
    .next fun _ => .next fun _ => .next fun _ => .next fun _ =>
      (needs_expr cx hc).first.and (.next fun _ => .next fun _ => .next fun _ =>
        (needs_stmts hb).first.and (.next fun _ => .next fun _ => .next fun _ =>
          (needs_stmts ho).first))
  | .expr _, he => (needs_expr cx he).first
  | .call _ _, ⟨hid, hes⟩ => (needs_of_true hid).and (needs_exprs cx hes).first
  | .returnValue _, he => (needs_expr cx he).first
  | .returnNothing, _ => needs_of_true trivial
  | .define _ _ _, _ => needs_refuse _

theorem needs_stmts : ∀ {ss : List Stmt}, Stmt.AllInRange cx.symbols.size ss →
    Needs (stmts cx ss) (Stmt.AllCodable cx.symbols ss)
  | [], _ => needs_of_true trivial
  | _ :: _, ⟨hs, hss⟩ => (needs_stmt hs).first.and (.next fun _ => needs_stmts hss)

end

/-- A body that was generated at the end of a sealed store is the layout of its
tree. -/
theorem body_of_ok {ss : List Stmt} (hss : Stmt.AllInRange cx.symbols.size ss)
    {s s' : Store} {a : Nat} (hs : s.base = s.size) (h : body cx ss s = .ok a s') :
    Stmt.AllCodable cx.symbols ss ∧
      s' = (s.append (Layout.body cx.symbols cx.echo s.size ss)).define.2 := by
  have hcodable : Stmt.AllCodable cx.symbols ss := (needs_stmts cx hss).first s a s' h
  obtain ⟨hfits, hfails⟩ := body_apply cx hcodable hs
  refine ⟨hcodable, ?_⟩
  by_cases hroom : s.size + (Stmt.sizes ss + 2) ≤ cx.capacity
  · cases (hfits hroom).symm.trans h
    rfl
  · obtain ⟨rest, herror⟩ := hfails hroom
    cases herror.symm.trans h

end Gen

namespace Image

/-! ### Bodies -/

/-- The code of a body starts at `a`, in the sealed cells. It was generated from
a codable tree, with a table that had no more entries, and unless it is `loud`
without showing values. -/
def HasBody (loud : Bool) (im : Image) (a : Nat) : Prop :=
  ∃ (u : SymbolTable) (echo : Bool) (body : List Stmt), u.size ≤ im.symbols.size ∧
    (echo = true → loud = true) ∧ Stmt.AllCodable u body ∧
    Holds im.store.cells a (Layout.body u echo a body) ∧
    a + (Stmt.sizes body + 2) ≤ im.store.base

/-- Every name with code leads to a body. -/
def Housed (loud : Bool) (im : Image) : Prop :=
  ∀ id a, (im.symbols.get id).code = some a → im.HasBody loud a

section

variable {loud : Bool} {im im' : Image} {rs : List Region} {a : Nat}

/-- A body stays a body where cells are added behind it and the table only grows. -/
theorem HasBody.grows (h : im.HasBody loud a) (hgrows : Grows rs im im') :
    im'.HasBody loud a := by
  obtain ⟨u, echo, body, hsize, hecho, hbody, hcode, hbelow⟩ := h
  refine ⟨u, echo, body, Nat.le_trans hsize hgrows.evolves.size_le, hecho, hbody, ?_,
    Nat.le_trans hbelow hgrows.base_le⟩
  exact hcode.congr (by rw [Layout.length_body]; exact hbelow) hgrows.kept

/-- Where regions are sealed, the names still lead to bodies if the regions are
bodies. -/
theorem Housed.grows (h : im.Housed loud) (hgrows : Grows rs im im')
    (hrs : ∀ r ∈ rs, im'.HasBody loud r.start) : im'.Housed loud := by
  intro id a hcode
  -- a name whose code has changed leads to one of the new regions
  by_cases heq : (im'.symbols.get id).code = (im.symbols.get id).code
  · exact (h id a (heq ▸ hcode)).grows hgrows
  · obtain ⟨r, hr, -, hstart, -⟩ := hgrows.of_code_ne heq
    obtain rfl : a = r.start := Option.some.inj (hcode.symm.trans hstart)
    exact hrs r hr

end

/-! ### Generating bodies -/

section

variable (capacity : Nat) (echo : Bool)

/-- A definition that is generated is a body. -/
theorem hasBody_define {im im' : Image} (hs : im.IsSealed)
    {kind : DefinitionKind} {id : Nat} {ss : List Stmt}
    (hss : Stmt.AllInRange im.symbols.size ss)
    (h : define capacity echo (.define kind id ss) im = .ok () im') :
    im'.HasBody echo im.store.base := by
  obtain ⟨start, im₁, hbody, hmodify⟩ := Action.of_bind_ok h
  cases hrun : Gen.body ⟨capacity, echo, im.symbols⟩ ss im.store with
  | error f store => cases (generating_of_error capacity echo hrun).symm.trans hbody
  | ok start' store =>
    cases (generating_of_ok capacity echo hrun).symm.trans hbody
    obtain ⟨hcodable, rfl⟩ := Gen.body_of_ok ⟨capacity, echo, im.symbols⟩ hss hs hrun
    cases hmodify
    have hbase : im.store.base = im.store.size := hs
    rw [hbase]
    refine ⟨im.symbols, echo, ss, Nat.le_of_eq (SymbolTable.size_modify ..).symm,
      fun he => he, hcodable, holds_end im.store.cells _, Nat.le_of_eq ?_⟩
    show _ = (im.store.append _).size
    rw [Store.size_append, Layout.length_body]

/-- The regions that generating a row of definitions seals are bodies. -/
theorem hasBody_sealing {im : Image} (hs : im.IsSealed) (hle : im.store.size ≤ capacity)
    {ds : List Stmt} (hds : ∀ d ∈ ds, d.isDefinition ∧ d.InRange im.symbols.size) :
    ∀ r ∈ sealing capacity echo ds im,
      (Action.final (defineAll capacity echo ds im)).HasBody echo r.start := by
  induction ds generalizing im with
  | nil => exact fun r hr => absurd hr List.not_mem_nil
  | cons d ds ih =>
    obtain ⟨⟨hd, hrange⟩, hrest⟩ := List.forall_mem_cons.mp hds
    cases d with
    | define kind id ss =>
      rcases define_cases capacity echo hs hle kind hrange.1 hrange.2 with
        ⟨f, im', herror, -⟩ | ⟨im', hok, -, hsealed, hsize, hsymbols⟩
      · rw [sealing, herror]
        exact fun r hr => absurd hr List.not_mem_nil
      · have hall : defineAll capacity echo (.define kind id ss :: ds) im =
            defineAll capacity echo ds im' := Action.bind_of_ok hok
        -- the cells of the first definition are still there when the others are
        -- generated
        obtain ⟨hgrows, -⟩ :=
          defineAll_grows capacity echo hsealed hsize (hsymbols.symm ▸ hrest)
        rw [hall, sealing, hok]
        exact List.forall_mem_cons.mpr
          ⟨(hasBody_define capacity echo hs hrange.2 hok).grows hgrows,
            ih hsealed hsize (hsymbols.symm ▸ hrest)⟩
    | _ => exact absurd hd (by simp [Stmt.isDefinition])

/-- The regions that generating a program seals are bodies. -/
theorem hasBody_program {im : Image} (hle : im.store.base ≤ capacity) {ss : List Stmt}
    (hss : Stmt.AllInRange im.symbols.size ss) :
    ∀ r ∈ sealedBy capacity echo ss im,
      (Action.final (Image.program capacity echo ss im)).HasBody echo r.start := by
  have hsize : im.rewound.store.size ≤ capacity := im.store.size_rewind.symm ▸ hle
  have hds := isDefinition_definitions hss
  obtain ⟨-, hsize', hdone⟩ := defineAll_grows capacity echo im.isSealed_rewound hsize hds
  have hbodies := hasBody_sealing capacity echo im.isSealed_rewound hsize hds
  have hprogram : Image.program capacity echo ss im =
      (defineAll capacity echo (definitions ss) >>= fun _ => main capacity echo ss)
        im.rewound := rfl
  intro r hr
  have hbody := hbodies r hr
  rw [hprogram]
  cases hrun : defineAll capacity echo (definitions ss) im.rewound with
  | error f im' =>
    rw [hrun] at hbody
    rw [Action.bind_of_error hrun]
    exact hbody
  | ok u im' =>
    rw [hrun] at hbody hsize'
    obtain ⟨hsealed, hsymbols⟩ := hdone u im' hrun
    obtain ⟨hgrows, -⟩ := main_grows capacity echo hsealed hsize'
      (hsymbols.symm ▸ allInRange_topLevel hss)
    rw [Action.bind_of_ok hrun]
    exact hbody.grows hgrows

/-- However generating a program ends, the names lead to bodies. -/
theorem Housed.generate {loud : Bool} {im : Image} (h : im.Housed loud)
    (hecho : echo = true → loud = true) (hle : im.store.base ≤ capacity) {ss : List Stmt}
    (hss : Stmt.AllInRange im.symbols.size ss) :
    (Action.final (Image.generate capacity echo ss im)).Housed loud := by
  obtain ⟨hgrows, -⟩ := generate_grows capacity echo hle hss
  refine h.grows hgrows fun r hr => ?_
  have hbody : (Action.final (Image.generate capacity echo ss im)).HasBody
      echo r.start := by
    -- a program that fails is taken back, which leaves the sealed cells alone
    have hbody := hasBody_program capacity echo hle hss r hr
    rw [Image.generate]
    cases hrun : Image.program capacity echo ss im with
    | ok a im' =>
      rw [hrun] at hbody
      exact hbody
    | error f im' =>
      rw [hrun] at hbody
      exact hbody.grows im'.grows_rewound
  obtain ⟨u, echo', body, hsize, hecho', hrest⟩ := hbody
  exact ⟨u, echo', body, hsize, fun he => hecho (hecho' he), hrest⟩

end

end Image

end StackCalc
