import StackCalc.Proofs.Code.Generation
import StackCalc.Proofs.Parser.Registration

/-!
# Code with and without echo

With echo an expression statement ends in a cell that shows its value, and
without in one that drops it. Nothing else in the code of a program depends on
the setting. `Stmt.ends` says for each cell of a statement whether it is such an
end, and `Layout.Echoed` goes along both codes at once.

- `Layout.echoed_stmts`: the code of statements.
- `Image.Echoed.withDefinitions`: the code of a session after definitions, whose
  addresses are the same.
- `Layout.symbol_mem_stmts`: the symbols in code are those of the statements.
-/

namespace StackCalc

/-! ### Where expression statements end -/

mutual

/-- For each cell of a statement, whether it is the end of an expression
statement. -/
def Stmt.ends : Stmt → List Bool
  | .whileLoop cond body =>
    List.replicate (cond.size + 4) false ++ Stmt.allEnds body ++ [false]
  | .forLoop init cond post body =>
    List.replicate (init.clauseSize + cond.size + post.clauseSize + 8) false ++
      Stmt.allEnds body ++ [false]
  | .ifThen cond body =>
    List.replicate (cond.size + 5) false ++ Stmt.allEnds body ++ [false]
  | .ifElse cond body other =>
    List.replicate (cond.size + 5) false ++ Stmt.allEnds body ++ [false] ++
      Stmt.allEnds other ++ [false]
  | .expr e => List.replicate e.size false ++ [true]
  | s => List.replicate s.size false

/-- For each cell of several statements, whether it is the end of an expression
statement. -/
def Stmt.allEnds : List Stmt → List Bool
  | [] => []
  | s :: ss => s.ends ++ Stmt.allEnds ss

end

/-- For each cell that a definition seals, whether it is the end of an
expression statement. -/
def Stmt.regionEnds : Stmt → List Bool
  | .define _ _ ss => Stmt.allEnds ss ++ [false, false]
  | _ => []

/-- For each cell of a program, whether it is the end of an expression statement. -/
def programEnds (program : List Stmt) : List Bool :=
  (definitionPart program).flatMap Stmt.regionEnds ++
    (Stmt.allEnds (mainPart program) ++ [false])

namespace Layout

/-! ### Two codes side by side -/

/-- Two codes that differ where expression statements end: the first drops a
value there, the second shows it. -/
inductive Echoed : (ends : List Bool) → (quiet loud : List Cell) → Prop
  | nil : Echoed [] [] []
  | same (c : Cell) {ends quiet loud} (h : Echoed ends quiet loud) :
    Echoed (false :: ends) (c :: quiet) (c :: loud)
  | turned {ends quiet loud} (h : Echoed ends quiet loud) :
    Echoed (true :: ends) (ending false :: quiet) (ending true :: loud)

namespace Echoed

variable {ends ends' : List Bool} {quiet quiet' loud loud' : List Cell}

theorem append (h : Echoed ends quiet loud) (h' : Echoed ends' quiet' loud') :
    Echoed (ends ++ ends') (quiet ++ quiet') (loud ++ loud') := by
  induction h with
  | nil => exact h'
  | same c _ ih => exact .same c ih
  | turned _ ih => exact .turned ih

/-- Code in which no expression statement ends. -/
theorem of_length {code : List Cell} {n : Nat} (h : code.length = n) :
    Echoed (List.replicate n false) code code := by
  subst h
  induction code with
  | nil => exact .nil
  | cons c code ih => exact .same c ih

theorem stop : Echoed [false] [.stop] [.stop] :=
  .same .stop .nil

/-- The quiet code has one cell for each entry. -/
theorem length_quiet (h : Echoed ends quiet loud) : quiet.length = ends.length := by
  induction h with
  | nil => rfl
  | same _ _ ih => exact congrArg (· + 1) ih
  | turned _ ih => exact congrArg (· + 1) ih

/-- The loud code has one cell for each entry. -/
theorem length_loud (h : Echoed ends quiet loud) : loud.length = ends.length := by
  induction h with
  | nil => rfl
  | same _ _ ih => exact congrArg (· + 1) ih
  | turned _ ih => exact congrArg (· + 1) ih

/-- What stands at a place in both codes. -/
theorem getElem? (h : Echoed ends quiet loud) (i : Nat) :
    (ends[i]? = some true ∧ quiet[i]? = some (ending false) ∧
      loud[i]? = some (ending true)) ∨
      (ends[i]? ≠ some true ∧ loud[i]? = quiet[i]?) := by
  induction h generalizing i with
  | nil => exact .inr ⟨by simp, rfl⟩
  | same c _ ih =>
    cases i with
    | zero => exact .inr ⟨by simp, rfl⟩
    | succ i => exact ih i
  | turned _ ih =>
    cases i with
    | zero => exact .inl ⟨rfl, rfl, rfl⟩
    | succ i => exact ih i

end Echoed

section

variable (t : SymbolTable)

mutual

/-- Both codes of a statement differ where expression statements end. Their
addresses are the same, for a cell that shows a value takes as much room as one
that drops it. -/
theorem echoed_stmt (a : Nat) :
    ∀ s : Stmt, Echoed s.ends (stmt t false a s) (stmt t true a s)
  | .assign _ _ _ => .of_length (length_stmt t false a _)
  | .argAssign _ _ => .of_length (length_stmt t false a _)
  | .print _ => .of_length (length_stmt t false a _)
  | .whileLoop cond body => by
    simp only [stmt, Stmt.ends]
    refine ((Echoed.of_length ?_).append (echoed_stmts _ body)).append .stop
    simp only [List.length_append, List.length_cons, List.length_nil, length_expr]
    omega
  | .forLoop init cond post body => by
    simp only [stmt, Stmt.ends]
    refine ((Echoed.of_length ?_).append (echoed_stmts _ body)).append .stop
    simp only [List.length_append, List.length_cons, List.length_nil, length_expr,
      length_clause]
    omega
  | .ifThen cond body => by
    simp only [stmt, Stmt.ends]
    refine ((Echoed.of_length ?_).append (echoed_stmts _ body)).append .stop
    simp only [List.length_append, List.length_cons, List.length_nil, length_expr]
    omega
  | .ifElse cond body other => by
    simp only [stmt, Stmt.ends]
    refine ((((Echoed.of_length ?_).append (echoed_stmts _ body)).append .stop).append
      (echoed_stmts _ other)).append .stop
    simp only [List.length_append, List.length_cons, List.length_nil, length_expr]
    omega
  | .expr e => by
    simp only [stmt, Stmt.ends]
    exact (Echoed.of_length (length_expr t e)).append (.turned .nil)
  | .call _ _ => .of_length (length_stmt t false a _)
  | .returnValue _ => .of_length (length_stmt t false a _)
  | .returnNothing => .of_length (length_stmt t false a _)
  | .define _ _ _ => .of_length (length_stmt t false a _)

theorem echoed_stmts (a : Nat) :
    ∀ ss : List Stmt, Echoed (Stmt.allEnds ss) (stmts t false a ss) (stmts t true a ss)
  | [] => .nil
  | s :: ss => (echoed_stmt a s).append (echoed_stmts _ ss)

end

theorem echoed_body (a : Nat) (ss : List Stmt) :
    Echoed (Stmt.allEnds ss ++ [false, false]) (body t false a ss) (body t true a ss) :=
  (echoed_stmts t a ss).append (.same _ .stop)

theorem echoed_main (a : Nat) (program : List Stmt) :
    Echoed (Stmt.allEnds (mainPart program) ++ [false]) (main t false a program)
      (main t true a program) :=
  (echoed_stmts t a _).append .stop

end

/-! ### The symbols in code -/

section

variable (t : SymbolTable) {id : Nat}

theorem symbol_ne_plain (i : Instruction) : Cell.symbol id ≠ plain i := by
  simp [plain]

theorem symbol_ne_operation {α : Type} (o : Option α) (i : α → Instruction) :
    Cell.symbol id ≠ (o.map fun x => plain (i x)).getD .stop := by
  cases o <;> simp [plain]

mutual

/-- The symbols in the code of an expression are among those of the expression. -/
theorem symbol_mem_expr : ∀ {e : Expr}, .symbol id ∈ expr t e → id ∈ e.ids
  | .literal _, h => by simp [expr, plain] at h
  | .variable _, h => by simpa [expr, plain, Expr.ids] using h
  | .text _, h => by simp [expr] at h
  | .binary op lhs rhs, h => by
    simp only [expr, List.mem_append, List.mem_singleton, symbol_ne_operation,
      or_false] at h
    exact List.mem_append.2 (h.imp symbol_mem_expr symbol_mem_expr)
  | .unary op e, h => by
    have hne : Cell.symbol id ≠ (op.unaryOp?.map plain).getD .stop :=
      symbol_ne_operation op.unaryOp? fun i => i
    simp only [expr, List.mem_append, List.mem_singleton, hne, or_false] at h
    exact (symbol_mem_expr h : id ∈ e.ids)
  | .builtin _ e, h => by
    simp only [expr, symbol_ne_plain, List.mem_append, List.mem_cons, List.not_mem_nil,
      Cell.symbol.injEq, false_or, or_false] at h
    exact List.mem_cons.2 (h.symm.imp_right symbol_mem_expr)
  | .step _ _, h => by simpa [expr, plain, Expr.ids] using h
  | .call _ es, h => by
    simp only [expr, callCells, List.mem_append, List.mem_cons, List.not_mem_nil,
      Cell.symbol.injEq, reduceCtorEq, false_or, or_false] at h
    exact List.mem_cons.2 (h.symm.imp_right symbol_mem_exprs)
  | .arg _, h => by simp [expr, plain] at h
  | .read _, h => by simpa [expr, plain, Expr.ids] using h

theorem symbol_mem_exprs : ∀ {es : List Expr}, .symbol id ∈ exprs t es →
    id ∈ Expr.allIds es
  | [], h => by simp [exprs] at h
  | _ :: _, h =>
    List.mem_append.2 ((List.mem_append.1 h).imp symbol_mem_expr symbol_mem_exprs)

end

/-- The symbols in the code of a clause are among those of the clause. -/
theorem symbol_mem_clause {s : Stmt} (h : .symbol id ∈ clause t s) : id ∈ s.ids := by
  cases s with
  | assign op id' e =>
    simp only [clause, List.mem_append, List.mem_cons, List.not_mem_nil,
      symbol_ne_operation, symbol_ne_plain, Cell.symbol.injEq, false_or, or_false] at h
    exact List.mem_cons.2 (h.symm.imp_right (symbol_mem_expr t))
  | argAssign n e =>
    simp only [clause, symbol_ne_plain, List.mem_append, List.mem_cons, List.not_mem_nil,
      reduceCtorEq, or_false] at h
    exact (symbol_mem_expr t h : id ∈ e.ids)
  | expr e => exact (symbol_mem_expr t h : id ∈ e.ids)
  | _ => simp [clause] at h

theorem symbol_mem_printItem {e : Expr} (h : .symbol id ∈ printItem t e) :
    id ∈ e.ids := by
  cases e with
  | text id' => simp [printItem, plain] at h
  | _ =>
    simp only [printItem, symbol_ne_plain, List.mem_append, List.mem_singleton,
      or_false] at h
    exact symbol_mem_expr t h

theorem symbol_mem_printItems : ∀ {es : List Expr}, .symbol id ∈ printItems t es →
    id ∈ Expr.allIds es
  | [], h => by simp [printItems] at h
  | _ :: _, h =>
    List.mem_append.2 ((List.mem_append.1 h).imp (symbol_mem_printItem t)
      symbol_mem_printItems)

variable {echo : Bool}

mutual

/-- The symbols in the code of a statement are among those of the statement: a
variable, or what is called or read. -/
theorem symbol_mem_stmt {a : Nat} :
    ∀ {s : Stmt}, .symbol id ∈ stmt t echo a s → id ∈ s.ids
  | .assign op id' e, h => by
    simp only [stmt, symbol_ne_plain, List.mem_append, List.mem_singleton, or_false] at h
    exact symbol_mem_clause t h
  | .argAssign n e, h => by
    simp only [stmt, symbol_ne_plain, List.mem_append, List.mem_singleton, or_false] at h
    exact symbol_mem_clause t h
  | .print _, h => symbol_mem_printItems t h
  | .whileLoop cond body, h => by
    simp only [stmt, List.mem_append, List.mem_cons, List.not_mem_nil, reduceCtorEq,
      false_or, or_false] at h
    exact List.mem_append.2 (h.imp (symbol_mem_expr t) symbol_mem_stmts)
  | .forLoop init cond post body, h => by
    simp only [stmt, List.mem_append, List.mem_cons, List.not_mem_nil, reduceCtorEq,
      false_or, or_false] at h
    simp only [Stmt.ids, List.mem_append]
    exact h.imp (Or.imp (Or.imp (symbol_mem_clause t) (symbol_mem_expr t))
      (symbol_mem_clause t)) symbol_mem_stmts
  | .ifThen cond body, h => by
    simp only [stmt, List.mem_append, List.mem_cons, List.not_mem_nil, reduceCtorEq,
      false_or, or_false] at h
    exact List.mem_append.2 (h.imp (symbol_mem_expr t) symbol_mem_stmts)
  | .ifElse cond body other, h => by
    simp only [stmt, List.mem_append, List.mem_cons, List.not_mem_nil, reduceCtorEq,
      false_or, or_false] at h
    simp only [Stmt.ids, List.mem_append]
    exact h.imp (Or.imp (symbol_mem_expr t) symbol_mem_stmts) symbol_mem_stmts
  | .expr e, h => by
    simp only [stmt, ending, symbol_ne_plain, List.mem_append, List.mem_singleton,
      or_false] at h
    exact (symbol_mem_expr t h : id ∈ e.ids)
  | .call _ es, h => by
    simp only [stmt, callCells, List.mem_append, List.mem_cons, List.not_mem_nil,
      Cell.symbol.injEq, reduceCtorEq, false_or, or_false] at h
    exact List.mem_cons.2 (h.symm.imp_right (symbol_mem_exprs t))
  | .returnValue e, h => by
    simp only [stmt, symbol_ne_plain, List.mem_append, List.mem_singleton, or_false] at h
    exact (symbol_mem_expr t h : id ∈ e.ids)
  | .returnNothing, h => by simp [stmt, plain] at h
  | .define _ _ _, h => by simp [stmt] at h

theorem symbol_mem_stmts {a : Nat} :
    ∀ {ss : List Stmt}, .symbol id ∈ stmts t echo a ss → id ∈ Stmt.allIds ss
  | [], h => by simp [stmts] at h
  | _ :: _, h =>
    List.mem_append.2 ((List.mem_append.1 h).imp symbol_mem_stmt symbol_mem_stmts)

end

theorem symbol_mem_body {a : Nat} {ss : List Stmt} (h : .symbol id ∈ body t echo a ss) :
    id ∈ Stmt.allIds ss := by
  simp only [body, symbol_ne_plain, List.mem_append, List.mem_cons, List.not_mem_nil,
    reduceCtorEq, or_false] at h
  exact symbol_mem_stmts t h

/-- The code of the main part has the symbols of the statements outside
definitions. -/
theorem symbol_mem_main {a : Nat} {program : List Stmt}
    (h : .symbol id ∈ main t echo a program) :
    id ∈ Stmt.allIds (topLevel program) := by
  simp only [main_eq, List.mem_append, List.mem_singleton, reduceCtorEq, or_false] at h
  exact symbol_mem_stmts t h

end

end Layout

/-! ### Two sessions side by side -/

/-- The same symbols, and codes that differ where expression statements end,
sealed up to the same address. -/
structure Image.Echoed (ends : List Bool) (quiet loud : Image) : Prop where
  symbols : loud.symbols = quiet.symbols
  base : loud.store.base = quiet.store.base
  cells : Layout.Echoed ends quiet.store.cells.toList loud.store.cells.toList

namespace Image.Echoed

variable {ends ends' : List Bool} {quiet loud : Image}

theorem of_image (im : Image) : Echoed (List.replicate im.store.size false) im im :=
  ⟨rfl, rfl, .of_length rfl⟩

/-- Both codes have the same size, so that what is appended next starts at the
same address. -/
theorem size_eq (h : Echoed ends quiet loud) : loud.store.size = quiet.store.size :=
  h.cells.length_loud.trans h.cells.length_quiet.symm

theorem append (h : Echoed ends quiet loud) {code code' : List Cell}
    (hcode : Layout.Echoed ends' code code') :
    Echoed (ends ++ ends') (quiet.append code) (loud.append code') := by
  refine ⟨h.symbols, h.base, ?_⟩
  have hcells := h.cells.append hcode
  simpa [Image.append, Store.append] using hcells

theorem withDefinition (h : Echoed ends quiet loud) (d : Stmt) :
    Echoed (ends ++ d.regionEnds) (quiet.withDefinition false d)
      (loud.withDefinition true d) := by
  cases d with
  | define kind id ss =>
    have hbody := h.append (Layout.echoed_body quiet.symbols quiet.store.size ss)
    rw [Image.withDefinition, Image.withDefinition, h.symbols, h.size_eq]
    exact ⟨rfl, hbody.size_eq, hbody.cells⟩
  | _ => exact (List.append_nil ends).symm ▸ h

theorem withDefinitions (h : Echoed ends quiet loud) (ds : List Stmt) :
    Echoed (ends ++ ds.flatMap Stmt.regionEnds) (quiet.withDefinitions false ds)
      (loud.withDefinitions true ds) := by
  induction ds generalizing ends quiet loud with
  | nil => exact (List.append_nil ends).symm ▸ h
  | cons d ds ih =>
    rw [List.flatMap_cons, ← List.append_assoc]
    exact ih (h.withDefinition d)

end Image.Echoed

theorem fitting_prefix (capacity a : Nat) (ds : List Stmt) :
    fitting capacity a ds <+: ds := by
  induction ds generalizing a with
  | nil => exact List.nil_prefix
  | cons d ds ih =>
    rw [fitting]
    split
    · exact (List.prefix_cons_inj d).2 (ih _)
    · exact List.nil_prefix

namespace Image

/-- With and without echo a program is generated at the same address, or refused
alike, and the codes differ where expression statements of the program end. -/
theorem generate_echoed (capacity : Nat) {im : Image} {program : List Stmt}
    (hw : ∀ s ∈ program, s.IsTopLevel im.symbols) :
    ∃ ends quiet loud, Echoed ends quiet loud ∧
      (ends = List.replicate im.store.base false ++ programEnds program ∧
          (∃ entry, generate capacity false program im = .ok entry quiet ∧
            generate capacity true program im = .ok entry loud) ∨
        ends <+: List.replicate im.store.base false ++ programEnds program ∧
          generate capacity false program im = .error tooBig quiet ∧
            generate capacity true program im = .error tooBig loud) := by
  -- what is generated starts behind the sealed code, which is the same in both
  have hrewound : Echoed (List.replicate im.store.base false) im.rewound im.rewound := by
    have h := Echoed.of_image im.rewound
    rwa [show im.rewound.store.size = im.store.base from im.store.size_rewind] at h
  obtain ⟨hfits, hfails⟩ := generate_apply capacity false hw
  obtain ⟨hfits', hfails'⟩ := generate_apply capacity true hw
  by_cases hroom : im.store.base + footprint program ≤ capacity
  · have hcode := (hrewound.withDefinitions (definitions program)).append
      (Layout.echoed_main im.symbols
        (im.store.base + Stmt.regionSizes (definitions program)) program)
    rw [List.append_assoc, ← definitionPart_eq] at hcode
    exact ⟨_, _, _, hcode, .inl ⟨rfl, _, definitionPart_eq program ▸ hfits hroom,
      definitionPart_eq program ▸ hfits' hroom⟩⟩
  -- the definitions that fit are the same with either setting
  · obtain ⟨rest, hrest⟩ := fitting_prefix capacity im.store.base (definitions program)
    refine ⟨_, _, _, hrewound.withDefinitions _, .inr ⟨?_, hfails hroom, hfails' hroom⟩⟩
    rw [programEnds, definitionPart_eq, List.prefix_append_right_inj, ← hrest,
      List.flatMap_append, List.append_assoc, hrest]
    exact List.prefix_append _ _

variable {id : Nat} {echo : Bool} {im : Image}

/-- A definition adds no symbols but its own. -/
theorem symbol_mem_withDefinition {d : Stmt}
    (h : .symbol id ∈ (im.withDefinition echo d).store.cells) :
    .symbol id ∈ im.store.cells ∨ id ∈ d.ids := by
  cases d with
  | define kind id' ss =>
    have hmem : Cell.symbol id ∈ im.store.cells ++
        (Layout.body im.symbols echo im.store.size ss).toArray := h
    refine (Array.mem_append.1 hmem).imp_right fun hbody => List.mem_cons_of_mem id' ?_
    exact Layout.symbol_mem_body im.symbols (List.mem_toArray.1 hbody)
  | _ => exact .inl h

/-- Definitions in a row add no symbols but their own. -/
theorem symbol_mem_withDefinitions {ds : List Stmt}
    (h : .symbol id ∈ (im.withDefinitions echo ds).store.cells) :
    .symbol id ∈ im.store.cells ∨ id ∈ Stmt.allIds ds := by
  induction ds generalizing im with
  | nil => exact .inl h
  | cons d ds ih =>
    rw [Stmt.allIds, List.mem_append]
    rcases ih h with hcells | hrest
    · exact (symbol_mem_withDefinition hcells).imp_right .inl
    · exact .inr (.inr hrest)

end Image

theorem Stmt.mem_allIds {id : Nat} {ss : List Stmt} :
    id ∈ Stmt.allIds ss ↔ ∃ s ∈ ss, id ∈ s.ids := by
  induction ss with
  | nil => simp [Stmt.allIds]
  | cons s ss ih => simp [Stmt.allIds, ih]

/-- The symbols in generated code were there before or belong to the program. -/
theorem Image.symbol_mem_generate {capacity entry id : Nat} {echo : Bool} {im im' : Image}
    {program : List Stmt} (hw : ∀ s ∈ program, s.IsTopLevel im.symbols)
    (h : generate capacity echo program im = .ok entry im')
    (hmem : .symbol id ∈ im'.store.cells) :
    .symbol id ∈ im.store.cells ∨ id ∈ Stmt.allIds program := by
  obtain ⟨hfits, hfails⟩ := generate_apply capacity echo hw
  by_cases hroom : im.store.base + footprint program ≤ capacity
  · rw [hfits hroom] at h
    cases h
    have hparts : ∀ {ss : List Stmt}, (∀ s ∈ ss, s ∈ program) → id ∈ Stmt.allIds ss →
        id ∈ Stmt.allIds program := by
      intro ss hss hid
      obtain ⟨s, hs, hid⟩ := Stmt.mem_allIds.1 hid
      exact Stmt.mem_allIds.2 ⟨s, hss s hs, hid⟩
    rcases Array.mem_append.1 hmem with hdefinitions | hmain
    · rcases symbol_mem_withDefinitions hdefinitions with hcells | hid
      · have htake : Cell.symbol id ∈ (im.store.cells.take im.store.base).toList :=
          Array.mem_toList_iff.2 hcells
        rw [Array.take_eq_extract, Array.toList_extract] at htake
        exact .inl (Array.mem_toList_iff.1 (List.mem_of_mem_take htake))
      · exact .inr (hparts (fun s hs => (List.mem_filter.1 hs).1) hid)
    · have hid := Layout.symbol_mem_main im.symbols (List.mem_toArray.1 hmain)
      exact .inr (hparts (fun s hs => (List.mem_filter.1 hs).1) hid)
  · rw [hfails hroom] at h
    cases h

/-- Generating code leaves the names alone. -/
theorem Image.lookup_generate {capacity entry : Nat} {echo : Bool} {im im' : Image}
    {program : List Stmt} (hw : ∀ s ∈ program, s.IsTopLevel im.symbols)
    (h : generate capacity echo program im = .ok entry im') (name : String) :
    im'.symbols.lookup name = im.symbols.lookup name := by
  -- a definition gives its name an address, but no name another place
  have hdefinitions : ∀ (ds : List Stmt) (im : Image),
      (im.withDefinitions echo ds).symbols.lookup name = im.symbols.lookup name := by
    intro ds
    induction ds with
    | nil => exact fun _ => rfl
    | cons d ds ih =>
      intro im
      refine (ih (im.withDefinition echo d)).trans ?_
      cases d <;> rfl
  obtain ⟨hfits, hfails⟩ := generate_apply capacity echo hw
  by_cases hroom : im.store.base + footprint program ≤ capacity
  · rw [hfits hroom] at h
    cases h
    exact hdefinitions (definitions program) im.rewound
  · rw [hfails hroom] at h
    cases h

end StackCalc
