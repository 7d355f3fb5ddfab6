import StackCalc.Proofs.Code.Generation
import StackCalc.Proofs.Simulation.Instructions

/-!
# Code that tracks the evaluation of its tree

The code of an expression, run cell by cell, tracks the evaluation of the
expression, and the code of a statement that of the statement. The proofs follow
the tree. What calls do is a parameter here (`Calls`), and so is what running a
stretch further in does (`Enters`), on which loops and conditions rely.

The number of cells that are run is known beforehand (`Expr.steps`,
`Stmt.steps`): a loop or a condition is one cell, whatever happens inside.
-/

namespace StackCalc

/-! ### How many cells are run -/

mutual

/-- The number of cells that are run in the code of an expression. -/
def Expr.steps : Expr → Nat
  | .literal _ => 1
  | .variable _ => 2
  | .text _ => 1
  | .binary _ lhs rhs => lhs.steps + rhs.steps + 1
  | .unary _ e => e.steps + 1
  | .builtin _ e => e.steps + 1
  | .step _ _ => 1
  | .call _ es => Expr.stepsAll es + 1
  | .arg _ => 1
  | .read _ => 1

/-- The number of cells that are run in the code of several expressions. -/
def Expr.stepsAll : List Expr → Nat
  | [] => 0
  | e :: es => e.steps + Expr.stepsAll es

end

/-- The number of cells that are run in the code of an item of a print statement. -/
def Expr.itemSteps : Expr → Nat
  | .text _ => 1
  | e => e.steps + 1

/-- The number of cells that are run in the code of the items of a print
statement. -/
def Expr.itemStepsAll : List Expr → Nat
  | [] => 0
  | e :: es => e.itemSteps + Expr.itemStepsAll es

/-- The number of cells that are run in the code of a statement that leaves its
value. -/
def Stmt.clauseSteps : Stmt → Nat
  | .assign _ _ e => e.steps + (1 + 1)
  | .argAssign _ e => e.steps + 1
  | .expr e => e.steps
  | _ => 1

/-- The number of cells that are run in the code of a statement. -/
def Stmt.steps : Stmt → Nat
  | .assign op id e => (Stmt.assign op id e).clauseSteps + 1
  | .argAssign n e => (Stmt.argAssign n e).clauseSteps + 1
  | .print items => Expr.itemStepsAll items
  | .expr e => e.steps + 1
  | .call _ es => Expr.stepsAll es + 1
  | .returnValue e => e.steps + 1
  | _ => 1

/-- The number of cells that are run in the code of several statements. -/
def Stmt.stepsAll : List Stmt → Nat
  | [] => 0
  | s :: ss => s.steps + Stmt.stepsAll ss

mutual

/-- Every cell that is run is a cell of the code. -/
theorem Expr.steps_le_size : ∀ e : Expr, e.steps ≤ e.size
  | .literal _ => Nat.le_succ _
  | .variable _ => Nat.le_succ _
  | .text _ => Nat.le_refl _
  | .binary _ lhs rhs => by
    have := lhs.steps_le_size
    have := rhs.steps_le_size
    rw [Expr.steps, Expr.size]
    omega
  | .unary _ e => Nat.succ_le_succ e.steps_le_size
  | .builtin _ e => Nat.succ_le_succ (Nat.le_succ_of_le e.steps_le_size)
  | .step _ _ => Nat.le_succ _
  | .call _ es => by
    have := Expr.stepsAll_le_sizes es
    rw [Expr.steps, Expr.size]
    omega
  | .arg _ => Nat.le_succ _
  | .read _ => Nat.le_succ _

theorem Expr.stepsAll_le_sizes : ∀ es : List Expr, Expr.stepsAll es ≤ Expr.sizes es
  | [] => Nat.le_refl _
  | e :: es => Nat.add_le_add e.steps_le_size (Expr.stepsAll_le_sizes es)

end

theorem Expr.itemSteps_le_itemSize (e : Expr) : e.itemSteps ≤ e.itemSize := by
  cases e with
  | text id => exact Nat.le_succ _
  | _ => exact Nat.succ_le_succ (Expr.steps_le_size _)

theorem Expr.itemStepsAll_le_itemSizes (es : List Expr) :
    Expr.itemStepsAll es ≤ Expr.itemSizes es := by
  induction es with
  | nil => exact Nat.le_refl _
  | cons e es ih => exact Nat.add_le_add e.itemSteps_le_itemSize ih

/-- The same for a statement that leaves its value. -/
theorem Stmt.clauseSteps_le_clauseSize (s : Stmt) : s.clauseSteps ≤ s.clauseSize := by
  cases s with
  | assign op id e => exact Nat.add_le_add e.steps_le_size (by decide)
  | argAssign n e => exact Nat.add_le_add e.steps_le_size (by decide)
  | expr e => exact e.steps_le_size
  | _ => exact Nat.le_refl _

/-- The same for a statement. What is run inside a loop or a branch does not
count. -/
theorem Stmt.steps_le_size (s : Stmt) : s.steps ≤ s.size := by
  cases s with
  | assign op id e =>
    have := e.steps_le_size
    rw [Stmt.steps, Stmt.clauseSteps, Stmt.size]
    omega
  | argAssign n e =>
    have := e.steps_le_size
    rw [Stmt.steps, Stmt.clauseSteps, Stmt.size]
    omega
  | print items => exact Expr.itemStepsAll_le_itemSizes items
  | expr e => exact Nat.succ_le_succ e.steps_le_size
  | call id es => exact Nat.add_le_add (Expr.stepsAll_le_sizes es) (by decide)
  | returnValue e => exact Nat.succ_le_succ e.steps_le_size
  | returnNothing => exact Nat.le_refl _
  | define kind id ss => exact Nat.le_refl _
  | whileLoop cond body =>
    rw [Stmt.size]
    exact Nat.le_add_left 1 _
  | forLoop init cond post body =>
    rw [Stmt.size]
    exact Nat.le_add_left 1 _
  | ifThen cond body =>
    rw [Stmt.size]
    exact Nat.le_add_left 1 _
  | ifElse cond body other =>
    rw [Stmt.size]
    exact Nat.le_add_left 1 _

theorem Stmt.stepsAll_le_sizes (ss : List Stmt) : Stmt.stepsAll ss ≤ Stmt.sizes ss := by
  induction ss with
  | nil => exact Nat.le_refl _
  | cons s ss ih => exact Nat.add_le_add s.steps_le_size ih

theorem Stmt.stepsAll_append (ss ss' : List Stmt) :
    Stmt.stepsAll (ss ++ ss') = Stmt.stepsAll ss + Stmt.stepsAll ss' := by
  induction ss with
  | nil => exact (Nat.zero_add _).symm
  | cons s ss ih => rw [List.cons_append, Stmt.stepsAll, Stmt.stepsAll, ih, Nat.add_assoc]

/-! ### Where code may be run -/

/-- A world in which code generated with the symbols `t` may be run. -/
structure World.Fits (w : World) (t : SymbolTable) : Prop where
  sound : w.symbols.Sound
  advances : t.Advances w.symbols

theorem World.Fits.of_ok {α : Type} {t : SymbolTable} {w w' : World}
    (h : w.Fits t) {x : Eval α} (hb : Eval.Behaves x) {a : α} (hx : x w = .ok a w') :
    w'.Fits t := by
  have hruns := hb.of_ok hx h.sound
  exact ⟨hruns.advances.sound h.sound, h.advances.trans hruns.advances⟩

/-- A world shown with the stacks `S` and `F`, in which code generated with the
symbols `t` may be run. -/
structure Ready (quiet inDefinition : Bool) (t : SymbolTable) (w : World) (σ : Signals)
    (S : Array Datum) (F : Array Frame) : Prop where
  calm : quiet = true → σ.Calm
  fits : w.Fits t
  situated : Situated inDefinition w.call F S

/-- What calls do: they track their evaluation, behave, and leave the call at
hand alone. -/
structure Calls (quiet : Bool) (job : Job) (t : SymbolTable) (enter : Nat → Exec Unit)
    (invoke : Nat → List Float → Eval (Option Float)) : Prop where
  behaves : Eval.BehavesCalls invoke
  restores : ∀ id xs, Eval.Restores (invoke id xs)
  tracks : ∀ {id xs w σ S F a}, (quiet = true → σ.Calm) → World.Fits w t →
    job.cells[a]? = some (.symbol id) → job.cells[a + 1]? = some (.count xs.length) →
    Tracks quiet (fun v w' _ m' => w'.Shown quiet (withValue S v) F (a + 2) false m')
      (invoke id xs w)
      (Exec.call job enter (w.machine σ (S ++ (xs.map Datum.ofValue).toArray) F a false))

section

variable {quiet inDefinition : Bool} {t : SymbolTable} {w : World} {σ : Signals}
  {S : Array Datum} {F : Array Frame}

/-- Evaluating something that leaves the call at hand alone, and pushing its
value. -/
theorem Ready.of_ok {α : Type} (h : Ready quiet inDefinition t w σ S F) {x : Eval α}
    (hb : Eval.Behaves x) (hr : Eval.Restores x) {y : α} {w' : World}
    (hx : x w = .ok y w') {σ' : Signals} (hσ' : quiet = true → σ'.Calm) :
    Ready quiet inDefinition t w' σ' S F where
  calm := hσ'
  fits := h.fits.of_ok hb hx
  situated := by
    rw [hr.eq_of_ok hx]
    exact h.situated

/-- Operands that are pushed do not move the arguments of the call. -/
theorem Ready.push (h : Ready quiet inDefinition t w σ S F) (d : Datum) :
    Ready quiet inDefinition t w σ (S.push d) F :=
  ⟨h.calm, h.fits, h.situated.push d⟩

end

/-! ### Expressions -/

namespace Exec

variable {job : Job} {enter : Nat → Exec Unit} {fuel : Nat}
  {invoke : Nat → List Float → Eval (Option Float)} {quiet : Bool} {t : SymbolTable}

/-- The operation behind the code of an operand. -/
theorem tracks_behind {α β : Type} {mid : α → World → Unit → Machine → Prop}
    {post : β → World → Unit → Machine → Prop} {x : Eval α} {f : α → Eval β} {w : World}
    {m : Machine} {n k : Nat} (h : Tracks quiet mid (x w) (advance job enter fuel n m))
    (hf : ∀ {y w' m'}, x w = .ok y w' → mid y w' () m' →
      Tracks quiet post (f y w') (advance job enter fuel k m')) :
    Tracks quiet post ((x >>= f) w) (advance job enter fuel (n + k) m) := by
  rw [advance_add]
  exact h.bind fun hx hp => hf hx hp

/-- A reference is pushed, of which the evaluation knows nothing, and then an
operation is run. -/
theorem tracks_reference {α : Type} {post : α → World → Unit → Machine → Prop}
    {x : Eval α} {w : World} {σ : Signals} {S : Array Datum}
    {F : Array Frame} {a id : Nat} (hσ : quiet = true → σ.Calm)
    (hcell : job.cells[a]? = some (Layout.plain .varPush))
    (hsymbol : job.cells[a + 1]? = some (.symbol id)) (h : Tracks quiet post (x w)
      (advance job enter fuel 1 (w.machine σ (S.push (.reference id)) F (a + 2) false))) :
    Tracks quiet post (x w)
      (advance job enter fuel (1 + 1) (w.machine σ S F a false)) := by
  have hpush : Tracks quiet
      (fun _ w' _ m' => w = w' ∧
        m' = w.machine σ (S.push (.reference id)) F (a + 2) false)
      ((pure () : Eval Unit) w) (advance job enter fuel 1 (w.machine σ S F a false)) :=
    tracks_op hσ hcell (tracks_varPush hsymbol ⟨rfl, rfl⟩)
  show Tracks quiet post ((pure () >>= fun _ => x) w) _
  refine tracks_behind hpush ?_
  rintro _ _ _ - ⟨rfl, rfl⟩
  exact h

mutual

/-- The code of an expression tracks its evaluation and leaves its value. -/
theorem tracks_expr (hcalls : Calls quiet job t enter invoke) :
    ∀ (e : Expr) {inDefinition : Bool} {w : World} {σ : Signals} {S : Array Datum}
      {F : Array Frame} {a : Nat}, e.WellFormed t inDefinition →
      Holds job.cells a (Layout.expr t e) →
      Ready quiet inDefinition t w σ S F →
      Tracks quiet (Pushed quiet S F (a + e.size)) (Eval.expr invoke e w)
        (advance job enter fuel e.steps (w.machine σ S F a false))
  | .literal id, _, w, _, _, _, _, hw, hcode, h => by
    -- the cell holds the value that the literal had when the code was laid out;
    -- running code does not change it
    have hvalue : (w.symbols.get id).value = (t.get id).value :=
      (h.fits.advances.evolves.number hw).2
    have heval : Eval.expr invoke (.literal id) w = .ok (t.get id).value w := by
      rw [← hvalue]
      rfl
    rw [heval]
    exact tracks_op h.calm hcode.1 (tracks_constPush h.calm hcode.2.1)
  | .variable id, _, _, _, _, _, _, _, hcode, h =>
    tracks_reference h.calm hcode.1 hcode.2.1
      (tracks_op h.calm hcode.2.2.1 (tracks_eval h.calm id))
  | .binary op lhs rhs, _, w, _, S, F, a, ⟨hop, hl, hr⟩, hcode, h => by
    obtain ⟨o, ho⟩ := Option.isSome_iff_exists.mp hop
    rw [Layout.expr, ho, holds_append, holds_append, List.length_append,
      Layout.length_expr, Layout.length_expr, ← Nat.add_assoc] at hcode
    obtain ⟨⟨hlhs, hrhs⟩, hcell, -⟩ := hcode
    rw [Expr.steps, Nat.add_assoc, Expr.size, ← Nat.add_assoc a, ← Nat.add_assoc a]
    refine tracks_behind (tracks_expr hcalls lhs hl hlhs h) ?_
    rintro x w' _ hx ⟨σ', hσ', rfl⟩
    -- the value of the left operand lies on the stack while the right one is run
    have h' := (h.of_ok (Eval.behaves_expr hcalls.behaves lhs)
      (Eval.restores_expr hcalls.restores lhs) hx hσ').push (.ofValue x)
    refine tracks_behind (tracks_expr hcalls rhs hr hrhs h') ?_
    rintro y w'' _ - ⟨σ'', hσ'', rfl⟩
    exact tracks_op hσ'' hcell (tracks_binary hσ'' ho x y)
  | .unary op e, _, w, _, S, F, a, ⟨hop, he⟩, hcode, h => by
    obtain ⟨i, hi⟩ := Option.isSome_iff_exists.mp hop
    rw [Layout.expr, hi, holds_append, Layout.length_expr] at hcode
    refine tracks_behind (tracks_expr hcalls e he hcode.1 h) ?_
    rintro x w' _ - ⟨σ', hσ', rfl⟩
    exact tracks_op hσ' hcode.2.1 (tracks_unary hσ' hi x)
  | .builtin id e, _, w, _, S, F, a, ⟨hk, hn, he⟩, hcode, h => by
    rw [Layout.expr, holds_append, Layout.length_expr] at hcode
    obtain ⟨hoperand, hcell, hsymbol, -⟩ := hcode
    refine tracks_behind (tracks_expr hcalls e he hoperand h) ?_
    rintro x w' _ hx ⟨σ', hσ', rfl⟩
    have hfits := h.fits.of_ok (Eval.behaves_expr hcalls.behaves e) hx
    -- an operand may assign to variables, but a built-in stays one
    have hnative : (w'.symbols.get id).native.isSome := by
      rw [hfits.advances.evolves.native
        (SymbolTable.lt_size_of_kind (by rw [hk]; decide))]
      exact hn
    exact tracks_op hσ' hcell (tracks_builtin hσ' hsymbol hnative x)
  | .step how id, _, _, _, _, _, _, _, hcode, h =>
    tracks_op h.calm hcode.1 (tracks_step h.calm hcode.2.1 how)
  | .call id es, _, w, _, S, F, a, ⟨_, hes⟩, hcode, h => by
    rw [Layout.expr, holds_append, Layout.length_exprs] at hcode
    obtain ⟨harguments, hcell, hsymbol, hcount, -⟩ := hcode
    refine tracks_behind (tracks_exprs hcalls es hes harguments h) ?_
    rintro xs w' _ hx ⟨σ', hσ', rfl⟩
    have hfits := h.fits.of_ok (Eval.behaves_exprs hcalls.behaves es) hx
    rw [← Eval.length_exprs hx] at hcount
    -- a callee without a value leaves nothing on the stack: the evaluation is
    -- unbalanced there
    refine Tracks.bind_left (tracks_op hσ' hcell (hcalls.tracks hσ' hfits hsymbol hcount))
      ?_
    intro v w'' _ m'' _ hshown
    cases v with
    | some x => exact Tracks.ok hshown
    | none => exact Tracks.unbalanced w'' _
  | .arg n, _, _, _, _, _, _, ⟨hd, hn⟩, hcode, h => by
    subst hd
    exact tracks_op h.calm hcode.1 (tracks_arg h.calm hn hcode.2.1 h.situated)
  | .read id, _, _, _, _, _, _, _, hcode, h =>
    tracks_op h.calm hcode.1 (tracks_read h.calm hcode.2.1)

/-- The code of several expressions tracks their evaluation and leaves their
values. -/
theorem tracks_exprs (hcalls : Calls quiet job t enter invoke) :
    ∀ (es : List Expr) {inDefinition : Bool} {w : World} {σ : Signals} {S : Array Datum}
      {F : Array Frame} {a : Nat}, Expr.AllWellFormed t inDefinition es →
      Holds job.cells a (Layout.exprs t es) → Ready quiet inDefinition t w σ S F →
      Tracks quiet (fun xs w' _ m' =>
        w'.Shown quiet (S ++ (xs.map Datum.ofValue).toArray) F
          (a + Expr.sizes es) false m') (Eval.exprs invoke es w)
        (advance job enter fuel (Expr.stepsAll es) (w.machine σ S F a false))
  | [], _, _, σ, S, _, _, _, _, h => by
    refine Tracks.ok ⟨σ, h.calm, ?_⟩
    simp [Expr.sizes]
  | e :: es, _, w, _, S, F, a, ⟨he, hes⟩, hcode, h => by
    rw [Layout.exprs, holds_append, Layout.length_expr] at hcode
    rw [Expr.sizes, ← Nat.add_assoc]
    refine tracks_behind (tracks_expr hcalls e he hcode.1 h) ?_
    rintro x w' _ hx ⟨σ', hσ', rfl⟩
    have h' := (h.of_ok (Eval.behaves_expr hcalls.behaves e)
      (Eval.restores_expr hcalls.restores e) hx hσ').push (.ofValue x)
    refine Tracks.bind_left (tracks_exprs hcalls es hes hcode.2 h') ?_
    rintro xs w'' _ _ - ⟨σ'', hσ'', rfl⟩
    refine Tracks.ok ⟨σ'', hσ'', ?_⟩
    simp

end

/-! ### Statements that leave their value -/

variable {inDefinition : Bool} {w : World} {σ : Signals} {S : Array Datum}
  {F : Array Frame} {a : Nat}

/-- A value pushed by something that leaves the call at hand alone. -/
theorem tracks_settled {x : Eval Float} {y : EStateM.Result Halt Machine Unit}
    (h : Tracks quiet (Pushed quiet S F a) (x w) y) (hr : Eval.Restores x)
    (hs : Situated inDefinition w.call F S) :
    Tracks quiet (Settled quiet inDefinition S F a) (x w) y := by
  refine h.mono fun hx hp => ⟨S, hp, Alike.refl F S, ?_⟩
  rw [hr.eq_of_ok hx]
  exact hs

/-- The code of a statement that leaves its value tracks its evaluation. -/
theorem tracks_clause (hcalls : Calls quiet job t enter invoke) {s : Stmt}
    (hs : s.IsClause t inDefinition) (hcode : Holds job.cells a (Layout.clause t s))
    (h : Ready quiet inDefinition t w σ S F) :
    Tracks quiet (Settled quiet inDefinition S F (a + s.clauseSize))
      (Eval.clause invoke s w)
      (advance job enter fuel s.clauseSteps (w.machine σ S F a false)) := by
  cases s with
  | assign op id e =>
    obtain ⟨hop, -, he⟩ := hs
    obtain ⟨o, ho⟩ := Option.isSome_iff_exists.mp hop
    rw [Layout.clause, ho, holds_append, Layout.length_expr] at hcode
    obtain ⟨hoperand, hpush, hsymbol, hcell, -⟩ := hcode
    refine tracks_settled (x := Eval.clause invoke (.assign op id e)) ?_ ?_ h.situated
    -- the operand is run first, and then the variable to be assigned to is
    -- referred to
    · refine tracks_behind (tracks_expr hcalls e he hoperand h) ?_
      rintro x w' _ - ⟨σ', hσ', rfl⟩
      exact tracks_reference hσ' hpush hsymbol
        (tracks_op hσ' hcell (tracks_assignTop hσ' ho id x))
    · exact (Eval.restores_expr hcalls.restores e).bind fun x =>
        Eval.restores_update op id x
  | argAssign n e =>
    obtain ⟨hd, hn, he⟩ := hs
    subst hd
    rw [Layout.clause, holds_append, Layout.length_expr] at hcode
    obtain ⟨hoperand, hcell, hcount, -⟩ := hcode
    refine tracks_behind (tracks_expr hcalls e he hoperand h) ?_
    rintro x w' _ hx ⟨σ', hσ', rfl⟩
    have h' := h.of_ok (Eval.behaves_expr hcalls.behaves e)
      (Eval.restores_expr hcalls.restores e) hx hσ'
    exact tracks_op hσ' hcell (tracks_argAssign hσ' hn hcount h'.situated x)
  | expr e =>
    exact tracks_settled (tracks_expr hcalls e hs hcode h)
      (Eval.restores_expr hcalls.restores e) h.situated
  | _ => exact hs.elim

/-! ### Print statements -/

/-- An item of a print statement is written and leaves nothing. -/
theorem tracks_printItem (hcalls : Calls quiet job t enter invoke) {e : Expr}
    (he : e.Printable t inDefinition) (hcode : Holds job.cells a (Layout.printItem t e))
    (h : Ready quiet inDefinition t w σ S F) :
    Tracks quiet (fun _ w' _ m' => w'.Shown quiet S F (a + e.itemSize) false m')
      (Eval.printItem invoke e w)
      (advance job enter fuel e.itemSteps (w.machine σ S F a false)) := by
  cases e with
  | text id =>
    obtain ⟨hid, htext⟩ := he
    obtain ⟨s, hs⟩ := Option.isSome_iff_exists.mp htext
    -- the cell holds the text itself, the evaluation looks it up
    have hsame := h.fits.advances.evolves.text hid
    have heval : Eval.printItem invoke (.text id) w = Eval.print (.text s) w := by
      rw [Eval.printItem, Action.bind_of_ok (Eval.symbol_apply id w), hsame, hs]
    rw [Layout.printItem, hs] at hcode
    rw [heval]
    exact tracks_op h.calm hcode.1 (tracks_printText h.calm hcode.2.1)
  | _ =>
    rw [Layout.printItem, holds_append, Layout.length_expr] at hcode
    · refine tracks_behind (tracks_expr hcalls _ he hcode.1 h) ?_
      rintro x w' _ - ⟨σ', hσ', rfl⟩
      exact tracks_op hσ' hcode.2.1 (tracks_printValue job hσ' x)
    · intro id hid
      cases hid

/-- The items of a print statement are written one after the other. -/
theorem tracks_printItems (hcalls : Calls quiet job t enter invoke) :
    ∀ {es : List Expr} {w : World} {σ : Signals} {a : Nat},
      (∀ e ∈ es, e.Printable t inDefinition) →
      Holds job.cells a (Layout.printItems t es) →
      Ready quiet inDefinition t w σ S F →
      Tracks quiet (fun _ w' _ m' => w'.Shown quiet S F (a + Expr.itemSizes es) false m')
        (Eval.printItems invoke es w)
        (advance job enter fuel (Expr.itemStepsAll es) (w.machine σ S F a false))
  | [], _, σ, _, _, _, h => Tracks.ok ⟨σ, h.calm, rfl⟩
  | e :: es, w, _, a, hes, hcode, h => by
    obtain ⟨he, hes⟩ := List.forall_mem_cons.mp hes
    rw [Layout.printItems, holds_append, Layout.length_printItem] at hcode
    rw [Expr.itemSizes, ← Nat.add_assoc]
    refine tracks_behind (tracks_printItem hcalls he hcode.1 h) ?_
    rintro _ w' _ hx ⟨σ', hσ', rfl⟩
    exact tracks_printItems hcalls hes hcode.2
      (h.of_ok (Eval.behaves_printItem hcalls.behaves e)
        (Eval.restores_printItem hcalls.restores e) hx hσ')

end Exec

end StackCalc
