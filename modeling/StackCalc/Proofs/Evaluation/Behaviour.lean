import StackCalc.Proofs.Evaluation.Evaluator

/-!
# How evaluations behave

More rounds change no result but that of having used them up
(`Eval.program_mono`), and an evaluation keeps of the symbol table what running
code keeps (`Eval.behaves_stmts`). Both are said of every tree and follow its
structure, with calls as a parameter; `Eval.invoke` is then one more induction.
-/

namespace StackCalc

namespace Eval

open StackCalc.Action

/-! ### More rounds -/

/-- One way to make calls is as good as another, as far as it has rounds. -/
abbrev ApproxCalls (invoke invoke' : Nat → List Float → Eval (Option Float)) : Prop :=
  ∀ id xs, Approx .outOfFuel (invoke id xs) (invoke' id xs)

section

variable {invoke invoke' : Nat → List Float → Eval (Option Float)}

mutual

/-- An expression uses up rounds only in its calls. -/
theorem approx_expr (h : ApproxCalls invoke invoke') :
    ∀ e : Expr, Approx .outOfFuel (expr invoke e) (expr invoke' e)
  | .literal _ => Approx.refl _
  | .variable _ => Approx.refl _
  | .text _ => Approx.refl _
  | .binary _ lhs rhs =>
    (approx_expr h lhs).bind fun _ => (approx_expr h rhs).bind fun _ => Approx.refl _
  | .unary _ e => (approx_expr h e).bind fun _ => Approx.refl _
  | .builtin _ e => (approx_expr h e).bind fun _ => Approx.refl _
  | .step _ _ => Approx.refl _
  | .call id es => (approx_exprs h es).bind fun xs =>
    (h id xs).bind fun _ => Approx.refl _
  | .arg _ => Approx.refl _
  | .read _ => Approx.refl _

theorem approx_exprs (h : ApproxCalls invoke invoke') :
    ∀ es : List Expr, Approx .outOfFuel (exprs invoke es) (exprs invoke' es)
  | [] => Approx.refl _
  | e :: es => (approx_expr h e).bind fun _ => (approx_exprs h es).bind fun _ =>
    Approx.refl _

end

/-- A clause uses up rounds only in the calls of its expression. -/
theorem approx_clause (h : ApproxCalls invoke invoke') (s : Stmt) :
    Approx .outOfFuel (clause invoke s) (clause invoke' s) := by
  cases s with
  | assign op id e => exact (approx_expr h e).bind fun _ => Approx.refl _
  | argAssign n e => exact (approx_expr h e).bind fun _ => Approx.refl _
  | expr e => exact approx_expr h e
  | _ => exact Approx.refl _

/-- An item uses up rounds only in the calls of its expression. -/
theorem approx_printItem (h : ApproxCalls invoke invoke') (e : Expr) :
    Approx .outOfFuel (printItem invoke e) (printItem invoke' e) := by
  cases e with
  | text id => exact Approx.refl _
  | _ => exact (approx_expr h _).bind fun _ => Approx.refl _

theorem approx_printItems (h : ApproxCalls invoke invoke') (es : List Expr) :
    Approx .outOfFuel (printItems invoke es) (printItems invoke' es) := by
  induction es with
  | nil => exact Approx.refl _
  | cons e es ih => exact (approx_printItem h e).bind fun _ => ih

/-- A loop with more rounds and a body with more of them goes on where one with
fewer ends. -/
theorem approx_whileLoop {cond cond' : Eval Float} {body body' : Eval Flow}
    (hcond : Approx .outOfFuel cond cond') (hbody : Approx .outOfFuel body body')
    {rounds rounds' : Nat} (hr : rounds ≤ rounds') :
    Approx .outOfFuel (whileLoop cond body rounds) (whileLoop cond' body' rounds') := by
  induction rounds generalizing rounds' with
  | zero => exact Approx.throw _
  | succ rounds ih =>
    obtain ⟨rounds', rfl⟩ : ∃ n, rounds' = n + 1 := ⟨rounds' - 1, by omega⟩
    refine hcond.bind fun x => ?_
    split
    · refine hbody.bind fun f => ?_
      cases f with
      | next => exact ih (by omega)
      | back v => exact Approx.refl _
    · exact Approx.refl _

/-- The same of a `for` loop. -/
theorem approx_forLoop {cond cond' post post' : Eval Float} {body body' : Eval Flow}
    (hcond : Approx .outOfFuel cond cond') (hpost : Approx .outOfFuel post post')
    (hbody : Approx .outOfFuel body body') {rounds rounds' : Nat}
    (hr : rounds ≤ rounds') :
    Approx .outOfFuel (forLoop cond post body rounds)
      (forLoop cond' post' body' rounds') := by
  induction rounds generalizing rounds' with
  | zero => exact Approx.throw _
  | succ rounds ih =>
    obtain ⟨rounds', rfl⟩ : ∃ n, rounds' = n + 1 := ⟨rounds' - 1, by omega⟩
    refine hcond.bind fun x => ?_
    split
    · refine hbody.bind fun f => ?_
      cases f with
      | next => exact hpost.bind fun _ => ih (by omega)
      | back v => exact Approx.refl _
    · exact Approx.refl _

variable {rounds rounds' : Nat}

mutual

/-- More rounds in the loops of a statement, and in its calls, change no result
but that of having used them up. -/
theorem approx_stmt (h : ApproxCalls invoke invoke') (hr : rounds ≤ rounds')
    (echo : Bool) :
    ∀ s : Stmt,
    Approx .outOfFuel (stmt invoke echo rounds s) (stmt invoke' echo rounds' s)
  | .assign op id e => (approx_clause h (.assign op id e)).bind fun _ => Approx.refl _
  | .argAssign n e => (approx_clause h (.argAssign n e)).bind fun _ => Approx.refl _
  | .print items => (approx_printItems h items).bind fun _ => Approx.refl _
  | .whileLoop cond body =>
    approx_whileLoop (approx_expr h cond) (approx_stmts h hr echo body) hr
  | .forLoop init cond post body =>
    (approx_clause h init).bind fun _ =>
      approx_forLoop (approx_expr h cond) (approx_clause h post)
        (approx_stmts h hr echo body) hr
  | .ifThen cond body => (approx_expr h cond).bind fun x => by
    split
    · exact approx_stmts h hr echo body
    · exact Approx.refl _
  | .ifElse cond body other => (approx_expr h cond).bind fun x => by
    split
    · exact approx_stmts h hr echo body
    · exact approx_stmts h hr echo other
  | .expr e => (approx_expr h e).bind fun _ => Approx.refl _
  | .call id es => (approx_exprs h es).bind fun xs =>
    (h id xs).bind fun _ => Approx.refl _
  | .returnValue e => (approx_expr h e).bind fun _ => Approx.refl _
  | .returnNothing => Approx.refl _
  | .define _ _ _ => Approx.refl _

theorem approx_stmts (h : ApproxCalls invoke invoke') (hr : rounds ≤ rounds')
    (echo : Bool) :
    ∀ ss : List Stmt,
    Approx .outOfFuel (stmts invoke echo rounds ss) (stmts invoke' echo rounds' ss)
  | [] => Approx.refl _
  | s :: ss => (approx_stmt h hr echo s).bind fun f => by
    cases f with
    | next => exact approx_stmts h hr echo ss
    | back v => exact Approx.refl _

end

end

/-- A call inside of another ends in the world of that one, with the same error
or none. -/
theorem approx_within {α : Type} (c : Activation) {x x' : Eval α}
    (h : Approx .outOfFuel x x') :
    Approx .outOfFuel (within c x) (within c x') := by
  intro w
  unfold within
  rcases h { w with call := some c } with ⟨w', hx⟩ | hx
  · rw [hx]
    exact .inl ⟨_, rfl⟩
  · rw [hx]
    exact .inr rfl

/-- Rounds are used up by loops and by calls. More of either kind change no
other result. -/
theorem invoke_mono (ds : Definitions) {rounds rounds' calls calls' : Nat}
    (hr : rounds ≤ rounds') (hc : calls ≤ calls') (id : Nat) (xs : List Float) :
    Approx .outOfFuel (invoke ds rounds calls id xs)
      (invoke ds rounds' calls' id xs) := by
  induction calls generalizing calls' id xs with
  | zero => exact Approx.throw _
  | succ calls ih =>
    obtain ⟨calls', rfl⟩ : ∃ n, calls' = n + 1 := ⟨calls' - 1, by omega⟩
    rw [invoke, invoke]
    split
    · exact Approx.refl _
    · exact approx_within _ ((approx_stmts (ih (by omega)) hr _ _).bind fun _ =>
        Approx.refl _)

/-- More rounds change no result but that of an evaluation that has used them up. -/
theorem program_mono (ds : Definitions) (echo : Bool) {rounds rounds' : Nat}
    (hr : rounds ≤ rounds') (ss : List Stmt) :
    Approx .outOfFuel (program ds echo rounds ss) (program ds echo rounds' ss) :=
  (approx_stmts (invoke_mono ds hr hr) hr echo _).bind fun _ => Approx.refl _

/-! ### Symbols -/

/-- What an evaluation keeps of the symbol table. -/
abbrev Behaves {α : Type} (x : Eval α) : Prop :=
  Action.Behaves World.symbols x

/-- An evaluation that changes nothing. -/
abbrev Inert {α : Type} (x : Eval α) : Prop :=
  Leaves (fun w : World => w) x

variable {α : Type}

theorem Inert.behaves {x : Eval α} (h : Inert x) : Behaves x :=
  Leaves.behaves h.of_all

theorem inert_pure (a : α) : Inert (pure a) :=
  fun _ => rfl

theorem inert_ofExcept (r : Except Fault α) : Inert (ofExcept r) := by
  cases r <;> exact fun _ => rfl

/-- To look at a symbol changes nothing and never fails. -/
theorem symbol_apply (id : Nat) (w : World) : symbol id w = .ok (w.symbols.get id) w :=
  rfl

theorem inert_symbol (id : Nat) : Inert (symbol id) :=
  fun _ => rfl

/-- A variable is only looked at. -/
theorem inert_value (id : Nat) : Inert (value id) := by
  refine (inert_symbol id).bind fun s => ?_
  cases s.kind <;> exact fun _ => rfl

theorem inert_checkAssignable (id : Nat) : Inert (checkAssignable id) := by
  refine (inert_symbol id).bind fun s => ?_
  split <;> exact fun _ => rfl

theorem inert_unary (op : Operator) (x : Float) : Inert (unary op x) := by
  cases op <;> exact fun _ => rfl

theorem inert_binary (op : Operator) (x y : Float) : Inert (binary op x y) := by
  cases op <;> first | exact inert_ofExcept _ | exact fun _ => rfl

theorem inert_combine (op : Operator) (old x : Float) : Inert (combine op old x) := by
  cases op <;> first | exact inert_ofExcept _ | exact fun _ => rfl

theorem inert_builtin (id : Nat) (x : Float) : Inert (builtin id x) := by
  refine (inert_symbol id).bind fun s => ?_
  cases s.native with
  | none => exact fun _ => rfl
  | some f => exact inert_ofExcept _

/-- Inside of a call its activation is at hand. -/
theorem activation_apply {w : World} {c : Activation} (hc : w.call = some c) :
    activation w = .ok c w := by
  rw [activation, Action.bind_of_ok (Action.get_apply w), hc]
  rfl

/-- Outside of calls there is none, which the reader of texts has ruled out. -/
theorem activation_of_none {w : World} (hc : w.call = none) :
    activation w = .error (.fault { kind := .internal }) w := by
  rw [activation, Action.bind_of_ok (Action.get_apply w), hc]
  rfl

theorem inert_activation : Inert activation := by
  refine Action.Leaves.bind (fun _ => rfl) fun w => ?_
  cases w.call <;> exact fun _ => rfl

/-- An argument is only looked at. -/
theorem inert_arg (n : Nat) : Inert (arg n) := by
  refine inert_activation.bind fun c => ?_
  split
  · exact fun _ => rfl
  · split <;> exact fun _ => rfl

theorem inert_returnValue (x : Float) : Inert (returnValue x) := by
  refine inert_activation.bind fun c => (inert_symbol _).bind fun s => ?_
  split <;> exact fun _ => rfl

theorem inert_returnNothing : Inert returnNothing := by
  refine inert_activation.bind fun c => (inert_symbol _).bind fun s => ?_
  split <;> exact fun _ => rfl

/-- A return with a value is not a procedure's. -/
theorem of_returnValue {x : Float} {w w' : World} {flow : Flow}
    (h : returnValue x w = .ok flow w') :
    ∃ c, w.call = some c ∧ (w.symbols.get c.callee).kind ≠ .procedure ∧
      flow = .back (some x) := by
  cases hc : w.call with
  | none =>
    rw [returnValue, bind_of_error (activation_of_none hc)] at h
    exact nomatch h
  | some c =>
    rw [returnValue, bind_of_ok (activation_apply hc)] at h
    have hif : (if (w.symbols.get c.callee).kind = .procedure then
        failAbout .procedureReturnsValue c.callee
      else pure (.back (some x)) : Eval Flow) w = .ok flow w' := h
    split at hif
    case isTrue => exact nomatch hif
    case isFalse hk =>
      cases hif
      exact ⟨c, rfl, hk, rfl⟩

/-- A return without a value is not a function's. -/
theorem of_returnNothing {w w' : World} {flow : Flow}
    (h : returnNothing w = .ok flow w') :
    ∃ c, w.call = some c ∧ (w.symbols.get c.callee).kind ≠ .function ∧
      flow = .back none := by
  cases hc : w.call with
  | none =>
    rw [returnNothing, bind_of_error (activation_of_none hc)] at h
    exact nomatch h
  | some c =>
    rw [returnNothing, bind_of_ok (activation_apply hc)] at h
    have hif : (if (w.symbols.get c.callee).kind = .function then
        failAbout .functionReturnsNoValue c.callee
      else pure (.back none) : Eval Flow) w = .ok flow w' := h
    split at hif
    case isTrue => exact nomatch hif
    case isFalse hk =>
      cases hif
      exact ⟨c, rfl, hk, rfl⟩

/-- A variable that has a value may be assigned to. -/
theorem isAssignable_of_value {id : Nat} {w w' : World} {x : Float}
    (h : value id w = .ok x w') : (w.symbols.get id).isAssignable := by
  rw [value, Action.bind_of_ok (symbol_apply id w)] at h
  cases hk : (w.symbols.get id).kind
  case var =>
    simp [Symbol.isAssignable, hk]
  all_goals
    rw [hk] at h
    cases h

theorem isAssignable_of_check {id : Nat} {w w' : World} {u : Unit}
    (h : checkAssignable id w = .ok u w') : (w.symbols.get id).isAssignable := by
  have hcheck : checkAssignable id w = (if (w.symbols.get id).isAssignable then pure ()
    else failAbout .assignmentToNonVariable id : Eval Unit) w := rfl
  rw [hcheck] at h
  by_cases ha : (w.symbols.get id).isAssignable
  · exact ha
  · rw [if_neg ha] at h
    exact nomatch h

/-- What is evaluated after a check that a symbol may be assigned to. -/
theorem behaves_of_check {id : Nat} {β : Type} {check : Eval α} {f : α → Eval β}
    (hinert : Inert check)
    (hcheck : ∀ {w w' a}, check w = .ok a w' → (w.symbols.get id).isAssignable)
    (hf : ∀ a, Guarded World.symbols id (f a)) : Behaves (check >>= f) := by
  intro w hs
  rcases bind_cases check f w with ⟨e, w', hx, hrun⟩ | ⟨a, w', hx, hrun⟩
  · have hw := hinert w
    rw [hx] at hw
    rw [hrun, show w' = w from hw]
    exact SymbolTable.Runs.refl _
  · have hw : w' = w := hinert.eq_of_ok hx
    subst hw
    rw [hrun]
    exact hf a w' (hcheck hx) hs

/-- An assignment to a symbol that may be assigned to keeps the rest of the
table. -/
theorem guarded_assign_pure (id : Nat) (x y : Float) :
    Guarded World.symbols id (assign id x >>= fun _ => pure y) :=
  guarded_assign (fun _ => rfl) (inert_pure y).behaves

/-- An assignment with an operator reads the old value, so that the variable has
one. -/
theorem behaves_update (op : Operator) (id : Nat) (x : Float) :
    Behaves (update op id x) :=
  behaves_of_check (inert_checkAssignable id) isAssignable_of_check fun _ =>
    Guarded.bind (inert_symbol id).of_all fun _ =>
      Guarded.bind (inert_combine op _ x).of_all fun y => guarded_assign_pure id y y

theorem behaves_step (how : Step) (id : Nat) : Behaves (step how id) :=
  behaves_of_check (inert_value id) isAssignable_of_value fun _ =>
    guarded_assign_pure id _ _

/-- Reading a line assigns to a symbol that was checked, or does not assign at
all. -/
theorem behaves_read (id : Nat) : Behaves (read id) := by
  refine behaves_of_check (inert_checkAssignable id) isAssignable_of_check fun _ =>
    Guarded.bind (fun _ => rfl) fun l => ?_
  cases l with
  | none => exact guarded_assign_pure id _ _
  | some l =>
    dsimp only
    split
    · exact guarded_assign_pure id _ _
    · exact fun _ _ _ => SymbolTable.Runs.refl _

/-- Showing a value assigns it to `_`. -/
theorem behaves_display (x : Float) : Behaves (display x) :=
  Behaves.bind (Leaves.behaves fun _ => rfl) fun _ _ hs => SymbolTable.runs_shown hs x

theorem behaves_setArg (n : Nat) (x : Float) : Behaves (setArg n x) := by
  refine inert_activation.behaves.bind fun c => Leaves.behaves ?_
  split
  · exact fun _ => rfl
  · split <;> exact fun _ => rfl

/-- Calls keep of the symbol table what running code keeps. -/
abbrev BehavesCalls (invoke : Nat → List Float → Eval (Option Float)) : Prop :=
  ∀ id xs, Behaves (invoke id xs)

section

variable {invoke : Nat → List Float → Eval (Option Float)}

mutual

/-- An expression keeps of the symbol table what running code keeps. Only steps,
reading and calls assign to anything. -/
theorem behaves_expr (h : BehavesCalls invoke) : ∀ e : Expr, Behaves (expr invoke e)
  | .literal _ => Leaves.behaves fun _ => rfl
  | .variable id => (inert_value id).behaves
  | .text _ => Leaves.behaves fun _ => rfl
  | .binary op lhs rhs =>
    (behaves_expr h lhs).bind fun x => (behaves_expr h rhs).bind fun y =>
      (inert_binary op x y).behaves
  | .unary op e => (behaves_expr h e).bind fun x => (inert_unary op x).behaves
  | .builtin id e => (behaves_expr h e).bind fun x => (inert_builtin id x).behaves
  | .step how id => behaves_step how id
  | .call id es => (behaves_exprs h es).bind fun xs => (h id xs).bind fun v => by
    cases v <;> exact Leaves.behaves fun _ => rfl
  | .arg n => (inert_arg n).behaves
  | .read id => behaves_read id

theorem behaves_exprs (h : BehavesCalls invoke) :
    ∀ es : List Expr, Behaves (exprs invoke es)
  | [] => Leaves.behaves fun _ => rfl
  | e :: es => (behaves_expr h e).bind fun _ => (behaves_exprs h es).bind fun _ =>
    Leaves.behaves fun _ => rfl

end

/-- A clause assigns to one symbol, which was checked. -/
theorem behaves_clause (h : BehavesCalls invoke) (s : Stmt) :
    Behaves (clause invoke s) := by
  cases s with
  | assign op id e => exact (behaves_expr h e).bind fun x => behaves_update op id x
  | argAssign n e => exact (behaves_expr h e).bind fun x => behaves_setArg n x
  | expr e => exact behaves_expr h e
  | _ => exact Leaves.behaves fun _ => rfl

theorem behaves_printItem (h : BehavesCalls invoke) (e : Expr) :
    Behaves (printItem invoke e) := by
  cases e with
  | text id =>
    refine Behaves.bind (Leaves.behaves fun _ => rfl) fun s => ?_
    cases s.text <;> exact Leaves.behaves fun _ => rfl
  | _ => exact (behaves_expr h _).bind fun _ => Leaves.behaves fun _ => rfl

theorem behaves_printItems (h : BehavesCalls invoke) (es : List Expr) :
    Behaves (printItems invoke es) := by
  induction es with
  | nil => exact Leaves.behaves fun _ => rfl
  | cons e es ih => exact (behaves_printItem h e).bind fun _ => ih

/-- What each round of a loop keeps, all rounds keep. -/
theorem behaves_whileLoop {cond : Eval Float} {body : Eval Flow} (hcond : Behaves cond)
    (hbody : Behaves body) (rounds : Nat) : Behaves (whileLoop cond body rounds) := by
  induction rounds with
  | zero => exact Leaves.behaves fun _ => rfl
  | succ rounds ih =>
    refine hcond.bind fun x => ?_
    split
    · refine hbody.bind fun f => ?_
      cases f with
      | next => exact ih
      | back v => exact Leaves.behaves fun _ => rfl
    · exact Leaves.behaves fun _ => rfl

/-- What each round of a `for` loop keeps, all rounds keep. -/
theorem behaves_forLoop {cond post : Eval Float} {body : Eval Flow} (hcond : Behaves cond)
    (hpost : Behaves post) (hbody : Behaves body) (rounds : Nat) :
    Behaves (forLoop cond post body rounds) := by
  induction rounds with
  | zero => exact Leaves.behaves fun _ => rfl
  | succ rounds ih =>
    refine hcond.bind fun x => ?_
    split
    · refine hbody.bind fun f => ?_
      cases f with
      | next => exact hpost.bind fun _ => ih
      | back v => exact Leaves.behaves fun _ => rfl
    · exact Leaves.behaves fun _ => rfl

mutual

/-- A statement keeps of the symbol table what running code keeps. -/
theorem behaves_stmt (h : BehavesCalls invoke) (echo : Bool) (rounds : Nat) :
    ∀ s : Stmt, Behaves (stmt invoke echo rounds s)
  | .assign op id e => (behaves_clause h (.assign op id e)).bind fun _ =>
    Leaves.behaves fun _ => rfl
  | .argAssign n e => (behaves_clause h (.argAssign n e)).bind fun _ =>
    Leaves.behaves fun _ => rfl
  | .print items => (behaves_printItems h items).bind fun _ => Leaves.behaves fun _ => rfl
  | .whileLoop cond body =>
    behaves_whileLoop (behaves_expr h cond) (behaves_stmts h echo rounds body) rounds
  | .forLoop init cond post body =>
    (behaves_clause h init).bind fun _ => behaves_forLoop (behaves_expr h cond)
      (behaves_clause h post) (behaves_stmts h echo rounds body) rounds
  | .ifThen cond body => (behaves_expr h cond).bind fun x => by
    split
    · exact behaves_stmts h echo rounds body
    · exact Leaves.behaves fun _ => rfl
  | .ifElse cond body other => (behaves_expr h cond).bind fun x => by
    split
    · exact behaves_stmts h echo rounds body
    · exact behaves_stmts h echo rounds other
  | .expr e => (behaves_expr h e).bind fun x => by
    split
    · exact (behaves_display x).bind fun _ => Leaves.behaves fun _ => rfl
    · exact Leaves.behaves fun _ => rfl
  | .call id es => (behaves_exprs h es).bind fun xs => (h id xs).bind fun v => by
    cases v <;> exact Leaves.behaves fun _ => rfl
  | .returnValue e => (behaves_expr h e).bind fun x => (inert_returnValue x).behaves
  | .returnNothing => inert_returnNothing.behaves
  | .define _ _ _ => Leaves.behaves fun _ => rfl

theorem behaves_stmts (h : BehavesCalls invoke) (echo : Bool) (rounds : Nat) :
    ∀ ss : List Stmt, Behaves (stmts invoke echo rounds ss)
  | [] => Leaves.behaves fun _ => rfl
  | s :: ss => (behaves_stmt h echo rounds s).bind fun f => by
    cases f with
    | next => exact behaves_stmts h echo rounds ss
    | back v => exact Leaves.behaves fun _ => rfl

end

theorem behaves_body (h : BehavesCalls invoke) (echo : Bool) (rounds : Nat)
    (ss : List Stmt) :
    Behaves (body invoke echo rounds ss) := by
  refine (behaves_stmts h echo rounds ss).bind fun f => ?_
  cases f with
  | back v => exact Leaves.behaves fun _ => rfl
  | next =>
    refine inert_returnNothing.behaves.bind fun f => ?_
    cases f <;> exact Leaves.behaves fun _ => rfl

end

theorem behaves_within (c : Activation) {x : Eval α} (h : Behaves x) :
    Behaves (within c x) := by
  intro w hs
  have hruns := h { w with call := some c } hs
  unfold within
  cases hx : x { w with call := some c } <;> rw [hx] at hruns <;> exact hruns

/-- Calls keep what running code keeps, however deep they go. -/
theorem behaves_invoke (ds : Definitions) (rounds calls : Nat) :
    BehavesCalls (invoke ds rounds calls) := by
  induction calls with
  | zero => exact fun _ _ => Leaves.behaves fun _ => rfl
  | succ calls ih =>
    intro id xs
    rw [invoke]
    split
    · exact Leaves.behaves fun _ => rfl
    · exact behaves_within _ (behaves_body ih _ rounds _)

/-! ### The call at hand -/

/-- An evaluation after which the same call is at hand, with the same arguments. -/
abbrev Restores {α : Type} (x : Eval α) : Prop :=
  Leaves World.call x

theorem restores_step (how : Step) (id : Nat) : Restores (step how id) :=
  (inert_value id).of_all.bind fun _ _ => rfl

theorem restores_read (id : Nat) : Restores (read id) := by
  refine (inert_checkAssignable id).of_all.bind fun _ =>
    Leaves.bind (fun _ => rfl) fun l => ?_
  cases l with
  | none => exact fun _ => rfl
  | some l =>
    dsimp only
    split <;> exact fun _ => rfl

theorem restores_update (op : Operator) (id : Nat) (x : Float) :
    Restores (update op id x) :=
  (inert_checkAssignable id).of_all.bind fun _ => (inert_symbol id).of_all.bind fun _ =>
    (inert_combine op _ x).of_all.bind fun _ _ => rfl

theorem restores_display (x : Float) : Restores (display x) :=
  fun _ => rfl

/-- A call is left behind when it is done. -/
theorem restores_within (c : Activation) (x : Eval α) : Restores (within c x) := by
  intro w
  unfold within
  cases x { w with call := some c } <;> rfl

/-- A call restores the call in which it was made. -/
theorem restores_invoke (ds : Definitions) (rounds calls id : Nat) (xs : List Float) :
    Restores (invoke ds rounds calls id xs) := by
  cases calls with
  | zero => exact fun _ => rfl
  | succ calls =>
    rw [invoke]
    split
    · exact fun _ => rfl
    · exact restores_within _ _

section

variable {invoke : Nat → List Float → Eval (Option Float)}

mutual

/-- Expressions only read the arguments of the call at hand. -/
theorem restores_expr (h : ∀ id xs, Restores (invoke id xs)) :
    ∀ e : Expr, Restores (expr invoke e)
  | .literal id => fun _ => rfl
  | .variable id => (inert_value id).of_all
  | .text _ => fun _ => rfl
  | .binary op lhs rhs =>
    (restores_expr h lhs).bind fun x => (restores_expr h rhs).bind fun y =>
      (inert_binary op x y).of_all
  | .unary op e => (restores_expr h e).bind fun x => (inert_unary op x).of_all
  | .builtin id e => (restores_expr h e).bind fun x => (inert_builtin id x).of_all
  | .step how id => restores_step how id
  | .call id es => (restores_exprs h es).bind fun xs => (h id xs).bind fun v => by
    cases v <;> exact fun _ => rfl
  | .arg n => (inert_arg n).of_all
  | .read id => restores_read id

/-- Neither do expressions in a row. -/
theorem restores_exprs (h : ∀ id xs, Restores (invoke id xs)) :
    ∀ es : List Expr, Restores (exprs invoke es)
  | [] => fun _ => rfl
  | e :: es => (restores_expr h e).bind fun _ => (restores_exprs h es).bind fun _ _ => rfl

end

theorem restores_printItem (h : ∀ id xs, Restores (invoke id xs)) (e : Expr) :
    Restores (printItem invoke e) := by
  cases e with
  | text id =>
    refine (inert_symbol id).of_all.bind fun s => ?_
    cases s.text <;> exact fun _ => rfl
  | _ => exact (restores_expr h _).bind fun _ _ => rfl

theorem restores_printItems (h : ∀ id xs, Restores (invoke id xs)) (es : List Expr) :
    Restores (printItems invoke es) := by
  induction es with
  | nil => exact fun _ => rfl
  | cons e es ih => exact (restores_printItem h e).bind fun _ => ih

end

/-- As many values as expressions. -/
theorem length_exprs {invoke : Nat → List Float → Eval (Option Float)} {es : List Expr}
    {w w' : World} {xs : List Float} (h : exprs invoke es w = .ok xs w') :
    xs.length = es.length := by
  induction es generalizing w xs with
  | nil =>
    cases h
    rfl
  | cons e es ih =>
    rw [exprs] at h
    rcases bind_cases (expr invoke e) _ w with ⟨e', w₁, -, hrun⟩ | ⟨x, w₁, -, hrun⟩
    · exact nomatch hrun.symm.trans h
    · rw [hrun] at h
      rcases bind_cases (exprs invoke es) _ w₁ with
        ⟨e', w₂, -, hrun'⟩ | ⟨ys, w₂, hys, hrun'⟩
      · exact nomatch hrun'.symm.trans h
      · cases hrun'.symm.trans h
        rw [List.length_cons, List.length_cons, ih hys]

end Eval

end StackCalc
