import StackCalc.Proofs.Evaluation.Behaviour

/-!
# Calls that agree with what they call

A call in an expression is of a function and a call statement is of a procedure
when the text is read, but a name may be defined anew as the other sort later
on. `Expr.agrees` and `Stmt.agrees` say of a tree that its calls fit the kinds
that a symbol table has now; they can be computed.

If the calls of a program and of the definitions at hand agree, and `_`, which
running code assigns to, names neither, then no evaluation is broken off as
unbalanced (`Eval.balanced_stmts`): kinds of functions and procedures stay as
they are while code is run, and a body returns what its kind owes.
-/

namespace StackCalc

/-! ### Agreement -/

section

variable (t : SymbolTable)

mutual

/-- Whether every call in an expression is of a function. -/
def Expr.agrees : Expr → Bool
  | .binary _ lhs rhs => lhs.agrees && rhs.agrees
  | .unary _ e => e.agrees
  | .builtin _ e => e.agrees
  | .call id es => (t.get id).kind == .function && Expr.allAgree es
  | _ => true

/-- Whether every call in some expressions is of a function. -/
def Expr.allAgree : List Expr → Bool
  | [] => true
  | e :: es => e.agrees && Expr.allAgree es

end

mutual

/-- Whether every call in an expression of a statement is of a function, and
every call statement in it is of a procedure. -/
def Stmt.agrees : Stmt → Bool
  | .assign _ _ e => e.agrees t
  | .argAssign _ e => e.agrees t
  | .print items => Expr.allAgree t items
  | .whileLoop cond body => cond.agrees t && Stmt.allAgree body
  | .forLoop init cond post body =>
    init.agrees && cond.agrees t && post.agrees && Stmt.allAgree body
  | .ifThen cond body => cond.agrees t && Stmt.allAgree body
  | .ifElse cond body other => cond.agrees t && Stmt.allAgree body && Stmt.allAgree other
  | .expr e => e.agrees t
  | .call id es => (t.get id).kind == .procedure && Expr.allAgree t es
  | .returnValue e => e.agrees t
  | .returnNothing => true
  | .define _ _ body => Stmt.allAgree body

/-- Whether the calls in some statements agree. -/
def Stmt.allAgree : List Stmt → Bool
  | [] => true
  | s :: ss => s.agrees && Stmt.allAgree ss

end

end

/-- The calls in the bodies at hand agree with the kinds of a symbol table, and
`_` names neither a function nor a procedure. -/
structure Agreement (ds : Definitions) (t : SymbolTable) : Prop where
  plain : t.Plain
  body : ∀ {id d}, ds.lookup id = some d → Stmt.allAgree t d.body

/-- It is enough that the calls in all bodies agree, those that were replaced
included. -/
theorem Agreement.of_all {ds : Definitions} {t : SymbolTable} (ht : t.Plain)
    (hds : ∀ d ∈ ds, Stmt.allAgree t d.2.body) : Agreement ds t := by
  refine ⟨ht, fun {id d} hd => ?_⟩
  obtain ⟨l₁, l₂, heq, -⟩ := List.lookup_eq_some_iff.mp hd
  exact hds (id, d) (heq ▸ List.mem_append_right l₁ List.mem_cons_self)

/-! ### Evaluations that are not broken off -/

/-- A world in which code runs that started with the symbols `t`, in a call of
`callee`. -/
structure World.Follows (t : SymbolTable) (callee : Option Nat) (w : World) : Prop where
  sound : w.symbols.Sound
  runs : t.Runs w.symbols
  callee : w.call.map Activation.callee = callee

namespace Eval

open StackCalc.Action

variable {α β : Type}

/-- The callee at hand. -/
def calleeOf (w : World) : Option Nat :=
  w.call.map Activation.callee

/-- An evaluation that fails, if it does, with a fault or for want of rounds. -/
def Definite (x : Eval α) : Prop :=
  ∀ w w', x w ≠ .error .unbalanced w'

/-- An evaluation that is not broken off as unbalanced, stays in the same call,
and has a result that meets `post`. -/
def Balanced (t : SymbolTable) (callee : Option Nat) (post : α → Prop)
    (x : Eval α) : Prop :=
  ∀ w, w.Follows t callee →
    match x w with
    | .ok a w' => w'.Follows t callee ∧ post a
    | .error e _ => e ≠ .unbalanced

/-- A sequence is broken off as unbalanced only if one of its parts is. -/
theorem Definite.bind {x : Eval α} {f : α → Eval β} (hx : Definite x)
    (hf : ∀ a, Definite (f a)) :
    Definite (x >>= f) := by
  intro w w' h
  rcases bind_cases x f w with ⟨e, w₁, hx', hrun⟩ | ⟨a, w₁, -, hrun⟩
  · cases hrun.symm.trans h
    exact hx _ _ hx'
  · exact hf a _ _ (hrun.symm.trans h)

section

variable {t : SymbolTable} {callee : Option Nat}

/-- The second part of a sequence may rely on what the first one's result meets. -/
theorem Balanced.bind {post : α → Prop} {post' : β → Prop} {x : Eval α} {f : α → Eval β}
    (hx : Balanced t callee post x) (hf : ∀ {a}, post a → Balanced t callee post' (f a)) :
    Balanced t callee post' (x >>= f) := by
  intro w hw
  have hfirst := hx w hw
  rcases bind_cases x f w with ⟨e, w₁, hx', hrun⟩ | ⟨a, w₁, hx', hrun⟩
  · rw [hx'] at hfirst
    rw [hrun]
    exact hfirst
  · rw [hx'] at hfirst
    rw [hrun]
    exact hf hfirst.2 w₁ hfirst.1

theorem Balanced.mono {post post' : α → Prop} {x : Eval α} (hx : Balanced t callee post x)
    (h : ∀ {a}, post a → post' a) : Balanced t callee post' x := by
  intro w hw
  have hfirst := hx w hw
  cases hx' : x w <;> rw [hx'] at hfirst
  · exact ⟨hfirst.1, h hfirst.2⟩
  · exact hfirst

theorem Balanced.of_ok {post : α → Prop} {x : Eval α} (hx : Balanced t callee post x)
    {w w' : World} (hw : w.Follows t callee) {a : α} (h : x w = .ok a w') : post a := by
  have hresult := hx w hw
  rw [h] at hresult
  exact hresult.2

/-- From a world that follows the symbols at hand, a balanced evaluation is not
broken off. -/
theorem Balanced.ne_unbalanced {post : α → Prop} {x : Eval α}
    (hx : Balanced t callee post x) {w : World} (hw : w.Follows t callee) (w' : World) :
    x w ≠ .error .unbalanced w' := by
  intro h
  have hresult := hx w hw
  rw [h] at hresult
  exact hresult rfl

theorem balanced_pure {post : α → Prop} {a : α} (h : post a) :
    Balanced t callee post (pure a) :=
  fun _ hw => ⟨hw, h⟩

/-- A fault is no imbalance, and neither is the end of all rounds. -/
theorem balanced_throw {post : α → Prop} {e : Abort} (h : e ≠ .unbalanced) :
    Balanced t callee post (throw e : Eval α) :=
  fun _ _ => h

/-- An evaluation is balanced if it keeps what running code keeps, stays in its
call, and has no call of its own to be broken off at. -/
theorem balanced_of_behaves {x : Eval α} (hb : Behaves x) (hc : Leaves calleeOf x)
    (hd : Definite x) : Balanced t callee (fun _ => True) x := by
  intro w hw
  split
  case h_1 a w' hx =>
    have hruns := hb.of_ok hx hw.sound
    refine ⟨⟨hruns.advances.sound hw.sound, hw.runs.trans hruns, ?_⟩, trivial⟩
    rw [← hw.callee]
    exact hc.eq_of_ok hx
  case h_2 e w' hx =>
    rintro rfl
    exact hd _ _ hx

theorem Inert.balanced {x : Eval α} (h : Inert x) (hd : Definite x) :
    Balanced t callee (fun _ => True) x :=
  balanced_of_behaves h.behaves h.of_all hd

theorem Restores.balanced {x : Eval α} (h : Restores x) (hb : Behaves x)
    (hd : Definite x) :
    Balanced t callee (fun _ => True) x :=
  balanced_of_behaves hb (fun w => congrArg (Option.map Activation.callee) (h w)) hd

end

/-! ### What is evaluated without a call -/

theorem definite_symbol (id : Nat) : Definite (symbol id) :=
  fun _ _ => nofun

theorem definite_ofExcept (r : Except Fault α) : Definite (ofExcept r) := by
  cases r <;> exact fun _ _ => nofun

theorem definite_value (id : Nat) : Definite (value id) := by
  refine (definite_symbol id).bind fun s => ?_
  cases s.kind <;> exact fun _ _ => nofun

theorem definite_checkAssignable (id : Nat) : Definite (checkAssignable id) := by
  refine (definite_symbol id).bind fun s => ?_
  split <;> exact fun _ _ => nofun

theorem definite_unary (op : Operator) (x : Float) : Definite (unary op x) := by
  cases op <;> exact fun _ _ => nofun

theorem definite_binary (op : Operator) (x y : Float) : Definite (binary op x y) := by
  cases op <;> first | exact definite_ofExcept _ | exact fun _ _ => nofun

theorem definite_combine (op : Operator) (old x : Float) :
    Definite (combine op old x) := by
  cases op <;> first | exact definite_ofExcept _ | exact fun _ _ => nofun

/-- A builtin that is none is a fault, and so is one that fails on its argument. -/
theorem definite_builtin (id : Nat) (x : Float) : Definite (builtin id x) := by
  refine (definite_symbol id).bind fun s => ?_
  cases s.native with
  | none => exact fun _ _ => nofun
  | some f => exact definite_ofExcept _

theorem definite_update (op : Operator) (id : Nat) (x : Float) :
    Definite (update op id x) :=
  (definite_checkAssignable id).bind fun _ => (definite_symbol id).bind fun _ =>
    (definite_combine op _ x).bind fun _ _ _ => nofun

theorem definite_step (how : Step) (id : Nat) : Definite (step how id) :=
  (definite_value id).bind fun _ _ _ => nofun

theorem definite_read (id : Nat) : Definite (read id) := by
  refine (definite_checkAssignable id).bind fun _ =>
    Definite.bind (fun _ _ => nofun) fun l => ?_
  cases l with
  | none => exact fun _ _ => nofun
  | some l =>
    dsimp only
    split <;> exact fun _ _ => nofun

/-- Outside of a call there is no activation, which is a fault. -/
theorem definite_activation : Definite activation := by
  refine Definite.bind (fun _ _ => nofun) fun w => ?_
  cases w.call <;> exact fun _ _ => nofun

theorem definite_arg (n : Nat) : Definite (arg n) := by
  refine definite_activation.bind fun c => ?_
  split
  · exact fun _ _ => nofun
  · split <;> exact fun _ _ => nofun

theorem definite_setArg (n : Nat) (x : Float) : Definite (setArg n x) := by
  refine definite_activation.bind fun c => ?_
  split
  · exact fun _ _ => nofun
  · split <;> exact fun _ _ => nofun

theorem definite_returnValue (x : Float) : Definite (returnValue x) := by
  refine definite_activation.bind fun c => (definite_symbol _).bind fun s => ?_
  split <;> exact fun _ _ => nofun

theorem definite_returnNothing : Definite returnNothing := by
  refine definite_activation.bind fun c => (definite_symbol _).bind fun s => ?_
  split <;> exact fun _ _ => nofun

/-- Assigning to an argument changes the call at hand, but not its callee. -/
theorem setArg_leaves_callee (n : Nat) (x : Float) : Leaves calleeOf (setArg n x) := by
  intro w
  cases hc : w.call with
  | none =>
    rw [setArg, bind_of_error (activation_of_none hc)]
    rfl
  | some c =>
    rw [setArg, bind_of_ok (activation_apply hc)]
    split
    · rfl
    · split
      · rfl
      · show some c.callee = w.call.map Activation.callee
        rw [hc]
        rfl

/-! ### Returns -/

/-- What a body of some kind owes its call: a value for a function, none for a
procedure. -/
def Owed (kind : SymbolKind) (v : Option Float) : Prop :=
  (kind = .function → v.isSome) ∧ (kind = .procedure → v = none)

/-- A statement that leaves its call does so with what is owed. -/
def Settles (t : SymbolTable) (callee : Option Nat) : Flow → Prop
  | .next => True
  | .back v => ∃ id, callee = some id ∧ Owed (t.get id).kind v

section

variable {t : SymbolTable} {callee : Option Nat}

/-- A return with a value. -/
theorem balanced_returnValue (ht : t.Plain) (x : Float) :
    Balanced t callee (Settles t callee) (returnValue x) := by
  intro w hw
  split
  case h_2 e w' hx =>
    rintro rfl
    exact definite_returnValue x _ _ hx
  case h_1 flow w' hx =>
    -- the kind is looked up in the world of the return, and was the same when the
    -- code started
    obtain rfl : w' = w := (inert_returnValue x).eq_of_ok hx
    obtain ⟨c, hc, hkind, rfl⟩ := of_returnValue hx
    refine ⟨hw, c.callee, ?_, fun _ => rfl, fun hk => absurd ?_ hkind⟩
    · rw [← hw.callee, hc]
      rfl
    · rw [hw.runs.kind ht (.inr hk), hk]

/-- A return without a value. -/
theorem balanced_returnNothing (ht : t.Plain) :
    Balanced t callee (fun flow => flow = .back none ∧ Settles t callee flow)
      returnNothing := by
  intro w hw
  split
  case h_2 e w' hx =>
    rintro rfl
    exact definite_returnNothing _ _ hx
  case h_1 flow w' hx =>
    obtain rfl : w' = w := inert_returnNothing.eq_of_ok hx
    obtain ⟨c, hc, hkind, rfl⟩ := of_returnNothing hx
    refine ⟨hw, rfl, c.callee, ?_, fun hk => absurd ?_ hkind, fun _ => rfl⟩
    · rw [← hw.callee, hc]
      rfl
    · rw [hw.runs.kind ht (.inl hk), hk]

/-! ### Trees -/

/-- Calls that are not broken off and return what they owe. -/
abbrev BalancedCalls (t : SymbolTable) (invoke : Nat → List Float → Eval (Option Float)) :
    Prop :=
  ∀ callee id xs, Balanced t callee (Owed (t.get id).kind) (invoke id xs)

variable {invoke : Nat → List Float → Eval (Option Float)}

mutual

/-- An expression whose calls are of functions is not broken off: a call in it
owes a value and returns one. -/
theorem balanced_expr (h : BalancedCalls t invoke) :
    ∀ e : Expr, e.agrees t → Balanced t callee (fun _ => True) (expr invoke e)
  | .literal id, _ => (inert_symbol id).balanced (definite_symbol id) |>.bind
    fun _ => balanced_pure trivial
  | .variable id, _ => (inert_value id).balanced (definite_value id)
  | .text _, _ => balanced_throw nofun
  | .binary op lhs rhs, ha => by
    rw [Expr.agrees, Bool.and_eq_true] at ha
    exact (balanced_expr h lhs ha.1).bind fun _ =>
      (balanced_expr h rhs ha.2).bind fun _ =>
      (inert_binary op _ _).balanced (definite_binary op _ _)
  | .unary op e, ha => (balanced_expr h e ha).bind fun _ =>
    (inert_unary op _).balanced (definite_unary op _)
  | .builtin id e, ha => (balanced_expr h e ha).bind fun _ =>
    (inert_builtin id _).balanced (definite_builtin id _)
  | .step how id, _ =>
    (restores_step how id).balanced (behaves_step how id) (definite_step how id)
  | .call id es, ha => by
    rw [Expr.agrees, Bool.and_eq_true, beq_iff_eq] at ha
    refine (balanced_exprs h es ha.2).bind fun _ => (h callee id _).bind fun {v} hv => ?_
    cases v with
    | some x => exact balanced_pure trivial
    -- a function owes a value
    | none => exact nomatch hv.1 ha.1
  | .arg n, _ => (inert_arg n).balanced (definite_arg n)
  | .read id, _ => (restores_read id).balanced (behaves_read id) (definite_read id)

theorem balanced_exprs (h : BalancedCalls t invoke) :
    ∀ es : List Expr, Expr.allAgree t es →
      Balanced t callee (fun _ => True) (exprs invoke es)
  | [], _ => balanced_pure trivial
  | e :: es, ha => by
    rw [Expr.allAgree, Bool.and_eq_true] at ha
    exact (balanced_expr h e ha.1).bind fun _ => (balanced_exprs h es ha.2).bind fun _ =>
      balanced_pure trivial

end

/-- Assignments and expression statements leave the call at hand with its callee. -/
theorem balanced_clause (h : BalancedCalls t invoke) {s : Stmt} (ha : s.agrees t) :
    Balanced t callee (fun _ => True) (clause invoke s) := by
  cases s with
  | assign op id e =>
    exact (balanced_expr h e ha).bind fun _ =>
      (restores_update op id _).balanced (behaves_update op id _)
        (definite_update op id _)
  | argAssign n e =>
    exact (balanced_expr h e ha).bind fun _ =>
      balanced_of_behaves (behaves_setArg n _) (setArg_leaves_callee n _)
        (definite_setArg n _)
  | expr e => exact balanced_expr h e ha
  | _ => exact balanced_throw nofun

theorem balanced_print (x : Write) : Balanced t callee (fun _ => True) (print x) :=
  balanced_of_behaves (Leaves.behaves fun _ => rfl) (fun _ => rfl) (fun _ _ => nofun)

/-- An item is an expression or a text, and printing it changes no symbol. -/
theorem balanced_printItem (h : BalancedCalls t invoke) {e : Expr} (ha : e.agrees t) :
    Balanced t callee (fun _ => True) (printItem invoke e) := by
  cases e with
  | text id =>
    refine ((inert_symbol id).balanced (definite_symbol id)).bind fun {s} _ => ?_
    cases s.text with
    | some s => exact balanced_print _
    | none => exact balanced_throw nofun
  | _ => exact (balanced_expr h _ ha).bind fun _ => balanced_print _

theorem balanced_printItems (h : BalancedCalls t invoke) {es : List Expr}
    (ha : Expr.allAgree t es) :
    Balanced t callee (fun _ => True) (printItems invoke es) := by
  induction es with
  | nil => exact balanced_pure trivial
  | cons e es ih =>
    rw [Expr.allAgree, Bool.and_eq_true] at ha
    exact (balanced_printItem h ha.1).bind fun _ => ih ha.2

/-- Going on settles nothing, for nothing is owed yet. -/
theorem balanced_next : Balanced t callee (Settles t callee) (pure .next : Eval Flow) :=
  balanced_pure trivial

/-- A loop settles if its body does, be it in the middle of a round. -/
theorem balanced_whileLoop {cond : Eval Float} {body : Eval Flow}
    (hcond : Balanced t callee (fun _ => True) cond)
    (hbody : Balanced t callee (Settles t callee) body) (rounds : Nat) :
    Balanced t callee (Settles t callee) (whileLoop cond body rounds) := by
  induction rounds with
  | zero => exact balanced_throw nofun
  | succ rounds ih =>
    refine hcond.bind fun _ => ?_
    split
    · refine hbody.bind fun {flow} hflow => ?_
      cases flow with
      | next => exact ih
      | back v => exact balanced_pure hflow
    · exact balanced_next

/-- The same holds of a `for` loop. Its last clause leaves a value, which is
dropped. -/
theorem balanced_forLoop {cond post : Eval Float} {body : Eval Flow}
    (hcond : Balanced t callee (fun _ => True) cond)
    (hpost : Balanced t callee (fun _ => True) post)
    (hbody : Balanced t callee (Settles t callee) body) (rounds : Nat) :
    Balanced t callee (Settles t callee) (forLoop cond post body rounds) := by
  induction rounds with
  | zero => exact balanced_throw nofun
  | succ rounds ih =>
    refine hcond.bind fun _ => ?_
    split
    · refine hbody.bind fun {flow} hflow => ?_
      cases flow with
      | next => exact hpost.bind fun _ => ih
      | back v => exact balanced_pure hflow
    · exact balanced_next

mutual

/-- A statement whose calls agree is not broken off, and if it returns it
settles its call. The cases of calls and returns are those in which the kinds of
the table matter. -/
theorem balanced_stmt (h : BalancedCalls t invoke) (ht : t.Plain) (echo : Bool)
    (rounds : Nat) :
    ∀ s : Stmt, s.agrees t → Balanced t callee (Settles t callee)
      (stmt invoke echo rounds s)
  | .assign op id e, ha => (balanced_clause h ha).bind fun _ => balanced_next
  | .argAssign n e, ha => (balanced_clause h ha).bind fun _ => balanced_next
  | .print items, ha => (balanced_printItems h ha).bind fun _ => balanced_next
  | .whileLoop cond body, ha => by
    rw [Stmt.agrees, Bool.and_eq_true] at ha
    exact balanced_whileLoop (balanced_expr h cond ha.1)
      (balanced_stmts h ht echo rounds body ha.2) rounds
  | .forLoop init cond post body, ha => by
    rw [Stmt.agrees, Bool.and_eq_true, Bool.and_eq_true, Bool.and_eq_true] at ha
    obtain ⟨⟨⟨hinit, hcond⟩, hpost⟩, hbody⟩ := ha
    exact (balanced_clause h hinit).bind fun _ =>
      balanced_forLoop (balanced_expr h cond hcond) (balanced_clause h hpost)
      (balanced_stmts h ht echo rounds body hbody) rounds
  | .ifThen cond body, ha => by
    rw [Stmt.agrees, Bool.and_eq_true] at ha
    refine (balanced_expr h cond ha.1).bind fun _ => ?_
    split
    · exact balanced_stmts h ht echo rounds body ha.2
    · exact balanced_next
  | .ifElse cond body other, ha => by
    rw [Stmt.agrees, Bool.and_eq_true, Bool.and_eq_true] at ha
    refine (balanced_expr h cond ha.1.1).bind fun _ => ?_
    split
    · exact balanced_stmts h ht echo rounds body ha.1.2
    · exact balanced_stmts h ht echo rounds other ha.2
  | .expr e, ha => by
    refine (balanced_expr h e ha).bind fun {x} _ => ?_
    split
    · exact ((restores_display x).balanced (behaves_display x) fun _ _ => nofun).bind
        fun _ => balanced_next
    · exact balanced_next
  | .call id es, ha => by
    rw [Stmt.agrees, Bool.and_eq_true, beq_iff_eq] at ha
    refine (balanced_exprs h es ha.2).bind fun _ => (h callee id _).bind fun {v} hv => ?_
    cases v with
    | none => exact balanced_next
    -- a procedure owes none
    | some x => exact nomatch hv.2 ha.1
  | .returnValue e, ha => (balanced_expr h e ha).bind fun _ => balanced_returnValue ht _
  | .returnNothing, _ => (balanced_returnNothing ht).mono And.right
  | .define _ _ _, _ => balanced_throw nofun

/-- Statements in a row are left as soon as one of them returns. -/
theorem balanced_stmts (h : BalancedCalls t invoke) (ht : t.Plain) (echo : Bool)
    (rounds : Nat) :
    ∀ ss : List Stmt, Stmt.allAgree t ss →
      Balanced t callee (Settles t callee) (stmts invoke echo rounds ss)
  | [], _ => balanced_next
  | s :: ss, ha => by
    rw [Stmt.allAgree, Bool.and_eq_true] at ha
    refine (balanced_stmt h ht echo rounds s ha.1).bind fun {flow} hflow => ?_
    cases flow with
    | next => exact balanced_stmts h ht echo rounds ss ha.2
    | back v => exact balanced_pure hflow

end

/-- A body returns what its kind owes: by a return in it, or at its end without
a value. -/
theorem balanced_body (h : BalancedCalls t invoke) (ht : t.Plain) (echo : Bool)
    (rounds : Nat) {ss : List Stmt} (ha : Stmt.allAgree t ss) (id : Nat) :
    Balanced t (some id) (Owed (t.get id).kind) (body invoke echo rounds ss) := by
  refine (balanced_stmts h ht echo rounds ss ha).bind fun {flow} hflow => ?_
  cases flow with
  | back v =>
    obtain ⟨_, ⟨⟩, hv⟩ := hflow
    exact balanced_pure hv
  | next =>
    refine (balanced_returnNothing ht).bind ?_
    rintro _ ⟨rfl, _, ⟨⟩, hv⟩
    exact balanced_pure hv

/-- The world is back in the call at hand when the call inside is done. -/
theorem balanced_within {post : α → Prop} {x : Eval α} {c : Activation}
    (h : Balanced t (some c.callee) post x) : Balanced t callee post (within c x) := by
  intro w hw
  have hinside := h { w with call := some c } ⟨hw.sound, hw.runs, rfl⟩
  unfold within
  cases hx : x { w with call := some c } with
  | error e w' =>
    rw [hx] at hinside
    exact hinside
  | ok a w' =>
    rw [hx] at hinside
    exact ⟨⟨hinside.1.sound, hinside.1.runs, hw.callee⟩, hinside.2⟩

end

/-- Calls are balanced if the bodies at hand agree. -/
theorem balanced_invoke {ds : Definitions} {t : SymbolTable} (hds : Agreement ds t)
    (rounds calls : Nat) : BalancedCalls t (invoke ds rounds calls) := by
  -- the calls in a body have one level less, and its kinds are those the run started with
  -- by the levels of calls that are left
  induction calls with
  | zero => exact fun _ _ _ => balanced_throw nofun
  | succ calls ih =>
    intro callee id xs
    rw [invoke]
    split
    case h_1 =>
      intro w _ hfault
      cases hfault
    case h_2 d hd =>
      exact balanced_within (balanced_body ih hds.plain d.echo rounds (hds.body hd) id)

/-- A program whose calls agree is not broken off as unbalanced. -/
theorem program_ne_unbalanced {ds : Definitions} {w : World}
    (hds : Agreement ds w.symbols) (hw : w.symbols.Sound) (echo : Bool) (rounds : Nat)
    {ss : List Stmt} (hss : Stmt.allAgree w.symbols (mainPart ss)) (w' : World) :
    program ds echo rounds ss w ≠ .error .unbalanced w' := by
  have hcalls := balanced_invoke hds rounds rounds
  have hbalanced : Balanced w.symbols (calleeOf w) (fun _ => True)
      (program ds echo rounds ss) :=
    (balanced_stmts hcalls hds.plain echo rounds _ hss).bind fun _ =>
      balanced_pure trivial
  exact hbalanced.ne_unbalanced ⟨hw, SymbolTable.Runs.refl _, rfl⟩ w'

end Eval

end StackCalc
