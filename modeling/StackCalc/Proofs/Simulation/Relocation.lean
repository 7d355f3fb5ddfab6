import StackCalc.Proofs.Evaluation.Balance
import StackCalc.Proofs.Simulation.Control
import StackCalc.Proofs.Simulation.Twins

/-!
# Code that runs alike at two places

The code of a tree, laid out at two places and run cell by cell, keeps the
machines that run it twins. As for the evaluation, the proofs follow the tree,
with calls (`CallsAlike`) and stretches further in (`EntersAlike`) as
parameters. The tree need only be codable: its code was generated with a table
`u`, and the table `t` of the machines may have other entries by now, but not
fewer. If calls agree with what they call, the code of a statement leaves the
operand stack as high as it was.
-/

namespace StackCalc

open StackCalc.Action (Mirrors)

/-! ### After calls and statements -/

/-- Two machines after a call of `id`; whether a value was returned depends on
what `id` is. -/
def Called (t more : SymbolTable) (c : Setting) (id p p' n : Nat)
    (m m' : Machine) : Prop :=
  ((t.get id).kind ≠ .procedure ∧ Twin t more c p p' (n + 1) m m') ∨
    ((t.get id).kind ≠ .function ∧ Twin t more c p p' n m m')

/-- Two machines after a statement: at its end, or with a return under way. -/
def Over (t more : SymbolTable) (c : Setting) (p p' n : Nat) (m m' : Machine) : Prop :=
  Twin t more c p p' n m m' ∨ Gone t more c m m'

section

variable {t more : SymbolTable} {c : Setting} {id p p' n n' : Nat} {m m' : Machine}

/-- Where the height of the stack is not known, any number will do. -/
theorem Twin.unsure (h : Twin t more c p p' n m m') (hc : c.sure = false) (n' : Nat) :
    Twin t more c p p' n' m m' :=
  { h with level := fun hs => nomatch hc.symm.trans hs }

/-- What is known as a whole is known of its parts. -/
theorem Setting.sure_and {x y : Bool} (h : c.sure = true → (x && y) = true) :
    (c.sure = true → x = true) ∧ (c.sure = true → y = true) :=
  ⟨fun hs => ((Bool.and_eq_true x y).mp (h hs)).1,
    fun hs => ((Bool.and_eq_true x y).mp (h hs)).2⟩

theorem Called.function (h : Called t more c id p p' n m m')
    (hid : c.sure = true → (t.get id).kind = .function) :
    Twin t more c p p' (n + 1) m m' := by
  rcases h with ⟨-, h⟩ | ⟨hkind, h⟩
  · exact h
  · cases hc : c.sure with
    | true => exact absurd (hid hc) hkind
    | false => exact h.unsure hc _

theorem Gone.under_way (h : Gone t more c m m') :
    m.returning = true ∧ m'.returning = true := by
  obtain ⟨f, r, -, ⟨-, h⟩ | ⟨-, h⟩⟩ := h
  all_goals
    refine ⟨h.under_way, ?_⟩
    rw [h.other]
    exact h.under_way

theorem Called.procedure (h : Called t more c id p p' n m m')
    (hid : c.sure = true → (t.get id).kind = .procedure) : Twin t more c p p' n m m' := by
  rcases h with ⟨hkind, h⟩ | ⟨-, h⟩
  · cases hc : c.sure with
    | true => exact absurd (hid hc) hkind
    | false => exact h.unsure hc _
  · exact h

end

/-- What calls do at two places, their operands in the cells that follow: the
`k` arguments are replaced by the value that is returned, if any. -/
structure CallsAlike (t more : SymbolTable) (job job' : Job)
    (enter enter' : Nat → Exec Unit) :
    Prop where
  limits : job'.limits = job.limits
  call : ∀ {c id k p p' n}, Setting.Alike t c → id < t.size →
    job.cells[p]? = some (.symbol id) →
    job.cells[p + 1]? = some (.count k) → job'.cells[p']? = some (.symbol id) →
    job'.cells[p' + 1]? = some (.count k) →
    Mirrors (Twin t more c p p' (n + k)) (Called t more c id (p + 2) (p' + 2) n)
      (Exec.call job enter) (Exec.call job' enter')

/-- What entering a stretch does at two places, by what its code was generated
from. -/
structure EntersAlike (t more : SymbolTable) (job job' : Job)
    (enter enter' : Nat → Exec Unit) :
    Prop where
  expr : ∀ {c u e a a' b b' p p' n}, Setting.Alike t c → u.size ≤ t.size →
    Expr.Codable u e →
    (c.sure = true → e.agrees t) → Exec.Leads job.cells a b →
    Exec.Leads job'.cells a' b' →
    Holds job.cells b (Layout.expr u e ++ [.stop]) →
    Holds job'.cells b' (Layout.expr u e ++ [.stop]) →
    Mirrors (Twin t more c p p' n) (Twin t more c (b + e.size) (b' + e.size) (n + 1))
      (enter a) (enter' a')
  clause : ∀ {c u s a a' b b' p p' n}, Setting.Alike t c → u.size ≤ t.size →
    Stmt.CodableClause u s →
    (c.sure = true → s.agrees t) → Exec.Leads job.cells a b →
    Exec.Leads job'.cells a' b' →
    Holds job.cells b (Layout.clause u s ++ [.stop]) →
    Holds job'.cells b' (Layout.clause u s ++ [.stop]) →
    Mirrors (Twin t more c p p' n)
      (Twin t more c (b + s.clauseSize) (b' + s.clauseSize) (n + 1)) (enter a) (enter' a')
  stmts : ∀ {c u ss a a' b b' p p' n}, Setting.Alike t c → u.size ≤ t.size →
    Stmt.AllCodable u ss →
    (c.sure = true → Stmt.allAgree t ss) → Exec.Leads job.cells a b →
    Exec.Leads job'.cells a' b' →
    Holds job.cells b (Layout.stmts u false b ss ++ [.stop]) →
    Holds job'.cells b' (Layout.stmts u false b' ss ++ [.stop]) →
    Mirrors (Twin t more c p p' n)
      (Over t more c (b + Stmt.sizes ss) (b' + Stmt.sizes ss) n) (enter a) (enter' a')
  body : ∀ {c u ss a p p' n}, Setting.Alike t c → c.sure = false → u.size ≤ t.size →
    Stmt.AllCodable u ss → Holds job.cells a (Layout.body u false a ss) →
    Holds job'.cells a (Layout.body u false a ss) →
    Mirrors (Twin t more c p p' n) (Gone t more c) (enter a) (enter' a)

namespace Exec

variable {t u more : SymbolTable} {c : Setting} {job job' : Job}
  {enter enter' : Nat → Exec Unit} {fuel a a' p p' q q' n n' : Nat}

/-! ### Expressions -/

/-- A reference is pushed, and then something is done with it. -/
theorem twin_reference (hlimits : job'.limits = job.limits) {Q : Machine → Machine → Prop}
    {id : Nat} {o : Opcode}
    (h : Holds job.cells a [Layout.plain .varPush, .symbol id, .op o])
    (h' : Holds job'.cells a' [Layout.plain .varPush, .symbol id, .op o])
    (ho : Mirrors (fun m m' => Twin t more c (a + 3) (a' + 3) (n + 1) m m' ∧
        m.stack.top? = some (.reference id)) Q
      (operation job enter fuel o) (operation job' enter' fuel o)) :
    Mirrors (Twin t more c a a' n) Q (advance job enter fuel (1 + 1))
      (advance job' enter' fuel (1 + 1)) :=
  mirrors_advance_add (twin_op h.1 h'.1 (twin_varPush hlimits h.2.1 h'.2.1))
    (twin_op_on (P := fun S => S.top? = some (.reference id)) h.2.2.1 h'.2.2.1 ho)

mutual

/-- The code of an expression leaves one value. -/
theorem twin_expr (hcalls : CallsAlike t more job job' enter enter') (hc : c.Alike t)
    (hu : u.size ≤ t.size) : ∀ (e : Expr) {a a' n : Nat},
      e.Codable u → (c.sure = true → e.agrees t) →
      Holds job.cells a (Layout.expr u e) → Holds job'.cells a' (Layout.expr u e) →
      Mirrors (Twin t more c a a' n) (Twin t more c (a + e.size) (a' + e.size) (n + 1))
        (advance job enter fuel e.steps) (advance job' enter' fuel e.steps)
  | .literal _, _, _, _, _, _, h, h' =>
    twin_op h.1 h'.1 (twin_constPush hcalls.limits h.2.1 h'.2.1)
  | .variable id, _, _, _, hid, _, h, h' =>
    twin_reference hcalls.limits h h'
      (twin_eval hcalls.limits (Nat.lt_of_lt_of_le hid hu))
  | .text _, _, _, _, hw, _, _, _ => hw.elim
  | .binary op lhs rhs, a, a', n, ⟨hop, hl, hr⟩, hagree, h, h' => by
    obtain ⟨o, ho⟩ := Option.isSome_iff_exists.mp hop
    rw [Layout.expr, ho, holds_append, holds_append, List.length_append,
      Layout.length_expr, Layout.length_expr, ← Nat.add_assoc] at h h'
    obtain ⟨⟨hlhs, hrhs⟩, hcell, -⟩ := h
    obtain ⟨⟨hlhs', hrhs'⟩, hcell', -⟩ := h'
    obtain ⟨hal, har⟩ := Setting.sure_and hagree
    rw [Expr.steps, Expr.size, ← Nat.add_assoc a, ← Nat.add_assoc a, ← Nat.add_assoc a',
      ← Nat.add_assoc a']
    exact mirrors_advance_add (mirrors_advance_add
      (twin_expr hcalls hc hu lhs hl hal hlhs hlhs')
      (twin_expr hcalls hc hu rhs hr har hrhs hrhs'))
        (twin_op hcell hcell' (twin_binary hcalls.limits o))
  | .unary op e, a, a', n, ⟨hop, he⟩, hagree, h, h' => by
    obtain ⟨i, hi⟩ := Option.isSome_iff_exists.mp hop
    rw [Layout.expr, hi, holds_append, Layout.length_expr] at h h'
    exact mirrors_advance_add (twin_expr hcalls hc hu e he hagree h.1 h'.1)
      (twin_op h.2.1 h'.2.1 (twin_unary hcalls.limits hi))
  | .builtin id e, a, a', n, ⟨hid, he⟩, hagree, h, h' => by
    rw [Layout.expr, holds_append, Layout.length_expr] at h h'
    have hid : id < t.size := Nat.lt_of_lt_of_le hid hu
    exact mirrors_advance_add (twin_expr hcalls hc hu e he hagree h.1 h'.1)
      (twin_op h.2.1 h'.2.1 (twin_builtin hcalls.limits hid h.2.2.1 h'.2.2.1))
  | .step how id, _, _, _, hid, _, h, h' =>
    twin_op h.1 h'.1 (twin_step hcalls.limits (Nat.lt_of_lt_of_le hid hu)
      h.2.1 h'.2.1 how)
  | .call id es, a, a', n, ⟨hid, hes⟩, hagree, h, h' => by
    rw [Layout.expr, holds_append, Layout.length_exprs] at h h'
    obtain ⟨hargs, hcell, hsymbol, hcount, -⟩ := h
    obtain ⟨hargs', hcell', hsymbol', hcount', -⟩ := h'
    obtain ⟨hkind, hall⟩ := Setting.sure_and hagree
    refine mirrors_advance_add (twin_exprs hcalls hc hu es hes hall hargs hargs')
      (twin_op hcell hcell'
        ((hcalls.call hc (Nat.lt_of_lt_of_le hid hu) hsymbol hcount hsymbol' hcount').mono
          (fun _ _ hm => hm) fun _ _ hm => ?_))
    exact hm.function fun hs => eq_of_beq (hkind hs)
  | .arg _, _, _, _, _, _, h, h' =>
    twin_op h.1 h'.1 (twin_arg hcalls.limits hc h.2.1 h'.2.1)
  | .read id, _, _, _, hid, _, h, h' =>
    twin_op h.1 h'.1 (twin_read hcalls.limits (Nat.lt_of_lt_of_le hid hu) h.2.1 h'.2.1)

/-- The code of several expressions leaves as many values. -/
theorem twin_exprs (hcalls : CallsAlike t more job job' enter enter') (hc : c.Alike t)
    (hu : u.size ≤ t.size) : ∀ (es : List Expr) {a a' n : Nat}, Expr.AllCodable u es →
      (c.sure = true → Expr.allAgree t es) → Holds job.cells a (Layout.exprs u es) →
      Holds job'.cells a' (Layout.exprs u es) →
      Mirrors (Twin t more c a a' n)
        (Twin t more c (a + Expr.sizes es) (a' + Expr.sizes es) (n + es.length))
        (advance job enter fuel (Expr.stepsAll es))
        (advance job' enter' fuel (Expr.stepsAll es))
  | [], _, _, _, _, _, _, _ => mirrors_pure ()
  | e :: es, a, a', n, ⟨he, hes⟩, hagree, h, h' => by
    rw [Layout.exprs, holds_append, Layout.length_expr] at h h'
    obtain ⟨hae, haes⟩ := Setting.sure_and hagree
    rw [Expr.sizes, ← Nat.add_assoc, ← Nat.add_assoc, List.length_cons,
      Nat.add_comm es.length, ← Nat.add_assoc]
    exact mirrors_advance_add (twin_expr hcalls hc hu e he hae h.1 h'.1)
      (twin_exprs hcalls hc hu es hes haes h.2 h'.2)

end

/-! ### Clauses and print statements -/

section

variable (hcalls : CallsAlike t more job job' enter enter') (hc : c.Alike t)
  (hu : u.size ≤ t.size)

include hcalls hc hu

/-- The code of a clause leaves one value. -/
theorem twin_clause {s : Stmt} (hs : s.CodableClause u)
    (hagree : c.sure = true → s.agrees t) (h : Holds job.cells a (Layout.clause u s))
    (h' : Holds job'.cells a' (Layout.clause u s)) :
    Mirrors (Twin t more c a a' n)
      (Twin t more c (a + s.clauseSize) (a' + s.clauseSize) (n + 1))
      (advance job enter fuel s.clauseSteps)
      (advance job' enter' fuel s.clauseSteps) := by
  cases s with
  | assign op id e =>
    obtain ⟨hop, hid, he⟩ := hs
    obtain ⟨o, ho⟩ := Option.isSome_iff_exists.mp hop
    rw [Layout.clause, ho, holds_append, Layout.length_expr] at h h'
    exact mirrors_advance_add (twin_expr hcalls hc hu e he hagree h.1 h'.1)
      (twin_reference hcalls.limits h.2 h'.2
        (twin_assignTop hcalls.limits (Nat.lt_of_lt_of_le hid hu) o))
  | argAssign k e =>
    rw [Layout.clause, holds_append, Layout.length_expr] at h h'
    exact mirrors_advance_add (twin_expr hcalls hc hu e hs hagree h.1 h'.1)
      (twin_op h.2.1 h'.2.1 (twin_argAssign hcalls.limits hc h.2.2.1 h'.2.2.1))
  | expr e => exact twin_expr hcalls hc hu e hs hagree h h'
  | _ => exact hs.elim

/-- The code of an item of a print statement leaves none. -/
theorem twin_printItem {e : Expr} (he : e.CodableItem u)
    (hagree : c.sure = true → e.agrees t)
    (h : Holds job.cells a (Layout.printItem u e))
    (h' : Holds job'.cells a' (Layout.printItem u e)) :
    Mirrors (Twin t more c a a' n) (Twin t more c (a + e.itemSize) (a' + e.itemSize) n)
      (advance job enter fuel e.itemSteps) (advance job' enter' fuel e.itemSteps) := by
  cases e with
  | text id =>
    obtain ⟨s, hs⟩ := Option.isSome_iff_exists.mp he
    rw [Layout.printItem, hs] at h h'
    exact twin_op h.1 h'.1 (twin_printText h.2.1 h'.2.1)
  | _ =>
    rw [Layout.printItem, holds_append, Layout.length_expr] at h h'
    · exact mirrors_advance_add
        (twin_expr hcalls hc hu _ he hagree h.1 h'.1)
        (twin_op h.2.1 h'.2.1 (twin_printValue job job'))
    all_goals
      intro id hid
      cases hid

/-- Nor does that of all of them. -/
theorem twin_printItems {es : List Expr} (hes : ∀ e ∈ es, e.CodableItem u)
    (hagree : c.sure = true → Expr.allAgree t es)
    (h : Holds job.cells a (Layout.printItems u es))
    (h' : Holds job'.cells a' (Layout.printItems u es)) :
    Mirrors (Twin t more c a a' n)
      (Twin t more c (a + Expr.itemSizes es) (a' + Expr.itemSizes es) n)
      (advance job enter fuel (Expr.itemStepsAll es))
      (advance job' enter' fuel (Expr.itemStepsAll es)) := by
  induction es generalizing a a' with
  | nil => exact mirrors_pure ()
  | cons e es ih =>
    obtain ⟨he, hes⟩ := List.forall_mem_cons.mp hes
    rw [Layout.printItems, holds_append, Layout.length_printItem] at h h'
    obtain ⟨hae, haes⟩ := Setting.sure_and hagree
    rw [Expr.itemSizes, ← Nat.add_assoc, ← Nat.add_assoc]
    exact mirrors_advance_add (twin_printItem hcalls hc hu he hae h.1 h'.1)
      (ih hes haes h.2 h'.2)

end

/-! ### Loops and conditions -/

section

variable (henters : EntersAlike t more job job' enter enter') (hc : c.Alike t)
  (hu : u.size ≤ t.size)

include henters hc hu

/-- A condition takes its value from the stack, which is the same for both. -/
theorem twin_condition {e : Expr} {b b' : Nat} (he : e.Codable u)
    (hagree : c.sure = true → e.agrees t) (hlead : Leads job.cells b a)
    (hlead' : Leads job'.cells b' a')
    (h : Holds job.cells a (Layout.expr u e ++ [.stop]))
    (h' : Holds job'.cells a' (Layout.expr u e ++ [.stop])) :
    Mirrors (Twin t more c p p' n) (Twin t more c (a + e.size) (a' + e.size) n)
      (condition enter b) (condition enter' b') :=
  (henters.expr hc hu he hagree hlead hlead' h h').bind fun _ => twin_pop.map isTrue

omit henters hc hu in
/-- The slots of a control operation start where the machine is. -/
theorem twin_pc (f g : Nat → Exec Unit) {Q : Machine → Machine → Prop}
    (hf : Mirrors (Twin t more c p p' n) Q (f p) (g p')) :
    Mirrors (Twin t more c p p' n) Q (get >>= fun m => f m.pc)
      (get >>= fun m => g m.pc) := by
  rintro m _ u m₁ h hrun
  obtain rfl := h.other
  obtain rfl := h.pc
  exact hf _ _ _ _ h hrun

omit henters hc hu in
/-- What follows the body of a loop or a branch: nothing, with a return under
way. -/
theorem over_after {k k' : Exec Unit}
    (hk : Mirrors (Twin t more c p p' n) (Over t more c q q' n') k k') :
    Mirrors (Over t more c p p' n) (Over t more c q q' n')
      (get >>= fun m => if m.returning then pure () else k)
      (get >>= fun m => if m.returning then pure () else k') := by
  rintro m m' u m₁ (h | h) hrun
  · have hr : m.returning = false := h.onward
    have hr' : m'.returning = false := by
      rw [h.other]
      exact hr
    rw [Action.bind_of_ok (Action.get_apply m), if_neg (by rw [hr]; decide)] at hrun
    rw [Action.bind_of_ok (Action.get_apply m'), if_neg (by rw [hr']; decide)]
    exact hk _ _ _ _ h hrun
  · obtain ⟨hr, hr'⟩ := h.under_way
    rw [Action.bind_of_ok (Action.get_apply m), if_pos hr] at hrun
    rw [Action.bind_of_ok (Action.get_apply m'), if_pos hr']
    cases hrun
    exact ⟨m', rfl, .inr h⟩

omit henters hc hu in
/-- The end of a loop or a branch. -/
theorem twin_leaving {b b' : Nat} (h : job.cells[a]? = some (.address b))
    (h' : job'.cells[a']? = some (.address b')) :
    Mirrors (Twin t more c p p' n) (Over t more c b b' n)
      (slotAddress job a >>= fun b => jump b)
      (slotAddress job' a' >>= fun b => jump b) := by
  rintro m _ u m₁ hm hrun
  obtain rfl := hm.other
  rw [Action.bind_of_ok (slotAddress_apply h m)] at hrun
  rw [Action.bind_of_ok (slotAddress_apply h' _)]
  cases hrun
  exact ⟨_, rfl, .inl ⟨rfl, rfl, hm.frames, hm.onward, hm.symbols, hm.level⟩⟩

/-- A `while` loop goes round equally often in both. -/
theorem twin_whileLoop {cond : Expr} {body : List Stmt} {b b' : Nat}
    (hat : WhileAt job u false cond body a b q)
    (hat' : WhileAt job' u false cond body a' b' q') (hcond : cond.Codable u)
    (hbody : Stmt.AllCodable u body)
    (hagree : c.sure = true → (Stmt.whileLoop cond body).agrees t) (rounds : Nat) :
    Mirrors (Twin t more c p p' n) (Over t more c q q' n) (whileLoop job enter a rounds)
      (whileLoop job' enter' a' rounds) := by
  obtain ⟨hcondAgrees, hbodyAgrees⟩ := Setting.sure_and hagree
  induction rounds generalizing p p' with
  | zero => exact .of_error fun _ => ⟨_, _, rfl⟩
  | succ rounds ih =>
    refine (twin_condition henters hc hu hcond hcondAgrees (.inl rfl)
      (.inl rfl) hat.condCode hat'.condCode).bind fun x => ?_
    cases x with
    | true =>
      exact (henters.stmts hc hu hbody hbodyAgrees (.inr hat.bodyLink)
        (.inr hat'.bodyLink) hat.bodyCode hat'.bodyCode).bind fun _ => over_after ih
    | false => exact twin_leaving hat.endLink hat'.endLink

/-- So does a `for` loop. -/
theorem twin_forLoop {cond : Expr} {post : Stmt} {body : List Stmt}
    {condAt postAt bodyAt condAt' postAt' bodyAt' : Nat}
    (hat : ForAt job u false cond post body a condAt postAt bodyAt q)
    (hat' : ForAt job' u false cond post body a' condAt' postAt' bodyAt' q')
    (hcond : cond.Codable u) (hpost : post.CodableClause u)
    (hbody : Stmt.AllCodable u body) (hcondAgrees : c.sure = true → cond.agrees t)
    (hpostAgrees : c.sure = true → post.agrees t)
    (hbodyAgrees : c.sure = true → Stmt.allAgree t body) (rounds : Nat) :
    Mirrors (Twin t more c p p' n) (Over t more c q q' n) (forLoop job enter a rounds)
      (forLoop job' enter' a' rounds) := by
  induction rounds generalizing p p' with
  | zero => exact .of_error fun _ => ⟨_, _, rfl⟩
  | succ rounds ih =>
    refine (twin_condition henters hc hu hcond hcondAgrees (.inr hat.condLink)
      (.inr hat'.condLink) hat.condCode hat'.condCode).bind fun x => ?_
    cases x with
    | true =>
      refine (henters.stmts hc hu hbody hbodyAgrees (.inr hat.bodyLink)
        (.inr hat'.bodyLink) hat.bodyCode hat'.bodyCode).bind fun _ => over_after ?_
      exact (henters.clause hc hu hpost hpostAgrees (.inr hat.postLink)
        (.inr hat'.postLink) hat.postCode hat'.postCode).bind fun _ =>
          twin_pop.bind fun _ => ih
    | false => exact twin_leaving hat.endLink hat'.endLink

/-- A condition, given what its other branch does. -/
theorem twin_branch {cond : Expr} {body : List Stmt} {thenAt thenAt' : Nat}
    (hat : BranchAt job u false cond body a thenAt q)
    (hat' : BranchAt job' u false cond body a' thenAt' q')
    (hcond : cond.Codable u) (hbody : Stmt.AllCodable u body)
    (hcondAgrees : c.sure = true → cond.agrees t)
    (hbodyAgrees : c.sure = true → Stmt.allAgree t body)
    (hother : ∀ p p', ∃ r r', Mirrors (Twin t more c p p' n) (Over t more c r r' n)
      (if isLinked job (a + 1) then enter (a + 1) else pure ())
      (if isLinked job' (a' + 1) then enter' (a' + 1) else pure ())) :
    Mirrors (Twin t more c p p' n) (Over t more c q q' n) (branch job enter a)
      (branch job' enter' a') := by
  refine (twin_condition henters hc hu hcond hcondAgrees (.inl rfl)
    (.inl rfl) hat.condCode hat'.condCode).bind fun x => ?_
  cases x with
  | true =>
    exact (henters.stmts hc hu hbody hbodyAgrees (.inr hat.thenLink)
      (.inr hat'.thenLink) hat.thenCode hat'.thenCode).bind fun _ =>
        over_after (twin_leaving hat.endLink hat'.endLink)
  | false =>
    obtain ⟨r, r', hr⟩ := hother (a + 3 + cond.size) (a' + 3 + cond.size)
    have hbranch := hr.bind fun _ => over_after (twin_leaving hat.endLink hat'.endLink)
    cases hlinked : isLinked job (a + 1) <;> cases hlinked' : isLinked job' (a' + 1) <;>
      rw [hlinked, hlinked'] at hbranch <;> exact hbranch

end

/-! ### Statements -/

section

variable (hcalls : CallsAlike t more job job' enter enter')
  (henters : EntersAlike t more job job' enter enter') (hc : c.Alike t)
  (hu : u.size ≤ t.size)

include hcalls hc hu

/-- A statement that leaves its value, which is dropped. -/
theorem twin_dropped {s : Stmt} (hs : s.CodableClause u)
    (hagree : c.sure = true → s.agrees t)
    (h : Holds job.cells a (Layout.clause u s ++ [Layout.plain .pop]))
    (h' : Holds job'.cells a' (Layout.clause u s ++ [Layout.plain .pop])) :
    Mirrors (Twin t more c a a' n)
      (Over t more c (a + (s.clauseSize + 1)) (a' + (s.clauseSize + 1)) n)
      (advance job enter fuel (s.clauseSteps + 1))
      (advance job' enter' fuel (s.clauseSteps + 1)) := by
  rw [holds_append, Layout.length_clause] at h h'
  exact (mirrors_advance_add (twin_clause hcalls hc hu hs hagree h.1 h'.1)
    (twin_op h.2.1 h'.2.1 (twin_drop job job'))).mono (fun _ _ hm => hm) fun _ _ hm =>
      .inl hm

include henters

/-- The code of a statement leaves the stack as high as it was. -/
theorem twin_stmt {s : Stmt} (hs : s.Codable u) (hagree : c.sure = true → s.agrees t)
    (h : Holds job.cells a (Layout.stmt u false a s))
    (h' : Holds job'.cells a' (Layout.stmt u false a' s)) :
    Mirrors (Twin t more c a a' n) (Over t more c (a + s.size) (a' + s.size) n)
      (advance job enter fuel s.steps) (advance job' enter' fuel s.steps) := by
  cases s with
  | assign op id e => exact twin_dropped hcalls hc hu hs hagree h h'
  | argAssign k e => exact twin_dropped hcalls hc hu hs hagree h h'
  | expr e => exact twin_dropped hcalls hc hu (s := .expr e) hs hagree h h'
  | print items =>
    exact (twin_printItems hcalls hc hu hs hagree h h').mono (fun _ _ hm => hm)
      fun _ _ hm => .inl hm
  | whileLoop cond body =>
    obtain ⟨hop, hat⟩ := whileAt_of_holds h
    obtain ⟨hop', hat'⟩ := whileAt_of_holds h'
    exact twin_op hop hop' (twin_pc
      (fun a => whileLoop job enter a fuel) (fun a => whileLoop job' enter' a fuel)
      (twin_whileLoop henters hc hu hat hat' hs.1 hs.2 hagree fuel))
  | forLoop init cond post body =>
    obtain ⟨hinit, hcond, hpost, hbody⟩ := hs
    obtain ⟨hop, hinitCode, _, _, _, hat⟩ := forAt_of_holds h
    obtain ⟨hop', hinitCode', _, _, _, hat'⟩ := forAt_of_holds h'
    obtain ⟨hagree, hbodyAgrees⟩ := Setting.sure_and hagree
    obtain ⟨hagree, hpostAgrees⟩ := Setting.sure_and hagree
    obtain ⟨hinitAgrees, hcondAgrees⟩ := Setting.sure_and hagree
    refine twin_op hop hop' (twin_pc
      (fun a => enter (a + 4) >>= fun _ => pop >>= fun _ => forLoop job enter a fuel)
      (fun a => enter' (a + 4) >>= fun _ => pop >>=
        fun _ => forLoop job' enter' a fuel) ?_)
    exact (henters.clause hc hu hinit hinitAgrees (.inl rfl) (.inl rfl) hinitCode
      hinitCode').bind fun _ =>
      twin_pop.bind fun _ => twin_forLoop henters hc hu hat hat' hcond hpost hbody
        hcondAgrees hpostAgrees hbodyAgrees fuel
  | ifThen cond body =>
    obtain ⟨hop, hnone, hat⟩ := branchAt_of_holds_ifThen h
    obtain ⟨hop', hnone', hat'⟩ := branchAt_of_holds_ifThen h'
    obtain ⟨hcondAgrees, hbodyAgrees⟩ := Setting.sure_and hagree
    refine twin_op hop hop'
      (twin_pc _ _ (twin_branch henters hc hu hat hat' hs.1 hs.2 hcondAgrees hbodyAgrees
        fun p p' => ⟨p, p', ?_⟩))
    -- without a second branch its slot is a stop, and nothing is entered
    have hlinked : isLinked job (a + 1 + 1) = false := by rw [isLinked, hnone]
    have hlinked' : isLinked job' (a' + 1 + 1) = false := by rw [isLinked, hnone']
    rw [hlinked, hlinked']
    exact .pure (fun _ _ hm => .inl hm) ()
  | ifElse cond body other =>
    obtain ⟨hop, hat, elseAt, helse, helseCode⟩ := branchAt_of_holds_ifElse h
    obtain ⟨hop', hat', elseAt', helse', helseCode'⟩ := branchAt_of_holds_ifElse h'
    obtain ⟨hagree, hotherAgrees⟩ := Setting.sure_and hagree
    obtain ⟨hcondAgrees, hbodyAgrees⟩ := Setting.sure_and hagree
    refine twin_op hop hop'
      (twin_pc _ _ (twin_branch henters hc hu hat hat' hs.1 hs.2.1 hcondAgrees hbodyAgrees
        fun p p' => ⟨elseAt + Stmt.sizes other, elseAt' + Stmt.sizes other, ?_⟩))
    have hlinked : isLinked job (a + 1 + 1) = true := by rw [isLinked, helse]
    have hlinked' : isLinked job' (a' + 1 + 1) = true := by rw [isLinked, helse']
    rw [hlinked, hlinked']
    exact henters.stmts hc hu hs.2.2 hotherAgrees (.inr helse) (.inr helse')
      helseCode helseCode'
  | call id es =>
    rw [Layout.stmt, holds_append, Layout.length_exprs] at h h'
    obtain ⟨hargs, hcell, hsymbol, hcount, -⟩ := h
    obtain ⟨hargs', hcell', hsymbol', hcount', -⟩ := h'
    obtain ⟨hkind, hall⟩ := Setting.sure_and hagree
    refine mirrors_advance_add (twin_exprs hcalls hc hu es hs.2 hall hargs hargs')
      (twin_op hcell hcell'
        ((hcalls.call hc (Nat.lt_of_lt_of_le hs.1 hu) hsymbol hcount
          hsymbol' hcount').mono
        (fun _ _ hm => hm) fun _ _ hm => ?_))
    exact .inl (hm.procedure fun hs => eq_of_beq (hkind hs))
  | returnValue e =>
    rw [Layout.stmt, holds_append, Layout.length_expr] at h h'
    exact (mirrors_advance_add (twin_expr hcalls hc hu e hs hagree h.1 h'.1)
      (twin_op h.2.1 h'.2.1 (twin_returnValue hcalls.limits hc))).mono
      (fun _ _ hm => hm) fun _ _ hm => .inr hm
  | returnNothing =>
    exact (twin_op h.1 h'.1 (twin_returnNothing hc)).mono (fun _ _ hm => hm) fun _ _ hm =>
      .inr hm
  | define kind id body => exact hs.elim

omit hcalls henters hc hu in
/-- The cells behind a return are not run. -/
theorem gone_advance (k : Nat) :
    Mirrors (Gone t more c) (Gone t more c) (advance job enter fuel k)
      (advance job' enter' fuel k) := by
  intro m m' u m₁ h hrun
  obtain ⟨hr, hr'⟩ := h.under_way
  rw [advance_of_cell_false (cell_of_returning hr)] at hrun
  cases hrun
  exact ⟨m', advance_of_cell_false (cell_of_returning hr') k, h⟩

omit hcalls henters hc hu in
/-- What follows a statement. -/
theorem over_advance_add {Q : Machine → Machine → Prop}
    {R : Machine → Machine → Prop} {k l : Nat}
    (h : Mirrors R (Over t more c p p' n) (advance job enter fuel k)
      (advance job' enter' fuel k))
    (hnext : Mirrors (Twin t more c p p' n) Q (advance job enter fuel l)
      (advance job' enter' fuel l))
    (hgone : ∀ m m', Gone t more c m m' → Q m m') :
    Mirrors R Q (advance job enter fuel (k + l)) (advance job' enter' fuel (k + l)) := by
  refine mirrors_advance_add h fun m m' u m₁ hm hrun => ?_
  rcases hm with hm | hm
  · exact hnext _ _ _ _ hm hrun
  · exact (gone_advance l).mono (fun _ _ hm => hm) hgone _ _ _ _ hm hrun

/-- The code of statements leaves the stack as high as it was. -/
theorem twin_stmts {ss : List Stmt} (hss : Stmt.AllCodable u ss)
    (hagree : c.sure = true → Stmt.allAgree t ss)
    (h : Holds job.cells a (Layout.stmts u false a ss))
    (h' : Holds job'.cells a' (Layout.stmts u false a' ss)) :
    Mirrors (Twin t more c a a' n)
      (Over t more c (a + Stmt.sizes ss) (a' + Stmt.sizes ss) n)
      (advance job enter fuel (Stmt.stepsAll ss))
      (advance job' enter' fuel (Stmt.stepsAll ss)) := by
  induction ss generalizing a a' with
  | nil => exact .pure (fun _ _ hm => .inl hm) ()
  | cons s ss ih =>
    rw [Layout.stmts, holds_append, Layout.length_stmt] at h h'
    obtain ⟨has, hass⟩ := Setting.sure_and hagree
    rw [Stmt.sizes, ← Nat.add_assoc, ← Nat.add_assoc]
    exact over_advance_add (twin_stmt hcalls henters hc hu hss.1 has h.1 h'.1)
      (ih hss.2 hass h.2 h'.2) fun _ _ => .inr

/-- The code of a body leaves its call. -/
theorem twin_body {ss : List Stmt} (hsure : c.sure = false) (hss : Stmt.AllCodable u ss)
    (h : Holds job.cells a (Layout.body u false a ss))
    (h' : Holds job'.cells a' (Layout.body u false a' ss)) :
    Mirrors (Twin t more c a a' n) (Gone t more c)
      (advance job enter fuel (Stmt.stepsAll ss + 1))
      (advance job' enter' fuel (Stmt.stepsAll ss + 1)) := by
  rw [Layout.body, holds_append, Layout.length_stmts] at h h'
  have hstmts : Mirrors (Twin t more c a a' n)
      (Over t more c (a + Stmt.sizes ss) (a' + Stmt.sizes ss) n)
      (advance job enter fuel (Stmt.stepsAll ss))
      (advance job' enter' fuel (Stmt.stepsAll ss)) :=
    twin_stmts hcalls henters hc hu hss
      (fun hs => absurd (hsure.symm.trans hs) Bool.false_ne_true) h.1 h'.1
  exact over_advance_add hstmts (twin_op h.2.1 h'.2.1 (twin_returnNothing hc))
    fun _ _ hm => hm

end

end Exec

end StackCalc
