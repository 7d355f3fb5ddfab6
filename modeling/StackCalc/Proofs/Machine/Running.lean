import StackCalc.Proofs.Machine.Composition
import StackCalc.Proofs.Symbol.Running

/-!
# Runs of any code

Two facts about running code, whatever the code is. A run is given a number of
rounds that bounds each of its loops; more rounds change no result but that of a
run that has used them up (`Exec.execute_mono`). And the symbol table keeps,
along every run, what `SymbolTable.Runs` says (`Exec.execute_behaves`).

What a single instruction does to the symbols is said once, by
`Instruction.Change`.
-/

namespace StackCalc

namespace Exec

open StackCalc.Action

variable {job : Job} {enter enter' : Nat → Exec Unit}

/-- One way to run stretches is as good as another, as far as it has rounds. -/
abbrev ApproxAll (enter enter' : Nat → Exec Unit) : Prop :=
  ∀ a, Approx .outOfFuel (enter a) (enter' a)

theorem approx_condition (h : ApproxAll enter enter') (a : Nat) :
    Approx .outOfFuel (condition enter a) (condition enter' a) :=
  (h a).bind fun _ => Approx.refl _

/-- The rounds of a `while` loop, of which one run may have more. -/
theorem approx_whileLoop (h : ApproxAll enter enter') (a : Nat) {fuel fuel' : Nat}
    (hf : fuel ≤ fuel') :
    Approx .outOfFuel (whileLoop job enter a fuel) (whileLoop job enter' a fuel') := by
  induction fuel generalizing fuel' with
  | zero => exact Approx.throw _
  | succ fuel ih =>
    obtain ⟨fuel', rfl⟩ : ∃ n, fuel' = n + 1 := ⟨fuel' - 1, by omega⟩
    refine (approx_condition h _).bind fun b => ?_
    split
    · refine (h a).bind fun _ => (Approx.refl _).bind fun m => ?_
      split
      · exact Approx.refl _
      · exact ih (by omega)
    · exact Approx.refl _

/-- The rounds of a `for` loop, likewise. -/
theorem approx_forLoop (h : ApproxAll enter enter') (a : Nat) {fuel fuel' : Nat}
    (hf : fuel ≤ fuel') :
    Approx .outOfFuel (forLoop job enter a fuel) (forLoop job enter' a fuel') := by
  induction fuel generalizing fuel' with
  | zero => exact Approx.throw _
  | succ fuel ih =>
    obtain ⟨fuel', rfl⟩ : ∃ n, fuel' = n + 1 := ⟨fuel' - 1, by omega⟩
    refine (approx_condition h _).bind fun b => ?_
    split
    · refine (h _).bind fun _ => (Approx.refl _).bind fun m => ?_
      split
      · exact Approx.refl _
      · exact (h _).bind fun _ => (Approx.refl _).bind fun _ => ih (by omega)
    · exact Approx.refl _

/-- Whichever way a branch goes, the stretch is as good. -/
theorem approx_branch (h : ApproxAll enter enter') (a : Nat) :
    Approx .outOfFuel (branch job enter a) (branch job enter' a) := by
  refine (approx_condition h _).bind fun b => ?_
  split
  · exact (h _).bind fun _ => Approx.refl _
  · split
    · exact (h _).bind fun _ => Approx.refl _
    · exact Approx.refl _

/-- What a call does before it enters the body is the same in both runs. -/
theorem approx_call (h : ApproxAll enter enter') :
    Approx .outOfFuel (call job enter) (call job enter') := by
  -- the body is entered only once all checks have passed
  refine (Approx.refl _).bind fun id => (Approx.refl _).bind fun n =>
    (Approx.refl _).bind fun m => ?_
  split
  · exact Approx.refl _
  · refine (Approx.refl _).bind fun s => ?_
    split
    · exact Approx.refl _
    · refine (Approx.refl _).bind fun m => ?_
      dsimp only
      split
      · exact Approx.refl _
      · exact (Approx.refl _).bind fun _ => (h _).bind fun _ => Approx.refl _

/-- An instruction has no rounds at all; a loop has those of the run. -/
theorem approx_operation (h : ApproxAll enter enter') {fuel fuel' : Nat}
    (hf : fuel ≤ fuel') :
    ∀ o, Approx .outOfFuel (operation job enter fuel o) (operation job enter' fuel' o)
  | .plain _ => Approx.refl _
  | .control .whileLoop => (Approx.refl _).bind fun _ => approx_whileLoop h _ hf
  | .control .forLoop =>
    (Approx.refl _).bind fun _ => (h _).bind fun _ => (Approx.refl _).bind fun _ =>
      approx_forLoop h _ hf
  | .control .branch => (Approx.refl _).bind fun _ => approx_branch h _
  | .control .call => approx_call h

/-- A cell that is an operation, or one that is the same in both runs. -/
theorem approx_cell (h : ApproxAll enter enter') {fuel fuel' : Nat} (hf : fuel ≤ fuel') :
    Approx .outOfFuel (cell job enter fuel) (cell job enter' fuel') := by
  refine (Approx.refl _).bind fun m => ?_
  split
  · exact Approx.refl _
  · split
    · exact Approx.refl _
    · split
      case h_3 o _ =>
        exact (Approx.refl _).bind fun _ => (approx_operation h hf o).bind fun _ =>
          Approx.refl _
      all_goals exact Approx.refl _

/-- Cells one after the other, as long as there are rounds. -/
theorem approx_dispatch (h : ApproxAll enter enter') {fuel fuel' : Nat}
    (hf : fuel ≤ fuel') {rounds rounds' : Nat} (hr : rounds ≤ rounds') :
    Approx .outOfFuel (dispatch job enter fuel rounds)
      (dispatch job enter' fuel' rounds') := by
  -- the rounds of the stretch grow as well as those of the stretches inside
  induction rounds generalizing rounds' with
  | zero => exact Approx.throw _
  | succ rounds ih =>
    obtain ⟨rounds', rfl⟩ : ∃ n, rounds' = n + 1 := ⟨rounds' - 1, by omega⟩
    refine (approx_cell h hf).bind fun b => ?_
    split
    · exact ih (by omega)
    · exact Approx.refl _

/-- Stretches at every level of nesting. -/
theorem exec_mono {fuel fuel' : Nat} (hf : fuel ≤ fuel') (depth : Nat) :
    ApproxAll (exec job fuel depth) (exec job fuel' depth) := by
  -- the depth is a limit of its own and stays the same
  induction depth with
  | zero => exact fun _ => Approx.refl _
  | succ depth ih => exact fun _ => (Approx.refl _).bind fun _ => approx_dispatch ih hf hf

/-- More rounds change no result but that of a run that has used them up. -/
theorem execute_mono {fuel fuel' : Nat} (hf : fuel ≤ fuel') (a : Nat) :
    Approx .outOfFuel (execute job fuel a) (execute job fuel' a) :=
  (Approx.refl _).bind fun _ => exec_mono hf _ a

/-! ### Symbols -/

/-- What running an action of the machine keeps of the symbol table. -/
abbrev Behaves {α : Type} (x : Exec α) : Prop :=
  Action.Behaves Machine.symbols x

/-- An action of the machine that does not touch the symbol table. -/
abbrev Leaves {α : Type} (x : Exec α) : Prop :=
  Action.Leaves Machine.symbols x

variable {α : Type}

theorem leaves_fail (kind : FaultKind) (note : String) :
    Leaves (fail kind note : Exec α) :=
  fun _ => rfl

theorem leaves_ofExcept (r : Except Fault α) : Leaves (ofExcept r) := by
  cases r <;> exact fun _ => rfl

theorem leaves_onStack (act : EStateM Fault (Stack Datum) α) : Leaves (onStack act) := by
  intro m
  unfold onStack
  cases act m.stack <;> rfl

theorem leaves_onFrames (act : EStateM Fault (Stack Frame) α) :
    Leaves (onFrames act) := by
  intro m
  unfold onFrames
  cases act m.frames <;> rfl

theorem leaves_push (job : Job) (x : Float) : Leaves (push job x) :=
  leaves_onStack _

theorem leaves_pop : Leaves pop :=
  (leaves_onStack _).bind fun _ _ => rfl

theorem leaves_operand (job : Job) : Leaves (operand job) := by
  intro m
  rw [operand, bind_of_ok (get_apply m)]
  cases job.cells[m.pc]? <;> rfl

theorem leaves_symbolOperand (job : Job) : Leaves (symbolOperand job) := by
  refine (leaves_operand job).bind fun c => ?_
  cases c <;> exact fun _ => rfl

theorem leaves_countOperand (job : Job) : Leaves (countOperand job) := by
  refine (leaves_operand job).bind fun c => ?_
  cases c <;> exact fun _ => rfl

theorem symbol_apply (id : Nat) (m : Machine) : symbol id m = .ok (m.symbols.get id) m :=
  rfl

theorem leaves_symbol (id : Nat) : Leaves (symbol id) :=
  fun _ => rfl

theorem leaves_failAbout (kind : FaultKind) (id : Nat) :
    Leaves (failAbout kind id : Exec α) :=
  fun _ => rfl

/-- A write goes to the console; it may raise an interrupt. -/
theorem leaves_print (w : Write) : Leaves (print w) := by
  intro m
  show (m.write w).symbols = m.symbols
  unfold Machine.write
  dsimp only
  split <;> rfl

theorem leaves_readLine : Leaves readLine :=
  fun _ => rfl

theorem leaves_frame : Leaves frame := by
  intro m
  rw [frame, bind_of_ok (get_apply m)]
  cases m.frames.top? <;> rfl

theorem leaves_get : Leaves (get : Exec Machine) :=
  fun _ => rfl

/-! ### Symbols and instructions -/

/-- A check that a symbol is a variable passes or fails, and changes nothing. -/
theorem verify_cases (id : Nat) (m : Machine) :
    ((m.symbols.get id).kind = .var ∧ verify id m = .ok () m) ∨
      (m.symbols.get id).kind ≠ .var ∧ ∃ h, verify id m = .error h m := by
  rw [verify, bind_of_ok (symbol_apply id m)]
  cases hk : (m.symbols.get id).kind
  case var => exact .inl ⟨rfl, rfl⟩
  all_goals exact .inr ⟨by decide, _, rfl⟩

/-- A check that a symbol may be assigned to passes or fails, and changes
nothing. -/
theorem verifyAssignable_cases (id : Nat) (m : Machine) :
    ((m.symbols.get id).isAssignable ∧ verifyAssignable id m = .ok () m) ∨
      ¬(m.symbols.get id).isAssignable ∧ ∃ h, verifyAssignable id m = .error h m := by
  have hverify : verifyAssignable id m = (if (m.symbols.get id).isAssignable then pure ()
    else failAbout .assignmentToNonVariable id : Exec Unit) m := rfl
  rw [hverify]
  by_cases ha : (m.symbols.get id).isAssignable
  · rw [if_pos ha]
    exact .inl ⟨ha, rfl⟩
  · rw [if_neg ha]
    exact .inr ⟨ha, _, rfl⟩

/-- Whether or not there is room for the value, the assignment has been made. -/
theorem symbols_assign_push (job : Job) (id : Nat) (x y : Float) (m : Machine) :
    (final ((assign id x >>= fun _ => push job y) m)).symbols =
      m.symbols.modify id (Symbol.assigned x) :=
  leaves_push job y { m with symbols := m.symbols.modify id (Symbol.assigned x) }

/-- Evaluating a variable looks it up. -/
theorem leaves_eval (job : Job) : Leaves (eval job) := by
  refine (leaves_onStack _).bind fun d => ?_
  cases d.symbol with
  | none => exact fun _ => rfl
  | some id =>
    refine Action.Leaves.bind (fun m => ?_) fun _ => (leaves_symbol id).bind fun _ =>
      leaves_push job _
    rcases verify_cases id m with ⟨-, hm⟩ | ⟨-, h, hm⟩ <;> rw [hm] <;> rfl

theorem leaves_binary (job : Job) (op : BinaryOp) : Leaves (binary job op) :=
  (leaves_onStack _).bind fun _ => (leaves_ofExcept _).bind fun _ => leaves_push job _

/-- Applying a function looks it up. -/
theorem leaves_builtin (job : Job) : Leaves (builtin job) := by
  refine (leaves_symbolOperand job).bind fun id => (leaves_symbol id).bind fun s => ?_
  cases s.native with
  | none => exact fun _ => rfl
  | some f =>
    exact leaves_pop.bind fun _ => (leaves_ofExcept _).bind fun _ => leaves_push job _

theorem leaves_printLiteral (job : Job) : Leaves (printLiteral job) := by
  refine (leaves_operand job).bind fun c => ?_
  cases c <;> first | exact leaves_print _ | exact fun _ => rfl

/-- Leaving a call works on the stack, on the calls and on the place of the
machine. -/
theorem leaves_leave : Leaves leave := by
  refine (leaves_onFrames _).bind fun f => leaves_get.bind fun m => ?_
  split
  · exact fun _ => rfl
  · exact (leaves_onStack _).bind fun _ _ => rfl

theorem leaves_returnValue (job : Job) : Leaves (returnValue job) := by
  refine leaves_frame.bind fun f => (leaves_symbol _).bind fun s => ?_
  split
  · exact leaves_failAbout _ _
  · exact leaves_pop.bind fun _ => leaves_leave.bind fun _ => leaves_push job _

theorem leaves_returnNothing : Leaves returnNothing := by
  refine leaves_frame.bind fun f => (leaves_symbol _).bind fun s => ?_
  split
  · exact leaves_failAbout _ _
  · exact leaves_leave

/-- The place of an argument is counted from the last call. -/
theorem leaves_argPlace (job : Job) : Leaves (argPlace job) := by
  refine (leaves_countOperand job).bind fun n => leaves_frame.bind fun f => ?_
  split
  · exact leaves_fail _ _
  · split
    · exact leaves_failAbout _ _
    · exact fun _ => rfl

theorem leaves_arg (job : Job) : Leaves (arg job) := by
  refine (leaves_argPlace job).bind fun i => leaves_get.bind fun m => ?_
  split
  · exact leaves_push job _
  · exact leaves_fail _ _

/-- An argument is on the stack and is no symbol. -/
theorem leaves_argAssign (job : Job) : Leaves (argAssign job) := by
  refine (leaves_argPlace job).bind fun i => leaves_pop.bind fun x =>
    leaves_get.bind fun m => ?_
  dsimp only
  split
  · split
    · exact Action.Leaves.bind (fun _ => rfl) fun _ => leaves_push job _
    · exact leaves_fail _ _
  · exact leaves_fail _ _

end Exec

/-- The symbol in a cell. -/
def Cell.symbol? : Cell → Option Nat
  | symbol id => some id
  | _ => none

/-- The symbol that an instruction makes a variable, whatever it was: an
assignment finds it on top of the stack, a read behind itself in the code, and
showing a value by the name `_`. -/
def Instruction.makesVariable? (job : Job) (m : Machine) : Instruction → Option Nat
  | assign _ => m.stack.top?.bind Datum.symbol
  | read => (job.cells[m.pc]?).bind Cell.symbol?
  | printTop => m.symbols.lookup "_"
  | _ => none

/-- Whether an instruction may assign to a symbol. -/
def Instruction.mayAssign : Instruction → Bool
  | assign _ | step _ | printTop | read => true
  | _ => false

/-- What an instruction may make of the symbols of a machine. -/
inductive Instruction.Change (job : Job) (i : Instruction) (m : Machine) :
    SymbolTable → Prop
  | nothing : i.Change job m m.symbols
  | assigned {id : Nat} (x : Float) (ha : (m.symbols.get id).isAssignable)
    (hid : i.makesVariable? job m = some id ∨ (m.symbols.get id).kind = .var) :
    i.Change job m (m.symbols.modify id (Symbol.assigned x))
  | shown (x : Float) (hi : i = .printTop) :
    i.Change job m ((m.symbols.resolve "_").2.modify (m.symbols.resolve "_").1
      (Symbol.assigned x))

namespace Exec

open StackCalc.Action

variable {job : Job} {α : Type}

/-- What was popped was on top. -/
theorem top_of_pop {m m' : Machine} {d : Datum} (h : onStack Stack.pop m = .ok d m') :
    m.stack.top? = some d := by
  unfold onStack Stack.pop at h
  cases htop : m.stack.top? with
  | none =>
    rw [htop] at h
    cases h
  | some d' =>
    rw [htop] at h
    cases h
    rfl

/-- The symbol that was taken stands in the cell at hand. -/
theorem symbol?_of_symbolOperand {m m' : Machine} {id : Nat}
    (h : symbolOperand job m = .ok id m') :
    (job.cells[m.pc]?).bind Cell.symbol? = some id := by
  obtain ⟨c, m₁, hoperand, hrest⟩ := of_bind_ok h
  rw [operand, bind_of_ok (get_apply m)] at hoperand
  cases hc : job.cells[m.pc]? with
  | none =>
    rw [hc] at hoperand
    cases hoperand
  | some c' =>
    rw [hc] at hoperand
    cases hoperand
    cases c <;> cases hrest
    rfl

section

variable {i : Instruction} {m m₁ : Machine}

theorem Leaves.change {x : Exec Unit} (hx : Leaves x) :
    i.Change job m (final (x m)).symbols :=
  hx m ▸ .nothing

/-- A change comes from what follows an action that leaves the symbols alone. -/
theorem Leaves.change_bind {x : Exec α} {f : α → Exec Unit} (hx : Leaves x)
    (h₁ : m₁.symbols = m.symbols)
    (hf : ∀ a m₂, x m₁ = .ok a m₂ → m₂.symbols = m.symbols →
      i.Change job m (final (f a m₂)).symbols) :
    i.Change job m (final ((x >>= f) m₁)).symbols := by
  have hsame : (final (x m₁)).symbols = m.symbols := (hx m₁).trans h₁
  rcases bind_cases x f m₁ with ⟨e, m₂, hrun, heq⟩ | ⟨a, m₂, hrun, heq⟩
  · rw [hrun] at hsame
    rw [heq]
    exact hsame ▸ .nothing
  · rw [hrun] at hsame
    rw [heq]
    exact hf a m₂ hrun hsame

/-- An assignment to a symbol that may be assigned to. -/
theorem change_assign (job : Job) {id : Nat} (x y : Float) (h₁ : m₁.symbols = m.symbols)
    (ha : (m.symbols.get id).isAssignable)
    (hid : i.makesVariable? job m = some id ∨ (m.symbols.get id).kind = .var) :
    i.Change job m (final ((assign id x >>= fun _ => push job y) m₁)).symbols := by
  rw [symbols_assign_push, h₁]
  exact .assigned x ha hid

end

/-- The symbol that is assigned to was on top of the stack. -/
theorem change_assignTop (job : Job) (op : AssignOp) (m : Machine) :
    (Instruction.assign op).Change job m (final (assignTop job op m)).symbols := by
  refine Leaves.change_bind (leaves_onStack _) rfl fun d m₁ hpop h₁ =>
    Leaves.change_bind leaves_pop h₁ fun x m₂ _ h₂ => ?_
  cases hd : d.symbol with
  | none => exact h₂ ▸ .nothing
  | some id =>
    dsimp only
    -- a symbol that fails the check is not assigned to
    rcases verifyAssignable_cases id m₂ with ⟨ha, hm⟩ | ⟨-, h, hm⟩
    · rw [bind_of_ok hm]
      refine Leaves.change_bind (leaves_symbol id) h₂ fun s m₃ _ h₃ =>
        Leaves.change_bind (leaves_ofExcept _) h₃ fun y m₄ _ h₄ =>
          change_assign job y y h₄ (h₂ ▸ ha) (.inl ?_)
      rw [Instruction.makesVariable?, top_of_pop hpop]
      exact hd
    · rw [bind_of_error hm]
      exact h₂ ▸ .nothing

/-- A step assigns to a variable. -/
theorem change_step (job : Job) (how : Step) (m : Machine) :
    (Instruction.step how).Change job m (final (step job how m)).symbols := by
  refine Leaves.change_bind (leaves_symbolOperand job) rfl fun id m₁ _ h₁ => ?_
  rcases verify_cases id m₁ with ⟨hvar, hm⟩ | ⟨-, h, hm⟩
  · rw [bind_of_ok hm]
    rw [h₁] at hvar
    refine Leaves.change_bind (leaves_symbol id) h₁ fun s m₂ _ h₂ =>
      change_assign job _ _ h₂ (Symbol.isAssignable_of_var hvar) (.inr hvar)
  · rw [bind_of_error hm]
    exact h₁ ▸ .nothing

/-- The symbol that a line is read for stands behind the instruction. -/
theorem change_read (job : Job) (m : Machine) :
    Instruction.read.Change job m (final (read job m)).symbols := by
  refine Leaves.change_bind (leaves_symbolOperand job) rfl fun id m₁ hoperand h₁ => ?_
  have hid : Instruction.read.makesVariable? job m = some id :=
    symbol?_of_symbolOperand hoperand
  rcases verifyAssignable_cases id m₁ with ⟨ha, hm⟩ | ⟨-, h, hm⟩
  · rw [bind_of_ok hm]
    rw [h₁] at ha
    refine Leaves.change_bind leaves_readLine h₁ fun l m₂ _ h₂ => ?_
    cases l with
    | none => exact change_assign job _ _ h₂ ha (.inl hid)
    | some l =>
      dsimp only
      cases readTyped? l with
      | some x => exact change_assign job _ _ h₂ ha (.inl hid)
      | none => exact h₂ ▸ .nothing
  · rw [bind_of_error hm]
    exact h₁ ▸ .nothing

/-- Showing a value assigns to `_`. -/
theorem change_printTop (job : Job) (m : Machine) :
    Instruction.printTop.Change job m (final (printTop m)).symbols := by
  refine Leaves.change_bind leaves_pop rfl fun x m₁ _ h₁ =>
    Leaves.change_bind (leaves_print _) h₁ fun _ m₂ _ h₂ => ?_
  show Instruction.printTop.Change job m
    ((m₂.symbols.resolve "_").2.modify (m₂.symbols.resolve "_").1 (Symbol.assigned x))
  rw [h₂]
  exact .shown x rfl

/-- Most instructions do nothing to symbols. -/
theorem leaves_instruction (job : Job) :
    ∀ i : Instruction, i.mayAssign = false → Leaves (i.run job)
  | .constPush, _ => by
    refine (leaves_operand job).bind fun c => ?_
    cases c <;> first | exact leaves_push job _ | exact fun _ => rfl
  | .varPush, _ => (leaves_symbolOperand job).bind fun _ => leaves_onStack _
  | .eval, _ => leaves_eval job
  | .pop, _ => leaves_pop.bind fun _ _ => rfl
  | .binary op, _ => leaves_binary job op
  | .negate, _ => leaves_pop.bind fun _ => leaves_push job _
  | .not, _ => leaves_pop.bind fun _ => leaves_push job _
  | .builtin, _ => leaves_builtin job
  | .printValue, _ => leaves_pop.bind fun _ => leaves_print _
  | .printText, _ => leaves_printLiteral job
  | .returnValue, _ => leaves_returnValue job
  | .returnNothing, _ => leaves_returnNothing
  | .arg, _ => leaves_arg job
  | .argAssign, _ => leaves_argAssign job

/-- What instructions do to symbols. -/
theorem change_instruction (job : Job) (m : Machine) (i : Instruction) :
    i.Change job m (final (i.run job m)).symbols := by
  cases hassigns : i.mayAssign with
  | false => exact Leaves.change (leaves_instruction job i hassigns)
  | true =>
    cases i with
    | assign op => exact change_assignTop job op m
    | step how => exact change_step job how m
    | printTop => exact change_printTop job m
    | read => exact change_read job m
    | _ => cases hassigns

/-- All that instructions do to symbols is what running code may do. -/
theorem runs_of_change {i : Instruction} {m : Machine} {t : SymbolTable}
    (h : i.Change job m t) (hs : m.symbols.Sound) : m.symbols.Runs t := by
  cases h with
  | nothing => exact SymbolTable.Runs.refl _
  | assigned x ha _ => exact SymbolTable.runs_assigned ha x
  | shown x _ => exact SymbolTable.runs_shown hs x

theorem behaves_instruction (job : Job) (i : Instruction) : Behaves (i.run job) :=
  fun m hs => runs_of_change (change_instruction job m i) hs

/-! ### Symbols and runs -/

theorem leaves_jump (a : Nat) : Leaves (jump a) :=
  fun _ => rfl

theorem runs_of_surroundings {m m' : Machine} (h : m'.surroundings = m.surroundings) :
    m.symbols.Sound → m.symbols.Runs m'.symbols :=
  fun _ => Machine.symbols_of_surroundings h ▸ SymbolTable.Runs.refl _

/-- What running code keeps of the symbol table, whatever the code is and
however the run ends. -/
theorem execute_behaves (job : Job) (fuel a : Nat) : Behaves (execute job fuel a) :=
  Behaves.bind (Leaves.behaves fun _ => rfl) fun _ =>
    keeps_exec steady_runs runs_of_surroundings (behaves_instruction job) fuel _ a

end Exec

end StackCalc
