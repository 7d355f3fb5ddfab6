import StackCalc.Proofs.Machine.Tidy
import StackCalc.Proofs.Simulation.Tracking

/-!
# What a run reaches for

An operation takes for granted that certain things are there: that its operands
are inside the code, that the symbol behind it or on top of the stack is in the
table, that a call has no more arguments than there were operands.
`Machine.isInOrder` says, before a cell is run, whether all that is so.
`Exec.watchedExecute` runs code like `Exec.execute` but tests something before
each cell, at every level of nesting, and breaks off where the test fails.

For closed code both runs are the same (`Exec.agrees_execute`), from any address
inside the code, be it the middle of an instruction: nothing is ever reached for
that is not there. What else may be missing, such as an item of the stack to
pop, the machine looks for itself and reports.

The invariant that carries this is `Machine.InOrder`. Its part about the stacks
and the program counter is kept by every instruction; its part about the symbols
follows from what any run keeps of them.
-/

namespace StackCalc

/-! ### What has to be there -/

namespace Machine

variable (job : Job) (m : Machine)

/-- Whether the symbol operand ahead, if there is one, is in the table. -/
def knowsOperand : Bool :=
  (job.cells[m.pc]?).all fun
    | .symbol id => id < m.symbols.size
    | _ => true

/-- Whether the name of the last value shown, if there is one, leads into the
table. -/
def knowsShown : Bool :=
  (m.symbols.lookup "_").all fun id => id < m.symbols.size

/-- Whether the body of the symbol ahead, if it has one, is inside the code. -/
def knowsBody : Bool :=
  (job.cells[m.pc]?).all fun
    | .symbol id => (m.symbols.get id).code.all fun a => a < job.cells.size
    | _ => true

end Machine

/-- Whether an instruction finds what it takes for granted. -/
def Instruction.isProvided (job : Job) (m : Machine) : Instruction → Bool
  | varPush | step _ | builtin | read => m.knowsOperand job
  | printTop => m.knowsShown
  | _ => true

/-- Whether an operation finds what it takes for granted; its operands are all
there, and something behind them to go on with. -/
def Opcode.isProvided (job : Job) (m : Machine) (o : Opcode) : Bool :=
  m.pc + o.operands < job.cells.size &&
    match o with
    | plain i => i.isProvided job m
    | control .call => m.knowsOperand job && m.knowsBody job
    | control _ => true

/-- Whether the operand stack is within its limit and refers to symbols in the
table only. -/
def Machine.hasSaneStack (job : Job) (m : Machine) : Bool :=
  m.stack.size ≤ job.limits.stack &&
    m.stack.items.all fun d => d.symbol.all fun id => id < m.symbols.size

/-- Whether the stack of calls is within its limit, and every call is of a
symbol in the table, has no more arguments than there were operands, and goes on
inside the code. -/
def Machine.hasSaneFrames (job : Job) (m : Machine) : Bool :=
  m.frames.size ≤ job.limits.frames &&
    m.frames.items.all fun f =>
      f.symbol < m.symbols.size && f.count ≤ f.height && f.resume < job.cells.size

/-- Whether the cell at hand is there and finds what it takes for granted. -/
def Machine.hasSaneCell (job : Job) (m : Machine) : Bool :=
  match job.cells[m.pc]? with
  | some (.op o) => o.isProvided job { m with pc := m.pc + 1 }
  | some (.address a) => a < job.cells.size
  | some _ => true
  | none => false

/-- Whether both stacks and the cell at hand are as they should be. -/
def Machine.isInOrder (job : Job) (m : Machine) : Bool :=
  m.hasSaneStack job && m.hasSaneFrames job && m.hasSaneCell job

/-! ### Watched runs -/

namespace Exec

section

variable (ok : Machine → Bool) (breach : Halt) (job : Job)

/-- Runs an action unless a test of the state fails. -/
def watch {α : Type} (x : Exec α) : Exec α :=
  fun m => if ok m then x m else .error breach m

/-- Runs cells up to a stop or a return, with a test before each. -/
def watchedDispatch (enter : Nat → Exec Unit) (fuel : Nat) : (rounds : Nat) → Exec Unit
  | 0 => throw .outOfFuel
  | rounds + 1 => do
    if ← watch ok breach (cell job enter fuel) then watchedDispatch enter fuel rounds

/-- Runs the stretch at an address, with a test before each cell of it and of
the stretches it runs. -/
def watchedExec (fuel : Nat) : (depth a : Nat) → Exec Unit
  | 0, _ => fail .nestedTooDeeply
  | depth + 1, a => do
    jump a
    watchedDispatch ok breach job (watchedExec fuel depth) fuel fuel

/-- Runs the code at an address from the start, with a test before each cell. -/
def watchedExecute (fuel : Nat) (a : Nat) : Exec Unit := do
  modify fun m => m.start a
  watchedExec ok breach job fuel job.limits.depth a

end

section

open StackCalc.Action

variable {ok : Machine → Bool} {breach : Halt} {job : Job} {fuel : Nat}
  {S : Machine → Machine → Prop}

/-- A test changes nothing, so a watched action keeps what the action keeps. -/
theorem keeps_watch (hS : Steady S) {α : Type} {x : Exec α} (hx : Keeps S x) :
    Keeps S (watch ok breach x) := by
  intro m
  unfold watch
  split
  · exact hx m
  · exact hS.refl m

/-- What every cell keeps, a watched run keeps, from the addresses that
stretches may start at. -/
theorem keeps_watchedExec (hS : Steady S) {P : Nat → Prop}
    (hjump : ∀ a, P a → Keeps S (jump a))
    (hcell : ∀ enter, (∀ a, P a → Keeps S (enter a)) →
      Keeps S (watch ok breach (cell job enter fuel)))
    (depth : Nat) {a : Nat} (ha : P a) :
    Keeps S (watchedExec ok breach job fuel depth a) := by
  induction depth generalizing a with
  | zero => exact hS.refl
  | succ depth ih =>
    have hdispatch : ∀ rounds, Keeps S (watchedDispatch ok breach job
        (watchedExec ok breach job fuel depth) fuel rounds) := by
      intro rounds
      induction rounds with
      | zero => exact hS.refl
      | succ rounds hrounds =>
        refine (hcell _ fun a ha => ih ha).bind hS fun b => ?_
        split
        · exact hrounds
        · exact hS.refl
    exact (hjump a ha).bind hS fun _ => hdispatch fuel

end

end Exec

/-! ### Machines in order -/

/-- A table that has the places below `n`, and bodies only inside code of the
given size. -/
structure SymbolTable.Serves (n size : Nat) (t : SymbolTable) : Prop where
  sound : t.Sound
  le_size : n ≤ t.size
  code : ∀ {id a}, (t.get id).code = some a → a < size

/-- Running code adds symbols and changes no bodies, so the table still serves. -/
theorem SymbolTable.Runs.serves {n size : Nat} {t t' : SymbolTable} (h : t.Runs t')
    (ht : t.Serves n size) : t'.Serves n size where
  sound := h.advances.sound ht.sound
  le_size := Nat.le_trans ht.le_size h.advances.evolves.size_le
  code hc := ht.code ((h.advances.sameCode _).symm.trans hc)

/-- A tidy machine with the symbols that its code needs. -/
structure Machine.InOrder (n : Nat) (job : Job) (m : Machine) : Prop where
  tidy : m.Tidy n job
  serves : m.symbols.Serves n job.cells.size

namespace Machine.InOrder

variable {n : Nat} {job : Job} {m : Machine}

theorem goto (hm : m.InOrder n job) {a : Nat} (ha : a < job.cells.size) :
    Machine.InOrder n job { m with pc := a } :=
  ⟨hm.tidy.goto ha, hm.serves⟩

theorem hasSaneStack (hm : m.InOrder n job) : m.hasSaneStack job = true := by
  refine Bool.and_eq_true_iff.mpr ⟨decide_eq_true hm.tidy.stack.size_le, ?_⟩
  rw [Array.all_eq_true_iff_forall_mem]
  intro d hd
  rw [Option.all_eq_true]
  intro id hid
  have hlt : id < n := hm.tidy.stack.all d hd id hid
  simpa using Nat.lt_of_lt_of_le hlt hm.serves.le_size

theorem hasSaneFrames (hm : m.InOrder n job) : m.hasSaneFrames job = true := by
  refine Bool.and_eq_true_iff.mpr ⟨decide_eq_true hm.tidy.frames.size_le, ?_⟩
  rw [Array.all_eq_true_iff_forall_mem]
  intro f hf
  have hsane := hm.tidy.frames.all f hf
  simpa using ⟨⟨Nat.lt_of_lt_of_le hsane.symbol hm.serves.le_size, hsane.count⟩,
    hsane.resume⟩

/-- The name of the last value shown leads into the table, for the table is
sound. -/
theorem knowsShown (hm : m.InOrder n job) : m.knowsShown = true := by
  rw [Machine.knowsShown, Option.all_eq_true]
  intro id hid
  simpa using (hm.serves.sound.named hid).1

theorem knowsBody (hm : m.InOrder n job) : m.knowsBody job = true := by
  rw [Machine.knowsBody, Option.all_eq_true]
  intro c _
  cases c with
  | symbol id =>
    rw [Option.all_eq_true]
    intro a ha
    simpa using hm.serves.code ha
  | _ => rfl

section

variable (hclosed : Closed n job.cells 0 job.cells.size)

include hclosed

theorem knowsOperand (hm : m.InOrder n job) : m.knowsOperand job = true := by
  rw [Machine.knowsOperand, Option.all_eq_true]
  intro c hc
  cases c with
  | symbol id =>
    have hlt : id < n := hclosed.symbol (Nat.zero_le _) hm.tidy.pc_lt hc
    simpa using Nat.lt_of_lt_of_le hlt hm.serves.le_size
  | _ => rfl

/-- An operation whose operands are inside the code finds all that it takes for
granted. -/
theorem isProvided (hm : m.InOrder n job) (o : Opcode)
    (ho : m.pc + o.operands < job.cells.size) :
    o.isProvided job m = true := by
  refine Bool.and_eq_true_iff.mpr ⟨decide_eq_true ho, ?_⟩
  cases o with
  | plain i =>
    cases i with
    | varPush | step _ | builtin | read => exact hm.knowsOperand hclosed
    | printTop => exact hm.knowsShown
    | _ => rfl
  | control c =>
    cases c with
    | call =>
      show (m.knowsOperand job && m.knowsBody job) = true
      rw [hm.knowsOperand hclosed, hm.knowsBody]
      rfl
    | _ => rfl

/-- The cell at hand is inside the code, and what it takes for granted is there. -/
theorem hasSaneCell (hm : m.InOrder n job) : m.hasSaneCell job = true := by
  obtain ⟨c, hc⟩ : ∃ c, job.cells[m.pc]? = some c :=
    ⟨_, Array.getElem?_eq_getElem hm.tidy.pc_lt⟩
  rw [Machine.hasSaneCell, hc]
  cases c with
  | op o =>
    have ho := hclosed.operands (Nat.zero_le _) hm.tidy.pc_lt hc
    exact (hm.goto (Nat.lt_of_le_of_lt (Nat.le_add_right _ _) ho)).isProvided hclosed o ho
  | address a => exact decide_eq_true (hclosed.address (Nat.zero_le _) hm.tidy.pc_lt hc).2
  | _ => rfl

theorem isInOrder (hm : m.InOrder n job) : m.isInOrder job = true := by
  rw [Machine.isInOrder, hm.hasSaneStack, hm.hasSaneFrames, hm.hasSaneCell hclosed]
  rfl

end

end Machine.InOrder

/-! ### Runs that agree -/

namespace Exec

open StackCalc.Action

/-- Two actions that do the same to a machine in order, and leave it in order. -/
def Agrees (n : Nat) (job : Job) {α : Type} (x y : Exec α) : Prop :=
  ∀ m : Machine, m.InOrder n job → x m = y m ∧ (final (y m)).InOrder n job

variable {n : Nat} {job : Job} {α β : Type}

/-- Of the symbols, order asks no more than what running code keeps. -/
theorem inOrder_of_behaves {x : Exec α} (hx : Behaves x) {m : Machine}
    (hm : m.InOrder n job) (htidy : (final (x m)).Tidy n job) :
    (final (x m)).InOrder n job :=
  ⟨htidy, (hx m hm.serves.sound).serves hm.serves⟩

/-- An action that keeps machines tidy and behaves agrees with itself. -/
theorem KeepsTidy.agrees {x : Exec α} (hx : KeepsTidy n job x) (hb : Behaves x) :
    Agrees n job x x :=
  fun m hm => ⟨rfl, inOrder_of_behaves hb hm (hx m hm.tidy)⟩

/-- What is run next may rely on what is known of the result. -/
theorem Agrees.bindWith {x y : Exec α} {f g : α → Exec β} {P : α → Prop}
    (h : Agrees n job x y) (hP : ∀ m a m', m.InOrder n job → y m = .ok a m' → P a)
    (hf : ∀ a, P a → Agrees n job (f a) (g a)) : Agrees n job (x >>= f) (y >>= g) := by
  intro m hm
  obtain ⟨heq, hlast⟩ := h m hm
  rw [bind_apply, bind_apply, heq]
  cases hy : y m with
  | error e m' =>
    rw [hy] at hlast
    exact ⟨rfl, hlast⟩
  | ok a m' =>
    rw [hy] at hlast
    exact hf a (hP m a m' hm hy) m' hlast

theorem Agrees.bind {x y : Exec α} {f g : α → Exec β} (h : Agrees n job x y)
    (hf : ∀ a, Agrees n job (f a) (g a)) : Agrees n job (x >>= f) (y >>= g) :=
  h.bindWith (P := fun _ => True) (fun _ _ _ _ _ => trivial) fun a _ => hf a

theorem agrees_fail (kind : FaultKind) (note : String) :
    Agrees n job (fail kind note : Exec α) (fail kind note) :=
  fun _ hm => ⟨rfl, hm⟩

theorem agrees_failAbout (kind : FaultKind) (id : Nat) :
    Agrees n job (failAbout kind id : Exec α) (failAbout kind id) :=
  fun _ hm => ⟨rfl, hm⟩

theorem agrees_pure (a : α) : Agrees n job (pure a : Exec α) (pure a) :=
  fun _ hm => ⟨rfl, hm⟩

theorem agrees_outOfFuel : Agrees n job (throw .outOfFuel : Exec α) (throw .outOfFuel) :=
  fun _ hm => ⟨rfl, hm⟩

theorem agrees_pop : Agrees n job pop pop :=
  keepsTidy_pop.agrees leaves_pop.behaves

theorem agrees_jump {a : Nat} (ha : a < job.cells.size) :
    Agrees n job (jump a) (jump a) :=
  (keepsTidy_jump ha).agrees (leaves_jump a).behaves

/-- Looking at the state gives a machine in order. -/
theorem agrees_get {f g : Machine → Exec β}
    (h : ∀ m, m.InOrder n job → Agrees n job (f m) (g m)) :
    Agrees n job (get >>= f) (get >>= g) :=
  fun m hm => h m hm m hm

section

variable {enter enter' : Nat → Exec Unit} (hclosed : Closed n job.cells 0 job.cells.size)
  (h : ∀ a, a < job.cells.size → Agrees n job (enter a) (enter' a))

include hclosed

theorem agrees_leaveLoop (a : Nat) :
    Agrees n job (slotAddress job a >>= fun b => jump b)
      (slotAddress job a >>= fun b => jump b) := by
  unfold slotAddress
  split
  case h_1 b hb =>
    have hlt : a < job.cells.size := (Array.getElem?_eq_some_iff.mp hb).1
    exact agrees_jump (hclosed.address (Nat.zero_le _) hlt hb).2
  case h_2 => exact agrees_fail _ _

include h

omit hclosed in
theorem agrees_condition {a : Nat} (ha : a < job.cells.size) :
    Agrees n job (condition enter a) (condition enter' a) :=
  (h a ha).bind fun _ => agrees_pop.bind fun _ => agrees_pure _

/-- The stretches of a loop are entered at its slots, which are inside the code. -/
theorem agrees_whileLoop {a : Nat} (ha : a + 2 < job.cells.size) (fuel : Nat) :
    Agrees n job (whileLoop job enter a fuel) (whileLoop job enter' a fuel) := by
  induction fuel with
  | zero => exact agrees_outOfFuel
  | succ fuel ih =>
    refine (agrees_condition h ha).bind fun b => ?_
    split
    · refine (h a (by omega)).bind fun _ => agrees_get fun m _ => ?_
      split
      · exact agrees_pure _
      · exact ih
    · exact agrees_leaveLoop hclosed _

/-- The same of a `for` loop, which has four slots. -/
theorem agrees_forLoop {a : Nat} (ha : a + 4 < job.cells.size) (fuel : Nat) :
    Agrees n job (forLoop job enter a fuel) (forLoop job enter' a fuel) := by
  induction fuel with
  | zero => exact agrees_outOfFuel
  | succ fuel ih =>
    refine (agrees_condition h (by omega)).bind fun b => ?_
    split
    · refine (h _ (by omega)).bind fun _ => agrees_get fun m _ => ?_
      split
      · exact agrees_pure _
      · exact (h _ (by omega)).bind fun _ => agrees_pop.bind fun _ => ih
    · exact agrees_leaveLoop hclosed _

theorem agrees_branch {a : Nat} (ha : a + 3 < job.cells.size) :
    Agrees n job (branch job enter a) (branch job enter' a) := by
  -- whichever branch was entered, the same jump ends it
  have hend : Agrees n job
      (get >>= fun m : Machine =>
        if m.returning then pure () else slotAddress job (a + 2) >>= fun b => jump b)
      (get >>= fun m : Machine =>
        if m.returning then pure () else slotAddress job (a + 2) >>=
          fun b => jump b) := by
    refine agrees_get fun m _ => ?_
    split
    · exact agrees_pure _
    · exact agrees_leaveLoop hclosed _
  refine (agrees_condition h ha).bind fun b => ?_
  split
  · exact (h a (by omega)).bind fun _ => hend
  · split
    · exact (h _ (by omega)).bind fun _ => hend
    · exact hend

/-- A call finds its operands and enters a body inside the code. Its frame is
sane: the arguments are on the stack, and it goes on inside the code. -/
theorem agrees_call {m : Machine} (hm : m.InOrder n job)
    (hpc : m.pc + 2 < job.cells.size) :
    call job enter m = call job enter' m ∧ (final (call job enter' m)).InOrder n job := by
  have hm' := hm.goto (show m.pc + 1 < job.cells.size by omega)
  unfold call
  -- the two operands first: each of them may be missing, and then both runs
  -- fail alike
  rcases symbolOperand_cases hclosed hm.tidy.pc_lt with ⟨e, he⟩ | ⟨id, hid, hrun⟩
  · rw [bind_of_error he, bind_of_error he]
    exact ⟨rfl, hm'⟩
  rw [bind_of_ok hrun, bind_of_ok hrun]
  rcases countOperand_cases hm'.tidy.pc_lt with ⟨e, he⟩ | ⟨count, hrun⟩
  · rw [bind_of_error he, bind_of_error he]
    exact ⟨rfl, hm'.goto hpc⟩
  rw [bind_of_ok hrun, bind_of_ok hrun]
  refine (show Agrees n job _ _ from ?_) _ (hm'.goto hpc)
  refine agrees_get fun m₁ _ => ?_
  split
  · exact agrees_failAbout _ _
  refine Agrees.bindWith (P := fun s : Symbol => ∀ a ∈ s.code, a < job.cells.size)
    ((keepsTidy_symbol id).agrees (leaves_symbol id).behaves) ?_ fun s hs => ?_
  · rintro m₂ _ _ hm₂ ⟨⟩ a ha
    exact hm₂.serves.code ha
  split
  · exact agrees_failAbout _ _
  case h_2 body hbody =>
    -- the call goes on where the machine stands, and has its arguments
    refine agrees_get fun m₂ hm₂ => ?_
    dsimp only
    split
    · exact agrees_fail _ _
    case isFalse hcount =>
      have hframe : Frame.IsSane n job.cells.size ⟨id, count, m₂.pc, m₂.stack.size⟩ :=
        ⟨hid, Nat.le_of_not_lt hcount, hm₂.tidy.pc_lt⟩
      refine ((keepsTidy_onFrames (Stack.keepsWithin_push _ hframe)).agrees
        (leaves_onFrames _).behaves).bind fun _ =>
          (h body (hs body hbody)).bind fun _ => ?_
      exact KeepsTidy.agrees (keepsTidy_of_leaves fun _ => rfl)
        (Leaves.behaves fun _ => rfl)

/-- An operation whose operands are there, by what it is. -/
theorem agrees_operation (fuel : Nat) (o : Opcode) {m : Machine} (hm : m.InOrder n job)
    (ho : m.pc + o.operands < job.cells.size) :
    operation job enter fuel o m = operation job enter' fuel o m ∧
      (final (operation job enter' fuel o m)).InOrder n job := by
  cases o with
  | plain i =>
    exact ⟨rfl, inOrder_of_behaves (behaves_instruction job i) hm
      (tidy_instruction hclosed i hm.tidy ho)⟩
  | control c =>
    cases c with
    | whileLoop => exact agrees_whileLoop hclosed h ho fuel m hm
    | forLoop =>
      exact ((h _ ho).bind fun _ => agrees_pop.bind fun _ =>
        agrees_forLoop hclosed h ho fuel) m hm
    | branch => exact agrees_branch hclosed h ho m hm
    | call => exact agrees_call hclosed h hm ho

/-- Where the test before a cell is whether the machine is in order, the test
makes no difference. -/
theorem agrees_cell (breach : Halt) (fuel : Nat) :
    Agrees n job (watch (Machine.isInOrder job) breach (cell job enter fuel))
      (cell job enter' fuel) := by
  intro m hm
  -- the test passes; what is left is one case for each sort of cell
  rw [watch, if_pos (hm.isInOrder hclosed)]
  cases hr : m.returning with
  | true =>
    rw [cell_of_returning hr, cell_of_returning hr]
    exact ⟨rfl, hm⟩
  | false =>
    cases hi : m.interrupted with
    | true =>
      rw [cell_of_interrupted hr hi, cell_of_interrupted hr hi]
      exact ⟨rfl, hm⟩
    | false =>
      obtain ⟨c, hc⟩ : ∃ c, job.cells[m.pc]? = some c :=
        ⟨_, Array.getElem?_eq_getElem hm.tidy.pc_lt⟩
      cases c with
      | op o =>
        have ho := hclosed.operands (Nat.zero_le _) hm.tidy.pc_lt hc
        have hm' := hm.goto (Nat.lt_of_le_of_lt (Nat.le_add_right _ _) ho)
        obtain ⟨heq, hlast⟩ := agrees_operation hclosed h fuel o hm' ho
        rw [cell_of_op hr hi hc, cell_of_op hr hi hc, bind_apply, bind_apply, heq]
        cases hrun : operation job enter' fuel o { m with pc := m.pc + 1 } with
        | ok _ m' =>
          rw [hrun] at hlast
          exact ⟨rfl, hlast⟩
        | error e m' =>
          rw [hrun] at hlast
          exact ⟨rfl, hlast⟩
      | address a =>
        rw [cell_of_address hr hi hc, cell_of_address hr hi hc]
        exact ⟨rfl, hm.goto (hclosed.address (Nat.zero_le _) hm.tidy.pc_lt hc).2⟩
      | stop =>
        rw [cell_of_stop hr hi hc, cell_of_stop hr hi hc]
        exact ⟨rfl, hm⟩
      | _ =>
        rw [cell_apply, cell_apply, hr, hi, hc]
        exact ⟨rfl, hm⟩

/-- Cells agree one after the other, as long as there are rounds. -/
theorem agrees_dispatch (breach : Halt) (fuel rounds : Nat) :
    Agrees n job (watchedDispatch (Machine.isInOrder job) breach job enter fuel rounds)
      (dispatch job enter' fuel rounds) := by
  induction rounds with
  | zero => exact agrees_outOfFuel
  | succ rounds ih =>
    refine (agrees_cell hclosed h breach fuel).bind fun b => ?_
    split
    · exact ih
    · exact agrees_pure _

end

section

variable (hclosed : Closed n job.cells 0 job.cells.size) (breach : Halt) (fuel : Nat)

include hclosed

theorem agrees_exec (depth : Nat) :
    ∀ a, a < job.cells.size →
      Agrees n job (watchedExec (Machine.isInOrder job) breach job fuel depth a)
        (exec job fuel depth a) := by
  induction depth with
  | zero => exact fun _ _ => agrees_fail _ _
  | succ depth ih =>
    exact fun a ha => (agrees_jump ha).bind fun _ =>
      agrees_dispatch hclosed ih breach fuel fuel

/-- A run in closed code never reaches for what is not there: a run that is
watched for that is the run itself. It leaves the machine in order. -/
theorem agrees_execute {a : Nat} (ha : a < job.cells.size) {m : Machine}
    (hm : m.symbols.Serves n job.cells.size) :
    watchedExecute (Machine.isInOrder job) breach job fuel a m = execute job fuel a m ∧
      (final (execute job fuel a m)).InOrder n job := by
  have hstart : (m.start a).InOrder n job :=
    ⟨⟨Stack.within_empty, Stack.within_empty, ha⟩, hm⟩
  exact agrees_exec hclosed breach fuel job.limits.depth a ha (m.start a) hstart

end

/-- A run that starts outside the code fails before anything else happens. -/
theorem execute_of_size_le (fuel : Nat) {a : Nat} (ha : job.cells.size ≤ a)
    (m : Machine) :
    ∃ e, execute job fuel a m = .error e (m.start a) := by
  show ∃ e, exec job fuel job.limits.depth a (m.start a) = .error e (m.start a)
  have hcell : job.cells[a]? = none := Array.getElem?_eq_none ha
  cases job.limits.depth with
  | zero => exact ⟨_, rfl⟩
  | succ depth =>
    cases fuel with
    | zero => exact ⟨_, rfl⟩
    | succ fuel =>
      have hrun : cell job (exec job (fuel + 1) depth) (fuel + 1) (m.start a) =
          .error (.fault { kind := .internal, note := "pc out of range" })
            (m.start a) := by
        simp only [cell_apply, Machine.start, hcell]
        rfl
      have hjump : jump a (m.start a) = .ok () (m.start a) := rfl
      exact ⟨_, (bind_of_ok hjump).trans (bind_of_error hrun)⟩

end Exec

end StackCalc
