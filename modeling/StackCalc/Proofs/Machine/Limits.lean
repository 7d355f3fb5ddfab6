import StackCalc.Proofs.Action
import StackCalc.Proofs.Simulation.Tracking
import StackCalc.Session

/-!
# Runs under limits

A run asks for room on the operand stack, for calls and for levels of nesting.
Here code is run without limits, and each of these demands is recorded together
with the state in which it is made (`Course`). A run under limits is the same
run, cut at the first demand that exceeds one (`Course.under`,
`Exec.execute_under_limits`).

Cutting commutes with sequences (`Unlimited.under_bind`), so each operation is
compared with its unlimited counterpart on its own. A run without limits may go
ever deeper; it is given a number of levels, as its loops are given rounds, and
has used up its fuel when it needs more.
-/

namespace StackCalc

/-! ### Demands -/

/-- What a run asks for. -/
inductive Demand where
  /-- Room for an item: the size of the operand stack with it. -/
  | item (size : Nat)
  /-- The call of a symbol: how many calls will not have returned. -/
  | call (id count : Nat)
  /-- A stretch of code: how many stretches will be under way, one inside the
  other. -/
  | level (nesting : Nat)
deriving DecidableEq

namespace Demand

/-- Whether a demand exceeds its limit. -/
def exceeds (l : Limits) : Demand → Bool
  | item size => l.stack < size
  | call _ count => l.frames < count
  | level nesting => l.depth < nesting

/-- The fault of a demand that exceeds its limit. -/
def fault (m : Machine) : Demand → Fault
  | item _ => { kind := .stackOverflow }
  | call id _ => { kind := .callNestedTooDeeply, note := (m.symbols.get id).label }
  | level _ => { kind := .nestedTooDeeply }

theorem isLimit_fault (m : Machine) (d : Demand) : (d.fault m).IsLimit := by
  cases d <;> simp [fault, Fault.IsLimit]

end Demand

/-- The limits that runs are given grow, or stay. -/
structure Limits.Within (l l' : Limits) : Prop where
  stack : l.stack ≤ l'.stack
  frames : l.frames ≤ l'.frames
  depth : l.depth ≤ l'.depth

theorem Demand.exceeds_of_within {l l' : Limits} (h : l.Within l') {d : Demand}
    (hd : d.exceeds l') : d.exceeds l := by
  cases d with
  | item size => exact decide_eq_true (Nat.lt_of_le_of_lt h.stack (of_decide_eq_true hd))
  | call id count =>
    exact decide_eq_true (Nat.lt_of_le_of_lt h.frames (of_decide_eq_true hd))
  | level nesting =>
    exact decide_eq_true (Nat.lt_of_le_of_lt h.depth (of_decide_eq_true hd))

/-! ### Runs without limits -/

/-- The demands of a run, in order, with the states in which they are made, and
how the run ends if all of them are met. -/
structure Course (α : Type) where
  demands : List (Demand × Machine)
  result : EStateM.Result Halt Machine α

/-- The first demand that exceeds a limit. -/
def Course.excess? {α : Type} (c : Course α) (l : Limits) : Option (Demand × Machine) :=
  c.demands.find? fun d => d.1.exceeds l

/-- How the run ends under limits. -/
def Course.under {α : Type} (c : Course α) (l : Limits) : EStateM.Result Halt Machine α :=
  match c.excess? l with
  | some (d, m) => .error (.fault (d.fault m)) m
  | none => c.result

/-- An action of a machine without limits. -/
def Unlimited (α : Type) := Machine → Course α

namespace Unlimited

variable {α β : Type}

instance : Monad Unlimited where
  pure a := fun m => ⟨[], .ok a m⟩
  bind x f := fun m =>
    match (x m).result with
    | .ok a m' => ⟨(x m).demands ++ (f a m').demands, (f a m').result⟩
    | .error h m' => ⟨(x m).demands, .error h m'⟩

/-- An action that demands nothing. -/
instance : MonadLift Exec Unlimited where
  monadLift x := fun m => ⟨[], x m⟩

/-- Makes a demand. -/
def ask (d : Machine → Demand) : Unlimited Unit :=
  fun m => ⟨[(d m, m)], .ok () m⟩

section

variable (cells : Array Cell)

/-- The code of a run; the limits beside it are not consulted. -/
abbrev code : Job :=
  ⟨cells, {}⟩

/-- An instruction pushes at most one item, and does so last. With no room at
all it does everything else and fails in the state in which it would push; with
room for one more item than there are in that state it succeeds. -/
def instruction (i : Instruction) : Unlimited Unit :=
  fun m =>
    match i.run ⟨cells, { stack := 0 }⟩ m with
    | .ok u m' => ⟨[], .ok u m'⟩
    | .error h m' =>
      match i.run ⟨cells, { stack := m'.stack.size + 1 }⟩ m with
      | .ok u m'' => ⟨[(.item m''.stack.size, m')], .ok u m''⟩
      | .error _ _ => ⟨[], .error h m'⟩

/-- Runs the code of a condition and takes its value. -/
def condition (enter : Nat → Unlimited Unit) (a : Nat) : Unlimited Bool := do
  enter a
  return isTrue (← Exec.pop)

/-- Runs a `while` loop whose slots start at `a`. -/
def whileLoop (enter : Nat → Unlimited Unit) (a : Nat) : (fuel : Nat) → Unlimited Unit
  | 0 => (throw .outOfFuel : Exec Unit)
  | fuel + 1 => do
    if ← condition enter (a + 2) then
      enter a
      if (← get).returning then return else whileLoop enter a fuel
    else Exec.jump (← Exec.slotAddress (code cells) (a + 1))

/-- Runs a `for` loop whose slots start at `a`, its first clause done. -/
def forLoop (enter : Nat → Unlimited Unit) (a : Nat) : (fuel : Nat) → Unlimited Unit
  | 0 => (throw .outOfFuel : Exec Unit)
  | fuel + 1 => do
    if ← condition enter a then
      enter (a + 2)
      if (← get).returning then return
      else
        enter (a + 1)
        let _ ← Exec.pop
        forLoop enter a fuel
    else Exec.jump (← Exec.slotAddress (code cells) (a + 3))

/-- Runs the branch that a condition chooses; the slots start at `a`. -/
def branch (enter : Nat → Unlimited Unit) (a : Nat) : Unlimited Unit := do
  if ← condition enter (a + 3) then enter a
  else if Exec.isLinked (code cells) (a + 1) then enter (a + 1)
  if (← get).returning then return
    else Exec.jump (← Exec.slotAddress (code cells) (a + 2))

/-- Makes the call whose operands follow. The demand is made before the callee
is looked up. -/
def call (enter : Nat → Unlimited Unit) : Unlimited Unit := do
  let id ← Exec.symbolOperand (code cells)
  let n ← Exec.countOperand (code cells)
  ask fun m => .call id (m.frames.size + 1)
  match (← Exec.symbol id).code with
  | none => (Exec.failAbout .undefinedFunction id : Exec Unit)
  | some body =>
    let m ← get
    let height := m.stack.size
    if height < n then (Exec.fail .stackUnderflow : Exec Unit)
    else
      let f : Frame := ⟨id, n, m.pc, height⟩
      modify fun m => { m with frames := ⟨m.frames.items.push f⟩ }
      enter body
      modify fun m => { m with returning := false }

/-- Runs an operation. -/
def operation (enter : Nat → Unlimited Unit) (fuel : Nat) : Opcode → Unlimited Unit
  | .plain i => instruction cells i
  | .control .whileLoop => do
    whileLoop cells enter (← get).pc fuel
  | .control .forLoop => do
    let a := (← get).pc
    enter (a + 4)
    let _ ← Exec.pop
    forLoop cells enter a fuel
  | .control .branch => do
    branch cells enter (← get).pc
  | .control .call => call cells enter

/-- Runs the cell at hand, unless it is a stop or a return is under way, and
tells whether there was something to run. -/
def cell (enter : Nat → Unlimited Unit) (fuel : Nat) : Unlimited Bool := do
  let m ← get
  if m.returning then return false
  else if m.interrupted then (Exec.fail .interrupted : Exec Bool)
  else
    match cells[m.pc]? with
    | some .stop => return false
    | some (.address a) =>
      Exec.jump a
      return true
    | some (.op o) =>
      Exec.jump (m.pc + 1)
      operation cells enter fuel o
      return true
    | some _ => (Exec.internal "operand executed" : Exec Bool)
    | none => (Exec.internal "pc out of range" : Exec Bool)

/-- Runs cells up to a stop or a return, or an interrupt; at most `rounds` of
them. -/
def dispatch (enter : Nat → Unlimited Unit) (fuel : Nat) : (rounds : Nat) → Unlimited Unit
  | 0 => (throw .outOfFuel : Exec Unit)
  | rounds + 1 => do
    if ← cell cells enter fuel then dispatch enter fuel rounds

/-- Runs the stretch at an address inside `nesting` others, with at most
`levels` levels more. -/
def exec (fuel : Nat) : (levels nesting a : Nat) → Unlimited Unit
  | 0, nesting, _ => do
    ask fun _ => .level (nesting + 1)
    (throw .outOfFuel : Exec Unit)
  | levels + 1, nesting, a => do
    ask fun _ => .level (nesting + 1)
    Exec.jump a
    dispatch cells (exec fuel levels (nesting + 1)) fuel fuel

/-- Runs the code at an address from the start. -/
def execute (fuel levels a : Nat) : Unlimited Unit := do
  modify fun m => m.start a
  exec cells fuel levels 0 a

end

/-! ### Cutting a run -/

/-- An action under limits. -/
def under (l : Limits) (x : Unlimited α) : Exec α :=
  fun m => (x m).under l

section

variable {l : Limits}

theorem under_pure (a : α) : under l (pure a) = pure a :=
  rfl

theorem under_lift (x : Exec α) : under l (liftM x) = x :=
  rfl

theorem under_get : under l get = get :=
  rfl

theorem under_modify (f : Machine → Machine) : under l (modify f) = modify f :=
  rfl

/-- A sequence is cut where its first part is cut, or else where the rest is. -/
theorem under_bind (x : Unlimited α) (f : α → Unlimited β) :
    under l (x >>= f) = under l x >>= fun a => under l (f a) := by
  funext m
  have hbind : (x >>= f) m =
      match (x m).result with
      | .ok a m' => ⟨(x m).demands ++ (f a m').demands, (f a m').result⟩
      | .error h m' => ⟨(x m).demands, .error h m'⟩ := rfl
  rw [Action.bind_apply]
  simp only [under, Course.under, Course.excess?, hbind]
  cases hresult : (x m).result with
  | error h m' =>
    cases (x m).demands.find? fun d => d.1.exceeds l <;> rfl
  | ok a m' =>
    dsimp only
    rw [List.find?_append]
    cases (x m).demands.find? fun d => d.1.exceeds l <;> rfl

theorem under_ask (d : Machine → Demand) (m : Machine) :
    under l (ask d) m =
      if (d m).exceeds l then .error (.fault ((d m).fault m)) m else .ok () m := by
  simp only [under, Course.under, Course.excess?, ask, List.find?_cons, List.find?_nil]
  cases (d m).exceeds l <;> rfl

theorem under_ite (c : Prop) [Decidable c] (x y : Unlimited α) :
    under l (if c then x else y) = if c then under l x else under l y :=
  apply_ite (under l) c x y

end

end Unlimited

/-! ### Instructions -/

namespace Exec

/-- An action that, from any state, ends in the same way under all limits, or
else pushes an item in a state that is the same for all of them. -/
def PushesLast (x : Limits → Exec Unit) : Prop :=
  ∀ m, (∃ r, ∀ l, x l m = r) ∨
    ∃ m' d, ∀ l, x l m = onStack (Stack.push l.stack .stackOverflow d) m'

namespace PushesLast

variable {cells : Array Cell} {α : Type}

/-- An action that does not depend on the limits. -/
theorem of_same {x : Limits → Exec Unit} (hx : ∀ l, x l = x {}) : PushesLast x :=
  fun m => .inl ⟨x {} m, fun l => congrFun (hx l) m⟩

theorem pushDatum (d : Datum) : PushesLast fun l => Exec.pushDatum ⟨cells, l⟩ d :=
  fun m => .inr ⟨m, d, fun _ => rfl⟩

theorem push (x : Float) : PushesLast fun l => Exec.push ⟨cells, l⟩ x :=
  pushDatum _

/-- What comes before the push does not depend on the limits. -/
theorem bind {x : Limits → Exec α} (hx : ∀ l, x l = x {}) {f : α → Limits → Exec Unit}
    (hf : ∀ a, PushesLast (f a)) : PushesLast fun l => x l >>= fun a => f a l := by
  intro m
  have hsame : ∀ l, x l m = x {} m := fun l => congrFun (hx l) m
  cases hrun : x {} m with
  | error h m' =>
    exact .inl ⟨.error h m', fun l => Action.bind_of_error ((hsame l).trans hrun)⟩
  | ok a m' =>
    have hrest : ∀ l, (x l >>= fun a => f a l) m = f a l m' :=
      fun l => Action.bind_of_ok ((hsame l).trans hrun)
    rcases hf a m' with ⟨r, hr⟩ | ⟨m'', d, hd⟩
    · exact .inl ⟨r, fun l => (hrest l).trans (hr l)⟩
    · exact .inr ⟨m'', d, fun l => (hrest l).trans (hd l)⟩

end PushesLast

section

variable (cells : Array Cell)

theorem pushesLast_eval : PushesLast fun l => eval ⟨cells, l⟩ := by
  refine .bind (fun _ => rfl) fun d => ?_
  cases d.symbol with
  | none => exact .of_same fun _ => rfl
  | some id => exact .bind (fun _ => rfl) fun _ => .bind (fun _ => rfl) fun s => .push _

/-- The assignment is made before the value is pushed; it does not depend on the
limits. -/
theorem pushesLast_assignTop (op : AssignOp) :
    PushesLast fun l => assignTop ⟨cells, l⟩ op := by
  refine .bind (fun _ => rfl) fun target => .bind (fun _ => rfl) fun x => ?_
  cases target.symbol with
  | none => exact .of_same fun _ => rfl
  | some id =>
    exact .bind (fun _ => rfl) fun _ => .bind (fun _ => rfl) fun _ =>
      .bind (fun _ => rfl) fun _ =>
      .bind (fun _ => rfl) fun _ => .push _

/-- A line is read before its value is pushed. -/
theorem pushesLast_read : PushesLast fun l => read ⟨cells, l⟩ := by
  refine .bind (fun _ => rfl) fun id => .bind (fun _ => rfl) fun _ =>
    .bind (fun _ => rfl) fun line => ?_
  cases line with
  | none => exact .bind (fun _ => rfl) fun _ => .push _
  | some text =>
    dsimp only
    cases readTyped? text with
    | none => exact .of_same fun _ => rfl
    | some x => exact .bind (fun _ => rfl) fun _ => .push _

theorem pushesLast_builtin : PushesLast fun l => builtin ⟨cells, l⟩ := by
  refine .bind (fun _ => rfl) fun id => .bind (fun _ => rfl) fun s => ?_
  cases s.native with
  | none => exact .of_same fun _ => rfl
  | some f => exact .bind (fun _ => rfl) fun _ => .bind (fun _ => rfl) fun _ => .push _

theorem pushesLast_returnValue : PushesLast fun l => returnValue ⟨cells, l⟩ := by
  refine .bind (fun _ => rfl) fun f => .bind (fun _ => rfl) fun s => ?_
  by_cases hkind : s.kind = .procedure
  · simp only [if_pos hkind]
    exact .of_same fun _ => rfl
  · simp only [if_neg hkind]
    exact .bind (fun _ => rfl) fun _ => .bind (fun _ => rfl) fun _ => .push _

theorem pushesLast_arg : PushesLast fun l => arg ⟨cells, l⟩ := by
  refine .bind (fun _ => rfl) fun i => .bind (fun _ => rfl) fun m => ?_
  cases m.stack.get? i with
  | none => exact .of_same fun _ => rfl
  | some d => exact .push _

/-- The argument is changed before the value is pushed. -/
theorem pushesLast_argAssign : PushesLast fun l => argAssign ⟨cells, l⟩ := by
  refine .bind (fun _ => rfl) fun i => .bind (fun _ => rfl) fun x =>
    .bind (fun _ => rfl) fun m => ?_
  dsimp only
  cases m.stack.get? i with
  | none => exact .of_same fun _ => rfl
  | some d =>
    dsimp only
    cases m.stack.set? i { d with value := x } with
    | none => exact .of_same fun _ => rfl
    | some s => exact .bind (fun _ => rfl) fun _ => .push _

/-- Every instruction pushes last, if it pushes at all. -/
theorem pushesLast_instruction (i : Instruction) :
    PushesLast fun l => i.run ⟨cells, l⟩ := by
  cases i with
  | constPush =>
    refine .bind (fun _ => rfl) fun c => ?_
    cases c
    case number x => exact .push x
    all_goals exact .of_same fun _ => rfl
  | varPush => exact .bind (fun _ => rfl) fun id => .pushDatum _
  | eval => exact pushesLast_eval cells
  | binary op => exact .bind (fun _ => rfl) fun _ => .bind (fun _ => rfl) fun _ => .push _
  | negate => exact .bind (fun _ => rfl) fun x => .push _
  | not => exact .bind (fun _ => rfl) fun x => .push _
  | assign op => exact pushesLast_assignTop cells op
  | step how =>
    exact .bind (fun _ => rfl) fun _ => .bind (fun _ => rfl) fun _ =>
      .bind (fun _ => rfl) fun _ =>
      .bind (fun _ => rfl) fun _ => .push _
  | builtin => exact pushesLast_builtin cells
  | read => exact pushesLast_read cells
  | returnValue => exact pushesLast_returnValue cells
  | arg => exact pushesLast_arg cells
  | argAssign => exact pushesLast_argAssign cells
  | pop | printValue | printText | printTop | returnNothing => exact .of_same fun _ => rfl

end

section

variable {limit : Nat} {m : Machine}

/-- With room for it the item is pushed. -/
theorem push_of_lt (d : Datum) (h : m.stack.size < limit) :
    onStack (Stack.push limit .stackOverflow d) m =
      .ok () { m with stack := ⟨m.stack.items.push d⟩ } := by
  have hfull : m.stack.isFull limit = false := decide_eq_false (Nat.not_le.mpr h)
  simp [onStack, Stack.push, hfull]

/-- Without room for it nothing is. -/
theorem push_of_le (d : Datum) (h : limit ≤ m.stack.size) :
    onStack (Stack.push limit .stackOverflow d) m =
      .error (.fault { kind := .stackOverflow }) m := by
  have hfull : m.stack.isFull limit = true := decide_eq_true h
  simp [onStack, Stack.push, hfull]

end

end Exec

namespace Unlimited

variable {cells : Array Cell} {l : Limits}

/-- An instruction without limits, cut, is the instruction: it is run twice to
find the push, and the demand is for that push. -/
theorem under_instruction (i : Instruction) :
    under l (instruction cells i) = i.run ⟨cells, l⟩ := by
  funext m
  have hlast : (∃ r, ∀ l, i.run ⟨cells, l⟩ m = r) ∨ ∃ m' d, ∀ l, i.run ⟨cells, l⟩ m =
      Exec.onStack (Stack.push l.stack .stackOverflow d) m' :=
      Exec.pushesLast_instruction cells i m
  rcases hlast with ⟨r, hr⟩ | ⟨m', d, hd⟩
  -- nothing is pushed, so the two runs that look for the push are the run
  -- itself
  · have hsame : instruction cells i m = ⟨[], r⟩ := by
      simp only [instruction, hr]
      cases r <;> rfl
    show (instruction cells i m).under l = _
    rw [hr, hsame]
    rfl
  -- an item is pushed: there is no room with a limit of zero, and room with one
  -- more
  · let pushed : Machine := { m' with stack := ⟨m'.stack.items.push d⟩ }
    have hsize : pushed.stack.size = m'.stack.size + 1 := Array.size_push d
    have hcourse : instruction cells i m =
        ⟨[(.item (m'.stack.size + 1), m')], .ok () pushed⟩ := by
      simp only [instruction, hd]
      rw [Exec.push_of_le d (Nat.zero_le _)]
      dsimp only
      rw [Exec.push_of_lt d (Nat.lt_succ_self _), ← hsize]
    show (instruction cells i m).under l = _
    rw [hd, hcourse]
    by_cases hroom : m'.stack.size < l.stack
    · have hfits : (Demand.item (m'.stack.size + 1)).exceeds l = false :=
        decide_eq_false (Nat.not_lt.mpr hroom)
      rw [Exec.push_of_lt d hroom]
      simp [Course.under, Course.excess?, hfits, pushed]
    · have hexceeds : (Demand.item (m'.stack.size + 1)).exceeds l = true :=
        decide_eq_true (Nat.lt_succ_of_le (Nat.not_lt.mp hroom))
      rw [Exec.push_of_le d (Nat.not_lt.mp hroom)]
      simp [Course.under, Course.excess?, hexceeds, Demand.fault]

/-! ### Control operations and stretches -/

section

variable {enter : Nat → Unlimited Unit} {enter' : Nat → Exec Unit}
  (h : ∀ a, under l (enter a) = enter' a)

include h

theorem under_condition (a : Nat) :
    under l (condition enter a) = Exec.condition enter' a := by
  simp only [condition, under_bind, under_lift, under_pure, h]
  rfl

/-- The loops are cut in the round in which a stretch is. -/
theorem under_whileLoop (a fuel : Nat) :
    under l (whileLoop cells enter a fuel) = Exec.whileLoop ⟨cells, l⟩ enter' a fuel := by
  induction fuel with
  | zero => rfl
  | succ fuel ih =>
    simp only [whileLoop, under_bind, under_condition h, under_ite, under_get, under_lift,
      under_pure, h, ih]
    rfl

theorem under_forLoop (a fuel : Nat) :
    under l (forLoop cells enter a fuel) = Exec.forLoop ⟨cells, l⟩ enter' a fuel := by
  induction fuel with
  | zero => rfl
  | succ fuel ih =>
    simp only [forLoop, under_bind, under_condition h, under_ite, under_get, under_lift,
      under_pure, h, ih]
    rfl

theorem under_branch (a : Nat) :
    under l (branch cells enter a) = Exec.branch ⟨cells, l⟩ enter' a := by
  simp only [branch, under_bind, under_condition h, under_ite, under_get, under_lift,
    under_pure, h]
  rfl

/-- A call asks for its frame before it looks the callee up, as it checks the
limit before it does. -/
theorem under_call : under l (call cells enter) = Exec.call ⟨cells, l⟩ enter' := by
  simp only [call, under_bind, under_lift, Exec.call]
  refine congrArg _ (funext fun id => congrArg _ (funext fun n => funext fun m => ?_))
  rw [Action.bind_apply (get : Exec Machine), Action.get_apply]
  dsimp only
  by_cases hroom : m.frames.size < l.frames
  · -- the call is made; the frame that is pushed has room as well
    have hfits : (Demand.call id (m.frames.size + 1)).exceeds l = false :=
      decide_eq_false (Nat.not_lt.mpr hroom)
    have hfull : m.frames.isFull l.frames = false :=
      decide_eq_false (Nat.not_le.mpr hroom)
    have hask : under l (ask fun m => .call id (m.frames.size + 1)) m = .ok () m := by
      rw [under_ask, hfits]
      rfl
    have hsymbol : Exec.symbol id m = .ok (m.symbols.get id) m := rfl
    rw [Action.bind_of_ok hask, if_neg (by rw [hfull]; exact Bool.false_ne_true),
      Action.bind_of_ok hsymbol, Action.bind_of_ok hsymbol]
    cases hcode : (m.symbols.get id).code with
    | none => rfl
    | some body =>
      simp only [under_bind, under_get, under_ite, under_lift, under_modify, h]
      rw [Action.bind_of_ok (Action.get_apply m), Action.bind_of_ok (Action.get_apply m)]
      by_cases hheight : m.stack.size < n
      · rw [if_pos hheight, if_pos hheight]
      · rw [if_neg hheight, if_neg hheight]
        have hpush : ∀ f, Exec.onFrames (Stack.push l.frames .callNestedTooDeeply f) m =
            .ok () { m with frames := ⟨m.frames.items.push f⟩ } := by
          intro f
          simp [Exec.onFrames, Stack.push, hfull]
        rw [Action.bind_of_ok (hpush _)]
        rfl
  -- the call is refused by the demand here and by the full stack of frames
  -- there
  · have hexceeds : (Demand.call id (m.frames.size + 1)).exceeds l = true :=
      decide_eq_true (Nat.lt_succ_of_le (Nat.not_lt.mp hroom))
    have hfull : m.frames.isFull l.frames = true := decide_eq_true (Nat.not_lt.mp hroom)
    have hask : under l (ask fun m => .call id (m.frames.size + 1)) m =
        .error (.fault ((Demand.call id (m.frames.size + 1)).fault m)) m := by
      rw [under_ask, hexceeds]
      rfl
    rw [Action.bind_of_error hask, hfull]
    rfl

/-- An operation is cut where the operation under limits fails. -/
theorem under_operation (fuel : Nat) (o : Opcode) :
    under l (operation cells enter fuel o) = Exec.operation ⟨cells, l⟩ enter' fuel o := by
  rcases o with i | c
  · exact under_instruction i
  · cases c with
    | call => exact under_call h
    | whileLoop =>
      simp only [operation, under_bind, under_get, under_whileLoop h]
      rfl
    | forLoop =>
      simp only [operation, under_bind, under_get, under_lift, h, under_forLoop h]
      rfl
    | branch =>
      simp only [operation, under_bind, under_get, under_branch h]
      rfl

/-- So is the cell at hand. -/
theorem under_cell (fuel : Nat) :
    under l (cell cells enter fuel) = Exec.cell ⟨cells, l⟩ enter' fuel := by
  simp only [cell, under_bind, under_get, under_ite, under_lift, under_pure, Exec.cell]
  refine congrArg _ (funext fun m => ?_)
  cases hcell : cells[m.pc]? with
  | none => rfl
  | some c =>
    cases c
    case op o =>
      simp only [under_bind, under_lift, under_pure, under_operation h]
    all_goals rfl

theorem under_dispatch (fuel rounds : Nat) :
    under l (dispatch cells enter fuel rounds) =
      Exec.dispatch ⟨cells, l⟩ enter' fuel rounds := by
  induction rounds with
  | zero => rfl
  | succ rounds ih =>
    simp only [dispatch, under_bind, under_cell h, under_ite, under_pure, ih]
    rfl

end

/-- The demand for one level too many. -/
theorem under_level_of_le {nesting : Nat} (h : l.depth ≤ nesting) (x : Unlimited Unit) :
    under l (ask (fun _ => .level (nesting + 1)) >>= fun _ => x) =
      Exec.fail .nestedTooDeeply := by
  have hexceeds : (Demand.level (nesting + 1)).exceeds l = true :=
    decide_eq_true (Nat.lt_succ_of_le h)
  funext m
  rw [under_bind, Action.bind_apply, under_ask, hexceeds]
  rfl

/-- A stretch inside `nesting` others has as many levels left as the limit
leaves. -/
theorem under_exec {fuel levels nesting : Nat}
    (h : l.depth ≤ nesting + levels) (a : Nat) :
    under l (exec cells fuel levels nesting a) =
      Exec.exec ⟨cells, l⟩ fuel (l.depth - nesting) a := by
  -- the levels left under the limit go down as the nesting goes up
  induction levels generalizing nesting a with
  | zero =>
    have hdeep : l.depth ≤ nesting := h
    rw [exec, under_level_of_le hdeep, Nat.sub_eq_zero_of_le hdeep]
    rfl
  | succ levels ih =>
    by_cases hdeep : l.depth ≤ nesting
    · rw [exec, under_level_of_le hdeep, Nat.sub_eq_zero_of_le hdeep]
      rfl
    · have hfits : (Demand.level (nesting + 1)).exceeds l = false :=
        decide_eq_false (by omega)
      have hleft : l.depth - nesting = (l.depth - (nesting + 1)) + 1 := by omega
      funext m
      rw [hleft, exec, under_bind, Action.bind_apply, under_ask, hfits]
      simp only [under_bind, under_lift,
        under_dispatch (ih (show l.depth ≤ nesting + 1 + levels by omega))]
      rfl

theorem under_execute {fuel levels : Nat} (h : l.depth ≤ levels) (a : Nat) :
    under l (execute cells fuel levels a) = Exec.execute ⟨cells, l⟩ fuel a := by
  simp only [execute, under_bind, under_modify,
    under_exec (show l.depth ≤ 0 + levels by omega)]
  rfl

end Unlimited

/-! ### The result -/

namespace Course

variable {α : Type} {c : Course α} {l : Limits}

/-- With no excess a run is what it is without limits. -/
theorem under_of_none (h : c.excess? l = none) : c.under l = c.result := by
  rw [under, h]

/-- With an excess it ends where the first one is. -/
theorem under_of_some {d : Demand} {m : Machine} (h : c.excess? l = some (d, m)) :
    c.under l = .error (.fault (d.fault m)) m := by
  rw [under, h]

/-- Larger limits leave no excess where smaller ones do not. -/
theorem excess?_of_within {l' : Limits} (hl : l.Within l') (h : c.excess? l = none) :
    c.excess? l' = none := by
  rw [excess?, List.find?_eq_none] at h ⊢
  intro d hd hexceeds
  exact h d hd (Demand.exceeds_of_within hl hexceeds)

end Course

namespace Exec

/-- A text with a recursion that does not end of its own. -/
def endless : String :=
  "proc down() \x7b x += 1; print x; down() \x7d x = 0; down()"

end Exec

end StackCalc
