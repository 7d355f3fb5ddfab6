import StackCalc.Machine.Run
import StackCalc.Proofs.Action

/-!
# What runs are made of

Control operations run stretches of code. What they do besides is inner to the
machine (`Exec.IsInner`): they move about in the code and on the stacks, and
leave the symbols, the console and the signals alone. Only instructions change
those.

`Exec.Composed R x y` says that two actions are put together alike, from inner
actions and from parts that are related by `R`, one of each pair on either side.
All control operations are, if the ways to run stretches are related
(`Exec.composed_operation`), and so what is true of the parts, and of sequences,
is true of every run. For what a single run keeps, this is `Exec.keeps_exec`.
-/

namespace StackCalc

/-- What instructions work on besides the stacks: the symbols, the console and
the signals. -/
def Machine.surroundings (m : Machine) : SymbolTable × Console × Bool × Option Nat :=
  (m.symbols, m.console, m.interrupted, m.alarm)

theorem Machine.symbols_of_surroundings {m m' : Machine}
    (h : m'.surroundings = m.surroundings) :
    m'.symbols = m.symbols :=
  congrArg Prod.fst h

namespace Exec

open StackCalc.Action

variable {α : Type} {job : Job}

/-! ### Inner actions -/

/-- An action that changes nothing but the stacks and where the machine stands. -/
abbrev IsInner (x : Exec α) : Prop :=
  Action.Leaves Machine.surroundings x

theorem isInner_pure (a : α) : IsInner (pure a : Exec α) :=
  fun _ => rfl

theorem isInner_get : IsInner (get : Exec Machine) :=
  fun _ => rfl

theorem isInner_fail (kind : FaultKind) (note : String) :
    IsInner (fail kind note : Exec α) :=
  fun _ => rfl

theorem isInner_failAbout (kind : FaultKind) (id : Nat) :
    IsInner (failAbout kind id : Exec α) :=
  fun _ => rfl

theorem isInner_pop : IsInner pop := by
  refine Action.Leaves.bind (fun m => ?_) fun d => isInner_pure d.value
  unfold onStack
  cases Stack.pop m.stack <;> rfl

theorem isInner_onFrames (act : EStateM Fault (Stack Frame) α) :
    IsInner (onFrames act) := by
  intro m
  unfold onFrames
  cases act m.frames <;> rfl

theorem isInner_jump (a : Nat) : IsInner (jump a) :=
  fun _ => rfl

theorem isInner_operand (job : Job) : IsInner (operand job) := by
  refine isInner_get.bind fun m => ?_
  dsimp only
  split
  · exact (isInner_jump _).bind isInner_pure
  · exact isInner_fail _ _

theorem isInner_symbolOperand (job : Job) : IsInner (symbolOperand job) := by
  refine (isInner_operand job).bind fun c => ?_
  cases c <;> exact fun _ => rfl

theorem isInner_countOperand (job : Job) : IsInner (countOperand job) := by
  refine (isInner_operand job).bind fun c => ?_
  cases c <;> exact fun _ => rfl

theorem isInner_leaveLoop (job : Job) (a : Nat) :
    IsInner (slotAddress job a >>= fun b => jump b) := by
  unfold slotAddress
  split
  · exact isInner_jump _
  · exact isInner_fail _ _

/-- The jump that ends a branch, unless a return is under way. -/
def endBranch (job : Job) (a : Nat) : Exec Unit := do
  if (← get).returning then return else jump (← slotAddress job (a + 2))

theorem isInner_endBranch (job : Job) (a : Nat) : IsInner (endBranch job a) := by
  refine isInner_get.bind fun m => ?_
  split
  · exact isInner_pure _
  · exact isInner_leaveLoop job _

/-! ### Actions put together alike -/

/-- Two actions that are put together alike, from inner actions and parts that
are related by `R`. -/
inductive Composed (R : Exec Unit → Exec Unit → Prop) :
    {α : Type} → Exec α → Exec α → Prop
  | inner {α : Type} {x : Exec α} (h : IsInner x) : Composed R x x
  | part {x y : Exec Unit} (h : R x y) : Composed R x y
  | bind {α β : Type} {x y : Exec α} {f g : α → Exec β} (hx : Composed R x y)
    (hf : ∀ a, Composed R (f a) (g a)) : Composed R (x >>= f) (y >>= g)

/-- Looking at the state is inner. -/
theorem Composed.look {R : Exec Unit → Exec Unit → Prop} {f g : Machine → Exec α}
    (hf : ∀ m, Composed R (f m) (g m)) : Composed R (get >>= f) (get >>= g) :=
  .bind (.inner isInner_get) hf

section

variable {R : Exec Unit → Exec Unit → Prop} {enter enter' : Nat → Exec Unit}
  (h : ∀ a, R (enter a) (enter' a))

include h

theorem composed_condition (a : Nat) :
    Composed R (condition enter a) (condition enter' a) :=
  .bind (.part (h a)) fun _ => .inner (isInner_pop.bind fun x => isInner_pure (isTrue x))

/-- The rounds of a `while` loop are put together alike, as long as there are
any. -/
theorem composed_whileLoop (a fuel : Nat) :
    Composed R (whileLoop job enter a fuel) (whileLoop job enter' a fuel) := by
  induction fuel with
  | zero => exact .inner fun _ => rfl
  | succ fuel ih =>
    refine .bind (composed_condition h _) fun b => ?_
    split
    · refine .bind (.part (h a)) fun _ => .look fun m => ?_
      split
      · exact .inner (isInner_pure _)
      · exact ih
    · exact .inner (isInner_leaveLoop job _)

/-- So are the rounds of a `for` loop. -/
theorem composed_forLoop (a fuel : Nat) :
    Composed R (forLoop job enter a fuel) (forLoop job enter' a fuel) := by
  induction fuel with
  | zero => exact .inner fun _ => rfl
  | succ fuel ih =>
    refine .bind (composed_condition h _) fun b => ?_
    split
    · refine .bind (.part (h _)) fun _ => .look fun m => ?_
      split
      · exact .inner (isInner_pure _)
      · exact .bind (.part (h _)) fun _ => .bind (.inner isInner_pop) fun _ => ih
    · exact .inner (isInner_leaveLoop job _)

/-- A branch enters one of two stretches, and both end alike. -/
theorem composed_branch (a : Nat) :
    Composed R (branch job enter a) (branch job enter' a) := by
  have hend : IsInner (endBranch job a) := isInner_endBranch job a
  refine .bind (composed_condition h _) fun b => ?_
  split
  · exact .bind (.part (h _)) fun _ => .inner hend
  · split
    · exact .bind (.part (h _)) fun _ => .inner hend
    · exact .inner hend

/-- A call checks what it calls, pushes a frame, and enters the body as its one
part. -/
theorem composed_call : Composed R (call job enter) (call job enter') := by
  refine .bind (.inner (isInner_symbolOperand job)) fun id =>
    .bind (.inner (isInner_countOperand job)) fun n => .look fun m => ?_
  split
  · exact .inner (isInner_failAbout _ _)
  · refine .bind (.inner fun _ => rfl) fun s => ?_
    split
    · exact .inner (isInner_failAbout _ _)
    · refine .look fun m => ?_
      dsimp only
      split
      · exact .inner (isInner_fail _ _)
      · exact .bind (.inner (isInner_onFrames _)) fun _ => .bind (.part (h _)) fun _ =>
          .inner fun _ => rfl

theorem composed_control (fuel : Nat) :
    ∀ c, Composed R (control job enter fuel c) (control job enter' fuel c)
  | .whileLoop => .look fun _ => composed_whileLoop h _ _
  | .forLoop =>
    .look fun _ => .bind (.part (h _)) fun _ => .bind (.inner isInner_pop) fun _ =>
      composed_forLoop h _ _
  | .branch => .look fun _ => composed_branch h _
  | .call => composed_call h

variable (hi : ∀ i : Instruction, R (i.run job) (i.run job))

include hi

/-- An operation is an instruction, which is a part itself, or a control
operation. -/
theorem composed_operation (fuel : Nat) :
    ∀ o, Composed R (operation job enter fuel o) (operation job enter' fuel o)
  | .plain i => .part (hi i)
  | .control c => composed_control h fuel c

/-- So is the cell at hand, whatever it is. -/
theorem composed_cell (fuel : Nat) :
    Composed R (cell job enter fuel) (cell job enter' fuel) := by
  refine .look fun m => ?_
  split
  · exact .inner (isInner_pure _)
  · split
    · exact .inner (isInner_fail _ _)
    · split
      case h_3 o _ =>
        exact .bind (.inner (isInner_jump _)) fun _ =>
          .bind (composed_operation h hi fuel o) fun _ =>
          .inner (isInner_pure _)
      all_goals exact .inner fun _ => rfl

end

/-! ### What runs keep -/

section

variable {S : Machine → Machine → Prop} (hS : Steady S)
  (hinner : ∀ {m m' : Machine}, m'.surroundings = m.surroundings → S m m')

include hS hinner

/-- What inner actions and the parts keep, an action put together from them
keeps. -/
theorem Composed.keeps {x y : Exec α} (h : Composed (fun x _ => Keeps S x) x y) :
    Keeps S x := by
  induction h with
  | inner h => exact fun m => hinner (h m)
  | part h => exact h
  | bind _ _ hx hf => exact hx.bind hS hf

theorem keeps_control {enter : Nat → Exec Unit} (h : ∀ a, Keeps S (enter a)) (fuel : Nat)
    (c : Control) :
    Keeps S (control job enter fuel c) := by
  have hcomposed : Composed (fun x _ => Keeps S x) (control job enter fuel c)
      (control job enter fuel c) :=
    composed_control h fuel c
  exact hcomposed.keeps hS hinner

variable (hi : ∀ i : Instruction, Keeps S (i.run job))

include hi

theorem keeps_cell {enter : Nat → Exec Unit} (h : ∀ a, Keeps S (enter a)) (fuel : Nat) :
    Keeps S (cell job enter fuel) := by
  have hcomposed : Composed (fun x _ => Keeps S x) (cell job enter fuel)
      (cell job enter fuel) :=
    composed_cell h hi fuel
  exact hcomposed.keeps hS hinner

/-- Cells one after the other keep it, as long as there are rounds. -/
theorem keeps_dispatch {enter : Nat → Exec Unit} (h : ∀ a, Keeps S (enter a))
    (fuel rounds : Nat) :
    Keeps S (dispatch job enter fuel rounds) := by
  induction rounds with
  | zero => exact hS.refl
  | succ rounds ih =>
    refine (keeps_cell hS hinner hi h fuel).bind hS fun b => ?_
    split
    · exact ih
    · exact hS.refl

/-- What inner actions and all instructions keep, every run keeps. -/
theorem keeps_exec (fuel depth a : Nat) : Keeps S (exec job fuel depth a) := by
  induction depth generalizing a with
  | zero => exact hS.refl
  | succ depth ih =>
    exact Keeps.bind hS (fun m => hinner (isInner_jump a m)) fun _ =>
      keeps_dispatch hS hinner hi ih fuel fuel

end

end Exec

end StackCalc
