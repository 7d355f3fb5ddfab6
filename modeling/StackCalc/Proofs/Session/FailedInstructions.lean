import StackCalc.Proofs.Machine.FailedInstructions
import StackCalc.Proofs.Machine.Watching
import StackCalc.Proofs.Session.Reachable

/-!
# What an instruction that fails leaves in a session

`Session.ComesTo` are the states of the machine that the runs of a session come
to, from any address. Their stacks are within the limits, so what is known of
failed instructions (`Exec.abandons_instruction`) holds in all of them.
-/

namespace StackCalc

namespace Session

open StackCalc.Action

/-- A run of the session's code comes to a cell in the state `m`. -/
def ComesTo (s : Session) (m : Machine) : Prop :=
  ∃ ok fuel a, Exec.reached? ok s.job fuel a s.machine = some m

/-- Stacks stay within their limits along every run. -/
theorem ComesTo.stack_le {s : Session} {m : Machine} (h : s.ComesTo m) (hs : s.Intact) :
    m.stack.size ≤ s.limits.stack := by
  obtain ⟨ok, fuel, a, hreached⟩ := h
  have hfinal : m = final (Exec.watchedExecute ok .outOfFuel s.job fuel a s.machine) := by
    rw [Exec.reached?_eq_some_iff.mp hreached]
    rfl
  rw [hfinal]
  by_cases ha : a < s.job.cells.size
  · exact (Exec.inOrder_watchedExecute hs.closed fuel ha hs.serves).settled.stack_le
  · rw [Exec.stack_watchedExecute_of_size_le fuel (Nat.le_of_not_lt ha)]
    exact Nat.zero_le _

/-- What an instruction that fails leaves behind.

Whatever the session, in all states that its runs come to the stack is within
its limit. In every such state, an instruction that fails has written nothing, a
prompt for a line apart, and has left the symbols alone, with one exception: on
a full stack, a step or a read has assigned to its variable before it finds that
there is no room for its value. Then no other symbol and no name has changed,
and after a read, or a step whose value is the new one, the variable has it. -/
theorem failed_instruction_leaves {rs : List Region} {s : Session} (h : Reachable rs s) :
    (∀ m, s.ComesTo m → m.stack.size ≤ s.limits.stack) ∧
    ∀ (m : Machine) (i : Instruction) (e : Halt) (m' : Machine),
      m.stack.size ≤ s.limits.stack →
      i.run s.job m = .error e m' →
      (m'.console.writes = m.console.writes ∨ i = .read ∧ m.console.Prompted m'.console) ∧
      (i.unfinished? s.job m = none → m'.symbols = m.symbols) ∧
      ∀ id x, i.unfinished? s.job m = some (id, x) →
        e = .fault { kind := .stackOverflow } ∧ m.stack.size = s.limits.stack ∧
        (∀ id', id' ≠ id → m'.symbols.get id' = m.symbols.get id') ∧
        (∀ name, m'.symbols.lookup name = m.symbols.lookup name) ∧
        (i.stepsAfter = false →
          m'.symbols = m.symbols.modify id (Symbol.assigned x)) := by
  refine ⟨fun m hm => hm.stack_le h.intact, fun m i e m' hsize hrun => ?_⟩
  have hleft : Exec.Abandons s.job i m (i.run s.job m) :=
    Exec.abandons_instruction hsize i
  rw [hrun] at hleft
  obtain ⟨hnone, hsome⟩ := hleft
  refine ⟨Exec.writes_of_error hrun, hnone, fun id x hunfinished => ?_⟩
  obtain ⟨hoverflow, hsymbols⟩ := hsome id x hunfinished
  have hfull := Instruction.full_of_unfinished? hunfinished
  rw [hsymbols]
  exact ⟨hoverflow, Nat.le_antisymm hsize hfull,
    fun id' hne => SymbolTable.get_modify_other _ _ hne, fun _ => rfl, fun _ => rfl⟩

/-- A session with room for two operands, and the code of a sum that needs a
third. -/
def brimming : Session :=
  ((Session.fresh { stack := 2 }).handle (.enter 30 "x = 5")).handle
    (.compile "1 + (2 + ++x)")

theorem reachable_brimming : ∃ rs, Reachable rs brimming :=
  ⟨_, ((Reachable.fresh { stack := 2 }).step (.enter 30 "x = 5") trivial).step
    (.compile "1 + (2 + ++x)") trivial⟩

/-- The state in which the sum comes to the step. -/
def brimmingStep : Machine :=
  (Exec.reached? (fun m => m.pc != 4) brimming.job 30 0 brimming.machine).getD
    brimming.machine

/-- The run of the sum comes to its fifth cell with both operands on the stack. -/
theorem comesTo_brimmingStep : brimming.ComesTo brimmingStep :=
  ⟨fun m => m.pc != 4, 30, 0, by decide +kernel⟩

/-- The state in which the step looks for its operand. -/
def brimmingOperand : Machine :=
  { brimmingStep with pc := brimmingStep.pc + 1 }

/-- The step fails, and so does an assignment that is tried in its place. The
step has been made, and the assignment not. -/
theorem failed_instruction_leaves_brimming :
    ∃ rs m₁ m₂, Reachable rs brimming ∧ brimming.ComesTo brimmingStep ∧
      brimmingStep.stack.size ≤ brimming.limits.stack ∧
      (Instruction.step .preInc).run brimming.job brimmingOperand =
        .error (.fault { kind := .stackOverflow }) m₁ ∧
      m₁.symbols = brimmingOperand.symbols.modify 28 (Symbol.assigned 6.0) ∧
      m₁.console.writes = brimmingOperand.console.writes ∧
      (Instruction.assign .set).run brimming.job brimmingStep =
        .error (.fault { kind := .internal, note := "assignment without symbol" }) m₂ ∧
      m₂.symbols = brimmingStep.symbols := by
  obtain ⟨rs, hs⟩ := reachable_brimming
  obtain ⟨hbound, hleft⟩ := failed_instruction_leaves hs
  have hsize := hbound _ comesTo_brimmingStep
  have hfacts : (failure? ((Instruction.step .preInc).run brimming.job brimmingOperand) =
        some (.fault { kind := .stackOverflow }) ∧
      (Instruction.step .preInc).unfinished? brimming.job brimmingOperand =
        some (28, 6.0)) ∧
      failure? ((Instruction.assign .set).run brimming.job brimmingStep) =
        some (.fault { kind := .internal, note := "assignment without symbol" }) ∧
      (Instruction.assign .set).unfinished? brimming.job brimmingStep = none := by
    decide +kernel
  obtain ⟨⟨hstep, hunfinished⟩, hassign, hnone⟩ := hfacts
  have hstep := eq_error_of_failure? hstep
  have hassign := eq_error_of_failure? hassign
  obtain ⟨hwrites, -, hmade⟩ := hleft brimmingOperand _ _ _ hsize hstep
  obtain ⟨-, hsame, -⟩ := hleft brimmingStep _ _ _ hsize hassign
  obtain ⟨-, -, -, -, hsymbols⟩ := hmade 28 6.0 hunfinished
  have hsilent := hwrites.resolve_right fun h => absurd h.1 (by decide)
  exact ⟨rs, _, _, hs, comesTo_brimmingStep, hsize, hstep, hsymbols rfl, hsilent,
    hassign, hsame hnone⟩

/-- In the brimming session an instruction fails and changes a variable. -/
theorem failed_step_assigns :
    ∃ rs m', Reachable rs brimming ∧ brimming.ComesTo brimmingStep ∧
      brimming.job.cells[brimmingStep.pc]? = some (.op (.plain (.step .preInc))) ∧
      (Instruction.step .preInc).run brimming.job brimmingOperand =
        .error (.fault { kind := .stackOverflow }) m' ∧
      brimmingOperand.symbols.valueOf? "x" = some 5.0 ∧
      m'.symbols.valueOf? "x" = some 6.0 := by
  obtain ⟨rs, hs⟩ := reachable_brimming
  have hfacts : brimming.job.cells[brimmingStep.pc]? =
      some (.op (.plain (.step .preInc))) ∧
      failure? ((Instruction.step .preInc).run brimming.job brimmingOperand) =
        some (.fault { kind := .stackOverflow }) ∧
      brimmingOperand.symbols.valueOf? "x" = some 5.0 ∧
      (final ((Instruction.step .preInc).run brimming.job
        brimmingOperand)).symbols.valueOf? "x" =
        some 6.0 := by
    decide +kernel
  obtain ⟨hcell, hfailure, hbefore, hafter⟩ := hfacts
  exact ⟨rs, _, hs, comesTo_brimmingStep, hcell, eq_error_of_failure? hfailure,
    hbefore, hafter⟩

end Session

end StackCalc
