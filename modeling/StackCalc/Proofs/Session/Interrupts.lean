import StackCalc.Proofs.Machine.Interrupts
import StackCalc.Proofs.Session.Reachable

/-!
# Interrupted runs of a session

An interrupt that arrives right after a write ends the run there, at whatever
level of loops, branches and calls. What the session has then printed, read and
assigned is what a run without the interrupt had when it got to the same place.
The interrupt stays raised until the next run starts.

Where the run without the interrupt has got to is told by a run that is watched
(`Exec.watchedExecute`): it is broken off before the first cell that finds the
writes made.
-/

namespace StackCalc

namespace Session

open StackCalc.Action

variable {rs : List Region} {s : Session}

/-- How many writes the console of a session holds. -/
def printed (s : Session) : Nat :=
  s.machine.printed

/-! ### No request shows prompts -/

/-- What a session shares with the outside. -/
def outside (s : Session) : Outside :=
  s.machine.outside

/-- Reading changes symbols only. -/
theorem leaves_outside_read (source : String) : Leaves outside (read source) := by
  intro s
  unfold read
  dsimp only
  split <;> rfl

theorem leaves_outside_generate (program : List Stmt) :
    Leaves outside (generate program) := by
  intro s
  unfold generate
  split <;> rfl

/-- Compiling has nothing to do with the outside. -/
theorem leaves_outside_compile (source : String) : Leaves outside (compile source) :=
  (leaves_outside_read source).bind leaves_outside_generate

/-- A run may write and read, but it does not turn prompts on or off. -/
theorem prompting_execute (s : Session) (fuel a : Nat) :
    (final (s.execute fuel a)).outside.console.prompting =
      s.outside.console.prompting := by
  have hproceeds : Exec.Proceeds (Exec.exec s.job fuel s.limits.depth a) :=
    Exec.proceeds_exec fuel s.limits.depth a
  have hsame : (final (s.execute fuel a)).outside =
      (final (Exec.execute s.job fuel a s.machine)).outside := by
    unfold execute
    cases Exec.execute s.job fuel a s.machine <;> rfl
  rw [hsame]
  exact (hproceeds (s.machine.start a)).prompting

/-- Nor does entering a text. -/
theorem prompting_enter (s : Session) (fuel : Nat) (source : String) :
    (final (s.enter fuel source)).outside.console.prompting =
      s.outside.console.prompting := by
  have hcompile := leaves_outside_compile source s
  cases hresult : s.compile source with
  | error f s' =>
    rw [hresult] at hcompile
    rw [enter_of_error hresult]
    exact congrArg (·.console.prompting) hcompile
  | ok entry s' =>
    rw [hresult] at hcompile
    rw [final_enter hresult]
    exact (s'.prompting_execute fuel entry).trans
      (congrArg (·.console.prompting) hcompile)

/-- No session that can be reached shows prompts. -/
theorem Reachable.prompting (h : Reachable rs s) :
    s.outside.console.prompting = false := by
  induction h with
  | fresh limits => rfl
  | @step rs s h r hr ih =>
    refine Eq.trans ?_ ih
    cases r with
    | enter fuel source => exact s.prompting_enter fuel source
    | compile source =>
      exact congrArg (·.console.prompting) (leaves_outside_compile source s)
    | generate program =>
      exact congrArg (·.console.prompting) (leaves_outside_generate program s)
    | execute fuel a => exact s.prompting_execute fuel a
    | _ => rfl

/-! ### Runs that are interrupted -/

/-- What a run leaves that is not interrupted. -/
def afterRun (s : Session) (fuel a : Nat) : Session :=
  final ((s.interruptAfter 0).execute fuel a)

theorem machine_afterRun (s : Session) (fuel a : Nat) :
    (s.afterRun fuel a).machine =
      final (Exec.execute s.job fuel a (s.interruptAfter 0).machine) := by
  show (final ((s.interruptAfter 0).execute fuel a)).machine =
    final (Exec.execute (s.interruptAfter 0).job fuel a (s.interruptAfter 0).machine)
  unfold execute
  cases Exec.execute (s.interruptAfter 0).job fuel a (s.interruptAfter 0).machine <;> rfl

/-- Take any session that can be reached, and a run from any address that makes
at least `n` writes, in some number of rounds and without an interrupt; it may
be endless. If an interrupt arrives right after the `n`-th write, the run ends
there. What it leaves is the machine of the run without the interrupt, broken
off before the first cell that finds the `n` writes made, with the interrupt
raised. So the writes are the first ones of that run, nothing more is read, and
the symbols are what they were at that place. The next run does not see that the
interrupt is raised. -/
theorem execute_interruptAfter (h : Reachable rs s) {n : Nat} (hn : 0 < n) (a : Nat)
    {fuel fuel' : Nat} (hf : fuel < fuel')
    (hwrites : s.printed + n ≤ (s.afterRun fuel a).printed) :
    ∃ m : Machine,
      (∀ breach, Exec.watchedExecute (Exec.isBefore (s.printed + n)) breach s.job fuel' a
        (s.interruptAfter 0).machine = .error breach m) ∧
      m.printed = s.printed + n ∧
      m.console.writes.toList =
        (s.afterRun fuel a).machine.console.writes.toList.take (s.printed + n) ∧
      (s.afterRun fuel a).machine.console.input <:+ m.console.input ∧
      (s.interruptAfter n).execute fuel' a = .error (.fault { kind := .interrupted })
        { s with machine := { m with interrupted := true } } ∧
      ∀ rounds b,
        execute rounds b { s with machine := { m with interrupted := true } } =
          execute rounds b { s with machine := { m with interrupted := false } } := by
  -- the two sessions differ in the alarm alone
  have hdue : (s.interruptAfter n).machine =
      { (s.interruptAfter 0).machine with alarm := some n } := by
    unfold interruptAfter
    rw [if_neg (Nat.ne_of_gt hn)]
  have hmade : (s.interruptAfter 0).machine.printed + n ≤
      (final (Exec.execute s.job fuel a (s.interruptAfter 0).machine)).printed := by
    rw [← machine_afterRun]
    exact hwrites
  obtain ⟨m, hprinted, hleads, hwatched, hrun⟩ :=
    Exec.execute_due hf hn a (m := (s.interruptAfter 0).machine) rfl h.prompting hmade
  rw [← machine_afterRun] at hleads
  rw [← hdue] at hrun
  refine ⟨m, hwatched, hprinted, ?_, hleads.input, execute_of_error hrun, fun _ _ => rfl⟩
  -- writes are only ever added, so those made before are the first ones
  have hfirst := List.prefix_iff_eq_take.1 hleads.writes
  rw [show m.outside.console.writes.toList.length = s.printed + n from hprinted] at hfirst
  exact hfirst

/-- A session with a procedure that prints, an endless loop that calls it and
reads, and some lines to read. -/
def telling : Session :=
  (((Session.fresh {}).handle (.enter 30
    "proc tell() \x7b if (x > 0) print x, \"!\" else print \"none\" \x7d\nx = 5")).handle
    (.compile "while (1) \x7b tell() read(x) \x7d")).handle
      (.supply ["7\n", "8\n", "9\n"])

theorem reachable_telling : ∃ rs, Reachable rs telling :=
  ⟨_, (((Reachable.fresh {}).step (.enter 30
    "proc tell() \x7b if (x > 0) print x, \"!\" else print \"none\" \x7d\nx = 5")
      trivial).step
    (.compile "while (1) \x7b tell() read(x) \x7d") trivial).step
      (.supply ["7\n", "8\n", "9\n"]) trivial⟩

/-- The endless loop is interrupted after four writes, inside the procedure. It
has read one line. -/
theorem execute_interruptAfter_telling :
    ∃ (rs : List Region) (m : Machine), Reachable rs telling ∧
      telling.printed + 4 ≤ (telling.afterRun 12 23).printed ∧
      m.printed = telling.printed + 4 ∧
      m.console.writes.toList =
        (telling.afterRun 12 23).machine.console.writes.toList.take
          (telling.printed + 4) ∧
      (telling.interruptAfter 4).execute 13 23 = .error (.fault { kind := .interrupted })
        { telling with machine := { m with interrupted := true } } ∧
      (final ((telling.interruptAfter 4).execute 13 23)).machine.console =
        ⟨#[.value 5.0, .text "!", .value 7.0, .text "!"], ["8\n", "9\n"], false⟩ := by
  obtain ⟨rs, hs⟩ := reachable_telling
  have hwrites : telling.printed + 4 ≤ (telling.afterRun 12 23).printed := by
    decide +kernel
  obtain ⟨m, -, hprinted, hfirst, -, hrun, -⟩ :=
    execute_interruptAfter hs (by decide : 0 < 4) 23 (by decide : 12 < 13) hwrites
  exact ⟨rs, m, hs, hwrites, hprinted, hfirst, hrun, by decide +kernel⟩

end Session

end StackCalc
