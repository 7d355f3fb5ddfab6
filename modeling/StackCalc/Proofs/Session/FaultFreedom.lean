import StackCalc.Proofs.Session.StackDiscipline

/-!
# Entering source texts

Whether a source text can reach an internal fault, run into an empty stack or
leave an operand behind. A call is compiled for the kind that the called name
has when the call is read, and a name may be defined again as the other kind. So
all three depend on what calls return when they are evaluated: a call in an
expression must return a value, and a call statement none. `Session.MixesKinds`
says that the evaluation of a text meets a call for which this is not so.

- `Session.enter_keeps_discipline`: nothing of the sort happens to a text that
  does not mix kinds, in any session that can be reached; and a text does not
  mix kinds if every call in the code at hand agrees with the kind of what it
  calls.
- `Session.redefinition_breaks_discipline`: texts that do mix kinds can leave an
  operand behind, and can run into an empty stack.
-/

namespace StackCalc

/-- A text that cannot be read or compiled has no fault of the code's making. -/
theorem Fault.isProper_of_compile {f : Fault}
    (h : f.kind.isOfText ∨ f.kind = .programTooBig) :
    f.IsProper := by
  constructor <;> intro hk <;> rw [hk] at h <;> exact absurd h (by decide)

namespace Session

/-- The evaluation of a text meets a call in an expression that returns no
value, or a call statement that returns one. -/
def MixesKinds (ds : Definitions) (source : String) (s : Session) : Prop :=
  ∃ entry s' rounds w, s.compile source = .ok entry s' ∧
    Eval.program (s.definitionsAfter ds source) s'.echo rounds
      (s.programOf source) s'.world =
      .error .unbalanced w

/-- No operand is left. -/
def IsClear (s : Session) : Prop :=
  s.stackDepth = 0

variable {ds : Definitions} {s s' : Session} {source : String}

/-- The operands are gone, and discarding the code brings none back. -/
theorem IsIdle.rewind (h : s.IsIdle) : s.rewind.IsClear :=
  congrArg Array.size h.1

/-- Discarding the code of a program does not change how it ended. -/
theorem disciplined_enter {entry fuel : Nat} (hcompile : s.compile source = .ok entry s')
    (h : Disciplined IsIdle (s'.execute fuel entry)) :
    Disciplined IsClear (s.enter fuel source) := by
  rw [enter_of_ok hcompile]
  cases hrun : s'.execute fuel entry with
  | ok u s'' =>
    rw [hrun] at h
    exact IsIdle.rewind h
  | error e s'' =>
    rw [hrun] at h
    exact h.error IsClear _

/-- Take any session that can be reached, whatever texts have been entered
before. Entering a text has no internal fault, does not run into an empty stack,
and leaves no operand if it succeeds, unless the evaluation of the text mixes
kinds. It does not if every call in the code at hand agrees with the kind of
what it calls. -/
theorem enter_keeps_discipline (hs : Reaches ds s) (source : String) :
    (¬ s.MixesKinds ds source → ∀ fuel, Disciplined IsClear (s.enter fuel source)) ∧
    ∀ {entry s'}, s.compile source = .ok entry s' →
      Agreement (s.definitionsAfter ds source) s'.machine.symbols →
      Stmt.allAgree s'.machine.symbols (mainPart (s.programOf source)) →
      ¬ s.MixesKinds ds source := by
  have hcompiled := hs.lawful.compile source
  constructor
  · intro hkinds fuel
    cases hcompile : s.compile source with
    -- a text that does not compile is not run
    | error f s' =>
      rw [hcompile] at hcompiled
      rw [enter_of_error hcompile]
      exact Fault.isProper_of_compile hcompiled.2
    | ok entry s' =>
      rw [hcompile] at hcompiled
      refine disciplined_enter hcompile
        (hcompiled.1.disciplined (fun rounds w hw => ?_) fuel)
      exact hkinds ⟨entry, s', rounds, w, hcompile, hw⟩
  -- the evaluation that mixes kinds would be unbalanced
  · rintro entry s' hcompile hbodies hprogram ⟨entry', s'', rounds, w, hcompile', hw⟩
    cases hcompile.symm.trans hcompile'
    rw [hcompile] at hcompiled
    exact Eval.program_ne_unbalanced hbodies hcompiled.1.lawful.sound s'.echo
      rounds hprogram w hw

/-! ### Texts one after the other -/

/-- The definitions and the session after some texts have been entered. -/
def enterAll (fuel : Nat) : List String → Definitions × Session → Definitions × Session
  | [], p => p
  | source :: sources, (ds, s) =>
    enterAll fuel sources (s.definitionsAfter ds source,
      Action.final (s.enter fuel source))

theorem Reaches.enterAll (h : Reaches ds s) (fuel : Nat) (sources : List String) :
    Reaches (enterAll fuel sources (ds, s)).1 (enterAll fuel sources (ds, s)).2 := by
  induction sources generalizing ds s with
  | nil => exact h
  | cons source sources ih => exact ih (h.enter fuel source)

/-- Texts that define a function which calls another, try to define it anew
without success, and define the other anew as a function. -/
def sameKind : List String :=
  ["func f() return 1", "func g() return f()", "func g() return +", "func f() return 2"]

/-- The call finds the new definition, and nothing is left of it. -/
theorem enter_keeps_discipline_sameKind :
    ∃ ds s, Reaches ds s ∧ ¬ s.MixesKinds ds "print g()" ∧
      Action.succeeds (s.enter 100 "print g()") ∧
      Disciplined IsClear (s.enter 100 "print g()") := by
  let p := enterAll 100 sameKind ([], {})
  have hs : Reaches p.1 p.2 := (Reaches.fresh {} false).enterAll 100 sameKind
  have hfacts : p.2.compilesInAgreement p.1 "print g()" ∧
      Action.succeeds (p.2.enter 100 "print g()") := by decide +kernel
  obtain ⟨hagree, hruns⟩ := hfacts
  obtain ⟨entry, s', hcompile, hbodies, hprogram⟩ := exists_of_compilesInAgreement hagree
  obtain ⟨hdisciplined, hkinds⟩ := enter_keeps_discipline hs "print g()"
  have hnot := hkinds hcompile hbodies hprogram
  exact ⟨p.1, p.2, hs, hnot, hruns, hdisciplined hnot 100⟩

/-- A call statement that is read before its procedure is defined again as a
function. -/
def leftover : String :=
  "proc p() \x7b\x7d\np()\nfunc p() return 1"

/-- Texts that define a function which calls another, and define the other anew
as a procedure. -/
def otherKind : List String :=
  ["func f() return 1", "func g() return f()", "proc f() \x7b\x7d"]

/-- The kind of the fault that a run ends with. -/
def faultKind? {σ : Type} : EStateM.Result Halt σ Unit → Option FaultKind
  | .error (.fault f) _ => some f.kind
  | _ => none

/-- A name that is defined again as the other kind makes a program leave an
operand behind, or run into an empty stack. -/
theorem redefinition_breaks_discipline :
    (∃ s, ({} : Session).enter 100 leftover = .ok () s ∧ s.stackDepth = 1) ∧
    ∃ ds s, Reaches ds s ∧ faultKind? (s.enter 100 "g()") = some .stackUnderflow := by
  constructor
  · have hcheck : Action.succeeds (({} : Session).enter 100 leftover) ∧
        (Action.final (({} : Session).enter 100 leftover)).stackDepth = 1 := by
          decide +kernel
    obtain ⟨u, s, hs⟩ := Action.exists_of_succeeds hcheck.1
    rw [hs] at hcheck
    exact ⟨s, hs, hcheck.2⟩
  · exact ⟨_, _, (Reaches.fresh {} false).enterAll 100 otherKind, by decide +kernel⟩

end Session

end StackCalc
