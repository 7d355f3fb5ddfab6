import StackCalc.Proofs.Session.History

/-!
# Running a program is evaluating it

The code of a program, run from its entry, ends as the evaluation of the
program's tree does, or else exceeds a limit; and a run that ends without
exceeding a limit has an evaluation that ends alike
(`Session.execute_agrees_with_evaluation`). To end alike is to have the same
fault or none, the same symbols, the same writes and the same lines left to
read.

Both sides are given a number of rounds; to end is to end with some number of
them.
-/

namespace StackCalc

namespace Session

/-! ### Results -/

/-- The evaluation of a program in the world of a session ends with `r`. -/
def Evaluates (ds : Definitions) (program : List Stmt) (s : Session)
    (r : EStateM.Result Abort World Unit) : Prop :=
  (∃ rounds, Eval.program ds s.echo rounds program s.world = r) ∧ ∀ w,
    r ≠ .error .outOfFuel w

/-- The run of the code at an address ends with `r`. -/
def Executes (entry : Nat) (s : Session) (r : EStateM.Result Halt Session Unit) : Prop :=
  (∃ fuel, s.execute fuel entry = r) ∧ ∀ s', r ≠ .error .outOfFuel s'

/-- The run has the outcome of the evaluation and leaves the same symbols and
console. -/
def EndsAlike : EStateM.Result Abort World Unit → EStateM.Result Halt Session Unit → Prop
  | .ok _ w, .ok _ s => s.machine.symbols = w.symbols ∧ s.machine.console = w.console
  | .error (.fault f) w, .error (.fault g) s =>
    f = g ∧ s.machine.symbols = w.symbols ∧ s.machine.console = w.console
  | _, _ => False

variable {ds : Definitions} {s s' : Session} {program : List Stmt} {entry : Nat}

/-! ### Both sides with the same rounds -/

/-- With enough rounds for the code, a run that does not exceed a limit ends as
the evaluation does. -/
theorem Loaded.ends (h : s.Loaded ds program entry) (halarm : s.machine.alarm = none)
    {fuel : Nat} (hfuel : s.store.cells.size + 2 ≤ fuel) (hdepth : s.limits.depth ≤ fuel)
    (hbalanced : ∀ w, Eval.program ds s.echo fuel program s.world ≠
      .error .unbalanced w) :
    ((∃ w, Eval.program ds s.echo fuel program s.world = .error .outOfFuel w) ∧
      ∃ s', s.execute fuel entry = .error .outOfFuel s') ∨
    ExceedsLimit (s.execute fuel entry) ∨
    EndsAlike (Eval.program ds s.echo fuel program s.world) (s.execute fuel entry) := by
  have htracks : Tracks true _ _ _ := h.tracks (fun _ => halarm) hfuel hdepth
  rcases htracks.cases with ⟨w, hx⟩ | ⟨u, w, _, m, hx, hy, hdone⟩ | ⟨f, m, hy, he⟩ |
    ⟨f, w, m, hx, hy, -, hs, hc⟩ | ⟨w, m, hx, hy⟩
  · exact absurd hx (hbalanced w)
  · rw [hx, execute_of_ok hy]
    exact .inr (.inr ⟨hdone.1, hdone.2.1⟩)
  · rw [execute_of_error hy]
    rcases he with hlimit | ⟨hquiet, -⟩
    · exact .inr (.inl hlimit)
    · exact nomatch hquiet
  · rw [hx, execute_of_error hy]
    exact .inr (.inr ⟨rfl, hs, hc⟩)
  · exact .inl ⟨⟨w, hx⟩, _, execute_of_error hy⟩

/-- Neither side has run out of rounds if they end alike. -/
theorem EndsAlike.ne_outOfFuel {r : EStateM.Result Abort World Unit}
    {r' : EStateM.Result Halt Session Unit} (h : EndsAlike r r') :
    (∀ w, r ≠ .error .outOfFuel w) ∧ ∀ s', r' ≠ .error .outOfFuel s' := by
  constructor
  · rintro w rfl
    exact h
  · rintro s' rfl
    cases r with
    | ok u w => exact h
    | error e w => cases e <;> exact h

/-! ### The result -/

/-- Take any session that can be reached and any source text that compiles
there, and let every call in the code at hand agree with the kind of what it
calls. If the evaluation of the program ends, so does the run of its code:
alike, or because it exceeds a limit. If the run ends and does not exceed a
limit, the evaluation ends alike. No interrupt is due. -/
theorem execute_agrees_with_evaluation (hs : Reaches ds s) {source : String}
    (hcompile : s.compile source = .ok entry s')
    (hbodies : Agreement (s.definitionsAfter ds source) s'.machine.symbols)
    (hprogram : Stmt.allAgree s'.machine.symbols (mainPart (s.programOf source)))
    (halarm : s.machine.alarm = none) :
    (∀ r, Evaluates (s.definitionsAfter ds source) (s.programOf source) s' r →
      ∃ r', Executes entry s' r' ∧ (EndsAlike r r' ∨ ExceedsLimit r')) ∧
    ∀ r', Executes entry s' r' → ¬ ExceedsLimit r' →
      ∃ r, Evaluates (s.definitionsAfter ds source) (s.programOf source) s' r ∧
        EndsAlike r r' := by
  have hloaded := hs.lawful.compile source
  rw [hcompile] at hloaded
  obtain ⟨hloaded, -, hsame⟩ := hloaded
  -- calls that agree with the kinds do not leave the program unbalanced
  have hends := fun fuel hfuel hdepth =>
    @Loaded.ends _ _ _ _ hloaded (hsame.trans halarm) fuel hfuel hdepth fun w =>
      Eval.program_ne_unbalanced hbodies hloaded.lawful.sound s'.echo fuel hprogram w
  constructor
  · rintro r ⟨⟨rounds, rfl⟩, hne⟩
    -- both sides are given rounds enough for the code, which does not change how the
    -- evaluation ends
    let fuel := rounds + (s'.store.cells.size + 2) + s'.limits.depth
    have hmore := (Eval.program_mono (s.definitionsAfter ds source) s'.echo
      (show rounds ≤ fuel by omega) (s.programOf source)).eq_of_ne hne
    rw [← hmore] at hne ⊢
    rcases hends fuel (by omega) (by omega) with ⟨⟨w, hw⟩, -⟩ | hlimit | halike
    · exact absurd hw (hne w)
    · exact ⟨_, ⟨⟨fuel, rfl⟩, hlimit.ne_outOfFuel⟩, .inr hlimit⟩
    · exact ⟨_, ⟨⟨fuel, rfl⟩, halike.ne_outOfFuel.2⟩, .inl halike⟩
  · rintro r' ⟨⟨rounds, rfl⟩, hne⟩ hnot
    -- likewise, with the rounds that the run has taken
    let fuel := rounds + (s'.store.cells.size + 2) + s'.limits.depth
    have hmore := execute_of_le (show rounds ≤ fuel by omega) hne
    rw [← hmore] at hne hnot ⊢
    rcases hends fuel (by omega) (by omega) with ⟨-, s'', hs''⟩ | hlimit | halike
    · exact absurd hs'' (hne s'')
    · exact absurd hlimit hnot
    · exact ⟨_, ⟨⟨fuel, rfl⟩, halike.ne_outOfFuel.1⟩, halike⟩

/-- A text that defines a recursive function. -/
def factorial : String :=
  "func fact() \x7b if ($1 <= 1) return 1\n return $1 * fact($1 - 1) \x7d"

/-- A text that calls the function from a loop and prints what it returns. -/
def factorials : String :=
  "for (i = 1; i <= 2; i += 1) print fact(i), \" \""

/-- The loop and the recursive calls in it run as they are evaluated: both write
the first two factorials. -/
theorem execute_agrees_with_evaluation_factorials :
    ∃ ds s entry s', Reaches ds s ∧ s.compile factorials = .ok entry s' ∧
      Agreement (s.definitionsAfter ds factorials) s'.machine.symbols ∧
      Stmt.allAgree s'.machine.symbols (mainPart (s.programOf factorials)) ∧
      s.machine.alarm = none ∧ Action.succeeds (s'.execute 100 entry) ∧
      (Action.final (s'.execute 100 entry)).machine.console.output = "1  2  " ∧
      ∃ w, Evaluates (s.definitionsAfter ds factorials) (s.programOf factorials)
        s' (.ok () w) ∧
        EndsAlike (.ok () w) (s'.execute 100 entry) ∧ w.console.output = "1  2  " := by
  let s : Session := Action.final (({} : Session).enter 100 factorial)
  let ds : Definitions := ({} : Session).definitionsAfter [] factorial
  have hs : Reaches ds s := (Reaches.fresh {} false).enter 100 factorial
  have hfacts : s.machine.alarm = none ∧ s.compilesInAgreement ds factorials ∧
      Action.succeeds (s.enter 100 factorials) ∧
      (Action.final (s.enter 100 factorials)).machine.console.output = "1  2  " := by
    decide +kernel
  obtain ⟨halarm, hagree, henter, houtput⟩ := hfacts
  obtain ⟨entry, s', hcompile, hbodies, hprogram⟩ := exists_of_compilesInAgreement hagree
  have hruns := succeeds_execute hcompile henter
  obtain ⟨u, s'', hrun⟩ := Action.exists_of_succeeds hruns
  obtain ⟨r, hevaluates, hends⟩ :=
    (execute_agrees_with_evaluation hs hcompile hbodies hprogram halarm).2
      (s'.execute 100 entry) ⟨⟨100, rfl⟩, by rw [hrun]; exact nofun⟩
      (by rw [hrun]; exact id)
  -- discarding the code afterwards leaves what was written
  have hwritten : s''.machine.console.output = "1  2  " := by
    rw [enter_of_ok hcompile, hrun] at houtput
    exact houtput
  rw [hrun] at hends
  cases r with
  | error e w => cases e <;> exact hends.elim
  | ok v w =>
    have hsame : s''.machine.console = w.console := hends.2
    refine ⟨ds, s, entry, s', hs, hcompile, hbodies, hprogram, halarm, hruns, ?_, w,
      hevaluates, ?_, hsame ▸ hwritten⟩
    · rw [hrun]
      exact hwritten
    · rw [hrun]
      exact hends

end Session

end StackCalc
