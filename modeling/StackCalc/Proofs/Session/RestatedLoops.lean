import StackCalc.Proofs.Loops.Programs
import StackCalc.Proofs.Session.Bodies
import StackCalc.Proofs.Session.StackDiscipline

/-!
# A `for` loop is its `while` loop

The code of a `for` loop, and that of its first clause followed by a `while`
loop whose body ends with the last clause, do the same from the same state,
wherever a run has come to (`Session.forLoop_agrees`). So do programs in which
any `for` loops are written that way, in definitions or outside.

Runs are compared by how they end (`Agree`): with the same result, or with the
same fault and the same to show. A `for` loop needs one more level of nesting
for its first clause, so it may exceed the limit on levels where the `while`
loop does not; that is the one difference, and it does not go the other way.
-/

namespace StackCalc

/-! ### How two runs end -/

/-- The run ends with a result, given enough rounds. -/
def EndsWith (run : Nat → EStateM.Result Halt Machine Unit)
    (r : EStateM.Result Halt Machine Unit) :
    Prop :=
  (∀ m, r ≠ .error .outOfFuel m) ∧ ∃ fuel, run fuel = r

/-- There was no level of nesting left, or the run saw an interrupt. -/
def IsCutShort : EStateM.Result Halt Machine Unit → Prop
  | .ok _ _ => False
  | .error e _ => e.CutsShort

/-- Both runs succeed in states related by `Q`, or both fail with the same fault
and show the same. -/
inductive SameOutcome (Q : Machine → Machine → Prop) :
    EStateM.Result Halt Machine Unit → EStateM.Result Halt Machine Unit → Prop
  | ok {m m' : Machine} (h : Q m m') : SameOutcome Q (.ok () m) (.ok () m')
  | error {e : Halt} {m m' : Machine} (h : m'.placeless = m.placeless) :
    SameOutcome Q (.error e m) (.error e m')

/-- If one run ends so does the other one, with the same outcome, unless the
first one is cut short. -/
structure Agree (Q : Machine → Machine → Prop)
    (run run' : Nat → EStateM.Result Halt Machine Unit) :
    Prop where
  forth : ∀ {r}, EndsWith run r → ¬ IsCutShort r → ∃ r',
    EndsWith run' r' ∧ SameOutcome Q r r'
  back : ∀ {r'}, EndsWith run' r' → ∃ r,
    EndsWith run r ∧ (IsCutShort r ∨ SameOutcome Q r r')

/-- More rounds do not change how the run ends. -/
def Lasting (run : Nat → EStateM.Result Halt Machine Unit) : Prop :=
  ∀ fuel fuel', fuel ≤ fuel' → (∀ m, run fuel ≠ .error .outOfFuel m) →
    run fuel' = run fuel

/-- A run that succeeds has ended. -/
theorem EndsWith.ok {run : Nat → EStateM.Result Halt Machine Unit}
    {fuel : Nat} {m : Machine} (h : run fuel = .ok () m) : EndsWith run (.ok () m) :=
  ⟨fun _ hc => (by cases hc), fuel, h⟩

/-- It ends so with as many rounds as one likes. -/
theorem EndsWith.eventually {run : Nat → EStateM.Result Halt Machine Unit}
    {r : EStateM.Result Halt Machine Unit} (h : EndsWith run r) (hlasting : Lasting run)
    (ample : Nat) :
    ∃ fuel, ample ≤ fuel ∧ run fuel = r := by
  obtain ⟨hne, fuel, rfl⟩ := h
  exact ⟨fuel + ample, Nat.le_add_left _ _, hlasting _ _ (Nat.le_add_right _ _) hne⟩

/-- It is enough that the results match from some number of rounds on. -/
theorem Agree.of_matched {Q : Machine → Machine → Prop}
    {run run' : Nat → EStateM.Result Halt Machine Unit} (hlasting : Lasting run)
    (hlasting' : Lasting run') (ample : Nat)
    (h : ∀ {fuel}, ample ≤ fuel → Matched Q (run fuel) (run' fuel)) :
    Agree Q run run' where
  forth {r} hr hwhole := by
    obtain ⟨fuel, hfuel, hrun⟩ := hr.eventually hlasting ample
    have hmatched := h hfuel
    rw [hrun] at hmatched
    generalize hrun' : run' fuel = r' at hmatched
    cases hmatched with
    | cut he => exact absurd he hwhole
    | ok hq => exact ⟨_, .ok hrun', .ok hq⟩
    | @error e m m' hp =>
      refine ⟨_, ⟨fun _ hc => ?_, fuel, hrun'⟩, .error hp⟩
      cases hc
      exact hr.1 m rfl
  back {r'} hr' := by
    obtain ⟨fuel, hfuel, hrun'⟩ := hr'.eventually hlasting' ample
    have hmatched := h hfuel
    rw [hrun'] at hmatched
    generalize hrun : run fuel = r at hmatched
    cases hmatched with
    | cut he =>
      refine ⟨_, ⟨fun _ hc => ?_, fuel, hrun⟩, .inl he⟩
      cases hc
      exact he
    | ok hq => exact ⟨_, .ok hrun, .inr (.ok hq)⟩
    | @error e m m' hp =>
      refine ⟨_, ⟨fun _ hc => ?_, fuel, hrun⟩, .inr (.error hp)⟩
      cases hc
      exact hr'.1 m' rfl

/-- If the first run succeeds, so does the other one. -/
theorem Agree.ok {Q : Machine → Machine → Prop}
    {run run' : Nat → EStateM.Result Halt Machine Unit} {m : Machine}
    (h : Agree Q run run') (hr : EndsWith run (.ok () m)) :
    ∃ m', EndsWith run' (.ok () m') ∧ Q m m' := by
  obtain ⟨r', hr', hsame⟩ := h.forth hr id
  cases hsame with
  | ok hq => exact ⟨_, hr', hq⟩

/-! ### Code in the middle of a run -/

/-- Runs the code of statements from where the machine stands, with `depth`
levels of nesting further in. -/
def Exec.through (job : Job) (depth : Nat) (ss : List Stmt) (fuel : Nat) : Exec Unit :=
  advance job (exec job fuel depth) fuel (Stmt.stepsAll ss)

/-- The second machine is the first one, but that it stands behind its own code;
with a return under way both are where their caller goes on. -/
structure Behind (q q' : Nat) (m m' : Machine) : Prop where
  other : m' = { m with pc := if m.returning then m.pc else q' }
  pc : m.returning = false → m.pc = q

/-- More rounds for the code of statements. -/
theorem Exec.lasting_through (job : Job) (depth : Nat) (ss : List Stmt) (m : Machine) :
    Lasting fun fuel => through job depth ss fuel m := fun _ _ hf hne =>
  (advance_mono hf depth (Stmt.stepsAll ss)).eq_of_ne hne

/-- More rounds for a whole run. -/
theorem Exec.lasting_execute (job : Job) (entry : Nat) (m : Machine) :
    Lasting fun fuel => execute job fuel entry m := fun _ _ hf hne =>
  (execute_mono hf entry).eq_of_ne hne

namespace Session

/-- A machine in the middle of a run, and two jobs that it may go on with: its
symbols advanced from those of a session, of which both have the sealed cells. -/
structure Underway (s : Session) (job job' : Job) (m : Machine) : Prop where
  cells : ∀ i < s.store.base, job.cells[i]? = s.store.cells[i]?
  cells' : ∀ i < s.store.base, job'.cells[i]? = s.store.cells[i]?
  limits : job'.limits = job.limits
  advances : s.machine.symbols.Advances m.symbols
  returning : m.returning = false

variable {loud : Bool} {s : Session}

/-- Jobs with the sealed cells of a session have the same bodies. -/
theorem Underway.restatesBodies {job job' : Job} {m : Machine} (h : s.Underway job job' m)
    (hs : s.image.Housed loud) :
    RestatesBodies ⟨fun a => ∃ id, (m.symbols.get id).code = some a, id⟩ job job' := by
  rintro a ⟨id, hcode⟩
  obtain ⟨t, echo, ss, -, -, hss, hholds, hbelow⟩ :=
    hs id a ((h.advances.sameCode id).symm.trans hcode)
  have hlength : a + (Layout.body t echo a ss).length ≤ s.store.base := by
    rw [Layout.length_body]
    exact hbelow
  exact ⟨t, echo, ss, ss, hss, Restated.refl _ _, hholds.congr hlength h.cells,
    hholds.congr hlength h.cells'⟩

end Session

/-- Machines in the same calls are the same but for their places. -/
theorem Past.behind {bodies : Nat → Prop} {F : Array Frame} {q q' : Nat} {m m' : Machine}
    (h : Past ⟨bodies, id⟩ ⟨F, F, rfl⟩ q q' m m') : Behind q q' m m' := by
  rcases h with h | ⟨f, r, ⟨htop, htop'⟩, h⟩
  · refine ⟨?_, fun _ => h.pc⟩
    rw [if_neg (by rw [h.flag]; decide), h.other, Machine.moved,
      SymbolTable.moved_id, h.frames]
  · -- both return to where the one caller goes on
    have hresume : f.resume = r :=
      congrArg Frame.resume (Option.some.inj (htop.symm.trans htop'))
    refine ⟨?_, fun hr => absurd (h.flag.symm.trans hr) (by decide)⟩
    rw [if_pos h.flag, h.other, Machine.moved, SymbolTable.moved_id, ← hresume, ← h.pc]
    show { m with frames := ⟨F.pop⟩ } = m
    rw [show (⟨F.pop⟩ : Stack Frame) = m.frames from h.frames.symm]

namespace Session

variable {loud : Bool} {s : Session}

/-- The code of statements and that of the restated ones agree, wherever a run
has come to. -/
theorem Underway.through_agrees {job job' : Job} {m : Machine} {p depth : Nat}
    {ss ss' : List Stmt} (h : s.Underway job job' m) (hs : s.image.Housed loud)
    (hss : Stmt.AllCodable m.symbols ss) (hrestated : Restated false ss ss')
    (hcode : Holds job.cells m.pc (Layout.stmts m.symbols false m.pc ss))
    (hcode' : Holds job'.cells p (Layout.stmts m.symbols false p ss')) :
    Agree (Behind (m.pc + Stmt.sizes ss) (p + Stmt.sizes ss'))
      (fun fuel => Exec.through job depth ss fuel m)
      (fun fuel => Exec.through job' depth ss' fuel { m with pc := p }) := by
  refine .of_matched (Exec.lasting_through _ _ _ _) (Exec.lasting_through _ _ _ _)
    (max (job.cells.size + 2) (job'.cells.size + 2)) fun {fuel} hfuel => ?_
  have hbodies := h.restatesBodies hs
  have henters := hbodies.enters h.limits (show job.cells.size + 2 ≤ fuel by omega)
    (by omega) (Nat.le_refl depth)
  have habreast : Abreast ⟨fun a => ∃ id, (m.symbols.get id).code = some a, id⟩
      ⟨m.frames.items, m.frames.items, rfl⟩ false m.pc p m { m with pc := p } :=
    ⟨by rw [Machine.moved, SymbolTable.moved_id], rfl, rfl, h.returning,
      fun id _ ha => ⟨id, ha⟩⟩
  exact (Exec.inStep_stmts (hbodies.calls h.limits henters) henters hrestated
    hss hcode hcode'
    _ _ habreast).mono fun _ _ => Past.behind

/-! ### Whole programs -/

section

variable {program program' : List Stmt} {entry entry' : Nat} {s₁ s₁' : Session}
  (hw : ∀ p ∈ program, p.IsTopLevel s.machine.symbols)
  (hrestated : Restated s.echo program program') (h : s.generate program = .ok entry s₁)
  (h' : s.generate program' = .ok entry' s₁')

include hw hrestated h h'

/-- The images of both programs restate each other. -/
theorem generate_restates (hs : s.image.Housed loud) :
    ∃ im im' moves, s₁ = s.withImage im ∧ s₁' = s.withImage im' ∧
      im.Restates moves im' := by
  obtain ⟨-, hdefinitions⟩ := hrestated.parts hw
  obtain ⟨⟨code, hs₁⟩, -⟩ := eq_of_generate_ok hw h
  obtain ⟨⟨code', hs₁'⟩, -⟩ := eq_of_generate_ok (hrestated.isTopLevel hw) h'
  have hrewound : s.image.rewound.Housed loud :=
    hs.grows s.image.grows_rewound fun _ hr => absurd hr List.not_mem_nil
  obtain ⟨moves, hmoves⟩ := hrewound.restates.withDefinitions hdefinitions
    (fun d hd => hw d (List.mem_filter.mp hd).1) s.image.isSealed_rewound
  exact ⟨_, _, moves, hs₁, hs₁', hmoves.append code code'⟩

/-- A program and a restated one, generated from the same session, agree. -/
theorem execute_agrees (hs : s.image.Housed loud) :
    Agree (fun m m' => m'.placeless = m.placeless)
      (fun fuel => Exec.execute s₁.job fuel entry s₁.machine)
      (fun fuel => Exec.execute s₁'.job fuel entry' s₁'.machine) := by
  obtain ⟨-, hwell, hcode⟩ := eq_of_generate_ok hw h
  obtain ⟨-, -, hcode'⟩ := eq_of_generate_ok (hrestated.isTopLevel hw) h'
  obtain ⟨im, im', moves, rfl, rfl, himage⟩ := generate_restates hw hrestated h h' hs
  obtain ⟨htop, -⟩ := hrestated.parts hw
  -- where the bodies lie makes no difference to the code of a program
  have hmain : Layout.main im'.symbols s.echo entry' program' =
      Layout.main im.symbols s.echo entry' program' := by
    rw [himage.symbols]
    exact Layout.main_evolve (im.symbols.evolves_moved moves) _ (htop.allWellFormed hwell)
  change Holds im'.store.cells entry'
    (Layout.main im'.symbols s.echo entry' program') at hcode'
  rw [hmain, Layout.main_eq] at hcode'
  rw [Layout.main_eq] at hcode
  refine .of_matched (Exec.lasting_execute _ _ _) (Exec.lasting_execute _ _ _)
    (max (im.store.cells.size + 2) (im'.store.cells.size + 2)) fun {fuel} hfuel => ?_
  exact himage.matched_execute s.limits hwell.codable htop hcode hcode' (by omega)
    (by omega) s.machine

end

/-- If entering a text succeeds then the run of its code ends. -/
theorem exists_endsWith_of_enter {fuel entry : Nat} {source : String} {s' : Session}
    (hcompile : s.compile source = .ok entry s')
    (h : Action.succeeds (s.enter fuel source)) :
    ∃ m, EndsWith (fun fuel => Exec.execute s'.job fuel entry s'.machine) (.ok () m) := by
  have hruns := succeeds_execute hcompile h
  cases hrun : Exec.execute s'.job fuel entry s'.machine with
  | ok u m => exact ⟨m, .ok hrun⟩
  | error e m =>
    rw [execute_of_error hrun] at hruns
    cases hruns

/-- In every session that requests lead to, the code of a `for` loop and that of
its first clause and its `while` loop agree, with echo off, from every state
that a run may be in; and a program agrees with one in which `for` loops are
restated so, wherever they stand. The trees that a source text is read as are
well-formed (`parse_wellFormed`). -/
theorem forLoop_agrees {rs : List Region} {s : Session} (hs : Reachable rs s) :
    (∀ {job job' m}, s.Underway job job' m → ∀ {init cond post body inDefinition},
      (Stmt.forLoop init cond post body).WellFormed m.symbols inDefinition →
      ∀ {p}, Holds job.cells m.pc
        (Layout.stmts m.symbols false m.pc [.forLoop init cond post body]) →
      Holds job'.cells p
        (Layout.stmts m.symbols false p [init, .whileLoop cond (body ++ [post])]) →
      ∀ depth, Agree
        (Behind (m.pc + Stmt.sizes [.forLoop init cond post body])
          (p + Stmt.sizes [init, .whileLoop cond (body ++ [post])]))
        (fun fuel => Exec.through job depth [.forLoop init cond post body] fuel m)
        (fun fuel =>
          Exec.through job' depth [init, .whileLoop cond (body ++ [post])] fuel
            { m with pc := p })) ∧
    ∀ {source program s₀}, s.read source = .ok program s₀ →
      ∀ {program'}, Restated s₀.echo program program' →
      ∀ {entry s₁}, s₀.generate program = .ok entry s₁ →
      ∀ {entry' s₁'}, s₀.generate program' = .ok entry' s₁' →
      Agree (fun m m' => m'.placeless = m.placeless)
        (fun fuel => Exec.execute s₁.job fuel entry s₁.machine)
        (fun fuel => Exec.execute s₁'.job fuel entry' s₁'.machine) := by
  constructor
  · intro job job' m h init cond post body inDefinition hw p hcode hcode' depth
    exact h.through_agrees hs.housed ⟨hw.codable, trivial⟩
      (.loop rfl init cond post (Restated.refl _ _) .nil) hcode hcode'
  · intro source program s₀ hread program' hrestated entry s₁ h entry' s₁' h'
    rcases read_cases hs.intact source with ⟨f, s', herror, -⟩ |
      ⟨program, s', hok, hfollows, hw⟩
    · cases herror.symm.trans hread
    · cases hok.symm.trans hread
      exact execute_agrees hw hrestated h h' (hfollows.housed hs.housed)

/-- A text that defines a function which returns out of a `for` loop. -/
def roundedRoot : String :=
  "func root() \x7b for ($2 = 1; $2 <= $1; $2 = $2 + 1) " ++
    "if ($2 * $2 >= $1) return $2\n return 0 \x7d"

/-- A text that also calls the function, in a `for` loop of its own. -/
def roundedRoots : String :=
  roundedRoot ++ "\nfor (i = 1; i <= 2; i = i + 1) print root(i * i, 0)"

/-- The clauses and the body of the function's loop. -/
def firstGuess : Stmt :=
  .argAssign 2 (.literal 29)

def guessInRange : Expr :=
  .binary .lessEqual (.arg 2) (.arg 1)

def nextGuess : Stmt :=
  .argAssign 2 (.binary .plus (.arg 2) (.literal 30))

def returnIfRoot : Stmt :=
  .ifThen (.binary .greaterEqual (.binary .times (.arg 2) (.arg 2)) (.arg 1))
    [.returnValue (.arg 2)]

/-- The function's loop as it is read. -/
def rootLoop : Stmt :=
  .forLoop firstGuess guessInRange nextGuess [returnIfRoot]

/-- The same loop with `while`. -/
def rootLoopRestated : List Stmt :=
  [firstGuess, .whileLoop guessInRange ([returnIfRoot] ++ [nextGuess])]

/-- The loop returns from a call, and so does the `while` loop, laid behind the
cells of the session; the calls of the function show the same if both `for`
loops are restated. -/
theorem forLoop_agrees_roundedRoot :
    (∃ rs s job' m, Reachable rs s ∧ s.Underway s.job job' (s.inCall 28) ∧
      rootLoop.WellFormed s.machine.symbols true ∧
      Holds s.store.cells 0 (Layout.stmts s.machine.symbols false 0 [rootLoop]) ∧
      Holds job'.cells s.store.base
        (Layout.stmts s.machine.symbols false s.store.base rootLoopRestated) ∧
      m.returning ∧
      EndsWith (fun fuel => Exec.through s.job 9 [rootLoop] fuel (s.inCall 28))
        (.ok () m) ∧
      EndsWith (fun fuel => Exec.through job' 9 rootLoopRestated fuel
        { s.inCall 28 with pc := s.store.base }) (.ok () m)) ∧
    ∃ program s₀ entry s₁ entry' s₁' m m',
      ({} : Session).read roundedRoots = .ok program s₀ ∧
      s₀.generate program = .ok entry s₁ ∧
      s₀.generate (Stmt.allWithoutFor program) = .ok entry' s₁' ∧
      EndsWith (fun fuel => Exec.execute s₁.job fuel entry s₁.machine) (.ok () m) ∧
      EndsWith (fun fuel => Exec.execute s₁'.job fuel entry' s₁'.machine) (.ok () m') ∧
      m'.placeless = m.placeless := by
  constructor
  · let s : Session := Action.final (({} : Session).enter 100 roundedRoot)
    let rs : List Region := ({} : Session).sealedByText roundedRoot
    let code := Layout.stmts s.machine.symbols false s.store.base rootLoopRestated
    let job' : Job := ⟨s.store.cells ++ code.toArray, s.limits⟩
    let run := Exec.through s.job 9 [rootLoop] 60 (s.inCall 28)
    have hs : Reachable rs s := (Reachable.fresh {}).step (.enter 100 roundedRoot) trivial
    have hfacts : (s.store.base = s.store.cells.size ∧ (s.inCall 28).returning = false ∧
          (s.machine.symbols.get 29).kind = .number ∧
          (s.machine.symbols.get 30).kind = .number) ∧
        Holds s.store.cells 0 (Layout.stmts s.machine.symbols false 0 [rootLoop]) ∧
        Holds job'.cells s.store.base code ∧
        Action.succeeds run ∧ (Action.final run).returning := by
      decide +kernel
    obtain ⟨⟨hbase, hcalled, hone, hstep⟩, hcode, hcode', hrun⟩ := hfacts
    have hunderway : s.Underway s.job job' (s.inCall 28) :=
      ⟨fun _ _ => rfl, fun i hi => Array.getElem?_append_left (hbase ▸ hi), rfl,
        SymbolTable.Advances.refl _, hcalled⟩
    have hw : rootLoop.WellFormed s.machine.symbols true :=
      ⟨⟨rfl, by decide, hone⟩, ⟨rfl, ⟨rfl, by decide⟩, ⟨rfl, by decide⟩⟩,
        ⟨rfl, by decide, rfl, ⟨rfl, by decide⟩, hstep⟩,
        ⟨⟨rfl, ⟨rfl, ⟨rfl, by decide⟩, ⟨rfl, by decide⟩⟩, ⟨rfl, by decide⟩⟩,
          ⟨rfl, rfl, by decide⟩, trivial⟩, trivial⟩
    obtain ⟨u, m, hm⟩ := Action.exists_of_succeeds hrun.1
    have hreturns : m.returning = true := by
      rw [hm] at hrun
      exact hrun.2
    have hends : EndsWith (fun fuel => Exec.through s.job 9 [rootLoop] fuel (s.inCall 28))
        (.ok () m) :=
      .ok hm
    obtain ⟨m', hm', hbehind⟩ :=
      ((forLoop_agrees hs).1 hunderway hw hcode hcode' 9).ok hends
    -- with a return under way the place is that of the caller, so the states are
    -- the same
    have hsame : m' = m := by
      rw [hbehind.other, if_pos hreturns]
    rw [hsame] at hm'
    exact ⟨rs, s, job', m, hs, hunderway, hw, hcode, hcode', hreturns, hends, hm'⟩
  · have hcompiles : (Action.succeeds (({} : Session).read roundedRoots) ∧
        (Action.final (({} : Session).read roundedRoots)).echo = false) ∧
        Action.succeeds (({} : Session).compile roundedRoots) ∧
        Action.succeeds ((read roundedRoots >>= fun program =>
          generate (Stmt.allWithoutFor program)) {}) ∧
        Action.succeeds (({} : Session).enter 300 roundedRoots) := by decide +kernel
    obtain ⟨hread, hcompile, hcompile', henter⟩ := hcompiles
    obtain ⟨program, s₀, hprogram⟩ := Action.exists_of_succeeds hread.1
    obtain ⟨entry, s₁, h⟩ := Action.exists_of_succeeds hcompile
    obtain ⟨entry', s₁', h'⟩ := Action.exists_of_succeeds hcompile'
    obtain ⟨m, hm⟩ := exists_endsWith_of_enter h henter
    have hgenerate : s₀.generate program = .ok entry s₁ :=
      (Action.bind_of_ok hprogram).symm.trans h
    have hgenerate' : s₀.generate (Stmt.allWithoutFor program) = .ok entry' s₁' :=
      (Action.bind_of_ok hprogram).symm.trans h'
    have hecho : s₀.echo = false := by
      rw [hprogram] at hread
      exact hread.2
    have hrestated : Restated s₀.echo program (Stmt.allWithoutFor program) :=
      hecho ▸ restated_withoutFor program
    obtain ⟨m', hm', hsame⟩ :=
      ((forLoop_agrees (Reachable.fresh {})).2 hprogram hrestated hgenerate hgenerate').ok
      hm
    exact ⟨program, s₀, entry, s₁, entry', s₁', m, m', hprogram, hgenerate, hgenerate',
      hm, hm', hsame⟩

end Session

end StackCalc
