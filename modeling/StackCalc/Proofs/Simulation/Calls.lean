import StackCalc.Proofs.Simulation.Control

/-!
# Calls and whole runs that track their evaluation

The code of a session is linked if every name leads to the code of its latest
definition (`Linked`). A call of linked code pushes a frame, under which its
arguments lie, and runs the body one level further in; so it tracks the
evaluation of the call if entering a body does (`Linked.calls`).

`Linked.enters` ties the knot, by induction on the levels of nesting that are
left: with none left the run exceeds a limit, and a stretch at one more level is
followed cell by cell. `Linked.tracks_execute` is the result for the main code
of a program.
-/

namespace StackCalc

/-! ### Linked code -/

/-- A name that leads to the code of its latest definition, or to none if it has
no definition. The code lies below `base`. -/
inductive Link (ds : Definitions) (t : SymbolTable) (cells : Array Cell)
    (base id : Nat) : Prop
  | absent (hcode : (t.get id).code = none) (hdefinition : ds.lookup id = none)
  | present {a : Nat} {d : Definition} (hcode : (t.get id).code = some a)
    (hdefinition : ds.lookup id = some d) (hbody : Stmt.AllWellFormed t true d.body)
    (hcells : Holds cells a (Layout.body t d.echo a d.body))
    (hbelow : a + (Stmt.sizes d.body + 2) ≤ base)

/-- Every name leads to the code of its latest definition. -/
def Linked (ds : Definitions) (t : SymbolTable) (cells : Array Cell)
    (base : Nat) : Prop :=
  ∀ id, Link ds t cells base id

/-! ### Making a call -/

/-- At the start of a call its arguments lie below its frame. -/
theorem Frame.seats_start (id resume : Nat) (xs : List Float) {S S' : Array Datum}
    (hS : S' = S ++ (xs.map Datum.ofValue).toArray) :
    Frame.Seats ⟨id, xs.length, resume, S'.size⟩ ⟨id, xs⟩ S' := by
  have hsize : S'.size = S.size + xs.length := by simp [hS]
  refine ⟨rfl, rfl, by dsimp only; omega, Nat.le_refl _, fun i hi => ?_⟩
  have hplace : S'.size - xs.length + i = S.size + i := by omega
  dsimp only at hi ⊢
  rw [hplace, hS, Array.getElem?_append_right (by omega)]
  simp [Datum.ofValue, Function.comp_def]

/-- Evaluating inside a call, of which the run's result says what follows
outside. -/
theorem Tracks.within {α β : Type} {quiet : Bool}
    {post post' : α → World → β → Machine → Prop} {c : Activation} {x : Eval α}
    {w : World} {y : EStateM.Result Halt Machine β}
    (h : Tracks quiet post (x { w with call := some c }) y)
    (hpost : ∀ {a w' b m}, post a w' b m → post' a { w' with call := w.call } b m) :
    Tracks quiet post' (Eval.within c x w) y := by
  unfold Eval.within
  rcases h.cases with ⟨w', hx⟩ | ⟨a, w', b, m, hx, rfl, hp⟩ | ⟨f, m, rfl, he⟩ |
    ⟨f, w', m, hx, rfl, hp, hs, hc⟩ | ⟨w', m, hx, rfl⟩
  · rw [hx]
    exact unbalanced _ y
  · rw [hx]
    exact ok (hpost hp)
  · exact excused he _ m
  · rw [hx]
    exact fault hp hs hc
  · rw [hx]
    exact outOfFuel _ m

namespace Exec

variable {job : Job} {enter : Nat → Exec Unit} {quiet : Bool}
  {t : SymbolTable} {w : World} {σ : Signals} {S : Array Datum}
  {F : Array Frame} {a : Nat}

/-- What making a call does. -/
theorem call_apply {id n : Nat} (hsymbol : job.cells[a]? = some (.symbol id))
    (hcount : job.cells[a + 1]? = some (.count n)) (hn : n ≤ S.size) :
    call job enter (w.machine σ S F a false) =
      if Stack.isFull job.limits.frames ⟨F⟩ then
        failAbout .callNestedTooDeeply id (w.machine σ S F (a + 2) false)
      else
        match (w.symbols.get id).code with
        | none => failAbout .undefinedFunction id (w.machine σ S F (a + 2) false)
        | some b =>
          (enter b >>= fun _ => modify fun m => { m with returning := false })
            (w.machine σ S (F.push ⟨id, n, a + 2, S.size⟩) (a + 2) false) := by
  rw [call, Action.bind_of_ok (symbolOperand_apply hsymbol),
    Action.bind_of_ok (countOperand_apply hcount)]
  -- the frames are checked first, then the symbol, then the operands
  by_cases hfull : Stack.isFull job.limits.frames (⟨F⟩ : Stack Frame) = true
  · rw [if_pos hfull]
    show (if Stack.isFull job.limits.frames ⟨F⟩ then failAbout .callNestedTooDeeply id
      else _ : Exec Unit) _ = _
    rw [if_pos hfull]
  · rw [if_neg hfull]
    show (if Stack.isFull job.limits.frames ⟨F⟩ then failAbout .callNestedTooDeeply id
      else _ : Exec Unit) _ = _
    rw [if_neg hfull]
    show (match (w.symbols.get id).code with
      | none => failAbout .undefinedFunction id
      | some b => _ : Exec Unit) _ = _
    cases (w.symbols.get id).code with
    | none => rfl
    | some b =>
      have hpush : onFrames (Stack.push job.limits.frames .callNestedTooDeeply
          ⟨id, n, a + 2, S.size⟩) (w.machine σ S F (a + 2) false) =
          .ok () (w.machine σ S (F.push ⟨id, n, a + 2, S.size⟩) (a + 2) false) :=
        onFrames_of_ok (if_neg hfull)
      show (if S.size < n then fail .stackUnderflow else _ : Exec Unit) _ = _
      rw [if_neg (by omega)]
      exact Action.bind_of_ok hpush

end Exec

/-- Below its arguments a call finds the stack as it was before them. -/
theorem take_arguments {S S' : Array Datum} {xs : List Float}
    (hS : S' = S ++ (xs.map Datum.ofValue).toArray) :
    S'.take (S'.size - xs.length) = S := by
  simp [hS]

/-- A call that has returned leaves its value where its arguments lay. -/
theorem Returned.shown {quiet : Bool} {w : World} {S S' : Array Datum} {F : Array Frame}
    {id resume : Nat} {xs : List Float} {v : Option Float} {m : Machine}
    (hS : S' = S ++ (xs.map Datum.ofValue).toArray)
    (h : Returned quiet S' (F.push ⟨id, xs.length, resume, S'.size⟩) v w m) :
    w.Shown quiet (withValue S v) F resume true m := by
  obtain ⟨f, hf, hm⟩ := h
  rw [Array.back?_push] at hf
  cases hf
  rwa [take_arguments hS, Array.pop_push] at hm

section

variable {ds : Definitions} {t : SymbolTable} {job : Job} {base : Nat} {quiet : Bool}

/-- A call of linked code tracks its evaluation, if entering a body does. -/
theorem Linked.calls (hlinked : Linked ds t job.cells base) {enter : Nat → Exec Unit}
    {rounds calls : Nat}
    (henters : Enters quiet job t enter (Eval.invoke ds rounds calls) rounds) :
    Calls quiet job t enter (Eval.invoke ds rounds (calls + 1)) where
  behaves := Eval.behaves_invoke ds rounds (calls + 1)
  restores := Eval.restores_invoke ds rounds (calls + 1)
  tracks {id xs w σ S F a} hσ hfits hsymbol hcount := by
    generalize hS : S ++ (xs.map Datum.ofValue).toArray = S'
    rw [Exec.call_apply hsymbol hcount (by simp [← hS])]
    split
    · exact Tracks.excused (.inl (.inr (.inl rfl))) _ _
    · rw [hfits.advances.sameCode id, Eval.invoke]
      -- a name without a definition has no code, and the fault names it on both
      -- sides
      cases hlinked id with
      | absent hcode hdefinition =>
        rw [hcode, hdefinition]
        exact Exec.tracks_failAbout id (by decide)
      | present hcode hdefinition hbody hcells _ =>
        rw [hcode, hdefinition]
        have hpoised : Poised quiet true t { w with call := some ⟨id, xs⟩ } σ S'
            (F.push ⟨id, xs.length, a + 2, S'.size⟩) := by
          refine ⟨⟨hσ, ⟨hfits.sound, hfits.advances⟩, fun _ => ?_⟩, fun _ f hf => ?_⟩
          · exact ⟨_, _, rfl, Array.back?_push, Frame.seats_start id (a + 2) xs hS.symm⟩
          · rw [Array.back?_push] at hf
            cases hf
            rfl
        refine Tracks.bind_right (?_ : Tracks quiet
          (fun v w' _ m' => w'.Shown quiet (withValue S v) F (a + 2) true m') _ _) ?_
        · exact (henters.body hbody hcells hpoised).within fun hp =>
            Returned.shown hS.symm hp
        · rintro v w' _ _ - ⟨σ', hσ', rfl⟩
          exact Tracks.ok ⟨σ', hσ', rfl⟩

/-! ### Levels of nesting -/

/-- Where a stretch ends that shows a world at a stop. -/
theorem World.Shown.ends {w : World} {S : Array Datum} {F : Array Frame}
    {pc : Nat} {m : Machine} {cells : Array Cell} (h : w.Shown quiet S F pc false m)
    (hstop : cells[pc]? = some .stop) :
    Exec.Ends cells quiet m := by
  obtain ⟨σ, hσ, rfl⟩ := h
  exact .inr ⟨rfl, hstop, fun hq => (hσ hq).1⟩

/-- A stretch also ends with a return under way. -/
theorem Returned.ends {w : World} {S : Array Datum} {F : Array Frame}
    {v : Option Float} {m : Machine} {cells : Array Cell} (h : Returned quiet S F v w m) :
    Exec.Ends cells quiet m := by
  obtain ⟨f, -, σ, -, rfl⟩ := h
  exact .inl rfl

/-- So the code of statements ends in one of the two ways. -/
theorem Finished.ends {inDefinition : Bool} {w : World} {S : Array Datum}
    {F : Array Frame} {pc : Nat} {flow : Flow} {u : Unit} {m : Machine}
    {cells : Array Cell} (h : Finished quiet inDefinition S F pc flow w u m)
    (hstop : cells[pc]? = some .stop) :
    Exec.Ends cells quiet m := by
  cases flow with
  | next =>
    obtain ⟨S', hm, -⟩ := h
    exact hm.ends hstop
  | back v => exact Returned.ends h

/-- With no level left, every run exceeds a limit. -/
theorem enters_zero {fuel rounds : Nat}
    {invoke : Nat → List Float → Eval (Option Float)} :
    Enters quiet job t (Exec.exec job fuel 0) invoke rounds where
  expr _ _ _ _ := Tracks.excused (.inl (.inr (.inr rfl))) _ _
  clause _ _ _ _ := Tracks.excused (.inl (.inr (.inr rfl))) _ _
  stmts _ _ _ _ := Tracks.excused (.inl (.inr (.inr rfl))) _ _
  body _ _ _ := Tracks.excused (.inl (.inr (.inr rfl))) _ _

/-- One level more. -/
theorem Enters.succ {fuel depth : Nat} {invoke : Nat → List Float → Eval (Option Float)}
    (hfuel : job.cells.size + 2 ≤ fuel)
    (hcalls : Calls quiet job t (Exec.exec job fuel depth) invoke)
    (henters : Enters quiet job t (Exec.exec job fuel depth) invoke fuel) :
    Enters quiet job t (Exec.exec job fuel (depth + 1)) invoke fuel where
  expr {e _ _ _ _ _ _ _ _} he hlead hcode h := by
    -- a stretch has no more cells than the store, so the rounds suffice for it
    have hlength := hcode.length_le_size
    rw [List.length_append, Layout.length_expr] at hlength
    rw [holds_append, Layout.length_expr] at hcode
    have hsteps := e.steps_le_size
    exact Exec.tracks_exec h.calm (by omega) hlead
      (Exec.tracks_expr hcalls e he hcode.1 h) fun hp => hp.ends hcode.2.1
  clause {s _ _ _ _ _ _ _ _} hs hlead hcode h := by
    have hlength := hcode.length_le_size
    rw [List.length_append, Layout.length_clause] at hlength
    rw [holds_append, Layout.length_clause] at hcode
    have hsteps := s.clauseSteps_le_clauseSize
    exact Exec.tracks_exec h.calm (by omega) hlead
      (Exec.tracks_clause hcalls hs hcode.1 h) fun ⟨_, hm, _⟩ => hm.ends hcode.2.1
  stmts {ss _ _ _ _ _ _ _ _ _} hss hlead hcode h := by
    have hlength := hcode.length_le_size
    rw [List.length_append, Layout.length_stmts] at hlength
    rw [holds_append, Layout.length_stmts] at hcode
    have hsteps := Stmt.stepsAll_le_sizes ss
    exact Exec.tracks_exec h.calm (by omega) hlead
      (Exec.tracks_stmts hcalls henters hss hcode.1 h) fun hp => hp.ends hcode.2.1
  body {ss _ _ _ _ _ _ _} hss hcode h := by
    have hlength := hcode.length_le_size
    rw [Layout.length_body] at hlength
    have hsteps := Stmt.stepsAll_le_sizes ss
    exact Exec.tracks_exec h.calm (by omega) (.inl rfl)
      (Exec.tracks_body hcalls henters hss hcode h) fun hp => hp.ends

/-- Entering a stretch of linked code tracks the evaluation of what it was
generated from, at every level of nesting. Calls may nest as deeply as stretches
do. -/
theorem Linked.enters (hlinked : Linked ds t job.cells base) {fuel : Nat}
    (hfuel : job.cells.size + 2 ≤ fuel) {depth calls : Nat} (hdepth : depth ≤ calls) :
    Enters quiet job t (Exec.exec job fuel depth) (Eval.invoke ds fuel calls) fuel := by
  -- a stretch is run with one level less below it, and its calls with one call less
  induction depth generalizing calls with
  | zero => exact enters_zero
  | succ depth ih =>
    obtain ⟨calls, rfl⟩ : ∃ n, calls = n + 1 := ⟨calls - 1, by omega⟩
    exact .succ hfuel (hlinked.calls (ih (by omega))) (ih (by omega))

/-! ### Whole runs -/

/-- A run that is done shows the world that the evaluation reached, and both
stacks are empty. -/
def Done (w : World) (m : Machine) : Prop :=
  m.symbols = w.symbols ∧ m.console = w.console ∧ m.stack.items = #[] ∧
  m.frames.items = #[]

/-- The main code of a program tracks the evaluation of the program. -/
theorem Linked.tracks_execute (hlinked : Linked ds t job.cells base) {fuel : Nat}
    (hfuel : job.cells.size + 2 ≤ fuel) (hdepth : job.limits.depth ≤ fuel)
    {program : List Stmt} (hprogram : Stmt.AllWellFormed t false (topLevel program))
    {echo : Bool} {entry : Nat}
    (hcode : Holds job.cells entry (Layout.main t echo entry program)) {m : Machine}
    (hfits : World.Fits ⟨m.symbols, m.console, none⟩ t)
    (halarm : quiet = true → m.alarm = none) :
    Tracks quiet (fun _ w' _ m' => Done w' m')
      (Eval.program ds echo fuel program ⟨m.symbols, m.console, none⟩)
      (Exec.execute job fuel entry m) := by
  have hpoised : Poised quiet false t ⟨m.symbols, m.console, none⟩
      ⟨false, m.alarm⟩ #[] #[] :=
    ⟨⟨fun hq => ⟨rfl, halarm hq⟩, hfits, nofun⟩, nofun⟩
  show Tracks quiet _ (Eval.program ds echo fuel program _)
    (Exec.exec job fuel job.limits.depth entry
      (World.machine ⟨m.symbols, m.console, none⟩ ⟨false, m.alarm⟩ #[] #[] entry false))
  rw [← mainPart_eq] at hprogram
  refine Tracks.bind_left
    ((hlinked.enters hfuel hdepth).stmts hprogram (.inl rfl) hcode hpoised) ?_
  intro flow w' _ m' _ hfin
  cases flow with
  | next =>
    obtain ⟨S', ⟨σ', -, rfl⟩, hS, -⟩ := hfin
    exact Tracks.ok ⟨rfl, rfl, Array.size_eq_zero_iff.mp hS.size, rfl⟩
  -- there is no frame to return from
  | back v =>
    obtain ⟨f, hf, -⟩ := hfin
    exact nomatch hf

end

end StackCalc
