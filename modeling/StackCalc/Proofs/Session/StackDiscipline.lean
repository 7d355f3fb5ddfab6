import StackCalc.Proofs.Session.History

/-!
# Stack discipline

What the code of a tree does to the operand stack and to the frames, said of the
machine alone. The code of an expression pushes one value. The code of a
statement leaves the stack as high as it was, and changes nothing in it but
arguments of the call at hand; or it returns from that call, and then the
arguments are gone and what the call owes is in their place. No such code fails
with a fault of its own making. `Session.code_keeps_discipline` says so of every
state of a run in which calls agree with what they call.

The proofs evaluate the tree in the world that the machine shows
(`Machine.world`); the arguments of the call at hand are those that lie below
the frame on top.
-/

namespace StackCalc

/-! ### The world of a machine -/

/-- The call that a frame belongs to, with its arguments as they lie on the
stack. -/
def Frame.activation (f : Frame) (S : Array Datum) : Activation :=
  ⟨f.symbol, (S.extract (f.height - f.count) f.height).toList.map Datum.value⟩

theorem Frame.seats_activation {f : Frame} {S : Array Datum} (hfits : f.count ≤ f.height)
    (hbelow : f.height ≤ S.size) : f.Seats (f.activation S) S := by
  refine ⟨rfl, ?_, hfits, hbelow, fun i hi => ?_⟩
  · rw [activation, List.length_map, Array.length_toList, Array.size_extract]
    omega
  · rw [activation, List.getElem?_map, Array.getElem?_toList, Array.getElem?_extract,
      if_pos (by omega)]

/-- The world that a machine shows in the middle of a run. -/
def Machine.world (m : Machine) : World :=
  ⟨m.symbols, m.console, m.frames.top?.map fun f => f.activation m.stack.items⟩

theorem Machine.calleeOf_world (m : Machine) {f : Frame} (hf : m.frames.top? = some f) :
    Eval.calleeOf m.world = some f.symbol := by
  rw [Eval.calleeOf, Machine.world, hf]
  rfl

/-- The arguments of the call at hand lie below the frame on top. -/
def Machine.Framed (m : Machine) : Prop :=
  ∃ f, m.frames.top? = some f ∧ f.count ≤ f.height ∧ f.height ≤ m.stack.size

/-- There is nothing on the stack above the frame on top. -/
def Machine.IsLevel (m : Machine) : Prop :=
  ∀ f, m.frames.top? = some f → m.stack.size = f.height

/-! ### How runs end -/

/-- The result of a run that has no fault of its own making: one that succeeds
meets `post`. -/
def Disciplined {σ : Type} (post : σ → Prop) : EStateM.Result Halt σ Unit → Prop
  | .ok _ m => post m
  | .error (.fault f) _ => f.IsProper
  | .error .outOfFuel _ => True

/-- What a failure leaves behind does not matter. -/
theorem Disciplined.error {σ τ : Type} {post : σ → Prop} {e : Halt} {m : σ}
    (h : Disciplined post (.error e m)) (post' : τ → Prop) (m' : τ) :
    Disciplined post' (.error e m') := by
  cases e <;> exact h

namespace Machine

/-- One plain value has been pushed by `n` cells. -/
structure HasPushed (n : Nat) (m m' : Machine) : Prop where
  stack : ∃ x, m'.stack.items = m.stack.items.push { value := x }
  frames : m'.frames = m.frames
  returning : m'.returning = false
  pc : m'.pc = m.pc + n

/-- The stack is as high as it was after `n` cells, with other arguments of the
call at hand at most. -/
structure HasPassed (n : Nat) (m m' : Machine) : Prop where
  stack : Alike m.frames.items m.stack.items m'.stack.items
  frames : m'.frames = m.frames
  returning : m'.returning = false
  pc : m'.pc = m.pc + n

/-- The call at hand has been left: its frame and its arguments are gone, a
function's value is in their place, and a return is under way. -/
structure HasReturned (m m' : Machine) : Prop where
  stack : ∃ f v, m.frames.top? = some f ∧ Eval.Owed (m.symbols.get f.symbol).kind v ∧
    m'.stack.items = withValue (m.stack.items.take (f.height - f.count)) v
  frames : m'.frames.items = m.frames.items.pop
  returning : m'.returning = true

/-- The call whose `n` arguments lay on top has been made: what it owes is in
their place. -/
structure HasCalled (id n : Nat) (m m' : Machine) : Prop where
  stack : ∃ v, Eval.Owed (m.symbols.get id).kind v ∧
    m'.stack.items = withValue (m.stack.items.take (m.stack.size - n)) v
  frames : m'.frames = m.frames
  returning : m'.returning = false
  pc : m'.pc = m.pc + 3

end Machine

/-- A run that tracks an evaluation has no fault of its own making, unless that
is unbalanced. -/
theorem Tracks.disciplined {α : Type} {quiet : Bool}
    {mid : α → World → Unit → Machine → Prop} {x : EStateM.Result Abort World α}
    {y : EStateM.Result Halt Machine Unit} {post : Machine → Prop}
    (h : Tracks quiet mid x y) (hx : ∀ w, x ≠ .error .unbalanced w)
    (hpost : ∀ {a w m}, x = .ok a w → mid a w () m → post m) : Disciplined post y := by
  rcases h.cases with ⟨w, hw⟩ | ⟨a, w, _, m, hx', rfl, hp⟩ | ⟨f, m, rfl, he⟩ |
    ⟨f, w, m, -, rfl, hp, -, -⟩ | ⟨w, m, -, rfl⟩
  · exact absurd hw (hx w)
  · exact hpost hx' hp
  · exact he.isProper
  · exact hp
  · trivial

/-- Runs that have fewer rounds keep the discipline that those with more keep. -/
theorem Disciplined.of_approx {post : Machine → Prop} {x y : Exec Unit} {m : Machine}
    (h : Disciplined post (y m)) (hxy : Action.Approx .outOfFuel x y) :
    Disciplined post (x m) := by
  rcases hxy m with ⟨m', hm'⟩ | hsame
  · rw [hm']
    trivial
  · rw [hsame]
    exact h

/-- More rounds change only runs that run out of them. -/
theorem Exec.advance_mono {job : Job} {fuel fuel' : Nat} (hf : fuel ≤ fuel')
    (depth n : Nat) :
    Action.Approx .outOfFuel (advance job (exec job fuel depth) fuel n)
      (advance job (exec job fuel' depth) fuel' n) := by
  induction n with
  | zero => exact Action.Approx.refl _
  | succ n ih => exact (approx_cell (exec_mono hf depth) hf).bind fun _ => ih

/-- It is enough to look at runs that have rounds for every cell of the code. -/
theorem Disciplined.of_ample {post : Machine → Prop} {job : Job} {m : Machine}
    {fuel depth n : Nat} (h : ∀ {fuel'}, job.cells.size + 2 ≤ fuel' →
      Disciplined post (Exec.advance job (Exec.exec job fuel' depth) fuel' n m)) :
    Disciplined post (Exec.advance job (Exec.exec job fuel depth) fuel n m) :=
  .of_approx (h (Nat.le_add_left _ fuel))
    (Exec.advance_mono (Nat.le_add_right _ _) depth n)

/-! ### Code in the middle of a run -/

/-- A machine in the middle of a run: its code has the sealed cells of a
session, its symbols advanced from those of the session, and the calls in the
bodies at hand agree with what they call. -/
structure Session.Midway (ds : Definitions) (s : Session) (job : Job) (m : Machine) :
    Prop where
  cells : ∀ i < s.store.base, job.cells[i]? = s.store.cells[i]?
  advances : s.machine.symbols.Advances m.symbols
  agreement : Agreement ds m.symbols
  returning : m.returning = false

namespace Session.Midway

variable {ds : Definitions} {s : Session} {job : Job} {m : Machine} {fuel depth : Nat}
  (hs : s.Lawful ds) (h : s.Midway ds job m)

include hs h

theorem sound : m.symbols.Sound :=
  h.advances.sound hs.sound

theorem linked : Linked ds m.symbols job.cells s.store.base :=
  hs.linked.mono h.advances h.cells

theorem follows : m.world.Follows m.symbols (Eval.calleeOf m.world) :=
  ⟨h.sound hs, SymbolTable.Runs.refl _, rfl⟩

omit hs in
/-- The machine shows its world. -/
theorem shows :
    m.world.machine ⟨m.interrupted, m.alarm⟩ m.stack.items m.frames.items m.pc false =
      m := by
  rw [← h.returning]
  rfl

theorem ready {inDefinition : Bool} (hframed : inDefinition = true → m.Framed) :
    Ready false inDefinition m.symbols m.world ⟨m.interrupted, m.alarm⟩ m.stack.items
      m.frames.items where
  calm := nofun
  fits := ⟨h.sound hs, SymbolTable.Advances.refl _⟩
  situated hd := by
    obtain ⟨f, hf, hfits, hbelow⟩ := hframed hd
    exact ⟨f.activation m.stack.items, f, congrArg (Option.map _) hf, hf,
      Frame.seats_activation hfits hbelow⟩

/-- Bodies are entered as the evaluation enters them. -/
theorem enters (hfuel : job.cells.size + 2 ≤ fuel) (depth : Nat) :
    Enters false job m.symbols (Exec.exec job fuel depth)
      (Eval.invoke ds fuel (depth + 1)) fuel :=
  (h.linked hs).enters hfuel (Nat.le_succ depth)

/-- And calls are made as it makes them. -/
theorem calls (hfuel : job.cells.size + 2 ≤ fuel) (depth : Nat) :
    Calls false job m.symbols (Exec.exec job fuel depth)
      (Eval.invoke ds fuel (depth + 1)) :=
  (h.linked hs).calls ((h.linked hs).enters hfuel (Nat.le_refl depth))

/-- The code of an expression pushes a value. -/
theorem expr {e : Expr} {inDefinition : Bool} (he : e.WellFormed m.symbols inDefinition)
    (ha : e.agrees m.symbols) (hframed : inDefinition = true → m.Framed)
    (hcode : Holds job.cells m.pc (Layout.expr m.symbols e)) :
    Disciplined (m.HasPushed e.size)
      (Exec.advance job (Exec.exec job fuel depth) fuel e.steps m) := by
  -- with enough rounds the code tracks the evaluation, and that is not broken off
  refine .of_ample fun {fuel} hfuel => ?_
  have htracks := (@Exec.tracks_expr job _ fuel _ _ _ (h.calls hs hfuel depth)) e he hcode
    (h.ready hs hframed)
  have hbalanced : Eval.Balanced _ (Eval.calleeOf m.world) _ _ :=
    Eval.balanced_expr (Eval.balanced_invoke h.agreement fuel (depth + 1)) e ha
  rw [h.shows] at htracks
  refine htracks.disciplined (hbalanced.ne_unbalanced (h.follows hs)) ?_
  rintro x w _ - ⟨σ, -, rfl⟩
  exact ⟨⟨x, rfl⟩, rfl, rfl, rfl⟩

/-- The code of a statement passes, or returns from the call at hand. -/
theorem stmt {st : Stmt} {echo inDefinition : Bool}
    (hst : st.WellFormed m.symbols inDefinition) (ha : st.agrees m.symbols)
    (hframed : inDefinition = true → m.Framed ∧ m.IsLevel)
    (hcode : Holds job.cells m.pc (Layout.stmt m.symbols echo m.pc st)) :
    Disciplined (fun m' => m.HasPassed st.size m' ∨ m.HasReturned m')
      (Exec.advance job (Exec.exec job fuel depth) fuel st.steps m) := by
  refine .of_ample fun {fuel} hfuel => ?_
  have htracks := Exec.tracks_stmt (h.calls hs hfuel depth)
    (h.enters hs hfuel depth) hst hcode
    ⟨h.ready hs fun hd => (hframed hd).1, fun hd => (hframed hd).2⟩
  -- statements whose calls agree are balanced, and return what the callee owes
  have hbalanced : Eval.Balanced _ (Eval.calleeOf m.world) _ _ :=
    Eval.balanced_stmt (Eval.balanced_invoke h.agreement fuel (depth + 1))
      h.agreement.plain echo fuel st ha
  rw [h.shows] at htracks
  refine htracks.disciplined (hbalanced.ne_unbalanced (h.follows hs))
    fun {flow w m'} hflow hm' => ?_
  have hsettles := hbalanced.of_ok (h.follows hs) hflow
  cases flow with
  | next =>
    obtain ⟨S, ⟨σ, -, rfl⟩, hS, -⟩ := hm'
    exact .inl ⟨hS, rfl, rfl, rfl⟩
  | back v =>
    obtain ⟨f, hf, σ, -, rfl⟩ := hm'
    obtain ⟨id, hid, howed⟩ := hsettles
    -- what is owed is owed by the callee of the frame on top
    obtain rfl : f.symbol = id := Option.some.inj ((m.calleeOf_world hf).symm.trans hid)
    exact .inr ⟨⟨f, v, hf, howed, rfl⟩, rfl, rfl⟩

/-- A call leaves what it owes in the place of its arguments, and goes on behind
its operands. -/
theorem call {id : Nat} {xs : List Float} {S : Array Datum}
    (hstack : m.stack.items = S ++ (xs.map Datum.ofValue).toArray)
    (hcode : Holds job.cells m.pc [.op (.control .call), .symbol id, .count xs.length]) :
    Disciplined (m.HasCalled id xs.length)
      (Exec.advance job (Exec.exec job fuel depth) fuel 1 m) := by
  refine .of_ample fun {fuel} hfuel => ?_
  obtain ⟨hop, hsymbol, hcount, -⟩ := hcode
  have hready : Ready false false _ _ _ _ _ := h.ready hs nofun
  have htracks : Tracks false
      (fun v w _ m' => w.Shown false (withValue S v) m.frames.items (m.pc + 3) false m')
      (Eval.invoke ds fuel (depth + 1) id xs m.world)
      (Exec.advance job (Exec.exec job fuel depth) fuel 1
        (m.world.machine ⟨m.interrupted, m.alarm⟩ (S ++ (xs.map Datum.ofValue).toArray)
          m.frames.items m.pc false)) :=
    Exec.tracks_op hready.calm hop
      ((h.calls hs hfuel depth).tracks hready.calm hready.fits hsymbol hcount)
  have hbalanced := Eval.balanced_invoke h.agreement fuel (depth + 1)
    (Eval.calleeOf m.world) id xs
  rw [← hstack, h.shows] at htracks
  refine htracks.disciplined (hbalanced.ne_unbalanced (h.follows hs))
    fun {v w m'} hv hm' => ?_
  -- what the call owes lies on the operands below its arguments
  obtain ⟨σ, -, rfl⟩ := hm'
  refine ⟨⟨v, hbalanced.of_ok (h.follows hs) hv, ?_⟩, rfl, rfl, rfl⟩
  show withValue S v = withValue (m.stack.items.take (m.stack.items.size - xs.length)) v
  rw [take_arguments hstack]

end Session.Midway

/-! ### Whole programs -/

namespace Session

/-- Nothing is left on the stacks. -/
def IsIdle (s : Session) : Prop :=
  s.machine.stack.items = #[] ∧ s.machine.frames.items = #[]

variable {ds : Definitions} {s : Session}

/-- A program whose evaluation is not broken off as unbalanced has no fault of
its own making, and leaves nothing on the stacks if it succeeds. -/
theorem Loaded.disciplined {program : List Stmt} {entry : Nat}
    (h : s.Loaded ds program entry)
    (hbalanced : ∀ rounds w, Eval.program ds s.echo rounds program s.world ≠
      .error .unbalanced w)
    (fuel : Nat) : Disciplined IsIdle (s.execute fuel entry) := by
  -- rounds that suffice for the comparison with the evaluation; fewer change nothing
  -- but to run out
  let ample := fuel + (s.store.cells.size + 2) + s.limits.depth
  have hquiet : false = true → s.machine.alarm = none := nofun
  have htracks := h.tracks hquiet (show s.store.cells.size + 2 ≤ ample by omega)
    (show s.limits.depth ≤ ample by omega)
  have hample := htracks.disciplined (hbalanced ample) fun _ hdone => hdone.2.2
  have hrun := hample.of_approx (Exec.execute_mono (show fuel ≤ ample by omega) entry)
  unfold Session.execute
  cases hresult : Exec.execute s.job fuel entry s.machine with
  | ok u m =>
    rw [hresult] at hrun
    exact hrun
  | error e m =>
    rw [hresult] at hrun
    exact hrun.error IsIdle _

end Session

/-- The code that starts where a machine stands keeps the discipline of the
stacks, whatever tree it is the code of. -/
structure Machine.KeepsDiscipline (job : Job) (fuel depth : Nat) (m : Machine) :
    Prop where
  expr : ∀ {e inDefinition}, Expr.WellFormed m.symbols inDefinition e →
    e.agrees m.symbols →
    (inDefinition = true → m.Framed) → Holds job.cells m.pc (Layout.expr m.symbols e) →
    Disciplined (m.HasPushed e.size)
      (Exec.advance job (Exec.exec job fuel depth) fuel e.steps m)
  stmt : ∀ {st echo inDefinition}, Stmt.WellFormed m.symbols inDefinition st →
    st.agrees m.symbols →
    (inDefinition = true → m.Framed ∧ m.IsLevel) →
    Holds job.cells m.pc (Layout.stmt m.symbols echo m.pc st) →
    Disciplined (fun m' => m.HasPassed st.size m' ∨ m.HasReturned m')
      (Exec.advance job (Exec.exec job fuel depth) fuel st.steps m)
  call : ∀ {id S} {xs : List Float}, m.stack.items = S ++ (xs.map Datum.ofValue).toArray →
    Holds job.cells m.pc [.op (.control .call), .symbol id, .count xs.length] →
    Disciplined (m.HasCalled id xs.length)
      (Exec.advance job (Exec.exec job fuel depth) fuel 1 m)

namespace Session

/-- In every session that can be reached, code whose calls agree with what they
call keeps the discipline of the stacks: that of every well-formed tree wherever
a run has come to, and that of every program as a whole. The trees that a source
text is read as are well-formed (`parse_wellFormed`). -/
theorem code_keeps_discipline {ds : Definitions} {s : Session} (hs : Reaches ds s) :
    (∀ {job m}, s.Midway ds job m → ∀ fuel depth, m.KeepsDiscipline job fuel depth) ∧
    ∀ {source entry s'}, s.compile source = .ok entry s' →
      Agreement (s.definitionsAfter ds source) s'.machine.symbols →
      Stmt.allAgree s'.machine.symbols (mainPart (s.programOf source)) →
      ∀ fuel, Disciplined IsIdle (s'.execute fuel entry) := by
  constructor
  · intro job m h fuel depth
    exact ⟨h.expr hs.lawful, h.stmt hs.lawful, h.call hs.lawful⟩
  · intro source entry s' hcompile hbodies hprogram fuel
    have hloaded := hs.lawful.compile source
    rw [hcompile] at hloaded
    refine hloaded.1.disciplined (fun rounds => ?_) fuel
    exact Eval.program_ne_unbalanced hbodies hloaded.1.lawful.sound s'.echo
      rounds hprogram

/-- A text that defines a function with a return under a condition. -/
def larger : String :=
  "func larger() \x7b if ($1 > $2) return $1\n return $2 \x7d"

/-- A text that calls the function. -/
def callOfLarger : String :=
  "print 1 + larger(3, 2)"

/-- The first statement of the function's body. -/
def returnIfLarger : Stmt :=
  .ifThen (.binary .greater (.arg 1) (.arg 2)) [.returnValue (.arg 1)]

/-- A session's machine in a call of the symbol `id` with two arguments, about
to run the first cell. -/
def inCall (id : Nat) (s : Session) : Machine :=
  { s.machine with
    stack := ⟨#[.ofValue 1, .ofValue 3, .ofValue 2]⟩
    frames := ⟨#[⟨id, 2, 0, 3⟩]⟩
    pc := 0 }

/-- The condition is run in a call, and returns from it; the program that makes
the call leaves nothing on the stacks. -/
theorem code_keeps_discipline_larger :
    ∃ ds s id m, Reaches ds s ∧ s.Midway ds s.job (s.inCall id) ∧
      returnIfLarger.WellFormed s.machine.symbols true ∧
      returnIfLarger.agrees s.machine.symbols ∧
      (s.inCall id).Framed ∧ (s.inCall id).IsLevel ∧
      Holds s.store.cells 0 (Layout.stmt s.machine.symbols false 0 returnIfLarger) ∧
      Exec.advance s.job (Exec.exec s.job 9 9) 9 returnIfLarger.steps (s.inCall id) =
        .ok () m ∧
      (s.inCall id).HasReturned m ∧
      ∃ entry s', s.compile callOfLarger = .ok entry s' ∧
        Agreement (s.definitionsAfter ds callOfLarger) s'.machine.symbols ∧
        Stmt.allAgree s'.machine.symbols (mainPart (s.programOf callOfLarger)) ∧
        Action.succeeds (s'.execute 100 entry) ∧
        Disciplined IsIdle (s'.execute 100 entry) := by
  let s : Session := Action.final (({} : Session).enter 100 larger)
  let ds : Definitions := ({} : Session).definitionsAfter [] larger
  let m : Machine := s.inCall 28
  let run := Exec.advance s.job (Exec.exec s.job 9 9) 9 returnIfLarger.steps m
  have hs : Reaches ds s := (Reaches.fresh {} false).enter 100 larger
  -- all that is computed is computed at once, from one evaluation of the session
  have hfacts : ((decide s.machine.symbols.Plain ∧
        ds.all (fun d => Stmt.allAgree s.machine.symbols d.2.body)) ∧
          m.returning = false) ∧
      Holds s.store.cells 0 (Layout.stmt s.machine.symbols false 0 returnIfLarger) ∧
      (Action.succeeds run ∧ (Action.final run).returning) ∧
      s.compilesInAgreement ds callOfLarger ∧
      Action.succeeds (s.enter 100 callOfLarger) := by
    decide +kernel
  obtain ⟨⟨hds, hcalled⟩, hcode, hrun, hagree, henter⟩ := hfacts
  have hmidway : s.Midway ds s.job m :=
    ⟨fun _ _ => rfl, SymbolTable.Advances.refl _,
      Agreement.of_all (of_decide_eq_true hds.1) (List.all_eq_true.mp hds.2), hcalled⟩
  have hw : returnIfLarger.WellFormed s.machine.symbols true :=
    ⟨⟨rfl, ⟨rfl, by decide⟩, ⟨rfl, by decide⟩⟩, ⟨rfl, rfl, by decide⟩, trivial⟩
  have hframed : m.Framed := ⟨⟨28, 2, 0, 3⟩, rfl, by decide, by decide⟩
  have hlevel : m.IsLevel := by
    rintro _ ⟨⟩
    rfl
  obtain ⟨hcodes, hprograms⟩ := code_keeps_discipline hs
  have hstmt := (hcodes hmidway 9 9).stmt hw rfl (fun _ => ⟨hframed, hlevel⟩) hcode
  obtain ⟨u, m', hm'⟩ := Action.exists_of_succeeds hrun.1
  have hreturns : m'.returning = true := by
    rw [hm'] at hrun
    exact hrun.2
  have hreturned : m.HasReturned m' := by
    have hends : Disciplined _ run := hstmt
    rw [hm'] at hends
    rcases hends with hpassed | hreturned
    · exact absurd (hpassed.returning.symm.trans hreturns) Bool.false_ne_true
    · exact hreturned
  obtain ⟨entry, s', hcompile, hbodies, hprogram⟩ := exists_of_compilesInAgreement hagree
  exact ⟨ds, s, 28, m', hs, hmidway, hw, rfl, hframed, hlevel, hcode, hm',
    hreturned, entry, s', hcompile, hbodies, hprogram, succeeds_execute hcompile henter,
    hprograms hcompile hbodies hprogram 100⟩

end Session

end StackCalc
