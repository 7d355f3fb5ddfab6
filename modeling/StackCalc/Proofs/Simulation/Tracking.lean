import StackCalc.Proofs.Code.Layout
import StackCalc.Proofs.Evaluation.Behaviour
import StackCalc.Proofs.Machine.Running

/-!
# Machines that track evaluations

How a run of code and the evaluation of the tree it was generated from are
compared. A world is shown by the machine that has its symbols and its console
(`World.machine`); what else the machine has, its stacks, its place in the code
and its signals, is no part of the world.

`Tracks quiet post x y` compares the result `x` of an evaluation with the result
`y` of a run. The run may fail because it exceeds a limit, or because it is
interrupted unless `quiet`. Otherwise it ends as the evaluation does: both fail
with the same fault in the same world, both have used up their rounds, or both
are done and `post` holds. Of an evaluation that is broken off as unbalanced
nothing is said.

Code is run cell by cell; `Exec.advance` runs a given number of cells and
`Exec.dispatch_advance` says how that adds up to a stretch.
-/

namespace StackCalc

/-! ### Faults -/

namespace Fault

/-- The fault of a run that exceeds a limit. -/
def IsLimit (f : Fault) : Prop :=
  f.kind = .stackOverflow ∨ f.kind = .callNestedTooDeeply ∨ f.kind = .nestedTooDeeply

/-- A fault that a program may have; the others are faults of the code itself. -/
def IsProper (f : Fault) : Prop :=
  f.kind ≠ .internal ∧ f.kind ≠ .stackUnderflow

/-- A fault of a run that the evaluation does not have. -/
def IsExcused (quiet : Bool) (f : Fault) : Prop :=
  f.IsLimit ∨ (quiet = false ∧ f.kind = .interrupted)

/-- Neither a limit nor an interrupt is a fault of the code itself. -/
theorem IsExcused.isProper {quiet : Bool} {f : Fault} (h : f.IsExcused quiet) :
    f.IsProper := by
  rcases h with (h | h | h) | ⟨-, h⟩ <;> simp [IsProper, h]

end Fault

/-- The run was broken off because it exceeded a limit. -/
def ExceedsLimit {σ α : Type} : EStateM.Result Halt σ α → Prop
  | .error (.fault f) _ => f.IsLimit
  | _ => False

/-- Rounds are no limit: a run that has used them up has not been broken off. -/
theorem ExceedsLimit.ne_outOfFuel {σ α : Type} {r : EStateM.Result Halt σ α}
    (h : ExceedsLimit r) (s : σ) : r ≠ .error .outOfFuel s := by
  rintro rfl
  exact h

/-! ### Showing a world -/

/-- Whether an interrupt has been raised, and when one is due. -/
structure Signals where
  interrupted : Bool
  alarm : Option Nat

/-- No interrupt has been raised and none is due. -/
def Signals.Calm (σ : Signals) : Prop :=
  σ.interrupted = false ∧ σ.alarm = none

/-- The machine that shows a world. -/
def World.machine (w : World) (σ : Signals) (stack : Array Datum)
    (frames : Array Frame) (pc : Nat) (returning : Bool) : Machine where
  symbols := w.symbols
  stack := ⟨stack⟩
  frames := ⟨frames⟩
  pc := pc
  returning := returning
  console := w.console
  interrupted := σ.interrupted
  alarm := σ.alarm

/-- A machine that shows a world with the given stacks at a place in the code. -/
def World.Shown (quiet : Bool) (w : World) (stack : Array Datum)
    (frames : Array Frame) (pc : Nat) (returning : Bool) (m : Machine) : Prop :=
  ∃ σ : Signals, (quiet = true → σ.Calm) ∧ m = w.machine σ stack frames pc returning

/-- A run that is not quiet may be broken off by an interrupt. -/
theorem Signals.isExcused {quiet : Bool} {σ : Signals} (h : quiet = true → σ.Calm)
    (hi : σ.interrupted = true) : Fault.IsExcused quiet { kind := .interrupted } := by
  cases quiet with
  | false => exact .inr ⟨rfl, rfl⟩
  | true => exact absurd ((h rfl).1.symm.trans hi) (by decide)

/-- A value as an item of the operand stack. -/
def Datum.ofValue (x : Float) : Datum :=
  { value := x }

/-! ### Tracking -/

section

variable {α β γ δ : Type}

/-- The result of a run against that of an evaluation. -/
def Tracks (quiet : Bool) (post : α → World → β → Machine → Prop) :
    EStateM.Result Abort World α → EStateM.Result Halt Machine β → Prop
  | .error .unbalanced _, _ => True
  | x, .ok b m => ∃ a w, x = .ok a w ∧ post a w b m
  | x, .error (.fault f) m =>
    f.IsExcused quiet ∨
      ∃ w, x = .error (.fault f) w ∧ f.IsProper ∧ m.symbols = w.symbols ∧
        m.console = w.console
  | x, .error .outOfFuel _ => ∃ w, x = .error .outOfFuel w

namespace Tracks

variable {quiet : Bool} {post : α → World → β → Machine → Prop}

theorem unbalanced (w : World) (y : EStateM.Result Halt Machine β) :
    Tracks quiet post (.error .unbalanced w) y :=
  trivial

theorem ok {a : α} {w : World} {b : β} {m : Machine} (h : post a w b m) :
    Tracks quiet post (.ok a w) (.ok b m) :=
  ⟨a, w, rfl, h⟩

/-- The run fails with a fault that the evaluation need not have. -/
theorem excused {f : Fault} (h : f.IsExcused quiet) (x : EStateM.Result Abort World α)
    (m : Machine) :
    Tracks quiet post x (.error (.fault f) m : EStateM.Result Halt Machine β) := by
  cases x with
  | ok a w => exact .inl h
  | error e w =>
    cases e with
    | unbalanced => trivial
    | fault g => exact .inl h
    | outOfFuel => exact .inl h

theorem fault {f : Fault} (h : f.IsProper) {w : World} {m : Machine}
    (hs : m.symbols = w.symbols) (hc : m.console = w.console) :
    Tracks quiet post (.error (.fault f) w)
      (.error (.fault f) m : EStateM.Result Halt Machine β) :=
  .inr ⟨w, rfl, h, hs, hc⟩

theorem outOfFuel (w : World) (m : Machine) :
    Tracks quiet post (.error .outOfFuel w)
      (.error .outOfFuel m : EStateM.Result Halt Machine β) :=
  ⟨w, rfl⟩

/-- How a run ends that tracks an evaluation. -/
theorem cases {x : EStateM.Result Abort World α} {y : EStateM.Result Halt Machine β}
    (h : Tracks quiet post x y) :
    (∃ w, x = .error .unbalanced w) ∨
    (∃ a w b m, x = .ok a w ∧ y = .ok b m ∧ post a w b m) ∨
    (∃ f m, y = .error (.fault f) m ∧ f.IsExcused quiet) ∨
    (∃ f w m, x = .error (.fault f) w ∧ y = .error (.fault f) m ∧ f.IsProper ∧
      m.symbols = w.symbols ∧ m.console = w.console) ∨
    (∃ w m, x = .error .outOfFuel w ∧ y = .error .outOfFuel m) := by
  -- an unbalanced evaluation comes first; apart from it, the run decides
  by_cases hx : ∃ w, x = .error .unbalanced w
  · exact .inl hx
  · refine .inr ?_
    have hsplit : match y with
        | .ok b m => ∃ a w, x = .ok a w ∧ post a w b m
        | .error (.fault f) m => f.IsExcused quiet ∨
          ∃ w, x = .error (.fault f) w ∧ f.IsProper ∧ m.symbols = w.symbols ∧
            m.console = w.console
        | .error .outOfFuel _ => ∃ w, x = .error .outOfFuel w := by
      unfold Tracks at h
      split at h
      · exact absurd ⟨_, rfl⟩ hx
      · exact h
      · exact h
      · exact h
    cases y with
    | ok b m =>
      obtain ⟨a, w, hx, hp⟩ := hsplit
      exact .inl ⟨a, w, b, m, hx, rfl, hp⟩
    | error e m =>
      cases e with
      | outOfFuel =>
        obtain ⟨w, hx⟩ := hsplit
        exact .inr (.inr (.inr ⟨w, m, hx, rfl⟩))
      | fault f =>
        rcases hsplit with he | ⟨w, hx, hp, hs, hc⟩
        · exact .inr (.inl ⟨f, m, rfl, he⟩)
        · exact .inr (.inr (.inl ⟨f, w, m, hx, rfl, hp, hs, hc⟩))

/-- What follows a result on both sides. The run may have failed with a fault
that the evaluation does not have. -/
theorem andThen {post' : γ → World → δ → Machine → Prop}
    {x : EStateM.Result Abort World α} {y : EStateM.Result Halt Machine β}
    {f : α → Eval γ} {g : β → Exec δ} (h : Tracks quiet post x y)
    (hf : ∀ {a w b m}, x = .ok a w → post a w b m → Tracks quiet post' (f a w) (g b m)) :
    Tracks quiet post' (Action.andThen x f) (Action.andThen y g) := by
  rcases h.cases with ⟨w, rfl⟩ | ⟨a, w, b, m, rfl, rfl, hp⟩ | ⟨e, m, rfl, he⟩ |
    ⟨e, w, m, rfl, rfl, hp, hs, hc⟩ | ⟨w, m, rfl, rfl⟩
  · exact unbalanced w _
  · exact hf rfl hp
  · exact excused he _ m
  · exact fault hp hs hc
  · exact outOfFuel w m

/-- A sequence: what follows the first part tracks from where that ended. -/
theorem bind {post' : γ → World → δ → Machine → Prop} {x : Eval α}
    {f : α → Eval γ} {y : Exec β} {g : β → Exec δ} {w : World} {m : Machine}
    (h : Tracks quiet post (x w) (y m))
    (hf : ∀ {a w' b m'}, x w = .ok a w' → post a w' b m' →
      Tracks quiet post' (f a w') (g b m')) :
    Tracks quiet post' ((x >>= f) w) ((y >>= g) m) :=
  h.andThen hf

theorem mono {post' : α → World → β → Machine → Prop} {x : EStateM.Result Abort World α}
    {y : EStateM.Result Halt Machine β} (h : Tracks quiet post x y)
    (hpost : ∀ {a w b m}, x = .ok a w → post a w b m → post' a w b m) :
    Tracks quiet post' x y := by
  have hthen : Tracks quiet post' (Action.andThen x pure) (Action.andThen y pure) :=
    h.andThen fun hx hp => ok (hpost hx hp)
  rwa [Action.andThen_pure, Action.andThen_pure] at hthen

/-- The evaluation goes on after the run is done. -/
theorem bind_left {post' : γ → World → β → Machine → Prop} {x : Eval α} {f : α → Eval γ}
    {w : World} {y : EStateM.Result Halt Machine β} (h : Tracks quiet post (x w) y)
    (hf : ∀ {a w' b m}, x w = .ok a w' → post a w' b m →
      Tracks quiet post' (f a w') (.ok b m)) :
    Tracks quiet post' ((x >>= f) w) y := by
  have hthen := h.andThen (f := f) (g := pure) hf
  rwa [Action.andThen_pure] at hthen

/-- The run goes on after the evaluation is done. -/
theorem bind_right {post' : α → World → δ → Machine → Prop}
    {x : EStateM.Result Abort World α} {y : Exec β} {g : β → Exec δ} {m : Machine}
    (h : Tracks quiet post x (y m))
    (hg : ∀ {a w b m'}, x = .ok a w → post a w b m' →
      Tracks quiet post' (.ok a w) (g b m')) :
    Tracks quiet post' x ((y >>= g) m) := by
  have hthen := h.andThen (f := pure) (g := g) hg
  rwa [Action.andThen_pure] at hthen

end Tracks

end

/-! ### Cells -/

namespace Exec

variable (job : Job) (enter : Nat → Exec Unit) (fuel : Nat)

/-- Runs a number of cells. At a stop, and while a return is under way, nothing
happens. -/
def advance : Nat → Exec Unit
  | 0 => return
  | n + 1 => do
    let _ ← cell job enter fuel
    advance n

theorem advance_add (k n : Nat) :
    advance job enter fuel (k + n) =
      advance job enter fuel k >>= fun _ => advance job enter fuel n := by
  induction k with
  | zero =>
    rw [Nat.zero_add, advance, pure_bind]
  | succ k ih =>
    rw [Nat.add_right_comm, advance, advance, ih, bind_assoc]

variable {job enter fuel}

/-- What running a cell does, by the state of the machine and the cell. -/
theorem cell_apply (m : Machine) :
    cell job enter fuel m =
      if m.returning then .ok false m
      else if m.interrupted then .error (.fault { kind := .interrupted }) m
      else
        match job.cells[m.pc]? with
        | some .stop => .ok false m
        | some (.address a) => .ok true { m with pc := a }
        | some (.op o) =>
          (operation job enter fuel o >>= fun _ => pure true) { m with pc := m.pc + 1 }
        | some _ => internal "operand executed" m
        | none => internal "pc out of range" m := by
  show (if m.returning then pure false
    else if m.interrupted then fail .interrupted
    else
      match job.cells[m.pc]? with
      | some .stop => pure false
      | some (.address a) => jump a >>= fun _ => pure true
      | some (.op o) =>
        jump (m.pc + 1) >>= fun _ => operation job enter fuel o >>= fun _ => pure true
      | some _ => internal "operand executed"
      | none => internal "pc out of range" : Exec Bool) m = _
  by_cases hr : m.returning
  · rw [if_pos hr, if_pos hr]
    rfl
  · rw [if_neg hr, if_neg hr]
    by_cases hi : m.interrupted
    · rw [if_pos hi, if_pos hi]
      rfl
    · rw [if_neg hi, if_neg hi]
      cases job.cells[m.pc]? with
      | none => rfl
      | some c => cases c <;> rfl

theorem cell_of_returning {m : Machine} (h : m.returning = true) :
    cell job enter fuel m = .ok false m := by
  rw [cell_apply, if_pos h]

/-- An interrupt that has been raised is seen before the next cell. -/
theorem cell_of_interrupted {m : Machine} (hr : m.returning = false)
    (hi : m.interrupted = true) :
    cell job enter fuel m = .error (.fault { kind := .interrupted }) m := by
  simp [cell_apply, hr, hi]

theorem cell_of_stop {m : Machine} (hr : m.returning = false) (hi : m.interrupted = false)
    (hc : job.cells[m.pc]? = some .stop) : cell job enter fuel m = .ok false m := by
  simp [cell_apply, hr, hi, hc]

theorem cell_of_address {m : Machine} (hr : m.returning = false)
    (hi : m.interrupted = false) {a : Nat} (hc : job.cells[m.pc]? = some (.address a)) :
    cell job enter fuel m = .ok true { m with pc := a } := by
  simp [cell_apply, hr, hi, hc]

theorem cell_of_op {m : Machine} (hr : m.returning = false) (hi : m.interrupted = false)
    {o : Opcode} (hc : job.cells[m.pc]? = some (.op o)) :
    cell job enter fuel m =
      (operation job enter fuel o >>= fun _ => pure true) { m with pc := m.pc + 1 } := by
  simp [cell_apply, hr, hi, hc]

/-- A cell that is not run changes nothing. -/
theorem eq_of_cell_false {m m' : Machine} (h : cell job enter fuel m = .ok false m') :
    m' = m := by
  rw [cell_apply] at h
  split at h
  · cases h
    rfl
  · split at h
    · exact nomatch h
    · split at h
      case h_1 =>
        cases h
        rfl
      -- an operation that does not fail is run, so the answer is not `false`
      case h_3 o _ =>
        rcases Action.bind_cases (operation job enter fuel o) (fun _ => pure true)
          { m with pc := m.pc + 1 } with ⟨e, s', -, hrun⟩ | ⟨a, s', -, hrun⟩
        · exact nomatch hrun.symm.trans h
        · exact nomatch hrun.symm.trans h
      all_goals exact nomatch h

theorem advance_of_cell_false {m : Machine}
    (h : cell job enter fuel m = .ok false m) (n : Nat) :
    advance job enter fuel n m = .ok () m := by
  induction n with
  | zero => rfl
  | succ n ih => rw [advance, Action.bind_of_ok h, ih]

theorem dispatch_of_cell_false {m : Machine} (h : cell job enter fuel m = .ok false m)
    (rounds : Nat) : dispatch job enter fuel (rounds + 1) m = .ok () m := by
  rw [dispatch, Action.bind_of_ok h]
  rfl

/-- A stretch is run as far as one likes, and then the rest of it. -/
theorem dispatch_advance (n rounds : Nat) (m : Machine) :
    dispatch job enter fuel (n + (rounds + 1)) m =
      (advance job enter fuel n >>= fun _ => dispatch job enter fuel (rounds + 1)) m := by
  induction n generalizing m with
  | zero =>
    rw [Nat.zero_add, advance, pure_bind]
  | succ n ih =>
    rw [advance, bind_assoc, Nat.add_right_comm, dispatch]
    cases hc : cell job enter fuel m with
    | error e m' => rw [Action.bind_of_error hc, Action.bind_of_error hc]
    | ok b m' =>
      rw [Action.bind_of_ok hc, Action.bind_of_ok hc]
      cases b with
      | true => exact ih m'
      -- nothing is run from here on, neither by the remaining cells nor by the stretch
      | false =>
        obtain rfl := eq_of_cell_false hc
        rw [Action.bind_of_ok (advance_of_cell_false hc n), dispatch_of_cell_false hc]
        rfl

/-! ### Cells and stretches that track -/

variable {α β : Type} {quiet : Bool} {w : World} {σ : Signals} {S : Array Datum}
  {F : Array Frame} {x : EStateM.Result Abort World α}

/-- A cell of an operation runs the operation from the cell behind it. -/
theorem tracks_op {post : α → World → Unit → Machine → Prop} (hσ : quiet = true → σ.Calm)
    {a : Nat} {o : Opcode} (hcell : job.cells[a]? = some (.op o))
    (h : Tracks quiet post x
      (operation job enter fuel o (w.machine σ S F (a + 1) false))) :
    Tracks quiet post x (advance job enter fuel 1 (w.machine σ S F a false)) := by
  show Tracks quiet post x
    ((cell job enter fuel >>= fun _ => pure ()) (w.machine σ S F a false))
  cases hi : σ.interrupted with
  -- the interrupt is seen before the operation is run
  | true =>
    have hc := @cell_of_interrupted job enter fuel (w.machine σ S F a false) rfl hi
    rw [Action.bind_of_error hc]
    exact Tracks.excused (Signals.isExcused hσ hi) x _
  | false =>
    have hone : Tracks quiet (fun a w _ m => post a w () m) x
        (cell job enter fuel (w.machine σ S F a false)) := by
      rw [@cell_of_op job enter fuel (w.machine σ S F a false) rfl hi o hcell]
      exact h.bind_right fun _ hp => Tracks.ok hp
    exact hone.bind_right fun _ hp => Tracks.ok hp

/-- An address at a place in the code, or of a cell that holds it. -/
def Leads (cells : Array Cell) (a b : Nat) : Prop :=
  a = b ∨ cells[a]? = some (.address b)

/-- A cell with an address leads there. -/
theorem tracks_address {post : α → World → β → Machine → Prop}
    (hσ : quiet = true → σ.Calm) {a b : Nat} (hcell : job.cells[a]? = some (.address b))
    {g : Unit → Exec β} (h : Tracks quiet post x (g () (w.machine σ S F b false))) :
    Tracks quiet post x ((advance job enter fuel 1 >>= g) (w.machine σ S F a false)) := by
  cases hi : σ.interrupted with
  | true =>
    have hone : advance job enter fuel 1 (w.machine σ S F a false) = _ :=
      Action.bind_of_error (cell_of_interrupted rfl hi)
    rw [Action.bind_of_error hone]
    exact Tracks.excused (Signals.isExcused hσ hi) x _
  | false =>
    have hone : advance job enter fuel 1 (w.machine σ S F a false) =
        .ok () (w.machine σ S F b false) :=
      Action.bind_of_ok (cell_of_address rfl hi hcell)
    rw [Action.bind_of_ok hone]
    exact h

/-- Where a stretch ends: at a stop, or with a return under way. -/
def Ends (cells : Array Cell) (quiet : Bool) (m : Machine) : Prop :=
  m.returning = true ∨
    (m.returning = false ∧ cells[m.pc]? = some .stop ∧
      (quiet = true → m.interrupted = false))

/-- At its end a stretch does nothing more, unless an interrupt is seen there. -/
theorem tracks_ending {post : α → World → Unit → Machine → Prop} {a : α} {m : Machine}
    (hends : Ends job.cells quiet m) (hpost : post a w () m) (rounds : Nat) :
    Tracks quiet post (.ok a w) (dispatch job enter fuel (rounds + 1) m) := by
  rcases hends with hr | ⟨hr, hstop, hq⟩
  · rw [dispatch_of_cell_false (cell_of_returning hr)]
    exact Tracks.ok hpost
  · cases hi : m.interrupted with
    | true =>
      rw [dispatch, Action.bind_of_error (cell_of_interrupted hr hi)]
      refine Tracks.excused (.inr ⟨?_, rfl⟩) _ m
      -- a quiet run is not interrupted at its stop
      cases quiet with
      | false => rfl
      | true => exact absurd ((hq rfl).symm.trans hi) (by decide)
    | false =>
      rw [dispatch_of_cell_false (cell_of_stop hr hi hstop)]
      exact Tracks.ok hpost

/-- A stretch runs as its cells do: it is enough to follow them one by one up to
where it ends. -/
theorem tracks_exec {post : α → World → Unit → Machine → Prop}
    (hσ : quiet = true → σ.Calm) {depth a b n pc : Nat} (hfuel : n + 2 ≤ fuel)
    (hlead : Leads job.cells a b) (h : Tracks quiet post x
      (advance job (exec job fuel depth) fuel n (w.machine σ S F b false)))
    (hends : ∀ {a w u m}, post a w u m → Ends job.cells quiet m) :
    Tracks quiet post x (exec job fuel (depth + 1) a (w.machine σ S F pc false)) := by
  show Tracks quiet post x
    (dispatch job (exec job fuel depth) fuel fuel (w.machine σ S F a false))
  -- the rounds are split into the cells of the stretch and one for the stop behind
  -- them; an address that only leads there takes one more
  rcases hlead with rfl | hcell
  · obtain ⟨k, rfl⟩ : ∃ k, fuel = n + (k + 1) := ⟨fuel - n - 1, by omega⟩
    rw [dispatch_advance n k]
    exact h.bind_right fun _ hp => tracks_ending (hends hp) hp k
  · obtain ⟨k, rfl⟩ : ∃ k, fuel = 1 + n + (k + 1) := ⟨fuel - n - 2, by omega⟩
    rw [dispatch_advance (1 + n) k, advance_add, bind_assoc]
    exact tracks_address hσ hcell (h.bind_right fun _ hp => tracks_ending (hends hp) hp k)

end Exec

end StackCalc
