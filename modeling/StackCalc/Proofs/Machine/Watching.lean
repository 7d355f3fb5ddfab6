import StackCalc.Proofs.Machine.Accesses

/-!
# The states that runs come to

A run that is watched is broken off before the first cell that finds the machine
in a state which fails the test. Where that is does not depend on what the run
is broken off with (`Exec.cutAlike_execute`), so it can be told from two runs
whether one has been broken off: `Exec.reached?` is the state, if there is one.
-/

namespace StackCalc

namespace Exec

open StackCalc.Action

variable {n : Nat} {job : Job} {ok : Machine → Bool} {breach : Halt} {α β : Type}

/-! ### The state in which a watched run is broken off -/

/-- Two actions that do the same, or are broken off in the same state, each in
its own way. -/
def CutAlike (ok : Machine → Bool) (breach breach' : Halt) (x y : Exec α) : Prop :=
  ∀ m, x m = y m ∨ ∃ m₁, ok m₁ = false ∧ x m = .error breach m₁ ∧ y m = .error breach' m₁

variable {breach' : Halt}

theorem CutAlike.refl (x : Exec α) : CutAlike ok breach breach' x x :=
  fun _ => .inl rfl

/-- A sequence is broken off in the same state, in its first part or in its
second. -/
theorem CutAlike.bind {x y : Exec α} {f g : α → Exec β}
    (hx : CutAlike ok breach breach' x y)
    (hf : ∀ a, CutAlike ok breach breach' (f a) (g a)) :
    CutAlike ok breach breach' (x >>= f) (y >>= g) := by
  intro m
  rcases hx m with heq | ⟨m₁, hok, hcut, hcut'⟩
  · rw [bind_apply, bind_apply, heq]
    cases y m with
    | ok a m' => exact hf a m'
    | error e m' => exact .inl rfl
  · exact .inr ⟨m₁, hok, bind_of_error hcut, bind_of_error hcut'⟩

theorem Composed.cutAlike {x y : Exec α} (h : Composed (CutAlike ok breach breach') x y) :
    CutAlike ok breach breach' x y := by
  induction h with
  | inner => exact .refl _
  | part h => exact h
  | bind _ _ hx hf => exact hx.bind hf

/-- A test breaks off each action in its own way, in the state in which it fails. -/
theorem cutAlike_watch {x y : Exec α} (h : CutAlike ok breach breach' x y) :
    CutAlike ok breach breach' (watch ok breach x) (watch ok breach' y) := by
  intro m
  unfold watch
  cases hok : ok m with
  | true => exact h m
  | false => exact .inr ⟨m, hok, rfl, rfl⟩

/-- Cells with tests between them, as long as there are rounds. -/
theorem cutAlike_dispatch {enter enter' : Nat → Exec Unit}
    (h : ∀ a, CutAlike ok breach breach' (enter a) (enter' a)) (fuel rounds : Nat) :
    CutAlike ok breach breach' (watchedDispatch ok breach job enter fuel rounds)
      (watchedDispatch ok breach' job enter' fuel rounds) := by
  induction rounds with
  | zero => exact .refl _
  | succ rounds ih =>
    refine (cutAlike_watch (composed_cell h (fun _ => .refl _) fuel).cutAlike).bind
      fun b => ?_
    split
    · exact ih
    · exact .refl _

theorem cutAlike_exec (fuel depth a : Nat) :
    CutAlike ok breach breach' (watchedExec ok breach job fuel depth a)
      (watchedExec ok breach' job fuel depth a) := by
  induction depth generalizing a with
  | zero => exact .refl _
  | succ depth ih => exact (CutAlike.refl _).bind fun _ => cutAlike_dispatch ih fuel fuel

/-- What a watched run is to be broken off with plays no part in what it does
before. -/
theorem cutAlike_execute (ok : Machine → Bool) (breach breach' : Halt) (job : Job)
    (fuel a : Nat) :
    CutAlike ok breach breach' (watchedExecute ok breach job fuel a)
      (watchedExecute ok breach' job fuel a) :=
  (CutAlike.refl _).bind fun _ => cutAlike_exec fuel _ a

/-- The first state that a run comes to, before a cell, and that fails a test. A
run is broken off there if it ends in one way or another according to what it is
to be broken off with. -/
def reached? (ok : Machine → Bool) (job : Job) (fuel a : Nat) (m : Machine) :
    Option Machine :=
  let r := watchedExecute ok .outOfFuel job fuel a m
  let r' := watchedExecute ok (.fault { kind := .interrupted }) job fuel a m
  if failure? r = failure? r' then none else some (final r)

section

variable {fuel a : Nat} {m m₁ : Machine}

/-- A run that two ways to break it off end differently is broken off, whatever
with. -/
theorem cut_of_cut {first second : Halt} (hne : first ≠ second)
    (h : watchedExecute ok first job fuel a m = .error first m₁)
    (h' : watchedExecute ok second job fuel a m = .error second m₁) (breach : Halt) :
    watchedExecute ok breach job fuel a m = .error breach m₁ := by
  rcases cutAlike_execute ok breach first job fuel a m with heq | ⟨m₂, -, hcut, hfirst⟩
  · rcases cutAlike_execute ok breach second job fuel a m with
      heq' | ⟨m₂, -, hcut, hsecond⟩
    · cases (h.symm.trans heq.symm).trans (heq'.trans h')
      exact absurd rfl hne
    · cases hsecond.symm.trans h'
      exact hcut
  · cases hfirst.symm.trans h
    exact hcut

/-- A run reaches a state that fails the test exactly if it is broken off there,
whatever with. -/
theorem reached?_eq_some_iff :
    reached? ok job fuel a m = some m₁ ↔
      ∀ breach, watchedExecute ok breach job fuel a m = .error breach m₁ := by
  unfold reached?
  dsimp only
  constructor
  · intro h
    split at h
    case isTrue => cases h
    case isFalse hne =>
      cases h
      -- two runs that end differently have been broken off, in the same state
      rcases cutAlike_execute ok .outOfFuel (.fault { kind := .interrupted })
        job fuel a m with heq | ⟨m₂, -, hcut, hcut'⟩
      · exact absurd (congrArg failure? heq) hne
      · rw [hcut]
        exact cut_of_cut (by decide) hcut hcut'
  · intro h
    rw [h, h]
    rfl

end

/-! ### Watched runs in closed code and outside -/

/-- A cell outside the code does nothing. -/
theorem final_cell_of_size_le {enter : Nat → Exec Unit} (fuel : Nat) {m : Machine}
    (h : job.cells.size ≤ m.pc) : final (cell job enter fuel m) = m := by
  rw [cell_apply, Array.getElem?_eq_none h]
  split
  · rfl
  · split <;> rfl

/-- A watched run in closed code leaves the machine in order, wherever it is
broken off. -/
theorem inOrder_watchedExecute (hclosed : Closed n job.cells 0 job.cells.size)
    (fuel : Nat) {a : Nat} (ha : a < job.cells.size) {m : Machine}
    (hm : m.symbols.Serves n job.cells.size) :
    (final (watchedExecute ok breach job fuel a m)).InOrder n job := by
  have hsteady : Steady fun m m' : Machine => m.InOrder n job → m'.InOrder n job :=
    ⟨fun _ h => h, fun h h' hm => h' (h hm)⟩
  have hexec : Keeps (fun m m' : Machine => m.InOrder n job → m'.InOrder n job)
      (watchedExec ok breach job fuel job.limits.depth a) := by
    refine keeps_watchedExec (P := (· < job.cells.size)) hsteady
      (fun a ha m hm => hm.goto ha) (fun enter henter =>
        keeps_watch hsteady fun m hm => ?_) _ ha
    have hagrees : ∀ a, a < job.cells.size → Agrees n job (enter a) (enter a) :=
      fun a ha m hm => ⟨rfl, henter a ha m hm⟩
    exact (agrees_cell hclosed hagrees breach fuel m hm).2
  exact hexec (m.start a) ⟨⟨Stack.within_empty, Stack.within_empty, ha⟩, hm⟩

/-- A watched run from outside the code leaves the stack empty. -/
theorem stack_watchedExecute_of_size_le (fuel : Nat) {a : Nat} (ha : job.cells.size ≤ a)
    (m : Machine) :
    (final (watchedExecute ok breach job fuel a m)).stack = {} := by
  -- outside the code no cell does anything, so the stack stays as it was at the
  -- start
  have hsteady : Steady fun m m' : Machine =>
      job.cells.size ≤ m.pc → job.cells.size ≤ m'.pc ∧ m'.stack = m.stack :=
    ⟨fun _ h => ⟨h, rfl⟩, fun h h' hm =>
      ⟨(h' (h hm).1).1, (h' (h hm).1).2.trans (h hm).2⟩⟩
  have hexec : Keeps (fun m m' : Machine =>
      job.cells.size ≤ m.pc → job.cells.size ≤ m'.pc ∧ m'.stack = m.stack)
      (watchedExec ok breach job fuel job.limits.depth a) := by
    refine keeps_watchedExec (P := (job.cells.size ≤ ·)) hsteady
      (fun a ha m _ => ⟨ha, rfl⟩) (fun enter henter =>
        keeps_watch hsteady fun m hm => ?_) _ ha
    rw [final_cell_of_size_le fuel hm]
    exact ⟨hm, rfl⟩
  exact (hexec (m.start a) ha).2

end Exec

end StackCalc
