import StackCalc.Proofs.Machine.LoopFree
import StackCalc.Proofs.Session.Reachable

/-!
# Sessions without loops

In whatever way a session has come about, if there is no loop in its code,
neither in a definition nor in the program at hand, then running it ends: from
any address, under any limits, and whatever its definitions call.

What is needed of the code beside that is true of all sessions that can be
reached: addresses point forward (`Image.Intact`), and conditions are straight
(`Store.IsGuarded`).
-/

namespace StackCalc

namespace Session

open StackCalc.Action

variable {rs : List Region} {s : Session}

/-! ### Conditions -/

/-- If conditions stand behind all branches, they still do after the action,
whether it fails or not. -/
abbrev KeepsGuarded {ε α : Type} (x : EStateM ε Session α) : Prop :=
  Keeps (fun s s' => s.store.IsGuarded → s'.store.IsGuarded) x

theorem steady_guarded : Steady fun s s' : Session => s.store.IsGuarded →
    s'.store.IsGuarded where
  refl _ h := h
  trans h h' hs := h' (h hs)

theorem keepsGuarded_read (source : String) : KeepsGuarded (read source) := by
  intro s h
  unfold read
  dsimp only
  split <;> exact h

/-- Code that is generated has its conditions behind its branches, and so has
what a failure leaves of it. -/
theorem keepsGuarded_generate (program : List Stmt) :
    KeepsGuarded (generate program) := by
  intro s h
  have hsealed : Guarded s.image.rewound.store.cells.toList := h.sealed
  have hguarded := Image.generate_guarded s.limits.program s.echo hsealed program
  unfold generate
  cases hrun : Image.generate s.limits.program s.echo program s.image with
  | ok entry im | error f im =>
    rw [hrun] at hguarded
    exact hguarded

theorem keepsGuarded_compile (source : String) : KeepsGuarded (compile source) :=
  Keeps.bind steady_guarded (keepsGuarded_read source) keepsGuarded_generate

/-- A run does not change the code. -/
theorem keepsGuarded_execute (fuel a : Nat) : KeepsGuarded (execute fuel a) := by
  intro s h
  unfold execute
  split <;> exact h

theorem isGuarded_rewind (h : s.store.IsGuarded) : s.rewind.store.IsGuarded :=
  s.image.isGuarded_rewound h.sealed

/-- Entering a text compiles it, runs its code and discards that. -/
theorem keepsGuarded_enter (fuel : Nat) (source : String) :
    KeepsGuarded (enter fuel source) := by
  intro s h
  have hcompile := keepsGuarded_compile source s h
  cases hresult : s.compile source with
  | error f s' =>
    rw [hresult] at hcompile
    rw [enter_of_error hresult]
    exact hcompile
  | ok entry s' =>
    rw [hresult] at hcompile
    rw [final_enter hresult]
    exact isGuarded_rewind (keepsGuarded_execute fuel entry s' hcompile)

/-- In all sessions that can be reached conditions stand behind all branches. -/
theorem Reachable.isGuarded (h : Reachable rs s) : s.store.IsGuarded := by
  induction h with
  | fresh limits =>
    have hnothing : Guarded [] := guarded_of_no_branch (by simp)
    exact ⟨hnothing, hnothing⟩
  | step h r hr ih =>
    cases r with
    | enter fuel source => exact keepsGuarded_enter fuel source _ ih
    | compile source => exact keepsGuarded_compile source _ ih
    | generate program => exact keepsGuarded_generate program _ ih
    | execute fuel a => exact keepsGuarded_execute fuel a _ ih
    | _ => exact ih

/-! ### Runs -/

theorem Reachable.loopFree (h : Reachable rs s)
    (hloops : ∀ c ∈ s.store.cells, c.isLoop = false) (limits : Limits) :
    Job.LoopFree ⟨s.store.cells, limits⟩ where
  loops hc := hloops _ (Array.mem_of_getElem? hc)
  forward {i b} hc := by
    have hlt : i < s.store.cells.size := (Array.getElem?_eq_some_iff.mp hc).1
    exact (h.intact.closed.address (Nat.zero_le i) hlt hc).1
  guarded := h.isGuarded.all

/-- Take any session that can be reached and that has no loop in its code. Under
any limits, a run from any address ends: it is done or fails with a fault, and
so with the same state for every number of rounds above a bound that depends on
the number of cells and the limit on calls alone. -/
theorem execute_ends_of_loopFree (h : Reachable rs s)
    (hloops : ∀ c ∈ s.store.cells, c.isLoop = false) (limits : Limits) (a : Nat) :
    (∃ s', ∀ fuel, (limits.frames + 1) * (s.store.size + 1) < fuel →
      execute fuel a { s with limits } = .ok () s') ∨
    ∃ f s', ∀ fuel, (limits.frames + 1) * (s.store.size + 1) < fuel →
      execute fuel a { s with limits } = .error (.fault f) s' := by
  let limited : Session := { s with limits }
  let bound : Nat := (limits.frames + 1) * (s.store.size + 1)
  have hconcludes : Exec.Concludes (fun _ _ => True)
      (Exec.execute limited.job (bound + 1) a limited.machine) :=
    Exec.execute_concludes (h.loopFree hloops limits) (Nat.lt_succ_self bound) a s.machine
  -- one run decides, for more rounds do not change how it ends
  have hlasts : ∀ r, limited.execute (bound + 1) a = r →
      (∀ s', r ≠ .error .outOfFuel s') →
      ∀ fuel, bound < fuel → limited.execute fuel a = r := by
    rintro _ rfl hne fuel hfuel
    exact execute_of_le hfuel hne
  cases hrun : Exec.execute limited.job (bound + 1) a limited.machine with
  | ok u m => exact .inl ⟨_, hlasts _ (execute_of_ok hrun) fun _ hc => by cases hc⟩
  | error e m =>
    rw [hrun] at hconcludes
    cases e with
    | fault f =>
      exact .inr ⟨f, _, hlasts _ (execute_of_error hrun) fun _ hc => by cases hc⟩
    | outOfFuel => exact hconcludes.elim

/-- A function that calls itself in a condition and in an arm of the branch on
it, and a program that calls the function. -/
def recursing : Session :=
  ((Session.fresh {}).handle
    (.enter 50 "func f() if (f($1 + 1)) return 1 else return f($1)")).handle
      (.compile "print f(3)")

theorem reachable_recursing : ∃ rs, Reachable rs recursing :=
  ⟨_,
    ((Reachable.fresh {}).step
      (.enter 50 "func f() if (f($1 + 1)) return 1 else return f($1)")
    trivial).step (.compile "print f(3)") trivial⟩

/-- With nine calls and 33 cells, 341 rounds are enough for the calls to nest
too deeply. -/
theorem execute_ends_of_loopFree_recursing :
    (∃ rs, Reachable rs recursing) ∧ (∀ c ∈ recursing.store.cells, c.isLoop = false) ∧
      ∃ f s', ∀ fuel, 340 < fuel →
        execute fuel recursing.store.base { recursing with limits := { frames := 9 } } =
          .error (.fault f) s' := by
  obtain ⟨rs, hs⟩ := reachable_recursing
  have hfacts : (∀ c ∈ recursing.store.cells, c.isLoop = false) ∧
      recursing.store.size = 33 ∧
      Action.succeeds (execute 341 recursing.store.base
        { recursing with limits := { frames := 9 } }) = false := by
    decide +kernel
  obtain ⟨hloops, hsize, hfails⟩ := hfacts
  refine ⟨⟨rs, hs⟩, hloops, ?_⟩
  rcases execute_ends_of_loopFree hs hloops { frames := 9 } recursing.store.base with
    ⟨s', hok⟩ | ⟨f, s', hfault⟩
  · rw [hsize] at hok
    rw [hok 341 (by decide)] at hfails
    cases hfails
  · rw [hsize] at hfault
    exact ⟨f, s', hfault⟩

end Session

end StackCalc
