import StackCalc.Proofs.Loops.Restating
import StackCalc.Proofs.Simulation.RelocatedRuns

/-!
# Restated code at every level of nesting

Both machines have the bodies of the definitions, each in its own place, those
of the second one restated (`RestatesBodies`). A call pushes the same frame on
both sides, but for the place to return to, and enters the body
(`RestatesBodies.calls`).

`RestatesBodies.enters` ties the knot, by induction on the levels of nesting
that the first machine has left. It may have fewer than the second one: the
first clause of a `for` loop is a stretch of its own, one level further in, and
a statement in the same stretch where the loop is restated. So the first machine
may run out of levels before the second one, but not the other way round.
-/

namespace StackCalc

/-! ### Calls -/

/-- Every body lies in the code of both machines, restated in that of the second
one. -/
def RestatesBodies (u : Placement) (job job' : Job) : Prop :=
  ∀ a, u.bodies a → ∃ t echo ss ss', Stmt.AllCodable t ss ∧ Restated echo ss ss' ∧
    Holds job.cells a (Layout.body t echo a ss) ∧
    Holds job'.cells (u.moves a) (Layout.body t echo (u.moves a) ss')

section

variable {u : Placement} {c : Pairing} {job job' : Job} {id k height p p' : Nat}

/-- Both push the same frame but for the place to return to. There is room for
it on both sides or on neither, since the frames are as many. -/
theorem Exec.inStep_pushFrame (hlimits : job'.limits = job.limits) :
    InStep (Abreast u c false p p') (Abreast u (c.within id k height p p') false p p')
      (onFrames (Stack.push job.limits.frames .callNestedTooDeeply ⟨id, k, p, height⟩))
      (onFrames (Stack.push job'.limits.frames .callNestedTooDeeply
        ⟨id, k, p', height⟩)) := by
  rintro m _ h
  obtain rfl := h.other
  have hfull : Stack.isFull job'.limits.frames (⟨c.frames'⟩ : Stack Frame) =
      Stack.isFull job.limits.frames (⟨c.frames⟩ : Stack Frame) := by
    rw [hlimits]
    exact congrArg (fun n => decide (job.limits.frames ≤ n)) c.size_frames
  have hframes' : (m.moved u.moves c.frames' p').frames = ⟨c.frames'⟩ := rfl
  rw [onFrames, onFrames, h.frames, hframes', Stack.push, Stack.push, hfull]
  cases Stack.isFull job.limits.frames (⟨c.frames⟩ : Stack Frame) with
  | true =>
    refine .error ?_
    have hshows := h.shows
    rw [← h.frames]
    exact hshows
  | false => exact .ok ⟨rfl, h.pc, rfl, h.flag, h.bodies⟩

/-- A call that has returned goes on where it was made. -/
theorem Left.called {m m' : Machine} (h : Left u (c.within id k height p p') m m') :
    Abreast u c false p p' { m with returning := false }
      { m' with returning := false } := by
  obtain ⟨f, r, ⟨htop, htop'⟩, h⟩ := h
  have hback : (c.within id k height p p').frames.back? = some ⟨id, k, p, height⟩ :=
    Array.back?_push
  have hback' : (c.within id k height p p').frames'.back? = some ⟨id, k, p', height⟩ :=
    Array.back?_push
  cases hback.symm.trans htop
  cases hback'.symm.trans htop'
  rw [Pairing.popped_within] at h
  refine ⟨?_, h.pc, h.frames, rfl, h.bodies⟩
  rw [h.other]
  rfl

/-- Calls keep machines in step, if entering a body does. -/
theorem RestatesBodies.calls (hbodies : RestatesBodies u job job')
    (hlimits : job'.limits = job.limits) {enter enter' : Nat → Exec Unit} {fuel : Nat}
    (henters : EntersInStep u job job' enter enter' fuel) :
    CallsInStep u job job' enter enter' where
  limits := hlimits
  call {c p p'} hsymbol hcount := by
    -- the operands are the same, and the checks before the frame is pushed
    -- agree
    refine (Exec.inStep_symbolOperand hsymbol).bind fun id =>
      (Exec.inStep_countOperand hcount).bind fun n =>
        Exec.inStep_get fun m hframes _ => ?_
    have hfull : (m.moved u.moves c.frames' (p' + 1 + 1)).frames.isFull
        job'.limits.frames =
        m.frames.isFull job.limits.frames := by
      rw [hlimits, hframes]
      exact congrArg (fun n => decide (job.limits.frames ≤ n)) c.size_frames
    rw [hfull]
    split
    · exact Exec.inStep_failAbout _ id
    · refine Exec.inStep_symbol id fun s hs => ?_
      have hmoved : (s.moved u.moves).code = s.code.map u.moves := rfl
      rw [hmoved]
      cases hcode : s.code with
      | none => exact Exec.inStep_failAbout _ id
      | some a =>
        obtain ⟨_, _, _, _, hss, hrestated, hcells, hcells'⟩ := hbodies a (hs a hcode)
        refine Exec.inStep_get fun m _ hpc => ?_
        dsimp only [Machine.moved, Option.map_some]
        split
        · exact Exec.inStep_fail _ _
        · rw [hpc]
          refine (Exec.inStep_pushFrame hlimits).bind fun _ =>
            (henters.body hss hrestated hcells hcells').bind fun _ => ?_
          intro m m' hm
          exact .ok hm.called

end

/-! ### Where stretches end -/

section

variable {u : Placement} {c : Pairing} {job job' : Job} {p p' : Nat} {m m' : Machine}

theorem Abreast.rest (h : Abreast u c false p p' m m')
    (hstop : job.cells[p]? = some .stop) (hstop' : job'.cells[p']? = some .stop) :
    Rest job job' m m' := by
  obtain rfl := h.other
  obtain rfl := h.pc
  exact .inr ⟨h.flag, h.flag, rfl, hstop, hstop'⟩

theorem Left.rest (h : Left u c m m') : Rest job job' m m' :=
  .inl h.under_way

/-- After a statement both machines are at rest: at their stops, or with a
return under way. -/
theorem Past.rest (h : Past u c p p' m m') (hstop : job.cells[p]? = some .stop)
    (hstop' : job'.cells[p']? = some .stop) : Rest job job' m m' :=
  h.elim (fun h => h.rest hstop hstop') Left.rest

end

namespace Exec

variable {u : Placement} {t : SymbolTable} {c : Pairing} {job job' : Job}
  {enter enter' : Nat → Exec Unit} {fuel depth depth' a a' b b' p p' q q' n n' : Nat}
  {Q : Machine → Machine → Prop}

/-- From there both runs are over. Only the first machine is asked about
interrupts, and if it sees one it is cut short. -/
theorem inStep_ending (hrest : ∀ m m', Q m m' → Rest job job' m m') (k k' : Nat) :
    InStep Q Q (dispatch job enter fuel (k + 1))
      (dispatch job' enter' fuel (k' + 1)) := by
  intro m m' h
  rcases hrest m m' h with ⟨hr, hr'⟩ | ⟨hr, hr', hi, hstop, hstop'⟩
  · rw [dispatch_of_cell_false (cell_of_returning hr),
      dispatch_of_cell_false (cell_of_returning hr')]
    exact .ok h
  · cases hinterrupted : m.interrupted with
    | true =>
      rw [dispatch, Action.bind_of_error (cell_of_interrupted hr hinterrupted)]
      exact .cut Halt.cutsShort_interrupted _
    | false =>
      rw [dispatch_of_cell_false (cell_of_stop hr hinterrupted hstop),
        dispatch_of_cell_false (cell_of_stop hr' (hi.trans hinterrupted) hstop')]
      exact .ok h

/-- A stretch that only the first machine ends sees no interrupt. -/
theorem inStep_ending_left (hstop : job.cells[p]? = some .stop) (k : Nat) :
    InStep (Abreast u c false p p') (Calm (Abreast u c false p p'))
      (dispatch job enter fuel (k + 1)) (pure ()) := by
  intro m m' h
  cases hi : m.interrupted with
  | true =>
    rw [dispatch, Action.bind_of_error (cell_of_interrupted h.flag hi)]
    exact .cut Halt.cutsShort_interrupted _
  | false =>
    rw [dispatch_of_cell_false (cell_of_stop h.flag hi (h.pc ▸ hstop))]
    exact .ok ⟨h, hi⟩

/-- The same where only the second machine has a stretch to end; the first one
has seen no interrupt. -/
theorem inStep_ending_right (hstop : job'.cells[p']? = some .stop) (k : Nat) :
    InStep (Calm (Abreast u c false p p')) (Abreast u c false p p') (pure ())
      (dispatch job' enter' fuel (k + 1)) := by
  rintro m _ ⟨h, hi⟩
  obtain rfl := h.other
  rw [dispatch_of_cell_false
    (@cell_of_stop job' enter' fuel (m.moved u.moves c.frames' p') h.flag hi hstop)]
  exact .ok h

/-- Two stretches, by what their cells do. -/
theorem inStep_exec (hfuel : n + 2 ≤ fuel) (hfuel' : n' + 2 ≤ fuel)
    (hlead : Leads job.cells a b) (hlead' : Leads job'.cells a' b')
    (h : InStep (Abreast u c false b b') Q (advance job (exec job fuel depth) fuel n)
      (advance job' (exec job' fuel depth') fuel n'))
    (hrest : ∀ m m', Q m m' → Rest job job' m m') :
    InStep (Abreast u c false p p') Q (exec job fuel (depth + 1) a)
      (exec job' fuel (depth' + 1) a') := by
  rintro m _ hm
  obtain rfl := hm.other
  cases hi : m.interrupted with
  | true =>
    rw [exec_of_interrupted hm.flag hi (by omega)]
    exact .cut Halt.cutsShort_interrupted _
  | false =>
    obtain ⟨k, hexec⟩ := @exec_eq_advance job fuel depth a b n m hm.flag hi hfuel hlead
    obtain ⟨k', hexec'⟩ :=
      @exec_eq_advance job' fuel depth' a' b' n' (m.moved u.moves c.frames' p') hm.flag
      hi hfuel' hlead'
    rw [hexec, hexec']
    exact (h.bind fun _ => inStep_ending hrest k k') _ _
      ⟨rfl, rfl, hm.frames, hm.flag, hm.bodies⟩

/-- A stretch of the first machine only. -/
theorem inStep_exec_left {y : Exec Unit} (hfuel : n + 2 ≤ fuel)
    (hlead : Leads job.cells a b)
    (h : InStep (Abreast u c false b p') (Abreast u c false q q')
      (advance job (exec job fuel depth) fuel n) y) (hstop : job.cells[q]? = some .stop) :
    InStep (Abreast u c false p p') (Calm (Abreast u c false q q'))
      (exec job fuel (depth + 1) a) y := by
  rintro m m' hm
  cases hi : m.interrupted with
  | true =>
    rw [exec_of_interrupted hm.flag hi (by omega)]
    exact .cut Halt.cutsShort_interrupted _
  | false =>
    obtain ⟨k, hexec⟩ := @exec_eq_advance job fuel depth a b n m hm.flag hi hfuel hlead
    have hall := h.bind fun _ =>
      @inStep_ending_left u c job (exec job fuel depth) fuel q q' hstop k
    rw [bind_pure_unit] at hall
    rw [hexec]
    refine hall _ _ ⟨?_, rfl, hm.frames, hm.flag, hm.bodies⟩
    rw [hm.other]
    rfl

/-! ### The end of a round -/

theorem inStep_onward_left {k y : Exec Unit}
    (h : InStep (Calm (Abreast u c false p p')) Q k y) :
    InStep (Calm (Abreast u c false p p')) Q
      (get >>= fun m => if m.returning then pure () else k) y := by
  intro m m' hm
  rw [Action.bind_of_ok (Action.get_apply m), hm.1.flag]
  exact h m m' hm

theorem inStep_onward_right {x k' : Exec Unit}
    (h : InStep (Abreast u c false p p') Q x k') :
    InStep (Abreast u c false p p') Q x
      (get >>= fun m => if m.returning then pure () else k') := by
  intro m m' hm
  rw [Action.bind_of_ok (Action.get_apply m'), hm.flag']
  exact h m m' hm

/-- A round that ends with a return ends everything up to the call. -/
theorem inStep_left_round {k k' : Exec Unit} (i i' : Nat) :
    InStep (Left u c) (Past u c q q')
      (dispatch job enter fuel (i + 1) >>= fun _ => get >>=
        fun m => if m.returning then pure () else k)
      (advance job' enter' fuel n' >>= fun _ =>
        dispatch job' enter' fuel (i' + 1) >>= fun _ =>
        get >>= fun m => if m.returning then pure () else k') := by
  intro m m' h
  obtain ⟨hr, hr'⟩ := h.under_way
  rw [Action.bind_of_ok (dispatch_of_cell_false (cell_of_returning hr) i),
    Action.bind_of_ok (Action.get_apply m), hr,
    Action.bind_of_ok (advance_of_cell_false (cell_of_returning hr') n'),
    Action.bind_of_ok (dispatch_of_cell_false (cell_of_returning hr') i'),
    Action.bind_of_ok (Action.get_apply m'), hr']
  exact .ok (.inr h)

section

variable (hcalls : CallsInStep u job job' (exec job fuel depth) (exec job' fuel depth'))

include hcalls

/-- A clause that is a stretch of its own for the first machine. -/
theorem inStep_clauseStretch (hfuel : job.cells.size + 2 ≤ fuel) {s : Stmt}
    (hs : s.CodableClause t) (hlead : Leads job.cells a b)
    (h : Holds job.cells b (Layout.clause t s ++ [.stop]))
    (h' : Holds job'.cells p' (Layout.clause t s)) :
    InStep (Abreast u c false p p')
      (Calm (Abreast u c false (b + s.clauseSize) (p' + s.clauseSize)))
      (exec job fuel (depth + 1) a)
      (advance job' (exec job' fuel depth') fuel s.clauseSteps) := by
  have hlength := h.length_le_size
  rw [List.length_append, Layout.length_clause] at hlength
  rw [holds_append, Layout.length_clause] at h
  have hsteps := s.clauseSteps_le_clauseSize
  exact inStep_exec_left (by omega) hlead (inStep_clause hcalls hs h.1 h') h.2.1

/-- The last clause ends a round: as a stretch of its own, or in the body. -/
theorem inStep_lastClause (hfuel : job.cells.size + 2 ≤ fuel) {post : Stmt}
    {k k' : Exec Unit} (hpost : post.CodableClause t) (hlead : Leads job.cells a b)
    (h : Holds job.cells b (Layout.clause t post ++ [.stop]))
    (h' : Holds job'.cells p' (Layout.stmt t false p' post ++ [.stop]))
    (hk : ∀ {p p'}, InStep (Abreast u c false p p') Q k k') (i : Nat) :
    InStep (Calm (Abreast u c false p p')) Q
      (exec job fuel (depth + 1) a >>= fun _ => pop >>= fun _ => k)
      (advance job' (exec job' fuel depth') fuel post.steps >>= fun _ =>
        dispatch job' (exec job' fuel depth') fuel (i + 1) >>= fun _ =>
          get >>= fun m => if m.returning then pure () else k') := by
  -- as a statement the clause drops its own value, where the loop drops it for
  -- the first machine
  obtain ⟨hcode, hsize, hsteps⟩ := hpost.asStmt p'
  rw [holds_append, Layout.length_stmt, hsize, hcode, holds_append,
    Layout.length_clause] at h'
  obtain ⟨⟨hclause, hpop, -⟩, hstop, -⟩ := h'
  have hall : InStep (Calm (Abreast u c false p p')) Q
      (exec job fuel (depth + 1) a >>= fun _ => (pop >>= fun _ => pure ()) >>= fun _ =>
        pure () >>= fun _ => k)
      (advance job' (exec job' fuel depth') fuel post.clauseSteps >>= fun _ =>
        advance job' (exec job' fuel depth') fuel 1 >>= fun _ =>
          dispatch job' (exec job' fuel depth') fuel (i + 1) >>= fun _ =>
            get >>= fun m => if m.returning then pure () else k') :=
    (inStep_clauseStretch hcalls hfuel hpost hlead h hclause).of_calm.bind fun _ =>
      (inStep_drop_right hpop).bind fun _ =>
        (inStep_ending_right hstop i).bind fun _ => inStep_onward_right hk
  simp only [bind_assoc, pure_bind] at hall
  rw [hsteps, advance_add, bind_assoc]
  exact hall

/-- One round of the body and the last clause: two stretches, or one. -/
theorem inStep_round
    (henters : EntersInStep u job job' (exec job fuel depth) (exec job' fuel depth') fuel)
    (hfuel : job.cells.size + 2 ≤ fuel) (hfuel' : job'.cells.size + 2 ≤ fuel)
    {body body' : List Stmt} {post : Stmt} {d e : Nat} {k k' : Exec Unit}
    (hbody : Stmt.AllCodable t body) (hpost : post.CodableClause t)
    (hrestated : Restated false body body') (hlead : Leads job.cells a b)
    (hlast : Leads job.cells d e) (hlead' : Leads job'.cells a' b')
    (h : Holds job.cells b (Layout.stmts t false b body ++ [.stop]))
    (hclause : Holds job.cells e (Layout.clause t post ++ [.stop]))
    (h' : Holds job'.cells b' (Layout.stmts t false b' (body' ++ [post]) ++ [.stop]))
    (hk : ∀ {p p'}, InStep (Abreast u c false p p') (Past u c q q') k k') :
    InStep (Abreast u c false p p') (Past u c q q')
      (exec job fuel (depth + 1) a >>= fun _ => get >>=
        fun m => if m.returning then pure ()
        else exec job fuel (depth + 1) d >>= fun _ => pop >>= fun _ => k)
      (exec job' fuel (depth' + 1) a' >>= fun _ => get >>= fun m =>
        if m.returning then pure () else k') := by
  -- a stretch has no more cells than the store, so the rounds suffice for it
  have hlength := h.length_le_size
  have hlength' := h'.length_le_size
  rw [List.length_append, Layout.length_stmts] at hlength hlength'
  have hsteps := Stmt.stepsAll_le_sizes body
  have hsteps' := Stmt.stepsAll_le_sizes (body' ++ [post])
  rw [holds_append, Layout.length_stmts] at h
  rw [Layout.stmts_append, Layout.stmts, Layout.stmts, List.append_nil,
    List.append_assoc, holds_append, Layout.length_stmts] at h'
  have hstmts := @inStep_stmts u t c job job' _ _ fuel b b' false hcalls
    henters body body' hrestated hbody h.1 h'.1
  rintro m _ hm
  obtain rfl := hm.other
  cases hi : m.interrupted with
  | true =>
    rw [Action.bind_of_error (exec_of_interrupted hm.flag hi (by omega) a)]
    exact .cut Halt.cutsShort_interrupted _
  | false =>
    obtain ⟨i, hexec⟩ := @exec_eq_advance job fuel depth a b (Stmt.stepsAll body) m
      hm.flag hi (by omega) hlead
    obtain ⟨i', hexec'⟩ :=
      @exec_eq_advance job' fuel depth' a' b' (Stmt.stepsAll (body' ++ [post]))
      (m.moved u.moves c.frames' p') hm.flag hi (by omega) hlead'
    rw [Action.bind_congr hexec, Action.bind_congr hexec',
      Stmt.stepsAll_append, advance_add]
    simp only [bind_assoc]
    refine (hstmts.bind fun _ => .or ?_ (inStep_left_round i i')) _ _
      ⟨rfl, rfl, hm.frames, hm.flag, hm.bodies⟩
    -- the body is done, so the last clause is run in both
    have hending := @inStep_ending_left u c job (exec job fuel depth) fuel _
      (b' + Stmt.sizes body') h.2.1 i
    have hlastClause := hending.bind fun _ => inStep_onward_left
      (inStep_lastClause hcalls hfuel hpost hlast hclause h'.2 hk i')
    rw [pure_bind] at hlastClause
    exact hlastClause

end

end Exec

/-! ### Levels of nesting -/

section

variable {u : Placement} {job job' : Job} {fuel : Nat}

/-- With no level left, every run of the first machine is cut short. -/
theorem entersInStep_zero {enter' : Nat → Exec Unit} :
    EntersInStep u job job' (Exec.exec job fuel 0) enter' fuel where
  expr _ _ _ _ _ _ _ _ := .cut Halt.cutsShort_nestedTooDeeply _
  clause _ _ _ _ _ _ _ _ := .cut Halt.cutsShort_nestedTooDeeply _
  stmts _ _ _ _ _ _ _ _ _ := .cut Halt.cutsShort_nestedTooDeeply _
  body _ _ _ _ _ _ _ := .cut Halt.cutsShort_nestedTooDeeply _
  first _ _ _ _ _ _ _ := .cut Halt.cutsShort_nestedTooDeeply _
  round _ _ _ _ _ _ _ _ _ _ _ _ _ := .cut Halt.cutsShort_nestedTooDeeply _

/-- One level more. The first clause of a loop is compared with a statement that
the second machine runs at the level of the loop, with `hoisted` for what calls
do there. -/
theorem EntersInStep.succ {depth depth' : Nat} (hfuel : job.cells.size + 2 ≤ fuel)
    (hfuel' : job'.cells.size + 2 ≤ fuel)
    (hcalls : CallsInStep u job job' (Exec.exec job fuel depth)
      (Exec.exec job' fuel depth'))
    (hoisted : CallsInStep u job job' (Exec.exec job fuel depth)
      (Exec.exec job' fuel (depth' + 1)))
    (henters : EntersInStep u job job' (Exec.exec job fuel depth)
      (Exec.exec job' fuel depth') fuel) :
    EntersInStep u job job' (Exec.exec job fuel (depth + 1))
      (Exec.exec job' fuel (depth' + 1)) fuel where
  expr {_ _ e _ _ _ _ _ _} he hlead hlead' h h' := by
    -- a stretch has no more cells than the store, so the rounds suffice for it
    have hlength := h.length_le_size
    have hlength' := h'.length_le_size
    rw [List.length_append, Layout.length_expr] at hlength hlength'
    rw [holds_append, Layout.length_expr] at h h'
    have hsteps := e.steps_le_size
    exact Exec.inStep_exec (by omega) (by omega) hlead hlead'
      (Exec.inStep_expr hcalls e he h.1 h'.1) fun _ _ hm => hm.rest h.2.1 h'.2.1
  clause {_ _ s _ _ _ _ _ _} hs hlead hlead' h h' := by
    have hlength := h.length_le_size
    have hlength' := h'.length_le_size
    rw [List.length_append, Layout.length_clause] at hlength hlength'
    rw [holds_append, Layout.length_clause] at h h'
    have hsteps := s.clauseSteps_le_clauseSize
    exact Exec.inStep_exec (by omega) (by omega) hlead hlead'
      (Exec.inStep_clause hcalls hs h.1 h'.1) fun _ _ hm => hm.rest h.2.1 h'.2.1
  stmts {_ _ ss ss' _ _ _ _ _ _ _} hss hrestated hlead hlead' h h' := by
    have hlength := h.length_le_size
    have hlength' := h'.length_le_size
    rw [List.length_append, Layout.length_stmts] at hlength hlength'
    rw [holds_append, Layout.length_stmts] at h h'
    have hsteps := Stmt.stepsAll_le_sizes ss
    have hsteps' := Stmt.stepsAll_le_sizes ss'
    exact Exec.inStep_exec (by omega) (by omega) hlead hlead'
      (Exec.inStep_stmts hcalls henters hrestated hss h.1 h'.1) fun _ _ hm =>
        hm.rest h.2.1 h'.2.1
  body {_ _ ss ss' _ _ _ _ _} hss hrestated h h' := by
    have hlength := h.length_le_size
    have hlength' := h'.length_le_size
    rw [Layout.length_body] at hlength hlength'
    have hsteps := Stmt.stepsAll_le_sizes ss
    have hsteps' := Stmt.stepsAll_le_sizes ss'
    exact Exec.inStep_exec (by omega) (by omega) (.inl rfl) (.inl rfl)
      (Exec.inStep_body hcalls henters hrestated hss h h') fun _ _ hm => hm.rest
  first := Exec.inStep_clauseStretch hoisted hfuel
  round := Exec.inStep_round hcalls henters hfuel hfuel'

/-- Entering a stretch keeps machines in step at every level of nesting, if the
second one has as many levels left. -/
theorem RestatesBodies.enters (hbodies : RestatesBodies u job job')
    (hlimits : job'.limits = job.limits) (hfuel : job.cells.size + 2 ≤ fuel)
    (hfuel' : job'.cells.size + 2 ≤ fuel) {depth depth' : Nat} (hdepth : depth ≤ depth') :
    EntersInStep u job job' (Exec.exec job fuel depth)
      (Exec.exec job' fuel depth') fuel := by
  induction depth generalizing depth' with
  | zero => exact entersInStep_zero
  | succ depth ih =>
    obtain ⟨depth', rfl⟩ : ∃ n, depth' = n + 1 := ⟨depth' - 1, by omega⟩
    exact .succ hfuel hfuel' (hbodies.calls hlimits (ih (by omega)))
      (hbodies.calls hlimits (ih (by omega))) (ih (by omega))

end

end StackCalc
