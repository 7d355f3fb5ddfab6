import StackCalc.Proofs.Simulation.Relocation

/-!
# Runs that do the same at two places

Both machines find the bodies of definitions at the same places
(`SharesBodies`), so a call pushes the same frame but for the place to return to
and runs the same body. `SharesBodies.enters` ties the knot, by induction on the
levels of nesting that are left, and `Exec.execute_joined` puts two runs
together: if the code of some statements is run, and then that of some others,
the code of all of them does the same in one run.
-/

namespace StackCalc

open StackCalc.Action (Mirrors)

/-! ### Calls -/

/-- Every body that a name leads to lies in the code of both, at the same place. -/
def SharesBodies (t : SymbolTable) (job job' : Job) : Prop :=
  ∀ id a, (t.get id).code = some a → ∃ (u : SymbolTable) (body : List Stmt),
    u.size ≤ t.size ∧ Stmt.AllCodable u body ∧
    Holds job.cells a (Layout.body u false a body) ∧
      Holds job'.cells a (Layout.body u false a body)

/-- The setting inside a call. -/
def Setting.within (c : Setting) (id k height p p' : Nat) : Setting where
  frames := c.frames.push ⟨id, k, p, height⟩
  frames' := c.frames'.push ⟨id, k, p', height⟩
  sure := false

section

variable {t more : SymbolTable} {job job' : Job} {c : Setting} {id k height p p' n : Nat}

/-- Both push the same frame but for the place to return to. -/
theorem Setting.Alike.within (hc : c.Alike t) (hid : id < t.size) :
    (c.within id k height p p').Alike t where
  bare := by
    show (c.frames'.push _).map Frame.bare = (c.frames.push _).map Frame.bare
    rw [Array.map_push, Array.map_push, hc.bare]
    rfl
  callee f hf := by
    have hback : (c.within id k height p p').frames.back? = some ⟨id, k, p, height⟩ :=
      Array.back?_push
    cases hback.symm.trans hf
    exact hid

/-- A call that has returned: its arguments are gone, and its value, if any, is
on the stack. -/
theorem Gone.called {m m' : Machine} (h : Gone t more (c.within id k height p p') m m')
    (hheight : c.sure = true → height = n + k) :
    Called t more c id p p' n { m with returning := false }
      { m' with returning := false } := by
  obtain ⟨f, r, ⟨htop, htop'⟩, h⟩ := h
  have hback : (c.within id k height p p').frames.back? = some ⟨id, k, p, height⟩ :=
    Array.back?_push
  have hback' : (c.within id k height p p').frames'.back? = some ⟨id, k, p', height⟩ :=
    Array.back?_push
  -- the frame on top is the one that the call has pushed
  cases hback.symm.trans htop
  cases hback'.symm.trans htop'
  have htwin : ∀ {l}, Returning t more (c.within id k height p p')
      ⟨id, k, p, height⟩ p' l m m' →
      Twin t more c p p' (n + l) { m with returning := false }
        { m' with returning := false } := by
    intro l hl
    refine ⟨?_, hl.pc, ?_, rfl, hl.symbols, fun hs => ?_⟩
    · rw [hl.other]
      show _ = Machine.elsewhere _ more c.frames' p'
      have hpop : (c.within id k height p p').frames'.pop = c.frames' := Array.pop_push
      rw [hpop]
      rfl
    · have hpop : (c.within id k height p p').frames.pop = c.frames := Array.pop_push
      exact hl.frames.trans (congrArg Stack.mk hpop)
    · have hlevel : m.stack.size = height - k + l := hl.level
      have hheight := hheight hs
      show m.stack.size = n + l
      omega
  exact h.imp (And.imp_right htwin) (And.imp_right htwin)

/-- The frame of a call is pushed. -/
theorem Exec.twin_pushFrame (hlimits : job'.limits = job.limits) (hc : c.Alike t) :
    Mirrors (Twin t more c p p' n) (Twin t more (c.within id k height p p') p p' 0)
      (Exec.onFrames (Stack.push job.limits.frames .callNestedTooDeeply
        ⟨id, k, p, height⟩))
      (Exec.onFrames (Stack.push job'.limits.frames .callNestedTooDeeply
        ⟨id, k, p', height⟩)) := by
  rintro m _ u m₁ h hrun
  obtain rfl := h.other
  have hfull : Stack.isFull job.limits.frames (⟨c.frames'⟩ : Stack Frame) =
      Stack.isFull job.limits.frames (⟨c.frames⟩ : Stack Frame) :=
    congrArg (fun n => decide (job.limits.frames ≤ n)) hc.size
  rw [Exec.onFrames, h.frames, Stack.push] at hrun
  -- there is room for the frame in both, for as many calls have not returned
  split at hrun
  · rename_i hpush
    split at hpush
    · cases hpush
    · rename_i hfits
      cases hpush
      cases hrun
      refine ⟨_, Exec.onFrames_of_ok (if_neg ?_),
        ⟨rfl, h.pc, rfl, h.onward, h.symbols, fun hs => by cases hs⟩⟩
      rw [hlimits]
      exact hfull ▸ hfits
  · cases hrun

/-- A call from its frame on, by what entering its body does. -/
theorem Exec.twin_within (hlimits : job'.limits = job.limits) (hc : c.Alike t)
    {enter enter' : Nat → Exec Unit} {b : Nat} (hheight : c.sure = true → height = n + k)
    (hbody : Mirrors (Twin t more (c.within id k height p p') p p' 0)
      (Gone t more (c.within id k height p p')) (enter b) (enter' b)) :
    Mirrors (Twin t more c p p' (n + k)) (Called t more c id p p' n)
      (Exec.onFrames (Stack.push job.limits.frames .callNestedTooDeeply
        ⟨id, k, p, height⟩) >>= fun _ =>
        enter b >>= fun _ => modify fun m => { m with returning := false })
      (Exec.onFrames (Stack.push job'.limits.frames .callNestedTooDeeply
        ⟨id, k, p', height⟩) >>=
        fun _ => enter' b >>= fun _ => modify fun m =>
          { m with returning := false }) := by
  refine (twin_pushFrame hlimits hc).bind fun _ => hbody.bind fun _ => ?_
  rintro m m' u m₁ h ⟨⟩
  exact ⟨_, rfl, h.called hheight⟩

/-- Calls do the same at two places, if entering a body does. -/
theorem SharesBodies.calls (hshared : SharesBodies t job job')
    (hlimits : job'.limits = job.limits) {enter enter' : Nat → Exec Unit}
    (henters : EntersAlike t more job job' enter enter') :
    CallsAlike t more job job' enter enter' where
  limits := hlimits
  call {c id k p p' n} hc hid hsymbol hcount hsymbol' hcount' := by
    refine Exec.twin_symbolOperand hsymbol hsymbol'
      (Exec.twin_countOperand hcount hcount' ?_)
    rintro m _ u m₁ h hrun
    obtain rfl := h.other
    have hfull : (m.elsewhere more c.frames' (p' + 1 + 1)).frames.isFull
        job'.limits.frames =
        m.frames.isFull job.limits.frames := by
      rw [hlimits, h.frames]
      exact congrArg (fun n => decide (job.limits.frames ≤ n)) hc.size
    rw [Action.bind_of_ok (Action.get_apply m)] at hrun
    rw [Action.bind_of_ok (Action.get_apply _), hfull]
    split at hrun
    · exact nomatch hrun
    · rename_i hfits
      rw [Action.bind_of_ok (Exec.symbol_apply id m)] at hrun
      rw [if_neg hfits, Action.bind_of_ok (Exec.symbol_apply id _), h.get_plus hid]
      rw [h.symbols.code id] at hrun ⊢
      -- a name without a body fails in the first machine, so nothing is to be
      -- shown
      cases hcode : (t.get id).code with
      | none =>
        rw [hcode] at hrun
        exact nomatch hrun
      | some b =>
        rw [hcode] at hrun
        obtain ⟨u, body, hu, hbody, hcells, hcells'⟩ := hshared id b hcode
        have hcall : Mirrors (Twin t more c (p + 2) (p' + 2) (n + k))
            (Called t more c id (p + 2) (p' + 2) n) _ _ :=
          Exec.twin_within hlimits hc h.level
            (henters.body (hc.within hid) rfl hu hbody hcells hcells')
        by_cases hheight : m.stack.size < k
        · change (if m.stack.size < k then Exec.fail .stackUnderflow else _ : Exec Unit)
            m = _ at hrun
          rw [if_pos hheight] at hrun
          exact nomatch hrun
        · change (if m.stack.size < k then Exec.fail .stackUnderflow else _ : Exec Unit)
            m = _ at hrun
          change ∃ m',
            (if m.stack.size < k then Exec.fail .stackUnderflow else _ : Exec Unit) _ =
              _ ∧ _
          rw [if_neg hheight, h.pc] at hrun
          rw [if_neg hheight]
          exact hcall _ _ _ _ h hrun

end

/-! ### Levels of nesting -/

/-- Two machines where a stretch ends: at a stop, or with a return under way. -/
def Rest (job job' : Job) (m m' : Machine) : Prop :=
  (m.returning = true ∧ m'.returning = true) ∨
    (m.returning = false ∧ m'.returning = false ∧ m'.interrupted = m.interrupted ∧
      job.cells[m.pc]? = some .stop ∧ job'.cells[m'.pc]? = some .stop)

section

variable {t more : SymbolTable} {job job' : Job} {c : Setting} {p p' n : Nat}
  {m m' : Machine}

/-- Twins at a stop are at rest. -/
theorem Twin.rest (h : Twin t more c p p' n m m') (hstop : job.cells[p]? = some .stop)
    (hstop' : job'.cells[p']? = some .stop) : Rest job job' m m' := by
  obtain rfl := h.other
  obtain rfl := h.pc
  exact .inr ⟨h.onward, h.onward, rfl, hstop, hstop'⟩

/-- So are machines with a return under way. -/
theorem Gone.rest (h : Gone t more c m m') : Rest job job' m m' :=
  .inl h.under_way

/-- So the code of a statement ends at rest. -/
theorem Over.rest (h : Over t more c p p' n m m') (hstop : job.cells[p]? = some .stop)
    (hstop' : job'.cells[p']? = some .stop) : Rest job job' m m' :=
  h.elim (fun h => h.rest hstop hstop') Gone.rest

end

namespace Exec

variable {t more : SymbolTable} {c : Setting} {job job' : Job}
  {enter enter' : Nat → Exec Unit} {fuel depth a a' b b' p p' n k : Nat} {m : Machine}
  {Q : Machine → Machine → Prop}

/-- A stretch that has come to its end ends. -/
theorem mirrors_ending (hrest : ∀ m m', Q m m' → Rest job job' m m') (k k' : Nat) :
    Mirrors Q Q (dispatch job enter fuel (k + 1))
      (dispatch job' enter' fuel (k' + 1)) := by
  intro m m' u m₁ h hrun
  rcases hrest m m' h with ⟨hr, hr'⟩ | ⟨hr, hr', hi, hstop, hstop'⟩
  · rw [dispatch_of_cell_false (cell_of_returning hr)] at hrun
    cases hrun
    exact ⟨m', dispatch_of_cell_false (cell_of_returning hr') k', h⟩
  · cases hinterrupted : m.interrupted with
    | true =>
      rw [dispatch, Action.bind_of_error (cell_of_interrupted hr hinterrupted)] at hrun
      cases hrun
    | false =>
      rw [dispatch_of_cell_false (cell_of_stop hr hinterrupted hstop)] at hrun
      cases hrun
      exact ⟨m', dispatch_of_cell_false
        (cell_of_stop hr' (hi.trans hinterrupted) hstop') k', h⟩

/-- A stretch runs as its cells do, and then comes to its end. -/
theorem exec_eq_advance (hr : m.returning = false) (hi : m.interrupted = false)
    (hfuel : k + 2 ≤ fuel) (hlead : Leads job.cells a b) :
    ∃ rounds, exec job fuel (depth + 1) a m =
      (advance job (exec job fuel depth) fuel k >>= fun _ =>
        dispatch job (exec job fuel depth) fuel (rounds + 1)) { m with pc := b } := by
  have hexec : exec job fuel (depth + 1) a m =
      dispatch job (exec job fuel depth) fuel fuel { m with pc := a } := rfl
  rcases hlead with rfl | hcell
  · obtain ⟨rounds, hrounds⟩ : ∃ rounds, fuel = k + (rounds + 1) :=
      ⟨fuel - k - 1, by omega⟩
    have hsplit := @dispatch_advance job (exec job fuel depth) fuel k rounds
      { m with pc := a }
    rw [← hrounds] at hsplit
    exact ⟨rounds, hexec.trans hsplit⟩
  -- an address that only leads there takes one more
  · obtain ⟨rounds, hrounds⟩ : ∃ rounds, fuel = 1 + k + (rounds + 1) :=
      ⟨fuel - k - 2, by omega⟩
    have hsplit := @dispatch_advance job (exec job fuel depth) fuel (1 + k) rounds
      { m with pc := a }
    have hone : advance job (exec job fuel depth) fuel 1 { m with pc := a } =
        .ok () { m with pc := b } :=
      Action.bind_of_ok (@cell_of_address job _ fuel { m with pc := a } hr hi b hcell)
    rw [← hrounds, advance_add, bind_assoc, Action.bind_of_ok hone] at hsplit
    exact ⟨rounds, hexec.trans hsplit⟩

/-- A stretch that starts interrupted fails. -/
theorem exec_of_interrupted (hr : m.returning = false) (hi : m.interrupted = true)
    (hfuel : 0 < fuel) (a : Nat) :
    exec job fuel (depth + 1) a m =
      .error (.fault { kind := .interrupted }) { m with pc := a } := by
  obtain ⟨rounds, rfl⟩ : ∃ rounds, fuel = rounds + 1 := ⟨fuel - 1, by omega⟩
  have hcell :=
    @cell_of_interrupted job (exec job (rounds + 1) depth) (rounds + 1)
      { m with pc := a } hr hi
  show dispatch job (exec job (rounds + 1) depth) (rounds + 1) (rounds + 1)
    { m with pc := a } = _
  exact Action.bind_of_error hcell

/-- Two stretches keep twins alike if their cells do. -/
theorem twin_exec (hfuel : k + 2 ≤ fuel) (hlead : Leads job.cells a b)
    (hlead' : Leads job'.cells a' b')
    (h : Mirrors (Twin t more c b b' n) Q (advance job (exec job fuel depth) fuel k)
      (advance job' (exec job' fuel depth) fuel k))
    (hrest : ∀ m m', Q m m' → Rest job job' m m') :
    Mirrors (Twin t more c p p' n) Q (exec job fuel (depth + 1) a)
      (exec job' fuel (depth + 1) a') := by
  rintro m _ u m₁ hm hrun
  obtain rfl := hm.other
  cases hi : m.interrupted with
  | true =>
    have hfails := @exec_of_interrupted job fuel depth m hm.onward hi (by omega) a
    exact nomatch hfails.symm.trans hrun
  | false =>
    obtain ⟨rounds, hexec⟩ :=
      @exec_eq_advance job fuel depth a b k m hm.onward hi hfuel hlead
    obtain ⟨rounds', hexec'⟩ :=
      @exec_eq_advance job' fuel depth a' b' k (m.elsewhere more c.frames' p') hm.onward
      hi hfuel hlead'
    have hstart : Twin t more c b b' n { m with pc := b }
        (m.elsewhere more c.frames' b') :=
      ⟨rfl, rfl, hm.frames, hm.onward, hm.symbols, hm.level⟩
    rw [hexec] at hrun
    obtain ⟨m₁', hrun', hQ⟩ :=
      (h.bind fun _ => mirrors_ending hrest rounds rounds') _ _ _ _ hstart hrun
    exact ⟨m₁', hexec'.trans hrun', hQ⟩

end Exec

section

variable {t more : SymbolTable} {job job' : Job}

/-- With no level left, every run fails. -/
theorem entersAlike_zero {fuel : Nat} :
    EntersAlike t more job job' (Exec.exec job fuel 0) (Exec.exec job' fuel 0) where
  expr _ _ _ _ _ _ _ _ := Exec.mirrors_fail _ _ _
  clause _ _ _ _ _ _ _ _ := Exec.mirrors_fail _ _ _
  stmts _ _ _ _ _ _ _ _ := Exec.mirrors_fail _ _ _
  body _ _ _ _ _ _ := Exec.mirrors_fail _ _ _

/-- One level more. -/
theorem EntersAlike.succ {fuel depth : Nat} (hfuel : job.cells.size + 2 ≤ fuel)
    (hcalls : CallsAlike t more job job' (Exec.exec job fuel depth)
      (Exec.exec job' fuel depth))
    (henters : EntersAlike t more job job' (Exec.exec job fuel depth)
      (Exec.exec job' fuel depth)) :
    EntersAlike t more job job' (Exec.exec job fuel (depth + 1))
      (Exec.exec job' fuel (depth + 1)) where
  expr {_ _ e _ _ _ _ _ _ _} hc hu he hagree hlead hlead' h h' := by
    -- a stretch has no more cells than the store, so the rounds suffice for it
    have hlength := h.length_le_size
    rw [List.length_append, Layout.length_expr] at hlength
    rw [holds_append, Layout.length_expr] at h h'
    have hsteps := e.steps_le_size
    exact Exec.twin_exec (by omega) hlead hlead'
      (Exec.twin_expr hcalls hc hu e he hagree h.1 h'.1) fun _ _ hm =>
        hm.rest h.2.1 h'.2.1
  clause {_ _ s _ _ _ _ _ _ _} hc hu hs hagree hlead hlead' h h' := by
    have hlength := h.length_le_size
    rw [List.length_append, Layout.length_clause] at hlength
    rw [holds_append, Layout.length_clause] at h h'
    have hsteps := s.clauseSteps_le_clauseSize
    exact Exec.twin_exec (by omega) hlead hlead'
      (Exec.twin_clause hcalls hc hu hs hagree h.1 h'.1) fun _ _ hm =>
        hm.rest h.2.1 h'.2.1
  stmts {_ _ ss _ _ _ _ _ _ _} hc hu hss hagree hlead hlead' h h' := by
    have hlength := h.length_le_size
    rw [List.length_append, Layout.length_stmts] at hlength
    rw [holds_append, Layout.length_stmts] at h h'
    have hsteps := Stmt.stepsAll_le_sizes ss
    exact Exec.twin_exec (by omega) hlead hlead'
      (Exec.twin_stmts hcalls henters hc hu hss hagree h.1 h'.1) fun _ _ hm =>
        hm.rest h.2.1 h'.2.1
  body {_ _ ss _ _ _ _} hc hsure hu hss h h' := by
    have hlength := h.length_le_size
    rw [Layout.length_body] at hlength
    have hsteps := Stmt.stepsAll_le_sizes ss
    exact Exec.twin_exec (by omega) (.inl rfl) (.inl rfl)
      (Exec.twin_body hcalls henters hc hu hsure hss h h') fun _ _ hm => hm.rest

/-- Entering a stretch does the same at two places, at every level of nesting. -/
theorem SharesBodies.enters (hshared : SharesBodies t job job')
    (hlimits : job'.limits = job.limits) {fuel : Nat} (hfuel : job.cells.size + 2 ≤ fuel)
    (depth : Nat) :
    EntersAlike t more job job' (Exec.exec job fuel depth)
      (Exec.exec job' fuel depth) := by
  induction depth with
  | zero => exact entersAlike_zero
  | succ depth ih => exact .succ hfuel (hshared.calls hlimits ih) ih

end

/-! ### Whole runs -/

/-- Nothing has been called. -/
def Setting.outside : Setting :=
  ⟨#[], #[], true⟩

theorem Setting.alike_outside (t : SymbolTable) : Setting.outside.Alike t :=
  ⟨rfl, nofun⟩

/-- The code of statements whose calls agree, with a stop behind it. -/
structure Stretch (t : SymbolTable) (job : Job) (a : Nat) (ss : List Stmt) : Prop where
  wellFormed : Stmt.AllWellFormed t false ss
  agrees : Stmt.allAgree t ss
  code : Holds job.cells a (Layout.stmts t false a ss ++ [.stop])

namespace Exec

variable {t more : SymbolTable} {job job' : Job} {fuel depth a a' n p p' : Nat}
  {m m' m₁ : Machine} {ss : List Stmt}

/-- There is no frame to return from. -/
theorem twin_of_over_outside (h : Over t more .outside p p' n m m') :
    Twin t more .outside p p' n m m' := by
  rcases h with h | ⟨f, r, htop, -⟩
  · exact h
  · exact nomatch htop.top

/-- A run of the code of statements is repeated by their cells at another place,
and ends at its stop without an interrupt. -/
theorem advance_of_exec (hshared : SharesBodies t job job')
    (hlimits : job'.limits = job.limits) (hfuel : job.cells.size + 2 ≤ fuel)
    (hstretch : Stretch t job a ss)
    (h' : Holds job'.cells a' (Layout.stmts t false a' ss))
    (hm : Twin t more .outside a a' 0 m m') (hi : m.interrupted = false) {u : Unit}
    (hrun : exec job fuel (depth + 1) a m = .ok u m₁) :
    ∃ m₁', advance job' (exec job' fuel depth) fuel (Stmt.stepsAll ss) m' = .ok () m₁' ∧
      Twin t more .outside (a + Stmt.sizes ss) (a' + Stmt.sizes ss) 0 m₁ m₁' ∧
      m₁.interrupted = false := by
  obtain ⟨hss, hagree, h⟩ := hstretch
  have hlength := h.length_le_size
  rw [List.length_append, Layout.length_stmts] at hlength
  rw [holds_append, Layout.length_stmts] at h
  have hsteps := Stmt.stepsAll_le_sizes ss
  have henters : EntersAlike t more job job' (exec job fuel depth)
      (exec job' fuel depth) :=
    hshared.enters hlimits hfuel depth
  obtain rfl := hm.pc
  obtain ⟨rounds, hexec⟩ :=
    @exec_eq_advance job fuel depth m.pc m.pc (Stmt.stepsAll ss) m hm.onward hi
    (by omega) (.inl rfl)
  obtain ⟨_, m₂, hcells, hend⟩ := Action.of_bind_ok (hexec.symm.trans hrun)
  obtain ⟨m₂', hcells', hover⟩ := twin_stmts (hshared.calls hlimits henters) henters
    (Setting.alike_outside t) (Nat.le_refl _) hss.codable (fun _ => hagree) h.1 h' _
    _ _ _ hm hcells
  have htwin := twin_of_over_outside hover
  have hstop : job.cells[m₂.pc]? = some .stop := by
    rw [htwin.pc]
    exact h.2.1
  cases hinterrupted : m₂.interrupted with
  | true =>
    rw [dispatch, Action.bind_of_error
      (cell_of_interrupted htwin.onward hinterrupted)] at hend
    cases hend
  | false =>
    rw [dispatch_of_cell_false (cell_of_stop htwin.onward hinterrupted hstop)] at hend
    cases hend
    exact ⟨m₂', hcells', htwin, hinterrupted⟩

/-- How a run starts, and how it starts elsewhere. -/
theorem twin_start (m : Machine) (more : SymbolTable) (a a' : Nat) :
    Twin m.symbols more .outside a a' 0 (m.start a) ((m.start a).elsewhere more #[] a') :=
  ⟨rfl, rfl, rfl, rfl, .refl _, fun _ => rfl⟩

/-- Where a run has ended that left nothing behind, another one can start. -/
theorem between_runs (h : Twin t more .outside p p' 0 m m')
    (hi : m.interrupted = false) (a : Nat) :
    m' = ({ m with symbols := m.symbols.plus more }.start a).elsewhere {} #[] p' := by
  have hstack : m.stack = {} :=
    congrArg Stack.mk (Array.size_eq_zero_iff.mp (h.level rfl))
  rw [h.other]
  unfold Machine.elsewhere Machine.start
  rw [SymbolTable.plus_empty, h.onward, hi, hstack]
  rfl

/-- A run that ended elsewhere without more symbols. -/
theorem shifted_of_twin (h : Twin t {} .outside p p' n m m') :
    m' = { m with pc := p' } := by
  rw [h.other]
  unfold Machine.elsewhere
  rw [SymbolTable.plus_empty, h.frames]
  rfl

/-- What has been run of the levels of nesting there are. -/
theorem exec_of_execute {u : Unit} (h : execute job fuel a m = .ok u m₁) :
    ∃ depth, job.limits.depth = depth + 1 ∧
      exec job fuel (depth + 1) a (m.start a) = .ok u m₁ := by
  have hexec : exec job fuel job.limits.depth a (m.start a) = .ok u m₁ := h
  cases hdepth : job.limits.depth with
  | zero =>
    rw [hdepth] at hexec
    exact nomatch hexec
  | succ depth =>
    rw [hdepth] at hexec
    exact ⟨depth, rfl, hexec⟩

/-- A run of such code changes nothing in the table of symbols but the values of
variables. -/
theorem assigned_of_execute (hshared : SharesBodies m.symbols job job)
    (hfuel : job.cells.size + 2 ≤ fuel)
    (hstretch : Stretch m.symbols job a ss) {u : Unit}
    (h : execute job fuel a m = .ok u m₁) :
    m.symbols.Assigned m₁.symbols := by
  obtain ⟨depth, -, hexec⟩ := exec_of_execute h
  have hcode := hstretch.code
  rw [holds_append] at hcode
  obtain ⟨_, -, htwin, -⟩ :=
    advance_of_exec hshared rfl hfuel hstretch hcode.1 (twin_start m {} a a) rfl hexec
  exact htwin.symbols

/-- One run does what two do: of the statements `ss₁`, and then, with `more`
symbols, of the statements `ss₂`. -/
theorem execute_joined {job₁ job₂ : Job} {ss₁ ss₂ : List Stmt} {t₂ : SymbolTable}
    {m₂ : Machine} {u₁ u₂ : Unit}
    (hshared₁ : SharesBodies m.symbols job₁ job) (hshared₂ : SharesBodies t₂ job₂ job)
    (hlimits₁ : job.limits = job₁.limits) (hlimits₂ : job.limits = job₂.limits)
    (hstretch₁ : Stretch m.symbols job₁ a ss₁) (hstretch₂ : Stretch t₂ job₂ a ss₂)
    (hcode : Holds job.cells a (Layout.stmts m.symbols false a ss₁ ++
      (Layout.stmts t₂ false (a + Stmt.sizes ss₁) ss₂ ++ [.stop])))
    (hfuel₁ : job₁.cells.size + 2 ≤ fuel) (hfuel₂ : job₂.cells.size + 2 ≤ fuel)
    (hfuel : job.cells.size + 2 ≤ fuel)
    (h₁ : execute job₁ fuel a m = .ok u₁ m₁) (ht₂ : t₂ = m₁.symbols.plus more)
    (h₂ : execute job₂ fuel a { m₁ with symbols := t₂ } = .ok u₂ m₂) :
    ∃ pc, execute job fuel a { m with symbols := m.symbols.plus more } =
      .ok () { m₂ with pc } := by
  have hlength := hcode.length_le_size
  rw [List.length_append, List.length_append, Layout.length_stmts,
    Layout.length_stmts] at hlength
  rw [holds_append, holds_append, Layout.length_stmts, Layout.length_stmts] at hcode
  obtain ⟨hcode₁, hcode₂, hstop, -⟩ := hcode
  obtain ⟨depth, hdepth, hexec₁⟩ := exec_of_execute h₁
  obtain ⟨depth', hdepth', hexec₂⟩ := exec_of_execute h₂
  obtain rfl : depth = depth' := by
    rw [← hlimits₁, hlimits₂] at hdepth
    omega
  -- the first run is repeated by the first part of the code, and the second run from
  -- there on
  obtain ⟨m₁', hrun₁, htwin₁, hcalm₁⟩ :=
    advance_of_exec hshared₁ hlimits₁ hfuel₁ hstretch₁ hcode₁
      (twin_start m more a a) rfl hexec₁
  have hbetween : m₁' = ({ m₁ with symbols := t₂ }.start a).elsewhere {} #[]
      (a + Stmt.sizes ss₁) := by
    rw [ht₂]
    exact between_runs htwin₁ hcalm₁ a
  rw [hbetween] at hrun₁
  obtain ⟨m₂', hrun₂, htwin₂, hcalm₂⟩ :=
    advance_of_exec hshared₂ hlimits₂ hfuel₂ hstretch₂ hcode₂
    (twin_start { m₁ with symbols := t₂ } {} a (a + Stmt.sizes ss₁)) rfl hexec₂
  have hend := shifted_of_twin htwin₂
  -- what is left is the stop
  have hcell : cell job (exec job fuel depth) fuel m₂' = .ok false m₂' := by
    rw [hend]
    exact cell_of_stop htwin₂.onward hcalm₂ hstop
  have hsteps₁ := Stmt.stepsAll_le_sizes ss₁
  have hsteps₂ := Stmt.stepsAll_le_sizes ss₂
  obtain ⟨rounds, hexec⟩ :=
    @exec_eq_advance job fuel depth a a (Stmt.stepsAll ss₁ + Stmt.stepsAll ss₂)
    ((m.start a).elsewhere more #[] a) rfl rfl (by omega) (.inl rfl)
  have hrun : (advance job (exec job fuel depth) fuel
      (Stmt.stepsAll ss₁ + Stmt.stepsAll ss₂) >>=
      fun _ => dispatch job (exec job fuel depth) fuel (rounds + 1))
        ((m.start a).elsewhere more #[] a) = .ok () m₂' := by
    rw [advance_add, bind_assoc, Action.bind_of_ok hrun₁, Action.bind_of_ok hrun₂,
      dispatch_of_cell_false hcell]
  refine ⟨a + Stmt.sizes ss₁ + Stmt.sizes ss₂, ?_⟩
  show exec job fuel job.limits.depth a ((m.start a).elsewhere more #[] a) = _
  rw [hlimits₁, hdepth, ← hend]
  exact hexec.trans hrun

end Exec

end StackCalc
