import StackCalc.Proofs.Simulation.Code

/-!
# Statements that track their evaluation

A loop and a condition run stretches one level further in. `Enters` says that
those stretches track the evaluation of what they were generated from; given
that, and calls that track theirs, so does the code of every statement
(`Exec.tracks_stmts`) and of every body (`Exec.tracks_body`). A loop is followed
round by round.
-/

namespace StackCalc

/-! ### Between statements -/

/-- A world in which the code of a statement may be run: inside a definition the
operand stack is as high as when the call started. -/
structure Poised (quiet inDefinition : Bool) (t : SymbolTable) (w : World) (σ : Signals)
    (S : Array Datum) (F : Array Frame) :
    Prop extends Ready quiet inDefinition t w σ S F where
  level : inDefinition = true → ∀ f, F.back? = some f → S.size = f.height

section

variable {α : Type} {quiet inDefinition : Bool} {t : SymbolTable} {w w' : World}
  {σ σ' : Signals} {S S' : Array Datum} {F : Array Frame} {x : Eval α} {y : α}

/-- Something has been evaluated that may have changed the arguments of the call
at hand. -/
theorem Poised.next (h : Poised quiet inDefinition t w σ S F) (hb : Eval.Behaves x)
    (hx : x w = .ok y w') (hσ' : quiet = true → σ'.Calm) (hS : Alike F S S')
    (hs : Situated inDefinition w'.call F S') :
    Poised quiet inDefinition t w' σ' S' F where
  calm := hσ'
  fits := h.fits.of_ok hb hx
  situated := hs
  level hd f hf := hS.size.trans (h.level hd f hf)

/-- Something has been evaluated that leaves the call at hand alone. -/
theorem Poised.of_ok (h : Poised quiet inDefinition t w σ S F) (hb : Eval.Behaves x)
    (hr : Eval.Restores x) (hx : x w = .ok y w') (hσ' : quiet = true → σ'.Calm) :
    Poised quiet inDefinition t w' σ' S F :=
  ⟨h.toReady.of_ok hb hr hx hσ', h.level⟩

/-- Below the arguments of the frame on top, stacks that are alike are the same. -/
theorem Alike.take_eq (h : Alike F S S') {f : Frame} (hf : F.back? = some f) :
    S'.take (f.height - f.count) = S.take (f.height - f.count) := by
  refine Array.ext_getElem? fun i => ?_
  rw [Array.take_eq_extract, Array.take_eq_extract, Array.getElem?_extract,
    Array.getElem?_extract, h.size, Nat.zero_add]
  split
  · rcases h.item i with hi | ⟨g, hg, hle, -⟩
    · exact hi
    · cases hf.symm.trans hg
      omega
  · rfl

/-- What a statement leaves may be said of the stack before an earlier one. -/
theorem Finished.of_alike {a : Nat} {flow : Flow} {u : Unit} {m : Machine}
    (hS : Alike F S S') (h : Finished quiet inDefinition S' F a flow w u m) :
    Finished quiet inDefinition S F a flow w u m := by
  cases flow with
  | next =>
    obtain ⟨S'', hm, hS', hs⟩ := h
    exact ⟨S'', hm, hS.trans hS', hs⟩
  | back v =>
    obtain ⟨f, hf, hm⟩ := h
    rw [hS.take_eq hf] at hm
    exact ⟨f, hf, hm⟩

end

/-! ### Stretches further in -/

/-- What entering a stretch does: it tracks the evaluation of what its code was
generated from. -/
structure Enters (quiet : Bool) (job : Job) (t : SymbolTable) (enter : Nat → Exec Unit)
    (invoke : Nat → List Float → Eval (Option Float)) (rounds : Nat) : Prop where
  expr : ∀ {e inDefinition w σ S F a b pc}, Expr.WellFormed t inDefinition e →
    Exec.Leads job.cells a b → Holds job.cells b (Layout.expr t e ++ [.stop]) →
    Ready quiet inDefinition t w σ S F →
    Tracks quiet (Pushed quiet S F (b + e.size)) (Eval.expr invoke e w)
      (enter a (w.machine σ S F pc false))
  clause : ∀ {s inDefinition w σ S F a b pc}, Stmt.IsClause t inDefinition s →
    Exec.Leads job.cells a b → Holds job.cells b (Layout.clause t s ++ [.stop]) →
    Ready quiet inDefinition t w σ S F →
    Tracks quiet (Settled quiet inDefinition S F (b + s.clauseSize))
      (Eval.clause invoke s w) (enter a (w.machine σ S F pc false))
  stmts : ∀ {ss echo inDefinition w σ S F a b pc}, Stmt.AllWellFormed t inDefinition ss →
    Exec.Leads job.cells a b → Holds job.cells b (Layout.stmts t echo b ss ++ [.stop]) →
    Poised quiet inDefinition t w σ S F →
    Tracks quiet (Finished quiet inDefinition S F (b + Stmt.sizes ss))
      (Eval.stmts invoke echo rounds ss w) (enter a (w.machine σ S F pc false))
  body : ∀ {ss echo w σ S F a pc}, Stmt.AllWellFormed t true ss →
    Holds job.cells a (Layout.body t echo a ss) → Poised quiet true t w σ S F →
    Tracks quiet (fun v w' _ m' => Returned quiet S F v w' m')
      (Eval.body invoke echo rounds ss w) (enter a (w.machine σ S F pc false))

namespace Exec

variable {job : Job} {enter : Nat → Exec Unit}
  {invoke : Nat → List Float → Eval (Option Float)} {quiet : Bool} {t : SymbolTable}
  {fuel : Nat} {echo inDefinition : Bool} {w : World} {σ : Signals} {S : Array Datum}
  {F : Array Frame} {a b pc : Nat}

theorem slotAddress_apply (h : job.cells[a]? = some (.address b)) (m : Machine) :
    slotAddress job a m = .ok b m := by
  rw [slotAddress, h]
  rfl

/-- A condition has the truth of its value. -/
theorem tracks_condition (henters : Enters quiet job t enter invoke fuel) {e : Expr}
    (he : e.WellFormed t inDefinition)
    (hcode : Holds job.cells a (Layout.expr t e ++ [.stop])) (hlead : Leads job.cells b a)
    (h : Ready quiet inDefinition t w σ S F) :
    Tracks quiet (fun x w' y m' => y = isTrue x ∧
      w'.Shown quiet S F (a + e.size) false m') (Eval.expr invoke e w)
        (condition enter b (w.machine σ S F pc false)) := by
  refine (henters.expr he hlead hcode h).bind_right ?_
  rintro x w' _ _ - ⟨σ', hσ', rfl⟩
  rw [Action.bind_of_ok (pop_push x)]
  exact Tracks.ok ⟨rfl, σ', hσ', rfl⟩

/-- What follows the body of a loop or a branch: nothing, with a return under
way. -/
theorem tracks_after {flow : Flow} {m : Machine} {g : Eval Flow} {k : Exec Unit}
    (h : Finished quiet inDefinition S F a flow w () m)
    (hk : ∀ {S' σ'}, (quiet = true → σ'.Calm) → Alike F S S' →
      Situated inDefinition w.call F S' →
      Tracks quiet (Finished quiet inDefinition S' F b) (g w)
        (k (w.machine σ' S' F a false))) :
    Tracks quiet (Finished quiet inDefinition S F b)
      ((match flow with
        | .next => g
        | .back v => pure (.back v) : Eval Flow) w)
      ((get >>= fun m => if m.returning then pure () else k : Exec Unit) m) := by
  cases flow with
  | next =>
    obtain ⟨S', ⟨σ', hσ', rfl⟩, hS, hs⟩ := h
    exact (hk hσ' hS hs).mono fun _ hf => hf.of_alike hS
  | back v =>
    obtain ⟨f, hf, σ', hσ', rfl⟩ := h
    exact Tracks.ok ⟨f, hf, σ', hσ', rfl⟩

/-- The end of a loop or a branch. -/
theorem tracks_leaving (hcell : job.cells[a]? = some (.address b))
    (hσ : quiet = true → σ.Calm) (hs : Situated inDefinition w.call F S) :
    Tracks quiet (Finished quiet inDefinition S F b) (.ok .next w)
      ((slotAddress job a >>= fun c => jump c) (w.machine σ S F pc false)) := by
  rw [Action.bind_of_ok (slotAddress_apply hcell _)]
  exact Tracks.ok ⟨S, ⟨σ, hσ, rfl⟩, Alike.refl F S, hs⟩

/-! ### Loops and conditions -/

/-- Where a `while` loop whose slots start at `a` has its parts: the body at
`b`, and behind it `c`. -/
structure WhileAt (job : Job) (t : SymbolTable) (echo : Bool) (cond : Expr)
    (body : List Stmt) (a b c : Nat) : Prop where
  bodyLink : job.cells[a]? = some (.address b)
  endLink : job.cells[a + 1]? = some (.address c)
  condCode : Holds job.cells (a + 2) (Layout.expr t cond ++ [.stop])
  bodyCode : Holds job.cells b (Layout.stmts t echo b body ++ [.stop])

/-- A `while` loop tracks its evaluation, round by round. -/
theorem tracks_whileLoop (hcalls : Calls quiet job t enter invoke)
    (henters : Enters quiet job t enter invoke fuel) {cond : Expr}
    {body : List Stmt} {c : Nat} (hat : WhileAt job t echo cond body a b c)
    (hcond : cond.WellFormed t inDefinition)
    (hbody : Stmt.AllWellFormed t inDefinition body)
    (h : Poised quiet inDefinition t w σ S F) (rounds : Nat) :
    Tracks quiet (Finished quiet inDefinition S F c)
      (Eval.whileLoop (Eval.expr invoke cond) (Eval.stmts invoke echo fuel body) rounds w)
      (whileLoop job enter a rounds (w.machine σ S F pc false)) := by
  -- induction on the rounds; the stack may change in the arguments of the call, so it
  -- is generalized
  induction rounds generalizing w σ S pc with
  | zero => exact Tracks.outOfFuel _ _
  | succ rounds ih =>
    refine (tracks_condition henters hcond hat.condCode (.inl rfl) h.toReady).bind ?_
    rintro x w' _ _ hx ⟨rfl, σ', hσ', rfl⟩
    have h' := h.of_ok (Eval.behaves_expr hcalls.behaves cond)
      (Eval.restores_expr hcalls.restores cond) hx hσ'
    by_cases htrue : isTrue x
    · rw [if_pos htrue, if_pos htrue]
      refine (henters.stmts hbody (.inr hat.bodyLink) hat.bodyCode h').bind ?_
      intro flow w'' _ m'' hflow hfin
      refine tracks_after hfin fun hσ'' hS hs => ih ?_
      exact h'.next (Eval.behaves_stmts hcalls.behaves echo fuel body) hflow hσ'' hS hs
    · rw [if_neg htrue, if_neg htrue]
      exact tracks_leaving hat.endLink hσ' h'.situated

/-- Where a `for` loop whose slots start at `a` has its parts: the condition,
the last clause and the body, and behind them `c`. -/
structure ForAt (job : Job) (t : SymbolTable) (echo : Bool) (cond : Expr) (post : Stmt)
    (body : List Stmt) (a condAt postAt bodyAt c : Nat) : Prop where
  condLink : job.cells[a]? = some (.address condAt)
  postLink : job.cells[a + 1]? = some (.address postAt)
  bodyLink : job.cells[a + 2]? = some (.address bodyAt)
  endLink : job.cells[a + 3]? = some (.address c)
  condCode : Holds job.cells condAt (Layout.expr t cond ++ [.stop])
  postCode : Holds job.cells postAt (Layout.clause t post ++ [.stop])
  bodyCode : Holds job.cells bodyAt (Layout.stmts t echo bodyAt body ++ [.stop])

/-- A `for` loop tracks its evaluation, round by round. -/
theorem tracks_forLoop (hcalls : Calls quiet job t enter invoke)
    (henters : Enters quiet job t enter invoke fuel) {cond : Expr} {post : Stmt}
    {body : List Stmt} {condAt postAt bodyAt c : Nat}
    (hat : ForAt job t echo cond post body a condAt postAt bodyAt c)
    (hcond : cond.WellFormed t inDefinition) (hpost : post.IsClause t inDefinition)
    (hbody : Stmt.AllWellFormed t inDefinition body)
    (h : Poised quiet inDefinition t w σ S F) (rounds : Nat) :
    Tracks quiet (Finished quiet inDefinition S F c)
      (Eval.forLoop (Eval.expr invoke cond) (Eval.clause invoke post)
        (Eval.stmts invoke echo fuel body) rounds w)
      (forLoop job enter a rounds (w.machine σ S F pc false)) := by
  -- as for `while`, with the last clause between the body and the next round
  induction rounds generalizing w σ S pc with
  | zero => exact Tracks.outOfFuel _ _
  | succ rounds ih =>
    refine (tracks_condition henters hcond hat.condCode (.inr hat.condLink)
      h.toReady).bind ?_
    rintro x w' _ _ hx ⟨rfl, σ', hσ', rfl⟩
    have h' := h.of_ok (Eval.behaves_expr hcalls.behaves cond)
      (Eval.restores_expr hcalls.restores cond) hx hσ'
    by_cases htrue : isTrue x
    · rw [if_pos htrue, if_pos htrue]
      refine (henters.stmts hbody (.inr hat.bodyLink) hat.bodyCode h').bind ?_
      intro flow w'' _ m'' hflow hfin
      refine tracks_after hfin fun hσ'' hS hs => ?_
      have h'' := h'.next (Eval.behaves_stmts hcalls.behaves echo fuel body)
        hflow hσ'' hS hs
      refine (henters.clause hpost (.inr hat.postLink) hat.postCode h''.toReady).bind ?_
      rintro y w₃ _ _ hy ⟨S₃, ⟨σ₃, hσ₃, rfl⟩, hS₃, hs₃⟩
      -- the value of the clause is dropped
      rw [Action.bind_of_ok (pop_push y)]
      have h₃ := h''.next (Eval.behaves_clause hcalls.behaves post) hy hσ₃ hS₃ hs₃
      exact (ih h₃).mono fun _ hf => hf.of_alike hS₃
    · rw [if_neg htrue, if_neg htrue]
      exact tracks_leaving hat.endLink hσ' h'.situated

/-- Where a condition whose slots start at `a` has its parts: the branch for a
true one, and behind everything `c`. -/
structure BranchAt (job : Job) (t : SymbolTable) (echo : Bool) (cond : Expr)
    (body : List Stmt) (a thenAt c : Nat) : Prop where
  thenLink : job.cells[a]? = some (.address thenAt)
  endLink : job.cells[a + 2]? = some (.address c)
  condCode : Holds job.cells (a + 3) (Layout.expr t cond ++ [.stop])
  thenCode : Holds job.cells thenAt (Layout.stmts t echo thenAt body ++ [.stop])

/-- A condition, given what its other branch does. -/
theorem tracks_branch (hcalls : Calls quiet job t enter invoke)
    (henters : Enters quiet job t enter invoke fuel) {cond : Expr} {body : List Stmt}
    {thenAt c : Nat} (hat : BranchAt job t echo cond body a thenAt c)
    (hcond : cond.WellFormed t inDefinition)
    (hbody : Stmt.AllWellFormed t inDefinition body) {other : Eval Flow}
    (hother : ∀ {w σ} (pc), Poised quiet inDefinition t w σ S F →
      ∃ p, Tracks quiet (Finished quiet inDefinition S F p) (other w)
        ((if isLinked job (a + 1) then enter (a + 1) else pure ())
          (w.machine σ S F pc false)))
    (h : Poised quiet inDefinition t w σ S F) :
    Tracks quiet (Finished quiet inDefinition S F c)
      ((Eval.expr invoke cond >>= fun x =>
        if isTrue x then Eval.stmts invoke echo fuel body else other) w)
      (branch job enter a (w.machine σ S F pc false)) := by
  -- both branches are followed by the jump behind the statement, unless they return
  have htail : ∀ {p flow w' m'}, Finished quiet inDefinition S F p flow w' () m' →
      Tracks quiet (Finished quiet inDefinition S F c) (.ok flow w')
        ((get >>= fun m => if m.returning then pure ()
          else slotAddress job (a + 2) >>= fun b => jump b : Exec Unit) m') := by
    intro p flow w' m' hfin
    have hafter := tracks_after (g := pure .next) hfin fun hσ' _ hs =>
      tracks_leaving hat.endLink hσ' hs
    cases flow <;> exact hafter
  refine (tracks_condition henters hcond hat.condCode (.inl rfl) h.toReady).bind ?_
  rintro x w' _ _ hx ⟨rfl, σ', hσ', rfl⟩
  have h' := h.of_ok (Eval.behaves_expr hcalls.behaves cond)
    (Eval.restores_expr hcalls.restores cond) hx hσ'
  by_cases htrue : isTrue x
  · rw [if_pos htrue, if_pos htrue]
    exact (henters.stmts hbody (.inr hat.thenLink) hat.thenCode h').bind_right fun _ =>
      htail
  · rw [if_neg htrue, if_neg htrue]
    obtain ⟨p, hp⟩ := hother _ h'
    have hbranch := hp.bind_right fun _ => htail
    cases hlinked : isLinked job (a + 1) <;> rw [hlinked] at hbranch <;> exact hbranch

/-! ### Where the layout puts the parts -/

/-- A stretch of code ends in a stop, and the next one starts behind it. -/
theorem holds_stretch (cells : Array Cell) (a : Nat) (code rest : List Cell) :
    Holds cells a (code ++ ([.stop] ++ rest)) ↔
      Holds cells a (code ++ [.stop]) ∧ Holds cells (a + code.length + 1) rest := by
  simp [and_assoc]

/-- The layout of a `while` loop puts its parts where its slots say. -/
theorem whileAt_of_holds {cond : Expr} {body : List Stmt}
    (h : Holds job.cells a (Layout.stmt t echo a (.whileLoop cond body))) :
    job.cells[a]? = some (.op (.control .whileLoop)) ∧
      WhileAt job t echo cond body (a + 1) (a + 3 + cond.size + 1)
        (a + (Stmt.whileLoop cond body).size) := by
  have hend : a + (Stmt.whileLoop cond body).size =
      a + 3 + cond.size + 1 + Stmt.sizes body + 1 := by
    rw [Stmt.size]
    omega
  simp only [Layout.stmt, List.append_assoc] at h
  rw [holds_append, holds_stretch, Layout.length_expr] at h
  obtain ⟨⟨hop, hbody, hbehind, -⟩, hcondCode, hbodyCode⟩ := h
  rw [hend]
  exact ⟨hop, hbody, hbehind, hcondCode, hbodyCode⟩

/-- So does that of a `for` loop, with the first clause behind the slots. -/
theorem forAt_of_holds {init : Stmt} {cond : Expr} {post : Stmt} {body : List Stmt}
    (h : Holds job.cells a (Layout.stmt t echo a (.forLoop init cond post body))) :
    job.cells[a]? = some (.op (.control .forLoop)) ∧
      Holds job.cells (a + 5) (Layout.clause t init ++ [.stop]) ∧
      ∃ condAt postAt bodyAt, ForAt job t echo cond post body (a + 1) condAt postAt bodyAt
        (a + (Stmt.forLoop init cond post body).size) := by
  have hend : a + (Stmt.forLoop init cond post body).size =
      a + 5 + init.clauseSize + 1 + cond.size + 1 + post.clauseSize + 1 +
        Stmt.sizes body + 1 := by
    rw [Stmt.size]
    omega
  simp only [Layout.stmt, List.append_assoc] at h
  rw [holds_append, holds_stretch, holds_stretch, holds_stretch, Layout.length_clause,
    Layout.length_expr, Layout.length_clause] at h
  obtain ⟨⟨hop, hcond, hpost, hbody, hbehind, -⟩, hinitCode, hcondCode, hpostCode,
    hbodyCode⟩ := h
  rw [hend]
  exact ⟨hop, hinitCode, _, _, _, hcond, hpost, hbody, hbehind, hcondCode,
    hpostCode, hbodyCode⟩

/-- So does that of a branch without `else`, whose second slot is a stop. -/
theorem branchAt_of_holds_ifThen {cond : Expr} {body : List Stmt}
    (h : Holds job.cells a (Layout.stmt t echo a (.ifThen cond body))) :
    job.cells[a]? = some (.op (.control .branch)) ∧ job.cells[a + 2]? = some .stop ∧
      BranchAt job t echo cond body (a + 1) (a + 4 + cond.size + 1)
        (a + (Stmt.ifThen cond body).size) := by
  have hend : a + (Stmt.ifThen cond body).size =
      a + 4 + cond.size + 1 + Stmt.sizes body + 1 := by
    rw [Stmt.size]
    omega
  simp only [Layout.stmt, List.append_assoc] at h
  rw [holds_append, holds_stretch, Layout.length_expr] at h
  obtain ⟨⟨hop, hthen, hnone, hbehind, -⟩, hcondCode, hthenCode⟩ := h
  rw [hend]
  exact ⟨hop, hnone, hthen, hbehind, hcondCode, hthenCode⟩

/-- So does that of a branch with `else`. -/
theorem branchAt_of_holds_ifElse {cond : Expr} {body other : List Stmt}
    (h : Holds job.cells a (Layout.stmt t echo a (.ifElse cond body other))) :
    job.cells[a]? = some (.op (.control .branch)) ∧
      BranchAt job t echo cond body (a + 1) (a + 4 + cond.size + 1)
        (a + (Stmt.ifElse cond body other).size) ∧
      ∃ elseAt, job.cells[a + 2]? = some (.address elseAt) ∧
        Holds job.cells elseAt (Layout.stmts t echo elseAt other ++ [.stop]) := by
  have hend : a + (Stmt.ifElse cond body other).size =
      a + 4 + cond.size + 1 + Stmt.sizes body + 1 + Stmt.sizes other + 1 := by
    rw [Stmt.size]
    omega
  simp only [Layout.stmt, List.append_assoc] at h
  rw [holds_append, holds_stretch, holds_stretch, Layout.length_expr,
    Layout.length_stmts] at h
  obtain ⟨⟨hop, hthen, helse, hbehind, -⟩, hcondCode, hthenCode, helseCode⟩ := h
  rw [hend]
  exact ⟨hop, ⟨hthen, hbehind, hcondCode, hthenCode⟩, _, helse, helseCode⟩

/-! ### Statements -/

/-- A statement that leaves its value, which is dropped. -/
theorem tracks_dropped (hcalls : Calls quiet job t enter invoke) {s : Stmt}
    (hs : s.IsClause t inDefinition)
    (hcode : Holds job.cells a (Layout.clause t s ++ [Layout.plain .pop]))
    (h : Poised quiet inDefinition t w σ S F) :
    Tracks quiet (Finished quiet inDefinition S F (a + (s.clauseSize + 1)))
      ((Eval.clause invoke s >>= fun _ => pure .next) w)
      (advance job enter fuel (s.clauseSteps + 1) (w.machine σ S F a false)) := by
  rw [holds_append, Layout.length_clause] at hcode
  refine tracks_behind (tracks_clause hcalls hs hcode.1 h.toReady) ?_
  rintro x w' _ - ⟨S', ⟨σ', hσ', rfl⟩, hS, hsit⟩
  exact tracks_op hσ' hcode.2.1 (tracks_pop job ⟨S', ⟨σ', hσ', rfl⟩, hS, hsit⟩)

/-- A value shown or dropped at the end of an expression statement. -/
theorem tracks_ending_value (hσ : quiet = true → σ.Calm)
    (hs : Situated inDefinition w.call F S)
    (hcell : job.cells[a]? = some (Layout.ending echo)) (x : Float) :
    Tracks quiet (Finished quiet inDefinition S F (a + 1))
      ((if echo then Eval.display x >>= fun _ => pure .next else pure .next : Eval Flow)
        w)
      (advance job enter fuel 1 (w.machine σ (S.push (.ofValue x)) F a false)) := by
  cases echo with
  | false =>
    exact tracks_op hσ hcell (tracks_pop job ⟨S, ⟨σ, hσ, rfl⟩, Alike.refl F S, hs⟩)
  | true =>
    refine Tracks.bind_left (tracks_op hσ hcell (tracks_printTop job hσ x)) ?_
    intro _ w' _ m' hx hshown
    refine Tracks.ok ⟨S, hshown, Alike.refl F S, ?_⟩
    rw [(Eval.restores_display x).eq_of_ok hx]
    exact hs

/-- The code of a statement tracks its evaluation. -/
theorem tracks_stmt (hcalls : Calls quiet job t enter invoke)
    (henters : Enters quiet job t enter invoke fuel) {s : Stmt}
    (hs : s.WellFormed t inDefinition)
    (hcode : Holds job.cells a (Layout.stmt t echo a s))
    (h : Poised quiet inDefinition t w σ S F) :
    Tracks quiet (Finished quiet inDefinition S F (a + s.size))
      (Eval.stmt invoke echo fuel s w)
      (advance job enter fuel s.steps (w.machine σ S F a false)) := by
  cases s with
  | assign op id e => exact tracks_dropped hcalls hs hcode h
  | argAssign n e => exact tracks_dropped hcalls hs hcode h
  | print items =>
    refine Tracks.bind_left (tracks_printItems hcalls hs hcode h.toReady) ?_
    intro _ w' _ m' hx hshown
    refine Tracks.ok ⟨S, hshown, Alike.refl F S, ?_⟩
    rw [(Eval.restores_printItems hcalls.restores items).eq_of_ok hx]
    exact h.situated
  | whileLoop cond body =>
    obtain ⟨hop, hat⟩ := whileAt_of_holds hcode
    exact tracks_op h.calm hop (tracks_whileLoop hcalls henters hat hs.1 hs.2 h fuel)
  | forLoop init cond post body =>
    obtain ⟨hinit, hcond, hpost, hbody⟩ := hs
    obtain ⟨hop, hinitCode, _, _, _, hat⟩ := forAt_of_holds hcode
    refine tracks_op h.calm hop ?_
    refine (henters.clause hinit (.inl rfl) hinitCode h.toReady).bind ?_
    rintro x w' _ _ hx ⟨S', ⟨σ', hσ', rfl⟩, hS, hsit⟩
    rw [Action.bind_of_ok (pop_push x)]
    have h' := h.next (Eval.behaves_clause hcalls.behaves init) hx hσ' hS hsit
    exact (tracks_forLoop hcalls henters hat hcond hpost hbody h' fuel).mono
      fun _ hf => hf.of_alike hS
  | ifThen cond body =>
    obtain ⟨hop, hnone, hat⟩ := branchAt_of_holds_ifThen hcode
    refine tracks_op h.calm hop (tracks_branch hcalls henters hat hs.1 hs.2 ?_ h)
    intro w' σ' pc h'
    -- without a second branch its slot is a stop, and nothing is entered
    have hlinked : isLinked job (a + 1 + 1) = false := by rw [isLinked, hnone]
    rw [hlinked]
    exact ⟨pc, Tracks.ok ⟨S, ⟨σ', h'.calm, rfl⟩, Alike.refl F S, h'.situated⟩⟩
  | ifElse cond body other =>
    obtain ⟨hop, hat, elseAt, helse, helseCode⟩ := branchAt_of_holds_ifElse hcode
    refine tracks_op h.calm hop (tracks_branch hcalls henters hat hs.1 hs.2.1 ?_ h)
    intro w' σ' pc h'
    have hlinked : isLinked job (a + 1 + 1) = true := by rw [isLinked, helse]
    rw [hlinked]
    exact ⟨_, henters.stmts hs.2.2 (.inr helse) helseCode h'⟩
  | expr e =>
    rw [Layout.stmt, holds_append, Layout.length_expr] at hcode
    refine tracks_behind (tracks_expr hcalls e hs hcode.1 h.toReady) ?_
    rintro x w' _ hx ⟨σ', hσ', rfl⟩
    have h' := h.of_ok (Eval.behaves_expr hcalls.behaves e)
      (Eval.restores_expr hcalls.restores e) hx hσ'
    exact tracks_ending_value hσ' h'.situated hcode.2.1 x
  | call id es =>
    rw [Layout.stmt, holds_append, Layout.length_exprs] at hcode
    obtain ⟨harguments, hcell, hsymbol, hcount, -⟩ := hcode
    refine tracks_behind (tracks_exprs hcalls es hs.2 harguments h.toReady) ?_
    rintro xs w' _ hx ⟨σ', hσ', rfl⟩
    have h' := h.of_ok (Eval.behaves_exprs hcalls.behaves es)
      (Eval.restores_exprs hcalls.restores es) hx hσ'
    rw [← Eval.length_exprs hx] at hcount
    refine Tracks.bind_left
      (tracks_op hσ' hcell (hcalls.tracks hσ' h'.fits hsymbol hcount)) ?_
    intro v w'' _ m'' hv hshown
    cases v with
    -- a callee that returns a value would leave it on the stack
    | some x => exact Tracks.unbalanced w'' _
    | none =>
      refine Tracks.ok ⟨S, hshown, Alike.refl F S, ?_⟩
      rw [(hcalls.restores id xs).eq_of_ok hv]
      exact h'.situated
  | returnValue e =>
    obtain ⟨hd, he⟩ := hs
    subst hd
    -- the value is pushed, and is popped again before the call is left
    rw [Layout.stmt, holds_append, Layout.length_expr] at hcode
    refine tracks_behind (tracks_expr hcalls e he hcode.1 h.toReady) ?_
    rintro x w' _ hx ⟨σ', hσ', rfl⟩
    have h' := h.of_ok (Eval.behaves_expr hcalls.behaves e)
      (Eval.restores_expr hcalls.restores e) hx hσ'
    exact tracks_op hσ' hcode.2.1 (tracks_returnValue hσ' h'.situated (h'.level rfl) x)
  | returnNothing =>
    cases hs
    refine tracks_op h.calm hcode.1
      ((tracks_returnNothing h.calm h.situated (h.level rfl)).mono ?_)
    rintro _ w' _ m' - ⟨rfl, hp⟩
    exact hp
  | define kind id body => exact hs.elim

/-- The code of statements tracks their evaluation. -/
theorem tracks_stmts (hcalls : Calls quiet job t enter invoke)
    (henters : Enters quiet job t enter invoke fuel) {ss : List Stmt}
    (hss : Stmt.AllWellFormed t inDefinition ss)
    (hcode : Holds job.cells a (Layout.stmts t echo a ss))
    (h : Poised quiet inDefinition t w σ S F) :
    Tracks quiet (Finished quiet inDefinition S F (a + Stmt.sizes ss))
      (Eval.stmts invoke echo fuel ss w)
      (advance job enter fuel (Stmt.stepsAll ss) (w.machine σ S F a false)) := by
  -- along the statements; the next one starts behind this one, with a stack
  -- like the one before
  induction ss generalizing w σ S a with
  | nil => exact Tracks.ok ⟨S, ⟨σ, h.calm, rfl⟩, Alike.refl F S, h.situated⟩
  | cons s ss ih =>
    rw [Layout.stmts, holds_append, Layout.length_stmt] at hcode
    rw [Stmt.sizes, ← Nat.add_assoc]
    refine tracks_behind (tracks_stmt hcalls henters hss.1 hcode.1 h) ?_
    intro flow w' m' hx hfin
    cases flow with
    | next =>
      obtain ⟨S', ⟨σ', hσ', rfl⟩, hS, hsit⟩ := hfin
      have h' := h.next (Eval.behaves_stmt hcalls.behaves echo fuel s) hx hσ' hS hsit
      exact (ih hss.2 hcode.2 h').mono fun _ hf => hf.of_alike hS
    | back v =>
      -- the cells behind a return are not run
      obtain ⟨f, hf, σ', hσ', rfl⟩ := hfin
      rw [advance_of_cell_false (cell_of_returning rfl)]
      exact Tracks.ok ⟨f, hf, σ', hσ', rfl⟩

/-- The code of a body tracks its evaluation, and its call has been left. -/
theorem tracks_body (hcalls : Calls quiet job t enter invoke)
    (henters : Enters quiet job t enter invoke fuel) {ss : List Stmt}
    (hss : Stmt.AllWellFormed t true ss)
    (hcode : Holds job.cells a (Layout.body t echo a ss))
    (h : Poised quiet true t w σ S F) :
    Tracks quiet (fun v w' _ m' => Returned quiet S F v w' m')
      (Eval.body invoke echo fuel ss w)
      (advance job enter fuel (Stmt.stepsAll ss + 1) (w.machine σ S F a false)) := by
  rw [Layout.body, holds_append, Layout.length_stmts] at hcode
  refine tracks_behind (tracks_stmts hcalls henters hss hcode.1 h) ?_
  intro flow w' m' hx hfin
  cases flow with
  | next =>
    obtain ⟨S', ⟨σ', hσ', rfl⟩, hS, hsit⟩ := hfin
    have h' := h.next (Eval.behaves_stmts hcalls.behaves echo fuel ss) hx hσ' hS hsit
    -- a body that runs to its end meets the return that is laid out behind it
    refine Tracks.bind_left
      (tracks_op hσ' hcode.2.1 (tracks_returnNothing hσ' h'.situated (h'.level rfl))) ?_
    rintro _ w'' _ m'' - ⟨rfl, f, hf, hm⟩
    rw [hS.take_eq hf] at hm
    exact Tracks.ok ⟨f, hf, hm⟩
  | back v =>
    obtain ⟨f, hf, σ', hσ', rfl⟩ := hfin
    rw [advance_of_cell_false (cell_of_returning rfl)]
    exact Tracks.ok ⟨f, hf, σ', hσ', rfl⟩

end Exec

end StackCalc
