import StackCalc.Proofs.Code.Echo
import StackCalc.Proofs.Machine.Alongside
import StackCalc.Proofs.Machine.Interrupts
import StackCalc.Proofs.Machine.Watching

/-!
# Runs with and without echo

A program is compiled without echo (`quiet`) and with it (`loud`), and both
codes are run. `Exec.Echoes x y z` compares three runs: `x` of the quiet code,
`y` of the loud one, and `z n`, which is `y` watched and broken off where the
`n`-th write is to be made at the end of one of the program's own expression
statements. The first two end alike. What they write is told by one list of
entries (`Exec.Tallied`): all of them are written by the loud run, and those
that are not marked by the quiet one. The watched run is broken off for the
marked entries and for no others.

- `Job.Echoed`: the two codes.
- `Exec.tallied_execute`: whole runs.
- `Exec.writes_execute`: the writes of the quiet run are those of the loud run
  without the marked ones.
-/

namespace StackCalc

open StackCalc.Action

/-! ### Entries -/

/-- How a watched run ends beside the run itself: it is broken off if the `n`-th
write is a marked one. The writes of the run are counted from `start`. -/
inductive Watched {α : Type} (n : Nat) (breach : Halt) (start : Nat)
    (entries : List (Write × Bool)) (r : EStateM.Result Halt Machine α) :
    EStateM.Result Halt Machine α → Prop
  | passed (h : ∀ i w, n = start + i → entries[i]? ≠ some (w, true)) :
    Watched n breach start entries r r
  | cut {m : Machine} {i : Nat} {w : Write} (hn : n = start + i)
    (h : entries[i]? = some (w, true)) :
    Watched n breach start entries r (.error breach m)

namespace Watched

variable {α β : Type} {n start : Nat} {breach : Halt}
  {entries entries' : List (Write × Bool)} {f : α → Exec β}

/-- After an error there is nothing to go on with. -/
theorem andThen_error {e : Halt} {m : Machine} {r : EStateM.Result Halt Machine α}
    (h : Watched n breach start entries (.error e m) r) :
    Watched n breach start entries (.error e m) (Action.andThen r f) := by
  cases h with
  | passed h => exact .passed h
  | cut hn h => exact .cut hn h

/-- A run that has passed goes on, and its further entries follow. -/
theorem andThen_ok {a : α} {m : Machine} {r : EStateM.Result Halt Machine α}
    {r' : EStateM.Result Halt Machine β} (h : Watched n breach start entries (.ok a m) r)
    (h' : Watched n breach (start + entries.length) entries' r' (f a m)) :
    Watched n breach start (entries ++ entries') r' (Action.andThen r f) := by
  cases h with
  | cut hn h =>
    obtain ⟨hlt, -⟩ := List.getElem?_eq_some_iff.mp h
    exact .cut hn ((List.getElem?_append_left hlt).trans h)
  | passed h =>
    show Watched n breach start (entries ++ entries') r' (f a m)
    generalize f a m = s at h'
    cases h' with
    | passed h' =>
      refine .passed fun i w hn => ?_
      rcases Nat.lt_or_ge i entries.length with hlt | hge
      · rw [List.getElem?_append_left hlt]
        exact h i w hn
      · rw [List.getElem?_append_right hge]
        exact h' _ w (by omega)
    | @cut m i w hn hmarked =>
      refine .cut (i := entries.length + i) (w := w) (by omega) ?_
      rw [List.getElem?_append_right (Nat.le_add_right _ _), Nat.add_sub_cancel_left]
      exact hmarked

/-- One write, which is a marked one. -/
theorem single (w : Write) (m : Machine) (r : EStateM.Result Halt Machine α) :
    Watched n breach start [(w, true)] r
      (if !(start == n) then r else .error breach m) := by
  by_cases hn : n = start
  · rw [hn, beq_self_eq_true]
    exact .cut (i := 0) (Nat.add_zero _).symm rfl
  · have hne : (start == n) = false := beq_false_of_ne fun h => hn h.symm
    rw [hne]
    refine .passed fun i w' hi => ?_
    cases i with
    | zero => exact absurd hi hn
    | succ i => simp

end Watched

/-- What reading a line does. -/
theorem Console.readLine_eq (c : Console) :
    c.readLine = (c.input.head?, { c with
      writes := if c.prompting then c.writes.push .prompt else c.writes
      input := c.input.tail }) := by
  obtain ⟨writes, input, prompting⟩ := c
  cases prompting <;> cases input <;> rfl

theorem Exec.readLine_eq (m : Machine) :
    Exec.readLine m = .ok m.console.input.head? { m with console := { m.console with
      writes :=
        if m.console.prompting then m.console.writes.push .prompt else m.console.writes
      input := m.console.input.tail } } := by
  show EStateM.Result.ok m.console.readLine.1 { m with console := m.console.readLine.2 } =
    _
  rw [Console.readLine_eq]

namespace Exec

/-- The results of a quiet run from `m`, of a loud run from `m'` and of the loud
run watched. -/
structure Tallied {α : Type} (known : Nat → Prop) (job : Job) (m m' : Machine)
    (entries : List (Write × Bool)) (r r' : EStateM.Result Halt Machine α)
    (watched : Nat → Halt → EStateM.Result Halt Machine α) : Prop where
  paired : Paired (Alongside known job) r r'
  quiet : (final r).console.writes.toList =
    m.console.writes.toList ++ (entries.filter fun e => !e.2).map Prod.fst
  loud : (final r').console.writes.toList =
    m'.console.writes.toList ++ entries.map Prod.fst
  marked : ∀ w, (w, true) ∈ entries → ∃ x, w = .echo x
  watched : ∀ n breach, Watched n breach m'.printed entries r' (watched n breach)

/-- From machines alongside each other a quiet action, a loud one and the loud
one watched end in a tally. -/
def Echoes {α : Type} (known : Nat → Prop) (job : Job) (x y : Exec α)
    (z : Nat → Halt → Exec α) : Prop :=
  ∀ m m', Alongside known job m m' →
    ∃ entries, Tallied known job m m' entries (x m) (y m') fun n breach => z n breach m'

section

variable {known : Nat → Prop} {job : Job} {α β : Type}

/-- Going on after a tally: the further entries follow. -/
theorem Tallied.andThen {m m' : Machine} {entries : List (Write × Bool)}
    {r r' : EStateM.Result Halt Machine α}
    {watched : Nat → Halt → EStateM.Result Halt Machine α} {f g : α → Exec β}
    {h : Nat → Halt → α → Exec β} (ht : Tallied known job m m' entries r r' watched)
    (hf : ∀ {a m₁ m₁'}, r = .ok a m₁ → Alongside known job m₁ m₁' →
      ∃ entries', Tallied known job m₁ m₁' entries' (f a m₁) (g a m₁') fun n breach =>
        h n breach a m₁') :
    ∃ entries', Tallied known job m m' entries' (Action.andThen r f) (Action.andThen r' g)
      fun n breach =>
      Action.andThen (watched n breach) (h n breach) := by
  obtain ⟨hpaired, hquiet, hloud, hmarked, hwatched⟩ := ht
  cases hpaired with
  | error hm₁ =>
    exact ⟨entries, .error hm₁, hquiet, hloud, hmarked,
      fun n breach => (hwatched n breach).andThen_error⟩
  | @ok a m₁ m₁' hm₁ =>
    obtain ⟨entries', hrest⟩ := hf rfl hm₁
    have hprinted : m₁'.printed = m'.printed + entries.length := by
      have hlength := congrArg List.length hloud
      simpa [Machine.printed, Action.final] using hlength
    refine ⟨entries ++ entries', hrest.paired, hrest.quiet.trans ?_, hrest.loud.trans ?_,
      fun w hw => ?_, fun n breach => ?_⟩
    · rw [show m₁.console.writes.toList = _ from hquiet, List.filter_append,
        List.map_append, List.append_assoc]
    · rw [show m₁'.console.writes.toList = _ from hloud, List.map_append,
        List.append_assoc]
    · exact (List.mem_append.1 hw).elim (hmarked w) (hrest.marked w)
    · exact (hwatched n breach).andThen_ok (hprinted ▸ hrest.watched n breach)

variable {x y : Exec α} {z : Nat → Halt → Exec α} {f g : α → Exec β}
  {h : Nat → Halt → α → Exec β}

theorem Echoes.bind (hx : Echoes known job x y z)
    (hf : ∀ a, Echoes known job (f a) (g a) fun n breach => h n breach a) :
    Echoes known job (x >>= f) (y >>= g) fun n breach => z n breach >>= h n breach := by
  intro m m' hm
  obtain ⟨entries, ht⟩ := hx m m' hm
  exact ht.andThen fun _ hm₁ => hf _ _ _ hm₁

/-- What is run next may rely on what is known of the result. -/
theorem Echoes.bindWith {P : α → Prop} (hx : Echoes known job x y z)
    (hP : ∀ {m m' a m₁}, Alongside known job m m' → x m = .ok a m₁ → P a)
    (hf : ∀ a, P a → Echoes known job (f a) (g a) fun n breach => h n breach a) :
    Echoes known job (x >>= f) (y >>= g) fun n breach => z n breach >>= h n breach := by
  intro m m' hm
  obtain ⟨entries, ht⟩ := hx m m' hm
  exact ht.andThen fun hrun hm₁ => hf _ (hP hm hrun) _ _ hm₁

theorem echoes_get {f g : Machine → Exec α} {h : Nat → Halt → Machine → Exec α}
    (hf : ∀ m m', Alongside known job m m' →
      Echoes known job (f m) (g m') fun n breach => h n breach m') :
    Echoes known job (get >>= f) (get >>= g) fun n breach => get >>= h n breach :=
  fun m m' hm => hf m m' hm m m' hm

/-! ### Instructions -/

/-- An action that is watched by nobody. -/
abbrev EchoesAlone (known : Nat → Prop) (job : Job) (x : Exec α) : Prop :=
  Echoes known job x x fun _ _ => x

/-- Nothing is marked of what both machines write. -/
theorem echoesAlone {x : Exec α}
    (h : ∀ m m', Alongside known job m m' → ∃ ws,
      Paired (Alongside known job) (x m) (x m') ∧
      (final (x m)).console.writes.toList = m.console.writes.toList ++ ws ∧
      (final (x m')).console.writes.toList = m'.console.writes.toList ++ ws) :
        EchoesAlone known job x := by
  intro m m' hm
  obtain ⟨ws, hpaired, hquiet, hloud⟩ := h m m' hm
  have hall : (ws.map fun w => (w, false)).map Prod.fst = ws := by
    rw [List.map_map]
    exact List.map_id ws
  have hkept : ((ws.map fun w => (w, false)).filter fun e => !e.2) =
      ws.map fun w => (w, false) := by simp
  refine ⟨ws.map fun w => (w, false), hpaired, ?_, ?_, fun w hw => ?_,
    fun n breach => .passed fun i w _ => ?_⟩
  · rw [hquiet, hkept, hall]
  · rw [hloud, hall]
  · simp at hw
  · simp

/-- A local action writes nothing. -/
theorem Follows.echoes {x : Exec α} (hx : Follows known job x) (hlocal : IsLocal x) :
    EchoesAlone known job x := by
  refine echoesAlone fun m m' hm => ⟨[], hx m m' hm, ?_, ?_⟩
  · rw [List.append_nil]
    exact congrArg (fun o : Outside => o.console.writes.toList) (hlocal.outside_eq m)
  · rw [List.append_nil]
    exact congrArg (fun o : Outside => o.console.writes.toList) (hlocal.outside_eq m')

/-- Both machines write the same, and neither write is a marked one. -/
theorem echoes_print (w : Write) : EchoesAlone known job (print w) := by
  refine echoesAlone fun m m' hm => ?_
  have hrun : print w m = .ok () { m with console := m.console.write w } :=
    congrArg _ (Machine.write_of_alarm_none hm.alarm w)
  have hrun' : print w m' = .ok () { m' with console := m'.console.write w } :=
    congrArg _ (Machine.write_of_alarm_none hm.alarm' w)
  rw [hrun, hrun']
  refine ⟨[w], .ok ⟨?_, hm.symbols, hm.stack, hm.frames, hm.interrupted, hm.alarm⟩,
    ?_, ?_⟩
  · obtain ⟨t, ws, rfl⟩ := hm.other
    exact ⟨t, ws.push w, rfl⟩
  · exact Array.toList_push
  · exact Array.toList_push

/-- Both machines read the same line, and show a prompt or none. -/
theorem echoes_readLine : EchoesAlone known job readLine := by
  refine echoesAlone fun m m' hm => ?_
  obtain ⟨t, ws, rfl⟩ := hm.other
  rw [readLine_eq, readLine_eq]
  refine ⟨if m.console.prompting then [.prompt] else [],
    .ok ⟨⟨t, _, rfl⟩, hm.symbols, hm.stack, hm.frames, hm.interrupted, hm.alarm⟩, ?_, ?_⟩
  · show (if m.console.prompting then m.console.writes.push .prompt
      else m.console.writes).toList = _
    split <;> simp
  · show (if m.console.prompting then ws.push .prompt else ws).toList = ws.toList ++ _
    split <;> simp

/-- Both machines show a value. -/
theorem follows_showing (v : Float) :
    Follows known job (modify fun m : Machine =>
      { m with symbols := m.symbols.showing v }) := by
  intro m m' hm
  obtain ⟨t, ws, rfl⟩ := hm.other
  exact .ok ⟨⟨t.showing v, ws, rfl⟩, hm.symbols.showing_both v, hm.stack, hm.frames,
    hm.interrupted, hm.alarm⟩

/-- An instruction writes the same on both, and nothing of it is marked: it is
the same instruction of the same code. -/
theorem echoes_instruction (hcells : ∀ id, .symbol id ∈ job.cells → known id)
    (i : Instruction) :
    EchoesAlone known job (i.run job) := by
  have hpop : EchoesAlone known job pop := follows_pop.echoes isLocal_pop
  -- what writes or reads is listed; the rest is local
  cases hlocal : i.isLocal with
  | true =>
    exact (follows_instruction hcells hlocal).echoes (isLocal_instruction job i hlocal)
  | false =>
    cases i with
    | printValue => exact hpop.bind fun _ => echoes_print _
    | printText =>
      refine (follows_operand.echoes (isLocal_operand job)).bind fun c => ?_
      cases c with
      | text s => exact echoes_print _
      | _ => exact (follows_fail _ _).echoes (isLocal_fail _ _)
    | printTop =>
      refine hpop.bind fun v => (echoes_print _).bind fun _ => ?_
      exact (follows_showing v).echoes fun _ _ => rfl
    | read =>
      have hsymbol : EchoesAlone known job (symbolOperand job) :=
        follows_symbolOperand.echoes (isLocal_symbolOperand job)
      refine hsymbol.bindWith (fun _ hrun => hcells _ (mem_of_symbolOperand hrun))
        fun id hid => ?_
      refine ((follows_verifyAssignable hid).echoes (isLocal_verifyAssignable id)).bind
        fun _ =>
        echoes_readLine.bind fun line => ?_
      exact (follows_takeLine hid line).echoes (isLocal_takeLine job id line)
    | _ => cases hlocal

end

/-! ### Control operations -/

section

variable {known : Nat → Prop} {job : Job}
  (hcells : ∀ id, .symbol id ∈ job.cells → known id) {enter enter' : Nat → Exec Unit}
  {watchedEnter : Nat → Halt → Nat → Exec Unit}
  (henter : ∀ a, Echoes known job (enter a) (enter' a) fun n breach =>
    watchedEnter n breach a)

/-- A slot holds the same address for both. -/
theorem follows_slotAddress (a : Nat) : Follows known job (slotAddress job a) := by
  unfold slotAddress
  split
  · exact follows_pure _
  · exact follows_fail _ _

theorem echoes_leaveLoop (a : Nat) :
    EchoesAlone known job (slotAddress job a >>= fun b => jump b) :=
  ((follows_slotAddress a).bind follows_jump).echoes (isLocal_leaveLoop job a)

theorem echoes_pure {α : Type} (a : α) : EchoesAlone known job (pure a) :=
  (follows_pure a).echoes (isLocal_pure a)

theorem echoes_pop : EchoesAlone known job pop :=
  follows_pop.echoes isLocal_pop

include henter

/-- A condition is a stretch, and the value that it leaves is the same for both. -/
theorem echoes_condition (a : Nat) :
    Echoes known job (condition enter a) (condition enter' a) fun n breach =>
      condition (watchedEnter n breach) a :=
  (henter a).bind fun _ => echoes_pop.bind fun _ => echoes_pure _

/-- The rounds of a `while` loop are as many in all three runs. -/
theorem echoes_whileLoop (a fuel : Nat) :
    Echoes known job (whileLoop job enter a fuel) (whileLoop job enter' a fuel)
      fun n breach =>
      whileLoop job (watchedEnter n breach) a fuel := by
  induction fuel with
  | zero => exact (follows_throw _).echoes fun _ _ => rfl
  | succ fuel ih =>
    refine (echoes_condition henter _).bind fun b => ?_
    cases b with
    | true =>
      refine (henter a).bind fun _ => echoes_get fun m m' hm => ?_
      rw [hm.returning_eq]
      cases m.returning with
      | true => exact echoes_pure ()
      | false => exact ih
    | false => exact echoes_leaveLoop _

/-- So are the rounds of a `for` loop. -/
theorem echoes_forLoop (a fuel : Nat) :
    Echoes known job (forLoop job enter a fuel) (forLoop job enter' a fuel)
      fun n breach =>
      forLoop job (watchedEnter n breach) a fuel := by
  induction fuel with
  | zero => exact (follows_throw _).echoes fun _ _ => rfl
  | succ fuel ih =>
    refine (echoes_condition henter _).bind fun b => ?_
    cases b with
    | true =>
      refine (henter _).bind fun _ => echoes_get fun m m' hm => ?_
      rw [hm.returning_eq]
      cases m.returning with
      | true => exact echoes_pure ()
      | false => exact (henter _).bind fun _ => echoes_pop.bind fun _ => ih
    | false => exact echoes_leaveLoop _

/-- All three runs take the same way of a branch. -/
theorem echoes_branch (a : Nat) :
    Echoes known job (branch job enter a) (branch job enter' a) fun n breach =>
      branch job (watchedEnter n breach) a := by
  have hend : EchoesAlone known job (endBranch job a) := by
    refine Follows.echoes (follows_get fun m m' hm => ?_) (isLocal_endBranch job a)
    rw [hm.returning_eq]
    split
    · exact .ok hm
    · exact (follows_slotAddress _).bind follows_jump m m' hm
  refine (echoes_condition henter _).bind fun b => ?_
  cases b with
  | true => exact (henter _).bind fun _ => hend
  | false =>
    cases isLinked job (a + 1) with
    | true => exact (henter _).bind fun _ => hend
    | false => exact hend

include hcells

/-- All three runs call the same symbol with the same frame. The symbol stands
in the code, so it is a known one. -/
theorem echoes_call :
    Echoes known job (call job enter) (call job enter') fun n breach =>
      call job (watchedEnter n breach) := by
  have hsymbol : EchoesAlone known job (symbolOperand job) :=
    follows_symbolOperand.echoes (isLocal_symbolOperand job)
  refine hsymbol.bindWith (fun _ hrun => hcells _ (mem_of_symbolOperand hrun))
    fun id hid =>
    (follows_countOperand.echoes (isLocal_countOperand job)).bind fun k =>
      echoes_get fun m m' hm => ?_
  rw [hm.frames_eq]
  split
  · exact (follows_failAbout _ hid).echoes (isLocal_failAbout _ _)
  · refine ((follows_symbol hid).echoes (isLocal_symbol id)).bind fun s => ?_
    split
    · exact (follows_failAbout _ hid).echoes (isLocal_failAbout _ _)
    · refine echoes_get fun m m' hm => ?_
      rw [hm.stack_eq, hm.pc_eq]
      dsimp only
      split
      · exact (follows_fail _ _).echoes (isLocal_fail _ _)
      -- the frame is the same on both sides, for the machines stand at the same
      -- place with the same stack
      · have hframe : EchoesAlone known job
            (onFrames (Stack.push job.limits.frames .callNestedTooDeeply
              ⟨id, k, m.pc, m.stack.size⟩)) :=
          (follows_onFrames (Stack.keepsWithin_push _ hid)).echoes (isLocal_onFrames _)
        refine hframe.bind fun _ => (henter _).bind fun _ =>
          Follows.echoes (fun m m' hm => ?_) fun _ _ => rfl
        obtain ⟨t, ws, rfl⟩ := hm.other
        exact .ok ⟨⟨t, ws, rfl⟩, hm.symbols, hm.stack, hm.frames,
          hm.interrupted, hm.alarm⟩

/-- A control operation tallies if the stretches do that it enters. -/
theorem echoes_control (fuel : Nat) (c : Control) :
    Echoes known job (control job enter fuel c) (control job enter' fuel c)
      fun n breach =>
      control job (watchedEnter n breach) fuel c := by
  cases c with
  | whileLoop =>
    refine echoes_get fun m m' hm => ?_
    rw [hm.pc_eq]
    exact echoes_whileLoop henter m.pc fuel
  | forLoop =>
    refine echoes_get fun m m' hm => ?_
    dsimp only
    rw [hm.pc_eq]
    exact (henter _).bind fun _ => echoes_pop.bind fun _ =>
      echoes_forLoop henter m.pc fuel
  | branch =>
    refine echoes_get fun m m' hm => ?_
    rw [hm.pc_eq]
    exact echoes_branch henter m.pc
  | call => exact echoes_call hcells henter

theorem echoes_operation (fuel : Nat) (o : Opcode) :
    Echoes known job (operation job enter fuel o) (operation job enter' fuel o)
      fun n breach =>
      operation job (watchedEnter n breach) fuel o := by
  cases o with
  | plain i => exact echoes_instruction hcells i
  | control c => exact echoes_control hcells henter fuel c

end

end Exec

/-! ### Two codes -/

/-- The same limits, and codes that differ at the ends of expression statements. -/
structure Job.Echoed (ends : Nat → Bool) (quiet loud : Job) : Prop where
  limits : loud.limits = quiet.limits
  cells : ∀ p, (ends p = true ∧ quiet.cells[p]? = some (Layout.ending false) ∧
      loud.cells[p]? = some (Layout.ending true)) ∨
    (ends p = false ∧ loud.cells[p]? = quiet.cells[p]?)

namespace Job.Echoed

open Exec

variable {ends : Nat → Bool} {quiet loud : Job} {α : Type}

/-- The end of an expression statement drops the value in one code and shows it
in the other. -/
theorem cells_of_ends (h : Job.Echoed ends quiet loud) {p : Nat} (hends : ends p = true) :
    quiet.cells[p]? = some (.op (.plain .pop)) ∧
    loud.cells[p]? = some (.op (.plain .printTop)) := by
  rcases h.cells p with ⟨-, hquiet, hloud⟩ | ⟨hnot, -⟩
  · exact ⟨hquiet, hloud⟩
  · rw [hends] at hnot
    cases hnot

/-- An operand is taken alike unless it is told apart whether a statement shows
its value. -/
theorem operand_bind (h : Echoed ends quiet loud) {f : Cell → Exec α}
    (hf : f (Layout.ending true) = f (Layout.ending false)) :
    operand loud >>= f = operand quiet >>= f := by
  funext m
  have hoperand : ∀ {job : Job} {c : Cell}, job.cells[m.pc]? = some c →
      operand job m = .ok c { m with pc := m.pc + 1 } := by
    intro job c hc
    rw [operand, bind_of_ok (get_apply m), hc]
    rfl
  rcases h.cells m.pc with ⟨-, hquiet, hloud⟩ | ⟨-, hsame⟩
  · rw [bind_of_ok (hoperand hloud), bind_of_ok (hoperand hquiet), hf]
  · refine bind_congr ?_ f
    rw [operand, operand, bind_of_ok (get_apply m), bind_of_ok (get_apply m), hsame]

/-- An operand that is a symbol is no end of a statement, so it is the same in
both codes. -/
theorem symbolOperand_eq (h : Echoed ends quiet loud) :
    symbolOperand loud = symbolOperand quiet :=
  h.operand_bind rfl

/-- So is a count. -/
theorem countOperand_eq (h : Echoed ends quiet loud) :
    countOperand loud = countOperand quiet :=
  h.operand_bind rfl

theorem slotAddress_eq (h : Echoed ends quiet loud) :
    slotAddress loud = slotAddress quiet := by
  funext a
  unfold slotAddress
  rcases h.cells a with ⟨-, hquiet, hloud⟩ | ⟨-, hsame⟩
  · rw [hquiet, hloud]
    rfl
  · rw [hsame]

theorem isLinked_eq (h : Echoed ends quiet loud) : isLinked loud = isLinked quiet := by
  funext a
  unfold isLinked
  rcases h.cells a with ⟨-, hquiet, hloud⟩ | ⟨-, hsame⟩
  · rw [hquiet, hloud]
    rfl
  · rw [hsame]

theorem pushDatum_eq (h : Echoed ends quiet loud) : pushDatum loud = pushDatum quiet := by
  funext d
  rw [pushDatum, pushDatum, h.limits]

theorem push_eq (h : Echoed ends quiet loud) : push loud = push quiet := by
  funext x
  rw [push, push, h.pushDatum_eq]

theorem argPlace_eq (h : Echoed ends quiet loud) : argPlace loud = argPlace quiet := by
  rw [argPlace, argPlace, h.countOperand_eq]

/-- No instruction depends on more of the code than its operands. -/
theorem run_eq (h : Echoed ends quiet loud) (i : Instruction) :
    i.run loud = i.run quiet := by
  cases i with
  | constPush =>
    simp only [Instruction.run, h.push_eq]
    exact h.operand_bind rfl
  | varPush => simp only [Instruction.run, h.symbolOperand_eq, h.pushDatum_eq]
  | eval => simp only [Instruction.run, Exec.eval, h.push_eq]
  | binary op => simp only [Instruction.run, Exec.binary, h.push_eq]
  | negate => simp only [Instruction.run, h.push_eq]
  | not => simp only [Instruction.run, h.push_eq]
  | assign op => simp only [Instruction.run, assignTop, h.push_eq]
  | step how => simp only [Instruction.run, Exec.step, h.symbolOperand_eq, h.push_eq]
  | builtin => simp only [Instruction.run, Exec.builtin, h.symbolOperand_eq, h.push_eq]
  | printText => exact h.operand_bind rfl
  | read => simp only [Instruction.run, Exec.read, h.symbolOperand_eq, h.push_eq]
  | returnValue => simp only [Instruction.run, Exec.returnValue, h.push_eq]
  | arg => simp only [Instruction.run, Exec.arg, h.argPlace_eq, h.push_eq]
  | argAssign => simp only [Instruction.run, Exec.argAssign, h.argPlace_eq, h.push_eq]
  | pop | printValue | printTop | returnNothing => rfl

/-- A loop depends on the code by its slots only. -/
theorem whileLoop_eq (h : Echoed ends quiet loud) (enter : Nat → Exec Unit)
    (a fuel : Nat) :
    whileLoop loud enter a fuel = whileLoop quiet enter a fuel := by
  induction fuel with
  | zero => rfl
  | succ fuel ih => simp only [whileLoop, ih, h.slotAddress_eq]

theorem forLoop_eq (h : Echoed ends quiet loud) (enter : Nat → Exec Unit) (a fuel : Nat) :
    forLoop loud enter a fuel = forLoop quiet enter a fuel := by
  induction fuel with
  | zero => rfl
  | succ fuel ih => simp only [forLoop, ih, h.slotAddress_eq]

/-- An operation depends on the code by its operands and slots only. -/
theorem operation_eq (h : Echoed ends quiet loud) (enter : Nat → Exec Unit) (fuel : Nat)
    (o : Opcode) :
    operation loud enter fuel o = operation quiet enter fuel o := by
  cases o with
  | plain i => exact h.run_eq i
  | control c =>
    cases c with
    | whileLoop => simp only [operation, Exec.control, h.whileLoop_eq]
    | forLoop => simp only [operation, Exec.control, h.forLoop_eq]
    | branch =>
      simp only [operation, Exec.control, branch, h.isLinked_eq, h.slotAddress_eq]
    | call =>
      simp only [operation, Exec.control, call, h.symbolOperand_eq,
        h.countOperand_eq, h.limits]

end Job.Echoed

/-! ### Runs -/

/-- Whether a value is about to be shown, as the `n`-th write, at the end of an
expression statement. -/
def Machine.isShowing (ends : Nat → Bool) (n : Nat) (m : Machine) : Bool :=
  ends m.pc && !m.returning && !m.stack.isEmpty && m.printed == n

theorem Machine.isShowing_of_isEmpty {m : Machine} (h : m.stack.isEmpty = true)
    (ends : Nat → Bool) (n : Nat) :
    m.isShowing ends n = false := by
  rw [Machine.isShowing, h]
  simp

/-- At the end of an expression statement the test is whether this is the `n`-th
write. -/
theorem Machine.isShowing_of_ends {ends : Nat → Bool} {m : Machine}
    (hends : ends m.pc = true) (hr : m.returning = false) (h : m.stack.isEmpty = false)
    (n : Nat) : m.isShowing ends n = (m.printed == n) := by
  rw [Machine.isShowing, hends, hr, h]
  simp

/-- Elsewhere the test passes. -/
theorem Machine.isShowing_of_not_ends {ends : Nat → Bool} {m : Machine}
    (h : ¬ (m.returning = false ∧ ends m.pc = true)) (n : Nat) :
    m.isShowing ends n = false := by
  rw [Machine.isShowing]
  cases hr : m.returning with
  | true => simp
  | false =>
    cases hends : ends m.pc with
    | true => exact absurd ⟨hr, hends⟩ h
    | false => simp

namespace Exec

section

variable {known : Nat → Prop} {ends : Nat → Bool} {quiet loud : Job}
  (hjob : Job.Echoed ends quiet loud) (hcells : ∀ id, .symbol id ∈ quiet.cells → known id)
  {enter enter' : Nat → Exec Unit} {watchedEnter : Nat → Halt → Nat → Exec Unit}
  (henter : ∀ a, Echoes known quiet (enter a) (enter' a) fun n breach =>
    watchedEnter n breach a)

theorem echoes_jump (a : Nat) : EchoesAlone known quiet (jump a) :=
  (follows_jump a).echoes (isLocal_jump a)

theorem echoes_fail {α : Type} (kind : FaultKind) (note : String) :
    EchoesAlone known quiet (fail kind note : Exec α) :=
  (follows_fail kind note).echoes (isLocal_fail kind note)

/-- A value is taken off the stack, or there is none. The result depends on the
stack alone. -/
theorem pop_cases (s : Stack Datum) :
    (s.isEmpty = true ∧ ∃ e, ∀ m : Machine, m.stack = s → pop m = .error e m) ∨
      (s.isEmpty = false ∧ ∃ v, ∀ m : Machine, m.stack = s →
        pop m = .ok v { m with stack := ⟨s.items.pop⟩ }) := by
  have hempty : s.isEmpty = s.top?.isNone := by
    rw [Bool.eq_iff_iff]
    simp [Stack.isEmpty, Stack.top?, Array.isEmpty_iff]
  cases htop : s.top? with
  | none =>
    refine .inl
      ⟨by rw [hempty, htop]; rfl, .fault { kind := .stackUnderflow }, fun m hm => ?_⟩
    subst hm
    have hpop : onStack Stack.pop m = .error (.fault { kind := .stackUnderflow }) m := by
      rw [onStack, Stack.pop, htop]
    exact bind_of_error hpop
  | some d =>
    refine .inr ⟨by rw [hempty, htop]; rfl, d.value, fun m hm => ?_⟩
    subst hm
    have hpop : onStack Stack.pop m = .ok d { m with stack := ⟨m.stack.items.pop⟩ } := by
      rw [onStack, Stack.pop, htop]
    exact bind_of_ok hpop

/-- Showing a value writes it and keeps it under `_`. -/
theorem printTop_of_ok {m m₁ : Machine} {v : Float} (hpop : pop m = .ok v m₁)
    (halarm : m₁.alarm = none) :
    printTop m = .ok () { m₁ with
      console := m₁.console.write (.echo v)
      symbols := m₁.symbols.showing v } := by
  have hprint : print (.echo v) m₁ =
      .ok () { m₁ with console := m₁.console.write (.echo v) } :=
    congrArg _ (Machine.write_of_alarm_none halarm _)
  rw [printTop, bind_of_ok hpop, bind_of_ok hprint]
  rfl

include hjob hcells henter

/-- A cell that is the same in both codes, or not run because a return is under
way. -/
theorem tallied_cell_of_same (fuel : Nat) {m m' : Machine}
    (hm : Alongside known quiet m m')
    (hsame : m.returning = true ∨ loud.cells[m.pc]? = quiet.cells[m.pc]?) :
    ∃ entries, Tallied known quiet m m' entries (cell quiet enter fuel m)
      (cell loud enter' fuel m') fun n breach =>
        cell loud (watchedEnter n breach) fuel m' := by
  by_cases hr : m.returning = true
  · have hr' : m'.returning = true := hm.returning_eq.trans hr
    simp only [cell_of_returning hr, cell_of_returning hr']
    exact echoes_pure false m m' hm
  have hr₀ : m.returning = false := Bool.eq_false_iff.mpr hr
  have hr' : m'.returning = false := hm.returning_eq.trans hr₀
  have hi := hm.interrupted
  have hi' := hm.interrupted'
  have hcell : loud.cells[m'.pc]? = quiet.cells[m.pc]? := by
    rw [hm.pc_eq]
    exact hsame.resolve_left hr
  -- by the cell, which is the same for both; the operation is run on machines
  -- alongside each other
  cases hc : quiet.cells[m.pc]? with
  | none =>
    rw [hc] at hcell
    simp only [cell_apply, hr₀, hr', hi, hi', hc, hcell]
    exact echoes_fail _ _ m m' hm
  | some c =>
    rw [hc] at hcell
    cases c with
    | op o =>
      simp only [cell_of_op hr₀ hi hc, cell_of_op hr' hi' hcell,
        hjob.operation_eq, hm.pc_eq]
      exact (echoes_jump _).bind (fun _ =>
        (echoes_operation hcells henter fuel o).bind fun _ => echoes_pure true) m m' hm
    | address a =>
      simp only [cell_of_address hr₀ hi hc, cell_of_address hr' hi' hcell]
      exact (echoes_jump a).bind (fun _ => echoes_pure true) m m' hm
    | stop =>
      simp only [cell_of_stop hr₀ hi hc, cell_of_stop hr' hi' hcell]
      exact echoes_pure false m m' hm
    | _ =>
      simp only [cell_apply, hr₀, hr', hi, hi', hc, hcell]
      exact echoes_fail _ _ m m' hm

omit hcells henter in
/-- The end of an expression statement: one machine drops the value, the other
one shows it. -/
theorem tallied_cell_of_ends (fuel : Nat) {m m' : Machine}
    (hm : Alongside known quiet m m') (hr : m.returning = false)
    (hends : ends m.pc = true) :
    ∃ entries, Tallied known quiet m m' entries (cell quiet enter fuel m)
      (cell loud enter' fuel m') fun n breach =>
        watch (fun m => !m.isShowing ends n) breach
          (cell loud (watchedEnter n breach) fuel) m' := by
  obtain ⟨hquiet, hloud⟩ := hjob.cells_of_ends hends
  have hr' : m'.returning = false := hm.returning_eq.trans hr
  have hloud' : loud.cells[m'.pc]? = some (.op (.plain .printTop)) :=
    hm.pc_eq.symm ▸ hloud
  rw [cell_of_op hr hm.interrupted hquiet]
  simp only [watch, cell_of_op hr' hm.interrupted' hloud']
  rcases pop_cases m.stack with ⟨hempty, e, hpop⟩ | ⟨hsome, v, hpop⟩
  · -- there is no value, and both fail
    have hquiet' : operation quiet enter fuel (.plain .pop) { m with pc := m.pc + 1 } =
        .error e { m with pc := m.pc + 1 } := bind_of_error (hpop _ rfl)
    have hloud' : ∀ enter, operation loud enter fuel (.plain .printTop)
        { m' with pc := m'.pc + 1 } =
        .error e { m' with pc := m'.pc + 1 } :=
        fun _ => bind_of_error (hpop _ hm.stack_eq)
    simp only [Machine.isShowing_of_isEmpty (hm.stack_eq ▸ hempty), bind_of_error hquiet',
      bind_of_error (hloud' _)]
    obtain ⟨t, ws, rfl⟩ := hm.other
    exact (echoes_jump (m.pc + 1)).bind
      (fun _ => (follows_throw e).echoes fun _ _ => rfl) m _ hm
  -- there is a value: it is dropped by one machine and shown by the other
  · have hshows := Machine.isShowing_of_ends (hm.pc_eq.symm ▸ hends) hr'
      (hm.stack_eq.symm ▸ hsome)
    have hquiet' : operation quiet enter fuel (.plain .pop) { m with pc := m.pc + 1 } =
        .ok () { m with pc := m.pc + 1, stack := ⟨m.stack.items.pop⟩ } :=
        bind_of_ok (hpop _ rfl)
    have hloud' : ∀ enter, operation loud enter fuel (.plain .printTop)
        { m' with pc := m'.pc + 1 } =
        .ok () { m' with
          pc := m'.pc + 1
          stack := ⟨m.stack.items.pop⟩
          console := m'.console.write (.echo v)
          symbols := m'.symbols.showing v } :=
      fun _ => printTop_of_ok (hpop { m' with pc := m'.pc + 1 } hm.stack_eq) hm.alarm'
    simp only [hshows, bind_of_ok hquiet', bind_of_ok (hloud' _)]
    refine ⟨[(.echo v, true)], .ok ?_, (List.append_nil _).symm, Array.toList_push,
      fun w hw => ?_, fun n breach => .single ..⟩
    · have hpopped := follows_pop m m' hm
      rw [hpop m rfl, hpop m' hm.stack_eq] at hpopped
      cases hpopped with
      | ok h =>
        obtain ⟨t, ws, rfl⟩ := hm.other
        exact ⟨⟨t.showing v, ws.push (.echo v), rfl⟩, hm.symbols.showing_right v, h.stack,
          hm.frames, hm.interrupted, hm.alarm⟩
    · exact ⟨v, congrArg Prod.fst (List.mem_singleton.1 hw)⟩

/-- One cell of both codes. -/
theorem echoes_cell (fuel : Nat) :
    Echoes known quiet (cell quiet enter fuel) (cell loud enter' fuel) fun n breach =>
      watch (fun m => !m.isShowing ends n) breach
        (cell loud (watchedEnter n breach) fuel) := by
  intro m m' hm
  by_cases hends : m.returning = false ∧ ends m.pc = true
  · exact tallied_cell_of_ends hjob fuel hm hends.1 hends.2
  · have hends' : ¬ (m'.returning = false ∧ ends m'.pc = true) := by
      rwa [hm.returning_eq, hm.pc_eq]
    have hsame : m.returning = true ∨ loud.cells[m.pc]? = quiet.cells[m.pc]? := by
      rcases hjob.cells m.pc with ⟨he, -, -⟩ | ⟨-, hcell⟩
      · cases hr : m.returning with
        | true => exact .inl rfl
        | false => exact absurd ⟨hr, he⟩ hends
      · exact .inr hcell
    simp only [watch, Machine.isShowing_of_not_ends hends']
    exact tallied_cell_of_same hjob hcells henter fuel hm hsame

/-- Cells one after the other, as long as there are rounds. -/
theorem echoes_dispatch (fuel rounds : Nat) :
    Echoes known quiet (dispatch quiet enter fuel rounds)
      (dispatch loud enter' fuel rounds) fun n breach =>
      watchedDispatch (fun m => !m.isShowing ends n) breach loud (watchedEnter n breach)
        fuel rounds := by
  induction rounds with
  | zero => exact (follows_throw _).echoes fun _ _ => rfl
  | succ rounds ih =>
    refine (echoes_cell hjob hcells henter fuel).bind fun b => ?_
    cases b with
    | true => exact ih
    | false => exact echoes_pure ()

omit henter in
/-- Stretches at every level of nesting. The limit is the same for both codes. -/
theorem echoes_exec (fuel depth a : Nat) :
    Echoes known quiet (exec quiet fuel depth a) (exec loud fuel depth a) fun n breach =>
      watchedExec (fun m => !m.isShowing ends n) breach loud fuel depth a := by
  induction depth generalizing a with
  | zero => exact echoes_fail _ _
  | succ depth ih =>
    exact (echoes_jump a).bind fun _ => echoes_dispatch hjob hcells ih fuel fuel

omit henter in
/-- Whole runs from the same machine. -/
theorem tallied_execute (fuel a : Nat) {m : Machine} (halarm : m.alarm = none)
    (hknown : ∀ id, known id → id < m.symbols.size ∧ m.symbols.lookup "_" ≠ some id) :
    ∃ entries, Tallied known quiet m m entries (execute quiet fuel a m)
      (execute loud fuel a m) fun n breach =>
      watchedExecute (fun m => !m.isShowing ends n) breach loud fuel a m := by
  have hstart : Alongside known quiet (m.start a) (m.start a) := by
    refine ⟨⟨m.symbols, m.console.writes, rfl⟩, ?_, Stack.within_empty,
      Stack.within_empty, rfl, halarm⟩
    exact ⟨⟨fun _ _ => rfl, fun _ _ => rfl, .inl ⟨rfl, rfl⟩⟩,
      fun id hid => (hknown id hid).1, fun id hid => (hknown id hid).2⟩
  -- both runs have the same levels of nesting, by the limits that the codes
  -- share
  have hloud : execute loud fuel a m =
      exec loud fuel quiet.limits.depth a (m.start a) := by
    rw [← hjob.limits]
    rfl
  have hwatched : ∀ n breach,
      watchedExecute (fun m => !m.isShowing ends n) breach loud fuel a m =
      watchedExec (fun m => !m.isShowing ends n) breach loud fuel quiet.limits.depth a
        (m.start a) := by
    intro n breach
    rw [← hjob.limits]
    rfl
  simp only [hloud, hwatched]
  obtain ⟨entries, ht⟩ :=
    echoes_exec hjob hcells fuel quiet.limits.depth a (m.start a) (m.start a) hstart
  exact ⟨entries, ht.paired, ht.quiet, ht.loud, ht.marked, ht.watched⟩

end

/-! ### The writes of both runs -/

/-- Whether the `n`-th write of a run is made at the end of an expression
statement. -/
def shows (ends : Nat → Bool) (job : Job) (fuel a : Nat) (m : Machine) (n : Nat) : Bool :=
  (reached? (fun m => !m.isShowing ends n) job fuel a m).isSome

section

variable {ends : Nat → Bool} {job : Job} {fuel a n : Nat} {m : Machine}
  {entries : List (Write × Bool)} {r : EStateM.Result Halt Machine Unit}

/-- A run shows a value exactly where an entry is marked. -/
theorem shows_iff {start : Nat} (h : ∀ breach, Watched n breach start entries r
      (watchedExecute (fun m => !m.isShowing ends n) breach job fuel a m)) :
    shows ends job fuel a m n = true ↔ ∃ i w,
      n = start + i ∧ entries[i]? = some (w, true) := by
  unfold shows reached?
  dsimp only
  have hfuel := h .outOfFuel
  have hfault := h (.fault { kind := .interrupted })
  generalize watchedExecute _ .outOfFuel job fuel a m = z at hfuel
  generalize watchedExecute _ (.fault { kind := .interrupted }) job fuel a m =
    z' at hfault
  cases hfuel with
  | cut hn hmarked =>
    cases hfault with
    | passed hpassed => exact absurd hmarked (hpassed _ _ hn)
    | cut => exact iff_of_true rfl ⟨_, _, hn, hmarked⟩
  | passed hpassed =>
    cases hfault with
    | cut hn hmarked => exact absurd hmarked (hpassed _ _ hn)
    | passed =>
      rw [if_pos rfl]
      refine iff_of_false Bool.false_ne_true ?_
      rintro ⟨i, w, hn, hmarked⟩
      exact hpassed i w hn hmarked

/-- Removing by place what the marks remove. -/
theorem filter_zipIdx_of_marked (gone : Nat → Bool) (k : Nat)
    (h : ∀ i w b, entries[i]? = some (w, b) → gone (k + i) = b) :
    (((entries.map Prod.fst).zipIdx k).filter fun w => !gone w.2).map Prod.fst =
      (entries.filter fun e => !e.2).map Prod.fst := by
  induction entries generalizing k with
  | nil => rfl
  | cons e entries ih =>
    obtain ⟨w, b⟩ := e
    have hhead : gone k = b := h 0 w b rfl
    have htail := ih (k + 1) fun i w b hi => by
      have := h (i + 1) w b hi
      rwa [show k + 1 + i = k + (i + 1) by omega]
    rw [List.map_cons, List.zipIdx_cons]
    cases b with
    | true => simpa [List.filter_cons, hhead] using htail
    | false => simpa [List.filter_cons, hhead] using htail

/-- An entry is marked if the run shows a value with it. The writes made before
the run are not marked. -/
theorem shows_of_entry (h : ∀ n breach, Watched n breach m.printed entries r
      (watchedExecute (fun m => !m.isShowing ends n) breach job fuel a m)) {i : Nat}
        {w : Write} {b : Bool}
    (hi : (m.console.writes.toList.map (·, false) ++ entries)[i]? = some (w, b)) :
    shows ends job fuel a m i = b := by
  have hlength : (m.console.writes.toList.map (·, false)).length = m.printed :=
    List.length_map _
  rw [Bool.eq_iff_iff, shows_iff (h i)]
  rcases Nat.lt_or_ge i m.printed with hlt | hge
  · rw [List.getElem?_append_left (hlength.symm ▸ hlt), List.getElem?_map] at hi
    obtain ⟨_, -, heq⟩ := Option.map_eq_some_iff.mp hi
    cases heq
    refine iff_of_false ?_ Bool.false_ne_true
    rintro ⟨j, -, hij, -⟩
    omega
  · rw [List.getElem?_append_right (hlength.symm ▸ hge), hlength] at hi
    constructor
    · rintro ⟨j, w', hij, hmarked⟩
      rw [hij, Nat.add_sub_cancel_left, hmarked] at hi
      cases hi
      rfl
    · rintro rfl
      exact ⟨i - m.printed, w, by omega, hi⟩

variable {known : Nat → Prop} {quiet : Job} {r' : EStateM.Result Halt Machine Unit}

/-- The unmarked entries are left of the loud run's writes. -/
theorem Tallied.writes_eq (h : Tallied known quiet m m entries r r' fun n breach =>
      watchedExecute (fun m => !m.isShowing ends n) breach job fuel a m) :
    (final r).console.writes.toList =
      ((final r').console.writes.toList.zipIdx.filter fun w =>
        !shows ends job fuel a m w.2).map Prod.fst := by
  have hmarked := filter_zipIdx_of_marked (shows ends job fuel a m) 0 fun i w b hi => by
    rw [Nat.zero_add]
    exact shows_of_entry h.watched hi
  have hbefore : (m.console.writes.toList.map (·, false)).filter (fun e => !e.2) =
      m.console.writes.toList.map (·, false) := List.filter_eq_self.mpr (by simp)
  have hwrites : (m.console.writes.toList.map (·, false)).map Prod.fst =
      m.console.writes.toList := by
    rw [List.map_map]
    exact List.map_id _
  rw [List.filter_append, List.map_append, List.map_append, hbefore, hwrites] at hmarked
  rw [h.quiet, h.loud, ← hmarked]

/-- The marked entries are values that are shown. -/
theorem Tallied.echo_of_shows (h : Tallied known quiet m m entries r r' fun n breach =>
      watchedExecute (fun m => !m.isShowing ends n) breach job fuel a m)
        (hn : shows ends job fuel a m n = true) :
    ∃ x, (final r').console.writes[n]? = some (.echo x) := by
  obtain ⟨i, w, rfl, hentry⟩ := (shows_iff (h.watched n)).1 hn
  obtain ⟨x, rfl⟩ := h.marked w (List.mem_of_getElem? hentry)
  have hlength : m.console.writes.toList.length = m.printed := rfl
  refine ⟨x, ?_⟩
  rw [← Array.getElem?_toList, h.loud, List.getElem?_append_right (by omega), hlength,
    Nat.add_sub_cancel_left, List.getElem?_map, hentry]
  rfl

/-- Two runs of a program's two codes from the same machine end alike, and the
quiet run writes what the loud run does apart from the values that this one
shows. -/
theorem writes_execute {loud : Job} (hjob : Job.Echoed ends quiet loud)
    (hcells : ∀ id, .symbol id ∈ quiet.cells → known id) (fuel a : Nat)
    (halarm : m.alarm = none)
    (hknown : ∀ id, known id → id < m.symbols.size ∧ m.symbols.lookup "_" ≠ some id) :
    Paired (Alongside known quiet) (execute quiet fuel a m) (execute loud fuel a m) ∧
      (final (execute quiet fuel a m)).console.writes.toList =
        ((final (execute loud fuel a m)).console.writes.toList.zipIdx.filter
          fun w => !shows ends loud fuel a m w.2).map Prod.fst ∧
      ∀ n, shows ends loud fuel a m n = true →
        ∃ x, (final (execute loud fuel a m)).console.writes[n]? = some (.echo x) := by
  obtain ⟨entries, ht⟩ := tallied_execute hjob hcells fuel a halarm hknown
  exact ⟨ht.paired, ht.writes_eq, fun _ => ht.echo_of_shows⟩

end

end Exec

end StackCalc
