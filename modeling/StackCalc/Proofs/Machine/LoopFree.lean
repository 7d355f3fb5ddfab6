import StackCalc.Proofs.Code.Conditions
import StackCalc.Proofs.Loops.SideBySide
import StackCalc.Proofs.Machine.Outside

/-!
# Runs of code without loops

Code without loops is run to an end, whatever definitions call each other and
wherever the run starts: given enough rounds it is done or fails
(`Exec.execute_concludes`).

Levels of nesting are limited anyway, so what is to be shown is that a stretch
has only so many rounds. Cells that are no calls go forward. So does a call that
returns: the machine goes on behind it. But a body may also run into a stop, and
then the call is never left; the run goes on at that stop with one call more.
The measure is therefore the number of calls that can still be made, and then
the number of cells ahead (`Exec.ahead`). A return inside the condition of a
branch would break it, because a branch goes on to its slots afterwards; but
conditions are straight (`Guarded`).
-/

namespace StackCalc

/-- Whether a cell starts a loop. -/
def Cell.isLoop : Cell → Bool
  | op (.control .whileLoop) | op (.control .forLoop) => true
  | _ => false

/-- A run through code without loops: addresses point forward and conditions are
straight. -/
structure Job.LoopFree (job : Job) : Prop where
  loops : ∀ {i : Nat} {c : Cell}, job.cells[i]? = some c → c.isLoop = false
  forward : ∀ {i b : Nat}, job.cells[i]? = some (.address b) → i < b
  guarded : Guarded job.cells.toList

/-- Behind a branch stands its condition. -/
theorem Job.LoopFree.condition {job : Job} (h : job.LoopFree) {i : Nat}
    (hi : job.cells[i]? = some (.op (.control .branch))) :
    ∃ code, Straight code ∧ Holds job.cells (i + 4) (code ++ [.stop]) := by
  -- the code is cut at the branch, behind which it is guarded
  obtain ⟨hlt, hget⟩ := Array.getElem?_eq_some_iff.mp hi
  have hsplit : job.cells.toList =
      job.cells.toList.take i ++ .op (.control .branch) ::
        job.cells.toList.drop (i + 1) := by
    have hdrop := List.drop_eq_getElem_cons (l := job.cells.toList) hlt
    rw [Array.getElem_toList, hget] at hdrop
    rw [← hdrop, List.take_append_drop]
  obtain ⟨slots, code, rest, hbehind, hlength, hcode⟩ := h.guarded _ _ hsplit
  have hfront : (job.cells.toList.take i).length = i :=
    List.length_take_of_le (Nat.le_of_lt hlt)
  have hholds : Holds job.cells 0 job.cells.toList := by
    simpa using holds_end #[] job.cells.toList
  rw [hsplit, hbehind, holds_append, holds_cons, holds_append, hfront, hlength,
    Nat.zero_add] at hholds
  refine ⟨code, hcode, ?_⟩
  have hcond := hholds.2.2.2
  rw [List.append_cons, holds_append] at hcond
  exact hcond.1

namespace Exec

open StackCalc.Action

variable {α β : Type}

/-! ### Runs that end -/

/-- A run is done, as `Q` says, or has failed; it has not used up its rounds. -/
def Concludes (Q : α → Machine → Prop) : EStateM.Result Halt Machine α → Prop
  | .ok a m => Q a m
  | .error (.fault _) _ => True
  | .error .outOfFuel _ => False

theorem Concludes.mono {Q R : α → Machine → Prop} {r : EStateM.Result Halt Machine α}
    (h : Concludes Q r) (hQ : ∀ a m, Q a m → R a m) : Concludes R r := by
  cases r with
  | ok a m => exact hQ a m h
  | error e m => cases e <;> exact h

/-- A sequence ends if what follows the first part ends, from all that may come
of it. -/
theorem Concludes.bind {Q : α → Machine → Prop} {R : β → Machine → Prop} {x : Exec α}
    {f : α → Exec β} {m : Machine} (hx : Concludes Q (x m))
    (hf : ∀ a m', Q a m' → Concludes R (f a m')) : Concludes R ((x >>= f) m) := by
  rcases bind_cases x f m with ⟨e, m', hfirst, hrun⟩ | ⟨a, m', hfirst, hrun⟩
  · rw [hfirst] at hx
    rw [hrun]
    cases e <;> exact hx
  · rw [hfirst] at hx
    rw [hrun]
    exact hf a m' hx

/-- An action that never uses up its rounds. -/
def Terminates (x : Exec α) : Prop :=
  ∀ m, Concludes (fun _ _ => True) (x m)

theorem Terminates.bind {x : Exec α} {f : α → Exec β} (hx : Terminates x)
    (hf : ∀ a, Terminates (f a)) : Terminates (x >>= f) :=
  fun m => (hx m).bind fun a m' _ => hf a m'

/-- What is known of the state where such an action succeeds. -/
theorem Terminates.concludes {x : Exec α} (hx : Terminates x) {m : Machine}
    {Q : α → Machine → Prop} (hQ : ∀ a m', x m = .ok a m' → Q a m') :
    Concludes Q (x m) := by
  have h := hx m
  cases hrun : x m with
  | ok a m' => exact hQ a m' hrun
  | error e m' =>
    rw [hrun] at h
    cases e <;> exact h

theorem terminates_pure (a : α) : Terminates (pure a : Exec α) :=
  fun _ => trivial

theorem terminates_fail (kind : FaultKind) (note : String) :
    Terminates (fail kind note : Exec α) :=
  fun _ => trivial

theorem terminates_failAbout (kind : FaultKind) (id : Nat) :
    Terminates (failAbout kind id : Exec α) :=
  fun _ => trivial

theorem terminates_get {f : Machine → Exec α} (hf : ∀ m, Terminates (f m)) :
    Terminates (get >>= f) :=
  fun m => hf m m

theorem terminates_ofExcept (r : Except Fault α) : Terminates (ofExcept r) := by
  cases r <;> exact fun _ => trivial

theorem terminates_onStack (act : EStateM Fault (Stack Datum) α) :
    Terminates (onStack act) := by
  intro m
  unfold onStack
  cases act m.stack <;> trivial

theorem terminates_onFrames (act : EStateM Fault (Stack Frame) α) :
    Terminates (onFrames act) := by
  intro m
  unfold onFrames
  cases act m.frames <;> trivial

theorem terminates_push (job : Job) (x : Float) : Terminates (push job x) :=
  terminates_onStack _

theorem terminates_pop : Terminates pop :=
  (terminates_onStack _).bind fun _ => terminates_pure _

theorem terminates_operand (job : Job) : Terminates (operand job) := by
  refine terminates_get fun m => ?_
  dsimp only
  split
  · exact fun _ => trivial
  · exact terminates_fail _ _

theorem terminates_symbolOperand (job : Job) : Terminates (symbolOperand job) := by
  refine (terminates_operand job).bind fun c => ?_
  cases c <;> exact fun _ => trivial

theorem terminates_countOperand (job : Job) : Terminates (countOperand job) := by
  refine (terminates_operand job).bind fun c => ?_
  cases c <;> exact fun _ => trivial

theorem terminates_symbol (id : Nat) : Terminates (symbol id) :=
  fun _ => trivial

theorem terminates_assign (id : Nat) (x : Float) : Terminates (assign id x) :=
  fun _ => trivial

theorem terminates_frame : Terminates frame := by
  refine terminates_get fun m => ?_
  split
  · exact terminates_pure _
  · exact terminates_fail _ _

theorem terminates_verify (id : Nat) : Terminates (verify id) := by
  refine (terminates_symbol id).bind fun s => ?_
  split
  · exact terminates_pure ()
  · exact terminates_failAbout _ id
  · exact terminates_failAbout _ id

theorem terminates_verifyAssignable (id : Nat) : Terminates (verifyAssignable id) := by
  refine (terminates_symbol id).bind fun s => ?_
  split
  · exact terminates_pure ()
  · exact terminates_failAbout _ id

theorem terminates_takeLine (job : Job) (id : Nat) (line : Option String) :
    Terminates (takeLine job id line) := by
  unfold takeLine
  split
  · exact (terminates_assign id _).bind fun _ => terminates_push job _
  · split
    · exact (terminates_assign id _).bind fun _ => terminates_push job _
    · exact terminates_failAbout _ id

theorem terminates_leave : Terminates leave := by
  refine (terminates_onFrames _).bind fun f => terminates_get fun m => ?_
  split
  · exact terminates_fail _ _
  · exact (terminates_onStack _).bind fun _ _ => trivial

theorem terminates_argPlace (job : Job) : Terminates (argPlace job) := by
  refine (terminates_countOperand job).bind fun n => terminates_frame.bind fun f => ?_
  split
  · exact terminates_fail _ _
  · split
    · exact terminates_failAbout _ _
    · exact terminates_pure _

/-- No instruction has rounds to use up. -/
theorem terminates_instruction (job : Job) (i : Instruction) :
    Terminates (i.run job) := by
  cases i with
  | constPush =>
    refine (terminates_operand job).bind fun c => ?_
    cases c with
    | number x => exact terminates_push job x
    | _ => exact terminates_fail _ _
  | varPush => exact (terminates_symbolOperand job).bind fun _ => terminates_onStack _
  | eval =>
    refine (terminates_onStack _).bind fun d => ?_
    split
    · exact (terminates_verify _).bind fun _ => (terminates_symbol _).bind fun _ =>
        terminates_push job _
    · exact terminates_fail _ _
  | pop => exact terminates_pop.bind fun _ => terminates_pure ()
  | binary op =>
    exact (terminates_onStack _).bind fun _ => (terminates_ofExcept _).bind fun _ =>
      terminates_push job _
  | negate => exact terminates_pop.bind fun _ => terminates_push job _
  | not => exact terminates_pop.bind fun _ => terminates_push job _
  | assign op =>
    refine (terminates_onStack _).bind fun d => terminates_pop.bind fun x => ?_
    split
    · refine (terminates_verifyAssignable _).bind fun _ =>
        (terminates_symbol _).bind fun s => ?_
      exact (terminates_ofExcept _).bind fun y => (terminates_assign _ y).bind fun _ =>
        terminates_push job y
    · exact terminates_fail _ _
  | step how =>
    exact (terminates_symbolOperand job).bind fun id =>
      (terminates_verify id).bind fun _ =>
      (terminates_symbol id).bind fun _ => (terminates_assign id _).bind fun _ =>
        terminates_push job _
  | builtin =>
    refine (terminates_symbolOperand job).bind fun id =>
      (terminates_symbol id).bind fun s => ?_
    split
    · exact terminates_pop.bind fun _ => (terminates_ofExcept _).bind fun _ =>
        terminates_push job _
    · exact terminates_fail _ _
  | printValue => exact terminates_pop.bind fun _ _ => trivial
  | printText =>
    refine (terminates_operand job).bind fun c => ?_
    cases c with
    | text s => exact fun _ => trivial
    | _ => exact terminates_fail _ _
  | printTop =>
    exact terminates_pop.bind fun _ => Terminates.bind (fun _ => trivial) fun _ _ =>
      trivial
  | read =>
    exact (terminates_symbolOperand job).bind fun id =>
      (terminates_verifyAssignable id).bind fun _ =>
      Terminates.bind (fun _ => trivial) fun line => terminates_takeLine job id line
  | returnValue =>
    refine terminates_frame.bind fun f => (terminates_symbol _).bind fun s => ?_
    split
    · exact terminates_failAbout _ _
    · exact terminates_pop.bind fun _ => terminates_leave.bind fun _ =>
        terminates_push job _
  | returnNothing =>
    refine terminates_frame.bind fun f => (terminates_symbol _).bind fun s => ?_
    split
    · exact terminates_failAbout _ _
    · exact terminates_leave
  | arg =>
    refine (terminates_argPlace job).bind fun i => terminates_get fun m => ?_
    split
    · exact terminates_push job _
    · exact terminates_fail _ _
  | argAssign =>
    refine (terminates_argPlace job).bind fun i => terminates_pop.bind fun x =>
      terminates_get fun m => ?_
    dsimp only
    split
    · split
      · exact Terminates.bind (fun _ => trivial) fun _ => terminates_push job _
      · exact terminates_fail _ _
    · exact terminates_fail _ _

end Exec

/-! ### Calls that are under way -/

/-- The calls that have not returned, the last one at the end. -/
def Machine.calls (m : Machine) : List Frame :=
  m.frames.items.toList

namespace Exec

/-- What a stretch leaves of the calls that were under way. -/
inductive Finishes (calls : List Frame) (m : Machine) : Prop
  /-- They still are, with others perhaps. -/
  | within (h : calls <+: m.calls)
  /-- The last one has returned, to the place behind it. -/
  | returned (f : Frame) (hcalls : calls = m.calls ++ [f]) (hpc : m.pc = f.resume)
    (hreturning : m.returning = true)

/-- What a cell at `p` that is run leaves: one more call or a place behind it,
or a return under way. -/
inductive MovesOn (p : Nat) (calls : List Frame) (m : Machine) : Prop
  | onward (hreturning : m.returning = false) (hwithin : calls <+: m.calls)
    (hmoves : calls.length < m.calls.length ∨ p < m.pc)
  | left (hreturning : m.returning = true) (h : Finishes calls m)

variable {calls : List Frame} {m m' : Machine}

/-- What was left of more calls is left of fewer. -/
theorem Finishes.after (h : calls <+: m.calls) (h' : Finishes m.calls m') :
    Finishes calls m' := by
  cases h' with
  | within hwithin => exact .within (h.trans hwithin)
  | returned f hcalls hpc hreturning =>
    -- it may be a call that was made in between
    rw [hcalls, List.prefix_concat_iff] at h
    rcases h with heq | hwithin
    · exact .returned f heq hpc hreturning
    · exact .within hwithin

/-- After one more call the return cannot be one from the calls before. -/
theorem Finishes.within_of_lt (h : calls <+: m.calls)
    (hlt : calls.length < m.calls.length) (h' : Finishes m.calls m') :
    calls <+: m'.calls := by
  cases h' with
  | within hwithin => exact h.trans hwithin
  | returned f hcalls hpc hreturning =>
    rw [hcalls, List.prefix_concat_iff] at h
    rcases h with heq | hwithin
    · rw [heq, hcalls] at hlt
      exact absurd hlt (Nat.lt_irrefl _)
    · exact hwithin

theorem Finishes.within_of_not_returning (h : Finishes calls m)
    (hreturning : m.returning = false) :
    calls <+: m.calls := by
  cases h with
  | within hwithin => exact hwithin
  | returned f hcalls hpc hreturning' => cases hreturning.symm.trans hreturning'

end Exec

theorem Instruction.operandCount_eq (i : Instruction) : i.operandCount = i.operands := by
  cases i <;> rfl

namespace Exec

open StackCalc.Action

variable {job : Job} {m m' : Machine}

/-- A machine is abreast of itself. -/
theorem abreast_self (m : Machine) :
    Abreast ⟨fun _ => True, id⟩ ⟨m.frames.items, m.frames.items, rfl⟩ m.returning m.pc
      m.pc m m where
  other := by
    rw [Machine.moved, SymbolTable.moved_id]
  pc := rfl
  frames := rfl
  flag := rfl
  bodies _ _ _ := trivial

/-- What holds of a run matched with itself holds of its end. -/
theorem related_of_matched {α : Type} {Q : Machine → Machine → Prop} {x : Exec α} {a : α}
    (hmatched : Matched Q (x m) (x m)) (h : x m = .ok a m') : Q m' m' := by
  rw [h] at hmatched
  cases hmatched with
  | ok hq => exact hq

/-- An instruction that does not return goes on behind its operand, in the same
calls. -/
theorem run_goesOn {i : Instruction} (hi : i.isReturn = false) (hr : m.returning = false)
    (h : i.run job m = .ok () m') :
    m'.calls = m.calls ∧ m'.returning = false ∧ m'.pc = m.pc + i.operands := by
  have hself := abreast_self m
  rw [hr] at hself
  have hlimits : job.limits = job.limits := rfl
  have habreast := related_of_matched (i.inStep_run hlimits hi (fun _ => rfl) m m hself) h
  refine ⟨?_, habreast.flag, ?_⟩
  · rw [Machine.calls, habreast.frames]
    rfl
  · rw [habreast.pc, i.operandCount_eq]

/-- An instruction that returns leaves the last call. -/
theorem run_returns {i : Instruction} (hi : i.isReturn = true) (hr : m.returning = false)
    (h : i.run job m = .ok () m') :
    ∃ f, m.calls = m'.calls ++ [f] ∧ m'.pc = f.resume ∧ m'.returning = true := by
  have hself := abreast_self m
  rw [hr] at hself
  have hlimits : job.limits = job.limits := rfl
  -- a return does the same to the machine and to itself beside it, which says
  -- what it leaves
  have hleft : Left ⟨fun _ => True, id⟩ ⟨m.frames.items, m.frames.items, rfl⟩ m' m' := by
    cases i with
    | returnValue => exact related_of_matched (inStep_returnValue hlimits m m hself) h
    | returnNothing => exact related_of_matched (inStep_returnNothing m m hself) h
    | _ => cases hi
  obtain ⟨f, r, htop, habreast⟩ := hleft
  refine ⟨f, ?_, habreast.pc, habreast.flag⟩
  have hlast : m.calls.getLast? = some f := by
    rw [Machine.calls, Array.getLast?_toList]
    exact htop.top
  have hfront : m'.calls = m.calls.dropLast := by
    rw [Machine.calls, habreast.frames]
    exact Array.toList_pop
  obtain ⟨front, hcalls⟩ := List.getLast?_eq_some_iff.mp hlast
  rw [hfront, hcalls, List.dropLast_concat]

/-! ### Operations -/

/-- The calls that are under way are within the limit. -/
def Fits (job : Job) (m : Machine) : Prop :=
  m.calls.length ≤ job.limits.frames

/-- What running a stretch does: it finishes, and straight code never returns. -/
structure EntersSafely (job : Job) (enter : Nat → Exec Unit) : Prop where
  finishes : ∀ a m, Fits job m →
    Concludes (fun _ m' => Fits job m' ∧ Finishes m.calls m') (enter a m)
  straight : ∀ a code, Straight code → Holds job.cells a (code ++ [.stop]) → ∀ m,
    Fits job m →
    m.returning = false → Concludes (fun _ m' => Fits job m' ∧
      m.calls <+: m'.calls) (enter a m)

/-- What a straight operation leaves: one more call, or the same calls and the
place behind the operands. -/
structure Passes (job : Job) (o : Opcode) (m m' : Machine) : Prop where
  fits : Fits job m'
  returning : m'.returning = false
  within : m.calls <+: m'.calls
  moves : m.calls.length < m'.calls.length ∨
    m'.calls = m.calls ∧ m'.pc = m.pc + o.operands

/-- The same calls, and the next cell. -/
def TakesCell (m m' : Machine) : Prop :=
  m'.calls = m.calls ∧ m'.pc = m.pc + 1

theorem concludes_operand (job : Job) (m : Machine) :
    Concludes (fun _ => TakesCell m) (operand job m) := by
  rw [operand, bind_of_ok (get_apply m)]
  cases job.cells[m.pc]? with
  | none => trivial
  | some c => exact ⟨rfl, rfl⟩

theorem concludes_symbolOperand (job : Job) (m : Machine) :
    Concludes (fun _ => TakesCell m) (symbolOperand job m) := by
  refine (concludes_operand job m).bind fun c m' hm' => ?_
  cases c with
  | symbol id => exact hm'
  | _ => trivial

theorem concludes_countOperand (job : Job) (m : Machine) :
    Concludes (fun _ => TakesCell m) (countOperand job m) := by
  refine (concludes_operand job m).bind fun c m' hm' => ?_
  cases c with
  | count n => exact hm'
  | _ => trivial

/-- A call is added where there is room for it, and fails where there is not. -/
theorem concludes_pushFrame (job : Job) (f : Frame) (m : Machine) :
    Concludes (fun _ m' => m'.calls = m.calls ++ [f] ∧ Fits job m')
      (onFrames (Stack.push job.limits.frames .callNestedTooDeeply f) m) := by
  unfold onFrames Stack.push
  by_cases hfull : m.frames.isFull job.limits.frames
  · rw [if_pos hfull]
    trivial
  · rw [if_neg hfull]
    have hcalls : (m.frames.items.push f).toList = m.calls ++ [f] := Array.toList_push
    have hroom : m.calls.length < job.limits.frames := by
      rw [Machine.calls, Array.length_toList]
      exact Nat.lt_of_not_le fun hle => hfull (decide_eq_true hle)
    refine ⟨hcalls, ?_⟩
    show (m.frames.items.push f).toList.length ≤ job.limits.frames
    rw [hcalls, List.length_append]
    exact hroom

variable {enter : Nat → Exec Unit}

/-- What a body leaves of the call that entered it. -/
theorem passes_of_finishes {f : Frame} {m₁ m₂ : Machine}
    (hcalls : m₁.calls = m.calls ++ [f]) (hresume : f.resume = m.pc + 2)
    (hfits : Fits job m₂) (h : Finishes m₁.calls m₂) :
    Passes job (.control .call) m { m₂ with returning := false } := by
  cases h with
  | within hwithin =>
    rw [hcalls] at hwithin
    refine ⟨hfits, rfl, (List.prefix_append m.calls [f]).trans hwithin, .inl ?_⟩
    have hle := hwithin.length_le
    rw [List.length_append] at hle
    exact hle
  | returned f' hcalls' hpc _ =>
    obtain ⟨hsame, hf⟩ := List.append_inj' (hcalls.symm.trans hcalls') rfl
    cases hf
    exact ⟨hfits, rfl, hsame ▸ List.prefix_rfl, .inr ⟨hsame.symm, hpc.trans hresume⟩⟩

/-- A call passes: it is left on its return, or at a stop inside it with one
more call under way. -/
theorem concludes_call (h : EntersSafely job enter) (m : Machine) :
    Concludes (fun _ => Passes job (.control .call) m) (call job enter m) := by
  refine (concludes_symbolOperand job m).bind fun id m₁ h₁ => ?_
  refine (concludes_countOperand job m₁).bind fun n m₂ h₂ => ?_
  have hcalls : m₂.calls = m.calls := h₂.1.trans h₁.1
  have hpc : m₂.pc = m.pc + 2 := by rw [h₂.2, h₁.2]
  rw [bind_of_ok (get_apply m₂)]
  split
  · trivial
  · rw [bind_of_ok (symbol_apply id m₂)]
    cases (m₂.symbols.get id).code with
    | none => trivial
    | some body =>
      dsimp only
      rw [bind_of_ok (get_apply m₂)]
      split
      · trivial
      · refine (concludes_pushFrame job _ m₂).bind fun _ m₃ hpushed => ?_
        refine (h.finishes body m₃ hpushed.2).bind fun _ m₄ hdone => ?_
        rw [hcalls] at hpushed
        exact passes_of_finishes hpushed.1 hpc hdone.1 hdone.2

/-- What returns is the only instruction that is not straight. -/
theorem isStraight_plain (i : Instruction) :
    (Opcode.plain i).isStraight = !i.isReturn := by
  cases i <;> rfl

/-- A straight operation is an instruction that goes on, or a call. -/
theorem concludes_straight (h : EntersSafely job enter) {o : Opcode}
    (ho : o.isStraight) (fuel : Nat) (hm : Fits job m) (hr : m.returning = false) :
    Concludes (fun _ => Passes job o m) (operation job enter fuel o m) := by
  cases o with
  | plain i =>
    have hi : i.isReturn = false := by
      rw [isStraight_plain] at ho
      simpa using ho
    refine (terminates_instruction job i).concludes fun _ m' hrun => ?_
    obtain ⟨hcalls, hreturning, hpc⟩ := run_goesOn hi hr hrun
    refine ⟨?_, hreturning, hcalls ▸ List.prefix_rfl, .inr ⟨hcalls, hpc⟩⟩
    rw [Fits, hcalls]
    exact hm
  | control c =>
    cases c with
    | call => exact concludes_call h m
    | _ => cases ho

theorem Passes.movesOn {o : Opcode} {p : Nat} (h : Passes job o m m') (hp : p < m.pc) :
    MovesOn p m.calls m' := by
  refine .onward h.returning h.within ?_
  rcases h.moves with hlt | ⟨-, hpc⟩
  · exact .inl hlt
  · exact .inr (hpc ▸ Nat.lt_add_right _ hp)

theorem concludes_pop (m : Machine) :
    Concludes (fun _ m' => m'.calls = m.calls) (pop m) := by
  refine Concludes.bind (Q := fun _ m' => m'.calls = m.calls) ?_ fun _ _ hm' => hm'
  unfold onStack
  cases Stack.pop m.stack with
  | ok d stack => rfl
  | error f stack => trivial

/-- What a slot gives is the address in it. -/
theorem concludes_slotAddress (job : Job) (a : Nat) (m : Machine) :
    Concludes (fun b m' => m' = m ∧ job.cells[a]? = some (.address b))
      (slotAddress job a m) := by
  unfold slotAddress
  cases job.cells[a]? with
  | none => trivial
  | some c =>
    cases c with
    | address b => exact ⟨rfl, rfl⟩
    | _ => trivial

/-- The end of a branch at `i` that was reached from `m`. -/
theorem concludes_endBranch (hjob : job.LoopFree) (i : Nat) (hm' : Fits job m')
    (h : Finishes m.calls m') :
    Concludes (fun _ m'' => Fits job m'' ∧ MovesOn i m.calls m'')
      (endBranch job (i + 1) m') := by
  rw [endBranch, bind_of_ok (get_apply m')]
  by_cases hr : m'.returning = true
  · rw [if_pos hr]
    exact ⟨hm', .left hr h⟩
  · rw [if_neg hr]
    have hreturning : m'.returning = false := Bool.eq_false_iff.mpr hr
    refine (concludes_slotAddress job _ m').bind ?_
    rintro b _ ⟨rfl, hslot⟩
    have hlt : i < b := Nat.lt_trans (by omega) (hjob.forward hslot)
    exact ⟨hm', .onward hreturning (h.within_of_not_returning hreturning) (.inr hlt)⟩

/-- A branch moves on. Its condition is straight, so that it does not return,
and both of its ways end in a jump forward. -/
theorem concludes_branch (hjob : job.LoopFree) (h : EntersSafely job enter) {i : Nat}
    (hi : job.cells[i]? = some (.op (.control .branch))) (hm : Fits job m)
    (hr : m.returning = false) :
    Concludes (fun _ m' => Fits job m' ∧ MovesOn i m.calls m')
      (branch job enter (i + 1) m) := by
  obtain ⟨code, hcode, hholds⟩ := hjob.condition hi
  -- the condition is straight, so the calls are under way afterwards as well
  have hcondition : Concludes (fun _ m' => Fits job m' ∧ m.calls <+: m'.calls)
      (condition enter (i + 1 + 3) m) := by
    refine (h.straight (i + 4) code hcode hholds m hm hr).bind fun _ m₁ h₁ => ?_
    refine (concludes_pop m₁).bind fun x m₂ h₂ => ?_
    refine ⟨?_, h₂ ▸ h₁.2⟩
    rw [Fits, h₂]
    exact h₁.1
  -- either branch finishes, and then comes the jump to the end
  have hbranch : ∀ a m₁, Fits job m₁ → m.calls <+: m₁.calls →
      Concludes (fun _ m' => Fits job m' ∧ MovesOn i m.calls m')
        ((enter a >>= fun _ => endBranch job (i + 1)) m₁) := fun a m₁ hfits hwithin =>
    (h.finishes a m₁ hfits).bind fun _ m₂ h₂ =>
      concludes_endBranch hjob i h₂.1 (h₂.2.after hwithin)
  refine hcondition.bind fun b m₁ h₁ => ?_
  split
  · exact hbranch _ m₁ h₁.1 h₁.2
  · split
    · exact hbranch _ m₁ h₁.1 h₁.2
    · exact concludes_endBranch hjob i h₁.1 (.within h₁.2)

/-- An operation that is run at `p` moves on from it: there are no loops, and
the rest passes, returns, or is a branch. -/
theorem concludes_operation (hjob : job.LoopFree) (h : EntersSafely job enter)
    {o : Opcode} {p : Nat} (ho : job.cells[p]? = some (.op o)) (fuel : Nat)
    (hpc : m.pc = p + 1) (hm : Fits job m) (hr : m.returning = false) :
    Concludes (fun _ m' => Fits job m' ∧ MovesOn p m.calls m')
      (operation job enter fuel o m) := by
  have hp : p < m.pc := hpc ▸ Nat.lt_succ_self p
  have hstraight : o.isStraight →
      Concludes (fun _ m' => Fits job m' ∧ MovesOn p m.calls m')
      (operation job enter fuel o m) := fun hs =>
    (concludes_straight h hs fuel hm hr).mono fun _ _ hpasses =>
      ⟨hpasses.fits, hpasses.movesOn hp⟩
  cases o with
  | plain i =>
    cases hi : i.isReturn with
    | false => exact hstraight (by rw [isStraight_plain, hi]; rfl)
    | true =>
      refine (terminates_instruction job i).concludes fun _ m' hrun => ?_
      obtain ⟨f, hcalls, hpc', hreturning⟩ := run_returns hi hr hrun
      refine ⟨?_, .left hreturning (.returned f hcalls hpc' hreturning)⟩
      rw [Fits, hcalls, List.length_append] at hm
      exact Nat.le_of_succ_le hm
  | control c =>
    cases c with
    | whileLoop | forLoop => cases hjob.loops ho
    | call => exact hstraight rfl
    | branch =>
      show Concludes _ (branch job enter m.pc m)
      rw [hpc]
      exact concludes_branch hjob h ho hm hr

/-- A cell that is run moves on. -/
theorem concludes_cell (hjob : job.LoopFree) (h : EntersSafely job enter) (fuel : Nat)
    (hm : Fits job m) (hr : m.returning = false) :
    Concludes (fun b m' => b = false ∧ m' = m ∨
      b = true ∧ m.pc < job.cells.size ∧ Fits job m' ∧ MovesOn m.pc m.calls m')
      (cell job enter fuel m) := by
  cases hi : m.interrupted with
  | true =>
    rw [cell_of_interrupted hr hi]
    trivial
  | false =>
    cases hc : job.cells[m.pc]? with
    | none =>
      rw [cell_apply, hr, hi, hc]
      trivial
    | some c =>
      have hlt : m.pc < job.cells.size := (Array.getElem?_eq_some_iff.mp hc).1
      cases c with
      | op o =>
        rw [cell_of_op hr hi hc]
        refine (concludes_operation (m := { m with pc := m.pc + 1 }) hjob h hc fuel
          rfl hm hr).bind fun _ m' hm' => ?_
        exact .inr ⟨rfl, hlt, hm'⟩
      | address a =>
        rw [cell_of_address hr hi hc]
        exact .inr ⟨rfl, hlt, hm, .onward hr List.prefix_rfl (.inr (hjob.forward hc))⟩
      | stop =>
        rw [cell_of_stop hr hi hc]
        exact .inl ⟨rfl, rfl⟩
      | _ =>
        rw [cell_apply, hr, hi, hc]
        trivial

/-! ### Stretches -/

/-- How far a machine can still go: calls that can be made, and then cells. -/
def ahead (job : Job) (m : Machine) : Nat :=
  (job.limits.frames - m.calls.length) * (job.cells.size + 1) + (job.cells.size - m.pc)

/-- Whoever moves on has less ahead: fewer calls to make, or as many and fewer
cells. -/
theorem ahead_lt (hpc : m.pc < job.cells.size) (hm' : Fits job m')
    (hwithin : m.calls <+: m'.calls)
    (hmoves : m.calls.length < m'.calls.length ∨ m.pc < m'.pc) :
    ahead job m' < ahead job m := by
  have hle := hwithin.length_le
  have hfits : m'.calls.length ≤ job.limits.frames := hm'
  unfold ahead
  by_cases hmore : m.calls.length < m'.calls.length
  · -- one call less to make outweighs all cells
    have hcalls : job.limits.frames - m'.calls.length + 1 ≤
        job.limits.frames - m.calls.length := by
      omega
    have hweight := Nat.mul_le_mul_right (job.cells.size + 1) hcalls
    rw [Nat.add_mul, Nat.one_mul] at hweight
    omega
  · have hsame : m'.calls.length = m.calls.length := by omega
    rw [hsame]
    omega

theorem ahead_le (job : Job) (m : Machine) :
    ahead job m + 1 ≤ (job.limits.frames + 1) * (job.cells.size + 1) := by
  have hweight := Nat.mul_le_mul_right (job.cells.size + 1)
    (Nat.sub_le job.limits.frames m.calls.length)
  unfold ahead
  rw [Nat.add_mul, Nat.one_mul]
  omega

/-- A stretch finishes if there are more rounds than the machine can go on. -/
theorem concludes_dispatch (hjob : job.LoopFree) (h : EntersSafely job enter) (fuel : Nat)
    {rounds : Nat} (hrounds : ahead job m + 1 < rounds) (hm : Fits job m) :
    Concludes (fun _ m' => Fits job m' ∧ Finishes m.calls m')
      (dispatch job enter fuel rounds m) := by
  induction rounds generalizing m with
  | zero => omega
  | succ rounds ih =>
    by_cases hr : m.returning = true
    · rw [dispatch_of_cell_false (cell_of_returning hr)]
      exact ⟨hm, .within List.prefix_rfl⟩
    · refine (concludes_cell hjob h fuel hm (Bool.eq_false_iff.mpr hr)).bind ?_
      rintro b m' (⟨rfl, rfl⟩ | ⟨rfl, hpc, hm', hmoved⟩)
      · exact ⟨hm, .within List.prefix_rfl⟩
      · cases hmoved with
        | onward hreturning hwithin hmoves =>
          have hlt := ahead_lt hpc hm' hwithin hmoves
          exact (ih (by omega) hm').mono fun _ _ hdone => ⟨hdone.1, hdone.2.after hwithin⟩
        | left hreturning hfinishes =>
          -- the next round only sees the return
          obtain ⟨k, rfl⟩ : ∃ k, rounds = k + 1 := ⟨rounds - 1, by omega⟩
          show Concludes _ (dispatch job enter fuel (k + 1) m')
          rw [dispatch_of_cell_false (cell_of_returning hreturning)]
          exact ⟨hm', hfinishes⟩

/-- A straight operation passes, unless there is an interrupt. -/
theorem concludes_straightCell (h : EntersSafely job enter) {o : Opcode}
    (ho : o.isStraight) (hc : job.cells[m.pc]? = some (.op o)) (fuel : Nat)
    (hm : Fits job m) (hr : m.returning = false) :
    Concludes (fun b m' => b = true ∧ Passes job o { m with pc := m.pc + 1 } m')
      (cell job enter fuel m) := by
  by_cases hi : m.interrupted = true
  · rw [cell_of_interrupted hr hi]
    trivial
  · rw [cell_of_op hr (Bool.eq_false_iff.mpr hi) hc]
    exact (concludes_straight (m := { m with pc := m.pc + 1 }) h ho fuel hm hr).bind
      fun _ _ hpasses => ⟨rfl, hpasses⟩

/-- At its stop straight code is left as it is. -/
theorem concludes_stop (hc : job.cells[m.pc]? = some .stop) (fuel rounds : Nat)
    (hm : Fits job m) (hr : m.returning = false) :
    Concludes (fun _ m' => Fits job m' ∧ m.calls <+: m'.calls)
      (dispatch job enter fuel (rounds + 1) m) := by
  cases hi : m.interrupted with
  | true =>
    rw [dispatch, bind_of_error (cell_of_interrupted hr hi)]
    trivial
  | false =>
    rw [dispatch_of_cell_false (cell_of_stop hr hi hc)]
    exact ⟨hm, List.prefix_rfl⟩

/-- Straight code is left at its stop, or in the middle of a call that does not
return. -/
theorem concludes_straightDispatch (hjob : job.LoopFree)
    (h : EntersSafely job enter) (fuel : Nat) {code : List Cell} (hcode : Straight code)
    (hholds : Holds job.cells m.pc (code ++ [.stop])) {rounds : Nat}
    (hrounds : ahead job m + 1 < rounds) (hm : Fits job m) (hr : m.returning = false) :
    Concludes (fun _ m' => Fits job m' ∧ m.calls <+: m'.calls)
      (dispatch job enter fuel rounds m) := by
  induction hcode generalizing m rounds with
  | nil =>
    obtain ⟨rounds, rfl⟩ : ∃ k, rounds = k + 1 := ⟨rounds - 1, by omega⟩
    exact concludes_stop hholds.1 fuel rounds hm hr
  | @op o operands rest ho _ hlength _ ih =>
    obtain ⟨rounds, rfl⟩ : ∃ k, rounds = k + 1 := ⟨rounds - 1, by omega⟩
    rw [List.cons_append, holds_cons, List.append_assoc, holds_append, hlength] at hholds
    obtain ⟨hc, -, hrest⟩ := hholds
    have hpc : m.pc < job.cells.size := (Array.getElem?_eq_some_iff.mp hc).1
    refine (concludes_straightCell h ho hc fuel hm hr).bind ?_
    rintro _ m' ⟨rfl, hpasses⟩
    have hwithin : m.calls <+: m'.calls := hpasses.within
    rcases hpasses.moves with hmore | ⟨-, hnext⟩
    · -- in a call that has not returned there may be anything, but no return to before it
      have hlt := ahead_lt hpc hpasses.fits hwithin (.inl hmore)
      refine (concludes_dispatch hjob h fuel (by omega) hpasses.fits).mono
        fun _ m'' hdone => ?_
      exact ⟨hdone.1, hdone.2.within_of_lt hwithin hmore⟩
    · have hmoves : m.pc < m'.pc := by
        rw [hnext]
        exact Nat.lt_add_right _ (Nat.lt_succ_self m.pc)
      have hlt := ahead_lt hpc hpasses.fits hwithin (.inr hmoves)
      refine (ih (hnext ▸ hrest) (by omega) hpasses.fits hpasses.returning).mono
        fun _ m'' hdone => ?_
      exact ⟨hdone.1, hwithin.trans hdone.2⟩

/-- At every level of nesting stretches finish, and straight ones without a
return. -/
theorem entersSafely_exec (hjob : job.LoopFree) {fuel : Nat}
    (hfuel : (job.limits.frames + 1) * (job.cells.size + 1) < fuel) (depth : Nat) :
    EntersSafely job (exec job fuel depth) := by
  have hrounds : ∀ m, ahead job m + 1 < fuel :=
    fun m => Nat.lt_of_le_of_lt (ahead_le job m) hfuel
  induction depth with
  | zero => exact ⟨fun _ _ _ => trivial, fun _ _ _ _ _ _ _ => trivial⟩
  | succ depth ih =>
    constructor
    · intro a m hm
      exact concludes_dispatch (m := { m with pc := a }) hjob ih fuel (hrounds _) hm
    · intro a code hcode hholds m hm hr
      exact concludes_straightDispatch (m := { m with pc := a }) hjob ih fuel hcode hholds
        (hrounds _) hm hr

/-- A run through code without loops ends, given more rounds than there are
calls and cells. -/
theorem execute_concludes (hjob : job.LoopFree) {fuel : Nat}
    (hfuel : (job.limits.frames + 1) * (job.cells.size + 1) < fuel) (a : Nat)
    (m : Machine) :
    Concludes (fun _ _ => True) (execute job fuel a m) :=
  ((entersSafely_exec hjob hfuel job.limits.depth).finishes a (m.start a)
    (Nat.zero_le _)).mono fun _ _ _ => trivial

end Exec

end StackCalc
