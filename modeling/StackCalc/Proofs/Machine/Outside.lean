import StackCalc.Proofs.Machine.Running

/-!
# Machines and the outside

A machine shares its console and its signals with the outside
(`Machine.outside`). Most instructions have nothing to do with them:
`Exec.IsLocal` says that an action does the same whatever is outside, and leaves
it alone. Four do: three print and one reads.

What any run does to the outside is `Outside.LeadsTo`: it adds to what was
written, takes from what is to be read, and raises no interrupt unless one is
due.
-/

namespace StackCalc

/-- What a machine shares with the outside. -/
structure Outside where
  console : Console
  interrupted : Bool
  alarm : Option Nat

namespace Machine

/-- The console and the signals of a machine. -/
def outside (m : Machine) : Outside :=
  ⟨m.console, m.interrupted, m.alarm⟩

/-- The machine with another console and other signals. -/
def facing (m : Machine) (o : Outside) : Machine :=
  { m with console := o.console, interrupted := o.interrupted, alarm := o.alarm }

theorem facing_outside (m : Machine) : m.facing m.outside = m :=
  rfl

theorem outside_facing (m : Machine) (o : Outside) : (m.facing o).outside = o :=
  rfl

end Machine

namespace Action

variable {ε σ α : Type}

/-- A result in a changed state. -/
def onState (g : σ → σ) : EStateM.Result ε σ α → EStateM.Result ε σ α
  | .ok a s => .ok a (g s)
  | .error e s => .error e (g s)

/-- Where two changes agree on the final state they agree on the result. -/
theorem onState_congr {g g' : σ → σ} {r : EStateM.Result ε σ α}
    (h : g (final r) = g' (final r)) :
    onState g r = onState g' r := by
  cases r with
  | ok a s => exact congrArg (EStateM.Result.ok a) h
  | error e s => exact congrArg (EStateM.Result.error e) h

theorem final_onState (g : σ → σ) (r : EStateM.Result ε σ α) :
    final (onState g r) = g (final r) := by
  cases r <;> rfl

end Action

namespace Exec

open StackCalc.Action

variable {α β : Type} {job : Job}

/-! ### Local actions -/

/-- An action that has nothing to do with the outside. -/
def IsLocal (x : Exec α) : Prop :=
  ∀ (m : Machine) (o : Outside), x (m.facing o) = onState (·.facing o) (x m)

/-- A local action leaves the outside as it is. -/
theorem IsLocal.outside_eq {x : Exec α} (h : IsLocal x) (m : Machine) :
    (final (x m)).outside = m.outside := by
  have hsame := congrArg final (h m m.outside)
  rw [Machine.facing_outside, final_onState] at hsame
  rw [hsame, Machine.outside_facing]

/-- Actions that know nothing of the outside may follow each other. -/
theorem IsLocal.bind {x : Exec α} {f : α → Exec β} (hx : IsLocal x)
    (hf : ∀ a, IsLocal (f a)) :
    IsLocal (x >>= f) := by
  intro m o
  rw [bind_apply, bind_apply, hx m o]
  cases x m with
  | ok a m' => exact hf a m' o
  | error e m' => rfl

theorem isLocal_pure (a : α) : IsLocal (pure a : Exec α) :=
  fun _ _ => rfl

theorem IsLocal.map {x : Exec α} (hx : IsLocal x) (f : α → β) :
    IsLocal (x >>= fun a => pure (f a)) :=
  hx.bind fun _ => isLocal_pure _

/-- Looking at a machine but not at the outside. -/
theorem isLocal_get {f : Machine → Exec α} (hsame : ∀ m o, f (m.facing o) = f m)
    (hf : ∀ m, IsLocal (f m)) : IsLocal (get >>= f) := by
  intro m o
  show f (m.facing o) (m.facing o) = _
  rw [hsame]
  exact hf m m o

theorem isLocal_fail (kind : FaultKind) (note : String) :
    IsLocal (fail kind note : Exec α) :=
  fun _ _ => rfl

theorem isLocal_ofExcept (r : Except Fault α) : IsLocal (ofExcept r) := by
  cases r <;> exact fun _ _ => rfl

/-- The stack is the machine's own. -/
theorem isLocal_onStack (act : EStateM Fault (Stack Datum) α) :
    IsLocal (onStack act) := by
  intro m o
  have hstack : (m.facing o).stack = m.stack := rfl
  unfold onStack
  rw [hstack]
  cases act m.stack <;> rfl

/-- So are its calls. -/
theorem isLocal_onFrames (act : EStateM Fault (Stack Frame) α) :
    IsLocal (onFrames act) := by
  intro m o
  have hframes : (m.facing o).frames = m.frames := rfl
  unfold onFrames
  rw [hframes]
  cases act m.frames <;> rfl

theorem isLocal_push (job : Job) (x : Float) : IsLocal (push job x) :=
  isLocal_onStack _

theorem isLocal_pop : IsLocal pop :=
  (isLocal_onStack _).map _

theorem isLocal_jump (a : Nat) : IsLocal (jump a) :=
  fun _ _ => rfl

/-- An operand comes from the code. -/
theorem isLocal_operand (job : Job) : IsLocal (operand job) := by
  refine isLocal_get (fun _ _ => rfl) fun m => ?_
  dsimp only
  split
  · exact (isLocal_jump _).map _
  · exact isLocal_fail _ _

theorem isLocal_symbolOperand (job : Job) : IsLocal (symbolOperand job) := by
  refine (isLocal_operand job).bind fun c => ?_
  cases c <;> exact fun _ _ => rfl

theorem isLocal_countOperand (job : Job) : IsLocal (countOperand job) := by
  refine (isLocal_operand job).bind fun c => ?_
  cases c <;> exact fun _ _ => rfl

theorem isLocal_symbol (id : Nat) : IsLocal (symbol id) :=
  fun _ _ => rfl

/-- The name in the fault comes from the symbols. -/
theorem isLocal_failAbout (kind : FaultKind) (id : Nat) :
    IsLocal (failAbout kind id : Exec α) :=
  fun _ _ => rfl

theorem isLocal_assign (id : Nat) (x : Float) : IsLocal (assign id x) :=
  fun _ _ => rfl

/-- The call at hand is the last of the machine's calls. -/
theorem isLocal_frame : IsLocal frame := by
  refine isLocal_get (fun _ _ => rfl) fun m => ?_
  split
  · exact isLocal_pure _
  · exact isLocal_fail _ _

/-! ### Instructions -/

/-- Whether a symbol is a variable can be told from the symbols. -/
theorem isLocal_verify (id : Nat) : IsLocal (verify id) := by
  refine (isLocal_symbol id).bind fun s => ?_
  split
  · exact isLocal_pure ()
  · exact isLocal_failAbout _ id
  · exact isLocal_failAbout _ id

theorem isLocal_verifyAssignable (id : Nat) : IsLocal (verifyAssignable id) := by
  refine (isLocal_symbol id).bind fun s => ?_
  split
  · exact isLocal_pure ()
  · exact isLocal_failAbout _ id

/-- The value of a variable is in the symbols. -/
theorem isLocal_eval (job : Job) : IsLocal (eval job) := by
  refine (isLocal_onStack _).bind fun d => ?_
  split
  · exact (isLocal_verify _).bind fun _ => (isLocal_symbol _).bind fun _ =>
      isLocal_push job _
  · exact isLocal_fail _ _

theorem isLocal_binary (job : Job) (op : BinaryOp) : IsLocal (binary job op) :=
  (isLocal_onStack _).bind fun _ => (isLocal_ofExcept _).bind fun _ => isLocal_push job _

/-- An assignment works on the stack and on the symbols. -/
theorem isLocal_assignTop (job : Job) (op : AssignOp) : IsLocal (assignTop job op) := by
  refine (isLocal_onStack _).bind fun d => isLocal_pop.bind fun x => ?_
  split
  · refine (isLocal_verifyAssignable _).bind fun _ => (isLocal_symbol _).bind fun s => ?_
    exact (isLocal_ofExcept _).bind fun y => (isLocal_assign _ y).bind fun _ =>
      isLocal_push job y
  · exact isLocal_fail _ _

theorem isLocal_step (job : Job) (how : Step) : IsLocal (step job how) :=
  (isLocal_symbolOperand job).bind fun id => (isLocal_verify id).bind fun _ =>
    (isLocal_symbol id).bind fun _ => (isLocal_assign id _).bind fun _ =>
      isLocal_push job _

/-- A builtin function knows the value it is applied to and nothing else. -/
theorem isLocal_builtin (job : Job) : IsLocal (builtin job) := by
  refine (isLocal_symbolOperand job).bind fun id => (isLocal_symbol id).bind fun s => ?_
  split
  · exact isLocal_pop.bind fun _ => (isLocal_ofExcept _).bind fun _ => isLocal_push job _
  · exact isLocal_fail _ _

/-- Leaving a call works on the stack, on the calls and on the place of the
machine. -/
theorem isLocal_leave : IsLocal leave := by
  refine (isLocal_onFrames _).bind fun f => isLocal_get (fun _ _ => rfl) fun m => ?_
  split
  · exact isLocal_fail _ _
  · exact (isLocal_onStack _).bind fun _ _ _ => rfl

/-- A return looks its callee up and leaves. -/
theorem isLocal_returnValue (job : Job) : IsLocal (returnValue job) := by
  refine isLocal_frame.bind fun f => (isLocal_symbol _).bind fun s => ?_
  split
  · exact isLocal_failAbout _ _
  · exact isLocal_pop.bind fun _ => isLocal_leave.bind fun _ => isLocal_push job _

theorem isLocal_returnNothing : IsLocal returnNothing := by
  refine isLocal_frame.bind fun f => (isLocal_symbol _).bind fun s => ?_
  split
  · exact isLocal_failAbout _ _
  · exact isLocal_leave

/-- The place of an argument is counted from the last call. -/
theorem isLocal_argPlace (job : Job) : IsLocal (argPlace job) := by
  refine (isLocal_countOperand job).bind fun n => isLocal_frame.bind fun f => ?_
  split
  · exact isLocal_fail _ _
  · split
    · exact isLocal_failAbout _ _
    · exact isLocal_pure _

theorem isLocal_arg (job : Job) : IsLocal (arg job) := by
  refine (isLocal_argPlace job).bind fun i => isLocal_get (fun _ _ => rfl) fun m => ?_
  split
  · exact isLocal_push job _
  · exact isLocal_fail _ _

/-- An argument is changed where it lies on the stack. -/
theorem isLocal_argAssign (job : Job) : IsLocal (argAssign job) := by
  refine (isLocal_argPlace job).bind fun i => isLocal_pop.bind fun x =>
    isLocal_get (fun _ _ => rfl) fun m => ?_
  dsimp only
  split
  · split
    · exact IsLocal.bind (fun _ _ => rfl) fun _ => isLocal_push job _
    · exact isLocal_fail _ _
  · exact isLocal_fail _ _

end Exec

/-- Whether an instruction has to do with the outside. -/
def Instruction.isLocal : Instruction → Bool
  | printValue | printText | printTop | read => false
  | _ => true

namespace Exec

/-- The instructions that neither print nor read, each by what it is made of. -/
theorem isLocal_instruction (job : Job) :
    ∀ i : Instruction, i.isLocal → IsLocal (i.run job)
  | .constPush, _ => by
    refine (isLocal_operand job).bind fun c => ?_
    cases c
    case number x => exact isLocal_push job x
    all_goals exact isLocal_fail _ _
  | .varPush, _ => (isLocal_symbolOperand job).bind fun _ => isLocal_onStack _
  | .eval, _ => isLocal_eval job
  | .pop, _ => isLocal_pop.bind fun _ => isLocal_pure ()
  | .binary op, _ => isLocal_binary job op
  | .negate, _ => isLocal_pop.bind fun _ => isLocal_push job _
  | .not, _ => isLocal_pop.bind fun _ => isLocal_push job _
  | .assign op, _ => isLocal_assignTop job op
  | .step how, _ => isLocal_step job how
  | .builtin, _ => isLocal_builtin job
  | .returnValue, _ => isLocal_returnValue job
  | .returnNothing, _ => isLocal_returnNothing
  | .arg, _ => isLocal_arg job
  | .argAssign, _ => isLocal_argAssign job

end Exec

/-! ### What runs do to the outside -/

/-- What a run may do to the outside. -/
structure Outside.LeadsTo (o o' : Outside) : Prop where
  writes : o.console.writes.toList <+: o'.console.writes.toList
  input : o'.console.input <:+ o.console.input
  prompting : o'.console.prompting = o.console.prompting
  signals : o.alarm = none → o'.alarm = none ∧ o'.interrupted = o.interrupted

theorem Outside.LeadsTo.refl (o : Outside) : o.LeadsTo o :=
  ⟨List.prefix_rfl, List.suffix_rfl, rfl, fun h => ⟨h, rfl⟩⟩

/-- What two runs may do, the one may do that they make together. -/
theorem Outside.LeadsTo.trans {o o' o'' : Outside} (h : o.LeadsTo o')
    (h' : o'.LeadsTo o'') :
    o.LeadsTo o'' where
  writes := h.writes.trans h'.writes
  input := h'.input.trans h.input
  prompting := h'.prompting.trans h.prompting
  signals hnone := by
    obtain ⟨hnone', hsame⟩ := h.signals hnone
    obtain ⟨hnone'', hsame'⟩ := h'.signals hnone'
    exact ⟨hnone'', hsame'.trans hsame⟩

/-- A write goes behind the writes there were. -/
theorem Console.prefix_write (c : Console) (w : Write) :
    c.writes.toList <+: (c.write w).writes.toList := by
  rw [Console.write, Array.toList_push]
  exact List.prefix_append _ _

/-- A write is what a run may do. With no alarm it raises no interrupt. -/
theorem Machine.leadsTo_write (m : Machine) (w : Write) :
    m.outside.LeadsTo (m.write w).outside := by
  have hwrites := m.console.prefix_write w
  unfold Machine.write
  dsimp only
  split
  case h_1 hdue | h_2 hdue =>
    exact ⟨hwrites, List.suffix_rfl, rfl, fun hnone => by cases hdue.symm.trans hnone⟩
  case h_3 => exact ⟨hwrites, List.suffix_rfl, rfl, fun hnone => ⟨hnone, rfl⟩⟩

/-- Reading adds a prompt at most, takes a line at most, and does not change
whether there are prompts. -/
theorem Console.readLine_cases (c : Console) :
    c.writes.toList <+: c.readLine.2.writes.toList ∧ c.readLine.2.input <:+ c.input ∧
      c.readLine.2.prompting = c.prompting := by
  -- showing the prompt takes no line
  have hshown : c.writes.toList <+:
      (if c.prompting then c.write .prompt else c).writes.toList ∧
      (if c.prompting then c.write .prompt else c).input = c.input ∧
      (if c.prompting then c.write .prompt else c).prompting = c.prompting := by
    split
    · exact ⟨c.prefix_write .prompt, rfl, rfl⟩
    · exact ⟨List.prefix_rfl, rfl, rfl⟩
  obtain ⟨hwrites, hinput, hprompting⟩ := hshown
  unfold Console.readLine
  dsimp only
  split
  case h_1 => exact ⟨hwrites, hinput ▸ List.suffix_rfl, hprompting⟩
  case h_2 l ls hlines =>
    refine ⟨hwrites, ?_, hprompting⟩
    rw [← hinput, hlines]
    exact List.suffix_cons l ls

namespace Exec

open StackCalc.Action

variable {α β : Type} {job : Job} {enter : Nat → Exec Unit}

/-- What an action does to the outside is what a run may do. -/
abbrev Proceeds (x : Exec α) : Prop :=
  Keeps (fun m m' : Machine => m.outside.LeadsTo m'.outside) x

theorem steady_leadsTo : Steady fun m m' : Machine => m.outside.LeadsTo m'.outside where
  refl m := .refl m.outside
  trans := Outside.LeadsTo.trans

/-- Actions that proceed may follow each other. -/
theorem Proceeds.bind {x : Exec α} {f : α → Exec β} (hx : Proceeds x)
    (hf : ∀ a, Proceeds (f a)) :
    Proceeds (x >>= f) :=
  Keeps.bind steady_leadsTo hx hf

/-- What leaves the outside as it is proceeds. -/
theorem IsLocal.proceeds {x : Exec α} (h : IsLocal x) : Proceeds x := by
  intro m
  show m.outside.LeadsTo (final (x m)).outside
  rw [h.outside_eq]
  exact .refl _

theorem proceeds_get {f : Machine → Exec α} (hf : ∀ m, Proceeds (f m)) :
    Proceeds (get >>= f) :=
  fun m => hf m m

theorem proceeds_print (w : Write) : Proceeds (print w) :=
  fun m => m.leadsTo_write w

theorem proceeds_readLine : Proceeds readLine := by
  intro m
  obtain ⟨hwrites, hinput, hprompting⟩ := m.console.readLine_cases
  exact ⟨hwrites, hinput, hprompting, fun h => ⟨h, rfl⟩⟩

/-- What is done with a line that was read, or with the end of the input. -/
def takeLine (job : Job) (id : Nat) : Option String → Exec Unit
  | none => do
    assign id 0.0
    push job 0.0
  | some l =>
    match readTyped? l with
    | some x => do
      assign id x
      push job 1.0
    | none => failAbout .nonNumberRead id

/-- What is done with a line is up to the machine once the line is there. -/
theorem isLocal_takeLine (job : Job) (id : Nat) (line : Option String) :
    IsLocal (takeLine job id line) := by
  unfold takeLine
  split
  · exact (isLocal_assign id _).bind fun _ => isLocal_push job _
  · split
    · exact (isLocal_assign id _).bind fun _ => isLocal_push job _
    · exact isLocal_failAbout _ id

/-- Every instruction proceeds: it is local, or one of the four that are not. -/
theorem proceeds_instruction (job : Job) (i : Instruction) : Proceeds (i.run job) := by
  cases hlocal : i.isLocal with
  | true => exact (isLocal_instruction job i hlocal).proceeds
  | false =>
    cases i with
    | printValue => exact isLocal_pop.proceeds.bind fun _ => proceeds_print _
    | printText =>
      refine (isLocal_operand job).proceeds.bind fun c => ?_
      cases c
      case text s => exact proceeds_print _
      all_goals exact (isLocal_fail _ _).proceeds
    | printTop =>
      exact isLocal_pop.proceeds.bind fun _ => (proceeds_print _).bind fun _ =>
        IsLocal.proceeds fun _ _ => rfl
    | read =>
      refine (isLocal_symbolOperand job).proceeds.bind fun id =>
        (isLocal_verifyAssignable id).proceeds.bind fun _ =>
          proceeds_readLine.bind fun line => ?_
      exact (isLocal_takeLine job id line).proceeds
    | _ => cases hlocal

/-! ### Runs -/

/-- A slot is in the code. -/
theorem isLocal_slotAddress (job : Job) (a : Nat) : IsLocal (slotAddress job a) := by
  unfold slotAddress
  split <;> exact fun _ _ => rfl

theorem isLocal_leaveLoop (job : Job) (a : Nat) :
    IsLocal (slotAddress job a >>= fun b => jump b) :=
  (isLocal_slotAddress job a).bind isLocal_jump

/-- The end of a branch looks at whether a return is under way. -/
theorem isLocal_endBranch (job : Job) (a : Nat) : IsLocal (endBranch job a) := by
  refine isLocal_get (fun _ _ => rfl) fun m => ?_
  split
  · exact isLocal_pure ()
  · exact isLocal_leaveLoop job _

/-- What leaves the surroundings as they are leaves the outside as it is. -/
theorem leadsTo_of_surroundings {m m' : Machine} (h : m'.surroundings = m.surroundings) :
    m.outside.LeadsTo m'.outside := by
  have houtside : m'.outside = m.outside :=
    congrArg (fun s : SymbolTable × Console × Bool × Option Nat =>
      Outside.mk s.2.1 s.2.2.1 s.2.2.2) h
  rw [houtside]
  exact .refl _

/-- A cell proceeds if the stretches do that it may enter. -/
theorem proceeds_cell (h : ∀ a, Proceeds (enter a)) (fuel : Nat) :
    Proceeds (cell job enter fuel) :=
  keeps_cell steady_leadsTo leadsTo_of_surroundings (proceeds_instruction job) h fuel

theorem proceeds_dispatch (h : ∀ a, Proceeds (enter a)) (fuel rounds : Nat) :
    Proceeds (dispatch job enter fuel rounds) :=
  keeps_dispatch steady_leadsTo leadsTo_of_surroundings (proceeds_instruction job)
    h fuel rounds

/-- A run adds to what was written, takes from what is to be read, and raises no
interrupt unless one is due. -/
theorem proceeds_exec (fuel depth a : Nat) : Proceeds (exec job fuel depth a) :=
  keeps_exec steady_leadsTo leadsTo_of_surroundings
    (proceeds_instruction job) fuel depth a

end Exec

end StackCalc
