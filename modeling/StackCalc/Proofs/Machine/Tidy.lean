import StackCalc.Proofs.Code.ClosedCode
import StackCalc.Proofs.Machine.Running

/-!
# Tidy machines

A machine is tidy (`Machine.Tidy`) if its stacks are within their limits, its
references and calls are of known places, each call has no more arguments than
there were operands when it was made, and its program counter is inside the
code. Every instruction keeps a machine tidy that runs closed code
(`Exec.tidy_instruction`), whatever stands in the cells behind the instruction:
the code may be run from any address, and an operand may be taken for an
instruction.
-/

namespace StackCalc

/-! ### Stacks -/

namespace Stack

variable {α : Type}

/-- A stack of at most `capacity` items that each satisfy `P`. -/
structure Within (capacity : Nat) (P : α → Prop) (s : Stack α) : Prop where
  size_le : s.size ≤ capacity
  all : ∀ a ∈ s.items, P a

/-- What an action on a stack keeps. -/
abbrev KeepsWithin {β : Type} (capacity : Nat) (P : α → Prop)
    (act : EStateM Fault (Stack α) β) : Prop :=
  Action.Keeps (fun s s' => s.Within capacity P → s'.Within capacity P) act

variable {capacity : Nat} {P : α → Prop}

theorem steady_within :
    Action.Steady fun s s' : Stack α => s.Within capacity P → s'.Within capacity P where
  refl _ h := h
  trans h h' hs := h' (h hs)

theorem within_empty : Within capacity P ({} : Stack α) :=
  ⟨Nat.zero_le _, fun a ha => absurd ha (Array.not_mem_empty a)⟩

theorem Within.top {s : Stack α} (h : s.Within capacity P) : ∀ a ∈ s.top?, P a := by
  intro a ha
  exact h.all a (Array.mem_of_back? ha)

theorem pop_cases (s : Stack α) :
    (∃ f, pop s = .error f s) ∨ ∃ a, a ∈ s.top? ∧ pop s = .ok a ⟨s.items.pop⟩ := by
  unfold pop
  cases htop : s.top? with
  | none => exact .inl ⟨_, rfl⟩
  | some a => exact .inr ⟨a, rfl, rfl⟩

/-- Popping leaves fewer items, and no others. -/
theorem keepsWithin_pop : KeepsWithin capacity P (pop : EStateM Fault (Stack α) α) := by
  intro s hs
  rcases pop_cases s with ⟨f, hpop⟩ | ⟨a, -, hpop⟩
  · rw [hpop]
    exact hs
  · rw [hpop]
    constructor
    · have hle := hs.size_le
      simp only [size, Action.final, Array.size_pop] at hle ⊢
      omega
    · intro b hb
      rw [← Array.mem_toList_iff, Action.final, Array.toList_pop] at hb
      exact hs.all b (Array.mem_toList_iff.mp ((List.dropLast_sublist _).mem hb))

theorem keepsWithin_popTwo :
    KeepsWithin capacity P (popTwo : EStateM Fault (Stack α) (α × α)) :=
  keepsWithin_pop.bind steady_within fun _ =>
    keepsWithin_pop.bind steady_within fun _ _ h => h

/-- Truncating leaves fewer items, and no others. -/
theorem keepsWithin_truncate (n : Nat) :
    KeepsWithin capacity P (truncate n : EStateM Fault (Stack α) Unit) := by
  intro s hs
  unfold truncate
  split
  · exact hs
  · constructor
    · have hle := hs.size_le
      simp only [size, Action.final, Array.take_eq_extract, Array.size_extract] at hle ⊢
      omega
    · intro b hb
      rw [← Array.mem_toList_iff, Action.final, Array.take_eq_extract,
        Array.toList_extract] at hb
      exact hs.all b (Array.mem_toList_iff.mp (List.mem_of_mem_take hb))

/-- A push stays within the capacity, for a full stack takes no item. -/
theorem keepsWithin_push (overflow : FaultKind) {a : α} (ha : P a) :
    KeepsWithin capacity P (push capacity overflow a) := by
  intro s hs
  unfold push
  by_cases hfull : s.isFull capacity
  · rw [if_pos hfull]
    exact hs
  · rw [if_neg hfull]
    constructor
    · have hlt : s.size < capacity := by simpa [isFull] using hfull
      simp only [size, Action.final, Array.size_push] at hlt ⊢
      omega
    · intro b hb
      rcases Array.mem_push.mp hb with hb | rfl
      · exact hs.all b hb
      · exact ha

/-- Replacing an item leaves as many. -/
theorem Within.set? {s s' : Stack α} {i : Nat} {a : α} (h : s.Within capacity P)
    (hs : s.set? i a = some s') (ha : P a) : s'.Within capacity P := by
  unfold Stack.set? at hs
  split at hs
  case isFalse => cases hs
  case isTrue hlt =>
    cases hs
    constructor
    · have hle := h.size_le
      simpa [size] using hle
    · intro b hb
      rcases Array.mem_or_eq_of_mem_setIfInBounds hb with hold | rfl
      · exact h.all b hold
      · exact ha

end Stack

/-! ### Tidy machines -/

/-- A datum that refers, if at all, to a place below `n`. -/
def Datum.IsBelow (n : Nat) (d : Datum) : Prop :=
  ∀ id ∈ d.symbol, id < n

/-- A call of a place below `n`, with no more arguments than there were
operands, that goes on in code of the given size. -/
structure Frame.IsSane (n size : Nat) (f : Frame) : Prop where
  symbol : f.symbol < n
  count : f.count ≤ f.height
  resume : f.resume < size

/-- A machine whose stacks are within their limits, with references and calls of
places below `n`, and whose program counter is inside the code. -/
structure Machine.Tidy (n : Nat) (job : Job) (m : Machine) : Prop where
  stack : m.stack.Within job.limits.stack (Datum.IsBelow n)
  frames : m.frames.Within job.limits.frames (Frame.IsSane n job.cells.size)
  pc_lt : m.pc < job.cells.size

theorem Machine.Tidy.goto {n : Nat} {job : Job} {m : Machine}
    (hm : m.Tidy n job) {a : Nat} (ha : a < job.cells.size) :
    Machine.Tidy n job { m with pc := a } :=
  ⟨hm.stack, hm.frames, ha⟩

namespace Exec

open StackCalc.Action

section

variable (n : Nat) (job : Job)

/-- An action of the machine that keeps it tidy. -/
abbrev KeepsTidy {α : Type} (x : Exec α) : Prop :=
  Keeps (fun m m' : Machine => m.Tidy n job → m'.Tidy n job) x

end

variable {n : Nat} {job : Job} {α β : Type}

theorem steady_tidy : Steady fun m m' : Machine => m.Tidy n job → m'.Tidy n job where
  refl _ h := h
  trans h h' hm := h' (h hm)

theorem KeepsTidy.bind {x : Exec α} {f : α → Exec β} (hx : KeepsTidy n job x)
    (hf : ∀ a, KeepsTidy n job (f a)) : KeepsTidy n job (x >>= f) :=
  Keeps.bind steady_tidy hx hf

/-- What is run next may rely on what is known of the result. -/
theorem KeepsTidy.bindWith {x : Exec α} {f : α → Exec β} {P : α → Prop}
    (hx : KeepsTidy n job x) (hP : ∀ m a m', m.Tidy n job → x m = .ok a m' → P a)
    (hf : ∀ a, P a → KeepsTidy n job (f a)) :
    KeepsTidy n job (x >>= f) := by
  intro m hm
  have hfirst := hx m hm
  rcases bind_cases x f m with ⟨e, m', hx', hrun⟩ | ⟨a, m', hx', hrun⟩
  · rw [hx'] at hfirst
    rw [hrun]
    exact hfirst
  · rw [hx'] at hfirst
    rw [hrun]
    exact hf a (hP m a m' hm hx') m' hfirst

/-- An action that touches neither the stacks nor the program counter. -/
theorem keepsTidy_of_leaves {x : Exec α}
    (h : Action.Leaves (fun m : Machine => (m.stack, m.frames, m.pc)) x) :
    KeepsTidy n job x := by
  intro m hm
  obtain ⟨hstack, hrest⟩ := Prod.mk.inj (h m)
  obtain ⟨hframes, hpc⟩ := Prod.mk.inj hrest
  exact ⟨hstack ▸ hm.stack, hframes ▸ hm.frames, hpc ▸ hm.pc_lt⟩

/-- What keeps the stack within its limit keeps the machine tidy. -/
theorem keepsTidy_onStack {act : EStateM Fault (Stack Datum) α}
    (h : Stack.KeepsWithin job.limits.stack (Datum.IsBelow n) act) :
    KeepsTidy n job (onStack act) := by
  intro m hm
  have hact := h m.stack hm.stack
  unfold onStack
  cases hrun : act m.stack with
  | ok a stack =>
    rw [hrun] at hact
    exact ⟨hact, hm.frames, hm.pc_lt⟩
  | error f stack =>
    rw [hrun] at hact
    exact ⟨hact, hm.frames, hm.pc_lt⟩

/-- What keeps the calls within theirs does as well. -/
theorem keepsTidy_onFrames {act : EStateM Fault (Stack Frame) α}
    (h : Stack.KeepsWithin job.limits.frames (Frame.IsSane n job.cells.size) act) :
    KeepsTidy n job (onFrames act) := by
  intro m hm
  have hact := h m.frames hm.frames
  unfold onFrames
  cases hrun : act m.frames with
  | ok a frames =>
    rw [hrun] at hact
    exact ⟨hm.stack, hact, hm.pc_lt⟩
  | error f frames =>
    rw [hrun] at hact
    exact ⟨hm.stack, hact, hm.pc_lt⟩

theorem keepsTidy_popDatum : KeepsTidy n job (onStack Stack.pop) :=
  keepsTidy_onStack Stack.keepsWithin_pop

theorem keepsTidy_pop : KeepsTidy n job pop :=
  keepsTidy_popDatum.bind fun _ _ hm => hm

theorem keepsTidy_pushDatum {d : Datum} (hd : d.IsBelow n) :
    KeepsTidy n job (pushDatum job d) :=
  keepsTidy_onStack (Stack.keepsWithin_push _ hd)

theorem keepsTidy_push (x : Float) : KeepsTidy n job (push job x) :=
  keepsTidy_pushDatum fun _ hid => by cases hid

theorem keepsTidy_fail (kind : FaultKind) (note : String) :
    KeepsTidy n job (fail kind note : Exec α) :=
  fun _ hm => hm

theorem keepsTidy_ofExcept (r : Except Fault α) : KeepsTidy n job (ofExcept r) := by
  cases r with
  | ok a => exact fun _ hm => hm
  | error f => exact fun _ hm => hm

theorem keepsTidy_symbol (id : Nat) : KeepsTidy n job (symbol id) :=
  fun _ hm => hm

theorem keepsTidy_failAbout (kind : FaultKind) (id : Nat) :
    KeepsTidy n job (failAbout kind id : Exec α) :=
  fun _ hm => hm

theorem keepsTidy_verify (id : Nat) : KeepsTidy n job (verify id) := by
  intro m hm
  rcases verify_cases id m with ⟨-, hrun⟩ | ⟨-, h, hrun⟩
  · rw [hrun]
    exact hm
  · rw [hrun]
    exact hm

theorem keepsTidy_verifyAssignable (id : Nat) :
    KeepsTidy n job (verifyAssignable id) := by
  intro m hm
  rcases verifyAssignable_cases id m with ⟨-, hrun⟩ | ⟨-, h, hrun⟩
  · rw [hrun]
    exact hm
  · rw [hrun]
    exact hm

/-- An assignment changes the symbols only. -/
theorem keepsTidy_assign (id : Nat) (x : Float) : KeepsTidy n job (assign id x) :=
  keepsTidy_of_leaves fun _ => rfl

/-- A write changes the console and the signals only. -/
theorem keepsTidy_print (w : Write) : KeepsTidy n job (print w) := by
  refine keepsTidy_of_leaves fun m => ?_
  show ((m.write w).stack, (m.write w).frames, (m.write w).pc) = _
  unfold Machine.write
  dsimp only
  split <;> rfl

theorem keepsTidy_readLine : KeepsTidy n job readLine :=
  keepsTidy_of_leaves fun _ => rfl

theorem keepsTidy_frame : KeepsTidy n job frame := by
  intro m hm
  rw [frame, bind_of_ok (get_apply m)]
  cases m.frames.top? with
  | none => exact hm
  | some f => exact hm

theorem keepsTidy_get : KeepsTidy n job (get : Exec Machine) :=
  fun _ hm => hm

theorem keepsTidy_jump {a : Nat} (ha : a < job.cells.size) : KeepsTidy n job (jump a) :=
  fun _ hm => hm.goto ha

/-! ### Instructions -/

/-- Inside the code there is an operand to take. -/
theorem exists_operand {m : Machine} (hpc : m.pc < job.cells.size) :
    ∃ c, job.cells[m.pc]? = some c ∧ operand job m = .ok c { m with pc := m.pc + 1 } := by
  have hc := Array.getElem?_eq_getElem hpc
  refine ⟨_, hc, ?_⟩
  rw [operand, bind_of_ok (get_apply m), hc]
  rfl

/-- A count is taken, or the cell is none; the machine goes on behind it in both
cases. -/
theorem countOperand_cases {m : Machine} (hpc : m.pc < job.cells.size) :
    (∃ e, countOperand job m = .error e { m with pc := m.pc + 1 }) ∨
      ∃ k, countOperand job m = .ok k { m with pc := m.pc + 1 } := by
  obtain ⟨c, -, hc⟩ := exists_operand hpc
  rw [countOperand, bind_of_ok hc]
  cases c with
  | count k => exact .inr ⟨k, rfl⟩
  | _ => exact .inl ⟨_, rfl⟩

theorem tidy_operand {f : Cell → Exec α} {m : Machine} (hm : m.Tidy n job)
    (hpc : m.pc + 1 < job.cells.size) (hf : ∀ c, KeepsTidy n job (f c)) :
    (final ((operand job >>= f) m)).Tidy n job := by
  obtain ⟨c, -, hc⟩ := exists_operand hm.pc_lt
  rw [bind_of_ok hc]
  exact hf c _ (hm.goto hpc)

theorem tidy_countOperand {f : Nat → Exec α} {m : Machine} (hm : m.Tidy n job)
    (hpc : m.pc + 1 < job.cells.size) (hf : ∀ k, KeepsTidy n job (f k)) :
    (final ((countOperand job >>= f) m)).Tidy n job := by
  rcases countOperand_cases hm.pc_lt with ⟨e, he⟩ | ⟨k, hk⟩
  · rw [bind_of_error he]
    exact hm.goto hpc
  · rw [bind_of_ok hk]
    exact hf k _ (hm.goto hpc)

theorem keepsTidy_eval : KeepsTidy n job (eval job) := by
  refine keepsTidy_popDatum.bind fun d => ?_
  cases d.symbol with
  | none => exact keepsTidy_fail _ _
  | some id =>
    exact (keepsTidy_verify id).bind fun _ => (keepsTidy_symbol id).bind fun _ =>
      keepsTidy_push _

theorem keepsTidy_assignTop (op : AssignOp) : KeepsTidy n job (assignTop job op) := by
  refine keepsTidy_popDatum.bind fun d => keepsTidy_pop.bind fun x => ?_
  cases d.symbol with
  | none => exact keepsTidy_fail _ _
  | some id =>
    exact (keepsTidy_verifyAssignable id).bind fun _ =>
      (keepsTidy_symbol id).bind fun _ =>
      (keepsTidy_ofExcept _).bind fun _ => (keepsTidy_assign id _).bind fun _ =>
        keepsTidy_push _

/-- Leaving a call goes on where the call says. -/
theorem keepsTidy_leave : KeepsTidy n job leave := by
  refine KeepsTidy.bindWith (P := Frame.IsSane n job.cells.size)
    (keepsTidy_onFrames Stack.keepsWithin_pop) ?_ fun f hf =>
      keepsTidy_get.bind fun m => ?_
  -- the frame that is popped was on top, so it goes on inside the code
  · intro m f m' hm hrun
    unfold onFrames at hrun
    rcases Stack.pop_cases m.frames with ⟨e, hpop⟩ | ⟨g, hg, hpop⟩
    · rw [hpop] at hrun
      cases hrun
    · rw [hpop] at hrun
      obtain ⟨rfl, -⟩ := EStateM.Result.ok.inj hrun
      exact hm.frames.top g hg
  · split
    · exact keepsTidy_fail _ _
    · refine (keepsTidy_onStack (Stack.keepsWithin_truncate _)).bind fun _ => ?_
      exact fun _ hm => ⟨hm.stack, hm.frames, hf.resume⟩

theorem keepsTidy_returnValue : KeepsTidy n job (returnValue job) := by
  refine keepsTidy_frame.bind fun f => (keepsTidy_symbol _).bind fun s => ?_
  split
  · exact keepsTidy_failAbout _ _
  · exact keepsTidy_pop.bind fun _ => keepsTidy_leave.bind fun _ => keepsTidy_push _

theorem keepsTidy_returnNothing : KeepsTidy n job returnNothing := by
  refine keepsTidy_frame.bind fun f => (keepsTidy_symbol _).bind fun s => ?_
  split
  · exact keepsTidy_failAbout _ _
  · exact keepsTidy_leave

/-- What is run once the place of an argument is known. -/
theorem tidy_argPlace {f : Nat → Exec α} {m : Machine} (hm : m.Tidy n job)
    (hpc : m.pc + 1 < job.cells.size) (hf : ∀ i, KeepsTidy n job (f i)) :
    (final ((argPlace job >>= f) m)).Tidy n job := by
  rw [argPlace, bind_assoc]
  refine tidy_countOperand hm hpc fun k => ?_
  rw [bind_assoc]
  refine keepsTidy_frame.bind fun g => ?_
  split
  · exact fun _ hm => hm
  · split
    · exact fun _ hm => hm
    · exact hf _

theorem keepsTidy_setStack {i : Nat} {d : Datum} {s s' : Stack Datum} {x : Float}
    (hd : s.get? i = some d) (hs : s.set? i { d with value := x } = some s')
    (hwithin : s.Within job.limits.stack (Datum.IsBelow n)) :
    KeepsTidy n job (modify fun m => { m with stack := s' }) := by
  intro m hm
  -- the new item refers to what the old one did
  have hitem : Datum.IsBelow n { d with value := x } :=
    hwithin.all d (Array.mem_of_getElem? hd)
  exact ⟨hwithin.set? hs hitem, hm.frames, hm.pc_lt⟩

/-- Changing an argument leaves as many items on the stack. -/
theorem tidy_argAssign {m : Machine} (hm : m.Tidy n job)
    (hpc : m.pc + 1 < job.cells.size) :
    (final (argAssign job m)).Tidy n job := by
  refine tidy_argPlace hm hpc fun i => keepsTidy_pop.bind fun x => ?_
  refine KeepsTidy.bindWith (P := fun m : Machine => m.Tidy n job) keepsTidy_get ?_
    fun m hm => ?_
  · rintro m _ _ hm ⟨⟩
    exact hm
  · dsimp only
    cases hd : m.stack.get? i with
    | none => exact keepsTidy_fail _ _
    | some d =>
      dsimp only
      cases hs : m.stack.set? i { d with value := x } with
      | none => exact keepsTidy_fail _ _
      | some s => exact (keepsTidy_setStack hd hs hm.stack).bind fun _ => keepsTidy_push _

section

variable (hclosed : Closed n job.cells 0 job.cells.size)

include hclosed

theorem symbolOperand_cases {m : Machine} (hpc : m.pc < job.cells.size) :
    (∃ e, symbolOperand job m = .error e { m with pc := m.pc + 1 }) ∨
      ∃ id, id < n ∧ symbolOperand job m = .ok id { m with pc := m.pc + 1 } := by
  obtain ⟨c, hcell, hc⟩ := exists_operand hpc
  rw [symbolOperand, bind_of_ok hc]
  cases c with
  | symbol id => exact .inr ⟨id, hclosed.symbol (Nat.zero_le _) hpc hcell, rfl⟩
  | _ => exact .inl ⟨_, rfl⟩

theorem tidy_symbolOperand {f : Nat → Exec α} {m : Machine} (hm : m.Tidy n job)
    (hpc : m.pc + 1 < job.cells.size) (hf : ∀ id < n, KeepsTidy n job (f id)) :
    (final ((symbolOperand job >>= f) m)).Tidy n job := by
  rcases symbolOperand_cases hclosed hm.pc_lt with ⟨e, he⟩ | ⟨id, hid, hrun⟩
  · rw [bind_of_error he]
    exact hm.goto hpc
  · rw [bind_of_ok hrun]
    exact hf id hid _ (hm.goto hpc)

/-- Every instruction keeps the machine tidy, if its operands and something
behind them are there. -/
theorem tidy_instruction (i : Instruction) {m : Machine} (hm : m.Tidy n job)
    (hpc : m.pc + i.operands < job.cells.size) : (final (i.run job m)).Tidy n job := by
  -- instructions without an operand keep any machine tidy; the others are taken
  -- one by one with the operand that is there
  cases i with
  | constPush =>
    refine tidy_operand hm hpc fun c => ?_
    cases c with
    | number x => exact keepsTidy_push x
    | _ => exact keepsTidy_fail _ _
  | varPush =>
    refine tidy_symbolOperand hclosed hm hpc fun id hid => keepsTidy_pushDatum ?_
    rintro _ ⟨⟩
    exact hid
  | eval => exact keepsTidy_eval m hm
  | pop =>
    have hdrop : KeepsTidy n job (Instruction.pop.run job) :=
      keepsTidy_pop.bind fun _ _ hm => hm
    exact hdrop m hm
  | binary op =>
    exact ((keepsTidy_onStack Stack.keepsWithin_popTwo).bind fun _ =>
      (keepsTidy_ofExcept _).bind fun _ => keepsTidy_push _) m hm
  | negate => exact (keepsTidy_pop.bind fun _ => keepsTidy_push _) m hm
  | not => exact (keepsTidy_pop.bind fun _ => keepsTidy_push _) m hm
  | assign op => exact keepsTidy_assignTop op m hm
  | step how =>
    refine tidy_symbolOperand hclosed hm hpc fun id _ => ?_
    exact (keepsTidy_verify id).bind fun _ => (keepsTidy_symbol id).bind fun _ =>
      (keepsTidy_assign id _).bind fun _ => keepsTidy_push _
  | builtin =>
    refine tidy_symbolOperand hclosed hm hpc fun id _ =>
      (keepsTidy_symbol id).bind fun s => ?_
    cases s.native with
    | none => exact keepsTidy_fail _ _
    | some f =>
      exact keepsTidy_pop.bind fun _ => (keepsTidy_ofExcept _).bind fun _ =>
        keepsTidy_push _
  | printValue => exact (keepsTidy_pop.bind fun _ => keepsTidy_print _) m hm
  | printText =>
    refine tidy_operand hm hpc fun c => ?_
    cases c with
    | text s => exact keepsTidy_print _
    | _ => exact keepsTidy_fail _ _
  | printTop =>
    exact (keepsTidy_pop.bind fun _ => (keepsTidy_print _).bind fun _ =>
      keepsTidy_of_leaves fun _ => rfl) m hm
  | read =>
    refine tidy_symbolOperand hclosed hm hpc fun id _ =>
      (keepsTidy_verifyAssignable id).bind fun _ => keepsTidy_readLine.bind fun l => ?_
    cases l with
    | none => exact (keepsTidy_assign id _).bind fun _ => keepsTidy_push _
    | some l =>
      dsimp only
      cases readTyped? l with
      | none => exact keepsTidy_failAbout _ _
      | some x => exact (keepsTidy_assign id _).bind fun _ => keepsTidy_push _
  | returnValue => exact keepsTidy_returnValue m hm
  | returnNothing => exact keepsTidy_returnNothing m hm
  | arg =>
    refine tidy_argPlace hm hpc fun i => keepsTidy_get.bind fun m => ?_
    cases m.stack.get? i with
    | none => exact keepsTidy_fail _ _
    | some d => exact keepsTidy_push _
  | argAssign => exact tidy_argAssign hm hpc

end

end Exec

end StackCalc
