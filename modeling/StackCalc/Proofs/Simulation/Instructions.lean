import StackCalc.Proofs.Simulation.Tracking
import StackCalc.Proofs.Tree.WellFormed

/-!
# Instructions that track evaluations

One statement for each instruction: run on a machine that shows a world, with
its operands on the stack and in the cells that follow, it tracks what the
evaluator does in that world. `Pushed` is how most of them end: the value of the
evaluation is on top of the stack.

The arguments of a call lie on the operand stack where its frame says
(`Frame.Seats`).
-/

namespace StackCalc

/-! ### Faults of arithmetic -/

/-- A value, or a fault that a program may have. -/
def ProperResult (r : Except Fault Float) : Prop :=
  ∀ f, r = .error f → f.IsProper

theorem properResult_ok (x : Float) : ProperResult (.ok x) :=
  nofun

theorem properResult_error {f : Fault} (h : f.IsProper) : ProperResult (.error f) := by
  rintro g ⟨⟩
  exact h

theorem properResult_quotient (x y : Float) : ProperResult (quotient x y) := by
  unfold quotient
  split
  · exact properResult_error ⟨nofun, nofun⟩
  · exact properResult_ok _

theorem properResult_modulus (x y : Float) : ProperResult (modulus x y) := by
  unfold modulus
  split
  · exact properResult_error ⟨nofun, nofun⟩
  · exact properResult_ok _

theorem properResult_power (x y : Float) : ProperResult (power x y) := by
  unfold power
  dsimp only
  split
  · exact properResult_error ⟨nofun, nofun⟩
  · split
    · exact properResult_error ⟨nofun, nofun⟩
    · exact properResult_ok _

theorem BinaryOp.properResult_apply (o : BinaryOp) (x y : Float) :
    ProperResult (o.apply x y) := by
  cases o with
  | div => exact properResult_quotient x y
  | mod => exact properResult_modulus x y
  | pow => exact properResult_power x y
  | _ => exact properResult_ok _

theorem AssignOp.properResult_apply (o : AssignOp) (x y : Float) :
    ProperResult (o.apply x y) := by
  cases o with
  | div => exact properResult_quotient x y
  | mod => exact properResult_modulus x y
  | _ => exact properResult_ok _

theorem Builtin.properResult_checked (name : String) (x y : Float) :
    ProperResult (checked name x y) := by
  unfold checked
  split
  · exact properResult_error ⟨nofun, nofun⟩
  · split
    · exact properResult_error ⟨nofun, nofun⟩
    · exact properResult_ok _

theorem Builtin.properResult_logarithm (name : String) (g : Float → Float) (x : Float) :
    ProperResult (logarithm name g x) := by
  unfold logarithm
  split
  · exact properResult_error ⟨nofun, nofun⟩
  · exact properResult_checked name x _

theorem Builtin.properResult_wholePart (name : String) (x : Float) :
    ProperResult (wholePart name x) := by
  unfold wholePart
  split
  · exact properResult_error ⟨nofun, nofun⟩
  · split
    · exact properResult_error ⟨nofun, nofun⟩
    · exact properResult_ok _

theorem Builtin.properResult_apply (f : Builtin) (x : Float) :
    ProperResult (f.apply x) := by
  cases f with
  | log => exact properResult_logarithm _ _ x
  | log10 => exact properResult_logarithm _ _ x
  | int => exact properResult_wholePart _ x
  | abs => exact properResult_ok _
  | _ => exact properResult_checked _ x _

/-! ### Operators have the value of their operation -/

/-- Operators of the tree and of the machine have one table between them. -/
theorem Eval.binary_eq {op : Operator} {o : BinaryOp} (h : op.binaryOp? = some o)
    (x y : Float) :
    Eval.binary op x y = Eval.ofExcept (o.apply x y) := by
  cases op <;> cases h <;> rfl

/-- So have operators that assign. -/
theorem Eval.combine_eq {op : Operator} {o : AssignOp} (h : op.assignOp? = some o)
    (x y : Float) :
    Eval.combine op x y = Eval.ofExcept (o.apply x y) := by
  cases op <;> cases h <;> rfl

/-! ### Arguments -/

/-- The arguments of a call lie on the operand stack where its frame says. -/
structure Frame.Seats (f : Frame) (c : Activation) (S : Array Datum) : Prop where
  callee : f.symbol = c.callee
  count : f.count = c.arguments.length
  fits : f.count ≤ f.height
  below : f.height ≤ S.size
  value : ∀ i < f.count, S[f.height - f.count + i]?.map Datum.value = c.arguments[i]?

/-- Only the items below the height of the frame matter. -/
theorem Frame.Seats.congr {f : Frame} {c : Activation} {S S' : Array Datum}
    (h : f.Seats c S) (hsize : f.height ≤ S'.size)
    (heq : ∀ i < f.height, S'[i]? = S[i]?) : f.Seats c S' where
  callee := h.callee
  count := h.count
  fits := h.fits
  below := hsize
  value i hi := by
    have hfits := h.fits
    rw [heq _ (by omega)]
    exact h.value i hi

theorem Frame.Seats.push {f : Frame} {c : Activation} {S : Array Datum} (h : f.Seats c S)
    (d : Datum) : f.Seats c (S.push d) := by
  have hbelow := h.below
  refine h.congr (by rw [Array.size_push]; omega) fun i hi => ?_
  rw [Array.getElem?_push, if_neg (by omega)]

/-- Inside a definition a call is at hand, and its arguments lie where its frame
says. -/
def Situated (inDefinition : Bool) (call : Option Activation) (F : Array Frame)
    (S : Array Datum) :
    Prop :=
  inDefinition = true → ∃ c f, call = some c ∧ F.back? = some f ∧ f.Seats c S

theorem Situated.push {inDefinition : Bool} {call : Option Activation} {F : Array Frame}
    {S : Array Datum} (h : Situated inDefinition call F S) (d : Datum) :
    Situated inDefinition call F (S.push d) := fun hd =>
  have ⟨c, f, hc, hf, hseats⟩ := h hd
  ⟨c, f, hc, hf, hseats.push d⟩

/-! ### Single actions -/

/-- An evaluation whose value is on top of the stack. -/
def Pushed (quiet : Bool) (S : Array Datum) (F : Array Frame) (a : Nat)
    (x : Float) (w : World) (_ : Unit) (m : Machine) : Prop :=
  w.Shown quiet (S.push (.ofValue x)) F a false m

/-- A reference to a symbol as an item of the operand stack. -/
def Datum.reference (id : Nat) : Datum :=
  { value := 0.0, symbol := some id }

namespace Exec

variable {job : Job} {quiet : Bool} {w : World} {σ : Signals} {S : Array Datum}
  {F : Array Frame} {a : Nat} {α : Type}

/-- A push succeeds unless the stack is full. -/
theorem pushDatum_apply (d : Datum) (m : Machine) :
    pushDatum job d m =
      if m.stack.isFull job.limits.stack then .error (.fault { kind := .stackOverflow }) m
      else .ok () { m with stack := ⟨m.stack.items.push d⟩ } := by
  by_cases h : m.stack.isFull job.limits.stack = true <;>
    simp [pushDatum, onStack, Stack.push, h]

/-- A push, for which there may be no room; that exceeds a limit. -/
theorem tracks_pushDatum {post : α → World → Unit → Machine → Prop} {x : α} {d : Datum}
    {returning : Bool} (h : post x w () (w.machine σ (S.push d) F a returning)) :
    Tracks quiet post (.ok x w) (pushDatum job d (w.machine σ S F a returning)) := by
  rw [pushDatum_apply]
  split
  · exact Tracks.excused (.inl (.inl rfl)) _ _
  · exact Tracks.ok h

theorem tracks_push (hσ : quiet = true → σ.Calm) (x : Float) :
    Tracks quiet (Pushed quiet S F a) (.ok x w) (push job x (w.machine σ S F a false)) :=
  tracks_pushDatum ⟨σ, hσ, rfl⟩

/-- The value of a computation that may fail is pushed, or its fault is the same
on both sides. -/
theorem tracks_ofExcept (hσ : quiet = true → σ.Calm) {r : Except Fault Float}
    (hr : ProperResult r) :
    Tracks quiet (Pushed quiet S F a) (Eval.ofExcept r w)
      ((ofExcept r >>= fun y => push job y) (w.machine σ S F a false)) := by
  cases r with
  | error f => exact Tracks.fault (hr f rfl) rfl rfl
  | ok y => exact tracks_push hσ y

theorem onStack_of_ok {act : EStateM Fault (Stack Datum) α} {m : Machine} {x : α}
    {stack : Stack Datum} (h : act m.stack = .ok x stack) :
    onStack act m = .ok x { m with stack } := by
  rw [onStack, h]

theorem onFrames_of_ok {act : EStateM Fault (Stack Frame) α} {m : Machine} {x : α}
    {frames : Stack Frame} (h : act m.frames = .ok x frames) :
    onFrames act m = .ok x { m with frames } := by
  rw [onFrames, h]

theorem onStack_pop_push (d : Datum) :
    onStack Stack.pop (w.machine σ (S.push d) F a false) =
      .ok d (w.machine σ S F a false) :=
  onStack_of_ok (Stack.pop_push d ⟨S⟩)

theorem onStack_popTwo_push (d e : Datum) :
    onStack Stack.popTwo (w.machine σ ((S.push d).push e) F a false) =
      .ok (d, e) (w.machine σ S F a false) := by
  have htwo : Stack.popTwo ⟨(S.push d).push e⟩ = .ok (d, e) ⟨S⟩ := by
    rw [Stack.popTwo, Action.bind_of_ok (Stack.pop_push e ⟨S.push d⟩),
      Action.bind_of_ok (Stack.pop_push d ⟨S⟩)]
    rfl
  exact onStack_of_ok htwo

theorem pop_push (x : Float) :
    pop (w.machine σ (S.push (.ofValue x)) F a false) = .ok x (w.machine σ S F a false) :=
  Action.bind_of_ok (onStack_pop_push (.ofValue x))

theorem operand_apply {c : Cell} (h : job.cells[a]? = some c) :
    operand job (w.machine σ S F a false) = .ok c (w.machine σ S F (a + 1) false) := by
  have hcell : job.cells[(w.machine σ S F a false).pc]? = some c := h
  rw [operand, Action.bind_of_ok (Action.get_apply _), hcell]
  rfl

theorem symbolOperand_apply {id : Nat} (h : job.cells[a]? = some (.symbol id)) :
    symbolOperand job (w.machine σ S F a false) =
      .ok id (w.machine σ S F (a + 1) false) :=
  Action.bind_of_ok (operand_apply h)

theorem countOperand_apply {n : Nat} (h : job.cells[a]? = some (.count n)) :
    countOperand job (w.machine σ S F a false) = .ok n (w.machine σ S F (a + 1) false) :=
  Action.bind_of_ok (operand_apply h)

/-- A fault about a symbol is the same on both sides. -/
theorem tracks_failAbout {β : Type} {post : α → World → β → Machine → Prop}
    {kind : FaultKind} (id : Nat) (hk : kind ≠ .internal ∧ kind ≠ .stackUnderflow) :
    Tracks quiet post (Eval.failAbout kind id w)
      (failAbout kind id (w.machine σ S F a false)) :=
  Tracks.fault (f := ⟨kind, none, (w.symbols.get id).label⟩) hk rfl rfl

/-! ### Values -/

theorem tracks_constPush (hσ : quiet = true → σ.Calm) {x : Float}
    (h : job.cells[a]? = some (.number x)) :
    Tracks quiet (Pushed quiet S F (a + 1)) (.ok x w)
      (Instruction.constPush.run job (w.machine σ S F a false)) := by
  rw [Instruction.run, Action.bind_of_ok (operand_apply h)]
  exact tracks_push hσ x

/-- A reference is pushed, of which the evaluation knows nothing. -/
theorem tracks_varPush {post : α → World → Unit → Machine → Prop} {x : α} {id : Nat}
    (h : job.cells[a]? = some (.symbol id))
    (hpost : post x w () (w.machine σ (S.push (.reference id)) F (a + 1) false)) :
    Tracks quiet post (.ok x w)
      (Instruction.varPush.run job (w.machine σ S F a false)) := by
  rw [Instruction.run, Action.bind_of_ok (symbolOperand_apply h)]
  exact tracks_pushDatum hpost

/-- A value read and a check passed, both without a change. -/
def Unchanged (w : World) (m : Machine) (x : α) (y : α) (w' : World) (_ : Unit)
    (m' : Machine) : Prop :=
  x = y ∧ w = w' ∧ m = m'

/-- A variable has the same value on both sides, or the same fault of having
none. -/
theorem tracks_verify (id : Nat) :
    Tracks quiet (Unchanged w (w.machine σ S F a false) (w.symbols.get id).value)
      (Eval.value id w) (verify id (w.machine σ S F a false)) := by
  have hsymbol : symbol id (w.machine σ S F a false) = .ok (w.symbols.get id) _ := rfl
  rw [Eval.value, verify, Action.bind_of_ok (Eval.symbol_apply id w),
    Action.bind_of_ok hsymbol]
  cases (w.symbols.get id).kind
  case var => exact Tracks.ok ⟨rfl, rfl, rfl⟩
  all_goals exact tracks_failAbout id (by decide)

theorem tracks_eval (hσ : quiet = true → σ.Calm) (id : Nat) :
    Tracks quiet (Pushed quiet S F a) (Eval.value id w)
      (eval job (w.machine σ (S.push (.reference id)) F a false)) := by
  rw [eval, Action.bind_of_ok (onStack_pop_push _)]
  refine (tracks_verify id).bind_right ?_
  rintro _ _ _ _ - ⟨rfl, rfl, rfl⟩
  exact tracks_push hσ _

theorem tracks_binary (hσ : quiet = true → σ.Calm) {op : Operator} {o : BinaryOp}
    (hop : op.binaryOp? = some o) (x y : Float) :
    Tracks quiet (Pushed quiet S F a) (Eval.binary op x y w)
      (binary job o (w.machine σ ((S.push (.ofValue x)).push (.ofValue y)) F
        a false)) := by
  rw [Eval.binary_eq hop, binary, Action.bind_of_ok (onStack_popTwo_push _ _)]
  exact tracks_ofExcept hσ (o.properResult_apply x y)

/-- A sign replaces a value by another one. -/
theorem tracks_unary (hσ : quiet = true → σ.Calm) {op : Operator} {i : Instruction}
    (hop : op.unaryOp? = some i) (x : Float) :
    Tracks quiet (Pushed quiet S F a) (Eval.unary op x w)
      (i.run job (w.machine σ (S.push (.ofValue x)) F a false)) := by
  cases op with
  | minus =>
    cases hop
    rw [Instruction.run, Action.bind_of_ok (pop_push x)]
    exact tracks_push hσ _
  | not =>
    cases hop
    rw [Instruction.run, Action.bind_of_ok (pop_push x)]
    exact tracks_push hσ _
  | _ => exact nomatch hop

/-- A built-in function is applied to the value on top. It is found by its
symbol. -/
theorem tracks_builtin (hσ : quiet = true → σ.Calm) {id : Nat}
    (hcell : job.cells[a]? = some (.symbol id))
    (hnative : (w.symbols.get id).native.isSome) (x : Float) :
    Tracks quiet (Pushed quiet S F (a + 1)) (Eval.builtin id x w)
      (builtin job (w.machine σ (S.push (.ofValue x)) F a false)) := by
  obtain ⟨f, hf⟩ := Option.isSome_iff_exists.mp hnative
  have heval : Eval.builtin id x w = Eval.ofExcept (f.apply x) w := by
    rw [Eval.builtin, Action.bind_of_ok (Eval.symbol_apply id w), hf]
  have hsymbol : symbol id (w.machine σ (S.push (.ofValue x)) F (a + 1) false) =
      .ok (w.symbols.get id) _ := rfl
  have hrun : builtin job (w.machine σ (S.push (.ofValue x)) F a false) =
      (ofExcept (f.apply x) >>= fun y => push job y) (w.machine σ S F (a + 1) false) := by
    rw [builtin, Action.bind_of_ok (symbolOperand_apply hcell),
      Action.bind_of_ok hsymbol, hf]
    exact Action.bind_of_ok (pop_push x)
  rw [heval, hrun]
  exact tracks_ofExcept hσ (f.properResult_apply x)

/-! ### Assignments -/

/-- Whether a symbol may be assigned to is the same on both sides. -/
theorem tracks_verifyAssignable (id : Nat) :
    Tracks quiet (Unchanged w (w.machine σ S F a false) ()) (Eval.checkAssignable id w)
      (verifyAssignable id (w.machine σ S F a false)) := by
  have hcheck : Eval.checkAssignable id w =
      (if (w.symbols.get id).isAssignable then pure ()
    else Eval.failAbout .assignmentToNonVariable id : Eval Unit) w := rfl
  have hverify : verifyAssignable id (w.machine σ S F a false) =
    (if (w.symbols.get id).isAssignable then pure ()
    else failAbout .assignmentToNonVariable id : Exec Unit) (w.machine σ S F a false) :=
      rfl
  rw [hcheck, hverify]
  split
  · exact Tracks.ok ⟨rfl, rfl, rfl⟩
  · exact tracks_failAbout id (by decide)

/-- An assignment, after which a value is pushed. -/
theorem tracks_assign_push (hσ : quiet = true → σ.Calm) (id : Nat) (x y : Float) :
    Tracks quiet (Pushed quiet S F a) ((Eval.assign id x >>= fun _ => pure y) w)
      ((assign id x >>= fun _ => push job y) (w.machine σ S F a false)) := by
  let w' : World := { w with symbols := w.symbols.modify id (Symbol.assigned x) }
  show Tracks quiet (Pushed quiet S F a) (.ok y w')
    (push job y (w'.machine σ S F a false))
  exact tracks_push hσ y

/-- An assignment takes a value and a reference, and leaves the value assigned. -/
theorem tracks_assignTop (hσ : quiet = true → σ.Calm) {op : Operator} {o : AssignOp}
    (hop : op.assignOp? = some o) (id : Nat) (x : Float) :
    Tracks quiet (Pushed quiet S F a) (Eval.update op id x w)
      (assignTop job o (w.machine σ ((S.push (.ofValue x)).push (.reference id)) F
        a false)) := by
  rw [assignTop, Action.bind_of_ok (onStack_pop_push _), Action.bind_of_ok (pop_push x)]
  refine (tracks_verifyAssignable id).bind ?_
  rintro _ _ _ _ - ⟨-, rfl, rfl⟩
  show Tracks quiet (Pushed quiet S F a)
    ((Eval.combine op (w.symbols.get id).value x >>= fun y =>
      Eval.assign id y >>= fun _ => pure y) w)
    ((ofExcept (o.apply (w.symbols.get id).value x) >>= fun y =>
      assign id y >>= fun _ => push job y) (w.machine σ S F a false))
  rw [Eval.combine_eq hop]
  -- the old value and the new operand are combined by the same function on both sides
  cases hr : o.apply (w.symbols.get id).value x with
  | error f => exact Tracks.fault (o.properResult_apply _ _ f hr) rfl rfl
  | ok y => exact tracks_assign_push hσ id y y

/-- A step assigns, and leaves the old or the new value. -/
theorem tracks_step (hσ : quiet = true → σ.Calm) {id : Nat}
    (hcell : job.cells[a]? = some (.symbol id)) (how : Step) :
    Tracks quiet (Pushed quiet S F (a + 1)) (Eval.step how id w)
      (step job how (w.machine σ S F a false)) := by
  rw [step, Action.bind_of_ok (symbolOperand_apply hcell)]
  refine (tracks_verify id).bind ?_
  rintro _ _ _ _ - ⟨rfl, rfl, rfl⟩
  exact tracks_assign_push hσ id _ _

/-- A line is read and assigned, with the same fault on both sides if it holds
no number. -/
theorem tracks_read (hσ : quiet = true → σ.Calm) {id : Nat}
    (hcell : job.cells[a]? = some (.symbol id)) :
    Tracks quiet (Pushed quiet S F (a + 1)) (Eval.read id w)
      (read job (w.machine σ S F a false)) := by
  rw [read, Action.bind_of_ok (symbolOperand_apply hcell)]
  refine (tracks_verifyAssignable id).bind ?_
  rintro _ _ _ _ - ⟨-, rfl, rfl⟩
  let w' : World := { w with console := w.console.readLine.2 }
  have heval : Eval.readLine w = .ok w.console.readLine.1 w' := rfl
  have hrun : readLine (w.machine σ S F (a + 1) false) =
    .ok w.console.readLine.1 (w'.machine σ S F (a + 1) false) := rfl
  rw [Action.bind_of_ok heval, Action.bind_of_ok hrun]
  -- at the end of the input there is no line; both sides look at the same one
  cases w.console.readLine.1 with
  | none => exact tracks_assign_push hσ id _ _
  | some l =>
    dsimp only
    cases readTyped? l with
    | some x => exact tracks_assign_push hσ id _ _
    | none => exact tracks_failAbout id (by decide)

/-! ### Printing -/

variable (job) in
theorem tracks_pop {post : α → World → Unit → Machine → Prop} {x : α} {v : Float}
    (h : post x w () (w.machine σ S F a false)) :
    Tracks quiet post (.ok x w)
      (Instruction.pop.run job (w.machine σ (S.push (.ofValue v)) F a false)) := by
  rw [Instruction.run, Action.bind_of_ok (pop_push v)]
  exact Tracks.ok h

end Exec

/-- The signals after a write: the one an interrupt is due after raises it. -/
def Signals.afterWrite (σ : Signals) : Signals :=
  match σ.alarm with
  | some 1 => ⟨true, none⟩
  | some (n + 2) => ⟨σ.interrupted, some (n + 1)⟩
  | _ => σ

theorem Signals.Calm.afterWrite {σ : Signals} (h : σ.Calm) : σ.afterWrite.Calm := by
  rw [Signals.afterWrite, h.2]
  exact h

namespace Exec

variable {job : Job} {quiet : Bool} {w : World} {σ : Signals} {S : Array Datum}
  {F : Array Frame} {a : Nat}

/-- What a write does to the machine. -/
theorem print_apply (x : Write) :
    print x (w.machine σ S F a false) =
      .ok () (World.machine { w with console := w.console.write x } σ.afterWrite S F
        a false) := by
  show EStateM.Result.ok () ((w.machine σ S F a false).write x) = _
  obtain ⟨interrupted, alarm⟩ := σ
  match alarm with
  | none => rfl
  | some 0 => rfl
  | some 1 => rfl
  | some (n + 2) => rfl

/-- What is shown after a write. -/
theorem tracks_print (hσ : quiet = true → σ.Calm) (x : Write) :
    Tracks quiet (fun _ w' _ m' => w'.Shown quiet S F a false m') (Eval.print x w)
      (print x (w.machine σ S F a false)) := by
  rw [print_apply]
  exact Tracks.ok ⟨σ.afterWrite, fun hq => (hσ hq).afterWrite, rfl⟩

variable (job) in
theorem tracks_printValue (hσ : quiet = true → σ.Calm) (x : Float) :
    Tracks quiet (fun _ w' _ m' => w'.Shown quiet S F a false m')
      (Eval.print (.value x) w)
      (Instruction.printValue.run job (w.machine σ (S.push (.ofValue x)) F a false)) := by
  rw [Instruction.run, Action.bind_of_ok (pop_push x)]
  exact tracks_print hσ _

theorem tracks_printText (hσ : quiet = true → σ.Calm) {s : String}
    (hcell : job.cells[a]? = some (.text s)) :
    Tracks quiet (fun _ w' _ m' => w'.Shown quiet S F (a + 1) false m')
      (Eval.print (.text s) w)
      (Instruction.printText.run job (w.machine σ S F a false)) := by
  rw [Instruction.run, printLiteral, Action.bind_of_ok (operand_apply hcell)]
  exact tracks_print hσ _

variable (job) in
theorem tracks_printTop (hσ : quiet = true → σ.Calm) (x : Float) :
    Tracks quiet (fun _ w' _ m' => w'.Shown quiet S F a false m') (Eval.display x w)
      (Instruction.printTop.run job (w.machine σ (S.push (.ofValue x)) F a false)) := by
  rw [Instruction.run, printTop, Action.bind_of_ok (pop_push x)]
  refine (tracks_print hσ _).bind ?_
  rintro _ w' _ _ - ⟨σ', hσ', rfl⟩
  exact Tracks.ok ⟨σ', hσ', rfl⟩

/-! ### Arguments and returns -/

theorem frame_apply {f : Frame} (hf : F.back? = some f) :
    frame (w.machine σ S F a false) = .ok f (w.machine σ S F a false) := by
  have htop : (w.machine σ S F a false).frames.top? = some f := hf
  rw [frame, Action.bind_of_ok (Action.get_apply _), htop]
  rfl

theorem argPlace_apply {f : Frame} (hf : F.back? = some f) {n : Nat} (hn : 0 < n)
    (hcell : job.cells[a]? = some (.count n)) :
    argPlace job (w.machine σ S F a false) =
      if f.count < n then failAbout .notEnoughArguments f.symbol
        (w.machine σ S F (a + 1) false)
      else .ok (f.height - f.count + n - 1) (w.machine σ S F (a + 1) false) := by
  rw [argPlace, Action.bind_of_ok (countOperand_apply hcell),
    Action.bind_of_ok (frame_apply hf), if_neg (Nat.ne_of_gt hn)]
  split <;> rfl

end Exec

/-- Both stacks have the same size, and the same items but for the arguments of
the frame on top. -/
structure Alike (F : Array Frame) (S S' : Array Datum) : Prop where
  size : S'.size = S.size
  item : ∀ i, S'[i]? = S[i]? ∨ ∃ f, F.back? = some f ∧
    f.height - f.count ≤ i ∧ i < f.height

theorem Alike.refl (F : Array Frame) (S : Array Datum) : Alike F S S :=
  ⟨rfl, fun _ => .inl rfl⟩

theorem Alike.trans {F : Array Frame} {S S' S'' : Array Datum} (h : Alike F S S')
    (h' : Alike F S' S'') : Alike F S S'' := by
  refine ⟨h'.size.trans h.size, fun i => ?_⟩
  rcases h'.item i with hi' | hi'
  · rcases h.item i with hi | hi
    · exact .inl (hi'.trans hi)
    · exact .inr hi
  · exact .inr hi'

/-- A statement that leaves a value: it is on top of a stack like the one before. -/
def Settled (quiet inDefinition : Bool) (S : Array Datum) (F : Array Frame)
    (a : Nat) (x : Float) (w : World) (_ : Unit) (m : Machine) : Prop :=
  ∃ S', w.Shown quiet (S'.push (.ofValue x)) F a false m ∧ Alike F S S' ∧
    Situated inDefinition w.call F S'

/-- A stack with or without a value on top. -/
def withValue (S : Array Datum) : Option Float → Array Datum
  | some x => S.push (.ofValue x)
  | none => S

/-- A call that has been left: its frame and its arguments are gone, its value
is on top, and a return is under way to the place behind the call. -/
def Returned (quiet : Bool) (S : Array Datum) (F : Array Frame)
    (v : Option Float) (w : World) (m : Machine) : Prop :=
  ∃ f, F.back? = some f ∧
    w.Shown quiet (withValue (S.take (f.height - f.count)) v) F.pop f.resume true m

/-- How the code of a statement ends that starts with the stacks `S` and `F`:
behind it, with a stack like the one before, or with a return under way. -/
def Finished (quiet inDefinition : Bool) (S : Array Datum) (F : Array Frame) (a : Nat) :
    Flow → World → Unit → Machine → Prop
  | .next, w, _, m =>
    ∃ S', w.Shown quiet S' F a false m ∧ Alike F S S' ∧ Situated inDefinition w.call F S'
  | .back v, w, _, m => Returned quiet S F v w m

namespace Exec

variable {job : Job} {quiet : Bool} {w : World} {σ : Signals} {S : Array Datum}
  {F : Array Frame} {a : Nat}

/-- An argument is pushed from its place below the frame. -/
theorem tracks_arg (hσ : quiet = true → σ.Calm) {n : Nat} (hn : 0 < n)
    (hcell : job.cells[a]? = some (.count n)) (hs : Situated true w.call F S) :
    Tracks quiet (Pushed quiet S F (a + 1)) (Eval.arg n w)
      (arg job (w.machine σ S F a false)) := by
  obtain ⟨c, f, hc, hf, hseats⟩ := hs rfl
  have hcount := hseats.count
  have hplace := argPlace_apply (w := w) (σ := σ) (S := S) hf hn hcell
  rw [Eval.arg, Action.bind_of_ok (Eval.activation_apply hc),
    if_neg (Nat.ne_of_gt hn), arg]
  by_cases hlt : f.count < n
  · -- both sides name the callee in the fault
    rw [if_pos hlt] at hplace
    rw [List.getElem?_eq_none (by omega), Action.bind_of_error hplace, hseats.callee]
    exact tracks_failAbout c.callee (by decide)
  · rw [if_neg hlt] at hplace
    have hfits := hseats.fits
    -- the slot `n - 1` places above the first argument is the `n`-th argument
    have hvalue := hseats.value (n - 1) (by omega)
    have hget : c.arguments[n - 1]? = some (c.arguments[n - 1]) :=
      List.getElem?_eq_getElem (by omega)
    rw [hget, show f.height - f.count + (n - 1) = f.height - f.count + n - 1 by
      omega] at hvalue
    obtain ⟨d, hd, hdv⟩ := Option.map_eq_some_iff.mp hvalue
    have hslot : (w.machine σ S F (a + 1) false).stack.get? (f.height - f.count + n - 1) =
        some d := hd
    rw [hget, Action.bind_of_ok hplace, Action.bind_of_ok (Action.get_apply _),
      hslot, ← hdv]
    exact tracks_push hσ d.value

end Exec

/-- An argument is replaced on the stack and in the call alike. -/
theorem Frame.Seats.set {f : Frame} {c : Activation} {S : Array Datum}
    (h : f.Seats c S) {i : Nat} (hi : i < f.count) (d : Datum) :
    f.Seats { c with arguments := c.arguments.set i d.value }
      (S.setIfInBounds (f.height - f.count + i) d) := by
  have hfits := h.fits
  have hbelow := h.below
  refine ⟨h.callee, ?_, h.fits, ?_, fun j hj => ?_⟩
  · rw [List.length_set]
    exact h.count
  · rw [Array.size_setIfInBounds]
    exact h.below
  · rw [Array.getElem?_setIfInBounds, List.getElem?_set]
    by_cases heq : i = j
    · subst heq
      rw [if_pos rfl, if_pos (by omega), if_pos rfl, if_pos (by rw [← h.count]; exact hi)]
      rfl
    · rw [if_neg (by omega), if_neg heq]
      exact h.value j hj

theorem Frame.alike_set {f : Frame} {F : Array Frame} (hf : F.back? = some f)
    (S : Array Datum) {i : Nat} (hi : i < f.count) (hfits : f.count ≤ f.height)
    (d : Datum) :
    Alike F S (S.setIfInBounds (f.height - f.count + i) d) := by
  refine ⟨Array.size_setIfInBounds, fun j => ?_⟩
  by_cases heq : f.height - f.count + i = j
  · exact .inr ⟨f, hf, by omega, by omega⟩
  · rw [Array.getElem?_setIfInBounds, if_neg heq]
    exact .inl rfl

namespace Exec

variable {job : Job} {quiet : Bool} {w : World} {σ : Signals} {S : Array Datum}
  {F : Array Frame} {a : Nat}

/-- An argument is assigned to at its place below the frame. -/
theorem tracks_argAssign (hσ : quiet = true → σ.Calm) {n : Nat} (hn : 0 < n)
    (hcell : job.cells[a]? = some (.count n)) (hs : Situated true w.call F S)
    (x : Float) :
    Tracks quiet (Settled quiet true S F (a + 1)) (Eval.setArg n x w)
      (argAssign job (w.machine σ (S.push (.ofValue x)) F a false)) := by
  obtain ⟨c, f, hc, hf, hseats⟩ := hs rfl
  have hcount := hseats.count
  have hplace := argPlace_apply (w := w) (σ := σ) (S := S.push (.ofValue x)) hf hn hcell
  rw [Eval.setArg, Action.bind_of_ok (Eval.activation_apply hc),
    if_neg (Nat.ne_of_gt hn), argAssign]
  by_cases hlt : f.count < n
  · rw [if_pos hlt] at hplace
    rw [if_pos (by omega), Action.bind_of_error hplace, hseats.callee]
    exact tracks_failAbout c.callee (by decide)
  · rw [if_neg hlt] at hplace
    have hfits := hseats.fits
    have hbelow := hseats.below
    have hi : n - 1 < f.count := by omega
    have hindex : f.height - f.count + n - 1 = f.height - f.count + (n - 1) := by omega
    have hlt' : f.height - f.count + (n - 1) < S.size := by omega
    -- the slot keeps its reference and gets the value; the call keeps its callee
    let d : Datum := { S[f.height - f.count + (n - 1)] with value := x }
    let w' : World :=
      { w with call := some { c with arguments := c.arguments.set (n - 1) x } }
    have hget : (w.machine σ S F (a + 1) false).stack.get?
        (f.height - f.count + (n - 1)) =
        some S[f.height - f.count + (n - 1)] := Array.getElem?_eq_getElem hlt'
    have hset : (w.machine σ S F (a + 1) false).stack.set?
        (f.height - f.count + (n - 1)) d =
        some ⟨S.setIfInBounds (f.height - f.count + (n - 1)) d⟩ := if_pos hlt'
    rw [if_neg (by omega), Action.bind_of_ok hplace,
      Action.bind_of_ok (pop_push x), hindex,
      Action.bind_of_ok (Action.get_apply _), hget]
    dsimp only
    rw [hset]
    -- the arguments are the only items that differ, which is what `Alike` allows
    refine tracks_pushDatum ⟨_, ⟨σ, hσ, rfl⟩, Frame.alike_set hf S hi hseats.fits d,
      fun _ => ?_⟩
    exact ⟨_, f, rfl, hf, hseats.set hi d⟩

/-- Leaving a call drops its frame and its arguments. -/
theorem leave_apply {f : Frame} (hf : F.back? = some f) (hsize : S.size = f.height) :
    leave (w.machine σ S F a false) =
      .ok () (w.machine σ (S.take (f.height - f.count)) F.pop f.resume true) := by
  have hframes : Stack.pop (⟨F⟩ : Stack Frame) = .ok f ⟨F.pop⟩ := by
    simp [Stack.pop, Stack.top?, hf]
  have hpop : onFrames Stack.pop (w.machine σ S F a false) =
      .ok f (w.machine σ S F.pop a false) := onFrames_of_ok hframes
  have htruncate : Stack.truncate (f.height - f.count) (⟨S⟩ : Stack Datum) =
      .ok () ⟨S.take (f.height - f.count)⟩ := by
    have hle : ¬ S.size < f.height - f.count := by omega
    simp [Stack.truncate, Stack.size, hle]
  rw [leave, Action.bind_of_ok hpop]
  show (if S.size ≠ f.height then internal "unbalanced return" else _ : Exec Unit) _ = _
  -- the stack stands at the height of the frame, so the return is not unbalanced
  rw [if_neg (fun hc => hc hsize), Action.bind_of_ok (onStack_of_ok htruncate)]
  rfl

/-- A return with a value, from a function. -/
theorem tracks_returnValue (hσ : quiet = true → σ.Calm) (hs : Situated true w.call F S)
    (hlevel : ∀ f, F.back? = some f → S.size = f.height) (x : Float) :
    Tracks quiet (Finished quiet true S F a) (Eval.returnValue x w)
      (returnValue job (w.machine σ (S.push (.ofValue x)) F a false)) := by
  obtain ⟨c, f, hc, hf, hseats⟩ := hs rfl
  rw [Eval.returnValue, Action.bind_of_ok (Eval.activation_apply hc), returnValue,
    Action.bind_of_ok (frame_apply hf), hseats.callee]
  show Tracks quiet _
    ((if (w.symbols.get c.callee).kind = .procedure then
        Eval.failAbout .procedureReturnsValue c.callee
      else pure (.back (some x)) : Eval Flow) w)
    ((if (w.symbols.get c.callee).kind = .procedure then
        failAbout .procedureReturnsValue c.callee
      else pop >>= fun x => leave >>= fun _ => push job x : Exec Unit) _)
  -- a procedure must not return a value, which both sides check by the callee's
  -- kind
  split
  · exact tracks_failAbout c.callee (by decide)
  · rw [Action.bind_of_ok (pop_push x), Action.bind_of_ok (leave_apply hf (hlevel f hf))]
    exact tracks_pushDatum ⟨f, hf, σ, hσ, rfl⟩

/-- A return without a value, from a procedure. -/
theorem tracks_returnNothing (hσ : quiet = true → σ.Calm) (hs : Situated true w.call F S)
    (hlevel : ∀ f, F.back? = some f → S.size = f.height) :
    Tracks quiet (fun flow w' _ m' => flow = .back none ∧ Returned quiet S F none w' m')
      (Eval.returnNothing w) (returnNothing (w.machine σ S F a false)) := by
  obtain ⟨c, f, hc, hf, hseats⟩ := hs rfl
  rw [Eval.returnNothing, Action.bind_of_ok (Eval.activation_apply hc), returnNothing,
    Action.bind_of_ok (frame_apply hf), hseats.callee]
  show Tracks quiet _
    ((if (w.symbols.get c.callee).kind = .function then
        Eval.failAbout .functionReturnsNoValue c.callee
      else pure (.back none) : Eval Flow) w)
    ((if (w.symbols.get c.callee).kind = .function then
        failAbout .functionReturnsNoValue c.callee
      else leave : Exec Unit) _)
  split
  · exact tracks_failAbout c.callee (by decide)
  · rw [leave_apply hf (hlevel f hf)]
    exact Tracks.ok ⟨rfl, f, hf, σ, hσ, rfl⟩

end Exec

end StackCalc
