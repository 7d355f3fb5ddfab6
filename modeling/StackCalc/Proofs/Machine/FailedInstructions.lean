import StackCalc.Proofs.Machine.Interrupts
import StackCalc.Proofs.Machine.Limits

/-!
# What failed instructions leave behind

An instruction that fails keeps what it did before. For most of them that is
nothing but taking operands: checks come first, and what is printed is printed
last. The exceptions are a step and a read. They assign to their variable and
then push a value, for which a full stack has no room; `Instruction.unfinished?`
is the assignment that such an instruction leaves behind. An assignment has
room: its value takes the place of two operands.
-/

namespace StackCalc

open StackCalc.Action

namespace Machine

/-- The symbol in the cell ahead. -/
def symbolAhead? (job : Job) (m : Machine) : Option Nat :=
  (job.cells[m.pc]?).bind Cell.symbol?

/-- The number in the line ahead; zero at the end of the input. -/
def typed? (m : Machine) : Option Float :=
  match m.console.input.head? with
  | none => some 0.0
  | some l => readTyped? l

end Machine

/-- The assignment that an instruction makes before it pushes a value, if it
comes to that: the variable and what it becomes. -/
def Instruction.assignment? (job : Job) (m : Machine) : Instruction → Option (Nat × Float)
  | step how =>
    (m.symbolAhead? job).bind fun id =>
      if (m.symbols.get id).kind = .var then
        some (id, (m.symbols.get id).value + how.change) else none
  | read =>
    (m.symbolAhead? job).bind fun id =>
      if (m.symbols.get id).isAssignable then m.typed?.map fun x => (id, x) else none
  | _ => none

/-- The assignment that an instruction makes although it fails, for want of room
on the stack. -/
def Instruction.unfinished? (job : Job) (m : Machine) (i : Instruction) :
    Option (Nat × Float) :=
  if m.stack.isFull job.limits.stack then i.assignment? job m else none

theorem Instruction.full_of_unfinished? {job : Job} {m : Machine} {i : Instruction}
    {a : Nat × Float} (h : i.unfinished? job m = some a) :
    job.limits.stack ≤ m.stack.size := by
  unfold Instruction.unfinished? at h
  split at h
  case isTrue hfull => exact of_decide_eq_true hfull
  case isFalse => cases h

/-- Whether an instruction steps a variable and has its old value. -/
def Instruction.stepsAfter : Instruction → Bool
  | step how => !how.isBefore
  | _ => false

namespace Console

/-- Nothing has been written but a prompt, if reading shows one. -/
def Prompted (c c' : Console) : Prop :=
  c'.writes = c.writes ∨ c.prompting ∧ c'.writes = c.writes.push .prompt

theorem prompted_readLine (c : Console) : c.Prompted c.readLine.2 := by
  by_cases hp : c.prompting = true
  · refine .inr ⟨hp, ?_⟩
    unfold readLine
    rw [if_pos hp]
    dsimp only
    split <;> rfl
  · exact .inl (writes_readLine (Bool.eq_false_iff.mpr hp))

/-- The line that is read is the one ahead. -/
theorem line_readLine (c : Console) : c.readLine.1 = c.input.head? := by
  have hinput : (if c.prompting then c.write .prompt else c).input = c.input := by
    split <;> rfl
  unfold Console.readLine
  dsimp only
  split
  case h_1 h => rw [← hinput, h, List.head?_nil]
  case h_2 l ls h => rw [← hinput, h, List.head?_cons]

end Console

namespace Exec

variable {job : Job} {α β : Type} {i : Instruction} {m m₁ m' : Machine} {e : Halt}

/-! ### Writes -/

/-- Behind a local action, the console is what it was. -/
theorem IsLocal.console_bind {x : Exec α} {f : α → Exec β} (hx : IsLocal x)
    {P : Console → Prop} (hm : P m.console)
    (hf : ∀ a m₁, m₁.console = m.console → P (final (f a m₁)).console) :
    P (final ((x >>= f) m)).console := by
  have hsame : (final (x m)).console = m.console :=
    congrArg Outside.console (hx.outside_eq m)
  rcases bind_cases x f m with ⟨e, m₁, hrun, heq⟩ | ⟨a, m₁, hrun, heq⟩
  · rw [hrun] at hsame
    rw [heq]
    exact hsame.symm ▸ hm
  · rw [hrun] at hsame
    rw [heq]
    exact hf a m₁ hsame

/-- A read writes nothing but a prompt. -/
theorem prompted_read (job : Job) (m : Machine) :
    m.console.Prompted (final (read job m)).console := by
  refine (isLocal_symbolOperand job).console_bind (.inl rfl) fun id m₁ h₁ => ?_
  refine (isLocal_verifyAssignable id).console_bind (h₁ ▸ .inl rfl) fun _ m₂ h₂ => ?_
  have hconsole : (final ((readLine >>= takeLine job id) m₂)).console =
      m₂.console.readLine.2 :=
    congrArg Outside.console ((isLocal_takeLine job id _).outside_eq _)
  show m.console.Prompted (final ((readLine >>= takeLine job id) m₂)).console
  rw [hconsole, ← h₁, ← h₂]
  exact m₂.console.prompted_readLine

/-- An instruction that fails has written nothing, or is a read that has shown
its prompt. -/
theorem writes_of_error (h : i.run job m = .error e m') :
    m'.console.writes = m.console.writes ∨ i = .read ∧ m.console.Prompted m'.console := by
  by_cases hi : i = .read
  · subst hi
    have hread := prompted_read job m
    rw [show read job m = .error e m' from h] at hread
    exact .inr ⟨rfl, hread⟩
  · have hleads := proceeds_instruction job i m
    have honce := printsOnce_instruction job i m fun h => absurd h hi
    rw [h] at hleads honce
    rcases honce with ⟨m₁, hok, -⟩ | hprinted
    · cases hok
    · exact .inl (Array.toList_inj.mp (hleads.writes.eq_of_length hprinted.symm).symm)

/-! ### Symbols -/

theorem assign_push_of_le (id : Nat) (x y : Float) (h : job.limits.stack ≤ m.stack.size) :
    (assign id x >>= fun _ => push job y) m =
      .error (.fault { kind := .stackOverflow })
        { m with symbols := m.symbols.modify id (Symbol.assigned x) } :=
  push_of_le (m := { m with symbols := m.symbols.modify id (Symbol.assigned x) })
    { value := y } h

/-- With room on the stack both succeed. -/
theorem assign_push_of_lt (id : Nat) (x y : Float) (h : m.stack.size < job.limits.stack) :
    ∃ m', (assign id x >>= fun _ => push job y) m = .ok () m' :=
  ⟨_, push_of_lt (m := { m with symbols := m.symbols.modify id (Symbol.assigned x) })
    { value := y } h⟩

/-- The symbols that an instruction leaves when it fails: as they were, but for
an unfinished assignment. -/
def Abandons (job : Job) (i : Instruction) (m : Machine) :
    EStateM.Result Halt Machine Unit → Prop
  | .ok _ _ => True
  | .error e m' =>
    (i.unfinished? job m = none → m'.symbols = m.symbols) ∧
      ∀ id x, i.unfinished? job m = some (id, x) →
        e = .fault { kind := .stackOverflow } ∧
        m'.symbols = m.symbols.modify id (Symbol.assigned x)

theorem abandons_of_none {r : EStateM.Result Halt Machine Unit}
    (hnone : i.unfinished? job m = none)
    (hr : ∀ {e m'}, r = .error e m' → m'.symbols = m.symbols) : Abandons job i m r := by
  cases r with
  | ok => trivial
  | error e m' =>
    refine ⟨fun _ => hr rfl, fun id x h => ?_⟩
    cases hnone.symm.trans h

theorem unfinished?_of_none (h : i.assignment? job m = none) :
    i.unfinished? job m = none := by
  unfold Instruction.unfinished?
  rw [h]
  split <;> rfl

/-- Where no assignment is made before the push, nothing is left behind. -/
theorem Leaves.abandons {x : Exec Unit} (hx : Leaves x)
    (hnone : i.assignment? job m = none) (h₁ : m₁.symbols = m.symbols) :
    Abandons job i m (x m₁) := by
  refine abandons_of_none (unfinished?_of_none hnone) fun h => ?_
  have hsame := hx m₁
  rw [h] at hsame
  exact hsame.trans h₁

/-- An assignment and a push leave the assignment behind where there is no room. -/
theorem abandons_assign_push {id : Nat} {x y : Float} (hstack : m₁.stack = m.stack)
    (hsymbols : m₁.symbols = m.symbols)
    (hassignment : i.assignment? job m = some (id, x)) :
    Abandons job i m ((assign id x >>= fun _ => push job y) m₁) := by
  by_cases hfull : job.limits.stack ≤ m.stack.size
  · have hpending : i.unfinished? job m = some (id, x) := by
      have hisFull : m.stack.isFull job.limits.stack = true := decide_eq_true hfull
      rw [Instruction.unfinished?, if_pos hisFull, hassignment]
    rw [assign_push_of_le id x y (hstack ▸ hfull)]
    refine ⟨fun hnone => ?_, fun id' x' h => ?_⟩
    · cases hpending.symm.trans hnone
    · cases hpending.symm.trans h
      rw [hsymbols]
      exact ⟨rfl, rfl⟩
  · obtain ⟨m', hrun⟩ := assign_push_of_lt id x y (hstack ▸ Nat.lt_of_not_le hfull)
    rw [hrun]
    trivial

/-- The symbol ahead is taken, or there is none and nothing happens to the
symbols. -/
theorem symbolOperand_ahead (job : Job) (m : Machine) :
    (∃ id, m.symbolAhead? job = some id ∧
      symbolOperand job m = .ok id { m with pc := m.pc + 1 }) ∨
      m.symbolAhead? job = none ∧ ∃ e m',
        symbolOperand job m = .error e m' ∧ m'.symbols = m.symbols := by
  unfold Machine.symbolAhead? symbolOperand operand
  rw [bind_apply, bind_of_ok (get_apply m)]
  cases job.cells[m.pc]? with
  | none => exact .inr ⟨rfl, _, _, rfl, rfl⟩
  | some c =>
    cases c with
    | symbol id => exact .inl ⟨id, rfl, rfl⟩
    | _ => exact .inr ⟨rfl, _, _, rfl, rfl⟩

/-- A step or a read that finds no symbol ahead, or one that is not what it
takes, leaves nothing behind. -/
theorem abandons_error {m' : Machine} (hnone : i.assignment? job m = none)
    (hsame : m'.symbols = m.symbols) :
    Abandons job i m (.error e m') :=
  abandons_of_none (unfinished?_of_none hnone) fun h => by
    cases h
    exact hsame

/-- A step verifies its variable first. If that succeeds, the assignment comes
before the push. -/
theorem abandons_step (job : Job) (how : Step) (m : Machine) :
    Abandons job (.step how) m (step job how m) := by
  unfold step
  rcases symbolOperand_ahead job m with ⟨id, hahead, hrun⟩ | ⟨hahead, e, m', hrun, hsame⟩
  · have hassignment : (Instruction.step how).assignment? job m =
        if (m.symbols.get id).kind = .var then
          some (id, (m.symbols.get id).value + how.change)
        else none := by
      rw [Instruction.assignment?, hahead, Option.bind_some]
    rw [bind_of_ok hrun]
    rcases verify_cases id { m with pc := m.pc + 1 } with
      ⟨hvar, hverify⟩ | ⟨hvar, e, hverify⟩
    · rw [bind_of_ok hverify]
      rw [if_pos hvar] at hassignment
      exact abandons_assign_push rfl rfl hassignment
    · rw [bind_of_error hverify]
      rw [if_neg hvar] at hassignment
      exact abandons_error hassignment rfl
  · rw [bind_of_error hrun]
    refine abandons_error ?_ hsame
    rw [Instruction.assignment?, hahead, Option.bind_none]

theorem readLine_apply (m : Machine) :
    ∃ console, readLine m = .ok m.console.input.head? { m with console } :=
  ⟨m.console.readLine.2, by rw [← Console.line_readLine]; rfl⟩

/-- A read verifies its variable, takes the line ahead, and goes on as a step
does unless there is no number in the line. -/
theorem abandons_read (job : Job) (m : Machine) : Abandons job .read m (read job m) := by
  unfold read
  rcases symbolOperand_ahead job m with ⟨id, hahead, hrun⟩ | ⟨hahead, e, m', hrun, hsame⟩
  · have hassignment : Instruction.read.assignment? job m =
        if (m.symbols.get id).isAssignable then m.typed?.map fun x => (id, x)
          else none := by
      rw [Instruction.assignment?, hahead, Option.bind_some]
    rw [bind_of_ok hrun]
    rcases verifyAssignable_cases id { m with pc := m.pc + 1 } with
      ⟨ha, hverify⟩ | ⟨ha, e, hverify⟩
    · rw [bind_of_ok hverify]
      rw [if_pos ha] at hassignment
      obtain ⟨console, hline⟩ := readLine_apply { m with pc := m.pc + 1 }
      rw [bind_of_ok hline]
      unfold Machine.typed? at hassignment
      cases hinput : m.console.input.head? with
      | none =>
        rw [hinput] at hassignment
        exact abandons_assign_push rfl rfl hassignment
      | some l =>
        rw [hinput] at hassignment
        dsimp only at hassignment ⊢
        cases hx : readTyped? l with
        | some x =>
          rw [hx] at hassignment
          exact abandons_assign_push rfl rfl hassignment
        | none =>
          rw [hx] at hassignment
          exact abandons_error hassignment rfl
    · rw [bind_of_error hverify]
      rw [if_neg ha] at hassignment
      exact abandons_error hassignment rfl
  · rw [bind_of_error hrun]
    refine abandons_error ?_ hsame
    rw [Instruction.assignment?, hahead, Option.bind_none]

/-- Behind an action that leaves the symbols alone, a failure leaves what it
leaves from there on. -/
theorem Leaves.of_bind_error {t : SymbolTable} {x : Exec α} {f : α → Exec β}
    (hx : Leaves x) (hm : m.symbols = t) (h : (x >>= f) m = .error e m')
    (hf : ∀ a m₁, x m = .ok a m₁ → m₁.symbols = t → f a m₁ = .error e m' →
      m'.symbols = t) :
    m'.symbols = t := by
  have hsame := hx m
  rcases bind_cases x f m with ⟨e₁, m₁, hrun, heq⟩ | ⟨a, m₁, hrun, heq⟩
  · cases heq.symm.trans h
    rw [hrun] at hsame
    exact hsame.trans hm
  · rw [hrun] at hsame
    exact hf a m₁ hrun (hsame.trans hm) (heq.symm.trans h)

/-- Taking an item leaves one item less. -/
theorem size_of_popDatum {d : Datum} (h : onStack Stack.pop m = .ok d m₁) :
    m₁.stack.size + 1 = m.stack.size := by
  have htop := top_of_pop h
  rcases Stack.pop_cases m.stack with ⟨f, hpop⟩ | ⟨d', -, hpop⟩
  · rw [onStack, hpop] at h
    cases h
  · rw [onStack, hpop] at h
    cases h
    have hpos : 0 < m.stack.items.size := Array.size_pos_of_mem (Array.mem_of_back? htop)
    simp only [Stack.size, Array.size_pop]
    omega

theorem size_of_pop {x : Float} (h : pop m = .ok x m₁) :
    m₁.stack.size + 1 = m.stack.size := by
  obtain ⟨d, m₂, hpop, hrest⟩ := of_bind_ok h
  cases hrest
  exact size_of_popDatum hpop

theorem leaves_stack_ofExcept (r : Except Fault α) :
    Action.Leaves Machine.stack (ofExcept r) := by
  cases r <;> exact fun _ => rfl

/-- The value that an assignment pushes takes the place of two operands. -/
theorem symbols_of_assignTop_error {op : AssignOp}
    (hsize : m.stack.size ≤ job.limits.stack) (h : assignTop job op m = .error e m') :
    m'.symbols = m.symbols := by
  refine (leaves_onStack _).of_bind_error rfl h fun d m₁ hpop h₁ hrest =>
    leaves_pop.of_bind_error h₁ hrest fun x m₂ hpop' h₂ hrest => ?_
  have hsize₁ := size_of_popDatum hpop
  have hsize₂ := size_of_pop hpop'
  -- without a variable to assign to, the assignment fails before it changes
  -- anything
  cases hd : d.symbol with
  | none =>
    rw [hd] at hrest
    cases hrest
    exact h₂
  | some id =>
    rw [hd] at hrest
    dsimp only at hrest
    rcases verifyAssignable_cases id m₂ with ⟨ha, hverify⟩ | ⟨-, e, hverify⟩
    · rw [bind_of_ok hverify, bind_of_ok (symbol_apply id m₂)] at hrest
      refine (leaves_ofExcept _).of_bind_error h₂ hrest fun y m₃ hy h₃ hrest => ?_
      have hstack : m₃.stack = m₂.stack := (leaves_stack_ofExcept _).eq_of_ok hy
      have hroom : m₃.stack.size < job.limits.stack := by
        rw [hstack]
        omega
      obtain ⟨m₄, hrun⟩ := assign_push_of_lt id y y hroom
      cases hrun.symm.trans hrest
    · rw [bind_of_error hverify] at hrest
      cases hrest
      exact h₂

/-- An instruction that fails leaves the symbols as they were, but for an
unfinished assignment. -/
theorem abandons_instruction (hsize : m.stack.size ≤ job.limits.stack) (i : Instruction) :
    Abandons job i m (i.run job m) := by
  cases hassigns : i.mayAssign with
  | false =>
    refine (leaves_instruction job i hassigns).abandons ?_ rfl
    cases i with
    | step | read => cases hassigns
    | _ => rfl
  | true =>
    cases i with
    | assign op =>
      exact abandons_of_none (unfinished?_of_none rfl) (symbols_of_assignTop_error hsize)
    | step how => exact abandons_step job how m
    | read => exact abandons_read job m
    | printTop =>
      refine abandons_of_none (unfinished?_of_none rfl) fun h => ?_
      -- what follows the pop cannot fail
      refine leaves_pop.of_bind_error rfl h fun x m₁ _ _ hrest => ?_
      cases hrest
    | _ => cases hassigns

end Exec

end StackCalc
