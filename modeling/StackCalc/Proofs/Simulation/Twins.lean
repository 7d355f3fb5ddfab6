import StackCalc.Proofs.Simulation.Instructions
import StackCalc.Proofs.Symbol.Growth

/-!
# Machines that run the same code at two places

A run of code is repeated by a run of the same code at another place, with more
symbols in the table and with callers that go on at other places. `Twin` relates
the states of the two runs: the second machine is the first one but for the
place in the code, the places to return to and the additional symbols. One
statement for each instruction says that it keeps the two machines twins.

The height of the operand stack is followed on the way, as far as it is known
(`Setting.sure`). Running the code of a text without definitions leaves the
stack as high as it was; of the bodies of definitions one cannot say that
beforehand, for the kinds of what they call may have changed.
-/

namespace StackCalc

open StackCalc.Action (Mirrors)

/-! ### Twins -/

/-- A frame without the place where its caller goes on. -/
def Frame.bare (f : Frame) : Frame :=
  { f with resume := 0 }

/-- The machine with more symbols, other frames and at another place in the code. -/
def Machine.elsewhere (m : Machine) (more : SymbolTable) (frames : Array Frame)
    (pc : Nat) : Machine :=
  { m with symbols := m.symbols.plus more, frames := ⟨frames⟩, pc }

/-- What does not change while two machines run the code of a stretch. -/
structure Setting where
  /-- The calls that have not returned. -/
  frames : Array Frame
  /-- The same calls in the second machine. -/
  frames' : Array Frame
  /-- Whether the height of the operand stack is known. -/
  sure : Bool

/-- The calls of both machines are the same but for the places to return to. -/
structure Setting.Alike (t : SymbolTable) (c : Setting) : Prop where
  bare : c.frames'.map Frame.bare = c.frames.map Frame.bare
  callee : ∀ f, c.frames.back? = some f → f.symbol < t.size

/-- Two machines that run code generated with the symbols `t`, the first one at
`p` and the second one, which has `more` symbols, at `p'`, with `n` items on
their operand stacks if that is known. -/
structure Twin (t more : SymbolTable) (c : Setting) (p p' n : Nat) (m m' : Machine) :
    Prop where
  other : m' = m.elsewhere more c.frames' p'
  pc : m.pc = p
  frames : m.frames = ⟨c.frames⟩
  onward : m.returning = false
  symbols : t.Assigned m.symbols
  level : c.sure = true → m.stack.size = n

/-- A frame and the same one in the second machine, which may return to another
place. -/
structure Setting.Top (c : Setting) (f : Frame) (r : Nat) : Prop where
  top : c.frames.back? = some f
  top' : c.frames'.back? = some { f with resume := r }

/-- Two machines after a return from the frame on top, with `k` values returned. -/
structure Returning (t more : SymbolTable) (c : Setting) (f : Frame) (r k : Nat)
    (m m' : Machine) :
    Prop where
  other : m' = m.elsewhere more c.frames'.pop r
  pc : m.pc = f.resume
  frames : m.frames = ⟨c.frames.pop⟩
  under_way : m.returning = true
  symbols : t.Assigned m.symbols
  level : m.stack.size = f.height - f.count + k

/-- Two machines after a return; how many values were returned depends on what
was called. -/
def Gone (t more : SymbolTable) (c : Setting) (m m' : Machine) : Prop :=
  ∃ f r, c.Top f r ∧
    (((t.get f.symbol).kind ≠ .procedure ∧ Returning t more c f r 1 m m') ∨
      ((t.get f.symbol).kind ≠ .function ∧ Returning t more c f r 0 m m'))

section

variable {t more : SymbolTable} {c : Setting} {p p' n : Nat} {m m' : Machine}

/-- Symbols that the code was generated with are the same for both. -/
theorem Twin.get_plus (h : Twin t more c p p' n m m') {id : Nat} (hid : id < t.size) :
    m'.symbols.get id = m.symbols.get id := by
  rw [h.other]
  exact SymbolTable.get_plus_of_lt (h.symbols.size.symm ▸ hid) more

/-- The calls at hand are the same but for the places to return to. -/
theorem Setting.Alike.back? (hc : c.Alike t) :
    c.frames'.back?.map Frame.bare = c.frames.back?.map Frame.bare := by
  have hmap : ∀ F : Array Frame, F.back?.map Frame.bare = (F.map Frame.bare).back? :=
    fun F => by
    simp [Array.back?]
  rw [hmap, hmap, hc.bare]

theorem Setting.Alike.size (hc : c.Alike t) : c.frames'.size = c.frames.size := by
  simpa using congrArg Array.size hc.bare

/-- The frames on top of both differ only in the place to return to. -/
theorem Setting.Alike.top (hc : c.Alike t) {f : Frame} (hf : c.frames.back? = some f) :
    ∃ r, c.Top f r := by
  have hback := hc.back?
  rw [hf] at hback
  obtain ⟨f', hf', hbare⟩ := Option.map_eq_some_iff.mp hback
  refine ⟨f'.resume, hf, hf'.trans (congrArg some ?_)⟩
  obtain ⟨_, _, _, _⟩ := f
  obtain ⟨_, _, _, _⟩ := f'
  simp only [Frame.bare, Frame.mk.injEq] at hbare
  obtain ⟨rfl, rfl, -, rfl⟩ := hbare
  rfl

end

namespace Exec

variable {α : Type} {t more : SymbolTable} {c : Setting} {p p' n n' q q' : Nat}
  {job job' : Job} {m m' : Machine} {R Q : Machine → Machine → Prop}

/-! ### Single actions -/

theorem mirrors_fail (kind : FaultKind) (note : String) (y : Exec α) :
    Mirrors R Q (fail kind note) y :=
  .of_error fun _ => ⟨_, _, rfl⟩

theorem mirrors_internal (note : String) (y : Exec α) : Mirrors R Q (internal note) y :=
  mirrors_fail _ note y

theorem mirrors_failAbout (kind : FaultKind) (id : Nat) (y : Exec α) :
    Mirrors R Q (failAbout kind id) y :=
  .of_error fun _ => ⟨_, _, rfl⟩

theorem mirrors_pure (a : α) : Mirrors R R (pure a : Exec α) (pure a) :=
  .pure (fun _ _ h => h) a

/-- A computed value or fault is the same for both. -/
theorem mirrors_ofExcept (r : Except Fault α) :
    Mirrors R R (ofExcept r) (ofExcept r) := by
  cases r with
  | ok a => exact mirrors_pure a
  | error f => exact .of_error fun _ => ⟨_, _, rfl⟩

/-- An action on the operand stack, by what it does to the height. -/
theorem twin_onStack {act : EStateM Fault (Stack Datum) α}
    (hsize : ∀ S a S', act S = .ok a S' → S.size = n → S'.size = n') :
    Mirrors (Twin t more c p p' n) (Twin t more c p p' n') (onStack act)
      (onStack act) := by
  rintro m _ a m₁ h hrun
  obtain rfl := h.other
  cases hact : act m.stack with
  | error f S =>
    rw [onStack, hact] at hrun
    cases hrun
  | ok b S =>
    rw [onStack, hact] at hrun
    cases hrun
    refine ⟨_, ?_, ⟨rfl, h.pc, h.frames, h.onward, h.symbols,
      fun hs => hsize _ _ _ hact (h.level hs)⟩⟩
    have hact' : act (m.elsewhere more c.frames' p').stack = .ok a S := hact
    rw [onStack, hact']
    rfl

theorem size_push_eq {capacity : Nat} {kind : FaultKind} {d : Datum}
    {S S' : Stack Datum} {a : Unit} (h : Stack.push capacity kind d S = .ok a S') :
    S'.size = S.size + 1 := by
  rw [Stack.push] at h
  split at h
  · cases h
  · cases h
    exact Array.size_push d

/-- A pop makes it one lower. -/
theorem size_pop_eq {d : Datum} {S S' : Stack Datum} (h : Stack.pop S = .ok d S') :
    S.size = S'.size + 1 := by
  rw [Stack.pop] at h
  split at h
  · rename_i htop
    cases h
    have hpos : 0 < S.items.size := by
      rw [Array.size_pos_iff]
      rintro hempty
      rw [Stack.top?, hempty] at htop
      cases htop
    show S.items.size = S.items.pop.size + 1
    rw [Array.size_pop]
    omega
  · cases h

theorem twin_pushDatum (hlimits : job'.limits = job.limits) (d : Datum) :
    Mirrors (Twin t more c p p' n) (Twin t more c p p' (n + 1)) (pushDatum job d)
      (pushDatum job' d) := by
  rw [pushDatum, pushDatum, hlimits]
  exact twin_onStack fun _ _ _ hpush hn =>
    (size_push_eq hpush).trans (congrArg (· + 1) hn)

theorem twin_push (hlimits : job'.limits = job.limits) (x : Float) :
    Mirrors (Twin t more c p p' n) (Twin t more c p p' (n + 1)) (push job x)
      (push job' x) :=
  twin_pushDatum hlimits _

theorem twin_popDatum :
    Mirrors (Twin t more c p p' (n + 1)) (Twin t more c p p' n) (onStack Stack.pop)
      (onStack Stack.pop) :=
  twin_onStack fun _ _ _ hpop hn => Nat.succ.inj ((size_pop_eq hpop).symm.trans hn)

theorem twin_pop : Mirrors (Twin t more c p p' (n + 1)) (Twin t more c p p' n) pop pop :=
  twin_popDatum.map _

/-- The cell that follows is the same for both. -/
theorem twin_operand {cell : Cell} (h : job.cells[p]? = some cell)
    (h' : job'.cells[p']? = some cell) {f g : Cell → Exec α}
    (hf : Mirrors (Twin t more c (p + 1) (p' + 1) n) Q (f cell) (g cell)) :
    Mirrors (Twin t more c p p' n) Q (operand job >>= f) (operand job' >>= g) := by
  rintro m _ a m₁ hm hrun
  obtain rfl := hm.other
  obtain rfl := hm.pc
  have hoperand : operand job m = .ok cell { m with pc := m.pc + 1 } := by
    rw [operand, Action.bind_of_ok (Action.get_apply m), h]
    rfl
  have hoperand' : operand job' (m.elsewhere more c.frames' p') =
      .ok cell (m.elsewhere more c.frames' (p' + 1)) := by
    have hcell : job'.cells[(m.elsewhere more c.frames' p').pc]? = some cell := h'
    rw [operand, Action.bind_of_ok (Action.get_apply _), hcell]
    rfl
  rw [Action.bind_of_ok hoperand] at hrun
  rw [Action.bind_of_ok hoperand']
  have hnext : Twin t more c (m.pc + 1) (p' + 1) n { m with pc := m.pc + 1 }
      (m.elsewhere more c.frames' (p' + 1)) :=
    ⟨rfl, rfl, hm.frames, hm.onward, hm.symbols, hm.level⟩
  exact hf _ _ _ _ hnext hrun

/-- The symbol that follows is the same for both. -/
theorem twin_symbolOperand {id : Nat} (h : job.cells[p]? = some (.symbol id))
    (h' : job'.cells[p']? = some (.symbol id)) {f g : Nat → Exec α}
    (hf : Mirrors (Twin t more c (p + 1) (p' + 1) n) Q (f id) (g id)) :
    Mirrors (Twin t more c p p' n) Q (symbolOperand job >>= f)
      (symbolOperand job' >>= g) := by
  rw [symbolOperand, symbolOperand, bind_assoc, bind_assoc]
  exact twin_operand h h' (by simpa only [pure_bind] using hf)

theorem twin_countOperand {k : Nat} (h : job.cells[p]? = some (.count k))
    (h' : job'.cells[p']? = some (.count k)) {f g : Nat → Exec α}
    (hf : Mirrors (Twin t more c (p + 1) (p' + 1) n) Q (f k) (g k)) :
    Mirrors (Twin t more c p p' n) Q (countOperand job >>= f)
      (countOperand job' >>= g) := by
  rw [countOperand, countOperand, bind_assoc, bind_assoc]
  exact twin_operand h h' (by simpa only [pure_bind] using hf)

theorem twin_symbol {id : Nat} (hid : id < t.size) :
    Mirrors (Twin t more c p p' n) (Twin t more c p p' n) (symbol id) (symbol id) := by
  rintro m m' a m₁ h ⟨⟩
  refine ⟨m', ?_, h⟩
  rw [symbol_apply, h.get_plus hid]

/-- A symbol that may be assigned to. -/
def Assignable (id : Nat) (m : Machine) : Prop :=
  (m.symbols.get id).isAssignable

/-- Looking does not change what may be assigned to. -/
theorem assignable_of_leaves {id : Nat} {x : Exec α} (hx : Leaves x) {a : α}
    (h : x m = .ok a m') (hm : Assignable id m) : Assignable id m' := by
  rw [Assignable, hx.eq_of_ok h]
  exact hm

/-- A variable that has a value may be assigned to. -/
theorem twin_verify {id : Nat} (hid : id < t.size) :
    Mirrors (Twin t more c p p' n) (fun m m' => Twin t more c p p' n m m' ∧
      Assignable id m) (verify id) (verify id) := by
  refine Mirrors.also ((twin_symbol hid).bind fun s => ?_) fun m a m₁ hrun => ?_
  · split
    · exact mirrors_pure _
    · exact mirrors_failAbout _ _ _
    · exact mirrors_failAbout _ _ _
  · rcases verify_cases id m with ⟨hok, hm⟩ | ⟨-, e, he⟩
    · cases hm.symm.trans hrun
      exact Symbol.isAssignable_of_var hok
    · exact nomatch he.symm.trans hrun

/-- A symbol passes the check in both or in neither. -/
theorem twin_verifyAssignable {id : Nat} (hid : id < t.size) :
    Mirrors (Twin t more c p p' n) (fun m m' => Twin t more c p p' n m m' ∧
      Assignable id m) (verifyAssignable id) (verifyAssignable id) := by
  refine Mirrors.also ((twin_symbol hid).bind fun s => ?_) fun m a m₁ hrun => ?_
  · split
    · exact mirrors_pure _
    · exact mirrors_failAbout _ _ _
  · rcases verifyAssignable_cases id m with ⟨hok, hm⟩ | ⟨-, e, he⟩
    · cases hm.symm.trans hrun
      exact hok
    · exact nomatch he.symm.trans hrun

/-- An assignment to a symbol that passed the check. -/
theorem twin_assign {id : Nat} (hid : id < t.size) (x : Float) :
    Mirrors (fun m m' => Twin t more c p p' n m m' ∧ Assignable id m)
      (Twin t more c p p' n) (assign id x) (assign id x) := by
  rintro m _ a m₁ ⟨h, hassignable⟩ ⟨⟩
  obtain rfl := h.other
  have hid' : id < m.symbols.size := h.symbols.size.symm ▸ hid
  refine ⟨_, rfl, ⟨?_, h.pc, h.frames, h.onward, h.symbols.modify hassignable x, h.level⟩⟩
  show { m.elsewhere more c.frames' p' with
    symbols := (m.symbols.plus more).modify id (Symbol.assigned x) } = _
  rw [SymbolTable.modify_plus hid']
  rfl

/-- An assignment after a check, and the value it leaves. -/
theorem twin_assign_push (hlimits : job'.limits = job.limits) {id : Nat}
    (hid : id < t.size) (x y : Float) :
    Mirrors (fun m m' => Twin t more c p p' n m m' ∧ Assignable id m)
      (Twin t more c p p' (n + 1)) (assign id x >>= fun _ => push job y)
      (assign id x >>= fun _ => push job' y) :=
  (twin_assign hid x).bind fun _ => twin_push hlimits y

/-- A write, of which the console and the signals of both know the same. -/
theorem twin_print (w : Write) :
    Mirrors (Twin t more c p p' n) (Twin t more c p p' n) (print w) (print w) := by
  rintro m _ a m₁ h ⟨⟩
  obtain rfl := h.other
  have hwrite : (m.elsewhere more c.frames' p').write w =
      (m.write w).elsewhere more c.frames' p' := by
    unfold Machine.write Machine.elsewhere
    dsimp only
    split <;> rfl
  have hsame : (m.write w).pc = m.pc ∧ (m.write w).frames = m.frames ∧
      (m.write w).returning = m.returning ∧ (m.write w).symbols = m.symbols ∧
      (m.write w).stack = m.stack := by
    unfold Machine.write
    dsimp only
    split <;> exact ⟨rfl, rfl, rfl, rfl, rfl⟩
  obtain ⟨hpc, hframes, hreturning, hsymbols, hstack⟩ := hsame
  refine ⟨_, rfl, hwrite, hpc.trans h.pc, hframes.trans h.frames,
    hreturning.trans h.onward, ?_, ?_⟩
  · show t.Assigned (m.write w).symbols
    rw [hsymbols]
    exact h.symbols
  · show c.sure = true → (m.write w).stack.size = n
    rw [hstack]
    exact h.level

theorem twin_readLine : Mirrors (Twin t more c p p' n) (Twin t more c p p' n) readLine
    readLine := by
  rintro m _ a m₁ h ⟨⟩
  obtain rfl := h.other
  exact ⟨_, rfl, rfl, h.pc, h.frames, h.onward, h.symbols, h.level⟩

/-! ### The call at hand -/

/-- The frame on top, but for the place to return to. -/
theorem twin_frame (hc : c.Alike t) {f g : Frame → Exec α}
    (hf : ∀ fr r, c.Top fr r →
      Mirrors (Twin t more c p p' n) Q (f fr) (g { fr with resume := r })) :
    Mirrors (Twin t more c p p' n) Q (frame >>= f) (frame >>= g) := by
  rintro m _ a m₁ h hrun
  obtain rfl := h.other
  cases htop : c.frames.back? with
  | none =>
    have hframe : frame m = internal "return outside call" m := by
      rw [frame, Action.bind_of_ok (Action.get_apply m), h.frames, Stack.top?, htop]
    rw [Action.bind_of_error hframe] at hrun
    cases hrun
  | some fr =>
    obtain ⟨r, htops⟩ := hc.top htop
    have hframe : frame m = .ok fr m := by
      rw [frame, Action.bind_of_ok (Action.get_apply m), h.frames, Stack.top?, htop]
      rfl
    have hframe' : frame (m.elsewhere more c.frames' p') =
        .ok { fr with resume := r } (m.elsewhere more c.frames' p') := by
      have hback : (m.elsewhere more c.frames' p').frames.top? =
          some { fr with resume := r } :=
        htops.top'
      rw [frame, Action.bind_of_ok (Action.get_apply _), hback]
      rfl
    rw [Action.bind_of_ok hframe] at hrun
    rw [Action.bind_of_ok hframe']
    exact hf fr r htops _ _ _ _ h hrun

/-- Looking at the machine, of which both have the same operand stack. -/
theorem twin_get {f g : Machine → Exec α}
    (hf : ∀ m₀ m₀', m₀'.stack = m₀.stack →
      Mirrors (fun m m' => Twin t more c p p' n m m' ∧ m.stack = m₀.stack) Q
        (f m₀) (g m₀')) :
    Mirrors (Twin t more c p p' n) Q (get >>= f) (get >>= g) := by
  rintro m _ a m₁ h hrun
  obtain rfl := h.other
  exact hf m (m.elsewhere more c.frames' p') rfl _ _ _ _ ⟨h, rfl⟩ hrun

/-- A return drops the frame and the arguments, and goes on where the caller
does. -/
theorem twin_leave {f : Frame} {r : Nat} (hf : c.Top f r) :
    Mirrors (Twin t more c p p' n) (Returning t more c f r 0) leave leave := by
  rintro m _ a m₁ h hrun
  obtain rfl := h.other
  have hpop : onFrames Stack.pop m = .ok f { m with frames := ⟨c.frames.pop⟩ } := by
    rw [onFrames, h.frames, Stack.pop, Stack.top?, hf.top]
  have hpop' : onFrames Stack.pop (m.elsewhere more c.frames' p') =
      .ok { f with resume := r } (m.elsewhere more c.frames'.pop p') := by
    have hframes : (m.elsewhere more c.frames' p').frames = ⟨c.frames'⟩ := rfl
    rw [onFrames, hframes, Stack.pop, Stack.top?, hf.top']
    rfl
  rw [leave, Action.bind_of_ok hpop] at hrun
  rw [leave, Action.bind_of_ok hpop']
  by_cases hsize : m.stack.size = f.height
  · have hne : ¬ m.stack.size ≠ f.height := fun hne => hne hsize
    have htruncate : Stack.truncate (f.height - f.count) m.stack =
        .ok () ⟨m.stack.items.take (f.height - f.count)⟩ := by
      rw [Stack.truncate, if_neg (by omega)]
    change (if m.stack.size ≠ f.height then internal "unbalanced return"
      else onStack (Stack.truncate (f.height - f.count)) >>= fun _ =>
        modify fun m => { m with pc := f.resume, returning := true } : Exec Unit) _ =
          _ at hrun
    change ∃ t', (if m.stack.size ≠ f.height then internal "unbalanced return"
      else onStack (Stack.truncate (f.height - f.count)) >>= fun _ =>
        modify fun m => { m with pc := r, returning := true } : Exec Unit) _ = .ok a t' ∧
          _
    have hstack := @onStack_of_ok _ _ { m with frames := ⟨c.frames.pop⟩ } _ _ htruncate
    have hstack' := @onStack_of_ok _ _ (m.elsewhere more c.frames'.pop p') _ _ htruncate
    rw [if_neg hne, Action.bind_of_ok hstack] at hrun
    cases hrun
    refine ⟨_, ?_, ⟨rfl, rfl, rfl, rfl, h.symbols, ?_⟩⟩
    · rw [if_neg hne, Action.bind_of_ok hstack']
      rfl
    · have hle : f.height - f.count ≤ m.stack.items.size := by
        have hsize' : m.stack.items.size = f.height := hsize
        omega
      show (m.stack.items.take (f.height - f.count)).size = f.height - f.count + 0
      simp [Nat.min_eq_left hle]
  · change (if m.stack.size ≠ f.height then internal "unbalanced return"
      else _ : Exec Unit) _ = _ at hrun
    rw [if_pos hsize] at hrun
    cases hrun

/-! ### Instructions -/

section

variable (hlimits : job'.limits = job.limits)

include hlimits

theorem twin_constPush {x : Float} (h : job.cells[p]? = some (.number x))
    (h' : job'.cells[p']? = some (.number x)) :
    Mirrors (Twin t more c p p' n) (Twin t more c (p + 1) (p' + 1) (n + 1))
      (Instruction.constPush.run job) (Instruction.constPush.run job') :=
  twin_operand h h' (twin_push hlimits x)

/-- A reference is pushed. -/
theorem twin_varPush {id : Nat} (h : job.cells[p]? = some (.symbol id))
    (h' : job'.cells[p']? = some (.symbol id)) :
    Mirrors (Twin t more c p p' n)
      (fun m m' => Twin t more c (p + 1) (p' + 1) (n + 1) m m' ∧
        m.stack.top? = some (.reference id))
      (Instruction.varPush.run job) (Instruction.varPush.run job') := by
  refine twin_symbolOperand h h'
    (Mirrors.also (twin_pushDatum hlimits _) fun m a m₁ hrun => ?_)
  rw [pushDatum, onStack, Stack.push] at hrun
  split at hrun
  · rename_i hpush
    split at hpush
    · cases hpush
    · cases hpush
      cases hrun
      exact Array.back?_push
  · cases hrun

omit hlimits in
/-- The item on top is known. -/
theorem twin_popKnown {d : Datum} {f g : Datum → Exec α}
    (hf : Mirrors (Twin t more c p p' n) Q (f d) (g d)) :
    Mirrors (fun m m' => Twin t more c p p' (n + 1) m m' ∧ m.stack.top? = some d) Q
      (onStack Stack.pop >>= f) (onStack Stack.pop >>= g) := by
  rintro m m' a m₁ ⟨h, htop⟩ hrun
  have hpop : onStack Stack.pop m = .ok d { m with stack := ⟨m.stack.items.pop⟩ } := by
    refine onStack_of_ok ?_
    rw [Stack.pop, htop]
  obtain ⟨m₂', hpop', h₂⟩ := twin_popDatum _ _ _ _ h hpop
  rw [Action.bind_of_ok hpop] at hrun
  rw [Action.bind_of_ok hpop']
  exact hf _ _ _ _ h₂ hrun

theorem twin_eval {id : Nat} (hid : id < t.size) :
    Mirrors (fun m m' => Twin t more c p p' (n + 1) m m' ∧
      m.stack.top? = some (.reference id)) (Twin t more c p p' (n + 1)) (eval job)
        (eval job') :=
  twin_popKnown ((twin_verify hid).bind fun _ =>
    ((twin_symbol hid).bind fun s => twin_push hlimits s.value).mono (fun _ _ h => h.1)
      fun _ _ h => h)

/-- An operator replaces two values by one. -/
theorem twin_binary (op : BinaryOp) :
    Mirrors (Twin t more c p p' (n + 2)) (Twin t more c p p' (n + 1)) (binary job op)
      (binary job' op) := by
  have hpop : Mirrors (Twin t more c p p' (n + 2)) (Twin t more c p p' n)
      (onStack Stack.popTwo) (onStack Stack.popTwo) := by
    refine twin_onStack fun S _ S' hpop hn => ?_
    obtain ⟨b, S₁, hfirst, hrest⟩ := Action.of_bind_ok hpop
    obtain ⟨a, S₂, hsecond, hdone⟩ := Action.of_bind_ok hrest
    cases hdone
    have := size_pop_eq hfirst
    have := size_pop_eq hsecond
    omega
  exact hpop.bind fun ab => (mirrors_ofExcept _).bind fun y => twin_push hlimits y

theorem twin_unary {op : Operator} {i : Instruction} (hop : op.unaryOp? = some i) :
    Mirrors (Twin t more c p p' (n + 1)) (Twin t more c p p' (n + 1)) (i.run job)
      (i.run job') := by
  cases op with
  | minus =>
    cases hop
    exact twin_pop.bind fun x => twin_push hlimits _
  | not =>
    cases hop
    exact twin_pop.bind fun x => twin_push hlimits _
  | _ => exact nomatch hop

/-- An assignment takes a value and a reference, and leaves a value. -/
theorem twin_assignTop {id : Nat} (hid : id < t.size) (op : AssignOp) :
    Mirrors (fun m m' => Twin t more c p p' (n + 2) m m' ∧
      m.stack.top? = some (.reference id)) (Twin t more c p p' (n + 1)) (assignTop job op)
        (assignTop job' op) := by
  have hkeep : ∀ {β : Type} {x : Exec β}, Leaves x → ∀ m a m₁,
      x m = .ok a m₁ → Assignable id m →
      Assignable id m₁ := fun hx _ _ _ hrun hm => assignable_of_leaves hx hrun hm
  exact twin_popKnown (twin_pop.bind fun x => (twin_verifyAssignable hid).bind fun _ =>
    (Mirrors.keeping (twin_symbol hid) (hkeep (leaves_symbol id))).bind fun s =>
      (Mirrors.keeping (mirrors_ofExcept _) (hkeep (leaves_ofExcept _))).bind fun y =>
        twin_assign_push hlimits hid y y)

theorem twin_step {id : Nat} (hid : id < t.size) (h : job.cells[p]? = some (.symbol id))
    (h' : job'.cells[p']? = some (.symbol id)) (how : Step) :
    Mirrors (Twin t more c p p' n) (Twin t more c (p + 1) (p' + 1) (n + 1)) (step job how)
      (step job' how) :=
  twin_symbolOperand h h' ((twin_verify hid).bind fun _ =>
    (Mirrors.keeping (twin_symbol hid) fun _ _ _ hrun hm =>
      assignable_of_leaves (leaves_symbol id) hrun hm).bind fun _ =>
        twin_assign_push hlimits hid _ _)

/-- A line that is read leaves a value. -/
theorem twin_read {id : Nat} (hid : id < t.size) (h : job.cells[p]? = some (.symbol id))
    (h' : job'.cells[p']? = some (.symbol id)) :
    Mirrors (Twin t more c p p' n) (Twin t more c (p + 1) (p' + 1) (n + 1)) (read job)
      (read job') := by
  refine twin_symbolOperand h h' ((twin_verifyAssignable hid).bind fun _ =>
    (Mirrors.keeping twin_readLine fun _ _ _ hrun hm =>
      assignable_of_leaves leaves_readLine hrun hm).bind fun l => ?_)
  cases l with
  | none => exact twin_assign_push hlimits hid _ _
  | some l =>
    dsimp only
    split
    · exact twin_assign_push hlimits hid _ _
    · exact mirrors_failAbout _ _ _

theorem twin_builtin {id : Nat} (hid : id < t.size)
    (h : job.cells[p]? = some (.symbol id)) (h' : job'.cells[p']? = some (.symbol id)) :
    Mirrors (Twin t more c p p' (n + 1)) (Twin t more c (p + 1) (p' + 1) (n + 1))
      (builtin job) (builtin job') := by
  refine twin_symbolOperand h h' ((twin_symbol hid).bind fun s => ?_)
  split
  · exact twin_pop.bind fun x => (mirrors_ofExcept _).bind fun y => twin_push hlimits y
  · exact mirrors_internal _ _

omit hlimits in
theorem twin_printValue (job job' : Job) :
    Mirrors (Twin t more c p p' (n + 1)) (Twin t more c p p' n)
      (Instruction.printValue.run job) (Instruction.printValue.run job') :=
  twin_pop.bind fun x => twin_print (.value x)

omit hlimits in
theorem twin_printText {text : String} (h : job.cells[p]? = some (.text text))
    (h' : job'.cells[p']? = some (.text text)) :
    Mirrors (Twin t more c p p' n) (Twin t more c (p + 1) (p' + 1) n)
      (Instruction.printText.run job) (Instruction.printText.run job') :=
  twin_operand h h' (twin_print _)

omit hlimits in
theorem twin_drop (job job' : Job) :
    Mirrors (Twin t more c p p' (n + 1)) (Twin t more c p p' n) (Instruction.pop.run job)
      (Instruction.pop.run job') :=
  twin_pop.map fun _ => ()

omit hlimits in
/-- An argument has the same place in both stacks. -/
theorem twin_argPlace (hc : c.Alike t) {k : Nat} (h : job.cells[p]? = some (.count k))
    (h' : job'.cells[p']? = some (.count k)) :
    Mirrors (Twin t more c p p' n) (Twin t more c (p + 1) (p' + 1) n) (argPlace job)
      (argPlace job') := by
  refine twin_countOperand h h' (twin_frame hc fun fr r _ => ?_)
  dsimp only
  split
  · exact mirrors_internal _ _
  · split
    · exact mirrors_failAbout _ _ _
    · exact mirrors_pure _

theorem twin_arg (hc : c.Alike t) {k : Nat} (h : job.cells[p]? = some (.count k))
    (h' : job'.cells[p']? = some (.count k)) :
    Mirrors (Twin t more c p p' n) (Twin t more c (p + 1) (p' + 1) (n + 1)) (arg job)
      (arg job') := by
  refine (twin_argPlace hc h h').bind fun i => twin_get fun m₀ m₀' hstack => ?_
  rw [hstack]
  split
  · exact (twin_push hlimits _).mono (fun _ _ hm => hm.1) fun _ _ hm => hm
  · exact mirrors_internal _ _

omit hlimits in
/-- The operand stack is replaced by one of the same height. -/
theorem twin_setStack {S S' : Stack Datum} (hsize : S'.size = S.size) :
    Mirrors (fun m m' => Twin t more c p p' n m m' ∧ m.stack = S) (Twin t more c p p' n)
      (modify fun m => { m with stack := S' } : Exec Unit)
      (modify fun m => { m with stack := S' }) := by
  rintro m _ a m₁ ⟨h, rfl⟩ ⟨⟩
  obtain rfl := h.other
  exact ⟨_, rfl, rfl, h.pc, h.frames, h.onward, h.symbols,
    fun hs => hsize.trans (h.level hs)⟩

/-- An argument is assigned to, and the value stays on top. -/
theorem twin_argAssign (hc : c.Alike t) {k : Nat} (h : job.cells[p]? = some (.count k))
    (h' : job'.cells[p']? = some (.count k)) :
    Mirrors (Twin t more c p p' (n + 1)) (Twin t more c (p + 1) (p' + 1) (n + 1))
      (argAssign job) (argAssign job') := by
  refine (twin_argPlace hc h h').bind fun i => twin_pop.bind fun x =>
    twin_get fun m₀ m₀' hstack => ?_
  dsimp only
  rw [hstack]
  split
  · split
    · rename_i S' hset
      have hsize : S'.size = m₀.stack.size := by
        rw [Stack.set?] at hset
        split at hset
        · cases hset
          exact Array.size_setIfInBounds
        · exact nomatch hset
      exact (twin_setStack hsize).bind fun _ => twin_push hlimits x
    · exact mirrors_internal _ _
  · exact mirrors_internal _ _

end

/-! ### Returns -/

/-- What a symbol is when it is looked at, it was when the code was generated. -/
theorem twin_kind {id : Nat} (hid : id < t.size) {f g : Symbol → Exec α}
    (hf : ∀ s : Symbol, (s.kind = .procedure ↔ (t.get id).kind = .procedure) →
      (s.kind = .function ↔ (t.get id).kind = .function) →
      Mirrors (Twin t more c p p' n) Q (f s) (g s)) :
    Mirrors (Twin t more c p p' n) Q (symbol id >>= f) (symbol id >>= g) := by
  rintro m m' a m₁ h hrun
  rw [Action.bind_of_ok (symbol_apply id m)] at hrun
  rw [Action.bind_of_ok (symbol_apply id m'), h.get_plus hid]
  exact hf _ (h.symbols.kind_iff (by decide) (by decide) id)
    (h.symbols.kind_iff (by decide) (by decide) id) _ _ _ _ h hrun

/-- What is pushed behind a return is what the call leaves. -/
theorem returning_push (hlimits : job'.limits = job.limits) {f : Frame}
    {r k : Nat} (x : Float) :
    Mirrors (Returning t more c f r k) (Returning t more c f r (k + 1)) (push job x)
      (push job' x) := by
  rintro m _ a m₁ h hrun
  obtain rfl := h.other
  rw [push, pushDatum, onStack] at hrun
  split at hrun
  · rename_i hpush
    cases hrun
    refine ⟨_, ?_, ⟨rfl, h.pc, h.frames, h.under_way, h.symbols, ?_⟩⟩
    · rw [push, pushDatum, hlimits]
      exact onStack_of_ok hpush
    · exact (size_push_eq hpush).trans (congrArg (· + 1) h.level)
  · cases hrun

/-- A return with a value leaves one, and not from a procedure. -/
theorem twin_returnValue (hlimits : job'.limits = job.limits) (hc : c.Alike t) :
    Mirrors (Twin t more c p p' (n + 1)) (Gone t more c) (returnValue job)
      (returnValue job') := by
  refine twin_frame hc fun fr r htop =>
    twin_kind (hc.callee fr htop.top) fun s hproc _ => ?_
  split
  · exact mirrors_failAbout _ _ _
  · rename_i hkind
    refine (twin_pop.bind fun x => (twin_leave htop).bind fun _ =>
      returning_push hlimits x).mono (fun _ _ h => h) fun _ _ h => ?_
    exact ⟨fr, r, htop, .inl ⟨mt hproc.mpr hkind, h⟩⟩

/-- A return without a value leaves none, and not from a function. -/
theorem twin_returnNothing (hc : c.Alike t) :
    Mirrors (Twin t more c p p' n) (Gone t more c) returnNothing returnNothing := by
  refine twin_frame hc fun fr r htop =>
    twin_kind (hc.callee fr htop.top) fun s _ hfunc => ?_
  split
  · exact mirrors_failAbout _ _ _
  · rename_i hkind
    exact (twin_leave htop).mono (fun _ _ h => h) fun _ _ h =>
      ⟨fr, r, htop, .inr ⟨mt hfunc.mpr hkind, h⟩⟩

/-! ### Cells -/

section

variable {enter enter' : Nat → Exec Unit} {fuel : Nat}

/-- The same operation at both places; something is known of the operand stack. -/
theorem twin_op_on {P : Stack Datum → Prop} {o : Opcode}
    (h : job.cells[p]? = some (.op o)) (h' : job'.cells[p']? = some (.op o))
    (ho : Mirrors (fun m m' => Twin t more c (p + 1) (p' + 1) n m m' ∧ P m.stack) Q
      (operation job enter fuel o) (operation job' enter' fuel o)) :
    Mirrors (fun m m' => Twin t more c p p' n m m' ∧ P m.stack) Q
      (advance job enter fuel 1) (advance job' enter' fuel 1) := by
  rintro m _ a m₁ ⟨hm, hP⟩ hrun
  obtain rfl := hm.other
  obtain rfl := hm.pc
  cases hi : m.interrupted with
  | true =>
    have hone : advance job enter fuel 1 m = _ :=
      Action.bind_of_error (cell_of_interrupted hm.onward hi)
    exact nomatch hone.symm.trans hrun
  | false =>
    have hone := @cell_of_op job enter fuel m hm.onward hi o h
    have hone' := @cell_of_op job' enter' fuel (m.elsewhere more c.frames' p')
      hm.onward hi o h'
    have hnext : Twin t more c (m.pc + 1) (p' + 1) n { m with pc := m.pc + 1 }
        (m.elsewhere more c.frames' (p' + 1)) :=
      ⟨rfl, rfl, hm.frames, hm.onward, hm.symbols, hm.level⟩
    rw [advance, Action.bind_congr hone, bind_assoc] at hrun
    rw [advance, Action.bind_congr hone', bind_assoc]
    obtain ⟨u, m₂, hrun, hdone⟩ := Action.of_bind_ok hrun
    cases hdone
    obtain ⟨m₂', hrun', hQ⟩ := ho _ _ _ _ ⟨hnext, hP⟩ hrun
    exact ⟨m₂', Action.bind_of_ok hrun', hQ⟩

theorem twin_op {o : Opcode} (h : job.cells[p]? = some (.op o))
    (h' : job'.cells[p']? = some (.op o))
    (ho : Mirrors (Twin t more c (p + 1) (p' + 1) n) Q (operation job enter fuel o)
      (operation job' enter' fuel o)) :
    Mirrors (Twin t more c p p' n) Q (advance job enter fuel 1)
      (advance job' enter' fuel 1) :=
  (twin_op_on (P := fun _ => True) h h'
    (ho.mono (fun _ _ hm => hm.1) fun _ _ hm => hm)).mono (fun _ _ hm => ⟨hm, trivial⟩)
      fun _ _ hm => hm

/-- Cells that are run one after the other. -/
theorem mirrors_advance_add {P : Machine → Machine → Prop} {k l : Nat}
    (h : Mirrors R Q (advance job enter fuel k) (advance job' enter' fuel k))
    (h' : Mirrors Q P (advance job enter fuel l) (advance job' enter' fuel l)) :
    Mirrors R P (advance job enter fuel (k + l)) (advance job' enter' fuel (k + l)) := by
  rw [advance_add, advance_add]
  exact h.bind fun _ => h'

end

end Exec

end StackCalc
