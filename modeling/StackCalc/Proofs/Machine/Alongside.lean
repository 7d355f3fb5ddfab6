import StackCalc.Proofs.Machine.Outside
import StackCalc.Proofs.Machine.Tidy

/-!
# Machines that differ in what they have shown

A machine that shows a value keeps it under the name `_`. Two machines are
`Alongside` each other if they differ in what was written and in the symbol of
that name, which one of them may lack. The symbols that code, operands and calls
refer to are known, and `_` is not among them, so an instruction that writes
nothing does the same to both (`Exec.follows_instruction`).
-/

namespace StackCalc

open StackCalc.Action

/-! ### Tables that differ in one symbol -/

/-- Tables that agree but for the symbol of `_`, which the first one may lack. -/
structure SymbolTable.Akin (t t' : SymbolTable) : Prop where
  lookup_eq : ∀ name, name ≠ "_" → t'.lookup name = t.lookup name
  get_eq : ∀ id, t'.lookup "_" ≠ some id → t'.get id = t.get id
  place : t'.lookup "_" = t.lookup "_" ∧ t'.size = t.size ∨
    t.lookup "_" = none ∧ t'.lookup "_" = some t.size ∧ t'.size = t.size + 1

/-- Such tables, where the symbol of `_` is not a known one. -/
structure SymbolTable.Apart (known : Nat → Prop) (t t' : SymbolTable) :
    Prop extends t.Akin t' where
  known_lt : ∀ id, known id → id < t.size
  known_ne : ∀ id, known id → t.lookup "_" ≠ some id

namespace SymbolTable.Apart

variable {known : Nat → Prop} {t t' : SymbolTable} {id : Nat}

/-- A known symbol is in the second table as well, which is no smaller. -/
theorem known_lt' (h : Apart known t t') (hid : known id) : id < t'.size := by
  have hlt := h.known_lt id hid
  rcases h.place with ⟨-, hsize⟩ | ⟨-, -, hsize⟩ <;> omega

theorem known_ne' (h : Apart known t t') (hid : known id) : t'.lookup "_" ≠ some id := by
  rcases h.place with ⟨hsame, -⟩ | ⟨-, hnew, -⟩
  · rw [hsame]
    exact h.known_ne id hid
  · rw [hnew]
    intro heq
    exact absurd (h.known_lt id hid)
      (Nat.not_lt_of_le (Nat.le_of_eq (Option.some.inj heq)))

theorem get_known (h : Apart known t t') (hid : known id) : t'.get id = t.get id :=
  h.get_eq id (h.known_ne' hid)

/-- A known symbol is changed on both sides. -/
theorem modify_known (h : Apart known t t') (hid : known id) (f : Symbol → Symbol) :
    Apart known (t.modify id f) (t'.modify id f) := by
  refine ⟨⟨h.lookup_eq, fun i hi => ?_, ?_⟩, fun i hi => ?_, h.known_ne⟩
  · by_cases hsame : i = id
    · subst hsame
      rw [get_modify_self _ f (h.known_lt' hid), get_modify_self _ f (h.known_lt i hid),
        h.get_known hid]
    · rw [get_modify_other _ f hsame, get_modify_other _ f hsame]
      exact h.get_eq i hi
  · rw [size_modify, size_modify]
    exact h.place
  · rw [size_modify]
    exact h.known_lt i hi

end SymbolTable.Apart

namespace SymbolTable

/-- The table after a value has been shown. -/
def showing (t : SymbolTable) (x : Float) : SymbolTable :=
  (t.resolve "_").2.modify (t.resolve "_").1 (Symbol.assigned x)

variable (t : SymbolTable) (x : Float)

/-- A value that is shown is kept under `_`. -/
theorem lookup_showing : (t.showing x).lookup "_" = some (t.resolve "_").1 :=
  t.lookup_resolve "_"

theorem lookup_showing_other {name : String} (h : name ≠ "_") :
    (t.showing x).lookup name = t.lookup name := by
  show (t.resolve "_").2.lookup name = t.lookup name
  rcases t.resolve_cases "_" with ⟨id, -, hresolve⟩ | ⟨-, hresolve⟩
  · rw [hresolve]
  · rw [hresolve]
    exact lookup_install_other t _ _ h

theorem get_showing {id : Nat} (h : id ≠ (t.resolve "_").1) :
    (t.showing x).get id = t.get id := by
  rw [showing, get_modify_other _ _ h]
  rcases t.resolve_cases "_" with ⟨u, -, hresolve⟩ | ⟨-, hresolve⟩
  · rw [hresolve]
  · rw [hresolve] at h ⊢
    rw [get_install, if_neg h]

theorem size_showing : (t.showing x).size = (t.resolve "_").2.size :=
  size_modify ..

end SymbolTable

namespace SymbolTable.Apart

variable {known : Nat → Prop} {t t' : SymbolTable}

/-- The second machine shows a value. -/
theorem showing_right (h : Apart known t t') (x : Float) :
    Apart known t (t'.showing x) := by
  have hlookup := t'.lookup_showing x
  refine ⟨⟨fun name hname => ?_, fun id hid => ?_, ?_⟩, h.known_lt, h.known_ne⟩
  · rw [lookup_showing_other t' x hname, h.lookup_eq name hname]
  · rw [hlookup] at hid
    have hne : id ≠ (t'.resolve "_").1 := fun heq => hid (congrArg some heq.symm)
    rw [get_showing t' x hne]
    -- `_` was where it is now, or it is new and leads nowhere else
    refine h.get_eq id fun hold => ?_
    rcases t'.resolve_cases "_" with ⟨u, hu, hresolve⟩ | ⟨hnone, -⟩
    · rw [hresolve] at hne
      exact hne (Option.some.inj (hold.symm.trans hu))
    · rw [hnone] at hold
      cases hold
  · rw [hlookup, size_showing]
    rcases t'.resolve_cases "_" with ⟨u, hu, hresolve⟩ | ⟨hnone, hresolve⟩
    · rw [hresolve, ← hu]
      exact h.place
    · -- the name is new to the second table, so it was unknown to the first one as well
      rcases h.place with ⟨hsame, hsize⟩ | ⟨-, hnew, -⟩
      · refine .inr ⟨hsame.symm.trans hnone, ?_, ?_⟩
        · rw [hresolve, hsize]
        · rw [hresolve, ← hsize]
          exact size_install ..
      · rw [hnone] at hnew
        cases hnew

/-- Both machines show a value. -/
theorem showing_both (h : Apart known t t') (x : Float) :
    Apart known (t.showing x) (t'.showing x) := by
  -- the symbol is at the same place in both tables then
  have hplace : (t'.resolve "_").1 = (t.resolve "_").1 ∧
      (t'.resolve "_").2.size = (t.resolve "_").2.size ∧
      t.size ≤ (t.resolve "_").2.size ∧ ∀ id, known id → id ≠ (t.resolve "_").1 := by
    rcases t.resolve_cases "_" with ⟨u, hu, hresolve⟩ | ⟨hnone, hresolve⟩
    · have hne : ∀ id, known id → id ≠ u :=
        fun id hid heq => h.known_ne id hid (hu.trans (congrArg some heq.symm))
      rcases h.place with ⟨hsame, hsize⟩ | ⟨hnone, -, -⟩
      · have hresolve' : t'.resolve "_" = (u, t') := by rw [resolve, hsame, hu]
        rw [hresolve, hresolve']
        exact ⟨rfl, hsize, Nat.le_refl _, hne⟩
      · rw [hu] at hnone
        cases hnone
    · have hne : ∀ id, known id → id ≠ t.size :=
        fun id hid heq => Nat.lt_irrefl id (heq ▸ h.known_lt id hid)
      have hgrown : (t.install "_" .undefined 0.0).2.size = t.size + 1 := size_install ..
      rcases h.place with ⟨hsame, hsize⟩ | ⟨-, hnew, hsize⟩
      · have hresolve' : t'.resolve "_" =
            (t'.size, (t'.install "_" .undefined 0.0).2) := by
          rw [resolve, hsame, hnone]
          rfl
        have hgrown' : (t'.install "_" .undefined 0.0).2.size = t'.size + 1 :=
          size_install ..
        rw [hresolve, hresolve', hgrown, hgrown', hsize]
        exact ⟨rfl, rfl, Nat.le_succ _, hne⟩
      · have hresolve' : t'.resolve "_" = (t.size, t') := by rw [resolve, hnew]
        rw [hresolve, hresolve', hgrown]
        exact ⟨rfl, hsize, Nat.le_succ _, hne⟩
  obtain ⟨hsame, hsize, hle, hne⟩ := hplace
  refine ⟨⟨fun name hname => ?_, fun id hid => ?_, .inl ⟨?_, ?_⟩⟩, fun id hid => ?_,
    fun id hid => ?_⟩
  · rw [lookup_showing_other t' x hname, lookup_showing_other t x hname,
      h.lookup_eq name hname]
  · rw [lookup_showing] at hid
    have hid' : id ≠ (t'.resolve "_").1 := fun heq => hid (congrArg some heq.symm)
    rw [get_showing t' x hid', get_showing t x (hsame ▸ hid')]
    refine h.get_eq id fun hold => hid' ?_
    rw [resolve, hold]
  · rw [lookup_showing, lookup_showing, hsame]
  · rw [size_showing, size_showing, hsize]
  · rw [size_showing]
    exact Nat.lt_of_lt_of_le (h.known_lt id hid) hle
  · rw [lookup_showing]
    exact fun heq => hne id hid (Option.some.inj heq).symm

end SymbolTable.Apart

/-! ### Machines that differ in what they have shown -/

/-- The machine with other symbols and other writes. -/
def Machine.beside (m : Machine) (t : SymbolTable) (writes : Array Write) : Machine :=
  { m with symbols := t, console := { m.console with writes } }

/-- A datum that refers, if at all, to a known symbol. -/
def Datum.IsOf (known : Nat → Prop) (d : Datum) : Prop :=
  ∀ id ∈ d.symbol, known id

/-- Two machines that differ in what was written and in the symbol of `_`, to
which neither of them refers. No interrupt is due. -/
structure Alongside (known : Nat → Prop) (job : Job) (m m' : Machine) : Prop where
  other : ∃ t writes, m' = m.beside t writes
  symbols : m.symbols.Apart known m'.symbols
  stack : m.stack.Within job.limits.stack (Datum.IsOf known)
  frames : m.frames.Within job.limits.frames fun f => known f.symbol
  interrupted : m.interrupted = false
  alarm : m.alarm = none

namespace Alongside

variable {known : Nat → Prop} {job : Job} {m m' : Machine}

theorem eq_beside (h : Alongside known job m m') :
    m' = m.beside m'.symbols m'.console.writes := by
  obtain ⟨_, _, rfl⟩ := h.other
  rfl

theorem stack_eq (h : Alongside known job m m') : m'.stack = m.stack := by
  obtain ⟨_, _, rfl⟩ := h.other
  rfl

theorem frames_eq (h : Alongside known job m m') : m'.frames = m.frames := by
  obtain ⟨_, _, rfl⟩ := h.other
  rfl

theorem pc_eq (h : Alongside known job m m') : m'.pc = m.pc := by
  obtain ⟨_, _, rfl⟩ := h.other
  rfl

theorem returning_eq (h : Alongside known job m m') : m'.returning = m.returning := by
  obtain ⟨_, _, rfl⟩ := h.other
  rfl

theorem interrupted' (h : Alongside known job m m') : m'.interrupted = false := by
  obtain ⟨_, _, rfl⟩ := h.other
  exact h.interrupted

theorem alarm' (h : Alongside known job m m') : m'.alarm = none := by
  obtain ⟨_, _, rfl⟩ := h.other
  exact h.alarm

end Alongside

namespace Exec

section

variable {known : Nat → Prop} {job : Job} {α β : Type}

/-- An action that does the same to machines alongside each other. -/
def Follows (known : Nat → Prop) (job : Job) (x : Exec α) : Prop :=
  ∀ m m', Alongside known job m m' → Paired (Alongside known job) (x m) (x m')

/-! ### Single actions -/

theorem Follows.bind {x : Exec α} {f : α → Exec β} (hx : Follows known job x)
    (hf : ∀ a, Follows known job (f a)) : Follows known job (x >>= f) :=
  fun m m' h => (hx m m' h).andThen fun _ h₁ => hf _ _ _ h₁

/-- What is run next may rely on what is known of the result. -/
theorem Follows.bindWith {x : Exec α} {f : α → Exec β} {P : α → Prop}
    (hx : Follows known job x)
    (hP : ∀ {m m' a m₁}, Alongside known job m m' → x m = .ok a m₁ → P a)
    (hf : ∀ a, P a → Follows known job (f a)) : Follows known job (x >>= f) :=
  fun m m' h => (hx m m' h).andThen fun hrun h₁ => hf _ (hP h hrun) _ _ h₁

theorem follows_pure (a : α) : Follows known job (pure a) :=
  fun _ _ h => .ok h

theorem follows_throw (e : Halt) : Follows known job (throw e : Exec α) :=
  fun _ _ h => .error h

theorem follows_fail (kind : FaultKind) (note : String) :
    Follows known job (fail kind note : Exec α) :=
  follows_throw _

theorem follows_ofExcept (r : Except Fault α) : Follows known job (ofExcept r) := by
  cases r with
  | ok a => exact follows_pure a
  | error f => exact follows_throw _

theorem follows_get {f : Machine → Exec α}
    (hf : ∀ m m', Alongside known job m m' →
      Paired (Alongside known job) (f m m) (f m' m')) :
    Follows known job (get >>= f) :=
  fun m m' h => hf m m' h

/-- The stacks are the same, and stay within their limit on both sides. -/
theorem follows_onStack {act : EStateM Fault (Stack Datum) α}
    (hact : Stack.KeepsWithin job.limits.stack (Datum.IsOf known) act) :
    Follows known job (onStack act) := by
  intro m m' h
  obtain ⟨t, ws, rfl⟩ := h.other
  have hkept := hact m.stack h.stack
  have hstack : (m.beside t ws).stack = m.stack := rfl
  rw [onStack, onStack, hstack]
  cases hrun : act m.stack with
  | ok a s =>
    rw [hrun] at hkept
    exact .ok ⟨⟨t, ws, rfl⟩, h.symbols, hkept, h.frames, h.interrupted, h.alarm⟩
  | error f s =>
    rw [hrun] at hkept
    exact .error ⟨⟨t, ws, rfl⟩, h.symbols, hkept, h.frames, h.interrupted, h.alarm⟩

/-- The calls are the same on both sides. -/
theorem follows_onFrames {act : EStateM Fault (Stack Frame) α}
    (hact : Stack.KeepsWithin job.limits.frames (fun f => known f.symbol) act) :
    Follows known job (onFrames act) := by
  intro m m' h
  obtain ⟨t, ws, rfl⟩ := h.other
  have hkept := hact m.frames h.frames
  have hframes : (m.beside t ws).frames = m.frames := rfl
  rw [onFrames, onFrames, hframes]
  cases hrun : act m.frames with
  | ok a s =>
    rw [hrun] at hkept
    exact .ok ⟨⟨t, ws, rfl⟩, h.symbols, h.stack, hkept, h.interrupted, h.alarm⟩
  | error f s =>
    rw [hrun] at hkept
    exact .error ⟨⟨t, ws, rfl⟩, h.symbols, h.stack, hkept, h.interrupted, h.alarm⟩

theorem follows_popDatum : Follows known job (onStack Stack.pop) :=
  follows_onStack Stack.keepsWithin_pop

/-- What is popped refers to a known symbol, if to any. -/
theorem isOf_popDatum {m m' m₁ : Machine} {d : Datum} (h : Alongside known job m m')
    (hrun : onStack Stack.pop m = .ok d m₁) : d.IsOf known := by
  rw [onStack] at hrun
  rcases Stack.pop_cases m.stack with ⟨f, hpop⟩ | ⟨a, htop, hpop⟩
  · rw [hpop] at hrun
    cases hrun
  · rw [hpop] at hrun
    cases hrun
    exact h.stack.top _ htop

theorem follows_pop : Follows known job pop :=
  follows_popDatum.bind fun _ => follows_pure _

theorem follows_pushDatum {d : Datum} (hd : d.IsOf known) :
    Follows known job (pushDatum job d) :=
  follows_onStack (Stack.keepsWithin_push _ hd)

theorem follows_push (x : Float) : Follows known job (push job x) :=
  follows_pushDatum fun _ h => by cases h

theorem follows_jump (a : Nat) : Follows known job (jump a) := by
  intro m m' h
  obtain ⟨t, ws, rfl⟩ := h.other
  exact .ok ⟨⟨t, ws, rfl⟩, h.symbols, h.stack, h.frames, h.interrupted, h.alarm⟩

/-- Both take the same operand, for they stand at the same place. -/
theorem follows_operand : Follows known job (operand job) := by
  refine follows_get fun m m' h => ?_
  rw [h.pc_eq]
  cases job.cells[m.pc]? with
  | none => exact follows_fail _ _ m m' h
  | some c => exact (follows_jump _).bind (fun _ => follows_pure c) m m' h

theorem follows_countOperand : Follows known job (countOperand job) := by
  refine follows_operand.bind fun c => ?_
  cases c with
  | count n => exact follows_pure n
  | _ => exact follows_fail _ _

theorem follows_symbolOperand : Follows known job (symbolOperand job) := by
  refine follows_operand.bind fun c => ?_
  cases c with
  | symbol id => exact follows_pure id
  | _ => exact follows_fail _ _

/-- The symbol that follows stands in the code. -/
theorem mem_of_symbolOperand {m m₁ : Machine} {id : Nat}
    (h : symbolOperand job m = .ok id m₁) :
    .symbol id ∈ job.cells := by
  obtain ⟨c, m₂, hoperand, hrest⟩ := of_bind_ok h
  have hcell : job.cells[m.pc]? = some c := by
    rw [operand, bind_of_ok (get_apply m)] at hoperand
    cases hc : job.cells[m.pc]? with
    | none =>
      rw [hc] at hoperand
      cases hoperand
    | some c' =>
      rw [hc] at hoperand
      cases hoperand
      rfl
  cases c
  case symbol id' =>
    cases hrest
    exact Array.mem_of_getElem? hcell
  all_goals cases hrest

/-- A known symbol is the same for both. -/
theorem follows_symbol {id : Nat} (hid : known id) : Follows known job (symbol id) := by
  intro m m' h
  rw [symbol_apply, symbol_apply, h.symbols.get_known hid]
  exact .ok h

/-- The name in the fault is that of a known symbol, which is the same in both
tables. -/
theorem follows_failAbout (kind : FaultKind) {id : Nat} (hid : known id) :
    Follows known job (failAbout kind id : Exec α) :=
  (follows_symbol hid).bind fun _ => follows_fail _ _

theorem follows_assign {id : Nat} (hid : known id) (x : Float) :
    Follows known job (assign id x) := by
  intro m m' h
  obtain ⟨t, ws, rfl⟩ := h.other
  exact .ok ⟨⟨_, ws, rfl⟩, h.symbols.modify_known hid _, h.stack, h.frames,
    h.interrupted, h.alarm⟩

theorem follows_frame : Follows known job frame := by
  refine follows_get fun m m' h => ?_
  rw [h.frames_eq]
  cases m.frames.top? with
  | none => exact .error h
  | some f => exact .ok h

/-- The callee of the call at hand is known. -/
theorem known_frame {m m' m₁ : Machine} {f : Frame} (h : Alongside known job m m')
    (hrun : frame m = .ok f m₁) : known f.symbol := by
  rw [frame, bind_of_ok (get_apply m)] at hrun
  cases hf : m.frames.top? with
  | none =>
    rw [hf] at hrun
    cases hrun
  | some f' =>
    rw [hf] at hrun
    cases hrun
    exact h.frames.top f hf

theorem follows_verify {id : Nat} (hid : known id) : Follows known job (verify id) := by
  refine (follows_symbol hid).bind fun s => ?_
  split
  · exact follows_pure ()
  · exact follows_failAbout _ hid
  · exact follows_failAbout _ hid

/-- Whether a known symbol may be assigned to is the same for both. -/
theorem follows_verifyAssignable {id : Nat} (hid : known id) :
    Follows known job (verifyAssignable id) := by
  refine (follows_symbol hid).bind fun s => ?_
  split
  · exact follows_pure ()
  · exact follows_failAbout _ hid

/-! ### Instructions -/

section

variable (hcells : ∀ id, .symbol id ∈ job.cells → known id)

include hcells

/-- The symbol that an instruction names stands in the code, so it is known. -/
theorem Follows.ofSymbolOperand {f : Nat → Exec α}
    (hf : ∀ id, known id → Follows known job (f id)) :
    Follows known job (symbolOperand job >>= f) :=
  follows_symbolOperand.bindWith (fun _ hrun => hcells _ (mem_of_symbolOperand hrun)) hf

theorem follows_step (how : Step) : Follows known job (step job how) :=
  .ofSymbolOperand hcells fun _ hid => (follows_verify hid).bind fun _ =>
    (follows_symbol hid).bind fun _ =>
    (follows_assign hid _).bind fun _ => follows_push _

theorem follows_builtin : Follows known job (builtin job) := by
  refine .ofSymbolOperand hcells fun id hid => (follows_symbol hid).bind fun s => ?_
  split
  · exact follows_pop.bind fun x => (follows_ofExcept _).bind fun y => follows_push y
  · exact follows_fail _ _

end

theorem follows_eval : Follows known job (eval job) := by
  refine follows_popDatum.bindWith isOf_popDatum fun d hd => ?_
  split
  case h_1 id hsymbol =>
    have hid := hd id hsymbol
    exact (follows_verify hid).bind fun _ => (follows_symbol hid).bind fun _ =>
      follows_push _
  case h_2 => exact follows_fail _ _

theorem follows_binary (op : BinaryOp) : Follows known job (binary job op) :=
  (follows_onStack Stack.keepsWithin_popTwo).bind fun _ =>
    (follows_ofExcept _).bind fun _ => follows_push _

theorem follows_assignTop (op : AssignOp) : Follows known job (assignTop job op) := by
  refine follows_popDatum.bindWith isOf_popDatum fun d hd => follows_pop.bind fun x => ?_
  split
  case h_1 id hsymbol =>
    have hid := hd id hsymbol
    exact (follows_verifyAssignable hid).bind fun _ => (follows_symbol hid).bind fun _ =>
      (follows_ofExcept _).bind fun _ => (follows_assign hid _).bind fun _ =>
        follows_push _
  case h_2 => exact follows_fail _ _

theorem follows_takeLine {id : Nat} (hid : known id) (line : Option String) :
    Follows known job (takeLine job id line) := by
  unfold takeLine
  split
  · exact (follows_assign hid _).bind fun _ => follows_push _
  · split
    · exact (follows_assign hid _).bind fun _ => follows_push _
    · exact follows_failAbout _ hid

/-- A return takes the same frame and the same arguments from both. -/
theorem follows_leave : Follows known job leave := by
  refine (follows_onFrames Stack.keepsWithin_pop).bind fun f =>
    follows_get fun m m' h => ?_
  rw [h.stack_eq]
  split
  · exact .error h
  · refine (follows_onStack (Stack.keepsWithin_truncate _)).bind (fun _ => ?_) m m' h
    intro m m' h
    obtain ⟨t, ws, rfl⟩ := h.other
    exact .ok ⟨⟨t, ws, rfl⟩, h.symbols, h.stack, h.frames, h.interrupted, h.alarm⟩

theorem follows_returnValue : Follows known job (returnValue job) := by
  refine follows_frame.bindWith known_frame fun f hf =>
    (follows_symbol hf).bind fun s => ?_
  split
  · exact follows_failAbout _ hf
  · exact follows_pop.bind fun x => follows_leave.bind fun _ => follows_push x

theorem follows_returnNothing : Follows known job returnNothing := by
  refine follows_frame.bindWith known_frame fun f hf =>
    (follows_symbol hf).bind fun s => ?_
  split
  · exact follows_failAbout _ hf
  · exact follows_leave

/-- An argument lies at the same place for both. -/
theorem follows_argPlace : Follows known job (argPlace job) := by
  refine follows_countOperand.bind fun n =>
    follows_frame.bindWith known_frame fun f hf => ?_
  split
  · exact follows_fail _ _
  · split
    · exact follows_failAbout _ hf
    · exact follows_pure _

theorem follows_arg : Follows known job (arg job) := by
  refine follows_argPlace.bind fun i => follows_get fun m m' h => ?_
  rw [h.stack_eq]
  cases m.stack.get? i with
  | none => exact .error h
  | some d => exact follows_push _ m m' h

/-- The argument that is changed keeps the symbol it refers to. -/
theorem follows_argAssign : Follows known job (argAssign job) := by
  refine follows_argPlace.bind fun i => follows_pop.bind fun x =>
    follows_get fun m m' h => ?_
  rw [h.stack_eq]
  cases hd : m.stack.get? i with
  | none => exact .error h
  | some d =>
    cases hs : m.stack.set? i { d with value := x } with
    | none =>
      dsimp only
      rw [hs]
      exact .error h
    | some s =>
      have hitem : Datum.IsOf known { d with value := x } :=
        h.stack.all d (Array.mem_of_getElem? hd)
      obtain ⟨t, ws, rfl⟩ := h.other
      dsimp only
      rw [hs]
      exact follows_push x { m with stack := s } _
        ⟨⟨t, ws, rfl⟩, h.symbols, h.stack.set? hs hitem, h.frames, h.interrupted, h.alarm⟩

/-- An instruction that neither writes nor reads does the same to machines
alongside each other. -/
theorem follows_instruction (hcells : ∀ id, .symbol id ∈ job.cells → known id)
    {i : Instruction} (hlocal : i.isLocal = true) : Follows known job (i.run job) := by
  cases i with
  | constPush =>
    refine follows_operand.bind fun c => ?_
    cases c with
    | number x => exact follows_push x
    | _ => exact follows_fail _ _
  | varPush =>
    refine .ofSymbolOperand hcells fun id hid => follows_pushDatum fun id' h => ?_
    cases h
    exact hid
  | eval => exact follows_eval
  | pop => exact follows_pop.bind fun _ => follows_pure ()
  | binary op => exact follows_binary op
  | negate => exact follows_pop.bind fun _ => follows_push _
  | not => exact follows_pop.bind fun _ => follows_push _
  | assign op => exact follows_assignTop op
  | step how => exact follows_step hcells how
  | builtin => exact follows_builtin hcells
  | returnValue => exact follows_returnValue
  | returnNothing => exact follows_returnNothing
  | arg => exact follows_arg
  | argAssign => exact follows_argAssign
  | printValue | printText | printTop | read => cases hlocal

end

end Exec

end StackCalc
