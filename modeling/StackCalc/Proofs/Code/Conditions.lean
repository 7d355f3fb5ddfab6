import StackCalc.Proofs.Code.ClosedCode
import StackCalc.Proofs.Code.Generation

/-!
# The conditions of branches

What the generator appends for any tree, whether a source text yields it or not.
The condition of a branch is the code of an expression: a row of operations that
go on behind their operands, with calls among them but no branches, loops or
returns (`Straight`), up to a stop. `Guarded` code is code in which a condition
of that kind stands behind every branch.

`Gen.Makes` follows the cells behind a fixed store, like `Gen.Turns`, but only
says what holds of them if the generator does not fail. `Image.generate_guarded`
is the result for whole programs.
-/

namespace StackCalc

/-! ### Straight code -/

/-- Whether an operation goes on behind its operands: a call, or an instruction
that does not return. -/
def Opcode.isStraight : Opcode → Bool
  | plain .returnValue | plain .returnNothing => false
  | plain _ => true
  | control .call => true
  | control _ => false

/-- Whether a cell is no operation. -/
def Cell.isOperand : Cell → Bool
  | op _ => false
  | _ => true

/-- Operations that go on behind their operands, one after the other. -/
inductive Straight : List Cell → Prop
  | nil : Straight []
  | op {o : Opcode} {operands rest : List Cell} (ho : o.isStraight)
    (hoperands : ∀ c ∈ operands, c.isOperand) (hlength : operands.length = o.operands)
    (hrest : Straight rest) : Straight (.op o :: (operands ++ rest))

theorem Straight.append {code code' : List Cell} (h : Straight code)
    (h' : Straight code') :
    Straight (code ++ code') := by
  induction h with
  | nil => exact h'
  | op ho hoperands hlength _ ih =>
    rw [List.cons_append, List.append_assoc]
    exact .op ho hoperands hlength ih

theorem straight_single {o : Opcode} {operands : List Cell} (ho : o.isStraight)
    (hoperands : ∀ c ∈ operands, c.isOperand) (hlength : operands.length = o.operands) :
    Straight (.op o :: operands) := by
  have h := Straight.op ho hoperands hlength .nil
  rwa [List.append_nil] at h

/-- There is no branch in straight code: its operations are others, and operands
are no operations. -/
theorem Straight.no_branch {code : List Cell} (h : Straight code) :
    .op (.control .branch) ∉ code := by
  induction h with
  | nil => simp
  | @op o operands rest ho hoperands _ _ ih =>
    intro hmem
    rcases List.mem_cons.mp hmem with heq | hmem
    · cases heq
      cases ho
    · rcases List.mem_append.mp hmem with hmem | hmem
      · cases hoperands _ hmem
      · exact ih hmem

/-! ### Guarded code -/

/-- What stands behind a branch: its slots, its condition and a stop. -/
def StartsStraight (behind : List Cell) : Prop :=
  ∃ slots condition rest, behind = slots ++ (condition ++ .stop :: rest) ∧
    slots.length = 3 ∧
    Straight condition

/-- Behind every branch stands a condition. -/
def Guarded (code : List Cell) : Prop :=
  ∀ before behind, code = before ++ .op (.control .branch) :: behind →
    StartsStraight behind

/-- Where there is no branch, nothing has to stand behind one. -/
theorem guarded_of_no_branch {code : List Cell} (h : .op (.control .branch) ∉ code) :
    Guarded code := by
  rintro before behind rfl
  simp at h

theorem Straight.guarded {code : List Cell} (h : Straight code) : Guarded code :=
  guarded_of_no_branch h.no_branch

theorem guarded_stop : Guarded [.stop] :=
  guarded_of_no_branch (by simp)

/-- A cell in front of guarded code, which has a condition behind it if it is a
branch. -/
theorem guarded_cons {c : Cell} {code : List Cell} (h : Guarded code)
    (hc : c = .op (.control .branch) → StartsStraight code) : Guarded (c :: code) := by
  intro before behind hcode
  cases before with
  | nil =>
    cases hcode
    exact hc rfl
  | cons c' before =>
    cases hcode
    exact h before behind rfl

/-- Guarded code behind guarded code is guarded: the condition of a branch in
the first part ends in that part. -/
theorem Guarded.append {code code' : List Cell} (h : Guarded code) (h' : Guarded code') :
    Guarded (code ++ code') := by
  induction code with
  | nil => exact h'
  | cons c code ih =>
    have hrest : Guarded code := fun before behind hcode =>
      h (c :: before) behind (by rw [hcode, List.cons_append])
    refine guarded_cons (ih hrest) ?_
    rintro rfl
    obtain ⟨slots, condition, rest, rfl, hlength, hstraight⟩ := h [] code rfl
    exact ⟨slots, condition, rest ++ code', by simp, hlength, hstraight⟩

/-- A loop is no branch. -/
theorem guarded_loop {o : Control} (ho : o ≠ .branch) {slots rest : List Cell}
    (hslots : ∀ c ∈ slots, c.isOperand) (hrest : Guarded rest) :
    Guarded (.op (.control o) :: (slots ++ rest)) := by
  refine guarded_cons (Guarded.append (guarded_of_no_branch fun hmem => ?_) hrest)
    fun heq => ?_
  · cases hslots _ hmem
  · cases heq
    exact absurd rfl ho

/-- A branch with its condition. -/
theorem guarded_branch {slots condition rest : List Cell} (hlength : slots.length = 3)
    (hslots : ∀ c ∈ slots, c.isOperand) (hcondition : Straight condition)
    (hrest : Guarded rest) :
    Guarded (.op (.control .branch) :: (slots ++ (condition ++ .stop :: rest))) := by
  have hbehind : Guarded (slots ++ (condition ++ .stop :: rest)) := by
    refine Guarded.append (guarded_of_no_branch fun hmem => ?_) ?_
    · cases hslots _ hmem
    · exact hcondition.guarded.append (guarded_cons hrest fun heq => by cases heq)
  exact guarded_cons hbehind fun _ => ⟨slots, condition, rest, rfl, hlength, hcondition⟩

namespace Gen

/-! ### What a generator leaves behind a store -/

variable {α β : Type} {s : Store}

/-- An action fails, with some cells behind the store, or it makes cells of
which `Q` holds out of `code`. -/
def Makes (s : Store) (code : List Cell) (g : Gen α) (Q : α → List Cell → Prop) : Prop :=
  (∃ f rest, g (s.append code) = .error f (s.append rest)) ∨
    ∃ a code', g (s.append code) = .ok a (s.append code') ∧ Q a code'

/-- If the first part of a sequence fails, so does the sequence; if not, the
second part goes on from the cells that the first one has made. -/
theorem Makes.bind {code : List Cell} {g : Gen α} {f : α → Gen β}
    {Q : α → List Cell → Prop} {R : β → List Cell → Prop} (hg : Makes s code g Q)
    (hf : ∀ a code', Q a code' → Makes s code' (f a) R) : Makes s code (g >>= f) R := by
  rcases hg with ⟨e, rest, herror⟩ | ⟨a, code', hok, hQ⟩
  · exact .inl ⟨e, rest, Action.bind_of_error herror⟩
  · unfold Makes
    rw [Action.bind_of_ok hok]
    exact hf a code' hQ

theorem Makes.mono {code : List Cell} {g : Gen α} {Q R : α → List Cell → Prop}
    (h : Makes s code g Q) (hQ : ∀ a code', Q a code' → R a code') :
    Makes s code g R := by
  rcases h with herror | ⟨a, code', hok, hq⟩
  · exact .inl herror
  · exact .inr ⟨a, code', hok, hQ a code' hq⟩

theorem Turns.makes {capacity : Nat} {code code' : List Cell} {g : Gen α} {a : α}
    (h : Turns capacity s code g a code') :
    Makes s code g fun b made => b = a ∧ made = code' := by
  by_cases hroom : Room capacity s code code'
  · exact .inr ⟨a, code', h.fits hroom, rfl, rfl⟩
  · obtain ⟨rest, hrest⟩ := h.fails hroom
    exact .inl ⟨_, rest, hrest⟩

/-- Going on from cells that are known. -/
theorem Turns.thenMakes {capacity : Nat} {code code' : List Cell} {g : Gen α}
    {f : α → Gen β} {a : α} {R : β → List Cell → Prop}
    (h : Turns capacity s code g a code') (hf : Makes s code' (f a) R) :
    Makes s code (g >>= f) R := by
  refine h.makes.bind ?_
  rintro _ _ ⟨rfl, rfl⟩
  exact hf

theorem makes_refuse (code : List Cell) (note : String) (Q : α → List Cell → Prop) :
    Makes s code (refuse note) Q :=
  .inl ⟨_, code, rfl⟩

/-- An action fails or appends cells of which `P` holds. -/
def Appends (P : List Cell → Prop) (g : Gen Unit) : Prop :=
  ∀ s : Store, Makes s [] g fun _ => P

variable {P Q R : List Cell → Prop} {g g' : Gen Unit}

/-- An action that appends does so behind any cells: they may be taken for a
part of the store. -/
theorem Appends.makes (h : Appends P g) (s : Store) (before : List Cell) :
    Makes s before g fun _ code => ∃ new, P new ∧ code = before ++ new := by
  rcases h (s.append before) with ⟨f, rest, herror⟩ | ⟨a, new, hok, hnew⟩
  · rw [Store.append_nil, Store.append_append] at herror
    exact .inl ⟨f, before ++ rest, herror⟩
  · rw [Store.append_nil, Store.append_append] at hok
    exact .inr ⟨a, before ++ new, hok, new, hnew, rfl⟩

theorem Appends.seq (h : Appends P g) (h' : Appends Q g')
    (hR : ∀ {code code'}, P code → Q code' → R (code ++ code')) :
    Appends R (g >>= fun _ => g') := by
  intro s
  refine (h s).bind fun _ code hcode => (h'.makes s code).mono ?_
  rintro _ _ ⟨new, hnew, rfl⟩
  exact hR hcode hnew

theorem Appends.mono (h : Appends P g) (hPQ : ∀ {code}, P code → Q code) : Appends Q g :=
  fun s => (h s).mono fun _ _ => hPQ

/-- An action whose code is known appends code of which all holds that holds of
its code. -/
theorem Emits.appends {capacity : Nat} {code : Nat → List Cell}
    (h : Emits capacity g code) (hP : ∀ a, P (code a)) : Appends P g := by
  intro s
  refine (h s).makes.mono ?_
  rintro _ _ ⟨-, rfl⟩
  exact hP s.size

theorem appends_nothing (h : P []) : Appends P (pure ()) :=
  fun _ => .inr ⟨(), [], rfl, h⟩

theorem appends_refuse (note : String) : Appends P (refuse note) :=
  fun _ => makes_refuse [] note _

/-- What goes on with something that may be refused. -/
theorem appends_orRefuse (note : String) {x : Option α} {f : α → Gen Unit}
    (hf : ∀ a, x = some a → Appends P (f a)) : Appends P (orRefuse note x >>= f) := by
  cases x with
  | none => exact fun s => .inl ⟨_, [], rfl⟩
  | some a => exact hf a rfl

/-! ### Expressions -/

variable (cx : GenContext)

theorem appends_plain {i : Instruction} (hi : (Opcode.plain i).isStraight)
    (hnone : i.operands = 0) :
    Appends Straight (plain cx i) :=
  (emits_emit cx (Layout.plain i)).appends fun _ =>
    straight_single hi (by simp) hnone.symm

theorem appends_withOperand {i : Instruction} {c : Cell}
    (hi : (Opcode.plain i).isStraight) (hone : i.operands = 1) (hc : c.isOperand) :
    Appends Straight (plain cx i >>= fun _ => emit cx c) :=
  ((emits_emit cx (Layout.plain i)).seq (emits_emit cx c)).appends fun _ =>
    straight_single hi (by simpa using hc) hone.symm

theorem appends_callCells (id count : Nat) : Appends Straight (callCells cx id count) :=
  (emits_callCells cx id count).appends fun _ =>
    straight_single rfl (by simp [Cell.isOperand]) rfl

theorem appends_unaryOp (op : Operator) :
    Appends Straight (unaryOp op >>= fun i => plain cx i) := by
  refine appends_orRefuse _ fun i hi => appends_plain cx ?_ (operands_unaryOp? hi)
  cases op <;> cases hi <;> rfl

mutual

/-- An expression of any form is refused, or its code is straight. -/
theorem appends_expr : ∀ e : Expr, Appends Straight (expr cx e)
  | .literal _ => appends_withOperand cx rfl rfl rfl
  | .variable _ =>
    (appends_withOperand cx rfl rfl rfl).seq (appends_plain cx rfl rfl) Straight.append
  | .text _ => appends_refuse _
  | .binary _ lhs rhs =>
    (appends_expr lhs).seq ((appends_expr rhs).seq
      (appends_orRefuse _ fun _ _ => appends_plain cx rfl rfl) Straight.append)
        Straight.append
  | .unary op e => (appends_expr e).seq (appends_unaryOp cx op) Straight.append
  | .builtin _ e =>
    (appends_expr e).seq (appends_withOperand cx rfl rfl rfl) Straight.append
  | .step _ _ => appends_withOperand cx rfl rfl rfl
  | .call id es =>
    (appends_exprs es).seq (appends_callCells cx id es.length) Straight.append
  | .arg _ => appends_withOperand cx rfl rfl rfl
  | .read _ => appends_withOperand cx rfl rfl rfl

theorem appends_exprs : ∀ es : List Expr, Appends Straight (exprs cx es)
  | [] => appends_nothing .nil
  | e :: es => (appends_expr e).seq (appends_exprs es) Straight.append

end

/-! ### Statements -/

/-- A clause of any form is refused, or its code is straight. -/
theorem appends_clause (st : Stmt) : Appends Straight (clause cx st) := by
  cases st with
  | assign op id e =>
    refine (appends_expr cx e).seq
      (Appends.seq (appends_withOperand cx rfl rfl rfl) ?_ Straight.append)
      Straight.append
    exact appends_orRefuse _ fun _ _ => appends_plain cx rfl rfl
  | argAssign n e =>
    exact (appends_expr cx e).seq (appends_withOperand cx rfl rfl rfl) Straight.append
  | expr e => exact appends_expr cx e
  | _ => exact appends_refuse _

/-- The code of an item is straight: the value or the text is printed, and the
run goes on. -/
theorem appends_printItem (e : Expr) : Appends Straight (printItem cx e) := by
  cases e with
  | text id =>
    unfold printItem
    dsimp only
    cases (cx.symbols.get id).text with
    | some s => exact appends_withOperand cx rfl rfl rfl
    | none => exact appends_refuse _
  | _ => exact (appends_expr cx _).seq (appends_plain cx rfl rfl) Straight.append

theorem appends_printItems : ∀ es : List Expr, Appends Straight (printItems cx es)
  | [] => appends_nothing .nil
  | e :: es => (appends_printItem cx e).seq (appends_printItems es) Straight.append

/-- The last stretch behind a control operation: its code, a stop, and the slot
that is to point behind it. The cells of the operation and its slots are
`header`. -/
theorem makes_lastStretch {x : Gen Unit} (header rest : List Cell) {i : Nat}
    (hi : i < header.length) (hx : Appends P x) :
    Makes s (header ++ rest) (x >>= fun _ => emit cx .stop >>= fun _ => land (s.size + i))
      fun _ code => ∃ new b, P new ∧
        code = header.set i (.address b) ++ (rest ++ (new ++ [.stop])) := by
  refine (hx.makes s _).bind ?_
  rintro _ _ ⟨new, hnew, rfl⟩
  -- the slot stands in front of all that was appended since
  have hslot : i < (header ++ rest ++ new ++ [Cell.stop]).length := by
    simp only [List.length_append]
    omega
  have hland : Turns cx.capacity s _ _ _ _ := turns_land hslot
  refine (turns_emit cx _ .stop).thenMakes (hland.makes.mono ?_)
  rintro _ _ ⟨-, rfl⟩
  refine ⟨new, s.size + (header ++ rest ++ new ++ [Cell.stop]).length, hnew, ?_⟩
  have hcells : header ++ rest ++ new ++ [Cell.stop] =
      header ++ (rest ++ (new ++ [Cell.stop])) := by
    simp only [List.append_assoc]
  rw [hcells, List.set_append_left i _ hi]

/-- A stretch behind a control operation that others follow. -/
theorem makes_stretch {x k : Gen Unit} (header rest : List Cell) {i : Nat}
    (hi : i < header.length) (hx : Appends P x) {R : Unit → List Cell → Prop}
    (hk : ∀ new b, P new →
      Makes s (header.set i (.address b) ++ (rest ++ (new ++ [.stop]))) k R) :
    Makes s (header ++ rest)
      (x >>= fun _ => emit cx .stop >>= fun _ => land (s.size + i) >>= fun _ => k) R := by
  have h := (makes_lastStretch cx header rest hi hx).bind (f := fun _ => k) (R := R) (by
    rintro _ _ ⟨new, b, hnew, rfl⟩
    exact hk new b hnew)
  simpa only [bind_assoc] using h

mutual

/-- A statement of any form is refused, or its code is guarded. Only `if` puts a
branch in front of its stretches, and the first of these is the condition. -/
theorem appends_stmt : ∀ st : Stmt, Appends Guarded (stmt cx st)
  | .assign op id e =>
    ((appends_clause cx (.assign op id e)).seq (appends_plain cx rfl rfl)
      Straight.append).mono Straight.guarded
  | .argAssign n e =>
    ((appends_clause cx (.argAssign n e)).seq (appends_plain cx rfl rfl)
      Straight.append).mono Straight.guarded
  | .print items => (appends_printItems cx items).mono Straight.guarded
  | .whileLoop cond body => by
    intro s
    refine (turns_emit cx [] _).thenMakes
      ((turns_slot cx _).thenMakes ((turns_slot cx _).thenMakes ?_))
    refine makes_stretch cx [_, _, _] [] (by simp : 1 < 3) (appends_expr cx cond)
      fun code b hcode => ?_
    refine (makes_lastStretch cx _ _ (by simp : 2 < _) (appends_stmts body)).mono ?_
    rintro _ _ ⟨code', b', hcode', rfl⟩
    have hslots : ∀ c ∈ [Cell.address b, .address b'],
        c.isOperand := by simp [Cell.isOperand]
    -- a loop is no branch, so that its stretches need only be guarded
    -- themselves
    have h := guarded_loop (by simp : Control.whileLoop ≠ .branch) hslots
      ((hcode.guarded.append guarded_stop).append (hcode'.append guarded_stop))
    simpa using h
  | .forLoop init cond post body => by
    intro s
    refine (turns_emit cx [] _).thenMakes
      ((turns_slot cx _).thenMakes
        ((turns_slot cx _).thenMakes
          ((turns_slot cx _).thenMakes ((turns_slot cx _).thenMakes ?_))))
    refine makes_stretch cx [_, _, _, _, _] [] (by simp : 1 < 5) (appends_clause cx init)
      fun code b hcode => ?_
    refine makes_stretch cx _ _ (by simp : 2 < _) (appends_expr cx cond)
      fun code' b' hcode' => ?_
    refine makes_stretch cx _ _ (by simp : 3 < _) (appends_clause cx post)
      fun code'' b'' hcode'' => ?_
    refine (makes_lastStretch cx _ _ (by simp : 4 < _) (appends_stmts body)).mono ?_
    rintro _ _ ⟨last, b₄, hlast, rfl⟩
    have hslots : ∀ c ∈ [Cell.address b, .address b', .address b'', .address b₄],
        c.isOperand := by
      simp [Cell.isOperand]
    have hrest :=
      (((hcode.guarded.append guarded_stop).append
        (hcode'.guarded.append guarded_stop)).append
      (hcode''.guarded.append guarded_stop)).append (hlast.append guarded_stop)
    have h := guarded_loop (by simp : Control.forLoop ≠ .branch) hslots hrest
    simpa using h
  | .ifThen cond body => by
    intro s
    refine (turns_emit cx [] _).thenMakes
      ((turns_slot cx _).thenMakes
        ((turns_slot cx _).thenMakes ((turns_slot cx _).thenMakes ?_)))
    refine makes_stretch cx [_, _, _, _] [] (by simp : 1 < 4) (appends_expr cx cond)
      fun code b hcode => ?_
    refine (makes_lastStretch cx _ _ (by simp : 3 < _) (appends_stmts body)).mono ?_
    rintro _ _ ⟨code', b', hcode', rfl⟩
    have hslots : ∀ c ∈ [Cell.address b, .stop, .address b'],
        c.isOperand := by simp [Cell.isOperand]
    have h := guarded_branch rfl hslots hcode (hcode'.append guarded_stop)
    simpa using h
  | .ifElse cond body other => by
    intro s
    refine (turns_emit cx [] _).thenMakes
      ((turns_slot cx _).thenMakes
        ((turns_slot cx _).thenMakes ((turns_slot cx _).thenMakes ?_)))
    refine makes_stretch cx [_, _, _, _] [] (by simp : 1 < 4) (appends_expr cx cond)
      fun code b hcode => ?_
    refine makes_stretch cx _ _ (by simp : 2 < _) (appends_stmts body)
      fun code' b' hcode' => ?_
    refine (makes_lastStretch cx _ _ (by simp : 3 < _) (appends_stmts other)).mono ?_
    rintro _ _ ⟨code'', b'', hcode'', rfl⟩
    have hslots : ∀ c ∈ [Cell.address b, .address b', .address b''], c.isOperand := by
      simp [Cell.isOperand]
    have h := guarded_branch rfl hslots hcode
      ((hcode'.append guarded_stop).append (hcode''.append guarded_stop))
    simpa using h
  | .expr e => by
    refine ((appends_expr cx e).seq ?_ Straight.append).mono Straight.guarded
    split
    · exact appends_plain cx rfl rfl
    · exact appends_plain cx rfl rfl
  | .call id es =>
    ((appends_exprs cx es).seq (appends_callCells cx id es.length) Straight.append).mono
      Straight.guarded
  | .returnValue e =>
    (appends_expr cx e).seq
      ((emits_emit cx (Layout.plain .returnValue)).appends fun _ =>
        guarded_of_no_branch (by simp [Layout.plain]))
      fun h h' => h.guarded.append h'
  | .returnNothing =>
    (emits_emit cx (Layout.plain .returnNothing)).appends fun _ =>
      guarded_of_no_branch (by simp [Layout.plain])
  | .define .. => appends_refuse _

theorem appends_stmts : ∀ ss : List Stmt, Appends Guarded (stmts cx ss)
  | [] => appends_nothing (guarded_of_no_branch (by simp))
  | st :: ss => (appends_stmt st).seq (appends_stmts ss) Guarded.append

end

/-- Generating the body of a definition fails, or seals guarded code. -/
theorem body_guarded (ss : List Stmt) (s : Store) :
    (∃ f rest, body cx ss s = .error f (s.append rest)) ∨
      ∃ code, body cx ss s = .ok s.base (s.append code).define.2 ∧ Guarded code := by
  have hbody : body cx ss =
      (stmts cx ss >>= fun _ => plain cx .returnNothing >>= fun _ => emit cx .stop) >>=
        fun _ => modifyGet Store.define := by
    simp only [body, bind_assoc]
  have hend : Appends Guarded (plain cx .returnNothing >>= fun _ => emit cx .stop) :=
    ((emits_emit cx (Layout.plain .returnNothing)).seq (emits_emit cx .stop)).appends
      fun _ =>
      guarded_of_no_branch (by simp [Layout.plain])
  rw [hbody]
  rcases (appends_stmts cx ss).seq hend Guarded.append s with
    ⟨f, rest, herror⟩ | ⟨u, code, hok, hcode⟩
  · rw [Store.append_nil] at herror
    exact .inl ⟨f, rest, Action.bind_of_error herror⟩
  · rw [Store.append_nil] at hok
    refine .inr ⟨code, ?_, hcode⟩
    rw [Action.bind_of_ok hok, Action.modifyGet_apply]
    rfl

end Gen

/-! ### Programs -/

/-- Behind every branch stands a condition, in the sealed code by itself and in
all of the code. -/
structure Store.IsGuarded (s : Store) : Prop where
  sealed : Guarded s.rewind.cells.toList
  all : Guarded s.cells.toList

namespace Image

variable {im : Image}

theorem IsSealed.rewound_eq (hs : im.IsSealed) : im.rewound = im := by
  have h := rewound_append hs []
  rwa [append, Store.append_nil] at h

/-- An image that was taken back has sealed code only. -/
theorem isGuarded_rewound (h : Guarded im.rewound.store.cells.toList) :
    im.rewound.store.IsGuarded := by
  refine ⟨?_, h⟩
  show Guarded im.rewound.rewound.store.cells.toList
  rw [im.isSealed_rewound.rewound_eq]
  exact h

theorem guarded_append (h : Guarded im.store.cells.toList) {code : List Cell}
    (hcode : Guarded code) :
    Guarded (im.append code).store.cells.toList := by
  have hcells : (im.append code).store.cells.toList = im.store.cells.toList ++ code := by
    simp [append, Store.append]
  rw [hcells]
  exact h.append hcode

variable (capacity : Nat) (echo : Bool)

/-- A definition seals guarded code, or it fails and what it had appended is
taken back. -/
theorem define_guarded (hs : im.IsSealed) (h : Guarded im.store.cells.toList) (d : Stmt) :
    (∃ f im', define capacity echo d im = .error f im' ∧ im'.rewound = im) ∨
      ∃ im', define capacity echo d im = .ok () im' ∧ im'.IsSealed ∧
        Guarded im'.store.cells.toList := by
  cases d with
  | define kind id ss =>
    rcases Gen.body_guarded ⟨capacity, echo, im.symbols⟩ ss im.store with
      ⟨f, rest, herror⟩ | ⟨code, hok, hcode⟩
    · refine .inl ⟨f, im.append rest, ?_, rewound_append hs rest⟩
      exact Action.bind_of_error (generating_of_error capacity echo herror)
    · refine .inr ⟨⟨(im.store.append code).define.2,
        im.symbols.modify id (Symbol.located im.store.base)⟩, ?_, rfl,
          guarded_append h hcode⟩
      rw [define, Action.bind_of_ok (generating_of_ok capacity echo hok)]
      rfl
  | _ => exact .inl ⟨_, im, rfl, hs.rewound_eq⟩

/-- Definitions in a row keep what is sealed guarded, up to the one that fails. -/
theorem defineAll_guarded (hs : im.IsSealed) (h : Guarded im.store.cells.toList)
    (ds : List Stmt) :
    (∃ f im', defineAll capacity echo ds im = .error f im' ∧
      Guarded im'.rewound.store.cells.toList) ∨
      ∃ im', defineAll capacity echo ds im = .ok () im' ∧ im'.IsSealed ∧
        Guarded im'.store.cells.toList := by
  induction ds generalizing im with
  | nil => exact .inr ⟨im, rfl, hs, h⟩
  | cons d ds ih =>
    rcases define_guarded capacity echo hs h d with
      ⟨f, im', herror, hrewound⟩ | ⟨im', hok, hs', h'⟩
    · exact .inl ⟨f, im', Action.bind_of_error herror, hrewound ▸ h⟩
    · rw [defineAll, Action.bind_of_ok hok]
      exact ih hs' h'

/-- The main part is appended behind the sealed code, which stays as it was. -/
theorem main_guarded (hs : im.IsSealed) (h : Guarded im.store.cells.toList)
    (ss : List Stmt) :
    (∃ f im', main capacity echo ss im = .error f im' ∧ im'.rewound = im) ∨
      ∃ a im', main capacity echo ss im = .ok a im' ∧ im'.rewound = im ∧
        Guarded im'.store.cells.toList := by
  let cx : GenContext := ⟨capacity, echo, im.symbols⟩
  have hmain : main capacity echo ss im =
      (generating capacity echo (fun cx => Gen.stmts cx (topLevel ss) >>= fun _ =>
        Gen.emit cx .stop) >>= fun _ => pure im.store.base) im := rfl
  have hstop : Gen.Appends Guarded (Gen.emit cx .stop) :=
    (Gen.emits_emit cx .stop).appends fun _ => guarded_stop
  rw [hmain]
  rcases (Gen.appends_stmts cx (topLevel ss)).seq hstop Guarded.append im.store with
    ⟨f, rest, herror⟩ | ⟨u, code, hok, hcode⟩
  · rw [Store.append_nil] at herror
    refine .inl ⟨f, im.append rest, ?_, rewound_append hs rest⟩
    exact Action.bind_of_error (generating_of_error capacity echo herror)
  · rw [Store.append_nil] at hok
    refine .inr ⟨im.store.base, im.append code, ?_, rewound_append hs code,
      guarded_append h hcode⟩
    exact Action.bind_of_ok (generating_of_ok capacity echo hok)

/-- Generating the code of any program, whether it succeeds or not, keeps
conditions behind all branches. -/
theorem generate_guarded (h : Guarded im.rewound.store.cells.toList) (ss : List Stmt) :
    (Action.final (generate capacity echo ss im)).store.IsGuarded := by
  have hprogram : program capacity echo ss im =
      (defineAll capacity echo (definitions ss) >>= fun _ => main capacity echo ss)
        im.rewound := rfl
  rw [generate, hprogram]
  rcases defineAll_guarded capacity echo im.isSealed_rewound h (definitions ss) with
    ⟨f, im', herror, h'⟩ | ⟨im', hok, hs', h'⟩
  · rw [Action.bind_of_error herror]
    exact isGuarded_rewound h'
  · rw [Action.bind_of_ok hok]
    rcases main_guarded capacity echo hs' h' ss with
      ⟨f, im'', herror, hrewound⟩ | ⟨a, im'', hrun, hrewound, h''⟩
    · rw [herror]
      exact isGuarded_rewound (hrewound.symm ▸ h')
    · rw [hrun]
      refine ⟨?_, h''⟩
      show Guarded im''.rewound.store.cells.toList
      rw [hrewound]
      exact h'

end Image

end StackCalc
