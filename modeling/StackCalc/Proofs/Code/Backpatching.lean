import StackCalc.Proofs.Action
import StackCalc.Proofs.Code.Layout
import StackCalc.Proofs.Tree.Codable

/-!
# Backpatching yields the layout

The generator appends code in one pass and patches slots when it reaches the
places they point to. Here this is compared with the two-pass assembler of
`Layout`: on codable trees both write the same cells, and the generator fails
exactly when they do not fit.

The comparison follows the cells behind a fixed store `s`. `Gen.Turns` says what
an action makes of them; a slot that is patched later is a cell of that list, so
patching is `List.set` on it. `Gen.Emits` is the special case of an action that
only appends, for any store.
-/

namespace StackCalc

/-! ### Stores with more cells -/

namespace Store

/-- The store with more cells at its end. -/
def append (s : Store) (code : List Cell) : Store :=
  { s with
    cells := s.cells ++ code.toArray
    base_le_size := by
      rw [Array.size_append]
      exact Nat.le_add_right_of_le s.base_le_size }

/-- A store is its cells and its base; the third field is a proof. -/
theorem ext {s s' : Store} (hcells : s.cells = s'.cells) (hbase : s.base = s'.base) :
    s = s' := by
  cases s
  cases s'
  simp only [mk.injEq]
  exact ⟨hcells, hbase⟩

theorem append_nil (s : Store) : s.append [] = s :=
  ext (by simp [append]) rfl

theorem append_append (s : Store) (xs ys : List Cell) :
    (s.append xs).append ys = s.append (xs ++ ys) :=
  ext (by simp [append]) rfl

theorem size_append (s : Store) (code : List Cell) :
    (s.append code).size = s.size + code.length := by
  simp [append, size]

/-- A cell is pushed behind the cells that were appended, unless these use up
the capacity. -/
theorem push_append (capacity : Nat) (c : Cell) (s : Store) (code : List Cell) :
    push capacity c (s.append code) =
      if capacity ≤ s.size + code.length then .error { kind := .programTooBig }
        (s.append code)
      else .ok (s.size + code.length) (s.append (code ++ [c])) := by
  rw [push, size_append]
  split
  · rfl
  · exact congrArg _ (ext (by simp [append]) rfl)

/-- Patching a cell behind the store changes the list of those cells. -/
theorem patch_append (s : Store) {code : List Cell} {i : Nat}
    (h : i < code.length) (c : Cell) :
    patch (s.size + i) c (s.append code) = .ok () (s.append (code.set i c)) := by
  rw [patch, if_pos (by rw [size_append]; omega)]
  refine congrArg _ (ext ?_ rfl)
  refine Array.toList_inj.mp ?_
  simp [append, size]

end Store

/-- The fault of a program that does not fit. -/
def tooBig : Fault :=
  { kind := .programTooBig }

namespace Gen

/-! ### What an action makes of the cells behind a store -/

variable {capacity : Nat} {s : Store}

/-- There is room to go from `code` to `code'` behind the store. Where nothing
is added there always is. -/
def Room (capacity : Nat) (s : Store) (code code' : List Cell) : Prop :=
  code'.length = code.length ∨ s.size + code'.length ≤ capacity

/-- The action turns the cells `code` behind the store into `code'` and returns
`a`, or fails for want of room. -/
structure Turns {α : Type} (capacity : Nat) (s : Store) (code : List Cell)
    (g : Gen α) (a : α) (code' : List Cell) : Prop where
  grows : code.length ≤ code'.length
  fits : Room capacity s code code' → g (s.append code) = .ok a (s.append code')
  fails : ¬ Room capacity s code code' → ∃ rest,
    g (s.append code) = .error tooBig (s.append rest)

/-- Actions in sequence turn the cells twice. There is room for the whole
exactly if there is room for both steps, since cells are only added. -/
theorem Turns.bind {α β : Type} {code code₁ code₂ : List Cell} {g : Gen α}
    {f : α → Gen β} {a : α} {b : β} (hg : Turns capacity s code g a code₁)
    (hf : Turns capacity s code₁ (f a) b code₂) :
    Turns capacity s code (g >>= f) b code₂ := by
  have h₁ := hg.grows
  have h₂ := hf.grows
  refine ⟨by omega, fun hroom => ?_, fun hroom => ?_⟩
  · -- what fits in the end fits in between
    -- cells are only added, so the room for the first step is at most the room
    -- for both
    have hroom₁ : Room capacity s code code₁ := by
      unfold Room at hroom ⊢
      omega
    have hroom₂ : Room capacity s code₁ code₂ := by
      unfold Room at hroom ⊢
      omega
    rw [Action.bind_of_ok (hg.fits hroom₁)]
    exact hf.fits hroom₂
  -- the room is short for the first step, or else for the second
  · by_cases hroom₁ : Room capacity s code code₁
    · have hroom₂ : ¬ Room capacity s code₁ code₂ := by
        unfold Room at hroom hroom₁ ⊢
        omega
      obtain ⟨rest, hrest⟩ := hf.fails hroom₂
      exact ⟨rest, by rw [Action.bind_of_ok (hg.fits hroom₁), hrest]⟩
    · obtain ⟨rest, hrest⟩ := hg.fails hroom₁
      exact ⟨rest, Action.bind_of_error hrest⟩

theorem Turns.of_eq {α : Type} {code code' code'' : List Cell} {g : Gen α} {a : α}
    (h : Turns capacity s code g a code') (heq : code' = code'') :
    Turns capacity s code g a code'' :=
  heq ▸ h

/-- An action that only returns a value turns no cell. -/
theorem turns_pure {α : Type} (code : List Cell) (a : α) :
    Turns capacity s code (pure a) a code where
  grows := Nat.le_refl _
  fits _ := rfl
  fails h := absurd (.inl rfl) h

/-- A push appends its cell and returns the address at which the cell now stands. -/
theorem turns_push (code : List Cell) (c : Cell) :
    Turns capacity s code (Store.push capacity c) (s.size + code.length)
      (code ++ [c]) where
  grows := by simp
  fits h := by
    rw [Room, List.length_append, List.length_singleton] at h
    rw [Store.push_append, if_neg (by omega)]
  fails h := by
    rw [Room, List.length_append, List.length_singleton] at h
    exact ⟨code, by rw [Store.push_append, if_pos (by omega)]; rfl⟩

theorem turns_emit (cx : GenContext) (code : List Cell) (c : Cell) :
    Turns cx.capacity s code (emit cx c) () (code ++ [c]) :=
  (turns_push code c).bind (turns_pure _ _)

/-- A slot is a cell that stops the run until it is patched. -/
theorem turns_slot (cx : GenContext) (code : List Cell) :
    Turns cx.capacity s code (slot cx) (s.size + code.length) (code ++ [.stop]) :=
  turns_push code .stop

/-- A slot that is patched points behind all cells there are. -/
theorem turns_land {code : List Cell} {i : Nat} (h : i < code.length) :
    Turns capacity s code (land (s.size + i)) ()
      (code.set i (.address (s.size + code.length))) where
  grows := by simp
  fits _ := by
    have hsize : (s.append code).size = s.size + code.length := s.size_append code
    show Store.patch (s.size + i) (.address (s.append code).size) (s.append code) = _
    rw [hsize, Store.patch_append s h]
  fails hc := absurd (.inl (by simp)) hc

/-! ### Actions that append -/

/-- The action appends `code a` to every store of `a` cells, or fails for want
of room. -/
def Emits (capacity : Nat) (g : Gen Unit) (code : Nat → List Cell) : Prop :=
  ∀ s : Store, Turns capacity s [] g () (code s.size)

/-- An action that appends does so behind any cells, too: they are part of the
store it is given. -/
theorem Emits.turns {g : Gen Unit} {code : Nat → List Cell} (h : Emits capacity g code)
    (s : Store) (before : List Cell) :
    Turns capacity s before g () (before ++ code (s.size + before.length)) := by
  obtain ⟨-, hfits, hfails⟩ := h (s.append before)
  rw [Store.append_nil, Store.size_append] at hfits hfails
  have hroom : Room capacity s before (before ++ code (s.size + before.length)) ↔
      Room capacity (s.append before) [] (code (s.size + before.length)) := by
    simp only [Room, Store.size_append, List.length_append, List.length_nil]
    omega
  refine ⟨by simp, fun hr => ?_, fun hr => ?_⟩
  · rw [hfits (hroom.mp hr), Store.append_append]
  · obtain ⟨rest, hrest⟩ := hfails (fun hc => hr (hroom.mpr hc))
    exact ⟨before ++ rest, by rw [hrest, Store.append_append]⟩

/-- The code may be stated differently for each address. -/
theorem Emits.congr {g : Gen Unit} {code code' : Nat → List Cell}
    (h : Emits capacity g code) (heq : ∀ a, code a = code' a) : Emits capacity g code' :=
  fun s => heq s.size ▸ h s

theorem emits_nothing : Emits capacity (pure ()) fun _ => [] :=
  fun _ => turns_pure [] ()

theorem emits_emit (cx : GenContext) (c : Cell) :
    Emits cx.capacity (emit cx c) fun _ => [c] :=
  fun _ => turns_emit cx [] c

/-- The second part of a sequence starts where the code of the first one ends. -/
theorem Emits.seq {g₁ g₂ : Gen Unit} {code₁ code₂ : Nat → List Cell}
    (h₁ : Emits capacity g₁ code₁) (h₂ : Emits capacity g₂ code₂) :
    Emits capacity (g₁ >>= fun _ => g₂)
      fun a => code₁ a ++ code₂ (a + (code₁ a).length) :=
  fun s => (h₁ s).bind (h₂.turns s (code₁ s.size))

/-- An instruction with a symbol for its operand takes two cells. -/
theorem emits_withSymbol (cx : GenContext) (i : Instruction) (id : Nat) :
    Emits cx.capacity (withSymbol cx i id) fun _ => [Layout.plain i, .symbol id] :=
  (emits_emit cx (Layout.plain i)).seq (emits_emit cx (.symbol id))

/-- A call takes three cells: the operation, what is called, and how many
arguments there are. -/
theorem emits_callCells (cx : GenContext) (id count : Nat) :
    Emits cx.capacity (callCells cx id count) fun _ => Layout.callCells id count :=
  (emits_emit cx (.op (.control .call))).seq
    ((emits_emit cx (.symbol id)).seq (emits_emit cx (.count count)))

theorem orRefuse_bind {α β : Type} (note : String) {o : Option α} {a : α} (h : o = some a)
    (f : α → Gen β) : orRefuse note o >>= f = f a := by
  subst h
  exact pure_bind a f

/-! ### Expressions and clauses -/

variable (cx : GenContext)

mutual

/-- The code of an expression does not depend on where it stands, for it has no
addresses in it. -/
theorem emits_expr : ∀ e : Expr, e.Codable cx.symbols →
    Emits cx.capacity (expr cx e) fun _ => Layout.expr cx.symbols e
  | .literal id, _ =>
    (emits_emit cx (Layout.plain .constPush)).seq
      (emits_emit cx (.number (cx.symbols.get id).value))
  | .variable id, _ =>
    (emits_withSymbol cx .varPush id).seq (emits_emit cx (Layout.plain .eval))
  | .binary op lhs rhs, ⟨hop, hl, hr⟩ => by
    obtain ⟨o, ho⟩ := Option.isSome_iff_exists.mp hop
    have h := (emits_expr lhs hl).seq
      ((emits_expr rhs hr).seq (emits_emit cx (Layout.plain (.binary o))))
    -- the operator has an operation, so it is not refused
    rw [expr, binaryOp, orRefuse_bind _ ho]
    exact h.congr fun a => by simp [Layout.expr, ho]
  | .unary op e, ⟨hop, he⟩ => by
    obtain ⟨o, ho⟩ := Option.isSome_iff_exists.mp hop
    have h := (emits_expr e he).seq (emits_emit cx (Layout.plain o))
    rw [expr, unaryOp, orRefuse_bind _ ho]
    exact h.congr fun a => by simp [Layout.expr, ho]
  | .builtin id e, ⟨_, he⟩ => (emits_expr e he).seq (emits_withSymbol cx .builtin id)
  | .step how id, _ => emits_withSymbol cx (.step how) id
  | .call id es, ⟨_, hes⟩ => (emits_exprs es hes).seq (emits_callCells cx id es.length)
  | .arg n, _ => (emits_emit cx (Layout.plain .arg)).seq (emits_emit cx (.count n))
  | .read id, _ => emits_withSymbol cx .read id

theorem emits_exprs : ∀ es : List Expr, Expr.AllCodable cx.symbols es →
    Emits cx.capacity (exprs cx es) fun _ => Layout.exprs cx.symbols es
  | [], _ => emits_nothing
  | e :: es, ⟨he, hes⟩ => (emits_expr e he).seq (emits_exprs es hes)

end

/-- A clause of a loop is laid out as an expression: it leaves a value. -/
theorem emits_clause : ∀ s : Stmt, s.CodableClause cx.symbols →
    Emits cx.capacity (clause cx s) fun _ => Layout.clause cx.symbols s
  | .assign op id e, ⟨hop, _, he⟩ => by
    obtain ⟨o, ho⟩ := Option.isSome_iff_exists.mp hop
    have h := (emits_expr cx e he).seq
      ((emits_withSymbol cx .varPush id).seq (emits_emit cx (Layout.plain (.assign o))))
    rw [clause, assignOp, orRefuse_bind _ ho]
    exact h.congr fun a => by simp [Layout.clause, ho]
  | .argAssign n e, he =>
    (emits_expr cx e he).seq
      ((emits_emit cx (Layout.plain .argAssign)).seq (emits_emit cx (.count n)))
  | .expr e, he => emits_expr cx e he

/-- An item of a print statement is a text, or an expression whose value is
printed. -/
theorem emits_printItem (e : Expr) (he : e.CodableItem cx.symbols) :
    Emits cx.capacity (printItem cx e) fun _ => Layout.printItem cx.symbols e := by
  cases e with
  | text id =>
    obtain ⟨text, htext⟩ := Option.isSome_iff_exists.mp he
    have h := (emits_emit cx (Layout.plain .printText)).seq (emits_emit cx (.text text))
    simp only [printItem, htext]
    exact h.congr fun a => by simp [Layout.printItem, htext]
  | _ => exact (emits_expr cx _ he).seq (emits_emit cx (Layout.plain .printValue))

theorem emits_printItems : ∀ es : List Expr, (∀ e ∈ es, e.CodableItem cx.symbols) →
    Emits cx.capacity (printItems cx es) fun _ => Layout.printItems cx.symbols es
  | [], _ => emits_nothing
  | e :: es, h =>
    (emits_printItem cx e (h e List.mem_cons_self)).seq
      (emits_printItems es fun e' he' => h e' (List.mem_cons_of_mem e he'))

/-! ### Statements -/

/-- The last stretch behind a control operation: its code, a stop, and the slot
that is to point behind it. The cells of the operation and its slots are
`header`. -/
theorem Turns.lastSegment {g : Gen Unit} {seg : Nat → List Cell} {n : Nat}
    (header rest : List Cell) (start i : Nat) (hi : i < header.length)
    (hg : Emits cx.capacity g seg) (hlen : (seg start).length = n)
    (hstart : s.size + (header ++ rest).length = start) :
    Turns cx.capacity s (header ++ rest)
      (g >>= fun _ => emit cx .stop >>= fun _ => land (s.size + i)) ()
      (header.set i (.address (start + n + 1)) ++
        (rest ++ seg start ++ [Cell.stop])) := by
  subst hstart hlen
  refine (hg.turns s _).bind ((turns_emit cx _ .stop).bind ?_)
  -- the slot is in the header, so that patching it leaves the code of the stretch alone
  refine (turns_land ?_).of_eq ?_
  · simp only [List.length_append]
    omega
  · rw [List.append_assoc, List.append_assoc, List.set_append_left i _ hi]
    simp only [List.length_append, List.length_singleton, List.append_assoc,
      Nat.add_assoc]

/-- A stretch behind a control operation that others follow. -/
theorem Turns.segment {g k : Gen Unit} {seg : Nat → List Cell}
    {code : List Cell} {n : Nat} (header rest : List Cell) (start i : Nat)
    (hi : i < header.length) (hg : Emits cx.capacity g seg)
    (hlen : (seg start).length = n) (hstart : s.size + (header ++ rest).length = start)
    (hk : s.size + (header.set i (.address (start + n + 1)) ++
        (rest ++ seg start ++ [Cell.stop])).length = start + n + 1 →
      Turns cx.capacity s (header.set i (.address (start + n + 1)) ++
        (rest ++ seg start ++ [Cell.stop])) k () code) :
    Turns cx.capacity s (header ++ rest)
      (g >>= fun _ => emit cx .stop >>= fun _ => land (s.size + i) >>= fun _ => k)
      () code := by
  have hnext : s.size + (header.set i (.address (start + n + 1)) ++
      (rest ++ seg start ++ [Cell.stop])).length = start + n + 1 := by
    rw [List.length_append] at hstart
    simp only [List.length_append, List.length_set, List.length_singleton]
    omega
  have h := (Turns.lastSegment cx header rest start i hi hg hlen hstart).bind
    (f := fun _ => k) (hk hnext)
  simpa only [bind_assoc] using h

mutual

/-- The code of a statement is that of the layout at the address where it
starts. Each control operation comes with its slots first; the stretches behind
them are appended one by one, and every slot is patched when the cell it points
to is reached. -/
theorem emits_stmt : ∀ s : Stmt, s.Codable cx.symbols →
    Emits cx.capacity (stmt cx s) fun a => Layout.stmt cx.symbols cx.echo a s
  | .assign op id e, h =>
    (emits_clause cx (.assign op id e) h).seq (emits_emit cx (Layout.plain .pop))
  | .argAssign n e, h =>
    (emits_clause cx (.argAssign n e) h).seq (emits_emit cx (Layout.plain .pop))
  | .print items, h => emits_printItems cx items h
  | .whileLoop cond body, ⟨hcond, hbody⟩ => by
    intro s
    refine (turns_emit cx [] _).bind ((turns_slot cx _).bind ((turns_slot cx _).bind ?_))
    -- the first slot is patched behind the condition, the second behind the body
    refine Turns.segment cx [_, _, _] [] (s.size + 3) 1 (by simp)
      (emits_expr cx cond hcond) (Layout.length_expr _ cond) rfl fun hnext => ?_
    refine (Turns.lastSegment cx _ _ _ 2 (by simp) (emits_stmts body hbody)
      (Layout.length_stmts _ _ _ body) hnext).of_eq ?_
    simp [Layout.stmt]
  | .forLoop init cond post body, ⟨hinit, hcond, hpost, hbody⟩ => by
    intro s
    refine (turns_emit cx [] _).bind ((turns_slot cx _).bind ((turns_slot cx _).bind
      ((turns_slot cx _).bind ((turns_slot cx _).bind ?_))))
    -- each slot is patched when the stretch before its target is complete
    refine Turns.segment cx [_, _, _, _, _] [] (s.size + 5) 1 (by simp)
      (emits_clause cx init hinit) (Layout.length_clause _ init) rfl fun hnext => ?_
    refine Turns.segment cx _ _ _ 2 (by simp) (emits_expr cx cond hcond)
      (Layout.length_expr _ cond) hnext fun hnext => ?_
    refine Turns.segment cx _ _ _ 3 (by simp) (emits_clause cx post hpost)
      (Layout.length_clause _ post) hnext fun hnext => ?_
    refine (Turns.lastSegment cx _ _ _ 4 (by simp) (emits_stmts body hbody)
      (Layout.length_stmts _ _ _ body) hnext).of_eq ?_
    simp [Layout.stmt]
  | .ifThen cond body, ⟨hcond, hbody⟩ => by
    intro s
    refine (turns_emit cx [] _).bind ((turns_slot cx _).bind ((turns_slot cx _).bind
      ((turns_slot cx _).bind ?_)))
    -- the slot of the second branch is never patched
    refine Turns.segment cx [_, _, _, _] [] (s.size + 4) 1 (by simp)
      (emits_expr cx cond hcond) (Layout.length_expr _ cond) rfl fun hnext => ?_
    refine (Turns.lastSegment cx _ _ _ 3 (by simp) (emits_stmts body hbody)
      (Layout.length_stmts _ _ _ body) hnext).of_eq ?_
    simp [Layout.stmt]
  | .ifElse cond body other, ⟨hcond, hbody, hother⟩ => by
    intro s
    refine (turns_emit cx [] _).bind ((turns_slot cx _).bind ((turns_slot cx _).bind
      ((turns_slot cx _).bind ?_)))
    -- as above, but here the second slot is patched: the other branch starts
    -- behind the first
    refine Turns.segment cx [_, _, _, _] [] (s.size + 4) 1 (by simp)
      (emits_expr cx cond hcond) (Layout.length_expr _ cond) rfl fun hnext => ?_
    refine Turns.segment cx _ _ _ 2 (by simp) (emits_stmts body hbody)
      (Layout.length_stmts _ _ _ body) hnext fun hnext => ?_
    refine (Turns.lastSegment cx _ _ _ 3 (by simp) (emits_stmts other hother)
      (Layout.length_stmts _ _ _ other) hnext).of_eq ?_
    simp [Layout.stmt]
  | .expr e, he =>
    (emits_expr cx e he).seq (emits_emit cx (Layout.ending cx.echo))
  | .call id es, ⟨_, hes⟩ => (emits_exprs cx es hes).seq (emits_callCells cx id es.length)
  | .returnValue e, he =>
    (emits_expr cx e he).seq (emits_emit cx (Layout.plain .returnValue))
  | .returnNothing, _ => emits_emit cx (Layout.plain .returnNothing)

theorem emits_stmts : ∀ ss : List Stmt, Stmt.AllCodable cx.symbols ss →
    Emits cx.capacity (stmts cx ss) fun a => Layout.stmts cx.symbols cx.echo a ss
  | [], _ => emits_nothing
  | s :: ss, ⟨hs, hss⟩ => by
    have h := (emits_stmt s hs).seq (emits_stmts ss hss)
    exact h.congr fun a => by rw [Layout.length_stmt, Layout.stmts]

end

end Gen

end StackCalc
