import StackCalc.Proofs.Action
import StackCalc.Proofs.Tree.WellFormed

/-!
# Code of any tree

What the generator appends for a tree of which nothing is known but that its
places are in the symbol table. It may refuse the tree in the middle of any
construct. Whether it does or not, it leaves the cells in front of its own
alone; and when it is done, its code is closed: symbols are in the table,
addresses point forward and stay inside, and every operation has its operands
(`Closed`).

While code is being generated, operands and addresses are still missing.
`Gen.Pending` says what holds then, with the number of operands owed to the last
operation and the slots that may still be patched as arguments; `Gen.Builds` is
the judgement that follows the generator from one such state to the next.
-/

namespace StackCalc

/-! ### Trees over the places of a table -/

section

variable (n : Nat)

mutual

/-- An expression whose places are below `n`. -/
def Expr.InRange : Expr → Prop
  | .literal id => id < n
  | .variable id => id < n
  | .text id => id < n
  | .binary _ lhs rhs => lhs.InRange ∧ rhs.InRange
  | .unary _ e => e.InRange
  | .builtin id e => id < n ∧ e.InRange
  | .step _ id => id < n
  | .call id es => id < n ∧ Expr.AllInRange es
  | .arg _ => True
  | .read id => id < n

/-- Expressions whose places are below `n`. -/
def Expr.AllInRange : List Expr → Prop
  | [] => True
  | e :: es => e.InRange ∧ Expr.AllInRange es

end

mutual

/-- A statement whose places are below `n`. -/
def Stmt.InRange : Stmt → Prop
  | .assign _ id e => id < n ∧ e.InRange n
  | .argAssign _ e => e.InRange n
  | .print items => Expr.AllInRange n items
  | .whileLoop cond body => cond.InRange n ∧ Stmt.AllInRange body
  | .forLoop init cond post body =>
    init.InRange ∧ cond.InRange n ∧ post.InRange ∧ Stmt.AllInRange body
  | .ifThen cond body => cond.InRange n ∧ Stmt.AllInRange body
  | .ifElse cond body other =>
    cond.InRange n ∧ Stmt.AllInRange body ∧ Stmt.AllInRange other
  | .expr e => e.InRange n
  | .call id es => id < n ∧ Expr.AllInRange n es
  | .returnValue e => e.InRange n
  | .returnNothing => True
  | .define _ id body => id < n ∧ Stmt.AllInRange body

/-- Statements whose places are below `n`. -/
def Stmt.AllInRange : List Stmt → Prop
  | [] => True
  | s :: ss => s.InRange ∧ Stmt.AllInRange ss

end

end

theorem Stmt.allInRange_iff {n : Nat} {ss : List Stmt} :
    Stmt.AllInRange n ss ↔ ∀ s ∈ ss, s.InRange n := by
  induction ss with
  | nil => simp [Stmt.AllInRange]
  | cons s ss ih => simp [Stmt.AllInRange, ih]

section

variable {t : SymbolTable} {inDefinition : Bool}

mutual

/-- The places of an expression that has a meaning are in the table: most of
them because the entry there has a kind that only a real entry has. -/
theorem Expr.WellFormed.inRange :
    ∀ {e : Expr}, e.WellFormed t inDefinition → e.InRange t.size
  | .literal _, h => SymbolTable.lt_size_of_kind (by rw [show _ = _ from h]; decide)
  | .variable _, h => h
  | .binary _ _ _, ⟨_, hl, hr⟩ => ⟨hl.inRange, hr.inRange⟩
  | .unary _ e, ⟨_, he⟩ => Expr.WellFormed.inRange (e := e) he
  | .builtin _ _, ⟨hk, _, he⟩ =>
    ⟨SymbolTable.lt_size_of_kind (by rw [hk]; decide), he.inRange⟩
  | .step _ _, h => h
  | .call _ _, ⟨hid, hes⟩ => ⟨hid, Expr.AllWellFormed.inRange hes⟩
  | .arg _, _ => trivial
  | .read _, h => h

/-- The same for a row of expressions. -/
theorem Expr.AllWellFormed.inRange :
    ∀ {es : List Expr}, Expr.AllWellFormed t inDefinition es → Expr.AllInRange t.size es
  | [], _ => trivial
  | _ :: _, ⟨he, hes⟩ => ⟨he.inRange, Expr.AllWellFormed.inRange hes⟩

end

/-- Texts may be printed, and their places are in the table too. -/
theorem Expr.Printable.allInRange :
    ∀ {es : List Expr}, (∀ e ∈ es, e.Printable t inDefinition) → Expr.AllInRange t.size es
  | [], _ => trivial
  | e :: es, h => by
    refine ⟨?_, Expr.Printable.allInRange fun e' he' => h e' (List.mem_cons_of_mem e he')⟩
    have he := h e List.mem_cons_self
    cases e with
    | text id => exact he.1
    | _ =>
      have hexpr : Expr.WellFormed t inDefinition _ := he
      exact hexpr.inRange

theorem Stmt.IsClause.inRange {s : Stmt} (h : s.IsClause t inDefinition) :
    s.InRange t.size := by
  cases s with
  | assign op id e => exact ⟨h.2.1, h.2.2.inRange⟩
  | argAssign n e => exact Expr.WellFormed.inRange h.2.2
  | expr e => exact Expr.WellFormed.inRange h
  | _ => exact h.elim

mutual

/-- The places of a statement that has a meaning are in the table. -/
theorem Stmt.WellFormed.inRange :
    ∀ {s : Stmt}, s.WellFormed t inDefinition → s.InRange t.size
  | .assign op id e, h => Stmt.IsClause.inRange (s := .assign op id e) h
  | .argAssign n e, h => Stmt.IsClause.inRange (s := .argAssign n e) h
  | .print _, h => Expr.Printable.allInRange h
  | .whileLoop _ _, ⟨hc, hb⟩ => ⟨hc.inRange, Stmt.AllWellFormed.inRange hb⟩
  | .forLoop _ _ _ _, ⟨hi, hc, hp, hb⟩ =>
    ⟨hi.inRange, hc.inRange, hp.inRange, Stmt.AllWellFormed.inRange hb⟩
  | .ifThen _ _, ⟨hc, hb⟩ => ⟨hc.inRange, Stmt.AllWellFormed.inRange hb⟩
  | .ifElse _ _ _, ⟨hc, hb, ho⟩ =>
    ⟨hc.inRange, Stmt.AllWellFormed.inRange hb, Stmt.AllWellFormed.inRange ho⟩
  | .expr _, h => Expr.WellFormed.inRange h
  | .call _ _, ⟨hid, hes⟩ => ⟨hid, Expr.AllWellFormed.inRange hes⟩
  | .returnValue e, h => Expr.WellFormed.inRange (e := e) h.2
  | .returnNothing, _ => trivial

/-- The same for statements in a row. -/
theorem Stmt.AllWellFormed.inRange :
    ∀ {ss : List Stmt}, Stmt.AllWellFormed t inDefinition ss → Stmt.AllInRange t.size ss
  | [], _ => trivial
  | _ :: _, ⟨hs, hss⟩ => ⟨hs.inRange, Stmt.AllWellFormed.inRange hss⟩

end

/-- The places of a program that has a meaning are in the table. -/
theorem Stmt.IsTopLevel.allInRange {program : List Stmt}
    (h : ∀ s ∈ program, s.IsTopLevel t) :
    Stmt.AllInRange t.size program := by
  refine Stmt.allInRange_iff.mpr fun s hs => ?_
  have hs' := h s hs
  cases s with
  | define kind id body => exact ⟨hs'.1, Stmt.AllWellFormed.inRange hs'.2⟩
  | _ => exact Stmt.WellFormed.inRange hs'

end

/-! ### Closed code -/

/-- How many cells behind an instruction belong to it. -/
def Instruction.operands : Instruction → Nat
  | constPush => 1
  | varPush => 1
  | step _ => 1
  | builtin => 1
  | printText => 1
  | read => 1
  | arg => 1
  | argAssign => 1
  | _ => 0

/-- How many cells behind an operation belong to it. -/
def Opcode.operands : Opcode → Nat
  | plain i => i.operands
  | control .whileLoop => 2
  | control .forLoop => 4
  | control .branch => 3
  | control .call => 2

/-- The cells from `lo` to `hi` are code that is complete in itself, over the
places below `n`: addresses point forward and stay inside, and behind every
operation stand its operands and something to go on with. -/
structure Closed (n : Nat) (cells : Array Cell) (lo hi : Nat) : Prop where
  symbol : ∀ {i id}, lo ≤ i → i < hi → cells[i]? = some (.symbol id) → id < n
  address : ∀ {i b}, lo ≤ i → i < hi → cells[i]? = some (.address b) → i < b ∧ b < hi
  operands : ∀ {i o}, lo ≤ i → i < hi → cells[i]? = some (.op o) → i + 1 + o.operands < hi

namespace Closed

variable {n n' lo mid hi : Nat} {cells cells' : Array Cell}

theorem nil (n : Nat) (cells : Array Cell) (a : Nat) : Closed n cells a a where
  symbol hlo hhi := absurd hlo (Nat.not_le_of_lt hhi)
  address hlo hhi := absurd hlo (Nat.not_le_of_lt hhi)
  operands hlo hhi := absurd hlo (Nat.not_le_of_lt hhi)

theorem mono (h : Closed n cells lo hi) (hn : n ≤ n') : Closed n' cells lo hi where
  symbol hlo hhi hc := Nat.lt_of_lt_of_le (h.symbol hlo hhi hc) hn
  address := h.address
  operands := h.operands

/-- Whether code is closed depends on the cells up to its end only. -/
theorem congr (h : Closed n cells lo hi) (hcells : ∀ i < hi, cells'[i]? = cells[i]?) :
    Closed n cells' lo hi where
  symbol hlo hhi hc := h.symbol hlo hhi ((hcells _ hhi).symm.trans hc)
  address hlo hhi hc := h.address hlo hhi ((hcells _ hhi).symm.trans hc)
  operands hlo hhi hc := h.operands hlo hhi ((hcells _ hhi).symm.trans hc)

/-- Code behind code. -/
theorem append (h : Closed n cells lo mid) (h' : Closed n cells mid hi) (hle : mid ≤ hi) :
    Closed n cells lo hi where
  symbol := by
    intro i id hlo hhi hc
    by_cases hi' : i < mid
    · exact h.symbol hlo hi' hc
    · exact h'.symbol (Nat.le_of_not_lt hi') hhi hc
  address := by
    intro i b hlo hhi hc
    by_cases hi' : i < mid
    · obtain ⟨hlt, hb⟩ := h.address hlo hi' hc
      exact ⟨hlt, Nat.lt_of_lt_of_le hb hle⟩
    · exact h'.address (Nat.le_of_not_lt hi') hhi hc
  operands := by
    intro i o hlo hhi hc
    by_cases hi' : i < mid
    · exact Nat.lt_of_lt_of_le (h.operands hlo hi' hc) hle
    · exact h'.operands (Nat.le_of_not_lt hi') hhi hc

end Closed

/-! ### Stores in the making -/

namespace Store

/-- A push fails and leaves the store alone, or adds its cell at the end. -/
theorem push_cases (capacity : Nat) (c : Cell) (s : Store) :
    (∃ f, push capacity c s = .error f s) ∨
      s.size < capacity ∧ ∃ s', push capacity c s = .ok s.size s' ∧
        s'.cells = s.cells.push c ∧
        s'.base = s.base := by
  rw [push]
  by_cases h : capacity ≤ s.size
  · rw [if_pos h]
    exact .inl ⟨_, rfl⟩
  · rw [if_neg h]
    exact .inr ⟨Nat.lt_of_not_le h, _, rfl, rfl, rfl⟩

theorem patch_of_lt {a : Nat} {s : Store} (h : a < s.size) (c : Cell) :
    ∃ s', patch a c s = .ok () s' ∧ s'.cells = s.cells.setIfInBounds a c ∧
      s'.base = s.base := by
  rw [patch, if_pos h]
  exact ⟨_, rfl, rfl, rfl⟩

end Store

namespace Gen

/-- What the generator keeps of a store, whether it fails or not: the base, the
cells in front of `lo`, and the capacity. -/
structure Framed (capacity lo : Nat) (s s' : Store) : Prop where
  base : s'.base = s.base
  kept : ∀ i < lo, s'.get? i = s.get? i
  size_le : s.size ≤ capacity → s'.size ≤ capacity

theorem Framed.refl (capacity lo : Nat) (s : Store) : Framed capacity lo s s :=
  ⟨rfl, fun _ _ => rfl, id⟩

theorem Framed.trans {capacity lo : Nat} {s s' s'' : Store} (h : Framed capacity lo s s')
    (h' : Framed capacity lo s' s'') : Framed capacity lo s s'' where
  base := h'.base.trans h.base
  kept i hi := (h'.kept i hi).trans (h.kept i hi)
  size_le hle := h'.size_le (h.size_le hle)

section

variable (cx : GenContext) (lo : Nat)

/-- Code in the making from `lo` on. Up to `owed` more cells belong to the last
operation; addresses may point to the next cell; the slots may be patched. -/
structure Pending (owed : Nat) (slots : List Nat) (s : Store) : Prop where
  le_size : lo ≤ s.size
  symbol : ∀ {i id}, lo ≤ i → s.get? i = some (.symbol id) → id < cx.symbols.size
  address : ∀ {i b}, lo ≤ i → s.get? i = some (.address b) → i < b ∧ b ≤ s.size
  operands : ∀ {i o}, lo ≤ i → s.get? i = some (.op o) →
    i + 1 + o.operands ≤ s.size + owed
  slot : ∀ a ∈ slots, lo ≤ a ∧ a < s.size

/-- From a store as `P` says, a generator leaves the cells in front of `lo`
alone, and if it succeeds the store is as `Q` says. -/
def Builds {α : Type} (P : Store → Prop) (g : Gen α) (Q : α → Store → Prop) : Prop :=
  ∀ s, P s → Framed cx.capacity lo s (Action.final (g s)) ∧ ∀ a s',
    g s = .ok a s' → Q a s'

/-- A generator appends code that leaves nothing open. -/
abbrev Adds (g : Gen Unit) : Prop :=
  ∀ slots, Builds cx lo (Pending cx lo 0 slots) g fun _ => Pending cx lo 0 slots

end

/-! ### Rules -/

section

variable {cx : GenContext} {lo : Nat} {α β : Type} {P : Store → Prop}
  {Q : α → Store → Prop}

/-- Rules for the parts of a sequence give one for the whole. If the first part
fails, its own frame is the one of the whole. -/
theorem Builds.bind {g : Gen α} {f : α → Gen β} {R : β → Store → Prop}
    (hg : Builds cx lo P g Q) (hf : ∀ a, Builds cx lo (Q a) (f a) R) :
    Builds cx lo P (g >>= f) R := by
  intro s hs
  obtain ⟨hframed, hok⟩ := hg s hs
  rcases Action.bind_cases g f s with ⟨e, s', hg', hrun⟩ | ⟨a, s', hg', hrun⟩
  · rw [hg'] at hframed
    rw [hrun]
    exact ⟨hframed, fun b s'' hc => by cases hc⟩
  · rw [hg'] at hframed
    obtain ⟨hframed', hok'⟩ := hf a s' (hok a s' hg')
    rw [hrun]
    exact ⟨hframed.trans hframed', hok'⟩

theorem builds_pure (a : α) : Builds cx lo P (pure a : Gen α) fun _ => P := by
  intro s hs
  refine ⟨Framed.refl _ _ s, ?_⟩
  rintro _ _ ⟨⟩
  exact hs

/-- A generator that fails at once has nothing more to keep. -/
theorem builds_refuse (note : String) : Builds cx lo P (refuse note) Q := by
  intro s _
  refine ⟨Framed.refl _ _ s, ?_⟩
  intro a s' hc
  cases hc

theorem builds_orRefuse (note : String) (x : Option α) :
    Builds cx lo P (orRefuse note x) fun a s => x = some a ∧ P s := by
  cases x with
  | none => exact builds_refuse note
  | some a =>
    intro s hs
    refine ⟨Framed.refl _ _ s, ?_⟩
    rintro _ _ ⟨⟩
    exact ⟨rfl, hs⟩

/-- The store may be asked for more at the start, and less may be said of it at
the end. -/
theorem Builds.mono {P' : Store → Prop} {Q' : α → Store → Prop} {g : Gen α}
    (h : Builds cx lo P g Q) (hP : ∀ s, P' s → P s) (hQ : ∀ a s, Q a s → Q' a s) :
    Builds cx lo P' g Q' := by
  intro s hs
  obtain ⟨hframed, hok⟩ := h s (hP s hs)
  exact ⟨hframed, fun a s' hrun => hQ a s' (hok a s' hrun)⟩

/-- Slots may be forgotten. -/
theorem Pending.forget {owed : Nat} {slots slots' : List Nat} {s : Store}
    (h : Pending cx lo owed slots s) (hsub : slots' ⊆ slots) :
    Pending cx lo owed slots' s :=
  { h with slot := fun a ha => h.slot a (hsub ha) }

theorem Builds.forget {owed : Nat} {slots slots' : List Nat} {g : Gen α}
    (h : Builds cx lo P g fun _ => Pending cx lo owed slots) (hsub : slots' ⊆ slots) :
    Builds cx lo P g fun _ => Pending cx lo owed slots' :=
  h.mono (fun _ hs => hs) fun _ _ hs => hs.forget hsub

/-! ### Cells and slots -/

/-- A cell that may be appended: a symbol in the table, or no symbol and no
address. -/
def Appendable (n : Nat) : Cell → Prop
  | .symbol id => id < n
  | .address _ => False
  | _ => True

/-- How many cells a cell needs behind it. -/
def needs : Cell → Nat
  | .op o => o.operands
  | _ => 0

/-- The store after a push is still in order. The new cell pays for one of the
operands that are owed, and owes its own. -/
theorem Pending.push {owed owed' : Nat} {slots : List Nat} {s s' : Store} {c : Cell}
    (h : Pending cx lo owed slots s) (hcells : s'.cells = s.cells.push c)
    (hc : Appendable cx.symbols.size c) (howed : owed ≤ owed' + 1)
    (hneeds : needs c ≤ owed') :
    Pending cx lo owed' (s.size :: slots) s' := by
  have hsize : s'.size = s.size + 1 := by
    rw [Store.size, hcells, Array.size_push]
    rfl
  have hle := h.le_size
  -- a cell of the new store is the new one, or it stood there before
  have hget : ∀ {i c'}, s'.get? i = some c' →
      s.get? i = some c' ∨ i = s.size ∧ c' = c := by
    intro i c' hi
    rw [Store.get?, hcells, Array.getElem?_push] at hi
    split at hi
    case isTrue heq => exact .inr ⟨heq, (Option.some.inj hi).symm⟩
    case isFalse => exact .inl hi
  constructor
  · omega
  · intro i id hlo hi
    rcases hget hi with hold | ⟨-, rfl⟩
    · exact h.symbol hlo hold
    · exact hc
  · intro i b hlo hi
    rcases hget hi with hold | ⟨-, rfl⟩
    · have hb := h.address hlo hold
      omega
    · exact hc.elim
  · intro i o hlo hi
    rcases hget hi with hold | ⟨rfl, rfl⟩
    · have ho := h.operands hlo hold
      omega
    · have ho : o.operands ≤ owed' := hneeds
      omega
  · intro a ha
    rcases List.mem_cons.mp ha with rfl | hold
    · omega
    · have ha' := h.slot a hold
      omega

/-- A push keeps the frame, and the address that it returns is one of a slot. -/
theorem builds_push {owed owed' : Nat} {slots : List Nat} {c : Cell}
    (hc : Appendable cx.symbols.size c) (howed : owed ≤ owed' + 1)
    (hneeds : needs c ≤ owed') :
    Builds cx lo (Pending cx lo owed slots) (Store.push cx.capacity c) fun a =>
      Pending cx lo owed' (a :: slots) := by
  intro s hs
  rcases Store.push_cases cx.capacity c s with
    ⟨f, herror⟩ | ⟨hroom, s', hok, hcells, hbase⟩
  · rw [herror]
    exact ⟨Framed.refl _ _ s, fun _ _ hrun => by cases hrun⟩
  · rw [hok]
    refine ⟨⟨hbase, fun i hi => ?_, fun _ => ?_⟩, ?_⟩
    · show s'.cells[i]? = s.cells[i]?
      have hlt : i < s.cells.size := Nat.lt_of_lt_of_le hi hs.le_size
      rw [hcells, Array.getElem?_push_lt hlt, Array.getElem?_eq_getElem hlt]
    · show s'.cells.size ≤ cx.capacity
      rw [hcells, Array.size_push]
      exact hroom
    · rintro _ _ ⟨⟩
      exact hs.push hcells hc howed hneeds

theorem builds_emit {owed owed' : Nat} {slots : List Nat} {c : Cell}
    (hc : Appendable cx.symbols.size c) (howed : owed ≤ owed' + 1)
    (hneeds : needs c ≤ owed') :
    Builds cx lo (Pending cx lo owed slots) (emit cx c) fun _ =>
      Pending cx lo owed' slots :=
  (builds_push hc howed hneeds).bind fun a =>
    (builds_pure ()).forget (List.subset_cons_self a slots)

/-- A slot is the next operand of its operation. -/
theorem builds_slot {owed : Nat} {slots : List Nat} :
    Builds cx lo (Pending cx lo (owed + 1) slots) (slot cx) fun a =>
      Pending cx lo owed (a :: slots) :=
  builds_push trivial (Nat.le_refl _) (Nat.zero_le _)

/-- Patching a slot makes it point forward. -/
theorem builds_land {owed : Nat} {slots : List Nat} {a : Nat} (ha : a ∈ slots) :
    Builds cx lo (Pending cx lo owed slots) (land a) fun _ =>
      Pending cx lo owed slots := by
  intro s hs
  obtain ⟨hlo, hlt⟩ := hs.slot a ha
  obtain ⟨s', hok, hcells, hbase⟩ := Store.patch_of_lt hlt (.address s.size)
  have hland : land a s = .ok () s' := hok
  -- only the slot itself is another cell now
  have hsize : s'.size = s.size := by
    rw [Store.size, hcells, Array.size_setIfInBounds]
    rfl
  have hother : ∀ {i}, i ≠ a → s'.get? i = s.get? i := by
    intro i hi
    rw [Store.get?, hcells, Array.getElem?_setIfInBounds, if_neg (Ne.symm hi)]
    rfl
  have hself : s'.get? a = some (.address s.size) := by
    have hlt' : a < s.cells.size := hlt
    rw [Store.get?, hcells, Array.getElem?_setIfInBounds, if_pos rfl, if_pos hlt']
  have hcases : ∀ {i c}, s'.get? i = some c →
      s.get? i = some c ∨ i = a ∧ c = .address s.size := by
    intro i c hi
    by_cases heq : i = a
    · rw [heq, hself] at hi
      exact .inr ⟨heq, (Option.some.inj hi).symm⟩
    · rw [hother heq] at hi
      exact .inl hi
  rw [hland]
  refine ⟨⟨hbase, fun i hi => hother (by omega), fun hle => ?_⟩, ?_⟩
  · show s'.size ≤ cx.capacity
    rw [hsize]
    exact hle
  · rintro _ _ ⟨⟩
    constructor
    · rw [hsize]
      exact hs.le_size
    · intro i id hi hc
      rcases hcases hc with hold | ⟨-, heq⟩
      · exact hs.symbol hi hold
      · cases heq
    · intro i b hi hc
      rw [hsize]
      rcases hcases hc with hold | ⟨rfl, heq⟩
      · exact hs.address hi hold
      · cases heq
        exact ⟨hlt, Nat.le_refl _⟩
    · intro i o hi hc
      rw [hsize]
      rcases hcases hc with hold | ⟨-, heq⟩
      · exact hs.operands hi hold
      · cases heq
    · rw [hsize]
      exact hs.slot

end

/-! ### Expressions -/

section

variable (cx : GenContext) (lo : Nat)

variable {cx lo} in
theorem Adds.seq {x y : Gen Unit} (hx : Adds cx lo x) (hy : Adds cx lo y) :
    Adds cx lo (x >>= fun _ => y) :=
  fun slots => (hx slots).bind fun _ => hy slots

theorem adds_nothing : Adds cx lo (pure ()) :=
  fun _ => builds_pure ()

theorem adds_stop : Adds cx lo (emit cx .stop) :=
  fun _ => builds_emit trivial (Nat.zero_le _) (Nat.le_refl _)

/-- An instruction without operands. -/
theorem adds_plain {i : Instruction} (hi : i.operands = 0) : Adds cx lo (plain cx i) :=
  fun _ => builds_emit trivial (Nat.zero_le _) (Nat.le_of_eq hi)

/-- An instruction and its operand. -/
theorem adds_operand {i : Instruction} {c : Cell} (hi : i.operands = 1)
    (hc : Appendable cx.symbols.size c) (hneeds : needs c = 0) :
    Adds cx lo (plain cx i >>= fun _ => emit cx c) :=
  fun slots => Builds.bind (Q := fun _ => Pending cx lo 1 slots)
    (builds_emit trivial (Nat.zero_le _) (Nat.le_of_eq hi)) fun _ =>
      builds_emit hc (Nat.le_refl _) (Nat.le_of_eq hneeds)

theorem adds_withSymbol {i : Instruction} (hi : i.operands = 1) {id : Nat}
    (hid : id < cx.symbols.size) : Adds cx lo (withSymbol cx i id) :=
  adds_operand cx lo hi hid rfl

/-- A call is an operation with two operands, which follow at once. -/
theorem adds_callCells {id : Nat} (hid : id < cx.symbols.size) (count : Nat) :
    Adds cx lo (callCells cx id count) := by
  intro slots
  refine Builds.bind (Q := fun _ => Pending cx lo 2 slots)
    (builds_emit trivial (Nat.zero_le _) (Nat.le_refl _)) fun _ => ?_
  refine Builds.bind (Q := fun _ => Pending cx lo 1 slots)
    (builds_emit hid (Nat.le_refl _) (Nat.zero_le _)) fun _ => ?_
  exact builds_emit trivial (Nat.le_refl _) (Nat.le_refl _)

theorem operands_unaryOp? {op : Operator} {i : Instruction} (h : op.unaryOp? = some i) :
    i.operands = 0 := by
  cases op <;> cases h <;> rfl

mutual

/-- The code of an expression leaves nothing open. Where the generator may
refuse the expression, the frame is kept up to there. -/
theorem adds_expr : ∀ {e : Expr}, e.InRange cx.symbols.size → Adds cx lo (expr cx e)
  | .literal _, _ => adds_operand cx lo rfl trivial rfl
  | .variable _, h => (adds_withSymbol cx lo rfl h).seq (adds_plain cx lo rfl)
  | .text _, _ => fun _ => builds_refuse _
  | .binary _ _ _, ⟨hl, hr⟩ =>
    (adds_expr hl).seq <| (adds_expr hr).seq fun _ =>
      (builds_orRefuse _ _).bind fun _ =>
        (adds_plain cx lo rfl _).mono (fun _ hs => hs.2) fun _ _ hs => hs
  | .unary _ e, h =>
    (adds_expr (e := e) h).seq fun slots s hs =>
      (builds_orRefuse _ _).bind (fun _ s' hs' =>
        adds_plain cx lo (operands_unaryOp? hs'.1) slots s' hs'.2) s hs
  | .builtin _ _, ⟨hid, he⟩ => (adds_expr he).seq (adds_withSymbol cx lo rfl hid)
  | .step _ _, h => adds_withSymbol cx lo rfl h
  | .call _ _, ⟨hid, hes⟩ => (adds_exprs hes).seq (adds_callCells cx lo hid _)
  | .arg _, _ => adds_operand cx lo rfl trivial rfl
  | .read _, h => adds_withSymbol cx lo rfl h

theorem adds_exprs : ∀ {es : List Expr},
    Expr.AllInRange cx.symbols.size es → Adds cx lo (exprs cx es)
  | [], _ => adds_nothing cx lo
  | _ :: _, ⟨he, hes⟩ => (adds_expr he).seq (adds_exprs hes)

end

/-! ### Statements -/

/-- The code of a clause leaves nothing open; statements of other kinds are
refused. -/
theorem adds_clause {s : Stmt} (h : s.InRange cx.symbols.size) :
    Adds cx lo (clause cx s) := by
  cases s with
  | assign op id e =>
    refine (adds_expr cx lo h.2).seq ((adds_withSymbol cx lo rfl h.1).seq fun slots => ?_)
    exact (builds_orRefuse _ _).bind fun _ =>
      (adds_plain cx lo rfl slots).mono (fun _ hs => hs.2) fun _ _ hs => hs
  | argAssign n e => exact (adds_expr cx lo h).seq (adds_operand cx lo rfl trivial rfl)
  | expr e => exact adds_expr cx lo h
  | _ => exact fun _ => builds_refuse _

/-- The code of an item leaves nothing open, and a text that is not there is
refused. -/
theorem adds_printItem {e : Expr} (h : e.InRange cx.symbols.size) :
    Adds cx lo (printItem cx e) := by
  cases e with
  | text id =>
    unfold printItem
    dsimp only
    cases (cx.symbols.get id).text with
    | some s => exact adds_operand cx lo rfl trivial rfl
    | none => exact fun _ => builds_refuse _
  | _ => exact (adds_expr cx lo h).seq (adds_plain cx lo rfl)

theorem adds_printItems :
    ∀ {es : List Expr}, Expr.AllInRange cx.symbols.size es → Adds cx lo (printItems cx es)
  | [], _ => adds_nothing cx lo
  | _ :: _, ⟨he, hes⟩ => (adds_printItem cx lo he).seq (adds_printItems hes)

/-- A stretch of code with its stop, behind which a slot is made to point. -/
theorem builds_stretch {x : Gen Unit} (hx : Adds cx lo x) {slots : List Nat} {a : Nat}
    (ha : a ∈ slots) {g : Gen Unit} {Q : Unit → Store → Prop}
    (hg : Builds cx lo (Pending cx lo 0 slots) g Q) :
    Builds cx lo (Pending cx lo 0 slots)
      (x >>= fun _ => emit cx .stop >>= fun _ => land a >>= fun _ => g) Q :=
  (hx slots).bind fun _ => (adds_stop cx lo slots).bind fun _ =>
    (builds_land ha).bind fun _ => hg

/-- The last stretch of a construct. -/
theorem builds_lastStretch {x : Gen Unit} (hx : Adds cx lo x)
    {slots slots' : List Nat} {a : Nat} (ha : a ∈ slots) (hsub : slots' ⊆ slots) :
    Builds cx lo (Pending cx lo 0 slots)
      (x >>= fun _ => emit cx .stop >>= fun _ => land a) fun _ =>
        Pending cx lo 0 slots' :=
  (hx slots).bind fun _ => (adds_stop cx lo slots).bind fun _ =>
    (builds_land ha).forget hsub

mutual

/-- The code of a statement leaves nothing open. The slots of a control
operation are its operands; each of them is made to point behind one of the
stretches that follow. -/
theorem adds_stmt : ∀ {s : Stmt}, s.InRange cx.symbols.size → Adds cx lo (stmt cx s)
  | .assign op id e, h =>
    (adds_clause cx lo (s := .assign op id e) h).seq (adds_plain cx lo rfl)
  | .argAssign n e, h =>
    (adds_clause cx lo (s := .argAssign n e) h).seq (adds_plain cx lo rfl)
  | .print _, h => adds_printItems cx lo h
  | .whileLoop cond body, ⟨hc, hb⟩ => by
    intro slots
    refine Builds.bind (Q := fun _ => Pending cx lo 2 slots)
      (builds_emit trivial (Nat.zero_le _) (Nat.le_refl _)) fun _ => ?_
    refine builds_slot.bind fun bodySlot => builds_slot.bind fun endSlot => ?_
    refine builds_stretch cx lo (adds_expr cx lo hc) (by simp) ?_
    exact builds_lastStretch cx lo (adds_stmts hb) (by simp) fun _ h => by simp [h]
  | .forLoop init cond post body, ⟨hi, hc, hp, hb⟩ => by
    intro slots
    refine Builds.bind (Q := fun _ => Pending cx lo 4 slots)
      (builds_emit trivial (Nat.zero_le _) (Nat.le_refl _)) fun _ => ?_
    refine builds_slot.bind fun condSlot => builds_slot.bind fun postSlot =>
      builds_slot.bind fun bodySlot => builds_slot.bind fun endSlot => ?_
    refine builds_stretch cx lo (adds_clause cx lo hi) (by simp) ?_
    refine builds_stretch cx lo (adds_expr cx lo hc) (by simp) ?_
    refine builds_stretch cx lo (adds_clause cx lo hp) (by simp) ?_
    exact builds_lastStretch cx lo (adds_stmts hb) (by simp) fun _ h => by simp [h]
  | .ifThen cond body, ⟨hc, hb⟩ => by
    intro slots
    refine Builds.bind (Q := fun _ => Pending cx lo 3 slots)
      (builds_emit trivial (Nat.zero_le _) (Nat.le_refl _)) fun _ => ?_
    refine builds_slot.bind fun thenSlot => builds_slot.bind fun elseSlot =>
      builds_slot.bind fun endSlot => ?_
    refine builds_stretch cx lo (adds_expr cx lo hc) (by simp) ?_
    exact builds_lastStretch cx lo (adds_stmts hb) (by simp) fun _ h => by simp [h]
  | .ifElse cond body other, ⟨hc, hb, ho⟩ => by
    intro slots
    refine Builds.bind (Q := fun _ => Pending cx lo 3 slots)
      (builds_emit trivial (Nat.zero_le _) (Nat.le_refl _)) fun _ => ?_
    refine builds_slot.bind fun thenSlot => builds_slot.bind fun elseSlot =>
      builds_slot.bind fun endSlot => ?_
    refine builds_stretch cx lo (adds_expr cx lo hc) (by simp) ?_
    refine builds_stretch cx lo (adds_stmts hb) (by simp) ?_
    exact builds_lastStretch cx lo (adds_stmts ho) (by simp) fun _ h => by simp [h]
  | .expr e, h => by
    refine (adds_expr cx lo (e := e) h).seq ?_
    split
    · exact adds_plain cx lo rfl
    · exact adds_plain cx lo rfl
  | .call _ _, ⟨hid, hes⟩ => (adds_exprs cx lo hes).seq (adds_callCells cx lo hid _)
  | .returnValue e, h => (adds_expr cx lo (e := e) h).seq (adds_plain cx lo rfl)
  | .returnNothing, _ => adds_plain cx lo rfl
  | .define _ _ _, _ => fun _ => builds_refuse _

theorem adds_stmts : ∀ {ss : List Stmt},
    Stmt.AllInRange cx.symbols.size ss → Adds cx lo (stmts cx ss)
  | [], _ => adds_nothing cx lo
  | _ :: _, ⟨hs, hss⟩ => (adds_stmt hs).seq (adds_stmts hss)

end

end

/-! ### Code that is done -/

section

variable {cx : GenContext} {lo : Nat}

/-- Behind a store there is no code yet. -/
theorem pending_start (s : Store) : Pending cx s.size 0 [] s := by
  have hnone : ∀ {i c}, s.size ≤ i → s.get? i ≠ some c := by
    intro i c hi hc
    rw [Store.get?, Array.getElem?_eq_none hi] at hc
    cases hc
  constructor
  · exact Nat.le_refl _
  · exact fun hlo hc => absurd hc (hnone hlo)
  · exact fun hlo hc => absurd hc (hnone hlo)
  · exact fun hlo hc => absurd hc (hnone hlo)
  · simp

/-- A stop at the end closes the code. -/
theorem Pending.closed {slots : List Nat} {s s' : Store} (h : Pending cx lo 0 slots s)
    (hcells : s'.cells = s.cells.push .stop) :
    Closed cx.symbols.size s'.cells lo s'.size := by
  -- all cells but the last one were there before
  have hsize : s'.size = s.size + 1 := by
    rw [Store.size, hcells, Array.size_push]
    rfl
  have hget : ∀ {i c}, s'.cells[i]? = some c → c ≠ .stop → s.get? i = some c := by
    intro i c hi hne
    rw [hcells, Array.getElem?_push] at hi
    split at hi
    · exact absurd (Option.some.inj hi).symm hne
    · exact hi
  rw [hsize]
  constructor
  · intro i id hlo _ hc
    exact h.symbol hlo (hget hc (by simp))
  · intro i b hlo _ hc
    have hb := h.address hlo (hget hc (by simp))
    omega
  · intro i o hlo _ hc
    have ho := h.operands hlo (hget hc (by simp))
    omega

/-- What is known of an appended cell, beside what stays in order. -/
theorem emit_cases (c : Cell) (s : Store) :
    (∃ f, emit cx c s = .error f s) ∨
      ∃ s', emit cx c s = .ok () s' ∧ s'.cells = s.cells.push c := by
  rcases Store.push_cases cx.capacity c s with ⟨f, herror⟩ | ⟨-, s', hok, hcells, -⟩
  · exact .inl ⟨f, Action.bind_of_error herror⟩
  · exact .inr ⟨s', Action.bind_of_ok hok, hcells⟩

/-- A stop behind code in order closes it. -/
theorem builds_end {slots : List Nat} :
    Builds cx lo (Pending cx lo 0 slots) (emit cx .stop) fun _ s' =>
      Closed cx.symbols.size s'.cells lo s'.size := by
  intro s hs
  refine ⟨(adds_stop cx lo slots s hs).1, fun u s' hrun => ?_⟩
  rcases @emit_cases cx .stop s with ⟨f, herror⟩ | ⟨s₁, hok, hcells⟩
  · rw [herror] at hrun
    cases hrun
  · rw [hok] at hrun
    cases hrun
    exact hs.closed hcells

end

end Gen

/-- The cells from `lo` to `hi` end by returning from a procedure, and a stop. -/
structure EndsInReturn (cells : Array Cell) (lo hi : Nat) : Prop where
  length : lo + 2 ≤ hi
  returns : cells[hi - 2]? = some (.op (.plain .returnNothing))
  stops : cells[hi - 1]? = some .stop

/-- The end of a body depends on the cells up to there only. -/
theorem EndsInReturn.congr {cells cells' : Array Cell} {lo hi : Nat}
    (h : EndsInReturn cells lo hi) (hcells : ∀ i < hi, cells'[i]? = cells[i]?) :
    EndsInReturn cells' lo hi := by
  have hlength := h.length
  constructor
  · exact hlength
  · rw [hcells _ (by omega)]
    exact h.returns
  · rw [hcells _ (by omega)]
    exact h.stops

namespace Gen

variable {cx : GenContext} {lo : Nat}

/-- The end of a body: a return from a procedure, and a stop. -/
theorem builds_bodyEnd {slots : List Nat} :
    Builds cx lo (Pending cx lo 0 slots)
      (plain cx .returnNothing >>= fun _ => emit cx .stop) fun _ s' =>
        Closed cx.symbols.size s'.cells lo s'.size ∧
        EndsInReturn s'.cells lo s'.size := by
  intro s hs
  obtain ⟨hframed, hclosed⟩ :=
    ((adds_plain cx lo (i := .returnNothing) rfl slots).bind fun _ => builds_end) s hs
  refine ⟨hframed, fun u s' hrun => ⟨hclosed u s' hrun, ?_⟩⟩
  obtain ⟨v, s₁, hfirst, hlast⟩ := Action.of_bind_ok hrun
  rcases @emit_cases cx (.op (.plain .returnNothing)) s with
    ⟨f, herror⟩ | ⟨s₂, hok, hcells⟩
  · cases herror.symm.trans hfirst
  · cases hok.symm.trans hfirst
    rcases @emit_cases cx .stop s₁ with ⟨f, herror⟩ | ⟨s₃, hok', hcells'⟩
    · cases herror.symm.trans hlast
    · cases hok'.symm.trans hlast
      have hle := hs.le_size
      have hsize₁ : s₁.cells.size = s.size + 1 := by
        rw [hcells, Array.size_push]
        rfl
      have hsize : s'.size = s.size + 2 := by
        rw [Store.size, hcells', Array.size_push, hsize₁]
      rw [hsize, hcells']
      constructor
      · omega
      · rw [Array.getElem?_push, if_neg (by omega), hcells, Array.getElem?_push]
        exact if_pos rfl
      · rw [Array.getElem?_push]
        exact if_pos hsize₁.symm

/-- Generating the body of a definition at the end of a sealed store: on success
a new stretch of closed code is sealed; otherwise nothing is. -/
theorem body_cases {ss : List Stmt} (hss : Stmt.AllInRange cx.symbols.size ss) {s : Store}
    (hs : s.base = s.size) :
    (∃ f s', body cx ss s = .error f s' ∧ Framed cx.capacity s.base s s') ∨
      ∃ s', body cx ss s = .ok s.base s' ∧ s'.base = s'.size ∧
        (∀ i < s.base, s'.get? i = s.get? i) ∧
        (s.size ≤ cx.capacity → s'.size ≤ cx.capacity) ∧
        Closed cx.symbols.size s'.cells s.base s'.base ∧
        EndsInReturn s'.cells s.base s'.base := by
  have hbody : body cx ss =
      (stmts cx ss >>= fun _ => plain cx .returnNothing >>= fun _ => emit cx .stop) >>=
        fun _ => modifyGet Store.define := by
    simp only [body, bind_assoc]
  obtain ⟨hframed, hdone⟩ :=
    ((adds_stmts cx s.base hss []).bind fun _ => builds_bodyEnd) s (hs ▸ pending_start s)
  rw [hbody]
  cases hrun : (stmts cx ss >>= fun _ => plain cx .returnNothing >>=
    fun _ => emit cx .stop) s with
  | error f s' =>
    rw [hrun] at hframed
    exact .inl ⟨f, s', Action.bind_of_error hrun, hframed⟩
  | ok u s' =>
    rw [hrun] at hframed
    obtain ⟨hclosed, hends⟩ := hdone u s' hrun
    refine .inr ⟨s'.define.2, ?_, rfl, hframed.kept, hframed.size_le, hclosed, hends⟩
    rw [Action.bind_of_ok hrun, Action.modifyGet_apply]
    exact congrArg (EStateM.Result.ok · _) hframed.base

end Gen

end StackCalc
