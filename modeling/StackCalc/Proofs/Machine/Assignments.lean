import StackCalc.Proofs.Machine.Accesses
import StackCalc.Proofs.Symbol.Transitions

/-!
# Assignments while code runs

Running code changes symbols by assignments only (`Exec.assigns_execute`): those
of the instructions that assign, step or read, and that of showing a value,
which is to `_`.

To say where in a run a symbol becomes a variable, the run is watched
(`Exec.watchedExecute`): a test before each cell breaks it off at the first one
that names the symbol as one to make a variable of (`Machine.makesVariable?`).
Up to there the symbol keeps its kind (`Exec.keepsKind_exec`), and a run that is
not broken off is the run without the test (`Exec.cutShort_execute`).
-/

namespace StackCalc

/-- The symbol that the cell at hand makes a variable. -/
def Machine.makesVariable? (job : Job) (m : Machine) : Option Nat :=
  match job.cells[m.pc]? with
  | some (.op (.plain i)) => i.makesVariable? job { m with pc := m.pc + 1 }
  | _ => none

/-- Whether the cell at hand makes no variable of the symbol at `id`. -/
def Machine.spares (job : Job) (id : Nat) (m : Machine) : Bool :=
  m.makesVariable? job != some id

theorem Instruction.Change.assigns {job : Job} {i : Instruction} {m : Machine}
    {t : SymbolTable} (h : i.Change job m t) (hs : m.symbols.Sound) :
    m.symbols.Assigns t := by
  cases h with
  | nothing => exact .refl _
  | assigned x ha _ => exact SymbolTable.assigns_modify x (.inl ha)
  | shown x _ => exact SymbolTable.assigns_shown hs x

/-- An instruction changes the kind of no other symbol than the one it makes a
variable. -/
theorem Instruction.Change.kind_eq {job : Job} {i : Instruction} {m : Machine}
    {t : SymbolTable} (h : i.Change job m t) {id : Nat} (hid : id < m.symbols.size)
    (hspared : i.makesVariable? job m ≠ some id) :
    (t.get id).kind = (m.symbols.get id).kind := by
  cases h with
  | nothing => rfl
  | @assigned id' x ha hmakes =>
    rw [SymbolTable.get_modify]
    split
    case isTrue hc =>
      obtain ⟨rfl, -⟩ := hc
      -- the assigned symbol was a variable before, or it is the one that is
      -- made a variable
      rcases hmakes with hmakes | hvar
      · exact absurd hmakes hspared
      · exact hvar.symm
    case isFalse => rfl
  | shown x hi =>
    subst hi
    rcases SymbolTable.resolve_cases m.symbols "_" with ⟨id', hlookup, heq⟩ | ⟨-, heq⟩
    · have hne : id ≠ id' := by
        rintro rfl
        exact hspared hlookup
      rw [heq, SymbolTable.get_modify_other _ _ hne]
    -- `_` is installed behind all symbols there were, so it is not the one at
    -- hand
    · have hne := Nat.ne_of_lt hid
      rw [heq, SymbolTable.get_modify_other _ _ hne, SymbolTable.get_install, if_neg hne]

namespace Exec

open StackCalc.Action

variable {job : Job}

/-! ### Whole runs -/

/-- The symbols stay sound and are changed by assignments only. -/
def Assigning (m m' : Machine) : Prop :=
  m.symbols.Sound → m'.symbols.Sound ∧ m.symbols.Assigns m'.symbols

theorem steady_assigning : Steady Assigning where
  refl _ hs := ⟨hs, .refl _⟩
  trans h h' hs := by
    obtain ⟨hs', hassigns⟩ := h hs
    obtain ⟨hs'', hassigns'⟩ := h' hs'
    exact ⟨hs'', hassigns.trans hassigns'⟩

theorem assigning_of_symbols {m m' : Machine} (h : m'.symbols = m.symbols) :
    Assigning m m' := by
  intro hs
  rw [h]
  exact ⟨hs, .refl _⟩

/-- An instruction changes symbols by assignments only. -/
theorem assigning_instruction (job : Job) (i : Instruction) :
    Keeps Assigning (i.run job) := by
  intro m hs
  have hchange := change_instruction job m i
  exact ⟨(runs_of_change hchange hs).advances.sound hs, hchange.assigns hs⟩

/-- What running code does to the symbols, whatever the code is and however the
run ends. -/
theorem assigns_execute (job : Job) (fuel a : Nat) {m : Machine} (hs : m.symbols.Sound) :
    m.symbols.Assigns (final (execute job fuel a m)).symbols := by
  have hexec : Keeps Assigning (exec job fuel job.limits.depth a) :=
    keeps_exec steady_assigning (fun h =>
      assigning_of_symbols (Machine.symbols_of_surroundings h))
        (assigning_instruction job) fuel _ a
  exact (hexec (m.start a) hs).2

/-! ### Runs that are cut short -/

variable {α β : Type} {ok : Machine → Bool} {breach : Halt}

/-- The action `x` does what `y` does, or is broken off where the test fails. -/
def CutShort (ok : Machine → Bool) (breach : Halt) (x y : Exec α) : Prop :=
  ∀ m, x m = y m ∨ ∃ m₁, ok m₁ = false ∧ x m = .error breach m₁

theorem CutShort.refl (x : Exec α) : CutShort ok breach x x :=
  fun _ => .inl rfl

/-- A sequence is cut short in its first part or in its second. -/
theorem CutShort.bind {x y : Exec α} {f g : α → Exec β} (hx : CutShort ok breach x y)
    (hf : ∀ a, CutShort ok breach (f a) (g a)) :
    CutShort ok breach (x >>= f) (y >>= g) := by
  intro m
  rcases hx m with heq | ⟨m₁, hok, hx⟩
  · rw [bind_apply, bind_apply, heq]
    cases y m with
    | ok a m' => exact hf a m'
    | error e m' => exact .inl rfl
  · exact .inr ⟨m₁, hok, bind_of_error hx⟩

theorem Composed.cutShort {x y : Exec α} (h : Composed (CutShort ok breach) x y) :
    CutShort ok breach x y := by
  induction h with
  | inner => exact .refl _
  | part h => exact h
  | bind _ _ hx hf => exact hx.bind hf

theorem cutShort_watch {x y : Exec α} (h : CutShort ok breach x y) :
    CutShort ok breach (watch ok breach x) y := by
  intro m
  unfold watch
  cases hok : ok m with
  | true => exact h m
  | false => exact .inr ⟨m, hok, rfl⟩

/-- Cells with tests between them are cut short at one of the tests. -/
theorem cutShort_dispatch {enter enter' : Nat → Exec Unit}
    (h : ∀ a, CutShort ok breach (enter a) (enter' a)) (fuel rounds : Nat) :
    CutShort ok breach (watchedDispatch ok breach job enter fuel rounds)
      (dispatch job enter' fuel rounds) := by
  induction rounds with
  | zero => exact .refl _
  | succ rounds ih =>
    refine (cutShort_watch (composed_cell h (fun _ => .refl _) fuel).cutShort).bind
      fun b => ?_
    split
    · exact ih
    · exact .refl _

theorem cutShort_exec (fuel depth a : Nat) :
    CutShort ok breach (watchedExec ok breach job fuel depth a)
      (exec job fuel depth a) := by
  induction depth generalizing a with
  | zero => exact .refl _
  | succ depth ih => exact (CutShort.refl _).bind fun _ => cutShort_dispatch ih fuel fuel

/-- A run that is not broken off is the run without the test. -/
theorem cutShort_execute (ok : Machine → Bool) (breach : Halt) (job : Job)
    (fuel a : Nat) :
    CutShort ok breach (watchedExecute ok breach job fuel a) (execute job fuel a) :=
  (CutShort.refl _).bind fun _ => cutShort_exec fuel _ a

/-! ### Runs that spare a symbol -/

/-- A table with an entry at `id`. -/
structure HasEntry (id : Nat) (m : Machine) : Prop where
  sound : m.symbols.Sound
  lt : id < m.symbols.size

/-- The symbol at `id` keeps its kind. -/
def KeepsKind (id : Nat) (m m' : Machine) : Prop :=
  HasEntry id m → HasEntry id m' ∧ (m'.symbols.get id).kind = (m.symbols.get id).kind

theorem steady_keepsKind (id : Nat) : Steady (KeepsKind id) where
  refl _ hm := ⟨hm, rfl⟩
  trans h h' hm := by
    obtain ⟨hm', hkind⟩ := h hm
    obtain ⟨hm'', hkind'⟩ := h' hm'
    exact ⟨hm'', hkind'.trans hkind⟩

/-- Where the symbols stay, so do their kinds. -/
theorem keepsKind_of_symbols {id : Nat} {m m' : Machine} (h : m'.symbols = m.symbols) :
    KeepsKind id m m' := by
  rintro ⟨hs, hlt⟩
  rw [h]
  exact ⟨⟨h ▸ hs, h ▸ hlt⟩, rfl⟩

/-- An instruction that does not make a variable of a symbol keeps its kind. -/
theorem keepsKind_instruction {i : Instruction} {id : Nat} {m : Machine}
    (h : i.makesVariable? job m ≠ some id) : KeepsKind id m (final (i.run job m)) := by
  rintro ⟨hs, hlt⟩
  obtain ⟨hs', hassigns⟩ := assigning_instruction job i m hs
  exact ⟨⟨hs', Nat.lt_of_lt_of_le hlt hassigns.size_le⟩,
    (change_instruction job m i).kind_eq hlt h⟩

section

variable {id : Nat} {enter : Nat → Exec Unit} (h : ∀ a, Keeps (KeepsKind id) (enter a))

include h

/-- A control operation keeps kinds if the stretches it enters do; an
instruction does if it spares the symbol. -/
theorem keepsKind_operation {o : Opcode} (fuel : Nat) {m : Machine}
    (ho : ∀ i, o = .plain i → i.makesVariable? job m ≠ some id) :
    KeepsKind id m (final (operation job enter fuel o m)) := by
  cases o with
  | plain i => exact keepsKind_instruction (ho i rfl)
  | control c =>
    exact keeps_control (steady_keepsKind id)
      (fun h => keepsKind_of_symbols (Machine.symbols_of_surroundings h)) h fuel c m

/-- A cell before which the test was passed keeps the kind of the symbol. -/
theorem keepsKind_cell (breach : Halt) (fuel : Nat) :
    Keeps (KeepsKind id) (watch (Machine.spares job id) breach
      (cell job enter fuel)) := by
  intro m
  have hsame : KeepsKind id m m := (steady_keepsKind id).refl m
  unfold watch
  split
  case isFalse => exact hsame
  case isTrue hspares =>
    rw [cell_apply]
    split
    · exact hsame
    split
    · exact hsame
    split
    case h_3 o hc =>
      -- what the test says of the machine at the cell, it says of it behind the cell
      have ho : ∀ i, o = .plain i →
          i.makesVariable? job { m with pc := m.pc + 1 } ≠ some id := by
        rintro i rfl
        simpa [Machine.spares, Machine.makesVariable?, hc] using hspares
      have hmoved : KeepsKind id m { m with pc := m.pc + 1 } := keepsKind_of_symbols rfl
      have hrun := (steady_keepsKind id).trans hmoved (keepsKind_operation h fuel ho)
      rw [bind_apply]
      cases hop : operation job enter fuel o { m with pc := m.pc + 1 } with
      | ok _ m' =>
        rw [hop] at hrun
        exact hrun
      | error e m' =>
        rw [hop] at hrun
        exact hrun
    case h_2 => exact keepsKind_of_symbols rfl
    all_goals exact hsame

end

theorem keepsKind_exec (id : Nat) (breach : Halt) (fuel depth a : Nat) :
    Keeps (KeepsKind id) (watchedExec (Machine.spares job id) breach job fuel depth a) :=
  keeps_watchedExec (P := fun _ => True) (steady_keepsKind id)
    (fun _ _ m => keepsKind_of_symbols (m := m) rfl)
    (fun _ h => keepsKind_cell (fun a => h a trivial) breach fuel) depth trivial

/-- A run in which the kind of a symbol changes comes to a cell that makes a
variable of it, and until then the symbol is what it was. -/
theorem exists_makesVariable (job : Job) (fuel a : Nat) {id : Nat} {m : Machine}
    (hm : HasEntry id m)
    (hkind : ((final (execute job fuel a m)).symbols.get id).kind ≠
      (m.symbols.get id).kind)
    (breach : Halt) :
    ∃ m₁, watchedExecute (Machine.spares job id) breach job fuel a m = .error breach m₁ ∧
      m₁.makesVariable? job = some id ∧
      (m₁.symbols.get id).kind = (m.symbols.get id).kind := by
  have hstart : HasEntry id (m.start a) := ⟨hm.sound, hm.lt⟩
  obtain ⟨-, hsame⟩ := keepsKind_exec id breach fuel job.limits.depth a (m.start a) hstart
  have hwatched :
      ((final (watchedExecute (Machine.spares job id) breach job fuel a m)).symbols.get
        id).kind = (m.symbols.get id).kind := hsame
  rcases cutShort_execute (Machine.spares job id) breach job fuel a m with
    heq | ⟨m₁, hspares, heq⟩
  · rw [heq] at hwatched
    exact absurd hwatched hkind
  · rw [heq] at hwatched
    refine ⟨m₁, heq, ?_, hwatched⟩
    simpa [Machine.spares] using hspares

end Exec

end StackCalc
