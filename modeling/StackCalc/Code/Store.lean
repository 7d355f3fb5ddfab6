import StackCalc.Code.Cell

/-!
# The code store

A bounded row of cells. The cells below `base` are sealed: they hold the
definitions of the session. Above it stands the code of the program at hand,
which `rewind` discards and `define` seals.
-/

namespace StackCalc

/-- The cells of a session; those below `base` are sealed. -/
structure Store where
  cells : Array Cell := #[]
  base : Nat := 0
  base_le_size : base ≤ cells.size := by exact Nat.zero_le _
deriving DecidableEq, Repr

namespace Store

/-- The number of cells. -/
def size (s : Store) : Nat :=
  s.cells.size

/-- The cell at an address. -/
def get? (s : Store) (a : Nat) : Option Cell :=
  s.cells[a]?

/-- Appends a cell to a store of at most `capacity` cells and returns its
address. -/
def push (capacity : Nat) (c : Cell) : EStateM Fault Store Nat :=
  fun s =>
    if capacity ≤ s.size then .error { kind := .programTooBig } s
    else
      .ok s.size { s with
        cells := s.cells.push c
        base_le_size := by
          rw [Array.size_push]
          exact Nat.le_succ_of_le s.base_le_size }

/-- Replaces the cell at an address. -/
def patch (a : Nat) (c : Cell) : EStateM Fault Store Unit :=
  fun s =>
    if a < s.size then
      .ok () { s with
        cells := s.cells.setIfInBounds a c
        base_le_size := by
          rw [Array.size_setIfInBounds]
          exact s.base_le_size }
    else .error { kind := .internal, note := "patch out of range" } s

/-- Seals all cells and returns where the newly sealed ones start. -/
def define (s : Store) : Nat × Store :=
  (s.base, { s with base := s.size, base_le_size := Nat.le_refl _ })

/-- Discards the cells that are not sealed. -/
def rewind (s : Store) : Store :=
  { s with
    cells := s.cells.take s.base
    base_le_size := by simp [s.base_le_size] }

/-- Discarding reaches down to the sealed cells and no further. -/
theorem size_rewind (s : Store) : s.rewind.size = s.base := by
  have h : s.base ≤ s.cells.size := s.base_le_size
  simp [rewind, size, h]

theorem base_rewind (s : Store) : s.rewind.base = s.base :=
  rfl

/-- Sealed cells survive. -/
theorem get?_rewind (s : Store) {a : Nat} (h : a < s.base) :
    s.rewind.get? a = s.get? a := by
  simp [rewind, get?, Array.getElem?_extract]
  omega

/-- One line for each cell: its address, a tab and its text. -/
def listing (s : Store) (symbols : SymbolTable) : String :=
  String.join (s.cells.toList.zipIdx.map fun (c, a) =>
    toString a ++ "\t" ++ c.listed symbols ++ "\n")

end Store

end StackCalc
