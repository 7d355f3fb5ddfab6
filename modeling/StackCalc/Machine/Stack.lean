import StackCalc.Fault

/-!
# Bounded stacks

A stack of items, the last one on top. How many it may hold is said by whoever
pushes, together with the fault of pushing one too many. Actions on a stack keep
what they did when they fail: taking two items from a stack of one leaves it
empty.
-/

namespace StackCalc

/-- A stack, its top last. -/
structure Stack (α : Type) where
  items : Array α := #[]
deriving DecidableEq, Repr

namespace Stack

variable {α : Type}

/-- The number of items. -/
def size (s : Stack α) : Nat :=
  s.items.size

/-- Whether there is no item. -/
def isEmpty (s : Stack α) : Bool :=
  s.items.isEmpty

/-- Whether a stack of at most `capacity` items can take no more. -/
def isFull (capacity : Nat) (s : Stack α) : Bool :=
  capacity ≤ s.size

/-- The item on top. -/
def top? (s : Stack α) : Option α :=
  s.items.back?

/-- The item at a place counted from the bottom. -/
def get? (s : Stack α) (i : Nat) : Option α :=
  s.items[i]?

/-- Replaces the item at a place counted from the bottom, if there is one. -/
def set? (s : Stack α) (i : Nat) (a : α) : Option (Stack α) :=
  if i < s.size then some ⟨s.items.setIfInBounds i a⟩ else none

/-- Puts an item on a stack of at most `capacity` items. -/
def push (capacity : Nat) (overflow : FaultKind) (a : α) : EStateM Fault (Stack α) Unit :=
  fun s =>
    if s.isFull capacity then .error { kind := overflow } s
    else .ok () ⟨s.items.push a⟩

/-- Takes the item on top. -/
def pop : EStateM Fault (Stack α) α :=
  fun s =>
    match s.top? with
    | some a => .ok a ⟨s.items.pop⟩
    | none => .error { kind := .stackUnderflow } s

/-- Popping undoes a push. -/
theorem pop_push (a : α) (s : Stack α) : pop ⟨s.items.push a⟩ = .ok a s := by
  simp [pop, top?]

/-- Takes two items; the upper one is the second of the pair. -/
def popTwo : EStateM Fault (Stack α) (α × α) := do
  let b ← pop
  let a ← pop
  return (a, b)

/-- Takes every item above the first `n`, of which there must be so many. -/
def truncate (n : Nat) : EStateM Fault (Stack α) Unit :=
  fun s =>
    if s.size < n then .error { kind := .stackUnderflow } s
    else .ok () ⟨s.items.take n⟩

/-- The items from bottom to top, in brackets. -/
def listed [ToString α] (s : Stack α) : String :=
  "[" ++ ", ".intercalate (s.items.toList.map toString) ++ "]"

end Stack

end StackCalc
