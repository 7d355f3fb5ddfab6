import StackCalc.Tree

/-!
# The two parts of a program

What a program means and where its code goes is said of its definitions and of
the statements outside them, each in the order they stand in. The two parts are
picked here along the program, apart from the way the generator picks them;
`definitionPart_eq` and `mainPart_eq` say that both ways agree.
-/

namespace StackCalc

/-- The definitions of a program, in their order. -/
def definitionPart : List Stmt → List Stmt
  | [] => []
  | .define kind id body :: ss => .define kind id body :: definitionPart ss
  | _ :: ss => definitionPart ss

/-- The statements of a program outside its definitions, in their order. -/
def mainPart : List Stmt → List Stmt
  | [] => []
  | .define _ _ _ :: ss => mainPart ss
  | s :: ss => s :: mainPart ss

/-- The generator picks the definitions. -/
theorem definitionPart_eq (program : List Stmt) :
    definitionPart program = definitions program := by
  induction program with
  | nil => rfl
  | cons s ss ih =>
    cases s with
    | define kind id body => exact congrArg (Stmt.define kind id body :: ·) ih
    | _ => exact ih

/-- The generator picks the statements outside the definitions. -/
theorem mainPart_eq (program : List Stmt) : mainPart program = topLevel program := by
  induction program with
  | nil => rfl
  | cons s ss ih =>
    cases s with
    | define kind id body => exact ih
    | _ => exact congrArg (_ :: ·) ih

end StackCalc
