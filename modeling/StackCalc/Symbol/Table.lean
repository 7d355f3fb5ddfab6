import StackCalc.Symbol.Builtin
import StackCalc.Token.Basic

/-!
# The symbol table

A session keeps one table of symbols: its variables, functions, procedures and
built-ins by name, and its number and text literals without one. A symbol is
known by its place in the table; places are never given up. A name stands for
the symbol that was installed under it last.

- `Symbol`, `SymbolKind`: the entries.
- `SymbolTable.lookup`, `install`, `resolve`: names.
- `SymbolTable.addNumber`, `addText`: literals.
- `SymbolTable.initial`: keywords, constants and built-in functions.
-/

namespace StackCalc

/-- What a symbol stands for. -/
inductive SymbolKind where
  | var
  | undefined
  | number
  | text
  | builtin
  | function
  | procedure
  | keyword
deriving DecidableEq, Repr

/-- The word for a kind of symbol. -/
def SymbolKind.word : SymbolKind → String
  | var => "var"
  | undefined => "undef"
  | number => "number"
  | text => "string"
  | builtin => "builtin"
  | function => "func"
  | procedure => "proc"
  | keyword => "keyword"

/-- An entry of the symbol table. Literals have no name; the code address of a
function or procedure is that of its last generated body. -/
structure Symbol where
  name : Option String
  kind : SymbolKind
  value : Float
  native : Option Builtin := none
  code : Option Nat := none
  text : Option String := none
deriving DecidableEq, Repr

namespace Symbol

/-- The name of a symbol as it is shown; that of a literal is empty. -/
def label (s : Symbol) : String :=
  s.name.getD ""

/-- Whether a symbol may be assigned to. -/
def isAssignable (s : Symbol) : Bool :=
  s.kind = .var || s.kind = .undefined

/-- The symbol as a variable of value `x`. -/
def assigned (x : Float) (s : Symbol) : Symbol :=
  { s with kind := .var, value := x }

/-- An entry that stands for nothing. -/
def blank : Symbol :=
  { name := none, kind := .undefined, value := 0.0 }

end Symbol

/-- The symbols of a session and the names they are found by, the latest name
first. -/
structure SymbolTable where
  entries : Array Symbol := #[]
  names : List (String × Nat) := []
deriving DecidableEq, Repr

namespace SymbolTable

/-- The number of entries. -/
def size (t : SymbolTable) : Nat :=
  t.entries.size

/-- The entry at a place; past the end there is a blank one. -/
def get (t : SymbolTable) (id : Nat) : Symbol :=
  t.entries.getD id Symbol.blank

/-- Changes the entry at a place; past the end nothing changes. -/
def modify (t : SymbolTable) (id : Nat) (f : Symbol → Symbol) : SymbolTable :=
  { t with entries := t.entries.modify id f }

/-- The place of the symbol a name stands for. -/
def lookup (t : SymbolTable) (name : String) : Option Nat :=
  t.names.lookup name

/-- Adds an entry at the end. -/
def push (t : SymbolTable) (s : Symbol) : Nat × SymbolTable :=
  (t.size, { t with entries := t.entries.push s })

/-- Adds a named entry; the name stands for it from now on. -/
def install (t : SymbolTable) (name : String) (kind : SymbolKind) (value : Float) :
    Nat × SymbolTable :=
  let (id, t) := t.push { name := some name, kind, value }
  (id, { t with names := (name, id) :: t.names })

/-- The place of the symbol a name stands for; a new name gets an undefined one. -/
def resolve (t : SymbolTable) (name : String) : Nat × SymbolTable :=
  match t.lookup name with
  | some id => (id, t)
  | none => t.install name .undefined 0.0

/-- Adds a number literal. -/
def addNumber (t : SymbolTable) (x : Float) : Nat × SymbolTable :=
  t.push { name := none, kind := .number, value := x }

/-- Adds a text literal. -/
def addText (t : SymbolTable) (s : String) : Nat × SymbolTable :=
  t.push { name := none, kind := .text, value := 0.0, text := some s }

/-! ### What the operations do -/

theorem size_push (t : SymbolTable) (s : Symbol) : (t.push s).2.size = t.size + 1 :=
  Array.size_push s

theorem get_push_self (t : SymbolTable) (s : Symbol) :
    (t.push s).2.get (t.push s).1 = s := by
  simp [push, get, size, Array.getD_eq_getD_getElem?]

/-- Adding an entry leaves the others in place. -/
theorem get_push_of_lt (t : SymbolTable) (s : Symbol) {id : Nat} (h : id < t.size) :
    (t.push s).2.get id = t.get id := by
  have h' : id < t.entries.size := h
  simp [push, get, Array.getD_eq_getD_getElem?, Array.getElem?_push, Nat.ne_of_lt h']

theorem size_modify (t : SymbolTable) (id : Nat) (f : Symbol → Symbol) :
    (t.modify id f).size = t.size := by
  simp [modify, size]

theorem get_modify_self (t : SymbolTable) {id : Nat} (f : Symbol → Symbol)
    (h : id < t.size) : (t.modify id f).get id = f (t.get id) := by
  have h' : id < t.entries.size := h
  simp [modify, get, Array.getD_eq_getD_getElem?, Array.getElem_modify, h']

/-- Changing an entry leaves the others as they are. -/
theorem get_modify_other (t : SymbolTable) {id id' : Nat} (f : Symbol → Symbol)
    (h : id' ≠ id) : (t.modify id f).get id' = t.get id' := by
  simp [modify, get, Array.getD_eq_getD_getElem?, Array.getElem?_modify, h.symm]

/-- A name stands for what was installed under it last. -/
theorem lookup_install_self (t : SymbolTable) (name : String)
    (kind : SymbolKind) (x : Float) :
    (t.install name kind x).2.lookup name = some (t.install name kind x).1 := by
  simp [install, push, lookup]

theorem lookup_install_other (t : SymbolTable) {name name' : String}
    (kind : SymbolKind) (x : Float) (h : name' ≠ name) :
    (t.install name kind x).2.lookup name' = t.lookup name' := by
  have hb : (name' == name) = false := beq_false_of_ne h
  simp [install, push, lookup, List.lookup_cons, hb]

/-- A name that has been resolved stands for the symbol it was resolved to. -/
theorem lookup_resolve (t : SymbolTable) (name : String) :
    (t.resolve name).2.lookup name = some (t.resolve name).1 := by
  unfold resolve
  split
  case h_1 id h => exact h
  case h_2 => exact lookup_install_self t name .undefined 0.0

/-! ### Values and the initial table -/

/-- The value of a variable that has been assigned to. -/
def valueOf? (t : SymbolTable) (name : String) : Option Float :=
  match t.lookup name with
  | some id =>
    let s := t.get id
    if s.kind = .var then some s.value else none
  | none => none

/-- The table of a new session: the keywords, the constants, the built-in
functions. -/
def initial : SymbolTable :=
  let t : SymbolTable := {}
  let t := Keyword.all.foldl (fun t k => (t.install k.text .keyword 0.0).2) t
  let t := constants.foldl (fun t c => (t.install c.1 .var c.2).2) t
  Builtin.all.foldl
    (fun t f =>
      let (id, t) := t.install f.name .builtin 0.0
      t.modify id fun s => { s with native := some f })
    t

end SymbolTable

end StackCalc
