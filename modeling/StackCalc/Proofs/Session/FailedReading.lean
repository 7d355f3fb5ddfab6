import StackCalc.Proofs.Parser.Declarations
import StackCalc.Proofs.Session.Reachable

/-!
# Texts that cannot be read

A text that cannot be read is not run, so entering it changes nothing but the
symbols. There the entries at hand keep their names, values and code, and
literals and new names get entries of their own. What may be different is the
kind of a symbol whose name the text declares in front of the place where it
cannot be read: that of the last declaration stays.
-/

namespace StackCalc

namespace SymbolTable

variable {t t' : SymbolTable} {ds : List (String × DefinitionKind)}

/-- A symbol that is not declared stays what it is. -/
theorem Extends.get_of_undeclared (h : Extends ds t t') {id : Nat} (hid : id < t.size)
    (hds : ∀ d ∈ ds, t.lookup d.1 ≠ some id) : t'.get id = t.get id := by
  rw [h.entry id hid]
  rcases t.kindAfter_cases id (t.get id).kind ds with heq | ⟨d, hd, hlookup, -⟩
  · rw [heq]
  · exact absurd hlookup (hds d hd)

/-- A name that is not declared has the value it had. -/
theorem Extends.valueOf?_of_undeclared (h : Extends ds t t') (ht : t.Sound)
    {name : String} (hname : ∀ kind, (name, kind) ∉ ds) :
    t'.valueOf? name = t.valueOf? name := by
  cases hold : t.lookup name with
  | some id =>
    -- the symbol has no other name, so it is not declared under another one
    have hds : ∀ d ∈ ds, t.lookup d.1 ≠ some id := by
      rintro ⟨name', kind⟩ hd hlookup
      have hsame := (ht.named hlookup).2.symm.trans (ht.named hold).2
      cases hsame
      exact hname kind hd
    have hget := h.get_of_undeclared (ht.named hold).1 hds
    rw [valueOf?, valueOf?, h.lookup hold, hold]
    dsimp only
    rw [hget]
  | none =>
    cases hnew : t'.lookup name with
    | none => rw [valueOf?, valueOf?, hnew, hold]
    | some id =>
      obtain ⟨hlt, hid⟩ := (h.sound ht).named hnew
      -- an entry that was added is a literal, a name without a value, or a
      -- declared one
      have hkind : (t'.get id).kind ≠ .var := by
        rcases (h.added ht id (h.fresh hold hnew) hlt).form with
          ⟨-, hk | hk⟩ | ⟨-, -, -, hk | ⟨kind, hk⟩⟩
        · simp [hk]
        · simp [hk]
        · simp [hk]
        · rw [hk]
          cases kind <;> decide
      rw [valueOf?, valueOf?, hnew, hold]
      exact if_neg hkind

end SymbolTable

namespace Session

theorem enter_of_unread {s : Session} {source : String} {f : Fault}
    (h : (parse (lex source) s.machine.symbols s.limits.depth).1 = .error f)
    (fuel : Nat) :
    s.enter fuel source = .error (.fault f) { s with machine := { s.machine with
      symbols := (parse (lex source) s.machine.symbols s.limits.depth).2 } } := by
  refine enter_of_error (Action.bind_of_error ?_)
  unfold Session.read
  dsimp only
  rw [h]

/-- Take any session that can be reached, and a text that cannot be read.
Entering it fails with the fault of the text and changes nothing but the
symbols. Those at hand stay, with their names, values and code; the kind of one
is what the last declaration of its name makes of it, among the tokens in front
of those that are left where reading fails, and without any what it was. Names
that are not declared there have the values they had. The entries that are added
are literals and new names. -/
theorem enter_of_unreadable {rs : List Region} {s : Session} (h : Reachable rs s)
    {source : String} {f : Fault}
    (hfails : (parse (lex source) s.machine.symbols s.limits.depth).1 = .error f)
    (fuel : Nat) :
    ∃ taken t,
      (lex source).map Located.token =
        taken ++ (parseStop (lex source) s.machine.symbols s.limits.depth).row ∧
      s.enter fuel source = .error (.fault f)
        { s with machine := { s.machine with symbols := t } } ∧
      f.kind.isOfText ∧
      (∀ id < s.machine.symbols.size, t.get id = { s.machine.symbols.get id with
        kind := s.machine.symbols.kindAfter id (s.machine.symbols.get id).kind
          (declarations taken) }) ∧
      (∀ name id, s.machine.symbols.lookup name = some id → t.lookup name = some id) ∧
      (∀ name, (∀ kind, (name, kind) ∉ declarations taken) →
        t.valueOf? name = s.machine.symbols.valueOf? name) ∧
      ((∀ d ∈ declarations taken, s.machine.symbols.lookup d.1 = none) →
        ∀ id < s.machine.symbols.size, t.get id = s.machine.symbols.get id) ∧
      ∀ id, s.machine.symbols.size ≤ id → id < t.size →
        s.machine.symbols.IsNew (t.get id) := by
  have hsound := h.intact.sound
  obtain ⟨taken, hrow, hextends⟩ :=
    parse_extends (lex source) s.machine.symbols s.limits.depth
  obtain ⟨-, -, hfault⟩ := parse_wellFormed (lex source) hsound s.limits.depth
  refine ⟨taken, _, hrow, enter_of_unread hfails fuel, hfault f hfails, hextends.entry,
    fun _ _ => hextends.lookup, fun _ => hextends.valueOf?_of_undeclared hsound,
    fun hds id hid => ?_, hextends.added hsound⟩
  refine hextends.get_of_undeclared hid fun d hd hlookup => ?_
  cases (hds d hd).symm.trans hlookup

/-- A session with a variable and a function. -/
def equipped : Session :=
  (Session.fresh {}).handle (.enter 100 "x = 5\nfunc f() return x")

theorem reachable_equipped : ∃ rs, Reachable rs equipped :=
  ⟨_, (Reachable.fresh {}).step (.enter 100 "x = 5\nfunc f() return x") trivial⟩

/-- The fault of a text that cannot be read. -/
def unread? (s : Session) (source : String) : Option Fault :=
  match (parse (lex source) s.machine.symbols s.limits.depth).1 with
  | .ok _ => none
  | .error f => some f

theorem eq_error_of_unread? {s : Session} {source : String} {f : Fault}
    (h : s.unread? source = some f) :
    (parse (lex source) s.machine.symbols s.limits.depth).1 = .error f := by
  unfold unread? at h
  split at h
  · cases h
  case h_2 hfails =>
    cases h
    exact hfails

/-- A text that declares a procedure, fails at the next keyword, and would
declare a function there. -/
def brokenOff : String :=
  "y = x + 1\nproc f(\nfunc x() return 1"

/-- The function has become a procedure, and the variable, which is declared
only behind the failure, is as it was. -/
theorem enter_of_unreadable_halfway :
    ∃ rs taken t, Reachable rs equipped ∧
      (lex brokenOff).map Located.token = taken ++ (parseStop (lex brokenOff)
        equipped.machine.symbols equipped.limits.depth).row ∧
      (parseStop (lex brokenOff) equipped.machine.symbols
        equipped.limits.depth).row.head? =
        some (.keyword .funcKw) ∧
      declarations taken = [("f", .procedure)] ∧
      equipped.enter 100 brokenOff =
        .error (.fault ⟨.malformed, some 3, "expected ')'"⟩)
          { equipped with machine := { equipped.machine with symbols := t } } ∧
      equipped.machine.symbols.lookup "f" = some 30 ∧
      (equipped.machine.symbols.get 30).kind = .function ∧ (t.get 30).kind = .procedure ∧
      t.valueOf? "x" = some 5.0 := by
  obtain ⟨rs, hs⟩ := reachable_equipped
  have hunread : equipped.unread? brokenOff =
      some ⟨.malformed, some 3, "expected ')'"⟩ := by
    decide +kernel
  have hstop : ((lex brokenOff).map Located.token).drop 8 =
      (parseStop (lex brokenOff) equipped.machine.symbols equipped.limits.depth).row := by
    decide +kernel
  have hfacts : declarations (((lex brokenOff).map Located.token).take 8) =
      [("f", .procedure)] ∧
      (((lex brokenOff).map Located.token).drop 8).head? = some (.keyword .funcKw) ∧
      (equipped.machine.symbols.lookup "f" = some 30 ∧
        30 < equipped.machine.symbols.size ∧
        (equipped.machine.symbols.get 30).kind = .function ∧
        equipped.machine.symbols.kindAfter 30 .function [("f", .procedure)] =
          .procedure) ∧
      equipped.machine.symbols.valueOf? "x" = some 5.0 := by
    decide +kernel
  obtain ⟨hdeclared, hnext, ⟨hlookup, hsize, hfunction, hprocedure⟩, hvalue⟩ := hfacts
  obtain ⟨taken, t, htokens, henter, -, hentries, -, hvalues, -⟩ :=
    enter_of_unreadable hs (eq_error_of_unread? hunread) 100
  -- what is left where reading fails determines what was taken
  have htaken : taken = ((lex brokenOff).map Located.token).take 8 := by
    refine List.append_cancel_right (htokens.symm.trans ?_)
    rw [← hstop, List.take_append_drop]
  rw [← htaken] at hdeclared
  refine ⟨rs, taken, t, hs, htokens, hstop ▸ hnext, hdeclared, henter, hlookup,
    hfunction, ?_, ?_⟩
  · rw [hentries 30 hsize, hdeclared, hfunction]
    exact hprocedure
  · rw [hvalues "x", hvalue]
    intro kind hmem
    rw [hdeclared] at hmem
    simp at hmem

/-- So a text that cannot be read may still take the value of a variable away. -/
theorem enter_of_unreadable_forgets :
    (∃ rs, Reachable rs equipped) ∧
      equipped.unread? "func x(" = some ⟨.malformed, some 1, "expected ')'"⟩ ∧
      equipped.machine.symbols.lookup "x" = some 28 ∧
      (equipped.machine.symbols.get 28).kind = .var ∧ equipped.valueOf? "x" = some 5.0 ∧
      ((Action.final (equipped.enter 100 "func x(")).machine.symbols.get 28).kind =
        .function ∧
      (Action.final (equipped.enter 100 "func x(")).valueOf? "x" = none := by
  refine ⟨reachable_equipped, ?_⟩
  decide +kernel

end Session

end StackCalc
