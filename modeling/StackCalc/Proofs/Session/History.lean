import StackCalc.Proofs.Evaluation.Balance
import StackCalc.Proofs.Machine.Running
import StackCalc.Proofs.Parser.WellFormed
import StackCalc.Proofs.Simulation.Calls
import StackCalc.Session

/-!
# Sessions and what they have defined

A session keeps the code of its definitions but not their trees.
`Session.Reaches ds s` says that a session can be reached from a fresh one by
entering source texts, running code and changing settings, and keeps the list
`ds` of the definitions that were sealed on the way beside it.

- `Reaches.lawful`: the symbol table of every session that can be reached is
  sound, and its code is linked to its definitions.
- `Lawful.compile`: compiling a source text keeps that. It yields the code of
  the program that was read, or fails with a fault of the text or because there
  is no room.
- `Session.compilesInAgreement`: whether a text compiles to code whose calls
  agree with what they call, as something that can be computed.
-/

namespace StackCalc

/-! ### Adding definitions -/

/-- The definitions after one more. -/
def Definitions.add (echo : Bool) (ds : Definitions) : Stmt → Definitions
  | .define _ id ss => (id, ⟨echo, ss⟩) :: ds
  | _ => ds

/-- The definitions after several more. -/
def Definitions.addAll (echo : Bool) (ds : Definitions) (ss : List Stmt) : Definitions :=
  ss.foldl (Definitions.add echo) ds

section

variable {ds ds' : Definitions} {t t' : SymbolTable} {cells cells' : Array Cell}
  {base base' : Nat}

/-- A name stays linked as long as its code does. -/
theorem Link.mono {id : Nat} (h : Link ds t cells base id) (ht : t.Evolves t')
    (hcode : (t'.get id).code = (t.get id).code) (hds : ds'.lookup id = ds.lookup id)
    (hbase : base ≤ base') (hcells : ∀ i < base, cells'[i]? = cells[i]?) :
    Link ds' t' cells' base' id := by
  cases h with
  | absent hnone hdefinition => exact .absent (hcode.trans hnone) (hds.trans hdefinition)
  | present hsome hdefinition hbody hholds hbelow =>
    refine .present (hcode.trans hsome) (hds.trans hdefinition)
      (Stmt.AllWellFormed.evolve ht hbody) ?_ (Nat.le_trans hbelow hbase)
    rw [Layout.body_evolve ht _ hbody]
    exact hholds.congr (by rw [Layout.length_body]; exact hbelow) hcells

theorem Linked.mono (h : Linked ds t cells base) (ht : t.Advances t')
    (hcells : ∀ i < base, cells'[i]? = cells[i]?) : Linked ds t' cells' base := fun id =>
  (h id).mono ht.evolves (ht.sameCode id) rfl (Nat.le_refl _) hcells

/-- Nothing is defined in a fresh session. -/
theorem linked_initial : Linked [] SymbolTable.initial #[] 0 :=
  fun id => .absent (SymbolTable.code_initial id) rfl

end

namespace Image

/-- An image whose symbols are sound and whose sealed code is linked to
definitions. -/
structure Lawful (ds : Definitions) (im : Image) : Prop where
  sound : im.symbols.Sound
  linked : Linked ds im.symbols im.store.cells im.store.base

variable {ds : Definitions} {im : Image}

theorem Lawful.rewound (h : im.Lawful ds) : im.rewound.Lawful ds :=
  ⟨h.sound, h.linked.mono (SymbolTable.Advances.refl _) fun _ hi =>
    im.store.get?_rewind hi⟩

/-- Code behind the sealed cells is of no concern. -/
theorem Lawful.append (h : im.Lawful ds) (code : List Cell) :
    (im.append code).Lawful ds := by
  refine ⟨h.sound, h.linked.mono (SymbolTable.Advances.refl _) fun i hi => ?_⟩
  have hlt : i < im.store.cells.size := Nat.lt_of_lt_of_le hi im.store.base_le_size
  show (im.store.cells ++ code.toArray)[i]? = _
  rw [Array.getElem?_append_left hlt]

/-- A definition is sealed and its symbol linked to it. -/
theorem Lawful.withDefinition (h : im.Lawful ds) (hs : im.IsSealed)
    (echo : Bool) {d : Stmt} (hd : d.IsTopLevel im.symbols) :
    (im.withDefinition echo d).Lawful (ds.add echo d) := by
  cases d with
  | define kind id ss =>
    obtain ⟨hid, hbody⟩ := hd
    let code := Layout.body im.symbols echo im.store.size ss
    have hlength : code.length = Stmt.sizes ss + 2 := Layout.length_body ..
    have hevolves : im.symbols.Evolves
        (im.symbols.modify id (Symbol.located im.store.size)) :=
      evolves_withDefinition echo im (.define kind id ss)
    have hbase : im.store.base = im.store.size := hs
    refine ⟨h.sound.modify (im.symbols.harmless_located id _), ?_⟩
    show Linked ((id, ⟨echo, ss⟩) :: ds)
      (im.symbols.modify id (Symbol.located im.store.size))
      (im.store.cells ++ code.toArray) (im.store.append code).size
    intro id'
    rw [Store.size_append]
    -- the new definition is linked to the code just appended; of the others, code and
    -- links stay
    by_cases heq : id' = id
    · subst heq
      refine @Link.present _ _ _ _ _ im.store.size ⟨echo, ss⟩ ?_ List.lookup_cons_self
        (Stmt.AllWellFormed.evolve hevolves hbody) ?_
        (Nat.add_le_add_left (Nat.le_of_eq hlength.symm) _)
      · rw [SymbolTable.get_modify, if_pos ⟨rfl, hid⟩]
        rfl
      · dsimp only
        rw [Layout.body_evolve hevolves _ hbody]
        exact holds_end im.store.cells code
    · refine (h.linked id').mono hevolves ?_ ?_ (by omega) fun i hi => ?_
      · rw [SymbolTable.get_modify, if_neg fun hc => heq hc.1]
      · rw [List.lookup_cons, beq_false_of_ne heq]
      · rw [Array.getElem?_append_left (Nat.lt_of_lt_of_le hi im.store.base_le_size)]
  | _ => exact h

theorem Lawful.withDefinitions (h : im.Lawful ds) (hs : im.IsSealed) (echo : Bool)
    {ss : List Stmt} (hss : ∀ s ∈ ss, s.IsTopLevel im.symbols) :
    (im.withDefinitions echo ss).Lawful (ds.addAll echo ss) := by
  induction ss generalizing im ds with
  | nil => exact h
  | cons d ss ih =>
    obtain ⟨hd, hrest⟩ := List.forall_mem_cons.mp hss
    exact ih (h.withDefinition hs echo hd) (hs.withDefinition echo d)
      fun s hs' => (hrest s hs').evolve (evolves_withDefinition echo im d)

end Image

/-- Those that fit are among the definitions. -/
theorem mem_of_mem_fitting {capacity a : Nat} {ss : List Stmt} {s : Stmt}
    (h : s ∈ fitting capacity a ss) : s ∈ ss := by
  induction ss generalizing a with
  | nil => exact h
  | cons d ss ih =>
    rw [fitting] at h
    split at h
    · rcases List.mem_cons.mp h with rfl | h
      · exact List.mem_cons_self
      · exact List.mem_cons_of_mem d (ih h)
    · exact absurd h List.not_mem_nil

namespace Session

/-! ### Histories -/

/-- The program that a source text is read as; it is empty if the text has a
fault. -/
def programOf (source : String) (s : Session) : List Stmt :=
  match s.read source with
  | .ok program _ => program
  | .error _ _ => []

/-- The definitions at hand after a source text has been compiled: the old ones,
and those of the text that there was room for. -/
def definitionsAfter (ds : Definitions) (source : String) (s : Session) : Definitions :=
  ds.addAll s.echo (fitting s.limits.program s.store.base
    (definitionPart (s.programOf source)))

/-- The sessions that can be reached, each with its definitions. Entering or
compiling a text counts whether it fails or not, and so does running code from
any address. -/
inductive Reaches : Definitions → Session → Prop
  | fresh (limits : Limits) (echo : Bool) : Reaches [] { limits, echo }
  | enter {ds : Definitions} {s : Session} (h : Reaches ds s) (fuel : Nat)
    (source : String) :
    Reaches (s.definitionsAfter ds source) (Action.final (s.enter fuel source))
  | compile {ds : Definitions} {s : Session} (h : Reaches ds s) (source : String) :
    Reaches (s.definitionsAfter ds source) (Action.final (s.compile source))
  | execute {ds : Definitions} {s : Session} (h : Reaches ds s) (fuel a : Nat) :
    Reaches ds (Action.final (s.execute fuel a))
  | setEcho {ds : Definitions} {s : Session} (h : Reaches ds s) (on : Bool) :
    Reaches ds (s.setEcho on)
  | supply {ds : Definitions} {s : Session} (h : Reaches ds s) (lines : List String) :
    Reaches ds (s.supply lines)
  | takeOutput {ds : Definitions} {s : Session}
    (h : Reaches ds s) : Reaches ds s.takeOutput.2
  | interrupt {ds : Definitions} {s : Session} (h : Reaches ds s) : Reaches ds s.interrupt
  | interruptAfter {ds : Definitions} {s : Session} (h : Reaches ds s) (n : Nat) :
    Reaches ds (s.interruptAfter n)

/-! ### What compiling leaves -/

/-- A session whose symbols are sound and whose sealed code is linked to
definitions. -/
def Lawful (ds : Definitions) (s : Session) : Prop :=
  s.image.Lawful ds

/-- A session that holds the code of a program at `entry`, ready to be run. -/
structure Loaded (ds : Definitions) (program : List Stmt) (entry : Nat) (s : Session) :
    Prop where
  lawful : s.Lawful ds
  meaningful : Stmt.AllWellFormed s.machine.symbols false (topLevel program)
  code : Holds s.store.cells entry (Layout.main s.machine.symbols s.echo entry program)

variable {ds : Definitions} {s s' : Session}

/-- Reading a text changes nothing but the symbols. -/
theorem Lawful.read (h : s.Lawful ds) (source : String) :
    match s.read source with
    | .ok program s' =>
      s' = { s with machine := { s.machine with symbols := s'.machine.symbols } } ∧
      s'.Lawful ds ∧
        ∀ p ∈ program, p.IsTopLevel s'.machine.symbols
    | .error f s' => s'.Lawful ds ∧ f.kind.isOfText := by
  obtain ⟨hcontinues, hok, herror⟩ :=
    parse_wellFormed (lex source) h.sound s.limits.depth
  have hlawful : Lawful ds
      { s with machine := { s.machine with
          symbols := (parse (lex source) s.machine.symbols s.limits.depth).2 } } :=
    ⟨hcontinues.sound h.sound, h.linked.mono hcontinues.toAdvances fun _ _ => rfl⟩
  unfold Session.read
  dsimp only
  cases hresult : (parse (lex source) s.machine.symbols s.limits.depth).1 with
  | ok program => exact ⟨rfl, hlawful, hok program hresult⟩
  | error f => exact ⟨hlawful, herror f hresult⟩

theorem generate_of_ok {program : List Stmt} {entry : Nat} {im : Image}
    (h : Image.generate s.limits.program s.echo program s.image = .ok entry im) :
    s.generate program = .ok entry (s.withImage im) := by
  rw [Session.generate, h]

theorem generate_of_error {program : List Stmt} {f : Fault} {im : Image}
    (h : Image.generate s.limits.program s.echo program s.image = .error f im) :
    s.generate program = .error f (s.withImage im) := by
  rw [Session.generate, h]

/-- What generating the code of a program leaves, if there is room for it: the
definitions, and at the entry the code of the statements outside them. -/
theorem eq_of_generate_ok {program : List Stmt} {entry : Nat}
    (hw : ∀ p ∈ program, p.IsTopLevel s.machine.symbols)
    (h : s.generate program = .ok entry s') :
    (∃ code, s' = s.withImage
      ((s.image.rewound.withDefinitions s.echo (definitions program)).append code)) ∧
      Stmt.AllWellFormed s'.machine.symbols false (topLevel program) ∧
      Holds s'.store.cells entry
        (Layout.main s'.machine.symbols s.echo entry program) := by
  obtain ⟨hfits, hfails⟩ :=
    @Image.generate_apply s.limits.program s.echo s.image program hw
  by_cases hroom : s.image.store.base + footprint program ≤ s.limits.program
  · have hevolves : s.machine.symbols.Evolves
        (s.image.rewound.withDefinitions s.echo (definitions program)).symbols :=
      Image.evolves_withDefinitions s.echo s.image.rewound _
    have hsize :
        (s.image.rewound.withDefinitions s.echo (definitions program)).store.cells.size =
        s.image.store.base + Stmt.regionSizes (definitions program) := by
      rw [← s.image.store.size_rewind]
      exact Image.size_withDefinitions s.echo s.image.rewound (definitions program)
    cases (generate_of_ok (hfits hroom)).symm.trans h
    refine ⟨⟨_, rfl⟩, Stmt.AllWellFormed.evolve hevolves
      (Image.allWellFormed_topLevel hw), ?_⟩
    show Holds (_ ++ List.toArray (Layout.main s.machine.symbols s.echo _ program)) _
      (Layout.main (s.image.rewound.withDefinitions s.echo (definitions program)).symbols
        s.echo _ program)
    -- the layout does not depend on the addresses that the definitions got
    rw [Layout.main_evolve hevolves _ (Image.allWellFormed_topLevel hw), ← hsize]
    exact holds_end _ _
  · cases (generate_of_error (hfails hroom)).symm.trans h

/-- Generating the code of a program that has a meaning. -/
theorem Lawful.generate (h : s.Lawful ds) {program : List Stmt}
    (hw : ∀ p ∈ program, p.IsTopLevel s.machine.symbols) :
    match s.generate program with
    | .ok entry s' =>
      s'.Loaded (ds.addAll s.echo
        (fitting s.limits.program s.store.base (definitions program))) program entry ∧
          s'.echo = s.echo ∧ s'.machine.alarm = s.machine.alarm
    | .error f s' =>
      s'.Lawful (ds.addAll s.echo
        (fitting s.limits.program s.store.base (definitions program))) ∧
        f.kind = .programTooBig := by
  have hdefinitions : ∀ d ∈ definitions program, d.IsTopLevel s.machine.symbols :=
    fun d hd =>
    (Image.isTopLevel_definitions hw d hd).2
  have hsealed := s.image.isSealed_rewound
  have hrewound := h.rewound
  obtain ⟨hfits, hfails⟩ :=
    @Image.generate_apply s.limits.program s.echo s.image program hw
  -- with room for everything no definition is left out
  by_cases hroom : s.store.base + footprint program ≤ s.limits.program
  · have hall : fitting s.limits.program s.store.base (definitions program) =
        definitions program := fitting_eq_self (by rw [footprint_eq] at hroom; omega)
    have hrun := generate_of_ok (hfits hroom)
    obtain ⟨-, hmeaningful, hcode⟩ := eq_of_generate_ok hw hrun
    rw [hrun, hall]
    have hlawful := hrewound.withDefinitions hsealed s.echo hdefinitions
    exact ⟨⟨hlawful.append _, hmeaningful, hcode⟩, rfl, rfl⟩
  · rw [generate_of_error (hfails hroom)]
    exact ⟨hrewound.withDefinitions hsealed s.echo fun d hd =>
      hdefinitions d (mem_of_mem_fitting hd), rfl⟩

/-- Compiling a text loads the code of its program, or fails with a fault of the
text or for want of room. -/
theorem Lawful.compile (h : s.Lawful ds) (source : String) :
    match s.compile source with
    | .ok entry s' =>
      s'.Loaded (s.definitionsAfter ds source) (s.programOf source) entry ∧
      s'.echo = s.echo ∧
        s'.machine.alarm = s.machine.alarm
    | .error f s' =>
      s'.Lawful (s.definitionsAfter ds source) ∧
        (f.kind.isOfText ∨ f.kind = .programTooBig) := by
  have hread := h.read source
  unfold Session.compile definitionsAfter programOf
  rw [definitionPart_eq]
  cases hresult : s.read source with
  | error f s₁ =>
    rw [hresult] at hread
    rw [Action.bind_of_error hresult]
    exact ⟨hread.1, .inl hread.2⟩
  | ok program s₁ =>
    rw [hresult] at hread
    obtain ⟨hs₁, hlawful, hw⟩ := hread
    have hgenerate := hlawful.generate hw
    rw [Action.bind_of_ok hresult]
    -- what the generator reads of the session is as it was before the text was read
    rw [show s₁.echo = s.echo by rw [hs₁], show s₁.limits = s.limits by rw [hs₁],
      show s₁.store = s.store by rw [hs₁],
      show s₁.machine.alarm = s.machine.alarm by rw [hs₁]] at hgenerate
    cases hrun : s₁.generate program with
    | ok entry s' =>
      rw [hrun] at hgenerate
      exact hgenerate
    | error f s' =>
      rw [hrun] at hgenerate
      exact ⟨hgenerate.1, .inr hgenerate.2⟩

/-! ### What running leaves -/

theorem execute_of_ok {fuel entry : Nat} {u : Unit} {m : Machine}
    (h : Exec.execute s.job fuel entry s.machine = .ok u m) :
    s.execute fuel entry = .ok () { s with machine := m } := by
  rw [Session.execute, h]

theorem execute_of_error {fuel entry : Nat} {e : Halt} {m : Machine}
    (h : Exec.execute s.job fuel entry s.machine = .error e m) :
    s.execute fuel entry = .error e { s with machine := m } := by
  rw [Session.execute, h]

/-- More rounds do not change how a run ends. -/
theorem execute_of_le {fuel fuel' entry : Nat} (hf : fuel ≤ fuel')
    (hne : ∀ s', s.execute fuel entry ≠ .error .outOfFuel s') :
    s.execute fuel' entry = s.execute fuel entry := by
  have hsame : Exec.execute s.job fuel' entry s.machine =
      Exec.execute s.job fuel entry s.machine :=
    (Exec.execute_mono hf entry).eq_of_ne fun m hm => hne _ (execute_of_error hm)
  rw [Session.execute, Session.execute, hsame]

/-- Running code lets the symbols advance and seals nothing. -/
theorem Lawful.execute (h : s.Lawful ds) (fuel a : Nat) :
    (Action.final (s.execute fuel a)).Lawful ds := by
  have hruns := Exec.execute_behaves s.job fuel a s.machine h.sound
  unfold Session.execute
  cases hresult : Exec.execute s.job fuel a s.machine with
  | ok u m =>
    rw [hresult] at hruns
    exact ⟨hruns.advances.sound h.sound, h.linked.mono hruns.advances fun _ _ => rfl⟩
  | error e m =>
    rw [hresult] at hruns
    exact ⟨hruns.advances.sound h.sound, h.linked.mono hruns.advances fun _ _ => rfl⟩

theorem Lawful.rewind (h : s.Lawful ds) : s.rewind.Lawful ds :=
  Image.Lawful.rewound h

theorem lift_of_ok {α : Type} {act : EStateM Fault Session α} {a : α}
    (h : act s = .ok a s') :
    lift act s = .ok a s' := by
  rw [lift, h]

theorem lift_of_error {α : Type} {act : EStateM Fault Session α} {f : Fault}
    (h : act s = .error f s') : lift act s = .error (.fault f) s' := by
  rw [lift, h]

/-- Entering a text that cannot be compiled. -/
theorem enter_of_error {fuel : Nat} {source : String} {f : Fault}
    (h : s.compile source = .error f s') : s.enter fuel source = .error (.fault f) s' :=
  Action.bind_of_error (lift_of_error h)

/-- Entering a text that can be compiled runs its code and discards it. -/
theorem enter_of_ok {fuel : Nat} {source : String} {entry : Nat}
    (h : s.compile source = .ok entry s') :
    s.enter fuel source =
      match s'.execute fuel entry with
      | .ok _ s => .ok () s.rewind
      | .error e s => .error e s.rewind :=
  Action.bind_of_ok (lift_of_ok h)

/-- What a text leaves that can be compiled is what its run does, without its
code. -/
theorem final_enter {source : String} {entry : Nat}
    (h : s.compile source = .ok entry s') (fuel : Nat) :
    Action.final (s.enter fuel source) =
      (Action.final (s'.execute fuel entry)).rewind := by
  rw [enter_of_ok h]
  cases s'.execute fuel entry <;> rfl

/-- If entering a text succeeds then the run of its code does. -/
theorem succeeds_execute {fuel : Nat} {source : String} {entry : Nat}
    (hcompile : s.compile source = .ok entry s')
    (h : Action.succeeds (s.enter fuel source)) :
    Action.succeeds (s'.execute fuel entry) := by
  rw [enter_of_ok hcompile] at h
  cases hrun : s'.execute fuel entry with
  | ok u s'' => rfl
  | error e s'' =>
    rw [hrun] at h
    exact nomatch h

/-- Entering a text seals its definitions. Its run and the discarding of its
code keep what is linked. -/
theorem Lawful.enter (h : s.Lawful ds) (fuel : Nat) (source : String) :
    (Action.final (s.enter fuel source)).Lawful (s.definitionsAfter ds source) := by
  have hcompile := h.compile source
  cases hresult : s.compile source with
  | error f s' =>
    rw [hresult] at hcompile
    rw [enter_of_error hresult]
    exact hcompile.1
  | ok entry s' =>
    rw [hresult] at hcompile
    rw [final_enter hresult]
    exact (hcompile.1.lawful.execute fuel entry).rewind

/-- Every session that can be reached is lawful. -/
theorem Reaches.lawful (h : Reaches ds s) : s.Lawful ds := by
  induction h with
  | fresh limits echo => exact ⟨SymbolTable.sound_initial, linked_initial⟩
  | enter h fuel source ih => exact ih.enter fuel source
  | @compile ds s h source ih =>
    have hcompile := ih.compile source
    cases hresult : s.compile source with
    | ok entry s' =>
      rw [hresult] at hcompile
      exact hcompile.1.lawful
    | error f s' =>
      rw [hresult] at hcompile
      exact hcompile.1
  | execute h fuel a ih => exact ih.execute fuel a
  | setEcho h on ih => exact ih
  | supply h lines ih => exact ih
  | takeOutput h ih => exact ih
  | interrupt h ih => exact ih
  | interruptAfter h n ih => exact ih

/-! ### Running what was loaded -/

/-- The world that the evaluation of a session's program starts in. -/
def world (s : Session) : World :=
  ⟨s.machine.symbols, s.machine.console, none⟩

/-- A loaded program runs as it is evaluated, given rounds for every cell of the
code and for every level of nesting. -/
theorem Loaded.tracks {program : List Stmt} {entry : Nat} (h : s.Loaded ds program entry)
    {quiet : Bool} (halarm : quiet = true → s.machine.alarm = none) {fuel : Nat}
    (hfuel : s.store.cells.size + 2 ≤ fuel) (hdepth : s.limits.depth ≤ fuel) :
    Tracks quiet (fun _ w' _ m' => Done w' m')
      (Eval.program ds s.echo fuel program s.world)
      (Exec.execute s.job fuel entry s.machine) :=
  h.lawful.linked.tracks_execute hfuel hdepth h.meaningful h.code
    ⟨h.lawful.sound, SymbolTable.Advances.refl _⟩ halarm

/-! ### Agreement -/

/-- Whether a text compiles, and every call in it and in the definitions at hand
agrees with the kind of what it calls. -/
def compilesInAgreement (ds : Definitions) (source : String) (s : Session) : Bool :=
  match s.compile source with
  | .ok _ s' =>
    decide s'.machine.symbols.Plain &&
      (s.definitionsAfter ds source).all
      (fun d => Stmt.allAgree s'.machine.symbols d.2.body) &&
        Stmt.allAgree s'.machine.symbols (mainPart (s.programOf source))
  | .error _ _ => false

/-- What was computed says that there is agreement. -/
theorem exists_of_compilesInAgreement {source : String}
    (h : s.compilesInAgreement ds source) :
    ∃ entry s', s.compile source = .ok entry s' ∧
      Agreement (s.definitionsAfter ds source) s'.machine.symbols ∧
      Stmt.allAgree s'.machine.symbols (mainPart (s.programOf source)) := by
  unfold compilesInAgreement at h
  cases hcompile : s.compile source with
  | error f s' =>
    rw [hcompile] at h
    exact nomatch h
  | ok entry s' =>
    rw [hcompile] at h
    simp only [Bool.and_eq_true, decide_eq_true_eq, List.all_eq_true] at h
    exact ⟨entry, s', rfl, Agreement.of_all h.1.1 h.1.2, h.2⟩

end Session

end StackCalc
