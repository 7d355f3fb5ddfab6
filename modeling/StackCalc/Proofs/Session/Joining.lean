import StackCalc.Proofs.Parser.Agreement
import StackCalc.Proofs.Parser.Joining
import StackCalc.Proofs.Session.Bodies
import StackCalc.Proofs.Simulation.RelocatedRuns
import StackCalc.Proofs.Token.Joining

/-!
# Texts that are entered in parts

Two texts without definitions that are entered one after the other leave what
they leave when they are entered at once, as one text with a semicolon between
them (`Session.enter_joined`): the same output, the same lines left to read, the
same symbols and the same code. The one text may be too big where its parts are
not.

- `Session.Silent`: the sessions in which echo was never on, so that no
  expression statement showed its value. Showing a value assigns to `_`, and
  that installs the name when it is new.
- `Session.compile_plain`, `Session.Entry`: compiling and entering a text
  without definitions.
-/

namespace StackCalc

/-! ### Code that two jobs share -/

/-- Bodies that were generated silently are shared by jobs that agree on the
sealed cells. -/
theorem Image.Housed.sharesBodies {im : Image} (h : im.Housed false) {job job' : Job}
    (hjob : ∀ i < im.store.base, job.cells[i]? = im.store.cells[i]?)
    (hjob' : ∀ i < im.store.base, job'.cells[i]? = im.store.cells[i]?) :
    SharesBodies im.symbols job job' := by
  intro id a hcode
  obtain ⟨u, echo, body, hsize, hecho, hbody, hcells, hbelow⟩ := h id a hcode
  have hsilent : echo = false :=
    Bool.eq_false_iff.mpr fun he => Bool.false_ne_true (hecho he)
  subst hsilent
  have hlength : a + (Layout.body u false a body).length ≤ im.store.base := by
    rw [Layout.length_body]
    exact hbelow
  exact ⟨u, body, hsize, hbody, hcells.congr hlength hjob, hcells.congr hlength hjob'⟩

namespace Session

/-! ### Silent sessions -/

/-- The sessions that requests lead to of which none turns echo on, with a
console that prompts or not. -/
inductive Silent : Session → Prop
  | fresh (limits : Limits) (prompting : Bool) :
    Silent {
      limits
      machine := { symbols := SymbolTable.initial, console := { prompting } } }
  | step {s : Session} (h : Silent s) (r : Request)
    (hr : r.InRange s.machine.symbols.size) (hmute : r ≠ .setEcho true) :
    Silent (s.handle r)

/-- A session with sound symbols that does not show values, and whose bodies do
not show any either. -/
structure Quiet (s : Session) : Prop where
  sound : s.machine.symbols.Sound
  echo : s.echo = false
  housed : s.image.Housed false

variable {s s' : Session}

/-- What a request leaves of a quiet session, unless it turns the setting on. -/
theorem Quiet.handle (h : s.Quiet) (hs : s.Intact) {r : Request}
    (hr : r.InRange s.machine.symbols.size) (hecho : (s.handle r).echo = false) :
    (s.handle r).Intact ∧ (s.handle r).Quiet := by
  have hfollows := follows_handle hs hr
  refine ⟨hfollows.intact hs, hfollows.grows.sound h.sound, hecho, ?_⟩
  exact housed_handle hs h.housed (fun he =>
    absurd (h.echo.symm.trans he) Bool.false_ne_true) hr

/-- Only a request for it turns echo on. -/
theorem echo_handle (h : s.echo = false) {r : Request} (hmute : r ≠ .setEcho true) :
    (s.handle r).echo = false := by
  cases r with
  | enter fuel source => exact (echo_enter fuel source).trans h
  | compile source => exact (echo_compile source).trans h
  | generate program => exact (echo_generate program).trans h
  | execute fuel a => exact (echo_execute fuel a).trans h
  | setEcho on =>
    cases on with
    | false => rfl
    | true => exact absurd rfl hmute
  | supply | takeOutput | interrupt | interruptAfter => exact h

/-- A silent session is quiet, whatever was asked of it. -/
theorem Silent.quiet (h : Silent s) : s.Intact ∧ s.Quiet := by
  induction h with
  | fresh limits prompting =>
    refine ⟨Image.intact_initial _, SymbolTable.sound_initial, rfl, fun id a hcode => ?_⟩
    exact absurd ((SymbolTable.code_initial id).symm.trans hcode)
      (Option.some_ne_none a).symm
  | step _ r hr hmute ih => exact ih.2.handle ih.1 hr (echo_handle ih.2.echo hmute)

/-! ### Texts without definitions -/

/-- The session with the code of statements behind its sealed cells, and other
symbols. -/
def loading (program : List Stmt) (t : SymbolTable) (s : Session) : Session :=
  { s with
    store := s.store.rewind.append (Layout.stmts t s.echo s.store.base program ++ [.stop])
    machine := { s.machine with symbols := t } }

/-- The session after a run that led to the machine `m`, its code discarded. -/
def after (m : Machine) (s : Session) : Session :=
  { s with store := s.store.rewind, machine := m }

theorem programOf_of_parse {source : String} {program : List Stmt} {t : SymbolTable}
    (h : parse (lex source) s.machine.symbols s.limits.depth = (.ok program, t)) :
    s.programOf source = program := by
  rw [programOf, Session.read, h]

/-- Compiling a text without definitions. -/
theorem compile_plain (hs : s.machine.symbols.Sound) {source : String}
    {program : List Stmt} {t : SymbolTable}
    (hparse : parse (lex source) s.machine.symbols s.limits.depth = (.ok program, t))
    (htop : topLevel program = program ∧ definitions program = []) :
    (s.store.base + footprint program ≤ s.limits.program →
      s.compile source = .ok s.store.base (s.loading program t)) ∧
    (¬ s.store.base + footprint program ≤ s.limits.program →
      ∃ s', s.compile source = .error tooBig s') := by
  let s₁ : Session := { s with machine := { s.machine with symbols := t } }
  have hread : s.read source = .ok program s₁ := by
    rw [Session.read, hparse]
  have hcompile : s.compile source = s₁.generate program := Action.bind_of_ok hread
  obtain ⟨-, hw, -⟩ := parse_wellFormed (lex source) hs s.limits.depth
  rw [hparse] at hw
  obtain ⟨hfits, hfails⟩ :=
    @Image.generate_apply s.limits.program s.echo s₁.image program (hw program rfl)
  rw [htop.2, Layout.main_eq, htop.1] at hfits
  rw [hcompile]
  constructor
  · intro hroom
    exact @generate_of_ok s₁ _ _ _ (hfits hroom)
  · intro hroom
    exact ⟨_, generate_of_error (hfails hroom)⟩

/-- Discarding the code of a text leaves the sealed cells. -/
theorem rewind_loading (program : List Stmt) (t : SymbolTable) :
    (s.loading program t).store.rewind = s.store.rewind :=
  congrArg Image.store (Image.rewound_append s.image.isSealed_rewound _)

/-- Entering a text whose code has been run with success. -/
theorem enter_of_loading {source : String} {program : List Stmt} {t : SymbolTable}
    {fuel entry : Nat} {u : Unit} {m : Machine}
    (hcompile : s.compile source = .ok entry (s.loading program t))
    (hrun : Exec.execute (s.loading program t).job fuel entry
      (s.loading program t).machine = .ok u m) :
    s.enter fuel source = .ok () (s.after m) := by
  have hexecute : (s.loading program t).execute fuel entry = .ok () _ :=
    execute_of_ok hrun
  rw [enter_of_ok hcompile, hexecute]
  show EStateM.Result.ok ()
    { s with store := (s.loading program t).store.rewind, machine := m } = _
  rw [rewind_loading, after]

/-- A text without definitions that was entered with success: it was read as
`program`, and running its code led to the machine `m`. -/
structure Entry (source : String) (fuel : Nat) (program : List Stmt)
    (t : SymbolTable) (m : Machine) (s : Session) : Prop where
  parsed : parse (lex source) s.machine.symbols s.limits.depth = (.ok program, t)
  reads : Stmt.ReadsAll t false program s.machine.symbols t
  wellFormed : Stmt.AllWellFormed t false program
  run : Exec.execute (s.loading program t).job fuel s.store.base
    (s.loading program t).machine =
    .ok () m

/-- A text without definitions that has been entered with success is an entry. -/
theorem exists_entry (hs : s.machine.symbols.Sound) {source : String}
    (hplain : Plain (lex source)) {fuel : Nat} {u : Unit}
    (h : s.enter fuel source = .ok u s') :
    ∃ program t m, s.Entry source fuel program t m ∧ s' = s.after m := by
  obtain ⟨-, hw, -⟩ := parse_wellFormed (lex source) hs s.limits.depth
  -- the text was read, there was room for its code, and the run succeeded:
  -- otherwise entering it would have failed
  cases hparse : parse (lex source) s.machine.symbols s.limits.depth with
  | mk result t =>
    rw [hparse] at hw
    cases result with
    | error f =>
      have hread : s.read source =
          .error f { s with machine := { s.machine with symbols := t } } := by
        rw [Session.read, hparse]
      rw [enter_of_error (Action.bind_of_error hread)] at h
      exact nomatch h
    | ok program =>
      have hreads := Stmt.readsAll_of_parse hs hplain hparse
      have htop := Stmt.topLevel_of_readsAll hreads
      have hwell := Image.allWellFormed_topLevel (hw program rfl)
      rw [htop.1] at hwell
      obtain ⟨hfits, hfails⟩ := compile_plain hs hparse htop
      by_cases hroom : s.store.base + footprint program ≤ s.limits.program
      · have hcompile := hfits hroom
        cases hrun : Exec.execute (s.loading program t).job fuel s.store.base
          (s.loading program t).machine with
        | ok u m =>
          refine ⟨program, t, m, ⟨hparse, hreads, hwell, hrun⟩, ?_⟩
          cases (enter_of_loading hcompile hrun).symm.trans h
          rfl
        | error e m =>
          have hexecute : (s.loading program t).execute fuel s.store.base = .error e _ :=
            execute_of_error hrun
          rw [enter_of_ok hcompile, hexecute] at h
          exact nomatch h
      · obtain ⟨s₁, hcompile⟩ := hfails hroom
        rw [enter_of_error hcompile] at h
        exact nomatch h

theorem rewind_after (m : Machine) : (s.after m).store.rewind = s.store.rewind :=
  Store.ext (by simp [after, Store.rewind]) rfl

/-- The sealed cells are those of the session. -/
theorem get?_loading (program : List Stmt) (t : SymbolTable) {i : Nat}
    (hi : i < s.store.base) :
    (s.loading program t).job.cells[i]? = s.store.cells[i]? := by
  have hsize : s.store.rewind.cells.size = s.store.base := s.store.size_rewind
  show (s.store.rewind.cells ++ List.toArray _)[i]? = _
  rw [Array.getElem?_append_left (hsize ▸ hi)]
  exact s.store.get?_rewind hi

theorem holds_loading (program : List Stmt) (t : SymbolTable) :
    Holds (s.loading program t).job.cells s.store.base
      (Layout.stmts t s.echo s.store.base program ++ [.stop]) := by
  have hend := holds_end s.store.rewind.cells
    (Layout.stmts t s.echo s.store.base program ++ [.stop])
  have hsize : s.store.rewind.cells.size = s.store.base := s.store.size_rewind
  rw [hsize] at hend
  exact hend

section

variable {source : String} {fuel : Nat} {program : List Stmt}
  {t : SymbolTable} {m : Machine}

/-- Reading the text and running its code let the symbols go on. -/
theorem Entry.continues (h : s.Entry source fuel program t m)
    (hs : s.machine.symbols.Sound) :
    s.machine.symbols.Continues t ∧ t.Continues m.symbols := by
  obtain ⟨hread, -⟩ := parse_wellFormed (lex source) hs s.limits.depth
  rw [h.parsed] at hread
  have hruns := Exec.execute_behaves (s.loading program t).job fuel s.store.base
    (s.loading program t).machine
    (hread.sound hs)
  rw [h.run] at hruns
  exact ⟨hread, hruns.advances, hruns.indexed⟩

theorem Entry.quiet (h : s.Entry source fuel program t m) (hs : s.Quiet) :
    (s.after m).Quiet := by
  obtain ⟨hread, hruns⟩ := h.continues hs.sound
  have hgrows : Image.Grows [] s.image (s.after m).image :=
    Image.grows_nothing rfl (fun _ hi => s.store.get?_rewind hi) (hread.trans hruns)
  exact ⟨hgrows.sound hs.sound, hs.echo,
    hs.housed.grows hgrows fun _ hr => absurd hr List.not_mem_nil⟩

/-- More rounds do not change what an entry leads to. -/
theorem Entry.mono (h : s.Entry source fuel program t m) {fuel' : Nat}
    (hf : fuel ≤ fuel') :
    s.Entry source fuel' program t m := by
  have hsame := (Exec.execute_mono hf s.store.base).eq_of_ne
    (s := (s.loading program t).machine) fun _ hm => nomatch hm.symm.trans h.run
  exact { h with run := hsame.trans h.run }

theorem Entry.stretch (h : s.Entry source fuel program t m) (hecho : s.echo = false) :
    Stretch t (s.loading program t).job s.store.base program := by
  have hcode := @holds_loading s program t
  rw [hecho] at hcode
  exact ⟨h.wellFormed, Stmt.allAgree_of_readsAll h.reads, hcode⟩

/-- Also with the symbols of the text its names lead to bodies. -/
theorem Entry.housed (h : s.Entry source fuel program t m) (hs : s.Quiet) :
    Image.Housed false ⟨s.store, t⟩ := by
  have hgrows : Image.Grows [] s.image ⟨s.store, t⟩ :=
    Image.grows_nothing rfl (fun _ _ => rfl) (h.continues hs.sound).1
  exact hs.housed.grows hgrows fun _ hr => absurd hr List.not_mem_nil

/-- Running the code of the text only assigns to variables. -/
theorem Entry.assigned (h : s.Entry source fuel program t m) (hs : s.Quiet) :
    t.Assigned m.symbols := by
  have hmore := h.mono (Nat.le_add_right fuel ((s.loading program t).job.cells.size + 2))
  have hcells := fun i (hi : i < s.store.base) => @get?_loading s program t i hi
  exact Exec.assigned_of_execute ((h.housed hs).sharesBodies hcells hcells)
    (Nat.le_add_left _ _) (h.stretch hs.echo) hmore.run

end

/-! ### Two texts as one -/

section

variable {a b : String} {fuel : Nat} {p₁ p₂ : List Stmt} {t₁ t₂ more : SymbolTable}
  {m₁ m₂ : Machine}

/-- The code of both programs, as it lies in the code of one. -/
theorem holds_joined (hecho : s.echo = false) (hassigned : (t₁.plus more).Assigned t₂)
    (hevolves : t₁.Evolves t₂) (hw₁ : Stmt.AllWellFormed t₁ false p₁)
    (hw : Stmt.AllWellFormed (t₁.plus more) false (p₁ ++ p₂)) :
    Holds (s.loading (p₁ ++ p₂) (t₁.plus more)).job.cells s.store.base
      (Layout.stmts t₁ false s.store.base p₁ ++
        (Layout.stmts t₂ false (s.store.base + Stmt.sizes p₁) p₂ ++ [.stop])) := by
  have hcode := @holds_loading s (p₁ ++ p₂) (t₁.plus more)
  rw [hecho, ← Layout.stmts_evolve hassigned.evolves _ hw, Layout.stmts_append,
    Layout.stmts_evolve hevolves _ hw₁, List.append_assoc] at hcode
  exact hcode

/-- Both texts together have no definitions either. -/
theorem Entry.plain_append (h₁ : s.Entry a fuel p₁ t₁ m₁)
    (h₂ : s'.Entry b fuel p₂ t₂ m₂) :
    topLevel (p₁ ++ p₂) = p₁ ++ p₂ ∧ definitions (p₁ ++ p₂) = [] := by
  obtain ⟨htop₁, hdefs₁⟩ := Stmt.topLevel_of_readsAll h₁.reads
  obtain ⟨htop₂, hdefs₂⟩ := Stmt.topLevel_of_readsAll h₂.reads
  constructor
  · rw [topLevel, List.filter_append]
    exact congr (congrArg _ htop₁) htop₂
  · rw [definitions, List.filter_append]
    exact congr (congrArg _ hdefs₁) hdefs₂

/-- Two texts that were entered one after the other are read as the programs
that they were read as, and running the code of both leads where running the
code of the second one led. -/
theorem Entry.joined (hs : s.Quiet) (hcomment : endsInComment a = false)
    (ha : Plain (lex a)) (hb : Plain (lex b))
    (h₁ : s.Entry a fuel p₁ t₁ m₁) (h₂ : (s.after m₁).Entry b fuel p₂ t₂ m₂) :
    ∃ more, parse (lex (a ++ "\n;\n" ++ b)) s.machine.symbols s.limits.depth =
      (.ok (p₁ ++ p₂), t₁.plus more) ∧
      ∃ pc enough, Exec.execute (s.loading (p₁ ++ p₂) (t₁.plus more)).job
        enough s.store.base (s.loading (p₁ ++ p₂) (t₁.plus more)).machine =
          .ok () { m₂ with pc } := by
  have hs₁ := h₁.quiet hs
  have hsound : s.machine.symbols.Sound := hs.sound
  have hassigned := h₁.assigned hs
  -- the second text adds the entries `more`, be the first one run before or not
  obtain ⟨more, ht₂, hparse⟩ :=
    parse_joined hsound (token_lex_joined hcomment b) ha hb h₁.parsed hassigned
    hs₁.sound h₂.parsed
  have hevolves : t₁.Evolves t₂ :=
    ((h₁.continues hs.sound).2.trans (h₂.continues hs₁.sound).1).evolves
  have hjoined : (t₁.plus more).Assigned t₂ := ht₂ ▸ hassigned.plus more
  have hwell : Stmt.AllWellFormed (t₁.plus more) false (p₁ ++ p₂) := by
    obtain ⟨-, hw, -⟩ := parse_wellFormed (lex (a ++ "\n;\n" ++ b)) hsound s.limits.depth
    rw [hparse] at hw
    have hwell := Image.allWellFormed_topLevel (hw _ rfl)
    rw [(h₁.plain_append h₂).1] at hwell
    exact hwell
  let job := (s.loading (p₁ ++ p₂) (t₁.plus more)).job
  let job₁ := (s.loading p₁ t₁).job
  let job₂ := ((s.after m₁).loading p₂ t₂).job
  let start : Machine := { s.machine with symbols := t₁ }
  -- the sealed cells are the same for all three
  have hcells : ∀ i < s.store.base, job.cells[i]? = s.store.cells[i]? :=
    fun i hi => get?_loading _ _ hi
  have hshared₁ : SharesBodies start.symbols job₁ job :=
    (h₁.housed hs).sharesBodies (fun i hi => get?_loading _ _ hi) hcells
  have hshared₂ : SharesBodies t₂ job₂ job :=
    (h₂.housed hs₁).sharesBodies (fun i hi => get?_loading _ _ hi) fun i hi =>
      (hcells i hi).trans (s.store.get?_rewind hi).symm
  have hstretch₁ : Stretch start.symbols job₁ s.store.base p₁ := h₁.stretch hs.echo
  have hstretch₂ : Stretch t₂ job₂ s.store.base p₂ := h₂.stretch hs₁.echo
  let enough := fuel + job₁.cells.size + job₂.cells.size + job.cells.size + 2
  have hrun₁ : Exec.execute job₁ enough s.store.base start = .ok () m₁ :=
    (h₁.mono (by omega)).run
  have hrun₂ : Exec.execute job₂ enough s.store.base { m₁ with symbols := t₂ } =
      .ok () m₂ :=
    (h₂.mono (by omega)).run
  obtain ⟨pc, hrun⟩ := Exec.execute_joined hshared₁ hshared₂ rfl rfl hstretch₁ hstretch₂
    (holds_joined hs.echo hjoined hevolves h₁.wellFormed hwell) (by omega)
    (by omega) (by omega) hrun₁ ht₂ hrun₂
  exact ⟨more, hparse, pc, enough, hrun⟩

/-- Take any session that never showed the value of an expression statement, and
two texts without definitions, the first of which does not end inside a comment.
If both can be entered, one after the other, then the text of both with a
semicolon between them can be entered in their place, or else there is no room
for its code. It leaves the same output and the same lines to be read, the same
symbols and the same code. -/
theorem enter_joined {s₁ s₂ : Session} (hs : Silent s)
    (hcomment : endsInComment a = false) (ha : Plain (lex a)) (hb : Plain (lex b))
    {fuel' : Nat} (h₁ : s.enter fuel a = .ok () s₁) (h₂ : s₁.enter fuel' b = .ok () s₂) :
    (s.limits.program < s.store.base + footprint (s.programOf (a ++ "\n;\n" ++ b)) ∧
      ∃ f s', f.kind = .programTooBig ∧
        ∀ rounds, s.enter rounds (a ++ "\n;\n" ++ b) = .error (.fault f) s') ∨
    ∃ enough s', (∀ rounds, enough ≤ rounds →
      s.enter rounds (a ++ "\n;\n" ++ b) = .ok () s') ∧
      s'.machine.console = s₂.machine.console ∧ s'.machine.symbols = s₂.machine.symbols ∧
      s'.store = s₂.store := by
  obtain ⟨-, hquiet⟩ := hs.quiet
  obtain ⟨p₁, t₁, m₁, hentry₁, rfl⟩ := exists_entry hquiet.sound ha h₁
  obtain ⟨p₂, t₂, m₂, hentry₂, rfl⟩ := exists_entry (hentry₁.quiet hquiet).sound hb h₂
  have hentry₁ := hentry₁.mono (Nat.le_add_right fuel fuel')
  have hentry₂ := hentry₂.mono (Nat.le_add_left fuel' fuel)
  obtain ⟨more, hparse, pc, enough, hrun⟩ := hentry₁.joined hquiet hcomment ha hb hentry₂
  have htop := hentry₁.plain_append hentry₂
  obtain ⟨hfits, hfails⟩ := compile_plain hquiet.sound hparse htop
  by_cases hroom : s.store.base + footprint (p₁ ++ p₂) ≤ s.limits.program
  · refine .inr ⟨enough, s.after { m₂ with pc }, fun rounds hle => ?_, rfl, rfl,
      (rewind_after m₁).symm⟩
    have hsame := (Exec.execute_mono hle s.store.base).eq_of_ne fun _ hm =>
      nomatch hm.symm.trans hrun
    exact enter_of_loading (hfits hroom) (hsame.trans hrun)
  · obtain ⟨s', hcompile⟩ := hfails hroom
    refine .inl ⟨?_, tooBig, s', rfl, fun rounds => enter_of_error hcompile⟩
    rw [programOf_of_parse hparse]
    exact Nat.lt_of_not_le hroom

/-- A function, defined before. -/
def doubling : String :=
  "func f() \x7b return $1 * 2 \x7d"

/-- A text that calls the function and prints. -/
def firstPart : String :=
  "x = f(3)\nprint x"

/-- A text that goes on with the same variable, and reads. -/
def secondPart : String :=
  "while (x > 4) \x7b x -= 1\nread(y) \x7d print y"

/-- The two parts and their whole, in a session with a function at hand and
lines to be read. -/
theorem enter_joined_doubling :
    ∃ s s₁ s₂ enough s', Silent s ∧ endsInComment firstPart = false ∧
      Plain (lex firstPart) ∧
      Plain (lex secondPart) ∧ s.enter 100 firstPart = .ok () s₁ ∧
      s₁.enter 100 secondPart = .ok () s₂ ∧
      (∀ rounds, enough ≤ rounds →
        s.enter rounds (firstPart ++ "\n;\n" ++ secondPart) = .ok () s') ∧
      s'.machine.console = s₂.machine.console ∧ s'.machine.symbols = s₂.machine.symbols ∧
      s'.store = s₂.store := by
  let s : Session := (Action.final ((Session.fresh {}).enter 100 doubling)).supply
    ["7", "8", "9"]
  have hs : Silent s :=
    ((Silent.fresh {} false).step (.enter 100 doubling) trivial nofun).step
      (.supply ["7", "8", "9"]) trivial nofun
  have hcomment : endsInComment firstPart = false := by decide +kernel
  have ha : Plain (lex firstPart) := fun kind => by cases kind <;> decide +kernel
  have hb : Plain (lex secondPart) := fun kind => by cases kind <;> decide +kernel
  have hfacts : ¬ s.limits.program <
        s.store.base + footprint (s.programOf (firstPart ++ "\n;\n" ++ secondPart)) ∧
      Action.succeeds (s.enter 100 firstPart) ∧
      Action.succeeds ((Action.final (s.enter 100 firstPart)).enter 100 secondPart) := by
    decide +kernel
  obtain ⟨hroom, hfirst, hsecond⟩ := hfacts
  obtain ⟨_, s₁, h₁⟩ := Action.exists_of_succeeds hfirst
  rw [h₁] at hsecond
  obtain ⟨_, s₂, h₂⟩ := Action.exists_of_succeeds hsecond
  obtain ⟨enough, s', hjoined, hsame⟩ :=
    (enter_joined hs hcomment ha hb h₁ h₂).resolve_left fun h => hroom h.1
  exact ⟨s, s₁, s₂, enough, s', hs, hcomment, ha, hb, h₁, h₂, hjoined, hsame⟩

end

end Session

end StackCalc
