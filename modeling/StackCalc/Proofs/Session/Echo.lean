import StackCalc.Proofs.Machine.Echo
import StackCalc.Proofs.Session.Interrupts

/-!
# Echo only adds output

A text is entered without echo and with it. The setting has a part in compiling
only: where an expression statement of the text ends, its value is shown and not
dropped (`Store.Echoed`). So both runs do the same, but for the values that are
shown and the symbol `_` which keeps the last of them. What remains of the
writes without those values is what is written without echo.

Values are also shown by definitions that an earlier text has made with echo.
Those are written either way.
-/

namespace StackCalc

open StackCalc.Action

/-! ### Texts without `_` -/

namespace Register

/-- A register in which the symbol of `_` has its place, and that is not one of
a token. -/
structure Spares (place : Option Nat) (r : Register) : Prop where
  lookup : r.symbols.lookup "_" = place
  others : ∀ {name id}, name ≠ "_" → r.symbols.lookup name = some id → place ≠ some id
  lt_size : ∀ {id}, place = some id → id < r.symbols.size
  ids : ∀ {id}, id ∈ r.ids → place ≠ some id

namespace Spares

variable {place : Option Nat} {r : Register}

theorem of_sound {t : SymbolTable} (ht : t.Sound) :
    Spares (t.lookup "_") ⟨t, none, []⟩ where
  lookup := rfl
  others hname hlookup hplace := by
    have hsame := (ht.named hlookup).2.symm.trans (ht.named hplace).2
    exact hname (Option.some.inj hsame)
  lt_size hplace := (ht.named hplace).1
  ids hid := absurd hid List.not_mem_nil

/-- One more token, with a symbol of its own. -/
theorem snoc (h : Spares place r) {id : Nat} (hid : place ≠ some id) :
    Spares place ⟨r.symbols, none, r.ids ++ [id]⟩ where
  lookup := h.lookup
  others := h.others
  lt_size := h.lt_size
  ids hmem := by
    rcases List.mem_append.1 hmem with hold | hnew
    · exact h.ids hold
    · rwa [List.mem_singleton.1 hnew]

theorem modify (h : Spares place r) (id : Nat) (f : Symbol → Symbol) :
    Spares place ⟨r.symbols.modify id f, none, r.ids⟩ where
  lookup := h.lookup
  others := h.others
  lt_size hplace := (SymbolTable.size_modify ..).symm ▸ h.lt_size hplace
  ids := h.ids

theorem ne_size (h : Spares place r) : place ≠ some r.symbols.size :=
  fun hplace => Nat.lt_irrefl _ (h.lt_size hplace)

theorem push (h : Spares place r) (e : Symbol) :
    Spares place ⟨(r.symbols.push e).2, none, r.ids ++ [r.symbols.size]⟩ := by
  refine snoc (r := ⟨(r.symbols.push e).2, none, r.ids⟩)
    ⟨h.lookup, h.others, fun hplace => ?_, h.ids⟩ h.ne_size
  rw [SymbolTable.size_push]
  exact Nat.lt_succ_of_lt (h.lt_size hplace)

/-- A name that is not `_` leads to another symbol, be it a known or a new one. -/
theorem resolve (h : Spares place r) {name : String} (hname : name ≠ "_") :
    Spares place ⟨(r.symbols.resolve name).2, none,
      r.ids ++ [(r.symbols.resolve name).1]⟩ := by
  -- a known name leads to its symbol, and a new one gets the next place
  rcases r.symbols.resolve_cases name with ⟨id, hid, hresolve⟩ | ⟨-, hresolve⟩
  · rw [hresolve]
    exact h.snoc (h.others hname hid)
  · rw [hresolve]
    refine snoc (r := ⟨(r.symbols.install name .undefined 0.0).2, none, r.ids⟩)
      ?_ h.ne_size
    refine ⟨?_, fun {name' id} hname' hid => ?_, fun hplace => ?_, h.ids⟩
    · exact (SymbolTable.lookup_install_other _ _ _ hname.symm).trans h.lookup
    · by_cases hsame : name' = name
      · subst hsame
        rw [SymbolTable.lookup_install_self] at hid
        cases hid
        exact h.ne_size
      · rw [SymbolTable.lookup_install_other _ _ _ hsame] at hid
        exact h.others hname' hid
    · rw [SymbolTable.size_install]
      exact Nat.lt_succ_of_lt (h.lt_size hplace)

/-- One more token that is not `_`. -/
theorem add (h : Spares place r) {token : Token} (ht : token ≠ .ident "_") :
    Spares place (r.add token) := by
  cases token with
  | number x => exact h.push _
  | text s => exact h.push _
  | ident name =>
    have hresolve := h.resolve fun hname => ht (congrArg Token.ident hname)
    obtain ⟨t, defining, ids⟩ := r
    cases defining with
    | none => exact hresolve
    | some kind => exact hresolve.modify _ _
  | _ => exact ⟨h.lookup, h.others, h.lt_size, h.ids⟩

theorem addAll (h : Spares place r) {ts : List Token} (hts : Token.ident "_" ∉ ts) :
    Spares place (r.addAll ts) := by
  induction ts generalizing r with
  | nil => exact h
  | cons token ts ih =>
    rw [List.mem_cons, not_or] at hts
    exact ih (h.add (Ne.symm hts.1)) hts.2

end Spares

end Register

/-- Reading a text without `_` does not give that name a symbol, and no symbol
of the text has it. -/
theorem parse_spares {tokens : List Located} {t t' : SymbolTable} {depth : Nat}
    {program : List Stmt} (ht : t.Sound) (h : parse tokens t depth = (.ok program, t'))
    (htokens : .ident "_" ∉ tokens.map Located.token) :
    t'.lookup "_" = t.lookup "_" ∧ ∀ id ∈ Stmt.allIds program,
      t.lookup "_" ≠ some id := by
  obtain ⟨rest, hrun⟩ := programItems_of_parse h
  obtain ⟨taken, hrow, hadds⟩ :=
    Parser.registers_programItems _ depth tokens ⟨tokens, t⟩ List.nil_prefix program
      ⟨rest, t'⟩ hrun
  have hall : Register.addAll ⟨t, none, []⟩ taken = ⟨t', none, Stmt.allIds program⟩ :=
    hadds []
  have htaken : .ident "_" ∉ taken := by
    intro hmem
    rw [show tokens.map Located.token = _ from hrow] at htokens
    exact htokens (List.mem_append_left _ hmem)
  have hspares := (Register.Spares.of_sound ht).addAll htaken
  rw [hall] at hspares
  exact ⟨hspares.lookup, fun _ => hspares.ids⟩

/-! ### The code of a text -/

/-- The same code but at the given places: there the first store drops a value
and the second one shows it. -/
structure Store.Echoed (ends : Nat → Bool) (quiet loud : Store) : Prop where
  base : loud.base = quiet.base
  cells : ∀ p, loud.get? p = (quiet.get? p).map fun c =>
    if ends p then .op (.plain .printTop) else c
  drops : ∀ p, ends p = true → ∀ c ∈ quiet.get? p, c = .op (.plain .pop)

theorem Store.Echoed.of_store (store : Store) : Echoed (fun _ => false) store store where
  base := rfl
  cells _ := Option.map_id'.symm
  drops _ h := absurd h Bool.false_ne_true

/-- What is sealed stays the same but at the given places. -/
theorem Store.Echoed.rewind {ends : Nat → Bool} {quiet loud : Store}
    (h : Echoed ends quiet loud) :
    Echoed ends quiet.rewind loud.rewind := by
  have hget : ∀ (s : Store) p, s.rewind.get? p = if p < s.base then s.get? p
      else none := by
    intro s p
    split
    case isTrue hp => exact s.get?_rewind hp
    case isFalse hp =>
      exact Array.getElem?_eq_none
        (Nat.le_trans (Nat.le_of_eq s.size_rewind) (Nat.le_of_not_lt hp))
  -- behind the sealed code there is nothing in either store
  refine ⟨h.base, fun p => ?_, fun p hp c hc => ?_⟩
  · rw [hget, hget, h.base]
    split
    · exact h.cells p
    · rfl
  · rw [hget] at hc
    split at hc
    · exact h.drops p hp c hc
    · cases hc

/-- What the two images of a program have in their stores. The ends may go on
behind the code. -/
theorem Image.Echoed.store {bits bits' : List Bool} {quiet loud : Image}
    (h : Echoed bits quiet loud) (hbits : bits <+: bits') :
    Store.Echoed (fun p => bits'[p]? == some true) quiet.store loud.store := by
  obtain ⟨rest, rfl⟩ := hbits
  have hget : ∀ (s : Store) p, s.get? p = s.cells.toList[p]? :=
    fun s p => Array.getElem?_toList.symm
  -- inside the code a place is an end or not, and behind it both stores have
  -- nothing
  have hcases : ∀ p,
      (((bits ++ rest)[p]? == some true) = true ∧
        quiet.store.get? p = some (Layout.ending false) ∧
        loud.store.get? p = some (Layout.ending true)) ∨
      (((bits ++ rest)[p]? == some true) = false ∧
        loud.store.get? p = quiet.store.get? p) ∨
      (quiet.store.get? p = none ∧ loud.store.get? p = none) := by
    intro p
    rw [hget, hget]
    rcases Nat.lt_or_ge p bits.length with hp | hp
    · rw [List.getElem?_append_left hp]
      rcases h.cells.getElem? p with ⟨hend, hquiet, hloud⟩ | ⟨hend, hsame⟩
      · exact .inl ⟨beq_iff_eq.2 hend, hquiet, hloud⟩
      · exact .inr (.inl ⟨beq_eq_false_iff_ne.2 hend, hsame⟩)
    · refine .inr (.inr ⟨List.getElem?_eq_none ?_, List.getElem?_eq_none ?_⟩)
      · rwa [h.cells.length_quiet]
      · rwa [h.cells.length_loud]
  refine ⟨h.base, fun p => ?_, fun p hp c hc => ?_⟩
  · rcases hcases p with ⟨hend, hquiet, hloud⟩ | ⟨hend, hsame⟩ | ⟨hquiet, hloud⟩
    · rw [hloud, hquiet, hend]
      rfl
    · rw [hsame, hend]
      exact Option.map_id'.symm
    · rw [hloud, hquiet]
      rfl
  · rcases hcases p with ⟨-, hquiet, -⟩ | ⟨hend, -⟩ | ⟨hquiet, -⟩
    · rw [hquiet] at hc
      cases hc
      rfl
    · rw [hp] at hend
      cases hend
    · rw [hquiet] at hc
      cases hc

theorem Image.Echoed.job {bits : List Bool} {quiet loud : Image}
    (h : Echoed bits quiet loud) (limits : Limits) :
    Job.Echoed (fun p => bits[p]? == some true) ⟨quiet.store.cells, limits⟩
      ⟨loud.store.cells, limits⟩ := by
  refine ⟨rfl, fun p => ?_⟩
  rw [← Array.getElem?_toList, ← Array.getElem?_toList]
  rcases h.cells.getElem? p with ⟨hend, hquiet, hloud⟩ | ⟨hend, hsame⟩
  · exact .inl ⟨beq_iff_eq.2 hend, hquiet, hloud⟩
  · exact .inr ⟨beq_eq_false_iff_ne.2 hend, hsame⟩

/-- Whether a write shows the value of an expression statement, of whatever text. -/
def Write.isEcho : Write → Bool
  | .echo _ => true
  | _ => false

namespace Session

variable {rs : List Region} {s : Session} {source : String}

/-- Whether an expression statement of a text ends at an address, in the code
that the text is compiled to. -/
def endsStatement (s : Session) (source : String) (p : Nat) : Bool :=
  (List.replicate s.store.base false ++ programEnds (s.programOf source))[p]? == some true

/-- Whether the `n`-th write, if a text is entered with echo, shows the value of
one of its expression statements: the run comes to the end of the statement with
a value at hand and `n` writes made. -/
def showsStatement (s : Session) (fuel : Nat) (source : String) (n : Nat) : Bool :=
  match (s.setEcho true).compile source with
  | .ok entry s' => Exec.shows (s.endsStatement source) s'.job fuel entry s'.machine n
  | .error _ _ => false

/-- What compiling a text leaves without echo and with it. -/
structure CompiledAlike (ends : Nat → Bool) (quiet loud : Session) : Prop where
  machine : loud.machine = quiet.machine
  store : quiet.store.Echoed ends loud.store

/-- What entering a text leaves without echo and with it. The machines differ in
the symbol of `_` and in what was written and in nothing else: the same input is
left. -/
structure EnteredAlike (ends shows : Nat → Bool) (quiet loud : Session) : Prop where
  store : quiet.store.Echoed ends loud.store
  machine : loud.machine = quiet.machine.beside loud.machine.symbols
    loud.machine.console.writes
  symbols : quiet.machine.symbols.Akin loud.machine.symbols
  writes : quiet.machine.console.writes.toList =
    (loud.machine.console.writes.toList.zipIdx.filter fun w => !shows w.2).map Prod.fst
  shown : ∀ n, shows n = true → ∃ x, loud.machine.console.writes[n]? = some (.echo x)

/-! ### Compiling with and without echo -/

section

variable {program : List Stmt} {t : SymbolTable}

theorem read_of_parse
    (h : parse (lex source) s.machine.symbols s.limits.depth = (.ok program, t)) :
    s.read source = .ok program (s.withImage ⟨s.store, t⟩) := by
  rw [Session.read, h]
  rfl

theorem read_of_unread {f : Fault}
    (h : parse (lex source) s.machine.symbols s.limits.depth = (.error f, t)) :
    s.read source = .error f (s.withImage ⟨s.store, t⟩) := by
  rw [Session.read, h]
  rfl

/-- A text that cannot be read leaves its symbols and nothing else. -/
theorem compiledAlike_of_unread {f : Fault}
    (h : parse (lex source) s.machine.symbols s.limits.depth = (.error f, t)) :
    ∃ quiet loud, CompiledAlike (s.endsStatement source) quiet loud ∧
      (s.setEcho false).compile source = .error f quiet ∧
      (s.setEcho true).compile source = .error f loud := by
  have hends : s.endsStatement source = fun _ => false := by
    funext p
    rw [endsStatement, programOf, read_of_unread h]
    refine beq_eq_false_iff_ne.2 fun hp => ?_
    have hmem := List.mem_of_getElem? hp
    simp [programEnds, definitionPart, mainPart, Stmt.allEnds] at hmem
  have hcompile : ∀ on, (s.setEcho on).compile source =
      .error f ((s.setEcho on).withImage ⟨s.store, t⟩) :=
    fun on => bind_of_error (@read_of_unread (s.setEcho on) source t f h)
  refine ⟨(s.setEcho false).withImage ⟨s.store, t⟩,
    (s.setEcho true).withImage ⟨s.store, t⟩, ⟨rfl, ?_⟩, hcompile false, hcompile true⟩
  rw [hends]
  exact .of_store s.store

/-- A text that can be read is compiled to the same code but for the ends of its
expression statements, or there is no room for it with either setting. -/
theorem compiledAlike_of_parse (hs : s.machine.symbols.Sound)
    (h : parse (lex source) s.machine.symbols s.limits.depth = (.ok program, t)) :
    ∃ quiet loud, CompiledAlike (s.endsStatement source) quiet loud ∧
      ((∃ entry, (s.setEcho false).compile source = .ok entry quiet ∧
          (s.setEcho true).compile source = .ok entry loud ∧
          Job.Echoed (s.endsStatement source) quiet.job loud.job) ∨
        ∃ f, (s.setEcho false).compile source = .error f quiet ∧
          (s.setEcho true).compile source = .error f loud) := by
  obtain ⟨-, hw, -⟩ := parse_wellFormed (lex source) hs s.limits.depth
  rw [h] at hw
  have hends : s.endsStatement source =
      fun p => (List.replicate s.store.base false ++ programEnds program)[p]? ==
        some true := by
    funext p
    rw [endsStatement, programOf, read_of_parse h]
  let s₁ := s.withImage ⟨s.store, t⟩
  have hcompile : ∀ on, (s.setEcho on).compile source =
      (s₁.setEcho on).generate program :=
    fun on => bind_of_ok (@read_of_parse (s.setEcho on) source program t h)
  obtain ⟨bits, quiet, loud, hechoed, hcases⟩ :=
    @Image.generate_echoed s.limits.program ⟨s.store, t⟩ program (hw program rfl)
  have halike : bits <+: List.replicate s.store.base false ++ programEnds program →
      CompiledAlike (s.endsStatement source) ((s₁.setEcho false).withImage quiet)
        ((s₁.setEcho true).withImage loud) := by
    intro hbits
    refine ⟨?_, hends ▸ hechoed.store hbits⟩
    rw [withImage, withImage, hechoed.symbols]
    rfl
  refine ⟨_, _, halike ?_, ?_⟩
  · rcases hcases with ⟨hbits, -⟩ | ⟨hbits, -⟩
    · exact hbits ▸ List.prefix_refl bits
    · exact hbits
  · rw [hcompile, hcompile]
    rcases hcases with ⟨hbits, entry, hquiet, hloud⟩ | ⟨-, hquiet, hloud⟩
    · refine .inl ⟨entry, @generate_of_ok (s₁.setEcho false) program entry quiet hquiet,
        @generate_of_ok (s₁.setEcho true) program entry loud hloud, ?_⟩
      rw [hends, ← show bits = _ from hbits]
      exact hechoed.job s.limits
    · exact .inr ⟨tooBig, @generate_of_error (s₁.setEcho false) program
        tooBig quiet hquiet, @generate_of_error (s₁.setEcho true) program
          tooBig loud hloud⟩

end

/-- The symbols in the code that a text without `_` is compiled to are others,
if those in the code at hand are. -/
theorem symbol_of_compile (hs : s.Intact)
    (hcells : ∀ id, s.machine.symbols.lookup "_" = some id → .symbol id ∉ s.store.cells)
    (hsource : .ident "_" ∉ (lex source).map Located.token) {entry : Nat} {s' : Session}
    (hcompile : s.compile source = .ok entry s') {id : Nat}
    (hid : .symbol id ∈ s'.store.cells) :
    id < s'.machine.symbols.size ∧ s'.machine.symbols.lookup "_" ≠ some id := by
  have hintact : s'.Intact := by
    have hfollows := follows_compile hs source
    rw [hcompile] at hfollows
    exact hfollows.intact hs
  refine ⟨?_, ?_⟩
  · obtain ⟨p, hp, hcell⟩ := Array.mem_iff_getElem.1 hid
    exact hintact.closed.symbol (Nat.zero_le p) hp
      (Array.getElem?_eq_some_iff.2 ⟨hp, hcell⟩)
  · have hsound : s.machine.symbols.Sound := hs.sound
    obtain ⟨-, hw, -⟩ := parse_wellFormed (lex source) hsound s.limits.depth
    cases hparse : parse (lex source) s.machine.symbols s.limits.depth with
    | mk r t =>
      rw [hparse] at hw
      cases r with
      | error f =>
        rw [Session.compile, bind_of_error (read_of_unread hparse)] at hcompile
        cases hcompile
      | ok program =>
        rw [Session.compile, bind_of_ok (read_of_parse hparse)] at hcompile
        cases hgenerate : Image.generate s.limits.program s.echo program ⟨s.store, t⟩ with
        | error f im =>
          cases hcompile.symm.trans
            (@generate_of_error (s.withImage ⟨s.store, t⟩) program f im hgenerate)
        | ok entry im =>
          cases hcompile.symm.trans
            (@generate_of_ok (s.withImage ⟨s.store, t⟩) program entry im hgenerate)
          obtain ⟨hlookup, hids⟩ := parse_spares hsound hparse hsource
          show im.symbols.lookup "_" ≠ some id
          rw [Image.lookup_generate (hw program rfl) hgenerate, hlookup]
          -- a symbol in the code was there before or is one of the program
          rcases Image.symbol_mem_generate (hw program rfl) hgenerate hid with hold | hnew
          · exact fun hplace => hcells id hplace hold
          · exact hids id hnew

/-! ### Entering with and without echo -/

/-- What is left when the code of a text has been run. -/
theorem enter_of_run {fuel entry : Nat} {s' : Session}
    (h : s.compile source = .ok entry s') :
    s.enter fuel source =
      match Exec.execute s'.job fuel entry s'.machine with
      | .ok _ machine => .ok () { s' with machine }.rewind
      | .error e machine => .error e { s' with machine }.rewind := by
  rw [enter_of_ok h, Session.execute]
  cases Exec.execute s'.job fuel entry s'.machine <;> rfl

/-- A text that is not compiled is not run, so it shows no value. -/
theorem enteredAlike_of_error {fuel : Nat} {f : Fault} {quiet loud : Session}
    (halike : CompiledAlike (s.endsStatement source) quiet loud)
    (h : (s.setEcho true).compile source = .error f loud) :
    EnteredAlike (s.endsStatement source) (s.showsStatement fuel source) quiet loud := by
  have hshows : s.showsStatement fuel source = fun _ => false := by
    funext n
    rw [showsStatement, h]
  obtain ⟨hmachine, hstore⟩ := halike
  refine ⟨hstore, ?_, ?_, ?_, fun n hn => ?_⟩
  · rw [hmachine]
    rfl
  · rw [hmachine]
    exact ⟨fun _ _ => rfl, fun _ _ => rfl, .inl ⟨rfl, rfl⟩⟩
  · rw [hmachine, hshows]
    have hall : ∀ ws : List (Write × Nat), ws.filter (fun _ => !false) = ws := fun ws =>
      List.filter_eq_self.2 fun _ _ => rfl
    exact (List.zipIdx_map_fst 0 _).symm.trans (congrArg _ (hall _).symm)
  · rw [hshows] at hn
    cases hn

/-- A text that is compiled leaves what the two runs of its code do. -/
theorem enteredAlike_of_ok {fuel entry : Nat} {quiet loud : Session}
    (halike : CompiledAlike (s.endsStatement source) quiet loud)
    (hquiet : (s.setEcho false).compile source = .ok entry quiet)
    (hloud : (s.setEcho true).compile source = .ok entry loud)
    (hjob : Job.Echoed (s.endsStatement source) quiet.job loud.job)
    (halarm : quiet.machine.alarm = none)
    (hsymbols : ∀ {id}, .symbol id ∈ quiet.store.cells →
      id < quiet.machine.symbols.size ∧ quiet.machine.symbols.lookup "_" ≠ some id) :
    Paired (EnteredAlike (s.endsStatement source) (s.showsStatement fuel source))
      ((s.setEcho false).enter fuel source) ((s.setEcho true).enter fuel source) := by
  obtain ⟨hmachine, hstore⟩ := halike
  have hshows : s.showsStatement fuel source =
      Exec.shows (s.endsStatement source) loud.job fuel entry quiet.machine := by
    funext n
    rw [showsStatement, hloud, ← hmachine]
  obtain ⟨hpaired, hwrites⟩ :=
    Exec.writes_execute hjob (fun _ => hsymbols) fuel entry halarm fun _ h => h
  rw [enter_of_run hquiet, enter_of_run hloud, hmachine]
  rw [← hshows] at hwrites
  -- only what is known of the two runs is used from here on
  generalize Exec.execute quiet.job fuel entry quiet.machine = r at hpaired hwrites
  generalize Exec.execute loud.job fuel entry quiet.machine = r' at hpaired hwrites
  cases hpaired with
  | ok hm =>
    exact .ok ⟨hstore.rewind, hm.eq_beside, hm.symbols.toAkin, hwrites.1, hwrites.2⟩
  | error hm =>
    exact .error ⟨hstore.rewind, hm.eq_beside, hm.symbols.toAkin, hwrites.1, hwrites.2⟩

/-- Take any session that can be reached, in which no interrupt is to arrive and
no code refers to `_`, and a text without that name. It is compiled to the same
code with echo and without, but where its own expression statements end: the
code without echo drops a value there, and the code with echo shows it. Entering
the text has the same outcome, leaves the same input, and the same symbols but
for `_`. What is written without echo is what is written with it, without the
values that the expression statements of the text show. -/
theorem echo_only_shows (h : Reachable rs s) (halarm : s.machine.alarm = none)
    (hcells : ∀ id, s.machine.symbols.lookup "_" = some id → .symbol id ∉ s.store.cells)
    (hsource : .ident "_" ∉ (lex source).map Located.token) (fuel : Nat) :
    Paired (CompiledAlike (s.endsStatement source))
        ((s.setEcho false).compile source) ((s.setEcho true).compile source) ∧
      Paired (EnteredAlike (s.endsStatement source) (s.showsStatement fuel source))
        ((s.setEcho false).enter fuel source) ((s.setEcho true).enter fuel source) := by
  have hfails : ∀ {f quiet loud}, CompiledAlike (s.endsStatement source) quiet loud →
      (s.setEcho false).compile source = .error f quiet →
      (s.setEcho true).compile source = .error f loud →
      Paired (CompiledAlike (s.endsStatement source))
          ((s.setEcho false).compile source) ((s.setEcho true).compile source) ∧
        Paired (EnteredAlike (s.endsStatement source) (s.showsStatement fuel source))
          ((s.setEcho false).enter fuel source) ((s.setEcho true).enter fuel source) := by
    intro f quiet loud halike hquiet hloud
    rw [enter_of_error hquiet, enter_of_error hloud, hquiet, hloud]
    exact ⟨.error halike, .error (enteredAlike_of_error halike hloud)⟩
  -- with either setting the text is read alike
  cases hparse : parse (lex source) s.machine.symbols s.limits.depth with
  | mk r t =>
    cases r with
    | error f =>
      obtain ⟨quiet, loud, halike, hquiet, hloud⟩ := compiledAlike_of_unread hparse
      exact hfails halike hquiet hloud
    | ok program =>
      obtain ⟨quiet, loud, halike, ⟨entry, hquiet, hloud, hjob⟩ | ⟨f, hquiet, hloud⟩⟩ :=
        compiledAlike_of_parse h.intact.sound hparse
      · refine ⟨?_, enteredAlike_of_ok halike hquiet hloud hjob ?_ fun hid => ?_⟩
        · rw [hquiet, hloud]
          exact .ok halike
        · have houtside := leaves_outside_compile source (s.setEcho false)
          rw [hquiet] at houtside
          exact (congrArg Outside.alarm houtside).trans halarm
        · exact symbol_of_compile (s := s.setEcho false) h.intact hcells
            hsource hquiet hid
      · exact hfails halike hquiet hloud

/-- A session with a function that was defined with echo, and a line to read. -/
def outspoken : Session :=
  (((Session.fresh {}).handle (.setEcho true)).handle
    (.enter 100 "func f() \x7b 1; return 2 \x7d")).handle (.supply ["4\n"])

theorem reachable_outspoken : ∃ rs, Reachable rs outspoken :=
  ⟨_, (((Reachable.fresh {}).step (.setEcho true) trivial).step
    (.enter 100 "func f() \x7b 1; return 2 \x7d") trivial).step (.supply ["4\n"]) trivial⟩

/-- A function, calls of both functions, a line that is read, and a division
that fails. -/
def outspokenText : String :=
  "func g() \x7b 7; return f() \x7d\nx = g() + f()\nread(y)\nprint x\nx * y\ny / 0\nx"

/-- Six values are written with echo, and three of them without: two are shown
by the old function and one is printed. -/
theorem echo_only_shows_outspoken :
    ∃ rs, Reachable rs outspoken ∧ outspoken.machine.alarm = none ∧
      (∀ id, outspoken.machine.symbols.lookup "_" = some id →
        .symbol id ∉ outspoken.store.cells) ∧
      .ident "_" ∉ (lex outspokenText).map Located.token ∧
      Paired (CompiledAlike (outspoken.endsStatement outspokenText))
        ((outspoken.setEcho false).compile outspokenText)
        ((outspoken.setEcho true).compile outspokenText) ∧
      Paired (EnteredAlike (outspoken.endsStatement outspokenText)
        (outspoken.showsStatement 100 outspokenText))
          ((outspoken.setEcho false).enter 100 outspokenText)
          ((outspoken.setEcho true).enter 100 outspokenText) ∧
      failure? ((outspoken.setEcho true).enter 100 outspokenText) =
        some (.fault { kind := .divisionByZero }) ∧
      (final ((outspoken.setEcho true).enter 100 outspokenText)).machine.console =
        ⟨#[.echo 7.0, .echo 1.0, .echo 1.0, .echo 1.0, .value 4.0, .echo 16.0],
          [], false⟩ ∧
      (List.range 6).map (outspoken.showsStatement 100 outspokenText) =
        [true, false, false, true, false, true] ∧
      (final ((outspoken.setEcho false).enter 100 outspokenText)).machine.console =
        ⟨#[.echo 1.0, .echo 1.0, .value 4.0], [], false⟩ := by
  obtain ⟨rs, hs⟩ := reachable_outspoken
  have halarm : outspoken.machine.alarm = none := by decide +kernel
  have hcells : ∀ id, outspoken.machine.symbols.lookup "_" = some id →
      .symbol id ∉ outspoken.store.cells := by
    intro id hid
    rw [show outspoken.machine.symbols.lookup "_" = none by decide +kernel] at hid
    cases hid
  have hsource : .ident "_" ∉ (lex outspokenText).map Located.token := by decide +kernel
  obtain ⟨hcompiled, hentered⟩ := echo_only_shows hs halarm hcells hsource 100
  refine ⟨rs, hs, halarm, hcells, hsource, hcompiled, hentered, ?_⟩
  decide +kernel

/-- The old function shows a value without echo too, so more is left than the
writes that show none. And an interrupt that arrives with the first write ends a
run with echo, where a run without makes no write. -/
theorem echo_stays_in_sealed_code :
    (∃ rs, Reachable rs outspoken) ∧ outspoken.machine.symbols.lookup "_" = none ∧
      .ident "_" ∉ (lex "x = f()").map Located.token ∧
      (final ((outspoken.setEcho false).enter 100
        "x = f()")).machine.console.writes.toList ≠
        (final ((outspoken.setEcho true).enter 100
          "x = f()")).machine.console.writes.toList.filter (fun w => !w.isEcho) ∧
      failure? ((((Session.fresh {}).interruptAfter 1).setEcho false).enter 100 "1\n2") =
        none ∧
      failure? ((((Session.fresh {}).interruptAfter 1).setEcho true).enter 100 "1\n2") =
        some (.fault { kind := .interrupted }) := by
  refine ⟨reachable_outspoken, ?_⟩
  decide +kernel

end Session

end StackCalc
