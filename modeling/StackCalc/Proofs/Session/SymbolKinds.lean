import StackCalc.Proofs.Machine.Assignments
import StackCalc.Proofs.Session.FailedReading
import StackCalc.Proofs.Session.SealedCode
import StackCalc.Proofs.Token.Decomposition

/-!
# What symbols turn into along a session

A request to a session reads a text, generates code and runs it, or does some of
these. Each phase changes the symbols in its own way: reading declares functions
and procedures, generating gives them code, running assigns to variables. So
whatever is asked of a session, literals, built-in functions and keywords stay
what they are, and an entry becomes a function or a procedure only where a text
declares it.

A text cannot declare a keyword, since no name is spelled like one; that is why
reading leaves keywords alone although nothing looks at the kind of their
entries.
-/

namespace StackCalc

/-! ### Reading -/

/-- A name that is declared stands among the tokens. -/
theorem mem_of_mem_declarations {ts : List Token} {d : String × DefinitionKind}
    (h : d ∈ declarations ts) : Token.ident d.1 ∈ ts := by
  induction ts with
  | nil => cases h
  | cons t ts ih =>
    unfold declarations at h
    split at h
    case h_1 kind name _ hname =>
      rcases List.mem_cons.mp h with rfl | h
      · exact List.mem_cons_of_mem t (List.mem_of_head? hname)
      · exact List.mem_cons_of_mem t (ih h)
    case h_2 => exact List.mem_cons_of_mem t (ih h)

namespace SymbolTable

/-- A built-in function stays one. -/
theorem kindAfter_builtin (t : SymbolTable) (id : Nat)
    (ds : List (String × DefinitionKind)) :
    t.kindAfter id .builtin ds = .builtin := by
  induction ds with
  | nil => rfl
  | cons d ds ih =>
    have hcons : t.kindAfter id .builtin (d :: ds) = t.kindAfter id
        (if t.lookup d.1 = some id ∧
          SymbolKind.builtin ≠ .builtin then d.2.symbolKind else .builtin) ds := rfl
    rw [hcons, if_neg fun hc => hc.2 rfl, ih]

/-- What reading tokens with the declarations `ds` makes of the entry at `id`. -/
def DeclaredBy (ds : List (String × DefinitionKind)) (t t' : SymbolTable)
    (id : Nat) : Prop :=
  t'.get id = t.get id ∨ ((t.get id).isFixed = false ∧
    ∃ d ∈ ds, (t.get id).name = some d.1 ∧
      t'.get id = { t.get id with kind := d.2.symbolKind })

variable {t t' : SymbolTable} {ds : List (String × DefinitionKind)}

/-- Where no keyword is declared, fixed entries stay what they are. -/
theorem Extends.declaredBy (h : Extends ds t t') (ht : t.Proper)
    (hds : ∀ d ∈ ds, ∀ k : Keyword, d.1 ≠ k.text) {id : Nat} (hid : id < t.size) :
    DeclaredBy ds t t' id := by
  have hentry := h.entry id hid
  rcases t.kindAfter_cases id (t.get id).kind ds with heq | ⟨d, hd, hlookup, heq⟩
  · rw [heq] at hentry
    exact .inl hentry
  · have hname := (ht.named hlookup).2
    rw [heq] at hentry
    refine .inr ⟨Bool.eq_false_iff.mpr fun hfixed => ?_, d, hd, hname, hentry⟩
    rcases ht.name_cases hfixed hname with ⟨k, hk⟩ | hbuiltin
    · exact hds d hd k hk
    · rw [hbuiltin, kindAfter_builtin] at heq
      cases hd2 : d.2 <;> rw [hd2] at heq <;> cases heq

theorem DeclaredBy.name_eq {id : Nat} (h : DeclaredBy ds t t' id) :
    (t'.get id).name = (t.get id).name := by
  rcases h with heq | ⟨-, d, -, -, heq⟩ <;> rw [heq]

/-- Reading keeps what persists, for it changes kinds of entries that are free. -/
theorem Extends.persists (h : Extends ds t t') (ht : t.Proper)
    (hds : ∀ d ∈ ds, ∀ k : Keyword, d.1 ≠ k.text) : t.Persists t' where
  size_le := h.size_le
  name hid := (h.declaredBy ht hds hid).name_eq
  lookup := h.lookup
  fixed {id} hfixed := by
    have hid : id < t.size := by
      refine lt_size_of_kind fun hk => ?_
      simp [Symbol.isFixed, hk] at hfixed
    rcases h.declaredBy ht hds hid with heq | ⟨hfree, -⟩
    · rw [heq]
    · cases hfree.symm.trans hfixed

/-- Reading leaves a proper table: new entries are literals and names. -/
theorem Extends.proper (h : Extends ds t t') (ht : t.Proper)
    (hds : ∀ d ∈ ds, ∀ k : Keyword, d.1 ≠ k.text) : t'.Proper := by
  refine ht.of_entries (h.sound ht.toSound) (fun id hid => ?_) fun id hle hlt => ?_
  · have hdeclared := h.declaredBy ht hds hid
    refine ⟨hdeclared.name_eq, ?_⟩
    rcases hdeclared with heq | ⟨-, d, -, -, heq⟩
    · exact .inl (congrArg Symbol.kind heq)
    · rw [heq]
      cases hd : d.2 <;> exact .inr rfl
  · rcases (h.added ht.toSound id hle hlt).form with ⟨hname, hk⟩ | ⟨name, -, -, hk⟩
    · exact ⟨fun hc => by simp [hc] at hk, fun _ => hname⟩
    · rcases hk with hk | ⟨kind, hk⟩
      · simp [hk]
      · cases kind <;> simp [hk, DefinitionKind.symbolKind]

end SymbolTable

/-- Reading a text extends the symbols by declarations, none of them of a
keyword. -/
theorem parse_declares (source : String) (t : SymbolTable) (depth : Nat) :
    ∃ taken, (lex source).map Located.token =
      taken ++ (parseStop (lex source) t depth).row ∧
      t.Extends (declarations taken) (parse (lex source) t depth).2 ∧
      ∀ d ∈ declarations taken, ∀ k : Keyword, d.1 ≠ k.text := by
  obtain ⟨taken, hrow, hextends⟩ := parse_extends (lex source) t depth
  refine ⟨taken, hrow, hextends, fun d hd => ?_⟩
  have hmem : Token.ident d.1 ∈ (lex source).map Located.token := by
    rw [hrow]
    exact List.mem_append_left _ (mem_of_mem_declarations hd)
  obtain ⟨k, w, -, hdenotes⟩ := exists_denotes_of_mem hmem
  exact hdenotes.ne_keyword

/-! ### Generating -/

namespace Image

open StackCalc.Action

/-- Generating code gives symbols code addresses and does nothing else to them. -/
abbrev KeepsEntries {α : Type} (x : EStateM Fault Image α) : Prop :=
  Keeps (fun im im' => im.symbols.Recodes im'.symbols) x

theorem steady_recodes : Steady fun im im' : Image => im.symbols.Recodes im'.symbols where
  refl im := .refl im.symbols
  trans := SymbolTable.Recodes.trans

theorem keepsEntries_generating {α : Type} (capacity : Nat) (echo : Bool)
    (g : GenContext → Gen α) :
    KeepsEntries (generating capacity echo g) := by
  intro im
  unfold generating
  cases g ⟨capacity, echo, im.symbols⟩ im.store <;> exact steady_recodes.refl im

theorem keepsEntries_define (capacity : Nat) (echo : Bool) (d : Stmt) :
    KeepsEntries (define capacity echo d) := by
  cases d with
  | define kind id ss =>
    exact (keepsEntries_generating capacity echo _).bind steady_recodes fun start im =>
      im.symbols.recodes_modify id start
  | _ => exact steady_recodes.refl

theorem keepsEntries_defineAll (capacity : Nat) (echo : Bool) (ds : List Stmt) :
    KeepsEntries (defineAll capacity echo ds) := by
  induction ds with
  | nil => exact steady_recodes.refl
  | cons d ds ih =>
    exact (keepsEntries_define capacity echo d).bind steady_recodes fun _ => ih

/-- Generating a program recodes the entries, whether it fails or not. -/
theorem keepsEntries_generate (capacity : Nat) (echo : Bool) (program : List Stmt) :
    KeepsEntries (generate capacity echo program) := by
  have hmain : KeepsEntries (main capacity echo program) :=
    Keeps.bind steady_recodes steady_recodes.refl fun _ =>
      (keepsEntries_generating capacity echo _).bind steady_recodes fun _ =>
        steady_recodes.refl
  have hprogram : KeepsEntries (Image.program capacity echo program) :=
    Keeps.bind steady_recodes steady_recodes.refl fun _ =>
      (keepsEntries_defineAll capacity echo _).bind steady_recodes fun _ => hmain
  intro im
  have him := hprogram im
  unfold generate
  cases hrun : Image.program capacity echo program im with
  | ok entry im' =>
    rw [hrun] at him
    exact him
  | error f im' =>
    rw [hrun] at him
    exact him

end Image

/-! ### Requests -/

/-- The text that a request has read. -/
def Request.source? : Request → Option String
  | enter _ source | compile source => some source
  | _ => none

namespace Session

open StackCalc.Action

/-- The session after the text of a request, if it has one, has been read. -/
def afterReading (s : Session) (r : Request) : Session :=
  match r.source? with
  | some source => final (s.read source)
  | none => s

/-- What generating and running keep of the symbols. -/
def Works (s s' : Session) : Prop :=
  s.machine.symbols.Proper → s'.machine.symbols.Proper ∧
    s.machine.symbols.Persists s'.machine.symbols ∧
    s.machine.symbols.AddsNoCallable s'.machine.symbols

theorem works_of_symbols {s s' : Session} (h : s'.machine.symbols = s.machine.symbols) :
    Works s s' := by
  intro hproper
  rw [h]
  exact ⟨hproper, .refl _, fun _ _ => ⟨rfl, rfl⟩⟩

theorem steady_works : Steady Works where
  refl _ := works_of_symbols rfl
  trans h h' hproper := by
    obtain ⟨hproper', hpersists, hcallable⟩ := h hproper
    obtain ⟨hproper'', hpersists', hcallable'⟩ := h' hproper'
    exact ⟨hproper'', hpersists.trans hpersists', hcallable.trans hcallable'⟩

/-- A session recodes its entries as its image does. -/
theorem recodes_generate (s : Session) (program : List Stmt) :
    s.machine.symbols.Recodes (final (s.generate program)).machine.symbols := by
  have hkeeps := Image.keepsEntries_generate s.limits.program s.echo program s.image
  unfold Session.generate
  cases hrun : Image.generate s.limits.program s.echo program s.image with
  | ok entry im =>
    rw [hrun] at hkeeps
    exact hkeeps
  | error f im =>
    rw [hrun] at hkeeps
    exact hkeeps

/-- Code addresses are no part of what persists. -/
theorem works_generate (program : List Stmt) : Keeps Works (generate program) := by
  intro s hproper
  have hrecodes := s.recodes_generate program
  exact ⟨hrecodes.proper hproper, hrecodes.persists, hrecodes.addsNoCallable⟩

theorem symbols_execute (s : Session) (fuel a : Nat) :
    (final (s.execute fuel a)).machine.symbols =
      (final (Exec.execute s.job fuel a s.machine)).symbols := by
  unfold Session.execute
  cases Exec.execute s.job fuel a s.machine <;> rfl

/-- A run assigns, and assigning makes no functions and procedures. -/
theorem works_execute (fuel a : Nat) : Keeps Works (execute fuel a) := by
  intro s hproper
  have hassigns := Exec.assigns_execute s.job fuel a hproper.toSound
  have hsound :=
    (Exec.execute_behaves s.job fuel a s.machine hproper.toSound).advances.sound
      hproper.toSound
  rw [symbols_execute]
  exact ⟨hassigns.proper hproper hsound, hassigns.persists hproper,
    hassigns.addsNoCallable⟩

/-- Once its text is read, a request generates code and runs it. -/
theorem works_handle (s : Session) (r : Request) :
    Works (s.afterReading r) (s.handle r) := by
  -- generating comes after reading, and a text that is not read is not
  -- generated
  have hcompile : ∀ source, Works (final (s.read source)) (final (s.compile source)) := by
    intro source
    rcases bind_cases (read source) generate s with
      ⟨f, s₁, hread, hrun⟩ | ⟨program, s₁, hread, hrun⟩
    · rw [Session.compile, hrun, hread]
      exact steady_works.refl s₁
    · rw [Session.compile, hrun, hread]
      exact works_generate program s₁
  cases r with
  | enter fuel source =>
    have hcompiled := hcompile source
    show Works (final (s.read source)) (final (s.enter fuel source))
    cases hresult : s.compile source with
    | error f s₁ =>
      rw [hresult] at hcompiled
      rw [enter_of_error hresult]
      exact hcompiled
    | ok entry s₁ =>
      rw [hresult] at hcompiled
      have hexecuted := works_execute fuel entry s₁
      rw [final_enter hresult]
      exact steady_works.trans hcompiled
        (steady_works.trans hexecuted (works_of_symbols rfl))
  | compile source => exact hcompile source
  | generate program => exact works_generate program s
  | execute fuel a => exact works_execute fuel a s
  | setEcho | supply | takeOutput | interrupt | interruptAfter =>
    exact works_of_symbols rfl

theorem symbols_read (s : Session) (source : String) :
    (final (s.read source)).machine.symbols =
      (parse (lex source) s.machine.symbols s.limits.depth).2 := by
  unfold Session.read
  dsimp only
  cases (parse (lex source) s.machine.symbols s.limits.depth).1 <;> rfl

/-- Reading the text of a request leaves a proper table, and what persists. -/
theorem afterReading_persists {s : Session} (h : s.machine.symbols.Proper) (r : Request) :
    (s.afterReading r).machine.symbols.Proper ∧
      s.machine.symbols.Persists (s.afterReading r).machine.symbols := by
  unfold afterReading
  cases r.source? with
  | none => exact ⟨h, .refl _⟩
  | some source =>
    obtain ⟨taken, -, hextends, hkeywords⟩ :=
      parse_declares source s.machine.symbols s.limits.depth
    show (final (s.read source)).machine.symbols.Proper ∧
      s.machine.symbols.Persists (final (s.read source)).machine.symbols
    rw [symbols_read]
    exact ⟨hextends.proper h hkeywords, hextends.persists h hkeywords⟩

/-- What a request leaves persists: reading comes first, and then the rest. -/
theorem handle_persists {s : Session} (h : s.machine.symbols.Proper) (r : Request) :
    (s.handle r).machine.symbols.Proper ∧
    s.machine.symbols.Persists (s.handle r).machine.symbols := by
  obtain ⟨hproper, hpersists⟩ := afterReading_persists h r
  obtain ⟨hproper', hpersists', -⟩ := works_handle s r hproper
  exact ⟨hproper', hpersists.trans hpersists'⟩

theorem handleAll_persists {s : Session} (h : s.machine.symbols.Proper)
    (requests : List Request) :
    s.machine.symbols.Persists (s.handleAll requests).machine.symbols := by
  induction requests generalizing s with
  | nil => exact .refl _
  | cons r requests ih =>
    obtain ⟨hproper, hpersists⟩ := handle_persists h r
    exact hpersists.trans (ih hproper)

/-- The symbols of every session that can be reached are proper. -/
theorem Reachable.proper {rs : List Region} {s : Session} (h : Reachable rs s) :
    s.machine.symbols.Proper := by
  induction h with
  | fresh limits => exact SymbolTable.proper_initial
  | step h r hr ih => exact (handle_persists ih r).1

/-- Whatever a request does, an entry that it makes a function or a procedure is
declared by its text, and was neither a literal nor a built-in function nor a
keyword. -/
theorem declared_of_callable {s : Session} (h : s.machine.symbols.Proper)
    (r : Request) (id : Nat)
    (hcallable : ((s.handle r).machine.symbols.get id).IsCallable)
    (hkind : ((s.handle r).machine.symbols.get id).kind ≠
      (s.machine.symbols.get id).kind) :
    (s.machine.symbols.get id).isFixed = false ∧ ∃ source ∈ r.source?, ∃ taken,
      (lex source).map Located.token =
        taken ++ (parseStop (lex source) s.machine.symbols s.limits.depth).row ∧
      ∃ d ∈ declarations taken, ((s.handle r).machine.symbols.get id).name = some d.1 ∧
        ((s.handle r).machine.symbols.get id).kind = d.2.symbolKind := by
  -- what comes after reading makes no functions and procedures, so reading has
  obtain ⟨-, -, hadds⟩ := works_handle s r (afterReading_persists h r).1
  obtain ⟨hsame, hname⟩ := hadds id hcallable
  rw [Symbol.IsCallable, ← hsame] at hcallable
  rw [← hsame] at hkind ⊢
  rw [← hname]
  unfold afterReading at hcallable hkind ⊢
  cases hsource : r.source? with
  | none =>
    rw [hsource] at hkind
    exact absurd rfl hkind
  | some source =>
    rw [hsource] at hcallable hkind
    dsimp only at hcallable hkind ⊢
    rw [symbols_read] at hcallable hkind ⊢
    obtain ⟨taken, hrow, hextends, hkeywords⟩ :=
      parse_declares source s.machine.symbols s.limits.depth
    -- an entry from before was declared anew, and one that was added was
    -- declared
    by_cases hid : id < s.machine.symbols.size
    · rcases hextends.declaredBy h hkeywords hid with heq | ⟨hfree, d, hd, hname, heq⟩
      · rw [heq] at hkind
        exact absurd rfl hkind
      · refine ⟨hfree, source, rfl, taken, hrow, d, hd, ?_⟩
        rw [heq]
        exact ⟨hname, rfl⟩
    · have hle := Nat.le_of_not_lt hid
      obtain ⟨d, hd, hdeclared⟩ := hextends.declared h.toSound id hle hcallable
      refine ⟨?_, source, rfl, taken, hrow, d, hd, hdeclared⟩
      rw [SymbolTable.get_of_size_le _ hle]
      rfl

/-- What may become of the symbols of a session that can be reached.

Whatever is asked of it, and however that ends, no entry is removed, names are
kept, and literals, built-in functions and keywords stay what they are, code
addresses apart. Running assigns to what may be assigned to and to `_`; where it
changes a kind, it makes a variable of a symbol that was undefined, or of `_`,
and it has come to a cell that does so, with the symbol being till then what it
was. Reading changes kinds by declarations, and generating does not. So what
becomes a function or a procedure has been declared by the text of the request. -/
theorem symbols_turn_as_allowed {rs : List Region} {s : Session} (h : Reachable rs s) :
    (∀ requests, s.machine.symbols.Persists (s.handleAll requests).machine.symbols) ∧
    (∀ fuel a, s.machine.symbols.Assigns (final (s.execute fuel a)).machine.symbols ∧
      ∀ id < s.machine.symbols.size,
        ((final (s.execute fuel a)).machine.symbols.get id).kind ≠
          (s.machine.symbols.get id).kind →
        ((final (s.execute fuel a)).machine.symbols.get id).kind = .var ∧
        ((s.machine.symbols.get id).kind = .undefined ∨
          (s.machine.symbols.get id).name = some "_") ∧
        ∀ breach, ∃ m,
          Exec.watchedExecute (Machine.spares s.job id) breach s.job fuel a s.machine =
            .error breach m ∧
          m.makesVariable? s.job = some id ∧
          (m.symbols.get id).kind = (s.machine.symbols.get id).kind) ∧
    (∀ source, ∃ taken, (lex source).map Located.token =
        taken ++ (parseStop (lex source) s.machine.symbols s.limits.depth).row ∧
      ∀ id < s.machine.symbols.size,
        SymbolTable.DeclaredBy (declarations taken) s.machine.symbols
        (final (s.read source)).machine.symbols id) ∧
    (∀ program, s.machine.symbols.Recodes (final (s.generate program)).machine.symbols) ∧
    ∀ r id, ((s.handle r).machine.symbols.get id).IsCallable →
      ((s.handle r).machine.symbols.get id).kind ≠ (s.machine.symbols.get id).kind →
      (s.machine.symbols.get id).isFixed = false ∧ ∃ source ∈ r.source?, ∃ taken,
        (lex source).map Located.token =
          taken ++ (parseStop (lex source) s.machine.symbols s.limits.depth).row ∧
        ∃ d ∈ declarations taken, ((s.handle r).machine.symbols.get id).name = some d.1 ∧
          ((s.handle r).machine.symbols.get id).kind = d.2.symbolKind := by
  have hproper := h.proper
  refine ⟨handleAll_persists hproper, fun fuel a => ?_, fun source => ?_,
    s.recodes_generate, declared_of_callable hproper⟩
  · rw [symbols_execute]
    have hassigns := Exec.assigns_execute s.job fuel a hproper.toSound
    refine ⟨hassigns, fun id hid hkind => ?_⟩
    have hreached := Exec.exists_makesVariable s.job fuel a ⟨hproper.toSound, hid⟩ hkind
    rcases hassigns.entry id hid with heq | ⟨hmay, x, heq⟩
    · exact absurd (congrArg Symbol.kind heq) hkind
    · have hvar : ((final (Exec.execute s.job fuel a s.machine)).symbols.get id).kind =
          .var :=
        congrArg Symbol.kind heq
      refine ⟨hvar, hmay.imp_left fun hassignable => ?_, hreached⟩
      rw [hvar] at hkind
      simpa [Symbol.isAssignable, hkind.symm] using hassignable
  · obtain ⟨taken, hrow, hextends, hkeywords⟩ :=
      parse_declares source s.machine.symbols s.limits.depth
    rw [symbols_read]
    exact ⟨taken, hrow, fun id => hextends.declaredBy hproper hkeywords⟩

/-- A session with the code of a program that has not been run. -/
def waiting : Session :=
  (Session.fresh {}).handle (.compile "y = 2\nread(z)")

/-- The program is run: a name becomes a variable where it is assigned to. Then
it is declared, and becomes a function. -/
theorem symbols_turn_as_allowed_waiting :
    ∃ rs, Reachable rs waiting ∧
      waiting.machine.symbols.lookup "y" = some 28 ∧
      (waiting.machine.symbols.get 28).kind = .undefined ∧
      ((final (waiting.execute 100 0)).machine.symbols.get 28).kind = .var ∧
      (∀ breach, ∃ m,
        Exec.watchedExecute (Machine.spares waiting.job 28) breach waiting.job 100 0
          waiting.machine =
          .error breach m ∧
        m.makesVariable? waiting.job = some 28) ∧
      ∃ source ∈ (Request.compile "func y() return 1").source?, ∃ taken,
        (lex source).map Located.token =
          taken ++ (parseStop (lex source) waiting.machine.symbols
            waiting.limits.depth).row ∧
        ∃ d ∈ declarations taken, (waiting.machine.symbols.get 28).name = some d.1 := by
  have hs : Reachable _ waiting :=
    (Reachable.fresh {}).step (.compile "y = 2\nread(z)") trivial
  have hfacts : (waiting.machine.symbols.lookup "y" = some 28 ∧
        (waiting.machine.symbols.get 28).kind = .undefined) ∧
          28 < waiting.machine.symbols.size ∧
      ((final (waiting.execute 100 0)).machine.symbols.get 28).kind = .var ∧
      ((waiting.handle (.compile "func y() return 1")).machine.symbols.get 28).kind =
        .function ∧
      ((waiting.handle (.compile "func y() return 1")).machine.symbols.get 28).name =
        (waiting.machine.symbols.get 28).name := by
    decide +kernel
  obtain ⟨hlookup, hsize, hvar, hfunction⟩ := hfacts
  obtain ⟨-, hrun, -, -, hrequest⟩ := symbols_turn_as_allowed hs
  obtain ⟨-, hkinds⟩ := hrun 100 0
  obtain ⟨-, -, hreached⟩ := hkinds 28 hsize (by rw [hvar, hlookup.2]; decide)
  obtain ⟨-, source, hsource, taken, hrow, d, hd, hname, -⟩ :=
    hrequest (.compile "func y() return 1") 28 (.inl hfunction.1)
      (by rw [hfunction.1, hlookup.2]; decide)
  refine ⟨_, hs, hlookup.1, hlookup.2, hvar, fun breach => ?_, source, hsource,
    taken, hrow, d, hd, hfunction.2.symm.trans hname⟩
  obtain ⟨m, hm, hmakes, -⟩ := hreached breach
  exact ⟨m, hm, hmakes⟩

end Session

end StackCalc
