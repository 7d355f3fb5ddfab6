import StackCalc.Proofs.Parser.Composition
import StackCalc.Proofs.Parser.WellFormed
import StackCalc.Proofs.Symbol.Running

/-!
# What reading a text does to the symbols

Parsers add symbols as they go, and they do not take that back when they fail.
Literals and new names get entries of their own. The entries at hand stay as
they are but for their kinds: `func` or `proc` in front of a name makes the
symbol that the name stands for a function or a procedure at once.

`declarations` are the names behind `func` and `proc` in a row of tokens, and
`SymbolTable.Extends` is what reading tokens with these declarations does to a
table. Statements declare nothing (`Parser.GoesOn`); definitions do
(`Parser.Declares`). The result is `parse_extends`: whether a text can be read
or not, the table afterwards is the one before, extended by the declarations
among the tokens that were taken. These are all in front of the state that the
parser stops in (`parseStop`).
-/

namespace StackCalc

/-! ### Declarations -/

/-- The names that stand behind `func` and `proc`, from first to last. -/
def declarations : List Token → List (String × DefinitionKind)
  | [] => []
  | t :: ts =>
    match t.defines?, ts.head? with
    | some kind, some (.ident name) => (name, kind) :: declarations ts
    | _, _ => declarations ts

theorem declarations_cons_of_plain {t : Token} (h : t.defines? = none) (ts : List Token) :
    declarations (t :: ts) = declarations ts := by
  rw [declarations, h]

/-- Tokens of which none starts a definition declare nothing, whatever follows. -/
theorem declarations_append_of_plain {ts : List Token} (h : ∀ t ∈ ts, t.defines? = none)
    (us : List Token) : declarations (ts ++ us) = declarations us := by
  induction ts with
  | nil => rfl
  | cons t ts ih =>
    obtain ⟨ht, hts⟩ := List.forall_mem_cons.mp h
    rw [List.cons_append, declarations_cons_of_plain ht, ih hts]

theorem declarations_of_plain {ts : List Token} (h : ∀ t ∈ ts, t.defines? = none) :
    declarations ts = [] := by
  have happend := declarations_append_of_plain h []
  rwa [List.append_nil] at happend

theorem declarations_header {t : Token} {kind : DefinitionKind}
    (h : t.defines? = some kind) (name : String) (ts : List Token) :
    declarations (t :: .ident name :: ts) = (name, kind) :: declarations ts := by
  have hname : declarations (.ident name :: ts) = declarations ts :=
    declarations_cons_of_plain rfl ts
  rw [declarations, h, ← hname]
  rfl

/-! ### Tables that are extended -/

namespace SymbolTable

/-- The kind of the symbol at `id`, which was `kind`, after declarations of the
name that leads there. Built-in functions stay what they are. -/
def kindAfter (t : SymbolTable) (id : Nat) (kind : SymbolKind)
    (ds : List (String × DefinitionKind)) :
    SymbolKind :=
  ds.foldl
    (fun kind d => if t.lookup d.1 = some id ∧
      kind ≠ .builtin then d.2.symbolKind else kind) kind

theorem kindAfter_append (t : SymbolTable) (id : Nat) (kind : SymbolKind)
    (ds ds' : List (String × DefinitionKind)) :
    t.kindAfter id kind (ds ++ ds') = t.kindAfter id (t.kindAfter id kind ds) ds' :=
  List.foldl_append

/-- A kind stays as it is unless the symbol is declared. -/
theorem kindAfter_cases (t : SymbolTable) (id : Nat) (kind : SymbolKind)
    (ds : List (String × DefinitionKind)) :
    t.kindAfter id kind ds = kind ∨
      ∃ d ∈ ds, t.lookup d.1 = some id ∧ t.kindAfter id kind ds = d.2.symbolKind := by
  induction ds generalizing kind with
  | nil => exact .inl rfl
  | cons d ds ih =>
    have hcons : t.kindAfter id kind (d :: ds) = t.kindAfter id
        (if t.lookup d.1 = some id ∧ kind ≠ .builtin then d.2.symbolKind else kind) ds :=
        rfl
    rw [hcons]
    rcases ih (if t.lookup d.1 = some id ∧
      kind ≠ .builtin then d.2.symbolKind else kind) with heq | ⟨d', hmem, hid, heq⟩
    · rw [heq]
      by_cases hd : t.lookup d.1 = some id ∧ kind ≠ .builtin
      · rw [if_pos hd]
        exact .inr ⟨d, List.mem_cons_self, hd.1, rfl⟩
      · rw [if_neg hd]
        exact .inl rfl
    · exact .inr ⟨d', List.mem_cons_of_mem d hmem, hid, heq⟩

/-- An entry that reading may have added to the table: a literal, or a symbol
for a new name. It has no code. -/
structure IsNew (t : SymbolTable) (e : Symbol) : Prop where
  code : e.code = none
  form : (e.name = none ∧ (e.kind = .number ∨ e.kind = .text)) ∨
    ∃ name, e.name = some name ∧ t.lookup name = none ∧
      (e.kind = .undefined ∨ ∃ kind : DefinitionKind, e.kind = kind.symbolKind)

/-- The table `t'` is `t` after reading tokens with the declarations `ds`. -/
structure Extends (ds : List (String × DefinitionKind)) (t t' : SymbolTable) : Prop where
  size_le : t.size ≤ t'.size
  entry : ∀ id < t.size, t'.get id =
      { t.get id with kind := t.kindAfter id (t.get id).kind ds }
  lookup : ∀ {name id}, t.lookup name = some id → t'.lookup name = some id
  fresh : ∀ {name id}, t.lookup name = none → t'.lookup name = some id → t.size ≤ id
  added : t.Sound → ∀ id, t.size ≤ id → id < t'.size → t.IsNew (t'.get id)
  declared : t.Sound → ∀ id, t.size ≤ id → (t'.get id).IsCallable →
    ∃ d ∈ ds, (t'.get id).name = some d.1 ∧ (t'.get id).kind = d.2.symbolKind
  sound : t.Sound → t'.Sound

section

variable {t t' t'' : SymbolTable} {ds ds' : List (String × DefinitionKind)}

theorem Extends.refl (t : SymbolTable) : Extends [] t t where
  size_le := Nat.le_refl _
  entry _ _ := rfl
  lookup h := h
  fresh h h' := nomatch h.symm.trans h'
  added _ _ hle hlt := absurd hlt (Nat.not_lt_of_le hle)
  declared _ _ hle hcallable := absurd hcallable (not_isCallable_of_size_le hle)
  sound h := h

/-- The names of the symbols at hand are the same in the extended table. -/
theorem Extends.lookup_iff (h : Extends ds t t') {id : Nat} (hid : id < t.size)
    (name : String) :
    t'.lookup name = some id ↔ t.lookup name = some id := by
  refine ⟨fun hlookup => ?_, h.lookup⟩
  cases hold : t.lookup name with
  | none => exact absurd hid (Nat.not_lt_of_le (h.fresh hold hlookup))
  | some id' =>
    have hsame := (h.lookup hold).symm.trans hlookup
    rw [hsame]

/-- Declarations have the same effect on an entry in the extended table. -/
theorem Extends.kindAfter_eq (h : Extends ds t t') {id : Nat} (hid : id < t.size)
    (kind : SymbolKind) (ds' : List (String × DefinitionKind)) :
    t'.kindAfter id kind ds' = t.kindAfter id kind ds' := by
  unfold kindAfter
  simp only [h.lookup_iff hid]

/-- Declarations make a function or a procedure of a new name, and do not
concern literals. -/
theorem IsNew.declared (ht' : t'.Sound) {id : Nat} (h : t.IsNew (t'.get id)) :
    t.IsNew { t'.get id with kind := t'.kindAfter id (t'.get id).kind ds } := by
  refine ⟨h.code, ?_⟩
  rcases t'.kindAfter_cases id (t'.get id).kind ds with heq | ⟨d, -, hlookup, heq⟩
  · rw [heq]
    exact h.form
  · rcases h.form with ⟨hname, -⟩ | ⟨name, hname, hnew, -⟩
    · cases hname.symm.trans (ht'.named hlookup).2
    · exact .inr ⟨name, hname, hnew, .inr ⟨d.2, heq⟩⟩

/-- What is new to the extended table was new to the table. -/
theorem IsNew.of_extends (h : Extends ds t t') {e : Symbol} (he : t'.IsNew e) :
    t.IsNew e := by
  refine ⟨he.code, he.form.imp_right ?_⟩
  rintro ⟨name, hname, hnew, hkind⟩
  refine ⟨name, hname, ?_, hkind⟩
  cases hold : t.lookup name with
  | none => rfl
  | some id => cases hnew.symm.trans (h.lookup hold)

/-- Reading some tokens and then others is reading them all. -/
theorem Extends.trans (h : Extends ds t t') (h' : Extends ds' t' t'') :
    Extends (ds ++ ds') t t'' where
  size_le := Nat.le_trans h.size_le h'.size_le
  entry id hid := by
    rw [h'.entry id (Nat.lt_of_lt_of_le hid h.size_le), h.kindAfter_eq hid,
      h.entry id hid, kindAfter_append]
  lookup hlookup := h'.lookup (h.lookup hlookup)
  fresh {name id} hnone hlookup := by
    cases hmid : t'.lookup name with
    | none => exact Nat.le_trans h.size_le (h'.fresh hmid hlookup)
    | some id' =>
      cases (h'.lookup hmid).symm.trans hlookup
      exact h.fresh hnone hmid
  -- an entry is added by the first tokens, and may be declared by the others,
  -- or by the others alone
  added ht id hle hlt := by
    by_cases hid : id < t'.size
    · rw [h'.entry id hid]
      exact (h.added ht id hle hid).declared (h.sound ht)
    · exact (h'.added (h.sound ht) id (Nat.le_of_not_lt hid) hlt).of_extends h
  declared ht id hle hcallable := by
    by_cases hid : id < t'.size
    · -- the entry came with the first tokens; its kind is theirs, or one that
      -- the others gave it
      rw [h'.entry id hid] at hcallable ⊢
      rcases t'.kindAfter_cases id (t'.get id).kind ds' with heq | ⟨d, hd, hlookup, heq⟩
      · rw [heq] at hcallable ⊢
        obtain ⟨d, hd, hname⟩ := h.declared ht id hle hcallable
        exact ⟨d, List.mem_append_left ds' hd, hname⟩
      · exact ⟨d, List.mem_append_right ds hd, ((h.sound ht).named hlookup).2, heq⟩
    · obtain ⟨d, hd, hname⟩ :=
        h'.declared (h.sound ht) id (Nat.le_of_not_lt hid) hcallable
      exact ⟨d, List.mem_append_right ds hd, hname⟩
  sound ht := h'.sound (h.sound ht)

end

/-! ### Adding symbols -/

/-- A literal is added. -/
theorem extends_push (t : SymbolTable) {s : Symbol} (hname : s.name = none)
    (hcode : s.code = none) (hkind : s.kind = .number ∨ s.kind = .text) :
    Extends [] t (t.push s).2 where
  size_le := by
    rw [size_push]
    exact Nat.le_succ _
  entry id hid := get_push_of_lt t s hid
  lookup h := h
  fresh h h' := nomatch h.symm.trans h'
  added _ id hle hlt := by
    rw [size_push] at hlt
    rw [get_push, if_pos (by omega)]
    exact ⟨hcode, .inl ⟨hname, hkind⟩⟩
  declared _ id hle hcallable := by
    rw [get_push] at hcallable
    split at hcallable
    · rcases hkind with hk | hk <;> simp [Symbol.IsCallable, hk] at hcallable
    · exact absurd hcallable (not_isCallable_of_size_le hle)
  sound ht := ht.push ⟨fun _ => hname, fun hk => by simp [hk] at hkind⟩

/-- A name is looked up, or gets an entry. -/
theorem extends_resolve (t : SymbolTable) (name : String) :
    Extends [] t (t.resolve name).2 := by
  rcases resolve_cases t name with ⟨id, -, heq⟩ | ⟨hnew, heq⟩
  · rw [heq]
    exact Extends.refl t
  · have hsize : (t.install name .undefined 0.0).2.size = t.size + 1 := size_install ..
    rw [heq]
    refine ⟨?_, fun id hid => ?_, fun {name' id} hlookup => ?_,
      fun {name' id} hnone hlookup => ?_, fun _ id hle hlt => ?_,
      fun _ id hle hcallable => ?_, fun ht => ?_⟩
    · exact Nat.le_trans (Nat.le_succ _) (Nat.le_of_eq hsize.symm)
    · rw [get_install, if_neg (Nat.ne_of_lt hid)]
      rfl
    · rw [lookup_install_other]
      · exact hlookup
      · rintro rfl
        cases hnew.symm.trans hlookup
    · by_cases hsame : name' = name
      · rw [hsame, lookup_install_self] at hlookup
        cases hlookup
        exact Nat.le_refl _
      · rw [lookup_install_other _ _ _ hsame] at hlookup
        cases hnone.symm.trans hlookup
    · have hid : id = t.size :=
        Nat.le_antisymm (Nat.le_of_lt_succ (Nat.lt_of_lt_of_eq hlt hsize)) hle
      rw [get_install, if_pos hid]
      exact ⟨rfl, .inr ⟨name, rfl, hnew, .inl rfl⟩⟩
    · rw [get_install] at hcallable
      split at hcallable
      · simp [Symbol.IsCallable] at hcallable
      · exact absurd hcallable (not_isCallable_of_size_le hle)
    · exact ht.install (by decide) (by decide)

/-- The symbol of a name becomes a function or a procedure, unless it is a
built-in function. -/
theorem extends_declare {t : SymbolTable} {name : String} {id : Nat}
    (h : t.lookup name = some id) (kind : DefinitionKind) :
    ((t.get id).kind = .builtin → Extends [(name, kind)] t t) ∧
      ((t.get id).kind ≠ .builtin → Extends [(name, kind)] t
        (t.modify id fun e => { e with kind := kind.symbolKind })) := by
  have hone : ∀ id' k, t.kindAfter id' k [(name, kind)] =
      if id = id' ∧ k ≠ .builtin then kind.symbolKind else k := fun id' k => by
    simp [kindAfter, h]
  constructor
  · intro hbuiltin
    refine { Extends.refl t with
      entry := fun id' _ => ?_
      declared := fun _ _ hle hcallable =>
        absurd hcallable (not_isCallable_of_size_le hle) }
    rw [hone, if_neg]
    rintro ⟨rfl, hk⟩
    exact hk hbuiltin
  · intro hkind
    refine ⟨?_, fun id' hid' => ?_, fun hlookup => hlookup, fun hnone hlookup => ?_,
      fun _ id' hle hlt => ?_, fun _ id' hle hcallable => ?_, fun ht => ?_⟩
    · refine Nat.le_of_eq ?_
      rw [size_modify]
    · rw [get_modify, hone]
      by_cases heq : id' = id
      · subst heq
        rw [if_pos ⟨rfl, hid'⟩, if_pos ⟨rfl, hkind⟩]
      · rw [if_neg fun hc => heq hc.1, if_neg fun hc => heq hc.1.symm]
    · cases hnone.symm.trans hlookup
    · rw [size_modify] at hlt
      exact absurd hlt (Nat.not_lt_of_le hle)
    · refine absurd hcallable (not_isCallable_of_size_le ?_)
      rw [size_modify]
      exact hle
    · refine ht.modify (ht.harmless_kind ?_ hkind ?_ ?_ fun _ => ⟨rfl, rfl, rfl⟩)
      · rw [(ht.named h).2]
        rfl
      · cases kind <;> exact SymbolKind.noConfusion
      · cases kind <;> exact SymbolKind.noConfusion

end SymbolTable

/-! ### Parsers that declare nothing -/

/-- Tokens were taken from the front of which none starts a definition, and
symbols may have been added. -/
def ParseState.Onward (s s' : ParseState) : Prop :=
  ∃ taken, s.row = taken ++ s'.row ∧ (∀ t ∈ taken, t.defines? = none) ∧
    s.symbols.Extends [] s'.symbols

namespace Parser

theorem steady_onward : Action.Steady ParseState.Onward where
  refl s := ⟨[], rfl, by simp, SymbolTable.Extends.refl _⟩
  trans := by
    rintro s s' s'' ⟨taken, hrow, hplain, hsymbols⟩ ⟨taken', hrow', hplain', hsymbols'⟩
    refine ⟨taken ++ taken', ?_, ?_, hsymbols.trans hsymbols'⟩
    · rw [hrow, hrow', List.append_assoc]
    · exact fun t ht => (List.mem_append.mp ht).elim (hplain t) (hplain' t)

section

variable {α β : Type} {ts : List Token}

/-- A parser that declares nothing where the tokens start with `ts`. -/
def GoesOnAhead (ts : List Token) (p : Parser α) : Prop :=
  ∀ s : ParseState, ts <+: s.row → s.Onward (Action.final (p s))

/-- A parser that declares nothing. -/
abbrev GoesOn (p : Parser α) : Prop :=
  GoesOnAhead [] p

/-- Parsers that declare nothing may follow each other. -/
theorem GoesOnAhead.bind {p : Parser α} {f : α → Parser β} (hp : GoesOnAhead ts p)
    (hf : ∀ a, GoesOn (f a)) : GoesOnAhead ts (p >>= f) := by
  intro s hs
  have hfirst := hp s hs
  rcases Action.bind_cases p f s with ⟨e, s', hp', hrun⟩ | ⟨a, s', hp', hrun⟩
  · rw [hp'] at hfirst
    rw [hrun]
    exact hfirst
  · rw [hp'] at hfirst
    rw [hrun]
    exact steady_onward.trans hfirst (hf a s' List.nil_prefix)

theorem goesOn_addSymbol {f : SymbolTable → Nat × SymbolTable}
    (hf : ∀ t : SymbolTable, t.Extends [] (f t).2) : GoesOn (addSymbol f) :=
  fun s _ => ⟨[], rfl, by simp, hf s.symbols⟩

/-- The token at the front is left behind. -/
theorem onward_next {s : ParseState} {t : Token} (ht : t.isPlain)
    (hs : t :: ts <+: s.row) :
    s.Onward s.next :=
  ⟨[t], (ParseState.row_of_ahead hs).1, by simpa using Token.defines?_of_isPlain ht,
    SymbolTable.Extends.refl _⟩

/-- No step of a parser declares anything, so neither does what is made of such
steps. -/
theorem Composed.goesOnAhead {sc : Scope} {p : Parser α} (h : Composed sc ts p) :
    GoesOnAhead ts p := by
  induction h with
  | pure | fail | illegal => exact fun s _ => steady_onward.refl s
  | resolve name => exact goesOn_addSymbol fun t => t.extends_resolve name
  | number x =>
    exact goesOn_addSymbol fun t =>
      t.extends_push (s := { name := none, kind := .number, value := x })
        rfl rfl (.inl rfl)
  | text text =>
    exact goesOn_addSymbol fun t =>
      t.extends_push
        (s := { name := none, kind := .text, value := 0.0, text := some text })
        rfl rfl (.inr rfl)
  | skip ht => exact fun s hs => onward_next ht hs
  | peek _ ih => exact fun s _ => ih _ s s.front_ahead
  | peekBoth _ ih => exact fun s _ => ih _ _ s s.both_ahead
  | look hp _ ih =>
    intro s hs
    obtain ⟨a, ha⟩ := hp s
    rw [Action.bind_of_ok ha]
    exact ih a s hs
  | skipThen ht _ ih =>
    intro s hs
    exact steady_onward.trans (onward_next ht hs)
      (ih s.next (ParseState.row_of_ahead hs).2)
  | bind _ _ ihp ihf => exact ihp.bind ihf
  | ahead _ ts ih => exact fun s _ => ih s List.nil_prefix

/-! ### Programs -/

/-- A parser that extends the table by the declarations among the tokens it
takes. If it succeeds these are complete: it does not stop between `func` and
the name. -/
def DeclaresAhead (ts : List Token) (p : Parser α) : Prop :=
  ∀ s : ParseState, ts <+: s.row →
    ∃ taken, s.row = taken ++ (Action.final (p s)).row ∧
      s.symbols.Extends (declarations taken) (Action.final (p s)).symbols ∧
      ∀ a s', p s = .ok a s' → ∀ us,
        declarations (taken ++ us) = declarations taken ++ declarations us

/-- A parser that extends the table by the declarations it takes, wherever it
starts. -/
abbrev Declares (p : Parser α) : Prop :=
  DeclaresAhead [] p

/-- A parser that declares nothing declares what is among its tokens, which is
nothing. -/
theorem GoesOnAhead.declares {p : Parser α} (h : GoesOnAhead ts p) :
    DeclaresAhead ts p := by
  intro s hs
  obtain ⟨taken, hrow, hplain, hsymbols⟩ := h s hs
  refine ⟨taken, hrow, ?_, fun _ _ _ us => ?_⟩
  · rw [declarations_of_plain hplain]
    exact hsymbols
  · rw [declarations_append_of_plain hplain, declarations_of_plain hplain]
    rfl

/-- Parsers one after the other extend the table by the declarations of both, if
the first is done and so does not stop in the middle of one. -/
theorem DeclaresAhead.bind {p : Parser α} {f : α → Parser β} (hp : DeclaresAhead ts p)
    (hf : ∀ a, Declares (f a)) : DeclaresAhead ts (p >>= f) := by
  intro s hs
  obtain ⟨taken, hrow, hsymbols, hwhole⟩ := hp s hs
  rcases Action.bind_cases p f s with ⟨e, s', hp', hrun⟩ | ⟨a, s', hp', hrun⟩
  · rw [hp'] at hrow hsymbols
    rw [hrun]
    exact ⟨taken, hrow, hsymbols, fun _ _ hc => nomatch hc⟩
  · obtain ⟨taken', hrow', hsymbols', hwhole'⟩ := hf a s' List.nil_prefix
    have happend := hwhole a s' hp'
    rw [hp'] at hrow hsymbols
    rw [hrun]
    refine ⟨taken ++ taken', ?_, ?_, fun b s'' hb us => ?_⟩
    · rw [List.append_assoc, ← hrow']
      exact hrow
    · rw [happend]
      exact hsymbols.trans hsymbols'
    · rw [List.append_assoc, happend, happend, hwhole' b s'' hb, List.append_assoc]

theorem declares_peek {f : Option Token → Parser β}
    (hf : ∀ o, DeclaresAhead o.toList (f o)) :
    Declares (peek >>= f) :=
  fun s _ => hf _ s s.front_ahead

/-- A definition declares its name, unless there is none. -/
theorem declares_definition (sc : Scope) {t : Token} {kind : DefinitionKind}
    (ht : t.defines? = some kind) (depth : Nat) :
    DeclaresAhead [t] (definition sc kind depth) := by
  intro s hs
  obtain ⟨hrow, -⟩ := ParseState.row_of_ahead hs
  rcases ident_cases sc s.next with ⟨name, hident, hname⟩ | ⟨e, hident⟩
  -- there is a name: it gets its kind before the rest of the definition is read
  · let r := s.symbols.resolve name
    let s₁ : ParseState := ⟨s.next.next.tokens, r.2⟩
    let rest : Parser Stmt := do
      expect sc .leftParen
      expect sc .rightParen
      let body ← statement { sc with inDefinition := true } depth
      return .define kind r.1 body
    have hdefinition : definition sc kind depth s =
        (if (r.2.get r.1).kind = .builtin then malformed sc ("cannot redefine " ++ name)
          else modify (fun s =>
            { s with symbols := s.symbols.modify r.1 fun e =>
              { e with kind := kind.symbolKind } }) >>=
              fun _ => rest : Parser Stmt) s₁ := Action.bind_of_ok hident
    have hheader : s.row = t :: .ident name :: s.next.next.row := by rw [hrow, hname]
    have hlookup : r.2.lookup name = some r.1 := s.symbols.lookup_resolve name
    obtain ⟨hbuiltin, hother⟩ := SymbolTable.extends_declare hlookup kind
    have hresolve : s.symbols.Extends [] r.2 := s.symbols.extends_resolve name
    rw [hdefinition]
    split
    case isTrue hk =>
      refine ⟨[t, .ident name], hheader, ?_, fun _ _ hc => nomatch hc⟩
      rw [declarations_header ht]
      exact hresolve.trans (hbuiltin hk)
    case isFalse hk =>
      have hparen : ∀ {t : Token}, t.isPlain → GoesOn (expect sc t) := fun ht =>
        (composed_expect ht).goesOnAhead
      have hrest : GoesOn rest :=
        (hparen rfl).bind fun _ => (hparen rfl).bind fun _ =>
          ((composed_statement _ depth).map _).goesOnAhead
      let s₂ : ParseState :=
        { s₁ with symbols := r.2.modify r.1 fun e => { e with kind := kind.symbolKind } }
      obtain ⟨taken, hrow', hplain, hsymbols⟩ := hrest s₂ List.nil_prefix
      refine ⟨t :: .ident name :: taken, ?_, ?_, fun _ _ _ us => ?_⟩
      · rw [hheader]
        exact congrArg (t :: .ident name :: ·) hrow'
      · rw [declarations_header ht, declarations_of_plain hplain]
        exact (hresolve.trans (hother hk)).trans hsymbols
      · rw [List.cons_append, List.cons_append, declarations_header ht,
          declarations_header ht, declarations_append_of_plain hplain,
          declarations_of_plain hplain]
        rfl
  -- without a name nothing has been declared
  · have hskip : skip s = .ok () s.next := rfl
    have hdefinition : definition sc kind depth s = .error e s.next := by
      rw [definition, Action.bind_of_ok hskip, Action.bind_of_error hident]
    rw [hdefinition]
    refine ⟨[t], hrow, ?_, fun _ _ hc => nomatch hc⟩
    have hnone : declarations [t] = [] := by
      rw [declarations, ht]
      rfl
    rw [hnone]
    exact SymbolTable.Extends.refl _

/-- A program is read definition by definition and statement by statement. -/
theorem declares_programItems (sc : Scope) (depth : Nat) (bound : List Located) :
    Declares (programItems sc depth bound) := by
  have hpure : ∀ (ss : List Stmt) ts, DeclaresAhead ts (pure ss : Parser (List Stmt)) :=
    fun ss ts =>
    GoesOnAhead.declares fun s _ => steady_onward.refl s
  induction bound with
  | nil => exact hpure [] []
  | cons _ bound ih =>
    have hrest : ∀ f : List Stmt → List Stmt,
        Declares (programItems sc depth bound >>= fun ss => pure (f ss)) := fun f =>
      ih.bind fun _ => hpure _ []
    refine declares_peek fun o => ?_
    split
    · exact hpure [] _
    · have hskip : Composed sc [.semicolon] skip := .skip rfl
      exact hskip.goesOnAhead.declares.bind fun _ => ih
    · exact (declares_definition sc rfl depth).bind fun _ => hrest _
    · exact (declares_definition sc rfl depth).bind fun _ => hrest _
    · exact ((composed_statement sc depth).ahead _).goesOnAhead.declares.bind fun _ =>
        hrest _

end

end Parser

/-- Where reading the tokens of a program stops: at their end, or where it
fails. What is left of the tokens has not been read. -/
def parseStop (tokens : List Located) (t : SymbolTable) (depth : Nat) : ParseState :=
  Action.final (Parser.programItems ⟨false, tokens.getLast?.map Located.line⟩ depth
    tokens ⟨tokens, t⟩)

/-- Reading a text comes back with the symbols of the state that it stops in. -/
theorem parse_symbols (tokens : List Located) (t : SymbolTable) (depth : Nat) :
    (parse tokens t depth).2 = (parseStop tokens t depth).symbols := by
  unfold parse parseStop
  dsimp only
  split
  case h_1 hrun => rw [hrun, Action.final]
  case h_2 hrun => rw [hrun, Action.final]

/-- Reading a text takes tokens from its front, all but those that are left
where it stops, and extends the table by the declarations among them, whether it
fails or not. -/
theorem parse_extends (tokens : List Located) (t : SymbolTable) (depth : Nat) :
    ∃ taken, tokens.map Located.token = taken ++ (parseStop tokens t depth).row ∧
      t.Extends (declarations taken) (parse tokens t depth).2 := by
  obtain ⟨taken, hrow, hsymbols, -⟩ := Parser.declares_programItems
    ⟨false, tokens.getLast?.map Located.line⟩ depth tokens ⟨tokens, t⟩ List.nil_prefix
  refine ⟨taken, hrow, ?_⟩
  rw [parse_symbols]
  exact hsymbols

end StackCalc
