import StackCalc.Proofs.Symbol.Running

/-!
# What a symbol may turn into

Literals, built-in functions and keywords are what they are for good
(`Symbol.isFixed`); the other entries of a symbol table may turn from one kind
into another. Each phase of a program has its own way to change them:

- `SymbolTable.Assigns`: running code makes variables of symbols that may be
  assigned to and of `_`;
- `SymbolTable.Recodes`: generating code changes code addresses and nothing
  else.

In a table in which literals have no name and keywords have theirs
(`SymbolTable.Proper`) neither reaches a fixed entry, and so it persists
(`SymbolTable.Persists`).
-/

namespace StackCalc

/-- Whether a symbol is what it is for good: a literal, a built-in function or a
keyword. -/
def Symbol.isFixed (s : Symbol) : Bool :=
  match s.kind with
  | .number | .text | .builtin | .keyword => true
  | .var | .undefined | .function | .procedure => false

theorem Symbol.not_isFixed_of_isAssignable {s : Symbol} (h : s.isAssignable) :
    s.isFixed = false := by
  unfold isAssignable at h
  unfold isFixed
  cases hk : s.kind <;> simp [hk] at h ⊢

namespace SymbolTable

variable {t t' t'' : SymbolTable}

/-! ### Proper tables -/

/-- A sound table in which texts have no name, and keywords have theirs. -/
structure Proper (t : SymbolTable) : Prop extends t.Sound where
  text_unnamed : ∀ {id}, (t.get id).kind = .text → (t.get id).name = none
  keyword_named : ∀ {id}, (t.get id).kind = .keyword → ∃ k : Keyword,
    (t.get id).name = some k.text

/-- The name of an entry that is fixed is that of a keyword or of a built-in
function. -/
theorem Proper.name_cases (h : t.Proper) {id : Nat} {name : String}
    (hfixed : (t.get id).isFixed) (hname : (t.get id).name = some name) :
    (∃ k : Keyword, name = k.text) ∨ (t.get id).kind = .builtin := by
  unfold Symbol.isFixed at hfixed
  cases hk : (t.get id).kind with
  | number => cases (h.number_unnamed hk).symm.trans hname
  | text => cases (h.text_unnamed hk).symm.trans hname
  | builtin => exact .inr rfl
  | keyword =>
    obtain ⟨k, hk⟩ := h.keyword_named hk
    exact .inl ⟨k, Option.some.inj (hname.symm.trans hk)⟩
  | var | undefined | function | procedure => simp [hk] at hfixed

/-- No entry that is fixed has the name of the last value shown. -/
theorem Proper.name_ne_shown (h : t.Proper) {id : Nat} (hfixed : (t.get id).isFixed) :
    (t.get id).name ≠ some "_" := by
  intro hname
  rcases h.name_cases hfixed hname with ⟨k, hk⟩ | hbuiltin
  · cases k <;> exact absurd hk (by decide)
  · exact h.builtin_named hbuiltin hname

/-- A table is proper if its texts and keywords were so before, or are new and
have what they need. -/
theorem Proper.of_entries (h : t.Proper) (hsound : t'.Sound)
    (hold : ∀ id < t.size, (t'.get id).name = (t.get id).name ∧
      ((t'.get id).kind = (t.get id).kind ∨ (t'.get id).isFixed = false))
    (hnew : ∀ id, t.size ≤ id → id < t'.size →
      (t'.get id).kind ≠ .keyword ∧
      ((t'.get id).kind = .text → (t'.get id).name = none)) :
    t'.Proper := by
  refine { hsound with
    text_unnamed := fun {id} hk => ?_
    keyword_named := fun {id} hk => ?_ }
  all_goals
    have hlt' : id < t'.size := lt_size_of_kind (by rw [hk]; decide)
    by_cases hlt : id < t.size
  · obtain ⟨hname, hkind | hkind⟩ := hold id hlt
    · exact hname.trans (h.text_unnamed (hkind ▸ hk))
    · simp [Symbol.isFixed, hk] at hkind
  · exact (hnew id (Nat.le_of_not_lt hlt) hlt').2 hk
  · obtain ⟨hname, hkind | hkind⟩ := hold id hlt
    · rw [hname]
      exact h.keyword_named (hkind ▸ hk)
    · simp [Symbol.isFixed, hk] at hkind
  · exact absurd hk (hnew id (Nat.le_of_not_lt hlt) hlt').1

/-- The table of a new session is proper. -/
theorem proper_initial : initial.Proper := by
  have hentries : ∀ s ∈ initial.entries.toList, s.kind ≠ .text ∧
      (s.kind = .keyword → ∃ k ∈ Keyword.all, s.name = some k.text) := by decide +kernel
  refine { sound_initial with
    text_unnamed := fun {id} hk => ?_
    keyword_named := fun {id} hk => ?_ }
  all_goals
    rcases get_eq_blank_or_mem initial id with heq | hmem
  · rw [heq] at hk
    exact nomatch hk
  · exact absurd hk (hentries _ hmem).1
  · rw [heq] at hk
    exact nomatch hk
  · obtain ⟨k, -, hk⟩ := (hentries _ hmem).2 hk
    exact ⟨k, hk⟩

/-! ### What persists -/

/-- What stays of a table for the rest of a session: no entry is removed, names
are kept, and of fixed entries everything but a code address. -/
structure Persists (t t' : SymbolTable) : Prop where
  size_le : t.size ≤ t'.size
  name : ∀ {id}, id < t.size → (t'.get id).name = (t.get id).name
  lookup : ∀ {name id}, t.lookup name = some id → t'.lookup name = some id
  fixed : ∀ {id}, (t.get id).isFixed →
      t'.get id = { t.get id with code := (t'.get id).code }

theorem Persists.refl (t : SymbolTable) : t.Persists t :=
  ⟨Nat.le_refl _, fun _ => rfl, id, fun _ => rfl⟩

/-- What persists step by step persists. -/
theorem Persists.trans (h : t.Persists t') (h' : t'.Persists t'') : t.Persists t'' where
  size_le := Nat.le_trans h.size_le h'.size_le
  name hlt := (h'.name (Nat.lt_of_lt_of_le hlt h.size_le)).trans (h.name hlt)
  lookup hl := h'.lookup (h.lookup hl)
  fixed {id} hfixed := by
    have hmid := h.fixed hfixed
    have hfixed' : (t'.get id).isFixed := by
      rw [hmid]
      exact hfixed
    rw [h'.fixed hfixed', hmid]

/-- A function or procedure in `t'` is the same in `t`. -/
def AddsNoCallable (t t' : SymbolTable) : Prop :=
  ∀ id, (t'.get id).IsCallable →
    (t.get id).kind = (t'.get id).kind ∧ (t.get id).name = (t'.get id).name

theorem AddsNoCallable.trans (h : t.AddsNoCallable t') (h' : t'.AddsNoCallable t'') :
    t.AddsNoCallable t'' := by
  intro id hcallable
  obtain ⟨hkind', hname'⟩ := h' id hcallable
  obtain ⟨hkind, hname⟩ := h id (by rw [Symbol.IsCallable, hkind']; exact hcallable)
  exact ⟨hkind.trans hkind', hname.trans hname'⟩

/-! ### Running -/

/-- What running code does to the entries: those that may be assigned to, and
that of `_`, may become variables of another value. An entry that is added is
that of `_`. -/
structure Assigns (t t' : SymbolTable) : Prop where
  size_le : t.size ≤ t'.size
  entry : ∀ id < t.size, t'.get id = t.get id ∨
    ((t.get id).isAssignable ∨ (t.get id).name = some "_") ∧ ∃ x,
      t'.get id = (t.get id).assigned x
  added : ∀ id, t.size ≤ id → id < t'.size →
    ∃ x, t'.get id = { name := some "_", kind := .var, value := x }
  lookup : ∀ {name id}, t.lookup name = some id → t'.lookup name = some id

theorem Assigns.refl (t : SymbolTable) : t.Assigns t where
  size_le := Nat.le_refl _
  entry _ _ := .inl rfl
  added _ hle hlt := absurd hlt (Nat.not_lt_of_le hle)
  lookup h := h

/-- What running does in two steps it may do in one. -/
theorem Assigns.trans (h : t.Assigns t') (h' : t'.Assigns t'') : t.Assigns t'' where
  size_le := Nat.le_trans h.size_le h'.size_le
  entry id hid := by
    rcases h'.entry id (Nat.lt_of_lt_of_le hid h.size_le) with heq | ⟨hmay, y, heq⟩
    · rw [heq]
      exact h.entry id hid
    · -- the last assignment counts, and an earlier one was allowed for the same reason
      rcases h.entry id hid with heq' | ⟨hmay', x, heq'⟩
      · rw [heq'] at hmay heq
        exact .inr ⟨hmay, y, heq⟩
      · rw [heq'] at heq
        exact .inr ⟨hmay', y, heq⟩
  added id hle hlt := by
    by_cases hid : id < t'.size
    · obtain ⟨x, hx⟩ := h.added id hle hid
      rcases h'.entry id hid with heq | ⟨-, y, heq⟩
      · exact ⟨x, heq.trans hx⟩
      · rw [hx] at heq
        exact ⟨y, heq⟩
    · exact h'.added id (Nat.le_of_not_lt hid) hlt
  lookup hl := h'.lookup (h.lookup hl)

/-- An assignment that is allowed. -/
theorem assigns_modify {id : Nat} (x : Float)
    (h : (t.get id).isAssignable ∨ (t.get id).name = some "_") :
    t.Assigns (t.modify id (Symbol.assigned x)) where
  size_le := Nat.le_of_eq (size_modify t id _).symm
  entry id' _ := by
    rw [get_modify]
    split
    case isTrue hc =>
      obtain ⟨rfl, -⟩ := hc
      exact .inr ⟨h, x, rfl⟩
    case isFalse => exact .inl rfl
  added id' hle hlt := by
    rw [size_modify] at hlt
    exact absurd hlt (Nat.not_lt_of_le hle)
  lookup h := h

/-- Keeping the last value shown. -/
theorem assigns_shown (ht : t.Sound) (x : Float) :
    t.Assigns ((t.resolve "_").2.modify (t.resolve "_").1 (Symbol.assigned x)) := by
  rcases resolve_cases t "_" with ⟨id, hlookup, heq⟩ | ⟨hnone, heq⟩
  · rw [heq]
    exact assigns_modify x (.inr (ht.named hlookup).2)
  · -- the new entry is assigned to at once
    rw [heq]
    refine ⟨?_, fun id hid => .inl ?_, fun id hle hlt => ⟨x, ?_⟩,
      fun {name id} hlookup => ?_⟩
    · rw [size_modify, size_install]
      exact Nat.le_succ _
    · rw [get_modify_other _ _ (Nat.ne_of_lt hid), get_install, if_neg (Nat.ne_of_lt hid)]
    · rw [size_modify, size_install] at hlt
      obtain rfl : id = t.size := by omega
      rw [get_modify_self _ _ (by rw [size_install]; exact Nat.lt_succ_self _),
        get_install, if_pos rfl]
      rfl
    · rw [lookup_modify, lookup_install_other]
      · exact hlookup
      · rintro rfl
        cases hnone.symm.trans hlookup

theorem Assigns.name_eq (h : t.Assigns t') {id : Nat} (hid : id < t.size) :
    (t'.get id).name = (t.get id).name := by
  rcases h.entry id hid with heq | ⟨-, x, heq⟩
  · rw [heq]
  · rw [heq]
    rfl

/-- Running code leaves fixed entries alone. -/
theorem Assigns.persists (h : t.Assigns t') (ht : t.Proper) : t.Persists t' where
  size_le := h.size_le
  name := h.name_eq
  lookup := h.lookup
  fixed {id} hfixed := by
    have hid : id < t.size := by
      refine lt_size_of_kind fun hk => ?_
      simp [Symbol.isFixed, hk] at hfixed
    rcases h.entry id hid with heq | ⟨hassign | hname, -⟩
    · rw [heq]
    · rw [Symbol.not_isFixed_of_isAssignable hassign] at hfixed
      cases hfixed
    · exact absurd hname (ht.name_ne_shown hfixed)

/-- Running code leaves texts and keywords what they are. -/
theorem Assigns.proper (h : t.Assigns t') (ht : t.Proper) (hsound : t'.Sound) :
    t'.Proper := by
  refine ht.of_entries hsound (fun id hid => ⟨h.name_eq hid, ?_⟩) fun id hle hlt => ?_
  · rcases h.entry id hid with heq | ⟨-, x, heq⟩
    · exact .inl (congrArg Symbol.kind heq)
    · rw [heq]
      exact .inr rfl
  · obtain ⟨x, hx⟩ := h.added id hle hlt
    rw [hx]
    exact ⟨SymbolKind.noConfusion, SymbolKind.noConfusion⟩

/-- Running code makes variables only. -/
theorem Assigns.addsNoCallable (h : t.Assigns t') : t.AddsNoCallable t' := by
  intro id hcallable
  have hid' : id < t'.size :=
    Nat.lt_of_not_le fun hle => not_isCallable_of_size_le hle hcallable
  by_cases hid : id < t.size
  · rcases h.entry id hid with heq | ⟨-, x, heq⟩
    · rw [heq]
      exact ⟨rfl, rfl⟩
    · rw [heq] at hcallable
      simp [Symbol.IsCallable, Symbol.assigned] at hcallable
  · obtain ⟨x, hx⟩ := h.added id (Nat.le_of_not_lt hid) hid'
    rw [hx] at hcallable
    simp [Symbol.IsCallable] at hcallable

/-! ### Generating -/

/-- What generating code does to the entries: they get code addresses. -/
structure Recodes (t t' : SymbolTable) : Prop where
  size_eq : t'.size = t.size
  lookup : ∀ name, t'.lookup name = t.lookup name
  entry : ∀ id, t'.get id = { t.get id with code := (t'.get id).code }

theorem Recodes.refl (t : SymbolTable) : t.Recodes t :=
  ⟨rfl, fun _ => rfl, fun _ => rfl⟩

theorem Recodes.trans (h : t.Recodes t') (h' : t'.Recodes t'') : t.Recodes t'' where
  size_eq := h'.size_eq.trans h.size_eq
  lookup name := (h'.lookup name).trans (h.lookup name)
  entry id := by rw [h'.entry id, h.entry id]

theorem recodes_modify (t : SymbolTable) (id a : Nat) :
    t.Recodes (t.modify id fun s => { s with code := some a }) where
  size_eq := size_modify t id _
  lookup _ := rfl
  entry id' := by
    rw [get_modify]
    split
    case isTrue hc => rw [hc.1]
    case isFalse => rfl

/-- Code addresses are no part of what makes a table sound. -/
theorem Recodes.sound (h : t.Recodes t') (ht : t.Sound) : t'.Sound := by
  refine ⟨fun {name id} hl => ?_, fun {id} => ?_, fun {id} => ?_, fun {id} => ?_⟩
  · rw [h.size_eq, h.entry id]
    exact ht.named ((h.lookup name).symm.trans hl)
  · rw [h.entry id]
    exact ht.number_unnamed
  · rw [h.entry id]
    exact ht.builtin_native
  · rw [h.entry id]
    exact ht.builtin_named

theorem Recodes.persists (h : t.Recodes t') : t.Persists t' where
  size_le := Nat.le_of_eq h.size_eq.symm
  name {id} _ := by rw [h.entry id]
  lookup {name id} hl := (h.lookup name).trans hl
  fixed {id} _ := h.entry id

theorem Recodes.proper (h : t.Recodes t') (ht : t.Proper) : t'.Proper := by
  refine ht.of_entries (h.sound ht.toSound) (fun id _ => ?_) fun id hle hlt => ?_
  · rw [h.entry id]
    exact ⟨rfl, .inl rfl⟩
  · rw [h.size_eq] at hlt
    exact absurd hlt (Nat.not_lt_of_le hle)

theorem Recodes.addsNoCallable (h : t.Recodes t') : t.AddsNoCallable t' := by
  intro id _
  rw [h.entry id]
  exact ⟨rfl, rfl⟩

end SymbolTable

end StackCalc
