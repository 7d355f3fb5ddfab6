import StackCalc.Symbol.Table

/-!
# How symbol tables change

Reading a text, generating code and running it all change the symbol table, each
in its own way. Three things hold throughout, and they are what trees and code
that refer to symbols rely on:

- `SymbolTable.Sound`: a name leads to an entry of that name, number literals
  have none, and a built-in function comes with its operation;
- `SymbolTable.Evolves`: entries stay where they are and keep their names, texts
  and operations; number literals keep their value and built-in functions their
  kind;
- `SymbolTable.SameCode`: no entry gets another code address. Only generating
  code breaks this one.

`SymbolTable.Advances` is all three, for reading a text and running code. These
keep the index of names as well: in an `SymbolTable.Indexed` table the names
lead to all entries that have one, and to nothing else
(`SymbolTable.Continues`).
-/

namespace StackCalc

namespace SymbolTable

/-! ### Entries after an operation -/

theorem get_of_size_le (t : SymbolTable) {id : Nat} (h : t.size ≤ id) :
    t.get id = Symbol.blank := by
  have h' : t.entries.size ≤ id := h
  simp [get, Array.getD_eq_getD_getElem?, Array.getElem?_eq_none h']

/-- The entry that was added is behind the others. -/
theorem get_push (t : SymbolTable) (s : Symbol) (id : Nat) :
    (t.push s).2.get id = if id = t.size then s else t.get id := by
  by_cases h : id = t.size
  · rw [if_pos h, h]
    exact get_push_self t s
  · rw [if_neg h]
    rcases Nat.lt_or_gt_of_ne h with hlt | hgt
    · exact get_push_of_lt t s hlt
    · rw [get_of_size_le t (Nat.le_of_lt hgt),
        get_of_size_le _ (by rw [size_push]; omega)]

/-- One entry is changed, if it is there. -/
theorem get_modify (t : SymbolTable) (id : Nat) (f : Symbol → Symbol) (id' : Nat) :
    (t.modify id f).get id' =
      if id' = id ∧ id < t.size then f (t.get id) else t.get id' := by
  by_cases h : id' = id
  · subst h
    by_cases hlt : id' < t.size
    · rw [if_pos ⟨rfl, hlt⟩, get_modify_self t f hlt]
    · have hle : t.size ≤ id' := Nat.le_of_not_lt hlt
      rw [if_neg (fun hc => hlt hc.2), get_of_size_le t hle,
        get_of_size_le _ (by rw [size_modify]; exact hle)]
  · rw [if_neg (fun hc => h hc.1), get_modify_other t f h]

theorem lookup_modify (t : SymbolTable) (id : Nat) (f : Symbol → Symbol) (name : String) :
    (t.modify id f).lookup name = t.lookup name :=
  rfl

theorem lookup_push (t : SymbolTable) (s : Symbol) (name : String) :
    (t.push s).2.lookup name = t.lookup name :=
  rfl

theorem get_install (t : SymbolTable) (name : String) (kind : SymbolKind)
    (x : Float) (id : Nat) :
    (t.install name kind x).2.get id =
      if id = t.size then { name := some name, kind, value := x } else t.get id :=
  get_push t _ id

theorem size_install (t : SymbolTable) (name : String) (kind : SymbolKind) (x : Float) :
    (t.install name kind x).2.size = t.size + 1 :=
  size_push t _

/-- A new name gets the next place. -/
theorem resolve_cases (t : SymbolTable) (name : String) :
    (∃ id, t.lookup name = some id ∧ t.resolve name = (id, t)) ∨
      (t.lookup name = none ∧
        t.resolve name = (t.size, (t.install name .undefined 0.0).2)) := by
  unfold resolve
  cases h : t.lookup name with
  | some id => exact .inl ⟨id, rfl, rfl⟩
  | none => exact .inr ⟨rfl, rfl⟩

/-! ### Sound tables -/

/-- A table in which names and literals are what they seem. -/
structure Sound (t : SymbolTable) : Prop where
  /-- A name leads to an entry of that name. -/
  named : ∀ {name id}, t.lookup name = some id → id < t.size ∧ (t.get id).name = some name
  /-- A number literal has no name. -/
  number_unnamed : ∀ {id}, (t.get id).kind = .number → (t.get id).name = none
  /-- A built-in function has its operation. -/
  builtin_native : ∀ {id}, (t.get id).kind = .builtin → (t.get id).native.isSome
  /-- The name of the last value shown is not that of a built-in function. -/
  builtin_named : ∀ {id}, (t.get id).kind = .builtin → (t.get id).name ≠ some "_"

/-- An entry that may be added to a sound table. -/
structure Addable (s : Symbol) : Prop where
  number : s.kind = .number → s.name = none
  builtin : s.kind ≠ .builtin

/-- A literal or a new name may be added. -/
theorem Sound.push {t : SymbolTable} (h : t.Sound) {s : Symbol} (hs : Addable s) :
    (t.push s).2.Sound where
  named := by
    intro name id hl
    obtain ⟨hlt, hn⟩ := h.named (by rwa [lookup_push] at hl)
    rw [size_push, get_push, if_neg (by omega)]
    exact ⟨by omega, hn⟩
  number_unnamed := by
    intro id
    rw [get_push]
    split
    · exact hs.number
    · exact h.number_unnamed
  builtin_native := by
    intro id
    rw [get_push]
    split
    · exact fun hc => absurd hc hs.builtin
    · exact h.builtin_native
  builtin_named := by
    intro id
    rw [get_push]
    split
    · exact fun hc => absurd hc hs.builtin
    · exact h.builtin_named

/-- A new name may be installed, unless it is to be a number or a built-in
function. -/
theorem Sound.install {t : SymbolTable} (h : t.Sound) {name : String}
    {kind : SymbolKind} {x : Float} (hnum : kind ≠ .number) (hbuiltin : kind ≠ .builtin) :
    (t.install name kind x).2.Sound := by
  have hpush : (t.push { name := some name, kind, value := x }).2.Sound :=
    h.push ⟨fun hc => absurd hc hnum, hbuiltin⟩
  constructor
  · -- the new name leads to the new entry, the others to where they did
    intro name' id hl
    by_cases hn : name' = name
    · subst hn
      rw [lookup_install_self] at hl
      cases hl
      have hid : (t.install name' kind x).1 = t.size := rfl
      rw [size_install, get_install, if_pos hid]
      exact ⟨Nat.lt_succ_self _, rfl⟩
    · rw [lookup_install_other t kind x hn] at hl
      exact hpush.named hl
  · exact hpush.number_unnamed
  · exact hpush.builtin_native
  · exact hpush.builtin_named

theorem Sound.resolve {t : SymbolTable} (h : t.Sound) (name : String) :
    (t.resolve name).2.Sound := by
  rcases resolve_cases t name with ⟨id, -, heq⟩ | ⟨-, heq⟩
  · rw [heq]
    exact h
  · rw [heq]
    exact h.install (by decide) (by decide)

/-- A change of the entry at `id` after which a sound table is still sound. -/
structure Harmless (t : SymbolTable) (id : Nat) (f : Symbol → Symbol) : Prop where
  name : (f (t.get id)).name = (t.get id).name
  text : (f (t.get id)).text = (t.get id).text
  native : (f (t.get id)).native = (t.get id).native
  number : (t.get id).kind = .number →
    (f (t.get id)).kind = .number ∧ (f (t.get id)).value = (t.get id).value
  builtin : (t.get id).kind = .builtin → (f (t.get id)).kind = .builtin
  new_number : (f (t.get id)).kind = .number → (t.get id).kind = .number
  new_builtin : (f (t.get id)).kind = .builtin → (t.get id).kind = .builtin

/-- A harmless change may be made. -/
theorem Sound.modify {t : SymbolTable} (h : t.Sound) {id : Nat} {f : Symbol → Symbol}
    (hf : Harmless t id f) : (t.modify id f).Sound where
  named := by
    intro name id' hl
    obtain ⟨hlt, hn⟩ := h.named (by rwa [lookup_modify] at hl)
    rw [size_modify, get_modify]
    refine ⟨hlt, ?_⟩
    split
    case isTrue hc => rw [hf.name, ← hc.1, hn]
    case isFalse => exact hn
  number_unnamed := by
    intro id'
    rw [get_modify]
    split
    · rw [hf.name]
      exact fun hk => h.number_unnamed (hf.new_number hk)
    · exact h.number_unnamed
  builtin_native := by
    intro id'
    rw [get_modify]
    split
    · rw [hf.native]
      exact fun hk => h.builtin_native (hf.new_builtin hk)
    · exact h.builtin_native
  builtin_named := by
    intro id'
    rw [get_modify]
    split
    · rw [hf.name]
      exact fun hk => h.builtin_named (hf.new_builtin hk)
    · exact h.builtin_named

/-- What is checked of all entries and of a blank one holds of every place. -/
theorem get_eq_blank_or_mem (t : SymbolTable) (id : Nat) :
    t.get id = Symbol.blank ∨ t.get id ∈ t.entries.toList := by
  by_cases h : id < t.entries.size
  · refine .inr ?_
    simp [get, Array.getD_eq_getD_getElem?, h]
  · exact .inl (get_of_size_le t (Nat.le_of_not_lt h))

/-- The table of a new session is sound. -/
theorem sound_initial : initial.Sound := by
  have hnames : ∀ p ∈ initial.names,
      p.2 < initial.size ∧ (initial.get p.2).name = some p.1 := by decide +kernel
  have hentries : ∀ s ∈ initial.entries.toList, s.kind ≠ .number ∧
      (s.kind = .builtin → s.native.isSome ∧ s.name ≠ some "_") := by decide +kernel
  have hget : ∀ id, (initial.get id).kind ≠ .number ∧ ((initial.get id).kind = .builtin →
      (initial.get id).native.isSome ∧ (initial.get id).name ≠ some "_") := by
    intro id
    rcases get_eq_blank_or_mem initial id with h | h
    · rw [h]
      exact ⟨by decide, fun hc => absurd hc (by decide)⟩
    · exact hentries _ h
  -- what is checked of all entries holds of every place, since the others are blank
  constructor
  · intro name id hl
    obtain ⟨l₁, l₂, heq, -⟩ := List.lookup_eq_some_iff.mp hl
    exact hnames (name, id) (heq ▸ List.mem_append_right l₁ List.mem_cons_self)
  · exact fun hk => absurd hk (hget _).1
  · exact fun hk => ((hget _).2 hk).1
  · exact fun hk => ((hget _).2 hk).2

/-! ### The index of names -/

/-- A table whose names lead to the entries that have one, each to its own;
texts have none. -/
structure Indexed (t : SymbolTable) : Prop where
  lookup_iff : ∀ {name id}, t.lookup name = some id ↔ (t.get id).name = some name
  text_unnamed : ∀ {id}, (t.get id).text.isSome → (t.get id).name = none

/-- An entry without a name may be added. -/
theorem Indexed.push {t : SymbolTable} (h : t.Indexed) {s : Symbol} (hs : s.name = none) :
    (t.push s).2.Indexed where
  lookup_iff := by
    intro name id
    rw [lookup_push, get_push]
    split
    case isTrue hid =>
      -- nothing stood at the new place, so no name leads there
      rw [h.lookup_iff, hs, hid, get_of_size_le t (Nat.le_refl _)]
      rfl
    case isFalse => exact h.lookup_iff
  text_unnamed := by
    intro id
    rw [get_push]
    split
    · exact fun _ => hs
    · exact h.text_unnamed

/-- A new name leads to its new entry, and the others lead where they did. -/
theorem Indexed.resolve {t : SymbolTable} (h : t.Indexed) (name : String) :
    (t.resolve name).2.Indexed := by
  rcases resolve_cases t name with ⟨id, -, heq⟩ | ⟨hnone, heq⟩
  · rw [heq]
    exact h
  · rw [heq]
    constructor
    · intro name' id
      rw [get_install]
      by_cases hname : name' = name
      · subst hname
        rw [lookup_install_self]
        split
        case isTrue hid => exact ⟨fun _ => rfl, fun _ => congrArg some hid.symm⟩
        case isFalse hid =>
          refine ⟨fun hc => absurd (Option.some.inj hc).symm hid, fun hc => ?_⟩
          exact absurd (hnone.symm.trans (h.lookup_iff.mpr hc))
            (Option.some_ne_none id).symm
      · rw [lookup_install_other t _ _ hname, h.lookup_iff]
        split
        case isTrue hid =>
          rw [hid, get_of_size_le t (Nat.le_refl _)]
          exact ⟨fun hc => absurd hc.symm (Option.some_ne_none _),
            fun hc => absurd (Option.some.inj hc).symm hname⟩
        case isFalse => exact Iff.rfl
    · intro id
      rw [get_install]
      split
      · exact fun hc => absurd hc Bool.false_ne_true
      · exact h.text_unnamed

/-- A harmless change keeps the names. -/
theorem Indexed.modify {t : SymbolTable} (h : t.Indexed) {id : Nat} {f : Symbol → Symbol}
    (hf : Harmless t id f) : (t.modify id f).Indexed where
  lookup_iff := by
    intro name id'
    rw [lookup_modify, get_modify, h.lookup_iff]
    split
    case isTrue hc => rw [hf.name, hc.1]
    case isFalse => exact Iff.rfl
  text_unnamed := by
    intro id'
    rw [get_modify]
    split
    · rw [hf.name, hf.text]
      exact h.text_unnamed
    · exact h.text_unnamed

/-- Nothing has a body to begin with. -/
theorem code_initial (id : Nat) : (initial.get id).code = none := by
  have hentries : ∀ s ∈ initial.entries.toList, s.code = none := by decide +kernel
  rcases get_eq_blank_or_mem initial id with h | h
  · rw [h]
    rfl
  · exact hentries _ h

/-- The names of a new session are indexed. -/
theorem indexed_initial : initial.Indexed := by
  have hentries : ∀ i < initial.size, ∀ name ∈ (initial.get i).name,
      initial.lookup name = some i := by decide +kernel
  have htexts : ∀ s ∈ initial.entries.toList, s.text = none := by decide +kernel
  constructor
  · intro name id
    refine ⟨fun hl => (sound_initial.named hl).2, fun hn => ?_⟩
    by_cases hid : id < initial.size
    · exact hentries id hid name hn
    · rw [get_of_size_le initial (Nat.le_of_not_lt hid)] at hn
      exact absurd hn.symm (Option.some_ne_none name)
  · intro id hsome
    have hnone : (initial.get id).text = none := by
      rcases get_eq_blank_or_mem initial id with heq | hmem
      · rw [heq]
        rfl
      · exact htexts _ hmem
    rw [hnone] at hsome
    exact absurd hsome Bool.false_ne_true

/-! ### Evolution -/

/-- What every change of the table keeps: where entries are, their names, texts
and operations, the values of number literals, and which entries are built-in
functions. -/
structure Evolves (t t' : SymbolTable) : Prop where
  size_le : t.size ≤ t'.size
  name : ∀ {id}, id < t.size → (t'.get id).name = (t.get id).name
  text : ∀ {id}, id < t.size → (t'.get id).text = (t.get id).text
  native : ∀ {id}, id < t.size → (t'.get id).native = (t.get id).native
  number : ∀ {id}, (t.get id).kind = .number →
    (t'.get id).kind = .number ∧ (t'.get id).value = (t.get id).value
  builtin : ∀ {id}, (t.get id).kind = .builtin → (t'.get id).kind = .builtin
  new_builtin : ∀ {id}, id < t.size → (t'.get id).kind = .builtin →
    (t.get id).kind = .builtin

/-- An entry of a kind that blank ones do not have is in the table. -/
theorem lt_size_of_kind {t : SymbolTable} {id : Nat} (h : (t.get id).kind ≠ .undefined) :
    id < t.size := by
  refine Nat.lt_of_not_le fun hc => h ?_
  rw [get_of_size_le t hc]
  rfl

theorem Evolves.refl (t : SymbolTable) : t.Evolves t :=
  ⟨Nat.le_refl _, fun _ => rfl, fun _ => rfl, fun _ => rfl, fun h => ⟨h, rfl⟩,
    id, fun _ => id⟩

/-- What is kept step by step is kept. -/
theorem Evolves.trans {t t' t'' : SymbolTable} (h : t.Evolves t') (h' : t'.Evolves t'') :
    t.Evolves t'' where
  size_le := Nat.le_trans h.size_le h'.size_le
  name hlt := (h'.name (Nat.lt_of_lt_of_le hlt h.size_le)).trans (h.name hlt)
  text hlt := (h'.text (Nat.lt_of_lt_of_le hlt h.size_le)).trans (h.text hlt)
  native hlt := (h'.native (Nat.lt_of_lt_of_le hlt h.size_le)).trans (h.native hlt)
  number hk :=
    ⟨(h'.number (h.number hk).1).1, ((h'.number (h.number hk).1).2).trans (h.number hk).2⟩
  builtin hk := h'.builtin (h.builtin hk)
  new_builtin hlt hk :=
    h.new_builtin hlt (h'.new_builtin (Nat.lt_of_lt_of_le hlt h.size_le) hk)

/-- Entries stay in place when another one is added. -/
theorem evolves_push (t : SymbolTable) (s : Symbol) : t.Evolves (t.push s).2 := by
  have hold : ∀ {id}, id < t.size → (t.push s).2.get id = t.get id := fun hlt =>
    get_push_of_lt t s hlt
  constructor
  · rw [size_push]
    exact Nat.le_succ _
  · exact fun hlt => congrArg Symbol.name (hold hlt)
  · exact fun hlt => congrArg Symbol.text (hold hlt)
  · exact fun hlt => congrArg Symbol.native (hold hlt)
  · intro id hk
    rw [hold (lt_size_of_kind (by rw [hk]; decide))]
    exact ⟨hk, rfl⟩
  · intro id hk
    rw [hold (lt_size_of_kind (by rw [hk]; decide))]
    exact hk
  · intro id hlt
    rw [hold hlt]
    exact fun hk => hk

theorem evolves_install (t : SymbolTable) (name : String)
    (kind : SymbolKind) (x : Float) :
    t.Evolves (t.install name kind x).2 := by
  obtain ⟨h₁, h₂, h₃, h₄, h₅, h₆, h₇⟩ :=
    evolves_push t { name := some name, kind, value := x }
  exact ⟨h₁, h₂, h₃, h₄, h₅, h₆, h₇⟩

theorem evolves_resolve (t : SymbolTable) (name : String) :
    t.Evolves (t.resolve name).2 := by
  rcases resolve_cases t name with ⟨id, -, heq⟩ | ⟨-, heq⟩
  · rw [heq]
    exact Evolves.refl t
  · rw [heq]
    exact evolves_install t name .undefined 0.0

/-- A harmless change keeps what evolution keeps. -/
theorem evolves_modify {t : SymbolTable} {id : Nat} {f : Symbol → Symbol}
    (hf : Harmless t id f) :
    t.Evolves (t.modify id f) where
  size_le := Nat.le_of_eq (size_modify t id f).symm
  name := by
    intro id' _
    rw [get_modify]
    split
    case isTrue hc => rw [hf.name, hc.1]
    case isFalse => rfl
  text := by
    intro id' _
    rw [get_modify]
    split
    case isTrue hc => rw [hf.text, hc.1]
    case isFalse => rfl
  native := by
    intro id' _
    rw [get_modify]
    split
    case isTrue hc => rw [hf.native, hc.1]
    case isFalse => rfl
  number := by
    intro id' hk
    rw [get_modify]
    split
    case isTrue hc =>
      rw [hc.1] at hk ⊢
      exact hf.number hk
    case isFalse => exact ⟨hk, rfl⟩
  builtin := by
    intro id' hk
    rw [get_modify]
    split
    case isTrue hc =>
      rw [hc.1] at hk
      exact hf.builtin hk
    case isFalse => exact hk
  new_builtin := by
    intro id' _
    rw [get_modify]
    split
    case isTrue hc =>
      rw [hc.1]
      exact hf.new_builtin
    case isFalse => exact fun hk => hk

/-! ### Code addresses -/

/-- Both tables have the same code addresses. -/
def SameCode (t t' : SymbolTable) : Prop :=
  ∀ id, (t'.get id).code = (t.get id).code

theorem SameCode.refl (t : SymbolTable) : t.SameCode t :=
  fun _ => rfl

theorem SameCode.trans {t t' t'' : SymbolTable} (h : t.SameCode t')
    (h' : t'.SameCode t'') :
    t.SameCode t'' :=
  fun id => (h' id).trans (h id)

theorem sameCode_push (t : SymbolTable) {s : Symbol} (hs : s.code = none) :
    t.SameCode (t.push s).2 := by
  intro id
  rw [get_push]
  split
  case isTrue hc => rw [hs, get_of_size_le t (by omega), Symbol.blank]
  case isFalse => rfl

theorem sameCode_resolve (t : SymbolTable) (name : String) :
    t.SameCode (t.resolve name).2 := by
  rcases resolve_cases t name with ⟨id, -, heq⟩ | ⟨-, heq⟩
  · rw [heq]
    exact SameCode.refl t
  · rw [heq]
    exact sameCode_push t rfl

theorem sameCode_modify (t : SymbolTable) (id : Nat) {f : Symbol → Symbol}
    (hf : ∀ s, (f s).code = s.code) : t.SameCode (t.modify id f) := by
  intro id'
  rw [get_modify]
  split
  case isTrue hc => rw [hf, hc.1]
  case isFalse => rfl

/-! ### Reading and running -/

/-- What reading a text and running code keep. -/
structure Advances (t t' : SymbolTable) : Prop where
  sound : t.Sound → t'.Sound
  evolves : t.Evolves t'
  sameCode : t.SameCode t'

theorem Advances.refl (t : SymbolTable) : t.Advances t :=
  ⟨id, Evolves.refl t, SameCode.refl t⟩

theorem Advances.trans {t t' t'' : SymbolTable} (h : t.Advances t')
    (h' : t'.Advances t'') :
    t.Advances t'' :=
  ⟨fun hs => h'.sound (h.sound hs), h.evolves.trans h'.evolves,
    h.sameCode.trans h'.sameCode⟩

theorem advances_push (t : SymbolTable) {s : Symbol} (hs : Addable s)
    (hcode : s.code = none) :
    t.Advances (t.push s).2 :=
  ⟨fun h => h.push hs, evolves_push t s, sameCode_push t hcode⟩

theorem advances_resolve (t : SymbolTable) (name : String) :
    t.Advances (t.resolve name).2 :=
  ⟨fun h => h.resolve name, evolves_resolve t name, sameCode_resolve t name⟩

theorem advances_modify {t : SymbolTable} {id : Nat} {f : Symbol → Symbol}
    (hf : Harmless t id f) (hcode : ∀ s, (f s).code = s.code) :
    t.Advances (t.modify id f) :=
  ⟨fun h => h.modify hf, evolves_modify hf, sameCode_modify t id hcode⟩

/-- What reading a text and running code keep, the index of names included. -/
structure Continues (t t' : SymbolTable) : Prop extends t.Advances t' where
  indexed : t.Indexed → t'.Indexed

theorem Continues.refl (t : SymbolTable) : t.Continues t :=
  ⟨Advances.refl t, id⟩

theorem Continues.trans {t t' t'' : SymbolTable} (h : t.Continues t')
    (h' : t'.Continues t'') :
    t.Continues t'' :=
  ⟨h.toAdvances.trans h'.toAdvances, fun hi => h'.indexed (h.indexed hi)⟩

theorem continues_push (t : SymbolTable) {s : Symbol} (hs : Addable s)
    (hcode : s.code = none) (hname : s.name = none) : t.Continues (t.push s).2 :=
  ⟨advances_push t hs hcode, fun h => h.push hname⟩

theorem continues_resolve (t : SymbolTable) (name : String) :
    t.Continues (t.resolve name).2 :=
  ⟨advances_resolve t name, fun h => h.resolve name⟩

theorem continues_modify {t : SymbolTable} {id : Nat} {f : Symbol → Symbol}
    (hf : Harmless t id f) (hcode : ∀ s, (f s).code = s.code) :
    t.Continues (t.modify id f) :=
  ⟨advances_modify hf hcode, fun h => h.modify hf⟩

/-- An entry with a name is no number literal, so it may change its kind unless
it is a built-in function. -/
theorem Sound.harmless_kind {t : SymbolTable} (h : t.Sound) {id : Nat}
    {f : Symbol → Symbol} (hname : (t.get id).name.isSome)
    (hkind : (t.get id).kind ≠ .builtin) (hnumber : (f (t.get id)).kind ≠ .number)
    (hbuiltin : (f (t.get id)).kind ≠ .builtin)
    (hf : ∀ s, (f s).name = s.name ∧ (f s).text = s.text ∧ (f s).native = s.native) :
    Harmless t id f where
  name := (hf _).1
  text := (hf _).2.1
  native := (hf _).2.2
  number hk := by
    rw [h.number_unnamed hk] at hname
    exact absurd hname (by decide)
  builtin hk := absurd hk hkind
  new_number hk := absurd hk hnumber
  new_builtin hk := absurd hk hbuiltin

/-- A name that has been resolved leads to an entry of that name. -/
theorem Sound.name_resolve {t : SymbolTable} (h : t.Sound) (name : String) :
    (t.resolve name).1 < (t.resolve name).2.size ∧
      ((t.resolve name).2.get (t.resolve name).1).name = some name :=
  (h.resolve name).named (lookup_resolve t name)

end SymbolTable

end StackCalc
