import StackCalc.Proofs.Symbol.Evolution

/-!
# Tables that grow and tables that are assigned to

Reading a text adds entries at the end of the symbol table, and running code
without an echo assigns to the variables in it. The two do not get in each
other's way, whichever is done first:

- `SymbolTable.plus`: a table and what was added to it; looking at the old
  entries and changing them is the same as before.
- `SymbolTable.Assigned`: a table and the same table after assignments. Names
  stand for the same places, and what is no variable is as it was.
-/

namespace StackCalc

namespace SymbolTable

/-! ### Adding entries -/

/-- A table with more entries and names. -/
def plus (t more : SymbolTable) : SymbolTable :=
  ⟨t.entries ++ more.entries, more.names ++ t.names⟩

theorem plus_empty (t : SymbolTable) : t.plus {} = t := by
  simp [plus]

theorem size_plus (t more : SymbolTable) : (t.plus more).size = t.size + more.size :=
  Array.size_append

/-- Entries from before stay in place, and the others come behind them. -/
theorem get_plus (t more : SymbolTable) (id : Nat) :
    (t.plus more).get id = if id < t.size then t.get id else more.get (id - t.size) := by
  simp only [get, plus, size, Array.getD_eq_getD_getElem?, Array.getElem?_append]
  split <;> rfl

theorem get_plus_of_lt {t : SymbolTable} {id : Nat} (h : id < t.size)
    (more : SymbolTable) :
    (t.plus more).get id = t.get id := by
  rw [get_plus, if_pos h]

/-- An entry from before is changed as before. -/
theorem modify_plus {t : SymbolTable} {id : Nat} (h : id < t.size) (more : SymbolTable)
    (f : Symbol → Symbol) : (t.plus more).modify id f = (t.modify id f).plus more := by
  have hid : id < t.entries.size := h
  refine congrArg (SymbolTable.mk · (more.names ++ t.names))
    (Array.ext_getElem? fun i => ?_)
  show ((t.entries ++ more.entries).modify id f)[i]? =
    (t.entries.modify id f ++ more.entries)[i]?
  rw [Array.getElem?_modify, Array.getElem?_append, Array.getElem?_append,
    Array.size_modify, Array.getElem?_modify]
  by_cases hi : id = i
  · subst hi
    rw [if_pos rfl, if_pos hid, if_pos rfl, if_pos hid]
  · rw [if_neg hi, if_neg hi]

theorem push_plus (t more : SymbolTable) (s : Symbol) :
    (t.plus more).push s = (t.size + more.size, t.plus (more.push s).2) := by
  refine Prod.ext (size_plus t more) ?_
  exact congrArg (SymbolTable.mk · (more.names ++ t.names)) Array.push_append

/-- A new name, as one of those added. -/
def named (t more : SymbolTable) (name : String) : SymbolTable :=
  ⟨(more.push { name := some name, kind := .undefined, value := 0.0 }).2.entries,
    (name, t.size + more.size) :: more.names⟩

theorem resolve_plus_of_new {t more : SymbolTable} {name : String}
    (h : (t.plus more).lookup name = none) :
    (t.plus more).resolve name = (t.size + more.size, t.plus (t.named more name)) := by
  rw [resolve, h]
  dsimp only [install]
  rw [push_plus]
  rfl

/-! ### Assigning to variables -/

/-- A table and the same one after assignments to variables. -/
structure Assigned (t t' : SymbolTable) : Prop where
  names : t'.names = t.names
  size : t'.size = t.size
  entry : ∀ id, t'.get id = t.get id ∨
    (t.get id).isAssignable ∧ ∃ x, t'.get id = (t.get id).assigned x

theorem Assigned.refl (t : SymbolTable) : t.Assigned t :=
  ⟨rfl, rfl, fun _ => .inl rfl⟩

/-- One more assignment. -/
theorem Assigned.modify {t t' : SymbolTable} (h : t.Assigned t') {id : Nat}
    (hid : (t'.get id).isAssignable) (x : Float) :
    t.Assigned (t'.modify id (Symbol.assigned x)) where
  names := h.names
  size := (size_modify ..).trans h.size
  entry id' := by
    rw [get_modify]
    split
    case isFalse => exact h.entry id'
    case isTrue heq =>
      obtain ⟨rfl, -⟩ := heq
      rcases h.entry id' with hsame | ⟨hold, y, hy⟩
      · rw [hsame] at hid ⊢
        exact .inr ⟨hid, x, rfl⟩
      · rw [hy]
        exact .inr ⟨hold, x, rfl⟩

/-- What is neither a variable nor undefined stays as it is, and nothing becomes
such. -/
theorem Assigned.kind_iff {t t' : SymbolTable} (h : t.Assigned t') {kind : SymbolKind}
    (hvar : kind ≠ .var) (hundefined : kind ≠ .undefined) (id : Nat) :
    (t'.get id).kind = kind ↔ (t.get id).kind = kind := by
  rcases h.entry id with hsame | ⟨hold, x, hx⟩
  · rw [hsame]
  · have hkind : (t.get id).kind = .var ∨ (t.get id).kind = .undefined := by
      simpa [Symbol.isAssignable] using hold
    rw [hx]
    constructor
    · exact fun hc => absurd hc.symm hvar
    · rintro rfl
      rcases hkind with hk | hk
      · exact absurd hk hvar
      · exact absurd hk hundefined

theorem Assigned.code {t t' : SymbolTable} (h : t.Assigned t') (id : Nat) :
    (t'.get id).code = (t.get id).code := by
  rcases h.entry id with hsame | ⟨-, x, hx⟩
  · rw [hsame]
  · rw [hx]
    rfl

/-- Assignments change no name, no text and no literal. -/
theorem Assigned.evolves {t t' : SymbolTable} (h : t.Assigned t') : t.Evolves t' := by
  have hsame : ∀ {α : Type} (f : Symbol → α),
      (∀ s x, f (Symbol.assigned x s) = f s) → ∀ id, f (t'.get id) = f (t.get id) := by
    intro α f hf id
    rcases h.entry id with hid | ⟨-, x, hx⟩
    · rw [hid]
    · rw [hx, hf]
  refine ⟨Nat.le_of_eq h.size.symm, fun _ => hsame _ (fun _ _ => rfl) _,
    fun _ => hsame _ (fun _ _ => rfl) _,
    fun _ => hsame _ (fun _ _ => rfl) _, fun {id} hk => ?_, fun hk => ?_, fun _ hk => ?_⟩
  · refine ⟨(h.kind_iff (by decide) (by decide) id).mpr hk, ?_⟩
    rcases h.entry id with hid | ⟨hassignable, -⟩
    · rw [hid]
    · rw [Symbol.isAssignable, hk] at hassignable
      exact nomatch hassignable
  · exact (h.kind_iff (by decide) (by decide) _).mpr hk
  · exact (h.kind_iff (by decide) (by decide) _).mp hk

section

variable {t t' : SymbolTable} (h : t.Assigned t') (more : SymbolTable)

include h

/-- Names stand for the same places after assignments. -/
theorem Assigned.lookup_plus (name : String) :
    (t'.plus more).lookup name = (t.plus more).lookup name := by
  rw [lookup, lookup, plus, plus, h.names]

theorem Assigned.plus : (t.plus more).Assigned (t'.plus more) where
  names := by
    rw [SymbolTable.plus, SymbolTable.plus, h.names]
  size := by rw [size_plus, size_plus, h.size]
  entry id := by
    rw [get_plus, get_plus, h.size]
    split
    · exact h.entry id
    · exact .inl rfl

/-- A literal gets the same place, whether variables have been assigned to or
not. -/
theorem Assigned.push_plus (s : Symbol) :
    ∃ id more', (t.plus more).push s = (id, t.plus more') ∧
      (t'.plus more).push s = (id, t'.plus more') :=
  ⟨t.size + more.size, (more.push s).2, SymbolTable.push_plus .., by
    rw [SymbolTable.push_plus, h.size]⟩

/-- A name stands for the same place, whether variables have been assigned to or
not. -/
theorem Assigned.resolve_plus (name : String) :
    ∃ id more', (t.plus more).resolve name = (id, t.plus more') ∧
      (t'.plus more).resolve name = (id, t'.plus more') := by
  have hlookup := h.lookup_plus more name
  cases hname : (t.plus more).lookup name with
  | some id =>
    refine ⟨id, more, ?_, ?_⟩
    · rw [resolve, hname]
    · rw [resolve, hlookup, hname]
  | none =>
    refine ⟨t.size + more.size, t.named more name, resolve_plus_of_new hname, ?_⟩
    rw [resolve_plus_of_new (hlookup.trans hname), named, named, h.size]

end

end SymbolTable

end StackCalc
