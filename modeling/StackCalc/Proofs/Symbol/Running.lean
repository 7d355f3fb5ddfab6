import StackCalc.Proofs.Action
import StackCalc.Proofs.Symbol.Evolution

/-!
# Symbol tables while a program runs

A running program changes the symbol table by assigning to variables and by
keeping the last value shown under the name `_`. Both let the table advance and
keep its index of names, and neither changes the kind of a function or
procedure, unless `_` is one (`SymbolTable.Runs`).

The actions here are those of any state that has a symbol table, which `sym`
finds: `Action.Behaves` is what running keeps, and `Action.Guarded` is what an
action keeps that is only run on a symbol that may be assigned to.
-/

namespace StackCalc

/-- A symbol that stands for a function or a procedure. -/
def Symbol.IsCallable (s : Symbol) : Prop :=
  s.kind = .function ∨ s.kind = .procedure

instance (s : Symbol) : Decidable s.IsCallable :=
  inferInstanceAs (Decidable (_ ∨ _))

theorem Symbol.isAssignable_of_var {s : Symbol} (h : s.kind = .var) : s.isAssignable := by
  simp [isAssignable, h]

/-- What may be assigned to is no function or procedure. -/
theorem Symbol.not_isCallable_of_isAssignable {s : Symbol} (h : s.isAssignable) :
    ¬ s.IsCallable := by
  rintro (hk | hk) <;> simp [isAssignable, hk] at h

namespace SymbolTable

/-- Past the end of the table there is no function or procedure. -/
theorem not_isCallable_of_size_le {t : SymbolTable} {id : Nat} (h : t.size ≤ id) :
    ¬ (t.get id).IsCallable := by
  rw [get_of_size_le t h]
  decide

/-- The name of the last value shown stands for no function or procedure. -/
def Plain (t : SymbolTable) : Prop :=
  ∀ id ∈ t.lookup "_", ¬ (t.get id).IsCallable

instance (t : SymbolTable) : Decidable t.Plain :=
  inferInstanceAs (Decidable (∀ id ∈ t.lookup "_", ¬ (t.get id).IsCallable))

/-- What running code keeps. -/
structure Runs (t t' : SymbolTable) : Prop where
  advances : t.Advances t'
  indexed : t.Indexed → t'.Indexed
  plain : t.Plain → t'.Plain
  kind : t.Plain → ∀ {id}, (t.get id).IsCallable → (t'.get id).kind = (t.get id).kind

theorem Runs.refl (t : SymbolTable) : t.Runs t :=
  ⟨Advances.refl t, id, id, fun _ _ _ => rfl⟩

/-- What is kept step by step is kept. -/
theorem Runs.trans {t t' t'' : SymbolTable} (h : t.Runs t') (h' : t'.Runs t'') :
    t.Runs t'' where
  advances := h.advances.trans h'.advances
  indexed hi := h'.indexed (h.indexed hi)
  plain ht := h'.plain (h.plain ht)
  kind ht {id} hc := by
    have hkind := h.kind ht hc
    have hc' : (t'.get id).IsCallable := by
      rw [Symbol.IsCallable, hkind]
      exact hc
    rw [h'.kind (h.plain ht) hc', hkind]

/-- Assigning to a symbol that may be assigned to. -/
theorem harmless_assigned {t : SymbolTable} {id : Nat} (h : (t.get id).isAssignable)
    (x : Float) :
    t.Harmless id (Symbol.assigned x) := by
  have hkind : (t.get id).kind = .var ∨ (t.get id).kind = .undefined := by
    simpa [Symbol.isAssignable] using h
  refine ⟨rfl, rfl, rfl, ?_, ?_, fun hc => (nomatch hc), fun hc => (nomatch hc)⟩
  · intro hc
    rcases hkind with hk | hk <;> exact absurd (hk.symm.trans hc) (by decide)
  · intro hc
    rcases hkind with hk | hk <;> exact absurd (hk.symm.trans hc) (by decide)

/-- Assigning to a symbol makes a variable of it, and it was no function or
procedure. -/
theorem runs_assigned {t : SymbolTable} {id : Nat} (h : (t.get id).isAssignable)
    (x : Float) :
    t.Runs (t.modify id (Symbol.assigned x)) where
  advances := advances_modify (harmless_assigned h x) fun _ => rfl
  indexed hi := hi.modify (harmless_assigned h x)
  plain ht id' hl := by
    rw [get_modify]
    split
    · rintro (hk | hk) <;> exact nomatch hk
    · exact ht id' hl
  kind _ {id'} hc := by
    rw [get_modify]
    split
    case isTrue heq => exact absurd (heq.1 ▸ hc) (Symbol.not_isCallable_of_isAssignable h)
    case isFalse => rfl

/-- A new name changes nothing about functions and procedures. -/
theorem runs_resolve (t : SymbolTable) (name : String) : t.Runs (t.resolve name).2 := by
  rcases resolve_cases t name with ⟨id, -, heq⟩ | ⟨-, heq⟩
  · rw [heq]
    exact Runs.refl t
  · rw [heq]
    refine ⟨heq ▸ t.advances_resolve name, fun hi => heq ▸ hi.resolve name,
      fun ht id hl => ?_, fun _ id hc => ?_⟩
    · rw [get_install]
      split
      · rintro (hk | hk) <;> exact nomatch hk
      case isFalse hne =>
        -- if the new name is `_` itself, its entry is the new one and stands for
        -- nothing yet
        by_cases hname : "_" = name
        · subst hname
          rw [lookup_install_self] at hl
          exact absurd (Option.some.inj hl).symm hne
        · rw [lookup_install_other t _ _ hname] at hl
          exact ht id hl
    · have hlt : id < t.size :=
        lt_size_of_kind (by rcases hc with hk | hk <;> rw [hk] <;> decide)
      rw [get_install, if_neg (Nat.ne_of_lt hlt)]

/-- Keeping the last value shown. -/
theorem runs_shown {t : SymbolTable} (ht : t.Sound) (x : Float) :
    t.Runs ((t.resolve "_").2.modify (t.resolve "_").1 (Symbol.assigned x)) := by
  have hsound := ht.resolve "_"
  have hname := (ht.name_resolve "_").2
  have hharmless : (t.resolve "_").2.Harmless (t.resolve "_").1 (Symbol.assigned x) :=
    hsound.harmless_kind (by rw [hname]; rfl) (fun hk => hsound.builtin_named hk hname)
      (fun hc => nomatch hc) (fun hc => nomatch hc) fun _ => ⟨rfl, rfl, rfl⟩
  refine (t.runs_resolve "_").trans
    ⟨advances_modify hharmless fun _ => rfl, fun hi => hi.modify hharmless, ?_, ?_⟩
  · intro hplain id hl
    rw [get_modify]
    split
    · rintro (hk | hk) <;> exact nomatch hk
    · exact hplain id hl
  · intro hplain id hc
    rw [get_modify]
    split
    -- the entry of `_` is assigned to whatever it stands for; that is why `Plain` is
    -- needed
    case isTrue heq => exact absurd (heq.1 ▸ hc) (hplain _ (lookup_resolve t "_"))
    case isFalse => rfl

end SymbolTable

/-! ### Actions -/

namespace Action

variable {ε σ α β : Type} (sym : σ → SymbolTable)

/-- What the table of a running program keeps. -/
def Behaves (x : EStateM ε σ α) : Prop :=
  Keeps (fun s s' => (sym s).Sound → (sym s).Runs (sym s')) x

/-- What an action keeps when the symbol at `id` may be assigned to. -/
def Guarded (id : Nat) (x : EStateM ε σ α) : Prop :=
  ∀ s, ((sym s).get id).isAssignable → (sym s).Sound → (sym s).Runs (sym (final (x s)))

variable {sym}

theorem steady_runs : Steady fun s s' : σ => (sym s).Sound → (sym s).Runs (sym s') where
  refl s _ := SymbolTable.Runs.refl (sym s)
  trans h h' hs := (h hs).trans (h' ((h hs).advances.sound hs))

theorem Leaves.behaves {x : EStateM ε σ α} (h : Leaves sym x) : Behaves sym x :=
  fun s _ => h s ▸ SymbolTable.Runs.refl (sym s)

theorem Behaves.of_ok {x : EStateM ε σ α} (h : Behaves sym x) {s s' : σ} {a : α}
    (hx : x s = .ok a s') (hs : (sym s).Sound) : (sym s).Runs (sym s') := by
  have hruns := h s hs
  rw [hx] at hruns
  exact hruns

theorem Behaves.bind {x : EStateM ε σ α} {f : α → EStateM ε σ β} (hx : Behaves sym x)
    (hf : ∀ a, Behaves sym (f a)) : Behaves sym (x >>= f) :=
  Keeps.bind steady_runs hx hf

/-- Looking at something first leaves the symbol what it is. -/
theorem Guarded.bind {id : Nat} {x : EStateM ε σ α} {f : α → EStateM ε σ β}
    (hx : Leaves sym x) (hf : ∀ a, Guarded sym id (f a)) : Guarded sym id (x >>= f) := by
  intro s hid hs
  have hfirst := hx s
  rcases bind_cases x f s with ⟨e, s', hx', hrun⟩ | ⟨a, s', hx', hrun⟩
  · rw [hx'] at hfirst
    have heq : sym s' = sym s := hfirst
    rw [hrun, ← heq]
    exact SymbolTable.Runs.refl _
  · rw [hx'] at hfirst
    have heq : sym s' = sym s := hfirst
    rw [hrun, ← heq]
    exact hf a s' (heq ▸ hid) (heq ▸ hs)

/-- An assignment, and what comes after it. -/
theorem guarded_assign {id : Nat} {x : Float} {f : σ → σ} {g : EStateM ε σ α}
    (hf : ∀ s, sym (f s) = (sym s).modify id (Symbol.assigned x)) (hg : Behaves sym g) :
    Guarded sym id (modify f >>= fun _ => g) := by
  intro s hid hs
  have hruns : (sym s).Runs (sym (f s)) := hf s ▸ SymbolTable.runs_assigned hid x
  exact hruns.trans (hg (f s) (hruns.advances.sound hs))

end Action

end StackCalc
