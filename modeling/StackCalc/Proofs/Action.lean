/-!
# Actions

Parsers, generators and machines are all actions that take a state and end with
a result or an error, either way in a new state. The equations here run an
action on a given state, one step at a time. Some properties of actions carry
over to sequences:

- `Action.Approx e x y`: wherever `x` does not end with the error `e`, it does
  what `y` does. With `e` for having used up all rounds, more rounds change no
  other result.
- `Action.Keeps R x`: the state in which `x` ends is related by `R` to the one
  it started in.
- `Action.Leaves view x`: what `view` shows of the state is the same at the end
  as at the start.
- `Action.Mirrors R Q x y`: wherever `x` succeeds, `y` does so from a state
  related by `R`, with the same result and in states related by `Q`.
- `Action.Paired R r r'`: two results are the same but for their states, which
  are related by `R`.
-/

namespace StackCalc

namespace Action

variable {ε σ α β : Type}

@[simp] theorem get_apply (s : σ) : (get : EStateM ε σ σ) s = .ok s s :=
  rfl

@[simp] theorem modifyGet_apply (f : σ → α × σ) (s : σ) :
    (modifyGet f : EStateM ε σ α) s = .ok (f s).1 (f s).2 :=
  rfl

/-- A sequence goes on where its first action ended, unless that failed. -/
theorem bind_of_ok {x : EStateM ε σ α} {f : α → EStateM ε σ β} {s s' : σ} {a : α}
    (h : x s = .ok a s') : (x >>= f) s = f a s' := by
  show EStateM.bind x f s = f a s'
  rw [EStateM.bind, h]

/-- A sequence whose first action fails ends there: the second one is not run. -/
theorem bind_of_error {x : EStateM ε σ α} {f : α → EStateM ε σ β} {s s' : σ} {e : ε}
    (h : x s = .error e s') : (x >>= f) s = .error e s' := by
  show EStateM.bind x f s = .error e s'
  rw [EStateM.bind, h]

/-- The result of a sequence by cases on the result of its first action. -/
theorem bind_apply (x : EStateM ε σ α) (f : α → EStateM ε σ β) (s : σ) :
    (x >>= f) s =
      match x s with
      | .ok a s' => f a s'
      | .error e s' => .error e s' :=
  rfl

/-- Actions with the same result go on alike. -/
theorem bind_congr {x y : EStateM ε σ α} {s s' : σ} (h : x s = y s')
    (f : α → EStateM ε σ β) :
    (x >>= f) s = (y >>= f) s' := by
  rw [bind_apply, bind_apply, h]

/-- A sequence ends where its first action fails, or goes on where that one
ended. -/
theorem bind_cases (x : EStateM ε σ α) (f : α → EStateM ε σ β) (s : σ) :
    (∃ e s', x s = .error e s' ∧ (x >>= f) s = .error e s') ∨
      ∃ a s', x s = .ok a s' ∧ (x >>= f) s = f a s' := by
  cases hrun : x s with
  | error e s' => exact .inl ⟨e, s', rfl, bind_of_error hrun⟩
  | ok a s' => exact .inr ⟨a, s', rfl, bind_of_ok hrun⟩

/-- A sequence that succeeds does so in both parts. -/
theorem of_bind_ok {x : EStateM ε σ α} {f : α → EStateM ε σ β} {s s' : σ} {b : β}
    (h : (x >>= f) s = .ok b s') : ∃ a s₁, x s = .ok a s₁ ∧ f a s₁ = .ok b s' := by
  rcases bind_cases x f s with ⟨e, s₁, -, herror⟩ | ⟨a, s₁, hfirst, hrest⟩
  · exact nomatch herror.symm.trans h
  · exact ⟨a, s₁, hfirst, hrest.symm.trans h⟩

/-- Goes on with a result, unless it is an error. -/
def andThen (r : EStateM.Result ε σ α) (f : α → EStateM ε σ β) : EStateM.Result ε σ β :=
  match r with
  | .ok a s => f a s
  | .error e s => .error e s

theorem andThen_pure (r : EStateM.Result ε σ α) : andThen r pure = r := by
  cases r <;> rfl

/-! ### More rounds -/

/-- Wherever `x` does not end with the error `e`, it does what `y` does. -/
def Approx (e : ε) (x y : EStateM ε σ α) : Prop :=
  ∀ s, (∃ s', x s = .error e s') ∨ x s = y s

namespace Approx

variable {e : ε}

theorem refl (x : EStateM ε σ α) : Approx e x x :=
  fun _ => .inr rfl

theorem throw (y : EStateM ε σ α) : Approx e (throw e) y :=
  fun s => .inl ⟨s, rfl⟩

/-- Both parts of a sequence may run out of rounds, and either way so does the
whole. -/
theorem bind {x x' : EStateM ε σ α} {f f' : α → EStateM ε σ β} (hx : Approx e x x')
    (hf : ∀ a, Approx e (f a) (f' a)) : Approx e (x >>= f) (x' >>= f') := by
  intro s
  rcases hx s with ⟨s', h⟩ | h
  · exact .inl ⟨s', bind_of_error h⟩
  · -- both sides end alike, so the same action follows or none
    cases hrun : x s with
    | error e' s' => exact .inr (by rw [bind_of_error hrun, bind_of_error (h ▸ hrun)])
    | ok a s' =>
      rw [bind_of_ok hrun, bind_of_ok (h ▸ hrun)]
      exact hf a s'

/-- A result other than the error `e` is the same on both sides. -/
theorem eq_of_ne {x y : EStateM ε σ α} (h : Approx e x y) {s : σ}
    (hne : ∀ s', x s ≠ .error e s') : y s = x s := by
  rcases h s with ⟨s', hs⟩ | hs
  · exact absurd hs (hne s')
  · exact hs.symm

end Approx

/-! ### What stays true of the state -/

/-- The state of a result. -/
def final : EStateM.Result ε σ α → σ
  | .ok _ s => s
  | .error _ s => s

/-- Whether a result is a success. -/
def succeeds : EStateM.Result ε σ α → Bool
  | .ok _ _ => true
  | .error _ _ => false

theorem exists_of_succeeds {r : EStateM.Result ε σ α} (h : succeeds r) :
    ∃ a s, r = .ok a s := by
  cases r with
  | ok a s => exact ⟨a, s, rfl⟩
  | error e s => exact nomatch h

/-- What a result fails with. -/
def failure? : EStateM.Result ε σ α → Option ε
  | .ok _ _ => none
  | .error e _ => some e

theorem eq_error_of_failure? {r : EStateM.Result ε σ α} {e : ε}
    (h : failure? r = some e) :
    r = .error e (final r) := by
  cases r with
  | ok a s => cases h
  | error e' s =>
    cases h
    rfl

/-- The state in which an action ends is related to the one it started in. -/
def Keeps (R : σ → σ → Prop) (x : EStateM ε σ α) : Prop :=
  ∀ s, R s (final (x s))

/-- A relation that holds between the states of longer and longer runs. -/
structure Steady (R : σ → σ → Prop) : Prop where
  refl : ∀ s, R s s
  trans : ∀ {s s' s''}, R s s' → R s' s'' → R s s''

namespace Keeps

variable {R : σ → σ → Prop}

/-- What two actions keep, their sequence keeps, if the relation is transitive. -/
theorem bind (hR : Steady R) {x : EStateM ε σ α} {f : α → EStateM ε σ β} (hx : Keeps R x)
    (hf : ∀ a, Keeps R (f a)) : Keeps R (x >>= f) := by
  intro s
  have hfirst := hx s
  rcases bind_cases x f s with ⟨e, s', hx', hrun⟩ | ⟨a, s', hx', hrun⟩
  · rw [hx'] at hfirst
    rw [hrun]
    exact hfirst
  · rw [hx'] at hfirst
    rw [hrun]
    exact hR.trans hfirst (hf a s')

end Keeps

/-- An action does not change what `view` shows of the state. -/
def Leaves {τ : Type} (view : σ → τ) (x : EStateM ε σ α) : Prop :=
  ∀ s, view (final (x s)) = view s

namespace Leaves

variable {τ : Type} {view : σ → τ}

/-- What neither part of a sequence changes, the sequence does not change. -/
theorem bind {x : EStateM ε σ α} {f : α → EStateM ε σ β} (hx : Leaves view x)
    (hf : ∀ a, Leaves view (f a)) : Leaves view (x >>= f) := by
  intro s
  have hfirst := hx s
  rcases bind_cases x f s with ⟨e, s', hx', hrun⟩ | ⟨a, s', hx', hrun⟩
  · rw [hx'] at hfirst
    rw [hrun]
    exact hfirst
  · rw [hx'] at hfirst
    rw [hrun, hf a s']
    exact hfirst

/-- An action that leaves the whole state alone. -/
theorem of_all {x : EStateM ε σ α} (h : Leaves (fun s => s) x) : Leaves view x :=
  fun s => congrArg view (h s)

theorem eq_of_ok {x : EStateM ε σ α} (h : Leaves view x) {s s' : σ} {a : α}
    (hx : x s = .ok a s') : view s' = view s := by
  have hs := h s
  rw [hx] at hs
  exact hs

end Leaves

/-! ### Actions on related states -/

/-- Wherever `x` succeeds, `y` does so from a related state, with the same
result. -/
def Mirrors (R Q : σ → σ → Prop) (x y : EStateM ε σ α) : Prop :=
  ∀ s t a s', R s t → x s = .ok a s' → ∃ t', y t = .ok a t' ∧ Q s' t'

namespace Mirrors

variable {R Q P : σ → σ → Prop}

theorem pure (h : ∀ s t, R s t → Q s t) (a : α) :
    Mirrors R Q (pure a : EStateM ε σ α) (pure a) := by
  rintro s t b s' hR ⟨⟩
  exact ⟨t, rfl, h s t hR⟩

/-- Of an action that fails there is nothing to mirror. -/
theorem of_error {x y : EStateM ε σ α} (h : ∀ s, ∃ e s', x s = .error e s') :
    Mirrors R Q x y := by
  intro s t a s' _ hx
  obtain ⟨e, s'', herror⟩ := h s
  exact nomatch herror.symm.trans hx

/-- Sequences are mirrored part by part. The relation between the two states in
the middle is the one that the first parts end with and the second ones start
from. -/
theorem bind {x y : EStateM ε σ α} {f g : α → EStateM ε σ β} (hx : Mirrors R Q x y)
    (hf : ∀ a, Mirrors Q P (f a) (g a)) : Mirrors R P (x >>= f) (y >>= g) := by
  intro s t b s' hR hrun
  obtain ⟨a, s₁, hfirst, hrest⟩ := of_bind_ok hrun
  obtain ⟨t₁, hfirst', hQ⟩ := hx _ _ _ _ hR hfirst
  obtain ⟨t', hrest', hP⟩ := hf a _ _ _ _ hQ hrest
  exact ⟨t', (bind_of_ok hfirst').trans hrest', hP⟩

/-- The relation at the start may be stronger, and the one at the end weaker. -/
theorem mono {R' Q' : σ → σ → Prop} {x y : EStateM ε σ α} (h : Mirrors R Q x y)
    (hR : ∀ s t, R' s t → R s t) (hQ : ∀ s t, Q s t → Q' s t) : Mirrors R' Q' x y := by
  intro s t a s' hs hx
  obtain ⟨t', hy, ht⟩ := h _ _ _ _ (hR s t hs) hx
  exact ⟨t', hy, hQ _ _ ht⟩

/-- What the first action makes true of its state, beside the relation. -/
theorem also {P : σ → Prop} {x y : EStateM ε σ α} (h : Mirrors R Q x y)
    (hP : ∀ s a s', x s = .ok a s' → P s') : Mirrors R (fun s t => Q s t ∧ P s) x y := by
  intro s t a s' hs hx
  obtain ⟨t', hy, ht⟩ := h _ _ _ _ hs hx
  exact ⟨t', hy, ht, hP _ _ _ hx⟩

/-- What the first action leaves true of its state, beside the relation. -/
theorem keeping {P : σ → Prop} {x y : EStateM ε σ α} (h : Mirrors R Q x y)
    (hP : ∀ s a s', x s = .ok a s' → P s → P s') :
    Mirrors (fun s t => R s t ∧ P s) (fun s t => Q s t ∧ P s) x y := by
  rintro s t a s' ⟨hs, hPs⟩ hx
  obtain ⟨t', hy, ht⟩ := h _ _ _ _ hs hx
  exact ⟨t', hy, ht, hP _ _ _ hx hPs⟩

/-- An action whose result is a function of that of another one. -/
theorem map {x y : EStateM ε σ α} (h : Mirrors R Q x y) (f : α → β) :
    Mirrors R Q (x >>= fun a => Pure.pure (f a)) (y >>= fun a => Pure.pure (f a)) :=
  h.bind fun a => pure (fun _ _ hQ => hQ) (f a)

end Mirrors

/-! ### Results in related states -/

/-- The same value or error, in related states. -/
inductive Paired (R : σ → σ → Prop) : EStateM.Result ε σ α → EStateM.Result ε σ α → Prop
  | ok {a : α} {s s' : σ} (h : R s s') : Paired R (.ok a s) (.ok a s')
  | error {e : ε} {s s' : σ} (h : R s s') : Paired R (.error e s) (.error e s')

namespace Paired

variable {R : σ → σ → Prop} {r r' : EStateM.Result ε σ α}

/-- Going on in related states. -/
theorem andThen {f g : α → EStateM ε σ β} (h : Paired R r r')
    (hf : ∀ {a s s'}, r = .ok a s → R s s' → Paired R (f a s) (g a s')) :
    Paired R (Action.andThen r f) (Action.andThen r' g) := by
  cases h with
  | ok h => exact hf rfl h
  | error h => exact .error h

end Paired

end Action

end StackCalc
