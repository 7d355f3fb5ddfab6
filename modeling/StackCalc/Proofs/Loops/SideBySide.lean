import StackCalc.Proofs.Simulation.Twins

/-!
# Machines that run side by side

Two machines run different code that is to do the same. `Abreast` relates their
states: the second machine is the first one but for the place in the code, the
places to return to and the places where the bodies of definitions lie.
`Machine.placeless` is what is left of a machine without those, and two machines
that are abreast show the same of it.

`Exec.InStep P Q x y` is a judgement on two actions. From states related by `P`
both end with the same result in states related by `Q`, or both fail in the same
way and show the same. The first one may also be cut short, for want of levels
of nesting or by an interrupt; of the second one nothing is said then.

One statement for each instruction says that it keeps machines in step, whatever
its operands are.
-/

namespace StackCalc

/-! ### Bodies that lie elsewhere -/

/-- The symbol with its body at another place. -/
def Symbol.moved (moves : Nat → Nat) (s : Symbol) : Symbol :=
  { s with code := s.code.map moves }

namespace SymbolTable

/-- The table with all bodies at other places. -/
def moved (moves : Nat → Nat) (t : SymbolTable) : SymbolTable :=
  { t with entries := t.entries.map (Symbol.moved moves) }

variable (moves moves' : Nat → Nat) (t : SymbolTable)

theorem get_moved (id : Nat) : (t.moved moves).get id = (t.get id).moved moves := by
  simp only [get, moved, Array.getD_eq_getD_getElem?, Array.getElem?_map]
  cases t.entries[id]? <;> rfl

theorem moved_moved : (t.moved moves).moved moves' = t.moved (moves' ∘ moves) := by
  simp only [moved, Array.map_map, mk.injEq, and_true]
  refine Array.map_congr_left fun s _ => ?_
  simp [Symbol.moved]

theorem moved_id : t.moved id = t := by
  have hsymbol : Symbol.moved id = id := by
    funext s
    simp [Symbol.moved]
  simp [moved, hsymbol]

/-- A change of a symbol that does not depend on where its body lies may come
before or after the move. -/
theorem modify_moved {f f' : Symbol → Symbol}
    (hf : ∀ s, f' (s.moved moves) = (f s).moved moves) (id : Nat) :
    (t.moved moves).modify id f' = (t.modify id f).moved moves := by
  refine congrArg (SymbolTable.mk · t.names) (Array.ext_getElem? fun i => ?_)
  show ((t.entries.map (Symbol.moved moves)).modify id f')[i]? =
    ((t.entries.modify id f).map (Symbol.moved moves))[i]?
  rw [Array.getElem?_modify, Array.getElem?_map, Array.getElem?_map,
    Array.getElem?_modify]
  split
  · cases t.entries[i]? with
    | none => rfl
    | some s => exact congrArg some (hf s)
  · rfl

/-- Names are found, or added, at the same place in both tables. -/
theorem resolve_moved (name : String) :
    (t.moved moves).resolve name =
      ((t.resolve name).1, (t.resolve name).2.moved moves) := by
  have hlookup : (t.moved moves).lookup name = t.lookup name := rfl
  rw [resolve, resolve, hlookup]
  cases t.lookup name with
  | some id => rfl
  | none =>
    -- the new entry has no body to be moved
    simp [install, push, moved, size, Symbol.moved]

end SymbolTable

/-! ### What machines show -/

namespace Machine

/-- The machine with bodies and frames at other places, itself at `pc`. -/
def moved (m : Machine) (moves : Nat → Nat) (frames : Array Frame) (pc : Nat) : Machine :=
  { m with symbols := m.symbols.moved moves, frames := ⟨frames⟩, pc }

/-- What a machine shows whatever places its code lies at: of a body that there
is one, of a frame all but the place to return to. -/
def placeless (m : Machine) : Machine :=
  m.moved (fun _ => 0) (m.frames.items.map Frame.bare) 0

/-- Where the frames differ in the places to return to only, both machines show
the same. -/
theorem placeless_moved {m : Machine} {moves : Nat → Nat} {F : Array Frame} {pc : Nat}
    (hF : F.map Frame.bare = m.frames.items.map Frame.bare) :
    (m.moved moves F pc).placeless = m.placeless := by
  have hsymbols : (m.symbols.moved moves).moved (fun _ => 0) =
      m.symbols.moved fun _ => 0 :=
    SymbolTable.moved_moved ..
  simp only [placeless, moved, hsymbols, hF]

end Machine

/-! ### Results that match -/

/-- There was no level of nesting left, or the run saw an interrupt. -/
def Halt.CutsShort : Halt → Prop
  | .fault f => f.kind = .nestedTooDeeply ∨ f.kind = .interrupted
  | .outOfFuel => False

theorem Halt.cutsShort_interrupted : Halt.CutsShort (.fault { kind := .interrupted }) :=
  .inr rfl

theorem Halt.cutsShort_nestedTooDeeply :
    Halt.CutsShort (.fault { kind := .nestedTooDeeply }) :=
  .inl rfl

/-- The results of two runs: the same, unless the first one was cut short. -/
inductive Matched {α : Type} (Q : Machine → Machine → Prop) :
    EStateM.Result Halt Machine α → EStateM.Result Halt Machine α → Prop
  | cut {e : Halt} {m : Machine} (h : e.CutsShort) (r : EStateM.Result Halt Machine α) :
    Matched Q (.error e m) r
  | ok {a : α} {m m' : Machine} (h : Q m m') : Matched Q (.ok a m) (.ok a m')
  | error {e : Halt} {m m' : Machine} (h : m'.placeless = m.placeless) :
    Matched Q (.error e m) (.error e m')

namespace Matched

variable {α β : Type} {Q Q' R : Machine → Machine → Prop}
  {r r' : EStateM.Result Halt Machine α}

/-- Less may be said of the states in which both succeed. -/
theorem mono (h : Matched Q r r') (hQ : ∀ m m', Q m m' → Q' m m') : Matched Q' r r' := by
  cases h with
  | cut he => exact .cut he _
  | ok hq => exact .ok (hQ _ _ hq)
  | error hp => exact .error hp

theorem andThen {f g : α → Exec β} (h : Matched Q r r')
    (hf : ∀ {a m m'}, Q m m' → Matched R (f a m) (g a m')) :
    Matched R (Action.andThen r f) (Action.andThen r' g) := by
  cases h with
  | cut he => exact .cut he _
  | ok hq => exact hf hq
  | error hp => exact .error hp

end Matched

namespace Exec

/-- From related states two actions have results that match. -/
def InStep {α : Type} (P Q : Machine → Machine → Prop) (x y : Exec α) : Prop :=
  ∀ m m', P m m' → Matched Q (x m) (y m')

namespace InStep

variable {α β : Type} {P P' Q Q' R : Machine → Machine → Prop} {x y : Exec α}
  {f g : α → Exec β}

/-- More may be asked of the states at the start, and less said of those at the
end. -/
theorem mono (h : InStep P Q x y) (hP : ∀ m m', P' m m' → P m m')
    (hQ : ∀ m m', Q m m' → Q' m m') :
    InStep P' Q' x y :=
  fun m m' hm => (h m m' (hP m m' hm)).mono hQ

/-- Actions in step may follow each other. Where the first one is cut short, so
is the sequence. -/
theorem bind (h : InStep P Q x y) (hf : ∀ a, InStep Q R (f a) (g a)) :
    InStep P R (x >>= f) (y >>= g) :=
  fun m m' hm => (h m m' hm).andThen fun hq => hf _ _ _ hq

/-- An action whose result is a function of that of another one. -/
theorem map (h : InStep P Q x y) (f : α → β) :
    InStep P Q (x >>= fun a => pure (f a)) (y >>= fun a => pure (f a)) :=
  h.bind fun _ _ _ hq => .ok hq

/-- Either of two relations will do. -/
theorem or (h : InStep P Q x y) (h' : InStep P' Q x y) :
    InStep (fun m m' => P m m' ∨ P' m m') Q x y := by
  intro m m' hm
  exact hm.elim (h m m') (h' m m')

end InStep

end Exec

/-! ### Machines abreast -/

/-- Where the bodies of definitions lie for two machines. -/
structure Placement where
  /-- The addresses where the first machine has bodies. -/
  bodies : Nat → Prop
  /-- Where the second machine has the body that the first one has at an address. -/
  moves : Nat → Nat

/-- The calls that two machines are in. -/
structure Pairing where
  /-- The calls that have not returned. -/
  frames : Array Frame
  /-- The same calls in the second machine. -/
  frames' : Array Frame
  bare : frames'.map Frame.bare = frames.map Frame.bare

/-- The second machine is the first one with other places; the first one is at
`p` and the second one at `p'`. -/
structure Abreast (u : Placement) (c : Pairing) (returning : Bool) (p p' : Nat)
    (m m' : Machine) :
    Prop where
  other : m' = m.moved u.moves c.frames' p'
  pc : m.pc = p
  frames : m.frames = ⟨c.frames⟩
  flag : m.returning = returning
  bodies : ∀ id a, (m.symbols.get id).code = some a → u.bodies a

namespace Pairing

/-- The pairing without the calls on top. -/
def popped (c : Pairing) : Pairing where
  frames := c.frames.pop
  frames' := c.frames'.pop
  bare := by rw [Array.map_pop, Array.map_pop, c.bare]

/-- The pairing inside a call. -/
def within (c : Pairing) (id k height p p' : Nat) : Pairing where
  frames := c.frames.push ⟨id, k, p, height⟩
  frames' := c.frames'.push ⟨id, k, p', height⟩
  bare := by
    rw [Array.map_push, Array.map_push, c.bare]
    rfl

theorem popped_within (c : Pairing) (id k height p p' : Nat) :
    (c.within id k height p p').popped = c := by
  simp [popped, within]

theorem size_frames (c : Pairing) : c.frames'.size = c.frames.size := by
  simpa using congrArg Array.size c.bare

/-- The frames on top of both differ only in the place to return to. -/
structure Top (c : Pairing) (f : Frame) (r : Nat) : Prop where
  top : c.frames.back? = some f
  top' : c.frames'.back? = some { f with resume := r }

/-- Either both machines are outside of calls, or the frames on top belong to
the same call. -/
theorem top_cases (c : Pairing) :
    (c.frames.back? = none ∧ c.frames'.back? = none) ∨ ∃ f r, c.Top f r := by
  -- taking the top of the stack and leaving out a place may be exchanged
  have hmap : ∀ F : Array Frame, F.back?.map Frame.bare = (F.map Frame.bare).back? :=
    fun F => by
    simp [Array.back?]
  have hback : c.frames'.back?.map Frame.bare = c.frames.back?.map Frame.bare := by
    rw [hmap, hmap, c.bare]
  cases htop : c.frames.back? with
  | none =>
    rw [htop] at hback
    exact .inl ⟨rfl, Option.map_eq_none_iff.mp hback⟩
  | some f =>
    rw [htop] at hback
    obtain ⟨f', hf', hbare⟩ := Option.map_eq_some_iff.mp hback
    refine .inr ⟨f, f'.resume, htop, hf'.trans (congrArg some ?_)⟩
    obtain ⟨_, _, _, _⟩ := f
    obtain ⟨_, _, _, _⟩ := f'
    simp only [Frame.bare, Frame.mk.injEq] at hbare
    obtain ⟨rfl, rfl, -, rfl⟩ := hbare
    rfl

end Pairing

/-- Both machines have returned from the call on top. -/
def Left (u : Placement) (c : Pairing) (m m' : Machine) : Prop :=
  ∃ f r, c.Top f r ∧ Abreast u c.popped true f.resume r m m'

/-- Two machines after a statement: at its end, or with a return under way. -/
def Past (u : Placement) (c : Pairing) (p p' : Nat) (m m' : Machine) : Prop :=
  Abreast u c false p p' m m' ∨ Left u c m m'

section

variable {u : Placement} {c : Pairing} {b : Bool} {p p' : Nat} {m m' : Machine}

/-- Machines that are abreast show the same. -/
theorem Abreast.shows (h : Abreast u c b p p' m m') : m'.placeless = m.placeless := by
  rw [h.other]
  refine Machine.placeless_moved ?_
  rw [h.frames]
  exact c.bare

theorem Abreast.get (h : Abreast u c b p p' m m') (id : Nat) :
    m'.symbols.get id = (m.symbols.get id).moved u.moves := by
  rw [h.other]
  exact SymbolTable.get_moved ..

theorem Abreast.flag' (h : Abreast u c b p p' m m') : m'.returning = b := by
  rw [h.other]
  exact h.flag

theorem Left.under_way (h : Left u c m m') :
    m.returning = true ∧ m'.returning = true := by
  obtain ⟨_, _, -, h⟩ := h
  exact ⟨h.flag, h.flag'⟩

/-- After a statement both machines show the same, with a return under way or
not. -/
theorem Past.shows (h : Past u c p p' m m') : m'.placeless = m.placeless := by
  rcases h with h | ⟨_, _, -, h⟩
  · exact h.shows
  · exact h.shows

end

namespace Exec

variable {α : Type} {u : Placement} {c : Pairing} {b : Bool} {p p' : Nat} {job job' : Job}
  {Q : Machine → Machine → Prop}

/-! ### Single actions -/

theorem inStep_pure (a : α) : InStep Q Q (pure a) (pure a) :=
  fun _ _ h => .ok h

/-- Both fail alike, and show the same. -/
theorem inStep_throw (e : Halt) :
    InStep (Abreast u c b p p') Q (throw e : Exec α) (throw e) :=
  fun _ _ h => .error h.shows

theorem inStep_fail (kind : FaultKind) (note : String) :
    InStep (Abreast u c b p p') Q (fail kind note : Exec α) (fail kind note) :=
  inStep_throw _

theorem inStep_internal (note : String) :
    InStep (Abreast u c b p p') Q (internal note : Exec α) (internal note) :=
  inStep_throw _

theorem inStep_ofExcept (r : Except Fault α) :
    InStep (Abreast u c b p p') (Abreast u c b p p') (ofExcept r) (ofExcept r) := by
  cases r with
  | ok a => exact inStep_pure a
  | error f => exact inStep_throw _

/-- The stacks of values are the same. -/
theorem inStep_onStack (act : EStateM Fault (Stack Datum) α) :
    InStep (Abreast u c b p p') (Abreast u c b p p') (onStack act) (onStack act) := by
  rintro m _ h
  obtain rfl := h.other
  have hmoved : ∀ S, Abreast u c b p p' { m with stack := S }
      { m.moved u.moves c.frames' p' with stack := S } := fun S =>
    ⟨rfl, h.pc, h.frames, h.flag, h.bodies⟩
  have hstack : (m.moved u.moves c.frames' p').stack = m.stack := rfl
  rw [onStack, onStack, hstack]
  cases act m.stack with
  | ok a S => exact .ok (hmoved S)
  | error f S => exact .error (hmoved S).shows

theorem inStep_pushDatum (hlimits : job'.limits = job.limits) (d : Datum) :
    InStep (Abreast u c b p p') (Abreast u c b p p') (pushDatum job d)
      (pushDatum job' d) := by
  rw [pushDatum, pushDatum, hlimits]
  exact inStep_onStack _

theorem inStep_push (hlimits : job'.limits = job.limits) (x : Float) :
    InStep (Abreast u c b p p') (Abreast u c b p p') (push job x) (push job' x) :=
  inStep_pushDatum hlimits _

theorem inStep_pop : InStep (Abreast u c b p p') (Abreast u c b p p') pop pop :=
  (inStep_onStack Stack.pop).map _

/-- The operand is the same for both, whatever it is. -/
theorem inStep_operand (hcell : job'.cells[p']? = job.cells[p]?) :
    InStep (Abreast u c b p p') (Abreast u c b (p + 1) (p' + 1)) (operand job)
      (operand job') := by
  rintro m _ h
  obtain rfl := h.other
  obtain rfl := h.pc
  have hcell' : job'.cells[(m.moved u.moves c.frames' p').pc]? = job.cells[m.pc]? := hcell
  rw [operand, operand, Action.bind_of_ok (Action.get_apply m),
    Action.bind_of_ok (Action.get_apply _), hcell']
  cases job.cells[m.pc]? with
  | none => exact .error h.shows
  | some cell => exact .ok ⟨rfl, rfl, h.frames, h.flag, h.bodies⟩

/-- The symbol that follows is the same for both, or there is none for either. -/
theorem inStep_symbolOperand (hcell : job'.cells[p']? = job.cells[p]?) :
    InStep (Abreast u c b p p') (Abreast u c b (p + 1) (p' + 1)) (symbolOperand job)
      (symbolOperand job') := by
  refine (inStep_operand hcell).bind fun cell => ?_
  cases cell with
  | symbol id => exact inStep_pure id
  | _ => exact inStep_internal _

/-- The count that follows is the same for both. -/
theorem inStep_countOperand (hcell : job'.cells[p']? = job.cells[p]?) :
    InStep (Abreast u c b p p') (Abreast u c b (p + 1) (p' + 1)) (countOperand job)
      (countOperand job') := by
  refine (inStep_operand hcell).bind fun cell => ?_
  cases cell with
  | count n => exact inStep_pure n
  | _ => exact inStep_internal _

/-- What follows may see where the body of a symbol lies. -/
theorem inStep_symbol (id : Nat) {f g : Symbol → Exec α}
    (hf : ∀ s, (∀ a, s.code = some a → u.bodies a) →
      InStep (Abreast u c b p p') Q (f s) (g (s.moved u.moves))) :
    InStep (Abreast u c b p p') Q (symbol id >>= f) (symbol id >>= g) := by
  intro m m' h
  rw [Action.bind_of_ok (symbol_apply id m),
    Action.bind_of_ok (symbol_apply id m'), h.get]
  exact hf _ (h.bodies id) m m' h

theorem inStep_failAbout (kind : FaultKind) (id : Nat) :
    InStep (Abreast u c b p p') Q (failAbout kind id : Exec α) (failAbout kind id) :=
  inStep_symbol id fun s _ => inStep_fail kind s.label

/-- What is checked of a symbol does not depend on where its body lies. -/
theorem inStep_verify (id : Nat) :
    InStep (Abreast u c b p p') (Abreast u c b p p') (verify id) (verify id) := by
  refine inStep_symbol id fun s _ => ?_
  have hkind : (s.moved u.moves).kind = s.kind := rfl
  rw [hkind]
  cases s.kind with
  | var => exact inStep_pure ()
  | _ => exact inStep_failAbout _ id

/-- Whether a symbol may be assigned to does not depend on where its body lies. -/
theorem inStep_verifyAssignable (id : Nat) :
    InStep (Abreast u c b p p') (Abreast u c b p p') (verifyAssignable id)
      (verifyAssignable id) := by
  refine inStep_symbol id fun s _ => ?_
  have hassignable : (s.moved u.moves).isAssignable = s.isAssignable := rfl
  rw [hassignable]
  split
  · exact inStep_pure ()
  · exact inStep_failAbout _ id

/-- Changing the symbols in the same way on both sides, with no body changed. -/
theorem inStep_symbols {f : SymbolTable → SymbolTable}
    (hmoved : ∀ t, f (t.moved u.moves) = (f t).moved u.moves)
    (hcode : ∀ t, SymbolTable.SameCode t (f t)) :
    InStep (Abreast u c b p p') (Abreast u c b p p')
      (modify fun m => { m with symbols := f m.symbols })
      (modify fun m => { m with symbols := f m.symbols }) := by
  rintro m _ h
  obtain rfl := h.other
  refine .ok ⟨?_, h.pc, h.frames, h.flag, fun id a ha => h.bodies id a ?_⟩
  · show { m.moved u.moves c.frames' p' with symbols := f (m.symbols.moved u.moves) } = _
    rw [hmoved]
    rfl
  · exact (hcode m.symbols id).symm.trans ha

theorem inStep_assign (id : Nat) (x : Float) :
    InStep (Abreast u c b p p') (Abreast u c b p p') (assign id x) (assign id x) :=
  inStep_symbols (f := fun t => t.modify id (Symbol.assigned x))
    (fun t => t.modify_moved u.moves (f := Symbol.assigned x) (fun _ => rfl) id) fun t =>
      t.sameCode_modify id fun _ => rfl

/-- Both write the same, and an interrupt that is to arrive with the write
arrives at both. -/
theorem inStep_print (w : Write) :
    InStep (Abreast u c b p p') (Abreast u c b p p') (print w) (print w) := by
  rintro m _ h
  obtain rfl := h.other
  -- the write changes the console, and the flag for interrupts if one is due
  have hwrite : (m.moved u.moves c.frames' p').write w =
      (m.write w).moved u.moves c.frames' p' := by
    unfold Machine.write Machine.moved
    dsimp only
    split <;> rfl
  have hsame : (m.write w).pc = m.pc ∧ (m.write w).frames = m.frames ∧
      (m.write w).returning = m.returning ∧ (m.write w).symbols = m.symbols := by
    unfold Machine.write
    dsimp only
    split <;> exact ⟨rfl, rfl, rfl, rfl⟩
  obtain ⟨hpc, hframes, hreturning, hsymbols⟩ := hsame
  refine .ok ⟨hwrite, hpc.trans h.pc, hframes.trans h.frames, hreturning.trans h.flag, ?_⟩
  show ∀ id a, ((m.write w).symbols.get id).code = some a → u.bodies a
  rw [hsymbols]
  exact h.bodies

theorem inStep_readLine :
    InStep (Abreast u c b p p') (Abreast u c b p p') readLine readLine := by
  rintro m _ h
  obtain rfl := h.other
  exact .ok ⟨rfl, h.pc, h.frames, h.flag, h.bodies⟩

/-- What follows may look at the states that both are in. -/
theorem inStep_get {f g : Machine → Exec α}
    (hf : ∀ m, m.frames = ⟨c.frames⟩ → m.pc = p →
      InStep (Abreast u c b p p') Q (f m) (g (m.moved u.moves c.frames' p'))) :
    InStep (Abreast u c b p p') Q (get >>= f) (get >>= g) := by
  rintro m _ h
  obtain rfl := h.other
  exact hf m h.frames h.pc _ _ h

/-! ### The call at hand -/

theorem frame_of_none {m : Machine} {F : Array Frame} (hF : m.frames = ⟨F⟩)
    (htop : F.back? = none) :
    frame m = (internal "return outside call" : Exec Frame) m := by
  rw [frame, Action.bind_of_ok (Action.get_apply m), hF, Stack.top?, htop]

theorem frame_of_some {m : Machine} {F : Array Frame} {f : Frame} (hF : m.frames = ⟨F⟩)
    (htop : F.back? = some f) : frame m = .ok f m := by
  rw [frame, Action.bind_of_ok (Action.get_apply m), hF, Stack.top?, htop]
  rfl

/-- Both look at the frame on top. -/
theorem inStep_frame {f g : Frame → Exec α}
    (hf : ∀ fr r, c.Top fr r →
      InStep (Abreast u c b p p') Q (f fr) (g { fr with resume := r })) :
    InStep (Abreast u c b p p') Q (frame >>= f) (frame >>= g) := by
  rintro m _ h
  obtain rfl := h.other
  have hframes' : (m.moved u.moves c.frames' p').frames = ⟨c.frames'⟩ := rfl
  rcases c.top_cases with ⟨htop, htop'⟩ | ⟨fr, r, htop⟩
  · rw [Action.bind_of_error (frame_of_none h.frames htop),
      Action.bind_of_error (frame_of_none hframes' htop')]
    exact .error h.shows
  · rw [Action.bind_of_ok (frame_of_some h.frames htop.top),
      Action.bind_of_ok (frame_of_some hframes' htop.top')]
    exact hf fr r htop m _ h

theorem onFrames_pop_of_none {m : Machine} {F : Array Frame} (hF : m.frames = ⟨F⟩)
    (htop : F.back? = none) :
    onFrames Stack.pop m = .error (.fault { kind := .stackUnderflow }) m := by
  rw [onFrames, hF, Stack.pop, Stack.top?, htop]
  dsimp only
  rw [← hF]

theorem onFrames_pop_of_some {m : Machine} {F : Array Frame} {f : Frame}
    (hF : m.frames = ⟨F⟩) (htop : F.back? = some f) :
    onFrames Stack.pop m = .ok f { m with frames := ⟨F.pop⟩ } := by
  rw [onFrames, hF, Stack.pop, Stack.top?, htop]

/-- Both take the frame on top. -/
theorem inStep_popFrame {f g : Frame → Exec α}
    (hf : ∀ fr r, c.Top fr r →
      InStep (Abreast u c.popped b p p') Q (f fr) (g { fr with resume := r })) :
    InStep (Abreast u c b p p') Q (onFrames Stack.pop >>= f)
      (onFrames Stack.pop >>= g) := by
  rintro m _ h
  obtain rfl := h.other
  have hframes' : (m.moved u.moves c.frames' p').frames = ⟨c.frames'⟩ := rfl
  rcases c.top_cases with ⟨htop, htop'⟩ | ⟨fr, r, htop⟩
  · rw [Action.bind_of_error (onFrames_pop_of_none h.frames htop),
      Action.bind_of_error (onFrames_pop_of_none hframes' htop')]
    exact .error h.shows
  · rw [Action.bind_of_ok (onFrames_pop_of_some h.frames htop.top),
      Action.bind_of_ok (onFrames_pop_of_some hframes' htop.top')]
    exact hf fr r htop _ _ ⟨rfl, h.pc, rfl, h.flag, h.bodies⟩

/-- Both return from the call on top. -/
theorem inStep_leave : InStep (Abreast u c false p p') (Left u c) leave leave := by
  refine inStep_popFrame fun fr r htop => inStep_get fun m _ _ => ?_
  dsimp only [Machine.moved]
  split
  · exact inStep_internal _
  · refine (inStep_onStack _).bind fun _ => ?_
    rintro m _ h
    obtain rfl := h.other
    exact .ok ⟨fr, r, htop, rfl, rfl, h.frames, rfl, h.bodies⟩

/-! ### Instructions -/

/-- Both return with the value on top, or fail because a procedure may not. -/
theorem inStep_returnValue (hlimits : job'.limits = job.limits) :
    InStep (Abreast u c false p p') (Left u c) (returnValue job) (returnValue job') := by
  refine inStep_frame fun fr r _ => inStep_symbol fr.symbol fun s _ => ?_
  have hkind : (s.moved u.moves).kind = s.kind := rfl
  rw [hkind]
  split
  · exact inStep_failAbout _ _
  · refine inStep_pop.bind fun x => inStep_leave.bind fun _ => ?_
    rintro m m' ⟨fr, r, htop, h⟩
    exact (inStep_push hlimits x m m' h).mono fun _ _ h => ⟨fr, r, htop, h⟩

/-- Both return without a value, or fail because a function must have one. -/
theorem inStep_returnNothing :
    InStep (Abreast u c false p p') (Left u c) returnNothing returnNothing := by
  refine inStep_frame fun fr r _ => inStep_symbol fr.symbol fun s _ => ?_
  have hkind : (s.moved u.moves).kind = s.kind := rfl
  rw [hkind]
  split
  · exact inStep_failAbout _ _
  · exact inStep_leave

/-- An argument lies at the same place of the stack for both. -/
theorem inStep_argPlace (hcell : job'.cells[p']? = job.cells[p]?) :
    InStep (Abreast u c b p p') (Abreast u c b (p + 1) (p' + 1)) (argPlace job)
      (argPlace job') := by
  refine (inStep_countOperand hcell).bind fun n => inStep_frame fun fr r _ => ?_
  dsimp only
  split
  · exact inStep_internal _
  · split
    · exact inStep_failAbout _ _
    · exact inStep_pure _

/-! ### Instructions that go on behind them -/

section

variable (hlimits : job'.limits = job.limits)

include hlimits

/-- Both put the value of the variable in its place, or fail because it has none. -/
theorem inStep_eval : InStep (Abreast u c b p p') (Abreast u c b p p') (eval job)
    (eval job') := by
  refine (inStep_onStack Stack.pop).bind fun d => ?_
  cases d.symbol with
  | none => exact inStep_internal _
  | some id =>
    exact (inStep_verify id).bind fun _ => inStep_symbol id fun s _ =>
      inStep_push hlimits s.value

theorem inStep_binary (op : BinaryOp) :
    InStep (Abreast u c b p p') (Abreast u c b p p') (binary job op) (binary job' op) :=
  (inStep_onStack Stack.popTwo).bind fun _ => (inStep_ofExcept _).bind fun _ =>
    inStep_push hlimits _

/-- A variable is assigned to, and a value is left. -/
theorem inStep_assign_push (id : Nat) (x y : Float) :
    InStep (Abreast u c b p p') (Abreast u c b p p') (assign id x >>= fun _ => push job y)
      (assign id x >>= fun _ => push job' y) :=
  (inStep_assign id x).bind fun _ => inStep_push hlimits y

/-- Both assign to the variable on top, and leave the value. -/
theorem inStep_assignTop (op : AssignOp) :
    InStep (Abreast u c b p p') (Abreast u c b p p') (assignTop job op)
      (assignTop job' op) := by
  refine (inStep_onStack Stack.pop).bind fun target => inStep_pop.bind fun x => ?_
  cases target.symbol with
  | none => exact inStep_internal _
  | some id =>
    exact (inStep_verifyAssignable id).bind fun _ => inStep_symbol id fun s _ =>
      (inStep_ofExcept (op.apply s.value x)).bind fun y =>
        inStep_assign_push hlimits id y y

theorem inStep_step (hcell : job'.cells[p']? = job.cells[p]?) (how : Step) :
    InStep (Abreast u c b p p') (Abreast u c b (p + 1) (p' + 1)) (step job how)
      (step job' how) :=
  (inStep_symbolOperand hcell).bind fun id => (inStep_verify id).bind fun _ =>
    inStep_symbol id fun _ _ => inStep_assign_push hlimits id _ _

/-- Both read a line into the same variable, and leave the same sign of success. -/
theorem inStep_read (hcell : job'.cells[p']? = job.cells[p]?) :
    InStep (Abreast u c b p p') (Abreast u c b (p + 1) (p' + 1)) (read job)
      (read job') := by
  refine (inStep_symbolOperand hcell).bind fun id =>
    (inStep_verifyAssignable id).bind fun _ =>
    inStep_readLine.bind fun l => ?_
  cases l with
  | none => exact inStep_assign_push hlimits id _ _
  | some l =>
    dsimp only
    cases readTyped? l with
    | none => exact inStep_failAbout _ id
    | some x => exact inStep_assign_push hlimits id x _

/-- Both apply the same function, or fail because the symbol stands for none. -/
theorem inStep_builtin (hcell : job'.cells[p']? = job.cells[p]?) :
    InStep (Abreast u c b p p') (Abreast u c b (p + 1) (p' + 1)) (builtin job)
      (builtin job') := by
  refine (inStep_symbolOperand hcell).bind fun id => inStep_symbol id fun s _ => ?_
  have hnative : (s.moved u.moves).native = s.native := rfl
  rw [hnative]
  cases s.native with
  | none => exact inStep_internal _
  | some f =>
    exact inStep_pop.bind fun x => (inStep_ofExcept (f.apply x)).bind fun y =>
      inStep_push hlimits y

omit hlimits in
/-- The value is kept under a name that may be new. -/
theorem inStep_printTop :
    InStep (Abreast u c b p p') (Abreast u c b p p') printTop printTop := by
  refine inStep_pop.bind fun x => (inStep_print _).bind fun _ => ?_
  refine inStep_symbols
    (f := fun t => (t.resolve "_").2.modify (t.resolve "_").1 (Symbol.assigned x))
    (fun t => ?_) fun t => ?_
  · rw [SymbolTable.resolve_moved]
    exact SymbolTable.modify_moved u.moves _ (f := Symbol.assigned x) (fun _ => rfl) _
  · exact (t.sameCode_resolve "_").trans (SymbolTable.sameCode_modify _ _ fun _ => rfl)

theorem inStep_arg (hcell : job'.cells[p']? = job.cells[p]?) :
    InStep (Abreast u c b p p') (Abreast u c b (p + 1) (p' + 1)) (arg job)
      (arg job') := by
  refine (inStep_argPlace hcell).bind fun i => inStep_get fun m _ _ => ?_
  dsimp only [Machine.moved]
  cases m.stack.get? i with
  | none => exact inStep_internal _
  | some d => exact inStep_push hlimits d.value

/-- Both change the same argument, and leave its value. -/
theorem inStep_argAssign (hcell : job'.cells[p']? = job.cells[p]?) :
    InStep (Abreast u c b p p') (Abreast u c b (p + 1) (p' + 1)) (argAssign job)
      (argAssign job') := by
  refine (inStep_argPlace hcell).bind fun i => inStep_pop.bind fun x =>
    inStep_get fun m _ _ => ?_
  dsimp only [Machine.moved]
  cases m.stack.get? i with
  | none => exact inStep_internal _
  | some d =>
    dsimp only
    cases m.stack.set? i { d with value := x } with
    | none => exact inStep_internal _
    | some S =>
      refine InStep.bind (Q := Abreast u c b (p + 1) (p' + 1)) ?_ fun _ =>
        inStep_push hlimits x
      rintro m₁ _ h
      obtain rfl := h.other
      exact .ok ⟨rfl, h.pc, h.frames, h.flag, h.bodies⟩

end

end Exec

namespace Instruction

/-- The number of cells that an instruction takes its operands from. -/
def operandCount : Instruction → Nat
  | constPush | varPush | step _ | builtin | printText | read | arg | argAssign => 1
  | eval | pop | binary _ | negate | not | assign _ | printValue | printTop | returnValue
  | returnNothing => 0

/-- Whether an instruction returns from a call. -/
def isReturn : Instruction → Bool
  | returnValue | returnNothing => true
  | _ => false

open Exec

variable {u : Placement} {c : Pairing} {p p' : Nat} {job job' : Job}

/-- An instruction keeps machines in step. It goes on behind its operand, which
is the same for both. -/
theorem inStep_run (hlimits : job'.limits = job.limits) {i : Instruction}
    (hi : i.isReturn = false)
    (hcell : i.operandCount = 1 → job'.cells[p']? = job.cells[p]?) :
    InStep (Abreast u c false p p')
      (Abreast u c false (p + i.operandCount) (p' + i.operandCount)) (i.run job)
      (i.run job') := by
  cases i with
  | constPush =>
    refine (inStep_operand (hcell rfl)).bind fun cell => ?_
    cases cell with
    | number x => exact inStep_push hlimits x
    | _ => exact inStep_internal _
  | varPush =>
    exact (inStep_symbolOperand (hcell rfl)).bind fun _ => inStep_pushDatum hlimits _
  | eval => exact inStep_eval hlimits
  | pop => exact inStep_pop.bind fun _ => inStep_pure ()
  | binary op => exact inStep_binary hlimits op
  | negate => exact inStep_pop.bind fun _ => inStep_push hlimits _
  | not => exact inStep_pop.bind fun _ => inStep_push hlimits _
  | assign op => exact inStep_assignTop hlimits op
  | step how => exact inStep_step hlimits (hcell rfl) how
  | builtin => exact inStep_builtin hlimits (hcell rfl)
  | printValue => exact inStep_pop.bind fun _ => inStep_print _
  | printText =>
    refine (inStep_operand (hcell rfl)).bind fun cell => ?_
    cases cell with
    | text s => exact inStep_print _
    | _ => exact inStep_internal _
  | printTop => exact inStep_printTop
  | read => exact inStep_read hlimits (hcell rfl)
  | returnValue => cases hi
  | returnNothing => cases hi
  | arg => exact inStep_arg hlimits (hcell rfl)
  | argAssign => exact inStep_argAssign hlimits (hcell rfl)

end Instruction

end StackCalc
