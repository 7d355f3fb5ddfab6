import StackCalc.Proofs.Code.Sealing
import StackCalc.Proofs.Machine.Accesses
import StackCalc.Proofs.Session.History

/-!
# Reachable sessions

Everything that can be asked of a session is a `Request`: to enter or compile a
text, to generate the code of any tree whose places are in the table, to run
code from any address, and to change settings. `Session.handle` is what a
request leaves, whether it fails or not, and `Session.Reachable` are the
sessions that requests lead to from a fresh one, each with the regions of code
that were sealed on the way.

What a request does to a session is said once, by `Session.Follows`: regions are
sealed (`Image.Grows`), the rest of the code is closed, and the stacks are as a
run leaves them. It needs an intact image (`Image.Intact`), and leaves one.
-/

namespace StackCalc

/-! ### Requests -/

/-- Something that can be asked of a session. -/
inductive Request where
  | enter (fuel : Nat) (source : String)
  | compile (source : String)
  | generate (program : List Stmt)
  | execute (fuel a : Nat)
  | setEcho (on : Bool)
  | supply (lines : List String)
  | takeOutput
  | interrupt
  | interruptAfter (n : Nat)

namespace Request

/-- The places of a tree that is to be generated are below `n`. -/
def InRange (n : Nat) : Request → Prop
  | generate program => Stmt.AllInRange n program
  | _ => True

/-- Whether a request generates code. -/
def generates : Request → Bool
  | enter .. | compile .. | generate .. => true
  | _ => false

end Request

namespace Session

/-- What a request leaves of a session, whether it fails or not. -/
def handle (s : Session) : Request → Session
  | .enter fuel source => Action.final (s.enter fuel source)
  | .compile source => Action.final (s.compile source)
  | .generate program => Action.final (s.generate program)
  | .execute fuel a => Action.final (s.execute fuel a)
  | .setEcho on => s.setEcho on
  | .supply lines => s.supply lines
  | .takeOutput => s.takeOutput.2
  | .interrupt => s.interrupt
  | .interruptAfter n => s.interruptAfter n

/-- The regions that generating the code of a program seals. -/
def sealedByProgram (s : Session) (program : List Stmt) : List Region :=
  Image.sealedBy s.limits.program s.echo program s.image

/-- The regions that compiling a text seals. -/
def sealedByText (s : Session) (source : String) : List Region :=
  match s.read source with
  | .ok program s' => s'.sealedByProgram program
  | .error _ _ => []

/-- The regions that a request seals. -/
def sealedBy (s : Session) : Request → List Region
  | .enter _ source | .compile source => s.sealedByText source
  | .generate program => s.sealedByProgram program
  | _ => []

/-- The sessions that requests lead to, each with the regions sealed on the way. -/
inductive Reachable : List Region → Session → Prop
  | fresh (limits : Limits) : Reachable [] (fresh limits)
  | step {rs : List Region} {s : Session} (h : Reachable rs s) (r : Request)
    (hr : r.InRange s.machine.symbols.size) : Reachable (rs ++ s.sealedBy r) (s.handle r)

end Session

/-! ### Intact images -/

/-- An image whose symbols are sound, whose code is closed, and whose bodies are
in sealed code. -/
structure Image.Intact (capacity : Nat) (im : Image) : Prop where
  sound : im.symbols.Sound
  sealed : Closed im.symbols.size im.store.cells 0 im.store.base
  ready : im.Ready capacity
  code : ∀ {id a}, (im.symbols.get id).code = some a → a < im.store.base

namespace Image

variable {capacity : Nat} {im im' : Image} {rs : List Region}

theorem intact_initial (capacity : Nat) : Intact capacity ⟨{}, SymbolTable.initial⟩ where
  sound := SymbolTable.sound_initial
  sealed := Closed.nil _ _ _
  ready := ready_of_isSealed rfl (Nat.zero_le _)
  code {id a} h := by
    rw [SymbolTable.code_initial] at h
    cases h

/-- Sealing regions keeps an image intact. -/
theorem Intact.grows (h : im.Intact capacity) (hgrows : Grows rs im im')
    (hready : im'.Ready capacity) : im'.Intact capacity where
  sound := hgrows.sound h.sound
  sealed := ((h.sealed.congr hgrows.kept).mono hgrows.evolves.size_le).append
    hgrows.closed hgrows.base_le
  ready := hready
  code {id a} hcode := by
    by_cases heq : (im'.symbols.get id).code = (im.symbols.get id).code
    · exact Nat.lt_of_lt_of_le (h.code (heq ▸ hcode)) hgrows.base_le
    · obtain ⟨r, -, -, hstart, -, hsealed⟩ := hgrows.of_code_ne heq
      obtain rfl : a = r.start := Option.some.inj (hcode.symm.trans hstart)
      exact hsealed.start_lt

theorem Intact.base_le (h : im.Intact capacity) : im.store.base ≤ capacity :=
  Nat.le_trans im.store.base_le_size h.ready.size_le

/-- Sealed code and the code behind it are closed together. -/
theorem Intact.closed (h : im.Intact capacity) :
    Closed im.symbols.size im.store.cells 0 im.store.cells.size :=
  h.sealed.append h.ready.closed im.store.base_le_size

theorem Intact.serves (h : im.Intact capacity) :
    im.symbols.Serves im.symbols.size im.store.cells.size where
  sound := h.sound
  le_size := Nat.le_refl _
  code hcode := Nat.lt_of_lt_of_le (h.code hcode) im.store.base_le_size

end Image

/-! ### What a request does -/

/-- Stacks within their limits, and no call with more arguments than there were
operands. -/
structure Machine.Settled (limits : Limits) (m : Machine) : Prop where
  stack_le : m.stack.size ≤ limits.stack
  frames_le : m.frames.size ≤ limits.frames
  count_le : ∀ f ∈ m.frames.items, f.count ≤ f.height

theorem Machine.settled_of_empty (limits : Limits) {m : Machine} (hstack : m.stack = {})
    (hframes : m.frames = {}) : m.Settled limits := by
  constructor
  · rw [hstack]
    exact Nat.zero_le _
  · rw [hframes]
    exact Nat.zero_le _
  · rw [hframes]
    exact fun f hf => absurd hf (Array.not_mem_empty f)

theorem Machine.InOrder.settled {n : Nat} {job : Job} {m : Machine}
    (h : m.InOrder n job) :
    m.Settled job.limits :=
  ⟨h.tidy.stack.size_le, h.tidy.frames.size_le,
    fun f hf => (h.tidy.frames.all f hf).count⟩

namespace Session

/-- A session `s'` that has come from `s` with the regions `rs` sealed. -/
structure Follows (rs : List Region) (s s' : Session) : Prop where
  limits : s'.limits = s.limits
  grows : Image.Grows rs s.image s'.image
  ready : s'.image.Ready s.limits.program
  settled : s.machine.Settled s.limits → s'.machine.Settled s.limits

/-- A session with intact code. -/
abbrev Intact (s : Session) : Prop :=
  s.image.Intact s.limits.program

variable {s s' s'' : Session} {rs rs' : List Region}

theorem Follows.intact (h : Follows rs s s') (hs : s.Intact) : s'.Intact := by
  rw [Intact, h.limits]
  exact hs.grows h.grows h.ready

theorem Follows.trans (h : Follows rs s s') (h' : Follows rs' s' s'') :
    Follows (rs ++ rs') s s'' where
  limits := h'.limits.trans h.limits
  grows := h.grows.trans h'.grows
  ready := h.limits ▸ h'.ready
  settled hs := h.limits ▸ h'.settled (h.limits.symm ▸ h.settled hs)

/-- Settings are no part of what requests keep. -/
theorem follows_setting (hs : s.Intact) (hlimits : s'.limits = s.limits)
    (himage : s'.image = s.image)
    (hstacks : s'.machine.stack = s.machine.stack ∧
      s'.machine.frames = s.machine.frames) :
    Follows [] s s' where
  limits := hlimits
  grows := himage ▸ Image.Grows.refl _
  ready := himage ▸ hs.ready
  settled h := ⟨hstacks.1 ▸ h.stack_le, hstacks.2 ▸ h.frames_le, hstacks.2 ▸ h.count_le⟩

theorem Follows.refl (hs : s.Intact) : Follows [] s s :=
  follows_setting hs rfl rfl ⟨rfl, rfl⟩

theorem follows_rewind (hs : s.Intact) : Follows [] s s.rewind where
  limits := rfl
  grows := s.image.grows_rewound
  ready := s.image.ready_rewound hs.base_le
  settled h := h

/-- Where only symbols go on, nothing is sealed. -/
theorem follows_symbols (hs : s.Intact) {t : SymbolTable}
    (ht : s.machine.symbols.Continues t) :
    Follows [] s { s with machine := { s.machine with symbols := t } } where
  limits := rfl
  grows := Image.grows_nothing rfl (fun _ _ => rfl) ht
  ready := ⟨hs.ready.size_le, hs.ready.closed.mono ht.evolves.size_le⟩
  settled h := ⟨h.stack_le, h.frames_le, h.count_le⟩

/-- Reading a text lets the symbols go on, and on success yields parts that have
a meaning. -/
theorem read_cases (hs : s.Intact) (source : String) :
    (∃ f s', s.read source = .error f s' ∧ Follows [] s s') ∨
      ∃ program s', s.read source = .ok program s' ∧ Follows [] s s' ∧
        ∀ p ∈ program, p.IsTopLevel s'.machine.symbols := by
  obtain ⟨hcontinues, hok, -⟩ := parse_wellFormed (lex source) hs.sound s.limits.depth
  have hfollows := follows_symbols hs hcontinues
  unfold Session.read
  dsimp only
  cases hresult : (parse (lex source) s.machine.symbols s.limits.depth).1 with
  | ok program => exact .inr ⟨program, _, rfl, hfollows, hok program hresult⟩
  | error f => exact .inl ⟨f, _, rfl, hfollows⟩

/-- Generating code seals the definitions that are completed. -/
theorem follows_generate (hs : s.Intact) {program : List Stmt}
    (hprogram : Stmt.AllInRange s.machine.symbols.size program) :
    Follows (s.sealedByProgram program) s (Action.final (s.generate program)) := by
  obtain ⟨hgrows, hready⟩ :=
    Image.generate_grows s.limits.program s.echo hs.base_le hprogram
  cases hrun : Image.generate s.limits.program s.echo program s.image with
  | ok entry im =>
    rw [hrun] at hgrows hready
    rw [generate_of_ok hrun]
    exact ⟨rfl, hgrows, hready, fun h => ⟨h.stack_le, h.frames_le, h.count_le⟩⟩
  | error f im =>
    rw [hrun] at hgrows hready
    rw [generate_of_error hrun]
    exact ⟨rfl, hgrows, hready, fun h => ⟨h.stack_le, h.frames_le, h.count_le⟩⟩

/-- Compiling seals what generating does, with the symbols that reading leaves. -/
theorem follows_compile (hs : s.Intact) (source : String) :
    Follows (s.sealedByText source) s (Action.final (s.compile source)) := by
  unfold sealedByText Session.compile
  rcases read_cases hs source with ⟨f, s', hread, hfollows⟩ |
    ⟨program, s', hread, hfollows, hw⟩
  · rw [Action.bind_of_error hread, hread]
    exact hfollows
  · rw [Action.bind_of_ok hread, hread]
    exact hfollows.trans (follows_generate (hfollows.intact hs)
      (Stmt.IsTopLevel.allInRange hw))

/-- However a run ends, and wherever it started, the stacks are as they should
be. -/
theorem settled_execute (hs : s.Intact) (fuel a : Nat) :
    (Action.final (Exec.execute s.job fuel a s.machine)).Settled s.limits := by
  by_cases ha : a < s.job.cells.size
  · exact (Exec.agrees_execute hs.closed .outOfFuel fuel ha hs.serves).2.settled
  · obtain ⟨e, hrun⟩ := Exec.execute_of_size_le fuel (Nat.le_of_not_lt ha) s.machine
    rw [hrun]
    exact Machine.settled_of_empty _ rfl rfl

/-- Running code seals nothing. -/
theorem follows_execute (hs : s.Intact) (fuel a : Nat) :
    Follows [] s (Action.final (s.execute fuel a)) := by
  have hruns := Exec.execute_behaves s.job fuel a s.machine hs.sound
  have hsettled := settled_execute hs fuel a
  have hsame : Action.final (s.execute fuel a) =
      { s with machine := Action.final (Exec.execute s.job fuel a s.machine) } := by
    unfold Session.execute
    cases Exec.execute s.job fuel a s.machine <;> rfl
  have hfollows := follows_symbols hs ⟨hruns.advances, hruns.indexed⟩
  rw [hsame]
  exact ⟨rfl, hfollows.grows, hfollows.ready, fun _ => hsettled⟩

/-- Entering a text seals what compiling it does. -/
theorem follows_enter (hs : s.Intact) (fuel : Nat) (source : String) :
    Follows (s.sealedByText source) s (Action.final (s.enter fuel source)) := by
  have hcompile := follows_compile hs source
  cases hresult : s.compile source with
  | error f s' =>
    rw [hresult] at hcompile
    rw [enter_of_error hresult]
    exact hcompile
  | ok entry s' =>
    rw [hresult] at hcompile
    have hs' : s'.Intact := hcompile.intact hs
    have hexecute := follows_execute hs' fuel entry
    -- neither the run nor the discarding of the code adds a region
    have hall := (hcompile.trans hexecute).trans (follows_rewind (hexecute.intact hs'))
    rw [List.append_nil, List.append_nil] at hall
    rw [final_enter hresult]
    exact hall

/-- What any request does to a session with intact code. -/
theorem follows_handle (hs : s.Intact) {r : Request}
    (hr : r.InRange s.machine.symbols.size) :
    Follows (s.sealedBy r) s (s.handle r) := by
  cases r with
  | enter fuel source => exact follows_enter hs fuel source
  | compile source => exact follows_compile hs source
  | generate program => exact follows_generate hs hr
  | execute fuel a => exact follows_execute hs fuel a
  | setEcho on => exact follows_setting hs rfl rfl ⟨rfl, rfl⟩
  | supply lines => exact follows_setting hs rfl rfl ⟨rfl, rfl⟩
  | takeOutput => exact follows_setting hs rfl rfl ⟨rfl, rfl⟩
  | interrupt => exact follows_setting hs rfl rfl ⟨rfl, rfl⟩
  | interruptAfter n => exact follows_setting hs rfl rfl ⟨rfl, rfl⟩

/-! ### What requests do -/

/-- A session that can be reached has come from a fresh one, with its regions
sealed. -/
theorem Reachable.follows (h : Reachable rs s) :
    ∃ limits, Follows rs (Session.fresh limits) s := by
  induction h with
  | fresh limits =>
    exact ⟨limits, Follows.refl (Image.intact_initial _)⟩
  | step h r hr ih =>
    obtain ⟨limits, hfollows⟩ := ih
    exact ⟨limits, hfollows.trans
      (follows_handle (hfollows.intact (Image.intact_initial _)) hr)⟩

/-- The code of every session that can be reached is intact. -/
theorem Reachable.intact (h : Reachable rs s) : s.Intact := by
  obtain ⟨limits, hfollows⟩ := h.follows
  exact hfollows.intact (Image.intact_initial _)

/-- The regions of a session that can be reached are sealed, one after the other. -/
theorem Reachable.regions (h : Reachable rs s) :
    (∀ region ∈ rs, region.IsSealed s.store) ∧
    rs.Pairwise fun r r' => r.stop ≤ r'.start := by
  obtain ⟨limits, hfollows⟩ := h.follows
  exact ⟨fun region hr => (hfollows.grows.regions region hr).2, hfollows.grows.ordered⟩

/-- Every body is a region that was sealed for its symbol. -/
theorem Reachable.body (h : Reachable rs s) {id a : Nat}
    (hcode : (s.machine.symbols.get id).code = some a) :
    ∃ region ∈ rs, region.symbol = id ∧ region.start = a ∧ region.IsSealed s.store := by
  obtain ⟨limits, hfollows⟩ := h.follows
  have hne : (s.machine.symbols.get id).code ≠ (SymbolTable.initial.get id).code := by
    rw [hcode, SymbolTable.code_initial]
    exact Option.some_ne_none a
  obtain ⟨region, hr, hid, hstart, -, hsealed⟩ := hfollows.grows.of_code_ne hne
  exact ⟨region, hr, hid, Option.some.inj (hstart.symm.trans hcode), hsealed⟩

/-- Its names and entries lead to each other. -/
theorem Reachable.indexed (h : Reachable rs s) : s.machine.symbols.Indexed := by
  obtain ⟨limits, hfollows⟩ := h.follows
  exact hfollows.grows.indexed SymbolTable.indexed_initial

/-- Its stacks are within their limits. -/
theorem Reachable.settled (h : Reachable rs s) : s.machine.Settled s.limits := by
  obtain ⟨limits, hfollows⟩ := h.follows
  rw [hfollows.limits]
  exact hfollows.settled (Machine.settled_of_empty _ rfl rfl)

end Session

end StackCalc
