import StackCalc.Proofs.Code.Bodies
import StackCalc.Proofs.Session.Reachable

/-!
# Bodies in sessions

Whatever is asked of a session, its names lead to bodies
(`Session.housed_handle`): code that was generated from a tree, be it one of a
source text or not. If expression statements do not show their values while it
is generated, such code does not show them either.
-/

namespace StackCalc

namespace Session

variable {loud : Bool} {s s' : Session}

/-! ### The setting that code is generated with -/

/-- Reading a text leaves the setting alone. -/
theorem echo_read (source : String) : (Action.final (s.read source)).echo = s.echo := by
  unfold Session.read
  dsimp only
  split <;> rfl

theorem echo_generate (program : List Stmt) :
    (Action.final (s.generate program)).echo = s.echo := by
  unfold Session.generate
  split <;> rfl

theorem echo_execute (fuel a : Nat) :
    (Action.final (s.execute fuel a)).echo = s.echo := by
  unfold Session.execute
  split <;> rfl

theorem echo_compile (source : String) :
    (Action.final (s.compile source)).echo = s.echo := by
  have hread : Action.Leaves Session.echo (Session.read source) := fun _ =>
    echo_read source
  exact hread.bind (fun program _ => echo_generate program) s

/-- Entering a text leaves the echo as it is, however it ends. -/
theorem echo_enter (fuel : Nat) (source : String) :
    (Action.final (s.enter fuel source)).echo = s.echo := by
  have hcompile := @echo_compile s source
  cases hresult : s.compile source with
  | error f s' =>
    rw [hresult] at hcompile
    rw [enter_of_error hresult]
    exact hcompile
  | ok entry s' =>
    rw [hresult] at hcompile
    rw [final_enter hresult]
    exact (echo_execute fuel entry).trans hcompile

/-! ### What requests leave -/

/-- Where nothing is sealed, the names lead where they led. -/
theorem Follows.housed (hfollows : Follows [] s s') (h : s.image.Housed loud) :
    s'.image.Housed loud :=
  h.grows hfollows.grows fun _ hr => absurd hr List.not_mem_nil

/-- The definitions of a program become bodies. -/
theorem housed_generate (hs : s.Intact) (h : s.image.Housed loud)
    (hecho : s.echo = true → loud = true) {program : List Stmt}
    (hprogram : Stmt.AllInRange s.machine.symbols.size program) :
    (Action.final (s.generate program)).image.Housed loud := by
  have hgenerate := h.generate s.limits.program s.echo hecho hs.base_le hprogram
  cases hrun : Image.generate s.limits.program s.echo program s.image with
  | ok entry im =>
    rw [hrun] at hgenerate
    rw [generate_of_ok hrun]
    exact hgenerate
  | error f im =>
    rw [hrun] at hgenerate
    rw [generate_of_error hrun]
    exact hgenerate

/-- Compiling generates from a sound table, so names still lead to bodies. -/
theorem housed_compile (hs : s.Intact) (h : s.image.Housed loud)
    (hecho : s.echo = true → loud = true) (source : String) :
    (Action.final (s.compile source)).image.Housed loud := by
  have hsame := @echo_read s source
  unfold Session.compile
  rcases read_cases hs source with ⟨f, s', hread, hfollows⟩ |
    ⟨program, s', hread, hfollows, hw⟩
  · rw [Action.bind_of_error hread]
    exact hfollows.housed h
  · rw [hread] at hsame
    rw [Action.bind_of_ok hread]
    exact housed_generate (hfollows.intact hs) (hfollows.housed h)
      (fun he => hecho (hsame ▸ he)) (Stmt.IsTopLevel.allInRange hw)

/-- The run after compiling seals nothing, so names lead where they led. -/
theorem housed_enter (hs : s.Intact) (h : s.image.Housed loud)
    (hecho : s.echo = true → loud = true) (fuel : Nat) (source : String) :
    (Action.final (s.enter fuel source)).image.Housed loud := by
  have hcompile := housed_compile hs h hecho source
  have hfollows := follows_compile hs source
  cases hresult : s.compile source with
  | error f s' =>
    rw [hresult] at hcompile
    rw [enter_of_error hresult]
    exact hcompile
  | ok entry s' =>
    rw [hresult] at hcompile hfollows
    have hs' : s'.Intact := hfollows.intact hs
    have hexecute := follows_execute hs' fuel entry
    -- discarding the code of the text afterwards keeps what is sealed
    have hall := hexecute.trans (follows_rewind (hexecute.intact hs'))
    rw [final_enter hresult]
    exact hall.housed hcompile

/-- Whatever is asked of a session with intact code, its names lead to bodies. -/
theorem housed_handle (hs : s.Intact) (h : s.image.Housed loud)
    (hecho : s.echo = true → loud = true) {r : Request}
    (hr : r.InRange s.machine.symbols.size) : (s.handle r).image.Housed loud := by
  cases r with
  | enter fuel source => exact housed_enter hs h hecho fuel source
  | compile source => exact housed_compile hs h hecho source
  | generate program => exact housed_generate hs h hecho hr
  | execute fuel a => exact (follows_execute hs fuel a).housed h
  | setEcho on => exact h
  | supply lines => exact h
  | takeOutput => exact h
  | interrupt => exact h
  | interruptAfter n => exact h

/-- The names of every session that requests lead to lead to bodies. -/
theorem Reachable.housed {rs : List Region} (h : Reachable rs s) :
    s.image.Housed true := by
  induction h with
  | fresh limits =>
    intro id a hcode
    cases (SymbolTable.code_initial id).symm.trans hcode
  | step h r hr ih => exact housed_handle h.intact ih (fun _ => rfl) hr

end Session

end StackCalc
