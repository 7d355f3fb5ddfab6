import StackCalc.Proofs.Machine.Accesses
import StackCalc.Proofs.Machine.Outside

/-!
# Interrupts that are due

A run in which an interrupt is due after some number of writes, against the same
run without. `Machine.due n` is the machine in which an interrupt arrives as
soon as `n` writes have been made. Up to there an instruction does the same in
both machines (`Exec.unaware_instruction`), and the interrupt is seen before the
next cell.

`Exec.BreaksOff n breach x y z` compares three runs: `x` is not interrupted; `y`
is not interrupted either, but watched, and broken off before the first cell
that finds `n` writes made; in `z` the interrupt is due. Either `x` does not get
as far as `n` writes, and unless it has used up its rounds the three end alike;
or `z` is interrupted where `y` is broken off, and what was written up to there
is what `x` wrote first. The first run may have fewer rounds than the others: it
need not get beyond the last write.
-/

namespace StackCalc

/-- How many writes have been made. -/
def Machine.printed (m : Machine) : Nat :=
  m.console.writes.size

/-- No interrupt has been raised, none is due, and reading shows no prompt. -/
structure Outside.Calm (o : Outside) : Prop where
  interrupted : o.interrupted = false
  alarm : o.alarm = none
  prompting : o.console.prompting = false

theorem Outside.LeadsTo.calm {o o' : Outside} (h : o.LeadsTo o') (ho : o.Calm) :
    o'.Calm where
  interrupted := (h.signals ho.alarm).2.trans ho.interrupted
  alarm := (h.signals ho.alarm).1
  prompting := h.prompting.trans ho.prompting

/-- The same outside, but with an interrupt as soon as `n` writes have been made. -/
def Outside.due (n : Nat) (o : Outside) : Outside :=
  if o.console.writes.size < n then { o with alarm := some (n - o.console.writes.size) }
  else { o with interrupted := true, alarm := none }

/-- The same machine, but with an interrupt as soon as `n` writes have been made. -/
def Machine.due (n : Nat) (m : Machine) : Machine :=
  m.facing (m.outside.due n)

section

variable {n : Nat} {m : Machine}

/-- Before the `n`-th write the alarm counts the writes that are left. -/
theorem Machine.due_of_lt (h : m.printed < n) :
    m.due n = { m with alarm := some (n - m.printed) } := by
  have hlt : m.outside.console.writes.size < n := h
  rw [due, Outside.due, if_pos hlt]
  rfl

/-- From the `n`-th write on the interrupt is raised. -/
theorem Machine.due_of_le (h : n ≤ m.printed) :
    m.due n = { m with interrupted := true, alarm := none } := by
  have hle : ¬ m.outside.console.writes.size < n := Nat.not_lt_of_le h
  rw [due, Outside.due, if_neg hle]
  rfl

/-- A write is one write more, whatever the alarm does. -/
theorem Machine.printed_write (m : Machine) (w : Write) :
    (m.write w).printed = m.printed + 1 := by
  have hsize : (m.console.write w).writes.size = m.console.writes.size + 1 :=
    Array.size_push w
  unfold Machine.write
  dsimp only
  split <;> exact hsize

theorem Machine.returning_write (m : Machine) (w : Write) :
    (m.write w).returning = m.returning := by
  unfold Machine.write
  dsimp only
  split <;> rfl

theorem Machine.write_of_alarm_none (h : m.alarm = none) (w : Write) :
    m.write w = { m with console := m.console.write w } := by
  unfold Machine.write
  dsimp only
  rw [h]

/-- A write brings the interrupt nearer, and the last one before it raises it. -/
theorem Machine.write_due (hm : m.outside.Calm) (w : Write) :
    (m.due n).write w = (m.write w).due n := by
  have hnone : m.alarm = none := hm.alarm
  have hprinted : (m.write w).printed = m.printed + 1 := m.printed_write w
  -- far from the interrupt the alarm counts down, one write before it the alarm
  -- raises it, and behind it nothing happens
  by_cases hlt : m.printed < n
  · rw [due_of_lt hlt]
    by_cases hlast : m.printed + 1 < n
    · rw [due_of_lt (hprinted ▸ hlast), hprinted, write_of_alarm_none hnone]
      obtain ⟨k, hk⟩ : ∃ k, n - m.printed = k + 2 := ⟨n - m.printed - 2, by omega⟩
      have hk' : n - (m.printed + 1) = k + 1 := by omega
      rw [hk, hk']
      rfl
    · rw [due_of_le (hprinted ▸ Nat.le_of_not_lt hlast), write_of_alarm_none hnone]
      have hone : n - m.printed = 1 := by omega
      rw [hone]
      rfl
  · have hle : n ≤ m.printed := Nat.le_of_not_lt hlt
    rw [due_of_le hle, due_of_le (hprinted ▸ Nat.le_succ_of_le hle),
      write_of_alarm_none hnone]
    rfl

/-- An interrupt after `k` writes is due where there are `k` more than at the
start. -/
theorem Machine.start_due {k : Nat} (hk : 0 < k) (a : Nat) :
    { m with alarm := some k }.start a = (m.start a).due (m.printed + k) := by
  have hlt : (m.start a).printed < m.printed + k := Nat.lt_add_of_pos_right hk
  have hleft : m.printed + k - (m.start a).printed = k := Nat.add_sub_cancel_left ..
  rw [due_of_lt hlt, hleft]
  rfl

/-- Once the interrupt is raised, the machine is the same but for that. -/
theorem Machine.eq_of_due_eq {m' : Machine} (hm : m.outside.Calm) (hm' : m'.outside.Calm)
    (hprinted : m.printed = n) (hprinted' : m'.printed = n) (h : m.due n = m'.due n) :
    m = m' := by
  rw [due_of_le (Nat.le_of_eq hprinted.symm),
    due_of_le (Nat.le_of_eq hprinted'.symm)] at h
  have hcalmed :=
    congrArg (fun m : Machine => { m with interrupted := false, alarm := none }) h
  calc m
    _ = { m with interrupted := false, alarm := none } := by
      rw [← hm.interrupted, ← hm.alarm]; rfl
    _ = { m' with interrupted := false, alarm := none } := hcalmed
    _ = m' := by rw [← hm'.interrupted, ← hm'.alarm]; rfl

/-- Reading is no write, unless it shows a prompt. -/
theorem Console.writes_readLine {c : Console} (h : c.prompting = false) :
    c.readLine.2.writes = c.writes := by
  unfold Console.readLine
  rw [h]
  dsimp only
  split <;> rfl

end

namespace Exec

open StackCalc.Action

variable {α β : Type} {job : Job} {n : Nat} {breach : Halt}

/-! ### Instructions -/

/-- An action that does the same whether an interrupt is due or not. -/
def Unaware (n : Nat) (x : Exec α) : Prop :=
  ∀ m : Machine, m.outside.Calm → x (m.due n) = onState (Machine.due n) (x m)

/-- What does not look outside does not see the alarm. -/
theorem IsLocal.unaware {x : Exec α} (h : IsLocal x) (n : Nat) : Unaware n x := by
  intro m _
  rw [Machine.due, h]
  refine onState_congr ?_
  rw [Machine.due, h.outside_eq]

/-- The first action leaves the outside calm, so that the second one is unaware
as well. -/
theorem Unaware.bind {x : Exec α} {f : α → Exec β} (hx : Unaware n x)
    (hproceeds : Proceeds x) (hf : ∀ a, Unaware n (f a)) : Unaware n (x >>= f) := by
  intro m hm
  have hcalm := (hproceeds m).calm hm
  rw [bind_apply, bind_apply, hx m hm]
  cases hrun : x m with
  | ok a m' =>
    rw [hrun] at hcalm
    exact hf a m' hcalm
  | error e m' => rfl

theorem unaware_print (w : Write) : Unaware n (print w) :=
  fun m hm => congrArg (EStateM.Result.ok ()) (m.write_due hm w)

/-- Without prompts reading is no write, so it leaves the alarm as it is. -/
theorem unaware_readLine : Unaware n readLine := by
  intro m hm
  let m' : Machine := { m with console := m.console.readLine.2 }
  -- a line that is read is no write, so the interrupt is as far away as before
  have hprinted : m'.printed = m.printed :=
    congrArg Array.size (Console.writes_readLine hm.prompting)
  show readLine (m.due n) = .ok m.console.readLine.1 (m'.due n)
  by_cases hlt : m.printed < n
  · rw [Machine.due_of_lt hlt, Machine.due_of_lt (hprinted ▸ hlt), hprinted]
    rfl
  · have hle : n ≤ m.printed := Nat.le_of_not_lt hlt
    rw [Machine.due_of_le hle, Machine.due_of_le (hprinted ▸ hle)]
    rfl

/-- No instruction knows whether an interrupt is due. -/
theorem unaware_instruction (job : Job) (i : Instruction) : Unaware n (i.run job) := by
  cases hlocal : i.isLocal with
  | true => exact (isLocal_instruction job i hlocal).unaware n
  | false =>
    cases i with
    | printValue =>
      exact (isLocal_pop.unaware n).bind isLocal_pop.proceeds fun _ => unaware_print _
    | printText =>
      refine ((isLocal_operand job).unaware n).bind
        (isLocal_operand job).proceeds fun c => ?_
      cases c
      case text s => exact unaware_print _
      all_goals exact (isLocal_fail _ _).unaware n
    | printTop =>
      refine (isLocal_pop.unaware n).bind isLocal_pop.proceeds fun x => ?_
      exact (unaware_print _).bind (proceeds_print _) fun _ =>
        IsLocal.unaware (fun _ _ => rfl) n
    | read =>
      refine ((isLocal_symbolOperand job).unaware n).bind
        (isLocal_symbolOperand job).proceeds fun id => ?_
      refine ((isLocal_verifyAssignable id).unaware n).bind
        (isLocal_verifyAssignable id).proceeds fun _ =>
          unaware_readLine.bind proceeds_readLine fun line => ?_
      exact (isLocal_takeLine job id line).unaware n
    | _ => cases hlocal

/-- One write has been made, with success and with the same return under way or
none, or no write has. -/
def PrintsOnce (m : Machine) (r : EStateM.Result Halt Machine Unit) : Prop :=
  (∃ m', r = .ok () m' ∧ m'.printed = m.printed + 1 ∧ m'.returning = m.returning) ∨
    (final r).printed = m.printed

theorem IsLocal.printed_eq {x : Exec α} (h : IsLocal x) (m : Machine) :
    (final (x m)).printed = m.printed :=
  congrArg (fun o : Outside => o.console.writes.size) (h.outside_eq m)

/-- A local action, then a write and nothing else that could fail. -/
theorem printsOnce_of_local {x : Exec α} {f : α → Exec Unit} (hx : IsLocal x)
    (hreturning : Action.Leaves Machine.returning x)
    (hf : ∀ a m, (∃ w m', f a m = .ok () m' ∧ m'.outside = (m.write w).outside ∧
      m'.returning = m.returning) ∨ ∃ e, f a m = .error e m) (m : Machine) :
    PrintsOnce m ((x >>= f) m) := by
  have hprinted := hx.printed_eq m
  have hsame := hreturning m
  rcases bind_cases x f m with ⟨e, m₁, hfirst, hrun⟩ | ⟨a, m₁, hfirst, hrun⟩
  · rw [hfirst] at hprinted
    rw [hrun]
    exact .inr hprinted
  · rw [hfirst] at hprinted hsame
    rcases hf a m₁ with ⟨w, m', hrest, houtside, hrest'⟩ | ⟨e, hrest⟩
    · refine .inl ⟨m', hrun.trans hrest, ?_, hrest'.trans hsame⟩
      have hwrites : m'.printed = (m₁.write w).printed :=
        congrArg (fun o : Outside => o.console.writes.size) houtside
      have hbefore : m₁.printed = m.printed := hprinted
      rw [hwrites, Machine.printed_write, hbefore]
    · rw [hrun, hrest]
      exact .inr hprinted

/-- The same consoles but for what is still to be read, without prompts. -/
def Reads (m m' : Machine) : Prop :=
  m.console.prompting = false → m'.console.prompting = false ∧ m'.printed = m.printed

theorem steady_reads : Steady Reads where
  refl _ h := ⟨h, rfl⟩
  trans h h' hm := ⟨(h' (h hm).1).1, (h' (h hm).1).2.trans (h hm).2⟩

theorem IsLocal.reads {x : Exec α} (h : IsLocal x) : Keeps Reads x := fun m hm =>
  ⟨(congrArg (fun o : Outside => o.console.prompting) (h.outside_eq m)).trans hm,
    h.printed_eq m⟩

theorem reads_readLine : Keeps Reads readLine := fun m hm =>
  ⟨(m.console.readLine_cases).2.2.trans hm,
    congrArg Array.size (Console.writes_readLine hm)⟩

/-- A read makes no write, for it takes a line without a prompt. -/
theorem reads_read (job : Job) : Keeps Reads (read job) :=
  Keeps.bind steady_reads (isLocal_symbolOperand job).reads fun id =>
    Keeps.bind steady_reads (isLocal_verifyAssignable id).reads fun _ =>
      Keeps.bind steady_reads reads_readLine fun line =>
        (isLocal_takeLine job id line).reads

/-- An instruction makes one write at most, and if it makes one it succeeds:
writing comes last. -/
theorem printsOnce_instruction (job : Job) (i : Instruction) (m : Machine)
    (hread : i = .read → m.console.prompting = false) : PrintsOnce m (i.run job m) := by
  have hpop : Action.Leaves Machine.returning pop := by
    refine Action.Leaves.bind (fun m => ?_) fun _ _ => rfl
    unfold onStack
    cases Stack.pop m.stack <;> rfl
  cases hlocal : i.isLocal with
  | true => exact .inr ((isLocal_instruction job i hlocal).printed_eq m)
  | false =>
    cases i with
    | printValue =>
      refine printsOnce_of_local isLocal_pop hpop (fun x m => ?_) m
      exact .inl ⟨_, m.write (.value x), rfl, rfl, m.returning_write _⟩
    | printText =>
      refine printsOnce_of_local (isLocal_operand job) (fun m => ?_) (fun c m => ?_) m
      · rw [operand, bind_of_ok (get_apply m)]
        cases job.cells[m.pc]? <;> rfl
      · cases c
        case text s => exact .inl ⟨_, m.write (.text s), rfl, rfl, m.returning_write _⟩
        all_goals exact .inr ⟨_, rfl⟩
    | printTop =>
      refine printsOnce_of_local isLocal_pop hpop (fun x m => ?_) m
      exact .inl ⟨.echo x, _, rfl, rfl, m.returning_write _⟩
    | read => exact .inr (reads_read job m (hread rfl)).2
    | _ => cases hlocal

/-! ### Three runs -/

/-- How three runs end: one that is not interrupted, one that is watched, and
one in which an interrupt is due. -/
inductive Ending (n : Nat) (breach : Halt) :
    (r r' r'' : EStateM.Result Halt Machine α) → Prop where
  /-- The first run has used up its rounds before the interrupt. -/
  | spent {m : Machine} (r' r'' : EStateM.Result Halt Machine α) (h : m.printed < n) :
    Ending n breach (.error .outOfFuel m) r' r''
  /-- The runs end before the interrupt. -/
  | same {r : EStateM.Result Halt Machine α} (h : (final r).printed < n) :
    Ending n breach r r (onState (Machine.due n) r)
  /-- The second run is broken off where the third is interrupted. -/
  | cut {r : EStateM.Result Halt Machine α} {m : Machine} (hcalm : m.outside.Calm)
    (hprinted : m.printed = n) (hleads : m.outside.LeadsTo (final r).outside) :
    Ending n breach r (.error breach m)
      (.error (.fault { kind := .interrupted }) (m.due n))

/-- A run that makes at least `n` writes is cut. -/
theorem Ending.cut_of_le {r r' r'' : EStateM.Result Halt Machine α}
    (h : Ending n breach r r' r'') (hle : n ≤ (final r).printed) :
    ∃ m : Machine, m.outside.Calm ∧ m.printed = n ∧ m.outside.LeadsTo (final r).outside ∧
      r' = .error breach m ∧
      r'' = .error (.fault { kind := .interrupted }) (m.due n) := by
  cases h with
  | spent _ _ hlt => exact absurd hlt (Nat.not_lt_of_le hle)
  | same hlt => exact absurd hlt (Nat.not_lt_of_le hle)
  | cut hcalm hprinted hleads => exact ⟨_, hcalm, hprinted, hleads, rfl, rfl⟩

/-- The runs of three actions end together, unless there are too few rounds for
the first. -/
structure BreaksOff (n : Nat) (breach : Halt) (x y z : Exec α) : Prop where
  proceeds : Proceeds x
  ending : ∀ m : Machine, m.outside.Calm → m.printed < n →
    Ending n breach (x m) (y m) (z (m.due n))

/-- Going on after three runs. -/
theorem Ending.andThen {r r' r'' : EStateM.Result Halt Machine α} {f g h : α → Exec β}
    (hr : Ending n breach r r' r'') (hcalm : (final r).outside.Calm)
    (hf : ∀ a, BreaksOff n breach (f a) (g a) (h a)) :
    Ending n breach (Action.andThen r f) (Action.andThen r' g)
      (Action.andThen r'' h) := by
  cases hr with
  | spent r' r'' hlt => exact .spent _ _ hlt
  | same hprinted =>
    cases r with
    | error e m' => exact .same hprinted
    | ok a m' => exact (hf a).ending m' hcalm hprinted
  | cut hm hprinted hleads =>
    cases r with
    | error e m' => exact .cut hm hprinted hleads
    | ok a m' => exact .cut hm hprinted (hleads.trans ((hf a).proceeds m'))

theorem BreaksOff.bind {x y z : Exec α} {f g h : α → Exec β}
    (hx : BreaksOff n breach x y z) (hf : ∀ a, BreaksOff n breach (f a) (g a) (h a)) :
    BreaksOff n breach (x >>= f) (y >>= g) (z >>= h) where
  proceeds := hx.proceeds.bind fun a => (hf a).proceeds
  ending m hm hlt := (hx.ending m hm hlt).andThen ((hx.proceeds m).calm hm) hf

/-- Up to the interrupt a local action is the same in all three runs. -/
theorem IsLocal.breaksOff {x : Exec α} (h : IsLocal x) : BreaksOff n breach x x x where
  proceeds := h.proceeds
  ending m hm hlt := by
    rw [h.unaware n m hm]
    exact .same (Nat.lt_of_le_of_lt (Nat.le_of_eq (h.printed_eq m)) hlt)

/-- What follows may look at the machine; the third run sees the one with the
interrupt due. -/
theorem breaksOff_get {f g h : Machine → Exec α}
    (hf : ∀ m : Machine, BreaksOff n breach (f m) (g m) (h (m.due n))) :
    BreaksOff n breach (get >>= f) (get >>= g) (get >>= h) where
  proceeds := proceeds_get fun m => (hf m).proceeds
  ending m hm hlt := (hf m).ending m hm hlt

/-- With no rounds left the first run is spent, whatever the others do. -/
theorem breaksOff_spent (y z : Exec α) : BreaksOff n breach (throw .outOfFuel) y z where
  proceeds := steady_leadsTo.refl
  ending _ _ hlt := .spent _ _ hlt

section

variable {enter enter' enter'' : Nat → Exec Unit}
  (h : ∀ a, BreaksOff n breach (enter a) (enter' a) (enter'' a))

include h

theorem breaksOff_condition (a : Nat) :
    BreaksOff n breach (condition enter a) (condition enter' a) (condition enter'' a) :=
  (h a).bind fun _ => (isLocal_pop.map _).breaksOff

/-- The rounds of a `while` loop, of which the first run may have fewer. -/
theorem breaksOff_whileLoop (a : Nat) {fuel fuel' : Nat} (hf : fuel ≤ fuel') :
    BreaksOff n breach (whileLoop job enter a fuel) (whileLoop job enter' a fuel')
      (whileLoop job enter'' a fuel') := by
  induction fuel generalizing fuel' with
  | zero => exact breaksOff_spent _ _
  | succ fuel ih =>
    obtain ⟨fuel', rfl⟩ : ∃ k, fuel' = k + 1 := ⟨fuel' - 1, by omega⟩
    refine (breaksOff_condition h _).bind fun b => ?_
    split
    · refine (h a).bind fun _ => breaksOff_get fun m => ?_
      have hreturning : (m.due n).returning = m.returning := rfl
      rw [hreturning]
      split
      · exact (isLocal_pure ()).breaksOff
      · exact ih (Nat.le_of_succ_le_succ hf)
    · exact (isLocal_leaveLoop job _).breaksOff

/-- The rounds of a `for` loop. -/
theorem breaksOff_forLoop (a : Nat) {fuel fuel' : Nat} (hf : fuel ≤ fuel') :
    BreaksOff n breach (forLoop job enter a fuel) (forLoop job enter' a fuel')
      (forLoop job enter'' a fuel') := by
  induction fuel generalizing fuel' with
  | zero => exact breaksOff_spent _ _
  | succ fuel ih =>
    obtain ⟨fuel', rfl⟩ : ∃ k, fuel' = k + 1 := ⟨fuel' - 1, by omega⟩
    refine (breaksOff_condition h _).bind fun b => ?_
    split
    · refine (h _).bind fun _ => breaksOff_get fun m => ?_
      have hreturning : (m.due n).returning = m.returning := rfl
      rw [hreturning]
      split
      · exact (isLocal_pure ()).breaksOff
      · exact (h _).bind fun _ => isLocal_pop.breaksOff.bind fun _ =>
          ih (Nat.le_of_succ_le_succ hf)
    · exact (isLocal_leaveLoop job _).breaksOff

/-- Both ways of a branch end in the same local action. -/
theorem breaksOff_branch (a : Nat) :
    BreaksOff n breach (branch job enter a) (branch job enter' a)
      (branch job enter'' a) := by
  have hend : BreaksOff n breach (endBranch job a) (endBranch job a) (endBranch job a) :=
    (isLocal_endBranch job a).breaksOff
  refine (breaksOff_condition h _).bind fun b => ?_
  split
  · exact (h _).bind fun _ => hend
  · split
    · exact (h _).bind fun _ => hend
    · exact hend

/-- What a call looks at in the machine is not the alarm. -/
theorem breaksOff_call :
    BreaksOff n breach (call job enter) (call job enter') (call job enter'') := by
  refine (isLocal_symbolOperand job).breaksOff.bind fun id =>
    (isLocal_countOperand job).breaksOff.bind fun k => breaksOff_get fun m => ?_
  have hframes : (m.due n).frames = m.frames := rfl
  rw [hframes]
  split
  · exact (isLocal_failAbout _ _).breaksOff
  · refine (isLocal_symbol id).breaksOff.bind fun s => ?_
    split
    · exact (isLocal_failAbout _ _).breaksOff
    · refine breaksOff_get fun m => ?_
      have hstack : (m.due n).stack = m.stack := rfl
      have hpc : (m.due n).pc = m.pc := rfl
      rw [hstack, hpc]
      dsimp only
      split
      · exact (isLocal_fail _ _).breaksOff
      · exact (isLocal_onFrames _).breaksOff.bind fun _ => (h _).bind fun _ =>
          IsLocal.breaksOff fun _ _ => rfl

/-- The control operations break off where the stretches do that they enter. -/
theorem breaksOff_control {fuel fuel' : Nat} (hf : fuel ≤ fuel') (c : Control) :
    BreaksOff n breach (control job enter fuel c) (control job enter' fuel' c)
      (control job enter'' fuel' c) := by
  cases c with
  | whileLoop => exact breaksOff_get fun m => breaksOff_whileLoop h m.pc hf
  | forLoop =>
    exact breaksOff_get fun m => (h _).bind fun _ => isLocal_pop.breaksOff.bind fun _ =>
      breaksOff_forLoop h m.pc hf
  | branch => exact breaksOff_get fun m => breaksOff_branch h m.pc
  | call => exact breaksOff_call h

omit h in
/-- An instruction ends before the interrupt, or makes the last write before it. -/
theorem ending_instruction (job : Job) (i : Instruction) {m : Machine}
    (hm : m.outside.Calm) (hlt : m.printed < n) :
    Ending n breach (i.run job m) (i.run job m) (i.run job (m.due n)) ∨
      ∃ m', i.run job m = .ok () m' ∧ i.run job (m.due n) = .ok () (m'.due n) ∧
        m'.printed = n ∧
        m'.returning = m.returning := by
  have hunaware := unaware_instruction (n := n) job i m hm
  rcases printsOnce_instruction job i m fun _ => hm.prompting with
    ⟨m', hrun, hprinted, hreturning⟩ | hprinted
  · rw [hrun] at hunaware
    by_cases hlast : m'.printed < n
    · rw [hunaware, hrun]
      exact .inl (.same hlast)
    · exact .inr ⟨m', hrun, hunaware, by omega, hreturning⟩
  · rw [hunaware]
    exact .inl (.same (Nat.lt_of_le_of_lt (Nat.le_of_eq hprinted) hlt))

/-- Before the interrupt a cell is the same in all three runs, or makes the last
write before it. -/
theorem ending_cell {fuel fuel' : Nat} (hf : fuel ≤ fuel') {m : Machine}
    (hm : m.outside.Calm) (hlt : m.printed < n) :
    Ending n breach (cell job enter fuel m) (cell job enter' fuel' m)
      (cell job enter'' fuel' (m.due n)) ∨
      ∃ m', cell job enter fuel m = .ok true m' ∧ cell job enter' fuel' m = .ok true m' ∧
        cell job enter'' fuel' (m.due n) = .ok true (m'.due n) ∧ m'.printed = n ∧
        m'.returning = false := by
  cases hr : m.returning with
  | true =>
    have hr' : (m.due n).returning = true := hr
    rw [cell_of_returning hr, cell_of_returning hr, cell_of_returning hr']
    exact .inl (.same hlt)
  | false =>
    -- no interrupt has been raised yet in either machine, so both run the same
    -- cell
    have hi : m.interrupted = false := hm.interrupted
    have hr' : (m.due n).returning = false := hr
    have hi' : (m.due n).interrupted = false := by
      rw [Machine.due_of_lt hlt]
      exact hi
    have hsame : job.cells[(m.due n).pc]? = job.cells[m.pc]? := rfl
    cases hc : job.cells[m.pc]? with
    | none =>
      rw [hc] at hsame
      rw [cell_apply, cell_apply, cell_apply, hr, hi, hc, hr', hi', hsame]
      exact .inl (.same hlt)
    | some c =>
      rw [hc] at hsame
      cases c with
      | op o =>
        rw [cell_of_op hr hi hc, cell_of_op hr hi hc, cell_of_op hr' hi' hsame]
        let m₁ : Machine := { m with pc := m.pc + 1 }
        have hdue : { m.due n with pc := (m.due n).pc + 1 } = m₁.due n := rfl
        rw [hdue]
        cases o with
        | plain i =>
          rcases ending_instruction job i (m := m₁) hm hlt with
            hend | ⟨m', hrun, hrun', hlast, hr₁⟩
          · have hcalm := (proceeds_instruction job i m₁).calm hm
            exact .inl (hend.andThen hcalm fun _ => (isLocal_pure true).breaksOff)
          · exact .inr ⟨m', bind_of_ok hrun, bind_of_ok hrun, bind_of_ok hrun',
              hlast, hr₁.trans hr⟩
        | control c =>
          have hcontrol : BreaksOff n breach (control job enter fuel c)
              (control job enter' fuel' c)
            (control job enter'' fuel' c) := breaksOff_control h hf c
          exact .inl ((hcontrol.bind fun _ => (isLocal_pure true).breaksOff).ending
            m₁ hm hlt)
      | address a =>
        rw [cell_of_address hr hi hc, cell_of_address hr hi hc,
          cell_of_address hr' hi' hsame]
        exact .inl (.same (r := .ok true { m with pc := a }) hlt)
      | stop =>
        rw [cell_of_stop hr hi hc, cell_of_stop hr hi hc, cell_of_stop hr' hi' hsame]
        exact .inl (.same hlt)
      | _ =>
        rw [cell_apply, cell_apply, cell_apply, hr, hi, hc, hr', hi', hsame]
        exact .inl (.same hlt)

/-- Whether fewer than `n` writes have been made. -/
def isBefore (n : Nat) (m : Machine) : Bool :=
  m.printed < n

omit h in
/-- A round of the watched run starts with the test. -/
theorem watchedDispatch_of_lt {m : Machine} (hlt : m.printed < n) (fuel rounds : Nat) :
    watchedDispatch (isBefore n) breach job enter' fuel (rounds + 1) m =
      Action.andThen (cell job enter' fuel m)
        (fun b => if b then watchedDispatch (isBefore n) breach job enter' fuel rounds
          else pure ()) := by
  have hpass : watch (isBefore n) breach (cell job enter' fuel) m =
      cell job enter' fuel m :=
    if_pos (decide_eq_true hlt)
  rw [watchedDispatch, bind_apply, hpass]
  rfl

omit h in
theorem watchedDispatch_of_eq {m : Machine} (hlast : m.printed = n) (fuel rounds : Nat) :
    watchedDispatch (isBefore n) breach job enter' fuel (rounds + 1) m =
      .error breach m := by
  have hfails : isBefore n m = false :=
    decide_eq_false (Nat.not_lt_of_le (Nat.le_of_eq hlast.symm))
  refine bind_of_error ?_
  rw [watch, hfails]
  rfl

omit h in
/-- At the `n`-th write the run with the interrupt sees it, unless a return is
under way. -/
theorem dispatch_of_due {m : Machine} (hlast : m.printed = n) (hr : m.returning = false)
    (fuel rounds : Nat) :
    dispatch job enter fuel (rounds + 1) (m.due n) =
      .error (.fault { kind := .interrupted }) (m.due n) := by
  have hi : (m.due n).interrupted = true := by
    rw [Machine.due_of_le (Nat.le_of_eq hlast.symm)]
  have hr' : (m.due n).returning = false := hr
  exact bind_of_error (cell_of_interrupted hr' hi)

/-- The last write before the interrupt ends a round, and the next one sees the
interrupt. The first run need not have that round. -/
theorem breaksOff_dispatch {fuel fuel' rounds rounds' : Nat} (hf : fuel ≤ fuel')
    (hrounds : rounds < rounds') :
    BreaksOff n breach (dispatch job enter fuel rounds)
      (watchedDispatch (isBefore n) breach job enter' fuel' rounds')
      (dispatch job enter'' fuel' rounds') := by
  have hproceeds : ∀ rounds, Proceeds (dispatch job enter fuel rounds) :=
    proceeds_dispatch (fun a => (h a).proceeds) fuel
  induction rounds generalizing rounds' with
  | zero => exact breaksOff_spent _ _
  | succ rounds ih =>
    obtain ⟨rounds', rfl⟩ : ∃ k, rounds' = k + 2 := ⟨rounds' - 2, by omega⟩
    refine ⟨hproceeds _, fun m hm hlt => ?_⟩
    have hcalm : (final (cell job enter fuel m)).outside.Calm :=
      (proceeds_cell (fun a => (h a).proceeds) fuel m).calm hm
    rw [watchedDispatch_of_lt hlt]
    rcases ending_cell h hf hm hlt with hend | ⟨m', hrun, hrun', hrun'', hlast, hr⟩
    · refine hend.andThen hcalm fun b => ?_
      cases b with
      | false => exact (isLocal_pure ()).breaksOff
      | true => exact ih (by omega)
    -- the last write: the next round breaks one run off and interrupts the
    -- other
    · rw [hrun] at hcalm
      rw [hrun', dispatch, bind_of_ok hrun, dispatch, bind_of_ok hrun'']
      show Ending n breach (dispatch job enter fuel rounds m')
        (watchedDispatch (isBefore n) breach job enter' fuel' (rounds' + 1) m')
        (dispatch job enter'' fuel' (rounds' + 1) (m'.due n))
      rw [watchedDispatch_of_eq hlast, dispatch_of_due hlast hr]
      exact .cut hcalm hlast (hproceeds rounds m')

end

theorem breaksOff_exec {fuel fuel' : Nat} (hf : fuel < fuel') (depth a : Nat) :
    BreaksOff n breach (exec job fuel depth a)
      (watchedExec (isBefore n) breach job fuel' depth a) (exec job fuel' depth a) := by
  induction depth generalizing a with
  | zero => exact (isLocal_fail _ _).breaksOff
  | succ depth ih =>
    exact (isLocal_jump a).breaksOff.bind fun _ =>
      breaksOff_dispatch ih (Nat.le_of_lt hf) hf

/-- How a run ends in which an interrupt is due, against one in which none is. -/
theorem ending_execute {fuel fuel' : Nat} (hf : fuel < fuel') {k : Nat}
    (hk : 0 < k) (a : Nat) {m : Machine} (halarm : m.alarm = none)
    (hprompting : m.console.prompting = false) :
    Ending (m.printed + k) breach (execute job fuel a m)
      (watchedExecute (isBefore (m.printed + k)) breach job fuel' a m)
      (execute job fuel' a { m with alarm := some k }) := by
  have hcalm : (m.start a).outside.Calm := ⟨rfl, halarm, hprompting⟩
  show Ending _ breach _ _
    (exec job fuel' job.limits.depth a ({ m with alarm := some k }.start a))
  rw [Machine.start_due hk]
  exact (breaksOff_exec hf job.limits.depth a).ending (m.start a) hcalm
    (Nat.lt_add_of_pos_right hk)

/-- A run that makes at least `k` writes is interrupted after them, at the
machine at which it can be broken off there. -/
theorem execute_due {fuel fuel' : Nat} (hf : fuel < fuel') {k : Nat}
    (hk : 0 < k) (a : Nat) {m : Machine} (halarm : m.alarm = none)
    (hprompting : m.console.prompting = false)
    (hwrites : m.printed + k ≤ (final (execute job fuel a m)).printed) :
    ∃ m' : Machine, m'.printed = m.printed + k ∧
      m'.outside.LeadsTo (final (execute job fuel a m)).outside ∧
      (∀ breach, watchedExecute (isBefore (m.printed + k)) breach job fuel' a m =
        .error breach m') ∧
      execute job fuel' a { m with alarm := some k } =
        .error (.fault { kind := .interrupted }) { m' with interrupted := true } := by
  have hcut := fun breach : Halt => Ending.cut_of_le (n := m.printed + k)
    (ending_execute hf hk a halarm hprompting : Ending _ breach _ _ _) hwrites
  obtain ⟨m', hcalm, hprinted, hleads, -, hrun⟩ := hcut .outOfFuel
  refine ⟨m', hprinted, hleads, fun breach => ?_, ?_⟩
  · -- whatever ends the watched run, the interrupted one ends at the same machine
    obtain ⟨m'', hcalm', hprinted', -, hwatched, hrun'⟩ := hcut breach
    have hdue : m''.due (m.printed + k) = m'.due (m.printed + k) := by
      rw [hrun] at hrun'
      injection hrun' with _ hsame
      exact hsame.symm
    rw [hwatched, Machine.eq_of_due_eq hcalm' hcalm hprinted' hprinted hdue]
  · rw [hrun, Machine.due_of_le (Nat.le_of_eq hprinted.symm), ← hcalm.alarm]
    rfl

end Exec

end StackCalc
