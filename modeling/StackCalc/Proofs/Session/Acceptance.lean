import StackCalc.Proofs.Session.Reachable

/-!
# Every text that can be read can be compiled

The reader of texts and the generator of code have their side conditions apart
from each other. They agree: in every session that can be reached, a text that
has been read is a program of which every part has a meaning
(`Stmt.IsTopLevel`), and generating the code of such a program fails only for
want of room.
-/

namespace StackCalc

/-- Generating a program whose parts have a meaning succeeds if there is room,
and fails for want of it otherwise. -/
theorem Image.generate_cases (capacity : Nat) (echo : Bool) (im : Image)
    {program : List Stmt} (hw : ∀ p ∈ program, p.IsTopLevel im.symbols) :
    (im.store.base + footprint program ≤ capacity ∧
        ∃ entry im', generate capacity echo program im = .ok entry im') ∨
      (capacity < im.store.base + footprint program ∧
        ∃ im', generate capacity echo program im = .error tooBig im') := by
  obtain ⟨hfits, hfails⟩ := @generate_apply capacity echo im program hw
  by_cases hroom : im.store.base + footprint program ≤ capacity
  · exact .inl ⟨hroom, _, _, hfits hroom⟩
  · exact .inr ⟨Nat.lt_of_not_le hroom, _, hfails hroom⟩

namespace Session

/-- Whatever is read in a session that can be reached, at whatever depth, is a
program whose parts have a meaning and whose places are in the table. Its code
can be generated wherever there is room for it, so a text that can be read can
be compiled unless there is none. -/
theorem parsed_program_accepted {rs : List Region} {s : Session} (h : Reachable rs s) :
    (∀ tokens depth program t, parse tokens s.machine.symbols depth = (.ok program, t) →
      (∀ p ∈ program, p.IsTopLevel t) ∧ Stmt.AllInRange t.size program ∧
      ∀ capacity echo store,
        (store.base + footprint program ≤ capacity ∧
          ∃ entry im, Image.generate capacity echo program ⟨store, t⟩ = .ok entry im) ∨
        (capacity < store.base + footprint program ∧
          ∃ im, Image.generate capacity echo program ⟨store, t⟩ =
            .error { kind := .programTooBig } im)) ∧
    ∀ source program s', s.read source = .ok program s' →
      (∃ entry s'', s.compile source = .ok entry s'') ∨
        ∃ s'', s.compile source = .error { kind := .programTooBig } s'' := by
  refine ⟨fun tokens depth program t hparse => ?_, fun source program s' hread => ?_⟩
  · have hsound : s.machine.symbols.Sound := h.intact.sound
    obtain ⟨-, hok, -⟩ := parse_wellFormed tokens hsound depth
    rw [hparse] at hok
    have hw := hok program rfl
    exact ⟨hw, Stmt.IsTopLevel.allInRange hw, fun capacity echo store =>
      Image.generate_cases capacity echo ⟨store, t⟩ hw⟩
  · have hw : ∀ p ∈ program, p.IsTopLevel s'.machine.symbols := by
      rcases read_cases h.intact source with ⟨f, s₁, hread', -⟩ |
        ⟨program', s₁, hread', -, hw⟩
      · exact nomatch hread.symm.trans hread'
      · obtain ⟨rfl, rfl⟩ := EStateM.Result.ok.inj (hread.symm.trans hread')
        exact hw
    rw [Session.compile, Action.bind_of_ok hread]
    rcases Image.generate_cases s'.limits.program s'.echo s'.image hw with
      ⟨-, entry, im, hrun⟩ | ⟨-, im, hrun⟩
    · exact .inl ⟨entry, _, generate_of_ok hrun⟩
    · exact .inr ⟨_, generate_of_error hrun⟩

/-- A procedure with a loop over an argument, and a call of it. -/
def counting : String :=
  "proc p() for (i = 1; i <= $1; i++) print i, \" \"\np(sqrt(9) + 2 ^ -1)"

/-- The text is read at a depth of its own, after a function has been entered,
and compiled; with room for ten cells only, generating it fails. -/
theorem parsed_program_accepted_counting :
    ∃ rs s program t, Reachable rs s ∧ 0 < s.store.base ∧
      parse (lex counting) s.machine.symbols 12 = (.ok program, t) ∧ program.length = 2 ∧
      (∀ p ∈ program, p.IsTopLevel t) ∧
      (∃ entry im, Image.generate 100 false program ⟨s.store, t⟩ = .ok entry im) ∧
      (∃ im, Image.generate 10 false program ⟨s.store, t⟩ =
        .error { kind := .programTooBig } im) ∧
      ∃ program' s', s.read counting = .ok program' s' ∧
        ((∃ entry s'', s.compile counting = .ok entry s'') ∨
          ∃ s'', s.compile counting = .error { kind := .programTooBig } s'') := by
  let r : Request := .enter 100 "func f() return 1"
  let s : Session := (Session.fresh {}).handle r
  let p := parse (lex counting) s.machine.symbols 12
  have hs : Reachable _ s := (Reachable.fresh {}).step r trivial
  have hfacts : s.store.base = 5 ∧ Action.succeeds (s.read counting) ∧
      (p.1.toOption.map fun program => (program.length, footprint program)) =
        some (2, 45) := by
    decide +kernel
  obtain ⟨hbase, hread, hshape⟩ := hfacts
  obtain ⟨program', s', hread⟩ := Action.exists_of_succeeds hread
  obtain ⟨program, hprogram, hlength⟩ := Option.map_eq_some_iff.mp hshape
  obtain ⟨hlength, hfoot⟩ := Prod.mk.inj hlength
  have hparse : p = (.ok program, p.2) := by
    refine Prod.ext ?_ rfl
    cases hresult : p.1 with
    | ok program' =>
      rw [hresult] at hprogram
      exact congrArg Except.ok (Option.some.inj hprogram)
    | error f =>
      rw [hresult] at hprogram
      cases hprogram
  obtain ⟨haccepts, hcompiles⟩ := parsed_program_accepted hs
  obtain ⟨hw, -, hgenerate⟩ := haccepts _ _ _ _ hparse
  refine ⟨_, s, program, p.2, hs, hbase ▸ (by decide), hparse, hlength, hw, ?_, ?_,
    program', s', hread, hcompiles _ _ _ hread⟩
  · rcases hgenerate 100 false s.store with ⟨-, hok⟩ | ⟨hroom, -⟩
    · exact hok
    · omega
  · rcases hgenerate 10 false s.store with ⟨hroom, -⟩ | ⟨-, herror⟩
    · omega
    · exact herror

end Session

end StackCalc
