import Mathlib.Data.List.Forall2
import StackCalc.Proofs.Session.Reachable

/-!
# Generating that fails

Generating the code of a program seals its definitions one by one and then adds
the code of the other statements. If that fails in the middle, what is not
sealed is discarded, and nothing else is taken back: the definitions in front of
the failure stay, with the symbols that name them.

`Image.StopsAt` is where a program fails, and `Image.generate_of_failure` what
is left then: the image after the completed definitions, whose code lies in one
row of regions behind the cells that were sealed before. So a failure changes
nothing if and only if it comes before the first definition is completed.
-/

namespace StackCalc

/-! ### Rows of regions -/

namespace Region

/-- The region was sealed for a definition of its symbol. -/
def IsFor (r : Region) : Stmt → Prop
  | .define _ id _ => r.symbol = id
  | _ => False

/-- Regions of which each starts where the one before stops, from `a` up to `b`. -/
def Tile (a b : Nat) : List Region → Prop
  | [] => a = b
  | r :: rs => r.start = a ∧ r.start < r.stop ∧ Tile r.stop b rs

/-- The first region locates its symbol before the others do. -/
theorem codeAfter_cons (id : Nat) (code : Option Nat) (r : Region) (rs : List Region) :
    codeAfter id code (r :: rs) =
      codeAfter id (if r.symbol = id then some r.start else code) rs :=
  rfl

theorem Tile.le {a b : Nat} {rs : List Region} (h : Tile a b rs) : a ≤ b := by
  induction rs generalizing a with
  | nil => exact Nat.le_of_eq h
  | cons r rs ih =>
    obtain ⟨hstart, hlt, hrest⟩ := h
    have := ih hrest
    omega

/-- Only an empty row ends where it starts. -/
theorem Tile.eq_nil {a : Nat} {rs : List Region} (h : Tile a a rs) : rs = [] := by
  cases rs with
  | nil => rfl
  | cons r rs =>
    obtain ⟨hstart, hlt, hrest⟩ := h
    have := hrest.le
    omega

end Region

namespace Store

theorem get?_of_size_le {s : Store} {i : Nat} (h : s.size ≤ i) : s.get? i = none :=
  Array.getElem?_eq_none h

end Store

namespace Image

variable {capacity : Nat} {echo : Bool} {im im' : Image} {f : Fault}

/-! ### What a failure takes back -/

/-- Whatever was added to a sealed image is discarded. -/
theorem rewound_of_framed (hs : im.IsSealed) {store : Store}
    (h : Gen.Framed capacity im.store.base im.store store) :
    (⟨store, im.symbols⟩ : Image).rewound = im := by
  have hbase : im.store.base = im.store.size := hs
  have hstore : store.rewind = im.store := by
    refine Store.ext (Array.ext_getElem? fun i => ?_) h.base
    show store.rewind.get? i = im.store.get? i
    -- sealed cells are kept, and behind them there is nothing once the rest is
    -- discarded
    by_cases hi : i < im.store.base
    · rw [store.get?_rewind (h.base.symm ▸ hi), h.kept i hi]
    · have hle : im.store.base ≤ i := Nat.le_of_not_lt hi
      have hsize : store.rewind.size ≤ i := by
        rw [Store.size_rewind, h.base]
        exact hle
      rw [Store.get?_of_size_le hsize, Store.get?_of_size_le (hbase ▸ hle)]
  exact congrArg (Image.mk · im.symbols) hstore

/-- A definition is completed, with its region sealed and its symbol located, or
is taken back. -/
theorem define_outcome (hs : im.IsSealed) (kind : DefinitionKind) (id : Nat)
    {ss : List Stmt} (hss : Stmt.AllInRange im.symbols.size ss) :
    (∃ f im', define capacity echo (.define kind id ss) im = .error f im' ∧
      im'.rewound = im) ∨
      ∃ im', define capacity echo (.define kind id ss) im = .ok () im' ∧ im'.IsSealed ∧
        im.store.base < im'.store.base ∧
        im'.symbols = im.symbols.modify id (Symbol.located im.store.base) := by
  rcases @Gen.body_cases ⟨capacity, echo, im.symbols⟩ ss hss im.store hs with
    ⟨f, store, herror, hframed⟩ | ⟨store, hok, hsealed, -, -, -, hends⟩
  · exact .inl ⟨f, _, Action.bind_of_error (generating_of_error capacity echo herror),
      rewound_of_framed hs hframed⟩
  · refine .inr ⟨⟨store, im.symbols.modify id (Symbol.located im.store.base)⟩, ?_,
      hsealed, ?_, rfl⟩
    · rw [define, Action.bind_of_ok (generating_of_ok capacity echo hok)]
      rfl
    · exact Nat.lt_of_lt_of_le (Nat.lt_add_of_pos_right (by decide)) hends.length

/-- Statements that are no definitions are taken back. -/
theorem main_of_error (hs : im.IsSealed) {ss : List Stmt}
    (hss : Stmt.AllInRange im.symbols.size (topLevel ss))
    (h : main capacity echo ss im = .error f im') : im'.rewound = im := by
  let cx : GenContext := ⟨capacity, echo, im.symbols⟩
  have hbuilds := (Gen.adds_stmts cx im.store.base hss []).bind fun _ => Gen.builds_end
  have hpending : Gen.Pending cx im.store.base 0 [] im.store := by
    rw [show im.store.base = im.store.size from hs]
    exact Gen.pending_start im.store
  obtain ⟨hframed, -⟩ := hbuilds im.store hpending
  change (generating capacity echo (fun cx => Gen.stmts cx (topLevel ss) >>= fun _ =>
    Gen.emit cx .stop) >>= fun _ => pure im.store.base) im = _ at h
  cases hrun : (Gen.stmts cx (topLevel ss) >>= fun _ => Gen.emit cx .stop) im.store with
  | ok u store =>
    rw [Action.bind_of_ok (generating_of_ok capacity echo hrun)] at h
    cases h
  | error f' store =>
    rw [hrun] at hframed
    rw [Action.bind_of_error (generating_of_error capacity echo hrun)] at h
    cases h
    exact rewound_of_framed hs hframed

/-! ### What was completed -/

/-- Definitions that are all completed, with one region for each: symbols are
located there, and nothing else about them is different. -/
structure Completes (capacity : Nat) (echo : Bool) (ds : List Stmt) (rs : List Region)
    (im im' : Image) : Prop where
  run : defineAll capacity echo ds im = .ok () im'
  regions : sealing capacity echo ds im = rs
  sealed : im'.IsSealed
  size : im'.symbols.size = im.symbols.size
  each : List.Forall₂ Region.IsFor rs ds
  tile : Region.Tile im.store.base im'.store.base rs
  symbols : ∀ id, im'.symbols.get id =
    { im.symbols.get id with code := Region.codeAfter id (im.symbols.get id).code rs }

theorem completes_nil (hs : im.IsSealed) : Completes capacity echo [] [] im im :=
  ⟨rfl, rfl, hs, rfl, .nil, rfl, fun _ => rfl⟩

/-- One more definition in front. Its region starts where the sealed code ended,
and the others follow. -/
theorem Completes.cons {kind : DefinitionKind} {id : Nat} {ss ds : List Stmt}
    {rs : List Region} {im'' : Image} (hid : id < im.symbols.size)
    (hrun : define capacity echo (.define kind id ss) im = .ok () im')
    (hlt : im.store.base < im'.store.base)
    (hsymbols : im'.symbols = im.symbols.modify id (Symbol.located im.store.base))
    (h : Completes capacity echo ds rs im' im'') :
    Completes capacity echo (.define kind id ss :: ds)
      (⟨id, im.store.base, im'.store.base⟩ :: rs) im im'' where
  run := (Action.bind_of_ok hrun).trans h.run
  regions := by
    rw [sealing, hrun]
    exact congrArg (_ :: ·) h.regions
  sealed := h.sealed
  size := by rw [h.size, hsymbols, SymbolTable.size_modify]
  each := .cons rfl h.each
  tile := ⟨rfl, hlt, h.tile⟩
  symbols id' := by
    rw [h.symbols id', hsymbols, SymbolTable.get_modify, Region.codeAfter_cons]
    -- the symbol of the definition is located, and every other one is as it was
    by_cases heq : id' = id
    · rw [if_pos ⟨heq, hid⟩, if_pos heq.symm, heq]
      rfl
    · rw [if_neg fun hc => heq hc.1, if_neg fun hc => heq hc.symm]

/-- A row of definitions is completed as far as the first that fails, which is
taken back. -/
theorem defineAll_outcome (hs : im.IsSealed) {ds : List Stmt}
    (hds : ∀ d ∈ ds, d.isDefinition ∧ d.InRange im.symbols.size) :
    (∃ done d rest rs mid f im', ds = done ++ d :: rest ∧
      Completes capacity echo done rs im mid ∧
        define capacity echo d mid = .error f im' ∧ im'.rewound = mid ∧
        defineAll capacity echo ds im = .error f im') ∨
      ∃ rs im', Completes capacity echo ds rs im im' := by
  -- each definition starts from the sealed image that the one before left
  induction ds generalizing im with
  | nil => exact .inr ⟨[], im, completes_nil hs⟩
  | cons d ds ih =>
    obtain ⟨⟨hd, hrange⟩, hrest⟩ := List.forall_mem_cons.mp hds
    cases d with
    | define kind id ss =>
      rcases @define_outcome capacity echo im hs kind id ss hrange.2 with
        ⟨f, im', herror, hback⟩ | ⟨mid, hok, hsealed, hlt, hsymbols⟩
      · exact .inl ⟨[], _, ds, [], im, f, im', rfl, completes_nil hs, herror, hback,
          Action.bind_of_error herror⟩
      · have hsize : mid.symbols.size = im.symbols.size := by
          rw [hsymbols, SymbolTable.size_modify]
        rcases ih hsealed (hsize.symm ▸ hrest) with
          ⟨done, d, rest, rs, mid', f, im', hds', hdone, herror, hback, hall⟩ |
            ⟨rs, im', hdone⟩
        · exact .inl ⟨_ :: done, d, rest, _ :: rs, mid', f, im', congrArg (_ :: ·) hds',
            hdone.cons hrange.1 hok hlt hsymbols, herror, hback,
            (Action.bind_of_ok hok).trans hall⟩
        · exact .inr ⟨_, im', hdone.cons hrange.1 hok hlt hsymbols⟩
    | _ => exact absurd hd (by simp [Stmt.isDefinition])

/-- The program fails behind the definitions `done`, which leave the image `im`:
at the next definition, or, if these are all, at its other statements. -/
def StopsAt (capacity : Nat) (echo : Bool) (program done : List Stmt) (im : Image)
    (f : Fault) : Prop :=
  (∃ d rest im', definitions program = done ++ d :: rest ∧
    define capacity echo d im = .error f im') ∨
    (definitions program = done ∧ ∃ im', main capacity echo program im = .error f im')

/-- A failure leaves the completed definitions and nothing else. -/
theorem generate_of_failure {program : List Stmt}
    (hprogram : Stmt.AllInRange im.symbols.size program)
    (h : generate capacity echo program im = .error f im') :
    ∃ done rs, done <+: definitions program ∧ StopsAt capacity echo program done im' f ∧
      Completes capacity echo done rs im.rewound im' := by
  have hprogram' : Image.program capacity echo program im =
      (defineAll capacity echo (definitions program) >>=
        fun _ => main capacity echo program) im.rewound := rfl
  rw [generate, hprogram'] at h
  rcases @defineAll_outcome capacity echo _ im.isSealed_rewound _
    (isDefinition_definitions hprogram) with
      ⟨done, d, rest, rs, mid, f', im₁, hds, hdone, herror, hback, hall⟩ |
        ⟨rs, mid, hdone⟩
  · rw [Action.bind_of_error hall] at h
    cases h
    rw [hback]
    exact ⟨done, rs, ⟨d :: rest, hds.symm⟩, .inl ⟨d, rest, im₁, hds, herror⟩, hdone⟩
  · rw [Action.bind_of_ok hdone.run] at h
    have hrange : Stmt.AllInRange mid.symbols.size (topLevel program) :=
      hdone.size.symm ▸ allInRange_topLevel hprogram
    cases hmain : main capacity echo program mid with
    | ok a im₁ =>
      rw [hmain] at h
      cases h
    | error f' im₁ =>
      rw [hmain] at h
      cases h
      rw [main_of_error hdone.sealed hrange hmain]
      exact ⟨definitions program, rs, List.prefix_rfl, .inr ⟨rfl, im₁, hmain⟩, hdone⟩

end Image

namespace Session

/-- If generating the code of a program fails, in any session that can be
reached, then the definitions in front of the failure are completed and
everything else is as it was, without the code that is not sealed. The sealed
cells stay; behind them lies one region for each completed definition, and no
cell behind these; symbols are located there, by the last region of each, and
keep all else. The code and the addresses are those from before if and only if
no definition was completed. -/
theorem generate_keeps_completed {rs : List Region} {s s' : Session}
    {program : List Stmt} {f : Fault} (h : Reachable rs s)
    (hprogram : Stmt.AllInRange s.machine.symbols.size program)
    (hfails : s.generate program = .error f s') :
    ∃ done regions,
      done <+: definitions program ∧
      Image.StopsAt s.limits.program s.echo program done s'.image f ∧
      Image.defineAll s.limits.program s.echo done s.image.rewound = .ok () s'.image ∧
      s' = s.withImage s'.image ∧
      (∀ i < s.store.base, s'.store.get? i = s.store.get? i) ∧
      s'.store.rewind = s'.store ∧
      List.Forall₂ Region.IsFor regions done ∧
      Region.Tile s.store.base s'.store.base regions ∧
      (∀ r ∈ regions, r.IsSealed s'.store) ∧
      (∀ id, s'.machine.symbols.get id =
        { s.machine.symbols.get id with
          code := Region.codeAfter id (s.machine.symbols.get id).code regions }) ∧
      ((s'.store = s.store.rewind ∧
        ∀ id, (s'.machine.symbols.get id).code = (s.machine.symbols.get id).code) ↔
          done = []) := by
  have himage : ∃ im, Image.generate s.limits.program s.echo program s.image =
      .error f im ∧
      s' = s.withImage im := by
    cases hrun : Image.generate s.limits.program s.echo program s.image with
    | ok entry im => cases (generate_of_ok hrun).symm.trans hfails
    | error f' im =>
      cases (generate_of_error hrun).symm.trans hfails
      exact ⟨im, rfl, rfl⟩
  obtain ⟨im, hrun, rfl⟩ := himage
  obtain ⟨done, regions, hfront, hstops, hdone⟩ := Image.generate_of_failure hprogram hrun
  have hdefinitions : ∀ d ∈ done, d.isDefinition ∧
      d.InRange s.image.rewound.symbols.size :=
    fun d hd => Image.isDefinition_definitions hprogram d (hfront.subset hd)
  have hsize : s.image.rewound.store.size ≤ s.limits.program :=
    s.store.size_rewind.symm ▸ h.intact.base_le
  have hgrows :=
    (Image.defineAll_grows s.limits.program s.echo s.image.isSealed_rewound hsize
      hdefinitions).1
  rw [hdone.run, hdone.regions] at hgrows
  have hsealed : im.rewound = im :=
    Image.rewound_of_framed hdone.sealed (Gen.Framed.refl s.limits.program _ _)
  refine ⟨done, regions, hfront, hstops, hdone.run, rfl, fun i hi => ?_, ?_,
    hdone.each, hdone.tile, fun r hr => (hgrows.regions r hr).2, hdone.symbols,
    fun hsame => ?_, ?_⟩
  · exact (hgrows.kept i hi).trans (s.store.get?_rewind hi)
  · exact congrArg Image.store hsealed
  -- if nothing was sealed then the row of regions is empty, and so is that of
  -- definitions
  · have htile : Region.Tile s.store.base im.store.base regions := hdone.tile
    rw [show im.store = s.store.rewind from hsame.1] at htile
    have heach := hdone.each
    rw [htile.eq_nil] at heach
    exact List.forall₂_nil_left_iff.mp heach
  · rintro rfl
    cases hdone.run
    exact ⟨rfl, fun _ => rfl⟩

/-- A function that is defined again, and called by the other statements. -/
def redefinition : List Stmt :=
  [.define .function 28 [.returnValue (.literal 29)], .print [.call 28 []]]

/-- The session in which the function was defined first, with room for one more
body and nothing else. -/
def crowded : Session :=
  (Session.fresh { program := 10 }).handle (.enter 100 "func f() return 1")

theorem reachable_crowded : ∃ rs, Reachable rs crowded :=
  ⟨_, (Reachable.fresh { program := 10 }).step (.enter 100 "func f() return 1") trivial⟩

/-- The function was at the first cell, and generating it again fails with its
new code behind the old. -/
theorem generate_crowded :
    (crowded.machine.symbols.size = 30 ∧ crowded.store.rewind.base = 5 ∧
      (crowded.machine.symbols.get 28).code = some 0) ∧
    ∃ s', crowded.generate redefinition = .error tooBig s' ∧ s'.store.base = 10 ∧
      (s'.machine.symbols.get 28).code = some 5 := by
  have hfacts : (crowded.machine.symbols.size = 30 ∧ crowded.store.rewind.base = 5 ∧
        (crowded.machine.symbols.get 28).code = some 0) ∧
      Action.failure? (crowded.generate redefinition) = some tooBig ∧
      (Action.final (crowded.generate redefinition)).store.base = 10 ∧
      ((Action.final (crowded.generate redefinition)).machine.symbols.get 28).code =
        some 5 := by
    decide +kernel
  obtain ⟨hbefore, hfails, hbase, hcode⟩ := hfacts
  exact ⟨hbefore, _, Action.eq_error_of_failure? hfails, hbase, hcode⟩

theorem allInRange_redefinition :
    Stmt.AllInRange crowded.machine.symbols.size redefinition := by
  rw [generate_crowded.1.1]
  simp [redefinition, Stmt.AllInRange, Stmt.InRange, Expr.InRange, Expr.AllInRange]

/-- The new body of the function is complete before the room runs out, and stays. -/
theorem generate_keeps_completed_crowded :
    ∃ s' done regions, crowded.generate redefinition = .error tooBig s' ∧
      done <+: definitions redefinition ∧ done ≠ [] ∧
      Image.StopsAt crowded.limits.program crowded.echo redefinition done
        s'.image tooBig ∧
      List.Forall₂ Region.IsFor regions done ∧ Region.Tile crowded.store.base 10 regions ∧
      (∀ r ∈ regions, r.IsSealed s'.store) ∧ s'.store.rewind = s'.store := by
  obtain ⟨rs, hreachable⟩ := reachable_crowded
  obtain ⟨⟨-, hrewound, -⟩, s', hrun, hbase, -⟩ := generate_crowded
  obtain ⟨done, regions, hfront, hstops, -, -, -, hrewind, heach, htile,
    hsealed, -, hiff⟩ :=
    generate_keeps_completed hreachable allInRange_redefinition hrun
  refine ⟨s', done, regions, hrun, hfront, fun hnil => ?_, hstops, heach,
    hbase ▸ htile, hsealed, hrewind⟩
  have hstore := congrArg Store.base (hiff.mpr hnil).1
  rw [hbase, hrewound] at hstore
  cases hstore

/-- So a failure is not without a trace: here the function has another address
afterwards, and there is more sealed code. -/
theorem generate_crowded_not_atomic :
    (∃ rs, Reachable rs crowded) ∧
    Stmt.AllInRange crowded.machine.symbols.size redefinition ∧
      ∃ s', crowded.generate redefinition = .error tooBig s' ∧
        s'.store ≠ crowded.store.rewind ∧
        (crowded.machine.symbols.get 28).code = some 0 ∧
        (s'.machine.symbols.get 28).code = some 5 := by
  obtain ⟨⟨-, hrewound, hold⟩, s', hrun, hbase, hcode⟩ := generate_crowded
  refine ⟨reachable_crowded, allInRange_redefinition, s', hrun,
    fun hsame => ?_, hold, hcode⟩
  rw [hsame, hrewound] at hbase
  cases hbase

end Session

end StackCalc
