import StackCalc.Proofs.Code.ClosedCode
import StackCalc.Proofs.Code.Generation

/-!
# Sealing

What generating the code of any program does to an image, be the program refused
or not. Each definition that is generated seals a `Region`, which ends in a
return and a stop, and its symbol gets the address of that region. Nothing else
is sealed, no sealed cell is changed, and no other symbol gets another address.

`Image.Grows rs im im'` is all that: `im'` is `im` with the regions `rs` sealed.
It says nothing about the cells that are not sealed, so it composes
(`Image.Grows.trans`) also where generating fails in the middle. `Image.sealing`
are the regions that generating a row of definitions seals, and
`Image.generate_grows` is the result.
-/

namespace StackCalc

/-! ### Regions -/

/-- A stretch of sealed code: the symbol it was generated for, where it starts,
and where it stops. -/
structure Region where
  symbol : Nat
  start : Nat
  stop : Nat
deriving DecidableEq, Repr

namespace Region

/-- A region is sealed in a store, and ends in a return and a stop. -/
structure IsSealed (r : Region) (s : Store) : Prop where
  below : r.stop ≤ s.base
  ends : EndsInReturn s.cells r.start r.stop

/-- A sealed region starts below the base, since it is not empty. -/
theorem IsSealed.start_lt {r : Region} {s : Store} (h : r.IsSealed s) :
    r.start < s.base := by
  have hlength := h.ends.length
  have hbelow := h.below
  omega

/-- The code address of the symbol `id`, which was `code`, after regions have
been sealed. -/
def codeAfter (id : Nat) (code : Option Nat) (regions : List Region) : Option Nat :=
  regions.foldl (fun c r => if r.symbol = id then some r.start else c) code

/-- Regions that are sealed later have the last word. -/
theorem codeAfter_append (id : Nat) (code : Option Nat) (rs rs' : List Region) :
    codeAfter id code (rs ++ rs') = codeAfter id (codeAfter id code rs) rs' :=
  List.foldl_append

/-- An address stays as it is unless a region has been sealed for its symbol. -/
theorem codeAfter_cases (id : Nat) (code : Option Nat) (rs : List Region) :
    codeAfter id code rs = code ∨ ∃ r ∈ rs,
      r.symbol = id ∧ codeAfter id code rs = some r.start := by
  induction rs generalizing code with
  | nil => exact .inl rfl
  | cons r rs ih =>
    have hcons : codeAfter id code (r :: rs) =
        codeAfter id (if r.symbol = id then some r.start else code) rs := rfl
    rw [hcons]
    -- a later region for the symbol has the last word; without one, the first
    -- may be it
    rcases ih (if r.symbol = id then some r.start else code) with
      heq | ⟨r', hmem, hid, heq⟩
    · rw [heq]
      by_cases hid : r.symbol = id
      · rw [if_pos hid]
        exact .inr ⟨r, List.mem_cons_self, hid, rfl⟩
      · rw [if_neg hid]
        exact .inl rfl
    · exact .inr ⟨r', List.mem_cons_of_mem r hmem, hid, heq⟩

end Region

namespace Image

/-! ### Images that grow -/

/-- The image `im'` is `im` with regions sealed: one after the other, behind the
sealed cells, which stay as they are, and for symbols that get the addresses of
the regions. -/
structure Grows (rs : List Region) (im im' : Image) : Prop where
  base_le : im.store.base ≤ im'.store.base
  kept : ∀ i < im.store.base, im'.store.get? i = im.store.get? i
  closed : Closed im'.symbols.size im'.store.cells im.store.base im'.store.base
  regions : ∀ r ∈ rs, im.store.base ≤ r.start ∧ r.IsSealed im'.store
  ordered : rs.Pairwise fun r r' => r.stop ≤ r'.start
  code : ∀ id, (im'.symbols.get id).code = Region.codeAfter id (im.symbols.get id).code rs
  evolves : im.symbols.Evolves im'.symbols
  sound : im.symbols.Sound → im'.symbols.Sound
  indexed : im.symbols.Indexed → im'.symbols.Indexed

/-- What was sealed stays sealed. -/
theorem Grows.isSealed {rs : List Region} {im im' : Image}
    (h : Grows rs im im') {r : Region} (hr : r.IsSealed im.store) :
    r.IsSealed im'.store where
  below := Nat.le_trans hr.below h.base_le
  ends := hr.ends.congr fun i hi => h.kept i (Nat.lt_of_lt_of_le hi hr.below)

/-- A symbol gets another address only with a region. -/
theorem Grows.of_code_ne {rs : List Region} {im im' : Image}
    (h : Grows rs im im') {id : Nat}
    (hne : (im'.symbols.get id).code ≠ (im.symbols.get id).code) :
    ∃ r ∈ rs, r.symbol = id ∧ (im'.symbols.get id).code = some r.start ∧
      im.store.base ≤ r.start ∧ r.IsSealed im'.store := by
  rw [h.code] at hne ⊢
  rcases Region.codeAfter_cases id (im.symbols.get id).code rs with
    heq | ⟨r, hr, hid, heq⟩
  · exact absurd heq hne
  · exact ⟨r, hr, hid, heq, h.regions r hr⟩

/-- What two steps seal is sealed one after the other. -/
theorem Grows.trans {rs rs' : List Region} {im im' im'' : Image} (h : Grows rs im im')
    (h' : Grows rs' im' im'') : Grows (rs ++ rs') im im'' where
  base_le := Nat.le_trans h.base_le h'.base_le
  kept i hi := (h'.kept i (Nat.lt_of_lt_of_le hi h.base_le)).trans (h.kept i hi)
  closed := ((h.closed.congr h'.kept).mono h'.evolves.size_le).append h'.closed h'.base_le
  regions := by
    intro r hr
    rcases List.mem_append.mp hr with hr | hr
    · obtain ⟨hle, hsealed⟩ := h.regions r hr
      exact ⟨hle, h'.isSealed hsealed⟩
    · obtain ⟨hle, hsealed⟩ := h'.regions r hr
      exact ⟨Nat.le_trans h.base_le hle, hsealed⟩
  ordered := by
    refine List.pairwise_append.mpr ⟨h.ordered, h'.ordered, fun r hr r' hr' => ?_⟩
    exact Nat.le_trans (h.regions r hr).2.below (h'.regions r' hr').1
  code id := by rw [h'.code, h.code, Region.codeAfter_append]
  evolves := h.evolves.trans h'.evolves
  sound hs := h'.sound (h.sound hs)
  indexed hi := h'.indexed (h.indexed hi)

/-- Where the sealed cells stay and the symbols continue, nothing is sealed. -/
theorem grows_nothing {im im' : Image} (hbase : im'.store.base = im.store.base)
    (hkept : ∀ i < im.store.base, im'.store.get? i = im.store.get? i)
    (hsymbols : im.symbols.Continues im'.symbols) : Grows [] im im' where
  base_le := Nat.le_of_eq hbase.symm
  kept := hkept
  closed := hbase ▸ Closed.nil _ _ _
  regions := by simp
  ordered := List.Pairwise.nil
  code := hsymbols.sameCode
  evolves := hsymbols.evolves
  sound := hsymbols.sound
  indexed := hsymbols.indexed

theorem Grows.refl (im : Image) : Grows [] im im :=
  grows_nothing rfl (fun _ _ => rfl) (SymbolTable.Continues.refl _)

theorem grows_rewound (im : Image) : Grows [] im im.rewound :=
  grows_nothing rfl (fun _ hi => im.store.get?_rewind hi) (SymbolTable.Continues.refl _)

/-- A generator that keeps the frame of a sealed store seals nothing. -/
theorem grows_of_framed {im : Image} {capacity : Nat} {store : Store}
    (h : Gen.Framed capacity im.store.base im.store store) :
    Grows [] im ⟨store, im.symbols⟩ :=
  grows_nothing h.base h.kept (SymbolTable.Continues.refl _)

/-- The code above the sealed cells is closed, and there is not too much of it. -/
structure Ready (capacity : Nat) (im : Image) : Prop where
  size_le : im.store.size ≤ capacity
  closed : Closed im.symbols.size im.store.cells im.store.base im.store.size

theorem ready_of_isSealed {capacity : Nat} {im : Image} (h : im.IsSealed)
    (hle : im.store.size ≤ capacity) : im.Ready capacity :=
  ⟨hle, h ▸ Closed.nil _ _ _⟩

theorem ready_rewound {capacity : Nat} (im : Image) (h : im.store.base ≤ capacity) :
    im.rewound.Ready capacity :=
  ready_of_isSealed im.isSealed_rewound (im.store.size_rewind.symm ▸ h)

/-! ### Generating definitions -/

section

variable (capacity : Nat) (echo : Bool)

/-- The regions that generating a row of definitions seals: one for each
definition in front of the first that fails. -/
def sealing : List Stmt → Image → List Region
  | .define kind id ss :: ds, im =>
    match define capacity echo (.define kind id ss) im with
    | .ok _ im' => ⟨id, im.store.base, im'.store.base⟩ :: sealing ds im'
    | .error _ _ => []
  | _, _ => []

/-- Generating a definition seals its region and locates its symbol, or seals
nothing. -/
theorem define_cases {im : Image} (hs : im.IsSealed) (hle : im.store.size ≤ capacity)
    (kind : DefinitionKind) {id : Nat} {ss : List Stmt} (hid : id < im.symbols.size)
    (hss : Stmt.AllInRange im.symbols.size ss) :
    (∃ f im', define capacity echo (.define kind id ss) im = .error f im' ∧
      Grows [] im im' ∧
        im'.store.size ≤ capacity) ∨
      ∃ im', define capacity echo (.define kind id ss) im = .ok () im' ∧
        Grows [⟨id, im.store.base, im'.store.base⟩] im im' ∧ im'.IsSealed ∧
        im'.store.size ≤ capacity ∧ im'.symbols.size = im.symbols.size := by
  rcases @Gen.body_cases ⟨capacity, echo, im.symbols⟩ ss hss im.store hs with
    ⟨f, store, herror, hframed⟩ | ⟨store, hok, hsealed, hkept, hsize, hclosed, hends⟩
  · refine .inl ⟨f, ⟨store, im.symbols⟩, ?_, grows_of_framed hframed, hframed.size_le hle⟩
    exact Action.bind_of_error (generating_of_error capacity echo herror)
  · let im' : Image := ⟨store, im.symbols.modify id (Symbol.located im.store.base)⟩
    have hharmless := im.symbols.harmless_located id im.store.base
    have hsymbols : im'.symbols.size = im.symbols.size := SymbolTable.size_modify ..
    refine .inr ⟨im', ?_, ?_, hsealed, hsize hle, hsymbols⟩
    · rw [define, Action.bind_of_ok (generating_of_ok capacity echo hok)]
      rfl
    · constructor
      · exact Nat.le_trans (Nat.le_add_right _ 2) hends.length
      · exact hkept
      · rw [hsymbols]
        exact hclosed
      · intro r hr
        rw [List.mem_singleton.mp hr]
        exact ⟨Nat.le_refl _, Nat.le_refl _, hends⟩
      · exact List.pairwise_singleton _ _
      · intro id'
        show ((im.symbols.modify id _).get id').code = if id = id' then _ else _
        rw [SymbolTable.get_modify]
        by_cases heq : id' = id
        · rw [if_pos ⟨heq, hid⟩, if_pos heq.symm]
          rfl
        · rw [if_neg fun hc => heq hc.1, if_neg fun hc => heq hc.symm]
      · exact SymbolTable.evolves_modify hharmless
      · exact fun h => h.modify hharmless
      · exact fun h => h.modify hharmless

/-- Generating definitions, up to one that fails. -/
theorem defineAll_grows {im : Image} (hs : im.IsSealed) (hle : im.store.size ≤ capacity)
    {ds : List Stmt} (hds : ∀ d ∈ ds, d.isDefinition ∧ d.InRange im.symbols.size) :
    Grows (sealing capacity echo ds im) im
      (Action.final (defineAll capacity echo ds im)) ∧
      (Action.final (defineAll capacity echo ds im)).store.size ≤ capacity ∧
      ∀ u im', defineAll capacity echo ds im = .ok u im' →
        im'.IsSealed ∧ im'.symbols.size = im.symbols.size := by
  -- each definition starts from the sealed image that the one before left
  induction ds generalizing im with
  | nil =>
    refine ⟨Grows.refl im, hle, ?_⟩
    rintro _ _ ⟨⟩
    exact ⟨hs, rfl⟩
  | cons d ds ih =>
    obtain ⟨⟨hd, hrange⟩, hrest⟩ := List.forall_mem_cons.mp hds
    cases d with
    | define kind id ss =>
      rcases define_cases capacity echo hs hle kind hrange.1 hrange.2 with
        ⟨f, im', herror, hgrows, hsize⟩ | ⟨im', hok, hgrows, hsealed, hsize, hsymbols⟩
      · have hall : defineAll capacity echo (.define kind id ss :: ds) im =
            .error f im' :=
          Action.bind_of_error herror
        rw [hall, sealing, herror]
        exact ⟨hgrows, hsize, fun _ _ hc => by cases hc⟩
      · have hall : defineAll capacity echo (.define kind id ss :: ds) im =
            defineAll capacity echo ds im' := Action.bind_of_ok hok
        obtain ⟨hgrows', hsize', hdone⟩ := ih hsealed hsize (hsymbols.symm ▸ hrest)
        rw [hall, sealing, hok]
        refine ⟨hgrows.trans hgrows', hsize', fun u im'' hrun => ?_⟩
        obtain ⟨hsealed', hsymbols'⟩ := hdone u im'' hrun
        exact ⟨hsealed', hsymbols'.trans hsymbols⟩
    | _ => exact absurd hd (by simp [Stmt.isDefinition])

/-! ### Generating programs -/

/-- Generating the statements that are no definitions seals nothing, and on
success leaves their code. -/
theorem main_grows {im : Image} (hs : im.IsSealed) (hle : im.store.size ≤ capacity)
    {ss : List Stmt} (hss : Stmt.AllInRange im.symbols.size (topLevel ss)) :
    Grows [] im (Action.final (main capacity echo ss im)) ∧
      (Action.final (main capacity echo ss im)).store.size ≤ capacity ∧
      ∀ a im', main capacity echo ss im = .ok a im' → im'.Ready capacity := by
  let cx : GenContext := ⟨capacity, echo, im.symbols⟩
  have hbuilds := (Gen.adds_stmts cx im.store.base hss []).bind fun _ => Gen.builds_end
  have hpending : Gen.Pending cx im.store.base 0 [] im.store := by
    rw [show im.store.base = im.store.size from hs]
    exact Gen.pending_start im.store
  obtain ⟨hframed, hdone⟩ := hbuilds im.store hpending
  have hmain : main capacity echo ss im =
      (generating capacity echo (fun cx => Gen.stmts cx (topLevel ss) >>= fun _ =>
        Gen.emit cx .stop) >>= fun _ => pure im.store.base) im := rfl
  rw [hmain]
  cases hrun : (Gen.stmts cx (topLevel ss) >>= fun _ => Gen.emit cx .stop) im.store with
  | error f store =>
    rw [hrun] at hframed
    rw [Action.bind_of_error (generating_of_error capacity echo hrun)]
    exact ⟨grows_of_framed hframed, hframed.size_le hle, fun _ _ hc => by cases hc⟩
  | ok u store =>
    rw [hrun] at hframed
    have hclosed := hdone u store hrun
    have hbase : store.base = im.store.base := hframed.base
    rw [Action.bind_of_ok (generating_of_ok capacity echo hrun)]
    refine ⟨grows_of_framed hframed, hframed.size_le hle, ?_⟩
    rintro _ _ ⟨⟩
    refine ⟨hframed.size_le hle, ?_⟩
    show Closed _ _ store.base _
    rw [hbase]
    exact hclosed

/-- The regions that generating a program seals. -/
def sealedBy (ss : List Stmt) (im : Image) : List Region :=
  sealing capacity echo (definitions ss) im.rewound

theorem isDefinition_definitions {n : Nat} {ss : List Stmt} (hss : Stmt.AllInRange n ss) :
    ∀ d ∈ definitions ss, d.isDefinition ∧ d.InRange n := fun d hd =>
  ⟨(List.mem_filter.mp hd).2, Stmt.allInRange_iff.mp hss d (List.mem_filter.mp hd).1⟩

theorem allInRange_topLevel {n : Nat} {ss : List Stmt} (hss : Stmt.AllInRange n ss) :
    Stmt.AllInRange n (topLevel ss) :=
  Stmt.allInRange_iff.mpr fun s hs =>
    Stmt.allInRange_iff.mp hss s (List.mem_filter.mp hs).1

/-- Generating any program whose places are in the table seals the regions of
its definitions, as many as come in front of the first failure. On success the
code of the other statements is behind them. -/
theorem program_grows {im : Image} (hle : im.store.base ≤ capacity) {ss : List Stmt}
    (hss : Stmt.AllInRange im.symbols.size ss) :
    Grows (sealedBy capacity echo ss im) im
      (Action.final (Image.program capacity echo ss im)) ∧
      (Action.final (Image.program capacity echo ss im)).store.size ≤ capacity ∧
      ∀ a im', Image.program capacity echo ss im = .ok a im' → im'.Ready capacity := by
  have hsize : im.rewound.store.size ≤ capacity := im.store.size_rewind.symm ▸ hle
  obtain ⟨hgrows, hsize', hdone⟩ :=
    defineAll_grows capacity echo im.isSealed_rewound hsize (isDefinition_definitions hss)
  have hprogram : Image.program capacity echo ss im =
      (defineAll capacity echo (definitions ss) >>= fun _ => main capacity echo ss)
        im.rewound := rfl
  have hgrows' := im.grows_rewound.trans hgrows
  rw [hprogram]
  cases hrun : defineAll capacity echo (definitions ss) im.rewound with
  | error f im' =>
    rw [hrun] at hgrows' hsize'
    rw [Action.bind_of_error hrun]
    exact ⟨hgrows', hsize', fun _ _ hc => by cases hc⟩
  | ok u im' =>
    rw [hrun] at hgrows' hsize'
    obtain ⟨hsealed, hsymbols⟩ := hdone u im' hrun
    obtain ⟨hmain, hsize'', hready⟩ := main_grows capacity echo hsealed hsize'
      (hsymbols.symm ▸ allInRange_topLevel hss)
    have hall := hgrows'.trans hmain
    rw [List.append_nil] at hall
    rw [Action.bind_of_ok hrun]
    exact ⟨hall, hsize'', hready⟩

/-- Generating the code of any program whose places are in the table, whether it
succeeds or not. -/
theorem generate_grows {im : Image} (hle : im.store.base ≤ capacity) {ss : List Stmt}
    (hss : Stmt.AllInRange im.symbols.size ss) :
    Grows (sealedBy capacity echo ss im) im
      (Action.final (generate capacity echo ss im)) ∧
      (Action.final (generate capacity echo ss im)).Ready capacity := by
  obtain ⟨hgrows, hsize, hready⟩ := program_grows capacity echo hle hss
  rw [generate]
  cases hrun : Image.program capacity echo ss im with
  | ok a im' =>
    rw [hrun] at hgrows
    exact ⟨hgrows, hready a im' hrun⟩
  | error f im' =>
    rw [hrun] at hgrows hsize
    have hall := hgrows.trans im'.grows_rewound
    rw [List.append_nil] at hall
    exact ⟨hall, ready_rewound im' (Nat.le_trans im'.store.base_le_size hsize)⟩

end

end Image

end StackCalc
