import StackCalc.Proofs.Code.Backpatching

/-!
# Generating a program

What generating a whole program does to the code and the symbols of a session.
Definitions are sealed one by one, as many as fit (`fitting`);
`Image.withDefinitions` is the code and the symbols after that. If there is room
for everything the code of the other statements follows, and otherwise the
generator fails and only the sealed definitions remain (`Image.generate_apply`).
-/

namespace StackCalc

/-! ### The layout stays as it is while the table evolves -/

namespace Layout

variable {t t' : SymbolTable} {inDefinition : Bool}

mutual

/-- What the code of an expression takes from the table are the values of
literals, and these do not change. -/
theorem expr_evolve (h : t.Evolves t') :
    ∀ {e : Expr}, e.WellFormed t inDefinition → expr t' e = expr t e
  | .literal _, hw => by rw [expr, expr, (h.number hw).2]
  | .variable _, _ => rfl
  | .binary _ _ _, ⟨_, hl, hr⟩ => by rw [expr, expr, expr_evolve h hl, expr_evolve h hr]
  | .unary _ _, ⟨_, he⟩ => by rw [expr, expr, expr_evolve h he]
  | .builtin _ _, ⟨_, _, he⟩ => by rw [expr, expr, expr_evolve h he]
  | .step _ _, _ => rfl
  | .call _ _, ⟨_, hes⟩ => by rw [expr, expr, exprs_evolve h hes]
  | .arg _, _ => rfl
  | .read _, _ => rfl

theorem exprs_evolve (h : t.Evolves t') :
    ∀ {es : List Expr}, Expr.AllWellFormed t inDefinition es → exprs t' es = exprs t es
  | [], _ => rfl
  | _ :: _, ⟨he, hes⟩ => by rw [exprs, exprs, expr_evolve h he, exprs_evolve h hes]

end

theorem clause_evolve (h : t.Evolves t') {s : Stmt} (hw : s.IsClause t inDefinition) :
    clause t' s = clause t s := by
  cases s with
  | assign op id e => rw [clause, clause, expr_evolve h hw.2.2]
  | argAssign n e => rw [clause, clause, expr_evolve h hw.2.2]
  | expr e => exact expr_evolve h hw
  | _ => exact hw.elim

/-- The code of an item stays as it is: the texts of a table do not change
either. -/
theorem printItem_evolve (h : t.Evolves t') {e : Expr} (hw : e.Printable t inDefinition) :
    printItem t' e = printItem t e := by
  cases e with
  | text id => rw [printItem, printItem, h.text hw.1]
  | _ =>
    have hexpr : Expr.WellFormed t inDefinition _ := hw
    exact congrArg (· ++ [plain .printValue]) (expr_evolve h hexpr)

theorem printItems_evolve (h : t.Evolves t') :
    ∀ {es : List Expr}, (∀ e ∈ es, e.Printable t inDefinition) →
      printItems t' es = printItems t es
  | [], _ => rfl
  | e :: es, hw => by
    rw [printItems, printItems, printItem_evolve h (hw e List.mem_cons_self),
      printItems_evolve h fun e' he' => hw e' (List.mem_cons_of_mem e he')]

variable {echo : Bool}

mutual

/-- The code of a statement stays as it is while the table evolves. -/
theorem stmt_evolve (h : t.Evolves t') (a : Nat) :
    ∀ {s : Stmt}, s.WellFormed t inDefinition → stmt t' echo a s = stmt t echo a s
  | .assign op id e, hw => by rw [stmt, stmt, clause_evolve (s := .assign op id e) h hw]
  | .argAssign n e, hw => by rw [stmt, stmt, clause_evolve (s := .argAssign n e) h hw]
  | .print _, hw => printItems_evolve h hw
  | .whileLoop _ _, ⟨hc, hb⟩ => by
    simp only [stmt, expr_evolve h hc, stmts_evolve h _ hb]
  | .forLoop _ _ _ _, ⟨hi, hc, hp, hb⟩ => by
    simp only [stmt, clause_evolve h hi, expr_evolve h hc, clause_evolve h hp,
      stmts_evolve h _ hb]
  | .ifThen _ _, ⟨hc, hb⟩ => by
    simp only [stmt, expr_evolve h hc, stmts_evolve h _ hb]
  | .ifElse _ _ _, ⟨hc, hb, ho⟩ => by
    simp only [stmt, expr_evolve h hc, stmts_evolve h _ hb, stmts_evolve h _ ho]
  | .expr e, hw => by rw [stmt, stmt, expr_evolve (e := e) h hw]
  | .call _ _, ⟨_, hes⟩ => by rw [stmt, stmt, exprs_evolve h hes]
  | .returnValue _, ⟨_, he⟩ => by rw [stmt, stmt, expr_evolve h he]
  | .returnNothing, _ => rfl

theorem stmts_evolve (h : t.Evolves t') (a : Nat) :
    ∀ {ss : List Stmt}, Stmt.AllWellFormed t inDefinition ss →
      stmts t' echo a ss = stmts t echo a ss
  | [], _ => rfl
  | _ :: _, ⟨hs, hss⟩ => by rw [stmts, stmts, stmt_evolve h a hs, stmts_evolve h _ hss]

end

theorem body_evolve (h : t.Evolves t') (a : Nat) {ss : List Stmt}
    (hw : Stmt.AllWellFormed t inDefinition ss) :
    body t' echo a ss = body t echo a ss := by
  rw [body, body, stmts_evolve h a hw]

theorem main_evolve (h : t.Evolves t') (a : Nat) {program : List Stmt}
    (hw : Stmt.AllWellFormed t inDefinition (topLevel program)) :
    main t' echo a program = main t echo a program := by
  rw [main_eq, main_eq, stmts_evolve h a hw]

end Layout

/-! ### Sealing definitions -/

/-- The symbol with the address of its code. -/
def Symbol.located (a : Nat) (s : Symbol) : Symbol :=
  { s with code := some a }

theorem SymbolTable.harmless_located (t : SymbolTable) (id a : Nat) :
    t.Harmless id (Symbol.located a) where
  name := rfl
  text := rfl
  native := rfl
  number h := ⟨h, rfl⟩
  builtin h := h
  new_number h := h
  new_builtin h := h

/-- The definitions that fit below `capacity` when they follow each other from
the address `a`. -/
def fitting (capacity a : Nat) : List Stmt → List Stmt
  | [] => []
  | d :: ds =>
    if a + d.regionSize ≤ capacity then d :: fitting capacity (a + d.regionSize) ds
      else []

/-- If there is room for all definitions, all of them fit. -/
theorem fitting_eq_self {capacity a : Nat} {ds : List Stmt}
    (h : a + Stmt.regionSizes ds ≤ capacity) : fitting capacity a ds = ds := by
  induction ds generalizing a with
  | nil => rfl
  | cons d ds ih =>
    rw [Stmt.regionSizes] at h
    rw [fitting, if_pos (by omega), ih (by omega)]

namespace Image

/-- The image after one definition: its region is sealed and its symbol points
there. -/
def withDefinition (echo : Bool) (im : Image) : Stmt → Image
  | .define _ id ss =>
    ⟨(im.store.append (Layout.body im.symbols echo im.store.size ss)).define.2,
      im.symbols.modify id (Symbol.located im.store.size)⟩
  | _ => im

/-- The image after several definitions. -/
def withDefinitions (echo : Bool) (im : Image) (ds : List Stmt) : Image :=
  ds.foldl (withDefinition echo) im

/-- The image with more cells behind its code. -/
def append (im : Image) (code : List Cell) : Image :=
  ⟨im.store.append code, im.symbols⟩

/-- An image without code above its sealed cells. -/
def IsSealed (im : Image) : Prop :=
  im.store.base = im.store.size

theorem isSealed_rewound (im : Image) : im.rewound.IsSealed :=
  (Store.size_rewind im.store).symm

/-- A definition is sealed at once, so that nothing stands above the sealed
cells. -/
theorem IsSealed.withDefinition {im : Image} (h : im.IsSealed) (echo : Bool) (d : Stmt) :
    (im.withDefinition echo d).IsSealed := by
  cases d with
  | define kind id ss => rfl
  | _ => exact h

theorem IsSealed.withDefinitions {im : Image} (h : im.IsSealed) (echo : Bool)
    (ds : List Stmt) :
    (im.withDefinitions echo ds).IsSealed := by
  induction ds generalizing im with
  | nil => exact h
  | cons d ds ih => exact ih (h.withDefinition echo d)

theorem size_withDefinition (echo : Bool) (im : Image) (d : Stmt) :
    (im.withDefinition echo d).store.size = im.store.size + d.regionSize := by
  cases d with
  | define kind id ss =>
    show (im.store.append _).size = _
    rw [Store.size_append, Layout.length_body, Stmt.regionSize]
  | _ => rfl

/-- A definition changes no entry but for the address of its code. -/
theorem evolves_withDefinition (echo : Bool) (im : Image) (d : Stmt) :
    im.symbols.Evolves (im.withDefinition echo d).symbols := by
  cases d with
  | define kind id ss =>
    exact SymbolTable.evolves_modify (im.symbols.harmless_located id _)
  | _ => exact SymbolTable.Evolves.refl _

end Image

/-! ### The generator at work -/

/-- The body of a definition is generated at the end of a sealed store. -/
theorem Gen.body_apply (cx : GenContext) {ss : List Stmt}
    (hss : Stmt.AllCodable cx.symbols ss) {s : Store} (hs : s.base = s.size) :
    (s.size + (Stmt.sizes ss + 2) ≤ cx.capacity →
      Gen.body cx ss s =
        .ok s.size (s.append (Layout.body cx.symbols cx.echo s.size ss)).define.2) ∧
    (¬ s.size + (Stmt.sizes ss + 2) ≤ cx.capacity →
      ∃ rest, Gen.body cx ss s = .error tooBig (s.append rest)) := by
  have hemits : Emits cx.capacity
      (stmts cx ss >>= fun _ => plain cx .returnNothing >>= fun _ => emit cx .stop)
      fun a => Layout.body cx.symbols cx.echo a ss :=
    (emits_stmts cx ss hss).seq
      ((emits_emit cx (Layout.plain .returnNothing)).seq (emits_emit cx .stop))
  have hbody : Gen.body cx ss =
      (stmts cx ss >>= fun _ => plain cx .returnNothing >>= fun _ => emit cx .stop) >>=
        fun _ => modifyGet Store.define := by
    simp only [Gen.body, bind_assoc]
  obtain ⟨-, hfits, hfails⟩ := hemits s
  rw [Store.append_nil] at hfits hfails
  simp only [Room, Layout.length_body, List.length_nil] at hfits hfails
  rw [hbody]
  constructor
  · intro hroom
    rw [Action.bind_of_ok (hfits (.inr hroom)), Action.modifyGet_apply]
    exact congrArg (EStateM.Result.ok · _) hs
  · intro hroom
    obtain ⟨rest, hrest⟩ := hfails (by omega)
    exact ⟨rest, Action.bind_of_error hrest⟩

namespace Image

variable (capacity : Nat) (echo : Bool)

/-- A generator that succeeds on the store succeeds on the image, whose symbols
it only reads. -/
theorem generating_of_ok {α : Type} {g : GenContext → Gen α} {im : Image} {x : α}
    {store : Store} (h : g ⟨capacity, echo, im.symbols⟩ im.store = .ok x store) :
    generating capacity echo g im = .ok x ⟨store, im.symbols⟩ := by
  rw [generating, h]

theorem generating_of_error {α : Type} {g : GenContext → Gen α} {im : Image} {f : Fault}
    {store : Store} (h : g ⟨capacity, echo, im.symbols⟩ im.store = .error f store) :
    generating capacity echo g im = .error f ⟨store, im.symbols⟩ := by
  rw [generating, h]

/-- A definition is sealed if its region fits; if not, the generator fails and
leaves some cells behind the sealed ones. -/
theorem define_apply {im : Image} (hs : im.IsSealed) {d : Stmt} (hd : d.isDefinition)
    (hw : d.IsTopLevel im.symbols) :
    (im.store.size + d.regionSize ≤ capacity →
      define capacity echo d im = .ok () (im.withDefinition echo d)) ∧
    (¬ im.store.size + d.regionSize ≤ capacity →
      ∃ rest, define capacity echo d im = .error tooBig (im.append rest)) := by
  cases d with
  | define kind id ss =>
    obtain ⟨hfits, hfails⟩ := Gen.body_apply ⟨capacity, echo, im.symbols⟩ hw.2.codable hs
    constructor
    · intro hroom
      rw [define, Action.bind_of_ok (generating_of_ok capacity echo (hfits hroom))]
      rfl
    · intro hroom
      obtain ⟨rest, hrest⟩ := hfails hroom
      exact ⟨rest, Action.bind_of_error (generating_of_error capacity echo hrest)⟩
  | _ => exact absurd hd (by simp [Stmt.isDefinition])

/-- As many definitions are sealed as fit; if one does not, the generator fails
there. -/
theorem defineAll_apply {im : Image} (hs : im.IsSealed) {ds : List Stmt}
    (hds : ∀ d ∈ ds, d.isDefinition ∧ d.IsTopLevel im.symbols) :
    (fitting capacity im.store.size ds = ds →
      defineAll capacity echo ds im = .ok () (im.withDefinitions echo ds)) ∧
    (fitting capacity im.store.size ds ≠ ds →
      ∃ rest, defineAll capacity echo ds im =
        .error tooBig
          ((im.withDefinitions echo (fitting capacity im.store.size ds)).append
            rest)) := by
  -- the store is sealed again after each definition, so that the next one starts at
  -- its end
  induction ds generalizing im with
  | nil => exact ⟨fun _ => rfl, fun h => absurd rfl h⟩
  | cons d ds ih =>
    obtain ⟨hfits, hfails⟩ := define_apply capacity echo hs
      (hds d List.mem_cons_self).1 (hds d List.mem_cons_self).2
    have htail : ∀ d' ∈ ds, d'.isDefinition ∧
        d'.IsTopLevel (im.withDefinition echo d).symbols := fun d' hd' =>
      ⟨(hds d' (List.mem_cons_of_mem d hd')).1,
        (hds d' (List.mem_cons_of_mem d hd')).2.evolve (evolves_withDefinition echo im d)⟩
    have hih := ih (hs.withDefinition echo d) htail
    rw [size_withDefinition] at hih
    rw [fitting]
    by_cases hroom : im.store.size + d.regionSize ≤ capacity
    · rw [if_pos hroom, defineAll, Action.bind_of_ok (hfits hroom)]
      refine ⟨fun h => hih.1 (List.cons.inj h).2, fun h => hih.2 fun hc => h (by rw [hc])⟩
    · rw [if_neg hroom]
      -- the first definition that does not fit ends it; what it left stands behind
      -- the sealed cells
      obtain ⟨rest, hrest⟩ := hfails hroom
      refine ⟨fun h => absurd h (List.cons_ne_nil d ds).symm, fun _ => ⟨rest, ?_⟩⟩
      rw [defineAll, Action.bind_of_error hrest]
      rfl

/-- The statements of a program that are no definitions, when all parts of it
have a meaning. -/
theorem allWellFormed_topLevel {t : SymbolTable} {program : List Stmt}
    (hw : ∀ s ∈ program, s.IsTopLevel t) :
    Stmt.AllWellFormed t false (topLevel program) := by
  refine Stmt.allWellFormed_iff.mpr fun s hs => ?_
  obtain ⟨hmem, hnot⟩ := List.mem_filter.mp hs
  have h := hw s hmem
  cases s with
  | define kind id ss => exact absurd hnot (by simp [Stmt.isDefinition])
  | _ => exact h

theorem isTopLevel_definitions {t : SymbolTable} {program : List Stmt}
    (hw : ∀ s ∈ program, s.IsTopLevel t) :
    ∀ d ∈ definitions program, d.isDefinition ∧ d.IsTopLevel t := fun d hd =>
  ⟨(List.mem_filter.mp hd).2, hw d (List.mem_filter.mp hd).1⟩

theorem evolves_withDefinitions (im : Image) (ds : List Stmt) :
    im.symbols.Evolves (im.withDefinitions echo ds).symbols := by
  induction ds generalizing im with
  | nil => exact SymbolTable.Evolves.refl _
  | cons d ds ih => exact (evolves_withDefinition echo im d).trans (ih _)

theorem size_withDefinitions (im : Image) (ds : List Stmt) :
    (im.withDefinitions echo ds).store.size = im.store.size + Stmt.regionSizes ds := by
  induction ds generalizing im with
  | nil => rfl
  | cons d ds ih =>
    show ((im.withDefinition echo d).withDefinitions echo ds).store.size = _
    rw [ih, size_withDefinition, Stmt.regionSizes, Nat.add_assoc]

/-- Generating the code of the statements that are no definitions. -/
theorem main_apply {im : Image} (hs : im.IsSealed) {program : List Stmt}
    (hw : ∀ s ∈ program, s.IsTopLevel im.symbols) :
    (im.store.size + (Stmt.sizes (topLevel program) + 1) ≤ capacity →
      main capacity echo program im =
        .ok im.store.size
          (im.append (Layout.main im.symbols echo im.store.size program))) ∧
    (¬ im.store.size + (Stmt.sizes (topLevel program) + 1) ≤ capacity →
      ∃ rest, main capacity echo program im = .error tooBig (im.append rest)) := by
  obtain ⟨-, hfits, hfails⟩ :=
    (Gen.emits_stmts ⟨capacity, echo, im.symbols⟩ (topLevel program)
      (allWellFormed_topLevel hw).codable).seq (Gen.emits_emit _ .stop) im.store
  rw [Store.append_nil] at hfits hfails
  simp only [Gen.Room, List.length_append, Layout.length_stmts, List.length_nil,
    List.length_singleton] at hfits hfails
  have hmain : main capacity echo program im =
      (generating capacity echo (fun cx => Gen.stmts cx (topLevel program) >>= fun _ =>
        Gen.emit cx .stop) >>= fun _ => pure im.store.base) im := rfl
  rw [hmain]
  constructor
  · intro hroom
    rw [Action.bind_of_ok (generating_of_ok capacity echo (hfits (.inr hroom))),
      Layout.main_eq]
    exact congrArg (EStateM.Result.ok · _) hs
  · intro hroom
    obtain ⟨rest, hrest⟩ := hfails (by omega)
    exact ⟨rest, Action.bind_of_error (generating_of_error capacity echo hrest)⟩

/-- Generating a program: if all of it fits, its definitions are sealed and the
code of its other statements follows. Otherwise the definitions that fit are
sealed and the generator fails. -/
theorem program_apply {im : Image} {program : List Stmt}
    (hw : ∀ s ∈ program, s.IsTopLevel im.symbols) :
    (im.store.base + footprint program ≤ capacity →
      Image.program capacity echo program im =
        .ok (im.store.base + Stmt.regionSizes (definitions program))
          ((im.rewound.withDefinitions echo (definitions program)).append
            (Layout.main im.symbols echo
              (im.store.base + Stmt.regionSizes (definitions program)) program))) ∧
    (¬ im.store.base + footprint program ≤ capacity →
      ∃ rest, Image.program capacity echo program im =
        .error tooBig
          ((im.rewound.withDefinitions echo
            (fitting capacity im.store.base (definitions program))).append rest)) := by
  have hsize : im.rewound.store.size = im.store.base := im.store.size_rewind
  have hprogram : Image.program capacity echo program im =
      (defineAll capacity echo (definitions program) >>=
        fun _ => main capacity echo program) im.rewound := rfl
  obtain ⟨hall, hsome⟩ := defineAll_apply capacity echo im.isSealed_rewound
    (isTopLevel_definitions hw)
  rw [hsize] at hall hsome
  -- the other statements go behind all definitions
  have hevolves : im.symbols.Evolves
      (im.rewound.withDefinitions echo (definitions program)).symbols :=
    evolves_withDefinitions echo im.rewound _
  obtain ⟨hfits, hfails⟩ := main_apply capacity echo
    (im.isSealed_rewound.withDefinitions echo (definitions program))
    fun s hs => (hw s hs).evolve hevolves
  rw [size_withDefinitions, hsize,
    Layout.main_evolve hevolves _ (allWellFormed_topLevel hw)] at hfits
  rw [size_withDefinitions, hsize] at hfails
  rw [hprogram, footprint_eq]
  constructor
  · intro hroom
    rw [Action.bind_of_ok (hall (fitting_eq_self (by omega)))]
    exact hfits (by omega)
  · intro hroom
    -- either the definitions do not fit, or they do and the rest does not
    by_cases hfit : fitting capacity im.store.base (definitions program) =
      definitions program
    · obtain ⟨rest, hrest⟩ := hfails (by omega)
      exact ⟨rest, by rw [Action.bind_of_ok (hall hfit), hrest, hfit]⟩
    · obtain ⟨rest, hrest⟩ := hsome hfit
      exact ⟨rest, Action.bind_of_error hrest⟩

/-- What is left behind the sealed cells of a failed generation is discarded. -/
theorem rewound_append {im : Image} (hs : im.IsSealed) (code : List Cell) :
    (im.append code).rewound = im := by
  obtain ⟨store, symbols⟩ := im
  refine congrArg (Image.mk · symbols) (Store.ext ?_ rfl)
  have hbase : store.base = store.cells.size := hs
  simp [append, Store.append, Store.rewind, hbase]

/-- Generating a program leaves its definitions, as many as fit, and on success
its code. -/
theorem generate_apply {im : Image} {program : List Stmt}
    (hw : ∀ s ∈ program, s.IsTopLevel im.symbols) :
    (im.store.base + footprint program ≤ capacity →
      generate capacity echo program im =
        .ok (im.store.base + Stmt.regionSizes (definitions program))
          ((im.rewound.withDefinitions echo (definitions program)).append
            (Layout.main im.symbols echo
              (im.store.base + Stmt.regionSizes (definitions program)) program))) ∧
    (¬ im.store.base + footprint program ≤ capacity →
      generate capacity echo program im =
        .error tooBig
          (im.rewound.withDefinitions echo
            (fitting capacity im.store.base (definitions program)))) := by
  obtain ⟨hfits, hfails⟩ := program_apply capacity echo hw
  constructor
  · intro hroom
    rw [generate, hfits hroom]
  · intro hroom
    obtain ⟨rest, hrest⟩ := hfails hroom
    rw [generate, hrest]
    exact congrArg _ (rewound_append (im.isSealed_rewound.withDefinitions echo _) rest)

end Image

end StackCalc
