import StackCalc.Proofs.Code.Generation
import StackCalc.Proofs.Parser.WellFormed

/-!
# One pass writes what two passes would

The generator appends cells in one pass and patches addresses afterwards.
`Image.Assembled` says that an image is the one an assembler in two passes would
have left: the regions of the layout one after the other, the addresses of the
last definitions, and addresses that all point forward inside their own region.
`generate_iff_assembled` is the result: generating the code of a program that
was read from a text succeeds exactly when its cells fit, and leaves what the
assembler would have left.
-/

namespace StackCalc

/-! ### Addresses point forward -/

/-- A cell at `a` that is no address, or one of a later cell up to `last`. -/
def Cell.PointsForward (last a : Nat) : Cell → Prop
  | .address x => a < x ∧ x ≤ last
  | _ => True

/-- Code at `a` in which every address is that of a later cell up to `last`. -/
def Forward (last : Nat) : Nat → List Cell → Prop
  | _, [] => True
  | a, c :: cs => c.PointsForward last a ∧ Forward last (a + 1) cs

@[simp] theorem forward_nil (last a : Nat) : Forward last a [] :=
  trivial

@[simp] theorem forward_cons (last a : Nat) (c : Cell) (cs : List Cell) :
    Forward last a (c :: cs) ↔ c.PointsForward last a ∧ Forward last (a + 1) cs :=
  Iff.rfl

@[simp] theorem forward_append (last a : Nat) (xs ys : List Cell) :
    Forward last a (xs ++ ys) ↔ Forward last a xs ∧ Forward last (a + xs.length) ys := by
  induction xs generalizing a with
  | nil => simp
  | cons c cs ih =>
    rw [List.cons_append, forward_cons, ih, forward_cons, List.length_cons, and_assoc,
      show a + 1 + cs.length = a + (cs.length + 1) by omega]

/-- Addresses may be asked to stay below a later cell. -/
theorem Forward.mono {last last' a : Nat} {code : List Cell} (h : Forward last a code)
    (hle : last ≤ last') : Forward last' a code := by
  induction code generalizing a with
  | nil => trivial
  | cons c cs ih =>
    refine ⟨?_, ih h.2⟩
    cases c with
    | address x => exact ⟨h.1.1, Nat.le_trans h.1.2 hle⟩
    | _ => trivial

/-- The same with the address of the code written in another way. -/
theorem Forward.at {last last' a b : Nat} {code : List Cell} (h : Forward last b code)
    (hb : b = a) (hle : last ≤ last') : Forward last' a code :=
  hb ▸ h.mono hle

/-- An address in code that points forward. -/
theorem Forward.of_getElem? {last a i x : Nat} {code : List Cell}
    (h : Forward last a code) (hi : code[i]? = some (.address x)) :
    a + i < x ∧ x ≤ last := by
  induction code generalizing a i with
  | nil => simp at hi
  | cons c cs ih =>
    cases i with
    | zero =>
      rw [List.getElem?_cons_zero, Option.some.injEq] at hi
      subst hi
      exact h.1
    | succ i =>
      rw [List.getElem?_cons_succ] at hi
      have := ih h.2 hi
      omega

namespace Layout

variable (t : SymbolTable) (last : Nat)

/-- The cell of an operation, or the stop in its place, is no address. -/
theorem pointsForward_getD {α : Type} (o : Option α) (f : α → Instruction) (a : Nat) :
    ((o.map fun x => plain (f x)).getD .stop).PointsForward last a := by
  cases o <;> trivial

mutual

/-- There are no addresses in the code of an expression. -/
theorem forward_expr : ∀ (a : Nat) (e : Expr), Forward last a (expr t e)
  | _, .literal _ => ⟨trivial, trivial, trivial⟩
  | _, .variable _ => ⟨trivial, trivial, trivial, trivial⟩
  | _, .text _ => ⟨trivial, trivial⟩
  | a, .binary op lhs rhs => by
    rw [expr, forward_append, forward_append]
    exact ⟨⟨forward_expr a lhs, forward_expr _ rhs⟩,
      pointsForward_getD last _ .binary _, trivial⟩
  | a, .unary op e => by
    rw [expr, forward_append]
    exact ⟨forward_expr a e, pointsForward_getD last _ id _, trivial⟩
  | a, .builtin id e => by
    rw [expr, forward_append]
    exact ⟨forward_expr a e, trivial, trivial, trivial⟩
  | _, .step _ _ => ⟨trivial, trivial, trivial⟩
  | a, .call id es => by
    rw [expr, forward_append]
    exact ⟨forward_exprs a es, trivial, trivial, trivial, trivial⟩
  | _, .arg _ => ⟨trivial, trivial, trivial⟩
  | _, .read _ => ⟨trivial, trivial, trivial⟩

theorem forward_exprs : ∀ (a : Nat) (es : List Expr), Forward last a (exprs t es)
  | _, [] => trivial
  | a, e :: es => by
    rw [exprs, forward_append]
    exact ⟨forward_expr a e, forward_exprs _ es⟩

end

/-- There are no addresses in the code of a clause. -/
theorem forward_clause (a : Nat) (s : Stmt) : Forward last a (clause t s) := by
  cases s with
  | assign op id e =>
    rw [clause, forward_append]
    exact ⟨forward_expr t last a e, trivial, trivial,
      pointsForward_getD last _ .assign _, trivial⟩
  | argAssign n e =>
    rw [clause, forward_append]
    exact ⟨forward_expr t last a e, trivial, trivial, trivial⟩
  | expr e => exact forward_expr t last a e
  | _ => exact ⟨trivial, trivial⟩

/-- There are no addresses in the code of items. -/
theorem forward_printItems (a : Nat) (es : List Expr) :
    Forward last a (printItems t es) := by
  induction es generalizing a with
  | nil => trivial
  | cons e es ih =>
    rw [printItems, forward_append]
    refine ⟨?_, ih _⟩
    cases e with
    | text id => exact ⟨trivial, trivial, trivial⟩
    | _ => exact (forward_append ..).mpr ⟨forward_expr t last a _, trivial, trivial⟩

variable (echo : Bool)

mutual

/-- The addresses of a statement point forward, at most to the cell behind it. -/
theorem forward_stmt : ∀ (a : Nat) (s : Stmt), Forward (a + s.size) a (stmt t echo a s)
  | a, .assign op id e => by
    rw [stmt, forward_append]
    exact ⟨forward_clause t _ a _, trivial, trivial⟩
  | a, .argAssign n e => by
    rw [stmt, forward_append]
    exact ⟨forward_clause t _ a _, trivial, trivial⟩
  | a, .print items => forward_printItems t _ a items
  | a, .whileLoop cond body => by
    simp only [stmt, forward_append, forward_cons, forward_nil, Cell.PointsForward,
      List.length_append, List.length_cons, List.length_nil, length_expr,
      Stmt.size, and_true, true_and]
    refine ⟨⟨⟨⟨?_, ?_⟩, ?_, ?_⟩, forward_expr t _ _ cond⟩,
      (forward_stmts _ body).at (by omega) (by omega)⟩
    -- each slot lies before its target, and the targets lie before the end of the
    -- statement
    all_goals omega
  | a, .forLoop init cond post body => by
    simp only [stmt, forward_append, forward_cons, forward_nil, Cell.PointsForward,
      List.length_append, List.length_cons, List.length_nil, length_expr,
      length_clause, Stmt.size, and_true, true_and]
    refine ⟨⟨⟨⟨⟨⟨?_, ?_⟩, ⟨?_, ?_⟩, ⟨?_, ?_⟩, ?_, ?_⟩, forward_clause t _ _ init⟩,
      forward_expr t _ _ cond⟩, forward_clause t _ _ post⟩,
      (forward_stmts _ body).at (by omega) (by omega)⟩
    all_goals omega
  | a, .ifThen cond body => by
    simp only [stmt, forward_append, forward_cons, forward_nil, Cell.PointsForward,
      List.length_append, List.length_cons, List.length_nil, length_expr,
      Stmt.size, and_true, true_and]
    refine ⟨⟨⟨⟨?_, ?_⟩, ?_, ?_⟩, forward_expr t _ _ cond⟩,
      (forward_stmts _ body).at (by omega) (by omega)⟩
    all_goals omega
  | a, .ifElse cond body other => by
    simp only [stmt, forward_append, forward_cons, forward_nil, Cell.PointsForward,
      List.length_append, List.length_cons, List.length_nil, length_expr,
      length_stmts, Stmt.size, and_true, true_and]
    refine ⟨⟨⟨⟨⟨?_, ?_⟩, ⟨?_, ?_⟩, ?_, ?_⟩, forward_expr t _ _ cond⟩,
      (forward_stmts _ body).at (by omega) (by omega)⟩,
      (forward_stmts _ other).at (by omega) (by omega)⟩
    all_goals omega
  | a, .expr e => by
    rw [stmt, forward_append]
    exact ⟨forward_expr t _ a e, by cases echo <;> exact trivial, trivial⟩
  | a, .call id es => by
    rw [stmt, forward_append]
    exact ⟨forward_exprs t _ a es, trivial, trivial, trivial, trivial⟩
  | a, .returnValue e => by
    rw [stmt, forward_append]
    exact ⟨forward_expr t _ a e, trivial, trivial⟩
  | _, .returnNothing => ⟨trivial, trivial⟩
  | _, .define _ _ _ => ⟨trivial, trivial⟩

/-- The addresses of statements in a row stay before the cell behind the last
one. -/
theorem forward_stmts : ∀ (a : Nat) (ss : List Stmt),
    Forward (a + Stmt.sizes ss) a (stmts t echo a ss)
  | _, [] => trivial
  | a, s :: ss => by
    rw [stmts, forward_append, length_stmt, Stmt.sizes]
    exact ⟨(forward_stmt a s).mono (by omega),
      (forward_stmts (a + s.size) ss).mono (by omega)⟩

end

/-- The addresses of a definition stay inside its region. -/
theorem forward_region (a : Nat) (d : Stmt) :
    Forward (a + d.regionSize - 1) a (region t echo a d) := by
  cases d with
  | define kind id ss =>
    rw [region, body, forward_append]
    refine ⟨(forward_stmts t echo a ss).mono ?_, trivial, trivial, trivial⟩
    rw [Stmt.regionSize]
    omega
  | _ => trivial

/-- The addresses of the code outside of definitions stay inside it. -/
theorem forward_main (a : Nat) (program : List Stmt) :
    Forward (a + Stmt.sizes (topLevel program)) a (main t echo a program) := by
  rw [main_eq, forward_append]
  exact ⟨forward_stmts t echo a _, trivial, trivial⟩

/-! ### Regions -/

/-- Regions that follow each other from the address `a` without a gap. -/
def Tiles : Nat → List (Nat × List Cell) → Prop
  | _, [] => True
  | a, r :: rs => r.1 = a ∧ Tiles (a + r.2.length) rs

/-- Every cell of regions that follow each other stands in one of them. -/
theorem Tiles.exists_region {a i : Nat} {rs : List (Nat × List Cell)} {c : Cell}
    (h : Tiles a rs) (hi : (rs.flatMap Prod.snd)[i]? = some c) :
    ∃ r ∈ rs, ∃ j, a + i = r.1 + j ∧ r.2[j]? = some c := by
  induction rs generalizing a i with
  | nil => simp at hi
  | cons r rs ih =>
    rw [List.flatMap_cons, List.getElem?_append] at hi
    split at hi
    · exact ⟨r, List.mem_cons_self, i, by rw [h.1], hi⟩
    · obtain ⟨r', hmem, j, hj, hc⟩ := ih h.2 hi
      exact ⟨r', List.mem_cons_of_mem r hmem, j, by omega, hc⟩

/-- The regions of definitions stand one behind the other. -/
theorem tiles_regionsFrom (a : Nat) (ds : List Stmt) (rest : List (Nat × List Cell))
    (hrest : Tiles (a + Stmt.regionSizes ds) rest) :
    Tiles a (regionsFrom t echo a ds ++ rest) := by
  induction ds generalizing a with
  | nil => exact hrest
  | cons d ds ih =>
    rw [Stmt.regionSizes, ← Nat.add_assoc] at hrest
    refine ⟨rfl, ?_⟩
    show Tiles (a + (region t echo a d).length) _
    rw [length_region]
    exact ih _ hrest

/-- The regions of a program stand one behind the other, from its base on. -/
theorem tiles_regions (base : Nat) (program : List Stmt) :
    Tiles base (regions t echo base program) :=
  tiles_regionsFrom t echo base (definitionPart program) _ ⟨rfl, trivial⟩

theorem forward_regionsFrom (a : Nat) (ds : List Stmt) :
    ∀ r ∈ regionsFrom t echo a ds, Forward (r.1 + r.2.length - 1) r.1 r.2 := by
  induction ds generalizing a with
  | nil => simp [regionsFrom]
  | cons d ds ih =>
    refine List.forall_mem_cons.mpr ⟨?_, ih _⟩
    show Forward (a + (region t echo a d).length - 1) a (region t echo a d)
    rw [length_region]
    exact forward_region t echo a d

theorem forward_regions (base : Nat) (program : List Stmt) :
    ∀ r ∈ regions t echo base program, Forward (r.1 + r.2.length - 1) r.1 r.2 := by
  refine List.forall_mem_append.mpr ⟨forward_regionsFrom t echo base _, ?_⟩
  refine List.forall_mem_cons.mpr ⟨?_, by simp⟩
  show Forward (_ + (main t echo _ program).length - 1) _ (main t echo _ program)
  rw [length_main]
  exact forward_main t echo _ program

/-- An address in the regions of a program points forward inside its region. -/
theorem regions_address {base i x : Nat} {program : List Stmt}
    (hi : ((regions t echo base program).flatMap Prod.snd)[i]? = some (.address x)) :
    base + i < x ∧ ∃ r ∈ regions t echo base program,
      r.1 ≤ base + i ∧ x < r.1 + r.2.length := by
  obtain ⟨r, hmem, j, hj, hc⟩ := (tiles_regions t echo base program).exists_region hi
  have hx := (forward_regions t echo base program r hmem).of_getElem? hc
  have hlt : j < r.2.length := (List.getElem?_eq_some_iff.mp hc).1
  exact ⟨by omega, r, hmem, by omega, by omega⟩

variable {t} in
/-- The regions may be laid out with the table of any later moment. -/
theorem regionsFrom_evolve {t' : SymbolTable} (h : t.Evolves t') (a : Nat)
    {ds : List Stmt} (hds : ∀ d ∈ ds, d.IsTopLevel t) :
    regionsFrom t' echo a ds = regionsFrom t echo a ds := by
  induction ds generalizing a with
  | nil => rfl
  | cons d ds ih =>
    obtain ⟨hd, hrest⟩ := List.forall_mem_cons.mp hds
    have hregion : region t' echo a d = region t echo a d := by
      cases d with
      | define kind id ss => exact body_evolve h a hd.2
      | _ => rfl
    rw [regionsFrom, regionsFrom, hregion, ih _ hrest]

end Layout

/-! ### What the definitions leave -/

namespace Image

variable (echo : Bool)

/-- The cells of definitions are those of their regions. -/
theorem cells_withDefinitions (im : Image) {ds : List Stmt}
    (hds : ∀ d ∈ ds, d.IsTopLevel im.symbols) :
    (im.withDefinitions echo ds).store.cells.toList =
      im.store.cells.toList ++
        (Layout.regionsFrom im.symbols echo im.store.size ds).flatMap Prod.snd := by
  induction ds generalizing im with
  | nil => exact (List.append_nil _).symm
  | cons d ds ih =>
    obtain ⟨hd, hrest⟩ := List.forall_mem_cons.mp hds
    -- the later definitions are laid out with the symbols as the first one has
    -- left them
    have hevolves := evolves_withDefinition echo im d
    have hcells : (im.withDefinition echo d).store.cells.toList =
        im.store.cells.toList ++ Layout.region im.symbols echo im.store.size d := by
      cases d with
      | define kind id ss =>
        simp [withDefinition, Store.append, Store.define, Layout.region]
      | _ => exact (List.append_nil _).symm
    show ((im.withDefinition echo d).withDefinitions echo ds).store.cells.toList = _
    rw [ih _ fun d' hd' => (hrest d' hd').evolve hevolves, hcells, size_withDefinition,
      Layout.regionsFrom_evolve echo hevolves _ hrest, Layout.regionsFrom,
      List.flatMap_cons, List.append_assoc]

/-- Each defined symbol has the address of its last definition; nothing else
changes. -/
theorem get_withDefinitions (im : Image) {ds : List Stmt}
    (hds : ∀ d ∈ ds, d.IsTopLevel im.symbols) (id : Nat) :
    (im.withDefinitions echo ds).symbols.get id =
      { im.symbols.get id with
        code := ((Layout.starts im.store.size ds).reverse.lookup id).or
          (im.symbols.get id).code } := by
  -- a later definition of the same symbol is found first in the reversed list
  induction ds generalizing im with
  | nil => rfl
  | cons d ds ih =>
    obtain ⟨hd, hrest⟩ := List.forall_mem_cons.mp hds
    have hevolves := evolves_withDefinition echo im d
    show ((im.withDefinition echo d).withDefinitions echo ds).symbols.get id = _
    rw [ih _ fun d' hd' => (hrest d' hd').evolve hevolves, size_withDefinition]
    cases d with
    | define kind id' ss =>
      have hget : (im.withDefinition echo (.define kind id' ss)).symbols.get id =
          if id = id' then Symbol.located im.store.size (im.symbols.get id)
          else im.symbols.get id := by
        show (im.symbols.modify id' _).get id = _
        rw [SymbolTable.get_modify]
        by_cases hid : id = id'
        · rw [if_pos ⟨hid, hd.1⟩, if_pos hid, hid]
        · rw [if_neg fun hc => hid hc.1, if_neg hid]
      rw [hget, Layout.starts, List.reverse_cons, List.lookup_append, Stmt.regionSize,
        Nat.add_assoc]
      by_cases hid : id = id'
      · rw [if_pos hid, hid]
        simp [Symbol.located]
      · rw [if_neg hid]
        simp [List.lookup_cons, beq_false_of_ne hid]
    | _ => rfl

/-- The image `after` is what an assembler in two passes leaves of the program
at hand, whose code starts at `entry`, above the sealed cells of the image
`before`. -/
structure Assembled (before : Image) (program : List Stmt) (entry : Nat) (after : Image) :
    Prop where
  /-- The code of the program starts behind its definitions, and these are
  sealed. -/
  entry_eq : entry = before.store.base + Stmt.regionSizes (definitionPart program)
  base_eq : after.store.base = entry
  /-- Above the sealed cells stand the regions of the layout, and nothing else. -/
  cells_eq : after.store.cells.toList =
    before.store.cells.toList.take before.store.base ++
      (Layout.regions before.symbols echo before.store.base program).flatMap Prod.snd
  /-- A defined symbol has the address of its last definition; nothing else
  about symbols changes. -/
  symbols_eq : ∀ id, after.symbols.get id =
    { before.symbols.get id with
      code :=
        ((Layout.starts before.store.base (definitionPart program)).reverse.lookup id).or
          (before.symbols.get id).code }
  /-- An address points forward, to a cell of the region it stands in. -/
  forward : ∀ s x, before.store.base ≤ s → after.store.get? s = some (.address x) →
    s < x ∧ ∃ r ∈ Layout.regions before.symbols echo before.store.base program,
      r.1 ≤ s ∧ x < r.1 + r.2.length

/-- The sealed definitions with the code of the other statements behind them. -/
theorem assembled_withDefinitions (im : Image) {program : List Stmt}
    (hw : ∀ s ∈ program, s.IsTopLevel im.symbols) :
    Assembled echo im program (im.store.base + Stmt.regionSizes (definitions program))
      ((im.rewound.withDefinitions echo (definitions program)).append
        (Layout.main im.symbols echo
          (im.store.base + Stmt.regionSizes (definitions program)) program)) := by
  have hds : ∀ d ∈ definitions program, d.IsTopLevel im.rewound.symbols := fun d hd =>
    (isTopLevel_definitions hw d hd).2
  have hsize : im.rewound.store.size = im.store.base := im.store.size_rewind
  have hcells := cells_withDefinitions echo im.rewound hds
  have hsymbols := get_withDefinitions echo im.rewound hds
  rw [hsize] at hcells hsymbols
  have hcode : ((im.rewound.withDefinitions echo (definitions program)).append
      (Layout.main im.symbols echo
        (im.store.base + Stmt.regionSizes (definitions program))
          program)).store.cells.toList =
      im.store.cells.toList.take im.store.base ++
        (Layout.regions im.symbols echo im.store.base program).flatMap Prod.snd := by
    show ((im.rewound.withDefinitions echo (definitions program)).store.cells ++
      (Layout.main im.symbols echo _ program).toArray).toList = _
    rw [Array.toList_append, hcells, Layout.regions, definitionPart_eq,
      List.flatMap_append, List.append_assoc]
    simp [rewound, Store.rewind]
  refine ⟨by rw [definitionPart_eq], ?_, hcode, ?_, fun s x hs hx => ?_⟩
  · show (im.rewound.withDefinitions echo (definitions program)).store.base = _
    rw [im.isSealed_rewound.withDefinitions echo (definitions program),
      size_withDefinitions, hsize]
  · rw [definitionPart_eq]
    exact hsymbols
  · have hlength : (im.store.cells.toList.take im.store.base).length = im.store.base := by
      rw [List.length_take, Array.length_toList, Nat.min_eq_left im.store.base_le_size]
    -- a cell above the sealed ones stands in one of the regions
    rw [Store.get?, ← Array.getElem?_toList, hcode,
      List.getElem?_append_right (by rw [hlength]; exact hs), hlength] at hx
    have hforward := Layout.regions_address im.symbols echo hx
    rw [Nat.add_sub_cancel' hs] at hforward
    exact hforward

end Image

/-- One pass writes what two passes would. The code of a program that was read
from tokens can be generated exactly when the cells that its tree takes fit
above the sealed ones, and then it is the code of the layout; otherwise the
generator fails because the program is too big. -/
theorem generate_iff_assembled (tokens : List Located) {t : SymbolTable} (ht : t.Sound)
    (depth : Nat) {program : List Stmt} (hread : (parse tokens t depth).1 = .ok program)
    (store : Store) (capacity : Nat) (echo : Bool) :
    ((∃ entry after,
        Image.generate capacity echo program ⟨store, (parse tokens t depth).2⟩ =
          .ok entry after) ↔
      store.base + footprint program ≤ capacity) ∧
    (∀ entry after,
      Image.generate capacity echo program ⟨store, (parse tokens t depth).2⟩ =
        .ok entry after →
      Image.Assembled echo ⟨store, (parse tokens t depth).2⟩ program entry after) ∧
    ∀ fault after,
      Image.generate capacity echo program ⟨store, (parse tokens t depth).2⟩ =
        .error fault after →
      fault = { kind := .programTooBig } := by
  -- trees that were read have a meaning, so the generator fails for want of
  -- room only
  have hw := (parse_wellFormed tokens ht depth).2.1 program hread
  obtain ⟨hfits, hfails⟩ :=
    @Image.generate_apply capacity echo ⟨store, (parse tokens t depth).2⟩ program hw
  by_cases hroom : store.base + footprint program ≤ capacity
  · rw [hfits hroom]
    refine ⟨⟨fun _ => hroom, fun _ => ⟨_, _, rfl⟩⟩, ?_, fun _ _ h => nomatch h⟩
    rintro entry after ⟨⟩
    exact Image.assembled_withDefinitions echo ⟨store, (parse tokens t depth).2⟩ hw
  · rw [hfails hroom]
    refine ⟨⟨fun ⟨_, _, h⟩ => (nomatch h), fun h => absurd h hroom⟩,
      fun _ _ h => (nomatch h), ?_⟩
    rintro fault after ⟨⟩
    rfl

/-- A definition with both branches of a condition, and a loop around its call. -/
def branchingTokens : List Located :=
  lex "func f() if ($1 > 0) return $1 else return -$1\nwhile (x < 3) x += f(-1)"

/-- Its code: the body of the function, with the addresses of both branches and
of their end in front, and the loop behind it, with those of its body and its
end. -/
def branchingCells : List Cell :=
  [.op (.control .branch), .address 10, .address 14, .address 19,
    .op (.plain .arg), .count 1, .op (.plain .constPush), .number 0.0,
      .op (.plain (.binary .gt)), .stop,
    .op (.plain .arg), .count 1, .op (.plain .returnValue), .stop,
    .op (.plain .arg), .count 1, .op (.plain .negate), .op (.plain .returnValue), .stop,
    .op (.plain .returnNothing), .stop,
    .op (.control .whileLoop), .address 31, .address 42,
    .op (.plain .varPush), .symbol 30, .op (.plain .eval), .op (.plain .constPush),
      .number 3.0, .op (.plain (.binary .lt)), .stop,
    .op (.plain .constPush), .number 1.0, .op (.plain .negate), .op (.control .call),
      .symbol 28, .count 1, .op (.plain .varPush), .symbol 30,
      .op (.plain (.assign .add)), .op (.plain .pop), .stop,
    .stop]

/-- The program takes 43 cells and is entered behind the body of its function. -/
theorem generate_iff_assembled_branching :
    ∃ program entry after,
      (parse branchingTokens SymbolTable.initial 200).1 = .ok program ∧
      Image.generate 2000 true program
        ⟨{}, (parse branchingTokens SymbolTable.initial 200).2⟩ =
        .ok entry after ∧
      Image.Assembled true ⟨{}, (parse branchingTokens SymbolTable.initial 200).2⟩
        program entry after ∧
      footprint program = 43 ∧ entry = 21 ∧ after.store.cells.toList = branchingCells ∧
      (after.symbols.get 28).code = some 0 := by
  have hlayout : (parse branchingTokens SymbolTable.initial 200).1.toOption.map
      (fun program => (footprint program, Stmt.regionSizes (definitionPart program),
        (Layout.regions (parse branchingTokens SymbolTable.initial 200).2 true 0
          program).flatMap Prod.snd,
        (Layout.starts 0 (definitionPart program)).reverse.lookup 28)) =
      some (43, 21, branchingCells, some 0) := by
    decide +kernel
  cases hread : (parse branchingTokens SymbolTable.initial 200).1 with
  | error f =>
    rw [hread] at hlayout
    cases hlayout
  | ok program =>
    rw [hread] at hlayout
    have hparts := Option.some.inj hlayout
    simp only [Prod.mk.injEq] at hparts
    obtain ⟨hfootprint, hsizes, hcells, hstart⟩ := hparts
    obtain ⟨hiff, hassembled, -⟩ := generate_iff_assembled branchingTokens
      SymbolTable.sound_initial 200 hread {} 2000 true
    have hroom : ({} : Store).base + footprint program ≤ 2000 := by
      rw [hfootprint]
      decide
    obtain ⟨entry, after, hgenerate⟩ := hiff.mpr hroom
    have hafter := hassembled entry after hgenerate
    refine ⟨program, entry, after, rfl, hgenerate, hafter, hfootprint, ?_, ?_, ?_⟩
    · exact hafter.entry_eq.trans (congrArg (0 + ·) hsizes)
    · exact hafter.cells_eq.trans hcells
    · rw [hafter.symbols_eq]
      show ((Layout.starts 0 (definitionPart program)).reverse.lookup 28).or _ = some 0
      rw [hstart, Option.some_or]

end StackCalc
