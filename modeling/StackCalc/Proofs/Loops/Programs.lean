import Mathlib.Data.List.Forall2
import StackCalc.Proofs.Code.Bodies
import StackCalc.Proofs.Loops.Levels
import StackCalc.Proofs.Session.History

/-!
# The code of restated programs

A program and a restated one are generated from the same session. Their
definitions get different places, for restated code is of another size, and so
do all that follow them. `Image.Restates` relates what the two generations
leave: every body of the first image is in the second one, restated and at a
place of its own. Sealing a definition on both sides keeps that, with one more
place (`Image.Restates.withDefinition`).
-/

namespace StackCalc

/-! ### Restated programs -/

/-- A definition, and the same one with its body restated. -/
inductive Redefined (echo : Bool) : Stmt → Stmt → Prop
  | define (kind : DefinitionKind) (id : Nat) {body body' : List Stmt}
    (h : Restated echo body body') :
    Redefined echo (.define kind id body) (.define kind id body')

section

variable {t : SymbolTable} {echo : Bool} {program program' : List Stmt}

/-- Restating keeps definitions apart from other statements. -/
theorem Restated.parts (h : Restated echo program program')
    (hw : ∀ s ∈ program, s.IsTopLevel t) :
    Restated echo (topLevel program) (topLevel program') ∧
      List.Forall₂ (Redefined echo) (definitions program) (definitions program') := by
  induction h with
  | nil => exact ⟨.nil, .nil⟩
  | @simple s _ _ hs _ ih =>
    have hplain : s.isDefinition = false := by
      cases s with
      | define => cases hs
      | _ => rfl
    have hrest := ih (List.forall_mem_cons.mp hw).2
    simp only [topLevel, definitions, List.filter_cons, hplain] at hrest ⊢
    exact ⟨.simple hs hrest.1, hrest.2⟩
  | whileLoop cond hbody _ _ ih =>
    obtain ⟨htop, hdefinitions⟩ := ih (List.forall_mem_cons.mp hw).2
    exact ⟨.whileLoop cond hbody htop, hdefinitions⟩
  | forLoop init cond post hbody _ _ ih =>
    obtain ⟨htop, hdefinitions⟩ := ih (List.forall_mem_cons.mp hw).2
    exact ⟨.forLoop init cond post hbody htop, hdefinitions⟩
  | ifThen cond hbody _ _ ih =>
    obtain ⟨htop, hdefinitions⟩ := ih (List.forall_mem_cons.mp hw).2
    exact ⟨.ifThen cond hbody htop, hdefinitions⟩
  | ifElse cond hbody hother _ _ _ ih =>
    obtain ⟨htop, hdefinitions⟩ := ih (List.forall_mem_cons.mp hw).2
    exact ⟨.ifElse cond hbody hother htop, hdefinitions⟩
  | define kind id hbody _ _ ih =>
    obtain ⟨htop, hdefinitions⟩ := ih (List.forall_mem_cons.mp hw).2
    exact ⟨htop, .cons (.define kind id hbody) hdefinitions⟩
  | loop hecho init cond post hbody _ _ ih =>
    -- the first clause stands on its own now, and it is no definition
    obtain ⟨⟨hinit, -⟩, hrest⟩ := List.forall_mem_cons.mp hw
    have hplain : init.isDefinition = false := by
      cases init with
      | define => exact hinit.elim
      | _ => rfl
    have hrest := ih hrest
    simp only [topLevel, definitions, List.filter_cons, hplain] at hrest ⊢
    exact ⟨.loop hecho init cond post hbody hrest.1, hrest.2⟩

/-- What restates definitions that have a meaning has one. -/
theorem isTopLevel_of_redefined {ds ds' : List Stmt}
    (h : List.Forall₂ (Redefined echo) ds ds') (hds : ∀ d ∈ ds, d.IsTopLevel t) :
    ∀ d ∈ ds', d.IsTopLevel t := by
  induction h with
  | nil => exact hds
  | cons hd _ ih =>
    obtain ⟨hfirst, hrest⟩ := List.forall_mem_cons.mp hds
    cases hd with
    | define kind id hbody =>
      exact List.forall_mem_cons.mpr ⟨⟨hfirst.1, hbody.allWellFormed hfirst.2⟩, ih hrest⟩

/-- What restates a program that has a meaning has one. -/
theorem Restated.isTopLevel (h : Restated echo program program')
    (hw : ∀ s ∈ program, s.IsTopLevel t) :
    ∀ s ∈ program', s.IsTopLevel t := by
  obtain ⟨htop, hdefinitions⟩ := h.parts hw
  intro s hs
  cases hdefinition : s.isDefinition with
  | true =>
    exact isTopLevel_of_redefined hdefinitions
      (fun d hd => hw d (List.mem_filter.mp hd).1) s
      (List.mem_filter.mpr ⟨hs, hdefinition⟩)
  | false =>
    have hwell := htop.allWellFormed (Image.allWellFormed_topLevel hw)
    have hmem : s ∈ topLevel program' :=
      List.mem_filter.mpr ⟨hs, by rw [hdefinition]; rfl⟩
    exact (Stmt.allWellFormed_iff.mp hwell s hmem).isTopLevel

end

/-! ### Sealed bodies -/

/-- The sealed cells have the code of a body at an address. -/
def Store.Seals (t : SymbolTable) (echo : Bool) (ss : List Stmt) (a : Nat)
    (store : Store) : Prop :=
  Holds store.cells a (Layout.body t echo a ss) ∧ a + (Stmt.sizes ss + 2) ≤ store.base

section

variable {t : SymbolTable} {echo : Bool} {ss : List Stmt} {a : Nat} {store store' : Store}

theorem Store.Seals.mono (h : store.Seals t echo ss a) (hbase : store.base ≤ store'.base)
    (hcells : ∀ i < store.base, store'.cells[i]? = store.cells[i]?) :
    store'.Seals t echo ss a :=
  ⟨h.1.congr (by rw [Layout.length_body]; exact h.2) hcells, Nat.le_trans h.2 hbase⟩

/-- A body that is appended and sealed. -/
theorem Store.seals_define (store : Store) (t : SymbolTable) (echo : Bool)
    (ss : List Stmt) :
    (store.append (Layout.body t echo store.size ss)).define.2.Seals t echo ss
      store.size := by
  refine ⟨holds_end store.cells _, Nat.le_of_eq ?_⟩
  show store.size + (Stmt.sizes ss + 2) =
    (store.append (Layout.body t echo store.size ss)).size
  rw [Store.size_append, Layout.length_body]

/-- The bodies there were stay sealed. -/
theorem Store.Seals.define (h : store.Seals t echo ss a) (code : List Cell) :
    (store.append code).define.2.Seals t echo ss a := by
  refine h.mono ?_ fun i hi =>
    Array.getElem?_append_left (Nat.lt_of_lt_of_le hi store.base_le_size)
  show store.base ≤ (store.append code).size
  rw [Store.size_append]
  exact Nat.le_add_right_of_le store.base_le_size

end

/-- Where bodies lie makes no difference to the code of a tree. -/
theorem SymbolTable.evolves_moved (t : SymbolTable) (moves : Nat → Nat) :
    t.Evolves (t.moved moves) where
  size_le := by simp [SymbolTable.moved, SymbolTable.size]
  name _ := by rw [SymbolTable.get_moved]; rfl
  text _ := by rw [SymbolTable.get_moved]; rfl
  native _ := by rw [SymbolTable.get_moved]; rfl
  number h := by rw [SymbolTable.get_moved]; exact ⟨h, rfl⟩
  builtin h := by rw [SymbolTable.get_moved]; exact h
  new_builtin _ h := by rw [SymbolTable.get_moved] at h; exact h

/-- Tables are moved alike by what agrees on the places of their bodies. -/
theorem SymbolTable.moved_congr {t : SymbolTable} {moves moves' : Nat → Nat}
    (h : ∀ id a, (t.get id).code = some a → moves' a = moves a) :
    t.moved moves' = t.moved moves := by
  refine congrArg (SymbolTable.mk · t.names) (Array.ext_getElem? fun i => ?_)
  show (t.entries.map (Symbol.moved moves'))[i]? =
    (t.entries.map (Symbol.moved moves))[i]?
  rw [Array.getElem?_map, Array.getElem?_map]
  cases hentry : t.entries[i]? with
  | none => rfl
  | some s =>
    have hget : t.get i = s := by
      simp [SymbolTable.get, Array.getD_eq_getD_getElem?, hentry]
    have hcode := h i
    rw [hget] at hcode
    have hmap : s.code.map moves' = s.code.map moves := by
      cases hs : s.code with
      | none => rfl
      | some a => exact congrArg some (hcode a hs)
    show some { s with code := s.code.map moves' } =
      some { s with code := s.code.map moves }
    rw [hmap]

namespace Image

/-- The second image has every body of the first one, restated and in its own
place. Each is laid out with the table that it was generated with. -/
structure Restates (moves : Nat → Nat) (im im' : Image) : Prop where
  symbols : im'.symbols = im.symbols.moved moves
  bodies : ∀ id a, (im.symbols.get id).code = some a → ∃ t echo ss ss',
    Stmt.AllCodable t ss ∧ Restated echo ss ss' ∧ im.store.Seals t echo ss a ∧
      im'.store.Seals t echo ss' (moves a)

/-- An image whose names lead to bodies restates itself. -/
theorem Housed.restates {loud : Bool} {im : Image} (h : im.Housed loud) :
    im.Restates id im where
  symbols := (SymbolTable.moved_id _).symm
  bodies id a hcode := by
    obtain ⟨t, echo, ss, -, -, hss, hseals⟩ := h id a hcode
    exact ⟨t, echo, ss, ss, hss, Restated.refl _ _, hseals, hseals⟩

namespace Restates

variable {moves : Nat → Nat} {im im' : Image} {echo : Bool}

/-- Code behind the sealed cells is of no concern. -/
theorem append (h : im.Restates moves im') (code code' : List Cell) :
    (im.append code).Restates moves (im'.append code') where
  symbols := h.symbols
  bodies id a hcode := by
    obtain ⟨t, echo, ss, ss', hss, hrestated, hseals, hseals'⟩ := h.bodies id a hcode
    refine ⟨t, echo, ss, ss', hss, hrestated, ?_, ?_⟩
    · exact hseals.mono (Nat.le_refl _) fun i hi =>
        Array.getElem?_append_left (Nat.lt_of_lt_of_le hi im.store.base_le_size)
    · exact hseals'.mono (Nat.le_refl _) fun i hi =>
        Array.getElem?_append_left (Nat.lt_of_lt_of_le hi im'.store.base_le_size)

/-- A definition is sealed on both sides. -/
theorem withDefinition (h : im.Restates moves im') (hsealed : im.IsSealed)
    (kind : DefinitionKind) (id : Nat) {ss ss' : List Stmt}
    (hss : Stmt.AllWellFormed im.symbols true ss) (hrestated : Restated echo ss ss') :
    ∃ moves', (im.withDefinition echo (.define kind id ss)).Restates moves'
      (im'.withDefinition echo (.define kind id ss')) := by
  let moves' : Nat → Nat := fun a => if a = im.store.size then im'.store.size else moves a
  have hnew : moves' im.store.size = im'.store.size := if_pos rfl
  -- the bodies there were end where the new one starts
  have hold : ∀ id a, (im.symbols.get id).code = some a → moves' a = moves a := by
    intro id a hcode
    obtain ⟨_, _, ss, _, _, _, hseals, _⟩ := h.bodies id a hcode
    have hbelow := hseals.2
    rw [show im.store.base = im.store.size from hsealed] at hbelow
    exact if_neg (by omega)
  refine ⟨moves', ?_, fun id' a hcode => ?_⟩
  · show im'.symbols.modify id (Symbol.located im'.store.size) =
      (im.symbols.modify id (Symbol.located im.store.size)).moved moves'
    rw [h.symbols, ← SymbolTable.moved_congr hold]
    refine SymbolTable.modify_moved moves' im.symbols (fun s => ?_) id
    show { s with code := some im'.store.size } =
      { s with code := some (moves' im.store.size) }
    rw [hnew]
  · change ((im.symbols.modify id (Symbol.located im.store.size)).get id').code =
      some a at hcode
    rw [SymbolTable.get_modify] at hcode
    split at hcode
    -- the name that was defined leads to the new body
    · cases hcode
      have hlayout : Layout.body im'.symbols echo im'.store.size ss' =
          Layout.body im.symbols echo im'.store.size ss' := by
        rw [h.symbols, Layout.body_evolve (im.symbols.evolves_moved moves) _
          (hrestated.allWellFormed hss)]
      have hseals' := im'.store.seals_define im.symbols echo ss'
      rw [← hlayout] at hseals'
      rw [hnew]
      exact ⟨im.symbols, echo, ss, ss', hss.codable, hrestated,
        im.store.seals_define im.symbols echo ss, hseals'⟩
    -- every other name leads where it did
    · obtain ⟨t, echo', rs, rs', hrs, hrestated', hseals, hseals'⟩ := h.bodies id' a hcode
      rw [hold id' a hcode]
      exact ⟨t, echo', rs, rs', hrs, hrestated', hseals.define _, hseals'.define _⟩

/-- The definitions of a program and of the restated one are sealed. -/
theorem withDefinitions {ds ds' : List Stmt} (hds : List.Forall₂ (Redefined echo) ds ds')
    (hw : ∀ d ∈ ds, d.IsTopLevel im.symbols) (h : im.Restates moves im')
    (hsealed : im.IsSealed) :
    ∃ moves', (im.withDefinitions echo ds).Restates moves'
      (im'.withDefinitions echo ds') := by
  induction hds generalizing im im' moves with
  | nil => exact ⟨moves, h⟩
  | cons hd _ ih =>
    obtain ⟨hfirst, hrest⟩ := List.forall_mem_cons.mp hw
    cases hd with
    | define kind id hbody =>
      obtain ⟨moves', h'⟩ := h.withDefinition hsealed kind id hfirst.2 hbody
      exact ih (fun s hs => (hrest s hs).evolve (evolves_withDefinition echo im _)) h'
        (hsealed.withDefinition echo _)

/-! ### Running -/

/-- The names of the first image lead to the bodies; the second one has them
restated, at the places that it moves them to. -/
theorem restatesBodies (h : im.Restates moves im') (limits : Limits) :
    RestatesBodies ⟨fun a => ∃ id, (im.symbols.get id).code = some a, moves⟩
      ⟨im.store.cells, limits⟩ ⟨im'.store.cells, limits⟩ := by
  rintro a ⟨id, hcode⟩
  obtain ⟨t, echo, ss, ss', hss, hrestated, hseals, hseals'⟩ := h.bodies id a hcode
  exact ⟨t, echo, ss, ss', hss, hrestated, hseals.1, hseals'.1⟩

/-- Runs from the start, of statements and of restated ones. -/
theorem matched_execute (h : im.Restates moves im') (limits : Limits) {t : SymbolTable}
    {ss ss' : List Stmt} {entry entry' fuel : Nat} (hss : Stmt.AllCodable t ss)
    (hrestated : Restated echo ss ss')
    (hcode : Holds im.store.cells entry (Layout.stmts t echo entry ss ++ [.stop]))
    (hcode' : Holds im'.store.cells entry' (Layout.stmts t echo entry' ss' ++ [.stop]))
    (hfuel : im.store.cells.size + 2 ≤ fuel) (hfuel' : im'.store.cells.size + 2 ≤ fuel)
    (m : Machine) :
    Matched (fun m m' => m'.placeless = m.placeless)
      (Exec.execute ⟨im.store.cells, limits⟩ fuel entry { m with symbols := im.symbols })
      (Exec.execute ⟨im'.store.cells, limits⟩ fuel entry'
        { m with symbols := im'.symbols }) := by
  have henters := (h.restatesBodies limits).enters rfl hfuel hfuel'
    (Nat.le_refl limits.depth)
  have habreast : Abreast ⟨fun a => ∃ id, (im.symbols.get id).code = some a, moves⟩
      ⟨#[], #[], rfl⟩ false entry entry'
      (Machine.start { m with symbols := im.symbols } entry)
      (Machine.start { m with symbols := im'.symbols } entry') := by
    refine ⟨?_, rfl, rfl, rfl, fun id _ ha => ⟨id, ha⟩⟩
    rw [h.symbols]
    rfl
  exact (henters.stmts hss hrestated (.inl rfl) (.inl rfl) hcode hcode' _ _ habreast).mono
    fun _ _ => Past.shows

end Restates

end Image

end StackCalc
