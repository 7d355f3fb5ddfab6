import StackCalc.Proofs.Session.Reachable

/-!
# Coherent sessions

The code, the symbols and the stacks of a session belong together: cells name
symbols that are in the table and addresses that are in the code, bodies are
sealed code, names and entries lead to each other, and the stacks are within
their limits (`Session.Coherent`). Every session that can be reached is
coherent, whatever was asked of it and however that ended.

It follows that a run, from whatever address, finds everything that it reaches
for. A run that is tested before each of its cells for whether all is in order
(`Exec.watchedExecute`) is the run itself.
-/

namespace StackCalc

namespace Session

/-- Code, symbols and stacks that belong together; `rs` are the regions sealed
so far. -/
structure Coherent (rs : List Region) (s : Session) : Prop where
  base_le : s.store.base ≤ s.store.size
  size_le : s.store.size ≤ s.limits.program
  symbol : ∀ i id, s.store.get? i = some (.symbol id) → id < s.machine.symbols.size
  address : ∀ i a, s.store.get? i = some (.address a) → i < a ∧ a < s.store.size
  /-- Sealed regions do not overlap, and each ends in a return and a stop. -/
  regions : (∀ region ∈ rs, region.IsSealed s.store) ∧
    rs.Pairwise fun r r' => r.stop ≤ r'.start
  /-- A body is a region that was sealed for its symbol. -/
  body : ∀ id a, (s.machine.symbols.get id).code = some a →
    a < s.store.base ∧ ∃ region ∈ rs, region.symbol = id ∧ region.start = a
  /-- A name leads to the one entry of that name. -/
  name : ∀ name id, s.machine.symbols.lookup name = some id ↔
    id < s.machine.symbols.size ∧ (s.machine.symbols.get id).name = some name
  /-- No name leads to a literal. -/
  literal : ∀ id, (s.machine.symbols.get id).kind = .number ∨
    (s.machine.symbols.get id).text.isSome →
    (s.machine.symbols.get id).name = none ∧ ∀ name,
      s.machine.symbols.lookup name ≠ some id
  settled : s.machine.Settled s.limits

/-- Each part is an invariant of requests that was shown on its own. -/
theorem Reachable.coherent {rs : List Region} {s : Session} (h : Reachable rs s) :
    s.Coherent rs := by
  have hintact := h.intact
  have hindexed := h.indexed
  constructor
  · exact s.store.base_le_size
  · exact hintact.ready.size_le
  · intro i id hi
    exact hintact.closed.symbol (Nat.zero_le i) (Array.getElem?_eq_some_iff.mp hi).1 hi
  · intro i a hi
    exact hintact.closed.address (Nat.zero_le i) (Array.getElem?_eq_some_iff.mp hi).1 hi
  · exact h.regions
  · intro id a hcode
    obtain ⟨region, hregion, hid, hstart, -⟩ := h.body hcode
    exact ⟨hintact.code hcode, region, hregion, hid, hstart⟩
  · intro name id
    constructor
    · exact hintact.sound.named
    · intro hid
      exact hindexed.lookup_iff.mpr hid.2
  · intro id hliteral
    have hname : (s.machine.symbols.get id).name = none := by
      rcases hliteral with hnumber | htext
      · exact hintact.sound.number_unnamed hnumber
      · exact hindexed.text_unnamed htext
    refine ⟨hname, fun name hlookup => ?_⟩
    -- a name leads to an entry that has it, and this one has none
    simp [hindexed.lookup_iff.mp hlookup] at hname
  · exact h.settled

/-- Every session that can be reached is coherent. A run of its code from an
address inside never reaches for what is not there, and one from an address
outside fails at once. -/
theorem reachable_coherent {rs : List Region} {s : Session} (h : Reachable rs s) :
    s.Coherent rs ∧
    (∀ breach fuel a, a < s.store.size →
      Exec.watchedExecute (Machine.isInOrder s.job) breach s.job fuel a s.machine =
        Exec.execute s.job fuel a s.machine) ∧
    ∀ fuel a, s.store.size ≤ a →
      ∃ e, Exec.execute s.job fuel a s.machine = .error e (s.machine.start a) := by
  refine ⟨h.coherent, fun breach fuel a ha => ?_, fun fuel a ha => ?_⟩
  · exact (Exec.agrees_execute h.intact.closed breach fuel ha h.intact.serves).1
  · exact Exec.execute_of_size_le fuel ha s.machine

/-- A tree that is no program: it has a return outside of definitions, and an
argument of index zero. -/
def stray (id : Nat) : List Stmt :=
  [.define .procedure id [.returnValue (.arg 0)], .whileLoop (.arg 1) [.returnNothing]]

/-- A function is entered and defined again by a tree that is no program; then
its first body is run, from the middle of an instruction. -/
theorem reachable_coherent_stray :
    ∃ rs s, Reachable rs s ∧ s.Coherent rs ∧ rs = [⟨28, 0, 5⟩, ⟨28, 5, 10⟩] ∧
      s.store.get? 1 = some (.count 1) ∧
      (∀ breach, Exec.watchedExecute (Machine.isInOrder s.job) breach s.job
        100 1 s.machine =
        Exec.execute s.job 100 1 s.machine) ∧
      ∃ e, Exec.execute s.job 100 s.store.size s.machine =
        .error e (s.machine.start s.store.size) := by
  let r₁ : Request := .enter 100 "func f() return $1"
  let s₁ : Session := (Session.fresh {}).handle r₁
  let r₂ : Request := .generate (stray 28)
  let s : Session := s₁.handle r₂
  have hsize : 28 < s₁.machine.symbols.size := by decide +kernel
  have hrange : r₂.InRange s₁.machine.symbols.size := by
    simpa [r₂, Request.InRange, stray, Stmt.AllInRange, Stmt.InRange, Expr.InRange] using
      hsize
  have hs : Reachable ((Session.fresh {}).sealedBy r₁ ++ s₁.sealedBy r₂) s :=
    ((Reachable.fresh {}).step r₁ trivial).step r₂ hrange
  have hregions : (Session.fresh {}).sealedBy r₁ ++ s₁.sealedBy r₂ =
      [⟨28, 0, 5⟩, ⟨28, 5, 10⟩] := by decide +kernel
  have hcell : s.store.get? 1 = some (.count 1) := by decide +kernel
  obtain ⟨hcoherent, hinside, houtside⟩ := reachable_coherent hs
  refine ⟨_, s, hs, hcoherent, hregions, hcell, fun breach => hinside breach 100 1 ?_,
    houtside 100 _ (Nat.le_refl _)⟩
  exact (Array.getElem?_eq_some_iff.mp hcell).1

end Session

end StackCalc
