import StackCalc.Proofs.Session.Reachable

/-!
# Sealed code stays as it is

Whatever is asked of a session that can be reached, and whether it fails or not,
no sealed cell is changed and none becomes unsealed. A symbol gets another body
only from a request that generates code, and then it is a region which that
request sealed for it, behind all that was sealed before. So the code of a
definition is the same for the rest of the session, also when its name has been
given to another one.
-/

namespace StackCalc

namespace Session

/-! ### Several requests -/

/-- What requests leave of a session, from first to last. -/
def handleAll (s : Session) (requests : List Request) : Session :=
  requests.foldl handle s

/-- The places of each request are in the table when its turn comes. -/
def AllInRange (s : Session) : List Request → Prop
  | [] => True
  | r :: requests => r.InRange s.machine.symbols.size ∧ (s.handle r).AllInRange requests

/-- Requests that are made one after the other seal region after region. -/
theorem Reachable.handleAll {rs : List Region} {s : Session} (h : Reachable rs s)
    {requests : List Request} (hall : s.AllInRange requests) :
    ∃ rs', Reachable (rs ++ rs') (s.handleAll requests) ∧
      Follows rs' s (s.handleAll requests) := by
  induction requests generalizing rs s with
  | nil => exact ⟨[], (List.append_nil rs).symm ▸ h, Follows.refl h.intact⟩
  | cons r requests ih =>
    obtain ⟨hr, hrest⟩ := hall
    obtain ⟨rs', hreachable, hfollows⟩ := ih (h.step r hr) hrest
    refine ⟨s.sealedBy r ++ rs', ?_, (follows_handle h.intact hr).trans hfollows⟩
    rw [← List.append_assoc]
    exact hreachable

/-! ### What is sealed stays -/

theorem sealedBy_of_not_generates {s : Session} {r : Request} (h : r.generates = false) :
    s.sealedBy r = [] := by
  cases r with
  | enter fuel source => cases h
  | compile source => cases h
  | generate program => cases h
  | _ => rfl

/-- Sealed cells are never changed. A body is a region that was sealed for its
symbol, and another body is a new region, from a request that generates code;
regions stay as they are for the rest of the session. -/
theorem sealed_code_kept {rs : List Region} {s : Session} (h : Reachable rs s) :
    (∀ r : Request, r.InRange s.machine.symbols.size →
      s.store.base ≤ (s.handle r).store.base ∧
      (∀ i < s.store.base, (s.handle r).store.get? i = s.store.get? i) ∧
      ∀ id, ((s.handle r).machine.symbols.get id).code ≠ (s.machine.symbols.get id).code →
        r.generates = true ∧
        ∃ region ∈ s.sealedBy r, region.symbol = id ∧
          ((s.handle r).machine.symbols.get id).code = some region.start ∧
          s.store.base ≤ region.start ∧ region.IsSealed (s.handle r).store) ∧
    (∀ id a, (s.machine.symbols.get id).code = some a →
      ∃ region ∈ rs, region.symbol = id ∧ region.start = a) ∧
    ∀ requests, s.AllInRange requests → ∀ region ∈ rs,
      region.IsSealed (s.handleAll requests).store ∧
      ∀ i < region.stop, (s.handleAll requests).store.get? i = s.store.get? i := by
  refine ⟨fun r hr => ?_, fun id a hcode => ?_, fun requests hall region hregion => ?_⟩
  · have hfollows := follows_handle h.intact hr
    refine ⟨hfollows.grows.base_le, hfollows.grows.kept, fun id hne => ?_⟩
    -- another body is one of the regions that were sealed, so there is one
    have hregion := hfollows.grows.of_code_ne hne
    refine ⟨?_, hregion⟩
    cases hgenerates : r.generates with
    | true => rfl
    | false =>
      rw [sealedBy_of_not_generates hgenerates] at hregion
      simp at hregion
  · obtain ⟨region, hr, hid, hstart, -⟩ := h.body hcode
    exact ⟨region, hr, hid, hstart⟩
  · obtain ⟨rs', -, hfollows⟩ := h.handleAll hall
    have hsealed := h.regions.1 region hregion
    -- requests keep all cells below the base, and the region lies there
    refine ⟨hfollows.grows.isSealed hsealed, fun i hi => ?_⟩
    exact hfollows.grows.kept i (Nat.lt_of_lt_of_le hi hsealed.below)

/-- A function is defined again: its name gets another body, and the first one
stays. -/
theorem sealed_code_kept_redefined :
    ∃ rs s region, Reachable rs s ∧ region ∈ rs ∧
      let r : Request := .enter 100 "func f() return 2"
      ((s.handle r).machine.symbols.get region.symbol).code ≠ some region.start ∧
      (∃ region' ∈ s.sealedBy r, region'.symbol = region.symbol ∧
        ((s.handle r).machine.symbols.get region.symbol).code = some region'.start ∧
        s.store.base ≤ region'.start ∧ region'.IsSealed (s.handle r).store) ∧
      region.IsSealed (s.handle r).store ∧
      ∀ i < region.stop, (s.handle r).store.get? i = s.store.get? i := by
  let r₁ : Request := .enter 100 "func f() return 1"
  let s : Session := (Session.fresh {}).handle r₁
  let r : Request := .enter 100 "func f() return 2"
  let region : Region := ⟨28, 0, 5⟩
  have hs : Reachable ((Session.fresh {}).sealedBy r₁) s :=
    (Reachable.fresh {}).step r₁ trivial
  have hregion : region ∈ (Session.fresh {}).sealedBy r₁ := by decide +kernel
  have hne : ((s.handle r).machine.symbols.get region.symbol).code ≠ some region.start ∧
      (s.machine.symbols.get region.symbol).code = some region.start := by
    decide +kernel
  obtain ⟨hstep, -, hrun⟩ := sealed_code_kept hs
  obtain ⟨-, -, hcode⟩ := hstep r trivial
  obtain ⟨hsealed, hkept⟩ := hrun [r] ⟨trivial, trivial⟩ region hregion
  refine ⟨_, s, region, hs, hregion, hne.1, (hcode region.symbol ?_).2, hsealed, hkept⟩
  rw [hne.2]
  exact hne.1

end Session

end StackCalc
