/-
The last holder of a shared object closes it.

Holders come and go; one that leaves first tests whether it is the only one,
closes the object if so, and then lets go.  Test, closing and letting go are
separate steps.  The object is closed exactly once if a holder that leaves it to
others can rely on one that has not made its test yet (`Step.pass`).

* `Inv.step` — the three phases of the object;
* `Inv.closed_once`, `Inv.sole` — what they say about closing.
-/
import Mathlib.Order.BooleanAlgebra.Set
import Mathlib.Tactic.Common

/-- Who holds the object, who is about to close it, who is about to let go of
it without closing it (any more), and how often it has been closed. -/
structure LastRef (π : Type) where
  holders : Set π
  closing : Set π
  leaving : Set π
  closed : ℕ

namespace LastRef

variable {π : Type} {s s' : LastRef π}

inductive Step : LastRef π → LastRef π → Prop where
  /-- the test finds no other holder -/
  | last {s : LastRef π} {x : π} (hx : x ∈ s.holders) (hc : x ∉ s.closing) (hl : x ∉ s.leaving)
      (hsole : s.holders = {x}) : Step s { s with closing := insert x s.closing }
  /-- the test finds others, and one of them has not tested yet -/
  | pass {s : LastRef π} {x z : π} (hx : x ∈ s.holders) (hc : x ∉ s.closing) (hl : x ∉ s.leaving)
      (hz : z ∈ s.holders) (hne : z ≠ x) (hzc : z ∉ s.closing) (hzl : z ∉ s.leaving) :
      Step s { s with leaving := insert x s.leaving }
  | close {s : LastRef π} {x : π} (hx : x ∈ s.closing) :
      Step s { s with closing := s.closing \ {x}, leaving := insert x s.leaving,
                      closed := s.closed + 1 }
  | drop {s : LastRef π} {x : π} (hx : x ∈ s.leaving) :
      Step s { s with holders := s.holders \ {x}, leaving := s.leaving \ {x} }
  /-- a holder that is not about to leave passes the object on -/
  | share {s : LastRef π} {y z : π} (hz : z ∈ s.holders) (hzc : z ∉ s.closing)
      (hzl : z ∉ s.leaving) (hyc : y ∉ s.closing) (hyl : y ∉ s.leaving) :
      Step s { s with holders := insert y s.holders }

/-- The object is open and someone who has not tested yet holds it; or its last
holder is about to close it; or it is closed and only that holder may have it
still. -/
inductive Inv (s : LastRef π) : Prop where
  | isOpen (z : π) (hz : z ∈ s.holders) (hzl : z ∉ s.leaving) (hc : s.closing = ∅)
      (hl : s.leaving ⊆ s.holders) (h0 : s.closed = 0)
  | isClosing (x : π) (hh : s.holders = {x}) (hc : s.closing = {x}) (hl : s.leaving = ∅)
      (h0 : s.closed = 0)
  | isClosed (hh : s.holders = s.leaving) (hc : s.closing = ∅) (h1 : s.closed = 1)

theorem Inv.step (h : Inv s) (hs : Step s s') : Inv s' := by
  cases hs with
  | @last x hx hc hl hsole =>
    cases h with
    | isOpen z hz hzl hce hlh h0 =>
      refine .isClosing x hsole ?_ ?_ h0
      · show insert x s.closing = {x}
        rw [hce]
        exact insert_empty_eq x
      · -- only `x` holds it, and `x` had not tested
        rw [Set.eq_empty_iff_forall_notMem]
        intro y hy
        have hyx : y ∈ ({x} : Set π) := hsole ▸ hlh hy
        exact hl (Set.mem_singleton_iff.mp hyx ▸ hy)
    | isClosing y hh hce _ _ => exact absurd (hce ▸ hh ▸ hx) hc
    | isClosed hh _ _ => exact absurd (hh ▸ hx) hl
  | @pass x z hx hc hl hz hne hzc hzl =>
    cases h with
    | isOpen _ _ _ hce hlh h0 =>
      refine .isOpen z hz ?_ hce (Set.insert_subset hx hlh) h0
      exact fun hmem => hmem.elim hne hzl
    | isClosing y hh hce _ _ => exact absurd (hce ▸ hh ▸ hx) hc
    | isClosed hh _ _ => exact absurd (hh ▸ hx) hl
  | @close x hx =>
    cases h with
    | isOpen _ _ _ hce _ _ => exact absurd (hce ▸ hx) (Set.notMem_empty x)
    | isClosing y hh hce hle h0 =>
      have hxy : x = y := by
        rw [hce] at hx
        exact hx
      subst hxy
      refine .isClosed ?_ ?_ ?_
      · show s.holders = insert x s.leaving
        rw [hh, hle, insert_empty_eq]
      · show s.closing \ {x} = ∅
        rw [hce, Set.sdiff_self]
      · show s.closed + 1 = 1
        rw [h0]
    | isClosed _ hce _ => exact absurd (hce ▸ hx) (Set.notMem_empty x)
  | @drop x hx =>
    cases h with
    | isOpen z hz hzl hce hlh h0 =>
      have hzx : z ≠ x := fun hzx => hzl (hzx ▸ hx)
      exact .isOpen z ⟨hz, hzx⟩ (fun hmem => hzl hmem.1) hce (Set.sdiff_subset_sdiff_left hlh) h0
    | isClosing _ _ _ hle _ => exact absurd (hle ▸ hx) (Set.notMem_empty x)
    | isClosed hh hce h1 =>
      refine .isClosed ?_ hce h1
      show s.holders \ {x} = s.leaving \ {x}
      rw [hh]
  | @share y z hz hzc hzl hyc hyl =>
    cases h with
    | isOpen _ _ _ hce hlh h0 =>
      exact .isOpen z (Set.mem_insert_of_mem y hz) hzl hce
        (hlh.trans (Set.subset_insert y _)) h0
    | isClosing x hh hce _ _ => exact absurd (hce ▸ hh ▸ hz) hzc
    | isClosed hh _ _ => exact absurd (hh ▸ hz) hzl

theorem Inv.closed_once (h : Inv s) : s.closed ≤ 1 ∧ (s.holders = ∅ → s.closed = 1) := by
  cases h with
  | isOpen z hz _ _ _ h0 => exact ⟨by omega, fun he => absurd (he ▸ hz) (Set.notMem_empty z)⟩
  | isClosing x hh _ _ h0 =>
    exact ⟨by omega, fun he => absurd (hh ▸ he) (Set.singleton_ne_empty x)⟩
  | isClosed _ _ h1 => exact ⟨by omega, fun _ => h1⟩

theorem Inv.sole (h : Inv s) {x y : π} (hx : x ∈ s.closing) (hy : y ∈ s.holders) : y = x := by
  cases h with
  | isOpen _ _ _ hce _ _ => exact absurd (hce ▸ hx) (Set.notMem_empty x)
  | isClosing z hh hce _ _ =>
    rw [hce] at hx
    rw [hh] at hy
    exact hy.trans hx.symm
  | isClosed _ hce _ => exact absurd (hce ▸ hx) (Set.notMem_empty x)

end LastRef
