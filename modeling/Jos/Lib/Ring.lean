/-
A ring of cells that holds a list.

The cells of `buf` are addressed by positions that only grow, taken modulo the
capacity.  `Ring.Holds cap buf r xs` says that the cells from position `r` on
hold the elements of `xs`, first one first, and that these fit.

* `Ring.Holds.frame`, `Ring.Holds.snoc` — the cell behind the last element is
  free to be written, and is then taken in;
* `Ring.Holds.push` — a store behind the last element appends to the list;
* `Ring.Holds.head`, `Ring.Holds.tail` — the first element is at `r`, and the
  rest starts one position later.
-/
import Mathlib.Data.List.Basic
import Mathlib.Data.Nat.ModEq
import Mathlib.Logic.Function.Basic
import Mathlib.Tactic.Common

namespace Ring

variable {α : Type} {cap r : ℕ} {buf : ℕ → α} {x : α} {xs : List α}

/-- The cells from position `r` on hold `xs`. -/
structure Holds (cap : ℕ) (buf : ℕ → α) (r : ℕ) (xs : List α) : Prop where
  fits : xs.length ≤ cap
  cell : ∀ k y, xs[k]? = some y → buf ((r + k) % cap) = y

theorem mod_ne {cap a b : ℕ} (hlt : a < b) (hcap : b < a + cap) : a % cap ≠ b % cap := by
  intro h
  have hdvd : cap ∣ b - a := (Nat.modEq_iff_dvd' hlt.le).mp h
  have := Nat.le_of_dvd (by omega) hdvd
  omega

theorem Holds.frame {buf' : ℕ → α} (h : Holds cap buf r xs) (hlt : xs.length < cap)
    (heq : ∀ i, i ≠ (r + xs.length) % cap → buf' i = buf i) : Holds cap buf' r xs := by
  refine ⟨h.fits, ?_⟩
  intro k y hk
  have hkl : k < xs.length := (List.getElem?_eq_some_iff.mp hk).1
  rw [heq _ (mod_ne (by omega) (by omega))]
  exact h.cell k y hk

theorem Holds.snoc (h : Holds cap buf r xs) (hlt : xs.length < cap)
    (hx : buf ((r + xs.length) % cap) = x) : Holds cap buf r (xs ++ [x]) := by
  refine ⟨by rw [List.length_append, List.length_singleton]; omega, ?_⟩
  intro k y hk
  rcases Nat.lt_trichotomy k xs.length with hkl | rfl | hkl
  · rw [List.getElem?_append_left hkl] at hk
    exact h.cell k y hk
  · rw [List.getElem?_concat_length] at hk
    rw [hx]
    exact Option.some.inj hk
  · rw [List.getElem?_eq_none (by simp; omega)] at hk
    cases hk

theorem Holds.push (h : Holds cap buf r xs) (hlt : xs.length < cap) (x : α) :
    Holds cap (Function.update buf ((r + xs.length) % cap) x) r (xs ++ [x]) :=
  (h.frame hlt fun _ hi => Function.update_of_ne hi ..).snoc hlt (Function.update_self ..)

theorem Holds.nil (cap : ℕ) (buf : ℕ → α) (r : ℕ) : Holds cap buf r [] :=
  ⟨Nat.zero_le _, fun _ _ hk => by cases hk⟩

theorem Holds.mod (h : Holds cap buf r xs) : Holds cap buf (r % cap) xs := by
  refine ⟨h.fits, ?_⟩
  intro k y hk
  rw [Nat.mod_add_mod]
  exact h.cell k y hk

theorem Holds.head (h : Holds cap buf r (x :: xs)) : buf (r % cap) = x :=
  h.cell 0 x rfl

theorem Holds.tail (h : Holds cap buf r (x :: xs)) : Holds cap buf (r + 1) xs := by
  have hfits := h.fits
  rw [List.length_cons] at hfits
  refine ⟨by omega, ?_⟩
  intro k y hk
  have hcell := h.cell (k + 1) y (by rw [List.getElem?_cons_succ, hk])
  rwa [show r + (k + 1) = r + 1 + k by omega] at hcell

end Ring
