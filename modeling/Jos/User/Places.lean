/-
The pages of all address spaces, below `UTOP`, at which something can be
mapped.
-/
import Jos.Kern.Layout
import Mathlib.Data.Fintype.Prod

namespace Jos

def userPages : ℕ := utop / pgsize

/-- The page numbers below `USTACKTOP`, which `fork` goes through. -/
def forkPages : ℕ := ustacktop / pgsize

def pftemp : ℕ := (2 * ptsize - pgsize) / pgsize

theorem userPages_eq : userPages = 977920 := rfl

-- to evaluate it takes too long
@[irreducible] def userPlaces : Finset (Fin nenv × ℕ) := Finset.univ ×ˢ Finset.range userPages

theorem mem_userPlaces {x : Fin nenv × ℕ} : x ∈ userPlaces ↔ x.2 < userPages := by
  unfold userPlaces
  simp only [Finset.mem_product, Finset.mem_univ, true_and, Finset.mem_range]

end Jos
