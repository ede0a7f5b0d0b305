/-
Free blocks against holes.

* `freeBlocks`, `holes`, `Enough` — whether there is a free block for every
  hole of a set of blocks of a file;
* `Enough.alloc` — filling one of the holes leaves enough for the others.
-/
import Jos.Fs.Steps
import Mathlib.Data.Finset.Card

namespace Jos

open Bytes

namespace Fs

def freeBlocks (m : Mem) : Finset ℕ := {b ∈ Finset.range (nblocks m) | IsFree m b}

def holes (m : Mem) (f : ℕ) (S : Finset ℕ) : Finset ℕ := {i ∈ S | direct m f i = 0}

def Enough (m : Mem) (f : ℕ) (S : Finset ℕ) : Prop := (holes m f S).card ≤ (freeBlocks m).card

/-- The direct blocks with bytes from `pos` on, up to `last`. -/
def blocksOf (pos last : ℕ) : Finset ℕ := {i ∈ Finset.range ndirect | pos / blksize ≤ i ∧ i * blksize < last}

section Space

variable {m m' : Mem} {f i b pos pos' last : ℕ} {S T : Finset ℕ}

theorem mem_freeBlocks : b ∈ freeBlocks m ↔ IsFree m b := by
  rw [freeBlocks, Finset.mem_filter, Finset.mem_range]
  exact ⟨fun h => h.2, fun h => ⟨h.1, h⟩⟩

theorem mem_holes : i ∈ holes m f S ↔ i ∈ S ∧ direct m f i = 0 := Finset.mem_filter

theorem mem_blocksOf : i ∈ blocksOf pos last ↔ i < ndirect ∧ pos / blksize ≤ i ∧ i * blksize < last := by
  rw [blocksOf, Finset.mem_filter, Finset.mem_range]

theorem blocksOf_lt (h : i ∈ blocksOf pos last) : i < ndirect := (mem_blocksOf.mp h).1

theorem div_mem_blocksOf (h : pos < last) (hlast : pos / blksize < ndirect) :
    pos / blksize ∈ blocksOf pos last :=
  mem_blocksOf.mpr ⟨hlast, Nat.le_refl _, Nat.lt_of_le_of_lt (Nat.div_mul_le_self _ _) h⟩

theorem blocksOf_mono {last' : ℕ} (h : last ≤ last') : blocksOf pos last ⊆ blocksOf pos last' := by
  intro i hi
  obtain ⟨hn, hlo, hhi⟩ := mem_blocksOf.mp hi
  exact mem_blocksOf.mpr ⟨hn, hlo, by omega⟩

theorem blocksOf_anti (h : pos ≤ pos') : blocksOf pos' last ⊆ blocksOf pos last := by
  intro i hi
  obtain ⟨hn, hlo, hhi⟩ := mem_blocksOf.mp hi
  exact mem_blocksOf.mpr ⟨hn, Nat.le_trans (Nat.div_le_div_right h) hlo, hhi⟩

theorem Enough.subset (h : Enough m f S) (hT : T ⊆ S) : Enough m f T :=
  Nat.le_trans (Finset.card_le_card (Finset.filter_subset_filter _ hT)) h

theorem Enough.congr (hfree : ∀ c, IsFree m' c ↔ IsFree m c)
    (hdirect : ∀ i ∈ S, direct m' f i = direct m f i) : Enough m' f S ↔ Enough m f S := by
  have hF : freeBlocks m' = freeBlocks m := by
    ext c
    rw [mem_freeBlocks, mem_freeBlocks, hfree]
  have hH : holes m' f S = holes m f S := Finset.filter_congr fun i hi => by rw [hdirect i hi]
  unfold Enough
  rw [hF, hH]

theorem not_enough (hi : i ∈ S) (hz : direct m f i = 0) (hfull : ∀ c, ¬ IsFree m c) :
    ¬ Enough m f S := by
  have hnone : freeBlocks m = ∅ :=
    Finset.eq_empty_of_forall_notMem fun c hc => hfull c (mem_freeBlocks.mp hc)
  have hpos : 0 < (holes m f S).card := Finset.card_pos.mpr ⟨i, mem_holes.mpr ⟨hi, hz⟩⟩
  unfold Enough
  rw [hnone, Finset.card_empty]
  omega

theorem Enough.alloc (h : Enough m f S) (hs : Sound m) (hf : Node m f) (hS : ∀ j ∈ S, j < ndirect)
    (hi : i ∈ S) (hz : direct m f i = 0) (hb : IsFree m b) (hb0 : b ≠ 0) :
    Enough (allocSlot m f i b) f S := by
  have hlt := hS i hi
  have hF : freeBlocks (allocSlot m f i b) = (freeBlocks m).erase b := by
    ext c
    rw [mem_freeBlocks, Finset.mem_erase, mem_freeBlocks, allocSlot_isFree hs hf hlt, and_comm]
  have hH : holes (allocSlot m f i b) f S = (holes m f S).erase i := by
    ext j
    rw [mem_holes, Finset.mem_erase, mem_holes]
    constructor
    · rintro ⟨hj, hd⟩
      rw [allocSlot_direct hs hf hb.1 (hS j hj)] at hd
      have hji : j ≠ i := fun hc => hb0 (by rwa [if_pos hc] at hd)
      rw [if_neg hji] at hd
      exact ⟨hji, hj, hd⟩
    · rintro ⟨hji, hj, hd⟩
      rw [allocSlot_direct hs hf hb.1 (hS j hj), if_neg hji]
      exact ⟨hj, hd⟩
  unfold Enough at *
  rw [hF, hH, Finset.card_erase_of_mem (mem_freeBlocks.mpr hb),
    Finset.card_erase_of_mem (mem_holes.mpr ⟨hi, hz⟩)]
  omega

end Space

end Fs

end Jos
