/-
Truncation: which blocks `file_set_size` frees.

The slot of block `NDIRECT` is the one that holds the number of the indirect
block (see `fileFreeBlock_ndirect`), and with the indirect block gone there are
no slots after it.  So the numbers inside the indirect block are never looked at.

* `truncation_exact` — exactly for a file without blocks in an indirect block the
  right blocks are freed;
* `truncation_leaks` — a file of eleven blocks.
-/
import Jos.Fs.Unwritten

namespace Jos

open Prog Bytes

namespace Fs

open Fs.Demo

/-! ### Another `free_block` -/

section With

variable (fr : ℕ → FsM Unit)

def fileFreeBlockWith (f filebno : ℕ) : FsM ℤ := do
  let walk ← fileBlockWalk f filebno false
  match walk with
  | .error r => pure r
  | .ok slot => do
    let blkno ← load32 slot
    when (blkno ≠ 0) (do
      fr blkno
      store32 slot 0)
    pure 0

def fileTruncateBlocksWith (f newsize : ℕ) : FsM Unit := do
  let size ← load32 (fSize f)
  forFrom (fun bno => do
    let _ ← fileFreeBlockWith fr f bno
    pure ()) (nblocksOf newsize) (nblocksOf size - nblocksOf newsize)
  let indirect ← load32 (fIndirect f)
  when (nblocksOf newsize ≤ ndirect ∧ indirect ≠ 0) (do
    fr indirect
    store32 (fIndirect f) 0)

def fileSetSizeWith (f newsize : ℕ) : FsM ℤ := do
  let size ← load32 (fSize f)
  when (toInt32 size > toInt32 newsize) (fileTruncateBlocksWith fr f newsize)
  store32 (fSize f) newsize
  pure 0

theorem fileFreeBlockWith_freeBlock (f i : ℕ) : fileFreeBlockWith freeBlock f i = fileFreeBlock f i := rfl

theorem fileSetSizeWith_freeBlock (f n : ℕ) : fileSetSizeWith freeBlock f n = fileSetSize f n := by
  simp only [fileSetSizeWith, fileSetSize, fileTruncateBlocksWith, fileTruncateBlocks,
    fileFreeBlockWith_freeBlock]

/-- `fr` does to a block that is in use what `free_block` does. -/
def FreesUsed : Prop := ∀ t b, ¬ IsFree t b → fr b t = freeBlock b t

variable {fr} {t : Mem} {f i a : ℕ}

theorem freeSlotWith_eq (hfr : FreesUsed fr) (hin : InDisk t a) (hused : ¬ IsFree t (rd32 t a)) :
    (do
      let blkno ← load32 a
      when (blkno ≠ 0) (do
        fr blkno
        store32 a 0)
      pure 0 : FsM ℤ) t = (do
      let blkno ← load32 a
      when (blkno ≠ 0) (do
        freeBlock blkno
        store32 a 0)
      pure 0) t := by
  rw [ret_bind (load32_eq hin), ret_bind (load32_eq hin)]
  by_cases hz : rd32 t a = 0
  · rw [when, when, if_neg (not_not.mpr hz), if_neg (not_not.mpr hz)]
  · rw [when, when, if_pos hz, if_pos hz]
    exact bind_congr_at (bind_congr_at (hfr t _ hused))

theorem fileFreeBlock_upto (hs : Sound t) (hf : Node t f) (hi : i ≤ ndirect)
    (hlt : direct t f i ≠ 0 → direct t f i < nblocks t) :
    ∃ r, fileFreeBlock f i t = .ret r (if direct t f i = 0 then t else clearSlot t f (136 + 4 * i)) := by
  rcases Nat.eq_or_lt_of_le hi with rfl | hi
  · by_cases hz : indirect t f = 0
    · obtain ⟨r, hr⟩ := fileFreeBlock_none hs hf (Nat.le_refl ndirect) hz
      exact ⟨r, hr.trans (by rw [if_pos (show direct t f ndirect = 0 from hz)])⟩
    · refine ⟨0, (fileFreeBlock_ndirect hs hf hz (hlt hz)).trans ?_⟩
      rw [if_neg (show ¬ direct t f ndirect = 0 from hz)]
      rfl
  · exact ⟨0, fileFreeBlock_direct hs hf hi hlt⟩

theorem fileFreeBlockWith_eq (hfr : FreesUsed fr) (hs : Sound t) (hf : Node t f) (hi : i ≤ ndirect)
    (hused : ¬ IsFree t (direct t f i)) : fileFreeBlockWith fr f i t = fileFreeBlock f i t := by
  have hin : InDisk t (fDirect f i) := by
    have := hf.inDisk hs (k := 136 + 4 * i) (by unfold ndirect at hi; omega)
    rwa [← Nat.add_assoc] at this
  have hwalk : (∃ r, fileBlockWalk f i false t = .ret (.error r) t) ∨
      fileBlockWalk f i false t = .ret (.ok (fDirect f i)) t := by
    rcases Nat.eq_or_lt_of_le hi with rfl | hi
    · by_cases hz : indirect t f = 0
      · exact .inl (fileBlockWalk_none hs hf (Nat.le_refl _) hz)
      · right
        rw [fileBlockWalk, if_neg (by decide), if_pos (by decide),
          ret_bind (load32_eq (hf.inDisk hs (by omega)))]
        exact congrFun (if_pos hz) t
    · exact .inr (fileBlockWalk_direct hi false)
  rw [fileFreeBlockWith, fileFreeBlock]
  rcases hwalk with ⟨r, hr⟩ | hr
  · rw [ret_bind hr, ret_bind hr]
  · rw [ret_bind hr, ret_bind hr]
    exact freeSlotWith_eq hfr hin hused

end With

/-! ### The loop -/

section Truncated

variable {m t : Mem} {f i j lo hi c : ℕ}

/-- The slots of the file, the one of the indirect block being the last. -/
def fileSlot (f i : ℕ) : Slot := if i < ndirect then .direct f i else .indirect f

theorem fileSlot_valid (hf : IsFile m f) (i : ℕ) : (fileSlot f i).Valid m := by
  unfold fileSlot
  split
  case isTrue hi => exact ⟨hf, hi⟩
  case isFalse => exact ⟨hf, trivial⟩

theorem fileSlot_val (hi : i ≤ ndirect) : (fileSlot f i).val m = direct m f i := by
  unfold fileSlot
  split
  case isTrue => rfl
  case isFalse hge =>
    obtain rfl : i = ndirect := by omega
    rfl

theorem fileSlot_inj (hi : i ≤ ndirect) (hj : j ≤ ndirect) (h : fileSlot f i = fileSlot f j) : i = j := by
  unfold fileSlot at h
  split at h <;> split at h
  · exact (Slot.direct.inj h).2
  · cases h
  · cases h
  · omega

/-- From `m` to `t` the slots `lo` to `hi - 1` of the file have been emptied. -/
structure Truncated (m t : Mem) (f lo hi : ℕ) : Prop where
  changes : ∀ a, t a ≠ m a → InBitmap m a ∨ InNode f a
  nblocks : nblocks t = nblocks m
  size : fileSize t f = fileSize m f
  direct : ∀ i ≤ ndirect, direct t f i = if lo ≤ i ∧ i < hi then 0 else direct m f i
  free : ∀ c, IsFree t c ↔
    IsFree m c ∨ c ≠ 0 ∧ ∃ i, lo ≤ i ∧ i < hi ∧ i ≤ ndirect ∧ Fs.direct m f i = c

theorem Truncated.refl (m : Mem) (f lo : ℕ) : Truncated m m f lo lo where
  changes _ ha := absurd rfl ha
  nblocks := rfl
  size := rfl
  direct i _ := by rw [if_neg (by omega)]
  free c := by
    refine ⟨.inl, fun h => h.resolve_right ?_⟩
    rintro ⟨-, i, hlo, hhi, -⟩
    omega

theorem FsInv.fileSlot (h : FsInv m) (hf : IsFile m f) (hi : i ≤ ndirect) (hv : direct m f i ≠ 0) :
    InRange m (direct m f i) ∧ ¬ IsFree m (direct m f i) ∧
      ∀ j ≤ ndirect, direct m f j = direct m f i → j = i := by
  have hval := @fileSlot_val m f i hi
  have hvalid := fileSlot_valid hf i
  refine ⟨hval ▸ h.owned.range _ hvalid (hval ▸ hv), hval ▸ h.owned.used _ hvalid (hval ▸ hv), ?_⟩
  intro j hj heq
  refine fileSlot_inj hj hi (f := f) (h.owned.single _ _ (fileSlot_valid hf j) hvalid ?_ ?_)
  · rw [fileSlot_val hj, heq]
    exact hv
  · rw [fileSlot_val hj, hval, heq]

theorem Truncated.sound (ht : Truncated m t f lo hi) (h : FsInv m) (hf : IsFile m f) : Sound t := by
  refine h.sound.congr ht.nblocks fun b hb hfree => ?_
  rcases (ht.free b).mp hfree with hm | ⟨h0, i, -, -, hi, rfl⟩
  · exact h.sound.reserved b hb hm
  · exact Nat.not_lt.mpr (h.fileSlot hf hi h0).1.1 hb

theorem Truncated.skip (ht : Truncated m t f lo i) (hz : i ≤ ndirect → Fs.direct t f i = 0) :
    Truncated m t f lo (i + 1) := by
  have hm : i ≤ ndirect → Fs.direct m f i = 0 := by
    intro hi
    have := ht.direct i hi
    rw [if_neg (by omega)] at this
    rw [← this]
    exact hz hi
  refine ⟨ht.changes, ht.nblocks, ht.size, fun j hj => ?_, fun c => ?_⟩
  · rw [ht.direct j hj]
    by_cases hji : j = i
    · subst hji
      rw [if_neg (by omega), hm hj, ite_self]
    · exact if_congr (by omega) rfl rfl
  · rw [ht.free c]
    refine or_congr_right (and_congr_right fun hc => ?_)
    refine ⟨fun ⟨j, h1, h2, h3, h4⟩ => ⟨j, h1, by omega, h3, h4⟩, fun ⟨j, h1, h2, h3, h4⟩ => ?_⟩
    have hji : j ≠ i := by
      rintro rfl
      exact hc (h4 ▸ hm h3)
    exact ⟨j, h1, by omega, h3, h4⟩

/-- Slot `i` is emptied and its block freed. -/
structure Cleared (t t' : Mem) (f i : ℕ) : Prop where
  changes : ∀ a, t' a ≠ t a → InBitmap t a ∨ InNode f a
  nblocks : nblocks t' = nblocks t
  size : fileSize t' f = fileSize t f
  self : direct t' f i = 0
  other : ∀ j ≤ ndirect, j ≠ i → Fs.direct t' f j = Fs.direct t f j
  free : ∀ c, IsFree t' c ↔ IsFree t c ∨ c = direct t f i

theorem cleared_clearSlot (hs : Sound t) (hf : Node t f) (hi : i ≤ ndirect)
    (hlt : direct t f i < nblocks t) : Cleared t (clearSlot t f (136 + 4 * i)) f i := by
  have hk : 136 + 4 * i + 4 ≤ 256 := by
    unfold ndirect at hi
    omega
  have hslot : rd32 t (f + (136 + 4 * i)) = direct t f i := by
    rw [← Nat.add_assoc]
    rfl
  obtain ⟨w, heq, hw⟩ : ∃ w, clearSlot t f (136 + 4 * i) = markSlot t f (136 + 4 * i) (direct t f i) w 0 ∧
      wr32 t (bitmapWord (direct t f i)) w = markFree t (direct t f i) :=
    ⟨_, by rw [clearSlot, hslot]; rfl, rfl⟩
  rw [heq]
  refine ⟨fun a ha => ?_, ?_, ?_, ?_, fun j hj hji => ?_, fun c => ?_⟩
  · by_cases hin : f + (136 + 4 * i) ≤ a ∧ a < f + (136 + 4 * i) + 4
    · exact .inr (.inr ⟨by omega, by omega⟩)
    · exact .inl (bitmap_changes hs hlt fun hc => ha ((if_neg hin).trans hc))
  · have hroot := (hf.bounds hs).1
    rw [markSlot, hw, nblocks_wr32 (by unfold sRoot sNblocks at *; omega), nblocks_markFree]
  · exact markSlot_other (j := 128) hs hf hlt (by omega) (by omega)
  · rw [direct, fDirect, Nat.add_assoc]
    exact markSlot_self (by decide)
  · have haddr : fDirect f j = f + (136 + 4 * j) := Nat.add_assoc _ _ _
    show rd32 _ (fDirect f j) = rd32 t (fDirect f j)
    rw [haddr]
    exact markSlot_other hs hf hlt (by unfold ndirect at hj; omega) (by omega)
  · rw [markSlot_isFree hs hf hk, hw, isFree_markFree t hlt]

theorem Truncated.clear {t' : Mem} (ht : Truncated m t f lo i) (hlo : lo ≤ i) (hi : i ≤ ndirect)
    (hv : Fs.direct t f i ≠ 0) (hc : Cleared t t' f i) : Truncated m t' f lo (i + 1) := by
  have hval : Fs.direct t f i = Fs.direct m f i := by
    rw [ht.direct i hi, if_neg (by omega)]
  refine ⟨fun a ha => ?_, hc.nblocks.trans ht.nblocks, hc.size.trans ht.size, fun j hj => ?_, fun c => ?_⟩
  · by_cases hsame : t' a = t a
    · exact ht.changes a (hsame ▸ ha)
    · have := hc.changes a hsame
      unfold InBitmap at *
      rwa [firstBlock_congr ht.nblocks] at this
  · by_cases hji : j = i
    · rw [hji, hc.self, if_pos ⟨hlo, Nat.lt_succ_self i⟩]
    · have hiff : lo ≤ j ∧ j < i + 1 ↔ lo ≤ j ∧ j < i := by omega
      rw [hc.other j hj hji, ht.direct j hj]
      simp only [hiff]
  · rw [hc.free c, ht.free c, hval]
    constructor
    · rintro ((hm | ⟨h0, j, h1, h2, h3, h4⟩) | rfl)
      · exact .inl hm
      · exact .inr ⟨h0, j, h1, Nat.lt_succ_of_lt h2, h3, h4⟩
      · exact .inr ⟨hval ▸ hv, i, hlo, Nat.lt_succ_self i, hi, rfl⟩
    · rintro (hm | ⟨h0, j, h1, h2, h3, h4⟩)
      · exact .inl (.inl hm)
      · rcases Nat.lt_succ_iff_lt_or_eq.mp h2 with h2 | rfl
        · exact .inl (.inr ⟨h0, j, h1, h2, h3, h4⟩)
        · exact .inr h4.symm

theorem Truncated.used (ht : Truncated m t f lo i) (h : FsInv m) (hf : IsFile m f) (hi : i ≤ ndirect)
    (hv : Fs.direct t f i ≠ 0) : ¬ IsFree t (Fs.direct t f i) ∧ Fs.direct t f i < Fs.nblocks t := by
  have hval : Fs.direct t f i = Fs.direct m f i := by
    rw [ht.direct i hi, if_neg (by omega)]
  rw [hval] at hv ⊢
  obtain ⟨hrange, hused, hsingle⟩ := h.fileSlot hf hi hv
  refine ⟨fun hc => ?_, ht.nblocks ▸ hrange.2⟩
  rcases (ht.free _).mp hc with hc | ⟨-, j, -, hj, hjn, heq⟩
  · exact hused hc
  · have := hsingle j hjn heq
    omega

theorem Truncated.step {fr : ℕ → FsM Unit} (hfr : FreesUsed fr) (h : FsInv m) (hf : IsFile m f)
    (ht : Truncated m t f lo i) (hlo : lo ≤ i) (hend : ndirect < i → Fs.indirect t f = 0) :
    wp (do
      let _ ← fileFreeBlockWith fr f i
      pure ()) (fun _ t' => Truncated m t' f lo (i + 1)) (fun _ _ => False) t := by
  have hs := ht.sound h hf
  have hnode := (hf.1.node h.owned).congr ht.nblocks
  rw [wp_bind]
  rcases Nat.lt_or_ge ndirect i with hi | hi
  · -- after the indirect block
    obtain ⟨r, hr⟩ := fileBlockWalk_none hs hnode (Nat.le_of_lt hi) (hend hi)
    rw [fileFreeBlockWith, wp_bind_of_ret hr]
    exact ht.skip fun hle => absurd hle (Nat.not_le.mpr hi)
  · have hused : ¬ IsFree t (Fs.direct t f i) := by
      intro hc
      by_cases hv : Fs.direct t f i = 0
      · rw [hv] at hc
        have hfirst := hs.first_gt
        exact hs.reserved 0 (by omega) hc
      · exact (ht.used h hf hi hv).1 hc
    obtain ⟨r, hr⟩ := fileFreeBlock_upto hs hnode hi fun hv => (ht.used h hf hi hv).2
    rw [← fileFreeBlockWith_eq hfr hs hnode hi hused] at hr
    rw [wp_of_ret hr, wp_pure]
    split
    case isTrue hv => exact ht.skip fun _ => hv
    case isFalse hv => exact ht.clear hlo hi hv (cleared_clearSlot hs hnode hi (ht.used h hf hi hv).2)

theorem wp_fileTruncateBlocksWith {fr : ℕ → FsM Unit} {n : ℕ} (hfr : FreesUsed fr) (h : FsInv m)
    (hf : IsFile m f) (hle : nblocksOf n ≤ nblocksOf (fileSize m f))
    (hcond : indirect m f = 0 ∨ nblocksOf n = nblocksOf (fileSize m f) ∨ nblocksOf n ≤ ndirect)
    (hind : indirect m f ≠ 0 → ndirect < nblocksOf (fileSize m f)) :
    wp (fileTruncateBlocksWith fr f n)
      (fun _ t => Truncated m t f (nblocksOf n) (nblocksOf (fileSize m f))) (fun _ _ => False) m := by
  have hnode := hf.1.node h.owned
  rw [fileTruncateBlocksWith, wp_bind_of_ret (load32_eq (InDisk.fSize hnode h.sound)), wp_bind]
  change wp (forFrom _ _ (nblocksOf (fileSize m f) - _)) _ _ _
  generalize nblocksOf (fileSize m f) = last at *
  generalize nblocksOf n = first at *
  have hloop := @wp_forFrom _ _ (fun bno => do
    let _ ← fileFreeBlockWith fr f bno
    pure ()) (fun k t => Truncated m t f first k) (fun _ _ => False) (last - first) first m (.refl m f first) ?_
  · rw [Nat.add_sub_cancel' hle] at hloop
    refine hloop.imp ?_
    intro _ t ht
    have hs := ht.sound h hf
    have hin : InDisk t (fIndirect f) := (hnode.congr ht.nblocks).inDisk hs (k := 176) (by omega)
    rw [wp_bind_of_ret (load32_eq hin), wp_when]
    refine ⟨fun hc => absurd ?_ hc.2, fun _ => ht⟩
    -- the loop has been at the slot of the indirect block
    have hval : indirect t f = _ := ht.direct ndirect (Nat.le_refl _)
    by_cases hz : indirect m f = 0
    · exact hval.trans (ite_eq_left_iff.mpr fun _ => hz)
    · exact hval.trans (if_pos ⟨hc.1, hind hz⟩)
  · intro k t hk hlast ht
    refine ht.step hfr h hf hk fun hend => ?_
    have hval : indirect t f = _ := ht.direct ndirect (Nat.le_refl _)
    rcases hcond with hz | heq | hfirst
    · exact hval.trans (ite_eq_left_iff.mpr fun _ => hz)
    · omega
    · exact hval.trans (if_pos ⟨hfirst, hend⟩)

end Truncated

/-! ### The whole of `file_set_size` -/

section Cut

variable {m t : Mem} {f n : ℕ}

def blocksFor (n : ℕ) : ℕ := (n + blksize - 1) / blksize

/-- The file has no blocks after its end. -/
structure Fits (m : Mem) (f : ℕ) : Prop where
  block : ∀ i, blockAt m f i ≠ 0 → i < blocksFor (fileSize m f)
  indirect : indirect m f ≠ 0 → ndirect < blocksFor (fileSize m f)

/-- The cut goes down to direct blocks, or comes to no slot behind them. -/
def Direct (m : Mem) (f n : ℕ) : Prop :=
  indirect m f = 0 ∨ blocksFor n = blocksFor (fileSize m f) ∨ blocksFor n ≤ ndirect

/-- No block that is to be freed has its number in the indirect block, and no
other slot is in the way. -/
def NoIndirect (m : Mem) (f n : ℕ) : Prop :=
  indirect m f = 0 ∨ blocksFor n = blocksFor (fileSize m f) ∨
    blocksFor n ≤ ndirect ∧ ∀ k < nindirect, blockWord m (indirect m f) k = 0

/-- From `m` to `m'` file `f` was cut to `n` bytes. -/
structure Cut (m m' : Mem) (f n : ℕ) : Prop where
  size : fileSize m' f = n
  block : ∀ i, blockAt m' f i = if i < blocksFor n then blockAt m f i else 0
  indirect : indirect m' f = if blocksFor n ≤ ndirect then 0 else indirect m f
  free : ∀ c, IsFree m' c ↔ IsFree m c ∨ c ≠ 0 ∧
    ((∃ i, blocksFor n ≤ i ∧ blockAt m f i = c) ∨ blocksFor n ≤ ndirect ∧ Fs.indirect m f = c)
  changes : ∀ a, m' a ≠ m a → InBitmap m a ∨ InNode f a

theorem NoIndirect.direct (hc : NoIndirect m f n) : Direct m f n :=
  hc.imp_right (.imp_right fun hlow => hlow.1)

theorem NoIndirect.blockAt (hc : NoIndirect m f n) (hfits : Fits m f) {i : ℕ} (hi : ndirect ≤ i)
    (hn : blocksFor n ≤ i) : blockAt m f i = 0 := by
  rcases hc with hz | heq | ⟨-, hwords⟩
  · rw [Fs.blockAt, if_neg (by omega), if_neg fun hc => hc.2 hz]
  · by_contra hv
    have := hfits.block i hv
    omega
  · rw [Fs.blockAt, if_neg (by omega)]
    split
    · exact hwords _ (by omega)
    · rfl

section

variable (ht : Truncated m t f (blocksFor n) (blocksFor (fileSize m f)))
include ht

theorem Truncated.indirect (hfits : Fits m f) :
    Fs.indirect t f = if blocksFor n ≤ ndirect then 0 else Fs.indirect m f := by
  refine (ht.direct ndirect (Nat.le_refl _)).trans ?_
  by_cases hz : Fs.indirect m f = 0
  · rw [show Fs.direct m f ndirect = 0 from hz, hz, ite_self, ite_self]
  · have := hfits.indirect hz
    simp only [this, and_true]
    rfl

theorem Truncated.low (hfits : Fits m f) {i : ℕ} (hi : i < ndirect) :
    Fs.direct t f i = if i < blocksFor n then Fs.direct m f i else 0 := by
  rw [ht.direct i (Nat.le_of_lt hi)]
  by_cases hlo : i < blocksFor n
  · rw [if_neg (by omega), if_pos hlo]
  · rw [if_neg hlo, ite_eq_left_iff]
    intro hhi
    by_contra hv
    rw [← blockAt_direct (m := m) hi] at hv
    have := hfits.block i hv
    omega

theorem Truncated.freed (hfits : Fits m f) (hc : NoIndirect m f n) (c : ℕ) : IsFree t c ↔ IsFree m c ∨ c ≠ 0 ∧
      ((∃ i, blocksFor n ≤ i ∧ blockAt m f i = c) ∨ blocksFor n ≤ ndirect ∧ Fs.indirect m f = c) := by
  rw [ht.free c]
  refine or_congr_right (and_congr_right fun h0 => ?_)
  constructor
  · rintro ⟨i, hlo, -, hi, hv⟩
    rcases Nat.eq_or_lt_of_le hi with rfl | hi
    · exact .inr ⟨hlo, hv⟩
    · exact .inl ⟨i, hlo, (blockAt_direct hi).trans hv⟩
  · rintro (⟨i, hlo, rfl⟩ | ⟨hlo, rfl⟩)
    · have hi : i < ndirect := by
        by_contra hge
        exact h0 (hc.blockAt hfits (Nat.not_lt.mp hge) hlo)
      exact ⟨i, hlo, hfits.block i h0, Nat.le_of_lt hi, (blockAt_direct hi).symm⟩
    · exact ⟨ndirect, hlo, hfits.indirect h0, Nat.le_refl _, rfl⟩

end

theorem block_unchanged {m' : Mem} (h : FsInv m) (hf : IsFile m f) (hv : indirect m f ≠ 0)
    (hchanges : ∀ a, m' a ≠ m a → InBitmap m a ∨ InNode f a) : BlockEq m m' (indirect m f) := by
  have hslot : (Slot.indirect f).Valid m := ⟨hf, trivial⟩
  have hrange : InRange m (indirect m f) := h.owned.range _ hslot hv
  have hother : f / blksize ≠ indirect m f := h.node_block hf.1 hslot trivial hv
  have hblock := (hf.1.node h.owned).bounds h.sound
  intro o ho
  by_contra hne
  have hdiv : (indirect m f * blksize + o) / blksize = indirect m f := by
    rw [Nat.mul_comm, Nat.mul_add_div (by decide), Nat.div_eq_of_lt ho, Nat.add_zero]
  rcases hchanges _ hne with hbit | hnode
  · have hlow := Nat.mul_le_mul_right blksize hrange.1
    exact absurd hbit.2 (by omega)
  · refine hother ?_
    obtain ⟨k, hk, heq⟩ : ∃ k < 256, indirect m f * blksize + o = f + k :=
      ⟨indirect m f * blksize + o - f, by unfold InNode at hnode; omega, by unfold InNode at hnode; omega⟩
    rw [← hblock.2.1 k hk, ← heq, hdiv]

theorem Truncated.blocks {m' : Mem} (ht : Truncated m t f (blocksFor n) (blocksFor (fileSize m f)))
    (h : FsInv m) (hf : IsFile m f) (hfits : Fits m f) (hc : NoIndirect m f n)
    (hchanges : ∀ a, m' a ≠ m a → InBitmap m a ∨ InNode f a)
    (hdirect : ∀ i, Fs.direct m' f i = Fs.direct t f i) (i : ℕ) :
    blockAt m' f i = if i < blocksFor n then blockAt m f i else 0 := by
  have hind : Fs.indirect m' f = if blocksFor n ≤ ndirect then 0 else Fs.indirect m f :=
    (hdirect ndirect).trans (ht.indirect hfits)
  by_cases hi : i < ndirect
  · rw [blockAt_direct hi, blockAt_direct hi, hdirect, ht.low hfits hi]
  · by_cases hcount : blocksFor n ≤ ndirect
    · rw [if_pos hcount] at hind
      rw [if_neg (by omega), blockAt, if_neg hi, if_neg fun hc => hc.2 hind]
    · -- the indirect block stays, and with it all the slots
      rw [if_neg hcount] at hind
      have hsame : blockAt m' f i = blockAt m f i := by
        refine blockAt_congr (fun j hj => ?_) hind fun hv => block_unchanged h hf hv hchanges
        rw [hdirect, ht.low hfits hj, if_pos (by omega)]
      rw [hsame]
      split
      · rfl
      · exact hc.blockAt hfits (by omega) (by omega)

theorem cut_of_truncated (ht : Truncated m t f (blocksFor n) (blocksFor (fileSize m f))) (h : FsInv m)
    (hf : IsFile m f) (hfits : Fits m f) (hc : NoIndirect m f n) (hn : n ≤ maxfilesize) :
    Cut m (wr32 t (fSize f) n) f n := by
  have hchanges : ∀ a, wr32 t (fSize f) n a ≠ m a → InBitmap m a ∨ InNode f a := by
    intro a ha
    by_cases hsame : wr32 t (fSize f) n a = t a
    · exact ht.changes a (hsame ▸ ha)
    · exact .inr (.inl (wr32_changes hsame))
  refine ⟨?_, ht.blocks h hf hfits hc hchanges direct_setSize,
    indirect_setSize.trans (ht.indirect hfits), fun c => ?_, hchanges⟩
  · rw [fileSize, rd32_wr32, Nat.mod_eq_of_lt (Nat.lt_of_le_of_lt hn (by decide))]
  · rw [isFree_wr32 h.sound ht.nblocks (hf.1.node h.owned) (by omega), ht.freed hfits hc]

theorem noIndirect_of_cut (ht : Truncated m t f (blocksFor n) (blocksFor (fileSize m f))) (h : FsInv m)
    (hf : IsFile m f) (hlow : blocksFor n ≤ ndirect) (hcut : Cut m (wr32 t (fSize f) n) f n) :
    NoIndirect m f n := by
  by_cases hz : indirect m f = 0
  · exact .inl hz
  refine .inr (.inr ⟨hlow, fun k hk => ?_⟩)
  by_contra hv
  have hvalid : (Slot.entry f k).Valid m := ⟨hf, hk, hz⟩
  have hat : blockAt m f (ndirect + k) = blockWord m (indirect m f) k := by
    rw [blockAt, if_neg (by omega), if_pos ⟨by omega, hz⟩, Nat.add_sub_cancel_left]
  have hfree := (hcut.free _).mpr (.inr ⟨hv, .inl ⟨ndirect + k, by omega, hat⟩⟩)
  rw [isFree_wr32 h.sound ht.nblocks (hf.1.node h.owned) (by omega), ht.free] at hfree
  rcases hfree with hc | ⟨-, i, -, -, hi, hval⟩
  · exact h.owned.used _ hvalid hv hc
  · -- no other slot has this number
    rcases Nat.eq_or_lt_of_le hi with rfl | hi
    · cases h.owned.single (.indirect f) (.entry f k) ⟨hf, trivial⟩ hvalid hz hval
    · cases h.owned.single (.direct f i) (.entry f k) ⟨hf, hi⟩ hvalid (fun h0 => hv (hval.symm.trans h0)) hval

theorem wp_fileSetSizeWith {fr : ℕ → FsM Unit} (hfr : FreesUsed fr) (h : FsInv m) (hf : IsFile m f)
    (hfits : Fits m f) (hn : n ≤ fileSize m f) (hdom : Direct m f n) :
    wp (fileSetSizeWith fr f n) (fun r m' => r = 0 ∧
      ∃ t, Truncated m t f (blocksFor n) (blocksFor (fileSize m f)) ∧ m' = wr32 t (fSize f) n)
      (fun _ _ => False) m := by
  have hmax := h.size f hf
  have hnode := hf.1.node h.owned
  have hlast : nblocksOf (fileSize m f) = blocksFor (fileSize m f) := nblocksOf_eq hmax
  have hfirst : nblocksOf n = blocksFor n := nblocksOf_eq (Nat.le_trans hn hmax)
  have hle : blocksFor n ≤ blocksFor (fileSize m f) := Nat.div_le_div_right (by omega)
  -- the last store
  have hstore : ∀ {t}, Truncated m t f (blocksFor n) (blocksFor (fileSize m f)) →
      wp (do store32 (fSize f) n; pure (0 : ℤ)) (fun r m' => r = 0 ∧
        ∃ t, Truncated m t f (blocksFor n) (blocksFor (fileSize m f)) ∧ m' = wr32 t (fSize f) n)
        (fun _ _ => False) t := by
    intro t ht
    rw [wp_bind_of_ret (store32_eq (InDisk.fSize (hnode.congr ht.nblocks) (ht.sound h hf)) n), wp_pure]
    exact ⟨rfl, t, ht, rfl⟩
  have hsize := toInt32_of_lt (n := fileSize m f) (Nat.lt_of_le_of_lt hmax (by decide))
  have hnew := toInt32_of_lt (n := n) (Nat.lt_of_le_of_lt (Nat.le_trans hn hmax) (by decide))
  rw [fileSetSizeWith, wp_bind_of_ret (load32_eq (InDisk.fSize hnode h.sound)), wp_bind, wp_when]
  constructor
  · intro _
    refine (wp_fileTruncateBlocksWith hfr h hf (by rw [hfirst, hlast]; exact hle) ?_ ?_).imp
      fun _ t ht => hstore (by rwa [hfirst, hlast] at ht)
    · rw [hfirst, hlast]
      exact hdom
    · rw [hlast]
      exact hfits.indirect
  · intro hnot
    have heq : n = fileSize m f := by
      change ¬ toInt32 (fileSize m f) > toInt32 n at hnot
      rw [hsize, hnew] at hnot
      omega
    rw [heq]
    rw [heq] at hstore
    exact hstore (.refl m f _)

/-- The right blocks are freed, and none that is free already: whatever `free_block`
did to one, the result would be the same. -/
def CutsExactly (m : Mem) (f n : ℕ) : Prop :=
  wp (fileSetSize f n) (fun r m' => r = 0 ∧ Cut m m' f n) (fun _ _ => False) m ∧
  ∀ fr, FreesUsed fr →
    wp (fileSetSizeWith fr f n) (fun r m' => r = 0 ∧ Cut m m' f n) (fun _ _ => False) m

end Cut

/-! ### A file with an indirect block -/

/-- The file has eleven blocks, the last by way of the indirect block 14; nothing
is free. -/
def Demo.large : Mem :=
  putWords (wr32 (wr32 image bitmapStart 0) (14 * blksize) 15) file
    ((128, 11 * blksize) :: (List.range 11).map fun i => (136 + 4 * i, 4 + i))

theorem Demo.large_data : Root large ∧ (fileType large file = ftypeReg ∧
    fileSize large file = 11 * blksize ∧ (∀ i < ndirect, direct large file i = 4 + i) ∧
    indirect large file = 14 ∧ large file ≠ 0 ∧ blockWord large 14 0 = 15) ∧
    Sound large ∧ (firstBlock large = 3 ∧ nblocks large = 16) ∧
    ∀ b < 16, ¬ IsFree large b := by decide +kernel

theorem Demo.large_root : Root large := large_data.1

theorem Demo.large_zero {a : ℕ} (h : 3 * blksize + 256 ≤ a) (h' : a < 14 * blksize ∨ 14 * blksize + 4 ≤ a) :
    large a = 0 := by
  have hwords : large a = wr32 (wr32 image bitmapStart 0) (14 * blksize) 15 a := by
    refine putWords_outside fun w hw => .inr ?_
    have hoff : w.1 + 4 ≤ 256 := by
      revert w
      decide
    unfold file dirEntry
    omega
  have hblock : wr32 (wr32 image bitmapStart 0) (14 * blksize) 15 a = wr32 image bitmapStart 0 a := by
    rcases h' with h' | h'
    · exact wr32_of_lt _ _ h'
    · exact wr32_of_ge _ _ h'
  rw [hwords, hblock, wr32_of_ge, image, wr32_of_ge, wr32_of_ge, wr32_of_ge, wr32_of_ge, wr32_of_ge,
    wr32_of_ge, if_neg (by omega)]
  all_goals exact Nat.le_trans (by decide) h

theorem Demo.large_rd32 {a : ℕ} (h : 3 * blksize + 256 ≤ a)
    (h' : a + 4 ≤ 14 * blksize ∨ 14 * blksize + 4 ≤ a) : rd32 large a = 0 := by
  refine (rd32_congr fun b hb hb' => ?_ : _ = rd32 (fun _ => 0) a)
  exact large_zero (by omega) (by omega)

theorem Demo.large_words {k : ℕ} (hk : k ≠ 0) : blockWord large 14 k = 0 :=
  large_rd32 (by unfold blksize; omega) (by omega)

theorem Demo.large_vacant {j : ℕ} (hj : j < blkfiles) (h0 : j ≠ 0) :
    large (dirEntry (3 * blksize) j) = 0 ∧ Vacant large (dirEntry (3 * blksize) j) := by
  have hlow : 3 * blksize + 256 ≤ dirEntry (3 * blksize) j := by
    unfold dirEntry
    omega
  have hhigh : dirEntry (3 * blksize) j + 256 ≤ 14 * blksize := by
    unfold dirEntry blkfiles blksize at *
    omega
  have hfield : ∀ {k}, k + 4 ≤ 256 → rd32 large (dirEntry (3 * blksize) j + k) = 0 := fun hk =>
    large_rd32 (by omega) (.inl (by omega))
  refine ⟨large_zero hlow (.inl (by omega)), hfield (by omega), hfield (by omega), fun i hi => ?_,
    hfield (by omega)⟩
  rw [direct, fDirect, Nat.add_assoc]
  exact hfield (by unfold ndirect at hi; omega)

theorem Demo.large_entry {x : ℕ} (h : Entry large x) :
    x = sRoot ∨ ∃ j < blkfiles, x = dirEntry (3 * blksize) j := by
  refine entry_of large_root (fun j hj => ?_) h
  by_cases h0 : j = 0
  · rw [h0]
    exact fun hc => absurd (hc.symm.trans large_data.2.1.1) (by decide)
  · exact fun hc => absurd (hc.symm.trans (large_vacant hj h0).2.type) (by decide)

/-- Which slot has a block. -/
def Demo.largeSlot (b : ℕ) : Slot :=
  if b = 3 then .direct sRoot 0
  else if b < 14 then .direct file (b - 4)
  else if b = 14 then .indirect file
  else .entry file 0

theorem Demo.large_slot {s : Slot} (hs : s.Valid large) (hv : s.val large ≠ 0) :
    3 ≤ s.val large ∧ s.val large < 16 ∧ s = largeSlot (s.val large) := by
  obtain ⟨hfile, hin⟩ := hs
  obtain ⟨-, -, hzero, hdirect, hind⟩ := large_root
  obtain ⟨-, -, hblocks, hind', -, hword⟩ := large_data.2.1
  -- the file, or an entry that is not in use
  have hcase : s.file = sRoot ∨ s.file = file := by
    rcases large_entry hfile.1 with hf | ⟨j, hj, hf⟩
    · exact .inl hf
    · by_cases h0 : j = 0
      · right
        rw [hf, h0]
        rfl
      · have hlive := hfile.2
        rw [hf] at hlive
        rcases hlive with hroot | hname
        · exact .inl (hf.trans hroot)
        · exact absurd (large_vacant hj h0).1 hname
  cases s with
  | direct f i =>
    rcases hcase with hf | hf
    · obtain rfl : f = sRoot := hf
      by_cases hi : i = 0
      · subst hi
        have hval : (Slot.direct sRoot 0).val large = 3 := hzero
        rw [hval]
        decide
      · exact absurd (hdirect i hin hi) hv
    · obtain rfl : f = file := hf
      have hval : (Slot.direct file i).val large = 4 + i := hblocks i hin
      have hlt : i < 10 := hin
      rw [hval, largeSlot, if_neg (by omega), if_pos (by omega), Nat.add_sub_cancel_left]
      exact ⟨by omega, by omega, rfl⟩
  | indirect f =>
    rcases hcase with hf | hf
    · obtain rfl : f = sRoot := hf
      exact absurd hind hv
    · obtain rfl : f = file := hf
      have hval : (Slot.indirect file).val large = 14 := hind'
      rw [hval]
      decide
  | entry f k =>
    rcases hcase with hf | hf
    · obtain rfl : f = sRoot := hf
      exact absurd hind hin.2
    · obtain rfl : f = file := hf
      have hval : (Slot.entry file k).val large = blockWord large 14 k := by
        show blockWord large (indirect large file) k = _
        rw [hind']
      by_cases hk : k = 0
      · subst hk
        rw [hval, hword]
        decide
      · exact absurd (hval.trans (large_words hk)) hv

theorem Demo.large_inv : FsInv large := by
  obtain ⟨hroot, ⟨htype, hsize, -, -, hname, -⟩, hsound, hdisk, hused⟩ := large_data
  refine ⟨hsound, ⟨?_, ?_, ?_⟩, ?_, ?_, ?_⟩
  · intro s hs hv
    obtain ⟨hlow, hhigh, -⟩ := large_slot hs hv
    unfold InRange
    omega
  · intro s hs hv
    obtain ⟨-, hhigh, -⟩ := large_slot hs hv
    exact hused _ hhigh
  · intro s s' hs hs' hv heq
    rw [(large_slot hs hv).2.2, heq, ← (large_slot hs' (heq ▸ hv)).2.2]
  · intro f hf hl
    rcases large_entry hf with rfl | ⟨j, hj, rfl⟩
    · exact absurd (.inl rfl) hl
    · by_cases h0 : j = 0
      · subst h0
        exact absurd (.inr hname) hl
      · exact (large_vacant hj h0).2
  · intro f hf
    rcases large_entry hf.1 with rfl | ⟨j, hj, rfl⟩
    · rw [hroot.size]
      decide
    · by_cases h0 : j = 0
      · subst h0
        exact Nat.le_trans (Nat.le_of_eq hsize) (by decide)
      · rw [(large_vacant hj h0).2.size]
        exact Nat.zero_le _
  · intro f hf hd
    rcases large_entry hf.1 with rfl | ⟨j, hj, rfl⟩
    · exact hroot.dirOk
    · by_cases h0 : j = 0
      · subst h0
        exact absurd (hd.symm.trans htype) (by decide)
      · exact absurd (hd.symm.trans (large_vacant hj h0).2.type) (by decide)

theorem Demo.large_isFile : IsFile large file :=
  large_root.isFile (by decide) large_data.2.1.2.2.2.2.1

theorem Demo.large_fits : Fits large file := by
  obtain ⟨-, hsize, -, hind, -⟩ := large_data.2.1
  have hcount : blocksFor (fileSize large file) = 11 := by
    rw [hsize]
    rfl
  refine ⟨fun i hv => ?_, fun _ => ?_⟩
  · rw [hcount]
    by_contra hge
    refine hv ?_
    rw [blockAt, if_neg (by unfold ndirect; omega), hind]
    split
    · exact large_words (by unfold ndirect; omega)
    · rfl
  · rw [hcount]
    decide

def Demo.short : Mem := wr32 (allocSlot image file 0 4) (fSize file) blksize

theorem Demo.short_data : IsFree image 4 ∧ fileSize short file = blksize ∧
    direct short file 0 = 4 ∧ indirect short file = 0 ∧
    ∀ i < ndirect, i ≠ 0 → direct short file i = 0 := by decide +kernel

theorem Demo.short_inv : FsInv short ∧ IsFile short file := by
  obtain ⟨hf, hreg⟩ := isFile_image
  obtain ⟨hinv, honly⟩ := allocSlot_inv (i := 0) fsInv hf hreg (by decide) short_data.1
  obtain ⟨hf', hreg'⟩ := honly.still hf hreg
  obtain ⟨hinv', honly'⟩ := setSize_inv (n := blksize) hinv hf' hreg' (by decide)
  exact ⟨hinv', (honly'.isFile hreg' _).mpr hf'⟩

theorem Demo.short_fits : Fits short file := by
  obtain ⟨-, hsize, -, hind, hdirect⟩ := short_data
  refine ⟨fun i hv => ?_, fun hv => absurd hind hv⟩
  rw [hsize]
  have hi : i < ndirect := by
    by_contra hge
    refine hv ?_
    rw [blockAt, if_neg hge, if_neg fun hc => hc.2 hind]
  rw [blockAt_direct hi] at hv
  have h0 : i = 0 := by
    by_contra h0
    exact hv (hdirect i hi h0)
  rw [h0]
  decide

end Fs

end Jos
