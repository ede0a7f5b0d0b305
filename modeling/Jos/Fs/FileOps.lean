/-
The operations on a file that is not a directory.

* `wp_fileSetSize`, `wp_fileWrite`, `wp_fileRead` — what the calls do to a
  well-formed file system, as long as they keep to the direct blocks;
* `Resized` — what `file_set_size` does: it takes block numbers out of slots, and
  writes nothing but the bitmap and the entry of the file;
* `fileRead_full` — reading where there are no holes, which holds of directories
  too.
-/
import Jos.Fs.Blocks

namespace Jos

open Prog Bytes

namespace Fs

/-! ### Truncation -/

section Truncate

variable {m : Mem} {f i k n : ℕ}

theorem freeSlot_eq (hs : Sound m) (hf : Node m f) (hk : k + 4 ≤ 256)
    (hlt : rd32 m (f + k) ≠ 0 → rd32 m (f + k) < nblocks m) :
    (do
      let blkno ← load32 (f + k)
      when (blkno ≠ 0) (do
        freeBlock blkno
        store32 (f + k) 0)
      pure 0 : FsM ℤ) m = .ret 0 (if rd32 m (f + k) = 0 then m else clearSlot m f k) := by
  have hin : InDisk m (f + k) := hf.inDisk hs (by omega)
  rw [ret_bind (load32_eq hin)]
  by_cases hz : rd32 m (f + k) = 0
  · have hwhen : (when (rd32 m (f + k) ≠ 0) (do
        freeBlock (rd32 m (f + k))
        store32 (f + k) 0) : FsM Unit) m = .ret () m := by
      rw [when, if_neg (not_not.mpr hz)]
      rfl
    rw [ret_bind hwhen, if_pos hz]
    rfl
  · have hin' : InDisk (markFree m (rd32 m (f + k))) (f + k) := by
      unfold InDisk
      rw [nblocks_markFree]
      exact hin
    have hwhen : (when (rd32 m (f + k) ≠ 0) (do
        freeBlock (rd32 m (f + k))
        store32 (f + k) 0) : FsM Unit) m = .ret () (clearSlot m f k) := by
      rw [when, if_pos hz, ret_bind (freeBlock_eq hs hz (hlt hz)), store32_eq hin']
      rfl
    rw [ret_bind hwhen, if_neg hz]
    rfl

theorem fileFreeBlock_direct (hs : Sound m) (hf : Node m f) (hi : i < ndirect)
    (hlt : direct m f i ≠ 0 → direct m f i < nblocks m) :
    fileFreeBlock f i m =
      .ret 0 (if direct m f i = 0 then m else clearSlot m f (136 + 4 * i)) := by
  have hslot : fDirect f i = f + (136 + 4 * i) := Nat.add_assoc _ _ _
  rw [fileFreeBlock, ret_bind (fileBlockWalk_direct hi false)]
  unfold direct at *
  rw [hslot] at hlt ⊢
  exact freeSlot_eq hs hf (by unfold ndirect at hi; omega) hlt

theorem fileFreeBlock_ndirect (hs : Sound m) (hf : Node m f) (hv : indirect m f ≠ 0)
    (hlt : indirect m f < nblocks m) :
    fileFreeBlock f ndirect m = .ret 0 (clearSlot m f 176) := by
  have hwalk : fileBlockWalk f ndirect false m = .ret (.ok (f + 176)) m := by
    rw [fileBlockWalk, if_neg (by decide), if_pos (by decide),
      ret_bind (load32_eq (hf.inDisk hs (by omega)))]
    show (if indirect m f ≠ 0 then _ else _ : FsM (Except ℤ ℕ)) m = _
    rw [if_pos hv]
    rfl
  rw [fileFreeBlock, ret_bind hwalk]
  have hv' : ¬ rd32 m (f + 176) = 0 := hv
  refine (freeSlot_eq hs hf (by omega) fun _ => hlt).trans ?_
  rw [if_neg hv']

theorem fileBlockWalk_none (hs : Sound m) (hf : Node m f) (hi : ndirect ≤ i)
    (hz : indirect m f = 0) : ∃ r, fileBlockWalk f i false m = .ret (.error r) m := by
  rw [fileBlockWalk, if_neg (by omega)]
  split
  · refine ⟨-eNotFound, ?_⟩
    rw [ret_bind (load32_eq (hf.inDisk hs (by omega)))]
    show (if indirect m f ≠ 0 then _ else _ : FsM (Except ℤ ℕ)) m = _
    rw [if_neg (not_not.mpr hz)]
    rfl
  · exact ⟨-eInval, rfl⟩

theorem fileFreeBlock_none (hs : Sound m) (hf : Node m f) (hi : ndirect ≤ i)
    (hz : indirect m f = 0) : ∃ r, fileFreeBlock f i m = .ret r m := by
  obtain ⟨r, hr⟩ := fileBlockWalk_none hs hf hi hz
  refine ⟨r, ?_⟩
  rw [fileFreeBlock, ret_bind hr]
  rfl

theorem nblocksOf_eq (h : n ≤ maxfilesize) : nblocksOf n = (n + blksize - 1) / blksize := by
  have hlt : n + blksize - 1 < 2 ^ 31 := by
    unfold maxfilesize ndirect nindirect blksize at *
    omega
  unfold nblocksOf Bc.flushCount
  rw [toInt32_of_lt hlt]
  exact u32_natCast (Nat.lt_of_le_of_lt (Nat.div_le_self _ _) (by omega))

/-- From `m` to `m'` slots of the file were emptied and its size changed. -/
structure Resized (m m' : Mem) (f : ℕ) : Prop where
  inv : FsInv m'
  only : Only m m' f
  changes : ∀ a, m' a ≠ m a → InBitmap m a ∨ (f ≤ a ∧ a < f + 256)
  direct : ∀ i < ndirect, direct m' f i = direct m f i ∨ direct m' f i = 0
  indirect : indirect m' f = indirect m f ∨ indirect m' f = 0

theorem Resized.refl (h : FsInv m) (f : ℕ) : Resized m m f where
  inv := h
  only := Only.refl h f
  changes _ ha := absurd rfl ha
  direct _ _ := .inl rfl
  indirect := .inl rfl

theorem Resized.trans {m₁ m' : Mem} (h : Resized m m₁ f) (h' : Resized m₁ m' f)
    (hreg : ¬ IsDir m f) : Resized m m' f where
  inv := h'.inv
  only := h.only.trans h'.only hreg
  changes a ha := by
    by_cases hsame : m' a = m₁ a
    · exact h.changes a fun hc => ha (hsame.trans hc)
    · have := h'.changes a hsame
      unfold InBitmap at this ⊢
      rwa [h.only.firstBlock] at this
  direct i hi := by
    rcases h'.direct i hi with heq | hz
    · rw [heq]
      exact h.direct i hi
    · exact .inr hz
  indirect := by
    rcases h'.indirect with heq | hz
    · rw [heq]
      exact h.indirect
    · exact .inr hz

theorem resized_clearSlot {s : Slot} (h : FsInv m) (hf : IsFile m f) (hreg : ¬ IsDir m f)
    (hs : SlotAt m f k s) (hv : rd32 m (f + k) ≠ 0) : Resized m (clearSlot m f k) f := by
  obtain ⟨hinv, honly⟩ := clearSlot_inv h hf hreg hs hv
  have hnode := hf.1.node h.owned
  obtain ⟨l, hl, hkl⟩ := hs.form
  have hlt := (hs.inRange h hv).2
  obtain ⟨w, heq⟩ : ∃ w, clearSlot m f k = markSlot m f k (rd32 m (f + k)) w 0 := ⟨_, rfl⟩
  refine ⟨hinv, honly, fun a ha => ?_, fun i hi => ?_, ?_⟩
  · by_cases hin : f + k ≤ a ∧ a < f + k + 4
    · exact .inr (by omega)
    · refine .inl (bitmap_changes (w := w) h.sound hlt fun hsame => ha ?_)
      rw [heq]
      exact (if_neg hin).trans hsame
  · rw [heq]
    by_cases hki : k = 136 + 4 * i
    · right
      rw [direct, fDirect, Nat.add_assoc, ← hki]
      exact markSlot_self (by decide)
    · exact .inl (markSlot_direct h.sound hnode hlt hi (by omega))
  · rw [heq]
    by_cases hki : k = 176
    · right
      subst hki
      exact markSlot_self (by decide)
    · exact .inl (markSlot_other h.sound hnode hlt (by omega) (by omega))

theorem resized_setSize (h : FsInv m) (hf : IsFile m f) (hreg : ¬ IsDir m f) (hn : n ≤ maxfilesize) :
    Resized m (wr32 m (fSize f) n) f := by
  obtain ⟨hinv, honly⟩ := setSize_inv h hf hreg hn
  refine ⟨hinv, honly, fun a ha => ?_, fun i _ => .inl (direct_setSize i), .inl indirect_setSize⟩
  have := wr32_changes ha
  exact .inr (by unfold fSize at this; omega)

theorem wp_fileTruncateBlocks (h : FsInv m) (hf : IsFile m f) (hreg : ¬ IsDir m f)
    (hind : nblocksOf n ≤ ndirect ∨ indirect m f = 0) :
    wp (fileTruncateBlocks f n) (fun _ t => Resized m t f) (fun _ _ => False) m := by
  -- clearing the indirect block
  have hclear : ∀ {t}, Resized m t f → indirect t f ≠ 0 → Resized m (clearSlot t f 176) f := by
    intro t ht hv
    obtain ⟨hf', hreg'⟩ := ht.only.still hf hreg
    exact ht.trans (resized_clearSlot ht.inv hf' hreg' (.indirect hf') hv) hreg
  rw [fileTruncateBlocks, wp_bind,
    wp_of_ret (load32_eq ((hf.1.node h.owned).inDisk h.sound (k := 128) (by omega))), wp_bind]
  -- the loop; above the direct blocks the indirect block is gone
  have hstart : ndirect < nblocksOf n → indirect m f = 0 := fun hk =>
    hind.resolve_left (Nat.not_le.mpr hk)
  generalize nblocksOf (rd32 m (Jos.fSize f)) - nblocksOf n = rounds
  generalize nblocksOf n = first at hstart ⊢
  refine wp.mono (wp_forFrom (fun k t => Resized m t f ∧ (ndirect < k → indirect t f = 0))
    ⟨Resized.refl h f, hstart⟩ ?_) ?_ (fun _ _ hc => hc)
  · rintro k t _ _ ⟨hr, hz⟩
    obtain ⟨hf', hreg'⟩ := hr.only.still hf hreg
    have ht := hr.inv
    have hnode := hf'.1.node ht.owned
    rw [wp_bind]
    rcases Nat.lt_trichotomy k ndirect with hk | rfl | hk
    · have hlt : direct t f k ≠ 0 → direct t f k < nblocks t := fun hv =>
        (ht.owned.range (.direct f k) ⟨hf', hk⟩ hv).2
      rw [wp_of_ret (fileFreeBlock_direct ht.sound hnode hk hlt), wp_pure]
      split
      · exact ⟨hr, fun hc => by omega⟩
      · next hv =>
        have hv' : rd32 t (f + (136 + 4 * k)) ≠ 0 := by
          rwa [← Nat.add_assoc]
        have hclr := resized_clearSlot ht hf' hreg' (.direct hf' hk) hv'
        exact ⟨hr.trans hclr hreg, fun hc => by omega⟩
    · by_cases hv : indirect t f = 0
      · obtain ⟨r, hret⟩ := fileFreeBlock_none (i := ndirect) ht.sound hnode (Nat.le_refl _) hv
        rw [wp_of_ret hret, wp_pure]
        exact ⟨hr, fun _ => hv⟩
      · have hrange := ht.owned.range (.indirect f) ⟨hf', trivial⟩ hv
        rw [wp_of_ret (fileFreeBlock_ndirect ht.sound hnode hv hrange.2), wp_pure]
        exact ⟨hclear hr hv, fun _ => rd32_wr32 _ _ _⟩
    · obtain ⟨r, hret⟩ := fileFreeBlock_none ht.sound hnode (Nat.le_of_lt hk) (hz hk)
      rw [wp_of_ret hret, wp_pure]
      exact ⟨hr, fun _ => hz hk⟩
  · rintro _ t ⟨hrs, -⟩
    obtain ⟨hf', hreg'⟩ := hrs.only.still hf hreg
    have ht := hrs.inv
    have hin : InDisk t (f + 176) := (hf'.1.node ht.owned).inDisk ht.sound (by omega)
    rw [wp_bind_of_ret (load32_eq hin), wp_when]
    refine ⟨fun hc => ?_, fun _ => hrs⟩
    have hr := ht.owned.range (.indirect f) ⟨hf', trivial⟩ hc.2
    have hin' : InDisk (markFree t (rd32 t (f + 176))) (f + 176) := by
      unfold InDisk
      rw [nblocks_markFree]
      exact hin
    rw [wp_bind_of_ret (freeBlock_eq ht.sound hc.2 hr.2), wp_of_ret (store32_eq hin' 0)]
    exact hclear hrs hc.2

theorem InDisk.fSize (hf : Node m f) (hs : Sound m) : InDisk m (fSize f) := hf.inDisk hs (by omega)

theorem wp_fileSetSize (h : FsInv m) (hf : IsFile m f) (hreg : ¬ IsDir m f) (hn : n ≤ maxfilesize)
    (hind : n < fileSize m f → nblocksOf n ≤ ndirect ∨ indirect m f = 0) :
    wp (fileSetSize f n) (fun r m' => r = 0 ∧ Resized m m' f ∧ fileSize m' f = n)
      (fun _ _ => False) m := by
  have hmax : maxfilesize < 2 ^ 31 := by decide
  have hold : fileSize m f ≤ maxfilesize := h.size f hf
  -- the last store, after the blocks have been freed or not
  have hstore : ∀ {t}, Resized m t f → wp (do store32 (Jos.fSize f) n; pure (0 : ℤ))
      (fun r m' => r = 0 ∧ Resized m m' f ∧ fileSize m' f = n) (fun _ _ => False) t := by
    intro t ht
    obtain ⟨hf', hreg'⟩ := ht.only.still hf hreg
    have hin := InDisk.fSize (hf'.1.node ht.inv.owned) ht.inv.sound
    rw [wp_bind_of_ret (store32_eq hin n), wp_pure]
    refine ⟨rfl, ht.trans (resized_setSize ht.inv hf' hreg' hn) hreg, ?_⟩
    rw [fileSize, rd32_wr32, Nat.mod_eq_of_lt (by omega)]
  rw [fileSetSize, wp_bind_of_ret (load32_eq (InDisk.fSize (hf.1.node h.owned) h.sound)), wp_bind,
    wp_when]
  refine ⟨fun hc => ?_, fun _ => hstore (Resized.refl h f)⟩
  have hlt : n < fileSize m f := by
    have h1 := toInt32_of_lt (n := n) (by omega)
    have h2 := toInt32_of_lt (n := fileSize m f) (by omega)
    unfold fileSize at h2 ⊢
    omega
  refine (wp_fileTruncateBlocks h hf hreg (hind hlt)).imp ?_
  intro _ t ht
  exact hstore ht

theorem fileSetSize_grow (h : FsInv m) (hf : IsFile m f) (hn : n ≤ maxfilesize)
    (hle : fileSize m f ≤ n) : fileSetSize f n m = .ret 0 (wr32 m (Jos.fSize f) n) := by
  have hmax : maxfilesize < 2 ^ 31 := by decide
  have hin := InDisk.fSize (hf.1.node h.owned) h.sound
  have hno : ¬ toInt32 (rd32 m (Jos.fSize f)) > toInt32 n := by
    have h1 := toInt32_of_lt (n := n) (by omega)
    have h2 := toInt32_of_lt (n := fileSize m f) (by omega)
    unfold fileSize at h2 hle
    omega
  have hwhen : (when (toInt32 (rd32 m (Jos.fSize f)) > toInt32 n) (fileTruncateBlocks f n)) m =
      .ret () m := by
    rw [when, if_neg hno]
    rfl
  rw [fileSetSize, ret_bind (load32_eq hin), ret_bind hwhen, ret_bind (store32_eq hin n)]
  rfl

end Truncate

/-! ### Reading and writing -/

section ReadWrite

variable {m : Mem} {f n count offset : ℕ} {buf val : ℕ → UInt8}

/-- The file with room for `n` bytes. -/
def grown (m : Mem) (f n : ℕ) : Mem := if fileSize m f < n then wr32 m (Jos.fSize f) n else m

theorem grown_inv (h : FsInv m) (hf : IsFile m f) (hreg : ¬ IsDir m f) (hn : n ≤ maxfilesize) :
    FsInv (grown m f n) ∧ Only m (grown m f n) f := by
  unfold grown
  split
  · exact setSize_inv h hf hreg hn
  · exact ⟨h, Only.refl h f⟩

theorem grown_direct (i : ℕ) : direct (grown m f n) f i = direct m f i := by
  unfold grown
  split
  · exact direct_setSize i
  · rfl

theorem grown_enough {S : Finset ℕ} (h : FsInv m) (hf : IsFile m f) :
    Enough (grown m f n) f S ↔ Enough m f S := by
  refine Enough.congr (fun c => ?_) fun i _ => grown_direct i
  unfold grown
  split
  · exact isFree_wr32 h.sound rfl (hf.1.node h.owned) (by omega)
  · exact Iff.rfl

theorem maxfilesize_ge (h : n ≤ ndirect * blksize) : n ≤ maxfilesize ∧ n < 2 ^ 31 := by
  unfold maxfilesize ndirect nindirect blksize at *
  omega

theorem wp_fileWrite (h : FsInv m) (hf : IsFile m f) (hreg : ¬ IsDir m f)
    (hlast : offset + count ≤ ndirect * blksize) :
    wp (fileWrite f buf count offset) (fun r m' => ∃ hi, offset ≤ hi ∧ hi ≤ offset + count ∧
      Written (grown m f (offset + count)) m' f offset hi (fun p => buf (p - offset)) ∧
      (r = count ∧ hi = offset + count ∨
        r = -eNoDisk ∧ hi < offset + count ∧ direct m' f (hi / blksize) = 0 ∧
          (∀ c, ¬ IsFree m' c) ∧ ¬ Enough m f (blocksOf offset (offset + count))) ∧
      ∀ i < ndirect, i ∉ blocksOf offset hi → direct m' f i = direct m f i) (fun _ _ => False) m := by
  obtain ⟨hmax, hsmall⟩ := maxfilesize_ge hlast
  obtain ⟨hinv, honly⟩ := grown_inv h hf hreg hmax
  obtain ⟨hf', hreg'⟩ := honly.still hf hreg
  have hu : u32 ((offset : ℤ) + count) = offset + count := by
    unfold u32
    omega
  -- the size first
  have hgrow : (when (u32 ((offset : ℤ) + count) > rd32 m (Jos.fSize f)) (do
      let _ ← fileSetSize f (u32 ((offset : ℤ) + count))
      pure ()) : FsM Unit) m = .ret () (grown m f (offset + count)) := by
    rw [when, grown, hu]
    by_cases hc : fileSize m f < offset + count
    · have hc' : offset + count > rd32 m (Jos.fSize f) := hc
      rw [if_pos hc, if_pos hc', ret_bind (fileSetSize_grow h hf hmax (Nat.le_of_lt hc))]
      rfl
    · have hc' : ¬ offset + count > rd32 m (Jos.fSize f) := hc
      rw [if_neg hc, if_neg hc']
      rfl
  rw [fileWrite, wp_bind_of_ret (load32_eq (InDisk.fSize (hf.1.node h.owned) h.sound))]
  show wp _ _ _ _
  rw [wp_bind_of_ret hgrow, wp_bind, hu]
  refine (writeLoop_written (fun p => buf (p - offset)) hlast maxRounds offset 0 _ hinv hf'
    hreg' (Nat.le_add_right _ _) (fuel_maxRounds hsmall) fun p _ => by rw [Nat.zero_add]).imp ?_
  rintro r m' ⟨hi, hlo, hhi, hw, hr, hd⟩
  simp only [grown_direct] at hd
  rcases hr with ⟨rfl, hend⟩ | ⟨rfl, hlt, hz, hnone, hno⟩
  · rw [wp_pure]
    exact ⟨hi, hlo, hhi, hw, .inl ⟨toInt32_of_lt (by omega), hend⟩, hd⟩
  · rw [wp_pure]
    exact ⟨hi, hlo, hhi, hw, .inr ⟨rfl, hlt, hz, hnone, fun he => hno ((grown_enough h hf).mpr he)⟩, hd⟩

/-- Where `file_read` stops. -/
def readEnd (m : Mem) (f count offset : ℕ) : ℕ := offset + min count (fileSize m f - offset)

theorem fileRead_loop (count : ℕ) (h : FsInv m) (hf : IsFile m f) (hoff : offset < 2 ^ 31) :
    fileRead f count offset m = (if fileSize m f ≤ offset then pure (.ok [])
      else readLoop f (readEnd m f count offset) maxRounds offset) m := by
  have hmax : maxfilesize < 2 ^ 31 := by decide
  have hsize := h.size f hf
  have h1 := toInt32_of_lt hoff
  have h2 : toInt32 (rd32 m (Jos.fSize f)) = fileSize m f :=
    toInt32_of_lt (n := fileSize m f) (by omega)
  rw [fileRead, ret_bind (load32_eq (InDisk.fSize (hf.1.node h.owned) h.sound)), h1, h2]
  by_cases hc : fileSize m f ≤ offset
  · rw [if_pos (by omega), if_pos hc]
  · have hu : u32 ((fileSize m f : ℤ) - offset) = fileSize m f - offset := by
      unfold u32
      omega
    have hl : u32 ((offset : ℤ) + (min count (fileSize m f - offset) : ℕ)) =
        readEnd m f count offset := by
      unfold u32 readEnd
      omega
    rw [if_neg (by omega), if_neg hc]
    show readLoop f (u32 ((offset : ℤ) + (min count (u32 ((fileSize m f : ℤ) - offset)) : ℕ)))
      maxRounds offset m = _
    rw [hu, hl]

theorem fileBytes_nil (h : fileSize m f ≤ offset) :
    fileBytes m f offset (readEnd m f count offset) = [] := by
  have hz : readEnd m f count offset - offset = 0 := by
    unfold readEnd
    omega
  rw [fileBytes, hz]
  rfl

theorem fileRead_full (h : FsInv m) (hf : IsFile m f) (hoff : offset < 2 ^ 31)
    (hend : offset < fileSize m f → readEnd m f count offset ≤ ndirect * blksize)
    (hall : ∀ p, offset ≤ p → p < readEnd m f count offset → direct m f (p / blksize) ≠ 0) :
    fileRead f count offset m =
      .ret (.ok (fileBytes m f offset (readEnd m f count offset))) m := by
  rw [fileRead_loop count h hf hoff]
  by_cases hc : fileSize m f ≤ offset
  · rw [if_pos hc, fileBytes_nil hc]
    rfl
  · have hlast := hend (by omega)
    rw [if_neg hc]
    refine readLoop_eq h.sound (hf.1.node h.owned) hlast _ _ (Nat.le_add_right _ _)
      (fuel_maxRounds (maxfilesize_ge hlast).2) fun p hlo hhi => ?_
    have hv := hall p hlo hhi
    have hlt : p / blksize < ndirect := pos_div_lt (by omega)
    exact ⟨hv, (h.owned.range (.direct f (p / blksize)) ⟨hf, hlt⟩ hv).2⟩

theorem wp_fileRead (val : ℕ → UInt8) (h : FsInv m) (hf : IsFile m f) (hreg : ¬ IsDir m f)
    (hoff : offset < 2 ^ 31)
    (hend : offset < fileSize m f → readEnd m f count offset ≤ ndirect * blksize) :
    wp (fileRead f count offset) (fun r m' => Written m m' f 0 0 val ∧
      (∀ i < ndirect, i ∉ blocksOf offset (offset + count) → direct m' f i = direct m f i) ∧
      (∀ data, r = .ok data → data = fileBytes m' f offset (readEnd m f count offset) ∧
        ∀ p, offset ≤ p → p < readEnd m f count offset → direct m' f (p / blksize) ≠ 0) ∧
      ∀ e, r = .error e → e = -eNoDisk) (fun _ _ => False) m := by
  have heq := fileRead_loop count h hf hoff
  by_cases hc : fileSize m f ≤ offset
  · rw [if_pos hc] at heq
    rw [wp_of_ret heq]
    refine ⟨Written.refl h f 0 val, fun _ _ _ => rfl, ?_, fun e hc => by cases hc⟩
    rintro data ⟨⟩
    refine ⟨(fileBytes_nil hc).symm, fun p hlo hhi => ?_⟩
    unfold readEnd at hhi
    omega
  · rw [if_neg hc] at heq
    have hlast := hend (by omega)
    have hloop := readLoop_written val hlast maxRounds offset m h hf hreg
      (Nat.le_add_right _ _) (fuel_maxRounds (maxfilesize_ge hlast).2)
    rw [wp_congr_at heq]
    refine hloop.imp fun r m' ⟨hw, hd, hdata⟩ => ⟨hw, fun i hi hno => hd i hi fun hc => hno ?_, hdata⟩
    exact blocksOf_mono (by unfold readEnd; omega) hc

end ReadWrite

end Fs

end Jos
