/-
The stores of an operation on one file.

Such an operation changes the bitmap, the size and the slots of the file, and
the contents of blocks that no other file has (`Confined`); so it leaves the
other files alone (`Confined.only`).
-/
import Jos.Fs.Tree

namespace Jos

open Bytes

namespace Fs

/-! ### What other files do not see -/

def InBitmap (m : Mem) (a : ℕ) : Prop := bitmapStart ≤ a ∧ a < firstBlock m * blksize

/-- The offset is in the size, the slots or the padding of file `f`. -/
def InNode (f a : ℕ) : Prop := (f + 128 ≤ a ∧ a < f + 132) ∨ (f + 136 ≤ a ∧ a < f + 256)

/-- No file but `f` has block `b`. -/
def OwnBlock (m : Mem) (f b : ℕ) : Prop :=
  InRange m b ∧ ∀ s : Slot, s.Valid m → s.val m = b → s.file = f

structure Confined (m m' : Mem) (f : ℕ) : Prop where
  changes : ∀ a, m' a ≠ m a → InBitmap m a ∨ InNode f a ∨ OwnBlock m f (a / blksize)
  used : ∀ s : Slot, s.Valid m → s.file ≠ f → s.val m ≠ 0 → ¬ IsFree m' (s.val m)
  reserved : ∀ b < firstBlock m, ¬ IsFree m' b

section Confined

variable {m m' m'' : Mem} {f g a b k : ℕ} {s : Slot}

theorem FsInv.node_block (h : FsInv m) (hg : Entry m g) (hs : s.Valid m) (hp : s.Plain m)
    (hv : s.val m ≠ 0) : g / blksize ≠ s.val m := by
  intro hb
  rcases hg.block with rfl | ⟨d, i, j, hd, hdir, hi, hdv, hj, rfl⟩
  · have hr := (h.owned.range s hs hv).1
    have h3 := h.sound.first_gt
    have h1 : sRoot / blksize = 1 := rfl
    omega
  · have hdiv := dirEntry_div (direct m d i) hj (k := 0) (by omega)
    rw [Nat.add_zero] at hdiv
    have heq := h.owned.single s (.direct d i) hs ⟨hd, hi⟩ hv (hb.symm.trans hdiv)
    subst heq
    exact hp hdir

theorem FsInv.not_ownBlock (h : FsInv m) (hreg : ¬ IsDir m f) (hg : Entry m g) :
    ¬ OwnBlock m f (g / blksize) := by
  rintro ⟨hr, hown⟩
  rcases hg.block with rfl | ⟨d, i, j, hd, hdir, hi, hdv, hj, rfl⟩
  · have h3 := h.sound.first_gt
    have h1 : sRoot / blksize = 1 := rfl
    have := hr.1
    omega
  · have hdiv := dirEntry_div (direct m d i) hj (k := 0) (by omega)
    rw [Nat.add_zero] at hdiv
    have hdf : d = f := hown (.direct d i) ⟨hd, hi⟩ hdiv.symm
    exact hreg (hdf ▸ hdir)

theorem Confined.eq (h : Confined m m' f) (hb : ¬ InBitmap m a) (hn : ¬ InNode f a)
    (ho : ¬ OwnBlock m f (a / blksize)) : m' a = m a := by
  by_contra hne
  rcases h.changes a hne with hc | hc | hc
  · exact hb hc
  · exact hn hc
  · exact ho hc

theorem Node.not_inBitmap (hf : Node m f) (hs : Sound m) (hk : k < 256) : ¬ InBitmap m (f + k) := by
  obtain ⟨-, -, -, hb⟩ := hf.bounds hs
  rintro ⟨hlo, hhi⟩
  omega

theorem Confined.only (hc : Confined m m' f) (h : FsInv m) (hf : IsFile m f)
    (hreg : ¬ IsDir m f) : Only m m' f := by
  have hnode := hf.1.node h.owned
  have hmem : ∀ {g k}, Entry m g → k < 256 → ¬ InNode f (g + k) → m' (g + k) = m (g + k) := by
    intro g k hg hk hno
    have hgn := hg.node h.owned
    refine hc.eq (hgn.not_inBitmap h.sound hk) hno ?_
    rw [(hgn.bounds h.sound).2.1 k hk]
    exact h.not_ownBlock hreg hg
  refine ⟨?_, fun g hg hgf k hk => ?_, fun s hs hsf hp hv o ho => ?_, hc.used, hc.reserved,
    fun k hk => ?_, ?_⟩
  · -- the number of blocks is in front of the root, in a block of no file
    refine rd32_congr fun a hlo hhi => hc.eq (fun hb => ?_) (fun hn => ?_) fun ho => ?_
    · have := hb.1
      unfold bitmapStart sNblocks blksize at *
      omega
    · have := (hnode.bounds h.sound).1
      unfold InNode at hn
      unfold sRoot sNblocks blksize at *
      omega
    · have h3 := h.sound.first_gt
      have := ho.1.1
      unfold sNblocks blksize at *
      omega
  · refine hmem hg hk fun hn => ?_
    have := hnode.apart (hg.node h.owned) h.sound (Ne.symm hgf)
    unfold InNode at hn
    omega
  · have hr := h.owned.range s hs hv
    have hdiv : (s.val m * blksize + o) / blksize = s.val m := by
      unfold blksize at *
      omega
    refine hc.eq (fun hb => ?_) (fun hn => ?_) fun hown => ?_
    · have := hb.2
      have := Nat.mul_le_mul_right blksize hr.1
      omega
    · have hk : s.val m * blksize + o - f < 256 ∧ f ≤ s.val m * blksize + o := by
        unfold InNode at hn
        omega
      have hfb := (hnode.bounds h.sound).2.1 _ hk.1
      rw [Nat.add_sub_cancel' hk.2, hdiv] at hfb
      exact h.node_block hf.1 hs hp hv hfb.symm
    · rw [hdiv] at hown
      exact hsf (hown.2 s hs rfl)
  · unfold maxnamelen at hk
    refine hmem hf.1 (by omega) fun hn => ?_
    unfold InNode at hn
    omega
  · refine rd32_congr fun a hlo hhi => ?_
    have := hmem (k := a - f) hf.1 (by unfold fType at *; omega) fun hn => by
      unfold InNode at hn
      unfold fType at *
      omega
    rwa [Nat.add_sub_cancel' (by unfold fType at hlo; omega)] at this

theorem Only.plain (h : Only m m' f) (hs : s.Valid m) : s.Plain m' ↔ s.Plain m := by
  cases s with
  | direct g i => exact not_congr (h.isDir hs.1.1)
  | _ => exact Iff.rfl

theorem Only.trans (h : Only m m' f) (h' : Only m' m'' f) (hreg : ¬ IsDir m f) : Only m m'' f := by
  refine ⟨h'.nblocks.trans h.nblocks, fun g hg hgf k hk => ?_, fun s hs hsf hp hv o ho => ?_,
    fun s hs hsf hv => ?_, fun b hb => h'.reserved b (h.firstBlock ▸ hb),
    fun k hk => (h'.name k hk).trans (h.name k hk), h'.type.trans h.type⟩
  · exact (h'.node g ((h.entry hreg g).mpr hg) hgf k hk).trans (h.node g hg hgf k hk)
  · have hval := h.val hs hsf
    have hb' := h'.block s ((h.valid hreg hsf).mpr hs) hsf ((h.plain hs).mpr hp) (hval ▸ hv)
    rw [hval] at hb'
    exact (hb' o ho).trans (h.block s hs hsf hp hv o ho)
  · have hval := h.val hs hsf
    have hu := h'.used s ((h.valid hreg hsf).mpr hs) hsf (hval ▸ hv)
    rwa [hval] at hu

theorem Only.refl (h : FsInv m) (f : ℕ) : Only m m f :=
  ⟨rfl, fun _ _ _ _ _ => rfl, fun _ _ _ _ _ _ _ => rfl, fun s hs _ hv => h.owned.used s hs hv,
    h.sound.reserved, fun _ _ => rfl, rfl⟩

end Confined

/-! ### Stores to the bitmap and to an entry -/

section Stores

variable {m m' : Mem} {f g a b c v w k : ℕ}

theorem bitmap_changes (hs : Sound m) (hb : b < nblocks m)
    (ha : wr32 m (bitmapWord b) w a ≠ m a) : InBitmap m a := by
  have hlt := hs.bitmapWord_lt hb
  by_contra hno
  refine ha (if_neg fun hin => hno ⟨?_, ?_⟩)
  · unfold bitmapWord at hin
    omega
  · omega

theorem bitmap_nodeEq (hs : Sound m) (hb : b < nblocks m) (hf : Node m f) :
    NodeEq m (wr32 m (bitmapWord b) w) f := by
  intro k hk
  by_contra hne
  exact hf.not_inBitmap hs hk (bitmap_changes hs hb hne)

theorem bitmap_blockEq (hs : Sound m) (hb : b < nblocks m) (hc : InRange m c) :
    BlockEq m (wr32 m (bitmapWord b) w) c := by
  intro o ho
  by_contra hne
  have := (bitmap_changes hs hb hne).2
  have := Nat.mul_le_mul_right blksize hc.1
  omega

theorem wr32_changes (ha : wr32 m b v a ≠ m a) : b ≤ a ∧ a < b + 4 := by
  by_contra hno
  exact ha (if_neg hno)

theorem isFree_wr32 (hs : Sound m) (hn : nblocks m' = nblocks m) (hf : Node m f) (hk : k + 4 ≤ 256) :
    IsFree (wr32 m' (f + k) v) c ↔ IsFree m' c := by
  obtain ⟨hroot, -, -, hbit⟩ := hf.bounds hs
  have hn' : nblocks (wr32 m' (f + k) v) = nblocks m' := by
    refine nblocks_wr32 ?_
    unfold sRoot sNblocks at *
    omega
  unfold IsFree
  rw [hn']
  refine and_congr_right fun hc => ?_
  have hlt := hs.bitmapWord_lt (hn ▸ hc)
  rw [rd32_wr32_of_disjoint]
  unfold bitmapWord at *
  omega

theorem wr32_blockEq (hs : Sound m) (hf : Node m f) (hk : k + 4 ≤ 256) (hc : f / blksize ≠ c) :
    BlockEq m (wr32 m (f + k) v) c := by
  intro o ho
  by_contra hne
  have hin := wr32_changes hne
  have hdiv := (hf.bounds hs).2.1 (c * blksize + o - f) (by omega)
  rw [Nat.add_sub_cancel' (by omega)] at hdiv
  refine hc (hdiv.symm.trans ?_)
  unfold blksize at *
  omega

end Stores

/-! ### The slots of the file -/

section Slots

variable {m m' : Mem} {f : ℕ}

theorem SlotsFrom.of_fields (i₀ : ℕ) (h : Owned m) (hf : IsFile m f)
    (hdirect : ∀ i < ndirect, direct m' f i ≠ 0 → direct m f i = direct m' f i ∨
      (i = i₀ ∧ InRange m (direct m' f i) ∧ Unowned m (direct m' f i) ∧ ¬ IsFree m' (direct m' f i)))
    (hind : indirect m' f ≠ 0 →
      indirect m f = indirect m' f ∧ BlockEq m m' (indirect m f))
    (hfree : ∀ c, IsFree m' c → IsFree m c ∨
      ∃ s : Slot, s.Valid m ∧ s.val m = c ∧ s.val m' = 0) :
    SlotsFrom m m' f (.direct f i₀) := by
  have hold : ∀ s : Slot, s.file = f → s.Inner m → s.val m = s.val m' → s.val m' ≠ 0 →
      ¬ IsFree m' (s.val m') := by
    intro s hsf hin hval hv hc
    have hs : s.Valid m := ⟨hsf ▸ hf, hin⟩
    rcases hfree _ hc with hc' | ⟨t, ht, hvt, hzero⟩
    · rw [← hval] at hv hc'
      exact h.used s hs hv hc'
    · -- the block that was freed was in one slot only, which is empty now
      have heq := h.single s t hs ht (hval ▸ hv) (hval.trans hvt.symm)
      exact hv (heq ▸ hzero)
  have hentry : ∀ k, (Slot.entry f k).Inner m' → (Slot.entry f k).Inner m ∧
      (Slot.entry f k).val m = (Slot.entry f k).val m' := by
    rintro k ⟨hk, hi⟩
    obtain ⟨heq, hblock⟩ := hind hi
    refine ⟨⟨hk, heq ▸ hi⟩, ?_⟩
    show blockWord m (indirect m f) k = blockWord m' (indirect m' f) k
    rw [← heq]
    exact (hblock.word hk).symm
  constructor
  · intro s hsf hin hv
    cases s with
    | direct g i =>
      obtain rfl : g = f := hsf
      rcases hdirect i hin hv with heq | ⟨-, -, -, hu⟩
      · exact hold (.direct g i) rfl hin heq hv
      · exact hu
    | indirect g =>
      obtain rfl : g = f := hsf
      exact hold (.indirect g) rfl trivial (hind hv).1 hv
    | entry g k =>
      obtain rfl : g = f := hsf
      exact hold (.entry g k) rfl (hentry k hin).1 (hentry k hin).2 hv
  · intro s hsf hin hv
    cases s with
    | direct g i =>
      obtain rfl : g = f := hsf
      rcases hdirect i hin hv with heq | ⟨rfl, hr, hun, -⟩
      · exact .inl ⟨hin, heq⟩
      · exact .inr ⟨rfl, hr, hun⟩
    | indirect g =>
      obtain rfl : g = f := hsf
      exact .inl ⟨trivial, (hind hv).1⟩
    | entry g k =>
      obtain rfl : g = f := hsf
      exact .inl (hentry k hin)

end Slots

/-! ### The stores of the source -/

section Inv

variable {m m' : Mem} {f i b c v w j k n o : ℕ} {buf : ℕ → UInt8}

/-- A store to the bitmap, then one to the slot at offset `k` of the file. -/
def markSlot (m : Mem) (f k b w v : ℕ) : Mem := wr32 (wr32 m (bitmapWord b) w) (f + k) v

theorem markSlot_changes (hs : Sound m) (hb : b < nblocks m) (hk : 136 ≤ k) (hk' : k + 4 ≤ 256)
    (a : ℕ) (ha : markSlot m f k b w v a ≠ m a) :
    InBitmap m a ∨ InNode f a ∨ OwnBlock m f (a / blksize) := by
  by_cases hin : f + k ≤ a ∧ a < f + k + 4
  · exact .inr (.inl (.inr (by omega)))
  · refine .inl (bitmap_changes (w := w) hs hb fun heq => ha ?_)
    exact (if_neg hin).trans heq

theorem markSlot_isFree (hs : Sound m) (hf : Node m f) (hk : k + 4 ≤ 256) :
    IsFree (markSlot m f k b w v) c ↔ IsFree (wr32 m (bitmapWord b) w) c := by
  refine isFree_wr32 hs (nblocks_wr32 ?_) hf hk
  unfold bitmapWord bitmapStart sNblocks blksize
  omega

theorem markSlot_self (hv : v < 2 ^ 32) : rd32 (markSlot m f k b w v) (f + k) = v := by
  rw [markSlot, rd32_wr32, Nat.mod_eq_of_lt hv]

theorem markSlot_other (hs : Sound m) (hf : Node m f) (hb : b < nblocks m) (hj : j + 4 ≤ 256)
    (hjk : j + 4 ≤ k ∨ k + 4 ≤ j) : rd32 (markSlot m f k b w v) (f + j) = rd32 m (f + j) := by
  rw [markSlot, rd32_wr32_of_disjoint _ _ (by omega)]
  exact (bitmap_nodeEq hs hb hf).rd32 hj

theorem markSlot_blockEq (hs : Sound m) (hf : Node m f) (hb : b < nblocks m) (hk : k + 4 ≤ 256)
    (hc : InRange m c) (hfc : f / blksize ≠ c) : BlockEq m (markSlot m f k b w v) c := by
  intro o ho
  have hin : ¬ (f + k ≤ c * blksize + o ∧ c * blksize + o < f + k + 4) := by
    intro hin
    have hdiv := (hf.bounds hs).2.1 (c * blksize + o - f) (by omega)
    rw [Nat.add_sub_cancel' (by omega)] at hdiv
    refine hfc (hdiv.symm.trans ?_)
    unfold blksize at *
    omega
  exact (if_neg hin).trans (bitmap_blockEq hs hb hc o ho)

theorem FsInv.free_unowned (h : FsInv m) (hb : IsFree m b) : InRange m b ∧ Unowned m b := by
  have hlo : firstBlock m ≤ b := by
    by_contra hlt
    exact h.sound.reserved b (Nat.not_le.mp hlt) hb
  have hpos := firstBlock_ge m
  refine ⟨⟨hlo, hb.1⟩, fun s hs hv => ?_⟩
  exact h.owned.used s hs (by omega) (hv ▸ hb)

theorem markSlot_direct (hs : Sound m) (hf : Node m f) (hb : b < nblocks m) (hj : j < ndirect)
    (hk : k + 4 ≤ 136 + 4 * j ∨ 136 + 4 * j + 4 ≤ k) :
    direct (markSlot m f k b w v) f j = direct m f j := by
  have := markSlot_other (w := w) (v := v) hs hf hb (j := 136 + 4 * j)
    (by unfold ndirect at hj; omega) hk.symm
  rwa [← Nat.add_assoc] at this

def allocSlot (m : Mem) (f i b : ℕ) : Mem := wr32 (markUsed m b) (fDirect f i) b

theorem allocSlot_eq (m : Mem) (f i b : ℕ) : ∃ w, markUsed m b = wr32 m (bitmapWord b) w ∧
    allocSlot m f i b = markSlot m f (136 + 4 * i) b w b :=
  ⟨_, rfl, by rw [allocSlot, fDirect, Nat.add_assoc]; rfl⟩

theorem Sound.lt_word (h : Sound m) (hb : b < nblocks m) : b < 2 ^ 32 := by
  have := h.nblocks_le
  have hd : disksize / blksize < 2 ^ 32 := by decide
  omega

section AllocSlot

variable (hs : Sound m) (hf : Node m f) (hi : i < ndirect)

include hs hf hi

theorem allocSlot_isFree : IsFree (allocSlot m f i b) c ↔ IsFree m c ∧ c ≠ b := by
  obtain ⟨w, hmark, heq⟩ := allocSlot_eq m f i b
  rw [heq, markSlot_isFree hs hf (by unfold ndirect at hi; omega), ← hmark]
  exact isFree_markUsed m b c

variable (hb : b < nblocks m)

include hb

omit hi in
theorem allocSlot_direct (hj : j < ndirect) :
    direct (allocSlot m f i b) f j = if j = i then b else direct m f j := by
  obtain ⟨w, -, heq⟩ := allocSlot_eq m f i b
  rw [heq]
  split
  next hji =>
    rw [hji, direct, fDirect, Nat.add_assoc]
    exact markSlot_self (hs.lt_word hb)
  next hji => exact markSlot_direct hs hf hb hj (by omega)

theorem allocSlot_indirect : indirect (allocSlot m f i b) f = indirect m f := by
  obtain ⟨w, -, heq⟩ := allocSlot_eq m f i b
  rw [heq]
  exact markSlot_other hs hf hb (by omega) (by unfold ndirect at hi; omega)

omit hi in
theorem allocSlot_size : fileSize (allocSlot m f i b) f = fileSize m f := by
  obtain ⟨w, -, heq⟩ := allocSlot_eq m f i b
  rw [heq]
  exact markSlot_other hs hf hb (by omega) (by omega)

theorem allocSlot_blockEq (hc : InRange m c) (hfc : f / blksize ≠ c) :
    BlockEq m (allocSlot m f i b) c := by
  obtain ⟨w, -, heq⟩ := allocSlot_eq m f i b
  rw [heq]
  exact markSlot_blockEq hs hf hb (by unfold ndirect at hi; omega) hc hfc

end AllocSlot

theorem allocSlot_inv (h : FsInv m) (hf : IsFile m f) (hreg : ¬ IsDir m f) (hi : i < ndirect)
    (hb : IsFree m b) : FsInv (allocSlot m f i b) ∧ Only m (allocSlot m f i b) f := by
  have hnode := hf.1.node h.owned
  have hfree : ∀ c, IsFree (allocSlot m f i b) c ↔ IsFree m c ∧ c ≠ b := fun c =>
    allocSlot_isFree h.sound hnode hi
  obtain ⟨hr, hun⟩ := h.free_unowned hb
  have hconf : Confined m (allocSlot m f i b) f := by
    refine ⟨?_, fun s hs _ hv hc => ?_, fun c hc hc' => ?_⟩
    · obtain ⟨w, -, heq⟩ := allocSlot_eq m f i b
      rw [heq]
      exact markSlot_changes h.sound hb.1 (by omega) (by unfold ndirect at hi; omega)
    · exact h.owned.used s hs hv ((hfree _).mp hc).1
    · exact h.sound.reserved c hc ((hfree c).mp hc').1
  have honly := hconf.only h hf hreg
  refine ⟨h.only honly hf hreg ?_ (SlotsFrom.of_fields i h.owned hf ?_ ?_ ?_), honly⟩
  · rw [allocSlot_size h.sound hnode hb.1]
    exact h.size f hf
  · intro j hj _
    rw [allocSlot_direct h.sound hnode hb.1 hj]
    split
    next hji => exact .inr ⟨hji, hr, hun, fun hc => ((hfree b).mp hc).2 rfl⟩
    next => exact .inl rfl
  · intro hind
    rw [allocSlot_indirect h.sound hnode hi hb.1] at hind ⊢
    have hrange := h.owned.range (.indirect f) ⟨hf, trivial⟩ hind
    exact ⟨rfl, allocSlot_blockEq h.sound hnode hi hb.1 hrange
      (h.node_block (s := .indirect f) hf.1 ⟨hf, trivial⟩ trivial hind)⟩
  · intro c hc
    exact .inl ((hfree c).mp hc).1

/-- The block of the slot at offset `k` taken out and freed. -/
def clearSlot (m : Mem) (f k : ℕ) : Mem := wr32 (markFree m (rd32 m (f + k))) (f + k) 0

/-- The slot `s` is one of the file `f`, and its number the word at offset `k`. -/
structure SlotAt (m : Mem) (f k : ℕ) (s : Slot) : Prop where
  valid : s.Valid m
  file : s.file = f
  val : ∀ m', s.val m' = rd32 m' (f + k)
  form : ∃ j ≤ 10, k = 136 + 4 * j

theorem SlotAt.direct (hf : IsFile m f) (hi : i < ndirect) :
    SlotAt m f (136 + 4 * i) (.direct f i) where
  valid := ⟨hf, hi⟩
  file := rfl
  val _ := by rw [← Nat.add_assoc]; rfl
  form := ⟨i, Nat.le_of_lt hi, rfl⟩

theorem SlotAt.indirect (hf : IsFile m f) : SlotAt m f 176 (.indirect f) :=
  ⟨⟨hf, trivial⟩, rfl, fun _ => rfl, 10, Nat.le_refl _, rfl⟩

theorem SlotAt.inRange {s : Slot} (hs : SlotAt m f k s) (h : FsInv m) (hv : rd32 m (f + k) ≠ 0) :
    InRange m (rd32 m (f + k)) := by
  rw [← hs.val] at hv ⊢
  exact h.owned.range s hs.valid hv

theorem clearSlot_inv {s : Slot} (h : FsInv m) (hf : IsFile m f) (hreg : ¬ IsDir m f)
    (hs : SlotAt m f k s) (hv : rd32 m (f + k) ≠ 0) : FsInv (clearSlot m f k) ∧ Only m (clearSlot m f k) f := by
  have hnode := hf.1.node h.owned
  have hrange := hs.inRange h hv
  obtain ⟨hsv, hsf, hval, l, hl, hkl⟩ := hs
  have hk : 136 ≤ k ∧ k + 4 ≤ 256 := by omega
  obtain ⟨b, hb⟩ : ∃ b, b = rd32 m (f + k) := ⟨_, rfl⟩
  rw [← hb] at hrange
  obtain ⟨w, hmark⟩ : ∃ w, markFree m b = wr32 m (bitmapWord b) w := ⟨_, rfl⟩
  have heq : clearSlot m f k = markSlot m f k b w 0 := by
    rw [clearSlot, ← hb, hmark]
    rfl
  have hfree : ∀ c, IsFree (clearSlot m f k) c ↔ IsFree m c ∨ c = b := by
    intro c
    rw [heq, markSlot_isFree h.sound hnode hk.2, ← hmark]
    exact isFree_markFree m hrange.2 c
  have hzero : s.val (clearSlot m f k) = 0 := by
    rw [hval, heq]
    exact markSlot_self (by decide)
  have hconf : Confined m (clearSlot m f k) f := by
    refine ⟨?_, fun t ht htf htv hc => ?_, fun c hc hc' => ?_⟩
    · rw [heq]
      exact markSlot_changes h.sound hrange.2 hk.1 hk.2
    · rcases (hfree _).mp hc with hc | hc
      · exact h.owned.used t ht htv hc
      · refine htf ?_
        rw [h.owned.single t s ht hsv htv (hc.trans (hb.trans (hval m).symm)), hsf]
    · rcases (hfree c).mp hc' with hc' | hc'
      · exact h.sound.reserved c hc hc'
      · have := hrange.1
        omega
  have honly := hconf.only h hf hreg
  refine ⟨h.only honly hf hreg ?_ (SlotsFrom.of_fields 0 h.owned hf ?_ ?_ ?_), honly⟩
  · have hsize : fileSize (clearSlot m f k) f = fileSize m f := by
      rw [heq]
      exact markSlot_other h.sound hnode hrange.2 (by omega) (by omega)
    rw [hsize]
    exact h.size f hf
  · intro j hj hjv
    by_cases hjk : k = 136 + 4 * j
    · refine absurd ?_ hjv
      rw [direct, fDirect, Nat.add_assoc, ← hjk, ← hval]
      exact hzero
    · left
      rw [heq]
      exact (markSlot_direct h.sound hnode hrange.2 hj (by omega)).symm
  · intro hind
    have hk176 : k ≠ 176 := by
      rintro rfl
      rw [hval] at hzero
      exact hind hzero
    have hsame : indirect (clearSlot m f k) f = indirect m f := by
      rw [heq]
      exact markSlot_other h.sound hnode hrange.2 (by omega) (by omega)
    rw [hsame] at hind ⊢
    refine ⟨rfl, ?_⟩
    rw [heq]
    exact markSlot_blockEq h.sound hnode hrange.2 hk.2
      (h.owned.range (.indirect f) ⟨hf, trivial⟩ hind)
      (h.node_block (s := .indirect f) hf.1 ⟨hf, trivial⟩ trivial hind)
  · intro c hc
    rcases (hfree c).mp hc with hc | hc
    · exact .inl hc
    · exact .inr ⟨s, hsv, by rw [hval, hc, hb], hzero⟩

theorem direct_setSize (i : ℕ) : direct (wr32 m (fSize f) n) f i = direct m f i :=
  rd32_wr32_of_disjoint m n (by unfold fSize fDirect; omega)

theorem indirect_setSize : indirect (wr32 m (fSize f) n) f = indirect m f :=
  rd32_wr32_of_disjoint m n (by unfold fSize fIndirect; omega)

theorem setSize_inv (h : FsInv m) (hf : IsFile m f) (hreg : ¬ IsDir m f) (hn : n ≤ maxfilesize) :
    FsInv (wr32 m (fSize f) n) ∧ Only m (wr32 m (fSize f) n) f := by
  have hnode := hf.1.node h.owned
  have hfree : ∀ c, IsFree (wr32 m (fSize f) n) c ↔ IsFree m c := fun c =>
    isFree_wr32 h.sound rfl hnode (by omega)
  have hconf : Confined m (wr32 m (fSize f) n) f := by
    refine ⟨fun a ha => .inr (.inl (.inl (wr32_changes ha))), fun s hs _ hv hc => ?_,
      fun c hc hc' => ?_⟩
    · exact h.owned.used s hs hv ((hfree _).mp hc)
    · exact h.sound.reserved c hc ((hfree c).mp hc')
  have honly := hconf.only h hf hreg
  refine ⟨h.only honly hf hreg ?_ (SlotsFrom.of_fields 0 h.owned hf ?_ ?_ ?_), honly⟩
  · rw [fileSize, rd32_wr32]
    exact Nat.le_trans (Nat.mod_le _ _) hn
  · exact fun j _ _ => .inl (direct_setSize j).symm
  · intro hind
    rw [indirect_setSize] at hind ⊢
    exact ⟨rfl, wr32_blockEq h.sound hnode (by omega)
      (h.node_block (s := .indirect f) hf.1 ⟨hf, trivial⟩ trivial hind)⟩
  · intro c hc
    exact .inl ((hfree c).mp hc)

theorem fill_changes (ho : o + n ≤ blksize) (a : ℕ) (ha : fill m (b * blksize + o) n buf a ≠ m a) :
    a / blksize = b := by
  have hin : b * blksize + o ≤ a ∧ a < b * blksize + o + n := by
    by_contra hno
    exact ha (if_neg hno)
  unfold blksize at *
  omega

theorem fill_nblocks (hb : InRange m b) (ho : o + n ≤ blksize) :
    nblocks (fill m (b * blksize + o) n buf) = nblocks m := by
  refine rd32_congr fun a hlo hhi => ?_
  by_contra hne
  have hdiv := fill_changes ho a hne
  have := hb.1
  have := firstBlock_ge m
  unfold sNblocks blksize at *
  omega

theorem fill_isFree (buf : ℕ → UInt8) (c : ℕ) (hs : Sound m) (hb : InRange m b) (ho : o + n ≤ blksize) :
    IsFree (fill m (b * blksize + o) n buf) c ↔ IsFree m c := by
  unfold IsFree
  rw [fill_nblocks hb ho]
  refine and_congr_right fun hc => ?_
  have hw : rd32 (fill m (b * blksize + o) n buf) (bitmapWord c) = rd32 m (bitmapWord c) := by
    refine rd32_congr fun a hlo hhi => ?_
    by_contra hne
    have hdiv := fill_changes ho a hne
    have hlt := hs.bitmapWord_lt hc
    have hge := hb.1
    unfold blksize at *
    omega
  rw [hw]

theorem fill_blockEq (ho : o + n ≤ blksize) (hc : c ≠ b) :
    BlockEq m (fill m (b * blksize + o) n buf) c := by
  intro k hk
  by_contra hne
  have hdiv := fill_changes ho _ hne
  refine hc ?_
  unfold blksize at *
  omega

theorem fill_nodeEq (hs : Sound m) (hf : Node m f) (ho : o + n ≤ blksize) (hfb : f / blksize ≠ b) :
    NodeEq m (fill m (b * blksize + o) n buf) f := by
  intro k hk
  by_contra hne
  have hdiv := fill_changes ho _ hne
  rw [(hf.bounds hs).2.1 k hk] at hdiv
  exact hfb hdiv

theorem fillBlock_inv (buf : ℕ → UInt8) (h : FsInv m) (hf : IsFile m f) (hreg : ¬ IsDir m f) (hi : i < ndirect)
    (hv : direct m f i ≠ 0) (ho : o + n ≤ blksize) :
    FsInv (fill m (direct m f i * blksize + o) n buf) ∧
      Only m (fill m (direct m f i * blksize + o) n buf) f := by
  have hnode := hf.1.node h.owned
  have hrange : InRange m (direct m f i) := h.owned.range (.direct f i) ⟨hf, hi⟩ hv
  have hfree := fun c => fill_isFree buf c h.sound hrange ho
  have hconf : Confined m (fill m (direct m f i * blksize + o) n buf) f := by
    refine ⟨fun a ha => .inr (.inr ?_), fun s hs _ hv hc => ?_, fun c hc hc' => ?_⟩
    · rw [fill_changes ho a ha]
      refine ⟨hrange, fun s hs hsv => ?_⟩
      rw [h.owned.single s (.direct f i) hs ⟨hf, hi⟩ (hsv ▸ hv) hsv]
      rfl
    · exact h.owned.used s hs hv ((hfree _).mp hc)
    · exact h.sound.reserved c hc ((hfree c).mp hc')
  have honly := hconf.only h hf hreg
  have hself : NodeEq m (fill m (direct m f i * blksize + o) n buf) f :=
    fill_nodeEq h.sound hnode ho (h.node_block (s := .direct f i) hf.1 ⟨hf, hi⟩ hreg hv)
  refine ⟨h.only honly hf hreg ?_ (SlotsFrom.of_fields 0 h.owned hf ?_ ?_ ?_), honly⟩
  · rw [hself.size]
    exact h.size f hf
  · intro j hj _
    exact .inl (hself.direct hj).symm
  · intro hind
    rw [hself.indirect] at hind ⊢
    refine ⟨rfl, fill_blockEq ho fun hb => ?_⟩
    cases h.owned.single (.indirect f) (.direct f i) ⟨hf, trivial⟩ ⟨hf, hi⟩ hind hb
  · intro c hc
    exact .inl ((hfree c).mp hc)

end Inv

end Fs

end Jos
