/-
`alloc_block` and `free_block` on the block cache, and the bitmap on the disk.

`alloc_block` flushes the block at `bitmap` after it has cleared a bit: the first
bitmap block, whichever the block with the bit is.

* `alloc_block_durable` — on the disk the block is in use exactly if its bit is in
  the first bitmap block, or was clear there before;
* `alloc_block_lost` — the first free block is block 32768.
-/
import Jos.Fs.BcCoherent
import Jos.Fs.Bitmap
import Mathlib.Data.Finset.Card
import Mathlib.Order.Interval.Finset.Nat

namespace Jos

open Bytes Prog

namespace Cache

def put32 (s : Cache) (d w : ℕ) : Cache :=
  (((s.put d (UInt8.ofNat w)).put (d + 1) (UInt8.ofNat (w / 2 ^ 8))).put (d + 2)
    (UInt8.ofNat (w / 2 ^ 16))).put (d + 3) (UInt8.ofNat (w / 2 ^ 24))

def onDisk (s : Cache) : Mem := fun d => s.disk (d / sectsize) (d % sectsize)

end Cache

namespace Bc

variable (depth : ℕ)

def store32 (d w : ℕ) : Bc Unit := do
  touch depth (d / blksize)
  modify fun s => s.put32 d w

def freeBlock (blockno : ℕ) : Bc Unit := do
  when (blockno = 0) (halt .freeZero)
  let w ← load32 (touch depth) (Fs.bitmapWord blockno)
  store32 depth (Fs.bitmapWord blockno) (w ||| 2 ^ (blockno % 32))

/-- The loop of `alloc_block`, `n` rounds from block `i` on. -/
def allocScan : ℕ → ℕ → Bc ℤ
  | 0, _ => pure (-eNoDisk)
  | n + 1, i => do
    let free ← blockIsFree (touch depth) i
    if free then do
      let w ← load32 (touch depth) (Fs.bitmapWord i)
      store32 depth (Fs.bitmapWord i) (w &&& (2 ^ 32 - 1 - 2 ^ (i % 32)))
      flushBlock (diskmap + bitmapStart)
      pure i
    else allocScan n (i + 1)

def allocBlock : Bc ℤ := do
  let nblocks ← load32 (touch depth) sNblocks
  allocScan depth nblocks 0

end Bc

/-! ### What `check_super` and `check_bitmap` accept -/

namespace Fs

variable {m : Mem} {b : ℕ}

/-- The server starts with this disk. -/
structure Accepted (m : Mem) : Prop where
  super : wp checkSuper (fun _ _ => True) (fun _ _ => False) m
  bitmap : wp checkBitmap (fun _ _ => True) (fun _ _ => False) m

theorem Accepted.nblocks_le (h : Accepted m) : nblocks m ≤ disksize / blksize := by
  have hs := h.super
  rw [checkSuper, wp_bind, load32, wp_bind, touch, wp_bind, wp_get, wp_when] at hs
  have hs := hs.2 (by unfold sMagic blksize; omega)
  rw [wp_gets, wp_bind, wp_when] at hs
  by_cases hm : rd32 m sMagic ≠ fsMagic
  · exact absurd (hs.1 hm) (by simp)
  · have hs := hs.2 hm
    rw [wp_bind_of_ret (load32_nblocks m), wp_when] at hs
    by_contra hn
    exact (hs.1 (by omega)).elim

theorem wp_blockIsFree_low (hb : b < blkbitsize)
    (h : wp (blockIsFree b) (fun r _ => r = false) (fun _ _ => False) m) :
    nblocks m ≤ b ∨ 2 < nblocks m ∧ ¬ IsFree m b := by
  rw [blockIsFree, wp_bind_of_ret (load32_nblocks m), wp_ite] at h
  by_cases hn : nblocks m ≤ b
  · exact .inl hn
  · have h := h.2 hn
    have hblock : bitmapWord b / blksize = 2 := by
      unfold bitmapWord bitmapStart blkbitsize blksize at *
      omega
    rw [wp_bind, load32, wp_bind, touch, wp_bind, wp_get, wp_when, hblock] at h
    by_cases h2 : nblocks m ≤ 2
    · exact (h.1 ⟨h2, by decide⟩).elim
    · have h := h.2 fun hc => h2 hc.1
      rw [wp_gets, wp_pure] at h
      refine .inr ⟨by omega, fun hf => ?_⟩
      rw [hf.2] at h
      cases h

theorem wp_assertUsed {Q : Unit → Mem → Prop} {k : Unit → FsM Unit}
    (h : wp (do let free ← blockIsFree b; when (free = true) (halt .bitmapFree); k ())
      Q (fun _ _ => False) m) :
    wp (blockIsFree b) (fun r _ => r = false) (fun _ _ => False) m ∧ wp (k ()) Q (fun _ _ => False) m := by
  rw [wp_bind] at h
  cases hr : blockIsFree b m with
  | stop e m' => exact (h.stop hr).elim
  | ret r m' =>
    obtain rfl := (blockIsFree_same b).ret hr
    have h := h.ret hr
    rw [wp_bind, wp_when] at h
    cases r with
    | true => exact (h.1 rfl).elim
    | false => exact ⟨(wp_of_ret hr).mpr rfl, h.2 Bool.false_ne_true⟩

theorem bitmapScan_used {Q : Unit → Mem → Prop} : ∀ {n i : ℕ},
    wp (bitmapScan n i) Q (fun _ _ => False) m →
      (∀ j, i ≤ j → j < i + n → wp (blockIsFree (2 + j)) (fun r _ => r = false) (fun _ _ => False) m) ∧
        Q () m := by
  intro n
  induction n with
  | zero =>
    intro i h
    exact ⟨fun j hj hj' => absurd hj' (by omega), h⟩
  | succ n ih =>
    intro i h
    obtain ⟨hi, hrest⟩ := wp_assertUsed (k := fun _ => bitmapScan n (i + 1)) h
    obtain ⟨hused, hQ⟩ := ih hrest
    refine ⟨fun j hj hj' => ?_, hQ⟩
    rcases Nat.eq_or_lt_of_le hj with rfl | hj
    · exact hi
    · exact hused j hj (by omega)

theorem accepted_sound (h : Accepted m) : nblocks m = 0 ∨ Sound m := by
  have hle := h.nblocks_le
  have hb := h.bitmap
  rw [checkBitmap, wp_bind_of_ret (load32_nblocks m), wp_bind] at hb
  obtain ⟨hbits, hrest⟩ := bitmapScan_used hb
  obtain ⟨h0, hrest⟩ := wp_assertUsed (k := fun _ => do
    let free1 ← blockIsFree 1
    when (free1 = true) (halt .bitmapFree)) hrest
  obtain ⟨h1, -⟩ := wp_assertUsed (k := pure) (by simpa only [bind_unit] using hrest)
  -- with a block or two, the bit of block 0 cannot be read
  rcases wp_blockIsFree_low (by decide) h0 with hn | ⟨hn, hfree0⟩
  · exact .inl (Nat.le_zero.mp hn)
  · right
    have hfirst : firstBlock m ≤ nblocks m ∧ firstBlock m ≤ blkbitsize := by
      unfold firstBlock disksize blkbitsize blksize at *
      omega
    refine ⟨hle, hfirst.1, fun b hb hf => ?_⟩
    have hcase : ∀ {c : ℕ}, c < blkbitsize →
        wp (blockIsFree c) (fun r _ => r = false) (fun _ _ => False) m → ¬ IsFree m c := by
      intro c hc h hf
      rcases wp_blockIsFree_low hc h with hge | ⟨-, hno⟩
      · exact Nat.not_lt.mpr hge hf.1
      · exact hno hf
    rcases b with _ | _ | b
    · exact hfree0 hf
    · exact hcase (by decide) h1 hf
    · have hlt : b < (nblocks m + blkbitsize - 1) / blkbitsize := by
        unfold firstBlock at hb
        omega
      rw [show b + 1 + 1 = 2 + b by omega] at hf
      exact hcase (by omega) (hbits b (Nat.zero_le _) (by omega)) hf

theorem markUsed_markFree (h : (rd32 m (bitmapWord b)).testBit (b % 32) = false) :
    markUsed (markFree m b) b = m := by
  have hw := rd32_lt m (bitmapWord b)
  have hk : b % 32 < 32 := Nat.mod_lt _ (by decide)
  have hlt : rd32 m (bitmapWord b) ||| 2 ^ (b % 32) < 2 ^ 32 :=
    Nat.or_lt_two_pow hw (Nat.pow_lt_pow_right (by decide) hk)
  have hword : (rd32 m (bitmapWord b) ||| 2 ^ (b % 32)) &&& (2 ^ 32 - 1 - 2 ^ (b % 32)) =
      rd32 m (bitmapWord b) := by
    refine Nat.eq_of_testBit_eq fun i => ?_
    rw [testBit_clear hlt hk, Nat.testBit_or, Nat.testBit_two_pow]
    by_cases hi : i = b % 32
    · simp [hi, h]
    · simp [hi, Ne.symm hi]
  rw [markUsed, markFree, rd32_wr32, Nat.mod_eq_of_lt hlt, hword, wr32_wr32, wr32_rd32]

end Fs

/-! ### Words in the cache -/

namespace Cache

variable {s t u : Cache} {b d v w : ℕ}

theorem put_page {x : UInt8} (s : Cache) (b : ℕ) :
    ((s.put d x).page b).isSome = (s.page b).isSome := by
  unfold put
  cases hp : s.page (d / blksize) with
  | none => rfl
  | some p =>
    by_cases hb : b = d / blksize
    · subst hb
      simp [hp]
    · simp [Function.update_of_ne hb]

theorem put_rest {x : UInt8} (s : Cache) : (s.put d x).disk = s.disk ∧ (s.put d x).free = s.free ∧
    (s.put d x).super = s.super ∧ (s.put d x).bitmap = s.bitmap := by
  unfold put
  cases s.page (d / blksize) <;> exact ⟨rfl, rfl, rfl, rfl⟩

theorem put32_page (s : Cache) (b : ℕ) : ((s.put32 d w).page b).isSome = (s.page b).isSome := by
  simp only [put32, put_page]

theorem put32_rest (s : Cache) : (s.put32 d w).disk = s.disk ∧ (s.put32 d w).free = s.free ∧
    (s.put32 d w).super = s.super ∧ (s.put32 d w).bitmap = s.bitmap := by
  simp only [put32, put_rest, and_self]

theorem put32_coherent (h : s.Coherent) : (s.put32 d w).Coherent :=
  put_coherent (put_coherent (put_coherent (put_coherent h)))

theorem put32_content (h : (s.page (d / blksize)).isSome = true) (hd : d % 4 = 0) :
    (s.put32 d w).content = wr32 s.content d w := by
  have hblock : ∀ k < 4, (d + k) / blksize = d / blksize := by
    intro k hk
    unfold blksize
    omega
  have h1 := hblock 1 (by decide)
  have h2 := hblock 2 (by decide)
  have h3 := hblock 3 (by decide)
  rw [put32, put_content (by simp only [put_page, h3, h]), put_content (by simp only [put_page, h2, h]),
    put_content (by simp only [put_page, h1, h]), put_content h]
  funext e
  simp only [Function.update_apply, wr32]
  by_cases he : d ≤ e ∧ e < d + 4
  · obtain ⟨k, rfl⟩ := Nat.exists_eq_add_of_le he.1
    have hk : k < 4 := by omega
    rw [if_pos he, Nat.add_sub_cancel_left]
    rcases k with _ | _ | _ | _ | k
    · simp
    · simp
    · simp
    · simp
    · omega
  · rw [if_neg he, if_neg (by omega), if_neg (by omega), if_neg (by omega), if_neg (by omega)]

/-! ### Reading in the bitmap -/

/-- The blocks below `n` that are not mapped, the first two apart. -/
def missing (n : ℕ) (s : Cache) : ℕ :=
  ((Finset.Ico 2 n).filter fun b => (s.page b).isNone = true).card

theorem missing_readIn {n : ℕ} (hb : 2 ≤ b) (hn : b < n) (h : s.page b = none) :
    missing n (s.readIn b) + 1 = missing n s := by
  have hmem : b ∈ (Finset.Ico 2 n).filter fun b => (s.page b).isNone = true := by
    simp [hb, hn, h]
  have herase : (Finset.Ico 2 n).filter (fun c => ((s.readIn b).page c).isNone = true) =
      ((Finset.Ico 2 n).filter fun c => (s.page c).isNone = true).erase b := by
    ext c
    rw [Finset.mem_erase, Finset.mem_filter, Finset.mem_filter, readIn_page]
    by_cases hc : c = b
    · simp [hc]
    · simp [hc]
  rw [missing, herase, missing, Finset.card_erase_add_one hmem]

theorem missing_congr {n : ℕ} (h : ∀ b, (t.page b).isSome = (s.page b).isSome) :
    missing n t = missing n s := by
  unfold missing
  congr 1
  refine Finset.filter_congr fun b _ => ?_
  rw [← Option.not_isSome, ← Option.not_isSome, h]

/-- From `s` to `t` some of the blocks below `n` have been read in, each into a
page of its own. -/
structure Read (n : ℕ) (s t : Cache) : Prop where
  keep : s.Keep t
  disk : t.disk = s.disk
  paid : s.free + missing n t ≤ t.free + missing n s

theorem Read.refl {n : ℕ} (h : s.Coherent) : s.Read n s := ⟨Kept.refl s h, rfl, Nat.le_refl _⟩

theorem Read.trans {n : ℕ} (h : s.Read n t) (h' : t.Read n u) : s.Read n u := by
  refine ⟨h.keep.trans h'.keep, h'.disk.trans h.disk, ?_⟩
  have := h.paid
  have := h'.paid
  omega

theorem readIn_read {n : ℕ} (hs : s.Coherent) (hb : 2 ≤ b) (hn : b < n) (h : s.page b = none) :
    s.Read n (s.readIn b) := by
  refine ⟨readIn_keep hs (hs.unmapped b h), rfl, ?_⟩
  have hm := missing_readIn hb hn h
  have hf : (s.readIn b).free = s.free - 1 := rfl
  omega

/-- The server after `fs_init`. -/
structure Started (s : Cache) : Prop where
  coherent : s.Coherent
  super : s.super = true
  bitmap : s.bitmap = true
  page : (s.page 1).isSome = true

theorem Started.keep (h : s.Started) (hk : s.Keep t) : t.Started :=
  ⟨hk.coherent, hk.super.trans h.super, hk.bitmap.trans h.bitmap, hk.page 1 h.page⟩

theorem Started.not_unset (h : s.Started) : ¬ s.super = false := by
  rw [h.super]
  exact Bool.true_eq_false_eq_False

/-- Block `b` is mapped, or may be read in. -/
def Readable (s : Cache) (b : ℕ) : Prop :=
  (s.page b).isSome = true ∨ b < Fs.nblocks s.content ∧ ¬ Fs.IsFree s.content b

theorem Readable.keep (h : s.Readable b) (hk : s.Keep t) : t.Readable b := by
  rcases h with h | h
  · exact .inl (hk.page b h)
  · right
    rwa [hk.content]

end Cache

namespace Bc

open Cache

variable {depth n : ℕ} {s t : Cache} {b : ℕ}

/-- There were fewer pages than blocks to be read in. -/
def NoMem (n : ℕ) (s : Cache) : BcStop → Cache → Prop := fun e _ => e = .noMem ∧ s.free < s.missing n

theorem NoMem.of_read {e : BcStop} {u : Cache} (h : s.Read n t) (hm : NoMem n t e u) : NoMem n s e u := by
  refine ⟨hm.1, ?_⟩
  have := h.paid
  have := hm.2
  omega

theorem load_nblocks (h : s.Started) :
    load32 (touch depth) sNblocks s = .ret (Fs.nblocks s.content) s := load32_mapped h.page rfl

theorem bitmapWord_block (b : ℕ) :
    Fs.bitmapWord b / blksize = 2 + b / blkbitsize ∧ Fs.bitmapWord b % 4 = 0 := by
  unfold Fs.bitmapWord bitmapStart blkbitsize blksize
  omega

theorem wp_blockIsFree {R : BcStop → Cache → Prop} (h : s.Started)
    (ht : b < Fs.nblocks s.content → wp (touch depth (2 + b / blkbitsize))
      (fun _ t => (t.page (2 + b / blkbitsize)).isSome = true ∧ s.Read n t) R s) :
    wp (blockIsFree (touch depth) b) (fun r t => r = decide (Fs.IsFree s.content b) ∧ s.Read n t ∧
      (Fs.IsFree s.content b → (t.page (2 + b / blkbitsize)).isSome = true)) R s := by
  rw [blockIsFree, wp_bind, wp_get, if_neg h.not_unset, wp_bind_of_ret (load_nblocks h), wp_ite]
  constructor
  · intro hb
    have hno : ¬ Fs.IsFree s.content b := fun hf => Nat.not_lt.mpr hb hf.1
    exact ⟨(decide_eq_false hno).symm, .refl h.coherent, fun hf => absurd hf hno⟩
  · intro hb
    have hlt : b < Fs.nblocks s.content := Nat.not_le.mp hb
    obtain ⟨hblock, hmod⟩ := bitmapWord_block b
    show wp (load32 (touch depth) (Fs.bitmapWord b) >>= _) _ _ _
    rw [wp_bind, load32, wp_bind, hblock]
    refine (ht hlt).imp ?_
    rintro _ t ⟨hmapped, hread⟩
    rw [wp_gets, wp_pure, rd32_mapped (hblock.symm ▸ hmapped) hmod, hread.keep.content]
    refine ⟨?_, hread, fun _ => hmapped⟩
    rw [Bool.eq_iff_iff, decide_eq_true_iff]
    exact ⟨fun hf => ⟨hlt, hf⟩, fun hf => hf.2⟩

theorem wp_fault_started {Q : Unit → Cache → Prop} {R : BcStop → Cache → Prop} (h : s.Started)
    (hnone : s.page b = none)
    (hout : disksize / blksize ≤ b ∨ Fs.nblocks s.content ≤ b → ∀ e, R e s)
    (hfree : s.free = 0 → R .noMem s)
    (hnext : b < Fs.nblocks s.content → wp (do
        let free ← blockIsFree (touch depth) b
        when (free = true) (halt .freeBlock)) Q R (s.readIn b)) :
    wp (touch (depth + 1) b) Q R s := by
  refine wp_fault hnone (fun _ => h.page) (fun hc => hout (hc.imp_right And.right)) hfree fun hlt => ?_
  rw [when, if_pos h.bitmap]
  exact hnext (hlt h.super)

theorem wp_notFree {R : BcStop → Cache → Prop} (hs : s.Read n t) (hfree : ¬ Fs.IsFree s.content b)
    (hp : (t.page b).isSome = true)
    (h : wp (blockIsFree (touch depth) b) (fun r u => r = decide (Fs.IsFree t.content b) ∧ t.Read n u ∧
      (Fs.IsFree t.content b → (u.page (2 + b / blkbitsize)).isSome = true)) R t) :
    wp (do
        let free ← blockIsFree (touch depth) b
        when (free = true) (halt .freeBlock))
      (fun _ u => (u.page b).isSome = true ∧ s.Read n u) R t := by
  refine h.bind ?_
  rintro r u ⟨hr, hread, -⟩
  have hr' : ¬ r = true := by
    rw [hr, hs.keep.content, decide_eq_true_iff]
    exact hfree
  rw [wp_when]
  exact ⟨fun hc => absurd hc hr', fun _ => ⟨hread.keep.page b hp, hs.trans hread⟩⟩

theorem readIn_mapped (s : Cache) (b : ℕ) : ((s.readIn b).page b).isSome = true := by
  rw [readIn_page, if_pos rfl]
  rfl

theorem touch_read (h : s.Started) (hle : Fs.nblocks s.content ≤ disksize / blksize) (hb : 2 ≤ b)
    (hn : b < n) (hr : s.Readable b)
    (hbit : ∀ t, s.Read n t → (t.page b).isSome = true → wp (touch depth (2 + b / blkbitsize))
      (fun _ u => (u.page (2 + b / blkbitsize)).isSome = true ∧ t.Read n u) (NoMem n s) t) :
    wp (touch (depth + 1) b) (fun _ t => (t.page b).isSome = true ∧ s.Read n t) (NoMem n s) s := by
  cases hp : s.page b with
  | some p =>
    have hmapped : (s.page b).isSome = true := by
      rw [hp]
      rfl
    exact (wp_of_ret (touch_mapped hmapped)).mpr ⟨hmapped, .refl h.coherent⟩
  | none =>
    obtain ⟨hlt, hfree⟩ : b < Fs.nblocks s.content ∧ ¬ Fs.IsFree s.content b := by
      rcases hr with hr | hr
      · rw [hp] at hr
        cases hr
      · exact hr
    have hread := readIn_read h.coherent hb hn hp
    refine wp_fault_started h hp (fun hc => absurd hlt (by omega)) (fun h0 => ⟨rfl, ?_⟩) fun _ => ?_
    · have := missing_readIn hb hn hp
      omega
    · exact wp_notFree hread hfree (readIn_mapped s b)
        (wp_blockIsFree (h.keep hread.keep) fun _ => hbit _ hread (readIn_mapped s b))

theorem touch_first (h : s.Started) (hle : Fs.nblocks s.content ≤ disksize / blksize) (hn : 2 < n)
    (hr : s.Readable 2) :
    wp (touch (depth + 1) 2) (fun _ t => (t.page 2).isSome = true ∧ s.Read n t) (NoMem n s) s :=
  -- the page of the bit is the one that was just mapped
  touch_read h hle (Nat.le_refl 2) hn hr fun _ ht hm =>
    (wp_of_ret (touch_mapped hm)).mpr ⟨hm, .refl ht.keep.coherent⟩

theorem touch_bitmap (h : s.Started) (hle : Fs.nblocks s.content ≤ disksize / blksize) (hb : 2 ≤ b)
    (hn : b < n) (hsmall : b < blkbitsize) (hr : s.Readable b) (hr2 : s.Readable 2) :
    wp (touch (depth + 2) b) (fun _ t => (t.page b).isSome = true ∧ s.Read n t) (NoMem n s) s := by
  refine touch_read h hle hb hn hr fun t ht _ => ?_
  have hblock : 2 + b / blkbitsize = 2 := by
    rw [Nat.div_eq_of_lt hsmall]
  rw [hblock]
  refine (touch_first (h.keep ht.keep) ?_ (by omega) (hr2.keep ht.keep)).mono (fun _ _ hQ => hQ)
    fun _ _ hR => hR.of_read ht
  rwa [ht.keep.content]

/-! ### Scanning the bitmap -/

/-- The bits up to the first one that is set can be read. -/
def Scannable (s : Cache) : Prop := ∀ j < Fs.nblocks s.content,
  (∀ c < j, ¬ Fs.IsFree s.content c) → s.Readable (2 + j / blkbitsize)

theorem touch_bit (h : s.Started) (hle : Fs.nblocks s.content ≤ disksize / blksize)
    (hb : b < Fs.nblocks s.content) (hr : s.Readable (2 + b / blkbitsize)) (hr2 : s.Readable 2) :
    wp (touch (depth + 2) (2 + b / blkbitsize))
      (fun _ t => (t.page (2 + b / blkbitsize)).isSome = true ∧ s.Read (Fs.firstBlock s.content) t)
      (NoMem (Fs.firstBlock s.content) s) s := by
  refine touch_bitmap h hle (Nat.le_add_right _ _) ?_ ?_ hr hr2
  · unfold Fs.firstBlock blkbitsize blksize
    omega
  · unfold disksize blkbitsize blksize at *
    omega

theorem Scannable.first (h : Scannable s) (hb : b < Fs.nblocks s.content) : s.Readable 2 :=
  h 0 (Nat.zero_lt_of_lt hb) fun c hc => absurd hc (Nat.not_lt_zero c)

theorem store32_eq {d w : ℕ} (h : (s.page (d / blksize)).isSome = true) :
    store32 depth d w s = .ret () (s.put32 d w) := by
  rw [store32, ret_bind (touch_mapped h)]
  rfl

theorem flushBitmap_eq (s : Cache) : flushBlock (diskmap + bitmapStart) s = .ret () (s.flush 2) :=
  flushBlock_eq (i := 2) (by decide)

/-- The first free block is in use now, or there is none. -/
def Allocated (s : Cache) (r : ℤ) (t : Cache) : Prop :=
  (r = -eNoDisk ∧ (∀ c, ¬ Fs.IsFree s.content c) ∧ s.Read (Fs.firstBlock s.content) t) ∨
  ∃ b u, r = ((b : ℕ) : ℤ) ∧ IsLeast {c | Fs.IsFree s.content c} b ∧
    s.Read (Fs.firstBlock s.content) u ∧ (u.page (2 + b / blkbitsize)).isSome = true ∧
    t = (u.put32 (Fs.bitmapWord b)
      (rd32 s.content (Fs.bitmapWord b) &&& (2 ^ 32 - 1 - 2 ^ (b % 32)))).flush 2

theorem wp_allocScan (h : s.Started) (hle : Fs.nblocks s.content ≤ disksize / blksize)
    (hr : Scannable s) : ∀ k i t, s.Read (Fs.firstBlock s.content) t → i + k = Fs.nblocks s.content →
      (∀ c < i, ¬ Fs.IsFree s.content c) →
      wp (allocScan (depth + 2) k i) (Allocated s) (NoMem (Fs.firstBlock s.content) s) t := by
  intro k
  induction k with
  | zero =>
    intro i t ht hi hno
    exact .inl ⟨rfl, fun c hc => hno c (by have := hc.1; omega) hc, ht⟩
  | succ k ih =>
    intro i t ht hi hno
    have hlt : i < Fs.nblocks s.content := by omega
    have hstart := h.keep ht.keep
    have hcontent := ht.keep.content
    rw [allocScan, wp_bind]
    have hbit := wp_blockIsFree hstart fun _ => @touch_bit depth t i hstart (hcontent ▸ hle)
      (hcontent ▸ hlt) ((hr i hlt hno).keep ht.keep) ((hr.first hlt).keep ht.keep)
    rw [hcontent] at hbit
    refine hbit.mono ?_ fun _ _ hR => NoMem.of_read ht hR
    rintro r u ⟨rfl, hu, hmapped⟩
    have hsu := ht.trans hu
    by_cases hf : Fs.IsFree s.content i
    · obtain ⟨hblock, hmod⟩ := bitmapWord_block i
      have hpage : (u.page (Fs.bitmapWord i / blksize)).isSome = true := hblock.symm ▸ hmapped hf
      rw [decide_eq_true hf, if_pos rfl, wp_bind_of_ret (load32_mapped hpage hmod), wp_bind,
        wp_of_ret (store32_eq hpage), wp_bind_of_ret (flushBitmap_eq _), wp_pure, hsu.keep.content]
      refine .inr ⟨i, u, rfl, ⟨hf, fun c hc => ?_⟩, hsu, hmapped hf, rfl⟩
      by_contra hci
      exact hno c (Nat.not_le.mp hci) hc
    · rw [decide_eq_false hf, if_neg Bool.false_ne_true]
      refine ih (i + 1) u hsu (by omega) fun c hc => ?_
      rcases Nat.lt_succ_iff_lt_or_eq.mp hc with hc | rfl
      · exact hno c hc
      · exact hf

theorem wp_allocBlock (h : s.Started) (hle : Fs.nblocks s.content ≤ disksize / blksize)
    (hr : Scannable s) :
    wp (allocBlock (depth + 2)) (Allocated s) (NoMem (Fs.firstBlock s.content) s) s := by
  rw [allocBlock, wp_bind_of_ret (load_nblocks h)]
  exact wp_allocScan h hle hr _ _ _ (.refl h.coherent) (Nat.zero_add _)
    fun c hc => absurd hc (Nat.not_lt_zero c)

theorem wp_freeBlock (h : s.Started) (hle : Fs.nblocks s.content ≤ disksize / blksize) (hb0 : b ≠ 0)
    (hb : b < Fs.nblocks s.content) (hr : s.Readable (2 + b / blkbitsize)) (hr2 : s.Readable 2) :
    wp (freeBlock (depth + 2) b) (fun _ t => ∃ u, s.Read (Fs.firstBlock s.content) u ∧
      (u.page (2 + b / blkbitsize)).isSome = true ∧
      t = u.put32 (Fs.bitmapWord b) (rd32 s.content (Fs.bitmapWord b) ||| 2 ^ (b % 32)))
      (NoMem (Fs.firstBlock s.content) s) s := by
  obtain ⟨hblock, hmod⟩ := bitmapWord_block b
  rw [freeBlock, wp_bind, wp_when]
  refine ⟨fun hc => absurd hc hb0, fun _ => ?_⟩
  rw [wp_bind, load32, wp_bind, hblock]
  refine (touch_bit h hle hb hr hr2).imp ?_
  rintro _ u ⟨hmapped, hread⟩
  have hpage : (u.page (Fs.bitmapWord b / blksize)).isSome = true := hblock.symm ▸ hmapped
  rw [wp_gets, rd32_mapped hpage hmod, hread.keep.content, wp_of_ret (store32_eq hpage)]
  exact ⟨u, hread, hmapped, rfl⟩

/-! ### The bitmap in the cache and on the disk -/

theorem Allocated.content {t : Cache} (ht : Allocated s b t) :
    IsLeast {c | Fs.IsFree s.content c} b ∧ t.Coherent ∧ t.content = Fs.markUsed s.content b ∧
      t.dirty 2 = false := by
  rcases ht with ⟨hr, -⟩ | ⟨c, u, hr, hleast, hread, hmapped, rfl⟩
  · exact absurd hr (by unfold eNoDisk; omega)
  · obtain rfl : b = c := by exact_mod_cast hr
    obtain ⟨hblock, hmod⟩ := bitmapWord_block b
    have hco := put32_coherent (d := Fs.bitmapWord b)
      (w := rd32 s.content (Fs.bitmapWord b) &&& (2 ^ 32 - 1 - 2 ^ (b % 32))) hread.keep.coherent
    have hk := flush_kept _ 2 hco
    refine ⟨hleast, hk.coherent, ?_, flush_clean hco 2⟩
    rw [hk.content, put32_content (hblock.symm ▸ hmapped) hmod, hread.keep.content]
    rfl

theorem onDisk_eq (hs : s.Coherent) (hb : b < blkbitsize) (hclean : s.dirty 2 = false) :
    rd32 s.onDisk (Fs.bitmapWord b) = rd32 s.content (Fs.bitmapWord b) := by
  refine rd32_congr fun d hd hd' => ?_
  have hblock : d / blksize = 2 := by
    unfold Fs.bitmapWord bitmapStart blkbitsize blksize at *
    omega
  rw [hs.content_eq (hblock.symm ▸ hclean)]
  rfl

theorem flush_onDisk {d : ℕ} (h : d / blksize ≠ b) : (s.flush b).onDisk d = s.onDisk d := by
  unfold Cache.flush
  split
  · split
    · refine congrFun (if_neg ?_) _
      unfold blksects blksize sectsize at *
      omega
    · rfl
  · rfl

theorem Allocated.onDisk (ht : Allocated s b t) (hb : blkbitsize ≤ b) :
    rd32 t.onDisk (Fs.bitmapWord b) = rd32 s.onDisk (Fs.bitmapWord b) := by
  rcases ht with ⟨hr, -⟩ | ⟨c, u, hr, -, hread, -, rfl⟩
  · exact absurd hr (by unfold eNoDisk; omega)
  · refine rd32_congr fun d hd _ => ?_
    have hblock : d / blksize ≠ 2 := by
      unfold Fs.bitmapWord bitmapStart blkbitsize blksize at *
      omega
    rw [flush_onDisk hblock, Cache.onDisk, (put32_rest u).1, hread.disk]
    rfl

theorem readable_sound (hs : Fs.Sound s.content) (hb : b < Fs.firstBlock s.content) : s.Readable b :=
  .inr ⟨Nat.lt_of_lt_of_le hb hs.first_le, hs.reserved b hb⟩

theorem scannable_of_accepted (ha : Fs.Accepted s.content) : Scannable s := by
  intro j hj _
  rcases Fs.accepted_sound ha with h0 | hs
  · exact absurd hj (by omega)
  · refine readable_sound hs ?_
    unfold Fs.firstBlock blkbitsize blksize
    omega

/-- The state after `free_block`: only the bit has changed. -/
structure Freed (s : Cache) (b : ℕ) (t : Cache) : Prop where
  started : t.Started
  content : t.content = Fs.markFree s.content b
  page : ∀ c, (s.page c).isSome = true → (t.page c).isSome = true
  mapped : (t.page (2 + b / blkbitsize)).isSome = true
  paid : s.free + t.missing (Fs.firstBlock s.content) ≤ t.free + s.missing (Fs.firstBlock s.content)

theorem freed_put32 {u : Cache} (h : s.Started) (hread : s.Read (Fs.firstBlock s.content) u)
    (hmapped : (u.page (2 + b / blkbitsize)).isSome = true) :
    Freed s b (u.put32 (Fs.bitmapWord b) (rd32 s.content (Fs.bitmapWord b) ||| 2 ^ (b % 32))) := by
  obtain ⟨hblock, hmod⟩ := bitmapWord_block b
  have hu := h.keep hread.keep
  obtain ⟨-, hfree, hsuper, hbitmap⟩ := put32_rest (d := Fs.bitmapWord b)
    (w := rd32 s.content (Fs.bitmapWord b) ||| 2 ^ (b % 32)) u
  refine ⟨⟨put32_coherent hu.coherent, hsuper.trans hu.super, hbitmap.trans hu.bitmap, ?_⟩, ?_, ?_, ?_, ?_⟩
  · rw [put32_page]
    exact hu.page
  · rw [put32_content (hblock.symm ▸ hmapped) hmod, hread.keep.content]
    rfl
  · intro c hc
    rw [put32_page]
    exact hread.keep.page c hc
  · rw [put32_page]
    exact hmapped
  · rw [missing_congr (put32_page u), hfree]
    exact hread.paid

theorem Freed.scannable (ht : Freed s b t) (hs : Fs.Sound s.content) (hb : b < Fs.nblocks s.content) :
    Scannable t := by
  intro j hj hno
  rw [ht.content] at hj hno
  rw [Fs.nblocks_markFree] at hj
  have hle := hs.nblocks_le
  have hjb : j ≤ b := by
    by_contra hlt
    exact hno b (Nat.not_le.mp hlt) ((Fs.isFree_markFree s.content hb b).mpr (.inr rfl))
  by_cases hsame : j / blkbitsize = b / blkbitsize
  · rw [hsame]
    exact .inl ht.mapped
  · -- then `b` is not a bitmap block
    have hlow : 2 + j / blkbitsize < Fs.firstBlock s.content ∧ 2 + j / blkbitsize ≠ b := by
      unfold Fs.firstBlock disksize blkbitsize blksize at *
      omega
    right
    rw [ht.content, Fs.nblocks_markFree, Fs.isFree_markFree s.content hb]
    refine ⟨Nat.lt_of_lt_of_le hlow.1 hs.first_le, ?_⟩
    rintro (hf | rfl)
    · exact hs.reserved _ hlow.1 hf
    · exact hlow.2 rfl

theorem wp_freeAlloc (h : s.Started) (hs : Fs.Sound s.content) (hb0 : b ≠ 0)
    (hb : b < Fs.nblocks s.content) (hno : ∀ c ≤ b, ¬ Fs.IsFree s.content c) :
    wp (do
        freeBlock (depth + 2) b
        allocBlock (depth + 2))
      (fun r t => r = b ∧ t.content = s.content) (NoMem (Fs.firstBlock s.content) s) s := by
  have hlow : 2 < Fs.firstBlock s.content ∧ 2 + b / blkbitsize < Fs.firstBlock s.content := by
    unfold Fs.firstBlock blkbitsize blksize
    omega
  refine (wp_freeBlock h hs.nblocks_le hb0 hb (readable_sound hs hlow.2) (readable_sound hs hlow.1)).bind
    ?_
  rintro _ t ⟨u, hread, hmapped, rfl⟩
  have ht := freed_put32 h hread hmapped
  generalize u.put32 _ _ = t at ht ⊢
  have hn : Fs.nblocks t.content = Fs.nblocks s.content := by
    rw [ht.content, Fs.nblocks_markFree]
  have hfree : ∀ c, Fs.IsFree t.content c ↔ Fs.IsFree s.content c ∨ c = b := by
    rw [ht.content]
    exact Fs.isFree_markFree s.content hb
  have halloc := @wp_allocBlock depth _ ht.started (hn ▸ hs.nblocks_le) (ht.scannable hs hb)
  refine halloc.mono ?_ ?_
  · intro r t' hr
    rcases id hr with ⟨-, hnone, -⟩ | ⟨c, -, rfl, -⟩
    · exact absurd ((hfree b).mpr (.inr rfl)) (hnone b)
    · obtain ⟨hleast, -, hcontent, -⟩ := hr.content
      -- the freed block is the first one
      obtain rfl : c = b := by
        rcases (hfree c).mp hleast.1 with hf | rfl
        · exact absurd hf (hno c (hleast.2 ((hfree b).mpr (.inr rfl))))
        · rfl
      refine ⟨rfl, ?_⟩
      rw [hcontent, ht.content]
      refine Fs.markUsed_markFree ?_
      by_contra hbit
      exact hno c (Nat.le_refl c) ⟨hb, Bool.not_eq_false _ ▸ hbit⟩
  · rintro e _ ⟨he, hm⟩
    rw [Fs.firstBlock_congr hn] at hm
    have := ht.paid
    exact ⟨he, by omega⟩

/-- With a disk that was accepted, `alloc_block` fails without a change exactly if
no bit is set.  Otherwise it returns the first block that is free, which is not a
reserved one, and clears its bit and no other; the disk has it too exactly if the
bit is in the first bitmap block or was clear there before.  Freeing a block and allocating it again restores the
bitmap.  The server stops only if there are fewer pages than bitmap blocks that
are to be read in. -/
theorem alloc_block_durable (depth : ℕ) (h : s.Started) (ha : Fs.Accepted s.content) :
    wp (allocBlock (depth + 2)) (fun r t =>
      (r = -eNoDisk ↔ ∀ c, ¬ Fs.IsFree s.content c) ∧
      (r = -eNoDisk → t.content = s.content ∧ t.disk = s.disk) ∧
      (r ≠ -eNoDisk → ∃ b : ℕ, r = b ∧ IsLeast {c | Fs.IsFree s.content c} b ∧
        Fs.firstBlock s.content ≤ b ∧ t.content = Fs.markUsed s.content b ∧
        (∀ c, Fs.IsFree t.content c ↔ Fs.IsFree s.content c ∧ c ≠ b) ∧
        (b < blkbitsize ∨ (rd32 s.onDisk (Fs.bitmapWord b)).testBit (b % 32) = false ↔
          (rd32 t.onDisk (Fs.bitmapWord b)).testBit (b % 32) = false)))
      (NoMem (Fs.firstBlock s.content) s) s ∧
    ∀ b, b ≠ 0 → b < Fs.nblocks s.content → (∀ c ≤ b, ¬ Fs.IsFree s.content c) →
      wp (do
          freeBlock (depth + 2) b
          allocBlock (depth + 2))
        (fun r t => r = b ∧ t.content = s.content) (NoMem (Fs.firstBlock s.content) s) s := by
  constructor
  · refine (wp_allocBlock h ha.nblocks_le (scannable_of_accepted ha)).imp ?_
    intro r t hr
    rcases id hr with ⟨rfl, hnone, hread⟩ | ⟨b, -, rfl, -⟩
    · exact ⟨iff_of_true rfl hnone, fun _ => ⟨hread.keep.content, hread.disk⟩, fun hne => absurd rfl hne⟩
    · obtain ⟨hleast, hco, hcontent, hclean⟩ := hr.content
      have hne : (b : ℤ) ≠ -eNoDisk := by
        unfold eNoDisk
        omega
      refine ⟨iff_of_false hne fun hc => hc b hleast.1, fun hc => absurd hc hne, fun _ => ?_⟩
      refine ⟨b, rfl, hleast, ?_, hcontent, ?_, ?_⟩
      · rcases Fs.accepted_sound ha with h0 | hs
        · exact absurd hleast.1.1 (by omega)
        · by_contra hlt
          exact hs.reserved b (Nat.not_le.mp hlt) hleast.1
      · rw [hcontent]
        exact Fs.isFree_markUsed s.content b
      · by_cases hb : b < blkbitsize
        · refine iff_of_true (.inl hb) ?_
          rw [onDisk_eq hco hb hclean, hcontent]
          by_contra hbit
          have hlt : b < Fs.nblocks (Fs.markUsed s.content b) := by
            rw [Fs.nblocks_markUsed]
            exact hleast.1.1
          have hf : Fs.IsFree (Fs.markUsed s.content b) b := ⟨hlt, Bool.not_eq_false _ ▸ hbit⟩
          exact ((Fs.isFree_markUsed s.content b b).mp hf).2 rfl
        · rw [hr.onDisk (Nat.le_of_not_lt hb)]
          exact or_iff_right hb
  · intro b hb0 hb hno
    rcases Fs.accepted_sound ha with h0 | hs
    · exact absurd hb (by omega)
    · exact wp_freeAlloc h hs hb0 hb hno

end Bc

namespace Demo

/-- A disk of 40000 blocks, with two bitmap blocks, of which only block `b` is
free. -/
def bits (b : ℕ) : Mem :=
  Fs.markFree (wr32 (wr32 (fun _ => 0) sMagic fsMagic) sNblocks 40000) b

/-- The disk, with the superblock mapped. -/
def cacheOf (m : Mem) : Cache where
  disk sec o := m (sec * sectsize + o)
  page b := if b = 1 then some fun o => m (b * blksize + o) else none
  dirty _ := false
  free := 8
  super := true
  bitmap := true

theorem cacheOf_content (m : Mem) : (cacheOf m).content = m := by
  funext d
  unfold Cache.content cacheOf
  by_cases hd : d / blksize = 1
  · simp only [if_pos hd]
    congr 1
    unfold blksize at *
    omega
  · simp only [if_neg hd]
    congr 1
    unfold sectsize
    omega

theorem cacheOf_started (m : Mem) : (cacheOf m).Started := by
  refine ⟨⟨fun b p hp _ o ho => ?_, fun _ _ => rfl⟩, rfl, rfl, rfl⟩
  simp only [cacheOf] at hp
  split at hp
  · cases hp
    show m (b * blksize + o) = m ((b * blksects + o / sectsize) * sectsize + o % sectsize)
    refine congrArg m ?_
    unfold blksects blksize sectsize at *
    omega
  · cases hp

theorem nblocks_bits (b : ℕ) : Fs.nblocks (bits b) = 40000 := by
  rw [bits, Fs.nblocks_markFree, Fs.nblocks, rd32_wr32, Nat.mod_eq_of_lt (by decide)]

theorem isFree_bits {b : ℕ} (hb : b < 40000) (c : ℕ) : Fs.IsFree (bits b) c ↔ c = b := by
  have hn : b < Fs.nblocks (wr32 (wr32 (fun _ => 0) sMagic fsMagic) sNblocks 40000) := by
    rw [Fs.nblocks, rd32_wr32]
    omega
  rw [bits, Fs.isFree_markFree _ hn]
  refine ⟨fun h => h.resolve_left ?_, .inr⟩
  rintro ⟨-, hbit⟩
  have hword : rd32 (wr32 (wr32 (fun _ => 0) sMagic fsMagic) sNblocks 40000) (Fs.bitmapWord c) = 0 := by
    rw [rd32_wr32_of_disjoint, rd32_wr32_of_disjoint]
    · rfl
    · unfold Fs.bitmapWord bitmapStart sMagic blksize
      omega
    · unfold Fs.bitmapWord bitmapStart sNblocks blksize
      omega
  rw [hword, Nat.zero_testBit] at hbit
  cases hbit

theorem accepted_bits {b : ℕ} (h : Fs.Accepted (bits b)) : Fs.Accepted (cacheOf (bits b)).content := by
  rwa [cacheOf_content]

theorem enough_bits {b : ℕ} {e : BcStop} {t : Cache} :
    ¬ Bc.NoMem (Fs.firstBlock (cacheOf (bits b)).content) (cacheOf (bits b)) e t := by
  have hfirst : Fs.firstBlock (cacheOf (bits b)).content = 4 := by
    rw [cacheOf_content, Fs.firstBlock, nblocks_bits]
    decide
  have hmissing : (cacheOf (bits b)).missing 4 ≤ 2 := by
    refine Nat.le_trans (Finset.card_filter_le _ _) ?_
    decide
  rintro ⟨-, hlt⟩
  rw [hfirst] at hlt
  have hpages : (cacheOf (bits b)).free = 8 := rfl
  omega

end Demo

open Demo

/-- The block is below 32768. -/
theorem Bc.alloc_block_durable_five : (cacheOf (bits 5)).Started ∧
    wp (Bc.allocBlock 2) (fun r t => r = 5 ∧ (rd32 t.onDisk (Fs.bitmapWord 5)).testBit 5 = false)
      (fun _ _ => False) (cacheOf (bits 5)) := by
  have hfree : ∀ c, Fs.IsFree (cacheOf (bits 5)).content c ↔ c = 5 := by
    rw [cacheOf_content]
    exact isFree_bits (by decide)
  refine ⟨cacheOf_started _, ?_⟩
  refine (Bc.alloc_block_durable 0 (cacheOf_started _) (accepted_bits ⟨by decide +kernel,
    by decide +kernel⟩)).1.mono ?_ fun _ _ hR => enough_bits hR
  rintro r t ⟨hiff, -, hsome⟩
  obtain ⟨b, rfl, hleast, -, -, -, hdisk⟩ := hsome fun hc => hiff.mp hc 5 ((hfree 5).mpr rfl)
  obtain rfl := (hfree b).mp hleast.1
  exact ⟨rfl, hdisk.mp (.inl (by decide))⟩

theorem Demo.allocBlock_bits {b : ℕ} (hb : b < 40000) (hb' : blkbitsize ≤ b) (ha : Fs.Accepted (bits b)) :
    ∃ t, Bc.allocBlock 2 (cacheOf (bits b)) = .ret (b : ℤ) t ∧ t.content = Fs.markUsed (bits b) b ∧
      rd32 t.onDisk (Fs.bitmapWord b) = rd32 (cacheOf (bits b)).onDisk (Fs.bitmapWord b) := by
  have ha' := accepted_bits ha
  have hfree : ∀ c, Fs.IsFree (cacheOf (bits b)).content c ↔ c = b := by
    rw [cacheOf_content]
    exact isFree_bits hb
  have halloc := @Bc.wp_allocBlock 0 _ (cacheOf_started (bits b)) ha'.nblocks_le
    (Bc.scannable_of_accepted ha')
  obtain ⟨r, t, hret, hr⟩ := (halloc.mono (fun _ _ hQ => hQ) fun _ _ hR => enough_bits hR).exists_ret
  rcases id hr with ⟨-, hnone, -⟩ | ⟨c, -, rfl, -⟩
  · exact absurd ((hfree b).mpr rfl) (hnone b)
  · obtain ⟨hleast, -, hcontent, -⟩ := hr.content
    obtain rfl := (hfree c).mp hleast.1
    rw [cacheOf_content] at hcontent
    exact ⟨t, hret, hcontent, hr.onDisk hb'⟩

/-- The first free block is block 32768, whose bit is in the second bitmap block:
`alloc_block` returns it, and on the disk it is still free. -/
theorem Bc.alloc_block_lost : (cacheOf (bits 32768)).Started ∧
    Fs.Accepted (cacheOf (bits 32768)).content ∧
    ∃ t, Bc.allocBlock 2 (cacheOf (bits 32768)) = .ret 32768 t ∧
      (rd32 t.content (Fs.bitmapWord 32768)).testBit 0 = false ∧
      (rd32 t.onDisk (Fs.bitmapWord 32768)).testBit 0 = true := by
  have ha : Fs.Accepted (bits 32768) := ⟨by decide +kernel, by decide +kernel⟩
  obtain ⟨t, hret, hcontent, hdisk⟩ := allocBlock_bits (b := 32768) (by omega) (by decide) ha
  refine ⟨cacheOf_started _, accepted_bits ha, t, hret, ?_, ?_⟩
  · rw [hcontent]
    decide +kernel
  · rw [hdisk]
    decide +kernel

end Jos
