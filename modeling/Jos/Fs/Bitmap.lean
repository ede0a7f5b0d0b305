/-
The free block bitmap.

* `Sound` — what `check_super` and `check_bitmap` accept, for a disk that has
  room for its bitmap;
* `markUsed`, `markFree` — the bitmap with one bit changed (`isFree_markUsed`,
  `isFree_markFree`);
* `allocBlock_cases`, `freeBlock_eq` — what the functions do with it.
-/
import Jos.Fs.File

namespace Jos

open Prog Bytes

namespace Fs

def nblocks (m : Mem) : ℕ := rd32 m sNblocks

/-- The first block that is not reserved. -/
def firstBlock (m : Mem) : ℕ := 2 + (nblocks m + blkbitsize - 1) / blkbitsize

/-- The block exists, and its bit is set. -/
def IsFree (m : Mem) (b : ℕ) : Prop := b < nblocks m ∧ (rd32 m (bitmapWord b)).testBit (b % 32)
  deriving Decidable

/-- The superblock is accepted and the reserved blocks are in use. -/
@[mk_iff]
structure Sound (m : Mem) : Prop where
  nblocks_le : nblocks m ≤ disksize / blksize
  first_le : firstBlock m ≤ nblocks m
  reserved : ∀ b < firstBlock m, ¬ IsFree m b

instance (m : Mem) : Decidable (Sound m) := decidable_of_iff' _ (sound_iff m)

/-- The block with this offset exists. -/
def InDisk (m : Mem) (a : ℕ) : Prop := a / blksize < nblocks m

section Access

variable {m : Mem} {a b v : ℕ}

theorem touch_eq (h : InDisk m a) : touch a m = .ret () m := by
  have hno : ¬ (rd32 m sNblocks ≤ a / blksize ∧ a / blksize ≠ 1) := fun hc =>
    Nat.not_lt.mpr hc.1 h
  show (when _ (halt _) : FsM Unit) m = _
  rw [when, if_neg hno]
  rfl

theorem load32_eq (h : InDisk m a) : load32 a m = .ret (rd32 m a) m := by
  rw [load32, ret_bind (touch_eq h)]
  rfl

theorem store32_eq (h : InDisk m a) (v : ℕ) : store32 a v m = .ret () (wr32 m a v) := by
  rw [store32, ret_bind (touch_eq h)]
  rfl

theorem load32_nblocks (m : Mem) : load32 sNblocks m = .ret (nblocks m) m := by
  have hno : ¬ (rd32 m sNblocks ≤ sNblocks / blksize ∧ sNblocks / blksize ≠ 1) := fun hc =>
    hc.2 rfl
  rw [load32]
  show ((when _ (halt _) : FsM Unit) >>= _) m = _
  rw [when, if_neg hno]
  rfl

theorem diskaddr_eq (hb : b ≠ 0) (hlt : b < nblocks m) : diskaddr b m = .ret (b * blksize) m := by
  rw [diskaddr, ret_bind (load32_nblocks m), if_neg (by omega)]
  rfl

instance : IsPreorder Mem Eq where
  refl := Eq.refl
  trans _ _ _ := Eq.trans

/-- Programs that change nothing. -/
abbrev Reads {α : Type} (m : FsM α) : Prop := Prog.Keeps (@Eq Mem) (fun _ => True) m

theorem load32_same (a : ℕ) : Reads (load32 a) :=
  .bind (.get_bind fun _ => .when (.halt trivial)) fun _ => .gets _

theorem blockIsFree_same (b : ℕ) : Reads (blockIsFree b) :=
  .bind (load32_same _) fun _ => .ite (.pure _) <| .bind (load32_same _) fun _ => .pure _

theorem nblocks_wr32 (h : sNblocks + 4 ≤ a) : nblocks (wr32 m a v) = nblocks m :=
  rd32_wr32_of_disjoint m v (.inl h)

end Access

section Bits

variable {m m' : Mem} {b c : ℕ}

theorem Sound.bitmapWord_lt (h : Sound m) (hb : b < nblocks m) :
    bitmapWord b + 4 ≤ firstBlock m * blksize := by
  have := h.first_le
  unfold bitmapWord bitmapStart firstBlock blkbitsize blksize at *
  omega

theorem Sound.inDisk_bitmap (h : Sound m) (hb : b < nblocks m) : InDisk m (bitmapWord b) := by
  have hlt := h.bitmapWord_lt hb
  have hle := h.first_le
  unfold InDisk
  exact Nat.lt_of_lt_of_le (Nat.div_lt_of_lt_mul (by rw [Nat.mul_comm]; omega)) hle

theorem blockIsFree_eq (h : Sound m) (b : ℕ) : blockIsFree b m = .ret (decide (IsFree m b)) m := by
  rw [blockIsFree, ret_bind (load32_nblocks m)]
  by_cases hb : nblocks m ≤ b
  · have hno : ¬ IsFree m b := fun hf => Nat.not_lt.mpr hb hf.1
    rw [if_pos hb, decide_eq_false hno]
    rfl
  · have hlt : b < nblocks m := Nat.not_le.mp hb
    rw [if_neg hb, ret_bind (load32_eq (h.inDisk_bitmap hlt))]
    have hiff : decide (IsFree m b) = (rd32 m (bitmapWord b)).testBit (b % 32) := by
      rw [Bool.eq_iff_iff, decide_eq_true_iff]
      exact ⟨fun hf => hf.2, fun hf => ⟨hlt, hf⟩⟩
    rw [hiff]
    rfl

def markUsed (m : Mem) (b : ℕ) : Mem :=
  wr32 m (bitmapWord b) (rd32 m (bitmapWord b) &&& (2 ^ 32 - 1 - 2 ^ (b % 32)))

def markFree (m : Mem) (b : ℕ) : Mem :=
  wr32 m (bitmapWord b) (rd32 m (bitmapWord b) ||| 2 ^ (b % 32))

theorem nblocks_markUsed (m : Mem) (b : ℕ) : nblocks (markUsed m b) = nblocks m :=
  nblocks_wr32 (by unfold bitmapWord bitmapStart sNblocks blksize; omega)

theorem nblocks_markFree (m : Mem) (b : ℕ) : nblocks (markFree m b) = nblocks m :=
  nblocks_wr32 (by unfold bitmapWord bitmapStart sNblocks blksize; omega)

theorem firstBlock_congr (h : nblocks m' = nblocks m) : firstBlock m' = firstBlock m := by
  unfold firstBlock
  rw [h]

theorem Sound.congr (hs : Sound m) (hn : nblocks m' = nblocks m)
    (hres : ∀ b < firstBlock m, ¬ IsFree m' b) : Sound m' where
  nblocks_le := by
    rw [hn]
    exact hs.nblocks_le
  first_le := by
    rw [firstBlock_congr hn, hn]
    exact hs.first_le
  reserved b hb := hres b (firstBlock_congr hn ▸ hb)

theorem testBit_wr32 (m : Mem) (w : ℕ) (hw : w < 2 ^ 32)
    (hbit : ∀ i, i ≠ b % 32 → w.testBit i = (rd32 m (bitmapWord b)).testBit i) (hc : c ≠ b) :
    (rd32 (wr32 m (bitmapWord b) w) (bitmapWord c)).testBit (c % 32) =
      (rd32 m (bitmapWord c)).testBit (c % 32) := by
  by_cases hword : c / 32 = b / 32
  · have hsame : bitmapWord c = bitmapWord b := by
      unfold bitmapWord
      rw [hword]
    rw [hsame, rd32_wr32, Nat.mod_eq_of_lt hw]
    exact hbit _ fun hmod => hc (by omega)
  · rw [rd32_wr32_of_disjoint]
    unfold bitmapWord
    omega

theorem testBit_clear {w k : ℕ} (hw : w < 2 ^ 32) (hk : k < 32) (i : ℕ) :
    (w &&& (2 ^ 32 - 1 - 2 ^ k)).testBit i = (w.testBit i && (i != k)) := by
  have hlt : 2 ^ k < 2 ^ 32 := Nat.pow_lt_pow_right (by decide) hk
  have hform : 2 ^ 32 - 1 - 2 ^ k = 2 ^ 32 - (2 ^ k + 1) := by omega
  rw [Nat.testBit_and, hform, Nat.testBit_two_pow_sub_succ hlt, Nat.testBit_two_pow]
  by_cases hi : i < 32
  · by_cases hik : i = k
    · simp [hik]
    · simp [hi, hik, Ne.symm hik]
  · have hz : w.testBit i = false :=
      Nat.testBit_lt_two_pow (Nat.lt_of_lt_of_le hw (Nat.pow_le_pow_right (by decide) (by omega)))
    simp [hz]

theorem isFree_markUsed (m : Mem) (b c : ℕ) : IsFree (markUsed m b) c ↔ IsFree m c ∧ c ≠ b := by
  have hw := rd32_lt m (bitmapWord b)
  have hbits := testBit_clear hw (Nat.mod_lt b (y := 32) (by decide))
  have hlt : rd32 m (bitmapWord b) &&& (2 ^ 32 - 1 - 2 ^ (b % 32)) < 2 ^ 32 :=
    Nat.lt_of_le_of_lt Nat.and_le_left hw
  unfold IsFree
  rw [nblocks_markUsed]
  by_cases hc : c = b
  · subst hc
    have hself : (rd32 (markUsed m c) (bitmapWord c)).testBit (c % 32) = false := by
      rw [markUsed, rd32_wr32, Nat.mod_eq_of_lt hlt, hbits]
      simp
    simp [hself]
  · have hother : (rd32 (markUsed m b) (bitmapWord c)).testBit (c % 32) =
        (rd32 m (bitmapWord c)).testBit (c % 32) := by
      refine testBit_wr32 m _ hlt (fun i hi => ?_) hc
      rw [hbits]
      simp [hi]
    rw [hother]
    simp [hc]

theorem isFree_markFree (m : Mem) (hb : b < nblocks m) (c : ℕ) :
    IsFree (markFree m b) c ↔ IsFree m c ∨ c = b := by
  have hw := rd32_lt m (bitmapWord b)
  have hlt : rd32 m (bitmapWord b) ||| 2 ^ (b % 32) < 2 ^ 32 :=
    Nat.or_lt_two_pow hw (Nat.pow_lt_pow_right (by decide) (Nat.mod_lt _ (by decide)))
  unfold IsFree
  rw [nblocks_markFree]
  by_cases hc : c = b
  · subst hc
    have hself : (rd32 (markFree m c) (bitmapWord c)).testBit (c % 32) = true := by
      rw [markFree, rd32_wr32, Nat.mod_eq_of_lt hlt, Nat.testBit_or, Nat.testBit_two_pow_self,
        Bool.or_true]
    simp [hself, hb]
  · have hother : (rd32 (markFree m b) (bitmapWord c)).testBit (c % 32) =
        (rd32 m (bitmapWord c)).testBit (c % 32) := by
      refine testBit_wr32 m _ hlt (fun i hi => ?_) hc
      rw [Nat.testBit_or, Nat.testBit_two_pow_of_ne (Ne.symm hi), Bool.or_false]
    rw [hother]
    simp [hc]

end Bits

/-! ### Allocating and freeing -/

section Alloc

variable {m : Mem} {b : ℕ}

theorem allocScan_cases (h : Sound m) : ∀ n i, i + n = nblocks m → (∀ c < i, ¬ IsFree m c) →
    (allocScan n i m = .ret (-eNoDisk) m ∧ ∀ c, ¬ IsFree m c) ∨
    ∃ b, IsFree m b ∧ (∀ c < b, ¬ IsFree m c) ∧ allocScan n i m = .ret (b : ℤ) (markUsed m b) := by
  intro n
  induction n with
  | zero =>
    intro i hi hno
    exact .inl ⟨rfl, fun c hc => hno c (by have := hc.1; omega) hc⟩
  | succ n ih =>
    intro i hi hno
    rw [allocScan, ret_bind (blockIsFree_eq h i)]
    by_cases hf : IsFree m i
    · right
      have hin := h.inDisk_bitmap hf.1
      refine ⟨i, hf, hno, ?_⟩
      rw [decide_eq_true hf, if_pos rfl, ret_bind (load32_eq hin), ret_bind (store32_eq hin _)]
      rfl
    · rw [decide_eq_false hf, if_neg Bool.false_ne_true]
      refine ih (i + 1) (by omega) fun c hc => ?_
      rcases Nat.lt_succ_iff_lt_or_eq.mp hc with hc | rfl
      · exact hno c hc
      · exact hf

theorem allocBlock_cases (h : Sound m) :
    (allocBlock m = .ret (-eNoDisk) m ∧ ∀ c, ¬ IsFree m c) ∨
    ∃ b, IsFree m b ∧ (∀ c < b, ¬ IsFree m c) ∧ allocBlock m = .ret (b : ℤ) (markUsed m b) := by
  rw [allocBlock, ret_bind (load32_nblocks m)]
  exact allocScan_cases h _ _ (Nat.zero_add _) fun c hc => absurd hc (Nat.not_lt_zero c)

theorem freeBlock_eq (h : Sound m) (hb : b ≠ 0) (hlt : b < nblocks m) :
    freeBlock b m = .ret () (markFree m b) := by
  have hin := h.inDisk_bitmap hlt
  have hwhen : (when (b = 0) (halt .freeZero) : FsM Unit) m = .ret () m := by
    rw [when, if_neg hb]
    rfl
  rw [freeBlock, ret_bind hwhen, ret_bind (load32_eq hin), store32_eq hin]
  rfl

end Alloc

end Fs

end Jos
