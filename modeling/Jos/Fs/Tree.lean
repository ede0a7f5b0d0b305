/-
The files on the disk.

`Entry` are the places for a `struct File`: the root, and the entries of the
blocks of every directory.  A file is an entry in use.  Each file has slots for
block numbers (`Slot`): its direct slots, the slot of its indirect block, and
the words of that block.
-/
import Jos.Fs.Bitmap

namespace Jos

open Bytes

namespace Fs

/-! ### Fields -/

def fileSize (m : Mem) (f : ℕ) : ℕ := rd32 m (fSize f)
def fileType (m : Mem) (f : ℕ) : ℕ := rd32 m (fType f)
def direct (m : Mem) (f i : ℕ) : ℕ := rd32 m (fDirect f i)
def indirect (m : Mem) (f : ℕ) : ℕ := rd32 m (fIndirect f)

def blockWord (m : Mem) (b k : ℕ) : ℕ := rd32 m (b * blksize + 4 * k)

/-- The entry is in use; the root always is. -/
def Live (m : Mem) (f : ℕ) : Prop := f = sRoot ∨ m f ≠ 0
  deriving Decidable

def IsDir (m : Mem) (f : ℕ) : Prop := fileType m f = ftypeDir
instance (m : Mem) (f : ℕ) : Decidable (IsDir m f) := inferInstanceAs (Decidable (_ = _))

/-- The places for a `struct File`. -/
inductive Entry (m : Mem) : ℕ → Prop where
  | root : Entry m sRoot
  | entry {d i j : ℕ} : Entry m d → Live m d → IsDir m d → i < dirBlocks (fileSize m d) →
      i < ndirect → direct m d i ≠ 0 → j < blkfiles →
      Entry m (dirEntry (direct m d i * blksize) j)

def IsFile (m : Mem) (f : ℕ) : Prop := Entry m f ∧ Live m f

/-! ### Slots -/

/-- A place for a block number: direct slot `i` of file `f`, the slot for its
indirect block, and word `k` of that block. -/
inductive Slot where
  | direct (f i : ℕ)
  | indirect (f : ℕ)
  | entry (f k : ℕ)
deriving DecidableEq

namespace Slot

def file : Slot → ℕ
  | direct f _ => f
  | indirect f => f
  | entry f _ => f

/-- The slot is one of its file. -/
def Inner (m : Mem) : Slot → Prop
  | direct _ i => i < ndirect
  | indirect _ => True
  | entry f k => k < nindirect ∧ Fs.indirect m f ≠ 0

def Valid (m : Mem) (s : Slot) : Prop := IsFile m s.file ∧ s.Inner m

def val (m : Mem) : Slot → ℕ
  | direct f i => Fs.direct m f i
  | indirect f => Fs.indirect m f
  | entry f k => blockWord m (Fs.indirect m f) k

end Slot

/-- The block number is that of a block that a file may have. -/
def InRange (m : Mem) (b : ℕ) : Prop := firstBlock m ≤ b ∧ b < nblocks m
  deriving Decidable

/-- No slot has this block number. -/
def Unowned (m : Mem) (b : ℕ) : Prop := ∀ s : Slot, s.Valid m → s.val m ≠ b

structure Owned (m : Mem) : Prop where
  range : ∀ s : Slot, s.Valid m → s.val m ≠ 0 → InRange m (s.val m)
  used : ∀ s : Slot, s.Valid m → s.val m ≠ 0 → ¬ IsFree m (s.val m)
  single : ∀ s s' : Slot, s.Valid m → s'.Valid m → s.val m ≠ 0 → s.val m = s'.val m → s = s'

/-- An entry that is not in use is zero. -/
@[mk_iff]
structure Vacant (m : Mem) (f : ℕ) : Prop where
  size : fileSize m f = 0
  type : fileType m f = ftypeReg
  direct : ∀ i < ndirect, direct m f i = 0
  indirect : indirect m f = 0

instance (m : Mem) (f : ℕ) : Decidable (Vacant m f) := decidable_of_iff' _ (vacant_iff m f)

/-- A directory has the blocks its size says. -/
structure DirOk (m : Mem) (d : ℕ) : Prop where
  aligned : fileSize m d % blksize = 0
  small : dirBlocks (fileSize m d) ≤ ndirect
  blocks : ∀ i < ndirect, direct m d i ≠ 0 ↔ i < dirBlocks (fileSize m d)

/-- A well-formed file system. -/
structure FsInv (m : Mem) : Prop where
  sound : Sound m
  owned : Owned m
  vacant : ∀ f, Entry m f → ¬ Live m f → Vacant m f
  size : ∀ f, IsFile m f → fileSize m f ≤ maxfilesize
  dir : ∀ f, IsFile m f → IsDir m f → DirOk m f

/-! ### Where entries are -/

/-- An offset at which a `struct File` can start. -/
def Node (m : Mem) (f : ℕ) : Prop :=
  f = sRoot ∨ ∃ b j, InRange m b ∧ j < blkfiles ∧ f = dirEntry (b * blksize) j

section Nodes

variable {m m' : Mem} {f g a k : ℕ}

theorem FsInv.root (m : Mem) : IsFile m sRoot := ⟨.root, .inl rfl⟩

theorem inRange_congr (hn : nblocks m' = nblocks m) (b : ℕ) : InRange m' b ↔ InRange m b := by
  unfold InRange
  rw [firstBlock_congr hn, hn]

theorem Node.congr (hn : nblocks m' = nblocks m) (h : Node m f) : Node m' f := by
  simp only [Node, inRange_congr hn]
  exact h

theorem Entry.block (h : Entry m f) : f = sRoot ∨ ∃ d i j, IsFile m d ∧ IsDir m d ∧
    i < ndirect ∧ direct m d i ≠ 0 ∧ j < blkfiles ∧ f = dirEntry (direct m d i * blksize) j := by
  cases h with
  | root => exact .inl rfl
  | entry hd hl ht _ hi hb hj => exact .inr ⟨_, _, _, ⟨hd, hl⟩, ht, hi, hb, hj, rfl⟩

theorem Entry.node (h : Entry m f) (hown : Owned m) : Node m f := by
  rcases h.block with rfl | ⟨d, i, j, hd, -, hi, hb, hj, rfl⟩
  · exact .inl rfl
  · exact .inr ⟨_, j, hown.range (.direct d i) ⟨hd, hi⟩ hb, hj, rfl⟩

theorem firstBlock_ge (m : Mem) : 2 ≤ firstBlock m := Nat.le_add_right _ _

theorem Sound.first_gt (h : Sound m) : 3 ≤ firstBlock m := by
  have := h.first_le
  unfold firstBlock blkbitsize blksize at *
  omega

theorem dirEntry_div (b : ℕ) {j k : ℕ} (hj : j < blkfiles) (hk : k < 256) :
    (dirEntry (b * blksize) j + k) / blksize = b := by
  unfold dirEntry blkfiles blksize at *
  omega

theorem Node.bounds (h : Node m f) (hs : Sound m) :
    sRoot ≤ f ∧ (∀ k < 256, (f + k) / blksize = f / blksize) ∧ f / blksize < nblocks m ∧
      (f + 256 ≤ bitmapStart ∨ firstBlock m * blksize ≤ f) := by
  have h3 := hs.first_gt
  have hle := hs.first_le
  rcases h with rfl | ⟨b, j, hb, hj, rfl⟩
  · refine ⟨Nat.le_refl _, fun k hk => ?_, ?_, .inl ?_⟩
    · unfold sRoot blksize
      omega
    · show 1 < nblocks m
      omega
    · unfold sRoot bitmapStart blksize
      omega
  · have hdiv := dirEntry_div b hj (k := 0) (by omega)
    rw [Nat.add_zero] at hdiv
    obtain ⟨hlo, hhi⟩ := hb
    refine ⟨?_, fun k hk => ?_, ?_, .inr ?_⟩
    · unfold dirEntry sRoot blksize
      omega
    · rw [hdiv, dirEntry_div b hj hk]
    · rw [hdiv]
      exact hhi
    · exact Nat.le_trans (Nat.mul_le_mul_right _ hlo) (Nat.le_add_right _ _)

theorem Node.apart (hf : Node m f) (hg : Node m g) (hs : Sound m) (hne : f ≠ g) :
    f + 256 ≤ g ∨ g + 256 ≤ f := by
  have h3 := hs.first_gt
  rcases hf with rfl | ⟨b, j, hb, hj, rfl⟩
  · rcases hg with rfl | ⟨c, k, hc, hk, rfl⟩
    · exact absurd rfl hne
    · have := hc.1
      unfold dirEntry sRoot blksize
      omega
  · have := hb.1
    rcases hg with rfl | ⟨c, k, hc, hk, rfl⟩
    · unfold dirEntry sRoot blksize
      omega
    · have := hc.1
      unfold dirEntry blksize at *
      omega

theorem Node.inDisk (h : Node m f) (hs : Sound m) (hk : k < 256) : InDisk m (f + k) := by
  obtain ⟨-, hdiv, hlt, -⟩ := h.bounds hs
  unfold InDisk
  rw [hdiv k hk]
  exact hlt

def NodeEq (m m' : Mem) (f : ℕ) : Prop := ∀ k < 256, m' (f + k) = m (f + k)

def BlockEq (m m' : Mem) (b : ℕ) : Prop := ∀ o < blksize, m' (b * blksize + o) = m (b * blksize + o)

section

variable (h : NodeEq m m' f)
include h

theorem NodeEq.rd32 (hk : k + 4 ≤ 256) : Bytes.rd32 m' (f + k) = Bytes.rd32 m (f + k) := by
  refine rd32_congr fun b hlo hhi => ?_
  have := h (b - f) (by omega)
  rwa [Nat.add_sub_cancel' (by omega)] at this

theorem NodeEq.size : fileSize m' f = fileSize m f := h.rd32 (by omega)

theorem NodeEq.type : fileType m' f = fileType m f := h.rd32 (by omega)

theorem NodeEq.direct {i : ℕ} (hi : i < ndirect) : Fs.direct m' f i = Fs.direct m f i := by
  have := h.rd32 (k := 136 + 4 * i) (by unfold ndirect at hi; omega)
  rwa [← Nat.add_assoc] at this

theorem NodeEq.indirect : Fs.indirect m' f = Fs.indirect m f := h.rd32 (by omega)

theorem NodeEq.live : Live m' f ↔ Live m f := by
  unfold Live
  rw [show m' f = m f from h 0 (by omega)]

theorem NodeEq.vacant (hv : Vacant m f) : Vacant m' f :=
  ⟨h.size.trans hv.size, h.type.trans hv.type, fun i hi => (h.direct hi).trans (hv.direct i hi),
    h.indirect.trans hv.indirect⟩

end

theorem BlockEq.word (h : BlockEq m m' a) (hk : k < nindirect) :
    blockWord m' a k = blockWord m a k := by
  refine rd32_congr fun b hlo hhi => ?_
  have hle : a * blksize ≤ b := Nat.le_trans (Nat.le_add_right _ _) hlo
  have := h (b - a * blksize) (by unfold nindirect blksize at *; omega)
  rwa [Nat.add_sub_cancel' hle] at this

end Nodes

/-! ### Operations on one file -/

section Congr

variable {m m' : Mem} {g : ℕ}

theorem Entry.congr (h : ∀ g, Entry m g → (Live m' g ∧ IsDir m' g ↔ Live m g ∧ IsDir m g) ∧
    (Live m g → IsDir m g →
      fileSize m' g = fileSize m g ∧ ∀ i < ndirect, direct m' g i = direct m g i)) :
    Entry m' g ↔ Entry m g := by
  constructor
  · intro hg
    induction hg with
    | root => exact .root
    | @entry d i j _ hl ht hi hi' hb hj ih =>
      obtain ⟨hiff, hsame⟩ := h d ih
      obtain ⟨hl', ht'⟩ := hiff.mp ⟨hl, ht⟩
      obtain ⟨hsize, hdirect⟩ := hsame hl' ht'
      rw [hdirect i hi'] at hb ⊢
      rw [hsize] at hi
      exact .entry ih hl' ht' hi hi' hb hj
  · intro hg
    induction hg with
    | root => exact .root
    | @entry d i j hd hl ht hi hi' hb hj ih =>
      obtain ⟨hiff, hsame⟩ := h d hd
      obtain ⟨hl', ht'⟩ := hiff.mpr ⟨hl, ht⟩
      obtain ⟨hsize, hdirect⟩ := hsame hl ht
      rw [← hdirect i hi'] at hb ⊢
      rw [← hsize] at hi
      exact .entry ih hl' ht' hi hi' hb hj

end Congr

/-- The slot's block holds no entries. -/
def Slot.Plain (m : Mem) : Slot → Prop
  | direct f _ => ¬ IsDir m f
  | _ => True

/-- What an operation on file `f` leaves alone: the other entries, the blocks
of the other files, that these are in use, and the name and type of `f`. -/
structure Only (m m' : Mem) (f : ℕ) : Prop where
  nblocks : nblocks m' = nblocks m
  node : ∀ g, Entry m g → g ≠ f → NodeEq m m' g
  block : ∀ s : Slot, s.Valid m → s.file ≠ f → s.Plain m → s.val m ≠ 0 → BlockEq m m' (s.val m)
  used : ∀ s : Slot, s.Valid m → s.file ≠ f → s.val m ≠ 0 → ¬ IsFree m' (s.val m)
  reserved : ∀ b < firstBlock m, ¬ IsFree m' b
  name : ∀ k < maxnamelen, m' (f + k) = m (f + k)
  type : fileType m' f = fileType m f

namespace Only

variable {m m' : Mem} {f g : ℕ} {s : Slot}

section

variable (h : Only m m' f)
include h

theorem live (hg : Entry m g) : Live m' g ↔ Live m g := by
  by_cases hgf : g = f
  · subst hgf
    unfold Live
    rw [show m' g = m g from h.name 0 (by decide)]
  · exact (h.node g hg hgf).live

theorem fileType (hg : Entry m g) : fileType m' g = fileType m g := by
  by_cases hgf : g = f
  · subst hgf
    exact h.type
  · exact (h.node g hg hgf).type

theorem isDir (hg : Entry m g) : IsDir m' g ↔ IsDir m g := by
  unfold IsDir
  rw [h.fileType hg]

theorem entry (hreg : ¬ IsDir m f) (g : ℕ) : Entry m' g ↔ Entry m g := by
  refine Entry.congr fun g hg => ⟨and_congr (h.live hg) (h.isDir hg), fun _ hd => ?_⟩
  have hgf : g ≠ f := by
    rintro rfl
    exact hreg hd
  exact ⟨(h.node g hg hgf).size, fun i hi => (h.node g hg hgf).direct hi⟩

theorem isFile (hreg : ¬ IsDir m f) (g : ℕ) : IsFile m' g ↔ IsFile m g := by
  constructor
  · rintro ⟨he, hl⟩
    have he' := (h.entry hreg g).mp he
    exact ⟨he', (h.live he').mp hl⟩
  · rintro ⟨he, hl⟩
    exact ⟨(h.entry hreg g).mpr he, (h.live he).mpr hl⟩

theorem still (hf : IsFile m f) (hreg : ¬ IsDir m f) : IsFile m' f ∧ ¬ IsDir m' f :=
  ⟨(h.isFile hreg f).mpr hf, fun hc => hreg ((h.isDir hf.1).mp hc)⟩

theorem inner (hs : IsFile m s.file) (hne : s.file ≠ f) : s.Inner m' ↔ s.Inner m := by
  cases s with
  | direct g i => exact Iff.rfl
  | indirect g => exact Iff.rfl
  | entry g k =>
    show k < nindirect ∧ Fs.indirect m' g ≠ 0 ↔ k < nindirect ∧ Fs.indirect m g ≠ 0
    rw [(h.node g hs.1 hne).indirect]

theorem val (hs : s.Valid m) (hne : s.file ≠ f) : s.val m' = s.val m := by
  obtain ⟨hfile, hin⟩ := hs
  have hnode := h.node s.file hfile.1 hne
  cases s with
  | direct g i => exact hnode.direct hin
  | indirect g => exact hnode.indirect
  | entry g k =>
    have hind : indirect m' g = indirect m g := hnode.indirect
    have hblock := h.block (.indirect g) ⟨hfile, trivial⟩ hne trivial hin.2
    show blockWord m' (indirect m' g) k = blockWord m (indirect m g) k
    rw [hind]
    exact hblock.word hin.1

theorem valid (hreg : ¬ IsDir m f) (hne : s.file ≠ f) : s.Valid m' ↔ s.Valid m := by
  constructor
  · rintro ⟨hfile, hin⟩
    have hfile' := (h.isFile hreg _).mp hfile
    exact ⟨hfile', (h.inner hfile' hne).mp hin⟩
  · rintro ⟨hfile, hin⟩
    exact ⟨(h.isFile hreg _).mpr hfile, (h.inner hfile hne).mpr hin⟩

theorem firstBlock : firstBlock m' = firstBlock m := firstBlock_congr h.nblocks

theorem sound (hs : Sound m) : Sound m' := hs.congr h.nblocks h.reserved

end

end Only

/-- The slots of `f` after an operation: each has the number it had, or it is
`s₀` and has the number of a block that was in no slot. -/
structure SlotsFrom (m m' : Mem) (f : ℕ) (s₀ : Slot) : Prop where
  used : ∀ s : Slot, s.file = f → s.Inner m' → s.val m' ≠ 0 → ¬ IsFree m' (s.val m')
  kept : ∀ s : Slot, s.file = f → s.Inner m' → s.val m' ≠ 0 →
    (s.Inner m ∧ s.val m = s.val m') ∨ (s = s₀ ∧ InRange m (s.val m') ∧ Unowned m (s.val m'))

theorem Owned.of_kept {m m' : Mem} (h : Owned m) (s₀ : Slot)
    (hrange : ∀ b, InRange m' b ↔ InRange m b)
    (hused : ∀ s : Slot, s.Valid m' → s.val m' ≠ 0 → ¬ IsFree m' (s.val m'))
    (hkept : ∀ s : Slot, s.Valid m' → s.val m' ≠ 0 → (s.Valid m ∧ s.val m = s.val m') ∨
      (s = s₀ ∧ InRange m (s.val m') ∧ Unowned m (s.val m'))) : Owned m' := by
  refine ⟨fun s hs hv => ?_, hused, fun s s' hs hs' hv heq => ?_⟩
  · rw [hrange]
    rcases hkept s hs hv with ⟨hs₁, hval⟩ | ⟨-, hr, -⟩
    · rw [← hval] at hv ⊢
      exact h.range s hs₁ hv
    · exact hr
  · rcases hkept s hs hv with ⟨hs₁, hval⟩ | ⟨rfl, -, hun⟩
    · rcases hkept s' hs' (heq ▸ hv) with ⟨hs₁', hval'⟩ | ⟨rfl, -, hun⟩
      · exact h.single s s' hs₁ hs₁' (hval ▸ hv) (by rw [hval, hval', heq])
      · exact absurd (hval.trans heq) (hun s hs₁)
    · rcases hkept s' hs' (heq ▸ hv) with ⟨hs₁', hval'⟩ | ⟨rfl, -⟩
      · exact absurd (hval'.trans heq.symm) (hun s' hs₁')
      · rfl

theorem Owned.only {m m' : Mem} {f : ℕ} {s₀ : Slot} (h : Owned m) (ho : Only m m' f)
    (hf : IsFile m f) (hreg : ¬ IsDir m f) (hslots : SlotsFrom m m' f s₀) : Owned m' := by
  refine h.of_kept s₀ (inRange_congr ho.nblocks) (fun s hs hv => ?_) fun s hs hv => ?_
  · by_cases hsf : s.file = f
    · exact hslots.used s hsf hs.2 hv
    · have hs₁ := (ho.valid hreg hsf).mp hs
      rw [ho.val hs₁ hsf] at hv ⊢
      exact ho.used s hs₁ hsf hv
  · by_cases hsf : s.file = f
    · rcases hslots.kept s hsf hs.2 hv with ⟨hin, hval⟩ | hnew
      · exact .inl ⟨⟨hsf ▸ hf, hin⟩, hval⟩
      · exact .inr hnew
    · have hs₁ := (ho.valid hreg hsf).mp hs
      exact .inl ⟨hs₁, (ho.val hs₁ hsf).symm⟩

theorem FsInv.only {m m' : Mem} {f : ℕ} {s₀ : Slot} (h : FsInv m) (ho : Only m m' f)
    (hf : IsFile m f) (hreg : ¬ IsDir m f) (hsize : fileSize m' f ≤ maxfilesize)
    (hslots : SlotsFrom m m' f s₀) : FsInv m' := by
  refine ⟨ho.sound h.sound, h.owned.only ho hf hreg hslots, fun g hg hl => ?_, fun g hg => ?_,
    fun g hg hd => ?_⟩
  · have hg' := (ho.entry hreg g).mp hg
    have hl' : ¬ Live m g := fun hc => hl ((ho.live hg').mpr hc)
    have hgf : g ≠ f := by
      rintro rfl
      exact hl' hf.2
    exact (ho.node g hg' hgf).vacant (h.vacant g hg' hl')
  · have hg' := (ho.isFile hreg g).mp hg
    by_cases hgf : g = f
    · rw [hgf]
      exact hsize
    · rw [(ho.node g hg'.1 hgf).size]
      exact h.size g hg'
  · have hg' := (ho.isFile hreg g).mp hg
    have hd' := (ho.isDir hg'.1).mp hd
    have hgf : g ≠ f := by
      rintro rfl
      exact hreg hd'
    have hn := ho.node g hg'.1 hgf
    obtain ⟨hal, hsm, hbl⟩ := h.dir g hg' hd'
    rw [← hn.size] at hal hsm hbl
    refine ⟨hal, hsm, fun i hi => ?_⟩
    rw [hn.direct hi]
    exact hbl i hi

end Fs

end Jos
