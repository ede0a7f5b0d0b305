/-
Calls that should leave the disk as it is: reading, looking up, and writing
when it fails.

The loops of `file_read`, `file_write` and `dir_lookup` go through
`file_get_block`, which allocates a block for an empty slot.

* `reading_leaves_disk`, `read_of_hole_allocates` — reading and opening, with
  and without holes, in any state;
* `failed_write_leaves_disk`, `failed_write_resizes` — writing with too few free
  blocks.
-/
import Jos.Fs.Contents

namespace Jos

open Prog Bytes

namespace Fs

open Fs.Demo

/-- The slot that `file_block_walk` finds, without allocating. -/
def slotAddr (m : Mem) (f i : ℕ) : Option ℕ :=
  if i < ndirect then some (fDirect f i)
  else if i < ndirect + nindirect ∧ indirect m f ≠ 0 then some (fIndirect f + 4 * (i - ndirect))
  else none

/-- There is a block number in the slot, or the block is out of range. -/
def Filled (m : Mem) (f i : ℕ) : Prop :=
  ndirect + nindirect ≤ i ∨ ∃ slot, slotAddr m f i = some slot ∧ rd32 m slot ≠ 0

/-- An entry of a block of the directory. -/
def Listed (m : Mem) (d g : ℕ) : Prop := ∃ i < dirBlocks (fileSize m d), ∃ slot,
  slotAddr m d i = some slot ∧ ∃ j < blkfiles, g = dirEntry (rd32 m slot * blksize) j

/-- Resolving the path comes to the entry, with `rest` of the path to go. -/
inductive Comes (m : Mem) (path : List UInt8) : ℕ → List UInt8 → Prop where
  | root : Comes m path sRoot (skipSlash path)
  | entry {d g : ℕ} {rest : List UInt8} : Comes m path d rest → Listed m d g →
      named (rest.takeWhile (· != slash)) m g = true →
      Comes m path g (skipSlash (rest.dropWhile (· != slash)))

/-- No directory that is searched for a name of the path has a hole. -/
def PathFilled (m : Mem) (path : List UInt8) : Prop := ∀ d rest, Comes m path d rest →
  rest ≠ [] → IsDir m d → ∀ i < dirBlocks (fileSize m d), Filled m d i

/-- The end of the loop of `file_read`. -/
def readLast (m : Mem) (f count offset : ℕ) : ℕ :=
  u32 (offset + min count (u32 (toInt32 (fileSize m f) - toInt32 offset)))

/-- The program ends in the state it started in, and returns only what
satisfies `Q`. -/
def Quiet {α : Type} (p : FsM α) (m : Mem) (Q : α → Prop) : Prop :=
  wp p (fun a m' => m' = m ∧ Q a) (fun _ m' => m' = m) m

section Quiet

variable {α β : Type} {m : Mem} {p : FsM α} {Q : α → Prop}

theorem Quiet.pure {a : α} (h : Q a) : Quiet (Pure.pure a) m Q := ⟨rfl, h⟩

theorem Quiet.halt {e : FsStop} : Quiet (Prog.halt e : FsM α) m Q := wp_halt.mpr rfl

theorem Quiet.bind {f : α → FsM β} {Q' : β → Prop} (h : Quiet p m Q)
    (hf : ∀ a, Q a → Quiet (f a) m Q') : Quiet (p >>= f) m Q' := by
  rw [Quiet, wp_bind]
  refine h.imp ?_
  rintro a m' ⟨rfl, ha⟩
  exact hf a ha

theorem Quiet.mono {Q' : α → Prop} (h : Quiet p m Q) (hq : ∀ a, Q a → Q' a) : Quiet p m Q' :=
  wp.mono h (fun a _ hc => ⟨hc.1, hq a hc.2⟩) fun _ _ hc => hc

theorem Quiet.state (h : Quiet p m Q) : (p m).state = m := by
  have hs : wp p (fun _ m' => m' = m) (fun _ m' => m' = m) m :=
    wp.mono h (fun _ _ hc => hc.1) fun _ _ hc => hc
  exact hs.state

theorem Quiet.ret {a : α} {m' : Mem} (h : Quiet p m Q) (hp : p m = .ret a m') : Q a :=
  (wp.ret h hp).2

theorem Quiet.when {c : Prop} [Decidable c] {p : FsM Unit} (h : c → Quiet p m fun _ => True) :
    Quiet (Prog.when c p) m fun _ => True := by
  rw [Quiet, wp_when]
  exact ⟨h, fun _ => ⟨rfl, trivial⟩⟩

theorem touch_quiet (a : ℕ) : Quiet (touch a) m fun _ => True := by
  rw [Quiet, touch, wp_bind, wp_get]
  exact Quiet.when fun _ => Quiet.halt

theorem load32_quiet (a : ℕ) : Quiet (load32 a) m fun v => v = rd32 m a :=
  (touch_quiet a).bind fun _ _ => ⟨rfl, rfl⟩

theorem diskaddr_quiet (b : ℕ) : Quiet (diskaddr b) m fun a => a = b * blksize := by
  refine (load32_quiet _).bind fun n _ => ?_
  split
  · exact Quiet.halt
  · exact Quiet.pure rfl

end Quiet

section Read

variable {m : Mem} {f i count offset : ℕ}

theorem fileBlockWalk_quiet (h : ndirect + nindirect ≤ i ∨ (∃ slot, slotAddr m f i = some slot) ∨
      Quiet allocBlock m fun r => r < 0) :
    Quiet (fileBlockWalk f i true) m fun r => (∃ e, r = .error e ∧ slotAddr m f i = none ∧
      (e = -eNoDisk → i < ndirect + nindirect)) ∨ ∃ slot, slotAddr m f i = some slot ∧ r = .ok slot := by
  rw [fileBlockWalk]
  by_cases hd : i < ndirect
  · rw [if_pos hd]
    exact Quiet.pure (.inr ⟨_, if_pos hd, rfl⟩)
  · rw [if_neg hd]
    by_cases hr : i < ndirect + nindirect
    · rw [if_pos hr]
      refine (load32_quiet _).bind ?_
      rintro _ rfl
      by_cases hind : indirect m f = 0
      · have hno : slotAddr m f i = none := by rw [slotAddr, if_neg hd, if_neg fun hc => hc.2 hind]
        have hind' : ¬ rd32 m (fIndirect f) ≠ 0 := not_not.mpr hind
        have halloc : Quiet allocBlock m fun r => r < 0 := by
          rcases h with hc | ⟨slot, hc⟩ | hc
          · omega
          · rw [hno] at hc
            cases hc
          · exact hc
        rw [if_neg hind', if_pos rfl]
        refine halloc.bind fun r hlt => ?_
        rw [if_pos hlt]
        exact Quiet.pure (.inl ⟨_, rfl, hno, fun _ => hr⟩)
      · have hind' : rd32 m (fIndirect f) ≠ 0 := hind
        rw [if_pos hind']
        refine Quiet.pure (.inr ⟨_, ?_, rfl⟩)
        rw [slotAddr, if_neg hd, if_pos ⟨hr, hind⟩]
    · rw [if_neg hr]
      refine Quiet.pure (.inl ⟨_, rfl, ?_, fun hc => absurd hc (by decide)⟩)
      rw [slotAddr, if_neg hd, if_neg fun hc => hr hc.1]

theorem fileGetBlock_quiet (h : Filled m f i) :
    Quiet (fileGetBlock f i) m fun r => (∃ e, r = .error e ∧ e ≠ -eNoDisk) ∨
      ∃ slot, slotAddr m f i = some slot ∧ r = .ok (rd32 m slot * blksize) := by
  have hwalk : ndirect + nindirect ≤ i ∨ ∃ slot, slotAddr m f i = some slot := by
    rcases h with hr | ⟨slot, hs, -⟩
    · exact .inl hr
    · exact .inr ⟨slot, hs⟩
  refine (fileBlockWalk_quiet (hwalk.imp_right .inl)).bind ?_
  rintro _ (⟨e, rfl, hno, he⟩ | ⟨slot, hslot, rfl⟩)
  · refine Quiet.pure (.inl ⟨e, rfl, fun hc => ?_⟩)
    rcases hwalk with hr | ⟨slot, hs⟩
    · have := he hc
      omega
    · rw [hno] at hs
      cases hs
  · have hv : rd32 m slot ≠ 0 := by
      rcases h with hr | ⟨slot', hs', hv⟩
      · have hno : slotAddr m f i = none := by
          rw [slotAddr, if_neg (by omega), if_neg fun hc => by omega]
        rw [hno] at hslot
        cases hslot
      · rw [hslot] at hs'
        cases hs'
        exact hv
    refine (load32_quiet slot).bind ?_
    rintro _ rfl
    rw [if_neg hv]
    refine (diskaddr_quiet _).bind ?_
    rintro _ rfl
    exact Quiet.pure (.inr ⟨slot, hslot, rfl⟩)

theorem fileGetBlock_fails (h : ¬ Filled m f i) (hfull : Quiet allocBlock m fun r => r < 0) :
    Quiet (fileGetBlock f i) m fun r => ∃ e, r = .error e := by
  refine (fileBlockWalk_quiet (.inr (.inr hfull))).bind ?_
  rintro _ (⟨e, rfl, -⟩ | ⟨slot, hslot, rfl⟩)
  · exact Quiet.pure ⟨e, rfl⟩
  · have hv : rd32 m slot = 0 := by
      by_contra hv
      exact h (.inr ⟨slot, hslot, hv⟩)
    refine (load32_quiet slot).bind ?_
    rintro _ rfl
    rw [if_pos hv]
    refine hfull.bind fun r hlt => ?_
    rw [if_pos hlt]
    exact Quiet.pure ⟨r, rfl⟩

theorem chunk_next {pos last : ℕ} (hlt : pos < last) (hlast : last < 2 ^ 32) :
    u32 (pos + chunk pos last) ≤ last ∧ pos ≤ u32 (pos + chunk pos last) := by
  have hle : chunk pos last ≤ last - pos := by
    refine Nat.le_trans (Nat.min_le_right _ _) (Nat.le_of_eq ?_)
    unfold u32
    omega
  unfold u32
  omega

theorem readLoop_quiet (last : ℕ) (hlast : last < 2 ^ 32) : ∀ n pos,
    (∀ p, pos ≤ p → p < last → Filled m f (posBlock p)) →
    Quiet (readLoop f last n pos) m fun r => r ≠ .error (-eNoDisk) := by
  intro n
  induction n with
  | zero =>
    intro pos _
    exact Quiet.halt
  | succ n ih =>
    intro pos hall
    rw [readLoop]
    by_cases hlt : pos < last
    · rw [if_pos hlt]
      refine (fileGetBlock_quiet (hall pos (Nat.le_refl _) hlt)).bind ?_
      rintro _ (⟨e, rfl, he⟩ | ⟨slot, -, rfl⟩)
      · exact Quiet.pure fun hc => he (Except.error.inj hc)
      · have hnext := chunk_next hlt hlast
        refine Quiet.bind (Q := fun _ => True) ⟨rfl, trivial⟩ fun here _ => ?_
        refine (ih _ fun p hp hp' => hall p (by omega) hp').bind fun rest hrest => ?_
        cases rest with
        | error e => exact Quiet.pure hrest
        | ok data => exact Quiet.pure (by intro hc; cases hc)
    · rw [if_neg hlt]
      exact Quiet.pure (by intro hc; cases hc)

theorem fileRead_quiet (h : ∀ p, offset ≤ p → p < readLast m f count offset → Filled m f (posBlock p)) :
    Quiet (fileRead f count offset) m fun r => r ≠ .error (-eNoDisk) := by
  refine (load32_quiet _).bind ?_
  rintro _ rfl
  split
  · exact Quiet.pure (by intro hc; cases hc)
  · refine readLoop_quiet (readLast m f count offset) ?_ _ _ h
    unfold readLast u32
    omega

end Read

section Walk

variable {m : Mem} {path : List UInt8}

theorem dirScan_quiet {d : ℕ} (h : ∀ i < dirBlocks (fileSize m d), Filled m d i)
    (test : Mem → ℕ → Bool) : ∀ n i, i + n ≤ dirBlocks (fileSize m d) →
    Quiet (dirScan d test n i) m fun r => ∀ g, r = .ok (some g) → Listed m d g ∧ test m g = true := by
  intro n
  induction n with
  | zero =>
    intro i _
    exact Quiet.pure fun g hg => by cases hg
  | succ n ih =>
    intro i hi
    rw [dirScan]
    refine (fileGetBlock_quiet (h i (by omega))).bind ?_
    rintro _ (⟨e, rfl, -⟩ | ⟨slot, hslot, rfl⟩)
    · exact Quiet.pure fun g hg => by cases hg
    · refine Quiet.bind (Q := fun s => m = s) ⟨rfl, rfl⟩ ?_
      rintro _ rfl
      cases hfind : (List.range blkfiles).find? fun j => test m (dirEntry (rd32 m slot * blksize) j) with
      | none => exact ih (i + 1) (by omega)
      | some j =>
        refine Quiet.pure ?_
        rintro g ⟨⟩
        have hj : j < blkfiles := List.mem_range.mp (List.mem_of_find?_eq_some hfind)
        have htest := List.find?_some hfind
        exact ⟨⟨i, by omega, slot, hslot, j, hj, rfl⟩, htest⟩

theorem dirLookup_quiet {d : ℕ} (h : ∀ i < dirBlocks (fileSize m d), Filled m d i)
    (name : List UInt8) :
    Quiet (dirLookup d name) m fun r => ∀ g, r = .ok g → Listed m d g ∧ named name m g = true := by
  refine (load32_quiet _).bind ?_
  rintro _ rfl
  refine (Quiet.when fun _ => Quiet.halt).bind fun _ _ => ?_
  refine (dirScan_quiet h (named name) _ 0 (by rw [Nat.zero_add]; exact Nat.le_refl _)).bind
    fun found hfound => ?_
  cases found with
  | error e => exact Quiet.pure fun g hg => by cases hg
  | ok r =>
    cases r with
    | none => exact Quiet.pure fun g hg => by cases hg
    | some f =>
      refine Quiet.pure ?_
      rintro g ⟨⟩
      exact hfound f rfl

theorem walkLoop_quiet (h : PathFilled m path) : ∀ n dir f rest, Comes m path f rest →
    Quiet (walkLoop n dir f rest) m fun _ => True := by
  intro n
  induction n with
  | zero =>
    intro dir f rest _
    exact Quiet.pure trivial
  | succ n ih =>
    intro dir f rest hf
    rw [walkLoop]
    split
    · exact Quiet.pure trivial
    next hne =>
      show Quiet (if _ then _ else _) m _
      split
      · exact Quiet.pure trivial
      · refine (load32_quiet _).bind ?_
        rintro _ rfl
        by_cases hdir : IsDir m f
        · have hdir' : ¬ rd32 m (fType f) ≠ ftypeDir := not_not.mpr hdir
          rw [if_neg hdir']
          refine (dirLookup_quiet (h f rest hf hne hdir) _).bind fun found hfound => ?_
          cases found with
          | ok g => exact ih _ _ _ (hf.entry (hfound g rfl).1 (hfound g rfl).2)
          | error r =>
            show Quiet (if _ then _ else _) m _
            split
            · exact Quiet.pure trivial
            · exact Quiet.pure trivial
        · have hdir' : rd32 m (fType f) ≠ ftypeDir := hdir
          rw [if_pos hdir']
          exact Quiet.pure trivial

theorem walkPath_quiet (h : PathFilled m path) :
    Quiet (walkPath path) m fun _ => True := walkLoop_quiet h _ _ _ _ .root

theorem fileOpen_quiet (h : PathFilled m path) : Quiet (fileOpen path) m fun _ => True := by
  refine (walkPath_quiet h).bind fun w _ => ?_
  cases w.file with
  | none => exact Quiet.pure trivial
  | some f => exact Quiet.pure trivial

/-- The call leaves the disk as it is, and does not fail for lack of space. -/
def ReadsOnly (m : Mem) (f count offset : ℕ) : Prop := (fileRead f count offset m).state = m ∧
  ∀ m', fileRead f count offset m ≠ .ret (.error (-eNoDisk)) m'

theorem readsOnly_iff {f count offset : ℕ} (h : FsInv m) (hf : IsFile m f) (hreg : ¬ IsDir m f)
    (hoff : offset < 2 ^ 31)
    (hend : offset < fileSize m f → readEnd m f count offset ≤ ndirect * blksize) :
    ReadsOnly m f count offset ↔
      ∀ p, offset ≤ p → p < readEnd m f count offset → direct m f (p / blksize) ≠ 0 := by
  constructor
  · rintro ⟨hstate, hok⟩
    obtain ⟨r, m', hret, -, -, hdata, herr⟩ :=
      (wp_fileRead (fun _ => 0) h hf hreg hoff hend).exists_ret
    rw [hret] at hstate
    obtain rfl : m' = m := hstate
    cases r with
    | error e => exact absurd hret (herr e rfl ▸ hok m')
    | ok data => exact (hdata data rfl).2
  · intro hall
    have heq := fileRead_full h hf hoff hend hall
    refine ⟨by rw [heq]; rfl, fun m' hc => ?_⟩
    rw [heq] at hc
    cases hc

theorem Demo.comes {d : ℕ} {rest : List UInt8} (h : Comes image [97] d rest) :
    d = sRoot ∧ rest = [97] ∨ rest = [] := by
  induction h with
  | root => exact .inl ⟨rfl, rfl⟩
  | entry _ _ _ ih =>
    rcases ih with ⟨-, rfl⟩ | rfl
    · exact .inr rfl
    · exact .inr rfl

theorem Demo.pathFilled : PathFilled image [97] := by
  intro d rest hd hne _ i hi
  obtain ⟨rfl, -⟩ := (comes hd).resolve_right hne
  rw [root.size] at hi
  obtain rfl : i = 0 := Nat.lt_one_iff.mp hi
  refine .inr ⟨fDirect sRoot 0, rfl, ?_⟩
  rw [show rd32 image (fDirect sRoot 0) = 3 from root.zero]
  decide

end Walk

/-! ### Failed writes -/

section Write

variable {m : Mem} {f count offset : ℕ} {buf : ℕ → UInt8}

/-- The first block of the write is not to be had. -/
def FirstFails (m : Mem) (f offset : ℕ) : Prop :=
  ndirect + nindirect ≤ posBlock offset ∨ (¬ Filled m f (posBlock offset) ∧ ∀ c, ¬ IsFree m c)

theorem fileGetBlock_firstFails (hs : Sound m) (h : FirstFails m f offset) :
    Quiet (fileGetBlock f (posBlock offset)) m fun r => ∃ e, r = .error e := by
  rcases h with hr | ⟨hno, hfull⟩
  · refine (fileGetBlock_quiet (.inl hr)).mono ?_
    rintro r (⟨e, he, -⟩ | ⟨slot, hslot, -⟩)
    · exact ⟨e, he⟩
    · rw [slotAddr, if_neg (by omega), if_neg fun hc => by omega] at hslot
      cases hslot
  · refine fileGetBlock_fails hno ?_
    rcases allocBlock_cases hs with ⟨heq, -⟩ | ⟨b, hb, -⟩
    · rw [Quiet, wp_of_ret heq]
      exact ⟨rfl, by decide⟩
    · exact absurd hb (hfull b)

theorem fileWrite_quiet (hs : Sound m) (hsize : u32 (offset + count) ≤ fileSize m f)
    (h : u32 (offset + count) ≤ offset ∨ FirstFails m f offset) :
    Quiet (fileWrite f buf count offset) m fun _ => True := by
  refine (load32_quiet _).bind ?_
  rintro _ rfl
  have hno : ¬ u32 (offset + count) > rd32 m (Jos.fSize f) := Nat.not_lt.mpr hsize
  refine Quiet.bind (Q := fun _ => True) (Quiet.when fun hc => absurd hc hno) fun _ _ => ?_
  have hloop : Quiet (writeLoop f (u32 (offset + count)) buf maxRounds offset 0) m fun _ => True := by
    show Quiet (writeLoop f _ buf (maxRounds - 1 + 1) offset 0) m _
    rw [writeLoop]
    by_cases hlt : offset < u32 (offset + count)
    · rw [if_pos hlt]
      refine (fileGetBlock_firstFails hs (h.resolve_left (Nat.not_le.mpr hlt))).bind ?_
      rintro _ ⟨e, rfl⟩
      exact Quiet.pure trivial
    · rw [if_neg hlt]
      exact Quiet.pure trivial
  refine hloop.bind fun r _ => ?_
  cases r with
  | none => exact Quiet.pure trivial
  | some r => exact Quiet.pure trivial

/-- If the write fails, the file is as it was, and no block stays allocated. -/
def FailsClean (m : Mem) (f : ℕ) (buf : ℕ → UInt8) (count offset : ℕ) : Prop :=
  ∀ r m', fileWrite f buf count offset m = .ret r m' → r < 0 → fileSize m' f = fileSize m f ∧
    (∀ p < fileSize m f, byteAt m' f p = byteAt m f p) ∧ ∀ c, IsFree m c → IsFree m' c

/-- There are no free blocks, and the bytes of the range in front of the first hole
are already those of the buffer. -/
def NothingNew (m : Mem) (f : ℕ) (buf : ℕ → UInt8) (count offset : ℕ) : Prop :=
  (∀ c, ¬ IsFree m c) ∧ ∀ p, offset ≤ p → p < offset + count →
    (∀ q, offset ≤ q → q ≤ p → direct m f (q / blksize) ≠ 0) → m (posAddr m f p) = buf (p - offset)

theorem byteAt_direct {p : ℕ} (hp : p < ndirect * blksize) (hv : direct m f (p / blksize) ≠ 0) :
    byteAt m f p = m (posAddr m f p) := by
  rw [byteAt, blockAt_direct (pos_div_lt hp), if_neg hv]
  rfl

theorem Written.enough {m' : Mem} {lo hi n : ℕ} {val : ℕ → UInt8}
    (hw : Written (grown m f n) m' f lo hi val) (h : FsInv m) (hf : IsFile m f) (hf' : IsFile m' f)
    (hlt : lo < hi) : Enough m f (blocksOf lo hi) := by
  have hfilled : ∀ i ∈ blocksOf lo hi, direct m' f i ≠ 0 := by
    intro i hi
    obtain ⟨-, hlo, hhi⟩ := mem_blocksOf.mp hi
    have hdiv : max lo (i * blksize) / blksize = i := by
      unfold blksize at *
      omega
    exact hdiv ▸ (hw.inside (max lo (i * blksize)) (Nat.le_max_left _ _) (by omega)).1
  refine Finset.card_le_card_of_injOn (direct m' f) (fun i hi => ?_) fun i hi j hj heq => ?_
  · obtain ⟨hmem, hz⟩ := mem_holes.mp hi
    have hslot := hw.slots i (blocksOf_lt hmem)
    rw [grown_direct, grown_free h hf] at hslot
    exact mem_freeBlocks.mpr (hslot.resolve_left fun hc => hfilled i hmem (hc.trans hz)).2
  · have hi := (mem_holes.mp hi).1
    have hj := (mem_holes.mp hj).1
    have hs := hw.inv.owned.single (.direct f i) (.direct f j) ⟨hf', blocksOf_lt hi⟩
      ⟨hf', blocksOf_lt hj⟩ (hfilled i hi) heq
    cases hs
    rfl

theorem failsClean_iff (h : FsInv m) (hf : IsFile m f) (hreg : ¬ IsDir m f)
    (hlast : offset + count ≤ ndirect * blksize) :
    FailsClean m f buf count offset ↔ count = 0 ∨ Enough m f (blocksOf offset (offset + count)) ∨
      offset + count ≤ fileSize m f ∧ NothingNew m f buf count offset := by
  have hmax := (maxfilesize_ge hlast).1
  have hrun : wp (fileWrite f buf count offset) _ _ m := wp_fileWrite h hf hreg hlast
  obtain ⟨r, m', hret, hi, hlo, hhi, hw, hr, -⟩ := hrun.exists_ret
  have hsize : fileSize m' f = max (fileSize m f) (offset + count) := hw.size.trans (grown_size hmax)
  have hsame : (∀ c, ¬ IsFree m c) → ∀ i < ndirect, direct m' f i = direct m f i := by
    intro hnone i hi
    have hslot := hw.slots i hi
    rw [grown_direct, grown_free h hf] at hslot
    exact hslot.resolve_right fun hc => hnone _ hc.2
  constructor
  · intro hclean
    rcases hr with ⟨-, rfl⟩ | ⟨hneg, hlt, hz, hnone, -⟩
    · by_cases hc : count = 0
      · exact .inl hc
      · have hres := grown_resized h hf hreg hmax
        obtain ⟨hf₁, hreg₁⟩ := hres.only.still hf hreg
        exact .inr (.inl (hw.enough h hf ((hw.only.isFile hreg₁ f).mpr hf₁) (by omega)))
    · obtain ⟨hs, hb, hfree⟩ := hclean r m' hret (by rw [hneg]; decide)
      have hnone' : ∀ c, ¬ IsFree m c := fun c hc => hnone c (hfree c hc)
      refine .inr (.inr ⟨by omega, hnone', fun p hlo' hp hall => ?_⟩)
      have hphi : p < hi := by
        by_contra hge
        refine hall hi hlo (by omega) ?_
        rw [← hsame hnone' _ (pos_div_lt (by omega)), hz]
      obtain ⟨hv, hval⟩ := hw.inside p hlo' hphi
      have hbyte := hb p (by omega)
      rw [byteAt_direct (by omega) hv, byteAt_direct (by omega) (hall p hlo' (Nat.le_refl _)), hval] at hbyte
      exact hbyte.symm
  · intro hcond r' m'' hret' hneg
    obtain ⟨rfl, rfl⟩ := Outcome.ret.inj (hret.symm.trans hret')
    rcases hr with ⟨hr, -⟩ | ⟨-, hlt, -, -, hno⟩
    · omega
    rcases hcond with hc | hen | ⟨hsz, hnone, hbytes⟩
    · omega
    · exact absurd hen hno
    refine ⟨by omega, fun p hp => ?_, fun c hc => absurd hc (hnone c)⟩
    by_cases hin : offset ≤ p ∧ p < hi
    · have hd := hsame hnone
      have hall : ∀ q, offset ≤ q → q ≤ p → direct m f (q / blksize) ≠ 0 := fun q hq hqp => by
        rw [← hd _ (pos_div_lt (by omega))]
        exact (hw.inside q hq (by omega)).1
      obtain ⟨hv, hval⟩ := hw.inside p hin.1 hin.2
      rw [byteAt_direct (by omega) hv, byteAt_direct (by omega) (hall p hin.1 (Nat.le_refl _)), hval]
      exact (hbytes p hin.1 (by omega) hall).symm
    · exact wrote_contents hw h hf hreg hmax hin fun _ _ hfree => absurd hfree.1 (hnone _)

theorem markUsed_inv {b : ℕ} (h : FsInv m) (hf : IsFile m f) (hreg : ¬ IsDir m f)
    (hb : b < nblocks m) : FsInv (markUsed m b) ∧ Only m (markUsed m b) f := by
  have hnode : NodeEq m (markUsed m b) f := bitmap_nodeEq h.sound hb (hf.1.node h.owned)
  have hfree : ∀ {c}, IsFree (markUsed m b) c → IsFree m c := fun hc => ((isFree_markUsed m b _).mp hc).1
  have hconf : Confined m (markUsed m b) f := by
    refine ⟨fun a ha => .inl (bitmap_changes h.sound hb ha), fun s hs _ hv hc => ?_, fun c hc hc' => ?_⟩
    · exact h.owned.used s hs hv (hfree hc)
    · exact h.sound.reserved c hc (hfree hc')
  have honly := hconf.only h hf hreg
  refine ⟨h.only honly hf hreg ?_ (SlotsFrom.of_fields 0 h.owned hf ?_ ?_ fun c hc => .inl (hfree hc)),
    honly⟩
  · rw [hnode.size]
    exact h.size f hf
  · intro i hi _
    exact .inl (hnode.direct hi).symm
  · intro hind
    rw [hnode.indirect] at hind ⊢
    exact ⟨rfl, bitmap_blockEq h.sound hb (h.owned.range (.indirect f) ⟨hf, trivial⟩ hind)⟩

/-- The small disk with `n` blocks of its twelve free blocks in use. -/
def Demo.used : ℕ → Mem
  | 0 => image
  | n + 1 => markUsed (used n) (4 + n)

theorem Demo.used_inv (n : ℕ) (hn : n ≤ 12) : FsInv (used n) ∧ IsFile (used n) file ∧
    ¬ IsDir (used n) file ∧ nblocks (used n) = 16 := by
  induction n with
  | zero => exact ⟨fsInv, isFile_image.1, isFile_image.2, by decide +kernel⟩
  | succ n ih =>
    obtain ⟨h, hf, hreg, hsixteen⟩ := ih (by omega)
    obtain ⟨hinv, honly⟩ := markUsed_inv h hf hreg (b := 4 + n) (by omega)
    exact ⟨hinv, (honly.isFile hreg _).mpr hf, fun hc => hreg ((honly.isDir hf.1).mp hc),
      (nblocks_markUsed _ _).trans hsixteen⟩

end Write

end Fs

end Jos
