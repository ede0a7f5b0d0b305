/-
Which file has which block, in every run.

* `FsOp`, `FsRun` — sequences of calls of `file_create`, `file_open`,
  `file_read`, `file_write` and `file_set_size`;
* `FsOp.Ok` — the calls that keep to the direct blocks of files that are not
  directories, and that make a directory larger with a zero block only;
* `reach_fsInv`, `blocks_owned` — runs of such calls;
* `indirect_block_shared` — the first block after the direct ones.
-/
import Jos.Fs.Create
import Jos.Lib.Run

namespace Jos

open Prog Bytes

namespace Fs

/-! ### Calls -/

/-- A path ends at its zero byte. -/
def Path : Type := { p : List UInt8 // 0 ∉ p }

inductive FsOp where
  | create (path : Path)
  | open (path : Path)
  | read (f count offset : ℕ)
  | write (f : ℕ) (buf : ℕ → UInt8) (count offset : ℕ)
  | setSize (f n : ℕ)

namespace FsOp

/-- The call, and the file that was created. -/
def exec : FsOp → FsM (Option ℕ)
  | create path => do
    let r ← fileCreate path.1
    pure r.toOption
  | .open path => do
    let _ ← fileOpen path.1
    pure none
  | read f count offset => do
    let _ ← fileRead f count offset
    pure none
  | write f buf count offset => do
    let _ ← fileWrite f buf count offset
    pure none
  | setSize f n => do
    let _ ← fileSetSize f n
    pure none

/-- Calls are made on files, with offsets and sizes up to `MAXFILESIZE`. -/
def Wf (m : Mem) : FsOp → Prop
  | create _ => True
  | .open _ => True
  | read f _ offset => IsFile m f ∧ offset ≤ maxfilesize
  | write f _ count offset => IsFile m f ∧ offset + count ≤ maxfilesize
  | setSize f n => IsFile m f ∧ n ≤ maxfilesize

/-- Blocks after the direct ones are not read or written, and not freed while
the file has an indirect block; directories are not written or resized, and
grow by zero blocks in direct slots only. -/
def Ok (m : Mem) : FsOp → Prop
  | create path => CreateOk path.1 m
  | .open _ => True
  | read f count offset =>
    IsDir m f ∨ (offset < fileSize m f → readEnd m f count offset ≤ ndirect * blksize)
  | write f _ count offset => ¬ IsDir m f ∧ offset + count ≤ ndirect * blksize
  | setSize f n =>
    ¬ IsDir m f ∧ (n < fileSize m f → nblocksOf n ≤ ndirect ∨ indirect m f = 0)

end FsOp

/-- The disk, and the files that were created, newest first. -/
structure FsRun where
  mem : Mem
  made : List (Path × ℕ) := []

def FsOp.made : FsOp → Option ℕ → List (Path × ℕ)
  | .create path, some g => [(path, g)]
  | _, _ => []

def FsRun.step (s : FsRun) (op : FsOp) : Option FsRun :=
  match op.exec s.mem with
  | .ret r m => some { mem := m, made := op.made r ++ s.made }
  | .stop _ _ => none

/-! ### The invariant -/

section Inv

variable {m : Mem}

theorem fileRead_dir {f offset : ℕ} (count : ℕ) (h : FsInv m) (hf : IsFile m f) (hdir : IsDir m f)
    (hoff : offset ≤ maxfilesize) : ∃ r, fileRead f count offset m = .ret r m := by
  have hmax : maxfilesize < 2 ^ 31 := by decide
  have hsz := h.size f hf
  obtain ⟨-, hsm, hbl⟩ := h.dir f hf hdir
  rw [dirBlocks_eq (by omega)] at hsm hbl
  have hend : offset < fileSize m f → readEnd m f count offset ≤ fileSize m f := by
    intro hlt
    unfold readEnd
    omega
  have hroom : fileSize m f ≤ ndirect * blksize := by
    have := (h.dir f hf hdir).aligned
    unfold ndirect blksize at *
    omega
  refine ⟨_, fileRead_full h hf (by omega) (fun hlt => Nat.le_trans (hend hlt) hroom) fun p hlo hhi => ?_⟩
  have hlt : p < fileSize m f := by
    unfold readEnd at hhi
    omega
  refine (hbl _ (pos_div_lt (Nat.lt_of_lt_of_le hlt hroom))).mpr ?_
  have := (h.dir f hf hdir).aligned
  unfold blksize at *
  omega

/-- What a call does. -/
inductive FsOp.Effect (m : Mem) : FsOp → Option ℕ → Mem → Prop where
  | refused (path : Path) : Effect m (.create path) none m
  | opened (path : Path) : Effect m (.open path) none m
  | readDir (f count offset : ℕ) : Effect m (.read f count offset) none m
  | created {path : Path} {w : Walk} {d g : ℕ} {m' : Mem} :
      Resolve m none sRoot (components path.1) w → w.r = -eNotFound → w.dir = some d →
      Created m m' d g w.lastelem → Effect m (.create path) (some g) m'
  | read {f count offset : ℕ} {m' : Mem} : IsFile m f → ¬ IsDir m f →
      Written m m' f 0 0 (fun _ => 0) →
      (∀ i < ndirect, i ∉ blocksOf offset (offset + count) → direct m' f i = direct m f i) →
      Effect m (.read f count offset) none m'
  | wrote {f count offset hi : ℕ} {buf : ℕ → UInt8} {m' : Mem} : IsFile m f → ¬ IsDir m f →
      offset + count ≤ ndirect * blksize → offset ≤ hi → hi ≤ offset + count →
      (hi < offset + count → direct m' f (hi / blksize) = 0) →
      Written (grown m f (offset + count)) m' f offset hi (fun p => buf (p - offset)) →
      (∀ i < ndirect, i ∉ blocksOf offset hi → direct m' f i = direct m f i) →
      Effect m (.write f buf count offset) none m'
  | resized {f n : ℕ} {m' : Mem} : IsFile m f → ¬ IsDir m f → Resized m m' f →
      fileSize m' f = n → Effect m (.setSize f n) none m'

theorem FsOp.wp_exec {op : FsOp} (h : FsInv m) (hwf : op.Wf m) (hok : op.Ok m) :
    wp op.exec (fun r m' => op.Effect m r m') (fun _ _ => False) m := by
  cases op with
  | create path =>
    rw [FsOp.exec, wp_bind]
    refine (wp_fileCreate h path.2 hok).imp ?_
    rintro r m' ⟨herr, hcreated⟩
    rw [wp_pure]
    cases r with
    | error e =>
      rw [herr e rfl]
      exact .refused path
    | ok g =>
      obtain ⟨w, d, hw, hr, hd, hc⟩ := hcreated g rfl
      exact .created hw hr hd hc
  | «open» path =>
    obtain ⟨r, heq, -⟩ := fileOpen_eq h path.2
    rw [FsOp.exec, wp_bind_of_ret heq, wp_pure]
    exact .opened path
  | read f count offset =>
    obtain ⟨hf, hoff⟩ := hwf
    have hmax : maxfilesize < 2 ^ 31 := by decide
    rw [FsOp.exec, wp_bind]
    by_cases hdir : IsDir m f
    · obtain ⟨r, heq⟩ := fileRead_dir count h hf hdir hoff
      rw [wp_of_ret heq, wp_pure]
      exact .readDir f count offset
    · refine (wp_fileRead (fun _ => 0) h hf hdir (by omega) (hok.resolve_left hdir)).imp ?_
      rintro r m' ⟨hw, hd, -⟩
      rw [wp_pure]
      exact .read hf hdir hw hd
  | write f buf count offset =>
    obtain ⟨hdir, hlast⟩ := hok
    rw [FsOp.exec, wp_bind]
    refine (wp_fileWrite h hwf.1 hdir hlast).imp ?_
    rintro r m' ⟨hi, hlo, hhi, hw, hr, hd⟩
    rw [wp_pure]
    refine .wrote hwf.1 hdir hlast hlo hhi (fun hlt => ?_) hw hd
    rcases hr with ⟨-, hend⟩ | ⟨-, -, hz, -⟩
    · omega
    · exact hz
  | setSize f n =>
    obtain ⟨hdir, hind⟩ := hok
    rw [FsOp.exec, wp_bind]
    refine (wp_fileSetSize h hwf.1 hdir hwf.2 hind).imp ?_
    rintro r m' ⟨-, hres, hsize⟩
    rw [wp_pure]
    exact .resized hwf.1 hdir hres hsize

theorem FsOp.Effect.inv {op : FsOp} {r : Option ℕ} {m' : Mem} (he : op.Effect m r m')
    (h : FsInv m) : FsInv m' := by
  cases he with
  | refused | opened | readDir => exact h
  | created _ _ _ hc => exact hc.inv
  | read _ _ hw _ => exact hw.inv
  | wrote _ _ _ _ _ _ hw _ => exact hw.inv
  | resized _ _ hres _ => exact hres.inv

theorem FsRun.step_eq_some {s s' : FsRun} {op : FsOp} (h : s.step op = some s') :
    ∃ r, op.exec s.mem = .ret r s'.mem ∧ s'.made = op.made r ++ s.made := by
  unfold FsRun.step at h
  cases hex : op.exec s.mem with
  | ret r m =>
    rw [hex] at h
    cases h
    exact ⟨r, rfl, rfl⟩
  | stop e m =>
    rw [hex] at h
    cases h

def FsCond (s : FsRun) (op : FsOp) : Prop := op.Wf s.mem ∧ op.Ok s.mem

theorem reach_fsInv {m₀ : Mem} (h₀ : FsInv m₀) {s : FsRun}
    (hr : Sys.Reach FsRun.step FsCond { mem := m₀ } s) : FsInv s.mem := by
  refine Sys.Reach.inv (I := fun s => FsInv s.mem) h₀ ?_ hr
  intro s op s' h ⟨hwf, hok⟩ hs
  obtain ⟨r, hex, -⟩ := FsRun.step_eq_some hs
  exact ((FsOp.wp_exec h hwf hok).ret hex).inv h

/-- In every run every block number in a slot is that of a block that exists,
is not reserved, is in use and is in no other slot. -/
theorem blocks_owned {m₀ : Mem} (h₀ : FsInv m₀) {s : FsRun}
    (hr : Sys.Reach FsRun.step FsCond { mem := m₀ } s) :
    ∀ slot : Slot, slot.Valid s.mem → slot.val s.mem ≠ 0 →
      (firstBlock s.mem ≤ slot.val s.mem ∧ slot.val s.mem < nblocks s.mem) ∧
      ¬ IsFree s.mem (slot.val s.mem) ∧
      ∀ slot' : Slot, slot'.Valid s.mem → slot'.val s.mem = slot.val s.mem → slot' = slot := by
  intro slot hslot hv
  have h := (reach_fsInv h₀ hr).owned
  refine ⟨h.range slot hslot hv, h.used slot hslot hv, fun slot' hslot' heq => ?_⟩
  exact (h.single slot slot' hslot hslot' hv heq.symm).symm

end Inv

/-! ### A small disk -/

/-- Sixteen blocks; the root directory has one block with one empty file. -/
def Demo.image : Mem :=
  wr32 (wr32 (wr32 (wr32 (wr32 (wr32 (fun a => if a = 3 * blksize then 97 else 0)
    sMagic fsMagic) sNblocks 16) (fSize sRoot) blksize) (fType sRoot) ftypeDir)
    (fDirect sRoot 0) 3) bitmapStart 0xfff0

def Demo.file : ℕ := dirEntry (3 * blksize) 0

/-- The root directory has block 3 and no other. -/
@[mk_iff]
structure Demo.Root (m : Mem) : Prop where
  type : fileType m sRoot = ftypeDir
  size : fileSize m sRoot = blksize
  zero : direct m sRoot 0 = 3
  rest : ∀ i < ndirect, i ≠ 0 → direct m sRoot i = 0
  ind : indirect m sRoot = 0

open Fs.Demo

instance (m : Mem) : Decidable (Root m) := decidable_of_iff' _ (root_iff m)

theorem Demo.image_data : Root image ∧
    (∀ j < blkfiles, Vacant image (dirEntry (3 * blksize) j)) ∧ Sound image ∧
    (InRange image 3 ∧ ¬ IsFree image 3) ∧ image file ≠ 0 := by decide +kernel

theorem Demo.root : Root image := image_data.1

theorem Demo.vacant : ∀ j < blkfiles, Vacant image (dirEntry (3 * blksize) j) := image_data.2.1

theorem Demo.entry_of {m : Mem} {x : ℕ} (hroot : Root m)
    (hreg : ∀ j < blkfiles, ¬ IsDir m (dirEntry (3 * blksize) j)) (h : Entry m x) :
    x = sRoot ∨ ∃ j < blkfiles, x = dirEntry (3 * blksize) j := by
  induction h with
  | root => exact .inl rfl
  | @entry d i j _ _ ht hi _ _ hj ih =>
    rcases ih with rfl | ⟨j', hj', rfl⟩
    · rw [hroot.size] at hi
      have hz : i = 0 := Nat.lt_one_iff.mp hi
      subst hz
      rw [hroot.zero]
      exact .inr ⟨j, hj, rfl⟩
    · exact absurd ht (hreg j' hj')

theorem Demo.entry {x : ℕ} (h : Entry image x) :
    x = sRoot ∨ ∃ j < blkfiles, x = dirEntry (3 * blksize) j := by
  refine entry_of root (fun j hj hc => ?_) h
  exact absurd (hc.symm.trans (vacant j hj).type) (by decide)

theorem Demo.Root.dirOk {m : Mem} (h : Root m) : DirOk m sRoot := by
  refine ⟨by rw [h.size]; rfl, by rw [h.size]; decide, fun i hi => ?_⟩
  rw [h.size]
  show direct m sRoot i ≠ 0 ↔ i < 1
  by_cases h0 : i = 0
  · rw [h0, h.zero]
    decide
  · rw [h.rest i hi h0]
    omega

section

variable {m : Mem} (hroot : Root m) (hvacant : ∀ j < blkfiles, Vacant m (dirEntry (3 * blksize) j))

include hroot hvacant

theorem Demo.entry_vacant {x : ℕ} (h : Entry m x) : x = sRoot ∨ Vacant m x := by
  have hreg : ∀ j < blkfiles, ¬ IsDir m (dirEntry (3 * blksize) j) := fun j hj hc =>
    absurd (hc.symm.trans (hvacant j hj).type) (by decide)
  rcases entry_of hroot hreg h with rfl | ⟨j, hj, rfl⟩
  · exact .inl rfl
  · exact .inr (hvacant j hj)

theorem Demo.slot_of {s : Slot} (hs : s.Valid m) (hv : s.val m ≠ 0) : s = .direct sRoot 0 := by
  obtain ⟨hfile, hin⟩ := hs
  cases s with
  | direct f i =>
    rcases entry_vacant hroot hvacant hfile.1 with hf | hf
    · obtain rfl : f = sRoot := hf
      by_cases hi : i = 0
      · rw [hi]
      · exact absurd (hroot.rest i hin hi) hv
    · exact absurd (hf.direct i hin) hv
  | indirect f =>
    rcases entry_vacant hroot hvacant hfile.1 with hf | hf
    · obtain rfl : f = sRoot := hf
      exact absurd hroot.ind hv
    · exact absurd hf.indirect hv
  | entry f k =>
    rcases entry_vacant hroot hvacant hfile.1 with hf | hf
    · obtain rfl : f = sRoot := hf
      exact absurd hroot.ind hin.2
    · exact absurd hf.indirect hin.2

theorem Demo.inv_of (hs : Sound m) (h3 : InRange m 3 ∧ ¬ IsFree m 3) : FsInv m := by
  have hslot : ∀ {s : Slot}, s.Valid m → s.val m ≠ 0 → s = .direct sRoot 0 := fun hs hv =>
    slot_of hroot hvacant hs hv
  have hval : (Slot.direct sRoot 0).val m = 3 := hroot.zero
  have hentry : ∀ {x}, Entry m x → x = sRoot ∨ Vacant m x := fun hx =>
    entry_vacant hroot hvacant hx
  refine ⟨hs, ⟨?_, ?_, ?_⟩, ?_, ?_, ?_⟩
  · intro s hs hv
    rw [hslot hs hv, hval]
    exact h3.1
  · intro s hs hv
    rw [hslot hs hv, hval]
    exact h3.2
  · intro s s' hs hs' hv heq
    rw [hslot hs hv, hslot hs' (heq ▸ hv)]
  · intro f hf hl
    rcases hentry hf with rfl | hf
    · exact absurd (.inl rfl) hl
    · exact hf
  · intro f hf
    rcases hentry hf.1 with rfl | hf
    · rw [hroot.size]
      decide
    · rw [hf.size]
      exact Nat.zero_le _
  · intro f hf hd
    rcases hentry hf.1 with rfl | hf
    · exact hroot.dirOk
    · exact absurd (hd.symm.trans hf.type) (by decide)

end

theorem Demo.fsInv : FsInv image :=
  inv_of root vacant image_data.2.2.1 image_data.2.2.2.1

theorem Demo.isFile {m : Mem} {j : ℕ} (hj : j < blkfiles) (ht : fileType m sRoot = ftypeDir)
    (hs : fileSize m sRoot = blksize) (hd : direct m sRoot 0 = 3)
    (hl : m (dirEntry (3 * blksize) j) ≠ 0) : IsFile m (dirEntry (3 * blksize) j) := by
  refine ⟨?_, .inr hl⟩
  have he : Entry m (dirEntry (direct m sRoot 0 * blksize) j) :=
    .entry .root (.inl rfl) ht (by rw [hs]; decide) (by decide) (by rw [hd]; decide) hj
  rwa [hd] at he

theorem Demo.Root.isFile {m : Mem} {j : ℕ} (h : Demo.Root m) (hj : j < blkfiles)
    (hl : m (dirEntry (3 * blksize) j) ≠ 0) : IsFile m (dirEntry (3 * blksize) j) :=
  Demo.isFile hj h.type h.size h.zero hl

theorem Demo.isFile_image : IsFile image file ∧ ¬ IsDir image file :=
  ⟨root.isFile (by decide) image_data.2.2.2.2, fun hc =>
    absurd (hc.symm.trans (vacant 0 (by decide)).type) (by decide)⟩

/-- Writing to the file gives it a block. -/
theorem blocks_owned_write : ∃ s, Sys.Reach FsRun.step FsCond { mem := image } s ∧
    direct s.mem file 0 = 4 ∧
    ∀ slot : Slot, slot.Valid s.mem → slot.val s.mem ≠ 0 →
      (firstBlock s.mem ≤ slot.val s.mem ∧ slot.val s.mem < nblocks s.mem) ∧
      ¬ IsFree s.mem (slot.val s.mem) ∧
      ∀ slot' : Slot, slot'.Valid s.mem → slot'.val s.mem = slot.val s.mem → slot' = slot := by
  have hok : Sys.AllOk FsRun.step FsCond [.write file (fun _ => 7) 4 0] { mem := image } :=
    ⟨⟨⟨isFile_image.1, by decide⟩, isFile_image.2, by decide⟩, fun _ _ => trivial⟩
  obtain ⟨s, hr, hp⟩ := Sys.exists_reach_of (P := fun s => direct s.mem file 0 = 4) hok (by decide +kernel)
  exact ⟨s, hr, hp, blocks_owned fsInv hr⟩

/-- The slot for the first block after the direct ones is that of the indirect
block: what is written there are block numbers. -/
theorem indirect_block_shared : FsInv image ∧ ∃ s,
    Sys.Reach FsRun.step (fun s op => op.Wf s.mem) { mem := image } s ∧
    ∃ slot : Slot, slot.Valid s.mem ∧ slot.val s.mem ≠ 0 ∧ slot.val s.mem < firstBlock s.mem := by
  refine ⟨fsInv, ?_⟩
  have hok : Sys.AllOk FsRun.step (fun s op => op.Wf s.mem)
      [.write file (fun k => if k = 0 then 1 else 0) 4 (ndirect * blksize)]
      { mem := image } := ⟨⟨isFile_image.1, by decide⟩, fun _ _ => trivial⟩
  obtain ⟨s, hr, hroot, hl, hind, hword, hfirst⟩ := Sys.exists_reach_of (P := fun s => Root s.mem ∧ s.mem
      file ≠ 0 ∧ indirect s.mem file = 4 ∧ blockWord s.mem 4 0 = 1 ∧ firstBlock s.mem = 3) hok
      (by decide +kernel)
  have hval : (Slot.entry file 0).val s.mem = 1 := by
    show blockWord s.mem (indirect s.mem file) 0 = 1
    rw [hind, hword]
  refine ⟨s, hr, .entry file 0, ⟨hroot.isFile (by decide) hl, by decide, ?_⟩, ?_, ?_⟩
  · rw [hind]
    decide
  · rw [hval]
    decide
  · rw [hval, hfirst]
    decide

end Fs

end Jos
