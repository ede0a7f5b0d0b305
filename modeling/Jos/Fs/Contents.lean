/-
Reading what was written.

* `read_after_write` — the write, the bytes beside it, the size, and the other
  files;
* `read_after_write_indirect` — a block after the direct ones;
* `written_bytes_stay` — a byte that was written, any number of calls later.
-/
import Jos.Fs.Unwritten

namespace Jos

open Prog Bytes

namespace Fs

open Fs.Demo

def byteAt (m : Mem) (f p : ℕ) : UInt8 :=
  if blockAt m f (p / blksize) = 0 then 0 else m (blockAt m f (p / blksize) * blksize + p % blksize)

section Contents

variable {m m' : Mem} {f x lo hi n p : ℕ} {val : ℕ → UInt8}

theorem grown_size (hn : n ≤ maxfilesize) :
    fileSize (grown m f n) f = max (fileSize m f) n := by
  have hmax : maxfilesize < 2 ^ 32 := by decide
  unfold grown
  split
  next hlt =>
    rw [fileSize, rd32_wr32, Nat.mod_eq_of_lt (by omega)]
    omega
  next hge => omega

theorem wrote_contents (hw : Written (grown m f n) m' f lo hi val) (h : FsInv m) (hf : IsFile m f)
    (hreg : ¬ IsDir m f) (hn : n ≤ maxfilesize) (hno : ¬ (lo ≤ p ∧ p < hi))
    (hzero : p / blksize < ndirect → direct m f (p / blksize) = 0 →
      IsFree m (direct m' f (p / blksize)) ∧ direct m' f (p / blksize) ≠ 0 →
      m (direct m' f (p / blksize) * blksize + p % blksize) = 0) :
    byteAt m' f p = byteAt m f p := by
  have hmod : p % blksize < blksize := Nat.mod_lt _ (by decide)
  have hr := grown_resized h hf hreg hn
  obtain ⟨hf₁, hreg₁⟩ := hr.only.still hf hreg
  by_cases hp : p < ndirect * blksize
  · have hlt := pos_div_lt hp
    have hbyte := (hw.keptFile_grown h hf hreg hn).byte p hp hno
    unfold byteAt
    rw [blockAt_direct hlt, blockAt_direct hlt] at *
    rcases hw.slots _ hlt with hsame | ⟨hz, hfree⟩
    · rw [grown_direct] at hsame
      rw [hsame]
      split
      next => rfl
      next hv =>
        have := hbyte (hsame ▸ hv)
        unfold posAddr at this
        rwa [hsame] at this
    · -- the block is new
      rw [grown_direct] at hz
      rw [if_pos hz]
      split
      next => rfl
      next hv => exact (hbyte hv).trans (hzero hlt hz ⟨(grown_free h hf).mp hfree, hv⟩)
  · -- above the direct blocks nothing is touched
    have hge : ¬ p / blksize < ndirect := by
      unfold ndirect blksize at *
      omega
    have hsame : blockAt m' f (p / blksize) = blockAt m f (p / blksize) :=
      (hw.blockAt_high hf₁ hge).trans (grown_blockAt h hf hreg hn _)
    unfold byteAt
    rw [hsame]
    by_cases hv : blockAt m f (p / blksize) = 0
    · rw [if_pos hv, if_pos hv]
    · rw [if_neg hv, if_neg hv]
      have hslot : ∀ t, blockAt t f (p / blksize) ≠ 0 →
          (Slot.entry f (p / blksize - ndirect)).Inner t ∧
          blockAt t f (p / blksize) = (Slot.entry f (p / blksize - ndirect)).val t := by
        intro t ht
        unfold blockAt at ht ⊢
        rw [if_neg hge] at ht ⊢
        split at ht
        next hc =>
          rw [if_pos hc]
          exact ⟨⟨by omega, hc.2⟩, rfl⟩
        next => exact absurd rfl ht
      obtain ⟨hin, hval⟩ := hslot m hv
      rw [← grown_blockAt h hf hreg hn] at hv
      obtain ⟨hin₁, hval₁⟩ := hslot _ hv
      have hb₁ := hw.rest (.entry f (p / blksize - ndirect)) ⟨hf₁, hin₁⟩ rfl (fun i hc => by cases hc) (hval₁ ▸ hv)
      rw [grown_blockAt h hf hreg hn] at hv hval₁
      have hb := hr.blockEq (s := .entry f (p / blksize - ndirect)) h hf ⟨hf, hin⟩ trivial (hval ▸ hv)
      rw [← hval₁] at hb₁
      rw [← hval] at hb
      exact (hb₁ _ hmod).trans (hb _ hmod)

theorem Only.others (ho : Only m m' f) (h : FsInv m) (hx : IsFile m x) (hne : x ≠ f) :
    NodeEq m m' x ∧ ∀ s : Slot, s.Valid m → s.file = x → s.val m ≠ 0 → ∀ o < blksize,
      m' (s.val m * blksize + o) ≠ m (s.val m * blksize + o) →
      f ≤ s.val m * blksize + o ∧ s.val m * blksize + o < f + 256 := by
  refine ⟨ho.node x hx.1 hne, fun s hs hsx hv o hlt hdiff => ?_⟩
  subst hsx
  by_cases hp : s.Plain m
  · exact absurd (ho.block s hs hne hp hv o hlt) hdiff
  · cases s with
    | direct d i =>
      have hdir : IsDir m d := not_not.mp hp
      obtain ⟨hd, hi⟩ := hs
      have hblocks := (h.dir d hd hdir).blocks i hi
      -- the entry that the byte is in
      have hentry : Entry m (dirEntry (direct m d i * blksize) (o / 256)) :=
        .entry hd.1 hd.2 hdir (hblocks.mp hv) hi hv (by unfold blkfiles blksize at *; omega)
      have haddr : (Slot.direct d i).val m * blksize + o =
          dirEntry (direct m d i * blksize) (o / 256) + o % 256 := by
        show direct m d i * blksize + o = _
        unfold dirEntry
        omega
      rw [haddr] at hdiff ⊢
      by_cases hfe : dirEntry (direct m d i * blksize) (o / 256) = f
      · rw [hfe]
        omega
      · exact absurd (ho.node _ hentry hfe _ (Nat.mod_lt _ (by decide))) hdiff
    | indirect _ => exact absurd trivial hp
    | entry _ _ => exact absurd trivial hp

end Contents

/-- After a write to direct blocks that returns `count`: reading gives the bytes
that were written; the bytes of the file beside them, up to its old size, are
the same, if the free blocks have zeros for those in holes that the call
fills; and so are the other files and directories. -/
theorem read_after_write {m : Mem} (h : FsInv m) {f : ℕ} (hf : IsFile m f) (hreg : ¬ IsDir m f)
    (buf : ℕ → UInt8) {count offset : ℕ} (hlast : offset + count ≤ ndirect * blksize) {m' : Mem}
    (hret : fileWrite f buf count offset m = .ret count m')
    (hzero : HolesZero m f (blocksOf offset (offset + count)) fun p =>
      fileSize m f ≤ p ∨ offset ≤ p ∧ p < offset + count) :
    fileRead f count offset m' = .ret (.ok ((List.range count).map buf)) m' ∧
    (∀ p < fileSize m f, ¬ (offset ≤ p ∧ p < offset + count) → byteAt m' f p = byteAt m f p) ∧
    fileSize m' f = max (fileSize m f) (offset + count) ∧
    (∀ x, IsFile m' x ↔ IsFile m x) ∧
    ∀ x, IsFile m x → x ≠ f → NodeEq m m' x ∧
      ∀ s : Slot, s.Valid m → s.file = x → s.val m ≠ 0 → ∀ o < blksize,
        m' (s.val m * blksize + o) ≠ m (s.val m * blksize + o) →
        f ≤ s.val m * blksize + o ∧ s.val m * blksize + o < f + 256 := by
  obtain ⟨hmax, hsmall⟩ := maxfilesize_ge hlast
  obtain ⟨hi, -, -, hw, hr, hd⟩ := (wp_fileWrite h hf hreg hlast).ret hret
  have hend : hi = offset + count := by
    rcases hr with ⟨-, hend⟩ | ⟨hneg, -⟩
    · exact hend
    · have : (-eNoDisk : ℤ) < 0 := by decide
      omega
  subst hend
  have hres := grown_resized h hf hreg hmax
  obtain ⟨hf₁, hreg₁⟩ := hres.only.still hf hreg
  have ho := hres.only.trans hw.only hreg
  have hf' := (ho.isFile hreg f).mpr hf
  have hsize : fileSize m' f = max (fileSize m f) (offset + count) :=
    hw.size.trans (grown_size hmax)
  refine ⟨?_, fun p hp hno => wrote_contents hw h hf hreg hmax hno ?_, hsize,
    ho.isFile hreg, fun x hx hne => ho.others h hx hne⟩
  rotate_left
  · intro hi hz hfree
    refine hzero p (not_not.mp fun hc => ?_) hz (by omega) _ hfree.1
    exact hfree.2 ((hd _ hi hc).trans hz)
  have hstop : readEnd m' f count offset = offset + count := by
    unfold readEnd
    omega
  have hread : fileRead f count offset m' =
      .ret (.ok (fileBytes m' f offset (readEnd m' f count offset))) m' := by
    refine fileRead_full hw.inv hf' (by omega) (fun _ => ?_) fun p hlo hhi => ?_
    · rw [hstop]
      exact hlast
    · exact (hw.inside p hlo (by omega)).1
  have hbytes : fileBytes m' f offset (offset + count) = (List.range count).map buf := by
    rw [fileBytes, Nat.add_sub_cancel_left]
    refine List.map_congr_left fun j hj => ?_
    have hj : j < count := List.mem_range.mp hj
    rw [(hw.inside (offset + j) (by omega) (by omega)).2, Nat.add_sub_cancel_left]
  rw [hread, hstop, hbytes]

/-- Four bytes into the second half of a hole of eight. -/
theorem read_after_write_hole : FsInv (wr32 image (fSize file) 8) ∧
    wp (fileWrite file (fun _ => 7) 4 4) (fun r m' => r = 4 ∧
      fileRead file 4 4 m' = .ret (.ok [7, 7, 7, 7]) m' ∧ byteAt m' file 0 = 0 ∧
      fileSize m' file = 8) (fun _ _ => False) (wr32 image (fSize file) 8) := by
  obtain ⟨hf, hreg⟩ := isFile_image
  obtain ⟨hinv, honly⟩ := setSize_inv fsInv hf hreg (n := 8) (by decide)
  refine ⟨hinv, ?_⟩
  obtain ⟨m, hm⟩ : ∃ m, m = wr32 image (fSize file) 8 := ⟨_, rfl⟩
  have hrun : wp (fileWrite file (fun _ => 7) 4 4) (fun r _ => r = 4) (fun _ _ => False) m := by
    rw [hm]
    decide +kernel
  have hsize : fileSize m file = 8 := by
    rw [hm]
    decide +kernel
  have hfree : ∀ b, IsFree m b → ∀ o, m (b * blksize + o) = 0 := by
    intro b hb o
    rw [hm] at hb ⊢
    rw [isFree_wr32 fsInv.sound rfl (hf.1.node fsInv.owned) (by omega)] at hb
    have hge := free_ge hb
    rw [← free_zero b hb o]
    by_contra hc
    have := wr32_changes hc
    unfold file dirEntry Jos.fSize blksize at this
    omega
  have hhole : blockAt m file 0 = 0 := by
    rw [hm]
    decide +kernel
  rw [← hm] at hinv honly ⊢
  obtain ⟨r, m', hret, rfl⟩ := hrun.exists_ret
  rw [wp_of_ret hret]
  obtain ⟨hread, hbytes, hsz, -⟩ := read_after_write hinv ((honly.isFile hreg _).mpr hf)
    (fun hc => hreg ((honly.isDir hf.1).mp hc)) (fun _ => 7) (by decide) hret
    fun _ _ _ _ b hb => hfree b hb _
  refine ⟨rfl, hread, ?_, ?_⟩
  · rw [hbytes 0 (by omega) (by omega), byteAt]
    exact if_pos hhole
  · rw [hsz, hsize]
    rfl

/-- The slot for block 30 is the name of the next entry: writing a byte there
makes a file of it. -/
theorem read_after_write_indirect : FsInv image ∧ IsFile image file ∧
    ¬ Live image second ∧
    wp (fileWrite file (fun _ => 7) 1 (30 * blksize)) (fun r m' => r = 1 ∧ Live m' second)
      (fun _ _ => False) image :=
  ⟨fsInv, isFile_image.1, by decide +kernel⟩

/-! ### What was written stays -/

/-- Byte `p` of file `f` is `v`, in a block of the file. -/
structure Stored (m : Mem) (f p : ℕ) (v : UInt8) : Prop where
  file : IsFile m f
  reg : ¬ IsDir m f
  size : p < fileSize m f
  block : direct m f (p / blksize) ≠ 0
  byte : m (posAddr m f p) = v

/-- The call resizes file `f`, or is a write that byte `p` lies in. -/
def FsOp.Touches (f p : ℕ) : FsOp → Prop
  | .write g _ count offset => g = f ∧ offset ≤ p ∧ p < offset + count
  | .setSize g _ => g = f
  | _ => False

section Stored

variable {m m' : Mem} {f g p n lo hi : ℕ} {v : UInt8} {val : ℕ → UInt8}

theorem Stored.same (h : Stored m f p v) (hp : p < ndirect * blksize) (hf : IsFile m' f)
    (hdir : IsDir m' f → IsDir m f) (hnode : NodeEq m m' f)
    (hblock : BlockEq m m' (direct m f (p / blksize))) : Stored m' f p v := by
  have hdirect := hnode.direct (pos_div_lt hp)
  refine ⟨hf, fun hd => h.reg (hdir hd), hnode.size ▸ h.size, hdirect ▸ h.block, ?_⟩
  rw [posAddr, hdirect, hblock _ (Nat.mod_lt _ (by decide))]
  exact h.byte

theorem Stored.only (h : Stored m f p v) (hp : p < ndirect * blksize) (ho : Only m m' g)
    (hreg : ¬ IsDir m g) (hne : f ≠ g) : Stored m' f p v :=
  h.same hp ((ho.isFile hreg f).mpr h.file) (ho.isDir h.file.1).mp (ho.node f h.file.1 hne)
    (ho.block (.direct f (p / blksize)) ⟨h.file, pos_div_lt hp⟩ hne h.reg h.block)

theorem Stored.written (h : Stored m f p v) (hp : p < ndirect * blksize) (hinv : FsInv m)
    (hn : n ≤ maxfilesize) (hw : Written (grown m f n) m' f lo hi val)
    (hno : ¬ (lo ≤ p ∧ p < hi)) : Stored m' f p v := by
  have hr := grown_resized hinv h.file h.reg hn
  obtain ⟨hf₁, hreg₁⟩ := hr.only.still h.file h.reg
  have hslot := hw.slots _ (pos_div_lt hp)
  rw [grown_direct] at hslot
  have hdirect := hslot.resolve_right fun hz => h.block hz.1
  have hbyte := (hw.keptFile_grown hinv h.file h.reg hn).byte p hp hno (hdirect ▸ h.block)
  refine ⟨(hw.only.isFile hreg₁ f).mpr hf₁, fun hd => hreg₁ ((hw.only.isDir hf₁.1).mp hd), ?_,
    hdirect ▸ h.block, hbyte.trans ?_⟩
  · have := h.size
    rw [hw.size, grown_size hn]
    omega
  · rw [posAddr, hdirect]
    exact h.byte

theorem Stored.step {op : FsOp} {r : Option ℕ} (h : Stored m f p v) (hp : p < ndirect * blksize)
    (hinv : FsInv m) (he : op.Effect m r m') (hno : ¬ op.Touches f p) : Stored m' f p v := by
  cases he with
  | refused | opened | readDir => exact h
  | created _ _ _ hc =>
    exact h.same hp ((hc.file f).mpr (.inl h.file)) (hc.isDir f h.file).mp
      (hc.node f h.file h.reg)
      (hc.block (.direct f (p / blksize)) ⟨h.file, pos_div_lt hp⟩ h.reg h.block)
  | @read g _ _ _ hg hreg hw _ =>
    by_cases hne : f = g
    · subst hne
      have hw' : Written (grown m f 0) m' f 0 0 fun _ => 0 := by
        rwa [grown, if_neg (Nat.not_lt_zero _)]
      exact h.written hp hinv (Nat.zero_le _) hw' fun hc => absurd hc.2 (Nat.not_lt_zero p)
    · exact h.only hp hw.only hreg hne
  | @wrote g _ _ hi _ _ hg hreg hlast _ hhi _ hw _ =>
    have hmax := (maxfilesize_ge hlast).1
    by_cases hne : f = g
    · subst hne
      exact h.written hp hinv hmax hw fun hc => hno ⟨rfl, hc.1, by omega⟩
    · exact h.only hp ((grown_resized hinv hg hreg hmax).only.trans hw.only hreg) hreg hne
  | resized hg hreg hres _ => exact h.only hp hres.only hreg fun hfg => hno hfg.symm

end Stored

/-- **Written bytes stay.**  After a write to direct blocks that returns `count`, in
every state that is reached by calls that meet `FsCond`, on any files, a byte that none
of them has written again, in a file that none has resized, is read as it was written. -/
theorem written_bytes_stay {m m' : Mem} (hinv : FsInv m) {f : ℕ} (hf : IsFile m f)
    (hreg : ¬ IsDir m f) (buf : ℕ → UInt8) {count offset p : ℕ}
    (hlast : offset + count ≤ ndirect * blksize)
    (hret : fileWrite f buf count offset m = .ret count m') (hlo : offset ≤ p)
    (hhi : p < offset + count) {s : FsRun}
    (hr : Sys.Reach FsRun.step (fun s op => FsCond s op ∧ ¬ op.Touches f p) { mem := m' } s) :
    fileRead f 1 p s.mem = .ret (.ok [buf (p - offset)]) s.mem := by
  obtain ⟨hmax, hsmall⟩ := maxfilesize_ge hlast
  have hp : p < ndirect * blksize := by omega
  obtain ⟨hi, -, -, hw, hcount, -⟩ := (wp_fileWrite hinv hf hreg hlast).ret hret
  have hend : hi = offset + count := by
    rcases hcount with ⟨-, hend⟩ | ⟨hneg, -⟩
    · exact hend
    · have : (-eNoDisk : ℤ) < 0 := by decide
      omega
  subst hend
  have hres := grown_resized hinv hf hreg hmax
  obtain ⟨hf₁, hreg₁⟩ := hres.only.still hf hreg
  have hfirst : Stored m' f p (buf (p - offset)) := by
    refine ⟨(hw.only.isFile hreg₁ f).mpr hf₁, fun hd => hreg₁ ((hw.only.isDir hf₁.1).mp hd), ?_,
      (hw.inside p hlo hhi).1, (hw.inside p hlo hhi).2⟩
    rw [hw.size, grown_size hmax]
    omega
  obtain ⟨hinv', h⟩ := hr.inv (I := fun s => FsInv s.mem ∧ Stored s.mem f p (buf (p - offset)))
    ⟨hw.inv, hfirst⟩ fun s op s' ⟨hinv, h⟩ ⟨hok, hno⟩ hs => by
      obtain ⟨r, hex, -⟩ := FsRun.step_eq_some hs
      have he := (FsOp.wp_exec hinv hok.1 hok.2).ret hex
      exact ⟨he.inv hinv, h.step hp hinv he hno⟩
  have hstop : readEnd s.mem f 1 p = p + 1 := by
    have := h.size
    unfold readEnd
    omega
  rw [fileRead_full hinv' h.file (by omega) (fun _ => by omega) fun q hlo hhi => ?_, hstop]
  · simp [fileBytes, h.byte]
  · obtain rfl : q = p := by omega
    exact h.block

/-- The call writes to direct blocks of a file that is no directory, and not at
byte 2 of the first file. -/
def Demo.beside (s : FsRun) : FsOp → Bool
  | .write g buf count offset => Wf s.mem (.write g buf count offset) ∧ ¬ IsDir s.mem g ∧
      offset + count ≤ ndirect * blksize ∧ ¬ (g = file ∧ offset ≤ 2 ∧ 2 < offset + count)
  | _ => false

theorem Demo.cond_of_beside {s : FsRun} {op : FsOp} (h : beside s op) :
    FsCond s op ∧ ¬ op.Touches file 2 := by
  cases op with
  | write g buf count offset =>
    obtain ⟨hwf, hdir, hlast, hbeside⟩ := of_decide_eq_true h
    exact ⟨⟨hwf.wf, hdir, hlast⟩, hbeside⟩
  | _ => cases h

theorem written_bytes_stay_four : FsInv image ∧
    wp (fileWrite file (fun k => if k = 2 then 7 else 0) 4 0) (fun r m' => r = 4 ∧ ∃ s,
      Sys.Reach FsRun.step (fun s op => FsCond s op ∧ ¬ op.Touches file 2) { mem := m' } s ∧
      s.mem (posAddr s.mem file 1) = 9 ∧ direct s.mem file 1 ≠ 0 ∧
      fileRead file 1 2 s.mem = .ret (.ok [7]) s.mem) (fun _ _ => False) image := by
  let later : List FsOp := [.write file (fun _ => 9) 1 1, .write file (fun _ => 9) 1 blksize]
  have hrun : wp (fileWrite file (fun k => if k = 2 then 7 else 0) 4 0) (fun r m' => r = 4 ∧
      Sys.AllOk FsRun.step (fun s op => beside s op) later { mem := m' } ∧
      (Sys.runAll FsRun.step later { mem := m' }).any (fun s => s.mem (posAddr s.mem file 1) = 9 ∧
        direct s.mem file 1 ≠ 0) = true) (fun _ _ => False) image := by
    decide +kernel
  refine ⟨fsInv, ?_⟩
  obtain ⟨r, m', hret, rfl, hok, hlater⟩ := hrun.exists_ret
  rw [wp_of_ret hret]
  obtain ⟨s, hr, hone, hnext⟩ := Sys.exists_reach_of (hok.mono fun _ _ => cond_of_beside) hlater
  exact ⟨rfl, s, hr, hone, hnext, written_bytes_stay fsInv isFile_image.1 isFile_image.2 _
    (by decide) hret (Nat.zero_le 2) (by decide) hr⟩

end Fs

end Jos
