/-
Bytes of a file that nothing was written to.

A block that a call gives to a file keeps the bytes it had.  The runs here carry
the bytes that lie in blocks that were allocated during the run, as long as no
write to the file covers them.

* `unwritten_bytes_zero` — they read as zero, if blocks are zero when they are
  allocated;
* `unwritten_bytes_leak` — what another file left in the block.
-/
import Jos.Fs.Ownership

namespace Jos

open Prog Bytes

namespace Fs

open Fs.Demo

section KeptFile

variable {m m' : Mem} {f x i n lo hi : ℕ} {val : ℕ → UInt8} {cov : ℕ → Prop}

theorem blockAt_congr (hdirect : ∀ i < ndirect, direct m' f i = direct m f i)
    (hind : indirect m' f = indirect m f)
    (hblock : indirect m f ≠ 0 → BlockEq m m' (indirect m f)) : blockAt m' f i = blockAt m f i := by
  unfold blockAt
  by_cases hi : i < ndirect
  · rw [if_pos hi, if_pos hi, hdirect i hi]
  · rw [if_neg hi, if_neg hi, hind]
    split
    next hc => exact (hblock hc.2).word (by omega)
    next => rfl

theorem Vacant.blockAt (h : Vacant m f) (i : ℕ) : blockAt m f i = 0 := by
  unfold Fs.blockAt
  by_cases hi : i < ndirect
  · rw [if_pos hi]
    exact h.direct i hi
  · rw [if_neg hi, if_neg fun hc => hc.2 h.indirect]

/-- The blocks of file `x` are those it had, with some taken out and some free
blocks put in; the bytes are those that were in the blocks, but for the covered
ones. -/
structure KeptFile (m m' : Mem) (x : ℕ) (cov : ℕ → Prop) : Prop where
  slot : ∀ i, blockAt m' x i = blockAt m x i ∨ blockAt m' x i = 0 ∨
    (i < ndirect ∧ blockAt m x i = 0 ∧ IsFree m (blockAt m' x i))
  byte : ∀ p < ndirect * blksize, ¬ cov p → direct m' x (p / blksize) ≠ 0 →
    m' (posAddr m' x p) = m (posAddr m' x p)

theorem KeptFile.refl (m : Mem) (x : ℕ) (cov : ℕ → Prop) : KeptFile m m x cov :=
  ⟨fun _ => .inl rfl, fun _ _ _ _ => rfl⟩

theorem KeptFile.mono {cov' : ℕ → Prop} (h : KeptFile m m' x cov) (hc : ∀ p, cov p → cov' p) :
    KeptFile m m' x cov' :=
  ⟨h.slot, fun p hp hno hv => h.byte p hp (fun hcov => hno (hc p hcov)) hv⟩

theorem KeptFile.of_same (hx : IsFile m x) (hnode : NodeEq m m' x)
    (hblock : ∀ s : Slot, s.Valid m → s.file = x → s.val m ≠ 0 → BlockEq m m' (s.val m)) :
    KeptFile m m' x cov := by
  refine ⟨fun i => .inl (blockAt_congr (fun i hi => hnode.direct hi) hnode.indirect fun hv => ?_),
    fun p hp _ hv => ?_⟩
  · exact hblock (.indirect x) ⟨hx, trivial⟩ rfl hv
  · have hlt := pos_div_lt hp
    rw [hnode.direct hlt] at hv
    unfold posAddr
    rw [hnode.direct hlt]
    exact hblock (.direct x (p / blksize)) ⟨hx, hlt⟩ rfl hv _ (Nat.mod_lt _ (by decide))

theorem plain_of_reg {s : Slot} (hreg : ¬ IsDir m s.file) : s.Plain m := by
  cases s with
  | direct f i => exact hreg
  | _ => trivial

theorem Only.keptFile (ho : Only m m' f) (hx : IsFile m x) (hreg : ¬ IsDir m x) (hne : x ≠ f) :
    KeptFile m m' x cov := by
  refine KeptFile.of_same hx (ho.node x hx.1 hne) fun s hs hsx hv => ?_
  subst hsx
  exact ho.block s hs hne (plain_of_reg hreg) hv

theorem Created.keptFile {d g : ℕ} {name : List UInt8} (hc : Created m m' d g name)
    (hx : IsFile m x) (hreg : ¬ IsDir m x) : KeptFile m m' x cov := by
  refine KeptFile.of_same hx (hc.node x hx hreg) fun s hs hsx hv => ?_
  subst hsx
  exact hc.block s hs (plain_of_reg hreg) hv

theorem Resized.blockEq {s : Slot} (hr : Resized m m' f) (h : FsInv m) (hf : IsFile m f)
    (hs : s.Valid m) (hp : s.Plain m) (hv : s.val m ≠ 0) : BlockEq m m' (s.val m) :=
  blockEq_of_changes hr.changes h.sound (hf.1.node h.owned) (h.owned.range s hs hv)
    (h.node_block hf.1 hs hp hv)

theorem Resized.keptFile (hr : Resized m m' f) (h : FsInv m) (hf : IsFile m f) (hreg : ¬ IsDir m f) :
    KeptFile m m' f cov := by
  refine ⟨fun i => ?_, fun p hp _ hv => ?_⟩
  · unfold blockAt
    by_cases hi : i < ndirect
    · rw [if_pos hi, if_pos hi]
      exact (hr.direct i hi).imp_right .inl
    · rw [if_neg hi, if_neg hi]
      rcases hr.indirect with heq | hz
      · left
        rw [heq]
        split
        next hc =>
          exact (hr.blockEq (s := .indirect f) h hf ⟨hf, trivial⟩ trivial hc.2).word (by omega)
        next => rfl
      · right; left
        exact if_neg fun hc => hc.2 hz
  · have hlt := pos_div_lt hp
    have heq := (hr.direct _ hlt).resolve_right hv
    rw [heq] at hv
    unfold posAddr
    rw [heq]
    exact hr.blockEq (s := .direct f (p / blksize)) h hf ⟨hf, hlt⟩ hreg hv _ (Nat.mod_lt _ (by decide))

theorem Written.blockAt_high (hw : Written m m' f lo hi val) (hf : IsFile m f)
    (hi : ¬ i < ndirect) : blockAt m' f i = blockAt m f i := by
  unfold blockAt
  rw [if_neg hi, if_neg hi, hw.indirect]
  split
  next hc =>
    have hblock := hw.rest (.indirect f) ⟨hf, trivial⟩ rfl (fun i hc => by cases hc) hc.2
    exact hblock.word (by omega)
  next => rfl

theorem Written.keptFile (hw : Written m m' f lo hi val) (hf : IsFile m f) :
    KeptFile m m' f (fun p => lo ≤ p ∧ p < hi) := by
  refine ⟨fun i => ?_, fun p hp hno hv => hw.outside p hp hno hv⟩
  by_cases hi : i < ndirect
  · rw [blockAt_direct hi, blockAt_direct hi]
    rcases hw.slots i hi with heq | ⟨hz, hfree⟩
    · exact .inl heq
    · exact .inr (.inr ⟨hi, hz, hfree⟩)
  · exact .inl (hw.blockAt_high hf hi)

theorem grown_resized (h : FsInv m) (hf : IsFile m f) (hreg : ¬ IsDir m f) (hn : n ≤ maxfilesize) :
    Resized m (grown m f n) f := by
  unfold grown
  split
  · exact resized_setSize h hf hreg hn
  · exact Resized.refl h f

theorem grown_free (h : FsInv m) (hf : IsFile m f) {c : ℕ} : IsFree (grown m f n) c ↔ IsFree m c := by
  unfold grown
  split
  · exact isFree_wr32 h.sound rfl (hf.1.node h.owned) (by omega)
  · exact Iff.rfl

theorem grown_blockAt (h : FsInv m) (hf : IsFile m f) (hreg : ¬ IsDir m f) (hn : n ≤ maxfilesize)
    (i : ℕ) : blockAt (grown m f n) f i = blockAt m f i := by
  refine blockAt_congr (fun i _ => grown_direct i) ?_ fun hv => ?_
  · unfold grown
    split
    · exact indirect_setSize
    · rfl
  · exact (grown_resized h hf hreg hn).blockEq (s := .indirect f) h hf ⟨hf, trivial⟩ trivial hv

theorem Written.keptFile_grown (hw : Written (grown m f n) m' f lo hi val) (h : FsInv m)
    (hf : IsFile m f) (hreg : ¬ IsDir m f) (hn : n ≤ maxfilesize) :
    KeptFile m m' f (fun p => lo ≤ p ∧ p < hi) := by
  have hr := grown_resized h hf hreg hn
  obtain ⟨hf₁, hreg₁⟩ := hr.only.still hf hreg
  have hk := hw.keptFile hf₁
  refine ⟨fun i => ?_, fun p hp hno hv => (hk.byte p hp hno hv).trans ?_⟩
  · have hslot := hk.slot i
    rwa [grown_blockAt h hf hreg hn, grown_free h hf] at hslot
  · -- the byte is in a block of data, not in the entry
    have hlt := pos_div_lt hp
    obtain ⟨hf', hreg'⟩ := hw.only.still hf₁ hreg₁
    have hne := hw.inv.node_block (s := .direct f (p / blksize)) hf'.1 ⟨hf', hlt⟩ hreg' hv
    by_contra hc
    rcases hr.changes _ hc with hb | hin
    · have hrange := hw.inv.owned.range (.direct f (p / blksize)) ⟨hf', hlt⟩ hv
      have h1 := hb.2
      have h2 := Nat.mul_le_mul_right blksize hrange.1
      rw [hw.only.firstBlock, hr.only.firstBlock] at h2
      have h3 : (Slot.direct f (p / blksize)).val m' * blksize ≤ posAddr m' f p := Nat.le_add_right _ _
      omega
    · have hdiv := ((hf.1.node h.owned).bounds h.sound).2.1 (posAddr m' f p - f) (by omega)
      rw [Nat.add_sub_cancel' hin.1] at hdiv
      refine hne (hdiv.symm.trans ?_)
      show posAddr m' f p / blksize = direct m' f (p / blksize)
      unfold posAddr blksize
      omega

end KeptFile

/-! ### Calls -/

/-- The byte is one that the call wrote: a write stops at the first block that
it cannot have. -/
def Covered (m' : Mem) : FsOp → ℕ → ℕ → Prop
  | .write g _ count offset, f, p => g = f ∧ offset ≤ p ∧ p < offset + count ∧
      ∀ q ≤ p, offset ≤ q → blockAt m' f (q / blksize) ≠ 0
  | _, _, _ => False

instance (m' : Mem) : (op : FsOp) → (f p : ℕ) → Decidable (Covered m' op f p)
  | .write _ _ _ _, _, _ => inferInstanceAs (Decidable (_ ∧ _ ∧ _ ∧ ∀ q ≤ _, _))
  | .create _, _, _ => inferInstanceAs (Decidable False)
  | .open _, _, _ => inferInstanceAs (Decidable False)
  | .read _ _ _, _, _ => inferInstanceAs (Decidable False)
  | .setSize _ _, _, _ => inferInstanceAs (Decidable False)

/-- What a call leaves of the files that are not directories. -/
structure FsOp.Kept (m m' : Mem) (op : FsOp) : Prop where
  file : ∀ x, IsFile m' x → ¬ IsDir m' x → (IsFile m x ∧ ¬ IsDir m x) ∨ ∀ i, blockAt m' x i = 0
  kept : ∀ x, IsFile m x → ¬ IsDir m x → KeptFile m m' x (Covered m' op x)

section Effect

variable {m m' : Mem} {f : ℕ} {op : FsOp}

theorem FsOp.Kept.of_only (ho : Only m m' f) (hreg : ¬ IsDir m f)
    (hk : KeptFile m m' f (Covered m' op f)) : op.Kept m m' := by
  refine ⟨fun x hx hxreg => ?_, fun x hx hxreg => ?_⟩
  · have hx' := (ho.isFile hreg x).mp hx
    exact .inl ⟨hx', fun hc => hxreg ((ho.isDir hx'.1).mpr hc)⟩
  · by_cases hxf : x = f
    · rw [hxf]
      exact hk
    · exact ho.keptFile hx hxreg hxf

theorem covered_of_written {count offset hi n p : ℕ} {buf : ℕ → UInt8}
    (hw : Written (grown m f n) m' f offset hi fun p => buf (p - offset))
    (hlast : offset + count ≤ ndirect * blksize) (hhi : hi ≤ offset + count)
    (hp : offset ≤ p ∧ p < hi) : Covered m' (.write f buf count offset) f p := by
  refine ⟨rfl, hp.1, by omega, fun q hq hlo => ?_⟩
  rw [blockAt_direct (pos_div_lt (by omega))]
  exact (hw.inside q hlo (by omega)).1

theorem FsOp.Effect.kept {r : Option ℕ} (he : op.Effect m r m') (h : FsInv m) : op.Kept m m' := by
  cases he with
  | refused | opened | readDir =>
    exact ⟨fun x hx hreg => .inl ⟨hx, hreg⟩, fun x _ _ => KeptFile.refl m x _⟩
  | created _ _ _ hc =>
    refine ⟨fun x hx hreg => ?_, fun x hx hreg => hc.keptFile hx hreg⟩
    rcases (hc.file x).mp hx with hx' | rfl
    · exact .inl ⟨hx', fun hd => hreg ((hc.isDir x hx').mpr hd)⟩
    · exact .inr hc.fresh.blockAt
  | read hf hreg hw _ =>
    refine .of_only hw.only hreg ((hw.keptFile hf).mono ?_)
    intro p hp
    omega
  | wrote hf hreg hlast _ hhi _ hw _ =>
    have hmax := (maxfilesize_ge hlast).1
    refine .of_only ((grown_resized h hf hreg hmax).only.trans hw.only hreg) hreg ?_
    exact (hw.keptFile_grown h hf hreg hmax).mono fun p hp => covered_of_written hw hlast hhi hp
  | resized hf hreg hres _ => exact .of_only hres.only hreg (hres.keptFile h hf hreg)

end Effect

/-! ### Runs -/

/-- The disk, and the bytes in blocks that were allocated to their files during
the run and that no write to the file has covered since. -/
structure History where
  mem : Mem
  fresh : ℕ → ℕ → Bool := fun _ _ => false

def History.step (s : History) (op : FsOp) : Option History :=
  match op.exec s.mem with
  | .ret _ m => some { mem := m, fresh := fun f p => decide (¬ Covered m op f p ∧
      blockAt m f (p / blksize) ≠ 0 ∧ (blockAt s.mem f (p / blksize) = 0 ∨ s.fresh f p = true)) }
  | .stop _ _ => none

/-- Where a byte of the file lies in a hole among the blocks `S`, and is not one of
those of `w`, every free block has a zero. -/
def HolesZero (m : Mem) (f : ℕ) (S : Finset ℕ) (w : ℕ → Prop) : Prop := ∀ p, p / blksize ∈ S →
  direct m f (p / blksize) = 0 → ¬ w p → ∀ b, IsFree m b → m (b * blksize + p % blksize) = 0

/-- Reads and writes, which fill the holes that they come to, find zeros in the free
blocks, but for the bytes that a write puts there itself. -/
def ZeroAlloc (m : Mem) : FsOp → Prop
  | .write f _ count offset => HolesZero m f (blocksOf offset (offset + count)) fun p =>
      offset ≤ p ∧ p < offset + count
  | .read f count offset => HolesZero m f (blocksOf offset (offset + count)) fun _ => False
  | _ => True

def HistoryCond (s : History) (op : FsOp) : Prop := op.Wf s.mem ∧ op.Ok s.mem ∧ ZeroAlloc s.mem op

structure FreshInv (s : History) : Prop where
  inv : FsInv s.mem
  zero : ∀ f p, IsFile s.mem f → ¬ IsDir s.mem f → s.fresh f p = true →
    p < ndirect * blksize ∧ direct s.mem f (p / blksize) ≠ 0 ∧ s.mem (posAddr s.mem f p) = 0

section Runs

variable {s s' : History} {op : FsOp}

theorem FsOp.Effect.alloc_zero {m m' : Mem} {r : Option ℕ} {f p : ℕ} (he : op.Effect m r m')
    (h : FsInv m) (hzero : ZeroAlloc m op) (hf : IsFile m f) (hreg : ¬ IsDir m f) (hi : p / blksize < ndirect)
    (hz : direct m f (p / blksize) = 0) (hv : direct m' f (p / blksize) ≠ 0)
    (hfree : IsFree m (direct m' f (p / blksize))) (hno : ¬ Covered m' op f p) :
    m (direct m' f (p / blksize) * blksize + p % blksize) = 0 := by
  have hnew : direct m' f (p / blksize) ≠ direct m f (p / blksize) := by rwa [hz]
  cases he with
  | refused | opened | readDir => exact absurd rfl hnew
  | created _ _ _ hc => exact absurd ((hc.node f hf hreg).direct hi) hnew
  | @read g _ _ _ _ _ hw hd =>
    by_cases hg : f = g
    · subst hg
      exact hzero p (not_not.mp fun hc => hnew (hd _ hi hc)) hz not_false _ hfree
    · exact absurd ((hw.only.node f hf.1 hg).direct hi) hnew
  | @wrote g count offset hi' buf _ hg hgreg hlast _ hhi hend hw hd =>
    by_cases hne : f = g
    · subst hne
      have hmem := not_not.mp fun hc => hnew (hd _ hi hc)
      refine hzero p (blocksOf_mono hhi hmem) hz (fun hin => ?_) _ hfree
      -- a byte of the range that was not reached would be in the block that was missing
      by_cases hp : p < hi'
      · exact hno (covered_of_written hw hlast hhi ⟨hin.1, hp⟩)
      · have hsame : hi' / blksize = p / blksize := by
          have := (mem_blocksOf.mp hmem).2.2
          unfold blksize at this ⊢
          omega
        exact hv (hsame ▸ hend (by omega))
    · have hmax := (maxfilesize_ge hlast).1
      have ho := (grown_resized h hg hgreg hmax).only.trans hw.only hgreg
      exact absurd ((ho.node f hf.1 hne).direct hi) hnew
  | @resized g _ _ _ _ hres _ =>
    by_cases hg : f = g
    · subst hg
      exact absurd (hres.direct _ hi) (by tauto)
    · exact absurd ((hres.only.node f hf.1 hg).direct hi) hnew

theorem FreshInv.step (h : FreshInv s) (hok : HistoryCond s op) (hs : s.step op = some s') :
    FreshInv s' := by
  obtain ⟨hwf, hop, hzero⟩ := hok
  unfold History.step at hs
  cases hex : op.exec s.mem with
  | stop e m =>
    rw [hex] at hs
    cases hs
  | ret r m' =>
    rw [hex] at hs
    cases hs
    have he := (FsOp.wp_exec h.inv hwf hop).ret hex
    refine ⟨he.inv h.inv, fun f p hf hreg hfresh => ?_⟩
    obtain ⟨hno, hv, hold⟩ := of_decide_eq_true hfresh
    obtain ⟨hfile, hkept⟩ := he.kept h.inv
    obtain ⟨hf₀, hreg₀⟩ := (hfile f hf hreg).resolve_right fun hz => hv (hz _)
    have hk := hkept f hf₀ hreg₀
    show p < ndirect * blksize ∧ direct m' f (p / blksize) ≠ 0 ∧ m' (posAddr m' f p) = 0
    rcases hk.slot (p / blksize) with hsame | hz | ⟨hlt, hz, hfree⟩
    · -- the block was there: the byte was fresh before
      have hold' := hold.resolve_left (hsame ▸ hv)
      obtain ⟨hp, hv₀, hb⟩ := h.zero f p hf₀ hreg₀ hold'
      rw [blockAt_direct (pos_div_lt hp), blockAt_direct (pos_div_lt hp)] at hsame
      have haddr : posAddr m' f p = posAddr s.mem f p := by
        unfold posAddr
        rw [hsame]
      have hv' : direct m' f (p / blksize) ≠ 0 := by rwa [hsame]
      refine ⟨hp, hv', ?_⟩
      rw [hk.byte p hp hno hv', haddr]
      exact hb
    · exact absurd hz hv
    · have hp : p < ndirect * blksize := by
        unfold ndirect blksize at *
        omega
      rw [blockAt_direct hlt] at hv hz hfree
      exact ⟨hp, hv, (hk.byte p hp hno hv).trans
        (he.alloc_zero h.inv hzero hf₀ hreg₀ hlt hz hv hfree hno)⟩

/-- In every run whose calls keep to the direct blocks of files that are not
directories, and find zero blocks where they allocate, the bytes that no write
has covered since their block was allocated read as zero. -/
theorem unwritten_bytes_zero {m₀ : Mem} (h₀ : FsInv m₀) {s : History}
    (hr : Sys.Reach History.step HistoryCond { mem := m₀ } s) :
    ∀ f p, IsFile s.mem f → ¬ IsDir s.mem f → p < fileSize s.mem f → s.fresh f p = true →
      fileRead f 1 p s.mem = .ret (.ok [0]) s.mem := by
  have hinv : FreshInv s := by
    refine Sys.Reach.inv (I := FreshInv) ⟨h₀, fun f p _ _ hc => by cases hc⟩ ?_ hr
    intro s op s' h hok hs
    exact h.step hok hs
  intro f p hf hreg hsize hfresh
  obtain ⟨hp, hv, hb⟩ := hinv.zero f p hf hreg hfresh
  have hend : readEnd s.mem f 1 p = p + 1 := by
    unfold readEnd
    omega
  have hread : fileRead f 1 p s.mem =
      .ret (.ok (fileBytes s.mem f p (readEnd s.mem f 1 p))) s.mem := by
    refine fileRead_full hinv.inv hf (Nat.lt_trans hp (by decide)) (fun _ => ?_) fun q hlo hhi => ?_
    · rw [hend]
      exact hp
    · obtain rfl : q = p := by omega
      exact hv
  have hbytes : fileBytes s.mem f p (p + 1) = [0] := by
    rw [fileBytes, Nat.add_sub_cancel_left]
    show [s.mem (posAddr s.mem f (p + 0))] = [0]
    rw [Nat.add_zero, hb]
  rw [hread, hend, hbytes]

theorem Demo.free_ge {b : ℕ} (hb : IsFree image b) : 4 ≤ b := by
  have hlow : ∀ b < 4, ¬ IsFree image b := by decide +kernel
  by_contra hlt
  exact hlow b (by omega) hb

theorem Demo.free_zero (b : ℕ) (hb : IsFree image b) (o : ℕ) : image (b * blksize + o) = 0 := by
  have hge := free_ge hb
  have hzero : ∀ a, 4 * blksize ≤ a → image a = 0 := by
    intro a ha
    unfold blksize at ha
    unfold image wr32 bitmapStart fDirect fType fSize sRoot sNblocks sMagic blksize
    repeat rw [if_neg (by omega)]
    exact if_neg (by omega)
  exact hzero _ (by unfold blksize; omega)

/-- Four bytes at offset four: the first four are not written. -/
theorem unwritten_bytes_zero_gap : ∃ s, Sys.Reach History.step HistoryCond { mem := image } s ∧
    s.fresh file 0 = true ∧ fileRead file 1 0 s.mem = .ret (.ok [0]) s.mem := by
  have hwf : (FsOp.write file (fun _ => 7) 4 4).Wf image :=
    ⟨isFile_image.1, by decide⟩
  have hop : (FsOp.write file (fun _ => 7) 4 4).Ok image :=
    ⟨isFile_image.2, by decide⟩
  have hok : Sys.AllOk History.step HistoryCond [.write file (fun _ => 7) 4 4]
      { mem := image } :=
    ⟨⟨hwf, hop, fun _ _ _ _ b hb => free_zero b hb _⟩, fun _ _ => trivial⟩
  obtain ⟨s, hr, hroot, hl, hreg, hsize, hfresh⟩ := Sys.exists_reach_of (P := fun s => Root s.mem ∧ s.mem
      file ≠ 0 ∧ ¬ IsDir s.mem file ∧ fileSize s.mem file = 8 ∧ s.fresh file 0 = true) hok
      (by decide +kernel)
  refine ⟨s, hr, hfresh, ?_⟩
  exact unwritten_bytes_zero fsInv hr file 0 (hroot.isFile (by decide) hl) hreg
    (by rw [hsize]; decide) hfresh

def Demo.second : ℕ := dirEntry (3 * blksize) 1

/-- The calls are made on the two files, with small sizes. -/
def Demo.Wf (m : Mem) (op : FsOp) : Prop :=
  fileType m sRoot = ftypeDir ∧ fileSize m sRoot = blksize ∧ direct m sRoot 0 = 3 ∧
  match op with
  | .write f _ count offset => (f = file ∨ f = second) ∧ m f ≠ 0 ∧ offset + count ≤ maxfilesize
  | .setSize f n => f = file ∧ m f ≠ 0 ∧ n ≤ maxfilesize
  | .read _ _ _ => False
  | _ => True

instance (m : Mem) (op : FsOp) : Decidable (Wf m op) := by
  unfold Wf
  cases op <;> infer_instance

theorem Demo.Wf.wf {m : Mem} (h : Wf m op) : op.Wf m := by
  obtain ⟨ht, hs, hd, h⟩ := h
  cases op with
  | create _ => trivial
  | «open» _ => trivial
  | read _ _ _ => exact h.elim
  | write f buf count offset =>
    obtain ⟨rfl | rfl, hl, hle⟩ := h
    · exact ⟨isFile (by decide) ht hs hd hl, hle⟩
    · exact ⟨isFile (by decide) ht hs hd hl, hle⟩
  | setSize f n =>
    obtain ⟨rfl, hl, hle⟩ := h
    exact ⟨isFile (by decide) ht hs hd hl, hle⟩

/-- One file is written and truncated; a byte of another, in the block that the
first had, reads as what was written there. -/
theorem unwritten_bytes_leak : FsInv image ∧ ∃ s,
    Sys.Reach History.step (fun s op => op.Wf s.mem) { mem := image } s ∧
    s.fresh second 0 = true ∧ fileSize s.mem second = 8 ∧
    wp (fileRead second 1 0) (fun r _ => r = .ok [7]) (fun _ _ => False) s.mem := by
  refine ⟨fsInv, ?_⟩
  let ops : List FsOp := [.write file (fun _ => 7) 8 0, .setSize file 0,
    .create ⟨[98], by decide⟩, .write second (fun _ => 9) 1 7]
  have hok : Sys.AllOk History.step (fun s op => Wf s.mem op) ops { mem := image } := by
    decide +kernel
  exact Sys.exists_reach_of (hok.mono fun _ _ h => h.wf) (by decide +kernel)

end Runs

end Fs

end Jos
