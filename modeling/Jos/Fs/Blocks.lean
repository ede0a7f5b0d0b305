/-
Reading and writing a file, block by block.

* `Written m m' f lo hi val` — from `m` to `m'` the bytes `lo` to `hi` of file
  `f` became `val`; holes may have got a block, and nothing else changed;
* `wp_fileGetBlock`, `writeLoop_written`, `readLoop_written` — the block mapper
  and the two loops, for the direct blocks of a file that is not a directory;
* `readLoop_eq` — reading where there are no holes, which changes nothing.
-/
import Jos.Fs.Space

namespace Jos

open Prog Bytes

namespace Fs

/-! ### The block mapper -/

section GetBlock

variable {m m' : Mem} {f i b c : ℕ}

theorem fileBlockWalk_direct (hi : i < ndirect) (alloc : Bool) :
    fileBlockWalk f i alloc m = .ret (.ok (fDirect f i)) m := by
  rw [fileBlockWalk, if_pos hi]
  rfl

theorem Node.inDisk_direct (hf : Node m f) (hs : Sound m) (hi : i < ndirect) :
    InDisk m (fDirect f i) := by
  have := hf.inDisk hs (k := 136 + 4 * i) (by unfold ndirect at hi; omega)
  rwa [← Nat.add_assoc] at this

theorem fileGetBlock_direct (hs : Sound m) (hf : Node m f) (hi : i < ndirect) :
    fileGetBlock f i m = (if direct m f i = 0 then do
        let r ← allocBlock
        if r < 0 then pure (.error r)
        else do
          store32 (fDirect f i) r.toNat
          let blk ← diskaddr r.toNat
          pure (.ok blk)
      else do
        let blk ← diskaddr (direct m f i)
        pure (.ok blk) : FsM (Except ℤ ℕ)) m := by
  rw [fileGetBlock, ret_bind (fileBlockWalk_direct hi true)]
  exact ret_bind (load32_eq (hf.inDisk_direct hs hi))

theorem fileGetBlock_has (hs : Sound m) (hf : Node m f) (hi : i < ndirect) (hv : direct m f i ≠ 0)
    (hlt : direct m f i < nblocks m) :
    fileGetBlock f i m = .ret (.ok (direct m f i * blksize)) m := by
  rw [fileGetBlock_direct hs hf hi, if_neg hv, ret_bind (diskaddr_eq hv hlt)]
  rfl

theorem Sound.free_ge (hs : Sound m) (hb : IsFree m b) : firstBlock m ≤ b := by
  by_contra hlt
  exact hs.reserved b (Nat.not_le.mp hlt) hb

theorem fileGetBlock_hole (hs : Sound m) (hf : Node m f) (hi : i < ndirect)
    (hz : direct m f i = 0) :
    (fileGetBlock f i m = .ret (.error (-eNoDisk)) m ∧ ∀ c, ¬ IsFree m c) ∨
    ∃ b, IsFree m b ∧ (∀ c < b, ¬ IsFree m c) ∧
      fileGetBlock f i m = .ret (.ok (b * blksize)) (allocSlot m f i b) := by
  rw [fileGetBlock_direct hs hf hi, if_pos hz]
  rcases allocBlock_cases hs with ⟨hno, hfull⟩ | ⟨b, hb, hfirst, hyes⟩
  · left
    rw [ret_bind hno, if_pos (by decide)]
    exact ⟨rfl, hfull⟩
  · right
    refine ⟨b, hb, hfirst, ?_⟩
    have hin : InDisk (markUsed m b) (fDirect f i) := by
      unfold InDisk
      rw [nblocks_markUsed]
      exact hf.inDisk_direct hs hi
    have hn : nblocks (allocSlot m f i b) = nblocks m := by
      refine (nblocks_wr32 ?_).trans (nblocks_markUsed m b)
      have := (hf.bounds hs).1
      unfold sRoot sNblocks fDirect at *
      omega
    have hpos : b ≠ 0 := by
      have := hs.free_ge hb
      have := firstBlock_ge m
      omega
    rw [ret_bind hyes, if_neg (by omega), Int.toNat_natCast, ret_bind (store32_eq hin b)]
    have haddr : diskaddr b (allocSlot m f i b) = .ret (b * blksize) (allocSlot m f i b) :=
      diskaddr_eq hpos (by rw [hn]; exact hb.1)
    exact ret_bind haddr

end GetBlock

/-! ### Bytes of a file -/

/-- Where byte `p` of the file is, in a direct block. -/
def posAddr (m : Mem) (f p : ℕ) : ℕ := direct m f (p / blksize) * blksize + p % blksize

structure Written (m m' : Mem) (f lo hi : ℕ) (val : ℕ → UInt8) : Prop where
  inv : FsInv m'
  only : Only m m' f
  size : fileSize m' f = fileSize m f
  indirect : indirect m' f = indirect m f
  slots : ∀ i < ndirect, direct m' f i = direct m f i ∨ (direct m f i = 0 ∧ IsFree m (direct m' f i))
  free : ∀ c, IsFree m' c → IsFree m c ∧ BlockEq m m' c
  rest : ∀ s : Slot, s.Valid m → s.file = f → (∀ i, s ≠ .direct f i) → s.val m ≠ 0 →
    BlockEq m m' (s.val m)
  inside : ∀ p, lo ≤ p → p < hi → direct m' f (p / blksize) ≠ 0 ∧ m' (posAddr m' f p) = val p
  outside : ∀ p < ndirect * blksize, ¬ (lo ≤ p ∧ p < hi) → direct m' f (p / blksize) ≠ 0 →
    m' (posAddr m' f p) = m (posAddr m' f p)

section Written

variable {m m₁ m' : Mem} {f i b lo mid hi : ℕ} {val : ℕ → UInt8}

theorem pos_div_lt {p : ℕ} (hp : p < ndirect * blksize) : p / blksize < ndirect := by
  unfold ndirect blksize at *
  omega

theorem Written.refl (h : FsInv m) (f lo : ℕ) (val : ℕ → UInt8) : Written m m f lo lo val where
  inv := h
  only := Only.refl h f
  size := rfl
  indirect := rfl
  slots _ _ := .inl rfl
  free _ hc := ⟨hc, fun _ _ => rfl⟩
  rest _ _ _ _ _ _ _ := rfl
  inside p hlo hhi := by omega
  outside _ _ _ _ := rfl

theorem Written.kept (h : Written m m' f lo hi val) (hi : i < ndirect) (hv : direct m f i ≠ 0) :
    direct m' f i = direct m f i := by
  rcases h.slots i hi with heq | ⟨hz, -⟩
  · exact heq
  · exact absurd hz hv

theorem Written.slot_val {s : Slot} (h : Written m m' f lo hi val) (hs : s.Valid m)
    (hsf : s.file = f) (hd : ∀ i, s ≠ .direct f i) : s.Inner m' ∧ s.val m' = s.val m := by
  obtain ⟨hfile, hin⟩ := hs
  cases s with
  | direct g i =>
    obtain rfl : g = f := hsf
    exact absurd rfl (hd i)
  | indirect g =>
    obtain rfl : g = f := hsf
    exact ⟨trivial, h.indirect⟩
  | entry g k =>
    obtain rfl : g = f := hsf
    obtain ⟨hk, hne⟩ := hin
    have hblock := h.rest (.indirect g) ⟨hfile, trivial⟩ rfl (fun i hc => by cases hc) hne
    refine ⟨⟨hk, by rwa [h.indirect]⟩, ?_⟩
    show blockWord m' (Fs.indirect m' g) k = blockWord m (Fs.indirect m g) k
    rw [h.indirect]
    exact hblock.word hk

theorem Written.trans (h : Written m m₁ f lo mid val) (h' : Written m₁ m' f mid hi val)
    (hf : IsFile m f) (hreg : ¬ IsDir m f) (hlm : lo ≤ mid) (hmh : mid ≤ hi)
    (hhi : hi ≤ ndirect * blksize) : Written m m' f lo hi val where
  inv := h'.inv
  only := h.only.trans h'.only hreg
  size := h'.size.trans h.size
  indirect := h'.indirect.trans h.indirect
  slots i hi := by
    rcases h'.slots i hi with heq | ⟨hz, hfree⟩
    · rw [heq]
      exact h.slots i hi
    · refine .inr ⟨?_, (h.free _ hfree).1⟩
      by_contra hv
      exact hv ((h.kept hi hv).symm.trans hz)
  free c hc := by
    obtain ⟨hc₁, heq'⟩ := h'.free c hc
    obtain ⟨hc₀, heq⟩ := h.free c hc₁
    exact ⟨hc₀, fun o ho => (heq' o ho).trans (heq o ho)⟩
  rest s hs hsf hd hv o ho := by
    obtain ⟨hin, hval⟩ := h.slot_val hs hsf hd
    have hs₁ : s.Valid m₁ := ⟨hsf ▸ (h.only.isFile hreg f).mpr hf, hin⟩
    have hb' := h'.rest s hs₁ hsf hd (hval ▸ hv)
    rw [hval] at hb'
    exact (hb' o ho).trans (h.rest s hs hsf hd hv o ho)
  inside p hlo hhi' := by
    by_cases hp : p < mid
    · obtain ⟨hv, hbyte⟩ := h.inside p hlo hp
      have hk := h'.kept (pos_div_lt (by omega)) hv
      have hout := h'.outside p (by omega) (by omega) (hk ▸ hv)
      have haddr : posAddr m' f p = posAddr m₁ f p := by
        unfold posAddr
        rw [hk]
      rw [haddr] at hout ⊢
      exact ⟨hk ▸ hv, hout.trans hbyte⟩
    · exact h'.inside p (by omega) hhi'
  outside p hp hno hv := by
    have hout' := h'.outside p hp (by omega) hv
    have hlt := pos_div_lt hp
    rcases h'.slots _ hlt with heq | ⟨-, hfree⟩
    · have haddr : posAddr m' f p = posAddr m₁ f p := by
        unfold posAddr
        rw [heq]
      rw [haddr] at hout' ⊢
      exact hout'.trans (h.outside p hp (by omega) (heq ▸ hv))
    · -- the block was free until the second stretch, so the first left it alone
      refine hout'.trans ((h.free _ hfree).2 _ ?_)
      exact Nat.mod_lt _ (by decide)

theorem FsInv.node_block_free (h : FsInv m) (hf : Entry m f) (hb : IsFree m b) :
    f / blksize ≠ b := by
  rintro rfl
  rcases hf.block with rfl | ⟨d, i, j, hd, -, hi, hv, hj, rfl⟩
  · have := h.sound.free_ge hb
    have := h.sound.first_gt
    have h1 : sRoot / blksize = 1 := rfl
    omega
  · have hdiv := dirEntry_div (direct m d i) hj (k := 0) (by omega)
    rw [Nat.add_zero] at hdiv
    rw [hdiv] at hb
    exact h.owned.used (.direct d i) ⟨hd, hi⟩ hv hb

theorem written_allocSlot (h : FsInv m) (hf : IsFile m f) (hreg : ¬ IsDir m f) (hi : i < ndirect)
    (hz : direct m f i = 0) (hb : IsFree m b) (lo : ℕ) (val : ℕ → UInt8) :
    Written m (allocSlot m f i b) f lo lo val := by
  have hs := h.sound
  have hnode := hf.1.node h.owned
  obtain ⟨hinv, honly⟩ := allocSlot_inv h hf hreg hi hb
  have hslot : ∀ j < ndirect, direct (allocSlot m f i b) f j = if j = i then b else direct m f j :=
    fun j hj => allocSlot_direct hs hnode hb.1 hj
  have hblock : ∀ c, InRange m c → f / blksize ≠ c → BlockEq m (allocSlot m f i b) c :=
    fun c hc hfc => allocSlot_blockEq hs hnode hi hb.1 hc hfc
  refine ⟨hinv, honly, allocSlot_size hs hnode hb.1, allocSlot_indirect hs hnode hi hb.1, ?_, ?_,
    ?_, fun p hlo hhi => by omega, ?_⟩
  · intro j hj
    rw [hslot j hj]
    split
    next hji =>
      subst hji
      exact .inr ⟨hz, hb⟩
    next => exact .inl rfl
  · intro c hc
    have hc' := ((allocSlot_isFree hs hnode hi).mp hc).1
    exact ⟨hc', hblock c (h.free_unowned hc').1 (h.node_block_free hf.1 hc')⟩
  · intro s hv hsf hd hne
    have hplain : s.Plain m := by
      cases s with
      | direct g j =>
        obtain rfl : g = f := hsf
        exact absurd rfl (hd j)
      | _ => trivial
    exact hblock _ (h.owned.range s hv hne) (h.node_block hf.1 hv hplain hne)
  · intro p hp _ hne
    have hlt := pos_div_lt hp
    have hmod : p % blksize < blksize := Nat.mod_lt _ (by decide)
    rw [hslot _ hlt] at hne
    unfold posAddr
    rw [hslot _ hlt]
    split at hne
    next hji =>
      rw [if_pos hji]
      exact hblock b (h.free_unowned hb).1 (h.node_block_free hf.1 hb) _ hmod
    next hji =>
      rw [if_neg hji]
      exact hblock _ (h.owned.range (.direct f (p / blksize)) ⟨hf, hlt⟩ hne)
        (h.node_block (s := .direct f (p / blksize)) hf.1 ⟨hf, hlt⟩ hreg hne) _ hmod

theorem FsInv.fill_self (h : FsInv m) (hf : IsFile m f) (hreg : ¬ IsDir m f)
    (hlo : lo / blksize < ndirect) (hv : direct m f (lo / blksize) ≠ 0) {n : ℕ}
    (hn : lo % blksize + n ≤ blksize) (buf : ℕ → UInt8) :
    NodeEq m (fill m (posAddr m f lo) n buf) f :=
  fill_nodeEq h.sound (hf.1.node h.owned) hn
    (h.node_block (s := .direct f (lo / blksize)) hf.1 ⟨hf, hlo⟩ hreg hv)

theorem Enough.fill {S : Finset ℕ} (he : Enough m f S) (hS : ∀ j ∈ S, j < ndirect) (h : FsInv m)
    (hf : IsFile m f) (hreg : ¬ IsDir m f) (hlo : lo / blksize < ndirect)
    (hv : direct m f (lo / blksize) ≠ 0) {n : ℕ} (hn : lo % blksize + n ≤ blksize)
    (buf : ℕ → UInt8) : Enough (Bytes.fill m (posAddr m f lo) n buf) f S := by
  have hrange : InRange m (direct m f (lo / blksize)) :=
    h.owned.range (.direct f (lo / blksize)) ⟨hf, hlo⟩ hv
  refine (Enough.congr (fun c => fill_isFree buf c h.sound hrange hn) fun j hj => ?_).mpr he
  exact (h.fill_self hf hreg hlo hv hn buf).direct (hS j hj)

theorem written_fill (n : ℕ) (buf val : ℕ → UInt8) (h : FsInv m) (hf : IsFile m f) (hreg : ¬ IsDir m f)
    (hlo : lo / blksize < ndirect) (hv : direct m f (lo / blksize) ≠ 0)
    (hn : lo % blksize + n ≤ blksize) (hval : ∀ p, lo ≤ p → val p = buf (p - lo)) :
    Written m (fill m (posAddr m f lo) n buf) f lo (lo + n) val := by
  have hs := h.sound
  have hrange : InRange m (direct m f (lo / blksize)) :=
    h.owned.range (.direct f (lo / blksize)) ⟨hf, hlo⟩ hv
  obtain ⟨hinv, honly⟩ := fillBlock_inv buf h hf hreg hlo hv hn
  have hself := h.fill_self hf hreg hlo hv hn buf
  have haddr : ∀ {p}, p / blksize < ndirect →
      posAddr (fill m (posAddr m f lo) n buf) f p = posAddr m f p := by
    intro p hp
    unfold posAddr at hself ⊢
    rw [hself.direct hp]
  refine ⟨hinv, honly, hself.size, hself.indirect, fun j hj => .inl (hself.direct hj), ?_, ?_, ?_, ?_⟩
  · intro c hc
    have hc' := (fill_isFree buf _ hs hrange hn).mp hc
    refine ⟨hc', fill_blockEq hn fun hcb => ?_⟩
    rw [hcb] at hc'
    exact h.owned.used (.direct f (lo / blksize)) ⟨hf, hlo⟩ hv hc'
  · intro s hsv hsf hd hne
    refine fill_blockEq hn fun hb => hd (lo / blksize) ?_
    exact h.owned.single s (.direct f (lo / blksize)) hsv ⟨hf, hlo⟩ hne hb
  · intro p hp hp'
    have hdiv : p / blksize = lo / blksize := by
      unfold blksize at *
      omega
    have hmod : posAddr m f p = posAddr m f lo + (p - lo) := by
      unfold posAddr
      rw [hdiv]
      unfold blksize at *
      omega
    refine ⟨by rw [hdiv, hself.direct hlo]; exact hv, ?_⟩
    rw [haddr (hdiv ▸ hlo), hmod, fill, if_pos (by omega), Nat.add_sub_cancel_left, hval p hp]
  · intro p hp hno hne
    have hlt := pos_div_lt hp
    rw [haddr hlt]
    rw [hself.direct hlt] at hne
    by_cases hdiv : p / blksize = lo / blksize
    · -- the same block, beside the stretch
      refine if_neg fun hin => hno ?_
      unfold posAddr at hin
      rw [hdiv] at hin
      unfold blksize at *
      omega
    · refine fill_blockEq hn (fun hb => hdiv ?_) _ (Nat.mod_lt _ (by decide))
      have heq := h.owned.single (.direct f (p / blksize)) (.direct f (lo / blksize)) ⟨hf, hlt⟩
        ⟨hf, hlo⟩ hne hb
      exact (Slot.direct.inj heq).2

end Written

/-! ### Positions -/

section Pos

variable {pos last n : ℕ}

theorem toInt32_of_lt (h : n < 2 ^ 31) : toInt32 n = n := by
  unfold toInt32
  rw [Nat.mod_eq_of_lt (by omega), if_pos h]

theorem u32_natCast (h : n < 2 ^ 32) : u32 n = n := by
  unfold u32
  omega

theorem posBlock_eq (h : pos < 2 ^ 31) : posBlock pos = pos / blksize := by
  unfold posBlock
  rw [toInt32_of_lt h]
  exact u32_natCast (Nat.lt_of_le_of_lt (Nat.div_le_self _ _) (by omega))

theorem posOff_eq (h : pos < 2 ^ 31) : posOff pos = (pos % blksize : ℕ) := by
  unfold posOff
  rw [toInt32_of_lt h]
  rfl

theorem toNat_posOff {m : Mem} {f : ℕ} (h : pos < 2 ^ 31) :
    (((direct m f (pos / blksize) * blksize : ℕ) : ℤ) + posOff pos).toNat = posAddr m f pos := by
  rw [posOff_eq h]
  exact Int.toNat_natCast _

theorem chunk_eq (h : pos ≤ last) (hlast : last < 2 ^ 31) :
    chunk pos last = min (blksize - pos % blksize) (last - pos) := by
  unfold chunk
  rw [posOff_eq (by omega)]
  have h1 : u32 ((blksize : ℤ) - (pos % blksize : ℕ)) = blksize - pos % blksize := by
    unfold u32 blksize at *
    omega
  have h2 : u32 ((last : ℤ) - pos) = last - pos := by
    unfold u32
    omega
  rw [h1, h2]

theorem round_next (h : pos < last) (hlast : last < 2 ^ 31) :
    u32 (pos + chunk pos last) = pos + chunk pos last ∧ pos < pos + chunk pos last ∧
      pos + chunk pos last ≤ last ∧ pos % blksize + chunk pos last ≤ blksize ∧
      (pos + chunk pos last < last → (pos + chunk pos last) / blksize = pos / blksize + 1) := by
  rw [chunk_eq (Nat.le_of_lt h) hlast]
  have hlt : pos % blksize < blksize := Nat.mod_lt _ (by decide)
  refine ⟨?_, by omega, by omega, by omega, fun hnext => ?_⟩
  · unfold u32
    omega
  · unfold blksize at *
    omega

/-- Enough rounds are left. -/
def Fuel (last n pos : ℕ) : Prop := 1 ≤ n ∧ (pos < last → last / blksize + 2 ≤ n + pos / blksize)

theorem Fuel.next (h : Fuel last (n + 1) pos) (hpos : pos < last) (hlast : last < 2 ^ 31) :
    Fuel last n (pos + chunk pos last) := by
  obtain ⟨-, hle, hend, -, hdiv⟩ := round_next hpos hlast
  have hmono : pos / blksize ≤ last / blksize := Nat.div_le_div_right (Nat.le_of_lt hpos)
  have hn := h.2 hpos
  refine ⟨by omega, fun hc => ?_⟩
  rw [hdiv hc]
  omega

theorem fuel_maxRounds (hlast : last < 2 ^ 31) : Fuel last maxRounds pos := by
  unfold Fuel maxRounds blksize
  omega

end Pos

/-! ### The loops -/

section Loops

variable {m : Mem} {f i last : ℕ} {val : ℕ → UInt8}

theorem wp_fileGetBlock {Q : Except ℤ ℕ → Mem → Prop} {R : FsStop → Mem → Prop}
    (val : ℕ → UInt8) (h : FsInv m)
    (hf : IsFile m f) (hreg : ¬ IsDir m f) (hi : i < ndirect) (lo : ℕ)
    (hfull : direct m f i = 0 → (∀ c, ¬ IsFree m c) → Q (.error (-eNoDisk)) m)
    (hblock : ∀ m', Written m m' f lo lo val → direct m' f i ≠ 0 →
      (∀ j < ndirect, j ≠ i → direct m' f j = direct m f j) →
      (∀ S, (∀ j ∈ S, j < ndirect) → i ∈ S → Enough m f S → Enough m' f S) →
      Q (.ok (direct m' f i * blksize)) m') :
    wp (fileGetBlock f i) Q R m := by
  have hnode := hf.1.node h.owned
  by_cases hz : direct m f i = 0
  · rcases fileGetBlock_hole h.sound hnode hi hz with ⟨heq, hnone⟩ | ⟨b, hb, -, heq⟩
    · exact (wp_of_ret heq).mpr (hfull hz hnone)
    · rw [wp_of_ret heq]
      have hslot := allocSlot_direct h.sound hnode hb.1 (i := i) hi
      rw [if_pos rfl] at hslot
      have hpos : b ≠ 0 := by
        have := h.sound.free_ge hb
        have := firstBlock_ge m
        omega
      have hq := hblock _ (written_allocSlot h hf hreg hi hz hb lo val) (by rwa [hslot])
        (fun j hj hne => by rw [allocSlot_direct h.sound hnode hb.1 hj, if_neg hne])
        fun S hS hiS he => he.alloc h.sound hnode hS hiS hz hb hpos
      rwa [hslot] at hq
  · have hr := h.owned.range (.direct f i) ⟨hf, hi⟩ hz
    rw [wp_of_ret (fileGetBlock_has h.sound hnode hi hz hr.2)]
    exact hblock m (Written.refl h f lo val) hz (fun _ _ _ => rfl) fun _ _ _ he => he

theorem writeLoop_written {buf : ℕ → UInt8} (val : ℕ → UInt8) (hlast : last ≤ ndirect * blksize) :
    ∀ n pos k m, FsInv m → IsFile m f → ¬ IsDir m f → pos ≤ last → Fuel last n pos →
    (∀ p, pos ≤ p → val p = buf (k + (p - pos))) →
    wp (writeLoop f last buf n pos k) (fun r m' => ∃ hi, pos ≤ hi ∧ hi ≤ last ∧
      Written m m' f pos hi val ∧ (r = none ∧ hi = last ∨ r = some (-eNoDisk) ∧ hi < last ∧
        direct m' f (hi / blksize) = 0 ∧ (∀ c, ¬ IsFree m' c) ∧ ¬ Enough m f (blocksOf pos last)) ∧
      ∀ i < ndirect, i ∉ blocksOf pos hi → direct m' f i = direct m f i) (fun _ _ => False) m := by
  have hsmall : last < 2 ^ 31 := Nat.lt_of_le_of_lt hlast (by decide)
  intro n
  induction n with
  | zero =>
    intro pos k m _ _ _ _ hfuel _
    exact absurd hfuel.1 (by omega)
  | succ n ih =>
    intro pos k m h hf hreg hpos hfuel hval
    rw [writeLoop]
    by_cases hlt : pos < last
    · obtain ⟨hnext, hgt, hend, hroom, -⟩ := round_next hlt hsmall
      have hdiv : pos / blksize < ndirect := pos_div_lt (by omega)
      rw [if_pos hlt, wp_bind, posBlock_eq (by omega)]
      have hmem := div_mem_blocksOf hlt hdiv
      refine wp_fileGetBlock val h hf hreg hdiv pos (fun hz hnone => ?_) fun m₁ hw₁ hv₁ hd₁ he₁ => ?_
      · exact ⟨pos, Nat.le_refl _, hpos, Written.refl h f pos val,
          .inr ⟨rfl, hlt, hz, hnone, not_enough hmem hz hnone⟩, fun _ _ _ => rfl⟩
      · obtain ⟨hf₁, hreg₁⟩ := hw₁.only.still hf hreg
        -- the bytes of this round
        have hw₂ := written_fill (chunk pos last) (fun i => buf (k + i)) val hw₁.inv hf₁ hreg₁ hdiv
          hv₁ hroom hval
        obtain ⟨hf₂, hreg₂⟩ := hw₂.only.still hf₁ hreg₁
        show wp _ _ _ _
        rw [wp_bind, wp_modify, toNat_posOff (by omega), hnext]
        refine (ih _ _ _ hw₂.inv hf₂ hreg₂ hend (hfuel.next hlt hsmall) ?_).imp ?_
        · intro p hp
          rw [hval p (by omega)]
          congr 1
          omega
        · rintro r m' ⟨hi, hlo, hhi, hw₃, hr, hd₃⟩
          have hw₁₂ := hw₁.trans hw₂ hf hreg (Nat.le_refl _) (by omega) (by omega)
          refine ⟨hi, by omega, hhi, hw₁₂.trans hw₃ hf hreg (by omega) hlo (by omega),
            hr.imp_right fun ⟨hr, hl, hz, hnone, hno⟩ => ⟨hr, hl, hz, hnone, fun he => hno ?_⟩,
            fun j hj hno => ?_⟩
          · have hne : j ≠ pos / blksize := fun hc => hno (hc ▸ div_mem_blocksOf (by omega) hdiv)
            rw [hd₃ j hj fun hc => hno (blocksOf_anti (by omega) hc),
              (hw₁.inv.fill_self hf₁ hreg₁ hdiv hv₁ hroom _).direct hj, hd₁ j hj hne]
          · have he₂ := (he₁ _ (fun _ => blocksOf_lt) hmem he).fill (fun _ => blocksOf_lt) hw₁.inv hf₁
              hreg₁ hdiv hv₁ hroom fun i => buf (k + i)
            exact he₂.subset (blocksOf_anti (by omega))
    · rw [if_neg hlt, wp_pure]
      have heq : pos = last := by omega
      exact ⟨pos, Nat.le_refl _, hpos, Written.refl h f pos val, .inl ⟨rfl, heq⟩, fun _ _ _ => rfl⟩

def fileBytes (m : Mem) (f pos last : ℕ) : List UInt8 :=
  (List.range (last - pos)).map fun j => m (posAddr m f (pos + j))

theorem fileBytes_append (m : Mem) (f : ℕ) {pos n : ℕ} (hn : pos + n ≤ last)
    (hroom : pos % blksize + n ≤ blksize) :
    fileBytes m f pos last = bytesAt m (posAddr m f pos) n ++ fileBytes m f (pos + n) last := by
  have hlen : last - pos = n + (last - (pos + n)) := by omega
  unfold fileBytes bytesAt
  rw [hlen, List.range_add, List.map_append, List.map_map]
  refine congrArg₂ (· ++ ·) ?_ ?_
  · refine List.map_congr_left fun j hj => ?_
    have hj : j < n := List.mem_range.mp hj
    have haddr : posAddr m f (pos + j) = posAddr m f pos + j := by
      have hdiv : (pos + j) / blksize = pos / blksize := by
        unfold blksize at *
        omega
      unfold posAddr
      rw [hdiv]
      unfold blksize at *
      omega
    rw [haddr]
  · refine List.map_congr_left fun j _ => ?_
    show m (posAddr m f (pos + (n + j))) = _
    rw [← Nat.add_assoc]

theorem readLoop_eq (hs : Sound m) (hf : Node m f) (hlast : last ≤ ndirect * blksize) : ∀ n pos,
    pos ≤ last → Fuel last n pos →
    (∀ p, pos ≤ p → p < last →
      direct m f (p / blksize) ≠ 0 ∧ direct m f (p / blksize) < nblocks m) →
    readLoop f last n pos m = .ret (.ok (fileBytes m f pos last)) m := by
  have hsmall : last < 2 ^ 31 := Nat.lt_of_le_of_lt hlast (by decide)
  intro n
  induction n with
  | zero =>
    intro pos _ hfuel _
    exact absurd hfuel.1 (by omega)
  | succ n ih =>
    intro pos hpos hfuel hall
    rw [readLoop]
    by_cases hlt : pos < last
    · obtain ⟨hnext, hgt, hend, hroom, -⟩ := round_next hlt hsmall
      obtain ⟨hv, hb⟩ := hall pos (Nat.le_refl _) hlt
      have hget := fileGetBlock_has hs hf (pos_div_lt (by omega)) hv hb
      rw [if_pos hlt, posBlock_eq (by omega), ret_bind hget]
      show (gets _ >>= _) m = _
      rw [gets_bind, hnext, ret_bind (ih _ hend (hfuel.next hlt hsmall) fun p hp => hall p (by omega))]
      rw [toNat_posOff (by omega), fileBytes_append m f hend hroom]
      rfl
    · have heq : last - pos = 0 := by omega
      rw [if_neg hlt, fileBytes, heq]
      rfl

theorem readLoop_written (val : ℕ → UInt8) (hlast : last ≤ ndirect * blksize) : ∀ n pos m,
    FsInv m → IsFile m f → ¬ IsDir m f → pos ≤ last → Fuel last n pos →
    wp (readLoop f last n pos) (fun r m' => Written m m' f 0 0 val ∧
      (∀ i < ndirect, i ∉ blocksOf pos last → direct m' f i = direct m f i) ∧
      (∀ data, r = .ok data → data = fileBytes m' f pos last ∧
        ∀ p, pos ≤ p → p < last → direct m' f (p / blksize) ≠ 0) ∧
      ∀ e, r = .error e → e = -eNoDisk) (fun _ _ => False) m := by
  have hsmall : last < 2 ^ 31 := Nat.lt_of_le_of_lt hlast (by decide)
  intro n
  induction n with
  | zero =>
    intro pos m _ _ _ _ hfuel
    exact absurd hfuel.1 (by omega)
  | succ n ih =>
    intro pos m h hf hreg hpos hfuel
    rw [readLoop]
    by_cases hlt : pos < last
    · obtain ⟨hnext, hgt, hend, hroom, -⟩ := round_next hlt hsmall
      have hdiv : pos / blksize < ndirect := pos_div_lt (by omega)
      rw [if_pos hlt, wp_bind, posBlock_eq (by omega)]
      refine wp_fileGetBlock val h hf hreg hdiv 0 (fun _ _ => ?_) fun m₁ hw₁ hv₁ hd₁ _ => ?_
      · exact ⟨Written.refl h f 0 val, fun _ _ _ => rfl, fun data hc => (by cases hc),
          fun e he => (Except.error.inj he).symm⟩
      · obtain ⟨hf₁, hreg₁⟩ := hw₁.only.still hf hreg
        show wp _ _ _ _
        rw [wp_bind, wp_gets, wp_bind, toNat_posOff (by omega), hnext]
        refine (ih _ m₁ hw₁.inv hf₁ hreg₁ hend (hfuel.next hlt hsmall)).imp ?_
        rintro r m' ⟨hw₂, hd₂, hdata, herr⟩
        have hw := hw₁.trans hw₂ hf hreg (Nat.le_refl _) (Nat.le_refl _) (by omega)
        have hd : ∀ j < ndirect, j ∉ blocksOf pos last → direct m' f j = direct m f j := fun j hj hno =>
          (hd₂ j hj fun hc => hno (blocksOf_anti (by omega) hc)).trans
            (hd₁ j hj fun hc => hno (hc ▸ div_mem_blocksOf hlt hdiv))
        cases r with
        | error e => exact ⟨hw, hd, fun data hc => (by cases hc), herr⟩
        | ok rest =>
          obtain ⟨hrest, hfull⟩ := hdata rest rfl
          refine ⟨hw, hd, ?_, fun e hc => by cases hc⟩
          rintro data ⟨⟩
          -- what was read in this round is still there
          have hhere : bytesAt m₁ (posAddr m₁ f pos) (chunk pos last) =
              bytesAt m' (posAddr m' f pos) (chunk pos last) := by
            refine List.map_congr_left fun j hj => ?_
            have hj : j < chunk pos last := List.mem_range.mp hj
            have hsame : (pos + j) / blksize = pos / blksize := by
              unfold blksize at *
              omega
            have hk := hw₂.kept hdiv hv₁
            have hout := hw₂.outside (pos + j) (by omega) (by omega) (by rw [hsame, hk]; exact hv₁)
            have haddr₂ : posAddr m' f (pos + j) = posAddr m₁ f pos + j := by
              unfold posAddr
              rw [hsame, hk]
              unfold blksize at *
              omega
            have haddr₀ : posAddr m' f pos = posAddr m₁ f pos := by
              unfold posAddr
              rw [hk]
            rw [haddr₂] at hout
            rw [haddr₀]
            exact hout.symm
          refine ⟨?_, fun p hp hp' => ?_⟩
          · rw [fileBytes_append m' f hend hroom, hrest, hhere]
          · by_cases hin : p < pos + chunk pos last
            · have hsame : p / blksize = pos / blksize := by
                unfold blksize at *
                omega
              rw [hsame, hw₂.kept hdiv hv₁]
              exact hv₁
            · exact hfull p (by omega) hp'
    · have heq : last - pos = 0 := by omega
      rw [if_neg hlt, wp_pure]
      refine ⟨Written.refl h f 0 val, fun _ _ _ => rfl, ?_, fun e hc => by cases hc⟩
      rintro data ⟨⟩
      refine ⟨?_, fun p hp hp' => by omega⟩
      rw [fileBytes, heq]
      rfl

end Loops

end Fs

end Jos
