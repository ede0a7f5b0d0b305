/-
Creating a file.

* `putName_inv` — a name is written into an entry that is not in use;
* `growDir_inv` — a directory gets one more block, which is zero;
* `wp_fileCreate` — `file_create` does at most these two (`Created`).
-/
import Jos.Fs.Dir

namespace Jos

open Prog Bytes

namespace Fs

/-! ### Changes to the bitmap and one entry -/

section Changes

variable {m m' : Mem} {d x c : ℕ}

section

variable (hch : ∀ a, m' a ≠ m a → InBitmap m a ∨ (d ≤ a ∧ a < d + 256))
include hch

theorem nodeEq_of_changes (hs : Sound m) (hd : Node m d) (hx : Node m x) (hne : x ≠ d) : NodeEq m m' x := by
  intro k hk
  by_contra hc
  rcases hch _ hc with hb | hin
  · exact hx.not_inBitmap hs hk hb
  · have := hd.apart hx hs (Ne.symm hne)
    omega

theorem blockEq_of_changes (hs : Sound m) (hd : Node m d) (hc : InRange m c) (hne : d / blksize ≠ c) :
    BlockEq m m' c := by
  intro o ho
  by_contra hno
  rcases hch _ hno with hb | hin
  · have := hb.2
    have := Nat.mul_le_mul_right blksize hc.1
    omega
  · have hdiv := (hd.bounds hs).2.1 (c * blksize + o - d) (by omega)
    rw [Nat.add_sub_cancel' hin.1] at hdiv
    refine hne (hdiv.symm.trans ?_)
    unfold blksize at *
    omega

theorem nblocks_of_changes (hs : Sound m) (hd : Node m d) : nblocks m' = nblocks m := by
  refine rd32_congr fun a hlo hhi => ?_
  by_contra hc
  rcases hch a hc with hb | hin
  · have := hb.1
    unfold bitmapStart sNblocks blksize at *
    omega
  · have := (hd.bounds hs).1
    unfold sRoot sNblocks blksize at *
    omega

theorem slot_of_changes {s : Slot} (h : FsInv m) (hd : Entry m d) (hf : IsFile m s.file)
    (hdirect : ∀ i < ndirect, direct m' s.file i = direct m s.file i)
    (hind : indirect m' s.file = indirect m s.file) (hin : s.Inner m') :
    s.Inner m ∧ s.val m' = s.val m := by
  cases s with
  | direct f i => exact ⟨hin, hdirect i hin⟩
  | indirect f => exact ⟨hin, hind⟩
  | entry f k =>
    obtain ⟨hk, hv⟩ := hin
    have hind' : indirect m' f = indirect m f := hind
    rw [hind'] at hv
    refine ⟨⟨hk, hv⟩, ?_⟩
    have hvalid : (Slot.indirect f).Valid m := ⟨hf, trivial⟩
    have hblock : BlockEq m m' (indirect m f) :=
      blockEq_of_changes hch h.sound (hd.node h.owned) (h.owned.range (.indirect f) hvalid hv)
        (h.node_block (s := .indirect f) hd hvalid trivial hv)
    show blockWord m' (indirect m' f) k = blockWord m (indirect m f) k
    rw [hind']
    exact hblock.word hk

end

end Changes

/-! ### A name -/

section Name

variable {m : Mem} {g x : ℕ} {name : List UInt8}

theorem putStr_changes {a : ℕ} (hn : name.length < maxnamelen) (ha : putStr m g name a ≠ m a) :
    g ≤ a ∧ a < g + maxnamelen := by
  by_contra hno
  exact ha (if_neg (by omega))

theorem putStr_named (m : Mem) (g : ℕ) (name : List UInt8) :
    named name (putStr m g name) g = true := strEq_putStr m g name

theorem putName_inv (h : FsInv m) (hg : Entry m g) (hl : ¬ Live m g) (hn : ProperName name) :
    FsInv (putStr m g name) ∧ Vacant (putStr m g name) g ∧
      (∀ x, Entry m x → x ≠ g → NodeEq m (putStr m g name) x) ∧
      (∀ x, Entry (putStr m g name) x ↔ Entry m x) ∧ Live (putStr m g name) g := by
  obtain ⟨m', hm'⟩ : ∃ m', m' = putStr m g name := ⟨_, rfl⟩
  have hnode := hg.node h.owned
  have hchange : ∀ a, m' a ≠ m a → g ≤ a ∧ a < g + maxnamelen := fun a ha =>
    putStr_changes hn.short (hm' ▸ ha)
  have hch : ∀ a, m' a ≠ m a → InBitmap m a ∨ (g ≤ a ∧ a < g + 256) := fun a ha => by
    have := hchange a ha
    unfold maxnamelen at this
    exact .inr (by omega)
  have hname : named name m' g = true := hm' ▸ putStr_named m g name
  rw [← hm']
  have hfield : ∀ k, maxnamelen ≤ k → rd32 m' (g + k) = rd32 m (g + k) := by
    intro k hk
    refine rd32_congr fun a hlo hhi => ?_
    by_contra hne
    have := hchange a hne
    omega
  obtain ⟨hz, ht, hd, hi⟩ := h.vacant g hg hl
  have hvac : Vacant m' g := by
    refine ⟨(hfield 128 (by decide)).trans hz, (hfield 132 (by decide)).trans ht, fun i hi' => ?_,
      (hfield 176 (by decide)).trans hi⟩
    rw [← hd i hi', direct, direct, fDirect, Nat.add_assoc]
    exact hfield _ (by unfold maxnamelen; omega)
  have hnodes : ∀ x, Entry m x → x ≠ g → NodeEq m m' x := fun x hx hne =>
    nodeEq_of_changes hch h.sound hnode (hx.node h.owned) hne
  have hlive : Live m' g := .inr (named_live hn.ne_nil hn.no_zero hname)
  have hreg' : ¬ IsDir m' g := by
    unfold IsDir
    rw [hvac.type]
    decide
  have hentry : ∀ x, Entry m' x ↔ Entry m x := by
    intro x
    refine Entry.congr fun y hy => ?_
    by_cases hyg : y = g
    · subst hyg
      exact ⟨⟨fun hc => absurd hc.2 hreg', fun hc => absurd hc.1 hl⟩, fun hc => absurd hc hl⟩
    · have hn := hnodes y hy hyg
      refine ⟨and_congr hn.live ?_, fun _ _ => ⟨hn.size, fun i hi => hn.direct hi⟩⟩
      unfold IsDir
      rw [hn.type]
  have hfile : ∀ x, x ≠ g → (IsFile m' x ↔ IsFile m x) := by
    intro x hne
    constructor
    · rintro ⟨he, hl⟩
      have he' := (hentry x).mp he
      exact ⟨he', (hnodes x he' hne).live.mp hl⟩
    · rintro ⟨he, hl⟩
      exact ⟨(hentry x).mpr he, (hnodes x he hne).live.mpr hl⟩
  have hblocks : nblocks m' = nblocks m := nblocks_of_changes hch h.sound hnode
  have hfree : ∀ c, IsFree m' c ↔ IsFree m c := by
    intro c
    unfold IsFree
    rw [hblocks]
    refine and_congr_right fun hc => ?_
    have hw : rd32 m' (bitmapWord c) = rd32 m (bitmapWord c) := by
      refine rd32_congr fun a hlo hhi => ?_
      by_contra hne
      have hlt := h.sound.bitmapWord_lt hc
      have hin := hchange a hne
      have hnb := hnode.not_inBitmap h.sound (k := a - g) (by unfold maxnamelen at hin; omega)
      rw [Nat.add_sub_cancel' hin.1] at hnb
      refine hnb ⟨?_, by omega⟩
      unfold bitmapWord at hlo
      omega
    rw [hw]
  have hrange := inRange_congr hblocks
  -- the slots with a number are those of the other files
  have hkept : ∀ s : Slot, s.Valid m' → s.val m' ≠ 0 → s.Valid m ∧ s.val m = s.val m' := by
    intro s hs hv
    have hne : s.file ≠ g := by
      intro hsg
      cases s with
      | direct f i =>
        obtain rfl : f = g := hsg
        exact hv (hvac.direct i hs.2)
      | indirect f =>
        obtain rfl : f = g := hsg
        exact hv hvac.indirect
      | entry f k =>
        obtain rfl : f = g := hsg
        exact hs.2.2 hvac.indirect
    have hf := (hfile _ hne).mp hs.1
    have hn := hnodes _ hf.1 hne
    obtain ⟨hin, hval⟩ := slot_of_changes hch h hg hf (fun i hi => hn.direct hi) hn.indirect hs.2
    exact ⟨⟨hf, hin⟩, hval.symm⟩
  refine ⟨⟨h.sound.congr hblocks fun b hb hc => h.sound.reserved b hb ((hfree b).mp hc), ?_,
    fun x hx hxl => ?_, fun x hx => ?_, fun x hx hxd => ?_⟩, hvac, hnodes, hentry, hlive⟩
  · refine h.owned.of_kept (.indirect 0) hrange (fun s hs hv hc => ?_) fun s hs hv =>
      .inl (hkept s hs hv)
    obtain ⟨hs', hval⟩ := hkept s hs hv
    rw [← hval] at hv hc
    exact h.owned.used s hs' hv ((hfree _).mp hc)
  · have hne : x ≠ g := by
      rintro rfl
      exact hxl hlive
    have hx' := (hentry x).mp hx
    have hn := hnodes x hx' hne
    exact hn.vacant (h.vacant x hx' fun hc => hxl (hn.live.mpr hc))
  · by_cases hne : x = g
    · rw [hne, hvac.size]
      exact Nat.zero_le _
    · have hx' := (hfile x hne).mp hx
      rw [(hnodes x hx'.1 hne).size]
      exact h.size x hx'
  · have hne : x ≠ g := by
      rintro rfl
      exact hreg' hxd
    have hx' := (hfile x hne).mp hx
    have hn := hnodes x hx'.1 hne
    have hd' : IsDir m x := hn.type.symm.trans hxd
    obtain ⟨hal, hsm, hbl⟩ := h.dir x hx' hd'
    rw [← hn.size] at hal hsm hbl
    refine ⟨hal, hsm, fun i hi => ?_⟩
    rw [hn.direct hi]
    exact hbl i hi

end Name

/-! ### A block for a directory -/

section Grow

variable {m : Mem} {d b x : ℕ}

theorem dirBlocks_eq {n : ℕ} (h : n < 2 ^ 31) : dirBlocks n = n / blksize := posBlock_eq h

def growDir (m : Mem) (d b : ℕ) : Mem :=
  allocSlot (wr32 m (fSize d) (fileSize m d + blksize)) d (dirBlocks (fileSize m d)) b

/-- The directory has room in its direct slots, and `b` is free and zero. -/
structure CanGrow (m : Mem) (d b : ℕ) : Prop where
  room : dirBlocks (fileSize m d) < ndirect
  free : IsFree m b
  zero : ∀ o < blksize, m (b * blksize + o) = 0

def NewEntry (b x : ℕ) : Prop := ∃ j < blkfiles, x = dirEntry (b * blksize) j

/-- What growing a directory changes. -/
structure Grown (m m' : Mem) (d b : ℕ) : Prop where
  nblocks : nblocks m' = nblocks m
  free : ∀ c, IsFree m' c ↔ IsFree m c ∧ c ≠ b
  changes : ∀ a, m' a ≠ m a → InBitmap m a ∨ (d ≤ a ∧ a < d + 256)
  name : ∀ k < maxnamelen, m' (d + k) = m (d + k)
  type : fileType m' d = fileType m d
  size : fileSize m' d = fileSize m d + blksize
  indirect : indirect m' d = indirect m d
  direct : ∀ i < ndirect, direct m' d i =
    if i = dirBlocks (fileSize m d) then b else Fs.direct m d i

theorem wr32_size_sound (hs : Sound m) (hd : Node m d) (n : ℕ) :
    nblocks (wr32 m (fSize d) n) = nblocks m ∧
      (∀ c, IsFree (wr32 m (fSize d) n) c ↔ IsFree m c) ∧
      Sound (wr32 m (fSize d) n) ∧ Node (wr32 m (fSize d) n) d := by
  have hn : nblocks (wr32 m (fSize d) n) = nblocks m := by
    refine nblocks_wr32 ?_
    have := (hd.bounds hs).1
    unfold sRoot sNblocks fSize at *
    omega
  have hfree : ∀ c, IsFree (wr32 m (fSize d) n) c ↔ IsFree m c := fun c =>
    isFree_wr32 hs rfl hd (by omega)
  exact ⟨hn, hfree, hs.congr hn fun c hc hc' => hs.reserved c hc ((hfree c).mp hc'), hd.congr hn⟩

theorem growDir_grown (h : FsInv m) (hd : IsFile m d) (hi : dirBlocks (fileSize m d) < ndirect)
    (hb : IsFree m b) : Grown m (growDir m d b) d b := by
  have hnode := hd.1.node h.owned
  obtain ⟨m₁, hm₁⟩ : ∃ m₁, m₁ = wr32 m (fSize d) (fileSize m d + blksize) := ⟨_, rfl⟩
  have heq : growDir m d b = allocSlot m₁ d (dirBlocks (fileSize m d)) b := by rw [growDir, hm₁]
  obtain ⟨hn₁, hfree₁, hs₁, hnode₁⟩ := wr32_size_sound h.sound hnode (fileSize m d + blksize)
  rw [← hm₁] at hn₁ hfree₁ hs₁ hnode₁
  have hb₁ : b < Fs.nblocks m₁ := hn₁ ▸ hb.1
  obtain ⟨w, hmark, hslot⟩ := allocSlot_eq m₁ d (dirBlocks (fileSize m d)) b
  have hk : 136 + 4 * dirBlocks (fileSize m d) + 4 ≤ 256 := by
    unfold ndirect at hi
    omega
  -- words of the entry other than the size and the new slot
  have hother : ∀ j, j + 4 ≤ 256 → (j + 4 ≤ 128 ∨ 132 ≤ j) →
      (j + 4 ≤ 136 + 4 * dirBlocks (fileSize m d) ∨ 136 + 4 * dirBlocks (fileSize m d) + 4 ≤ j) →
      rd32 (growDir m d b) (d + j) = rd32 m (d + j) := by
    intro j hj hj' hjk
    rw [heq, hslot, markSlot_other hs₁ hnode₁ hb₁ hj hjk, hm₁]
    exact rd32_wr32_of_disjoint m _ (by unfold fSize; omega)
  have hsize : fileSize m d + blksize < 2 ^ 32 := by
    have := h.size d hd
    unfold maxfilesize ndirect nindirect blksize at *
    omega
  have hchange : ∀ a, growDir m d b a ≠ m a →
      InBitmap m a ∨ (d + 128 ≤ a ∧ a < d + 132) ∨ (d + 136 ≤ a ∧ a < d + 256) := by
    intro a ha
    by_cases h₁ : m₁ a = m a
    · rw [heq, hslot, ← h₁] at ha
      by_cases hin : d + (136 + 4 * dirBlocks (fileSize m d)) ≤ a ∧
          a < d + (136 + 4 * dirBlocks (fileSize m d)) + 4
      · exact .inr (.inr (by omega))
      · have hw : wr32 m₁ (bitmapWord b) w a ≠ m₁ a := fun hc => ha ((if_neg hin).trans hc)
        have hbit := bitmap_changes hs₁ hb₁ hw
        unfold InBitmap at hbit
        rw [firstBlock_congr hn₁] at hbit
        exact .inl hbit
    · rw [hm₁] at h₁
      exact .inr (.inl (wr32_changes h₁))
  refine ⟨?_, fun c => ?_, fun a ha => ?_, fun k hk' => ?_, ?_, ?_, ?_, fun i hi' => ?_⟩
  · rw [heq, hslot]
    refine (nblocks_wr32 ?_).trans ((nblocks_wr32 ?_).trans hn₁)
    · have := (hnode.bounds h.sound).1
      unfold sRoot sNblocks at *
      omega
    · unfold bitmapWord bitmapStart sNblocks blksize
      omega
  · rw [heq, allocSlot_isFree hs₁ hnode₁ hi, hfree₁]
  · rcases hchange a ha with hb | hin | hin
    · exact .inl hb
    · exact .inr (by omega)
    · exact .inr (by omega)
  · by_contra hne
    unfold maxnamelen at hk'
    rcases hchange _ hne with hb | hin | hin
    · exact hnode.not_inBitmap h.sound (by omega) hb
    · omega
    · omega
  · exact hother 132 (by omega) (by omega) (by omega)
  · rw [heq, allocSlot_size hs₁ hnode₁ hb₁, hm₁, fileSize, rd32_wr32, Nat.mod_eq_of_lt hsize]
  · exact hother 176 (by omega) (by omega) (by unfold ndirect at hi; omega)
  · rw [heq, allocSlot_direct hs₁ hnode₁ hb₁ hi']
    split
    · rfl
    · rw [hm₁, direct_setSize]

section

variable {m' : Mem} (hgr : Grown m m' d b) (h : FsInv m) (hd : IsFile m d) (hg : CanGrow m d b)

include hgr h hd

theorem Grown.node (hx : Entry m x) (hne : x ≠ d) : NodeEq m m' x :=
  nodeEq_of_changes hgr.changes h.sound (hd.1.node h.owned) (hx.node h.owned) hne

theorem Grown.live (hx : Entry m x) : Live m' x ↔ Live m x := by
  by_cases hxd : x = d
  · subst hxd
    unfold Live
    rw [show m' x = m x from hgr.name 0 (by decide)]
  · exact (hgr.node h hd hx hxd).live

theorem Grown.isDir (hx : Entry m x) : IsDir m' x ↔ IsDir m x := by
  unfold IsDir
  by_cases hxd : x = d
  · subst hxd
    rw [hgr.type]
  · rw [(hgr.node h hd hx hxd).type]

theorem Grown.dirBlocks_succ :
    dirBlocks (fileSize m' d) = dirBlocks (fileSize m d) + 1 := by
  have hsz := h.size d hd
  have hmax : maxfilesize + blksize < 2 ^ 31 := by decide
  rw [hgr.size, dirBlocks_eq (by omega), dirBlocks_eq (by omega), Nat.add_div_right _ (by decide)]

include hg

theorem Grown.zero {o : ℕ} (ho : o < blksize) : m' (b * blksize + o) = 0 := by
  have hblock := blockEq_of_changes hgr.changes h.sound (hd.1.node h.owned)
    (h.free_unowned hg.free).1 (h.node_block_free hd.1 hg.free)
  rw [hblock o ho]
  exact hg.zero o ho

theorem Grown.new_vacant (hx : NewEntry b x) : ¬ Live m' x ∧ Vacant m' x := by
  obtain ⟨j, hj, rfl⟩ := hx
  have hbyte : ∀ k < 256, m' (dirEntry (b * blksize) j + k) = 0 := by
    intro k hk
    have hlt : 256 * j + k < blksize := by
      unfold blkfiles blksize at *
      omega
    rw [dirEntry, Nat.add_assoc]
    exact hgr.zero h hd hg hlt
  have hword : ∀ k, k + 4 ≤ 256 → rd32 m' (dirEntry (b * blksize) j + k) = 0 := by
    intro k hk
    have hz : ∀ i < 4, m' (dirEntry (b * blksize) j + k + i) = 0 := by
      intro i hi
      rw [Nat.add_assoc]
      exact hbyte (k + i) (by omega)
    have h0 := hz 0 (by omega)
    rw [Nat.add_zero] at h0
    rw [rd32, h0, hz 1 (by omega), hz 2 (by omega), hz 3 (by omega)]
    rfl
  refine ⟨?_, hword 128 (by omega), hword 132 (by omega), fun i hi => ?_, hword 176 (by omega)⟩
  · rintro (hroot | hne)
    · have := h.sound.free_ge hg.free
      have := h.sound.first_gt
      unfold dirEntry sRoot blksize at *
      omega
    · have hfirst := hbyte 0 (by omega)
      rw [Nat.add_zero] at hfirst
      exact hne hfirst
  · have hslot := hword (136 + 4 * i) (by unfold ndirect at hi; omega)
    rwa [← Nat.add_assoc] at hslot

variable (hdir : IsDir m d)

include hdir

theorem Grown.entry : Entry m' x ↔ Entry m x ∨ NewEntry b x := by
  constructor
  · intro hx
    induction hx with
    | root => exact .inl .root
    | @entry e i j _ hl ht hi hi' hb hj ih =>
      rcases ih with he | hnew
      · have hl' := (hgr.live h hd he).mp hl
        have ht' := (hgr.isDir h hd he).mp ht
        by_cases hed : e = d
        · subst hed
          rw [hgr.dirBlocks_succ h hd] at hi
          rw [hgr.direct i hi'] at hb ⊢
          split at hb
          next hlast =>
            rw [if_pos hlast]
            exact .inr ⟨j, hj, rfl⟩
          next hlast =>
            rw [if_neg hlast]
            exact .inl (.entry he hl' ht' (by omega) hi' hb hj)
        · have hn := hgr.node h hd he hed
          rw [hn.direct hi'] at hb ⊢
          rw [hn.size] at hi
          exact .inl (.entry he hl' ht' hi hi' hb hj)
      · exact absurd hl (hgr.new_vacant h hd hg hnew).1
  · -- the old entries by induction, the new ones are in the last block
    have hold : ∀ {y}, Entry m y → Entry m' y := by
      intro y hy
      induction hy with
      | root => exact .root
      | @entry e i j he hl ht hi hi' hb hj ih =>
        have hl' := (hgr.live h hd he).mpr hl
        have ht' := (hgr.isDir h hd he).mpr ht
        by_cases hed : e = d
        · subst hed
          have hdirect := hgr.direct i hi'
          rw [if_neg (Nat.ne_of_lt hi)] at hdirect
          rw [← hdirect] at hb ⊢
          exact .entry ih hl' ht' (by rw [hgr.dirBlocks_succ h hd]; omega) hi' hb hj
        · have hn := hgr.node h hd he hed
          rw [← hn.direct hi'] at hb ⊢
          rw [← hn.size] at hi
          exact .entry ih hl' ht' hi hi' hb hj
    rintro (hx | ⟨j, hj, rfl⟩)
    · exact hold hx
    · have hdirect := hgr.direct _ hg.room
      rw [if_pos rfl] at hdirect
      have hpos : b ≠ 0 := by
        have := h.sound.free_ge hg.free
        have := firstBlock_ge m
        omega
      have hent := Entry.entry (j := j) (hold hd.1) ((hgr.live h hd hd.1).mpr hd.2)
        ((hgr.isDir h hd hd.1).mpr hdir) (i := dirBlocks (fileSize m d))
        (by rw [hgr.dirBlocks_succ h hd]; omega) hg.room (by rwa [hdirect]) hj
      rwa [hdirect] at hent

theorem Grown.isFile : IsFile m' x ↔ IsFile m x := by
  constructor
  · rintro ⟨he, hl⟩
    rcases (hgr.entry h hd hg hdir).mp he with hx | hnew
    · exact ⟨hx, (hgr.live h hd hx).mp hl⟩
    · exact absurd hl (hgr.new_vacant h hd hg hnew).1
  · rintro ⟨he, hl⟩
    exact ⟨(hgr.entry h hd hg hdir).mpr (.inl he), (hgr.live h hd he).mpr hl⟩

theorem Grown.owned : Owned m' := by
  obtain ⟨hr, hun⟩ := h.free_unowned hg.free
  have hrange := inRange_congr hgr.nblocks
  have hkept : ∀ s : Slot, s.Valid m' → s.val m' ≠ 0 → (s.Valid m ∧ s.val m = s.val m') ∨
      (s = .direct d (dirBlocks (fileSize m d)) ∧ s.val m' = b) := by
    intro s hs hv
    have hf := (hgr.isFile h hd hg hdir).mp hs.1
    by_cases hsd : s.file = d
    · by_cases hlast : s = .direct d (dirBlocks (fileSize m d))
      · subst hlast
        have hval := hgr.direct _ hg.room
        rw [if_pos rfl] at hval
        exact .inr ⟨rfl, hval⟩
      · left
        cases s with
        | direct f i =>
          obtain rfl : f = d := hsd
          have hne : i ≠ dirBlocks (fileSize m f) := by
            rintro rfl
            exact hlast rfl
          have hval := hgr.direct i hs.2
          rw [if_neg hne] at hval
          exact ⟨⟨hf, hs.2⟩, hval.symm⟩
        | indirect f =>
          obtain rfl : f = d := hsd
          exact ⟨⟨hf, trivial⟩, hgr.indirect.symm⟩
        | entry f k =>
          obtain rfl : f = d := hsd
          have hin : (Slot.indirect f).Valid m := ⟨hf, trivial⟩
          obtain ⟨hk, hi⟩ := hs.2
          rw [hgr.indirect] at hi
          have hblock := blockEq_of_changes hgr.changes h.sound (hd.1.node h.owned)
            (h.owned.range (.indirect f) hin hi)
            (h.node_block (s := .indirect f) hd.1 hin trivial hi)
          refine ⟨⟨hf, hk, hi⟩, ?_⟩
          show blockWord m (Fs.indirect m f) k = blockWord m' (Fs.indirect m' f) k
          rw [hgr.indirect]
          exact (hblock.word hk).symm
    · have hn := hgr.node h hd hf.1 hsd
      obtain ⟨hin, hval⟩ := slot_of_changes hgr.changes h hd.1 hf (fun i hi => hn.direct hi)
        hn.indirect hs.2
      exact .inl ⟨⟨hf, hin⟩, hval.symm⟩
  refine h.owned.of_kept (.direct d (dirBlocks (fileSize m d))) hrange (fun s hs hv hc => ?_)
    fun s hs hv => ?_
  · obtain ⟨hc', hne⟩ := (hgr.free _).mp hc
    rcases hkept s hs hv with ⟨hs', hval⟩ | ⟨-, hval⟩
    · rw [← hval] at hv hc'
      exact h.owned.used s hs' hv hc'
    · exact hne hval
  · rcases hkept s hs hv with hold | ⟨hs', hval⟩
    · exact .inl hold
    · rw [hval]
      exact .inr ⟨hs', hr, hun⟩

theorem Grown.inv : FsInv m' := by
  have hold := h.dir d hd hdir
  have hsucc := hgr.dirBlocks_succ h hd
  have hsz := h.size d hd
  have hmax : maxfilesize < 2 ^ 31 := by decide
  refine ⟨h.sound.congr hgr.nblocks fun c hc hc' => h.sound.reserved c hc ((hgr.free c).mp hc').1,
    hgr.owned h hd hg hdir, fun x hx hl => ?_, fun x hx => ?_, fun x hx hxd => ?_⟩
  · rcases (hgr.entry h hd hg hdir).mp hx with hx' | hnew
    · have hl' : ¬ Live m x := fun hc => hl ((hgr.live h hd hx').mpr hc)
      have hne : x ≠ d := by
        rintro rfl
        exact hl' hd.2
      exact (hgr.node h hd hx' hne).vacant (h.vacant x hx' hl')
    · exact (hgr.new_vacant h hd hg hnew).2
  · have hx' := (hgr.isFile h hd hg hdir).mp hx
    by_cases hxd : x = d
    · subst hxd
      have hroom := hg.room
      rw [dirBlocks_eq (by omega)] at hroom
      rw [hgr.size]
      unfold maxfilesize ndirect nindirect blksize at *
      omega
    · rw [(hgr.node h hd hx'.1 hxd).size]
      exact h.size x hx'
  · have hx' := (hgr.isFile h hd hg hdir).mp hx
    have hdx := (hgr.isDir h hd hx'.1).mp hxd
    by_cases hxd' : x = d
    · subst hxd'
      refine ⟨?_, ?_, fun i hi => ?_⟩
      · rw [hgr.size, Nat.add_mod_right]
        exact hold.aligned
      · rw [hsucc]
        exact hg.room
      · have hpos : b ≠ 0 := by
          have := h.sound.free_ge hg.free
          have := firstBlock_ge m
          omega
        rw [hgr.direct i hi, hsucc]
        split
        next heq => exact ⟨fun _ => by omega, fun _ => hpos⟩
        next hne =>
          rw [hold.blocks i hi]
          omega
    · have hn := hgr.node h hd hx'.1 hxd'
      obtain ⟨hal, hsm, hbl⟩ := h.dir x hx' hdx
      rw [← hn.size] at hal hsm hbl
      refine ⟨hal, hsm, fun i hi => ?_⟩
      rw [hn.direct hi]
      exact hbl i hi

end

end Grow

/-! ### `file_create` -/

section Create

variable {m : Mem} {d f g b : ℕ} {path : List UInt8}

theorem fileFlush_eq (h : FsInv m) (hf : IsFile m f)
    (hind : (Bc.flushCount (fileSize m f)).toNat ≤ ndirect ∨ indirect m f = 0) :
    fileFlush f m = .ret () m := by
  have hnode := hf.1.node h.owned
  have hin : InDisk m (f + 176) := hnode.inDisk h.sound (by omega)
  have hwp : wp (fileFlush f) (fun _ t => t = m) (fun _ _ => False) m := by
    rw [fileFlush, wp_bind_of_ret (load32_eq (InDisk.fSize hnode h.sound)), wp_bind]
    unfold fileSize at hind
    generalize (Bc.flushCount (rd32 m (fSize f))).toNat = rounds at hind ⊢
    refine (wp_forFrom (fun _ t => t = m) rfl ?_).imp ?_
    · rintro k t - hk rfl
      rw [wp_bind]
      by_cases hlt : k < ndirect
      · rw [wp_of_ret (fileBlockWalk_direct hlt false)]
        show wp _ _ _ _
        rw [wp_bind_of_ret (load32_eq (hnode.inDisk_direct h.sound hlt)), wp_when]
        refine ⟨fun hv => ?_, fun _ => rfl⟩
        have hr := h.owned.range (.direct f k) ⟨hf, hlt⟩ hv
        rw [wp_bind_of_ret (diskaddr_eq hv hr.2)]
        exact rfl
      · have hz : indirect t f = 0 := by
          rcases hind with hsmall | hz
          · omega
          · exact hz
        obtain ⟨r, hr⟩ := fileBlockWalk_none h.sound hnode (Nat.not_lt.mp hlt) hz
        rw [wp_of_ret hr]
        exact rfl
    · rintro _ t rfl
      rw [wp_bind_of_ret (load32_eq hin), wp_when]
      refine ⟨fun hv => ?_, fun _ => rfl⟩
      have hr := h.owned.range (.indirect f) ⟨hf, trivial⟩ hv
      rw [wp_bind_of_ret (diskaddr_eq hv hr.2)]
      exact rfl
  obtain ⟨a, t, heq, rfl⟩ := hwp.exists_ret
  exact heq

theorem InDir.unique {e : ℕ} (h : FsInv m) (hd : IsFile m d) (he : IsFile m e) (hg : InDir m d g)
    (hg' : InDir m e g) : d = e := by
  obtain ⟨i, j, -, hi, hv, hj, hgd⟩ := hg
  obtain ⟨i', j', -, hi', hv', hj', hge⟩ := hg'
  have h1 := dirEntry_div (direct m d i) hj (k := 0) (by omega)
  have h2 := dirEntry_div (direct m e i') hj' (k := 0) (by omega)
  rw [← hgd] at h1
  rw [← hge] at h2
  have := h.owned.single (.direct d i) (.direct e i') ⟨hd, hi⟩ ⟨he, hi'⟩ hv (h1.symm.trans h2)
  exact (Slot.direct.inj this).1

theorem InDir.ne_root (h : FsInv m) (hd : IsFile m d) (hg : InDir m d g) : g ≠ sRoot := by
  obtain ⟨i, j, -, hi, hv, hj, rfl⟩ := hg
  have hr : InRange m (direct m d i) := h.owned.range (.direct d i) ⟨hd, hi⟩ hv
  have := hr.1
  have := h.sound.first_gt
  unfold dirEntry sRoot blksize
  omega

theorem InDir.not_live (h : FsInv m) (hd : IsFile m d) (hg : InDir m d g) (hz : m g = 0) :
    ¬ Live m g := by
  rintro (hroot | hne)
  · exact hg.ne_root h hd hroot
  · exact hne hz

theorem dirAllocFile_cases (h : FsInv m) (hd : IsFile m d) (hdir : IsDir m d) :
    (∃ g, InDir m d g ∧ m g = 0 ∧ dirAllocFile d m = .ret (.ok g) m) ∨
    (∀ g, InDir m d g → m g ≠ 0) ∧ dirAllocFile d m = (do
      let got ← fileGetBlock d (dirBlocks (fileSize m d))
      match got with
      | .error r => pure (.error r)
      | .ok blk => pure (.ok (dirEntry blk 0)) : FsM (Except ℤ ℕ))
      (wr32 m (fSize d) (fileSize m d + blksize)) := by
  have hin := InDisk.fSize (hd.1.node h.owned) h.sound
  rw [dirAllocFile, ret_bind (load32_eq hin), ret_bind (h.dirGood hd hdir).size_ok]
  rcases dirScan_start h hd hdir blank with ⟨g, hg, hn, heq⟩ | ⟨hno, heq⟩
  · refine .inl ⟨g, hg, beq_iff_eq.mp hn, ?_⟩
    exact ret_bind heq
  · refine .inr ⟨fun g hg hz => ?_, ?_⟩
    · exact absurd (hno g hg) (by simp [blank, hz])
    have hmod : (rd32 m (fSize d) + blksize) % 2 ^ 32 = fileSize m d + blksize := by
      have hsz : fileSize m d ≤ maxfilesize := h.size d hd
      unfold fileSize maxfilesize ndirect nindirect blksize at *
      omega
    refine (ret_bind heq).trans ?_
    show (do
      store32 (fSize d) ((rd32 m (fSize d) + blksize) % 2 ^ 32)
      let got ← fileGetBlock d (dirBlocks (rd32 m (fSize d)))
      match got with
      | .error r => pure (.error r)
      | .ok blk => pure (.ok (dirEntry blk 0)) : FsM (Except ℤ ℕ)) m = _
    rw [hmod, ret_bind (store32_eq hin _)]
    rfl

theorem dirAllocFile_grow (h : FsInv m) (hd : IsFile m d) (hdir : IsDir m d)
    (hfull : ∀ g, InDir m d g → m g ≠ 0) (hroom : dirBlocks (fileSize m d) < ndirect) :
    (dirAllocFile d m = .ret (.error (-eNoDisk)) (wr32 m (fSize d) (fileSize m d + blksize)) ∧
      ∀ c, ¬ IsFree m c) ∨
    ∃ b, IsFree m b ∧ (∀ c < b, ¬ IsFree m c) ∧
      dirAllocFile d m = .ret (.ok (dirEntry (b * blksize) 0)) (growDir m d b) := by
  rcases dirAllocFile_cases h hd hdir with ⟨g, hg, hz, -⟩ | ⟨-, heq⟩
  · exact absurd hz (hfull g hg)
  have hnode := hd.1.node h.owned
  rw [heq]
  unfold growDir
  obtain ⟨-, hfree₁, hs₁, hnode₁⟩ := wr32_size_sound h.sound hnode (fileSize m d + blksize)
  have hz : direct (wr32 m (fSize d) (fileSize m d + blksize)) d (dirBlocks (fileSize m d)) = 0 := by
    have hold : direct m d (dirBlocks (fileSize m d)) = 0 := by
      by_contra hv
      exact Nat.lt_irrefl _ (((h.dir d hd hdir).blocks _ hroom).mp hv)
    rw [← hold]
    exact direct_setSize _
  -- from here on only the memory with the new size matters
  generalize wr32 m (fSize d) (fileSize m d + blksize) = m₁ at *
  rcases fileGetBlock_hole hs₁ hnode₁ hroom hz with ⟨hget, hnone⟩ | ⟨b, hb, hfirst, hget⟩
  · exact .inl ⟨ret_bind hget, fun c hc => hnone c ((hfree₁ c).mpr hc)⟩
  · refine .inr ⟨b, (hfree₁ b).mp hb, fun c hc hf => hfirst c hc ((hfree₁ c).mpr hf), ?_⟩
    exact ret_bind hget

/-- From `m` to `m'` the file `g` with this name came into directory `d`. -/
structure Created (m m' : Mem) (d g : ℕ) (name : List UInt8) : Prop where
  inv : FsInv m'
  fresh : Vacant m' g
  named : named name m' g = true
  new : ¬ IsFile m g
  file : ∀ x, IsFile m' x ↔ IsFile m x ∨ x = g
  name : ∀ x, IsFile m x → ∀ k < maxnamelen, m' (x + k) = m (x + k)
  isDir : ∀ x, IsFile m x → (IsDir m' x ↔ IsDir m x)
  old : ∀ e x, IsFile m e → IsDir m e → IsFile m x → (InDir m' e x ↔ InDir m e x)
  parent : ∀ e, IsFile m e → IsDir m e → (InDir m' e g ↔ e = d)
  node : ∀ x, IsFile m x → ¬ IsDir m x → NodeEq m m' x
  block : ∀ s : Slot, s.Valid m → s.Plain m → s.val m ≠ 0 → BlockEq m m' (s.val m)

theorem putName_changes {name : List UInt8} (hn : ProperName name) (a : ℕ)
    (ha : putStr m g name a ≠ m a) : InBitmap m a ∨ (g ≤ a ∧ a < g + 256) := by
  have := putStr_changes hn.short ha
  unfold maxnamelen at this
  exact .inr (by omega)

theorem InDir.congr {m' : Mem} {x : ℕ} (hsize : fileSize m' d = fileSize m d)
    (hdirect : ∀ i < ndirect, direct m' d i = direct m d i) : InDir m' d x ↔ InDir m d x := by
  unfold InDir
  rw [hsize]
  constructor
  · rintro ⟨i, j, hi, hi', hv, hj, heq⟩
    rw [hdirect i hi'] at hv heq
    exact ⟨i, j, hi, hi', hv, hj, heq⟩
  · rintro ⟨i, j, hi, hi', hv, hj, heq⟩
    rw [← hdirect i hi'] at hv heq
    exact ⟨i, j, hi, hi', hv, hj, heq⟩

theorem putName_created {name : List UInt8} (h : FsInv m) (hd : IsFile m d) (hdir : IsDir m d)
    (hg : InDir m d g) (hl : ¬ Live m g) (hn : ProperName name) :
    Created m (putStr m g name) d g name := by
  obtain ⟨hinv, hvac, hnodes, hentry, hlive⟩ := putName_inv h (hg.entry hd hdir) hl hn
  have hne : ∀ {x}, IsFile m x → x ≠ g := by
    rintro x hx rfl
    exact hl hx.2
  have hin : ∀ {e x}, IsFile m e → (InDir (putStr m g name) e x ↔ InDir m e x) := fun he =>
    have hnode := hnodes _ he.1 (hne he)
    InDir.congr hnode.size fun i hi => hnode.direct hi
  refine ⟨hinv, hvac, putStr_named m g name, fun hc => hl hc.2, fun x => ⟨?_, ?_⟩, fun x hx k hk => ?_,
    fun x hx => ?_, fun e x he _ _ => hin he, fun e he hed => ?_, fun x hx _ => hnodes x hx.1 (hne hx),
    fun s hs hp hv => ?_⟩
  · rintro ⟨he, hl'⟩
    by_cases hxg : x = g
    · exact .inr hxg
    · have he' := (hentry x).mp he
      exact .inl ⟨he', (hnodes x he' hxg).live.mp hl'⟩
  · rintro (hx | rfl)
    · exact ⟨(hentry x).mpr hx.1, (hnodes x hx.1 (hne hx)).live.mpr hx.2⟩
    · exact ⟨(hentry x).mpr (hg.entry hd hdir), hlive⟩
  · exact hnodes x hx.1 (hne hx) k (by unfold maxnamelen at hk; omega)
  · unfold IsDir
    rw [(hnodes x hx.1 (hne hx)).type]
  · rw [hin he]
    constructor
    · intro hc
      exact hc.unique h he hd hg
    · rintro rfl
      exact hg
  · exact blockEq_of_changes (putName_changes hn) h.sound ((hg.entry hd hdir).node h.owned)
      (h.owned.range s hs hv) (h.node_block (hg.entry hd hdir) hs hp hv)

theorem growName_created {name : List UInt8} (h : FsInv m) (hd : IsFile m d) (hdir : IsDir m d)
    (hb : CanGrow m d b) (hn : ProperName name) :
    Created m (putStr (growDir m d b) (dirEntry (b * blksize) 0) name) d (dirEntry (b * blksize) 0)
      name := by
  obtain ⟨m₁, hm₁⟩ : ∃ m₁, m₁ = growDir m d b := ⟨_, rfl⟩
  have hgr : Grown m m₁ d b := hm₁ ▸ growDir_grown h hd hb.room hb.free
  rw [← hm₁]
  have hnew : NewEntry b (dirEntry (b * blksize) 0) := ⟨0, by decide, rfl⟩
  have hfile : ∀ {x}, IsFile m₁ x ↔ IsFile m x := hgr.isFile h hd hb hdir
  have hdir₁ : ∀ {x}, IsFile m x → (IsDir m₁ x ↔ IsDir m x) := fun hx => hgr.isDir h hd hx.1
  have hl := (hgr.new_vacant h hd hb hnew).1
  have hin : InDir m₁ d (dirEntry (b * blksize) 0) := by
    have hdirect := hgr.direct _ hb.room
    rw [if_pos rfl] at hdirect
    have hpos : b ≠ 0 := by
      have := h.sound.free_ge hb.free
      have := firstBlock_ge m
      omega
    refine ⟨dirBlocks (fileSize m d), 0, ?_, hb.room, by rwa [hdirect], by decide, by rw [hdirect]⟩
    rw [hgr.dirBlocks_succ h hd]
    omega
  have hc := putName_created (hgr.inv h hd hb hdir) (hfile.mpr hd) ((hdir₁ hd).mpr hdir) hin hl hn
  refine ⟨hc.inv, hc.fresh, hc.named, fun hx => hc.new (hfile.mpr hx), fun x => ?_, fun x hx k hk => ?_,
    fun x hx => ?_, fun e x he hed hx => ?_, fun e he hed => ?_, fun x hx hreg k hk => ?_,
    fun s hs hp hv o ho => ?_⟩
  · rw [hc.file, hfile]
  · rw [hc.name x (hfile.mpr hx) k hk]
    by_cases hxd : x = d
    · subst hxd
      exact hgr.name k hk
    · exact hgr.node h hd hx.1 hxd k (by unfold maxnamelen at hk; omega)
  · rw [hc.isDir x (hfile.mpr hx), hdir₁ hx]
  · rw [hc.old e x (hfile.mpr he) ((hdir₁ he).mpr hed) (hfile.mpr hx)]
    by_cases hexd : e = d
    · subst hexd
      -- a file is not in the new block
      constructor
      · rintro ⟨i, j, hi, hi', hv, hj, rfl⟩
        rw [hgr.direct i hi'] at hv hx ⊢
        rw [hgr.dirBlocks_succ h he] at hi
        split at hv
        next hlast =>
          rw [if_pos hlast] at hx
          exact absurd (hfile.mpr hx).2 (hgr.new_vacant h he hb ⟨j, hj, rfl⟩).1
        next hlast =>
          rw [if_neg hlast]
          exact ⟨i, j, by omega, hi', hv, hj, rfl⟩
      · rintro ⟨i, j, hi, hi', hv, hj, rfl⟩
        have hdirect := hgr.direct i hi'
        rw [if_neg (Nat.ne_of_lt hi)] at hdirect
        refine ⟨i, j, ?_, hi', by rwa [hdirect], hj, by rw [hdirect]⟩
        rw [hgr.dirBlocks_succ h he]
        omega
    · have hnode := hgr.node h hd he.1 hexd
      exact InDir.congr hnode.size fun i hi => hnode.direct hi
  · exact hc.parent e (hfile.mpr he) ((hdir₁ he).mpr hed)
  · have hxd : x ≠ d := by
      rintro rfl
      exact hreg hdir
    have hreg₁ : ¬ IsDir m₁ x := fun hcd => hreg ((hdir₁ hx).mp hcd)
    exact (hc.node x (hfile.mpr hx) hreg₁ k hk).trans (hgr.node h hd hx.1 hxd k hk)
  · -- neither the bitmap and the directory nor the new block
    have hrange := h.owned.range s hs hv
    have hrange₁ := (inRange_congr hgr.nblocks _).mpr hrange
    have hinv₁ := hgr.inv h hd hb hdir
    have hnode₁ := (hin.entry (hfile.mpr hd) ((hdir₁ hd).mpr hdir)).node hinv₁.owned
    have hne : dirEntry (b * blksize) 0 / blksize ≠ s.val m := by
      have hdiv := dirEntry_div b (j := 0) (by decide) (k := 0) (by omega)
      rw [Nat.add_zero] at hdiv
      rw [hdiv]
      rintro rfl
      exact h.owned.used s hs hv hb.free
    exact (blockEq_of_changes (putName_changes hn) hinv₁.sound hnode₁ hrange₁ hne o ho).trans
      (blockEq_of_changes hgr.changes h.sound (hd.1.node h.owned) hrange (h.node_block hd.1 hs hp hv)
        o ho)

/-- The directory in which `file_create` would make the file. -/
def parentOf (path : List UInt8) (m : Mem) : Option ℕ :=
  match walkPath path m with
  | .ret w _ => if w.r = -eNotFound then w.dir else none
  | .stop _ _ => none

/-- Where the directory is full there has to be a direct slot for another block,
and the first free block has to be zero. -/
def CreateOk (path : List UInt8) (m : Mem) : Prop := ∀ d, parentOf path m = some d →
  (∀ g, InDir m d g → m g ≠ 0) → ∃ b, CanGrow m d b ∧ ∀ c < b, ¬ IsFree m c

theorem wp_fileCreate (h : FsInv m) (hz : 0 ∉ path) (hok : CreateOk path m) :
    wp (fileCreate path) (fun r m' => (∀ e, r = .error e → m' = m) ∧ ∀ g, r = .ok g →
      ∃ w d, Resolve m none sRoot (components path) w ∧ w.r = -eNotFound ∧ w.dir = some d ∧
        Created m m' d g w.lastelem) (fun _ _ => False) m := by
  obtain ⟨w, hw, hres⟩ := walkPath_resolve h hz
  rw [fileCreate, wp_bind_of_ret hw]
  by_cases hr0 : w.r = 0
  · rw [if_pos hr0, wp_pure]
    exact ⟨fun _ _ => rfl, fun g hg => by cases hg⟩
  rw [if_neg hr0]
  cases hwd : w.dir with
  | none => exact ⟨fun _ _ => rfl, fun g hg => by cases hg⟩
  | some d =>
    show wp (if w.r ≠ -eNotFound then _ else _) _ _ _
    by_cases hr : w.r = -eNotFound
    · rw [if_neg (not_not.mpr hr), wp_bind]
      obtain ⟨hd, hdir, hlast, hshort, -⟩ := hres.parent (FsInv.root m) (components_names hz) hr hwd
      obtain ⟨hne, hslash, hsub⟩ := components_proper _ path (Nat.le_refl _) _ hlast
      have hname : ProperName w.lastelem := ⟨hne, hshort, fun hc => hz (hsub 0 hc), hslash⟩
      -- what is left to do once there is an entry for the name
      have hfinish : ∀ {m₁ g}, Created m (putStr m₁ g w.lastelem) d g w.lastelem →
          wp (do
            modify fun m => putStr m g w.lastelem
            fileFlush d
            pure (.ok g) : FsM (Except ℤ ℕ)) (fun r m' => (∀ e, r = .error e → m' = m) ∧
            ∀ g, r = .ok g → ∃ w d, Resolve m none sRoot (components path) w ∧ w.r = -eNotFound ∧
              w.dir = some d ∧ Created m m' d g w.lastelem) (fun _ _ => False) m₁ := by
        intro m₁ g hc
        have hd' := (hc.file d).mpr (.inl hd)
        have hdir' := (hc.isDir d hd).mpr hdir
        obtain ⟨hal, hsm, -⟩ := hc.inv.dir d hd' hdir'
        have hflush := fileFlush_eq hc.inv hd' (.inl (by
          have hsz := hc.inv.size d hd'
          have hmax : maxfilesize + blksize < 2 ^ 31 := by decide
          rw [dirBlocks_eq (by omega)] at hsm
          unfold Bc.flushCount
          rw [toInt32_of_lt (by omega)]
          refine Nat.le_trans (Nat.le_of_eq ?_) hsm
          show (fileSize (putStr m₁ g w.lastelem) d + blksize - 1) / blksize = _
          unfold blksize at *
          omega))
        rw [wp_bind, wp_modify, wp_bind_of_ret hflush, wp_pure]
        refine ⟨fun e he => (by cases he), ?_⟩
        rintro g' ⟨⟩
        exact ⟨w, d, hres, hr, hwd, hc⟩
      rcases dirAllocFile_cases h hd hdir with ⟨g, hg, hgz, heq⟩ | ⟨hfull, -⟩
      · rw [wp_of_ret heq]
        exact hfinish (putName_created h hd hdir hg (hg.not_live h hd hgz) hname)
      · have hpar : parentOf path m = some d := by
          unfold parentOf
          rw [hw]
          show (if w.r = -eNotFound then w.dir else none) = some d
          rw [if_pos hr, hwd]
        obtain ⟨b, hb, hfirst⟩ := hok d hpar hfull
        rcases dirAllocFile_grow h hd hdir hfull hb.room with ⟨-, hnone⟩ | ⟨c, hc, hfirst', heq⟩
        · exact absurd hb.free (hnone b)
        · have hcb : c = b := by
            rcases Nat.lt_trichotomy c b with hlt | heq | hgt
            · exact absurd hc (hfirst c hlt)
            · exact heq
            · exact absurd hb.free (hfirst' b hgt)
          subst hcb
          rw [wp_of_ret heq]
          exact hfinish (growName_created h hd hdir hb hname)
    · rw [if_pos hr, wp_pure]
      exact ⟨fun _ _ => rfl, fun g hg => by cases hg⟩

end Create

end Fs

end Jos
