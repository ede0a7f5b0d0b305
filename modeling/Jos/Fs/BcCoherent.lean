/-
The block cache is coherent.

`Cache.content` is what the disk map stands for: the page of a block that is
mapped, the disk otherwise.  Reading a block in and flushing one change
nothing about it (`Keep`), and a page that is clean is the block on the disk.

* `block_cache_coherent` — loads, stores and `fs_sync` in every run;
* `superblock_unmapped` — once `super` is set, the handler cannot do without
  the superblock.
-/
import Jos.Fs.BlockCache
import Jos.Lib.Run

namespace Jos

open Prog Function

/-! ### Contents -/

namespace Cache

/-- The bytes that the disk map stands for. -/
def content (s : Cache) : Bytes.Mem := fun d =>
  match s.page (d / blksize) with
  | some p => p (d % blksize)
  | none => s.disk (d / sectsize) (d % sectsize)

/-- A page that is clean is the block on the disk. -/
structure Coherent (s : Cache) : Prop where
  clean : ∀ b p, s.page b = some p → s.dirty b = false → ∀ o < blksize,
    p o = s.ideRead (b * blksects) o
  unmapped : ∀ b, s.page b = none → s.dirty b = false

/-- `s'` stands for the same bytes as `s`; no page has gone or become dirty. -/
structure Keep (s s' : Cache) : Prop where
  coherent : s'.Coherent
  content : s'.content = s.content
  dirty : ∀ b, s.dirty b = false → s'.dirty b = false
  page : ∀ b, (s.page b).isSome = true → (s'.page b).isSome = true
  super : s'.super = s.super
  bitmap : s'.bitmap = s.bitmap

def Kept (s s' : Cache) : Prop := s.Coherent → s.Keep s'

variable {s s' s'' : Cache} {b d : ℕ} {p : ℕ → UInt8}

theorem Kept.refl (s : Cache) : s.Kept s := fun h => ⟨h, rfl, fun _ h => h, fun _ h => h, rfl, rfl⟩

theorem Keep.trans (h : s.Keep s') (h' : s'.Keep s'') : s.Keep s'' :=
  ⟨h'.coherent, h'.content.trans h.content, fun b hb => h'.dirty b (h.dirty b hb),
    fun b hb => h'.page b (h.page b hb), h'.super.trans h.super, h'.bitmap.trans h.bitmap⟩

theorem Kept.trans {s s' s'' : Cache} (h : s.Kept s') (h' : s'.Kept s'') : s.Kept s'' :=
  fun hs => (h hs).trans (h' (h hs).coherent)

instance : IsPreorder Cache Kept where
  refl := Kept.refl
  trans _ _ _ := Kept.trans

theorem ideRead_eq (s : Cache) (d : ℕ) :
    s.ideRead (d / blksize * blksects) (d % blksize) = s.disk (d / sectsize) (d % sectsize) := by
  unfold ideRead
  have h₁ : d / blksize * blksects + d % blksize / sectsize = d / sectsize := by
    unfold blksects blksize sectsize
    omega
  have h₂ : d % blksize % sectsize = d % sectsize := by
    unfold blksize sectsize
    omega
  rw [h₁, h₂]

theorem content_of_page (h : s.page (d / blksize) = some p) : s.content d = p (d % blksize) := by
  simp only [content, h]

theorem content_of_none (h : s.page (d / blksize) = none) :
    s.content d = s.disk (d / sectsize) (d % sectsize) := by
  simp only [content, h]

theorem Coherent.content_eq (h : s.Coherent) (hb : s.dirty (d / blksize) = false) :
    s.content d = s.disk (d / sectsize) (d % sectsize) := by
  cases hp : s.page (d / blksize) with
  | none => exact content_of_none hp
  | some p =>
    rw [content_of_page hp, h.clean _ p hp hb _ (Nat.mod_lt _ (by decide)), ideRead_eq]

theorem mapped_eq (h : (s.page (d / blksize)).isSome = true) : s.mapped d = s.content d := by
  obtain ⟨p, hp⟩ := Option.isSome_iff_exists.1 h
  simp only [mapped, content, hp]

theorem rd32_mapped (h : (s.page (d / blksize)).isSome = true) (hd : d % 4 = 0) :
    Bytes.rd32 s.mapped d = Bytes.rd32 s.content d := by
  refine Bytes.rd32_congr fun d' h₁ h₂ => mapped_eq ?_
  have : d' / blksize = d / blksize := by
    unfold blksize
    omega
  rw [this]
  exact h

/-- Block `b` exists, and the bitmap does not say that it is free. -/
def InUse (s : Cache) (b : ℕ) : Prop :=
  b < Bytes.rd32 s.content sNblocks ∧
    (s.bitmap = true → (Bytes.rd32 s.content (bitmapStart + 4 * (b / 32))).testBit (b % 32) = false)

/-- An access to block `b` returns: it is mapped, or it may be read, there is
memory for it and for two bitmap blocks, and the handler finds the superblock. -/
def Answered (depth : ℕ) (s : Cache) (b : ℕ) : Prop :=
  (s.page b).isSome = true ∨
    b < disksize / blksize ∧ 3 ≤ s.free ∧ 3 ≤ depth ∧
      (s.super = true →
        (s.page 1).isSome = true ∧ s.InUse b ∧
          (s.bitmap = true → s.InUse (2 + b / blkbitsize) ∧ s.InUse 2))

/-! ### Reading in, writing back -/

theorem readIn_page (s : Cache) (b b' : ℕ) : (s.readIn b).page b' =
    if b' = b then some (s.ideRead (b * blksects)) else s.page b' := update_apply ..

theorem readIn_dirty (s : Cache) (b b' : ℕ) : (s.readIn b).dirty b' =
    if b' = b then false else s.dirty b' := update_apply ..

theorem readIn_keep (h : s.Coherent) (hb : s.dirty b = false) : s.Keep (s.readIn b) := by
  have hdirty : ∀ b', s.dirty b' = false → (s.readIn b).dirty b' = false := by
    intro b' hb'
    rw [readIn_dirty]
    split
    · rfl
    · exact hb'
  refine ⟨⟨fun b' p hp hclean o ho => ?_, fun b' hb' => ?_⟩, ?_, hdirty, fun b' hb' => ?_, rfl, rfl⟩
  · show p o = s.ideRead (b' * blksects) o
    rw [readIn_page] at hp
    rw [readIn_dirty] at hclean
    split at hp
    case isTrue hbb =>
      cases hp
      rw [hbb]
    case isFalse hbb =>
      rw [if_neg hbb] at hclean
      exact h.clean b' p hp hclean o ho
  · rw [readIn_page] at hb'
    split at hb'
    case isTrue => cases hb'
    case isFalse => exact hdirty b' (h.unmapped b' hb')
  · funext d
    by_cases hbb : d / blksize = b
    · have hp : (s.readIn b).page (d / blksize) = some (s.ideRead (d / blksize * blksects)) := by
        rw [readIn_page, if_pos hbb, hbb]
      rw [h.content_eq (hbb ▸ hb), content_of_page hp, ideRead_eq]
    · unfold content
      rw [readIn_page, if_neg hbb]
      rfl
  · rw [readIn_page]
    split
    · rfl
    · exact hb'

/-- What `flush_block` does to a dirty page. -/
def writeBack (s : Cache) (b : ℕ) (p : ℕ → UInt8) : Cache :=
  { s.ideWrite (b * blksects) p with dirty := update s.dirty b false }

theorem ideRead_writeBack_self (o : ℕ) (ho : o < blksize) :
    (s.writeBack b p).ideRead (b * blksects) o = p o := by
  have h₁ : o / sectsize < blksects := by
    unfold blksects blksize sectsize at *
    omega
  have h₂ : o / sectsize * sectsize + o % sectsize = o := by
    unfold sectsize
    omega
  simp only [ideRead, writeBack, ideWrite]
  rw [if_pos ⟨Nat.le_add_right _ _, by omega⟩, Nat.add_sub_cancel_left, h₂]

theorem ideRead_writeBack {b' : ℕ} (hb : b' ≠ b) (o : ℕ) (ho : o < blksize) :
    (s.writeBack b p).ideRead (b' * blksects) o = s.ideRead (b' * blksects) o := by
  simp only [ideRead, writeBack, ideWrite]
  rw [if_neg]
  unfold blksects blksize sectsize at *
  omega

theorem writeBack_keep (h : s.Coherent) (hp : s.page b = some p) : s.Keep (s.writeBack b p) := by
  have hdirty : ∀ b' ≠ b, (s.writeBack b p).dirty b' = s.dirty b' := fun b' hb' =>
    update_of_ne hb' ..
  refine ⟨⟨fun b' p' hp' hclean o ho => ?_, fun b' hb' => ?_⟩, ?_, fun b' hb' => ?_, fun _ h => h,
    rfl, rfl⟩
  · by_cases hbb : b' = b
    · subst hbb
      have : some p = some p' := hp.symm.trans hp'
      cases this
      rw [ideRead_writeBack_self o ho]
    · rw [ideRead_writeBack hbb o ho]
      exact h.clean b' p' hp' (hdirty b' hbb ▸ hclean) o ho
  · have hbb : b' ≠ b := by
      rintro rfl
      rw [show s.page b' = none from hb'] at hp
      cases hp
    rw [hdirty b' hbb]
    exact h.unmapped b' hb'
  · funext d
    by_cases hbb : d / blksize = b
    · subst hbb
      rw [content_of_page hp]
      exact content_of_page hp
    · unfold content
      show (match s.page (d / blksize) with | some p => _ | none => _) = _
      cases hq : s.page (d / blksize) with
      | some q => rfl
      | none =>
        have := ideRead_writeBack (p := p) (s := s) hbb (d % blksize) (Nat.mod_lt _ (by decide))
        rw [ideRead_eq, ideRead_eq] at this
        exact this
  · by_cases hbb : b' = b
    · subst hbb
      exact update_self ..
    · rw [hdirty b' hbb]
      exact hb'

/-! ### Storing, unmapping -/

theorem put_coherent {v : UInt8} (h : s.Coherent) : (s.put d v).Coherent := by
  unfold put
  cases hp : s.page (d / blksize) with
  | none => exact h
  | some p =>
    constructor
    · intro b q hq hclean o ho
      dsimp only at hq hclean
      by_cases hbb : b = d / blksize
      · rw [hbb, update_self] at hclean
        cases hclean
      · rw [update_of_ne hbb] at hq hclean
        exact h.clean b q hq hclean o ho
    · intro b hb
      dsimp only at hb ⊢
      by_cases hbb : b = d / blksize
      · rw [hbb, update_self] at hb
        cases hb
      · rw [update_of_ne hbb] at hb ⊢
        exact h.unmapped b hb

theorem put_content {v : UInt8} (h : (s.page (d / blksize)).isSome = true) :
    (s.put d v).content = update s.content d v := by
  obtain ⟨p, hp⟩ := Option.isSome_iff_exists.1 h
  funext d'
  simp only [content, put, hp, update_apply]
  by_cases hbb : d' / blksize = d / blksize
  · -- in one block, the offset tells the bytes apart
    have hd : d' % blksize = d % blksize ↔ d' = d := by
      unfold blksize at *
      omega
    simp [hbb, update_apply, hd, hp]
  · have hd : d' ≠ d := fun h => hbb (h ▸ rfl)
    simp only [if_neg hbb, if_neg hd]

theorem unmap_page (s : Cache) (b b' : ℕ) : (s.unmap b).page b' =
    if b' = b then none else s.page b' := update_apply ..

theorem unmap_dirty (s : Cache) (b b' : ℕ) : (s.unmap b).dirty b' =
    if b' = b then false else s.dirty b' := update_apply ..

theorem unmap_coherent (h : s.Coherent) : (s.unmap b).Coherent := by
  constructor
  · intro b' q hq hclean o ho
    rw [unmap_page] at hq
    rw [unmap_dirty] at hclean
    split at hq
    case isTrue => cases hq
    case isFalse hbb =>
      rw [if_neg hbb] at hclean
      exact h.clean b' q hq hclean o ho
  · intro b' hb
    rw [unmap_page] at hb
    rw [unmap_dirty]
    split at hb
    case isTrue hbb => exact if_pos hbb
    case isFalse hbb =>
      rw [if_neg hbb]
      exact h.unmapped b' hb

theorem unmap_content (h : s.Coherent) (hb : s.dirty b = false) :
    (s.unmap b).content = s.content := by
  funext d
  by_cases hbb : d / blksize = b
  · rw [h.content_eq (hbb ▸ hb), content_of_none (hbb ▸ update_self ..)]
    rfl
  · simp only [content, unmap, update_of_ne hbb]

theorem flush_kept (s : Cache) (b : ℕ) : s.Kept (s.flush b) := by
  intro hs
  unfold flush
  split
  · split
    · exact writeBack_keep hs ‹_›
    · exact Kept.refl s hs
  · exact Kept.refl s hs

theorem flush_clean (h : s.Coherent) (b : ℕ) : (s.flush b).dirty b = false := by
  unfold flush
  split
  · split
    · exact update_self ..
    · simp_all
  · exact h.unmapped b ‹_›

end Cache

/-! ### What the programs keep -/

namespace Bc

variable {tch : ℕ → Bc Unit} {α β : Type} {m : Bc α} {f : α → Bc β}

/-- `m` keeps what the disk map stands for. -/
abbrev Keeps (m : Bc α) : Prop := Prog.Keeps Cache.Kept (fun _ => True) m

theorem load32_keeps (h : ∀ b, Keeps (tch b)) (d : ℕ) : Keeps (load32 tch d) :=
  .bind (h _) fun _ => .gets _

theorem blockIsFree_keeps (h : ∀ b, Keeps (tch b)) (b : ℕ) : Keeps (blockIsFree tch b) := by
  refine .get_bind fun s => .ite (.pure _) ?_
  refine .bind (load32_keeps h _) fun nblocks => .ite (.pure _) ?_
  exact .bind (load32_keeps h _) fun w => .pure _

theorem bcPgfault_keeps (h : ∀ b, Keeps (tch b)) {b : ℕ} {s : Cache} (hnone : s.page b = none) :
    wp (bcPgfault tch b) (fun _ s' => s.Kept s' ∧ (s.Coherent → (s'.page b).isSome = true))
      (fun _ s' => s.Kept s' ∧ True) s := by
  have hstop : ∀ (e : BcStop) (s' : Cache), True → s.Kept s' → s.Kept s' ∧ True :=
    fun _ _ _ h => ⟨h, trivial⟩
  have hbounds : Keeps (do
      let nblocks ← load32 tch sNblocks
      when (nblocks ≤ b) (halt .nonExistent) : Bc Unit) :=
    .bind (load32_keeps h _) fun _ => .when (.halt trivial)
  have hcheck : Keeps (do
      let free ← blockIsFree tch b
      when (free = true) (halt .freeBlock) : Bc Unit) :=
    .bind (blockIsFree_keeps h b) fun _ => .when (.halt trivial)
  unfold bcPgfault
  refine Prog.Keeps.wp_bind (r := Cache.Kept) (.when (.halt trivial)) (fun _ s₁ h₁ => ?_) hstop
  rw [wp_bind, wp_get]
  refine Prog.Keeps.wp_bind hbounds.when (fun _ s₂ h₂ => ?_) ?_
  · rw [wp_bind, wp_get]
    refine Prog.Keeps.wp_bind (r := Cache.Kept) (b := fun _ => True) (.when (.halt trivial))
      (fun _ s₃ h₃ => ?_) ?_
    · have hs₃ : s.Kept s₃ := (h₁.trans h₂).trans h₃
      have hread : s.Kept (s₃.readIn b) := by
        intro hs
        have hk := hs₃ hs
        exact hk.trans (Cache.readIn_keep hk.coherent (hk.dirty b (hs.unmapped b hnone)))
      rw [wp_bind, wp_modify, wp_bind, wp_get]
      refine Prog.Keeps.wp hcheck.when (fun _ s₄ h₄ => ?_) fun _ s₄ _ h₄ => ⟨?_, trivial⟩
      · refine ⟨hread.trans h₄, fun hs => ?_⟩
        refine (h₄ (hread hs).coherent).page b ?_
        rw [Cache.readIn_page, if_pos rfl]
        rfl
      · exact hread.trans h₄
    · exact fun _ s₃ _ h₃ => ⟨(h₁.trans h₂).trans h₃, trivial⟩
  · exact fun _ s₂ _ h₂ => ⟨h₁.trans h₂, trivial⟩

theorem touch_keeps : ∀ depth b, Keeps (touch depth b) := by
  intro depth
  induction depth with
  | zero => exact fun b => .bind .get fun s => .when (.halt trivial)
  | succ depth ih =>
    intro b s
    rw [touch, wp_bind, wp_get, wp_when]
    refine ⟨fun hnone => ?_, fun _ => Cache.Kept.refl s⟩
    exact (bcPgfault_keeps ih (Option.isNone_iff_eq_none.1 hnone)).imp fun _ _ h => h.1

variable (depth : ℕ)

theorem diskaddr_keeps (b : ℕ) : Keeps (diskaddr depth b) := by
  refine .bind (.when (.halt trivial)) fun _ => .bind .get fun s => .bind (.when ?_) fun _ => .pure _
  exact .bind (load32_keeps (touch_keeps depth) _) fun _ => .when (.halt trivial)

theorem flushBlock_keeps (va : ℕ) : Keeps (flushBlock va) := by
  exact .bind (.when (.halt trivial)) fun _ => .modify fun s => Cache.flush_kept s _

theorem fileBlockWalk_keeps (f i : ℕ) : Keeps (fileBlockWalk depth f i) := by
  refine .ite (.pure _) (.ite ?_ (.pure _))
  exact .bind (load32_keeps (touch_keeps depth) _) fun _ => .pure _

/-! ### Flushing in general -/

section With

variable {fl : ℕ → Bc Unit} {r : Cache → Cache → Prop} [IsPreorder Cache r] (hkept : ∀ s s', s.Kept s' → r s s')
  (hfl : ∀ va, Prog.Keeps r (fun _ => True) (fl va))

include hkept hfl

omit [IsPreorder Cache r] hfl in
theorem load32_keeps_of (d : ℕ) : Prog.Keeps r (fun _ => True) (load32 (touch depth) d) :=
  Prog.Keeps.mono (load32_keeps (touch_keeps depth) d) hkept

theorem flushAt_keeps (b : ℕ) : Prog.Keeps r (fun _ => True) (do
    let va ← diskaddr depth b
    fl va) :=
  .bind (Prog.Keeps.mono (diskaddr_keeps depth b) hkept) hfl

theorem flushSlotWith_keeps (f i : ℕ) :
    Prog.Keeps r (fun _ => True) (flushSlotWith depth fl f i) := by
  refine .bind (Prog.Keeps.mono (fileBlockWalk_keeps depth f i) hkept) fun slot => ?_
  cases slot with
  | none => exact .pure _
  | some a =>
    exact .bind (load32_keeps_of depth hkept a) fun b =>
      .when (flushAt_keeps depth hkept hfl b)

theorem flushLoopWith_keeps (f : ℕ) :
    ∀ n i, Prog.Keeps r (fun _ => True) (flushLoopWith depth fl f n i) := by
  intro n
  induction n with
  | zero => exact fun i => .pure _
  | succ n ih =>
    intro i
    rw [flushLoopWith]
    refine Prog.Keeps.bind (load32_keeps_of depth hkept (fSize f)) ?_
    intro size
    generalize flushCount size = c
    refine .when ?_
    exact .bind (flushSlotWith_keeps depth hkept hfl f i) fun _ => ih (i + 1)

theorem fileFlushWith_keeps (f : ℕ) : Prog.Keeps r (fun _ => True) (fileFlushWith depth fl f) := by
  rw [fileFlushWith]
  refine .bind (flushLoopWith_keeps depth hkept hfl f (2 ^ 19) 0) fun _ =>
    .bind (hfl _) fun _ => ?_
  exact .bind (load32_keeps_of depth hkept (fIndirect f)) fun indirect =>
    .when (flushAt_keeps depth hkept hfl indirect)

theorem syncLoopWith_keeps : ∀ n i, Prog.Keeps r (fun _ => True) (syncLoopWith depth fl n i) := by
  intro n
  induction n with
  | zero => exact fun i => .pure _
  | succ n ih =>
    intro i
    rw [syncLoopWith]
    refine .bind (load32_keeps_of depth hkept sNblocks) fun nblocks => .when ?_
    refine .bind (Prog.Keeps.mono (diskaddr_keeps depth i) hkept) fun va => ?_
    exact .bind (hfl va) fun _ => ih (i + 1)

end With

theorem fileFlush_keeps (f : ℕ) : Keeps (fileFlush depth f) :=
  fileFlushWith_keeps depth (fun _ _ h => h) flushBlock_keeps f

theorem fsSync_keeps : Keeps (fsSync depth) :=
  syncLoopWith_keeps depth (fun _ _ h => h) flushBlock_keeps _ _

/-! ### When an access is answered -/

section Answered

variable {depth} {s : Cache} {b d : ℕ}

theorem touch_mapped (h : (s.page b).isSome = true) : touch depth b s = .ret () s := by
  have hb : ¬ (s.page b).isNone = true := by
    rw [Option.isNone_iff_eq_none]
    exact Option.isSome_iff_ne_none.1 h
  cases depth with
  | zero => exact congrFun (if_neg hb) s
  | succ depth => exact congrFun (if_neg hb) s

theorem load32_mapped (h : (s.page (d / blksize)).isSome = true) (hd : d % 4 = 0) :
    load32 (touch depth) d s = .ret (Bytes.rd32 s.content d) s := by
  rw [load32, ret_bind (touch_mapped h), ← Cache.rd32_mapped h hd]
  rfl

theorem touch_maps (hs : s.Coherent) (b : ℕ) :
    wp (touch depth b) (fun _ s' => (s'.page b).isSome = true) (fun _ _ => True) s := by
  cases depth with
  | zero =>
    rw [touch, wp_bind, wp_get, wp_when]
    exact ⟨fun _ => trivial, fun h => by simpa [Option.isSome_iff_ne_none] using h⟩
  | succ depth =>
    rw [touch, wp_bind, wp_get, wp_when]
    refine ⟨fun hnone => ?_, fun h => by simpa [Option.isSome_iff_ne_none] using h⟩
    exact (bcPgfault_keeps (touch_keeps depth) (Option.isNone_iff_eq_none.1 hnone)).mono
      (fun _ _ h => h.2 hs) fun _ _ _ => trivial

/-- A fault on block `b`, up to where the block has been read in. -/
theorem wp_fault {Q : Unit → Cache → Prop} {R : BcStop → Cache → Prop} (hnone : s.page b = none)
    (hsuper : s.super = true → (s.page 1).isSome = true)
    (hout : disksize / blksize ≤ b ∨ s.super = true ∧ Bytes.rd32 s.content sNblocks ≤ b → ∀ e, R e s)
    (hfree : s.free = 0 → R .noMem s)
    (hnext : (s.super = true → b < Bytes.rd32 s.content sNblocks) → wp (when (s.bitmap = true) (do
        let free ← blockIsFree (touch depth) b
        when (free = true) (halt .freeBlock))) Q R (s.readIn b)) :
    wp (touch (depth + 1) b) Q R s := by
  have hisNone : (s.page b).isNone = true := by
    rw [hnone]
    rfl
  rw [touch, wp_bind, wp_get, wp_when]
  refine ⟨fun _ => ?_, fun hc => absurd hisNone hc⟩
  rw [bcPgfault, wp_bind, wp_when]
  refine ⟨fun hc => hout (.inl hc) _, fun _ => ?_⟩
  have hrest : (s.super = true → b < Bytes.rd32 s.content sNblocks) → wp (do
      let s ← get
      when (s.free = 0) (halt .noMem)
      modify fun s => s.readIn b
      let s ← get
      when (s.bitmap = true) (do
        let free ← blockIsFree (touch depth) b
        when (free = true) (halt .freeBlock)) : Bc Unit) Q R s := by
    intro hlt
    rw [wp_bind, wp_get, wp_bind, wp_when]
    refine ⟨hfree, fun _ => ?_⟩
    rw [wp_bind, wp_modify, wp_bind, wp_get]
    exact hnext hlt
  rw [wp_bind, wp_get, wp_bind, wp_when]
  refine ⟨fun hsup => ?_, fun hsup => hrest fun h => absurd h hsup⟩
  rw [wp_bind_of_ret (load32_mapped (hsuper hsup) rfl), wp_when]
  exact ⟨fun hc => hout (.inr ⟨hsup, hc⟩) _, fun hlt => hrest fun _ => Nat.not_le.mp hlt⟩

theorem touch_fault (hs : s.Coherent) (hnone : s.page b = none) (hb : b < disksize / blksize)
    (hfree : s.free ≠ 0)
    (hsuper : s.super = true → (s.page 1).isSome = true ∧ b < Bytes.rd32 s.content sNblocks)
    (hbit : s.super = true → s.bitmap = true →
      (Bytes.rd32 s.content (bitmapStart + 4 * (b / 32))).testBit (b % 32) = false ∧
      wp (touch depth (2 + b / blkbitsize)) (fun _ _ => True) (fun _ _ => False) (s.readIn b)) :
    wp (touch (depth + 1) b) (fun _ _ => True) (fun _ _ => False) s := by
  have hread := Cache.readIn_keep hs (hs.unmapped b hnone)
  have hword : (bitmapStart + 4 * (b / 32)) / blksize = 2 + b / blkbitsize ∧
      (bitmapStart + 4 * (b / 32)) % 4 = 0 := by
    unfold bitmapStart blkbitsize blksize
    omega
  refine wp_fault hnone (fun h => (hsuper h).1) (fun hc => ?_) (fun h => absurd h hfree) fun _ => ?_
  · rcases hc with hc | ⟨hsup, hc⟩
    · omega
    · exact absurd (hsuper hsup).2 (Nat.not_lt.mpr hc)
  rw [wp_when]
  refine ⟨fun hbm => ?_, fun _ => trivial⟩
  rw [wp_bind, blockIsFree, wp_bind, wp_get, wp_ite]
  refine ⟨fun _ => by simp [wp_when], fun hsup => ?_⟩
  have hsup' : s.super = true := Bool.not_eq_false _ ▸ hsup
  obtain ⟨hclear, htouch⟩ := hbit hsup' hbm
  rw [wp_bind_of_ret (load32_mapped (hread.page 1 (hsuper hsup').1) rfl), wp_ite]
  refine ⟨fun _ => by simp [wp_when], fun _ => ?_⟩
  rw [wp_bind, load32, wp_bind, hword.1]
  refine (htouch.and ((touch_maps hread.coherent _).and (touch_keeps depth _ (s.readIn b)))).mono
    (fun _ s' h => ?_) fun _ _ h => h.1
  obtain ⟨-, hmapped, hkept⟩ := h
  have hk := hread.trans (hkept hread.coherent)
  rw [wp_gets, Cache.rd32_mapped (hword.1 ▸ hmapped) hword.2, hk.content, wp_pure, wp_when]
  exact ⟨fun h => by simp [hclear] at h, fun _ => trivial⟩

theorem touch_answered (hs : s.Coherent) (h : s.Answered depth b) :
    wp (touch depth b) (fun _ _ => True) (fun _ _ => False) s := by
  -- an access to block `b` of a state `t`, with room for one more handler
  have hfault : ∀ (n b : ℕ) (t : Cache), s.Keep t → b < disksize / blksize → t.free ≠ 0 →
      (s.super = true → (s.page 1).isSome = true ∧ s.InUse b) →
      (s.super = true → s.bitmap = true → s.Keep (t.readIn b) →
        wp (touch n (2 + b / blkbitsize)) (fun _ _ => True) (fun _ _ => False) (t.readIn b)) →
      wp (touch (n + 1) b) (fun _ _ => True) (fun _ _ => False) t := by
    intro n b t ht hb hfree huse hnext
    cases hp : t.page b with
    | some p => exact (wp_of_ret (touch_mapped (by rw [hp]; rfl))).2 trivial
    | none =>
      refine touch_fault ht.coherent hp hb hfree (fun hsup => ?_) fun hsup hbm => ?_
      · rw [ht.super] at hsup
        rw [ht.content]
        exact ⟨ht.page 1 (huse hsup).1, (huse hsup).2.1⟩
      · rw [ht.super] at hsup
        rw [ht.bitmap] at hbm
        rw [ht.content]
        refine ⟨(huse hsup).2.2 hbm, hnext hsup hbm ?_⟩
        exact ht.trans (Cache.readIn_keep ht.coherent (ht.coherent.unmapped b hp))
  rcases h with h | ⟨hb, hfree, hdepth, hsuper⟩
  · exact (wp_of_ret (touch_mapped h)).2 trivial
  obtain ⟨n, rfl⟩ : ∃ n, depth = n + 3 := ⟨depth - 3, by omega⟩
  have hb₁ : 2 + b / blkbitsize < disksize / blksize ∧
      2 + (2 + b / blkbitsize) / blkbitsize = 2 := by
    unfold disksize blkbitsize blksize at *
    omega
  refine hfault (n + 2) b s (Cache.Kept.refl s hs) hb (by omega)
    (fun h => ⟨(hsuper h).1, (hsuper h).2.1⟩) fun hsup hbm hk₁ => ?_
  obtain ⟨hpage, -, huse⟩ := hsuper hsup
  refine hfault (n + 1) _ _ hk₁ hb₁.1 ?_ (fun _ => ⟨hpage, (huse hbm).1⟩) fun _ _ hk₂ => ?_
  · show s.free - 1 ≠ 0
    omega
  rw [hb₁.2]
  refine hfault n 2 _ hk₂ (by decide) ?_ (fun _ => ⟨hpage, (huse hbm).2⟩) fun _ _ _ => ?_
  · show s.free - 1 - 1 ≠ 0
    omega
  -- the bit of block 2 is in block 2 itself
  refine (wp_of_ret (touch_mapped ?_)).2 trivial
  rw [Cache.readIn_page, if_pos (by decide)]
  rfl

theorem touch_spec (hs : s.Coherent) (b : ℕ) :
    wp (touch depth b) (fun _ s' => (s'.page b).isSome = true ∧ s.Keep s')
      (fun _ _ => ¬ s.Answered depth b) s := by
  have hkeep : wp (touch depth b) (fun _ s' => (s'.page b).isSome = true ∧ s.Keep s')
      (fun _ _ => True) s :=
    ((touch_maps hs b).and (touch_keeps depth b s)).mono (fun _ _ h => ⟨h.1, h.2 hs⟩)
      fun _ _ _ => trivial
  by_cases ha : s.Answered depth b
  · exact (hkeep.and (touch_answered hs ha)).mono (fun _ _ h => h.1) fun _ _ h => h.2.elim
  · exact hkeep.mono (fun _ _ h => h) fun _ _ _ => ha

theorem load_spec (hs : s.Coherent) (d : ℕ) :
    wp (load depth d) (fun v s' => v = s.content d ∧ s.Keep s')
      (fun _ _ => ¬ s.Answered depth (d / blksize)) s := by
  rw [load]
  refine (touch_spec hs _).bind fun _ s' h => ?_
  rw [wp_gets, Cache.mapped_eq h.1, h.2.content]
  exact ⟨rfl, h.2⟩

theorem store_spec (hs : s.Coherent) (d : ℕ) (v : UInt8) :
    wp (store depth d v)
      (fun _ s' => s'.Coherent ∧ s'.content = update s.content d v)
      (fun _ _ => ¬ s.Answered depth (d / blksize)) s := by
  rw [store]
  refine (touch_spec hs _).bind fun _ s' h => ?_
  rw [wp_modify, ← h.2.content]
  exact ⟨Cache.put_coherent h.2.coherent, Cache.put_content h.1⟩

/-! ### `fs_sync` -/

variable {i : ℕ}

theorem diskaddr_eq (hsup : s.super = true) (hpage : (s.page 1).isSome = true) (hi : i ≠ 0)
    (hn : i < Bytes.rd32 s.content sNblocks) :
    diskaddr depth i s = .ret ((diskmap + i * blksize) % 2 ^ 32) s := by
  have hload : load32 (touch depth) sNblocks s = .ret (Bytes.rd32 s.content sNblocks) s :=
    load32_mapped hpage rfl
  have h₁ : when (i = 0) (halt .badBlock) s = (.ret () s : Outcome BcStop Cache Unit) :=
    congrFun (if_neg hi) s
  have h₂ : when (Bytes.rd32 s.content sNblocks ≤ i) (halt .badBlock) s =
      (.ret () s : Outcome BcStop Cache Unit) := congrFun (if_neg (by omega)) s
  have h₃ : when (s.super = true) (do
      let nblocks ← load32 (touch depth) sNblocks
      when (nblocks ≤ i) (halt .badBlock)) s = (.ret () s : Outcome BcStop Cache Unit) := by
    rw [when, if_pos hsup, ret_bind hload, h₂]
  rw [diskaddr, ret_bind h₁, get_bind, ret_bind h₃]
  rfl

theorem flushBlock_eq (hi : i < disksize / blksize) :
    flushBlock ((diskmap + i * blksize) % 2 ^ 32) s = .ret () (s.flush i) := by
  have hva : (diskmap + i * blksize) % 2 ^ 32 = diskmap + i * blksize ∧
      diskmap + i * blksize < diskmap + disksize ∧
      (diskmap + i * blksize - diskmap) / blksize = i := by
    unfold disksize diskmap blksize at *
    omega
  have h₁ : when (diskmap + i * blksize < diskmap ∨ diskmap + disksize ≤ diskmap + i * blksize)
      (halt .badVa) s = (.ret () s : Outcome BcStop Cache Unit) := by
    refine congrFun (if_neg ?_) s
    omega
  rw [hva.1, flushBlock, ret_bind h₁, hva.2.2]
  rfl

theorem syncLoop_returns (hsup : s.super = true) (hpage : (s.page 1).isSome = true)
    (hn : Bytes.rd32 s.content sNblocks ≤ disksize / blksize) :
    ∀ (n i : ℕ) (t : Cache), s.Keep t → 0 < i → Bytes.rd32 s.content sNblocks ≤ i + n →
      (∀ b, 0 < b → b < i → t.dirty b = false) →
      wp (syncLoopWith depth flushBlock n i)
        (fun _ s' => ∀ b, 0 < b → b < Bytes.rd32 s.content sNblocks → s'.dirty b = false)
        (fun _ _ => False) t := by
  intro n
  induction n with
  | zero => exact fun i t _ _ hle hclean b hb hlt => hclean b hb (by omega)
  | succ n ih =>
    intro i t ht hi hle hclean
    have hload : load32 (touch depth) sNblocks t = .ret (Bytes.rd32 s.content sNblocks) t := by
      rw [load32_mapped (ht.page 1 hpage) rfl, ht.content]
    rw [syncLoopWith, wp_bind_of_ret hload, wp_when]
    refine ⟨fun hlt => ?_, fun hge b hb hlt => hclean b hb (by omega)⟩
    have haddr : diskaddr depth i t = .ret ((diskmap + i * blksize) % 2 ^ 32) t :=
      diskaddr_eq (ht.super.trans hsup) (ht.page 1 hpage) (by omega) (ht.content.symm ▸ hlt)
    have hflush := flushBlock_eq (s := t) (i := i) (by omega)
    rw [wp_bind_of_ret haddr, wp_bind_of_ret hflush]
    have hk := t.flush_kept i ht.coherent
    refine ih (i + 1) _ (ht.trans hk) (by omega) (by omega) fun b hb hlt' => ?_
    rcases Nat.lt_succ_iff_lt_or_eq.1 hlt' with h | rfl
    · exact hk.dirty b (hclean b hb h)
    · exact Cache.flush_clean ht.coherent b

end Answered

end Bc

/-! ### Runs -/

/-- The server starts with nothing mapped. -/
structure Cache.Cold (s : Cache) : Prop where
  page : ∀ b, s.page b = none
  dirty : ∀ b, s.dirty b = false
  super : s.super = false
  bitmap : s.bitmap = false

/-- The cache stands for the memory that the stores have made. -/
structure BcInv (sm : Cache × Bytes.Mem) : Prop where
  coherent : sm.1.Coherent
  content : sm.1.content = sm.2

theorem Cache.Cold.inv {s : Cache} (h : s.Cold) : BcInv (s, s.content) := by
  refine ⟨⟨fun b p hp => ?_, fun b _ => h.dirty b⟩, rfl⟩
  rw [h.page b] at hp
  cases hp

theorem BcInv.keep {s s' : Cache} {m : Bytes.Mem} (h : BcInv (s, m)) (hk : s.Kept s') :
    BcInv (s', m) :=
  ⟨(hk h.coherent).coherent, (hk h.coherent).content.trans h.content⟩

theorem BcInv.returned {α : Type} {m : Bc α} {s s' : Cache} {l : Bytes.Mem} (h : BcInv (s, l))
    (hm : Bc.Keeps m) (hs : (m s).returned = some s') : BcInv (s', l) := by
  cases ho : m s with
  | ret a t =>
    rw [ho] at hs
    cases hs
    exact h.keep (Prog.Keeps.ret hm ho)
  | stop e t =>
    rw [ho] at hs
    cases hs

theorem bcInv_step {depth : ℕ} (sm : Cache × Bytes.Mem) (e : BcEvent) (sm' : Cache × Bytes.Mem)
    (h : BcInv sm) (hs : bcStep depth sm e = some sm') : BcInv sm' := by
  obtain ⟨s, m⟩ := sm
  cases e with
  | load d =>
    obtain ⟨-, hs⟩ := Option.ite_none_right_eq_some.1 hs
    obtain ⟨s', hr, rfl⟩ := Option.map_eq_some_iff.1 hs
    exact h.returned (.bind (Bc.touch_keeps depth _) fun _ => .gets _) hr
  | store d v =>
    obtain ⟨-, hs⟩ := Option.ite_none_right_eq_some.1 hs
    obtain ⟨s', hr, rfl⟩ := Option.map_eq_some_iff.1 hs
    obtain ⟨a, hm⟩ := Outcome.returned_eq_some.1 hr
    obtain ⟨hco, hcontent⟩ := (Bc.store_spec h.coherent d v).ret hm
    exact ⟨hco, hcontent.trans (by rw [h.content])⟩
  | flushBlock va =>
    obtain ⟨s', hr, rfl⟩ := Option.map_eq_some_iff.1 hs
    exact h.returned (Bc.flushBlock_keeps va) hr
  | fileFlush f =>
    obtain ⟨s', hr, rfl⟩ := Option.map_eq_some_iff.1 hs
    exact h.returned (Bc.fileFlush_keeps depth f) hr
  | unmap b =>
    obtain ⟨hb, hs⟩ := Option.ite_none_right_eq_some.1 hs
    cases hs
    exact ⟨Cache.unmap_coherent h.coherent,
      (Cache.unmap_content h.coherent hb.2).trans h.content⟩
  | sync =>
    obtain ⟨-, hs⟩ := Option.ite_none_right_eq_some.1 hs
    obtain ⟨s', hr, rfl⟩ := Option.map_eq_some_iff.1 hs
    exact h.returned (Bc.fsSync_keeps depth) hr
  | setSuper =>
    obtain ⟨-, hs⟩ := Option.ite_none_right_eq_some.1 hs
    cases hs
    exact ⟨⟨h.coherent.clean, h.coherent.unmapped⟩, h.content⟩
  | setBitmap =>
    obtain ⟨-, hs⟩ := Option.ite_none_right_eq_some.1 hs
    cases hs
    exact ⟨⟨h.coherent.clean, h.coherent.unmapped⟩, h.content⟩

/-- In every run a page that is clean is the block on the disk, and the cache
stands for what has been stored.  A load or a store that is answered returns;
`fs_sync` returns while the superblock is mapped, and leaves no dirty block
behind. -/
theorem block_cache_coherent {depth : ℕ} {s₀ : Cache} (h₀ : s₀.Cold) {s : Cache} {m : Bytes.Mem}
    (h : Sys.Reach (bcStep depth) (fun _ _ => True) (s₀, s₀.content) (s, m)) :
    s.Coherent ∧ s.content = m ∧
    (∀ d, wp (Bc.load depth d) (fun v s' => v = m d ∧ s'.content = m)
      (fun _ _ => ¬ s.Answered depth (d / blksize)) s) ∧
    (∀ d v, wp (Bc.store depth d v) (fun _ s' => s'.content = update m d v)
      (fun _ _ => ¬ s.Answered depth (d / blksize)) s) ∧
    (s.super = true → (s.page 1).isSome = true → Bytes.rd32 m sNblocks ≤ disksize / blksize →
      wp (Bc.fsSync depth)
        (fun _ s' => ∀ b, 0 < b → b < Bytes.rd32 m sNblocks →
          s'.dirty b = false ∧ ∀ o < blksize, s'.ideRead (b * blksects) o = m (b * blksize + o))
        (fun _ _ => False) s) := by
  have hinv : BcInv (s, m) := h.inv h₀.inv fun sm e sm' hi _ hs => bcInv_step sm e sm' hi hs
  have hco : s.Coherent := hinv.coherent
  have hm : s.content = m := hinv.content
  subst hm
  refine ⟨hco, rfl, fun d => ?_, fun d v => ?_, fun hsup hpage hn => ?_⟩
  · exact (Bc.load_spec hco d).imp fun _ _ h => ⟨h.1, h.2.content⟩
  · exact (Bc.store_spec hco d v).imp fun _ _ h => h.2
  · have hlt := Bytes.rd32_lt s.content sNblocks
    have hsync : wp (Bc.fsSync depth)
        (fun _ s' => ∀ b, 0 < b → b < Bytes.rd32 s.content sNblocks → s'.dirty b = false)
        (fun _ _ => False) s :=
      Bc.syncLoop_returns hsup hpage hn (2 ^ 32) 1 s (Cache.Kept.refl s hco) Nat.one_pos
        (by omega) fun b _ _ => by omega
    refine (hsync.and (Bc.fsSync_keeps depth s)).mono (fun _ s' h b hb hlt => ?_)
      fun _ _ h => h.1
    obtain ⟨hclean, hkept⟩ := h
    refine ⟨hclean b hb hlt, fun o ho => ?_⟩
    -- a block that is not dirty is on the disk
    have hdiv : (b * blksize + o) / blksize = b ∧ (b * blksize + o) % blksize = o := by
      unfold blksize at *
      omega
    have hb' : s'.dirty ((b * blksize + o) / blksize) = false := by
      rw [hdiv.1]
      exact hclean b hb hlt
    have hdisk := (hkept hco).coherent.content_eq hb'
    rw [(hkept hco).content] at hdisk
    rw [hdisk, ← Cache.ideRead_eq, hdiv.1, hdiv.2]

namespace Cache

/-- A server that starts on an empty disk. -/
def blank : Cache where
  disk _ _ := 0
  page _ := none
  dirty _ := false
  free := 8
  super := false
  bitmap := false

theorem blank_cold : blank.Cold := ⟨fun _ => rfl, fun _ => rfl, rfl, rfl⟩

end Cache

/-- A store into a block that has to be read in first. -/
theorem block_cache_coherent_store : ∃ s m,
    Sys.Reach (bcStep 3) (fun _ _ => True) (Cache.blank, Cache.blank.content) (s, m) ∧
    s.content = m ∧ m 8192 = 5 := by
  have hstep : bcStep 3 (Cache.blank, Cache.blank.content) (.store 8192 5) =
      some ((Cache.blank.readIn 2).put 8192 5, update Cache.blank.content 8192 5) := rfl
  have hreach : Sys.Reach (bcStep 3) (fun _ _ => True) _ _ := Sys.Reach.refl.step trivial hstep
  exact ⟨_, _, hreach, (block_cache_coherent Cache.blank_cold hreach).2.1, update_self ..⟩

theorem Bc.touch_overflow {s : Cache} (hsup : s.super = true) (hpage : s.page 1 = none) :
    ∀ depth, wp (Bc.touch depth 1) (fun _ _ => False) (fun e _ => e = .overflow) s := by
  have hnone : (s.page 1).isNone = true := by rw [hpage]; rfl
  intro depth
  induction depth with
  | zero =>
    rw [touch, wp_bind, wp_get, wp_when]
    exact ⟨fun _ => rfl, fun h => h hnone⟩
  | succ depth ih =>
    rw [touch, wp_bind, wp_get, wp_when]
    refine ⟨fun _ => ?_, fun h => h hnone⟩
    rw [bcPgfault, wp_bind, wp_when]
    refine ⟨fun h => absurd h (by decide), fun _ => ?_⟩
    rw [wp_bind, wp_get, wp_bind, wp_when]
    refine ⟨fun _ => ?_, fun h => absurd hsup h⟩
    rw [wp_bind, load32, wp_bind]
    exact ih.imp fun _ _ h => h.elim

/-- Once `super` is set, a fault on the superblock faults again, until the
exception stack is full. -/
theorem superblock_unmapped : ∃ s m,
    Sys.Reach (bcStep 16) (fun _ _ => True) (Cache.blank, Cache.blank.content) (s, m) ∧
    wp (Bc.load 16 sNblocks) (fun _ _ => False) (fun e _ => e = .overflow) s := by
  have hload : bcStep 16 (Cache.blank, Cache.blank.content) (.load sNblocks) =
      some (Cache.blank.readIn 1, Cache.blank.content) := rfl
  have hsuper : bcStep 16 (Cache.blank.readIn 1, Cache.blank.content) .setSuper =
      some ({ Cache.blank.readIn 1 with super := true }, Cache.blank.content) := rfl
  have hunmap : bcStep 16 ({ Cache.blank.readIn 1 with super := true }, Cache.blank.content)
      (.unmap 1) =
      some (Cache.unmap { Cache.blank.readIn 1 with super := true } 1, Cache.blank.content) := rfl
  have hreach : Sys.Reach (bcStep 16) (fun _ _ => True) _ _ := Sys.Reach.refl.step trivial hload
  refine ⟨_, _, (hreach.step trivial hsuper).step trivial hunmap, ?_⟩
  rw [Bc.load, wp_bind]
  exact (Bc.touch_overflow rfl rfl 16).imp fun _ _ h => h.elim

end Jos
