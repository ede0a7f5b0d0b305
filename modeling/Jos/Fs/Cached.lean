/-
fs/fs.c on the block cache and on the bytes it stands for.

`Jos.Fs.File` models fs/fs.c on bytes; the functions that matter to the cache
are modelled on it as well.  `Shows rel m q` says that wherever the program `m`
on the cache returns, the program `q` on the bytes does, with the bytes that
the cache stands for then and a result that is related by `rel`.

* `load32_shows`, `store32_shows` — the accesses;
* `cache_shows_fs` — the functions.
-/
import Jos.Fs.AllocBlock

namespace Jos

open Bytes Prog

/-- The server runs, and the blocks that are mapped exist. -/
structure Cache.Ready (s : Cache) : Prop extends s.Started where
  exist : ∀ b, (s.page b).isSome = true → b < Fs.nblocks s.content ∨ b = 1

namespace Bc

open Cache

def Shows {α β : Type} (rel : α → β → Prop) (m : Bc α) (q : FsM β) : Prop := ∀ s : Cache, s.Ready →
  wp m (fun r t => t.Ready ∧ ∃ r', q s.content = .ret r' t.content ∧ rel r r') (fun _ _ => True) s

namespace Shows

variable {α β γ δ : Type} {rel : α → β → Prop} {rel' : γ → δ → Prop} {m m' : Bc α} {q q' : FsM β}

theorem pure {r : α} {r' : β} (h : rel r r') : Shows rel (pure r) (pure r') := fun _ hs =>
  ⟨hs, r', rfl, h⟩

theorem halt (e : BcStop) : Shows rel (halt e) q := fun _ _ => trivial

theorem bind {f : α → Bc γ} {g : β → FsM δ} (h : Shows rel m q)
    (hf : ∀ r r', rel r r' → Shows rel' (f r) (g r')) : Shows rel' (m >>= f) (q >>= g) := by
  intro s hs
  refine (h s hs).bind ?_
  rintro r t ⟨ht, r', hq, hrel⟩
  rw [ret_bind hq]
  exact hf r r' hrel t ht

theorem next {q : FsM α} {f : α → Bc γ} {g : α → FsM δ} (h : Shows Eq m q)
    (hf : ∀ r, Shows rel' (f r) (g r)) : Shows rel' (m >>= f) (q >>= g) :=
  h.bind fun r _ hr => hr ▸ hf r

theorem ite {c : Prop} [Decidable c] (h : c → Shows rel m q) (h' : ¬ c → Shows rel m' q') :
    Shows rel (if c then m else m') (if c then q else q') := by
  by_cases hc : c
  · rw [if_pos hc, if_pos hc]
    exact h hc
  · rw [if_neg hc, if_neg hc]
    exact h' hc

theorem when {c : Prop} [Decidable c] {m : Bc Unit} {q : FsM Unit} (h : c → Shows Eq m q) :
    Shows Eq (when c m) (when c q) :=
  .ite h fun _ => .pure rfl

end Shows

/-! ### The accesses -/

variable {depth n i : ℕ} {s t : Cache} {b d f w : ℕ}

theorem ready_keep (h : s.Ready) (hk : s.Keep t)
    (hpage : ∀ b, (t.page b).isSome = true → (s.page b).isSome = true ∨ b < Fs.nblocks s.content) :
    t.Ready := by
  refine ⟨h.toStarted.keep hk, fun b hb => ?_⟩
  rw [hk.content]
  exact (hpage b hb).elim (h.exist b) .inl

theorem touch_ready : ∀ depth b {s : Cache}, s.Ready →
    wp (touch depth b) (fun _ t => t.Ready ∧ s.Keep t) (fun _ _ => True) s := by
  intro depth
  induction depth with
  | zero =>
    intro b s hs
    rw [touch, wp_bind, wp_get, wp_when]
    exact ⟨fun _ => trivial, fun _ => ⟨hs, Kept.refl s hs.coherent⟩⟩
  | succ depth ih =>
    intro b s hs
    cases hp : s.page b with
    | some p =>
      rw [wp_of_ret (touch_mapped (by rw [hp]; rfl))]
      exact ⟨hs, Kept.refl s hs.coherent⟩
    | none =>
      refine wp_fault_started hs.toStarted hp (fun _ _ => trivial) (fun _ => trivial) fun hlt => ?_
      have hk := readIn_keep hs.coherent (hs.coherent.unmapped b hp)
      have hr : (s.readIn b).Ready := ready_keep hs hk fun c hc => by
        rw [readIn_page] at hc
        split at hc
        · next hcb => exact .inr (hcb ▸ hlt)
        · exact .inl hc
      have hdone : ∀ {u : Cache} (free : Bool), u.Ready → s.Keep u →
          wp (when (free = true) (halt .freeBlock) : Bc Unit) (fun _ t => t.Ready ∧ s.Keep t)
            (fun _ _ => True) u :=
        fun free hu hku => wp_when.mpr ⟨fun _ => trivial, fun _ => ⟨hu, hku⟩⟩
      rw [wp_bind, blockIsFree, wp_bind, wp_get, if_neg hr.not_unset,
        wp_bind_of_ret (load_nblocks hr.toStarted), wp_ite]
      refine ⟨fun _ => wp_pure.mpr (hdone _ hr hk), fun _ => ?_⟩
      rw [wp_bind, load32]
      refine (ih _ hr).bind fun _ u hu => ?_
      exact hdone _ hu.1 (hk.trans hu.2)

theorem touch_access (hs : s.Ready) (d : ℕ) :
    wp (touch depth (d / blksize)) (fun _ t => t.Ready ∧ s.Keep t ∧
      (t.page (d / blksize)).isSome = true ∧ Fs.touch d s.content = .ret () s.content)
      (fun _ _ => True) s := by
  refine ((touch_ready depth _ hs).and (touch_maps hs.coherent _)).mono ?_ fun _ _ _ => trivial
  rintro _ t ⟨⟨ht, hk⟩, hm⟩
  have hex := ht.exist _ hm
  rw [hk.content] at hex
  refine ⟨ht, hk, hm, ?_⟩
  show (when _ (halt _) : FsM Unit) s.content = _
  rw [Prog.when, if_neg fun hc => hex.elim (Nat.not_lt.mpr hc.1) hc.2]
  rfl

theorem wp_load32 (hs : s.Ready) (hd : d % 4 = 0) : wp (load32 (touch depth) d) (fun r t => t.Ready ∧
    t.content = s.content ∧ r = rd32 s.content d ∧ Fs.load32 d s.content = .ret r s.content)
    (fun _ _ => True) s := by
  rw [load32]
  refine (touch_access hs d).bind ?_
  rintro _ t ⟨ht, hk, hm, htouch⟩
  rw [wp_gets, rd32_mapped hm hd, hk.content]
  refine ⟨ht, rfl, rfl, ?_⟩
  rw [Fs.load32, ret_bind htouch]
  rfl

theorem load32_shows (hd : d % 4 = 0) : Shows Eq (load32 (touch depth) d) (Fs.load32 d) := by
  intro s hs
  refine (wp_load32 hs hd).imp ?_
  rintro r t ⟨ht, hcontent, -, hload⟩
  exact ⟨ht, r, hcontent ▸ hload, rfl⟩

theorem store32_shows (hd : d % 4 = 0) (hlow : sNblocks + 4 ≤ d) (w : ℕ) :
    Shows Eq (store32 depth d w) (Fs.store32 d w) := by
  intro s hs
  rw [store32]
  refine (touch_access hs d).bind ?_
  rintro _ t ⟨ht, hk, hm, htouch⟩
  have hcontent := put32_content (w := w) hm hd
  obtain ⟨-, -, hsuper, hbitmap⟩ := t.put32_rest (d := d) (w := w)
  rw [wp_modify]
  refine ⟨⟨⟨put32_coherent ht.coherent, hsuper.trans ht.super, hbitmap.trans ht.bitmap, ?_⟩, ?_⟩,
    (), ?_, rfl⟩
  · rw [put32_page]
    exact ht.page
  · intro b hb
    rw [put32_page] at hb
    rw [hcontent, Fs.nblocks_wr32 hlow]
    exact ht.exist b hb
  · rw [Fs.store32, ret_bind htouch, hcontent, hk.content]
    rfl

theorem flush_page (s : Cache) (b : ℕ) : (s.flush b).page = s.page := by
  unfold Cache.flush
  split
  · split <;> rfl
  · rfl

theorem flushBlock_shows (va : ℕ) : Shows Eq (flushBlock va) (pure ()) := by
  intro s hs
  rw [flushBlock, wp_bind, wp_when]
  refine ⟨fun _ => trivial, fun _ => ?_⟩
  rw [wp_modify]
  have hk := flush_kept s ((va - diskmap) / blksize) hs.coherent
  refine ⟨ready_keep hs hk fun b hb => .inl (flush_page s _ ▸ hb), (), ?_, rfl⟩
  rw [hk.content]
  rfl

theorem Shows.flush {α β : Type} {rel : α → β → Prop} {m : Bc α} {q : FsM β} {va : ℕ}
    (h : Shows rel m q) : Shows rel (flushBlock va >>= fun _ => m) q :=
  (flushBlock_shows va).next fun _ => h

/-! ### The functions -/

theorem diskaddr_shows (b : ℕ) :
    Shows (fun va a => va = (diskmap + a) % 2 ^ 32) (diskaddr depth b) (Fs.diskaddr b) := by
  intro s hs
  rw [diskaddr, wp_bind, wp_when]
  refine ⟨fun _ => trivial, fun hb => ?_⟩
  rw [wp_bind, wp_get, wp_bind, wp_when]
  refine ⟨fun _ => ?_, fun hc => absurd hs.super hc⟩
  rw [wp_bind_of_ret (load_nblocks hs.toStarted), wp_when]
  refine ⟨fun _ => trivial, fun hn => ?_⟩
  exact ⟨hs, b * blksize, Fs.diskaddr_eq hb (Nat.not_le.mp hn), rfl⟩

theorem blockIsFree_shows (b : ℕ) : Shows Eq (blockIsFree (touch depth) b) (Fs.blockIsFree b) := by
  intro s hs
  rw [blockIsFree, wp_bind, wp_get, if_neg hs.not_unset]
  refine Shows.next (load32_shows rfl) (fun n => .ite (fun _ => .pure rfl) fun _ => ?_) s hs
  exact .next (load32_shows (bitmapWord_block b).2) fun w => .pure rfl

theorem bitmapWord_low (b : ℕ) : sNblocks + 4 ≤ Fs.bitmapWord b := by
  unfold Fs.bitmapWord bitmapStart sNblocks blksize
  omega

theorem freeBlock_shows (b : ℕ) : Shows Eq (freeBlock depth b) (Fs.freeBlock b) :=
  .next (.when fun _ => .halt _) fun _ => .next (load32_shows (bitmapWord_block b).2) fun _ =>
    store32_shows (bitmapWord_block b).2 (bitmapWord_low b) _

theorem allocScan_shows : ∀ n i, Shows Eq (allocScan depth n i) (Fs.allocScan n i) := by
  intro n
  induction n with
  | zero => exact fun i => .pure rfl
  | succ n ih =>
    intro i
    have hmod := (bitmapWord_block i).2
    refine .next (blockIsFree_shows i) fun free => .ite (fun _ => ?_) fun _ => ih (i + 1)
    refine .next (load32_shows hmod) fun w => .next (store32_shows hmod (bitmapWord_low i) _) fun _ => ?_
    exact .flush (.pure rfl)

theorem allocBlock_shows : Shows Eq (allocBlock depth) Fs.allocBlock :=
  .next (load32_shows rfl) fun n => allocScan_shows n 0

/-- The slot is a word of the file, if there is one. -/
def SlotIs (slot : Option ℕ) (r : Except ℤ ℕ) : Prop := slot = r.toOption ∧ ∀ a ∈ slot, a % 4 = 0

theorem fileBlockWalk_shows (hf : f % 4 = 0) (i : ℕ) :
    Shows SlotIs (fileBlockWalk depth f i) (Fs.fileBlockWalk f i false) := by
  refine .ite (fun _ => .pure ⟨rfl, ?_⟩) fun _ => .ite (fun _ => ?_) fun _ => .pure ⟨rfl, by simp⟩
  · simp only [Option.mem_some_iff, forall_eq', fDirect]
    omega
  · refine .next (load32_shows (by unfold fIndirect; omega)) fun w => ?_
    by_cases hw : w ≠ 0
    · rw [if_pos hw, if_pos hw]
      refine .pure ⟨rfl, ?_⟩
      simp only [Option.mem_some_iff, forall_eq', fIndirect]
      omega
    · rw [if_neg hw, if_neg hw]
      exact .pure ⟨rfl, by simp⟩

theorem flushAt_shows (b : ℕ) : Shows Eq (do
    let va ← diskaddr depth b
    flushBlock va) (do
    let _ ← Fs.diskaddr b
    pure ()) :=
  (diskaddr_shows b).bind fun _ _ _ => flushBlock_shows _

theorem flushLoop_shows {body : ℕ → FsM Unit} {size : ℕ} (hf : f % 4 = 0)
    (hbody : ∀ i, Shows Eq (flushSlotWith depth flushBlock f i) (body i)) : ∀ n i {s : Cache}, s.Ready →
      rd32 s.content (fSize f) = size → (flushCount size).toNat ≤ i + n →
      wp (flushLoopWith depth flushBlock f n i) (fun _ t => t.Ready ∧
        forFrom body i ((flushCount size).toNat - i) s.content = .ret () t.content ∧
        (0 < n → Fs.load32 (fSize f) s.content = .ret size s.content)) (fun _ _ => True) s := by
  intro n
  induction n with
  | zero =>
    intro i s hs _ hle
    rw [Nat.sub_eq_zero_of_le (show (flushCount size).toNat ≤ i from hle)]
    exact ⟨hs, rfl, fun h => absurd h (Nat.lt_irrefl 0)⟩
  | succ n ih =>
    intro i s hs hsize hle
    rw [flushLoopWith, wp_bind]
    have hmod : fSize f % 4 = 0 := by
      unfold fSize
      omega
    refine (wp_load32 hs hmod).imp fun r t h => ?_
    rw [wp_when]
    obtain ⟨ht, hcontent, hr, hload⟩ := h
    rw [hsize] at hr
    rw [hr] at hload ⊢
    rw [← hcontent] at hsize hload ⊢
    refine ⟨fun hlt => ?_, fun hge => ⟨ht, ?_, fun _ => hload⟩⟩
    · have hkeep := flushSlotWith_keeps depth (fun _ _ h => h) flushBlock_keeps f i t
      refine wp.bind (((hbody i t ht).and hkeep).mono (fun _ _ h => h) fun _ _ _ => trivial) ?_
      rintro _ u ⟨⟨hu, _, hone, -⟩, hk⟩
      have hsame := (hk ht.coherent).content
      refine (ih (i + 1) hu (hsame ▸ hsize) (by omega)).imp ?_
      rintro _ v ⟨hv, hrest, -⟩
      refine ⟨hv, ?_, fun _ => hload⟩
      obtain ⟨k, hk⟩ : ∃ k, (flushCount size).toNat - i = k + 1 :=
        ⟨(flushCount size).toNat - i - 1, by omega⟩
      rw [hk, forFrom, ret_bind hone]
      rwa [show (flushCount size).toNat - (i + 1) = k by omega] at hrest
    · rw [show (flushCount size).toNat - i = 0 by omega]
      rfl

theorem flushCount_le (size : ℕ) : (flushCount size).toNat ≤ 2 ^ 19 := by
  have hlt : toInt32 (size + blksize - 1) ≤ 2 ^ 31 := by
    unfold toInt32
    omega
  have hle : flushCount size ≤ (2 ^ 31 : ℤ).tdiv blksize := Int.tdiv_le_tdiv (by decide) hlt
  rw [show (2 ^ 31 : ℤ).tdiv blksize = 2 ^ 19 by decide] at hle
  omega

theorem fileFlush_shows (hf : f % 4 = 0) : Shows Eq (fileFlush depth f) (Fs.fileFlush f) := by
  obtain ⟨body, hbody, heq⟩ : ∃ body : ℕ → FsM Unit,
      (∀ i, Shows Eq (flushSlotWith depth flushBlock f i) (body i)) ∧
      Fs.fileFlush f = (do
        let size ← Fs.load32 (fSize f)
        forFrom body 0 (flushCount size).toNat
        let indirect ← Fs.load32 (fIndirect f)
        when (indirect ≠ 0) (do
          let _ ← Fs.diskaddr indirect
          pure ())) := by
    refine ⟨_, fun i => (fileBlockWalk_shows hf i).bind ?_, by rw [Fs.fileFlush]⟩
    rintro slot r ⟨rfl, hmod⟩
    cases r with
    | error r => exact .pure rfl
    | ok a => exact .next (load32_shows (hmod a rfl)) fun b => .when fun _ => flushAt_shows b
  intro s hs
  rw [fileFlush, fileFlushWith, heq]
  refine (flushLoop_shows hf hbody _ _ hs rfl ((flushCount_le _).trans (Nat.le_add_left _ _))).bind ?_
  rintro _ t ⟨ht, hloop, hload⟩
  rw [Nat.sub_zero] at hloop
  rw [ret_bind (hload (by decide)), ret_bind hloop]
  refine Shows.flush (.next (load32_shows ?_) fun b => .when fun _ => flushAt_shows b) t ht
  unfold fIndirect
  omega

end Bc

open Bc in
/-- **The functions of fs/fs.c** that are modelled on the block cache: wherever
they return, they do to the bytes it stands for what the model on bytes does. -/
theorem cache_shows_fs (depth b i : ℕ) {f : ℕ} (hf : f % 4 = 0) :
    Shows Eq (blockIsFree (touch depth) b) (Fs.blockIsFree b) ∧
    Shows Eq (freeBlock depth b) (Fs.freeBlock b) ∧ Shows Eq (allocBlock depth) Fs.allocBlock ∧
    Shows (fun va a => va = (diskmap + a) % 2 ^ 32) (diskaddr depth b) (Fs.diskaddr b) ∧
    Shows SlotIs (fileBlockWalk depth f i) (Fs.fileBlockWalk f i false) ∧
    Shows Eq (fileFlush depth f) (Fs.fileFlush f) :=
  ⟨blockIsFree_shows b, freeBlock_shows b, allocBlock_shows, diskaddr_shows b, fileBlockWalk_shows hf i,
    fileFlush_shows hf⟩

end Jos
