/-
Loading a segment of a program file into a child: `map_segment` of lib/spawn.c
and `readn` of lib/fd.c.

A segment need not start at a page: `map_segment` moves its start down to the
page, with the sizes and the offset in the file, and then goes page by page.  A
page with bytes of the file is filled at `UTEMP` and mapped into the child, the
others are new pages.

* `map_segment_loads` — the child's memory after `map_segment` returned 0.
-/
import Jos.User.InitStack

namespace Jos

open Prog Bytes Function

variable {fileoffset filesz i perm va : ℕ}

/-! ### The program -/

/-- A page of the child. -/
structure ChildPage where
  perm : ℕ
  mem : Mem

/-- The offset of the file descriptor, the page at `UTEMP` and the pages of the
child by their numbers. -/
structure SegSys where
  offset : ℕ
  temp : Option Mem
  child : ℕ → Option ChildPage

/-- What the calls of `map_segment` meet: the contents of the file, at most how
many bytes a `read` at an offset gets (`none` if it fails), and whether `seek` and,
for the page at `i`, `sys_page_alloc` and `sys_page_map` succeed. -/
structure SegWorld where
  file : List UInt8
  reply : ℕ → Option ℕ
  seekOk : Bool
  allocOk : ℕ → Bool
  mapOk : ℕ → Bool

inductive SegStop where
  | panic
  deriving DecidableEq

abbrev SegM := Prog SegStop SegSys

namespace SegWorld

variable (w : SegWorld)

/-- `read(fd, UTEMP + at, n)`: at a negative offset the server finds no block. -/
def read (dst n : ℕ) : SegM ℤ := fun s =>
  if 2 ^ 31 ≤ s.offset then .ret (-eInval) s
  else
    match w.reply s.offset, s.temp with
    | some c, some m =>
      .ret (min (c + 1) (min n (w.file.length - s.offset)) : ℕ)
        { s with
          offset := s.offset + min (c + 1) (min n (w.file.length - s.offset))
          temp := some (fill m dst (min (c + 1) (min n (w.file.length - s.offset))) fun k =>
            w.file.getD (s.offset + k) 0) }
    | _, _ => .ret (-eInval) s

/-- The loop of `readn(fd, UTEMP, n)` with `tot` bytes read and `fuel` rounds to go. -/
def readnFrom (n : ℕ) : ℕ → ℕ → SegM ℤ
  | 0, tot => pure tot
  | fuel + 1, tot =>
    if tot < n then do
      let r ← w.read tot (n - tot)
      if r < 0 then pure r
      else if r = 0 then pure tot
      else readnFrom n fuel (tot + r.toNat)
    else pure tot

/-- `readn(fd, UTEMP, n)`: a read that does not end the loop gets a byte, so that
there are no more than `n` rounds. -/
def readn (n : ℕ) : SegM ℤ := w.readnFrom n n 0

def seek (offset : ℕ) : SegM ℤ := fun s =>
  if w.seekOk then .ret 0 { s with offset := offset % 2 ^ 32 } else .ret (-eInval) s

def allocTemp (i : ℕ) : SegM ℤ := fun s =>
  if w.allocOk i then .ret 0 { s with temp := some fun _ => 0 } else .ret (-eNoMem) s

/-- `sys_page_alloc(child, va + i, perm)`. -/
def allocChild (va i perm : ℕ) : SegM ℤ := fun s =>
  if w.allocOk i then
    .ret 0 { s with child := update s.child ((va + i) / pgsize) (some ⟨perm, fun _ => 0⟩) }
  else .ret (-eNoMem) s

/-- `sys_page_map(0, UTEMP, child, va + i, perm)`. -/
def mapChild (va i perm : ℕ) : SegM ℤ := fun s =>
  match s.temp with
  | some m =>
    if w.mapOk i then
      .ret 0 { s with child := update s.child ((va + i) / pgsize) (some ⟨perm, m⟩) }
    else .ret (-eNoMem) s
  | none => .ret (-eInval) s

/-- A page with bytes of the file. -/
def mapFilePage (va filesz fileoffset perm i : ℕ) : SegM ℤ := do
  let r ← w.allocTemp i
  if r < 0 then pure r
  else do
    let r ← w.seek (fileoffset + i)
    if r < 0 then pure r
    else do
      let r ← w.readn (min pgsize (filesz - i))
      if r < 0 then pure r
      else do
        let r ← w.mapChild va i perm
        when (r < 0) (halt .panic)
        modify fun s => { s with temp := none }
        pure 0

def mapPage (va filesz fileoffset perm i : ℕ) : SegM ℤ :=
  if filesz ≤ i then w.allocChild va i perm else w.mapFilePage va filesz fileoffset perm i

/-- The loop from `i` on, with `fuel` rounds to go. -/
def mapPages (va memsz filesz fileoffset perm : ℕ) : ℕ → ℕ → SegM ℤ
  | 0, _ => pure 0
  | fuel + 1, i =>
    if i < memsz then do
      let r ← w.mapPage va filesz fileoffset perm i
      if r < 0 then pure r else mapPages va memsz filesz fileoffset perm fuel (i + pgsize)
    else pure 0

def mapSegment (va memsz filesz fileoffset perm : ℕ) : SegM ℤ :=
  w.mapPages (va - pgoff va) ((memsz + pgoff va) % 2 ^ 32) ((filesz + pgoff va) % 2 ^ 32)
    (sub32 fileoffset (pgoff va)) perm (((memsz + pgoff va) % 2 ^ 32 + pgsize - 1) / pgsize) 0

end SegWorld

/-! ### `readn` -/

namespace SegWorld

variable {w : SegWorld} {s : SegSys} {m : Mem}

def byte (w : SegWorld) (k : ℕ) : UInt8 := w.file.getD k 0

theorem byte_of_ge {k : ℕ} (h : w.file.length ≤ k) : w.byte k = 0 :=
  List.getD_eq_default _ _ h

/-- Over the page `m₀` the bytes from offset `off` on were stored, up to `n`. -/
def Filled (w : SegWorld) (m₀ m : Mem) (off n : ℕ) : Prop := ∀ o, m o = if o < n then w.byte (off + o) else m₀ o

theorem read_filled {m₀ : Mem} {off tot n : ℕ} (hs : s.temp = some m) (ho : s.offset = off + tot)
    (hf : w.Filled m₀ m off tot) :
    wp (w.read tot (n - tot)) (fun r s' => r < 0 ∨ s.offset < 2 ^ 31 ∧ ∃ c : ℕ, r = c ∧ c ≤ n - tot ∧
      (c = 0 → w.file.length ≤ off + tot ∨ n ≤ tot) ∧ (0 < c → off + tot + c ≤ w.file.length) ∧ s'.offset = off + tot + c ∧ s'.child = s.child ∧
      ∃ m', s'.temp = some m' ∧ w.Filled m₀ m' off (tot + c)) (fun _ _ => False) s := by
  unfold wp read
  by_cases hneg : 2 ^ 31 ≤ s.offset
  · rw [if_pos hneg]
    exact .inl (by decide)
  rw [if_neg hneg, hs]
  cases hr : w.reply s.offset with
  | none => exact .inl (by decide)
  | some c =>
    refine .inr ⟨by omega, _, rfl, by omega, by omega, by omega, by rw [← ho], rfl, _, rfl, fun o => ?_⟩
    rw [fill]
    by_cases ho' : o < tot
    · rw [if_neg (by omega), hf o, if_pos ho', if_pos (by omega)]
    by_cases hin : tot ≤ o ∧ o < tot + min (c + 1) (min (n - tot) (w.file.length - s.offset))
    · rw [if_pos hin, if_pos hin.2, byte, ho, show off + tot + (o - tot) = off + o by omega]
    · rw [if_neg hin, hf o, if_neg ho', if_neg (by omega)]

/-- What `readn` of `n` bytes at offset `off` has done when it returns `r`: it fails,
or it has stored the bytes of the file up to `n` or to the end of the file. -/
def Readn (w : SegWorld) (m₀ : Mem) (off n : ℕ) (s : SegSys) (r : ℤ) (s' : SegSys) : Prop :=
  r < 0 ∨ (0 < n → off < 2 ^ 31) ∧ s'.child = s.child ∧ ∃ c : ℕ, r = c ∧ c ≤ n ∧
    (0 < c → off + c ≤ w.file.length) ∧ (c < n → w.file.length ≤ off + c) ∧ ∃ m', s'.temp = some m' ∧ w.Filled m₀ m' off c

theorem readnFrom_reads {m₀ : Mem} {off n : ℕ} : ∀ (fuel tot : ℕ) {s : SegSys} {m : Mem}, s.temp = some m →
    s.offset = off + tot → w.Filled m₀ m off tot → tot ≤ n → n ≤ tot + fuel →
    (0 < tot → off < 2 ^ 31 ∧ off + tot ≤ w.file.length) →
    wp (w.readnFrom n fuel tot) (w.Readn m₀ off n s) (fun _ _ => False) s := by
  intro fuel
  induction fuel with
  | zero =>
    intro tot s m hs _ hf htot hn hoff
    obtain rfl : tot = n := by omega
    exact .inr ⟨fun h => (hoff h).1, rfl, tot, rfl, htot, fun h => (hoff h).2,
      fun h => absurd h (Nat.lt_irrefl _), m, hs, hf⟩
  | succ fuel ih =>
    intro tot s m hs ho hf htot hn hoff
    rw [readnFrom]
    by_cases hlt : tot < n
    · rw [if_pos hlt]
      refine (read_filled hs ho hf).bind ?_
      rintro r s' (hr | ⟨hoff', c, rfl, hc, hend, hin, ho', hch, m', hm', hf'⟩)
      · rw [if_pos hr]
        exact .inl hr
      rw [if_neg (by omega)]
      cases c with
      | zero =>
        -- the file ends here
        have hzero : ((0 : ℕ) : ℤ) = 0 := rfl
        rw [if_pos hzero]
        exact .inr ⟨fun _ => by omega, hch, tot, rfl, htot, fun h => (hoff h).2, fun _ => by omega, m', hm', hf'⟩
      | succ c =>
        rw [if_neg (by omega), Int.toNat_natCast]
        refine (ih (tot + (c + 1)) hm' (by omega) hf' (by omega) (by omega)
          fun _ => ⟨by omega, by omega⟩).imp ?_
        rintro r s'' (hr | ⟨hoff'', hch', hread⟩)
        · exact .inl hr
        · exact .inr ⟨hoff'', hch'.trans hch, hread⟩
    · obtain rfl : tot = n := by omega
      rw [if_neg hlt]
      exact .inr ⟨fun h => (hoff h).1, rfl, tot, rfl, htot, fun h => (hoff h).2, fun h => absurd h hlt, m, hs, hf⟩

theorem readn_reads (n : ℕ) (hs : s.temp = some m) :
    wp (w.readn n) (w.Readn m s.offset n s) (fun _ _ => False) s :=
  readnFrom_reads n 0 hs rfl (fun _ => rfl) (Nat.zero_le n) (Nat.le_add_left n 0)
    fun h => absurd h (Nat.lt_irrefl 0)

theorem Filled.all {off n c : ℕ} (h : w.Filled (fun _ => 0) m off c) (hc : c ≤ n)
    (hend : c < n → w.file.length ≤ off + c) : w.Filled (fun _ => 0) m off n := by
  intro o
  rw [h o]
  by_cases h1 : o < c
  · rw [if_pos h1, if_pos (by omega)]
  · rw [if_neg h1]
    by_cases h2 : o < n
    · rw [if_pos h2, byte_of_ge (by omega)]
    · rw [if_neg h2]

/-! ### Pages -/

/-- The byte at `k` of a segment that starts at a page. -/
def segByte (w : SegWorld) (filesz fileoffset k : ℕ) : UInt8 :=
  if k < filesz then w.byte (fileoffset + k) else 0

/-- From `s` to `s'` the page at `i` of the segment was loaded, to page `pn` of the child. -/
structure PageLoaded (w : SegWorld) (filesz fileoffset perm i pn : ℕ) (s s' : SegSys) : Prop where
  offset : i < filesz → fileoffset + i < 2 ^ 31
  page : ∃ m, s'.child = update s.child pn (some ⟨perm, m⟩) ∧
    ∀ o < pgsize, m o = w.segByte filesz fileoffset (i + o)
  temp : s'.temp = if filesz ≤ i then s.temp else none

theorem allocChild_loaded (hi : filesz ≤ i) :
    wp (w.allocChild va i perm) (fun r s' => 0 ≤ r →
      r = 0 ∧ w.PageLoaded filesz fileoffset perm i ((va + i) / pgsize) s s') (fun _ _ => True) s := by
  unfold wp allocChild
  by_cases hok : w.allocOk i
  · rw [if_pos hok]
    refine fun _ => ⟨rfl, fun h => absurd h (by omega), ⟨_, rfl, fun o _ => ?_⟩, (if_pos hi).symm⟩
    exact (if_neg (by omega)).symm
  · rw [if_neg hok]
    exact fun h => absurd h (by decide)

theorem wp_allocTemp (i : ℕ) : wp (w.allocTemp i) (fun r s' => 0 ≤ r →
    s'.child = s.child ∧ s'.temp = some fun _ => 0) (fun _ _ => True) s := by
  unfold wp allocTemp
  by_cases hok : w.allocOk i
  · rw [if_pos hok]
    exact fun _ => ⟨rfl, rfl⟩
  · rw [if_neg hok]
    exact fun h => absurd h (by decide)

theorem wp_seek {offset : ℕ} (h : offset < 2 ^ 32) : wp (w.seek offset) (fun r s' => 0 ≤ r →
    s' = { s with offset := offset }) (fun _ _ => True) s := by
  unfold wp seek
  by_cases hok : w.seekOk
  · rw [if_pos hok, Nat.mod_eq_of_lt h]
    exact fun _ => rfl
  · rw [if_neg hok]
    exact fun h => absurd h (by decide)

theorem wp_mapChild (hs : s.temp = some m) : wp (w.mapChild va i perm) (fun r s' => 0 ≤ r →
    s' = { s with child := update s.child ((va + i) / pgsize) (some ⟨perm, m⟩) })
    (fun _ _ => True) s := by
  unfold wp mapChild
  rw [hs]
  dsimp only
  by_cases hok : w.mapOk i
  · rw [if_pos hok]
    exact fun _ => rfl
  · rw [if_neg hok]
    exact fun h => absurd h (by decide)

theorem mapFilePage_loaded (hi : i < filesz) (ho : fileoffset + i < 2 ^ 32) :
    wp (w.mapFilePage va filesz fileoffset perm i) (fun r s' => 0 ≤ r →
      r = 0 ∧ w.PageLoaded filesz fileoffset perm i ((va + i) / pgsize) s s') (fun _ _ => True) s := by
  refine wp_check (wp_allocTemp i) (fun r _ hr _ h => absurd h (by omega)) fun r s₁ hr h₁ => ?_
  obtain ⟨hch₁, ht₁⟩ := h₁ hr
  refine wp_check (wp_seek ho) (fun r _ hr _ h => absurd h (by omega)) fun r s₂ hr h₂ => ?_
  obtain rfl := h₂ hr
  have hread := readn_reads (min pgsize (filesz - i)) (w := w) (s := { s₁ with offset := fileoffset + i }) ht₁
  refine wp_check (hread.mono (fun _ _ h => h) fun _ _ h => h.elim) (fun r _ hr _ h => absurd h (by omega))
    fun r s₃ hr h₃ => ?_
  obtain ⟨hoff, hch₃, c, _, hc, _, hend, m, ht₃, hfill⟩ := h₃.resolve_left (by omega)
  have hm := hfill.all hc hend
  refine (wp_mapChild ht₃).bind ?_
  intro r s₄ h₄
  rw [wp_bind, wp_when]
  refine ⟨fun _ => trivial, fun hr => ?_⟩
  obtain rfl := h₄ (by omega)
  rw [wp_bind, wp_modify, wp_pure]
  refine fun _ => ⟨rfl, fun _ => hoff (by unfold pgsize; omega), ⟨m, ?_, fun o hlt => ?_⟩,
    (if_neg (by omega)).symm⟩
  · show update s₃.child _ _ = _
    rw [hch₃, hch₁]
  · rw [hm o]
    unfold segByte
    by_cases hin : i + o < filesz
    · rw [if_pos hin, if_pos (by omega), Nat.add_assoc]
    · rw [if_neg hin, if_neg (by omega)]

theorem mapPage_loaded (ho : i < filesz → fileoffset + i < 2 ^ 32) :
    wp (w.mapPage va filesz fileoffset perm i) (fun r s' => 0 ≤ r →
      r = 0 ∧ w.PageLoaded filesz fileoffset perm i ((va + i) / pgsize) s s') (fun _ _ => True) s := by
  unfold mapPage
  by_cases hi : filesz ≤ i
  · rw [if_pos hi]
    exact allocChild_loaded hi
  · rw [if_neg hi]
    exact mapFilePage_loaded (by omega) (ho (by omega))

/-- From `s` to `s'` the pages from `c` on were loaded, to the pages of the child
from `vp + c` on. -/
structure Loaded (w : SegWorld) (memsz filesz fileoffset perm vp c : ℕ) (s s' : SegSys) : Prop where
  page : ∀ d, c ≤ d → d * pgsize < memsz → ∃ m, s'.child (vp + d) = some ⟨perm, m⟩ ∧
    ∀ o < pgsize, m o = w.segByte filesz fileoffset (d * pgsize + o)
  other : ∀ pn, pn < vp + c ∨ vp * pgsize + memsz ≤ pn * pgsize → s'.child pn = s.child pn
  temp : s'.temp = if filesz ≤ c * pgsize then s.temp else none

theorem PageLoaded.loaded {memsz vp c : ℕ} {s s₁ s' : SegSys}
    (h₁ : w.PageLoaded filesz fileoffset perm (c * pgsize) (vp + c) s s₁)
    (h : w.Loaded memsz filesz fileoffset perm vp (c + 1) s₁ s') (hc : c * pgsize < memsz) :
    w.Loaded memsz filesz fileoffset perm vp c s s' where
  page d hd hlt := by
    rcases Nat.lt_or_eq_of_le hd with hd | rfl
    · exact h.page d hd hlt
    · obtain ⟨m, hm, hb⟩ := h₁.page
      refine ⟨m, ?_, hb⟩
      rw [h.other _ (.inl (by omega)), hm, update_self]
  other pn hpn := by
    obtain ⟨m, hm, _⟩ := h₁.page
    have hne : pn ≠ vp + c := by
      rintro rfl
      unfold pgsize at *
      omega
    rw [h.other pn (by omega), hm, update_of_ne hne]
  temp := by
    have hle : c * pgsize ≤ (c + 1) * pgsize := Nat.mul_le_mul_right _ (Nat.le_succ c)
    rw [h.temp, h₁.temp]
    by_cases h0 : filesz ≤ c * pgsize
    · rw [if_pos (h0.trans hle), if_pos h0]
    · rw [if_neg h0, ite_self]

theorem mapPages_loaded (memsz filesz fileoffset perm vp : ℕ) (hf : filesz ≤ memsz) :
    ∀ (fuel c : ℕ) {s : SegSys}, memsz ≤ (c + fuel) * pgsize →
    (c * pgsize < filesz → fileoffset + c * pgsize < 2 ^ 31 + pgsize) →
    wp (w.mapPages (vp * pgsize) memsz filesz fileoffset perm fuel (c * pgsize)) (fun r s' => 0 ≤ r →
      w.Loaded memsz filesz fileoffset perm vp c s s') (fun _ _ => True) s := by
  have hdone : ∀ (c : ℕ) (s : SegSys), memsz ≤ c * pgsize → w.Loaded memsz filesz fileoffset perm vp c s s := by
    intro c s hc
    refine ⟨fun d hd hlt => ?_, fun _ _ => rfl, (if_pos (by omega)).symm⟩
    have := Nat.mul_le_mul_right pgsize hd
    omega
  intro fuel
  induction fuel with
  | zero =>
    intro c s hc _ _
    exact hdone c s hc
  | succ fuel ih =>
    intro c s hc ho
    rw [mapPages]
    have hsucc : (c + 1) * pgsize = c * pgsize + pgsize := Nat.succ_mul c pgsize
    have hp : pgsize = 2 ^ 12 := rfl
    by_cases hlt : c * pgsize < memsz
    · rw [if_pos hlt]
      refine wp_check (mapPage_loaded fun h => ?_) (fun r _ hr _ h => absurd h (by omega)) fun r s₁ hr h₁ => ?_
      · have := ho h
        omega
      obtain ⟨_, hpage⟩ := h₁ hr
      rw [← Nat.add_mul, Nat.mul_div_cancel _ (by decide)] at hpage
      rw [← hsucc]
      refine (ih (c + 1) ?_ fun h => ?_).imp ?_
      · rwa [Nat.add_right_comm]
      · have := hpage.offset (by omega)
        omega
      · intro r s' h hr
        exact hpage.loaded (h hr) hlt
    · rw [if_neg hlt]
      exact fun _ => hdone c s (by omega)

end SegWorld

/-! ### The segment -/

theorem mapSegment_loaded {w : SegWorld} {memsz : ℕ} (perm : ℕ) {s : SegSys} (hf : filesz ≤ memsz)
    (hv : va + memsz < utop) (ho : pgoff va ≤ fileoffset) (ho' : fileoffset < 2 ^ 31) :
    wp (w.mapSegment va memsz filesz fileoffset perm) (fun r s' => 0 ≤ r →
      w.Loaded (memsz + pgoff va) (filesz + pgoff va) (fileoffset - pgoff va) perm (va / pgsize) 0 s s')
      (fun _ _ => True) s := by
  have hu : utop = 955 * 2 ^ 22 := rfl
  have hp : pgsize = 2 ^ 12 := rfl
  have hva : va - pgoff va = va / pgsize * pgsize := by
    rw [pgoff_eq, ← Nat.div_mul_self_eq_mod_sub_self]
  have hlt : pgoff va < pgsize := by
    rw [pgoff_eq]
    exact Nat.mod_lt _ (by decide)
  unfold SegWorld.mapSegment
  generalize pgoff va = o at *
  have hsub : sub32 fileoffset o = fileoffset - o := by
    unfold sub32
    omega
  rw [hsub, Nat.mod_eq_of_lt (by omega), Nat.mod_eq_of_lt (by omega), hva]
  have hrun := SegWorld.mapPages_loaded (w := w) (memsz + o) (filesz + o) (fileoffset - o) perm (va / pgsize)
    (by omega) ((memsz + o + pgsize - 1) / pgsize) 0 (s := s) (by unfold pgsize; omega) (by omega)
  rwa [Nat.zero_mul] at hrun

/-- If `map_segment` returns 0, the child has the bytes of the file and then
zeroes, in pages with the given permissions, and its other pages as they were; the
page at `UTEMP`, if one was used, is unmapped. -/
theorem map_segment_loads (w : SegWorld) (va memsz filesz fileoffset perm : ℕ) (s : SegSys)
    (hf : filesz ≤ memsz) (hv : va + memsz < utop) (ho : pgoff va ≤ fileoffset) (ho' : fileoffset < 2 ^ 31) :
    wp (w.mapSegment va memsz filesz fileoffset perm) (fun r s' => r = 0 →
      (∀ k < memsz, ∃ p, s'.child ((va + k) / pgsize) = some p ∧
        p.mem ((va + k) % pgsize) = if k < filesz then w.file.getD (fileoffset + k) 0 else 0) ∧
      (∀ pn, va / pgsize ≤ pn → pn * pgsize < va + memsz → ∃ p, s'.child pn = some p ∧ p.perm = perm) ∧
      (∀ pn, pn < va / pgsize ∨ va + memsz ≤ pn * pgsize → s'.child pn = s.child pn) ∧
      s'.temp = if filesz + pgoff va = 0 then s.temp else none) (fun _ _ => True) s := by
  refine (mapSegment_loaded perm hf hv ho ho').imp ?_
  intro r s' h hr
  obtain ⟨hpage, hother, htemp⟩ := h (Int.le_of_eq hr.symm)
  have hva : va = va / pgsize * pgsize + pgoff va := by rw [pgoff_eq, Nat.div_add_mod']
  generalize pgoff va = o at *
  generalize hvp : va / pgsize = vp at *
  refine ⟨fun k hk => ?_, fun pn hpn hlt => ?_, fun pn hpn => hother pn (by omega), ?_⟩
  · -- the byte is at offset `o + k` of the moved segment
    obtain ⟨m, hm, hb⟩ := hpage ((o + k) / pgsize) (Nat.zero_le _) (by unfold pgsize at *; omega)
    have hpn : (va + k) / pgsize = vp + (o + k) / pgsize := by
      unfold pgsize at *
      omega
    have hmod : (va + k) % pgsize = (o + k) % pgsize := by
      unfold pgsize at *
      omega
    refine ⟨_, hpn ▸ hm, ?_⟩
    show m _ = _
    rw [hmod, hb _ (Nat.mod_lt _ (by decide)), Nat.div_add_mod', SegWorld.segByte, SegWorld.byte]
    by_cases hin : k < filesz
    · rw [if_pos hin, if_pos (by omega), show fileoffset - o + (o + k) = fileoffset + k by omega]
    · rw [if_neg hin, if_neg (by omega)]
  · obtain ⟨d, rfl⟩ : ∃ d, pn = vp + d := ⟨pn - vp, by omega⟩
    obtain ⟨m, hm, _⟩ := hpage d (Nat.zero_le _) (by rw [Nat.add_mul] at hlt; omega)
    exact ⟨_, hm, rfl⟩
  · rw [htemp]
    exact if_congr (by omega) rfl rfl

namespace Demo

/-- A file of 18 bytes, all reads and pages granted. -/
def progFile : SegWorld where
  file := List.replicate 16 7 ++ [1, 2]
  reply _ := some 9
  seekOk := true
  allocOk _ := true
  mapOk _ := true

def noSeg : SegSys := ⟨0, none, fun _ => none⟩

end Demo

open Demo

/-- A segment in the middle of a page, of which the file has two bytes of three. -/
theorem map_segment_loads_short :
    wp (progFile.mapSegment 0x800010 8 3 16 5) (fun r _ => r = 0) (fun _ _ => False) noSeg ∧
    wp (progFile.mapSegment 0x800010 8 3 16 5) (fun r s' => r = 0 →
      (∀ k < 8, ∃ p, s'.child ((0x800010 + k) / pgsize) = some p ∧
        p.mem ((0x800010 + k) % pgsize) = if k < 3 then progFile.file.getD (16 + k) 0 else 0) ∧
      (∀ pn, 0x800010 / pgsize ≤ pn → pn * pgsize < 0x800010 + 8 → ∃ p, s'.child pn = some p ∧ p.perm = 5) ∧
      (∀ pn, pn < 0x800010 / pgsize ∨ 0x800010 + 8 ≤ pn * pgsize → s'.child pn = noSeg.child pn) ∧
      s'.temp = if 3 + pgoff 0x800010 = 0 then noSeg.temp else none) (fun _ _ => True) noSeg :=
  ⟨by decide +kernel, map_segment_loads progFile 0x800010 8 3 16 5 noSeg (by decide) (by decide) (by decide)
    (by decide)⟩

end Jos
