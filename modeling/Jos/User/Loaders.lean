/-
The two loaders: `load_icode` of kern/env.c, for programs in the kernel's own
image, and `map_segment` of lib/spawn.c, for programs in files.

The bytes of the segments are the same.  The bytes beside them, in the first and
the last page of a segment and in the initial stack, are zero or bytes of the file
in a child of `spawn`; `load_icode` leaves them as they were in the physical pages.

* `loaders_agree` — the two address spaces, byte by byte, and the child's stack;
* `slack_keeps_bytes` — otherwise.
-/
import Jos.Kern.Load
import Jos.Kern.Entry
import Jos.User.InitStack
import Jos.User.MapSegment

namespace Jos

open Prog

/-! ### The image -/

/-- A loadable program header, with the permissions `spawn` takes from its flags. -/
structure LoadHeader where
  va : ℕ
  memsz : ℕ
  filesz : ℕ
  offset : ℕ
  perm : ℕ

/-- The segment, of an image that is in memory. -/
def LoadHeader.segment (binary : ℕ → UInt8) (h : LoadHeader) : Segment where
  va := h.va
  memsz := h.memsz
  filesz := h.filesz
  bytes k := (binary (h.offset + k)).toNat

/-- The segments, in the words of `load_icode`. -/
def segments (binary : ℕ → UInt8) (hs : List LoadHeader) : List Segment := hs.map (LoadHeader.segment binary)

/-- The segments of a file, one `map_segment` after the other. -/
def mapSegments (w : ℕ → SegWorld) : List LoadHeader → ℕ → SegM ℤ
  | [], _ => pure 0
  | h :: hs, i => do
    let r ← (w i).mapSegment h.va h.memsz h.filesz h.offset h.perm
    if r < 0 then pure r else mapSegments w hs (i + 1)

/-! ### The child -/

def LoadHeader.Page (h : LoadHeader) (pn : ℕ) : Prop :=
  h.va / pgsize ≤ pn ∧ pn < (h.va + h.memsz + (pgsize - 1)) / pgsize

/-- The byte at `x` in a page of the segment. -/
def LoadHeader.childByte (file : List UInt8) (h : LoadHeader) (x : ℕ) : UInt8 :=
  if x < h.va + h.filesz then file.getD (h.offset + x - h.va) 0 else 0

/-- The child has the pages of the segment. -/
def LoadHeader.InChild (file : List UInt8) (h : LoadHeader) (t : SegSys) : Prop :=
  ∀ pn, h.Page pn → ∃ p, t.child pn = some p ∧ p.perm = h.perm ∧
    ∀ o < pgsize, p.mem o = h.childByte file (pn * pgsize + o)

/-- What the loaders ask of a header: the segment is below `UTOP`, and its bytes are
in the file, at an offset from which its page starts in the file too. -/
structure LoadHeader.Ok (file : List UInt8) (h : LoadHeader) : Prop where
  filesz_le : h.filesz ≤ h.memsz
  fits : h.va + h.memsz ≤ ustacktop - pgsize
  in_file : h.offset + h.filesz ≤ file.length
  aligned : pgoff h.va ≤ h.offset
  offset_lt : h.offset < 2 ^ 31

section Child

variable {file : List UInt8}

theorem mapSegment_inChild {w : SegWorld} {h : LoadHeader} (hw : w.file = file) (ok : h.Ok file) (t : SegSys) :
    wp (w.mapSegment h.va h.memsz h.filesz h.offset h.perm) (fun r t' => 0 ≤ r → h.InChild file t' ∧
      ∀ pn, ¬ h.Page pn → t'.child pn = t.child pn) (fun _ _ => True) t := by
  have htop : ustacktop - pgsize < utop := by decide
  refine (mapSegment_loaded h.perm ok.filesz_le (Nat.lt_of_le_of_lt ok.fits htop) ok.aligned ok.offset_lt).imp ?_
  intro r t' hl hr
  obtain ⟨hpage, hother, _⟩ := hl hr
  have hva : h.va = h.va / pgsize * pgsize + pgoff h.va := by rw [pgoff_eq, Nat.div_add_mod']
  have hle := ok.aligned
  unfold LoadHeader.InChild LoadHeader.Page
  generalize pgoff h.va = o at *
  generalize hvp : h.va / pgsize = vp at *
  constructor
  · rintro pn ⟨h1, h2⟩
    obtain ⟨c, rfl⟩ : ∃ c, pn = vp + c := ⟨pn - vp, by omega⟩
    have hmul : (vp + c) * pgsize = vp * pgsize + c * pgsize := Nat.add_mul _ _ _
    obtain ⟨m, hm, hb⟩ := hpage c (Nat.zero_le c) (by unfold pgsize at *; omega)
    refine ⟨_, hm, rfl, fun x hx => ?_⟩
    show m x = _
    rw [hb x hx, SegWorld.segByte, SegWorld.byte, hw, LoadHeader.childByte]
    by_cases hin : c * pgsize + x < h.filesz + o
    · rw [if_pos hin, if_pos (by omega)]
      congr 1
      omega
    · rw [if_neg hin, if_neg (by omega)]
  · intro pn hpn
    refine hother pn ?_
    unfold pgsize at *
    omega

theorem mapSegments_loaded {w : ℕ → SegWorld} (hw : ∀ i, (w i).file = file) : ∀ (hs : List LoadHeader) (i : ℕ)
    {t : SegSys}, (∀ h ∈ hs, h.Ok file) → (hs.Pairwise fun h h' => ∀ pn, h.Page pn → ¬ h'.Page pn) →
    wp (mapSegments w hs i) (fun r t' => 0 ≤ r → (∀ h ∈ hs, h.InChild file t') ∧
      ∀ pn, (∀ h ∈ hs, ¬ h.Page pn) → t'.child pn = t.child pn) (fun _ _ => True) t := by
  intro hs
  induction hs with
  | nil =>
    intro i t _ _ _
    refine ⟨fun h hh => ?_, fun _ _ => rfl⟩
    cases hh
  | cons h hs ih =>
    intro i t hok hap
    obtain ⟨hfirst, hrest⟩ := List.pairwise_cons.mp hap
    rw [mapSegments]
    refine wp_check (mapSegment_inChild (hw i) (hok h List.mem_cons_self) t)
      (fun r _ hr _ h => absurd h (by omega)) fun r t₁ hr h₁ => ?_
    obtain ⟨hin, hother⟩ := h₁ hr
    refine (ih (i + 1) (fun h' hh' => hok h' (List.mem_cons_of_mem h hh')) hrest).imp ?_
    intro r t' h₂ hr
    obtain ⟨hin', hother'⟩ := h₂ hr
    refine ⟨fun h' hh' => ?_, fun pn hpn => ?_⟩
    · rcases List.mem_cons.mp hh' with rfl | hh'
      · -- the later segments have other pages
        intro pn hpn
        rw [hother' pn fun h'' hh'' => hfirst h'' hh'' pn hpn]
        exact hin pn hpn
      · exact hin' h' hh'
    · rw [hother' pn fun h' hh' => hpn h' (List.mem_cons_of_mem h hh'), hother pn (hpn h List.mem_cons_self)]

theorem LoadHeader.InChild.byte {h : LoadHeader} {t : SegSys} (hin : h.InChild file t) {k : ℕ} (hk : k < h.memsz) :
    ∃ p, t.child ((h.va + k) / pgsize) = some p ∧
      p.mem ((h.va + k) % pgsize) = if k < h.filesz then file.getD (h.offset + k) 0 else 0 := by
  obtain ⟨p, hp, _, hb⟩ := hin ((h.va + k) / pgsize) (by unfold LoadHeader.Page pgsize; omega)
  refine ⟨p, hp, ?_⟩
  rw [hb _ (Nat.mod_lt _ (by decide)), Nat.div_add_mod', LoadHeader.childByte]
  by_cases hlt : k < h.filesz
  · rw [if_pos (by omega), if_pos hlt]
    congr 1
    omega
  · rw [if_neg (by omega), if_neg hlt]

end Child

/-! ### The environment -/

theorem imageByte_of_mem {gs : List Segment} (hg : ∀ g ∈ gs, g.filesz ≤ g.memsz) (hap : PagesApart gs) {g : Segment}
    (hmem : g ∈ gs) {va b : ℕ} (hb : g.byteAt va = some b) : imageByte gs va = some b := by
  induction gs with
  | nil => cases hmem
  | cons g' gs ih =>
    obtain ⟨hfirst, hrest⟩ := List.pairwise_cons.mp hap
    rcases List.mem_cons.mp hmem with rfl | hmem
    · rw [imageByte, hb, Option.some_or]
    · have hpage : g.Page (va / pgsize) :=
        Segment.page_of_byteAt (hg g (List.mem_cons_of_mem _ hmem)) (by rw [hb]; exact Option.some_ne_none b)
      have hno : g'.byteAt va = none := by
        by_contra hne
        exact hfirst g hmem _ (Segment.page_of_byteAt (hg g' List.mem_cons_self) hne) hpage
      rw [imageByte, hno, Option.none_or]
      exact ih (fun g hg' => hg g (List.mem_cons_of_mem _ hg')) hrest hmem

/-- Of an image whose segments share no page, `load_icode` makes an address space
with the bytes of the segments, and beside them what was in a free page, so zeroes if
the free pages are zero; a child of `spawn` that gets all its segments has the same bytes
in them, in the rest of their pages bytes of the file or zeroes, and a stack that does not
depend on what memory held before. -/
theorem loaders_agree (file : List UInt8) (binary : ℕ → UInt8) (hs : List LoadHeader) (entry : UInt32)
    (s : Kern) (e d : ℕ) (free : List ℕ) (hd : (s.envs e).envPgdir = some d)
    (hspace : s.mm.Built d free fun _ => none) (hlen : 2 * (imagePages (segments binary hs) + 1) ≤ free.length)
    (hbinary : ∀ k < file.length, binary k = file.getD k 0) (hok : ∀ h ∈ hs, h.Ok file)
    (hap : hs.Pairwise fun h h' => ∀ pn, h.Page pn → ¬ h'.Page pn) :
    ∃ s', loadIcode e ⟨true, entry, segments binary hs⟩ s = .ret () s' ∧
      (∀ h ∈ hs, ∀ k < h.memsz, s'.mm.byteAt d (h.va + k) =
        if k < h.filesz then (file.getD (h.offset + k) 0).toNat else 0) ∧
      (∀ va < utop, s'.mm.kReads d va → ∃ q ∈ free, s'.mm.byteAt d va =
        (imageByte (segments binary hs) va).getD (s.mm.frameByte q (va % pgsize))) ∧
      ((∀ q ∈ free, s.mm.mem q = fun _ => 0) → ∀ va < utop, s'.mm.kReads d va →
        s'.mm.byteAt d va = (imageByte (segments binary hs) va).getD 0) ∧
      (∀ (w : ℕ → SegWorld) (t : SegSys), (∀ i, (w i).file = file) →
        wp (mapSegments w hs 0) (fun r t' => r = 0 → ∀ h ∈ hs, h.InChild file t' ∧
          ∀ k < h.memsz, ∃ p, t'.child ((h.va + k) / pgsize) = some p ∧
            (p.mem ((h.va + k) % pgsize)).toNat = s'.mm.byteAt d (h.va + k)) (fun _ _ => True) t) ∧
      ∀ (argv : List CStr) (ok ok' : Bool) (t₁ t₂ : StackSys),
        wp (initStack argv ok ok') (fun r t => ∃ t', initStack argv ok ok' t₂ = .ret r t' ∧
          (0 ≤ r → t.child = t'.child)) (fun _ _ => True) t₁ := by
  have htop : ustacktop - pgsize ≤ utop := by decide
  have hfit : ∀ g ∈ segments binary hs, g.va + g.memsz ≤ ustacktop - pgsize ∧ g.filesz ≤ g.memsz := by
    intro g hg
    obtain ⟨h, hh, rfl⟩ := List.mem_map.mp hg
    exact ⟨(hok h hh).fits, (hok h hh).filesz_le⟩
  have hapart : PagesApart (segments binary hs) := List.pairwise_map.mpr hap
  obtain ⟨_, s', hrun, free', pm', hl⟩ := (loadIcode_built ⟨true, entry, segments binary hs⟩ rfl hd
    hspace hfit hapart hlen).exists_ret
  have hbyte : ∀ va < utop, pm' (va / pgsize) ≠ none →
      s'.mm.byteAt d va = (imageByte (segments binary hs) va).getD (s.mm.view pm' va) := by
    intro va hva hpm
    rw [hl.built.byteAt hva hpm, hl.view va hpm]
  have hseg : ∀ h ∈ hs, ∀ k < h.memsz, s'.mm.byteAt d (h.va + k) =
      if k < h.filesz then (file.getD (h.offset + k) 0).toNat else 0 := by
    intro h hh k hk
    have hmem : h.segment binary ∈ segments binary hs := List.mem_map_of_mem hh
    have hpage : (h.segment binary).Page ((h.va + k) / pgsize) := by
      unfold Segment.Page LoadHeader.segment pgsize
      dsimp only
      omega
    have hb : (h.segment binary).byteAt (h.va + k) =
        some (if k < h.filesz then (file.getD (h.offset + k) 0).toNat else 0) := by
      unfold Segment.byteAt LoadHeader.segment
      dsimp only
      by_cases hlt : k < h.filesz
      · have := (hok h hh).in_file
        rw [if_pos (by omega), if_pos hlt, Nat.add_sub_cancel_left, hbinary _ (by omega),
          Nat.mod_eq_of_lt (UInt8.toNat_lt _)]
      · rw [if_neg (by omega), if_pos (by omega), if_neg hlt]
    obtain ⟨q, _, hq⟩ := hl.new _ (.inl ⟨_, hmem, hpage⟩)
    have := (hok h hh).fits
    rw [hbyte _ (by omega) (by rw [hq]; exact Option.some_ne_none q),
      imageByte_of_mem (fun g hg => (hfit g hg).2) hapart hmem hb, Option.getD_some]
  have hslack : ∀ va < utop, s'.mm.kReads d va → ∃ q ∈ free, s'.mm.byteAt d va =
      (imageByte (segments binary hs) va).getD (s.mm.frameByte q (va % pgsize)) := by
    intro va hva hreads
    have hpm : pm' (va / pgsize) ≠ none := by
      intro hnone
      have htrans := hl.built.unmapped hva hnone
      rw [Mm.translate_of_present hreads.1 hreads.2] at htrans
      cases htrans
    -- a byte that was not stored is one of a free page
    obtain ⟨q, hq, hpq⟩ : ∃ q ∈ free, pm' (va / pgsize) = some q := by
      by_contra hno
      exact hpm (hl.old _ fun hp => hno (hl.new _ hp))
    exact ⟨q, hq, by rw [hbyte va hva hpm, Mm.view_of_some hpq]⟩
  refine ⟨s', hrun, hseg, hslack, fun hzero va hva hreads => ?_, fun w t hw => ?_, initStack_child⟩
  · obtain ⟨q, hq, hb⟩ := hslack va hva hreads
    rw [hb, Mm.frameByte, hzero q hq, Nat.zero_div, Nat.zero_mod]
  · refine (mapSegments_loaded hw hs 0 hok hap).imp ?_
    intro r t' ht hr h hh
    have hin := (ht (Int.le_of_eq hr.symm)).1 h hh
    refine ⟨hin, fun k hk => ?_⟩
    obtain ⟨p, hp, hb⟩ := hin.byte hk
    refine ⟨p, hp, ?_⟩
    rw [hb, hseg h hh k hk, apply_ite UInt8.toNat]
    rfl

namespace Demo

/-- An empty address space with directory 1, and four free pages that all hold the
word `w`. -/
def loading (w : ℕ) : Kern where
  mm := {
    npages := 8
    mem := fun p _ => if 3 ≤ p then w else 0
    pages := fun p => { ppRef := 0, ppLink := if 3 ≤ p ∧ p < 6 then some (p + 1) else none }
    pageFreeList := some 3
    kernPgdir := 2 }
  envs := fun _ => { envId := 4096, envStatus := .runnable, envPgdir := some 1 }
  envFreeList := none
  envsEnd := 0
  cpus := fun _ => { cpuStatus := .started, cpuEnv := none, cr3 := 2 }

theorem loading_entry (w i : ℕ) : ¬ present ((loading w).mm.mem 1 i) := not_present_zero

theorem loading_built (w : ℕ) : (loading w).mm.Built 1 [3, 4, 5, 6] fun _ => none where
  tree := by
    refine ⟨(by decide : 8 ≤ 2 ^ 20), fun i _ => (by decide : frame 0 < 8),
      fun i _ j _ _ hp => absurd hp (loading_entry w i), ?_, (by decide : ∀ p ∈ [3, 4, 5, 6], p < 8),
      fun _ _ => rfl, by decide, fun i _ hp => absurd hp (loading_entry w i)⟩
    exact .cons (.cons (.cons (.cons .nil)))
  low i _ hp := absurd hp (loading_entry w i)
  entry va _ := by
    rw [Mm.translate_of_absent (loading_entry w (pdx va))]
    rfl
  page_lt h := nomatch h
  page_free h := nomatch h
  page_apart h := nomatch h
  inj h := nomatch h

/-- A segment in the middle of a page, with two bytes of the file. -/
def loadHeader : LoadHeader := ⟨0x800010, 8, 2, 16, 5⟩

end Demo

open Demo

theorem loaders_agree_short : (∀ q ∈ [3, 4, 5, 6], (loading 0).mm.mem q = fun _ => 0) ∧
    ∃ s', loadIcode 0 ⟨true, 0, segments (fun k => progFile.file.getD k 0) [loadHeader]⟩ (loading 0) = .ret () s' ∧
      (∀ h ∈ [loadHeader], ∀ k < h.memsz, s'.mm.byteAt 1 (h.va + k) =
        if k < h.filesz then (progFile.file.getD (h.offset + k) 0).toNat else 0) ∧
      (∀ va < utop, s'.mm.kReads 1 va →
        s'.mm.byteAt 1 va = (imageByte (segments (fun k => progFile.file.getD k 0) [loadHeader]) va).getD 0) ∧
      ∀ (w : ℕ → SegWorld) (t : SegSys), (∀ i, (w i).file = progFile.file) →
        wp (mapSegments w [loadHeader] 0) (fun r t' => r = 0 → ∀ h ∈ [loadHeader], h.InChild progFile.file t' ∧
          ∀ k < h.memsz, ∃ p, t'.child ((h.va + k) / pgsize) = some p ∧
            (p.mem ((h.va + k) % pgsize)).toNat = s'.mm.byteAt 1 (h.va + k)) (fun _ _ => True) t := by
  have hzero : ∀ q ∈ [3, 4, 5, 6], (loading 0).mm.mem q = fun _ => 0 := fun _ _ => funext fun _ => ite_self 0
  have hok : ∀ h ∈ [loadHeader], h.Ok progFile.file := by
    intro h hh
    obtain rfl := List.mem_singleton.mp hh
    exact ⟨by decide, by decide, by decide, by decide, by decide⟩
  obtain ⟨s', hrun, hseg, -, hbyte, hchild, -⟩ := loaders_agree progFile.file (fun k => progFile.file.getD k 0)
    [loadHeader] 0 (loading 0) 0 1 [3, 4, 5, 6] rfl (loading_built 0) (by decide) (fun _ _ => rfl) hok
    (List.pairwise_singleton _ _)
  exact ⟨hzero, s', hrun, hseg, hbyte hzero, hchild⟩

/-- A program without segments: its stack holds what the free page held. -/
theorem slack_keeps_bytes :
    wp (loadIcode 0 ⟨true, 0, []⟩) (fun _ s' => s'.mm.byteAt 1 (ustacktop - pgsize) = 0) (fun _ _ => False)
      (loading 0) ∧
    wp (loadIcode 0 ⟨true, 0, []⟩) (fun _ s' => s'.mm.byteAt 1 (ustacktop - pgsize) = 7) (fun _ _ => False)
      (loading 7) :=
  ⟨by decide +kernel, by decide +kernel⟩

end Jos
