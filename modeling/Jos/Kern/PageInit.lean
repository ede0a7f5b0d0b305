/-
Memory before the page allocator: `boot_alloc` and `page_init`.

`boot_alloc` moves a pointer up from the end of the kernel image; a null
pointer stands for "not called yet", so memory handed out up to address
`2 ^ 32` would start it over.  `page_init` sorts the pages by five range tests
with a catch-all at the end, which also catches what lies between the end of
base memory and the I/O hole.

* `page_init_free_list` — both together: what is free after start-up;
* `page_init_frees_ebda` — a machine with 639K of base memory.
-/
import Jos.Lib.Linked
import Jos.Kern.PageOps
import Mathlib.Data.List.Basic

namespace Jos

open Prog Demo

variable {b : BootMm} {n top : ℕ}

def iophysmem : ℕ := 0x0a0000
def extphysmem : ℕ := 0x100000
def mpentryPaddr : ℕ := 0x7000

/-- What `mem_init` works on: the linker's symbol `end`, the static pointer of
`boot_alloc` (0 before the first call), and the size of base memory in pages. -/
structure BootMm where
  kernEnd : ℕ
  nextfree : ℕ := 0
  npagesBasemem : ℕ
  mm : Mm

/-- Programs that run before the page allocator works. -/
abbrev BootM := Prog Stop BootMm

def bootAlloc (n : ℕ) : BootM ℕ := do
  let b ← get
  when (b.nextfree = 0) (modify ({ · with nextfree := roundup b.kernEnd pgsize }))
  let b ← get
  let result := b.nextfree
  if n ≠ 0 then do
    modify ({ · with nextfree := roundup ((b.nextfree + n) % 2 ^ 32) pgsize })
    pure result
  else pure result

def paddr (kva : ℕ) : BootM ℕ :=
  if kva < kernbase then halt (.panic "PADDR called with invalid kva") else pure (kva - kernbase)

/-- The body of the loop of `page_init`.  `free_mem` is an `int` in C, but
`PADDR` is below `2 ^ 28`. -/
def Mm.initPage (m : Mm) (npagesBasemem freeMem i : ℕ) : Mm :=
  if i = pgnum mpentryPaddr then m.updPage i ({ · with ppLink := none })
  else if i < npagesBasemem then (m.updPage i ({ · with ppRef := 0 })).pushFree i
  else if i ≥ iophysmem / pgsize ∧ i < extphysmem / pgsize then
    m.updPage i ({ · with ppLink := none })
  else if i ≥ extphysmem / pgsize ∧ i < freeMem / pgsize then
    m.updPage i fun _ => { ppRef := 1, ppLink := none }
  else (m.updPage i ({ · with ppRef := 0 })).pushFree i

def pageInit : BootM Unit := do
  modify fun b => { b with mm := b.mm.updPage 0 ({ · with ppRef := 1 }) }
  let kva ← bootAlloc 0
  let freeMem ← paddr kva
  let b ← get
  forFrom (fun i => modify fun b => { b with mm := b.mm.initPage b.npagesBasemem freeMem i })
    1 (b.mm.npages - 1)

/-- A sequence of `boot_alloc` calls, with what they return. -/
def bootAllocs : List ℕ → BootM (List ℕ)
  | [] => pure []
  | n :: ns => do
    let a ← bootAlloc n
    let as ← bootAllocs ns
    pure (a :: as)

/-! ### `boot_alloc` -/

/-- `n` rounded up to whole pages, without the wrap. -/
def pageCeil (n : ℕ) : ℕ := (n + 4095) / 4096 * 4096

theorem le_pageCeil (n : ℕ) : n ≤ pageCeil n := by
  unfold pageCeil
  omega

theorem pageCeil_mod (n : ℕ) : pageCeil n % pgsize = 0 := Nat.mul_mod_left _ _

theorem roundup_eq (h : pageCeil n < 2 ^ 32) : roundup n pgsize = pageCeil n := by
  unfold pageCeil at *
  rw [roundup, rounddown, pgsize]
  omega

namespace BootMm

/-- The next address `boot_alloc` hands out. -/
def cursor (b : BootMm) : ℕ := if b.nextfree = 0 then roundup b.kernEnd pgsize else b.nextfree

/-- `mem_init` so far: no call of `boot_alloc`, a cleared `pages` array. -/
structure Fresh (b : BootMm) : Prop where
  nextfree : b.nextfree = 0
  pages : ∀ p, b.mm.pages p = {}
  pageFreeList : b.mm.pageFreeList = none

/-- The end of the memory `boot_alloc` hands out for these requests. -/
def bootEnd (b : BootMm) (ns : List ℕ) : ℕ := pageCeil b.kernEnd + (ns.map pageCeil).sum

end BootMm

theorem bootAlloc_start (b : BootMm) (n : ℕ) : bootAlloc n b =
    if n ≠ 0 then
      .ret b.cursor { b with nextfree := roundup ((b.cursor + n) % 2 ^ 32) pgsize }
    else .ret b.cursor { b with nextfree := b.cursor } := by
  have hinit : (when (b.nextfree = 0)
      (modify ({ · with nextfree := roundup b.kernEnd pgsize })) : BootM Unit) b =
      .ret () { b with nextfree := b.cursor } := by
    rw [when, BootMm.cursor]
    by_cases h : b.nextfree = 0
    · rw [if_pos h, if_pos h]
      rfl
    · rw [if_neg h, if_neg h]
      rfl
  rw [bootAlloc, get_bind, ret_bind hinit, get_bind]
  by_cases hn : n ≠ 0
  · rw [if_pos hn, if_pos hn]
    rfl
  · rw [if_neg hn, if_neg hn]
    rfl

theorem bootAlloc_eq (hal : b.cursor % pgsize = 0) (hfit : b.cursor + pageCeil n < 2 ^ 32) :
    bootAlloc n b = .ret b.cursor { b with nextfree := b.cursor + pageCeil n } := by
  rw [bootAlloc_start]
  have hle := le_pageCeil n
  by_cases hn : n = 0
  · subst hn
    rfl
  · have hsum : pageCeil (b.cursor + n) = b.cursor + pageCeil n := by
      rw [pgsize] at hal
      unfold pageCeil at *
      omega
    rw [if_pos hn, Nat.mod_eq_of_lt (by omega), roundup_eq (by omega), hsum]

/-- Consecutive regions from `lo` up to `top`, one for each request. -/
structure Reserved (lo top : ℕ) (ns as : List ℕ) : Prop where
  length : as.length = ns.length
  aligned : ∀ a ∈ as, a % pgsize = 0
  disjoint : (as.zip ns).Pairwise fun r r' => r.1 + pageCeil r.2 ≤ r'.1
  inside : ∀ r ∈ as.zip ns, lo ≤ r.1 ∧ r.1 + pageCeil r.2 ≤ top

theorem Reserved.cons {lo : ℕ} {ns as : List ℕ} (h : Reserved (lo + pageCeil n) top ns as)
    (hal : lo % pgsize = 0) (hle : lo + pageCeil n ≤ top) :
    Reserved lo top (n :: ns) (lo :: as) where
  length := by simp [h.length]
  aligned := List.forall_mem_cons.mpr ⟨hal, h.aligned⟩
  disjoint := by
    rw [List.zip_cons_cons, List.pairwise_cons]
    exact ⟨fun r hr => (h.inside r hr).1, h.disjoint⟩
  inside := by
    rw [List.zip_cons_cons]
    refine List.forall_mem_cons.mpr ⟨⟨Nat.le_refl _, hle⟩, fun r hr => ?_⟩
    have hin := h.inside r hr
    omega

theorem Reserved.mono {lo top' : ℕ} {ns as : List ℕ} (h : Reserved lo top ns as) (hle : top ≤ top') :
    Reserved lo top' ns as :=
  ⟨h.length, h.aligned, h.disjoint, fun r hr =>
    ⟨(h.inside r hr).1, Nat.le_trans (h.inside r hr).2 hle⟩⟩

theorem bootAllocs_eq : ∀ (ns : List ℕ) (b : BootMm), 0 < b.cursor → b.cursor % pgsize = 0 →
    b.cursor + (ns.map pageCeil).sum < 2 ^ 32 →
    ∃ as b', bootAllocs ns b = .ret as b' ∧ b'.cursor = b.cursor + (ns.map pageCeil).sum ∧
      b'.mm = b.mm ∧ b'.npagesBasemem = b.npagesBasemem ∧
      Reserved b.cursor b'.cursor ns as := by
  intro ns
  induction ns with
  | nil =>
    intro b _ _ _
    exact ⟨[], b, rfl, rfl, rfl, rfl, rfl, by simp, by simp, by simp⟩
  | cons n ns ih =>
    intro b hpos hal hfit
    rw [List.map_cons, List.sum_cons] at hfit ⊢
    have hcur : BootMm.cursor { b with nextfree := b.cursor + pageCeil n } =
        b.cursor + pageCeil n := if_neg (Nat.ne_of_gt (Nat.add_pos_left hpos _))
    obtain ⟨as, b', hrun, hend, hmm, hbase, hres⟩ :=
      ih (b := { b with nextfree := b.cursor + pageCeil n }) (by rw [hcur]; omega)
        (by rw [hcur, Nat.add_mod, hal, pageCeil_mod]; rfl) (by rw [hcur]; omega)
    rw [hcur] at hend hres
    refine ⟨b.cursor :: as, b', ?_, by omega, hmm, hbase, ?_⟩
    · rw [bootAllocs, ret_bind (bootAlloc_eq hal (by omega)), ret_bind hrun]
      rfl
    · exact hres.cons hal (by omega)

/-! ### `page_init` -/

def pageFreed (npagesBasemem freeMem i : ℕ) : Prop :=
  i ≠ 0 ∧ i ≠ pgnum mpentryPaddr ∧ (i < npagesBasemem ∨
    ¬ (i ≥ iophysmem / pgsize ∧ i < extphysmem / pgsize) ∧
    ¬ (i ≥ extphysmem / pgsize ∧ i < freeMem / pgsize))
  deriving Decidable

/-- The free list after the pages below `n`: the last one first. -/
def freePages (base freeMem n : ℕ) : List ℕ :=
  ((List.range n).filter fun i => pageFreed base freeMem i).reverse

section

variable {base freeMem k : ℕ} {m : Mm}

theorem mem_freePages {i : ℕ} : i ∈ freePages base freeMem n ↔ i < n ∧ pageFreed base freeMem i := by
  simp [freePages]

theorem freePages_succ : freePages base freeMem (k + 1) =
    if pageFreed base freeMem k then k :: freePages base freeMem k
    else freePages base freeMem k := by
  rw [freePages, List.range_succ, List.filter_append, List.reverse_append, freePages]
  by_cases h : pageFreed base freeMem k <;> simp [h]

theorem freePages_one : freePages base freeMem 1 = [] := by
  rw [freePages_succ, if_neg fun h => h.1 rfl]
  rfl

theorem Mm.pushFree_link (m : Mm) (p : ℕ) : (fun q => ((m.pushFree p).pages q).ppLink) =
    Function.update (fun q => (m.pages q).ppLink) p m.pageFreeList :=
  m.updPage_link p ({ · with ppLink := m.pageFreeList })

theorem Mm.initPage_freed (h : pageFreed base freeMem k) :
    m.initPage base freeMem k = (m.updPage k ({ · with ppRef := 0 })).pushFree k := by
  obtain ⟨-, hmp, hrange⟩ := h
  rw [initPage, if_neg hmp]
  by_cases hbase : k < base
  · rw [if_pos hbase]
  · obtain ⟨hhole, hused⟩ := hrange.resolve_left hbase
    rw [if_neg hbase, if_neg hhole, if_neg hused]

theorem Mm.initPage_used (hk : k ≠ 0) (h : ¬ pageFreed base freeMem k) :
    ∃ f, m.initPage base freeMem k = m.updPage k f := by
  rw [initPage]
  by_cases hmp : k = pgnum mpentryPaddr
  · exact ⟨_, if_pos hmp⟩
  · rw [if_neg hmp, if_neg fun hbase => h ⟨hk, hmp, .inl hbase⟩]
    by_cases hhole : k ≥ iophysmem / pgsize ∧ k < extphysmem / pgsize
    · exact ⟨_, if_pos hhole⟩
    · rw [if_neg hhole, if_pos]
      · exact ⟨_, rfl⟩
      · by_contra hused
        exact h ⟨hk, hmp, .inr ⟨hhole, hused⟩⟩

/-- The free list is `free`, and nothing refers to its pages. -/
structure Mm.FreeIs (m : Mm) (free : List ℕ) : Prop where
  linked : Linked (fun p => (m.pages p).ppLink) m.pageFreeList free
  unused : ∀ p ∈ free, (m.pages p).ppRef = 0

theorem Mm.FreeIs.empty (h : m.pageFreeList = none) : (m.updPage 0 ({ · with ppRef := 1 })).FreeIs [] where
  linked := by
    show Linked _ m.pageFreeList []
    rw [h]
    exact .nil
  unused := by simp

theorem Mm.FreeIs.updPage {free : List ℕ} (h : m.FreeIs free) (hk : k ∉ free)
    (f : PageInfo → PageInfo) : (m.updPage k f).FreeIs free where
  linked := by
    rw [updPage_link]
    exact h.linked.update hk _
  unused p hp := by
    rw [updPage_other m f (ne_of_mem_of_not_mem hp hk)]
    exact h.unused p hp

theorem Mm.FreeIs.pushFree {free : List ℕ} (h : m.FreeIs free) (hk : k ∉ free)
    (h0 : (m.pages k).ppRef = 0) : (m.pushFree k).FreeIs (k :: free) where
  linked := by
    rw [pushFree_link]
    exact h.linked.push hk
  unused := by
    refine List.forall_mem_cons.mpr ⟨?_, fun p hp => ?_⟩
    · simpa [Mm.pushFree, Mm.updPage] using h0
    · exact (h.updPage hk ({ · with ppLink := m.pageFreeList })).unused p hp

theorem Mm.FreeIs.initPage (h : m.FreeIs (freePages base freeMem k)) (hk : k ≠ 0) :
    (m.initPage base freeMem k).FreeIs (freePages base freeMem (k + 1)) := by
  have hnew : k ∉ freePages base freeMem k := fun hmem =>
    Nat.lt_irrefl k (mem_freePages.mp hmem).1
  rw [freePages_succ]
  by_cases hfree : pageFreed base freeMem k
  · rw [if_pos hfree, initPage_freed hfree]
    exact (h.updPage hnew _).pushFree hnew (by simp [Mm.updPage])
  · obtain ⟨f, hf⟩ := initPage_used (m := m) hk hfree
    rw [if_neg hfree, hf]
    exact h.updPage hnew f

theorem Mm.initPage_npages : (m.initPage base freeMem k).npages = m.npages := by
  unfold initPage
  split_ifs <;> rfl

end

theorem wp_pageInit (hl : b.mm.pageFreeList = none) :
    wp pageInit (fun _ b' => b'.mm.npages = b.mm.npages ∧
      b'.mm.FreeIs (freePages b.npagesBasemem (b.cursor - kernbase) b.mm.npages))
      (fun _ _ => b.cursor < kernbase) b := by
  have hcall : bootAlloc 0 { b with mm := b.mm.updPage 0 ({ · with ppRef := 1 }) } = .ret b.cursor
      { b with nextfree := b.cursor, mm := b.mm.updPage 0 ({ · with ppRef := 1 }) } :=
    bootAlloc_start _ 0
  rw [pageInit, wp_bind, wp_modify, wp_bind_of_ret hcall, wp_bind, paddr, wp_ite]
  refine ⟨fun hbad => hbad, fun hok => ?_⟩
  rw [wp_pure, wp_bind, wp_get]
  -- before round `k` the list holds the freed pages below `k`
  refine wp.mono (wp_forFrom (fun k b' => b'.npagesBasemem = b.npagesBasemem ∧
      b'.mm.npages = b.mm.npages ∧
      b'.mm.FreeIs (freePages b.npagesBasemem (b.cursor - kernbase) k)) ?_ ?_)
    (fun _ b' hb' => ?_) fun _ _ hR => hR
  · refine ⟨rfl, rfl, ?_⟩
    rw [freePages_one]
    exact .empty hl
  · rintro k b' hk - ⟨hbase, hn, hlist⟩
    refine ⟨hbase, Mm.initPage_npages.trans hn, ?_⟩
    rw [← hbase] at hlist ⊢
    exact hlist.initPage (by omega)
  · obtain ⟨-, hn, hlist⟩ := hb'
    change Mm.FreeIs _ (freePages _ _ (1 + (b.mm.npages - 1))) at hlist
    refine ⟨hn, ?_⟩
    rcases Nat.eq_zero_or_pos b.mm.npages with h0 | hpos
    · rw [h0, freePages_one] at hlist
      rw [h0]
      exact hlist
    · rwa [show 1 + (b.mm.npages - 1) = b.mm.npages by omega] at hlist

theorem pageInit_returns (hl : b.mm.pageFreeList = none) (hk : kernbase ≤ b.cursor) :
    ∃ b', pageInit b = .ret () b' ∧
      b'.mm.FreeIs (freePages b.npagesBasemem (b.cursor - kernbase) b.mm.npages) := by
  obtain ⟨_, b', hrun, -, hfree⟩ := ((wp_pageInit hl).mono (fun _ _ h => h)
    fun _ _ hbad => Nat.not_lt.mpr hk hbad).exists_ret
  exact ⟨b', hrun, hfree⟩

/-! ### Free memory after start-up -/

namespace BootMm

variable {b : BootMm} {ns : List ℕ}

theorem le_bootEnd (b : BootMm) (ns : List ℕ) : b.kernEnd ≤ b.bootEnd ns :=
  Nat.le_trans (le_pageCeil _) (Nat.le_add_right _ _)

theorem bootEnd_mod (b : BootMm) (ns : List ℕ) : b.bootEnd ns % pgsize = 0 := by
  have hsum : ∀ l : List ℕ, (l.map pageCeil).sum % pgsize = 0 := by
    intro l
    induction l with
    | nil => rfl
    | cons n l ih => rw [List.map_cons, List.sum_cons, Nat.add_mod, pageCeil_mod, ih]; rfl
  rw [bootEnd, Nat.add_mod, pageCeil_mod, hsum]
  rfl

theorem Fresh.cursor_eq (h : b.Fresh) (hfit : b.bootEnd ns < 2 ^ 32) :
    b.cursor = pageCeil b.kernEnd := by
  rw [cursor, if_pos h.nextfree, roundup_eq]
  exact Nat.lt_of_le_of_lt (Nat.le_add_right _ _) hfit

/-- No page lies between the end of base memory and the I/O hole, the page of
the AP entry code apart. -/
def NoGap (b : BootMm) : Prop :=
  ∀ i, b.npagesBasemem ≤ i → i < iophysmem / pgsize → i < b.mm.npages →
    i = 0 ∨ i = pgnum mpentryPaddr

end BootMm

/-- The specification of `page_init`: base memory without its first page and
the AP entry page, and everything from address `top` on. -/
def FreeAfterBoot (npagesBasemem top i : ℕ) : Prop :=
  (1 ≤ i ∧ i < npagesBasemem ∧ i ≠ pgnum mpentryPaddr) ∨ top ≤ kernbase + i * pgsize

theorem pageFreed_iff {base i : ℕ} (hlo : kernbase + extphysmem ≤ top) (hal : top % pgsize = 0) :
    pageFreed base (top - kernbase) i ↔ FreeAfterBoot base top i ∨
      (base ≤ i ∧ i < iophysmem / pgsize ∧ ¬ (i = 0 ∨ i = pgnum mpentryPaddr)) := by
  have hio : iophysmem / pgsize = 160 := rfl
  have hext : extphysmem / pgsize = 256 := rfl
  have hmp : pgnum mpentryPaddr = 7 := rfl
  have hkb : kernbase = 0xf0000 * 4096 := rfl
  have hex : extphysmem = 256 * 4096 := rfl
  unfold pageFreed FreeAfterBoot
  rw [hio, hext, hmp]
  rw [pgsize] at *
  constructor
  · rintro ⟨h0, h7, hlow | ⟨hhole, hused⟩⟩
    · exact .inl (.inl ⟨by omega, hlow, h7⟩)
    · -- the catch-all sees the gap and extended memory
      omega
  · rintro ((⟨h1, hlow, h7⟩ | hhigh) | hgap)
    · exact ⟨by omega, h7, .inl hlow⟩
    · exact ⟨by omega, by omega, .inr ⟨by omega, by omega⟩⟩
    · exact ⟨by omega, by omega, .inr ⟨by omega, by omega⟩⟩

/-- `mem_init` up to the page allocator. -/
def bootPages (ns : List ℕ) : BootM (List ℕ) := do
  let as ← bootAllocs ns
  pageInit
  pure as

theorem bootPages_eq (b : BootMm) (ns : List ℕ) (hfresh : b.Fresh)
    (hlink : kernbase + extphysmem ≤ b.kernEnd) (hfit : b.bootEnd ns < 2 ^ 32) :
    ∃ as b', bootPages ns b = .ret as b' ∧
      Reserved (pageCeil b.kernEnd) (b.bootEnd ns) ns as ∧
      b'.mm.FreeIs (freePages b.npagesBasemem (b.bootEnd ns - kernbase) b.mm.npages) := by
  have hcur := hfresh.cursor_eq hfit
  have hpos : 0 < pageCeil b.kernEnd :=
    Nat.lt_of_lt_of_le (by decide) (Nat.le_trans hlink (le_pageCeil _))
  obtain ⟨as, b₁, hrun, hend, hmm, hbm, hres⟩ := bootAllocs_eq ns b
    (by rwa [hcur]) (by rw [hcur]; exact pageCeil_mod _) (by rw [hcur]; exact hfit)
  have htop : b₁.cursor = b.bootEnd ns := by rw [hend, hcur, BootMm.bootEnd]
  have hkva : kernbase ≤ b₁.cursor := by
    rw [htop]
    exact Nat.le_trans (Nat.le_of_add_right_le hlink) (b.le_bootEnd ns)
  obtain ⟨b', hb', hlist⟩ := pageInit_returns (by rw [hmm]; exact hfresh.pageFreeList) hkva
  rw [htop, hmm, hbm] at hlist
  refine ⟨as, b', ?_, ?_, hlist⟩
  · rw [bootPages, ret_bind hrun, ret_bind hb']
    rfl
  · rw [← hcur, ← htop]
    exact hres

/-- Page `i` is not one of those that must never be handed out: page 0, the I/O
hole, the rest of base memory, and the regions `boot_alloc` returned. -/
structure Usable (npagesBasemem : ℕ) (ns as : List ℕ) (i : ℕ) : Prop where
  page0 : i ≠ 0
  hole : ¬ (iophysmem ≤ i * pgsize ∧ i * pgsize < extphysmem)
  base : ¬ (npagesBasemem ≤ i ∧ i * pgsize < iophysmem)
  regions : ∀ r ∈ as.zip ns, kernbase + i * pgsize + pgsize ≤ r.1 ∨
    r.1 + pageCeil r.2 ≤ kernbase + i * pgsize

theorem FreeAfterBoot.usable {base lo i : ℕ} {ns as : List ℕ} (h : FreeAfterBoot base top i)
    (hbase : base ≤ iophysmem / pgsize) (hlo : kernbase + extphysmem ≤ lo) (hle : lo ≤ top)
    (hres : Reserved lo top ns as) : Usable base ns as i := by
  have hio : iophysmem = 160 * 4096 := rfl
  have hext : extphysmem = 256 * 4096 := rfl
  rw [hio, pgsize] at hbase
  unfold FreeAfterBoot at h
  rw [pgsize] at h
  constructor
  · omega
  · rw [hio, hext, pgsize]
    omega
  · rw [hio, pgsize]
    omega
  · intro r hr
    obtain ⟨hl, ht⟩ := hres.inside r hr
    rw [pgsize]
    omega

/-- **Free memory after start-up.**  `boot_alloc` hands out disjoint regions,
and the free list then holds base memory and what lies above the regions,
exactly when there is no gap below the I/O hole. -/
theorem page_init_free_list (b : BootMm) (ns : List ℕ) (hfresh : b.Fresh)
    (hbase : b.npagesBasemem ≤ iophysmem / pgsize) (hlink : kernbase + extphysmem ≤ b.kernEnd)
    (hfit : b.bootEnd ns < 2 ^ 32) :
    b.NoGap ↔ ∃ as b', bootPages ns b = .ret as b' ∧
      Reserved (pageCeil b.kernEnd) (b.bootEnd ns) ns as ∧
      ∃ free, Linked (fun p => (b'.mm.pages p).ppLink) b'.mm.pageFreeList free ∧ free.Nodup ∧
        (∀ i, i ∈ free ↔ i < b.mm.npages ∧ FreeAfterBoot b.npagesBasemem (b.bootEnd ns) i) ∧
        ∀ i ∈ free, Usable b.npagesBasemem ns as i := by
  obtain ⟨as, b', hrun, hres, hlist⟩ := bootPages_eq b ns hfresh hlink hfit
  have hlo := Nat.le_trans hlink (b.le_bootEnd ns)
  have hfreed := fun i => @pageFreed_iff _ b.npagesBasemem i hlo (b.bootEnd_mod ns)
  constructor
  · intro hgap
    have hmem : ∀ i, i ∈ freePages b.npagesBasemem (b.bootEnd ns - kernbase) b.mm.npages ↔
        i < b.mm.npages ∧ FreeAfterBoot b.npagesBasemem (b.bootEnd ns) i := by
      intro i
      rw [mem_freePages, hfreed]
      exact and_congr_right fun hi => or_iff_left fun hbad => hbad.2.2 (hgap i hbad.1 hbad.2.1 hi)
    refine ⟨as, b', hrun, hres, _, hlist.linked, hlist.linked.nodup, hmem, fun i hi => ?_⟩
    exact ((hmem i).mp hi).2.usable hbase (Nat.le_trans hlink (le_pageCeil _))
      (Nat.le_add_right _ _) hres
  · rintro ⟨as', b'', hrun', -, free, hlinked, -, -, husable⟩ i hlo' hhi hi
    rw [hrun] at hrun'
    cases hrun'
    -- a page of the gap is on the list
    by_contra hno
    have hfree : i ∈ free := by
      rw [hlinked.unique hlist.linked, mem_freePages, hfreed]
      exact ⟨hi, .inr ⟨hlo', hhi, hno⟩⟩
    refine (husable i hfree).base ⟨hlo', ?_⟩
    have hio : iophysmem = iophysmem / pgsize * pgsize := rfl
    rw [hio]
    exact Nat.mul_lt_mul_of_pos_right hhi (by decide)

/-- 16M of memory, with `base` pages of base memory; the kernel ends 128K above
its load address. -/
def Demo.pc (base : ℕ) : BootMm where
  kernEnd := kernbase + extphysmem + 0x20000
  npagesBasemem := base
  mm := { npages := 4096, mem := fun _ _ => 0, pages := fun _ => {}, pageFreeList := none
          kernPgdir := 0 }

/-- The requests of `mem_init`: a page directory, `pages` and `envs`. -/
def Demo.requests : List ℕ := [pgsize, 4096 * 8, nenv * 124]

theorem Demo.pc_fresh (base : ℕ) : (pc base).Fresh := ⟨rfl, fun _ => rfl, rfl⟩

theorem page_init_free_list_pc : ∃ as b', bootPages requests (pc 160) = .ret as b' ∧
    ∃ free, Linked (fun p => (b'.mm.pages p).ppLink) b'.mm.pageFreeList free ∧
      159 ∈ free ∧ 160 ∉ free := by
  obtain ⟨as, b', hrun, -, free, hlist, -, hmem, -⟩ := (page_init_free_list (pc 160)
    requests (pc_fresh 160) (by decide) (by decide) (by decide)).mp
    fun i hi hi' _ => absurd hi (Nat.not_le.mpr hi')
  refine ⟨as, b', hrun, free, hlist, (hmem 159).mpr ⟨by decide, ?_⟩, fun h => ?_⟩
  · exact .inl (by decide)
  · rcases ((hmem 160).mp h).2 with hlow | hhigh
    · exact absurd hlow (by decide)
    · exact absurd hhigh (by decide)

/-- With 639K of base memory the page of the extended BIOS data area, which is
not memory the kernel may use, is free after start-up. -/
theorem page_init_frees_ebda :
    (pc 159).Fresh ∧ (pc 159).npagesBasemem ≤ iophysmem / pgsize ∧
    (pc 159).bootEnd requests ≤ kernbase + (pc 159).mm.npages * pgsize ∧
    ∃ as b', bootPages requests (pc 159) = .ret as b' ∧
      ∃ free, Linked (fun p => (b'.mm.pages p).ppLink) b'.mm.pageFreeList free ∧ 159 ∈ free ∧
        ¬ FreeAfterBoot (pc 159).npagesBasemem ((pc 159).bootEnd requests) 159 := by
  refine ⟨pc_fresh 159, by decide, by decide, ?_⟩
  obtain ⟨as, b', hrun, -, hlist⟩ := bootPages_eq (pc 159) requests
    (pc_fresh 159) (by decide) (by decide)
  refine ⟨as, b', hrun, _, hlist.linked, mem_freePages.mpr ⟨by decide, by decide⟩, ?_⟩
  rintro (hlow | hhigh)
  · exact absurd hlow (by decide)
  · exact absurd hhigh (by decide)

end Jos
