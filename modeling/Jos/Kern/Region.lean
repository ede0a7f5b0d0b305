/-
`boot_map_region` and `mmio_map_region`.

* `boot_map_region_maps` — a whole region;
* `mmio_regions` — any sequence of device memory reservations.
-/
import Jos.Kern.Insert
import Jos.Kern.PageInit
import Jos.Kern.SharedHalf
import Mathlib.Data.Finset.Card
import Mathlib.Data.Finset.Image

namespace Jos

open Prog

namespace Mm

theorem present_mkPte_word (w perm : ℕ) : present (w ||| perm ||| pteP) := by
  have h := present_mkPte 0 (w ||| perm)
  rwa [mkPte, Nat.zero_shiftLeft, Nat.zero_or] at h

/-- The directory entries without a table that `n` pages from `va` on need. -/
def missing (m : Mm) (d va n : ℕ) : Finset ℕ :=
  ((Finset.range n).image fun k => pdx (va + k * pgsize)).filter fun i => ¬ present (m.mem d i)

/-- The physical address `va` translates to, and the flags of its entry. -/
def MapsTo (m : Mm) (d va pa fl : ℕ) : Prop :=
  ∃ pde w, m.translate d va = some (pde, w) ∧ frame w * pgsize + va % pgsize = pa ∧ flags w = fl

/-- Directory `d` after `n` pages from `va` on were mapped to memory from `pa`
on.  The pages `taken` became tables. -/
structure Mapped (m : Mm) (d va pa perm n : ℕ) (taken free : List ℕ) (m' : Mm) : Prop where
  tree : m'.Tree d free
  kern : m'.kernPgdir = m.kernPgdir
  maps : ∀ k < n, ∃ pde, m'.translate d (va + k * pgsize) =
    some (pde, pteAddr ((pa + k * pgsize) % 2 ^ 32) ||| perm ||| pteP)
  others : ∀ va' < 2 ^ 32, (∀ k < n, va' / pgsize ≠ (va + k * pgsize) / pgsize) →
    m'.translate d va' = m.translate d va' ∨ ∃ k < n, m.Window d (va + k * pgsize) va'
  outside : ∀ a, (present (m.pde d a) → frame (m.pde d a) ≠ d) →
    present (m'.pde d a) → frame (m'.pde d a) ≠ d
  tables : ∀ p ∈ taken, m'.pages p = { ppRef := 1, ppLink := none }
  rest : ∀ p, p ∉ taken → m'.pages p = m.pages p

section Loop

variable {m m₁ m₂ m' : Mm} {d va pa perm n t : ℕ} {free free₁ : List ℕ}

theorem Walked.entry (h : m.Walked d va free t m₁ free₁) {i : ℕ} (hi : i ≠ pdx va) :
    m₁.mem d i = m.mem d i := by
  rcases h.pages with ⟨rfl, -⟩ | ⟨rfl, rfl, -⟩
  · rfl
  · rw [newTable_dir h.table_dir, Function.update_of_ne hi]

theorem Walked.kern (h : m.Walked d va free t m₁ free₁) : m₁.kernPgdir = m.kernPgdir := by
  rcases h.pages with ⟨rfl, -⟩ | ⟨rfl, -, -⟩
  · rfl
  · rw [newTable, alloc_zero]
    rfl

theorem Walked.takes (hm : m.Tree d free) (h : m.Walked d va free t m₁ free₁) :
    ∃ taken, free = taken ++ free₁ ∧ (∀ p ∈ taken, m₁.pages p = { ppRef := 1, ppLink := none }) ∧
      ∀ p, p ∉ taken → m₁.pages p = m.pages p := by
  rcases h.pages with ⟨rfl, rfl⟩ | ⟨rfl, rfl, -⟩
  · exact ⟨[], rfl, by simp, fun _ _ => rfl⟩
  · refine ⟨[t], rfl, ?_, fun p hp => newTable_page_other (by simpa using hp)⟩
    simp [newTable_page, hm.free_ref t List.mem_cons_self]

section

variable (h : m.Walked d va free t m₁ free₁)
include h

theorem Walked.round_entry (w : ℕ) {i : ℕ} (hi : i ≠ pdx va) :
    (m₁.setWord t (ptx va) w).mem d i = m.mem d i := by
  rw [setWord_other _ _ _ _ h.table_dir.symm, h.entry hi]

theorem Walked.round_self (w : ℕ) :
    present ((m₁.setWord t (ptx va) w).mem d (pdx va)) ∧
      frame ((m₁.setWord t (ptx va) w).mem d (pdx va)) ≠ d := by
  rw [setWord_other _ _ _ _ h.table_dir.symm]
  refine ⟨h.table, fun heq => h.table_dir ?_⟩
  rw [← h.table_eq]
  exact heq

theorem Walked.round_missing {va₂ : ℕ} (w : ℕ) (hva₂ : ∀ k < n, va₂ + k * pgsize = va + (k + 1) * pgsize)
    (hfree : (m.missing d va (n + 1)).card ≤ free.length) :
    ((m₁.setWord t (ptx va) w).missing d va₂ n).card ≤ free₁.length := by
  have hsub : (m₁.setWord t (ptx va) w).missing d va₂ n ⊆
      (m.missing d va (n + 1)).erase (pdx va) := by
    intro i hi
    obtain ⟨himg, hno⟩ := Finset.mem_filter.mp hi
    obtain ⟨k, hk, rfl⟩ := Finset.mem_image.mp himg
    have hk := Finset.mem_range.mp hk
    have hne : pdx (va₂ + k * pgsize) ≠ pdx va := by
      intro heq
      rw [heq] at hno
      exact hno (h.round_self w).1
    rw [h.round_entry w hne] at hno
    refine Finset.mem_erase.mpr ⟨hne, Finset.mem_filter.mpr ⟨Finset.mem_image.mpr ⟨k + 1, ?_, ?_⟩,
      hno⟩⟩
    · exact Finset.mem_range.mpr (Nat.succ_lt_succ hk)
    · rw [hva₂ k hk]
  have hle := Finset.card_le_card hsub
  rcases h.pages with ⟨-, rfl⟩ | ⟨-, rfl, hmiss⟩
  · exact Nat.le_trans hle (Nat.le_trans Finset.card_erase_le hfree)
  · have hmem : pdx va ∈ m.missing d va (n + 1) :=
      Finset.mem_filter.mpr ⟨Finset.mem_image.mpr ⟨0, by simp, by simp⟩, hmiss⟩
    rw [Finset.card_erase_of_mem hmem] at hle
    rw [List.length_cons] at hfree
    omega

theorem Walked.round_outside (w : ℕ) {a : ℕ} (ha : present (m.pde d a) → frame (m.pde d a) ≠ d)
    (hp : present ((m₁.setWord t (ptx va) w).pde d a)) : frame ((m₁.setWord t (ptx va) w).pde d a) ≠ d := by
  by_cases hi : pdx a = pdx va
  · rw [pde, hi]
    exact (h.round_self w).2
  · rw [pde, h.round_entry w hi] at hp ⊢
    exact ha hp

theorem Walked.round_window (w : ℕ) {a va' : ℕ} (hw : (m₁.setWord t (ptx va) w).Window d a va') :
    m.Window d a va' := by
  obtain ⟨htab, hself, hindex, hmiss⟩ := hw
  have hx : pdx va' ≠ pdx va := by
    intro heq
    rw [pde, heq] at hself
    exact (h.round_self w).2 hself
  have ha : pdx a ≠ pdx va := by
    intro heq
    rw [pde, heq] at hmiss
    exact hmiss (h.round_self w).1
  rw [pde, h.round_entry w hx] at htab hself
  rw [pde, h.round_entry w ha] at hmiss
  exact ⟨htab, hself, hindex, hmiss⟩

theorem Walked.round_translate {w : ℕ} (hw : present w) :
    (m₁.setWord t (ptx va) w).translate d va = some (m₁.pde d va, w) :=
  translate_store h.table h.table_eq h.table_dir hw

theorem Walked.round_others (w : ℕ) (hva : va < 2 ^ 32) {va' : ℕ} (hva' : va' < 2 ^ 32)
    (hne : va' / pgsize ≠ va / pgsize) :
    (m₁.setWord t (ptx va) w).translate d va' = m.translate d va' ∨ m.Window d va va' := by
  rw [translate_store_other h.table_dir h.apart hva hva' hne]
  exact h.others va'

end

theorem Walked.mapped {va₂ pa₂ : ℕ} {taken free' : List ℕ} (hm : m.Tree d free)
    (h : m.Walked d va free t m₁ free₁) (hrange : va + (n + 1) * pgsize ≤ 2 ^ 32)
    (hpa : pa < 2 ^ 32) (hva₂ : ∀ k < n, va₂ + k * pgsize = va + (k + 1) * pgsize)
    (hpa₂ : ∀ k, (pa₂ + k * pgsize) % 2 ^ 32 = (pa + (k + 1) * pgsize) % 2 ^ 32)
    (hfree : free₁ = taken ++ free')
    (hrest : (m₁.setWord t (ptx va) (pteAddr pa ||| perm ||| pteP)).Mapped d va₂ pa₂ perm n
      taken free' m') :
    ∃ taken', free = taken' ++ free' ∧ m.Mapped d va pa perm (n + 1) taken' free' m' := by
  have hva : va < 2 ^ 32 := by
    rw [pgsize] at hrange
    omega
  obtain ⟨taken₁, hfree₁, htab, hpages⟩ := h.takes hm
  have hnd := hm.linked.nodup
  rw [hfree₁, hfree, ← List.append_assoc] at hnd
  refine ⟨taken₁ ++ taken, by rw [hfree₁, hfree, List.append_assoc], hrest.tree,
    hrest.kern.trans h.kern, fun k hk => ?_, fun va' hva' hout => ?_,
    fun a ha => hrest.outside a (h.round_outside _ ha), fun p hp => ?_, fun p hp => ?_⟩
  · cases k with
    | zero =>
      -- the first page is out of reach of the later rounds
      have hfirst := hrest.others va hva fun k hk => by
        rw [hva₂ k hk, pgsize]
        omega
      rw [Nat.zero_mul, Nat.add_zero, Nat.add_zero, Nat.mod_eq_of_lt hpa]
      refine ⟨m₁.pde d va, ?_⟩
      rcases hfirst with heq | ⟨k, -, hwin⟩
      · rw [heq]
        exact h.round_translate (present_mkPte_word _ _)
      · exact absurd hwin.self (h.round_self _).2
    | succ k =>
      obtain ⟨pde, hpde⟩ := hrest.maps k (Nat.lt_of_succ_lt_succ hk)
      rw [hva₂ k (Nat.lt_of_succ_lt_succ hk), hpa₂ k] at hpde
      exact ⟨pde, hpde⟩
  · have hne : va' / pgsize ≠ va / pgsize := by
      have := hout 0 (Nat.succ_pos n)
      rwa [Nat.zero_mul, Nat.add_zero] at this
    have hlater := hrest.others va' hva' fun k hk => by
      rw [hva₂ k hk]
      exact hout (k + 1) (Nat.succ_lt_succ hk)
    rcases hlater with heq | ⟨k, hk, hwin⟩
    · rw [heq]
      rcases h.round_others _ hva hva' hne with heq | hwin
      · exact .inl heq
      · exact .inr ⟨0, Nat.succ_pos n, by rwa [Nat.zero_mul, Nat.add_zero]⟩
    · refine .inr ⟨k + 1, Nat.succ_lt_succ hk, ?_⟩
      rw [← hva₂ k hk]
      exact h.round_window _ hwin
  · rcases List.mem_append.mp hp with hp | hp
    · have hnot : p ∉ taken := fun hp' =>
        List.disjoint_of_nodup_append (List.nodup_append'.mp hnd).1 hp hp'
      rw [hrest.rest p hnot]
      exact htab p hp
    · exact hrest.tables p hp
  · rw [List.mem_append, not_or] at hp
    rw [hrest.rest p hp.2]
    exact hpages p hp.1

end Loop

end Mm

open Mm in
theorem bootMapLoop_maps {d : ℕ} (perm n : ℕ) : ∀ (va pa : ℕ) {m : Mm} {free : List ℕ},
    m.Tree d free → va + n * pgsize ≤ 2 ^ 32 → pa < 2 ^ 32 →
    (∀ k < n, present (m.pde d (va + k * pgsize)) → frame (m.pde d (va + k * pgsize)) ≠ d) →
    (m.missing d va n).card ≤ free.length →
    ∃ m' taken free', bootMapLoop d perm va pa n m = .ret () m' ∧ free = taken ++ free' ∧
      m.Mapped d va pa perm n taken free' m' := by
  induction n with
  | zero =>
    intro va pa m free h _ _ _ _
    exact ⟨m, [], free, rfl, rfl, h, rfl, by simp, fun _ _ _ => .inl rfl, fun _ ha => ha, by simp,
      fun _ _ => rfl⟩
  | succ n ih =>
    intro va pa m free h hrange hpa hself hfree
    -- the address may only wrap behind the last page
    have hnext : ∀ k < n, (va + pgsize) % 2 ^ 32 + k * pgsize = va + (k + 1) * pgsize := by
      intro k hk
      rw [pgsize] at *
      omega
    have hrange' : (va + pgsize) % 2 ^ 32 + n * pgsize ≤ 2 ^ 32 := by
      rw [pgsize] at *
      omega
    have hself₀ : present (m.pde d va) → frame (m.pde d va) ≠ d := by
      simpa using hself 0 (Nat.succ_pos n)
    have hpage : present (m.pde d va) ∨ free ≠ [] := by
      by_cases hp : present (m.pde d va)
      · exact .inl hp
      · right
        rintro rfl
        have hmem : pdx va ∈ m.missing d va (n + 1) :=
          Finset.mem_filter.mpr ⟨Finset.mem_image.mpr ⟨0, by simp, by simp⟩, hp⟩
        exact absurd (Finset.card_pos.mpr ⟨_, hmem⟩) (Nat.not_lt.mpr hfree)
    obtain ⟨t, m₁, free₁, hwalk, hw⟩ := h.walk hself₀ hpage
    obtain ⟨m', taken, free', hrun, hfree', hmapped⟩ := ih
      ((va + pgsize) % 2 ^ 32) ((pa + pgsize) % 2 ^ 32)
      (hw.tree.store hw.table_dir (ptx va) (pteAddr pa ||| perm ||| pteP)) hrange'
      (Nat.mod_lt _ (by decide))
      (fun k hk => by
        rw [hnext k hk]
        exact hw.round_outside _ (hself (k + 1) (Nat.succ_lt_succ hk)))
      (hw.round_missing _ hnext hfree)
    obtain ⟨taken', htaken, hm'⟩ := hw.mapped h hrange hpa hnext (fun k => by
      rw [Nat.mod_add_mod, Nat.succ_mul, Nat.add_assoc, Nat.add_comm pgsize]) hfree' hmapped
    refine ⟨m', taken', free', ?_, htaken, hm'⟩
    rw [bootMapLoop, ret_bind hwalk]
    simp only
    rw [modify_bind]
    exact hrun

/-! ### Regions -/

theorem pteAddr_eq {y : ℕ} (hy : y < 2 ^ 32) : pteAddr y = y / 4096 * 4096 := by
  have hframe : pteAddr y / 4096 = y / 4096 := by
    rw [← pgnum_eq]
    show frame y = _
    rw [frame_eq]
    omega
  have hlow : pteAddr y % 2 ^ 12 = 0 := by
    rw [pteAddr, Nat.and_mod_two_pow]
    exact Nat.and_zero _
  omega

theorem region_word {y : ℕ} (perm : ℕ) (hy : y < 2 ^ 32) :
    pteAddr y ||| perm ||| pteP = mkPte (y / 4096) perm := by
  rw [pteAddr_eq hy, mkPte, pgshift, Nat.shiftLeft_eq]

theorem flags_region {pp perm : ℕ} (h : perm < 4096) : flags (mkPte pp perm) = perm ||| pteP := by
  rw [flags_mkPte]
  exact Nat.mod_eq_of_lt (Nat.or_lt_two_pow (n := 12) h (by decide))

theorem Mm.translate_page (m : Mm) (d : ℕ) {a b : ℕ} (h : a / pgsize = b / pgsize) :
    m.translate d a = m.translate d b := by
  have hd : pdx a = pdx b := by
    rw [pgsize] at h
    rw [pdx_eq, pdx_eq]
    omega
  have ht : ptx a = ptx b := by
    rw [pgsize] at h
    rw [ptx_eq, ptx_eq]
    omega
  exact Mm.translate_eq (by rw [Mm.pde, hd, Mm.pde]) fun _ => by rw [Mm.pte, Mm.pde, hd, ht]; rfl

theorem Mm.Mapped.mapsTo {m m' : Mm} {d va pa perm n x : ℕ} {taken free : List ℕ}
    (h : m.Mapped d va pa perm n taken free m') (hva : va % pgsize = 0) (hpa : pa % pgsize = 0)
    (hperm : perm < 4096) (hx : x < n * pgsize) :
    m'.MapsTo d (va + x) ((pa + x) % 2 ^ 32) (perm ||| pteP) := by
  rw [pgsize] at *
  have hk : x / 4096 < n := by omega
  obtain ⟨pde, htr⟩ := h.maps (x / 4096) hk
  have hlt : (pa + x / 4096 * pgsize) % 2 ^ 32 < 2 ^ 32 := Nat.mod_lt _ (by decide)
  rw [region_word perm hlt] at htr
  have hpage : (va + x) / pgsize = (va + x / 4096 * pgsize) / pgsize := by
    rw [pgsize]
    omega
  refine ⟨pde, _, (m'.translate_page d hpage).trans htr, ?_, flags_region hperm⟩
  rw [frame_mkPte_of_lt (by omega) hperm]
  rw [pgsize] at *
  omega

theorem region_pages {va size : ℕ} (hva : va % pgsize = 0) (hsize : size < 2 ^ 31)
    (hend : va + size ≤ 2 ^ 32) : roundup size pgsize / pgsize * pgsize = roundup size pgsize ∧
      va + roundup size pgsize ≤ 2 ^ 32 := by
  rw [roundup, rounddown, pgsize] at *
  omega

/-- **`boot_map_region`** maps exactly the pages of the region, with tables from
the free list where they are missing. -/
theorem boot_map_region_maps (m : Mm) (d va size pa perm : ℕ) (free : List ℕ)
    (h : m.Tree d free) (hva : va % pgsize = 0) (hpa : pa % pgsize = 0) (hpa32 : pa < 2 ^ 32)
    (hsize : size < 2 ^ 31) (hend : va + size ≤ 2 ^ 32) (hperm : perm < 4096)
    (hself : ∀ x < roundup size pgsize, present (m.pde d (va + x)) → frame (m.pde d (va + x)) ≠ d)
    (hfree : (m.missing d va (roundup size pgsize / pgsize)).card ≤ free.length) :
    ∃ m', bootMapRegion d va size pa perm m = .ret () m' ∧
      (∀ x < roundup size pgsize, m'.MapsTo d (va + x) ((pa + x) % 2 ^ 32) (perm ||| pteP)) ∧
      (∀ va' < 2 ^ 32, ¬ (va ≤ va' ∧ va' < va + roundup size pgsize) →
        m'.translate d va' = m.translate d va' ∨
          ∃ x < roundup size pgsize, m.Window d (va + x) va') ∧
      ∃ taken free', free = taken ++ free' ∧
        Linked (fun p => (m'.pages p).ppLink) m'.pageFreeList free' ∧
        (∀ p ∈ taken, (m'.pages p).ppRef = 1) ∧ ∀ p, p ∉ taken → m'.pages p = m.pages p := by
  obtain ⟨hpages, hrange⟩ := region_pages hva hsize hend
  have hinside : ∀ k < roundup size pgsize / pgsize, k * pgsize < roundup size pgsize := by
    intro k hk
    rw [pgsize] at *
    omega
  obtain ⟨m', taken, free', hrun, htaken, hm'⟩ := bootMapLoop_maps perm
    (roundup size pgsize / pgsize) va pa h (by rwa [hpages]) hpa32
    (fun k hk => hself _ (hinside k hk)) hfree
  refine ⟨m', hrun, fun x hx => ?_, fun va' hva' hout => ?_, taken, free', htaken, hm'.tree.linked,
    fun p hp => ?_, hm'.rest⟩
  · exact hm'.mapsTo hva hpa hperm (by rwa [hpages])
  · have hoff : ∀ k < roundup size pgsize / pgsize,
        va' / pgsize ≠ (va + k * pgsize) / pgsize := by
      intro k hk
      have := hinside k hk
      rw [pgsize] at *
      omega
    rcases hm'.others va' hva' hoff with heq | ⟨k, hk, hwin⟩
    · exact .inl heq
    · exact .inr ⟨k * pgsize, hinside k hk, hwin⟩
  · rw [hm'.tables p hp]

/-- Two pages are mapped, and a table is allocated for them. -/
theorem boot_map_region_maps_two : (Demo.selfMap.missing 1 0x400000 2).card = 1 ∧ ∃ m',
    bootMapRegion 1 0x400000 0x1800 0x5000 pteW Demo.selfMap = .ret () m' ∧
      m'.MapsTo 1 0x400123 0x5123 3 ∧ m'.MapsTo 1 0x401fff 0x6fff 3 ∧
      m'.translate 1 0x402000 = none := by
  obtain ⟨m', hrun, hmaps, hothers, -⟩ := boot_map_region_maps Demo.selfMap 1 0x400000 0x1800 0x5000
    pteW [3] Demo.selfMap_tree.toTree (by decide) (by decide) (by decide) (by decide) (by decide)
    (by decide)
    (fun x hx hp => by
      have hx : x < 8192 := hx
      have hi := Demo.selfMap_entry hp
      rw [pdx_eq, show pdx uvpt = 957 from rfl] at hi
      omega)
    (by decide)
  refine ⟨by decide, m', hrun, hmaps 0x123 (by decide), hmaps 0x1fff (by decide), ?_⟩
  rcases hothers 0x402000 (by decide) (by decide) with heq | ⟨x, -, hwin⟩
  · rw [heq]
    decide
  · exact absurd (Demo.selfMap_entry hwin.table) (by decide)

/-- Mapping one page makes a page of the window at `UVPT` appear. -/
theorem boot_map_region_shows_table : Demo.selfMap.Tree 1 [3] ∧
    (Demo.selfMap.missing 1 0x400000 1).card ≤ [3].length ∧
    ∃ m', bootMapRegion 1 0x400000 4096 0x5000 pteW Demo.selfMap = .ret () m' ∧
      Demo.selfMap.translate 1 (uvpt + pgsize) = none ∧ m'.translate 1 (uvpt + pgsize) ≠ none :=
  ⟨Demo.selfMap_tree.toTree, by decide, _, rfl, by decide, by decide⟩

/-! ### Device memory -/

theorem mmio_fits {base size : ℕ} (h : MmioBase base) (hsize : size < 2 ^ 32) :
    base + pageCeil size ≤ mmiolim ↔
      ¬ ((base + size) % 2 ^ 32 > mmiolim ∨ (base + size) % 2 ^ 32 < base) := by
  obtain ⟨hge, hle, hal⟩ := h
  have hlim : mmiolim = 959 * 2 ^ 22 := rfl
  have hbase : mmiobase = 958 * 2 ^ 22 := rfl
  rw [hlim] at *
  rw [hbase] at hge
  rw [pgsize] at hal
  unfold pageCeil
  omega

/-- The kernel's directory with its free list, when device memory is reserved
up to `base`: the one table for all of it is there or can be allocated. -/
structure MmioReady (m : Mm) (free : List ℕ) (base : ℕ) : Prop where
  tree : m.Tree m.kernPgdir free
  base : MmioBase base
  table : present (m.pde m.kernPgdir mmiobase) → frame (m.pde m.kernPgdir mmiobase) ≠ m.kernPgdir
  page : present (m.pde m.kernPgdir mmiobase) ∨ free ≠ []

/-- A sequence of calls: the addresses returned, and the final `base`. -/
def mmioCalls : List (ℕ × ℕ) → ℕ → MmM (List ℕ × ℕ)
  | [], base => pure ([], base)
  | (pa, size) :: calls, base => do
    let r ← mmioMapRegion base pa size
    let rest ← mmioCalls calls r.2
    pure (r.1 :: rest.1, rest.2)

def mmioFlags : ℕ := ptePcd ||| ptePwt ||| pteW ||| pteP

section Mmio

variable {m m' : Mm} {free : List ℕ} {base pa size : ℕ}

theorem mmio_pdx {a : ℕ} (h : mmiobase ≤ a) (h' : a < mmiolim) : pdx a = pdx mmiobase := by
  have hlim : mmiolim = 959 * 2 ^ 22 := rfl
  have hbase : mmiobase = 958 * 2 ^ 22 := rfl
  rw [pdx_eq, pdx_eq, hbase]
  omega

theorem mmioMapRegion_panics (h : MmioBase base) (hsize : size < 2 ^ 32)
    (hfit : ¬ base + pageCeil size ≤ mmiolim) :
    mmioMapRegion base pa size m = .stop (.panic "mmio_map region .... memory is not enough\n") m := by
  rw [mmio_fits h hsize, not_not] at hfit
  rw [mmioMapRegion, if_pos hfit]
  rfl

theorem MmioReady.table_at (h : MmioReady m free base) {a : ℕ} (ha : mmiobase ≤ a)
    (ha' : a < mmiolim) :
    present (m.pde m.kernPgdir a) → frame (m.pde m.kernPgdir a) ≠ m.kernPgdir := by
  rw [Mm.pde, mmio_pdx ha ha']
  exact h.table

theorem MmioReady.missing_le (h : MmioReady m free base) {n : ℕ}
    (hin : ∀ k < n, base + k * pgsize < mmiolim) :
    (m.missing m.kernPgdir base n).card ≤ free.length := by
  have hsub : m.missing m.kernPgdir base n ⊆ {pdx mmiobase} := by
    intro i hi
    obtain ⟨k, hk, rfl⟩ := Finset.mem_image.mp (Finset.mem_filter.mp hi).1
    exact Finset.mem_singleton.mpr (mmio_pdx (Nat.le_trans h.base.ge (Nat.le_add_right _ _))
      (hin k (Finset.mem_range.mp hk)))
  rcases h.page with hp | hfree
  · have hempty : m.missing m.kernPgdir base n = ∅ := by
      refine Finset.eq_empty_of_forall_notMem fun i hi => ?_
      have hno := (Finset.mem_filter.mp hi).2
      rw [Finset.mem_singleton.mp (hsub hi)] at hno
      exact hno hp
    rw [hempty]
    exact Nat.zero_le _
  · exact Nat.le_trans (Finset.card_le_card hsub) (List.length_pos_of_ne_nil hfree)

theorem MmioBase.pages (h : MmioBase base) (hfit : base + pageCeil size ≤ mmiolim) :
    roundup size pgsize = pageCeil size ∧
      roundup size pgsize / pgsize * pgsize = pageCeil size ∧
      (∀ k < roundup size pgsize / pgsize, base + k * pgsize < mmiolim) ∧
      MmioBase (base + pageCeil size) := by
  have hlim : mmiolim < 2 ^ 32 := by decide
  have hround : roundup size pgsize = pageCeil size := roundup_eq (by omega)
  have hpages : pageCeil size / pgsize * pgsize = pageCeil size := by
    rw [pageCeil, pgsize]
    omega
  refine ⟨hround, by rw [hround, hpages], fun k hk => ?_, ?_, hfit, ?_⟩
  · rw [hround] at hk
    have := Nat.mul_lt_mul_of_pos_right hk (show 0 < pgsize by decide)
    omega
  · exact Nat.le_trans h.ge (Nat.le_add_right _ _)
  · rw [Nat.add_mod, h.aligned, pageCeil_mod]
    rfl

theorem MmioReady.call (h : MmioReady m free base) (hpa : pa % pgsize = 0) (hpa32 : pa < 2 ^ 32)
    (hsize : size < 2 ^ 32) (hfit : base + pageCeil size ≤ mmiolim) :
    ∃ m' free', mmioMapRegion base pa size m = .ret (base, base + pageCeil size) m' ∧
      MmioReady m' free' (base + pageCeil size) ∧ m'.kernPgdir = m.kernPgdir ∧
      (∀ x < pageCeil size, m'.MapsTo m.kernPgdir (base + x) ((pa + x) % 2 ^ 32) mmioFlags) ∧
      ∀ a, mmiobase ≤ a → a < base → m'.translate m.kernPgdir a = m.translate m.kernPgdir a := by
  have hlim : mmiolim < 2 ^ 32 := by decide
  obtain ⟨hround, hpages, hin, hbase⟩ := h.base.pages hfit
  have hbelow : ∀ k < roundup size pgsize / pgsize, present (m.pde m.kernPgdir (base + k * pgsize)) →
      frame (m.pde m.kernPgdir (base + k * pgsize)) ≠ m.kernPgdir := fun k hk =>
    h.table_at (Nat.le_trans h.base.ge (Nat.le_add_right _ _)) (hin k hk)
  obtain ⟨m', taken, free', hrun, htaken, hm'⟩ := bootMapLoop_maps mmioFlags
    (roundup size pgsize / pgsize) base pa h.tree (by omega) hpa32 hbelow (h.missing_le hin)
  have hregion : bootMapRegion m.kernPgdir base size pa (ptePcd ||| ptePwt ||| pteW ||| pteP) m =
      .ret () m' := hrun
  have hcall : mmioMapRegion base pa size m = .ret (base, base + pageCeil size) m' := by
    rw [mmioMapRegion, if_neg ((mmio_fits h.base hsize).mp hfit), get_bind, ret_bind hregion,
      hround, Nat.mod_eq_of_lt (by omega)]
    rfl
  refine ⟨m', free', hcall, ⟨?_, hbase, ?_, ?_⟩, hm'.kern, fun x hx => ?_, fun a ha hab => ?_⟩
  · rw [hm'.kern]
    exact hm'.tree
  · rw [hm'.kern]
    exact hm'.outside mmiobase h.table
  · rcases Nat.eq_zero_or_pos (roundup size pgsize / pgsize) with h0 | hpos
    · -- nothing was mapped
      rw [h0] at hrun
      cases hrun
      rw [hm'.tree.linked.unique h.tree.linked]
      exact h.page
    · obtain ⟨pde, htr⟩ := hm'.maps 0 hpos
      have hp := (Mm.kReads_of_translate htr).1
      rw [Nat.zero_mul, Nat.add_zero, Mm.pde,
        mmio_pdx h.base.ge (by simpa using hin 0 hpos), ← hm'.kern] at hp
      exact .inl hp
  · exact hm'.mapsTo h.base.aligned hpa (by decide) (by rwa [hpages])
  · have hout : ∀ k < roundup size pgsize / pgsize, a / pgsize ≠ (base + k * pgsize) / pgsize := by
      intro k _
      have hal := h.base.aligned
      rw [pgsize] at *
      omega
    have ha' : a < mmiolim := Nat.lt_of_lt_of_le hab h.base.le
    rcases hm'.others a (Nat.lt_trans ha' hlim) hout with heq | ⟨k, -, hwin⟩
    · exact heq
    · exact absurd hwin.self (h.table_at ha ha' hwin.table)

/-- What a sequence of calls leaves: disjoint regions, each mapped to the
device memory its call asked for. -/
structure MmioDone (m : Mm) (base : ℕ) (calls : List (ℕ × ℕ)) (addrs : List ℕ) (base' : ℕ)
    (m' : Mm) : Prop where
  regions : Reserved base base' (calls.map Prod.snd) addrs
  kern : m'.kernPgdir = m.kernPgdir
  maps : ∀ r ∈ addrs.zip calls, ∀ x < pageCeil r.2.2,
    m'.MapsTo m.kernPgdir (r.1 + x) ((r.2.1 + x) % 2 ^ 32) mmioFlags
  before : ∀ a, mmiobase ≤ a → a < base → m'.translate m.kernPgdir a = m.translate m.kernPgdir a

theorem Mm.MapsTo.of_translate {d va fl : ℕ} (h : m.MapsTo d va pa fl)
    (heq : m'.translate d va = m.translate d va) : m'.MapsTo d va pa fl := by
  obtain ⟨pde, w, htr, hw⟩ := h
  exact ⟨pde, w, heq.trans htr, hw⟩

theorem MmioDone.cons {m₁ : Mm} {calls : List (ℕ × ℕ)} {addrs : List ℕ} {base' : ℕ}
    (hbase : MmioBase base) (hkern : m₁.kernPgdir = m.kernPgdir)
    (hmaps : ∀ x < pageCeil size, m₁.MapsTo m.kernPgdir (base + x) ((pa + x) % 2 ^ 32) mmioFlags)
    (hbefore : ∀ a, mmiobase ≤ a → a < base →
      m₁.translate m.kernPgdir a = m.translate m.kernPgdir a)
    (h : MmioDone m₁ (base + pageCeil size) calls addrs base' m') (hle : base + pageCeil size ≤ base') :
    MmioDone m base ((pa, size) :: calls) (base :: addrs) base' m' where
  regions := by
    rw [List.map_cons]
    exact h.regions.cons hbase.aligned hle
  kern := h.kern.trans hkern
  maps := by
    rw [List.zip_cons_cons]
    refine List.forall_mem_cons.mpr ⟨fun x hx => ?_, ?_⟩
    · refine (hmaps x hx).of_translate ?_
      rw [← hkern]
      exact h.before _ (Nat.le_trans hbase.ge (Nat.le_add_right _ _)) (Nat.add_lt_add_left hx base)
    · rw [← hkern]
      exact h.maps
  before a ha hab := by
    have hlater := h.before a ha (Nat.lt_of_lt_of_le hab (Nat.le_add_right _ _))
    rw [hkern] at hlater
    exact hlater.trans (hbefore a ha hab)

theorem MmioReady.calls : ∀ {calls : List (ℕ × ℕ)} {m : Mm} {free : List ℕ} {base : ℕ},
    MmioReady m free base →
    (∀ c ∈ calls, c.1 % pgsize = 0 ∧ c.1 < 2 ^ 32 ∧ c.2 < 2 ^ 32) →
    ∀ {addrs : List ℕ} {base' : ℕ} {m' : Mm}, mmioCalls calls base m = .ret (addrs, base') m' →
      base ≤ base' ∧ (∃ free', MmioReady m' free' base') ∧ MmioDone m base calls addrs base' m' := by
  intro calls
  induction calls with
  | nil =>
    intro m free base h _ addrs base' m' hrun
    cases hrun
    exact ⟨Nat.le_refl _, ⟨free, h⟩, ⟨rfl, by simp, by simp, by simp⟩, rfl, by simp, fun _ _ _ => rfl⟩
  | cons c calls ih =>
    intro m free base h hc addrs base' m' hrun
    obtain ⟨pa, size⟩ := c
    obtain ⟨⟨hpa, hpa32, hsize⟩, hc⟩ := List.forall_mem_cons.mp hc
    rw [mmioCalls] at hrun
    by_cases hfit : base + pageCeil size ≤ mmiolim
    · obtain ⟨m₁, free₁, hcall, h₁, hkern, hmaps, hbefore⟩ := h.call hpa hpa32 hsize hfit
      rw [ret_bind hcall] at hrun
      cases hrest : mmioCalls calls (base + pageCeil size) m₁ with
      | stop e m₂ =>
        rw [stop_bind hrest] at hrun
        cases hrun
      | ret r m₂ =>
        obtain ⟨addrs₂, base₂⟩ := r
        rw [ret_bind hrest] at hrun
        cases hrun
        obtain ⟨hle, hready, hdone⟩ := ih h₁ hc hrest
        exact ⟨by omega, hready, hdone.cons h.base hkern hmaps hbefore hle⟩
    · rw [stop_bind (mmioMapRegion_panics h.base hsize hfit)] at hrun
      cases hrun

end Mmio

/-- **Device memory.**  After any sequence of reservations that did not panic,
the regions are disjoint, inside the device window and still mapped; the next
call panics, changing nothing, exactly if its rounded region does not fit. -/
theorem mmio_regions (m : Mm) (free : List ℕ) (calls : List (ℕ × ℕ)) (addrs : List ℕ) (base : ℕ)
    (m' : Mm) (h : MmioReady m free mmiobase)
    (hcalls : ∀ c ∈ calls, c.1 % pgsize = 0 ∧ c.1 < 2 ^ 32 ∧ c.2 < 2 ^ 32)
    (hrun : mmioCalls calls mmiobase m = .ret (addrs, base) m') :
    Reserved mmiobase mmiolim (calls.map Prod.snd) addrs ∧
    (∀ r ∈ addrs.zip calls, ∀ x < pageCeil r.2.2,
      m'.MapsTo m.kernPgdir (r.1 + x) ((r.2.1 + x) % 2 ^ 32) mmioFlags) ∧
    mmioFlags &&& pteU = 0 ∧
    ∀ pa size, pa % pgsize = 0 → pa < 2 ^ 32 → size < 2 ^ 32 →
      (base + pageCeil size ≤ mmiolim →
        ∃ m₂, mmioMapRegion base pa size m' = .ret (base, base + pageCeil size) m₂) ∧
      (¬ base + pageCeil size ≤ mmiolim → mmioMapRegion base pa size m' =
        .stop (.panic "mmio_map region .... memory is not enough\n") m') := by
  obtain ⟨hle, ⟨free', hready⟩, hdone⟩ := h.calls hcalls hrun
  refine ⟨hdone.regions.mono hready.base.le, hdone.maps, by decide, fun pa size hpa hpa32 hsize =>
    ⟨fun hfit => ?_, fun hfit => mmioMapRegion_panics hready.base hsize hfit⟩⟩
  obtain ⟨m₂, -, hcall, -⟩ := hready.call hpa hpa32 hsize hfit
  exact ⟨m₂, hcall⟩

theorem mmio_regions_self : ∃ m',
    mmioCalls [(0xfee00000, 100), (0xfebc0000, 5000)] mmiobase Demo.selfMap =
      .ret ([mmiobase, mmiobase + 4096], mmiobase + 3 * 4096) m' ∧
    m'.MapsTo 1 (mmiobase + 0x20) 0xfee00020 mmioFlags := by
  have hready : MmioReady Demo.selfMap [3] mmiobase :=
    ⟨Demo.selfMap_tree.toTree, .start, fun hp => absurd hp (by decide), .inr (by decide)⟩
  obtain ⟨-, hmaps, -, -⟩ := mmio_regions Demo.selfMap [3] [(0xfee00000, 100), (0xfebc0000, 5000)]
    [mmiobase, mmiobase + 4096] (mmiobase + 3 * 4096) _ hready (by decide) rfl
  exact ⟨_, rfl, hmaps (mmiobase, 0xfee00000, 100) (by decide) 0x20 (by decide)⟩

end Jos
