/-
`page_insert` updates one mapping.

The function increments the count of the new page, removes what was mapped,
and stores the entry, in this order: re-inserting a page where it already is
goes through a count that never reaches zero.

* `page_insert_one_mapping` — the whole effect of a call: translation, counts
  and free list;
* `page_insert_shows_table` — a directory that maps itself shows a new page
  table in its window, at an address other than `va`.
-/
import Jos.Kern.Translate
import Jos.Kern.Lookup

namespace Jos

open Prog

namespace Mm

open Demo

/-- A page table whose part below `UTOP` maps pages in use, each counted. -/
structure UserTree (m : Mm) (d : ℕ) (free : List ℕ) : Prop extends m.Tree d free where
  low : ∀ i < userPdes, present (m.mem d i) → frame (m.mem d i) ≠ d
  page_lt : ∀ i < userPdes, ∀ j < 1024, present (m.mem d i) →
    present (m.mem (frame (m.mem d i)) j) → frame (m.mem (frame (m.mem d i)) j) < m.npages
  page_free : ∀ i < userPdes, ∀ j < 1024, present (m.mem d i) →
    present (m.mem (frame (m.mem d i)) j) → frame (m.mem (frame (m.mem d i)) j) ∉ free
  page_ref : ∀ i < userPdes, ∀ j < 1024, present (m.mem d i) →
    present (m.mem (frame (m.mem d i)) j) →
      1 ≤ (m.pages (frame (m.mem (frame (m.mem d i)) j))).ppRef
  ref_lt : ∀ p, (m.pages p).ppRef < 2 ^ 16
  link : ∀ p, p ∉ free → (m.pages p).ppLink = none

def mapped (m : Mm) (d va : ℕ) : Option ℕ := (m.translate d va).map fun e => frame e.2

/-- The page that becomes the table of `va`, if the table is missing. -/
def tableFor (m : Mm) (d va : ℕ) (free : List ℕ) : Option ℕ :=
  if present (m.pde d va) then none else free.head?

/-- The effect of mapping `pp` at `va` with the flags `perm`. -/
structure Inserted (m : Mm) (d pp va perm : ℕ) (free : List ℕ) (m' : Mm) : Prop where
  maps : ∃ pde w, m'.translate d va = some (pde, w) ∧ frame w = pp ∧ flags w = perm ||| pteP
  others : ∀ va' < 2 ^ 32, va' / pgsize ≠ va / pgsize →
    m'.translate d va' = m.translate d va' ∨ m.Window d va va'
  up : m.mapped d va ≠ some pp → (m'.pages pp).ppRef = (m.pages pp).ppRef + 1
  same : m.mapped d va = some pp → (m'.pages pp).ppRef = (m.pages pp).ppRef
  down : ∀ q, m.mapped d va = some q → q ≠ pp → (m'.pages q).ppRef = (m.pages q).ppRef - 1
  table : ∀ t, m.tableFor d va free = some t → (m'.pages t).ppRef = 1
  rest : ∀ q, q ≠ pp → m.mapped d va ≠ some q → m.tableFor d va free ≠ some q →
    m'.pages q = m.pages q
  list : ∃ free', Linked (fun p => (m'.pages p).ppLink) m'.pageFreeList free' ∧
    ∀ q, q ∈ free' ↔ (q ∈ free ∧ m.tableFor d va free ≠ some q) ∨
      (m.mapped d va = some q ∧ q ≠ pp ∧ (m'.pages q).ppRef = 0)

theorem incRef_self (m : Mm) (p : ℕ) : (m.incRef p).pages p =
    { m.pages p with ppRef := ((m.pages p).ppRef + 1) % 2 ^ 16 } :=
  Function.update_self ..

theorem incRef_other (m : Mm) {p q : ℕ} (h : q ≠ p) : (m.incRef p).pages q = m.pages q :=
  m.updPage_other _ h

theorem incRef_ref {m : Mm} {p : ℕ} (h : (m.pages p).ppRef < 2 ^ 16 - 1) :
    ((m.incRef p).pages p).ppRef = (m.pages p).ppRef + 1 := by
  rw [incRef_self]
  exact Nat.mod_eq_of_lt (by omega)

theorem incRef_link (m : Mm) (p q : ℕ) : ((m.incRef p).pages q).ppLink = (m.pages q).ppLink := by
  by_cases h : q = p
  · rw [h, incRef_self]
  · rw [incRef_other m h]

theorem setWord_setWord_mem (m : Mm) (p i w w' : ℕ) :
    ((m.setWord p i w).setWord p i w').mem = (m.setWord p i w').mem := by
  simp [setWord]

end Mm

/-! ### The call after its walk -/

section Tail

variable {m m₁ : Mm} {d pp va cr3 t : ℕ} {free free₁ : List ℕ}

theorem pageInsert_walked (perm : ℕ)
    (hwalk : pgdirWalk d va true m = .ret (some (t, ptx va)) m₁) :
    pageInsert cr3 d pp va perm m = (do
      when (present (m₁.mem t (ptx va))) (pageRemove cr3 d va)
      modify (·.setWord t (ptx va) (mkPte pp perm))
      pure 0 : MmM ℤ) (m₁.incRef pp) := by
  rw [pageInsert, ret_bind hwalk]
  simp only
  rw [modify_bind, get_bind]
  rfl

theorem pageInsert_empty (perm : ℕ)
    (hwalk : pgdirWalk d va true m = .ret (some (t, ptx va)) m₁)
    (hp : ¬ present (m₁.mem t (ptx va))) :
    pageInsert cr3 d pp va perm m =
      .ret 0 ((m₁.incRef pp).setWord t (ptx va) (mkPte pp perm)) := by
  rw [pageInsert_walked perm hwalk, when, if_neg hp]
  rfl

theorem pageInsert_over (perm : ℕ)
    (hwalk : pgdirWalk d va true m = .ret (some (t, ptx va)) m₁)
    (ht : frame (m₁.pde d va) = t) (hp : present (m₁.pte d va))
    (hok : (m₁.incRef pp).Walkable d va) :
    pageInsert cr3 d pp va perm m = .ret 0
      ((((m₁.incRef pp).setWord t (ptx va) 0).dropRef (frame (m₁.pte d va))).setWord t (ptx va)
        (mkPte pp perm)) := by
  have hp' : present (m₁.mem t (ptx va)) := by rwa [← ht]
  rw [pageInsert_walked perm hwalk, when, if_pos hp', ret_bind (hok.remove_present hp)]
  show Outcome.ret (0 : ℤ) _ = _
  rw [← ht]
  rfl

end Tail

/-! ### The effect -/

namespace Mm

section Effect

variable {m m₁ m' : Mm} {d pp va perm cr3 t : ℕ} {free free₁ : List ℕ}

theorem Walked.translate_self (h : m.Walked d va free t m₁ free₁)
    (hmem : m'.mem = (m₁.setWord t (ptx va) (mkPte pp perm)).mem) :
    m'.translate d va = some (m₁.pde d va, mkPte pp perm) := by
  rw [translate_congr hmem]
  exact translate_store h.table h.table_eq h.table_dir (present_mkPte _ _)

theorem Walked.translate_other (h : m.Walked d va free t m₁ free₁)
    (hmem : m'.mem = (m₁.setWord t (ptx va) (mkPte pp perm)).mem) (hva : va < 2 ^ 32) {va' : ℕ}
    (hva' : va' < 2 ^ 32) (hne : va' / pgsize ≠ va / pgsize) :
    m'.translate d va' = m.translate d va' ∨ m.Window d va va' := by
  rw [translate_congr hmem, translate_store_other h.table_dir h.apart hva hva' hne]
  exact h.others va'

theorem maps_of_translate {pde : ℕ} (h : m'.translate d va = some (pde, mkPte pp perm))
    (hpp : pp < 2 ^ 20) (hperm : perm < 4096) :
    ∃ pde w, m'.translate d va = some (pde, w) ∧ frame w = pp ∧ flags w = perm ||| pteP := by
  refine ⟨_, _, h, frame_mkPte_of_lt hpp hperm, ?_⟩
  rw [flags_mkPte]
  exact Nat.mod_eq_of_lt (Nat.or_lt_two_pow (n := 12) hperm (by decide))

theorem Walked.inserted_empty (hm : m.UserTree d free) (h : m.Walked d va free t m₁ free₁)
    (hp : ¬ present (m₁.mem t (ptx va))) (hva : va < utop) (hlt : pp < m.npages)
    (hfree : pp ∉ free) (hmax : (m.pages pp).ppRef < 2 ^ 16 - 1) (hperm : perm < 4096) :
    m.Inserted d pp va perm free ((m₁.incRef pp).setWord t (ptx va) (mkPte pp perm)) := by
  have hva32 : va < 2 ^ 32 := Nat.lt_trans hva (by decide)
  have hpp : pp < 2 ^ 20 := Nat.lt_of_lt_of_le hlt hm.npages_le
  have htrans : ((m₁.incRef pp).setWord t (ptx va) (mkPte pp perm)).translate d va =
      some (m₁.pde d va, mkPte pp perm) := h.translate_self rfl
  have hmaps := maps_of_translate htrans hpp hperm
  have hlinks : Linked (fun q => ((m₁.incRef pp).pages q).ppLink) m₁.pageFreeList free₁ :=
    h.tree.linked.congr fun q _ => incRef_link m₁ pp q
  rcases h.pages with ⟨rfl, rfl⟩ | ⟨rfl, rfl, hmiss⟩
  · -- an old table
    have hnone : m₁.mapped d va = none := by
      rw [mapped, translate_of_empty (by rwa [pte, h.table_eq])]
      rfl
    have htab : m₁.tableFor d va free₁ = none := if_pos h.table
    refine ⟨hmaps, fun va' hva' hne => h.translate_other rfl hva32 hva' hne,
      fun _ => incRef_ref hmax, ?_, ?_, ?_, fun q hq _ _ => incRef_other m₁ hq, free₁, hlinks, ?_⟩
    all_goals simp [hnone, htab]
  · -- a new one
    have hnone : m.mapped d va = none := by
      rw [mapped, translate_of_absent hmiss]
      rfl
    have htab : m.tableFor d va (t :: free₁) = some t := if_neg hmiss
    have hne : pp ≠ t := fun heq => hfree (heq ▸ List.mem_cons_self)
    have hnd := (List.nodup_cons.mp hm.linked.nodup).1
    refine ⟨hmaps, fun va' hva' hne => h.translate_other rfl hva32 hva' hne, fun _ => ?_, ?_, ?_,
      fun t' ht' => ?_, fun q hq _ hqt => ?_, free₁, hlinks, fun q => ?_⟩
    · have hpage : (m.newTable d va t).pages pp = m.pages pp := newTable_page_other hne
      show (((m.newTable d va t).incRef pp).pages pp).ppRef = _
      rw [incRef_ref (by rwa [hpage]), hpage]
    · simp [hnone]
    · simp [hnone]
    · rw [htab] at ht'
      cases ht'
      show (((m.newTable d va t).incRef pp).pages t).ppRef = 1
      rw [incRef_other _ hne.symm, newTable_page, hm.free_ref t List.mem_cons_self]
      rfl
    · rw [htab] at hqt
      have hqt : q ≠ t := fun heq => hqt (heq ▸ rfl)
      show ((m.newTable d va t).incRef pp).pages q = _
      rw [incRef_other _ hq, newTable_page_other hqt]
    · simp only [hnone, htab, List.mem_cons, reduceCtorEq, false_and, or_false, ne_eq,
        Option.some.injEq]
      constructor
      · intro hq
        exact ⟨.inr hq, fun heq => hnd (heq ▸ hq)⟩
      · rintro ⟨rfl | hq, hqt⟩
        · exact absurd rfl hqt
        · exact hq

theorem UserTree.walkable (hm : m.UserTree d free) (hpde : present (m.pde d va))
    (hva : va < utop) (hmax : (m.pages pp).ppRef < 2 ^ 16 - 1) :
    (m.incRef pp).Walkable d va := by
  have hi := pdx_lt_user hva
  have hj := ptx_lt va
  refine ⟨hpde, hm.addr_lt _ (pdx_lt va), hm.page_lt _ hi _ hj hpde, fun hp => ?_, fun hp _ => ?_⟩
  · have hpos := hm.page_ref _ hi _ hj hpde hp
    show 1 ≤ ((m.incRef pp).pages (frame (m.pte d va))).ppRef ∧
      ((m.incRef pp).pages (frame (m.pte d va))).ppRef < 2 ^ 16
    by_cases hq : frame (m.pte d va) = pp
    · rw [hq, incRef_ref hmax]
      omega
    · rw [incRef_other m hq]
      exact ⟨hpos, hm.ref_lt _⟩
  · rw [incRef_link]
    exact hm.link _ (hm.page_free _ hi _ hj hpde hp)

theorem UserTree.inserted_over (hm : m.UserTree d free) (hpde : present (m.pde d va))
    (hp : present (m.pte d va)) (hva : va < utop) (hlt : pp < m.npages)
    (hfree : pp ∉ free) (hmax : (m.pages pp).ppRef < 2 ^ 16 - 1) (hperm : perm < 4096) :
    m.Inserted d pp va perm free
      ((((m.incRef pp).setWord (frame (m.pde d va)) (ptx va) 0).dropRef
        (frame (m.pte d va))).setWord (frame (m.pde d va)) (ptx va) (mkPte pp perm)) := by
  have hva32 : va < 2 ^ 32 := Nat.lt_trans hva (by decide)
  have hpp : pp < 2 ^ 20 := Nat.lt_of_lt_of_le hlt hm.npages_le
  have hi := pdx_lt_user hva
  have hj := ptx_lt va
  have hpos : 1 ≤ (m.pages (frame (m.pte d va))).ppRef := hm.page_ref _ hi _ hj hpde hp
  have hqfree : frame (m.pte d va) ∉ free := hm.page_free _ hi _ hj hpde hp
  have hold : m.mapped d va = some (frame (m.pte d va)) := by
    rw [mapped, translate_of_present hpde hp]
    rfl
  have htab : m.tableFor d va free = none := if_pos hpde
  obtain ⟨-, hw⟩ := hm.toTree.walk_present hpde (hm.low _ hi hpde)
  obtain ⟨hcpos, hclt⟩ : 1 ≤ ((m.incRef pp).pages (frame (m.pte d va))).ppRef ∧
      ((m.incRef pp).pages (frame (m.pte d va))).ppRef < 2 ^ 16 :=
    (hm.walkable hpde hva hmax).counted hp
  -- from here on only what `Removed` says about the state after the removal matters
  have hrem := removed_dropRef (t := frame (m.pde d va)) (i := ptx va) hcpos hclt
  have hmem : ((((m.incRef pp).setWord (frame (m.pde d va)) (ptx va) 0).dropRef
      (frame (m.pte d va))).setWord (frame (m.pde d va)) (ptx va) (mkPte pp perm)).mem =
      (m.setWord (frame (m.pde d va)) (ptx va) (mkPte pp perm)).mem := by
    rw [dropRef_setWord, dropRef_mem, setWord_setWord_mem]
    rfl
  generalize ((m.incRef pp).setWord (frame (m.pde d va)) (ptx va) 0).dropRef
    (frame (m.pte d va)) = m₃ at hrem hmem ⊢
  generalize frame (m.pte d va) = q at hpos hqfree hold hcpos hclt hrem
  have hcq : q ≠ pp → ((m.incRef pp).pages q).ppRef = (m.pages q).ppRef := fun hne => by
    rw [incRef_other m hne]
  refine ⟨maps_of_translate (hw.translate_self hmem) hpp hperm,
    fun va' hva' hne => hw.translate_other hmem hva32 hva' hne, fun hne => ?_, fun heq => ?_,
    fun q' hq' hne => ?_, ?_, fun q' hne hnq _ => ?_, ?_⟩
  · rw [hold] at hne
    show (m₃.pages pp).ppRef = _
    rw [hrem.others pp fun heq => hne (heq ▸ rfl)]
    exact incRef_ref hmax
  · rw [hold] at heq
    cases heq
    show (m₃.pages pp).ppRef = _
    rw [hrem.count, incRef_ref hmax, Nat.add_sub_cancel]
  · rw [hold] at hq'
    cases hq'
    show (m₃.pages q).ppRef = _
    rw [hrem.count, hcq hne]
  · simp [htab]
  · rw [hold] at hnq
    show m₃.pages q' = _
    rw [hrem.others q' fun heq => hnq (heq ▸ rfl), incRef_other m hne]
  · have hrest : Linked (fun p => (m₃.pages p).ppLink) m.pageFreeList free := by
      refine hm.linked.congr fun p hp => ?_
      rw [hrem.others p (ne_of_mem_of_not_mem hp hqfree), incRef_link]
    by_cases h1 : ((m.incRef pp).pages q).ppRef = 1
    · -- the last reference was dropped, so the page is not `pp`, which was counted first
      have hne : q ≠ pp := by
        rintro rfl
        rw [incRef_ref hmax] at h1
        omega
      obtain ⟨hlist, hlink⟩ := hrem.freed h1
      refine ⟨q :: free, ?_, fun q' => ?_⟩
      · show Linked (fun p => (m₃.pages p).ppLink) m₃.pageFreeList _
        rw [hlist]
        refine .cons ?_
        rw [hlink]
        exact hrest
      · have hzero : (m₃.pages q).ppRef = 0 := by rw [hrem.count, h1]
        simp only [hold, htab, List.mem_cons, ne_eq, reduceCtorEq, not_false_eq_true, and_true,
          Option.some.injEq]
        constructor
        · rintro (rfl | hq')
          · exact .inr ⟨rfl, hne, hzero⟩
          · exact .inl hq'
        · rintro (hq' | ⟨rfl, -⟩)
          · exact .inr hq'
          · exact .inl rfl
    · refine ⟨free, ?_, fun q' => ?_⟩
      · show Linked _ m₃.pageFreeList _
        rw [(hrem.kept h1).1]
        exact hrest
      · have hpos' : (m₃.pages q).ppRef ≠ 0 := by
          rw [hrem.count]
          omega
        simp only [hold, htab, ne_eq, reduceCtorEq, not_false_eq_true, and_true,
          Option.some.injEq]
        constructor
        · exact .inl
        · rintro (hq' | ⟨rfl, -, h0⟩)
          · exact hq'
          · exact absurd h0 hpos'

end Effect

end Mm

/-- **`page_insert` updates one mapping.**  Without a table and without a free
page it fails and changes nothing; otherwise it succeeds. -/
theorem page_insert_one_mapping (m : Mm) (d pp va perm cr3 : ℕ) (free : List ℕ)
    (h : m.UserTree d free) (hpp : pp < m.npages) (hfree : pp ∉ free)
    (hmax : (m.pages pp).ppRef < 2 ^ 16 - 1) (hva : va < utop) (hperm : perm < 4096) :
    (¬ present (m.pde d va) ∧ free = [] → pageInsert cr3 d pp va perm m = .ret (-eNoMem) m) ∧
    (¬ (¬ present (m.pde d va) ∧ free = []) →
      ∃ m', pageInsert cr3 d pp va perm m = .ret 0 m' ∧ m.Inserted d pp va perm free m') := by
  constructor
  · rintro ⟨hmiss, rfl⟩
    rw [pageInsert, ret_bind (h.toTree.walk_none hmiss)]
    rfl
  · intro hok
    have hfree' : present (m.pde d va) ∨ free ≠ [] := by
      by_contra hno
      exact hok ⟨fun hp => hno (.inl hp), by_contra fun hf => hno (.inr hf)⟩
    obtain ⟨t, m₁, free₁, hwalk, hw⟩ :=
      h.toTree.walk (h.low _ (pdx_lt_user hva)) hfree'
    by_cases hp : present (m₁.mem t (ptx va))
    · -- only a table that was there has entries
      rcases hw.pages with ⟨rfl, rfl⟩ | ⟨rfl, rfl, hmiss⟩
      · obtain rfl := hw.table_eq
        exact ⟨_, pageInsert_over perm hwalk rfl hp (h.walkable hw.table hva hmax),
          h.inserted_over hw.table hp hva hpp hfree hmax hperm⟩
      · rw [Mm.newTable_self hw.table_dir] at hp
        exact absurd hp not_present_zero
    · exact ⟨_, pageInsert_empty perm hwalk hp,
        hw.inserted_empty h hp hva hpp hfree hmax hperm⟩

/-! ### The window onto the page tables -/

/-- A directory in page 1 that maps nothing but itself, at `UVPT`; page 2 is
allocated, page 3 free. -/
def Demo.selfMap : Mm where
  npages := 8
  mem := fun p i => if p = 1 ∧ i = pdx uvpt then mkPte 1 pteU else 0
  pages := fun p => { ppRef := if p = 1 then 1 else 0, ppLink := none }
  pageFreeList := some 3
  kernPgdir := 1

theorem Demo.selfMap_entry {i : ℕ} (hp : present (selfMap.mem 1 i)) : i = pdx uvpt := by
  by_contra hne
  simp [selfMap, hne] at hp

theorem Demo.selfMap_tree : selfMap.UserTree 1 [3] := by
  have hframe : frame (selfMap.mem 1 (pdx uvpt)) = 1 := by decide
  have hlow : ∀ i < userPdes, ¬ present (selfMap.mem 1 i) := by
    intro i hi hp
    rw [selfMap_entry hp] at hi
    exact absurd hi (by decide)
  refine ⟨⟨by decide, fun i _ => ?_, fun i _ j _ hij hpi hpj _ => ?_, ?_, ?_, ?_, by decide,
    fun i _ hp => ?_⟩, fun i hi hp => absurd hp (hlow i hi), fun i hi j _ hp => absurd hp (hlow i hi),
    fun i hi j _ hp => absurd hp (hlow i hi), fun i hi j _ hp => absurd hp (hlow i hi),
    fun p => ?_, fun _ _ => rfl⟩
  · by_cases hi : i = pdx uvpt
    · rw [hi]
      decide
    · simp [selfMap, hi, frame_eq]
  · exact absurd ((selfMap_entry hpi).trans (selfMap_entry hpj).symm) hij
  · exact .cons .nil
  · simp [selfMap]
  · simp [selfMap]
  · rw [selfMap_entry hp, hframe]
    decide
  · simp only [selfMap]
    split <;> decide

theorem page_insert_one_mapping_self : ∃ m', pageInsert 1 1 2 0x5000 7 Demo.selfMap = .ret 0 m' ∧
    (m'.pages 2).ppRef = 1 ∧ (m'.pages 3).ppRef = 1 := by
  obtain ⟨-, hins⟩ := page_insert_one_mapping Demo.selfMap 1 2 0x5000 7 1 [3] Demo.selfMap_tree
    (by decide) (by decide) (by decide) (by decide) (by decide)
  obtain ⟨m', hrun, hm'⟩ := hins (by decide)
  exact ⟨m', hrun, hm'.up (by decide), hm'.table 3 (by decide)⟩

/-- Mapping page 2 at `0x5000` makes the first page of the window at `UVPT`
appear: the new page table. -/
theorem page_insert_shows_table : Demo.selfMap.UserTree 1 [3] ∧
    (2 < Demo.selfMap.npages ∧ 2 ∉ [3] ∧ (Demo.selfMap.pages 2).ppRef < 2 ^ 16 - 1) ∧
    uvpt / pgsize ≠ 0x5000 / pgsize ∧
    ∃ m', pageInsert 1 1 2 0x5000 7 Demo.selfMap = .ret 0 m' ∧
      Demo.selfMap.translate 1 uvpt = none ∧ m'.translate 1 uvpt ≠ none := by
  refine ⟨Demo.selfMap_tree, by decide, by decide, _, rfl, by decide, by decide⟩

end Jos
