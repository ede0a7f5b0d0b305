/-
What the MMU finds, and how stores into page tables change it.

`Mm.translate m d va` is the pair of entries the MMU goes through for `va`
under directory `d`.  `Mm.Tree` describes a two-level page table next to a free
list: no table serves two directory entries, except that entries may map the
directory itself, as the one at `UVPT` does.
-/
import Jos.Kern.PageOps

namespace Jos

open Prog

namespace Mm

/-- The entries the MMU goes through for `va`, if both are present. -/
def translate (m : Mm) (d va : ℕ) : Option (ℕ × ℕ) :=
  if m.kReads d va then some (m.pde d va, m.pte d va) else none

section Store

variable {m m' : Mm} {d va va' t w : ℕ}

theorem translate_of_absent (h : ¬ present (m.pde d va)) : m.translate d va = none :=
  if_neg fun hr => h hr.1

theorem translate_of_empty (h : ¬ present (m.pte d va)) : m.translate d va = none :=
  if_neg fun hr => h hr.2

theorem translate_of_present (h : present (m.pde d va)) (h' : present (m.pte d va)) :
    m.translate d va = some (m.pde d va, m.pte d va) :=
  if_pos ⟨h, h'⟩

theorem kReads_of_translate {e : ℕ × ℕ} (h : m.translate d va = some e) : m.kReads d va := by
  by_contra hno
  rw [translate, if_neg hno] at h
  cases h

theorem translate_eq (hpde : m'.pde d va' = m.pde d va)
    (hpte : present (m.pde d va) → m'.pte d va' = m.pte d va) :
    m'.translate d va' = m.translate d va := by
  by_cases hp : present (m.pde d va)
  · have hq := hpte hp
    by_cases he : present (m.pte d va)
    · rw [translate_of_present hp he, translate_of_present (by rwa [hpde]) (by rwa [hq]), hpde, hq]
    · rw [translate_of_empty he, translate_of_empty (by rwa [hq])]
  · rw [translate_of_absent hp, translate_of_absent (by rwa [hpde])]

theorem translate_congr (h : m'.mem = m.mem) (d va : ℕ) :
    m'.translate d va = m.translate d va :=
  translate_eq (by rw [pde, pde, h]) fun _ => by rw [pte, pte, pde, pde, h]

theorem index_ne (hva : va < 2 ^ 32) (hva' : va' < 2 ^ 32) (h : va' / pgsize ≠ va / pgsize)
    (hd : pdx va' = pdx va) : ptx va' ≠ ptx va := by
  rw [pdx_eq, pdx_eq] at hd
  rw [ptx_eq, ptx_eq]
  rw [pgsize] at h
  omega

theorem translate_store (hp : present (m.pde d va)) (ht : frame (m.pde d va) = t) (hd : t ≠ d)
    (hw : present w) : (m.setWord t (ptx va) w).translate d va = some (m.pde d va, w) := by
  have hpde : (m.setWord t (ptx va) w).pde d va = m.pde d va := by
    rw [pde, setWord_other m t _ w hd.symm, pde]
  have hpte : (m.setWord t (ptx va) w).pte d va = w := by
    rw [pte, hpde, ht, setWord_self]
  rw [translate_of_present (by rwa [hpde]) (by rwa [hpte]), hpde, hpte]

theorem translate_store_other (hd : t ≠ d)
    (hapart : ∀ j < 1024, j ≠ pdx va → present (m.mem d j) → frame (m.mem d j) ≠ t)
    (hva : va < 2 ^ 32) (hva' : va' < 2 ^ 32) (hne : va' / pgsize ≠ va / pgsize) (w : ℕ) :
    (m.setWord t (ptx va) w).translate d va' = m.translate d va' := by
  have hpde : (m.setWord t (ptx va) w).pde d va' = m.pde d va' := by
    rw [pde, setWord_other m t _ w hd.symm, pde]
  refine translate_eq hpde fun hp => ?_
  rw [pte, hpde, pte]
  by_cases hi : pdx va' = pdx va
  · -- the same table, at another index
    by_cases htab : frame (m.pde d va') = t
    · rw [htab, setWord_rest m t _ w (index_ne hva hva' hne hi)]
    · rw [setWord_other m t _ w htab]
  · have htab : frame (m.pde d va') ≠ t := hapart _ (pdx_lt va') hi hp
    rw [setWord_other m t _ w htab]

end Store

/-! ### Two-level page tables -/

/-- A page directory `d` and its tables, next to the free list `free`. -/
structure Tree (m : Mm) (d : ℕ) (free : List ℕ) : Prop where
  npages_le : m.npages ≤ 2 ^ 20
  /-- `pgdir_walk` applies `KADDR` to absent entries too; the kernel clears
  them. -/
  addr_lt : ∀ i < 1024, frame (m.mem d i) < m.npages
  /-- Only the directory itself serves more than one entry. -/
  tab_inj : ∀ i < 1024, ∀ j < 1024, i ≠ j → present (m.mem d i) → present (m.mem d j) →
    frame (m.mem d i) = frame (m.mem d j) → frame (m.mem d i) = d
  linked : Linked (fun p => (m.pages p).ppLink) m.pageFreeList free
  free_lt : ∀ p ∈ free, p < m.npages
  free_ref : ∀ p ∈ free, (m.pages p).ppRef = 0
  free_dir : d ∉ free
  free_tab : ∀ i < 1024, present (m.mem d i) → frame (m.mem d i) ∉ free

/-- `va'` lies in a window onto the page tables, at the place where the table
of `va` shows once there is one. -/
structure Window (m : Mm) (d va va' : ℕ) : Prop where
  table : present (m.pde d va')
  self : frame (m.pde d va') = d
  index : ptx va' = pdx va
  missing : ¬ present (m.pde d va)

/-- `pgdir_walk` gives `va` a new table, page `p`. -/
def newTable (m : Mm) (d va p : ℕ) : Mm :=
  ((m.alloc allocZero p).incRef p).setWord d (pdx va) (mkPte p (pteW ||| pteU))

section NewTable

variable {m : Mm} {d va va' p q t w : ℕ} {free : List ℕ}

theorem alloc_zero (m : Mm) (p : ℕ) : m.alloc allocZero p = (m.popFree p).setPage p fun _ => 0 :=
  if_pos (by decide)

theorem newTable_dir (h : p ≠ d) : (m.newTable d va p).mem d =
    Function.update (m.mem d) (pdx va) (mkPte p (pteW ||| pteU)) := by
  rw [newTable, alloc_zero]
  simp [setWord, setPage, h.symm]

theorem newTable_self (h : p ≠ d) : (m.newTable d va p).mem p = fun _ => 0 := by
  rw [newTable, alloc_zero, setWord_other _ _ _ _ h]
  simp [setPage]

theorem newTable_other (hd : q ≠ d) (hp : q ≠ p) : (m.newTable d va p).mem q = m.mem q := by
  rw [newTable, alloc_zero, setWord_other _ _ _ _ hd]
  simp [setPage, hp]

theorem newTable_page : (m.newTable d va p).pages p =
    { ppRef := ((m.pages p).ppRef + 1) % 2 ^ 16, ppLink := none } := by
  rw [newTable, alloc_zero]
  simp [setPage, incRef, popFree, updPage]

theorem newTable_page_other (h : q ≠ p) : (m.newTable d va p).pages q = m.pages q := by
  rw [newTable, alloc_zero]
  simp [setPage, incRef, popFree, updPage, h]

theorem newTable_freeList : (m.newTable d va p).pageFreeList = (m.pages p).ppLink := by
  rw [newTable, alloc_zero]
  rfl

theorem newTable_npages : (m.newTable d va p).npages = m.npages := by
  rw [newTable, alloc_zero]
  rfl

variable (h : m.Tree d (p :: free)) (hmiss : ¬ present (m.pde d va))

include h

theorem Tree.fresh_ne_dir : p ≠ d := by
  rintro rfl
  exact h.free_dir List.mem_cons_self

theorem Tree.entry_new : present (mkPte p (pteW ||| pteU)) ∧ frame (mkPte p (pteW ||| pteU)) = p :=
  ⟨present_mkPte _ _, frame_mkPte_of_lt
    (Nat.lt_of_lt_of_le (h.free_lt p List.mem_cons_self) h.npages_le) (by decide)⟩

theorem Tree.walk_new (hmiss : ¬ present (m.pde d va)) :
    pgdirWalk d va true m = .ret (some (p, ptx va)) (m.newTable d va p) := by
  have hp : p < m.npages := h.free_lt p List.mem_cons_self
  have hframe : pgnum (pteAddr (mkPte p (pteW ||| pteU))) = p := h.entry_new.2
  have hmiss : ¬ present (m.mem d (pdx va)) := hmiss
  rw [pgdirWalk, get_bind]
  simp only
  rw [ret_bind (kaddr_eq (h.addr_lt _ (pdx_lt va))), if_neg hmiss, if_pos trivial,
    ret_bind (pageAlloc_eq h.linked.head hp allocZero)]
  simp only
  rw [modify_bind, modify_bind, ret_bind (kaddr_eq (by rw [hframe]; exact hp)), hframe]
  rfl

theorem Tree.newTable_pde : (m.newTable d va p).pde d va = mkPte p (pteW ||| pteU) := by
  rw [pde, newTable_dir h.fresh_ne_dir, Function.update_self]

theorem Tree.newTable_entry {i : ℕ} (hi : i ≠ pdx va) :
    (m.newTable d va p).mem d i = m.mem d i := by
  rw [newTable_dir h.fresh_ne_dir, Function.update_of_ne hi]

include hmiss in
theorem Tree.newTable_translate (va' : ℕ) :
    (m.newTable d va p).translate d va' = m.translate d va' ∨ m.Window d va va' := by
  by_cases hi : pdx va' = pdx va
  · left
    have hold : ¬ present (m.pde d va') := by rwa [pde, hi]
    have hpde : (m.newTable d va p).pde d va' = mkPte p (pteW ||| pteU) := by
      rw [pde, hi]
      exact h.newTable_pde
    have hnew : ¬ present ((m.newTable d va p).pte d va') := by
      rw [pte, hpde, h.entry_new.2, newTable_self h.fresh_ne_dir]
      exact not_present_zero
    rw [translate_of_absent hold, translate_of_empty hnew]
  · have hpde : (m.newTable d va p).pde d va' = m.pde d va' := h.newTable_entry hi
    by_cases hp : present (m.pde d va')
    · by_cases hself : frame (m.pde d va') = d
      · -- the entry is an entry of the directory
        by_cases hx : ptx va' = pdx va
        · exact .inr ⟨hp, hself, hx, hmiss⟩
        · refine .inl (translate_eq hpde fun _ => ?_)
          rw [pte, hpde, pte, hself]
          exact h.newTable_entry hx
      · refine .inl (translate_eq hpde fun _ => ?_)
        have hne : frame (m.pde d va') ≠ p := fun heq =>
          h.free_tab _ (pdx_lt va') hp (by rw [← pde, heq]; exact List.mem_cons_self)
        rw [pte, hpde, pte, newTable_other hself hne]
    · exact .inl (translate_eq hpde fun hp' => absurd hp' hp)

theorem Tree.newTable_tree : (m.newTable d va p).Tree d free := by
  obtain ⟨hpn, hpf⟩ := h.entry_new
  have hnd := List.nodup_cons.mp h.linked.nodup
  -- no old entry leads to the new table
  have hapart : ∀ i < 1024, i ≠ pdx va → present ((m.newTable d va p).mem d i) →
      frame ((m.newTable d va p).mem d i) ≠ p := by
    intro i hi hne hpi heq
    rw [h.newTable_entry hne] at hpi heq
    exact h.free_tab i hi hpi (by rw [heq]; exact List.mem_cons_self)
  have hnew : (m.newTable d va p).mem d (pdx va) = mkPte p (pteW ||| pteU) := h.newTable_pde
  refine ⟨?_, fun i hi => ?_, fun i hi j hj hij hpi hpj heq => ?_, ?_, fun q hq => ?_,
    fun q hq => ?_, fun hd => h.free_dir (List.mem_cons_of_mem p hd), fun i hi hpi hmem => ?_⟩
  · rw [newTable_npages]
    exact h.npages_le
  · rw [newTable_npages]
    by_cases hne : i = pdx va
    · rw [hne, hnew, hpf]
      exact h.free_lt p List.mem_cons_self
    · rw [h.newTable_entry hne]
      exact h.addr_lt i hi
  · by_cases hne : i = pdx va
    · subst hne
      rw [hnew, hpf] at heq
      exact absurd heq.symm (hapart j hj hij.symm hpj)
    · by_cases hne' : j = pdx va
      · subst hne'
        rw [hnew, hpf] at heq
        exact absurd heq (hapart i hi hne hpi)
      · rw [h.newTable_entry hne] at hpi heq ⊢
        rw [h.newTable_entry hne'] at hpj heq
        exact h.tab_inj i hi j hj hij hpi hpj heq
  · rw [newTable_freeList]
    refine h.linked.tail.congr fun q hq => ?_
    rw [newTable_page_other (ne_of_mem_of_not_mem hq hnd.1)]
  · rw [newTable_npages]
    exact h.free_lt q (List.mem_cons_of_mem p hq)
  · rw [newTable_page_other (ne_of_mem_of_not_mem hq hnd.1)]
    exact h.free_ref q (List.mem_cons_of_mem p hq)
  · by_cases hne : i = pdx va
    · rw [hne, hnew, hpf] at hmem
      exact hnd.1 hmem
    · rw [h.newTable_entry hne] at hpi hmem
      exact h.free_tab i hi hpi (List.mem_cons_of_mem p hmem)

end NewTable

/-! ### The walk -/

/-- What `pgdir_walk(d, va, true)` leaves when it returns an entry of table
`t`: the table is there and serves `va` only, and nothing is mapped that was
not mapped before. -/
structure Walked (m : Mm) (d va : ℕ) (free : List ℕ) (t : ℕ) (m₁ : Mm) (free₁ : List ℕ) :
    Prop where
  tree : m₁.Tree d free₁
  table : present (m₁.pde d va)
  table_eq : frame (m₁.pde d va) = t
  table_dir : t ≠ d
  others : ∀ va', m₁.translate d va' = m.translate d va' ∨ m.Window d va va'
  pages : m₁ = m ∧ free₁ = free ∨ m₁ = m.newTable d va t ∧ free = t :: free₁ ∧
    ¬ present (m.pde d va)

section Walk

variable {m m₁ : Mm} {d va t : ℕ} {free free₁ : List ℕ}

theorem Walked.apart (h : m.Walked d va free t m₁ free₁) : ∀ j < 1024, j ≠ pdx va →
    present (m₁.mem d j) → frame (m₁.mem d j) ≠ t := by
  intro j hj hne hp heq
  have := h.tree.tab_inj j hj (pdx va) (pdx_lt va) hne hp h.table (heq.trans h.table_eq.symm)
  exact h.table_dir (heq.symm.trans this)

theorem Tree.walk_present (h : m.Tree d free) (hp : present (m.pde d va))
    (hself : frame (m.pde d va) ≠ d) :
    pgdirWalk d va true m = .ret (some (frame (m.pde d va), ptx va)) m ∧
      m.Walked d va free (frame (m.pde d va)) m free := by
  exact ⟨pgdirWalk_present true hp (h.addr_lt _ (pdx_lt va)),
    h, hp, rfl, hself, fun _ => .inl rfl, .inl ⟨rfl, rfl⟩⟩

theorem Tree.walk_none (h : m.Tree d []) (hmiss : ¬ present (m.pde d va)) :
    pgdirWalk d va true m = .ret none m := by
  have hmiss : ¬ present (m.mem d (pdx va)) := hmiss
  have hl : m.pageFreeList = none := h.linked.eq_none
  rw [pgdirWalk, get_bind]
  simp only
  rw [ret_bind (kaddr_eq (h.addr_lt _ (pdx_lt va))), if_neg hmiss, if_pos trivial,
    ret_bind (pageAlloc_none hl allocZero)]
  rfl

theorem Tree.walk (h : m.Tree d free) (hself : present (m.pde d va) → frame (m.pde d va) ≠ d)
    (hfree : present (m.pde d va) ∨ free ≠ []) : ∃ t m₁ free₁,
      pgdirWalk d va true m = .ret (some (t, ptx va)) m₁ ∧ m.Walked d va free t m₁ free₁ := by
  by_cases hp : present (m.pde d va)
  · obtain ⟨hwalk, hw⟩ := h.walk_present hp (hself hp)
    exact ⟨_, m, free, hwalk, hw⟩
  · cases free with
    | nil => exact absurd rfl (hfree.resolve_left hp)
    | cons p free =>
      refine ⟨p, _, free, h.walk_new hp, h.newTable_tree, ?_, ?_, h.fresh_ne_dir,
        h.newTable_translate hp, .inr ⟨rfl, rfl, hp⟩⟩
      · rw [h.newTable_pde]
        exact h.entry_new.1
      · rw [h.newTable_pde]
        exact h.entry_new.2

theorem Tree.store (h : m.Tree d free) (ht : t ≠ d) (i w : ℕ) : (m.setWord t i w).Tree d free := by
  have hdir : (m.setWord t i w).mem d = m.mem d := setWord_other m t i w ht.symm
  refine ⟨h.npages_le, ?_, ?_, h.linked, h.free_lt, h.free_ref, h.free_dir, ?_⟩
  · rw [hdir]
    exact h.addr_lt
  · rw [hdir]
    exact h.tab_inj
  · rw [hdir]
    exact h.free_tab

end Walk

end Mm

end Jos
