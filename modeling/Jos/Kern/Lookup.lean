/-
`page_lookup` and `page_remove` at an arbitrary address of an arbitrary page
directory.

`page_lookup` reads `*pte` before it compares `pte` with `NULL`, so it is only
safe where the page table exists.

* `page_lookup_remove` — there, and only there, it finds the present entry or
  nothing, and `page_remove` clears that entry and drops one reference, or does
  nothing;
* `page_lookup_reads_null` — a directory without the table.
-/
import Jos.Kern.PageOps

namespace Jos

open Prog Demo

/-- The table of `va` exists; if a page is mapped there, it is one of the
machine's pages, and its count includes the mapping. -/
structure Mm.Walkable (m : Mm) (d va : ℕ) : Prop where
  table : present (m.pde d va)
  table_lt : frame (m.pde d va) < m.npages
  page_lt : present (m.pte d va) → frame (m.pte d va) < m.npages
  counted : present (m.pte d va) → 1 ≤ (m.pages (frame (m.pte d va))).ppRef ∧
    (m.pages (frame (m.pte d va))).ppRef < 2 ^ 16
  unlinked : present (m.pte d va) → (m.pages (frame (m.pte d va))).ppRef = 1 →
    (m.pages (frame (m.pte d va))).ppLink = none

/-- Entry `i` of table `t`, which named page `p`, is cleared, and one reference
to `p` is dropped. -/
structure Mm.Removed (m : Mm) (t i p : ℕ) (m' : Mm) : Prop where
  entry : m'.mem t i = 0
  mem : ∀ q k, (q ≠ t ∨ k ≠ i) → m'.mem q k = m.mem q k
  count : (m'.pages p).ppRef = (m.pages p).ppRef - 1
  others : ∀ q, q ≠ p → m'.pages q = m.pages q
  freed : (m.pages p).ppRef = 1 →
    m'.pageFreeList = some p ∧ (m'.pages p).ppLink = m.pageFreeList
  kept : (m.pages p).ppRef ≠ 1 →
    m'.pageFreeList = m.pageFreeList ∧ (m'.pages p).ppLink = (m.pages p).ppLink
  trace : m'.trace = m.trace

section

variable {m : Mm} {d va cr3 p t i : ℕ}

theorem Mm.decRef_self (m : Mm) (p : ℕ) : (m.decRef p).pages p =
    { m.pages p with ppRef := ((m.pages p).ppRef + (2 ^ 16 - 1)) % 2 ^ 16 } :=
  Function.update_self ..

theorem Mm.decRef_ref (h : 1 ≤ (m.pages p).ppRef) (hlt : (m.pages p).ppRef < 2 ^ 16) :
    ((m.decRef p).pages p).ppRef = (m.pages p).ppRef - 1 := by
  rw [decRef_self]
  simp only
  omega

theorem Mm.dropRef_other (m : Mm) (p : ℕ) {q : ℕ} (h : q ≠ p) :
    (m.dropRef p).pages q = m.pages q := by
  unfold dropRef
  split <;> simp [decRef, pushFree, updPage, h]

theorem Mm.dropRef_last (h : ((m.decRef p).pages p).ppRef = 0) :
    (m.dropRef p).pageFreeList = some p ∧ ((m.dropRef p).pages p).ppLink = m.pageFreeList ∧
      ((m.dropRef p).pages p).ppRef = 0 := by
  rw [dropRef, if_pos h]
  exact ⟨rfl, by simp [pushFree, updPage, decRef], by simpa [pushFree, updPage] using h⟩

theorem Mm.dropRef_shared (h : ((m.decRef p).pages p).ppRef ≠ 0) : m.dropRef p = m.decRef p :=
  if_neg h

theorem Mm.removed_dropRef (h : 1 ≤ (m.pages p).ppRef) (hlt : (m.pages p).ppRef < 2 ^ 16) :
    m.Removed t i p ((m.setWord t i 0).dropRef p) where
  entry := by rw [dropRef_mem, setWord_self]
  mem q k hqk := by
    rw [dropRef_mem]
    by_cases hq : q = t
    · subst hq
      exact setWord_rest m q i 0 (hqk.resolve_left fun hne => hne rfl)
    · rw [setWord_other m t i 0 hq]
  count := by
    have href := decRef_ref (m := m.setWord t i 0) h hlt
    by_cases h0 : (((m.setWord t i 0).decRef p).pages p).ppRef = 0
    · rw [(dropRef_last h0).2.2, ← h0]
      exact href
    · rw [dropRef_shared h0]
      exact href
  others q hq := dropRef_other _ p hq
  freed h1 := by
    have h0 : (((m.setWord t i 0).decRef p).pages p).ppRef = 0 := by
      rw [decRef_ref (m := m.setWord t i 0) h hlt]
      show (m.pages p).ppRef - 1 = 0
      omega
    exact ⟨(dropRef_last h0).1, (dropRef_last h0).2.1⟩
  kept h1 := by
    have h0 : (((m.setWord t i 0).decRef p).pages p).ppRef ≠ 0 := by
      rw [decRef_ref (m := m.setWord t i 0) h hlt]
      show (m.pages p).ppRef - 1 ≠ 0
      omega
    rw [dropRef_shared h0, decRef_self]
    exact ⟨rfl, rfl⟩
  trace := by rw [dropRef_trace, setWord_trace]

theorem Mm.Walkable.lookup (h : m.Walkable d va) : pageLookup cr3 d va m =
    .ret ((entry (m.pte d va)).map (·, frame (m.pde d va), ptx va)) m :=
  pageLookup_present h.table h.table_lt h.page_lt

theorem Mm.Walkable.lookup_absent (h : m.Walkable d va) (hp : ¬ present (m.pte d va)) :
    pageLookup cr3 d va m = .ret none m := by
  rw [h.lookup, entry_eq_none.mpr hp]
  rfl

theorem Mm.Walkable.lookup_present (h : m.Walkable d va) (hp : present (m.pte d va)) :
    pageLookup cr3 d va m =
      .ret (some (frame (m.pte d va), frame (m.pde d va), ptx va)) m := by
  rw [h.lookup, entry_eq_some.mpr ⟨hp, rfl⟩]
  rfl

theorem Mm.Walkable.remove_present (h : m.Walkable d va) (hp : present (m.pte d va)) :
    pageRemove cr3 d va m =
      .ret () ((m.setWord (frame (m.pde d va)) (ptx va) 0).dropRef (frame (m.pte d va))) := by
  obtain ⟨hpos, hlt⟩ := h.counted hp
  have hdec : pageDecref (frame (m.pte d va)) m = .ret () (m.dropRef (frame (m.pte d va))) := by
    refine pageDecref_of_last fun h0 => h.unlinked hp ?_
    rw [Mm.decRef_ref hpos hlt] at h0
    omega
  rw [pageRemove, ret_bind (h.lookup_present hp)]
  show (do
    pageDecref (frame (m.pte d va))
    modify (·.setWord (frame (m.pde d va)) (ptx va) 0) : MmM Unit) m = _
  rw [ret_bind hdec, ← Mm.dropRef_setWord]
  rfl

theorem pageDecref_ret {m₁ : Mm} (h : pageDecref p m = .ret () m₁) :
    m₁ = m.dropRef p ∧ (((m.decRef p).pages p).ppRef = 0 → (m.pages p).ppLink = none) := by
  have hlink : ((m.decRef p).pages p).ppRef = 0 → (m.pages p).ppLink = none := by
    intro h0
    by_contra hno
    have hno' : ((m.decRef p).pages p).ppLink ≠ none := by rwa [Mm.decRef_self]
    rw [pageDecref, modify_bind, get_bind, when, if_pos h0, pageFree, get_bind,
      if_neg (not_not.mpr h0), if_pos hno'] at h
    cases h
  rw [pageDecref_of_last hlink] at h
  cases h
  exact ⟨rfl, hlink⟩

theorem Mm.walkable_of_lookup (hl : m.kReads d va → pageLookup cr3 d va m =
      .ret (some (frame (m.pte d va), frame (m.pde d va), ptx va)) m)
    (hn : ¬ m.kReads d va → pageLookup cr3 d va m = .ret none m) :
    present (m.pde d va) ∧ frame (m.pde d va) < m.npages ∧
      (present (m.pte d va) → frame (m.pte d va) < m.npages) := by
  have hret : ∃ r, pageLookup cr3 d va m = .ret r m := by
    by_cases hr : m.kReads d va
    · exact ⟨_, hl hr⟩
    · exact ⟨_, hn hr⟩
  obtain ⟨r, hret⟩ := hret
  have hlt : frame (m.pde d va) < m.npages := by
    by_contra hno
    obtain ⟨st, hst⟩ := pgdirWalk_panics false hno
    rw [pageLookup, stop_bind hst] at hret
    cases hret
  have hp : present (m.pde d va) := by
    by_contra hno
    -- the null read is on the trace
    have htrace := congrArg (·.trace.length) ((pageLookup_null hlt hno).ret hret).2
    exact Nat.succ_ne_self _ htrace.symm
  refine ⟨hp, hlt, fun hpte => ?_⟩
  by_contra hno
  rw [pageLookup_eq hp hlt, if_pos hpte, stop_bind (pa2page_stop hno)] at hret
  cases hret

end

/-- **Lookup and removal** are what they should be exactly where the table
exists and the entry, if present, names a page that is counted: whatever is
mapped at address 0 in the address space loaded. -/
theorem page_lookup_remove (m : Mm) (d va cr3 : ℕ) (href : ∀ p, (m.pages p).ppRef < 2 ^ 16) :
    m.Walkable d va ↔
    (m.kReads d va → pageLookup cr3 d va m =
      .ret (some (frame (m.pte d va), frame (m.pde d va), ptx va)) m) ∧
    (¬ m.kReads d va → pageLookup cr3 d va m = .ret none m) ∧
    (¬ m.kReads d va → pageRemove cr3 d va m = .ret () m) ∧
    (m.kReads d va → ∃ m', pageRemove cr3 d va m = .ret () m' ∧
      m.Removed (frame (m.pde d va)) (ptx va) (frame (m.pte d va)) m') := by
  constructor
  · intro h
    have habsent : ¬ m.kReads d va → ¬ present (m.pte d va) := fun hr hp => hr ⟨h.table, hp⟩
    refine ⟨fun hr => h.lookup_present hr.2, fun hr => h.lookup_absent (habsent hr), fun hr => ?_,
      fun hr => ?_⟩
    · rw [pageRemove, ret_bind (h.lookup_absent (habsent hr))]
      rfl
    · obtain ⟨hpos, hlt⟩ := h.counted hr.2
      exact ⟨_, h.remove_present hr.2, Mm.removed_dropRef hpos hlt⟩
  · rintro ⟨hl, hn, -, hremove⟩
    obtain ⟨hp, hlt, hfr⟩ := Mm.walkable_of_lookup hl hn
    have hdec : present (m.pte d va) → 1 ≤ (m.pages (frame (m.pte d va))).ppRef ∧
        ((m.pages (frame (m.pte d va))).ppRef = 1 →
          (m.pages (frame (m.pte d va))).ppLink = none) := by
      intro hpte
      obtain ⟨m', hrun, hm'⟩ := hremove ⟨hp, hpte⟩
      rw [pageRemove, ret_bind (hl ⟨hp, hpte⟩)] at hrun
      change (do
        pageDecref (frame (m.pte d va))
        modify (·.setWord (frame (m.pde d va)) (ptx va) 0) : MmM Unit) m = _ at hrun
      cases hd : pageDecref (frame (m.pte d va)) m with
      | stop st m₁ =>
        rw [stop_bind hd] at hrun
        cases hrun
      | ret _ m₁ =>
        obtain ⟨rfl, hlink⟩ := pageDecref_ret hd
        rw [ret_bind hd] at hrun
        cases hrun
        have hself : ((m.decRef (frame (m.pte d va))).pages (frame (m.pte d va))).ppRef =
            ((m.pages (frame (m.pte d va))).ppRef + (2 ^ 16 - 1)) % 2 ^ 16 := by rw [Mm.decRef_self]
        refine ⟨Nat.one_le_iff_ne_zero.mpr fun h0 => ?_, fun h1 => hlink ?_⟩
        · -- the count wraps around
          rw [h0] at hself
          have hcount := hm'.count
          rw [h0, Mm.setWord_pages, Mm.dropRef_shared (by rw [hself]; decide), hself] at hcount
          exact absurd hcount (by decide)
        · rw [hself, h1]
          decide
    exact ⟨hp, hlt, hfr, fun hpte => ⟨(hdec hpte).1, href _⟩, fun hpte => (hdec hpte).2⟩

def Demo.oneTable : Mm where
  npages := 8
  mem := fun p i =>
    if p = 1 ∧ i = 0 then mkPte 2 (pteW ||| pteU)
    else if p = 2 ∧ i = 5 then mkPte 3 (pteW ||| pteU)
    else 0
  pages := fun p => { ppRef := if p ≤ 3 then 1 else 0, ppLink := none }
  pageFreeList := none
  kernPgdir := 1

theorem page_lookup_remove_one : ∃ m', pageRemove 1 1 0x5000 oneTable = .ret () m' ∧
    m'.pageFreeList = some 3 := by
  have hw : oneTable.Walkable 1 0x5000 :=
    ⟨by decide, by decide, fun _ => by decide, fun _ => by decide, fun _ _ => by decide⟩
  have href : ∀ p, (oneTable.pages p).ppRef < 2 ^ 16 := fun p => by
    show (if p ≤ 3 then 1 else 0) < 2 ^ 16
    split <;> decide
  obtain ⟨-, -, -, hremove⟩ := (page_lookup_remove oneTable 1 0x5000 1 href).mp hw
  obtain ⟨m', hrun, hm'⟩ := hremove (by decide)
  exact ⟨m', hrun, (hm'.freed (by decide)).1⟩

/-- Without a table for the address, both read through a null pointer, and the
kernel faults. -/
theorem page_lookup_reads_null :
    ¬ present (oneTable.pde 1 0x400000) ∧
    (∃ m', pageLookup 1 1 0x400000 oneTable = .stop kernelFault m' ∧ .nullPte ∈ m'.trace) ∧
    ∃ m', pageRemove 1 1 0x400000 oneTable = .stop kernelFault m' ∧ .nullPte ∈ m'.trace := by
  have hlog : Obs.nullPte ∈ (oneTable.log .nullPte).trace := List.mem_cons_self
  exact ⟨by decide, ⟨_, rfl, hlog⟩, _, rfl, hlog⟩

end Jos
