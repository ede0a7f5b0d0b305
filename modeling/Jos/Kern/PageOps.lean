/-
The functions of `kern/pmap.c`, in a state that meets `PageInv`.

None of them panics there; the one thing that can go wrong is a lookup of an
address that has no page table, which reads through a null pointer
(`pageLookup_null`).

* `pageAlloc_eq`, `PageInv.alloc` — taking a page off the list;
* `wp_pgdirWalk_create`, `pageLookup_table`, `PageInv.remove`,
  `wp_pageInsert` — one address;
* `PageInv.setByte` — a byte of a user page.
-/
import Jos.Kern.PageInv

namespace Jos

open Prog Function

variable {dirs : ℕ → Option ℕ} {m : Mm} {perm pp : ℕ}

/-! ### Addresses of pages -/

theorem kaddr_eq {pa : ℕ} (h : pgnum pa < m.npages) : kaddr pa m = .ret (pgnum pa) m := by
  rw [kaddr, get_bind, if_neg (Nat.not_le.mpr h)]
  rfl

theorem pa2page_eq {pa : ℕ} (h : pgnum pa < m.npages) : pa2page pa m = .ret (pgnum pa) m := by
  rw [pa2page, get_bind, if_neg (Nat.not_le.mpr h)]
  rfl

theorem kaddr_stop {pa : ℕ} (h : ¬ pgnum pa < m.npages) :
    kaddr pa m = .stop (.panic "KADDR called with invalid pa") m := by
  rw [kaddr, get_bind, if_pos (Nat.le_of_not_lt h)]
  rfl

theorem pa2page_stop {pa : ℕ} (h : ¬ pgnum pa < m.npages) :
    pa2page pa m = .stop (.panic "pa2page called with invalid pa") m := by
  rw [pa2page, get_bind, if_pos (Nat.le_of_not_lt h)]
  rfl

@[simp] theorem pgnum_page2pa (pp : ℕ) : pgnum (page2pa pp) = pp :=
  Nat.shiftLeft_shiftRight pp 12

theorem page2kva_eq (h : pp < m.npages) : page2kva pp m = .ret pp m := by
  have hlt : pgnum (page2pa pp) < m.npages := by rwa [pgnum_page2pa]
  have heq := kaddr_eq hlt
  rwa [pgnum_page2pa] at heq

/-! ### Allocation -/

def Mm.alloc (m : Mm) (allocFlags p : ℕ) : Mm :=
  if allocFlags &&& allocZero ≠ 0 then (m.popFree p).setPage p fun _ => 0 else m.popFree p

theorem pageAlloc_none (hl : m.pageFreeList = none) (allocFlags : ℕ) :
    pageAlloc allocFlags m = .ret none m := by
  rw [pageAlloc, get_bind, hl]
  rfl

theorem pageAlloc_eq {p : ℕ} (hl : m.pageFreeList = some p) (hp : p < m.npages) (allocFlags : ℕ) :
    pageAlloc allocFlags m = .ret (some p) (m.alloc allocFlags p) := by
  rw [pageAlloc, get_bind, hl]
  simp only
  rw [modify_bind, Mm.alloc]
  by_cases hz : allocFlags &&& allocZero ≠ 0
  · rw [if_pos hz, if_pos hz, ret_bind (page2kva_eq (m := m.popFree p) hp)]
    rfl
  · rw [if_neg hz, if_neg hz]
    rfl

@[simp] theorem Mm.alloc_trace (m : Mm) (allocFlags p : ℕ) :
    (m.alloc allocFlags p).trace = m.trace := by
  unfold Mm.alloc
  split <;> rfl

/-- A page in the hands of `page_alloc`'s caller. -/
structure Fresh (B : MemCtx) (dirs : ℕ → Option ℕ) (m : Mm) (p : ℕ) : Prop where
  pool : p ∈ B.pool
  refs : refs allRefs (target dirs m.mem) p = 0

theorem Fresh.noTable {B : MemCtx} {p : ℕ} (h : Fresh B dirs m p) : NoTable dirs m p :=
  fun r hr _ => refs_eq_zero.mp h.refs r hr

/-- An address below `UTOP` of environment `e`, whose directory is `d`. -/
structure UserVa (dirs : ℕ → Option ℕ) (e d va : ℕ) : Prop where
  slot : e < nenv
  dir : dirs e = some d
  user : pdx va < userPdes

theorem UserVa.of_lt {e d va : ℕ} (he : e < nenv) (hd : dirs e = some d) (hva : va < utop) :
    UserVa dirs e d va :=
  ⟨he, hd, pdx_lt_user hva⟩

theorem UserVa.tab {e d va : ℕ} (h : UserVa dirs e d va) : Ref.tab e (pdx va) ∈ allRefs :=
  mem_allRefs.mpr ⟨h.slot, h.user⟩

theorem UserVa.page {e d va : ℕ} (h : UserVa dirs e d va) : Ref.page e (pdx va) (ptx va) ∈ allRefs :=
  mem_allRefs.mpr ⟨h.slot, h.user, ptx_lt va⟩

section Ops

variable {B : MemCtx} {dirs : ℕ → Option ℕ} {held hand : List ℕ} {m : Mm}
  {cr3 e d t p va : ℕ}

theorem PageInv.alloc (h : PageInv B dirs held hand m) (hl : m.pageFreeList = some p)
    (allocFlags : ℕ) :
    PageInv B dirs (p :: held) hand (m.alloc allocFlags p) ∧ Fresh B dirs m p ∧
      p ∉ hand ∧ p ∉ held ∧
      ∀ r ∈ allRefs, target dirs (m.alloc allocFlags p).mem r = target dirs m.mem r := by
  obtain ⟨hp, h0, hhand, hheld, hpop⟩ := h.popFree hl
  have hf : Fresh B dirs m p := ⟨hp, h0⟩
  unfold Mm.alloc
  by_cases hz : allocFlags &&& allocZero ≠ 0
  · rw [if_pos hz]
    have hset := hpop.setMem ((m.popFree p).setPage p fun _ => 0) hp hf.noTable
      (fun q hq => update_of_ne hq _ _) rfl rfl rfl rfl
    exact ⟨hset.1, hf, hhand, hheld, hset.2⟩
  · rw [if_neg hz]
    exact ⟨hpop, hf, hhand, hheld, fun _ _ => rfl⟩

theorem Shape.lt_npages (h : Shape B dirs m) (hp : p ∈ B.pool) : p < m.npages := by
  rw [h.npages]
  exact MemCtx.lt_of_pool hp

theorem PageInv.pageAlloc (h : PageInv B dirs held hand m) (hl : m.pageFreeList = some p)
    (allocFlags : ℕ) : pageAlloc allocFlags m = .ret (some p) (m.alloc allocFlags p) :=
  pageAlloc_eq hl (h.shape.lt_npages (h.popFree hl).1) allocFlags

/-! ### Walking a directory -/

theorem Shape.frame_lt (h : Shape B dirs m) (he : e < nenv) (hd : dirs e = some d) {i : ℕ}
    (hi : i < 1024) : frame (m.mem d i) < m.npages := by
  by_cases hu : i < userPdes
  · by_cases hpres : present (m.mem d i)
    · refine h.lt_npages (h.pool (.tab e i) (mem_allRefs.mpr ⟨he, hu⟩) _ ?_)
      rw [target_tab hd]
      exact entry_eq_some.mpr ⟨hpres, rfl⟩
    · rw [h.lower e he d hd i hu hpres, h.npages]
      exact B.npages_pos
  · have hu : userPdes ≤ i := Nat.not_lt.mp hu
    rw [h.upper e he d hd i hu hi]
    split
    · have hdp := h.pool (.dir e) (mem_allRefs.mpr he) d hd
      rw [frame_mkPte_of_lt (MemCtx.lt_two_pow hdp) (by decide)]
      exact h.lt_npages hdp
    · rw [h.npages]
      exact B.booted.upper_lt i hu hi

theorem pgdirWalk_false (h : frame (m.mem d (pdx va)) < m.npages) :
    pgdirWalk d va false m = .ret ((entry (m.mem d (pdx va))).map (·, ptx va)) m := by
  rw [pgdirWalk, get_bind]
  simp only
  rw [ret_bind (kaddr_eq h), entry]
  by_cases hp : present (m.mem d (pdx va))
  · rw [if_pos hp, if_pos hp]
    rfl
  · rw [if_neg hp, if_neg hp]
    rfl

theorem pgdirWalk_present (create : Bool) (hp : present (m.mem d (pdx va)))
    (hlt : frame (m.mem d (pdx va)) < m.npages) :
    pgdirWalk d va create m = .ret (some (frame (m.mem d (pdx va)), ptx va)) m := by
  rw [pgdirWalk, get_bind]
  simp only
  rw [ret_bind (kaddr_eq hlt), if_pos hp]
  rfl

theorem wp_pgdirWalk_create (h : PageInv B dirs held hand m) (ha : UserVa dirs e d va) :
    wp (pgdirWalk d va true) (fun r m' =>
      (r = none ∧ m' = m) ∨
      (∃ t, r = some (t, ptx va) ∧ m' = m ∧ target dirs m.mem (.tab e (pdx va)) = some t) ∨
      ∃ t, r = some (t, ptx va) ∧ PageInv B dirs held hand m' ∧ Fresh B dirs m t ∧ t ∉ held ∧
        target dirs m.mem (.tab e (pdx va)) = none ∧ m'.trace = m.trace ∧
        ∀ r ∈ allRefs, target dirs m'.mem r =
          update (target dirs m.mem) (.tab e (pdx va)) (some t) r)
      (fun _ _ => False) m := by
  have hlt := h.shape.frame_lt ha.slot ha.dir (pdx_lt va)
  rw [pgdirWalk, wp_bind, wp_get]
  simp only
  rw [wp_bind_of_ret (kaddr_eq hlt), wp_ite]
  refine ⟨fun hpres => .inr (.inl ⟨_, rfl, rfl, ?_⟩), fun hpres => ?_⟩
  · rw [target_tab ha.dir]
    exact entry_eq_some.mpr ⟨hpres, rfl⟩
  have hnone : target dirs m.mem (.tab e (pdx va)) = none := by
    rw [target_tab ha.dir, entry_eq_none]
    exact hpres
  rw [if_pos trivial, wp_bind]
  cases hl : m.pageFreeList with
  | none =>
    rw [wp_of_ret (pageAlloc_none hl _)]
    exact .inl ⟨rfl, rfl⟩
  | some p =>
    rw [wp_of_ret (h.pageAlloc hl _)]
    simp only
    obtain ⟨h₁, hf, hhand, hheld, htarget⟩ := h.alloc hl allocZero
    generalize hm₁ : m.alloc allocZero p = m₁ at h₁ htarget
    have hzero : m₁.mem p = fun _ => 0 := by
      rw [← hm₁, Mm.alloc, if_pos (by decide)]
      exact update_self ..
    have htrace : m₁.trace = m.trace := by rw [← hm₁, Mm.alloc_trace]
    have h0 : refs allRefs (target dirs m₁.mem) p = 0 := by rw [refs_congr htarget, hf.refs]
    -- count the reference the directory is about to hold
    have h₂ := (h₁.incRef (.inl List.mem_cons_self)).release (by simp)
    have hw : entry (mkPte p (pteW ||| pteU)) = some p :=
      entry_eq_some.mpr ⟨present_mkPte _ _,
        frame_mkPte_of_lt (MemCtx.lt_two_pow hf.pool) (by decide)⟩
    obtain ⟨h₃, htarget₃⟩ := h₂.storeDir ha.tab ha.dir (by rw [Mm.incRef_mem, htarget _ ha.tab, hnone])
      hw hf.pool h0 fun j _ => by rw [Mm.incRef_mem, hzero]
    have hframe : pgnum (pteAddr (mkPte p (pteW ||| pteU))) = p := (entry_eq_some.mp hw).2
    rw [wp_bind, wp_modify, wp_bind, wp_modify, wp_bind,
      wp_of_ret (kaddr_eq (by rw [hframe]; exact h₃.shape.lt_npages hf.pool)), hframe]
    refine .inr (.inr ⟨p, rfl, h₃, hf, hheld, hnone, htrace, fun r hr => ?_⟩)
    rw [htarget₃ r hr]
    by_cases hrt : r = .tab e (pdx va)
    · rw [hrt, update_self, update_self]
    · rw [update_of_ne hrt, update_of_ne hrt, Mm.incRef_mem, htarget r hr]

/-! ### Lookup and removal -/

theorem target_of_kReads (ha : UserVa dirs e d va) (hr : m.kReads d va) :
    target dirs m.mem (.page e (pdx va) (ptx va)) = some (frame (m.pte d va)) := by
  have ht : target dirs m.mem (.tab e (pdx va)) = some (frame (m.pde d va)) := by
    rw [target_tab ha.dir]
    exact entry_eq_some.mpr ⟨hr.1, rfl⟩
  rw [target_page ht]
  exact entry_eq_some.mpr ⟨hr.2, rfl⟩

theorem pgdirWalk_panics (create : Bool) (h : ¬ frame (m.mem d (pdx va)) < m.npages) :
    ∃ st, pgdirWalk d va create m = .stop st m := by
  rw [pgdirWalk, get_bind]
  exact ⟨_, stop_bind (kaddr_stop h)⟩

theorem pageLookup_eq (hp : present (m.pde d va)) (hlt : frame (m.pde d va) < m.npages) :
    pageLookup cr3 d va m = if present (m.pte d va) then (do
      let pp ← pa2page (pteAddr (m.pte d va))
      pure (some (pp, frame (m.pde d va), ptx va)) : MmM _) m else .ret none m := by
  rw [pageLookup, ret_bind (pgdirWalk_false hlt), show entry (m.mem d (pdx va)) =
    some (frame (m.pde d va)) from entry_eq_some.mpr ⟨hp, rfl⟩]
  show (do
    let w ← readPte cr3 (some (frame (m.pde d va), ptx va))
    if ¬ present w then pure none
    else do
      let pp ← pa2page (pteAddr w)
      pure (some (pp, (frame (m.pde d va), ptx va))) : MmM _) m = _
  rw [readPte, gets_bind, show m.mem (frame (m.pde d va)) (ptx va) = m.pte d va from rfl]
  by_cases hpte : present (m.pte d va)
  · rw [if_neg (not_not.mpr hpte), if_pos hpte]
  · rw [if_pos hpte, if_neg hpte]
    rfl

theorem pageLookup_present (hp : present (m.pde d va)) (hlt : frame (m.pde d va) < m.npages)
    (hfr : present (m.pte d va) → frame (m.pte d va) < m.npages) :
    pageLookup cr3 d va m =
      .ret ((entry (m.pte d va)).map (·, frame (m.pde d va), ptx va)) m := by
  rw [pageLookup_eq hp hlt, entry]
  split
  · next hpte =>
    rw [ret_bind (pa2page_eq (hfr hpte))]
    rfl
  · rfl

theorem pageLookup_table (h : Shape B dirs m) (ha : UserVa dirs e d va)
    (ht : target dirs m.mem (.tab e (pdx va)) = some t) :
    pageLookup cr3 d va m =
      .ret ((target dirs m.mem (.page e (pdx va) (ptx va))).map (·, t, ptx va)) m := by
  have hent := ht
  rw [target_tab ha.dir] at hent
  obtain ⟨hpde, rfl⟩ := entry_eq_some.mp hent
  rw [target_page ht]
  refine pageLookup_present hpde (h.frame_lt ha.slot ha.dir (pdx_lt va)) fun hp => ?_
  refine h.lt_npages (h.pool _ ha.page _ ?_)
  rw [target_page ht]
  exact entry_eq_some.mpr ⟨hp, rfl⟩

theorem pageLookup_null (hlt : frame (m.mem d (pdx va)) < m.npages)
    (hno : ¬ present (m.mem d (pdx va))) :
    wp (pageLookup cr3 d va) (fun r m' => r = none ∧ m' = m.log .nullPte)
      (fun st m' => st = kernelFault ∧ m' = m.log .nullPte) m := by
  have hload : ∀ {α : Type} {f : ℕ → MmM α} {Q : α → Mm → Prop} (va : ℕ),
      (∀ b, wp (f b) Q (fun st m' => st = kernelFault ∧ m' = m.log .nullPte) (m.log .nullPte)) →
      wp (vload cr3 va >>= f) Q (fun st m' => st = kernelFault ∧ m' = m.log .nullPte)
        (m.log .nullPte) := by
    intro α f Q va hf
    rw [wp_bind, vload, wp_bind, wp_get, wp_ite]
    exact ⟨fun _ => hf _, fun _ => ⟨rfl, rfl⟩⟩
  rw [pageLookup, wp_bind_of_ret (pgdirWalk_false hlt), entry_eq_none.mpr hno]
  show wp (readPte cr3 none >>= _) _ _ m
  rw [readPte, wp_bind, wp_bind, wp_modify]
  refine hload _ fun _ => hload _ fun _ => hload _ fun _ => hload _ fun _ => ?_
  rw [wp_pure, wp_ite]
  exact ⟨fun _ => ⟨rfl, rfl⟩, fun _ => ⟨rfl, rfl⟩⟩

/-- A lookup of `va` follows no null pointer and ends at a page that exists. -/
def Mm.LookupOk (m : Mm) (d va : ℕ) : Prop :=
  present (m.pde d va) ∧ (present (m.pte d va) → frame (m.pte d va) < m.npages)

theorem Shape.lookupOk (h : Shape B dirs m) (ha : UserVa dirs e d va) (hp : present (m.pde d va)) :
    m.LookupOk d va := by
  refine ⟨hp, fun hpte => h.lt_npages (h.pool _ ha.page _ ?_)⟩
  exact target_of_kReads ha ⟨hp, hpte⟩

theorem wp_pageLookup {crash : Prop} (h : Shape B dirs m) (he : e < nenv) (hd : dirs e = some d)
    (hok : crash ∨ m.LookupOk d va) :
    wp (pageLookup cr3 d va) (fun r m' => (m' = m ∨ crash ∧ m' = m.log .nullPte) ∧
      (pdx va < userPdes → r = (target dirs m.mem (.page e (pdx va) (ptx va))).map
        (·, frame (m.pde d va), ptx va)))
      (fun st _ => crash ∧ st.bad) m := by
  have hlt := h.frame_lt he hd (pdx_lt va)
  by_cases hpde : present (m.pde d va)
  · have hent : entry (m.mem d (pdx va)) = some (frame (m.pde d va)) :=
      entry_eq_some.mpr ⟨hpde, rfl⟩
    have htab : target dirs m.mem (.tab e (pdx va)) = some (frame (m.pde d va)) := by
      rw [target_tab hd, hent]
    rw [pageLookup, wp_bind_of_ret (pgdirWalk_false hlt), hent]
    show wp (readPte cr3 (some (frame (m.pde d va), ptx va)) >>= _) _ _ m
    rw [readPte, wp_bind, wp_gets, wp_ite]
    refine ⟨fun hno => ⟨.inl rfl, fun _ => ?_⟩, fun hpte => ?_⟩
    · rw [target_page htab, entry_eq_none.mpr hno]
      rfl
    · have hpte : present (m.pte d va) := not_not.mp hpte
      show wp (pa2page (pteAddr (m.pte d va)) >>= _) _ _ m
      rw [wp_bind]
      by_cases hfr : frame (m.pte d va) < m.npages
      · rw [wp_of_ret (pa2page_eq hfr)]
        refine ⟨.inl rfl, fun _ => ?_⟩
        have hent' : entry (m.mem (frame (m.pde d va)) (ptx va)) = some (frame (m.pte d va)) :=
          entry_eq_some.mpr ⟨hpte, rfl⟩
        rw [target_page htab, hent']
        rfl
      · have hc : crash := hok.resolve_right fun ho => hfr (ho.2 hpte)
        have hge : pgnum (pteAddr (m.pte d va)) ≥ m.npages := Nat.not_lt.mp hfr
        rw [pa2page, wp_bind, wp_get, if_pos hge]
        exact ⟨hc, rfl⟩
  · have hc : crash := hok.resolve_right fun ho => hpde ho.1
    refine (pageLookup_null hlt hpde).mono (fun r m' hm => ?_) fun st m' hm => ⟨hc, ?_⟩
    · refine ⟨.inr ⟨hc, hm.2⟩, fun _ => ?_⟩
      have hnone : target dirs m.mem (.tab e (pdx va)) = none := by
        rw [target_tab hd]
        exact entry_eq_none.mpr hpde
      rw [hm.1, target_page_none hnone]
      rfl
    · rw [hm.1]
      rfl

theorem pageRemove_absent (h : Shape B dirs m) (ha : UserVa dirs e d va)
    (ht : target dirs m.mem (.tab e (pdx va)) = some t)
    (hp : target dirs m.mem (.page e (pdx va) (ptx va)) = none) :
    pageRemove cr3 d va m = .ret () m := by
  rw [pageRemove, ret_bind (pageLookup_table h ha ht), hp]
  rfl

variable (cr3) in
theorem PageInv.remove (h : PageInv B dirs held hand m) (ha : UserVa dirs e d va)
    (ht : target dirs m.mem (.tab e (pdx va)) = some t)
    (hp : target dirs m.mem (.page e (pdx va) (ptx va)) = some p) (hheld : p ∉ held)
    (hhand : hand.count p ≤ 1) :
    pageRemove cr3 d va m = .ret () ((m.setWord t (ptx va) 0).dropRef p) ∧
      PageInv B dirs held hand ((m.setWord t (ptx va) 0).dropRef p) ∧
      ∀ r ∈ allRefs, target dirs ((m.setWord t (ptx va) 0).dropRef p).mem r =
        update (target dirs m.mem) (.page e (pdx va) (ptx va)) none r := by
  have hpool := h.shape.pool _ ha.page p hp
  have hpos := refs_pos ha.page hp
  have hlink : (m.pages p).ppLink = none := h.ppLink_none hpool (.inr (by omega))
  obtain ⟨h₁, htarget⟩ := h.clearTable ha.page ht hp
  have hrefs := refs_clear ha.page hp p
  rw [if_pos rfl] at hrefs
  have hbound : refs allRefs (target dirs m.mem) p < 2 ^ 16 := by
    obtain ⟨free, hc⟩ := h.counts
    exact hc.bound p hpool
  refine ⟨?_, h₁.dropRef hpool ?_ hheld, ?_⟩
  · rw [pageRemove, ret_bind (pageLookup_table h.shape ha ht), hp]
    show (do
      pageDecref p
      modify (·.setWord t (ptx va) 0) : MmM Unit) m = _
    rw [ret_bind (pageDecref_eq hlink), ← Mm.dropRef_setWord]
    rfl
  · rw [refs_congr htarget]
    omega
  · rw [Mm.dropRef_mem]
    exact htarget

theorem wp_pageRemove {crash : Prop} (h : PageInv B dirs [] [] m) (ha : UserVa dirs e d va)
    (hok : crash ∨ present (m.pde d va)) :
    wp (pageRemove cr3 d va) (fun _ m' => PageInv B dirs [] [] m' ∧ (crash ∨ m'.trace = m.trace))
      (fun st _ => crash ∧ st.bad) m := by
  by_cases hpde : present (m.pde d va)
  · have ht : target dirs m.mem (.tab e (pdx va)) = some (frame (m.pde d va)) := by
      rw [target_tab ha.dir]
      exact entry_eq_some.mpr ⟨hpde, rfl⟩
    cases hp : target dirs m.mem (.page e (pdx va) (ptx va)) with
    | none =>
      rw [wp_of_ret (pageRemove_absent h.shape ha ht hp)]
      exact ⟨h, .inr rfl⟩
    | some p =>
      obtain ⟨heq, h', -⟩ := h.remove cr3 ha ht hp (by simp) (by simp)
      rw [wp_of_ret heq]
      exact ⟨h', .inr (by rw [Mm.dropRef_trace, Mm.setWord_trace])⟩
  · have hc : crash := hok.resolve_right hpde
    rw [pageRemove, wp_bind]
    refine (pageLookup_null (h.shape.frame_lt ha.slot ha.dir (pdx_lt va)) hpde).mono
      (fun r m' hm => ?_) fun st m' hm => ⟨hc, by rw [hm.1]; rfl⟩
    rw [hm.1, hm.2]
    exact ⟨h.congr rfl rfl rfl rfl rfl, .inl hc⟩

/-! ### Insertion -/

/-- A page that may be mapped: it is off the free list and no table. -/
structure Mappable (B : MemCtx) (dirs : ℕ → Option ℕ) (held : List ℕ) (m : Mm) (pp : ℕ) :
    Prop where
  pool : pp ∈ B.pool
  off : pp ∈ held ∨ refs allRefs (target dirs m.mem) pp ≠ 0
  noTable : NoTable dirs m pp
  held : ∀ x ∈ held, refs allRefs (target dirs m.mem) x = 0

theorem Shape.mappable {i j : ℕ} (h : Shape B dirs m) (hr : Ref.page e i j ∈ allRefs)
    (hp : target dirs m.mem (.page e i j) = some p) : Mappable B dirs [] m p where
  pool := h.pool _ hr p hp
  off := .inr (refs_pos hr hp).ne'
  noTable := h.noTable hr hp
  held := by simp

theorem Fresh.mappable (h : Fresh B dirs m p) : Mappable B dirs [p] m p where
  pool := h.pool
  off := .inl List.mem_cons_self
  noTable := h.noTable
  held := by
    intro x hx
    rw [List.mem_singleton.mp hx]
    exact h.refs

theorem Mappable.congr {m' : Mm} (h : Mappable B dirs held m p)
    (htarget : ∀ r ∈ allRefs, target dirs m'.mem r = target dirs m.mem r) :
    Mappable B dirs held m' p where
  pool := h.pool
  off := by
    rw [refs_congr htarget]
    exact h.off
  noTable r hr hrt := by
    rw [htarget r hr]
    exact h.noTable r hr hrt
  held x hx := by
    rw [refs_congr htarget]
    exact h.held x hx

theorem Mappable.newTable {m' : Mm} {i : ℕ} (h : Mappable B dirs held m p) (hf : Fresh B dirs m t)
    (hth : t ∉ held) (hr : Ref.tab e i ∈ allRefs) (hnone : target dirs m.mem (.tab e i) = none)
    (htarget : ∀ r ∈ allRefs, target dirs m'.mem r =
      update (target dirs m.mem) (.tab e i) (some t) r) :
    t ≠ p ∧ refs allRefs (target dirs m'.mem) p = refs allRefs (target dirs m.mem) p ∧
      Mappable B dirs held m' p := by
  have htp : t ≠ p := by
    rintro rfl
    exact h.off.elim hth fun hne => hne hf.refs
  have hrefs : ∀ x, x ≠ t → refs allRefs (target dirs m'.mem) x =
      refs allRefs (target dirs m.mem) x := by
    intro x hx
    rw [refs_congr htarget, refs_store hr hnone, if_neg hx, Nat.add_zero]
  refine ⟨htp, hrefs p htp.symm, h.pool, ?_, fun r hr' hrt => ?_, fun x hx => ?_⟩
  · rw [hrefs p htp.symm]
    exact h.off
  · rw [htarget r hr']
    by_cases hri : r = .tab e i
    · rw [hri, update_self]
      exact fun hcon => htp (Option.some.inj hcon)
    · rw [update_of_ne hri]
      exact h.noTable r hr' hrt
  · rw [hrefs x fun hxt => hth (hxt ▸ hx)]
    exact h.held x hx

/-- `page_insert` once the walk has found the entry: word `ptx va` of the table `t`. -/
def insertAt (cr3 pgdir pp va perm t : ℕ) : MmM ℤ := do
  modify (·.incRef pp)
  let m ← get
  when (present (m.mem t (ptx va))) (pageRemove cr3 pgdir va)
  modify (·.setWord t (ptx va) (mkPte pp perm))
  pure 0

theorem insert_clear {Q : ℤ → Mm → Prop} {R : Stop → Mm → Prop}
    (h : PageInv B dirs held [] m) (ha : UserVa dirs e d va)
    (ht : target dirs m.mem (.tab e (pdx va)) = some t) (hpp : Mappable B dirs held m pp)
    (hk : ∀ m₂, PageInv B dirs held [pp] m₂ → m₂.trace = m.trace → (∀ r ∈ allRefs, target dirs m₂.mem r = update (target dirs m.mem) (.page e (pdx va) (ptx va)) none r) → Q 0 (m₂.setWord t (ptx va) (mkPte pp perm))) :
    wp (insertAt cr3 d pp va perm t) Q R m := by
  have h₁ := h.incRef (p := pp) (by simpa using hpp.off)
  rw [insertAt, wp_bind, wp_modify, wp_bind, wp_get, wp_bind, wp_when]
  refine ⟨fun hpres => ?_, fun hpres => ?_⟩
  · -- an old mapping goes first; it may be one of the same page
    have hq : target dirs m.mem (.page e (pdx va) (ptx va)) = some (frame (m.mem t (ptx va))) := by
      rw [target_page ht]
      exact entry_eq_some.mpr ⟨hpres, rfl⟩
    generalize frame (m.mem t (ptx va)) = q at hq
    have hqheld : q ∉ held := by
      intro hqh
      have := hpp.held q hqh
      have := refs_pos ha.page hq
      omega
    obtain ⟨heq, h₂, htarget₂⟩ := h₁.remove cr3 ha ht hq hqheld
      (List.count_le_length.trans (by simp))
    rw [wp_of_ret heq]
    exact hk _ h₂ (by simp [Mm.incRef, Mm.updPage]) htarget₂
  · have hnone : target dirs m.mem (.page e (pdx va) (ptx va)) = none := by
      rw [target_page ht]
      exact entry_eq_none.mpr hpres
    refine hk _ h₁ rfl fun r _ => ?_
    rw [← hnone, update_eq_self, Mm.incRef_mem]

theorem insert_entry (h : PageInv B dirs held [] m) (ha : UserVa dirs e d va)
    (ht : target dirs m.mem (.tab e (pdx va)) = some t) (hpp : Mappable B dirs held m pp)
    (hframe : frame (mkPte pp perm) = pp) (hperm : B.perm ((perm ||| pteP) % 4096))
    (href : refs allRefs (target dirs m.mem) pp + 1 < 2 ^ 16 ∨ target dirs m.mem (.page e (pdx va) (ptx va)) = some pp) :
    wp (insertAt cr3 d pp va perm t)
      (fun r m' => r = 0 ∧ PageInv B dirs held [] m' ∧ m'.mem t (ptx va) = mkPte pp perm ∧
        m'.trace = m.trace ∧ ∀ r ∈ allRefs, target dirs m'.mem r =
          update (target dirs m.mem) (.page e (pdx va) (ptx va)) (some pp) r)
      (fun _ _ => False) m := by
  refine insert_clear h ha ht hpp fun m₂ h₂ htrace htarget => ?_
  have hent : entry (mkPte pp perm) = some pp :=
    entry_eq_some.mpr ⟨present_mkPte _ _, hframe⟩
  have ht₂ : target dirs m₂.mem (.tab e (pdx va)) = some t := by
    rw [htarget _ ha.tab, update_of_ne (by rintro ⟨⟩), ht]
  have hnone : target dirs m₂.mem (.page e (pdx va) (ptx va)) = none := by
    rw [htarget _ ha.page, update_self]
  have hnt : NoTable dirs m₂ pp := by
    intro r hr hrt
    rw [htarget r hr, update_of_ne (by rintro rfl; exact hrt)]
    exact hpp.noTable r hr hrt
  have hM : refs allRefs (target dirs m₂.mem) pp + 1 < 2 ^ 16 := by
    rw [refs_congr htarget]
    cases hq : target dirs m.mem (.page e (pdx va) (ptx va)) with
    | none =>
      rw [← hq, update_eq_self]
      exact href.resolve_right fun hsame => by rw [hq] at hsame; cases hsame
    | some q =>
      have hrefs := refs_clear ha.page hq pp
      rcases href with href | hsame
      · omega
      · have hqp : pp = q := Option.some.inj (hsame.symm.trans hq)
        rw [if_pos hqp] at hrefs
        obtain ⟨free, hc⟩ := h.counts
        have := hc.bound pp hpp.pool
        omega
  obtain ⟨h₃, htarget₃⟩ := h₂.storeTable ha.page ht₂ hnone hent hpp.pool hnt
    (by rw [flags_mkPte]; exact hperm) hM
  refine ⟨rfl, h₃, Mm.setWord_self .., htrace, fun r hr => ?_⟩
  rw [htarget₃ r hr]
  by_cases hrp : r = .page e (pdx va) (ptx va)
  · rw [hrp, update_self, update_self]
  · rw [update_of_ne hrp, update_of_ne hrp, htarget r hr,
      update_of_ne hrp]

theorem wp_walk_insert {Q : ℤ → Mm → Prop} {R : Stop → Mm → Prop}
    (h : PageInv B dirs held [] m) (ha : UserVa dirs e d va) (hpp : Mappable B dirs held m pp)
    (hfull : Q (-eNoMem) m)
    (hat : ∀ m₁ t, PageInv B dirs held [] m₁ → Mappable B dirs held m₁ pp → m₁.trace = m.trace → target dirs m₁.mem (.tab e (pdx va)) = some t → refs allRefs (target dirs m₁.mem) pp = refs allRefs (target dirs m.mem) pp → (∀ r ∈ allRefs, r ≠ .tab e (pdx va) → target dirs m₁.mem r = target dirs m.mem r) → wp (insertAt cr3 d pp va perm t) Q R m₁) :
    wp (pageInsert cr3 d pp va perm) Q R m := by
  rw [pageInsert]
  refine (wp_pgdirWalk_create h ha).bind_total fun r m₁ h₁ => ?_
  rcases h₁ with ⟨rfl, rfl⟩ | ⟨t, rfl, rfl, ht⟩ | ⟨t, rfl, h₁, hf, hth, hnone, htrace, htarget⟩
  · exact hfull
  · exact hat m₁ t h hpp rfl ht rfl fun _ _ _ => rfl
  · obtain ⟨-, hrefs, hpp₁⟩ := hpp.newTable hf hth ha.tab hnone htarget
    refine hat m₁ t h₁ hpp₁ htrace ?_ hrefs fun r hr hrt => ?_
    · rw [htarget _ ha.tab, update_self]
    · rw [htarget r hr, update_of_ne hrt]

theorem wp_pageInsert (h : PageInv B dirs held [] m) (ha : UserVa dirs e d va)
    (hpp : Mappable B dirs held m pp) (hframe : frame (mkPte pp perm) = pp)
    (hperm : B.perm ((perm ||| pteP) % 4096))
    (href : refs allRefs (target dirs m.mem) pp + 1 < 2 ^ 16 ∨ target dirs m.mem (.page e (pdx va) (ptx va)) = some pp) :
    wp (pageInsert cr3 d pp va perm) (fun r m' =>
      (r = -eNoMem ∧ m' = m) ∨
      (r = 0 ∧ PageInv B dirs held [] m' ∧ m'.trace = m.trace ∧
        (∃ t, target dirs m'.mem (.tab e (pdx va)) = some t ∧ m'.mem t (ptx va) = mkPte pp perm) ∧
        ∀ r ∈ allRefs, r ≠ .tab e (pdx va) → r ≠ .page e (pdx va) (ptx va) →
          target dirs m'.mem r = target dirs m.mem r))
      (fun _ _ => False) m := by
  refine wp_walk_insert h ha hpp (.inl ⟨rfl, rfl⟩) fun m₁ t h₁ hpp₁ htrace ht hrefs hother => ?_
  rw [← hrefs, ← hother _ ha.page (by rintro ⟨⟩)] at href
  refine (insert_entry h₁ ha ht hpp₁ hframe hperm href).imp fun r m₂ h₂ => ?_
  obtain ⟨hr, h₂, hword, htrace₂, htarget⟩ := h₂
  refine .inr ⟨hr, h₂, htrace₂.trans htrace, ⟨t, ?_, hword⟩, fun r hr hrt hrp => ?_⟩
  · rw [htarget _ ha.tab, update_of_ne (by rintro ⟨⟩), ht]
  · rw [htarget r hr, update_of_ne hrp, hother r hr hrt]

theorem wp_pageInsert_any (h : PageInv B dirs held [] m) (ha : UserVa dirs e d va)
    (hpp : Mappable B dirs held m pp) :
    wp (pageInsert cr3 d pp va perm) (fun r m' =>
      (r = -eNoMem ∧ m' = m) ∨
      (r = 0 ∧ ∃ m₂ t, PageInv B dirs held [pp] m₂ ∧ m₂.trace = m.trace ∧
        target dirs m₂.mem (.tab e (pdx va)) = some t ∧
        m' = m₂.setWord t (ptx va) (mkPte pp perm)))
      (fun _ _ => False) m := by
  refine wp_walk_insert h ha hpp (.inl ⟨rfl, rfl⟩) fun m₁ t h₁ hpp₁ htrace ht _ _ => ?_
  refine insert_clear h₁ ha ht hpp₁ fun m₂ h₂ htrace₂ htarget => ?_
  refine .inr ⟨rfl, m₂, t, h₂, htrace₂.trans htrace, ?_, rfl⟩
  rw [htarget _ ha.tab, update_of_ne (by rintro ⟨⟩), ht]

theorem PageInv.release_mapped (h : PageInv B dirs [pp] [] m) (ha : UserVa dirs e d va)
    (ht : target dirs m.mem (.tab e (pdx va)) = some t) (hw : m.mem t (ptx va) = mkPte pp perm)
    (hframe : frame (mkPte pp perm) = pp) : PageInv B dirs [] [] m := by
  refine h.release ?_
  have hmap : target dirs m.mem (.page e (pdx va) (ptx va)) = some pp := by
    rw [target_page ht, hw]
    exact entry_eq_some.mpr ⟨present_mkPte _ _, hframe⟩
  have := refs_pos ha.page hmap
  omega

/-! ### Bytes of user pages -/

theorem Shape.walk_congr (m' : Mm) (h : Shape B dirs m) (he : e < nenv) (hd : dirs e = some d)
    (hp : p ∈ B.pool) (hnt : NoTable dirs m p) (hother : ∀ q ≠ p, m'.mem q = m.mem q) (va : ℕ) :
    m'.pde d va = m.pde d va ∧ (present (m.pde d va) → m'.pte d va = m.pte d va) := by
  have hrd : Ref.dir e ∈ allRefs := mem_allRefs.mpr he
  have hdir : m'.mem d = m.mem d := by
    refine hother d ?_
    rintro rfl
    exact hnt _ hrd trivial hd
  have hpde : m'.pde d va = m.pde d va := by rw [Mm.pde, Mm.pde, hdir]
  refine ⟨hpde, fun hpres => ?_⟩
  rw [Mm.pte, Mm.pte, hpde]
  by_cases hu : pdx va < userPdes
  · rw [hother]
    rintro rfl
    have hrt : Ref.tab e (pdx va) ∈ allRefs := mem_allRefs.mpr ⟨he, hu⟩
    refine hnt _ hrt trivial ?_
    rw [target_tab hd]
    exact entry_eq_some.mpr ⟨hpres, rfl⟩
  · -- from `UTOP` on: the directory itself at `UVPT`, else a table of the kernel
    have hu : userPdes ≤ pdx va := Nat.not_lt.mp hu
    have hup := h.upper e he d hd _ hu (pdx_lt va)
    rw [Mm.pde, hup]
    split
    · rw [frame_mkPte_of_lt (MemCtx.lt_two_pow (h.pool _ hrd d hd)) (by decide), hdir]
    · rw [hother]
      rintro rfl
      exact B.booted.upper_free _ hu (pdx_lt va) hp

theorem Shape.user_of_uWrites (h : Shape B dirs m) (he : e < nenv) (hd : dirs e = some d)
    (hw : m.uWrites d va) : pdx va < userPdes := by
  by_contra hu
  have hu : userPdes ≤ pdx va := Nat.not_lt.mp hu
  have hup := h.upper e he d hd _ hu (pdx_lt va)
  obtain ⟨⟨-, -, hpteU⟩, hpdeW, hpteW⟩ := hw
  rw [Mm.pde, hup] at hpdeW
  rw [Mm.pte, Mm.pde, hup] at hpteU hpteW
  by_cases hv : pdx va = pdx uvpt
  · rw [if_pos hv, and_eq_flags_and _ (by decide), flags_mkPte] at hpdeW
    exact hpdeW (by decide)
  · rw [if_neg hv] at hpteU hpteW
    rw [h.outside _ (B.booted.upper_free _ hu (pdx_lt va))] at hpteU hpteW
    exact B.booted.no_user_write _ hu (pdx_lt va) hv _ (ptx_lt va) ⟨hpteU, hpteW⟩

theorem Shape.user_of_kWrites (h : Shape B dirs m) (he : e < nenv) (hd : dirs e = some d)
    (hlim : va < ulim) (hw : m.kWrites d va) : pdx va < userPdes := by
  by_contra hu
  have hu : userPdes ≤ pdx va := Nat.not_lt.mp hu
  have hup := h.upper e he d hd _ hu (pdx_lt va)
  obtain ⟨-, hpdeW, hpteW⟩ := hw
  rw [Mm.pde, hup] at hpdeW
  rw [Mm.pte, Mm.pde, hup] at hpteW
  by_cases hv : pdx va = pdx uvpt
  · rw [if_pos hv, and_eq_flags_and _ (by decide), flags_mkPte] at hpdeW
    exact hpdeW (by decide)
  · rw [if_neg hv, h.outside _ (B.booted.upper_free _ hu (pdx_lt va))] at hpteW
    refine hpteW (B.booted.no_write _ hu ?_ hv _ (ptx_lt va))
    rw [ulim_eq] at hlim
    rw [pdx_eq, pdx_eq, ulim_eq]
    omega

theorem PageInv.setByte (h : PageInv B dirs held hand m) (ha : UserVa dirs e d va)
    (hr : m.kReads d va) (b : ℕ) :
    PageInv B dirs held hand (m.setByte d va b) ∧
      ∀ r ∈ allRefs, target dirs (m.setByte d va b).mem r = target dirs m.mem r := by
  have hp := target_of_kReads ha hr
  exact h.setMem (m.setByte d va b) (h.shape.pool _ ha.page _ hp)
    (h.shape.noTable ha.page hp) (fun q hq => m.setWord_other _ _ _ hq) rfl rfl rfl rfl

end Ops

end Jos
