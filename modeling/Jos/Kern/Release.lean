/-
What `env_free` does to memory.

Environment `e` gives up its references one by one: the entries of a table,
then the table, and in the end the directory.  `Exact` says that the counters
and the free list agree with the references there are, `Owned` that the
directory and the tables of `e` serve nobody else.  `Emptied` is what any part
of `env_free` may do: the places of `e` lose their pages, and no others change.
-/
import Jos.Kern.Lookup
import Jos.Kern.Control

namespace Jos

open Prog Function

/-- Counters and free list agree with what the directories `dirs` lead to. -/
def Exact (pool : Set ℕ) (dirs : ℕ → Option ℕ) (m : Mm) (free : List ℕ) : Prop :=
  RefPool (2 ^ 16) pool allRefs (target dirs m.mem) [] [] (fun p => (m.pages p).ppRef)
    (fun p => (m.pages p).ppLink) m.pageFreeList free

/-- The pages of `e` are counted, and its directory and tables have no other
use. -/
structure Owned (pool : Set ℕ) (dirs : ℕ → Option ℕ) (e : ℕ) (m : Mm) : Prop where
  lt : ∀ p ∈ pool, p < m.npages
  mem_pool : ∀ r ∈ allRefs, r.slot = e → ∀ p, target dirs m.mem r = some p → p ∈ pool
  once : ∀ r ∈ allRefs, r.isTable → r.slot = e → ∀ p, target dirs m.mem r = some p →
    ∀ r' ∈ allRefs, target dirs m.mem r' = some p → r' = r

/-- Places of `e` are emptied on the way from `m` to `m'`. -/
structure Emptied (pool : Set ℕ) (dirs : ℕ → Option ℕ) (e : ℕ) (m m' : Mm) : Prop where
  others : ∀ r ∈ allRefs, r.slot ≠ e → target dirs m'.mem r = target dirs m.mem r
  own : ∀ r ∈ allRefs, ∀ p, target dirs m'.mem r = some p → target dirs m.mem r = some p
  /-- Only the directory and the tables of `e` are written to. -/
  mem : ∀ q, (∀ r ∈ allRefs, r.isTable → r.slot = e → target dirs m.mem r ≠ some q) →
    m'.mem q = m.mem q
  pages : ∀ q, q ∉ pool → m'.pages q = m.pages q
  npages : m'.npages = m.npages
  kern : m'.kernPgdir = m.kernPgdir
  trace : m'.trace = m.trace

section

variable {pool : Set ℕ} {dirs : ℕ → Option ℕ} {e d t p i j cr3 : ℕ} {m m' m'' : Mm}
  {free : List ℕ} {r : Ref}

theorem Emptied.refl (pool : Set ℕ) (dirs : ℕ → Option ℕ) (e : ℕ) (m : Mm) :
    Emptied pool dirs e m m :=
  ⟨fun _ _ _ => rfl, fun _ _ _ h => h, fun _ _ => rfl, fun _ _ => rfl, rfl, rfl, rfl⟩

theorem Emptied.trans (h : Emptied pool dirs e m m') (h' : Emptied pool dirs e m' m'') :
    Emptied pool dirs e m m'' where
  others r hr hs := (h'.others r hr hs).trans (h.others r hr hs)
  own r hr p hp := h.own r hr p (h'.own r hr p hp)
  mem q hq := by
    rw [h'.mem q fun r hr hrt hs hrq => hq r hr hrt hs (h.own r hr q hrq), h.mem q hq]
  pages q hq := (h'.pages q hq).trans (h.pages q hq)
  npages := h'.npages.trans h.npages
  kern := h'.kern.trans h.kern
  trace := h'.trace.trans h.trace

theorem Owned.emptied (h : Owned pool dirs e m) (h' : Emptied pool dirs e m m') :
    Owned pool dirs e m' where
  lt p hp := by
    rw [h'.npages]
    exact h.lt p hp
  mem_pool r hr hs p hp := h.mem_pool r hr hs p (h'.own r hr p hp)
  once r hr hrt hs p hp r' hr' hp' :=
    h.once r hr hrt hs p (h'.own r hr p hp) r' hr' (h'.own r' hr' p hp')

theorem Exact.counted (h : Exact pool dirs m free) (hr : r ∈ allRefs)
    (hrp : target dirs m.mem r = some p) (hp : p ∈ pool) :
    1 ≤ (m.pages p).ppRef ∧ (m.pages p).ppRef < 2 ^ 16 ∧ (m.pages p).ppLink = none := by
  have hpos := refs_pos hr hrp
  have hlt := h.bound p hp
  have hcnt : (m.pages p).ppRef = refs allRefs (target dirs m.mem) p := by
    rw [h.cnt_eq p hp, List.count_nil, Nat.add_zero, Nat.mod_eq_of_lt hlt]
  exact ⟨by omega, by omega, h.next_none p hp (RefPool.not_mem_free_of_ref h hr hrp)⟩

theorem Owned.clear (h : Owned pool dirs e m) (hex : Exact pool dirs m free) {r' : Ref}
    (hr' : r' ∈ allRefs) (hrt' : r'.isTable) (hs' : r'.slot = e)
    (ht : target dirs m.mem r' = some t) (hr : r ∈ allRefs) (hs : r.slot = e)
    (hp : target dirs m.mem r = some p)
    (htarget : ∀ x ∈ allRefs, target dirs (m.setWord t j 0).mem x =
      update (target dirs m.mem) r none x) :
    (∃ l, Exact pool dirs ((m.setWord t j 0).dropRef p) (l ++ free)) ∧
      Emptied pool dirs e m ((m.setWord t j 0).dropRef p) := by
  have hpool := h.mem_pool r hr hs p hp
  constructor
  · -- the reference goes from its place into hand, and is given up
    have hhand : RefPool (2 ^ 16) pool allRefs (target dirs (m.setWord t j 0).mem) [] [p]
        (fun q => ((m.setWord t j 0).pages q).ppRef) (fun q => ((m.setWord t j 0).pages q).ppLink)
        (m.setWord t j 0).pageFreeList free := (RefPool.clear hex hr hp).congr_slots htarget
    obtain ⟨l, hl⟩ := Mm.dropRef_pool _ hhand hpool (by simpa using hhand.bound p hpool) (by simp)
    refine ⟨l, ?_⟩
    rw [Exact, Mm.dropRef_mem]
    exact hl
  · refine ⟨fun x hx hne => ?_, fun x hx q hq => ?_, fun q hq => ?_, fun q hq => ?_, ?_, ?_, ?_⟩
    · have hxr : x ≠ r := by
        rintro rfl
        exact hne hs
      rw [Mm.dropRef_mem, htarget x hx, update_of_ne hxr]
    · rw [Mm.dropRef_mem, htarget x hx] at hq
      by_cases hxr : x = r
      · rw [hxr, update_self] at hq
        cases hq
      · rwa [update_of_ne hxr] at hq
    · have hqt : q ≠ t := by
        rintro rfl
        exact hq r' hr' hrt' hs' ht
      rw [Mm.dropRef_mem, Mm.setWord_other _ _ _ _ hqt]
    · exact Mm.dropRef_other _ p fun hqp => hq (hqp ▸ hpool)
    · rw [Mm.dropRef_npages, Mm.setWord_npages]
    · rw [Mm.dropRef_kern, Mm.setWord_kern]
    · rw [Mm.dropRef_trace, Mm.setWord_trace]

variable (cr3) in
theorem Owned.remove (h : Owned pool dirs e m) (hex : Exact pool dirs m free)
    (hr : Ref.page e i j ∈ allRefs) (hd : dirs e = some d)
    (ht : target dirs m.mem (.tab e i) = some t)
    (hp : target dirs m.mem (.page e i j) = some p) :
    pageRemove cr3 d (pgaddr i j 0) m = .ret () ((m.setWord t j 0).dropRef p) ∧
      (∃ l, Exact pool dirs ((m.setWord t j 0).dropRef p) (l ++ free)) ∧
      Emptied pool dirs e m ((m.setWord t j 0).dropRef p) ∧
      ∀ x ∈ allRefs, target dirs ((m.setWord t j 0).dropRef p).mem x =
        update (target dirs m.mem) (.page e i j) none x := by
  have hrt := tab_mem_of_page hr
  obtain ⟨-, hi, hj⟩ := mem_allRefs.mp hr
  have hi' : i < 1024 := Nat.lt_trans hi (by decide)
  have hpdx : pdx (pgaddr i j 0) = i := pdx_pgaddr hi' hj
  have hptx : ptx (pgaddr i j 0) = j := ptx_pgaddr hj
  have htarget := target_setTable (m.setWord t j 0).mem (j := j) hrt ht
    (h.once _ hrt trivial rfl t ht) (fun q hq => m.setWord_other t j 0 hq)
    fun k hk => m.setWord_rest t j 0 hk
  rw [Mm.setWord_self, entry_zero] at htarget
  obtain ⟨hexact, hempt⟩ := h.clear hex hrt trivial rfl ht hr rfl hp htarget
  -- the entries `page_lookup` goes through
  obtain ⟨hpde, hframe⟩ : present (m.pde d (pgaddr i j 0)) ∧ frame (m.pde d (pgaddr i j 0)) = t := by
    rw [target_tab hd] at ht
    rw [Mm.pde, hpdx]
    exact entry_eq_some.mp ht
  obtain ⟨hpte, hpage⟩ : present (m.pte d (pgaddr i j 0)) ∧ frame (m.pte d (pgaddr i j 0)) = p := by
    rw [target_page ht] at hp
    rw [Mm.pte, hframe, hptx]
    exact entry_eq_some.mp hp
  have hpool := h.mem_pool _ hr rfl p hp
  obtain ⟨hpos, hlt, hlink⟩ := hex.counted hr hp hpool
  have hwalk : m.Walkable d (pgaddr i j 0) := by
    refine ⟨hpde, ?_, fun _ => ?_, fun _ => ?_, fun _ _ => ?_⟩
    · rw [hframe]
      exact h.lt t (h.mem_pool _ hrt rfl t ht)
    · rw [hpage]
      exact h.lt p hpool
    · rw [hpage]
      exact ⟨hpos, hlt⟩
    · rw [hpage]
      exact hlink
  refine ⟨?_, hexact, hempt, fun x hx => ?_⟩
  · rw [hwalk.remove_present hpte, hframe, hpage, hptx]
  · rw [Mm.dropRef_mem, htarget x hx]

/-! ### The loops -/

theorem wp_freeEntries (h : Owned pool dirs e m) (hex : Exact pool dirs m free) (he : e < nenv)
    (hd : dirs e = some d) (hi : i < userPdes) (ht : target dirs m.mem (.tab e i) = some t) :
    wp (forFrom (fun pteno => do
        let m ← get
        when (present (m.mem t pteno)) (pageRemove cr3 d (pgaddr i pteno 0))) 0 nptentries)
      (fun _ m' => (∃ l, Exact pool dirs m' (l ++ free)) ∧ Emptied pool dirs e m m' ∧
        (∀ x ∈ allRefs, x.isTable → target dirs m'.mem x = target dirs m.mem x) ∧
        ∀ j < nptentries, target dirs m'.mem (.page e i j) = none)
      (fun _ _ => False) m := by
  have hr : Ref.tab e i ∈ allRefs := mem_allRefs.mpr ⟨he, hi⟩
  let I : ℕ → Mm → Prop := fun k m' => (∃ l, Exact pool dirs m' (l ++ free)) ∧
    Emptied pool dirs e m m' ∧
    (∀ x ∈ allRefs, x.isTable → target dirs m'.mem x = target dirs m.mem x) ∧
    ∀ j < k, target dirs m'.mem (.page e i j) = none
  have hloop := wp_forFrom (R := fun _ _ => False) (n := nptentries) (f := fun pteno => do
      let m ← get
      when (present (m.mem t pteno)) (pageRemove cr3 d (pgaddr i pteno 0))) I (i := 0) (s := m)
    ⟨⟨[], hex⟩, .refl _ _ _ _, fun _ _ _ => rfl, by simp⟩ fun k m₁ _ hk hI => ?_
  · rw [Nat.zero_add] at hloop
    exact hloop
  obtain ⟨⟨l, hex₁⟩, hempt, htab, hdone⟩ := hI
  have hk : k < nptentries := by rwa [Nat.zero_add] at hk
  have ht₁ : target dirs m₁.mem (.tab e i) = some t := by rw [htab _ hr trivial, ht]
  have hrk : Ref.page e i k ∈ allRefs := mem_allRefs.mpr ⟨he, hi, hk⟩
  rw [wp_bind, wp_get, wp_when]
  refine ⟨fun hpres => ?_, fun hpres => ⟨⟨l, hex₁⟩, hempt, htab, fun j hj => ?_⟩⟩
  · have hp : target dirs m₁.mem (.page e i k) = some (frame (m₁.mem t k)) := by
      rw [target_page ht₁]
      exact entry_eq_some.mpr ⟨hpres, rfl⟩
    obtain ⟨heq, ⟨l', hex₂⟩, hempt₂, htarget⟩ := (h.emptied hempt).remove cr3 hex₁ hrk hd ht₁ hp
    rw [wp_of_ret heq]
    refine ⟨⟨l' ++ l, by rwa [List.append_assoc]⟩, hempt.trans hempt₂, fun x hx hxt => ?_,
      fun j hj => ?_⟩
    · rw [htarget x hx, update_of_ne (by rintro rfl; exact hxt), htab x hx hxt]
    · have hrj : Ref.page e i j ∈ allRefs := mem_allRefs.mpr ⟨he, hi, Nat.lt_of_lt_of_le hj hk⟩
      rw [htarget _ hrj]
      by_cases hjk : j = k
      · rw [hjk, update_self]
      · rw [update_of_ne fun hcon => hjk (Ref.page.inj hcon).2.2]
        exact hdone j (by omega)
  · by_cases hjk : j = k
    · rw [hjk, target_page ht₁]
      exact entry_eq_none.mpr hpres
    · exact hdone j (by omega)

theorem wp_freePde (h : Owned pool dirs e m) (hex : Exact pool dirs m free) (he : e < nenv)
    (hd : dirs e = some d) (hi : i < userPdes) :
    wp (freePde cr3 d i) (fun _ m' => (∃ l, Exact pool dirs m' (l ++ free)) ∧
        Emptied pool dirs e m m' ∧ target dirs m'.mem (.tab e i) = none)
      (fun _ _ => False) m := by
  have hrd : Ref.dir e ∈ allRefs := mem_allRefs.mpr he
  have hr : Ref.tab e i ∈ allRefs := mem_allRefs.mpr ⟨he, hi⟩
  rw [freePde, wp_bind, wp_get, wp_ite]
  refine ⟨fun hpres => ⟨⟨[], hex⟩, .refl _ _ _ _, ?_⟩, fun hpres => ?_⟩
  · rw [target_tab hd]
    exact entry_eq_none.mpr hpres
  simp only
  have hpres : present (m.mem d i) := not_not.mp hpres
  have ht : target dirs m.mem (.tab e i) = some (pgnum (pteAddr (m.mem d i))) := by
    rw [target_tab hd]
    exact entry_eq_some.mpr ⟨hpres, rfl⟩
  generalize hpt : pgnum (pteAddr (m.mem d i)) = t at ht
  have htp := h.mem_pool _ hr rfl t ht
  rw [wp_bind_of_ret (kaddr_eq (by rw [hpt]; exact h.lt t htp)), wp_bind, hpt]
  refine (wp_freeEntries h hex he hd hi ht).imp fun _ m₁ h₁ => ?_
  obtain ⟨⟨l, hex₁⟩, hempt, htab, hempty⟩ := h₁
  have hown₁ := h.emptied hempt
  have ht₁ : target dirs m₁.mem (.tab e i) = some t := by rw [htab _ hr trivial, ht]
  -- the table is empty, so the directory entry is all that is left of it
  have htarget := target_setDir (m₁.setWord d i 0).mem hr hd (hown₁.once _ hrd trivial rfl d hd)
    (fun q hq => m₁.setWord_other d i 0 hq) (fun k hk => m₁.setWord_rest d i 0 hk) hempty
    (by
      rw [Mm.setWord_self, entry_zero]
      intro t' ht'
      cases ht')
  rw [Mm.setWord_self, entry_zero] at htarget
  obtain ⟨⟨l', hex₂⟩, hempt₂⟩ := hown₁.clear hex₁ hrd trivial rfl hd hr rfl ht₁ htarget
  have hlink : ((m₁.setWord d i 0).pages t).ppLink = none := (hex₁.counted hr ht₁ htp).2.2
  rw [wp_bind, wp_modify, wp_bind_of_ret (pa2page_eq (by rw [hpt]; exact hown₁.lt t htp)), hpt,
    wp_of_ret (pageDecref_eq hlink)]
  refine ⟨⟨l' ++ l, by rwa [List.append_assoc]⟩, hempt.trans hempt₂, ?_⟩
  rw [Mm.dropRef_mem, htarget _ hr, update_self]

theorem wp_freePdes (h : Owned pool dirs e m) (hex : Exact pool dirs m free) (he : e < nenv)
    (hd : dirs e = some d) :
    wp (forFrom (freePde cr3 d) 0 userPdes) (fun _ m' => (∃ l, Exact pool dirs m' (l ++ free)) ∧
        Emptied pool dirs e m m' ∧ ∀ i < userPdes, target dirs m'.mem (.tab e i) = none)
      (fun _ _ => False) m := by
  have hloop := wp_forFrom (R := fun _ _ => False) (n := userPdes) (f := freePde cr3 d)
    (fun k m' => (∃ l, Exact pool dirs m' (l ++ free)) ∧ Emptied pool dirs e m m' ∧
      ∀ i < k, target dirs m'.mem (.tab e i) = none) (i := 0) (s := m)
    ⟨⟨[], hex⟩, .refl _ _ _ _, by simp⟩ fun k m₁ _ hk hI => ?_
  · rw [Nat.zero_add] at hloop
    exact hloop
  obtain ⟨⟨l, hex₁⟩, hempt, hdone⟩ := hI
  have hk : k < userPdes := by rwa [Nat.zero_add] at hk
  refine (wp_freePde (h.emptied hempt) hex₁ he hd hk).imp fun _ m₂ h₂ => ?_
  obtain ⟨⟨l', hex₂⟩, hempt₂, hnone⟩ := h₂
  refine ⟨⟨l' ++ l, by rwa [List.append_assoc]⟩, hempt.trans hempt₂, fun i hi => ?_⟩
  by_cases hik : i = k
  · rw [hik, hnone]
  · -- an entry that is gone stays gone
    rw [Option.eq_none_iff_forall_ne_some]
    intro t ht
    have hri : Ref.tab e i ∈ allRefs := mem_allRefs.mpr ⟨he, Nat.lt_of_lt_of_le hi hk⟩
    have hold := hempt₂.own _ hri t ht
    rw [hdone i (by omega)] at hold
    cases hold

/-! ### The function -/

/-- What `env_free` does to memory: the loops, then the directory. -/
def releaseDir (cr3 d : ℕ) : MmM Unit := do
  forFrom (freePde cr3 d) 0 userPdes
  let pp ← pa2page (page2pa d)
  pageDecref pp

theorem wp_envFree_release {s : Kern} {Q : Mm → Prop} (hpgdir : (s.envs e).envPgdir = some d)
    (h : ∀ cr3, wp (releaseDir cr3 d) (fun _ m' => Q m') (fun _ _ => False)
      (s.mm.log (.envFree e))) :
    wp (envFree e) (fun _ s' => ∃ m', s' = { s.freed e with mm := m' } ∧ Q m')
      (fun _ _ => False) s := by
  refine wp_envFree_dir ?_
  rw [envFreeDir, wp_bind_of_ret (envPgdirPtr_eq (by rw [Kern.freeing_envs]; exact hpgdir)), wp_bind,
    rcr3, wp_gets, wp_bind, liftMm, wp_zoom, Kern.freeing_mm]
  have hloop := h (s.freeing e).thiscpu.cr3
  rw [releaseDir, wp_bind] at hloop
  refine hloop.imp fun _ m₂ h₂ => ?_
  rw [wp_bind, wp_modify, wp_bind, liftMm, wp_zoom]
  refine h₂.imp fun _ m' h' => ?_
  rw [wp_bind, wp_modify, wp_modify]
  exact ⟨m', by simp [Kern.freed, Kern.updEnv], h'⟩

variable (cr3) in
theorem wp_releaseDir (h : Owned pool dirs e m) (hex : Exact pool dirs m free) (he : e < nenv)
    (hd : dirs e = some d) :
    wp (releaseDir cr3 d) (fun _ m' =>
        (∃ l, Exact pool (update dirs e none) m' (l ++ free)) ∧ Emptied pool dirs e m m' ∧
        ∀ i < userPdes, target dirs m'.mem (.tab e i) = none)
      (fun _ _ => False) m := by
  have hr : Ref.dir e ∈ allRefs := mem_allRefs.mpr he
  rw [releaseDir]
  refine (wp_freePdes h hex he hd).bind fun _ m₂ h₂ => ?_
  obtain ⟨⟨l, hex₂⟩, hempt, hempty⟩ := h₂
  have hdp := h.mem_pool _ hr rfl d hd
  have hpn : pgnum (page2pa d) < m₂.npages := by
    rw [pgnum_page2pa, hempt.npages]
    exact h.lt d hdp
  have hlink : (m₂.pages d).ppLink = none := (hex₂.counted hr hd hdp).2.2
  -- nothing is left but the directory, which `e` does not own any more
  have htarget := target_swapDir (e := e) none hempty fun _ hx => by cases hx
  have hhand := (RefPool.clear hex₂ hr hd).congr_slots htarget
  obtain ⟨l', hex₃⟩ := m₂.dropRef_pool hhand hdp (by simpa using hhand.bound d hdp) (by simp)
  rw [wp_bind_of_ret (pa2page_eq hpn), pgnum_page2pa, wp_of_ret (pageDecref_eq hlink)]
  refine ⟨⟨l' ++ l, ?_⟩, hempt.trans ?_, ?_⟩
  · rw [Exact, Mm.dropRef_mem, List.append_assoc]
    exact hex₃
  · refine ⟨fun x _ _ => by rw [Mm.dropRef_mem], fun x _ q hq => by rwa [Mm.dropRef_mem] at hq,
      fun q _ => by rw [Mm.dropRef_mem], fun q hq => ?_, m₂.dropRef_npages d, m₂.dropRef_kern d,
      m₂.dropRef_trace d⟩
    exact m₂.dropRef_other d fun hqd => hq (hqd ▸ hdp)
  · rw [Mm.dropRef_mem]
    exact hempty

theorem wp_envFree_emptied {s : Kern} (he : e < nenv) (hpgdir : (s.envs e).envPgdir = some d)
    (hd : dirs e = some d) (h : Owned pool dirs e s.mm) (hex : Exact pool dirs s.mm free) :
    wp (envFree e) (fun _ s' => ∃ m', s' = { s.freed e with mm := m' } ∧
        (∃ l, Exact pool (update dirs e none) m' (l ++ free)) ∧
        Emptied pool dirs e (s.mm.log (.envFree e)) m' ∧
        ∀ i < userPdes, target dirs m'.mem (.tab e i) = none)
      (fun _ _ => False) s :=
  wp_envFree_release hpgdir fun cr3 =>
    wp_releaseDir cr3 ⟨h.lt, h.mem_pool, h.once⟩ (m := s.mm.log (.envFree e)) hex he hd

end

/-! ### The invariant of memory -/

section

variable {B : MemCtx} {dirs : ℕ → Option ℕ} {held hand : List ℕ} {m m' : Mm} {e : ℕ}

theorem Shape.owned (h : Shape B dirs m) (e : ℕ) : Owned B.pool dirs e m where
  lt _ hp := h.lt_npages hp
  mem_pool r hr _ p hp := h.pool r hr p hp
  once r hr hrt _ p hp r' hr' hp' := (h.excl r hr r' hr' p hrt hp hp').symm

theorem Shape.emptied_mem (h : Shape B dirs m) (hm : Emptied B.pool dirs e m m') {r : Ref}
    (hr : r ∈ allRefs) (hrt : r.isTable) (hs : r.slot ≠ e) {q : ℕ}
    (hq : target dirs m.mem r = some q) : m'.mem q = m.mem q := by
  refine hm.mem q fun x hx _ hxs hxq => hs ?_
  rw [h.excl r hr x hx q hrt hq hxq]
  exact hxs

theorem PageInv.emptied {free : List ℕ} (h : Shape B dirs m) (hm : Emptied B.pool dirs e m m')
    (hempty : ∀ i < userPdes, target dirs m'.mem (.tab e i) = none)
    (hex : Exact B.pool (update dirs e none) m' free) :
    PageInv B (update dirs e none) [] [] m' := by
  have htarget := target_swapDir (e := e) none hempty fun _ hx => by cases hx
  have hold : ∀ r ∈ allRefs, ∀ p, target (update dirs e none) m'.mem r = some p →
      r ≠ .dir e ∧ target dirs m'.mem r = some p ∧ target dirs m.mem r = some p := by
    intro r hr p hp
    rw [htarget r hr] at hp
    by_cases hrd : r = .dir e
    · rw [hrd, update_self] at hp
      cases hp
    · rw [update_of_ne hrd] at hp
      exact ⟨hrd, hp, hm.own r hr p hp⟩
  -- the directories that are left
  have hdir : ∀ f < nenv, ∀ d, update dirs e none f = some d →
      dirs f = some d ∧ m'.mem d = m.mem d := by
    intro f hf d hd
    have hr : Ref.dir f ∈ allRefs := mem_allRefs.mpr hf
    obtain ⟨hne, -, hfd⟩ := hold (.dir f) hr d hd
    exact ⟨hfd, h.emptied_mem hm hr trivial (fun hfe => hne (congrArg Ref.dir hfe)) hfd⟩
  refine ⟨⟨hm.npages.trans h.npages, hm.kern.trans h.kern, fun r hr p hp => ?_,
    fun r hr r' hr' p hrt hp hp' => ?_, fun f hf d hd i hi => ?_, fun f hf d hd i hi hi' => ?_,
    fun f i t hr ht j hj => ?_, fun p hp => ?_⟩, free, hex⟩
  · exact h.pool r hr p (hold r hr p hp).2.2
  · exact h.excl r hr r' hr' p hrt (hold r hr p hp).2.2 (hold r' hr' p hp').2.2
  · obtain ⟨hfd, hmem⟩ := hdir f hf d hd
    rw [hmem]
    exact h.lower f hf d hfd i hi
  · obtain ⟨hfd, hmem⟩ := hdir f hf d hd
    rw [hmem]
    exact h.upper f hf d hfd i hi hi'
  · obtain ⟨-, hnow, hthen⟩ := hold (.tab f i) hr t ht
    have hfe : f ≠ e := by
      rintro rfl
      rw [hempty i (mem_allRefs.mp hr).2] at hnow
      cases hnow
    rw [h.emptied_mem hm hr trivial hfe hthen]
    exact h.perms f i t hr hthen j hj
  · rw [hm.mem p fun r hr _ _ hrp => hp (h.pool r hr p hrp)]
    exact h.outside p hp

end

end Jos
