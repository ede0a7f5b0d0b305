/-
`env_free` gives back what an environment owned.

Here memory is any memory whose reference counts are exact
(`Kern.ExactCounts`), whoever shares which pages; the kernel half of the page
directories is arbitrary.  What has to be known besides is that nobody else
uses the page directory and the page tables of the environment
(`Kern.OwnsTables`); in the runs of `MemInv` this is always so
(`MemInv.ownsTables`).

* `env_free_releases` — counts, free list, translations and the slot after
  `env_free`;
* `env_free_keeps_mapped_directory` — a directory that another environment has
  mapped does not become free.
-/
import Jos.Kern.MemInv
import Jos.Kern.Translate

namespace Jos

open Prog Function Demo

/-- Every count in `pool` is the number of references there are, environments
refer to pages of `pool` only, and `free` is the page free list. -/
structure Kern.ExactCounts (s : Kern) (pool : Set ℕ) (free : List ℕ) : Prop where
  lt : ∀ p ∈ pool, p < s.mm.npages
  mem_pool : ∀ r ∈ allRefs, ∀ p, target s.dirs s.mm.mem r = some p → p ∈ pool
  exact_ : Exact pool s.dirs s.mm free

/-- Nobody else uses the directory and the page tables of `e`: no environment
maps them, and no other directory leads to them, above `UTOP` included. -/
structure Kern.OwnsTables (s : Kern) (e : ℕ) : Prop where
  once : ∀ r ∈ allRefs, r.isTable → r.slot = e → ∀ p, target s.dirs s.mm.mem r = some p →
    ∀ r' ∈ allRefs, target s.dirs s.mm.mem r' = some p → r' = r
  apart : ∀ f < nenv, f ≠ e → ∀ d, s.dirs f = some d → ∀ i, userPdes ≤ i → i < 1024 →
    present (s.mm.mem d i) → ∀ r ∈ allRefs, r.isTable → r.slot = e →
      target s.dirs s.mm.mem r ≠ some (frame (s.mm.mem d i))

/-- The number of references environment `e` holds on page `p`. -/
def Kern.heldBy (s : Kern) (e p : ℕ) : ℕ :=
  refs (allRefs.filter fun r => r.slot = e) (target s.dirs s.mm.mem) p

section

variable {s s' : Kern} {pool : Set ℕ} {free : List ℕ} {e d f p : ℕ} {m' : Mm}

theorem Kern.ExactCounts.owned (h : s.ExactCounts pool free) (ho : s.OwnsTables e) :
    Owned pool s.dirs e s.mm :=
  ⟨h.lt, fun r hr _ p hp => h.mem_pool r hr p hp, ho.once⟩

theorem Kern.ExactCounts.ppRef (h : s.ExactCounts pool free) (hp : p ∈ pool) :
    (s.mm.pages p).ppRef = refs allRefs (target s.dirs s.mm.mem) p := by
  rw [h.exact_.cnt_eq p hp, List.count_nil, Nat.add_zero,
    Nat.mod_eq_of_lt (h.exact_.bound p hp)]

theorem Kern.ExactCounts.mem_free (h : s.ExactCounts pool free) :
    p ∈ free ↔ p ∈ pool ∧ ∀ r ∈ allRefs, target s.dirs s.mm.mem r ≠ some p := by
  rw [RefPool.mem_free h.exact_ p, List.count_nil, Nat.add_zero, refs_eq_zero]
  simp

theorem target_freed {dirs : ℕ → Option ℕ} {m : Mm} (hm : Emptied pool dirs e m m')
    (hempty : ∀ i < userPdes, target dirs m'.mem (.tab e i) = none) {r : Ref} (hr : r ∈ allRefs) :
    target (update dirs e none) m'.mem r =
      if r.slot = e then none else target dirs m.mem r := by
  rw [target_swapDir none hempty (fun _ hx => by cases hx) r hr]
  by_cases hs : r.slot = e
  · rw [if_pos hs]
    subst hs
    cases r with
    | dir f => exact update_self ..
    | tab f i =>
      rw [update_of_ne (by rintro ⟨⟩)]
      exact hempty i (mem_allRefs.mp hr).2
    | page f i j =>
      rw [update_of_ne (by rintro ⟨⟩)]
      exact target_page_none (hempty i (mem_allRefs.mp hr).2.1)
  · rw [if_neg hs, update_of_ne (by rintro rfl; exact hs rfl), hm.others r hr hs]

/-- The places of `e` refer to nothing any more, those of the others to what
they did. -/
def Kern.Released (s : Kern) (e : ℕ) (s' : Kern) : Prop :=
  ∀ r ∈ allRefs, target s'.dirs s'.mm.mem r =
    if r.slot = e then none else target s.dirs s.mm.mem r

theorem Kern.Released.heldBy (h : s.Released e s') (hc : s.ExactCounts pool free)
    {free' : List ℕ} (hc' : s'.ExactCounts pool free') (hp : p ∈ pool) :
    (s'.mm.pages p).ppRef + s.heldBy e p = (s.mm.pages p).ppRef := by
  rw [hc'.ppRef hp, hc.ppRef hp]
  refine refs_emptied (fun r hr hs => ?_) (fun r hr hs => ?_) p
  · rw [h r hr, if_pos hs]
  · rw [h r hr, if_neg hs]

theorem Kern.Released.not_mem_freed (h : s.Released e s') (hc : s.ExactCounts pool free)
    {freed : List ℕ} (hc' : s'.ExactCounts pool (freed ++ free)) {r : Ref} (hr : r ∈ allRefs)
    (hp : target s.dirs s.mm.mem r = some p) :
    p ∉ freed ↔ ∃ r ∈ allRefs, r.slot ≠ e ∧ target s.dirs s.mm.mem r = some p := by
  have hnot : p ∉ free := fun hf => (hc.mem_free.mp hf).2 r hr hp
  have hmem : p ∈ freed ↔ p ∈ freed ++ free := by simp [hnot]
  rw [hmem, hc'.mem_free]
  constructor
  · intro hno
    by_contra hall
    refine hno ⟨hc.mem_pool r hr p hp, fun x hx hxp => ?_⟩
    rw [h x hx] at hxp
    split at hxp
    · cases hxp
    · next hxs => exact hall ⟨x, hx, hxs, hxp⟩
  · rintro ⟨x, hx, hxs, hxp⟩ ⟨-, hall⟩
    refine hall x hx ?_
    rw [h x hx, if_neg hxs]
    exact hxp

theorem Kern.OwnsTables.translate (ho : s.OwnsTables e) {o : Obs}
    (hm : Emptied pool s.dirs e (s.mm.log o) m') (hf : f < nenv) (hne : f ≠ e) (hd : s.dirs f = some d) (va : ℕ) :
    m'.translate d va = s.mm.translate d va := by
  have hrd : Ref.dir f ∈ allRefs := mem_allRefs.mpr hf
  have hdir : m'.mem d = s.mm.mem d := by
    refine hm.mem d fun r hr hrt hs hrq => hne ?_
    have := ho.once r hr hrt hs d hrq _ hrd hd
    rw [← hs, ← this]
    rfl
  have hpde : m'.pde d va = s.mm.pde d va := by rw [Mm.pde, Mm.pde, hdir]
  refine Mm.translate_eq hpde fun hpres => ?_
  rw [Mm.pte, Mm.pte, hpde, hm.mem]
  · rfl
  by_cases hu : pdx va < userPdes
  · -- a table of the user half
    intro r hr hrt hs hrq
    have hrt' : Ref.tab f (pdx va) ∈ allRefs := mem_allRefs.mpr ⟨hf, hu⟩
    have htab : target s.dirs s.mm.mem (.tab f (pdx va)) = some (frame (s.mm.pde d va)) := by
      rw [target_tab hd]
      exact entry_eq_some.mpr ⟨hpres, rfl⟩
    have := ho.once r hr hrt hs _ hrq _ hrt' htab
    exact hne (by rw [← hs, ← this]; rfl)
  · exact ho.apart f hf hne d hd _ (Nat.not_lt.mp hu) (pdx_lt va) hpres

end

theorem MemInv.ownsTables {B : MemCtx} {crash : Prop} {s : Kern} (h : MemInv B crash s) (e : ℕ) :
    s.OwnsTables e where
  once := (h.page.shape.owned e).once
  apart f hf hne d hd i hi hi' _ r hr hrt hs hrp := by
    have hrd : Ref.dir f ∈ allRefs := mem_allRefs.mpr hf
    rw [h.page.shape.upper f hf d hd i hi hi'] at hrp
    split at hrp
    · -- `UVPT` shows the directory of `f` itself
      rw [frame_mkPte_of_lt (MemCtx.lt_two_pow (h.page.shape.pool _ hrd d hd)) (by decide)] at hrp
      have := h.page.shape.excl r hr _ hrd d hrt hrp hd
      rw [this] at hs
      exact hne hs
    · exact B.booted.upper_free i hi hi' (h.page.shape.pool r hr _ hrp)

theorem MemInv.exactCounts {B : MemCtx} {crash : Prop} {s : Kern} (h : MemInv B crash s) :
    ∃ free, s.ExactCounts B.pool free := by
  obtain ⟨free, hc⟩ := h.page.counts
  exact ⟨free, fun p hp => h.page.shape.lt_npages hp, h.page.shape.pool, hc⟩

/-- **`env_free`**: the counts are exact for the environments that remain, every
page has lost the references `e` held, the directory and the tables of `e` are
on the free list, a page `e` had mapped is not if and only if another
environment refers to it, no page is on the list twice, the other environments
see what they saw, and `e` is the first free slot. -/
theorem env_free_releases (s : Kern) (pool : Set ℕ) (free : List ℕ) (e : ℕ) (he : e < nenv)
    (hd : s.dirs e ≠ none) (hc : s.ExactCounts pool free) (ho : s.OwnsTables e) :
    ∃ s' freed, envFree e s = .ret () s' ∧
      s'.ExactCounts pool (freed ++ free) ∧ s'.dirs = update s.dirs e none ∧
      (∀ p ∈ pool, (s'.mm.pages p).ppRef + s.heldBy e p = (s.mm.pages p).ppRef) ∧
      (∀ p, p ∉ pool → s'.mm.pages p = s.mm.pages p) ∧
      (∀ r ∈ allRefs, r.isTable → r.slot = e →
        ∀ p, target s.dirs s.mm.mem r = some p → p ∈ freed) ∧
      (∀ i j p, Ref.page e i j ∈ allRefs → target s.dirs s.mm.mem (.page e i j) = some p →
        (p ∉ freed ↔ ∃ r ∈ allRefs, r.slot ≠ e ∧ target s.dirs s.mm.mem r = some p)) ∧
      (freed ++ free).Nodup ∧
      (∀ f < nenv, f ≠ e → s'.envs f = s.envs f ∧ ∀ d, s.dirs f = some d →
        ∀ va, s'.mm.translate d va = s.mm.translate d va) ∧
      (s'.envs e).envStatus = .free ∧ s'.envFreeList = some e ∧
      (s'.envs e).envLink = s.envFreeList := by
  obtain ⟨d, hd⟩ := Option.ne_none_iff_exists'.mp hd
  have hpgdir : (s.envs e).envPgdir = some d := by
    unfold Kern.dirs at hd
    split at hd
    · cases hd
    · exact hd
  obtain ⟨⟨⟩, s', hrun, m', rfl, ⟨freed, hex⟩, hm, hempty⟩ :=
    (wp_envFree_emptied he hpgdir hd (hc.owned ho) hc.exact_).exists_ret
  generalize hs' : ({ s.freed e with mm := m' } : Kern) = s' at hrun
  have hmm : s'.mm = m' := by rw [← hs']
  have henvs : s'.envs = (s.freed e).envs := by rw [← hs']
  have hdirs : s'.dirs = update s.dirs e none := by
    rw [← hs']
    exact s.dirs_freed e m'
  have hreleased : s.Released e s' := by
    intro r hr
    rw [hdirs, hmm]
    exact target_freed hm hempty hr
  have hc' : s'.ExactCounts pool (freed ++ free) := by
    refine ⟨fun p hp => ?_, fun r hr p hp => ?_, ?_⟩
    · rw [hmm, hm.npages]
      exact hc.lt p hp
    · rw [hreleased r hr] at hp
      split at hp
      · cases hp
      · exact hc.mem_pool r hr p hp
    · rw [hdirs, hmm]
      exact hex
  refine ⟨s', freed, hrun, hc', hdirs, fun p hp => hreleased.heldBy hc hc' hp, fun p hp => ?_,
    fun r hr hrt hs p hp => ?_, fun i j p hr hp => hreleased.not_mem_freed hc hc' hr hp,
    hc'.exact_.linked.nodup, fun f hf hne => ⟨?_, fun d hd va => ?_⟩, ?_, ?_, ?_⟩
  · rw [hmm]
    exact hm.pages p hp
  · -- nobody else refers to a table
    by_contra hno
    obtain ⟨x, hx, hxs, hxp⟩ := (hreleased.not_mem_freed hc hc' hr hp).mp hno
    rw [ho.once r hr hrt hs p hp x hx hxp] at hxs
    exact hxs hs
  · rw [henvs, Kern.freed_envs, if_neg hne]
  · rw [hmm]
    exact ho.translate hm hf hne hd va
  · rw [henvs, Kern.freed_envs, if_pos rfl]
  · rw [← hs']
    rfl
  · rw [henvs, Kern.freed_envs, if_pos rfl]

/-! ### Two environments -/

/-- Environment 0 has directory 1 with entry `w` for table 2, environment 1
directory 3 with table 4, whose first entry is `v`; table 2 maps page 5.  The
counts are `cnt`. -/
def Demo.pair (w v : ℕ) (cnt : ℕ → ℕ) : Kern where
  mm := {
    npages := 8
    mem := fun p i =>
      if i ≠ 0 then 0
      else if p = 1 then w
      else if p = 2 then mkPte 5 pteU
      else if p = 3 then mkPte 4 pteU
      else if p = 4 then v
      else 0
    pages := fun p => { ppRef := cnt p, ppLink := none }
    pageFreeList := none
    kernPgdir := 7 }
  envs := fun e =>
    if e = 0 then { envId := 4096, envStatus := .runnable, envPgdir := some 1 }
    else if e = 1 then { envId := 4097, envStatus := .runnable, envPgdir := some 3 }
    else {}
  envFreeList := some 2
  envsEnd := 6
  cpus := fun _ => { cpuStatus := .started, cpuEnv := some 1, cr3 := 3 }

theorem Demo.pair_dirs (w v : ℕ) (cnt : ℕ → ℕ) (e : ℕ) : (pair w v cnt).dirs e =
    if e = 0 then some 1 else if e = 1 then some 3 else none := by
  unfold Kern.dirs pair
  by_cases h0 : e = 0
  · simp [h0]
  · by_cases h1 : e = 1
    · simp [h1]
    · simp [h0, h1]

theorem Demo.pair_entry (w v : ℕ) (cnt : ℕ → ℕ) (p i : ℕ) :
    entry ((pair w v cnt).mm.mem p i) =
      if i ≠ 0 then none else if p = 1 then entry w else if p = 2 then some 5
      else if p = 3 then some 4 else if p = 4 then entry v else none := by
  have h4 : entry (mkPte 4 pteU) = some 4 := by decide
  have h5 : entry (mkPte 5 pteU) = some 5 := by decide
  simp only [pair]
  split_ifs <;> simp only [entry_zero, h4, h5]

def Demo.pairRefs (w v : ℕ) : List (Ref × ℕ) :=
  [(.dir 0, 1), (.dir 1, 3), (.tab 1 0, 4)] ++
    (if entry w = some 2 then [(.tab 0 0, 2), (.page 0 0 0, 5)] else []) ++
    (entry v).toList.map fun p => (.page 1 0 0, p)

section

variable {w v : ℕ} {c : ℕ → ℕ}

theorem Demo.pair_target (hw : entry w = none ∨ entry w = some 2) (r : Ref) (p : ℕ) :
    target (pair w v c).dirs (pair w v c).mm.mem r = some p ↔
      (r, p) ∈ pairRefs w v := by
  have hslot : ∀ e, e = 0 ∨ e = 1 ∨ (e ≠ 0 ∧ e ≠ 1) := by omega
  cases r with
  | dir e =>
    rcases hw with hw | hw <;> rcases hslot e with rfl | rfl | ⟨h, h'⟩ <;>
      simp [target, pair_dirs, pairRefs, eq_comm, *]
  | tab e i =>
    rcases hw with hw | hw <;> rcases hslot e with rfl | rfl | ⟨h, h'⟩ <;> by_cases hi : i = 0 <;>
      simp [target, pair_dirs, pair_entry, pairRefs, eq_comm, *]
  | page e i j =>
    rcases hw with hw | hw <;> rcases hslot e with rfl | rfl | ⟨h, h'⟩ <;> by_cases hi : i = 0 <;>
      by_cases hj : j = 0 <;>
      simp [target, pair_dirs, pair_entry, pairRefs, eq_comm, *]

theorem Demo.pairRefs_mem (w v : ℕ) : ∀ x ∈ pairRefs w v, x.1 ∈ allRefs := by
  intro x hx
  rw [mem_allRefs]
  unfold pairRefs at hx
  rw [List.mem_append, List.mem_append] at hx
  rcases hx with (hbase | hpage) | hlast
  · revert x
    decide
  · split at hpage
    · revert x
      decide
    · exact absurd hpage List.not_mem_nil
  · obtain ⟨p, -, rfl⟩ := List.mem_map.mp hlast
    exact ⟨by decide, by decide, by decide⟩

theorem Demo.pair_exact (hw : entry w = none ∨ entry w = some 2)
    (hcnt : ∀ x ∈ pairRefs w v, x.2 < 8 ∧ c x.2 < 2 ^ 16 ∧
      c x.2 = (((pairRefs w v).filter (·.2 = x.2)).map Prod.fst).toFinset.card) :
    (pair w v c).ExactCounts {p | ∃ x ∈ pairRefs w v, x.2 = p} [] := by
  have htarget : ∀ r ∈ allRefs, ∀ p,
      target (pair w v c).dirs (pair w v c).mm.mem r = some p ↔
        (r, p) ∈ pairRefs w v := fun r _ p => pair_target hw r p
  have hrefs := refs_of_list (pairRefs_mem w v) htarget
  refine ⟨?_, fun r hr p hp => ⟨(r, p), (htarget r hr p).mp hp, rfl⟩, .nil, fun p => ?_,
    fun p _ _ => rfl, ?_, ?_⟩
  · rintro p ⟨x, hx, rfl⟩
    exact (hcnt x hx).1
  · refine ⟨fun hp => absurd hp List.not_mem_nil, ?_⟩
    rintro ⟨⟨x, hx, rfl⟩, h0, -⟩
    -- the pages listed have a reference
    have hr := pairRefs_mem w v x hx
    have := refs_pos hr ((htarget x.1 hr x.2).mpr hx)
    omega
  · rintro p ⟨x, hx, rfl⟩
    obtain ⟨-, hlt, heq⟩ := hcnt x hx
    rw [List.count_nil, Nat.add_zero, hrefs x.2, ← heq, Nat.mod_eq_of_lt hlt]
    rfl
  · rintro p ⟨x, hx, rfl⟩
    obtain ⟨-, hlt, heq⟩ := hcnt x hx
    rwa [hrefs x.2, ← heq]

end

def Demo.sharing : Kern :=
  pair (mkPte 2 pteU) (mkPte 5 pteU) fun p => if p = 5 then 2 else 1

theorem Demo.sharing_exact :
    sharing.ExactCounts {p | ∃ x ∈ pairRefs (mkPte 2 pteU) (mkPte 5 pteU), x.2 = p} [] :=
  pair_exact (by decide) (by decide)

theorem Demo.sharing_target (r : Ref) (p : ℕ) :
    target sharing.dirs sharing.mm.mem r = some p ↔
      (r, p) ∈ pairRefs (mkPte 2 pteU) (mkPte 5 pteU) :=
  pair_target (.inr (by decide)) r p

theorem Demo.sharing_owns : sharing.OwnsTables 0 := by
  have honce : ∀ x ∈ pairRefs (mkPte 2 pteU) (mkPte 5 pteU), x.1.isTable → x.1.slot = 0 →
      ∀ y ∈ pairRefs (mkPte 2 pteU) (mkPte 5 pteU), y.2 = x.2 → y.1 = x.1 := by decide
  constructor
  · intro r _ hrt hs p hp r' _ hp'
    exact honce (r, p) ((sharing_target r p).mp hp) hrt hs (r', p)
      ((sharing_target r' p).mp hp') rfl
  · -- the kernel half of both directories is empty
    intro f _ _ d _ i hi _ hpres
    have hi0 : i ≠ 0 := fun h0 => absurd hi (by rw [h0]; decide)
    have hzero : sharing.mm.mem d i = 0 := if_pos hi0
    rw [hzero] at hpres
    exact absurd hpres not_present_zero

/-- Page 5 stays with environment 1. -/
theorem env_free_releases_sharing : ∃ s', ∃ freed : List ℕ, envFree 0 sharing = .ret () s' ∧
    1 ∈ freed ∧ 2 ∈ freed ∧ 5 ∉ freed ∧ (s'.mm.pages 5).ppRef + sharing.heldBy 0 5 = 2 ∧
    s'.envFreeList = some 0 := by
  obtain ⟨s', freed, hrun, -, -, hcnt, -, htab, hpage, -, -, -, hlist, -⟩ :=
    env_free_releases sharing _ [] 0 (by decide) (by decide) sharing_exact
      sharing_owns
  refine ⟨s', freed, hrun, ?_, ?_, ?_, hcnt 5 ⟨(.page 0 0 0, 5), by decide, rfl⟩, hlist⟩
  · exact htab (.dir 0) (mem_allRefs.mpr (by decide)) trivial rfl 1
      ((sharing_target (.dir 0) 1).mpr (by decide))
  · exact htab (.tab 0 0) (mem_allRefs.mpr ⟨by decide, by decide⟩) trivial rfl 2
      ((sharing_target (.tab 0 0) 2).mpr (by decide))
  · refine (hpage 0 0 5 (mem_allRefs.mpr ⟨by decide, by decide, by decide⟩)
      ((sharing_target (.page 0 0 0) 5).mpr (by decide))).mpr ⟨.page 1 0 0, ?_, by decide, ?_⟩
    · exact mem_allRefs.mpr ⟨by decide, by decide, by decide⟩
    · exact (sharing_target (.page 1 0 0) 5).mpr (by decide)

def Demo.watched : Kern := pair 0 (mkPte 1 pteU) fun p => if p = 1 then 2 else 1

theorem Demo.watched_exact :
    watched.ExactCounts {p | ∃ x ∈ pairRefs 0 (mkPte 1 pteU), x.2 = p} [] :=
  pair_exact (by decide) (by decide)

theorem releaseDir_absent {m : Mm} {d : ℕ} (cr3 : ℕ) (habsent : ∀ i, ¬ present (m.mem d i))
    (hlt : d < m.npages) (hlink : (m.pages d).ppLink = none) :
    releaseDir cr3 d m = .ret () (m.dropRef d) := by
  have hloop : wp (forFrom (freePde cr3 d) 0 userPdes) (fun _ m' => m' = m) (fun _ _ => False) m := by
    refine wp_forFrom (fun _ m' => m' = m) rfl ?_
    rintro k m' - - rfl
    rw [freePde, wp_bind, wp_get, if_pos (habsent k)]
    rfl
  obtain ⟨⟨⟩, m', hrun, rfl⟩ := hloop.exists_ret
  have hpn : pgnum (page2pa d) < m'.npages := by rwa [pgnum_page2pa]
  rw [releaseDir, ret_bind hrun, ret_bind (pa2page_eq hpn), pgnum_page2pa, pageDecref_eq hlink]

theorem envFree_absent {s : Kern} {e d : ℕ} (hpgdir : (s.envs e).envPgdir = some d)
    (habsent : ∀ i, ¬ present (s.mm.mem d i)) (hlt : d < s.mm.npages)
    (hlink : (s.mm.pages d).ppLink = none) :
    ∃ s', envFree e s = .ret () s' ∧ s'.mm = (s.mm.log (.envFree e)).dropRef d := by
  have hrelease : ∀ cr3, releaseDir cr3 d (s.mm.log (.envFree e)) =
      .ret () ((s.mm.log (.envFree e)).dropRef d) := fun cr3 =>
    releaseDir_absent cr3 habsent hlt hlink
  obtain ⟨⟨⟩, s', hrun, m', rfl, rfl⟩ := (wp_envFree_release (Q := (· = _)) hpgdir fun cr3 =>
    (wp_of_ret (hrelease cr3)).mpr rfl).exists_ret
  exact ⟨_, hrun, rfl⟩

/-- **Counterexample** without `Kern.OwnsTables`: the counts are exact, and the
directory of the environment that is freed keeps a reference. -/
theorem env_free_keeps_mapped_directory :
    watched.ExactCounts {p | ∃ x ∈ pairRefs 0 (mkPte 1 pteU), x.2 = p} [] ∧
    watched.dirs 0 = some 1 ∧
    ∃ s', envFree 0 watched = .ret () s' ∧ (s'.mm.pages 1).ppRef = 1 ∧
      s'.mm.pageFreeList = none := by
  refine ⟨watched_exact, by decide, ?_⟩
  have habsent : ∀ i, ¬ present (watched.mm.mem 1 i) := by
    intro i
    have hzero : watched.mm.mem 1 i = 0 := by
      show (if i ≠ 0 then 0 else 0) = 0
      exact ite_self 0
    rw [hzero]
    exact not_present_zero
  obtain ⟨s', hrun, hmm⟩ := envFree_absent (s := watched) (e := 0) rfl habsent (by decide) rfl
  refine ⟨s', hrun, ?_, ?_⟩
  · rw [hmm]
    decide
  · rw [hmm]
    decide

end Jos
