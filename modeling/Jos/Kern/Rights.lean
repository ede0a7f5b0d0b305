/-
Which rights a mapping passes on.

`sys_page_map` and `sys_ipc_try_send` make an entry from one that exists and a
`perm` of the caller's.  Nothing is assumed about the state, except that the
page directory of the destination does not serve as a page table of its own
(`Kern.Apart`).

* `mapping_rights` — rights do not grow, and both calls accept the same pairs,
  exactly where `sys_page_map` is called with a `perm` that `sys_ipc_try_send`
  accepts;
* `page_map_adds_rights` — it makes a writable entry from a read-only one, and
  an entry for another page.
-/
import Jos.Kern.MemCalls
import Jos.Kern.Insert
import Jos.Kern.EnvFree

namespace Jos

open Prog Demo

/-! ### Page tables in any state -/

section Pages

variable {m : Mm} {d va cr3 pp pa p : ℕ}

theorem wp_kaddr {Q : ℕ → Mm → Prop} (h : pgnum pa < m.npages → Q (pgnum pa) m) :
    wp (kaddr pa) Q (fun _ _ => True) m := by
  rw [kaddr, wp_bind, wp_get, wp_ite]
  exact ⟨fun _ => trivial, fun hlt => h (Nat.not_le.mp hlt)⟩

theorem wp_pa2page {Q : ℕ → Mm → Prop} (h : pgnum pa < m.npages → Q (pgnum pa) m) :
    wp (pa2page pa) Q (fun _ _ => True) m := by
  rw [pa2page, wp_bind, wp_get, wp_ite]
  exact ⟨fun _ => trivial, fun hlt => h (Nat.not_le.mp hlt)⟩

theorem wp_pageDecref_mem : wp (pageDecref p) (fun _ m' => m'.mem = m.mem) (fun _ _ => True) m := by
  rw [pageDecref, wp_bind, wp_modify, wp_bind, wp_get, wp_when]
  refine ⟨fun _ => ?_, fun _ => rfl⟩
  rw [pageFree, wp_bind, wp_get, wp_ite]
  refine ⟨fun _ => trivial, fun _ => ?_⟩
  rw [wp_ite]
  exact ⟨fun _ => trivial, fun _ => rfl⟩

theorem wp_pageAlloc_zero {Q : Option ℕ → Mm → Prop} (hnone : m.pageFreeList = none → Q none m)
    (hsome : ∀ q, m.pageFreeList = some q → q < m.npages → Q (some q) (m.alloc allocZero q)) :
    wp (pageAlloc allocZero) Q (fun _ _ => True) m := by
  cases hl : m.pageFreeList with
  | none =>
    rw [wp_of_ret (pageAlloc_none hl _)]
    exact hnone hl
  | some q =>
    by_cases hq : q < m.npages
    · rw [wp_of_ret (pageAlloc_eq hl hq _)]
      exact hsome q hl hq
    · rw [pageAlloc, wp_bind, wp_get, hl]
      simp only
      rw [wp_bind, wp_modify, if_pos (by decide), page2kva, wp_bind]
      refine wp_kaddr fun hlt => absurd ?_ hq
      rwa [pgnum_page2pa] at hlt

theorem wp_pageLookup_table (hp : present (m.pde d va)) : wp (pageLookup cr3 d va)
    (fun r m' => m' = m ∧ r = (entry (m.pte d va)).map (·, frame (m.pde d va), ptx va))
    (fun _ _ => True) m := by
  have hp' : present (m.mem d (pdx va)) := hp
  rw [pageLookup, pgdirWalk, wp_bind, wp_bind, wp_get]
  simp only
  rw [wp_bind]
  refine wp_kaddr fun hlt => ?_
  rw [if_pos hp', wp_pure, readPte, wp_bind, wp_gets, wp_ite]
  refine ⟨fun habs => ⟨rfl, ?_⟩, fun hpte => ?_⟩
  · rw [show entry (m.pte d va) = none from entry_eq_none.mpr habs]
    rfl
  · rw [wp_bind]
    refine wp_pa2page fun _ => ⟨rfl, ?_⟩
    rw [show entry (m.pte d va) = some (frame (m.pte d va)) from
      entry_eq_some.mpr ⟨not_not.mp hpte, rfl⟩]
    rfl

theorem wp_pageLookup_found : wp (pageLookup cr3 d va) (fun r m' => ∀ pp loc, r = some (pp, loc) →
    m' = m ∧ m.translate d va = some (m.pde d va, m.pte d va) ∧
      loc = (frame (m.pde d va), ptx va) ∧ pp = frame (m.pte d va)) (fun _ _ => True) m := by
  by_cases hp : present (m.pde d va)
  · refine (wp_pageLookup_table hp).imp ?_
    rintro r m' ⟨rfl, rfl⟩ pp loc hr
    obtain ⟨q, hq, hloc⟩ := Option.map_eq_some_iff.mp hr
    obtain ⟨hpte, rfl⟩ := entry_eq_some.mp hq
    cases hloc
    exact ⟨rfl, Mm.translate_of_present hp hpte, rfl, rfl⟩
  · -- no table: a word is read through the null pointer, and dropped
    have hp' : ¬ present (m.mem d (pdx va)) := hp
    have hnone : wp (pageLookup cr3 d va) (fun r _ => r = none) (fun _ _ => True) m := by
      rw [pageLookup, pgdirWalk, wp_bind, wp_bind, wp_get]
      simp only
      rw [wp_bind]
      refine wp_kaddr fun _ => ?_
      rw [if_neg hp', if_neg Bool.false_ne_true, wp_pure]
      refine (wp_trivial _ _).bind fun w m' _ => ?_
      rw [wp_ite]
      exact ⟨fun _ => rfl, fun _ => rfl⟩
    exact hnone.imp fun r _ hr pp loc h => by rw [hr] at h; cases h

theorem wp_pgdirWalk_apart (hn : m.npages ≤ 2 ^ 20) (hfree : m.pageFreeList ≠ some d)
    (hself : present (m.pde d va) → frame (m.pde d va) ≠ d) :
    wp (pgdirWalk d va true) (fun r m' => ∀ loc, r = some loc →
      loc = (frame (m'.pde d va), ptx va) ∧ present (m'.pde d va) ∧ frame (m'.pde d va) ≠ d)
      (fun _ _ => True) m := by
  rw [pgdirWalk, wp_bind, wp_get]
  simp only
  rw [wp_bind]
  refine wp_kaddr fun _ => ?_
  rw [wp_ite]
  refine ⟨fun hp loc hloc => ?_, fun _ => ?_⟩
  · cases hloc
    exact ⟨rfl, hp, hself hp⟩
  rw [if_pos trivial, wp_bind]
  refine wp_pageAlloc_zero (fun _ loc hloc => by cases hloc) fun q hl hq => ?_
  have hqd : q ≠ d := fun hqd => hfree (hqd ▸ hl)
  have hpde : (((m.alloc allocZero q).incRef q).setWord d (pdx va)
      (mkPte q (pteW ||| pteU))).pde d va = mkPte q (pteW ||| pteU) := Mm.setWord_self ..
  simp only
  rw [wp_bind, wp_modify, wp_bind, wp_modify, wp_bind]
  refine wp_kaddr fun _ loc hloc => ?_
  rw [hpde]
  cases hloc
  refine ⟨rfl, present_mkPte _ _, ?_⟩
  rw [frame_mkPte_of_lt (Nat.lt_of_lt_of_le hq hn) (by decide)]
  exact hqd

theorem wp_pageInsert_result (perm : ℕ) : wp (pageInsert cr3 d pp va perm)
    (fun r _ => r = 0 ∨ r = -eNoMem) (fun _ _ => True) m := by
  rw [pageInsert]
  refine (wp_trivial _ _).bind fun r m₁ _ => ?_
  cases r with
  | none => exact .inr rfl
  | some loc =>
    simp only
    rw [wp_bind, wp_modify, wp_bind, wp_get, wp_bind]
    exact (wp_trivial _ _).imp fun _ _ _ => .inl rfl

theorem wp_pageInsert_entry (perm : ℕ) (hn : m.npages ≤ 2 ^ 20) (hfree : m.pageFreeList ≠ some d)
    (hself : present (m.pde d va) → frame (m.pde d va) ≠ d) :
    wp (pageInsert cr3 d pp va perm) (fun r m' =>
      r = 0 → ∃ pde, m'.translate d va = some (pde, mkPte pp perm)) (fun _ _ => True) m := by
  rw [pageInsert]
  refine (wp_pgdirWalk_apart hn hfree hself).bind fun r m₁ h₁ => ?_
  cases r with
  | none => exact fun h0 => absurd h0 (by decide)
  | some loc =>
    obtain ⟨rfl, hp, hne⟩ := h₁ loc rfl
    simp only
    -- a store into the table does not change the directory
    have hstore : ∀ m₂ : Mm, m₂.pde d va = m₁.pde d va →
        ∃ pde, (m₂.setWord (frame (m₁.pde d va)) (ptx va) (mkPte pp perm)).translate d va =
          some (pde, mkPte pp perm) := by
      intro m₂ hpde
      refine ⟨m₂.pde d va, Mm.translate_store (by rwa [hpde]) (by rw [hpde]) hne ?_⟩
      exact present_mkPte _ _
    rw [wp_bind, wp_modify, wp_bind, wp_get, wp_bind, wp_when]
    refine ⟨fun _ => ?_, fun _ => ?_⟩
    · rw [pageRemove]
      refine (wp_pageLookup_table (m := m₁.incRef pp) hp).bind ?_
      rintro r m₂ ⟨rfl, rfl⟩
      cases entry ((m₁.incRef pp).pte d va) with
      | none => exact fun _ => hstore _ rfl
      | some q =>
        simp only [Option.map_some]
        refine wp_pageDecref_mem.bind fun _ m₃ h₃ => ?_
        refine fun _ => hstore _ ?_
        show (m₃.setWord (frame (m₁.pde d va)) (ptx va) 0).mem d (pdx va) = _
        rw [Mm.setWord_other _ _ _ _ hne.symm, h₃]
        rfl
    · exact fun _ => hstore _ rfl

end Pages

/-! ### Rights -/

/-- The entry for `va` in the address space of `e`, if the MMU gets to it. -/
def Kern.entryOf (s : Kern) (e va : ℕ) : Option ℕ :=
  (s.envs e).envPgdir.bind fun d => (s.mm.translate d va).map Prod.snd

/-- What `sys_ipc_try_send` asks of `perm`, for source entry `w`. -/
structure PermOk (w perm : ℕ) : Prop where
  user : perm &&& pteU = pteU
  present : perm &&& pteP = pteP
  syscall : perm &&& notSyscall = 0
  write : perm &&& pteW ≠ 0 → w &&& pteW ≠ 0

/-- Entry `x` is made from `w` and `perm`, with no right that `w` does not give. -/
structure Granted (w perm x : ℕ) : Prop where
  page : frame x = frame w
  flags : flags x = perm ||| pteP
  syscall : perm &&& notSyscall = 0
  user : perm &&& pteU ≠ 0
  write : x &&& pteW ≠ 0 → w &&& pteW ≠ 0

theorem lt_of_syscall {perm : ℕ} (hperm : perm < 2 ^ 32) (h : perm &&& notSyscall = 0) :
    perm < 4096 := by
  have hmask : (0xfffff000 : ℕ) = notSyscall &&& 0xfffff000 := by decide
  have haddr : pteAddr perm = 0 := by rw [pteAddr, hmask, ← Nat.and_assoc, h, Nat.zero_and]
  have hframe : frame perm = 0 := by
    rw [frame, haddr]
    rfl
  rw [frame_eq] at hframe
  omega

theorem permOk_iff_granted {w perm : ℕ} (hperm : perm < 2 ^ 32) : PermOk w perm ↔
    Granted w perm (mkPte (frame w) perm) ∧ perm &&& pteP = pteP := by
  have hframe : frame w < 2 ^ 20 := by
    rw [frame_eq]
    exact Nat.mod_lt _ (by decide)
  have hflags : perm &&& notSyscall = 0 → flags (mkPte (frame w) perm) = perm ||| pteP := by
    intro h
    rw [flags_mkPte]
    exact Nat.mod_eq_of_lt (Nat.or_lt_two_pow (n := 12) (lt_of_syscall hperm h) (by decide))
  have hwrite : perm &&& notSyscall = 0 → mkPte (frame w) perm &&& pteW = perm &&& pteW := by
    intro h
    rw [and_eq_flags_and _ (by decide), hflags h, Nat.and_or_distrib_right,
      show pteP &&& pteW = 0 by decide, Nat.or_zero]
  constructor
  · intro h
    refine ⟨⟨frame_mkPte_of_lt hframe (lt_of_syscall hperm h.syscall), hflags h.syscall, h.syscall,
      ?_, fun hw => h.write ?_⟩, h.present⟩
    · rw [h.user]
      decide
    · rwa [hwrite h.syscall] at hw
  · rintro ⟨h, hp⟩
    refine ⟨?_, hp, h.syscall, fun hw => h.write ?_⟩
    · have hu := h.user
      rw [show pteU = 2 ^ 2 from rfl, Nat.and_two_pow] at hu ⊢
      cases hbit : perm.testBit 2
      · rw [hbit] at hu
        exact absurd rfl hu
      · rfl
    · rwa [hwrite h.syscall]

/-- The page directory of `e` is not the page table for `va`, nor the page that
would become one. -/
def Kern.Apart (s : Kern) (e va : ℕ) : Prop :=
  ∀ d, (s.envs e).envPgdir = some d →
    (present (s.mm.pde d va) → frame (s.mm.pde d va) ≠ d) ∧ s.mm.pageFreeList ≠ some d

section Calls

variable {s s' : Kern} {cur e va pp perm w : ℕ}

theorem wp_envPgdirPtr {Q : ℕ → Kern → Prop} (h : ∀ d, (s.envs e).envPgdir = some d → Q d s) :
    wp (envPgdirPtr e) Q (fun _ _ => True) s := by
  cases hd : (s.envs e).envPgdir with
  | none =>
    rw [wp_of_stop (envPgdirPtr_none hd)]
    trivial
  | some d =>
    rw [wp_of_ret (envPgdirPtr_eq hd)]
    exact h d hd

theorem Kern.entryOf_eq {d : ℕ} (hd : (s.envs e).envPgdir = some d) :
    s.entryOf e va = (s.mm.translate d va).map Prod.snd := by
  rw [entryOf, hd]
  rfl

theorem Kern.entryOf_congr (hd : (s'.envs e).envPgdir = (s.envs e).envPgdir)
    (hm : s'.mm.mem = s.mm.mem) : s'.entryOf e va = s.entryOf e va := by
  rw [entryOf, entryOf, hd]
  simp only [Mm.translate_congr hm]

theorem wp_envPageLookup_found : wp (envPageLookup e va) (fun r s' =>
    (∃ m, s' = { s with mm := m }) ∧ ∀ pp t i, r = some (pp, t, i) →
      s' = s ∧ s.entryOf e va = some (s.mm.mem t i) ∧ pp = frame (s.mm.mem t i))
    (fun _ _ => True) s := by
  rw [envPageLookup, wp_bind]
  refine wp_envPgdirPtr fun d hd => ?_
  rw [wp_bind, rcr3, wp_gets, liftMm, wp_zoom]
  refine wp_pageLookup_found.imp fun r m' h => ⟨⟨m', rfl⟩, fun pp t i hr => ?_⟩
  obtain ⟨rfl, htrans, hloc, rfl⟩ := h pp (t, i) hr
  cases hloc
  refine ⟨rfl, ?_, rfl⟩
  rw [Kern.entryOf_eq hd, htrans]
  rfl

theorem wp_envPageInsert_result (perm : ℕ) : wp (envPageInsert e pp va perm)
    (fun r _ => r = 0 ∨ r = -eNoMem) (fun _ _ => True) s := by
  rw [envPageInsert, wp_bind]
  refine wp_envPgdirPtr fun d hd => ?_
  rw [wp_bind, rcr3, wp_gets, liftMm, wp_zoom]
  exact wp_pageInsert_result perm

theorem wp_envPageInsert_entry (perm : ℕ) (hn : s.mm.npages ≤ 2 ^ 20) (ha : s.Apart e va) :
    wp (envPageInsert e pp va perm) (fun r s' => r = -eNoMem ∨
      r = 0 ∧ s'.envs = s.envs ∧ s'.entryOf e va = some (mkPte pp perm)) (fun _ _ => True) s := by
  rw [envPageInsert, wp_bind]
  refine wp_envPgdirPtr fun d hd => ?_
  obtain ⟨hself, hfree⟩ := ha d hd
  rw [wp_bind, rcr3, wp_gets, liftMm, wp_zoom]
  refine ((wp_pageInsert_result perm).and (wp_pageInsert_entry perm hn hfree hself)).mono
    (fun r m' h => ?_) fun _ _ _ => trivial
  rcases h.1 with hr | hr
  · obtain ⟨pde, htrans⟩ := h.2 hr
    refine .inr ⟨hr, rfl, ?_⟩
    rw [Kern.entryOf_eq (s := { s with mm := m' }) hd, htrans]
    rfl
  · exact .inl hr

theorem sysPageMap_entry {srcenvid srcva dstenvid dstva : ℕ} (hcur : s.curenv = some cur)
    (hn : s.mm.npages ≤ 2 ^ 20)
    (hdst : ∀ dst, s.envOf dstenvid true = some dst → s.Apart dst dstva)
    (hrun : sysPageMap srcenvid srcva dstenvid dstva perm s = .ret 0 s') :
    ∃ src dst w, s.envOf srcenvid true = some src ∧ s.envOf dstenvid true = some dst ∧
      s.entryOf src srcva = some w ∧ s'.entryOf dst dstva = some (mkPte (frame w) perm) := by
  have hwp : wp (sysPageMap srcenvid srcva dstenvid dstva perm) (fun r s' => r = 0 →
      ∃ src dst w, s.envOf srcenvid true = some src ∧ s.envOf dstenvid true = some dst ∧
        s.entryOf src srcva = some w ∧ s'.entryOf dst dstva = some (mkPte (frame w) perm))
      (fun _ _ => True) s := by
    rw [sysPageMap]
    refine wp_envid2env hcur (fun h0 => absurd h0 (by decide)) fun src hsrc => ?_
    simp only
    refine wp_envid2env hcur (fun h0 => absurd h0 (by decide)) fun dst hd => ?_
    simp only
    rw [wp_ite]
    refine ⟨fun _ h0 => absurd h0 (by decide), fun _ => ?_⟩
    refine wp_envPageLookup_found.bind fun found s₁ h₁ => ?_
    cases found with
    | none => exact fun h0 => absurd h0 (by decide)
    | some loc =>
      obtain ⟨pp, t, i⟩ := loc
      obtain ⟨rfl, hentry, rfl⟩ := h₁.2 pp t i rfl
      simp only
      refine (wp_envPageInsert_entry perm hn (hdst dst hd)).bind fun r s₂ h₂ => ?_
      rcases h₂ with rfl | ⟨rfl, -, hnew⟩
      · exact fun h0 => absurd h0 (by decide)
      · exact fun _ => ⟨src, dst, _, hsrc, hd, hentry, hnew⟩
  exact hwp.ret hrun rfl

theorem ipcPageOk_iff {m : Mm} {srcva t i : ℕ} :
    ipcPageOk m srcva perm (some (pp, t, i)) ↔ srcva % pgsize = 0 ∧ PermOk (m.mem t i) perm := by
  unfold ipcPageOk
  constructor
  · rintro ⟨hal, hu, hp, hs, hw⟩
    exact ⟨hal, hu, hp, hs, fun h => hw.resolve_left h⟩
  · rintro ⟨hal, hok⟩
    refine ⟨hal, hok.user, hok.present, hok.syscall, ?_⟩
    by_cases h : perm &&& pteW = 0
    · exact .inl h
    · exact .inr (hok.write h)

theorem wp_ipcDeliver_entry (s : Kern) (cur dst value perm : ℕ) : wp (ipcDeliver cur dst value perm)
    (fun r s' => r = 0 ∧ ∀ e va, s'.entryOf e va = s.entryOf e va) (fun _ _ => True) s := by
  rw [ipcDeliver, wp_bind, wp_modify, wp_bind, wp_modify]
  refine ⟨rfl, fun e va => Kern.entryOf_congr ?_ rfl⟩
  rw [Kern.log_envs, Kern.updEnv_envs]
  split <;> rfl

theorem sysIpcTrySend_entry {envid value srcva : ℕ} (hcur : s.curenv = some cur)
    (hn : s.mm.npages ≤ 2 ^ 20) (hsrcva : srcva < utop)
    (hdst : ∀ dst, s.envOf envid false = some dst →
      (s.envs dst).envIpcDstva < utop ∧ s.Apart dst (s.envs dst).envIpcDstva)
    (hrun : sysIpcTrySend envid value srcva perm s = .ret 0 s') :
    ∃ dst w, s.envOf envid false = some dst ∧ s.entryOf cur srcva = some w ∧ PermOk w perm ∧
      s'.entryOf dst (s.envs dst).envIpcDstva = some (mkPte (frame w) perm) := by
  have hwp : wp (sysIpcTrySend envid value srcva perm) (fun r s' => r = 0 →
      ∃ dst w, s.envOf envid false = some dst ∧ s.entryOf cur srcva = some w ∧ PermOk w perm ∧
        s'.entryOf dst (s.envs dst).envIpcDstva = some (mkPte (frame w) perm))
      (fun _ _ => True) s := by
    rw [sysIpcTrySend, wp_bind, wp_of_ret (curenvPtr_eq hcur)]
    refine wp_envPageLookup_found.bind fun found s₁ h₁ => ?_
    obtain ⟨⟨m₁, rfl⟩, hfound⟩ := h₁
    rw [wp_bind_of_ret (envid2env_eq (s := { s with mm := m₁ }) hcur envid false)]
    rw [show ({ s with mm := m₁ } : Kern).envOf envid false = s.envOf envid false from rfl]
    cases hd : s.envOf envid false with
    | none => exact fun h0 => absurd h0 (by decide)
    | some dst =>
      obtain ⟨hdva, hapart⟩ := hdst dst hd
      simp only
      rw [wp_bind, wp_get, wp_ite]
      refine ⟨fun _ h0 => absurd h0 (by decide), fun _ => ?_⟩
      rw [wp_ite]
      refine ⟨fun _ h0 => absurd h0 (by decide), fun hok => ?_⟩
      have hok := not_not.mp fun hcon => hok ⟨hsrcva, hcon⟩
      cases found with
      | none => exact hok.2.2.2.2.elim
      | some loc =>
        obtain ⟨pp, t, i⟩ := loc
        obtain ⟨hs, hentry, rfl⟩ := hfound pp t i rfl
        have hm₁ : m₁ = s.mm := congrArg Kern.mm hs
        subst hm₁
        simp only
        rw [if_pos ⟨hdva, hsrcva⟩]
        refine (wp_envPageInsert_entry perm hn hapart).bind fun r s₂ h₂ => ?_
        rcases h₂ with rfl | ⟨rfl, henvs, hnew⟩
        · exact fun h0 => absurd h0 (by decide)
        · -- the delivery touches neither memory nor the directory
          refine (wp_ipcDeliver_entry _ _ _ _ _).imp fun r s₃ h₃ _ => ?_
          exact ⟨dst, _, rfl, hentry, (ipcPageOk_iff.mp hok).2, (h₃.2 _ _).trans hnew⟩
  exact hwp.ret hrun rfl

/-! ### Which arguments are accepted -/

/-- A lookup of `va` in the address space of `e` gets to entry `w`. -/
def Kern.Finds (s : Kern) (e va w : ℕ) : Prop :=
  ∃ d, (s.envs e).envPgdir = some d ∧ present (s.mm.pde d va) ∧
    frame (s.mm.pde d va) < s.mm.npages ∧ s.mm.pte d va = w ∧ (present w → frame w < s.mm.npages)

/-- The arguments of `sys_page_map` are in order, up to the source entry `w` and
`perm`. -/
structure Kern.MapReady (s : Kern) (srcenvid srcva dstenvid dstva w : ℕ) : Prop where
  cur : s.curenv ≠ none
  src : ∃ src, s.envOf srcenvid true = some src ∧ s.Finds src srcva w
  dst : s.envOf dstenvid true ≠ none
  srcva_lt : srcva < utop
  srcva_mod : srcva % pgsize = 0
  dstva_lt : dstva < utop
  dstva_mod : dstva % pgsize = 0

/-- The arguments of `sys_ipc_try_send` are in order, up to the source entry `w`
and `perm`. -/
structure Kern.SendReady (s : Kern) (envid srcva w : ℕ) : Prop where
  src : ∃ cur, s.curenv = some cur ∧ s.Finds cur srcva w
  dst : ∃ dst, s.envOf envid false = some dst ∧ (s.envs dst).envIpcRecving
  srcva_lt : srcva < utop
  srcva_mod : srcva % pgsize = 0

theorem Kern.Finds.lookup (h : s.Finds e va w) :
    ∃ t i, s.mm.mem t i = w ∧
      envPageLookup e va s = .ret ((entry w).map (·, t, i)) s := by
  obtain ⟨d, hd, hp, hlt, rfl, hfr⟩ := h
  refine ⟨frame (s.mm.pde d va), ptx va, rfl, ?_⟩
  rw [envPageLookup, ret_bind (envPgdirPtr_eq hd), rcr3, gets_bind, liftMm, zoom]
  simp only [pageLookup_present hp hlt hfr]

theorem sysPageMap_rejects {srcenvid srcva dstenvid dstva : ℕ}
    (h : s.MapReady srcenvid srcva dstenvid dstva w) :
    (∃ s', sysPageMap srcenvid srcva dstenvid dstva perm s = .ret (-eInval) s') ↔
      ¬ present w := by
  obtain ⟨cur, hcur⟩ := Option.ne_none_iff_exists'.mp h.cur
  obtain ⟨src, hsrc, hfinds⟩ := h.src
  obtain ⟨dst, hdst⟩ := Option.ne_none_iff_exists'.mp h.dst
  obtain ⟨t, i, rfl, hlook⟩ := hfinds.lookup
  have hva : ¬ (srcva ≥ utop ∨ srcva % pgsize ≠ 0 ∨ dstva ≥ utop ∨ dstva % pgsize ≠ 0) := by
    have := h.srcva_lt
    have := h.srcva_mod
    have := h.dstva_lt
    have := h.dstva_mod
    omega
  rw [sysPageMap, ret_bind (envid2env_eq hcur srcenvid true), hsrc]
  simp only
  rw [ret_bind (envid2env_eq hcur dstenvid true), hdst]
  simp only
  rw [if_neg hva, ret_bind hlook]
  by_cases hp : present (s.mm.mem t i)
  · rw [entry_eq_some.mpr ⟨hp, rfl⟩]
    refine ⟨?_, fun hno => absurd hp hno⟩
    rintro ⟨s', hrun⟩
    -- `page_insert` has its own error
    have hres : wp (do
        let ret ← envPageInsert dst (frame (s.mm.mem t i)) dstva perm
        if ret < 0 then pure ret else pure 0) (fun r _ => r ≠ -eInval) (fun _ _ => True) s := by
      refine (wp_envPageInsert_result perm).bind fun r s₁ hr => ?_
      rcases hr with rfl | rfl
      · exact (by decide : (0 : ℤ) ≠ -eInval)
      · exact (by decide : (-eNoMem : ℤ) ≠ -eInval)
    exact absurd rfl (hres.ret hrun)
  · rw [entry_eq_none.mpr hp]
    exact ⟨fun _ => hp, fun _ => ⟨s, rfl⟩⟩

theorem sysIpcTrySend_rejects {envid value srcva : ℕ} (h : s.SendReady envid srcva w) :
    (∃ s', sysIpcTrySend envid value srcva perm s = .ret (-eInval) s') ↔
      ¬ (present w ∧ PermOk w perm) := by
  obtain ⟨cur, hcur, hfinds⟩ := h.src
  obtain ⟨dst, hdst, hrecv⟩ := h.dst
  obtain ⟨t, i, rfl, hlook⟩ := hfinds.lookup
  rw [sysIpcTrySend, ret_bind (curenvPtr_eq hcur), ret_bind hlook,
    ret_bind (envid2env_eq hcur envid false), hdst]
  simp only
  rw [get_bind, if_neg (not_not.mpr hrecv)]
  by_cases hok : present (s.mm.mem t i) ∧ PermOk (s.mm.mem t i) perm
  · rw [entry_eq_some.mpr ⟨hok.1, rfl⟩, Option.map_some,
      if_neg fun hno => hno.2 (ipcPageOk_iff.mpr ⟨h.srcva_mod, hok.2⟩)]
    refine ⟨?_, fun hno => absurd hok hno⟩
    rintro ⟨s', hrun⟩
    have hdeliver : ∀ s₁ q, wp (ipcDeliver cur dst value q) (fun r _ => r ≠ -eInval)
        (fun _ _ => True) s₁ := fun s₁ q =>
      (wp_ipcDeliver_entry s₁ cur dst value q).imp fun r _ hr => by rw [hr.1]; decide
    refine absurd rfl (wp.ret (Q := fun r _ => r ≠ -eInval) (R := fun _ _ => True) ?_ hrun)
    rw [wp_ite]
    refine ⟨fun _ => ?_, fun _ => hdeliver s 0⟩
    refine (wp_envPageInsert_result perm).bind fun r s₁ hr => ?_
    rcases hr with rfl | rfl
    · exact hdeliver s₁ perm
    · exact (by decide : (-eNoMem : ℤ) ≠ -eInval)
  · refine ⟨fun _ => hok, fun _ => ⟨s, ?_⟩⟩
    by_cases hp : present (s.mm.mem t i)
    · rw [entry_eq_some.mpr ⟨hp, rfl⟩, Option.map_some,
        if_pos ⟨h.srcva_lt, fun hcon => hok ⟨hp, (ipcPageOk_iff.mp hcon).2⟩⟩]
      rfl
    · rw [entry_eq_none.mpr hp, Option.map_none, if_pos ⟨h.srcva_lt, fun hcon => hcon.2.2.2.2⟩]
      rfl

end Calls

theorem MemInv.apart {B : MemCtx} {crash : Prop} {s : Kern} {e va : ℕ} (h : MemInv B crash s)
    (he : e < nenv) (hne : (s.envs e).envStatus ≠ .free) (hva : va < utop) : s.Apart e va := by
  intro d hd
  have hdirs : s.dirs e = some d := (Kern.dirs_of_ne_free hne).trans hd
  have hr : Ref.dir e ∈ allRefs := mem_allRefs.mpr he
  constructor
  · intro hp hself
    have hrt : Ref.tab e (pdx va) ∈ allRefs := mem_allRefs.mpr ⟨he, pdx_lt_user hva⟩
    have htab : target s.dirs s.mm.mem (.tab e (pdx va)) = some d := by
      rw [target_tab hdirs]
      exact entry_eq_some.mpr ⟨hp, hself⟩
    exact Ref.noConfusion (h.page.shape.excl _ hr _ hrt d trivial hdirs htab)
  · intro hfree
    obtain ⟨free, hc⟩ := h.page.counts
    unfold Counts at hc
    rw [hfree] at hc
    obtain ⟨-, -, -, h0, -⟩ := hc.pop
    exact refs_eq_zero.mp h0 _ hr hdirs

/-- **Mapping rights.**  Exactly with a `perm` that fits the source entry,
`sys_page_map` makes an entry for the same page with the flags asked for and no
right that the source entry does not give, and accepts what `sys_ipc_try_send`
accepts, which keeps to the rule with every `perm`. -/
theorem mapping_rights (perm : ℕ) (hperm : perm < 2 ^ 32) :
    (∀ s s' srcenvid srcva dstenvid dstva, s.curenv ≠ none → s.mm.npages ≤ 2 ^ 20 →
      (∀ dst, s.envOf dstenvid true = some dst → s.Apart dst dstva) →
      sysPageMap srcenvid srcva dstenvid dstva perm s = .ret 0 s' →
      ∃ src dst w x, s.envOf srcenvid true = some src ∧ s.envOf dstenvid true = some dst ∧
        s.entryOf src srcva = some w ∧ s'.entryOf dst dstva = some x ∧
        (PermOk w perm ↔ Granted w perm x ∧ perm &&& pteP = pteP)) ∧
    (∀ s s' cur envid value srcva, s.curenv = some cur → s.mm.npages ≤ 2 ^ 20 → srcva < utop →
      (∀ dst, s.envOf envid false = some dst →
        (s.envs dst).envIpcDstva < utop ∧ s.Apart dst (s.envs dst).envIpcDstva) →
      sysIpcTrySend envid value srcva perm s = .ret 0 s' →
      ∃ dst w x, s.envOf envid false = some dst ∧ s.entryOf cur srcva = some w ∧
        s'.entryOf dst (s.envs dst).envIpcDstva = some x ∧ Granted w perm x) ∧
    ∀ s₁ s₂ srcenvid srcva₁ dstenvid dstva envid value srcva₂ w,
      s₁.MapReady srcenvid srcva₁ dstenvid dstva w → s₂.SendReady envid srcva₂ w →
      ((present w → PermOk w perm) ↔
        ((∃ s', sysPageMap srcenvid srcva₁ dstenvid dstva perm s₁ = .ret (-eInval) s') ↔
          ∃ s', sysIpcTrySend envid value srcva₂ perm s₂ = .ret (-eInval) s')) := by
  refine ⟨?_, ?_, ?_⟩
  · intro s s' srcenvid srcva dstenvid dstva hcur hn hdst hrun
    obtain ⟨cur, hcur⟩ := Option.ne_none_iff_exists'.mp hcur
    obtain ⟨src, dst, w, hsrc, hd, hw, hnew⟩ := sysPageMap_entry hcur hn hdst hrun
    exact ⟨src, dst, w, _, hsrc, hd, hw, hnew, permOk_iff_granted hperm⟩
  · intro s s' cur envid value srcva hcur hn hsrcva hdst hrun
    obtain ⟨dst, w, hd, hw, hok, hnew⟩ := sysIpcTrySend_entry hcur hn hsrcva hdst hrun
    exact ⟨dst, w, _, hd, hw, hnew, ((permOk_iff_granted hperm).mp hok).1⟩
  · intro s₁ s₂ srcenvid srcva₁ dstenvid dstva envid value srcva₂ w hmap hsend
    rw [sysPageMap_rejects hmap, sysIpcTrySend_rejects hsend]
    tauto

/-- Environment 1 maps its read-only page once more. -/
theorem mapping_rights_sharing :
    ∃ s' x, sysPageMap 0 0 0 0x1000 (pteU ||| pteP) sharing = .ret 0 s' ∧
      s'.entryOf 1 0x1000 = some x ∧ Granted (mkPte 5 pteU) (pteU ||| pteP) x := by
  obtain ⟨src, dst, w, x, hsrc, hdst, hw, hx, hgranted⟩ :=
    (mapping_rights (pteU ||| pteP) (by decide)).1 sharing _ 0 0 0 0x1000 (by decide)
      (by decide) (fun dst hd d hdir => by cases hd; cases hdir; exact ⟨by decide, by decide⟩) rfl
  cases hsrc
  cases hdst
  cases hw
  exact ⟨_, x, rfl, hx, (hgranted.mp ⟨by decide, by decide, by decide, by decide⟩).1⟩

/-- A writable entry, and one for the kernel's page directory, from a read-only
entry for page 5; `sys_ipc_try_send` refuses the first of the two. -/
theorem page_map_adds_rights :
    sharing.entryOf 1 0 = some (mkPte 5 pteU) ∧ mkPte 5 pteU &&& pteW = 0 ∧
    (∃ s' x, sysPageMap 0 0 0 0x1000 (pteU ||| pteP ||| pteW) sharing = .ret 0 s' ∧
      s'.entryOf 1 0x1000 = some x ∧ x &&& pteW ≠ 0) ∧
    (∃ s' x, sysPageMap 0 0 0 0x1000 0x2007 sharing = .ret 0 s' ∧
      s'.entryOf 1 0x1000 = some x ∧ frame x = s'.mm.kernPgdir) ∧
    ∃ s', sysIpcTrySend 4096 0 0 (pteU ||| pteP ||| pteW)
      (sharing.updEnv 0 ({ · with envIpcRecving := true })) = .ret (-eInval) s' :=
  ⟨by decide, by decide, ⟨_, mkPte 5 7, rfl, by decide, by decide⟩,
    ⟨_, mkPte 7 7, rfl, by decide, by decide⟩, _, rfl⟩

end Jos
