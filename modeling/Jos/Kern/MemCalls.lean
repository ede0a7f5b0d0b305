/-
The system calls, in a state that meets `MemInv`.

`sys_page_map` and `sys_ipc_try_send` keep the invariant under conditions the
kernel does not check (`Kern.MemCall`): the permission word must not change
the frame number, and the 16-bit reference count must not wrap around.  A call
crashes the kernel only if `Kern.CrashFree` fails.  A call that returns an
error leaves tables, counters and environments alone (`Kern.Untouched`).
-/
import Jos.Kern.UserAcc

namespace Jos

open Prog

variable {m : Mm} {perm : ℕ}

/-! ### Conditions -/

/-- The kernel survives the call: lookups find a page table, and every byte
that is accessed through a user pointer, after the check the kernel makes, is
mapped. -/
def Kern.CrashFree (s : Kern) (no : Sysno) (a1 a2 a3 a4 : ℕ) : Prop :=
  match no with
  | .cputs => a1 ≠ 0 → s.mm.Accepts s.thiscpu.cr3 a1 a2 (pteU ||| pteP ||| pteU) →
      s.mm.PrintOk s.thiscpu.cr3 a1 (toInt32 a2)
  | .pageMap => a2 < utop → a2 % pgsize = 0 → a4 < utop → a4 % pgsize = 0 →
      ∀ src ∈ s.envOf a1 true, ∀ dst ∈ s.envOf a3 true, s.HasTable src a2
  | .pageUnmap => a2 < utop → a2 % pgsize = 0 → ∀ x ∈ s.envOf a1 true, s.HasTable x a2
  | .yield => s.SchedOk
  | .ipcTrySend => s.mm.LookupOk s.thiscpu.cr3 a3
  | .ipcRecv => (a1 < utop → a1 % pgsize = 0) → s.SchedOk
  | .envSetTrapframe => ∀ x ∈ s.envOf a1 true, ∀ d ∈ (s.envs x).envPgdir,
      s.mm.Accepts d a2 sizeofTrapframe (pteW ||| pteU) →
        s.mm.Readable s.thiscpu.cr3 a2 sizeofTrapframe ∧ s.mm.Writable s.thiscpu.cr3 (a2 + 52) 2
  | .sendPacket => s.mm.Accepts s.thiscpu.cr3 a1 a2 pteU → a2 ≤ pktBufSize →
      (s.nic.txDesc s.nic.tdt).status &&& 1 ≠ 0 → s.mm.Readable s.thiscpu.cr3 a1 a2
  | .rcvPacket => s.mm.Readable s.thiscpu.cr3 a2 4 ∧
      (s.mm.Accepts s.thiscpu.cr3 a1 (s.mm.wordAt s.thiscpu.cr3 a2) (pteU ||| pteW) →
        s.rxNext.status &&& 1 ≠ 0 → s.rxNext.status &&& 2 ≠ 0 →
          s.mm.Writable s.thiscpu.cr3 a2 4 ∧ s.mm.Writable s.thiscpu.cr3 a1
            ((s.mm.setWord32 s.thiscpu.cr3 a2 s.rxNext.length).wordAt s.thiscpu.cr3 a2))
  | _ => True

/-- What a call that fails must not change.  The contents of the first free
page are not part of it. -/
structure Kern.Untouched (s s' : Kern) : Prop where
  envs : s'.envs = s.envs
  envFreeList : s'.envFreeList = s.envFreeList
  pages : s'.mm.pages = s.mm.pages
  freeList : s'.mm.pageFreeList = s.mm.pageFreeList
  mem : ∀ p, s.mm.pageFreeList ≠ some p → s'.mm.mem p = s.mm.mem p

theorem Kern.Untouched.refl (s : Kern) : s.Untouched s := ⟨rfl, rfl, rfl, rfl, fun _ _ => rfl⟩

/-- What a call leaves behind when it returns `r`. -/
structure MemPost (B : MemCtx) (crash : Prop) (s : Kern) (r : ℤ) (s' : Kern) : Prop where
  inv : MemInv B crash s'
  failed : r < 0 → s.Untouched s'

/-- The kernel executes a call of environment `e`. -/
structure Caller (B : MemCtx) (crash : Prop) (s : Kern) (e : ℕ) : Prop where
  inv : MemInv B crash s
  run : RunInv s
  cur : s.curenv = some e

namespace Caller

variable {B : MemCtx} {crash : Prop} {s : Kern} {e x : ℕ}

section

variable (h : Caller B crash s e)
include h

theorem lt : e < nenv := h.run.lt h.cur

theorem ne_free : (s.envs e).envStatus ≠ .free := (h.run.self h.cur).ne_free

theorem pgdir : (s.envs e).envPgdir = some s.thiscpu.cr3 := h.run.own h.cur

theorem dir : s.dirs e = some s.thiscpu.cr3 :=
  (Kern.dirs_of_ne_free h.ne_free).trans h.pgdir

theorem found {envid : ℕ} {checkperm : Bool} (hx : s.envOf envid checkperm = some x) :
    x < nenv ∧ (s.envs x).envStatus ≠ .free :=
  h.run.found hx

theorem acc (d : ℕ) : UserAcc B s.dirs crash d s.mm s.mm :=
  .refl h.inv.page h.inv.quiet

theorem post (r : ℤ) : MemPost B crash s r s := ⟨h.inv, fun _ => .refl s⟩

theorem post_addr (r : ℤ) (a : ℕ) :
    MemPost B crash s r { s with mm := { s.mm with userMemCheckAddr := a } } :=
  ⟨h.inv.setMm (h.inv.page.congr rfl rfl rfl rfl rfl) h.inv.quiet,
    fun _ => ⟨rfl, rfl, rfl, rfl, fun _ _ => rfl⟩⟩

end

end Caller

section Pages

variable {B : MemCtx} {crash : Prop} {s : Kern} {e x va pp : ℕ}

theorem MemInv.pageAt (h : MemInv B crash s) (hx : x < nenv) (hne : (s.envs x).envStatus ≠ .free)
    (hva : va < utop) :
    s.pageAt x va = target s.dirs s.mm.mem (.page x (pdx va) (ptx va)) := by
  obtain ⟨d, hd, hdirs⟩ := h.dir hx hne
  have ha : UserVa s.dirs x d va := .of_lt hx hdirs hva
  rw [Kern.pageAt, hd]
  simp only
  by_cases hr : s.mm.kReads d va
  · rw [if_pos hr, target_of_kReads ha hr]
  · rw [if_neg hr]
    cases ht : target s.dirs s.mm.mem (.page x (pdx va) (ptx va)) with
    | none => rfl
    | some p =>
      obtain ⟨t, htab, hp⟩ := target_page_eq_some ht
      rw [target_tab hdirs, entry_eq_some] at htab
      refine absurd ⟨htab.1, ?_⟩ hr
      rw [Mm.pte, Mm.pde, htab.2]
      exact (entry_eq_some.mp hp).1

theorem MemInv.refOk (h : MemInv B crash s) (hx : x < nenv) (hne : (s.envs x).envStatus ≠ .free)
    (hva : va < utop) (hpp : pp ∈ B.pool) (hok : s.RefOk pp x va) :
    refs allRefs (target s.dirs s.mm.mem) pp + 1 < 2 ^ 16 ∨
      target s.dirs s.mm.mem (.page x (pdx va) (ptx va)) = some pp := by
  obtain ⟨free, hc⟩ := h.page.counts
  have hcnt := hc.cnt_eq pp hpp
  have hbound := hc.bound pp hpp
  rw [List.count_nil, Nat.add_zero, Nat.mod_eq_of_lt hbound] at hcnt
  rcases hok with hne' | hat
  · left
    have : (s.mm.pages pp).ppRef = refs allRefs (target s.dirs s.mm.mem) pp := hcnt
    omega
  · right
    rw [← h.pageAt hx hne hva]
    exact hat

theorem frame_mkPte_syscall (hp : pp < 2 ^ 20) (h : perm &&& notSyscall = 0) :
    frame (mkPte pp perm) = pp := by
  have haddr : pteAddr perm = 0 := by
    have hmask : (0xfffff000 : ℕ) = notSyscall &&& 0xfffff000 := by decide
    rw [pteAddr, hmask, ← Nat.and_assoc, h, Nat.zero_and]
  have hfr : perm / 4096 % 2 ^ 20 = 0 := by
    rw [← frame_eq, frame, haddr]
    rfl
  rw [frame_mkPte perm hp, hfr, Nat.or_zero]

theorem pageFree_eq (hr : (m.pages pp).ppRef = 0) (hl : (m.pages pp).ppLink = none) :
    pageFree pp m = .ret () (m.pushFree pp) := by
  rw [pageFree, get_bind, if_neg (not_not.mpr hr), if_neg (not_not.mpr hl)]
  rfl

theorem Mm.alloc_pushFree (m : Mm) (allocFlags p : ℕ) :
    ((m.alloc allocFlags p).pushFree p).pages = m.pages := by
  have h : ((m.popFree p).pushFree p).pages = m.pages := by
    simp [popFree, pushFree, updPage]
  unfold Mm.alloc
  split
  · exact h
  · exact h

/-! ### Pages -/

theorem call_insert (h : MemInv B crash s) {held : List ℕ} (hx : x < nenv)
    (hne : (s.envs x).envStatus ≠ .free) (hva : va < utop) (hm : PageInv B s.dirs held [] m)
    (hpp : Mappable B s.dirs held m pp) (hframe : frame (mkPte pp perm) = pp)
    (hperm : B.perm ((perm ||| pteP) % 4096))
    (href : refs allRefs (target s.dirs m.mem) pp + 1 < 2 ^ 16 ∨ target s.dirs m.mem (.page x (pdx va) (ptx va)) = some pp) :
    wp (envPageInsert x pp va perm) (fun r s' =>
      (r = -eNoMem ∧ s' = { s with mm := m }) ∨
      ∃ m', r = 0 ∧ s' = { s with mm := m' } ∧ PageInv B s.dirs held [] m' ∧
        m'.trace = m.trace ∧ ∃ t, target s.dirs m'.mem (.tab x (pdx va)) = some t ∧
          m'.mem t (ptx va) = mkPte pp perm)
      (fun _ _ => False) { s with mm := m } := by
  obtain ⟨d, hd, hdirs⟩ := h.dir hx hne
  rw [envPageInsert, wp_bind_of_ret (envPgdirPtr_eq (s := { s with mm := m }) hd), wp_bind, rcr3,
    wp_gets, liftMm, wp_zoom]
  refine (wp_pageInsert hm (.of_lt hx hdirs hva) hpp hframe hperm href).imp fun r m' h' => ?_
  rcases h' with ⟨rfl, rfl⟩ | ⟨rfl, h', htrace, ht, -⟩
  · exact .inl ⟨rfl, rfl⟩
  · exact .inr ⟨m', rfl, rfl, h', htrace, ht⟩

theorem call_pageAlloc (h : Caller B crash s e) (envid va perm : ℕ) :
    wp (sysPageAlloc envid va perm) (MemPost B crash s) (MemEnd B crash) s := by
  rw [sysPageAlloc]
  refine wp_envid2env h.cur (h.post _) fun x hx => ?_
  obtain ⟨hxlt, hxne⟩ := h.found hx
  simp only
  rw [wp_ite]
  refine ⟨fun _ => h.post _, fun hva => ?_⟩
  have hva : va < utop := Nat.not_le.mp fun hge => hva (.inl hge)
  rw [wp_ite]
  refine ⟨fun _ => h.post _, fun hperm => ?_⟩
  have hperm := not_not.mp hperm
  rw [wp_bind, liftMm, wp_zoom]
  cases hp : s.mm.pageFreeList with
  | none =>
    rw [wp_of_ret (pageAlloc_none hp _)]
    exact h.post _
  | some pp =>
    rw [wp_of_ret (h.inv.page.pageAlloc hp _)]
    simp only
    obtain ⟨h₁, hf, hhand, hheld, htarget⟩ := h.inv.page.alloc hp allocZero
    have hf₁ : Fresh B s.dirs (s.mm.alloc allocZero pp) pp :=
      ⟨hf.pool, by rw [refs_congr htarget, hf.refs]⟩
    have hquiet : crash ∨ .nullPte ∉ (s.mm.alloc allocZero pp).trace := by
      rw [Mm.alloc_trace]
      exact h.inv.quiet
    refine (call_insert h.inv hxlt hxne hva h₁ hf₁.mappable
      (frame_mkPte_syscall (MemCtx.lt_two_pow hf.pool) hperm) (B.perm_ok _ hperm)
      (.inl (by rw [hf₁.refs]; decide))).bind_total fun r s' h' => ?_
    rcases h' with ⟨rfl, rfl⟩ | ⟨m', rfl, rfl, h', htrace, t, ht, hw⟩
    · -- no page for a table: the page goes back where it came from
      have hlink := h₁.ppLink_none hf.pool (.inl List.mem_cons_self)
      have hcnt : ((s.mm.alloc allocZero pp).pages pp).ppRef = 0 := by
        obtain ⟨free, hc⟩ := h₁.counts
        have := hc.cnt_eq pp hf.pool
        rw [hf₁.refs] at this
        exact this
      rw [if_pos (by decide), wp_bind, liftMm, wp_zoom, wp_of_ret (pageFree_eq hcnt hlink)]
      refine ⟨h.inv.setMm (h₁.pushFree hf.pool hf₁.refs hhand hheld) hquiet, fun _ => ?_⟩
      refine ⟨rfl, rfl, Mm.alloc_pushFree _ _ _, hp.symm, fun p hpne => ?_⟩
      have hne : p ≠ pp := fun hpp => hpne (by rw [hpp, hp])
      show (s.mm.alloc allocZero pp).mem p = _
      rw [Mm.alloc, if_pos (by decide)]
      exact Function.update_of_ne hne _ _
    · rw [if_neg (by decide)]
      obtain ⟨d, -, hdirs⟩ := h.inv.dir hxlt hxne
      have hrel := h'.release_mapped (.of_lt hxlt hdirs hva) ht hw
        (frame_mkPte_syscall (MemCtx.lt_two_pow hf.pool) hperm)
      exact ⟨h.inv.setMm hrel (htrace ▸ hquiet), fun hneg => absurd hneg (by decide)⟩

theorem call_lookup (h : Caller B crash s e) {d : ℕ} (hx : x < nenv)
    (hne : (s.envs x).envStatus ≠ .free) (hd : (s.envs x).envPgdir = some d)
    (hok : crash ∨ s.mm.LookupOk d va) :
    wp (envPageLookup x va) (fun r s' => (∃ tr, s' = { s with mm := { s.mm with trace := tr } }) ∧
      Caller B crash s' e ∧
      (va < utop → r = (s.pageAt x va).map (·, frame (s.mm.pde d va), ptx va)))
      (MemEnd B crash) s := by
  have hdirs : s.dirs x = some d := (Kern.dirs_of_ne_free hne).trans hd
  rw [envPageLookup, wp_bind_of_ret (envPgdirPtr_eq hd), wp_bind, rcr3, wp_gets, liftMm, wp_zoom]
  refine (wp_pageLookup h.inv.page.shape hx hdirs hok).mono (fun r m' hm => ?_)
    fun st m' hm => .of_crash hm.1 hm.2
  obtain ⟨hm, hr⟩ := hm
  have hr' : va < utop → r = (s.pageAt x va).map (·, frame (s.mm.pde d va), ptx va) := by
    intro hva
    rw [h.inv.pageAt hx hne hva]
    exact hr (pdx_lt_user hva)
  rcases hm with rfl | ⟨hc, rfl⟩
  · exact ⟨⟨s.mm.trace, rfl⟩, h, hr'⟩
  · refine ⟨⟨.nullPte :: s.mm.trace, rfl⟩, ⟨?_, ?_, h.cur⟩, hr'⟩
    · exact h.inv.setMm (h.inv.page.congr rfl rfl rfl rfl rfl) (.inl hc)
    · exact h.run.same (.of_mm (Mm.Ext.log rfl))

/-- The state after a lookup: only the record of null reads may differ. -/
def Kern.looked (s : Kern) (tr : List Obs) : Kern := { s with mm := { s.mm with trace := tr } }

theorem wp_envPageInsert_any (h : MemInv B crash s) {x pp va : ℕ} {tr : List Obs} (hx : x < nenv)
    (hne : (s.envs x).envStatus ≠ .free) (hva : va < utop) (hinv : MemInv B crash (s.looked tr))
    (hpp : Mappable B s.dirs [] (s.looked tr).mm pp) :
    wp (envPageInsert x pp va perm) (fun r s' =>
      (r = -eNoMem ∧ s' = s.looked tr) ∨
      (r = 0 ∧ ∃ m t i, PageInv B s.dirs [] [pp] m ∧ m.trace = tr ∧
        target s.dirs m.mem (.tab x (pdx va)) = some t ∧
        s' = { s with mm := m.setWord t i (mkPte pp perm) }))
      (fun _ _ => False) (s.looked tr) := by
  obtain ⟨d, hd, hdirs⟩ := h.dir hx hne
  rw [envPageInsert, wp_bind_of_ret (envPgdirPtr_eq (s := s.looked tr) hd), wp_bind, rcr3,
    wp_gets, liftMm, wp_zoom]
  refine (wp_pageInsert_any hinv.page (.of_lt hx hdirs hva) hpp).imp fun r m hm => ?_
  rcases hm with ⟨hr, rfl⟩ | ⟨hr, m₂, t, h₂, htrace, ht, rfl⟩
  · exact .inl ⟨hr, rfl⟩
  · exact .inr ⟨hr, m₂, t, _, h₂, htrace, ht, rfl⟩

theorem wp_sysPageMap (h : Caller B crash s e) {srcenvid srcva dstenvid dstva : ℕ} {Q : ℤ → Kern → Prop}
    (hc : crash ∨ s.CrashFree .pageMap srcenvid srcva dstenvid dstva)
    (hsame : ∀ r tr, MemPost B crash s r (s.looked tr) → Q r (s.looked tr))
    (hins : ∀ src dst pp tr, srcva < utop → srcva % pgsize = 0 → dstva < utop → dstva % pgsize = 0 → s.envOf srcenvid true = some src → s.envOf dstenvid true = some dst → s.pageAt src srcva = some pp → MemInv B crash (s.looked tr) → Mappable B s.dirs [] (s.looked tr).mm pp → wp (envPageInsert dst pp dstva perm) (fun r s' => Q (if r < 0 then r else 0) s') (MemEnd B crash) (s.looked tr)) :
    wp (sysPageMap srcenvid srcva dstenvid dstva perm) Q (MemEnd B crash) s := by
  have hpost : ∀ r, Q r s := fun r => hsame r s.mm.trace (h.post r)
  rw [sysPageMap]
  refine wp_envid2env h.cur (hpost _) fun src hsrc => ?_
  simp only
  refine wp_envid2env h.cur (hpost _) fun dst hdst => ?_
  obtain ⟨hslt, hsne⟩ := h.found hsrc
  obtain ⟨d, hd, hdirs⟩ := h.inv.dir hslt hsne
  simp only
  rw [wp_ite]
  refine ⟨fun _ => hpost _, fun hva => ?_⟩
  obtain ⟨hsva, hsal, hdva, hdal⟩ :
      srcva < utop ∧ srcva % pgsize = 0 ∧ dstva < utop ∧ dstva % pgsize = 0 := by
    refine ⟨?_, ?_, ?_, ?_⟩ <;> by_contra hcon <;> exact hva (by omega)
  have hlook : crash ∨ s.mm.LookupOk d srcva := hc.imp_right fun hc =>
    h.inv.page.shape.lookupOk (.of_lt hslt hdirs hsva) (hc hsva hsal hdva hdal src hsrc dst hdst d hd)
  refine (call_lookup h hslt hsne hd hlook).bind fun r s₁ h₁ => ?_
  obtain ⟨⟨tr, rfl⟩, h₁, hr⟩ := h₁
  have hr := hr hsva
  cases hp : s.pageAt src srcva with
  | none =>
    rw [hp] at hr
    subst hr
    exact hsame _ tr ⟨h₁.inv, fun _ => ⟨rfl, rfl, rfl, rfl, fun _ _ => rfl⟩⟩
  | some pp =>
    rw [hp] at hr
    subst hr
    have hpage := hp
    rw [h.inv.pageAt hslt hsne hsva] at hp
    have hrs : Ref.page src (pdx srcva) (ptx srcva) ∈ allRefs :=
      mem_allRefs.mpr ⟨hslt, pdx_lt_user hsva, ptx_lt srcva⟩
    have hmap := h.inv.page.shape.mappable hrs hp
    show wp (envPageInsert dst pp dstva perm >>= _) _ _ _
    refine (hins src dst pp tr hsva hsal hdva hdal hsrc hdst hpage h₁.inv
      (hmap.congr fun _ _ => rfl)).bind fun r s' hq => ?_
    split at hq
    · next hneg =>
      rw [if_pos hneg]
      exact hq
    · next hneg =>
      rw [if_neg hneg]
      exact hq

theorem call_pageMap (h : Caller B crash s e) (srcenvid srcva dstenvid dstva perm : ℕ)
    (hm : s.MemCall B.perm .pageMap srcenvid srcva dstenvid dstva perm)
    (hc : crash ∨ s.CrashFree .pageMap srcenvid srcva dstenvid dstva) :
    wp (sysPageMap srcenvid srcva dstenvid dstva perm) (MemPost B crash s) (MemEnd B crash) s := by
  refine wp_sysPageMap h hc (fun _ _ h => h) ?_
  intro src dst pp tr hsva hsal hdva hdal hsrc hdst hpage hinv hmap
  obtain ⟨hdlt, hdne⟩ := h.found hdst
  obtain ⟨hframe, hperm, href⟩ := (hm hsva hsal hdva hdal src hsrc dst hdst).2 pp hpage
  refine (call_insert h.inv (m := (s.looked tr).mm) hdlt hdne hdva hinv.page hmap hframe hperm
    (h.inv.refOk hdlt hdne hdva hmap.pool href)).total fun r s₂ h₂ => ?_
  rcases h₂ with ⟨rfl, rfl⟩ | ⟨m', rfl, rfl, h₂, htrace, -⟩
  · rw [if_pos (by decide)]
    exact ⟨hinv, fun _ => ⟨rfl, rfl, rfl, rfl, fun _ _ => rfl⟩⟩
  · rw [if_neg (by decide)]
    exact ⟨h.inv.setMm h₂ (htrace ▸ hinv.quiet), fun hneg => absurd hneg (by decide)⟩

theorem call_pageUnmap (h : Caller B crash s e) (envid va : ℕ)
    (hc : crash ∨ s.CrashFree .pageUnmap envid va 0 0) :
    wp (sysPageUnmap envid va) (MemPost B crash s) (MemEnd B crash) s := by
  rw [sysPageUnmap]
  refine wp_envid2env h.cur (h.post _) fun x hx => ?_
  obtain ⟨hxlt, hxne⟩ := h.found hx
  obtain ⟨d, hd, hdirs⟩ := h.inv.dir hxlt hxne
  simp only
  rw [wp_ite]
  refine ⟨fun _ => h.post _, fun hva => ?_⟩
  obtain ⟨hva, hal⟩ : va < utop ∧ va % pgsize = 0 := by
    refine ⟨?_, ?_⟩ <;> by_contra hcon <;> exact hva (by omega)
  rw [wp_bind_of_ret (envPgdirPtr_eq hd), wp_bind, rcr3, wp_gets, wp_bind, liftMm, wp_zoom]
  refine (wp_pageRemove h.inv.page (.of_lt hxlt hdirs hva)
    (hc.imp_right fun hc => hc hva hal x hx d hd)).mono (fun _ m' hm => ?_)
    fun st _ hm => .of_crash hm.1 hm.2
  refine ⟨h.inv.setMm hm.1 ?_, fun hneg => absurd hneg (by decide)⟩
  rcases hm.2 with hc | htrace
  · exact .inl hc
  · rw [htrace]
    exact h.inv.quiet

end Pages

section Calls

variable {B : MemCtx} {crash : Prop} {s : Kern} {e x : ℕ}

/-! ### Environments -/

theorem toInt32_nonneg {n : ℕ} (h : n < 2 ^ 31) : 0 ≤ toInt32 n := by
  unfold toInt32
  split <;> omega

theorem nextEnvId_lt (envId : ℕ) {slot : ℕ} (h : slot < nenv) : nextEnvId envId slot < 2 ^ 31 := by
  have hs : slot < 2 ^ 31 := Nat.lt_of_lt_of_le h (by decide)
  unfold nextEnvId
  simp only
  split
  · exact Nat.or_lt_two_pow (by decide) hs
  · next hge => exact Nat.or_lt_two_pow (Nat.not_le.mp fun hle => hge (.inr hle)) hs

theorem call_exofork (h : Caller B crash s e) :
    wp sysExofork (MemPost B crash s) (MemEnd B crash) s := by
  have hlist : ∀ x, s.envFreeList = some x → x < nenv ∧ (s.envs x).envStatus = .free := by
    intro x hx
    obtain ⟨l, hl, hfree⟩ := h.run.list
    rw [hx] at hl
    obtain ⟨l', rfl, -⟩ := hl.pop
    exact hfree x List.mem_cons_self
  rw [sysExofork, wp_bind_of_ret (curenvPtr_eq h.cur), wp_bind, wp_get]
  refine (wp_memAlloc h.inv hlist _).bind_total fun r s₁ h₁ => ?_
  rcases h₁ with ⟨err, rfl, hneg, rfl⟩ | ⟨x, rfl, hx, hst, hid, h₁⟩
  · exact h.post _
  · simp only
    rw [wp_bind, setStatus, wp_modify, wp_bind, wp_modify, wp_gets]
    have h₂ := h₁.same (.updEnv s₁ (e := x) (f := ({ · with envStatus := .notRunnable }))
      ⟨by simp [hst], rfl⟩)
    refine ⟨h₂.same (.updEnv _ ⟨Iff.rfl, rfl⟩), fun hneg => ?_⟩
    refine absurd hneg (not_lt.mpr (toInt32_nonneg ?_))
    rw [Kern.updEnv_envs_self, Kern.updEnv_envs_self, hid]
    exact nextEnvId_lt _ hx

theorem call_envDestroy (h : Caller B crash s e) (envid : ℕ) :
    wp (sysEnvDestroy envid) (MemPost B crash s) (MemEnd B crash) s := by
  rw [sysEnvDestroy]
  refine wp_envid2env h.cur (h.post _) fun x hx => ?_
  obtain ⟨hxlt, hxne⟩ := h.found hx
  simp only
  rw [wp_bind]
  exact (wp_memDestroy h.inv hxlt hxne).imp
    fun _ s' h' => ⟨h', fun hneg => absurd hneg (by decide)⟩

theorem call_setStatus (h : Caller B crash s e) (envid status : ℕ) :
    wp (sysEnvSetStatus envid status) (MemPost B crash s) (MemEnd B crash) s := by
  rw [sysEnvSetStatus]
  refine wp_envid2env h.cur (h.post _) fun x hx => ?_
  obtain ⟨-, hxne⟩ := h.found hx
  have hset : ∀ st, st ≠ .free → MemPost B crash s 0 (s.updEnv x ({ · with envStatus := st })) :=
    fun st hst => ⟨h.inv.same (.updEnv s ⟨by simp [hst, hxne], rfl⟩),
      fun hneg => absurd hneg (by decide)⟩
  simp only
  rw [wp_ite]
  refine ⟨fun _ => hset .notRunnable (by decide), fun _ => ?_⟩
  rw [wp_ite]
  exact ⟨fun _ => hset .runnable (by decide), fun _ => h.post _⟩

theorem call_setPgfaultUpcall (h : Caller B crash s e) (envid func : ℕ) :
    wp (sysEnvSetPgfaultUpcall envid func) (MemPost B crash s) (MemEnd B crash) s := by
  rw [sysEnvSetPgfaultUpcall]
  refine wp_envid2env h.cur (h.post _) fun x hx => ?_
  simp only
  rw [wp_bind, wp_modify]
  exact ⟨h.inv.same (.updEnv s ⟨Iff.rfl, rfl⟩), fun hneg => absurd hneg (by decide)⟩

/-! ### IPC -/

theorem deliver_same {dst value cur : ℕ} (hne : (s.envs dst).envStatus ≠ .free) :
    wp (ipcDeliver cur dst value perm) (fun r s' => r = 0 ∧ s.SameUse s') (fun _ _ => False) s := by
  rw [ipcDeliver, wp_bind, wp_modify, wp_bind, wp_modify]
  exact ⟨rfl, (Kern.SameUse.updEnv s ⟨by simp [hne], rfl⟩).trans (.log _ (by simp))⟩

theorem wp_sysIpcTrySend (h : Caller B crash s e) {envid value srcva : ℕ} {Q : ℤ → Kern → Prop}
    (hc : crash ∨ s.CrashFree .ipcTrySend envid value srcva perm)
    (hsame : ∀ r tr, r < 0 → MemPost B crash s r (s.looked tr) → Q r (s.looked tr))
    (hdeliver : ∀ dst tr, s.envOf envid false = some dst → (s.envs dst).envIpcRecving → ¬ ((s.envs dst).envIpcDstva < utop ∧ srcva < utop) → MemInv B crash (s.looked tr) → wp (ipcDeliver e dst value 0) Q (MemEnd B crash) (s.looked tr))
    (hins : ∀ dst pp tr, srcva < utop → (s.envs dst).envIpcDstva < utop → s.envOf envid false = some dst → (s.envs dst).envIpcRecving → perm &&& notSyscall = 0 → s.pageAt e srcva = some pp → MemInv B crash (s.looked tr) → Mappable B s.dirs [] (s.looked tr).mm pp → wp (envPageInsert dst pp (s.envs dst).envIpcDstva perm) (fun r s' => if r < 0 then Q (-eNoMem) s' else wp (ipcDeliver e dst value perm) Q (MemEnd B crash) s') (MemEnd B crash) (s.looked tr)) :
    wp (sysIpcTrySend envid value srcva perm) Q (MemEnd B crash) s := by
  rw [sysIpcTrySend, wp_bind, wp_of_ret (curenvPtr_eq h.cur)]
  refine (call_lookup h h.lt h.ne_free h.pgdir hc).bind fun found s₁ h₁ => ?_
  obtain ⟨⟨tr, rfl⟩, h₁, hfound⟩ := h₁
  have hpost : ∀ r < 0, Q r (s.looked tr) := fun r hneg =>
    hsame r tr hneg ⟨h₁.inv, fun _ => ⟨rfl, rfl, rfl, rfl, fun _ _ => rfl⟩⟩
  refine wp_envid2env h₁.cur (hpost _ (by decide)) fun dst (hdst : s.envOf envid false = some dst) => ?_
  obtain ⟨hdlt, hdne⟩ := h.found hdst
  simp only
  rw [wp_bind, wp_get, wp_ite]
  refine ⟨fun _ => hpost _ (by decide), fun hrecv => ?_⟩
  have hrecv : (s.envs dst).envIpcRecving := by simpa using hrecv
  rw [wp_ite]
  refine ⟨fun _ => hpost _ (by decide), fun hargs => ?_⟩
  cases found with
  | none =>
    refine hdeliver dst tr hdst hrecv (fun hboth => ?_) h₁.inv
    exact hargs ⟨hboth.2, fun hok => hok.2.2.2.2⟩
  | some loc =>
    obtain ⟨pp, loc⟩ := loc
    simp only
    rw [wp_ite]
    refine ⟨fun hboth => ?_, fun hno => hdeliver dst tr hdst hrecv hno h₁.inv⟩
    obtain ⟨hdva, hsva⟩ := hboth
    have hat : s.pageAt e srcva = some pp := by
      have := hfound hsva
      cases hp : s.pageAt e srcva with
      | none =>
        rw [hp] at this
        cases this
      | some q =>
        rw [hp] at this
        cases this
        rfl
    have hperm : perm &&& notSyscall = 0 := (not_not.mp fun hcon => hargs ⟨hsva, hcon⟩).2.2.2.1
    have hpage := hat
    rw [h.inv.pageAt h.lt h.ne_free hsva] at hat
    have hrs : Ref.page e (pdx srcva) (ptx srcva) ∈ allRefs :=
      mem_allRefs.mpr ⟨h.lt, pdx_lt_user hsva, ptx_lt srcva⟩
    have hmap := h.inv.page.shape.mappable hrs hat
    refine (hins dst pp tr hsva hdva hdst hrecv hperm hpage h₁.inv
      (hmap.congr fun _ _ => rfl)).bind fun r s' hq => ?_
    split at hq
    · next hneg =>
      rw [if_pos hneg]
      exact hq
    · next hneg =>
      rw [if_neg hneg]
      exact hq

theorem call_trySend (h : Caller B crash s e) (envid value srcva perm : ℕ)
    (hm : s.MemCall B.perm .ipcTrySend envid value srcva perm 0)
    (hc : crash ∨ s.CrashFree .ipcTrySend envid value srcva perm) :
    wp (sysIpcTrySend envid value srcva perm) (MemPost B crash s) (MemEnd B crash) s := by
  have hdeliver : ∀ (dst v p : ℕ) (m : Mm), (s.envs dst).envStatus ≠ .free →
      MemInv B crash { s with mm := m } →
      wp (ipcDeliver e dst v p) (MemPost B crash s) (MemEnd B crash) { s with mm := m } := by
    intro dst v p m hdne hinv
    refine (deliver_same (s := { s with mm := m }) hdne).total fun r s' h' => ?_
    obtain ⟨rfl, h'⟩ := h'
    exact ⟨hinv.same h', fun hneg => absurd hneg (by decide)⟩
  refine wp_sysIpcTrySend h hc (fun _ _ _ h => h)
    (fun dst tr hdst _ _ hinv => hdeliver dst value 0 _ (h.found hdst).2 hinv) ?_
  intro dst pp tr hsva hdva hdst hrecv hperm hpage hinv hmap
  obtain ⟨hdlt, hdne⟩ := h.found hdst
  have href := (hm e h.cur).2 hsva dst hdst hrecv hdva pp hpage
  refine (call_insert h.inv (m := (s.looked tr).mm) hdlt hdne hdva hinv.page hmap
    (frame_mkPte_syscall (MemCtx.lt_two_pow hmap.pool) hperm) (B.perm_ok _ hperm)
    (h.inv.refOk hdlt hdne hdva hmap.pool href)).total fun r s₂ h₂ => ?_
  rcases h₂ with ⟨rfl, rfl⟩ | ⟨m', rfl, rfl, h₂, htrace, -⟩
  · rw [if_pos (by decide)]
    exact ⟨hinv, fun _ => ⟨rfl, rfl, rfl, rfl, fun _ _ => rfl⟩⟩
  · rw [if_neg (by decide)]
    exact hdeliver dst value perm m' hdne (h.inv.setMm h₂ (htrace ▸ hinv.quiet))

theorem Kern.SchedOk.congr {s s' : Kern} (h : s.SchedOk) (hstart : s'.schedStart = s.schedStart)
    (hend : s'.mm.mem s'.envsEnd = s.mm.mem s.envsEnd) : s'.SchedOk := by
  unfold Kern.SchedOk at h ⊢
  rw [hstart]
  by_cases hlt : s.schedStart < nenv
  · exact .inl hlt
  · right
    have hne := h.resolve_left hlt
    rw [Kern.statusWord, if_neg hlt] at hne ⊢
    rw [hend]
    exact hne

@[simp] theorem Kern.log_schedStart (s : Kern) (o : Obs) : (s.log o).schedStart = s.schedStart := rfl

theorem call_recv (h : Caller B crash s e) (dstva : ℕ)
    (hc : crash ∨ s.CrashFree .ipcRecv dstva 0 0 0) :
    wp (sysIpcRecv dstva) (MemPost B crash s) (MemEnd B crash) s := by
  rw [sysIpcRecv, wp_ite]
  refine ⟨fun _ => h.post _, fun hva => ?_⟩
  have hok : crash ∨ s.SchedOk := hc.imp_right fun hc => hc fun hlt => by
    by_contra hal
    exact hva ⟨hlt, hal⟩
  rw [wp_bind_of_ret (curenvPtr_eq h.cur), wp_bind, wp_modify, wp_bind, wp_modify, wp_bind]
  have h₁ := h.inv.same (.updEnv s (e := e) (f := fun x =>
    { x with
      envIpcDstva := dstva
      envIpcRecving := true
      envTf := { x.envTf with tfRegs := { x.envTf.tfRegs with regEax := 0 } }
      envStatus := .notRunnable }) ⟨by simp [h.ne_free], rfl⟩)
  refine (wp_memSched (h₁.same (.log _ (o := .ipcRecv e) (by simp))) (hok.imp_right fun hok => ?_)).imp
    fun _ _ hf => hf.elim
  refine hok.congr ?_ rfl
  rw [Kern.log_schedStart]
  exact Kern.schedStart_updEnv s e fun _ => rfl

/-! ### Calls that follow user pointers -/

theorem AccEnd.memEnd {st : Stop} (h : AccEnd crash st m) : MemEnd B crash st s :=
  .of_crash h.1 h.2

section

variable (h : Caller B crash s e)
include h

theorem Caller.post_acc {d : ℕ} {m₀ : Mm} (ha : UserAcc B s.dirs crash d m₀ m) {r : ℤ} (hr : 0 ≤ r) :
    MemPost B crash s r { s with mm := m } :=
  ⟨h.inv.setMm ha.page ha.quiet, fun hneg => absurd hneg (not_lt.mpr hr)⟩

theorem call_cputs (str len : ℕ) (hstr : str < 2 ^ 32) (hc : crash ∨ s.CrashFree .cputs str len 0 0) :
    wp (do sysCputs str len; pure 0) (MemPost B crash s) (MemEnd B crash) s := by
  rw [wp_bind, sysCputs, wp_bind, wp_of_ret (curenvPtr_eq h.cur)]
  refine (wp_memAssert h.inv h.lt h.ne_free h.pgdir h.cur _ _ _).bind fun _ s₁ h₁ => ?_
  obtain ⟨hacc, a, rfl⟩ := h₁
  rw [wp_bind, rcr3, wp_gets, wp_when]
  refine ⟨fun hne => ?_, fun _ => h.post_addr 0 a⟩
  rw [liftMm, wp_zoom]
  have hm : UserAcc B s.dirs crash s.thiscpu.cr3 s.mm { s.mm with userMemCheckAddr := a } :=
    (h.acc _).same ⟨rfl, rfl, rfl, rfl, rfl, id⟩
  exact (acc_printChars _ _ _ _ hstr hm rfl (hc.imp_right fun hc => hc hne hacc)).mono
    (fun _ m' hm' => h.post_acc hm' (le_refl 0)) fun _ _ hE => hE.memEnd

theorem call_setTrapframe (envid tf : ℕ) (hw : crash → s.WritesBelowUlim .envSetTrapframe envid tf)
    (hc : crash ∨ s.CrashFree .envSetTrapframe envid tf 0 0) :
    wp (sysEnvSetTrapframe envid tf) (MemPost B crash s) (MemEnd B crash) s := by
  rw [sysEnvSetTrapframe]
  refine wp_envid2env h.cur (h.post _) fun x hx => ?_
  obtain ⟨hxlt, hxne⟩ := h.found hx
  obtain ⟨d, hd, hdirs⟩ := h.inv.dir hxlt hxne
  simp only
  rw [wp_bind_of_ret (envPgdirPtr_eq hd)]
  refine (wp_memCheck h.inv hxlt hdirs _ _ _).bind_total fun r s₁ h₁ => ?_
  obtain ⟨hr, a, rfl⟩ := h₁
  rw [wp_ite]
  refine ⟨fun _ => h.post_addr r a, fun hnot => ?_⟩
  have hacc : s.mm.Accepts d tf sizeofTrapframe (pteW ||| pteU) := by
    rcases hr with rfl | hr
    · exact absurd (by decide) hnot
    · exact hr.2
  have hok := hc.imp_right fun hc => hc x hx d hd hacc
  have hm : UserAcc B s.dirs crash s.thiscpu.cr3 s.mm { s.mm with userMemCheckAddr := a } :=
    (h.acc _).same ⟨rfl, rfl, rfl, rfl, rfl, id⟩
  rw [wp_bind, rcr3, wp_gets, wp_bind, liftMm, wp_zoom]
  refine (acc_loadTrapframe hm (hok.imp_right And.left)).mono (fun frame m₂ hm₂ => ?_)
    fun _ _ hE => hE.memEnd
  rw [wp_bind, wp_modify, wp_bind, wp_modify, wp_bind, liftMm, wp_zoom]
  refine (acc_orUserCs hm₂ h.lt h.dir hw hok).mono (fun _ m₃ hm₃ => ?_) fun _ _ hE => hE.memEnd
  have h₂ := h.inv.setMm hm₂.page hm₂.quiet
  refine ⟨h₂.sameMm ?_ hm₃.page hm₃.quiet, fun hneg => absurd hneg (by decide)⟩
  exact (Kern.SameUse.updEnv _ ⟨Iff.rfl, rfl⟩).trans (.updEnv _ ⟨Iff.rfl, rfl⟩)

theorem call_sendPacket (va len : ℕ) (hc : crash ∨ s.CrashFree .sendPacket va len 0 0) :
    wp (sysSendPacket va len) (MemPost B crash s) (MemEnd B crash) s := by
  rw [sysSendPacket, wp_bind_of_ret (curenvPtr_eq h.cur), wp_bind,
    wp_of_ret (envPgdirPtr_eq h.pgdir)]
  refine (wp_memCheck h.inv h.lt h.dir _ _ _).bind_total fun r s₁ h₁ => ?_
  obtain ⟨hr, a, rfl⟩ := h₁
  rw [wp_ite]
  refine ⟨fun _ => h.post_addr _ a, fun hnot => ?_⟩
  have hacc : s.mm.Accepts s.thiscpu.cr3 va len pteU := by
    rcases hr with rfl | hr
    · exact absurd (by decide) hnot
    · exact hr.2
  rw [wp_bind, rcr3, wp_gets, nicTransmit, wp_ite]
  refine ⟨fun _ => h.post_addr _ a, fun hlen => ?_⟩
  rw [wp_bind, wp_get]
  simp only
  rw [wp_ite]
  refine ⟨fun _ => h.post_addr _ a, fun hready => ?_⟩
  have hok := hc.imp_right fun hc => hc hacc (Nat.not_lt.mp hlen) hready
  have hm : UserAcc B s.dirs crash s.thiscpu.cr3 s.mm { s.mm with userMemCheckAddr := a } :=
    (h.acc _).same ⟨rfl, rfl, rfl, rfl, rfl, id⟩
  rw [wp_bind]
  -- between two bytes only the packet buffer and the record have changed
  refine (wp_forFrom (fun _ t => ∃ m nic, t = { s with mm := m, nic := nic } ∧
    UserAcc B s.dirs crash s.thiscpu.cr3 s.mm m) ⟨_, _, rfl, hm⟩ fun k t _ hk ht => ?_).imp
    fun _ t ht => ?_
  · obtain ⟨m, nic, rfl, hm'⟩ := ht
    rw [wp_bind, liftMm, wp_zoom]
    refine (acc_uload hm' (hok.imp_right fun ho => ho k (by omega))).mono (fun _ m'' hm'' => ?_)
      fun _ _ hE => hE.memEnd
    exact ⟨m'', _, rfl, hm''.1⟩
  · obtain ⟨m, nic, rfl, hm'⟩ := ht
    rw [wp_bind, wp_modify]
    exact ⟨⟨hm'.page, h.inv.live, hm'.quiet⟩, fun hneg => absurd hneg (by decide)⟩

theorem call_receive {va len a : ℕ} (hlen : len < 2 ^ 32)
    (hw : crash → s.WritesBelowUlim .rcvPacket va len) (hm : UserAcc B s.dirs crash s.thiscpu.cr3 s.mm m)
    (hmem : m.mem = s.mm.mem) (hunt : s.Untouched { s with mm := { m with userMemCheckAddr := a } })
    (hok : crash ∨ (s.rxNext.status &&& 1 ≠ 0 → s.rxNext.status &&& 2 ≠ 0 → s.mm.Writable s.thiscpu.cr3 len 4 ∧ s.mm.Writable s.thiscpu.cr3 va ((s.mm.setWord32 s.thiscpu.cr3 len s.rxNext.length).wordAt s.thiscpu.cr3 len))) :
    wp (e1000Receive s.thiscpu.cr3 va len) (MemPost B crash s) (MemEnd B crash)
      { s with mm := { m with userMemCheckAddr := a } } := by
  have hma : UserAcc B s.dirs crash s.thiscpu.cr3 s.mm { m with userMemCheckAddr := a } :=
    hm.same ⟨rfl, rfl, rfl, rfl, rfl, id⟩
  have hpost : ∀ r, MemPost B crash s r { s with mm := { m with userMemCheckAddr := a } } :=
    fun r => ⟨h.inv.setMm hma.page hma.quiet, fun _ => hunt⟩
  rw [e1000Receive, wp_bind, wp_get]
  simp only
  rw [wp_ite]
  refine ⟨fun _ => hpost _, fun hdd => ?_⟩
  rw [wp_ite]
  refine ⟨fun _ => hpost _, fun heop => ?_⟩
  have hok := hok.imp_right fun ho => ho hdd heop
  -- the length is written, and read back
  rw [wp_bind, liftMm, wp_zoom]
  have hst := (acc_ustore32 (w := s.rxNext.length) hma h.lt h.dir hlen (fun hc => (hw hc).1)
    (hok.imp_right And.left)).and
    ((wp_ustore32 (m := { m with userMemCheckAddr := a }) s.mm s.thiscpu.cr3 len s.rxNext.length
      hmem))
  refine hst.mono (fun _ m₁ h₁ => ?_) fun _ _ hE => hE.1.memEnd
  obtain ⟨⟨h₁, hword⟩, hmem₁⟩ := h₁
  have hread : crash ∨ s.mm.Readable s.thiscpu.cr3 len 4 :=
    hok.imp_right fun ho k hk => (ho.1 k hk).2.1
  rw [wp_bind, liftMm, wp_zoom]
  have hld := (acc_uload32 h₁ hlen hread).and
    (wp_uload32 (R := fun _ _ => True) m₁ s.thiscpu.cr3 len rfl fun _ => trivial)
  refine hld.mono (fun n m₂ h₂ => ?_) fun _ _ hE => hE.1.memEnd
  obtain ⟨⟨h₂, -⟩, hn, -⟩ := h₂
  have hle : n ≤ s.rxLength := by
    rw [hn, hword]
    exact Nat.mod_le _ _
  rw [Mm.wordAt_congr hmem₁] at hn
  rw [wp_bind, liftMm, wp_zoom]
  refine (wp_forFrom (R := AccEnd crash) (fun _ m' => UserAcc B s.dirs crash s.thiscpu.cr3 s.mm m') h₂
    fun k m' _ hk hm' => ?_).mono (fun _ m₃ h₃ => ?_) fun _ _ hE => hE.memEnd
  · refine (acc_ustore hm' h.lt h.dir (fun hc => ?_)
      (hok.imp_right fun ho => ho.2 k (by omega))).imp fun _ _ h => h.1
    have := (hw hc).2
    exact (Nat.mod_le _ _).trans_lt (by omega)
  · rw [wp_bind, wp_modify]
    exact ⟨⟨h₃.page, h.inv.live, h₃.quiet⟩, fun hneg => absurd hneg (by decide)⟩

theorem call_rcvPacket (va len : ℕ) (hlen : len < 2 ^ 32)
    (hw : crash → s.WritesBelowUlim .rcvPacket va len) (hc : crash ∨ s.CrashFree .rcvPacket va len 0 0) :
    wp (sysRcvPacket va len) (MemPost B crash s) (MemEnd B crash) s := by
  rw [sysRcvPacket, wp_bind_of_ret (curenvPtr_eq h.cur), wp_bind, rcr3, wp_gets, wp_bind, liftMm,
    wp_zoom]
  have hld := (acc_uload32 (h.acc s.thiscpu.cr3) hlen (hc.imp_right And.left)).and
    (wp_uload32 (R := fun _ _ => True) s.mm s.thiscpu.cr3 len rfl fun _ => trivial)
  refine hld.mono (fun n m₁ h₁ => ?_) fun _ _ hE => hE.1.memEnd
  obtain ⟨⟨h₁, hsame⟩, rfl, -⟩ := h₁
  have h₁' := h.inv.setMm h₁.page h₁.quiet
  rw [wp_bind_of_ret (envPgdirPtr_eq (s := { s with mm := m₁ }) h.pgdir)]
  refine (wp_memCheck h₁' h.lt h.dir _ _ _).bind_total fun r s₂ h₂ => ?_
  obtain ⟨hr, a, rfl⟩ := h₂
  have hunt : s.Untouched { s with mm := { m₁ with userMemCheckAddr := a } } :=
    ⟨rfl, rfl, hsame.pages, hsame.freeList, fun p _ => congrFun hsame.mem p⟩
  rw [wp_ite]
  refine ⟨fun _ => ⟨h₁'.setMm (h₁'.page.congr rfl rfl rfl rfl rfl) h₁.quiet, fun _ => hunt⟩,
    fun hnot => ?_⟩
  have hacc : s.mm.Accepts s.thiscpu.cr3 va (s.mm.wordAt s.thiscpu.cr3 len) (pteU ||| pteW) := by
    rcases hr with rfl | hr
    · exact absurd (by decide) hnot
    · exact (Mm.accepts_congr hsame.mem _ _ _ _).mp hr.2
  exact call_receive h hlen hw h₁ hsame.mem hunt (hc.imp_right fun hc => hc.2 hacc)

end

/-! ### Every call -/

theorem mem_call (h : Caller B crash s e) (no : Sysno) {a1 a2 a3 a4 a5 : ℕ} (h1 : a1 < 2 ^ 32)
    (h2 : a2 < 2 ^ 32) (hm : s.MemCall B.perm no a1 a2 a3 a4 a5)
    (hw : crash → s.WritesBelowUlim no a1 a2) (hc : crash ∨ s.CrashFree no a1 a2 a3 a4) :
    wp (no.run a1 a2 a3 a4 a5) (MemPost B crash s) (MemEnd B crash) s := by
  cases no with
  | cputs => exact call_cputs h _ _ h1 hc
  | cgetc => exact h.post _
  | getenvid =>
    rw [Sysno.run, sysGetenvid, wp_bind_of_ret (curenvPtr_eq h.cur)]
    exact h.post _
  | envDestroy => exact call_envDestroy h _
  | pageAlloc => exact call_pageAlloc h _ _ _
  | pageMap => exact call_pageMap h _ _ _ _ _ hm hc
  | pageUnmap => exact call_pageUnmap h _ _ hc
  | exofork => exact call_exofork h
  | envSetStatus => exact call_setStatus h _ _
  | envSetTrapframe => exact call_setTrapframe h _ _ hw hc
  | envSetPgfaultUpcall => exact call_setPgfaultUpcall h _ _
  | yield =>
    rw [Sysno.run, wp_bind]
    exact (wp_memSched h.inv hc).imp fun _ _ hf => hf.elim
  | ipcTrySend => exact call_trySend h _ _ _ _ hm hc
  | ipcRecv => exact call_recv h _ hc
  | timeMsec => exact h.post _
  | sendPacket => exact call_sendPacket h _ _ hc
  | rcvPacket => exact call_rcvPacket h _ _ h2 hw hc

end Calls

end Jos
