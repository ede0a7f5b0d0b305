/-
A system call that fails has no effect.

While memory is in order, a negative result means that no page directory or
page table, no counter, neither free list and no environment has changed
(`Kern.Untouched`).  `sys_page_alloc` clears the first free page before it can
fail; that page is neither a directory nor a table, as long as no table is on
the free list.

* `failed_call_atomic` — the dispatcher, and what counts as a table;
* `failed_page_alloc_clears_table` — a page table that was put on the free list
  by way of a wrong entry.
-/
import Jos.Kern.Crash

namespace Jos

open Prog Demo

/-- A page directory or page table: that of the kernel, or of an environment. -/
def Kern.AnyTable (s : Kern) (p : ℕ) : Prop :=
  p = s.mm.kernPgdir ∨
  (∃ i, userPdes ≤ i ∧ i < 1024 ∧ p = frame (s.mm.mem s.mm.kernPgdir i)) ∨ s.IsTable p

section Calls

variable {B : MemCtx} {crash : Prop} {s s' : Kern} {e p : ℕ}

theorem MemInv.not_anyTable (h : MemInv B crash s) (hp : s.mm.pageFreeList = some p) :
    ¬ s.AnyTable p := by
  obtain ⟨free, hc⟩ := h.page.counts
  have hlink := hc.linked
  rw [hp] at hlink
  obtain ⟨rest, hrest, -⟩ := hlink.pop
  have hfree : p ∈ free := hrest ▸ List.mem_cons_self
  have hpool : p ∈ B.pool := ((hc.mem_free p).mp hfree).1
  have hkern : s.mm.mem s.mm.kernPgdir = B.boot.mem B.boot.kernPgdir := by
    rw [h.page.shape.kern]
    exact h.page.shape.outside _ B.booted.kern_free
  rintro (rfl | ⟨i, hi, hlt, rfl⟩ | ⟨r, hr, -, ht⟩)
  · rw [h.page.shape.kern] at hpool
    exact B.booted.kern_free hpool
  · rw [hkern] at hpool
    exact B.booted.upper_free i hi hlt hpool
  · exact hc.not_mem_free_of_ref hr ht hfree

theorem Kern.Untouched.tables (h : s.Untouched s') (hinv : MemInv B crash s) (hp : s.AnyTable p) :
    s'.mm.mem p = s.mm.mem p :=
  h.mem p fun hfree => hinv.not_anyTable hfree hp

theorem Kern.Untouched.looked (s : Kern) (tr : List Obs) : s.Untouched (s.looked tr) :=
  ⟨rfl, rfl, rfl, rfl, fun _ _ => rfl⟩

theorem atomic_pageMap (h : Caller B True s e) (srcenvid srcva dstenvid dstva perm : ℕ) :
    wp (sysPageMap srcenvid srcva dstenvid dstva perm) (fun r s' => r < 0 → s.Untouched s')
      (MemEnd B True) s := by
  refine wp_sysPageMap h (.inl trivial) (fun _ _ h => h.failed) ?_
  intro src dst pp tr _ _ hdva _ _ hdst _ hinv hmap
  obtain ⟨hlt, hne⟩ := h.found hdst
  refine (wp_envPageInsert_any h.inv hlt hne hdva hinv hmap).total fun r s' h' => ?_
  rcases h' with ⟨-, rfl⟩ | ⟨rfl, -⟩
  · intro _
    exact .looked s tr
  · intro hneg
    exact absurd hneg (by decide)

theorem atomic_trySend (h : Caller B True s e) (envid value srcva perm : ℕ) :
    wp (sysIpcTrySend envid value srcva perm) (fun r s' => r < 0 → s.Untouched s')
      (MemEnd B True) s := by
  -- once the message is delivered the call returns 0
  have hdeliver : ∀ (dst v q : ℕ) (t : Kern), (t.envs dst).envStatus ≠ .free →
      wp (ipcDeliver e dst v q) (fun r s' => r < 0 → s.Untouched s') (MemEnd B True) t := by
    intro dst v q t hne
    refine (deliver_same hne).total fun r s' h' hneg => ?_
    rw [h'.1] at hneg
    exact absurd hneg (by decide)
  refine wp_sysIpcTrySend h (.inl trivial) (fun _ _ _ h => h.failed)
    (fun dst tr hdst _ _ _ => hdeliver dst value 0 _ (h.found hdst).2) ?_
  intro dst pp tr _ hdva hdst _ _ _ hinv hmap
  obtain ⟨hlt, hne⟩ := h.found hdst
  refine (wp_envPageInsert_any h.inv hlt hne hdva hinv hmap).total fun r s' h' => ?_
  rcases h' with ⟨rfl, rfl⟩ | ⟨rfl, m, t, i, -, -, -, rfl⟩
  · rw [if_pos (by decide)]
    intro _
    exact .looked s tr
  · rw [if_neg (by decide)]
    exact hdeliver dst value perm _ hne

theorem atomic_setTrapframe (h : Caller B True s e) (envid tf : ℕ) :
    wp (sysEnvSetTrapframe envid tf) (fun r s' => r < 0 → s.Untouched s') (fun _ _ => True) s := by
  rw [sysEnvSetTrapframe]
  refine wp_envid2env h.cur ((h.post _).failed) fun x hx => ?_
  obtain ⟨hxlt, hxne⟩ := h.found hx
  obtain ⟨d, hd, hdirs⟩ := h.inv.dir hxlt hxne
  simp only
  rw [wp_bind_of_ret (envPgdirPtr_eq hd)]
  refine (wp_memCheck h.inv hxlt hdirs _ _ _).bind_total fun r s₁ h₁ => ?_
  obtain ⟨-, a, rfl⟩ := h₁
  rw [wp_ite]
  -- what follows the check ends with `return 0`
  refine ⟨fun _ => (h.post_addr r a).failed, fun _ => (wp_trivial _ _).bind fun _ _ _ =>
    (wp_trivial _ _).bind fun _ _ _ => (wp_trivial _ _).bind fun _ _ _ =>
    (wp_trivial _ _).bind fun _ _ _ => (wp_trivial _ _).bind fun _ _ _ hneg => ?_⟩
  exact absurd hneg (by decide)

theorem atomic_rcvPacket (h : Caller B True s e) (va : ℕ) {len : ℕ} (hlen : len < 2 ^ 32) :
    wp (sysRcvPacket va len) (fun r s' => r < 0 → s.Untouched s') (fun _ _ => True) s := by
  rw [sysRcvPacket, wp_bind_of_ret (curenvPtr_eq h.cur), wp_bind, rcr3, wp_gets, wp_bind, liftMm,
    wp_zoom]
  refine (acc_uload32 (h.acc s.thiscpu.cr3) hlen (.inl trivial)).mono (fun n m₁ h₁ => ?_)
    fun _ _ _ => trivial
  obtain ⟨h₁, hsame⟩ := h₁
  rw [wp_bind_of_ret (envPgdirPtr_eq (s := { s with mm := m₁ }) h.pgdir)]
  refine (wp_memCheck (h.inv.setMm h₁.page h₁.quiet) h.lt h.dir _ _ _).bind_total fun r s₂ h₂ => ?_
  obtain ⟨-, a, rfl⟩ := h₂
  have hunt : s.Untouched { s with mm := { m₁ with userMemCheckAddr := a } } :=
    ⟨rfl, rfl, hsame.pages, hsame.freeList, fun p _ => congrFun hsame.mem p⟩
  rw [wp_ite]
  refine ⟨fun _ _ => hunt, fun _ => ?_⟩
  rw [e1000Receive, wp_bind, wp_get]
  simp only
  rw [wp_ite]
  refine ⟨fun _ _ => hunt, fun _ => ?_⟩
  rw [wp_ite]
  refine ⟨fun _ _ => hunt, fun _ => (wp_trivial _ _).bind fun _ _ _ =>
    (wp_trivial _ _).bind fun _ _ _ => (wp_trivial _ _).bind fun _ _ _ =>
    (wp_trivial _ _).bind fun _ _ _ hneg => ?_⟩
  exact absurd hneg (by decide)

theorem atomic_call (h : Caller B True s e) (no : Sysno) {a1 a2 : ℕ} (h1 : a1 < 2 ^ 32)
    (h2 : a2 < 2 ^ 32) (a3 a4 a5 : ℕ) :
    wp (no.run a1 a2 a3 a4 a5) (fun r s' => r < 0 → s.Untouched s') (fun _ _ => True) s := by
  have hmem : s.MemCall B.perm no a1 a2 a3 a4 a5 → s.WritesBelowUlim no a1 a2 →
      wp (no.run a1 a2 a3 a4 a5) (fun r s' => r < 0 → s.Untouched s') (fun _ _ => True) s :=
    fun hm hw => (mem_call h no h1 h2 hm (fun _ => hw) (.inl trivial)).mono
      (fun _ _ h => h.failed) fun _ _ _ => trivial
  cases no with
  | pageMap => exact (atomic_pageMap h a1 a2 a3 a4 a5).mono (fun _ _ h => h) fun _ _ _ => trivial
  | ipcTrySend => exact (atomic_trySend h a1 a2 a3 a4).mono (fun _ _ h => h) fun _ _ _ => trivial
  | pageUnmap =>
    exact (call_pageUnmap h a1 a2 (.inl trivial)).mono (fun _ _ h => h.failed) fun _ _ _ => trivial
  | envSetTrapframe => exact atomic_setTrapframe h a1 a2
  | rcvPacket => exact atomic_rcvPacket h a1 h2
  | _ => exact hmem trivial trivial

end Calls

/-- **Atomic failure.**  In every state that is reached with memory in order, on
every processor, a system call with any number and any arguments that returns a
negative value has changed no environment, no counter, neither free list and no
page but the first free one, which is not a directory or table. -/
theorem failed_call_atomic {s₀ s : Kern} {free : List ℕ} (hb : Booted s₀ free)
    (hr : Sys.Reach Kern.step (MemCond anyFlags) s₀ s) {c e : ℕ} (hcur : (s.cpus c).cpuEnv = some e)
    (tf : Trapframe) (syscallno a1 a2 a3 a4 a5 : UInt32) {r : ℤ} {s' : Kern}
    (hrun : syscall syscallno a1 a2 a3 a4 a5 (s.entered c e tf) = .ret r s') (hneg : r < 0) :
    (s.entered c e tf).Untouched s' ∧
      ∀ p, (s.entered c e tf).AnyTable p → s'.mm.mem p = (s.entered c e tf).mm.mem p := by
  have hcaller := (memRun_reach (B := countCtx s₀.mm free hb.mm) hb rfl hr).caller hcur tf
  have hwp : wp (syscall syscallno a1 a2 a3 a4 a5)
      (fun r s' => r < 0 → (s.entered c e tf).Untouched s') (fun _ _ => True)
      (s.entered c e tf) := by
    rw [syscall]
    cases Sysno.decode syscallno.toNat with
    | none => exact fun _ => .refl _
    | some no => exact atomic_call hcaller no a1.toNat_lt a2.toNat_lt _ _ _
  have hunt := hwp.ret hrun hneg
  exact ⟨hunt, fun p hp => hunt.tables hcaller.inv hp⟩

/-- An environment runs and has used up all pages but one. -/
def Demo.lastPage : List (ℕ × Event) :=
  running ++ [(0, call 4 0 0xeebfc000 7 0 0), (0, call 4 0 0xeebfb000 7 0 0)]

def Demo.allocFails (s : Kern) : Bool :=
  match syscall 4 0 0x400000 7 0 0 (s.entered 0 0 {}) with
  | .ret r _ => decide (r = -eNoMem)
  | .stop _ _ => false

/-- The last page is taken, no table can be had for it, and it goes back. -/
theorem failed_call_atomic_no_table :
    ∃ s s', Sys.Reach Kern.step (MemCond anyFlags) (machine 6) s ∧
      s.mm.pageFreeList ≠ none ∧
      syscall 4 0 0x400000 7 0 0 (s.entered 0 0 {}) = .ret (-eNoMem) s' ∧
      (s.entered 0 0 {}).Untouched s' ∧
      ∀ p, (s.entered 0 0 {}).AnyTable p → s'.mm.mem p = (s.entered 0 0 {}).mm.mem p := by
  have hok : Sys.AllOk Kern.step (Kern.PagingStep anyFlags) lastPage (machine 6) := by
    decide +kernel
  obtain ⟨s, hs, hcur, hfree, hp⟩ := Sys.exists_reach_of (P := fun s => (s.cpus 0).cpuEnv = some 0 ∧
    s.mm.pageFreeList ≠ none ∧ allocFails s) hok (by decide +kernel)
  have hr := hs.mono fun _ _ h => Kern.PagingStep.memCond h
  unfold allocFails at hp
  split at hp
  · next r s' hrun =>
    obtain rfl := of_decide_eq_true hp
    exact ⟨s, s', hr, hfree, hrun, failed_call_atomic (machine_booted 6 (by decide)) hr hcur {}
      4 0 0x400000 7 0 0 hrun (by decide)⟩
  · cases hp

/-- The page table for the lowest addresses is page 517.  An entry for page 516
with flags `0x1007` refers to it, and unmapping that entry puts it on the free
list. -/
def Demo.freedTable : List (ℕ × Event) :=
  running ++ [(0, call 4 0 0xeebfc000 7 0 0), (0, call 4 0 0 7 0 0),
    (0, call 5 0 0 0 0xeebfb000 0x1007), (0, call 6 0 0xeebfb000 0 0 0)]

/-- Allocating a page at `0x400000` fails, and page 517 loses its first entry. -/
def Demo.allocClears (s : Kern) : Bool :=
  match syscall 4 0 0x400000 7 0 0 (s.entered 0 0 {}) with
  | .ret r s' => decide (r = -eNoMem ∧ s.mm.mem 517 0 = mkPte 516 7 ∧ s'.mm.mem 517 0 = 0)
  | .stop _ _ => false

/-- **Counterexample**: `sys_page_alloc(0, 0x400000, 7)` fails for lack of a
page table, and has cleared the table that maps address 0. -/
theorem failed_page_alloc_clears_table :
    ∃ s s', Sys.Reach Kern.step (fun _ _ => True) (machine 6) s ∧
      (s.cpus 0).cpuEnv = some 0 ∧
      syscall 4 0 0x400000 7 0 0 (s.entered 0 0 {}) = .ret (-eNoMem) s' ∧
      target s.dirs s.mm.mem (.tab 0 0) = some 517 ∧
      s.mm.mem 517 0 = mkPte 516 7 ∧ s'.mm.mem 517 0 = 0 := by
  obtain ⟨s, hs, hcur, htab, hp⟩ := Sys.exists_reach_of (P := fun s : Kern => (s.cpus 0).cpuEnv = some 0 ∧
    target s.dirs s.mm.mem (.tab 0 0) = some 517 ∧ allocClears s)
    (Sys.allOk_true freedTable (machine 6) : Sys.AllOk Kern.step _ _ _) (by decide +kernel)
  unfold allocClears at hp
  split at hp
  · next r s' hrun =>
    obtain ⟨rfl, hold, hnew⟩ := of_decide_eq_true hp
    exact ⟨s, s', hs, hcur, hrun, htab, hold, hnew⟩
  · cases hp

end Jos
