/-
No system call brings the kernel down.

`Kern.CrashFree` is what the kernel relies on without checking it.  In every
state that is reached with memory in order, a call that meets it returns,
reschedules, or destroys the environment that made it; that the mapping calls
can leave memory in disorder (`Kern.MemCall`) does not matter to the call
itself.

* `no_kernel_crash` — the dispatcher, for any number and arguments;
* `page_unmap_crashes` — an address that has no page table.
-/
import Jos.Kern.Isolation

namespace Jos

open Prog Demo

section Calls

variable {B : MemCtx} {s : Kern} {e : ℕ}

theorem survives_insert (h : Caller B False s e) {x pp va perm : ℕ} {tr : List Obs} (hx : x < nenv)
    (hne : (s.envs x).envStatus ≠ .free) (hva : va < utop) (hinv : MemInv B False (s.looked tr))
    (hpp : Mappable B s.dirs [] (s.looked tr).mm pp) :
    wp (envPageInsert x pp va perm) (fun _ s' => ∃ m, s' = { s with mm := m } ∧ .nullPte ∉ m.trace)
      (fun _ _ => False) (s.looked tr) := by
  have hquiet : .nullPte ∉ tr := hinv.quiet.resolve_left id
  refine (wp_envPageInsert_any h.inv hx hne hva hinv hpp).imp fun r s' h' => ?_
  rcases h' with ⟨-, rfl⟩ | ⟨-, m, t, i, -, htrace, -, rfl⟩
  · exact ⟨_, rfl, hquiet⟩
  · refine ⟨_, rfl, ?_⟩
    rw [Mm.setWord_trace, htrace]
    exact hquiet

theorem survives_deliver {dst value perm cur : ℕ} (hne : (s.envs dst).envStatus ≠ .free)
    (hq : .nullPte ∉ s.mm.trace) : wp (ipcDeliver cur dst value perm)
      (fun _ s' => .nullPte ∉ s'.mm.trace) (MemEnd B False) s :=
  (deliver_same hne).total fun _ _ h hn => hq (h.2.mm.quiet hn)

theorem survives_pageMap (h : Caller B False s e) {srcenvid srcva dstenvid dstva : ℕ} (perm : ℕ)
    (hc : s.CrashFree .pageMap srcenvid srcva dstenvid dstva) :
    wp (sysPageMap srcenvid srcva dstenvid dstva perm) (fun _ s' => .nullPte ∉ s'.mm.trace)
      (MemEnd B False) s := by
  refine wp_sysPageMap h (.inr hc) (fun _ _ h => h.inv.quiet.resolve_left id) ?_
  intro src dst pp tr _ _ hdva _ _ hdst _ hinv hmap
  obtain ⟨hlt, hne⟩ := h.found hdst
  refine (survives_insert h hlt hne hdva hinv hmap).total fun r s' h' => ?_
  obtain ⟨m, rfl, hq⟩ := h'
  exact hq

theorem survives_trySend (h : Caller B False s e) {envid value srcva perm : ℕ}
    (hc : s.CrashFree .ipcTrySend envid value srcva perm) :
    wp (sysIpcTrySend envid value srcva perm) (fun _ s' => .nullPte ∉ s'.mm.trace)
      (MemEnd B False) s := by
  refine wp_sysIpcTrySend h (.inr hc) (fun _ _ _ h => h.inv.quiet.resolve_left id)
    (fun dst tr hdst _ _ hinv => survives_deliver (h.found hdst).2 (hinv.quiet.resolve_left id)) ?_
  intro dst pp tr _ hdva hdst _ _ _ hinv hmap
  obtain ⟨hlt, hne⟩ := h.found hdst
  refine (survives_insert h hlt hne hdva hinv hmap).total fun r s' h' => ?_
  obtain ⟨m, rfl, hq⟩ := h'
  split
  · exact hq
  · exact survives_deliver (s := { s with mm := m }) hne hq

theorem survives_call (h : Caller B False s e) (no : Sysno) {a1 a2 a3 a4 : ℕ} (h1 : a1 < 2 ^ 32)
    (h2 : a2 < 2 ^ 32) (a5 : ℕ) (hc : s.CrashFree no a1 a2 a3 a4) :
    wp (no.run a1 a2 a3 a4 a5) (fun _ s' => .nullPte ∉ s'.mm.trace) (MemEnd B False) s := by
  have hmem : s.MemCall B.perm no a1 a2 a3 a4 a5 →
      wp (no.run a1 a2 a3 a4 a5) (fun _ s' => .nullPte ∉ s'.mm.trace) (MemEnd B False) s :=
    fun hm => (mem_call h no h1 h2 hm False.elim (.inr hc)).imp
      fun _ _ h => h.inv.quiet.resolve_left id
  cases no with
  | pageMap => exact survives_pageMap h a5 hc
  | ipcTrySend => exact survives_trySend h hc
  | pageUnmap => exact (call_pageUnmap h a1 a2 (.inr hc)).imp fun _ _ h => h.inv.quiet.resolve_left id
  | _ => exact hmem trivial

end Calls

theorem RunMem.caller_quiet {B : MemCtx} {s : Kern} {c e : ℕ} (h : RunMem B s)
    (hcur : (s.cpus c).cpuEnv = some e) (tf : Trapframe) :
    Caller B False (s.entered c e tf) e where
  inv := ⟨(h.caller hcur tf).inv.page, (h.caller hcur tf).inv.live, .inr List.not_mem_nil⟩
  run := (h.caller hcur tf).run
  cur := (h.caller hcur tf).cur

/-- **No crash.**  In every state that is reached with memory in order, on
every processor, a system call with any number and any arguments that meets
`Kern.CrashFree` returns, or leaves the kernel through the scheduler, and reads
through no null page table entry pointer. -/
theorem no_kernel_crash {s₀ s : Kern} {free : List ℕ} (hb : Booted s₀ free)
    (hr : Sys.Reach Kern.step (MemCond anyFlags) s₀ s) {c e : ℕ} (hcur : (s.cpus c).cpuEnv = some e)
    (tf : Trapframe) (syscallno a1 a2 a3 a4 a5 : UInt32)
    (hok : ∀ no ∈ Sysno.decode syscallno.toNat,
      (s.entered c e tf).CrashFree no a1.toNat a2.toNat a3.toNat a4.toNat) :
    (∃ r s', syscall syscallno a1 a2 a3 a4 a5 (s.entered c e tf) = .ret r s' ∧
      .nullPte ∉ s'.mm.trace) ∨
    ∃ st s', syscall syscallno a1 a2 a3 a4 a5 (s.entered c e tf) = .stop st s' ∧
      (st = .user ∨ st = .halted ∨ st = .monitor) ∧ .nullPte ∉ s'.mm.trace := by
  have hinv := memRun_reach (B := countCtx s₀.mm free hb.mm) hb rfl hr
  have hcaller := hinv.caller_quiet hcur tf
  have hwp : wp (syscall syscallno a1 a2 a3 a4 a5) (fun _ s' => .nullPte ∉ s'.mm.trace)
      (MemEnd (countCtx s₀.mm free hb.mm) False) (s.entered c e tf) := by
    rw [syscall]
    cases hd : Sysno.decode syscallno.toNat with
    | none => exact List.not_mem_nil
    | some no => exact survives_call hcaller no a1.toNat_lt a2.toNat_lt _ (hok no hd)
  cases hrun : syscall syscallno a1 a2 a3 a4 a5 (s.entered c e tf) with
  | ret r s' => exact .inl ⟨r, s', rfl, hwp.ret hrun⟩
  | stop st s' =>
    have hend := hwp.stop hrun
    refine .inr ⟨st, s', rfl, ?_, hend.quiet.resolve_left id⟩
    rcases hend.way.resolve_left id with hl | hmon
    · cases st with
      | user => exact .inl rfl
      | halted => exact .inr (.inl rfl)
      | _ => cases hl
    · exact .inr (.inr hmon)

def Demo.running : List (ℕ × Event) := [(0, .create image .user), (0, .start)]

theorem Demo.running_ok :
    Sys.AllOk Kern.step (Kern.PagingStep anyFlags) running (machine 16) := by
  decide +kernel

/-- It maps its stack page a second time. -/
theorem no_kernel_crash_page_map :
    ∃ s, Sys.Reach Kern.step (MemCond anyFlags) (machine 16) s ∧
      (s.entered 0 0 {}).pageAt 0 0xeebfd000 ≠ none ∧
      ((∃ r s', syscall 5 0 0xeebfd000 0 0xeebfb000 7 (s.entered 0 0 {}) = .ret r s' ∧
        .nullPte ∉ s'.mm.trace) ∨
      ∃ st s', syscall 5 0 0xeebfd000 0 0xeebfb000 7 (s.entered 0 0 {}) = .stop st s' ∧
        (st = .user ∨ st = .halted ∨ st = .monitor) ∧ .nullPte ∉ s'.mm.trace) := by
  obtain ⟨s, hs, hcur, hpage, htable⟩ := Sys.exists_reach_of (P := fun s =>
    (s.cpus 0).cpuEnv = some 0 ∧ (s.entered 0 0 {}).pageAt 0 0xeebfd000 ≠ none ∧
      ∀ src ∈ (s.entered 0 0 {}).envOf 0 true, (s.entered 0 0 {}).HasTable src 0xeebfd000)
    running_ok (by decide +kernel)
  have hr := hs.mono fun _ _ h => Kern.PagingStep.memCond h
  refine ⟨s, hr, hpage, no_kernel_crash (machine_booted 16 (by decide)) hr hcur {}
    5 0 0xeebfd000 0 0xeebfb000 7 fun no hno => ?_⟩
  cases hno
  exact fun _ _ _ _ src hsrc _ _ => htable src hsrc

def Demo.unmapPanics (s : Kern) : Bool :=
  match syscall 6 0 0x400000 0 0 0 (s.entered 0 0 {}) with
  | .stop st s' => decide (st = kernelFault ∧ .nullPte ∈ s'.mm.trace)
  | .ret _ _ => false

/-- **Counterexample**: `sys_page_unmap(0, 0x400000)` where nothing near that
address has been mapped. -/
theorem page_unmap_crashes :
    ∃ s s', Sys.Reach Kern.step (MemCond anyFlags) (machine 16) s ∧
      (s.cpus 0).cpuEnv = some 0 ∧
      syscall 6 0 0x400000 0 0 0 (s.entered 0 0 {}) = .stop kernelFault s' ∧
      .nullPte ∈ s'.mm.trace := by
  obtain ⟨s, hs, hcur, hp⟩ := Sys.exists_reach_of
    (P := fun s => (s.cpus 0).cpuEnv = some 0 ∧ unmapPanics s) running_ok (by decide +kernel)
  have hr := hs.mono fun _ _ h => Kern.PagingStep.memCond h
  unfold unmapPanics at hp
  split at hp
  · next st s' hrun =>
    obtain ⟨rfl, htrace⟩ := of_decide_eq_true hp
    exact ⟨s, s', hr, hcur, hrun, htrace⟩
  · cases hp

end Jos
