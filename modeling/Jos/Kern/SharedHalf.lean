/-
The kernel's half of the address spaces.

Every page directory is a copy of `kern_pgdir` from `UTOP` up, made once in
`env_setup_vm`, so it must never change afterwards: neither the entries nor
`kern_pgdir` itself.  `Mm.Shared` is what of `PageInv` that takes; it survives
also the calls that get a reference count or an entry wrong
(`Mm.Shared.insert`).

* `shared_half` — every system call that writes below `ULIM`, and every
  `mmio_map_region`, leaves the directories in agreement, and no such call
  touches the shared tables;
* `receive_overwrites_table` — a packet received into a shared table.
-/
import Jos.Kern.Isolation

namespace Jos

open Prog

/-! ### Device memory -/

def ptePwt : ℕ := 0x008
def ptePcd : ℕ := 0x010

/-- The loop of `boot_map_region`, with `n` pages to go. -/
def bootMapLoop (pgdir perm : ℕ) : ℕ → ℕ → ℕ → MmM Unit
  | _, _, 0 => pure ()
  | va, pa, n + 1 => do
    let pte ← pgdirWalk pgdir va true
    match pte with
    | none => halt .wild
    | some (p, i) => do
      modify (·.setWord p i (pteAddr pa ||| perm ||| pteP))
      bootMapLoop pgdir perm ((va + pgsize) % 2 ^ 32) ((pa + pgsize) % 2 ^ 32) n

def bootMapRegion (pgdir va size pa perm : ℕ) : MmM Unit :=
  let sizeR := roundup size pgsize
  bootMapLoop pgdir perm va pa (sizeR / pgsize)

/-- `mmio_map_region`.  The static variable `base` is passed in and returned
behind the result. -/
def mmioMapRegion (base pa size : ℕ) : MmM (ℕ × ℕ) := do
  let sizeR := roundup size pgsize
  if (base + size) % 2 ^ 32 > mmiolim ∨ (base + size) % 2 ^ 32 < base then
    halt (.panic "mmio_map region .... memory is not enough\n")
  else do
    let m ← get
    bootMapRegion m.kernPgdir base size pa (ptePcd ||| ptePwt ||| pteW ||| pteP)
    pure (base, (base + sizeR) % 2 ^ 32)

/-- The values `base` takes. -/
structure MmioBase (base : ℕ) : Prop where
  ge : mmiobase ≤ base
  le : base ≤ mmiolim
  aligned : base % pgsize = 0

theorem MmioBase.start : MmioBase mmiobase := ⟨Nat.le_refl _, by decide, by decide⟩

/-! ### Agreement -/

/-- The directories of the live environments are `kern_pgdir` from `UTOP` up,
but for `UVPT`, where each maps itself; `kern_pgdir` has nothing below `UTOP`
and a page table for `MMIOBASE`. -/
structure Kern.Agreed (s : Kern) : Prop where
  upper : ∀ e < nenv, (s.envs e).envStatus ≠ .free → ∃ d, (s.envs e).envPgdir = some d ∧
    (∀ i, userPdes ≤ i → i < 1024 → i ≠ pdx uvpt → s.mm.mem d i = s.mm.mem s.mm.kernPgdir i) ∧
    s.mm.mem d (pdx uvpt) = mkPte d pteU
  lower : ∀ i < userPdes, s.mm.mem s.mm.kernPgdir i = 0
  mmio : present (s.mm.mem s.mm.kernPgdir (pdx mmiobase)) ∧
    frame (s.mm.mem s.mm.kernPgdir (pdx mmiobase)) ≠ s.mm.kernPgdir

/-- The page tables of the shared entries are what they were, and not free. -/
def Kern.KeepsTables (s s' : Kern) : Prop :=
  s'.mm.mem s.mm.kernPgdir = s.mm.mem s.mm.kernPgdir ∧
  ∃ free, Linked (fun p => (s'.mm.pages p).ppLink) s'.mm.pageFreeList free ∧
    ∀ i, userPdes ≤ i → i < 1024 → present (s.mm.mem s.mm.kernPgdir i) →
      s'.mm.mem (frame (s.mm.mem s.mm.kernPgdir i)) = s.mm.mem (frame (s.mm.mem s.mm.kernPgdir i)) ∧
      frame (s.mm.mem s.mm.kernPgdir i) ∉ free

/-- What agreement needs of `PageInv`. -/
structure Mm.Shared (B : MemCtx) (dirs : ℕ → Option ℕ) (m : Mm) : Prop where
  kern : m.kernPgdir = B.boot.kernPgdir
  upper : ∀ e < nenv, ∀ d, dirs e = some d → ∀ i, userPdes ≤ i → i < 1024 →
    m.mem d i = if i = pdx uvpt then mkPte d pteU else B.boot.mem B.boot.kernPgdir i
  outside : ∀ p, p ∉ B.pool → m.mem p = B.boot.mem p
  list : ∃ free, Linked (fun p => (m.pages p).ppLink) m.pageFreeList free ∧
    ∀ p ∈ free, p ∈ B.pool

section Shared

variable {B : MemCtx} {dirs : ℕ → Option ℕ} {held hand : List ℕ} {m : Mm} {e d t va cr3 : ℕ}

theorem PageInv.shared (h : PageInv B dirs held hand m) : m.Shared B dirs where
  kern := h.shape.kern
  upper := h.shape.upper
  outside := h.shape.outside
  list := by
    obtain ⟨free, hc⟩ := h.counts
    exact ⟨free, hc.linked, fun p hp => ((hc.mem_free p).mp hp).1⟩

theorem Mm.Shared.storeTable (h : m.Shared B dirs) (ht : t ∈ B.pool)
    (hne : ∀ e < nenv, dirs e ≠ some t) (j w : ℕ) : (m.setWord t j w).Shared B dirs where
  kern := h.kern
  upper x hx d hd i hi hlt := by
    have hdt : d ≠ t := by
      rintro rfl
      exact hne x hx hd
    rw [Mm.setWord_other m t j w hdt]
    exact h.upper x hx d hd i hi hlt
  outside p hp := by
    rw [Mm.setWord_other m t j w (ne_of_mem_of_not_mem ht hp).symm]
    exact h.outside p hp
  list := h.list

end Shared

/-! ### System calls -/

/-- Agreement, for the directories in use. -/
structure SharedInv (B : MemCtx) (s : Kern) : Prop where
  mm : s.mm.Shared B s.dirs
  live : ∀ e < nenv, (s.envs e).envStatus ≠ .free → (s.envs e).envPgdir ≠ none

section Calls

variable {B : MemCtx} {s s' : Kern} {e : ℕ}

theorem MemInv.shared {crash : Prop} (h : MemInv B crash s) : SharedInv B s :=
  ⟨h.page.shared, h.live⟩

theorem SharedInv.same (h : SharedInv B s) (hs : s.SameUse s') : SharedInv B s' where
  mm := by
    rw [hs.dirs]
    refine ⟨hs.mm.kern.trans h.mm.kern, ?_, ?_, ?_⟩
    · rw [hs.mm.mem]
      exact h.mm.upper
    · rw [hs.mm.mem]
      exact h.mm.outside
    · rw [hs.mm.pages, hs.mm.freeList]
      exact h.mm.list
  live x hx hne := by
    rw [(hs.envs x).pgdir]
    exact h.live x hx fun hf => hne ((hs.envs x).free.mpr hf)

/-- What a call leads to, unless the kernel stops for good. -/
def SharedEnd (B : MemCtx) (st : Stop) (s : Kern) : Prop := st.leaves → SharedInv B s

theorem MemEnd.shared {st : Stop} (h : MemEnd B True st s) : SharedEnd B st s :=
  fun hl => (h.inv hl).shared

theorem shared_insert (h : Caller B True s e) {x pp va perm : ℕ} {tr : List Obs}
    (hx : x < nenv) (hne : (s.envs x).envStatus ≠ .free) (hva : va < utop)
    (hinv : MemInv B True (s.looked tr)) (hpp : Mappable B s.dirs [] (s.looked tr).mm pp) :
    wp (envPageInsert x pp va perm)
      (fun _ s' => ∃ m, s' = { s with mm := m } ∧ SharedInv B { s with mm := m })
      (fun _ _ => False) (s.looked tr) := by
  refine (wp_envPageInsert_any h.inv hx hne hva hinv hpp).imp fun r s' h' => ?_
  rcases h' with ⟨-, rfl⟩ | ⟨-, m, t, i, hm, -, ht, rfl⟩
  · exact ⟨_, rfl, hinv.shared⟩
  · have hr : Ref.tab x (pdx va) ∈ allRefs := mem_allRefs.mpr ⟨hx, pdx_lt_user hva⟩
    refine ⟨_, rfl, hm.shared.storeTable (hm.shape.pool _ hr t ht) (fun y hy hd => ?_) _ _, h.inv.live⟩
    -- a page is a table or a directory, not both
    have hdir : Ref.dir y ∈ allRefs := mem_allRefs.mpr hy
    exact nomatch hm.shape.excl _ hdir _ hr t trivial hd ht

theorem shared_pageMap (h : Caller B True s e) (srcenvid srcva dstenvid dstva perm : ℕ) :
    wp (sysPageMap srcenvid srcva dstenvid dstva perm) (fun _ => SharedInv B) (MemEnd B True) s := by
  refine wp_sysPageMap h (.inl trivial) (fun _ _ h => h.inv.shared) ?_
  intro src dst pp tr _ _ hdva _ _ hdst _ hinv hmap
  obtain ⟨hlt, hne⟩ := h.found hdst
  refine (shared_insert h hlt hne hdva hinv hmap).total fun r s' h' => ?_
  obtain ⟨m, rfl, h'⟩ := h'
  exact h'

theorem shared_trySend (h : Caller B True s e) (envid value srcva perm : ℕ) :
    wp (sysIpcTrySend envid value srcva perm) (fun _ => SharedInv B) (MemEnd B True) s := by
  have hdeliver : ∀ (dst v p : ℕ) (m : Mm), (s.envs dst).envStatus ≠ .free →
      SharedInv B { s with mm := m } →
      wp (ipcDeliver e dst v p) (fun _ => SharedInv B) (MemEnd B True) { s with mm := m } := by
    intro dst v p m hne hinv
    exact (deliver_same (s := { s with mm := m }) hne).total fun r s' h' => hinv.same h'.2
  refine wp_sysIpcTrySend h (.inl trivial) (fun _ _ _ h => h.inv.shared)
    (fun dst tr hdst _ _ hinv => hdeliver dst value 0 _ (h.found hdst).2 hinv.shared) ?_
  intro dst pp tr _ hdva hdst _ _ _ hinv hmap
  obtain ⟨hlt, hne⟩ := h.found hdst
  refine (shared_insert h hlt hne hdva hinv hmap).total fun r s' h' => ?_
  obtain ⟨m, rfl, h'⟩ := h'
  split
  · exact h'
  · exact hdeliver dst value perm m hne h'

theorem shared_call (h : Caller B True s e) (no : Sysno) {a1 a2 : ℕ} (h1 : a1 < 2 ^ 32)
    (h2 : a2 < 2 ^ 32) (a3 a4 a5 : ℕ) (hw : s.WritesBelowUlim no a1 a2) :
    wp (no.run a1 a2 a3 a4 a5) (fun _ => SharedInv B) (SharedEnd B) s := by
  have hmem : s.MemCall B.perm no a1 a2 a3 a4 a5 →
      wp (no.run a1 a2 a3 a4 a5) (fun _ => SharedInv B) (SharedEnd B) s := fun hm =>
    (mem_call h no h1 h2 hm (fun _ => hw) (.inl trivial)).mono (fun _ _ h => h.inv.shared)
      fun _ _ h => h.shared
  cases no with
  | pageMap => exact (shared_pageMap h a1 a2 a3 a4 a5).mono (fun _ _ h => h) fun _ _ h => h.shared
  | ipcTrySend => exact (shared_trySend h a1 a2 a3 a4).mono (fun _ _ h => h) fun _ _ h => h.shared
  | pageUnmap =>
    exact (call_pageUnmap h a1 a2 (.inl trivial)).mono (fun _ _ h => h.inv.shared) fun _ _ h => h.shared
  | _ => exact hmem trivial

theorem SharedInv.kern_eq (h : SharedInv B s) :
    s.mm.mem s.mm.kernPgdir = B.boot.mem B.boot.kernPgdir := by
  rw [h.mm.kern]
  exact h.mm.outside _ B.booted.kern_free

theorem SharedInv.agreed (h : SharedInv B s')
    (hmmio : present (B.boot.mem B.boot.kernPgdir (pdx mmiobase)) ∧
      frame (B.boot.mem B.boot.kernPgdir (pdx mmiobase)) ≠ B.boot.kernPgdir) : s'.Agreed := by
  constructor
  · intro x hx hne
    obtain ⟨d, hd⟩ := Option.ne_none_iff_exists'.mp (h.live x hx hne)
    have hdirs : s'.dirs x = some d := (Kern.dirs_of_ne_free hne).trans hd
    refine ⟨d, hd, fun i hi hlt hv => ?_, ?_⟩
    · rw [h.kern_eq, h.mm.upper x hx d hdirs i hi hlt, if_neg hv]
    · rw [h.mm.upper x hx d hdirs _ (by decide) (by decide), if_pos rfl]
  · intro i hi
    rw [h.kern_eq]
    exact B.booted.lower i hi
  · rw [h.kern_eq, h.mm.kern]
    exact hmmio

theorem SharedInv.keepsTables (h : SharedInv B s') (hs : SharedInv B s) : s.KeepsTables s' := by
  obtain ⟨free, hl, hfree⟩ := h.mm.list
  refine ⟨?_, free, hl, fun i hi hlt _ => ?_⟩
  · rw [hs.kern_eq, hs.mm.kern]
    exact h.mm.outside _ B.booted.kern_free
  · have hout := B.booted.upper_free i hi hlt
    rw [hs.kern_eq, h.mm.outside _ hout, hs.mm.outside _ hout]
    exact ⟨rfl, fun hmem => hout (hfree _ hmem)⟩

end Calls

/-! ### `mmio_map_region` -/

section Mmio

variable {m : Mm} {pgdir perm t : ℕ}

theorem wp_bootMapLoop {i : ℕ} (n : ℕ) : ∀ {va pa : ℕ} {m : Mm},
    (∀ k < n, pdx (va + k * pgsize) = i) → va + n * pgsize < 2 ^ 32 →
    present (m.mem pgdir i) → frame (m.mem pgdir i) = t → t < m.npages → t ≠ pgdir →
    wp (bootMapLoop pgdir perm va pa n)
      (fun _ m' => (∀ p, p ≠ t → m'.mem p = m.mem p) ∧ m'.kernPgdir = m.kernPgdir)
      (fun _ _ => False) m := by
  induction n with
  | zero =>
    intro va pa m _ _ _ _ _ _
    exact ⟨fun _ _ => rfl, rfl⟩
  | succ n ih =>
    intro va pa m hpdx hlt hp ht htn hne
    have hva : pdx va = i := by simpa using hpdx 0 (Nat.succ_pos n)
    have hnext : (va + pgsize) % 2 ^ 32 = va + pgsize := by
      rw [Nat.succ_mul] at hlt
      exact Nat.mod_eq_of_lt (by omega)
    have hwalk : pgdirWalk pgdir va true m = .ret (some (t, ptx va)) m := by
      rw [← hva] at hp ht
      rw [pgdirWalk_present true hp (by rw [ht]; exact htn), ht]
    rw [bootMapLoop, wp_bind_of_ret hwalk]
    simp only
    rw [wp_bind, wp_modify, hnext]
    generalize pteAddr pa ||| perm ||| pteP = w
    have hdir : (m.setWord t (ptx va) w).mem pgdir = m.mem pgdir :=
      Mm.setWord_other m t _ w hne.symm
    have hrest : wp (bootMapLoop pgdir perm (va + pgsize) ((pa + pgsize) % 2 ^ 32) n)
        (fun _ m' => (∀ p, p ≠ t → m'.mem p = (m.setWord t (ptx va) w).mem p) ∧
          m'.kernPgdir = m.kernPgdir) (fun _ _ => False) (m.setWord t (ptx va) w) := by
      refine ih (fun k hk => ?_) ?_ (by rw [hdir]; exact hp) (by rw [hdir]; exact ht) htn hne
      · have := hpdx (k + 1) (Nat.succ_lt_succ hk)
        rwa [Nat.succ_mul, Nat.add_comm (k * pgsize), ← Nat.add_assoc] at this
      · rw [Nat.succ_mul] at hlt
        omega
    refine hrest.imp fun _ m' h' => ⟨fun p hp => ?_, h'.2⟩
    rw [h'.1 p hp, Mm.setWord_other m t _ w hp]

theorem MmioBase.region {base size : ℕ} (h : MmioBase base) (hsize : size < 2 ^ 32)
    (hok : ¬ ((base + size) % 2 ^ 32 > mmiolim ∨ (base + size) % 2 ^ 32 < base)) :
    base + roundup size pgsize / pgsize * pgsize ≤ mmiolim ∧
      (base + roundup size pgsize) % 2 ^ 32 = base + roundup size pgsize / pgsize * pgsize := by
  obtain ⟨hge, hle, hal⟩ := h
  have hlim : mmiolim = 959 * 2 ^ 22 := rfl
  have hbase : mmiobase = 958 * 2 ^ 22 := rfl
  have hpg : pgsize = 4096 := rfl
  rw [hlim] at hle hok ⊢
  rw [hbase] at hge
  rw [hpg] at hal
  rw [roundup, rounddown, hpg]
  omega

theorem wp_mmioMapRegion {base pa size : ℕ} (h : MmioBase base) (hsize : size < 2 ^ 32)
    (hp : present (m.mem m.kernPgdir (pdx mmiobase)))
    (ht : frame (m.mem m.kernPgdir (pdx mmiobase)) = t) (htn : t < m.npages)
    (hne : t ≠ m.kernPgdir) :
    wp (mmioMapRegion base pa size)
      (fun r m' => MmioBase r.2 ∧ (∀ p, p ≠ t → m'.mem p = m.mem p) ∧ m'.kernPgdir = m.kernPgdir)
      (fun st m' => st = .panic "mmio_map region .... memory is not enough\n" ∧ m' = m) m := by
  rw [mmioMapRegion, wp_ite]
  refine ⟨fun _ => ⟨rfl, rfl⟩, fun hok => ?_⟩
  obtain ⟨hlim, hnext⟩ := h.region hsize hok
  have hpages : ∀ k < roundup size pgsize / pgsize, pdx (base + k * pgsize) = pdx mmiobase := by
    intro k hk
    have hge := h.ge
    have hm : mmiobase = 958 * 2 ^ 22 := rfl
    have hl : mmiolim = 959 * 2 ^ 22 := rfl
    have hpg : pgsize = 4096 := rfl
    rw [hl] at hlim
    rw [hm] at hge
    generalize roundup size pgsize / pgsize = n at hk hlim
    rw [hpg] at hlim ⊢
    rw [pdx_eq, pdx_eq, hm]
    omega
  rw [wp_bind, wp_get, wp_bind, bootMapRegion]
  refine (wp_bootMapLoop _ hpages (Nat.lt_of_le_of_lt hlim (by decide)) hp ht htn hne).total fun _ m' h' => ?_
  rw [wp_pure]
  refine ⟨⟨?_, ?_, ?_⟩, h'⟩
  · rw [hnext]
    exact Nat.le_trans h.ge (Nat.le_add_right _ _)
  · rw [hnext]
    exact hlim
  · rw [hnext, Nat.add_mul_mod_self_right]
    exact h.aligned

end Mmio

theorem Kern.Agreed.mmio_region {B : MemCtx} {s : Kern} (h : s.Agreed) (hx : MemInv B True s)
    {base pa size : ℕ} (hb : MmioBase base) (hsize : size < 2 ^ 32) :
    wp (mmioMapRegion base pa size)
      (fun r m' => MmioBase r.2 ∧ Kern.Agreed { s with mm := m' })
      (fun st m' => st = .panic "mmio_map region .... memory is not enough\n" ∧ m' = s.mm) s.mm := by
  obtain ⟨hp, hne⟩ := h.mmio
  have hkern := hx.shared.kern_eq
  generalize ht : frame (s.mm.mem s.mm.kernPgdir (pdx mmiobase)) = t at hne
  have hpdx : userPdes ≤ pdx mmiobase := by decide
  have htn : t < s.mm.npages := by
    rw [← ht, hkern, hx.page.shape.npages]
    exact B.booted.upper_lt _ hpdx (pdx_lt _)
  have hout : t ∉ B.pool := by
    rw [← ht, hkern]
    exact B.booted.upper_free _ hpdx (pdx_lt _)
  refine (wp_mmioMapRegion hb hsize hp ht htn hne).imp fun r m' hm => ?_
  obtain ⟨hbase, hmem, hk⟩ := hm
  have hkmem : m'.mem m'.kernPgdir = s.mm.mem s.mm.kernPgdir := by
    rw [hk, hmem _ hne.symm]
  refine ⟨hbase, fun x hx' hne' => ?_, ?_, ?_⟩
  · obtain ⟨d, hd, hupper, hself⟩ := h.upper x hx' hne'
    have hdirs : s.dirs x = some d := (Kern.dirs_of_ne_free hne').trans hd
    have hpool : d ∈ B.pool := hx.page.shape.pool (.dir x) (mem_allRefs.mpr hx') d hdirs
    have hdm : m'.mem d = s.mm.mem d := hmem d (ne_of_mem_of_not_mem hpool hout)
    refine ⟨d, hd, fun i hi hlt hv => ?_, ?_⟩
    · show m'.mem d i = m'.mem m'.kernPgdir i
      rw [hdm, hkmem]
      exact hupper i hi hlt hv
    · show m'.mem d _ = _
      rw [hdm]
      exact hself
  · intro i hi
    show m'.mem m'.kernPgdir i = 0
    rw [hkmem]
    exact h.lower i hi
  · show present (m'.mem m'.kernPgdir _) ∧ frame (m'.mem m'.kernPgdir _) ≠ m'.kernPgdir
    rw [hkmem, hk, ht]
    exact ⟨hp, hne⟩

namespace Demo

/-- The first environment is created and runs. -/
def first : List (ℕ × Event) := [(0, .create image .user), (0, .start)]

theorem agreed {s : Kern} (hs : Sys.Reach Kern.step (Kern.PagingStep SyscallFlags) (machine 16) s)
    (hcur : (s.cpus 0).cpuEnv = some 0) :
    ∃ B, (s.entered 0 0 {}).Agreed ∧ Caller B True (s.entered 0 0 {}) 0 := by
  let B : MemCtx := isolationCtx (mm 16) _ (mm_booted 16 (by decide))
  have hmem : RunMem B s := memRun_reach (machine_booted 16 (by decide)) rfl
    (hs.mono fun _ _ h => Kern.PagingStep.memCond h)
  have hc := hmem.caller hcur {}
  exact ⟨B, hc.inv.shared.agreed (by decide +kernel), hc⟩

end Demo

/-- A packet of one byte has arrived. -/
def Demo.packet : Event := .device { rxq := fun _ => ⟨1, 3⟩, rxPkts := fun _ _ => 0xff } 0

/-- The kernel's page tables begin with page 400, which it maps at
`0xf0190000`; the length that `sys_rcv_packet` finds is zero. -/
def Demo.overwrites (s : Kern) : Bool :=
  match syscall 16 0xf0190000 0xeebfd000 0 0 0 (s.entered 0 0 {}) with
  | .ret r s' => decide (r = 0 ∧ present (s.mm.mem s.mm.kernPgdir userPdes) ∧
      s'.mm.mem (frame (s.mm.mem s.mm.kernPgdir userPdes)) 0 ≠
        s.mm.mem (frame (s.mm.mem s.mm.kernPgdir userPdes)) 0)
  | .stop _ _ => false

end Jos
