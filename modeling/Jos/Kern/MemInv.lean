/-
Memory of the environments, across the functions of `kern/env.c`.

The directories in use are those of the slots that are not free
(`Kern.dirs`).  `MemInv` is `PageInv` for them; the parameter `crash` tells
whether reads through a null page table entry pointer, and with them faults in
the kernel, are tolerated.

* `wp_memSched`, `wp_memFree`, `wp_memDestroy`, `wp_memAlloc`,
  `wp_memAssert` — the functions of `kern/env.c` keep it.
-/
import Jos.Kern.Release
import Jos.Kern.RunState
import Jos.Kern.UserPointers

namespace Jos

open Prog

variable {d : ℕ} {m : Mm} {s : Kern}

/-! ### The invariant -/

def Kern.dirs (s : Kern) (e : ℕ) : Option ℕ :=
  if (s.envs e).envStatus = .free then none else (s.envs e).envPgdir

theorem Kern.dirs_of_ne_free {e : ℕ} (h : (s.envs e).envStatus ≠ .free) : s.dirs e = (s.envs e).envPgdir :=
  if_neg h

theorem Kern.dirs_freed (s : Kern) (e : ℕ) (m : Mm) :
    Kern.dirs { s.freed e with mm := m } = Function.update s.dirs e none := by
  funext x
  by_cases hx : x = e
  · simp [Kern.dirs, Kern.freed_envs, hx]
  · simp [Kern.dirs, Kern.freed_envs, hx]

structure MemInv (B : MemCtx) (crash : Prop) (s : Kern) : Prop where
  page : PageInv B s.dirs [] [] s.mm
  live : ∀ e < nenv, (s.envs e).envStatus ≠ .free → (s.envs e).envPgdir ≠ none
  quiet : crash ∨ .nullPte ∉ s.mm.trace

/-- How an entry may end.  Without `crash` it is by leaving the kernel, or in
the monitor. -/
structure MemEnd (B : MemCtx) (crash : Prop) (st : Stop) (s : Kern) : Prop where
  inv : st.leaves → MemInv B crash s
  way : crash ∨ st.leaves ∨ st = .monitor
  quiet : crash ∨ .nullPte ∉ s.mm.trace

/-- The pages, their contents and the free list are equal. -/
structure Mm.SamePages (m m' : Mm) : Prop where
  mem : m'.mem = m.mem
  npages : m'.npages = m.npages
  kern : m'.kernPgdir = m.kernPgdir
  pages : m'.pages = m.pages
  freeList : m'.pageFreeList = m.pageFreeList
  quiet : .nullPte ∈ m'.trace → .nullPte ∈ m.trace

/-- The fields of an environment that memory depends on are equal. -/
structure Env.MemEq (x y : Env) : Prop where
  free : y.envStatus = .free ↔ x.envStatus = .free
  pgdir : y.envPgdir = x.envPgdir

/-- Nothing that memory depends on differs. -/
structure Kern.SameUse (s s' : Kern) : Prop where
  envs : ∀ e, (s.envs e).MemEq (s'.envs e)
  mm : s.mm.SamePages s'.mm

theorem Mm.SamePages.refl (m : Mm) : m.SamePages m := ⟨rfl, rfl, rfl, rfl, rfl, id⟩

theorem Mm.SamePages.trans {a b c : Mm} (h : a.SamePages b) (h' : b.SamePages c) :
    a.SamePages c :=
  ⟨h'.mem.trans h.mem, h'.npages.trans h.npages, h'.kern.trans h.kern, h'.pages.trans h.pages,
    h'.freeList.trans h.freeList, fun hn => h.quiet (h'.quiet hn)⟩

theorem Mm.SamePages.log (m : Mm) {o : Obs} (ho : o ≠ .nullPte) : m.SamePages (m.log o) :=
  ⟨rfl, rfl, rfl, rfl, rfl, fun hn => (List.mem_cons.mp hn).resolve_left fun h => ho h.symm⟩

theorem Env.MemEq.refl (x : Env) : x.MemEq x := ⟨Iff.rfl, rfl⟩

theorem Kern.SameUse.refl (s : Kern) : s.SameUse s := ⟨fun _ => .refl _, .refl _⟩

theorem Kern.SameUse.trans {a b c : Kern} (h : a.SameUse b) (h' : b.SameUse c) : a.SameUse c :=
  ⟨fun e => ⟨(h'.envs e).free.trans (h.envs e).free, (h'.envs e).pgdir.trans (h.envs e).pgdir⟩,
    h.mm.trans h'.mm⟩

theorem Kern.SameUse.updEnv (s : Kern) {e : ℕ} {f : Env → Env} (hf : (s.envs e).MemEq (f (s.envs e))) :
    s.SameUse (s.updEnv e f) := by
  refine ⟨fun x => ?_, .refl _⟩
  rw [Kern.updEnv_envs]
  split
  · next h =>
    subst h
    exact hf
  · exact .refl _

theorem Kern.SameUse.updCpu (s : Kern) (c : ℕ) (f : CpuInfo → CpuInfo) : s.SameUse (s.updCpu c f) :=
  ⟨fun _ => .refl _, .refl _⟩

theorem Kern.SameUse.log (s : Kern) {o : Obs} (ho : o ≠ .nullPte) : s.SameUse (s.log o) :=
  ⟨fun _ => .refl _, .log _ ho⟩

theorem Kern.SameUse.of_mm (h : s.mm.SamePages m) : s.SameUse { s with mm := m } :=
  ⟨fun _ => .refl _, h⟩

theorem Kern.SameUse.dirs {s' : Kern} (h : s.SameUse s') : s'.dirs = s.dirs := by
  funext e
  unfold Kern.dirs
  rw [(h.envs e).pgdir]
  simp only [(h.envs e).free]

section Inv

variable {B : MemCtx} {crash : Prop} {s s' : Kern} {e : ℕ}

theorem MemInv.same (h : MemInv B crash s) (hs : s.SameUse s') : MemInv B crash s' where
  page := by
    rw [hs.dirs]
    exact h.page.congr hs.mm.mem hs.mm.npages hs.mm.kern hs.mm.pages hs.mm.freeList
  live x hx hne := by
    rw [(hs.envs x).pgdir]
    exact h.live x hx fun hf => hne ((hs.envs x).free.mpr hf)
  quiet := h.quiet.imp_right fun hq hn => hq (hs.mm.quiet hn)

theorem MemInv.setMm (h : MemInv B crash s) (hp : PageInv B s.dirs [] [] m)
    (hq : crash ∨ .nullPte ∉ m.trace) : MemInv B crash { s with mm := m } :=
  ⟨hp, h.live, hq⟩

theorem MemInv.sameMm (h : MemInv B crash s) (hs : s.SameUse s') (hp : PageInv B s.dirs [] [] m)
    (hq : crash ∨ .nullPte ∉ m.trace) : MemInv B crash { s' with mm := m } :=
  (h.same hs).setMm (by rw [hs.dirs]; exact hp) hq

theorem MemEnd.of_inv (h : MemInv B crash s) {st : Stop} (hst : st.leaves ∨ st = .monitor) :
    MemEnd B crash st s :=
  ⟨fun _ => h, .inr hst, h.quiet⟩

theorem MemEnd.of_crash {st : Stop} (hc : crash) (hb : st.bad) : MemEnd B crash st s :=
  ⟨fun hl => Bool.noConfusion (hb.symm.trans hl), .inl hc, .inl hc⟩

theorem MemInv.dir (h : MemInv B crash s) (he : e < nenv) (hne : (s.envs e).envStatus ≠ .free) :
    ∃ d, (s.envs e).envPgdir = some d ∧ s.dirs e = some d := by
  obtain ⟨d, hd⟩ := Option.ne_none_iff_exists'.mp (h.live e he hne)
  exact ⟨d, hd, (Kern.dirs_of_ne_free hne).trans hd⟩

/-! ### Checking user memory -/

theorem wp_memScan (hlt : ∀ i < 1024, frame (m.mem d i) < m.npages) (va vaR perm : ℕ) :
    ∀ n i, wp (userMemScan d va vaR perm i n)
      (fun _ m' => m.SameButAddr m') (fun _ _ => False) m := by
  intro n
  induction n with
  | zero => exact fun i => ⟨m.userMemCheckAddr, rfl⟩
  | succ n ih =>
    intro i
    rw [userMemScan, wp_bind_of_ret (pgdirWalk_false (hlt _ (pdx_lt i))), wp_bind, wp_get]
    simp only
    rw [wp_ite]
    exact ⟨fun _ => ⟨_, rfl⟩, fun _ => ih _⟩

theorem wp_memCheck (h : MemInv B crash s) (he : e < nenv) (hd : s.dirs e = some d) (va len perm : ℕ) :
    wp (liftMm (userMemCheck d va len perm))
      (fun r s' => (r = -eFault ∨ (r = 0 ∧ s.mm.Accepts d va len perm)) ∧
        ∃ a, s' = { s with mm := { s.mm with userMemCheckAddr := a } })
      (fun _ _ => False) s := by
  rw [liftMm, wp_zoom]
  have hboth := (wp_userMemCheck d va len perm s.mm).and
    (wp_memScan (fun i hi => h.page.shape.frame_lt he hd hi) va (rounddown va pgsize) perm _ _)
  refine hboth.mono (fun r m' hm => ?_) fun _ _ hf => hf.2
  obtain ⟨hr, a, rfl⟩ := hm
  exact ⟨hr.2, a, rfl⟩

/-! ### The scheduler -/

theorem Kern.SameUse.popTf (s : Kern) (e : ℕ) : s.SameUse (s.popTf e) :=
  (Kern.SameUse.updEnv s (f := ({ · with envCpunum := s.cpunum })) ⟨Iff.rfl, rfl⟩).trans
    (Kern.SameUse.updCpu _ _ _)

theorem Kern.SameUse.runEnv {e : ℕ} (hst : (s.envs e).envStatus = .runnable) :
    s.SameUse (s.runEnv e d) := by
  refine ⟨fun x => ?_, by rw [Kern.runEnv_mm]; exact .refl _⟩
  rw [Kern.runEnv_envs]
  refine ⟨?_, rfl⟩
  show (if x = e then _ else _) = EnvStatus.free ↔ _
  split
  · next hx => simp [hx, hst]
  · split
    · next hx => simp [hx.2]
    · exact Iff.rfl

theorem Kern.schedScan_lt {j n k : ℕ} (hj : j < nenv ∨ s.statusWord j ≠ EnvStatus.runnable.code)
    (h : s.schedScan j n = some k) : k < nenv := by
  induction n generalizing j with
  | zero => simp [Kern.schedScan] at h
  | succ n ih =>
    unfold Kern.schedScan at h
    split at h
    · next hrun =>
      cases h
      exact hj.resolve_right (not_not.mpr hrun)
    · exact ih (.inl (envx_lt (j + 1))) h

/-- The search stays in the table. -/
def Kern.SchedOk (s : Kern) : Prop :=
  s.schedStart < nenv ∨ s.statusWord s.schedStart ≠ EnvStatus.runnable.code

theorem wp_memSched (h : MemInv B crash s) (hok : crash ∨ s.SchedOk) :
    wp schedYield (fun _ _ => False) (MemEnd B crash) s := by
  have hwp : wp schedYield (fun _ _ => False)
      (fun st s' => MemEnd B crash st s' ∨ st = .wild ∧ ¬ s.SchedOk) s := by
    rw [schedYield, wp_bind, wp_get]
    have hrunning : ∀ c, s.curenv = some c → wp (envRun c) (fun _ _ => False)
        (fun st s' => MemEnd B crash st s' ∨ st = .wild ∧ ¬ s.SchedOk) s := by
      intro c hc
      rw [wp_of_stop (envRun_same hc)]
      exact .inl (.of_inv (h.same (.popTf s c)) (.inl rfl))
    have hhalt : wp schedHalt (fun _ _ => False)
        (fun st s' => MemEnd B crash st s' ∨ st = .wild ∧ ¬ s.SchedOk) s :=
      wp_schedHalt (.inl (.of_inv (h.same (.updCpu s _ _)) (.inl rfl)))
        (.inl (.of_inv h (.inr rfl)))
    cases hj : s.schedScan s.schedStart nenv with
    | none =>
      cases hc : s.curenv with
      | none => exact hhalt
      | some c =>
        simp only
        rw [wp_ite]
        exact ⟨fun _ => hrunning c hc, fun _ => hhalt⟩
    | some j =>
      simp only
      rw [wp_ite]
      refine ⟨fun hlt => ?_, fun hlt => .inr ⟨rfl, fun hok => hlt (Kern.schedScan_lt hok hj)⟩⟩
      have hst := Kern.schedScan_runnable hj hlt
      by_cases hcur : s.curenv = some j
      · exact hrunning j hcur
      · obtain ⟨d, hd, -⟩ := h.dir hlt (by rw [hst]; decide)
        rw [wp_of_stop (envRun_switch hcur hd)]
        exact .inl (.of_inv (h.same (.runEnv hst)) (.inl rfl))
  refine hwp.mono (fun _ _ hf => hf) fun st s' hE => ?_
  rcases hE with hE | ⟨rfl, hbad⟩
  · exact hE
  · exact .of_crash (hok.resolve_right hbad) rfl

theorem Kern.schedOk_of_none (h : s.curenv = none) : s.SchedOk := by
  left
  rw [Kern.schedStart, h]
  exact Nat.two_pow_pos 10

/-! ### Freeing an environment -/

theorem wp_memFree (h : MemInv B crash s) (he : e < nenv) (hne : (s.envs e).envStatus ≠ .free) :
    wp (envFree e) (fun _ s' => MemInv B crash s') (fun _ _ => False) s := by
  obtain ⟨d, hd, hdirs⟩ := h.dir he hne
  obtain ⟨free, hex⟩ := h.page.counts
  refine (wp_envFree_emptied he hd hdirs (h.page.shape.owned e) hex).imp fun _ s' hs' => ?_
  obtain ⟨m', rfl, ⟨l, hex'⟩, hm, hempty⟩ := hs'
  have hshape : Shape B s.dirs (s.mm.log (.envFree e)) := h.page.shape.congr rfl rfl rfl
  refine ⟨?_, fun x hx hxne => ?_, ?_⟩
  · rw [Kern.dirs_freed]
    exact .emptied hshape hm hempty hex'
  · rw [Kern.freed_envs] at hxne ⊢
    split at hxne
    · exact absurd rfl hxne
    · next hxe =>
      rw [if_neg hxe]
      exact h.live x hx hxne
  · rw [hm.trace]
    exact h.quiet.imp_right fun hq hn => hq ((Mm.SamePages.log s.mm (by simp)).quiet hn)

theorem wp_memDestroy (h : MemInv B crash s) (he : e < nenv)
    (hne : (s.envs e).envStatus ≠ .free) :
    wp (envDestroy e) (fun _ s' => MemInv B crash s') (MemEnd B crash) s := by
  rw [envDestroy, wp_bind, wp_get, wp_ite]
  refine ⟨fun hrun => ?_, fun _ => ?_⟩
  · exact h.same (.updEnv s ⟨by simp [hrun.1], rfl⟩)
  refine (wp_memFree h he hne).bind_total fun _ s₁ h₁ => ?_
  rw [wp_bind, wp_get, wp_ite]
  refine ⟨fun hcur => ?_, fun _ => h₁⟩
  rw [wp_bind, setCurenv, wp_modify]
  have hnone : (s₁.updCpu s₁.cpunum ({ · with cpuEnv := none })).curenv = none := by
    rw [Kern.curenv, Kern.thiscpu, Kern.updCpu_cpunum, Kern.updCpu_cpus, if_pos rfl]
  exact (wp_memSched (h₁.same (.updCpu s₁ _ _)) (.inr (Kern.schedOk_of_none hnone))).imp
    fun _ _ hf => hf.elim

theorem wp_memAssert (h : MemInv B crash s) (he : e < nenv) (hne : (s.envs e).envStatus ≠ .free)
    (hd : (s.envs e).envPgdir = some d) (hcur : s.curenv = some e) (va len perm : ℕ) :
    wp (userMemAssert e va len perm)
      (fun _ s' => s.mm.Accepts d va len (perm ||| pteU) ∧
        ∃ a, s' = { s with mm := { s.mm with userMemCheckAddr := a } })
      (MemEnd B crash) s := by
  have hdirs : s.dirs e = some d := (Kern.dirs_of_ne_free hne).trans hd
  rw [userMemAssert, wp_bind_of_ret (envPgdirPtr_eq hd)]
  refine (wp_memCheck h he hdirs _ _ _).bind_total fun r s₁ h₁ => ?_
  obtain ⟨hr, a, rfl⟩ := h₁
  rw [wp_when]
  refine ⟨fun _ => ?_, fun hnot => ⟨?_, a, rfl⟩⟩
  · have hinv := h.same (.of_mm (m := { s.mm with userMemCheckAddr := a })
      ⟨rfl, rfl, rfl, rfl, rfl, id⟩)
    -- the current environment: destroying it does not return
    have hboth := (wp_memDestroy hinv he hne).and
      (envDestroy_no_ret (s := { s with mm := { s.mm with userMemCheckAddr := a } }) hcur)
    exact hboth.mono (fun _ _ hf => hf.2.elim) fun _ _ h => h.1
  · rcases hr with rfl | hr
    · exact absurd (by decide) hnot
    · exact hr.2

/-! ### Allocating an environment -/

theorem PageInv.initPgdir {dirs : ℕ → Option ℕ} (h : PageInv B dirs [d] [] m) (hf : Fresh B dirs m d) :
    PageInv B dirs [] [d] (m.initPgdir d) ∧ NewDir B dirs (m.initPgdir d) d := by
  obtain ⟨h₁, htarget₁⟩ := h.setMem (m.setPage d (m.mem m.kernPgdir)) hf.pool hf.noTable
    (fun q hq => Function.update_of_ne hq _ _) rfl rfl rfl rfl
  have h₂ := (h₁.incRef (p := d) (.inl List.mem_cons_self)).release (by simp)
  have hnt : NoTable dirs ((m.setPage d (m.mem m.kernPgdir)).incRef d) d := by
    intro r hr hrt
    rw [Mm.incRef_mem, htarget₁ r hr]
    exact hf.noTable r hr hrt
  obtain ⟨h₃, htarget₃⟩ := h₂.setMem (m.initPgdir d) hf.pool hnt
    (fun q hq => Mm.setWord_other _ _ _ _ hq) rfl rfl rfl rfl
  -- what was copied is the kernel's directory as it was at start-up
  have hkern : ∀ i, (m.initPgdir d).mem d i =
      if i = pdx uvpt then mkPte d pteU else B.boot.mem B.boot.kernPgdir i := by
    intro i
    have hboot : m.mem m.kernPgdir = B.boot.mem B.boot.kernPgdir := by
      rw [h.shape.kern, h.shape.outside _ B.booted.kern_free]
    by_cases hi : i = pdx uvpt
    · rw [if_pos hi, hi]
      exact Mm.setWord_self ..
    · rw [if_neg hi, ← hboot]
      refine (Mm.setWord_rest _ _ _ _ hi).trans ?_
      simp [Mm.incRef, Mm.updPage, Mm.setPage]
  refine ⟨h₃, hf.pool, fun r hr => ?_, fun i hi => ?_, fun i _ _ => hkern i⟩
  · rw [htarget₃ r hr, Mm.incRef_mem, htarget₁ r hr]
    exact refs_eq_zero.mp hf.refs r hr
  · have huv : userPdes < pdx uvpt := by decide
    rw [hkern i, if_neg (by omega)]
    exact B.booted.lower i hi

theorem wp_memAlloc (h : MemInv B crash s)
    (hlist : ∀ e, s.envFreeList = some e → e < nenv ∧ (s.envs e).envStatus = .free)
    (parentId : ℕ) :
    wp (envAlloc parentId) (fun r s' => (∃ err, r = .error err ∧ err < 0 ∧ s' = s) ∨
      ∃ e, r = .ok e ∧ e < nenv ∧ (s'.envs e).envStatus = .runnable ∧
        (s'.envs e).envId = nextEnvId (s.envs e).envId e ∧ MemInv B crash s')
      (fun _ _ => False) s := by
  rw [envAlloc, wp_bind, wp_get]
  cases hl : s.envFreeList with
  | none => exact .inl ⟨_, rfl, by decide, rfl⟩
  | some e =>
    obtain ⟨he, hfree⟩ := hlist e hl
    simp only [envSetupVm]
    rw [wp_bind, wp_bind, liftMm, wp_zoom]
    cases hp : s.mm.pageFreeList with
    | none =>
      rw [wp_of_ret (pageAlloc_none hp _)]
      simp only
      rw [wp_pure, if_pos (by decide)]
      exact .inl ⟨_, rfl, by decide, rfl⟩
    | some p =>
      rw [wp_of_ret (h.page.pageAlloc hp _)]
      obtain ⟨h₁, hf, -, -, htarget⟩ := h.page.alloc hp allocZero
      have hf₁ : Fresh B s.dirs (s.mm.alloc allocZero p) p :=
        ⟨hf.pool, by rw [refs_congr htarget, hf.refs]⟩
      have htrace := s.mm.alloc_trace allocZero p
      generalize s.mm.alloc allocZero p = m₁ at h₁ hf₁ htrace
      simp only
      rw [wp_bind, liftMm, wp_zoom, wp_of_ret (page2kva_eq (h₁.shape.lt_npages hf.pool)), wp_bind,
        wp_modify, wp_bind, liftMm, wp_zoom, wp_modify, wp_pure, if_neg (by decide), wp_bind,
        wp_modify, wp_bind, wp_modify, wp_pure]
      obtain ⟨h₂, hnew⟩ := h₁.initPgdir hf₁
      have hnone : s.dirs e = none := if_pos hfree
      have h₃ := h₂.addDir he hnone hnew
      refine .inr ⟨e, rfl, he, by simp [Env.init], by simp [Env.init], ?_, fun x hx hxne => ?_, ?_⟩
      · refine (congrArg (fun D => PageInv B D [] [] (m₁.initPgdir p)) (funext fun x => ?_)).mpr h₃
        by_cases hxe : x = e
        · subst hxe
          simp [Kern.dirs, Env.init]
        · simp [Kern.dirs, Kern.updEnv_envs, hxe]
      · by_cases hxe : x = e
        · subst hxe
          simp [Env.init]
        · simp only [Kern.updEnv_envs, hxe, if_false] at hxne ⊢
          exact h.live x hx hxne
      · show crash ∨ Obs.nullPte ∉ m₁.trace
        rw [htrace]
        exact h.quiet

end Inv

end Jos
