/-
Memory along every run.

`MemCond` is the condition on a step: that of the run state, and `Kern.MemCall`
with the flags that entries may have for the system call it makes.  Under it the invariants of both kinds hold in every
state that is reached.
-/
import Jos.Kern.MemCalls

namespace Jos

open Prog

variable {B : MemCtx} {e : ℕ} {s : Kern}

/-! ### The condition -/

/-- When a step keeps memory in order; `perm` are the flags entries may have. -/
structure MemCond (perm : ℕ → Prop) (s : Kern) (l : ℕ × Event) : Prop extends RunCond s l where
  memCall : ∀ tf ∈ l.2.frame, ∀ no ∈ tf.sysno,
    (s.enter l.1).MemCall perm no tf.arg1 tf.arg2 tf.arg3 tf.arg4 tf.arg5

/-- The calls that work on pages only. -/
def Sysno.paging : Sysno → Bool
  | .pageAlloc => true
  | .pageMap => true
  | .pageUnmap => true
  | _ => false

/-- For steps that make only such calls the condition can be evaluated. -/
def Kern.PagingStep (perm : ℕ → Prop) (s : Kern) (l : ℕ × Event) : Prop :=
  s.Contained l ∧ s.Ring3 l ∧
    ∀ tf ∈ l.2.frame, ∀ no ∈ tf.sysno, no.paging ∧
      (s.enter l.1).MemCall perm no tf.arg1 tf.arg2 tf.arg3 tf.arg4 tf.arg5

instance (perm : ℕ → Prop) [DecidablePred perm] (s : Kern) (l : ℕ × Event) :
    Decidable (s.PagingStep perm l) :=
  inferInstanceAs (Decidable (_ ∧ _ ∧ _))

theorem Kern.PagingStep.memCond {perm : ℕ → Prop} {l : ℕ × Event} (h : s.PagingStep perm l) :
    MemCond perm s l := by
  obtain ⟨hc, hring, hcall⟩ := h
  refine ⟨⟨hc, hring, fun tf htf no hno => ?_⟩, fun tf htf no hno => (hcall tf htf no hno).2⟩
  have hp := (hcall tf htf no hno).1
  cases no with
  | envSetStatus => cases hp
  | envDestroy => cases hp
  | ipcTrySend => cases hp
  | _ => trivial

/-! ### Creating an environment -/

section Create

variable {B : MemCtx} {dirs : ℕ → Option ℕ} {cr3 e d : ℕ}

theorem inv_vstore {m : Mm} {va b : ℕ} (h : PageInv B dirs [] [] m) (ha : UserVa dirs e d va) :
    wp (vstore d va b) (fun _ m' => PageInv B dirs [] [] m') (fun st _ => st.bad) m :=
  (acc_vstore (.refl h (.inl trivial)) ha (.inl trivial)).mono (fun _ _ h => h.page)
    fun _ _ h => h.2

theorem inv_regionLoop (he : e < nenv) (hd : dirs e = some d) :
    ∀ n i m, PageInv B dirs [] [] m → (∀ k < n, i + k * pgsize < utop) →
      wp (regionLoop cr3 d i n) (fun _ m' => PageInv B dirs [] [] m') (fun st _ => st.bad) m := by
  intro n
  induction n with
  | zero => exact fun i m h _ => h
  | succ n ih =>
    intro i m h hlt
    have hi : i < utop := by simpa using hlt 0 (Nat.succ_pos n)
    rw [regionLoop, wp_bind]
    cases hl : m.pageFreeList with
    | none =>
      rw [wp_of_ret (pageAlloc_none hl _)]
      rfl
    | some p =>
      rw [wp_of_ret (h.pageAlloc hl _)]
      obtain ⟨h₁, hf, -, -, htarget⟩ := h.alloc hl 0
      have hf₁ : Fresh B dirs (m.alloc 0 p) p := ⟨hf.pool, by rw [refs_congr htarget, hf.refs]⟩
      have ha : UserVa dirs e d i := .of_lt he hd hi
      have hframe : frame (mkPte p (pteP ||| pteU ||| pteW)) = p :=
        frame_mkPte_of_lt (MemCtx.lt_two_pow hf.pool) (by decide)
      simp only
      refine (wp_pageInsert h₁ ha hf₁.mappable hframe (B.perm_ok _ (by decide))
        (.inl (by rw [hf₁.refs]; decide))).bind_total fun r m₂ h₂ => ?_
      rw [wp_ite]
      refine ⟨fun _ => rfl, fun hr => ?_⟩
      rcases h₂ with ⟨rfl, -⟩ | ⟨-, h₂, -, ⟨t, ht, hw⟩, -⟩
      · exact absurd (by decide) hr
      · refine ih _ _ (h₂.release_mapped ha ht hw hframe) fun k hk => ?_
        have := hlt (k + 1) (by omega)
        rw [Nat.succ_mul] at this
        omega

theorem inv_regionAlloc (he : e < nenv) (hd : dirs e = some d) {va len : ℕ}
    (hle : va + len ≤ utop) {m : Mm} (h : PageInv B dirs [] [] m) :
    wp (regionAlloc cr3 d va len) (fun _ m' => PageInv B dirs [] [] m') (fun st _ => st.bad) m := by
  refine inv_regionLoop he hd _ _ _ h fun k hk => ?_
  have hu : utop = 955 * 2 ^ 22 := utop_eq
  simp only [roundup, rounddown, pgsize] at hk ⊢
  rw [Nat.mod_eq_of_lt (show va + len < 2 ^ 32 by omega),
    Nat.mod_eq_of_lt (show va + len + 4096 - 1 < 2 ^ 32 by omega)] at hk
  omega

theorem inv_loadSegments (he : e < nenv) (hd : dirs e = some d) :
    ∀ segs : List Segment, (∀ g ∈ segs, g.va + g.memsz ≤ utop ∧ g.filesz ≤ g.memsz) →
      ∀ m, PageInv B dirs [] [] m →
        wp (loadSegments d d segs) (fun _ m' => PageInv B dirs [] [] m') (fun st _ => st.bad) m := by
  intro segs
  induction segs with
  | nil => exact fun _ m h => h
  | cons g gs ih =>
    intro hfit m h
    obtain ⟨hva, hsz⟩ := hfit g List.mem_cons_self
    have hu : utop = 955 * 2 ^ 22 := utop_eq
    rw [loadSegments, wp_bind, loadSegment]
    refine (inv_regionAlloc he hd hva h).bind fun _ m₁ h₁ => ?_
    -- both parts of the segment lie below `UTOP`
    have hstore : ∀ (f : ℕ → ℕ) (base n : ℕ) (m : Mm), base + n ≤ utop → PageInv B dirs [] [] m →
        wp (forFrom (fun k => vstore d ((base + k) % 2 ^ 32) (f k)) 0 n)
          (fun _ m' => PageInv B dirs [] [] m') (fun st _ => st.bad) m := by
      intro f base n m hle h
      refine wp_forFrom (fun _ m' => PageInv B dirs [] [] m') h fun k m' _ hk h' => ?_
      refine inv_vstore h' (.of_lt he hd ?_)
      rw [Nat.mod_eq_of_lt (by omega)]
      omega
    refine (hstore g.bytes g.va g.filesz m₁ (by omega) h₁).bind fun _ m₂ h₂ => ?_
    refine (hstore (fun _ => 0) (g.va + g.filesz) _ m₂ ?_ h₂).imp fun _ m₃ h₃ => ?_
    · have : (g.memsz + 2 ^ 32 - g.filesz) % 2 ^ 32 = g.memsz - g.filesz := by omega
      omega
    · exact ih (fun g' hg' => hfit g' (List.mem_cons_of_mem _ hg')) m₃ h₃

theorem mem_create (h : MemInv B True s)
    (hlist : ∀ e, s.envFreeList = some e → e < nenv ∧ (s.envs e).envStatus = .free) {binary : Image}
    (hfit : binary.Fits) (type : EnvType) :
    wp (envCreate binary type) (fun _ s' => MemInv B True s') (MemEnd B True) s := by
  have hbad : ∀ {st : Stop} {s' : Kern}, st.bad → MemEnd B True st s' := .of_crash trivial
  rw [envCreate]
  refine (wp_memAlloc h hlist 0).bind_total fun r s₁ h₁ => ?_
  rcases h₁ with ⟨err, rfl, -, rfl⟩ | ⟨e, rfl, he, hst, -, h₁⟩
  · exact hbad rfl
  simp only
  -- the flags of a file server
  have hfs : wp (when (type = .fs) (modify (·.updEnv e fun x =>
      { x with envTf := { x.envTf with tfEflags := x.envTf.tfEflags ||| flIopl3 } })))
      (fun _ t => s₁.SameUse t) (MemEnd B True) s₁ := by
    rw [wp_when]
    exact ⟨fun _ => .updEnv s₁ ⟨Iff.rfl, rfl⟩, fun _ => .refl s₁⟩
  refine hfs.bind fun _ s₂ hs₂ => ?_
  have h₂ := h₁.same hs₂
  have hne : (s₂.envs e).envStatus ≠ .free := by
    rw [Ne, (hs₂.envs e).free, hst]
    decide
  obtain ⟨d, hd, hdirs⟩ := h₂.dir he hne
  rw [wp_bind, loadIcode, wp_ite]
  refine ⟨fun _ => hbad rfl, fun _ => ?_⟩
  rw [wp_bind_of_ret (envPgdirPtr_eq hd), wp_bind, lcr3, wp_modify, wp_bind, liftMm, wp_zoom]
  refine (inv_loadSegments he hdirs _ hfit _ h₂.page).mono (fun _ m₃ h₃ => ?_) fun _ _ h => hbad h
  rw [wp_bind, liftMm, wp_zoom]
  refine (inv_regionAlloc he hdirs (by decide) h₃).mono (fun _ m₄ h₄ => ?_) fun _ _ h => hbad h
  rw [wp_bind, wp_modify, wp_bind, wp_get, lcr3, wp_modify, wp_modify]
  have h₅ := h₂.setMm h₄ (.inl trivial)
  have hentry := Kern.SameUse.updEnv s₂ (e := e) (f := fun x =>
    { x with envTf := { x.envTf with tfEip := binary.entry } }) ⟨Iff.rfl, rfl⟩
  have htype := hentry.trans (.updEnv _ (e := e) (f := ({ · with envType := type })) ⟨Iff.rfl, rfl⟩)
  exact h₅.same ⟨htype.envs, .refl _⟩

end Create

/-! ### Entering the kernel -/

theorem Kern.SameUse.enter (s : Kern) (c : ℕ) : s.SameUse (s.enter c) :=
  ⟨fun _ => .refl _, rfl, rfl, rfl, rfl, rfl, fun h => absurd h List.not_mem_nil⟩

theorem Kern.SameUse.started (s : Kern) (c : ℕ) : s.SameUse (s.started c) :=
  (Kern.SameUse.enter s c).trans (.updCpu _ _ _)

theorem Kern.SameUse.entered (s : Kern) (c e : ℕ) (tf : Trapframe) : s.SameUse (s.entered c e tf) :=
  (Kern.SameUse.started s c).trans (.updEnv _ ⟨Iff.rfl, rfl⟩)

theorem Kern.entered_proj {α : Type} (s : Kern) (c e : ℕ) (tf : Trapframe) (g : Env → α)
    (hg : ∀ x, g { x with envTf := tf } = g x) (x : ℕ) :
    g ((s.entered c e tf).envs x) = g ((s.enter c).envs x) :=
  Kern.updEnv_proj (s.started c) e g hg x

theorem Kern.entered_pageAt (s : Kern) (c e : ℕ) (tf : Trapframe) (x va : ℕ) :
    (s.entered c e tf).pageAt x va = (s.enter c).pageAt x va := by
  unfold Kern.pageAt
  rw [Kern.entered_proj s c e tf Env.envPgdir fun _ => rfl]
  rfl

theorem Kern.HasTable.entered {c x va : ℕ} {tf : Trapframe} (h : (s.enter c).HasTable x va) :
    (s.entered c e tf).HasTable x va := by
  unfold Kern.HasTable at h ⊢
  rw [Kern.entered_proj s c e tf Env.envPgdir fun _ => rfl]
  exact h

theorem Kern.MemCall.entered {perm : ℕ → Prop} {c : ℕ} {tf : Trapframe} {no : Sysno} {a1 a2 a3 a4 a5 : ℕ}
    (h : (s.enter c).MemCall perm no a1 a2 a3 a4 a5) :
    (s.entered c e tf).MemCall perm no a1 a2 a3 a4 a5 := by
  have hcur : (s.entered c e tf).curenv = (s.enter c).curenv := Kern.entered_curenv s c e tf
  have href : ∀ pp x va, (s.enter c).RefOk pp x va → (s.entered c e tf).RefOk pp x va := by
    intro pp x va hok
    unfold Kern.RefOk at hok ⊢
    rw [Kern.entered_pageAt]
    exact hok
  cases no with
  | pageMap =>
    intro h2 h2' h4 h4' src hsrc dst hdst
    rw [Kern.entered_envOf] at hsrc hdst
    obtain ⟨ht, hpages⟩ := h h2 h2' h4 h4' src hsrc dst hdst
    refine ⟨ht.entered, fun pp hpp => ?_⟩
    rw [Kern.entered_pageAt] at hpp
    obtain ⟨hf, hp, hr⟩ := hpages pp hpp
    exact ⟨hf, hp, href _ _ _ hr⟩
  | pageUnmap =>
    intro h2 h2' x hx
    rw [Kern.entered_envOf] at hx
    exact (h h2 h2' x hx).entered
  | ipcTrySend =>
    intro cur hc
    rw [hcur] at hc
    obtain ⟨ht, hpages⟩ := h cur hc
    refine ⟨ht.entered, fun h3 dst hdst hrecv hva pp hpp => ?_⟩
    rw [Kern.entered_envOf] at hdst
    rw [Kern.entered_pageAt] at hpp
    rw [Kern.entered_proj s c e tf Env.envIpcRecving fun _ => rfl] at hrecv
    rw [Kern.entered_proj s c e tf Env.envIpcDstva fun _ => rfl] at hva ⊢
    exact href _ _ _ (hpages h3 dst hdst hrecv hva pp hpp)
  | _ => trivial

theorem Trapframe.arg1_lt (tf : Trapframe) : tf.arg1 < 2 ^ 32 := UInt32.toNat_lt _

theorem Trapframe.arg2_lt (tf : Trapframe) : tf.arg2 < 2 ^ 32 := UInt32.toNat_lt _

/-! ### Every entry keeps the invariants -/

/-- The run state and memory are in order. -/
def RunMem (B : MemCtx) (s : Kern) : Prop := RunInv s ∧ MemInv B True s

theorem RunMem.caller {c : ℕ} (h : RunMem B s) (hcur : (s.cpus c).cpuEnv = some e) (tf : Trapframe) :
    Caller B True (s.entered c e tf) e where
  inv := h.2.same (.entered s c e tf)
  run := (h.1.started c).updEnv _ fun _ => ⟨rfl, rfl, rfl, rfl⟩
  cur := by rw [Kern.entered_curenv, hcur]

theorem Traps.mono {ok ok' : Kern → ℕ × Event → Prop} {c cr2 : ℕ} {tf : Trapframe}
    (h : Traps ok s c e tf cr2) (hok : ∀ s l, ok s l → ok' s l) : Traps ok' s c e tf cr2 :=
  ⟨hok _ _ h.ok, h.frame, h.cur, h.alive, h.ring⟩

theorem RunCore.head_free (h : RunCore s) (e : ℕ) (he : s.envFreeList = some e) :
    e < nenv ∧ (s.envs e).envStatus = .free := by
  obtain ⟨l, hl, hfree⟩ := h.list
  rw [he] at hl
  obtain ⟨l', rfl, -⟩ := hl.pop
  exact hfree e List.mem_cons_self

theorem mem_syscall {crash : Prop} {tf : Trapframe} (h : Caller B crash s e) (hno : tf.tfTrapno = tSyscall)
    (hm : ∀ no, tf.sysno = some no → s.MemCall B.perm no tf.arg1 tf.arg2 tf.arg3 tf.arg4 tf.arg5)
    (hw : crash → ∀ no, tf.sysno = some no → s.WritesBelowUlim no tf.arg1 tf.arg2)
    (hc : crash ∨ ∀ no, tf.sysno = some no → s.CrashFree no tf.arg1 tf.arg2 tf.arg3 tf.arg4) :
    wp (syscall tf.tfRegs.regEax tf.tfRegs.regEdx tf.tfRegs.regEcx tf.tfRegs.regEbx
        tf.tfRegs.regEdi tf.tfRegs.regEsi) (MemPost B crash s) (MemEnd B crash) s := by
  rw [syscall]
  cases hd : Sysno.decode tf.tfRegs.regEax.toNat with
  | none => exact h.post _
  | some no =>
    have hno := Trapframe.sysno_eq hno hd
    exact mem_call h no tf.arg1_lt tf.arg2_lt (hm no hno) (fun hc => hw hc no hno) (hc.imp_right fun hc => hc no hno)

theorem memRun_entry (B : MemCtx) :
    EntryInv (MemCond B.perm) (RunMem B) (fun s => RunReady s ∧ MemInv B True s) (RunMem B)
      (fun st s => RunEnd st s ∧ MemEnd B True st s) := by
  have I := runState_ctl.entry runState_calls
  have hweak : ∀ s l, MemCond B.perm s l → RunCond s l := fun _ _ h => h.toRunCond
  have hbad : ∀ {st : Stop} {s : Kern}, st.bad → MemEnd B True st s := .of_crash trivial
  have hregs : ∀ {f : Env → Env}, OnlyRegs f → ∀ x : Env, x.MemEq (f x) := by
    intro f hf x
    obtain ⟨_, _, _, _, hx⟩ := hf x
    rw [hx]
    exact ⟨Iff.rfl, rfl⟩
  refine
    { left := fun hl h => ⟨h.1.2 hl, h.2.inv hl⟩
      bad := fun h hb => ⟨I.bad h.1 hb, hbad hb⟩
      ring := fun hP hok hcur => I.ring hP.1 hok.toRunCond hcur
      save := fun hP ht => ⟨I.save hP.1 (ht.mono hweak), hP.2.same (.entered _ _ _ _)⟩
      reap := ?reap
      enter := fun hP hcur => ⟨⟨(I.enter hP.1 hcur).1, hP.2.same (.enter _ _)⟩,
        ⟨(I.enter hP.1 hcur).2, hP.2.same (.started _ _)⟩⟩
      call := ?call
      ready := fun h => ⟨I.ready h.1, h.2⟩
      regs := fun h hcur hf => ⟨I.regs h.1 hcur hf, h.2.same (.updEnv _ (hregs hf _))⟩
      regsReady := fun h hcur hf =>
        ⟨I.regsReady h.1 hcur hf, h.2.same (.updEnv _ (hregs hf _))⟩
      popTf := fun h hcur hor => ⟨I.popTf h.1 hcur (hor.imp_left And.left),
        .of_inv (h.2.same (.popTf _ _)) (.inl rfl)⟩
      sched := fun h => ((I.sched h.1).and (wp_memSched h.2 (.inl trivial))).imp
        fun _ _ h => h.1
      destroy := ?destroy
      memAssert := ?memAssert
      storeUtf := ?storeUtf
      tick := ?tick
      create := ?create
      store := ?store
      device := ?device }
  case reap =>
    intro s c e tf cr2 hP hok hcur hd
    have hmem : wp (do envFree e; setCurenv none; schedYield) (fun _ _ => False) (MemEnd B True)
        (s.started c) := by
      have hne : ((s.started c).envs e).envStatus ≠ .free := by
        rw [Kern.started_envs, hd]
        decide
      refine (wp_memFree (hP.2.same (.started s c)) (hP.1.lt hcur) hne).bind_total fun _ s₁ h₁ => ?_
      rw [wp_bind, setCurenv, wp_modify]
      exact wp_memSched (h₁.same (.updCpu s₁ _ _)) (.inl trivial)
    exact ((I.reap hP.1 hok.toRunCond hcur hd).and hmem).imp fun _ _ h => h.2.elim
  case call =>
    intro s c e tf cr2 hP ht hno
    have hcall := mem_syscall (hP.caller ht.cur tf) hno
      (fun no hno => (ht.ok.memCall tf rfl no hno).entered)
      (fun _ => ht.ok.contained.writes tf rfl) (.inl trivial)
    exact ((I.call hP.1 (ht.mono hweak) hno).and hcall).imp
      fun _ _ h => ⟨⟨h.1.1, h.2.inv⟩, h.1.2⟩
  case destroy =>
    intro s e h hcur
    exact ((I.destroy h.1 hcur).and (wp_memDestroy h.2 (h.1.lt hcur) (h.1.self hcur).ne_free)).imp
      fun _ _ h => h.1
  case memAssert =>
    intro s e va len perm h hcur
    have hmem := wp_memAssert h.2 (h.1.lt hcur) (h.1.self hcur).ne_free (h.1.own hcur) hcur va len perm
    refine ((I.memAssert va len perm h.1 hcur).and hmem).imp fun _ s' h' => ?_
    obtain ⟨⟨hr, hc⟩, -, a, rfl⟩ := h'
    exact ⟨⟨hr, h.2.setMm (h.2.page.congr rfl rfl rfl rfl rfl) (.inl trivial)⟩, hc⟩
  case storeUtf =>
    intro s e esp tf va h hcur
    have hdir : s.dirs e = some s.thiscpu.cr3 :=
      (Kern.dirs_of_ne_free (h.1.self hcur).ne_free).trans (h.1.own hcur)
    have hmem : wp (liftMm (storeUtf s.thiscpu.cr3 (utfAddr esp) tf va))
        (fun _ s' => MemInv B True s') (MemEnd B True) s := by
      rw [liftMm, wp_zoom]
      exact (acc_storeUtf (.refl h.2.page (.inl trivial)) (h.1.lt hcur) hdir esp tf va).mono
        (fun _ _ h' => h.2.setMm h'.page h'.quiet) fun _ _ hE => hbad hE.2
    exact ((I.storeUtf esp tf va h.1 hcur).and hmem).imp fun _ _ h => ⟨⟨h.1.1, h.2⟩, h.1.2⟩
  case tick =>
    intro s h
    have hmem : wp timeTick (fun _ s' => MemInv B True s') (MemEnd B True) s := by
      rw [timeTick, wp_bind, wp_modify, wp_bind, wp_get, wp_when]
      exact ⟨fun _ => hbad rfl, fun _ => h.2.same ⟨fun _ => .refl _, .refl _⟩⟩
    exact ((I.tick h.1).and hmem).imp fun _ _ h => h
  case create =>
    intro s c binary type hP hok hst hcur
    have hmem := mem_create (hP.2.same (.enter s c)) hP.1.toRunCore.head_free
      (hok.contained.image binary rfl) type
    exact ((I.create hP.1 hok.toRunCond hst hcur).and hmem).imp fun _ _ h => h
  case store =>
    intro s c va b hP hok hcur
    obtain ⟨e, he⟩ := Option.ne_none_iff_exists'.mp hcur
    have hdir : s.dirs e = some (s.cpus c).cr3 :=
      (Kern.dirs_of_ne_free (hP.1.active he).ne_free).trans (hP.1.pgdir he)
    have hmem : wp (userStore va b) (fun _ s' => MemInv B True s') (MemEnd B True) (s.enter c) := by
      have h₁ := hP.2.same (.enter s c)
      rw [userStore, wp_bind, rcr3, wp_gets, wp_bind, wp_get, wp_when]
      refine ⟨fun hw => ?_, fun _ => h₁⟩
      rw [liftMm, wp_zoom, wp_modify]
      have ha : UserVa s.dirs e (s.cpus c).cr3 va :=
        ⟨hP.1.lt he, hdir, h₁.page.shape.user_of_uWrites (hP.1.lt he) hdir hw⟩
      exact h₁.setMm (h₁.page.setByte ha hw.1.1 b).1 (.inl trivial)
    exact ((I.store hP.1 hok.toRunCond hcur).and hmem).imp fun _ _ h => h

  case device =>
    intro s c nic g hP
    have hs := Kern.SameUse.enter s c
    exact ⟨I.device hP.1, hP.2.same ⟨hs.envs, hs.mm⟩⟩

/-! ### Runs -/

theorem MemInv.of_booted (h : Booted s B.free) (hmm : s.mm = B.boot) : MemInv B True s := by
  have hdirs : ∀ e < nenv, s.dirs e = none := fun e he => if_pos (h.env_free e he)
  have hnone : ∀ r ∈ allRefs, target s.dirs s.mm.mem r = none := by
    intro r hr
    have hr := mem_allRefs.mp hr
    cases r with
    | dir e => exact hdirs e hr
    | tab e i => simp [target, hdirs e hr.1]
    | page e i j => simp [target, hdirs e hr.1]
  have h0 : ∀ p, refs allRefs (target s.dirs s.mm.mem) p = 0 := by
    intro p
    rw [refs_eq_zero]
    intro r hr
    rw [hnone r hr]
    exact fun h => by cases h
  refine ⟨⟨⟨by rw [hmm], by rw [hmm], fun r hr p hp => ?_, fun r hr r' hr' p _ hp => ?_,
    fun e he d hd => ?_, fun e he d hd => ?_, fun e i t hr ht => ?_, fun p _ => by rw [hmm]⟩,
    B.free, ?_⟩, fun e he hne => absurd (h.env_free e he) hne, .inl trivial⟩
  · rw [hnone r hr] at hp
    cases hp
  · rw [hnone r hr] at hp
    cases hp
  · rw [hdirs e he] at hd
    cases hd
  · rw [hdirs e he] at hd
    cases hd
  · rw [hnone _ hr] at ht
    cases ht
  · refine ⟨h.mm.linked, fun p => ?_, fun p hp hf => absurd hp hf, fun p hp => ?_, fun p _ => ?_⟩
    · rw [h0 p]
      simp [MemCtx.pool]
    · rw [h0 p]
      exact h.mm.free_ref p hp
    · rw [h0 p]
      decide

theorem memRun_reach {s₀ : Kern} (hb : Booted s₀ B.free) (hmm : s₀.mm = B.boot)
    (hr : Sys.Reach Kern.step (MemCond B.perm) s₀ s) : RunMem B s :=
  (memRun_entry B).reach ⟨RunInv.of_booted hb, MemInv.of_booted hb hmm⟩ hr

end Jos
