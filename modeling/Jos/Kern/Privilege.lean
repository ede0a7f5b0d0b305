/-
The privilege of user code.

Saved registers should name a code segment of ring 3, have interrupts enabled,
and carry an I/O privilege level only if they are the file server's.  All
writers of `env_tf` keep this as long as

* `sys_env_set_trapframe` is given a frame that has these properties already,
  the interrupt flag apart: the kernel sets the ring in the caller's copy;
* an environment with an I/O privilege level does not fork, since the child
  gets a copy of its flags, and does not mask interrupts;
* no slot is handed out again while a processor still runs its former owner
  with such a level; and
* memory and the run state stay in order, so that user code cannot get at the
  memory of `envs`.

`privilege` is the invariant, and `set_trapframe_breaks_privilege` a run that
ends with an environment about to enter ring 0.
-/
import Jos.Kern.RunState
import Jos.Kern.UserMem

namespace Jos

open Prog Kern Demo

variable {e : ℕ} {s s' : Kern}

/-! ### The invariant -/

/-- What user code of an environment of this type may run with. -/
structure Unprivileged (cs : UInt16) (eflags : UInt32) (type : EnvType) : Prop where
  ring : cs &&& 3 = 3
  intr : eflags &&& flIf ≠ 0
  iopl : type ≠ .fs → eflags &&& flIoplMask = 0

/-- The saved registers of an environment are those of user code. -/
def Env.Unprivileged (x : Env) : Prop :=
  Jos.Unprivileged x.envTf.tfCs x.envTf.tfEflags x.envType

/-- The registers of a processor that runs environment `e`. -/
def Kern.CpuUnprivileged (s : Kern) (c e : ℕ) : Prop :=
  Jos.Unprivileged (s.cpus c).cs (s.cpus c).eflags (s.envs e).envType

/-- What holds while the lock is free. -/
structure PrivInv (s : Kern) : Prop where
  envs : ∀ {e}, e < nenv → (s.envs e).envStatus ≠ .free → (s.envs e).Unprivileged
  cpus : ∀ {c e}, (s.cpus c).cpuEnv = some e → e < nenv ∧ s.CpuUnprivileged c e

/-- In the kernel the registers of the current environment have been saved,
whatever its status. -/
structure PrivIn (s : Kern) : Prop extends PrivInv s where
  self : ∀ {e}, s.curenv = some e → (s.envs e).Unprivileged

def PrivEnd (st : Stop) (s : Kern) : Prop := st.leaves → PrivInv s

theorem PrivEnd.of_bad {st : Stop} (hb : st.bad) : PrivEnd st s := by
  intro hl
  rw [Stop.bad, hl] at hb
  cases hb

theorem PrivIn.of_use (h : PrivIn s) (he : s.curenv = some e ∨ (e < nenv ∧ (s.envs e).envStatus ≠ .free)) :
    (s.envs e).Unprivileged := by
  rcases he with he | ⟨hlt, hne⟩
  · exact h.self he
  · exact h.envs hlt hne

theorem PrivIn.congr (h : PrivIn s)
    (henv : ∀ e, (s'.envs e).envStatus = (s.envs e).envStatus ∧ (s'.envs e).envType = (s.envs e).envType ∧ (s'.envs e).envTf.tfCs = (s.envs e).envTf.tfCs ∧ (s'.envs e).envTf.tfEflags = (s.envs e).envTf.tfEflags)
    (hcpu : ∀ c, (s'.cpus c).cpuEnv = (s.cpus c).cpuEnv ∧ (s'.cpus c).cs = (s.cpus c).cs ∧ (s'.cpus c).eflags = (s.cpus c).eflags)
    (hnum : s'.cpunum = s.cpunum) : PrivIn s' where
  envs {e} hlt hne := by
    obtain ⟨hst, hty, hcs, hfl⟩ := henv e
    rw [Env.Unprivileged, hcs, hfl, hty]
    exact h.envs hlt (hst ▸ hne)
  cpus {c e} hc := by
    obtain ⟨hce, hcs, hfl⟩ := hcpu c
    rw [Kern.CpuUnprivileged, hcs, hfl, (henv e).2.1]
    exact h.cpus (hce ▸ hc)
  self {e} he := by
    obtain ⟨-, hty, hcs, hfl⟩ := henv e
    rw [Env.Unprivileged, hcs, hfl, hty]
    refine h.self ?_
    rw [Kern.curenv, Kern.thiscpu, hnum, (hcpu _).1] at he
    exact he

theorem PrivIn.updEnv (h : PrivIn s) {f : Env → Env} (hty : (f (s.envs e)).envType = (s.envs e).envType)
    (hf : (e < nenv ∧ (f (s.envs e)).envStatus ≠ .free) ∨ s.curenv = some e → (f (s.envs e)).Unprivileged) :
    PrivIn (s.updEnv e f) where
  envs {x} hlt hne := by
    rw [updEnv_envs] at hne ⊢
    by_cases hx : x = e
    · subst hx
      rw [if_pos rfl] at hne ⊢
      exact hf (.inl ⟨hlt, hne⟩)
    · rw [if_neg hx] at hne ⊢
      exact h.envs hlt hne
  cpus {c x} hc := by
    have hx : ((s.updEnv e f).envs x).envType = (s.envs x).envType := by
      rw [updEnv_envs]
      by_cases hx : x = e
      · rw [if_pos hx, hx, hty]
      · rw [if_neg hx]
    rw [Kern.CpuUnprivileged, hx]
    exact h.cpus hc
  self {x} hx := by
    rw [updEnv_envs]
    by_cases hxe : x = e
    · subst hxe
      rw [if_pos rfl]
      exact hf (.inr hx)
    · rw [if_neg hxe]
      exact h.self hx

theorem PrivIn.touch (h : PrivIn s) {f : Env → Env}
    (he : s.curenv = some e ∨ (e < nenv ∧ (s.envs e).envStatus ≠ .free))
    (hty : ∀ x, (f x).envType = x.envType) (hcs : ∀ x, (f x).envTf.tfCs = x.envTf.tfCs)
    (hfl : ∀ x, (f x).envTf.tfEflags = x.envTf.tfEflags) : PrivIn (s.updEnv e f) := by
  refine h.updEnv (hty _) fun _ => ?_
  rw [Env.Unprivileged, hcs, hfl, hty]
  exact h.of_use he

/-! ### Changes of the table -/

theorem initTf_unprivileged (type : EnvType) :
    Unprivileged initTf.tfCs initTf.tfEflags type :=
  ⟨by decide, by decide, fun _ => by decide⟩

theorem Env.created_unprivileged {x : Env} (hx : x.envTf = initTf) (type : EnvType)
    (entry : UInt32) : (x.created type entry).Unprivileged := by
  have hcs : (x.created type entry).envTf.tfCs = initTf.tfCs := by rw [← hx]; rfl
  have hfl : (x.created type entry).envTf.tfEflags =
      if type = .fs then initTf.tfEflags ||| flIopl3 else initTf.tfEflags := by rw [← hx]; rfl
  rw [Env.Unprivileged, hcs, hfl]
  by_cases ht : type = .fs
  · rw [if_pos ht]
    exact ⟨by decide, by decide, fun h => absurd ht h⟩
  · rw [if_neg ht]
    exact initTf_unprivileged type

theorem PrivIn.retype (h : PrivIn s) (he : (s'.envs e).Unprivileged)
    (hother : ∀ x, x ≠ e → s'.envs x = s.envs x)
    (hcpu : ∀ c, (s'.cpus c).cpuEnv = (s.cpus c).cpuEnv ∧ (s'.cpus c).cs = (s.cpus c).cs ∧ (s'.cpus c).eflags = (s.cpus c).eflags)
    (hnum : s'.cpunum = s.cpunum)
    (hold : ∀ c, (s.cpus c).cpuEnv = some e → (s.cpus c).eflags &&& flIoplMask = 0) : PrivIn s' where
  envs {x} hlt hne := by
    by_cases hx : x = e
    · rwa [hx]
    · rw [hother x hx] at hne ⊢
      exact h.envs hlt hne
  cpus {c x} hc := by
    obtain ⟨hce, hcs, hfl⟩ := hcpu c
    rw [hce] at hc
    obtain ⟨hlt, hun⟩ := h.cpus hc
    rw [Kern.CpuUnprivileged, hcs, hfl]
    refine ⟨hlt, hun.ring, hun.intr, fun ht => ?_⟩
    by_cases hx : x = e
    · exact hold c (hx ▸ hc)
    · rw [hother x hx] at ht
      exact hun.iopl ht
  self {x} hx := by
    by_cases hxe : x = e
    · rwa [hxe]
    · rw [hother x hxe]
      refine h.self ?_
      rw [Kern.curenv, Kern.thiscpu, hnum, (hcpu _).1] at hx
      exact hx

theorem PrivIn.freed (h : PrivIn s) (e : ℕ) (hcur : s.curenv ≠ some e) :
    PrivIn (s.freed e) where
  envs {x} hlt hne := by
    rw [freed_envs] at hne ⊢
    by_cases hx : x = e
    · rw [if_pos hx] at hne
      exact absurd rfl hne
    · rw [if_neg hx] at hne ⊢
      exact h.envs hlt hne
  cpus {c x} hc := by
    have hty : ((s.freed e).envs x).envType = (s.envs x).envType := by
      rw [freed_envs]
      split <;> rfl
    rw [freed_cpus, if_neg (fun hh => hcur hh.1)] at hc
    rw [Kern.CpuUnprivileged, hty, freed_cpus, if_neg (fun hh => hcur hh.1)]
    exact h.cpus hc
  self {x} hx := by
    rw [Kern.curenv, Kern.thiscpu, freed_cpunum, freed_cpus,
      if_neg (fun hh => hcur hh.1)] at hx
    have hxe : x ≠ e := fun hxe => hcur (hxe ▸ hx)
    rw [freed_envs, if_neg hxe]
    exact h.self hx

theorem PrivInv.uncurrent (h : PrivInv s) (henv : ∀ e, (s'.envs e).envStatus ≠ .free → s'.envs e = s.envs e)
    (hty : ∀ e, (s'.envs e).envType = (s.envs e).envType)
    (hcpu : ∀ c, (s'.cpus c).cpuEnv = none ∨ c ≠ s.cpunum ∧ s'.cpus c = s.cpus c)
    (hnum : s'.cpunum = s.cpunum) : PrivIn s' where
  envs {e} hlt hne := by
    have heq := henv e hne
    rw [heq] at hne ⊢
    exact h.envs hlt hne
  cpus {c e} hc := by
    rcases hcpu c with hn | ⟨-, hs⟩
    · rw [hn] at hc
      cases hc
    · rw [hs] at hc
      rw [Kern.CpuUnprivileged, hs, hty]
      exact h.cpus hc
  self {e} he := by
    rw [Kern.curenv, Kern.thiscpu, hnum] at he
    rcases hcpu s.cpunum with hn | ⟨hne, -⟩
    · rw [hn] at he
      cases he
    · exact absurd rfl hne

theorem PrivInv.load (h : PrivInv s) (hlt : e < nenv) (he : (s.envs e).Unprivileged)
    (henv : ∀ x, (s'.envs x).envType = (s.envs x).envType ∧ (s'.envs x).envTf = (s.envs x).envTf ∧ ((s'.envs x).envStatus ≠ .free → (s.envs x).envStatus ≠ .free))
    (hcpu : ∀ c, c ≠ s.cpunum → s'.cpus c = s.cpus c)
    (hself : (s'.cpus s.cpunum).cpuEnv = some e ∧ (s'.cpus s.cpunum).cs = (s.envs e).envTf.tfCs ∧ (s'.cpus s.cpunum).eflags = (s.envs e).envTf.tfEflags) :
    PrivInv s' where
  envs {x} hx hne := by
    obtain ⟨hty, htf, hst⟩ := henv x
    rw [Env.Unprivileged, htf, hty]
    exact h.envs hx (hst hne)
  cpus {c x} hc := by
    rw [Kern.CpuUnprivileged, (henv x).1]
    by_cases hn : c = s.cpunum
    · subst hn
      rw [hself.1] at hc
      cases hc
      rw [hself.2.1, hself.2.2]
      exact ⟨hlt, he⟩
    · rw [hcpu c hn] at hc ⊢
      exact h.cpus hc

/-! ### The condition -/

/-- No processor runs the next slot of the free list with an I/O privilege
level. -/
def Kern.NextSlotIdle (s : Kern) : Prop :=
  ∀ e ∈ s.envFreeList, ∀ c, (s.cpus c).cpuEnv = some e → (s.cpus c).eflags &&& flIoplMask = 0

/-- When a call keeps the privilege of all environments; `pd` is the page
directory loaded. -/
def Kern.PrivCall (s : Kern) (pd : ℕ) (tf : Trapframe) : Sysno → Prop
  | .exofork => tf.tfEflags &&& flIoplMask = 0 ∧ s.NextSlotIdle
  | .envSetTrapframe => ∀ e ∈ s.envOf tf.arg1 true,
      (s.mm.frameAt pd tf.arg2).tfCs &&& 3 = 3 ∧
        ((s.envs e).envType ≠ .fs → (s.mm.frameAt pd tf.arg2).tfEflags &&& flIoplMask = 0)
  | _ => True

/-- When a step keeps the privilege of all environments. -/
structure PrivCond (s : Kern) (l : ℕ × Event) : Prop where
  contained : s.Contained l
  run : ∀ tf ∈ l.2.frame, ∀ no ∈ tf.sysno, (s.enter l.1).RunCall no tf.arg1 tf.arg2
  mask : ∀ tf ∈ l.2.frame, (s.cpus l.1).eflags &&& flIoplMask = flIopl3 → tf.tfEflags &&& flIf ≠ 0
  create : l.2.creates → s.NextSlotIdle
  call : ∀ tf ∈ l.2.frame, ∀ no ∈ tf.sysno, (s.enter l.1).PrivCall (s.cpus l.1).cr3 tf no

/-! ### Every entry keeps it -/

theorem PrivInv.started (h : PrivInv s) (c : ℕ) : PrivInv (s.started c) where
  envs := h.envs
  cpus {x e} hx := by
    rw [Kern.CpuUnprivileged, Kern.started, updCpu_cpus]
    rw [Kern.started, updCpu_cpus] at hx
    by_cases hxc : x = c
    · rw [if_pos hxc] at hx ⊢
      exact h.cpus hx
    · rw [if_neg hxc] at hx ⊢
      exact h.cpus hx

theorem PrivInv.save {c cr2 : ℕ} {tf : Trapframe} (h : PrivInv s) (ht : Traps PrivCond s c e tf cr2) :
    Unprivileged tf.tfCs tf.tfEflags (s.envs e).envType := by
  obtain ⟨-, hun⟩ := h.cpus ht.cur
  obtain ⟨hring, hiopl, hintr⟩ := ht.frame hun.ring
  refine ⟨hring, ?_, fun hty => hiopl.trans (hun.iopl hty)⟩
  by_cases hlev : (s.cpus c).eflags &&& flIoplMask = flIopl3
  · exact ht.ok.mask tf rfl hlev
  · rw [hintr hlev]
    exact hun.intr

theorem PrivInv.entered {c cr2 : ℕ} {tf : Trapframe} (h : PrivInv s) (ht : Traps PrivCond s c e tf cr2) :
    PrivIn (s.entered c e tf) where
  envs {x} hlt hne := by
    by_cases hx : x = e
    · subst hx
      show Env.Unprivileged ((s.started c).updEnv x _ |>.envs x)
      rw [updEnv_envs_self]
      exact h.save ht
    · have hx' : (s.entered c e tf).envs x = s.envs x := by
        rw [Kern.entered, updEnv_envs, if_neg hx, started_envs]
      rw [hx'] at hne ⊢
      exact h.envs hlt hne
  cpus {x y} hx := by
    have hty : ((s.entered c e tf).envs y).envType = ((s.started c).envs y).envType := by
      rw [Kern.entered, updEnv_envs]
      split <;> rfl
    rw [Kern.CpuUnprivileged, hty]
    exact (h.started c).cpus hx
  self {x} hx := by
    rw [entered_curenv, ht.cur] at hx
    cases hx
    show Env.Unprivileged ((s.started c).updEnv e _ |>.envs e)
    rw [updEnv_envs_self]
    exact h.save ht

theorem PrivIn.popTf (h : PrivIn s) (he : s.curenv = some e) : PrivInv (s.popTf e) := by
  refine h.toPrivInv.load (h.cpus he).1 (h.self he) (fun x => ?_) (fun c hc => ?_) ?_
  · rw [popTf_envs]
    exact ⟨rfl, rfl, fun hx => hx⟩
  · rw [popTf_cpus, if_neg hc]
  · rw [popTf_cpus, if_pos rfl]
    exact ⟨he, rfl, rfl⟩

theorem PrivInv.run {d : ℕ} (h : PrivInv s) (hlt : e < nenv) (hst : (s.envs e).envStatus = .runnable) :
    PrivInv (s.runEnv e d) := by
  have hne : (s.envs e).envStatus ≠ .free := by
    rw [hst]
    decide
  refine h.load hlt (h.envs hlt hne) (fun x => ?_) (fun c hc => ?_) ?_
  · rw [runEnv_envs]
    refine ⟨rfl, rfl, fun _ hf => ?_⟩
    rename_i hx
    by_cases hxe : x = e
    · exact hne (hxe ▸ hf)
    · simp [hxe, hf] at hx
  · rw [runEnv_cpus, if_neg hc]
  · rw [runEnv_cpus, if_pos rfl]
    exact ⟨rfl, rfl, rfl⟩

theorem PrivIn.regs {f : Env → Env} (h : PrivIn s) (hf : OnlyRegs f) : PrivIn (s.updEnv e f) := by
  refine h.congr (fun x => ?_) (fun _ => ⟨rfl, rfl, rfl⟩) rfl
  rw [updEnv_envs]
  obtain ⟨_, _, _, _, hx⟩ := hf (s.envs x)
  split
  · rw [hx]
    exact ⟨rfl, rfl, rfl, rfl⟩
  · exact ⟨rfl, rfl, rfl, rfl⟩

theorem privilege_ctl : CtlInv PrivCond PrivIn PrivIn PrivInv PrivEnd where
  left hl h := h hl
  bad _ hb := .of_bad hb
  ring h _ hcur := (h.cpus hcur).2.ring
  save h ht := h.entered ht
  dying {s c e _ _} h _ hcur hd := by
    refine ⟨h.started c, fun {x} hx => ?_⟩
    rw [started_curenv, hcur] at hx
    cases hx
    exact h.envs (h.cpus hcur).1 (by rw [hd]; decide)
  enter {s c} h hcur := by
    refine ⟨⟨⟨h.envs, h.cpus⟩, fun {x} hx => ?_⟩, ⟨h.started c, fun {x} hx => ?_⟩⟩
    · rw [show (s.enter c).curenv = (s.cpus c).cpuEnv from rfl, hcur] at hx
      cases hx
    · rw [started_curenv, hcur] at hx
      cases hx
  ready h := h
  same h hs := h.congr (fun e => by rw [hs.envs]; exact ⟨rfl, rfl, rfl, rfl⟩)
    (fun c => by rw [hs.cpus]; exact ⟨rfl, rfl, rfl⟩) hs.cpunum
  regs h hf := h.regs hf
  regsReady h hf := h.regs hf
  freeing _ _ hb _ := .of_bad hb
  freed {s e} h he := by
    refine h.toPrivInv.uncurrent (fun x hx => ?_) (fun x => ?_) (fun c => ?_)
      (freed_cpunum s e)
    · rw [updCpu_envs, freed_envs] at hx ⊢
      by_cases hxe : x = e
      · rw [if_pos hxe] at hx
        exact absurd rfl hx
      · rw [if_neg hxe]
    · rw [updCpu_envs, freed_envs]
      split <;> rfl
    · rw [updCpu_cpus, freed_cpus]
      by_cases hc : c = s.cpunum
      · left
        rw [if_pos hc]
      · right
        rw [if_neg hc, if_neg fun hh => hc hh.2]
        exact ⟨hc, rfl⟩
  popTf h he _ _ := h.popTf he
  again h he _ _ := h.popTf he
  run h _ hlt hst _ _ := h.toPrivInv.run hlt hst
  runNull _ _ _ _ _ := .of_bad rfl
  idle {s} h _ _ := by
    have hi : PrivIn s.idle := by
      refine h.toPrivInv.uncurrent (fun _ _ => rfl) (fun _ => rfl) (fun c => ?_) rfl
      rw [idle_cpus]
      by_cases hc : c = s.cpunum
      · left
        rw [if_pos hc]
      · right
        rw [if_neg hc]
        exact ⟨hc, rfl⟩
    exact hi.toPrivInv
  created {s c e d binary type s'} h hok hcur hl hs := by
    have hin : PrivIn (s.enter c) := ⟨⟨h.envs, h.cpus⟩, fun {x} hx => by
      rw [show (s.enter c).curenv = (s.cpus c).cpuEnv from rfl, hcur] at hx
      cases hx⟩
    refine (hin.retype (e := e) ?_ (fun x hx => ?_) (fun x => ?_) hs.cpunum
      (hok.create rfl e hl)).toPrivInv
    · rw [hs.envs, updCpu_envs, updEnv_envs_self, allocated_envs, if_pos rfl]
      exact Env.created_unprivileged rfl type binary.entry
    · rw [hs.envs, updCpu_envs, updEnv_envs, if_neg hx, allocated_envs, if_neg hx]
    · rw [hs.cpus, updCpu_cpus]
      split <;> exact ⟨rfl, rfl, rfl⟩
  creating _ _ _ hb _ := .of_bad hb
  quiet {s c s'} h hs := by
    refine ⟨fun hlt hne => ?_, fun {x e} hx => ?_⟩
    · rw [hs.envs] at hne ⊢
      exact h.envs hlt hne
    · rw [hs.cpus] at hx
      rw [Kern.CpuUnprivileged, hs.cpus, hs.envs]
      exact h.cpus hx
  quietBad _ _ hb := .of_bad hb

/-! ### The calls that change the table -/

section Calls

variable {s : Kern} {e : ℕ}

/-- Where the calls leave the kernel or return. -/
def PrivBack (e : ℕ) {α : Type} (_ : α) (s : Kern) : Prop := PrivIn s ∧ s.curenv = some e

theorem privilege_destroy (h : PrivIn s) (he : s.curenv = some e) {x : ℕ}
    (hx : s.curenv = some x ∨ (x < nenv ∧ (s.envs x).envStatus ≠ .free)) :
    wp (envDestroy x) (PrivBack e) PrivEnd s := by
  by_cases hself : s.curenv = some x
  · exact EntryInv.no_ret (privilege_ctl.destroy h hself)
  · refine wp_envDestroy (fun _ _ => ?_) (fun s' _ hs _ => ?_) (fun _ _ hc => absurd hc hself)
      fun _ _ _ hb _ => .of_bad hb
    · exact ⟨h.touch hx (fun _ => rfl) (fun _ => rfl) fun _ => rfl, he⟩
    · refine ⟨privilege_ctl.same (h.freed x hself) hs, ?_⟩
      rw [hs.curenv, Kern.curenv, Kern.thiscpu, freed_cpus, freed_cpunum,
        if_neg fun hh => hself hh.1]
      exact he

theorem privilege_exofork (h : PrivIn s) (he : s.curenv = some e)
    (hiopl : (s.envs e).envTf.tfEflags &&& flIoplMask = 0) (hidle : s.NextSlotIdle) :
    wp sysExofork (PrivBack e) PrivEnd s := by
  rw [sysExofork, wp_bind_of_ret (curenvPtr_eq he), wp_bind, wp_get, wp_bind]
  refine wp_envAlloc (fun r s' hs => ⟨privilege_ctl.same h hs, hs.curenv.trans he⟩)
    (fun x d s' hl hs => ?_) fun _ _ hb _ => .of_bad hb
  simp only
  rw [wp_bind, setStatus, wp_modify, wp_bind, wp_modify, wp_gets]
  refine ⟨?_, hs.curenv.trans he⟩
  -- if the slot is the caller's own, the flags copied are the initial ones
  have hflags : Unprivileged (s'.envs e).envTf.tfCs (s'.envs e).envTf.tfEflags .user := by
    rw [hs.envs, allocated_envs]
    by_cases hex : e = x
    · rw [if_pos hex]
      exact initTf_unprivileged _
    · rw [if_neg hex]
      have hun := h.self he
      exact ⟨hun.ring, hun.intr, fun _ => hiopl⟩
  have hty : (s'.envs x).envType = .user := by
    rw [hs.envs, allocated_envs, if_pos rfl]
    rfl
  refine h.retype (e := x) ?_ (fun y hy => ?_) (fun c => ?_) hs.cpunum (hidle x hl)
  · have htf : ∀ t : Kern, t.envs e = s'.envs e ∨ (t.envs e).envTf = (s'.envs e).envTf →
        (t.envs x).envType = .user →
        ((t.updEnv x fun y => { y with envTf := { (t.envs e).envTf with
          tfRegs := { (t.envs e).envTf.tfRegs with regEax := 0 } } }).envs x).Unprivileged := by
      intro t ht htx
      have ht : (t.envs e).envTf = (s'.envs e).envTf := ht.elim (congrArg Env.envTf) id
      rw [updEnv_envs_self, Env.Unprivileged]
      simp only
      rw [ht, htx]
      exact hflags
    refine htf _ (.inr ?_) ?_
    · rw [updEnv_envs]
      split <;> rfl
    · rw [updEnv_envs_self]
      exact hty
  · rw [updEnv_envs, if_neg hy, updEnv_envs, if_neg hy, hs.envs, allocated_envs,
      if_neg hy]
  · rw [updEnv_cpus, updEnv_cpus, hs.cpus]
    exact ⟨rfl, rfl, rfl⟩

theorem privilege_setStatus (h : PrivIn s) (he : s.curenv = some e) (envid status : ℕ) :
    wp (sysEnvSetStatus envid status) (PrivBack e) PrivEnd s := by
  rw [sysEnvSetStatus]
  refine wp_envid2env he ⟨h, he⟩ fun x hx => ?_
  have hset : ∀ st, PrivIn (s.updEnv x ({ · with envStatus := st })) := fun st =>
    h.touch (envOf_eq_some hx) (fun _ => rfl) (fun _ => rfl) fun _ => rfl
  simp only
  rw [wp_ite, wp_ite]
  exact ⟨fun _ => ⟨hset _, he⟩, fun _ => ⟨fun _ => ⟨hset _, he⟩, fun _ => ⟨h, he⟩⟩⟩

theorem flIf_or (f : UInt32) : (f ||| flIf) &&& flIf ≠ 0 := by
  have heq : (f ||| flIf) &&& flIf = flIf := by
    apply UInt32.toBitVec_inj.mp
    ext i hi
    simp
    grind
  rw [heq]
  decide

theorem iopl_or {f : UInt32} (h : f &&& flIoplMask = 0) : (f ||| flIf) &&& flIoplMask = 0 := by
  have hdis : (f ||| flIf) &&& flIoplMask = f &&& flIoplMask ||| flIf &&& flIoplMask := by
    apply UInt32.toBitVec_inj.mp
    ext i hi
    simp
    grind
  rw [hdis, h]
  decide

theorem privilege_setTrapframe (h : PrivIn s) (he : s.curenv = some e) {envid tf : ℕ}
    (hok : ∀ x ∈ s.envOf envid true, (s.mm.frameAt s.thiscpu.cr3 tf).tfCs &&& 3 = 3 ∧
      ((s.envs x).envType ≠ .fs →
        (s.mm.frameAt s.thiscpu.cr3 tf).tfEflags &&& flIoplMask = 0)) :
    wp (sysEnvSetTrapframe envid tf) (PrivBack e) PrivEnd s := by
  rw [sysEnvSetTrapframe]
  refine wp_envid2env he ⟨h, he⟩ fun x hx => ?_
  obtain ⟨hring, hiopl⟩ := hok x hx
  simp only
  rw [wp_bind]
  cases hd : (s.envs x).envPgdir with
  | none => exact (wp_of_stop (envPgdirPtr_none hd)).mpr (.of_bad rfl)
  | some d =>
    rw [wp_of_ret (envPgdirPtr_eq hd)]
    refine (sameMem_userMemCheck _ _ _ _).wp_bind (fun r s₁ h₁ => ?_) fun _ _ hb _ => .of_bad hb
    have hK₁ := privilege_ctl.same h h₁.toSameCtl
    have hc₁ : s₁.curenv = some e := h₁.curenv.trans he
    rw [wp_ite]
    refine ⟨fun _ => ⟨hK₁, hc₁⟩, fun _ => ?_⟩
    rw [wp_bind, rcr3, wp_gets, h₁.thiscpu, wp_bind]
    refine wp_liftLoadTrapframe _ _ h₁.mem (fun s₂ h₂ => ?_) fun _ _ hb => .of_bad hb
    have hK₂ := privilege_ctl.same hK₁ h₂
    rw [wp_bind, wp_modify, wp_bind, wp_modify]
    -- the frame is in place; what follows only writes to the caller's copy
    refine (keeps_orUserCs _ _).ctl.wp_bind (fun _ s₃ h₃ => ?_)
      fun _ _ hb _ => .of_bad hb
    refine ⟨privilege_ctl.same ?_ h₃, h₃.curenv.trans (h₂.curenv.trans hc₁)⟩
    have hty : (s₂.envs x).envType = (s.envs x).envType := by rw [h₂.envs, h₁.envs]
    have hframe : PrivIn (s₂.updEnv x fun y => { y with envTf :=
        { (s.mm.frameAt s.thiscpu.cr3 tf) with
          tfEflags := (s.mm.frameAt s.thiscpu.cr3 tf).tfEflags ||| flIf } }) :=
      hK₂.updEnv rfl fun _ => ⟨hring, flIf_or _, fun ht => iopl_or (hiopl (hty ▸ ht))⟩
    refine hframe.congr (fun y => ?_) (fun _ => ⟨rfl, rfl, rfl⟩) rfl
    by_cases hy : y = x
    · subst hy
      simp only [updEnv_envs_self]
      exact ⟨trivial, trivial, trivial, trivial⟩
    · simp only [updEnv_envs, if_neg hy]
      exact ⟨trivial, trivial, trivial, trivial⟩

theorem privilege_deliver (h : PrivIn s) (he : s.curenv = some e) {x : ℕ}
    (hx : s.curenv = some x ∨ (x < nenv ∧ (s.envs x).envStatus ≠ .free)) (cur value perm : ℕ) :
    wp (ipcDeliver cur x value perm) (PrivBack e) PrivEnd s := by
  rw [ipcDeliver, wp_bind, wp_modify, wp_bind, wp_modify, wp_pure]
  refine ⟨PrivIn.congr (h.touch hx (f := fun y => { y with
      envIpcPerm := perm
      envIpcRecving := false
      envIpcValue := value
      envIpcFrom := (s.envs cur).envId
      envStatus := .runnable }) (fun _ => rfl) (fun _ => rfl) fun _ => rfl)
    (fun _ => ⟨rfl, rfl, rfl, rfl⟩) (fun _ => ⟨rfl, rfl, rfl⟩) rfl, he⟩

theorem privilege_trySend (h : PrivIn s) (he : s.curenv = some e) (envid value srcva perm : ℕ) :
    wp (sysIpcTrySend envid value srcva perm) (PrivBack e) PrivEnd s := by
  rw [sysIpcTrySend, wp_bind_of_ret (curenvPtr_eq he)]
  refine (keeps_envPageLookup e srcva).wp_bind (fun found s₁ hs₁ => ?_) fun _ _ hb _ => .of_bad hb
  have h₁ := privilege_ctl.same h hs₁
  have hc₁ : s₁.curenv = some e := hs₁.curenv.trans he
  refine wp_envid2env hc₁ ⟨h₁, hc₁⟩ fun x hx => ?_
  have hx := envOf_eq_some hx
  simp only
  rw [wp_bind, wp_get, wp_ite, wp_ite]
  refine ⟨fun _ => ⟨h₁, hc₁⟩, fun _ => ⟨fun _ => ⟨h₁, hc₁⟩, fun _ => ?_⟩⟩
  cases found with
  | none => exact privilege_deliver h₁ hc₁ hx _ _ _
  | some loc =>
    simp only
    rw [wp_ite]
    refine ⟨fun _ => ?_, fun _ => privilege_deliver h₁ hc₁ hx _ _ _⟩
    refine (keeps_envPageInsert _ _ _ _).wp_bind (fun ret s₂ hs₂ => ?_) fun _ _ hb _ => .of_bad hb
    have h₂ := privilege_ctl.same h₁ hs₂
    have hc₂ : s₂.curenv = some e := hs₂.curenv.trans hc₁
    rw [wp_ite]
    refine ⟨fun _ => ⟨h₂, hc₂⟩, fun _ => privilege_deliver h₂ hc₂ ?_ _ _ _⟩
    rw [hs₂.curenv, hs₂.envs]
    exact hx

theorem privilege_recv (h : PrivIn s) (he : s.curenv = some e) (dstva : ℕ) :
    wp (sysIpcRecv dstva) (PrivBack e) PrivEnd s := by
  rw [sysIpcRecv, wp_ite]
  refine ⟨fun _ => ⟨h, he⟩, fun _ => ?_⟩
  rw [wp_bind_of_ret (curenvPtr_eq he), wp_bind, wp_modify, wp_bind, wp_modify, wp_bind]
  refine EntryInv.no_ret (privilege_ctl.sched ?_)
  have hrecv := h.touch (e := e) (f := fun x => { x with
      envIpcDstva := dstva
      envIpcRecving := true
      envTf := { x.envTf with tfRegs := { x.envTf.tfRegs with regEax := 0 } }
      envStatus := .notRunnable }) (.inl he) (fun _ => rfl) (fun _ => rfl) fun _ => rfl
  exact hrecv.congr (fun _ => ⟨rfl, rfl, rfl, rfl⟩) (fun _ => ⟨rfl, rfl, rfl⟩) rfl

end Calls

theorem privilege_calls : CtlCalls PrivCond PrivIn PrivInv PrivEnd := by
  intro s c e tf cr2 no h ht hno hctl
  have hK := h.entered ht
  have he : (s.entered c e tf).curenv = some e := by rw [entered_curenv, ht.cur]
  have hok := ht.ok.call tf rfl no hno
  cases no with
  | envDestroy =>
    rw [Sysno.run, sysEnvDestroy]
    refine wp_envid2env he ⟨hK, he⟩ fun x hx => ?_
    simp only
    rw [wp_bind]
    exact privilege_destroy hK he (envOf_eq_some hx)
  | exofork =>
    refine privilege_exofork hK he ?_ fun x hx y hy => ?_
    · show ((s.started c).updEnv e _ |>.envs e).envTf.tfEflags &&& _ = 0
      rw [updEnv_envs_self]
      exact hok.1
    · rw [Kern.entered, updEnv_cpus, Kern.started, updCpu_cpus] at hy ⊢
      by_cases hyc : y = c
      · rw [if_pos hyc] at hy ⊢
        exact hok.2 x hx y hy
      · rw [if_neg hyc] at hy ⊢
        exact hok.2 x hx y hy
  | envSetStatus => exact privilege_setStatus hK he _ _
  | envSetTrapframe =>
    refine privilege_setTrapframe hK he fun x hx => ?_
    rw [entered_envOf] at hx
    have hcr3 : (s.entered c e tf).thiscpu.cr3 = (s.cpus c).cr3 := by
      show ((s.started c).cpus c).cr3 = _
      rw [Kern.started, updCpu_cpus, if_pos rfl]
      rfl
    have hty : ((s.entered c e tf).envs x).envType = (s.envs x).envType :=
      (s.started c).updEnv_proj e (f := ({ · with envTf := tf })) Env.envType (fun _ => rfl) x
    rw [hcr3, hty]
    exact hok x hx
  | ipcTrySend => exact privilege_trySend hK he _ _ _ _
  | ipcRecv => exact privilege_recv hK he _
  | _ => cases hctl

theorem PrivInv.of_booted {free : List ℕ} (h : Booted s free) : PrivInv s where
  envs hlt hne := absurd (h.env_free _ hlt) hne
  cpus hc := by
    rw [h.cpu_env] at hc
    cases hc

/-- In every state reached by steps that meet `PrivCond`, the saved registers
of every environment in use, and those every processor entered user code with,
are in ring 3, with interrupts enabled, and with I/O privilege level 0 unless
the environment is the file server. -/
theorem privilege {s₀ s : Kern} {free : List ℕ} (hb : Booted s₀ free)
    (hr : Sys.Reach Kern.step PrivCond s₀ s) :
    (∀ e < nenv, (s.envs e).envStatus ≠ .free →
      (s.envs e).envTf.tfCs &&& 3 = 3 ∧ (s.envs e).envTf.tfEflags &&& flIf ≠ 0 ∧
      ((s.envs e).envType ≠ .fs → (s.envs e).envTf.tfEflags &&& flIoplMask = 0)) ∧
    ∀ c e, (s.cpus c).cpuEnv = some e →
      (s.cpus c).cs &&& 3 = 3 ∧ (s.cpus c).eflags &&& flIf ≠ 0 ∧
      ((s.envs e).envType ≠ .fs → (s.cpus c).eflags &&& flIoplMask = 0) := by
  have h : PrivInv s := (privilege_ctl.entry privilege_calls).reach (PrivInv.of_booted hb) hr
  refine ⟨fun e hlt hne => ?_, fun c e hc => ?_⟩
  · obtain ⟨hring, hintr, hiopl⟩ := h.envs hlt hne
    exact ⟨hring, hintr, hiopl⟩
  · obtain ⟨-, hring, hintr, hiopl⟩ := h.cpus hc
    exact ⟨hring, hintr, hiopl⟩

/-- An environment builds a frame of ring 3 on its stack and loads it. -/
theorem privilege_own_frame : ∃ s, Sys.Reach Kern.step PrivCond (machine 16) s ∧
    (s.envs 0).envStatus = .running ∧ (s.envs 0).envTf.tfEip = 0x42 ∧
    (s.envs 0).envTf.tfCs &&& 3 = 3 := by
  let ok : Kern → ℕ × Event → Prop := fun s l => s.Contained l ∧
    (s.cpus l.1).eflags &&& flIoplMask = 0 ∧ (∀ tf ∈ l.2.frame, tf.sysno = some .envSetTrapframe ∧
      (s.mm.frameAt (s.cpus l.1).cr3 tf.arg2).tfCs &&& 3 = 3 ∧
      (s.mm.frameAt (s.cpus l.1).cr3 tf.arg2).tfEflags &&& flIoplMask = 0) ∧
    l.2.creates = false
  have hok : ∀ s l, ok s l → PrivCond s l := by
    rintro s l ⟨hc, hlev, hcall, hnew⟩
    refine ⟨hc, fun tf htf no hno => ?_, fun tf _ h => ?_, fun h => ?_, fun tf htf no hno => ?_⟩
    · rw [(hcall tf htf).1] at hno
      cases hno
      trivial
    · rw [hlev] at h
      exact absurd h (by decide)
    · rw [hnew] at h
      cases h
    · obtain ⟨hsys, hring, hiopl⟩ := hcall tf htf
      rw [hsys] at hno
      cases hno
      exact fun e _ => ⟨hring, fun _ => hiopl⟩
  -- no processor runs anything when the environment is created
  have hnew : PrivCond (machine 16) (0, .create image .user) := by
    refine ⟨by decide +kernel, fun _ h => ?_, fun _ h => ?_, fun _ _ _ _ hc => ?_, fun _ h => ?_⟩
    · cases h
    · cases h
    · cases hc
    · cases h
  let steps : List (ℕ × Event) := [(0, .start), (0, .store 0xeebfd030 0x42),
    (0, .store 0xeebfd034 0x1b), (0, call 9 0 0xeebfd000 0 0 0)]
  have hall : ∀ s ∈ (machine 16).step (0, .create image .user),
      Sys.AllOk Kern.step ok steps s := by decide +kernel
  have hsteps : Sys.AllOk Kern.step PrivCond ((0, .create image .user) :: steps)
      (machine 16) := ⟨hnew, fun s hs => (hall s hs).mono hok⟩
  obtain ⟨s, hs, hst, heip⟩ := Sys.exists_reach_of (P := fun s => (s.envs 0).envStatus = .running ∧
      (s.envs 0).envTf.tfEip = 0x42) hsteps (by decide +kernel)
  have hpriv := (privilege (machine_booted 16 (by decide)) hs).1 0 (by decide) (by rw [hst]; decide)
  exact ⟨s, hs, hst, heip, hpriv.1⟩

/-- A zero page passes for a trap frame: its code segment is that of ring 0. -/
theorem set_trapframe_breaks_privilege : Booted (machine 16) (List.range' 512 16) ∧
    ∃ s, Sys.Reach Kern.step (fun _ _ => True) (machine 16) s ∧
      (s.envs 0).envStatus ≠ .free ∧ (s.envs 0).envTf.tfCs &&& 3 = 0 ∧
      (s.cpus 0).cpuEnv = some 0 ∧ (s.cpus 0).cs &&& 3 = 0 := by
  refine ⟨machine_booted 16 (by decide), ?_⟩
  exact Sys.exists_reach_of (Sys.allOk_true [(0, .create image .user), (0, .start), (0, call 9 0
      0xeebfd000 0 0 0)] _) (by decide +kernel)

end Jos
