/-
What the functions of `kern/env.c` and `kern/sched.c` do to the environment
table and the processors.

Each of them is described once, by the state it produces up to changes of
memory (`Kern.SameCtl`); the invariants are then shown for these states.
-/
import Jos.Kern.Entry

namespace Jos

open Prog Function
open Kern (SameCtl)

variable {Q : Unit → Kern → Prop} {R : Stop → Kern → Prop} {e : ℕ} {s s' : Kern}

namespace Kern

section Updates

variable (s : Kern) (e c x : ℕ) (f : Env → Env) (g : CpuInfo → CpuInfo) (o : Obs)

@[simp] theorem updEnv_cpus : (s.updEnv e f).cpus = s.cpus := rfl
@[simp] theorem updEnv_cpunum : (s.updEnv e f).cpunum = s.cpunum := rfl
@[simp] theorem updEnv_mm : (s.updEnv e f).mm = s.mm := rfl
@[simp] theorem updEnv_envFreeList : (s.updEnv e f).envFreeList = s.envFreeList := rfl
@[simp] theorem updEnv_curenv : (s.updEnv e f).curenv = s.curenv := rfl
@[simp] theorem updEnv_envs_self : (s.updEnv e f).envs e = f (s.envs e) := update_self ..
@[simp] theorem updCpu_envs : (s.updCpu c g).envs = s.envs := rfl
@[simp] theorem updCpu_cpunum : (s.updCpu c g).cpunum = s.cpunum := rfl
@[simp] theorem updCpu_mm : (s.updCpu c g).mm = s.mm := rfl
@[simp] theorem updCpu_envFreeList : (s.updCpu c g).envFreeList = s.envFreeList := rfl
@[simp] theorem log_envs : (s.log o).envs = s.envs := rfl
@[simp] theorem log_cpus : (s.log o).cpus = s.cpus := rfl
@[simp] theorem log_cpunum : (s.log o).cpunum = s.cpunum := rfl
@[simp] theorem log_curenv : (s.log o).curenv = s.curenv := rfl

theorem updCpu_cpus : (s.updCpu c g).cpus x = if x = c then g (s.cpus x) else s.cpus x := by
  by_cases h : x = c
  · rw [if_pos h, h]
    exact update_self ..
  · rw [if_neg h]
    exact update_of_ne h _ _

end Updates

theorem updEnv_envs (s : Kern) (e : ℕ) (f : Env → Env) (x : ℕ) :
    (s.updEnv e f).envs x = if x = e then f (s.envs x) else s.envs x := by
  by_cases h : x = e
  · rw [if_pos h, h, updEnv_envs_self]
  · rw [if_neg h]
    exact update_of_ne h _ _

theorem updEnv_proj {α : Type} (s : Kern) (e : ℕ) {f : Env → Env} (g : Env → α)
    (hf : ∀ x, g (f x) = g x) (x : ℕ) : g ((s.updEnv e f).envs x) = g (s.envs x) := by
  rw [updEnv_envs]
  split
  · exact hf _
  · rfl

/-! ### Looking up an environment -/

/-- What `envid2env` finds on behalf of the current environment. -/
def envOf (s : Kern) (envid : ℕ) (checkperm : Bool) : Option ℕ :=
  match s.curenv with
  | none => none
  | some cur =>
    if envid = 0 then some cur
    else if (s.envs (envx envid)).envStatus = .free ∨ (s.envs (envx envid)).envId ≠ envid then none
    else if checkperm ∧ envx envid ≠ cur ∧
      (s.envs (envx envid)).envParentId ≠ (s.envs cur).envId then none
    else some (envx envid)

end Kern

theorem envid2env_eq {cur : ℕ} (h : s.curenv = some cur) (envid : ℕ) (checkperm : Bool) :
    envid2env envid checkperm s = .ret (s.envOf envid checkperm) s := by
  unfold envid2env Kern.envOf
  rw [h]
  by_cases h0 : envid = 0
  · rw [if_pos h0, ret_bind (curenvPtr_eq h)]
    simp [h0, pure]
  · rw [if_neg h0]
    show (if _ then _ else _ : KernM (Option ℕ)) s = _
    by_cases hbad : (s.envs (envx envid)).envStatus = .free ∨ (s.envs (envx envid)).envId ≠ envid
    · rw [if_pos hbad]
      simp [h0, hbad, pure]
    · rw [if_neg hbad]
      cases checkperm with
      | false => simp [h0, hbad, pure]
      | true =>
        rw [if_pos rfl, ret_bind (curenvPtr_eq h)]
        by_cases hp : envx envid ≠ cur ∧ (s.envs (envx envid)).envParentId ≠ (s.envs cur).envId
        · rw [if_pos hp]
          simp [h0, hbad, hp, pure]
        · rw [if_neg hp]
          simp only [h0, if_false, hbad, true_and, hp]
          rfl

theorem wp_envid2env {α : Type} {k : Option ℕ → KernM α} {Q R} {cur envid : ℕ} {checkperm : Bool}
    (h : s.curenv = some cur) (hnone : wp (k none) Q R s)
    (hsome : ∀ x, s.envOf envid checkperm = some x → wp (k (some x)) Q R s) :
    wp (envid2env envid checkperm >>= k) Q R s := by
  rw [wp_bind_of_ret (envid2env_eq h envid checkperm)]
  cases hx : s.envOf envid checkperm with
  | none => exact hnone
  | some x => exact hsome x hx

theorem Kern.envOf_eq_some {envid : ℕ} {checkperm : Bool} (h : s.envOf envid checkperm = some e) :
    s.curenv = some e ∨ (e < nenv ∧ (s.envs e).envStatus ≠ .free) := by
  unfold Kern.envOf at h
  cases hcur : s.curenv with
  | none => simp [hcur] at h
  | some cur =>
    simp only [hcur] at h
    split at h
    · left
      exact h
    · rename_i hid
      split at h
      · cases h
      · rename_i hbad
        split at h
        · cases h
        · cases h
          exact .inr ⟨envx_lt envid, fun hf => hbad (.inl hf)⟩

theorem Kern.SameCtl.envOf (h : s.SameCtl s') (envid : ℕ) (checkperm : Bool) :
    s'.envOf envid checkperm = s.envOf envid checkperm := by
  unfold Kern.envOf
  rw [h.curenv, h.envs]

theorem Kern.entered_envOf (s : Kern) (c e : ℕ) (tf : Trapframe) (envid : ℕ) (checkperm : Bool) :
    (s.entered c e tf).envOf envid checkperm = (s.enter c).envOf envid checkperm := by
  have hcur : (s.entered c e tf).curenv = (s.enter c).curenv := Kern.entered_curenv s c e tf
  have hproj : ∀ {α : Type} (g : Env → α), (∀ x, g { x with envTf := tf } = g x) → ∀ x,
      g ((s.entered c e tf).envs x) = g ((s.enter c).envs x) :=
    fun g hg x => Kern.updEnv_proj (s.started c) e g hg x
  unfold Kern.envOf
  rw [hcur]
  cases (s.enter c).curenv with
  | none => rfl
  | some cur =>
    simp only
    rw [hproj Env.envStatus fun _ => rfl, hproj Env.envId fun _ => rfl,
      hproj Env.envParentId fun _ => rfl, hproj Env.envId fun _ => rfl]

/-! ### Running -/

namespace Kern

/-- The environment that is switched away from becomes runnable. -/
def preempt (s : Kern) : Kern :=
  match s.curenv with
  | some c => if (s.envs c).envStatus = .running then
      s.updEnv c ({ · with envStatus := .runnable }) else s
  | none => s

/-- `env_run(e)` up to the point where it loads the directory of `e`. -/
def resume (s : Kern) (e : ℕ) : Kern :=
  ((s.preempt.updCpu s.cpunum ({ · with cpuEnv := some e })).updEnv e
    ({ · with envStatus := .running })).updEnv e
      fun x => { x with envRuns := (x.envRuns + 1) % 2 ^ 32 }

/-- The state in which `env_run(e)` leaves the kernel after a switch. -/
def runEnv (s : Kern) (e d : ℕ) : Kern :=
  ((s.resume e).updCpu s.cpunum ({ · with cr3 := d })).popTf e

def idle (s : Kern) : Kern :=
  s.updCpu s.cpunum ({ · with cpuEnv := none, cr3 := s.mm.kernPgdir, cpuStatus := .halted })

theorem preempt_envs (s : Kern) (x : ℕ) : s.preempt.envs x = { s.envs x with
    envStatus := if s.curenv = some x ∧ (s.envs x).envStatus = .running then .runnable
      else (s.envs x).envStatus } := by
  unfold preempt
  cases hcur : s.curenv with
  | none => simp
  | some c =>
    by_cases hx : x = c
    · subst hx
      by_cases hr : (s.envs x).envStatus = .running <;> simp [hr]
    · by_cases hr : (s.envs c).envStatus = .running <;> simp [hr, hx, updEnv_envs, Ne.symm hx]

@[simp] theorem preempt_cpus (s : Kern) : s.preempt.cpus = s.cpus := by
  unfold preempt
  split
  · split <;> rfl
  · rfl

@[simp] theorem preempt_mm (s : Kern) : s.preempt.mm = s.mm := by
  unfold preempt
  split
  · split <;> rfl
  · rfl

@[simp] theorem preempt_cpunum (s : Kern) : s.preempt.cpunum = s.cpunum := by
  unfold preempt
  split
  · split <;> rfl
  · rfl

@[simp] theorem preempt_envFreeList (s : Kern) : s.preempt.envFreeList = s.envFreeList := by
  unfold preempt
  split
  · split <;> rfl
  · rfl

theorem resume_envs (s : Kern) (e x : ℕ) : (s.resume e).envs x = { s.envs x with
    envStatus := if x = e then .running
      else if s.curenv = some x ∧ (s.envs x).envStatus = .running then .runnable
      else (s.envs x).envStatus
    envRuns := if x = e then ((s.envs x).envRuns + 1) % 2 ^ 32 else (s.envs x).envRuns } := by
  by_cases hx : x = e
  · simp [resume, hx, preempt_envs]
  · simp [resume, updEnv_envs, hx, preempt_envs]

theorem resume_cpus (s : Kern) (e x : ℕ) : (s.resume e).cpus x =
    if x = s.cpunum then { s.cpus x with cpuEnv := some e } else s.cpus x := by
  simp [resume, updCpu_cpus]

@[simp] theorem resume_mm (s : Kern) (e : ℕ) : (s.resume e).mm = s.mm := by simp [resume]

@[simp] theorem resume_cpunum (s : Kern) (e : ℕ) : (s.resume e).cpunum = s.cpunum := by
  simp [resume]

@[simp] theorem resume_envFreeList (s : Kern) (e : ℕ) :
    (s.resume e).envFreeList = s.envFreeList := by
  simp [resume]

@[simp] theorem popTf_mm (s : Kern) (e : ℕ) : (s.popTf e).mm = s.mm := rfl
@[simp] theorem popTf_cpunum (s : Kern) (e : ℕ) : (s.popTf e).cpunum = s.cpunum := rfl
@[simp] theorem popTf_envFreeList (s : Kern) (e : ℕ) :
    (s.popTf e).envFreeList = s.envFreeList := rfl

theorem popTf_envs (s : Kern) (e x : ℕ) : (s.popTf e).envs x = { s.envs x with
    envCpunum := if x = e then s.cpunum else (s.envs x).envCpunum } := by
  by_cases hx : x = e <;> simp [popTf, updEnv_envs, hx]

theorem popTf_cpus (s : Kern) (e x : ℕ) : (s.popTf e).cpus x =
    if x = s.cpunum then { s.cpus x with
      cs := (s.envs e).envTf.tfCs, eflags := (s.envs e).envTf.tfEflags }
    else s.cpus x := by
  simp [popTf, updCpu_cpus]

theorem runEnv_envs (s : Kern) (e d x : ℕ) : (s.runEnv e d).envs x = { s.envs x with
    envStatus := if x = e then .running
      else if s.curenv = some x ∧ (s.envs x).envStatus = .running then .runnable
      else (s.envs x).envStatus
    envRuns := if x = e then ((s.envs x).envRuns + 1) % 2 ^ 32 else (s.envs x).envRuns
    envCpunum := if x = e then s.cpunum else (s.envs x).envCpunum } := by
  simp [runEnv, popTf_envs, resume_envs]

theorem runEnv_cpus (s : Kern) (e d x : ℕ) : (s.runEnv e d).cpus x =
    if x = s.cpunum then { s.cpus x with
      cpuEnv := some e, cr3 := d, cs := (s.envs e).envTf.tfCs
      eflags := (s.envs e).envTf.tfEflags }
    else s.cpus x := by
  by_cases hx : x = s.cpunum <;>
    simp [runEnv, popTf_cpus, updCpu_cpus, hx, resume_envs, resume_cpus]

theorem idle_cpus (s : Kern) (x : ℕ) : s.idle.cpus x =
    if x = s.cpunum then { s.cpus x with
      cpuEnv := none, cr3 := s.mm.kernPgdir, cpuStatus := .halted }
    else s.cpus x :=
  updCpu_cpus ..

@[simp] theorem runEnv_mm (s : Kern) (e d : ℕ) : (s.runEnv e d).mm = s.mm := by
  simp [runEnv]

@[simp] theorem runEnv_cpunum (s : Kern) (e d : ℕ) : (s.runEnv e d).cpunum = s.cpunum := by
  simp [runEnv]

@[simp] theorem runEnv_envFreeList (s : Kern) (e d : ℕ) :
    (s.runEnv e d).envFreeList = s.envFreeList := by
  simp [runEnv]

end Kern

theorem preemptCurenv_eq (s : Kern) : preemptCurenv s = .ret () s.preempt := by
  unfold preemptCurenv Kern.preempt
  show (match s.curenv with
    | some c => when ((s.envs c).envStatus = .running) (setStatus c .runnable)
    | none => pure () : KernM Unit) s = _
  cases s.curenv with
  | none => rfl
  | some c =>
    simp only [when]
    split <;> rfl

theorem envRun_resume (hcur : s.curenv ≠ some e) :
    envRun e s = (do
      let d ← envPgdirPtr e
      lcr3 d
      envPopTf e : KernM Unit) (s.resume e) := by
  unfold envRun Kern.resume
  rw [get_bind, if_pos hcur, ret_bind (preemptCurenv_eq s), ← Kern.preempt_cpunum]
  rfl

theorem envRun_switch {d : ℕ} (hcur : s.curenv ≠ some e) (hd : (s.envs e).envPgdir = some d) :
    envRun e s = .stop .user (s.runEnv e d) := by
  have hp : ((s.resume e).envs e).envPgdir = some d := by rw [Kern.resume_envs, hd]
  rw [envRun_resume hcur, ret_bind (envPgdirPtr_eq hp)]
  show envPopTf e ((s.resume e).updCpu (s.resume e).cpunum ({ · with cr3 := d })) = _
  rw [envPopTf_eq, Kern.resume_cpunum]
  rfl

theorem envRun_null (hcur : s.curenv ≠ some e) (hd : (s.envs e).envPgdir = none) :
    envRun e s = .stop .wild (s.resume e) := by
  have hp : ((s.resume e).envs e).envPgdir = none := by rw [Kern.resume_envs, hd]
  rw [envRun_resume hcur, stop_bind (envPgdirPtr_none hp)]

theorem envRun_same (hcur : s.curenv = some e) : envRun e s = .stop .user (s.popTf e) := by
  unfold envRun
  rw [get_bind, if_neg (not_not.mpr hcur), envPopTf_eq]

/-! ### The scheduler -/

theorem EnvStatus.code_eq_runnable {st : EnvStatus} :
    st.code = EnvStatus.runnable.code ↔ st = .runnable := by
  cases st <;> decide

theorem Kern.schedScan_eq_some {k : ℕ} :
    ∀ {n j : ℕ}, s.schedScan j n = some k → s.statusWord k = EnvStatus.runnable.code := by
  intro n
  induction n with
  | zero =>
    intro j h
    simp [schedScan] at h
  | succ n ih =>
    intro j h
    unfold schedScan at h
    split at h
    · cases h
      assumption
    · exact ih h

theorem Kern.schedScan_runnable {j n k : ℕ} (h : s.schedScan j n = some k) (hk : k < nenv) :
    (s.envs k).envStatus = .runnable := by
  have hw := Kern.schedScan_eq_some h
  rw [Kern.statusWord, if_pos hk] at hw
  exact EnvStatus.code_eq_runnable.mp hw

theorem schedHalt_idle (h : s.anyAlive = true) : schedHalt s = .stop .halted s.idle := by
  rw [schedHalt, get_bind, if_neg (not_not.mpr h)]
  simp [setCurenv, lcr3, Prog.modify, bind, Prog.halt, Kern.idle, Kern.updCpu]

theorem schedHalt_monitor (h : ¬ s.anyAlive = true) : schedHalt s = .stop .monitor s := by
  rw [schedHalt, get_bind, if_pos h]
  rfl

theorem wp_schedHalt (hidle : R .halted s.idle) (hmon : R .monitor s) : wp schedHalt Q R s := by
  by_cases h : s.anyAlive = true
  · exact (wp_of_stop (schedHalt_idle h)).mpr hidle
  · exact (wp_of_stop (schedHalt_monitor h)).mpr hmon

theorem wp_schedYield (hrun : ∀ j, s.schedScan s.schedStart nenv = some j → j < nenv → wp (envRun j) Q R s)
    (hcur : ∀ c, s.curenv = some c → (s.envs c).envStatus = .running → R .user (s.popTf c))
    (hidle : (∀ c, s.curenv = some c → (s.envs c).envStatus ≠ .running) → R .halted s.idle)
    (hmon : R .monitor s) (hwild : R .wild s) : wp schedYield Q R s := by
  rw [schedYield, wp_bind, wp_get]
  generalize s.schedScan s.schedStart nenv = found at hrun ⊢
  cases found with
  | some j =>
    simp only
    rw [wp_ite]
    exact ⟨hrun j rfl, fun _ => hwild⟩
  | none =>
    cases hc : s.curenv with
    | none =>
      simp only
      exact wp_schedHalt (hidle (by simp [hc])) hmon
    | some c =>
      simp only
      rw [wp_ite]
      refine ⟨fun hr => (wp_of_stop (envRun_same hc)).mpr (hcur c hc hr), fun hr => ?_⟩
      refine wp_schedHalt (hidle fun c' hc' => ?_) hmon
      rw [hc] at hc'
      cases hc'
      exact hr

theorem schedYield_no_ret (s : Kern) : wp schedYield (fun _ _ => False) (fun _ _ => True) s := by
  refine wp_schedYield (fun j _ _ => ?_) (fun _ _ _ => trivial) (fun _ => trivial) trivial trivial
  by_cases hcur : s.curenv = some j
  · exact (wp_of_stop (envRun_same hcur)).mpr trivial
  · cases hd : (s.envs j).envPgdir with
    | none => exact (wp_of_stop (envRun_null hcur hd)).mpr trivial
    | some d => exact (wp_of_stop (envRun_switch hcur hd)).mpr trivial

/-! ### Destruction -/

theorem Kern.SameCtl.updEnv (h : s.SameCtl s') (e : ℕ) (f : Env → Env) :
    (s.updEnv e f).SameCtl (s'.updEnv e f) :=
  ⟨by simp only [Kern.updEnv, h.envs], h.envFreeList, h.cpus, h.cpunum, h.envsEnd, h.mm⟩

theorem Kern.SameCtl.updCpu (h : s.SameCtl s') (c : ℕ) (f : CpuInfo → CpuInfo) :
    (s.updCpu c f).SameCtl (s'.updCpu c f) :=
  ⟨h.envs, h.envFreeList, by simp only [Kern.updCpu, h.cpus], h.cpunum, h.envsEnd, h.mm⟩

theorem Kern.SameCtl.setFreeList (h : s.SameCtl s') (l : Option ℕ) :
    Kern.SameCtl { s with envFreeList := l } { s' with envFreeList := l } :=
  ⟨h.envs, rfl, h.cpus, h.cpunum, h.envsEnd, h.mm⟩

theorem Kern.SameCtl.of_mm {m : Mm} (h : s.mm.Ext Obs.ofMm m) : s.SameCtl { s with mm := m } :=
  ⟨rfl, rfl, rfl, rfl, rfl, h⟩

/-- `env_free(e)` before it looks at the page directory. -/
def Kern.freeing (s : Kern) (e : ℕ) : Kern :=
  if s.curenv = some e then
    (s.log (.envFree e)).updCpu s.cpunum ({ · with cr3 := s.mm.kernPgdir })
  else s.log (.envFree e)

def Kern.freed (s : Kern) (e : ℕ) : Kern :=
  { ((s.freeing e).updEnv e ({ · with envPgdir := none })).updEnv e
      ({ · with envStatus := .free, envLink := s.envFreeList }) with envFreeList := some e }

theorem Kern.freeing_cpus (s : Kern) (e x : ℕ) : (s.freeing e).cpus x =
    if s.curenv = some e ∧ x = s.cpunum then { s.cpus x with cr3 := s.mm.kernPgdir }
    else s.cpus x := by
  unfold Kern.freeing
  by_cases hc : s.curenv = some e
  · by_cases hx : x = s.cpunum <;> simp [hc, hx, Kern.updCpu_cpus]
  · simp [hc]

@[simp] theorem Kern.freeing_envs (s : Kern) (e : ℕ) : (s.freeing e).envs = s.envs := by
  unfold Kern.freeing
  split <;> rfl

@[simp] theorem Kern.freeing_cpunum (s : Kern) (e : ℕ) : (s.freeing e).cpunum = s.cpunum := by
  unfold Kern.freeing
  split <;> rfl

@[simp] theorem Kern.freeing_envFreeList (s : Kern) (e : ℕ) :
    (s.freeing e).envFreeList = s.envFreeList := by
  unfold Kern.freeing
  split <;> rfl

@[simp] theorem Kern.freeing_mm (s : Kern) (e : ℕ) : (s.freeing e).mm = s.mm.log (.envFree e) := by
  unfold Kern.freeing
  split <;> rfl

theorem Kern.freed_envs (s : Kern) (e x : ℕ) : (s.freed e).envs x =
    if x = e then { s.envs x with
      envPgdir := none, envStatus := .free, envLink := s.envFreeList }
    else s.envs x := by
  by_cases hx : x = e <;> simp [Kern.freed, Kern.updEnv_envs, hx]

theorem Kern.freed_cpus (s : Kern) (e x : ℕ) : (s.freed e).cpus x =
    if s.curenv = some e ∧ x = s.cpunum then { s.cpus x with cr3 := s.mm.kernPgdir }
    else s.cpus x :=
  Kern.freeing_cpus s e x

@[simp] theorem Kern.freed_mm (s : Kern) (e : ℕ) : (s.freed e).mm = s.mm.log (.envFree e) :=
  Kern.freeing_mm s e

@[simp] theorem Kern.freed_cpunum (s : Kern) (e : ℕ) : (s.freed e).cpunum = s.cpunum :=
  Kern.freeing_cpunum s e

/-- `env_free` from where it looks at the page directory. -/
def envFreeDir (e : ℕ) : KernM Unit := do
  let d ← envPgdirPtr e
  let cr3 ← rcr3
  liftMm (forFrom (freePde cr3 d) 0 userPdes)
  modify (·.updEnv e ({ · with envPgdir := none }))
  liftMm (do
    let pp ← pa2page (page2pa d)
    pageDecref pp)
  modify fun s => s.updEnv e ({ · with envStatus := .free, envLink := s.envFreeList })
  modify ({ · with envFreeList := some e })

theorem wp_envFree_dir (h : wp (envFreeDir e) Q R (s.freeing e)) : wp (envFree e) Q R s := by
  rw [envFree, wp_bind, wp_modify, wp_bind, wp_get, wp_bind, wp_when]
  have hcur : (s.log (.envFree e)).curenv = s.curenv := rfl
  rw [hcur]
  refine ⟨fun hc => ?_, fun hc => ?_⟩
  · rw [lcr3, wp_modify]
    rw [Kern.freeing, if_pos hc] at h
    exact h
  · rw [Kern.freeing, if_neg hc] at h
    exact h

theorem wp_envFree (hret : ∀ s', (s.freed e).SameCtl s' → Q () s')
    (hstop : ∀ st s', st.bad → (s.freeing e).SameCtl s' ∨ ((s.freeing e).updEnv e ({ · with envPgdir := none })).SameCtl s' → R st s') :
    wp (envFree e) Q R s := by
  refine wp_envFree_dir ?_
  refine (keeps_envPgdirPtr e).wp_bind (fun d s₁ h₁ => ?_) fun st s' hb h => hstop st s' hb (.inl h)
  rw [wp_bind, rcr3, wp_gets]
  refine (Mm.Quiet.ctl (.forFrom (fun i => keeps_freePde _ d i) _ _)).wp_bind (fun _ s₂ h₂ => ?_)
    fun st s' hb h => hstop st s' hb (.inl (h₁.trans h))
  have h₂' := (h₁.trans h₂).updEnv e ({ · with envPgdir := none })
  rw [wp_bind, wp_modify]
  refine (Mm.Quiet.ctl (.bind (keeps_pa2page _) keeps_pageDecref)).wp_bind
    (fun _ s₃ h₃ => ?_) fun st s' hb h => hstop st s' hb (.inr (h₂'.trans h))
  have h₃' := h₂'.trans h₃
  rw [wp_bind, wp_modify, wp_modify]
  refine hret _ ?_
  have hl : s₃.envFreeList = s.envFreeList := by simpa using h₃'.envFreeList
  rw [hl]
  exact (h₃'.updEnv e ({ · with envStatus := .free, envLink := s.envFreeList })).setFreeList _

theorem wp_envDestroy
    (hmark : (s.envs e).envStatus = .running → s.curenv ≠ some e → Q () (s.updEnv e ({ · with envStatus := .dying })))
    (hother : ∀ s', ¬ ((s.envs e).envStatus = .running ∧ s.curenv ≠ some e) → (s.freed e).SameCtl s' → s.curenv ≠ some e → Q () s')
    (hself : ∀ s', (s.freed e).SameCtl s' → s.curenv = some e → wp schedYield (fun _ => Q ()) R (s'.updCpu s'.cpunum ({ · with cpuEnv := none })))
    (hstop : ∀ st s', ¬ ((s.envs e).envStatus = .running ∧ s.curenv ≠ some e) → st.bad → (s.freeing e).SameCtl s' ∨ ((s.freeing e).updEnv e ({ · with envPgdir := none })).SameCtl s' → R st s') :
    wp (envDestroy e) Q R s := by
  rw [envDestroy, wp_bind, wp_get, wp_ite]
  refine ⟨fun h => hmark h.1 h.2, fun h => ?_⟩
  rw [wp_bind]
  refine wp_envFree (fun s' hs' => ?_) fun st s' => hstop st s' h
  have hcur : s'.curenv = s.curenv := by
    rw [hs'.curenv, Kern.curenv, Kern.thiscpu, Kern.freed_cpus, Kern.freed_cpunum]
    split <;> rfl
  rw [wp_bind, wp_get, wp_ite, hcur]
  refine ⟨fun hc => ?_, fun hc => ?_⟩
  · rw [wp_bind, setCurenv, wp_modify]
    exact hself s' hs' hc
  · exact hother s' h hs' hc

theorem envDestroy_no_ret (hcur : s.curenv = some e) :
    wp (envDestroy e) (fun _ _ => False) (fun _ _ => True) s :=
  wp_envDestroy (fun _ h => absurd hcur h) (fun _ _ _ h => absurd hcur h)
    (fun _ _ _ => schedYield_no_ret _) fun _ _ _ _ _ => trivial

/-! ### Allocation -/

/-- The table after `env_alloc` took slot `e`. -/
def Kern.allocated (s : Kern) (e parentId d : ℕ) : Kern :=
  { (s.updEnv e ({ · with envPgdir := some d })).updEnv e (·.init e parentId) with
    envFreeList := (s.envs e).envLink }

theorem Kern.allocated_envs (s : Kern) (e parentId d x : ℕ) : (s.allocated e parentId d).envs x =
    if x = e then ({ s.envs x with envPgdir := some d } : Env).init e parentId
    else s.envs x := by
  by_cases hx : x = e <;> simp [Kern.allocated, Kern.updEnv_envs, hx]

theorem wp_envAlloc {parentId : ℕ} {Q : Except ℤ ℕ → Kern → Prop}
    (herr : ∀ r s', s.SameCtl s' → Q (.error r) s')
    (hok : ∀ e d s', s.envFreeList = some e → (s.allocated e parentId d).SameCtl s' → Q (.ok e) s')
    (hstop : ∀ st s', st.bad → s.SameCtl s' → R st s') : wp (envAlloc parentId) Q R s := by
  rw [envAlloc, wp_bind, wp_get]
  cases hl : s.envFreeList with
  | none => exact herr _ _ (SameCtl.refl s)
  | some e =>
    simp only [envSetupVm]
    rw [wp_bind]
    refine (keeps_pageAlloc _).ctl.wp_bind (fun p s₁ h₁ => ?_) hstop
    cases p with
    | none =>
      simp only
      rw [wp_pure, if_pos (by decide)]
      exact herr _ _ h₁
    | some p =>
      refine (keeps_kaddr _).ctl.wp_bind (fun d s₂ h₂ => ?_)
        fun st s' hb h => hstop st s' hb (h₁.trans h)
      rw [wp_bind, wp_modify, wp_bind]
      have h₂' := (h₁.trans h₂).updEnv e ({ · with envPgdir := some d })
      have hinit : s₂.mm.Ext Obs.ofMm (s₂.mm.initPgdir d) := Mm.Ext.of_eq rfl rfl rfl
      have h₃ := h₂'.trans (.of_mm hinit)
      rw [liftMm, wp_zoom, wp_modify, wp_pure, if_neg (by decide), wp_bind, wp_modify, wp_bind,
        wp_modify, wp_pure]
      refine hok e d _ hl ?_
      have h₄ := h₃.updEnv e (·.init e parentId)
      have h₅ := h₄.setFreeList (s.envs e).envLink
      have hlink := congrArg Env.envLink (congrFun h₄.envs e)
      refine ⟨h₅.envs, hlink.trans ?_, h₅.cpus, h₅.cpunum, h₅.envsEnd, h₅.mm⟩
      simp only [Kern.updEnv_envs_self, Env.init, Kern.allocated]

/-! ### Creation at start-up -/

/-- Only saved registers, page directories in use and memory may differ. -/
structure Kern.SameRun (s s' : Kern) : Prop where
  envs : ∀ x, ∃ tf, s'.envs x = { s.envs x with envTf := tf }
  cpus : ∀ c, ∃ p, s'.cpus c = { s.cpus c with cr3 := p }
  others : ∀ c ≠ s.cpunum, s'.cpus c = s.cpus c
  envFreeList : s'.envFreeList = s.envFreeList
  cpunum : s'.cpunum = s.cpunum
  mm : s.mm.Ext Obs.ofMm s'.mm

namespace Kern.SameRun

theorem refl (s : Kern) : s.SameRun s :=
  ⟨fun _ => ⟨_, rfl⟩, fun _ => ⟨_, rfl⟩, fun _ _ => rfl, rfl, rfl, Mm.Ext.refl _⟩

theorem same {a b c : Kern} (h : a.SameRun b) (h' : b.SameCtl c) : a.SameRun c :=
  ⟨by rw [h'.envs]; exact h.envs, by rw [h'.cpus]; exact h.cpus, by rw [h'.cpus]; exact h.others,
    h'.envFreeList.trans h.envFreeList,
    h'.cpunum.trans h.cpunum, h.mm.trans h'.mm⟩

theorem setTf {a b : Kern} (h : a.SameRun b) (e : ℕ) (f : Env → Trapframe) :
    a.SameRun (b.updEnv e fun x => { x with envTf := f x }) := by
  refine ⟨fun x => ?_, h.cpus, h.others, h.envFreeList, h.cpunum, h.mm⟩
  obtain ⟨tf, htf⟩ := h.envs x
  rw [Kern.updEnv_envs, htf]
  split
  · exact ⟨_, rfl⟩
  · exact ⟨_, rfl⟩

theorem setCr3 {a b : Kern} (h : a.SameRun b) (p : ℕ) :
    a.SameRun (b.updCpu b.cpunum ({ · with cr3 := p })) := by
  refine ⟨h.envs, fun x => ?_, fun x hx => ?_, h.envFreeList, h.cpunum, h.mm⟩
  · obtain ⟨p', hp'⟩ := h.cpus x
    rw [Kern.updCpu_cpus, hp']
    split
    · exact ⟨_, rfl⟩
    · exact ⟨_, rfl⟩
  · rw [Kern.updCpu_cpus, if_neg (h.cpunum ▸ hx), h.others x hx]

end Kern.SameRun

/-- What `env_create` makes of the environment it allocated. -/
def Env.created (x : Env) (type : EnvType) (entry : UInt32) : Env :=
  { x with
    envTf := { x.envTf with
      tfEflags := if type = .fs then x.envTf.tfEflags ||| flIopl3 else x.envTf.tfEflags
      tfEip := entry }
    envType := type }

theorem wp_envCreate {binary : Image} {type : EnvType}
    (hret : ∀ e d s', s.envFreeList = some e → (((s.allocated e 0 d).updEnv e (·.created type binary.entry)).updCpu s.cpunum ({ · with cr3 := s.mm.kernPgdir })).SameCtl s' → Q () s')
    (hstop : ∀ st s', st.bad → s.SameCtl s' ∨ (∃ e d, s.envFreeList = some e ∧ (s.allocated e 0 d).SameRun s') → R st s') :
    wp (envCreate binary type) Q R s := by
  rw [envCreate, wp_bind]
  refine wp_envAlloc (fun r s₁ h₁ => hstop _ _ rfl (.inl h₁)) (fun e d s₁ hl h₁ => ?_)
    fun st s' hb h => hstop st s' hb (.inl h)
  have hmid : ∀ {st s'}, st.bad → (s.allocated e 0 d).SameRun s' → R st s' :=
    fun hb h => hstop _ _ hb (.inr ⟨e, d, hl, h⟩)
  have hrun := (Kern.SameRun.refl _).same h₁
  -- the flags of a file server are set before its image is loaded
  let T : Trapframe → Trapframe := fun tf =>
    { tf with tfEflags := if type = .fs then tf.tfEflags ||| flIopl3 else tf.tfEflags }
  have hfs : wp (when (type = .fs) (modify (·.updEnv e fun x =>
      { x with envTf := { x.envTf with tfEflags := x.envTf.tfEflags ||| flIopl3 } })))
      (fun _ t => t = s₁.updEnv e fun x => { x with envTf := T x.envTf }) R s₁ := by
    rw [wp_when]
    refine ⟨fun ht => ?_, fun ht => ?_⟩
    · simp [T, ht]
    · simp [T, ht, Kern.updEnv]
  simp only
  refine hfs.bind fun _ s₂ h₂ => ?_
  subst h₂
  have hrun₂ := hrun.setTf e fun x => T x.envTf
  rw [wp_bind, loadIcode, wp_ite]
  refine ⟨fun _ => hmid rfl hrun₂, fun _ => ?_⟩
  refine (keeps_envPgdirPtr e).wp_bind (fun d' s₃ h₃ => ?_) fun st s' hb h =>
    hmid hb (hrun₂.same h)
  rw [wp_bind, lcr3, wp_modify]
  have h₃' : (((s.allocated e 0 d).updEnv e fun x => { x with envTf := T x.envTf }).updCpu s.cpunum
      ({ · with cr3 := d' })).SameCtl (s₃.updCpu s₃.cpunum ({ · with cr3 := d' })) := by
    have h := (h₁.updEnv e fun x => { x with envTf := T x.envTf }).trans h₃
    rw [h.cpunum]
    exact h.updCpu _ _
  have hrun₃ := (hrun₂.same h₃).setCr3 d'
  refine (keeps_loadSegments _ _ _).ctl.wp_bind (fun _ s₄ h₄ => ?_) fun st s' hb h =>
    hmid hb (hrun₃.same h)
  refine (keeps_regionAlloc _ _ _ _).ctl.wp_bind (fun _ s₅ h₅ => ?_) fun st s' hb h =>
    hmid hb ((hrun₃.same h₄).same h)
  have h₅' := (h₃'.trans h₄).trans h₅
  rw [wp_bind, wp_modify, wp_bind, wp_get, lcr3, wp_modify, wp_modify]
  refine hret e d _ hl ?_
  have h₆ := (h₅'.updEnv e fun x =>
    { x with envTf := { x.envTf with tfEip := binary.entry } }).updCpu s.cpunum
      ({ · with cr3 := s.mm.kernPgdir })
  have h₇ := h₆.updEnv e ({ · with envType := type })
  have hc : s₅.cpunum = s.cpunum := h₅'.cpunum
  have hk : s₅.mm.kernPgdir = s.mm.kernPgdir := h₅'.mm.kernPgdir
  simp only [Kern.updEnv_mm, Kern.updEnv_cpunum, hc, hk]
  convert h₇ using 1
  simp [Kern.updEnv, Kern.updCpu, Kern.allocated, Env.created, T]

end Jos
