/-
The shape of a kernel entry, for an arbitrary invariant.

`EntryStep ok K R P Q E` collects what has to be shown about the pieces of the
kernel so that every entry that meets `ok` leads from `P` to `Q`.  `P` and `Q`
are what holds while the kernel lock is free, `K` what holds inside the kernel,
`R` what holds when a trap is about to return, and `E` what holds where an
entry ends without returning.  `EntryStep.exec` follows `trap`, `trap_dispatch`
and the page fault handler once and for all.  For an invariant `P` and `Q` are
the same (`EntryInv`).
-/
import Jos.Kern.Frame

namespace Jos

open Prog

/-- Processor `c` is inside the kernel and marked as started. -/
def Kern.started (s : Kern) (c : ℕ) : Kern :=
  (s.enter c).updCpu c ({ · with cpuStatus := .started })

/-- Processor `c` trapped out of environment `e` and has saved the frame. -/
def Kern.entered (s : Kern) (c e : ℕ) (tf : Trapframe) : Kern :=
  (s.started c).updEnv e ({ · with envTf := tf })

@[simp] theorem Kern.started_curenv (s : Kern) (c : ℕ) :
    (s.started c).curenv = (s.cpus c).cpuEnv := by
  simp [Kern.curenv, Kern.thiscpu, Kern.started, Kern.enter, Kern.updCpu]

@[simp] theorem Kern.started_envs (s : Kern) (c : ℕ) : (s.started c).envs = s.envs := rfl

@[simp] theorem Kern.entered_curenv (s : Kern) (c e : ℕ) (tf : Trapframe) :
    (s.entered c e tf).curenv = (s.cpus c).cpuEnv :=
  Kern.started_curenv s c

/-- The state in which `env_pop_tf` leaves the kernel. -/
def Kern.popTf (s : Kern) (e : ℕ) : Kern :=
  (s.updEnv e ({ · with envCpunum := s.cpunum })).updCpu s.cpunum fun c =>
    { c with cs := (s.envs e).envTf.tfCs, eflags := (s.envs e).envTf.tfEflags }

theorem envPopTf_eq (s : Kern) (e : ℕ) : envPopTf e s = .stop .user (s.popTf e) := by
  simp [envPopTf, Kern.popTf, Kern.updEnv, Kern.updCpu, bind, Prog.modify, Prog.halt]

theorem curenvPtr_eq {s : Kern} {e : ℕ} (h : s.curenv = some e) : curenvPtr s = .ret e s := by
  simp [curenvPtr, bind, Prog.get, h, pure]

theorem curenvPtr_none {s : Kern} (h : s.curenv = none) : curenvPtr s = .stop .wild s := by
  simp [curenvPtr, bind, Prog.get, h, Prog.halt]

theorem envPgdirPtr_eq {s : Kern} {e d : ℕ} (h : (s.envs e).envPgdir = some d) :
    envPgdirPtr e s = .ret d s := by
  simp [envPgdirPtr, bind, Prog.get, h, pure]

theorem envPgdirPtr_none {s : Kern} {e : ℕ} (h : (s.envs e).envPgdir = none) :
    envPgdirPtr e s = .stop .wild s := by
  simp [envPgdirPtr, bind, Prog.get, h, Prog.halt]

/-- An update of an environment that touches general registers, `%eip`,
`%esp` and the page fault entry point only. -/
def OnlyRegs (f : Env → Env) : Prop :=
  ∀ x, ∃ regs eip esp upcall, f x = { x with
    envTf := { x.envTf with tfRegs := regs, tfEip := eip, tfEsp := esp }
    envPgfaultUpcall := upcall }

/-- A trap out of environment `e` on processor `c` that is not about to be
destroyed. -/
structure Traps (ok : Kern → ℕ × Event → Prop) (s : Kern) (c e : ℕ) (tf : Trapframe)
    (cr2 : ℕ) : Prop where
  ok : ok s (c, .trap tf cr2)
  frame : FrameFrom (s.cpus c).cs (s.cpus c).eflags tf
  cur : (s.cpus c).cpuEnv = some e
  alive : (s.envs e).envStatus ≠ .dying
  ring : tf.tfCs &&& 3 = 3

/-- What has to hold of the pieces for every entry to lead from `P` to `Q`. -/
structure EntryStep (ok : Kern → ℕ × Event → Prop) (K R P Q : Kern → Prop)
    (E : Stop → Kern → Prop) : Prop where
  left : ∀ {st s}, st.leaves → E st s → Q s
  bad : ∀ {st s}, K s → st.bad → E st s
  ring : ∀ {s c e tf cr2}, P s → ok s (c, .trap tf cr2) → (s.cpus c).cpuEnv = some e →
    (s.cpus c).cs &&& 3 = 3
  /-- Entering from user code, from a dying environment, and otherwise. -/
  save : ∀ {s c e tf cr2}, P s → Traps ok s c e tf cr2 → K (s.entered c e tf)
  reap : ∀ {s c e tf cr2}, P s → ok s (c, .trap tf cr2) → (s.cpus c).cpuEnv = some e →
    (s.envs e).envStatus = .dying →
      wp (do envFree e; setCurenv none; schedYield) (fun _ => Q) E (s.started c)
  enter : ∀ {s c}, P s → (s.cpus c).cpuEnv = none → K (s.enter c) ∧ K (s.started c)
  call : ∀ {s c e tf cr2}, P s → Traps ok s c e tf cr2 → tf.tfTrapno = tSyscall →
    wp (syscall tf.tfRegs.regEax tf.tfRegs.regEdx tf.tfRegs.regEcx tf.tfRegs.regEbx
        tf.tfRegs.regEdi tf.tfRegs.regEsi)
      (fun _ s' => R s' ∧ s'.curenv = some e) E (s.entered c e tf)
  /-- Inside the kernel. -/
  ready : ∀ {s}, K s → R s
  regs : ∀ {s e f}, K s → s.curenv = some e → OnlyRegs f → K (s.updEnv e f)
  regsReady : ∀ {s e f}, R s → s.curenv = some e → OnlyRegs f → R (s.updEnv e f)
  popTf : ∀ {s e}, R s → s.curenv = some e → K s ∨ (s.envs e).envStatus = .running →
    E .user (s.popTf e)
  sched : ∀ {s}, R s → wp schedYield (fun _ _ => False) E s
  destroy : ∀ {s e}, K s → s.curenv = some e → wp (envDestroy e) (fun _ _ => False) E s
  memAssert : ∀ {s e} va len perm, K s → s.curenv = some e →
    wp (userMemAssert e va len perm) (fun _ s' => K s' ∧ s'.curenv = some e) E s
  storeUtf : ∀ {s e} esp tf va, K s → s.curenv = some e →
    wp (liftMm (storeUtf s.thiscpu.cr3 (utfAddr esp) tf va))
      (fun _ s' => K s' ∧ s'.curenv = some e) E s
  tick : ∀ {s}, K s → wp timeTick (fun _ s' => K s') E s
  /-- Steps that are not traps. -/
  create : ∀ {s c binary type}, P s → ok s (c, .create binary type) →
    (s.cpus c).cpuStatus ≠ .halted → (s.cpus c).cpuEnv = none →
      wp (envCreate binary type) (fun _ => Q) E (s.enter c)
  store : ∀ {s c va b}, P s → ok s (c, .store va b) → (s.cpus c).cpuEnv ≠ none →
    wp (userStore va b) (fun _ => Q) E (s.enter c)
  device : ∀ {s c nic g}, P s → Q { s.enter c with nic := nic, consGetc := g }

/-- What has to hold of the pieces for `P` to be kept by every entry. -/
abbrev EntryInv (ok : Kern → ℕ × Event → Prop) (K R P : Kern → Prop) (E : Stop → Kern → Prop) :
    Prop :=
  EntryStep ok K R P P E

theorem EntryInv.no_ret {α : Type} {E : Stop → Kern → Prop} {s : Kern} {m : KernM α}
    {Q : α → Kern → Prop} (h : wp m (fun _ _ => False) E s) : wp m Q E s :=
  h.imp fun _ _ hf => hf.elim

open EntryInv (no_ret)

namespace EntryStep

variable {ok : Kern → ℕ × Event → Prop} {K R P Q : Kern → Prop} {E : Stop → Kern → Prop}
  {s : Kern} {c e cr2 : ℕ} {tf : Trapframe}

section

variable (I : EntryStep ok K R P Q E)
include I

theorem envRun_cur {T : Unit → Kern → Prop} (hR : R s) (hcur : s.curenv = some e)
    (h : K s ∨ (s.envs e).envStatus = .running) : wp (envRun e) T E s := by
  rw [envRun, wp_bind, wp_get, if_neg (not_not.mpr hcur), wp_of_stop (envPopTf_eq s e)]
  exact I.popTf hR hcur h

theorem trapReturn (hR : R s) : wp trapReturn (fun _ => Q) E s := by
  rw [Jos.trapReturn, wp_bind, wp_get]
  cases hcur : s.curenv with
  | none => exact no_ret (I.sched hR)
  | some e =>
    simp only
    rw [wp_ite]
    exact ⟨fun hrun => I.envRun_cur hR hcur (.inr hrun), fun _ => no_ret (I.sched hR)⟩

theorem pageFaultHandler (hK : K s) (hcur : s.curenv = some e) (hring : tf.tfCs &&& 3 = 3) (va : ℕ) :
    wp (pageFaultHandler tf va) (fun _ _ => False) E s := by
  have hcs : tf.tfCs &&& 3 ≠ 0 := by
    rw [hring]
    decide
  rw [Jos.pageFaultHandler, if_neg hcs, wp_bind_of_ret (curenvPtr_eq hcur), wp_bind, wp_get,
    wp_bind, wp_when]
  refine ⟨fun _ => no_ret (I.destroy hK hcur), fun _ => ?_⟩
  refine (I.memAssert _ _ _ hK hcur).bind fun _ s₁ h₁ => ?_
  obtain ⟨hK₁, hcur₁⟩ := h₁
  rw [wp_bind, rcr3, wp_gets]
  refine (I.storeUtf _ _ _ hK₁ hcur₁).bind fun _ s₂ h₂ => ?_
  obtain ⟨hK₂, hcur₂⟩ := h₂
  rw [wp_bind, wp_modify]
  have hK₃ := I.regs hK₂ hcur₂ (f := fun x => { x with envTf := { x.envTf with
    tfEip := .ofNat x.envPgfaultUpcall
    tfEsp := .ofNat (utfAddr tf.tfEsp.toNat) } }) fun x => ⟨_, _, _, _, rfl⟩
  exact I.envRun_cur (I.ready hK₃) hcur₂ (.inl hK₃)

theorem trapDispatch_user (hP : P s) (ht : Traps ok s c e tf cr2) :
    wp (trapDispatch tf (some e) cr2) (fun _ s' => R s') E (s.entered c e tf) := by
  have hK := I.save hP ht
  have hcur : (s.entered c e tf).curenv = some e := by rw [Kern.entered_curenv, ht.cur]
  have hback := I.ready hK
  unfold trapDispatch
  rw [wp_ite]
  refine ⟨fun _ => no_ret (I.pageFaultHandler hK hcur ht.ring cr2), fun _ => ?_⟩
  rw [wp_ite]
  refine ⟨fun _ => hback, fun _ => ?_⟩
  rw [wp_ite]
  refine ⟨fun hno => ?_, fun _ => ?_⟩
  · refine (I.call hP ht hno).bind fun r s' h => ?_
    exact I.regsReady h.1 h.2 fun x => ⟨_, _, _, _, rfl⟩
  rw [wp_ite]
  refine ⟨fun _ => hback, fun _ => ?_⟩
  rw [wp_ite]
  refine ⟨fun _ => ?_, fun _ => ?_⟩
  · rw [wp_bind]
    exact (I.tick hK).imp fun _ s' h => no_ret (I.sched (I.ready h))
  rw [wp_ite]
  refine ⟨fun _ => hback, fun _ => ?_⟩
  rw [wp_ite]
  refine ⟨fun _ => hback, fun _ => ?_⟩
  rw [wp_ite]
  refine ⟨fun _ => I.bad hK rfl, fun _ => ?_⟩
  rw [wp_bind_of_ret (curenvPtr_eq hcur)]
  exact no_ret (I.destroy hK hcur)

theorem trapDispatch_idle (hK : K s) (hcur : s.curenv = none) (trapno : UInt32) :
    wp (trapDispatch { tfTrapno := trapno, tfCs := UInt16.ofNat gdKt } none 0)
      (fun _ s' => R s') E s := by
  have hback := I.ready hK
  unfold trapDispatch
  rw [wp_ite]
  refine ⟨fun _ => ?_, fun _ => ?_⟩
  · rw [Jos.pageFaultHandler, if_pos (show UInt16.ofNat gdKt &&& 3 = 0 by decide), wp_halt]
    exact I.bad hK rfl
  rw [wp_ite]
  refine ⟨fun _ => hback, fun _ => ?_⟩
  rw [wp_ite]
  refine ⟨fun _ => ?_, fun _ => ?_⟩
  · -- a call number of zero: `sys_cputs`, which looks at `curenv` first
    have hsys : syscall 0 0 0 0 0 0 = (do sysCputs 0 0; pure 0) := rfl
    rw [wp_bind]
    show wp (syscall 0 0 0 0 0 0) _ E s
    rw [hsys, wp_bind, sysCputs, wp_bind, wp_of_stop (curenvPtr_none hcur)]
    exact I.bad hK rfl
  rw [wp_ite]
  refine ⟨fun _ => hback, fun _ => ?_⟩
  rw [wp_ite]
  refine ⟨fun _ => ?_, fun _ => ?_⟩
  · rw [wp_bind]
    exact (I.tick hK).imp fun _ s' h => no_ret (I.sched (I.ready h))
  rw [wp_ite]
  refine ⟨fun _ => hback, fun _ => ?_⟩
  rw [wp_ite]
  refine ⟨fun _ => hback, fun _ => ?_⟩
  rw [if_pos rfl, wp_halt]
  exact I.bad hK rfl

theorem trap_user (hP : P s) (hok : ok s (c, .trap tf cr2)) (hcur : (s.cpus c).cpuEnv = some e)
    (hf : FrameFrom (s.cpus c).cs (s.cpus c).eflags tf) : wp (trap tf cr2) (fun _ => Q) E (s.enter c) := by
  have hring : tf.tfCs &&& 3 = 3 := (hf (I.ring hP hok hcur)).1
  have hcur' : (s.started c).curenv = some e := by rw [Kern.started_curenv, hcur]
  rw [Jos.trap, wp_bind, wp_modify]
  show wp _ _ E (s.started c)
  rw [if_pos hring, wp_bind, wp_get, hcur']
  simp only
  rw [wp_ite]
  refine ⟨fun hd => I.reap hP hok hcur hd, fun hd => ?_⟩
  rw [wp_bind, wp_modify, wp_bind]
  show wp _ _ E (s.entered c e tf)
  refine (I.trapDispatch_user hP ⟨hok, hf, hcur, hd, hring⟩).imp fun _ s' h => ?_
  exact I.trapReturn h

theorem trap_idle (hP : P s) (hcur : (s.cpus c).cpuEnv = none) (trapno : UInt32) :
    wp (trap { tfTrapno := trapno, tfCs := UInt16.ofNat gdKt } 0) (fun _ => Q) E
      (s.enter c) := by
  have hcur' : (s.started c).curenv = none := by rw [Kern.started_curenv, hcur]
  rw [Jos.trap, wp_bind, wp_modify]
  show wp _ _ E (s.started c)
  rw [if_neg (show ¬ UInt16.ofNat gdKt &&& 3 = 3 by decide)]
  refine (I.trapDispatch_idle (I.enter hP hcur).2 hcur' trapno).bind fun _ s' h => ?_
  exact I.trapReturn h

theorem exec (hP : P s) {ev : Event} (hen : ev.Enabled s c) (hok : ok s (c, ev)) :
    wp ev.exec (fun _ => Q) E (s.enter c) := by
  cases ev with
  | trap tf cr2 =>
    obtain ⟨e, hcur⟩ := Option.ne_none_iff_exists'.mp hen.1
    exact I.trap_user hP hok hcur hen.2
  | intr trapno => exact I.trap_idle hP hen.2 trapno
  | start => exact no_ret (I.sched (I.ready (I.enter hP hen.2).1))
  | store va b => exact I.store hP hok hen
  | create binary type => exact I.create hP hok hen.1 hen.2
  | device nic g => exact I.device hP

theorem step (hP : P s) {l : ℕ × Event} (hok : ok s l) {s' : Kern} (h : s.step l = some s') : Q s' := by
  obtain ⟨hen, hleft⟩ := Kern.step_eq_some h
  refine left_of_wp ((I.exec hP hen hok).mono (fun _ _ h => h) fun _ _ hE hl => ?_) hleft
  exact I.left hl hE

end

theorem reach (I : EntryInv ok K R P E) {s₀ : Kern} (h₀ : P s₀)
    (h : Sys.Reach Kern.step ok s₀ s) : P s :=
  h.inv h₀ fun _ _ _ hP hok hs => I.step hP hok hs

end EntryStep

end Jos
