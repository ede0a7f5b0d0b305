/-
Invariants of the environment table and the processors.

For an invariant that memory cannot disturb, most of what `EntryInv` asks for
is the same each time.  `CtlStep` asks only for the states in which the kernel
changes the table or the processors, and `CtlCalls` for the six calls that do
so in ways of their own; `CtlStep.entry` supplies the rest.  `CtlInv` is the
case of an invariant.
-/
import Jos.Kern.Boot

namespace Jos

open Prog
open Kern (SameCtl)

/-- The calls that change the environment table or the scheduler's state. -/
def Sysno.ctl : Sysno → Bool
  | .envDestroy => true
  | .exofork => true
  | .envSetStatus => true
  | .envSetTrapframe => true
  | .ipcTrySend => true
  | .ipcRecv => true
  | _ => false

structure CtlStep (ok : Kern → ℕ × Event → Prop) (K R P Q : Kern → Prop)
    (E : Stop → Kern → Prop) : Prop where
  left : ∀ {st s}, st.leaves → E st s → Q s
  bad : ∀ {st s}, R s → st.bad → E st s
  ring : ∀ {s c e tf cr2}, P s → ok s (c, .trap tf cr2) → (s.cpus c).cpuEnv = some e →
    (s.cpus c).cs &&& 3 = 3
  save : ∀ {s c e tf cr2}, P s → Traps ok s c e tf cr2 → K (s.entered c e tf)
  dying : ∀ {s c e tf cr2}, P s → ok s (c, .trap tf cr2) → (s.cpus c).cpuEnv = some e →
    (s.envs e).envStatus = .dying → K (s.started c)
  enter : ∀ {s c}, P s → (s.cpus c).cpuEnv = none → K (s.enter c) ∧ K (s.started c)
  ready : ∀ {s}, K s → R s
  same : ∀ {s s'}, K s → s.SameCtl s' → K s'
  regs : ∀ {s e f}, K s → OnlyRegs f → K (s.updEnv e f)
  regsReady : ∀ {s e f}, R s → OnlyRegs f → R (s.updEnv e f)
  /-- Freeing the current environment. -/
  freeing : ∀ {s e st s'}, K s → s.curenv = some e → st.bad →
    (s.freeing e).SameCtl s' ∨ ((s.freeing e).updEnv e ({ · with envPgdir := none })).SameCtl s' →
    E st s'
  freed : ∀ {s e}, K s → s.curenv = some e →
    K ((s.freed e).updCpu s.cpunum ({ · with cpuEnv := none }))
  /-- Leaving the kernel. -/
  popTf : ∀ {s e}, R s → s.curenv = some e → K s ∨ (s.envs e).envStatus = .running →
    E .user (s.popTf e)
  again : ∀ {s e}, R s → s.curenv = some e → s.schedScan s.schedStart nenv = some e →
    E .user (s.popTf e)
  run : ∀ {s e d}, R s → s.curenv ≠ some e → e < nenv → (s.envs e).envStatus = .runnable →
    (s.envs e).envPgdir = some d → E .user (s.runEnv e d)
  runNull : ∀ {s e}, R s → s.curenv ≠ some e → e < nenv → (s.envs e).envStatus = .runnable →
    (s.envs e).envPgdir = none → E .wild (s.resume e)
  idle : ∀ {s}, R s → (∀ c, s.curenv = some c → (s.envs c).envStatus ≠ .running) →
    E .halted s.idle
  /-- Steps that are not traps. -/
  created : ∀ {s c e d binary type s'}, P s → ok s (c, .create binary type) →
    (s.cpus c).cpuEnv = none → s.envFreeList = some e →
    ((((s.enter c).allocated e 0 d).updEnv e (·.created type binary.entry)).updCpu c
      ({ · with cr3 := s.mm.kernPgdir })).SameCtl s' → Q s'
  creating : ∀ {s c e d st s'}, P s → (s.cpus c).cpuEnv = none → s.envFreeList = some e →
    st.bad → ((s.enter c).allocated e 0 d).SameRun s' → E st s'
  quiet : ∀ {s c s'}, P s → (s.enter c).SameCtl s' → Q s'
  quietBad : ∀ {s c st s'}, P s → (s.enter c).SameCtl s' → st.bad → E st s'

abbrev CtlInv (ok : Kern → ℕ × Event → Prop) (K R P : Kern → Prop) (E : Stop → Kern → Prop) :
    Prop :=
  CtlStep ok K R P P E

/-- What the six calls have to do. -/
def CtlCalls (ok : Kern → ℕ × Event → Prop) (R P : Kern → Prop) (E : Stop → Kern → Prop) : Prop :=
  ∀ s c e tf cr2 no, P s → Traps ok s c e tf cr2 → tf.sysno = some no → no.ctl →
    wp (no.run tf.arg1 tf.arg2 tf.arg3 tf.arg4 tf.arg5)
      (fun _ s' => R s' ∧ s'.curenv = some e) E (s.entered c e tf)

namespace CtlStep

variable {ok : Kern → ℕ × Event → Prop} {K R P Q : Kern → Prop} {E : Stop → Kern → Prop}
  {s : Kern} {e : ℕ}

section

variable (I : CtlStep ok K R P Q E)
include I

theorem keeps {α : Type} {m : KernM α} (hm : Keeps SameCtl Stop.bad m) (hK : K s) :
    wp m (fun _ s' => K s' ∧ s'.curenv = s.curenv) E s :=
  hm.wp (fun _ _ h => ⟨I.same hK h, h.curenv⟩) fun _ _ hb h => I.bad (I.ready (I.same hK h)) hb

theorem keeps_call {α : Type} {m : KernM α} (hm : Keeps SameCtl Stop.bad m) (hK : K s)
    (hcur : s.curenv = some e) : wp m (fun _ s' => R s' ∧ s'.curenv = some e) E s :=
  (I.keeps hm hK).imp fun _ _ h => ⟨I.ready h.1, h.2.trans hcur⟩

theorem sched (hR : R s) : wp schedYield (fun _ _ => False) E s := by
  refine wp_schedYield (fun j hj hlt => ?_) (fun c hc hr => I.popTf hR hc (.inr hr))
    (fun h => I.idle hR h) (I.bad hR rfl) (I.bad hR rfl)
  by_cases hcur : s.curenv = some j
  · rw [wp_of_stop (envRun_same hcur)]
    exact I.again hR hcur hj
  · have hst := Kern.schedScan_runnable hj hlt
    cases hd : (s.envs j).envPgdir with
    | none =>
      rw [wp_of_stop (envRun_null hcur hd)]
      exact I.runNull hR hcur hlt hst hd
    | some d =>
      rw [wp_of_stop (envRun_switch hcur hd)]
      exact I.run hR hcur hlt hst hd

theorem freedNone {s' : Kern} (hK : K s) (hcur : s.curenv = some e) (h : (s.freed e).SameCtl s') :
    K (s'.updCpu s'.cpunum ({ · with cpuEnv := none })) := by
  refine I.same (I.freed hK hcur) ?_
  have hc : s'.cpunum = s.cpunum := by rw [h.cpunum, Kern.freed_cpunum]
  rw [hc]
  exact h.updCpu _ _

theorem destroy (hK : K s) (hcur : s.curenv = some e) : wp (envDestroy e) (fun _ _ => False) E s := by
  refine wp_envDestroy (fun _ h => absurd hcur h) (fun _ _ _ h => absurd hcur h)
    (fun s' h _ => ?_) fun st s' _ hb h => I.freeing hK hcur hb h
  exact I.sched (I.ready (I.freedNone hK hcur h))

theorem memAssert (va len perm : ℕ) (hK : K s) (hcur : s.curenv = some e) :
    wp (userMemAssert e va len perm) (fun _ s' => K s' ∧ s'.curenv = some e) E s := by
  rw [userMemAssert]
  refine (I.keeps (keeps_envPgdirPtr e) hK).bind fun d s₁ h₁ => ?_
  refine (I.keeps (keeps_userMemCheck _ _ _ _).ctl h₁.1).bind fun r s₂ h₂ => ?_
  have hcur₂ : s₂.curenv = some e := by rw [h₂.2, h₁.2, hcur]
  rw [wp_when]
  exact ⟨fun _ => EntryInv.no_ret (I.destroy h₂.1 hcur₂), fun _ => ⟨h₂.1, hcur₂⟩⟩

theorem cputs (str len : ℕ) (hK : K s) (hcur : s.curenv = some e) :
    wp (sysCputs str len) (fun _ s' => K s' ∧ s'.curenv = some e) E s := by
  rw [sysCputs, wp_bind, wp_of_ret (curenvPtr_eq hcur)]
  refine (I.memAssert _ _ _ hK hcur).bind fun _ s₁ h₁ => ?_
  rw [wp_bind, rcr3, wp_gets, wp_when]
  refine ⟨fun _ => ?_, fun _ => h₁⟩
  refine (I.keeps (keeps_printChars _ _ _ _).ctl h₁.1).imp fun _ s₂ h₂ => ?_
  exact ⟨h₂.1, h₂.2.trans h₁.2⟩

theorem setPgfaultUpcall (envid func : ℕ) (hK : K s) (hcur : s.curenv = some e) :
    wp (sysEnvSetPgfaultUpcall envid func) (fun _ s' => R s' ∧ s'.curenv = some e) E s := by
  rw [sysEnvSetPgfaultUpcall, wp_bind_of_ret (envid2env_eq hcur envid true)]
  cases s.envOf envid true with
  | none => exact ⟨I.ready hK, hcur⟩
  | some e' =>
    simp only
    rw [wp_bind, wp_modify, wp_pure]
    exact ⟨I.ready (I.regs hK fun x => ⟨_, _, _, _, rfl⟩), hcur⟩

theorem syscall_entered {c cr2 : ℕ} {tf : Trapframe} (hcalls : CtlCalls ok R P E) (hP : P s)
    (ht : Traps ok s c e tf cr2) (hno : tf.tfTrapno = tSyscall) :
    wp (syscall tf.tfRegs.regEax tf.tfRegs.regEdx tf.tfRegs.regEcx tf.tfRegs.regEbx
        tf.tfRegs.regEdi tf.tfRegs.regEsi)
      (fun _ s' => R s' ∧ s'.curenv = some e) E (s.entered c e tf) := by
  have hK := I.save hP ht
  have hcur : (s.entered c e tf).curenv = some e := by rw [Kern.entered_curenv, ht.cur]
  rw [syscall]
  cases hd : Sysno.decode tf.tfRegs.regEax.toNat with
  | none => exact ⟨I.ready hK, hcur⟩
  | some no =>
    simp only
    cases hctl : no.ctl with
    | true => exact hcalls _ _ _ _ _ _ hP ht (Trapframe.sysno_eq hno hd) hctl
    | false =>
      -- what is left does not change the table, or only registers in it
      cases no with
      | cputs =>
        rw [Sysno.run, wp_bind]
        exact (I.cputs _ _ hK hcur).imp fun _ _ h => ⟨I.ready h.1, h.2⟩
      | cgetc => exact I.keeps_call (.gets _) hK hcur
      | getenvid => exact I.keeps_call keeps_sysGetenvid hK hcur
      | pageAlloc => exact I.keeps_call (keeps_sysPageAlloc _ _ _) hK hcur
      | pageMap => exact I.keeps_call (keeps_sysPageMap _ _ _ _ _) hK hcur
      | pageUnmap => exact I.keeps_call (keeps_sysPageUnmap _ _) hK hcur
      | envSetPgfaultUpcall => exact I.setPgfaultUpcall _ _ hK hcur
      | yield =>
        rw [Sysno.run, wp_bind]
        exact EntryInv.no_ret (I.sched (I.ready hK))
      | timeMsec => exact I.keeps_call (.gets _) hK hcur
      | sendPacket => exact I.keeps_call (keeps_sysSendPacket _ _) hK hcur
      | rcvPacket => exact I.keeps_call (keeps_sysRcvPacket _ _) hK hcur
      | envDestroy => cases hctl
      | exofork => cases hctl
      | envSetStatus => cases hctl
      | envSetTrapframe => cases hctl
      | ipcTrySend => cases hctl
      | ipcRecv => cases hctl

theorem entry (hcalls : CtlCalls ok R P E) :
    EntryStep ok K R P Q E where
  left := I.left
  bad hK hb := I.bad (I.ready hK) hb
  ring := I.ring
  save := I.save
  reap := by
    intro s c e tf cr2 hP hok hcur hd
    have hK := I.dying hP hok hcur hd
    have hcur' : (s.started c).curenv = some e := by rw [Kern.started_curenv, hcur]
    rw [wp_bind]
    refine wp_envFree (fun s' h => ?_) fun st s' hb h => I.freeing hK hcur' hb h
    rw [wp_bind, setCurenv, wp_modify]
    exact EntryInv.no_ret (I.sched (I.ready (I.freedNone hK hcur' h)))
  enter := I.enter
  call := I.syscall_entered hcalls
  ready := I.ready
  regs hK _ hf := I.regs hK hf
  regsReady hR _ hf := I.regsReady hR hf
  popTf := I.popTf
  sched := I.sched
  destroy := I.destroy
  memAssert := I.memAssert
  storeUtf _ tf va hK hcur :=
    (I.keeps (keeps_storeUtf _ _ _ _).ctl hK).imp
      fun _ _ h => ⟨h.1, h.2.trans hcur⟩
  tick hK := (I.keeps keeps_timeTick hK).imp fun _ _ h => h.1
  create := by
    intro s c binary type hP hok _ hcur
    refine wp_envCreate (fun e d s' hl h => I.created hP hok hcur hl h) fun st s' hb h => ?_
    rcases h with h | ⟨e, d, hl, h⟩
    · exact I.quietBad hP h hb
    · exact I.creating hP hcur hl hb h
  store := by
    intro s c va b hP _ _
    exact (keeps_userStore va b).wp (fun _ _ h => I.quiet hP h) fun _ _ hb h => I.quietBad hP h hb
  device hP := I.quiet hP ⟨rfl, rfl, rfl, rfl, rfl, Mm.Ext.refl _⟩

end

end CtlStep

end Jos
