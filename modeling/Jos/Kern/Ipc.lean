/-
Messages are delivered exactly once.

The history of a run holds, newest first, every receive that blocked, every
send that succeeded and every `env_free`.  For one slot of the environment
table these alternate (`Unmixed`): a send comes right after the receive it
completes, and a receive never right after another one.  The newest of them
tells whether the slot is waiting, and otherwise which message its fields hold
(`Env.Waits`).

* `ipc_exactly_once` — every run whose steps meet `IpcCond`;
* `ipc_receives_merged` — an environment that runs on two processors blocks
  twice, and one send completes both.
-/
import Jos.Kern.Rights
import Jos.Kern.Isolation

namespace Jos

open Prog
open Kern (SameCtl)

/-! ### Histories -/

/-- The observation is a receive, send or `env_free` of slot `d`. -/
def Obs.about (d : ℕ) : Obs → Bool
  | .ipcRecv x => x = d
  | .ipcSend _ x _ _ => x = d
  | .envFree x => x = d
  | _ => false

def lastAbout (d : ℕ) (H : List Obs) : Option Obs := H.find? (·.about d)

/-- What may follow history `H`. -/
def Obs.Follows (d : ℕ) (H : List Obs) : Obs → Prop
  | .ipcRecv x => x = d → lastAbout d H ≠ some (.ipcRecv d)
  | .ipcSend _ x _ _ => x = d → lastAbout d H = some (.ipcRecv d)
  | _ => True

/-- Every send to slot `d` follows a receive of `d`, and no receive of `d`
follows another one. -/
def Unmixed (d : ℕ) : List Obs → Prop
  | [] => True
  | o :: H => o.Follows d H ∧ Unmixed d H

/-- The fields of a slot, by the newest observation about it. -/
def Env.Waits (x : Env) : Option Obs → Prop
  | some (.ipcRecv _) => x.envStatus = .notRunnable ∧ x.envIpcRecving
  | some (.ipcSend sender _ value perm) => x.envStatus ≠ .free ∧ ¬ x.envIpcRecving ∧
      x.envIpcFrom = sender ∧ x.envIpcValue = value ∧ x.envIpcPerm = perm
  | _ => x.envStatus = .free ∨ ¬ x.envIpcRecving

/-- Slot `d` went through history `H` and now is `x`. -/
structure Tracked (d : ℕ) (H : List Obs) (x : Env) : Prop where
  unmixed : Unmixed d H
  waits : x.Waits (lastAbout d H)

/-- Changes a waiting environment does not see. -/
structure Env.IpcEq (x y : Env) : Prop where
  free : y.envStatus = .free ↔ x.envStatus = .free
  waiting : x.envIpcRecving → y.envStatus = x.envStatus
  recving : y.envIpcRecving = x.envIpcRecving
  sender : y.envIpcFrom = x.envIpcFrom
  value : y.envIpcValue = x.envIpcValue
  perm : y.envIpcPerm = x.envIpcPerm

theorem Env.IpcEq.refl (x : Env) : x.IpcEq x := ⟨Iff.rfl, fun _ => rfl, rfl, rfl, rfl, rfl⟩

theorem Env.IpcEq.of_eq {x y : Env} (h : y = x) : x.IpcEq y := h ▸ .refl x

theorem Env.Waits.cons_self {d : ℕ} {o : Obs} {H : List Obs} {x : Env} (ho : o.about d = true)
    (hx : x.Waits (some o)) : x.Waits (lastAbout d (o :: H)) := by
  rw [lastAbout, List.find?_cons_of_pos ho]
  exact hx

theorem lastAbout_cons_other {d : ℕ} {o : Obs} (h : ¬ o.about d) (H : List Obs) :
    lastAbout d (o :: H) = lastAbout d H :=
  List.find?_cons_of_neg h

namespace Tracked

variable {d : ℕ} {H : List Obs} {x y : Env}

section

variable (h : Tracked d H x)
include h

theorem congr (hxy : x.IpcEq y) : Tracked d H y where
  unmixed := h.unmixed
  waits := by
    have hw := h.waits
    unfold Env.Waits at hw ⊢
    split at hw
    · rw [hxy.waiting hw.2, hxy.recving]
      exact hw
    · rw [Ne, hxy.free, hxy.recving, hxy.sender, hxy.value, hxy.perm]
      exact hw
    · rw [hxy.free, hxy.recving]
      exact hw

theorem skip {o : Obs} (ho : ¬ o.about d) : Tracked d (o :: H) x where
  unmixed := by
    refine ⟨?_, h.unmixed⟩
    cases o with
    | ipcRecv z => exact fun hz => absurd (decide_eq_true hz) ho
    | ipcSend _ z _ _ => exact fun hz => absurd (decide_eq_true hz) ho
    | _ => trivial
  waits := by
    rw [lastAbout_cons_other ho]
    exact h.waits

theorem append {l : List Obs} (hl : ∀ o ∈ l, o.ofMm) : Tracked d (l ++ H) x := by
  induction l with
  | nil => exact h
  | cons o l ih =>
    refine skip (ih fun o' ho' => hl o' (List.mem_cons_of_mem o ho')) ?_
    have ho := hl o List.mem_cons_self
    cases o <;> first | exact Bool.false_ne_true | cases ho

theorem recv (hx : x.envStatus ≠ .notRunnable) (hy : y.envStatus = .notRunnable ∧ y.envIpcRecving) :
    Tracked d (.ipcRecv d :: H) y where
  unmixed := by
    refine ⟨fun _ hlast => ?_, h.unmixed⟩
    have hw := h.waits
    rw [hlast] at hw
    exact hx hw.1
  waits := .cons_self (decide_eq_true rfl) hy

theorem last_recv (hx : x.envStatus ≠ .free) (hr : x.envIpcRecving) :
    lastAbout d H = some (.ipcRecv d) := by
  have hw := h.waits
  unfold Env.Waits at hw
  split at hw
  · next z hlast =>
    have hz : (Obs.ipcRecv z).about d = true := List.find?_some hlast
    rw [hlast, show z = d from of_decide_eq_true hz]
  · exact absurd hr hw.2.1
  · exact absurd hr (hw.resolve_left hx)

theorem send (hx : x.envStatus ≠ .free) (hr : x.envIpcRecving) {sender value perm : ℕ}
    (hne : y.envStatus ≠ .free) (hyr : ¬ y.envIpcRecving)
    (hy : y.envIpcFrom = sender ∧ y.envIpcValue = value ∧ y.envIpcPerm = perm) :
    Tracked d (.ipcSend sender d value perm :: H) y where
  unmixed := ⟨fun _ => h.last_recv hx hr, h.unmixed⟩
  waits := .cons_self (decide_eq_true rfl) ⟨hne, hyr, hy⟩

theorem free (hy : y.envStatus = .free) : Tracked d (.envFree d :: H) y where
  unmixed := ⟨trivial, h.unmixed⟩
  waits := .cons_self (decide_eq_true rfl) (.inl hy)

theorem alloc (hx : x.envStatus = .free) (hy : ¬ y.envIpcRecving) :
    Tracked d H y where
  unmixed := h.unmixed
  waits := by
    have hw := h.waits
    unfold Env.Waits at hw ⊢
    split at hw
    · rw [hx] at hw
      cases hw.1
    · exact absurd hx hw.1
    · exact .inr hy

end

end Tracked

/-! ### The invariant -/

/-- Every slot has gone through the history. -/
def IpcAt (H : List Obs) (s : Kern) : Prop := ∀ d < nenv, Tracked d H (s.envs d)

/-- Inside an entry: the history before it is `h`. -/
def IpcIn (h : List Obs) (s : Kern) : Prop := IpcAt (s.mm.trace ++ h) s

section Invariant

variable {h : List Obs} {s s' : Kern} {e : ℕ}

/-- Nothing about messages happened. -/
structure Kern.IpcSame (s s' : Kern) : Prop where
  envs : ∀ d, (s.envs d).IpcEq (s'.envs d)
  trace : ∃ l, s'.mm.trace = l ++ s.mm.trace ∧ ∀ o ∈ l, o.ofMm

theorem Kern.SameCtl.ipcSame (hs : s.SameCtl s') : s.IpcSame s' :=
  ⟨fun d => .of_eq (by rw [hs.envs]), hs.mm.trace⟩

theorem Kern.IpcSame.of_mm (henvs : ∀ d, (s.envs d).IpcEq (s'.envs d)) (hmm : s'.mm = s.mm) :
    s.IpcSame s' :=
  ⟨henvs, [], by rw [hmm]; rfl, fun _ ho => absurd ho List.not_mem_nil⟩

theorem IpcIn.same (hi : IpcIn h s) (hs : s.IpcSame s') : IpcIn h s' := by
  intro d hd
  obtain ⟨l, hl, hlo⟩ := hs.trace
  rw [hl, List.append_assoc]
  exact ((hi d hd).congr (hs.envs d)).append hlo

theorem IpcIn.updEnv (hi : IpcIn h s) (e : ℕ) {f : Env → Env} (hf : (s.envs e).IpcEq (f (s.envs e))) :
    IpcIn h (s.updEnv e f) := by
  refine hi.same (.of_mm (fun d => ?_) rfl)
  rw [Kern.updEnv_envs]
  split
  · next hd => exact hd ▸ hf
  · exact .refl _

theorem IpcIn.slot (hi : IpcIn h s) {o : Obs} (hother : ∀ d ≠ e, s'.envs d = s.envs d)
    (htrace : s'.mm.trace = o :: s.mm.trace) (hself : ∀ d ≠ e, ¬ o.about d)
    (he : Tracked e (s.mm.trace ++ h) (s.envs e) → Tracked e (o :: (s.mm.trace ++ h)) (s'.envs e)) :
    IpcIn h s' := by
  intro d hd
  rw [htrace]
  by_cases hde : d = e
  · subst hde
    exact he (hi d hd)
  · rw [hother d hde]
    exact (hi d hd).skip (hself d hde)

theorem IpcIn.freed (hi : IpcIn h s) (e : ℕ) : IpcIn h (s.freed e) := by
  refine hi.slot (e := e) (o := .envFree e) (fun d hd => ?_) ?_ (fun d hd => ?_) fun ht => ?_
  · rw [Kern.freed_envs, if_neg hd]
  · rw [Kern.freed_mm]
    rfl
  · simpa [Obs.about] using Ne.symm hd
  · refine ht.free ?_
    rw [Kern.freed_envs, if_pos rfl]

theorem IpcIn.allocated (hi : IpcIn h s) (hr : RunCore s) {parentId d : ℕ}
    (hl : s.envFreeList = some e) : IpcIn h (s.allocated e parentId d) := by
  intro x hx
  show Tracked x (s.mm.trace ++ h) _
  rw [Kern.allocated_envs]
  split
  · next hxe =>
    subst hxe
    obtain ⟨l, hlink, hfree⟩ := hr.list
    rw [hl] at hlink
    obtain ⟨rest, hrest, -⟩ := hlink.pop
    exact (hi x hx).alloc (hfree x (hrest ▸ List.mem_cons_self)).2 Bool.false_ne_true
  · exact hi x hx

theorem Env.IpcEq.status {x : Env} {st : EnvStatus} (hr : ¬ x.envIpcRecving)
    (hfree : x.envStatus ≠ .free) (hst : st ≠ .free) : x.IpcEq { x with envStatus := st } :=
  ⟨iff_of_false hst hfree, fun h => absurd h hr, rfl, rfl, rfl, rfl⟩

theorem IpcIn.not_recving (hi : IpcIn h s) (he : e < nenv) (hfree : (s.envs e).envStatus ≠ .free)
    (hst : (s.envs e).envStatus ≠ .notRunnable) : ¬ (s.envs e).envIpcRecving := by
  intro hr
  have hw := (hi e he).waits
  rw [(hi e he).last_recv hfree hr] at hw
  exact hst hw.1

end Invariant

/-! ### Every entry keeps it -/

/-- `sys_env_set_status` is not aimed at an environment that waits. -/
def Kern.NoWake (s : Kern) (l : ℕ × Event) : Prop :=
  ∀ tf ∈ l.2.frame, tf.sysno = some .envSetStatus →
    ∀ e ∈ (s.enter l.1).envOf tf.arg1 true, ¬ (s.envs e).envIpcRecving

/-- The run state and the messages, inside an entry, before it returns, and
where it ends. -/
def IpcRun (h : List Obs) (s : Kern) : Prop := RunInv s ∧ IpcIn h s
def IpcReady (h : List Obs) (s : Kern) : Prop := RunReady s ∧ IpcIn h s
def IpcEnd (h : List Obs) (st : Stop) (s : Kern) : Prop := RunEnd st s ∧ (st.leaves → IpcIn h s)

section Entry

variable {h : List Obs} {s s' : Kern} {e : ℕ}

theorem IpcEnd.of_bad {st : Stop} (hr : RunEnd st s) (hb : st.bad) : IpcEnd h st s :=
  ⟨hr, fun hl => by rw [Stop.bad, hl] at hb; cases hb⟩

theorem Traps.run {c cr2 : ℕ} {tf : Trapframe}
    (ht : Traps (fun s l => RunCond s l ∧ s.NoWake l) s c e tf cr2) : Traps RunCond s c e tf cr2 :=
  ⟨ht.ok.1, ht.frame, ht.cur, ht.alive, ht.ring⟩

theorem OnlyRegs.ipcEq {f : Env → Env} (hf : OnlyRegs f) (x : Env) : x.IpcEq (f x) := by
  obtain ⟨_, _, _, _, hx⟩ := hf x
  rw [hx]
  exact ⟨Iff.rfl, fun _ => rfl, rfl, rfl, rfl, rfl⟩

theorem IpcIn.popTf (hi : IpcIn h s) (e : ℕ) : IpcIn h (s.popTf e) := by
  refine hi.same (.of_mm (fun d => ?_) rfl)
  rw [Kern.popTf_envs]
  exact ⟨Iff.rfl, fun _ => rfl, rfl, rfl, rfl, rfl⟩

theorem IpcIn.run (hi : IpcIn h s) (hcur : ∀ c, s.curenv = some c → c < nenv) (he : e < nenv)
    (hst : (s.envs e).envStatus = .runnable) (d : ℕ) : IpcIn h (s.runEnv e d) := by
  refine hi.same (.of_mm (fun x => ?_) (Kern.runEnv_mm s e d))
  rw [Kern.runEnv_envs]
  refine ⟨?_, fun hr => ?_, rfl, rfl, rfl, rfl⟩
  · by_cases hx : x = e
    · subst hx
      simp [hst]
    · by_cases hrun : s.curenv = some x ∧ (s.envs x).envStatus = .running
      · simp [hx, hrun]
      · simp [hx, hrun]
  · have hne : x ≠ e := by
      rintro rfl
      exact hi.not_recving he (by rw [hst]; decide) (by rw [hst]; decide) hr
    have hrun : ¬ (s.curenv = some x ∧ (s.envs x).envStatus = .running) := by
      rintro ⟨hc, hrun⟩
      exact hi.not_recving (hcur x hc) (by rw [hrun]; decide) (by rw [hrun]; decide) hr
    show (if x = e then _ else _) = _
    rw [if_neg hne, if_neg hrun]

theorem ipc_ctl (h : List Obs) : CtlStep (fun s l => RunCond s l ∧ s.NoWake l) (IpcRun h)
    (IpcReady h) (fun s => RunInv s ∧ IpcAt h s) (IpcRun h) (IpcEnd h) where
  left hl hE := ⟨hE.1.2 hl, hE.2 hl⟩
  bad hR hb := .of_bad (runState_ctl.bad hR.1 hb) hb
  ring hP hok hcur := runState_ctl.ring hP.1 hok.1 hcur
  save {s c e tf _} hP ht := by
    refine ⟨runState_ctl.save hP.1 ht.run, ?_⟩
    have hi : IpcIn h (s.started c) := hP.2
    exact hi.updEnv e ⟨Iff.rfl, fun _ => rfl, rfl, rfl, rfl, rfl⟩
  dying hP hok hcur hd := ⟨runState_ctl.dying hP.1 hok.1 hcur hd, hP.2⟩
  enter hP hcur := by
    obtain ⟨hin, hstarted⟩ := runState_ctl.enter hP.1 hcur
    exact ⟨⟨hin, hP.2⟩, ⟨hstarted, hP.2⟩⟩
  ready hK := ⟨runState_ctl.ready hK.1, hK.2⟩
  same hK hs := ⟨runState_ctl.same hK.1 hs, hK.2.same hs.ipcSame⟩
  regs hK hf := ⟨runState_ctl.regs hK.1 hf, hK.2.updEnv _ (hf.ipcEq _)⟩
  regsReady hR hf := ⟨runState_ctl.regsReady hR.1 hf, hR.2.updEnv _ (hf.ipcEq _)⟩
  freeing hK he hb hs := .of_bad (runState_ctl.freeing hK.1 he hb hs) hb
  freed {s e} hK he := by
    refine ⟨runState_ctl.freed hK.1 he, ?_⟩
    have hi : IpcIn h (s.freed e) := hK.2.freed e
    exact hi
  popTf hR he hK := ⟨runState_ctl.popTf hR.1 he (hK.imp_left And.left), fun _ => hR.2.popTf _⟩
  again hR he hs := ⟨runState_ctl.again hR.1 he hs, fun _ => hR.2.popTf _⟩
  run hR hcur hlt hst hd :=
    ⟨runState_ctl.run hR.1 hcur hlt hst hd, fun _ => hR.2.run (fun _ hc => hR.1.lt hc) hlt hst _⟩
  runNull hR hcur hlt hst hd := .of_bad (runState_ctl.runNull hR.1 hcur hlt hst hd) rfl
  idle hR hc := ⟨runState_ctl.idle hR.1 hc, fun _ => hR.2⟩
  created {s c e d binary type s'} hP hok hcur hl hs := by
    refine ⟨runState_ctl.created hP.1 hok.1 hcur hl hs, ?_⟩
    have hi : IpcIn h (s.enter c) := hP.2
    have ha : IpcIn h ((s.enter c).allocated e 0 d) := hi.allocated (hP.1.enter c).toRunCore hl
    have hc : IpcIn h (((s.enter c).allocated e 0 d).updEnv e (·.created type binary.entry)) :=
      ha.updEnv e ⟨Iff.rfl, fun _ => rfl, rfl, rfl, rfl, rfl⟩
    have hc' : IpcIn h ((((s.enter c).allocated e 0 d).updEnv e
      (·.created type binary.entry)).updCpu c ({ · with cr3 := s.mm.kernPgdir })) := hc
    exact hc'.same hs.ipcSame
  creating hP hcur hl hb hs := .of_bad (runState_ctl.creating hP.1 hcur hl hb hs) hb
  quiet {s c s'} hP hs := by
    have hi : IpcIn h (s.enter c) := hP.2
    exact ⟨runState_ctl.quiet hP.1 hs, hi.same hs.ipcSame⟩
  quietBad hP hs hb := .of_bad (runState_ctl.quietBad hP.1 hs hb) hb

end Entry

/-! ### The calls that change the table -/

section Calls

variable {α : Type} {h : List Obs} {s s' : Kern} {e x : ℕ}

theorem ipc_and {m : KernM α}
    (hrun : wp m (fun _ s' => RunReady s' ∧ s'.curenv = some e) RunEnd s)
    (hipc : wp m (fun _ => IpcIn h) (fun st s' => st.leaves → IpcIn h s') s) :
    wp m (fun _ s' => IpcReady h s' ∧ s'.curenv = some e) (IpcEnd h) s :=
  (hrun.and hipc).imp fun _ _ hq => ⟨⟨hq.1.1, hq.2⟩, hq.1.2⟩

theorem ipc_stop {st : Stop} (hb : st.bad) : st.leaves → IpcIn h s := by
  intro hl
  rw [Stop.bad, hl] at hb
  cases hb

theorem ipc_keeps {m : KernM α} (hm : Keeps SameCtl Stop.bad m) (hi : IpcIn h s) :
    wp m (fun _ => IpcIn h) (fun st s' => st.leaves → IpcIn h s') s :=
  hm.wp (fun _ _ hs => hi.same hs.ipcSame) fun _ _ hb _ => ipc_stop hb

theorem ipc_destroy (hK : IpcRun h s) (he : s.curenv = some e)
    (hx : s.curenv = some x ∨ (x < nenv ∧ (s.envs x).envStatus ≠ .free))
    (hdying : (s.envs x).envStatus = .dying → ∀ c ≠ s.cpunum, (s.cpus c).cpuEnv ≠ some x) :
    wp (envDestroy x) (fun _ s' => IpcReady h s' ∧ s'.curenv = some e) (IpcEnd h) s := by
  by_cases hself : s.curenv = some x
  · exact EntryInv.no_ret ((ipc_ctl h).destroy hK hself)
  · obtain ⟨hlt, hne⟩ := hx.resolve_left hself
    refine ipc_and (runState_destroy hK.1 he (.inr ⟨hlt, hne⟩) hdying) ?_
    refine wp_envDestroy (fun hr _ => ?_) (fun s' _ hs _ => (hK.2.freed x).same hs.ipcSame)
      (fun s' _ hc => absurd hc hself) fun st s' _ hb _ => ipc_stop hb
    have hnr := hK.2.not_recving hlt hne (by rw [hr]; decide)
    exact hK.2.updEnv x (.status hnr hne (by decide))

theorem ipc_exofork (hK : IpcRun h s) (he : s.curenv = some e) :
    wp sysExofork (fun _ s' => IpcReady h s' ∧ s'.curenv = some e) (IpcEnd h) s := by
  refine ipc_and (runState_exofork hK.1 he) ?_
  rw [sysExofork, wp_bind_of_ret (curenvPtr_eq he), wp_bind, wp_get, wp_bind]
  refine wp_envAlloc (fun r s' hs => hK.2.same hs.ipcSame) (fun x d s' hl hs => ?_)
    fun st s' hb _ => ipc_stop hb
  have hi : IpcIn h s' := (hK.2.allocated hK.1.toRunCore hl).same hs.ipcSame
  -- the slot has been initialised and is not waiting
  have hnew : s'.envs x = ({ s.envs x with envPgdir := some d } : Env).init x (s.envs e).envId := by
    rw [hs.envs, Kern.allocated_envs, if_pos rfl]
  simp only
  rw [wp_bind, setStatus, wp_modify, wp_bind, wp_modify, wp_gets]
  refine (hi.updEnv x (.status ?_ ?_ (by decide))).updEnv x
    ⟨Iff.rfl, fun _ => rfl, rfl, rfl, rfl, rfl⟩
  · rw [hnew]
    exact Bool.false_ne_true
  · rw [hnew]
    exact EnvStatus.noConfusion

theorem ipc_setStatus (hK : IpcRun h s) (he : s.curenv = some e) {envid status : ℕ}
    (hok : s.RunCall .envSetStatus envid status)
    (hwake : ∀ x ∈ s.envOf envid true, ¬ (s.envs x).envIpcRecving) :
    wp (sysEnvSetStatus envid status) (fun _ s' => IpcReady h s' ∧ s'.curenv = some e)
      (IpcEnd h) s := by
  refine ipc_and (runState_setStatus hK.1 he hok) ?_
  rw [sysEnvSetStatus]
  refine wp_envid2env he hK.2 fun x hx => ?_
  have hne := (hK.1.found hx).2
  have hset : ∀ st : EnvStatus, st ≠ .free →
      IpcIn h (s.updEnv x ({ · with envStatus := st })) :=
    fun st hst => hK.2.updEnv x (.status (hwake x hx) hne hst)
  simp only
  rw [wp_ite, wp_ite]
  refine ⟨fun _ => ?_, fun _ => ⟨fun _ => ?_, fun _ => hK.2⟩⟩
  · rw [wp_bind, setStatus, wp_modify, wp_pure]
    exact hset _ (by decide)
  · rw [wp_bind, setStatus, wp_modify, wp_pure]
    exact hset _ (by decide)

theorem ipc_setTrapframe (hK : IpcRun h s) (he : s.curenv = some e) (envid tf : ℕ) :
    wp (sysEnvSetTrapframe envid tf) (fun _ s' => IpcReady h s' ∧ s'.curenv = some e)
      (IpcEnd h) s := by
  refine ipc_and (runState_setTrapframe hK.1 he envid tf) ?_
  rw [sysEnvSetTrapframe]
  refine wp_envid2env he hK.2 fun x _ => ?_
  simp only
  refine (ipc_keeps (keeps_envPgdirPtr x) hK.2).bind fun d s₁ h₁ => ?_
  refine (ipc_keeps (keeps_userMemCheck _ _ _ _).ctl h₁).bind
    fun r s₂ h₂ => ?_
  rw [wp_ite]
  refine ⟨fun _ => h₂, fun _ => ?_⟩
  rw [wp_bind, rcr3, wp_gets]
  refine (ipc_keeps (keeps_loadTrapframe _ _).ctl h₂).bind fun fr s₃ h₃ => ?_
  rw [wp_bind, wp_modify, wp_bind, wp_modify]
  refine (ipc_keeps (keeps_orUserCs _ _).ctl ?_).bind fun _ _ h₄ => h₄
  exact (h₃.updEnv x ⟨Iff.rfl, fun _ => rfl, rfl, rfl, rfl, rfl⟩).updEnv x
    ⟨Iff.rfl, fun _ => rfl, rfl, rfl, rfl, rfl⟩

def Env.received (x : Env) (sender value perm : ℕ) : Env :=
  { x with
    envIpcPerm := perm
    envIpcRecving := false
    envIpcValue := value
    envIpcFrom := sender
    envStatus := .runnable }

theorem ipcDeliver_eq (s : Kern) (cur dst value perm : ℕ) : ipcDeliver cur dst value perm s =
    .ret 0 ((s.updEnv dst (·.received (s.envs cur).envId value perm)).log
      (.ipcSend (s.envs cur).envId dst value perm)) := by
  have hid : ((s.updEnv dst (·.received (s.envs cur).envId value perm)).envs cur).envId =
      (s.envs cur).envId := by
    rw [Kern.updEnv_envs]
    split <;> rfl
  show Outcome.ret 0 ((s.updEnv dst (·.received (s.envs cur).envId value perm)).log
    (.ipcSend ((s.updEnv dst (·.received (s.envs cur).envId value perm)).envs cur).envId
      dst value perm)) = _
  rw [hid]

theorem ipc_deliver (hi : IpcIn h s) (hne : (s.envs x).envStatus ≠ .free)
    (hr : (s.envs x).envIpcRecving) (cur value perm : ℕ) :
    wp (ipcDeliver cur x value perm) (fun _ => IpcIn h) (fun st s' => st.leaves → IpcIn h s') s := by
  rw [wp_of_ret (ipcDeliver_eq s cur x value perm)]
  refine hi.slot (e := x) (fun d hd => ?_) rfl (fun d hd => ?_) fun ht => ht.send hne hr ?_ ?_ ?_
  · rw [Kern.log_envs, Kern.updEnv_envs, if_neg hd]
  · simpa [Obs.about] using Ne.symm hd
  · rw [Kern.log_envs, Kern.updEnv_envs_self]
    exact EnvStatus.noConfusion
  · rw [Kern.log_envs, Kern.updEnv_envs_self]
    exact Bool.false_ne_true
  · rw [Kern.log_envs, Kern.updEnv_envs_self]
    exact ⟨rfl, rfl, rfl⟩

theorem ipc_trySend (hK : IpcRun h s) (he : s.curenv = some e) {envid value srcva perm : ℕ}
    (hok : s.RunCall .ipcTrySend envid value) :
    wp (sysIpcTrySend envid value srcva perm) (fun _ s' => IpcReady h s' ∧ s'.curenv = some e)
      (IpcEnd h) s := by
  refine ipc_and (runState_trySend hK.1 he hok) ?_
  rw [sysIpcTrySend, wp_bind_of_ret (curenvPtr_eq he)]
  refine (keeps_envPageLookup e srcva).wp_bind (fun found s₁ hs₁ => ?_)
    fun st s' hb _ => ipc_stop hb
  have h₁ := hK.2.same hs₁.ipcSame
  refine wp_envid2env (hs₁.curenv.trans he) h₁ fun x hx => ?_
  rw [hs₁.envOf] at hx
  have hne : (s₁.envs x).envStatus ≠ .free := by
    rw [hs₁.envs]
    exact (hK.1.found hx).2
  simp only
  rw [wp_bind, wp_get, wp_ite]
  refine ⟨fun _ => h₁, fun hrecv => ?_⟩
  have hrecv : (s₁.envs x).envIpcRecving := not_not.mp hrecv
  rw [wp_ite]
  refine ⟨fun _ => h₁, fun _ => ?_⟩
  rcases found with _ | ⟨pp, _⟩
  · exact ipc_deliver h₁ hne hrecv _ _ _
  · simp only
    rw [wp_ite]
    refine ⟨fun _ => ?_, fun _ => ipc_deliver h₁ hne hrecv _ _ _⟩
    refine (keeps_envPageInsert _ _ _ _).wp_bind (fun ret s₂ hs₂ => ?_)
      fun st s' hb _ => ipc_stop hb
    have h₂ := h₁.same hs₂.ipcSame
    rw [wp_ite]
    refine ⟨fun _ => h₂, fun _ => ipc_deliver h₂ ?_ ?_ _ _ _⟩
    · rw [hs₂.envs]
      exact hne
    · rw [hs₂.envs]
      exact hrecv

theorem ipc_recv (hK : IpcRun h s) (he : s.curenv = some e) (dstva : ℕ) :
    wp (sysIpcRecv dstva) (fun _ s' => IpcReady h s' ∧ s'.curenv = some e) (IpcEnd h) s := by
  refine wp_sysIpcRecv he ⟨(ipc_ctl h).ready hK, he⟩
    ((ipc_ctl h).sched ⟨hK.1.blocked he dstva, ?_⟩)
  -- the caller is running or dying, so it was not waiting
  have hact : (s.envs e).envStatus ≠ .notRunnable := by
    rcases hK.1.self he with hst | hst <;> rw [hst] <;> decide
  refine hK.2.slot (e := e) (fun d hd => ?_) rfl (fun d hd => ?_) fun ht => ht.recv hact ?_
  · rw [Kern.blocked, Kern.log_envs, Kern.updEnv_envs, if_neg hd]
  · simpa [Obs.about] using Ne.symm hd
  · rw [Kern.blocked, Kern.log_envs, Kern.updEnv_envs_self]
    exact ⟨rfl, rfl⟩

end Calls

theorem ipc_calls (h : List Obs) : CtlCalls (fun s l => RunCond s l ∧ s.NoWake l) (IpcReady h)
    (fun s => RunInv s ∧ IpcAt h s) (IpcEnd h) := by
  intro s c e tf cr2 no hP ht hno hctl
  have hK := (ipc_ctl h).save hP ht
  have he : (s.entered c e tf).curenv = some e := by rw [Kern.entered_curenv, ht.cur]
  have hok : (s.entered c e tf).RunCall no tf.arg1 tf.arg2 := (ht.ok.1.call tf rfl no hno).entered
  cases no with
  | envDestroy =>
    rw [Sysno.run, sysEnvDestroy]
    refine wp_envid2env he ⟨(ipc_ctl h).ready hK, he⟩ fun x hx => ?_
    simp only
    rw [wp_bind]
    exact ipc_destroy hK he (Kern.envOf_eq_some hx) (hok x hx)
  | exofork => exact ipc_exofork hK he
  | envSetStatus =>
    refine ipc_setStatus hK he hok fun x hx => ?_
    rw [Kern.entered_proj s c e tf Env.envIpcRecving fun _ => rfl]
    rw [Kern.entered_envOf] at hx
    exact ht.ok.2 tf rfl hno x hx
  | envSetTrapframe => exact ipc_setTrapframe hK he _ _
  | ipcTrySend => exact ipc_trySend hK he hok
  | ipcRecv => exact ipc_recv hK he _
  | _ => cases hctl

/-! ### One send -/

/-- The `env_ipc_perm` a message from `srcva` to slot `d` comes with. -/
def Kern.sentPerm (s : Kern) (d srcva perm : ℕ) : ℕ :=
  if (s.envs d).envIpcDstva < utop ∧ srcva < utop then perm else 0

/-- A send of environment `e` has completed the receive of slot `d`. -/
structure Kern.Delivered (s s' : Kern) (e d value srcva perm : ℕ) : Prop where
  envs : s'.envs = Function.update s.envs d
    ((s.envs d).received (s.envs e).envId value (s.sentPerm d srcva perm))
  last : lastAbout d s'.mm.trace =
    some (.ipcSend (s.envs e).envId d value (s.sentPerm d srcva perm))
  /-- Without a page no memory changes. -/
  noPage : ¬ ((s.envs d).envIpcDstva < utop ∧ srcva < utop) → s'.mm.mem = s.mm.mem

section Send

variable {B : MemCtx} {s : Kern} {e : ℕ}

theorem deliver_delivered (e d value srcva perm : ℕ) {m : Mm}
    (hm : ¬ ((s.envs d).envIpcDstva < utop ∧ srcva < utop) → m.mem = s.mm.mem) :
    wp (ipcDeliver e d value (s.sentPerm d srcva perm))
      (fun r s' => r = 0 ∧ s.Delivered s' e d value srcva perm) (fun _ _ => False)
      { s with mm := m } := by
  rw [wp_of_ret (ipcDeliver_eq { s with mm := m } e d value _)]
  exact ⟨rfl, rfl, List.find?_cons_of_pos (decide_eq_true rfl), hm⟩

theorem send_cases (h : Caller B True s e) (envid value srcva perm : ℕ) :
    wp (sysIpcTrySend envid value srcva perm) (fun r s' =>
      (r < 0 ∧ ∃ tr, s' = s.looked tr) ∨
      (r = 0 ∧ ∃ d, s.envOf envid false = some d ∧ (s.envs d).envIpcRecving ∧
        s.Delivered s' e d value srcva perm)) (MemEnd B True) s := by
  refine wp_sysIpcTrySend h (.inl trivial) (fun r tr hneg _ => .inl ⟨hneg, tr, rfl⟩) ?_ ?_
  · intro d tr hd hrecv hno _
    have hperm : s.sentPerm d srcva perm = 0 := if_neg hno
    have hdel := deliver_delivered e d value srcva perm (s := s) (m := (s.looked tr).mm) fun _ => rfl
    rw [hperm] at hdel
    exact hdel.total fun r s' hq => .inr ⟨hq.1, d, hd, hrecv, hq.2⟩
  · intro d pp tr hsva hdva hd hrecv _ _ hinv hmap
    have hperm : s.sentPerm d srcva perm = perm := if_pos ⟨hdva, hsva⟩
    obtain ⟨hlt, hne⟩ := h.found hd
    refine (wp_envPageInsert_any h.inv hlt hne hdva hinv hmap).total fun r s₂ h₂ => ?_
    rcases h₂ with ⟨rfl, rfl⟩ | ⟨rfl, m, t, i, -, -, -, rfl⟩
    · rw [if_pos (by decide)]
      exact .inl ⟨by decide, tr, rfl⟩
    · rw [if_neg (by decide)]
      have hdel := deliver_delivered e d value srcva perm (m := m.setWord t i (mkPte pp perm))
        fun hno => absurd ⟨hdva, hsva⟩ hno
      rw [hperm] at hdel
      exact hdel.total fun r s' hq => .inr ⟨hq.1, d, hd, hrecv, hq.2⟩

end Send

/-! ### Every run -/

/-- When a step keeps messages apart: no status is set of an environment that
waits, memory stays in order, and for all calls but `sys_ipc_try_send` the
condition of the run state holds. -/
structure IpcCond (s : Kern) (l : ℕ × Event) : Prop where
  contained : s.Contained l
  ring : s.Ring3 l
  call : ∀ tf ∈ l.2.frame, ∀ no ∈ tf.sysno, no ≠ .ipcTrySend →
    (s.enter l.1).RunCall no tf.arg1 tf.arg2
  wake : s.NoWake l

section Run

variable {H : List Obs} {s : Kern} {l : ℕ × Event} {d : ℕ}

theorem IpcAt.blocked (hi : IpcAt H s) (hrun : RunInv s) (hd : d < nenv)
    (hfree : (s.envs d).envStatus ≠ .free) (hr : (s.envs d).envIpcRecving) :
    lastAbout d H = some (.ipcRecv d) ∧ s.NotCurrent d := by
  have hlast := (hi d hd).last_recv hfree hr
  have hw := (hi d hd).waits
  rw [hlast] at hw
  refine ⟨hlast, hrun.not_current ?_⟩
  rintro (hst | hst)
  · exact EnvStatus.noConfusion (hst.symm.trans hw.1)
  · exact EnvStatus.noConfusion (hst.symm.trans hw.1)

theorem IpcCond.memCond (h : IpcCond s l) (hi : IpcAt H s) (hrun : RunInv s) :
    MemCond anyFlags s l := by
  refine ⟨⟨h.contained, h.ring, fun tf htf no hno => ?_⟩, h.contained.memCall⟩
  by_cases hsend : no = .ipcTrySend
  · subst hsend
    intro x hx hr
    obtain ⟨hlt, hne⟩ := (hrun.enter l.1).found hx
    exact (hi.blocked hrun hlt hne hr).2
  · exact h.call tf htf no hno hsend

theorem ipc_step {s' : Kern} (hok : IpcCond s l) (hi : IpcAt H s) (hrun : RunInv s)
    (hs : s.step l = some s') : IpcAt (s'.mm.trace ++ H) s' :=
  (((ipc_ctl H).entry (ipc_calls H)).step ⟨hrun, hi⟩
    ⟨(hok.memCond hi hrun).toRunCond, hok.wake⟩ hs).2

theorem IpcAt.of_booted {free : List ℕ} (hb : Booted s free) : IpcAt [] s :=
  fun d hd => ⟨trivial, .inl (hb.env_free d hd)⟩

theorem ipc_run {s₀ : Kern} {free : List ℕ} (hb : Booted s₀ free) {x : List Obs × Kern}
    (hr : Sys.Reach (Sys.logged (·.mm.trace) Kern.step) (fun x l => IpcCond x.2 l) ([], s₀) x) :
    Sys.Reach Kern.step (MemCond anyFlags) s₀ x.2 ∧ IpcAt x.1 x.2 := by
  induction hr with
  | refl => exact ⟨.refl, .of_booted hb⟩
  | step _ hok hs ih =>
    obtain ⟨hreach, hi⟩ := ih
    have hrun := (memRun_reach (B := countCtx s₀.mm free hb.mm) hb rfl hreach).1
    obtain ⟨hstep, hhist⟩ := Sys.logged_eq_some hs
    refine ⟨hreach.step (hok.memCond hi hrun) hstep, ?_⟩
    rw [hhist]
    exact ipc_step hok hi hrun hstep

end Run

/-- **Exactly one send for each receive.**  In every run whose steps meet
`IpcCond`, with any number of environments on any processors:

* the receives of a slot and the sends to it alternate, the fields of the slot
  are those of the newest send until it receives again, and while it waits it
  runs nowhere;
* a send that fails changes nothing; one that succeeds finds the receiver
  waiting, and maps the sender's page with its `perm` if and only if both
  addresses are below `UTOP`. -/
theorem ipc_exactly_once {s₀ s : Kern} {free : List ℕ} {H : List Obs} (hb : Booted s₀ free)
    (hr : Sys.Reach (Sys.logged (·.mm.trace) Kern.step) (fun x l => IpcCond x.2 l) ([], s₀)
      (H, s)) :
    (∀ d < nenv, Unmixed d H ∧ (s.envs d).Waits (lastAbout d H) ∧
      (lastAbout d H = some (.ipcRecv d) → s.NotCurrent d)) ∧
    ∀ c e tf envid value srcva perm r s', (s.cpus c).cpuEnv = some e →
      sysIpcTrySend envid value srcva perm (s.entered c e tf) = .ret r s' →
      (r < 0 ∧ ∃ tr, s' = (s.entered c e tf).looked tr) ∨
      (r = 0 ∧ ∃ d < nenv, (s.entered c e tf).envOf envid false = some d ∧
        lastAbout d H = some (.ipcRecv d) ∧
        (s.entered c e tf).Delivered s' e d value srcva perm ∧
        ((s.envs d).envIpcDstva < utop ∧ srcva < utop →
          ∃ w, (s.entered c e tf).entryOf e srcva = some w ∧
            s'.entryOf d (s.envs d).envIpcDstva = some (mkPte (frame w) perm))) := by
  obtain ⟨hreach, hi⟩ := ipc_run hb hr
  have hmem := memRun_reach (B := countCtx s₀.mm free hb.mm) hb rfl hreach
  have hw : ∀ d < nenv, (s.envs d).Waits (lastAbout d H) := fun d hd => (hi d hd).waits
  constructor
  · intro d hd
    refine ⟨(hi d hd).unmixed, hw d hd, fun hlast => ?_⟩
    have hblocked := hw d hd
    rw [hlast] at hblocked
    exact (hi.blocked hmem.1 hd (by rw [hblocked.1]; decide) hblocked.2).2
  · intro c e tf envid value srcva perm r s' hcur hrun
    have hcaller := hmem.caller hcur tf
    rcases (send_cases hcaller envid value srcva perm).ret hrun with hfail | ⟨rfl, d, hd, hrecv, hdel⟩
    · exact .inl hfail
    · obtain ⟨hlt, hne⟩ := hcaller.found hd
      have hproj : ∀ {α : Type} (g : Env → α), (∀ x, g { x with envTf := tf } = g x) →
          g ((s.entered c e tf).envs d) = g (s.envs d) :=
        fun g hg => Kern.entered_proj s c e tf g hg d
      rw [hproj Env.envStatus fun _ => rfl] at hne
      rw [hproj Env.envIpcRecving fun _ => rfl] at hrecv
      refine .inr ⟨rfl, d, hlt, hd, (hi.blocked hmem.1 hlt hne hrecv).1, hdel, fun hboth => ?_⟩
      have hva : ((s.entered c e tf).envs d).envIpcDstva = (s.envs d).envIpcDstva :=
        hproj Env.envIpcDstva fun _ => rfl
      have hdst : ∀ x, (s.entered c e tf).envOf envid false = some x →
          ((s.entered c e tf).envs x).envIpcDstva < utop ∧
            (s.entered c e tf).Apart x ((s.entered c e tf).envs x).envIpcDstva := by
        intro x hx
        cases hd.symm.trans hx
        rw [hva]
        exact ⟨hboth.1, hcaller.inv.apart hlt (hcaller.found hd).2 hboth.1⟩
      obtain ⟨x, w, hx, hw', -, hnew⟩ := sysIpcTrySend_entry hcaller.cur
        (hcaller.inv.page.shape.npages ▸ hb.mm.npages_le) hboth.2 hdst hrun
      cases hd.symm.trans hx
      rw [hva] at hnew
      exact ⟨w, hw', hnew⟩

/-- Two environments; the first waits for a page at `0x400000`. -/
def Demo.waiting : List (ℕ × Event) :=
  [(0, .create Demo.image .user), (0, .create Demo.image .user), (0, .start),
   (0, Demo.call 13 0x400000 0 0 0 0)]

def Demo.sends (s : Kern) : Bool :=
  match sysIpcTrySend 0x1000 5 0xeebfd000 7 (s.entered 0 1 {}) with
  | .ret r _ => decide (r = 0)
  | .stop _ _ => false

/-- The page arrives. -/
theorem ipc_exactly_once_page :
    ∃ H s s', Sys.Reach (Sys.logged (·.mm.trace) Kern.step) (fun x l => IpcCond x.2 l)
        ([], Demo.machine 16) (H, s) ∧
      sysIpcTrySend 0x1000 5 0xeebfd000 7 (s.entered 0 1 {}) = .ret 0 s' ∧
      ∃ d < nenv, lastAbout d H = some (.ipcRecv d) ∧
        (s.entered 0 1 {}).Delivered s' 1 d 5 0xeebfd000 7 := by
  let ok : List Obs × Kern → ℕ × Event → Prop := fun x l => x.2.Contained l ∧ x.2.Ring3 l ∧
    ∀ tf ∈ l.2.frame, ∀ no ∈ tf.sysno, no = .ipcRecv
  have hok : ∀ x l, ok x l → IpcCond x.2 l := by
    rintro x l ⟨hc, hring, hcall⟩
    refine ⟨hc, hring, fun tf htf no hno _ => ?_, fun tf htf hno => ?_⟩
    · cases hcall tf htf no hno
      trivial
    · cases hcall tf htf _ hno
  have hall : Sys.AllOk (Sys.logged (·.mm.trace) Kern.step) ok Demo.waiting
      ([], Demo.machine 16) := by
    decide +kernel
  obtain ⟨⟨H, s⟩, hs, hcur, hp⟩ := Sys.exists_reach_of
    (P := fun x => (x.2.cpus 0).cpuEnv = some 1 ∧ Demo.sends x.2) hall (by decide +kernel)
  have hr := hs.mono hok
  unfold Demo.sends at hp
  split at hp
  · next r s' hsend =>
    obtain rfl := of_decide_eq_true hp
    refine ⟨H, s, s', hr, hsend, ?_⟩
    rcases (ipc_exactly_once (Demo.machine_booted 16 (by decide)) hr).2 0 1 {} 0x1000 5 0xeebfd000 7 0
      s' (hcur) hsend with hfail | ⟨-, d, hd, -, hlast, hdel, -⟩
    · exact absurd hfail.1 (by decide)
    · exact ⟨d, hd, hlast, hdel⟩
  · cases hp

instance (s : Kern) (l : ℕ × Event) : Decidable (s.NoWake l) := by
  unfold Kern.NoWake
  infer_instance

/-- Environment 0 starts environment 1 on processor 1, destroys it twice, and
gets its slot again; the new environment 1 starts on processor 0 while processor
1 still has it as its current environment.  It receives on both, and one message
is sent. -/
def Demo.merged : List (ℕ × Event) :=
  [(0, .create Demo.image .user), (0, .start), (0, Demo.call 7 0 0 0 0 0),
   (0, Demo.call 8 0x1001 2 0 0 0), (1, .start), (0, Demo.call 3 0x1001 0 0 0 0),
   (0, Demo.call 3 0x1001 0 0 0 0), (0, Demo.call 7 0 0 0 0 0), (0, Demo.call 8 0x2001 2 0 0 0),
   (0, Demo.call 11 0 0 0 0 0), (0, Demo.call 13 0xeec00000 0 0 0 0),
   (1, Demo.call 13 0xeec00000 0 0 0 0), (0, Demo.call 12 0x2001 5 0xeec00000 0 0)]

/-- **Counterexample**: two receives of one environment, and one send that
completes both. -/
theorem ipc_receives_merged :
    ∃ H s, Sys.Reach (Sys.logged (·.mm.trace) Kern.step) (fun x l => x.2.NoWake l)
        ([], Demo.machine 16) (H, s) ∧
      H.filter (·.about 1) = [.ipcSend 0x1000 1 5 0, .ipcRecv 1, .ipcRecv 1, .envFree 1] := by
  have hall : Sys.AllOk (Sys.logged (·.mm.trace) Kern.step) (fun x l => x.2.NoWake l) Demo.merged
      ([], Demo.machine 16) := by
    decide +kernel
  obtain ⟨⟨H, s⟩, hs, hp⟩ := Sys.exists_reach_of (P := fun x => x.1.filter (·.about 1) =
    [.ipcSend 0x1000 1 5 0, .ipcRecv 1, .ipcRecv 1, .envFree 1]) hall (by decide +kernel)
  exact ⟨H, s, hs, hp⟩

end Jos
