/-
Which environment runs where.

With the kernel lock free, an environment is current on at most one processor,
and one that is current has status `ENV_RUNNING` or `ENV_DYING`.  The kernel
keeps this as long as

* `sys_env_set_status` is not used on an environment that is current
  somewhere, except by an environment on itself, and then only to become not
  runnable, or while the scheduler finds another environment to run;
* `sys_env_destroy` is not repeated on an environment that is dying on another
  processor; and
* no message is sent to an environment that was made to run while it was
  waiting for one.

These are `RunCond`.  `run_state` is the invariant, and `set_status_breaks_run_state`
a run that breaks it.
-/
import Jos.Kern.CtlInv

namespace Jos

open Prog Kern Demo

variable {e : ℕ} {f : Env → Env} {s s' : Kern}

/-! ### The invariant -/

/-- The status of an environment that may be executing user code. -/
def Kern.Active (s : Kern) (e : ℕ) : Prop :=
  (s.envs e).envStatus = .running ∨ (s.envs e).envStatus = .dying

/-- What holds at every point of a kernel entry. -/
structure RunCore (s : Kern) : Prop where
  single : ∀ {c c' e}, (s.cpus c).cpuEnv = some e → (s.cpus c').cpuEnv = some e → c = c'
  lt : ∀ {c e}, (s.cpus c).cpuEnv = some e → e < nenv
  other : ∀ {c e}, c ≠ s.cpunum → (s.cpus c).cpuEnv = some e → s.Active e
  list : ∃ l, Linked (fun e => (s.envs e).envLink) s.envFreeList l ∧
    ∀ e ∈ l, e < nenv ∧ (s.envs e).envStatus = .free
  ids : ∀ {e}, e < nenv → (s.envs e).envStatus ≠ .free → envx (s.envs e).envId = e
  freed : ∀ {e}, .envFree e ∈ s.mm.trace → ∀ c ≠ s.cpunum, (s.cpus c).cpuEnv ≠ some e
  loaded : ∀ {c e}, c ≠ s.cpunum → (s.cpus c).cpuEnv = some e →
    (s.envs e).envPgdir = some (s.cpus c).cr3

/-- What holds while the lock is free, and in the kernel until the status of
the current environment changes. -/
structure RunInv (s : Kern) : Prop extends RunCore s where
  self : ∀ {e}, s.curenv = some e → s.Active e
  own : ∀ {e}, s.curenv = some e → (s.envs e).envPgdir = some s.thiscpu.cr3

/-- What is left of it when the trap returns: the scheduler will not pick the
current environment as if it were another one. -/
structure RunReady (s : Kern) : Prop extends RunCore s where
  own : ∀ {e}, s.curenv = some e → (s.envs e).envPgdir = some s.thiscpu.cr3
  search : ∀ {e}, s.curenv = some e → s.schedScan s.schedStart nenv ≠ some e

def RunEnd (st : Stop) (s : Kern) : Prop := RunCore s ∧ (st.leaves → RunInv s)

theorem RunInv.active (h : RunInv s) {c : ℕ} (hc : (s.cpus c).cpuEnv = some e) : s.Active e := by
  by_cases hn : c = s.cpunum
  · exact h.self (by rw [Kern.curenv, Kern.thiscpu, ← hn, hc])
  · exact h.other hn hc

theorem Kern.Active.ne_free (h : s.Active e) : (s.envs e).envStatus ≠ .free := by
  rcases h with h | h <;> rw [h] <;> decide

theorem Kern.Active.ne_runnable (h : s.Active e) : (s.envs e).envStatus ≠ .runnable := by
  rcases h with h | h <;> rw [h] <;> decide

theorem RunInv.not_current (h : RunInv s) (hna : ¬ s.Active e) : ∀ c, (s.cpus c).cpuEnv ≠ some e :=
  fun _ he => hna (h.active he)

theorem RunInv.pgdir (h : RunInv s) {c : ℕ} (hc : (s.cpus c).cpuEnv = some e) :
    (s.envs e).envPgdir = some (s.cpus c).cr3 := by
  by_cases hn : c = s.cpunum
  · subst hn
    exact h.own hc
  · exact h.loaded hn hc

/-- The fields the run state depends on are equal. -/
structure Env.RunEq (x y : Env) : Prop where
  status : y.envStatus = x.envStatus
  link : y.envLink = x.envLink
  id : y.envId = x.envId
  pgdir : y.envPgdir = x.envPgdir

theorem Env.RunEq.refl (x : Env) : x.RunEq x := ⟨rfl, rfl, rfl, rfl⟩

theorem Env.RunEq.of_eq {x y : Env} (h : y = x) : x.RunEq y := h ▸ Env.RunEq.refl x

theorem RunCore.congr (h : RunCore s) (henv : ∀ e, (s.envs e).RunEq (s'.envs e))
    (hcpu : ∀ c, (s'.cpus c).cpuEnv = (s.cpus c).cpuEnv)
    (hcr3 : ∀ c ≠ s.cpunum, (s'.cpus c).cr3 = (s.cpus c).cr3) (hnum : s'.cpunum = s.cpunum)
    (hlist : s'.envFreeList = s.envFreeList)
    (htr : ∀ e, Obs.envFree e ∈ s'.mm.trace → Obs.envFree e ∈ s.mm.trace) : RunCore s' where
  single h₁ h₂ := h.single ((hcpu _).symm.trans h₁) ((hcpu _).symm.trans h₂)
  lt h₁ := h.lt ((hcpu _).symm.trans h₁)
  other {c e} hc h₁ := by
    unfold Kern.Active
    rw [(henv e).status]
    exact h.other (hnum ▸ hc) ((hcpu _).symm.trans h₁)
  list := by
    obtain ⟨l, hl, hf⟩ := h.list
    refine ⟨l, ?_, fun e he => ⟨(hf e he).1, (henv e).status.trans (hf e he).2⟩⟩
    rw [hlist]
    exact hl.congr fun e _ => (henv e).link
  ids {e} hlt hne := by
    rw [(henv e).id]
    exact h.ids hlt ((henv e).status ▸ hne)
  freed htr' c hc he := h.freed (htr _ htr') c (hnum ▸ hc) ((hcpu _).symm.trans he)
  loaded {c e} hc h₁ := by
    rw [hnum] at hc
    rw [(henv e).pgdir, hcr3 c hc]
    exact h.loaded hc ((hcpu _).symm.trans h₁)

theorem RunInv.congr (h : RunInv s) (henv : ∀ e, (s.envs e).RunEq (s'.envs e))
    (hcpu : ∀ c, (s'.cpus c).cpuEnv = (s.cpus c).cpuEnv) (hcr3 : ∀ c, (s'.cpus c).cr3 = (s.cpus c).cr3)
    (hnum : s'.cpunum = s.cpunum) (hlist : s'.envFreeList = s.envFreeList)
    (htr : ∀ e, Obs.envFree e ∈ s'.mm.trace → Obs.envFree e ∈ s.mm.trace) : RunInv s' := by
  have hcur : s'.curenv = s.curenv := by
    rw [Kern.curenv, Kern.thiscpu, hnum, hcpu]
    rfl
  refine ⟨h.toRunCore.congr henv hcpu (fun c _ => hcr3 c) hnum hlist htr, fun {e} he => ?_,
    fun {e} he => ?_⟩
  · unfold Kern.Active
    rw [(henv e).status]
    exact h.self (hcur ▸ he)
  · rw [(henv e).pgdir, Kern.thiscpu, hnum, hcr3]
    exact h.own (hcur ▸ he)

theorem RunInv.enter (h : RunInv s) (c : ℕ) : RunInv (s.enter c) where
  single := h.single
  lt := h.lt
  other _ he := h.active he
  list := h.list
  ids := h.ids
  freed he := by cases he
  loaded _ he := h.pgdir he
  self he := h.active he
  own he := h.pgdir he

theorem RunInv.started (h : RunInv s) (c : ℕ) : RunInv (s.started c) :=
  (h.enter c).congr (fun _ => .refl _)
    (fun x => by rw [Kern.started, updCpu_cpus]; split <;> rfl)
    (fun x => by rw [Kern.started, updCpu_cpus]; split <;> rfl) rfl rfl fun _ h => h

theorem Mm.Ext.envFree_mem {m m' : Mm} (h : m.Ext Obs.ofMm m') (he : Obs.envFree e ∈ m'.trace) :
    Obs.envFree e ∈ m.trace := by
  obtain ⟨l, hl, hlo⟩ := h.trace
  rw [hl] at he
  rcases List.mem_append.mp he with he | he
  · exact absurd (hlo _ he) (by simp [Obs.ofMm])
  · exact he

theorem RunInv.same (h : RunInv s) (hs : s.SameCtl s') : RunInv s' :=
  h.congr (fun e => .of_eq (by rw [hs.envs])) (fun c => by rw [hs.cpus]) (fun c => by rw [hs.cpus])
    hs.cpunum hs.envFreeList fun _ => hs.mm.envFree_mem

theorem RunCore.same (h : RunCore s) (hs : s.SameCtl s') : RunCore s' :=
  h.congr (fun e => .of_eq (by rw [hs.envs])) (fun c => by rw [hs.cpus])
    (fun c _ => by rw [hs.cpus]) hs.cpunum hs.envFreeList fun _ => hs.mm.envFree_mem

theorem Kern.updEnv_runEq (e : ℕ) (hf : ∀ x : Env, x.RunEq (f x)) (x : ℕ) :
    (s.envs x).RunEq ((s.updEnv e f).envs x) := by
  rw [updEnv_envs]
  split
  · exact hf _
  · exact .refl _

theorem RunInv.updEnv (h : RunInv s) (e : ℕ) (hf : ∀ x : Env, x.RunEq (f x)) : RunInv (s.updEnv e f) :=
  h.congr (updEnv_runEq e hf) (fun _ => rfl) (fun _ => rfl) rfl rfl fun _ h => h

/-! ### Status changes -/

/-- The update sets the status and keeps the other fields of the run state. -/
structure SetsStatus (st : EnvStatus) (f : Env → Env) : Prop where
  status : ∀ x, (f x).envStatus = st
  link : ∀ x, (f x).envLink = x.envLink
  id : ∀ x, (f x).envId = x.envId
  pgdir : ∀ x, (f x).envPgdir = x.envPgdir

theorem SetsStatus.set (st : EnvStatus) : SetsStatus st ({ · with envStatus := st }) :=
  ⟨fun _ => rfl, fun _ => rfl, fun _ => rfl, fun _ => rfl⟩

theorem RunCore.mark (h : RunCore s) {st : EnvStatus} (hf : SetsStatus st f)
    (hne : (s.envs e).envStatus ≠ .free)
    (hcur : (∀ c ≠ s.cpunum, (s.cpus c).cpuEnv ≠ some e) ∨ st = .running ∨ st = .dying) :
    RunCore (s.updEnv e f) := by
  have hother : ∀ x, x ≠ e → (s.updEnv e f).envs x = s.envs x := fun x hx => by
    rw [updEnv_envs, if_neg hx]
  refine ⟨h.single, h.lt, fun {c x} hc hx => ?_, ?_, fun {x} hlt hx => ?_, h.freed,
    fun {c x} hc hx => ?_⟩
  · by_cases hxe : x = e
    · subst hxe
      rcases hcur with hcur | hcur
      · exact absurd hx (hcur c hc)
      · unfold Kern.Active
        rw [updEnv_envs_self, hf.status]
        exact hcur
    · unfold Kern.Active
      rw [hother x hxe]
      exact h.other hc hx
  · obtain ⟨l, hl, hfree⟩ := h.list
    have he : e ∉ l := fun he => hne (hfree e he).2
    refine ⟨l, hl.congr fun x _ => s.updEnv_proj e Env.envLink hf.link x, fun x hx => ?_⟩
    rw [hother x (ne_of_mem_of_not_mem hx he)]
    exact hfree x hx
  · have hid' := s.updEnv_proj e Env.envId hf.id x
    rw [hid']
    by_cases hxe : x = e
    · subst hxe
      exact h.ids hlt hne
    · rw [hother x hxe] at hx
      exact h.ids hlt hx
  · have hpg := s.updEnv_proj e Env.envPgdir hf.pgdir x
    rw [hpg]
    exact h.loaded hc hx

theorem SetsStatus.own {x : ℕ} {st : EnvStatus} (hf : SetsStatus st f)
    (h : (s.envs x).envPgdir = some s.thiscpu.cr3) :
    ((s.updEnv e f).envs x).envPgdir = some (s.updEnv e f).thiscpu.cr3 :=
  (s.updEnv_proj e Env.envPgdir hf.pgdir x).trans h

theorem RunInv.mark (h : RunInv s) {st : EnvStatus} (hf : SetsStatus st f)
    (hne : (s.envs e).envStatus ≠ .free)
    (hcur : (∀ c, (s.cpus c).cpuEnv ≠ some e) ∨ st = .running ∨ st = .dying) :
    RunInv (s.updEnv e f) where
  toRunCore := h.toRunCore.mark hf hne (hcur.imp_left fun hc c _ => hc c)
  self {x} hx := by
    by_cases hxe : x = e
    · subst hxe
      rcases hcur with hcur | hcur
      · exact absurd hx (hcur s.cpunum)
      · unfold Kern.Active
        rw [updEnv_envs_self, hf.status]
        exact hcur
    · unfold Kern.Active
      rw [updEnv_envs, if_neg hxe]
      exact h.self hx
  own hx := hf.own (h.own hx)

/-! ### The scheduler -/

theorem RunInv.ready (h : RunInv s) : RunReady s where
  toRunCore := h.toRunCore
  own := h.own
  search he hs := (h.self he).ne_runnable (schedScan_runnable hs (h.lt he))

theorem Kern.schedScan_congr (h : ∀ j, s'.statusWord j = s.statusWord j) :
    ∀ n j, s'.schedScan j n = s.schedScan j n := by
  intro n
  induction n with
  | zero =>
    intro j
    simp [schedScan]
  | succ n ih =>
    intro j
    simp only [schedScan, h, ih]

theorem RunReady.updEnv (h : RunReady s) (e : ℕ) (hf : ∀ x : Env, x.RunEq (f x)) : RunReady (s.updEnv e f) where
  toRunCore := h.toRunCore.congr (updEnv_runEq e hf) (fun _ => rfl) (fun _ _ => rfl) rfl rfl
    fun _ h => h
  own {x} hx := (s.updEnv_proj e Env.envPgdir (fun y => (hf y).pgdir) x).trans (h.own hx)
  search {x} hx hs := by
    refine h.search hx ?_
    have hw : ∀ j, (s.updEnv e f).statusWord j = s.statusWord j := fun j => by
      unfold Kern.statusWord
      rw [s.updEnv_proj e Env.envStatus fun y => (hf y).status]
      rfl
    have hstart : (s.updEnv e f).schedStart = s.schedStart := by
      unfold Kern.schedStart
      rw [updEnv_curenv]
      cases s.curenv with
      | none => rfl
      | some c =>
        simp only
        rw [s.updEnv_proj e Env.envId fun y => (hf y).id]
    rw [schedScan_congr hw, hstart] at hs
    exact hs

theorem RunCore.uncurrent (h : RunCore s) (henvs : s'.envs = s.envs)
    (hcpu : ∀ c, (s'.cpus c).cpuEnv = none ∨ c ≠ s.cpunum ∧ s'.cpus c = s.cpus c)
    (hself : (s'.cpus s.cpunum).cpuEnv = none) (hnum : s'.cpunum = s.cpunum)
    (hlist : s'.envFreeList = s.envFreeList) (htr : s'.mm.trace = s.mm.trace) : RunInv s' := by
  have hsub : ∀ {c e}, (s'.cpus c).cpuEnv = some e → c ≠ s.cpunum ∧ s'.cpus c = s.cpus c := by
    intro c e hc
    refine (hcpu c).resolve_left fun hn => ?_
    rw [hn] at hc
    cases hc
  have hold : ∀ {c e}, (s'.cpus c).cpuEnv = some e → (s.cpus c).cpuEnv = some e :=
    fun h₁ => (hsub h₁).2 ▸ h₁
  have hcur : ∀ {e}, s'.curenv ≠ some e := by
    intro e he
    rw [Kern.curenv, Kern.thiscpu, hnum, hself] at he
    cases he
  refine ⟨⟨fun h₁ h₂ => h.single (hold h₁) (hold h₂), fun h₁ => h.lt (hold h₁),
    fun _ h₁ => ?_, ?_, ?_, fun he c hc h₁ => ?_, fun {c e} _ h₁ => ?_⟩, fun he => absurd he hcur,
    fun he => absurd he hcur⟩
  · unfold Kern.Active
    rw [henvs]
    exact h.other (hsub h₁).1 (hold h₁)
  · rw [henvs, hlist]
    exact h.list
  · rw [henvs]
    exact h.ids
  · rw [htr] at he
    exact h.freed he c (hsub h₁).1 (hold h₁)
  · rw [henvs, (hsub h₁).2]
    exact h.loaded (hsub h₁).1 (hold h₁)

/-- What `env_run` does to an environment that is not current. -/
structure Kern.Switched (s s' : Kern) (e : ℕ) : Prop where
  status : ∀ x, (s'.envs x).envStatus = if x = e then .running
    else if s.curenv = some x ∧ (s.envs x).envStatus = .running then .runnable
    else (s.envs x).envStatus
  link : ∀ x, (s'.envs x).envLink = (s.envs x).envLink
  id : ∀ x, (s'.envs x).envId = (s.envs x).envId
  pgdir : ∀ x, (s'.envs x).envPgdir = (s.envs x).envPgdir
  self : (s'.cpus s.cpunum).cpuEnv = some e
  others : ∀ c ≠ s.cpunum, s'.cpus c = s.cpus c
  cpunum : s'.cpunum = s.cpunum
  list : s'.envFreeList = s.envFreeList
  trace : s'.mm.trace = s.mm.trace

theorem RunCore.switch (h : RunCore s) (hlt : e < nenv) (hrun : (s.envs e).envStatus = .runnable)
    (hcur : s.curenv ≠ some e) (hs : s.Switched s' e) : RunCore s' ∧ s'.Active e := by
  have hna : ¬ s.Active e := by
    rintro (ha | ha) <;> rw [hrun] at ha <;> cases ha
  have hfresh : ∀ c, (s.cpus c).cpuEnv ≠ some e := by
    intro c hc
    by_cases hn : c = s.cpunum
    · exact hcur (by rw [Kern.curenv, Kern.thiscpu, ← hn, hc])
    · exact hna (h.other hn hc)
  -- another processor keeps its environment, and that one keeps its status
  have hkeep : ∀ {c x}, c ≠ s.cpunum → (s.cpus c).cpuEnv = some x → s'.Active x := by
    intro c x hc hx
    have hxe : x ≠ e := fun hxe => hfresh c (hxe ▸ hx)
    have hxc : s.curenv ≠ some x := fun hx' => hc (h.single hx hx')
    unfold Kern.Active
    rw [hs.status, if_neg hxe, if_neg fun hh => hxc hh.1]
    exact h.other hc hx
  have hcases : ∀ {c x}, (s'.cpus c).cpuEnv = some x →
      (c = s.cpunum ∧ x = e) ∨ (c ≠ s.cpunum ∧ (s.cpus c).cpuEnv = some x) := by
    intro c x hx
    by_cases hn : c = s.cpunum
    · rw [hn, hs.self] at hx
      cases hx
      exact .inl ⟨hn, rfl⟩
    · rw [hs.others c hn] at hx
      exact .inr ⟨hn, hx⟩
  -- free slots stay free
  have hfree : ∀ {x}, (s.envs x).envStatus = .free → (s'.envs x).envStatus = .free := by
    intro x hfx
    have hxe : x ≠ e := by
      rintro rfl
      rw [hrun] at hfx
      cases hfx
    rw [hs.status, if_neg hxe, if_neg (fun hh => by rw [hfx] at hh; cases hh.2), hfx]
  have hself : s'.Active e := by
    left
    rw [hs.status, if_pos rfl]
  refine ⟨⟨fun {c c' x} h₁ h₂ => ?_, fun {c x} h₁ => ?_, fun {c x} _ h₁ => ?_, ?_,
    fun {x} hx hne => ?_, fun {x} htr' c hc h₁ => ?_, fun {c x} hc h₁ => ?_⟩, hself⟩
  · rcases hcases h₁ with ⟨rfl, rfl⟩ | ⟨hc, h₁⟩ <;> rcases hcases h₂ with ⟨rfl, hx⟩ | ⟨hc', h₂⟩
    · rfl
    · exact absurd h₂ (hfresh c')
    · exact absurd (hx ▸ h₁) (hfresh c)
    · exact h.single h₁ h₂
  · rcases hcases h₁ with ⟨-, rfl⟩ | ⟨-, h₁⟩
    · exact hlt
    · exact h.lt h₁
  · rcases hcases h₁ with ⟨-, rfl⟩ | ⟨hc, h₁⟩
    · exact hself
    · exact hkeep hc h₁
  · obtain ⟨l, hl, hf⟩ := h.list
    refine ⟨l, ?_, fun x hx => ⟨(hf x hx).1, hfree (hf x hx).2⟩⟩
    rw [hs.list]
    exact hl.congr fun x _ => hs.link x
  · rw [hs.id]
    exact h.ids hx fun hfx => hne (hfree hfx)
  · rw [hs.cpunum] at hc
    rw [hs.trace] at htr'
    rcases hcases h₁ with ⟨rfl, -⟩ | ⟨-, h₁⟩
    · exact hc rfl
    · exact h.freed htr' c hc h₁
  · rw [hs.cpunum] at hc
    rw [hs.others c hc] at h₁ ⊢
    rw [hs.pgdir]
    exact h.loaded hc h₁

/-! ### Destruction and creation -/

theorem RunCore.freeing (h : RunCore s) (hcur : ∀ c ≠ s.cpunum, (s.cpus c).cpuEnv ≠ some e) :
    RunCore (s.freeing e) := by
  have hlog : RunCore (s.log (.envFree e)) := by
    refine ⟨h.single, h.lt, h.other, h.list, h.ids, fun {x} hx c hc => ?_, h.loaded⟩
    rcases List.mem_cons.mp hx with hx | hx
    · cases hx
      exact hcur c hc
    · exact h.freed hx c hc
  refine hlog.congr (fun x => .of_eq (by rw [freeing_envs]; rfl)) (fun c => ?_)
    (fun c hc => ?_) (freeing_cpunum s e) (freeing_envFreeList s e)
    fun x hx => by rwa [freeing_mm] at hx
  · rw [freeing_cpus]
    split <;> rfl
  · rw [freeing_cpus, if_neg fun hh => hc hh.2]
    rfl

theorem RunCore.free_stop (h : RunCore s) (hcur : ∀ c ≠ s.cpunum, (s.cpus c).cpuEnv ≠ some e)
    (hs : (s.freeing e).SameCtl s' ∨ ((s.freeing e).updEnv e ({ · with envPgdir := none })).SameCtl s') :
    RunCore s' := by
  have hf := h.freeing hcur
  have hcpu : ∀ c, ((s.freeing e).cpus c).cpuEnv = (s.cpus c).cpuEnv := by
    intro c
    rw [freeing_cpus]
    split <;> rfl
  rcases hs with hs | hs
  · exact hf.same hs
  -- only the directory of a slot no other processor runs is gone
  · have hproj : ∀ {α : Type} (g : Env → α), (∀ x, g { x with envPgdir := none } = g x) → ∀ x,
        g (((s.freeing e).updEnv e ({ · with envPgdir := none })).envs x) =
          g ((s.freeing e).envs x) :=
      fun g hg x => (s.freeing e).updEnv_proj e g hg x
    refine RunCore.same (s := (s.freeing e).updEnv e ({ · with envPgdir := none })) ?_ hs
    refine ⟨hf.single, hf.lt, fun {c x} hc hx => ?_, ?_, fun {x} hlt hne => ?_, hf.freed,
      fun {c x} hc hx => ?_⟩
    · unfold Kern.Active
      rw [hproj Env.envStatus fun _ => rfl]
      exact hf.other hc hx
    · obtain ⟨l, hl, hfree⟩ := hf.list
      refine ⟨l, hl.congr fun x _ => hproj Env.envLink (fun _ => rfl) x, fun x hx => ?_⟩
      rw [hproj Env.envStatus fun _ => rfl]
      exact hfree x hx
    · rw [hproj Env.envStatus fun _ => rfl] at hne
      rw [hproj Env.envId fun _ => rfl]
      exact hf.ids hlt hne
    · have hxe : x ≠ e := by
        rintro rfl
        rw [updEnv_cpus, hcpu] at hx
        rw [updEnv_cpunum, freeing_cpunum] at hc
        exact hcur c hc hx
      rw [updEnv_envs, if_neg hxe]
      exact hf.loaded hc hx

theorem RunCore.freed_slot (h : RunCore s) (hlt : e < nenv) (hne : (s.envs e).envStatus ≠ .free)
    (hcur : ∀ c ≠ s.cpunum, (s.cpus c).cpuEnv ≠ some e) : RunCore (s.freed e) := by
  have hf := h.freeing hcur
  have hcpu : ∀ c, ((s.freed e).cpus c).cpuEnv = (s.cpus c).cpuEnv := by
    intro c
    rw [freed_cpus]
    split <;> rfl
  have hother : ∀ x, x ≠ e → (s.freed e).envs x = s.envs x := fun x hx => by
    rw [freed_envs, if_neg hx]
  refine ⟨hf.single, hf.lt, fun {c x} hc hx => ?_, ?_, fun {x} hx hxne => ?_, hf.freed,
    fun {c x} hc hx => ?_⟩
  · rw [freed_cpunum] at hc
    rw [hcpu] at hx
    have hxe : x ≠ e := fun hxe => hcur c hc (hxe ▸ hx)
    unfold Kern.Active
    rw [hother x hxe]
    exact h.other hc hx
  · obtain ⟨l, hl, hfree⟩ := h.list
    have he : e ∉ l := fun he => hne (hfree e he).2
    refine ⟨e :: l, (hl.push he).congr fun x _ => ?_, fun x hx => ?_⟩
    · rw [freed_envs, Function.update_apply]
      split <;> rfl
    · by_cases hxe : x = e
      · subst hxe
        rw [freed_envs, if_pos rfl]
        exact ⟨hlt, rfl⟩
      · rw [hother x hxe]
        exact hfree x ((List.mem_cons.mp hx).resolve_left hxe)
  · by_cases hxe : x = e
    · subst hxe
      rw [freed_envs, if_pos rfl] at hxne
      exact absurd rfl hxne
    · rw [hother x hxe] at hxne ⊢
      exact h.ids hx hxne
  · rw [freed_cpunum] at hc
    rw [hcpu] at hx
    have hxe : x ≠ e := fun hxe => hcur c hc (hxe ▸ hx)
    rw [hother x hxe, freed_cpus, if_neg fun hh => hc hh.2]
    exact h.loaded hc hx

theorem envx_nextEnvId (envId : ℕ) {slot : ℕ} (h : slot < nenv) :
    envx (nextEnvId envId slot) = slot := by
  rw [nenv_eq] at h
  have hgen : ∀ g, g % 2 ^ 10 = 0 → envx (g ||| slot) = slot := by
    intro g hg
    rw [envx_eq, show 1024 = 2 ^ 10 from rfl, Nat.or_mod_two_pow, hg, Nat.zero_or,
      Nat.mod_eq_of_lt h]
  unfold nextEnvId
  simp only
  split
  · exact hgen _ rfl
  · refine hgen _ ?_
    rw [Nat.and_mod_two_pow]
    exact Nat.and_zero _

theorem RunInv.allocated (h : RunInv s) {parentId d : ℕ} (hl : s.envFreeList = some e) :
    RunInv (s.allocated e parentId d) := by
  obtain ⟨l, hlist, hfree⟩ := h.list
  rw [hl] at hlist
  obtain ⟨l', rfl, htail⟩ := hlist.pop
  obtain ⟨he, -⟩ := List.nodup_cons.mp hlist.nodup
  obtain ⟨hlt, hef⟩ := hfree e List.mem_cons_self
  have hna : ¬ s.Active e := fun ha => ha.ne_free hef
  have hcur := h.not_current hna
  have hother : ∀ x, x ≠ e → (s.allocated e parentId d).envs x = s.envs x := fun x hx => by
    rw [allocated_envs, if_neg hx]
  have hact : ∀ {c x}, (s.cpus c).cpuEnv = some x → (s.allocated e parentId d).Active x := by
    intro c x hx
    unfold Kern.Active
    rw [hother x fun hxe => hcur c (hxe ▸ hx)]
    exact h.active hx
  have hpg : ∀ {c x}, (s.cpus c).cpuEnv = some x →
      ((s.allocated e parentId d).envs x).envPgdir = some (s.cpus c).cr3 := by
    intro c x hx
    rw [hother x fun hxe => hcur c (hxe ▸ hx)]
    exact h.pgdir hx
  refine ⟨⟨h.single, h.lt, fun _ hx => hact hx, ⟨l', ?_, fun x hx => ?_⟩, fun {x} hx hne => ?_,
    h.freed, fun _ hx => hpg hx⟩, fun hx => hact hx, fun hx => hpg hx⟩
  · refine htail.congr fun x hx => ?_
    rw [hother x (ne_of_mem_of_not_mem hx he)]
  · rw [hother x (ne_of_mem_of_not_mem hx he)]
    exact hfree x (List.mem_cons_of_mem e hx)
  · by_cases hxe : x = e
    · subst hxe
      rw [allocated_envs, if_pos rfl]
      exact envx_nextEnvId _ hx
    · rw [hother x hxe] at hne ⊢
      exact h.ids hx hne

/-! ### The search of an environment that made itself runnable -/

theorem Kern.schedScan_self (hlt : e < nenv) (hne : (s.envs e).envStatus ≠ .runnable) :
    ∀ n k j, k + n = 1024 → (k = 0 → j = e + 1) → (0 < k → j = (e + 1 + k) % 1024) →
      (s.updEnv e f).schedScan j n = some e → s.schedScan j n = none := by
  intro n
  have hlt' : e < 1024 := hlt
  induction n with
  | zero =>
    intro k j _ _ _ h
    simp [schedScan] at h
  | succ n ih =>
    intro k j hk h0 hpos h
    have hword : j ≠ e → (s.updEnv e f).statusWord j = s.statusWord j := by
      intro hj
      unfold statusWord
      rw [updEnv_envs, if_neg hj]
      rfl
    simp only [schedScan] at h ⊢
    by_cases hj : (s.updEnv e f).statusWord j = EnvStatus.runnable.code
    · rw [if_pos hj] at h
      cases h
      -- slot `e` itself: this is the last round
      have hn : n = 0 := by
        rcases Nat.eq_zero_or_pos k with hk0 | hk0
        · have := h0 hk0
          omega
        · have := hpos hk0
          omega
      subst hn
      rw [if_neg, schedScan]
      rw [statusWord, if_pos hlt]
      exact fun hc => hne (EnvStatus.code_eq_runnable.mp hc)
    · rw [if_neg hj] at h
      have hj' : ¬ s.statusWord j = EnvStatus.runnable.code := by
        by_cases hje : j = e
        · subst hje
          rw [statusWord, if_pos hlt]
          exact fun hc => hne (EnvStatus.code_eq_runnable.mp hc)
        · rwa [← hword hje]
      rw [if_neg hj']
      have hnext : (j + 1) &&& (nenv - 1) = (j + 1) % 1024 := envx_eq (j + 1)
      rw [hnext] at h ⊢
      refine ih (k + 1) _ (by omega) (by omega) (fun _ => ?_) h
      rcases Nat.eq_zero_or_pos k with hk0 | hk0
      · rw [h0 hk0, hk0]
      · rw [hpos hk0]
        omega

/-! ### The condition -/

def Kern.NotCurrent (s : Kern) (e : ℕ) : Prop := ∀ c, (s.cpus c).cpuEnv ≠ some e

/-- When a call of the current environment keeps the run state. -/
def Kern.RunCall (s : Kern) (no : Sysno) (a1 a2 : ℕ) : Prop :=
  match no with
  | .envSetStatus => ∀ e ∈ s.envOf a1 true,
      a2 = EnvStatus.runnable.code ∨ a2 = EnvStatus.notRunnable.code →
        s.NotCurrent e ∨ (s.curenv = some e ∧
          (a2 = EnvStatus.notRunnable.code ∨ s.schedScan s.schedStart nenv ≠ none))
  | .envDestroy => ∀ e ∈ s.envOf a1 true,
      (s.envs e).envStatus = .dying → ∀ c ≠ s.cpunum, (s.cpus c).cpuEnv ≠ some e
  | .ipcTrySend => ∀ e ∈ s.envOf a1 false, (s.envs e).envIpcRecving → s.NotCurrent e
  | _ => True

/-- When a step keeps the run state. -/
structure RunCond (s : Kern) (l : ℕ × Event) : Prop where
  contained : s.Contained l
  ring : s.Ring3 l
  call : ∀ tf ∈ l.2.frame, ∀ no ∈ tf.sysno, (s.enter l.1).RunCall no tf.arg1 tf.arg2

/-! ### Every entry keeps it -/

theorem RunEnd.of_inv (h : RunInv s) (st : Stop) : RunEnd st s :=
  ⟨h.toRunCore, fun _ => h⟩

theorem RunEnd.of_core (h : RunCore s) {st : Stop} (hb : st.bad) : RunEnd st s :=
  ⟨h, fun hl => by rw [Stop.bad, hl] at hb; cases hb⟩

theorem RunReady.popTf (h : RunReady s) (he : s.curenv = some e)
    (ha : RunInv s ∨ (s.envs e).envStatus = .running) : RunInv (s.popTf e) := by
  have hact : s.Active e := by
    rcases ha with ha | ha
    · exact ha.self he
    · exact .inl ha
  have hinv : RunInv s := ⟨h.toRunCore, fun hx => by
    rw [he] at hx
    cases hx
    exact hact, h.own⟩
  refine hinv.congr (fun x => ?_) (fun c => ?_) (fun c => ?_) rfl rfl fun _ h => h
  · rw [popTf_envs]
    exact ⟨rfl, rfl, rfl, rfl⟩
  · rw [popTf_cpus]
    split <;> rfl
  · rw [popTf_cpus]
    split <;> rfl

theorem RunReady.run {d : ℕ} (h : RunReady s) (hcur : s.curenv ≠ some e) (hlt : e < nenv)
    (hst : (s.envs e).envStatus = .runnable) (hd : (s.envs e).envPgdir = some d) : RunInv (s.runEnv e d) := by
  have hself : (s.runEnv e d).curenv = some e := by
    rw [Kern.curenv, Kern.thiscpu, runEnv_cpunum, runEnv_cpus, if_pos rfl]
  have hsw : s.Switched (s.runEnv e d) e :=
    ⟨fun x => by rw [runEnv_envs], fun x => by rw [runEnv_envs],
      fun x => by rw [runEnv_envs], fun x => by rw [runEnv_envs],
      by rw [runEnv_cpus, if_pos rfl], fun c hc => by rw [runEnv_cpus, if_neg hc],
      by simp, by simp, by simp⟩
  obtain ⟨hcore, hact⟩ := h.toRunCore.switch hlt hst hcur hsw
  refine ⟨hcore, fun hx => ?_, fun hx => ?_⟩
  · rw [hself] at hx
    cases hx
    exact hact
  · rw [hself] at hx
    cases hx
    have hcr3 : (s.runEnv e d).thiscpu.cr3 = d := by
      rw [Kern.thiscpu, runEnv_cpunum, runEnv_cpus, if_pos rfl]
    rw [hsw.pgdir, hcr3]
    exact hd

theorem RunReady.resume (h : RunReady s) (hcur : s.curenv ≠ some e) (hlt : e < nenv)
    (hst : (s.envs e).envStatus = .runnable) : RunCore (s.resume e) := by
  have hsw : s.Switched (s.resume e) e :=
    ⟨fun x => by rw [resume_envs], fun x => by rw [resume_envs],
      fun x => by rw [resume_envs], fun x => by rw [resume_envs],
      by rw [resume_cpus, if_pos rfl], fun c hc => by rw [resume_cpus, if_neg hc],
      by simp, by simp, by simp⟩
  exact (h.toRunCore.switch hlt hst hcur hsw).1

theorem OnlyRegs.runEq (h : OnlyRegs f) (x : Env) : x.RunEq (f x) := by
  obtain ⟨_, _, _, _, hf⟩ := h x
  rw [hf]
  exact ⟨rfl, rfl, rfl, rfl⟩

theorem RunCore.cur_only (h : RunCore s) (he : s.curenv = some e) :
    ∀ c ≠ s.cpunum, (s.cpus c).cpuEnv ≠ some e :=
  fun _ hc hx => hc (h.single hx he)

theorem Kern.schedStart_updEnv (s : Kern) (e : ℕ) {f : Env → Env} (hf : ∀ x, (f x).envId = x.envId) :
    (s.updEnv e f).schedStart = s.schedStart := by
  unfold Kern.schedStart
  rw [Kern.updEnv_curenv]
  cases s.curenv with
  | none => rfl
  | some c =>
    simp only
    rw [Kern.updEnv_proj s e Env.envId hf]

/-- The current environment gets another status. -/
theorem RunInv.markSelf (h : RunInv s) {st : EnvStatus} (hf : SetsStatus st f) (he : s.curenv = some e)
    (hsearch : (s.updEnv e f).schedScan s.schedStart nenv ≠ some e) : RunReady (s.updEnv e f) where
  toRunCore := h.toRunCore.mark hf (h.self he).ne_free (.inl (h.toRunCore.cur_only he))
  own hx := hf.own (h.own hx)
  search {x} hx := by
    have hxe : x = e := Option.some.inj (hx.symm.trans he)
    rw [Kern.schedStart_updEnv s e hf.id, hxe]
    exact hsearch

theorem runState_ctl : CtlInv RunCond RunInv RunReady RunInv RunEnd where
  left hl h := h.2 hl
  bad h hb := .of_core h.toRunCore hb
  ring _ hok hcur := hok.ring (by simp [hcur])
  save h _ := (h.started _).updEnv _ fun _ => ⟨rfl, rfl, rfl, rfl⟩
  dying h _ _ _ := h.started _
  enter h _ := ⟨h.enter _, h.started _⟩
  ready h := h.ready
  same h hs := h.same hs
  regs h hf := h.updEnv _ hf.runEq
  regsReady h hf := h.updEnv _ hf.runEq
  freeing h he hb hs := .of_core (h.toRunCore.free_stop (h.toRunCore.cur_only he) hs) hb
  freed := by
    intro s e h he
    have hf := h.toRunCore.freed_slot (h.lt he) (h.self he).ne_free (h.toRunCore.cur_only he)
    refine hf.uncurrent rfl (fun c => ?_) ?_ rfl rfl rfl
    · rw [updCpu_cpus, freed_cpunum]
      by_cases hc : c = s.cpunum
      · left
        rw [if_pos hc]
      · right
        rw [if_neg hc]
        exact ⟨hc, rfl⟩
    · rw [updCpu_cpus, freed_cpunum, if_pos rfl]
  popTf h he ha := .of_inv (h.popTf he ha) _
  again h he hs := absurd hs (h.search he)
  run h hcur hlt hst hd := .of_inv (h.run hcur hlt hst hd) _
  runNull h hcur hlt hst _ := .of_core (h.resume hcur hlt hst) rfl
  idle := by
    intro s h _
    have hi : RunInv s.idle := by
      refine h.toRunCore.uncurrent rfl (fun c => ?_) ?_ rfl rfl rfl
      · rw [idle_cpus]
        by_cases hc : c = s.cpunum
        · left
          rw [if_pos hc]
        · right
          rw [if_neg hc]
          exact ⟨hc, rfl⟩
      · rw [idle_cpus, if_pos rfl]
    exact .of_inv hi _
  created := by
    intro s c e d binary type s' h _ hcur hl hs
    have ha : RunInv ((s.enter c).allocated e 0 d) := (h.enter c).allocated hl
    have hc := ha.updEnv e (f := (·.created type binary.entry)) fun _ => ⟨rfl, rfl, rfl, rfl⟩
    -- the processor runs nothing, so what it loads does not matter
    have hnone : (((s.enter c).allocated e 0 d).cpus c).cpuEnv = none := hcur
    refine RunInv.same (s := (((s.enter c).allocated e 0 d).updEnv e
      (·.created type binary.entry)).updCpu c ({ · with cr3 := s.mm.kernPgdir })) ?_ hs
    refine hc.toRunCore.uncurrent rfl (fun x => ?_) ?_ rfl rfl rfl
    · rw [updCpu_cpus]
      by_cases hx : x = c
      · left
        rw [if_pos hx, hx]
        exact hnone
      · right
        rw [if_neg hx]
        exact ⟨hx, rfl⟩
    · show (Kern.cpus _ c).cpuEnv = none
      rw [updCpu_cpus, if_pos rfl]
      exact hnone
  creating := by
    intro s c e d st s' h _ hl hb hs
    have hinv : RunInv ((s.enter c).allocated e 0 d) := (h.enter c).allocated hl
    refine .of_core (hinv.toRunCore.congr (fun x => ?_) (fun x => ?_) (fun x hx => ?_)
      hs.cpunum hs.envFreeList fun _ => hs.mm.envFree_mem) hb
    · obtain ⟨_, hx⟩ := hs.envs x
      rw [hx]
      exact ⟨rfl, rfl, rfl, rfl⟩
    · obtain ⟨_, hx⟩ := hs.cpus x
      rw [hx]
    · rw [hs.others x hx]
  quiet h hs := (h.enter _).same hs
  quietBad h hs hb := .of_core ((h.enter _).same hs).toRunCore hb

/-! ### The calls that change the table -/

section Calls

variable {s : Kern} {e : ℕ}

theorem runState_destroy (h : RunInv s) (he : s.curenv = some e) {x : ℕ}
    (hx : s.curenv = some x ∨ (x < nenv ∧ (s.envs x).envStatus ≠ .free))
    (hdying : (s.envs x).envStatus = .dying → ∀ c ≠ s.cpunum, (s.cpus c).cpuEnv ≠ some x) :
    wp (envDestroy x) (fun _ s' => RunReady s' ∧ s'.curenv = some e) RunEnd s := by
  by_cases hself : s.curenv = some x
  · exact EntryInv.no_ret (runState_ctl.destroy h hself)
  · obtain ⟨hlt, hne⟩ := hx.resolve_left hself
    -- an environment that is not marked is current nowhere
    have hcur : ¬ ((s.envs x).envStatus = .running ∧ s.curenv ≠ some x) →
        ∀ c ≠ s.cpunum, (s.cpus c).cpuEnv ≠ some x := by
      intro hn c hc hcx
      rcases h.other hc hcx with hr | hd
      · exact hn ⟨hr, hself⟩
      · exact hdying hd c hc hcx
    refine wp_envDestroy (fun hr _ => ?_) (fun s' hn hs _ => ?_)
      (fun s' _ hc => absurd hc hself) fun st s' hn hb hs => ?_
    · have hm : RunInv (s.updEnv x ({ · with envStatus := .dying })) :=
        h.mark (.set _) hne (.inr (.inr rfl))
      exact ⟨hm.ready, he⟩
    · have hf := h.toRunCore.freed_slot hlt hne (hcur hn)
      have hcur' : (s.freed x).curenv = s.curenv := by
        rw [Kern.curenv, Kern.thiscpu, freed_cpus, freed_cpunum]
        split <;> rfl
      have hinv : RunInv (s.freed x) := by
        refine ⟨hf, fun {y} hy => ?_, fun {y} hy => ?_⟩ <;> rw [hcur'] at hy <;>
          have hyx : y ≠ x := fun hyx => hself (hyx ▸ hy)
        · unfold Kern.Active
          rw [freed_envs, if_neg hyx]
          exact h.self hy
        · rw [freed_envs, if_neg hyx, Kern.thiscpu, freed_cpus, if_neg fun hh => hself hh.1,
            freed_cpunum]
          exact h.own hy
      exact ⟨(hinv.same hs).ready, by rw [hs.curenv, hcur', he]⟩
    · exact .of_core (h.toRunCore.free_stop (hcur hn) hs) hb

theorem runState_exofork (h : RunInv s) (he : s.curenv = some e) :
    wp sysExofork (fun _ s' => RunReady s' ∧ s'.curenv = some e) RunEnd s := by
  rw [sysExofork, wp_bind_of_ret (curenvPtr_eq he), wp_bind, wp_get, wp_bind]
  refine wp_envAlloc (fun r s' hs => ?_) (fun x d s' hl hs => ?_) fun st s' hb hs => ?_
  · exact ⟨(h.same hs).ready, hs.curenv.trans he⟩
  · have ha : RunInv s' := (h.allocated hl).same hs
    have hst : (s'.envs x).envStatus = .runnable := by
      rw [hs.envs, allocated_envs, if_pos rfl]
      rfl
    have hnc : ∀ c, (s'.cpus c).cpuEnv ≠ some x := ha.not_current fun hact =>
      hact.ne_runnable hst
    simp only
    rw [wp_bind, setStatus, wp_modify, wp_bind, wp_modify, wp_gets]
    have hm : RunInv (s'.updEnv x ({ · with envStatus := .notRunnable })) :=
      ha.mark (.set _) (by rw [hst]; decide) (.inl hnc)
    refine ⟨RunInv.ready ?_, hs.curenv.trans he⟩
    exact RunInv.updEnv hm x fun _ => ⟨rfl, rfl, rfl, rfl⟩
  · exact .of_core (h.same hs).toRunCore hb

theorem RunInv.found (h : RunInv s) {envid : ℕ} {checkperm : Bool}
    (hx : s.envOf envid checkperm = some e) : e < nenv ∧ (s.envs e).envStatus ≠ .free :=
  (envOf_eq_some hx).elim (fun hc => ⟨h.lt hc, (h.self hc).ne_free⟩) id

theorem runState_setStatus (h : RunInv s) (he : s.curenv = some e) {envid status : ℕ}
    (hok : s.RunCall .envSetStatus envid status) :
    wp (sysEnvSetStatus envid status) (fun _ s' => RunReady s' ∧ s'.curenv = some e) RunEnd s := by
  rw [sysEnvSetStatus]
  refine wp_envid2env he ⟨h.ready, he⟩ fun x hx => ?_
  have hok := hok x hx
  have hne := (h.found hx).2
  simp only
  rw [wp_ite, wp_ite]
  refine ⟨fun hst => ?_, fun hst => ⟨fun hst' => ?_, fun _ => ⟨h.ready, he⟩⟩⟩
  · rw [wp_bind, setStatus, wp_modify, wp_pure]
    refine ⟨?_, he⟩
    rcases hok (.inr hst) with hn | ⟨hc, -⟩
    · exact (h.mark (.set _) hne (.inl hn)).ready
    · refine h.markSelf (.set _) hc fun hs => ?_
      have hr := schedScan_runnable hs (h.lt hc)
      rw [updEnv_envs_self] at hr
      cases hr
  · rw [wp_bind, setStatus, wp_modify, wp_pure]
    refine ⟨?_, he⟩
    rcases hok (.inl hst') with hn | ⟨hc, hsc⟩
    · exact (h.mark (.set _) hne (.inl hn)).ready
    · refine h.markSelf (.set _) hc fun hs => ?_
      have hlt := h.lt hc
      have hstart : s.schedStart = x + 1 := by
        rw [Kern.schedStart, hc]
        simp only
        rw [h.ids hlt hne]
      rw [hstart] at hs
      have hnone := schedScan_self hlt (h.self hc).ne_runnable nenv 0 (x + 1)
        (Nat.zero_add _) (fun _ => rfl) (fun h0 => absurd h0 (Nat.lt_irrefl 0)) hs
      rw [← hstart] at hnone
      exact (hsc.resolve_left hst) hnone

theorem runState_setTrapframe (h : RunInv s) (he : s.curenv = some e) (envid tf : ℕ) :
    wp (sysEnvSetTrapframe envid tf) (fun _ s' => RunReady s' ∧ s'.curenv = some e) RunEnd s := by
  rw [sysEnvSetTrapframe]
  refine wp_envid2env he ⟨h.ready, he⟩ fun x _ => ?_
  simp only
  refine (runState_ctl.keeps (keeps_envPgdirPtr x) h).bind fun d s₁ h₁ => ?_
  refine (runState_ctl.keeps (keeps_userMemCheck _ _ _ _).ctl h₁.1).bind
    fun r s₂ h₂ => ?_
  have hc₂ : s₂.curenv = some e := by rw [h₂.2, h₁.2, he]
  rw [wp_ite]
  refine ⟨fun _ => ⟨h₂.1.ready, hc₂⟩, fun _ => ?_⟩
  rw [wp_bind, rcr3, wp_gets]
  refine (runState_ctl.keeps (keeps_loadTrapframe _ _).ctl h₂.1).bind
    fun fr s₃ h₃ => ?_
  rw [wp_bind, wp_modify, wp_bind, wp_modify, wp_bind]
  have h₄ := (h₃.1.updEnv x (f := ({ · with envTf := fr })) fun _ => ⟨rfl, rfl, rfl, rfl⟩).updEnv x
    (f := fun y => { y with envTf := { y.envTf with tfEflags := y.envTf.tfEflags ||| flIf } })
    fun _ => ⟨rfl, rfl, rfl, rfl⟩
  refine (runState_ctl.keeps (keeps_orUserCs _ _).ctl h₄).imp fun _ s₅ h₅ => ?_
  exact ⟨h₅.1.ready, h₅.2.trans (h₃.2.trans hc₂)⟩

theorem runState_deliver (h : RunInv s) (he : s.curenv = some e) {x : ℕ}
    (hne : (s.envs x).envStatus ≠ .free) (hn : s.NotCurrent x) (cur value perm : ℕ) :
    wp (ipcDeliver cur x value perm) (fun _ s' => RunReady s' ∧ s'.curenv = some e) RunEnd s := by
  rw [ipcDeliver, wp_bind, wp_modify, wp_bind, wp_modify, wp_pure]
  have hm := h.mark (e := x) (f := fun y => { y with
      envIpcPerm := perm
      envIpcRecving := false
      envIpcValue := value
      envIpcFrom := (s.envs cur).envId
      envStatus := .runnable }) ⟨fun _ => rfl, fun _ => rfl, fun _ => rfl, fun _ => rfl⟩ hne (.inl hn)
  refine ⟨RunInv.ready (hm.congr (fun _ => .refl _) (fun _ => rfl) (fun _ => rfl) rfl rfl
    fun y hy => ?_), he⟩
  rcases List.mem_cons.mp hy with hy | hy
  · cases hy
  · exact hy

theorem runState_trySend (h : RunInv s) (he : s.curenv = some e) {envid value srcva perm : ℕ}
    (hok : s.RunCall .ipcTrySend envid value) :
    wp (sysIpcTrySend envid value srcva perm) (fun _ s' => RunReady s' ∧ s'.curenv = some e)
      RunEnd s := by
  rw [sysIpcTrySend, wp_bind_of_ret (curenvPtr_eq he)]
  refine (keeps_envPageLookup e srcva).wp_bind (fun found s₁ hs₁ => ?_)
    fun st s' hb hs => .of_core (h.same hs).toRunCore hb
  have h₁ := h.same hs₁
  have hc₁ : s₁.curenv = some e := hs₁.curenv.trans he
  refine wp_envid2env hc₁ ⟨h₁.ready, hc₁⟩ fun x hx => ?_
  have hne := (h₁.found hx).2
  rw [hs₁.envOf] at hx
  simp only
  rw [wp_bind, wp_get, wp_ite]
  refine ⟨fun _ => ⟨h₁.ready, hc₁⟩, fun hrecv => ?_⟩
  have hn₁ : s₁.NotCurrent x := by
    have hn := hok x hx (by rw [← hs₁.envs]; simpa using hrecv)
    intro c
    rw [hs₁.cpus]
    exact hn c
  rw [wp_ite]
  refine ⟨fun _ => ⟨h₁.ready, hc₁⟩, fun _ => ?_⟩
  match found with
  | none => exact runState_deliver h₁ hc₁ hne hn₁ _ _ _
  | some (pp, _) =>
    simp only
    rw [wp_ite]
    refine ⟨fun _ => ?_, fun _ => runState_deliver h₁ hc₁ hne hn₁ _ _ _⟩
    refine (keeps_envPageInsert _ _ _ _).wp_bind (fun ret s₂ hs₂ => ?_)
      fun st s' hb hs => .of_core (h₁.same hs).toRunCore hb
    have h₂ := h₁.same hs₂
    have hc₂ : s₂.curenv = some e := hs₂.curenv.trans hc₁
    rw [wp_ite]
    refine ⟨fun _ => ⟨h₂.ready, hc₂⟩, fun _ => runState_deliver h₂ hc₂ ?_ ?_ _ _ _⟩
    · rw [hs₂.envs]
      exact hne
    · intro c
      rw [hs₂.cpus]
      exact hn₁ c

theorem Kern.log_schedScan (s : Kern) (o : Obs) (j n : ℕ) : (s.log o).schedScan j n = s.schedScan j n := by
  apply schedScan_congr
  exact fun _ => rfl

def Kern.blocked (s : Kern) (e dstva : ℕ) : Kern :=
  (s.updEnv e fun x => { x with
    envIpcDstva := dstva
    envIpcRecving := true
    envTf := { x.envTf with tfRegs := { x.envTf.tfRegs with regEax := 0 } }
    envStatus := .notRunnable }).log (.ipcRecv e)

theorem RunInv.blocked (h : RunInv s) (he : s.curenv = some e) (dstva : ℕ) :
    RunReady (s.blocked e dstva) := by
  have hm := h.markSelf (f := fun x => { x with
      envIpcDstva := dstva
      envIpcRecving := true
      envTf := { x.envTf with tfRegs := { x.envTf.tfRegs with regEax := 0 } }
      envStatus := .notRunnable }) ⟨fun _ => rfl, fun _ => rfl, fun _ => rfl, fun _ => rfl⟩ he fun hs => by
    have hr := schedScan_runnable hs (h.lt he)
    rw [updEnv_envs_self] at hr
    cases hr
  refine ⟨hm.toRunCore.congr (fun _ => .refl _) (fun _ => rfl) (fun _ _ => rfl) rfl rfl fun y hy => ?_,
    hm.own, fun hy => ?_⟩
  · rcases List.mem_cons.mp hy with hy | hy
    · cases hy
    · exact hy
  · rw [Kern.blocked, log_schedScan]
    exact hm.search hy

theorem wp_sysIpcRecv {Q : ℤ → Kern → Prop} {R : Stop → Kern → Prop} {dstva : ℕ}
    (he : s.curenv = some e) (hfail : Q (-eInval) s)
    (hblock : wp schedYield (fun _ _ => False) R (s.blocked e dstva)) :
    wp (sysIpcRecv dstva) Q R s := by
  rw [sysIpcRecv, wp_ite]
  refine ⟨fun _ => hfail, fun _ => ?_⟩
  rw [wp_bind_of_ret (curenvPtr_eq he), wp_bind, wp_modify, wp_bind, wp_modify, wp_bind]
  exact EntryInv.no_ret hblock

theorem runState_recv (h : RunInv s) (he : s.curenv = some e) (dstva : ℕ) :
    wp (sysIpcRecv dstva) (fun _ s' => RunReady s' ∧ s'.curenv = some e) RunEnd s :=
  wp_sysIpcRecv he ⟨h.ready, he⟩ (runState_ctl.sched (h.blocked he dstva))

end Calls

theorem Kern.RunCall.entered {c : ℕ} {tf : Trapframe} {no : Sysno} {a1 a2 : ℕ}
    (h : (s.enter c).RunCall no a1 a2) : (s.entered c e tf).RunCall no a1 a2 := by
  have hcpu : ∀ x, ((s.entered c e tf).cpus x).cpuEnv = (s.cpus x).cpuEnv := by
    intro x
    show ((s.started c).cpus x).cpuEnv = _
    rw [Kern.started, updCpu_cpus]
    split <;> rfl
  have hnc : ∀ x, (s.enter c).NotCurrent x → (s.entered c e tf).NotCurrent x := by
    intro x hx y
    rw [hcpu]
    exact hx y
  have hproj : ∀ {α : Type} (g : Env → α), (∀ x, g { x with envTf := tf } = g x) → ∀ x,
      g ((s.entered c e tf).envs x) = g (s.envs x) :=
    fun g hg x => updEnv_proj (s.started c) e g hg x
  have hcur : (s.entered c e tf).curenv = (s.enter c).curenv := entered_curenv s c e tf
  have hscan : (s.entered c e tf).schedScan (s.entered c e tf).schedStart nenv =
      (s.enter c).schedScan (s.enter c).schedStart nenv := by
    have hstart : (s.entered c e tf).schedStart = (s.enter c).schedStart := by
      unfold Kern.schedStart
      rw [hcur]
      cases (s.enter c).curenv with
      | none => rfl
      | some x =>
        simp only
        rw [hproj Env.envId fun _ => rfl]
        rfl
    rw [hstart]
    refine schedScan_congr (fun j => ?_) _ _
    unfold Kern.statusWord
    rw [hproj Env.envStatus fun _ => rfl]
    rfl
  cases no with
  | envSetStatus =>
    intro x hx hst
    rw [entered_envOf] at hx
    rw [hscan, hcur]
    exact (h x hx hst).imp_left (hnc x)
  | envDestroy =>
    intro x hx hst y hy
    rw [entered_envOf] at hx
    rw [hproj Env.envStatus fun _ => rfl] at hst
    rw [hcpu]
    exact h x hx hst y hy
  | ipcTrySend =>
    intro x hx hr
    rw [entered_envOf] at hx
    rw [hproj Env.envIpcRecving fun _ => rfl] at hr
    exact hnc x (h x hx hr)
  | _ => trivial

theorem runState_calls : CtlCalls RunCond RunReady RunInv RunEnd := by
  intro s c e tf cr2 no h ht hno hctl
  have hK := runState_ctl.save h ht
  have he : (s.entered c e tf).curenv = some e := by rw [entered_curenv, ht.cur]
  have hok : (s.entered c e tf).RunCall no tf.arg1 tf.arg2 := (ht.ok.call tf rfl no hno).entered
  cases no with
  | envDestroy =>
    rw [Sysno.run, sysEnvDestroy]
    refine wp_envid2env he ⟨hK.ready, he⟩ fun x hx => ?_
    simp only
    rw [wp_bind]
    exact runState_destroy hK he (envOf_eq_some hx) (hok x hx)
  | exofork => exact runState_exofork hK he
  | envSetStatus => exact runState_setStatus hK he hok
  | envSetTrapframe => exact runState_setTrapframe hK he _ _
  | ipcTrySend => exact runState_trySend hK he hok
  | ipcRecv => exact runState_recv hK he _
  | _ => cases hctl

theorem RunInv.of_booted {free : List ℕ} (h : Booted s free) : RunInv s where
  single hc := by
    rw [h.cpu_env] at hc
    cases hc
  lt hc := by
    rw [h.cpu_env] at hc
    cases hc
  other _ hc := by
    rw [h.cpu_env] at hc
    cases hc
  list := ⟨_, h.env_list, fun e he =>
    ⟨List.mem_range.mp he, h.env_free e (List.mem_range.mp he)⟩⟩
  ids hlt hne := absurd (h.env_free _ hlt) hne
  freed he := by
    rw [h.trace] at he
    cases he
  loaded _ hc := by
    rw [h.cpu_env] at hc
    cases hc
  self hc := by
    rw [Kern.curenv, Kern.thiscpu, h.cpu_env] at hc
    cases hc
  own hc := by
    rw [Kern.curenv, Kern.thiscpu, h.cpu_env] at hc
    cases hc

/-- In every state reached by steps that meet `RunCond`, each environment is
current on at most one processor, the current ones are running or dying, and
no entry frees an environment that is current on another processor. -/
theorem run_state {s₀ s : Kern} {free : List ℕ} (hb : Booted s₀ free)
    (hr : Sys.Reach Kern.step RunCond s₀ s) :
    (∀ c c' e, (s.cpus c).cpuEnv = some e → (s.cpus c').cpuEnv = some e → c = c') ∧
    (∀ c e, (s.cpus c).cpuEnv = some e →
      (s.envs e).envStatus = .running ∨ (s.envs e).envStatus = .dying) ∧
    (∀ e, (s.envs e).envStatus = .runnable → s.NotCurrent e) ∧
    ∀ c ev, ev.Enabled s c → RunCond s (c, ev) →
      ∀ e, Obs.envFree e ∈ (ev.exec (s.enter c)).state.mm.trace →
        ∀ c' ≠ c, (s.cpus c').cpuEnv ≠ some e := by
  have I := runState_ctl.entry runState_calls
  have h : RunInv s := I.reach (RunInv.of_booted hb) hr
  refine ⟨fun c c' e => h.single, fun c e => h.active, fun e he => ?_, fun c ev hen hok e hf => ?_⟩
  · exact h.not_current fun ha => ha.ne_runnable he
  · -- the other processors have not changed when the entry ends
    have hcore : RunCore (ev.exec (s.enter c)).state :=
      ((I.exec h hen hok).mono (fun _ _ h => h.toRunCore) fun _ _ h => h.1).state
    have hothers : (s.enter c).SameOthers (ev.exec (s.enter c)).state :=
      ((others_exec ev (s.enter c)).mono (fun _ _ h => h) fun _ _ h => h.1).state
    intro c' hc'
    have hne := hcore.freed hf c' (by rw [hothers.cpunum]; exact hc')
    rw [hothers.cpus c' hc'] at hne
    exact hne


/-- Two environments; the first suspends itself and the second runs. -/
theorem run_state_suspend : ∃ s, Sys.Reach Kern.step RunCond (machine 16) s ∧
    (s.cpus 0).cpuEnv = some 1 ∧ (s.envs 0).envStatus = .notRunnable ∧
    ((s.envs 1).envStatus = .running ∨ (s.envs 1).envStatus = .dying) := by
  let ok : Kern → ℕ × Event → Prop := fun s l => s.Contained l ∧ s.Ring3 l ∧
    ∀ tf ∈ l.2.frame, ∀ no ∈ tf.sysno, no = .envSetStatus ∧
      ∀ e ∈ (s.enter l.1).envOf tf.arg1 true, (s.enter l.1).curenv = some e ∧
        tf.arg2 = EnvStatus.notRunnable.code
  have hok : ∀ s l, ok s l → RunCond s l := by
    rintro s l ⟨hc, hring, hcall⟩
    refine ⟨hc, hring, fun tf htf no hno => ?_⟩
    obtain ⟨rfl, he⟩ := hcall tf htf no hno
    exact fun e hx _ => .inr ⟨(he e hx).1, .inl (he e hx).2⟩
  let steps : List (ℕ × Event) := [(0, .create image .user), (0, .create image .user),
    (0, .start), (0, call 8 0 4 0 0 0)]
  have hall : Sys.AllOk Kern.step ok steps (machine 16) := by decide +kernel
  obtain ⟨s, hs, hcur, hst⟩ := Sys.exists_reach_of (P := fun s => (s.cpus 0).cpuEnv = some 1 ∧ (s.envs
      0).envStatus = .notRunnable) hall (by decide +kernel)
  have hr := hs.mono hok
  exact ⟨s, hr, hcur, hst, (run_state (machine_booted 16 (by decide)) hr).2.1 0 1 hcur⟩

/-- The only environment makes itself runnable: the scheduler then picks it
again and leaves it current with that status. -/
theorem set_status_breaks_run_state : Booted (machine 16) (List.range' 512 16) ∧
    ∃ s, Sys.Reach Kern.step (fun _ _ => True) (machine 16) s ∧
      (s.cpus 0).cpuEnv = some 0 ∧ (s.envs 0).envStatus = .runnable := by
  refine ⟨machine_booted 16 (by decide), ?_⟩
  exact Sys.exists_reach_of (Sys.allOk_true [(0, .create image .user), (0, .start), (0, call 8 0 2 0 0 0)]
      _) (by decide +kernel)

end Jos
