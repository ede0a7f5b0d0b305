/-
The big kernel lock: `spin_lock` and `spin_unlock` of kern/spinlock.c, with the
code of kern/trap.c, kern/env.c and kern/sched.c around their calls.

Every read of the lock and every `xchg` is a step of its own, and the steps of
the processors interleave in any order.  `trap` takes the lock in two places:
for a processor that was halted, and for one that comes from user mode.

* `big_kernel_lock` — one processor at a time is in the kernel, and neither
  function panics.
-/
import Jos.Kern.State
import Jos.Lib.Run

namespace Jos

open Function

/-- Where a call of `lock_kernel` returns to: the test of `tf_cs` in `trap`, with
its outcome, or the rest of the kernel. -/
inductive LockRet where
  | ring (user : Bool)
  | kernel

inductive LockPc where
  | user
  /-- at `hlt` -/
  | halted
  /-- at `xchg(&thiscpu->cpu_status, CPU_STARTED)` -/
  | trap (user : Bool)
  /-- at the test of `tf_cs` -/
  | ring (user : Bool)
  /-- in `spin_lock`: the two reads of `holding`, the loop, `lk->cpu = thiscpu` -/
  | lockRead (ret : LockRet)
  | lockCpu (ret : LockRet)
  | spin (ret : LockRet)
  | record (ret : LockRet)
  | kernel
  /-- in `spin_unlock`, called by `sched_halt` or by `env_run`: the two reads of
  `holding`, `lk->cpu = 0`, `xchg(&lk->locked, 0)` -/
  | unlockRead (halt : Bool)
  | unlockCpu (halt : Bool)
  | clear (halt : Bool)
  | release (halt : Bool)
  | panic

structure LockCpu where
  cpuStatus : CpuStatus
  pc : LockPc

structure LockSys where
  locked : Bool
  cpu : Option ℕ
  cpus : ℕ → LockCpu

inductive LockEvent where
  /-- a trap, out of user mode or of `hlt` -/
  | trap
  | run
  /-- the kernel is done, and calls `env_run` or `sched_halt` -/
  | leave (halt : Bool)

@[simp]
def LockRet.pc : LockRet → LockPc
  | ring user => .ring user
  | kernel => .kernel

@[simp]
def LockRet.twice : LockRet → Bool
  | ring user => user
  | kernel => false

namespace LockSys

/-- The processors are about to take the lock, in `i386_init` and `mp_main`. -/
def init : LockSys := ⟨false, none, fun _ => ⟨.started, .lockRead .kernel⟩⟩

def goto (s : LockSys) (c : ℕ) (p : LockPc) (st : CpuStatus := (s.cpus c).cpuStatus) : LockSys :=
  { s with cpus := update s.cpus c ⟨st, p⟩ }

/-- What processor `c` does next. -/
def run (s : LockSys) (c : ℕ) : Option LockSys :=
  match (s.cpus c).pc with
  | .trap user =>
    -- `sched_halt` has given up the lock, so a halted processor takes it here
    let p : LockPc := if (s.cpus c).cpuStatus = .halted then .lockRead (.ring user) else .ring user
    some (s.goto c p .started)
  | .ring user => some (s.goto c (if user then .lockRead .kernel else .kernel))
  | .lockRead ret => some (s.goto c (if s.locked then .lockCpu ret else .spin ret))
  | .lockCpu ret => some (s.goto c (if s.cpu = some c then .panic else .spin ret))
  | .spin ret =>
    some ({ s with locked := true }.goto c (if s.locked then .spin ret else .record ret))
  | .record ret => some ({ s with cpu := some c }.goto c ret.pc)
  | .unlockRead halt => some (s.goto c (if s.locked then .unlockCpu halt else .panic))
  | .unlockCpu halt => some (s.goto c (if s.cpu = some c then .clear halt else .panic))
  | .clear halt => some ({ s with cpu := none }.goto c (.release halt))
  | .release halt => some ({ s with locked := false }.goto c (if halt then .halted else .user))
  | _ => none

def step (s : LockSys) : ℕ × LockEvent → Option LockSys
  | (c, .trap) =>
    match (s.cpus c).pc with
    | .user => some (s.goto c (.trap true))
    | .halted => some (s.goto c (.trap false))
    | _ => none
  | (c, .run) => s.run c
  | (c, .leave halt) =>
    match (s.cpus c).pc with
    | .kernel => some (s.goto c (.unlockRead halt) (if halt then .halted else (s.cpus c).cpuStatus))
    | _ => none

end LockSys

/-! ### The invariant -/

namespace LockPc

@[simp]
def holds : LockPc → Bool
  | ring u => !u
  | record _ | kernel | unlockRead _ | unlockCpu _ | clear _ | release _ => true
  | _ => false

@[simp]
def named : LockPc → Bool
  | ring u => !u
  | kernel | unlockRead _ | unlockCpu _ | clear _ => true
  | _ => false

@[simp]
def sleeps : LockPc → Bool
  | trap u => !u
  | unlockRead halt | unlockCpu halt | clear halt | release halt => halt
  | halted => true
  | _ => false

/-- It takes the lock for the second time in one `trap`, or has found that. -/
@[simp]
def bad : LockPc → Bool
  | lockRead ret | lockCpu ret | spin ret | record ret => ret.twice
  | panic => true
  | _ => false

end LockPc

/-- What is known of processor `c` when `o` has the lock. -/
structure LockAt (cpu o : Option ℕ) (c : ℕ) (x : LockCpu) : Prop where
  holds : x.pc.holds ↔ o = some c
  named : x.pc.named ↔ cpu = some c
  sleeps : x.pc.sleeps ↔ x.cpuStatus = .halted
  fine : ¬ x.pc.bad

structure LockInv (s : LockSys) (o : Option ℕ) : Prop where
  locked : s.locked = o.isSome
  each : ∀ c, LockAt s.cpu o c (s.cpus c)

section Lock

variable {s s' : LockSys} {o o' cpu : Option ℕ} {c : ℕ} {p : LockPc} {st : CpuStatus} {l : Bool}

theorem LockInv.goto (h : LockInv s o) (hl : l = o'.isSome)
    (howner : ∀ x ≠ c, o' = some x ↔ o = some x) (hcpu : ∀ x ≠ c, cpu = some x ↔ s.cpu = some x)
    (hc : LockAt cpu o' c ⟨st, p⟩) :
    LockInv (LockSys.goto { s with locked := l, cpu := cpu } c p st) o' := by
  refine ⟨hl, fun x => ?_⟩
  by_cases hx : x = c
  · subst hx
    simpa [LockSys.goto] using hc
  · obtain ⟨h₁, h₂, h₃, h₄⟩ := h.each x
    simp only [LockSys.goto, update_of_ne hx]
    exact ⟨h₁.trans (howner x hx).symm, h₂.trans (hcpu x hx).symm, h₃, h₄⟩

theorem LockInv.move (h : LockInv s o) (hc : LockAt s.cpu o c ⟨st, p⟩) : LockInv (s.goto c p st) o :=
  h.goto h.locked (fun _ _ => Iff.rfl) (fun _ _ => Iff.rfl) hc

theorem LockPc.holds_of_named (h : p.named) : p.holds := by
  cases p <;> simp_all

theorem LockInv.run (h : LockInv s o) (hs : s.run c = some s') : ∃ o', LockInv s' o' := by
  obtain ⟨hh, hn, hst, hb⟩ := h.each c
  have hl := h.locked
  unfold LockSys.run at hs
  cases hp : (s.cpus c).pc with
  | trap user | ring user =>
    simp only [hp] at *
    cases hs
    refine ⟨o, h.move ?_⟩
    cases user <;> constructor <;> simp_all
  | lockRead _ | lockCpu _ | unlockRead _ | unlockCpu _ =>
    simp only [hp] at *
    cases hs
    refine ⟨o, h.move ?_⟩
    split <;> constructor <;> simp_all
  | spin ret =>
    simp only [hp] at *
    cases hs
    by_cases hlocked : s.locked = true
    · refine ⟨o, h.goto (hlocked ▸ hl) (fun _ _ => Iff.rfl) (fun _ _ => Iff.rfl) ?_⟩
      constructor <;> simp_all
    · -- nobody has the lock: the `xchg` has found a zero
      have ho : o = none := by simpa [hlocked] using hl.symm
      refine ⟨some c, h.goto rfl (fun x hx => ?_) (fun _ _ => Iff.rfl) ?_⟩
      · simp [ho, Ne.symm hx]
      · constructor <;> simp_all
  | record ret =>
    simp only [hp] at *
    cases hs
    have ho : o = some c := hh.mp rfl
    refine ⟨o, h.goto hl (fun _ _ => Iff.rfl) (fun x hx => ?_) ?_⟩
    · have hno : s.cpu ≠ some x := fun hx' => hx <| Option.some.inj <|
        ((h.each x).holds.mp (LockPc.holds_of_named ((h.each x).named.mpr hx'))).symm.trans ho
      simp [hno, Ne.symm hx]
    · cases ret with
      | ring user => cases user <;> constructor <;> simp_all
      | kernel => constructor <;> simp_all
  | clear halt =>
    simp only [hp] at *
    cases hs
    refine ⟨o, h.goto hl (fun _ _ => Iff.rfl) (fun x hx => ?_) ?_⟩
    · simp_all [eq_comm]
    · constructor <;> simp_all
  | release halt =>
    simp only [hp] at *
    cases hs
    refine ⟨none, h.goto rfl (fun x hx => ?_) (fun _ _ => Iff.rfl) ?_⟩
    · simp_all [eq_comm]
    · cases halt <;> constructor <;> simp_all
  | _ =>
    rw [hp] at hs
    cases hs

theorem LockInv.step (h : LockInv s o) {e : ℕ × LockEvent} (hs : s.step e = some s') :
    ∃ o', LockInv s' o' := by
  obtain ⟨c, e⟩ := e
  obtain ⟨hh, hn, hst, hb⟩ := h.each c
  cases e with
  | run => exact h.run hs
  | trap =>
    unfold LockSys.step at hs
    dsimp only at hs
    split at hs
    all_goals cases hs
    all_goals
      refine ⟨o, h.move ?_⟩
      constructor <;> simp_all
  | leave halt =>
    unfold LockSys.step at hs
    dsimp only at hs
    split at hs
    · cases hs
      refine ⟨o, h.move ?_⟩
      cases halt <;> constructor <;> simp_all
    · cases hs

end Lock

/-- **The big kernel lock.**  For any number of processors and any order of their
steps: no processor panics in `spin_lock` or `spin_unlock`; a processor that is in the
kernel has the lock, and `lk->cpu` names it, so there is at most one; and the lock is
held by a processor as long as it is taken. -/
theorem big_kernel_lock {s : LockSys}
    (hrun : Sys.Reach LockSys.step (fun _ _ => True) LockSys.init s) :
    (∀ c, (s.cpus c).pc ≠ .panic) ∧
    (∀ c, (s.cpus c).pc = .kernel → s.locked = true ∧ s.cpu = some c) ∧
    (∀ c c', (s.cpus c).pc.holds → (s.cpus c').pc.holds → c = c') ∧
    (s.locked = true → ∃ c, (s.cpus c).pc.holds) := by
  obtain ⟨o, h⟩ := hrun.inv (I := fun s => ∃ o, LockInv s o)
    ⟨none, rfl, fun c => by constructor <;> simp [LockSys.init]⟩ fun _ _ _ ⟨_, h⟩ _ hs => h.step hs
  have hholds : ∀ c, (s.cpus c).pc.holds → o = some c := fun c => (h.each c).holds.mp
  refine ⟨fun c hc => ?_, fun c hc => ?_, fun c c' hc hc' => ?_, fun hl => ?_⟩
  · exact (h.each c).fine (by rw [hc]; rfl)
  · have hat := h.each c
    rw [h.locked, hholds c (by rw [hc]; rfl)]
    exact ⟨rfl, hat.named.mp (by rw [hc]; rfl)⟩
  · exact Option.some.inj ((hholds c hc).symm.trans (hholds c' hc'))
  · rw [h.locked] at hl
    obtain ⟨c, rfl⟩ := Option.isSome_iff_exists.mp hl
    exact ⟨c, (h.each c).holds.mpr rfl⟩

theorem big_kernel_lock_two : ∃ s, Sys.Reach LockSys.step (fun _ _ => True) LockSys.init s ∧
    (s.cpus 0).pc = .kernel ∧ s.cpu = some 0 ∧ (s.cpus 1).pc = .spin .kernel := by
  have hrun : Sys.Reach LockSys.step (fun _ _ => True) LockSys.init _ :=
    Sys.reach_of_runAll (Sys.allOk_true
      [(0, .run), (0, .run), (0, .run), (1, .run), (1, .run), (1, .run)] _) rfl
  exact ⟨_, hrun, rfl, ((big_kernel_lock hrun).2.1 0 rfl).2, rfl⟩

end Jos
