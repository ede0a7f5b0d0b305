/-
Traps (`kern/trap.c`) and the machine around the kernel.

A `Kern` value between two steps is the state with the big kernel lock free.
One step is one thing a processor does: it traps out of user code, is woken by
an interrupt, enters the scheduler for the first time, executes a user store,
or creates an environment during start-up; devices change on their own.  A
kernel entry is one step because the lock is held from its beginning to its
end.

* `Event.exec` — the kernel code an event runs;
* `Event.Enabled` — when it can happen, and what the hardware guarantees about
  the trap frame it pushes;
* `Kern.step` — one step, as a partial function; its runs are those of
  `Sys.Reach`.
-/
import Jos.Lib.Run
import Jos.Kern.Syscall

namespace Jos

open Prog

/-! ### Trap handling -/

def tBrkpt : UInt32 := 3
def tPgflt : UInt32 := 14
def tSyscall : UInt32 := 48
def irqTimer : UInt32 := 32
def irqKbd : UInt32 := 33
def irqSerial : UInt32 := 36
def irqSpurious : UInt32 := 39

def sizeofUTrapframe : ℕ := 52

def vstore32 (pd va w : ℕ) : MmM Unit := do
  vstore pd va w
  vstore pd (va + 1) (w / 2 ^ 8)
  vstore pd (va + 2) (w / 2 ^ 16)
  vstore pd (va + 3) (w / 2 ^ 24)

/-- The fault record, field by field as `page_fault_handler` stores it. -/
def storeUtf (cr3 utf : ℕ) (tf : Trapframe) (faultVa : ℕ) : MmM Unit := do
  vstore32 cr3 (utf + 8) tf.tfRegs.regEdi.toNat
  vstore32 cr3 (utf + 12) tf.tfRegs.regEsi.toNat
  vstore32 cr3 (utf + 16) tf.tfRegs.regEbp.toNat
  vstore32 cr3 (utf + 20) tf.tfRegs.regOesp.toNat
  vstore32 cr3 (utf + 24) tf.tfRegs.regEbx.toNat
  vstore32 cr3 (utf + 28) tf.tfRegs.regEdx.toNat
  vstore32 cr3 (utf + 32) tf.tfRegs.regEcx.toNat
  vstore32 cr3 (utf + 36) tf.tfRegs.regEax.toNat
  vstore32 cr3 (utf + 40) tf.tfEip.toNat
  vstore32 cr3 (utf + 4) tf.tfErr.toNat
  vstore32 cr3 (utf + 48) tf.tfEsp.toNat
  vstore32 cr3 utf faultVa
  vstore32 cr3 (utf + 44) tf.tfEflags.toNat

/-- Where the fault record goes: below the trap-time stack pointer, with one
scratch word, if that is on the exception stack already. -/
def utfAddr (esp : ℕ) : ℕ :=
  if esp < uxstacktop ∧ esp ≥ uxstacktop - pgsize then esp - sizeofUTrapframe - 4
  else uxstacktop - sizeofUTrapframe

def pageFaultHandler (tf : Trapframe) (faultVa : ℕ) : KernM Unit := do
  if tf.tfCs &&& 3 = 0 then halt kernelFault
  else do
    let cur ← curenvPtr
    let s ← get
    when ((s.envs cur).envPgfaultUpcall = 0 ∨
      (ustacktop < tf.tfEsp.toNat ∧ tf.tfEsp.toNat < uxstacktop - pgsize)) (envDestroy cur)
    let utf := utfAddr tf.tfEsp.toNat
    userMemAssert cur utf sizeofUTrapframe (pteW ||| pteU ||| pteP)
    let cr3 ← rcr3
    liftMm (storeUtf cr3 utf tf faultVa)
    modify (·.updEnv cur fun x =>
      { x with envTf := { x.envTf with
        tfEip := .ofNat x.envPgfaultUpcall
        tfEsp := .ofNat utf } })
    envRun cur

def timeTick : KernM Unit := do
  modify fun s => { s with ticks := (s.ticks + 1) % 2 ^ 32 }
  let s ← get
  when (s.ticks * 10 % 2 ^ 32 < s.ticks) (halt (.panic "time_tick: time overflowed"))

/-- `trap_dispatch`.  `tf` is the frame; for a trap out of environment `e` it
lives in `e->env_tf`, which is where the return value goes. -/
def trapDispatch (tf : Trapframe) (e : Option ℕ) (faultVa : ℕ) : KernM Unit :=
  if tf.tfTrapno = tPgflt then pageFaultHandler tf faultVa
  else if tf.tfTrapno = tBrkpt then pure ()
  else if tf.tfTrapno = tSyscall then do
    let r ← syscall tf.tfRegs.regEax tf.tfRegs.regEdx tf.tfRegs.regEcx tf.tfRegs.regEbx
      tf.tfRegs.regEdi tf.tfRegs.regEsi
    match e with
    | some e => modify (·.updEnv e fun x =>
        { x with envTf := { x.envTf with
          tfRegs := { x.envTf.tfRegs with regEax := .ofInt r } } })
    | none => pure ()
  else if tf.tfTrapno = irqSpurious then pure ()
  else if tf.tfTrapno = irqTimer then do
    timeTick
    schedYield
  else if tf.tfTrapno = irqKbd then pure ()
  else if tf.tfTrapno = irqSerial then pure ()
  else if tf.tfCs = UInt16.ofNat gdKt then halt (.panic "unhandled trap in kernel")
  else do
    let cur ← curenvPtr
    envDestroy cur

/-- The end of `trap`: back to the current environment if it still runs. -/
def trapReturn : KernM Unit := do
  let s ← get
  match s.curenv with
  | some e => if (s.envs e).envStatus = .running then envRun e else schedYield
  | none => schedYield

/-- `trap`, with the fault address in `%cr2`. -/
def trap (tf : Trapframe) (cr2 : ℕ) : KernM Unit := do
  modify fun s => s.updCpu s.cpunum ({ · with cpuStatus := .started })
  if tf.tfCs &&& 3 = 3 then do
    let s ← get
    match s.curenv with
    | none => halt (.panic "assertion failed: curenv")
    | some e =>
      if (s.envs e).envStatus = .dying then do
        envFree e
        setCurenv none
        schedYield
      else do
        modify (·.updEnv e ({ · with envTf := tf }))
        trapDispatch tf (some e) cr2
        trapReturn
  else do
    trapDispatch tf none cr2
    trapReturn

/-! ### The machine -/

/-- What a processor can do next. -/
inductive Event where
  /-- Leave user code through a trap gate, with this frame and `%cr2`. -/
  | trap (tf : Trapframe) (cr2 : ℕ)
  /-- Be woken while halted. -/
  | intr (trapno : UInt32)
  /-- Call `sched_yield` for the first time. -/
  | start
  /-- Execute a user store. -/
  | store (va b : ℕ)
  /-- `env_create`, during start-up. -/
  | create (binary : Image) (type : EnvType)
  /-- Not the processor, but a device: the network card or the console. -/
  | device (nic : Nic) (consGetc : ℤ)

/-- Take the kernel lock on processor `c`; the observations start anew. -/
def Kern.enter (s : Kern) (c : ℕ) : Kern :=
  { s with cpunum := c, mm := { s.mm with trace := [] } }

/-- A user store, if the MMU allows it. -/
def userStore (va b : ℕ) : KernM Unit := do
  let cr3 ← rcr3
  let s ← get
  when (s.mm.uWrites cr3 va) (liftMm (modify (·.setByte cr3 va b)))

def Event.exec : Event → KernM Unit
  | .trap tf cr2 => Jos.trap tf cr2
  | .intr trapno => Jos.trap { tfTrapno := trapno, tfCs := UInt16.ofNat gdKt } 0
  | .start => schedYield
  | .store va b => userStore va b
  | .create binary type => envCreate binary type
  | .device nic c => modify ({ · with nic := nic, consGetc := c })

/-- What the hardware guarantees about the frame of a trap out of user code
that was entered with the given code segment and flags: code in ring 3 stays
there, cannot change the I/O privilege level, and can change the interrupt
flag only if that level allows it. -/
def FrameFrom (cs : UInt16) (eflags : UInt32) (tf : Trapframe) : Prop :=
  cs &&& 3 = 3 →
    tf.tfCs &&& 3 = 3 ∧ tf.tfEflags &&& flIoplMask = eflags &&& flIoplMask ∧
    (eflags &&& flIoplMask ≠ flIopl3 → tf.tfEflags &&& flIf = eflags &&& flIf)
  deriving Decidable

/-- When an event can happen on processor `c`. -/
def Event.Enabled (s : Kern) (c : ℕ) : Event → Prop
  | .trap tf _ => (s.cpus c).cpuEnv ≠ none ∧ FrameFrom (s.cpus c).cs (s.cpus c).eflags tf
  | .intr _ => (s.cpus c).cpuStatus = .halted ∧ (s.cpus c).cpuEnv = none
  | .start => (s.cpus c).cpuStatus ≠ .halted ∧ (s.cpus c).cpuEnv = none
  | .store _ _ => (s.cpus c).cpuEnv ≠ none
  | .create _ _ => (s.cpus c).cpuStatus ≠ .halted ∧ (s.cpus c).cpuEnv = none
  | .device _ _ => True

instance (s : Kern) (c : ℕ) (ev : Event) : Decidable (ev.Enabled s c) :=
  match ev with
  | .trap _ _ => inferInstanceAs (Decidable (_ ∧ _))
  | .intr _ => inferInstanceAs (Decidable (_ ∧ _))
  | .start => inferInstanceAs (Decidable (_ ∧ _))
  | .store _ _ => inferInstanceAs (Decidable (_ ≠ _))
  | .create _ _ => inferInstanceAs (Decidable (_ ∧ _))
  | .device _ _ => inferInstanceAs (Decidable True)

/-- The ways out of the kernel that are not the end of the machine. -/
def Stop.leaves : Stop → Bool
  | .user => true
  | .halted => true
  | _ => false

/-- The other ways out. -/
def Stop.bad (st : Stop) : Prop := st.leaves = false

/-- The state an entry leaves the kernel in, if it does. -/
def Outcome.left : Outcome Stop Kern Unit → Option Kern
  | .ret _ s => some s
  | .stop st s => if st.leaves then some s else none

/-- One step of processor `c`.  An entry that ends in a panic, in the monitor
or outside of what the model describes has no next state. -/
def Kern.step (s : Kern) (l : ℕ × Event) : Option Kern :=
  if l.2.Enabled s l.1 then Outcome.left (l.2.exec (s.enter l.1)) else none

theorem Kern.step_eq_some {s s' : Kern} {l : ℕ × Event} (h : s.step l = some s') :
    l.2.Enabled s l.1 ∧ Outcome.left (l.2.exec (s.enter l.1)) = some s' := by
  unfold Kern.step at h
  split at h
  · exact ⟨‹_›, h⟩
  · cases h

theorem left_of_wp {m : KernM Unit} {P : Kern → Prop} {s s' : Kern}
    (h : wp m (fun _ t => P t) (fun st t => st.leaves → P t) s)
    (hs : Outcome.left (m s) = some s') : P s' := by
  cases hm : m s with
  | ret a t =>
    rw [hm] at hs
    cases hs
    exact h.ret hm
  | stop st t =>
    rw [hm] at hs
    by_cases hl : st.leaves
    · simp only [Outcome.left, hl, if_true, Option.some.injEq] at hs
      subst hs
      exact h.stop hm hl
    · simp [Outcome.left, hl] at hs

end Jos
