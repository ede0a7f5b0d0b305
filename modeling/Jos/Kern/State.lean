/-
The state of the kernel.

`Mm` is what `kern/pmap.c` works on: physical memory, the `pages` array with
its free list, and the kernel's page directory.  `Kern` adds the environment
table, the processors, the clock and the network card.

Pointers into kernel tables are indexes: a `struct PageInfo *` is a page
number, a `struct Env *` a slot of `envs`, a `pde_t *` the number of the page
that holds the directory, a `pte_t *` a page number with a word index.  A null
pointer is `none`.

`Obs` records what no field of the state shows: accesses made through a
pointer that a user passed in, reads through a null page table entry pointer,
and which environments were freed or took part in IPC.
-/
import Jos.Lib.Prog
import Jos.Kern.Layout

namespace Jos

open Function

/-! ### Saved registers -/

/-- `struct PushRegs`. -/
structure PushRegs where
  regEdi : UInt32 := 0
  regEsi : UInt32 := 0
  regEbp : UInt32 := 0
  regOesp : UInt32 := 0
  regEbx : UInt32 := 0
  regEdx : UInt32 := 0
  regEcx : UInt32 := 0
  regEax : UInt32 := 0
deriving DecidableEq

/-- `struct Trapframe`, without its padding. -/
structure Trapframe where
  tfRegs : PushRegs := {}
  tfEs : UInt16 := 0
  tfDs : UInt16 := 0
  tfTrapno : UInt32 := 0
  tfErr : UInt32 := 0
  tfEip : UInt32 := 0
  tfCs : UInt16 := 0
  tfEflags : UInt32 := 0
  tfEsp : UInt32 := 0
  tfSs : UInt16 := 0
deriving DecidableEq

/-! ### Environments -/

/-- Values of `env_status`. -/
inductive EnvStatus where
  | free
  | dying
  | runnable
  | running
  | notRunnable
deriving DecidableEq

def EnvStatus.code : EnvStatus → ℕ
  | .free => 0
  | .dying => 1
  | .runnable => 2
  | .running => 3
  | .notRunnable => 4

/-- `enum EnvType`. -/
inductive EnvType where
  | user
  | fs
  | ns
deriving DecidableEq

/-- `struct Env`. -/
structure Env where
  envTf : Trapframe := {}
  envLink : Option ℕ := none
  envId : ℕ := 0
  envParentId : ℕ := 0
  envType : EnvType := .user
  envStatus : EnvStatus := .free
  envRuns : ℕ := 0
  envCpunum : ℕ := 0
  envPgdir : Option ℕ := none
  envPgfaultUpcall : ℕ := 0
  envIpcRecving : Bool := false
  envIpcDstva : ℕ := 0
  envIpcValue : ℕ := 0
  envIpcFrom : ℕ := 0
  envIpcPerm : ℕ := 0

/-! ### Processors -/

/-- Values of `cpu_status`. -/
inductive CpuStatus where
  | unused
  | started
  | halted
deriving DecidableEq

/-- `struct CpuInfo`, with the registers of the processor that outlive a
system call: the page directory in `%cr3` and, while user code runs, the code
segment and the flags it was entered with. -/
structure CpuInfo where
  cpuStatus : CpuStatus := .unused
  cpuEnv : Option ℕ := none
  cr3 : ℕ := 0
  cs : UInt16 := 0
  eflags : UInt32 := 0

/-! ### Network card -/

/-- The transmit descriptor fields the driver reads or writes. -/
structure TxDesc where
  length : ℕ := 0
  cmd : ℕ := 0
  status : ℕ := 0

/-- The receive descriptor fields the driver reads or writes. -/
structure RxDesc where
  length : ℕ := 0
  status : ℕ := 0

/-- The two descriptor rings with their tail registers and packet buffers. -/
structure Nic where
  tdt : ℕ := 0
  txDesc : ℕ → TxDesc := fun _ => {}
  txPktsBuf : ℕ → ℕ → ℕ := fun _ _ => 0
  rdt : ℕ := 0
  rxq : ℕ → RxDesc := fun _ => {}
  rxPkts : ℕ → ℕ → ℕ := fun _ _ => 0

/-! ### Memory management -/

/-- What the kernel did that its state does not show. -/
inductive Obs where
  /-- A read through a null page table entry pointer. -/
  | nullPte
  /-- A byte read, or written, at a virtual address a user chose. -/
  | read (va : ℕ)
  | write (va : ℕ)
  /-- `env_free` was called on this slot. -/
  | envFree (e : ℕ)
  /-- Slot `dst` blocked in receive; a send to it succeeded, from the
  environment with this id. -/
  | ipcRecv (dst : ℕ)
  | ipcSend (sender dst value perm : ℕ)
deriving DecidableEq

/-- `struct PageInfo`; `pp_ref` is a `uint16_t`. -/
structure PageInfo where
  ppLink : Option ℕ := none
  ppRef : ℕ := 0
deriving DecidableEq

/-- The state of `kern/pmap.c`. -/
structure Mm where
  npages : ℕ
  /-- Physical memory: page number, then word index. -/
  mem : ℕ → ℕ → ℕ
  pages : ℕ → PageInfo
  pageFreeList : Option ℕ
  kernPgdir : ℕ
  userMemCheckAddr : ℕ := 0
  trace : List Obs := []

/-- The state of the kernel. -/
structure Kern where
  mm : Mm
  envs : ℕ → Env
  envFreeList : Option ℕ
  /-- The page that follows the `envs` table in physical memory: `NENV`
  structures of 124 bytes fill 31 pages exactly. -/
  envsEnd : ℕ
  cpus : ℕ → CpuInfo
  /-- The processor that holds the kernel lock. -/
  cpunum : ℕ := 0
  ticks : ℕ := 0
  /-- What `cons_getc` would return now. -/
  consGetc : ℤ := 0
  nic : Nic := {}

/-- Why a kernel entry ended without returning to its caller. -/
inductive Stop where
  /-- `env_run`: this processor now executes its current environment. -/
  | user
  /-- `sched_halt`: this processor waits for an interrupt. -/
  | halted
  /-- `sched_halt` found no environment left and sits in the monitor. -/
  | monitor
  | panic (msg : String)
  /-- A loop that never ends. -/
  | hang
  /-- The kernel used memory that is not the object it took it for: past the
  end of `envs`, through a null page directory, or its own memory at an
  address a user chose. -/
  | wild
deriving DecidableEq

/-- Programs of `kern/pmap.c`. -/
abbrev MmM := Prog Stop Mm

/-- Programs of the rest of the kernel. -/
abbrev KernM := Prog Stop Kern

/-- Run a `kern/pmap.c` function inside the kernel. -/
def liftMm {α : Type} (m : MmM α) : KernM α :=
  Prog.zoom Kern.mm (fun m s => { s with mm := m }) m

namespace Mm

/-- Store the word `w` at index `i` of physical page `p`. -/
def setWord (m : Mm) (p i w : ℕ) : Mm :=
  { m with mem := update m.mem p (update (m.mem p) i w) }

def setPage (m : Mm) (p : ℕ) (c : ℕ → ℕ) : Mm :=
  { m with mem := update m.mem p c }

def updPage (m : Mm) (p : ℕ) (f : PageInfo → PageInfo) : Mm :=
  { m with pages := update m.pages p (f (m.pages p)) }

def log (m : Mm) (o : Obs) : Mm := { m with trace := o :: m.trace }

end Mm

namespace Kern

def updEnv (s : Kern) (e : ℕ) (f : Env → Env) : Kern :=
  { s with envs := update s.envs e (f (s.envs e)) }

def updCpu (s : Kern) (c : ℕ) (f : CpuInfo → CpuInfo) : Kern :=
  { s with cpus := update s.cpus c (f (s.cpus c)) }

def thiscpu (s : Kern) : CpuInfo := s.cpus s.cpunum

def curenv (s : Kern) : Option ℕ := s.thiscpu.cpuEnv

def log (s : Kern) (o : Obs) : Kern := { s with mm := s.mm.log o }

end Kern

end Jos
