/-
Environments and scheduling: `kern/env.c` and `kern/sched.c`.

`env_run` and `sched_halt` leave the kernel; they end in `Prog.halt`.  The
round-robin search of `sched_yield` starts at `ENVX(curenv->env_id) + 1`,
which is `NENV` for the last slot: the first status it then reads lies in the
page behind the table (`Kern.statusWord`).
-/
import Jos.Kern.Pmap

namespace Jos

open Prog

/-! ### Access to the current environment -/

/-- `curenv`, about to be dereferenced. -/
def curenvPtr : KernM ℕ := do
  let s ← get
  match s.curenv with
  | some e => pure e
  | none => halt .wild

/-- `e->env_pgdir`, about to be dereferenced. -/
def envPgdirPtr (e : ℕ) : KernM ℕ := do
  let s ← get
  match (s.envs e).envPgdir with
  | some d => pure d
  | none => halt .wild

/-- The page directory loaded on this processor. -/
def rcr3 : KernM ℕ := gets fun s => s.thiscpu.cr3

def lcr3 (pd : ℕ) : KernM Unit := modify fun s => s.updCpu s.cpunum ({ · with cr3 := pd })

def setCurenv (e : Option ℕ) : KernM Unit :=
  modify fun s => s.updCpu s.cpunum ({ · with cpuEnv := e })

def setStatus (e : ℕ) (st : EnvStatus) : KernM Unit :=
  modify (·.updEnv e ({ · with envStatus := st }))

/-- `envid2env`: `none` is the error `-E_BAD_ENV`. -/
def envid2env (envid : ℕ) (checkperm : Bool) : KernM (Option ℕ) := do
  if envid = 0 then do
    let e ← curenvPtr
    pure (some e)
  else do
    let s ← get
    let e := envx envid
    if (s.envs e).envStatus = .free ∨ (s.envs e).envId ≠ envid then pure none
    else if checkperm then do
      let cur ← curenvPtr
      if e ≠ cur ∧ (s.envs e).envParentId ≠ (s.envs cur).envId then pure none
      else pure (some e)
    else pure (some e)

/-! ### Allocation -/

/-- The page directory page as `env_setup_vm` fills it. -/
def Mm.initPgdir (m : Mm) (p : ℕ) : Mm :=
  ((m.setPage p (m.mem m.kernPgdir)).incRef p).setWord p (pdx uvpt) (mkPte p pteU)

def envSetupVm (e : ℕ) : KernM ℤ := do
  let p ← liftMm (pageAlloc allocZero)
  match p with
  | none => pure (-eNoMem)
  | some p => do
    let d ← liftMm (page2kva p)
    modify (·.updEnv e ({ · with envPgdir := some d }))
    liftMm (modify (·.initPgdir d))
    pure 0

/-- The next id of a slot: `(env_id + (1 << ENVGENSHIFT)) & ~(NENV - 1)` as an
`int32_t`, restarted when it is not positive. -/
def nextEnvId (envId slot : ℕ) : ℕ :=
  let generation := (envId + (1 <<< envgenshift)) % 2 ^ 32 &&& 0xfffffc00
  let generation :=
    if generation = 0 ∨ generation ≥ 2 ^ 31 then 1 <<< envgenshift else generation
  generation ||| slot

def initTf : Trapframe where
  tfDs := UInt16.ofNat (gdUd ||| 3)
  tfEs := UInt16.ofNat (gdUd ||| 3)
  tfSs := UInt16.ofNat (gdUd ||| 3)
  tfEsp := UInt32.ofNat ustacktop
  tfCs := UInt16.ofNat (gdUt ||| 3)
  tfEflags := 0 ||| flIf

/-- The fields `env_alloc` sets. -/
def Env.init (x : Env) (slot parentId : ℕ) : Env :=
  { x with
    envId := nextEnvId x.envId slot
    envParentId := parentId
    envType := .user
    envStatus := .runnable
    envRuns := 0
    envTf := initTf
    envPgfaultUpcall := 0
    envIpcRecving := false }

def envAlloc (parentId : ℕ) : KernM (Except ℤ ℕ) := do
  let s ← get
  match s.envFreeList with
  | none => pure (.error (-eNoFreeEnv))
  | some e => do
    let r ← envSetupVm e
    if r < 0 then pure (.error r)
    else do
      modify (·.updEnv e (·.init e parentId))
      modify fun s => { s with envFreeList := (s.envs e).envLink }
      pure (.ok e)

/-! ### Loading a program -/

/-- A loadable segment of an ELF image: `p_va`, `p_memsz`, `p_filesz` and the
bytes at `p_offset`. -/
structure Segment where
  va : ℕ
  memsz : ℕ
  filesz : ℕ
  bytes : ℕ → ℕ

/-- An ELF image: whether `e_magic` is right, `e_entry`, and its
`ELF_PROG_LOAD` headers in order. -/
structure Image where
  magic : Bool
  entry : UInt32
  segs : List Segment

/-- The loop of `region_alloc`: `n` more pages from page address `i` on. -/
def regionLoop (cr3 pgdir : ℕ) : ℕ → ℕ → MmM Unit
  | _, 0 => pure ()
  | i, n + 1 => do
    let p ← pageAlloc 0
    match p with
    | none => halt (.panic " caused by page_alloc : not enough memory \n")
    | some p => do
      let r ← pageInsert cr3 pgdir p i (pteP ||| pteU ||| pteW)
      if r ≠ 0 then halt (.panic " caused by page_insert : not enough memory \n")
      else regionLoop cr3 pgdir (i + pgsize) n

def regionAlloc (cr3 pgdir va len : ℕ) : MmM Unit :=
  let «end» := roundup ((va + len) % 2 ^ 32) pgsize
  let vaR := rounddown va pgsize
  regionLoop cr3 pgdir vaR ((«end» - vaR) / pgsize)

/-- Allocate one segment, copy its file part and clear the rest. -/
def loadSegment (cr3 pgdir : ℕ) (g : Segment) : MmM Unit := do
  regionAlloc cr3 pgdir g.va g.memsz
  forFrom (fun k => vstore cr3 ((g.va + k) % 2 ^ 32) (g.bytes k)) 0 g.filesz
  forFrom (fun k => vstore cr3 ((g.va + g.filesz + k) % 2 ^ 32) 0) 0
    ((g.memsz + 2 ^ 32 - g.filesz) % 2 ^ 32)

def loadSegments (cr3 pgdir : ℕ) : List Segment → MmM Unit
  | [] => pure ()
  | g :: gs => do
    loadSegment cr3 pgdir g
    loadSegments cr3 pgdir gs

def loadIcode (e : ℕ) (binary : Image) : KernM Unit := do
  if ¬ binary.magic then halt (.panic " incorrect ELF file ")
  else do
    let d ← envPgdirPtr e
    lcr3 d
    liftMm (loadSegments d d binary.segs)
    liftMm (regionAlloc d d (ustacktop - pgsize) pgsize)
    modify (·.updEnv e fun x => { x with envTf := { x.envTf with tfEip := binary.entry } })
    let s ← get
    lcr3 s.mm.kernPgdir

def envCreate (binary : Image) (type : EnvType) : KernM Unit := do
  let r ← envAlloc 0
  match r with
  | .error _ => halt (.panic " couldn't allocate an evironment: %e\n")
  | .ok e => do
    when (type = .fs) (modify (·.updEnv e fun x =>
      { x with envTf := { x.envTf with tfEflags := x.envTf.tfEflags ||| flIopl3 } }))
    loadIcode e binary
    modify (·.updEnv e ({ · with envType := type }))

/-! ### Running -/

/-- `env_pop_tf`: leave the kernel for the code of environment `e`. -/
def envPopTf (e : ℕ) : KernM Unit := do
  modify fun s => s.updEnv e ({ · with envCpunum := s.cpunum })
  modify fun s => s.updCpu s.cpunum fun c =>
    { c with cs := (s.envs e).envTf.tfCs, eflags := (s.envs e).envTf.tfEflags }
  halt .user

/-- The environment `env_run` switches away from, if any, becomes runnable. -/
def preemptCurenv : KernM Unit := do
  let s ← get
  match s.curenv with
  | some c => when ((s.envs c).envStatus = .running) (setStatus c .runnable)
  | none => pure ()

def envRun (e : ℕ) : KernM Unit := do
  let s ← get
  if s.curenv ≠ some e then do
    preemptCurenv
    setCurenv (some e)
    setStatus e .running
    modify (·.updEnv e fun x => { x with envRuns := (x.envRuns + 1) % 2 ^ 32 })
    let d ← envPgdirPtr e
    lcr3 d
    envPopTf e
  else envPopTf e

/-- `envs[j].env_status`, as a word.  The structure behind the last one would
have its status 84 bytes into the next page. -/
def Kern.statusWord (s : Kern) (j : ℕ) : ℕ :=
  if j < nenv then (s.envs j).envStatus.code else s.mm.mem s.envsEnd 21

/-- The search of `sched_yield`: `n` more slots from `j` on. -/
def Kern.schedScan (s : Kern) : ℕ → ℕ → Option ℕ
  | _, 0 => none
  | j, n + 1 =>
    if s.statusWord j = EnvStatus.runnable.code then some j
    else s.schedScan ((j + 1) &&& (nenv - 1)) n

def Kern.schedStart (s : Kern) : ℕ :=
  match s.curenv with
  | some c => envx (s.envs c).envId + 1
  | none => 0

def Kern.anyAlive (s : Kern) : Bool :=
  (List.range nenv).any fun i =>
    (s.envs i).envStatus = .runnable ∨ (s.envs i).envStatus = .running ∨
      (s.envs i).envStatus = .dying

def schedHalt : KernM Unit := do
  let s ← get
  if ¬ s.anyAlive then halt .monitor
  else do
    setCurenv none
    lcr3 s.mm.kernPgdir
    modify fun s => s.updCpu s.cpunum ({ · with cpuStatus := .halted })
    halt .halted

def schedYield : KernM Unit := do
  let s ← get
  match s.schedScan s.schedStart nenv with
  | some j => if j < nenv then envRun j else halt .wild
  | none =>
    match s.curenv with
    | some c => if (s.envs c).envStatus = .running then envRun c else schedHalt
    | none => schedHalt

-- both walk the whole table: proofs use the lemmas about them, not their value
attribute [irreducible] Kern.schedScan Kern.anyAlive

/-! ### Destruction -/

/-- The body of the outer loop of `env_free`: unmap what table `pdeno` of
directory `d` maps, then free the table. -/
def freePde (cr3 d pdeno : ℕ) : MmM Unit := do
  let m ← get
  if ¬ present (m.mem d pdeno) then pure ()
  else do
    let pa := pteAddr (m.mem d pdeno)
    let pt ← kaddr pa
    forFrom (fun pteno => do
      let m ← get
      when (present (m.mem pt pteno)) (pageRemove cr3 d (pgaddr pdeno pteno 0)))
      0 nptentries
    modify (·.setWord d pdeno 0)
    let pp ← pa2page pa
    pageDecref pp

def envFree (e : ℕ) : KernM Unit := do
  modify (·.log (.envFree e))
  let s ← get
  when (s.curenv = some e) (lcr3 s.mm.kernPgdir)
  let d ← envPgdirPtr e
  let cr3 ← rcr3
  liftMm (forFrom (freePde cr3 d) 0 userPdes)
  modify (·.updEnv e ({ · with envPgdir := none }))
  liftMm (do
    let pp ← pa2page (page2pa d)
    pageDecref pp)
  modify fun s => s.updEnv e ({ · with envStatus := .free, envLink := s.envFreeList })
  modify ({ · with envFreeList := some e })

def envDestroy (e : ℕ) : KernM Unit := do
  let s ← get
  if (s.envs e).envStatus = .running ∧ s.curenv ≠ some e then setStatus e .dying
  else do
    envFree e
    let s ← get
    if s.curenv = some e then do
      setCurenv none
      schedYield
    else pure ()

end Jos
