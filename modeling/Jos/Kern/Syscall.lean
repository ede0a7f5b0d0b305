/-
The system calls: `kern/syscall.c`, with the driver functions of
`kern/e1000.c` they end in and the part of `vprintfmt` that prints the string
of `sys_cputs`.

Arguments arrive as 32-bit words.  `sys_page_map` passes the caller's `perm`
on to `page_insert` unchecked; `sys_page_alloc` and `sys_ipc_try_send` compare
theirs with `PTE_SYSCALL`.
-/
import Jos.Kern.Env

namespace Jos

open Prog Function

/-- `page_insert` into the directory of environment `e`. -/
def envPageInsert (e pp va perm : ℕ) : KernM ℤ := do
  let d ← envPgdirPtr e
  let cr3 ← rcr3
  liftMm (pageInsert cr3 d pp va perm)

/-- `page_lookup` in the directory of environment `e`. -/
def envPageLookup (e va : ℕ) : KernM (Option (ℕ × ℕ × ℕ)) := do
  let d ← envPgdirPtr e
  let cr3 ← rcr3
  liftMm (pageLookup cr3 d va)

/-! ### Console -/

/-- The loop of `vprintfmt` for `%.*s`: the character is read before the
precision is looked at, and a negative precision means none. -/
def printChars (cr3 : ℕ) : ℕ → ℕ → ℤ → MmM Unit
  | 0, _, _ => halt .hang
  | n + 1, p, precision => do
    let ch ← uload cr3 p
    if ch = 0 then pure ()
    else if precision < 0 then printChars cr3 n ((p + 1) % 2 ^ 32) precision
    else if precision - 1 ≥ 0 then printChars cr3 n ((p + 1) % 2 ^ 32) (precision - 1)
    else pure ()

def userMemAssert (e va len perm : ℕ) : KernM Unit := do
  let d ← envPgdirPtr e
  let r ← liftMm (userMemCheck d va len (perm ||| pteU))
  when (r < 0) (envDestroy e)

/-- `sys_cputs`.  A null pointer prints the kernel's string `(null)`. -/
def sysCputs (str len : ℕ) : KernM Unit := do
  let cur ← curenvPtr
  userMemAssert cur str len (pteU ||| pteP)
  let cr3 ← rcr3
  when (str ≠ 0) (liftMm (printChars cr3 (2 ^ 32) str (toInt32 len)))

def sysCgetc : KernM ℤ := gets Kern.consGetc

/-! ### Environments -/

def sysGetenvid : KernM ℤ := do
  let cur ← curenvPtr
  gets fun s => toInt32 (s.envs cur).envId

def sysEnvDestroy (envid : ℕ) : KernM ℤ := do
  let r ← envid2env envid true
  match r with
  | none => pure (-eBadEnv)
  | some e => do
    envDestroy e
    pure 0

def sysYield : KernM Unit := schedYield

def sysExofork : KernM ℤ := do
  let cur ← curenvPtr
  let s ← get
  let r ← envAlloc (s.envs cur).envId
  match r with
  | .error r => pure r
  | .ok e => do
    setStatus e .notRunnable
    modify fun s => s.updEnv e fun x =>
      let tf := (s.envs cur).envTf
      { x with envTf := { tf with tfRegs := { tf.tfRegs with regEax := 0 } } }
    gets fun s => toInt32 (s.envs e).envId

def sysEnvSetStatus (envid status : ℕ) : KernM ℤ := do
  let r ← envid2env envid true
  match r with
  | none => pure (-eBadEnv)
  | some e =>
    if status = EnvStatus.notRunnable.code then do
      setStatus e .notRunnable
      pure 0
    else if status = EnvStatus.runnable.code then do
      setStatus e .runnable
      pure 0
    else pure (-eInval)

def sizeofTrapframe : ℕ := 68

/-- `*tf`: seventeen words; segment selectors are the low halves of theirs. -/
def loadTrapframe (cr3 tf : ℕ) : MmM Trapframe := do
  let w (k : ℕ) := uload32 cr3 ((tf + 4 * k) % 2 ^ 32)
  let edi ← w 0
  let esi ← w 1
  let ebp ← w 2
  let oesp ← w 3
  let ebx ← w 4
  let edx ← w 5
  let ecx ← w 6
  let eax ← w 7
  let es ← w 8
  let ds ← w 9
  let trapno ← w 10
  let err ← w 11
  let eip ← w 12
  let cs ← w 13
  let eflags ← w 14
  let esp ← w 15
  let ss ← w 16
  pure
    { tfRegs :=
        { regEdi := .ofNat edi, regEsi := .ofNat esi, regEbp := .ofNat ebp,
          regOesp := .ofNat oesp, regEbx := .ofNat ebx, regEdx := .ofNat edx,
          regEcx := .ofNat ecx, regEax := .ofNat eax }
      tfEs := .ofNat es, tfDs := .ofNat ds, tfTrapno := .ofNat trapno, tfErr := .ofNat err,
      tfEip := .ofNat eip, tfCs := .ofNat cs, tfEflags := .ofNat eflags, tfEsp := .ofNat esp,
      tfSs := .ofNat ss }

/-- `tf->tf_cs |= 3`, on the user's copy. -/
def orUserCs (cr3 tf : ℕ) : MmM Unit := do
  let b0 ← uload cr3 ((tf + 52) % 2 ^ 32)
  let b1 ← uload cr3 ((tf + 53) % 2 ^ 32)
  ustore cr3 ((tf + 52) % 2 ^ 32) (b0 ||| 3)
  ustore cr3 ((tf + 53) % 2 ^ 32) b1

def sysEnvSetTrapframe (envid tf : ℕ) : KernM ℤ := do
  let r ← envid2env envid true
  match r with
  | none => pure (-eBadEnv)
  | some e => do
    let d ← envPgdirPtr e
    let r ← liftMm (userMemCheck d tf sizeofTrapframe (pteW ||| pteU))
    if r < 0 then pure r
    else do
      let cr3 ← rcr3
      let frame ← liftMm (loadTrapframe cr3 tf)
      modify (·.updEnv e ({ · with envTf := frame }))
      modify (·.updEnv e fun x =>
        { x with envTf := { x.envTf with tfEflags := x.envTf.tfEflags ||| flIf } })
      liftMm (orUserCs cr3 tf)
      pure 0

def sysEnvSetPgfaultUpcall (envid func : ℕ) : KernM ℤ := do
  let r ← envid2env envid true
  match r with
  | none => pure (-eBadEnv)
  | some e => do
    modify (·.updEnv e ({ · with envPgfaultUpcall := func }))
    pure 0

/-! ### Pages -/

/-- The bits outside `PTE_SYSCALL`: `~PTE_SYSCALL` on 32 bits. -/
def notSyscall : ℕ := 0xffffffff - pteSyscall

def sysPageAlloc (envid va perm : ℕ) : KernM ℤ := do
  let r ← envid2env envid true
  match r with
  | none => pure (-eBadEnv)
  | some e =>
    if va ≥ utop ∨ va % pgsize ≠ 0 then pure (-eInval)
    else
      let perm := pteU ||| pteP ||| perm
      if perm &&& notSyscall ≠ 0 then pure (-eInval)
      else do
        let pp ← liftMm (pageAlloc allocZero)
        match pp with
        | none => pure (-eNoMem)
        | some pp => do
          let ret ← envPageInsert e pp va perm
          if ret < 0 then do
            liftMm (pageFree pp)
            pure ret
          else pure 0

def sysPageMap (srcenvid srcva dstenvid dstva perm : ℕ) : KernM ℤ := do
  let r ← envid2env srcenvid true
  match r with
  | none => pure (-eBadEnv)
  | some srce => do
    let r ← envid2env dstenvid true
    match r with
    | none => pure (-eBadEnv)
    | some dste =>
      if srcva ≥ utop ∨ srcva % pgsize ≠ 0 ∨ dstva ≥ utop ∨ dstva % pgsize ≠ 0 then
        pure (-eInval)
      else do
        let found ← envPageLookup srce srcva
        match found with
        | none => pure (-eInval)
        | some (pp, _) => do
          let ret ← envPageInsert dste pp dstva perm
          if ret < 0 then pure ret else pure 0

def sysPageUnmap (envid va : ℕ) : KernM ℤ := do
  let r ← envid2env envid true
  match r with
  | none => pure (-eBadEnv)
  | some e =>
    if va ≥ utop ∨ va % pgsize ≠ 0 then pure (-eInval)
    else do
      let d ← envPgdirPtr e
      let cr3 ← rcr3
      liftMm (pageRemove cr3 d va)
      pure 0

/-! ### IPC -/

/-- The checks of `sys_ipc_try_send` on a source page below `UTOP`. -/
def ipcPageOk (m : Mm) (srcva perm : ℕ) (found : Option (ℕ × ℕ × ℕ)) : Prop :=
  srcva % pgsize = 0 ∧ perm &&& pteU = pteU ∧ perm &&& pteP = pteP ∧ perm &&& notSyscall = 0 ∧
    match found with
    | none => False
    | some (_, p, i) => perm &&& pteW = 0 ∨ m.mem p i &&& pteW ≠ 0

instance (m : Mm) (srcva perm : ℕ) (found : Option (ℕ × ℕ × ℕ)) :
    Decidable (ipcPageOk m srcva perm found) := by
  unfold ipcPageOk
  cases found <;> infer_instance

/-- The receiver's fields after a successful send. -/
def ipcDeliver (cur dst value perm : ℕ) : KernM ℤ := do
  modify fun s => s.updEnv dst fun x =>
    { x with
      envIpcPerm := perm
      envIpcRecving := false
      envIpcValue := value
      envIpcFrom := (s.envs cur).envId
      envStatus := .runnable }
  modify fun s => s.log (.ipcSend (s.envs cur).envId dst value perm)
  pure 0

def sysIpcTrySend (envid value srcva perm : ℕ) : KernM ℤ := do
  let cur ← curenvPtr
  let found ← envPageLookup cur srcva
  let r ← envid2env envid false
  match r with
  | none => pure (-eBadEnv)
  | some dst => do
    let s ← get
    if ¬ (s.envs dst).envIpcRecving then pure (-eIpcNotRecv)
    else if srcva < utop ∧ ¬ ipcPageOk s.mm srcva perm found then pure (-eInval)
    else
      match found with
      | some (pp, _) =>
        if (s.envs dst).envIpcDstva < utop ∧ srcva < utop then do
          let ret ← envPageInsert dst pp (s.envs dst).envIpcDstva perm
          if ret < 0 then pure (-eNoMem)
          else ipcDeliver cur dst value perm
        else ipcDeliver cur dst value 0
      | none => ipcDeliver cur dst value 0

def sysIpcRecv (dstva : ℕ) : KernM ℤ := do
  if dstva < utop ∧ dstva % pgsize ≠ 0 then pure (-eInval)
  else do
    let cur ← curenvPtr
    modify (·.updEnv cur fun x =>
      { x with
        envIpcDstva := dstva
        envIpcRecving := true
        envTf := { x.envTf with tfRegs := { x.envTf.tfRegs with regEax := 0 } }
        envStatus := .notRunnable })
    modify (·.log (.ipcRecv cur))
    schedYield
    pure 0

/-! ### Clock and network card -/

def sysTimeMsec : KernM ℤ := gets fun s => toInt32 (s.ticks * 10)

def ntxdesc : ℕ := 40
def nrxdesc : ℕ := 128
def pktBufSize : ℕ := 2048

/-- `nic_transmit`, copying `len` bytes from the user's packet. -/
def nicTransmit (cr3 pkt len : ℕ) : KernM ℤ := do
  if len > pktBufSize then pure (-1)
  else do
    let s ← get
    let tail := s.nic.tdt
    if (s.nic.txDesc tail).status &&& 1 = 0 then pure (-1)
    else do
      forFrom (fun k => do
        let b ← liftMm (uload cr3 ((pkt + k) % 2 ^ 32))
        modify fun s => { s with nic := { s.nic with
          txPktsBuf := update s.nic.txPktsBuf tail
            (update (s.nic.txPktsBuf tail) k b) } }) 0 len
      modify fun s => { s with nic := { s.nic with
        txDesc := update s.nic.txDesc tail
          { length := len % 2 ^ 16
            cmd := (s.nic.txDesc tail).cmd ||| 1 ||| 8
            status := (s.nic.txDesc tail).status &&& 0xfe }
        tdt := (tail + 1) % ntxdesc } }
      pure 0

def sysSendPacket (va len : ℕ) : KernM ℤ := do
  let cur ← curenvPtr
  let d ← envPgdirPtr cur
  let r ← liftMm (userMemCheck d va len pteU)
  if r ≠ 0 then pure (-eInval)
  else do
    let cr3 ← rcr3
    nicTransmit cr3 va len

/-- `e1000_receive`: the length word is written and read back before the
packet is copied out. -/
def e1000Receive (cr3 pkt length : ℕ) : KernM ℤ := do
  let s ← get
  let tail := (s.nic.rdt + 1) % nrxdesc
  if (s.nic.rxq tail).status &&& 1 = 0 then pure (-1)
  else if (s.nic.rxq tail).status &&& 2 = 0 then pure (-1)
  else do
    liftMm (ustore32 cr3 length (s.nic.rxq tail).length)
    let n ← liftMm (uload32 cr3 length)
    liftMm (forFrom (fun k => ustore cr3 ((pkt + k) % 2 ^ 32) (s.nic.rxPkts tail k)) 0 n)
    modify fun s => { s with nic := { s.nic with
      rxq := update s.nic.rxq tail { (s.nic.rxq tail) with status := 0 }
      rdt := tail } }
    pure 0

def sysRcvPacket (va len : ℕ) : KernM ℤ := do
  let cur ← curenvPtr
  let cr3 ← rcr3
  let n ← liftMm (uload32 cr3 len)
  let d ← envPgdirPtr cur
  let r ← liftMm (userMemCheck d va n (pteU ||| pteW))
  if r ≠ 0 then pure (-eInval)
  else e1000Receive cr3 va len

/-! ### The dispatcher -/

/-- System call numbers. -/
inductive Sysno where
  | cputs
  | cgetc
  | getenvid
  | envDestroy
  | pageAlloc
  | pageMap
  | pageUnmap
  | exofork
  | envSetStatus
  | envSetTrapframe
  | envSetPgfaultUpcall
  | yield
  | ipcTrySend
  | ipcRecv
  | timeMsec
  | sendPacket
  | rcvPacket
deriving DecidableEq

def Sysno.decode : ℕ → Option Sysno
  | 0 => some cputs
  | 1 => some cgetc
  | 2 => some getenvid
  | 3 => some envDestroy
  | 4 => some pageAlloc
  | 5 => some pageMap
  | 6 => some pageUnmap
  | 7 => some exofork
  | 8 => some envSetStatus
  | 9 => some envSetTrapframe
  | 10 => some envSetPgfaultUpcall
  | 11 => some yield
  | 12 => some ipcTrySend
  | 13 => some ipcRecv
  | 14 => some timeMsec
  | 15 => some sendPacket
  | 16 => some rcvPacket
  | _ => none

def Sysno.run (no : Sysno) (a1 a2 a3 a4 a5 : ℕ) : KernM ℤ :=
  match no with
  | cputs => do
    sysCputs a1 a2
    pure 0
  | cgetc => sysCgetc
  | getenvid => sysGetenvid
  | envDestroy => sysEnvDestroy a1
  | pageAlloc => sysPageAlloc a1 a2 a3
  | pageMap => sysPageMap a1 a2 a3 a4 a5
  | pageUnmap => sysPageUnmap a1 a2
  | exofork => sysExofork
  | envSetStatus => sysEnvSetStatus a1 a2
  | envSetTrapframe => sysEnvSetTrapframe a1 a2
  | envSetPgfaultUpcall => sysEnvSetPgfaultUpcall a1 a2
  | yield => do
    sysYield
    pure 0
  | ipcTrySend => sysIpcTrySend a1 a2 a3 a4
  | ipcRecv => sysIpcRecv a1
  | timeMsec => sysTimeMsec
  | sendPacket => sysSendPacket a1 a2
  | rcvPacket => sysRcvPacket a1 a2

def syscall (syscallno a1 a2 a3 a4 a5 : UInt32) : KernM ℤ :=
  match Sysno.decode syscallno.toNat with
  | some no => no.run a1.toNat a2.toNat a3.toNat a4.toNat a5.toNat
  | none => pure (-eInval)

end Jos
