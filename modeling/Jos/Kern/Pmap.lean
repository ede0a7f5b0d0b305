/-
Physical pages and page tables: the functions of `kern/pmap.c` and
`kern/pmap.h`, and the MMU they program.

A few points where the C text and the machine meet:

* `pgdir_walk` computes `KADDR` of the entry's address before it looks at the
  present bit, so the check in `KADDR` also runs for absent tables.
* `page_lookup` reads `*pte` before it compares `pte` with `NULL`.  Without a
  page table that is a read of virtual address 0 in the address space loaded
  in `%cr3`: a page fault in the kernel unless the environment has mapped
  something there.  The functions that can get there take `cr3` along.
* `user_mem_check` computes its end address modulo `2 ^ 32`.
-/
import Jos.Kern.State

namespace Jos

open Prog

/-! ### The MMU -/

namespace Mm

/-- The directory entry the hardware consults for `va` under directory `pd`. -/
def pde (m : Mm) (pd va : ℕ) : ℕ := m.mem pd (pdx va)

def pte (m : Mm) (pd va : ℕ) : ℕ := m.mem (frame (m.pde pd va)) (ptx va)

/-- Supervisor reads need the entries to be present. -/
def kReads (m : Mm) (pd va : ℕ) : Prop := present (m.pde pd va) ∧ present (m.pte pd va)
  deriving Decidable

/-- Supervisor writes also need them writable, since `CR0_WP` is set. -/
def kWrites (m : Mm) (pd va : ℕ) : Prop :=
  m.kReads pd va ∧ m.pde pd va &&& pteW ≠ 0 ∧ m.pte pd va &&& pteW ≠ 0
  deriving Decidable

/-- What user code may read under directory `pd`. -/
def uReads (m : Mm) (pd va : ℕ) : Prop :=
  m.kReads pd va ∧ m.pde pd va &&& pteU ≠ 0 ∧ m.pte pd va &&& pteU ≠ 0
  deriving Decidable

/-- What user code may write under directory `pd`. -/
def uWrites (m : Mm) (pd va : ℕ) : Prop :=
  m.uReads pd va ∧ m.pde pd va &&& pteW ≠ 0 ∧ m.pte pd va &&& pteW ≠ 0
  deriving Decidable

def byteAt (m : Mm) (pd va : ℕ) : ℕ :=
  m.mem (frame (m.pte pd va)) (pgoff va / 4) / 256 ^ (va % 4) % 256

/-- Replace byte `k` of a word. -/
def putByte (w k b : ℕ) : ℕ := w - w / 256 ^ k % 256 * 256 ^ k + b % 256 * 256 ^ k

def setByte (m : Mm) (pd va b : ℕ) : Mm :=
  m.setWord (frame (m.pte pd va)) (pgoff va / 4)
    (putByte (m.mem (frame (m.pte pd va)) (pgoff va / 4)) (va % 4) b)

end Mm

/-- The message of `page_fault_handler` for faults taken in the kernel. -/
def kernelFault : Stop := .panic " a page fault in the kernel"

def vload (pd va : ℕ) : MmM ℕ := do
  let m ← get
  if m.kReads pd va then pure (m.byteAt pd va) else halt kernelFault

def vstore (pd va b : ℕ) : MmM Unit := do
  let m ← get
  if m.kWrites pd va then modify (·.setByte pd va b) else halt kernelFault

/-- A load through a pointer that came from a user. -/
def uload (pd va : ℕ) : MmM ℕ := do
  modify (·.log (.read va))
  vload pd va

/-- A store through a pointer that came from a user.  From `ULIM` up the
kernel's own memory is mapped writable. -/
def ustore (pd va b : ℕ) : MmM Unit := do
  modify (·.log (.write va))
  vstore pd va b

def uload32 (pd va : ℕ) : MmM ℕ := do
  let b0 ← uload pd va
  let b1 ← uload pd ((va + 1) % 2 ^ 32)
  let b2 ← uload pd ((va + 2) % 2 ^ 32)
  let b3 ← uload pd ((va + 3) % 2 ^ 32)
  pure (b0 + 2 ^ 8 * b1 + 2 ^ 16 * b2 + 2 ^ 24 * b3)

def ustore32 (pd va w : ℕ) : MmM Unit := do
  ustore pd va w
  ustore pd ((va + 1) % 2 ^ 32) (w / 2 ^ 8)
  ustore pd ((va + 2) % 2 ^ 32) (w / 2 ^ 16)
  ustore pd ((va + 3) % 2 ^ 32) (w / 2 ^ 24)

/-! ### Addresses of pages -/

/-- `KADDR(pa)`, as the number of the page the pointer leads to. -/
def kaddr (pa : ℕ) : MmM ℕ := do
  let m ← get
  if pgnum pa ≥ m.npages then halt (.panic "KADDR called with invalid pa") else pure (pgnum pa)

def page2pa (pp : ℕ) : ℕ := pp <<< pgshift

def pa2page (pa : ℕ) : MmM ℕ := do
  let m ← get
  if pgnum pa ≥ m.npages then halt (.panic "pa2page called with invalid pa") else pure (pgnum pa)

def page2kva (pp : ℕ) : MmM ℕ := kaddr (page2pa pp)

/-! ### The page allocator -/

def allocZero : ℕ := 1

def Mm.popFree (m : Mm) (pp : ℕ) : Mm :=
  { m with pageFreeList := (m.pages pp).ppLink }.updPage pp ({ · with ppLink := none })

def Mm.pushFree (m : Mm) (pp : ℕ) : Mm :=
  { m.updPage pp ({ · with ppLink := m.pageFreeList }) with pageFreeList := some pp }

def pageAlloc (allocFlags : ℕ) : MmM (Option ℕ) := do
  let m ← get
  match m.pageFreeList with
  | none => pure none
  | some pp => do
    modify (·.popFree pp)
    if allocFlags &&& allocZero ≠ 0 then do
      let kva ← page2kva pp
      modify (·.setPage kva fun _ => 0)
      pure (some pp)
    else pure (some pp)

def pageFree (pp : ℕ) : MmM Unit := do
  let m ← get
  if (m.pages pp).ppRef ≠ 0 then halt (.panic "The pp_ref is not zero!!")
  else if (m.pages pp).ppLink ≠ none then halt (.panic "The pp_link is not Null!")
  else modify (·.pushFree pp)

/-- `pp->pp_ref++` on a `uint16_t`. -/
def Mm.incRef (m : Mm) (pp : ℕ) : Mm :=
  m.updPage pp fun i => { i with ppRef := (i.ppRef + 1) % 2 ^ 16 }

/-- `--pp->pp_ref` on a `uint16_t`. -/
def Mm.decRef (m : Mm) (pp : ℕ) : Mm :=
  m.updPage pp fun i => { i with ppRef := (i.ppRef + (2 ^ 16 - 1)) % 2 ^ 16 }

def pageDecref (pp : ℕ) : MmM Unit := do
  modify (·.decRef pp)
  let m ← get
  when ((m.pages pp).ppRef = 0) (pageFree pp)

/-! ### Page tables -/

def pgdirWalk (pgdir va : ℕ) (create : Bool) : MmM (Option (ℕ × ℕ)) := do
  let m ← get
  let pde := m.mem pgdir (pdx va)
  let pageTable ← kaddr (pteAddr pde)
  if present pde then pure (some (pageTable, ptx va))
  else if create then do
    let newPageTable ← pageAlloc allocZero
    match newPageTable with
    | some pp => do
      modify (·.incRef pp)
      let pde := mkPte pp (pteW ||| pteU)
      modify (·.setWord pgdir (pdx va) pde)
      let pageTable ← kaddr (pteAddr pde)
      pure (some (pageTable, ptx va))
    | none => pure none
  else pure none

/-- `*pte`.  A null pointer reads virtual address 0. -/
def readPte (cr3 : ℕ) : Option (ℕ × ℕ) → MmM ℕ
  | some (p, i) => gets fun m => m.mem p i
  | none => do
    modify (·.log .nullPte)
    let b0 ← vload cr3 0
    let b1 ← vload cr3 1
    let b2 ← vload cr3 2
    let b3 ← vload cr3 3
    pure (b0 + 2 ^ 8 * b1 + 2 ^ 16 * b2 + 2 ^ 24 * b3)

/-- The page mapped at `va` and the address of its entry. -/
def pageLookup (cr3 pgdir va : ℕ) : MmM (Option (ℕ × ℕ × ℕ)) := do
  let pte ← pgdirWalk pgdir va false
  let w ← readPte cr3 pte
  if ¬ present w then pure none
  else
    match pte with
    | none => pure none
    | some loc => do
      let pp ← pa2page (pteAddr w)
      pure (some (pp, loc))

def pageRemove (cr3 pgdir va : ℕ) : MmM Unit := do
  let found ← pageLookup cr3 pgdir va
  match found with
  | none => pure ()
  | some (pp, p, i) => do
    pageDecref pp
    modify (·.setWord p i 0)

def pageInsert (cr3 pgdir pp va perm : ℕ) : MmM ℤ := do
  let pte ← pgdirWalk pgdir va true
  match pte with
  | none => pure (-eNoMem)
  | some (p, i) => do
    modify (·.incRef pp)
    let m ← get
    when (present (m.mem p i)) (pageRemove cr3 pgdir va)
    modify (·.setWord p i (mkPte pp perm))
    pure 0

/-! ### Checking user memory -/

/-- The loop of `user_mem_check`: `n` more pages from page address `i` on. -/
def userMemScan (pgdir va vaR perm : ℕ) : ℕ → ℕ → MmM ℤ
  | _, 0 => pure 0
  | i, n + 1 => do
    let pteCheck ← pgdirWalk pgdir i false
    let m ← get
    let fails := match pteCheck with
      | none => true
      | some (p, k) => decide (i ≥ ulim ∨ m.mem p k &&& perm ≠ perm)
    if fails then do
      modify ({ · with userMemCheckAddr := if i = vaR then va else i })
      pure (-eFault)
    else userMemScan pgdir va vaR perm (i + pgsize) n

/-- `user_mem_check(env, va, len, perm)`, given the directory of `env`. -/
def userMemCheck (pgdir va len perm : ℕ) : MmM ℤ :=
  let «end» := roundup ((va + len) % 2 ^ 32) pgsize
  let vaR := rounddown va pgsize
  userMemScan pgdir va vaR perm vaR ((«end» - vaR) / pgsize)

end Jos
