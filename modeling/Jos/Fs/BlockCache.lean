/-
The block cache of the file server: fs/bc.c, and `block_is_free`,
`file_flush` and `fs_sync` of fs/fs.c, which work on it.

The disk is an array of sectors.  A block is read in when something touches
its page, by `bc_pgfault`, which itself looks at the superblock and at the
bitmap and may fault again; `depth` is how many handlers fit on the exception
stack.  The MMU sets the dirty bit of a page on every store.
-/
import Jos.Fs.Format
import Jos.Lib.Prog

namespace Jos

open Function

abbrev sectsize : ℕ := 512
abbrev blksects : ℕ := blksize / sectsize

/-- Why the server does not go on. -/
inductive BcStop where
  /-- `page fault in FS: eip %08x, va %08x, err %04x` -/
  | pageFault
  /-- `bad block number %08x in diskaddr` -/
  | badBlock
  /-- `reading non-existent block %08x` -/
  | nonExistent
  /-- `bg_pgfault: sys_page_alloc` -/
  | noMem
  /-- `reading free block %08x` -/
  | freeBlock
  /-- `flush_block of bad va %08x` -/
  | badVa
  /-- `attempt to free zero block` -/
  | freeZero
  /-- the exception stack is full -/
  | overflow
  deriving DecidableEq

structure Cache where
  /-- the bytes of each sector -/
  disk : ℕ → ℕ → UInt8
  /-- the page that is mapped for a block -/
  page : ℕ → Option (ℕ → UInt8)
  /-- `PTE_D` -/
  dirty : ℕ → Bool
  /-- how many more calls of `sys_page_alloc` there is memory for, the page
  tables they need included -/
  free : ℕ
  /-- whether `super` has been set -/
  super : Bool
  /-- whether `bitmap` has been set -/
  bitmap : Bool

namespace Cache

/-- What `ide_read(secno, .., BLKSECTS)` transfers. -/
def ideRead (s : Cache) (secno : ℕ) : ℕ → UInt8 :=
  fun o => s.disk (secno + o / sectsize) (o % sectsize)

/-- `ide_write(secno, p, BLKSECTS)`. -/
def ideWrite (s : Cache) (secno : ℕ) (p : ℕ → UInt8) : Cache :=
  { s with disk := fun sec =>
      if secno ≤ sec ∧ sec < secno + blksects then fun o => p ((sec - secno) * sectsize + o)
      else s.disk sec }

/-- The page that `sys_page_alloc` maps gets the block from the disk; the last
`sys_page_map` clears the dirty bit. -/
def readIn (s : Cache) (b : ℕ) : Cache :=
  { s with
    page := update s.page b (some (s.ideRead (b * blksects)))
    dirty := update s.dirty b false
    free := s.free - 1 }

def mapped (s : Cache) : Bytes.Mem := fun d =>
  match s.page (d / blksize) with
  | some p => p (d % blksize)
  | none => 0

/-- A store to a page that is mapped. -/
def put (s : Cache) (d : ℕ) (v : UInt8) : Cache :=
  match s.page (d / blksize) with
  | some p =>
    { s with
      page := update s.page (d / blksize) (some (update p (d % blksize) v))
      dirty := update s.dirty (d / blksize) true }
  | none => s

/-- Write the page of block `b` to the disk, if it is there and dirty;
`sys_page_map` then clears the dirty bit. -/
def flush (s : Cache) (b : ℕ) : Cache :=
  match s.page b with
  | some p =>
    if s.dirty b then
      { s.ideWrite (b * blksects) p with dirty := update s.dirty b false }
    else s
  | none => s

def unmap (s : Cache) (b : ℕ) : Cache :=
  { s with
    page := update s.page b none
    dirty := update s.dirty b false
    free := s.free + 1 }

end Cache

abbrev Bc := Prog BcStop Cache

namespace Bc

open Prog

/-- A word of the disk map; `touch` makes sure that its page is there. -/
def load32 (touch : ℕ → Bc Unit) (d : ℕ) : Bc ℕ := do
  touch (d / blksize)
  gets fun s => Bytes.rd32 s.mapped d

def blockIsFree (touch : ℕ → Bc Unit) (b : ℕ) : Bc Bool := do
  let s ← get
  if s.super = false then pure false
  else do
    let nblocks ← load32 touch sNblocks
    if nblocks ≤ b then pure false
    else do
      let w ← load32 touch (bitmapStart + 4 * (b / 32))
      pure (w.testBit (b % 32))

/-- `bc_pgfault`, for an address in block `b`. -/
def bcPgfault (touch : ℕ → Bc Unit) (b : ℕ) : Bc Unit := do
  when (disksize / blksize ≤ b) (halt .pageFault)
  let s ← get
  when (s.super = true) (do
    let nblocks ← load32 touch sNblocks
    when (nblocks ≤ b) (halt .nonExistent))
  let s ← get
  when (s.free = 0) (halt .noMem)
  modify fun s => s.readIn b
  let s ← get
  when (s.bitmap = true) (do
    let free ← blockIsFree touch b
    when (free = true) (halt .freeBlock))

/-- An access to block `b`, with room for `depth` handlers. -/
def touch : ℕ → ℕ → Bc Unit
  | 0 => fun b => do
    let s ← get
    when ((s.page b).isNone = true) (halt .overflow)
  | depth + 1 => fun b => do
    let s ← get
    when ((s.page b).isNone = true) (bcPgfault (touch depth) b)

variable (depth : ℕ)

def load (d : ℕ) : Bc UInt8 := do
  touch depth (d / blksize)
  gets fun s => s.mapped d

def store (d : ℕ) (v : UInt8) : Bc Unit := do
  touch depth (d / blksize)
  modify fun s => s.put d v

def diskaddr (b : ℕ) : Bc ℕ := do
  when (b = 0) (halt .badBlock)
  let s ← get
  when (s.super = true) (do
    let nblocks ← load32 (touch depth) sNblocks
    when (nblocks ≤ b) (halt .badBlock))
  pure ((diskmap + b * blksize) % 2 ^ 32)

def flushBlock (va : ℕ) : Bc Unit := do
  when (va < diskmap ∨ diskmap + disksize ≤ va) (halt .badVa)
  modify fun s => s.flush ((va - diskmap) / blksize)

/-- `file_block_walk(f, i, .., 0)`: the place of the slot. -/
def fileBlockWalk (f i : ℕ) : Bc (Option ℕ) :=
  if i < ndirect then pure (some (fDirect f i))
  else if i < ndirect + nindirect then do
    let indirect ← load32 (touch depth) (fIndirect f)
    pure (if indirect ≠ 0 then some (fIndirect f + 4 * (i - ndirect)) else none)
  else pure none

/-- The number of rounds, `(f->f_size + BLKSIZE - 1) / BLKSIZE`. -/
def flushCount (size : ℕ) : ℤ := (toInt32 (size + blksize - 1)).tdiv blksize

/-! `file_flush` and `fs_sync`, with any function in the place of `flush_block`. -/

section With

variable (fl : ℕ → Bc Unit)

/-- One round of the loop of `file_flush`. -/
def flushSlotWith (f i : ℕ) : Bc Unit := do
  let slot ← fileBlockWalk depth f i
  match slot with
  | none => pure ()
  | some a => do
    let b ← load32 (touch depth) a
    when (b ≠ 0) (do
      let va ← diskaddr depth b
      fl va)

/-- The loop of `file_flush`, for at most `n` rounds from round `i` on. -/
def flushLoopWith (f : ℕ) : ℕ → ℕ → Bc Unit
  | 0, _ => pure ()
  | n + 1, i => do
    let size ← load32 (touch depth) (fSize f)
    when ((i : ℤ) < flushCount size) (do
      flushSlotWith depth fl f i
      flushLoopWith f n (i + 1))

def fileFlushWith (f : ℕ) : Bc Unit := do
  -- a positive `int` divided by the block size is below 2^19
  flushLoopWith depth fl f (2 ^ 19) 0
  fl (diskmap + f)
  let indirect ← load32 (touch depth) (fIndirect f)
  when (indirect ≠ 0) (do
    let va ← diskaddr depth indirect
    fl va)

/-- The loop of `fs_sync`, for at most `n` rounds from block `i` on. -/
def syncLoopWith : ℕ → ℕ → Bc Unit
  | 0, _ => pure ()
  | n + 1, i => do
    let nblocks ← load32 (touch depth) sNblocks
    when (i < nblocks) (do
      let va ← diskaddr depth i
      fl va
      syncLoopWith n (i + 1))

end With

def fileFlush (f : ℕ) : Bc Unit := fileFlushWith depth flushBlock f

def fsSync : Bc Unit := syncLoopWith depth flushBlock (2 ^ 32) 1

end Bc

/-! ### Runs -/

/-- What happens to the cache.  `setSuper` and `setBitmap` are the assignments
in `fs_init`; `bc_init` has read the superblock before the first. -/
inductive BcEvent where
  | load (d : ℕ)
  | store (d : ℕ) (v : UInt8)
  | flushBlock (va : ℕ)
  | fileFlush (f : ℕ)
  | unmap (b : ℕ)
  | sync
  | setSuper
  | setBitmap

/-- The cache and the memory that it stands for.  A server that has stopped
takes no more steps. -/
def bcStep (depth : ℕ) (sm : Cache × Bytes.Mem) : BcEvent → Option (Cache × Bytes.Mem)
  | .load d =>
    if d < disksize then (Bc.load depth d sm.1).returned.map fun s => (s, sm.2) else none
  | .store d v =>
    if d < disksize then
      (Bc.store depth d v sm.1).returned.map fun s => (s, update sm.2 d v)
    else none
  | .flushBlock va => (Bc.flushBlock va sm.1).returned.map fun s => (s, sm.2)
  | .fileFlush f => (Bc.fileFlush depth f sm.1).returned.map fun s => (s, sm.2)
  | .unmap b =>
    if (sm.1.page b).isSome ∧ sm.1.dirty b = false then some (sm.1.unmap b, sm.2) else none
  | .sync => if sm.1.super then (Bc.fsSync depth sm.1).returned.map fun s => (s, sm.2) else none
  | .setSuper =>
    if (sm.1.page 1).isSome then some ({ sm.1 with super := true }, sm.2) else none
  | .setBitmap => if sm.1.super then some ({ sm.1 with bitmap := true }, sm.2) else none

end Jos
