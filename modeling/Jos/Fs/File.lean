/-
The file system: fs/fs.c.

The state is the disk as the block cache shows it, one byte for every offset
into the disk map; that the cache is faithful, and what flushing does, is
`BcCoherent`, and `Cached` relates the functions that are modelled on both.  A
`struct File` is the offset at which it starts.  The server stops where the
source panics.  Whether a block is resident is not part of the
state: an access to a block that is free and not resident stops the server too,
and is taken to go through here.

Sizes and offsets are `int`s, kept as 32-bit words; `toInt32` reads them.
-/
import Jos.Fs.BlockCache

namespace Jos

open Bytes

def eNoDisk : ℤ := 9
def eNotFound : ℤ := 11
def eBadPath : ℤ := 12
def eFileExists : ℤ := 13

/-- Why the server does not go on. -/
inductive FsStop where
  /-- `bad file system magic number` -/
  | badMagic
  /-- `file system is too large` -/
  | tooLarge
  /-- `assertion failed: !block_is_free(..)` in `check_bitmap` -/
  | bitmapFree
  /-- `attempt to free zero block` -/
  | freeZero
  /-- `bad block number %08x in diskaddr` -/
  | badBlock
  /-- `reading non-existent block %08x` -/
  | nonExistent
  /-- `assertion failed: (dir->f_size % BLKSIZE) == 0` -/
  | dirSize
  /-- a loop that goes round more often than there are blocks -/
  | hang
  deriving DecidableEq

abbrev FsM := Prog FsStop Mem

namespace Fs

open Prog

/-- Conversion to `uint32_t`. -/
def u32 (x : ℤ) : ℕ := (x % 2 ^ 32).toNat

/-- An access at offset `a`.  The superblock is resident since `bc_init`. -/
def touch (a : ℕ) : FsM Unit := do
  let m ← get
  when (rd32 m sNblocks ≤ a / blksize ∧ a / blksize ≠ 1) (halt .nonExistent)

def load32 (a : ℕ) : FsM ℕ := do
  touch a
  gets fun m => rd32 m a

def store32 (a v : ℕ) : FsM Unit := do
  touch a
  modify fun m => wr32 m a v

/-- `diskaddr`, without `DISKMAP`. -/
def diskaddr (blockno : ℕ) : FsM ℕ := do
  let nblocks ← load32 sNblocks
  if blockno = 0 ∨ nblocks ≤ blockno then halt .badBlock else pure (blockno * blksize)

/-! ### Super block and bitmap -/

def checkSuper : FsM Unit := do
  let magic ← load32 sMagic
  when (magic ≠ fsMagic) (halt .badMagic)
  let nblocks ← load32 sNblocks
  when (nblocks > disksize / blksize) (halt .tooLarge)

def bitmapWord (blockno : ℕ) : ℕ := bitmapStart + 4 * (blockno / 32)

def blockIsFree (blockno : ℕ) : FsM Bool := do
  let nblocks ← load32 sNblocks
  if nblocks ≤ blockno then pure false
  else do
    let w ← load32 (bitmapWord blockno)
    pure (w.testBit (blockno % 32))

def freeBlock (blockno : ℕ) : FsM Unit := do
  when (blockno = 0) (halt .freeZero)
  let w ← load32 (bitmapWord blockno)
  store32 (bitmapWord blockno) (w ||| 2 ^ (blockno % 32))

/-- The loop of `alloc_block`, `n` rounds from block `i` on. -/
def allocScan : ℕ → ℕ → FsM ℤ
  | 0, _ => pure (-eNoDisk)
  | n + 1, i => do
    let free ← blockIsFree i
    if free then do
      let w ← load32 (bitmapWord i)
      store32 (bitmapWord i) (w &&& (2 ^ 32 - 1 - 2 ^ (i % 32)))
      pure i
    else allocScan n (i + 1)

def allocBlock : FsM ℤ := do
  let nblocks ← load32 sNblocks
  allocScan nblocks 0

/-- The loop of `check_bitmap`, for the bitmap blocks from the `i`-th on. -/
def bitmapScan : ℕ → ℕ → FsM Unit
  | 0, _ => pure ()
  | n + 1, i => do
    let free ← blockIsFree (2 + i)
    when (free = true) (halt .bitmapFree)
    bitmapScan n (i + 1)

def checkBitmap : FsM Unit := do
  let nblocks ← load32 sNblocks
  bitmapScan ((nblocks + blkbitsize - 1) / blkbitsize) 0
  let free0 ← blockIsFree 0
  when (free0 = true) (halt .bitmapFree)
  let free1 ← blockIsFree 1
  when (free1 = true) (halt .bitmapFree)

/-! ### Blocks of a file -/

/-- `file_block_walk`: the offset of the slot. -/
def fileBlockWalk (f filebno : ℕ) (alloc : Bool) : FsM (Except ℤ ℕ) :=
  if filebno < ndirect then pure (.ok (fDirect f filebno))
  else if filebno < ndirect + nindirect then do
    let indirect ← load32 (fIndirect f)
    if indirect ≠ 0 then pure (.ok (fIndirect f + 4 * (filebno - ndirect)))
    else if alloc then do
      let r ← allocBlock
      if r < 0 then pure (.error (-eNoDisk))
      else do
        store32 (fIndirect f) r.toNat
        let blk ← diskaddr r.toNat
        modify fun m => fill m blk blksize fun _ => 0
        pure (.ok (fIndirect f + 4 * (filebno - ndirect)))
    else pure (.error (-eNotFound))
  else pure (.error (-eInval))

/-- `file_get_block`: the offset of the block. -/
def fileGetBlock (f filebno : ℕ) : FsM (Except ℤ ℕ) := do
  let walk ← fileBlockWalk f filebno true
  match walk with
  | .error r => pure (.error r)
  | .ok slot => do
    let blkno ← load32 slot
    if blkno = 0 then do
      let r ← allocBlock
      if r < 0 then pure (.error r)
      else do
        store32 slot r.toNat
        let blk ← diskaddr r.toNat
        pure (.ok blk)
    else do
      let blk ← diskaddr blkno
      pure (.ok blk)

def fileFreeBlock (f filebno : ℕ) : FsM ℤ := do
  let walk ← fileBlockWalk f filebno false
  match walk with
  | .error r => pure r
  | .ok slot => do
    let blkno ← load32 slot
    when (blkno ≠ 0) (do
      freeBlock blkno
      store32 slot 0)
    pure 0

/-- `(size + BLKSIZE - 1) / BLKSIZE`, an `int` division, as a `uint32_t`. -/
def nblocksOf (size : ℕ) : ℕ := u32 (Bc.flushCount size)

def fileTruncateBlocks (f newsize : ℕ) : FsM Unit := do
  let size ← load32 (fSize f)
  forFrom (fun bno => do
    let _ ← fileFreeBlock f bno
    pure ()) (nblocksOf newsize) (nblocksOf size - nblocksOf newsize)
  let indirect ← load32 (fIndirect f)
  when (nblocksOf newsize ≤ ndirect ∧ indirect ≠ 0) (do
    freeBlock indirect
    store32 (fIndirect f) 0)

def fileSetSize (f newsize : ℕ) : FsM ℤ := do
  let size ← load32 (fSize f)
  when (toInt32 size > toInt32 newsize) (fileTruncateBlocks f newsize)
  store32 (fSize f) newsize
  pure 0

/-- `file_flush`, which looks at the slots and changes nothing here. -/
def fileFlush (f : ℕ) : FsM Unit := do
  let size ← load32 (fSize f)
  forFrom (fun i => do
    let walk ← fileBlockWalk f i false
    match walk with
    | .error _ => pure ()
    | .ok slot => do
      let blkno ← load32 slot
      when (blkno ≠ 0) (do
        let _ ← diskaddr blkno
        pure ())) 0 (Bc.flushCount size).toNat
  let indirect ← load32 (fIndirect f)
  when (indirect ≠ 0) (do
    let _ ← diskaddr indirect
    pure ())

/-! ### Reading and writing -/

/-- How many rounds the loops of `file_read` and `file_write` can make: all but
the first start at a block boundary. -/
def maxRounds : ℕ := 2 ^ 20 + 2

/-- `pos / BLKSIZE`, as a `uint32_t`, and `pos % BLKSIZE`. -/
def posBlock (pos : ℕ) : ℕ := u32 ((toInt32 pos).tdiv blksize)
def posOff (pos : ℕ) : ℤ := (toInt32 pos).tmod blksize

/-- `MIN(BLKSIZE - pos % BLKSIZE, last - pos)`, a comparison of unsigned. -/
def chunk (pos last : ℕ) : ℕ := min (u32 (blksize - posOff pos)) (u32 (last - pos))

/-- The loop of `file_read`: the bytes from `pos` up to `last`. -/
def readLoop (f last : ℕ) : ℕ → ℕ → FsM (Except ℤ (List UInt8))
  | 0, _ => halt .hang
  | n + 1, pos =>
    if pos < last then do
      let got ← fileGetBlock f (posBlock pos)
      match got with
      | .error r => pure (.error r)
      | .ok blk => do
        let here ← gets fun m => bytesAt m (blk + posOff pos).toNat (chunk pos last)
        let rest ← readLoop f last n (u32 (pos + chunk pos last))
        match rest with
        | .error r => pure (.error r)
        | .ok data => pure (.ok (here ++ data))
    else pure (.ok [])

/-- `file_read`: the number of bytes read and the bytes, or an error. -/
def fileRead (f count offset : ℕ) : FsM (Except ℤ (List UInt8)) := do
  let size ← load32 (fSize f)
  if toInt32 offset ≥ toInt32 size then pure (.ok [])
  else do
    let count := min count (u32 (toInt32 size - toInt32 offset))
    readLoop f (u32 (offset + count)) maxRounds offset

/-- The loop of `file_write`; `k` bytes have been written. -/
def writeLoop (f last : ℕ) (buf : ℕ → UInt8) : ℕ → ℕ → ℕ → FsM (Option ℤ)
  | 0, _, _ => halt .hang
  | n + 1, pos, k =>
    if pos < last then do
      let got ← fileGetBlock f (posBlock pos)
      match got with
      | .error r => pure (some r)
      | .ok blk => do
        modify fun m => fill m (blk + posOff pos).toNat (chunk pos last) fun i => buf (k + i)
        writeLoop f last buf n (u32 (pos + chunk pos last)) (k + chunk pos last)
    else pure none

def fileWrite (f : ℕ) (buf : ℕ → UInt8) (count offset : ℕ) : FsM ℤ := do
  let size ← load32 (fSize f)
  let last := u32 (offset + count)
  when (last > size) (do
    let _ ← fileSetSize f last
    pure ())
  let r ← writeLoop f last buf maxRounds offset 0
  match r with
  | some r => pure r
  | none => pure (toInt32 count)

/-! ### Directories and paths -/

/-- `dir->f_size / BLKSIZE`, as a `uint32_t`. -/
def dirBlocks (size : ℕ) : ℕ := u32 ((toInt32 size).tdiv blksize)

/-- The entry with index `j` of the directory block at `blk`. -/
def dirEntry (blk j : ℕ) : ℕ := blk + 256 * j

/-- The first entry of the directory whose bytes pass `test`, `n` blocks from
block `i` on: the loops of `dir_lookup` and `dir_alloc_file`. -/
def dirScan (dir : ℕ) (test : Mem → ℕ → Bool) : ℕ → ℕ → FsM (Except ℤ (Option ℕ))
  | 0, _ => pure (.ok none)
  | n + 1, i => do
    let got ← fileGetBlock dir i
    match got with
    | .error r => pure (.error r)
    | .ok blk => do
      let m ← get
      match (List.range blkfiles).find? fun j => test m (dirEntry blk j) with
      | some j => pure (.ok (some (dirEntry blk j)))
      | none => dirScan dir test n (i + 1)

/-- `strcmp(f->f_name, name) == 0`. -/
def named (name : List UInt8) (m : Mem) (f : ℕ) : Bool := strEq m f name

/-- `f->f_name[0] == '\0'`. -/
def blank (m : Mem) (f : ℕ) : Bool := m f == 0

def dirLookup (dir : ℕ) (name : List UInt8) : FsM (Except ℤ ℕ) := do
  let size ← load32 (fSize dir)
  when (size % blksize ≠ 0) (halt .dirSize)
  let found ← dirScan dir (named name) (dirBlocks size) 0
  match found with
  | .error r => pure (.error r)
  | .ok none => pure (.error (-eNotFound))
  | .ok (some f) => pure (.ok f)

def dirAllocFile (dir : ℕ) : FsM (Except ℤ ℕ) := do
  let size ← load32 (fSize dir)
  when (size % blksize ≠ 0) (halt .dirSize)
  let found ← dirScan dir blank (dirBlocks size) 0
  match found with
  | .error r => pure (.error r)
  | .ok (some f) => pure (.ok f)
  | .ok none => do
    store32 (fSize dir) ((size + blksize) % 2 ^ 32)
    let got ← fileGetBlock dir (dirBlocks size)
    match got with
    | .error r => pure (.error r)
    | .ok blk => pure (.ok (dirEntry blk 0))

def slash : UInt8 := 0x2f

def skipSlash (p : List UInt8) : List UInt8 := p.dropWhile (· == slash)

/-- What `walk_path` returns and stores through its pointers. -/
structure Walk where
  r : ℤ
  dir : Option ℕ := none
  file : Option ℕ := none
  lastelem : List UInt8 := []
deriving DecidableEq

/-- The loop of `walk_path`, at file `f` of directory `dir`; there are at most
as many components as characters. -/
def walkLoop : ℕ → Option ℕ → ℕ → List UInt8 → FsM Walk
  | 0, dir, f, _ => pure { r := 0, dir, file := f }
  | n + 1, dir, f, path =>
    if path = [] then pure { r := 0, dir, file := f }
    else
      let name := path.takeWhile (· != slash)
      let rest := skipSlash (path.dropWhile (· != slash))
      if name.length ≥ maxnamelen then pure { r := -eBadPath }
      else do
        let type ← load32 (fType f)
        if type ≠ ftypeDir then pure { r := -eNotFound }
        else do
          let found ← dirLookup f name
          match found with
          | .ok g => walkLoop n (some f) g rest
          | .error r =>
            if r = -eNotFound ∧ rest = [] then pure { r, dir := some f, lastelem := name }
            else pure { r }

def walkPath (path : List UInt8) : FsM Walk :=
  walkLoop path.length none sRoot (skipSlash path)

def fileOpen (path : List UInt8) : FsM (Except ℤ ℕ) := do
  let w ← walkPath path
  match w.file with
  | some f => pure (.ok f)
  | none => pure (.error w.r)

def fileCreate (path : List UInt8) : FsM (Except ℤ ℕ) := do
  let w ← walkPath path
  if w.r = 0 then pure (.error (-eFileExists))
  else
    match w.dir with
    | none => pure (.error w.r)
    | some dir =>
      if w.r ≠ -eNotFound then pure (.error w.r)
      else do
        let got ← dirAllocFile dir
        match got with
        | .error r => pure (.error r)
        | .ok f => do
          modify fun m => putStr m f w.lastelem
          fileFlush dir
          pure (.ok f)

end Fs

end Jos
