/-
The layout of the disk: inc/fs.h.

Addresses are offsets into the disk map, so that block `b` starts at
`b * blksize`.  A `struct File` is 256 bytes; its fields are at the offsets
below.
-/
import Jos.Kern.Layout
import Jos.Lib.Bytes

namespace Jos

abbrev blksize : ℕ := 4096
abbrev blkbitsize : ℕ := blksize * 8
abbrev maxnamelen : ℕ := 128
abbrev maxpathlen : ℕ := 1024
abbrev ndirect : ℕ := 10
abbrev nindirect : ℕ := blksize / 4
abbrev maxfilesize : ℕ := (ndirect + nindirect) * blksize
abbrev blkfiles : ℕ := blksize / 256

abbrev ftypeReg : ℕ := 0
abbrev ftypeDir : ℕ := 1
abbrev fsMagic : ℕ := 0x4A0530AE

abbrev disksize : ℕ := 0xC0000000

abbrev diskmap : ℕ := 0x10000000

/-! ### Fields of `struct Super`, in block 1 -/

abbrev sMagic : ℕ := blksize
abbrev sNblocks : ℕ := blksize + 4
abbrev sRoot : ℕ := blksize + 8

abbrev bitmapStart : ℕ := 2 * blksize

/-! ### Fields of the `struct File` at `f` -/

abbrev fSize (f : ℕ) : ℕ := f + 128
abbrev fType (f : ℕ) : ℕ := f + 132
abbrev fDirect (f k : ℕ) : ℕ := f + 136 + 4 * k
abbrev fIndirect (f : ℕ) : ℕ := f + 176

end Jos
