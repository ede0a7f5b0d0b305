/-
The user heap: `malloc` and `free` of lib/malloc.c.

A bump pointer walks through the region from `mbegin` to `mend`.  A chunk of
less than a page shares its page with others, and the last word of the page
counts them; in a longer chunk all pages but the last carry the mark
`PTE_CONTINUED`.

`HeapSys` is a program that allocates, frees and stores into what it got; any
allocation of a page may fail.
-/
import Jos.Kern.Layout
import Jos.Lib.Bytes
import Jos.Lib.Run

namespace Jos

open Bytes

/-! ### The program -/

def maxmalloc : ℕ := 1024 * 1024

def mbegin : ℕ := 0x08000000
def mend : ℕ := 0x10000000

def add32 (a b : ℕ) : ℕ := (a + b) % 2 ^ 32

/-- What the heap is made of: `mptr`, the page table (is the page mapped, and
then, has it the mark `PTE_CONTINUED`), and memory. -/
structure Heap where
  mptr : ℕ
  pte : ℕ → Option Bool
  mem : Mem

namespace Heap

/-- `sys_page_alloc(0, va, PTE_P|PTE_U|PTE_W|cont)`; `ok` says whether there is
memory for it. -/
def sysPageAlloc (h : Heap) (va : ℕ) (cont ok : Bool) : Option Heap :=
  if utop ≤ va ∨ va % pgsize ≠ 0 ∨ ok = false then none
  else some { h with
    pte := Function.update h.pte (va / pgsize) (some cont)
    mem := fun a => if a / pgsize = va / pgsize then 0 else h.mem a }

def sysPageUnmap (h : Heap) (va : ℕ) : Heap :=
  if utop ≤ va ∨ va % pgsize ≠ 0 then h
  else { h with pte := Function.update h.pte (va / pgsize) none }

/-- The loop of `isfree`, which ends after `fuel` pages at the latest. -/
def isfreeLoop (h : Heap) (endVa : ℕ) : ℕ → ℕ → Bool
  | 0, _ => true
  | fuel + 1, va =>
    if va < endVa then
      if mend ≤ va ∨ (h.pte (va / pgsize)).isSome then false
      else isfreeLoop h endVa fuel (add32 va pgsize)
    else true

def isfree (h : Heap) (v n : ℕ) : Bool := h.isfreeLoop (add32 v n) (n / pgsize + 1) v

/-- `*ref = f(*ref)`; nothing if the page is not mapped, which faults. -/
def updRef (h : Heap) (ref : ℕ) (f : ℕ → ℕ) : Option Heap :=
  if (h.pte (ref / pgsize)).isSome then
    some { h with mem := wr32 h.mem ref (f (rd32 h.mem ref)) }
  else none

/-- The loop of `free`: the pages with the mark are unmapped. -/
def freePages : ℕ → ℕ → Heap → Option (ℕ × Heap)
  | 0, _, _ => none
  | fuel + 1, c, h =>
    if h.pte (c / pgsize) = some true then
      let c' := add32 c pgsize
      if mbegin ≤ c' ∧ c' < mend then freePages fuel c' (h.sysPageUnmap c) else none
    else some (c, h)

/-- The end of `free`: `c` is just a piece of its page. -/
def dropRef (h : Heap) (c : ℕ) : Option Heap :=
  (h.updRef (c + pgsize - 4) fun r => (r + (2 ^ 32 - 1)) % 2 ^ 32).map fun h' =>
    if rd32 h'.mem (c + pgsize - 4) = 0 then h'.sysPageUnmap c else h'

/-- `free`; nothing if an assertion fails or an access faults. -/
def free (h : Heap) (v : ℕ) : Option Heap :=
  if v = 0 then some h
  else if mbegin ≤ v ∧ v < mend then
    (freePages (mend / pgsize) (rounddown v pgsize) h).bind fun (c, h') => h'.dropRef c
  else none

/-- The loop `while (1)` of `malloc`: where there are `n` free bytes, or that
there is no address space left, and `mptr` then. -/
def search (h : Heap) (n : ℕ) : ℕ → ℕ → ℕ → Option (Bool × ℕ)
  | 0, _, _ => none
  | fuel + 1, nwrap, mptr =>
    if h.isfree mptr n then some (true, mptr)
    else if add32 mptr pgsize = mend then
      if nwrap + 1 = 2 then some (false, mbegin) else h.search n fuel (nwrap + 1) mbegin
    else h.search n fuel nwrap (add32 mptr pgsize)

/-- `for (; i >= 0; i -= PGSIZE)`, from page `k` on. -/
def unmapDown (h : Heap) : ℕ → Heap
  | 0 => h.sysPageUnmap h.mptr
  | k + 1 => unmapDown (h.sysPageUnmap (add32 h.mptr ((k + 1) * pgsize))) k

/-- The loop that allocates the pages, from page `k` on; the result is the
number of pages, or nothing if memory ran out. -/
def allocPages (n : ℕ) (ok : ℕ → Bool) : ℕ → ℕ → Heap → Option ℕ × Heap
  | 0, k, h => (some k, h)
  | fuel + 1, k, h =>
    if k * pgsize < n + 4 then
      match h.sysPageAlloc (add32 h.mptr (k * pgsize)) (k * pgsize + pgsize < n + 4) (ok k) with
      | some h' => allocPages n ok fuel (k + 1) h'
      | none => (none, h.unmapDown k)
    else (some k, h)

/-- `malloc` when the chunk needs pages of its own. -/
def mallocPages (h : Heap) (n : ℕ) (ok : ℕ → Bool) : Option (ℕ × Heap) :=
  match h.search (n + 4) (2 ^ 21) 0 h.mptr with
  | none => none
  | some (false, mptr) => some (0, { h with mptr := mptr })
  | some (true, mptr) =>
    match allocPages n ok (n / pgsize + 2) 0 { h with mptr := mptr } with
    | (none, h') => some (0, h')
    | (some k, h') =>
      (h'.updRef (add32 h'.mptr (k * pgsize) - 4) fun _ => 2).map fun h'' =>
        (h''.mptr, { h'' with mptr := add32 h''.mptr n })

/-- The chunk fits into the page `mptr` is in, with the reference word. -/
def Fits (h : Heap) (n : ℕ) : Prop := h.mptr / pgsize = add32 h.mptr (n + 3) / pgsize
  deriving Decidable

/-- `if (mptr == 0) mptr = mbegin`. -/
def start (h : Heap) : Heap := if h.mptr = 0 then { h with mptr := mbegin } else h

/-- `malloc`; nothing if an assertion of `free` fails or an access faults. -/
def malloc (h₀ : Heap) (n₀ : ℕ) (ok : ℕ → Bool) : Option (ℕ × Heap) :=
  let h := h₀.start
  let n := roundup n₀ 4
  if maxmalloc ≤ n then some (0, h)
  else if h.mptr % pgsize ≠ 0 then
    if h.Fits n then
      (h.updRef (roundup h.mptr pgsize - 4) fun r => (r + 1) % 2 ^ 32).map fun h' =>
        (h'.mptr, { h' with mptr := add32 h'.mptr n })
    else
      (h.free h.mptr).bind fun h' =>
        mallocPages { h' with mptr := rounddown (add32 h'.mptr pgsize) pgsize } n ok
  else h.mallocPages n ok

end Heap

/-! ### Histories -/

/-- The heap, and the chunks the program holds: pointer and size. -/
structure HeapSys where
  heap : Heap
  live : List (ℕ × ℕ)

/-- The byte `a` belongs to the chunk. -/
def Owns (c : ℕ × ℕ) (a : ℕ) : Prop := c.1 ≤ a ∧ a < c.1 + c.2
  deriving Decidable

/-- What the program does: `malloc`, `free` of a chunk it holds, and stores
into its chunks. -/
inductive HeapEvent where
  | malloc (n : UInt32) (ok : ℕ → Bool)
  | free (v n : ℕ)
  | store (a : ℕ) (b : UInt8)

instance instLawfulBEqChunk : LawfulBEq (ℕ × ℕ) := inferInstance

def HeapSys.step (s : HeapSys) : HeapEvent → Option HeapSys
  | .malloc n ok =>
    (s.heap.malloc n.toNat ok).map fun (v, h) =>
      ⟨h, if v = 0 then s.live else (v, n.toNat) :: s.live⟩
  | .free v n =>
    if (v, n) ∈ s.live then (s.heap.free v).map fun h => ⟨h, s.live.erase (v, n)⟩ else none
  | .store a b =>
    if ∃ c ∈ s.live, Owns c a then
      some { s with heap := { s.heap with mem := Function.update s.heap.mem a b } }
    else none

def heapPage (p : ℕ) : Prop := mbegin / pgsize ≤ p ∧ p < mend / pgsize

/-- Before the first call nothing is mapped in the region. -/
structure HeapSys.Fresh (s : HeapSys) : Prop where
  mptr : s.heap.mptr = 0
  pte : ∀ p, heapPage p → s.heap.pte p = none
  live : s.live = []

/-- When a call keeps the heap in order: rounding the size up does not wrap
around, the counter of the current page does not, and the current page is
not the last one, unless the chunk fits into it. -/
def HeapCond (s : HeapSys) : HeapEvent → Prop
  | .malloc n _ =>
    let h := s.heap.start
    n.toNat ≤ 2 ^ 32 - 4 ∧
      (roundup n.toNat 4 < maxmalloc → h.mptr % pgsize ≠ 0 →
        (h.Fits (roundup n.toNat 4) → rd32 h.mem (roundup h.mptr pgsize - 4) ≠ 2 ^ 32 - 1) ∧
        (h.mptr / pgsize + 1 = mend / pgsize → h.Fits (roundup n.toNat 4)))
  | _ => True

instance (s : HeapSys) : ∀ l, Decidable (HeapCond s l)
  | .malloc _ _ => inferInstanceAs (Decidable (_ ∧ (_ → _ → _ ∧ _)))
  | .free _ _ => inferInstanceAs (Decidable True)
  | .store _ _ => inferInstanceAs (Decidable True)

end Jos
