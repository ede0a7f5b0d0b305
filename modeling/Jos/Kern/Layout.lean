/-
Memory layout and x86 paging constants (`inc/mmu.h`, `inc/memlayout.h`,
`inc/types.h`), error codes (`inc/error.h`) and system call numbers
(`inc/syscall.h`).

Addresses, page table entries and flag words are natural numbers; the C
expressions are 32-bit unsigned, so everything below is used at values under
`2 ^ 32`, and additions that can wrap are reduced explicitly.
-/
import Mathlib.Tactic.Common
import Mathlib.Data.Nat.Bitwise

namespace Jos

/-! ### Paging -/

def pgsize : ℕ := 4096
def pgshift : ℕ := 12
def ptxshift : ℕ := 12
def pdxshift : ℕ := 22
def nptentries : ℕ := 1024
def ptsize : ℕ := pgsize * nptentries

def pgnum (la : ℕ) : ℕ := la >>> ptxshift

def pdx (la : ℕ) : ℕ := la >>> pdxshift &&& 0x3ff

def ptx (la : ℕ) : ℕ := la >>> ptxshift &&& 0x3ff

def pgoff (la : ℕ) : ℕ := la &&& 0xfff

def pgaddr (d t o : ℕ) : ℕ := d <<< pdxshift ||| t <<< ptxshift ||| o

def pteP : ℕ := 0x001
def pteW : ℕ := 0x002
def pteU : ℕ := 0x004
def pteAvail : ℕ := 0xe00
def pteSyscall : ℕ := pteAvail ||| pteP ||| pteW ||| pteU

/-- `PTE_ADDR`: the address part of a page table or directory entry. -/
def pteAddr (pte : ℕ) : ℕ := pte &&& 0xfffff000

/-- `ROUNDDOWN(a, n)` on 32-bit values. -/
def rounddown (a n : ℕ) : ℕ := a - a % n

/-- `ROUNDUP(a, n)`: the addition wraps at 32 bits. -/
def roundup (a n : ℕ) : ℕ := rounddown ((a + n - 1) % 2 ^ 32) n

def toInt32 (n : ℕ) : ℤ :=
  if n % 2 ^ 32 < 2 ^ 31 then ((n % 2 ^ 32 : ℕ) : ℤ) else ((n % 2 ^ 32 : ℕ) : ℤ) - 2 ^ 32

/-! ### Virtual memory map -/

def kernbase : ℕ := 0xf0000000
def kstacktop : ℕ := kernbase
def mmiolim : ℕ := kstacktop - ptsize
def mmiobase : ℕ := mmiolim - ptsize
def ulim : ℕ := mmiobase
def uvpt : ℕ := ulim - ptsize
def upages : ℕ := uvpt - ptsize
def uenvs : ℕ := upages - ptsize
def utop : ℕ := uenvs
def uxstacktop : ℕ := utop
def ustacktop : ℕ := utop - 2 * pgsize

theorem utop_eq : utop = 955 * 2 ^ 22 := rfl
theorem ulim_eq : ulim = 958 * 2 ^ 22 := rfl

/-- `PDX(UTOP)`: the directory entries below this one are the user's. -/
def userPdes : ℕ := pdx utop

theorem userPdes_eq : userPdes = 955 := rfl

/-! ### Segments and flags -/

def gdKt : ℕ := 0x08
def gdUt : ℕ := 0x18
def gdUd : ℕ := 0x20

def flIf : UInt32 := 0x00000200
def flIoplMask : UInt32 := 0x00003000
def flIopl3 : UInt32 := 0x00003000

/-! ### Error codes -/

def eBadEnv : ℤ := 2
def eInval : ℤ := 3
def eNoMem : ℤ := 4
def eNoFreeEnv : ℤ := 5
def eFault : ℤ := 6
def eIpcNotRecv : ℤ := 7

/-! ### Environments and processors -/

def log2nenv : ℕ := 10
def nenv : ℕ := 1 <<< log2nenv

/-- `ENVX(envid)`: the slot part of an environment id. -/
def envx (envid : ℕ) : ℕ := envid &&& (nenv - 1)

def envgenshift : ℕ := 12

theorem nenv_eq : nenv = 1024 := rfl

instance : NeZero nenv := ⟨by decide⟩

theorem envx_eq (envid : ℕ) : envx envid = envid % 1024 :=
  Nat.and_two_pow_sub_one_eq_mod envid 10

theorem envx_lt (envid : ℕ) : envx envid < nenv := by
  rw [envx_eq, nenv_eq]
  exact Nat.mod_lt _ (by decide)

/-! ### Decoding addresses and entries -/

theorem pgnum_eq (la : ℕ) : pgnum la = la / 4096 := Nat.shiftRight_eq_div_pow la 12

theorem pgoff_eq (la : ℕ) : pgoff la = la % pgsize := Nat.and_two_pow_sub_one_eq_mod la 12

theorem pdx_eq (la : ℕ) : pdx la = la / 2 ^ 22 % 1024 := by
  rw [pdx, Nat.shiftRight_eq_div_pow]
  exact Nat.and_two_pow_sub_one_eq_mod _ 10

theorem ptx_eq (la : ℕ) : ptx la = la / 4096 % 1024 := by
  rw [ptx, Nat.shiftRight_eq_div_pow]
  exact Nat.and_two_pow_sub_one_eq_mod _ 10

theorem pdx_lt (la : ℕ) : pdx la < 1024 := by
  rw [pdx_eq]
  exact Nat.mod_lt _ (by decide)

theorem ptx_lt (la : ℕ) : ptx la < 1024 := by
  rw [ptx_eq]
  exact Nat.mod_lt _ (by decide)

theorem pdx_lt_user {la : ℕ} (h : la < utop) : pdx la < userPdes := by
  rw [utop_eq] at h
  rw [pdx_eq, userPdes_eq]
  omega

theorem pgaddr_eq (d t : ℕ) (ht : t < 1024) : pgaddr d t 0 = d * 2 ^ 22 + t * 4096 := by
  have h : t <<< ptxshift < 2 ^ 22 := by
    rw [ptxshift, Nat.shiftLeft_eq]
    omega
  rw [pgaddr, Nat.or_zero, pdxshift, ← Nat.shiftLeft_add_eq_or_of_lt h, Nat.shiftLeft_eq,
    ptxshift, Nat.shiftLeft_eq]

theorem pdx_pgaddr {d t : ℕ} (hd : d < 1024) (ht : t < 1024) : pdx (pgaddr d t 0) = d := by
  rw [pgaddr_eq d t ht, pdx_eq]
  omega

theorem ptx_pgaddr {d t : ℕ} (ht : t < 1024) : ptx (pgaddr d t 0) = t := by
  rw [pgaddr_eq d t ht, ptx_eq]
  omega

def frame (pte : ℕ) : ℕ := pgnum (pteAddr pte)

theorem frame_eq (pte : ℕ) : frame pte = pte / 4096 % 2 ^ 20 := by
  have hm : (0xfffff000 : ℕ) = (2 ^ 20 - 1) * 2 ^ 12 := by decide
  rw [frame, pgnum, ptxshift, pteAddr, Nat.shiftRight_and_distrib, hm, ← Nat.shiftLeft_eq,
    Nat.shiftLeft_shiftRight, Nat.and_two_pow_sub_one_eq_mod, Nat.shiftRight_eq_div_pow]

def present (pte : ℕ) : Prop := pte &&& pteP ≠ 0
  deriving Decidable

theorem present_iff (pte : ℕ) : present pte ↔ pte % 2 = 1 := by
  rw [present, pteP, Nat.and_one_is_mod]
  omega

@[simp] theorem not_present_zero : ¬ present 0 := by decide

def flags (pte : ℕ) : ℕ := pgoff pte

theorem flags_eq (pte : ℕ) : flags pte = pte % 4096 :=
  Nat.and_two_pow_sub_one_eq_mod pte 12

theorem and_eq_flags_and (pte : ℕ) {b : ℕ} (hb : b < 4096) : pte &&& b = flags pte &&& b := by
  rw [flags, pgoff, Nat.and_assoc, Nat.and_comm 0xfff b,
    Nat.and_two_pow_sub_one_eq_mod b 12, Nat.mod_eq_of_lt hb]

/-- The word `page_insert` and `pgdir_walk` store for page `pp`:
`page2pa(pp) | perm | PTE_P`. -/
def mkPte (pp perm : ℕ) : ℕ := pp <<< pgshift ||| perm ||| pteP

theorem present_mkPte (pp perm : ℕ) : present (mkPte pp perm) := by
  rw [present_iff, mkPte, pteP]
  have h := Nat.or_mod_two_pow (a := pp <<< pgshift ||| perm) (b := 1) (n := 1)
  rw [Nat.pow_one, show 1 % 2 = 1 from rfl] at h
  rw [h]
  rcases Nat.mod_two_eq_zero_or_one (pp <<< pgshift ||| perm) with h0 | h1
  · rw [h0]
    rfl
  · rw [h1]
    rfl

theorem frame_mkPte {pp : ℕ} (perm : ℕ) (hp : pp < 2 ^ 20) :
    frame (mkPte pp perm) = pp ||| perm / 4096 % 2 ^ 20 := by
  have h1 : (1 : ℕ) >>> 12 = 0 := by decide
  rw [frame_eq, ← Nat.shiftRight_eq_div_pow _ 12, mkPte, pgshift, pteP,
    Nat.shiftRight_or_distrib, Nat.shiftRight_or_distrib, Nat.shiftLeft_shiftRight, h1,
    Nat.or_zero, Nat.or_mod_two_pow, Nat.mod_eq_of_lt hp, Nat.shiftRight_eq_div_pow]

theorem frame_mkPte_of_lt {pp perm : ℕ} (hp : pp < 2 ^ 20) (h : perm < 4096) :
    frame (mkPte pp perm) = pp := by
  rw [frame_mkPte perm hp, Nat.div_eq_of_lt h, Nat.zero_mod, Nat.or_zero]

theorem flags_mkPte (pp perm : ℕ) : flags (mkPte pp perm) = (perm ||| pteP) % 4096 := by
  have h0 : pp <<< 12 % 2 ^ 12 = 0 := by
    rw [Nat.shiftLeft_eq]
    exact Nat.mul_mod_left _ _
  have h := Nat.or_mod_two_pow (a := pp <<< 12) (b := perm ||| pteP) (n := 12)
  rw [h0, Nat.zero_or] at h
  rw [flags_eq, mkPte, pgshift, Nat.or_assoc]
  exact h

end Jos
