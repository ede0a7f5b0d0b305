/-
Straight-line 32-bit x86 code over the eight general registers, `%eip`,
`%eflags` and memory.

Every access is taken to succeed: a program that uses this machine says which
addresses it needs.

* `Instr`, `exec`, `run` — stack instructions, moves, additions and subtractions
  of a constant, indirect calls and returns, with the lengths of their encodings;
* `blend_status`, `blend_same` — `popfl` forgets the status flags before it, and
  restores the flags that were saved;
* `toNat_add`, `toNat_sub` — addresses that do not wrap around.
-/
import Mathlib.Logic.Function.Basic
import Mathlib.Tactic.Common
import Jos.Lib.Bytes

namespace X86

open Bytes

inductive Reg where
  | eax
  | ecx
  | edx
  | ebx
  | esp
  | ebp
  | esi
  | edi
deriving DecidableEq

structure Machine where
  reg : Reg → UInt32
  eip : UInt32
  eflags : UInt32
  mem : Mem

inductive Instr where
  /-- `pushl %r`. -/
  | push (r : Reg)
  /-- `popl %r`. -/
  | pop (r : Reg)
  /-- `movl disp(%base), %dst`. -/
  | load (disp : UInt32) (base dst : Reg)
  /-- `movl %src, disp(%base)`. -/
  | store (src : Reg) (disp : UInt32) (base : Reg)
  /-- `movl addr, %eax`. -/
  | loadAbs (addr : UInt32)
  /-- `addl $n, %r`. -/
  | add (n : UInt32) (r : Reg)
  /-- `subl $n, %r`. -/
  | sub (n : UInt32) (r : Reg)
  /-- `call *%r`. -/
  | call (r : Reg)
  | popa
  | popf
  | ret
deriving DecidableEq

/-- Bytes of the encoding, for constants and displacements that fit in one byte. -/
def Instr.size : Instr → UInt32
  | push _ | pop _ | popa | popf | ret => 1
  | load disp base _ | store _ disp base =>
    2 + (if disp = 0 then 0 else 1) + (if base = .esp then 1 else 0)
  | loadAbs _ => 5
  | add _ _ | sub _ _ => 3
  | call _ => 2

/-! ### Flags -/

/-- CF, PF, AF, ZF, SF and OF. -/
def statusFlags : UInt32 := 0x8d5

/-- What `popfl` loads outside the kernel: the status flags, TF, DF, NT, AC and
ID, and not the interrupt flag or the I/O privilege level. -/
def userFlags : UInt32 := 0x244dd5

def flag (n : ℕ) (b : Bool) : UInt32 := if b then .ofNat (2 ^ n) else 0

def negative (x : UInt32) : Bool := 2 ^ 31 ≤ x.toNat

def evenParity (x : UInt32) : Bool := (List.range 8).countP (x.toNat.testBit ·) % 2 = 0

def resultFlags (x : UInt32) : UInt32 :=
  flag 2 (evenParity x) ||| flag 6 (x = 0) ||| flag 7 (negative x)

def addFlags (x y : UInt32) : UInt32 :=
  resultFlags (x + y) ||| flag 0 (2 ^ 32 ≤ x.toNat + y.toNat) |||
    flag 4 (16 ≤ x.toNat % 16 + y.toNat % 16) |||
    flag 11 (negative x = negative y ∧ negative (x + y) ≠ negative x)

def subFlags (x y : UInt32) : UInt32 :=
  resultFlags (x - y) ||| flag 0 (x < y) ||| flag 4 (x.toNat % 16 < y.toNat % 16) |||
    flag 11 (negative x ≠ negative y ∧ negative (x - y) ≠ negative x)

/-- The flags under `mask` are those of `new`. -/
def blend (mask old new : UInt32) : UInt32 := (old &&& ~~~mask) ||| (new &&& mask)

theorem or_and (x y z : UInt32) : (x ||| y) &&& z = (x &&& z) ||| (y &&& z) := by
  rw [← UInt32.toBitVec_inj]
  simp only [UInt32.toBitVec_and, UInt32.toBitVec_or]
  ext i hi
  simp only [BitVec.getElem_and, BitVec.getElem_or, Bool.and_or_distrib_right]

theorem blend_status (old res new : UInt32) :
    blend userFlags (blend statusFlags old res) new = blend userFlags old new := by
  have h0 : statusFlags &&& ~~~userFlags = 0 := by decide
  have h1 : ~~~statusFlags &&& ~~~userFlags = ~~~userFlags := by decide
  simp only [blend]
  rw [or_and, UInt32.and_assoc, UInt32.and_assoc res, h0, h1, UInt32.and_zero, UInt32.or_zero]

theorem blend_same {mask old new : UInt32} (h : old &&& ~~~mask = new &&& ~~~mask) :
    blend mask old new = new := by
  rw [blend, h, UInt32.and_comm, UInt32.and_comm new, ← or_and, UInt32.not_or_self, UInt32.neg_one_and]

/-! ### Addresses -/

theorem toNat_add {x k : UInt32} {n r : ℕ} (j : ℕ) (hx : x.toNat = n) (hk : k.toNat = j) (hr : n + j = r)
    (h : r < 2 ^ 32) : (x + k).toNat = r := by
  rw [UInt32.toNat_add, hx, hk, hr, Nat.mod_eq_of_lt h]

theorem toNat_sub {x k : UInt32} {n r : ℕ} (j : ℕ) (hx : x.toNat = n) (hk : k.toNat = j) (hr : r + j = n) :
    (x - k).toNat = r := by
  have hle : k.toNat ≤ x.toNat := by omega
  rw [UInt32.toNat_sub_of_le _ _ (UInt32.le_iff_toNat_le.mpr hle), hx, hk]
  omega

theorem toNat_ofNat {n : ℕ} (h : n < 2 ^ 32) : (UInt32.ofNat n).toNat = n := by
  rw [UInt32.toNat_ofNat', Nat.mod_eq_of_lt h]

/-! ### Execution -/

namespace Machine

def set (σ : Machine) (r : Reg) (v : UInt32) : Machine :=
  { σ with reg := Function.update σ.reg r v }

def esp (σ : Machine) : UInt32 := σ.reg .esp

def at32 (σ : Machine) (a : UInt32) : UInt32 := .ofNat (rd32 σ.mem a.toNat)

def put32 (σ : Machine) (a v : UInt32) : Machine := { σ with mem := wr32 σ.mem a.toNat v.toNat }

def push (σ : Machine) (v : UInt32) : Machine := (σ.set .esp (σ.esp - 4)).put32 (σ.esp - 4) v

def next (σ : Machine) (i : Instr) : Machine := { σ with eip := σ.eip + i.size }

end Machine

open Machine

/-- The registers in the order in which `popal` takes them; the saved `%esp` is
skipped. -/
def popaRegs (σ : Machine) : Reg → UInt32
  | .edi => σ.at32 σ.esp
  | .esi => σ.at32 (σ.esp + 4)
  | .ebp => σ.at32 (σ.esp + 8)
  | .ebx => σ.at32 (σ.esp + 16)
  | .edx => σ.at32 (σ.esp + 20)
  | .ecx => σ.at32 (σ.esp + 24)
  | .eax => σ.at32 (σ.esp + 28)
  | .esp => σ.esp + 32

def exec (i : Instr) (σ : Machine) : Machine :=
  match i with
  | .push r => (σ.push (σ.reg r)).next i
  | .pop r => ((σ.set .esp (σ.esp + 4)).set r (σ.at32 σ.esp)).next i
  | .load disp base dst => (σ.set dst (σ.at32 (σ.reg base + disp))).next i
  | .store src disp base => (σ.put32 (σ.reg base + disp) (σ.reg src)).next i
  | .loadAbs addr => (σ.set .eax (σ.at32 addr)).next i
  | .add n r => { (σ.set r (σ.reg r + n)).next i with
      eflags := blend statusFlags σ.eflags (addFlags (σ.reg r) n) }
  | .sub n r => { (σ.set r (σ.reg r - n)).next i with
      eflags := blend statusFlags σ.eflags (subFlags (σ.reg r) n) }
  | .call r => { σ.push (σ.eip + i.size) with eip := σ.reg r }
  | .popa => { σ with reg := popaRegs σ }.next i
  | .popf => { (σ.set .esp (σ.esp + 4)).next i with
      eflags := blend userFlags σ.eflags (σ.at32 σ.esp) }
  | .ret => { σ.set .esp (σ.esp + 4) with eip := σ.at32 σ.esp }

def run (is : List Instr) (σ : Machine) : Machine := is.foldl (fun σ i => exec i σ) σ

end X86
