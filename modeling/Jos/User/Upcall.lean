/-
The page fault upcall: kern/trap.c puts a record of the fault on the user
exception stack, and `_pgfault_upcall` of lib/pfentry.S calls the C handler and
goes back to the instruction that faulted.

* `run_keeps_above` — nested faults are invisible to a handler that leaves the
  memory above its frame alone;
* `upcall_restores` — the interrupted computation goes on as it was, unless it
  was at the very top of the exception stack, where the record would lie under
  the stack pointer.
-/
import Mathlib.Logic.Relation
import Jos.Kern.Trap
import Jos.Lib.X86

namespace Jos

open Function

open Prog Bytes X86

/-! ### The record -/

/-- `struct UTrapframe` as `page_fault_handler` fills it: offsets and values. -/
def utfWords (tf : Trapframe) (faultVa : ℕ) : List (ℕ × ℕ) :=
  [(8, tf.tfRegs.regEdi.toNat), (12, tf.tfRegs.regEsi.toNat), (16, tf.tfRegs.regEbp.toNat),
    (20, tf.tfRegs.regOesp.toNat), (24, tf.tfRegs.regEbx.toNat), (28, tf.tfRegs.regEdx.toNat),
    (32, tf.tfRegs.regEcx.toNat), (36, tf.tfRegs.regEax.toNat), (40, tf.tfEip.toNat),
    (4, tf.tfErr.toNat), (48, tf.tfEsp.toNat), (0, faultVa), (44, tf.tfEflags.toNat)]

theorem storeUtf_eq (cr3 utf : ℕ) (tf : Trapframe) (faultVa : ℕ) :
    storeUtf cr3 utf tf faultVa = (utfWords tf faultVa).foldr
      (fun w k => vstore32 cr3 (utf + w.1) w.2 >>= fun _ => k) (pure ()) := by
  simp only [utfWords, List.foldr, bind_unit]
  rfl

theorem utfWords_pairwise (tf : Trapframe) (faultVa : ℕ) : (utfWords tf faultVa).Pairwise
    fun w w' => w.1 + 4 ≤ w'.1 ∨ w'.1 + 4 ≤ w.1 := by
  simp [utfWords]

theorem utfWords_inside {tf : Trapframe} {faultVa : ℕ} {w : ℕ × ℕ} (h : w ∈ utfWords tf faultVa) :
    w.1 + 4 ≤ sizeofUTrapframe := by
  have hall : ∀ w ∈ utfWords tf faultVa, w.1 + 4 ≤ 52 := by simp [utfWords]
  exact hall w h

/-! ### The upcall -/

/-- What the trap records beside the registers. -/
structure FaultInfo where
  va : UInt32
  err : UInt32
  oesp : UInt32

/-- Where the program has its upcall and the variable `_pgfault_handler`. -/
structure UpcallEnv where
  upcall : UInt32
  handlerVar : UInt32

def trapframe (σ : Machine) (i : FaultInfo) : Trapframe where
  tfRegs :=
    { regEdi := σ.reg .edi, regEsi := σ.reg .esi, regEbp := σ.reg .ebp, regOesp := i.oesp,
      regEbx := σ.reg .ebx, regEdx := σ.reg .edx, regEcx := σ.reg .ecx, regEax := σ.reg .eax }
  tfErr := i.err
  tfEip := σ.eip
  tfEflags := σ.eflags
  tfEsp := σ.esp

/-- Where the record of a fault in state `σ` goes. -/
def utfOf (σ : Machine) : ℕ := utfAddr σ.esp.toNat

/-- The environment after `page_fault_handler`: the record is stored, `%eip` and
`%esp` are replaced and every other register is popped from the trap frame. -/
def deliver (p : UpcallEnv) (σ : Machine) (i : FaultInfo) : Machine where
  reg := update σ.reg .esp (.ofNat (utfOf σ))
  eip := p.upcall
  eflags := σ.eflags
  mem := putWords σ.mem (utfOf σ) (utfWords (trapframe σ i) i.va.toNat)

/-- `_pgfault_upcall` up to the call of the C handler. -/
def enterCode (p : UpcallEnv) : List Instr := [.push .esp, .loadAbs p.handlerVar, .call .eax]

/-- `_pgfault_upcall` after the C handler: take the argument off the stack, push
the trap-time `%eip` onto the trap-time stack, -/
def pushEipCode : List Instr :=
  [.add 4 .esp, .load 0x30 .esp .eax, .sub 4 .eax, .store .eax 0x30 .esp, .load 0x28 .esp .ebx,
    .store .ebx 0 .eax]

/-- restore the registers and the flags, change to the trap-time stack and return. -/
def restoreCode : List Instr :=
  [.add 8 .esp, .popa, .add 4 .esp, .popf, .pop .esp, .ret]

/-- A fault in state `σ`, up to the first instruction of the C handler. -/
def enter (p : UpcallEnv) (σ : Machine) (i : FaultInfo) : Machine := run (enterCode p) (deliver p σ i)

/-- From the return of the C handler in state `τ` to the `ret`. -/
def leave (τ : Machine) : Machine := run restoreCode (run pushEipCode τ)

/-- `page_fault_handler` goes on to the upcall, and the word below the stack
pointer is in the user's half of memory. -/
structure Deliverable (p : UpcallEnv) (σ : Machine) : Prop where
  upcall : p.upcall ≠ 0
  kept : ¬ (ustacktop < σ.esp.toNat ∧ σ.esp.toNat < uxstacktop - pgsize)
  below : 4 ≤ σ.esp.toNat
  user : σ.esp.toNat ≤ utop

/-- The C handler, entered in state `σ`, has returned in state `τ`: the record at
`u` and the memory above it are unchanged.  User code cannot change the flags
that are not the user's. -/
structure Returned (p : UpcallEnv) (u : ℕ) (σ τ : Machine) : Prop where
  esp : τ.esp.toNat = u - 4
  eip : τ.eip = p.upcall + 8
  mem : ∀ a, u ≤ a → τ.mem a = σ.mem a
  sys : τ.eflags &&& ~~~userFlags = σ.eflags &&& ~~~userFlags

/-- The code of a handler: its steps, and the states in which an instruction of
it faults. -/
structure Code where
  step : Machine → Machine → Prop
  faults : Machine → Prop

/-- The handler runs, and `nested` are the faults inside it. -/
def HandlerRun (c : Code) (nested : Machine → Machine → Prop) : Machine → Machine → Prop :=
  Relation.ReflTransGen fun a b => c.step a b ∨ (c.faults a ∧ nested a b)

/-- A fault in state `σ` whose handler returned in state `τ` and that ended in
state `σ'`, with nested faults to a depth below `n`. -/
def Handled (p : UpcallEnv) (c : Code) : ℕ → Machine → Machine → Machine → Prop
  | 0, _, _, _ => False
  | n + 1, σ, τ, σ' => ∃ i, Deliverable p σ ∧
      HandlerRun c (fun a b => ∃ t, Handled p c n a t b) (enter p σ i) τ ∧
      Returned p (utfOf σ) (enter p σ i) τ ∧ σ' = leave τ

/-! ### Into the handler -/

variable {p : UpcallEnv} {c : Code} {σ τ σ' : Machine} {i : FaultInfo} {u : ℕ}

theorem enter_mem (h : utfOf σ = u) (hu : 8 ≤ u) (hlt : u < 2 ^ 32) : (enter p σ i).mem =
    wr32 (wr32 (putWords σ.mem u (utfWords (trapframe σ i) i.va.toNat)) (u - 4) u) (u - 8)
      (p.upcall + 1 + 5 + 2).toNat := by
  have hu32 : (UInt32.ofNat u).toNat = u := toNat_ofNat hlt
  have hesp : (UInt32.ofNat u - 4).toNat = u - 4 := toNat_sub 4 hu32 rfl (by omega)
  have hesp' : (UInt32.ofNat u - 4 - 4).toNat = u - 8 := toNat_sub 4 hesp rfl (by omega)
  simp only [enter, run, enterCode, List.foldl, exec, deliver, Machine.push, Machine.set, Machine.put32,
    Machine.next, Machine.esp, update_self, h, ne_eq, reduceCtorEq, not_false_eq_true,
    update_of_ne, hesp, hesp', hu32, Instr.size]

theorem Returned.utf (hr : Returned p u (enter p σ i) τ) (h : utfOf σ = u) (hu : 8 ≤ u)
    (hlt : u < 2 ^ 32) {w : ℕ × ℕ} (hw : w ∈ utfWords (trapframe σ i) i.va.toNat) (hv : w.2 < 2 ^ 32) :
    rd32 τ.mem (u + w.1) = w.2 := by
  calc rd32 τ.mem (u + w.1)
      = rd32 (enter p σ i).mem (u + w.1) := rd32_congr fun b hb _ => hr.mem b (by omega)
    _ = rd32 (putWords σ.mem u (utfWords (trapframe σ i) i.va.toNat)) (u + w.1) := by
        rw [enter_mem h hu hlt, rd32_wr32_of_disjoint _ _ (by omega),
          rd32_wr32_of_disjoint _ _ (by omega)]
    _ = w.2 := by rw [rd32_putWords (utfWords_pairwise _ _) hw, Nat.mod_eq_of_lt hv]

theorem enter_outside (h : utfOf σ = u) (hu : 8 ≤ u) (hlt : u < 2 ^ 32) {a : ℕ}
    (ha : a < u - 8 ∨ u + sizeofUTrapframe ≤ a) : (enter p σ i).mem a = σ.mem a := by
  have hrec : putWords σ.mem u (utfWords (trapframe σ i) i.va.toNat) a = σ.mem a := by
    refine putWords_outside fun w hw => ?_
    have := utfWords_inside hw
    omega
  rw [enter_mem h hu hlt]
  rcases ha with ha | ha
  · rw [wr32_of_lt _ _ (by omega), wr32_of_lt _ _ (by omega), hrec]
  · rw [wr32_of_ge _ _ (by omega), wr32_of_ge _ _ (by omega), hrec]

/-! ### Out of the handler -/

theorem pushEip_spec (hesp : τ.esp.toNat + 4 = u) (hlt : u + 52 ≤ 2 ^ 32) {e : ℕ}
    (he : rd32 τ.mem (u + 48) = e) (h4 : 4 ≤ e) :
    (run pushEipCode τ).mem = wr32 (wr32 τ.mem (u + 48) (e - 4)) (e - 4)
        (rd32 (wr32 τ.mem (u + 48) (e - 4)) (u + 40)) ∧
      (run pushEipCode τ).esp.toNat = u ∧
      blend userFlags (run pushEipCode τ).eflags = blend userFlags τ.eflags := by
  have hu : (τ.esp + 4).toNat = u := toNat_add 4 rfl rfl hesp (by omega)
  have h48 : (τ.esp + 4 + 48).toNat = u + 48 := toNat_add 48 hu rfl rfl (by omega)
  have h40 : (τ.esp + 4 + 40).toNat = u + 40 := toNat_add 40 hu rfl rfl (by omega)
  have hsub : (UInt32.ofNat e - 4).toNat = e - 4 :=
    toNat_sub 4 (toNat_ofNat (he ▸ rd32_lt _ _)) rfl (by omega)
  rw [Machine.esp] at h48 h40
  refine ⟨?_, ?_, ?_⟩
  · simp only [run, pushEipCode, List.foldl, exec, Machine.set, Machine.put32, Machine.at32,
      Machine.next, update_self, ne_eq, reduceCtorEq, not_false_eq_true,
      update_of_ne, UInt32.add_zero, h48, h40, he, hsub, toNat_ofNat (rd32_lt _ _)]
  · exact hu
  · funext f
    simp only [run, pushEipCode, List.foldl, exec, Machine.next, Machine.put32, Machine.set, blend_status]

/-- Where the record keeps a general register. -/
def savedAt : Reg → ℕ
  | .edi => 8
  | .esi => 12
  | .ebp => 16
  | .ebx => 24
  | .edx => 28
  | .ecx => 32
  | .eax => 36
  | .esp => 48

theorem restore_reg (hesp : σ.esp.toNat = u) (hlt : u + 52 ≤ 2 ^ 32) {r : Reg} (hr : r ≠ .esp) :
    (run restoreCode σ).reg r = .ofNat (rd32 σ.mem (u + savedAt r)) := by
  have hu : (σ.esp + 8).toNat = u + 8 := toNat_add 8 hesp rfl rfl (by omega)
  have hoff : ∀ k : UInt32, k.toNat ≤ 28 → (σ.esp + 8 + k).toNat = u + (8 + k.toNat) := by
    intro k hk
    exact toNat_add k.toNat hu rfl (by omega) (by omega)
  cases r with
  | esp => exact absurd rfl hr
  | edi => exact congrArg (fun a => UInt32.ofNat (rd32 σ.mem a)) hu
  | esi => exact congrArg (fun a => UInt32.ofNat (rd32 σ.mem a)) (hoff 4 (by decide))
  | ebp => exact congrArg (fun a => UInt32.ofNat (rd32 σ.mem a)) (hoff 8 (by decide))
  | ebx => exact congrArg (fun a => UInt32.ofNat (rd32 σ.mem a)) (hoff 16 (by decide))
  | edx => exact congrArg (fun a => UInt32.ofNat (rd32 σ.mem a)) (hoff 20 (by decide))
  | ecx => exact congrArg (fun a => UInt32.ofNat (rd32 σ.mem a)) (hoff 24 (by decide))
  | eax => exact congrArg (fun a => UInt32.ofNat (rd32 σ.mem a)) (hoff 28 (by decide))

theorem restore_spec (hesp : σ.esp.toNat = u) (hlt : u + 52 ≤ 2 ^ 32) :
    (run restoreCode σ).esp = .ofNat (rd32 σ.mem (u + 48)) + 4 ∧
      (run restoreCode σ).eip = σ.at32 (.ofNat (rd32 σ.mem (u + 48))) ∧
      (run restoreCode σ).eflags = blend userFlags σ.eflags (.ofNat (rd32 σ.mem (u + 44))) := by
  have h8 : (σ.esp + 8).toNat = u + 8 := toNat_add 8 hesp rfl rfl (by omega)
  have h40 : (σ.esp + 8 + 32).toNat = u + 40 := toNat_add 32 h8 rfl rfl (by omega)
  have h44 : (σ.esp + 8 + 32 + 4).toNat = u + 44 := toNat_add 4 h40 rfl rfl (by omega)
  have h48 : (σ.esp + 8 + 32 + 4 + 4).toNat = u + 48 := toNat_add 4 h44 rfl rfl (by omega)
  rw [← h48, ← h44]
  refine ⟨rfl, rfl, ?_⟩
  simp only [run, restoreCode, List.foldl, exec, Machine.next, Machine.set, blend_status]
  rfl

theorem leave_spec (hr : Returned p u (enter p σ i) τ) (h : utfOf σ = u) (hu : 8 ≤ u)
    (hlt : u + 52 ≤ 2 ^ 32) (h4 : 4 ≤ σ.esp.toNat) (hdis : σ.esp.toNat ≤ u ∨ u + 56 ≤ σ.esp.toNat) :
    (leave τ).reg = σ.reg ∧ (leave τ).eip = σ.eip ∧ (leave τ).eflags = σ.eflags ∧
      ∀ a, (a < u + 48 ∨ u + 52 ≤ a) → (a < σ.esp.toNat - 4 ∨ σ.esp.toNat ≤ a) →
        (leave τ).mem a = τ.mem a := by
  obtain ⟨e, he⟩ : ∃ e, σ.esp.toNat = e := ⟨_, rfl⟩
  rw [he] at h4 hdis
  -- the words of the record that the code reads
  have hrec : ∀ o v, (o, v) ∈ utfWords (trapframe σ i) i.va.toNat → v < 2 ^ 32 →
      rd32 τ.mem (u + o) = v := fun o v hw hv => hr.utf h hu (by omega) hw hv
  have h48 : rd32 τ.mem (u + 48) = e :=
    (hrec 48 σ.esp.toNat (by simp [utfWords, trapframe]) (UInt32.toNat_lt _)).trans he
  have h40 : rd32 τ.mem (u + 40) = σ.eip.toNat :=
    hrec 40 σ.eip.toNat (by simp [utfWords, trapframe]) (UInt32.toNat_lt _)
  have h44 : rd32 τ.mem (u + 44) = σ.eflags.toNat :=
    hrec 44 σ.eflags.toNat (by simp [utfWords, trapframe]) (UInt32.toNat_lt _)
  have hesp : τ.esp.toNat + 4 = u := by
    have := hr.esp
    omega
  obtain ⟨hmem, hu', hfl⟩ := pushEip_spec hesp hlt h48 h4
  obtain ⟨s, hs⟩ : ∃ s, run pushEipCode τ = s := ⟨_, rfl⟩
  rw [hs] at hmem hu' hfl
  -- what the two stores leave of the record
  have hread : ∀ o, o + 4 ≤ 48 → rd32 s.mem (u + o) = rd32 τ.mem (u + o) := by
    intro o ho
    rw [hmem, rd32_wr32_of_disjoint _ _ (by omega), rd32_wr32_of_disjoint _ _ (by omega)]
  have hstack : rd32 s.mem (u + 48) = e - 4 := by
    rw [hmem, rd32_wr32_of_disjoint _ _ (by omega), rd32_wr32, Nat.mod_eq_of_lt]
    have := rd32_lt τ.mem (u + 48)
    omega
  have hret : rd32 s.mem (e - 4) = σ.eip.toNat := by
    rw [hmem, rd32_wr32, Nat.mod_eq_of_lt (rd32_lt _ _), rd32_wr32_of_disjoint _ _ (by omega), h40]
  obtain ⟨hesp', heip, hflags⟩ := restore_spec hu' hlt
  have he4 : (UInt32.ofNat (e - 4)).toNat = e - 4 := toNat_ofNat (hstack ▸ rd32_lt _ _)
  have hleave : leave τ = run restoreCode s := by rw [← hs, leave]
  rw [hleave]
  refine ⟨?_, ?_, ?_, ?_⟩
  · funext r
    by_cases hresp : r = .esp
    · rw [hresp]
      apply UInt32.toNat_inj.mp
      refine Eq.trans (congrArg UInt32.toNat hesp') (Eq.trans ?_ he.symm)
      rw [hstack]
      exact toNat_add 4 he4 rfl (by omega) (he ▸ UInt32.toNat_lt _)
    · rw [restore_reg hu' hlt hresp]
      apply UInt32.toNat_inj.mp
      rw [toNat_ofNat (rd32_lt _ _)]
      cases r with
      | esp => exact absurd rfl hresp
      | _ =>
        rw [savedAt, hread _ (by omega)]
        exact hrec _ _ (by simp [utfWords, trapframe]) (UInt32.toNat_lt _)
  · rw [heip, hstack, Machine.at32, he4, hret, UInt32.ofNat_toNat]
  · rw [hflags, hread 44 (by omega), h44, UInt32.ofNat_toNat, hfl]
    exact blend_same hr.sys
  · intro a ha ha'
    have hkeep : (run restoreCode s).mem = s.mem := rfl
    rw [he] at ha'
    rw [hkeep, hmem]
    have hrest : wr32 τ.mem (u + 48) (e - 4) a = τ.mem a := by
      rcases ha with ha | ha
      · exact wr32_of_lt _ _ ha
      · exact wr32_of_ge _ _ ha
    rcases ha' with ha' | ha'
    · rw [wr32_of_lt _ _ ha', hrest]
    · rw [wr32_of_ge _ _ (by omega), hrest]

/-! ### Whole faults -/

theorem utfOf_cases (σ : Machine) :
    (uxstacktop - pgsize ≤ σ.esp.toNat ∧ σ.esp.toNat < uxstacktop ∧ utfOf σ + 56 = σ.esp.toNat) ∨
      ((σ.esp.toNat < uxstacktop - pgsize ∨ uxstacktop ≤ σ.esp.toNat) ∧ utfOf σ + 52 = uxstacktop) := by
  have htop : uxstacktop = 955 * 2 ^ 22 := utop_eq
  have hpg : pgsize = 2 ^ 12 := rfl
  have hsize : sizeofUTrapframe = 52 := rfl
  unfold utfOf utfAddr
  by_cases hin : σ.esp.toNat < uxstacktop ∧ σ.esp.toNat ≥ uxstacktop - pgsize
  · rw [if_pos hin]
    omega
  · rw [if_neg hin]
    omega

theorem Deliverable.disjoint (h : Deliverable p σ) (hne : σ.esp.toNat ≠ uxstacktop) :
    8 ≤ utfOf σ ∧ utfOf σ + 52 ≤ 2 ^ 32 ∧ (σ.esp.toNat ≤ utfOf σ ∨ utfOf σ + 56 ≤ σ.esp.toNat) := by
  have htop : uxstacktop = 955 * 2 ^ 22 := utop_eq
  have hpg : pgsize = 2 ^ 12 := rfl
  have huser : σ.esp.toNat ≤ uxstacktop := h.user
  have hcases := utfOf_cases σ
  generalize σ.esp.toNat = e at *
  generalize utfOf σ = u at *
  omega

theorem Handled.above {n : ℕ} (h : Handled p c n σ τ σ')
    (hstack : uxstacktop - pgsize ≤ σ.esp.toNat ∧ σ.esp.toNat < uxstacktop) {a : ℕ}
    (ha : σ.esp.toNat ≤ a) : σ'.mem a = σ.mem a := by
  cases n with
  | zero => exact h.elim
  | succ n =>
    obtain ⟨i, hd, -, hr, rfl⟩ := h
    have hne : σ.esp.toNat ≠ uxstacktop := by omega
    obtain ⟨hu, hlt, hdis⟩ := hd.disjoint hne
    have hplace := utfOf_cases σ
    have hsize : sizeofUTrapframe = 52 := rfl
    obtain ⟨-, -, -, hmem⟩ := leave_spec hr rfl hu hlt hd.below hdis
    calc (leave τ).mem a = τ.mem a := hmem a (by omega) (by omega)
      _ = (enter p σ i).mem a := hr.mem a (by omega)
      _ = σ.mem a := enter_outside rfl hu (by omega) (by omega)

/-- Nested faults are invisible to a handler: if its own steps leave the memory
from the record at `u` on, and it runs below the record, then so does every run
of it with faults inside, to any depth. -/
theorem run_keeps_above {n : ℕ} (hstep : ∀ x y, c.step x y → ∀ a, u ≤ a → y.mem a = x.mem a)
    (hfault : ∀ x, c.faults x →
      uxstacktop - pgsize ≤ x.esp.toNat ∧ x.esp.toNat < uxstacktop ∧ x.esp.toNat ≤ u)
    (hrun : HandlerRun c (fun x y => ∃ t, Handled p c n x t y) σ τ) :
    ∀ a, u ≤ a → τ.mem a = σ.mem a := by
  induction hrun with
  | refl => exact fun _ _ => rfl
  | tail _ hlast ih =>
    intro a ha
    rcases hlast with hown | ⟨hx, t, hnested⟩
    · exact (hstep _ _ hown a ha).trans (ih a ha)
    · obtain ⟨hlo, htop, hle⟩ := hfault _ hx
      exact (hnested.above ⟨hlo, htop⟩ (Nat.le_trans hle ha)).trans (ih a ha)

/-- A fault, at any depth, whose trap-time stack pointer is not the top of the
exception stack: when the upcall has returned, the registers, `%eip` and the
flags are those at the fault.  The upcall and the kernel change no byte at or
above the stack pointer, except for the record and the two words below it that
they put on the exception stack; a fault that is on the exception stack already
changes none at all. -/
theorem upcall_restores {n : ℕ} (h : Handled p c n σ τ σ') (hne : σ.esp.toNat ≠ uxstacktop) :
    σ'.reg = σ.reg ∧ σ'.eip = σ.eip ∧ σ'.eflags = σ.eflags ∧
      (∀ a, σ.esp.toNat ≤ a → (a < utfOf σ - 8 ∨ utfOf σ + sizeofUTrapframe ≤ a) →
        τ.mem a = σ.mem a → σ'.mem a = σ.mem a) ∧
      (uxstacktop - pgsize ≤ σ.esp.toNat → ∀ a, σ.esp.toNat ≤ a → σ'.mem a = σ.mem a) := by
  have habove := h.above
  cases n with
  | zero => exact h.elim
  | succ n =>
    obtain ⟨i, hd, -, hr, rfl⟩ := h
    obtain ⟨hu, hlt, hdis⟩ := hd.disjoint hne
    obtain ⟨hreg, heip, hfl, hmem⟩ := leave_spec hr rfl hu hlt hd.below hdis
    have hsize : sizeofUTrapframe = 52 := rfl
    refine ⟨hreg, heip, hfl, ?_, ?_⟩
    · intro a ha hout hkept
      exact (hmem a (by omega) (by omega)).trans hkept
    · intro hstack a ha
      have huser : σ.esp.toNat ≤ uxstacktop := hd.user
      exact habove ⟨hstack, by omega⟩ ha

namespace Demo

def upcallEnv : UpcallEnv := ⟨0x800020, 0x804000⟩

def retCode : Code := ⟨fun x y => y = exec .ret x, fun _ => False⟩

/-- A fault of the instruction at 0x800100, with the stack pointer at `sp`. -/
def faulting (sp : UInt32) : Machine where
  reg := fun r => if r = .esp then sp else 7
  eip := 0x800100
  eflags := 0x246
  mem := fun _ => 0

def handlerEnd (sp : UInt32) : Machine := exec .ret (enter upcallEnv (faulting sp) ⟨0, 0, 0⟩)

theorem handled_ret {sp : UInt32} (hd : Deliverable upcallEnv (faulting sp))
    (hesp : (handlerEnd sp).esp.toNat = utfOf (faulting sp) - 4)
    (heip : (handlerEnd sp).eip = upcallEnv.upcall + 8) :
    Handled upcallEnv retCode 1 (faulting sp) (handlerEnd sp) (leave (handlerEnd sp)) := by
  refine ⟨⟨0, 0, 0⟩, hd, .single (.inl rfl), ⟨hesp, heip, ?_, ?_⟩, rfl⟩
  · exact fun _ _ => rfl
  · rfl

end Demo

open Demo

/-- On the normal stack. -/
theorem upcall_restores_normal : (faulting 0xeebfe000).esp.toNat = ustacktop ∧
    (leave (handlerEnd 0xeebfe000)).reg = (faulting 0xeebfe000).reg := by
  refine ⟨by decide, ?_⟩
  have hd : Deliverable upcallEnv (faulting 0xeebfe000) :=
    ⟨by decide, by decide, by decide, by decide⟩
  exact (upcall_restores (handled_ret hd (by decide +kernel) (by decide +kernel)) (by decide)).1

theorem run_keeps_above_nested : ∃ c : Code, c.faults (faulting 0xeebfff80) ∧
    ∀ a, 0xeebfff80 ≤ a → (leave (handlerEnd 0xeebfff80)).mem a = (faulting 0xeebfff80).mem a := by
  let c : Code := ⟨retCode.step, fun x => x = faulting 0xeebfff80⟩
  have hd : Deliverable upcallEnv (faulting 0xeebfff80) :=
    ⟨by decide, by decide, by decide, by decide⟩
  have hnested : Handled upcallEnv c 1 (faulting 0xeebfff80) (handlerEnd 0xeebfff80)
      (leave (handlerEnd 0xeebfff80)) := by
    refine ⟨⟨0, 0, 0⟩, hd, .single (.inl rfl), ⟨?_, ?_, fun _ _ => rfl, rfl⟩, rfl⟩
    · decide +kernel
    · decide +kernel
  refine ⟨c, rfl, run_keeps_above (n := 1) ?_ ?_ (.single (.inr ⟨rfl, _, hnested⟩))⟩
  · rintro x y rfl a -
    rfl
  · rintro x rfl
    decide

end Jos
