/-
Where runs start, and which steps the model follows.

* `Booted` — the state after `mem_init`, `env_init` and `boot_aps`: a page
  free list, a kernel page directory with nothing below `UTOP`, a full
  environment free list, and processors without a current environment.  Every
  environment is created by a step of the run.
* `Kern.Contained` — the step stays inside what the model describes: the
  search of `sched_yield` does not run an environment behind the end of the
  table, what a call writes through a user pointer lies below `ULIM`, and
  memory stays in order (`Kern.MemCall`), so that no user gets at the memory of
  `envs` and `pages`, which the model keeps apart.
* `Kern.Ring3` — it is taken by user code in ring 3.
* `Demo.machine` — a small machine to run examples on (`machine_booted`).
-/
import Jos.Lib.Linked
import Jos.Kern.Control

namespace Jos

/-! ### Start-up -/

/-- Memory after `mem_init`; `free` is the page free list. -/
structure Mm.Booted (m : Mm) (free : List ℕ) : Prop where
  npages_le : m.npages ≤ 2 ^ 20
  linked : Linked (fun p => (m.pages p).ppLink) m.pageFreeList free
  free_lt : ∀ p ∈ free, p < m.npages
  free_ref : ∀ p ∈ free, (m.pages p).ppRef = 0
  /-- Nothing is mapped below `UTOP`, and `UVPT` maps the directory itself. -/
  lower : ∀ i < userPdes, m.mem m.kernPgdir i = 0
  self_map : m.mem m.kernPgdir (pdx uvpt) = mkPte m.kernPgdir pteU
  /-- The directory and the tables of the kernel are reserved. -/
  kern_lt : m.kernPgdir < m.npages
  kern_free : m.kernPgdir ∉ free
  upper_lt : ∀ i, userPdes ≤ i → i < 1024 → frame (m.mem m.kernPgdir i) < m.npages
  upper_free : ∀ i, userPdes ≤ i → i < 1024 → frame (m.mem m.kernPgdir i) ∉ free
  /-- From `UTOP` on users cannot write, and up to `ULIM` nobody can. -/
  no_user_write : ∀ i, userPdes ≤ i → i < 1024 → i ≠ pdx uvpt → ∀ j < 1024,
    ¬ (m.mem (frame (m.mem m.kernPgdir i)) j &&& pteU ≠ 0 ∧
      m.mem (frame (m.mem m.kernPgdir i)) j &&& pteW ≠ 0)
  no_write : ∀ i, userPdes ≤ i → i < pdx ulim → i ≠ pdx uvpt → ∀ j < 1024,
    m.mem (frame (m.mem m.kernPgdir i)) j &&& pteW = 0

/-- The kernel after start-up, before the first environment is created. -/
structure Booted (s : Kern) (free : List ℕ) : Prop where
  mm : s.mm.Booted free
  trace : s.mm.trace = []
  env_free : ∀ e < nenv, (s.envs e).envStatus = .free
  env_list : Linked (fun e => (s.envs e).envLink) s.envFreeList (List.range nenv)
  cpu_env : ∀ c, (s.cpus c).cpuEnv = none
  cpu_cr3 : ∀ c, (s.cpus c).cr3 = s.mm.kernPgdir

/-! ### Steps -/

def Trapframe.sysno (tf : Trapframe) : Option Sysno :=
  if tf.tfTrapno = tSyscall then Sysno.decode tf.tfRegs.regEax.toNat else none

def Event.frame : Event → Option Trapframe
  | .trap tf _ => some tf
  | _ => none

def Event.creates : Event → Bool
  | .create _ _ => true
  | _ => false

def Trapframe.arg1 (tf : Trapframe) : ℕ := tf.tfRegs.regEdx.toNat
def Trapframe.arg2 (tf : Trapframe) : ℕ := tf.tfRegs.regEcx.toNat
def Trapframe.arg3 (tf : Trapframe) : ℕ := tf.tfRegs.regEbx.toNat
def Trapframe.arg4 (tf : Trapframe) : ℕ := tf.tfRegs.regEdi.toNat
def Trapframe.arg5 (tf : Trapframe) : ℕ := tf.tfRegs.regEsi.toNat

theorem Trapframe.sysno_eq {tf : Trapframe} {no : Sysno} (ht : tf.tfTrapno = tSyscall)
    (hd : Sysno.decode tf.tfRegs.regEax.toNat = some no) : tf.sysno = some no := by
  rw [Trapframe.sysno, if_pos ht, hd]

/-- The length of the packet `e1000_receive` would hand out. -/
def Kern.rxLength (s : Kern) : ℕ := (s.nic.rxq ((s.nic.rdt + 1) % nrxdesc)).length

/-- What the calls that write through a user pointer write lies below `ULIM`. -/
def Kern.WritesBelowUlim (s : Kern) (no : Sysno) (a1 a2 : ℕ) : Prop :=
  match no with
  | .envSetTrapframe => a2 + sizeofTrapframe ≤ ulim
  | .rcvPacket => a2 + 4 ≤ ulim ∧ a1 + s.rxLength ≤ ulim
  | _ => True

instance (s : Kern) (no : Sysno) (a1 a2 : ℕ) : Decidable (s.WritesBelowUlim no a1 a2) := by
  unfold Kern.WritesBelowUlim
  split <;> infer_instance

/-- The scheduler's search from environment `e` does not find an environment
in the memory behind the table. -/
def Kern.SearchInTable (s : Kern) (e : ℕ) : Prop :=
  envx (s.envs e).envId = nenv - 1 → s.mm.mem s.envsEnd 21 ≠ EnvStatus.runnable.code
  deriving Decidable

/-- The page that `va` of environment `e` maps. -/
def Kern.pageAt (s : Kern) (e va : ℕ) : Option ℕ :=
  match (s.envs e).envPgdir with
  | none => none
  | some d => if s.mm.kReads d va then some (frame (s.mm.pte d va)) else none

/-- One more reference to page `pp`, from `va` of environment `e`, can be
counted. -/
def Kern.RefOk (s : Kern) (pp e va : ℕ) : Prop :=
  (s.mm.pages pp).ppRef ≠ 2 ^ 16 - 1 ∨ s.pageAt e va = some pp
  deriving Decidable

/-- The directory of environment `e` has a table for `va`. -/
def Kern.HasTable (s : Kern) (e va : ℕ) : Prop :=
  ∀ d ∈ (s.envs e).envPgdir, present (s.mm.pde d va)
  deriving Decidable

/-- When a call keeps memory in order; `perm` are the flags entries may have.
The permission word of `sys_page_map`, which is not checked, leaves the frame
number alone, and no count overflows.  Calls in which `page_lookup` would read
through a null pointer are left out: what they do is up to the compiler. -/
def Kern.MemCall (perm : ℕ → Prop) (s : Kern) (no : Sysno) (a1 a2 a3 a4 a5 : ℕ) : Prop :=
  match no with
  | .pageMap => a2 < utop → a2 % pgsize = 0 → a4 < utop → a4 % pgsize = 0 →
      ∀ src ∈ s.envOf a1 true, ∀ dst ∈ s.envOf a3 true, s.HasTable src a2 ∧ ∀ pp ∈ s.pageAt src a2,
        frame (mkPte pp a5) = pp ∧ perm ((a5 ||| pteP) % 4096) ∧ s.RefOk pp dst a4
  | .pageUnmap => a2 < utop → a2 % pgsize = 0 → ∀ x ∈ s.envOf a1 true, s.HasTable x a2
  | .ipcTrySend => ∀ cur ∈ s.curenv, s.HasTable cur a3 ∧ (a3 < utop → ∀ dst ∈ s.envOf a1 false,
      (s.envs dst).envIpcRecving → (s.envs dst).envIpcDstva < utop →
        ∀ pp ∈ s.pageAt cur a3, s.RefOk pp dst (s.envs dst).envIpcDstva)
  | _ => True

instance (perm : ℕ → Prop) [DecidablePred perm] (s : Kern) (no : Sysno) (a1 a2 a3 a4 a5 : ℕ) :
    Decidable (s.MemCall perm no a1 a2 a3 a4 a5) := by
  unfold Kern.MemCall
  split <;> infer_instance

def anyFlags (_ : ℕ) : Prop := True

instance : DecidablePred anyFlags := fun _ => inferInstanceAs (Decidable True)

/-- The segments of the image lie below `UTOP`. -/
def Image.Fits (binary : Image) : Prop :=
  ∀ g ∈ binary.segs, g.va + g.memsz ≤ utop ∧ g.filesz ≤ g.memsz
  deriving Decidable

def Event.image : Event → Option Image
  | .create binary _ => some binary
  | _ => none

/-- The step stays inside what the model describes. -/
structure Kern.Contained (s : Kern) (l : ℕ × Event) : Prop where
  search : ∀ e ∈ (s.cpus l.1).cpuEnv, s.SearchInTable e
  image : ∀ binary ∈ l.2.image, binary.Fits
  writes : ∀ tf ∈ l.2.frame, ∀ no ∈ tf.sysno, s.WritesBelowUlim no tf.arg1 tf.arg2
  memCall : ∀ tf ∈ l.2.frame, ∀ no ∈ tf.sysno,
    (s.enter l.1).MemCall anyFlags no tf.arg1 tf.arg2 tf.arg3 tf.arg4 tf.arg5

instance (s : Kern) (l : ℕ × Event) : Decidable (s.Contained l) :=
  decidable_of_iff ((∀ e ∈ (s.cpus l.1).cpuEnv, s.SearchInTable e) ∧
    (∀ binary ∈ l.2.image, binary.Fits) ∧
    (∀ tf ∈ l.2.frame, ∀ no ∈ tf.sysno, s.WritesBelowUlim no tf.arg1 tf.arg2) ∧
    ∀ tf ∈ l.2.frame, ∀ no ∈ tf.sysno,
      (s.enter l.1).MemCall anyFlags no tf.arg1 tf.arg2 tf.arg3 tf.arg4 tf.arg5)
    ⟨fun ⟨h₁, h₂, h₃, h₄⟩ => ⟨h₁, h₂, h₃, h₄⟩, fun ⟨h₁, h₂, h₃, h₄⟩ => ⟨h₁, h₂, h₃, h₄⟩⟩

/-- User code on the processor that takes the step runs in ring 3. -/
def Kern.Ring3 (s : Kern) (l : ℕ × Event) : Prop :=
  (s.cpus l.1).cpuEnv ≠ none → (s.cpus l.1).cs &&& 3 = 3
  deriving Decidable

/-! ### A small machine -/

namespace Demo

/-- 1024 pages; the kernel's directory is page 300, its tables are pages 400 to
468, and pages 512 to `511 + n` are free. -/
def mm (n : ℕ) : Mm where
  npages := 1024
  mem := fun p i =>
    if p = 300 then
      if i < 955 then 0
      else if i = 957 then mkPte 300 pteU
      else mkPte (400 + (i - 955) % 69) (pteW ||| pteU)
    else if 405 ≤ p ∧ p < 469 then mkPte ((p - 405) * 1024 + i) pteW
    else 0
  pages := fun p =>
    if 512 ≤ p ∧ p < 512 + n then { ppLink := if p + 1 < 512 + n then some (p + 1) else none }
    else { ppRef := 1 }
  pageFreeList := if 0 < n then some 512 else none
  kernPgdir := 300

/-- All environments are free, and the first free page lies behind the table. -/
def machine (n : ℕ) : Kern where
  mm := mm n
  envs := fun e => { envLink := if e + 1 < nenv then some (e + 1) else none }
  envFreeList := some 0
  envsEnd := 512
  cpus := fun _ => { cpuStatus := .started, cr3 := 300 }

/-- A program without segments: it has a directory and a stack. -/
def image : Image := { magic := true, entry := 0x800020, segs := [] }

/-- A system call, made with the flags an environment starts with. -/
def call (no a1 a2 a3 a4 a5 : UInt32) : Event :=
  .trap
    { tfTrapno := tSyscall, tfCs := 0x1b, tfEflags := flIf
      tfRegs := { regEax := no, regEdx := a1, regEcx := a2, regEbx := a3, regEdi := a4,
                  regEsi := a5 } } 0

theorem linked_succ {next : ℕ → Option ℕ} {b : ℕ} :
    ∀ n a, a + n = b →
      (∀ p, a ≤ p → p < b → next p = if p + 1 < b then some (p + 1) else none) →
      Linked next (if 0 < n then some a else none) (List.range' a n) := by
  intro n
  induction n with
  | zero =>
    intro a _ _
    exact .nil
  | succ n ih =>
    intro a h hnext
    rw [if_pos (Nat.succ_pos n), List.range'_succ]
    refine .cons ?_
    have htail := ih (a + 1) (by omega) fun p hp => hnext p (by omega)
    rw [hnext a (Nat.le_refl a) (by omega)]
    by_cases hn : 0 < n
    · rw [if_pos hn] at htail
      rwa [if_pos (by omega)]
    · rw [if_neg hn] at htail
      rwa [if_neg (by omega)]

theorem mem_kern (n i : ℕ) (hi : 955 ≤ i) (hi' : i < 1024) (h : i ≠ 957) :
    (mm n).mem 300 i = mkPte (400 + (i - 955)) (pteW ||| pteU) := by
  have hmod : (i - 955) % 69 = i - 955 := Nat.mod_eq_of_lt (by omega)
  simp only [mm, if_true, if_neg (show ¬ i < 955 by omega), if_neg h, hmod]

theorem frame_kern (n i : ℕ) (hi : 955 ≤ i) (hi' : i < 1024) :
    frame ((mm n).mem 300 i) = if i = 957 then 300 else 400 + (i - 955) := by
  by_cases h : i = 957
  · rw [if_pos h, h]
    exact frame_mkPte_of_lt (by decide) (by decide)
  · rw [if_neg h, mem_kern n i hi hi' h]
    exact frame_mkPte_of_lt (by omega) (by decide)

theorem mem_table (n i j : ℕ) (hi : 955 ≤ i) (hi' : i < 1024) (h : i ≠ 957) :
    (mm n).mem (frame ((mm n).mem 300 i)) j =
      if 960 ≤ i then mkPte ((i - 960) * 1024 + j) pteW else 0 := by
  rw [frame_kern n i hi hi', if_neg h]
  simp only [mm, if_neg (show ¬ 400 + (i - 955) = 300 by omega)]
  by_cases hk : 960 ≤ i
  · rw [if_pos hk, if_pos (by omega), show 400 + (i - 955) - 405 = i - 960 by omega]
  · rw [if_neg hk, if_neg (by omega)]

theorem mm_booted (n : ℕ) (hn : n ≤ 512) : (mm n).Booted (List.range' 512 n) where
  npages_le := by
    show 1024 ≤ 2 ^ 20
    decide
  linked := by
    refine linked_succ n 512 rfl fun p hp hp' => ?_
    simp only [mm]
    rw [if_pos ⟨hp, hp'⟩]
  free_lt p hp := by
    have := (List.mem_range'_1.mp hp)
    show p < 1024
    omega
  free_ref p hp := by
    have := (List.mem_range'_1.mp hp)
    simp only [mm]
    rw [if_pos (by omega)]
  lower i hi := by
    rw [userPdes_eq] at hi
    show (mm n).mem 300 i = 0
    simp only [mm, if_true, if_pos hi]
  self_map := rfl
  kern_lt := by
    show 300 < 1024
    decide
  kern_free hp := by
    have := (List.mem_range'_1.mp hp)
    have : (mm n).kernPgdir = 300 := rfl
    omega
  upper_lt i hi hi' := by
    rw [userPdes_eq] at hi
    show frame ((mm n).mem 300 i) < 1024
    rw [frame_kern n i hi hi']
    split <;> omega
  upper_free i hi hi' hp := by
    rw [userPdes_eq] at hi
    have hp : frame ((mm n).mem 300 i) ∈ List.range' 512 n := hp
    rw [frame_kern n i hi hi', List.mem_range'_1] at hp
    split at hp <;> omega
  no_user_write i hi hi' h j hj := by
    rw [userPdes_eq] at hi
    show ¬ ((mm n).mem (frame ((mm n).mem 300 i)) j &&& pteU ≠ 0 ∧ _)
    rw [mem_table n i j hi hi' h]
    rintro ⟨hu, -⟩
    refine hu ?_
    by_cases hk : 960 ≤ i
    · rw [if_pos hk, and_eq_flags_and _ (by decide), flags_mkPte]
      rfl
    · rw [if_neg hk]
      rfl
  no_write i hi hi' h j hj := by
    rw [userPdes_eq] at hi
    have hi' : i < 958 := hi'
    show (mm n).mem (frame ((mm n).mem 300 i)) j &&& pteW = 0
    rw [mem_table n i j hi (by omega) h, if_neg (by omega)]
    rfl

theorem machine_booted (n : ℕ) (hn : n ≤ 512) : Booted (machine n) (List.range' 512 n) where
  mm := mm_booted n hn
  trace := rfl
  env_free _ _ := rfl
  env_list := by
    rw [List.range_eq_range']
    exact linked_succ nenv 0 (Nat.zero_add _) fun _ _ _ => rfl
  cpu_env _ := rfl
  cpu_cr3 _ := rfl

end Demo

end Jos
