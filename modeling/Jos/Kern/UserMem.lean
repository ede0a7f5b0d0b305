/-
What the kernel reads through pointers that users pass in.

Loads leave memory alone, so a structure read word by word is the structure
that lay there before the first load.
-/
import Jos.Kern.Boot

namespace Jos

open Prog

namespace Mm

def wordAt (m : Mm) (pd va : ℕ) : ℕ :=
  m.byteAt pd va + 2 ^ 8 * m.byteAt pd ((va + 1) % 2 ^ 32) +
    2 ^ 16 * m.byteAt pd ((va + 2) % 2 ^ 32) + 2 ^ 24 * m.byteAt pd ((va + 3) % 2 ^ 32)

def frameAt (m : Mm) (pd tf : ℕ) : Trapframe :=
  let w (k : ℕ) := m.wordAt pd ((tf + 4 * k) % 2 ^ 32)
  { tfRegs :=
      { regEdi := .ofNat (w 0), regEsi := .ofNat (w 1), regEbp := .ofNat (w 2),
        regOesp := .ofNat (w 3), regEbx := .ofNat (w 4), regEdx := .ofNat (w 5),
        regEcx := .ofNat (w 6), regEax := .ofNat (w 7) }
    tfEs := .ofNat (w 8), tfDs := .ofNat (w 9), tfTrapno := .ofNat (w 10), tfErr := .ofNat (w 11),
    tfEip := .ofNat (w 12), tfCs := .ofNat (w 13), tfEflags := .ofNat (w 14), tfEsp := .ofNat (w 15),
    tfSs := .ofNat (w 16) }

theorem byteAt_congr {m m' : Mm} (h : m'.mem = m.mem) (pd va : ℕ) :
    m'.byteAt pd va = m.byteAt pd va := by
  simp only [byteAt, pte, pde, h]

theorem wordAt_congr {m m' : Mm} (h : m'.mem = m.mem) (pd va : ℕ) :
    m'.wordAt pd va = m.wordAt pd va := by
  simp only [wordAt, byteAt_congr h]

theorem putByte_same (w b : ℕ) {k : ℕ} (hk : k < 4) : putByte w k b / 256 ^ k % 256 = b % 256 := by
  unfold putByte
  obtain rfl | rfl | rfl | rfl : k = 0 ∨ k = 1 ∨ k = 2 ∨ k = 3 := by omega
  all_goals omega

theorem putByte_other (w b : ℕ) {j k : ℕ} (hj : j < 4) (hk : k < 4) (hne : j ≠ k) :
    putByte w k b / 256 ^ j % 256 = w / 256 ^ j % 256 := by
  unfold putByte
  obtain rfl | rfl | rfl | rfl : k = 0 ∨ k = 1 ∨ k = 2 ∨ k = 3 := by omega
  all_goals
    obtain rfl | rfl | rfl | rfl : j = 0 ∨ j = 1 ∨ j = 2 ∨ j = 3 := by omega
    all_goals omega

def setWord32 (m : Mm) (pd va w : ℕ) : Mm :=
  (((m.setByte pd va w).setByte pd ((va + 1) % 2 ^ 32) (w / 2 ^ 8)).setByte pd
    ((va + 2) % 2 ^ 32) (w / 2 ^ 16)).setByte pd ((va + 3) % 2 ^ 32) (w / 2 ^ 24)

theorem setByte_congr {m m' : Mm} (h : m'.mem = m.mem) (pd va b : ℕ) :
    (m'.setByte pd va b).mem = (m.setByte pd va b).mem := by
  simp only [setByte, setWord, pte, pde, h]

end Mm

/-- The postcondition of a program that only reads memory. -/
def Reads {α : Type} (m : Mm) (v : α) (a : α) (m' : Mm) : Prop := a = v ∧ m'.mem = m.mem

section Loads

variable {α : Type} {m₀ m : Mm} {R : Stop → Mm → Prop}

theorem wp_uload (m₀ : Mm) (pd va : ℕ) (h : m.mem = m₀.mem) (hR : ∀ m', R kernelFault m') :
    wp (uload pd va) (Reads m₀ (m₀.byteAt pd va)) R m := by
  rw [uload, wp_bind, wp_modify, vload, wp_bind, wp_get, wp_ite]
  refine ⟨fun _ => ⟨Mm.byteAt_congr h pd va, h⟩, fun _ => hR _⟩

theorem wp_reads_bind {β : Type} {p : MmM α} {f : α → MmM β} {v : α} {Q : β → Mm → Prop}
    (hp : wp p (Reads m₀ v) R m) (hf : ∀ m', m'.mem = m₀.mem → wp (f v) Q R m') :
    wp (p >>= f) Q R m := by
  refine hp.bind fun a m' ha => ?_
  rw [ha.1]
  exact hf m' ha.2

theorem wp_uload32 (m₀ : Mm) (pd va : ℕ) (h : m.mem = m₀.mem) (hR : ∀ m', R kernelFault m') :
    wp (uload32 pd va) (Reads m₀ (m₀.wordAt pd va)) R m := by
  refine wp_reads_bind (wp_uload _ _ _ h hR) fun m₁ h₁ => ?_
  refine wp_reads_bind (wp_uload _ _ _ h₁ hR) fun m₂ h₂ => ?_
  refine wp_reads_bind (wp_uload _ _ _ h₂ hR) fun m₃ h₃ => ?_
  exact wp_reads_bind (wp_uload _ _ _ h₃ hR) fun m₄ h₄ => ⟨rfl, h₄⟩

theorem wp_loadTrapframe (m₀ : Mm) (pd tf : ℕ) (h : m.mem = m₀.mem) (hR : ∀ m', R kernelFault m') :
    wp (loadTrapframe pd tf) (Reads m₀ (m₀.frameAt pd tf)) R m := by
  have w : ∀ {m' : Mm} (k : ℕ), m'.mem = m₀.mem →
      wp (uload32 pd ((tf + 4 * k) % 2 ^ 32)) (Reads m₀ (m₀.wordAt pd ((tf + 4 * k) % 2 ^ 32))) R m' :=
    fun k h => wp_uload32 _ _ _ h hR
  unfold loadTrapframe
  refine wp_reads_bind (w 0 h) fun _ h => wp_reads_bind (w 1 h) fun _ h =>
    wp_reads_bind (w 2 h) fun _ h => wp_reads_bind (w 3 h) fun _ h =>
    wp_reads_bind (w 4 h) fun _ h => wp_reads_bind (w 5 h) fun _ h =>
    wp_reads_bind (w 6 h) fun _ h => wp_reads_bind (w 7 h) fun _ h =>
    wp_reads_bind (w 8 h) fun _ h => wp_reads_bind (w 9 h) fun _ h =>
    wp_reads_bind (w 10 h) fun _ h => wp_reads_bind (w 11 h) fun _ h =>
    wp_reads_bind (w 12 h) fun _ h => wp_reads_bind (w 13 h) fun _ h =>
    wp_reads_bind (w 14 h) fun _ h => wp_reads_bind (w 15 h) fun _ h =>
    wp_reads_bind (w 16 h) fun _ h => ?_
  exact ⟨rfl, h⟩

theorem wp_ustore (m₀ : Mm) (pd va b : ℕ) (h : m.mem = m₀.mem) :
    wp (ustore pd va b) (fun _ m' => m'.mem = (m₀.setByte pd va b).mem) (fun _ _ => True) m := by
  rw [ustore, wp_bind, wp_modify, vstore, wp_bind, wp_get, wp_ite]
  exact ⟨fun _ => Mm.setByte_congr h pd va b, fun _ => trivial⟩

theorem wp_ustore32 (m₀ : Mm) (pd va w : ℕ) (h : m.mem = m₀.mem) :
    wp (ustore32 pd va w) (fun _ m' => m'.mem = (m₀.setWord32 pd va w).mem) (fun _ _ => True) m := by
  rw [ustore32]
  refine (wp_ustore _ _ _ _ h).bind fun _ m₁ h₁ => ?_
  refine (wp_ustore _ _ _ _ h₁).bind fun _ m₂ h₂ => ?_
  refine (wp_ustore _ _ _ _ h₂).bind fun _ m₃ h₃ => ?_
  exact wp_ustore _ _ _ _ h₃

end Loads

/-! ### Checks -/

/-- Only the address `user_mem_check` reports can differ. -/
def Mm.SameButAddr (m m' : Mm) : Prop := ∃ a, m' = { m with userMemCheckAddr := a }

instance : IsPreorder Mm Mm.SameButAddr where
  refl m := ⟨m.userMemCheckAddr, rfl⟩
  trans a b c h h' := by
    obtain ⟨x, rfl⟩ := h
    obtain ⟨y, rfl⟩ := h'
    exact ⟨y, rfl⟩

theorem addr_kaddr (pa : ℕ) : Keeps Mm.SameButAddr Stop.bad (kaddr pa) :=
  .get_bind fun _ =>
    .ite (.halt rfl) (.pure _)

theorem addr_pgdirWalk (pgdir va : ℕ) :
    Keeps Mm.SameButAddr Stop.bad (pgdirWalk pgdir va false) := by
  refine .get_bind fun m =>
    .bind (addr_kaddr _) fun pt => ?_
  refine .ite (.pure _) ?_
  exact .pure _

theorem addr_userMemScan (pgdir va vaR perm : ℕ) :
    ∀ n i, Keeps Mm.SameButAddr Stop.bad (userMemScan pgdir va vaR perm i n) := by
  intro n
  induction n with
  | zero => exact fun i => .pure _
  | succ n ih =>
    intro i
    refine .bind (addr_pgdirWalk pgdir i) fun pte =>
      .get_bind fun m =>
      .ite ?_ (ih _)
    exact .bind (.modify fun m => ⟨_, rfl⟩) fun _ =>
      .pure _

theorem addr_userMemCheck (pgdir va len perm : ℕ) :
    Keeps Mm.SameButAddr Stop.bad (userMemCheck pgdir va len perm) :=
  addr_userMemScan _ _ _ _ _ _

/-- Neither control state nor memory has changed. -/
structure Kern.SameMem (s s' : Kern) : Prop extends s.SameCtl s' where
  mem : s'.mm.mem = s.mm.mem

theorem sameMem_userMemCheck (pgdir va len perm : ℕ) :
    Keeps Kern.SameMem Stop.bad (liftMm (userMemCheck pgdir va len perm)) :=
  (addr_userMemCheck pgdir va len perm).zoom fun _ _ ⟨_, hm⟩ =>
    ⟨⟨rfl, rfl, rfl, rfl, rfl, hm ▸ Mm.Ext.of_eq rfl rfl rfl⟩, by rw [hm]⟩

theorem wp_liftLoadTrapframe {s : Kern} {m₀ : Mm} {Q : Trapframe → Kern → Prop}
    {R : Stop → Kern → Prop} (pd tf : ℕ) (h : s.mm.mem = m₀.mem)
    (hQ : ∀ s', s.SameCtl s' → Q (m₀.frameAt pd tf) s') (hR : ∀ st s', st.bad → R st s') :
    wp (liftMm (loadTrapframe pd tf)) Q R s := by
  have hk := (keeps_loadTrapframe pd tf).ctl s
  have hv : wp (liftMm (loadTrapframe pd tf)) (fun a _ => a = m₀.frameAt pd tf)
      (fun _ _ => True) s := by
    rw [liftMm, wp_zoom]
    exact (wp_loadTrapframe m₀ pd tf h fun _ => trivial).imp fun _ _ h => h.1
  refine (hk.and hv).mono (fun a s' h => ?_) fun st s' h => hR st s' h.1.2
  rw [h.2]
  exact hQ s' h.1

end Jos
