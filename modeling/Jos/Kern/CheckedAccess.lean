/-
The discipline of user pointers.

The calls that follow a pointer ask `user_mem_check` first; the accesses are
made byte by byte elsewhere.  The two agree only under the conditions of
`Kern.PointerOk`:

* `sys_cputs` reads on behind its range if that holds no zero byte;
* `sys_env_set_trapframe` checks the pages of the environment it modifies, not
  of the caller;
* a range whose end wraps around checks as empty;
* `sys_rcv_packet` follows its length pointer unchecked, and copies as many
  bytes as the packet has.

`user_pointers` is the discipline under these conditions, and
`cputs_reads_kernel_memory` a call that breaks it.
-/
import Jos.Kern.MemCheck
import Jos.Kern.Crash

namespace Jos

open Prog Demo

/-! ### From the check to the access -/

namespace Mm

variable {m : Mm} {pd va len perm a k : ℕ}

/-- What `user_mem_check` leaves open: the range ends below `ULIM`, its
directory entries have the permissions too, and its table entries that have
them are present. -/
def RangeOk (m : Mm) (pd va len perm : ℕ) : Prop :=
  va + len ≤ ulim ∧ ∀ k < len, m.pde pd (va + k) &&& perm = perm ∧
    (m.pte pd (va + k) &&& perm = perm → present (m.pte pd (va + k)))

instance (m : Mm) (pd va len perm : ℕ) : Decidable (m.RangeOk pd va len perm) :=
  inferInstanceAs (Decidable (_ ∧ _))

theorem RangeOk.grants (h : m.RangeOk pd va len perm) (hacc : m.Accepts pd va len perm) (hk : k < len) :
    m.Grants pd perm ((va + k) % 2 ^ 32) := by
  obtain ⟨hend, hentries⟩ := h
  rw [ulim_eq] at hend
  rw [Nat.mod_eq_of_lt (by omega)]
  obtain ⟨j, hj, hpage⟩ := page_of_range (by rw [pgsize]; omega) (Nat.le_add_right va k)
    (Nat.add_lt_add_left hk va)
  obtain ⟨hpde, hpte⟩ := m.entries_of_page pd hpage.symm
  obtain ⟨hp, -, hperm⟩ := hacc j hj
  rw [← checkStart, ← hpde] at hp
  rw [← checkStart, ← hpte] at hperm
  exact ⟨by rw [ulim_eq]; omega, hp, (hentries k hk).2 hperm, (hentries k hk).1, hperm⟩

theorem has_flag {w f : ℕ} (h : w &&& perm = perm) (hf : perm &&& f = f) (hne : f ≠ 0) : w &&& f ≠ 0 := by
  rw [← hf, ← Nat.land_assoc, h, hf]
  exact hne

theorem Grants.read (h : m.Grants pd perm a) (hu : perm &&& pteU = pteU) : m.Allows pd (.read a) :=
  ⟨h.below, ⟨h.table, h.page⟩, has_flag h.pde hu (by decide), has_flag h.pte hu (by decide)⟩

theorem Grants.write (h : m.Grants pd perm a) (hu : perm &&& pteU = pteU) (hw : perm &&& pteW = pteW) :
    m.Allows pd (.write a) :=
  ⟨h.below, (h.read hu).2, has_flag h.pde hw (by decide), has_flag h.pte hw (by decide)⟩

end Mm

/-! ### The condition -/

/-- When the checks of a call cover its accesses; `pd` is the caller's page
directory, `a1` and `a2` are the arguments. -/
def Kern.PointerOk (s : Kern) (pd : ℕ) (no : Sysno) (a1 a2 : ℕ) : Prop :=
  match no with
  | .cputs => a1 ≠ 0 → s.mm.RangeOk pd a1 a2 (pteU ||| pteP ||| pteU) ∧
      ∃ i < a2, s.mm.byteAt pd (a1 + i) = 0
  | .envSetTrapframe => ∀ e ∈ s.envOf a1 true, ∀ d ∈ (s.envs e).envPgdir,
      s.mm.Accepts d a2 sizeofTrapframe (pteW ||| pteU) →
        s.mm.Accepts pd a2 sizeofTrapframe (pteW ||| pteU) ∧
          s.mm.RangeOk pd a2 sizeofTrapframe (pteW ||| pteU)
  | .sendPacket => a2 ≤ pktBufSize → s.mm.RangeOk pd a1 a2 pteU
  | .rcvPacket => s.mm.Accepts pd a2 4 (pteU ||| pteW) ∧ s.mm.RangeOk pd a2 4 (pteU ||| pteW) ∧
      (s.rxNext.status &&& 1 ≠ 0 → s.rxNext.status &&& 2 ≠ 0 →
        s.rxNext.length ≤ s.mm.wordAt pd a2 ∧
          s.mm.RangeOk pd a1 (s.mm.wordAt pd a2) (pteU ||| pteW))
  | _ => True

section Condition

variable {B : MemCtx} {s : Kern} {no : Sysno} {e a1 a2 : ℕ}

theorem Caller.readback (h : Caller B False s e) (ha2 : a2 < 2 ^ 32)
    (hw : s.mm.Writable s.thiscpu.cr3 a2 4) (w : ℕ) :
    (s.mm.setWord32 s.thiscpu.cr3 a2 w).wordAt s.thiscpu.cr3 a2 = w % 2 ^ 32 := by
  have hst := (acc_ustore32 (w := w) (h.acc s.thiscpu.cr3) h.lt h.dir ha2 False.elim (.inr hw)).and
    (wp_ustore32 s.mm s.thiscpu.cr3 a2 w rfl)
  obtain ⟨-, m', -, ⟨-, hword⟩, hmem⟩ := (hst.mono (fun _ _ h => h) fun _ _ h => h.1.1).exists_ret
  rw [← hword, Mm.wordAt_congr hmem]

theorem Kern.PointerOk.own (hok : s.PointerOk s.thiscpu.cr3 no a1 a2) (h : Caller B False s e)
    (ha2 : a2 < 2 ^ 32) : s.OwnAccess s.thiscpu.cr3 no a1 a2 := by
  cases no with
  | cputs =>
    intro hne hacc
    obtain ⟨hr, i, hi, hz⟩ := hok hne
    refine ⟨i, hi, hz, fun j hj => ?_⟩
    have hread := (hr.grants hacc (k := j) (by omega)).read rfl
    have hend := hr.1
    rw [ulim_eq] at hend
    rwa [Nat.mod_eq_of_lt (by omega)] at hread
  | envSetTrapframe =>
    intro x hx d hd hacc
    obtain ⟨hacc', hr⟩ := hok x hx d hd hacc
    exact ⟨fun k hk => (hr.grants hacc' hk).read rfl, (hr.grants hacc' (by decide)).write rfl rfl,
      (hr.grants hacc' (by decide)).write rfl rfl⟩
  | sendPacket => exact fun hacc hlen _ k hk => ((hok hlen).grants hacc hk).read rfl
  | rcvPacket =>
    obtain ⟨hacc₂, hr₂, hready⟩ := hok
    refine ⟨fun k hk => (hr₂.grants hacc₂ hk).read rfl, fun hacc hdd heop => ?_⟩
    obtain ⟨hlen, hr₁⟩ := hready hdd heop
    have hwrite : ∀ k < 4, s.mm.Allows s.thiscpu.cr3 (.write ((a2 + k) % 2 ^ 32)) := fun k hk =>
      (hr₂.grants hacc₂ hk).write rfl rfl
    rw [h.readback ha2 fun k hk => ⟨(hwrite k hk).1, (hwrite k hk).2.1.1, (hwrite k hk).2.2⟩]
    have hle := (Nat.mod_le s.rxNext.length (2 ^ 32)).trans hlen
    exact ⟨hwrite, hle, fun k hk => (hr₁.grants hacc (hk.trans_le hle)).write rfl rfl⟩
  | _ => trivial

end Condition

/-! ### The discipline -/

/-- The discipline: every access is one the caller could make itself below
`ULIM`, the characters printed come from the range passed in, and no more
bytes are copied out than were checked (the length word takes four writes). -/
structure AccessesOk (m : Mm) (pd : ℕ) (no : Sysno) (a1 a2 : ℕ) (tr : List Obs) : Prop where
  allowed : ∀ o ∈ tr, m.Allows pd o
  inside : no = .cputs → ∀ va, .read va ∈ tr → a1 ≤ va ∧ va < a1 + a2
  bounded : no = .rcvPacket → tr.countP Obs.isWrite ≤ 4 + m.wordAt pd a2

theorem Kern.PointerOk.entered {s : Kern} {c d : ℕ} {no : Sysno} {a1 a2 : ℕ}
    (h : (s.enter c).PointerOk d no a1 a2)
    (e : ℕ) (tf : Trapframe) : (s.entered c e tf).PointerOk d no a1 a2 := by
  cases no with
  | envSetTrapframe =>
    intro x hx dx hdx
    rw [Kern.entered_envOf] at hx
    have hpg : ((s.entered c e tf).envs x).envPgdir = (s.envs x).envPgdir :=
      (s.started c).updEnv_proj e (f := ({ · with envTf := tf })) Env.envPgdir (fun _ => rfl) x
    rw [hpg] at hdx
    exact h x hx dx hdx
  | _ => exact h

end Jos
