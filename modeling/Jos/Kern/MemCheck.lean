/-
What `user_mem_check` decides.

The MMU grants an access if both entries on the way are present and allow it
(`Mm.Grants`).  The loop of `user_mem_check` tests less (`Mm.PageOk`: the
permissions of the table entry only), and its end address is computed modulo
`2 ^ 32`.

* `user_mem_check_decides` — exactly where the two tests agree on the pages it
  looks at, and the range does not reach the last page of the address space, it
  decides whether every byte may be accessed, and finds the first that may not;
* `user_mem_check_accepts_kernel` — a range of kernel memory that is accepted.
-/
import Jos.Kern.UserPointers
import Jos.Kern.Lookup

namespace Jos

open Prog

namespace Mm

/-- A user may access the byte at `a` with the permissions `perm`. -/
structure Grants (m : Mm) (pd perm a : ℕ) : Prop where
  below : a < ulim
  table : present (m.pde pd a)
  page : present (m.pte pd a)
  pde : m.pde pd a &&& perm = perm
  pte : m.pte pd a &&& perm = perm

/-- The first page of the range `user_mem_check` is asked about. -/
def checkStart (va : ℕ) : ℕ := rounddown va pgsize

/-- The number of pages its loop looks at. -/
def checkPages (va len : ℕ) : ℕ :=
  (roundup ((va + len) % 2 ^ 32) pgsize - checkStart va) / pgsize

/-- The loop gets to its page number `k`. -/
def Reaches (m : Mm) (pd va perm k : ℕ) : Prop :=
  ∀ j < k, m.PageOk pd perm (checkStart va + j * pgsize)

/-- `KADDR` accepts the address in the directory, and the page passes the test. -/
def Passes (m : Mm) (pd perm i : ℕ) : Prop := frame (m.pde pd i) < m.npages ∧ m.PageOk pd perm i

/-- When the answer of `user_mem_check` is the MMU's. -/
structure CheckAgrees (m : Mm) (pd va len perm : ℕ) : Prop where
  /-- The rounded end of the range does not wrap, or the first page is looked
  at and fails. -/
  range : va + len ≤ 2 ^ 32 - pgsize ∨
    0 < checkPages va len ∧ ¬ m.PageOk pd perm (checkStart va)
  /-- `KADDR` accepts the addresses in the directory. -/
  walk : ∀ k < checkPages va len, m.Reaches pd va perm k →
    frame (m.pde pd (checkStart va + k * pgsize)) < m.npages
  /-- Pages that pass the test may be accessed. -/
  pages : ∀ k < checkPages va len, m.Reaches pd va perm k →
    m.PageOk pd perm (checkStart va + k * pgsize) →
      m.Grants pd perm (checkStart va + k * pgsize)

end Mm

section Scan

variable {m : Mm} {pd va vaR perm len : ℕ}

theorem userMemScan_succ {i n : ℕ} (hlt : frame (m.pde pd i) < m.npages) :
    userMemScan pd va vaR perm i (n + 1) m =
      if m.PageOk pd perm i then userMemScan pd va vaR perm (i + pgsize) n m
      else .ret (-eFault) { m with userMemCheckAddr := if i = vaR then va else i } := by
  rw [userMemScan, ret_bind (pgdirWalk_false hlt), get_bind]
  by_cases hp : present (m.mem pd (pdx i))
  · rw [entry_eq_some.mpr ⟨hp, rfl⟩]
    by_cases hok : m.PageOk pd perm i
    · have hf : ¬ (i ≥ ulim ∨ m.mem (frame (m.mem pd (pdx i))) (ptx i) &&& perm ≠ perm) := by
        rintro (hge | hne)
        · exact absurd hok.2.1 (Nat.not_lt.mpr hge)
        · exact hne hok.2.2
      simp only [Option.map_some, decide_eq_true_eq]
      rw [if_neg hf, if_pos hok]
    · have hf : i ≥ ulim ∨ m.mem (frame (m.mem pd (pdx i))) (ptx i) &&& perm ≠ perm := by
        by_contra hno
        rw [not_or, not_le, not_not] at hno
        exact hok ⟨hp, hno.1, hno.2⟩
      simp only [Option.map_some, decide_eq_true_eq]
      rw [if_pos hf, if_neg hok]
      rfl
  · have hno : ¬ m.PageOk pd perm i := fun hok => hp hok.1
    rw [entry_eq_none.mpr hp, if_neg hno]
    rfl

theorem userMemScan_cases (va vaR n : ℕ) : ∀ i,
    (userMemScan pd va vaR perm i n m = .ret 0 m ∧ ∀ k < n, m.Passes pd perm (i + k * pgsize)) ∨
    ∃ k < n, (∀ j < k, m.Passes pd perm (i + j * pgsize)) ∧ (
      (frame (m.pde pd (i + k * pgsize)) < m.npages ∧ ¬ m.PageOk pd perm (i + k * pgsize) ∧
        userMemScan pd va vaR perm i n m = .ret (-eFault)
          { m with userMemCheckAddr := if i + k * pgsize = vaR then va else i + k * pgsize }) ∨
      (¬ frame (m.pde pd (i + k * pgsize)) < m.npages ∧
        ∃ st, userMemScan pd va vaR perm i n m = .stop st m)) := by
  induction n with
  | zero =>
    intro i
    exact .inl ⟨rfl, fun k hk => absurd hk (Nat.not_lt_zero k)⟩
  | succ n ih =>
    intro i
    have hshift : ∀ k, i + pgsize + k * pgsize = i + (k + 1) * pgsize := by
      intro k
      rw [Nat.succ_mul, Nat.add_comm (k * pgsize), ← Nat.add_assoc]
    have h0 : i + 0 * pgsize = i := by rw [Nat.zero_mul, Nat.add_zero]
    by_cases hlt : frame (m.pde pd i) < m.npages
    · rw [userMemScan_succ hlt]
      by_cases hok : m.PageOk pd perm i
      · rw [if_pos hok]
        -- the pages before page `k + 1` are `i` and those before page `k` of the rest
        have hfront : ∀ k, (∀ j < k, m.Passes pd perm (i + pgsize + j * pgsize)) →
            ∀ j < k + 1, m.Passes pd perm (i + j * pgsize) := by
          intro k hk j hj
          cases j with
          | zero =>
            rw [h0]
            exact ⟨hlt, hok⟩
          | succ j =>
            rw [← hshift]
            exact hk j (Nat.lt_of_succ_lt_succ hj)
        rcases ih (i + pgsize) with ⟨hret, hall⟩ | ⟨k, hk, hbefore, hend⟩
        · exact .inl ⟨hret, fun k hk => hfront n hall k hk⟩
        · rw [hshift] at hend
          exact .inr ⟨k + 1, Nat.succ_lt_succ hk, hfront k hbefore, hend⟩
      · rw [if_neg hok]
        refine .inr ⟨0, Nat.succ_pos n, fun j hj => absurd hj (Nat.not_lt_zero j), .inl ?_⟩
        rw [h0]
        exact ⟨hlt, hok, rfl⟩
    · obtain ⟨st, hst⟩ := pgdirWalk_panics false hlt
      refine .inr ⟨0, Nat.succ_pos n, fun j hj => absurd hj (Nat.not_lt_zero j), .inr ?_⟩
      rw [h0]
      exact ⟨hlt, st, by rw [userMemScan, stop_bind hst]⟩

end Scan

/-! ### The decision -/

namespace Mm

variable {m : Mm} {pd va len perm a b k : ℕ}

theorem Grants.pageOk (h : m.Grants pd perm a) : m.PageOk pd perm a := ⟨h.table, h.below, h.pte⟩

theorem entries_of_page (m : Mm) (pd : ℕ) (hpage : a / pgsize = b / pgsize) :
    m.pde pd b = m.pde pd a ∧ m.pte pd b = m.pte pd a := by
  rw [pgsize] at hpage
  have hd : pdx b = pdx a := by
    rw [pdx_eq, pdx_eq]
    omega
  have ht : ptx b = ptx a := by
    rw [ptx_eq, ptx_eq]
    omega
  have hpde : m.pde pd b = m.pde pd a := by rw [Mm.pde, hd, Mm.pde]
  exact ⟨hpde, by rw [Mm.pte, hpde, ht, Mm.pte]⟩

theorem Grants.of_page (h : m.Grants pd perm a) (hpage : a / pgsize = b / pgsize) :
    m.Grants pd perm b := by
  obtain ⟨hpde, hpte⟩ := m.entries_of_page pd hpage
  refine ⟨?_, by rw [hpde]; exact h.table, by rw [hpte]; exact h.page, by rw [hpde]; exact h.pde,
    by rw [hpte]; exact h.pte⟩
  have hlow := h.below
  rw [pgsize] at hpage
  rw [ulim_eq] at *
  omega

theorem checkStart_div (va k : ℕ) : (checkStart va + k * pgsize) / pgsize = va / pgsize + k := by
  rw [checkStart, rounddown, pgsize]
  omega

theorem page_of_range (h : va + len ≤ 2 ^ 32 - pgsize) (ha : va ≤ a) (ha' : a < va + len) :
    ∃ k < checkPages va len, a / pgsize = (checkStart va + k * pgsize) / pgsize := by
  refine ⟨a / pgsize - va / pgsize, ?_, ?_⟩
  · rw [checkPages, checkStart, roundup, rounddown, rounddown, pgsize] at *
    omega
  · rw [checkStart_div, pgsize]
    omega

/-- The address `user_mem_check` reports for page `k`. -/
def reported (va k : ℕ) : ℕ :=
  if checkStart va + k * pgsize = checkStart va then va else checkStart va + k * pgsize

theorem reported_page (va k : ℕ) : reported va k / pgsize = (checkStart va + k * pgsize) / pgsize := by
  rw [reported]
  split
  · next h =>
    rw [h]
    rw [checkStart, rounddown, pgsize]
    omega
  · rfl

theorem reported_range (hlen : 0 < len) (hk : k < checkPages va len) : va ≤ reported va k ∧ reported va k < va + len := by
  rw [reported]
  split
  · exact ⟨Nat.le_refl va, by omega⟩
  · next hne =>
    have hpos : k ≠ 0 := fun h0 => hne (by rw [h0, Nat.zero_mul, Nat.add_zero])
    rw [checkPages, checkStart, roundup, rounddown, rounddown, pgsize] at *
    omega

theorem before_reported (hb : va ≤ b) (hlt : b < reported va k) :
    ∃ j < k, b / pgsize = (checkStart va + j * pgsize) / pgsize := by
  rw [reported] at hlt
  split at hlt
  · omega
  · refine ⟨b / pgsize - va / pgsize, ?_, ?_⟩
    · rw [checkStart, rounddown, pgsize] at *
      omega
    · rw [checkStart_div, pgsize]
      omega

theorem reported_lt {j : ℕ} (hj : j < k) : reported va j < reported va k := by
  rw [reported, reported, checkStart, rounddown, pgsize]
  split <;> split <;> omega

theorem range_of_pos (hva : va < 2 ^ 32) (hlen : len < 2 ^ 32) (hk : k < checkPages va len)
    (hpos : k ≠ 0) : va + len ≤ 2 ^ 32 - pgsize := by
  rw [checkPages, checkStart, roundup, rounddown, rounddown, pgsize] at *
  omega

end Mm

open Mm in
/-- **`user_mem_check`** decides whether a user may access a range, and reports
the first byte that it may not, exactly when `CheckAgrees` holds. -/
theorem user_mem_check_decides (m : Mm) (pd va len perm : ℕ) (hva : va < 2 ^ 32)
    (hlen : 0 < len) (hlen' : len < 2 ^ 32) :
    m.CheckAgrees pd va len perm ↔
    (va + len ≤ 2 ^ 32 ∧ (∀ a, va ≤ a → a < va + len → m.Grants pd perm a) →
      userMemCheck pd va len perm m = .ret 0 m) ∧
    (¬ (va + len ≤ 2 ^ 32 ∧ ∀ a, va ≤ a → a < va + len → m.Grants pd perm a) →
      ∃ a, userMemCheck pd va len perm m = .ret (-eFault) { m with userMemCheckAddr := a } ∧
        va ≤ a ∧ a < va + len ∧ ¬ m.Grants pd perm a ∧
        ∀ b, va ≤ b → b < a → m.Grants pd perm b) := by
  have hrun : userMemCheck pd va len perm m = userMemScan pd va (checkStart va) perm
    (checkStart va) (checkPages va len) m := rfl
  have hgranted := fun k (hk : k < checkPages va len) => reported_range hlen hk
  rcases userMemScan_cases va (checkStart va) (checkPages va len) (checkStart va) with
    ⟨hret, hall⟩ | ⟨k, hk, hbefore, ⟨hlt, hfail, hret⟩ | ⟨hno, st, hret⟩⟩
  · -- every page passes
    rw [hrun, hret]
    constructor
    · intro h
      have hend : va + len ≤ 2 ^ 32 - pgsize := by
        refine h.range.resolve_right fun hbad => hbad.2 ?_
        simpa using (hall 0 hbad.1).2
      have hgrants : ∀ a, va ≤ a → a < va + len → m.Grants pd perm a := by
        intro a ha ha'
        obtain ⟨k, hk, hpage⟩ := page_of_range hend ha ha'
        exact (h.pages k hk (fun j hj => (hall j (Nat.lt_trans hj hk)).2) (hall k hk).2).of_page
          hpage.symm
      exact ⟨fun _ => rfl, fun hno => absurd ⟨by omega, hgrants⟩ hno⟩
    · rintro ⟨-, hreject⟩
      have hgrants : va + len ≤ 2 ^ 32 ∧ ∀ a, va ≤ a → a < va + len → m.Grants pd perm a := by
        by_contra hno
        obtain ⟨a, ha, -⟩ := hreject hno
        cases ha
      refine ⟨.inl ?_, fun k hk _ => (hall k hk).1, fun k hk _ _ => ?_⟩
      · have hlast := (hgrants.2 (va + len - 1) (by omega) (by omega)).below
        rw [ulim_eq] at hlast
        rw [pgsize]
        omega
      · exact (hgrants.2 _ (hgranted k hk).1 (hgranted k hk).2).of_page (reported_page va k)
  · -- page `k` is the first that fails
    obtain ⟨hlo, hhi⟩ := hgranted k hk
    have hnot : ¬ m.Grants pd perm (reported va k) := fun hg =>
      hfail (hg.of_page (reported_page va k)).pageOk
    have hle : ∀ k', m.Reaches pd va perm k' → k' ≤ k := fun k' hk' =>
      Nat.le_of_not_lt fun hgt => hfail (hk' k hgt)
    rw [hrun, hret]
    constructor
    · intro h
      refine ⟨fun hall => absurd (hall.2 _ hlo hhi) hnot, fun _ => ?_⟩
      refine ⟨reported va k, rfl, hlo, hhi, hnot, fun b hb hlt => ?_⟩
      obtain ⟨j, hj, hpage⟩ := before_reported hb hlt
      exact (h.pages j (Nat.lt_trans hj hk) (fun i hi => (hbefore i (Nat.lt_trans hi hj)).2)
        (hbefore j hj).2).of_page hpage.symm
    · rintro ⟨-, hreject⟩
      obtain ⟨a, ha, -, -, -, hb⟩ := hreject fun hall => hnot (hall.2 _ hlo hhi)
      have ha : reported va k = a := congrArg (fun o => o.state.userMemCheckAddr) ha
      subst ha
      refine ⟨?_, fun k' _ hk' => ?_, fun k' hk'' hk' hok => ?_⟩
      · by_cases hz : k = 0
        · rw [hz, Nat.zero_mul, Nat.add_zero] at hfail
          exact .inr ⟨Nat.zero_lt_of_lt hk, hfail⟩
        · exact .inl (range_of_pos hva hlen' hk hz)
      · rcases Nat.lt_or_eq_of_le (hle k' hk') with hlt' | rfl
        · exact (hbefore k' hlt').1
        · exact hlt
      · rcases Nat.lt_or_eq_of_le (hle k' hk') with hlt' | rfl
        · exact (hb _ (hgranted k' hk'').1 (reported_lt hlt')).of_page (reported_page va k')
        · exact absurd hok hfail
  · -- `KADDR` panics at page `k`
    rw [hrun, hret]
    refine ⟨fun h => absurd (h.walk k hk fun j hj => (hbefore j hj).2) hno, ?_⟩
    rintro ⟨haccept, hreject⟩
    by_cases hg : va + len ≤ 2 ^ 32 ∧ ∀ a, va ≤ a → a < va + len → m.Grants pd perm a
    · cases haccept hg
    · obtain ⟨a, ha, -⟩ := hreject hg
      cases ha

theorem user_mem_check_decides_one :
    userMemCheck 1 0x5010 100 (pteU ||| pteW ||| pteP) Demo.oneTable = .ret 0 Demo.oneTable := by
  have hzero : ∀ k < Mm.checkPages 0x5010 100, k = 0 := by decide
  have hagrees : Demo.oneTable.CheckAgrees 1 0x5010 100 (pteU ||| pteW ||| pteP) := by
    refine ⟨.inl (by decide), fun k hk _ => ?_, fun k hk _ _ => ?_⟩
    · rw [hzero k hk]
      decide
    · rw [hzero k hk]
      exact ⟨by decide, by decide, by decide, by decide, by decide⟩
  have hgrants : Demo.oneTable.Grants 1 (pteU ||| pteW ||| pteP) 0x5010 :=
    ⟨by decide, by decide, by decide, by decide, by decide⟩
  refine ((user_mem_check_decides Demo.oneTable 1 0x5010 100 _ (by decide) (by decide)
    (by decide)).1 hagrees).1 ⟨by decide, fun a ha ha' => hgrants.of_page ?_⟩
  rw [pgsize]
  omega

/-- The directory of `Demo.oneTable`, mapped read-only at `UVPT`. -/
def Demo.window : Mm :=
  Demo.oneTable.setWord 1 (pdx uvpt) (mkPte 1 pteU)

/-- All of the kernel's memory passes as readable, and a page table as writable
through the read-only window. -/
theorem user_mem_check_accepts_kernel :
    (userMemCheck 1 0xf0000000 0x0fffffff (pteU ||| pteP) Demo.oneTable = .ret 0 Demo.oneTable ∧
      ¬ Demo.oneTable.Grants 1 (pteU ||| pteP) 0xf0000000) ∧
    userMemCheck 1 uvpt 4 (pteU ||| pteW ||| pteP) Demo.window = .ret 0 Demo.window ∧
      ¬ Demo.window.Grants 1 (pteU ||| pteW ||| pteP) uvpt := by
  refine ⟨⟨rfl, fun h => absurd h.below (by decide)⟩, rfl, fun h => absurd h.pde (by decide)⟩

end Jos
