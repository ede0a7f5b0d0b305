/-
Who owns a page.

In every state that is reached by steps that meet `MemCond`,

* a page table entry of an environment refers to a page from the free list
  that is not free now and is no table or directory, with no flags beyond
  `PTE_SYSCALL` (`memory_isolation`);
* `pp_ref` is the number of references to a page, and the free list consists
  of the pages nothing refers to (`page_refs`);
* a store of user code changes nothing but its page (`user_stores_confined`);
* freeing the environments gives back all pages (`no_page_leaks`).

The system call `sys_page_map` passes any permission word on to
`page_insert`, which ORs it into the entry.  With bits above the flags the
entry refers to another page than the one that is counted: `alias_run` maps
the page at the head of the free list.
-/
import Jos.Kern.MemRun

namespace Jos

open Prog Demo

/-! ### Isolation -/

def SyscallFlags (f : ℕ) : Prop := f &&& pteSyscall = f
  deriving Decidable

theorem syscallFlags_of_check {perm : ℕ} (h : perm &&& notSyscall = 0) :
    SyscallFlags ((perm ||| pteP) % 4096) := by
  have hlow : perm % 4096 &&& 0x1f8 = 0 := by
    have hmask : (0x1f8 : ℕ) = notSyscall &&& 0x1f8 := by decide
    have hmod : perm % 4096 = perm &&& 0xfff := (Nat.and_two_pow_sub_one_eq_mod perm 12).symm
    rw [hmod, Nat.and_assoc, show (0xfff &&& 0x1f8 : ℕ) = 0x1f8 from rfl, hmask, ← Nat.and_assoc, h,
      Nat.zero_and]
  have hq : perm % 4096 &&& pteSyscall = perm % 4096 := by
    have hfull : perm % 4096 &&& 0xfff = perm % 4096 := by
      rw [Nat.and_two_pow_sub_one_eq_mod _ 12, Nat.mod_mod]
    rw [show (0xfff : ℕ) = 0x1f8 ||| pteSyscall from rfl, Nat.and_or_distrib_left, hlow,
      Nat.zero_or] at hfull
    exact hfull
  have hor : (perm ||| pteP) % 4096 = perm % 4096 ||| pteP :=
    Nat.or_mod_two_pow (a := perm) (b := pteP) (n := 12)
  rw [SyscallFlags, hor, Nat.and_or_distrib_right, hq]
  rfl

/-- The page is a table or directory of some environment. -/
def Kern.IsTable (s : Kern) (p : ℕ) : Prop :=
  ∃ r ∈ allRefs, r.isTable ∧ target s.dirs s.mm.mem r = some p
  deriving Decidable

/-- Entry `j` of table `i` of environment `e` is present, and `w`. -/
def Kern.UserPte (s : Kern) (e i j w : ℕ) : Prop :=
  ∃ d, s.dirs e = some d ∧ present (s.mm.mem d i) ∧ s.mm.mem (frame (s.mm.mem d i)) j = w ∧ present w

theorem Kern.UserPte.table {s : Kern} {e i j w : ℕ} (h : s.UserPte e i j w) :
    ∃ t, target s.dirs s.mm.mem (.tab e i) = some t ∧ s.mm.mem t j = w ∧ present w := by
  obtain ⟨d, hd, hpde, hw, hpres⟩ := h
  refine ⟨_, ?_, hw, hpres⟩
  rw [target_tab hd]
  exact entry_eq_some.mpr ⟨hpde, rfl⟩

/-- The kernel's memory after start-up, with flags restricted to those users
may ask for. -/
def isolationCtx (m : Mm) (free : List ℕ) (h : m.Booted free) : MemCtx :=
  ⟨m, free, h, SyscallFlags, fun _ => syscallFlags_of_check⟩

/-- Every entry of a user page table refers to a page that was taken from the
free list for it, and has flags the user may ask for. -/
theorem memory_isolation {s₀ s : Kern} {free : List ℕ} (hb : Booted s₀ free)
    (hr : Sys.Reach Kern.step (MemCond SyscallFlags) s₀ s) :
    ∃ l, Linked (fun p => (s.mm.pages p).ppLink) s.mm.pageFreeList l ∧
      ∀ e < nenv, ∀ i < userPdes, ∀ j < nptentries, ∀ w, s.UserPte e i j w →
        frame w ∈ free ∧ frame w ∉ l ∧ ¬ s.IsTable (frame w) ∧ SyscallFlags (flags w) := by
  have h := memRun_reach (B := isolationCtx s₀.mm free hb.mm) hb rfl hr
  obtain ⟨l, hc⟩ := h.2.page.counts
  refine ⟨l, hc.linked, fun e he i hi j hj w hw => ?_⟩
  obtain ⟨t, ht, rfl, hpres⟩ := hw.table
  have hpage : Ref.page e i j ∈ allRefs := mem_allRefs.mpr ⟨he, hi, hj⟩
  have hp : target s.dirs s.mm.mem (.page e i j) = some (frame (s.mm.mem t j)) := by
    rw [target_page ht]
    exact entry_eq_some.mpr ⟨hpres, rfl⟩
  refine ⟨h.2.page.shape.pool _ hpage _ hp, hc.not_mem_free_of_ref hpage hp, ?_, ?_⟩
  · rintro ⟨r, hr, hrt, hrp⟩
    exact h.2.page.shape.noTable hpage hp r hr hrt hrp
  · exact h.2.page.shape.perms e i t (tab_mem_of_page hpage) ht j hj hpres

/-- One page, mapped twice: at `0xeebfc000` and `0xeebfb000`. -/
def Demo.mapTwice : List (ℕ × Event) :=
  [(0, .create image .user), (0, .start), (0, call 4 0 0xeebfc000 7 0 0),
    (0, call 5 0 0xeebfc000 0 0xeebfb000 7)]

/-- The second mapping of that page. -/
theorem memory_isolation_mapTwice :
    ∃ s, Sys.Reach Kern.step (MemCond SyscallFlags) (machine 16) s ∧
      s.UserPte 0 954 1019 (mkPte 515 7) ∧ ¬ s.IsTable 515 := by
  have hall : Sys.AllOk Kern.step (Kern.PagingStep SyscallFlags) mapTwice (machine 16) := by
    decide +kernel
  obtain ⟨s, hs, hd, hpde, hw⟩ := Sys.exists_reach_of (P := fun s => s.dirs 0 = some 512 ∧ present
      (s.mm.mem 512 954) ∧ s.mm.mem (frame (s.mm.mem 512 954)) 1019 = mkPte 515 7) hall
      (by decide +kernel)
  have hr := hs.mono fun _ _ h => Kern.PagingStep.memCond h
  have hpte : s.UserPte 0 954 1019 (mkPte 515 7) := ⟨512, hd, hpde, hw, present_mkPte _ _⟩
  obtain ⟨l, -, hiso⟩ := memory_isolation (machine_booted 16 (by decide)) hr
  have h515 := (hiso 0 (by decide) 954 (by decide) 1019 (by decide) _ hpte).2.2.1
  rw [frame_mkPte_of_lt (by decide) (by decide)] at h515
  exact ⟨s, hr, hpte, h515⟩

theorem Demo.alias_run : (Sys.runAll Kern.step
    [(0, .create image .user), (0, .start), (0, call 4 0 0xeebfc000 7 0 0),
      (0, call 4 0 0xeebfb000 7 0 0), (0, call 5 0 0xeebfb000 0 0xeebfa000 0x1007)]
    (machine 16)).any (fun s => decide
      (s.dirs 0 = some 512 ∧ present (s.mm.mem 512 954) ∧
        s.mm.mem (frame (s.mm.mem 512 954)) 1018 = mkPte 517 7 ∧ s.mm.pageFreeList = some 517 ∧
        (s.mm.pages 517).ppRef = 0)) = true := by
  decide +kernel

theorem page_map_breaks_isolation : Booted (machine 16) (List.range' 512 16) ∧
    ∃ s w, Sys.Reach Kern.step (fun _ _ => True) (machine 16) s ∧
      s.UserPte 0 954 1018 w ∧ s.mm.pageFreeList = some (frame w) := by
  refine ⟨machine_booted 16 (by decide), ?_⟩
  obtain ⟨s, hs, hp⟩ := Sys.exists_reach (Sys.allOk_true _ _) alias_run
  obtain ⟨hd, hpde, hw, hfree, -⟩ := of_decide_eq_true hp
  refine ⟨s, _, hs, ⟨512, hd, hpde, hw, present_mkPte _ _⟩, ?_⟩
  rw [frame_mkPte_of_lt (by decide) (by decide)]
  exact hfree

/-! ### Reference counts -/

/-- The number of entries of user page tables that refer to page `p`. -/
def Kern.mappings (s : Kern) (p : ℕ) : ℕ :=
  (allRefs.filter fun r => ¬ r.isTable ∧ target s.dirs s.mm.mem r = some p).card

/-- One if page `p` is a page table or page directory. -/
def Kern.tableUse (s : Kern) (p : ℕ) : ℕ := if s.IsTable p then 1 else 0

def countCtx (m : Mm) (free : List ℕ) (h : m.Booted free) : MemCtx :=
  ⟨m, free, h, anyFlags, fun _ _ => trivial⟩

/-- `pp_ref` counts the entries that refer to a page, and its use as a table;
the free list consists of the pages without a reference, each once. -/
theorem page_refs {s₀ s : Kern} {free : List ℕ} (hb : Booted s₀ free)
    (hr : Sys.Reach Kern.step (MemCond anyFlags) s₀ s) :
    (∀ p ∈ free, (s.mm.pages p).ppRef = s.mappings p + s.tableUse p) ∧
    ∃ l, Linked (fun p => (s.mm.pages p).ppLink) s.mm.pageFreeList l ∧ l.Nodup ∧
      ∀ p, p ∈ l ↔ p ∈ free ∧ s.mappings p + s.tableUse p = 0 := by
  have h := memRun_reach (B := countCtx s₀.mm free hb.mm) hb rfl hr
  obtain ⟨l, hc⟩ := h.2.page.counts
  have hrefs : ∀ p, refs allRefs (target s.dirs s.mm.mem) p = s.mappings p + s.tableUse p := by
    intro p
    rw [h.2.page.shape.excl.refs_eq p, Kern.mappings, Kern.tableUse]
    rfl
  refine ⟨fun p hp => ?_, l, hc.linked, hc.linked.nodup, fun p => ?_⟩
  · have hcnt := hc.cnt_eq p hp
    rw [List.count_nil, Nat.add_zero, Nat.mod_eq_of_lt (hc.bound p hp), hrefs] at hcnt
    exact hcnt
  · rw [hc.mem_free p, List.count_nil, Nat.add_zero, hrefs]
    simp [MemCtx.pool, countCtx]

/-- A page that is mapped twice. -/
theorem page_refs_mapTwice :
    ∃ s, Sys.Reach Kern.step (MemCond anyFlags) (machine 16) s ∧
      (s.mm.pages 515).ppRef = 2 ∧ s.mappings 515 + s.tableUse 515 = 2 := by
  have hall : Sys.AllOk Kern.step (Kern.PagingStep anyFlags) mapTwice (machine 16) := by
    decide +kernel
  have hrun : (Sys.runAll Kern.step mapTwice (machine 16)).any (fun s => decide
      ((s.mm.pages 515).ppRef = 2)) = true := by
    decide +kernel
  obtain ⟨s, hs, hp⟩ := Sys.exists_reach hall hrun
  have hp : (s.mm.pages 515).ppRef = 2 := of_decide_eq_true hp
  have hr := hs.mono fun _ _ h => Kern.PagingStep.memCond h
  have href := (page_refs (machine_booted 16 (by decide)) hr).1 515 (by decide)
  exact ⟨s, hr, hp, by rw [← href, hp]⟩

/-- A page that is mapped while it is on the free list with count zero. -/
theorem page_map_breaks_refs : Booted (machine 16) (List.range' 512 16) ∧
    ∃ s, Sys.Reach Kern.step (fun _ _ => True) (machine 16) s ∧
      517 ∈ List.range' 512 16 ∧ s.UserPte 0 954 1018 (mkPte 517 7) ∧
      (s.mm.pages 517).ppRef = 0 ∧ s.mm.pageFreeList = some 517 := by
  refine ⟨machine_booted 16 (by decide), ?_⟩
  obtain ⟨s, hs, hp⟩ := Sys.exists_reach (Sys.allOk_true _ _) alias_run
  obtain ⟨hd, hpde, hw, hfree, href⟩ := of_decide_eq_true hp
  exact ⟨s, hs, by decide, ⟨512, hd, hpde, hw, present_mkPte _ _⟩, href, hfree⟩

/-! ### Stores of user code -/

/-- In every state that is reached, a store that the MMU allows user code, at any
address, is one below `UTOP` into a page that was taken from the free list and is no
table or directory.  It changes no translation of any environment, no page of the
kernel, and no byte that another page holds. -/
theorem user_stores_confined {s₀ s : Kern} {free : List ℕ} (hb : Booted s₀ free)
    (hr : Sys.Reach Kern.step (MemCond anyFlags) s₀ s) {e d va : ℕ} (he : e < nenv)
    (hd : s.dirs e = some d) (hva : va < 2 ^ 32) (hw : s.mm.uWrites d va) (b : ℕ) :
    va < utop ∧ frame (s.mm.pte d va) ∈ free ∧ ¬ s.IsTable (frame (s.mm.pte d va)) ∧
    (∀ p, p ∉ free → (s.mm.setByte d va b).mem p = s.mm.mem p) ∧
    ∀ f < nenv, ∀ d', s.dirs f = some d' → ∀ va',
      (s.mm.setByte d va b).pde d' va' = s.mm.pde d' va' ∧
      (present (s.mm.pde d' va') → (s.mm.setByte d va b).pte d' va' = s.mm.pte d' va') ∧
      (s.mm.kReads d' va' → frame (s.mm.pte d' va') ≠ frame (s.mm.pte d va) →
        (s.mm.setByte d va b).byteAt d' va' = s.mm.byteAt d' va') := by
  have h := (memRun_reach (B := countCtx s₀.mm free hb.mm) hb rfl hr).2.page.shape
  have ha : UserVa s.dirs e d va := ⟨he, hd, h.user_of_uWrites he hd hw⟩
  have hp := target_of_kReads ha hw.1.1
  have hpool := h.pool _ ha.page _ hp
  have hnt := h.noTable ha.page hp
  have hother : ∀ q ≠ frame (s.mm.pte d va), (s.mm.setByte d va b).mem q = s.mm.mem q :=
    fun q hq => s.mm.setWord_other _ _ _ hq
  refine ⟨?_, hpool, ?_, fun p hp => hother p ?_, fun f hf d' hd' va' => ?_⟩
  · have huser := ha.user
    rw [userPdes_eq, pdx_eq] at huser
    rw [utop_eq]
    omega
  · rintro ⟨r, hr, hrt, hrp⟩
    exact hnt r hr hrt hrp
  · rintro rfl
    exact hp hpool
  · obtain ⟨hpde, hpte⟩ := h.walk_congr (s.mm.setByte d va b) hf hd' hpool hnt hother va'
    refine ⟨hpde, hpte, fun hreads hne => ?_⟩
    rw [Mm.byteAt, Mm.byteAt, hpte hreads.1, hother _ hne]

theorem Demo.mapTwice_reached : ∃ s, Sys.Reach Kern.step (MemCond anyFlags) (machine 16) s ∧
    s.dirs 0 = some 512 ∧ s.mm.uWrites 512 0xeebfc000 ∧ (s.mm.pages 515).ppRef = 2 := by
  have hall : Sys.AllOk Kern.step (Kern.PagingStep anyFlags) mapTwice (machine 16) := by
    decide +kernel
  obtain ⟨s, hs, hp⟩ := Sys.exists_reach_of (P := fun s => s.dirs 0 = some 512 ∧
    s.mm.uWrites 512 0xeebfc000 ∧ (s.mm.pages 515).ppRef = 2) hall (by decide +kernel)
  exact ⟨s, hs.mono fun _ _ h => Kern.PagingStep.memCond h, hp⟩

theorem user_stores_confined_mapTwice :
    ∃ s, Sys.Reach Kern.step (MemCond anyFlags) (machine 16) s ∧ s.mm.uWrites 512 0xeebfc000 ∧
      ¬ s.IsTable (frame (s.mm.pte 512 0xeebfc000)) := by
  obtain ⟨s, hr, hd, hw, -⟩ := mapTwice_reached
  exact ⟨s, hr, hw, (user_stores_confined (machine_booted 16 (by decide)) hr (by decide) hd
    (by decide) hw 0).2.2.1⟩

/-! ### No leaks -/

/-- `env_free` of those environments of a list that are in use. -/
def freeAll : List ℕ → KernM Unit
  | [] => pure ()
  | e :: es => do
    let s ← get
    when ((s.envs e).envStatus ≠ .free) (envFree e)
    freeAll es

section

variable {B : MemCtx} {crash : Prop} {s : Kern} {e : ℕ} {es : List ℕ}

/-- The environments of `es` have been freed. -/
structure FreedAll (B : MemCtx) (crash : Prop) (es : List ℕ) (s s' : Kern) : Prop where
  inv : MemInv B crash s'
  free : ∀ x, (s.envs x).envStatus = .free ∨ x ∈ es → (s'.envs x).envStatus = .free

theorem wp_freeOne (h : MemInv B crash s) (he : e < nenv) :
    wp (when ((s.envs e).envStatus ≠ .free) (envFree e)) (fun _ => FreedAll B crash [e] s)
      (fun _ _ => False) s := by
  rw [wp_when]
  refine ⟨fun hne => ?_, fun hfree => ⟨h, fun x hx => ?_⟩⟩
  · obtain ⟨⟨⟩, s₁, hret, h₁⟩ := (wp_memFree h he hne).exists_ret
    have hctl : (s.freed e).SameCtl s₁ :=
      (wp_envFree (Q := fun _ => (s.freed e).SameCtl) (fun _ h => h) fun _ _ _ _ => trivial).ret hret
    refine (wp_of_ret hret).mpr ⟨h₁, fun x hx => ?_⟩
    rw [hctl.envs, Kern.freed_envs]
    split
    · rfl
    · next hxe => exact hx.resolve_right (by simpa using hxe)
  · rcases hx with hx | hx
    · exact hx
    · exact List.mem_singleton.mp hx ▸ not_not.mp hfree

theorem wp_freeAll (h : MemInv B crash s) (hes : ∀ e ∈ es, e < nenv) :
    wp (freeAll es) (fun _ => FreedAll B crash es s) (fun _ _ => False) s := by
  induction es generalizing s with
  | nil => exact ⟨h, fun x hx => hx.resolve_right List.not_mem_nil⟩
  | cons e es ih =>
    rw [freeAll, wp_bind, wp_get]
    refine (wp_freeOne h (hes e List.mem_cons_self)).bind_total fun _ s₁ h₁ => ?_
    refine (ih h₁.inv fun x hx => hes x (List.mem_cons_of_mem e hx)).imp fun _ s' h' => ⟨h'.inv, ?_⟩
    rintro x (hx | hx)
    · exact h'.free x (.inl (h₁.free x (.inl hx)))
    · rcases List.mem_cons.mp hx with rfl | hx
      · exact h'.free x (.inl (h₁.free x (.inr (List.mem_singleton_self x))))
      · exact h'.free x (.inr hx)

end

theorem no_page_leaks {s₀ s : Kern} {free es : List ℕ} (hb : Booted s₀ free)
    (hr : Sys.Reach Kern.step (MemCond anyFlags) s₀ s) (hes : es.Perm (List.range nenv)) :
    ∃ s' l, freeAll es s = .ret () s' ∧
      Linked (fun p => (s'.mm.pages p).ppLink) s'.mm.pageFreeList l ∧ l.Perm free ∧
      ∀ p ∈ free, (s'.mm.pages p).ppRef = 0 := by
  have h := (memRun_reach (B := countCtx s₀.mm free hb.mm) hb rfl hr).2
  obtain ⟨⟨⟩, s', hret, h', hfree⟩ :=
    (wp_freeAll h fun e he => List.mem_range.mp (hes.mem_iff.mp he)).exists_ret
  have hdirs : ∀ e < nenv, s'.dirs e = none := fun e he =>
    if_pos (hfree e (.inr (hes.mem_iff.mpr (List.mem_range.mpr he))))
  have hnone : ∀ r ∈ allRefs, target s'.dirs s'.mm.mem r = none := by
    intro r hr
    have hr' := mem_allRefs.mp hr
    cases r with
    | dir e => exact hdirs e hr'
    | tab e i => simp [target, hdirs e hr'.1]
    | page e i j => simp [target, hdirs e hr'.1]
  have hrefs : ∀ p, refs allRefs (target s'.dirs s'.mm.mem) p = 0 := fun p =>
    refs_eq_zero.mpr fun r hr hp => by cases (hnone r hr).symm.trans hp
  obtain ⟨l, hc⟩ := h'.page.counts
  refine ⟨s', l, hret, hc.linked, ?_, fun p hp => ?_⟩
  · refine (List.perm_ext_iff_of_nodup hc.linked.nodup hb.mm.linked.nodup).mpr fun p => ?_
    rw [hc.mem_free p, hrefs p]
    simp [MemCtx.pool, countCtx]
  · rw [hc.cnt_eq p hp, hrefs p]
    rfl

theorem no_page_leaks_mapTwice :
    ∃ s, Sys.Reach Kern.step (MemCond anyFlags) (machine 16) s ∧ (s.mm.pages 515).ppRef = 2 ∧
      ∃ s', freeAll (List.range nenv) s = .ret () s' ∧ (s'.mm.pages 515).ppRef = 0 := by
  obtain ⟨s, hr, -, -, hp⟩ := mapTwice_reached
  obtain ⟨s', l, hret, -, -, hzero⟩ := no_page_leaks (machine_booted 16 (by decide)) hr (.refl _)
  exact ⟨s, hr, hp, s', hret, hzero 515 (by decide)⟩

end Jos
