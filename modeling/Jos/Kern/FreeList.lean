/-
Sequences of `page_alloc` and `page_free` calls.

`page_free` takes a page for free when its `pp_link` is not null.  The last
page of the list has a null link, so freeing it again goes unnoticed and ties
the list into a cycle.

* `page_free_catches` — as long as nobody frees the last page of the list
  again, the list is finite and without duplicates, a double free panics, and
  a page is handed out again only after it was freed;
* `page_free_misses_last` — page 1 is the last page of the list `page_init`
  leaves.
-/
import Jos.Lib.Run
import Jos.Kern.PageInit
import Mathlib.Order.Basic

namespace Jos

open Prog Demo

/-! ### The system -/

/-- A call of the page allocator. -/
inductive PageCall where
  | alloc (flags : ℕ)
  | free (p : ℕ)

/-- What a call that returned did. -/
inductive PageEvent where
  | alloced (p : ℕ)
  | freed (p : ℕ)
deriving DecidableEq

/-- A call, with the history of the calls before it, newest first.  A call
that panics has no successor. -/
def pageStep (x : List PageEvent × Mm) : PageCall → Option (List PageEvent × Mm)
  | .alloc flags =>
    match pageAlloc flags x.2 with
    | .ret (some p) m => some (.alloced p :: x.1, m)
    | .ret none m => some (x.1, m)
    | .stop _ _ => none
  | .free p =>
    match pageFree p x.2 with
    | .ret _ m => some (.freed p :: x.1, m)
    | .stop _ _ => none

def Mm.LastFree (m : Mm) (p : ℕ) : Prop :=
  ∃ l, Linked (fun q => (m.pages q).ppLink) m.pageFreeList (l ++ [p])

/-- The call does not free the last page of the list once more. -/
def NotLastFree (x : List PageEvent × Mm) (c : PageCall) : Prop :=
  ∀ p, c = .free p → ¬ x.2.LastFree p

/-- `p` was handed out and not freed since. -/
def Outstanding (h : List PageEvent) (p : ℕ) : Prop :=
  ∃ h₂ h₃, h = h₂ ++ .alloced p :: h₃ ∧ .freed p ∉ h₂

/-- Between any two times a page was handed out it was freed. -/
def FreedBetween (h : List PageEvent) : Prop :=
  ∀ p h₁ h₂ h₃, h = h₁ ++ .alloced p :: h₂ ++ .alloced p :: h₃ → .freed p ∈ h₂

section History

variable {h : List PageEvent} {p q : ℕ}

theorem Outstanding.of_freed (ho : Outstanding (.freed q :: h) p) : p ≠ q ∧ Outstanding h p := by
  obtain ⟨h₂, h₃, heq, hnot⟩ := ho
  cases h₂ with
  | nil => cases heq
  | cons x h₂ =>
    obtain ⟨rfl, rfl⟩ := List.cons_eq_cons.mp heq
    refine ⟨?_, h₂, h₃, rfl, fun hmem => hnot (List.mem_cons_of_mem _ hmem)⟩
    rintro rfl
    exact hnot List.mem_cons_self

theorem Outstanding.of_alloced (ho : Outstanding (.alloced q :: h) p) :
    p = q ∨ Outstanding h p := by
  obtain ⟨h₂, h₃, heq, hnot⟩ := ho
  cases h₂ with
  | nil =>
    cases heq
    exact .inl rfl
  | cons x h₂ =>
    obtain ⟨rfl, rfl⟩ := List.cons_eq_cons.mp heq
    exact .inr ⟨h₂, h₃, rfl, fun hmem => hnot (List.mem_cons_of_mem _ hmem)⟩

theorem FreedBetween.freed (hb : FreedBetween h) : FreedBetween (.freed q :: h) := by
  intro p h₁ h₂ h₃ heq
  cases h₁ with
  | nil => cases heq
  | cons x h₁ => exact hb p h₁ h₂ h₃ (List.cons_eq_cons.mp heq).2

theorem FreedBetween.alloced (hb : FreedBetween h) (hq : ¬ Outstanding h q) :
    FreedBetween (.alloced q :: h) := by
  intro p h₁ h₂ h₃ heq
  cases h₁ with
  | nil =>
    obtain ⟨hpq, rfl⟩ := List.cons_eq_cons.mp heq
    cases hpq
    by_contra hnot
    exact hq ⟨h₂, h₃, rfl, hnot⟩
  | cons x h₁ => exact hb p h₁ h₂ h₃ (List.cons_eq_cons.mp heq).2

end History

/-! ### What a call does -/

section Calls

variable {m m' : Mm} {p : ℕ} {l : List ℕ}

theorem Mm.popFree_link (m : Mm) (p : ℕ) : (fun q => ((m.popFree p).pages q).ppLink) =
    Function.update (fun q => (m.pages q).ppLink) p none :=
  ({ m with pageFreeList := (m.pages p).ppLink } : Mm).updPage_link p ({ · with ppLink := none })

theorem page2kva_stop (h : ¬ p < m.npages) :
    page2kva p m = .stop (.panic "KADDR called with invalid pa") m := by
  exact kaddr_stop (by rwa [pgnum_page2pa])

theorem pageAlloc_cases {flags : ℕ} {r : Option ℕ} (h : pageAlloc flags m = .ret r m') :
    (r = none ∧ m' = m) ∨ ∃ p, r = some p ∧ m.pageFreeList = some p ∧
      m'.pages = (m.popFree p).pages ∧ m'.pageFreeList = (m.popFree p).pageFreeList := by
  cases hl : m.pageFreeList with
  | none =>
    rw [pageAlloc_none hl] at h
    cases h
    exact .inl ⟨rfl, rfl⟩
  | some p =>
    refine .inr ⟨p, ?_⟩
    rw [pageAlloc, get_bind, hl] at h
    simp only at h
    rw [modify_bind] at h
    by_cases hz : flags &&& allocZero ≠ 0
    · -- clearing the page panics outside physical memory and else leaves `pages` alone
      rw [if_pos hz] at h
      by_cases hp : p < m.npages
      · rw [ret_bind (page2kva_eq (m := m.popFree p) hp)] at h
        cases h
        exact ⟨rfl, rfl, rfl, rfl⟩
      · rw [stop_bind (page2kva_stop (m := m.popFree p) hp)] at h
        cases h
    · rw [if_neg hz] at h
      cases h
      exact ⟨rfl, rfl, rfl, rfl⟩

theorem pageFree_cases (m : Mm) (p : ℕ) :
    (m.pages p).ppRef = 0 ∧ (m.pages p).ppLink = none ∧ pageFree p m = .ret () (m.pushFree p) ∨
      ∃ msg, pageFree p m = .stop (.panic msg) m := by
  rw [pageFree, get_bind]
  by_cases hr : (m.pages p).ppRef ≠ 0
  · rw [if_pos hr]
    exact .inr ⟨_, rfl⟩
  · rw [if_neg hr]
    by_cases hk : (m.pages p).ppLink ≠ none
    · rw [if_pos hk]
      exact .inr ⟨_, rfl⟩
    · rw [if_neg hk]
      exact .inl ⟨not_not.mp hr, not_not.mp hk, rfl⟩

theorem pageFree_panics (h : (m.pages p).ppLink ≠ none) :
    ∃ msg, pageFree p m = .stop (.panic msg) m :=
  (pageFree_cases m p).resolve_left fun hc => h hc.2.1

end Calls

/-! ### The invariant -/

/-- The free list is a list, no page on it is outstanding, and no page was
handed out twice in a row. -/
structure FreeInv (x : List PageEvent × Mm) (l : List ℕ) : Prop where
  linked : Linked (fun q => (x.2.pages q).ppLink) x.2.pageFreeList l
  outstanding : ∀ p ∈ l, ¬ Outstanding x.1 p
  between : FreedBetween x.1

variable {x x' : List PageEvent × Mm} {l : List ℕ} {p : ℕ}

theorem Mm.ppLink_ne_none {m : Mm} (hl : Linked (fun q => (m.pages q).ppLink) m.pageFreeList l)
    (hp : p ∈ l) (hlast : ¬ m.LastFree p) : (m.pages p).ppLink ≠ none := by
  intro hnone
  obtain ⟨l', rfl⟩ := (hl.last_iff hp).mp hnone
  exact hlast ⟨l', hl⟩

theorem FreeInv.alloc (h : FreeInv x l) {flags : ℕ} (hs : pageStep x (.alloc flags) = some x') :
    ∃ l', FreeInv x' l' := by
  obtain ⟨hist, m⟩ := x
  rw [pageStep] at hs
  cases ha : pageAlloc flags m with
  | stop e m' =>
    simp only [ha] at hs
    cases hs
  | ret r m' =>
    rcases pageAlloc_cases ha with ⟨rfl, rfl⟩ | ⟨p, rfl, hhead, hpages, hfree⟩
    · simp only [ha, Option.some.injEq] at hs
      subst hs
      exact ⟨l, h⟩
    · simp only [ha, Option.some.injEq] at hs
      subst hs
      have hl := h.linked
      simp only [hhead] at hl
      obtain ⟨l', rfl, htail⟩ := hl.pop
      have hp : p ∉ l' := (List.nodup_cons.mp hl.nodup).1
      refine ⟨l', ?_, fun q hq ho => ?_, h.between.alloced (h.outstanding p List.mem_cons_self)⟩
      · simp only [hpages, hfree]
        rw [Mm.popFree_link]
        exact htail.update hp none
      · rcases ho.of_alloced with rfl | ho
        · exact hp hq
        · exact h.outstanding q (List.mem_cons_of_mem p hq) ho

theorem FreeInv.free (h : FreeInv x l) (hlast : ¬ x.2.LastFree p)
    (hs : pageStep x (.free p) = some x') : ∃ l', FreeInv x' l' := by
  obtain ⟨hist, m⟩ := x
  rw [pageStep] at hs
  rcases pageFree_cases m p with ⟨-, hlink, hf⟩ | ⟨msg, hf⟩
  · simp only [hf, Option.some.injEq] at hs
    subst hs
    -- its null link says that the page is not on the list
    have hp : p ∉ l := fun hmem => Mm.ppLink_ne_none h.linked hmem hlast hlink
    refine ⟨p :: l, ?_, fun q hq ho => ?_, h.between.freed⟩
    · rw [Mm.pushFree_link]
      exact h.linked.push hp
    · obtain ⟨hne, ho⟩ := ho.of_freed
      exact h.outstanding q ((List.mem_cons.mp hq).resolve_left hne) ho
  · simp only [hf] at hs
    cases hs

/-- **Double frees.**  From the state `page_init` leaves, in a run that never
frees the last page of the free list again. -/
theorem page_free_catches (b b₀ : BootMm) (hb : b.mm.pageFreeList = none)
    (hinit : pageInit b = .ret () b₀) (x : List PageEvent × Mm)
    (hr : Sys.Reach pageStep NotLastFree ([], b₀.mm) x) :
    (∃ l, Linked (fun q => (x.2.pages q).ppLink) x.2.pageFreeList l ∧ l.Nodup ∧
      ∀ p ∈ l, ¬ x.2.LastFree p → ∃ msg, pageFree p x.2 = .stop (.panic msg) x.2) ∧
    FreedBetween x.1 := by
  obtain ⟨-, hfree⟩ := (wp_pageInit hb).ret hinit
  have hstart : ∃ l, FreeInv ([], b₀.mm) l := by
    refine ⟨_, hfree.linked, fun p _ ho => ?_, fun p h₁ h₂ h₃ heq => ?_⟩
    · obtain ⟨h₂, h₃, heq, -⟩ := ho
      cases h₂ <;> cases heq
    · cases h₁ <;> cases heq
  have hinv : ∃ l, FreeInv x l := by
    refine Sys.Reach.inv (I := fun x => ∃ l, FreeInv x l) hstart (fun x c x' hx hok hs => ?_) hr
    obtain ⟨l, hl⟩ := hx
    cases c with
    | alloc flags => exact hl.alloc hs
    | free p => exact hl.free (hok p rfl) hs
  obtain ⟨l, hl⟩ := hinv
  exact ⟨⟨l, hl.linked, hl.linked.nodup, fun p hp hlast =>
    pageFree_panics (Mm.ppLink_ne_none hl.linked hp hlast)⟩, hl.between⟩

/-! ### The last page of the list -/

theorem freePages_last {base : ℕ} (freeMem : ℕ) {n : ℕ} (h1 : pageFreed base freeMem 1) (hn : 2 ≤ n) :
    ∃ l, freePages base freeMem n = l ++ [1] := by
  induction n, hn using Nat.le_induction with
  | base =>
    rw [freePages_succ, if_pos h1, freePages_one]
    exact ⟨[], rfl⟩
  | succ n _ ih =>
    obtain ⟨l, hl⟩ := ih
    rw [freePages_succ, hl]
    by_cases hfree : pageFreed base freeMem n
    · rw [if_pos hfree]
      exact ⟨n :: l, rfl⟩
    · rw [if_neg hfree]
      exact ⟨l, rfl⟩

theorem Demo.pc_init : ∃ b₀, pageInit (pc 160) = .ret () b₀ ∧
    b₀.mm.FreeIs (freePages 160 ((pc 160).cursor - kernbase) 4096) := by
  have hkva : kernbase ≤ (pc 160).cursor := by decide
  exact pageInit_returns rfl hkva

theorem page_free_catches_pc : ∃ b₀ msg, pageInit (pc 160) = .ret () b₀ ∧
    pageFree 159 b₀.mm = .stop (.panic msg) b₀.mm := by
  obtain ⟨b₀, hrun, hfree⟩ := pc_init
  obtain ⟨⟨l, hl, -, hpanic⟩, -⟩ := page_free_catches (pc 160) b₀ rfl hrun ([], b₀.mm) .refl
  have hmem : 159 ∈ l := by
    rw [hl.unique hfree.linked]
    exact mem_freePages.mpr ⟨by decide, by decide, by decide, .inl (by decide)⟩
  have hlast : ¬ b₀.mm.LastFree 159 := by
    rintro ⟨l₁, h₁⟩
    obtain ⟨l₂, h₂⟩ := freePages_last ((pc 160).cursor - kernbase) (n := 4096)
      (show pageFreed 160 _ 1 by decide) (by decide)
    have heq := h₁.unique hfree.linked
    rw [h₂] at heq
    exact absurd (List.append_inj_right' heq rfl) (by decide)
  obtain ⟨msg, hmsg⟩ := hpanic 159 hmem hlast
  exact ⟨b₀, msg, hrun, hmsg⟩

/-- Right after `page_init`, freeing page 1 again succeeds, and no finite list
follows the links any more. -/
theorem page_free_misses_last : ∃ b₀, pageInit (pc 160) = .ret () b₀ ∧
    (∃ l, Linked (fun q => (b₀.mm.pages q).ppLink) b₀.mm.pageFreeList l ∧ 1 ∈ l) ∧
    ∃ m, pageFree 1 b₀.mm = .ret () m ∧
      ∀ l, ¬ Linked (fun q => (m.pages q).ppLink) m.pageFreeList l := by
  obtain ⟨b₀, hrun, hfree⟩ := pc_init
  obtain ⟨l, hl⟩ := freePages_last ((pc 160).cursor - kernbase) (n := 4096)
    (show pageFreed 160 _ 1 by decide) (by decide)
  rw [hl] at hfree
  have hmem : 1 ∈ l ++ [1] := List.mem_append_right l List.mem_cons_self
  have hlink := (hfree.linked.last_iff hmem).mpr ⟨l, rfl⟩
  refine ⟨b₀, hrun, ⟨_, hfree.linked, hmem⟩, b₀.mm.pushFree 1, ?_, fun l' => ?_⟩
  · rw [pageFree, get_bind, if_neg (not_not.mpr (hfree.unused 1 hmem)),
      if_neg (not_not.mpr hlink)]
    rfl
  · rw [Mm.pushFree_link]
    exact hfree.linked.push_last l'

end Jos
