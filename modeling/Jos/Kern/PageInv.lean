/-
The state of user memory between two operations of `kern/pmap.c`.

`Shape` says what the memory of the page directories and page tables looks
like, `PageInv` adds that the reference counts and the free list agree with
what it refers to.  References that an operation has counted but not stored
are in its `hand`, pages it has taken off the list are `held`.
-/
import Jos.Kern.Refs
import Jos.Kern.Boot

namespace Jos

open Prog Function

/-- Memory after start-up, its page free list, and the flags that the entries
of user page tables may have: at least those `PTE_SYSCALL` allows. -/
structure MemCtx where
  boot : Mm
  free : List ℕ
  booted : boot.Booted free
  perm : ℕ → Prop
  perm_ok : ∀ p, p &&& notSyscall = 0 → perm ((p ||| pteP) % 4096)

namespace MemCtx

variable (B : MemCtx)

/-- The pages `page_alloc` can hand out. -/
def pool : Set ℕ := {p | p ∈ B.free}

variable {B}

theorem lt_of_pool {p : ℕ} (h : p ∈ B.pool) : p < B.boot.npages := B.booted.free_lt p h

theorem lt_two_pow {p : ℕ} (h : p ∈ B.pool) : p < 2 ^ 20 :=
  Nat.lt_of_lt_of_le (lt_of_pool h) B.booted.npages_le

theorem npages_pos (B : MemCtx) : 0 < B.boot.npages :=
  Nat.lt_of_le_of_lt (Nat.zero_le _) B.booted.kern_lt

end MemCtx

/-- The page directories and page tables of the environments. -/
structure Shape (B : MemCtx) (dirs : ℕ → Option ℕ) (m : Mm) : Prop where
  npages : m.npages = B.boot.npages
  kern : m.kernPgdir = B.boot.kernPgdir
  /-- They and the pages they map come from the free list. -/
  pool : ∀ r ∈ allRefs, ∀ p, target dirs m.mem r = some p → p ∈ B.pool
  /-- A page is one directory, one table, or neither. -/
  excl : Excl allRefs Ref.isTable (target dirs m.mem)
  /-- Absent directory entries are zero. -/
  lower : ∀ e < nenv, ∀ d, dirs e = some d → ∀ i < userPdes, ¬ present (m.mem d i) → m.mem d i = 0
  /-- From `UTOP` on a directory is that of the kernel, except for `UVPT`. -/
  upper : ∀ e < nenv, ∀ d, dirs e = some d → ∀ i, userPdes ≤ i → i < 1024 →
    m.mem d i = if i = pdx uvpt then mkPte d pteU else B.boot.mem B.boot.kernPgdir i
  perms : ∀ e i t, Ref.tab e i ∈ allRefs → target dirs m.mem (.tab e i) = some t →
    ∀ j < nptentries, present (m.mem t j) → B.perm (flags (m.mem t j))
  /-- The kernel's memory does not change. -/
  outside : ∀ p, p ∉ B.pool → m.mem p = B.boot.mem p

/-- Counters, free list and references agree. -/
def Counts (B : MemCtx) (dirs : ℕ → Option ℕ) (held hand : List ℕ) (m : Mm) (free : List ℕ) :
    Prop :=
  RefPool (2 ^ 16) B.pool allRefs (target dirs m.mem) held hand (fun p => (m.pages p).ppRef)
    (fun p => (m.pages p).ppLink) m.pageFreeList free

structure PageInv (B : MemCtx) (dirs : ℕ → Option ℕ) (held hand : List ℕ) (m : Mm) : Prop where
  shape : Shape B dirs m
  counts : ∃ free, Counts B dirs held hand m free

/-! ### Updates of the state -/

namespace Mm

section Updates

variable (m : Mm) (p i w : ℕ)

@[simp] theorem setWord_pages : (m.setWord p i w).pages = m.pages := rfl
@[simp] theorem setWord_npages : (m.setWord p i w).npages = m.npages := rfl
@[simp] theorem setWord_kern : (m.setWord p i w).kernPgdir = m.kernPgdir := rfl
@[simp] theorem setWord_freeList : (m.setWord p i w).pageFreeList = m.pageFreeList := rfl
@[simp] theorem setWord_trace : (m.setWord p i w).trace = m.trace := rfl
@[simp] theorem setWord_self : (m.setWord p i w).mem p i = w := by simp [setWord]
@[simp] theorem updPage_mem (f : PageInfo → PageInfo) : (m.updPage p f).mem = m.mem := rfl
@[simp] theorem popFree_mem : (m.popFree p).mem = m.mem := rfl
@[simp] theorem pushFree_mem : (m.pushFree p).mem = m.mem := rfl
@[simp] theorem incRef_mem : (m.incRef p).mem = m.mem := rfl
@[simp] theorem decRef_mem : (m.decRef p).mem = m.mem := rfl

end Updates

theorem setWord_other (m : Mm) (p i w : ℕ) {q : ℕ} (h : q ≠ p) :
    (m.setWord p i w).mem q = m.mem q :=
  update_of_ne h _ _

theorem setWord_rest (m : Mm) (p i w : ℕ) {k : ℕ} (h : k ≠ i) :
    (m.setWord p i w).mem p k = m.mem p k := by
  simp [setWord, h]

theorem updPage_ref (m : Mm) (p : ℕ) (f : PageInfo → PageInfo) :
    (fun q => ((m.updPage p f).pages q).ppRef) =
      update (fun q => (m.pages q).ppRef) p (f (m.pages p)).ppRef := by
  funext q
  by_cases h : q = p
  · subst h
    simp [updPage]
  · simp [updPage, h]

theorem updPage_link (m : Mm) (p : ℕ) (f : PageInfo → PageInfo) :
    (fun q => ((m.updPage p f).pages q).ppLink) =
      update (fun q => (m.pages q).ppLink) p (f (m.pages p)).ppLink := by
  funext q
  by_cases h : q = p
  · subst h
    simp [updPage]
  · simp [updPage, h]

theorem updPage_other (m : Mm) {p q : ℕ} (f : PageInfo → PageInfo) (h : q ≠ p) :
    (m.updPage p f).pages q = m.pages q :=
  update_of_ne h _ _

/-- `page_decref` on a page that is not on the free list. -/
def dropRef (m : Mm) (p : ℕ) : Mm :=
  if ((m.decRef p).pages p).ppRef = 0 then (m.decRef p).pushFree p else m.decRef p

theorem dropRef_setWord (m : Mm) (a p i w : ℕ) :
    (m.dropRef a).setWord p i w = (m.setWord p i w).dropRef a := by
  have h : ((m.setWord p i w).decRef a).pages a = (m.decRef a).pages a := rfl
  unfold dropRef
  rw [h]
  split <;> rfl

@[simp] theorem dropRef_mem (m : Mm) (p : ℕ) : (m.dropRef p).mem = m.mem := by
  unfold dropRef
  split <;> rfl

@[simp] theorem dropRef_npages (m : Mm) (p : ℕ) : (m.dropRef p).npages = m.npages := by
  unfold dropRef
  split <;> rfl

@[simp] theorem dropRef_kern (m : Mm) (p : ℕ) : (m.dropRef p).kernPgdir = m.kernPgdir := by
  unfold dropRef
  split <;> rfl

@[simp] theorem dropRef_trace (m : Mm) (p : ℕ) : (m.dropRef p).trace = m.trace := by
  unfold dropRef
  split <;> rfl

theorem dropRef_pool {pool : Set ℕ} {f : Ref → Option ℕ} {held hand free : List ℕ} {p : ℕ} (m : Mm)
    (h : RefPool (2 ^ 16) pool allRefs f held (p :: hand) (fun q => (m.pages q).ppRef)
      (fun q => (m.pages q).ppLink) m.pageFreeList free) (hp : p ∈ pool)
    (hM : refs allRefs f p + hand.count p < 2 ^ 16) (hheld : p ∉ held) :
    ∃ l, RefPool (2 ^ 16) pool allRefs f held hand (fun q => ((m.dropRef p).pages q).ppRef)
      (fun q => ((m.dropRef p).pages q).ppLink) (m.dropRef p).pageFreeList (l ++ free) := by
  have href : ((m.decRef p).pages p).ppRef = refs allRefs f p + hand.count p := by
    rw [← h.drop_cnt hp hM]
    simp [decRef, updPage]
  have hr : (fun q => ((m.decRef p).pages q).ppRef) = update (fun q => (m.pages q).ppRef) p
      (((m.pages p).ppRef + (2 ^ 16 - 1)) % 2 ^ 16) := m.updPage_ref p _
  have hk : (fun q => ((m.decRef p).pages q).ppLink) = fun q => (m.pages q).ppLink := by
    have := m.updPage_link p fun i => { i with ppRef := (i.ppRef + (2 ^ 16 - 1)) % 2 ^ 16 }
    rwa [update_eq_self] at this
  unfold dropRef
  rw [href]
  by_cases h0 : refs allRefs f p + hand.count p = 0
  · have hr' : (fun q => (((m.decRef p).pushFree p).pages q).ppRef) =
        fun q => ((m.decRef p).pages q).ppRef := by
      have := (m.decRef p).updPage_ref p ({ · with ppLink := (m.decRef p).pageFreeList })
      rwa [update_eq_self] at this
    have hk' : (fun q => (((m.decRef p).pushFree p).pages q).ppLink) =
        update (fun q => ((m.decRef p).pages q).ppLink) p m.pageFreeList :=
      (m.decRef p).updPage_link p ({ · with ppLink := (m.decRef p).pageFreeList })
    refine ⟨[p], ?_⟩
    rw [if_pos h0, hr', hk', hr, hk]
    exact h.drop_last hp (by decide) h0 hheld
  · refine ⟨[], ?_⟩
    rw [if_neg h0, hr, hk]
    exact h.drop hp hM h0

end Mm

theorem pageDecref_of_last {m : Mm} {p : ℕ}
    (h : ((m.decRef p).pages p).ppRef = 0 → (m.pages p).ppLink = none) :
    pageDecref p m = .ret () (m.dropRef p) := by
  unfold pageDecref Mm.dropRef
  rw [modify_bind, get_bind]
  by_cases h0 : ((m.decRef p).pages p).ppRef = 0
  · have hlink : ((m.decRef p).pages p).ppLink = none := by
      simpa [Mm.decRef, Mm.updPage] using h h0
    rw [when, if_pos h0, if_pos h0, pageFree, get_bind, if_neg (not_not.mpr h0),
      if_neg (not_not.mpr hlink)]
    rfl
  · rw [when, if_neg h0, if_neg h0]
    rfl

theorem pageDecref_eq {m : Mm} {p : ℕ} (h : (m.pages p).ppLink = none) :
    pageDecref p m = .ret () (m.dropRef p) :=
  pageDecref_of_last fun _ => h

/-! ### The allocator -/

theorem Shape.congr {B : MemCtx} {dirs : ℕ → Option ℕ} {m m' : Mm} (h : Shape B dirs m)
    (hm : m'.mem = m.mem) (hn : m'.npages = m.npages) (hk : m'.kernPgdir = m.kernPgdir) :
    Shape B dirs m' := by
  refine ⟨hn.trans h.npages, hk.trans h.kern, ?_, ?_, ?_, ?_, ?_, ?_⟩
  · rw [hm]
    exact h.pool
  · rw [hm]
    exact h.excl
  · rw [hm]
    exact h.lower
  · rw [hm]
    exact h.upper
  · rw [hm]
    exact h.perms
  · rw [hm]
    exact h.outside

namespace PageInv

variable {B : MemCtx} {dirs : ℕ → Option ℕ} {held hand : List ℕ} {m m' : Mm} {p : ℕ}

theorem congr (h : PageInv B dirs held hand m) (hm : m'.mem = m.mem) (hn : m'.npages = m.npages)
    (hk : m'.kernPgdir = m.kernPgdir) (hp : m'.pages = m.pages)
    (hl : m'.pageFreeList = m.pageFreeList) : PageInv B dirs held hand m' := by
  obtain ⟨free, hc⟩ := h.counts
  refine ⟨h.shape.congr hm hn hk, free, ?_⟩
  unfold Counts
  rw [hm, hp, hl]
  exact hc

theorem popFree (h : PageInv B dirs held hand m) (hl : m.pageFreeList = some p) :
    p ∈ B.pool ∧ refs allRefs (target dirs m.mem) p = 0 ∧ p ∉ hand ∧ p ∉ held ∧
      PageInv B dirs (p :: held) hand (m.popFree p) := by
  obtain ⟨free, hc⟩ := h.counts
  unfold Counts at hc
  rw [hl] at hc
  obtain ⟨free', -, hp, h0, hhand, hheld, hc'⟩ := hc.pop
  refine ⟨hp, h0, hhand, hheld, h.shape.congr rfl rfl rfl, free', ?_⟩
  unfold Counts Mm.popFree
  rw [Mm.updPage_ref, Mm.updPage_link, update_eq_self]
  exact hc'

theorem pushFree (h : PageInv B dirs (p :: held) hand m) (hp : p ∈ B.pool)
    (h0 : refs allRefs (target dirs m.mem) p = 0) (hhand : p ∉ hand) (hheld : p ∉ held) :
    PageInv B dirs held hand (m.pushFree p) := by
  obtain ⟨free, hc⟩ := h.counts
  refine ⟨h.shape.congr rfl rfl rfl, p :: free, ?_⟩
  have hc' := RefPool.push hc hp h0 hhand hheld
  have hr : (fun q => ((m.pushFree p).pages q).ppRef) = fun q => (m.pages q).ppRef := by
    have := m.updPage_ref p ({ · with ppLink := m.pageFreeList })
    rwa [update_eq_self] at this
  have hk : (fun q => ((m.pushFree p).pages q).ppLink) =
      update (fun q => (m.pages q).ppLink) p m.pageFreeList :=
    m.updPage_link p ({ · with ppLink := m.pageFreeList })
  unfold Counts
  rw [hr, hk]
  exact hc'

theorem not_mem_free {free : List ℕ} (hc : Counts B dirs held hand m free)
    (hoff : p ∈ held ∨ refs allRefs (target dirs m.mem) p + hand.count p ≠ 0) : p ∉ free := by
  intro hf
  obtain ⟨-, h0, hheld⟩ := (hc.mem_free p).mp hf
  rcases hoff with hh | hne
  · exact hheld hh
  · exact hne h0

theorem ppLink_none (h : PageInv B dirs held hand m) (hp : p ∈ B.pool)
    (hoff : p ∈ held ∨ refs allRefs (target dirs m.mem) p + hand.count p ≠ 0) :
    (m.pages p).ppLink = none := by
  obtain ⟨free, hc⟩ := h.counts
  exact hc.next_none p hp (not_mem_free hc hoff)

theorem incRef (h : PageInv B dirs held hand m)
    (hoff : p ∈ held ∨ refs allRefs (target dirs m.mem) p + hand.count p ≠ 0) :
    PageInv B dirs held (p :: hand) (m.incRef p) := by
  obtain ⟨free, hc⟩ := h.counts
  refine ⟨h.shape.congr rfl rfl rfl, free, ?_⟩
  have hc' := RefPool.take hc (not_mem_free hc hoff)
  unfold Counts Mm.incRef
  rw [Mm.updPage_ref, Mm.updPage_link, update_eq_self]
  exact hc'

theorem release (h : PageInv B dirs (p :: held) hand m)
    (hr : refs allRefs (target dirs m.mem) p + hand.count p ≠ 0) :
    PageInv B dirs held hand m := by
  obtain ⟨free, hc⟩ := h.counts
  exact ⟨h.shape, free, RefPool.release hc hr⟩

theorem dropRef (h : PageInv B dirs held (p :: hand) m) (hp : p ∈ B.pool)
    (hM : refs allRefs (target dirs m.mem) p + hand.count p < 2 ^ 16) (hheld : p ∉ held) :
    PageInv B dirs held hand (m.dropRef p) := by
  obtain ⟨free, hc⟩ := h.counts
  obtain ⟨l, hc'⟩ := m.dropRef_pool hc hp hM hheld
  refine ⟨h.shape.congr (m.dropRef_mem p) (m.dropRef_npages p) (m.dropRef_kern p), l ++ free, ?_⟩
  unfold Counts
  rw [m.dropRef_mem]
  exact hc'

end PageInv

/-! ### Memory -/

section Stores

variable {B : MemCtx} {dirs : ℕ → Option ℕ} {held hand : List ℕ} {m m' : Mm}
  {e i j d t p w : ℕ}

def NoTable (dirs : ℕ → Option ℕ) (m : Mm) (p : ℕ) : Prop :=
  ∀ r ∈ allRefs, r.isTable → target dirs m.mem r ≠ some p

theorem Shape.noTable (h : Shape B dirs m) (hr : Ref.page e i j ∈ allRefs)
    (hp : target dirs m.mem (.page e i j) = some p) : NoTable dirs m p := by
  intro r hr' hrt hrp
  have := h.excl r hr' _ hr p hrt hrp hp
  subst this
  exact hrt

theorem Shape.setMem (h : Shape B dirs m) (hp : p ∈ B.pool) (hnt : NoTable dirs m p)
    (hother : ∀ q ≠ p, m'.mem q = m.mem q) (hn : m'.npages = m.npages)
    (hk : m'.kernPgdir = m.kernPgdir) :
    Shape B dirs m' ∧ ∀ r ∈ allRefs, target dirs m'.mem r = target dirs m.mem r := by
  have hmem : ∀ r ∈ allRefs, r.isTable → ∀ q, target dirs m.mem r = some q →
      m'.mem q = m.mem q := by
    intro r hr hrt q hq
    refine hother q ?_
    rintro rfl
    exact hnt r hr hrt hq
  have htarget := target_congr hmem
  have hdir : ∀ e < nenv, ∀ d, dirs e = some d → m'.mem d = m.mem d :=
    fun e he d hd => hmem (.dir e) (mem_allRefs.mpr he) trivial d hd
  refine ⟨⟨hn.trans h.npages, hk.trans h.kern, fun r hr q hq => ?_, h.excl.congr_slots htarget,
    fun e he d hd => ?_, fun e he d hd => ?_, fun e i t hr ht => ?_, fun q hq => ?_⟩, htarget⟩
  · rw [htarget r hr] at hq
    exact h.pool r hr q hq
  · rw [hdir e he d hd]
    exact h.lower e he d hd
  · rw [hdir e he d hd]
    exact h.upper e he d hd
  · rw [htarget _ hr] at ht
    rw [hmem _ hr trivial t ht]
    exact h.perms e i t hr ht
  · rw [hother q fun hqp => hq (hqp ▸ hp)]
    exact h.outside q hq

theorem Shape.setTable (h : Shape B dirs m) (hr : Ref.page e i j ∈ allRefs)
    (ht : target dirs m.mem (.tab e i) = some t)
    (hw : ∀ p, entry w = some p → p ∈ B.pool ∧ NoTable dirs m p ∧ B.perm (flags w)) :
    Shape B dirs (m.setWord t j w) ∧ ∀ r ∈ allRefs, target dirs (m.setWord t j w).mem r =
      update (target dirs m.mem) (.page e i j) (entry w) r := by
  have hrt := tab_mem_of_page hr
  have htp : t ∈ B.pool := h.pool _ hrt t ht
  have htarget := target_setTable (m.setWord t j w).mem (j := j) hrt ht
    (fun r hr' hrp => (h.excl _ hrt r hr' t trivial ht hrp).symm)
    (fun q hq => m.setWord_other t j w hq) fun k hk => m.setWord_rest t j w hk
  rw [Mm.setWord_self] at htarget
  have hdir : ∀ e < nenv, ∀ d, dirs e = some d → (m.setWord t j w).mem d = m.mem d := by
    intro e' he' d hd
    refine m.setWord_other t j w ?_
    rintro rfl
    exact Ref.noConfusion (h.excl (.dir e') (mem_allRefs.mpr he') _ hrt d trivial hd ht)
  refine ⟨⟨h.npages, h.kern, fun r hr' q hq => ?_, ?_, fun e he d hd => ?_, fun e he d hd => ?_,
    fun e' i' t' hr' ht' j' hj' hpres => ?_, fun q hq => ?_⟩, htarget⟩
  · rw [htarget r hr'] at hq
    by_cases hrp : r = .page e i j
    · rw [hrp, update_self] at hq
      exact (hw q hq).1
    · rw [update_of_ne hrp] at hq
      exact h.pool r hr' q hq
  · refine Excl.congr_slots ?_ htarget
    cases he : entry w with
    | none => exact h.excl.clear _
    | some q => exact h.excl.store (hw q he).2.1 fun hex => hex.elim
  · rw [hdir e he d hd]
    exact h.lower e he d hd
  · rw [hdir e he d hd]
    exact h.upper e he d hd
  · rw [htarget _ hr', update_of_ne (by rintro ⟨⟩)] at ht'
    by_cases hloc : t' = t ∧ j' = j
    · obtain ⟨rfl, rfl⟩ := hloc
      rw [Mm.setWord_self] at hpres ⊢
      exact (hw _ (entry_eq_some.mpr ⟨hpres, rfl⟩)).2.2
    · have hsame : (m.setWord t j w).mem t' j' = m.mem t' j' := by
        by_cases htt : t' = t
        · subst htt
          exact m.setWord_rest t' j w fun hj => hloc ⟨rfl, hj⟩
        · rw [m.setWord_other t j w htt]
      rw [hsame] at hpres ⊢
      exact h.perms e' i' t' hr' ht' j' hj' hpres
  · rw [m.setWord_other t j w (q := q) fun hqt => hq (hqt ▸ htp)]
    exact h.outside q hq

theorem Shape.setDir (h : Shape B dirs m) (hr : Ref.tab e i ∈ allRefs) (hd : dirs e = some d)
    (hold : ∀ j < nptentries, target dirs m.mem (.page e i j) = none)
    (hzero : ¬ present w → w = 0)
    (hw : ∀ t, entry w = some t → t ∈ B.pool ∧ (∀ r ∈ allRefs, target dirs m.mem r ≠ some t) ∧
      ∀ j < nptentries, m.mem t j = 0) :
    Shape B dirs (m.setWord d i w) ∧ ∀ r ∈ allRefs, target dirs (m.setWord d i w).mem r =
      update (target dirs m.mem) (.tab e i) (entry w) r := by
  have hrd := dir_mem_of_tab hr
  have hdp : d ∈ B.pool := h.pool _ hrd d hd
  have hiu : i < userPdes := (mem_allRefs.mp hr).2
  -- the new table is not the directory itself
  have hnew : ∀ t, entry w = some t → (m.setWord d i w).mem t = m.mem t := by
    intro t ht
    refine m.setWord_other d i w ?_
    rintro rfl
    exact (hw t ht).2.1 _ hrd hd
  have htarget := target_setDir (m.setWord d i w).mem hr hd
    (fun r hr' hrp => (h.excl _ hrd r hr' d trivial hd hrp).symm)
    (fun q hq => m.setWord_other d i w hq) (fun k hk => m.setWord_rest d i w hk) hold
    (by
      rw [Mm.setWord_self]
      intro t ht j hj
      rw [hnew t ht, (hw t ht).2.2 j hj, entry_zero])
  rw [Mm.setWord_self] at htarget
  have hdir : ∀ e' < nenv, ∀ d', dirs e' = some d' → ∀ k, k ≠ i ∨ e' ≠ e →
      (m.setWord d i w).mem d' k = m.mem d' k := by
    intro e' he' d' hd' k hk
    by_cases hdd : d' = d
    · subst hdd
      cases h.excl (.dir e') (mem_allRefs.mpr he') _ hrd d' trivial hd' hd
      exact m.setWord_rest d' i w (hk.resolve_right (not_not.mpr rfl))
    · rw [m.setWord_other d i w hdd]
  refine ⟨⟨h.npages, h.kern, fun r hr' q hq => ?_, ?_, fun e' he' d' hd' k hk hpres => ?_,
    fun e' he' d' hd' k hk hk' => ?_, fun e' i' t' hr' ht' j' hj' hpres => ?_, fun q hq => ?_⟩,
    htarget⟩
  · rw [htarget r hr'] at hq
    by_cases hrp : r = .tab e i
    · rw [hrp, update_self] at hq
      exact (hw q hq).1
    · rw [update_of_ne hrp] at hq
      exact h.pool r hr' q hq
  · refine Excl.congr_slots ?_ htarget
    cases he : entry w with
    | none => exact h.excl.clear _
    | some q => exact h.excl.store (fun r hr' _ => (hw q he).2.1 r hr') fun _ => (hw q he).2.1
  · by_cases hloc : k = i ∧ e' = e
    · obtain ⟨rfl, rfl⟩ := hloc
      cases hd.symm.trans hd'
      rw [Mm.setWord_self] at hpres ⊢
      exact hzero hpres
    · rw [hdir e' he' d' hd' k (by tauto)] at hpres ⊢
      exact h.lower e' he' d' hd' k hk hpres
  · rw [hdir e' he' d' hd' k (.inl (by omega))]
    exact h.upper e' he' d' hd' k hk hk'
  · by_cases hloc : Ref.tab e' i' = .tab e i
    · -- the new table is empty
      obtain ⟨rfl, rfl⟩ := Ref.tab.inj hloc
      rw [htarget _ hr', update_self] at ht'
      rw [hnew t' ht', (hw t' ht').2.2 j' hj'] at hpres
      exact absurd hpres not_present_zero
    · rw [htarget _ hr', update_of_ne hloc] at ht'
      have hsame : (m.setWord d i w).mem t' = m.mem t' := by
        refine m.setWord_other d i w ?_
        rintro rfl
        exact Ref.noConfusion (h.excl _ hr' _ hrd t' trivial ht' hd)
      rw [hsame] at hpres ⊢
      exact h.perms e' i' t' hr' ht' j' hj' hpres
  · rw [m.setWord_other d i w (q := q) fun hqd => hq (hqd ▸ hdp)]
    exact h.outside q hq

/-- What a page has to look like to become the directory of an environment. -/
structure NewDir (B : MemCtx) (dirs : ℕ → Option ℕ) (m : Mm) (d : ℕ) : Prop where
  pool : d ∈ B.pool
  unused : ∀ r ∈ allRefs, target dirs m.mem r ≠ some d
  lower : ∀ i < userPdes, m.mem d i = 0
  upper : ∀ i, userPdes ≤ i → i < 1024 →
    m.mem d i = if i = pdx uvpt then mkPte d pteU else B.boot.mem B.boot.kernPgdir i

theorem Shape.swapDir (h : Shape B dirs m) (x : Option ℕ)
    (hold : ∀ i < userPdes, target dirs m.mem (.tab e i) = none)
    (hnew : ∀ d, x = some d → NewDir B dirs m d) :
    Shape B (update dirs e x) m ∧ ∀ r ∈ allRefs,
      target (update dirs e x) m.mem r =
        update (target dirs m.mem) (.dir e) x r := by
  have htarget := target_swapDir x hold fun d hd i hi => by
    rw [(hnew d hd).lower i hi, entry_zero]
  have hdirs : ∀ e' d', update dirs e x e' = some d' →
      (e' = e ∧ x = some d') ∨ dirs e' = some d' := by
    intro e' d' hd'
    by_cases hee : e' = e
    · subst hee
      rw [update_self] at hd'
      exact .inl ⟨rfl, hd'⟩
    · rw [update_of_ne hee] at hd'
      exact .inr hd'
  refine ⟨⟨h.npages, h.kern, fun r hr q hq => ?_, ?_, fun e' he' d' hd' => ?_,
    fun e' he' d' hd' => ?_, fun e' i' t' hr ht => ?_, h.outside⟩, htarget⟩
  · rw [htarget r hr] at hq
    by_cases hrd : r = .dir e
    · rw [hrd, update_self] at hq
      exact (hnew q hq).pool
    · rw [update_of_ne hrd] at hq
      exact h.pool r hr q hq
  · refine Excl.congr_slots ?_ htarget
    cases x with
    | none => exact h.excl.clear _
    | some d => exact h.excl.store (fun r hr _ => (hnew d rfl).unused r hr) fun _ => (hnew d rfl).unused
  · rcases hdirs e' d' hd' with ⟨-, hx⟩ | hd'
    · exact fun i hi _ => (hnew d' hx).lower i hi
    · exact h.lower e' he' d' hd'
  · rcases hdirs e' d' hd' with ⟨-, hx⟩ | hd'
    · exact (hnew d' hx).upper
    · exact h.upper e' he' d' hd'
  · rw [htarget _ hr, update_of_ne (by rintro ⟨⟩)] at ht
    exact h.perms e' i' t' hr ht

namespace PageInv

variable (m') in
theorem setMem (h : PageInv B dirs held hand m) (hp : p ∈ B.pool) (hnt : NoTable dirs m p)
    (hother : ∀ q ≠ p, m'.mem q = m.mem q) (hn : m'.npages = m.npages)
    (hk : m'.kernPgdir = m.kernPgdir) (hpages : m'.pages = m.pages)
    (hl : m'.pageFreeList = m.pageFreeList) :
    PageInv B dirs held hand m' ∧ ∀ r ∈ allRefs, target dirs m'.mem r = target dirs m.mem r := by
  obtain ⟨free, hc⟩ := h.counts
  obtain ⟨hs, htarget⟩ := h.shape.setMem hp hnt hother hn hk
  refine ⟨⟨hs, free, ?_⟩, htarget⟩
  unfold Counts
  rw [hpages, hl]
  exact RefPool.congr_slots hc htarget

theorem storeTable (h : PageInv B dirs held (p :: hand) m) (hr : Ref.page e i j ∈ allRefs)
    (ht : target dirs m.mem (.tab e i) = some t)
    (hnone : target dirs m.mem (.page e i j) = none) (hw : entry w = some p) (hp : p ∈ B.pool)
    (hnt : NoTable dirs m p) (hperm : B.perm (flags w))
    (hM : refs allRefs (target dirs m.mem) p + 1 < 2 ^ 16) :
    PageInv B dirs held hand (m.setWord t j w) ∧ ∀ r ∈ allRefs,
      target dirs (m.setWord t j w).mem r =
        update (target dirs m.mem) (.page e i j) (some p) r := by
  obtain ⟨free, hc⟩ := h.counts
  obtain ⟨hs, htarget⟩ := h.shape.setTable (w := w) hr ht fun q hq => by
    cases hw.symm.trans hq
    exact ⟨hp, hnt, hperm⟩
  rw [hw] at htarget
  exact ⟨⟨hs, free, (RefPool.store hc hr hnone hM).congr_slots htarget⟩, htarget⟩

theorem clearTable (h : PageInv B dirs held hand m) (hr : Ref.page e i j ∈ allRefs)
    (ht : target dirs m.mem (.tab e i) = some t)
    (hp : target dirs m.mem (.page e i j) = some p) :
    PageInv B dirs held (p :: hand) (m.setWord t j 0) ∧ ∀ r ∈ allRefs,
      target dirs (m.setWord t j 0).mem r =
        update (target dirs m.mem) (.page e i j) none r := by
  obtain ⟨free, hc⟩ := h.counts
  obtain ⟨hs, htarget⟩ := h.shape.setTable (w := 0) hr ht fun q hq => by simp at hq
  rw [entry_zero] at htarget
  exact ⟨⟨hs, free, (RefPool.clear hc hr hp).congr_slots htarget⟩, htarget⟩

theorem storeDir (h : PageInv B dirs held (t :: hand) m) (hr : Ref.tab e i ∈ allRefs)
    (hd : dirs e = some d) (hnone : target dirs m.mem (.tab e i) = none) (hw : entry w = some t)
    (ht : t ∈ B.pool) (h0 : refs allRefs (target dirs m.mem) t = 0)
    (hempty : ∀ j < nptentries, m.mem t j = 0) :
    PageInv B dirs held hand (m.setWord d i w) ∧ ∀ r ∈ allRefs,
      target dirs (m.setWord d i w).mem r =
        update (target dirs m.mem) (.tab e i) (some t) r := by
  obtain ⟨free, hc⟩ := h.counts
  obtain ⟨hs, htarget⟩ := h.shape.setDir (w := w) hr hd (fun j _ => target_page_none hnone)
    (fun hpres => absurd (entry_eq_some.mp hw).1 hpres) fun q hq => by
      cases hw.symm.trans hq
      exact ⟨ht, refs_eq_zero.mp h0, hempty⟩
  rw [hw] at htarget
  exact ⟨⟨hs, free, (RefPool.store hc hr hnone (by rw [h0]; decide)).congr_slots htarget⟩, htarget⟩

theorem addDir (h : PageInv B dirs held (d :: hand) m) (he : e < nenv) (hnone : dirs e = none)
    (hnew : NewDir B dirs m d) : PageInv B (update dirs e (some d)) held hand m := by
  obtain ⟨free, hc⟩ := h.counts
  obtain ⟨hs, htarget⟩ := h.shape.swapDir (e := e) (some d) (fun i _ => by simp [target, hnone])
    fun d' hd' => by
      cases hd'
      exact hnew
  have hr : Ref.dir e ∈ allRefs := mem_allRefs.mpr he
  refine ⟨hs, free, (RefPool.store hc hr hnone ?_).congr_slots htarget⟩
  rw [refs_eq_zero.mpr hnew.unused]
  decide

end PageInv

end Stores

end Jos
