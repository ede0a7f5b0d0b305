/-
The user heap gives its pages back.

Where `Chunks` says that a reference word is large enough, `Counted` says that
it is right: it counts the chunks that end in the page, and `mptr` if the page
is still being filled.

* `heap_reclaimed` — the words are right in every history in which no chunk of
  a whole number of pages gets pages of its own;
* `malloc_page_leaks` — such a chunk leaves `mptr` at a page boundary, and the
  reference of `mptr` is never dropped.
-/
import Jos.User.MallocSafe

namespace Jos

open Bytes Demo

/-! ### Exact counts -/

/-- The reference word of a page counts the chunks that end in it, and `extra`
more; it is not zero; and a page with the mark is in the middle of a chunk. -/
structure Counted (h : Heap) (live : List (ℕ × ℕ)) (extra : ℕ → ℕ) : Prop where
  refs : ∀ p, heapPage p → h.pte p = some false →
    rd32 h.mem (refAddr p) = endsIn live p + extra p
  used : ∀ p, heapPage p → h.pte p = some false → 0 < endsIn live p + extra p
  cont : ∀ p, heapPage p → h.pte p = some true → ∃ c ∈ live, c.1 / pgsize ≤ p ∧ p < lastPage c

namespace Counted

variable {h h' : Heap} {live : List (ℕ × ℕ)} {extra : ℕ → ℕ} {c : ℕ × ℕ} {n₀ v : ℕ}

theorem congr (hx : Counted h live extra) (hpte : ∀ p, h'.pte p = h.pte p)
    (hmem : ∀ p, heapPage p → h.pte p = some false →
      rd32 h'.mem (refAddr p) = rd32 h.mem (refAddr p)) :
    Counted h' live extra := by
  constructor
  · intro p hp hpp
    rw [hpte p] at hpp
    rw [hmem p hp hpp, hx.refs p hp hpp]
  · intro p hp hpp
    exact hx.used p hp (by rw [← hpte p, hpp])
  · intro p hp hpp
    exact hx.cont p hp (by rw [← hpte p, hpp])

theorem endsIn_erase (hc : c ∈ live) (p : ℕ) :
    endsIn live p = endsIn (live.erase c) p + if lastPage c = p then 1 else 0 := by
  rw [← endsIn_cons]
  exact (List.perm_cons_erase hc).countP_eq _

theorem dropped (hx : Counted h live extra) (hc : c ∈ live) (hok : ChunkOk h c) :
    Counted (h.dropped c) (live.erase c) extra := by
  have hword := hx.refs _ hok.heapPage hok.last
  have hcount := endsIn_erase hc (lastPage c)
  rw [if_pos rfl] at hcount
  -- a page that is still mapped was mapped before
  have hstay : ∀ p b, (h.dropped c).pte p = some b → h.pte p = some b ∧
      ¬ ((c.1 / pgsize ≤ p ∧ p < lastPage c) ∨
        (p = lastPage c ∧ rd32 h.mem (refAddr (lastPage c)) = 1)) := by
    intro p b hp
    by_cases hgone : (c.1 / pgsize ≤ p ∧ p < lastPage c) ∨
      (p = lastPage c ∧ rd32 h.mem (refAddr (lastPage c)) = 1)
    · have hnone : (h.dropped c).pte p = none := if_pos hgone
      rw [hnone] at hp
      cases hp
    · exact ⟨(if_neg hgone).symm.trans hp, hgone⟩
  have hboth : ∀ p, heapPage p → (h.dropped c).pte p = some false →
      rd32 (h.dropped c).mem (refAddr p) = endsIn (live.erase c) p + extra p ∧
        0 < endsIn (live.erase c) p + extra p := by
    intro p hp hpp
    obtain ⟨hpte, hnot⟩ := hstay p false hpp
    show rd32 (wr32 h.mem _ _) _ = _ ∧ _
    by_cases hpc : p = lastPage c
    · subst hpc
      have hne : rd32 h.mem (refAddr (lastPage c)) ≠ 1 := fun hone => hnot (.inr ⟨rfl, hone⟩)
      have hlt := rd32_lt h.mem (refAddr (lastPage c))
      rw [rd32_wr32, Nat.mod_eq_of_lt (by omega)]
      omega
    · have hends := endsIn_erase hc p
      rw [if_neg (Ne.symm hpc), Nat.add_zero] at hends
      rw [rd32_wr32_of_disjoint _ _ (refAddr_disjoint (Ne.symm hpc)), ← hends]
      exact ⟨hx.refs p hp hpte, hx.used p hp hpte⟩
  refine ⟨fun p hp hpp => (hboth p hp hpp).1, fun p hp hpp => (hboth p hp hpp).2, fun p hp hpp => ?_⟩
  obtain ⟨hpte, hnot⟩ := hstay p true hpp
  obtain ⟨d, hd, hlo, hhi⟩ := hx.cont p hp hpte
  have hne : d ≠ c := by
    rintro rfl
    exact hnot (.inl ⟨hlo, hhi⟩)
  exact ⟨d, (List.mem_erase_of_ne hne).mpr hd, hlo, hhi⟩

theorem current (hx : Counted h live h.held) (halign : h.mptr % 4 = 0)
    (hmid : h.mptr % pgsize ≠ 0) : Counted h ((h.mptr, 0) :: live) fun _ => 0 := by
  refine ⟨fun p hp hpp => ?_, fun p hp hpp => ?_, fun p hp hpp => ?_⟩
  · rw [Heap.held_eq halign hmid]
    exact hx.refs p hp hpp
  · rw [Heap.held_eq halign hmid]
    exact hx.used p hp hpp
  · obtain ⟨d, hd, hin⟩ := hx.cont p hp hpp
    exact ⟨d, List.mem_cons_of_mem _ hd, hin⟩

theorem opened {q : ℕ} (hx : Counted h live fun _ => 0) (hs : Chunks h live fun _ => 0)
    (hn₀ : n₀ ≤ 2 ^ 32 - 4)
    (hroom : ∀ p, q ≤ p → p < q + pagesFor (roundup n₀ 4) → h.pte p = none)
    (hg : Grown { h with mptr := q * pgsize } q (roundup n₀ 4) (pagesFor (roundup n₀ 4)) h')
    (hmid : roundup n₀ 4 % pgsize ≠ 0) :
    Counted
      { h' with
        mem := wr32 h'.mem (refAddr (q + (roundup n₀ 4 + 3) / pgsize)) 2
        mptr := q * pgsize + roundup n₀ 4 }
      ((q * pgsize, n₀) :: live)
      (Heap.held
        { h' with
          mem := wr32 h'.mem (refAddr (q + (roundup n₀ 4 + 3) / pgsize)) 2
          mptr := q * pgsize + roundup n₀ 4 }) := by
  have hlast := lastPage_base q n₀
  have hn4 := roundup_four hn₀
  have hpages : pagesFor (roundup n₀ 4) = (roundup n₀ 4 + 3) / pgsize + 1 := rfl
  have hdiv : (q * pgsize + roundup n₀ 4) / pgsize = q + (roundup n₀ 4 + 3) / pgsize := by
    unfold pgsize at *
    omega
  have hmod : (q * pgsize + roundup n₀ 4) % pgsize ≠ 0 := by
    unfold pgsize at *
    omega
  have hfirst : q * pgsize / pgsize = q := Nat.mul_div_cancel _ (by decide)
  obtain ⟨L, hL⟩ : ∃ L, (roundup n₀ 4 + 3) / pgsize = L := ⟨_, rfl⟩
  rw [hL] at hlast hpages hdiv ⊢
  -- the pages: new ones, of which the last one has no mark, and those of before
  have hpte : ∀ p b, h'.pte p = some b →
      (q ≤ p ∧ p < q + L ∧ b = true) ∨ (p = q + L ∧ b = false) ∨ (p ≠ q + L ∧ h.pte p = some b ∧
        (p < q ∨ q + pagesFor (roundup n₀ 4) ≤ p)) := by
    intro p b hp
    rw [hg.pte p] at hp
    by_cases hin : q ≤ p ∧ p < q + pagesFor (roundup n₀ 4)
    · rw [if_pos hin, Option.some.injEq] at hp
      by_cases hmark : p + 1 < q + pagesFor (roundup n₀ 4)
      · rw [decide_eq_true hmark] at hp
        exact .inl ⟨hin.1, by omega, hp.symm⟩
      · rw [decide_eq_false hmark] at hp
        exact .inr (.inl ⟨by omega, hp.symm⟩)
    · rw [if_neg hin] at hp
      exact .inr (.inr ⟨by omega, hp, by omega⟩)
  have hends : endsIn live (q + L) = 0 := by
    refine Chunks.endsIn_eq_zero fun d hd => ?_
    have h₁ := hs.not_in hroom hd
    have h₂ := ChunkOk.first_le d
    omega
  have hboth : ∀ p, heapPage p → h'.pte p = some false →
      rd32 (wr32 h'.mem (refAddr (q + L)) 2) (refAddr p) =
        endsIn ((q * pgsize, n₀) :: live) p + (if q + L = p then 1 else 0) ∧
      0 < endsIn ((q * pgsize, n₀) :: live) p + (if q + L = p then 1 else 0) := by
    intro p hp hpp
    rw [endsIn_cons, hlast]
    obtain ⟨-, -, hcon⟩ | ⟨rfl, -⟩ | ⟨hne, hold, hout⟩ := hpte p false hpp
    · cases hcon
    · rw [if_pos rfl, hends, rd32_wr32]
      exact ⟨rfl, by omega⟩
    · have hword : rd32 h'.mem (refAddr p) = rd32 h.mem (refAddr p) :=
        rd32_congr fun b hb hb' => hg.mem b (by rw [refAddr_div hb hb']; exact hout)
      rw [if_neg (Ne.symm hne), rd32_wr32_of_disjoint _ _ (refAddr_disjoint (Ne.symm hne)), hword]
      exact ⟨hx.refs p hp hold, hx.used p hp hold⟩
  have hheld : ∀ p, Heap.held
      { h' with mem := wr32 h'.mem (refAddr (q + L)) 2, mptr := q * pgsize + roundup n₀ 4 } p =
        if q + L = p then 1 else 0 := by
    intro p
    show (if (q * pgsize + roundup n₀ 4) % pgsize ≠ 0 ∧ _ = p then 1 else 0) = _
    rw [hdiv]
    exact if_congr (and_iff_right hmod) rfl rfl
  constructor
  · intro p hp hpp
    rw [hheld]
    exact (hboth p hp hpp).1
  · intro p hp hpp
    rw [hheld]
    exact (hboth p hp hpp).2
  · intro p hp hpp
    obtain ⟨hlo, hhi, -⟩ | ⟨-, hcon⟩ | ⟨-, hold, -⟩ := hpte p true hpp
    · refine ⟨_, List.mem_cons_self, ?_, ?_⟩
      · rw [hfirst]
        exact hlo
      · rw [hlast]
        exact hhi
    · cases hcon
    · obtain ⟨d, hd, hin⟩ := hx.cont p hp hold
      exact ⟨d, List.mem_cons_of_mem _ hd, hin⟩

theorem paged (hx : Counted h live fun _ => 0) (hs : Chunks h live fun _ => 0)
    (hn₀ : n₀ ≤ 2 ^ 32 - 4) (hp : Paged h (roundup n₀ 4) v h')
    (hmid : roundup n₀ 4 % pgsize = 0 → v = 0 ∨ v % pgsize ≠ 0) :
    Counted h' (if v = 0 then live else (v, n₀) :: live) h'.held := by
  cases hp with
  | refused page mptr pte mem =>
    rw [if_pos rfl, Heap.held_of_aligned (by rw [mptr, Nat.mul_mod_left])]
    refine hx.congr pte fun p hp hpp => rd32_congr fun b hb hb' => mem b ?_
    rw [refAddr_div hb hb', hpp]
    rfl
  | @opened _ q low high room grown =>
    have hne : q * pgsize ≠ 0 := by
      unfold mbegin pgsize at *
      omega
    rw [if_neg hne]
    refine hx.opened hs hn₀ room grown fun h0 => ?_
    rcases hmid h0 with hz | hz
    · exact hne hz
    · exact hz (Nat.mul_mod_left q pgsize)

theorem here (hx : Counted h live h.held)
    (hlast : lastPage (h.mptr, n₀) = h.mptr / pgsize)
    (hcount : rd32 h.mem (refAddr (h.mptr / pgsize)) < 2 ^ 32 - 1) :
    Counted
      { h with
        mem := wr32 h.mem (refAddr (h.mptr / pgsize)) (rd32 h.mem (refAddr (h.mptr / pgsize)) + 1)
        mptr := chunkEnd (h.mptr, n₀) }
      ((h.mptr, n₀) :: live) h.held := by
  have hboth : ∀ p, heapPage p → h.pte p = some false →
      rd32 (wr32 h.mem (refAddr (h.mptr / pgsize)) (rd32 h.mem (refAddr (h.mptr / pgsize)) + 1))
        (refAddr p) = endsIn ((h.mptr, n₀) :: live) p + h.held p := by
    intro p hp hpp
    have hold := hx.refs p hp hpp
    rw [endsIn_cons, hlast]
    by_cases hpm : h.mptr / pgsize = p
    · subst hpm
      rw [if_pos rfl, rd32_wr32, Nat.mod_eq_of_lt (by omega)]
      omega
    · rw [if_neg hpm, rd32_wr32_of_disjoint _ _ (refAddr_disjoint hpm), hold, Nat.add_zero]
  refine ⟨hboth, fun p hp hpp => ?_, fun p hp hpp => ?_⟩
  · have hold := hx.used p hp hpp
    rw [endsIn_cons]
    omega
  · obtain ⟨d, hd, hin⟩ := hx.cont p hp hpp
    exact ⟨d, List.mem_cons_of_mem _ hd, hin⟩

theorem held_here (hi : HeapInv h live) (hlo : mbegin ≤ h.mptr) (hhi : h.mptr < mend)
    (hn₀ : n₀ ≤ 2 ^ 32 - 4) (hmid : h.mptr % pgsize ≠ 0)
    (hlast : lastPage (h.mptr, n₀) = h.mptr / pgsize) (hm : h'.mptr = chunkEnd (h.mptr, n₀)) :
    h'.held = h.held := by
  have hend := (hi.here hlo hhi hmid hn₀ hlast).1.end_page
  have hge : h.mptr ≤ chunkEnd (h.mptr, n₀) := Nat.le_add_right _ _
  rw [hlast] at hend
  have hmod : chunkEnd (h.mptr, n₀) % pgsize ≠ 0 := by
    unfold refAddr pgsize at *
    omega
  have hdiv : chunkEnd (h.mptr, n₀) / pgsize = h.mptr / pgsize := by
    unfold refAddr pgsize at *
    omega
  funext p
  unfold Heap.held
  rw [hm, hdiv]
  exact if_congr (by simp only [hmod, hmid, ne_eq, not_false_eq_true]) rfl rfl

theorem malloc (hx : Counted h live h.held) (hi : HeapInv h live) (hlo : mbegin ≤ h.mptr)
    (hhi : h.mptr < mend) (hn₀ : n₀ ≤ 2 ^ 32 - 4) (hm : MallocCases h n₀ v h')
    (hmid : roundup n₀ 4 % pgsize = 0 → v = 0 ∨ v % pgsize ≠ 0) :
    Counted h' (if v = 0 then live else (v, n₀) :: live) h'.held := by
  cases hm with
  | refused => rwa [if_pos rfl]
  | here mid last count =>
    rw [if_neg (by unfold mbegin at hlo; omega), held_here hi hlo hhi hn₀ mid last rfl]
    exact hx.here last count
  | pages bound paged =>
    have hs := hi.chunks
    rw [Heap.held_of_aligned bound] at hs hx
    exact hx.paged hs hn₀ paged hmid
  | leave mid paged =>
    -- the current page is given up like an empty chunk
    have hs := hi.current hlo hhi mid
    have hdrop := (hs.free List.mem_cons_self).2
    have hx' := (hx.current hi.align mid).dropped List.mem_cons_self (hs.ok _ List.mem_cons_self)
    rw [List.erase_cons_head] at hdrop hx'
    have hx'' : Counted
        { h.dropped (h.mptr, 0) with mptr := (h.mptr / pgsize + 1) * pgsize } live fun _ => 0 :=
      hx'.congr (fun _ => rfl) fun _ _ _ => rfl
    exact hx''.paged (hdrop.chunks.setMptr _) hn₀ paged hmid

end Counted

/-! ### Histories -/

/-- When the counts stay right: the heap is kept in order, and a chunk of a whole
number of pages fits into the current page, or is larger than `malloc` allows. -/
def HeapRefCond (s : HeapSys) : HeapEvent → Prop
  | .malloc n ok => HeapCond s (.malloc n ok) ∧
      (roundup n.toNat 4 % pgsize = 0 → maxmalloc ≤ roundup n.toNat 4 ∨
        s.heap.start.mptr % pgsize ≠ 0 ∧ s.heap.start.Fits (roundup n.toNat 4))
  | _ => True

theorem Heap.start_held (h : Heap) : h.start.held = h.held := by
  unfold Heap.start
  by_cases h0 : h.mptr = 0
  · rw [if_pos h0, Heap.held_of_aligned (h := h) (by rw [h0, Nat.zero_mod])]
    exact Heap.held_of_aligned (show mbegin % pgsize = 0 by decide)
  · rw [if_neg h0]

theorem Heap.start_pte (h : Heap) : h.start.pte = h.pte := by
  unfold Heap.start
  split <;> rfl

theorem Heap.malloc_mid {h h' : Heap} {n v : ℕ} {ok : ℕ → Bool} (heq : h.malloc n ok = some (v, h'))
    (hfit : maxmalloc ≤ roundup n 4 ∨ h.start.mptr % pgsize ≠ 0 ∧ h.start.Fits (roundup n 4)) :
    v = 0 ∨ v % pgsize ≠ 0 := by
  unfold Heap.malloc at heq
  simp only at heq
  by_cases hmax : maxmalloc ≤ roundup n 4
  · rw [if_pos hmax] at heq
    cases heq
    exact .inl rfl
  · obtain ⟨hmid, hfits⟩ := hfit.resolve_left hmax
    rw [if_neg hmax, if_pos hmid, if_pos hfits] at heq
    obtain ⟨h₁, hupd, heq⟩ := Option.map_eq_some_iff.mp heq
    obtain ⟨-, rfl⟩ := Sys.guard_eq hupd
    cases heq
    exact .inr hmid

/-- What the heap and the chunks are at any time. -/
structure HeapRefInv (h : Heap) (live : List (ℕ × ℕ)) : Prop where
  inv : HeapInv h live
  counted : Counted h live h.held

namespace HeapRefInv

variable {h : Heap} {live : List (ℕ × ℕ)}

theorem of_fresh {s : HeapSys} (h : s.Fresh) : HeapRefInv s.heap s.live := by
  refine ⟨.of_fresh h, ?_, ?_, ?_⟩ <;>
  · intro p hp hpp
    rw [h.pte p hp] at hpp
    cases hpp

theorem malloc (hi : HeapRefInv h live) {n : UInt32} {ok : ℕ → Bool}
    (hcond : HeapRefCond ⟨h, live⟩ (.malloc n ok)) :
    ∃ v h', h.malloc n.toNat ok = some (v, h') ∧
      HeapRefInv h' (if v = 0 then live else (v, n.toNat) :: live) ∧ Heap.SameOn live h h' := by
  obtain ⟨hi', hlo, hhi, hmem⟩ := hi.inv.start
  obtain ⟨v, h', heq, hm⟩ := hi.inv.malloc_cases hcond.1
  have hdone := hm.malloced hi' hlo hhi hcond.1.1
  have hx : Counted h.start live h.start.held := by
    rw [Heap.start_held]
    exact hi.counted.congr (fun p => by rw [Heap.start_pte]) fun _ _ _ => by rw [hmem]
  have hmid : roundup n.toNat 4 % pgsize = 0 → v = 0 ∨ v % pgsize ≠ 0 := fun h0 =>
    Heap.malloc_mid heq (hcond.2 h0)
  refine ⟨v, h', heq, ⟨hdone.inv, hx.malloc hi' hlo hhi hcond.1.1 hm hmid⟩, fun d hd a ha => ?_⟩
  rw [hdone.same d hd a ha, hmem]

theorem free (hi : HeapRefInv h live) {c : ℕ × ℕ} (hc : c ∈ live) :
    h.free c.1 = some (h.dropped c) ∧ HeapRefInv (h.dropped c) (live.erase c) ∧
      Heap.SameOn (live.erase c) h (h.dropped c) := by
  obtain ⟨heq, hi', hsame⟩ := hi.inv.free hc
  exact ⟨heq, ⟨hi', hi.counted.dropped hc (hi.inv.chunks.ok c hc)⟩, hsame⟩

theorem dropped_pte (hi : HeapRefInv h live) {c : ℕ × ℕ} (hc : c ∈ live) (p : ℕ) :
    (h.dropped c).pte p =
      if (c.1 / pgsize ≤ p ∧ p ≤ lastPage c) ∧
        (∀ d ∈ live.erase c, p < d.1 / pgsize ∨ lastPage d < p) ∧ h.held p = 0 then none
      else h.pte p := by
  have hok := hi.inv.chunks.ok c hc
  have hfirst := ChunkOk.first_le c
  refine if_congr ?_ rfl rfl
  constructor
  · rintro (⟨hlo, hhi⟩ | ⟨rfl, hone⟩)
    · have hmark := hok.cont p hlo hhi
      refine ⟨⟨hlo, hhi.le⟩, fun d hd => ?_, if_neg fun hcur => ?_⟩
      · exact hok.cont_unique (hi.inv.chunks.ok d ((List.erase_sublist).subset hd))
          (hi.inv.chunks.apart_erase hc d hd) hlo hhi
      · have hpage := hi.inv.page hcur.1
        rw [hcur.2, hmark] at hpage
        cases hpage
    · -- it was the only reference
      have hword := hi.counted.refs _ hok.heapPage hok.last
      rw [Counted.endsIn_erase hc, if_pos rfl] at hword
      have hends : endsIn (live.erase c) (lastPage c) = 0 := by omega
      refine ⟨⟨hfirst, le_refl _⟩, fun d hd => ?_, by omega⟩
      have hlast : lastPage d ≠ lastPage c := by
        simpa using List.countP_eq_zero.mp hends d hd
      by_contra hcon
      have hmark := (hi.inv.chunks.ok d ((List.erase_sublist).subset hd)).cont (lastPage c)
        (by omega) (by omega)
      rw [hok.last] at hmark
      cases hmark
  · rintro ⟨⟨hlo, hhi⟩, hothers, hheld⟩
    rcases Nat.lt_or_eq_of_le hhi with hlt | rfl
    · exact .inl ⟨hlo, hlt⟩
    · refine .inr ⟨rfl, ?_⟩
      have hword := hi.counted.refs _ hok.heapPage hok.last
      have hends : endsIn (live.erase c) (lastPage c) = 0 := by
        refine Chunks.endsIn_eq_zero fun d hd hdl => ?_
        have h₁ := hothers d hd
        have h₂ := ChunkOk.first_le d
        omega
      rw [Counted.endsIn_erase hc, if_pos rfl, hends, hheld] at hword
      exact hword

theorem store (hi : HeapRefInv h live) {c : ℕ × ℕ} {a : ℕ} (hc : c ∈ live) (ha : Owns c a)
    (b : UInt8) : HeapRefInv { h with mem := Function.update h.mem a b } live := by
  refine ⟨hi.inv.store hc ha b, hi.counted.congr (fun _ => rfl) fun p _ hpp => ?_⟩
  refine rd32_congr fun e he he' => Function.update_of_ne ?_ _ _
  have hout := (hi.inv.chunks.ok c hc).not_ref ha hpp
  omega

theorem step {s s' : HeapSys} {l : HeapEvent} (hi : HeapRefInv s.heap s.live)
    (hok : HeapRefCond s l) (hs : s.step l = some s') : HeapRefInv s'.heap s'.live := by
  cases l with
  | malloc n ok =>
    obtain ⟨v, h', heq, hi', -⟩ := hi.malloc hok
    rw [HeapSys.step, heq] at hs
    cases hs
    exact hi'
  | free v n =>
    simp only [HeapSys.step] at hs
    split at hs
    · next hmem =>
      obtain ⟨heq, hi', -⟩ := hi.free hmem
      rw [heq] at hs
      cases hs
      exact hi'
    · cases hs
  | store a b =>
    obtain ⟨hown, rfl⟩ := Sys.guard_eq hs
    obtain ⟨c, hc, ha⟩ := hown
    exact hi.store hc ha b

theorem mapped_nil (hi : HeapRefInv h []) {p : ℕ} (hp : heapPage p) (hm : (h.pte p).isSome) :
    h.mptr / pgsize = p := by
  cases hpte : h.pte p with
  | none =>
    rw [hpte] at hm
    cases hm
  | some b =>
    cases b with
    | true =>
      obtain ⟨c, hc, -⟩ := hi.counted.cont p hp hpte
      cases hc
    | false =>
      have hpos := hi.counted.used p hp hpte
      by_contra hne
      have hzero : h.held p = 0 := if_neg fun hcon => hne hcon.2
      rw [hzero] at hpos
      exact absurd hpos (lt_irrefl 0)

end HeapRefInv

/-- As long as no chunk of a whole number of pages gets pages of its own, the
reference word of every page without the mark is the number of chunks that end
in it, plus one if `mptr` is in the middle of it; and when all chunks have been
freed at most one page is left. -/
theorem heap_reclaimed {s₀ s : HeapSys} (h₀ : s₀.Fresh)
    (hr : Sys.Reach HeapSys.step HeapRefCond s₀ s) :
    (∀ p, heapPage p → s.heap.pte p = some false →
      rd32 s.heap.mem (refAddr p) = (s.live.countP fun c => lastPage c = p) +
        if s.heap.mptr % pgsize ≠ 0 ∧ s.heap.mptr / pgsize = p then 1 else 0) ∧
    (s.live = [] → ∀ p q, heapPage p → heapPage q → (s.heap.pte p).isSome →
      (s.heap.pte q).isSome → p = q) := by
  have hi : HeapRefInv s.heap s.live :=
    hr.inv (I := fun s => HeapRefInv s.heap s.live) (.of_fresh h₀) fun _ _ _ hi hok hs =>
      hi.step hok hs
  refine ⟨hi.counted.refs, fun hnil p q hp hq hpm hqm => ?_⟩
  rw [hnil] at hi
  rw [← hi.mapped_nil hp hpm, ← hi.mapped_nil hq hqm]

instance (s : HeapSys) : ∀ l, Decidable (HeapRefCond s l)
  | .malloc _ _ => inferInstanceAs (Decidable (_ ∧ (_ → _ ∨ _ ∧ _)))
  | .free _ _ => inferInstanceAs (Decidable True)
  | .store _ _ => inferInstanceAs (Decidable True)

/-- A small chunk and a large one, and both are freed. -/
theorem heap_reclaimed_two : ∃ s, Sys.Reach HeapSys.step HeapRefCond heap s ∧ s.live = [] ∧
    ∀ p q, heapPage p → heapPage q → (s.heap.pte p).isSome → (s.heap.pte q).isSome → p = q := by
  have hall : Sys.AllOk HeapSys.step HeapRefCond
      [.malloc 13 fun _ => true, .malloc 5000 fun _ => true, .free 0x08000000 13,
        .free 0x08001000 5000] heap := by
    decide +kernel
  obtain ⟨s, hs, hnil⟩ := Sys.exists_reach_of (P := fun s => s.live = []) hall (by decide +kernel)
  exact ⟨s, hs, hnil, (heap_reclaimed heap_fresh hs).2 hnil⟩

/-- `malloc(4096)` leaves `mptr` at the start of a page with two references, and
`free` drops one of them: twice that, and two pages stay. -/
theorem malloc_page_leaks : heap.Fresh ∧
    ∃ s, Sys.Reach HeapSys.step (fun _ _ => True) heap s ∧ s.live = [] ∧
      (heapPage 0x8001 ∧ s.heap.pte 0x8001 = some false ∧ rd32 s.heap.mem (refAddr 0x8001) = 1 ∧
        s.heap.mptr / pgsize ≠ 0x8001) ∧
      heapPage 0x8003 ∧ s.heap.pte 0x8003 = some false := by
  refine ⟨heap_fresh, ?_⟩
  unfold heapPage
  exact Sys.exists_reach_of (Sys.allOk_true [.malloc 4096 fun _ => true, .free 0x08000000 4096,
    .malloc 4096 fun _ => true, .free 0x08002000 4096] _) (by decide +kernel)

end Jos
