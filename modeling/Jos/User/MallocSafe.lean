/-
The user heap is safe.

`Chunks h live extra` says that the chunks of `live` are laid out properly in
the heap `h`, and that the reference word of every page counts at least the
chunks that end in it and `extra` more.  Every part of `malloc` and `free` is
described by what it does to this.

* `heap_safe` — chunks lie in the region, are mapped, and overlap neither each
  other nor a reference word, and no call touches the bytes of a chunk that
  stays;
* `malloc_wraps` — the condition is needed: rounding the size up wraps around.
-/
import Jos.User.Malloc

namespace Jos

open Bytes Function

variable {c : ℕ × ℕ} {h : Heap} {live : List (ℕ × ℕ)} {p : ℕ}

/-! ### Chunks -/

/-- The end of a chunk: its size is rounded up. -/
def chunkEnd (c : ℕ × ℕ) : ℕ := c.1 + roundup c.2 4

/-- The page a chunk ends in, with the reference word behind it. -/
def lastPage (c : ℕ × ℕ) : ℕ := (chunkEnd c + 3) / pgsize

def refAddr (p : ℕ) : ℕ := p * pgsize + (pgsize - 4)

/-- One of the chunks ends before the other one starts. -/
def Apart (c d : ℕ × ℕ) : Prop := chunkEnd c ≤ d.1 ∨ chunkEnd d ≤ c.1

theorem Apart.symm {d : ℕ × ℕ} (h : Apart c d) : Apart d c := Or.symm h

theorem roundup_four {n : ℕ} (h : n ≤ 2 ^ 32 - 4) : roundup n 4 = (n + 3) / 4 * 4 := by
  unfold roundup rounddown
  omega

/-- How a chunk lies in the heap. -/
structure ChunkOk (h : Heap) (c : ℕ × ℕ) : Prop where
  size : c.2 ≤ 2 ^ 32 - 4
  low : mbegin ≤ c.1
  high : lastPage c < mend / pgsize
  align : c.1 % 4 = 0
  last : h.pte (lastPage c) = some false
  cont : ∀ p, c.1 / pgsize ≤ p → p < lastPage c → h.pte p = some true
  start : c.1 / pgsize < lastPage c → c.1 % pgsize = 0

namespace ChunkOk

variable {h h' : Heap} {c d : ℕ × ℕ} {a p : ℕ}

theorem end_align (hc : ChunkOk h c) : chunkEnd c % 4 = 0 := by
  have ha := hc.align
  rw [chunkEnd, roundup_four hc.size]
  omega

theorem size_le (hc : ChunkOk h c) : c.1 + c.2 ≤ chunkEnd c := by
  rw [chunkEnd, roundup_four hc.size]
  omega

theorem end_page (hc : ChunkOk h c) :
    lastPage c * pgsize ≤ chunkEnd c ∧ chunkEnd c ≤ refAddr (lastPage c) := by
  have he := hc.end_align
  unfold lastPage refAddr pgsize
  omega

theorem first_le (c : ℕ × ℕ) : c.1 / pgsize ≤ lastPage c := by
  unfold lastPage chunkEnd
  exact Nat.div_le_div_right (by omega)

theorem owned (hc : ChunkOk h c) (ha : Owns c a) :
    h.pte (a / pgsize) = some true ∨ (a / pgsize = lastPage c ∧ a < refAddr (lastPage c)) := by
  obtain ⟨hlo, hhi⟩ := ha
  have hsz := hc.size_le
  have hend := hc.end_page
  have hfirst : c.1 / pgsize ≤ a / pgsize := Nat.div_le_div_right hlo
  rcases Nat.lt_or_ge (a / pgsize) (lastPage c) with hlt | hge
  · exact .inl (hc.cont _ hfirst hlt)
  · right
    unfold refAddr pgsize at *
    omega

theorem mapped (hc : ChunkOk h c) (ha : Owns c a) : (h.pte (a / pgsize)).isSome := by
  rcases hc.owned ha with hp | ⟨hp, -⟩
  · rw [hp]
    rfl
  · rw [hp, hc.last]
    rfl

theorem not_ref (hc : ChunkOk h c) (ha : Owns c a) (hp : h.pte p = some false) :
    a < refAddr p ∨ refAddr p + 4 ≤ a := by
  rcases hc.owned ha with ht | ⟨hpage, hlt⟩
  · have hne : a / pgsize ≠ p := by
      rintro rfl
      rw [hp] at ht
      cases ht
    unfold refAddr pgsize at *
    omega
  · unfold refAddr pgsize at *
    omega

theorem congr (hc : ChunkOk h c)
    (hpte : ∀ p, c.1 / pgsize ≤ p → p ≤ lastPage c → h'.pte p = h.pte p) : ChunkOk h' c where
  size := hc.size
  low := hc.low
  high := hc.high
  align := hc.align
  last := by rw [hpte _ (first_le c) (le_refl _), hc.last]
  cont := fun p hp hlt => by rw [hpte p hp hlt.le, hc.cont p hp hlt]
  start := hc.start

theorem page_mapped (hc : ChunkOk h c) (hp : c.1 / pgsize ≤ p) (hl : p ≤ lastPage c) :
    (h.pte p).isSome := by
  rcases Nat.lt_or_eq_of_le hl with hlt | rfl
  · rw [hc.cont p hp hlt]
    rfl
  · rw [hc.last]
    rfl

theorem cont_unique (hc : ChunkOk h c) (hd : ChunkOk h d) (hap : Apart c d)
    (hp : c.1 / pgsize ≤ p) (hlt : p < lastPage c) : p < d.1 / pgsize ∨ lastPage d < p := by
  by_contra hcon
  -- both chunks would cover the first byte of the page
  have hmark := hc.cont p hp hlt
  have hlast : p ≠ lastPage d := by
    rintro rfl
    rw [hd.last] at hmark
    cases hmark
  have hc0 := hc.start (by omega)
  have hd0 := hd.start (by omega)
  have hce := hc.end_page
  have hde := hd.end_page
  unfold Apart at hap
  unfold pgsize at *
  omega

end ChunkOk

/-! ### All chunks together -/

/-- The number of chunks that end in page `p`. -/
def endsIn (live : List (ℕ × ℕ)) (p : ℕ) : ℕ := live.countP fun c => lastPage c = p

/-- The chunks of `live` lie properly in the heap, and the reference word of a
page counts those that end in it, and `extra` more. -/
structure Chunks (h : Heap) (live : List (ℕ × ℕ)) (extra : ℕ → ℕ) : Prop where
  ok : ∀ c ∈ live, ChunkOk h c
  apart : live.Pairwise Apart
  refs : ∀ p, heapPage p → h.pte p = some false →
    endsIn live p + extra p ≤ rd32 h.mem (refAddr p)

/-- The bytes of the chunks have not changed. -/
def Heap.SameOn (live : List (ℕ × ℕ)) (h h' : Heap) : Prop :=
  ∀ c ∈ live, ∀ a, Owns c a → h'.mem a = h.mem a

theorem Heap.SameOn.trans {h' h'' : Heap} (h₁ : Heap.SameOn live h h') (h₂ : Heap.SameOn live h' h'') :
    Heap.SameOn live h h'' := by
  intro c hc a ha
  rw [h₂ c hc a ha, h₁ c hc a ha]

theorem refAddr_div {a : ℕ} (hlo : refAddr p ≤ a) (hhi : a < refAddr p + 4) : a / pgsize = p := by
  unfold refAddr pgsize at *
  omega

theorem refAddr_disjoint {q : ℕ} (h : p ≠ q) : refAddr q + 4 ≤ refAddr p ∨ refAddr p + 4 ≤ refAddr q := by
  unfold refAddr pgsize
  omega

theorem ChunkOk.heapPage (hc : ChunkOk h c) : heapPage (lastPage c) := by
  have hlow := Nat.div_le_div_right (c := pgsize) hc.low
  exact ⟨hlow.trans (ChunkOk.first_le c), hc.high⟩

namespace Chunks

variable {h h' : Heap} {live : List (ℕ × ℕ)} {extra : ℕ → ℕ} {c : ℕ × ℕ} {p k : ℕ}

theorem endsIn_eq_zero (hp : ∀ c ∈ live, lastPage c ≠ p) : endsIn live p = 0 := by
  rw [endsIn, List.countP_eq_zero]
  intro c hc
  simpa using hp c hc

theorem setMptr (hs : Chunks h live extra) (v : ℕ) : Chunks { h with mptr := v } live extra :=
  ⟨fun c hc => (hs.ok c hc).congr fun _ _ _ => rfl, hs.apart, hs.refs⟩

theorem forget (hs : Chunks h live extra) (hc : c ∈ live) :
    Chunks h (live.erase c) (update extra (lastPage c) (extra (lastPage c) + 1)) := by
  have hsub := List.erase_sublist (a := c) (l := live)
  refine ⟨fun d hd => hs.ok d (hsub.subset hd), hs.apart.sublist hsub, ?_⟩
  intro p hp hpte
  have hrefs := hs.refs p hp hpte
  have hcount : endsIn live p = endsIn (live.erase c) p + if lastPage c = p then 1 else 0 := by
    rw [endsIn, (List.perm_cons_erase hc).countP_eq, List.countP_cons, endsIn]
    simp
  by_cases hpc : lastPage c = p
  · subst hpc
    rw [if_pos rfl] at hcount
    rw [update_self]
    omega
  · rw [if_neg hpc] at hcount
    rw [update_of_ne (Ne.symm hpc)]
    omega

theorem apart_erase (hs : Chunks h live extra) (hc : c ∈ live) :
    ∀ d ∈ live.erase c, Apart c d := by
  have hperm := List.perm_cons_erase hc
  have hpair := (hperm.pairwise_iff fun h => Apart.symm h).mp hs.apart
  exact (List.pairwise_cons.mp hpair).1

theorem setRef (hs : Chunks h live extra) (hp : h.pte p = some false) {v : ℕ} (extra' : ℕ → ℕ)
    (hv : v < 2 ^ 32) (hle : endsIn live p + extra' p ≤ v) (hother : ∀ q ≠ p, extra' q = extra q) :
    Chunks { h with mem := wr32 h.mem (refAddr p) v } live extra' ∧
      Heap.SameOn live h { h with mem := wr32 h.mem (refAddr p) v } := by
  refine ⟨⟨fun d hd => (hs.ok d hd).congr fun _ _ _ => rfl, hs.apart, ?_⟩, ?_⟩
  · intro q hq hpte
    by_cases hqp : q = p
    · subst hqp
      rw [rd32_wr32, Nat.mod_eq_of_lt hv]
      exact hle
    · rw [rd32_wr32_of_disjoint _ _ (refAddr_disjoint (Ne.symm hqp)), hother q hqp]
      exact hs.refs q hq hpte
  · intro d hd a ha
    rcases (hs.ok d hd).not_ref ha hp with hlt | hge
    · exact wr32_of_lt _ _ hlt
    · exact wr32_of_ge _ _ hge

theorem unmap (hs : Chunks h live extra) (hmem : h'.mem = h.mem)
    (hpte : ∀ q, h'.pte q = h.pte q ∨
      (h'.pte q = none ∧ ∀ d ∈ live, q < d.1 / pgsize ∨ lastPage d < q)) :
    Chunks h' live extra := by
  refine ⟨fun d hd => (hs.ok d hd).congr fun q hq hl => ?_, hs.apart, ?_⟩
  · rcases hpte q with heq | ⟨-, hfree⟩
    · exact heq
    · have := hfree d hd
      omega
  · intro q hq hqp
    rw [hmem]
    rcases hpte q with heq | ⟨hnone, -⟩
    · exact hs.refs q hq (by rw [← heq, hqp])
    · rw [hnone] at hqp
      cases hqp

end Chunks

theorem Heap.sysPageUnmap_eq (h : Heap) (hp : heapPage p) :
    h.sysPageUnmap (p * pgsize) = { h with pte := update h.pte p none } := by
  obtain ⟨hlo, hhi⟩ := hp
  have hlt : p * pgsize < utop := by
    unfold mend pgsize at *
    rw [utop_eq]
    omega
  have hmod : p * pgsize % pgsize = 0 := Nat.mul_mod_left p pgsize
  have hdiv : p * pgsize / pgsize = p := Nat.mul_div_cancel p (by decide)
  rw [Heap.sysPageUnmap, if_neg (by omega), hdiv]

/-! ### `free` -/

section Free

variable {h : Heap} {live : List (ℕ × ℕ)} {extra : ℕ → ℕ} {c : ℕ × ℕ} {p k : ℕ}

theorem Heap.updRef_eq {v : ℕ → ℕ} (hp : h.pte p = some false) :
    h.updRef (refAddr p) v =
      some { h with mem := wr32 h.mem (refAddr p) (v (rd32 h.mem (refAddr p))) } := by
  have hdiv : refAddr p / pgsize = p := refAddr_div (le_refl _) (by omega)
  rw [Heap.updRef, hdiv, hp]
  rfl

theorem Heap.freePages_eq (hc : ChunkOk h c) :
    ∀ fuel p, c.1 / pgsize ≤ p → p ≤ lastPage c → lastPage c < p + fuel → ∀ h' : Heap,
      (∀ q, p ≤ q → h'.pte q = h.pte q) →
      freePages fuel (p * pgsize) h' = some (lastPage c * pgsize,
        { h' with pte := fun q => if p ≤ q ∧ q < lastPage c then none else h'.pte q }) := by
  intro fuel
  induction fuel with
  | zero =>
    intro p _ hle hlt
    omega
  | succ fuel ih =>
    intro p hp hle hlt h' hpte
    have hdiv : p * pgsize / pgsize = p := Nat.mul_div_cancel p (by decide)
    have hlow := Nat.div_le_div_right (c := pgsize) hc.low
    have hhigh := hc.high
    rw [Heap.freePages, hdiv, hpte p (le_refl p)]
    rcases Nat.lt_or_eq_of_le hle with hlast | rfl
    · rw [if_pos (hc.cont p hp hlast)]
      have hnext : add32 (p * pgsize) pgsize = (p + 1) * pgsize := by
        unfold add32
        unfold mend pgsize at *
        omega
      have hin : mbegin ≤ (p + 1) * pgsize ∧ (p + 1) * pgsize < mend := by
        unfold mbegin mend pgsize at *
        omega
      have hrest : (fun q => if p + 1 ≤ q ∧ q < lastPage c then none else
          update h'.pte p none q) =
          fun q => if p ≤ q ∧ q < lastPage c then none else h'.pte q := by
        funext q
        by_cases hqp : q = p
        · subst hqp
          rw [if_neg (by omega), if_pos ⟨le_refl q, hlast⟩, update_self]
        · rw [update_of_ne hqp]
          by_cases hq : p + 1 ≤ q ∧ q < lastPage c
          · rw [if_pos hq, if_pos ⟨by omega, hq.2⟩]
          · rw [if_neg hq, if_neg (by omega)]
      simp only [hnext]
      rw [if_pos hin, Heap.sysPageUnmap_eq _ ⟨by omega, by omega⟩,
        ih (p + 1) (by omega) hlast (by omega) _ fun q hq => ?_]
      · rw [hrest]
      · show update h'.pte p none q = _
        rw [update_of_ne (by omega), hpte q (by omega)]
    · rw [hc.last, if_neg (by decide)]
      have hempty : (fun q => if lastPage c ≤ q ∧ q < lastPage c then none else h'.pte q) = h'.pte := by
        funext q
        exact if_neg (by omega)
      rw [hempty]

/-- What `free` of a chunk leaves behind: its marked pages are gone, and one
reference to its last page, with the page if it was the only one. -/
def Heap.dropped (h : Heap) (c : ℕ × ℕ) : Heap where
  mptr := h.mptr
  pte := fun q =>
    if (c.1 / pgsize ≤ q ∧ q < lastPage c) ∨
      (q = lastPage c ∧ rd32 h.mem (refAddr (lastPage c)) = 1) then none
    else h.pte q
  mem := wr32 h.mem (refAddr (lastPage c)) (rd32 h.mem (refAddr (lastPage c)) - 1)

theorem Heap.dropRef_eq (hp : heapPage p) (hpte : h.pte p = some false)
    (href : 0 < rd32 h.mem (refAddr p)) :
    h.dropRef (p * pgsize) = some
      { h with
        pte := if rd32 h.mem (refAddr p) = 1 then update h.pte p none else h.pte
        mem := wr32 h.mem (refAddr p) (rd32 h.mem (refAddr p) - 1) } := by
  have hlt := rd32_lt h.mem (refAddr p)
  have haddr : p * pgsize + pgsize - 4 = refAddr p := by
    unfold refAddr pgsize
    omega
  have hdec : (rd32 h.mem (refAddr p) + (2 ^ 32 - 1)) % 2 ^ 32 = rd32 h.mem (refAddr p) - 1 := by
    omega
  rw [Heap.dropRef, haddr, Heap.updRef_eq hpte, hdec, Option.map_some, rd32_wr32]
  by_cases hone : rd32 h.mem (refAddr p) = 1
  · rw [if_pos (by omega), Heap.sysPageUnmap_eq _ hp, if_pos hone]
  · rw [if_neg (by omega), if_neg hone]

theorem Heap.free_eq (hok : ChunkOk h c) (href : 0 < rd32 h.mem (refAddr (lastPage c))) :
    h.free c.1 = some (h.dropped c) := by
  have hlow := hok.low
  have hend := hok.end_page
  have hhigh := hok.high
  have hlt : c.1 < mend := by
    have hle : c.1 ≤ chunkEnd c := Nat.le_add_right _ _
    unfold mend pgsize refAddr pgsize at *
    omega
  have hbase : rounddown c.1 pgsize = c.1 / pgsize * pgsize := by
    unfold rounddown pgsize
    omega
  rw [Heap.free, if_neg (by unfold mbegin at hlow; omega), if_pos ⟨hlow, hlt⟩, hbase,
    Heap.freePages_eq hok (mend / pgsize) (c.1 / pgsize) (le_refl _) (ChunkOk.first_le c)
      (hhigh.trans_le (Nat.le_add_left _ _)) h fun _ _ => rfl, Option.bind_some]
  have hlast : (fun q => if c.1 / pgsize ≤ q ∧ q < lastPage c then none else h.pte q) (lastPage c) =
      some false := (if_neg (by omega)).trans hok.last
  obtain ⟨pte, hpte⟩ : ∃ pte, pte = fun q =>
    if c.1 / pgsize ≤ q ∧ q < lastPage c then none else h.pte q := ⟨_, rfl⟩
  rw [← hpte] at hlast ⊢
  refine (Heap.dropRef_eq (h := { h with pte := pte }) hok.heapPage hlast href).trans ?_
  unfold Heap.dropped
  congr 2
  funext q
  simp only [hpte]
  by_cases hone : rd32 h.mem (refAddr (lastPage c)) = 1
  · rw [if_pos hone]
    by_cases hq : q = lastPage c
    · rw [hq, update_self, if_pos (.inr ⟨rfl, hone⟩)]
    · rw [update_of_ne hq]
      exact if_congr (by simp [hq]) rfl rfl
  · rw [if_neg hone]
    exact if_congr (by simp [hone]) rfl rfl

/-- What giving up one reference to page `p` leaves behind. -/
structure Dropped (h : Heap) (live : List (ℕ × ℕ)) (extra : ℕ → ℕ) (p : ℕ) (h' : Heap) : Prop where
  chunks : Chunks h' live extra
  same : Heap.SameOn live h h'
  other : ∀ q ≠ p, h.pte q = some false → h'.pte q = some false
  page : h'.pte p = some false ∨ endsIn live p + extra p = 0

theorem Chunks.free (hs : Chunks h live extra) (hc : c ∈ live) :
    h.free c.1 = some (h.dropped c) ∧
      Dropped h (live.erase c) extra (lastPage c) (h.dropped c) := by
  have hok := hs.ok c hc
  have hs₁ := hs.forget hc
  have hrefs := hs₁.refs _ hok.heapPage hok.last
  rw [update_self] at hrefs
  have hlt := rd32_lt h.mem (refAddr (lastPage c))
  obtain ⟨hs₂, hsame⟩ := hs₁.setRef (v := rd32 h.mem (refAddr (lastPage c)) - 1) hok.last extra
    (by omega) (by omega) fun q hq => (update_of_ne hq _ _).symm
  refine ⟨Heap.free_eq hok (by omega), hs₂.unmap rfl fun q => ?_, hsame, fun q hq hqp => ?_, ?_⟩
  · -- the other chunks have no byte in the pages that go
    by_cases hq : (c.1 / pgsize ≤ q ∧ q < lastPage c) ∨
      (q = lastPage c ∧ rd32 h.mem (refAddr (lastPage c)) = 1)
    swap
    · exact .inl (if_neg hq)
    refine .inr ⟨if_pos hq, fun d hd => ?_⟩
    have hd' := hs₁.ok d hd
    rcases hq with hq | ⟨rfl, hone⟩
    · exact hok.cont_unique hd' (hs.apart_erase hc d hd) hq.1 hq.2
    · have hends : endsIn (live.erase c) (lastPage c) = 0 := by omega
      have hlast : lastPage d ≠ lastPage c := by
        simpa using List.countP_eq_zero.mp hends d hd
      by_contra hcon
      have hmark := hd'.cont (lastPage c) (by omega) (by omega)
      rw [hok.last] at hmark
      cases hmark
  · refine (if_neg ?_).trans hqp
    rintro (⟨hge, hlt⟩ | ⟨rfl, -⟩)
    · rw [hok.cont q hge hlt] at hqp
      cases hqp
    · exact hq rfl
  · by_cases hone : rd32 h.mem (refAddr (lastPage c)) = 1
    · exact .inr (by omega)
    · refine .inl ((if_neg ?_).trans hok.last)
      rintro (hlt | ⟨-, hcon⟩)
      · omega
      · exact hone hcon

end Free

/-! ### Looking for room -/

section Search

variable {h : Heap} {n : ℕ}

theorem Heap.isfreeLoop_free {endVa : ℕ} (hend : endVa + pgsize ≤ 2 ^ 32) :
    ∀ fuel p, endVa ≤ (p + fuel) * pgsize → h.isfreeLoop endVa fuel (p * pgsize) = true →
      ∀ q, p ≤ q → q * pgsize < endVa → q < mend / pgsize ∧ h.pte q = none := by
  intro fuel
  induction fuel with
  | zero =>
    intro p hle _ q hq hlt
    unfold pgsize at *
    omega
  | succ fuel ih =>
    intro p hle hfree q hq hlt
    have hdiv : p * pgsize / pgsize = p := Nat.mul_div_cancel p (by decide)
    have hva : p * pgsize < endVa := Nat.lt_of_le_of_lt (Nat.mul_le_mul_right _ hq) hlt
    rw [Heap.isfreeLoop, if_pos hva, hdiv] at hfree
    split at hfree
    · cases hfree
    · next hpage =>
      have hnext : add32 (p * pgsize) pgsize = (p + 1) * pgsize := by
        unfold add32
        unfold pgsize at *
        omega
      rw [hnext] at hfree
      rcases Nat.lt_or_eq_of_le hq with hlt' | rfl
      · exact ih (p + 1) (by rwa [show p + 1 + fuel = p + (fuel + 1) by omega]) hfree q hlt' hlt
      · refine ⟨?_, ?_⟩
        · have : p * pgsize < mend := by omega
          unfold mend pgsize at *
          omega
        · cases hpte : h.pte p with
          | none => rfl
          | some b => exact absurd (.inr (by rw [hpte]; rfl)) hpage

theorem Heap.isfree_free (hn : n < 2 ^ 30) (hp : p < mend / pgsize) (hfree : h.isfree (p * pgsize) n = true) :
    ∀ q, p ≤ q → q * pgsize < p * pgsize + n → q < mend / pgsize ∧ h.pte q = none := by
  have hend : add32 (p * pgsize) n = p * pgsize + n := by
    unfold add32
    unfold mend pgsize at *
    omega
  rw [Heap.isfree, hend] at hfree
  refine Heap.isfreeLoop_free ?_ _ p ?_ hfree
  · unfold mend pgsize at *
    omega
  · unfold pgsize
    omega

theorem Heap.search_spec :
    ∀ fuel nwrap p, mbegin / pgsize ≤ p → p < mend / pgsize → nwrap < 2 →
      (2 - nwrap) * (mend / pgsize) < fuel + p →
      h.search n fuel nwrap (p * pgsize) = some (false, mbegin) ∨
      ∃ q, heapPage q ∧ h.search n fuel nwrap (p * pgsize) = some (true, q * pgsize) ∧
        h.isfree (q * pgsize) n = true := by
  intro fuel
  induction fuel with
  | zero =>
    intro nwrap p _ hhi hw hfuel
    have : mend / pgsize ≤ (2 - nwrap) * (mend / pgsize) := Nat.le_mul_of_pos_left _ (by omega)
    omega
  | succ fuel ih =>
    intro nwrap p hlo hhi hw hfuel
    rw [Heap.search]
    have hnext : add32 (p * pgsize) pgsize = (p + 1) * pgsize := by
      unfold add32
      unfold mend pgsize at *
      omega
    by_cases hfree : h.isfree (p * pgsize) n = true
    · rw [if_pos hfree]
      exact .inr ⟨p, ⟨hlo, hhi⟩, rfl, hfree⟩
    · rw [if_neg hfree, hnext]
      by_cases hend : (p + 1) * pgsize = mend
      · rw [if_pos hend]
        by_cases hw1 : nwrap + 1 = 2
        · rw [if_pos hw1]
          exact .inl rfl
        · -- back to `mbegin`
          have hw0 : nwrap = 0 := by omega
          subst hw0
          rw [if_neg hw1, show mbegin = mbegin / pgsize * pgsize from rfl]
          refine ih 1 (mbegin / pgsize) (le_refl _) (by decide) (by omega) ?_
          have hp : p + 1 = mend / pgsize := by
            unfold mend pgsize at *
            omega
          have hval : mend / pgsize = 65536 := rfl
          have hval' : mbegin / pgsize = 32768 := rfl
          omega
      · rw [if_neg hend]
        refine ih nwrap (p + 1) (by omega) ?_ hw (by omega)
        unfold mend pgsize at *
        omega

end Search

/-! ### Allocating pages -/

section Alloc

variable {h : Heap} {n base : ℕ}

/-- The number of pages for `n` bytes and a reference word. -/
def pagesFor (n : ℕ) : ℕ := (n + 3) / pgsize + 1

/-- The first `k` of the pages for a chunk at page `base` have been allocated;
all of them but the last one get the mark. -/
structure Grown (h : Heap) (base n k : ℕ) (h' : Heap) : Prop where
  mptr : h'.mptr = h.mptr
  pte : ∀ q, h'.pte q =
    if base ≤ q ∧ q < base + k then some (decide (q + 1 < base + pagesFor n)) else h.pte q
  mem : ∀ a, a / pgsize < base ∨ base + pagesFor n ≤ a / pgsize → h'.mem a = h.mem a

theorem Grown.next {k : ℕ} {h' : Heap} (hg : Grown h base n k h') (hbase : h.mptr = base * pgsize)
    (hk : k < pagesFor n) (hhi : base + pagesFor n ≤ mend / pgsize) {ok : Bool} {h'' : Heap}
    (ha : h'.sysPageAlloc (add32 h'.mptr (k * pgsize)) (k * pgsize + pgsize < n + 4) ok = some h'') :
    Grown h base n (k + 1) h'' := by
  have hva : add32 h'.mptr (k * pgsize) = (base + k) * pgsize := by
    rw [hg.mptr, hbase]
    unfold add32
    unfold mend pgsize at *
    omega
  have hdiv : (base + k) * pgsize / pgsize = base + k := Nat.mul_div_cancel _ (by decide)
  have hcont : (k * pgsize + pgsize < n + 4) ↔ base + k + 1 < base + pagesFor n := by
    unfold pagesFor pgsize
    omega
  rw [Heap.sysPageAlloc, hva, hdiv] at ha
  split at ha
  · cases ha
  cases ha
  refine ⟨hg.mptr, fun q => ?_, fun a ha => ?_⟩
  · show update h'.pte (base + k) _ q = _
    by_cases hq : q = base + k
    · subst hq
      rw [update_self, if_pos (by omega), decide_eq_decide.mpr hcont]
    · rw [update_of_ne hq, hg.pte q]
      by_cases hin : base ≤ q ∧ q < base + k
      · rw [if_pos hin, if_pos (by omega)]
      · rw [if_neg hin, if_neg (by omega)]
  · show (if a / pgsize = base + k then _ else _) = _
    rw [if_neg (by omega), hg.mem a ha]

theorem unmapDown_pte :
    ∀ k (h' : Heap), h'.mptr = base * pgsize → mbegin / pgsize ≤ base →
      base + k < mend / pgsize →
      (h'.unmapDown k).mptr = h'.mptr ∧ (h'.unmapDown k).mem = h'.mem ∧
        ∀ q, (h'.unmapDown k).pte q = if base ≤ q ∧ q ≤ base + k then none else h'.pte q := by
  intro k
  induction k with
  | zero =>
    intro h' hm hlo hlt
    rw [Heap.unmapDown, hm, Heap.sysPageUnmap_eq _ ⟨hlo, by omega⟩]
    refine ⟨hm.symm ▸ rfl, rfl, fun q => ?_⟩
    show update h'.pte base none q = _
    by_cases hq : q = base
    · subst hq
      rw [update_self, if_pos (by omega)]
    · rw [update_of_ne hq, if_neg (by omega)]
  | succ k ih =>
    intro h' hm hlo hlt
    have hva : add32 h'.mptr ((k + 1) * pgsize) = (base + (k + 1)) * pgsize := by
      rw [hm]
      unfold add32
      unfold mend pgsize at *
      omega
    rw [Heap.unmapDown, hva, Heap.sysPageUnmap_eq _ ⟨by omega, hlt⟩]
    obtain ⟨hmptr, hmem, hpte⟩ :=
      ih { h' with pte := update h'.pte (base + (k + 1)) none } hm hlo (by omega)
    refine ⟨hmptr, hmem, fun q => ?_⟩
    rw [hpte q]
    show (if _ then _ else update h'.pte (base + (k + 1)) none q) = _
    by_cases hq : q = base + (k + 1)
    · subst hq
      rw [update_self, ite_self, if_pos (by omega)]
    · rw [update_of_ne hq]
      by_cases hin : base ≤ q ∧ q ≤ base + k
      · rw [if_pos hin, if_pos (by omega)]
      · rw [if_neg hin, if_neg (by omega)]

theorem allocPages_spec (hbase : h.mptr = base * pgsize) (hlo : mbegin / pgsize ≤ base)
    (hhi : base + pagesFor n ≤ mend / pgsize)
    (hnone : ∀ q, base ≤ q → q < base + pagesFor n → h.pte q = none) (ok : ℕ → Bool) :
    ∀ fuel k h', k ≤ pagesFor n → pagesFor n ≤ k + fuel → Grown h base n k h' →
      (∃ h'', Heap.allocPages n ok fuel k h' = (some (pagesFor n), h'') ∧
        Grown h base n (pagesFor n) h'') ∨
      ∃ h'', Heap.allocPages n ok fuel k h' = (none, h'') ∧ Grown h base n 0 h'' := by
  intro fuel
  induction fuel with
  | zero =>
    intro k h' hk hfuel hg
    have : k = pagesFor n := by omega
    subst this
    exact .inl ⟨h', rfl, hg⟩
  | succ fuel ih =>
    intro k h' hk hfuel hg
    rw [Heap.allocPages]
    have hmore : k * pgsize < n + 4 ↔ k < pagesFor n := by
      unfold pagesFor pgsize
      omega
    by_cases hlt : k < pagesFor n
    · rw [if_pos (hmore.mpr hlt)]
      cases ha : h'.sysPageAlloc (add32 h'.mptr (k * pgsize)) (k * pgsize + pgsize < n + 4) (ok k) with
      | some h'' => exact ih (k + 1) h'' hlt (by omega) (hg.next hbase hlt hhi ha)
      | none =>
        right
        obtain ⟨hmptr, hmem, hpte⟩ :=
          unmapDown_pte k h' (hg.mptr.trans hbase) hlo (by omega)
        refine ⟨_, rfl, hmptr.trans hg.mptr, fun q => ?_, fun a ha => ?_⟩
        · have hempty : ¬ (base ≤ q ∧ q < base + 0) := by omega
          rw [hpte q, if_neg hempty]
          by_cases hin : base ≤ q ∧ q ≤ base + k
          · rw [if_pos hin, hnone q hin.1 (by omega)]
          · rw [if_neg hin, hg.pte q, if_neg (by omega)]
        · rw [hmem, hg.mem a ha]
    · have : k = pagesFor n := by omega
      subst this
      rw [if_neg (by omega)]
      exact .inl ⟨h', rfl, hg⟩

/-- What `malloc` does when the chunk needs pages of its own: it gives up, or
there are new pages, from page `q` on. -/
inductive Paged (h : Heap) (n : ℕ) : ℕ → Heap → Prop where
  | refused {h' : Heap} {q : ℕ} (page : heapPage q) (mptr : h'.mptr = q * pgsize)
      (pte : ∀ p, h'.pte p = h.pte p)
      (mem : ∀ a, (h.pte (a / pgsize)).isSome → h'.mem a = h.mem a) : Paged h n 0 h'
  | opened {h' : Heap} {q : ℕ} (low : mbegin / pgsize ≤ q)
      (high : q + pagesFor n ≤ mend / pgsize)
      (room : ∀ p, q ≤ p → p < q + pagesFor n → h.pte p = none)
      (grown : Grown { h with mptr := q * pgsize } q n (pagesFor n) h') :
      Paged h n (q * pgsize)
        { h' with
          mem := wr32 h'.mem (refAddr (q + (n + 3) / pgsize)) 2
          mptr := q * pgsize + n }

theorem Heap.mallocPages_spec (hbase : h.mptr = base * pgsize) (hpage : heapPage base)
    (hmax : n < maxmalloc) (ok : ℕ → Bool) :
    ∃ v h', h.mallocPages n ok = some (v, h') ∧ Paged h n v h' := by
  have hsmall : n + 4 < 2 ^ 30 := by
    unfold maxmalloc at hmax
    omega
  rw [Heap.mallocPages, hbase]
  rcases Heap.search_spec (h := h) (n := n + 4) (2 ^ 21) 0 base hpage.1 hpage.2 (by omega)
    (by have : mend / pgsize = 65536 := rfl; omega) with hsearch | ⟨q, hq, hsearch, hfree⟩
  · rw [hsearch]
    exact ⟨0, _, rfl, .refused (q := mbegin / pgsize) ⟨le_refl _, by decide⟩ rfl (fun _ => rfl)
      fun _ _ => rfl⟩
  · rw [hsearch]
    simp only
    have hroom := Heap.isfree_free hsmall hq.2 hfree
    have hnone : ∀ p, q ≤ p → p < q + pagesFor n → h.pte p = none := by
      intro p hp hlt
      refine (hroom p hp ?_).2
      unfold pagesFor pgsize at *
      omega
    have hhi : q + pagesFor n ≤ mend / pgsize := by
      have hlast := (hroom (q + (n + 3) / pgsize) (Nat.le_add_right _ _) ?_).1
      · unfold pagesFor
        omega
      · unfold pgsize
        omega
    have hstart : Grown { h with mptr := q * pgsize } q n 0 { h with mptr := q * pgsize } :=
      ⟨rfl, fun p => by rw [if_neg (by omega)], fun _ _ => rfl⟩
    rcases allocPages_spec (h := { h with mptr := q * pgsize }) (n := n) rfl hq.1 hhi hnone ok
      (n / pgsize + 2) 0 _ (Nat.zero_le _) (by unfold pagesFor pgsize; omega) hstart with
      ⟨h₁, heq, hg⟩ | ⟨h₁, heq, hg⟩
    · rw [heq]
      simp only
      have hm₁ : h₁.mptr = q * pgsize := hg.mptr
      have haddr : add32 (q * pgsize) (pagesFor n * pgsize) - 4 = refAddr (q + (n + 3) / pgsize) := by
        unfold add32 refAddr pagesFor at *
        unfold mend pgsize at *
        omega
      have hmptr : add32 (q * pgsize) n = q * pgsize + n := by
        obtain ⟨-, hqhi⟩ := hq
        unfold add32
        unfold mend pgsize at *
        omega
      have hlast : h₁.pte (q + (n + 3) / pgsize) = some false := by
        have hpages : pagesFor n = (n + 3) / pgsize + 1 := rfl
        obtain ⟨L, hL⟩ : ∃ L, (n + 3) / pgsize = L := ⟨_, rfl⟩
        rw [hL] at hpages ⊢
        rw [hg.pte, if_pos (by omega), decide_eq_false (by omega)]
      rw [hm₁, haddr, Heap.updRef_eq hlast]
      refine ⟨q * pgsize, _, ?_, .opened hq.1 hhi hnone hg⟩
      simp only [Option.map_some, hm₁, hmptr]
    · rw [heq]
      refine ⟨0, h₁, rfl, .refused hq hg.mptr (fun p => ?_) fun a ha => hg.mem a ?_⟩
      · rw [hg.pte p, if_neg (by omega)]
      · by_contra hcon
        rw [hnone _ (by omega) (by omega)] at ha
        cases ha

end Alloc

/-! ### The invariant -/

/-- The reference of `mptr` to the page it is in the middle of. -/
def Heap.held (h : Heap) (p : ℕ) : ℕ := if h.mptr % pgsize ≠ 0 ∧ h.mptr / pgsize = p then 1 else 0

structure HeapInv (h : Heap) (live : List (ℕ × ℕ)) : Prop where
  chunks : Chunks h live h.held
  mptr : h.mptr = 0 ∨ (mbegin ≤ h.mptr ∧ h.mptr < mend)
  align : h.mptr % 4 = 0
  page : h.mptr % pgsize ≠ 0 → h.pte (h.mptr / pgsize) = some false
  below : h.mptr % pgsize ≠ 0 → ∀ c ∈ live, lastPage c = h.mptr / pgsize → chunkEnd c ≤ h.mptr

/-- What `malloc(n)` leaves behind when it returns `v`. -/
structure Malloced (h : Heap) (live : List (ℕ × ℕ)) (n v : ℕ) (h' : Heap) : Prop where
  inv : HeapInv h' (if v = 0 then live else (v, n) :: live)
  same : Heap.SameOn live h h'

section Malloc

variable {h h' : Heap} {live : List (ℕ × ℕ)} {n₀ base : ℕ}

theorem Heap.held_of_aligned (h0 : h.mptr % pgsize = 0) : h.held = fun _ => 0 := by
  funext p
  exact if_neg fun hcon => hcon.1 h0

theorem HeapInv.of_aligned (hs : Chunks h live fun _ => 0) (h0 : h.mptr % pgsize = 0)
    (hlo : mbegin ≤ h.mptr) (hhi : h.mptr < mend) : HeapInv h live where
  chunks := by rwa [Heap.held_of_aligned h0]
  mptr := .inr ⟨hlo, hhi⟩
  align := by
    unfold pgsize at h0
    omega
  page := fun hne => absurd h0 hne
  below := fun hne => absurd h0 hne

theorem Chunks.not_in {extra : ℕ → ℕ} (hs : Chunks h live extra) {lo hi : ℕ}
    (hnone : ∀ q, lo ≤ q → q < hi → h.pte q = none) {d : ℕ × ℕ} (hd : d ∈ live) :
    lastPage d < lo ∨ hi ≤ d.1 / pgsize ∨ hi ≤ lo := by
  have hmap := (hs.ok d hd).page_mapped (p := d.1 / pgsize) (le_refl _) (ChunkOk.first_le d)
  by_contra hcon
  rcases Nat.lt_or_ge (d.1 / pgsize) lo with hlt | hge
  · have hlo := (hs.ok d hd).page_mapped (p := lo) hlt.le (by omega)
    rw [hnone lo (le_refl _) (by omega)] at hlo
    cases hlo
  · rw [hnone _ hge (by omega)] at hmap
    cases hmap

theorem lastPage_base (base n₀ : ℕ) :
    lastPage (base * pgsize, n₀) = base + (roundup n₀ 4 + 3) / pgsize := by
  show (base * pgsize + roundup n₀ 4 + 3) / pgsize = _
  unfold pgsize
  omega

theorem Grown.chunkOk (hn₀ : n₀ ≤ 2 ^ 32 - 4) (hlo : mbegin / pgsize ≤ base)
    (hhi : base + pagesFor (roundup n₀ 4) ≤ mend / pgsize)
    (hg : Grown h base (roundup n₀ 4) (pagesFor (roundup n₀ 4)) h') :
    ChunkOk h' (base * pgsize, n₀) := by
  have hlast := lastPage_base base n₀
  have hpages : pagesFor (roundup n₀ 4) = (roundup n₀ 4 + 3) / pgsize + 1 := rfl
  obtain ⟨L, hL⟩ : ∃ L, (roundup n₀ 4 + 3) / pgsize = L := ⟨_, rfl⟩
  rw [hL] at hlast hpages
  have hdiv : base * pgsize / pgsize = base := Nat.mul_div_cancel _ (by decide)
  refine ⟨hn₀, ?_, ?_, ?_, ?_, fun p hp hlt => ?_, fun _ => Nat.mul_mod_left _ _⟩
  · show mbegin ≤ base * pgsize
    unfold mbegin pgsize at *
    omega
  · rw [hlast]
    omega
  · show base * pgsize % 4 = 0
    unfold pgsize
    omega
  · rw [hlast, hg.pte, if_pos (by omega), decide_eq_false (by omega)]
  · rw [hlast] at hlt
    rw [show (base * pgsize, n₀).1 = base * pgsize from rfl, hdiv] at hp
    rw [hg.pte, if_pos (by omega), decide_eq_true (by omega)]

theorem Grown.chunk (hs : Chunks h live fun _ => 0) (hn₀ : n₀ ≤ 2 ^ 32 - 4)
    (hlo : mbegin / pgsize ≤ base) (hhi : base + pagesFor (roundup n₀ 4) ≤ mend / pgsize)
    (hnone : ∀ q, base ≤ q → q < base + pagesFor (roundup n₀ 4) → h.pte q = none)
    (hg : Grown h base (roundup n₀ 4) (pagesFor (roundup n₀ 4)) h') :
    Malloced h live n₀ (base * pgsize)
      { h' with
        mem := wr32 h'.mem (refAddr (base + (roundup n₀ 4 + 3) / pgsize)) 2
        mptr := base * pgsize + roundup n₀ 4 } := by
  have hnew := hg.chunkOk hn₀ hlo hhi
  have hlast := lastPage_base base n₀
  have hend := hnew.end_page
  have halign := hnew.end_align
  have hhigh := hnew.high
  have hmptr : chunkEnd (base * pgsize, n₀) = base * pgsize + roundup n₀ 4 := rfl
  have hpages : pagesFor (roundup n₀ 4) = (roundup n₀ 4 + 3) / pgsize + 1 := rfl
  obtain ⟨L, hL⟩ : ∃ L, (roundup n₀ 4 + 3) / pgsize = L := ⟨_, rfl⟩
  rw [hL] at hlast hpages ⊢
  rw [hlast, hmptr] at hend
  rw [hmptr] at halign
  rw [hlast] at hhigh
  -- the other chunks are elsewhere
  have hother : ∀ d ∈ live, lastPage d < base ∨
      base + pagesFor (roundup n₀ 4) ≤ d.1 / pgsize := by
    intro d hd
    have := hs.not_in hnone hd
    omega
  have hpte : ∀ q, q < base ∨ base + pagesFor (roundup n₀ 4) ≤ q → h'.pte q = h.pte q := by
    intro q hq
    rw [hg.pte q, if_neg (by omega)]
  have hends : endsIn live (base + L) = 0 := by
    refine Chunks.endsIn_eq_zero fun d hd => ?_
    have h₁ := hother d hd
    have h₂ := ChunkOk.first_le d
    omega
  have hne0 : base * pgsize ≠ 0 := by
    unfold mbegin pgsize at *
    omega
  refine ⟨?_, ?_⟩
  · rw [if_neg hne0]
    refine ⟨⟨?_, ?_, ?_⟩, .inr ?_, ?_, ?_, ?_⟩
    · intro d hd
      rcases List.mem_cons.mp hd with rfl | hd
      · exact hnew.congr fun _ _ _ => rfl
      · refine (hs.ok d hd).congr fun q hq hql => hpte q ?_
        have := hother d hd
        omega
    · refine List.pairwise_cons.mpr ⟨fun d hd => ?_, hs.apart⟩
      have hde := (hs.ok d hd).end_page
      have h₁ := hother d hd
      show chunkEnd (base * pgsize, n₀) ≤ d.1 ∨ chunkEnd d ≤ base * pgsize
      rw [hmptr]
      unfold refAddr pgsize at *
      omega
    · intro p hp hpp
      by_cases hpl : p = base + L
      · subst hpl
        rw [rd32_wr32, endsIn, List.countP_cons, ← endsIn, hends, if_pos (by simp [hlast])]
        unfold Heap.held
        split <;> simp
      · -- a page of before
        have hout : p < base ∨ base + pagesFor (roundup n₀ 4) ≤ p := by
          by_contra hcon
          have hpp : h'.pte p = some false := hpp
          rw [hg.pte p, if_pos (by omega), decide_eq_true (by omega)] at hpp
          cases hpp
        have hold := hs.refs p hp (by rw [← hpte p hout]; exact hpp)
        have hheld : Heap.held
            { h' with
              mem := wr32 h'.mem (refAddr (base + L)) 2
              mptr := base * pgsize + roundup n₀ 4 } p = 0 := by
          refine if_neg fun hcon => hpl ?_
          have hdiv : (base * pgsize + roundup n₀ 4) / pgsize = p := hcon.2
          unfold refAddr pgsize at *
          omega
        rw [rd32_wr32_of_disjoint _ _ (refAddr_disjoint (Ne.symm hpl)), hheld, endsIn,
          List.countP_cons, if_neg (by simp [hlast, Ne.symm hpl]), ← endsIn]
        refine hold.trans (le_of_eq (rd32_congr fun b hb hb' => ?_))
        rw [hg.mem b (by rw [refAddr_div hb hb']; exact hout)]
    · show mbegin ≤ base * pgsize + roundup n₀ 4 ∧ base * pgsize + roundup n₀ 4 < mend
      unfold mbegin mend refAddr pgsize at *
      omega
    · exact halign
    · intro hmid
      have hdiv : (base * pgsize + roundup n₀ 4) / pgsize = base + L := by
        unfold refAddr pgsize at *
        omega
      show h'.pte ((base * pgsize + roundup n₀ 4) / pgsize) = some false
      rw [hdiv, ← hlast]
      exact hnew.last
    · intro hmid d hd hdl
      have hdiv : (base * pgsize + roundup n₀ 4) / pgsize = base + L := by
        unfold refAddr pgsize at *
        omega
      rcases List.mem_cons.mp hd with rfl | hd
      · exact le_refl _
      · have h₁ := hother d hd
        have h₂ := ChunkOk.first_le d
        have hdl : lastPage d = (base * pgsize + roundup n₀ 4) / pgsize := hdl
        omega
  · intro d hd a ha
    have hmapped := (hs.ok d hd).mapped ha
    have hout : a / pgsize < base ∨ base + pagesFor (roundup n₀ 4) ≤ a / pgsize := by
      by_contra hcon
      rw [hnone _ (by omega) (by omega)] at hmapped
      cases hmapped
    show wr32 h'.mem _ 2 a = _
    rcases Nat.lt_or_ge a (refAddr (base + L)) with hlt | hge
    · rw [wr32_of_lt _ _ hlt, hg.mem a hout]
    · have hge' : refAddr (base + L) + 4 ≤ a := by
        by_contra hcon
        have hdiv := refAddr_div hge (by omega)
        omega
      rw [wr32_of_ge _ _ hge', hg.mem a hout]

theorem Paged.malloced {v : ℕ} (hp : Paged h (roundup n₀ 4) v h') (hs : Chunks h live fun _ => 0)
    (hn₀ : n₀ ≤ 2 ^ 32 - 4) : Malloced h live n₀ v h' := by
  cases hp with
  | refused page mptr pte mem =>
    have hs' : Chunks h' live fun _ => 0 := by
      refine ⟨fun d hd => (hs.ok d hd).congr fun p _ _ => pte p, hs.apart, fun p hp hpp => ?_⟩
      rw [pte p] at hpp
      refine (hs.refs p hp hpp).trans (le_of_eq (rd32_congr fun b hb hb' => (mem b ?_).symm))
      rw [refAddr_div hb hb', hpp]
      rfl
    refine ⟨?_, fun d hd a ha => mem a ((hs.ok d hd).mapped ha)⟩
    rw [if_pos rfl]
    obtain ⟨hlo, hhi⟩ := page
    refine .of_aligned hs' (by rw [mptr, Nat.mul_mod_left]) ?_ ?_
    · rw [mptr]
      unfold mbegin pgsize at *
      omega
    · rw [mptr]
      unfold mend pgsize at *
      omega
  | @opened _ q low high room grown =>
    have hdone := grown.chunk (hs.setMptr (q * pgsize)) hn₀ low high room
    exact ⟨hdone.inv, hdone.same⟩

theorem HeapInv.here (hi : HeapInv h live) (hlo : mbegin ≤ h.mptr) (hhi : h.mptr < mend)
    (hmid : h.mptr % pgsize ≠ 0) (hn₀ : n₀ ≤ 2 ^ 32 - 4)
    (hlast : lastPage (h.mptr, n₀) = h.mptr / pgsize) :
    ChunkOk h (h.mptr, n₀) ∧ ∀ d ∈ live, Apart (h.mptr, n₀) d := by
  have hpage := hi.page hmid
  have hnew : ChunkOk h (h.mptr, n₀) := by
    refine ⟨hn₀, hlo, ?_, hi.align, ?_, fun p hp hlt => ?_, fun hlt => ?_⟩
    · rw [hlast]
      unfold mend pgsize at *
      omega
    · rw [hlast, hpage]
    · rw [hlast] at hlt
      have hp : h.mptr / pgsize ≤ p := hp
      omega
    · rw [hlast] at hlt
      exact absurd hlt (lt_irrefl _)
  have hend := hnew.end_page
  rw [hlast] at hend
  refine ⟨hnew, fun d hd => ?_⟩
  -- the new chunk starts behind the others of the page
  have hd' := hi.chunks.ok d hd
  have hde := hd'.end_page
  by_cases hdl : lastPage d = h.mptr / pgsize
  · exact .inr (hi.below hmid d hd hdl)
  · have hout : lastPage d < h.mptr / pgsize ∨ h.mptr / pgsize < d.1 / pgsize := by
      by_contra hcon
      have hmark := hd'.cont (h.mptr / pgsize) (by omega) (by omega)
      rw [hpage] at hmark
      cases hmark
    show chunkEnd (h.mptr, n₀) ≤ d.1 ∨ chunkEnd d ≤ h.mptr
    unfold refAddr pgsize at *
    omega

theorem endsIn_cons (c : ℕ × ℕ) (live : List (ℕ × ℕ)) (p : ℕ) :
    endsIn (c :: live) p = endsIn live p + if lastPage c = p then 1 else 0 := by
  simp [endsIn, List.countP_cons]

theorem lastPage_mptr (halign : h.mptr % 4 = 0) : lastPage (h.mptr, 0) = h.mptr / pgsize := by
  show (h.mptr + 0 + 3) / pgsize = _
  unfold pgsize
  omega

theorem Heap.held_eq (halign : h.mptr % 4 = 0) (hmid : h.mptr % pgsize ≠ 0) (p : ℕ) :
    endsIn ((h.mptr, 0) :: live) p = endsIn live p + h.held p := by
  rw [endsIn_cons, lastPage_mptr halign, Heap.held]
  simp only [hmid, ne_eq, not_false_eq_true, true_and]

theorem HeapInv.current (hi : HeapInv h live) (hlo : mbegin ≤ h.mptr) (hhi : h.mptr < mend)
    (hmid : h.mptr % pgsize ≠ 0) : Chunks h ((h.mptr, 0) :: live) fun _ => 0 := by
  obtain ⟨hok, hapart⟩ := hi.here hlo hhi hmid (Nat.zero_le _) (lastPage_mptr hi.align)
  refine ⟨?_, List.pairwise_cons.mpr ⟨hapart, hi.chunks.apart⟩, fun p hp hpte => ?_⟩
  · intro d hd
    rcases List.mem_cons.mp hd with rfl | hd
    · exact hok
    · exact hi.chunks.ok d hd
  · rw [Heap.held_eq hi.align hmid]
    exact hi.chunks.refs p hp hpte

/-- What `malloc` does: it refuses, the chunk fits into the current page, or it
needs pages of its own, and then the current page is left behind. -/
inductive MallocCases (h : Heap) (n₀ : ℕ) : ℕ → Heap → Prop where
  | refused : MallocCases h n₀ 0 h
  | here (mid : h.mptr % pgsize ≠ 0) (last : lastPage (h.mptr, n₀) = h.mptr / pgsize)
      (count : rd32 h.mem (refAddr (h.mptr / pgsize)) < 2 ^ 32 - 1) :
      MallocCases h n₀ h.mptr
        { h with
          mem := wr32 h.mem (refAddr (h.mptr / pgsize)) (rd32 h.mem (refAddr (h.mptr / pgsize)) + 1)
          mptr := chunkEnd (h.mptr, n₀) }
  | pages {v : ℕ} {h' : Heap} (bound : h.mptr % pgsize = 0) (paged : Paged h (roundup n₀ 4) v h') :
      MallocCases h n₀ v h'
  | leave {v : ℕ} {h' : Heap} (mid : h.mptr % pgsize ≠ 0)
      (paged : Paged { h.dropped (h.mptr, 0) with mptr := (h.mptr / pgsize + 1) * pgsize }
        (roundup n₀ 4) v h') : MallocCases h n₀ v h'

theorem HeapInv.mallocHere (hi : HeapInv h live) (hlo : mbegin ≤ h.mptr) (hhi : h.mptr < mend)
    (hmid : h.mptr % pgsize ≠ 0) (hn₀ : n₀ ≤ 2 ^ 32 - 4)
    (hlast : lastPage (h.mptr, n₀) = h.mptr / pgsize)
    (hcount : rd32 h.mem (refAddr (h.mptr / pgsize)) < 2 ^ 32 - 1) :
    Malloced h live n₀ h.mptr
      { h with
        mem := wr32 h.mem (refAddr (h.mptr / pgsize)) (rd32 h.mem (refAddr (h.mptr / pgsize)) + 1)
        mptr := chunkEnd (h.mptr, n₀) } := by
  have hpage := hi.page hmid
  obtain ⟨hnew, hapart⟩ := hi.here hlo hhi hmid hn₀ hlast
  have hheap : heapPage (h.mptr / pgsize) := hlast ▸ hnew.heapPage
  have hrefs := hi.chunks.refs _ hheap hpage
  have hheld : h.held (h.mptr / pgsize) = 1 := if_pos ⟨hmid, rfl⟩
  have hend := hnew.end_page
  have hge : h.mptr ≤ chunkEnd (h.mptr, n₀) := Nat.le_add_right _ _
  rw [hlast] at hend
  have hdiv : chunkEnd (h.mptr, n₀) / pgsize = h.mptr / pgsize := by
    unfold refAddr pgsize at *
    omega
  obtain ⟨hs', hsame⟩ := hi.chunks.setRef (v := rd32 h.mem (refAddr (h.mptr / pgsize)) + 1) hpage
    (fun p => h.held p + if p = h.mptr / pgsize then 1 else 0) (by omega)
    (by rw [if_pos rfl]; omega) fun q hq => by rw [if_neg hq, Nat.add_zero]
  refine ⟨?_, hsame⟩
  rw [if_neg (by unfold mbegin at hlo; omega)]
  refine ⟨⟨?_, ?_, ?_⟩, .inr ?_, hnew.end_align, ?_, ?_⟩
  · intro d hd
    rcases List.mem_cons.mp hd with rfl | hd
    · exact hnew.congr fun _ _ _ => rfl
    · exact (hs'.ok d hd).congr fun _ _ _ => rfl
  · exact List.pairwise_cons.mpr ⟨hapart, hi.chunks.apart⟩
  · intro p hp hpp
    have hold := hs'.refs p hp hpp
    rw [endsIn_cons, hlast]
    by_cases hpm : p = h.mptr / pgsize
    · subst hpm
      rw [if_pos rfl]
      rw [if_pos rfl, hheld] at hold
      refine le_trans ?_ hold
      unfold Heap.held
      split <;> omega
    · rw [if_neg (Ne.symm hpm), Nat.add_zero]
      rw [if_neg hpm, Nat.add_zero] at hold
      have hnot : ¬ (chunkEnd (h.mptr, n₀) % pgsize ≠ 0 ∧ chunkEnd (h.mptr, n₀) / pgsize = p) :=
        fun hcon => hpm (hcon.2.symm.trans hdiv)
      exact le_trans (Nat.add_le_add_left ((if_neg hnot).trans_le (Nat.zero_le _)) _) hold
  · show mbegin ≤ chunkEnd (h.mptr, n₀) ∧ chunkEnd (h.mptr, n₀) < mend
    unfold heapPage at hheap
    unfold mend refAddr pgsize at *
    omega
  · intro _
    show h.pte (chunkEnd (h.mptr, n₀) / pgsize) = some false
    rw [hdiv, hpage]
  · intro _ d hd hdl
    rcases List.mem_cons.mp hd with rfl | hd
    · exact le_refl _
    · have hdl : lastPage d = chunkEnd (h.mptr, n₀) / pgsize := hdl
      rw [hdiv] at hdl
      exact (hi.below hmid d hd hdl).trans hge

theorem HeapInv.start (hi : HeapInv h live) :
    HeapInv h.start live ∧ mbegin ≤ h.start.mptr ∧ h.start.mptr < mend ∧ h.start.mem = h.mem := by
  unfold Heap.start
  by_cases h0 : h.mptr = 0
  · rw [if_pos h0]
    have hs := hi.chunks
    rw [Heap.held_of_aligned (by rw [h0, Nat.zero_mod])] at hs
    have hlt : mbegin < mend := by decide
    have hal : mbegin % pgsize = 0 := by decide
    exact ⟨.of_aligned (hs.setMptr _) hal (le_refl _) hlt, le_refl _, hlt, rfl⟩
  · rw [if_neg h0]
    obtain ⟨hlo, hhi⟩ := hi.mptr.resolve_left h0
    exact ⟨hi, hlo, hhi, rfl⟩

end Malloc

/-! ### Every call keeps it -/

theorem HeapInv.malloc_cases (hi : HeapInv h live) {n : UInt32} {ok : ℕ → Bool}
    (hcond : HeapCond ⟨h, live⟩ (.malloc n ok)) :
    ∃ v h', h.malloc n.toNat ok = some (v, h') ∧ MallocCases h.start n.toNat v h' := by
  obtain ⟨hi', hlo, hhi, -⟩ := hi.start
  obtain ⟨-, hcur⟩ := hcond
  unfold Heap.malloc
  simp only
  by_cases hmax : maxmalloc ≤ roundup n.toNat 4
  · rw [if_pos hmax]
    exact ⟨0, _, rfl, .refused⟩
  rw [if_neg hmax]
  have hmax := Nat.lt_of_not_le hmax
  by_cases hmid : h.start.mptr % pgsize ≠ 0
  · rw [if_pos hmid]
    obtain ⟨href, hend⟩ := hcur hmax hmid
    by_cases hfits : h.start.Fits (roundup n.toNat 4)
    · rw [if_pos hfits]
      have href : rd32 h.start.mem (roundup h.start.mptr pgsize - 4) ≠ 2 ^ 32 - 1 := href hfits
      have haddr : roundup h.start.mptr pgsize - 4 = refAddr (h.start.mptr / pgsize) := by
        unfold roundup rounddown refAddr
        unfold mend pgsize at *
        omega
      rw [haddr] at href ⊢
      have hlt := rd32_lt h.start.mem (refAddr (h.start.mptr / pgsize))
      have hinc : (rd32 h.start.mem (refAddr (h.start.mptr / pgsize)) + 1) % 2 ^ 32 =
          rd32 h.start.mem (refAddr (h.start.mptr / pgsize)) + 1 := Nat.mod_eq_of_lt (by omega)
      have hadd : add32 h.start.mptr (roundup n.toNat 4) = chunkEnd (h.start.mptr, n.toNat) := by
        show (h.start.mptr + roundup n.toNat 4) % 2 ^ 32 = h.start.mptr + roundup n.toNat 4
        unfold maxmalloc at hmax
        unfold mend at hhi
        omega
      have hlast : lastPage (h.start.mptr, n.toNat) = h.start.mptr / pgsize := by
        have hfits : h.start.mptr / pgsize =
            (h.start.mptr + (roundup n.toNat 4 + 3)) % 2 ^ 32 / pgsize := hfits
        show (h.start.mptr + roundup n.toNat 4 + 3) / pgsize = _
        unfold maxmalloc at hmax
        unfold mend at hhi
        rw [Nat.mod_eq_of_lt (by omega)] at hfits
        rw [hfits, Nat.add_assoc]
      rw [Heap.updRef_eq (hi'.page hmid), hinc]
      refine ⟨_, _, ?_, .here hmid hlast (by omega)⟩
      simp only [Option.map_some, hadd]
    · -- the page is left, and the search starts behind it
      rw [if_neg hfits]
      have hlast : h.start.mptr / pgsize + 1 ≠ mend / pgsize := fun hcon => hfits (hend hcon)
      have hnext : rounddown (add32 h.start.mptr pgsize) pgsize =
          (h.start.mptr / pgsize + 1) * pgsize := by
        unfold rounddown add32
        unfold mend pgsize at *
        omega
      have hpage : heapPage (h.start.mptr / pgsize + 1) := by
        unfold heapPage
        unfold mbegin mend pgsize at *
        omega
      have hfree : h.start.free h.start.mptr = some (h.start.dropped (h.start.mptr, 0)) :=
        ((hi'.current hlo hhi hmid).free List.mem_cons_self).1
      rw [hfree, Option.bind_some]
      show ∃ v h', Heap.mallocPages { h.start.dropped (h.start.mptr, 0) with
        mptr := rounddown (add32 h.start.mptr pgsize) pgsize } _ _ = _ ∧ _
      rw [hnext]
      obtain ⟨v, h₂, heq₂, hm⟩ := Heap.mallocPages_spec (h := { h.start.dropped (h.start.mptr, 0) with
        mptr := (h.start.mptr / pgsize + 1) * pgsize }) rfl hpage hmax ok
      exact ⟨v, h₂, heq₂, .leave hmid hm⟩
  · rw [if_neg hmid]
    have hmid := not_not.mp hmid
    have hbase : h.start.mptr = h.start.mptr / pgsize * pgsize := by
      unfold pgsize at *
      omega
    have hpage : heapPage (h.start.mptr / pgsize) := by
      unfold heapPage
      unfold mbegin mend pgsize at *
      omega
    obtain ⟨v, h₂, heq₂, hm⟩ := Heap.mallocPages_spec hbase hpage hmax ok
    exact ⟨v, h₂, heq₂, .pages hmid hm⟩

theorem MallocCases.malloced {h' : Heap} {n₀ v : ℕ} (hm : MallocCases h n₀ v h') (hi : HeapInv h live)
    (hlo : mbegin ≤ h.mptr) (hhi : h.mptr < mend) (hn₀ : n₀ ≤ 2 ^ 32 - 4) : Malloced h live n₀ v h' := by
  cases hm with
  | refused => exact ⟨by rwa [if_pos rfl], fun _ _ _ _ => rfl⟩
  | here mid last count => exact hi.mallocHere hlo hhi mid hn₀ last count
  | pages bound paged =>
    have hs := hi.chunks
    rw [Heap.held_of_aligned bound] at hs
    exact paged.malloced hs hn₀
  | leave mid paged =>
    have hdrop := ((hi.current hlo hhi mid).free List.mem_cons_self).2
    rw [List.erase_cons_head] at hdrop
    have hm := paged.malloced (hdrop.chunks.setMptr _) hn₀
    exact ⟨hm.inv, hdrop.same.trans hm.same⟩

theorem HeapInv.malloc (hi : HeapInv h live) {n : UInt32} {ok : ℕ → Bool}
    (hcond : HeapCond ⟨h, live⟩ (.malloc n ok)) :
    ∃ v h', h.malloc n.toNat ok = some (v, h') ∧ Malloced h live n.toNat v h' := by
  obtain ⟨hi', hlo, hhi, hmem⟩ := hi.start
  obtain ⟨v, h', heq, hm⟩ := hi.malloc_cases hcond
  have hm := hm.malloced hi' hlo hhi hcond.1
  refine ⟨v, h', heq, hm.inv, fun d hd a ha => ?_⟩
  rw [hm.same d hd a ha, hmem]

theorem HeapInv.free (hi : HeapInv h live) (hc : c ∈ live) :
    h.free c.1 = some (h.dropped c) ∧ HeapInv (h.dropped c) (live.erase c) ∧
      Heap.SameOn (live.erase c) h (h.dropped c) := by
  obtain ⟨heq, hdrop⟩ := hi.chunks.free hc
  refine ⟨heq, ⟨hdrop.chunks, hi.mptr, hi.align, fun hmid => ?_, fun hmid d hd hdl => ?_⟩, hdrop.same⟩
  · have hmid : h.mptr % pgsize ≠ 0 := hmid
    show (h.dropped c).pte (h.mptr / pgsize) = some false
    by_cases hp : h.mptr / pgsize = lastPage c
    · -- the current page has a reference of its own
      rcases hdrop.page with hpage | hzero
      · rw [hp, hpage]
      · have hone : h.held (lastPage c) = 1 := if_pos ⟨hmid, hp⟩
        omega
    · exact hdrop.other _ hp (hi.page hmid)
  · exact hi.below hmid d ((List.erase_sublist).subset hd) hdl

theorem HeapInv.store (hi : HeapInv h live) {a : ℕ} (hc : c ∈ live) (ha : Owns c a) (b : UInt8) :
    HeapInv { h with mem := update h.mem a b } live := by
  refine ⟨⟨fun d hd => (hi.chunks.ok d hd).congr fun _ _ _ => rfl, hi.chunks.apart, ?_⟩, hi.mptr,
    hi.align, hi.page, hi.below⟩
  intro p hp hpp
  refine (hi.chunks.refs p hp hpp).trans (le_of_eq (rd32_congr fun e he he' => ?_))
  have hout := (hi.chunks.ok c hc).not_ref ha hpp
  exact (update_of_ne (by omega) _ _).symm


/-! ### Histories -/

theorem HeapInv.of_fresh {s : HeapSys} (h : s.Fresh) : HeapInv s.heap s.live := by
  have h0 : s.heap.mptr % pgsize = 0 := by rw [h.mptr, Nat.zero_mod]
  refine ⟨⟨?_, ?_, ?_⟩, .inl h.mptr, by rw [h.mptr], fun hne => absurd h0 hne,
    fun hne => absurd h0 hne⟩
  · rw [h.live]
    exact fun c hc => absurd hc (List.not_mem_nil)
  · rw [h.live]
    exact .nil
  · intro p hp hpp
    rw [h.pte p hp] at hpp
    cases hpp

theorem HeapInv.step {s s' : HeapSys} {l : HeapEvent} (hi : HeapInv s.heap s.live)
    (hok : HeapCond s l) (hs : s.step l = some s') :
    HeapInv s'.heap s'.live ∧ ∀ c ∈ s.live, c ∈ s'.live → ∀ a, Owns c a →
      (∀ b, l ≠ .store a b) → s'.heap.mem a = s.heap.mem a := by
  cases l with
  | malloc n ok =>
    obtain ⟨v, h', heq, hm⟩ := hi.malloc hok
    rw [HeapSys.step, heq] at hs
    cases hs
    exact ⟨hm.inv, fun c hc _ a ha _ => hm.same c hc a ha⟩
  | free v n =>
    simp only [HeapSys.step] at hs
    split at hs
    · next hmem =>
      obtain ⟨heq, hi', hsame⟩ := hi.free hmem
      rw [heq] at hs
      cases hs
      exact ⟨hi', fun c _ hc a ha _ => hsame c hc a ha⟩
    · cases hs
  | store a b =>
    obtain ⟨hown, rfl⟩ := Sys.guard_eq hs
    obtain ⟨c, hc, ha⟩ := hown
    refine ⟨hi.store hc ha b, fun d _ _ a' _ hne => ?_⟩
    refine update_of_ne ?_ _ _
    rintro rfl
    exact hne b rfl

/-- The heap is safe.  Every chunk lies in the region and is mapped, no two of
them overlap, none of them contains a byte of a reference word, every call of
`malloc` and `free` returns, and it changes no byte of a chunk that stays. -/
theorem heap_safe {s₀ s : HeapSys} (h₀ : s₀.Fresh) (hr : Sys.Reach HeapSys.step HeapCond s₀ s) :
    (∀ c ∈ s.live, mbegin ≤ c.1 ∧ c.1 + c.2 ≤ mend ∧
      ∀ a, Owns c a → (s.heap.pte (a / pgsize)).isSome ∧
        ∀ p, s.heap.pte p = some false → a < refAddr p ∨ refAddr p + 4 ≤ a) ∧
    s.live.Pairwise (fun c d => ∀ a, Owns c a → ¬ Owns d a) ∧
    (∀ n ok, HeapCond s (.malloc n ok) → (s.heap.malloc n.toNat ok).isSome) ∧
    (∀ c ∈ s.live, (s.heap.free c.1).isSome) ∧
    ∀ l s', HeapCond s l → s.step l = some s' → ∀ c ∈ s.live, c ∈ s'.live → ∀ a, Owns c a →
      (∀ b, l ≠ .store a b) → s'.heap.mem a = s.heap.mem a := by
  have hi : HeapInv s.heap s.live :=
    hr.inv (I := fun s => HeapInv s.heap s.live) (.of_fresh h₀) fun _ _ _ hi hok hs => (hi.step hok hs).1
  refine ⟨fun c hc => ?_, ?_, fun n ok hcond => ?_, fun c hc => ?_,
    fun l s' hok hs => (hi.step hok hs).2⟩
  · have hok := hi.chunks.ok c hc
    have hend := hok.end_page
    have hsize := hok.size_le
    have hhigh := hok.high
    refine ⟨hok.low, ?_, fun a ha => ⟨hok.mapped ha, fun p hp => hok.not_ref ha hp⟩⟩
    unfold refAddr mend pgsize at *
    omega
  · refine hi.chunks.apart.imp_of_mem fun {c d} hc hd hap a ha hda => ?_
    have h₁ := (hi.chunks.ok c hc).size_le
    have h₂ := (hi.chunks.ok d hd).size_le
    obtain ⟨hclo, hchi⟩ := ha
    obtain ⟨hdlo, hdhi⟩ := hda
    unfold Apart at hap
    omega
  · obtain ⟨v, h', heq, -⟩ := hi.malloc hcond
    rw [heq]
    rfl
  · rw [(hi.free hc).1]
    rfl

def Demo.heap : HeapSys := ⟨⟨0, fun _ => none, fun _ => 0⟩, []⟩

theorem Demo.heap_fresh : heap.Fresh := ⟨rfl, fun _ _ => rfl, rfl⟩

open Demo

/-- Two small chunks and a large one. -/
theorem heap_safe_three : ∃ s, Sys.Reach HeapSys.step HeapCond heap s ∧
    s.live = [(0x08001000, 5000), (0x08000010, 8), (0x08000000, 13)] ∧
    s.live.Pairwise (fun c d => ∀ a, Owns c a → ¬ Owns d a) := by
  have hall : Sys.AllOk HeapSys.step HeapCond
      [.malloc 13 fun _ => true, .malloc 8 fun _ => true, .malloc 5000 fun _ => true] heap := by
    decide +kernel
  obtain ⟨s, hs, hp⟩ := Sys.exists_reach_of
    (P := fun s => s.live = [(0x08001000, 5000), (0x08000010, 8), (0x08000000, 13)]) hall (by decide +kernel)
  exact ⟨s, hs, hp, (heap_safe heap_fresh hs).2.1⟩

/-- `malloc(0xffffffff)` rounds the size up to zero and returns a chunk. -/
theorem malloc_wraps : heap.Fresh ∧
    ∃ s, Sys.Reach HeapSys.step (fun _ _ => True) heap s ∧
      (mbegin, 0xffffffff) ∈ s.live ∧ mend < mbegin + 0xffffffff := by
  refine ⟨heap_fresh, ?_⟩
  exact Sys.exists_reach_of (Sys.allOk_true [.malloc 0xffffffff fun _ => true] _) (by decide +kernel)

end Jos
