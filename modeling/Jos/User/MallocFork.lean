/-
The user heap across `fork`.

`malloc` keeps the mark `PTE_CONTINUED` in page table entries, and `duppage`
and `pgfault` of lib/fork.c write entries of their own, without it.  Here every
environment has a heap with contents of its own, which is what copy-on-write
comes to; what matters are the entries.

* `fork_keeps_heap` — if no page has the mark when an environment forks, `free`
  does in parent and child what it does without `fork`;
* `fork_loses_mark` — a chunk of two pages is not freed after a `fork`.
-/
import Jos.User.MallocRefs

namespace Jos

open Bytes Function Demo

/-! ### The program -/

/-- A program: its heap, which pages of it are mapped with `PTE_COW` instead of
`PTE_W`, and the chunks it holds. -/
structure ForkHeap where
  heap : Heap
  cow : ℕ → Bool
  live : List (ℕ × ℕ)

namespace ForkHeap

/-- Before a store to page `p`: if the page is copy-on-write `pgfault` maps a
copy with `PTE_P|PTE_U|PTE_W`; nothing if it panics because there is no room
for the copy. -/
def touch (x : ForkHeap) (p : ℕ) (room : Bool) : Option ForkHeap :=
  if (x.heap.pte p).isSome ∧ x.cow p then
    if room then
      some { x with
        heap := { x.heap with pte := update x.heap.pte p (some false) }
        cow := update x.cow p false }
    else none
  else some x

def free (x : ForkHeap) (v : ℕ) (room : Bool) : Option ForkHeap :=
  if v = 0 then some x
  else if mbegin ≤ v ∧ v < mend then
    (Heap.freePages (mend / pgsize) (rounddown v pgsize) x.heap).bind fun (c, h) =>
      (touch { x with heap := h } (c / pgsize) room).bind fun y =>
        (y.heap.dropRef c).map fun h => { y with heap := h }
  else none

/-- `malloc` when the chunk needs pages of its own, which have `PTE_W`. -/
def mallocPages (x : ForkHeap) (n : ℕ) (ok : ℕ → Bool) : Option (ℕ × ForkHeap) :=
  (x.heap.mallocPages n ok).map fun (v, h) =>
    (v, { x with
      heap := h
      cow := fun p =>
        if v ≠ 0 ∧ v / pgsize ≤ p ∧ p < v / pgsize + pagesFor n then false else x.cow p })

def malloc (x₀ : ForkHeap) (n₀ : ℕ) (ok : ℕ → Bool) (room : Bool) : Option (ℕ × ForkHeap) :=
  let x := { x₀ with heap := x₀.heap.start }
  let n := roundup n₀ 4
  if maxmalloc ≤ n then some (0, x)
  else if x.heap.mptr % pgsize ≠ 0 then
    if x.heap.Fits n then
      (x.touch (x.heap.mptr / pgsize) room).bind fun y =>
        (y.heap.updRef (roundup x.heap.mptr pgsize - 4) fun r => (r + 1) % 2 ^ 32).map fun h =>
          (h.mptr, { y with heap := { h with mptr := add32 h.mptr n } })
    else
      (x.free x.heap.mptr room).bind fun y =>
        mallocPages
          { y with heap := { y.heap with mptr := rounddown (add32 y.heap.mptr pgsize) pgsize } } n ok
  else x.mallocPages n ok

/-- What the program does; `room` says whether there is room for a copy. -/
def step (x : ForkHeap) (room : Bool) : HeapEvent → Option ForkHeap
  | .malloc n ok =>
    (x.malloc n.toNat ok room).map fun (v, y) =>
      { y with live := if v = 0 then x.live else (v, n.toNat) :: x.live }
  | .free v n =>
    if (v, n) ∈ x.live then
      (x.free v room).map fun y => { y with live := x.live.erase (v, n) }
    else none
  | .store a b =>
    if (∃ c ∈ x.live, Owns c a) ∧ (x.heap.pte (a / pgsize)).isSome then
      (x.touch (a / pgsize) room).map fun y =>
        { y with heap := { y.heap with mem := update y.heap.mem a b } }
    else none

/-- `duppage` of every page: parent and child both map it with
`PTE_P|PTE_U|PTE_COW`, since pages of the heap have `PTE_W` or `PTE_COW`. -/
def duppages (x : ForkHeap) : ForkHeap where
  heap := { x.heap with pte := fun p => (x.heap.pte p).map fun _ => false }
  cow := fun p => (x.heap.pte p).isSome
  live := x.live

end ForkHeap

/-- A program does something, or it forks.  A program that panics takes no more
steps. -/
inductive ForkHeapEvent where
  | act (e : ℕ) (l : HeapEvent) (room : Bool)
  | fork (e c : ℕ)

def forkHeapStep (s : ℕ → Option ForkHeap) : ForkHeapEvent → Option (ℕ → Option ForkHeap)
  | .act e l room => (s e).bind fun x => (x.step room l).map fun y => update s e (some y)
  | .fork e c =>
    if s c = none then
      (s e).map fun x => update (update s e (some x.duppages)) c (some x.duppages)
    else none

/-- When `fork` keeps the heap in order: the heap is in order without it, and no
page has the mark when a program forks. -/
def ForkHeapCond (s : ℕ → Option ForkHeap) : ForkHeapEvent → Prop
  | .act e l _ => ∀ x, s e = some x → HeapRefCond ⟨x.heap, x.live⟩ l
  | .fork e _ => ∀ x, s e = some x → ∀ p, heapPage p → x.heap.pte p ≠ some true

/-- One program, before its first call. -/
structure ForkHeap.Fresh (s : ℕ → Option ForkHeap) (e : ℕ) : Prop where
  heap : ∀ x, s e = some x → HeapSys.Fresh ⟨x.heap, x.live⟩ ∧ ∀ p, x.cow p = false
  others : ∀ e' ≠ e, s e' = none

/-! ### Page faults keep the heap -/

namespace ForkHeap

variable {x y : ForkHeap} {p v n : ℕ} {room : Bool} {ok : ℕ → Bool}

theorem touch_heap (hp : x.heap.pte p = some true → x.cow p = false)
    (ht : x.touch p room = some y) :
    y.heap = x.heap ∧ y.live = x.live ∧ ∀ q, y.cow q = true → x.cow q = true := by
  unfold touch at ht
  split at ht
  · next hfault =>
    obtain ⟨-, rfl⟩ := Sys.guard_eq ht
    have hfalse : x.heap.pte p = some false := by
      obtain ⟨b, hb⟩ := Option.isSome_iff_exists.mp hfault.1
      cases b with
      | false => exact hb
      | true =>
        rw [hp hb] at hfault
        cases hfault.2
    refine ⟨?_, rfl, fun q hq => ?_⟩
    · rw [← hfalse, update_eq_self]
    · by_cases hqp : q = p
      · rw [hqp]
        exact hfault.2
      · exact (update_of_ne hqp _ _).symm.trans hq
  · cases ht
    exact ⟨rfl, rfl, fun _ hq => hq⟩

theorem touch_room (x : ForkHeap) (p : ℕ) : ∃ y, x.touch p true = some y := by
  unfold touch
  split
  · exact ⟨_, if_pos rfl⟩
  · exact ⟨_, rfl⟩

theorem freePages_unmarked : ∀ fuel c (h : Heap) c' h',
    Heap.freePages fuel c h = some (c', h') → h'.pte (c' / pgsize) ≠ some true := by
  intro fuel
  induction fuel with
  | zero =>
    intro c h c' h' heq
    cases heq
  | succ fuel ih =>
    intro c h c' h' heq
    rw [Heap.freePages] at heq
    by_cases hmark : h.pte (c / pgsize) = some true
    · rw [if_pos hmark] at heq
      simp only at heq
      split at heq
      · exact ih _ _ _ _ heq
      · cases heq
    · rw [if_neg hmark] at heq
      cases heq
      exact hmark

theorem free_heap (hf : x.free v room = some y) :
    x.heap.free v = some y.heap ∧ y.live = x.live ∧ ∀ q, y.cow q = true → x.cow q = true := by
  unfold free at hf
  unfold Heap.free
  split
  · next h0 =>
    rw [if_pos h0] at hf
    cases hf
    exact ⟨rfl, rfl, fun _ hq => hq⟩
  · next h0 =>
    rw [if_neg h0] at hf
    split
    · next hin =>
      rw [if_pos hin] at hf
      obtain ⟨⟨c, h⟩, hloop, hf⟩ := Option.bind_eq_some_iff.mp hf
      obtain ⟨z, htouch, hf⟩ := Option.bind_eq_some_iff.mp hf
      obtain ⟨h', hdrop, hf⟩ := Option.map_eq_some_iff.mp hf
      have hmark := freePages_unmarked _ _ _ _ _ hloop
      obtain ⟨hz, hlive, hcow⟩ := touch_heap (fun hm => absurd hm hmark) htouch
      subst hf
      rw [hloop, Option.bind_some]
      rw [hz] at hdrop
      exact ⟨hdrop, hlive, hcow⟩
    · next hin =>
      rw [if_neg hin] at hf
      cases hf

theorem free_room {h : Heap} (hf : x.heap.free v = some h) : ∃ y, x.free v true = some y := by
  unfold Heap.free at hf
  unfold free
  split
  · exact ⟨x, rfl⟩
  · next h0 =>
    rw [if_neg h0] at hf
    split
    · next hin =>
      rw [if_pos hin] at hf
      obtain ⟨⟨c, h'⟩, hloop, hf⟩ := Option.bind_eq_some_iff.mp hf
      obtain ⟨z, htouch⟩ := touch_room { x with heap := h' } (c / pgsize)
      have hmark := freePages_unmarked _ _ _ _ _ hloop
      obtain ⟨hz, -, -⟩ := touch_heap (fun hm => absurd hm hmark) htouch
      have hdrop : z.heap.dropRef c = some h := by rw [hz]; exact hf
      rw [hloop, Option.bind_some]
      simp only
      rw [htouch, Option.bind_some, hdrop]
      exact ⟨_, rfl⟩
    · next hin =>
      rw [if_neg hin] at hf
      cases hf

theorem mallocPages_heap (hm : x.mallocPages n ok = some (v, y)) :
    x.heap.mallocPages n ok = some (v, y.heap) ∧ y.live = x.live ∧
      (∀ p, y.cow p = true → x.cow p = true) ∧
      ∀ p, v ≠ 0 → v / pgsize ≤ p → p < v / pgsize + pagesFor n → y.cow p = false := by
  obtain ⟨⟨v', h⟩, hpages, hm⟩ := Option.map_eq_some_iff.mp hm
  cases hm
  refine ⟨hpages, rfl, fun p hp => ?_, fun p hv hlo hhi => if_pos ⟨hv, hlo, hhi⟩⟩
  by_cases hin : v ≠ 0 ∧ v / pgsize ≤ p ∧ p < v / pgsize + pagesFor n
  · exact absurd ((if_pos hin).symm.trans hp) (by decide)
  · exact (if_neg hin).symm.trans hp

theorem malloc_heap
    (hpage : x.heap.start.mptr % pgsize ≠ 0 →
      x.heap.start.pte (x.heap.start.mptr / pgsize) ≠ some true)
    (hm : x.malloc n ok room = some (v, y)) :
    x.heap.malloc n ok = some (v, y.heap) ∧ y.live = x.live ∧
      (∀ p, y.cow p = true → x.cow p = true) ∧
      (y.heap.pte = x.heap.pte ∨ ∀ p, v ≠ 0 → v / pgsize ≤ p →
        p < v / pgsize + pagesFor (roundup n 4) → y.cow p = false) := by
  unfold malloc at hm
  unfold Heap.malloc
  simp only at hm ⊢
  by_cases hmax : maxmalloc ≤ roundup n 4
  · rw [if_pos hmax] at hm ⊢
    cases hm
    exact ⟨rfl, rfl, fun _ hp => hp, .inl (Heap.start_pte _)⟩
  rw [if_neg hmax] at hm ⊢
  by_cases hmid : x.heap.start.mptr % pgsize ≠ 0
  · rw [if_pos hmid] at hm ⊢
    by_cases hfits : x.heap.start.Fits (roundup n 4)
    · rw [if_pos hfits] at hm ⊢
      obtain ⟨z, htouch, hm⟩ := Option.bind_eq_some_iff.mp hm
      obtain ⟨h, hupd, hm⟩ := Option.map_eq_some_iff.mp hm
      obtain ⟨hz, hlive, hcow⟩ := touch_heap (fun hmark => absurd hmark (hpage hmid)) htouch
      cases hm
      rw [hz] at hupd
      have hpte : h.pte = x.heap.start.pte := by
        unfold Heap.updRef at hupd
        obtain ⟨-, rfl⟩ := Sys.guard_eq hupd
        rfl
      refine ⟨?_, hlive, hcow, .inl (hpte.trans (Heap.start_pte _))⟩
      rw [hupd]
      rfl
    · rw [if_neg hfits] at hm ⊢
      obtain ⟨z, hfree, hm⟩ := Option.bind_eq_some_iff.mp hm
      obtain ⟨hz, hlive, hcow⟩ := free_heap hfree
      obtain ⟨hpages, hlive', hcow', hnew⟩ := mallocPages_heap hm
      have hz : x.heap.start.free x.heap.start.mptr = some z.heap := hz
      refine ⟨?_, hlive'.trans hlive, fun p hp => hcow p (hcow' p hp), .inr hnew⟩
      rw [hz]
      exact hpages
  · rw [if_neg hmid] at hm ⊢
    obtain ⟨hpages, hlive, hcow, hnew⟩ := mallocPages_heap hm
    exact ⟨hpages, hlive, hcow, .inr hnew⟩

end ForkHeap

/-! ### The invariant -/

theorem HeapRefInv.congr {h h' : Heap} {live : List (ℕ × ℕ)} (hi : HeapRefInv h live)
    (hmptr : h'.mptr = h.mptr) (hmem : h'.mem = h.mem)
    (hpte : ∀ p, heapPage p → h'.pte p = h.pte p) : HeapRefInv h' live := by
  have hheld : h'.held = h.held := by
    funext p
    unfold Heap.held
    rw [hmptr]
  have hpage : ∀ c ∈ live, ∀ p, c.1 / pgsize ≤ p → p ≤ lastPage c → h'.pte p = h.pte p := by
    intro c hc p hlo hhi
    have hok := hi.inv.chunks.ok c hc
    exact hpte p ⟨(Nat.div_le_div_right hok.low).trans hlo, hhi.trans_lt hok.high⟩
  refine ⟨⟨⟨fun c hc => (hi.inv.chunks.ok c hc).congr (hpage c hc), hi.inv.chunks.apart, ?_⟩, ?_, ?_,
    ?_, ?_⟩, ?_, ?_, ?_⟩
  · intro p hp hpp
    rw [hheld, hmem]
    exact hi.inv.chunks.refs p hp (by rw [← hpte p hp, hpp])
  · rw [hmptr]
    exact hi.inv.mptr
  · rw [hmptr]
    exact hi.inv.align
  · rw [hmptr]
    intro hmid
    have hcur := hi.inv.page hmid
    rcases hi.inv.mptr with h0 | ⟨hlo, hhi⟩
    · rw [h0] at hmid
      exact absurd (Nat.zero_mod _) hmid
    · have hin : heapPage (h.mptr / pgsize) := by
        unfold heapPage
        unfold mbegin mend pgsize at *
        omega
      rw [hpte _ hin, hcur]
  · rw [hmptr]
    exact hi.inv.below
  · intro p hp hpp
    rw [hheld, hmem]
    exact hi.counted.refs p hp (by rw [← hpte p hp, hpp])
  · intro p hp hpp
    rw [hheld]
    exact hi.counted.used p hp (by rw [← hpte p hp, hpp])
  · intro p hp hpp
    exact hi.counted.cont p hp (by rw [← hpte p hp, hpp])

/-- The heap is in order, and a page with the mark is not copy-on-write. -/
structure ForkHeapInv (x : ForkHeap) : Prop where
  refs : HeapRefInv x.heap x.live
  marks : ∀ p, heapPage p → x.heap.pte p = some true → x.cow p = false

namespace ForkHeapInv

variable {x y : ForkHeap} {room : Bool}

theorem mark_old {c : ℕ × ℕ} {p : ℕ} (hi : ForkHeapInv x) (hc : c ∈ x.live)
    (hlo : c.1 / pgsize ≤ p) (hhi : p < lastPage c) : x.heap.pte p = some true :=
  (hi.refs.inv.chunks.ok c hc).cont p hlo hhi

theorem malloc (hi : ForkHeapInv x) {n : UInt32} {ok : ℕ → Bool}
    (hcond : HeapRefCond ⟨x.heap, x.live⟩ (.malloc n ok)) {v : ℕ}
    (hm : x.malloc n.toNat ok room = some (v, y)) :
    ForkHeapInv { y with live := if v = 0 then x.live else (v, n.toNat) :: x.live } := by
  have hcur := hi.refs.inv.start.1
  obtain ⟨heq, -, hcow, hnew⟩ := ForkHeap.malloc_heap (fun hmid hmark => by
    rw [hcur.page hmid] at hmark
    cases hmark) hm
  obtain ⟨v', h', heq', hi', -⟩ := hi.refs.malloc hcond
  rw [heq, Option.some.injEq, Prod.mk.injEq] at heq'
  obtain ⟨rfl, rfl⟩ := heq'
  refine ⟨hi', fun p hp hmark => ?_⟩
  have hold : x.heap.pte p = some true → y.cow p = false := by
    intro hx
    rw [← Bool.not_eq_true]
    intro hy
    have hfalse := hi.marks p hp hx
    rw [hcow p hy] at hfalse
    cases hfalse
  rcases hnew with hpte | hnew
  · exact hold (hpte ▸ hmark)
  · -- the page is in the middle of a chunk, an old or the new one
    obtain ⟨c, hc, hlo, hhi⟩ := hi'.counted.cont p hp hmark
    split at hc
    · exact hold (hi.mark_old hc hlo hhi)
    · next hv =>
      rcases List.mem_cons.mp hc with rfl | hc
      · refine hnew p hv hlo (hhi.trans_le ?_)
        show (v + roundup n.toNat 4 + 3) / pgsize ≤ _
        unfold pagesFor pgsize
        omega
      · exact hold (hi.mark_old hc hlo hhi)

theorem free (hi : ForkHeapInv x) {c : ℕ × ℕ} (hc : c ∈ x.live) (hf : x.free c.1 room = some y) :
    y.heap = x.heap.dropped c ∧ ForkHeapInv { y with live := x.live.erase c } := by
  obtain ⟨heq, -, hcow⟩ := ForkHeap.free_heap hf
  obtain ⟨heq', hi', -⟩ := hi.refs.free hc
  have hheap : y.heap = x.heap.dropped c := Option.some.inj (heq.symm.trans heq')
  refine ⟨hheap, by rw [hheap]; exact hi', fun p hp hmark => ?_⟩
  have hmark : (x.heap.dropped c).pte p = some true := hheap ▸ hmark
  have hx : x.heap.pte p = some true := by
    have : (if _ then none else x.heap.pte p) = some true := hmark
    split at this
    · cases this
    · exact this
  rw [← Bool.not_eq_true]
  intro hy
  have hfalse := hi.marks p hp hx
  rw [hcow p hy] at hfalse
  cases hfalse

theorem step (hi : ForkHeapInv x) {l : HeapEvent} (hcond : HeapRefCond ⟨x.heap, x.live⟩ l)
    (hs : x.step room l = some y) : ForkHeapInv y := by
  cases l with
  | malloc n ok =>
    obtain ⟨⟨v, z⟩, hm, hs⟩ := Option.map_eq_some_iff.mp hs
    subst hs
    exact hi.malloc hcond hm
  | free v n =>
    simp only [ForkHeap.step] at hs
    split at hs
    · next hmem =>
      obtain ⟨z, hf, hs⟩ := Option.map_eq_some_iff.mp hs
      subst hs
      exact (hi.free (c := (v, n)) hmem hf).2
    · cases hs
  | store a b =>
    simp only [ForkHeap.step] at hs
    split at hs
    · next hown =>
      obtain ⟨z, ht, hs⟩ := Option.map_eq_some_iff.mp hs
      subst hs
      obtain ⟨⟨c, hc, ha⟩, -⟩ := hown
      have hpage : heapPage (a / pgsize) := by
        have hok := hi.refs.inv.chunks.ok c hc
        have hend := hok.end_page
        have hsize := hok.size_le
        have hhigh := hok.high
        have hlow := hok.low
        obtain ⟨hlo, hhi⟩ := ha
        unfold heapPage refAddr at *
        unfold mbegin mend pgsize at *
        omega
      obtain ⟨hz, hlive, hcow⟩ := ForkHeap.touch_heap (hi.marks _ hpage) ht
      refine ⟨?_, fun p hp hmark => ?_⟩
      · show HeapRefInv { z.heap with mem := update z.heap.mem a b } z.live
        rw [hz, hlive]
        exact hi.refs.store hc ha b
      · have hmark : z.heap.pte p = some true := hmark
        rw [hz] at hmark
        show z.cow p = false
        rw [← Bool.not_eq_true]
        intro hy
        have hfalse := hi.marks p hp hmark
        rw [hcow p hy] at hfalse
        cases hfalse
    · cases hs

theorem duppages (hi : ForkHeapInv x) (hmark : ∀ p, heapPage p → x.heap.pte p ≠ some true) :
    ForkHeapInv x.duppages := by
  refine ⟨hi.refs.congr rfl rfl fun p hp => ?_, fun p _ hp => ?_⟩
  · show (x.heap.pte p).map _ = x.heap.pte p
    cases hpte : x.heap.pte p with
    | none => rfl
    | some b =>
      cases b with
      | false => rfl
      | true => exact absurd hpte (hmark p hp)
  · have hp : (x.heap.pte p).map (fun _ => false) = some true := hp
    obtain ⟨b, -, hb⟩ := Option.map_eq_some_iff.mp hp
    cases hb

end ForkHeapInv

theorem forkHeap_inv {s₀ s : ℕ → Option ForkHeap} {e₀ : ℕ} (h₀ : ForkHeap.Fresh s₀ e₀)
    (hr : Sys.Reach forkHeapStep ForkHeapCond s₀ s) : ∀ e x, s e = some x → ForkHeapInv x := by
  refine hr.inv (I := fun s => ∀ e x, s e = some x → ForkHeapInv x) ?_ ?_
  · intro e x hx
    by_cases he : e = e₀
    · subst he
      obtain ⟨hfresh, hcow⟩ := h₀.heap x hx
      exact ⟨.of_fresh hfresh, fun p _ _ => hcow p⟩
    · rw [h₀.others e he] at hx
      cases hx
  · intro s l s' hi hok hs e x hx
    cases l with
    | act e' l room =>
      obtain ⟨y, hy, hs⟩ := Option.bind_eq_some_iff.mp hs
      obtain ⟨z, hz, hs⟩ := Option.map_eq_some_iff.mp hs
      subst hs
      by_cases he : e = e'
      · subst he
        rw [update_self] at hx
        cases hx
        exact (hi e y hy).step (hok y hy) hz
      · rw [update_of_ne he] at hx
        exact hi e x hx
    | fork e' c =>
      simp only [forkHeapStep] at hs
      split at hs
      · obtain ⟨y, hy, hs⟩ := Option.map_eq_some_iff.mp hs
        subst hs
        have hdup := (hi e' y hy).duppages (hok y hy)
        by_cases hc : e = c
        · subst hc
          rw [update_self] at hx
          cases hx
          exact hdup
        · rw [update_of_ne hc] at hx
          by_cases he : e = e'
          · subst he
            rw [update_self] at hx
            cases hx
            exact hdup
          · rw [update_of_ne he] at hx
            exact hi e x hx
      · cases hs

/-- If no page has the mark whenever a program forks, then in every program, the
first one or a child, `free` of a chunk does what it does without copy-on-write
(as long as there is room for a copy of the last page): of the pages of the
chunk those go that no other chunk uses, the current page apart, no other entry
changes, and no byte of another chunk does. -/
theorem fork_keeps_heap {s₀ s : ℕ → Option ForkHeap} {e₀ e : ℕ} (h₀ : ForkHeap.Fresh s₀ e₀)
    (hr : Sys.Reach forkHeapStep ForkHeapCond s₀ s) {x : ForkHeap} (hx : s e = some x)
    {c : ℕ × ℕ} (hc : c ∈ x.live) :
    ∃ y, x.free c.1 true = some y ∧ x.heap.free c.1 = some y.heap ∧
      (∀ p, y.heap.pte p =
        if (c.1 / pgsize ≤ p ∧ p ≤ lastPage c) ∧
          (∀ d ∈ x.live.erase c, p < d.1 / pgsize ∨ lastPage d < p) ∧ x.heap.held p = 0 then none
        else x.heap.pte p) ∧
      ∀ d ∈ x.live.erase c, ∀ a, Owns d a → y.heap.mem a = x.heap.mem a := by
  have hi := forkHeap_inv h₀ hr e x hx
  obtain ⟨heq, -, hsame⟩ := hi.refs.free hc
  obtain ⟨y, hy⟩ := ForkHeap.free_room heq
  obtain ⟨hheap, -⟩ := hi.free hc hy
  refine ⟨y, hy, by rw [heq, hheap], fun p => ?_, fun d hd a ha => ?_⟩
  · rw [hheap, hi.refs.dropped_pte hc]
  · rw [hheap, hsame d hd a ha]

def Demo.forkHeap : ℕ → Option ForkHeap :=
  update (fun _ => none) 0 (some ⟨heap.heap, fun _ => false, []⟩)

theorem Demo.forkHeap_fresh : ForkHeap.Fresh forkHeap 0 where
  heap := by
    rintro x ⟨⟩
    exact ⟨heap_fresh, fun _ => rfl⟩
  others := fun _ he => update_of_ne he _ _

/-- A small chunk from before the `fork`, a large one from after it, in the
child. -/
theorem fork_keeps_heap_child : ∃ s x,
    Sys.Reach forkHeapStep ForkHeapCond forkHeap s ∧ s 1 = some x ∧
      x.live = [(0x08001000, 5000), (0x08000000, 13)] ∧
      ∃ y, x.free 0x08001000 true = some y ∧ y.heap.pte 0x8001 = none := by
  have hall : Sys.AllOk forkHeapStep ForkHeapCond
      [.act 0 (.malloc 13 fun _ => true) true, .fork 0 1, .act 1 (.malloc 5000 fun _ => true) true]
      forkHeap := by
    have h₁ : ForkHeapCond forkHeap (.act 0 (.malloc 13 fun _ => true) true) := by
      rintro x ⟨⟩
      decide +kernel
    refine ⟨h₁, fun s₁ hs₁ => ⟨fun x hx p hp hmark => ?_, fun s₂ hs₂ => ⟨fun x hx => ?_, ?_⟩⟩⟩
    · -- a chunk of 13 bytes has no page with the mark
      have htest : (forkHeapStep forkHeap (.act 0 (.malloc 13 fun _ => true) true)).any
          (fun s => (s 0).any fun x => decide (x.live = [(0x08000000, 13)])) = true := by
        decide +kernel
      rw [hs₁, Option.any_some, hx, Option.any_some] at htest
      have hi := forkHeap_inv forkHeap_fresh (.step .refl h₁ hs₁) 0 x hx
      obtain ⟨c, hc, hlo, hhi⟩ := hi.refs.counted.cont p hp hmark
      rw [of_decide_eq_true htest, List.mem_singleton] at hc
      subst hc
      have hlast : lastPage (0x08000000, 13) = 0x8000 := by decide
      have hlo : 0x08000000 / 4096 ≤ p := hlo
      omega
    · have htest : (Sys.runAll forkHeapStep [.act 0 (.malloc 13 fun _ => true) true, .fork 0 1]
          forkHeap).any (fun s => (s 1).any fun x =>
            decide (HeapRefCond ⟨x.heap, x.live⟩ (.malloc 5000 fun _ => true))) = true := by
        decide +kernel
      rw [Sys.runAll, hs₁, Option.bind_some, Sys.runAll, hs₂, Option.bind_some, Sys.runAll,
        Option.any_some, hx, Option.any_some] at htest
      exact of_decide_eq_true htest
    · exact fun _ _ => trivial
  have hrun : (Sys.runAll forkHeapStep
      [.act 0 (.malloc 13 fun _ => true) true, .fork 0 1, .act 1 (.malloc 5000 fun _ => true) true]
      forkHeap).any (fun s => (s 1).any fun x => decide
        (x.live = [(0x08001000, 5000), (0x08000000, 13)] ∧ x.heap.held 0x8001 = 0)) = true := by
    decide +kernel
  obtain ⟨s, hs, hp⟩ := Sys.exists_reach hall hrun
  obtain ⟨x, hx, hp⟩ := (Option.any_eq_true _ _).mp hp
  obtain ⟨hlive, hheld⟩ := of_decide_eq_true hp
  obtain ⟨y, hy, -, hpte, -⟩ := fork_keeps_heap forkHeap_fresh hs hx (c := (0x08001000, 5000))
    (by rw [hlive]; exact List.mem_cons_self)
  refine ⟨s, x, hs, hx, hlive, y, hy, (hpte 0x8001).trans (if_pos ⟨by decide, ?_, hheld⟩)⟩
  rw [hlive, List.erase_cons_head]
  decide

/-- A chunk of two pages is freed in the child: its first page has lost the mark
and is taken for the last one, so that both pages stay. -/
theorem fork_loses_mark : ForkHeap.Fresh forkHeap 0 ∧ ∃ s x y,
    Sys.Reach forkHeapStep (fun _ _ => True) forkHeap s ∧ s 1 = some x ∧
      x.live = [(0x08000000, 5000)] ∧ x.heap.held 0x8000 = 0 ∧
      x.free 0x08000000 true = some y ∧ y.heap.pte 0x8000 = some false := by
  refine ⟨forkHeap_fresh, ?_⟩
  have hrun : (Sys.runAll forkHeapStep [.act 0 (.malloc 5000 fun _ => true) true, .fork 0 1]
      forkHeap).any (fun s => (s 1).any fun x => decide
        (x.live = [(0x08000000, 5000)] ∧ x.heap.held 0x8000 = 0) &&
          (x.free 0x08000000 true).any fun y => decide (y.heap.pte 0x8000 = some false)) = true := by
    decide +kernel
  obtain ⟨s, hs, hp⟩ := Sys.exists_reach (Sys.allOk_true _ _) hrun
  obtain ⟨x, hx, hp⟩ := (Option.any_eq_true _ _).mp hp
  obtain ⟨hlive, hp⟩ := (Bool.and_eq_true _ _).mp hp
  obtain ⟨y, hy, hp⟩ := (Option.any_eq_true _ _).mp hp
  obtain ⟨hlive, hheld⟩ := of_decide_eq_true hlive
  exact ⟨s, x, y, hs, hx, hlive, hheld, hy, of_decide_eq_true hp⟩

end Jos
