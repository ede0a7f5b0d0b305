/-
The first part of `check_page_free_list` with `only_low_memory` (kern/pmap.c):
the free list is taken apart into the pages below 4 MB and the others, and put
together again with the low ones first (`reorder_linked`).
-/
import Jos.Kern.Pmap
import Jos.Lib.Linked

namespace Jos

/-- A place for a pointer: the variables `pp1` (`false`) and `pp2`, and the
`pp_link` of a page. -/
inductive Cell where
  | pp (high : Bool)
  | link (p : ℕ)
deriving DecidableEq

structure Reorder where
  cell : Cell → Option ℕ
  tp : Bool → Cell

namespace Reorder

def store (w : Reorder) (c : Cell) (v : Option ℕ) : Reorder := { w with cell := Function.update w.cell c v }

/-- `PDX(page2pa(pp)) >= pdx_limit`, where the limit is 1. -/
def pagetype (p : ℕ) : Bool := decide (1 ≤ pdx (page2pa p))

/-- `*tp[pagetype] = pp; tp[pagetype] = &pp->pp_link`. -/
def append (w : Reorder) (p : ℕ) : Reorder :=
  { w.store (w.tp (pagetype p)) (some p) with tp := Function.update w.tp (pagetype p) (.link p) }

/-- The loop over the list; `none` when the fuel is used up. -/
def loop : ℕ → Option ℕ → Reorder → Option Reorder
  | 0, _, _ => none
  | _ + 1, none, w => some w
  | n + 1, some p, w => loop n ((w.append p).cell (.link p)) (w.append p)

/-- `*tp[1] = 0; *tp[0] = pp2`. -/
def close (w : Reorder) : Reorder :=
  let w := w.store (w.tp true) none
  w.store (w.tp false) (w.cell (.pp true))

/-- The links and the list at the start; `pp1` and `pp2` are not initialised. -/
def start (link : ℕ → Option ℕ) (pp : Bool → Option ℕ) : Reorder where
  cell
    | .pp b => pp b
    | .link p => link p
  tp := .pp

end Reorder

/-- The links and the head of the list after the loop. -/
def reorder (fuel : ℕ) (link : ℕ → Option ℕ) (pp : Bool → Option ℕ) (pageFreeList : Option ℕ) :
    Option ((ℕ → Option ℕ) × Option ℕ) :=
  (Reorder.loop fuel pageFreeList (.start link pp)).map fun w =>
    (fun p => w.close.cell (.link p), w.close.cell (.pp false))

/-! ### Segments -/

/-- From the pointer in `c` the pages of the list follow one another, and `e` is
where the pointer to the next one belongs. -/
inductive LinkSeg (cell : Cell → Option ℕ) (e : Cell) : Cell → List ℕ → Prop where
  | nil : LinkSeg cell e e []
  | cons {c : Cell} {p : ℕ} {l : List ℕ} : cell c = some p → LinkSeg cell e (.link p) l → LinkSeg cell e c (p :: l)

namespace LinkSeg

variable {cell : Cell → Option ℕ} {c e : Cell} {l : List ℕ}

theorem end_mem (h : LinkSeg cell e c l) : e ∈ c :: l.map .link := by
  induction h with
  | nil => exact List.mem_cons_self
  | cons _ _ ih => exact List.mem_cons_of_mem _ ih

theorem snoc (h : LinkSeg cell e c l) {p : ℕ} (hp : cell e = some p) : LinkSeg cell (.link p) c (l ++ [p]) := by
  induction h with
  | nil => exact .cons hp .nil
  | cons hc _ ih => exact .cons hc ih

theorem store (h : LinkSeg cell e c l) {c' : Cell} (v : Option ℕ) (hnd : (c :: l.map .link).Nodup)
    (hc : c' ∉ c :: l.map .link ∨ c' = e) : LinkSeg (Function.update cell c' v) e c l := by
  induction h with
  | nil => exact .nil
  | @cons c p l hp hl ih =>
    have hne : c ≠ c' := by
      rintro rfl
      rcases hc with hc | rfl
      · exact hc List.mem_cons_self
      · exact (List.nodup_cons.mp hnd).1 hl.end_mem
    refine .cons (by rwa [Function.update_of_ne hne]) (ih (List.nodup_cons.mp hnd).2 ?_)
    exact hc.imp_left fun h => fun hm => h (List.mem_cons_of_mem c hm)

theorem linked (h : LinkSeg cell e c l) {r : List ℕ} (hr : Linked (fun p => cell (.link p)) (cell e) r) :
    Linked (fun p => cell (.link p)) (cell c) (l ++ r) := by
  induction h with
  | nil => exact hr
  | cons hc _ ih =>
    rw [hc]
    exact .cons ih

end LinkSeg

/-! ### The loop -/

namespace Reorder

/-- The pages of `done` have been appended to the two lists. -/
structure Woven (w : Reorder) (done : List ℕ) : Prop where
  seg : ∀ b, LinkSeg w.cell (w.tp b) (.pp b) (done.filter (pagetype · = b))
  nodup : done.Nodup

variable {w : Reorder} {done : List ℕ}

theorem Woven.cells (hw : w.Woven done) (b : Bool) :
    (Cell.pp b :: (done.filter (pagetype · = b)).map .link).Nodup := by
  refine List.nodup_cons.mpr ⟨by simp, (hw.nodup.filter _).map fun _ _ h => Cell.link.inj h⟩

theorem Woven.tp_notMem (hw : w.Woven done) {b b' : Bool} (hb : b ≠ b') :
    w.tp b ∉ Cell.pp b' :: (done.filter (pagetype · = b')).map .link := by
  intro hm
  have he := (hw.seg b).end_mem
  simp only [List.mem_cons, List.mem_map, List.mem_filter, decide_eq_true_eq] at hm he
  grind

theorem Woven.tp_ne_link (hw : w.Woven done) (b : Bool) {p : ℕ} (hp : p ∉ done) : w.tp b ≠ .link p := by
  intro h
  have he := (hw.seg b).end_mem
  rw [h] at he
  simp only [List.mem_cons, List.mem_map, List.mem_filter, reduceCtorEq, Cell.link.injEq, false_or] at he
  obtain ⟨q, hq, rfl⟩ := he
  exact hp hq.1

theorem Woven.append (hw : w.Woven done) {p : ℕ} (hp : p ∉ done) : (w.append p).Woven (done ++ [p]) := by
  refine ⟨fun b => ?_, List.nodup_append.mpr ⟨hw.nodup, List.nodup_singleton p, by grind⟩⟩
  rw [List.filter_append]
  rcases eq_or_ne (pagetype p) b with rfl | hb
  · have hs := (hw.seg _).store (some p) (hw.cells (pagetype p)) (.inr rfl)
    simpa [Reorder.append, Reorder.store] using hs.snoc (Function.update_self ..)
  · have hs := (hw.seg b).store (some p) (hw.cells b) (.inl (hw.tp_notMem hb))
    simpa [Reorder.append, Reorder.store, hb, Function.update_of_ne hb.symm] using hs

theorem Woven.loop {pp : Option ℕ} {l : List ℕ} (hw : w.Woven done)
    (hl : Linked (fun p => w.cell (.link p)) pp l) (hd : ∀ p ∈ l, p ∉ done) {fuel : ℕ} (hf : l.length < fuel) :
    ∃ w', Reorder.loop fuel pp w = some w' ∧ w'.Woven (done ++ l) := by
  induction l generalizing fuel pp w done with
  | nil =>
    obtain ⟨n, rfl⟩ := Nat.exists_eq_succ_of_ne_zero (by omega : fuel ≠ 0)
    rw [hl.eq_none]
    exact ⟨w, rfl, by rwa [List.append_nil]⟩
  | cons p l ih =>
    obtain ⟨n, rfl⟩ := Nat.exists_eq_succ_of_ne_zero (by omega : fuel ≠ 0)
    have hnd := List.nodup_cons.mp hl.nodup
    have hcell : ∀ q ∉ done, (w.append p).cell (.link q) = w.cell (.link q) := fun q hq =>
      Function.update_of_ne (hw.tp_ne_link _ hq).symm _ _
    rw [hl.head, Reorder.loop, hcell p (hd p List.mem_cons_self), ← List.singleton_append, ← List.append_assoc]
    refine ih (hw.append (hd p List.mem_cons_self)) (hl.tail.congr fun q hq => ?_) (fun q hq => ?_)
      (Nat.lt_of_succ_lt_succ hf)
    · exact hcell q (hd q (List.mem_cons_of_mem p hq))
    · have hqp : q ≠ p := ne_of_mem_of_not_mem hq hnd.1
      simpa [hqp] using hd q (List.mem_cons_of_mem p hq)

theorem Woven.close (hw : w.Woven done) :
    Linked (fun p => w.close.cell (.link p)) (w.close.cell (.pp false))
      (done.filter (pagetype · = false) ++ done.filter (pagetype · = true)) := by
  have hne : w.tp false ≠ w.tp true := fun h =>
    hw.tp_notMem Bool.false_ne_true (h ▸ (hw.seg true).end_mem)
  have hlow : LinkSeg w.close.cell (w.tp false) (.pp false) _ :=
    ((hw.seg false).store none (hw.cells false) (.inl (hw.tp_notMem Bool.false_ne_true.symm))).store _
      (hw.cells false) (.inr rfl)
  have hhigh : LinkSeg w.close.cell (w.tp true) (.pp true) _ :=
    ((hw.seg true).store none (hw.cells true) (.inr rfl)).store _ (hw.cells true)
      (.inl (hw.tp_notMem Bool.false_ne_true))
  refine hlow.linked ?_
  -- `*tp[0]` is `pp2`, and `*tp[1]`, which ends the list, is not that cell.
  have hend : w.close.cell (w.tp true) = none := by
    simp [Reorder.close, Reorder.store, Function.update_of_ne hne.symm]
  have hpp2 : w.close.cell (w.tp false) = w.close.cell (.pp true) := by
    have : Cell.pp true ≠ w.tp false := fun h =>
      hw.tp_notMem Bool.false_ne_true (h ▸ List.mem_cons_self)
    simp [Reorder.close, Reorder.store, Function.update_of_ne this]
  rw [hpp2, ← List.append_nil (done.filter (pagetype · = true))]
  refine hhigh.linked ?_
  rw [hend]
  exact .nil

end Reorder

/-- Whatever list of pages is free, the loop ends with the same pages: those below
4 MB first, then the others, each group in the order it had, and the last page
points nowhere. -/
theorem reorder_linked {link : ℕ → Option ℕ} {head : Option ℕ} {l : List ℕ} (hl : Linked link head l)
    (pp : Bool → Option ℕ) {fuel : ℕ} (hf : l.length < fuel) :
    ∃ link' head' l', reorder fuel link pp head = some (link', head') ∧ Linked link' head' l' ∧
      l' = l.filter (fun p => pdx (page2pa p) < 1) ++ l.filter (fun p => 1 ≤ pdx (page2pa p)) ∧
      (∀ p < 2 ^ 20, pdx (page2pa p) < 1 ↔ page2pa p < 4 * 2 ^ 20) ∧
      l'.Perm l ∧ l'.Nodup ∧ (∀ p, l'.getLast? = some p → link' p = none) := by
  have hw : (Reorder.start link pp).Woven [] := ⟨fun _ => .nil, List.nodup_nil⟩
  obtain ⟨w, hloop, hw⟩ := hw.loop hl (fun _ _ => List.not_mem_nil) hf
  have hres := hw.close
  refine ⟨_, _, _, by rw [reorder, hloop, Option.map_some], hres, ?_, fun p hp => ?_, ?_, hres.nodup,
    fun p hp => ?_⟩
  · simp [Reorder.pagetype]
  · rw [pdx_eq, page2pa, pgshift, Nat.shiftLeft_eq]
    omega
  · simpa using List.filter_append_perm (fun p => !Reorder.pagetype p) l
  · obtain ⟨l', hl'⟩ := List.getLast?_eq_some_iff.mp hp
    exact (hres.last_iff (hl' ▸ List.mem_append_right l' List.mem_cons_self)).mpr ⟨l', hl'⟩

theorem reorder_linked_three :
    ∃ link' head', reorder 4 (fun p => if p = 1024 then some 1 else if p = 1 then some 1025 else none)
      (fun _ => none) (some 1024) = some (link', head') ∧ Linked link' head' [1, 1024, 1025] := by
  obtain ⟨link', head', l', hr, hl, rfl, -⟩ := reorder_linked
    (show Linked (fun p => if p = 1024 then some 1 else if p = 1 then some 1025 else none) _ [1024, 1, 1025] from
      .cons (.cons (.cons .nil))) (fun _ => none) (show 3 < 4 by decide)
  exact ⟨link', head', hr, hl⟩

end Jos
