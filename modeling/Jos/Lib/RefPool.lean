/-
Reference-counted objects with a free list.

The objects of a pool are referred to from slots `i ∈ S`; `f i` is the object
slot `i` holds.  Each object has a counter modulo `M` and a link field; the
objects nothing refers to form a linked list.  While an operation is under way
some references are in its `hand`, counted but not in a slot yet, and some
objects are `held`: off the list with no reference.

* `refs_store`, `refs_clear` — how the number of references changes with one slot;
* `refs_emptied` — and with many;
* `RefPool` — counters and list agree with the slots;
* `pop`, `push`, `take`, `release`, `store`, `clear`, `drop` — the moves
  operations are made of;
* `Excl` — slots of some kind share their object with no other slot.
-/
import Mathlib.Data.Finset.Card
import Mathlib.Algebra.Order.Group.Nat
import Jos.Lib.Linked

open Function

variable {ι α : Type} [DecidableEq ι] [DecidableEq α] {S : Finset ι} {f g : ι → Option α}
  {i : ι} {a : α}

/-- How many slots of `S` refer to `a`. -/
def refs (S : Finset ι) (f : ι → Option α) (a : α) : ℕ := (S.filter fun i => f i = some a).card

omit [DecidableEq ι] in
theorem refs_congr (h : ∀ i ∈ S, f i = g i) (a : α) : refs S f a = refs S g a := by
  unfold refs
  rw [Finset.filter_congr fun i hi => by rw [h i hi]]

omit [DecidableEq ι] in
theorem refs_eq_zero : refs S f a = 0 ↔ ∀ i ∈ S, f i ≠ some a := by
  rw [refs, Finset.card_eq_zero, Finset.filter_eq_empty_iff]

omit [DecidableEq ι] in
theorem refs_pos (hi : i ∈ S) (h : f i = some a) : 0 < refs S f a := by
  rw [Nat.pos_iff_ne_zero, Ne, refs_eq_zero]
  exact fun h0 => h0 i hi h

omit [DecidableEq ι] in
theorem refs_le_of_imp (h : ∀ i ∈ S, f i = some a → g i = some a) : refs S f a ≤ refs S g a := by
  refine Finset.card_le_card fun i hi => ?_
  rw [Finset.mem_filter] at hi ⊢
  exact ⟨hi.1, h i hi.1 hi.2⟩

omit [DecidableEq ι] in
theorem eq_of_refs_le_one {j : ι} (h : refs S f a ≤ 1) (hi : i ∈ S) (hia : f i = some a)
    (hj : j ∈ S) (hja : f j = some a) : i = j :=
  Finset.card_le_one.1 h i (Finset.mem_filter.2 ⟨hi, hia⟩) j (Finset.mem_filter.2 ⟨hj, hja⟩)

omit [DecidableEq ι] in
theorem exists_ne_of_one_lt_refs (h : 1 < refs S f a) (i : ι) :
    ∃ j ∈ S, j ≠ i ∧ f j = some a := by
  obtain ⟨j, hj, hne⟩ := Finset.exists_mem_ne h i
  rw [Finset.mem_filter] at hj
  exact ⟨j, hj.1, hne, hj.2⟩

omit [DecidableEq ι] in
theorem refs_emptied {P : ι → Prop} [DecidablePred P] (hP : ∀ i ∈ S, P i → g i = none)
    (hN : ∀ i ∈ S, ¬ P i → g i = f i) (a : α) :
    refs S g a + refs (S.filter P) f a = refs S f a := by
  have hleft : S.filter (fun i => g i = some a) = (S.filter fun i => f i = some a).filter (¬ P ·) := by
    ext i
    simp only [Finset.mem_filter, and_assoc]
    refine and_congr_right fun hi => ?_
    by_cases hPi : P i
    · simp [hP i hi hPi, hPi]
    · simp [hN i hi hPi, hPi]
  have hright : (S.filter P).filter (fun i => f i = some a) =
      (S.filter fun i => f i = some a).filter P := Finset.filter_comm _ _ _
  rw [refs, refs, refs, hleft, hright, Nat.add_comm]
  exact Finset.card_filter_add_card_filter_not P

theorem refs_of_list {L : List (ι × α)} (hS : ∀ x ∈ L, x.1 ∈ S)
    (hf : ∀ i ∈ S, ∀ a, f i = some a ↔ (i, a) ∈ L) (a : α) :
    refs S f a = ((L.filter (·.2 = a)).map Prod.fst).toFinset.card := by
  unfold refs
  congr 1
  ext i
  simp only [Finset.mem_filter, List.mem_toFinset, List.mem_map, List.mem_filter]
  constructor
  · rintro ⟨hi, ha⟩
    exact ⟨(i, a), ⟨(hf i hi a).mp ha, by simp⟩, rfl⟩
  · rintro ⟨⟨j, b⟩, ⟨hL, hb⟩, rfl⟩
    have hba : b = a := by simpa using hb
    subst hba
    exact ⟨hS _ hL, (hf j (hS _ hL) b).mpr hL⟩

theorem refs_store (hi : i ∈ S) (h : f i = none) (a b : α) :
    refs S (update f i (some a)) b = refs S f b + if b = a then 1 else 0 := by
  unfold refs
  by_cases hb : b = a
  · subst hb
    have heq : S.filter (fun j => update f i (some b) j = some b) =
        insert i (S.filter fun j => f j = some b) := by
      ext j
      by_cases hj : j = i <;> simp [Finset.mem_filter, Finset.mem_insert, hj, hi]
    rw [heq, Finset.card_insert_of_notMem (by simp [h]), if_pos rfl]
  · rw [if_neg hb, Nat.add_zero]
    congr 1
    ext j
    by_cases hj : j = i <;> simp [Finset.mem_filter, hj, h, Ne.symm hb]

theorem refs_clear (hi : i ∈ S) (h : f i = some a) (b : α) :
    refs S (update f i none) b + (if b = a then 1 else 0) = refs S f b := by
  have hs := refs_store (f := update f i none) hi (update_self i none f) a b
  rw [update_idem, ← h, update_eq_self] at hs
  exact hs.symm

/-! ### The pool -/

/-- Counters and free list agree with the references in slots and in hand. -/
structure RefPool (M : ℕ) (pool : Set α) (S : Finset ι) (f : ι → Option α) (held hand : List α)
    (cnt : α → ℕ) (next : α → Option α) (head : Option α) (free : List α) : Prop where
  linked : Linked next head free
  mem_free : ∀ a, a ∈ free ↔ a ∈ pool ∧ refs S f a + hand.count a = 0 ∧ a ∉ held
  next_none : ∀ a ∈ pool, a ∉ free → next a = none
  cnt_eq : ∀ a ∈ pool, cnt a = (refs S f a + hand.count a) % M
  bound : ∀ a ∈ pool, refs S f a < M

namespace RefPool

variable {M : ℕ} {pool : Set α} {held hand : List α} {cnt : α → ℕ} {next : α → Option α}
  {head : Option α} {free : List α}

omit [DecidableEq ι] in
theorem congr_slots (h : RefPool M pool S f held hand cnt next head free)
    (hg : ∀ i ∈ S, g i = f i) : RefPool M pool S g held hand cnt next head free := by
  have hr : ∀ a, refs S g a = refs S f a := refs_congr hg
  exact ⟨h.linked, by simpa only [hr] using h.mem_free, h.next_none,
    by simpa only [hr] using h.cnt_eq, by simpa only [hr] using h.bound⟩

omit [DecidableEq ι] in
theorem not_mem_free_of_ref (h : RefPool M pool S f held hand cnt next head free) (hi : i ∈ S)
    (ha : f i = some a) : a ∉ free := by
  intro hmem
  have := ((h.mem_free a).mp hmem).2.1
  have := refs_pos hi ha
  omega

omit [DecidableEq ι] in
theorem pop (h : RefPool M pool S f held hand cnt next (some a) free) :
    ∃ free', free = a :: free' ∧ a ∈ pool ∧ refs S f a = 0 ∧ a ∉ hand ∧ a ∉ held ∧
      RefPool M pool S f (a :: held) hand cnt (update next a none) (next a) free' := by
  obtain ⟨free', rfl, hl⟩ := h.linked.pop
  obtain ⟨ha, hnd⟩ := List.nodup_cons.mp h.linked.nodup
  obtain ⟨hp, h0, hheld⟩ := (h.mem_free a).mp List.mem_cons_self
  refine ⟨free', rfl, hp, by omega, List.count_eq_zero.mp (by omega), hheld, hl.update ha none,
    fun b => ?_, fun b hb hf => ?_, h.cnt_eq, h.bound⟩
  · have hb := h.mem_free b
    by_cases hba : b = a
    · subst hba
      simp [ha]
    · simpa [hba] using hb
  · by_cases hba : b = a
    · rw [hba, update_self]
    · rw [update_of_ne hba]
      exact h.next_none b hb (by simp [hba, hf])

omit [DecidableEq ι] in
theorem push (h : RefPool M pool S f (a :: held) hand cnt next head free) (ha : a ∈ pool)
    (h0 : refs S f a = 0) (hhand : a ∉ hand) (hheld : a ∉ held) :
    RefPool M pool S f held hand cnt (update next a head) (some a) (a :: free) := by
  have hf : a ∉ free := fun hf => ((h.mem_free a).mp hf).2.2 List.mem_cons_self
  refine ⟨h.linked.push hf, fun b => ?_, fun b hb hbf => ?_, h.cnt_eq, h.bound⟩
  · have hb := h.mem_free b
    by_cases hba : b = a
    · subst hba
      simp [ha, h0, hheld, List.count_eq_zero.mpr hhand]
    · simpa [hba] using hb
  · obtain ⟨hba, hbf⟩ := not_or.mp (fun hmem => hbf (List.mem_cons.mpr hmem))
    rw [update_of_ne hba]
    exact h.next_none b hb hbf

omit [DecidableEq ι] in
theorem take (h : RefPool M pool S f held hand cnt next head free) (hf : a ∉ free) :
    RefPool M pool S f held (a :: hand) (update cnt a ((cnt a + 1) % M)) next head
      free := by
  refine ⟨h.linked, fun b => ?_, h.next_none, fun b hb => ?_, h.bound⟩
  · by_cases hba : b = a
    · subst hba
      simp [hf]
    · rw [h.mem_free b, List.count_cons_of_ne (Ne.symm hba)]
  · by_cases hba : b = a
    · subst hba
      rw [update_self, h.cnt_eq b hb, List.count_cons_self, Nat.mod_add_mod, Nat.add_assoc]
    · rw [update_of_ne hba, h.cnt_eq b hb, List.count_cons_of_ne (Ne.symm hba)]

omit [DecidableEq ι] in
theorem release (h : RefPool M pool S f (a :: held) hand cnt next head free)
    (ha : refs S f a + hand.count a ≠ 0) :
    RefPool M pool S f held hand cnt next head free := by
  refine ⟨h.linked, fun b => ?_, h.next_none, h.cnt_eq, h.bound⟩
  rw [h.mem_free b]
  by_cases hba : b = a
  · subst hba
    exact ⟨fun hb => absurd hb.2.1 ha, fun hb => absurd hb.2.1 ha⟩
  · simp [hba]

theorem store (h : RefPool M pool S f held (a :: hand) cnt next head free) (hi : i ∈ S)
    (hfi : f i = none) (hM : refs S f a + 1 < M) :
    RefPool M pool S (update f i (some a)) held hand cnt next head free := by
  have hr : ∀ b, refs S (update f i (some a)) b + hand.count b =
      refs S f b + (a :: hand).count b := by
    intro b
    rw [refs_store hi hfi, List.count_cons]
    by_cases hba : b = a
    · simp [hba]
      omega
    · simp [hba, Ne.symm hba]
  refine ⟨h.linked, fun b => ?_, h.next_none, fun b hb => ?_, fun b hb => ?_⟩
  · rw [hr]
    exact h.mem_free b
  · rw [hr]
    exact h.cnt_eq b hb
  · rw [refs_store hi hfi]
    have := h.bound b hb
    by_cases hba : b = a
    · subst hba
      simpa using hM
    · simpa [hba] using this

theorem clear (h : RefPool M pool S f held hand cnt next head free) (hi : i ∈ S)
    (hfi : f i = some a) :
    RefPool M pool S (update f i none) held (a :: hand) cnt next head free := by
  have hr : ∀ b, refs S (update f i none) b + (a :: hand).count b =
      refs S f b + hand.count b := by
    intro b
    rw [← refs_clear hi hfi b, List.count_cons]
    by_cases hba : b = a
    · simp [hba]
      omega
    · simp [hba, Ne.symm hba]
  refine ⟨h.linked, fun b => ?_, h.next_none, fun b hb => ?_, fun b hb => ?_⟩
  · rw [hr]
    exact h.mem_free b
  · rw [hr]
    exact h.cnt_eq b hb
  · have := h.bound b hb
    have := refs_clear hi hfi b
    omega

omit [DecidableEq ι] in
theorem drop_cnt (h : RefPool M pool S f held (a :: hand) cnt next head free) (ha : a ∈ pool)
    (hM : refs S f a + hand.count a < M) :
    (cnt a + (M - 1)) % M = refs S f a + hand.count a := by
  rw [h.cnt_eq a ha, List.count_cons_self, Nat.mod_add_mod,
    show refs S f a + (hand.count a + 1) + (M - 1) = refs S f a + hand.count a + M by omega,
    Nat.add_mod_right, Nat.mod_eq_of_lt hM]

omit [DecidableEq ι] in
theorem drop (h : RefPool M pool S f held (a :: hand) cnt next head free) (ha : a ∈ pool)
    (hM : refs S f a + hand.count a < M) (h0 : refs S f a + hand.count a ≠ 0) :
    RefPool M pool S f held hand (update cnt a ((cnt a + (M - 1)) % M)) next head
      free := by
  refine ⟨h.linked, fun b => ?_, h.next_none, fun b hb => ?_, h.bound⟩
  · rw [h.mem_free b]
    by_cases hba : b = a
    · subst hba
      refine ⟨fun hb => absurd hb.2.1 ?_, fun hb => absurd hb.2.1 h0⟩
      rw [List.count_cons_self]
      omega
    · rw [List.count_cons_of_ne (Ne.symm hba)]
  · by_cases hba : b = a
    · subst hba
      rw [update_self, h.drop_cnt ha hM, Nat.mod_eq_of_lt hM]
    · rw [update_of_ne hba, h.cnt_eq b hb, List.count_cons_of_ne (Ne.symm hba)]

omit [DecidableEq ι] in
theorem drop_last (h : RefPool M pool S f held (a :: hand) cnt next head free) (ha : a ∈ pool)
    (hM : 0 < M) (h0 : refs S f a + hand.count a = 0) (hheld : a ∉ held) :
    RefPool M pool S f held hand (update cnt a ((cnt a + (M - 1)) % M))
      (update next a head) (some a) (a :: free) := by
  have hf : a ∉ free := fun hf => by
    have := ((h.mem_free a).mp hf).2.1
    simp at this
  refine ⟨h.linked.push hf, fun b => ?_, fun b hb hbf => ?_, fun b hb => ?_, h.bound⟩
  · have hb := h.mem_free b
    by_cases hba : b = a
    · subst hba
      simp only [List.mem_cons_self, true_iff]
      exact ⟨ha, h0, hheld⟩
    · rw [List.count_cons_of_ne (Ne.symm hba)] at hb
      simpa [hba] using hb
  · obtain ⟨hba, hbf⟩ := not_or.mp (fun hmem => hbf (List.mem_cons.mpr hmem))
    rw [update_of_ne hba]
    exact h.next_none b hb hbf
  · by_cases hba : b = a
    · subst hba
      rw [update_self, h.drop_cnt ha (by omega), Nat.mod_eq_of_lt (by omega)]
    · rw [update_of_ne hba, h.cnt_eq b hb, List.count_cons_of_ne (Ne.symm hba)]

end RefPool

/-! ### Exclusive slots -/

/-- The object of an exclusive slot is in no other slot. -/
def Excl (S : Finset ι) (ex : ι → Prop) (f : ι → Option α) : Prop :=
  ∀ i ∈ S, ∀ j ∈ S, ∀ a, ex i → f i = some a → f j = some a → i = j

namespace Excl

variable {ex : ι → Prop}

omit [DecidableEq ι] [DecidableEq α] in
theorem congr_slots (h : Excl S ex f) (hg : ∀ i ∈ S, g i = f i) : Excl S ex g := by
  intro i hi j hj a hex ha ha'
  rw [hg i hi] at ha
  rw [hg j hj] at ha'
  exact h i hi j hj a hex ha ha'

omit [DecidableEq α] in
theorem clear (h : Excl S ex f) (i : ι) : Excl S ex (update f i none) := by
  intro j hj k hk b hex hb hb'
  by_cases hji : j = i
  · simp [hji] at hb
  · by_cases hki : k = i
    · simp [hki] at hb'
    · rw [update_of_ne hji] at hb
      rw [update_of_ne hki] at hb'
      exact h j hj k hk b hex hb hb'

omit [DecidableEq α] in
theorem store (h : Excl S ex f) (hex : ∀ j ∈ S, ex j → f j ≠ some a)
    (hi : ex i → ∀ j ∈ S, f j ≠ some a) : Excl S ex (update f i (some a)) := by
  intro j hj k hk b hexj hb hb'
  by_cases hji : j = i
  · subst hji
    by_cases hki : k = j
    · exact hki.symm
    · rw [update_self] at hb
      rw [update_of_ne hki] at hb'
      exact absurd (hb'.trans hb.symm) (hi hexj k hk)
  · rw [update_of_ne hji] at hb
    by_cases hki : k = i
    · subst hki
      rw [update_self] at hb'
      exact absurd (hb.trans hb'.symm) (hex j hj hexj)
    · rw [update_of_ne hki] at hb'
      exact h j hj k hk b hexj hb hb'

omit [DecidableEq ι] in
theorem refs_eq [DecidablePred ex] (h : Excl S ex f) (a : α) :
    refs S f a = (S.filter fun i => ¬ ex i ∧ f i = some a).card +
      if ∃ i ∈ S, ex i ∧ f i = some a then 1 else 0 := by
  by_cases hex : ∃ i ∈ S, ex i ∧ f i = some a
  · obtain ⟨i, hi, hexi, hia⟩ := hex
    have hall : S.filter (fun j => f j = some a) = {i} := by
      ext j
      simp only [Finset.mem_filter, Finset.mem_singleton]
      constructor
      · exact fun hj => (h i hi j hj.1 a hexi hia hj.2).symm
      · rintro rfl
        exact ⟨hi, hia⟩
    have hnone : S.filter (fun j => ¬ ex j ∧ f j = some a) = ∅ := by
      rw [Finset.filter_eq_empty_iff]
      rintro j hj ⟨hnj, hja⟩
      exact hnj (h i hi j hj a hexi hia hja ▸ hexi)
    rw [refs, hall, hnone, if_pos ⟨i, hi, hexi, hia⟩]
    rfl
  · rw [if_neg hex, Nat.add_zero, refs]
    congr 1
    refine Finset.filter_congr fun j hj => ⟨fun hja => ⟨fun hexj => ?_, hja⟩, And.right⟩
    exact hex ⟨j, hj, hexj, hja⟩

end Excl
