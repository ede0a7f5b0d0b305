/-
Singly linked lists in an array of `next` pointers.

`Linked next head l`: following `next` from `head` visits the elements of `l`
in order and then ends.  A list that ends visits nothing twice
(`Linked.nodup`), so "no duplicates and no cycle" needs no separate proof.
Pushing an element that is off the list keeps it (`Linked.push`); pushing the
last element again makes a cycle (`Linked.push_last`).
-/
import Mathlib.Logic.Function.Basic
import Mathlib.Data.List.Nodup
import Mathlib.Tactic.Common

variable {α : Type} {next : α → Option α} {h : Option α} {a : α} {l : List α}

/-- Following `next` from the head visits exactly this list. -/
inductive Linked (next : α → Option α) : Option α → List α → Prop where
  | nil : Linked next none []
  | cons {a : α} {l : List α} : Linked next (next a) l → Linked next (some a) (a :: l)

namespace Linked

theorem tail (hl : Linked next h (a :: l)) : Linked next (next a) l := by
  cases hl with
  | cons hl => exact hl

theorem head (hl : Linked next h (a :: l)) : h = some a := by
  cases hl
  rfl

theorem pop (hl : Linked next (some a) l) : ∃ l', l = a :: l' ∧ Linked next (next a) l' := by
  cases hl with
  | cons hl => exact ⟨_, rfl, hl⟩

theorem eq_nil (hl : Linked next none l) : l = [] := by
  cases hl
  rfl

theorem eq_none (hl : Linked next h []) : h = none := by
  cases hl
  rfl

theorem unique {l' : List α} (hl : Linked next h l) (hl' : Linked next h l') : l = l' := by
  induction hl generalizing l' with
  | nil => exact hl'.eq_nil.symm
  | cons _ ih =>
    obtain ⟨l₂, rfl, h₂⟩ := hl'.pop
    rw [ih h₂]

theorem suffix_of_mem (hl : Linked next h l) {b : α} (hb : b ∈ l) :
    ∃ l', Linked next (some b) (b :: l') ∧ l'.length < l.length := by
  induction hl with
  | nil => cases hb
  | @cons a l hl ih =>
    rcases List.mem_cons.mp hb with rfl | hb
    · exact ⟨l, .cons hl, Nat.lt_succ_self _⟩
    · obtain ⟨l', hl', hlt⟩ := ih hb
      exact ⟨l', hl', Nat.lt_succ_of_lt hlt⟩

theorem nodup (hl : Linked next h l) : l.Nodup := by
  induction hl with
  | nil => exact List.nodup_nil
  | @cons a l hl ih =>
    refine List.nodup_cons.mpr ⟨fun ha => ?_, ih⟩
    obtain ⟨l', hl', hlt⟩ := hl.suffix_of_mem ha
    rw [hl'.tail.unique hl] at hlt
    exact Nat.lt_irrefl _ hlt

theorem congr {next' : α → Option α} (hl : Linked next h l) (hn : ∀ a ∈ l, next' a = next a) :
    Linked next' h l := by
  induction hl with
  | nil => exact .nil
  | @cons a l _ ih =>
    refine .cons ?_
    rw [hn a List.mem_cons_self]
    exact ih fun b hb => hn b (List.mem_cons_of_mem a hb)

theorem last_iff (hl : Linked next h l) (ha : a ∈ l) : next a = none ↔ ∃ l', l = l' ++ [a] := by
  constructor
  · intro hnone
    induction hl with
    | nil => cases ha
    | @cons b l hl ih =>
      rcases List.mem_cons.mp ha with rfl | hmem
      · rw [hnone] at hl
        exact ⟨[], by rw [hl.eq_nil, List.nil_append]⟩
      · obtain ⟨l', rfl⟩ := ih hmem
        exact ⟨b :: l', rfl⟩
  · rintro ⟨l', rfl⟩
    induction l' generalizing h with
    | nil => exact hl.tail.eq_none
    | cons b l' ih => exact ih hl.tail (List.mem_append_right l' List.mem_cons_self)

variable [DecidableEq α]

theorem update (hl : Linked next h l) (ha : a ∉ l) (v : Option α) :
    Linked (Function.update next a v) h l :=
  hl.congr fun _ hb => Function.update_of_ne (ne_of_mem_of_not_mem hb ha) _ _

theorem push (hl : Linked next h l) (ha : a ∉ l) :
    Linked (Function.update next a h) (some a) (a :: l) := by
  refine .cons ?_
  rw [Function.update_self]
  exact hl.update ha h

theorem mem_of_update {l' : List α} (hl : Linked next h (l ++ [a])) {v : Option α}
    (hl' : Linked (Function.update next a v) h l') : a ∈ l' := by
  have hnd := hl.nodup
  induction l generalizing h l' with
  | nil =>
    rw [hl.head] at hl'
    obtain ⟨l₂, rfl, -⟩ := hl'.pop
    exact List.mem_cons_self
  | cons b l ih =>
    rw [hl.head] at hl'
    obtain ⟨l₂, rfl, h₂⟩ := hl'.pop
    have hne : b ≠ a := by
      rintro rfl
      exact (List.nodup_cons.mp hnd).1 (List.mem_append_right l List.mem_cons_self)
    rw [Function.update_of_ne hne] at h₂
    exact List.mem_cons_of_mem b (ih hl.tail h₂ (List.nodup_cons.mp hnd).2)

theorem push_last (hl : Linked next h (l ++ [a])) (l' : List α) :
    ¬ Linked (Function.update next a h) (some a) l' := by
  intro hc
  obtain ⟨l₂, rfl, h₂⟩ := hc.pop
  rw [Function.update_self] at h₂
  exact (List.nodup_cons.mp hc.nodup).1 (hl.mem_of_update h₂)

end Linked
