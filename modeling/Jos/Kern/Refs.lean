/-
What refers to a physical page.

A page of user memory is in use as the directory of an environment, as one of
its page tables, or through an entry of such a table.  `Ref` names these
places, `target` is the page a place refers to.  A store into a table or a
directory changes what one place refers to, and nothing else, as long as no
page has two uses of which one is a table.
-/
import Mathlib.Data.Finset.Prod
import Jos.Lib.RefPool
import Jos.Kern.Layout

namespace Jos

open Function

/-- A place that can refer to a page: the directory of slot `e`, its entry
`i`, or entry `j` of the table that entry leads to. -/
inductive Ref where
  | dir (e : ℕ)
  | tab (e i : ℕ)
  | page (e i j : ℕ)
deriving DecidableEq

namespace Ref

/-- The page is used by the MMU. -/
def isTable : Ref → Prop
  | .page _ _ _ => False
  | _ => True

instance : DecidablePred isTable := fun r =>
  match r with
  | .page _ _ _ => inferInstanceAs (Decidable False)
  | .dir _ => inferInstanceAs (Decidable True)
  | .tab _ _ => inferInstanceAs (Decidable True)

def slot : Ref → ℕ
  | .dir e => e
  | .tab e _ => e
  | .page e _ _ => e

/-- The place belongs to an address below `UTOP`. -/
def InRange : Ref → Prop
  | .dir e => e < nenv
  | .tab e i => e < nenv ∧ i < userPdes
  | .page e i j => e < nenv ∧ i < userPdes ∧ j < nptentries

instance : DecidablePred InRange := fun r =>
  match r with
  | .dir e => inferInstanceAs (Decidable (e < nenv))
  | .tab e i => inferInstanceAs (Decidable (e < nenv ∧ i < userPdes))
  | .page e i j => inferInstanceAs (Decidable (e < nenv ∧ i < userPdes ∧ j < nptentries))

end Ref

def allRefs : Finset Ref :=
  (Finset.range nenv).image Ref.dir ∪
    (Finset.range nenv ×ˢ Finset.range userPdes).image (fun p => Ref.tab p.1 p.2) ∪
    (Finset.range nenv ×ˢ Finset.range userPdes ×ˢ Finset.range nptentries).image
      fun p => Ref.page p.1 p.2.1 p.2.2

theorem mem_allRefs {r : Ref} : r ∈ allRefs ↔ r.InRange := by
  cases r <;> simp [allRefs, Ref.InRange]

attribute [irreducible] allRefs

/-- The page an entry leads to. -/
def entry (w : ℕ) : Option ℕ := if present w then some (frame w) else none

theorem entry_eq_some {w p : ℕ} : entry w = some p ↔ present w ∧ frame w = p := by
  unfold entry
  split <;> simp [*]

theorem entry_eq_none {w : ℕ} : entry w = none ↔ ¬ present w := by
  unfold entry
  split <;> simp [*]

@[simp] theorem entry_zero : entry 0 = none := entry_eq_none.mpr not_present_zero

/-- The page a place refers to, given the directories of the environments. -/
def target (dirs : ℕ → Option ℕ) (mem : ℕ → ℕ → ℕ) : Ref → Option ℕ
  | .dir e => dirs e
  | .tab e i => (dirs e).bind fun d => entry (mem d i)
  | .page e i j => ((dirs e).bind fun d => entry (mem d i)).bind fun t => entry (mem t j)

section Target

variable {dirs : ℕ → Option ℕ} {mem mem' : ℕ → ℕ → ℕ} {e i j d t : ℕ}

theorem target_tab (h : dirs e = some d) : target dirs mem (.tab e i) = entry (mem d i) := by
  simp [target, h]

theorem target_page (h : target dirs mem (.tab e i) = some t) :
    target dirs mem (.page e i j) = entry (mem t j) := by
  simp only [target] at h ⊢
  rw [h]
  rfl

theorem target_page_none (h : target dirs mem (.tab e i) = none) :
    target dirs mem (.page e i j) = none := by
  simp only [target] at h ⊢
  rw [h]
  rfl

theorem target_page_eq_some {p : ℕ} (h : target dirs mem (.page e i j) = some p) :
    ∃ t, target dirs mem (.tab e i) = some t ∧ entry (mem t j) = some p :=
  Option.bind_eq_some_iff.mp h

theorem tab_mem_of_page (h : Ref.page e i j ∈ allRefs) : Ref.tab e i ∈ allRefs :=
  mem_allRefs.mpr ⟨(mem_allRefs.mp h).1, (mem_allRefs.mp h).2.1⟩

theorem dir_mem_of_tab (h : Ref.tab e i ∈ allRefs) : Ref.dir e ∈ allRefs :=
  mem_allRefs.mpr (mem_allRefs.mp h).1

theorem target_eq_of_entries {dirs' : ℕ → Option ℕ} {r : Ref}
    (hdir : ∀ e, r = .dir e → dirs' e = dirs e)
    (htab : ∀ e i, r = .tab e i →
      target dirs' mem' (.tab e i) = target dirs mem (.tab e i))
    (hpage : ∀ e i j, r = .page e i j →
      target dirs' mem' (.tab e i) = target dirs mem (.tab e i) ∧
      ∀ t, target dirs mem (.tab e i) = some t → entry (mem' t j) = entry (mem t j)) :
    target dirs' mem' r = target dirs mem r := by
  cases r with
  | dir e => exact hdir e rfl
  | tab e i => exact htab e i rfl
  | page e i j =>
    obtain ⟨htab, hentry⟩ := hpage e i j rfl
    cases ht : target dirs mem (.tab e i) with
    | none => rw [target_page_none ht, target_page_none (htab.trans ht)]
    | some t => rw [target_page ht, target_page (htab.trans ht), hentry t ht]

theorem target_congr
    (h : ∀ r ∈ allRefs, r.isTable → ∀ p, target dirs mem r = some p → mem' p = mem p) :
    ∀ r ∈ allRefs, target dirs mem' r = target dirs mem r := by
  have htab : ∀ e i, Ref.tab e i ∈ allRefs →
      target dirs mem' (.tab e i) = target dirs mem (.tab e i) := by
    intro e i hr
    cases hd : dirs e with
    | none => simp [target, hd]
    | some d => rw [target_tab hd, target_tab hd, h (.dir e) (dir_mem_of_tab hr) trivial d hd]
  intro r hr
  refine target_eq_of_entries (fun _ _ => rfl) (fun e i hri => htab e i (hri ▸ hr))
    fun e i j hri => ?_
  subst hri
  refine ⟨htab e i (tab_mem_of_page hr), fun t ht => ?_⟩
  rw [h (.tab e i) (tab_mem_of_page hr) trivial t ht]

variable (mem') in
theorem target_setTable (hr : Ref.tab e i ∈ allRefs) (ht : target dirs mem (.tab e i) = some t)
    (hone : ∀ r ∈ allRefs, target dirs mem r = some t → r = .tab e i)
    (hother : ∀ q ≠ t, mem' q = mem q) (hrest : ∀ k ≠ j, mem' t k = mem t k) :
    ∀ r ∈ allRefs, target dirs mem' r =
      update (target dirs mem) (.page e i j) (entry (mem' t j)) r := by
  -- the table is nobody's directory
  have htab : ∀ e' i', Ref.tab e' i' ∈ allRefs →
      target dirs mem' (.tab e' i') = target dirs mem (.tab e' i') := by
    intro e' i' hr'
    cases hd : dirs e' with
    | none => simp [target, hd]
    | some d =>
      rw [target_tab hd, target_tab hd, hother d ?_]
      rintro rfl
      exact Ref.noConfusion (hone _ (dir_mem_of_tab hr') hd)
  intro r hr'
  by_cases hrp : r = .page e i j
  · subst hrp
    rw [update_self, target_page ((htab e i hr).trans ht)]
  rw [update_of_ne hrp]
  refine target_eq_of_entries (fun _ _ => rfl) (fun e' i' h => htab e' i' (h ▸ hr'))
    fun e' i' j' h => ?_
  subst h
  have hr' := tab_mem_of_page hr'
  refine ⟨htab e' i' hr', fun t' ht' => ?_⟩
  by_cases hts : t' = t
  · -- the same table, so the same directory entry, and another index
    subst hts
    obtain ⟨rfl, rfl⟩ := Ref.tab.inj (hone _ hr' ht')
    rw [hrest j' fun hj => hrp (by rw [hj])]
  · rw [hother t' hts]

variable (mem') in
theorem target_setDir (hr : Ref.tab e i ∈ allRefs) (hd : dirs e = some d)
    (hone : ∀ r ∈ allRefs, target dirs mem r = some d → r = .dir e)
    (hother : ∀ q ≠ d, mem' q = mem q) (hrest : ∀ k ≠ i, mem' d k = mem d k)
    (hold : ∀ j < nptentries, target dirs mem (.page e i j) = none)
    (hnew : ∀ t, entry (mem' d i) = some t → ∀ j < nptentries, entry (mem' t j) = none) :
    ∀ r ∈ allRefs, target dirs mem' r =
      update (target dirs mem) (.tab e i) (entry (mem' d i)) r := by
  have htab : ∀ e' i', Ref.tab e' i' ∈ allRefs → Ref.tab e' i' ≠ .tab e i →
      target dirs mem' (.tab e' i') = target dirs mem (.tab e' i') := by
    intro e' i' hr' hne
    cases hd' : dirs e' with
    | none => simp [target, hd']
    | some d' =>
      rw [target_tab hd', target_tab hd']
      by_cases hdd : d' = d
      · subst hdd
        cases hone _ (dir_mem_of_tab hr') hd'
        rw [hrest i' fun hi => hne (by rw [hi])]
      · rw [hother d' hdd]
  intro r hr'
  by_cases hrt : r = .tab e i
  · subst hrt
    rw [update_self, target_tab hd]
  rw [update_of_ne hrt]
  cases r with
  | dir e' => rfl
  | tab e' i' => exact htab e' i' hr' hrt
  | page e' i' j' =>
    by_cases hei : Ref.tab e' i' = .tab e i
    · obtain ⟨rfl, rfl⟩ := Ref.tab.inj hei
      have hj := (mem_allRefs.mp hr').2.2
      rw [hold j' hj]
      cases ht : target dirs mem' (.tab e' i') with
      | none => exact target_page_none ht
      | some t =>
        rw [target_page ht]
        exact hnew t (by rw [← target_tab hd, ht]) j' hj
    · have hr' := tab_mem_of_page hr'
      refine target_eq_of_entries (r := .page e' i' j') (fun _ h => Ref.noConfusion h)
        (fun _ _ h => Ref.noConfusion h) fun _ _ _ h => ?_
      obtain ⟨rfl, rfl, rfl⟩ := Ref.page.inj h
      refine ⟨htab _ _ hr' hei, fun t ht => ?_⟩
      rw [hother t]
      rintro rfl
      exact Ref.noConfusion (hone _ hr' ht)

theorem target_swapDir (x : Option ℕ)
    (hold : ∀ i < userPdes, target dirs mem (.tab e i) = none)
    (hnew : ∀ d, x = some d → ∀ i < userPdes, entry (mem d i) = none) :
    ∀ r ∈ allRefs, target (update dirs e x) mem r =
      update (target dirs mem) (.dir e) x r := by
  intro r hr
  by_cases hrd : r = .dir e
  · subst hrd
    simp [target]
  rw [update_of_ne hrd]
  have htab : ∀ e' i, Ref.tab e' i ∈ allRefs →
      target (update dirs e x) mem (.tab e' i) = target dirs mem (.tab e' i) := by
    intro e' i hr
    by_cases hee : e' = e
    · subst hee
      have hi := (mem_allRefs.mp hr).2
      rw [hold i hi]
      cases x with
      | none => simp [target]
      | some d => rw [target_tab (update_self ..), hnew d rfl i hi]
    · simp [target, update_of_ne hee]
  refine target_eq_of_entries (fun e' h => ?_) (fun e' i h => htab e' i (h ▸ hr))
    fun e' i j h => ?_
  · exact update_of_ne (fun hee => hrd (by rw [h, hee])) _ _
  · exact ⟨htab e' i (tab_mem_of_page (h ▸ hr)), fun _ _ => rfl⟩

end Target

end Jos
