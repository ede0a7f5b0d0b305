/-
The search for a debugging symbol: `stab_binsearch` of kern/kdebug.c.

The entries of one type are in the order of their addresses, with entries of
other types between them.  A read outside of the range stops the program here.
An array of stabs has fewer than 2^30 entries, so that `l + r` is no overflow.

* `binsearch_brackets` — the contract, for addresses whose successor is no
  address of an entry if they are one themselves;
* `binsearch_wrong` — addresses before the first entry, and consecutive ones.
-/
import Jos.Lib.Prog
import Mathlib.Algebra.Group.Nat.Defs
import Mathlib.Data.Int.Notation

namespace Jos

open Prog

/-! ### The program -/

/-- The fields of `struct Stab` that the search looks at. -/
structure Stab where
  nType : UInt8
  nValue : UInt32

inductive StabStop where
  | outside
  | hang
  deriving DecidableEq

abbrev StabM := Prog StabStop Unit

/-- The array, the range to be searched, and the type. -/
structure StabRange where
  stabs : ℤ → Stab
  left : ℤ
  right : ℤ
  type : ℤ

/-- The variables of `stab_binsearch`. -/
structure Search where
  l : ℤ
  r : ℤ
  anyMatches : Bool
  addr : UInt32
  regionLeft : ℤ
  regionRight : ℤ

namespace StabRange

variable (R : StabRange)

def stab (i : ℤ) : StabM Stab := if R.left ≤ i ∧ i ≤ R.right then pure (R.stabs i) else halt .outside

/-- `stabs[i].n_type == type`. -/
def Typed (i : ℤ) : Prop := ((R.stabs i).nType.toNat : ℤ) = R.type
  deriving Decidable

/-- `while (m >= l && stabs[m].n_type != type) m--`, for at most `n` rounds. -/
def findBack (l : ℤ) : ℕ → ℤ → StabM ℤ
  | 0, m => pure m
  | n + 1, m => do
    if m < l then pure m
    else do
      let e ← R.stab m
      if (e.nType.toNat : ℤ) ≠ R.type then findBack l n (m - 1) else pure m

def searchRound (s : Search) : StabM Search := do
  let trueM := (s.l + s.r).tdiv 2
  let m ← R.findBack s.l (trueM + 1 - s.l).toNat trueM
  if m < s.l then pure { s with l := trueM + 1 }
  else do
    let e ← R.stab m
    if e.nValue < s.addr then
      pure { s with anyMatches := true, regionLeft := m, l := trueM + 1 }
    else if e.nValue > s.addr then
      pure { s with anyMatches := true, regionRight := m - 1, r := m - 1 }
    else pure { s with anyMatches := true, regionLeft := m, l := m, addr := s.addr + 1 }

def searchLoop : ℕ → Search → StabM Search
  | 0, _ => halt .hang
  | n + 1, s =>
    if s.l ≤ s.r then do
      let s' ← R.searchRound s
      searchLoop n s'
    else pure s

/-- The loop at the end, `while (l > *region_left && stabs[l].n_type != type) l--`. -/
def findLast (regionLeft : ℤ) : ℕ → ℤ → StabM ℤ := R.findBack (regionLeft + 1)

def start (addr : UInt32) : Search where
  l := R.left
  r := R.right
  anyMatches := false
  addr := addr
  regionLeft := R.left
  regionRight := R.right

/-- `stab_binsearch`: the new `*region_left` and `*region_right`. -/
def binsearch (addr : UInt32) : StabM (ℤ × ℤ) := do
  let s ← R.searchLoop (2 * (R.right - R.left + 1).toNat + 2) (R.start addr)
  if s.anyMatches = false then pure (s.regionLeft, s.regionLeft - 1)
  else do
    let l ← R.findLast s.regionLeft (s.regionRight - s.regionLeft).toNat s.regionRight
    pure (l, s.regionRight)

end StabRange

/-! ### One round -/

namespace StabRange

variable {R : StabRange} {s s' : Search} {i l m : ℤ}

def value (R : StabRange) (i : ℤ) : ℕ := (R.stabs i).nValue.toNat

theorem stab_eq (h : R.left ≤ i ∧ i ≤ R.right) : R.stab i () = .ret (R.stabs i) () := by
  rw [stab, if_pos h]
  rfl

theorem wp_findBack (hl : R.left ≤ l) : ∀ n m, m ≤ R.right → n = (m + 1 - l).toNat →
    wp (R.findBack l n m) (fun m' _ => m' ≤ m ∧ (m < l → m' = m) ∧ (l ≤ m + 1 → l ≤ m' + 1) ∧
      (l ≤ m' → R.Typed m') ∧ ∀ i, m' < i → i ≤ m → ¬ R.Typed i) (fun _ _ => False) () := by
  intro n
  induction n with
  | zero =>
    intro m _ hn
    exact ⟨Int.le_refl _, fun _ => rfl, fun h => h, fun h => by omega, fun i hlo hhi => by omega⟩
  | succ n ih =>
    intro m hr hn
    have hml : ¬ m < l := by omega
    rw [findBack, if_neg hml, wp_bind_of_ret (stab_eq ⟨by omega, hr⟩)]
    by_cases ht : ((R.stabs m).nType.toNat : ℤ) = R.type
    · rw [if_neg (not_not.mpr ht)]
      exact ⟨Int.le_refl _, fun _ => rfl, fun h => h, fun _ => ht, fun i hlo hhi => by omega⟩
    · rw [if_pos ht]
      refine (ih (m - 1) (by omega) (by omega)).imp ?_
      rintro m' - ⟨h1, -, h3, h4, h5⟩
      refine ⟨by omega, fun h => absurd h hml, fun _ => h3 (by omega), h4, fun i hlo hhi => ?_⟩
      by_cases him : i = m
      · rwa [him]
      · exact h5 i hlo (by omega)

/-- What a round can do, with the middle of the window at `c`. -/
inductive Round (R : StabRange) (s : Search) (c : ℤ) : Search → Prop where
  | skip : (∀ i, s.l ≤ i → i ≤ c → ¬ R.Typed i) → Round R s c { s with l := c + 1 }
  | below (m : ℤ) : s.l ≤ m → m ≤ c → R.Typed m → (∀ i, m < i → i ≤ c → ¬ R.Typed i) →
      R.value m < s.addr.toNat → Round R s c { s with anyMatches := true, regionLeft := m, l := c + 1 }
  | above (m : ℤ) : s.l ≤ m → m ≤ c → R.Typed m → s.addr.toNat < R.value m →
      Round R s c { s with anyMatches := true, regionRight := m - 1, r := m - 1 }
  | exact (m : ℤ) : s.l ≤ m → m ≤ c → R.Typed m → (∀ i, m < i → i ≤ c → ¬ R.Typed i) →
      R.value m = s.addr.toNat →
      Round R s c { s with anyMatches := true, regionLeft := m, l := m, addr := s.addr + 1 }

/-- The window is in the range. -/
structure Bounds (R : StabRange) (s : Search) : Prop where
  left : R.left ≤ s.l
  right : s.r ≤ R.right
  low : R.left ≤ s.regionLeft
  high : s.regionRight = s.r

theorem middle_mem (h0 : 0 ≤ l) {r : ℤ} (hlr : l ≤ r) : l ≤ (l + r).tdiv 2 ∧ (l + r).tdiv 2 ≤ r := by
  rw [Int.tdiv_eq_ediv_of_nonneg (by omega)]
  omega

theorem wp_searchRound (h : R.Bounds s) (h0 : 0 ≤ R.left) (hlr : s.l ≤ s.r) :
    wp (R.searchRound s) (fun s' _ => R.Round s ((s.l + s.r).tdiv 2) s') (fun _ _ => False) () := by
  have hleft := h.left
  have hright := h.right
  obtain ⟨hlo, hhi⟩ := middle_mem (Int.le_trans h0 hleft) hlr
  rw [searchRound]
  generalize (s.l + s.r).tdiv 2 = c at *
  simp only [wp_bind]
  refine (wp_findBack hleft _ c (by omega) rfl).imp ?_
  rintro m - ⟨hmc, -, -, htyped, hnone⟩
  by_cases hml : m < s.l
  · rw [if_pos hml]
    exact .skip fun i hi hi' => hnone i (by omega) hi'
  · have hsm : s.l ≤ m := Int.not_lt.mp hml
    rw [if_neg hml, wp_bind_of_ret (stab_eq ⟨by omega, by omega⟩)]
    by_cases hlt : (R.stabs m).nValue < s.addr
    · rw [if_pos hlt]
      exact .below m hsm hmc (htyped hsm) hnone (UInt32.lt_iff_toNat_lt.mp hlt)
    · rw [if_neg hlt]
      by_cases hgt : (R.stabs m).nValue > s.addr
      · rw [if_pos hgt]
        exact .above m hsm hmc (htyped hsm) (UInt32.lt_iff_toNat_lt.mp hgt)
      · rw [if_neg hgt]
        refine .exact m hsm hmc (htyped hsm) hnone ?_
        have h1 := mt UInt32.lt_iff_toNat_lt.mpr hlt
        have h2 := mt UInt32.lt_iff_toNat_lt.mpr hgt
        unfold value
        omega

theorem Round.bounds {c : ℤ} (hr : R.Round s c s') (h : R.Bounds s) (hlo : s.l ≤ c) (hhi : c ≤ s.r) :
    R.Bounds s' := by
  obtain ⟨hleft, hright, hlow, hhigh⟩ := h
  cases hr with
  | skip => exact ⟨show R.left ≤ c + 1 by omega, hright, hlow, hhigh⟩
  | below m hm => exact ⟨show R.left ≤ c + 1 by omega, hright, show R.left ≤ m by omega, hhigh⟩
  | above m hm hmc => exact ⟨hleft, show m - 1 ≤ R.right by omega, hlow, rfl⟩
  | exact m hm => exact ⟨show R.left ≤ m by omega, hright, show R.left ≤ m by omega, hhigh⟩

/-! ### The end of the search -/

/-- The first entry of the window is the one that is looked for. -/
def AtLeft (R : StabRange) (s : Search) : Prop := R.Typed s.l ∧ R.value s.l = s.addr.toNat
  deriving Decidable

/-- What gets smaller: a round makes the window smaller, or it increments the
address and is followed by one that does. -/
def rounds (R : StabRange) (s : Search) : ℕ :=
  2 * (s.r + 1 - s.l).toNat + if R.AtLeft s then 1 else 0

theorem succ_toNat_ne (a : UInt32) : (a + 1).toNat ≠ a.toNat := by
  rw [UInt32.toNat_add, UInt32.toNat_one]
  omega

theorem Round.rounds_lt {c : ℤ} (hr : R.Round s c s') (hlo : s.l ≤ c) (hhi : c ≤ s.r) :
    R.rounds s' < R.rounds s := by
  -- the last summand is at most one
  have hlast : ∀ t, (if R.AtLeft t then 1 else 0) ≤ 1 := fun t => by split <;> omega
  have hshrink : ∀ t : Search, t.r - t.l < s.r - s.l → R.rounds t < R.rounds s := by
    intro t ht
    have := hlast t
    unfold rounds
    omega
  cases hr with
  | skip => exact hshrink _ (by show s.r - (c + 1) < _; omega)
  | below m => exact hshrink _ (by show s.r - (c + 1) < _; omega)
  | above m hm hmc => exact hshrink _ (by show m - 1 - s.l < _; omega)
  | exact m hm hmc ht _ hv =>
    by_cases hml : m = s.l
    · subst hml
      have hat : R.AtLeft s := ⟨ht, hv⟩
      have hnot : ¬ R.AtLeft { s with anyMatches := true, regionLeft := s.l, l := s.l, addr := s.addr + 1 } :=
        fun hc => succ_toNat_ne s.addr (hc.2.symm.trans hv)
      unfold rounds
      rw [if_pos hat, if_neg hnot]
      exact Nat.lt_succ_self _
    · exact hshrink _ (by show s.r - m < _; omega)

theorem wp_searchLoop {I : Search → Prop} (h0 : 0 ≤ R.left)
    (hround : ∀ s s' c, R.Bounds s → I s → s.l ≤ c → c ≤ s.r → R.Round s c s' → I s') :
    ∀ n s, R.Bounds s → I s → R.rounds s < n →
      wp (R.searchLoop n s) (fun s' _ => R.Bounds s' ∧ I s' ∧ s'.r < s'.l) (fun _ _ => False) () := by
  intro n
  induction n with
  | zero => exact fun s _ _ hn => absurd hn (Nat.not_lt_zero _)
  | succ n ih =>
    intro s hb hi hn
    rw [searchLoop]
    by_cases hlr : s.l ≤ s.r
    · obtain ⟨hlo, hhi⟩ := middle_mem (Int.le_trans h0 hb.left) hlr
      rw [if_pos hlr]
      refine (wp_searchRound hb h0 hlr).bind ?_
      intro s' _ hr
      have hless := hr.rounds_lt hlo hhi
      exact ih s' (hr.bounds hb hlo hhi) (hround s s' _ hb hi hlo hhi hr) (by omega)
    · rw [if_neg hlr]
      exact ⟨hb, hi, Int.not_le.mp hlr⟩

/-! ### The contract -/

/-- The entries of the type in the range. -/
def Mem (R : StabRange) (i : ℤ) : Prop := R.left ≤ i ∧ i ≤ R.right ∧ R.Typed i

/-- The addresses of the entries of the type do not decrease. -/
def Sorted (R : StabRange) : Prop := ∀ i j, R.Mem i → R.Mem j → i ≤ j → R.value i ≤ R.value j

/-- If `addr` is the address of an entry, the next number is none. -/
def Clear (R : StabRange) (addr : ℕ) : Prop :=
  (∃ i, R.Mem i ∧ R.value i = addr) → addr + 1 < 2 ^ 32 ∧ ∀ i, R.Mem i → R.value i ≠ addr + 1

/-- What is known about the entries beside the window. -/
structure Window (R : StabRange) (addr : ℕ) (s : Search) : Prop where
  addr : s.addr.toNat = addr ∨ s.addr.toNat = addr + 1 ∧ ∃ i, R.Mem i ∧ R.value i = addr
  below : ∀ i, R.Mem i → i < s.l → R.value i < s.addr.toNat
  above : ∀ i, R.Mem i → s.r < i → s.addr.toNat < R.value i
  next : s.r = R.right ∨ R.Mem (s.r + 1)
  seen : s.anyMatches = true → ∃ i, R.Mem i
  unseen : s.anyMatches = false → s.r = R.right ∧ s.regionLeft = R.left ∧ ∀ i, R.Mem i → s.l ≤ i
  region : (∀ i, R.Mem i → s.l ≤ i) ∨ R.Mem s.regionLeft ∧ R.value s.regionLeft < s.addr.toNat ∧
    ∀ i, R.Mem i → i < s.l → i ≤ s.regionLeft

theorem Round.window {addr : ℕ} {c : ℤ} (hr : R.Round s c s') (hs : R.Sorted) (hclear : R.Clear addr)
    (hb : R.Bounds s) (h : R.Window addr s) (hhi : c ≤ s.r) : R.Window addr s' := by
  have hleft := hb.left
  have hright := hb.right
  cases hr with
  | skip hnone =>
    -- the entries that the window loses have other types
    have hless : ∀ i, R.Mem i → i < c + 1 → i < s.l := by
      intro i hi hlt
      by_contra hge
      exact hnone i (Int.not_lt.mp hge) (by omega) hi.2.2
    refine ⟨h.addr, fun i hi hlt => h.below i hi (hless i hi hlt), h.above, h.next, h.seen, fun hany => ?_, ?_⟩
    · obtain ⟨h1, h2, h3⟩ := h.unseen hany
      refine ⟨h1, h2, fun i hi => ?_⟩
      by_contra hlt
      exact absurd (h3 i hi) (Int.not_le.mpr (hless i hi (Int.not_le.mp hlt)))
    · rcases h.region with hr | ⟨h1, h2, h3⟩
      · refine .inl fun i hi => ?_
        by_contra hlt
        exact absurd (hr i hi) (Int.not_le.mpr (hless i hi (Int.not_le.mp hlt)))
      · exact .inr ⟨h1, h2, fun i hi hlt => h3 i hi (hless i hi hlt)⟩
  | below m hm hmc ht hnone hv =>
    have hmem : R.Mem m := ⟨by omega, by omega, ht⟩
    have hle : ∀ i, R.Mem i → i < c + 1 → i ≤ m := by
      intro i hi hlt
      by_contra hgt
      exact hnone i (Int.not_le.mp hgt) (by omega) hi.2.2
    refine ⟨h.addr, fun i hi hlt => ?_, h.above, h.next, fun _ => ⟨m, hmem⟩, fun hany => (nomatch hany),
      .inr ⟨hmem, hv, fun i hi hlt => hle i hi hlt⟩⟩
    exact Nat.lt_of_le_of_lt (hs i m hi hmem (hle i hi hlt)) hv
  | above m hm hmc ht hv =>
    have hmem : R.Mem m := ⟨by omega, by omega, ht⟩
    refine ⟨h.addr, h.below, fun i hi hlt => ?_, .inr ?_, fun _ => ⟨m, hmem⟩, fun hany => (nomatch hany),
      h.region⟩
    · exact Nat.lt_of_lt_of_le hv (hs m i hmem hi (by have : m - 1 < i := hlt; omega))
    · show R.Mem (m - 1 + 1)
      rwa [Int.sub_add_cancel]
  | exact m hm hmc ht hnone hv =>
    have hmem : R.Mem m := ⟨by omega, by omega, ht⟩
    -- it is the first exact match: the incremented address is that of no entry
    have haddr : s.addr.toNat = addr := by
      rcases h.addr with ha | ⟨ha, hex⟩
      · exact ha
      · exact absurd (hv.trans ha) ((hclear hex).2 m hmem)
    obtain ⟨hlt, hno⟩ := hclear ⟨m, hmem, hv.trans haddr⟩
    have hsucc : (s.addr + 1).toNat = addr + 1 := by
      rw [UInt32.toNat_add, haddr, UInt32.toNat_one, Nat.mod_eq_of_lt hlt]
    refine ⟨.inr ⟨hsucc, m, hmem, hv.trans haddr⟩, fun i hi him => ?_, fun i hi hlt => ?_, h.next,
      fun _ => ⟨m, hmem⟩, fun hany => (nomatch hany), .inr ⟨hmem, ?_, fun i hi him => Int.le_of_lt him⟩⟩
    · show R.value i < (s.addr + 1).toNat
      have := hs i m hi hmem (Int.le_of_lt him)
      omega
    · show (s.addr + 1).toNat < R.value i
      have h1 := h.above i hi hlt
      have h2 := hno i hi
      omega
    · show R.value m < (s.addr + 1).toNat
      omega

theorem start_bounds (R : StabRange) (addr : UInt32) : R.Bounds (R.start addr) :=
  ⟨Int.le_refl _, Int.le_refl _, Int.le_refl _, rfl⟩

theorem start_window (R : StabRange) (addr : UInt32) : R.Window addr.toNat (R.start addr) where
  addr := .inl rfl
  below _ hi hlt := absurd hi.1 (Int.not_le.mpr hlt)
  above _ hi hlt := absurd hi.2.1 (Int.not_le.mpr hlt)
  next := .inl rfl
  seen h := nomatch h
  unseen _ := ⟨rfl, rfl, fun _ hi => hi.1⟩
  region := .inl fun _ hi => hi.1

/-- Entry `j` is the last of the type with an address up to `addr`. -/
def IsLast (R : StabRange) (addr : ℕ) (j : ℤ) : Prop :=
  R.Mem j ∧ R.value j ≤ addr ∧ ∀ i, R.Mem i → R.value i ≤ addr → i ≤ j

/-- The index is that in front of the next entry of the type, or the end of the
range. -/
def IsEnd (R : StabRange) (j k : ℤ) : Prop :=
  (∀ i, R.Mem i → j < i → k < i) ∧ (R.Mem (k + 1) ∧ j ≤ k ∨ k = R.right)

theorem Window.last {addr : ℕ} {j m : ℤ} (h : R.Window addr s) (hb : R.Bounds s) (hend : s.r < s.l)
    (hj : R.IsLast addr j) (hle : m ≤ s.r) (hge : s.regionLeft ≤ s.r → s.regionLeft ≤ m)
    (htyped : s.regionLeft < m → R.Typed m) : m = j ∧ R.IsEnd j s.r := by
  obtain ⟨hmem, hv, hlast⟩ := hj
  have haddr := h.addr
  have hjr : j ≤ s.r := by
    by_contra hgt
    have := h.above j hmem (Int.not_le.mp hgt)
    omega
  rcases h.region with hno | ⟨hrl, hvl, hmax⟩
  · have := hno j hmem
    omega
  · -- the left end of the region is the last entry up to the address
    have hjrl : j = s.regionLeft :=
      Int.le_antisymm (hmax j hmem (by omega)) (hlast _ hrl (by omega))
    have hm : m = j := by
      have hlow := hge (by omega)
      by_contra hne
      have ht := htyped (by omega)
      have := hmax m ⟨Int.le_trans hb.low hlow, Int.le_trans hle hb.right, ht⟩ (by omega)
      omega
    refine ⟨hm, fun i hi hlt => ?_, ?_⟩
    · by_contra hle'
      have := hmax i hi (by omega)
      omega
    · exact h.next.symm.imp (fun hn => ⟨hn, hjr⟩) id

/-- The search ends, and reads in its range only.  If `addr` is not the address
of an entry with one at the next address, then the result is the last entry up
to `addr` and the end of its region, if there is such an entry.  If there is none, the
region is empty exactly if there is no entry of the type at all. -/
theorem binsearch_brackets (R : StabRange) (h0 : 0 ≤ R.left) (hs : R.Sorted) (addr : UInt32) :
    wp (R.binsearch addr) (fun p _ =>
      (R.Clear addr.toNat → ∀ j, R.IsLast addr.toNat j → p.1 = j ∧ R.IsEnd j p.2) ∧
      ((∀ i, R.Mem i → addr.toNat < R.value i) → (p.1 > p.2 ↔ ∀ i, ¬ R.Mem i)))
      (fun _ _ => False) () := by
  have hhigh : (∀ i, R.Mem i → addr.toNat < R.value i) → R.Clear addr.toNat := by
    rintro hall ⟨i, hi, hv⟩
    exact absurd (hall i hi) (by omega)
  have hfuel : R.rounds (R.start addr) < 2 * (R.right - R.left + 1).toNat + 2 := by
    have hwidth : (R.start addr).r + 1 - (R.start addr).l = R.right - R.left + 1 :=
      show R.right + 1 - R.left = _ by omega
    unfold rounds
    rw [hwidth]
    split <;> omega
  rw [binsearch]
  refine (wp_searchLoop (I := fun s => R.Clear addr.toNat → R.Window addr.toNat s) h0 ?_ _ _
    (start_bounds R addr) (fun _ => start_window R addr) hfuel).bind ?_
  · intro s s' c hb hi _ hhi hr hclear
    exact hr.window hs hclear hb (hi hclear) hhi
  rintro s - ⟨hb, hi, hend⟩
  by_cases hany : s.anyMatches = false
  · rw [if_pos hany]
    have hnone : R.Clear addr.toNat → ∀ j, ¬ R.Mem j := by
      intro hclear j hj
      obtain ⟨hr, -, hnone⟩ := (hi hclear).unseen hany
      have := hnone j hj
      have := hj.2.1
      omega
    refine ⟨fun hclear j hj => absurd hj.1 (hnone hclear j), fun hall => ?_⟩
    exact iff_of_true (show s.regionLeft > s.regionLeft - 1 by omega) (hnone (hhigh hall))
  · rw [if_neg hany, wp_bind, hb.high]
    refine (wp_findBack (R := R) (l := s.regionLeft + 1) (by have := hb.low; omega) _ _ hb.right ?_).imp ?_
    · rw [show s.r + 1 - (s.regionLeft + 1) = s.r - s.regionLeft by omega]
    rintro m - ⟨hle, -, hge, htyped, -⟩
    refine ⟨fun hclear j hj => ?_, fun hall => iff_of_false (Int.not_lt.mpr hle) fun hnone => ?_⟩
    · exact (hi hclear).last hb hend hj hle (fun h => by have := hge (by omega); omega)
        fun h => htyped (by omega)
    · obtain ⟨i, hi⟩ := (hi (hhigh hall)).seen (Bool.not_eq_false _ ▸ hany)
      exact hnone i hi

end StabRange

namespace Demo

/-- Two entries of type 36, with one of another type between them. -/
def stabs (v v' : UInt32) : StabRange where
  stabs i := if i = 1 then ⟨68, 0⟩ else if i = 0 then ⟨36, v⟩ else ⟨36, v'⟩
  left := 0
  right := 2
  type := 36

end Demo

theorem Demo.stabs_mem {v v' : UInt32} {i : ℤ} : (stabs v v').Mem i ↔ i = 0 ∨ i = 2 := by
  constructor
  · rintro ⟨hlo, hhi, ht⟩
    have hlo : 0 ≤ i := hlo
    have hhi : i ≤ 2 := hhi
    have hne : i ≠ 1 := by
      rintro rfl
      have ht : (68 : ℤ) = 36 := ht
      omega
    omega
  · rintro (rfl | rfl)
    · exact ⟨show (0 : ℤ) ≤ 0 by omega, show (0 : ℤ) ≤ 2 by omega, rfl⟩
    · exact ⟨show (0 : ℤ) ≤ 2 by omega, show (2 : ℤ) ≤ 2 by omega, rfl⟩

theorem Demo.stabs_sorted {v v' : UInt32} (h : v.toNat ≤ v'.toNat) : (stabs v v').Sorted := by
  intro i j hi hj hij
  rcases stabs_mem.mp hi with rfl | rfl
  · rcases stabs_mem.mp hj with rfl | rfl
    · exact Nat.le_refl _
    · exact h
  · rcases stabs_mem.mp hj with rfl | rfl
    · omega
    · exact Nat.le_refl _

open Demo

/-- An address in the region of the first entry. -/
theorem StabRange.binsearch_brackets_two : wp ((Demo.stabs 5 9).binsearch 7)
    (fun p _ => p.1 = 0 ∧ (Demo.stabs 5 9).IsEnd 0 p.2) (fun _ _ => False) () := by
  refine (binsearch_brackets (Demo.stabs 5 9) (by decide) (Demo.stabs_sorted (by decide)) 7).imp ?_
  intro p _ h
  refine h.1 ?_ 0 ⟨Demo.stabs_mem.mpr (.inl rfl), by decide, fun i hi hv => ?_⟩
  · rintro ⟨i, hi, hv⟩
    rcases Demo.stabs_mem.mp hi with rfl | rfl
    · exact absurd hv (by decide)
    · exact absurd hv (by decide)
  · rcases Demo.stabs_mem.mp hi with rfl | rfl
    · exact Int.le_refl _
    · exact absurd hv (by decide)

/-- The address 3 is before the first entry, but the region that is found is not
empty; and for the address 5 the entry at address 6 is found. -/
theorem StabRange.binsearch_wrong : (Demo.stabs 5 9).Sorted ∧
    (∀ i, (Demo.stabs 5 9).Mem i → 3 < (Demo.stabs 5 9).value i) ∧
    wp ((Demo.stabs 5 9).binsearch 3) (fun p _ => ¬ p.1 > p.2) (fun _ _ => False) () ∧
    (Demo.stabs 5 6).Sorted ∧ (Demo.stabs 5 6).IsLast 5 0 ∧
    wp ((Demo.stabs 5 6).binsearch 5) (fun p _ => p.1 = 2) (fun _ _ => False) () := by
  refine ⟨Demo.stabs_sorted (by decide), fun i hi => ?_, by decide +kernel,
    Demo.stabs_sorted (by decide), ⟨Demo.stabs_mem.mpr (.inl rfl), by decide, fun i hi hv => ?_⟩,
    by decide +kernel⟩
  · rcases Demo.stabs_mem.mp hi with rfl | rfl
    · decide
    · decide
  · rcases Demo.stabs_mem.mp hi with rfl | rfl
    · exact Int.le_refl _
    · exact absurd hv (by decide)

end Jos
