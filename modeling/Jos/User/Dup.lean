/-
Descriptors of one environment: `fd_lookup`, `fd_close`, `close` and `dup` of
lib/fd.c, with the `dev_close` functions of the devices.

A descriptor is a page for a `struct Fd` and perhaps a page of data, at places
given by its index.  The functions work on the page table through system calls.

* `fd_calls_does` — `close` and `dup` are runs of `FdSys`, in which the steps of
  all environments interleave;
* `dup_shares` — a duplicate shares its pages with the original, exactly if its
  index is that of another descriptor or the call fails away from all of them;
* `dup_overwrites` — other indices.
-/
import Jos.Lib.Prog
import Jos.Lib.Run
import Jos.User.FdTable

namespace Jos

open Prog Function

/-! ### The program -/

/-- The devices of `devtab`. -/
inductive Dev where
  | file
  | sock
  | pipe
  | cons
  deriving DecidableEq

/-- `devtab`, by `dev_id`: the letters f, s, p and c. -/
def devtab : List (ℕ × Dev) := [(102, .file), (115, .sock), (112, .pipe), (99, .cons)]

/-- What the functions read: the page table through `uvpd` and `uvpt`, zero where
there is no entry, and `fd_dev_id` of the `Fd` pages, by frame. -/
structure FdEnv where
  uvpt : ℕ → ℕ
  devId : ℕ → ℕ

abbrev FdM := Prog Empty FdEnv

namespace FdEnv

def sysPageUnmap (k : ℕ) : FdM ℤ := fun s =>
  if k < userPages then .ret 0 { s with uvpt := update s.uvpt k 0 } else .ret (-eInval) s

/-- `sys_page_map(0, .., 0, .., perm)`; `ok` says whether there is memory for a
page table. -/
def sysPageMap (src dst perm : ℕ) (ok : Bool) : FdM ℤ := fun s =>
  if src < userPages ∧ dst < userPages ∧ present (s.uvpt src) then
    if ok then .ret 0 { s with uvpt := update s.uvpt dst (mkPte (frame (s.uvpt src)) perm) }
    else .ret (-eNoMem) s
  else .ret (-eInval) s

def devLookup (id : ℕ) : Except ℤ Dev :=
  match devtab.find? fun d => d.1 == id with
  | some d => .ok d.2
  | none => .error (-eInval)

/-- `fd_lookup`, with the page number of the `Fd` page. -/
def fdLookup (fdnum : ℤ) : FdM (Except ℤ ℕ) := do
  if fdnum < 0 ∨ fdnum ≥ maxfd then pure (.error (-eInval))
  else do
    let fd := index2fd fdnum.toNat
    let pte ← gets fun s => s.uvpt fd
    if present pte then pure (.ok fd) else pure (.error (-eInval))

/-- `dev_close`; `answer` is what the file server or the network server answers
to the request, if there is one. -/
def devClose (answer : ℤ) (fd : ℕ) : Dev → FdM ℤ
  | .file => pure answer
  | .sock => pure answer
  | .pipe => do
    let _ ← sysPageUnmap fd
    sysPageUnmap (fd2data fd)
  | .cons => pure 0

/-- `dev_lookup` and the `dev_close` of the device. -/
def closeDevice (answer : ℤ) (fd id : ℕ) : FdM ℤ :=
  match devLookup id with
  | .ok dev => devClose answer fd dev
  | .error r => pure r

def fdClose (answer : ℤ) (fd : ℕ) (mustExist : Bool) : FdM ℤ := do
  let found ← fdLookup (fd2num fd)
  match found with
  | .error r => pure (if mustExist then r else 0)
  | .ok fd2 =>
    if fd ≠ fd2 then pure 0
    else do
      let id ← gets fun s => s.devId (frame (s.uvpt fd))
      let r ← closeDevice answer fd id
      let _ ← sysPageUnmap fd
      pure r

def close (answer fdnum : ℤ) : FdM ℤ := do
  let found ← fdLookup fdnum
  match found with
  | .error r => pure r
  | .ok fd => fdClose answer fd true

/-- `newfdnum` as an index: an `int`, in 32 bits. -/
def index (fdnum : ℤ) : ℕ := (fdnum % 2 ^ 32).toNat

/-- The two mappings of `dup`, of the data page if there is one and of the `Fd`
page; `ok` and `ok'` say whether there is memory for them. -/
def dupPages (oldfd newfd ova nva : ℕ) (ok ok' : Bool) : FdM ℤ := do
  let opte ← gets fun s => s.uvpt ova
  let r ← (if present opte then sysPageMap ova nva (opte &&& pteSyscall) ok else pure 0 : FdM ℤ)
  if r < 0 then pure r
  else do
    let pte ← gets fun s => s.uvpt oldfd
    sysPageMap oldfd newfd (pte &&& pteSyscall) ok'

/-- `dup` once it has found the old descriptor. -/
def dupTo (newfdnum answer : ℤ) (oldfd newfd ova nva : ℕ) (ok ok' : Bool) : FdM ℤ := do
  let _ ← close answer newfdnum
  let r ← dupPages oldfd newfd ova nva ok ok'
  if r < 0 then do
    let _ ← sysPageUnmap newfd
    let _ ← sysPageUnmap nva
    pure r
  else pure newfdnum

def dup (oldfdnum newfdnum answer : ℤ) (ok ok' : Bool) : FdM ℤ := do
  let found ← fdLookup oldfdnum
  match found with
  | .error r => pure r
  | .ok oldfd =>
    let newfd := index2fd (index newfdnum)
    dupTo newfdnum answer oldfd newfd (fd2data oldfd) (fd2data newfd) ok ok'

end FdEnv

/-! ### Pages of descriptors -/

/-- The entry of the `Fd` page, and that of the data page, of descriptor `i`. -/
def FdEnv.desc (s : FdEnv) (i : ℕ) : ℕ × ℕ := (s.uvpt (index2fd i), s.uvpt (index2data i))

/-- The entries map one page with the same permissions. -/
def SamePage (pte pte' : ℕ) : Prop :=
  present pte ∧ present pte' ∧ frame pte' = frame pte ∧ pte' &&& pteSyscall = pte &&& pteSyscall
  deriving Decidable

namespace FdEnv

section Places

variable {i j : ℕ}

theorem index2fd_ne (hi : i < maxfd) (hj : j < maxfd) (h : i ≠ j) : index2fd i ≠ index2fd j := by
  rw [index2fd_of_lt hi, index2fd_of_lt hj]
  omega

theorem index2data_ne (hi : i < maxfd) (hj : j < maxfd) (h : i ≠ j) : index2data i ≠ index2data j := by
  rw [index2data_of_lt hi, index2data_of_lt hj]
  omega

theorem index2fd_ne_data (hi : i < maxfd) (hj : j < maxfd) : index2fd i ≠ index2data j := by
  rw [index2fd_of_lt hi, index2data_of_lt hj]
  omega

theorem index2fd_lt (hi : i < maxfd) : index2fd i < userPages := by
  rw [index2fd_of_lt hi]
  exact place_lt (by unfold maxfd at *; omega)

theorem index2data_lt (hi : i < maxfd) : index2data i < userPages := by
  rw [index2data_of_lt hi]
  exact place_lt (by unfold maxfd at *; omega)

theorem fd2num_index2fd (hi : i < maxfd) : fd2num (index2fd i) = i := by
  rw [index2fd_of_lt hi]
  unfold fd2num fdtable maxfd pgsize at *
  omega

theorem index_natCast (hi : i < maxfd) : index i = i := by
  unfold index maxfd at *
  omega

end Places

/-- From `s` to `s'` only pages of descriptor `i` have changed. -/
def OnlyDesc (s s' : FdEnv) (i : ℕ) : Prop :=
  s'.devId = s.devId ∧ ∀ k, k ≠ index2fd i → k ≠ index2data i → s'.uvpt k = s.uvpt k

section Steps

variable {s s' s'' : FdEnv} {i j src dst perm : ℕ} {answer : ℤ} {ok : Bool}

theorem OnlyDesc.refl (s : FdEnv) (i : ℕ) : OnlyDesc s s i := ⟨rfl, fun _ _ _ => rfl⟩

theorem OnlyDesc.trans (h : OnlyDesc s s' i) (h' : OnlyDesc s' s'' i) : OnlyDesc s s'' i :=
  ⟨h'.1.trans h.1, fun k hk hk' => (h'.2 k hk hk').trans (h.2 k hk hk')⟩

theorem OnlyDesc.desc (h : OnlyDesc s s' i) (hi : i < maxfd) (hj : j < maxfd) (hne : j ≠ i) :
    s'.desc j = s.desc j := by
  unfold FdEnv.desc
  rw [h.2 _ (index2fd_ne hj hi hne) (index2fd_ne_data hj hi),
    h.2 _ (index2fd_ne_data hi hj).symm (index2data_ne hj hi hne)]

theorem OnlyDesc.update (s : FdEnv) {k : ℕ} (hk : k = index2fd i ∨ k = index2data i) (pte : ℕ) :
    OnlyDesc s { s with uvpt := update s.uvpt k pte } i := by
  refine ⟨rfl, fun x hx hx' => update_of_ne ?_ _ _⟩
  rintro rfl
  exact hk.elim hx hx'

theorem wp_sysPageUnmap {k : ℕ} (hk : k = index2fd i ∨ k = index2data i) :
    wp (sysPageUnmap k) (fun _ s' => OnlyDesc s s' i) (fun _ _ => False) s := by
  unfold wp sysPageUnmap
  by_cases hlt : k < userPages
  · rw [if_pos hlt]
    exact OnlyDesc.update s hk 0
  · rw [if_neg hlt]
    exact OnlyDesc.refl s i

theorem wp_sysPageMap (hdst : dst = index2fd i ∨ dst = index2data i) :
    wp (sysPageMap src dst perm ok) (fun r s' => OnlyDesc s s' i ∧
      (r < 0 ∧ s' = s ∨
        r = 0 ∧ s'.uvpt = update s.uvpt dst (mkPte (frame (s.uvpt src)) perm)))
      (fun _ _ => False) s := by
  unfold wp sysPageMap
  by_cases hc : src < userPages ∧ dst < userPages ∧ present (s.uvpt src)
  · rw [if_pos hc]
    cases ok with
    | true => exact ⟨OnlyDesc.update s hdst _, .inr ⟨rfl, rfl⟩⟩
    | false => exact ⟨OnlyDesc.refl s i, .inl ⟨by decide, rfl⟩⟩
  · rw [if_neg hc]
    exact ⟨OnlyDesc.refl s i, .inl ⟨by decide, rfl⟩⟩

theorem fdLookup_natCast (hi : i < maxfd) : fdLookup i s =
    .ret (if present (s.uvpt (index2fd i)) then .ok (index2fd i) else .error (-eInval)) s := by
  have hrange : ¬ ((i : ℤ) < 0 ∨ (i : ℤ) ≥ maxfd) := by omega
  rw [fdLookup, if_neg hrange, Int.toNat_natCast]
  show (if present (s.uvpt (index2fd i)) then _ else _ : FdM (Except ℤ ℕ)) s = _
  split
  · rfl
  · rfl

theorem fdLookup_cases (fdnum : ℤ) (s : FdEnv) :
    (∃ i < maxfd, fdnum = (i : ℤ) ∧ present (s.uvpt (index2fd i)) ∧
      fdLookup fdnum s = .ret (.ok (index2fd i)) s) ∨ fdLookup fdnum s = .ret (.error (-eInval)) s := by
  by_cases hrange : fdnum < 0 ∨ fdnum ≥ maxfd
  · right
    rw [fdLookup, if_pos hrange]
    rfl
  · obtain ⟨i, rfl⟩ : ∃ i : ℕ, fdnum = i := ⟨fdnum.toNat, by omega⟩
    have hi : i < maxfd := by omega
    rw [fdLookup_natCast hi]
    split
    next hp => exact .inl ⟨i, hi, rfl, hp, rfl⟩
    next => exact .inr rfl

theorem wp_devClose (hi : i < maxfd) (dev : Dev) :
    wp (devClose answer (index2fd i) dev) (fun _ s' => OnlyDesc s s' i) (fun _ _ => False) s := by
  cases dev with
  | file => exact OnlyDesc.refl s i
  | sock => exact OnlyDesc.refl s i
  | cons => exact OnlyDesc.refl s i
  | pipe =>
    rw [devClose]
    refine (wp_sysPageUnmap (.inl rfl)).bind ?_
    intro _ s₁ h₁
    rw [fd2data_index2fd hi]
    refine (wp_sysPageUnmap (.inr rfl)).imp ?_
    intro _ s₂ h₂
    exact h₁.trans h₂

theorem wp_closeDevice (hi : i < maxfd) (id : ℕ) :
    wp (closeDevice answer (index2fd i) id) (fun _ s' => OnlyDesc s s' i) (fun _ _ => False) s := by
  rw [closeDevice]
  cases devLookup id with
  | error r => exact OnlyDesc.refl s i
  | ok dev => exact wp_devClose hi dev

/-- `close` of an open descriptor: the device, then the page itself. -/
theorem wp_close {Q : ℤ → FdEnv → Prop} (hi : i < maxfd) (hp : present (s.uvpt (index2fd i)))
    (h : wp (closeDevice answer (index2fd i) (s.devId (frame (s.uvpt (index2fd i))))) (fun r s₁ =>
      wp (sysPageUnmap (index2fd i)) (fun _ s₂ => Q r s₂) (fun _ _ => False) s₁) (fun _ _ => False) s) :
    wp (close answer i) Q (fun _ _ => False) s := by
  rw [close, wp_bind_of_ret (fdLookup_natCast hi), if_pos hp]
  show wp (fdClose answer (index2fd i) true) _ _ _
  rw [fdClose, wp_bind, fd2num_index2fd hi, wp_of_ret (fdLookup_natCast hi), if_pos hp]
  show wp (if index2fd i ≠ index2fd i then _ else _) _ _ _
  rw [if_neg (not_not.mpr rfl), wp_bind, wp_gets]
  refine h.bind fun r s₁ h₁ => ?_
  rw [wp_bind]
  exact h₁

theorem close_error (hno : i < maxfd → ¬ present (s.uvpt (index2fd i))) :
    close answer i s = .ret (-eInval) s := by
  have hlook : fdLookup i s = .ret (.error (-eInval)) s := by
    by_cases hi : i < maxfd
    · rw [fdLookup_natCast hi, if_neg (hno hi)]
    · rw [fdLookup, if_pos (by omega)]
      rfl
  rw [close, ret_bind hlook]
  rfl

theorem close_other (hi : i < maxfd) :
    wp (close answer i) (fun _ s' => OnlyDesc s s' i) (fun _ _ => False) s := by
  by_cases hp : present (s.uvpt (index2fd i))
  · refine wp_close hi hp ((wp_closeDevice hi _).imp fun _ s₁ h₁ => ?_)
    refine (wp_sysPageUnmap (.inl rfl)).imp fun _ s₂ h₂ => ?_
    exact h₁.trans h₂
  · rw [wp_of_ret (close_error fun _ => hp)]
    exact OnlyDesc.refl s i

end Steps

theorem samePage_mkPte {pte : ℕ} (hp : present pte) :
    SamePage pte (mkPte (frame pte) (pte &&& pteSyscall)) := by
  have hsmall : pte &&& pteSyscall < 4096 := Nat.lt_of_le_of_lt Nat.and_le_right (by decide)
  refine ⟨hp, present_mkPte _ _, frame_mkPte_of_lt ?_ hsmall, ?_⟩
  · rw [frame_eq]
    exact Nat.mod_lt _ (by decide)
  · -- the present bit is there already
    have hbit : (pte &&& pteSyscall) ||| pteP = pte &&& pteSyscall := by
      have hodd : pte.testBit 0 = true := by
        rw [Nat.testBit_zero, decide_eq_true_eq]
        exact (present_iff pte).mp hp
      refine Nat.eq_of_testBit_eq fun b => ?_
      rw [Nat.testBit_or, Nat.testBit_and]
      cases b with
      | zero =>
        rw [hodd]
        rfl
      | succ b =>
        have hno : pteP.testBit (b + 1) = false := by
          rw [pteP, Nat.testBit_succ]
          exact Nat.zero_testBit b
        rw [hno, Bool.or_false]
    rw [and_eq_flags_and _ (by decide), flags_mkPte, hbit, Nat.mod_eq_of_lt hsmall, Nat.and_assoc,
      Nat.and_self]

theorem wp_dupPages {s : FdEnv} {i j : ℕ} {ok ok' : Bool} (hi : i < maxfd) (hj : j < maxfd)
    (hne : i ≠ j) (hopen : present (s.uvpt (index2fd i))) :
    wp (dupPages (index2fd i) (index2fd j) (index2data i) (index2data j) ok ok')
      (fun r s' => OnlyDesc s s' j ∧ (0 ≤ r → SamePage (s'.desc i).1 (s'.desc j).1 ∧
        (present (s'.desc i).2 → SamePage (s'.desc i).2 (s'.desc j).2))) (fun _ _ => False) s := by
  rw [dupPages, wp_bind, wp_gets, wp_bind]
  -- the data page first
  have hdata : wp (if present (s.uvpt (index2data i)) then
        sysPageMap (index2data i) (index2data j) (s.uvpt (index2data i) &&& pteSyscall) ok else pure 0)
      (fun r s' => OnlyDesc s s' j ∧ (0 ≤ r → present (s.uvpt (index2data i)) →
        SamePage (s.uvpt (index2data i)) (s'.uvpt (index2data j)))) (fun _ _ => False) s := by
    by_cases hp : present (s.uvpt (index2data i))
    · rw [if_pos hp]
      refine (wp_sysPageMap (.inr rfl)).imp ?_
      rintro r s' ⟨ho, hr | ⟨-, hmap⟩⟩
      · exact ⟨ho, fun hc => by omega⟩
      · refine ⟨ho, fun _ _ => ?_⟩
        rw [hmap, update_self]
        exact samePage_mkPte hp
    · rw [if_neg hp]
      exact ⟨OnlyDesc.refl s j, fun _ hc => absurd hc hp⟩
  refine hdata.imp ?_
  rintro r s₁ ⟨ho₁, hsame₁⟩
  have hfd₁ : s₁.uvpt (index2fd i) = s.uvpt (index2fd i) :=
    ho₁.2 _ (index2fd_ne hi hj hne) (index2fd_ne_data hi hj)
  by_cases hr : r < 0
  · rw [if_pos hr]
    exact ⟨ho₁, fun hc => by omega⟩
  · rw [if_neg hr, wp_bind, wp_gets]
    refine (wp_sysPageMap (.inl rfl)).imp ?_
    rintro r' s₂ ⟨ho₂, hr' | ⟨-, hmap⟩⟩
    · exact ⟨ho₁.trans ho₂, fun hc => by omega⟩
    · have ho := ho₁.trans ho₂
      refine ⟨ho, fun _ => ?_⟩
      have hnew : s₂.uvpt (index2fd j) =
          mkPte (frame (s.uvpt (index2fd i))) (s.uvpt (index2fd i) &&& pteSyscall) := by
        rw [hmap, update_self, hfd₁]
      have hdata : s₂.uvpt (index2data j) = s₁.uvpt (index2data j) := by
        rw [hmap, update_of_ne (index2fd_ne_data hj hj).symm]
      rw [ho.desc hj hi hne]
      unfold FdEnv.desc
      rw [hnew, hdata]
      exact ⟨samePage_mkPte hopen, fun hp => hsame₁ (by omega) hp⟩

/-- What `dup` is to do: it succeeds with a shared `Fd` page and a shared data page, or
fails; and the other descriptors stay as they are. -/
def Shares (s : FdEnv) (oldfdnum newfdnum r : ℤ) (s' : FdEnv) : Prop :=
  (∀ j < maxfd, (j : ℤ) ≠ newfdnum → s'.desc j = s.desc j) ∧
  (r < 0 ∧ (∀ i < maxfd, (i : ℤ) = oldfdnum → s'.desc i = s.desc i) ∨
    ∃ i < maxfd, ∃ j < maxfd, (i : ℤ) = oldfdnum ∧ (j : ℤ) = newfdnum ∧ r = newfdnum ∧
      SamePage (s'.desc i).1 (s'.desc j).1 ∧
      (present (s'.desc i).2 → SamePage (s'.desc i).2 (s'.desc j).2))

section Dup

variable {s : FdEnv} {i j n v : ℕ} {answer newfdnum : ℤ} {ok ok' : Bool}

theorem wp_dupTo_other (hi : i < maxfd) (hj : j < maxfd) (hij : i ≠ j)
    (hopen : present (s.uvpt (index2fd i))) :
    wp (dupTo j answer (index2fd i) (index2fd j) (index2data i) (index2data j) ok ok')
      (Shares s i j) (fun _ _ => False) s := by
  rw [dupTo]
  refine (close_other hj).bind ?_
  intro _ s₁ h₁
  have hopen₁ : present (s₁.uvpt (index2fd i)) := by
    rwa [h₁.2 _ (index2fd_ne hi hj hij) (index2fd_ne_data hi hj)]
  refine (wp_dupPages hi hj hij hopen₁).bind ?_
  rintro r s₂ ⟨h₂, hsame⟩
  -- whatever happens, only the new descriptor changes
  have hothers : ∀ {s'}, OnlyDesc s s' j → ∀ k < maxfd, (k : ℤ) ≠ j → s'.desc k = s.desc k :=
    fun h k hk hkj => h.desc hj hk (by omega)
  by_cases hr : r < 0
  · rw [if_pos hr]
    refine (wp_sysPageUnmap (.inl rfl)).bind ?_
    intro _ s₃ h₃
    refine (wp_sysPageUnmap (.inr rfl)).bind ?_
    intro _ s₄ h₄
    have h := ((h₁.trans h₂).trans h₃).trans h₄
    exact ⟨hothers h, .inl ⟨hr, fun k hk hki => hothers h k hk (by omega)⟩⟩
  · rw [if_neg hr]
    exact ⟨hothers (h₁.trans h₂), .inr ⟨i, hi, j, hj, rfl, rfl, rfl, hsame (by omega)⟩⟩

/-! A duplicate over itself: once the descriptor is closed there is nothing to map. -/

theorem wp_unmap {k : ℕ} : wp (sysPageUnmap k) (fun _ s' => ∀ p,
    s'.uvpt p = if p = k ∧ p < userPages then 0 else s.uvpt p) (fun _ _ => False) s := by
  unfold wp sysPageUnmap
  by_cases hlt : k < userPages
  · rw [if_pos hlt]
    intro p
    by_cases hp : p = k
    · subst hp
      rw [if_pos ⟨rfl, hlt⟩]
      exact update_self ..
    · rw [if_neg fun hc => hp hc.1]
      exact update_of_ne hp ..
  · rw [if_neg hlt]
    exact fun p => (if_neg fun (hc : p = k ∧ p < userPages) => hlt (hc.1 ▸ hc.2)).symm

theorem close_closed (hi : i < maxfd) (hopen : present (s.uvpt (index2fd i))) :
    wp (close answer i) (fun _ s' => s'.uvpt (index2fd i) = 0) (fun _ _ => False) s := by
  refine wp_close hi hopen ((wp_closeDevice hi _).imp fun _ s₁ _ => ?_)
  exact wp_unmap.imp fun _ _ h => (h _).trans (if_pos ⟨rfl, index2fd_lt hi⟩)

theorem wp_dupTo_self (hi : i < maxfd) (hopen : present (s.uvpt (index2fd i))) :
    wp (dupTo i answer (index2fd i) (index2fd i) (index2data i) (index2data i) ok ok')
      (fun _ s' => s'.uvpt (index2fd i) = 0) (fun _ _ => False) s := by
  have hne : index2fd i ≠ index2data i := index2fd_ne_data hi hi
  have hmap : ∀ {t perm b}, t.uvpt (index2fd i) = 0 →
      wp (sysPageMap (index2data i) (index2data i) perm b) (fun _ t' => t'.uvpt (index2fd i) = 0)
        (fun _ _ => False) t := fun h =>
    (wp_sysPageMap (.inr rfl)).mono (fun _ _ ht => by
      rcases ht.2 with ⟨-, rfl⟩ | ⟨-, heq⟩
      · exact h
      · rw [heq, update_of_ne hne, h]) fun _ _ hc => hc
  have hself : ∀ {t perm b}, t.uvpt (index2fd i) = 0 →
      wp (sysPageMap (index2fd i) (index2fd i) perm b) (fun _ t' => t'.uvpt (index2fd i) = 0)
        (fun _ _ => False) t := fun h => by
    unfold wp sysPageMap
    rw [if_neg fun hc => absurd hc.2.2 (by rw [h]; decide)]
    exact h
  have hunmap : ∀ {t k}, t.uvpt (index2fd i) = 0 →
      wp (sysPageUnmap k) (fun _ t' => t'.uvpt (index2fd i) = 0) (fun _ _ => False) t := fun h =>
    wp_unmap.imp fun _ _ ht => (ht _).trans (ite_eq_left_iff.mpr fun _ => h)
  rw [dupTo]
  refine (close_closed hi hopen).bind fun _ s₁ h₁ => ?_
  have hpages : wp (dupPages (index2fd i) (index2fd i) (index2data i) (index2data i) ok ok')
      (fun _ t => t.uvpt (index2fd i) = 0) (fun _ _ => False) s₁ := by
    rw [dupPages, wp_bind, wp_gets, wp_bind]
    have hdata : wp (if present (s₁.uvpt (index2data i)) then sysPageMap (index2data i) (index2data i)
        (s₁.uvpt (index2data i) &&& pteSyscall) ok else pure 0)
        (fun _ t => t.uvpt (index2fd i) = 0) (fun _ _ => False) s₁ := by
      split
      · exact hmap h₁
      · exact h₁
    refine hdata.imp fun r t ht => ?_
    split
    · exact ht
    · exact hself ht
  refine hpages.bind fun r t ht => ?_
  split
  · rw [wp_bind]
    refine (hunmap ht).imp fun _ t₁ ht₁ => ?_
    rw [wp_bind]
    exact hunmap ht₁
  · exact ht

/-! An index that is none of a descriptor. -/

/-- The two mappings cannot both be made at `n` and `v`. -/
def CannotMap (s : FdEnv) (i n v : ℕ) (ok ok' : Bool) : Prop :=
  present (s.desc i).2 ∧ ¬ (v < userPages ∧ ok = true) ∨ ¬ (n < userPages ∧ ok' = true)

theorem sysPageMap_eq {src dst perm : ℕ} (hsrc : src < userPages) (hp : present (s.uvpt src)) :
    wp (sysPageMap src dst perm ok) (fun r s' =>
      (¬ (dst < userPages ∧ ok = true) ∧ r < 0 ∧ s' = s) ∨
      (dst < userPages ∧ ok = true) ∧ r = 0 ∧
        s' = { s with uvpt := update s.uvpt dst (mkPte (frame (s.uvpt src)) perm) })
      (fun _ _ => False) s := by
  unfold wp sysPageMap
  by_cases hd : dst < userPages
  · rw [if_pos ⟨hsrc, hd, hp⟩]
    cases ok with
    | true => exact .inr ⟨⟨hd, rfl⟩, rfl, rfl⟩
    | false => exact .inl ⟨fun hc => absurd hc.2 (by decide), by decide, rfl⟩
  · rw [if_neg fun hc => hd hc.2.1]
    exact .inl ⟨fun hc => hd hc.1, by decide, rfl⟩

theorem wp_dupTo_astray (hi : i < maxfd) (hopen : present (s.uvpt (index2fd i)))
    (hout : newfdnum < 0 ∨ maxfd ≤ newfdnum) :
    wp (dupTo newfdnum answer (index2fd i) n (index2data i) v ok ok') (fun r s' =>
      (¬ CannotMap s i n v ok ok' ∧ r = newfdnum) ∨ CannotMap s i n v ok ok' ∧ r < 0 ∧
        ∀ p, s'.uvpt p = if (p = n ∨ p = v) ∧ p < userPages then 0 else s.uvpt p)
      (fun _ _ => False) s := by
  have hclose : close answer newfdnum s = .ret (-eInval) s := by
    have hlook : fdLookup newfdnum s = .ret (.error (-eInval)) s := by
      rw [fdLookup, if_pos (by omega)]
      rfl
    rw [close, ret_bind hlook]
    rfl
  have hpages : wp (dupPages (index2fd i) n (index2data i) v ok ok') (fun r t =>
      (¬ CannotMap s i n v ok ok' ∧ ¬ r < 0) ∨ CannotMap s i n v ok ok' ∧ r < 0 ∧
        ∀ p, ¬ (p = v ∧ p < userPages) → t.uvpt p = s.uvpt p) (fun _ _ => False) s := by
    have hlast : ∀ t : FdEnv, (∀ p, ¬ (p = v ∧ p < userPages) → t.uvpt p = s.uvpt p) →
        present (t.uvpt (index2fd i)) → (present (s.desc i).2 → v < userPages ∧ ok = true) →
        wp (do
          let pte ← gets fun s => s.uvpt (index2fd i)
          sysPageMap (index2fd i) n (pte &&& pteSyscall) ok') (fun r t =>
          (¬ CannotMap s i n v ok ok' ∧ ¬ r < 0) ∨ CannotMap s i n v ok ok' ∧ r < 0 ∧
            ∀ p, ¬ (p = v ∧ p < userPages) → t.uvpt p = s.uvpt p) (fun _ _ => False) t := by
      intro t hsame hpres hdata
      rw [wp_bind, wp_gets]
      refine (sysPageMap_eq (index2fd_lt hi) hpres).imp ?_
      rintro r t' (⟨hno, hr, rfl⟩ | ⟨hyes, rfl, -⟩)
      · exact .inr ⟨.inr hno, hr, hsame⟩
      · exact .inl ⟨fun hc => hc.elim (fun h => h.2 (hdata h.1)) fun h => h hyes, by decide⟩
    rw [dupPages, wp_bind, wp_gets, wp_bind]
    by_cases hp : present (s.uvpt (index2data i))
    · rw [if_pos hp]
      refine (sysPageMap_eq (index2data_lt hi) hp).imp ?_
      rintro r t (⟨hno, hr, rfl⟩ | ⟨hyes, rfl, rfl⟩)
      · rw [if_pos hr]
        exact .inr ⟨.inl ⟨hp, hno⟩, hr, fun _ _ => rfl⟩
      · rw [if_neg (by decide)]
        refine hlast _ (fun p hpv => update_of_ne (fun hc => hpv ⟨hc, hc ▸ hyes.1⟩) ..) ?_ fun _ => hyes
        show present (update s.uvpt v _ (index2fd i))
        by_cases hv : index2fd i = v
        · rw [hv, update_self]
          exact present_mkPte _ _
        · rwa [update_of_ne hv]
    · rw [if_neg hp, wp_pure, if_neg (by decide)]
      exact hlast s (fun _ _ => rfl) hopen fun h => absurd h hp
  rw [dupTo, wp_bind_of_ret hclose]
  refine hpages.bind ?_
  rintro r t (⟨hcan, hr⟩ | ⟨hcannot, hr, hsame⟩)
  · rw [if_neg hr]
    exact .inl ⟨hcan, rfl⟩
  · rw [if_pos hr]
    refine wp_unmap.bind fun _ t₁ h₁ => ?_
    refine wp_unmap.bind fun _ t₂ h₂ => ?_
    refine .inr ⟨hcannot, hr, fun p => ?_⟩
    rw [h₂, h₁]
    by_cases hpv : p = v ∧ p < userPages
    · rw [if_pos hpv, if_pos ⟨.inr hpv.1, hpv.2⟩]
    · rw [if_neg hpv, hsame p hpv]
      refine if_congr ?_ rfl rfl
      exact ⟨fun h => ⟨.inl h.1, h.2⟩, fun h => ⟨h.1.resolve_right fun hc => hpv ⟨hc, h.2⟩, h.2⟩⟩

end Dup

end FdEnv

/-! ### The same calls in steps -/

/-- The page table has the pages `pt`; `page` says what is in a frame. -/
structure FdEnv.Shows (x : FdEnv) (page : ℕ → FdPage) (pt : ℕ → Option FdPage) : Prop where
  pages : ∀ k, pt k = if present (x.uvpt k) then some (page (frame (x.uvpt k))) else none
  devpipe : ∀ f, (page f).isDevpipe = true ↔ FdEnv.devLookup (x.devId f) = .ok .pipe

/-- The steps of environment `e` in `close` and `dup`. -/
def FdEvent.Own (e : Fin nenv) : FdEvent → Prop
  | .close e' _ => e' = e
  | .dup e' _ _ => e' = e
  | .run e' _ => e' = e
  | _ => False

/-- Environment `e` gets to task `t` with the pages `pt`, by steps of its own. -/
def FdSys.Does (s : FdSys) (e : Fin nenv) (t : FdTask) (pt : ℕ → Option FdPage) : Prop :=
  ∃ s', Sys.Reach FdSys.step (fun _ l => l.Own e) s s' ∧ s'.task e = t ∧ s'.pt e = pt

def FdSys.without (pt : ℕ → Option FdPage) (k : ℕ) : ℕ → Option FdPage :=
  if k < userPages then update pt k none else pt

section Steps

variable {s : FdSys} {e : Fin nenv} {x : FdEnv} {page : ℕ → FdPage} {pt pt' : ℕ → Option FdPage}
  {t t' : FdTask} {i k old new : ℕ} {next : FdNext} {answer : ℤ} {ok ok' : Bool}

namespace FdSys

theorem Does.bind (h : s.Does e t pt)
    (hnext : ∀ s' : FdSys, s'.task e = t → s'.pt e = pt → s'.Does e t' pt') : s.Does e t' pt' := by
  obtain ⟨s₁, hr₁, ht₁, hpt₁⟩ := h
  obtain ⟨s₂, hr₂, hs₂⟩ := hnext s₁ ht₁ hpt₁
  exact ⟨s₂, hr₁.trans hr₂, hs₂⟩

theorem does_run {s' : FdSys} (ok : Bool) (h : s.run e ok = some s') (ht : s'.task e = t)
    (hpt : s'.pt e = pt) : s.Does e t pt :=
  ⟨s', .step (l := .run e ok) .refl rfl h, ht, hpt⟩

theorem setPage_pt_self (s : FdSys) (p : Option FdPage) : (s.setPage e k p).pt e = update (s.pt e) k p := by
  funext k'
  simp [update_apply]

theorem Does.unmap (h : s.Does e t pt) (hrun : ∀ s' : FdSys, s'.task e = t →
    s'.run e true = some ((s'.unmap e k).setTask e t')) : s.Does e t' (without pt k) := by
  refine h.bind fun s' ht hpt => does_run true (hrun s' ht) (by simp) ?_
  unfold without
  split
  next hk => rw [setTask_pt, unmap_of_lt hk, setPage_pt_self, hpt]
  next hk => simpa [FdSys.unmap, FdSys.mapTo, hk] using hpt

/-- `devsock_close` leaves the pages alone. -/
theorem Does.test (h : s.Does e (.test i next) pt) : s.Does e (.closeFd i next) pt := by
  refine h.bind fun s₁ ht₁ hpt₁ => ?_
  have hrun : s₁.run e true =
      some (s₁.setTask e (if s₁.ppRef .sock = 1 then .send i next else .closeFd i next)) := by
    simp only [FdSys.run, ht₁]
  split at hrun
  · have hsend : s₁.Does e (.send i next) pt := does_run true hrun (by simp) hpt₁
    refine hsend.bind fun s₂ ht₂ hpt₂ => ?_
    have hrun₂ : s₂.run e true = some { s₂.setTask e (.closeFd i next) with sent := s₂.sent + 1 } := by
      simp only [FdSys.run, ht₂]
    exact does_run true hrun₂ (update_self ..) hpt₂
  · exact does_run true hrun (by simp) hpt₁

theorem Does.closeFd (h : s.Does e (.closeFd i next) pt) : s.Does e next.task (without pt (index2fd i)) :=
  h.unmap fun s' ht => by simp only [FdSys.run, ht]

/-- The error path of `dup`. -/
theorem Does.dupErr (h : s.Does e (.dupErr new) pt) :
    s.Does e .idle (without (without pt (index2fd new)) (fd2data (index2fd new))) := by
  have hfd : s.Does e (.dupErrData new) (without pt (index2fd new)) :=
    h.unmap fun s' ht => by simp only [FdSys.run, ht]
  exact hfd.unmap fun s' ht => by simp only [FdSys.run, ht]

theorem does_dupFd (hrun : s.run e ok = some (s.dupFd e old new ok)) (hpt : s.pt e = pt) :
    (∀ p, pt (index2fd old) = some p → index2fd new < userPages ∧ ok = true →
      s.Does e .idle (update pt (index2fd new) (some p))) ∧
    (pt (index2fd old) = none ∨ ¬ (index2fd new < userPages ∧ ok = true) →
      s.Does e (.dupErr new) pt) := by
  subst hpt
  refine ⟨fun p hp hok => ?_, fun hno => ?_⟩
  · refine does_run ok hrun ?_ ?_ <;> simp only [FdSys.dupFd, hp, FdSys.mapTo, if_pos hok]
    · simp
    · rw [setTask_pt, setPage_pt_self]
  · have herr : s.dupFd e old new ok = s.setTask e (.dupErr new) := by
      cases hp : s.pt e (index2fd old) with
      | none => simp only [FdSys.dupFd, hp]
      | some p =>
        have hno := hno.resolve_left (by simp [hp])
        simp only [FdSys.dupFd, hp, FdSys.mapTo, if_neg hno]
    rw [herr] at hrun
    exact does_run ok hrun (by simp) rfl

end FdSys

open FdSys

namespace FdEnv

theorem Shows.unmap (h : x.Shows page pt) :
    wp (sysPageUnmap k) (fun _ x' => x'.Shows page (FdSys.without pt k)) (fun _ _ => False) x := by
  unfold wp sysPageUnmap FdSys.without
  by_cases hk : k < userPages
  · rw [if_pos hk, if_pos hk]
    refine ⟨fun k' => ?_, h.devpipe⟩
    by_cases hk' : k' = k
    · subst hk'
      simp [not_present_zero]
    · simp only [update_of_ne hk']
      exact h.pages k'
  · rw [if_neg hk, if_neg hk]
    exact h

theorem Shows.map {src dst : ℕ} {p : FdPage} (h : x.Shows page pt) (hsrc : src < userPages)
    (hp : pt src = some p) : wp (sysPageMap src dst (x.uvpt src &&& pteSyscall) ok) (fun r x' =>
      (¬ (dst < userPages ∧ ok = true) ∧ r < 0 ∧ x' = x) ∨
      (dst < userPages ∧ ok = true) ∧ r = 0 ∧ x'.Shows page (update pt dst (some p)))
      (fun _ _ => False) x := by
  have hpres : present (x.uvpt src) ∧ page (frame (x.uvpt src)) = p := by
    have := h.pages src
    rw [hp] at this
    split at this
    next hpres => exact ⟨hpres, (Option.some.inj this).symm⟩
    next => cases this
  refine (sysPageMap_eq hsrc hpres.1).imp ?_
  rintro r x' (hno | ⟨hok, hr, rfl⟩)
  · exact .inl hno
  · refine .inr ⟨hok, hr, fun k => ?_, h.devpipe⟩
    by_cases hk : k = dst
    · subst hk
      have hsame := samePage_mkPte hpres.1
      simp only [update_self, if_pos hsame.2.1, hsame.2.2.1, hpres.2]
    · simp only [update_of_ne hk]
      exact h.pages k

theorem closeDevice_other {fd id : ℕ} (h : devLookup id ≠ .ok .pipe) :
    wp (closeDevice answer fd id) (fun _ x' => x' = x) (fun _ _ => False) x := by
  unfold closeDevice
  split
  next dev hdev =>
    cases dev with
    | pipe => exact absurd hdev h
    | _ => rfl
  next => rfl

/-- `close` of one environment does the steps of `FdSys.close`. -/
theorem Shows.close (h : x.Shows page (s.pt e)) (next : FdNext) : wp (close answer i) (fun _ x' =>
    ∃ pt, x'.Shows page pt ∧ (s.close e i next).Does e next.task pt) (fun _ _ => False) x := by
  have hreach : ∀ {s' : FdSys} {t}, s'.task e = t → s'.Does e t (s'.pt e) := fun ht =>
    ⟨_, .refl, ht, rfl⟩
  have htask : ∀ t, (s.setTask e t).Does e t (s.pt e) := fun t => hreach (by simp)
  have hpage := h.pages (index2fd i)
  by_cases hi : i < maxfd ∧ present (x.uvpt (index2fd i))
  · obtain ⟨hi, hp⟩ := hi
    rw [if_pos hp] at hpage
    rw [FdSys.close, if_pos hi, hpage]
    refine wp_close hi hp ?_
    by_cases hpipe : (page (frame (x.uvpt (index2fd i)))).isDevpipe = true
    · have hsock : page (frame (x.uvpt (index2fd i))) ≠ .sock := by
        intro hc
        rw [hc] at hpipe
        cases hpipe
      simp only [if_neg hsock, if_pos hpipe]
      rw [closeDevice, (h.devpipe _).1 hpipe]
      show wp (devClose answer (index2fd i) .pipe) _ _ _
      rw [devClose, wp_bind, fd2data_index2fd hi]
      refine (h.unmap (k := index2fd i)).imp fun _ x₁ h₁ => ?_
      refine (h₁.unmap (k := index2data i)).imp fun _ x₂ h₂ => ?_
      refine (h₂.unmap (k := index2fd i)).imp fun _ x₃ h₃ => ⟨_, h₃, ?_⟩
      have hfd : ((s.unmap e (index2fd i)).setTask e (.closeData i next)).Does e (.closeData i next)
          (FdSys.without (s.pt e) (index2fd i)) := by
        rw [FdSys.without, if_pos (index2fd_lt hi), unmap_of_lt (index2fd_lt hi), ← setPage_pt_self]
        exact hreach (by simp)
      exact (hfd.unmap fun s' ht => by simp only [FdSys.run, ht]).closeFd
    · refine (closeDevice_other fun hc => hpipe ((h.devpipe _).2 hc)).imp ?_
      rintro _ _ rfl
      refine h.unmap.imp fun _ x' h' => ⟨_, h', ?_⟩
      simp only [if_neg hpipe]
      split
      · exact (htask _).test.closeFd
      · exact (htask _).closeFd
  · rw [wp_of_ret (close_error fun h₁ h₂ => hi ⟨h₁, h₂⟩)]
    refine ⟨_, h, ?_⟩
    rw [FdSys.close]
    split
    next hi' =>
      rw [hpage, if_neg fun hp => hi ⟨hi', hp⟩]
      exact htask _
    next => exact htask _

theorem Shows.dupPages (h : x.Shows page pt) (hs : s.Does e (.dupData old new) pt) (hold : old < maxfd) :
    wp (dupPages (index2fd old) (index2fd new) (index2data old) (fd2data (index2fd new)) ok ok')
      (fun r x' => ∃ pt, x'.Shows page pt ∧ s.Does e (if r < 0 then .dupErr new else .idle) pt)
      (fun _ _ => False) x := by
  -- the `Fd` page comes last
  have hlast : ∀ {x₁ pt₁ t}, x₁.Shows page pt₁ → s.Does e t pt₁ → (∀ s' : FdSys, s'.task e = t →
      s'.pt e = pt₁ → s'.run e ok' = some (s'.dupFd e old new ok')) →
      wp (sysPageMap (index2fd old) (index2fd new) (x₁.uvpt (index2fd old) &&& pteSyscall) ok')
        (fun r x' => ∃ pt, x'.Shows page pt ∧ s.Does e (if r < 0 then .dupErr new else .idle) pt)
        (fun _ _ => False) x₁ := by
    intro x₁ pt₁ t h₁ hs₁ hrun
    have herr : pt₁ (index2fd old) = none ∨ ¬ (index2fd new < userPages ∧ ok' = true) →
        s.Does e (.dupErr new) pt₁ := fun hno =>
      hs₁.bind fun s' ht hpt => (does_dupFd (hrun s' ht hpt) hpt).2 hno
    cases hp : pt₁ (index2fd old) with
    | none =>
      have hno : ¬ present (x₁.uvpt (index2fd old)) := by
        intro hpres
        rw [h₁.pages, if_pos hpres] at hp
        cases hp
      unfold wp sysPageMap
      rw [if_neg fun hc => hno hc.2.2]
      exact ⟨pt₁, h₁, herr (.inl hp)⟩
    | some p =>
      refine (h₁.map (index2fd_lt hold) hp).imp ?_
      rintro r x' (⟨hno, hr, rfl⟩ | ⟨hok, rfl, h'⟩)
      · rw [if_pos hr]
        exact ⟨pt₁, h₁, herr (.inr hno)⟩
      · exact ⟨_, h', hs₁.bind fun s' ht hpt => (does_dupFd (hrun s' ht hpt) hpt).1 p hp hok⟩
  rw [FdEnv.dupPages, wp_bind, wp_gets, wp_bind]
  have hpage := h.pages (index2data old)
  by_cases hp : present (x.uvpt (index2data old))
  · rw [if_pos hp] at hpage ⊢
    refine (h.map (index2data_lt hold) hpage).imp ?_
    rintro r x₁ (⟨hno, hr, rfl⟩ | ⟨hok, rfl, h₁⟩)
    · rw [if_pos hr]
      refine ⟨pt, h, ?_⟩
      rw [if_pos hr]
      refine hs.bind fun s' ht hpt => ?_
      have hrun : s'.run e ok = some (s'.setTask e (.dupErr new)) := by
        simp only [FdSys.run, ht, hpt, hpage, FdSys.mapTo, if_neg hno]
      exact does_run ok hrun (by simp) hpt
    · rw [if_neg (by decide), wp_bind, wp_gets]
      refine hlast (t := .dupFd old new) h₁ (hs.bind fun s' ht hpt => ?_) fun s' ht _ => by
        simp only [FdSys.run, ht]
      have hrun : s'.run e ok = some ((s'.setPage e (fd2data (index2fd new))
          (some (page (frame (x.uvpt (index2data old)))))).setTask e (.dupFd old new)) := by
        simp only [FdSys.run, ht, hpt, hpage, FdSys.mapTo, if_pos hok]
      refine does_run ok hrun (by simp) ?_
      rw [setTask_pt, setPage_pt_self, hpt]
  · rw [if_neg hp] at hpage ⊢
    rw [wp_pure, if_neg (by decide), wp_bind, wp_gets]
    exact hlast h hs fun s' ht hpt => by simp only [FdSys.run, ht, hpt, hpage]

end FdEnv

open FdEnv in
/-- **`close` and `dup`** of one environment are runs of the system in which all
environments take their steps: `FdSys` is what the functions do to the page
tables, for every outcome of their system calls. -/
theorem fd_calls_does (h : x.Shows page (s.pt e)) (ht : s.task e = .idle) (hnew : new < 2 ^ 31) :
    wp (close answer i) (fun _ x' => ∃ pt, x'.Shows page pt ∧ s.Does e .idle pt) (fun _ _ => False) x ∧
    wp (dup old new answer ok ok') (fun _ x' => ∃ pt, x'.Shows page pt ∧ s.Does e .idle pt)
      (fun _ _ => False) x := by
  have hclose : ∀ {i next l t pt}, l.Own e → s.step l = some (s.close e i next) →
      (s.close e i next).Does e t pt → s.Does e t pt := by
    rintro i next l t pt hown hl ⟨s', hr, hs'⟩
    exact ⟨s', .trans (.step (l := l) .refl hown hl) hr, hs'⟩
  constructor
  · refine (h.close .ret).imp fun _ x' ⟨pt, h', hs⟩ => ⟨pt, h', ?_⟩
    exact hclose (l := .close e i) rfl (if_pos ht) hs
  · rw [dup, wp_bind]
    by_cases hold : old < maxfd ∧ present (x.uvpt (index2fd old))
    · obtain ⟨hold, hp⟩ := hold
      have hindex : index new = new := by
        unfold index
        omega
      have hopen : s.pt e (index2fd old) ≠ none := by
        rw [h.pages, if_pos hp]
        exact Option.some_ne_none _
      rw [wp_of_ret (fdLookup_natCast hold), if_pos hp]
      show wp (dupTo new answer (index2fd old) (index2fd (index new)) (fd2data (index2fd old))
        (fd2data (index2fd (index new))) ok ok') _ _ x
      rw [hindex, fd2data_index2fd hold, dupTo]
      refine (h.close (.dup old new)).bind fun _ x₁ ⟨pt₁, h₁, hs₁⟩ => ?_
      have hs₁ : s.Does e (.dupData old new) pt₁ := by
        refine hclose (l := .dup e old new) rfl ?_ hs₁
        simp only [FdSys.step, if_pos ht, if_pos (And.intro hold hopen)]
      refine (h₁.dupPages hs₁ hold).bind fun r x₂ ⟨pt₂, h₂, hs₂⟩ => ?_
      by_cases hr : r < 0
      · rw [if_pos hr] at hs₂ ⊢
        refine (h₂.unmap (k := index2fd new)).bind fun _ x₃ h₃ => ?_
        rw [wp_bind]
        have hidle := hs₂.dupErr
        generalize fd2data (index2fd new) = v at hidle ⊢
        exact h₃.unmap.imp fun _ x₄ h₄ => ⟨_, h₄, hidle⟩
      · rw [if_neg hr] at hs₂ ⊢
        exact ⟨pt₂, h₂, hs₂⟩
    · have hret : fdLookup old x = .ret (.error (-eInval)) x := by
        rcases fdLookup_cases old x with ⟨i, hi, hio, hp, -⟩ | hret
        · obtain rfl : old = i := by omega
          exact absurd ⟨hi, hp⟩ hold
        · exact hret
      rw [wp_of_ret hret]
      exact ⟨s.pt e, h, s, .refl, ht, rfl⟩

end Steps

open FdEnv in
/-- The old descriptor is not open, or the new index is that of another one, or it is none
of a descriptor, the call fails, and the pages that it clears are no descriptor's. -/
def DupOk (s : FdEnv) (oldfdnum newfdnum : ℤ) (ok ok' : Bool) : Prop :=
  ∀ i < maxfd, (i : ℤ) = oldfdnum → present (s.desc i).1 →
    (0 ≤ newfdnum ∧ newfdnum < maxfd ∧ newfdnum ≠ oldfdnum) ∨
    (newfdnum < 0 ∨ maxfd ≤ newfdnum) ∧
      CannotMap s i (index2fd (index newfdnum)) (fd2data (index2fd (index newfdnum))) ok ok' ∧
      ∀ k < maxfd, ∀ p, p = index2fd k ∨ p = index2data k →
        p = index2fd (index newfdnum) ∨ p = fd2data (index2fd (index newfdnum)) → s.uvpt p = 0

open FdEnv in
/-- For every table, all indices and every outcome of the calls that `dup` makes: under
`DupOk`, and for an index that is not negative only then, the descriptor is shared or the
call fails, and the others stay as they are. -/
theorem dup_shares (s : FdEnv) (oldfdnum newfdnum answer : ℤ) (ok ok' : Bool) :
    (DupOk s oldfdnum newfdnum ok ok' →
      wp (dup oldfdnum newfdnum answer ok ok') (Shares s oldfdnum newfdnum) (fun _ _ => False) s) ∧
    (0 ≤ newfdnum →
      (wp (dup oldfdnum newfdnum answer ok ok') (Shares s oldfdnum newfdnum) (fun _ _ => False) s ↔
        DupOk s oldfdnum newfdnum ok ok')) := by
  suffices h : (DupOk s oldfdnum newfdnum ok ok' →
      wp (dup oldfdnum newfdnum answer ok ok') (Shares s oldfdnum newfdnum) (fun _ _ => False) s) ∧
      (0 ≤ newfdnum →
        wp (dup oldfdnum newfdnum answer ok ok') (Shares s oldfdnum newfdnum) (fun _ _ => False) s →
        DupOk s oldfdnum newfdnum ok ok') from ⟨h.1, fun hpos => ⟨h.2 hpos, h.1⟩⟩
  rw [dup, wp_bind]
  rcases fdLookup_cases oldfdnum s with ⟨i, hi, rfl, hopen, hret⟩ | hret
  · rw [wp_of_ret hret]
    show (_ → wp (dupTo newfdnum answer (index2fd i) (index2fd (index newfdnum)) (fd2data (index2fd i))
      (fd2data (index2fd (index newfdnum))) ok ok') _ _ s) ∧ (_ → wp (dupTo newfdnum answer (index2fd i)
      (index2fd (index newfdnum)) (fd2data (index2fd i)) (fd2data (index2fd (index newfdnum))) ok ok') _ _ s → _)
    rw [fd2data_index2fd hi]
    by_cases hrange : 0 ≤ newfdnum ∧ newfdnum < maxfd
    · obtain ⟨j, rfl⟩ : ∃ j : ℕ, newfdnum = j := ⟨newfdnum.toNat, by omega⟩
      have hj : j < maxfd := by omega
      rw [index_natCast hj, fd2data_index2fd hj]
      by_cases hij : i = j
      · subst hij
        -- the duplicate over itself
        obtain ⟨r, s', hrun, hzero⟩ := (wp_dupTo_self hi hopen).exists_ret
        have hclosed : ¬ present (s'.desc i).1 := by
          show ¬ present (s'.uvpt (index2fd i))
          rw [hzero]
          decide
        refine ⟨fun hok => ?_, fun _ hw => ?_⟩
        · rcases hok i hi rfl hopen with ⟨-, -, hne⟩ | ⟨hout, -⟩
          · exact absurd rfl hne
          · omega
        · rcases (hw.ret hrun).2 with ⟨-, hsame⟩ | ⟨k, -, j, -, hk, -, -, hsh, -⟩
          · rw [hsame i hi rfl] at hclosed
            exact absurd hopen hclosed
          · obtain rfl : i = k := by omega
            exact absurd hsh.1 hclosed
      · refine ⟨fun _ => wp_dupTo_other hi hj hij hopen, fun _ _ k hk hki _ => .inl ?_⟩
        omega
    · have hout : newfdnum < 0 ∨ maxfd ≤ newfdnum := by omega
      obtain ⟨r, s', hrun, hcase⟩ := (wp_dupTo_astray hi hopen hout).exists_ret
      rw [wp_of_ret hrun]
      have hdesc : ∀ k < maxfd, (k : ℤ) ≠ newfdnum := fun k hk => by omega
      rcases hcase with ⟨hcan, rfl⟩ | ⟨hcannot, hr, huvpt⟩
      · refine ⟨fun hok => ?_, fun hpos hw => ?_⟩
        · rcases hok i hi rfl hopen with hin | ⟨-, hno, -⟩
          · omega
          · exact absurd hno hcan
        · rcases hw.2 with ⟨hneg, -⟩ | ⟨-, -, k, hk, -, hkr, -⟩
          · omega
          · exact absurd hkr (hdesc k hk)
      · refine ⟨fun hok => ?_, fun _ hw k hk hki _ => .inr ⟨hout, ?_, fun k' hk' p hp hnv => ?_⟩⟩
        · -- nothing was at the pages that are cleared
          have hzero := ((hok i hi rfl hopen).resolve_left fun hc => by omega).2.2
          have hsame : ∀ k < maxfd, s'.desc k = s.desc k := by
            have hpage : ∀ k < maxfd, ∀ p, p = index2fd k ∨ p = index2data k → s'.uvpt p = s.uvpt p := by
              intro k hk p hp
              rw [huvpt]
              split
              next hc => exact (hzero k hk p hp hc.1).symm
              next => rfl
            exact fun k hk => congrArg₂ Prod.mk (hpage k hk _ (.inl rfl)) (hpage k hk _ (.inr rfl))
          exact ⟨fun k hk _ => hsame k hk, .inl ⟨hr, fun k hk _ => hsame k hk⟩⟩
        · obtain rfl : k = i := by omega
          exact hcannot
        · have hsame := hw.1 k' hk' (hdesc k' hk')
          have hlt : p < userPages := by
            rcases hp with rfl | rfl
            · exact index2fd_lt hk'
            · exact index2data_lt hk'
          have hp' : s'.uvpt p = s.uvpt p := by
            rcases hp with rfl | rfl
            · exact congrArg Prod.fst hsame
            · exact congrArg Prod.snd hsame
          rw [← hp', huvpt, if_pos ⟨hnv, hlt⟩]
  · rw [wp_of_ret hret]
    refine ⟨fun _ => ⟨fun _ _ _ => rfl, .inl ⟨by decide, fun _ _ _ => rfl⟩⟩, fun _ _ i hi hio hopen => ?_⟩
    have hlook := fdLookup_natCast (s := s) hi
    have hopen' : present (s.uvpt (index2fd i)) := hopen
    rw [hio, hret, if_pos hopen'] at hlook
    cases hlook

/-- Two open descriptors, a pipe with its data page and a file. -/
def Demo.fds : FdEnv where
  uvpt k := if k = index2fd 0 then mkPte 5 (pteU ||| pteW)
    else if k = index2data 0 then mkPte 6 (pteU ||| pteW)
    else if k = index2fd 1 then mkPte 7 pteU else 0
  devId f := if f = 5 then 112 else 102

/-- The pipe, duplicated over the file. -/
theorem dup_shares_pipe : wp (FdEnv.dup 0 1 0 true true) (fun r s' => r = 1 ∧
    SamePage (s'.desc 0).1 (s'.desc 1).1 ∧ SamePage (s'.desc 0).2 (s'.desc 1).2 ∧
    s'.desc 0 = Demo.fds.desc 0) (fun _ _ => False) Demo.fds := by
  have h := (dup_shares Demo.fds 0 1 0 true true).1 fun _ _ _ _ => .inl (by decide)
  have hret : wp (FdEnv.dup 0 1 0 true true) (fun r _ => r = 1) (fun _ _ => False) Demo.fds := by
    decide +kernel
  refine (h.and hret).mono ?_ (fun _ _ hc => hc.1)
  rintro r s' ⟨⟨hothers, hcase⟩, rfl⟩
  have hold := hothers 0 (by decide) (by decide)
  obtain ⟨i, hi, j, hj, hi0, hj1, -, hfd, hdata⟩ := hcase.resolve_left fun hc => absurd hc.1 (by decide)
  obtain rfl : i = 0 := by omega
  obtain rfl : j = 1 := by omega
  refine ⟨rfl, hfd, hdata ?_, hold⟩
  rw [hold]
  decide +kernel

open Demo

/-- Index 32 is the data page of descriptor 0: the page of the pipe is replaced
by the `Fd` page of the file.  And a duplicate over itself is closed. -/
theorem dup_overwrites :
    wp (FdEnv.dup 1 32 0 true true) (fun r s' => 0 ≤ r ∧ s'.desc 0 ≠ fds.desc 0)
      (fun _ _ => False) fds ∧
    wp (FdEnv.dup 0 0 0 true true) (fun r s' => r < 0 ∧ present (fds.desc 0).1 ∧
      ¬ present (s'.desc 0).1) (fun _ _ => False) fds := by decide +kernel

end Jos
