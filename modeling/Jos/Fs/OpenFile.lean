/-
The open-file table of the file server: `serve_init`, `openfile_alloc` and
`openfile_lookup` of fs/serv.c, and `pageref` of lib/pageref.c.

Each slot of `opentab` has a page for a `struct Fd`, which the server shares
with the clients that have the file open, and clients with each other.  The
server reads off the reference count of the page whether the slot is in use.
The pages modelled are these `Fd` pages; a frame is one allocation of a
physical page.

* `open_file_table` — slots, ids and lookups in every run;
* `shared_slot_reused` — the count has 16 bits only.
-/
import Jos.Lib.RefPool
import Jos.Lib.Run
import Jos.User.Places

namespace Jos

open Function

/-! ### The program -/

def maxopen : ℕ := 1024

def fileva : ℕ := 0xD0000000 / pgsize

/-- The page number of `opentab[i].o_fd`, as `serve_init` sets it. -/
def oFd (i : ℕ) : ℕ := fileva + i

def fsreq : ℕ := 0x0ffff000 / pgsize

def eMaxOpen : ℤ := 10

/-- The page tables, as far as they map `Fd` pages, the next frame, and
`o_fileid` of each slot; `allocs` counts the allocations of each slot, for the
record. -/
structure OpenSys where
  pt : Fin nenv × ℕ → Option ℕ
  next : ℕ
  fileid : ℕ → ℕ
  allocs : ℕ → ℕ

/-- Clients get the page from the server, from each other, and unmap it; a
client may also send it to the server as the page of a request. -/
inductive OpenEvent where
  | alloc (ok : Bool)
  | give (i : ℕ) (c : Fin nenv) (k : ℕ)
  | share (c : Fin nenv) (k : ℕ) (c' : Fin nenv) (k' : ℕ)
  | unmap (c : Fin nenv) (k : ℕ)
  | request (c : Fin nenv) (k : ℕ)
  | reply

namespace OpenSys

def init : OpenSys where
  pt _ := none
  next := 0
  fileid i := i
  allocs _ := 0

def setPage (s : OpenSys) (e : Fin nenv) (k : ℕ) (x : Option ℕ) : OpenSys :=
  { s with pt := update s.pt (e, k) x }

/-- `pp_ref`, a 16-bit number. -/
def ppRef (s : OpenSys) (f : ℕ) : ℕ := refs userPlaces s.pt f % 2 ^ 16

/-- `pageref`, called by environment `e` for its page `k`. -/
def pageref (s : OpenSys) (e : Fin nenv) (k : ℕ) : ℕ :=
  match s.pt (e, k) with
  | none => 0
  | some f => s.ppRef f

variable (srv : Fin nenv)

/-- The slot at which the loop of `openfile_alloc` stops. -/
def findSlot (s : OpenSys) : Option ℕ :=
  (List.range maxopen).find? fun i => s.pageref srv (oFd i) ≤ 1

/-- `sys_page_alloc(0, opentab[i].o_fd, ..)`. -/
def pageAlloc (s : OpenSys) (i : ℕ) : OpenSys :=
  { s.setPage srv (oFd i) (some s.next) with next := s.next + 1 }

/-- `case 1`. -/
def takeSlot (s : OpenSys) (i : ℕ) : OpenSys :=
  { s with
    fileid := update s.fileid i ((s.fileid i + maxopen) % 2 ^ 32)
    allocs := update s.allocs i (s.allocs i + 1) }

/-- `openfile_alloc`; `ok` says whether there is a free page.  The result is
the return value, an `int`, and the slot. -/
def openfileAlloc (s : OpenSys) (ok : Bool) : (ℤ × Option ℕ) × OpenSys :=
  match s.findSlot srv with
  | none => ((-eMaxOpen, none), s)
  | some i =>
    if s.pageref srv (oFd i) = 0 ∧ ok = false then ((-eNoMem, none), s)
    else
      let s' := (if s.pageref srv (oFd i) = 0 then s.pageAlloc srv i else s).takeSlot i
      (((BitVec.ofNat 32 (s'.fileid i)).toInt, some i), s')

def openfileLookup (s : OpenSys) (fileid : ℕ) : Except ℤ ℕ :=
  let i := fileid % maxopen
  if s.pageref srv (oFd i) ≤ 1 ∨ s.fileid i ≠ fileid then .error (-eInval) else .ok i

def step (s : OpenSys) : OpenEvent → Option OpenSys
  | .alloc ok => some (s.openfileAlloc srv ok).2
  | .give i c k =>
    if i < maxopen ∧ c ≠ srv ∧ k < userPages then
      some (s.setPage c k (s.pt (srv, oFd i)))
    else none
  | .share c k c' k' =>
    if c ≠ srv ∧ c' ≠ srv ∧ k' < userPages then some (s.setPage c' k' (s.pt (c, k))) else none
  | .unmap c k => if c ≠ srv then some (s.setPage c k none) else none
  | .request c k => if c ≠ srv then some (s.setPage srv fsreq (s.pt (c, k))) else none
  | .reply => some (s.setPage srv fsreq none)

end OpenSys

/-! ### The invariant -/

/-- After the step the page has fewer than 2^16 mappings, and a request comes
with a page that is no `Fd` page. -/
def OpenCond (srv : Fin nenv) (s : OpenSys) : OpenEvent → Prop
  | .give i c k => ∀ f, s.pt (srv, oFd i) = some f →
    refs userPlaces (s.setPage c k (some f)).pt f < 2 ^ 16
  | .share c k c' k' => ∀ f, s.pt (c, k) = some f →
    refs userPlaces (s.setPage c' k' (some f)).pt f < 2 ^ 16
  | .request c k => s.pt (c, k) = none
  | _ => True

/-- Some client maps the page of slot `i`. -/
def OpenSys.Open (srv : Fin nenv) (s : OpenSys) (i : ℕ) : Prop :=
  ∃ f, s.pt (srv, oFd i) = some f ∧ ∃ c ≠ srv, ∃ k, s.pt (c, k) = some f

structure OpenInv (srv : Fin nenv) (s : OpenSys) : Prop where
  ids : ∀ i < maxopen, s.fileid i = (i + maxopen * s.allocs i) % 2 ^ 32
  frames : ∀ x f, s.pt x = some f → f < s.next
  places : ∀ x f, s.pt x = some f → x ∈ userPlaces
  bound : ∀ f, refs userPlaces s.pt f < 2 ^ 16
  server : ∀ k f, s.pt (srv, k) = some f → ∃ i < maxopen, k = oFd i
  distinct : ∀ k k' f, s.pt (srv, k) = some f → s.pt (srv, k') = some f → k = k'
  used : ∀ i f, s.pt (srv, oFd i) = some f → 0 < s.allocs i

theorem oFd_inj {i j : ℕ} (h : oFd i = oFd j) : i = j := by
  unfold oFd at h
  omega

theorem oFd_lt {i : ℕ} (h : i < maxopen) : oFd i < userPages := by
  rw [userPages_eq]
  unfold oFd fileva maxopen pgsize at *
  omega

theorem oFd_ne_fsreq (i : ℕ) : oFd i ≠ fsreq := by
  unfold oFd fileva fsreq pgsize
  omega

namespace OpenInv

variable {srv : Fin nenv} {s : OpenSys} {i : ℕ}

theorem init : OpenInv srv OpenSys.init where
  ids i hi := by
    show i = (i + maxopen * 0) % 2 ^ 32
    unfold maxopen at hi
    omega
  frames := nofun
  places := nofun
  bound f := by
    have : refs userPlaces OpenSys.init.pt f = 0 := refs_eq_zero.2 fun _ _ => nofun
    omega
  server := nofun
  distinct := nofun
  used := nofun

section

variable (h : OpenInv srv s)
include h

theorem pageref_eq {f : ℕ} {e : Fin nenv} {k : ℕ} (hf : s.pt (e, k) = some f) :
    s.pageref e k = refs userPlaces s.pt f := by
  simp only [OpenSys.pageref, hf, OpenSys.ppRef]
  exact Nat.mod_eq_of_lt (h.bound f)

theorem pageref_le_one : s.pageref srv (oFd i) ≤ 1 ↔ ¬ s.Open srv i := by
  cases hf : s.pt (srv, oFd i) with
  | none =>
    refine ⟨fun _ => ?_, fun _ => ?_⟩
    · rintro ⟨f, hf', -⟩
      rw [hf] at hf'
      cases hf'
    · simp [OpenSys.pageref, hf]
  | some f =>
    rw [h.pageref_eq hf]
    constructor
    · rintro hle ⟨f', hf', c, hc, k, hk⟩
      rw [hf] at hf'
      cases hf'
      have heq := eq_of_refs_le_one hle (h.places _ f hk) hk (h.places _ f hf) hf
      exact hc (congrArg Prod.fst heq)
    · intro hopen
      by_contra hlt
      have htwo : 1 < refs userPlaces s.pt f := by omega
      obtain ⟨⟨c, k⟩, -, hne, hk⟩ := exists_ne_of_one_lt_refs htwo (srv, oFd i)
      refine hopen ⟨f, hf, c, ?_, k, hk⟩
      -- the server itself maps it once
      rintro rfl
      exact hne (congrArg (Prod.mk c) (h.distinct _ _ f hk hf))

theorem setPage {c : Fin nenv} {k : ℕ} {x : Option ℕ} (hc : c ≠ srv)
    (hx : ∀ f, x = some f → f < s.next ∧ k < userPages ∧ refs userPlaces (s.setPage c k x).pt f < 2 ^ 16) :
    OpenInv srv (s.setPage c k x) := by
  have hsrv : ∀ k', (s.setPage c k x).pt (srv, k') = s.pt (srv, k') := by
    intro k'
    refine update_of_ne ?_ _ _
    rintro ⟨⟩
    exact hc rfl
  have hcases : ∀ y f, (s.setPage c k x).pt y = some f → (y = (c, k) ∧ x = some f) ∨
      s.pt y = some f := by
    intro y f hy
    by_cases hyk : y = (c, k)
    · subst hyk
      exact .inl ⟨rfl, by simpa [OpenSys.setPage] using hy⟩
    · right
      simpa [OpenSys.setPage, hyk] using hy
  refine ⟨h.ids, fun y f hy => ?_, fun y f hy => ?_, fun f => ?_, fun k' f hk' => ?_,
    fun k₁ k₂ f h₁ h₂ => ?_, fun i f hi => ?_⟩
  · obtain ⟨-, hf⟩ | hf := hcases y f hy
    · exact (hx f hf).1
    · exact h.frames y f hf
  · obtain ⟨rfl, hf⟩ | hf := hcases y f hy
    · exact mem_userPlaces.2 (hx f hf).2.1
    · exact h.places y f hf
  · by_cases hf : x = some f
    · exact (hx f hf).2.2
    · refine (refs_le_of_imp fun y _ hy => ?_).trans_lt (h.bound f)
      obtain ⟨-, hf'⟩ | hf' := hcases y f hy
      · exact absurd hf' hf
      · exact hf'
  · rw [hsrv] at hk'
    exact h.server k' f hk'
  · rw [hsrv] at h₁ h₂
    exact h.distinct k₁ k₂ f h₁ h₂
  · rw [hsrv] at hi
    exact h.used i f hi

theorem setFsreq : OpenInv srv (s.setPage srv fsreq none) := by
  have heq : s.setPage srv fsreq none = s := by
    have hnone : s.pt (srv, fsreq) = none := by
      cases hf : s.pt (srv, fsreq) with
      | none => rfl
      | some f =>
        obtain ⟨i, -, hi⟩ := h.server fsreq f hf
        exact absurd hi.symm (oFd_ne_fsreq i)
    unfold OpenSys.setPage
    rw [← hnone, update_eq_self]
  rw [heq]
  exact h

theorem takeSlot : OpenInv srv (s.takeSlot i) := by
  refine ⟨fun j hj => ?_, h.frames, h.places, h.bound, h.server, h.distinct, fun j f hf => ?_⟩
  · have hid := h.ids j hj
    by_cases hji : j = i
    · subst hji
      simp only [OpenSys.takeSlot, update_self, hid]
      rw [Nat.mod_add_mod, Nat.mul_succ, Nat.add_assoc]
    · simp only [OpenSys.takeSlot, update_of_ne hji, hid]
  · have hpos := h.used j f hf
    by_cases hji : j = i
    · subst hji
      simp [OpenSys.takeSlot]
    · simpa only [OpenSys.takeSlot, update_of_ne hji] using hpos

theorem pageAlloc (hi : i < maxopen) (hnone : s.pt (srv, oFd i) = none) :
    OpenInv srv ((s.pageAlloc srv i).takeSlot i) := by
  have hcases : ∀ y f, (s.pageAlloc srv i).pt y = some f → (y = (srv, oFd i) ∧ f = s.next) ∨
      (y ≠ (srv, oFd i) ∧ s.pt y = some f) := by
    intro y f hy
    simp only [OpenSys.pageAlloc, OpenSys.setPage, update_apply] at hy
    split at hy
    case isTrue hk => exact .inl ⟨hk, (Option.some.inj hy).symm⟩
    case isFalse hk => exact .inr ⟨hk, hy⟩
  have hfresh : ∀ y, s.pt y ≠ some s.next := fun y hy => lt_irrefl _ (h.frames y _ hy)
  refine ⟨h.takeSlot.ids, fun y f hy => ?_, fun y f hy => ?_, fun f => ?_, fun k f hk => ?_,
    fun k k' f hk hk' => ?_, fun j f hf => ?_⟩
  · show f < s.next + 1
    obtain ⟨-, rfl⟩ | ⟨-, hf⟩ := hcases y f hy
    · exact Nat.lt_succ_self _
    · exact (h.frames y f hf).trans (Nat.lt_succ_self _)
  · obtain ⟨rfl, -⟩ | ⟨-, hf⟩ := hcases y f hy
    · exact mem_userPlaces.2 (oFd_lt hi)
    · exact h.places y f hf
  · -- the new frame is mapped once, the others as before
    have hpt : ((s.pageAlloc srv i).takeSlot i).pt =
        update s.pt (srv, oFd i) (some s.next) := rfl
    rw [hpt, refs_store (mem_userPlaces.2 (oFd_lt hi)) hnone]
    split
    case isTrue hf =>
      rw [hf, refs_eq_zero.2 fun y _ => hfresh y]
      decide
    case isFalse =>
      rw [Nat.add_zero]
      exact h.bound f
  · obtain ⟨heq, -⟩ | ⟨-, hf⟩ := hcases _ f hk
    · exact ⟨i, hi, congrArg Prod.snd heq⟩
    · exact h.server k f hf
  · obtain ⟨heq, rfl⟩ | ⟨-, hf⟩ := hcases _ f hk <;>
      obtain ⟨heq', hf'⟩ | ⟨-, hf'⟩ := hcases _ _ hk'
    · exact (congrArg Prod.snd heq).trans (congrArg Prod.snd heq').symm
    · exact absurd hf' (hfresh _)
    · rw [hf'] at hf
      exact absurd hf (hfresh _)
    · exact h.distinct k k' f hf hf'
  · by_cases hji : j = i
    · subst hji
      simp [OpenSys.takeSlot]
    · obtain ⟨heq, -⟩ | ⟨-, hf⟩ := hcases _ f hf
      · exact absurd (oFd_inj (congrArg Prod.snd heq)) hji
      · have hpos := h.used j f hf
        simpa only [OpenSys.takeSlot, OpenSys.pageAlloc, OpenSys.setPage,
          update_of_ne hji] using hpos

theorem findSlot_spec (hi : s.findSlot srv = some i) : i < maxopen ∧ ¬ s.Open srv i := by
  unfold OpenSys.findSlot at hi
  have hmem := List.mem_of_find?_eq_some hi
  have hle := List.find?_some hi
  exact ⟨List.mem_range.1 hmem, h.pageref_le_one.1 (by simpa using hle)⟩

theorem pageref_eq_zero : s.pageref srv (oFd i) = 0 ↔ s.pt (srv, oFd i) = none := by
  cases hf : s.pt (srv, oFd i) with
  | none => simp [OpenSys.pageref, hf]
  | some f =>
    rw [h.pageref_eq hf]
    have := refs_pos (h.places _ f hf) hf
    simp only [reduceCtorEq, iff_false]
    omega

theorem alloc (ok : Bool) : OpenInv srv (s.openfileAlloc srv ok).2 := by
  unfold OpenSys.openfileAlloc
  split
  case h_1 => exact h
  case h_2 i hi =>
    split
    case isTrue => exact h
    case isFalse =>
      dsimp only
      split
      case isTrue hz => exact h.pageAlloc (h.findSlot_spec hi).1 (h.pageref_eq_zero.1 hz)
      case isFalse => exact h.takeSlot

theorem step {l : OpenEvent} {s' : OpenSys} (hcond : OpenCond srv s l) (hs : s.step srv l = some s') :
    OpenInv srv s' := by
  cases l with
  | alloc ok =>
    simp only [OpenSys.step, Option.some.injEq] at hs
    subst hs
    exact h.alloc ok
  | give i c k =>
    obtain ⟨hok, rfl⟩ := Sys.guard_eq hs
    refine h.setPage hok.2.1 fun f hf => ⟨h.frames _ f hf, hok.2.2, ?_⟩
    rw [hf]
    exact hcond f hf
  | share c k c' k' =>
    obtain ⟨hok, rfl⟩ := Sys.guard_eq hs
    refine h.setPage hok.2.1 fun f hf => ⟨h.frames _ f hf, hok.2.2, ?_⟩
    rw [hf]
    exact hcond f hf
  | unmap c k =>
    obtain ⟨hok, rfl⟩ := Sys.guard_eq hs
    exact h.setPage hok nofun
  | request c k =>
    obtain ⟨-, rfl⟩ := Sys.guard_eq hs
    rw [show s.pt (c, k) = none from hcond]
    exact h.setFsreq
  | reply =>
    cases hs
    exact h.setFsreq

theorem fileid_ne {s' : OpenSys} (h' : OpenInv srv s') (hi : i < maxopen) (hlt : s.allocs i < s'.allocs i)
    (hfew : s'.allocs i < s.allocs i + 2 ^ 22) : s'.fileid i ≠ s.fileid i := by
  rw [h.ids i hi, h'.ids i hi]
  unfold maxopen at *
  omega

theorem lookup_ok {id : ℕ} (hok : s.openfileLookup srv id = .ok i) :
    i = id % maxopen ∧ s.fileid i = id ∧ s.Open srv i := by
  unfold OpenSys.openfileLookup at hok
  dsimp only at hok
  split at hok
  case isTrue => cases hok
  case isFalse hcond =>
    cases hok
    rw [not_or, not_not] at hcond
    refine ⟨rfl, hcond.2, ?_⟩
    by_contra hopen
    exact hcond.1 (h.pageref_le_one.2 hopen)

end

theorem lookup_error (id : ℕ) (h : ∀ i, s.openfileLookup srv id ≠ .ok i) :
    s.openfileLookup srv id = .error (-eInval) := by
  unfold OpenSys.openfileLookup at *
  dsimp only at *
  split
  case isTrue => rfl
  case isFalse hcond =>
    rw [if_neg hcond] at h
    exact absurd rfl (h _)

end OpenInv

/-- In every run whose steps meet `OpenCond`: each slot keeps its class of ids
and its own page; `openfile_alloc` takes a slot whose page no client maps;
different slots have different ids and pages; `openfile_lookup` accepts an id
only if it is the one of the last allocation of its slot and a client maps the
page, and refuses it when the page has been unmapped or the slot has been
allocated again, fewer than 2^22 times. -/
theorem open_file_table {srv : Fin nenv} {s : OpenSys}
    (hrun : Sys.Reach (OpenSys.step srv) (OpenCond srv) OpenSys.init s) :
    (∀ i < maxopen, s.fileid i % maxopen = i ∧ ∀ j < maxopen, oFd i = oFd j → i = j) ∧
    (∀ ok i, (s.openfileAlloc srv ok).1.2 = some i → i < maxopen ∧ ¬ s.Open srv i) ∧
    (∀ i < maxopen, ∀ j < maxopen, i ≠ j → s.fileid i ≠ s.fileid j ∧
      ∀ f, s.pt (srv, oFd i) = some f → s.pt (srv, oFd j) ≠ some f) ∧
    (∀ id i, s.openfileLookup srv id = .ok i → i = id % maxopen ∧ 0 < s.allocs i ∧
      s.fileid i = id ∧ s.Open srv i) ∧
    (∀ i < maxopen, ¬ s.Open srv i → s.openfileLookup srv (s.fileid i) = .error (-eInval)) ∧
    ∀ s', Sys.Reach (OpenSys.step srv) (OpenCond srv) s s' → ∀ i < maxopen,
      s.allocs i < s'.allocs i → s'.allocs i < s.allocs i + 2 ^ 22 →
      s'.openfileLookup srv (s.fileid i) = .error (-eInval) := by
  have h : OpenInv srv s := Sys.Reach.inv OpenInv.init (fun _ _ _ hs => hs.step) hrun
  have hmod : ∀ i < maxopen, s.fileid i % maxopen = i := by
    intro i hi
    rw [h.ids i hi]
    unfold maxopen at *
    omega
  refine ⟨fun i hi => ⟨hmod i hi, fun j _ => oFd_inj⟩, fun ok i hi => ?_, fun i hi j hj hij => ⟨?_, ?_⟩,
    fun id i hok => ?_, fun i hi hopen => ?_, fun s' hs' i hi hlt hfew => ?_⟩
  · unfold OpenSys.openfileAlloc at hi
    split at hi
    case h_1 => cases hi
    case h_2 j hj =>
      split at hi
      case isTrue => cases hi
      case isFalse =>
        cases hi
        exact h.findSlot_spec hj
  · intro heq
    rw [← hmod i hi, heq, hmod j hj] at hij
    exact hij rfl
  · intro f hf hf'
    exact hij (oFd_inj (h.distinct _ _ f hf hf'))
  · obtain ⟨hid, heq, f, hf, hclient⟩ := h.lookup_ok hok
    exact ⟨hid, h.used i f hf, heq, f, hf, hclient⟩
  · refine OpenInv.lookup_error _ fun j hok => ?_
    obtain ⟨hj, -, hopen'⟩ := h.lookup_ok hok
    rw [hmod i hi] at hj
    exact hopen (hj ▸ hopen')
  · have h' : OpenInv srv s' := Sys.Reach.inv h (fun _ _ _ hs => hs.step) hs'
    refine OpenInv.lookup_error _ fun j hok => ?_
    obtain ⟨hj, heq, -⟩ := h'.lookup_ok hok
    rw [hmod i hi] at hj
    subst hj
    exact h.fileid_ne h' hi hlt hfew heq

/-! ### A page that is shared too often -/

namespace OpenSys

variable {srv : Fin nenv} {s : OpenSys}

theorem findSlot_zero (h : s.pageref srv (oFd 0) ≤ 1) : s.findSlot srv = some 0 := by
  unfold findSlot
  rw [show maxopen = 1023 + 1 from rfl, List.range_succ_eq_map, List.find?_cons_of_pos]
  simpa using h

theorem openfileAlloc_init (srv : Fin nenv) :
    init.openfileAlloc srv true = ((1024, some 0), (init.pageAlloc srv 0).takeSlot 0) := by
  have hz : init.pageref srv (oFd 0) = 0 := by
    simp only [pageref, init]
  have hid : ((init.pageAlloc srv 0).takeSlot 0).fileid 0 = 1024 := by
    simp [takeSlot, pageAlloc, setPage, init, maxopen]
  unfold openfileAlloc
  rw [findSlot_zero (hz.le.trans (Nat.zero_le 1))]
  dsimp only
  rw [hz, if_neg nofun, if_pos rfl, hid]
  rfl

end OpenSys

theorem reach_first {ok : OpenSys → OpenEvent → Prop} (hok : ok OpenSys.init (.alloc true)) :
    Sys.Reach (OpenSys.step 0) ok OpenSys.init ((OpenSys.init.pageAlloc 0 0).takeSlot 0) := by
  refine Sys.Reach.refl.step hok ?_
  rw [OpenSys.step, OpenSys.openfileAlloc_init]

namespace Demo

theorem ne_server (k k' : ℕ) : ((1, k) : Fin nenv × ℕ) ≠ (0, k') := by
  intro heq
  have : (1 : Fin nenv) = 0 := congrArg Prod.fst heq
  exact absurd this (by decide)

/-- Client 1 maps the page of slot 0 at its pages below `n`. -/
structure SharedOften (s : OpenSys) (n : ℕ) : Prop where
  server : s.pt (0, oFd 0) = some 0
  client : ∀ k < n, s.pt (1, k) = some 0
  free : ∀ k, n ≤ k → s.pt (1, k) = none
  count : refs userPlaces s.pt 0 = n + 1

theorem SharedOften.set {s : OpenSys} {n : ℕ} (h : SharedOften s n) (hn : n < userPages) :
    SharedOften (s.setPage 1 n (some 0)) (n + 1) := by
  constructor
  · show update s.pt (1, n) (some 0) (0, oFd 0) = some 0
    rw [update_of_ne (ne_server _ _).symm]
    exact h.server
  · intro k hk
    show update s.pt (1, n) (some 0) (1, k) = some 0
    by_cases hkn : k = n
    · rw [hkn, update_self]
    · rw [update_of_ne (by simpa using hkn)]
      exact h.client k (by omega)
  · intro k hk
    show update s.pt (1, n) (some 0) (1, k) = none
    rw [update_of_ne (by simp; omega)]
    exact h.free k (by omega)
  · show refs userPlaces (update s.pt (1, n) (some 0)) 0 = n + 1 + 1
    rw [refs_store (mem_userPlaces.2 hn) (h.free n le_rfl), if_pos rfl, h.count]

theorem sharedOften_first : SharedOften ((OpenSys.init.pageAlloc 0 0).takeSlot 0) 0 := by
  refine ⟨rfl, nofun, fun k _ => ?_, ?_⟩
  · show update OpenSys.init.pt (0, oFd 0) (some 0) (1, k) = none
    rw [update_of_ne (ne_server _ _)]
    rfl
  · have hzero : refs userPlaces OpenSys.init.pt 0 = 0 := refs_eq_zero.2 fun _ _ => nofun
    show refs userPlaces (update OpenSys.init.pt (0, oFd 0) (some 0)) 0 = 1
    rw [refs_store (mem_userPlaces.2 (oFd_lt (by decide))) rfl, if_pos rfl, hzero]

theorem SharedOften.give {s : OpenSys} (h : SharedOften s 0) :
    s.step 0 (.give 0 1 0) = some (s.setPage 1 0 (some 0)) := by
  rw [OpenSys.step, if_pos ⟨by decide, by decide, by decide⟩, h.server]

theorem SharedOften.lookup {s : OpenSys} (h : SharedOften s 1) (hid : s.fileid 0 % maxopen = 0) :
    s.openfileLookup 0 (s.fileid 0) = .ok 0 := by
  have href : s.pageref 0 (oFd 0) = 2 := by
    simp only [OpenSys.pageref, h.server, OpenSys.ppRef, h.count]
    decide
  simp [OpenSys.openfileLookup, hid, href]

theorem reach_sharedOften (n : ℕ) (hlt : n < userPages) : ∃ s,
    Sys.Reach (OpenSys.step 0) (fun _ _ => True) OpenSys.init s ∧ SharedOften s n := by
  have h10 : (1 : Fin nenv) ≠ 0 := by decide
  induction n with
  | zero => exact ⟨_, reach_first trivial, sharedOften_first⟩
  | succ n ih =>
    obtain ⟨s, hs, h⟩ := ih (by omega)
    have hset := h.set (by omega)
    cases n with
    | zero => exact ⟨_, hs.step trivial h.give, hset⟩
    | succ n =>
      have hshare : s.step 0 (.share 1 0 1 (n + 1)) = some (s.setPage 1 (n + 1) (some 0)) := by
        rw [OpenSys.step, if_pos ⟨h10, h10, by omega⟩, h.client 0 (by omega)]
      exact ⟨_, hs.step trivial hshare, hset⟩

end Demo

/-- A client gets the page of the first allocation: its id is accepted, and the
next allocation takes another slot. -/
theorem open_file_table_first : ∃ s,
    Sys.Reach (OpenSys.step 0) (OpenCond 0) OpenSys.init s ∧ s.allocs 0 = 1 ∧
      s.openfileLookup 0 (s.fileid 0) = .ok 0 ∧ s.Open 0 0 ∧
      ∀ ok i, (s.openfileAlloc 0 ok).1.2 = some i → i ≠ 0 := by
  have h₁ := Demo.sharedOften_first
  have h₂ := h₁.set (by decide)
  have hgive : OpenCond 0 ((OpenSys.init.pageAlloc 0 0).takeSlot 0) (.give 0 1 0) := by
    intro f hf
    cases h₁.server.symm.trans hf
    rw [h₂.count]
    decide
  have hrun : Sys.Reach (OpenSys.step 0) (OpenCond 0) OpenSys.init _ :=
    (reach_first trivial).step hgive h₁.give
  obtain ⟨hids, halloc, -, hlookup, -⟩ := open_file_table hrun
  have hok := h₂.lookup (hids 0 (by decide)).1
  have hopen := (hlookup _ _ hok).2.2.2
  refine ⟨_, hrun, rfl, hok, hopen, fun ok i hi => ?_⟩
  rintro rfl
  exact (halloc ok 0 hi).2 hopen

/-- A client maps the page of slot 0 at 65535 pages: the count is 0, and
`openfile_alloc` takes the slot, although it is open. -/
theorem shared_slot_reused : ∃ s,
    Sys.Reach (OpenSys.step 0) (fun _ _ => True) OpenSys.init s ∧ s.Open 0 0 ∧
      (s.openfileAlloc 0 true).1.2 = some 0 := by
  obtain ⟨s, hs, h⟩ := Demo.reach_sharedOften 65535 (by rw [userPages_eq]; decide)
  have hz : s.pageref 0 (oFd 0) = 0 := by
    simp only [OpenSys.pageref, h.server, OpenSys.ppRef, h.count]
    decide
  refine ⟨s, hs, ⟨0, h.server, 1, by decide, 0, h.client 0 (by decide)⟩, ?_⟩
  unfold OpenSys.openfileAlloc
  rw [OpenSys.findSlot_zero (hz.le.trans (Nat.zero_le 1))]
  dsimp only
  rw [hz, if_neg (by simp)]

end Jos
