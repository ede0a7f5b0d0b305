/-
The page fault handler of lib/fork.c, for any fault.

`pgfault` reads the error code and the page table entry but the test of them is
commented out: it gives every page that it can read a private writable copy.

* `readonly_pages_kept` — pages that are mapped read-only, in every sequence of
  faults that are writes to copy-on-write pages or that the handler panics for;
* `readonly_page_replaced` — a write to a page that is only read-only.
-/
import Jos.User.Places
import Jos.Lib.Prog
import Jos.Lib.Run

namespace Jos

open Prog Function

/-! ### The program -/

def pteCow : ℕ := 0x800

def fecWr : ℕ := 0x2

/-- A page table entry: the frame and the flags. -/
structure UserPte where
  frame : ℕ
  perm : ℕ
  deriving DecidableEq

/-- The address space of an environment: whether there is a page table, and the
entries; the contents of the frames, and the next frame `sys_page_alloc` gets. -/
structure UserSpace where
  uvpd : ℕ → Bool
  uvpt : ℕ → Option UserPte
  mem : ℕ → ℕ → UInt8
  next : ℕ

/-- `pgfault` ends in a panic, or faults itself. -/
inductive FaultStop where
  | panic
  | fault
  deriving DecidableEq

namespace UserSpace

def setPte (s : UserSpace) (pn : ℕ) (p : UserPte) : UserSpace :=
  { s with uvpd := update s.uvpd (pn / 1024) true, uvpt := update s.uvpt pn (some p) }

def allocated (s : UserSpace) (pn perm : ℕ) : UserSpace :=
  { s.setPte pn ⟨s.next, perm⟩ with
    mem := update s.mem s.next fun _ => 0
    next := s.next + 1 }

/-- `sys_page_alloc(0, .., perm)`, with a page number; `ok` says whether there is
memory. -/
def sysPageAlloc (pn perm : ℕ) (ok : Bool) : Prog FaultStop UserSpace ℤ := fun s =>
  if pn < userPages then
    if ok then .ret 0 (s.allocated pn perm) else .ret (-eNoMem) s
  else .ret (-eInval) s

def sysPageMap (src dst perm : ℕ) (ok : Bool) : Prog FaultStop UserSpace ℤ := fun s =>
  if src < userPages ∧ dst < userPages then
    match s.uvpt src with
    | none => .ret (-eInval) s
    | some p => if ok then .ret 0 (s.setPte dst ⟨p.frame, perm⟩) else .ret (-eNoMem) s
  else .ret (-eInval) s

def sysPageUnmap (pn : ℕ) : Prog FaultStop UserSpace ℤ := fun s =>
  if pn < userPages then .ret 0 { s with uvpt := update s.uvpt pn none } else .ret (-eInval) s

/-- `uvpt[pn]`: it faults if there is no page table. -/
def readUvpt (pn : ℕ) : Prog FaultStop UserSpace ℕ := fun s =>
  if s.uvpd (pn / 1024) then .ret ((s.uvpt pn).elim 0 UserPte.perm) s else .stop .fault s

/-- `memmove` of a whole page, to a page that was just allocated. -/
def memmovePage (dst src : ℕ) : Prog FaultStop UserSpace Unit := fun s =>
  match s.uvpt dst, s.uvpt src with
  | some d, some p =>
    if p.perm &&& pteU ≠ 0 then .ret () { s with mem := update s.mem d.frame (s.mem p.frame) }
    else .stop .fault s
  | _, _ => .stop .fault s

def panicIf (r : ℤ) : Prog FaultStop UserSpace Unit := when (r < 0) (halt .panic)

/-- `pgfault`, for the fault address and the error code of the trap frame; `ok`
and `ok'` say whether there is memory for the two mappings. -/
def pgfault (faultVa _err : ℕ) (ok ok' : Bool) : Prog FaultStop UserSpace Unit := do
  let _pte ← readUvpt (faultVa / pgsize)
  -- the test of the error code and the entry is commented out
  let r ← sysPageAlloc pftemp (pteU ||| pteP ||| pteW) ok
  panicIf r
  memmovePage pftemp (faultVa / pgsize)
  let r ← sysPageMap pftemp (faultVa / pgsize) (pteU ||| pteP ||| pteW) ok'
  panicIf r
  let r ← sysPageUnmap pftemp
  panicIf r

end UserSpace

/-- An environment that takes faults, until its handler does not return. -/
structure FaultEnv where
  space : UserSpace
  alive : Bool

structure Fault where
  va : ℕ
  err : ℕ
  ok : Bool
  ok' : Bool

def FaultEnv.step (s : FaultEnv) (f : Fault) : Option FaultEnv :=
  if s.alive then
    match UserSpace.pgfault f.va f.err f.ok f.ok' s.space with
    | .ret _ t => some ⟨t, true⟩
    | .stop _ t => some ⟨t, false⟩
  else none

/-! ### One fault -/

namespace UserSpace

/-- Frames from `next` on are not mapped. -/
def Fresh (s : UserSpace) : Prop := ∀ pn p, s.uvpt pn = some p → p.frame < s.next

/-- From `s` to `t` the pages but for `PFTEMP` and `pn` are mapped as they were,
and the frames that were in use have their contents. -/
structure Untouched (s t : UserSpace) (pn : ℕ) : Prop where
  fresh : t.Fresh
  next : s.next ≤ t.next
  pte : ∀ k, k ≠ pftemp → k ≠ pn → t.uvpt k = s.uvpt k
  mem : ∀ f < s.next, t.mem f = s.mem f

theorem pftemp_lt : pftemp < userPages := by decide

section Fault

variable {s t u : UserSpace} {pn k perm : ℕ} {p : UserPte} {ok ok' : Bool}

theorem setPte_self (s : UserSpace) (pn : ℕ) (p : UserPte) : (s.setPte pn p).uvpt pn = some p :=
  update_self ..

theorem setPte_of_ne (s : UserSpace) (p : UserPte) (h : k ≠ pn) : (s.setPte pn p).uvpt k = s.uvpt k :=
  update_of_ne h ..

theorem Untouched.refl (h : s.Fresh) (pn : ℕ) : Untouched s s pn :=
  ⟨h, Nat.le_refl _, fun _ _ _ => rfl, fun _ _ => rfl⟩

theorem Untouched.trans (h : Untouched s t pn) (h' : Untouched t u pn) : Untouched s u pn :=
  ⟨h'.fresh, Nat.le_trans h.next h'.next, fun k hk hk' => (h'.pte k hk hk').trans (h.pte k hk hk'),
    fun f hf => (h'.mem f (Nat.lt_of_lt_of_le hf h.next)).trans (h.mem f hf)⟩

theorem Untouched.setPte (h : s.Fresh) (hk : k = pftemp ∨ k = pn) (hp : p.frame < s.next) :
    Untouched s (s.setPte k p) pn := by
  refine ⟨fun x q hx => ?_, Nat.le_refl _, fun x hx hx' => ?_, fun _ _ => rfl⟩
  · by_cases hxk : x = k
    · rw [hxk, setPte_self] at hx
      cases hx
      exact hp
    · rw [setPte_of_ne s p hxk] at hx
      exact h x q hx
  · refine setPte_of_ne s p ?_
    rintro rfl
    exact hk.elim hx hx'

theorem Untouched.store (h : Untouched s t pn) {f : ℕ} (hf : s.next ≤ f) (c : ℕ → UInt8) :
    Untouched s { t with mem := update t.mem f c } pn :=
  ⟨h.fresh, h.next, h.pte, fun g hg => (update_of_ne (by omega) ..).trans (h.mem g hg)⟩

theorem untouched_allocated (h : s.Fresh) (perm : ℕ) : Untouched s (s.allocated pftemp perm) pn := by
  have hfresh : Fresh { s with next := s.next + 1 } := fun x q hx => Nat.lt_succ_of_lt (h x q hx)
  have hset : Untouched { s with next := s.next + 1 }
      (setPte { s with next := s.next + 1 } pftemp ⟨s.next, perm⟩) pn :=
    Untouched.setPte hfresh (.inl rfl) (Nat.lt_succ_self _)
  refine ⟨hset.fresh, Nat.le_succ _, hset.pte, fun f hf => ?_⟩
  exact update_of_ne (Nat.ne_of_lt hf) ..

theorem untouched_unmap (h : s.Fresh) : Untouched s { s with uvpt := update s.uvpt pftemp none } pn := by
  refine ⟨fun x q hx => ?_, Nat.le_refl _, fun x hx _ => update_of_ne hx .., fun _ _ => rfl⟩
  have hx : update s.uvpt pftemp none x = some q := hx
  by_cases hxt : x = pftemp
  · rw [hxt, update_self] at hx
    cases hx
  · rw [update_of_ne hxt] at hx
    exact h x q hx

section Calls

variable {α : Type} {Q : ℤ → UserSpace → Prop} {R : FaultStop → UserSpace → Prop}

theorem wp_panicIf {Q : Unit → UserSpace → Prop} {r : ℤ} (hpanic : r < 0 → R .panic s)
    (hgo : ¬ r < 0 → Q () s) : wp (panicIf r) Q R s := by
  rw [panicIf, wp_when]
  exact ⟨fun hr => wp_halt.mpr (hpanic hr), hgo⟩

theorem wp_readUvpt {Q : ℕ → UserSpace → Prop} (hgo : s.uvpd (pn / 1024) = true → ∀ v, Q v s)
    (hfault : ¬ s.uvpd (pn / 1024) = true → R .fault s) : wp (readUvpt pn) Q R s := by
  unfold wp readUvpt
  by_cases hc : s.uvpd (pn / 1024)
  · rw [if_pos hc]
    exact hgo hc _
  · rw [if_neg hc]
    exact hfault hc

theorem wp_sysPageAlloc (hlt : pn < userPages) (herr : ok = false → ∀ r < 0, Q r s)
    (hgo : ok = true → Q 0 (s.allocated pn perm)) : wp (sysPageAlloc pn perm ok) Q R s := by
  unfold wp sysPageAlloc
  rw [if_pos hlt]
  cases ok with
  | true => exact hgo rfl
  | false => exact herr rfl _ (by decide)

theorem wp_memmovePage {Q : Unit → UserSpace → Prop} {dst src : ℕ} {d : UserPte}
    (hd : s.uvpt dst = some d)
    (hfault : (∀ p, s.uvpt src = some p → ¬ p.perm &&& pteU ≠ 0) → R .fault s)
    (hgo : ∀ p, s.uvpt src = some p → p.perm &&& pteU ≠ 0 →
      Q () { s with mem := update s.mem d.frame (s.mem p.frame) }) :
    wp (memmovePage dst src) Q R s := by
  unfold wp memmovePage
  rw [hd]
  cases hp : s.uvpt src with
  | none => exact hfault fun q hq => by rw [hp] at hq; cases hq
  | some p =>
    dsimp only
    by_cases hu : p.perm &&& pteU ≠ 0
    · rw [if_pos hu]
      exact hgo p hp hu
    · rw [if_neg hu]
      exact hfault fun q hq => by rw [hp] at hq; cases hq; exact hu

theorem wp_sysPageMap {src dst : ℕ} (hsrc : src < userPages) (hp : s.uvpt src = some p)
    (herr : userPages ≤ dst ∨ ok = false → ∀ r < 0, Q r s)
    (hgo : dst < userPages → ok = true → Q 0 (s.setPte dst ⟨p.frame, perm⟩)) :
    wp (sysPageMap src dst perm ok) Q R s := by
  unfold wp sysPageMap
  by_cases hc : dst < userPages
  · rw [if_pos ⟨hsrc, hc⟩, hp]
    cases ok with
    | true => exact hgo hc rfl
    | false => exact herr (.inr rfl) _ (by decide)
  · rw [if_neg fun h => hc h.2]
    exact herr (.inl (Nat.le_of_not_lt hc)) _ (by decide)

theorem wp_sysPageUnmap (hlt : pn < userPages)
    (hgo : Q 0 { s with uvpt := update s.uvpt pn none }) : wp (sysPageUnmap pn) Q R s := by
  unfold wp sysPageUnmap
  rw [if_pos hlt]
  exact hgo

end Calls

/-- The faulting page is as it was, unless it is `PFTEMP`. -/
def Same (s t : UserSpace) (pn : ℕ) : Prop := Untouched s t pn ∧ (pn ≠ pftemp → t.uvpt pn = s.uvpt pn)

/-- The faulting page can be read, and is a writable copy now. -/
def Replaced (s t : UserSpace) (pn : ℕ) : Prop := ∃ p, s.uvpt pn = some p ∧ pn < userPages ∧
  p.perm &&& pteU ≠ 0 ∧ t.uvpt pn = some ⟨s.next, pteU ||| pteP ||| pteW⟩ ∧ t.mem s.next = s.mem p.frame

/-- The page table can be read, and there is no memory for the copy, or the page
can be copied and the copy cannot be mapped. -/
def Panics (s : UserSpace) (pn : ℕ) (ok ok' : Bool) : Prop := s.uvpd (pn / 1024) = true ∧
  (ok = false ∨ pn ≠ pftemp ∧ ∃ p, s.uvpt pn = some p ∧ p.perm &&& pteU ≠ 0 ∧
    (userPages ≤ pn ∨ ok' = false))

theorem wp_pgfault (h : s.Fresh) (va err : ℕ) (ok ok' : Bool) :
    wp (pgfault va err ok ok') (fun _ t => Untouched s t (va / pgsize) ∧
      (va / pgsize ≠ pftemp → Replaced s t (va / pgsize)) ∧ ¬ s.Panics (va / pgsize) ok ok')
      (fun e t => Same s t (va / pgsize) ∧
        (e = .panic ∧ t.uvpt (va / pgsize) = s.uvpt (va / pgsize) ↔ s.Panics (va / pgsize) ok ok')) s := by
  obtain ⟨pn, hpn⟩ : ∃ pn, pn = va / pgsize := ⟨_, rfl⟩
  have hsame : Same s s pn := ⟨Untouched.refl h pn, fun _ => rfl⟩
  rw [pgfault, ← hpn, wp_bind]
  refine wp_readUvpt (fun htab _ => ?_) fun htab =>
    ⟨hsame, iff_of_false (fun hc => FaultStop.noConfusion hc.1) fun hc => htab hc.1⟩
  rw [wp_bind]
  refine wp_sysPageAlloc pftemp_lt (fun hok r hr => ?_) fun hok => ?_
  · rw [wp_bind]
    exact wp_panicIf (fun _ => ⟨hsame, iff_of_true ⟨rfl, rfl⟩ ⟨htab, .inl hok⟩⟩) fun hc => absurd hr hc
  subst hok
  -- the new page is at `PFTEMP`
  obtain ⟨s₁, hs₁⟩ : ∃ s₁, s₁ = s.allocated pftemp (pteU ||| pteP ||| pteW) := ⟨_, rfl⟩
  have h₁ : Untouched s s₁ pn := hs₁ ▸ untouched_allocated h _
  have htemp : s₁.uvpt pftemp = some ⟨s.next, pteU ||| pteP ||| pteW⟩ := by
    rw [hs₁]
    exact setPte_self s pftemp _
  have hpn₁ : pn ≠ pftemp → s₁.uvpt pn = s.uvpt pn := by
    intro hne
    rw [hs₁]
    exact setPte_of_ne s _ hne
  rw [← hs₁, wp_bind]
  refine wp_panicIf (fun hc => absurd hc (by decide)) fun _ => ?_
  rw [wp_bind]
  refine wp_memmovePage htemp (fun hno => ⟨⟨h₁, hpn₁⟩, iff_of_false (fun hc => FaultStop.noConfusion hc.1) ?_⟩)
    fun p hp hu => ?_
  · rintro ⟨-, hok | ⟨hne, p, hp, hu, -⟩⟩
    · cases hok
    · exact hno p ((hpn₁ hne).trans hp) hu
  obtain ⟨s₂, hs₂⟩ : ∃ s₂, s₂ = { s₁ with mem := update s₁.mem s.next (s₁.mem p.frame) } :=
    ⟨_, rfl⟩
  have h₂ : Untouched s s₂ pn := hs₂ ▸ h₁.store (Nat.le_refl _) _
  have hpt₂ : s₂.uvpt = s₁.uvpt := by rw [hs₂]
  have hcopy : s₂.mem s.next = s₁.mem p.frame := by
    rw [hs₂]
    exact update_self ..
  have hnext₂ : s.next < s₂.next := by
    rw [hs₂, hs₁]
    exact Nat.lt_succ_self _
  have hsame₂ : Same s s₂ pn := ⟨h₂, fun hne => by rw [hpt₂, hpn₁ hne]⟩
  rw [← hs₂, wp_bind]
  refine wp_sysPageMap pftemp_lt (hpt₂ ▸ htemp) (fun hbad r hr => ?_) fun hlt hok' => ?_
  · rw [wp_bind]
    refine wp_panicIf (fun _ => ⟨hsame₂, ?_⟩) fun hc => absurd hr hc
    by_cases hne : pn = pftemp
    · -- the new page is still there
      subst hne
      refine iff_of_false (fun hc => ?_) fun hc => hc.2.elim (fun hok => by cases hok) fun hc => hc.1 rfl
      exact Nat.lt_irrefl _ (h pftemp _ (hc.2.symm.trans (hpt₂ ▸ htemp)))
    · exact iff_of_true ⟨rfl, hsame₂.2 hne⟩ ⟨htab, .inr ⟨hne, p, (hpn₁ hne).symm.trans hp, hu, hbad⟩⟩
  -- and then at the faulting page
  obtain ⟨s₃, hs₃⟩ : ∃ s₃, s₃ = s₂.setPte pn ⟨s.next, pteU ||| pteP ||| pteW⟩ := ⟨_, rfl⟩
  have h₃ : Untouched s s₃ pn := hs₃ ▸ h₂.trans (Untouched.setPte h₂.fresh (.inr rfl) hnext₂)
  rw [← hs₃, wp_bind]
  refine wp_panicIf (fun hc => absurd hc (by decide)) fun _ => ?_
  rw [wp_bind]
  refine wp_sysPageUnmap pftemp_lt (wp_panicIf (fun hc => absurd hc (by decide)) fun _ => ?_)
  refine ⟨h₃.trans (untouched_unmap h₃.fresh), fun hne => ?_, ?_⟩
  · have hp₀ := (hpn₁ hne).symm.trans hp
    refine ⟨p, hp₀, hlt, hu, ?_, ?_⟩
    · show update s₃.uvpt pftemp none pn = _
      rw [update_of_ne hne, hs₃]
      exact setPte_self ..
    · show s₃.mem s.next = _
      rw [hs₃]
      exact hcopy.trans (h₁.mem _ (h pn p hp₀))
  · rintro ⟨-, hok | ⟨-, -, -, -, hbad⟩⟩
    · cases hok
    · exact hbad.elim (Nat.not_le_of_lt hlt) fun hno => by rw [hok'] at hno; cases hno

end Fault

end UserSpace

/-! ### Sequences of faults -/

/-- The fault is a write to a page that is present and copy-on-write. -/
def CowWrite (s : UserSpace) (f : Fault) : Prop := f.err &&& fecWr ≠ 0 ∧
  ∃ p, s.uvpt (f.va / pgsize) = some p ∧ p.perm &&& pteCow ≠ 0

/-- The fault is a write to a copy-on-write page, or one that the handler cannot
serve and panics for. -/
def FaultCond (s : FaultEnv) (f : Fault) : Prop :=
  CowWrite s.space f ∨ s.space.Panics (f.va / pgsize) f.ok f.ok'

/-- The page is mapped, neither writable nor copy-on-write. -/
def ReadOnly (s : UserSpace) (pn : ℕ) (p : UserPte) : Prop :=
  s.uvpt pn = some p ∧ p.perm &&& pteW = 0 ∧ p.perm &&& pteCow = 0
  deriving Decidable

section Runs

variable {s₀ : UserSpace} {s s' : FaultEnv} {f : Fault}

theorem fault_step (h : s.space.Fresh) (hok : FaultCond s f) (hs : s.step f = some s') :
    s'.space.Fresh ∧ s.space.next ≤ s'.space.next ∧
    (∀ g < s.space.next, s'.space.mem g = s.space.mem g) ∧
    ∀ k, k ≠ pftemp → s'.space.uvpt k ≠ s.space.uvpt k → k = f.va / pgsize ∧ CowWrite s.space f := by
  unfold FaultEnv.step at hs
  by_cases ha : s.alive
  swap
  · rw [if_neg ha] at hs
    cases hs
  rw [if_pos ha] at hs
  have hwp := UserSpace.wp_pgfault h f.va f.err f.ok f.ok'
  cases hret : UserSpace.pgfault f.va f.err f.ok f.ok' s.space with
  | ret u t =>
    rw [hret] at hs
    cases hs
    obtain ⟨hun, -, hno⟩ := hwp.ret hret
    refine ⟨hun.fresh, hun.next, hun.mem, fun k hk hne => ?_⟩
    have hkf : k = f.va / pgsize := by
      by_contra hkf
      exact hne (hun.pte k hk hkf)
    subst hkf
    exact ⟨rfl, hok.resolve_right hno⟩
  | stop e t =>
    rw [hret] at hs
    cases hs
    obtain ⟨⟨hun, hsame⟩, -⟩ := hwp.stop hret
    refine ⟨hun.fresh, hun.next, hun.mem, fun k hk hne => absurd ?_ hne⟩
    by_cases hkf : k = f.va / pgsize
    · subst hkf
      exact hsame hk
    · exact hun.pte k hk hkf

theorem faultCond_iff (h : s.space.Fresh) (f : Fault) : FaultCond s f ↔
    (¬ CowWrite s.space f → ∃ t, UserSpace.pgfault f.va f.err f.ok f.ok' s.space = .stop .panic t ∧
      t.uvpt (f.va / pgsize) = s.space.uvpt (f.va / pgsize)) := by
  have hwp := UserSpace.wp_pgfault h f.va f.err f.ok f.ok'
  rw [FaultCond, or_iff_not_imp_left]
  refine imp_congr_right fun _ => ?_
  cases hret : UserSpace.pgfault f.va f.err f.ok f.ok' s.space with
  | ret u t =>
    refine iff_of_false (hwp.ret hret).2.2 ?_
    rintro ⟨t', ht, -⟩
    cases ht
  | stop e t =>
    rw [← (hwp.stop hret).2]
    constructor
    · rintro ⟨rfl, ht⟩
      exact ⟨t, rfl, ht⟩
    · rintro ⟨t', ht, hpte⟩
      cases ht
      exact ⟨rfl, hpte⟩

/-- Through every sequence of such faults a page that is mapped read-only keeps
its mapping and its contents, and no fault changes a mapping but that of a
copy-on-write page that was written to; for every other fault the handler
panics, and such faults are all for which it does what it should. -/
theorem readonly_pages_kept (h₀ : s₀.Fresh)
    (hr : Sys.Reach FaultEnv.step FaultCond ⟨s₀, true⟩ s) :
    (∀ pn p, pn ≠ pftemp → ReadOnly s₀ pn p →
      s.space.uvpt pn = some p ∧ s.space.mem p.frame = s₀.mem p.frame) ∧
    (∀ f s', FaultCond s f → s.step f = some s' → ∀ k, k ≠ pftemp →
      s'.space.uvpt k ≠ s.space.uvpt k → k = f.va / pgsize ∧ CowWrite s.space f) ∧
    ∀ f, FaultCond s f ↔ (¬ CowWrite s.space f →
      ∃ t, UserSpace.pgfault f.va f.err f.ok f.ok' s.space = .stop .panic t ∧
        t.uvpt (f.va / pgsize) = s.space.uvpt (f.va / pgsize)) := by
  have hinv : s.space.Fresh ∧ s₀.next ≤ s.space.next ∧
      (∀ g < s₀.next, s.space.mem g = s₀.mem g) ∧
      ∀ pn p, pn ≠ pftemp → ReadOnly s₀ pn p → s.space.uvpt pn = some p := by
    refine Sys.Reach.inv (I := fun s : FaultEnv => s.space.Fresh ∧ s₀.next ≤ s.space.next ∧
      (∀ g < s₀.next, s.space.mem g = s₀.mem g) ∧
      ∀ pn p, pn ≠ pftemp → ReadOnly s₀ pn p → s.space.uvpt pn = some p)
      ⟨h₀, Nat.le_refl _, fun _ _ => rfl, fun _ _ _ hro => hro.1⟩ ?_ hr
    rintro s f s' ⟨hfresh, hnext, hmem, hpages⟩ hok hs
    obtain ⟨hfresh', hnext', hmem', hpte⟩ := fault_step hfresh hok hs
    refine ⟨hfresh', Nat.le_trans hnext hnext', fun g hg => ?_, fun pn p hne hro => ?_⟩
    · exact (hmem' g (Nat.lt_of_lt_of_le hg hnext)).trans (hmem g hg)
    · have hp := hpages pn p hne hro
      rw [← hp]
      by_contra hdiff
      obtain ⟨rfl, -, q, hq, hcow⟩ := hpte pn hne hdiff
      obtain rfl : p = q := Option.some.inj (hp.symm.trans hq)
      exact hcow hro.2.2
  obtain ⟨hfresh, -, hmem, hpages⟩ := hinv
  exact ⟨fun pn p hne hro => ⟨hpages pn p hne hro, hmem _ (h₀ pn p hro.1)⟩,
    fun f s' hok hs => (fault_step hfresh hok hs).2.2.2, faultCond_iff hfresh⟩

/-- A copy-on-write page and a page that is read-only. -/
def Demo.space : UserSpace where
  uvpd _ := true
  uvpt pn := if pn = 5 then some ⟨0, pteU ||| pteP ||| pteCow⟩
    else if pn = 6 then some ⟨1, pteU ||| pteP⟩ else none
  mem _ _ := 7
  next := 2

theorem Demo.space_fresh : space.Fresh := by
  intro pn p hp
  have hp : (if pn = 5 then some ⟨0, pteU ||| pteP ||| pteCow⟩
    else if pn = 6 then some ⟨1, pteU ||| pteP⟩ else none) = some p := hp
  show p.frame < 2
  split at hp
  · cases hp
    decide
  · obtain ⟨-, rfl⟩ := Sys.guard_eq hp
    decide

open Demo

/-- A write to the copy-on-write page, and then one to the read-only page for which
there is no memory. -/
theorem readonly_pages_kept_cow : ∃ s,
    Sys.Reach FaultEnv.step FaultCond ⟨space, true⟩ s ∧ s.alive = false ∧
    s.space.uvpt 5 = some ⟨2, pteU ||| pteP ||| pteW⟩ ∧
    s.space.uvpt 6 = some ⟨1, pteU ||| pteP⟩ ∧ s.space.mem 1 = space.mem 1 := by
  have hok : Sys.AllOk FaultEnv.step FaultCond
      [⟨5 * pgsize, 7, true, true⟩, ⟨6 * pgsize, 7, false, true⟩] ⟨space, true⟩ := by
    refine ⟨.inl ⟨by decide, _, rfl, by decide⟩, fun t ht => ⟨.inr ⟨?_, .inl rfl⟩, fun _ _ => trivial⟩⟩
    cases ht
    rfl
  obtain ⟨s, hr, halive, hpage⟩ := Sys.exists_reach_of (P := fun s => s.alive = false ∧ s.space.uvpt 5 =
      some ⟨2, pteU ||| pteP ||| pteW⟩) hok (by decide +kernel)
  refine ⟨s, hr, halive, hpage, ?_⟩
  exact (readonly_pages_kept space_fresh hr).1 6 ⟨1, pteU ||| pteP⟩ (by decide) (by decide)

/-- A write to the read-only page: the handler returns, and the page is writable
and another one. -/
theorem readonly_page_replaced : ReadOnly space 6 ⟨1, pteU ||| pteP⟩ ∧
    wp (UserSpace.pgfault (6 * pgsize) 7 true true)
      (fun _ t => t.uvpt 6 = some ⟨2, pteU ||| pteP ||| pteW⟩) (fun _ _ => False) space := by
  decide +kernel

end Runs

end Jos
