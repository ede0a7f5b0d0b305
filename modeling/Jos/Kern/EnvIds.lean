/-
Environment ids: `env_init`, `env_alloc` and `env_free` of kern/env.c as a
table of slots.

The id of a slot depends only on how often the slot has been allocated
(`slotId`): the generation counts up in steps of `1 << ENVGENSHIFT` and starts
again when the sum is negative as an `int32_t`.

* `env_ids` — in every run, the ids in use, the free list, and the ids that
  `envid2env` refuses.
-/
import Jos.Kern.RunState

namespace Jos

open Prog Function

variable {i : ℕ} {x x' : EnvTab}

/-! ### The table -/

def envInitSlot (i : ℕ) (s : Kern) : Kern :=
  { s.updEnv i ({ · with envLink := s.envFreeList, envId := 0, envStatus := .free }) with
    envFreeList := some i }

/-- The loop of `env_init`, for the slots below `n`, the last one first. -/
def envInitLoop : ℕ → Kern → Kern
  | 0, s => s
  | i + 1, s => envInitLoop i (envInitSlot i s)

/-- `env_init`, up to the segment registers. -/
def envInit (s : Kern) : Kern := envInitLoop nenv { s with envFreeList := none }

inductive EnvEvent where
  | alloc (parentId : ℕ)
  | free (e : ℕ)
  | setStatus (e : ℕ) (status : EnvStatus)
  | setMm (m : Mm)

/-- The kernel, with the number of times each slot has been allocated. -/
abbrev EnvTab := Kern × (ℕ → ℕ)

/-- A call of `env_alloc`, or of `env_free` for an environment that is not
free.  In between the rest of the kernel moves environments between the other
states and changes memory.  A kernel that has stopped takes no more steps. -/
def envStep (x : EnvTab) : EnvEvent → Option EnvTab
  | .alloc parentId =>
    match envAlloc parentId x.1 with
    | .ret (.ok e) s => some (s, update x.2 e (x.2 e + 1))
    | .ret (.error _) s => some (s, x.2)
    | .stop _ _ => none
  | .free e =>
    if e < nenv ∧ (x.1.envs e).envStatus ≠ .free then
      (envFree e x.1).returned.map fun s => (s, x.2)
    else none
  | .setStatus e status =>
    if (x.1.envs e).envStatus ≠ .free ∧ status ≠ .free then
      some (x.1.updEnv e ({ · with envStatus := status }), x.2)
    else none
  | .setMm m => some ({ x.1 with mm := m }, x.2)

/-! ### Ids -/

def envGens : ℕ := 2 ^ 19 - 1

def slotId (i : ℕ) : ℕ → ℕ
  | 0 => 0
  | n + 1 => (n % envGens + 1) * 4096 + i

theorem and_gen (x : ℕ) : x &&& 0xfffffc00 = x / 1024 % 2 ^ 22 * 1024 := by
  have hhigh : (x &&& 0xfffffc00) / 1024 = x / 1024 % 2 ^ 22 := by
    rw [show 1024 = 2 ^ 10 from rfl, ← Nat.shiftRight_eq_div_pow, Nat.shiftRight_and_distrib,
      show 0xfffffc00 >>> 10 = 2 ^ 22 - 1 from rfl, Nat.and_two_pow_sub_one_eq_mod,
      Nat.shiftRight_eq_div_pow]
  have hlow : (x &&& 0xfffffc00) % 1024 = 0 := by
    rw [show 1024 = 2 ^ 10 from rfl, Nat.and_mod_two_pow]
    exact Nat.and_zero _
  omega

theorem gen_or {g slot : ℕ} (h : slot < nenv) : g * 4096 ||| slot = g * 4096 + slot := by
  have hlt : slot < 2 ^ 12 := Nat.lt_trans h (by decide)
  rw [show g * 4096 = g <<< 12 by rw [Nat.shiftLeft_eq], Nat.shiftLeft_add_eq_or_of_lt hlt]

theorem nextEnvId_slotId (h : i < nenv) (n : ℕ) : nextEnvId (slotId i n) i = slotId i (n + 1) := by
  have hi : i < 1024 := h
  have hmod : n % envGens < envGens := Nat.mod_lt _ (by decide)
  have hgens : envGens = 524287 := rfl
  obtain ⟨g, hg, hgen⟩ : ∃ g, g < 524288 ∧ slotId i n / 1024 = g * 4 ∧ slotId i n < 2 ^ 31 ∧
      n % envGens + 1 = if g + 1 = 524288 then 1 else g + 1 := by
    cases n with
    | zero => exact ⟨0, by decide, Nat.zero_div 1024, Nat.two_pow_pos 31, rfl⟩
    | succ n =>
      have hn : n % envGens < envGens := Nat.mod_lt _ (by decide)
      refine ⟨n % envGens + 1, by omega, ?_, ?_, ?_⟩
      · rw [slotId]
        omega
      · rw [slotId]
        omega
      · rw [hgens] at hn ⊢
        split <;> omega
  obtain ⟨hdiv, hlt, hnext⟩ := hgen
  have hsum : (slotId i n + 1 <<< envgenshift) % 2 ^ 32 &&& 0xfffffc00 = (g + 1) * 4096 := by
    rw [and_gen, show 1 <<< envgenshift = 4096 from rfl]
    omega
  rw [nextEnvId, hsum, slotId, hnext]
  by_cases hwrap : g + 1 = 524288
  · rw [if_pos (by omega), if_pos hwrap, ← gen_or h]
    rfl
  · rw [if_neg (by omega), if_neg hwrap, gen_or h]

theorem envx_slotId {n : ℕ} (h : i < nenv) (hn : 0 < n) : envx (slotId i n) = i := by
  cases n with
  | zero => exact absurd hn (Nat.lt_irrefl 0)
  | succ n =>
    rw [← nextEnvId_slotId h]
    exact envx_nextEnvId _ h

theorem slotId_lt (h : i < nenv) (n : ℕ) : slotId i n < 2 ^ 31 := by
  have hi : i < 1024 := h
  cases n with
  | zero => exact Nat.two_pow_pos 31
  | succ n =>
    have hn : n % envGens < 524287 := Nat.mod_lt _ (by decide)
    rw [slotId]
    omega

theorem slotId_pos {n : ℕ} (hn : 0 < n) : 0 < slotId i n := by
  cases n with
  | zero => exact absurd hn (Nat.lt_irrefl 0)
  | succ n =>
    rw [slotId]
    omega

theorem slotId_ne {n m : ℕ} (hn : 0 < n) (hlt : n < m) (hm : m < n + envGens) :
    slotId i n ≠ slotId i m := by
  have hgens : envGens = 524287 := rfl
  obtain ⟨n, rfl⟩ : ∃ k, n = k + 1 := ⟨n - 1, by omega⟩
  obtain ⟨m, rfl⟩ : ∃ k, m = k + 1 := ⟨m - 1, by omega⟩
  rw [slotId, slotId, hgens]
  omega

/-! ### The steps -/

theorem envStep_free {e : ℕ} (h : envStep x (.free e) = some x') :
    e < nenv ∧ (x.1.envs e).envStatus ≠ .free ∧ (x.1.freed e).SameCtl x'.1 ∧ x'.2 = x.2 := by
  have hspec : wp (envFree e) (fun _ s => (x.1.freed e).SameCtl s) (fun _ _ => True) x.1 :=
    wp_envFree (fun _ hs => hs) fun _ _ _ _ => trivial
  rw [envStep] at h
  split at h
  · next hlive =>
    obtain ⟨s, hs, rfl⟩ := Option.map_eq_some_iff.mp h
    obtain ⟨u, hrun⟩ := Outcome.returned_eq_some.mp hs
    exact ⟨hlive.1, hlive.2, hspec.ret hrun, rfl⟩
  · cases h

theorem envStep_cases {l : EnvEvent} (h : envStep x l = some x') :
    (x'.2 = x.2 ∧ x'.1.envFreeList = x.1.envFreeList ∧
      ∀ i, (x'.1.envs i).envId = (x.1.envs i).envId ∧
        (x'.1.envs i).envLink = (x.1.envs i).envLink ∧
        ((x'.1.envs i).envStatus = .free ↔ (x.1.envs i).envStatus = .free)) ∨
    (∃ e parentId d, x.1.envFreeList = some e ∧
      (x.1.allocated e parentId d).SameCtl x'.1 ∧
      x'.2 = update x.2 e (x.2 e + 1)) ∨
    (∃ e, e < nenv ∧ (x.1.envs e).envStatus ≠ .free ∧
      (x.1.freed e).SameCtl x'.1 ∧ x'.2 = x.2) := by
  cases l with
  | alloc parentId =>
    have hspec : wp (envAlloc parentId)
        (fun r s => (∀ c, r = .error c → x.1.SameCtl s) ∧ ∀ e, r = .ok e →
          ∃ d, x.1.envFreeList = some e ∧ (x.1.allocated e parentId d).SameCtl s)
        (fun _ _ => True) x.1 := by
      refine wp_envAlloc (fun r s hs => ⟨fun _ _ => hs, fun e he => ?_⟩)
        (fun e d s hl hs => ⟨fun c hc => ?_, fun e' he => ?_⟩) fun _ _ _ _ => trivial
      · cases he
      · cases hc
      · cases he
        exact ⟨d, hl, hs⟩
    rw [envStep] at h
    split at h
    · next e s hrun =>
      obtain ⟨d, hl, hs⟩ := (hspec.ret hrun).2 e rfl
      cases h
      exact .inr (.inl ⟨e, parentId, d, hl, hs, rfl⟩)
    · next r s hrun =>
      have hs : x.1.SameCtl s := (hspec.ret hrun).1 _ rfl
      cases h
      refine .inl ⟨rfl, hs.envFreeList, fun i => ?_⟩
      rw [hs.envs]
      exact ⟨rfl, rfl, Iff.rfl⟩
    · cases h
  | free e =>
    exact .inr (.inr ⟨e, envStep_free h⟩)
  | setStatus e status =>
    rw [envStep] at h
    obtain ⟨hlive, rfl⟩ := Sys.guard_eq h
    refine .inl ⟨rfl, rfl, fun i => ?_⟩
    rw [Kern.updEnv_envs]
    by_cases hi : i = e
    · subst hi
      rw [if_pos rfl]
      exact ⟨rfl, rfl, iff_of_false hlive.2 hlive.1⟩
    · rw [if_neg hi]
      exact ⟨rfl, rfl, Iff.rfl⟩
  | setMm m =>
    cases h
    exact .inl ⟨rfl, rfl, fun i => ⟨rfl, rfl, Iff.rfl⟩⟩

structure EnvInv (x : EnvTab) : Prop where
  ids : ∀ i < nenv, (x.1.envs i).envId = slotId i (x.2 i)
  used : ∀ i < nenv, (x.1.envs i).envStatus ≠ .free → 0 < x.2 i
  list : ∃ l, Linked (fun e => (x.1.envs e).envLink) x.1.envFreeList l ∧
    ∀ e, e ∈ l ↔ e < nenv ∧ (x.1.envs e).envStatus = .free

theorem EnvInv.step {l : EnvEvent} (h : EnvInv x) (hs : envStep x l = some x') : EnvInv x' := by
  obtain ⟨l, hlist, hfree⟩ := h.list
  obtain ⟨hcount, hhead, hsame⟩ | ⟨e, parentId, d, hl, hctl, hcount⟩ |
    ⟨e, he, hlive, hctl, hcount⟩ := envStep_cases hs
  · constructor
    · intro i hi
      rw [(hsame i).1, hcount, h.ids i hi]
    · intro i hi hne
      rw [hcount]
      exact h.used i hi fun hf => hne ((hsame i).2.2.mpr hf)
    · refine ⟨l, ?_, fun e => (hfree e).trans (and_congr_right fun _ => (hsame e).2.2.symm)⟩
      rw [hhead]
      exact hlist.congr fun e _ => (hsame e).2.1
  · -- the head of the list is taken
    rw [hl] at hlist
    obtain ⟨l', rfl, htail⟩ := hlist.pop
    obtain ⟨hnot, -⟩ := List.nodup_cons.mp hlist.nodup
    obtain ⟨he, -⟩ := (hfree e).mp List.mem_cons_self
    have henv : ∀ i, i ≠ e → x'.1.envs i = x.1.envs i := by
      intro i hi
      rw [hctl.envs, Kern.allocated_envs, if_neg hi]
    have hself : x'.1.envs e = ({ x.1.envs e with envPgdir := some d } : Env).init e parentId := by
      rw [hctl.envs, Kern.allocated_envs, if_pos rfl]
    have hstatus : (x'.1.envs e).envStatus = .runnable := by
      rw [hself]
      rfl
    constructor
    · intro i hi
      by_cases hie : i = e
      · subst hie
        rw [hcount, update_self, ← nextEnvId_slotId hi, ← h.ids i hi, hself]
        rfl
      · rw [hcount, update_of_ne hie, henv i hie, h.ids i hi]
    · intro i hi hne
      rw [hcount]
      by_cases hie : i = e
      · subst hie
        rw [update_self]
        exact Nat.succ_pos _
      · rw [update_of_ne hie]
        rw [henv i hie] at hne
        exact h.used i hi hne
    · refine ⟨l', ?_, fun i => ?_⟩
      · rw [hctl.envFreeList]
        refine htail.congr fun i hi => ?_
        rw [henv i (ne_of_mem_of_not_mem hi hnot)]
      · by_cases hie : i = e
        · subst hie
          rw [hstatus]
          exact iff_of_false hnot fun hi => nomatch hi.2
        · rw [henv i hie, ← hfree i, List.mem_cons, or_iff_right hie]
  · -- the freed slot goes to the head
    have hnot : e ∉ l := fun hmem => hlive ((hfree e).mp hmem).2
    have henv : ∀ i, i ≠ e → x'.1.envs i = x.1.envs i := by
      intro i hi
      rw [hctl.envs, Kern.freed_envs, if_neg hi]
    have hself : x'.1.envs e =
        { x.1.envs e with envPgdir := none, envStatus := .free, envLink := x.1.envFreeList } := by
      rw [hctl.envs, Kern.freed_envs, if_pos rfl]
    constructor
    · intro i hi
      rw [hcount, ← h.ids i hi]
      by_cases hie : i = e
      · subst hie
        rw [hself]
      · rw [henv i hie]
    · intro i hi hne
      rw [hcount]
      by_cases hie : i = e
      · subst hie
        exact h.used i hi hlive
      · rw [henv i hie] at hne
        exact h.used i hi hne
    · refine ⟨e :: l, ?_, fun i => ?_⟩
      · rw [hctl.envFreeList]
        refine .cons ?_
        rw [hself]
        refine hlist.congr fun i hi => ?_
        rw [henv i (ne_of_mem_of_not_mem hi hnot)]
      · by_cases hie : i = e
        · subst hie
          rw [hself]
          exact iff_of_true List.mem_cons_self ⟨he, rfl⟩
        · rw [henv i hie, ← hfree i, List.mem_cons, or_iff_right hie]

/-! ### The start -/

theorem envInitSlot_self (i : ℕ) (s : Kern) : (envInitSlot i s).envs i =
    { s.envs i with envLink := s.envFreeList, envId := 0, envStatus := .free } := by
  simp [envInitSlot]

theorem envInitSlot_other {j : ℕ} (s : Kern) (h : j ≠ i) : (envInitSlot i s).envs j = s.envs j := by
  simp [envInitSlot, Kern.updEnv_envs, h]

theorem envInitLoop_spec (n : ℕ) : ∀ (s : Kern) (l : List ℕ),
    Linked (fun e => (s.envs e).envLink) s.envFreeList l → (∀ e ∈ l, n ≤ e) →
    (∀ i, n ≤ i → (envInitLoop n s).envs i = s.envs i) ∧
    (∀ i < n, ((envInitLoop n s).envs i).envId = 0 ∧
      ((envInitLoop n s).envs i).envStatus = .free) ∧
    ∃ l', Linked (fun e => ((envInitLoop n s).envs e).envLink) (envInitLoop n s).envFreeList l' ∧
      ∀ e, e ∈ l' ↔ e < n ∨ e ∈ l := by
  induction n with
  | zero =>
    intro s l hl _
    exact ⟨fun i _ => rfl, fun i hi => absurd hi (Nat.not_lt_zero i),
      l, hl, fun e => by simp⟩
  | succ n ih =>
    intro s l hl hmem
    -- the slot is not on the list yet, so pushing it keeps the list
    have hnot : n ∉ l := fun h => Nat.not_succ_le_self n (hmem n h)
    have hself := envInitSlot_self n s
    have hother : ∀ i, i ≠ n → (envInitSlot n s).envs i = s.envs i :=
      fun i hi => envInitSlot_other s hi
    have hpush : Linked (fun e => ((envInitSlot n s).envs e).envLink)
        (envInitSlot n s).envFreeList (n :: l) := by
      refine .cons ?_
      rw [hself]
      refine hl.congr fun i hi => ?_
      rw [hother i (ne_of_mem_of_not_mem hi hnot)]
    obtain ⟨hkeep, hzero, l', hl', hmem'⟩ := ih _ (n :: l) hpush (by
      intro e he
      rcases List.mem_cons.mp he with rfl | he
      · exact Nat.le_refl e
      · exact Nat.le_of_succ_le (hmem e he))
    refine ⟨fun i hi => ?_, fun i hi => ?_, l', hl', fun e => ?_⟩
    · exact (hkeep i (by omega)).trans (hother i (by omega))
    · by_cases hin : i = n
      · subst hin
        rw [envInitLoop, hkeep i (Nat.le_refl i), hself]
        exact ⟨rfl, rfl⟩
      · exact hzero i (by omega)
    · rw [hmem' e, List.mem_cons]
      constructor
      · rintro (h | rfl | h)
        · exact .inl (by omega)
        · exact .inl (Nat.lt_succ_self e)
        · exact .inr h
      · rintro (h | h)
        · by_cases hen : e = n
          · exact .inr (.inl hen)
          · exact .inl (by omega)
        · exact .inr (.inr h)

-- one level for each slot: `envInitLoop_spec` says what the loop leaves
attribute [irreducible] envInitLoop

theorem EnvInv.start (s : Kern) : EnvInv (envInit s, fun _ => 0) := by
  obtain ⟨-, hzero, l, hl, hmem⟩ :=
    envInitLoop_spec nenv { s with envFreeList := none } [] .nil (by simp)
  constructor
  · exact fun i hi => (hzero i hi).1
  · exact fun i hi hne => absurd (hzero i hi).2 hne
  · refine ⟨l, hl, fun e => ?_⟩
    rw [hmem e, or_iff_left List.not_mem_nil]
    exact ⟨fun he => ⟨he, (hzero e he).2⟩, fun he => he.1⟩

/-! ### Runs -/

/-- Any sequence of the events. -/
def EnvRun : EnvTab → EnvTab → Prop := Sys.Reach envStep fun _ _ => True

theorem EnvInv.run {y : EnvTab} (h : EnvInv x) (hr : EnvRun x y) : EnvInv y :=
  Sys.Reach.inv h (fun _ _ _ hx _ hs => hx.step hs) hr

theorem envStep_count {l : EnvEvent} (h : envStep x l = some x') (i : ℕ) : x.2 i ≤ x'.2 i := by
  obtain ⟨hcount, -⟩ | ⟨e, parentId, d, -, -, hcount⟩ | ⟨e, -, -, -, hcount⟩ := envStep_cases h
  · rw [hcount]
  · rw [hcount]
    by_cases hi : i = e
    · subst hi
      rw [update_self]
      exact Nat.le_succ _
    · rw [update_of_ne hi]
  · rw [hcount]

theorem EnvRun.count {y : EnvTab} (hr : EnvRun x y) (i : ℕ) : x.2 i ≤ y.2 i :=
  Sys.Reach.inv (I := fun z => x.2 i ≤ z.2 i) (Nat.le_refl _)
    (fun _ _ _ hle _ hs => Nat.le_trans hle (envStep_count hs i)) hr

theorem EnvRun.free_or_reused {y : EnvTab} (hr : EnvRun x y) (hfree : (x.1.envs i).envStatus = .free) :
    (y.1.envs i).envStatus = .free ∨ x.2 i < y.2 i := by
  refine Sys.Reach.inv (I := fun z =>
    (z.1.envs i).envStatus = .free ∧ z.2 i = x.2 i ∨ x.2 i < z.2 i)
    (.inl ⟨hfree, rfl⟩) (fun z _ z' hz _ hs => ?_) hr |>.imp_left And.left
  obtain ⟨hz, hzc⟩ | hz := hz
  · obtain ⟨hcount, -, hsame⟩ | ⟨e, parentId, d, -, hctl, hcount⟩ | ⟨e, -, hlive, hctl, hcount⟩ :=
      envStep_cases hs
    · exact .inl ⟨(hsame i).2.2.mpr hz, by rw [hcount, hzc]⟩
    · by_cases hi : i = e
      · subst hi
        rw [hcount, update_self]
        exact .inr (by omega)
      · rw [hcount, update_of_ne hi, hctl.envs, Kern.allocated_envs, if_neg hi]
        exact .inl ⟨hz, hzc⟩
    · have hi : i ≠ e := fun hi => hlive (hi ▸ hz)
      rw [hcount, hctl.envs, Kern.freed_envs, if_neg hi]
      exact .inl ⟨hz, hzc⟩
  · exact .inr (Nat.lt_of_lt_of_le hz (envStep_count hs i))

theorem envid2env_bad {s : Kern} {envid : ℕ} (hne : envid ≠ 0)
    (h : (s.envs (envx envid)).envStatus = .free ∨ (s.envs (envx envid)).envId ≠ envid)
    (checkperm : Bool) : envid2env envid checkperm s = .ret none s := by
  rw [envid2env, if_neg hne, get_bind, if_pos h]
  rfl

theorem EnvInv.live (h : EnvInv x) (hi : i < nenv) (hlive : (x.1.envs i).envStatus ≠ .free) :
    0 < toInt32 (x.1.envs i).envId ∧ envx (x.1.envs i).envId = i := by
  have hn := h.used i hi hlive
  have hlt := slotId_lt hi (x.2 i)
  have hpos := slotId_pos (i := i) hn
  rw [h.ids i hi, toInt32]
  refine ⟨?_, envx_slotId hi hn⟩
  split <;> omega

/-- In every run from `env_init` on: an environment in use has a positive id
that names its slot, so no two have the same; `env_free_list` visits each free
slot once and no other; allocations of a slot less than `2 ^ 19 - 1` apart
have different ids; and so long `envid2env` refuses the id of an environment
that has been freed. -/
theorem env_ids {s₀ : Kern} {x : EnvTab} (hx : EnvRun (envInit s₀, fun _ => 0) x) :
    (∀ i < nenv, (x.1.envs i).envStatus ≠ .free →
      0 < toInt32 (x.1.envs i).envId ∧ envx (x.1.envs i).envId = i) ∧
    (∀ i < nenv, ∀ j < nenv, (x.1.envs i).envStatus ≠ .free → (x.1.envs j).envStatus ≠ .free →
      (x.1.envs i).envId = (x.1.envs j).envId → i = j) ∧
    (∃ l : List ℕ, Linked (fun e => (x.1.envs e).envLink) x.1.envFreeList l ∧ l.Nodup ∧
      ∀ e, e ∈ l ↔ e < nenv ∧ (x.1.envs e).envStatus = .free) ∧
    (∀ y, EnvRun x y → ∀ i < nenv, 0 < x.2 i → x.2 i < y.2 i → y.2 i < x.2 i + (2 ^ 19 - 1) →
      (x.1.envs i).envId ≠ (y.1.envs i).envId) ∧
    ∀ i < nenv, (x.1.envs i).envStatus ≠ .free →
      ∀ y z w, EnvRun x y → envStep y (.free i) = some z → EnvRun z w →
        w.2 i < x.2 i + (2 ^ 19 - 1) →
        ∀ checkperm, envid2env (x.1.envs i).envId checkperm w.1 = .ret none w.1 := by
  have hinv := (EnvInv.start s₀).run hx
  have hdiff : ∀ y, EnvRun x y → ∀ i < nenv, 0 < x.2 i → x.2 i < y.2 i →
      y.2 i < x.2 i + (2 ^ 19 - 1) → (x.1.envs i).envId ≠ (y.1.envs i).envId := by
    intro y hy i hi hpos hlt hgens
    rw [hinv.ids i hi, (hinv.run hy).ids i hi]
    exact slotId_ne hpos hlt hgens
  obtain ⟨l, hl, hfree⟩ := hinv.list
  refine ⟨fun i hi hlive => hinv.live hi hlive, ?_, ⟨l, hl, hl.nodup, hfree⟩, hdiff, ?_⟩
  · intro i hi j hj hlive hlive' heq
    rw [← (hinv.live hi hlive).2, ← (hinv.live hj hlive').2, heq]
  · intro i hi hlive y z w hy hz hw hgens checkperm
    have hyz : EnvRun y z := Sys.Reach.step .refl trivial hz
    have hpos := hinv.used i hi hlive
    have hslot := (hinv.live hi hlive).2
    have hid : (x.1.envs i).envId ≠ 0 := by
      rw [hinv.ids i hi]
      exact Nat.ne_of_gt (slotId_pos hpos)
    have hzfree : (z.1.envs i).envStatus = .free := by
      rw [(envStep_free hz).2.2.1.envs, Kern.freed_envs, if_pos rfl]
    have hxz := (hy.count i).trans (hyz.count i)
    refine envid2env_bad hid ?_ checkperm
    rw [hslot]
    rcases hw.free_or_reused hzfree with hf | hlt
    · exact .inl hf
    · have hxw : EnvRun x w := (hy.trans hyz).trans hw
      exact .inr (hdiff w hxw i hi hpos (by omega) hgens).symm

/-- Slot 0 is allocated, freed and allocated again; the first id is refused. -/
theorem env_ids_reuse : ∃ x w : EnvTab, EnvRun (envInit (Demo.machine 6), fun _ => 0) x ∧
    (x.1.envs 0).envStatus ≠ .free ∧ EnvRun x w ∧ (w.1.envs 0).envStatus ≠ .free ∧
    envid2env (x.1.envs 0).envId false w.1 = .ret none w.1 := by
  have hok : Sys.AllOk envStep (fun _ _ => True) [.alloc 0] (envInit (Demo.machine 6), fun _ => 0) :=
    Sys.allOk_true _ _
  obtain ⟨x, hx, htest⟩ := Sys.exists_reach (p := fun x =>
    (x.1.envs 0).envStatus ≠ .free ∧ (envStep x (.free 0)).any fun z =>
      (envStep z (.alloc 0)).any fun w =>
        (w.1.envs 0).envStatus ≠ .free ∧ w.2 0 < x.2 0 + (2 ^ 19 - 1)) hok (by decide +kernel)
  obtain ⟨hlive, hrest⟩ := of_decide_eq_true htest
  obtain ⟨z, hz, hrest⟩ := (Option.any_eq_true _ _).mp hrest
  obtain ⟨w, hw, hrest⟩ := (Option.any_eq_true _ _).mp hrest
  obtain ⟨hlive', hlt⟩ := of_decide_eq_true hrest
  have hzw : EnvRun z w := .step .refl trivial hw
  have hxw : EnvRun x w := .step (.step .refl trivial hz) trivial hw
  have hfacts := (env_ids hx).2.2.2.2 0 (by decide) hlive
  exact ⟨x, w, hx, hlive, hxw, hlive', hfacts x z w .refl hz hzw hlt false⟩

end Jos
