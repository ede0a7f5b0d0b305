/-
The stack of a spawned program: `init_stack` of lib/spawn.c.

The strings, the array of pointers to them and the two words `argc` and `argv`
are laid out downwards from the top of one page, at `UTEMP`, and the page is
then mapped at the top of the child's stack.  All addresses are computed in 32
bits, and the test that everything fits comes after the subtractions.

* `init_stack_lossless` — when the arguments are passed, or refused if they do not
  fit in the page;
* `init_stack_wraps` — arguments that do not fit and pass the test.
-/
import Jos.User.Places
import Jos.Lib.Prog
import Jos.Lib.Bytes

namespace Jos

open Prog Bytes

/-! ### The program -/

def utemp : ℕ := ptsize

/-- A string of C. -/
def CStr : Type := { str : List UInt8 // 0 ∉ str }

@[irreducible] def sub32 (a b : ℕ) : ℕ := (a + 2 ^ 32 - b % 2 ^ 32) % 2 ^ 32

/-- What `UTEMP2USTACK` adds. -/
def ustackOff : ℕ := ustacktop - pgsize - utemp

def utemp2ustack (a : ℕ) : ℕ := (a + ustackOff) % 2 ^ 32

/-- The page at `UTEMP` of the caller, the top page of the child's stack, and the
stack pointer the child will have. -/
structure StackSys where
  page : Option Mem
  child : Option Mem
  initEsp : ℕ

/-- A store that is not in the page at `UTEMP`, or the assertion fails. -/
inductive StackStop where
  | wild
  | assertion
  deriving DecidableEq

abbrev StackM := Prog StackStop StackSys

/-- A store of `n` bytes at `a`, in the page at `UTEMP`. -/
def storePage (a n : ℕ) (f : Mem → Mem) : StackM Unit := fun s =>
  match s.page with
  | some m =>
    if utemp ≤ a ∧ a + n ≤ utemp + pgsize then .ret () { s with page := some (f m) } else .stop .wild s
  | none => .stop .wild s

def storeWord (a v : ℕ) : StackM Unit := storePage a 4 fun m => wr32 m a v

def strcpy (a : ℕ) (str : CStr) : StackM Unit := storePage a (str.1.length + 1) fun m => putStr m a str.1

/-- The loop that sets `argv_store[i]`, here at `a`, and copies the strings to
`string_store`, here `t`; it ends with `string_store`. -/
def copyArgs : List CStr → ℕ → ℕ → StackM ℕ
  | [], _, t => pure t
  | str :: argv, a, t => do
    storeWord a (utemp2ustack t)
    strcpy t str
    copyArgs argv ((a + 4) % 2 ^ 32) ((t + str.1.length + 1) % 2 ^ 32)

/-- `string_size`, not yet cut to 32 bits. -/
def stringSize : List CStr → ℕ
  | [] => 0
  | str :: argv => str.1.length + 1 + stringSize argv

def stringStore (argv : List CStr) : ℕ := sub32 (utemp + pgsize) (stringSize argv)

def argvStore (argv : List CStr) : ℕ := sub32 (rounddown (stringStore argv) 4) (4 * (argv.length + 1))

/-- `sys_page_alloc(0, UTEMP, ..)`; `ok` says whether there is memory. -/
def allocUtemp (ok : Bool) : StackM ℤ := fun s =>
  if ok then .ret 0 { s with page := some fun _ => 0 } else .ret (-eNoMem) s

/-- `sys_page_map(0, UTEMP, child, USTACKTOP - PGSIZE, ..)`. -/
def mapStack (ok : Bool) : StackM ℤ := fun s =>
  if ok then .ret 0 { s with child := s.page.map fun m a => m (a - ustackOff) } else .ret (-eNoMem) s

def unmapUtemp : StackM Unit := modify fun s => { s with page := none }

/-- The stores, and `*init_esp`. -/
def writeStack (argv : List CStr) : StackM Unit := do
  let t ← copyArgs argv (argvStore argv) (stringStore argv)
  storeWord ((argvStore argv + 4 * argv.length) % 2 ^ 32) 0
  when (t ≠ utemp + pgsize) (halt .assertion)
  storeWord (sub32 (argvStore argv) 4) (utemp2ustack (argvStore argv))
  storeWord (sub32 (argvStore argv) 8) argv.length
  modify fun s => { s with initEsp := utemp2ustack (sub32 (argvStore argv) 8) }

/-- `init_stack`; `ok` and `ok'` say whether there is memory for the page and for
the child's page table. -/
def initStack (argv : List CStr) (ok ok' : Bool) : StackM ℤ :=
  if sub32 (argvStore argv) 8 < utemp then pure (-eNoMem)
  else do
    let r ← allocUtemp ok
    if r < 0 then pure r
    else do
      writeStack argv
      let r ← mapStack ok'
      unmapUtemp
      pure r

/-! ### The loop -/

section Copy

variable {m m' : Mem} {s : StackSys} {a t n : ℕ} {argv : List CStr}

theorem utemp_eq : utemp = 2 ^ 22 := rfl

theorem wp_storePage {f : Mem → Mem} {Q : Unit → StackSys → Prop} {R : StackStop → StackSys → Prop}
    (hs : s.page = some m) (ha : utemp ≤ a) (hn : a + n ≤ utemp + pgsize)
    (hQ : Q () { s with page := some (f m) }) : wp (storePage a n f) Q R s := by
  unfold wp storePage
  rw [hs]
  dsimp only
  rwa [if_pos ⟨ha, hn⟩]

theorem wp_storeWord {v : ℕ} {Q : Unit → StackSys → Prop} {R : StackStop → StackSys → Prop}
    (hs : s.page = some m) (ha : utemp ≤ a) (hn : a + 4 ≤ utemp + pgsize)
    (hQ : Q () { s with page := some (wr32 m a v) }) : wp (storeWord a v) Q R s :=
  wp_storePage hs ha hn hQ

theorem storeWord_wild {v : ℕ} (hs : s.page = some m) (ha : ¬ (utemp ≤ a ∧ a + 4 ≤ utemp + pgsize)) :
    storeWord a v s = .stop .wild s := by
  unfold storeWord storePage
  rw [hs]
  exact if_neg ha

/-- From `m` to `m'` the strings were stored from `t` on, and pointers to them, as
the child sees them, from `a` on. -/
structure Copied (m m' : Mem) (argv : List CStr) (a t : ℕ) : Prop where
  ptr : ∀ i < argv.length, rd32 m' (a + 4 * i) = utemp2ustack (t + stringSize (argv.take i))
  str : ∀ i (hi : i < argv.length), strEq m' (t + stringSize (argv.take i)) (argv.get ⟨i, hi⟩).1 = true
  other : ∀ b, b < a ∨ a + 4 * argv.length ≤ b → b < t ∨ t + stringSize argv ≤ b → m' b = m b

theorem Copied.nil (m : Mem) (a t : ℕ) : Copied m m [] a t where
  ptr i hi := absurd hi (Nat.not_lt_zero i)
  str i hi := absurd hi (Nat.not_lt_zero i)
  other _ _ _ := rfl

theorem Copied.cons {str : CStr} (h : Copied (putStr (wr32 m a (utemp2ustack t)) t str.1) m' argv (a + 4)
    (t + str.1.length + 1)) (hat : a + 4 * (argv.length + 1) ≤ t) : Copied m m' (str :: argv) a t where
  ptr i hi := by
    cases i with
    | zero =>
      -- the later rounds store above the word, and so does `strcpy`
      have hlater : rd32 m' a = rd32 (wr32 m a (utemp2ustack t)) a := by
        refine rd32_congr fun b hb hb' => ?_
        rw [h.other b (.inl (by omega)) (.inl (by omega)), putStr_of_lt _ _ (by omega)]
      rw [Nat.mul_zero, Nat.add_zero, hlater, rd32_wr32]
      exact Nat.mod_mod _ _
    | succ i =>
      have := h.ptr i (Nat.lt_of_succ_lt_succ hi)
      rw [List.take_succ_cons, stringSize, show a + 4 * (i + 1) = a + 4 + 4 * i by omega, this]
      congr 1
      omega
  str i hi := by
    cases i with
    | zero =>
      have hlater : strEq m' t str.1 = strEq (putStr (wr32 m a (utemp2ustack t)) t str.1) t str.1 := by
        refine strEq_congr fun k hk => h.other _ (.inr ?_) (.inl ?_) <;> omega
      exact hlater.trans (strEq_putStr _ _ _)
    | succ i =>
      have := h.str i (Nat.lt_of_succ_lt_succ hi)
      rw [List.take_succ_cons, stringSize]
      rwa [show t + (str.1.length + 1 + stringSize (argv.take i)) =
        t + str.1.length + 1 + stringSize (argv.take i) by omega]
  other b hb hb' := by
    rw [List.length_cons] at hb
    rw [stringSize] at hb'
    rw [h.other b (by omega) (by omega)]
    rcases hb' with hb' | hb'
    · rw [putStr_of_lt _ _ hb']
      rcases hb with hb | hb
      · exact wr32_of_lt _ _ hb
      · exact wr32_of_ge _ _ (by omega)
    · rw [putStr_of_ge _ _ (by omega), wr32_of_ge _ _ (by omega)]

theorem copyArgs_copied : ∀ (argv : List CStr) {m : Mem} {s : StackSys} {a t : ℕ}, s.page = some m →
    utemp ≤ a → a + 4 * argv.length ≤ t → t + stringSize argv ≤ utemp + pgsize →
    wp (copyArgs argv a t) (fun r s' => r = t + stringSize argv ∧ ∃ m', s' = { s with page := some m' } ∧
      Copied m m' argv a t) (fun _ _ => False) s := by
  intro argv
  induction argv with
  | nil =>
    intro m s a t hs _ _ _
    refine ⟨rfl, m, ?_, .nil m a t⟩
    rw [← hs]
  | cons str argv ih =>
    intro m s a t hs ha hat ht
    rw [List.length_cons] at hat
    rw [stringSize] at ht
    have hu := utemp_eq
    unfold pgsize at ht
    rw [copyArgs, storeWord, strcpy, wp_bind]
    refine wp_storePage hs ha (by unfold pgsize; omega) ?_
    rw [wp_bind]
    refine wp_storePage rfl (by omega) (by unfold pgsize; omega) ?_
    rw [Nat.mod_eq_of_lt (by omega), Nat.mod_eq_of_lt (by omega)]
    refine (ih rfl (by omega) (by omega) (by unfold pgsize; omega)).imp ?_
    rintro r s' ⟨hr, m', hs', hc⟩
    refine ⟨?_, m', hs', hc.cons hat⟩
    rw [hr, stringSize]
    omega

end Copy

/-! ### The whole stack -/

section Stack

variable {m m' : Mem} {s : StackSys} {argv : List CStr}

/-- The bytes that the strings, the array with its null and two words take, with
the strings on a word boundary. -/
def stackNeed (argv : List CStr) : ℕ := (stringSize argv + 3) / 4 * 4 + 4 * (argv.length + 1) + 8

/-- What the child finds in its memory at `esp`. -/
structure Passed (m : Mem) (esp : ℕ) (argv : List CStr) (av : ℕ) (p : ℕ → ℕ) : Prop where
  argc : rd32 m esp = argv.length
  array : rd32 m (esp + 4) = av
  ptr : ∀ i < argv.length, rd32 m (av + 4 * i) = p i
  str : ∀ i (hi : i < argv.length), strEq m (p i) (argv.get ⟨i, hi⟩).1 = true
  null : rd32 m (av + 4 * argv.length) = 0
  /-- The two words, the array and the strings follow each other in the page. -/
  low : ustacktop - pgsize ≤ esp
  words : esp + 8 ≤ av
  above : ∀ i < argv.length, av + 4 * (argv.length + 1) ≤ p i
  apart : ∀ i j (hi : i < j) (hj : j < argv.length), p i + (argv.get ⟨i, hi.trans hj⟩).1.length + 1 ≤ p j
  high : av + 4 * (argv.length + 1) ≤ ustacktop
  top : ∀ i (hi : i < argv.length), p i + (argv.get ⟨i, hi⟩).1.length + 1 ≤ ustacktop

theorem argvStore_eq (argv : List CStr) (h : stackNeed argv ≤ utemp + pgsize) :
    stringStore argv = utemp + pgsize - stringSize argv ∧
      argvStore argv = utemp + pgsize - stackNeed argv + 8 ∧
      sub32 (argvStore argv) 8 = utemp + pgsize - stackNeed argv ∧
      sub32 (argvStore argv) 4 = utemp + pgsize - stackNeed argv + 4 := by
  have hu := utemp_eq
  unfold stackNeed pgsize at *
  have hstr : stringStore argv = utemp + 4096 - stringSize argv := by
    unfold stringStore sub32 pgsize
    omega
  have harr : argvStore argv = utemp + 4096 - stackNeed argv + 8 := by
    unfold argvStore sub32 rounddown stackNeed
    omega
  refine ⟨hstr, harr, ?_, ?_⟩
  · unfold sub32
    rw [harr]
    unfold stackNeed
    omega
  · unfold sub32
    rw [harr]
    unfold stackNeed
    omega

theorem stringSize_take_lt (argv : List CStr) : ∀ i j (_ : i < j) (hj : j ≤ argv.length),
    stringSize (argv.take i) + (argv.get ⟨i, by omega⟩).1.length + 1 ≤ stringSize (argv.take j) := by
  induction argv with
  | nil =>
    intro i j hij hj
    exact absurd (Nat.lt_of_lt_of_le hij hj) (Nat.not_lt_zero i)
  | cons str argv ih =>
    intro i j hij hj
    obtain ⟨j, rfl⟩ : ∃ k, j = k + 1 := ⟨j - 1, by omega⟩
    rw [List.take_succ_cons, stringSize]
    cases i with
    | zero =>
      show 0 + str.1.length + 1 ≤ _
      omega
    | succ i =>
      have := ih i j (by omega) (Nat.le_of_succ_le_succ hj)
      rw [List.take_succ_cons, stringSize]
      show _ + (argv.get ⟨i, _⟩).1.length + 1 ≤ _
      omega

theorem rd32_child (m : Mem) (a : ℕ) : rd32 (fun b => m (b - ustackOff)) (a + ustackOff) = rd32 m a := by
  unfold rd32
  simp only [Nat.add_right_comm a ustackOff, Nat.add_sub_cancel]

theorem strEq_child (m : Mem) (str : List UInt8) :
    ∀ a, strEq (fun b => m (b - ustackOff)) (a + ustackOff) str = strEq m a str := by
  induction str with
  | nil =>
    intro a
    rw [strEq, strEq, Nat.add_sub_cancel]
  | cons c cs ih =>
    intro a
    rw [strEq, strEq, Nat.add_sub_cancel, ← ih (a + 1), Nat.add_right_comm a]

theorem utemp2ustack_eq {a : ℕ} (h : a ≤ utemp + pgsize) : utemp2ustack a = a + ustackOff :=
  Nat.mod_eq_of_lt (Nat.lt_of_le_of_lt (Nat.add_le_add_right h _) (by decide))

theorem Copied.passed {a t : ℕ} (h : Copied m m' argv a t) (ha : utemp + 8 ≤ a)
    (hat : a + 4 * (argv.length + 1) ≤ t) (ht : t + stringSize argv = utemp + pgsize) :
    Passed (fun b => wr32 (wr32 (wr32 m' (a + 4 * argv.length) 0) (a - 4) (utemp2ustack a)) (a - 8)
      argv.length (b - ustackOff)) (a - 8 + ustackOff) argv (a + ustackOff)
      (fun i => t + stringSize (argv.take i) + ustackOff) := by
  have hu := utemp_eq
  have hoff : ustackOff = ustacktop - pgsize - utemp := rfl
  have htop : ustacktop = 955 * 2 ^ 22 - 2 * pgsize := rfl
  have hp : pgsize = 2 ^ 12 := rfl
  obtain ⟨w, hw⟩ : ∃ w, w = wr32 (wr32 (wr32 m' (a + 4 * argv.length) 0) (a - 4) (utemp2ustack a)) (a - 8)
    argv.length := ⟨_, rfl⟩
  rw [← hw]
  -- the three stores leave the array and the strings
  have hbytes : ∀ b, a ≤ b → b < a + 4 * argv.length ∨ a + 4 * argv.length + 4 ≤ b → w b = m' b := by
    intro b hb hb'
    rw [hw, wr32_of_ge _ _ (by omega), wr32_of_ge _ _ (by omega)]
    rcases hb' with hb' | hb'
    · exact wr32_of_lt _ _ hb'
    · exact wr32_of_ge _ _ hb'
  have hsize : ∀ i (hi : i < argv.length),
      stringSize (argv.take i) + (argv.get ⟨i, hi⟩).1.length + 1 ≤ stringSize argv := by
    intro i hi
    have := stringSize_take_lt argv i argv.length hi (Nat.le_refl _)
    rwa [List.take_length] at this
  constructor
  case argc =>
    rw [rd32_child, hw, rd32_wr32]
    omega
  case array =>
    rw [show a - 8 + ustackOff + 4 = a - 4 + ustackOff by omega, rd32_child, hw,
      rd32_wr32_of_disjoint _ _ (by omega), rd32_wr32, utemp2ustack_eq (by omega)]
    omega
  case ptr =>
    intro i hi
    have hle := hsize i hi
    rw [show a + ustackOff + 4 * i = a + 4 * i + ustackOff by omega, rd32_child,
      rd32_congr fun b hb hb' => hbytes b (by omega) (by omega), h.ptr i hi, utemp2ustack_eq (by omega)]
  case str =>
    intro i hi
    rw [strEq_child, ← h.str i hi]
    exact strEq_congr fun k hk => hbytes _ (by omega) (by omega)
  case null =>
    rw [show a + ustackOff + 4 * argv.length = a + 4 * argv.length + ustackOff by omega, rd32_child, hw,
      rd32_wr32_of_disjoint _ _ (by omega), rd32_wr32_of_disjoint _ _ (by omega), rd32_wr32, Nat.zero_mod]
  case low => omega
  case words => omega
  case above =>
    intro i hi
    show _ ≤ t + stringSize (argv.take i) + ustackOff
    omega
  case apart =>
    intro i j hi hj
    have := stringSize_take_lt argv i j hi (Nat.le_of_lt hj)
    show t + stringSize (argv.take i) + ustackOff + _ + 1 ≤ t + stringSize (argv.take j) + ustackOff
    omega
  case high => omega
  case top =>
    intro i hi
    have := hsize i hi
    show t + stringSize (argv.take i) + ustackOff + _ + 1 ≤ _
    omega

theorem wp_writeStack (hs : s.page = some m) (h : stackNeed argv ≤ pgsize) :
    wp (writeStack argv) (fun _ s' => s'.child = s.child ∧ ∃ w av p, s'.page = some w ∧
      Passed (fun b => w (b - ustackOff)) s'.initEsp argv av p) (fun _ _ => False) s := by
  have hu := utemp_eq
  have hp : pgsize = 2 ^ 12 := rfl
  obtain ⟨hstr, harr, hesp, hptr⟩ := argvStore_eq argv (by omega)
  have hneed : stackNeed argv = (stringSize argv + 3) / 4 * 4 + 4 * (argv.length + 1) + 8 := rfl
  rw [writeStack]
  refine (copyArgs_copied argv hs (by omega) (by omega) (by omega)).bind ?_
  rintro t s' ⟨rfl, m', rfl, hc⟩
  rw [wp_bind, Nat.mod_eq_of_lt (by omega)]
  refine wp_storeWord rfl (by omega) (by omega) ?_
  rw [wp_bind, wp_when]
  refine ⟨fun hne => absurd (by omega) hne, fun _ => ?_⟩
  rw [wp_bind]
  refine wp_storeWord rfl (by omega) (by omega) ?_
  rw [wp_bind]
  refine wp_storeWord rfl (by omega) (by omega) ?_
  rw [wp_modify]
  have hpass := hc.passed (by omega) (by omega) (by omega)
  rw [show argvStore argv - 8 = sub32 (argvStore argv) 8 by omega,
    show argvStore argv - 4 = sub32 (argvStore argv) 4 by omega,
    ← utemp2ustack_eq (by omega)] at hpass
  exact ⟨rfl, _, _, _, rfl, hpass⟩

theorem allocUtemp_ok (s : StackSys) : allocUtemp true s = .ret 0 { s with page := some fun _ => 0 } := rfl

theorem mapStack_ok (s : StackSys) :
    mapStack true s = .ret 0 { s with child := s.page.map fun m a => m (a - ustackOff) } := rfl

theorem initStack_fits (h : stackNeed argv ≤ pgsize) :
    wp (initStack argv true true) (fun r s' => r = 0 ∧ s'.page = none ∧
      ∃ m av p, s'.child = some m ∧ Passed m s'.initEsp argv av p) (fun _ _ => False) s := by
  have hesp := (argvStore_eq argv (h.trans (Nat.le_add_left _ _))).2.2.1
  unfold initStack
  rw [if_neg (by omega), wp_bind, wp_of_ret (allocUtemp_ok s), if_neg (Int.lt_irrefl 0)]
  refine (wp_writeStack rfl h).bind ?_
  rintro _ s' ⟨_, w, av, p, hw, hpass⟩
  rw [wp_bind_of_ret (mapStack_ok s'), hw]
  exact ⟨rfl, rfl, _, av, p, rfl, hpass⟩

/-- If the program returns, it returns the same from a state with the same page at
`UTEMP`, and leaves the same page there. -/
def OfPage {α : Type} (p : StackM α) : Prop := ∀ s₁ s₂, s₁.page = s₂.page →
  wp p (fun a t₁ => ∃ t₂, p s₂ = .ret a t₂ ∧ t₁.page = t₂.page) (fun _ _ => True) s₁

theorem OfPage.bind {α β : Type} {p : StackM α} {f : α → StackM β} (hp : OfPage p)
    (hf : ∀ a, OfPage (f a)) : OfPage (p >>= f) := by
  intro s₁ s₂ hpage
  rw [wp_bind]
  refine (hp s₁ s₂ hpage).imp fun a u₁ ⟨u₂, hrun, hu⟩ => (hf a u₁ u₂ hu).imp fun b t₁ ⟨t₂, hrun', ht⟩ => ?_
  exact ⟨t₂, (ret_bind hrun).trans hrun', ht⟩

theorem storePage_ofPage (a n : ℕ) (f : Mem → Mem) : OfPage (storePage a n f) := by
  intro s₁ s₂ hpage
  unfold wp storePage
  rw [← hpage]
  cases s₁.page with
  | none => trivial
  | some m =>
    dsimp only
    by_cases hc : utemp ≤ a ∧ a + n ≤ utemp + pgsize
    · rw [if_pos hc, if_pos hc]
      exact ⟨_, rfl, rfl⟩
    · rw [if_neg hc]
      trivial

theorem copyArgs_ofPage : ∀ (argv : List CStr) (a t : ℕ), OfPage (copyArgs argv a t)
  | [], _, _ => fun _ s₂ hpage => ⟨s₂, rfl, hpage⟩
  | _ :: argv, _, _ => .bind (storePage_ofPage _ _ _) fun _ => .bind (storePage_ofPage _ _ _) fun _ =>
    copyArgs_ofPage argv _ _

theorem writeStack_ofPage (argv : List CStr) : OfPage (writeStack argv) := by
  refine .bind (copyArgs_ofPage _ _ _) fun t => .bind (storePage_ofPage _ _ _) fun _ => .bind ?_ fun _ =>
    .bind (storePage_ofPage _ _ _) fun _ => .bind (storePage_ofPage _ _ _) fun _ s₁ s₂ hpage => ⟨_, rfl, hpage⟩
  intro s₁ s₂ hpage
  rw [wp_when]
  refine ⟨fun _ => trivial, fun hc => ⟨s₂, ?_, hpage⟩⟩
  rw [when, if_neg hc]
  rfl

theorem initStack_child (argv : List CStr) (ok ok' : Bool) (s₁ s₂ : StackSys) :
    wp (initStack argv ok ok') (fun r t₁ => ∃ t₂, initStack argv ok ok' s₂ = .ret r t₂ ∧
      (0 ≤ r → t₁.child = t₂.child)) (fun _ _ => True) s₁ := by
  unfold initStack
  by_cases hroom : sub32 (argvStore argv) 8 < utemp
  · rw [if_pos hroom]
    exact ⟨s₂, rfl, fun h => absurd h (by decide)⟩
  rw [if_neg hroom]
  cases ok with
  | false => exact ⟨s₂, rfl, fun h => absurd h (by decide)⟩
  | true =>
    rw [wp_bind_of_ret (allocUtemp_ok s₁), ret_bind (allocUtemp_ok s₂), if_neg (Int.lt_irrefl 0), wp_bind]
    refine (writeStack_ofPage argv { s₁ with page := some fun _ => 0 }
      { s₂ with page := some fun _ => 0 } rfl).imp fun _ u₁ ⟨u₂, hrun, hu⟩ => ?_
    rw [ret_bind hrun]
    cases ok' with
    | false => exact ⟨_, rfl, fun h => absurd h (by decide)⟩
    | true =>
      refine ⟨_, rfl, fun _ => ?_⟩
      show u₁.page.map _ = u₂.page.map _
      rw [hu]

theorem initEsp_eq (argv : List CStr) :
    sub32 (argvStore argv) 8 = sub32 (utemp + pgsize) (stackNeed argv) := by
  have hu := utemp_eq
  have hp : pgsize = 2 ^ 12 := rfl
  unfold argvStore stringStore stackNeed sub32 rounddown
  omega

/-- The arguments fit in the page, or the test for the room fails. -/
def RoomTested (argv : List CStr) : Prop :=
  stackNeed argv ≤ pgsize ∨ sub32 (utemp + pgsize) (stackNeed argv) < utemp
  deriving Decidable

/-- The arguments are refused when they do not fit in the page, with nothing
written, and otherwise passed, exactly when the test for the room sees those that
do not fit: not when what they need wraps below address 0 and leads back above
`UTEMP`. -/
theorem init_stack_lossless (argv : List CStr) (s : StackSys) : RoomTested argv ↔
    wp (initStack argv true true) (fun r s' =>
      (pgsize < stackNeed argv ∧ r = -eNoMem ∧ s' = s) ∨
      (stackNeed argv ≤ pgsize ∧ r = 0 ∧ s'.page = none ∧
        ∃ m av p, s'.child = some m ∧ Passed m s'.initEsp argv av p)) (fun _ _ => False) s := by
  constructor
  · intro h
    by_cases hfit : stackNeed argv ≤ pgsize
    · exact (initStack_fits hfit).imp fun _ _ h => .inr ⟨hfit, h⟩
    · unfold initStack
      rw [if_pos (by rw [initEsp_eq]; exact h.resolve_left hfit), wp_pure]
      exact .inl ⟨by omega, rfl, rfl⟩
  · intro h
    by_contra hno
    obtain ⟨hfit, htest⟩ := not_or.mp hno
    -- a call that passes the test does not return `-E_NO_MEM`
    have hzero : wp (initStack argv true true) (fun r _ => r = 0) (fun _ _ => True) s := by
      unfold initStack
      rw [initEsp_eq, if_neg htest, wp_bind_of_ret (allocUtemp_ok s), if_neg (Int.lt_irrefl 0), wp_bind]
      refine (wp_trivial _ _).imp fun _ s' _ => ?_
      rw [wp_bind_of_ret (mapStack_ok s')]
      exact rfl
    obtain ⟨r, s', hrun, hr⟩ := h.exists_ret
    rcases hr with ⟨-, hr, -⟩ | ⟨hle, -⟩
    · exact absurd ((hzero.ret hrun).symm.trans hr) (by decide)
    · exact hfit hle

theorem initStack_wild (h : utemp + pgsize < stackNeed argv) (h' : stackNeed argv ≤ 2 ^ 32)
    (s : StackSys) : ∃ s', initStack argv true true s = .stop .wild s' := by
  have hu := utemp_eq
  have hp : pgsize = 2 ^ 12 := rfl
  have hneed : stackNeed argv = (stringSize argv + 3) / 4 * 4 + 4 * (argv.length + 1) + 8 := rfl
  have hstr : stringStore argv = (utemp + pgsize + 2 ^ 32 - stringSize argv) % 2 ^ 32 := by
    unfold stringStore sub32
    omega
  have harr : argvStore argv = (utemp + pgsize + 2 ^ 32 - stackNeed argv + 8) % 2 ^ 32 := by
    unfold argvStore sub32 rounddown
    omega
  have hesp : sub32 (argvStore argv) 8 = utemp + pgsize + 2 ^ 32 - stackNeed argv := by
    unfold sub32
    omega
  cases argv with
  | nil => exact absurd h (by decide)
  | cons str argv =>
    refine ⟨{ s with page := some fun _ => 0 }, ?_⟩
    have hstore : storeWord (argvStore (str :: argv)) (utemp2ustack (stringStore (str :: argv)))
        { s with page := some fun _ => 0 } = .stop .wild { s with page := some fun _ => 0 } :=
      storeWord_wild rfl (by omega)
    have hwrite : writeStack (str :: argv) { s with page := some fun _ => 0 } =
        .stop .wild { s with page := some fun _ => 0 } := by
      rw [writeStack, copyArgs]
      exact stop_bind (stop_bind hstore)
    unfold initStack
    rw [if_neg (by omega)]
    rw [ret_bind (allocUtemp_ok s), if_neg (Int.lt_irrefl 0)]
    exact stop_bind hwrite

end Stack

namespace Demo

def letters (n : ℕ) : CStr := ⟨List.replicate n 97, fun h => absurd (List.eq_of_mem_replicate h) (by decide)⟩

def noStack : StackSys := ⟨none, none, 0⟩

theorem stackNeed_letters (n : ℕ) : stackNeed [letters n] = (n + 4) / 4 * 4 + 16 := by
  have hlen : (letters n).1.length = n := List.length_replicate
  show ((letters n).1.length + 1 + 0 + 3) / 4 * 4 + 4 * (1 + 1) + 8 = _
  rw [hlen]

end Demo

open Demo

/-- Two arguments. -/
theorem init_stack_lossless_two : wp (initStack [letters 3, letters 5] true true) (fun r s' =>
    r = 0 ∧ ∃ m av p, s'.child = some m ∧ Passed m s'.initEsp [letters 3, letters 5] av p)
    (fun _ _ => False) noStack :=
  ((init_stack_lossless _ _).mp (by decide)).imp fun _ _ h =>
    (h.resolve_left fun hbig => absurd hbig.1 (by decide)).2.imp_right And.right

/-- One argument of `UTEMP + PGSIZE - 1` bytes: with its zero byte it starts at
address 0, and the array below it at the end of the address space, so that the
test for the room passes and the first store leaves the page. -/
theorem init_stack_wraps : pgsize < stackNeed [letters (utemp + pgsize - 1)] ∧
    ∃ s, initStack [letters (utemp + pgsize - 1)] true true noStack = .stop .wild s := by
  have hneed := stackNeed_letters (utemp + pgsize - 1)
  have hu := utemp_eq
  have hp : pgsize = 2 ^ 12 := rfl
  exact ⟨by omega, initStack_wild (by omega) (by omega) noStack⟩

end Jos
