/-
Memory as a function from addresses to bytes, with little-endian words in it.

* `rd32`, `wr32` — the four bytes at an address, read and written;
* `rd32_wr32`, `wr32_of_lt`, `wr32_of_ge` — a word reads back, and the bytes
  beside it stay;
* `putWords` — several words, each at its offset from one address;
* `bytesAt`, `fill` — a range of bytes, read and written;
* `strEq`, `putStr` — strings that end with a zero byte;
* `strEq_putStr`, `strEq_unique` — a string reads back, and is the only one there.
-/
import Mathlib.Algebra.Group.Nat.Defs
import Mathlib.Tactic.Common

namespace Bytes

abbrev Mem := ℕ → UInt8

variable {m m' : Mem} {a b v : ℕ}

def rd32 (m : Mem) (a : ℕ) : ℕ :=
  (m a).toNat + 2 ^ 8 * (m (a + 1)).toNat + 2 ^ 16 * (m (a + 2)).toNat + 2 ^ 24 * (m (a + 3)).toNat

/-- Store the word `v` at `a`. -/
def wr32 (m : Mem) (a v : ℕ) : Mem := fun b =>
  if a ≤ b ∧ b < a + 4 then UInt8.ofNat (v / 2 ^ (8 * (b - a))) else m b

theorem rd32_lt (m : Mem) (a : ℕ) : rd32 m a < 2 ^ 32 := by
  have h0 := (m a).toNat_lt
  have h1 := (m (a + 1)).toNat_lt
  have h2 := (m (a + 2)).toNat_lt
  have h3 := (m (a + 3)).toNat_lt
  unfold rd32
  omega

theorem rd32_congr (h : ∀ b, a ≤ b → b < a + 4 → m b = m' b) : rd32 m a = rd32 m' a := by
  unfold rd32
  rw [h a (by omega) (by omega), h (a + 1) (by omega) (by omega), h (a + 2) (by omega) (by omega),
    h (a + 3) (by omega) (by omega)]

theorem wr32_of_lt (m : Mem) (v : ℕ) (h : b < a) : wr32 m a v b = m b := if_neg (by omega)

theorem wr32_of_ge (m : Mem) (v : ℕ) (h : a + 4 ≤ b) : wr32 m a v b = m b := if_neg (by omega)

theorem wr32_byte (m : Mem) (a v : ℕ) {k : ℕ} (hk : k < 4) :
    (wr32 m a v (a + k)).toNat = v / 2 ^ (8 * k) % 2 ^ 8 := by
  rw [wr32, if_pos (by omega), UInt8.toNat_ofNat', Nat.add_sub_cancel_left]

theorem rd32_wr32 (m : Mem) (a v : ℕ) : rd32 (wr32 m a v) a = v % 2 ^ 32 := by
  have h0 := wr32_byte m a v (k := 0) (by omega)
  have h1 := wr32_byte m a v (k := 1) (by omega)
  have h2 := wr32_byte m a v (k := 2) (by omega)
  have h3 := wr32_byte m a v (k := 3) (by omega)
  rw [Nat.add_zero] at h0
  rw [rd32, h0, h1, h2, h3]
  omega

theorem rd32_wr32_of_disjoint (m : Mem) (v : ℕ) (h : b + 4 ≤ a ∨ a + 4 ≤ b) :
    rd32 (wr32 m a v) b = rd32 m b := by
  refine rd32_congr fun c hc hc' => ?_
  rcases h with h | h
  · exact wr32_of_lt m v (by omega)
  · exact wr32_of_ge m v (by omega)

theorem wr32_wr32 (m : Mem) (a v w : ℕ) : wr32 (wr32 m a v) a w = wr32 m a w := by
  funext b
  unfold wr32
  split <;> rfl

theorem wr32_rd32 (m : Mem) (a : ℕ) : wr32 m a (rd32 m a) = m := by
  funext b
  unfold wr32
  split
  case isFalse => rfl
  case isTrue h =>
    obtain ⟨k, rfl⟩ := Nat.exists_eq_add_of_le h.1
    have hk : k < 4 := by omega
    have h0 := (m a).toNat_lt
    have h1 := (m (a + 1)).toNat_lt
    have h2 := (m (a + 2)).toNat_lt
    have h3 := (m (a + 3)).toNat_lt
    rw [Nat.add_sub_cancel_left]
    refine UInt8.toNat_inj.mp ?_
    rw [UInt8.toNat_ofNat', rd32]
    match k, hk with
    | 0, _ =>
      show _ = (m a).toNat
      omega
    | 1, _ | 2, _ | 3, _ => omega

/-! ### Words at offsets -/

/-- Store each value of `ws` at its offset from `a`, in turn. -/
def putWords (m : Mem) (a : ℕ) (ws : List (ℕ × ℕ)) : Mem :=
  ws.foldl (fun m w => wr32 m (a + w.1) w.2) m

theorem putWords_outside {ws : List (ℕ × ℕ)} :
    ∀ {m : Mem}, (∀ w ∈ ws, b < a + w.1 ∨ a + w.1 + 4 ≤ b) → putWords m a ws b = m b := by
  induction ws with
  | nil =>
    intro m _
    rfl
  | cons w ws ih =>
    intro m h
    have hrest := ih (m := wr32 m (a + w.1) w.2) fun w' hw' => h w' (List.mem_cons_of_mem _ hw')
    refine Eq.trans hrest ?_
    rcases h w List.mem_cons_self with hb | hb
    · exact wr32_of_lt m _ hb
    · exact wr32_of_ge m _ hb

theorem rd32_putWords {ws : List (ℕ × ℕ)} {w : ℕ × ℕ} : ∀ {m : Mem},
    ws.Pairwise (fun w w' => w.1 + 4 ≤ w'.1 ∨ w'.1 + 4 ≤ w.1) → w ∈ ws →
      rd32 (putWords m a ws) (a + w.1) = w.2 % 2 ^ 32 := by
  induction ws with
  | nil => exact fun _ hw => absurd hw List.not_mem_nil
  | cons v ws ih =>
    intro m hp hw
    obtain ⟨hfirst, hrest⟩ := List.pairwise_cons.mp hp
    rcases List.mem_cons.mp hw with rfl | hw
    · -- the later words miss the first one
      refine Eq.trans (rd32_congr fun b hb hb' => ?_) (rd32_wr32 m (a + w.1) w.2)
      refine putWords_outside (m := wr32 m (a + w.1) w.2) fun w' hw' => ?_
      have := hfirst w' hw'
      omega
    · exact ih (m := wr32 m (a + v.1) v.2) hrest hw

/-! ### Ranges -/

def bytesAt (m : Mem) (a n : ℕ) : List UInt8 := (List.range n).map fun k => m (a + k)

/-- Store `buf 0`, `buf 1` and so on in the `n` bytes from `a` on. -/
def fill (m : Mem) (a n : ℕ) (buf : ℕ → UInt8) : Mem := fun b =>
  if a ≤ b ∧ b < a + n then buf (b - a) else m b

/-! ### Strings -/

def strEq (m : Mem) (a : ℕ) : List UInt8 → Bool
  | [] => m a == 0
  | c :: cs => m a == c && strEq m (a + 1) cs

/-- Store `str` and a zero byte at `a`. -/
def putStr (m : Mem) (a : ℕ) (str : List UInt8) : Mem :=
  fill m a (str.length + 1) fun k => str.getD k 0

theorem strEq_of_bytes : ∀ {str : List UInt8} {a : ℕ}, (∀ k ≤ str.length, m (a + k) = str.getD k 0) →
    strEq m a str = true := by
  intro str
  induction str with
  | nil =>
    intro a h
    exact beq_iff_eq.mpr (h 0 (Nat.le_refl _))
  | cons c cs ih =>
    intro a h
    rw [strEq, Bool.and_eq_true]
    refine ⟨beq_iff_eq.mpr (h 0 (Nat.zero_le _)), ih fun k hk => ?_⟩
    have hnext := h (k + 1) (Nat.succ_le_succ hk)
    rwa [List.getD_cons_succ, show a + (k + 1) = a + 1 + k by omega] at hnext

theorem strEq_putStr (m : Mem) (a : ℕ) (str : List UInt8) : strEq (putStr m a str) a str = true := by
  refine strEq_of_bytes fun k hk => ?_
  rw [putStr, fill, if_pos (by omega), Nat.add_sub_cancel_left]

theorem putStr_of_lt (m : Mem) (str : List UInt8) (h : b < a) : putStr m a str b = m b :=
  if_neg (by omega)

theorem putStr_of_ge (m : Mem) (str : List UInt8) (h : a + str.length + 1 ≤ b) : putStr m a str b = m b :=
  if_neg (by omega)

theorem strEq_congr : ∀ {name : List UInt8} {a : ℕ},
    (∀ k ≤ name.length, m' (a + k) = m (a + k)) → strEq m' a name = strEq m a name := by
  intro name
  induction name with
  | nil =>
    intro a h
    rw [strEq, strEq, show m' a = m a from h 0 (Nat.le_refl _)]
  | cons c cs ih =>
    intro a h
    rw [strEq, strEq, show m' a = m a from h 0 (Nat.zero_le _), ih fun k hk => ?_]
    have := h (k + 1) (Nat.succ_le_succ hk)
    rwa [show a + 1 + k = a + (k + 1) by omega]

theorem strEq_unique : ∀ {name name' : List UInt8} {a : ℕ}, 0 ∉ name → 0 ∉ name' →
    strEq m a name = true → strEq m a name' = true → name = name' := by
  intro name
  induction name with
  | nil =>
    intro name' a _ hz' h h'
    cases name' with
    | nil => rfl
    | cons c cs =>
      rw [strEq, beq_iff_eq] at h
      rw [strEq, Bool.and_eq_true, beq_iff_eq] at h'
      exact absurd (List.mem_cons.mpr (.inl (h.symm.trans h'.1))) hz'
  | cons c cs ih =>
    intro name' a hz hz' h h'
    rw [strEq, Bool.and_eq_true, beq_iff_eq] at h
    cases name' with
    | nil =>
      rw [strEq, beq_iff_eq] at h'
      exact absurd (List.mem_cons.mpr (.inl (h'.symm.trans h.1))) hz
    | cons c' cs' =>
      rw [strEq, Bool.and_eq_true, beq_iff_eq] at h'
      rw [h.1.symm.trans h'.1, ih (fun hc => hz (List.mem_cons_of_mem _ hc))
        (fun hc => hz' (List.mem_cons_of_mem _ hc)) h.2 h'.2]

end Bytes
