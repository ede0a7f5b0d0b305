/-
`memmove` and `memset` of lib/string.c with `ASM`: string instructions on words
or bytes, upwards or downwards.  Addresses are natural numbers: the ranges do not
wrap.
-/
import Jos.Kern.Layout

namespace Jos

namespace Str

abbrev Mem := ℕ → UInt8

/-- One `movs` of `w` bytes. -/
def movs (w : ℕ) (m : Mem) (edi esi : ℕ) : Mem := fun a =>
  if edi ≤ a ∧ a < edi + w then m (esi + (a - edi)) else m a

/-- `cld; rep movs`. -/
def repMovs (w : ℕ) : ℕ → ℕ → ℕ → Mem → Mem
  | 0, _, _, m => m
  | ecx + 1, edi, esi, m => repMovs w ecx (edi + w) (esi + w) (movs w m edi esi)

def stdRepMovs (w : ℕ) : ℕ → ℕ → ℕ → Mem → Mem
  | 0, _, _, m => m
  | ecx + 1, edi, esi, m => stdRepMovs w ecx (edi - w) (esi - w) (movs w m edi esi)

/-- `cld; rep stos` of the `w` low bytes of `eax`. -/
def repStos (w eax : ℕ) : ℕ → ℕ → Mem → Mem
  | 0, _, m => m
  | ecx + 1, edi, m => repStos w eax ecx (edi + w) fun a =>
    if edi ≤ a ∧ a < edi + w then .ofNat (eax >>> (8 * (a - edi))) else m a

def memmove (m : Mem) (dst src n : ℕ) : Mem :=
  if src < dst ∧ src + n > dst then
    let s := src + n
    let d := dst + n
    if s % 4 = 0 ∧ d % 4 = 0 ∧ n % 4 = 0 then stdRepMovs 4 (n / 4) (d - 4) (s - 4) m
    else stdRepMovs 1 n (d - 1) (s - 1) m
  else
    if src % 4 = 0 ∧ dst % 4 = 0 ∧ n % 4 = 0 then repMovs 4 (n / 4) dst src m
    else repMovs 1 n dst src m

def memset (m : Mem) (v c n : ℕ) : Mem :=
  if n = 0 then m
  else if v % 4 = 0 ∧ n % 4 = 0 then
    let c := c &&& 0xff
    repStos 4 (c <<< 24 ||| c <<< 16 ||| c <<< 8 ||| c) (n / 4) v m
  else repStos 1 c n v m

/-! ### The string instructions -/

variable {w edi esi : ℕ} {m : Mem}

theorem repMovs_eq {ecx : ℕ} (h : edi = esi ∨ edi + w ≤ esi ∨ esi + w * ecx ≤ edi) :
    repMovs w ecx edi esi m = movs (w * ecx) m edi esi := by
  induction ecx generalizing edi esi m with
  | zero =>
    funext a
    rw [movs, if_neg (by omega)]
    rfl
  | succ k ih =>
    rw [Nat.mul_succ] at h ⊢
    rw [repMovs, ih (by omega)]
    funext a
    unfold movs
    by_cases ha : edi + w ≤ a ∧ a < edi + w + w * k
    · -- The source of this byte is outside the unit just written.
      rw [if_pos ha, if_neg (by omega), if_pos (by omega)]
      congr 1
      omega
    · rw [if_neg ha]
      split
      · rw [if_pos (by omega)]
      · rw [if_neg (by omega)]

theorem stdRepMovs_eq (ecx : ℕ) (h : esi + w ≤ edi) :
    stdRepMovs w ecx (edi + w * ecx - w) (esi + w * ecx - w) m = movs (w * ecx) m edi esi := by
  induction ecx generalizing m with
  | zero =>
    funext a
    rw [movs, if_neg (by omega)]
    rfl
  | succ k ih =>
    rw [Nat.mul_succ, ← Nat.add_assoc, ← Nat.add_assoc, Nat.add_sub_cancel, Nat.add_sub_cancel, stdRepMovs, ih]
    funext a
    unfold movs
    by_cases ha : edi ≤ a ∧ a < edi + w * k
    · rw [if_pos ha, if_neg (by omega), if_pos (by omega)]
    · rw [if_neg ha]
      split
      · rw [if_pos (by omega)]
        congr 1
        omega
      · rw [if_neg (by omega)]

theorem repStos_eq {eax ecx : ℕ} {b : UInt8} (h : ∀ k < w, UInt8.ofNat (eax >>> (8 * k)) = b) :
    repStos w eax ecx edi m = fun a => if edi ≤ a ∧ a < edi + w * ecx then b else m a := by
  induction ecx generalizing edi m with
  | zero =>
    funext a
    rw [if_neg (by omega)]
    rfl
  | succ k ih =>
    rw [Nat.mul_succ, repStos, ih]
    funext a
    by_cases ha : edi ≤ a ∧ a < edi + w
    · rw [if_pos ha, h (a - edi) (by omega), ite_self, if_pos (by omega)]
    · rw [if_neg ha]
      split
      · rw [if_pos (by omega)]
      · rw [if_neg (by omega)]

theorem stosl_byte : ∀ c < 256, ∀ k < 4,
    UInt8.ofNat ((c <<< 24 ||| c <<< 16 ||| c <<< 8 ||| c) >>> (8 * k)) = .ofNat c := by
  decide +kernel

theorem memmove_eq (dst src n : ℕ) : memmove m dst src n = movs n m dst src := by
  unfold memmove
  split
  · next h =>
    dsimp only
    split
    · next h4 =>
      -- Aligned ends and an aligned length: the ranges are at least a word apart.
      have hn : 4 * (n / 4) = n := Nat.mul_div_cancel' (Nat.dvd_of_mod_eq_zero h4.2.2)
      have hstd := stdRepMovs_eq (m := m) (n / 4) (show src + 4 ≤ dst by omega)
      rwa [hn] at hstd
    · have hstd := stdRepMovs_eq (m := m) n (show src + 1 ≤ dst by omega)
      rwa [Nat.one_mul] at hstd
  · split
    · next h4 =>
      have hn : 4 * (n / 4) = n := Nat.mul_div_cancel' (Nat.dvd_of_mod_eq_zero h4.2.2)
      rw [repMovs_eq (by omega), hn]
    · rw [repMovs_eq (by omega), Nat.one_mul]

theorem memset_eq (v c n : ℕ) : memset m v c n = fun a => if v ≤ a ∧ a < v + n then .ofNat c else m a := by
  unfold memset
  split
  · next h =>
    funext a
    rw [if_neg (by omega)]
  · split
    · next h4 =>
      have hc : UInt8.ofNat (c &&& 0xff) = .ofNat c := by
        rw [show 0xff = 2 ^ 8 - 1 from rfl, Nat.and_two_pow_sub_one_eq_mod]
        exact UInt8.ofNat_mod_size
      have hlt : c &&& 0xff < 256 := Nat.lt_succ_of_le Nat.and_le_right
      have hn : 4 * (n / 4) = n := Nat.mul_div_cancel' (Nat.dvd_of_mod_eq_zero h4.2)
      dsimp only
      rw [repStos_eq (stosl_byte _ hlt), hn, hc]
    · rw [repStos_eq (b := .ofNat c) fun k hk => by rw [Nat.lt_one_iff.mp hk]; rfl, Nat.one_mul]

/-- The destination is what the source was, however the ranges overlap, `memset`
fills its range with the low byte of `c`, and neither writes anything else. -/
theorem memmove_memset (m : Mem) (dst src n v c : ℕ) :
    (∀ i < n, memmove m dst src n (dst + i) = m (src + i)) ∧
    (∀ a, ¬ (dst ≤ a ∧ a < dst + n) → memmove m dst src n a = m a) ∧
    (∀ i < n, memset m v c n (v + i) = .ofNat (c % 256)) ∧
    ∀ a, ¬ (v ≤ a ∧ a < v + n) → memset m v c n a = m a := by
  rw [memmove_eq, memset_eq]
  refine ⟨fun i hi => ?_, fun a ha => if_neg ha, fun i hi => ?_, fun a ha => if_neg ha⟩
  · rw [movs, if_pos (by omega), Nat.add_sub_cancel_left]
  · dsimp only
    rw [if_pos (by omega)]
    exact UInt8.ofNat_mod_size.symm

end Str

end Jos
