/-
Numbers in `vprintfmt`: `printnum` and the conversions `%d`, `%u`, `%x` and
`%p` of lib/printfmt.c.

* `printnum_positional` — which is the padding asked for, for exactly the widths
  from which the number of digits can be subtracted;
* `printnum_width_wraps` — the most negative width.
-/
import Jos.Kern.Layout
import Mathlib.Data.Nat.Digits.Lemmas

namespace Jos

/-- `"0123456789abcdef"[d]`, for bases up to 16. -/
def digitChar (d : ℕ) : UInt8 := .ofNat (if d < 10 then 48 + d else 87 + d)

/-- The value of `--width`. -/
def decWidth (width : ℤ) : ℤ := Int.bmod (width - 1) (2 ^ 32)

/-- `printnum`: what it gives to `putch`.  The loop puts a pad character for each
of the values `--width`, ..., 1. -/
def printnum (num base : ℕ) (hb : 2 ≤ base) (width : ℤ) (padc : UInt8) : List UInt8 :=
  (if _h : base ≤ num then printnum (num / base) base hb (decWidth width) padc
    else List.replicate (decWidth width).toNat padc) ++ [digitChar (num % base)]
termination_by num
decreasing_by exact Nat.div_lt_self (by omega) hb

/-- `getuint`; `lo` and `hi` are the next two words of the arguments. -/
def getuint (lflag lo hi : ℕ) : ℕ := if 2 ≤ lflag then lo + 2 ^ 32 * hi else lo

/-- `getint`, as an `unsigned long long`. -/
def getint (lflag lo hi : ℕ) : ℕ :=
  if 2 ≤ lflag then lo + 2 ^ 32 * hi else if lo < 2 ^ 31 then lo else lo + (2 ^ 64 - 2 ^ 32)

inductive NumConv where
  | d
  | u
  | x
  | p

/-- The numbers of `vprintfmt`. -/
def NumConv.print (lflag lo hi : ℕ) (width : ℤ) (padc : UInt8) : NumConv → List UInt8
  | .d =>
    let num := getint lflag lo hi
    if 2 ^ 63 ≤ num then 45 :: printnum ((2 ^ 64 - num) % 2 ^ 64) 10 (by decide) width padc
    else printnum num 10 (by decide) width padc
  | .u => printnum (getuint lflag lo hi) 10 (by decide) width padc
  | .x => printnum (getuint lflag lo hi) 16 (by decide) width padc
  | .p => 48 :: 120 :: printnum lo 16 (by decide) width padc

/-! ### Positional notation -/

/-- The digits of a number, first one first; one digit for 0. -/
def digitsOf (base num : ℕ) : List ℕ := if num = 0 then [0] else (Nat.digits base num).reverse

/-- The number that digits stand for. -/
def readDigits (base : ℕ) (ds : List ℕ) : ℕ := ds.foldl (fun n d => n * base + d) 0

/-- What is printed before the digits. -/
def NumConv.before (v : ℤ) : NumConv → List UInt8
  | .d => if v < 0 then [45] else []
  | .p => [48, 120]
  | _ => []

def NumConv.base : NumConv → ℕ
  | .d | .u => 10
  | .x | .p => 16

theorem NumConv.two_le_base (k : NumConv) : 2 ≤ k.base := by cases k <;> decide

/-- The value of the argument: `int` or `long long` for `%d`, unsigned for the
others. -/
def NumConv.value (lflag lo hi : ℕ) : NumConv → ℤ
  | .d => if 2 ≤ lflag then Int.bmod (lo + 2 ^ 32 * hi) (2 ^ 64) else Int.bmod lo (2 ^ 32)
  | .p => lo
  | _ => (if 2 ≤ lflag then lo + 2 ^ 32 * hi else lo : ℕ)

section

variable {num base : ℕ} {width : ℤ} {padc : UInt8}

theorem digitsOf_step (hb : 2 ≤ base) (h : base ≤ num) :
    digitsOf base num = digitsOf base (num / base) ++ [num % base] := by
  have hdiv : num / base ≠ 0 := (Nat.div_pos h (by omega)).ne'
  rw [digitsOf, digitsOf, if_neg (by omega), if_neg hdiv, Nat.digits_def' hb (by omega), List.reverse_cons]

theorem digitsOf_lt (h : num < base) : digitsOf base num = [num] := by
  unfold digitsOf
  split
  · next h0 => rw [h0]
  · next h0 => rw [Nat.digits_of_lt base num h0 h, List.reverse_singleton]

theorem readDigits_digitsOf (hb : 2 ≤ base) : readDigits base (digitsOf base num) = num := by
  induction num using Nat.strongRecOn with
  | ind num ih =>
    rcases Nat.lt_or_ge num base with h | h
    · rw [digitsOf_lt h]
      simp [readDigits]
    · rw [digitsOf_step hb h, readDigits, List.foldl_append]
      show readDigits base (digitsOf base (num / base)) * base + num % base = num
      rw [ih _ (Nat.div_lt_self (by omega) hb), Nat.div_add_mod']

theorem printnum_eq (hb : 2 ≤ base) : printnum num base hb width padc =
    List.replicate (Int.bmod (width - (digitsOf base num).length) (2 ^ 32)).toNat padc ++
      (digitsOf base num).map digitChar := by
  induction num using Nat.strongRecOn generalizing width with
  | ind num ih =>
    rw [printnum]
    rcases Nat.lt_or_ge num base with h | h
    · rw [digitsOf_lt h, dif_neg (by omega), Nat.mod_eq_of_lt h]
      rfl
    · rw [dif_pos h, ih _ (Nat.div_lt_self (by omega) hb), digitsOf_step hb h, List.length_append,
        List.length_singleton, List.map_append, List.append_assoc, decWidth, Int.bmod_sub_bmod]
      congr 4
      push_cast
      omega

theorem digitsOf_length (hb : 2 ≤ base) (hnum : num < 2 ^ 64) :
    1 ≤ (digitsOf base num).length ∧ (digitsOf base num).length ≤ 64 := by
  unfold digitsOf
  split
  · decide
  · next h0 =>
    rw [List.length_reverse]
    exact ⟨List.length_pos_iff.mpr (Nat.digits_ne_nil_iff_ne_zero.mpr h0),
      (Nat.digits_length_le_iff (by omega) num).mpr (hnum.trans_le (Nat.pow_le_pow_left hb 64))⟩

theorem NumConv.print_eq (k : NumConv) {lflag lo hi : ℕ} (hlo : lo < 2 ^ 32) (hhi : hi < 2 ^ 32) :
    k.print lflag lo hi width padc = k.before (k.value lflag lo hi) ++
      printnum (k.value lflag lo hi).natAbs k.base k.two_le_base width padc := by
  cases k with
  | d =>
    have hlt : getint lflag lo hi < 2 ^ 64 := by
      unfold getint
      split_ifs <;> omega
    have hv : NumConv.d.value lflag lo hi = Int.bmod (getint lflag lo hi) (2 ^ 64) := by
      simp only [NumConv.value, getint, Int.bmod_def]
      split_ifs <;> omega
    -- The negation of the most negative number is the number as an unsigned one.
    have hneg : NumConv.d.value lflag lo hi < 0 ↔ 2 ^ 63 ≤ getint lflag lo hi := by
      rw [hv, Int.bmod_def]
      split_ifs <;> omega
    simp only [NumConv.print, NumConv.before, NumConv.base, hneg]
    split_ifs with h
    · have habs : (NumConv.d.value lflag lo hi).natAbs = (2 ^ 64 - getint lflag lo hi) % 2 ^ 64 := by
        rw [hv, Int.bmod_def]
        split_ifs <;> omega
      rw [habs]
      rfl
    · have habs : (NumConv.d.value lflag lo hi).natAbs = getint lflag lo hi := by
        rw [hv, Int.bmod_def]
        split_ifs <;> omega
      rw [habs]
      rfl
  | p => rfl
  | u | x => rfl

end

/-- `printnum` prints the digits of the number in the base, without leading
zeros, after as many pad characters as the width asks for, exactly when the width
less the number of digits is an `int`.  The four conversions print the value of
their argument this way, after `-` or `0x`. -/
theorem printnum_positional (num base : ℕ) (hb : 2 ≤ base) (width : ℤ) (padc : UInt8)
    (hnum : num < 2 ^ 64) (hw : -2 ^ 31 ≤ width) (hw' : width < 2 ^ 31) :
    -2 ^ 31 + (digitsOf base num).length ≤ width ↔
    printnum num base hb width padc =
      List.replicate (width - (digitsOf base num).length).toNat padc ++ (digitsOf base num).map digitChar ∧
    readDigits base (digitsOf base num) = num ∧ (∀ d ∈ digitsOf base num, d < base) ∧
    (num ≠ 0 → (digitsOf base num).head? ≠ some 0) ∧
    ∀ (k : NumConv) (lflag lo hi : ℕ), lo < 2 ^ 32 → hi < 2 ^ 32 → ∀ width' padc',
      k.print lflag lo hi width' padc' = k.before (k.value lflag lo hi) ++
        printnum (k.value lflag lo hi).natAbs k.base k.two_le_base width' padc' := by
  obtain ⟨hpos, hlen⟩ := digitsOf_length hb hnum
  constructor
  · intro h
    refine ⟨?_, readDigits_digitsOf hb, fun d hd => ?_, fun h0 => ?_,
      fun k lflag lo hi hlo hhi _ _ => k.print_eq hlo hhi⟩
    · rw [printnum_eq hb, Int.bmod_eq_of_le (by omega) (by omega)]
    · unfold digitsOf at hd
      split at hd
      · rw [List.mem_singleton.mp hd]
        omega
      · exact Nat.digits_lt_base hb (List.mem_reverse.mp hd)
    · rw [digitsOf, if_neg h0, List.head?_reverse,
        List.getLast?_eq_getLast_of_ne_nil (Nat.digits_ne_nil_iff_ne_zero.mpr h0)]
      exact fun h => Nat.getLast_digit_ne_zero base h0 (Option.some.inj h)
  · rintro ⟨hprint, -⟩
    -- a width that wraps becomes a large one
    have hpad := congrArg List.length hprint
    rw [printnum_eq hb, List.length_append, List.length_append, List.length_replicate,
      List.length_replicate, Int.bmod_def] at hpad
    split_ifs at hpad <;> omega

theorem printnum_positional_hex : printnum 255 16 (by decide) 4 32 = [32, 32, 102, 102] := by
  have hd : digitsOf 16 255 = [15, 15] := by
    rw [digitsOf_step (by decide) (by decide), digitsOf_lt (by decide)]
    rfl
  have h := ((printnum_positional 255 16 (by decide) 4 32 (by decide) (by decide) (by decide)).mp
    (by rw [hd]; decide)).1
  rw [h, hd]
  decide

/-- The most negative width becomes the largest: 0 is printed after 2³¹ - 1
spaces. -/
theorem printnum_width_wraps :
    printnum 0 10 (by decide) (-2 ^ 31) 32 = List.replicate (2 ^ 31 - 1) 32 ++ [48] := by
  rw [printnum, dif_neg (by decide)]
  rfl

end Jos
