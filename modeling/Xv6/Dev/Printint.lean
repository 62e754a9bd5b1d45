import Mathlib.Data.Nat.Digits.Lemmas
import Mathlib.Tactic

/-!
# `printint`

The functions of kernel/printk.c and user/printf.c are the same but for the letters of their
hexadecimal digits. Both put the digits into a buffer of 20 bytes, the last one first, then the
sign, and print the buffer backwards.
-/

namespace Xv6.Print

open List

/-- `buf[i++] = c` in a buffer of 20 bytes, or `none` for a store past its end. -/
def put (buf : List Char) (c : Char) : Option (List Char) :=
  if buf.length < 20 then some (buf ++ [c]) else none

/-- `digits[d]`. -/
def digit (digits : String) (d : ℕ) : Char := digits.toList.getD d '?'

/-- `do { buf[i++] = digits[x % base]; } while ((x /= base) != 0);`, for a base above 1. -/
def putDigits (digits : String) (base x : ℕ) (buf : List Char) : Option (List Char) :=
  (put buf (digit digits (x % base))).bind fun buf =>
    if 1 < base ∧ x / base ≠ 0 then putDigits digits base (x / base) buf else some buf
termination_by x
decreasing_by exact Nat.div_lt_self (Nat.pos_of_ne_zero fun h => by simp_all) (by omega)

/-- The text that `printint` prints with the given digits. -/
def printintWith (digits : String) (xx : BitVec 64) (base : ℕ) (sign : Bool) :
    Option (List Char) := do
  let neg := sign && decide (xx.toInt < 0)
  let x := if neg then -xx else xx
  let buf ← putDigits digits base x.toNat []
  let buf ← if neg then put buf '-' else some buf
  return buf.reverse

/-- The kernel's `printint`. -/
def printint := printintWith "0123456789abcdef"

/-- The user library's `printint`. -/
def userPrintint := printintWith "0123456789ABCDEF"

/-- The value that is printed. -/
def value (xx : BitVec 64) (sign : Bool) : ℤ := if sign then xx.toInt else xx.toNat

/-- The digits of `x`, the last one first; there is always one. -/
def numeral (base x : ℕ) : List ℕ := x % base :: Nat.digits base (x / base)

/-- The text of the digits `ds` of `v`. -/
def text (digits : String) (v : ℤ) (ds : List ℕ) : List Char :=
  (if v < 0 then ['-'] else []) ++ ds.map (digit digits)

/-- The digits, first to last, of the absolute value of `v`, without leading zeros. -/
structure IsNumeral (base : ℕ) (v : ℤ) (ds : List ℕ) : Prop where
  nonempty : ds ≠ []
  lt_base : ∀ d ∈ ds, d < base
  lead : ds.head? = some 0 → ds = [0]
  value : Nat.ofDigits base ds.reverse = v.natAbs

variable {digits : String} {base x : ℕ} {buf : List Char}

lemma numeral_div (hb : 1 < base) (h : x / base ≠ 0) :
    numeral base x = x % base :: numeral base (x / base) := by
  rw [numeral, numeral, Nat.digits_def' hb (Nat.pos_of_ne_zero h)]

lemma putDigits_eq (hb : 1 < base) (hlen : buf.length + (numeral base x).length ≤ 20) :
    putDigits digits base x buf = some (buf ++ (numeral base x).map (digit digits)) := by
  induction x using Nat.strong_induction_on generalizing buf with
  | _ x ih =>
    have hroom : buf.length < 20 := by
      rw [numeral, length_cons] at hlen
      omega
    rw [putDigits, put, if_pos hroom, Option.bind_some]
    by_cases h : x / base = 0
    · simp [h, numeral]
    · have hx : x / base < x := Nat.div_lt_self (Nat.pos_of_ne_zero fun h' => by simp_all) hb
      rw [numeral_div hb h] at hlen ⊢
      rw [if_pos ⟨hb, h⟩, ih _ hx (by simp at hlen ⊢; omega)]
      simp

lemma numeral_length {k : ℕ} (hb : 1 < base) (h : x < base ^ (k + 1)) :
    (numeral base x).length ≤ k + 1 := by
  rw [numeral, length_cons, Nat.add_le_add_iff_right, Nat.digits_length_le_iff hb]
  rw [pow_succ] at h
  exact Nat.div_lt_of_lt_mul (by linarith)

lemma isNumeral {v : ℤ} (hb : 1 < base) (hv : v.natAbs = x) :
    IsNumeral base v (numeral base x).reverse where
  nonempty := by simp [numeral]
  lt_base d hd := by
    rcases mem_cons.mp (mem_reverse.mp hd) with rfl | hd
    · exact Nat.mod_lt _ (by omega)
    · exact Nat.digits_lt_base hb hd
  lead h := by
    by_cases h0 : x = 0
    · simp [numeral, h0]
    · have hne := Nat.digits_ne_nil_iff_ne_zero (b := base).mpr h0
      rw [numeral, ← Nat.digits_def' hb (Nat.pos_of_ne_zero h0), head?_reverse,
        getLast?_eq_some_getLast hne, Option.some_inj] at h
      exact absurd h (Nat.getLast_digit_ne_zero base h0)
  value := by
    rw [reverse_reverse, numeral, Nat.ofDigits_cons, Nat.ofDigits_digits, hv]
    exact Nat.mod_add_div x base

-- The negation of the least value is that value itself, and as an unsigned number it is 2^63.
lemma value_cases (xx : BitVec 64) (sign : Bool) :
    value xx sign < 0 ∧ (-xx).toNat = (value xx sign).natAbs ∧ (value xx sign).natAbs ≤ 2 ^ 63 ∨
    ¬ value xx sign < 0 ∧ xx.toNat = (value xx sign).natAbs ∧ (value xx sign).natAbs < 2 ^ 64 := by
  have hlt := xx.isLt
  cases sign with
  | false =>
    simp only [value, Bool.false_eq_true, if_false, Int.natAbs_natCast]
    exact .inr ⟨by omega, trivial, hlt⟩
  | true =>
    simp only [value, if_true, BitVec.toInt_eq_toNat_cond, BitVec.toNat_neg]
    omega

lemma printintWith_eq {xx : BitVec 64} {sign : Bool} (hb : base = 10 ∨ base = 16) :
    printintWith digits xx base sign =
      some (text digits (value xx sign) (numeral base (value xx sign).natAbs).reverse) := by
  have h1 : 1 < base := by omega
  have hpow : ∀ k, 10 ^ k ≤ base ^ k := fun k => Nat.pow_le_pow_left (by omega) k
  have hneg : (sign && decide (xx.toInt < 0)) = decide (value xx sign < 0) := by
    cases sign <;> simp [value]
  rw [printintWith, hneg]
  rcases value_cases xx sign with ⟨hlt, hx, hle⟩ | ⟨hlt, hx, hle⟩
  · -- 19 digits and the sign
    have hlen := numeral_length h1 (hle.trans_lt ((hpow 19).trans_lt' (by norm_num)))
    have hput : putDigits digits base (value xx sign).natAbs [] = _ :=
      putDigits_eq h1 (by rw [length_nil]; omega)
    have hroom : (numeral base (value xx sign).natAbs).length < 20 := by omega
    simp [hlt, hx, text, hput, put, hroom]
  · have hlen := numeral_length h1 (hle.trans ((hpow 20).trans_lt' (by norm_num)))
    have hput : putDigits digits base (value xx sign).natAbs [] = _ :=
      putDigits_eq h1 (by rw [length_nil]; omega)
    simp [hlt, hx, text, hput]

/-- **Integers are printed exactly.**  For every 64-bit value, base and sign flag, both versions of
`printint` stay inside their buffers and print the numeral of the value, the one that reads back as
the value, with the same digits. -/
theorem printint_exact (xx : BitVec 64) {base : ℕ} (hb : base = 10 ∨ base = 16) (sign : Bool) :
    ∃ ds, IsNumeral base (value xx sign) ds ∧
      printint xx base sign = some (text "0123456789abcdef" (value xx sign) ds) ∧
      userPrintint xx base sign = some (text "0123456789ABCDEF" (value xx sign) ds) :=
  ⟨_, isNumeral (by omega) rfl, printintWith_eq hb, printintWith_eq hb⟩

theorem printint_exact_least : ∃ ds, IsNumeral 10 (-9223372036854775808) ds ∧
    printint (1 <<< 63) 10 true = some (text "0123456789abcdef" (-9223372036854775808) ds) := by
  obtain ⟨ds, h, hk, -⟩ := printint_exact (1 <<< 63) (.inl rfl) true
  exact ⟨ds, h, hk⟩

end Xv6.Print
