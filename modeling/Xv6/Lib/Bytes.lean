import Mathlib.Tactic

/-!
# Byte arrays with little-endian words

A region of memory or of a disk block is a function from byte offsets to bytes. The C sources
read such regions through struct pointers, so the only structure needed on top of single bytes is
the little-endian word: `word32` reads 32 bits and `putWord32` stores them, `word64` and `putWord64`
do the same for 64.

`word32_putWord32` and `word32_putWord32_ne` are the two laws every layout argument uses: a word
reads back what was stored in it, and a store leaves every disjoint word alone.
-/

namespace ByteArr

/-- A byte-addressed region. -/
abbrev Bytes := ℕ → UInt8

/-- The little-endian 32-bit word at offset `off`. -/
def word32 (b : Bytes) (off : ℕ) : ℕ :=
  (b off).toNat + 2 ^ 8 * (b (off + 1)).toNat + 2 ^ 16 * (b (off + 2)).toNat
    + 2 ^ 24 * (b (off + 3)).toNat

/-- Store `v`, taken modulo `2 ^ 32`, as the little-endian word at offset `off`. -/
def putWord32 (b : Bytes) (off v : ℕ) : Bytes := fun i =>
  if i = off then UInt8.ofNat v
  else if i = off + 1 then UInt8.ofNat (v / 2 ^ 8)
  else if i = off + 2 then UInt8.ofNat (v / 2 ^ 16)
  else if i = off + 3 then UInt8.ofNat (v / 2 ^ 24)
  else b i

lemma word32_lt (b : Bytes) (off : ℕ) : word32 b off < 2 ^ 32 := by
  have h0 := (b off).toNat_lt
  have h1 := (b (off + 1)).toNat_lt
  have h2 := (b (off + 2)).toNat_lt
  have h3 := (b (off + 3)).toNat_lt
  simp only [word32]
  omega

variable {off off' w : ℕ} {b : Bytes} {b' : Bytes}

lemma putWord32_apply_of_ne (b : Bytes) {v i : ℕ} (h : i < off ∨ off + 4 ≤ i) :
    putWord32 b off v i = b i := by
  have h0 : i ≠ off := by omega
  have h1 : i ≠ off + 1 := by omega
  have h2 : i ≠ off + 2 := by omega
  have h3 : i ≠ off + 3 := by omega
  simp [putWord32, h0, h1, h2, h3]

lemma word32_putWord32 (b : Bytes) (off v : ℕ) : word32 (putWord32 b off v) off = v % 2 ^ 32 := by
  simp [word32, putWord32]
  omega

lemma word32_putWord32_ne (b : Bytes) {v : ℕ} (h : off + 4 ≤ off' ∨ off' + 4 ≤ off) :
    word32 (putWord32 b off v) off' = word32 b off' := by
  simp only [word32]
  rw [putWord32_apply_of_ne b (by omega), putWord32_apply_of_ne b (by omega),
    putWord32_apply_of_ne b (by omega), putWord32_apply_of_ne b (by omega)]

/-- The signed reading of a 32-bit word, as C reads an `int` field. -/
def toInt32 (w : ℕ) : ℤ := if w < 2 ^ 31 then w else (w : ℤ) - 2 ^ 32

lemma toInt32_of_lt (h : w < 2 ^ 31) : toInt32 w = w := if_pos h

/-! ## Double words -/

/-- The little-endian 64-bit word at offset `off`. -/
def word64 (b : Bytes) (off : ℕ) : ℕ := word32 b off + 2 ^ 32 * word32 b (off + 4)

/-- Store `v`, taken modulo `2 ^ 64`. -/
def putWord64 (b : Bytes) (off v : ℕ) : Bytes :=
  putWord32 (putWord32 b off v) (off + 4) (v / 2 ^ 32)

lemma word64_putWord64 (b : Bytes) (off v : ℕ) : word64 (putWord64 b off v) off = v % 2 ^ 64 := by
  rw [word64, putWord64, word32_putWord32, word32_putWord32_ne _ (.inr (by omega)),
    word32_putWord32]
  omega

lemma word64_putWord64_ne (b : Bytes) {v : ℕ} (h : off + 8 ≤ off' ∨ off' + 8 ≤ off) :
    word64 (putWord64 b off v) off' = word64 b off' := by
  rw [word64, putWord64, word32_putWord32_ne _ (by omega), word32_putWord32_ne _ (by omega),
    word32_putWord32_ne _ (by omega), word32_putWord32_ne _ (by omega), word64]

lemma word64_congr (h : ∀ i, off ≤ i → i < off + 8 → b' i = b i) :
    word64 b' off = word64 b off := by
  simp only [word64, word32]
  rw [h off (by omega) (by omega), h (off + 1) (by omega) (by omega),
    h (off + 2) (by omega) (by omega), h (off + 3) (by omega) (by omega),
    h (off + 4) (by omega) (by omega), h (off + 4 + 1) (by omega) (by omega),
    h (off + 4 + 2) (by omega) (by omega), h (off + 4 + 3) (by omega) (by omega)]

lemma word64_zero (h : ∀ i, off ≤ i → i < off + 8 → b i = 0) : word64 b off = 0 := by
  rw [word64_congr h]
  rfl

lemma word32_congr (h : ∀ i < 4, b' (off' + i) = b (off + i)) : word32 b' off' = word32 b off := by
  simp only [word32]
  rw [h 1 (by omega), h 2 (by omega), h 3 (by omega)]
  have h0 := h 0 (by omega)
  rw [Nat.add_zero, Nat.add_zero] at h0
  rw [h0]

/-! ## Short words, bytes and bits -/

/-- The little-endian 16-bit word at offset `off`. -/
def word16 (b : Bytes) (off : ℕ) : ℕ := (b off).toNat + 2 ^ 8 * (b (off + 1)).toNat

/-- The signed reading of a 16-bit word, as C reads a `short` field. -/
def toInt16 (w : ℕ) : ℤ := if w < 2 ^ 15 then w else (w : ℤ) - 2 ^ 16

/-- Byte `j` of a number. -/
def byteOf (w j : ℕ) : UInt8 := UInt8.ofNat (w / 2 ^ (8 * j))

lemma word16_lt (b : Bytes) (off : ℕ) : word16 b off < 2 ^ 16 := by
  have h0 := (b off).toNat_lt
  have h1 := (b (off + 1)).toNat_lt
  simp only [word16]
  omega

lemma word16_congr (h : ∀ i < 2, b' (off' + i) = b (off + i)) : word16 b' off' = word16 b off := by
  have h0 := h 0 (by omega)
  rw [Nat.add_zero, Nat.add_zero] at h0
  simp only [word16]
  rw [h 1 (by omega), h0]

lemma word16_of_bytes (hw : w < 2 ^ 16)
    (h : ∀ j < 2, b (off + j) = byteOf w j) : word16 b off = w := by
  have h0 := h 0 (by omega)
  have h1 := h 1 (by omega)
  rw [Nat.add_zero] at h0
  rw [word16, h0, h1]
  simp [byteOf]
  omega

lemma word32_of_bytes (hw : w < 2 ^ 32)
    (h : ∀ j < 4, b (off + j) = byteOf w j) : word32 b off = w := by
  have h0 := h 0 (by omega)
  rw [Nat.add_zero] at h0
  rw [word32, h0, h 1 (by omega), h 2 (by omega), h 3 (by omega)]
  simp [byteOf]
  omega

lemma toInt16_toNat {v : ℤ} (h1 : -2 ^ 15 ≤ v) (h2 : v < 2 ^ 15) :
    toInt16 (v % 2 ^ 16).toNat = v := by
  rw [toInt16]
  split_ifs <;> omega

lemma toInt16_range (h : w < 2 ^ 16) : -2 ^ 15 ≤ toInt16 w ∧ toInt16 w < 2 ^ 15 := by
  rw [toInt16]
  split_ifs <;> omega

/-- Bit `i` of a byte. -/
def getBit (v : UInt8) (i : ℕ) : Bool := v.toBitVec.getLsbD i

/-- `v | (1 << i)`. -/
def orBit (v : UInt8) (i : ℕ) : UInt8 := ⟨v.toBitVec ||| BitVec.twoPow 8 i⟩

/-- `v & ~(1 << i)`. -/
def clearBit (v : UInt8) (i : ℕ) : UInt8 := ⟨v.toBitVec &&& ~~~ BitVec.twoPow 8 i⟩

lemma getBit_orBit {v : UInt8} {i j : ℕ} (hj : j < 8) :
    getBit (orBit v i) j = (decide (j = i) || getBit v j) := by
  simp only [getBit, orBit, BitVec.getLsbD_or, BitVec.getLsbD_twoPow]
  by_cases h : j = i
  · subst h
    simp [hj]
  · simp [h, Ne.symm h]

lemma getBit_clearBit {v : UInt8} {i j : ℕ} (hj : j < 8) :
    getBit (clearBit v i) j = (getBit v j && !decide (j = i)) := by
  simp only [getBit, clearBit, BitVec.getLsbD_and, BitVec.getLsbD_not, BitVec.getLsbD_twoPow]
  by_cases h : j = i
  · subst h
    simp [hj]
  · simp [h, Ne.symm h, hj]

lemma getBit_zero (i : ℕ) : getBit 0 i = false := by
  simp [getBit]

end ByteArr
