import Mathlib.Tactic

/-!
# `memmove`, twice

The kernel (kernel/string.c) and the user library (user/ulib.c) each have a `memmove`, and they
choose the direction of the copy by different tests. Addresses are 64-bit words, so a distance
between two of them is a subtraction modulo 2^64: `Moved` describes the result by the distance from
`dst`, and a loop is right when the other range does not start inside the part that is still to be
copied.
-/

namespace Xv6.Str

/-- A pointer. -/
abbrev Addr := BitVec 64

/-- The bytes of an address space. -/
abbrev Bytes := Addr → UInt8

/-- `while (n-- > 0) *d++ = *s++;` -/
def copyUp (m : Bytes) (d s : Addr) : ℕ → Bytes
  | 0 => m
  | n + 1 => copyUp (Function.update m d (m s)) (d + 1) (s + 1) n

/-- `while (n-- > 0) *--d = *--s;` -/
def copyDown (m : Bytes) (d s : Addr) : ℕ → Bytes
  | 0 => m
  | n + 1 => copyDown (Function.update m (d - 1) (m (s - 1))) (d - 1) (s - 1) n

/-- The kernel's `memmove`. -/
def memmove (m : Bytes) (dst src : Addr) (n : ℕ) : Bytes :=
  if n = 0 then m
  else if src < dst ∧ dst < src + .ofNat 64 n then copyDown m (dst + .ofNat 64 n)
    (src + .ofNat 64 n) n
  else copyUp m dst src n

/-- The user library's `memmove`; its `n` is signed. -/
def userMemmove (m : Bytes) (dst src : Addr) (n : ℤ) : Bytes :=
  if dst < src then copyUp m dst src n.toNat
  else copyDown m (dst + .ofInt 64 n) (src + .ofInt 64 n) n.toNat

/-- The bytes after `n` of them were moved at once. -/
def Moved (m : Bytes) (dst src : Addr) (n : ℕ) : Bytes := fun a =>
  if (a - dst).toNat < n then m (src + (a - dst)) else m a

variable {m : Bytes} {d s dst src : Addr} {n : ℕ}

-- A store at `d` is read again only at the distance `d - s`, which `h` puts out of the way.
lemma copyUp_eq (hn : n ≤ 2 ^ 64) (h : d = s ∨ n ≤ (d - s).toNat) :
    copyUp m d s n = Moved m d s n := by
  induction n generalizing m d s with
  | zero => rfl
  | succ n ih =>
    rw [copyUp, ih (by omega) (by bv_omega)]
    funext a
    have hsrc : s + 1 + (a - (d + 1)) = s + (a - d) := by bv_omega
    simp only [Moved, hsrc, Function.update_apply]
    by_cases ha : a = d
    · rw [if_neg (by bv_omega), if_pos ha, if_pos (by bv_omega)]
      congr 1
      bv_omega
    · by_cases hi : (a - d).toNat < n + 1
      · rw [if_pos (by bv_omega), if_neg (by bv_omega), if_pos hi]
      · rw [if_neg (by bv_omega), if_neg ha, if_neg hi]

lemma copyDown_eq (hn : n ≤ 2 ^ 64) (h : d = s ∨ n ≤ (s - d).toNat) :
    copyDown m (d + .ofNat 64 n) (s + .ofNat 64 n) n = Moved m d s n := by
  induction n generalizing m with
  | zero => rfl
  | succ n ih =>
    have hpred : ∀ p : Addr, p + .ofNat 64 (n + 1) - 1 = p + .ofNat 64 n := by
      intro p
      bv_omega
    rw [copyDown, hpred, hpred, ih (by omega) (by bv_omega)]
    funext a
    simp only [Moved, Function.update_apply]
    by_cases ha : a = d + .ofNat 64 n
    · rw [if_neg (by bv_omega), if_pos ha, if_pos (by bv_omega)]
      congr 1
      bv_omega
    · by_cases hi : (a - d).toNat < n + 1
      · rw [if_pos (by bv_omega), if_neg (by bv_omega), if_pos hi]
      · rw [if_neg (by bv_omega), if_neg ha, if_neg hi]

section

variable (hd : dst.toNat + n ≤ 2 ^ 64) (hs : src.toNat + n ≤ 2 ^ 64)
include hd hs

lemma memmove_eq : memmove m dst src n = Moved m dst src n := by
  unfold memmove
  split
  · next h => rw [h]; rfl
  · split
    · exact copyDown_eq (by omega) (by bv_omega)
    · exact copyUp_eq (by omega) (by bv_omega)

lemma userMemmove_eq : userMemmove m dst src n = Moved m dst src n := by
  rw [userMemmove, BitVec.ofInt_natCast, Int.toNat_natCast]
  split
  · exact copyUp_eq (by omega) (by bv_omega)
  · exact copyDown_eq (by omega) (by bv_omega)

end

/-- **`memmove` is right for every overlap.**  For `n` bytes at `src` and at `dst` that do not wrap,
both versions leave the old source bytes in the destination and every other byte as it was, and so
they agree. -/
theorem memmove_moves {m : Bytes} {dst src : Addr} {n : ℕ} (hd : dst.toNat + n ≤ 2 ^ 64)
    (hs : src.toNat + n ≤ 2 ^ 64) : userMemmove m dst src n = memmove m dst src n ∧
    (∀ i < n, memmove m dst src n (dst + .ofNat 64 i) = m (src + .ofNat 64 i)) ∧
    ∀ a, (∀ i < n, a ≠ dst + .ofNat 64 i) → memmove m dst src n a = m a := by
  rw [memmove_eq hd hs, userMemmove_eq hd hs]
  refine ⟨rfl, fun i hi => ?_, fun a ha => ?_⟩
  · have hdist : dst + .ofNat 64 i - dst = .ofNat 64 i := by bv_omega
    rw [Moved, hdist, if_pos (by bv_omega)]
  · refine if_neg fun hlt => ha _ hlt ?_
    bv_omega

theorem memmove_moves_overlap : memmove (fun a => .ofNat a.toNat) 2 1 3 4 = 3 ∧
    memmove (fun a => .ofNat a.toNat) 1 2 3 3 = 4 :=
  ⟨(memmove_moves (by decide) (by decide)).2.1 2 (by decide),
    (memmove_moves (by decide) (by decide)).2.1 2 (by decide)⟩

end Xv6.Str
