import Mathlib.Tactic

/-!
# Rings with wrapping counters

A ring of `N` slots with two counters that are never reset: entries are put at `w % N` and taken
from `r % N`, and both counters are kept modulo `M`, a multiple of `N`. How many entries there are
is the difference of the counters modulo `M`, so nothing special happens when they wrap.

`contents` is the list of entries from the oldest on. `contents_put` and `contents_take` say that
the ring is a queue, as long as it is not full, respectively not empty.
-/

namespace Ring

open List Function

variable {α : Type} {N M r w : ℕ}

/-- The number of entries: `w - r` modulo `M`. -/
def used (M r w : ℕ) : ℕ := (w + M - r) % M

/-- The entries, oldest first. -/
def contents (N M : ℕ) (slot : ℕ → α) (r w : ℕ) : List α :=
  (range (used M r w)).map fun j => slot ((r + j) % N)

section

variable (hr : r < M)
include hr

lemma used_eq (hw : w < M) : used M r w = if r ≤ w then w - r else w + M - r := by
  rw [used]
  split_ifs with h
  · have hsum : w + M - r = M + (w - r) := by omega
    rw [hsum, Nat.add_mod_left, Nat.mod_eq_of_lt (by omega)]
  · exact Nat.mod_eq_of_lt (by omega)

lemma used_lt (hw : w < M) : used M r w < M := by
  rw [used_eq hr hw]
  split_ifs <;> omega

lemma used_eq_zero (hw : w < M) : used M r w = 0 ↔ r = w := by
  rw [used_eq hr hw]
  split_ifs <;> omega

lemma succ_mod : (r + 1) % M = if r + 1 = M then 0 else r + 1 := by
  split_ifs with h
  · rw [h, Nat.mod_self]
  · exact Nat.mod_eq_of_lt (by omega)

lemma used_put (hw : w < M) (hlt : used M r w + 1 < M) :
    used M r ((w + 1) % M) = used M r w + 1 := by
  have hw' : (w + 1) % M < M := Nat.mod_lt _ (by omega)
  rw [used_eq hr hw', used_eq hr hw, succ_mod hw]
  rw [used_eq hr hw] at hlt
  split_ifs at hlt ⊢ <;> omega

lemma used_take (hw : w < M) (hpos : r ≠ w) : used M ((r + 1) % M) w + 1 = used M r w := by
  have hr' : (r + 1) % M < M := Nat.mod_lt _ (by omega)
  rw [used_eq hr' hw, used_eq hr hw, succ_mod hr]
  split_ifs <;> omega

lemma used_pred (hw : w < M) (hne : r ≠ w) : used M r ((w + M - 1) % M) + 1 = used M r w := by
  have hpred : (w + M - 1) % M = if w = 0 then M - 1 else w - 1 := by
    split_ifs with h
    · rw [h, Nat.zero_add, Nat.mod_eq_of_lt (by omega)]
    · have hsum : w + M - 1 = M + (w - 1) := by omega
      rw [hsum, Nat.add_mod_left, Nat.mod_eq_of_lt (by omega)]
  rw [used_eq hr (Nat.mod_lt _ (by omega)), used_eq hr hw, hpred]
  split_ifs <;> omega

lemma add_used (hw : w < M) : (r + used M r w) % M = w := by
  rw [used_eq hr hw]
  split_ifs with h
  · rw [Nat.mod_eq_of_lt (by omega)]
    omega
  · have hsum : r + (w + M - r) = M + w := by omega
    rw [hsum, Nat.add_mod_left, Nat.mod_eq_of_lt hw]

lemma used_eq_iff (hw : w < M) (hN : N < M) : used M r w = N ↔ w = (r + N) % M := by
  constructor
  · rintro rfl
    exact (add_used hr hw).symm
  · intro h
    have hmod : (r + N) % M = if r + N < M then r + N else r + N - M := by
      split_ifs with hlt
      · exact Nat.mod_eq_of_lt hlt
      · rw [Nat.mod_eq_sub_mod (by omega), Nat.mod_eq_of_lt (by omega)]
    rw [used_eq hr hw]
    rw [hmod] at h
    split_ifs at h ⊢ <;> omega

end

lemma slot_ne {i j : ℕ} (hij : i < j) (hj : j < N) : (r + i) % N ≠ (r + j) % N := by
  intro h
  have hmod : i ≡ j [MOD N] := Nat.ModEq.add_left_cancel' r h
  have := Nat.ModEq.eq_of_lt_of_lt hmod (by omega) hj
  omega

lemma length_contents (slot : ℕ → α) : (contents N M slot r w).length = used M r w := by
  simp [contents]

section

variable (hdvd : N ∣ M)
include hdvd

lemma slot_write (hr : r < M) (hw : w < M) : w % N = (r + used M r w) % N := by
  conv_lhs => rw [← add_used hr hw]
  exact Nat.mod_mod_of_dvd _ hdvd

lemma slot_write_ne (hr : r < M) (hw : w < M) (hroom : used M r w < N) {j : ℕ}
    (hj : j < used M r w) : (r + j) % N ≠ w % N := by
  rw [slot_write hdvd hr hw]
  exact slot_ne hj hroom

section

variable (slot : ℕ → α)
include slot

lemma contents_store (a : α) (hr : r < M) (hw : w < M) (hroom : used M r w < N) :
    contents N M (update slot (w % N) a) r w = contents N M slot r w := by
  refine map_congr_left fun j hj => ?_
  rw [mem_range] at hj
  exact update_of_ne (slot_write_ne hdvd hr hw hroom hj) _ _

lemma contents_succ (hr : r < M) (hw : w < M) (hlt : used M r w + 1 < M) :
    contents N M slot r ((w + 1) % M) = contents N M slot r w ++ [slot (w % N)] := by
  rw [contents, used_put hr hw hlt, range_succ, map_append, map_singleton,
    slot_write hdvd hr hw, contents]

lemma contents_pred (hr : r < M) (hw : w < M) (hne : r ≠ w) : contents N M slot r w =
      contents N M slot r ((w + M - 1) % M) ++ [slot ((w + M - 1) % M % N)] := by
  have hlt : used M r ((w + M - 1) % M) + 1 < M := by
    rw [used_pred hr hw hne]
    exact used_lt hr hw
  have hsucc : ((w + M - 1) % M + 1) % M = w := by
    rw [Nat.mod_add_mod, show w + M - 1 + 1 = M + w by omega, Nat.add_mod_left, Nat.mod_eq_of_lt hw]
  rw [← contents_succ hdvd slot hr (Nat.mod_lt _ (by omega)) hlt, hsucc]

/-- **Putting an entry** at the writing counter of a ring that is not full. -/
lemma contents_put (a : α) (hr : r < M) (hw : w < M)
    (hroom : used M r w < N) (hlt : used M r w + 1 < M) :
    contents N M (update slot (w % N) a) r ((w + 1) % M) = contents N M slot r w ++ [a] := by
  rw [contents_succ hdvd _ hr hw hlt, contents_store hdvd slot a hr hw hroom, update_self]

/-- **Taking an entry** from the reading counter of a ring that is not empty. -/
lemma contents_take (hr : r < M) (hw : w < M) (hne : r ≠ w) :
    contents N M slot r w = slot (r % N) :: contents N M slot ((r + 1) % M) w := by
  rw [contents, ← used_take hr hw hne, range_succ_eq_map, map_cons, map_map, contents]
  refine congrArg₂ cons rfl (map_congr_left fun j _ => ?_)
  simp only [comp_apply]
  congr 1
  rw [Nat.add_mod ((r + 1) % M), Nat.mod_mod_of_dvd _ hdvd, ← Nat.add_mod]
  congr 1
  omega

end

end

lemma contents_append {e : ℕ} {slot : ℕ → α} (hdvd : N ∣ M) (hr : r < M) (hw : w < M)
    (hsum : used M r w + used M w e = used M r e) :
    contents N M slot r e = contents N M slot r w ++ contents N M slot w e := by
  rw [contents, ← hsum, range_add, map_append, map_map]
  refine congrArg₂ _ rfl (map_congr_left fun j _ => ?_)
  have hslot : (r + (used M r w + j)) % N = (w + j) % N := by
    rw [← Nat.add_assoc, Nat.add_mod, ← slot_write hdvd hr hw, ← Nat.add_mod]
  exact congrArg slot hslot

end Ring
