import Mathlib.Data.Set.Card
import Mathlib.Tactic

/-!
# Counting the indices with a property

`CountIs p n` says that exactly `n` indices satisfy `p`. The index type is arbitrary: nothing bounds
the number of threads, or of page tables, that a system may have. A step of a system adds one index
or removes one, and the rules below say what becomes of the count.

`sum_update_add` is the same for a sum of sizes, when the value at one index changes.
-/

variable {ι : Type} {p q : ι → Prop} {n m : ℕ} {i : ι}

/-- Exactly `n` indices satisfy `p`. -/
def CountIs (p : ι → Prop) (n : ℕ) : Prop := {i | p i}.encard = n

namespace CountIs

section

variable (h : CountIs p n)
include h

lemma congr (hpq : ∀ j, q j ↔ p j) : CountIs q n := by
  have : {j | q j} = {j | p j} := Set.ext hpq
  rw [CountIs, this]
  exact h

lemma unique (h' : CountIs p m) : n = m := by
  rw [CountIs] at h h'
  rw [h] at h'
  exact_mod_cast h'

lemma insert (hi : ¬ p i) (hq : ∀ j, q j ↔ p j ∨ j = i) : CountIs q (n + 1) := by
  have hset : {j | q j} = Insert.insert i {j | p j} := by
    ext j
    simp only [Set.mem_ofPred_eq, Set.mem_insert_iff, hq]
    exact Or.comm
  rw [CountIs, hset, Set.encard_insert_of_notMem (by simpa using hi), h]
  norm_cast

lemma erase (hi : p i) (hq : ∀ j, q j ↔ p j ∧ j ≠ i) : ∃ m, n = m + 1 ∧ CountIs q m := by
  have hset : {j | q j} = {j | p j} \ {i} := by
    ext j
    simp [hq]
  have hcard := Set.encard_sdiff_singleton_add_one (show i ∈ {j | p j} from hi)
  rw [← hset, h] at hcard
  have hfin : {j | q j}.encard ≠ ⊤ := by
    intro htop
    rw [htop] at hcard
    exact absurd hcard (by simp)
  obtain ⟨m, hm⟩ := ENat.ne_top_iff_exists.mp hfin
  refine ⟨m, ?_, hm.symm⟩
  rw [← hm] at hcard
  exact_mod_cast hcard.symm

end

/-- Counting along an injection that reaches everything counted. -/
lemma comap {κ : Type} {f : κ → ι} (hf : Function.Injective f) (h : CountIs p n)
    (hp : ∀ j, p j → ∃ k, f k = j) : CountIs (fun k => p (f k)) n := by
  have himage : Set.image f {k | p (f k)} = {j | p j} := by
    ext j
    constructor
    · rintro ⟨k, hk, rfl⟩
      exact hk
    · intro hj
      obtain ⟨k, rfl⟩ := hp j hj
      exact ⟨k, hj, rfl⟩
  rw [CountIs, ← hf.encard_image, himage]
  exact h

lemma zero_iff : CountIs p 0 ↔ ∀ i, ¬ p i := by
  rw [CountIs, Nat.cast_zero, Set.encard_eq_zero, Set.eq_empty_iff_forall_notMem]
  rfl

lemma one_iff : CountIs p 1 ↔ ∃! i, p i := by
  rw [CountIs, Nat.cast_one, Set.encard_eq_one]
  constructor
  · rintro ⟨i, hi⟩
    refine ⟨i, ?_, ?_⟩
    · exact (Set.ext_iff.mp hi i).mpr rfl
    · intro j hj
      exact (Set.ext_iff.mp hi j).mp hj
  · rintro ⟨i, hi, huniq⟩
    refine ⟨i, Set.ext fun j => ⟨huniq j, ?_⟩⟩
    rintro rfl
    exact hi

/-! ## One entry of a family changes -/

section Update

variable [DecidableEq ι] {β : Type} {f : ι → β} {b : β} (P : β → Prop)

lemma iff_update (h : P b ↔ P (f i)) (j : ι) : P (Function.update f i b j) ↔ P (f j) := by
  by_cases hj : j = i
  · subst hj
    simpa using h
  · simp [hj]

section

variable (h : CountIs (fun j => P (f j)) n)
include h

lemma update_congr (hb : P b ↔ P (f i)) : CountIs (fun j => P (Function.update f i b j)) n :=
  h.congr (iff_update P hb)

lemma update_insert (hi : ¬ P (f i)) (hb : P b) :
    CountIs (fun j => P (Function.update f i b j)) (n + 1) := by
  refine h.insert hi ?_
  intro j
  by_cases hj : j = i
  · subst hj
    simp [hb]
  · simp [hj]

lemma update_erase (hi : P (f i)) (hb : ¬ P b) :
    ∃ m, n = m + 1 ∧ CountIs (fun j => P (Function.update f i b j)) m := by
  refine h.erase hi ?_
  intro j
  by_cases hj : j = i
  · subst hj
    simp [hb]
  · simp [hj]

end

end Update

lemma pos (h : CountIs p n) (hi : p i) : 0 < n := by
  rcases Nat.eq_zero_or_pos n with rfl | hn
  · exact absurd hi (zero_iff.mp h i)
  · exact hn

end CountIs

lemma sum_update_add {α : Type} [DecidableEq ι] {S : Finset ι} (hi : i ∈ S) (size : α → ℕ)
    (f : ι → α)
    (v : α) : ∑ j ∈ S, size (Function.update f i v j) + size (f i) = ∑ j ∈ S,
    size (f j) + size v := by
  have hnew := Finset.sum_erase_add S (fun j => size (Function.update f i v j)) hi
  have hold := Finset.sum_erase_add S (fun j => size (f j)) hi
  have hrest : ∑ j ∈ S.erase i, size (Function.update f i v j) = ∑ j ∈ S.erase i, size (f j) := by
    refine Finset.sum_congr rfl fun j hj => ?_
    rw [Function.update_of_ne (Finset.ne_of_mem_erase hj)]
  rw [Function.update_self] at hnew
  omega
