import Mathlib.Tactic

/-!
# Slots that own objects

A slot refers to an object by its number, or to nothing, which is 0. `Owns ref used` says that no
two slots refer to the same object, and that the objects in use are exactly those that a slot refers
to: none is lost and none is shared. An allocation puts an unused object into an empty slot, and a
deallocation empties a slot.
-/

variable {ι : Type} {ref ref' : ι → ℕ} {used used' : ℕ → Prop} {i : ι} {a : ℕ}

/-- The used objects have one reference each. -/
structure Owns (ref : ι → ℕ) (used : ℕ → Prop) : Prop where
  inj : ∀ i j, ref i ≠ 0 → ref i = ref j → i = j
  used_iff : ∀ a, a ≠ 0 → (used a ↔ ∃ i, ref i = a)

namespace Owns

lemma used_ref (h : Owns ref used) (hi : ref i ≠ 0) : used (ref i) := (h.used_iff _ hi).mpr ⟨i, rfl⟩

lemma ne_of_not_used (h : Owns ref used) (ha : a ≠ 0) (hfree : ¬ used a) (i : ι) : ref i ≠ a :=
  fun hi => hfree ((h.used_iff a ha).mpr ⟨i, hi⟩)

lemma congr (h : Owns ref used) (href : ∀ j, ref' j = ref j)
    (hused : ∀ b, b ≠ 0 → (used' b ↔ used b)) : Owns ref' used' := by
  refine ⟨fun j k => ?_, fun b hb => ?_⟩
  · rw [href, href]
    exact h.inj j k
  · rw [hused b hb, h.used_iff b hb]
    simp only [href]

lemma insert [DecidableEq ι] (h : Owns ref used) (ha : a ≠ 0) (hfree : ¬ used a) (hi : ref i = 0)
    (href : ∀ j, ref' j = if j = i then a else ref j)
    (hused : ∀ b, b ≠ 0 → (used' b ↔ used b ∨ b = a)) : Owns ref' used' := by
  have hne := h.ne_of_not_used ha hfree
  refine ⟨fun j k hj hjk => ?_, fun b hb => ?_⟩
  · rw [href] at hj hjk
    rw [href] at hjk
    split_ifs at hj hjk with h1 h2 h2
    · exact h1.trans h2.symm
    · exact absurd hjk.symm (hne k)
    · exact absurd hjk (hne j)
    · exact h.inj j k hj hjk
  · rw [hused b hb, h.used_iff b hb]
    constructor
    · rintro (⟨j, rfl⟩ | rfl)
      · refine ⟨j, ?_⟩
        rw [href, if_neg]
        rintro rfl
        exact hb hi
      · exact ⟨i, by rw [href, if_pos rfl]⟩
    · rintro ⟨j, rfl⟩
      rw [href]
      split_ifs
      · exact .inr rfl
      · exact .inl ⟨j, rfl⟩

lemma erase [DecidableEq ι] (h : Owns ref used) (hi : ref i ≠ 0)
    (href : ∀ j, ref' j = if j = i then 0 else ref j)
    (hused : ∀ b, b ≠ 0 → (used' b ↔ used b ∧ b ≠ ref i)) : Owns ref' used' := by
  refine ⟨fun j k hj hjk => ?_, fun b hb => ?_⟩
  · rw [href] at hj hjk
    rw [href] at hjk
    split_ifs at hj hjk with h1 h2 h2
    · exact absurd rfl hj
    · exact absurd rfl hj
    · exact absurd hjk hj
    · exact h.inj j k hj hjk
  · rw [hused b hb, h.used_iff b hb]
    constructor
    · rintro ⟨⟨j, rfl⟩, hne⟩
      refine ⟨j, ?_⟩
      rw [href, if_neg]
      rintro rfl
      exact hne rfl
    · rintro ⟨j, hj⟩
      rw [href] at hj
      split_ifs at hj with h1
      · exact absurd hj.symm hb
      · refine ⟨⟨j, hj⟩, fun hx => h1 ?_⟩
        subst hj
        exact h.inj j i hb hx

end Owns
