import Xv6.Lib.Count

/-!
# Reference-counted objects

`R p i` says that slot `i` refers to object `p`, and `o p` is the number of references to `p` that
somebody holds outside the slots, for instance between taking a fresh object and storing it. The
count of an object is the number of slots that refer to it plus the references held. A slot in `X`
is exclusive: nothing else refers to its object.

Each rule below is one thing a program does with an object: take a fresh one, give it up, store it
in a slot, share it with a further slot, clear a slot.
-/

variable {P ι : Type}

/-- The counts are the references from slots, and `o p` others. -/
structure RefInv (page : P → Prop) (cnt : P → ℤ) (R : P → ι → Prop) (X : ι → Prop)
    (o : P → ℕ) : Prop where
  count : ∀ p, page p → ∃ n, CountIs (R p) n ∧ cnt p = n + o p
  page_of : ∀ p i, R p i → page p
  page_held : ∀ p, 0 < o p → page p
  /-- What is held outside the slots is held exclusively. -/
  held : ∀ p i, R p i → o p = 0
  excl : ∀ p i j, R p i → X i → R p j → j = i

namespace RefInv

variable {page : P → Prop} {cnt cnt' : P → ℤ} {R R' : P → ι → Prop} {X X' : ι → Prop} {o o' : P → ℕ}
  {p : P} {i : ι}

section

variable (h : RefInv page cnt R X o)
include h

lemma pos (hi : R p i) : 0 < cnt p := by
  obtain ⟨n, hn, hc⟩ := h.count p (h.page_of p i hi)
  have := hn.pos hi
  omega

lemma pos_of_held (ho : 0 < o p) : 0 < cnt p := by
  obtain ⟨n, -, hc⟩ := h.count p (h.page_held p ho)
  omega

lemma not_of_held (ho : 0 < o p) (i : ι) : ¬ R p i := by
  intro hi
  have := h.held p i hi
  omega

lemma free (hp : page p) (h0 : cnt p = 0) : (∀ i, ¬ R p i) ∧ o p = 0 := by
  obtain ⟨n, hn, hc⟩ := h.count p hp
  refine ⟨?_, by omega⟩
  intro i hi
  have := hn.pos hi
  omega

lemma eq_of_one (h1 : cnt p = 1) {j : ι} (hi : R p i) (hj : R p j) : j = i := by
  obtain ⟨n, hn, hc⟩ := h.count p (h.page_of p i hi)
  have ho := h.held p i hi
  obtain rfl : n = 1 := by omega
  obtain ⟨k, -, huniq⟩ := CountIs.one_iff.mp hn
  rw [huniq i hi, huniq j hj]

lemma congr (hcnt : ∀ q, page q → cnt' q = cnt q)
    (hR : ∀ q j, R' q j ↔ R q j) (hX : ∀ q j, R q j → X' j → X j) : RefInv page cnt' R' X' o := by
  refine ⟨?_, ?_, h.page_held, ?_, ?_⟩
  · intro q hq
    obtain ⟨n, hn, hc⟩ := h.count q hq
    exact ⟨n, hn.congr (hR q), by rw [hcnt q hq, hc]⟩
  · intro q j hj
    exact h.page_of q j ((hR q j).mp hj)
  · intro q j hj
    exact h.held q j ((hR q j).mp hj)
  · intro q j k hj hXj hk
    rw [hR] at hj hk
    exact h.excl q j k hj (hX q j hj hXj) hk

lemma page_of_held (hp : page p) (ho' : ∀ q, q ≠ p → o' q = o q) (q : P) (hq : 0 < o' q) :
    page q := by
  by_cases hqp : q = p
  · exact hqp ▸ hp
  · rw [ho' q hqp] at hq
    exact h.page_held q hq

lemma take (hp : page p) (h0 : cnt p = 0) (h1 : cnt' p = 1)
    (hcnt : ∀ q, page q → q ≠ p → cnt' q = cnt q) (ho : o' p = 1)
    (ho' : ∀ q, q ≠ p → o' q = o q) : RefInv page cnt' R X o' := by
  have hfree := h.free hp h0
  refine ⟨?_, h.page_of, ?_, ?_, h.excl⟩
  · intro q hq
    by_cases hqp : q = p
    · subst hqp
      exact ⟨0, CountIs.zero_iff.mpr hfree.1, by rw [h1, ho]; rfl⟩
    · obtain ⟨n, hn, hc⟩ := h.count q hq
      exact ⟨n, hn, by rw [hcnt q hq hqp, ho' q hqp, hc]⟩
  · exact h.page_of_held hp ho'
  · intro q j hj
    by_cases hqp : q = p
    · subst hqp
      exact absurd hj (hfree.1 j)
    · rw [ho' q hqp]
      exact h.held q j hj

lemma release (hp : 0 < o p) (h1 : cnt' p = cnt p - 1)
    (hcnt : ∀ q, page q → q ≠ p → cnt' q = cnt q) (ho : o' p = o p - 1)
    (ho' : ∀ q, q ≠ p → o' q = o q) : RefInv page cnt' R X o' := by
  refine ⟨?_, h.page_of, ?_, ?_, h.excl⟩
  · intro q hq
    obtain ⟨n, hn, hc⟩ := h.count q hq
    by_cases hqp : q = p
    · subst hqp
      exact ⟨n, hn, by rw [h1, ho]; omega⟩
    · exact ⟨n, hn, by rw [hcnt q hq hqp, ho' q hqp, hc]⟩
  · exact h.page_of_held (h.page_held p hp) ho'
  · intro q j hj
    by_cases hqp : q = p
    · subst hqp
      exact absurd hj (h.not_of_held hp j)
    · rw [ho' q hqp]
      exact h.held q j hj

lemma attach (hp : o p = 1)
    (hR : ∀ q j, R' q j ↔ R q j ∨ q = p ∧ j = i) (hX : ∀ q j, R q j → X' j → X j)
    (ho : o' p = 0) (ho' : ∀ q, q ≠ p → o' q = o q) : RefInv page cnt R' X' o' := by
  have hnone := h.not_of_held (p := p) (by omega)
  have hpage := h.page_held p (by omega)
  have hRp : ∀ j, R' p j ↔ j = i := by
    intro j
    simp [hR, hnone j]
  have hRq : ∀ q, q ≠ p → ∀ j, R' q j ↔ R q j := by
    intro q hq j
    simp [hR, hq]
  refine ⟨?_, ?_, ?_, ?_, ?_⟩
  · intro q hq
    by_cases hqp : q = p
    · subst hqp
      obtain ⟨n, hn, hc⟩ := h.count q hq
      obtain rfl : 0 = n := (CountIs.zero_iff.mpr hnone).unique hn
      refine ⟨1, CountIs.one_iff.mpr ⟨i, (hRp i).mpr rfl, fun j hj => (hRp j).mp hj⟩, ?_⟩
      rw [hc, hp, ho]
      rfl
    · obtain ⟨n, hn, hc⟩ := h.count q hq
      exact ⟨n, hn.congr (hRq q hqp), by rw [ho' q hqp, hc]⟩
  · intro q j hj
    by_cases hqp : q = p
    · exact hqp ▸ hpage
    · exact h.page_of q j ((hRq q hqp j).mp hj)
  · exact h.page_of_held hpage ho'
  · intro q j hj
    by_cases hqp : q = p
    · rw [hqp, ho]
    · rw [ho' q hqp]
      exact h.held q j ((hRq q hqp j).mp hj)
  · intro q j k hj hXj hk
    by_cases hqp : q = p
    · subst hqp
      rw [hRp] at hj hk
      rw [hj, hk]
    · rw [hRq q hqp] at hj hk
      exact h.excl q j k hj (hX q j hj hXj) hk

/-- A referenced object is stored in one more slot; nobody who refers to it is exclusive then. -/
lemma share {i0 : ι} (hp : R p i0) (hi : ∀ q, ¬ R q i)
    (hR : ∀ q j, R' q j ↔ R q j ∨ q = p ∧ j = i) (hX : ∀ q j, R q j → X' j → X j)
    (hshared : ∀ j, R' p j → ¬ X' j) (h1 : cnt' p = cnt p + 1)
    (hcnt : ∀ q, page q → q ≠ p → cnt' q = cnt q) : RefInv page cnt' R' X' o := by
  have hRq : ∀ q, q ≠ p → ∀ j, R' q j ↔ R q j := by
    intro q hq j
    simp [hR, hq]
  have hheld := h.held p i0 hp
  refine ⟨?_, ?_, h.page_held, ?_, ?_⟩
  · intro q hq
    obtain ⟨n, hn, hc⟩ := h.count q hq
    by_cases hqp : q = p
    · subst hqp
      refine ⟨n + 1, hn.insert (hi q) ?_, ?_⟩
      · intro j
        simp [hR]
      · rw [h1, hc]
        push_cast
        ring
    · exact ⟨n, hn.congr (hRq q hqp), by rw [hcnt q hq hqp, hc]⟩
  · intro q j hj
    by_cases hqp : q = p
    · exact hqp ▸ h.page_of p i0 hp
    · exact h.page_of q j ((hRq q hqp j).mp hj)
  · intro q j hj
    by_cases hqp : q = p
    · exact hqp ▸ hheld
    · exact h.held q j ((hRq q hqp j).mp hj)
  · intro q j k hj hXj hk
    by_cases hqp : q = p
    · subst hqp
      exact absurd hXj (hshared j hj)
    · rw [hRq q hqp] at hj hk
      exact h.excl q j k hj (hX q j hj hXj) hk

lemma detach (hi : R p i) (huniq : ∀ q, R q i → q = p)
    (hR : ∀ q j, R' q j ↔ R q j ∧ j ≠ i) (hX : ∀ q j, R q j → X' j → X j)
    (h1 : cnt' p = cnt p - 1) (hcnt : ∀ q, page q → q ≠ p → cnt' q = cnt q) :
    RefInv page cnt' R' X' o := by
  refine ⟨?_, ?_, h.page_held, ?_, ?_⟩
  · intro q hq
    obtain ⟨n, hn, hc⟩ := h.count q hq
    by_cases hqp : q = p
    · subst hqp
      obtain ⟨m, rfl, hm⟩ := hn.erase hi (hR q)
      refine ⟨m, hm, ?_⟩
      rw [h1, hc]
      push_cast
      ring
    · refine ⟨n, hn.congr ?_, by rw [hcnt q hq hqp, hc]⟩
      intro j
      rw [hR]
      constructor
      · exact fun hj => hj.1
      · intro hj
        refine ⟨hj, ?_⟩
        rintro rfl
        exact hqp (huniq q hj)
  · intro q j hj
    exact h.page_of q j ((hR q j).mp hj).1
  · intro q j hj
    exact h.held q j ((hR q j).mp hj).1
  · intro q j k hj hXj hk
    rw [hR] at hj hk
    exact h.excl q j k hj.1 (hX q j hj.1 hXj) hk.1

end

end RefInv
