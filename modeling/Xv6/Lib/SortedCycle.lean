import Mathlib.Tactic

/-!
# Sorted cycles

A finite set of nodes of a linear order in one cycle: the next node is the next larger one, and from
the largest node the cycle returns to the smallest. Nodes are inserted between neighbours and erased
behind their predecessors. `SortedCycle.reach` is the induction rule for loops that walk along the
cycle until they meet a certain node.
-/

variable {α : Type} [LinearOrder α] {F : Finset α} {nxt : α → α} {a b c p q x f : α}

/-- `b` comes after `a`. -/
def IsNext (F : Finset α) (a b : α) : Prop :=
  b ∈ F ∧ ((a < b ∧ ∀ c ∈ F, a < c → b ≤ c) ∨ ((∀ c ∈ F, c ≤ a) ∧ ∀ c ∈ F, b ≤ c))

/-- `nxt` goes through `F` in order, and from its end back to its start. -/
def SortedCycle (F : Finset α) (nxt : α → α) : Prop := ∀ a ∈ F, IsNext F a (nxt a)

namespace SortedCycle

open Finset

section

variable (h : SortedCycle F nxt) (ha : a ∈ F)
include h ha

lemma mem : nxt a ∈ F := (h a ha).1

lemma next_le (hb : b ∈ F) (hab : a < b) : a < nxt a ∧ nxt a ≤ b := by
  rcases (h a ha).2 with ⟨hlt, hleast⟩ | ⟨hmax, -⟩
  · exact ⟨hlt, hleast b hb hab⟩
  · exact absurd (hmax b hb) (not_le.mpr hab)

lemma next_of_max (hmax : ∀ c ∈ F, c ≤ a) : ∀ c ∈ F, nxt a ≤ c := by
  rcases (h a ha).2 with ⟨hlt, -⟩ | ⟨-, hmin⟩
  · exact absurd (hmax _ (h.mem ha)) (not_le.mpr hlt)
  · exact hmin

lemma card_above_lt (hgt : a < nxt a) : (F.filter (nxt a < ·)).card < (F.filter (a < ·)).card := by
  refine card_lt_card ⟨fun c hc => ?_, fun hsub => ?_⟩
  · rw [mem_filter] at hc ⊢
    exact ⟨hc.1, hgt.trans hc.2⟩
  · have hmem := hsub (mem_filter.mpr ⟨h.mem ha, hgt⟩)
    exact absurd (mem_filter.mp hmem).2 (lt_irrefl _)

end

/-- **Every node is reached.**  Going up from a node below `f` ends in `f`; going up from a node
above `f` ends in the largest one, and from there the cycle goes to the smallest. -/
lemma reach (h : SortedCycle F nxt) {P : α → Prop} (hf : f ∈ F) (hPf : P f)
    (hstep : ∀ a ∈ F, a ≠ f → P (nxt a) → P a) (ha : a ∈ F) : P a := by
  have hup : ∀ a ∈ F, a ≤ f → P a := by
    refine fun a ha hle => ?_
    induction hn : (F.filter (a < ·)).card using Nat.strong_induction_on generalizing a with
    | _ n ih =>
      rcases hle.eq_or_lt with rfl | hlt
      · exact hPf
      · obtain ⟨hgt, hle'⟩ := h.next_le ha hf hlt
        refine hstep a ha hlt.ne (ih _ ?_ (nxt a) (h.mem ha) hle' rfl)
        exact hn ▸ h.card_above_lt ha hgt
  by_cases hle : a ≤ f
  · exact hup a ha hle
  · induction hn : (F.filter (a < ·)).card using Nat.strong_induction_on generalizing a with
    | _ n ih =>
      have hne : a ≠ f := fun he => hle he.le
      refine hstep a ha hne ?_
      rcases (h a ha).2 with ⟨hgt, -⟩ | ⟨-, hmin⟩
      · refine ih _ ?_ (h.mem ha) (not_le.mpr ((not_le.mp hle).trans hgt)) rfl
        exact hn ▸ h.card_above_lt ha hgt
      · exact hup _ (h.mem ha) (hmin f hf)

/-- `x` is on the way from `a` to `f`, with both ends. -/
def OnWay (a f x : α) : Prop := (a ≤ f ∧ a ≤ x ∧ x ≤ f) ∨ (f < a ∧ (a ≤ x ∨ x ≤ f))

lemma onWay_self (h : OnWay f f x) : x = f := by
  rcases h with ⟨-, h1, h2⟩ | ⟨hlt, -⟩
  · exact le_antisymm h2 h1
  · exact absurd hlt (lt_irrefl _)

lemma onWay_next (h : SortedCycle F nxt) (ha : a ∈ F) (hf : f ∈ F) (hx : x ∈ F) (hne : a ≠ f)
    (hway : OnWay a f x) : x = a ∨ OnWay (nxt a) f x := by
  by_cases hxa : x = a
  · exact .inl hxa
  refine .inr ?_
  rcases hway with ⟨hle, hax, hxf⟩ | ⟨hlt, hor⟩
  · have h1 := h.next_le ha hf (lt_of_le_of_ne hle hne)
    have h2 := h.next_le ha hx (lt_of_le_of_ne hax (Ne.symm hxa))
    exact .inl ⟨h1.2, h2.2, hxf⟩
  · rcases (h a ha).2 with ⟨hgt, hleast⟩ | ⟨hmax, hmin⟩
    · refine .inr ⟨hlt.trans hgt, hor.imp_left fun hax => ?_⟩
      exact hleast x hx (lt_of_le_of_ne hax (Ne.symm hxa))
    · refine .inl ⟨hmin f hf, hmin x hx, hor.resolve_left fun hax => ?_⟩
      exact hxa (le_antisymm (hmax x hx) hax)

lemma onWay_around (h : SortedCycle F nxt) (hf : f ∈ F) (hx : x ∈ F) : OnWay (nxt f) f x := by
  rcases (h f hf).2 with ⟨hgt, hleast⟩ | ⟨hmax, hmin⟩
  · exact .inr ⟨hgt, (le_or_gt x f).symm.imp_left fun hlt => hleast x hx hlt⟩
  · exact .inl ⟨hmin f hf, hmin x hx, hmax x hx⟩

variable {nxt' : α → α}

section

variable (h : SortedCycle F nxt)
include h

lemma congr (heq : ∀ a ∈ F, nxt' a = nxt a) : SortedCycle F nxt' := fun a ha => by
  rw [heq a ha]
  exact h a ha

lemma insert (hp : p ∈ F) (hpx : p < x)
    (hxq : x < nxt p ∨ nxt p ≤ p) (hp' : nxt' p = x) (hx' : nxt' x = nxt p)
    (hother : ∀ a ∈ F, a ≠ p → nxt' a = nxt a) : SortedCycle (insert x F) nxt' := by
  have hgap : ∀ c ∈ F, c ≤ p ∨ x < c := by
    intro c hc
    rcases le_or_gt c p with hle | hlt
    · exact .inl hle
    · have hn := h.next_le hp hc hlt
      rcases hxq with hxq | hwrap
      · exact .inr (hxq.trans_le hn.2)
      · exact absurd (hn.1.trans_le hwrap) (lt_irrefl _)
  intro a haF
  rcases mem_insert.mp haF with rfl | ha
  · rw [hx']
    refine ⟨mem_insert_of_mem (h.mem hp), ?_⟩
    rcases hxq with hxq | hwrap
    · refine .inl ⟨hxq, fun c hc hac => ?_⟩
      rcases mem_insert.mp hc with rfl | hc
      · exact absurd hac (lt_irrefl _)
      · exact (h.next_le hp hc (hpx.trans hac)).2
    · have hmin : (∀ c ∈ F, c ≤ p) ∧ ∀ c ∈ F, nxt p ≤ c := by
        rcases (h p hp).2 with ⟨hgt, -⟩ | hm
        · exact absurd hgt (not_lt.mpr hwrap)
        · exact hm
      refine .inr ⟨fun c hc => ?_, fun c hc => ?_⟩
      · rcases mem_insert.mp hc with rfl | hc
        · exact le_rfl
        · exact (hmin.1 c hc).trans hpx.le
      · rcases mem_insert.mp hc with rfl | hc
        · exact hwrap.trans hpx.le
        · exact hmin.2 c hc
  · by_cases hap : a = p
    · rw [hap, hp']
      refine ⟨mem_insert_self .., .inl ⟨hpx, fun c hc hac => ?_⟩⟩
      rcases mem_insert.mp hc with rfl | hc
      · exact le_rfl
      · exact ((hgap c hc).resolve_left (not_le.mpr hac)).le
    · rw [hother a ha hap]
      refine ⟨mem_insert_of_mem (h.mem ha), ?_⟩
      rcases (h a ha).2 with ⟨hgt, hleast⟩ | ⟨hmax, hmin⟩
      · refine .inl ⟨hgt, fun c hc hac => ?_⟩
        rcases mem_insert.mp hc with rfl | hc
        · -- `p` is between `a` and the new node
          have hlt : a < p := lt_of_le_of_ne ((hgap a ha).resolve_right (not_lt.mpr hac.le)) hap
          exact (hleast p hp hlt).trans hpx.le
        · exact hleast c hc hac
      · -- `a` is the largest, so it is above the new node
        have hpa : p < a := lt_of_le_of_ne (hmax p hp) (Ne.symm hap)
        have hxa : x < a := (hgap a ha).resolve_left (not_le.mpr hpa)
        refine .inr ⟨fun c hc => ?_, fun c hc => ?_⟩
        · rcases mem_insert.mp hc with rfl | hc
          · exact hxa.le
          · exact hmax c hc
        · rcases mem_insert.mp hc with rfl | hc
          · exact (hmin p hp).trans hpx.le
          · exact hmin c hc

lemma next_ne (ha : a ∈ F) (hb : b ∈ F) (hlt : a < b) : nxt a ≠ nxt b := by
  intro heq
  have hle := h.next_le ha hb hlt
  rw [heq] at hle
  rcases (h b hb).2 with ⟨hgt, -⟩ | ⟨-, hmin⟩
  · exact absurd (hle.2.trans_lt hgt) (lt_irrefl _)
  · exact absurd (hle.1.trans_le (hmin a ha)) (lt_irrefl _)

lemma erase (hp : p ∈ F) (hq : nxt p = q) (hne : p ≠ q)
    (hp' : nxt' p = nxt q) (hother : ∀ a ∈ F, a ≠ p → a ≠ q → nxt' a = nxt a) :
    SortedCycle (F.erase q) nxt' := by
  have hqF : q ∈ F := hq ▸ h.mem hp
  -- only `p` points to `q`
  have honly : ∀ a ∈ F, nxt a = q → a = p := by
    intro a ha haq
    rcases lt_trichotomy a p with hlt | heq | hgt
    · exact absurd (haq.trans hq.symm) (h.next_ne ha hp hlt)
    · exact heq
    · exact absurd (hq.trans haq.symm) (h.next_ne hp ha hgt)
  have hnq : nxt q ≠ q := fun hqq => hne (honly q hqF hqq).symm
  intro a ha
  obtain ⟨haq, haF⟩ := mem_erase.mp ha
  by_cases hap : a = p
  · rw [hap, hp']
    refine ⟨mem_erase.mpr ⟨hnq, h.mem hqF⟩, ?_⟩
    have hpq := (h p hp).2
    rw [hq] at hpq
    rcases (h q hqF).2 with ⟨hlt, hleast⟩ | ⟨hmax, hmin⟩
    · rcases hpq with ⟨hpq, hleast'⟩ | ⟨hmax', hmin'⟩
      · refine .inl ⟨hpq.trans hlt, fun c hc hpc => ?_⟩
        obtain ⟨hcq, hcF⟩ := mem_erase.mp hc
        exact hleast c hcF (lt_of_le_of_ne (hleast' c hcF hpc) (Ne.symm hcq))
      · refine .inr ⟨fun c hc => hmax' c (mem_erase.mp hc).2, fun c hc => ?_⟩
        obtain ⟨hcq, hcF⟩ := mem_erase.mp hc
        exact hleast c hcF (lt_of_le_of_ne (hmin' c hcF) (Ne.symm hcq))
    · rcases hpq with ⟨hpq, hleast'⟩ | ⟨hmax', hmin'⟩
      · refine .inr ⟨fun c hc => ?_, fun c hc => hmin c (mem_erase.mp hc).2⟩
        obtain ⟨hcq, hcF⟩ := mem_erase.mp hc
        by_contra hlt
        exact hcq (le_antisymm (hmax c hcF) (hleast' c hcF (not_le.mp hlt)))
      · exact absurd (le_antisymm (hmax p hp) (hmin' p hp)) hne
  · rw [hother a haF hap haq]
    refine ⟨mem_erase.mpr ⟨fun he => hap (honly a haF he), h.mem haF⟩, ?_⟩
    rcases (h a haF).2 with ⟨hlt, hleast⟩ | ⟨hmax, hmin⟩
    · exact .inl ⟨hlt, fun c hc => hleast c (mem_erase.mp hc).2⟩
    · exact .inr ⟨fun c hc => hmax c (mem_erase.mp hc).2,
        fun c hc => hmin c (mem_erase.mp hc).2⟩

/-- The nodes in order: each points to the one behind it, and the last one to the first. -/
lemma getElem?_next {l : List α} (hl : l.Pairwise (· < ·))
    (hmem : ∀ a, a ∈ l ↔ a ∈ F) {i : ℕ} (hi : l[i]? = some a) :
    l[(i + 1) % l.length]? = some (nxt a) := by
  obtain ⟨hlt, rfl⟩ := List.getElem?_eq_some_iff.mp hi
  have hmono := List.pairwise_iff_getElem.mp hl
  have hF : ∀ j (hj : j < l.length), l[j] ∈ F := fun j hj => (hmem _).mp (List.getElem_mem hj)
  obtain ⟨j, hj, hnext⟩ := List.mem_iff_getElem.mp ((hmem _).mpr (h.mem (hF i hlt)))
  rw [← hnext]
  rcases Nat.lt_or_ge (i + 1) l.length with hlast | hlast
  · -- no node is between `l[i]` and `l[i + 1]`
    have hn := h.next_le (hF i hlt) (hF (i + 1) hlast)
      (hmono i (i + 1) hlt hlast (Nat.lt_succ_self i))
    rw [← hnext] at hn
    have hij : i < j := by
      by_contra hle
      rcases Nat.eq_or_lt_of_le (not_lt.mp hle) with rfl | hji
      · exact absurd hn.1 (lt_irrefl _)
      · exact absurd (hn.1.trans (hmono j i hj hlt hji)) (lt_irrefl _)
    have hji : j ≤ i + 1 := by
      by_contra hgt
      exact absurd (hn.2.trans_lt (hmono (i + 1) j hlast hj (not_le.mp hgt))) (lt_irrefl _)
    obtain rfl : j = i + 1 := by omega
    rw [Nat.mod_eq_of_lt hlast, List.getElem?_eq_getElem hlast]
  · obtain rfl : i = l.length - 1 := by omega
    have hmax : ∀ c ∈ F, c ≤ l[l.length - 1] := by
      intro c hc
      obtain ⟨k, hk, rfl⟩ := List.mem_iff_getElem.mp ((hmem c).mpr hc)
      rcases Nat.eq_or_lt_of_le (show k ≤ l.length - 1 by omega) with rfl | hlt'
      · exact le_rfl
      · exact (hmono k (l.length - 1) hk hlt hlt').le
    have hle := h.next_of_max (hF _ hlt) hmax _ (hF 0 (by omega))
    rw [← hnext] at hle
    obtain rfl : j = 0 := by
      by_contra hne
      exact absurd (hle.trans_lt (hmono 0 j (by omega) hj (Nat.pos_of_ne_zero hne))) (lt_irrefl _)
    rw [show (l.length - 1 + 1) % l.length = 0 by
      rw [Nat.sub_add_cancel (by omega), Nat.mod_self], List.getElem?_eq_getElem hj]

end

end SortedCycle
