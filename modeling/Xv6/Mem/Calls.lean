import Xv6.Mem.RefCounts

/-!
# What each call does to the page tables

One specification for each function of `vm.c`: it keeps the reference counts, and it changes these
entries of the page tables and no others. What processes see of memory (`Vm.page`) changes
accordingly, with one exception: `kfree` overwrites a page before it looks at the reference count,
so where pages are given up this needs that nobody else has them mapped (`Vm.Sole`).

The effect of a call is a set `d` of entries that are cleared (`Unmapped`) or that get a page of
zeros (`Mapped`). These compose, so the loop of a call is an induction over the range of addresses.
-/

namespace Xv6.Vm

open Function Prog

variable {s s' s'' : Vm} {o : ℕ → ℕ}

/-! ## Ranges of entries -/

/-- The entries for `[lo, hi)` of a table. -/
def InRange (t lo hi : ℕ) (p : Slot) : Prop := p.root = t ∧ lo ≤ vaOf p.idx ∧ vaOf p.idx < hi

instance (t lo hi : ℕ) (p : Slot) : Decidable (InRange t lo hi p) :=
  inferInstanceAs (Decidable (_ ∧ _ ∧ _))

variable {lo t a new old : ℕ} {p : Proc} {E : VmPanic → Prop} {Q : Bool → Vm → Prop} {hi : ℕ}
  {oldsz : ℕ}

lemma not_inRange_self {p : Slot} : ¬ InRange t lo lo p := by
  rintro ⟨-, hlo, hhi⟩
  omega

lemma inRange_succ {k : ℕ} {p : Slot} (hlo : lo % PGSIZE = 0) (ha : lo + k * PGSIZE < MAXVA) :
    InRange t lo (lo + (k + 1) * PGSIZE) p ↔
      InRange t lo (lo + k * PGSIZE) p ∨ p = ⟨t, idx (lo + k * PGSIZE)⟩ := by
  obtain ⟨t', x⟩ := p
  have hmod := vaOf_mod x
  have hal : (lo + k * PGSIZE) % PGSIZE = 0 := by
    rw [Nat.add_mul_mod_self_right]
    exact hlo
  rw [Slot.mk.injEq, eq_idx_iff ha hal]
  simp only [InRange]
  constructor
  · rintro ⟨rfl, h1, h2⟩
    by_cases hlt : vaOf x < lo + k * PGSIZE
    · exact .inl ⟨rfl, h1, hlt⟩
    · refine .inr ⟨rfl, ?_⟩
      simp only [PGSIZE] at *
      omega
  · rintro (⟨rfl, h1, h2⟩ | ⟨rfl, h⟩)
    · exact ⟨rfl, h1, h2.trans_le (Nat.add_le_add_left (Nat.mul_le_mul_right _ k.le_succ) _)⟩
    · refine ⟨rfl, h ▸ Nat.le_add_right .., ?_⟩
      rw [h, Nat.succ_mul, ← Nat.add_assoc]
      exact Nat.lt_add_of_pos_right (by decide)

lemma not_inRange_zero (p : Slot) : False ↔ InRange t lo (lo + 0 * PGSIZE) p := by
  rw [Nat.zero_mul, Nat.add_zero]
  exact ⟨False.elim, not_inRange_self⟩

/-- The last round may go beyond `hi`, but no page starts there. -/
lemma inRange_pagesUpto {p : Slot} (hlo : lo % PGSIZE = 0) :
    InRange t lo (lo + pagesUpto lo hi * PGSIZE) p ↔ InRange t lo hi p := by
  have hmod := vaOf_mod p.idx
  simp only [InRange, pagesUpto, PGSIZE] at *
  constructor
  · rintro ⟨h, h1, h2⟩
    exact ⟨h, h1, by omega⟩
  · rintro ⟨h, h1, h2⟩
    exact ⟨h, h1, by omega⟩

lemma pgRoundUp_mod (sz : ℕ) : pgRoundUp sz % PGSIZE = 0 := Nat.mul_mod_left ..

lemma pgRoundUp_le (ha : a ≤ MAXVA) : pgRoundUp a ≤ MAXVA := by
  simp only [pgRoundUp, PGSIZE, MAXVA] at *
  omega

lemma pgRoundUp_of_aligned (ha : a ≤ MAXVA) (hal : a % PGSIZE = 0) : pgRoundUp a = a := by
  simp only [pgRoundUp, PGSIZE, MAXVA] at *
  omega

lemma idx_pgRoundDown (va : ℕ) : idx (pgRoundDown va) = idx va := by
  simp only [idx, px, pgRoundDown, PGSIZE, Prod.mk.injEq]
  refine ⟨?_, ?_, ?_⟩ <;> congr 1 <;> omega

/-! ## The effects -/

/-- No entry has changed. -/
structure Same (s s' : Vm) (o : ℕ → ℕ) : Prop where
  inv : s'.Inv o
  user : s'.user = s.user
  pte : ∀ p, s'.pte p = s.pte p

/-- The entries in `d` have been cleared. -/
structure Cleared (s s' : Vm) (o : ℕ → ℕ) (d : Slot → Prop) : Prop where
  inv : s'.Inv o
  user : s'.user = s.user
  gone : ∀ p, d p → s'.pte p = .zero
  kept : ∀ p, ¬ d p → s'.pte p = s.pte p

/-- The entries in `d` have been cleared and nothing else has happened. -/
structure Unmapped (s s' : Vm) (o : ℕ → ℕ) (d : Slot → Prop) : Prop extends Cleared s s' o d where
  sole : (∀ p, s.user p.root → d p → s.Sole p) → ∀ p, s.user p.root → ¬ d p →
    s'.page p = s.page p ∧ (s.Sole p → s'.Sole p)

/-- The entries in `d` have been given pages of zeros. -/
structure Mapped (s s' : Vm) (o : ℕ → ℕ) (d : Slot → Prop) (perm : Perm) : Prop where
  inv : s'.Inv o
  user : s'.user = s.user
  free : ∀ p, d p → (s.pte p).v = false
  pte : ∀ p, d p → ∃ pa, s'.pte p = ⟨true, perm, pa⟩
  kept : ∀ p, ¬ d p → s'.pte p = s.pte p
  zero : ∀ p, d p → s.user p.root → s'.page p = some (zeroPage perm)
  page : ∀ p, ¬ d p → s.user p.root → s'.page p = s.page p

/-- Neither an entry nor what one of them shows has changed. -/
structure Quiet (s s' : Vm) (o : ℕ → ℕ) : Prop extends Same s s' o where
  page : ∀ p, s.user p.root → s'.page p = s.page p

lemma Quiet.refl (h : s.Inv o) : Quiet s s o := ⟨⟨h, rfl, fun _ => rfl⟩, fun _ _ => rfl⟩

lemma Quiet.trans (h : Quiet s s' o) (h' : Quiet s' s'' o) : Quiet s s'' o :=
  ⟨⟨h'.inv, h'.user.trans h.user, fun p => (h'.pte p).trans (h.pte p)⟩,
    fun p hp => (h'.page p (h.user ▸ hp)).trans (h.page p hp)⟩

lemma Same.trans (h : Same s s' o) (h' : Same s' s'' o) : Same s s'' o :=
  ⟨h'.inv, h'.user.trans h.user, fun p => (h'.pte p).trans (h.pte p)⟩

section

variable {d d' : Slot → Prop} {perm : Perm}

lemma Unmapped.refl (h : s.Inv o) : Unmapped s s o fun _ => False :=
  ⟨⟨h, rfl, fun _ hp => hp.elim, fun _ _ => rfl⟩, fun _ _ _ _ => ⟨rfl, id⟩⟩

lemma Unmapped.congr (h : Unmapped s s' o d) (hd : ∀ p, d p ↔ d' p) : Unmapped s s' o d' :=
  ⟨⟨h.inv, h.user, fun p hp => h.gone p ((hd p).mpr hp), fun p hp => h.kept p (mt (hd p).mp hp)⟩,
    fun hs p hu hp => h.sole (fun q hq hdq => hs q hq ((hd q).mp hdq)) p hu (mt (hd p).mp hp)⟩

lemma Unmapped.trans (h : Unmapped s s' o d) (h' : Unmapped s' s'' o d') :
    Unmapped s s'' o fun p => d p ∨ d' p := by
  refine ⟨⟨h'.inv, h'.user.trans h.user, ?_, ?_⟩, ?_⟩
  · intro p hp
    by_cases hd' : d' p
    · exact h'.gone p hd'
    · rw [h'.kept p hd', h.gone p (hp.resolve_right hd')]
  · intro p hp
    rw [h'.kept p fun hd' => hp (.inr hd'), h.kept p fun hd => hp (.inl hd)]
  · intro hs p hu hp
    rw [not_or] at hp
    have hsole := h.sole fun q hu hq => hs q hu (.inl hq)
    have hs' : ∀ q, s'.user q.root → d' q → s'.Sole q := by
      intro q huq hq
      by_cases hd : d q
      · intro hv
        rw [h.gone q hd] at hv
        cases hv
      · rw [h.user] at huq
        exact (hsole q huq hd).2 (hs q huq (.inr hq))
    obtain ⟨hpage, hkeep⟩ := hsole p hu hp.1
    obtain ⟨hpage', hkeep'⟩ := h'.sole hs' p (h.user ▸ hu) hp.2
    exact ⟨hpage'.trans hpage, fun hp => hkeep' (hkeep hp)⟩

lemma page_of_zero {p : Slot} (h : s.pte p = .zero) : s.page p = none := by
  rw [page, h]
  rfl

lemma Unmapped.page [DecidablePred d] (h : Unmapped s s' o d)
    (hs : ∀ p, s.user p.root → d p → s.Sole p) (p : Slot) (hu : s.user p.root) :
    s'.page p = if d p then none else s.page p := by
  split
  · next hd => exact page_of_zero (h.gone p hd)
  · next hd => exact (h.sole hs p hu hd).1

lemma Mapped.refl (h : s.Inv o) : Mapped s s o (fun _ => False) perm :=
  ⟨h, rfl, fun _ hp => hp.elim, fun _ hp => hp.elim, fun _ _ => rfl, fun _ hp => hp.elim,
    fun _ _ _ => rfl⟩

lemma Mapped.congr (h : Mapped s s' o d perm) (hd : ∀ p, d p ↔ d' p) : Mapped s s' o d' perm :=
  ⟨h.inv, h.user, fun p hp => h.free p ((hd p).mpr hp), fun p hp => h.pte p ((hd p).mpr hp),
    fun p hp => h.kept p (mt (hd p).mp hp), fun p hp => h.zero p ((hd p).mpr hp),
    fun p hp => h.page p (mt (hd p).mp hp)⟩

lemma Mapped.trans (h : Mapped s s' o d perm) (h' : Mapped s' s'' o d' perm) :
    Mapped s s'' o (fun p => d p ∨ d' p) perm := by
  have hdisj : ∀ p, d' p → ¬ d p := by
    intro p hd' hd
    obtain ⟨pa, hpa⟩ := h.pte p hd
    have hfree := h'.free p hd'
    rw [hpa] at hfree
    cases hfree
  refine ⟨h'.inv, h'.user.trans h.user, ?_, ?_, ?_, ?_, ?_⟩
  · rintro p (hd | hd')
    · exact h.free p hd
    · rw [← h.kept p (hdisj p hd')]
      exact h'.free p hd'
  · intro p hp
    by_cases hd' : d' p
    · exact h'.pte p hd'
    · rw [h'.kept p hd']
      exact h.pte p (hp.resolve_right hd')
  · intro p hp
    rw [not_or] at hp
    rw [h'.kept p hp.2, h.kept p hp.1]
  · intro p hp hu
    by_cases hd' : d' p
    · exact h'.zero p hd' (h.user ▸ hu)
    · rw [h'.page p hd' (h.user ▸ hu)]
      exact h.zero p (hp.resolve_right hd') hu
  · intro p hp hu
    rw [not_or] at hp
    rw [h'.page p hp.2 (h.user ▸ hu), h.page p hp.1 hu]

lemma Mapped.view [DecidablePred d] (h : Mapped s s' o d perm) (p : Slot) (hu : s.user p.root) :
    s'.page p = if d p then some (zeroPage perm) else s.page p := by
  split
  · next hd => exact h.zero p hd hu
  · next hd => exact h.page p hd hu

lemma Mapped.undo (h : s.Inv o) (hm : Mapped s s' o d perm) (hun : Cleared s' s'' o d)
    (hd : ∀ p, d p → s.user p.root) : Same s s'' o := by
  refine ⟨hun.inv, hun.user.trans hm.user, ?_⟩
  intro p
  by_cases hp : d p
  · rw [hun.gone p hp, (h.ptes p (hd p hp)).zero (hm.free p hp)]
  · rw [hun.kept p hp, hm.kept p hp]

end

/-! ## Shrinking -/

section

variable (h : s.Inv o) (hu : s.user t)
include h hu

lemma unmapPage_spec (a : ℕ) : wp (unmapPage t a true) s
      (fun _ s' => a < MAXVA ∧ Unmapped s s' o fun p => p = ⟨t, idx a⟩) fun _ => True := by
  refine wp_unmapPage h.kmem ?_ ?_
  · intro hva hv
    refine ⟨hva, ⟨h, rfl, ?_, fun _ _ => rfl⟩, fun _ _ _ _ => ⟨rfl, id⟩⟩
    rintro p rfl
    exact (h.ptes _ hu).zero hv
  · intro k hva hreach hv hk
    have hpte : ∀ p, (setPt { s with kmem := k } t ((s.pt t).setLeaf (idx a) .zero)).pte p =
        if p = ⟨t, idx a⟩ then .zero else s.pte p :=
      pte_store (p := ⟨t, idx a⟩) hreach _
    refine ⟨hva, ⟨h.unmap hu hreach hv hk, rfl,
      fun p hp => by rw [hpte, if_pos hp], fun p hp => by rw [hpte, if_neg hp]⟩, ?_⟩
    intro hs p hp hne
    have hpa : (s.pte p).v → (s.pte p).pa ≠ (s.pte ⟨t, idx a⟩).pa := fun hpv heq =>
      hne (h.eq_of_sole hu hp hv hpv (hs _ hu rfl) heq)
    refine ⟨page_of_dropped h hp hk rfl (by rw [hpte, if_neg hne]) hpa, ?_⟩
    intro hps hpv
    rw [hpte, if_neg hne] at hpv ⊢
    have hpage := h.refs.page_of _ (.leaf p) ⟨hp, hpv, rfl⟩
    rw [setPt_kmem, hk.other _ hpage (hpa hpv)]
    exact hps hpv

lemma uvmunmap_spec (va npages : ℕ) : wp (uvmunmap t va npages true) s (fun _ s' => Unmapped s s' o
        (InRange t va (va + pagesUpto va ((va + npages * PGSIZE) % 2 ^ 64) * PGSIZE)))
      fun _ => True := by
  rw [uvmunmap, wp_ite]
  refine ⟨fun _ => wp_throw.mpr trivial, fun hal => ?_⟩
  have hva : va % PGSIZE = 0 := not_not.mp hal
  refine (wp_forRange (fun k (s' : Vm) => Unmapped s s' o (InRange t va (va + k * PGSIZE)))
    ((Unmapped.refl h).congr not_inRange_zero) ?_).post fun _ s' hs' => ?_
  · intro k s1 _ _ h1
    refine (unmapPage_spec h1.inv (h1.user ▸ hu) _).post ?_
    rintro - s2 ⟨ha, h2⟩
    exact (h1.trans h2).congr fun p => (inRange_succ hva ha).symm
  · rwa [Nat.zero_add] at hs'

lemma uvmdealloc_inv (oldsz newsz : ℕ) :
    wp (uvmdealloc t oldsz newsz) s (fun _ s' => s'.Inv o ∧ s'.user = s.user) fun _ => True := by
  rw [uvmdealloc, wp_ite]
  refine ⟨fun _ => wp_pure.mpr ⟨h, rfl⟩, fun _ => ?_⟩
  split
  · refine (uvmunmap_spec h hu _ _).bind ?_
    rintro - s' hs'
    exact wp_pure.mpr ⟨hs'.inv, hs'.user⟩
  · exact wp_pure.mpr ⟨h, rfl⟩

end

lemma toInt32_npages (hmax : hi ≤ MAXVA) :
    (ByteArr.toInt32 ((hi - lo) / PGSIZE % 2 ^ 32) % 2 ^ 64).toNat = (hi - lo) / PGSIZE := by
  have hsmall : (hi - lo) / PGSIZE < 2 ^ 31 := by
    simp only [PGSIZE, MAXVA] at *
    omega
  rw [Nat.mod_eq_of_lt (hsmall.trans (by decide)), ByteArr.toInt32, if_pos hsmall,
    Int.emod_eq_of_lt (Int.natCast_nonneg _) (by omega), Int.toNat_natCast]

lemma uvmunmap_upto (h : s.Inv o) (hu : s.user t) (hle : lo ≤ hi)
    (hlo : lo % PGSIZE = 0) (hhi : hi % PGSIZE = 0) (hmax : hi ≤ MAXVA) :
    wp (uvmunmap t lo ((hi - lo) / PGSIZE) true) s
      (fun _ s' => Unmapped s s' o (InRange t lo hi)) fun _ => True := by
  have hend : (lo + (hi - lo) / PGSIZE * PGSIZE) % 2 ^ 64 = hi := by
    simp only [PGSIZE, MAXVA] at *
    omega
  refine (uvmunmap_spec h hu _ _).post fun _ s' hs' => ?_
  rw [hend] at hs'
  exact hs'.congr fun p => inRange_pagesUpto hlo

lemma uvmdealloc_spec (h : s.Inv o) (hu : s.user t) {oldsz newsz : ℕ} (hmax : oldsz ≤ MAXVA)
    (hlt : newsz < oldsz) :
    wp (uvmdealloc t oldsz newsz) s
      (fun r s' => r = newsz ∧ Unmapped s s' o (InRange t (pgRoundUp newsz) (pgRoundUp oldsz)))
      fun _ => True := by
  rw [uvmdealloc, if_neg (not_le.mpr hlt)]
  split
  · next hround =>
    simp only [wp_bind, toInt32_npages (pgRoundUp_le hmax)]
    refine (uvmunmap_upto h hu hround.le (pgRoundUp_mod _) (pgRoundUp_mod _)
      (pgRoundUp_le hmax)).post fun _ s' hs' => ?_
    exact wp_pure.mpr ⟨rfl, hs'⟩
  · next hround =>
    refine wp_pure.mpr ⟨rfl, (Unmapped.refl h).congr fun p => ⟨False.elim, ?_⟩⟩
    rintro ⟨-, h1, h2⟩
    omega

/-! ## Growing -/

lemma wp_map_zeroed {r : ℕ} {k : Kmem} (h : s.Inv o) (hk : s.kmem.Took k r)
    (ho : o r = 0) (hinv : Inv (update o r 1) { s with kmem := k }) (hu : s.user t)
    {perm : Perm} (hperm : ¬ (perm.w ∧ perm.cow))
    (hok : ∀ s', a < MAXVA → Mapped s s' o (fun p => p = ⟨t, idx a⟩) perm →
      (s'.pte ⟨t, idx a⟩).pa = r → Q true s')
    (hfail : ∀ s', s'.Inv (update o r 1) → s'.user = s.user → (∀ p, s'.pte p = s.pte p) →
      Q false s') :
    wp (mappages t a PGSIZE r perm) { s with kmem := k.memset r 0 } Q fun _ => True := by
  have hinv' : Inv (update o r 1) { s with kmem := k.memset r 0 } := hinv.setMem _
  refine wp_mappages_fresh hinv' ho hu hperm ?_ ?_
  · intro s' hva h' hu' hkeep hfree hpte
    have hview := page_of_fresh h hk hkeep hpte
    refine hok s' hva ⟨h', hu', fun p hp => hp ▸ hfree, fun p hp => ⟨r, by rw [hpte, if_pos hp]⟩,
      fun p hp => by rw [hpte, if_neg hp]; rfl, fun p hp hup => by rw [hview p hup, if_pos hp],
      fun p hp hup => by rw [hview p hup, if_neg hp]⟩ (by rw [hpte, if_pos rfl])
  · intro s' h' hf
    exact hfail s' h' hf.user hf.pte

/-- `uvmdealloc` after a failed round: what the rounds before have mapped is cleared. -/
lemma uvmdealloc_undo {s1 : Vm} (h : Same s s1 o) (hu : s.user t) (hle : oldsz ≤ a)
    (hold : oldsz % PGSIZE = 0) (hal : a % PGSIZE = 0) (hmax : oldsz < a → a ≤ MAXVA) :
    wp (uvmdealloc t a oldsz) s1 (fun _ s' => Cleared s s' o (InRange t oldsz a))
      fun _ => True := by
  by_cases hlt : oldsz < a
  · have ha := hmax hlt
    refine (uvmdealloc_spec h.inv (h.user ▸ hu) ha hlt).post ?_
    rintro r s' ⟨-, hs'⟩
    rw [pgRoundUp_of_aligned ha hal, pgRoundUp_of_aligned (hlt.le.trans ha) hold] at hs'
    exact ⟨hs'.inv, hs'.user.trans h.user, hs'.gone, fun p hp => (hs'.kept p hp).trans (h.pte p)⟩
  · obtain rfl : a = oldsz := by omega
    rw [uvmdealloc, if_pos le_rfl, wp_pure]
    exact ⟨h.inv, h.user, fun p hp => absurd hp not_inRange_self, fun p _ => h.pte p⟩

lemma allocPage_spec (h : s.Inv o) (hu : s.user t) {perm : Perm}
    (hperm : ¬ (perm.w ∧ perm.cow)) (hle : oldsz ≤ a) (hold : oldsz % PGSIZE = 0)
    (hal : a % PGSIZE = 0) (hmax : oldsz < a → a ≤ MAXVA) :
    wp (allocPage t oldsz a perm) s
      (fun r s' => r = none ∧ a < MAXVA ∧ Mapped s s' o (fun p => p = ⟨t, idx a⟩) perm ∨
        r = some () ∧ Cleared s s' o (InRange t oldsz a))
      fun _ => True := by
  rw [allocPage, wp_bind]
  refine wp_kalloc_inv h ?_ ?_
  · intro k hk hinv
    rw [wp_bind]
    have hsame : Same s { s with kmem := k } o := ⟨hinv, rfl, fun _ => rfl⟩
    refine (uvmdealloc_undo hsame hu hle hold hal hmax).post fun _ s' hs' => ?_
    exact wp_pure.mpr (.inr ⟨rfl, hs'⟩)
  · intro r k hk ho hinv
    rw [wp_bind, wp_memset, wp_bind]
    refine wp_map_zeroed h hk ho hinv hu hperm ?_ ?_
    · intro s' ha hs' _
      exact wp_pure.mpr (.inl ⟨rfl, ha, hs'⟩)
    · intro s' h' hu' hpte
      simp only [Bool.false_eq_true, if_false, wp_bind]
      refine wp_kfree_held h' ho ?_
      intro k' _ h''
      have hsame : Same s { s' with kmem := k' } o := ⟨h'', hu', hpte⟩
      refine (uvmdealloc_undo hsame hu hle hold hal hmax).post fun _ s' hs' => ?_
      exact wp_pure.mpr (.inr ⟨rfl, hs'⟩)

/-- The range is mapped with pages of zeros, or, for lack of memory, nothing has changed. -/
lemma uvmalloc_spec (h : s.Inv o) (hu : s.user t) (oldsz newsz : ℕ) (xw xx : Bool) :
    wp (uvmalloc t oldsz newsz xw xx) s (fun r s' => newsz < oldsz ∧ r = oldsz ∧ s' = s ∨
        oldsz ≤ newsz ∧ (r = 0 ∧ Same s s' o ∨ r = newsz ∧ (oldsz ≤ MAXVA → newsz ≤ MAXVA) ∧
          Mapped s s' o (InRange t (pgRoundUp oldsz) newsz)
            { r := true, u := true, w := xw, x := xx }))
      fun _ => True := by
  rw [uvmalloc, wp_ite]
  refine ⟨fun hlt => wp_pure.mpr (.inl ⟨hlt, rfl, rfl⟩), fun hle => ?_⟩
  rw [wp_bind]
  have hlo := pgRoundUp_mod oldsz
  refine (wp_forUntil (fun k (s' : Vm) => (0 < k → pgRoundUp oldsz + k * PGSIZE ≤ MAXVA) ∧
      Mapped s s' o (InRange t (pgRoundUp oldsz) (pgRoundUp oldsz + k * PGSIZE))
        { r := true, u := true, w := xw, x := xx })
    (Q := fun _ (s' : Vm) => Same s s' o)
    ⟨fun h0 => absurd h0 (lt_irrefl 0), (Mapped.refl h).congr not_inRange_zero⟩ ?_).post ?_
  · rintro k s1 - - ⟨hmax, h1⟩
    have hal : (pgRoundUp oldsz + k * PGSIZE) % PGSIZE = 0 := by
      rw [Nat.add_mul_mod_self_right]
      exact hlo
    have hpos : pgRoundUp oldsz < pgRoundUp oldsz + k * PGSIZE → 0 < k := by
      intro hlt
      by_contra hk
      obtain rfl : k = 0 := by omega
      rw [Nat.zero_mul, Nat.add_zero] at hlt
      exact lt_irrefl _ hlt
    refine (allocPage_spec h1.inv (h1.user ▸ hu) (by simp) (Nat.le_add_right ..) hlo hal
      fun hlt => hmax (hpos hlt)).post ?_
    rintro r s2 (⟨rfl, ha, h2⟩ | ⟨rfl, h2⟩)
    · refine ⟨fun _ => ?_, (h1.trans h2).congr fun p => (inRange_succ hlo ha).symm⟩
      simp only [PGSIZE, MAXVA] at *
      omega
    · exact h1.undo h h2 fun p hp => hp.1 ▸ hu
  · rintro (_ | _) s1 hs1
    · obtain ⟨hmax, hmapped⟩ := hs1
      rw [Nat.zero_add] at hmax hmapped
      refine wp_pure.mpr (.inr ⟨not_lt.mp hle, .inr ⟨rfl, fun hold => ?_,
        hmapped.congr fun p => inRange_pagesUpto hlo⟩⟩)
      have hround := pgRoundUp_le hold
      simp only [pagesUpto, PGSIZE, MAXVA] at *
      omega
    · exact wp_pure.mpr (.inr ⟨not_lt.mp hle, .inl ⟨rfl, hs1⟩⟩)

/-! ## Faults -/

lemma wp_ismapped {va : ℕ} : wp (ismapped t va) s Q E ↔ (MAXVA ≤ va → E .walk) ∧
      (va < MAXVA → Q (s.pte ⟨t, idx va⟩).v s) := by
  rw [ismapped, wp_bind, walk_look]
  refine and_congr_right fun _ => imp_congr_right fun _ => ?_
  by_cases hreach : (s.pt t).reach (idx va)
  · simp only [hreach, if_true, wp_bind, wp_load, wp_pure]
    rw [leaf_eq_pte (p := ⟨t, idx va⟩) hreach]
  · simp [hreach, pte, PageTable.get, Pte.zero]

/-- What `walkaddr` returns. -/
def userPa (s : Vm) (t va : ℕ) : ℕ :=
  if va < MAXVA ∧ (s.pte ⟨t, idx va⟩).v ∧ (s.pte ⟨t, idx va⟩).perm.u
    then (s.pte ⟨t, idx va⟩).pa else 0

@[simp] lemma wp_walkaddr {va : ℕ} {Q : ℕ → Vm → Prop} :
    wp (walkaddr t va) s Q E ↔ Q (s.userPa t va) s := by
  by_cases hva : MAXVA ≤ va
  · rw [walkaddr, if_pos hva, wp_pure, userPa, if_neg fun hc => absurd hc.1 (not_lt.mpr hva)]
  rw [walkaddr, if_neg hva, wp_bind, walk_look, and_iff_right fun hc => absurd hc hva,
    imp_iff_right (not_le.mp hva)]
  by_cases hreach : (s.pt t).reach (idx va)
  · simp only [hreach, if_true, wp_bind, wp_load]
    rw [leaf_eq_pte (p := ⟨t, idx va⟩) hreach, userPa]
    by_cases hvu : (s.pte ⟨t, idx va⟩).v ∧ (s.pte ⟨t, idx va⟩).perm.u
    · rw [if_pos (by simpa using hvu), if_pos ⟨not_le.mp hva, hvu⟩, wp_pure]
    · rw [if_neg (by simpa using hvu), if_neg fun hc => hvu hc.2, wp_pure]
  · have hv : (s.pte ⟨t, idx va⟩).v = false := by simp [pte, PageTable.get, hreach, Pte.zero]
    simp [hreach, userPa, hv]

/-- What a lazily allocated page is mapped with. -/
def lazyPerm : Perm := { w := true, u := true, r := true }

/-- On the process's own table `vmfault` panics only if `sz` is beyond `MAXVA`. -/
lemma vmfault_cause (h : s.Inv o) (hu : s.user p.pagetable) (pagetable va : ℕ) :
    wp (vmfault p pagetable va) s
      (fun r s' => r = 0 ∧ Same s s' o ∨ r ≠ 0 ∧ va < p.sz ∧ (s.pte ⟨pagetable, idx va⟩).v = false ∧
        Mapped s s' o (fun q => q = ⟨p.pagetable, idx va⟩) lazyPerm ∧
        (s'.pte ⟨p.pagetable, idx va⟩).pa = r)
      fun _ => pagetable = p.pagetable → MAXVA < p.sz := by
  have hstay : Same s s o := ⟨h, rfl, fun _ => rfl⟩
  rw [vmfault, wp_ite]
  refine ⟨fun _ => wp_pure.mpr (.inl ⟨rfl, hstay⟩), fun hva => ?_⟩
  rw [wp_bind, wp_ismapped, idx_pgRoundDown]
  have hround : pgRoundDown va ≤ va := Nat.div_mul_le_self ..
  refine ⟨fun hmax _ => by omega, fun hmax => ?_⟩
  rw [wp_ite]
  refine ⟨fun _ => wp_pure.mpr (.inl ⟨rfl, hstay⟩), fun hv => ?_⟩
  rw [wp_bind]
  refine wp_kalloc_inv h (fun k _ hinv => wp_pure.mpr (.inl ⟨rfl, hinv, rfl, fun _ => rfl⟩)) ?_
  intro r k hk ho hinv
  rw [wp_bind, wp_memset, wp_bind]
  have hsafe : wp (mappages p.pagetable (pgRoundDown va) PGSIZE r lazyPerm)
      { s with kmem := k.memset r 0 } (fun _ _ => True)
      fun _ => pagetable = p.pagetable → MAXVA < p.sz := by
    by_cases ht : pagetable = p.pagetable
    · subst ht
      refine mappages_returns hmax (Nat.mul_mod_left ..) ?_ r lazyPerm
      rw [idx_pgRoundDown]
      exact eq_false_of_ne_true hv
    · exact ⟨fun _ _ _ => trivial, fun _ _ ht' => absurd ht' ht⟩
  refine (wp_map_zeroed h hk ho hinv hu (by simp) ?_ ?_).errors hsafe
  · intro s' _ hs' hpa
    have hr : r ≠ 0 := by
      have hpage := hk.page.2.1
      have hend := h.kmem.kend_ge
      simp only [KERNBASE] at hend
      omega
    rw [idx_pgRoundDown] at hs' hpa
    exact wp_pure.mpr (.inr ⟨hr, not_le.mp hva, by simpa using hv, hs', hpa⟩)
  · intro s' h' hu' hpte
    simp only [Bool.false_eq_true, if_false, wp_bind]
    refine wp_kfree_held h' ho ?_
    intro k' _ h''
    exact wp_pure.mpr (.inl ⟨rfl, h'', hu', hpte⟩)

/-- A page of zeros has been mapped for `va`. -/
structure FaultedIn (p : Proc) (va : ℕ) (s s' : Vm) (o : ℕ → ℕ) : Prop where
  lt : va < p.sz
  free : (s.pte ⟨p.pagetable, idx va⟩).v = false
  mapped : Mapped s s' o (fun q => q = ⟨p.pagetable, idx va⟩) lazyPerm

lemma loadFault_cause (h : s.Inv o) (hu : s.user p.pagetable) (va : ℕ) :
    wp (loadFault p va) s (fun b s' => b = true ∧ Same s s' o ∨ b = false ∧ FaultedIn p va s s' o)
      fun _ => MAXVA < p.sz := by
  rw [loadFault, wp_bind]
  refine (vmfault_cause h hu _ _).mono ?_ fun e he => he rfl
  rintro r s' (⟨rfl, hs'⟩ | ⟨hr, hlt, hfree, hm, -⟩)
  · exact wp_pure.mpr (.inl ⟨rfl, hs'⟩)
  · exact wp_pure.mpr (.inr ⟨by simpa using hr, hlt, hfree, hm⟩)

/-- `va` has been given a copy of its page. -/
structure CopiedIn (p : Slot) (s s' : Vm) (o : ℕ → ℕ) : Prop where
  inv : s'.Inv o
  user : s'.user = s.user
  cow : (s.pte p).perm.cow
  pte : ∃ pa, s'.pte p = ⟨true, { (s.pte p).perm with w := true, cow := false }, pa⟩
  kept : ∀ q, q ≠ p → s'.pte q = s.pte q
  page : s.Sole p → ∀ q, s.user q.root → s'.page q = s.page q

lemma cowFault_spec (h : s.Inv o) {p : Slot} (hu : s.user p.root)
    (hreach : (s.pt p.root).reach p.idx) (hcow : (s.pte p).perm.cow) :
    wp (cowFault p (s.pte p)) s
      (fun b s' => b = true ∧ Same s s' o ∨ b = false ∧ CopiedIn p s s' o) E := by
  have hv := h.valid_of_cow hu hcow
  rw [cowFault, wp_bind]
  refine wp_kalloc_inv h (fun k _ hinv => wp_pure.mpr (.inl ⟨rfl, hinv, rfl, fun _ => rfl⟩)) ?_
  intro r k hk ho hinv
  simp only [wp_bind, wp_copyPage, wp_store, wp_kfree, wp_pure]
  have hinv' : Inv (update o r 1) { s with kmem := k.copyPage r (s.pte p).pa } :=
    hinv.setMem _
  have href : Refers { s with kmem := k.copyPage r (s.pte p).pa } (s.pte p).pa (.leaf p) :=
    ⟨hu, hv, rfl⟩
  obtain ⟨k0, hk0⟩ := Kmem.kfree_ok (hinv'.refs.page_of _ _ href) (hinv'.refs.pos href)
  refine ⟨?_, fun e he => by cases hk0.symm.trans he⟩
  intro k' hk'
  have hdrop := Kmem.kfree_spec hinv'.kmem hk'
  have hmove := hinv'.move ho hu hreach hv
    { (s.pte p).perm with w := true, cow := false } (by simp) hdrop
  rw [hv]
  have hpte := pte_store hreach ⟨true, { (s.pte p).perm with w := true, cow := false }, r⟩
  exact .inr ⟨trivial, hmove, rfl, hcow, ⟨r, (hpte p).trans (if_pos rfl)⟩,
    fun q hq => (hpte q).trans (if_neg hq),
    fun hsole => page_of_moved h hu hv hcow hsole hk hdrop rfl hpte⟩

lemma storeFault_cause (h : s.Inv o) (hu : s.user p.pagetable) (va : ℕ) :
    wp (storeFault p va) s (fun b s' => b = true ∧ Same s s' o ∨ b = false ∧ va < MAXVA ∧
        (CopiedIn ⟨p.pagetable, idx va⟩ s s' o ∨ FaultedIn p va s s' o))
      fun _ => MAXVA ≤ va ∨ MAXVA < p.sz := by
  rw [storeFault, wp_bind, walk_look]
  refine ⟨fun hmax => .inl hmax, fun hmax => ?_⟩
  have hlazy : wp (loadFault p va) s (fun b s' => b = true ∧ Same s s' o ∨ b = false ∧
      va < MAXVA ∧ (CopiedIn ⟨p.pagetable, idx va⟩ s s' o ∨ FaultedIn p va s s' o))
      fun _ => MAXVA ≤ va ∨ MAXVA < p.sz :=
    (loadFault_cause h hu va).mono
      (fun b s' hb => hb.imp_right fun hb => ⟨hb.1, hmax, .inr hb.2⟩) fun _ => .inr
  by_cases hreach : (s.pt p.pagetable).reach (idx va)
  · simp only [hreach, if_true, wp_bind, wp_load]
    rw [leaf_eq_pte (p := ⟨p.pagetable, idx va⟩) hreach, wp_ite]
    refine ⟨fun hcow => ?_, fun _ => hlazy⟩
    refine (cowFault_spec h hu hreach hcow).post ?_
    exact fun b s' hb => hb.imp_right fun hb => ⟨hb.1, hmax, .inl hb.2⟩
  · simp only [hreach]
    exact hlazy

/-! ## Copying -/

/-- The page at `i` has been shared, or there was none. -/
structure SharedAt (s s' : Vm) (old new : ℕ) (x : Idx) : Prop where
  keeps : s.kmem.Keeps s'.kmem
  child : (s.pte ⟨old, x⟩).v → old ≠ new → PteSim (s.pte ⟨old, x⟩) (s'.pte ⟨new, x⟩)
  none : (s.pte ⟨old, x⟩).v = false → old ≠ new → s'.pte ⟨new, x⟩ = s.pte ⟨new, x⟩

lemma copyOne_spec (h : s.Inv o) (hold : s.user old) (hnew : s.user new) (i : ℕ) :
    wp (copyOne old new i) s (fun r s' => s'.Inv o ∧ s'.user = s.user ∧ i < MAXVA ∧
        (∀ p, p ≠ ⟨old, idx i⟩ → p ≠ ⟨new, idx i⟩ → s'.pte p = s.pte p) ∧
        (old ≠ new → PteSim (s.pte ⟨old, idx i⟩) (s'.pte ⟨old, idx i⟩)) ∧
        (r = none → SharedAt s s' old new (idx i)))
      fun _ => True := by
  rw [copyOne, wp_bind, walk_look]
  refine ⟨fun _ => trivial, fun hmax => ?_⟩
  have hskip : ∀ hv : ¬ (s.pte ⟨old, idx i⟩).v = true, wp (pure none : VmProg (Option ℕ)) s
      (fun r s' => s'.Inv o ∧ s'.user = s.user ∧ i < MAXVA ∧
        (∀ p, p ≠ ⟨old, idx i⟩ → p ≠ ⟨new, idx i⟩ → s'.pte p = s.pte p) ∧
        (old ≠ new → PteSim (s.pte ⟨old, idx i⟩) (s'.pte ⟨old, idx i⟩)) ∧
        (r = none → SharedAt s s' old new (idx i))) fun _ => True := by
    intro hv
    exact wp_pure.mpr ⟨h, rfl, hmax, fun _ _ _ => rfl, fun _ => .refl _,
      fun _ => ⟨.refl _, fun hv' => absurd hv' hv, fun _ _ => rfl⟩⟩
  by_cases hreach : (s.pt old).reach (idx i)
  · simp only [hreach, if_true, wp_bind, wp_load]
    rw [leaf_eq_pte (p := ⟨old, idx i⟩) hreach]
    by_cases hv : (s.pte ⟨old, idx i⟩).v
    · simp only [hv, if_true, wp_bind, wp_store]
      have h1 := h.mark hreach hv
      have hsim := markCow_sim (s.pte ⟨old, idx i⟩)
      have hmark := pte_store (p := ⟨old, idx i⟩) hreach (markCow (s.pte ⟨old, idx i⟩))
      refine wp_mappages h1 hnew ?_ ?_
      · intro s' h' hf
        refine wp_pure.mpr ⟨h', hf.user, hmax, ?_, ?_, fun hr => by cases hr⟩
        · intro p hp _
          rw [hf.pte, hmark, if_neg hp]
        · intro _
          exact .of_eq ((hf.pte _).trans ((hmark _).trans (if_pos rfl))) hsim
      · intro s' _ h' hf hreach' hv'
        simp only [if_true, wp_bind, wp_kaddref, wp_pure]
        have hpte : ∀ p, s'.pte p =
            if p = ⟨old, idx i⟩ then markCow (s.pte ⟨old, idx i⟩) else s.pte p := by
          intro p
          rw [hf.pte, hmark]
        have hp : s'.pte ⟨old, idx i⟩ = markCow (s.pte ⟨old, idx i⟩) := by
          rw [hpte, if_pos rfl]
        have hu : s'.user = s.user := hf.user
        have hshare := h'.share (p := ⟨old, idx i⟩) (c := ⟨new, idx i⟩) (by rw [hu]; exact hold)
          (by rw [hu]; exact hnew) hreach' (by rw [hp, (markCow_pa _).2]; exact hv)
          (by rw [hp]; exact markCow_w _) hv' (markCow (s.pte ⟨old, idx i⟩)).perm (markCow_w _)
        rw [hp, (markCow_pa _).1] at hshare
        have hpte' := pte_store (p := ⟨new, idx i⟩) hreach'
          ⟨true, (markCow (s.pte ⟨old, idx i⟩)).perm, (s.pte ⟨old, idx i⟩).pa⟩
        have hkeep : s.kmem.Keeps s'.kmem := hf.keeps
        refine ⟨hshare, hu, hmax, ?_, ?_, fun _ => ⟨hkeep.trans (Kmem.kaddref_keeps ..), ?_, ?_⟩⟩
        · intro p hpo hpn
          exact (hpte' p).trans ((if_neg hpn).trans ((hpte p).trans (if_neg hpo)))
        · intro hne
          refine .of_eq ((hpte' ⟨old, idx i⟩).trans (if_neg ?_)) (.of_eq hp hsim)
          rintro ⟨⟩
          exact hne rfl
        · intro _ _
          exact .of_eq ((hpte' ⟨new, idx i⟩).trans (if_pos rfl))
            ⟨hv.symm, rfl, hsim.r, hsim.w, hsim.x, hsim.u⟩
        · intro hv0
          rw [hv] at hv0
          cases hv0
    · rw [if_neg hv]
      exact hskip hv
  · simp only [hreach]
    exact hskip (by simp [pte, PageTable.get, hreach, Pte.zero])

/-- What the parent and the child of a fork have of the pages of the parent. -/
structure ForkCopy (s s' : Vm) (o : ℕ → ℕ) (old new : ℕ) (d : Idx → Prop) : Prop where
  inv : s'.Inv o
  user : s'.user = s.user
  other : ∀ p, p.root ≠ old → p.root ≠ new → s'.pte p = s.pte p
  parent : ∀ x, PteSim (s.pte ⟨old, x⟩) (s'.pte ⟨old, x⟩)
  child : ∀ x, d x → PteSim (s.pte ⟨old, x⟩) (s'.pte ⟨new, x⟩)
  rest : ∀ x, ¬ d x → s'.pte ⟨new, x⟩ = .zero
  keeps : s.kmem.Keeps s'.kmem

lemma ForkCopy.congr {d d' : Idx → Prop} (h : ForkCopy s s' o old new d)
    (hd : ∀ x, d x ↔ d' x) : ForkCopy s s' o old new d' :=
  ⟨h.inv, h.user, h.other, h.parent, fun x hx => h.child x ((hd x).mpr hx),
    fun x hx => h.rest x (mt (hd x).mp hx), h.keeps⟩

lemma PteSim.trans {e e' e'' : Pte} (h : PteSim e e') (h' : PteSim e' e'') : PteSim e e'' :=
  ⟨h'.v.trans h.v, h'.pa.trans h.pa, h'.r.trans h.r, h'.w.trans h.w, h'.x.trans h.x, h'.u.trans h.u⟩

/-- `uvmcopy` into an empty table. If it fails, the entries of the parent still map the same pages.
-/
lemma uvmcopy_spec (h : s.Inv o) (hold : s.user old) (hnew : s.user new)
    (hne : old ≠ new) (sz : ℕ) (hempty : ∀ x, s.pte ⟨new, x⟩ = .zero) :
    wp (uvmcopy old new sz) s
      (fun r s' => r = true ∧ ForkCopy s s' o old new (fun x => vaOf x < sz) ∨
        r = false ∧ s'.Inv o ∧ s'.user = s.user ∧
          (∀ p, p.root ≠ old → p.root ≠ new → s'.pte p = s.pte p) ∧
          ∀ x, PteSim (s.pte ⟨old, x⟩) (s'.pte ⟨old, x⟩))
      fun _ => True := by
  rw [uvmcopy, wp_bind]
  refine (wp_forUntil (fun k (s' : Vm) => ForkCopy s s' o old new
      fun x => InRange new 0 (0 + k * PGSIZE) ⟨new, x⟩)
    (Q := fun _ (s' : Vm) => s'.Inv o ∧ s'.user = s.user ∧
      (∀ p, p.root ≠ old → p.root ≠ new → s'.pte p = s.pte p) ∧
      ∀ x, PteSim (s.pte ⟨old, x⟩) (s'.pte ⟨old, x⟩))
    ⟨h, rfl, fun _ _ _ => rfl, fun _ => .refl _, fun x hx => ((not_inRange_zero _).mpr hx).elim,
      fun x _ => hempty x, .refl _⟩ ?_).post ?_
  · rintro k s1 - - h1
    have hk0 : k * PGSIZE = 0 + k * PGSIZE := (Nat.zero_add _).symm
    refine (copyOne_spec h1.inv (h1.user ▸ hold) (h1.user ▸ hnew) _).post ?_
    rintro r s2 ⟨h2, hu2, hmax, hother, hparent, hshared⟩
    have hother' : ∀ p : Slot, p.root ≠ old → p.root ≠ new → s2.pte p = s.pte p := by
      intro p hpo hpn
      rw [hother p (by rintro rfl; exact hpo rfl) (by rintro rfl; exact hpn rfl),
        h1.other p hpo hpn]
    have hparent' : ∀ x, PteSim (s.pte ⟨old, x⟩) (s2.pte ⟨old, x⟩) := by
      intro x
      refine (h1.parent x).trans ?_
      by_cases hx : x = idx (k * PGSIZE)
      · subst hx
        exact hparent hne
      · refine .of_eq (hother ⟨old, x⟩ (by simpa using hx) ?_) (.refl _)
        rintro ⟨⟩
        exact hne rfl
    rcases r with _ | b
    · obtain ⟨hkeep, hchild, hnone⟩ := hshared rfl
      have hpages : ForkCopy s s2 o old new fun x =>
          InRange new 0 (0 + k * PGSIZE) ⟨new, x⟩ ∨ x = idx (k * PGSIZE) := by
        refine ⟨h2, hu2.trans h1.user, hother', hparent', ?_, ?_, h1.keeps.trans hkeep⟩
        · intro x hx
          by_cases hxk : x = idx (k * PGSIZE)
          · subst hxk
            by_cases hv : (s1.pte ⟨old, idx (k * PGSIZE)⟩).v
            · exact (h1.parent _).trans (hchild hv hne)
            · -- an entry of the parent that maps nothing leaves the child's entry empty
              have hv0 : (s1.pte ⟨old, idx (k * PGSIZE)⟩).v = false := by simpa using hv
              refine .of_eq (hnone hv0 hne) ?_
              by_cases hin : InRange new 0 (0 + k * PGSIZE) ⟨new, idx (k * PGSIZE)⟩
              · exact h1.child _ hin
              · rw [h1.rest _ hin, (h.ptes ⟨old, _⟩ hold).zero ((h1.parent _).v ▸ hv0)]
                exact .refl _
          · refine .of_eq (hother ⟨new, x⟩ (by rintro ⟨⟩; exact hne rfl) (by simpa using hxk)) ?_
            exact h1.child x (hx.resolve_right hxk)
        · intro x hx
          rw [not_or] at hx
          rw [hother ⟨new, x⟩ (by rintro ⟨⟩; exact hne rfl) (by simpa using hx.2)]
          exact h1.rest x hx.1
      refine hpages.congr fun x => ?_
      rw [inRange_succ (Nat.zero_mod _) (by omega), ← hk0]
      simp
    · exact ⟨h2, hu2.trans h1.user, hother', hparent'⟩
  · rintro (_ | i) s1 hs1
    · refine wp_pure.mpr (.inl ⟨rfl, ForkCopy.congr hs1 fun x => ?_⟩)
      rw [Nat.zero_add (pagesUpto 0 sz), inRange_pagesUpto (Nat.zero_mod _)]
      simp [InRange]
    · obtain ⟨h1, hu1, hother, hparent⟩ := hs1
      rw [wp_bind]
      refine (uvmunmap_spec h1 (hu1 ▸ hnew) _ _).post fun _ s2 h2 => ?_
      refine wp_pure.mpr (.inr ⟨rfl, h2.inv, h2.user.trans hu1, ?_, ?_⟩)
      · intro p hpo hpn
        rw [h2.kept p fun hd => hpn hd.1, hother p hpo hpn]
      · intro x
        exact .of_eq (h2.kept _ fun hd => hne hd.1) (hparent x)

lemma ForkCopy.page {d : Idx → Prop} [DecidablePred d] (hc : ForkCopy s s' o old new d)
    (h : s.Inv o) (hold : s.user old) (hempty : ∀ x, s.pte ⟨new, x⟩ = .zero) (p : Slot)
    (hu : s.user p.root) :
    s'.page p = if p.root = new ∧ d p.idx then s.page ⟨old, p.idx⟩ else s.page p := by
  obtain ⟨t, x⟩ := p
  split
  · next hp =>
    obtain ⟨rfl, hd⟩ := hp
    exact page_of_sim h hold (hc.child x hd) hc.keeps.mem
  · next hp =>
    by_cases hnew : t = new
    · subst hnew
      have hd : ¬ d x := fun hd => hp ⟨rfl, hd⟩
      rw [page_of_zero (hc.rest x hd), page_of_zero (hempty x)]
    · by_cases ho : t = old
      · subst ho
        exact page_of_sim h hu (hc.parent x) hc.keeps.mem
      · exact page_of_keeps h hu (hc.other ⟨t, x⟩ ho hnew) hc.keeps.mem

lemma uvmcopy_inv (h : s.Inv o) (hold : s.user old) (hnew : s.user new) (sz : ℕ) :
    wp (uvmcopy old new sz) s (fun _ s' => s'.Inv o ∧ s'.user = s.user) fun _ => True := by
  rw [uvmcopy, wp_bind]
  refine (wp_forUntil (fun _ (s' : Vm) => s'.Inv o ∧ s'.user = s.user)
    (Q := fun _ (s' : Vm) => s'.Inv o ∧ s'.user = s.user) ⟨h, rfl⟩ ?_).post ?_
  · rintro j s' - - ⟨h', hu'⟩
    refine (copyOne_spec h' (hu' ▸ hold) (hu' ▸ hnew) _).post ?_
    rintro (_ | _) s'' ⟨h'', hu'', -⟩
    · exact ⟨h'', hu''.trans hu'⟩
    · exact ⟨h'', hu''.trans hu'⟩
  · rintro (_ | i) s' ⟨h', hu'⟩
    · exact wp_pure.mpr ⟨h', hu'⟩
    · rw [wp_bind]
      refine (uvmunmap_spec h' (hu' ▸ hnew) _ _).post fun _ s'' hs'' => ?_
      exact wp_pure.mpr ⟨hs''.inv, hs''.user.trans hu'⟩

/-! ## Creating and tearing down -/

/-- `t` is the root of a new empty table. -/
structure Created (s s' : Vm) (o : ℕ → ℕ) (t : ℕ) : Prop where
  inv : s'.Inv o
  fresh : s.user t = false
  held : o t = 0
  user : s'.user = update s.user t true
  pte : ∀ p, s'.pte p = if p.root = t then .zero else s.pte p
  page : ∀ p, s'.user p.root → s'.page p = if p.root = t then none else s.page p

lemma uvmcreate_spec (h : s.Inv o) : wp uvmcreate s
      (fun r s' => r = none ∧ Same s s' o ∨ ∃ t, r = some t ∧ Created s s' o t) fun _ => True := by
  rw [uvmcreate, wp_bind]
  refine wp_kalloc_inv h (fun k _ hinv => wp_pure.mpr (.inl ⟨rfl, hinv, rfl, fun _ => rfl⟩)) ?_
  intro r k hk ho hinv
  simp only [wp_bind, wp_memset, wp_modify, wp_pure]
  refine .inr ⟨r, rfl, Inv.addRoot (hinv.setMem _) ho,
    hinv.root_free, ho, rfl, fun p => addRoot_pte p, ?_⟩
  intro p hp
  split
  · next hpr => exact page_of_zero ((addRoot_pte p).trans (if_pos hpr))
  · next hpr =>
    have hu : s.user p.root := by simpa [addRoot, hpr] using hp
    refine page_of_keeps h hu ?_ (hk.keeps _ fun a ha => if_neg ha).mem
    rw [addRoot_pte, if_neg hpr]
    rfl

lemma ofNat_val (x : Fin 512) : Fin.ofNat 512 x.val = x := by
  ext
  simp

lemma lt_succ_cases {x : Fin 512} {j : ℕ} (h : x.val < j + 1) :
    x.val < j ∨ x = Fin.ofNat 512 j := by
  by_cases hlt : x.val < j
  · exact .inl hlt
  · right
    rw [← ofNat_val x]
    congr 1
    omega

lemma freewalkLow_spec (h : s.kmem.Ok) (t : ℕ) (ij : Fin 512 × Fin 512) (page : ℕ) :
    wp (freewalkLow t ij page) s
      (fun _ s' => ∃ k, s.kmem.Dropped k page ∧ s' = { s with kmem := k } ∧
        ∀ x, ((s.pt t).leaf (ij.1, ij.2, x)).v = false) fun _ => True := by
  rw [freewalkLow, wp_bind]
  refine (wp_forRange (fun k (s' : Vm) => s' = s ∧ ∀ x : Fin 512, x.val < k →
    ((s.pt t).leaf (ij.1, ij.2, x)).v = false) ⟨rfl, fun x hx => absurd hx (by omega)⟩ ?_).post ?_
  · rintro k s' - - ⟨rfl, hx⟩
    rw [wp_bind, wp_get, wp_ite]
    refine ⟨fun _ => wp_throw.mpr trivial, fun hv => wp_pure.mpr ⟨rfl, ?_⟩⟩
    intro x hxk
    rcases lt_succ_cases hxk with hlt | rfl
    · exact hx x hlt
    · simpa using hv
  · rintro - s' ⟨rfl, hx⟩
    rw [wp_kfree]
    refine ⟨?_, fun _ _ => trivial⟩
    intro k hk
    exact ⟨k, Kmem.kfree_spec h hk, rfl, fun x => hx x (by omega)⟩

lemma freewalkMid_spec (h : s.Inv o) (hu : s.user t) {i : Fin 512} {page : ℕ}
    (hmid : (s.pt t).mid i = some page) :
    wp (freewalkMid t i page) s
      (fun _ s' => ∃ (s1 : Vm) (k : Kmem), Quiet s s1 o ∧ (s1.pt t).mid = (s.pt t).mid ∧
        (∀ j, (s1.pt t).low (i, j) = none) ∧ s1.kmem.Dropped k page ∧ s' = { s1 with kmem := k })
      fun _ => True := by
  rw [freewalkMid, wp_bind]
  refine (wp_forRange (fun j (s1 : Vm) => Quiet s s1 o ∧ (s1.pt t).mid = (s.pt t).mid ∧
    ∀ x : Fin 512, x.val < j → (s1.pt t).low (i, x) = none)
    ⟨.refl h, rfl, fun x hx => absurd hx (by omega)⟩ ?_).post ?_
  · rintro j s1 - hj ⟨h1, hm1, hx1⟩
    rw [wp_bind, wp_get]
    cases hl : (s1.pt t).low (i, Fin.ofNat 512 j) with
    | none =>
      refine wp_pure.mpr ⟨h1, hm1, ?_⟩
      intro x hx
      rcases lt_succ_cases hx with hlt | rfl
      · exact hx1 x hlt
      · exact hl
    | some child =>
      simp only [wp_bind]
      refine (freewalkLow_spec h1.inv.kmem t _ child).post ?_
      rintro - s2 ⟨k, hk, rfl, hleaf⟩
      rw [wp_modify]
      obtain ⟨hcut, hpte, hview⟩ :=
        h1.inv.cutLow (h1.user ▸ hu) (by rw [hm1, hmid]; rfl) hl hleaf hk
      refine ⟨h1.trans ⟨⟨hcut, rfl, hpte⟩, hview⟩, ?_, ?_⟩
      · rw [setPt_pt_self]
        exact hm1
      · intro x hx
        rw [setPt_pt_self]
        by_cases hxj : x = Fin.ofNat 512 j
        · rw [hxj]
          exact update_self ..
        · have hne : (i, x) ≠ (i, Fin.ofNat 512 j) := by simpa using hxj
          exact (update_of_ne hne ..).trans (hx1 x ((lt_succ_cases hx).resolve_right hxj))
  · rintro - s1 ⟨h1, hm1, hx1⟩
    rw [wp_kfree]
    refine ⟨?_, fun _ _ => trivial⟩
    intro k hk
    exact ⟨s1, k, h1, hm1, fun j => hx1 j (by omega), Kmem.kfree_spec h1.inv.kmem hk, rfl⟩

/-- The table `t` is gone. -/
structure Freed (s s' : Vm) (o : ℕ → ℕ) (t : ℕ) : Prop where
  inv : s'.Inv o
  user : s'.user = update s.user t false
  pte : ∀ p, p.root ≠ t → s'.pte p = s.pte p

lemma freewalk_spec (h : s.Inv o) (hu : s.user t) :
    wp (freewalk t) s (fun _ s' => Freed s s' o t ∧ ∀ p, s'.user p.root → s'.page p = s.page p)
      fun _ => True := by
  rw [freewalk, wp_bind]
  refine (wp_forRange (fun i (s1 : Vm) => Quiet s s1 o ∧
    ∀ x : Fin 512, x.val < i → (s1.pt t).mid x = none)
    ⟨.refl h, fun x hx => absurd hx (by omega)⟩ ?_).post ?_
  · rintro i s1 - hi ⟨h1, hx1⟩
    rw [wp_bind, wp_get]
    cases hm : (s1.pt t).mid (Fin.ofNat 512 i) with
    | none =>
      refine wp_pure.mpr ⟨h1, ?_⟩
      intro x hx
      rcases lt_succ_cases hx with hlt | rfl
      · exact hx1 x hlt
      · exact hm
    | some child =>
      simp only [wp_bind]
      refine (freewalkMid_spec h1.inv (h1.user ▸ hu) hm).post ?_
      rintro - s' ⟨s2, k, h2, hm2, hl2, hk, rfl⟩
      rw [wp_modify]
      have h12 := h1.trans h2
      obtain ⟨hcut, hpte, hview⟩ := h2.inv.cutMid (h12.user ▸ hu) (by rw [hm2]; exact hm) hl2 hk
      refine ⟨h12.trans ⟨⟨hcut, rfl, hpte⟩, hview⟩, ?_⟩
      intro x hx
      rw [setPt_pt_self]
      by_cases hxi : x = Fin.ofNat 512 i
      · rw [hxi]
        exact update_self ..
      · refine (update_of_ne hxi ..).trans ?_
        rw [hm2]
        exact hx1 x ((lt_succ_cases hx).resolve_right hxi)
  · rintro - s1 ⟨h1, hx1⟩
    rw [wp_bind, wp_kfree]
    refine ⟨?_, fun _ _ => trivial⟩
    intro k hk
    rw [wp_modify]
    obtain ⟨hdrop, hpte, hview⟩ := h1.inv.dropRoot (h1.user ▸ hu) (fun i => hx1 i (by omega))
      (Kmem.kfree_spec h1.inv.kmem hk)
    refine ⟨⟨hdrop, by simp only [Vm.dropRoot, h1.user], fun p _ => (hpte p).trans (h1.pte p)⟩, ?_⟩
    intro p hp
    have hu' : s.user p.root := by
      by_cases hpt : p.root = t
      · simp [Vm.dropRoot, hpt] at hp
      · simpa [Vm.dropRoot, hpt, h1.user] using hp
    rw [hview p hp, h1.page p hu']

/-- What is seen after `uvmfree` needs that nobody else had the pages mapped. -/
lemma uvmfree_spec (h : s.Inv o) (hu : s.user t) (sz : ℕ) : wp (uvmfree t sz) s
      (fun _ s' => Freed s s' o t ∧ (sz ≤ MAXVA → (∀ p, InRange t 0 (pgRoundUp sz) p → s.Sole p) →
        ∀ p, s'.user p.root → s'.page p = s.page p))
      fun _ => True := by
  rw [uvmfree]
  split
  · rw [wp_bind]
    refine (uvmunmap_spec h hu _ _).post fun _ s1 h₁ => ?_
    refine (freewalk_spec h₁.inv (h₁.user ▸ hu)).post ?_
    rintro - s2 ⟨h₂, hpage⟩
    have huser : s2.user = update s.user t false := by rw [h₂.user, h₁.user]
    refine ⟨⟨h₂.inv, huser, fun p hp => ?_⟩, ?_⟩
    · rw [h₂.pte p hp, h₁.kept p fun hd => hp hd.1]
    · intro hmax hsole p hp
      have hpt : p.root ≠ t := by
        intro hpt
        rw [huser, hpt, update_self] at hp
        cases hp
      have hpu : s.user p.root := by rwa [huser, update_of_ne hpt] at hp
      have hend : (0 + pgRoundUp sz / PGSIZE * PGSIZE) % 2 ^ 64 = pgRoundUp sz := by
        have h1 := pgRoundUp_mod sz
        have h2 := pgRoundUp_le hmax
        simp only [PGSIZE, MAXVA] at *
        omega
      rw [hend] at h₁
      have h1' := h₁.congr fun p => inRange_pagesUpto (Nat.zero_mod _)
      rw [hpage p hp, (h1'.sole (fun q _ hq => hsole q hq) p hpu fun hd => hpt hd.1).1]
  · refine (freewalk_spec h hu).post ?_
    rintro - s' ⟨hf, hpage⟩
    exact ⟨hf, fun _ _ => hpage⟩

end Xv6.Vm
