import Xv6.Mem.Vm

/-!
# The allocator at its limits

Two places where `kalloc.c` leaves its table of reference counts or its pages.

**Start.**  `kinit` gives all memory after the kernel to the allocator, through `freerange`. The
`for` of `freerange` has no braces, so its body is the store of the reference count alone and
`kfree` runs once, after the loop, on the address the loop stopped at. That address is `PHYSTOP`,
which `kfree` refuses: `kinit` panics for every end of the kernel.

**Exhaustion.**  `kalloc` stores a reference count even when it has no page. The index is then that
of address 0, beyond the array, and the store faults; this is the only case in which a call leaves
the array (`within_table_iff`).
-/

namespace Xv6

open List Function

/-- The number of entries of `ref.refcnt`. -/
abbrev NREF : ℕ := (PHYSTOP - KERNBASE) / PGSIZE

namespace Kmem

/-! ## `kinit` -/

/-- The loop of `freerange`, and the address it stops at. -/
def freerangeLoop (s : Kmem) (paEnd p : ℕ) : Kmem × ℕ :=
  if p + PGSIZE ≤ paEnd then (s.setRef p).freerangeLoop paEnd (p + PGSIZE) else (s, p)
termination_by paEnd - p
decreasing_by
  simp only [PGSIZE] at *
  omega

def freerange (s : Kmem) (paStart paEnd : ℕ) : Except KPanic Kmem :=
  let (s, p) := s.freerangeLoop paEnd (pgRoundUp paStart)
  s.kfree p

/-- `kinit`; the names of the locks are left out. -/
def kinit (s : Kmem) : Except KPanic Kmem := s.freerange s.kend PHYSTOP

/-- What `kinit` is for: the free lists hold every page after the kernel once and nothing else, and
no page has a reference. -/
structure Initialised (s : Kmem) : Prop where
  once : ∀ p, p % PGSIZE = 0 → pgRoundUp s.kend ≤ p → p + PGSIZE ≤ PHYSTOP →
    s.listed p = 1 ∧ s.kref p = 0
  only : ∀ p, s.Listed p → p % PGSIZE = 0 ∧ pgRoundUp s.kend ≤ p ∧ p + PGSIZE ≤ PHYSTOP

/-- The loop stores reference counts from `p` to `paEnd`, and stops there. -/
structure Counted (s s' : Kmem) (p paEnd : ℕ) : Prop where
  kend : s'.kend = s.kend
  freelist : s'.freelist = s.freelist
  count : ∀ q, p ≤ q → q < paEnd → q % PGSIZE = 0 → s'.kref q = 1

variable {s : Kmem}

lemma setRef_kref_of_one {q : ℕ} (h : s.kref q = 1) (p : ℕ) : (s.setRef p).kref q = 1 := by
  simp only [kref, setRef]
  by_cases hq : refIdx q = refIdx p
  · rw [hq, update_self]
  · rw [update_of_ne hq]
    exact h

lemma freerangeLoop_one (s : Kmem) (paEnd p : ℕ) {q : ℕ} (h : s.kref q = 1) :
    (s.freerangeLoop paEnd p).1.kref q = 1 := by
  fun_induction freerangeLoop s paEnd p with
  | case1 s p hle ih => exact ih (setRef_kref_of_one h p)
  | case2 s p hle => exact h

lemma freerangeLoop_spec (s : Kmem) (paEnd : ℕ) (hend : paEnd % PGSIZE = 0) (p : ℕ)
    (hp : p % PGSIZE = 0) (hle : p ≤ paEnd) :
    (s.freerangeLoop paEnd p).2 = paEnd ∧ s.Counted (s.freerangeLoop paEnd p).1 p paEnd := by
  fun_induction freerangeLoop s paEnd p with
  | case1 s p hlt ih =>
    obtain ⟨hstop, hc⟩ := ih (by simp only [PGSIZE] at *; omega) hlt
    refine ⟨hstop, hc.kend, hc.freelist, ?_⟩
    intro q hlo hhi hal
    by_cases hq : q = p
    · -- The entry of this round; the later rounds keep it.
      subst hq
      exact freerangeLoop_one _ _ _ (update_self ..)
    · exact hc.count q (by simp only [PGSIZE] at *; omega) hhi hal
  | case2 s p hlt =>
    have hp : p = paEnd := by
      simp only [PGSIZE] at *
      omega
    subst hp
    exact ⟨rfl, rfl, rfl, fun q hlo hhi => absurd hlo (not_le.mpr hhi)⟩

lemma kfree_phystop (s : Kmem) : s.kfree PHYSTOP = .error .kfreeAddr := by
  rw [kfree, if_pos]
  rintro ⟨-, -, hlt⟩
  exact lt_irrefl _ hlt

lemma pgRoundUp_le_phystop {a : ℕ} (h : a < PHYSTOP) : pgRoundUp a ≤ PHYSTOP := by
  simp only [pgRoundUp, PGSIZE, PHYSTOP, KERNBASE] at *
  omega

lemma kinit_loop (h : s.kend < PHYSTOP) : (s.freerangeLoop PHYSTOP (pgRoundUp s.kend)).2 = PHYSTOP ∧
      s.Counted (s.freerangeLoop PHYSTOP (pgRoundUp s.kend)).1 (pgRoundUp s.kend) PHYSTOP :=
  freerangeLoop_spec s PHYSTOP (by decide) (pgRoundUp s.kend) (Nat.mul_mod_left ..)
    (pgRoundUp_le_phystop h)

lemma kinit_eq (h : s.kend < PHYSTOP) : s.kinit = .error .kfreeAddr := by
  simp only [kinit, freerange, (kinit_loop h).1]
  exact kfree_phystop _

/-- **`kinit` never returns**: wherever the kernel ends, it panics in `kfree`. -/
theorem kinit_panics (s : Kmem) (hhi : s.kend < PHYSTOP) :
    s.kinit = .error .kfreeAddr ∧ ¬ ∃ s', s.kinit = .ok s' ∧ s'.Initialised := by
  refine ⟨kinit_eq hhi, ?_⟩
  rintro ⟨s', hs', -⟩
  rw [kinit_eq hhi] at hs'
  cases hs'

/-- Memory as the boot loader leaves it, for a kernel of 136 KB. -/
def bootMem : Kmem where
  kend := 0x80022000
  freelist := fun _ => []
  refcnt := fun _ => 0
  mem := fun _ => 0
  sched := fun _ => 0
  tick := 0

theorem kinit_panics_at_boot :
    KERNBASE ≤ bootMem.kend ∧ bootMem.kend < PHYSTOP ∧ bootMem.kinit = .error .kfreeAddr :=
  ⟨by decide, by decide, (kinit_panics bootMem (by decide)).1⟩

/-- When `kinit` panics, no page is on a free list and the count of every page is one. -/
lemma freerangeLoop_frees_nothing (h : s.kend < PHYSTOP) (hempty : ∀ pa, ¬ s.Listed pa) :
    ∃ s', s.freerangeLoop PHYSTOP (pgRoundUp s.kend) = (s', PHYSTOP) ∧ (∀ pa, ¬ s'.Listed pa) ∧
      ∀ pa, pgRoundUp s.kend ≤ pa → pa < PHYSTOP → pa % PGSIZE = 0 → s'.kref pa = 1 := by
  obtain ⟨hstop, hc⟩ := kinit_loop h
  refine ⟨_, Prod.ext rfl hstop, ?_, hc.count⟩
  rintro pa ⟨c, hmem⟩
  rw [hc.freelist] at hmem
  exact hempty pa ⟨c, hmem⟩

theorem kinit_of_boot_frees_nothing : bootMem.kinit = .error .kfreeAddr ∧
    ∃ s, bootMem.freerangeLoop PHYSTOP (pgRoundUp bootMem.kend) = (s, PHYSTOP) ∧
      (∀ pa, ¬ s.Listed pa) ∧
      ∀ pa, pgRoundUp bootMem.kend ≤ pa → pa < PHYSTOP → pa % PGSIZE = 0 → s.kref pa = 1 :=
  ⟨kinit_eq (by decide), freerangeLoop_frees_nothing (by decide) fun _ ⟨_, h⟩ => not_mem_nil h⟩

/-! ## The indices of a call -/

/-- The calls of the allocator. -/
inductive RefCall where
  | kalloc
  | kfree (pa : ℕ)
  | kaddref (pa : ℕ)
  | kref (pa : ℕ)

/-- The state after a call, if it returns. -/
def after (s : Kmem) : RefCall → Option Kmem
  | .kalloc => some s.kalloc.2
  | .kfree pa => (s.kfree pa).toOption
  | .kaddref pa => some (s.kaddref pa)
  | .kref _ => some s

/-- The indices into `ref.refcnt` that a call uses. `kfree` panics on an address that is not a page
before it uses one. -/
def indices (s : Kmem) : RefCall → List ℕ
  | .kalloc => [refIdx (s.kalloc.1.getD 0)]
  | .kfree pa => if s.IsPage pa then [refIdx pa] else []
  | .kaddref pa | .kref pa => [refIdx pa]

lemma refcnt_of_not_index {s' : Kmem} {a : RefCall} (h : s.after a = some s') {i : ℕ}
    (hi : i ∉ s.indices a) : s'.refcnt i = s.refcnt i := by
  cases a with
  | kalloc =>
    have hfind := s.findPage_spec
    simp only [after, Option.some.injEq] at h
    subst h
    rcases hf : s.findPage with ⟨_ | r, s'⟩
    all_goals
      simp only [hf] at hfind
      simp only [indices, kalloc, hf, mem_singleton] at hi
      simp only [kalloc, hf, setRef, memset]
      rw [update_of_ne hi, hfind.refcnt]
  | kfree pa =>
    simp only [after, kfree] at h
    split at h
    · cases h
    · next hp =>
      rw [not_not] at hp
      simp only [indices, if_pos hp, mem_singleton] at hi
      simp only [decRef] at h
      split at h
      · cases h
      · simp only [update_self] at h
        by_cases hlast : s.refcnt (refIdx pa) - 1 > 0
        · simp only [memset, hlast, not_true_eq_false, decide_false] at h
          cases h
          exact update_of_ne hi _ _
        · simp only [memset, hlast, not_false_eq_true, decide_true] at h
          cases h
          exact update_of_ne hi _ _
  | kaddref pa =>
    simp only [after, Option.some.injEq] at h
    simp only [indices, mem_singleton] at hi
    subst h
    exact update_of_ne hi _ _
  | kref pa =>
    simp only [after, Option.some.injEq] at h
    rw [h]

lemma refIdx_lt (hk : KERNBASE ≤ s.kend) {pa : ℕ} (h : s.IsPage pa) : refIdx pa < NREF := by
  rw [refIdx_of_page hk h]
  obtain ⟨-, h1, h2⟩ := h
  simp only [NREF, PHYSTOP, KERNBASE, PGSIZE] at *
  omega

lemma refIdx_zero_ge : NREF ≤ refIdx 0 := by decide

lemma kstealFrom_eq_none {cs : List (Fin NCPU)} :
    (s.kstealFrom cs).1 = none ↔ ∀ c ∈ cs, s.freelist c = [] := by
  induction cs with
  | nil => simp only [kstealFrom, not_mem_nil, false_imp_iff, implies_true]
  | cons c cs ih =>
    rcases hc : s.freelist c with _ | ⟨r, rest⟩
    · simp only [kstealFrom, popFree, hc, ih, forall_mem_cons, true_and]
    · simp only [kstealFrom, popFree, hc, forall_mem_cons, reduceCtorEq, false_and]

lemma findPage_eq_none : s.findPage.1 = none ↔ ∀ c, s.freelist c = [] := by
  have hcpu : s.cpuid.2.freelist = s.freelist := rfl
  rcases hc : s.freelist s.cpuid.1 with _ | ⟨r, rest⟩
  · simp only [findPage, popFree, hcpu, hc, ksteal, kstealFrom_eq_none]
    constructor
    · intro h c
      rcases mem_victims s.cpuid.1 c with rfl | hv
      · exact hc
      · exact h c hv
    · intro h c _
      exact h c
  · simp only [findPage, popFree, hcpu, hc, reduceCtorEq, false_iff]
    intro h
    rw [h] at hc
    cases hc

lemma kalloc_fst (s : Kmem) : s.kalloc.1 = s.findPage.1 := rfl

lemma kalloc_of_empty (h : ∀ c, s.freelist c = []) :
    s.kalloc.1 = none ∧ s.kalloc.2.freelist = s.freelist := by
  have hnone : s.kalloc.1 = none := findPage_eq_none.mpr h
  have hfind := s.findPage_spec
  refine ⟨hnone, ?_⟩
  rw [kalloc_fst] at hnone
  rcases hf : s.findPage with ⟨_ | r, s'⟩
  · simp only [hf] at hfind
    simp only [kalloc, hf, setRef, hfind.freelist]
  · rw [hf] at hnone
    cases hnone

/-- A call as it should be: it stays within the array, and a `kalloc` without a page changes
nothing. -/
structure WithinTable (s : Kmem) (a : RefCall) : Prop where
  bound : ∀ i ∈ s.indices a, i < NREF
  failed : a = .kalloc → (∀ c, s.freelist c = []) →
    s.kalloc.1 = none ∧ s.kalloc.2.freelist = s.freelist ∧ s.kalloc.2.refcnt = s.refcnt

/-- The argument of a call is a page after the kernel. -/
def RefCall.Arg (s : Kmem) : RefCall → Prop
  | .kalloc => True
  | .kfree pa | .kaddref pa | .kref pa => s.IsPage pa

/-- **A call leaves the table of reference counts just when it is a `kalloc` and every free list is
empty.**  The address it then stores to is not mapped: the kernel faults there. -/
theorem within_table_iff (s : Kmem) (hk : KERNBASE ≤ s.kend)
    (hlisted : ∀ pa, s.Listed pa → s.IsPage pa) (a : RefCall) (ha : a.Arg s) :
    s.WithinTable a ↔ a = .kalloc → ∃ c, s.freelist c ≠ [] := by
  constructor
  · rintro hw rfl
    by_contra hne
    push Not at hne
    have hbound := hw.bound (refIdx 0) (by
      simp only [indices, (kalloc_of_empty hne).1, Option.getD_none, mem_singleton])
    exact absurd hbound (not_lt.mpr refIdx_zero_ge)
  · intro hne
    refine ⟨?_, ?_⟩
    · intro i hi
      cases a with
      | kalloc =>
        obtain ⟨c, hc⟩ := hne rfl
        have hl := s.kalloc_listed
        rcases hr : s.kalloc with ⟨_ | r, s'⟩
        · have hnone : s.findPage.1 = none := by rw [← kalloc_fst, hr]
          exact absurd (findPage_eq_none.mp hnone c) hc
        · simp only [hr] at hl
          simp only [indices, hr, Option.getD_some, mem_singleton] at hi
          rw [hi]
          exact refIdx_lt hk (hlisted r hl.1)
      | kfree pa =>
        simp only [indices, if_pos (show s.IsPage pa from ha), mem_singleton] at hi
        rw [hi]
        exact refIdx_lt hk ha
      | kaddref pa | kref pa =>
        simp only [indices, mem_singleton] at hi
        rw [hi]
        exact refIdx_lt hk ha
    · intro heq hempty
      obtain ⟨c, hc⟩ := hne heq
      exact absurd (hempty c) hc

/-- Memory with one free page, on the list of CPU 3. -/
def oneFreePage : Kmem :=
  { bootMem with freelist := fun c => if c = 3 then [0x80022000] else [] }

/-- `kalloc` on CPU 0 takes it and stays within the table. -/
theorem within_table_sample : oneFreePage.kalloc.1 = some 0x80022000 ∧
    oneFreePage.WithinTable .kalloc := by
  refine ⟨by decide, (within_table_iff oneFreePage (by decide) ?_ .kalloc trivial).mpr
    fun _ => ⟨3, by decide⟩⟩
  rintro pa ⟨c, hc⟩
  by_cases h3 : c = 3
  · simp only [oneFreePage, h3, if_true, mem_singleton] at hc
    subst hc
    exact ⟨by decide, by decide, by decide⟩
  · simp only [oneFreePage, if_neg h3, not_mem_nil] at hc

/-- Without a free page `kalloc` stores to entry `2 ^ 52 - 2 ^ 19` of a table of `2 ^ 15`. -/
theorem kalloc_stores_beyond_table : (∀ c, bootMem.freelist c = []) ∧
    bootMem.findPage.1 = none ∧ bootMem.indices .kalloc = [2 ^ 52 - 2 ^ 19] ∧ NREF = 2 ^ 15 ∧
    bootMem.refcnt (2 ^ 52 - 2 ^ 19) = 0 ∧ bootMem.kalloc.2.refcnt (2 ^ 52 - 2 ^ 19) = 1 := by
  refine ⟨fun _ => rfl, by decide, by decide, by decide, rfl, by decide⟩

end Kmem

end Xv6
