import Xv6.Lib.Count
import Xv6.Param

/-!
# The physical page allocator

`kalloc.c` keeps one free list for each CPU and a table of reference counts. The model has one
definition for each section that a lock protects (`popFree`, `setRef`, `decRef`, `pushFree`) and
composes `ksteal`, `kalloc`, `kfree` and `kaddref` from them; the interleaved allocator of
`Xv6.Mem.KallocConc` uses the same sections one at a time.

A page is given by its physical address. A free list is a list of addresses: the `next` pointers
live in the free pages themselves, and nothing but the allocator touches a free page. Which CPU the
code is on when it asks is the scheduler's choice, so `cpuid` reads an arbitrary schedule.

`refcnt` is indexed as in the source, by `(pa - KERNBASE) / PGSIZE` in 64-bit arithmetic, and is
defined beyond the array so that the store `kalloc` makes with a null `r` can be written down. A
count is an `int`; a reference is a page-table entry in the 128 MB of RAM, so it stays below `2 ^
24`.
-/

namespace Xv6

open Function Finset

/-- `kmem`, the counts and the memory. -/
structure Kmem where
  /-- First address after the kernel, `end` in the source. -/
  kend : ℕ
  freelist : Fin NCPU → List ℕ
  refcnt : ℕ → ℤ
  /-- Physical memory, byte by byte. -/
  mem : ℕ → UInt8
  /-- The CPU of the `tick`-th call of `cpuid`. -/
  sched : ℕ → Fin NCPU
  tick : ℕ
  /-- `kalloc` has made its store for a page it did not have: the kernel has faulted. -/
  fault : Bool := false

/-- The index `((uint64)pa - KERNBASE) / PGSIZE` into `ref.refcnt`. -/
def refIdx (pa : ℕ) : ℕ := (pa + (2 ^ 64 - KERNBASE)) % 2 ^ 64 / PGSIZE

/-- The two panics of `kfree`. -/
inductive KPanic where
  | kfreeAddr
  | kfreeRef
  deriving DecidableEq

namespace Kmem

/-- The addresses `kfree` accepts. -/
def IsPage (s : Kmem) (pa : ℕ) : Prop := pa % PGSIZE = 0 ∧ s.kend ≤ pa ∧ pa < PHYSTOP

instance (s : Kmem) (pa : ℕ) : Decidable (s.IsPage pa) := inferInstanceAs (Decidable (_ ∧ _ ∧ _))

/-- The page is on some CPU's free list. -/
def Listed (s : Kmem) (pa : ℕ) : Prop := ∃ c, pa ∈ s.freelist c

/-- How often the page occurs on the free lists. -/
def listed (s : Kmem) (pa : ℕ) : ℕ := ∑ c, (s.freelist c).count pa

/-- `memset(pa, c, PGSIZE)`. -/
def memset (s : Kmem) (pa : ℕ) (c : UInt8) : Kmem :=
  { s with mem := fun a => if pa ≤ a ∧ a < pa + PGSIZE then c else s.mem a }

/-- `memmove(dst, src, PGSIZE)` between two different pages. -/
def copyPage (s : Kmem) (dst src : ℕ) : Kmem :=
  { s with mem := fun a => if dst ≤ a ∧ a < dst + PGSIZE then s.mem (src + (a - dst)) else s.mem a }

/-- `kmem[cpu].freelist = l`. -/
def setFreelist (s : Kmem) (cpu : Fin NCPU) (l : List ℕ) : Kmem :=
  { s with freelist := update s.freelist cpu l }

@[simp] lemma setFreelist_refcnt (s : Kmem) (cpu : Fin NCPU) (l : List ℕ) :
    (s.setFreelist cpu l).refcnt = s.refcnt := rfl

/-- Take the first page of a free list, under `kmem[cpu].lock`. -/
def popFree (s : Kmem) (cpu : Fin NCPU) : Option ℕ × Kmem :=
  match s.freelist cpu with
  | [] => (none, s)
  | r :: rest => (some r, s.setFreelist cpu rest)

/-- Put a page in front of a free list, under `kmem[cpu].lock`. -/
def pushFree (s : Kmem) (cpu : Fin NCPU) (pa : ℕ) : Kmem :=
  s.setFreelist cpu (pa :: s.freelist cpu)

/-- `ref.refcnt[(r - KERNBASE) / PGSIZE] = 1`, under `ref.lock`; a null `r` is address 0. -/
def setRef (s : Kmem) (r : ℕ) : Kmem :=
  { s with refcnt := update s.refcnt (refIdx r) 1 }

/-- The section of `kfree` under `ref.lock`; the result says whether the last reference is gone. -/
def decRef (s : Kmem) (pa : ℕ) : Except KPanic (Bool × Kmem) :=
  if s.refcnt (refIdx pa) ≤ 0 then .error .kfreeRef
  else
    let s' := { s with
      refcnt := update s.refcnt (refIdx pa) (s.refcnt (refIdx pa) - 1) }
    .ok (decide (¬ s'.refcnt (refIdx pa) > 0), s')

def cpuid (s : Kmem) : Fin NCPU × Kmem := (s.sched s.tick, { s with tick := s.tick + 1 })

/-- The CPUs `ksteal` tries, in its order: `(cpu + i) % NCPU` for `i = 1 .. NCPU - 1`. -/
def victims (cpu : Fin NCPU) : List (Fin NCPU) :=
  (List.range (NCPU - 1)).map fun i => cpu + Fin.ofNat NCPU (i + 1)

lemma mem_victims (cpu c : Fin NCPU) : c = cpu ∨ c ∈ victims cpu := by
  revert cpu c
  decide

def kstealFrom (s : Kmem) : List (Fin NCPU) → Option ℕ × Kmem
  | [] => (none, s)
  | c :: cs =>
    match s.popFree c with
    | (some r, s') => (some r, s')
    | (none, s') => kstealFrom s' cs

def ksteal (s : Kmem) (cpu : Fin NCPU) : Option ℕ × Kmem := s.kstealFrom (victims cpu)

/-- The first half of `kalloc`: the CPU's own list, then the others. -/
def findPage (s : Kmem) : Option ℕ × Kmem :=
  let (cpu, s) := s.cpuid
  match s.popFree cpu with
  | (some r, s) => (some r, s)
  | (none, s) => s.ksteal cpu

/-- `kalloc`. The reference count is stored whether or not there is a page: the `if` of the source
covers only the `memset`. Without a page that store faults on the machine; here `fault` notes it and
`kalloc` returns `none`, which only adds runs. -/
def kalloc (s : Kmem) : Option ℕ × Kmem :=
  let (r, s) := s.findPage
  let s := match r with
    | some r => s.memset r 5
    | none => { s with fault := true }
  (r, s.setRef (r.getD 0))

/-- `kfree`. The page is filled with junk before the reference count is looked at. -/
def kfree (s : Kmem) (pa : ℕ) : Except KPanic Kmem :=
  if ¬ s.IsPage pa then .error .kfreeAddr
  else do
    let (last, s) ← (s.memset pa 1).decRef pa
    if last then
      let (cpu, s) := s.cpuid
      return s.pushFree cpu pa
    else return s

def kaddref (s : Kmem) (pa : ℕ) : Kmem :=
  { s with refcnt := update s.refcnt (refIdx pa) (s.refcnt (refIdx pa) + 1) }

def kref (s : Kmem) (pa : ℕ) : ℤ := s.refcnt (refIdx pa)

/-! ## Indices of the reference counts -/

variable {pa p q : ℕ} {s s' : Kmem} {r : ℕ}

lemma refIdx_of_page (hk : KERNBASE ≤ s.kend) (h : s.IsPage pa) :
    refIdx pa = (pa - KERNBASE) / PGSIZE := by
  obtain ⟨-, h1, h2⟩ := h
  simp only [refIdx, PHYSTOP, KERNBASE] at *
  have : pa + (2 ^ 64 - 0x80000000) = 2 ^ 64 + (pa - 0x80000000) := by omega
  rw [this, Nat.add_mod_left, Nat.mod_eq_of_lt (by omega)]

lemma refIdx_inj (hk : KERNBASE ≤ s.kend) (hp : s.IsPage p)
    (hq : s.IsPage q) (h : refIdx p = refIdx q) : p = q := by
  rw [refIdx_of_page hk hp, refIdx_of_page hk hq] at h
  obtain ⟨hp1, hp2, -⟩ := hp
  obtain ⟨hq1, hq2, -⟩ := hq
  simp only [PGSIZE, KERNBASE] at *
  omega

/-- The index `kalloc` uses when it has no page belongs to no page. -/
lemma refIdx_null_ne (hk : KERNBASE ≤ s.kend) (hp : s.IsPage p) : refIdx 0 ≠ refIdx p := by
  rw [refIdx_of_page hk hp]
  obtain ⟨-, hp2, hp3⟩ := hp
  simp only [refIdx, PGSIZE, KERNBASE, PHYSTOP] at *
  omega

lemma IsPage.disjoint {a : ℕ} (hp : s.IsPage p) (hq : s.IsPage q) (hne : p ≠ q)
    (ha : p ≤ a ∧ a < p + PGSIZE) : ¬ (q ≤ a ∧ a < q + PGSIZE) := by
  obtain ⟨hp1, -, -⟩ := hp
  obtain ⟨hq1, -, -⟩ := hq
  simp only [PGSIZE] at *
  omega

/-! ## Occurrences on the lists -/

lemma listed_update (s : Kmem) (cpu : Fin NCPU) (l : List ℕ) (pa : ℕ) :
    (s.setFreelist cpu l).listed pa + (s.freelist cpu).count pa = s.listed pa + l.count pa :=
  sum_update_add (mem_univ cpu) (List.count pa) s.freelist l

lemma listed_pushFree (s : Kmem) (cpu : Fin NCPU) (pa q : ℕ) :
    (s.pushFree cpu pa).listed q = s.listed q + if pa = q then 1 else 0 := by
  have h := listed_update s cpu (pa :: s.freelist cpu) q
  simp only [List.count_cons, beq_iff_eq] at h
  simp only [pushFree]
  omega

lemma listed_eq_zero_iff : s.listed pa = 0 ↔ ¬ s.Listed pa := by
  simp [listed, Listed, sum_eq_zero_iff, List.count_eq_zero]

/-- The page occurs on one list only, and there once. -/
def OnOneList (s : Kmem) (pa : ℕ) : Prop :=
  ∃ c, (s.freelist c).count pa = 1 ∧ ∀ c', c' ≠ c → pa ∉ s.freelist c'

lemma listed_eq_one_iff : s.listed pa = 1 ↔ s.OnOneList pa := by
  constructor
  · intro h
    have hl : s.Listed pa := by
      by_contra hl
      rw [listed_eq_zero_iff.mpr hl] at h
      omega
    obtain ⟨c, hc⟩ := hl
    have hpos := List.count_pos_iff.mpr hc
    have hsum := sum_erase_add univ (fun c => (s.freelist c).count pa)
      (mem_univ c)
    simp only [listed] at h
    have hrest : ∑ c ∈ univ.erase c, (s.freelist c).count pa = 0 := by omega
    refine ⟨c, by omega, fun c' hc' => ?_⟩
    rw [sum_eq_zero_iff] at hrest
    exact List.count_eq_zero.mp (hrest c' (mem_erase.mpr ⟨hc', mem_univ c'⟩))
  · rintro ⟨c, hc, hother⟩
    rw [listed, sum_eq_single c]
    · exact hc
    · intro c' _ hc'
      exact List.count_eq_zero.mpr (hother c' hc')
    · simp

/-! ## The calls as single steps

`kalloc`, `kfree` and `kaddref` seen from outside, for callers that are not interrupted. -/

/-- The free pages are on one list, once, and not counted. -/
structure Ok (s : Kmem) : Prop where
  kend_ge : KERNBASE ≤ s.kend
  listed : ∀ pa, s.Listed pa → s.IsPage pa ∧ s.kref pa = 0 ∧ s.listed pa = 1

/-- `r` has been taken off the lists, and nothing else has changed. -/
structure Popped (s s' : Kmem) (r : ℕ) : Prop where
  listed : ∀ q, s'.listed q + (if r = q then 1 else 0) = s.listed q
  kend : s'.kend = s.kend
  refcnt : s'.refcnt = s.refcnt
  mem : s'.mem = s.mem

/-- At most the schedule has moved on. -/
structure Untouched (s s' : Kmem) : Prop where
  freelist : s'.freelist = s.freelist
  kend : s'.kend = s.kend
  refcnt : s'.refcnt = s.refcnt
  mem : s'.mem = s.mem

lemma popFree_spec (s : Kmem) (cpu : Fin NCPU) : match s.popFree cpu with
    | (some r, s') => s.Popped s' r
    | (none, s') => s' = s := by
  rcases hl : s.freelist cpu with _ | ⟨r, rest⟩
  · simp only [popFree, hl]
  · simp only [popFree, hl]
    refine ⟨?_, rfl, rfl, rfl⟩
    intro q
    have h := listed_update s cpu rest q
    simp only [hl, List.count_cons, beq_iff_eq] at h
    omega

lemma kstealFrom_spec (s : Kmem) (cs : List (Fin NCPU)) : match s.kstealFrom cs with
    | (some r, s') => s.Popped s' r
    | (none, s') => s' = s := by
  induction cs with
  | nil => rfl
  | cons c cs ih =>
    have hpop := s.popFree_spec c
    rcases hc : s.popFree c with ⟨_ | r, s'⟩
    · simp only [hc] at hpop
      subst hpop
      simpa only [kstealFrom, hc] using ih
    · simp only [kstealFrom, hc]
      simpa only [hc] using hpop

lemma findPage_spec (s : Kmem) : match s.findPage with
    | (some r, s') => s.Popped s' r
    | (none, s') => s.Untouched s' := by
  have hpop := popFree_spec s.cpuid.2 s.cpuid.1
  have hsteal := kstealFrom_spec s.cpuid.2 (victims s.cpuid.1)
  simp only [findPage]
  rcases hc : s.cpuid.2.popFree s.cpuid.1 with ⟨_ | r, s'⟩
  · simp only [hc] at hpop ⊢
    subst hpop
    rcases hst : s.cpuid.2.kstealFrom (victims s.cpuid.1) with ⟨_ | r, s'⟩
    · simp only [hst] at hsteal
      subst hsteal
      simp only [ksteal, hst]
      exact ⟨rfl, rfl, rfl, rfl⟩
    · simp only [hst] at hsteal
      simp only [ksteal, hst]
      exact { hsteal with }
  · simp only [hc] at hpop ⊢
    exact { hpop with }

/-- `kalloc` has returned the page `r`. -/
structure Took (s s' : Kmem) (r : ℕ) : Prop where
  ok : s'.Ok
  kend : s'.kend = s.kend
  page : s.IsPage r
  free : s.kref r = 0
  count : s'.kref r = 1
  other : ∀ q, s.IsPage q → q ≠ r → s'.kref q = s.kref q
  mem : ∀ a, ¬ (r ≤ a ∧ a < r + PGSIZE) → s'.mem a = s.mem a

/-- `kalloc` has returned no page. -/
structure NoPage (s s' : Kmem) : Prop where
  ok : s'.Ok
  kend : s'.kend = s.kend
  count : ∀ q, s.IsPage q → s'.kref q = s.kref q
  mem : s'.mem = s.mem

lemma Popped.isListed (h : s.Popped s' r) : s.Listed r := by
  by_contra hl
  have h1 := h.listed r
  rw [listed_eq_zero_iff.mpr hl, if_pos rfl] at h1
  omega

lemma kalloc_spec (h : s.Ok) : match s.kalloc with
    | (some r, s') => s.Took s' r
    | (none, s') => s.NoPage s' := by
  have hfind := s.findPage_spec
  rcases hf : s.findPage with ⟨_ | r, s'⟩
  · simp only [hf] at hfind
    simp only [kalloc, hf, Option.getD_none]
    have hcnt : ∀ q, s.IsPage q → (s'.setRef 0).kref q = s.kref q := by
      intro q hq
      simp only [kref, setRef]
      rw [update_of_ne (refIdx_null_ne h.kend_ge hq).symm, hfind.refcnt]
    refine ⟨⟨hfind.kend ▸ h.kend_ge, ?_⟩, hfind.kend, hcnt, hfind.mem⟩
    rintro pa ⟨c, hc⟩
    simp only [setRef, hfind.freelist] at hc
    obtain ⟨hp, h0, h1⟩ := h.listed pa ⟨c, hc⟩
    refine ⟨?_, (hcnt pa hp).trans h0, ?_⟩
    · exact ⟨hp.1, hfind.kend ▸ hp.2.1, hp.2.2⟩
    · rw [← h1]
      simp only [Kmem.listed, setRef, hfind.freelist]
  · simp only [hf] at hfind
    obtain ⟨hp, h0, hone⟩ := h.listed r hfind.isListed
    simp only [kalloc, hf, Option.getD_some]
    have hother : ∀ q, s.IsPage q → q ≠ r → ((s'.memset r 5).setRef r).kref q = s.kref q := by
      intro q hq hne
      simp only [kref, setRef, memset]
      rw [update_of_ne (mt (refIdx_inj h.kend_ge hq hp) hne), hfind.refcnt]
    have hlisted : ∀ q, ((s'.memset r 5).setRef r).listed q = s'.listed q := fun _ => rfl
    refine ⟨⟨hfind.kend ▸ h.kend_ge, ?_⟩, hfind.kend, hp, h0, update_self .., hother, ?_⟩
    · intro pa hl
      have hl' := mt listed_eq_zero_iff.mp (not_not.mpr hl)
      rw [hlisted] at hl'
      have heq := hfind.listed pa
      have hpa : s.Listed pa := by
        by_contra hnl
        rw [listed_eq_zero_iff.mpr hnl] at heq
        omega
      obtain ⟨hp', h0', h1'⟩ := h.listed pa hpa
      have hne : r ≠ pa := by
        rintro rfl
        rw [if_pos rfl] at heq
        omega
      rw [if_neg hne] at heq
      refine ⟨⟨hp'.1, hfind.kend ▸ hp'.2.1, hp'.2.2⟩, (hother pa hp' (Ne.symm hne)).trans h0', ?_⟩
      rw [hlisted]
      omega
    · intro a ha
      simp only [setRef, memset, if_neg ha, hfind.mem]

/-- The pages in use keep their contents. -/
def KeepsMem (s s' : Kmem) : Prop :=
  ∀ q, s.IsPage q → 0 < s.kref q → ∀ a, q ≤ a ∧ a < q + PGSIZE → s'.mem a = s.mem a

/-- The pages in use stay in use and keep their contents. -/
structure Keeps (s s' : Kmem) : Prop where
  kend : s'.kend = s.kend
  used : ∀ q, s.IsPage q → 0 < s.kref q → 0 < s'.kref q
  mem : s.KeepsMem s'

lemma Keeps.refl (s : Kmem) : s.Keeps s :=
  ⟨rfl, fun _ _ hpos => hpos, fun _ _ _ _ _ => rfl⟩

lemma isPage_congr (h : s'.kend = s.kend) (q : ℕ) : s'.IsPage q ↔ s.IsPage q := by
  simp only [IsPage, h]

lemma isPage_eq (h : s'.kend = s.kend) : s'.IsPage = s.IsPage :=
  funext fun q => propext (isPage_congr h q)

lemma Keeps.trans {s'' : Kmem} (h : s.Keeps s') (h' : s'.Keeps s'') : s.Keeps s'' := by
  have hpage := fun q hq => (isPage_congr h.kend q).mpr hq
  refine ⟨h'.kend.trans h.kend, ?_, ?_⟩
  · intro q hq hpos
    exact h'.used q (hpage q hq) (h.used q hq hpos)
  · intro q hq hpos a ha
    rw [h'.mem q (hpage q hq) (h.used q hq hpos) a ha, h.mem q hq hpos a ha]

lemma NoPage.keeps (h : s.NoPage s') : s.Keeps s' :=
  ⟨h.kend, fun q hq hpos => (h.count q hq).symm ▸ hpos, fun _ _ _ a _ => congrFun h.mem a⟩

lemma Took.keeps (h : s.Took s' r) (mem : ℕ → UInt8)
    (hmem : ∀ a, ¬ (r ≤ a ∧ a < r + PGSIZE) → mem a = s'.mem a) :
    s.Keeps { s' with mem := mem } := by
  have hne : ∀ q, 0 < s.kref q → q ≠ r := by
    rintro q hpos rfl
    have := h.free
    omega
  refine ⟨h.kend, ?_, ?_⟩
  · intro q hq hpos
    exact (h.other q hq (hne q hpos)).symm ▸ hpos
  · intro q hq hpos a ha
    have hout := hq.disjoint h.page (hne q hpos) ha
    exact (hmem a hout).trans (h.mem a hout)

/-- `kfree` has dropped a reference to `pa`. -/
structure Dropped (s s' : Kmem) (pa : ℕ) : Prop where
  ok : s'.Ok
  kend : s'.kend = s.kend
  page : s.IsPage pa
  pos : 0 < s.kref pa
  count : s'.kref pa = s.kref pa - 1
  other : ∀ q, s.IsPage q → q ≠ pa → s'.kref q = s.kref q
  mem : ∀ a, s'.mem a = if pa ≤ a ∧ a < pa + PGSIZE then 1 else s.mem a

lemma kfree_spec (h : s.Ok) (hk : s.kfree pa = .ok s') : s.Dropped s' pa := by
  simp only [kfree] at hk
  split at hk
  · cases hk
  · next hp =>
    rw [not_not] at hp
    simp only [decRef] at hk
    split at hk
    · cases hk
    · next hpos =>
      have hpos' : 0 < s.kref pa := not_le.mp hpos
      have hother : ∀ q, s.IsPage q → q ≠ pa →
          update s.refcnt (refIdx pa) (s.refcnt (refIdx pa) - 1) (refIdx q) = s.kref q := by
        intro q hq hne
        rw [update_of_ne (mt (refIdx_inj h.kend_ge hq hp) hne)]
        rfl
      have hnl : ¬ s.Listed pa := by
        intro hl
        have := (h.listed pa hl).2.1
        omega
      simp only [update_self] at hk
      by_cases hlast : s.refcnt (refIdx pa) - 1 > 0
      · simp only [memset, hlast, not_true_eq_false, decide_false] at hk
        cases hk
        refine ⟨⟨h.kend_ge, ?_⟩, rfl, hp, hpos', update_self .., hother, fun _ => rfl⟩
        intro q hq
        obtain ⟨hq1, hq2, hq3⟩ := h.listed q hq
        refine ⟨hq1, ?_, hq3⟩
        have hne : q ≠ pa := by
          rintro rfl
          exact hnl hq
        exact (hother q hq1 hne).trans hq2
      · simp only [memset, hlast, not_false_eq_true, decide_true] at hk
        cases hk
        refine ⟨⟨h.kend_ge, ?_⟩, rfl, hp, hpos', update_self .., hother, fun _ => rfl⟩
        intro q hq
        have hl := mt listed_eq_zero_iff.mp (not_not.mpr hq)
        rw [listed_pushFree] at hl ⊢
        by_cases hne : pa = q
        · subst hne
          have h0 : s.listed pa = 0 := listed_eq_zero_iff.mpr hnl
          refine ⟨hp, ?_, ?_⟩
          · simp only [kref] at hpos' ⊢
            simp only [pushFree, setFreelist, cpuid, update_self]
            omega
          · rw [if_pos rfl]
            exact congrArg (· + 1) h0
        · rw [if_neg hne] at hl ⊢
          obtain ⟨hq1, hq2, hq3⟩ := h.listed q (by
            by_contra hnq
            exact hl (listed_eq_zero_iff.mpr hnq))
          exact ⟨hq1, (hother q hq1 (Ne.symm hne)).trans hq2, hq3⟩

/-! ### What is on the free lists -/

lemma Popped.listed_of (h : s.Popped s' r) (hl : s'.Listed q) : s.Listed q := by
  by_contra hn
  have h1 := h.listed q
  rw [listed_eq_zero_iff.mpr hn] at h1
  exact mt listed_eq_zero_iff.mp (not_not.mpr hl) (by omega)

/-- `kalloc` returns a page from the free lists, filled with junk, and adds nothing to them. -/
lemma kalloc_listed (s : Kmem) : match s.kalloc with
    | (some r, s') => s.Listed r ∧ ∀ q, s'.Listed q → s.Listed q
    | (none, s') => ∀ q, s'.Listed q → s.Listed q := by
  have hfind := s.findPage_spec
  rcases hf : s.findPage with ⟨_ | r, s'⟩
  · simp only [hf] at hfind
    simp only [kalloc, hf]
    rintro q ⟨c, hc⟩
    exact ⟨c, hfind.freelist ▸ hc⟩
  · simp only [hf] at hfind
    simp only [kalloc, hf]
    exact ⟨hfind.isListed, fun q hq => hfind.listed_of hq⟩

lemma kfree_listed (hk : s.kfree pa = .ok s') (hq : s'.Listed q) : q = pa ∨ s.Listed q := by
  simp only [kfree] at hk
  split at hk
  · cases hk
  · simp only [decRef] at hk
    split at hk
    · cases hk
    · simp only [update_self] at hk
      by_cases hlast : s.refcnt (refIdx pa) - 1 > 0
      · simp only [memset, hlast, not_true_eq_false, decide_false] at hk
        cases hk
        exact .inr hq
      · simp only [memset, hlast, not_false_eq_true, decide_true] at hk
        cases hk
        have hl := mt listed_eq_zero_iff.mp (not_not.mpr hq)
        rw [listed_pushFree] at hl
        by_cases hne : pa = q
        · exact .inl hne.symm
        · rw [if_neg hne] at hl
          by_contra hn
          exact hl (listed_eq_zero_iff.mpr fun h => hn (.inr h))

lemma kfree_ok (hp : s.IsPage pa) (hpos : 0 < s.kref pa) : ∃ s', s.kfree pa = .ok s' := by
  have hdec : ¬ (s.memset pa 1).refcnt (refIdx pa) ≤ 0 := not_le.mpr hpos
  rw [kfree, if_neg (not_not.mpr hp), decRef, if_neg hdec]
  by_cases hlast : s.refcnt (refIdx pa) - 1 > 0
  · simp only [memset, update_self, hlast, not_true_eq_false, decide_false]
    exact ⟨_, rfl⟩
  · simp only [memset, update_self, hlast, not_false_eq_true, decide_true]
    exact ⟨_, rfl⟩

lemma kaddref_kref (s : Kmem) (pa : ℕ) : (s.kaddref pa).kref pa = s.kref pa + 1 := by
  simp only [kref, kaddref, update_self]

lemma kaddref_kref_of_ne (h : s.Ok) (hp : s.IsPage p) (hq : s.IsPage q)
    (hne : q ≠ p) : (s.kaddref p).kref q = s.kref q := by
  have hidx : refIdx q ≠ refIdx p := mt (refIdx_inj h.kend_ge hq hp) hne
  simp only [kref, kaddref]
  rw [update_of_ne hidx]

lemma kaddref_keeps (s : Kmem) (pa : ℕ) : s.Keeps (s.kaddref pa) := by
  refine ⟨rfl, ?_, fun _ _ _ _ _ => rfl⟩
  intro q _ hpos
  by_cases hq : refIdx q = refIdx pa
  · simp only [kref, kaddref, hq, update_self] at *
    omega
  · simpa only [kref, kaddref, update_of_ne hq] using hpos

lemma Ok.kaddref (h : s.Ok) (hp : s.IsPage pa) (hpos : 0 < s.kref pa) : (s.kaddref pa).Ok := by
  refine ⟨h.kend_ge, ?_⟩
  intro q hq
  obtain ⟨h1, h2, h3⟩ := h.listed q hq
  have hne : q ≠ pa := by
    rintro rfl
    omega
  exact ⟨h1, (kaddref_kref_of_ne h hp h1 hne).trans h2, h3⟩

end Kmem

end Xv6
