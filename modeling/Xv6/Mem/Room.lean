import Xv6.Mem.Kinit
import Xv6.Mem.Calls

/-!
# Enough free memory

`Kmem.free` counts the pages on the free lists. `kalloc` fails only when there are none, whichever
CPU it runs on (`kalloc_asked`), and `kfree` never makes the lists shorter.

A page fault takes three pages at most: the page itself and the pages of the page table that are
missing on the way to it. If they are there, `vmfault` and the copy-on-write branch of `usertrap` do
not fail for want of memory; otherwise `kalloc` faults (`vmfault_free`, `storeFault_free`).
-/

namespace Xv6

open Prog

namespace Kmem

/-- How many pages are on the free lists. -/
def free (s : Kmem) : ℕ := ∑ c, (s.freelist c).length

lemma free_eq_zero_iff {s : Kmem} : s.free = 0 ↔ ∀ c, s.freelist c = [] := by
  simp [free, Finset.sum_eq_zero_iff]

lemma free_setFreelist (s : Kmem) (cpu : Fin NCPU) (l : List ℕ) :
    (s.setFreelist cpu l).free + (s.freelist cpu).length = s.free + l.length :=
  sum_update_add (Finset.mem_univ cpu) List.length s.freelist l

lemma popFree_free (s : Kmem) (cpu : Fin NCPU) : match s.popFree cpu with
    | (some _, s') => s'.free + 1 = s.free ∧ s'.fault = s.fault
    | (none, s') => s' = s := by
  rcases hl : s.freelist cpu with _ | ⟨r, rest⟩
  · simp only [popFree, hl]
  · simp only [popFree, hl]
    have h := free_setFreelist s cpu rest
    rw [hl, List.length_cons] at h
    exact ⟨by omega, rfl⟩

lemma kstealFrom_free (s : Kmem) (cs : List (Fin NCPU)) : match s.kstealFrom cs with
    | (some _, s') => s'.free + 1 = s.free ∧ s'.fault = s.fault
    | (none, s') => s' = s := by
  induction cs with
  | nil => rfl
  | cons c cs ih =>
    have hpop := s.popFree_free c
    rcases hc : s.popFree c with ⟨_ | r, s'⟩
    · simp only [hc] at hpop
      subst hpop
      simpa only [kstealFrom, hc] using ih
    · simp only [kstealFrom, hc]
      simpa only [hc] using hpop

lemma findPage_free {s s' : Kmem} {r : ℕ} (h : s.findPage = (some r, s')) :
    s'.free + 1 = s.free ∧ s'.fault = s.fault := by
  have hpop := popFree_free s.cpuid.2 s.cpuid.1
  have hsteal := kstealFrom_free s.cpuid.2 (victims s.cpuid.1)
  simp only [findPage] at h
  rcases hc : s.cpuid.2.popFree s.cpuid.1 with ⟨_ | r', s1⟩
  · simp only [hc] at hpop h
    rw [hpop, ksteal] at h
    rw [h] at hsteal
    exact hsteal
  · simp only [hc] at hpop h
    cases h
    exact hpop

/-- `n` pages have been asked for: they were on the lists, or `kalloc` has faulted. -/
structure Asked (s s' : Kmem) (n : ℕ) : Prop where
  enough : n ≤ s.free → s'.free + n = s.free ∧ s'.fault = s.fault
  short : s.free < n ∨ s.fault = true → s'.fault = true

lemma Asked.refl (s : Kmem) : s.Asked s 0 :=
  ⟨fun _ => ⟨rfl, rfl⟩, fun h => h.resolve_left (Nat.not_lt_zero _)⟩

lemma Asked.trans {s s' s'' : Kmem} {n m : ℕ} (h : s.Asked s' n) (h' : s'.Asked s'' m) :
    s.Asked s'' (n + m) := by
  refine ⟨fun hle => ?_, fun hs => h'.short ?_⟩
  · have h1 := h.enough (by omega)
    have h2 := h'.enough (by omega)
    exact ⟨by omega, h2.2.trans h1.2⟩
  · by_cases hn : n ≤ s.free
    · have h1 := h.enough hn
      exact hs.imp (fun hlt => by omega) fun hf => h1.2.trans hf
    · exact .inr (h.short (.inl (by omega)))

/-- More has been asked for than there was: how much more does not matter. -/
lemma Asked.of_short {s s' : Kmem} {n : ℕ} (hlt : s.free < n) (hf : s'.fault = true) :
    s.Asked s' n :=
  ⟨fun hle => by omega, fun _ => hf⟩

/-- The same if pages may have been given back. -/
structure Needed (s s' : Kmem) (n : ℕ) : Prop where
  free : s.free ≤ s'.free + n
  enough : n ≤ s.free → s'.fault = s.fault
  short : s.free < n ∨ s.fault = true → s'.fault = true

lemma Asked.needed {s s' s'' : Kmem} {n : ℕ} (h : s.Asked s' n)
    (hk : s'.free ≤ s''.free ∧ s''.fault = s'.fault) : s.Needed s'' n := by
  refine ⟨?_, fun hle => hk.2.trans (h.enough hle).2, fun hs => hk.2.trans (h.short hs)⟩
  by_cases hle : n ≤ s.free
  · have := h.enough hle
    omega
  · omega

lemma kalloc_asked (s : Kmem) : s.Asked s.kalloc.2 1 ∧ (s.kalloc.1 = none ↔ s.free = 0) := by
  rcases hf : s.findPage with ⟨_ | r, s'⟩
  · have hempty := free_eq_zero_iff.mpr (findPage_eq_none.mp (congrArg Prod.fst hf))
    simp only [kalloc, hf]
    exact ⟨.of_short (by omega) rfl, by simp [hempty]⟩
  · obtain ⟨hfree, hfault⟩ := findPage_free hf
    simp only [kalloc, hf]
    refine ⟨⟨fun _ => ⟨hfree, hfault⟩, fun h => ?_⟩, by simp; omega⟩
    exact hfault.trans (h.resolve_left (by omega))

lemma kalloc_ne_zero {s s' : Kmem} {r : ℕ} (h : s.Ok) (hk : s.kalloc = (some r, s')) : r ≠ 0 := by
  have htook := kalloc_spec h
  simp only [hk] at htook
  have hend := h.kend_ge
  have hge := htook.page.2.1
  simp only [KERNBASE] at hend
  omega

lemma kfree_free {s s' : Kmem} {pa : ℕ} (h : s.kfree pa = .ok s') :
    s.free ≤ s'.free ∧ s'.fault = s.fault := by
  rw [kfree] at h
  split at h
  · cases h
  · rcases hd : (s.memset pa 1).decRef pa with e | ⟨last, s1⟩
    · rw [hd] at h
      cases h
    · have hkeep : s1.free = s.free ∧ s1.fault = s.fault := by
        rw [decRef] at hd
        split at hd
        · cases hd
        · cases hd
          exact ⟨rfl, rfl⟩
      rw [hd] at h
      cases last
      · cases h
        exact ⟨hkeep.1.ge, hkeep.2⟩
      · cases h
        have hpush := free_setFreelist s1.cpuid.2 s1.cpuid.1 (pa :: s1.cpuid.2.freelist s1.cpuid.1)
        rw [List.length_cons] at hpush
        have hcpu : s1.cpuid.2.free = s1.free := rfl
        refine ⟨?_, hkeep.2⟩
        exact (show s.free ≤ _ by omega : s.free ≤ (s1.cpuid.2.setFreelist s1.cpuid.1
          (pa :: s1.cpuid.2.freelist s1.cpuid.1)).free)

end Kmem

namespace Vm

variable {s s' : Vm} {o : ℕ → ℕ} {p : Proc} {va t : ℕ} {E : VmPanic → Prop}

lemma wp_kalloc_asked {Q : Option ℕ → Vm → Prop}
    (hnone : ∀ k, s.kmem.free = 0 → s.kmem.Asked k 1 → Q none { s with kmem := k })
    (hsome : ∀ r k, s.kmem.kalloc = (some r, k) → s.kmem.Asked k 1 →
    Q (some r) { s with kmem := k }) :
    wp kalloc s Q E := by
  rw [wp_kalloc]
  obtain ⟨hasked, hzero⟩ := s.kmem.kalloc_asked
  rcases hk : s.kmem.kalloc with ⟨_ | r, k⟩ <;> rw [hk] at hasked hzero
  · exact hnone k (hzero.mp rfl) hasked
  · exact hsome r k hk hasked

/-- The page-table pages that are missing on the way to the entry of `va`. -/
def missing (s : Vm) (t va : ℕ) : ℕ :=
  match (s.pt t).mid (px 2 va), (s.pt t).low (px 2 va, px 1 va) with
  | none, _ => 2
  | some _, none => 1
  | some _, some _ => 0

lemma walkLow_free (t : ℕ) (ij : Fin 512 × Fin 512) : wp (walkLow t ij true) s
      (fun b s' => s.kmem.Asked s'.kmem (if (s.pt t).low ij = none then 1 else 0) ∧
        (b = false → s.kmem.free = 0 ∧ (s.pt t).low ij = none)) E := by
  rw [walkLow, walkLevel, wp_bind, wp_get]
  split
  · next hlow => exact wp_pure.mpr ⟨by rw [hlow]; exact .refl _, by simp⟩
  · next hlow =>
    rw [if_pos rfl, if_pos hlow, wp_bind]
    refine wp_kalloc_asked (fun k h0 hk => ?_) fun r k _ hk => ?_
    · exact wp_pure.mpr ⟨hk, fun _ => ⟨h0, hlow⟩⟩
    · simp only [wp_bind, wp_memset, wp_modify, wp_pure]
      exact ⟨{ hk with }, by simp⟩

lemma walk_free (t va : ℕ) :
    wp (walk t va true) s (fun r s' => s.kmem.Asked s'.kmem (s.missing t va) ∧
      (s.missing t va ≤ s.kmem.free → r ≠ none)) fun _ => True := by
  rw [walk, wp_ite]
  refine ⟨fun _ => wp_throw.mpr trivial, fun _ => ?_⟩
  rw [wp_bind, walkMid, walkLevel, wp_bind, wp_get]
  cases hmid : (s.pt t).mid (px 2 va) with
  | some page =>
    have hmiss : s.missing t va = if (s.pt t).low (px 2 va, px 1 va) = none then 1 else 0 := by
      rw [missing, hmid]
      cases (s.pt t).low (px 2 va, px 1 va) <;> rfl
    simp only [wp_pure, if_true]
    refine (walkLow_free t _).bind ?_
    rintro b s1 ⟨h1, hb⟩
    rw [hmiss, wp_ite]
    refine ⟨fun _ => wp_pure.mpr ⟨h1, by simp⟩, fun hf => wp_pure.mpr ⟨h1, fun hle => ?_⟩⟩
    obtain ⟨hfree, hlow⟩ := hb (by simpa using hf)
    rw [if_pos hlow] at hle
    omega
  | none =>
    have hmiss : s.missing t va = 1 + 1 := by rw [missing, hmid]
    simp only [if_true, wp_bind]
    rw [hmiss]
    refine wp_kalloc_asked (fun k h0 hk => ?_) fun page k _ hk => ?_
    · refine wp_pure.mpr (wp_pure.mpr ⟨?_, fun hle => by omega⟩)
      exact .of_short (by omega) (hk.short (.inl (by omega)))
    · simp only [wp_bind, wp_memset, wp_modify, wp_pure, if_true]
      refine (walkLow_free t _).post ?_
      rintro b s2 ⟨h2, hb⟩
      rw [if_pos (by simp [setPt_pt_self, PageTable.setMid])] at h2
      have hall : s.kmem.Asked s2.kmem (1 + 1) := hk.trans { h2 with }
      rw [wp_ite]
      refine ⟨fun _ => wp_pure.mpr ⟨hall, by simp⟩, fun hf => wp_pure.mpr ⟨hall, fun hle => ?_⟩⟩
      have h1 := hk.enough (by omega)
      have h0 : k.free = 0 := (hb (by simpa using hf)).1
      omega

lemma mapPage_free (t a pa : ℕ) (perm : Perm) :
    wp (mapPage t a pa perm) s (fun r s' => s.kmem.Asked s'.kmem (s.missing t a) ∧
      (s.missing t a ≤ s.kmem.free → r = none)) fun _ => True := by
  rw [mapPage]
  refine (walk_free t a).bind ?_
  rintro (_ | slot) s1 ⟨h1, hr⟩
  · exact wp_pure.mpr ⟨h1, fun h2 => absurd rfl (hr h2)⟩
  · simp only [wp_bind, wp_load, wp_ite, wp_throw, wp_store, wp_pure]
    exact ⟨fun _ => trivial, fun _ => ⟨h1, fun _ => trivial⟩⟩

lemma mappages_free (t va pa : ℕ) (perm : Perm) :
    wp (mappages t va PGSIZE pa perm) s (fun r s' => s.kmem.Asked s'.kmem (s.missing t va) ∧
      (s.missing t va ≤ s.kmem.free → r = true)) fun _ => True := by
  simp only [mappages, wp_ite, wp_throw]
  refine ⟨fun _ => trivial, fun _ => ⟨fun _ => trivial, fun _ => ⟨fun _ => trivial, fun _ => ?_⟩⟩⟩
  have hone : PGSIZE / PGSIZE = 1 := by decide
  rw [hone, wp_bind]
  simp only [forUntil, wp_bind, Nat.zero_mul, Nat.add_zero]
  refine (mapPage_free t va pa perm).post ?_
  rintro (_ | _) s1 ⟨h1, hr⟩
  · exact wp_pure.mpr (wp_pure.mpr ⟨h1, fun _ => rfl⟩)
  · exact wp_pure.mpr (wp_pure.mpr ⟨h1, fun h2 => by cases hr h2⟩)

lemma wp_kfree_free {pa : ℕ} {Q : Unit → Vm → Prop}
    (h : ∀ k : Kmem, s.kmem.free ≤ k.free ∧ k.fault = s.kmem.fault → Q () { s with kmem := k }) :
    wp (kfree pa) s Q fun _ => True :=
  wp_kfree.mpr ⟨fun k hk => h k (Kmem.kfree_free hk), fun _ _ => trivial⟩

/-- The pages that `vmfault` takes: none if it refuses the address. -/
def lazyPages (s : Vm) (p : Proc) (va : ℕ) : ℕ :=
  if va < p.sz ∧ (s.pte ⟨p.pagetable, idx va⟩).v = false then 1 + s.missing p.pagetable va else 0

lemma lazyPages_le (s : Vm) (p : Proc) (va : ℕ) : s.lazyPages p va ≤ 3 := by
  rw [lazyPages, missing]
  split
  · split <;> omega
  · omega

/-- If the pages are there, `vmfault` of an address that is not mapped returns a page. -/
lemma vmfault_free (h : s.kmem.Ok) (p : Proc) (va : ℕ) : wp (vmfault p p.pagetable va) s
      (fun r s' => s.kmem.Needed s'.kmem (s.lazyPages p va) ∧ (s.lazyPages p va ≤ s.kmem.free →
        va < p.sz → (s.pte ⟨p.pagetable, idx va⟩).v = false → r ≠ 0)) fun _ => True := by
  rw [vmfault, wp_ite]
  refine ⟨fun hge => wp_pure.mpr ⟨?_, fun _ hlt => by omega⟩, fun hlt => ?_⟩
  · rw [lazyPages, if_neg (by omega)]
    exact (Kmem.Asked.refl _).needed ⟨le_rfl, rfl⟩
  rw [wp_bind, wp_ismapped, idx_pgRoundDown]
  refine ⟨fun _ => trivial, fun _ => ?_⟩
  rw [wp_ite]
  refine ⟨fun hv => wp_pure.mpr ⟨?_, fun _ _ hv' => ?_⟩, fun hv => ?_⟩
  · rw [lazyPages, if_neg (by simp [hv])]
    exact (Kmem.Asked.refl _).needed ⟨le_rfl, rfl⟩
  · rw [hv] at hv'
    cases hv'
  rw [lazyPages, if_pos ⟨by omega, by simpa using hv⟩, wp_bind]
  refine wp_kalloc_asked (fun k h0 hk => ?_) fun r k hr hk => ?_
  · refine wp_pure.mpr ⟨?_, fun hle => by omega⟩
    have hshort : s.kmem.Asked k (1 + s.missing p.pagetable va) :=
      .of_short (by omega) (hk.short (.inl (by omega)))
    exact hshort.needed ⟨le_rfl, rfl⟩
  · simp only [wp_bind, wp_memset]
    refine (mappages_free ..).post ?_
    rintro b s1 ⟨h1, hb⟩
    have hmiss : ∀ k : Kmem, missing { s with kmem := k } p.pagetable (pgRoundDown va) =
        s.missing p.pagetable va := fun k => by
      have hidx := idx_pgRoundDown va
      simp only [idx, Prod.mk.injEq] at hidx
      rw [missing, hidx.1, hidx.2.1]
      rfl
    rw [hmiss] at h1 hb
    have hall : s.kmem.Asked s1.kmem (1 + s.missing p.pagetable va) := hk.trans { h1 with }
    rw [wp_ite]
    refine ⟨fun _ => wp_pure.mpr ⟨hall.needed ⟨le_rfl, rfl⟩, fun _ _ _ => Kmem.kalloc_ne_zero h hr⟩,
      fun hf => ?_⟩
    rw [wp_bind]
    refine wp_kfree_free fun k' hk' => wp_pure.mpr ⟨hall.needed hk', fun hle => absurd (hb ?_) hf⟩
    have h1 := hk.enough (by omega)
    show s.missing p.pagetable va ≤ k.free
    omega

lemma loadFault_free (h : s.kmem.Ok) (p : Proc) (va : ℕ) :
    wp (loadFault p va) s (fun b s' => s.kmem.Needed s'.kmem (s.lazyPages p va) ∧
      (s.lazyPages p va ≤ s.kmem.free →
        va < p.sz ∧ (s.pte ⟨p.pagetable, idx va⟩).v = false → b = false)) fun _ => True := by
  rw [loadFault]
  refine (vmfault_free h p va).bind ?_
  rintro r s1 ⟨h1, hr⟩
  exact wp_pure.mpr ⟨h1, fun hle hlazy => by simpa using hr hle hlazy.1 hlazy.2⟩

lemma cowFault_free (slot : Slot) (pte : Pte) :
    wp (cowFault slot pte) s (fun b s' => s.kmem.Needed s'.kmem 1 ∧ (1 ≤ s.kmem.free → b = false))
      fun _ => True := by
  rw [cowFault, wp_bind]
  refine wp_kalloc_asked (fun k h0 hk => ?_) fun r k _ hk => ?_
  · exact wp_pure.mpr ⟨hk.needed ⟨le_rfl, rfl⟩, fun hpos => by omega⟩
  · simp only [wp_bind, wp_copyPage, wp_store]
    exact wp_kfree_free fun k' hk' => wp_pure.mpr ⟨hk.needed hk', fun _ => rfl⟩

/-- The pages that a store fault takes: a copy, or what `vmfault` takes. -/
def storePages (s : Vm) (p : Proc) (va : ℕ) : ℕ :=
  if (s.pte ⟨p.pagetable, idx va⟩).perm.cow then 1 else s.lazyPages p va

lemma storePages_le (s : Vm) (p : Proc) (va : ℕ) : s.storePages p va ≤ 3 := by
  have hlazy := lazyPages_le s p va
  rw [storePages]
  split <;> omega

/-- A store to a copy-on-write page or to a page that has not been touched yet gets its page. -/
lemma storeFault_free (h : s.kmem.Ok) (p : Proc) (va : ℕ) :
    wp (storeFault p va) s (fun b s' => s.kmem.Needed s'.kmem (s.storePages p va) ∧
        (s.storePages p va ≤ s.kmem.free → ((s.pte ⟨p.pagetable, idx va⟩).perm.cow ∨
          va < p.sz ∧ (s.pte ⟨p.pagetable, idx va⟩).v = false) → b = false)) fun _ => True := by
  rw [storePages]
  have hlazy (hcow : (s.pte ⟨p.pagetable, idx va⟩).perm.cow = false) :
      wp (loadFault p va) s (fun b s' => s.kmem.Needed s'.kmem (s.lazyPages p va) ∧
        (s.lazyPages p va ≤ s.kmem.free → ((s.pte ⟨p.pagetable, idx va⟩).perm.cow ∨
          va < p.sz ∧ (s.pte ⟨p.pagetable, idx va⟩).v = false) → b = false)) fun _ => True :=
    (loadFault_free h p va).post fun b s' hb =>
      ⟨hb.1, fun hle hor => hb.2 hle (hor.resolve_left (by simp [hcow]))⟩
  rw [storeFault, wp_bind, walk_look]
  refine ⟨fun _ => trivial, fun _ => ?_⟩
  by_cases hreach : (s.pt p.pagetable).reach (idx va)
  · simp only [hreach, if_true, wp_bind, wp_load]
    rw [leaf_eq_pte (p := ⟨p.pagetable, idx va⟩) hreach, wp_ite]
    refine ⟨fun hcow => ?_, fun hcow => ?_⟩
    · rw [if_pos hcow]
      exact (cowFault_free ..).post fun b s1 hb => ⟨hb.1, fun hle _ => hb.2 hle⟩
    · rw [if_neg hcow]
      exact hlazy (by simpa using hcow)
  · have hcow : (s.pte ⟨p.pagetable, idx va⟩).perm.cow = false := by
      simp [pte, PageTable.get, hreach, Pte.zero]
    simp only [hreach, Bool.false_eq_true, if_false]
    rw [if_neg (by simp [hcow])]
    exact hlazy hcow

end Vm

end Xv6
