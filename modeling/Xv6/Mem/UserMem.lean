import Xv6.Lib.Steps
import Xv6.Mem.Calls

/-!
# Any sequence of calls on user page tables

The calls that change user page tables, as the steps of one system over any number of tables. Every
step keeps the reference counts of `Xv6.Mem.RefCounts`, so every run does, whatever fails for lack
of memory on the way.

Pages that the kernel holds for itself have a reference that no entry of a user page table accounts
for; the pages of the page tables themselves are among them.
-/

namespace Xv6

open Function

namespace Vm

/-- The calls of vm.c on user page tables. -/
inductive UvmAct where
  | uvmcreate
  | uvmalloc (pagetable oldsz newsz : ℕ) (xw xx : Bool)
  | uvmdealloc (pagetable oldsz newsz : ℕ)
  | uvmcopy (old new sz : ℕ)
  | vmfault (p : Proc) (pagetable va : ℕ)
  | storeFault (p : Proc) (va : ℕ)
  | uvmfree (pagetable sz : ℕ)

variable {s s' : Vm} {o : ℕ → ℕ} {pa : ℕ}

/-- A call on user page tables. -/
def uvmStep (s : Vm) : UvmAct → Outcome VmPanic Vm
  | .uvmcreate => .ofExcept (uvmcreate s)
  | .uvmalloc t oldsz newsz xw xx =>
    if s.user t then .ofExcept (uvmalloc t oldsz newsz xw xx s) else .disabled
  | .uvmdealloc t oldsz newsz => if s.user t then .ofExcept (uvmdealloc t oldsz newsz s)
    else .disabled
  | .uvmcopy old new sz =>
    if s.user old ∧ s.user new then .ofExcept (uvmcopy old new sz s) else .disabled
  | .vmfault p t va => if s.user p.pagetable then .ofExcept (vmfault p t va s) else .disabled
  | .storeFault p va => if s.user p.pagetable then .ofExcept (storeFault p va s) else .disabled
  | .uvmfree t sz => if s.user t then .ofExcept (uvmfree t sz s) else .disabled

lemma inv_of_wp {α : Type} {m : VmProg α}
    (h : Prog.wp m s (fun _ (s' : Vm) => s'.Inv o) fun _ => True)
    (hs : Outcome.ofExcept (m s) = .next s') : s'.Inv o := by
  cases hm : m s with
  | ok r =>
    obtain ⟨a, t⟩ := r
    rw [hm] at hs
    cases hs
    exact h.1 a _ hm
  | error e =>
    rw [hm] at hs
    cases hs

lemma Inv.uvmStep (h : s.Inv o) {a : UvmAct} (hs : s.uvmStep a = .next s') : s'.Inv o := by
  cases a with
  | uvmcreate =>
    refine inv_of_wp ((uvmcreate_spec h).post ?_) hs
    rintro _ s1 (⟨-, h1⟩ | ⟨t, -, h1⟩)
    · exact h1.inv
    · exact h1.inv
  | uvmalloc t oldsz newsz xw xx =>
    simp only [Vm.uvmStep] at hs
    split at hs
    · next hu =>
      refine inv_of_wp ((uvmalloc_spec h hu _ _ _ _).post ?_) hs
      rintro _ s1 (⟨-, -, rfl⟩ | ⟨-, ⟨-, h1⟩ | ⟨-, -, h1⟩⟩)
      · exact h
      · exact h1.inv
      · exact h1.inv
    · cases hs
  | uvmdealloc t oldsz newsz =>
    simp only [Vm.uvmStep] at hs
    split at hs
    · next hu => exact inv_of_wp ((uvmdealloc_inv h hu _ _).post fun _ _ hp => hp.1) hs
    · cases hs
  | uvmcopy old new sz =>
    simp only [Vm.uvmStep] at hs
    split at hs
    · next hu => exact inv_of_wp ((uvmcopy_inv h hu.1 hu.2 _).post fun _ _ hp => hp.1) hs
    · cases hs
  | vmfault p t va =>
    simp only [Vm.uvmStep] at hs
    split at hs
    · next hu =>
      refine inv_of_wp ((vmfault_cause h hu _ _).weaken.post ?_) hs
      rintro _ s1 (⟨-, h1⟩ | ⟨-, -, -, h1, -⟩)
      · exact h1.inv
      · exact h1.inv
    · cases hs
  | storeFault p va =>
    simp only [Vm.uvmStep] at hs
    split at hs
    · next hu =>
      refine inv_of_wp ((storeFault_cause h hu _).weaken.post ?_) hs
      rintro _ s1 (⟨-, h1⟩ | ⟨-, -, h1 | h1⟩)
      · exact h1.inv
      · exact h1.inv
      · exact h1.mapped.inv
    · cases hs
  | uvmfree t sz =>
    simp only [Vm.uvmStep] at hs
    split at hs
    · next hu => exact inv_of_wp ((uvmfree_spec h hu _).post fun _ _ hp => hp.1.inv) hs
    · cases hs

/-- The entry `p` of a user page table maps the page. -/
def Maps (s : Vm) (pa : ℕ) (p : Slot) : Prop := s.user p.root ∧ (s.pte p).v ∧ (s.pte p).pa = pa

/-- The page is held by the kernel itself: it is a page of a user page table, or one of those that
`o` says are in use elsewhere. -/
def KernelHeld (s : Vm) (o : ℕ → ℕ) (pa : ℕ) : Prop :=
  0 < o pa ∨ ∃ t, s.user t ∧ (t = pa ∨ (∃ i, (s.pt t).mid i = some pa) ∨
    ∃ ij, ((s.pt t).mid ij.1).isSome ∧ (s.pt t).low ij = some pa)

lemma kernelHeld_of_refers {r : Ref} (h : s.Refers pa r) (hr : ∀ p, r ≠ .leaf p) :
    s.KernelHeld o pa := by
  cases r with
  | leaf p => exact absurd rfl (hr p)
  | root t => exact .inr ⟨t, h.1, .inl h.2⟩
  | mid t i => exact .inr ⟨t, h.1, .inr (.inl ⟨i, h.2⟩)⟩
  | low t ij => exact .inr ⟨t, h.1, .inr (.inr ⟨ij, h.2⟩)⟩

lemma Inv.not_maps_of_kernelHeld (h : s.Inv o) (hk : s.KernelHeld o pa) (p : Slot) :
    ¬ s.Maps pa p := by
  intro hp
  have hp' : s.Refers pa (.leaf p) := hp
  rcases hk with ho | ⟨t, hu, rfl | ⟨i, hi⟩ | ⟨ij, hm, hl⟩⟩
  · exact h.refs.not_of_held ho _ hp'
  · exact nomatch h.refs.excl _ (.root t) _ ⟨hu, rfl⟩ trivial hp'
  · exact nomatch h.refs.excl _ (.mid t i) _ ⟨hu, hi⟩ trivial hp'
  · exact nomatch h.refs.excl _ (.low t ij) _ ⟨hu, hm, hl⟩ trivial hp'

lemma Inv.count_maps (h : s.Inv o) (hp : s.kmem.IsPage pa) (hk : ¬ s.KernelHeld o pa) :
    ∃ n, CountIs (s.Maps pa) n ∧ s.kmem.kref pa = n := by
  obtain ⟨n, hn, hc⟩ := h.refs.count pa hp
  have ho : o pa = 0 := by
    by_contra ho
    exact hk (.inl (Nat.pos_of_ne_zero ho))
  refine ⟨n, hn.comap (f := Ref.leaf) (fun _ _ heq => Ref.leaf.inj heq) ?_, by rw [hc, ho]; simp⟩
  intro r hr
  by_contra hne
  exact hk (kernelHeld_of_refers hr fun p hp => hne ⟨p, hp.symm⟩)

/-- The kernel's own references to a page it holds: those that `o` counts, or the one of the page
table that the page belongs to. -/
lemma Inv.count_kernelHeld (h : s.Inv o) (hk : s.KernelHeld o pa) :
    s.kmem.kref pa = if 0 < o pa then (o pa : ℤ) else 1 := by
  split_ifs with ho
  · obtain ⟨n, hn, hc⟩ := h.refs.count pa (h.refs.page_held pa ho)
    rw [hc, hn.unique (CountIs.zero_iff.mpr (h.refs.not_of_held ho))]
    simp
  · obtain ⟨r, hr, hx⟩ : ∃ r, s.Refers pa r ∧ s.Excl r := by
      rcases hk with hk | ⟨t, hu, rfl | ⟨i, hi⟩ | ⟨ij, hl⟩⟩
      · exact absurd hk ho
      · exact ⟨.root t, ⟨hu, rfl⟩, trivial⟩
      · exact ⟨.mid t i, ⟨hu, hi⟩, trivial⟩
      · exact ⟨.low t ij, ⟨hu, hl⟩, trivial⟩
    have hone : CountIs (s.Refers pa) 1 :=
      CountIs.one_iff.mpr ⟨r, hr, fun j hj => h.refs.excl pa r j hr hx hj⟩
    obtain ⟨n, hn, hc⟩ := h.refs.count pa (h.refs.page_of pa r hr)
    rw [hc, hn.unique hone, h.refs.held pa r hr]
    rfl

/-- **Reference counts and write permissions of user memory.**  After any calls, a page that the
kernel does not hold itself has as many references as entries map it, and one it does hold is mapped
by none and has the kernel's references; a page mapped twice is writable nowhere; no entry is both
writable and copy-on-write; and nothing that is mapped is on a free list. -/
theorem user_memory_refcounts {s0 s : Vm} {o : ℕ → ℕ} {as : List UvmAct} (h0 : s0.Inv o)
    (hr : Run uvmStep s0 as s) :
    (∀ pa, s.kmem.IsPage pa → ¬ s.KernelHeld o pa →
      ∃ n, CountIs (s.Maps pa) n ∧ s.kmem.kref pa = n) ∧
    (∀ pa, s.KernelHeld o pa → (∀ p, ¬ s.Maps pa p) ∧
      s.kmem.kref pa = if 0 < o pa then (o pa : ℤ) else 1) ∧
    (∀ pa p q, s.Maps pa p → s.Maps pa q → p ≠ q → (s.pte p).perm.w = false) ∧
    (∀ p, s.user p.root → ¬ ((s.pte p).perm.w ∧ (s.pte p).perm.cow)) ∧
    (∀ pa p, s.Maps pa p → ¬ s.kmem.Listed pa) := by
  have h : s.Inv o := hr.invariant (fun s a s' h hs => h.uvmStep hs) h0
  refine ⟨fun pa => h.count_maps,
    fun pa hk => ⟨h.not_maps_of_kernelHeld hk, h.count_kernelHeld hk⟩, ?_,
    fun p hu => (h.ptes p hu).cow, ?_⟩
  · intro pa p q hp hq hne
    by_contra hw
    have hw' : s.Excl (.leaf p) := by simpa [Excl] using hw
    have heq := h.refs.excl pa (.leaf p) (.leaf q) hp hw' hq
    exact hne (Ref.leaf.inj heq).symm
  · intro pa p hp hl
    have hp' : s.Refers pa (.leaf p) := hp
    have hpos := h.refs.pos hp'
    have hzero := (h.kmem.listed pa hl).2.1
    omega

end Vm

/-- Fifteen free pages; the last page of memory is the root of a kernel page table. -/
def forkVm : Vm where
  kmem := {
    kend := 0x87FF0000
    freelist := fun c => if c = 0 then (List.range 15).map fun i => 0x87FF0000 + i * PGSIZE else []
    refcnt := fun i => if i = refIdx 0x87FFF000 then 1 else 0
    mem := fun _ => 0
    sched := fun _ => 0
    tick := 0 }
  pt := fun _ => .empty
  user := fun _ => false

lemma forkVm_inv : forkVm.Inv (update (fun _ => 0) 0x87FFF000 1) := by
  have hno : ∀ pa r, ¬ forkVm.Refers pa r := by
    rintro pa (p | t | ⟨t, i⟩ | ⟨t, ij⟩) h <;> exact nomatch h.1
  refine ⟨⟨by decide, ?_⟩, ⟨?_, ?_, ?_, ?_, ?_⟩, fun p hp => nomatch hp⟩
  · rintro pa ⟨c, hc⟩
    have hc0 : c = 0 := by
      by_contra h
      simp [forkVm, h] at hc
    subst hc0
    simp only [forkVm, if_true, List.mem_map, List.mem_range] at hc
    obtain ⟨i, hi, rfl⟩ := hc
    interval_cases i <;> decide
  · intro pa hpa
    refine ⟨0, CountIs.zero_iff.mpr (hno pa), ?_⟩
    by_cases hpage : pa = 0x87FFF000
    · subst hpage
      rfl
    · have hidx : refIdx pa ≠ refIdx 0x87FFF000 := fun heq =>
        hpage (Kmem.refIdx_inj (by decide) hpa (by decide) heq)
      rw [update_of_ne hpage]
      exact if_neg hidx
  · intro pa r h
    exact absurd h (hno pa r)
  · intro pa h
    by_cases hpage : pa = 0x87FFF000
    · subst hpage
      decide
    · rw [update_of_ne hpage] at h
      exact absurd h (lt_irrefl 0)
  · intro pa r h
    exact absurd h (hno pa r)
  · intro pa r r' h
    exact absurd h (hno pa r)

/-- A process with one page forks: the page has two entries then, neither of them writable. -/
theorem user_memory_refcounts_sample :
    ∃ s, Run Vm.uvmStep forkVm [.uvmcreate, .uvmalloc 0x87FF0000 0 0x1000 true false, .uvmcreate,
        .uvmcopy 0x87FF0000 0x87FF4000 0x1000] s ∧
      s.Maps 0x87FF1000 ⟨0x87FF0000, idx 0⟩ ∧ s.Maps 0x87FF1000 ⟨0x87FF4000, idx 0⟩ ∧
      (s.pte ⟨0x87FF0000, idx 0⟩).perm.w = false ∧ s.kmem.kref 0x87FF2000 = 1 := by
  have hrun : Run Vm.uvmStep forkVm [.uvmcreate, .uvmalloc 0x87FF0000 0 0x1000 true false,
      .uvmcreate, .uvmcopy 0x87FF0000 0x87FF4000 0x1000] _ := Run.of_exec rfl
  obtain ⟨-, hheld, hshared, -⟩ := Vm.user_memory_refcounts forkVm_inv hrun
  exact ⟨_, hrun, ⟨rfl, rfl, rfl⟩, ⟨rfl, rfl, rfl⟩, hshared 0x87FF1000 _ ⟨0x87FF4000, idx 0⟩
    ⟨rfl, rfl, rfl⟩ ⟨rfl, rfl, rfl⟩ (by decide),
    (hheld 0x87FF2000 (.inr ⟨0x87FF0000, rfl, .inr (.inl ⟨0, rfl⟩)⟩)).2⟩

/-- The page-table pages of a process have a reference and no entry maps them. -/
theorem table_page_unmapped : forkVm.Inv (update (fun _ => 0) 0x87FFF000 1) ∧
    ∃ s, Run Vm.uvmStep forkVm [.uvmcreate, .uvmalloc 0x87FF0000 0 0x1000 true false] s ∧
      s.kmem.IsPage 0x87FF2000 ∧ s.kmem.kref 0x87FF2000 = 1 ∧ ∀ p, ¬ s.Maps 0x87FF2000 p := by
  have hrun : Run Vm.uvmStep forkVm [.uvmcreate, .uvmalloc 0x87FF0000 0 0x1000 true false] _ :=
    Run.of_exec rfl
  refine ⟨forkVm_inv, _, hrun, by decide, by decide, ?_⟩
  have hinv := hrun.invariant (fun s a s' h hs => h.uvmStep hs) forkVm_inv
  exact hinv.not_maps_of_kernelHeld (.inr ⟨0x87FF0000, rfl, .inr (.inl ⟨0, rfl⟩)⟩)

end Xv6
