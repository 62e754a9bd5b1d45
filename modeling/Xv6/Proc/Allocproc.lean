import Xv6.Mem.Proc
import Xv6.Mem.Room

/-!
# The pages of a process

`allocproc` gives a process slot its pages one after the other: the trapframe, the user page table,
the kernel page table with everything `kvmmake` maps in it, a page for the kernel stack, and the
trapframe that `sigreturn` restores. `freeproc` gives them back.

**Two stacks in one place.**  `kvmmake` ends with `proc_mapstacks`, which maps a stack for every
slot of the process table, so the new table has a page at `KSTACK(i)` for each `i` (`kvmmake_maps`).
`allocproc` then maps another one at `p->kstack`, which is one of these addresses, and `mappages`
panics on it. With no page left it does not come back either: `kalloc` itself faults then, at its
store to `ref.refcnt`. So `allocproc` never returns.

`etext` and `trampoline` are addresses from the linker. `ukvmunmap` and `ufreewalk` are not in the
source; they are taken to be `kvmunmap` and `kfreewalk`.
-/

namespace Xv6

open Prog

/-- The pointers of a `struct proc`, `none` for null. -/
structure ProcPages where
  kstack : ℕ
  trapframe : Option ℕ := none
  pagetable : Option ℕ := none
  kpagetable : Option ℕ := none
  alarmTrapframe : Option ℕ := none
  sz : ℕ := 0

/-- The panics of `allocproc`, `freeproc` and what they call. -/
inductive AllocPanic where
  | vm (e : VmPanic)
  | kvmmap
  | kalloc
  | paKalloc
  | kvmunmapAlign
  | kvmunmapLeaf
  deriving DecidableEq

abbrev PcProg := Prog Vm AllocPanic

namespace ProcPages

open Vm

/-! ## Allocation -/

/-- The table, or `none` for 0. -/
def procPagetable (trampoline trapframe : ℕ) : VmProg (Option ℕ) := do
  match ← uvmcreate with
  | none => pure none
  | some pagetable =>
    if ← mappages pagetable TRAMPOLINE PGSIZE trampoline { r := true, x := true } then
      if ← mappages pagetable TRAPFRAME PGSIZE trapframe { r := true, w := true } then
        pure (some pagetable)
      else
        uvmunmap pagetable TRAMPOLINE 1 false
        uvmfree pagetable 0
        pure none
    else
      uvmfree pagetable 0
      pure none

/-- `kalloc` as the machine runs it: without a page its store to `ref.refcnt` faults. -/
def kalloc : PcProg (Option ℕ) := do
  match ← Vm.kalloc.mapError .vm with
  | none => throw (.vm .kernelFault)
  | some pa => pure (some pa)

def kvmmap (kpgtbl va pa sz : ℕ) (perm : Perm) : PcProg Unit := do
  if ← (mappages kpgtbl va sz pa perm).mapError .vm then pure () else throw .kvmmap

/-- One round of `proc_mapstacks`. -/
def mapStack (kpgtbl i : ℕ) : PcProg Unit := do
  match ← kalloc with
  | none => throw .kalloc
  | some pa => kvmmap kpgtbl (KSTACK i) pa PGSIZE { r := true, w := true }

def procMapstacks (kpgtbl : ℕ) : PcProg Unit := forRange (mapStack kpgtbl) 0 NPROC

/-- `kvmmake`; the `memset` of a null page faults. -/
def kvmmake (etext trampoline : ℕ) : PcProg ℕ := do
  match ← kalloc with
  | none => throw (.vm .kernelFault)
  | some kpgtbl => do
      (memset kpgtbl 0).mapError .vm
      modify fun s => s.setPt kpgtbl .empty
      kvmmap kpgtbl UART0 UART0 PGSIZE { r := true, w := true }
      kvmmap kpgtbl VIRTIO0 VIRTIO0 PGSIZE { r := true, w := true }
      kvmmap kpgtbl PLIC PLIC 0x4000000 { r := true, w := true }
      kvmmap kpgtbl KERNBASE KERNBASE (etext - KERNBASE) { r := true, x := true }
      kvmmap kpgtbl etext etext (PHYSTOP - etext) { r := true, w := true }
      kvmmap kpgtbl TRAMPOLINE trampoline PGSIZE { r := true, x := true }
      procMapstacks kpgtbl
      pure kpgtbl

/-! ## Release -/

/-- One round of `kvmunmap`: without a page for the entry the store goes to a null pointer. -/
def kunmapPage (pagetable a : ℕ) : PcProg Unit := do
  match ← (walk pagetable a false).mapError .vm with
  | none => throw (.vm .kernelFault)
  | some slot => do
      let pte ← (load slot).mapError .vm
      if pte.v ∧ pte.perm = {} then throw .kvmunmapLeaf
      else (store slot .zero).mapError .vm

def kvmunmap (pagetable va npages : ℕ) : PcProg Unit := do
  if va % PGSIZE ≠ 0 then throw .kvmunmapAlign
  else forRange (fun k => kunmapPage pagetable (va + k * PGSIZE)) 0 npages

/-- `kfreewalk` of a level-1 page and its level-0 pages, whose entries are dropped. -/
def kfreewalkMid (pagetable : ℕ) (i : Fin 512) (page : ℕ) : VmProg Unit := do
  forRange (fun j => do
    let s ← get
    match (s.pt pagetable).low (i, Fin.ofNat 512 j) with
    | none => pure ()
    | some child => do
        kfree child
        modify fun s => s.setPt pagetable ((s.pt pagetable).clearLow (i, Fin.ofNat 512 j))) 0 512
  kfree page

def kfreewalk (pagetable : ℕ) : VmProg Unit := do
  forRange (fun i => do
    let s ← get
    match (s.pt pagetable).mid (Fin.ofNat 512 i) with
    | none => pure ()
    | some child => do
        kfreewalkMid pagetable (Fin.ofNat 512 i) child
        modify fun s => s.setPt pagetable ((s.pt pagetable).clearMid (Fin.ofNat 512 i))) 0 512
  kfree pagetable

/-- `kvmfreeproc`; of the PLIC it unmaps less than `kvmmake` has mapped. -/
def kvmfreeproc (etext kpagetable kstack : ℕ) : PcProg Unit := do
  kvmunmap kpagetable kstack 1
  kvmunmap kpagetable TRAMPOLINE 1
  kvmunmap kpagetable etext ((PHYSTOP - etext) / PGSIZE)
  kvmunmap kpagetable KERNBASE ((etext - KERNBASE) / PGSIZE)
  kvmunmap kpagetable PLIC (0x400000 / PGSIZE)
  kvmunmap kpagetable VIRTIO0 1
  kvmunmap kpagetable UART0 1
  (kfreewalk kpagetable).mapError .vm

def procFreepagetable (pagetable sz : ℕ) : VmProg Unit := do
  uvmunmap pagetable TRAMPOLINE 1 false
  uvmunmap pagetable TRAPFRAME 1 false
  uvmfree pagetable sz

/-- `freeproc`. `alarm_trapframe` is set to 0 and its page is not given back. -/
def freeproc (etext : ℕ) (p : ProcPages) : PcProg Unit := do
  match p.trapframe with
  | some page => (kfree page).mapError .vm
  | none => pure ()
  match p.pagetable with
  | some pagetable => (procFreepagetable pagetable p.sz).mapError .vm
  | none => pure ()
  match p.kpagetable with
  | some kpagetable => kvmfreeproc etext kpagetable p.kstack
  | none => pure ()

/-- `allocproc` from `found` on: the process, or `none` for 0. -/
def allocproc (etext trampoline : ℕ) (p : ProcPages) : PcProg (Option ProcPages) := do
  match ← kalloc with
  | none => do
      freeproc etext { p with trapframe := none }
      pure none
  | some trapframe => do
      let pagetable ← (procPagetable trampoline trapframe).mapError .vm
      let kpagetable ← kvmmake etext trampoline
      match ← kalloc with
      | none => throw .paKalloc
      | some pa => do
          (memset pa 0).mapError .vm
          kvmmap kpagetable p.kstack pa PGSIZE { r := true, w := true }
      let p := { p with trapframe := trapframe, pagetable := pagetable, kpagetable := kpagetable }
      if pagetable.isNone then
        freeproc etext p
        pure none
      else
        match ← kalloc with
        | none => do
            freeproc etext { p with alarmTrapframe := none }
            pure none
        | some page => pure (some { p with alarmTrapframe := page })

/-- The process gets user memory: calls of `growproc`. -/
def grow (p : ProcPages) : List ℤ → PcProg ProcPages
  | [] => pure p
  | n :: ns => do
      match p.pagetable, p.kpagetable with
      | some pagetable, some kpagetable =>
        match ← (growproc ⟨p.sz, pagetable, kpagetable⟩ n).mapError .vm with
        | none => grow p ns
        | some q => grow { p with sz := q.sz } ns
      | _, _ => pure p

/-! ## Pages are conserved -/

/-- A slot that is not used. -/
def unused (i : ℕ) : ProcPages := { kstack := KSTACK i }

/-- A process is created and destroyed without losing a page. -/
structure Conserves (s : Vm) (etext trampoline i : ℕ) : Prop where
  alloc : ∃ r s', allocproc etext trampoline (unused i) s = .ok (r, s') ∧
    (r = none → s'.kmem.free = s.kmem.free)
  free : ∀ p s₁ ns p' s₂, allocproc etext trampoline (unused i) s = .ok (some p, s₁) →
    grow p ns s₁ = .ok (p', s₂) →
    ∃ s₃, freeproc etext p' s₂ = .ok ((), s₃) ∧ s₃.kmem.free = s.kmem.free

variable {s s' : Vm} {t va pa : ℕ} {perm : Perm}

/-- No mapping is lost. -/
def KeepsMaps (s s' : Vm) : Prop := ∀ q, (s.pte q).v → (s'.pte q).v

lemma mapPage_maps (s : Vm) (t va pa : ℕ) (perm : Perm) : wp (mapPage t va pa perm) s
      (fun r s' => KeepsMaps s s' ∧
      (r = none → (s.pte ⟨t, idx va⟩).v = false ∧ (s'.pte ⟨t, idx va⟩).v))
      fun _ => True := by
  rw [mapPage, wp_bind]
  refine (walk_frame s t va true).mono ?_ fun _ _ => trivial
  rintro (_ | slot) s1 ⟨hpte, hslot⟩
  · exact wp_pure.mpr ⟨fun q hq => hpte q ▸ hq, by simp⟩
  · obtain ⟨rfl, hreach⟩ := hslot slot rfl
    simp only [wp_bind, wp_load, wp_ite, wp_throw, wp_store, wp_pure]
    rw [leaf_eq_pte (p := ⟨t, idx va⟩) hreach, hpte]
    refine ⟨fun _ => trivial, fun hv => ?_⟩
    have hstore := pte_store (p := ⟨t, idx va⟩) hreach ⟨true, perm, pa⟩
    refine ⟨fun q hq => ?_, fun _ => ⟨by simpa using hv, ?_⟩⟩
    · rw [hstore]
      split
      · rfl
      · rw [hpte]
        exact hq
    · rw [hstore, if_pos rfl]

lemma mappages_maps (s : Vm) (t va pa : ℕ) (perm : Perm) :
    wp (mappages t va PGSIZE pa perm) s (fun r s' => KeepsMaps s s' ∧
        (r = true → (s.pte ⟨t, idx va⟩).v = false ∧ (s'.pte ⟨t, idx va⟩).v)) fun _ => True := by
  have hone : PGSIZE / PGSIZE = 1 := by decide
  simp only [mappages, wp_ite, wp_throw]
  refine ⟨fun _ => trivial, fun _ => ⟨fun _ => trivial, fun _ => ⟨fun _ => trivial, fun _ => ?_⟩⟩⟩
  rw [hone, wp_bind]
  simp only [forUntil, wp_bind, Nat.zero_mul, Nat.add_zero]
  refine (mapPage_maps s t va pa perm).post ?_
  rintro (_ | _) s1 ⟨hkeep, hmap⟩
  · exact wp_pure.mpr (wp_pure.mpr ⟨hkeep, fun _ => hmap rfl⟩)
  · exact wp_pure.mpr (wp_pure.mpr ⟨hkeep, by simp⟩)

/-- `kvmmap` of one page returns only if the address was not mapped; then it is. -/
lemma kvmmap_maps (s : Vm) (t va pa : ℕ) (perm : Perm) : wp (kvmmap t va pa PGSIZE perm) s
      (fun _ s' => KeepsMaps s s' ∧ (s.pte ⟨t, idx va⟩).v = false ∧ (s'.pte ⟨t, idx va⟩).v)
      fun _ => True := by
  rw [kvmmap, wp_bind, wp_mapError]
  refine (mappages_maps s t va pa perm).post ?_
  rintro r s1 ⟨hkeep, hmap⟩
  rw [wp_ite]
  exact ⟨fun hr => wp_pure.mpr ⟨hkeep, hmap hr⟩, fun _ => wp_throw.mpr trivial⟩

/-- `kalloc` returns only with a page. -/
lemma wp_kalloc_some {Q : Option ℕ → Vm → Prop} (h : ∀ pa k, Q (some pa) { s with kmem := k }) :
    wp kalloc s Q fun _ => True := by
  rw [kalloc, wp_bind, wp_mapError, wp_kalloc]
  rcases s.kmem.kalloc with ⟨_ | pa, k⟩
  · exact wp_throw.mpr trivial
  · exact wp_pure.mpr (h pa k)

lemma mapStack_maps (s : Vm) (t i : ℕ) : wp (mapStack t i) s
      (fun _ s' => KeepsMaps s s' ∧ (s'.pte ⟨t, idx (KSTACK i)⟩).v) fun _ => True := by
  rw [mapStack, wp_bind]
  refine wp_kalloc_some fun pa k => (kvmmap_maps { s with kmem := k } t (KSTACK i) pa _).post ?_
  rintro - s' ⟨hkeep, -, hmap⟩
  exact ⟨hkeep, hmap⟩

/-- **The new kernel page table has a stack for every slot.** -/
lemma kvmmake_maps (s : Vm) (etext trampoline : ℕ) : wp (kvmmake etext trampoline) s
      (fun t s' => ∀ i < NPROC, (s'.pte ⟨t, idx (KSTACK i)⟩).v) fun _ => True := by
  rw [kvmmake, wp_bind]
  refine wp_kalloc_some fun t k => ?_
  simp only [wp_bind, wp_mapError, wp_memset, wp_modify]
  -- nothing depends on the mappings before the stacks
  refine wp_true.post fun _ _ _ => wp_true.post fun _ _ _ => wp_true.post fun _ _ _ =>
    wp_true.post fun _ _ _ => wp_true.post fun _ _ _ => wp_true.post fun _ _ _ => ?_
  rw [procMapstacks]
  refine (wp_forRange (fun k s' => ∀ i < k, (s'.pte ⟨t, idx (KSTACK i)⟩).v)
    (fun i hi => absurd hi (Nat.not_lt_zero i)) ?_).post ?_
  · intro j s7 _ _ h7
    refine (mapStack_maps s7 t j).post ?_
    rintro - s8 ⟨hkeep, hmap⟩ i hi
    rcases Nat.lt_succ_iff_lt_or_eq.mp hi with hlt | rfl
    · exact hkeep _ (h7 i hlt)
    · exact hmap
  · intro _ s7 h7
    rw [Nat.zero_add] at h7
    exact wp_pure.mpr h7

lemma allocproc_panics (s : Vm) (etext trampoline : ℕ) {i : ℕ} (hi : i < NPROC) :
    wp (allocproc etext trampoline (unused i)) s (fun _ _ => False) fun _ => True := by
  rw [allocproc, wp_bind]
  refine wp_kalloc_some fun trapframe k => ?_
  simp only [wp_bind, wp_mapError]
  refine wp_true.post fun pagetable s1 _ => ?_
  refine (kvmmake_maps s1 etext trampoline).post fun t s2 hstacks => ?_
  refine wp_kalloc_some fun pa k2 => ?_
  simp only [wp_bind, wp_mapError, wp_memset]
  refine (kvmmap_maps ..).post ?_
  rintro - s3 ⟨-, hmap, -⟩
  cases (hstacks i hi).symm.trans hmap

/-- **Pages are never conserved**: whatever is on the free lists, `allocproc` does not return. -/
theorem pages_never_conserved (s : Vm) (etext trampoline : ℕ) {i : ℕ} (hi : i < NPROC) :
    ¬ Conserves s etext trampoline i := by
  rintro ⟨⟨r, s', hm, -⟩, -⟩
  exact (allocproc_panics s etext trampoline hi).1 r s' hm

/-- A machine with 117 MB of free pages, all on the list of CPU 0. -/
def freshVm : Vm where
  kmem := {
    kend := 0x80100000
    freelist := fun c => if c = 0 then (List.range 30000).map fun i =>
      0x80100000 + i * PGSIZE else []
    refcnt := fun _ => 0
    mem := fun _ => 0
    sched := fun _ => 0
    tick := 0 }
  pt := fun _ => .empty
  user := fun _ => false

theorem pages_never_conserved_sample : ¬ Conserves freshVm 0x80008000 0x80007000 0 :=
  pages_never_conserved freshVm 0x80008000 0x80007000 (by decide)

/-- With 117 MB free, `allocproc` panics. -/
theorem allocproc_panics_sample :
    ∃ e, allocproc 0x80008000 0x80007000 (unused 0) freshVm = .error e := by
  have hwp := allocproc_panics freshVm 0x80008000 0x80007000 (i := 0) (by decide)
  cases hm : allocproc 0x80008000 0x80007000 (unused 0) freshVm with
  | ok r => exact (hwp.1 r.1 r.2 hm).elim
  | error e => exact ⟨e, rfl⟩

end ProcPages

end Xv6
