import Xv6.Mem.Cow
import Xv6.Mem.Room

/-!
# User page faults

`usertrap` handles a load fault by `vmfault`; for a store fault it first looks for the entry with
`walk`, to see whether the page is copy-on-write. The address is the user's: any 64-bit number.

**The address.**  `vmfault` returns before it walks anywhere if the address is not below `p->sz`.
The `walk` of a store fault comes first and panics from `MAXVA` on: a user program that stores there
takes the kernel down.

**The pages.**  A fault takes up to three pages from `kalloc` (`faultPages`). Without them `kalloc`
does not return 0: its store for the page that it did not find faults in the kernel. With them the
fault ends with the page mapped or the process killed.

A guard page that `fork` has marked copy-on-write is copied like any other page, without `PTE_U`.
The store then faults once more, which kills the process.
-/

namespace Xv6

open Prog

/-- The access that has faulted: `scause` 13 or 15. -/
inductive Access where
  | load
  | store
  deriving DecidableEq

namespace Vm

variable {s s' : Vm} {o : ℕ → ℕ} {p : Proc} {va : ℕ}

/-- `usertrap` for a page fault at `stval`; `true` for `setkilled(p)`. -/
def pageFault (p : Proc) (va : ℕ) : Access → VmProg Bool
  | .load => loadFault p va
  | .store => storeFault p va

/-- The entry lets the process through. -/
def permits (pte : Pte) : Access → Bool
  | .load => pte.v && pte.perm.r
  | .store => pte.v && pte.perm.w

/-- The access can be retried: the page is mapped, and if it is not the user's, the next fault kills
the process. -/
structure Retry (s : Vm) (p : Proc) (va : ℕ) (acc : Access) : Prop where
  permits : permits (s.pte ⟨p.pagetable, idx va⟩) acc
  user : (s.pte ⟨p.pagetable, idx va⟩).perm.u ∨ pageFault p va acc s = .ok (true, s)

/-- The fault is dealt with, without a panic and without a fault of the kernel: the process is
killed or can go on. -/
def FaultHandled (s : Vm) (p : Proc) (va : ℕ) (acc : Access) : Prop :=
  ∃ killed s', pageFault p va acc s = .ok (killed, s') ∧ s'.kmem.fault = false ∧
    (killed = true ∨ Retry s' p va acc)

/-- The pages for which the handler calls `kalloc`. -/
def faultPages (s : Vm) (p : Proc) (va : ℕ) : Access → ℕ
  | .load => s.lazyPages p va
  | .store => s.storePages p va

lemma pageFault_free (h : s.kmem.Ok) (p : Proc) (va : ℕ) (acc : Access) :
    wp (pageFault p va acc) s (fun _ s' => s.kmem.Needed s'.kmem (s.faultPages p va acc))
      fun _ => True := by
  cases acc with
  | load => exact (loadFault_free h p va).post fun _ _ hb => hb.1
  | store => exact (storeFault_free h p va).post fun _ _ hb => hb.1

/-- A fault on a page that is there and not copy-on-write kills the process. -/
lemma storeFault_kills (hmax : va < MAXVA) (hv : (s.pte ⟨p.pagetable, idx va⟩).v)
    (hcow : (s.pte ⟨p.pagetable, idx va⟩).perm.cow = false) :
    storeFault p va s = .ok (true, s) := by
  have hwp : wp (storeFault p va) s (fun b s' => b = true ∧ s' = s) fun _ => False := by
    have hlazy : wp (loadFault p va) s (fun b s' => b = true ∧ s' = s) fun _ => False := by
      rw [loadFault, wp_bind, vmfault, wp_ite]
      refine ⟨fun _ => wp_pure.mpr (wp_pure.mpr ⟨rfl, rfl⟩), fun _ => ?_⟩
      rw [wp_bind, wp_ismapped, idx_pgRoundDown]
      refine ⟨fun hge => ?_, fun _ => ?_⟩
      · have hround : pgRoundDown va ≤ va := Nat.div_mul_le_self ..
        omega
      · rw [hv]
        exact wp_pure.mpr (wp_pure.mpr ⟨rfl, rfl⟩)
    rw [storeFault, wp_bind, walk_look]
    refine ⟨fun hge => absurd hmax (not_lt.mpr hge), fun _ => ?_⟩
    have hreach : (s.pt p.pagetable).reach (idx va) := by
      by_contra hreach
      simp [pte, PageTable.get, hreach, Pte.zero] at hv
    simp only [hreach, if_true, wp_bind, wp_load]
    rw [leaf_eq_pte (p := ⟨p.pagetable, idx va⟩) hreach, hcow]
    exact hlazy
  obtain ⟨b, s', hm, rfl, rfl⟩ := hwp.returns
  exact hm

lemma FaultedIn.retry (hf : FaultedIn p va s s' o) (acc : Access) : Retry s' p va acc := by
  obtain ⟨pa, hpa⟩ := hf.mapped.pte _ rfl
  refine ⟨?_, .inl ?_⟩
  · rw [hpa]
    cases acc <;> rfl
  · rw [hpa]
    rfl

lemma CopiedIn.retry (hmax : va < MAXVA) (hc : CopiedIn ⟨p.pagetable, idx va⟩ s s' o) :
    Retry s' p va .store := by
  obtain ⟨pa, hpa⟩ := hc.pte
  refine ⟨by rw [hpa]; rfl, .inr (storeFault_kills hmax ?_ ?_)⟩
  · rw [hpa]
  · rw [hpa]

lemma storeFault_panics (s : Vm) (p : Proc) (hmax : MAXVA ≤ va) :
    storeFault p va s = .error .walk := by
  rw [storeFault, walk, if_pos hmax]
  rfl

/-- Such a fault ends with the process killed or the page mapped. -/
lemma pageFault_returns (h : s.Inv o) (hu : s.user p.pagetable) (hsz : p.sz ≤ MAXVA) (va : ℕ)
    (acc : Access) (hok : acc = .load ∨ va < MAXVA) :
    ∃ killed s', pageFault p va acc s = .ok (killed, s') ∧ (killed = true ∨ Retry s' p va acc) := by
  cases acc with
  | load =>
    have hwp := (loadFault_cause h hu va).mono (fun _ _ hs => hs) fun _ he =>
      (not_lt.mpr hsz he : False)
    obtain ⟨b, s', hm, ⟨hb, -⟩ | ⟨-, hf⟩⟩ := hwp.returns
    · exact ⟨b, s', hm, .inl hb⟩
    · exact ⟨b, s', hm, .inr (hf.retry .load)⟩
  | store =>
    have hmax : va < MAXVA := hok.resolve_left (by decide)
    have hwp := (storeFault_cause h hu va).mono (fun _ _ hs => hs) fun _ he =>
      (he.elim (not_le.mpr hmax) (not_lt.mpr hsz) : False)
    obtain ⟨b, s', hm, ⟨hb, -⟩ | ⟨-, -, hc | hf⟩⟩ := hwp.returns
    · exact ⟨b, s', hm, .inl hb⟩
    · exact ⟨b, s', hm, .inr (hc.retry hmax)⟩
    · exact ⟨b, s', hm, .inr (hf.retry .store)⟩

/-- **A user page fault is handled just when it is not a store from `MAXVA` on and a page is free
whenever the handler calls `kalloc`.** -/
theorem fault_handled_iff (h : s.Inv o) (hclean : s.kmem.fault = false) (hu : s.user p.pagetable)
    (hsz : p.sz ≤ MAXVA) (va : ℕ) (acc : Access) : FaultHandled s p va acc ↔
      (acc = .load ∨ va < MAXVA) ∧ s.faultPages p va acc ≤ s.kmem.free := by
  constructor
  · rintro ⟨killed, s', hm, hfault, -⟩
    refine ⟨?_, not_lt.mp fun hlt => ?_⟩
    · cases acc with
      | load => exact .inl rfl
      | store =>
        refine .inr (not_le.mp fun hmax => ?_)
        rw [pageFault, storeFault_panics s p hmax] at hm
        cases hm
    · have hneed := (wp_ok_iff hm).mp (pageFault_free h.kmem p va acc)
      simp [hneed.short (.inl hlt)] at hfault
  · rintro ⟨hok, hle⟩
    obtain ⟨killed, s', hm, hdone⟩ := pageFault_returns h hu hsz va acc hok
    have hneed := (wp_ok_iff hm).mp (pageFault_free h.kmem p va acc)
    exact ⟨killed, s', hm, (hneed.enough hle).trans hclean, hdone⟩

end Vm

/-- A store to a page that the process has asked for lazily. -/
theorem fault_handled_sample :
    Vm.FaultHandled forkSys.vm ⟨0x3000, 0x87FF0000, 0x87FFF000⟩ 0x2000 .store := by
  obtain ⟨o, h⟩ := forkSys_ok
  exact (Vm.fault_handled_iff (p := ⟨0x3000, 0x87FF0000, 0x87FFF000⟩) h.vm rfl
    (h.user 1 _ rfl :) (by decide) 0x2000 .store).mpr ⟨.inr (by decide), by decide⟩

/-- A store to `MAXVA` is a panic in `walk`. -/
theorem store_at_maxva_panics : forkSys.Ok ∧
    forkSys.proc 1 = some ⟨0x1000, 0x87FF0000, 0x87FFF000⟩ ∧
    Vm.pageFault ⟨0x1000, 0x87FF0000, 0x87FFF000⟩ MAXVA .store forkSys.vm = .error .walk :=
  ⟨forkSys_ok, rfl, Vm.storeFault_panics _ _ le_rfl⟩

end Xv6
