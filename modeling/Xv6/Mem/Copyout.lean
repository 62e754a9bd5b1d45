import Xv6.Mem.Exec
import Xv6.Mem.Fault

/-!
# `copyout` and the stores of the user

`copyout` writes to the memory of a process for the kernel; a user program writes with store
instructions, whose faults `usertrap` resolves. They differ on two states of a page.

**Copy-on-write.**  `usertrap` copies the page. `copyout` finds the entry without `PTE_W` and
returns -1: after `fork`, a `read` into memory that neither process has written to since fails.

**The end of memory.**  `copyout` passes the start of the page to `vmfault`, `usertrap` the address
itself. In the last page below `PGROUNDUP(p->sz)` `copyout` therefore writes beyond `p->sz` where a
store is a fault that kills the process. Only the first byte of the range makes a difference: from
there on the page is mapped.

On every other mix of pages the two agree (`copyout_agrees_iff`).
-/

namespace Xv6

open List Prog EagerProc

/-! ## Stores of the user -/

namespace Vm

/-- How a store ends; `faulting` if it is to be executed again. -/
inductive StoreEnd where
  | stored
  | killed
  | faulting
  deriving DecidableEq

/-- A store instruction, executed `n` times at most: again after each fault that `usertrap` has
handled. -/
def storeRetry (p : Proc) (va : ℕ) (b : UInt8) : ℕ → VmProg StoreEnd
  | 0 => pure .faulting
  | n + 1 => do
      let s ← get
      if s.canStore p va then
        set (s.writeByte p va b)
        pure .stored
      else if ← storeFault p va then pure .killed
      else storeRetry p va b n

/-- A store instruction: `false` if the process is killed. It is executed twice at most
(`storeRetry_run`). -/
def storeByte (p : Proc) (va : ℕ) (b : UInt8) : VmProg Bool := do
  let r ← storeRetry p va b 2
  return r = .stored

/-- The bytes are stored one after the other. -/
def storeBytes (p : Proc) : ℕ → List UInt8 → VmProg Bool
  | _, [] => pure true
  | va, b :: bs => do
      if ← storeByte p va b then storeBytes p (va + 1) bs
      else pure false

/-- The bytes are written through the entries there are. -/
def writeBytes (s : Vm) (p : Proc) : ℕ → List UInt8 → Vm
  | _, [] => s
  | va, b :: bs => (s.writeByte p va b).writeBytes p (va + 1) bs

end Vm

namespace EagerProc

/-- A page of zeros, if there is none yet, also beyond `sz`. -/
def provide (e : EagerProc) (va : ℕ) : EagerProc :=
  if (e.page (idx va)).isNone then e.setPage (idx va) (some (Vm.zeroPage Vm.lazyPerm)) else e

def storeAll (e : EagerProc) : ℕ → List UInt8 → EagerProc
  | _, [] => e
  | va, b :: bs => ((e.provide va).write va b).storeAll (va + 1) bs

lemma provide_provide (e : EagerProc) (va : ℕ) : (e.provide va).provide va = e.provide va := by
  by_cases h : (e.page (idx va)).isNone
  · simp [provide, h, setPage]
  · simp [provide, h]

lemma provide_storeAll (e : EagerProc) (va : ℕ) (b : UInt8) (bs : List UInt8) :
    (e.provide va).storeAll va (b :: bs) = e.storeAll va (b :: bs) := by
  rw [storeAll, storeAll, provide_provide]

lemma storeAll_take_drop (e : EagerProc) (va m : ℕ) (bs : List UInt8) :
    (e.storeAll va (bs.take m)).storeAll (va + m) (bs.drop m) = e.storeAll va bs := by
  induction m generalizing e va bs with
  | zero => rfl
  | succ m ih =>
    cases bs with
    | nil => rfl
    | cons b bs =>
      rw [take_succ_cons, drop_succ_cons, storeAll, storeAll, ← ih _ (va + 1) bs,
        Nat.add_right_comm, Nat.add_assoc]

lemma fault_eq_provide {e : EagerProc} {va : ℕ} (h : va < e.sz) : e.fault va = e.provide va := by
  simp [fault, provide, h]

end EagerProc

namespace Vm

variable {s s' s1 : Vm} {o : ℕ → ℕ} {p : Proc} {va dstva : ℕ} {b : UInt8} {bs src : List UInt8}

lemma Sees.refl (h : s.Inv o) : Sees s s o p (s.seen p) := ⟨h, rfl, rfl, fun _ _ _ => rfl⟩

lemma Sees.trans {e : EagerProc} (h : Sees s s1 o p (s1.seen p)) (h' : Sees s1 s' o p e) :
    Sees s s' o p e :=
  ⟨h'.inv, h'.user.trans h.user, h'.seen, fun q hq hne =>
    (h'.other q (h.user ▸ hq) hne).trans (h.other q hq hne)⟩

lemma seen_provide_of_valid (hv : (s.pte ⟨p.pagetable, idx va⟩).v) :
    (s.seen p).provide va = s.seen p := by
  simp [provide, seen, page, hv]

/-! ## Bytes of one page -/

@[simp] lemma writeBytes_pte (s : Vm) (p : Proc) (va : ℕ) (bs : List UInt8) (q : Slot) :
    (s.writeBytes p va bs).pte q = s.pte q := by
  induction bs generalizing s va with
  | nil => rfl
  | cons b bs ih =>
    rw [writeBytes, ih]
    rfl

@[simp] lemma writeBytes_free (s : Vm) (p : Proc) (va : ℕ) (bs : List UInt8) :
    (s.writeBytes p va bs).kmem.free = s.kmem.free := by
  induction bs generalizing s va with
  | nil => rfl
  | cons b bs ih =>
    rw [writeBytes, ih]
    rfl

lemma writeBytes_eq (pa : ℕ)
    (h : ∀ i < bs.length, (s.pte ⟨p.pagetable, idx (va + i)⟩).pa + (va + i) % PGSIZE = pa + i) :
    s.writeBytes p va bs = { s with kmem := { s.kmem with
      mem := fun a => if pa ≤ a then bs.getD (a - pa) (s.kmem.mem a) else s.kmem.mem a } } := by
  induction bs generalizing s va pa with
  | nil => simp [writeBytes]
  | cons b bs ih =>
    have h0 := h 0 (Nat.succ_pos _)
    simp only [Nat.add_zero] at h0
    have hrest : ∀ i < bs.length, ((s.writeByte p va b).pte ⟨p.pagetable, idx (va + 1 + i)⟩).pa +
        (va + 1 + i) % PGSIZE = pa + 1 + i := by
      intro i hi
      have hi' := h (i + 1) (Nat.succ_lt_succ hi)
      rw [← Nat.add_assoc, Nat.add_right_comm] at hi'
      rw [Nat.add_right_comm pa]
      exact hi'
    rw [writeBytes, ih (pa + 1) hrest]
    simp only [writeByte, h0]
    congr 2
    funext a
    rcases lt_trichotomy a pa with ha | rfl | ha
    · rw [if_neg (by omega), if_neg (by omega), Function.update_of_ne (by omega)]
    · rw [if_neg (by omega), if_pos le_rfl, Function.update_self, Nat.sub_self]
      rfl
    · obtain ⟨k, rfl⟩ := Nat.exists_eq_add_of_lt ha
      rw [if_pos (by omega), if_pos (by omega), Function.update_of_ne (by omega)]
      have hk : pa + k + 1 - (pa + 1) = k := by omega
      have hk' : pa + k + 1 - pa = k + 1 := by omega
      rw [hk, hk']
      rfl

lemma canStore_tail (hc : ∀ i < (b :: bs).length, s.canStore p (va + i)) :
    ∀ i < bs.length, (s.writeByte p va b).canStore p (va + 1 + i) := by
  intro i hi
  have hi' := hc (i + 1) (Nat.succ_lt_succ hi)
  rw [← Nat.add_assoc, Nat.add_right_comm] at hi'
  exact hi'

lemma sees_writeBytes (h : s.Inv o) (hu : s.user p.pagetable)
    (hc : ∀ i < bs.length, s.canStore p (va + i)) :
    Sees s (s.writeBytes p va bs) o p ((s.seen p).storeAll va bs) := by
  induction bs generalizing s va with
  | nil => exact .refl h
  | cons b bs ih =>
    have hc0 : s.canStore p va := hc 0 (Nat.succ_pos _)
    have hfirst := sees_write (b := b) h hu hc0
    have htail := ih hfirst.inv hu (canStore_tail hc)
    rw [storeAll, seen_provide_of_valid (valid_of_canStore hc0), writeBytes, ← hfirst.seen]
    exact Sees.trans (hfirst.seen.symm ▸ hfirst) htail

lemma storeBytes_direct (hc : ∀ i < bs.length, s.canStore p (va + i)) :
    storeBytes p va bs s = .ok (true, s.writeBytes p va bs) := by
  induction bs generalizing s va with
  | nil => rfl
  | cons b bs ih =>
    have hc0 : s.canStore p va := hc 0 (Nat.succ_pos _)
    have hone : storeByte p va b s = .ok (true, s.writeByte p va b) := by
      have hwp : wp (storeByte p va b) s (fun r s' => r = true ∧ s' = s.writeByte p va b)
          fun _ => False := by
        rw [storeByte, storeRetry, wp_bind, wp_bind, wp_get, if_pos hc0, wp_bind, wp_set]
        exact wp_pure.mpr (wp_pure.mpr ⟨rfl, rfl⟩)
      obtain ⟨_, _, hm, rfl, rfl⟩ := hwp.returns
      exact hm
    rw [storeBytes, run_bind hone, if_pos rfl]
    exact ih (canStore_tail hc)

lemma canStore_iff : s.canStore p va ↔ va < MAXVA ∧ (s.pte ⟨p.pagetable, idx va⟩).v ∧
    (s.pte ⟨p.pagetable, idx va⟩).perm.u ∧ (s.pte ⟨p.pagetable, idx va⟩).perm.w := by
  simp [canStore, and_assoc]

/-! ## What one page needs -/

/-- `copyout` can write to the page of `va`. -/
def CopyOk (s : Vm) (p : Proc) (va : ℕ) : Prop :=
  va < MAXVA ∧ ((s.pte ⟨p.pagetable, idx va⟩).v ∧ (s.pte ⟨p.pagetable, idx va⟩).perm.u ∧
      (s.pte ⟨p.pagetable, idx va⟩).perm.w ∨
    (s.pte ⟨p.pagetable, idx va⟩).v = false ∧ pgRoundDown va < p.sz)

/-- The user can store to the page of `va`, beginning with `first`. -/
def StoreOk (s : Vm) (p : Proc) (first va : ℕ) : Prop :=
  va < MAXVA ∧ ((s.pte ⟨p.pagetable, idx va⟩).v ∧ (s.pte ⟨p.pagetable, idx va⟩).perm.u ∧
      ((s.pte ⟨p.pagetable, idx va⟩).perm.w ∨ (s.pte ⟨p.pagetable, idx va⟩).perm.cow) ∨
    (s.pte ⟨p.pagetable, idx va⟩).v = false ∧ first < p.sz)

/-- At most the entry of `va` has changed, and three pages have been taken. -/
structure Touched (s s' : Vm) (o : ℕ → ℕ) (p : Proc) (va : ℕ) : Prop where
  inv : s'.Inv o
  user : s'.user = s.user
  kept : ∀ q, q ≠ ⟨p.pagetable, idx va⟩ → s'.pte q = s.pte q
  free : s.kmem.free ≤ s'.kmem.free + 3

lemma Touched.refl (h : s.Inv o) : Touched s s o p va :=
    ⟨h, rfl, fun _ _ => rfl, Nat.le_add_right ..⟩

lemma Touched.writeBytes (h : Touched s s1 o p va) (hu : s.user p.pagetable)
    (hc : ∀ i < bs.length, s1.canStore p (va + i)) : Touched s (s1.writeBytes p va bs) o p va := by
  have hsees := sees_writeBytes h.inv (h.user ▸ hu) hc
  refine ⟨hsees.inv, hsees.user.trans h.user, ?_, ?_⟩
  · intro q hq
    rw [writeBytes_pte, h.kept q hq]
  · rw [writeBytes_free]
    exact h.free

lemma Sees.writeBytes (h : Sees s s1 o p ((s.seen p).provide va)) (hu : s.user p.pagetable)
    (hne : bs ≠ []) (hc : ∀ i < bs.length, s1.canStore p (va + i)) :
    Sees s (s1.writeBytes p va bs) o p ((s.seen p).storeAll va bs) := by
  obtain ⟨b, bs, rfl⟩ := exists_cons_of_ne_nil hne
  have hsees := sees_writeBytes h.inv (h.user ▸ hu) hc
  rw [← provide_storeAll, ← h.seen]
  exact Sees.trans (h.seen.symm ▸ h) hsees

lemma FaultedIn.provide (hf : FaultedIn p va s s' o) (hu : s.user p.pagetable) :
    Sees s s' o p ((s.seen p).provide va) := by
  have hlt : va < (s.seen p).sz := hf.lt
  rw [← fault_eq_provide hlt]
  exact hf.sees hu

/-- The byte has been stored. -/
abbrev Stored (s s' : Vm) (o : ℕ → ℕ) (p : Proc) (va : ℕ) (b : UInt8) : Prop :=
  StoreOk s p va va ∧ ∃ s1, s' = s1.writeByte p va b ∧ s1.canStore p va ∧ Touched s s1 o p va ∧
    ((s.pte ⟨p.pagetable, idx va⟩).perm.cow = false → Sees s s1 o p ((s.seen p).provide va))

/-- Two executions settle a store: it is made or the process is killed. -/
lemma storeRetry_run (h : s.Inv o) (hu : s.user p.pagetable) (hsz : p.sz ≤ MAXVA)
    (hfree : 3 ≤ s.kmem.free) (n : ℕ) :
    wp (storeRetry p va b (n + 2)) s
      (fun r s' => r = .stored ∧ Stored s s' o p va b ∨ r = .killed ∧ ¬ StoreOk s p va va)
      fun _ => MAXVA ≤ va := by
  rw [storeRetry, wp_bind, wp_get, wp_ite]
  refine ⟨fun hc => ?_, fun hc => ?_⟩
  · rw [wp_bind, wp_set]
    obtain ⟨hmax, hv, huser, hw⟩ := canStore_iff.mp hc
    refine wp_pure.mpr (.inl ⟨rfl, ⟨hmax, .inl ⟨hv, huser, .inl hw⟩⟩, s, rfl, hc, .refl h,
      fun _ => ?_⟩)
    rw [seen_provide_of_valid hv]
    exact .refl h
  · rw [wp_bind]
    refine ((storeFault_cause h hu va).and (storeFault_free h.kmem p va)).mono ?_ ?_
    · rintro killed s1 ⟨hspec, hneed, hgets⟩
      have hle := storePages_le s p va
      have hroom : s.kmem.free ≤ s1.kmem.free + 3 := hneed.free.trans (Nat.add_le_add_left hle _)
      have hkilled (hk : killed = true) : ¬ StoreOk s p va va := by
        rintro ⟨hmax, ⟨hv, huser, hw | hcow⟩ | ⟨hv, hlt⟩⟩
        · exact hc (canStore_iff.mpr ⟨hmax, hv, huser, hw⟩)
        · cases hk.symm.trans (hgets (hle.trans hfree) (.inl hcow))
        · cases hk.symm.trans (hgets (hle.trans hfree) (.inr ⟨hlt, hv⟩))
      obtain ⟨rfl, -⟩ | ⟨rfl, hmax, hcopy | hfresh⟩ := hspec
      · exact wp_pure.mpr (.inr ⟨rfl, hkilled rfl⟩)
      · have hv := h.valid_of_cow hu hcopy.cow
        obtain ⟨pa, hpa⟩ := hcopy.pte
        simp only [Bool.false_eq_true, if_false, storeRetry]
        rw [wp_bind, wp_get, wp_ite]
        refine ⟨fun hc1 => ?_, fun hc1 => ?_⟩
        · rw [wp_bind, wp_set]
          have huser := (canStore_iff.mp hc1).2.2.1
          rw [hpa] at huser
          refine wp_pure.mpr (.inl ⟨rfl, ⟨hmax, .inl ⟨hv, huser, .inr hcopy.cow⟩⟩, s1, rfl,
            hc1, ⟨hcopy.inv, hcopy.user, hcopy.kept, hroom⟩, fun hcow => ?_⟩)
          cases hcow.symm.trans hcopy.cow
        · -- a guard page that `fork` has marked
          rw [wp_bind]
          refine wp_of_ok (storeFault_kills hmax (by rw [hpa]) (by rw [hpa])) ?_
          refine wp_pure.mpr (.inr ⟨rfl, ?_⟩)
          rintro ⟨-, ⟨-, huser, -⟩ | ⟨hv', -⟩⟩
          · refine hc1 (canStore_iff.mpr ?_)
            rw [hpa]
            exact ⟨hmax, rfl, huser, rfl⟩
          · cases hv.symm.trans hv'
      · obtain ⟨pa, hpa⟩ := hfresh.mapped.pte _ rfl
        have hc1 : s1.canStore p va := by
          rw [canStore_iff, hpa]
          exact ⟨hmax, rfl, rfl, rfl⟩
        simp only [Bool.false_eq_true, if_false, storeRetry]
        rw [wp_bind, wp_get, if_pos hc1, wp_bind, wp_set]
        exact wp_pure.mpr (.inl ⟨rfl, ⟨hmax, .inr ⟨hfresh.free, hfresh.lt⟩⟩, s1, rfl, hc1,
          ⟨hfresh.mapped.inv, hfresh.mapped.user, hfresh.mapped.kept, hroom⟩,
          fun _ => hfresh.provide hu⟩)
    · rintro e ⟨hmax | hmax, -⟩
      · exact hmax
      · exact absurd hmax (not_lt.mpr hsz)

/-- **A store instruction is settled by two executions**: it is made, if the page is the user's to
write or to copy or has not been touched yet, and otherwise kills the process. -/
theorem storeRetry_settles (h : s.Inv o) (hu : s.user p.pagetable) (hsz : p.sz ≤ MAXVA)
    (hfree : 3 ≤ s.kmem.free) (hmax : va < MAXVA) (b : UInt8) (n : ℕ) :
    ∃ r s', storeRetry p va b (n + 2) s = .ok (r, s') ∧ r ≠ .faulting ∧
      (r = .stored ↔ StoreOk s p va va) ∧
      (r = .stored → ∃ s1 : Vm, s1.canStore p va ∧ s' = s1.writeByte p va b) := by
  have hwp := (storeRetry_run (b := b) h hu hsz hfree n).mono (fun _ _ hs => hs) fun _ he =>
    (not_le.mpr hmax he : False)
  obtain ⟨r, s', hm, ⟨rfl, hok, s1, hw, hc, -⟩ | ⟨rfl, hno⟩⟩ := hwp.returns
  · exact ⟨_, s', hm, by decide, ⟨fun _ => hok, fun _ => rfl⟩, fun _ => ⟨s1, hc, hw⟩⟩
  · have hkill : StoreEnd.killed ≠ .stored := by decide
    exact ⟨_, s', hm, by decide, iff_of_false hkill hno, fun hr => absurd hr hkill⟩

/-- A store to a page that the process has asked for lazily. -/
theorem storeRetry_settles_lazy : ∃ s',
    storeRetry ⟨0x3000, 0x87FF0000, 0x87FFF000⟩ 0x2000 0x41 2 forkSys.vm = .ok (.stored, s') := by
  obtain ⟨o, h⟩ := forkSys_ok
  obtain ⟨r, s', hm, -, hr, -⟩ := storeRetry_settles (p := ⟨0x3000, 0x87FF0000, 0x87FFF000⟩) h.vm
    (h.user 1 _ rfl :) (by decide) (by decide) (by decide : 0x2000 < MAXVA) 0x41 0
  obtain rfl := hr.mpr ⟨by decide, .inr ⟨rfl, by decide⟩⟩
  exact ⟨s', hm⟩

lemma storeByte_run (h : s.Inv o) (hu : s.user p.pagetable) (hsz : p.sz ≤ MAXVA)
    (hfree : 3 ≤ s.kmem.free) :
    wp (storeByte p va b) s
      (fun r s' => r = true ∧ Stored s s' o p va b ∨ r = false ∧ ¬ StoreOk s p va va)
      fun _ => ¬ StoreOk s p va va := by
  rw [storeByte]
  refine ((storeRetry_run h hu hsz hfree 0).mono (fun _ _ hs => hs) ?_).bind ?_
  · exact fun _ hmax hok => not_lt.mpr hmax hok.1
  · rintro r s' (⟨rfl, hrun⟩ | ⟨rfl, hno⟩)
    · exact wp_pure.mpr (.inl ⟨rfl, hrun⟩)
    · exact wp_pure.mpr (.inr ⟨rfl, hno⟩)

lemma same_page (va : ℕ) {i : ℕ} (hi : va % PGSIZE + i < PGSIZE) :
    idx (va + i) = idx va ∧ (va + i) % PGSIZE = va % PGSIZE + i ∧
      pgRoundDown (va + i) = pgRoundDown va ∧ (va + i < MAXVA ↔ va < MAXVA) := by
  have hround : pgRoundDown (va + i) = pgRoundDown va := by
    simp only [pgRoundDown, PGSIZE] at *
    omega
  refine ⟨?_, ?_, hround, ?_⟩
  · rw [← idx_pgRoundDown, hround, idx_pgRoundDown]
  · simp only [PGSIZE] at *
    omega
  · simp only [PGSIZE, MAXVA] at *
    omega

lemma canStore_page (hfit : va % PGSIZE + bs.length ≤ PGSIZE) (hc : s.canStore p va) :
    ∀ i < bs.length, s.canStore p (va + i) := by
  intro i hi
  obtain ⟨hidx, -, -, hmax⟩ := same_page va (i := i) (by omega)
  rw [canStore_iff, hidx, hmax]
  exact canStore_iff.mp hc

lemma storePage_run (h : s.Inv o) (hu : s.user p.pagetable) (hsz : p.sz ≤ MAXVA)
    (hfree : 3 ≤ s.kmem.free) (hne : bs ≠ []) (hfit : va % PGSIZE + bs.length ≤ PGSIZE) :
    wp (storeBytes p va bs) s (fun r s' => r = true ∧ StoreOk s p va va ∧ Touched s s' o p va ∧
          ((s.pte ⟨p.pagetable, idx va⟩).perm.cow = false →
            Sees s s' o p ((s.seen p).storeAll va bs)) ∨
        r = false ∧ ¬ StoreOk s p va va)
      fun _ => ¬ StoreOk s p va va := by
  obtain ⟨b, bs, rfl⟩ := exists_cons_of_ne_nil hne
  rw [storeBytes]
  refine (storeByte_run h hu hsz hfree).bind ?_
  rintro r s' (⟨rfl, hok, s1, rfl, hc, ht, hsees⟩ | ⟨rfl, hno⟩)
  · rw [if_pos rfl]
    have hall := canStore_page hfit hc
    refine wp_of_ok (storeBytes_direct (canStore_tail hall)) (.inl ⟨rfl, hok, ?_, ?_⟩)
    · exact ht.writeBytes hu hall
    · exact fun hcow => (hsees hcow).writeBytes hu hne hall
  · exact wp_pure.mpr (.inr ⟨rfl, hno⟩)

/-! ## One round of `copyout` -/

/-- The bytes from `va` to the end of its page. -/
abbrev pageRest (va : ℕ) : ℕ := PGSIZE - va % PGSIZE

lemma pageRest_spec (va : ℕ) : 0 < pageRest va ∧ pageRest va + va % PGSIZE = PGSIZE := by
  have := Nat.mod_lt va (y := PGSIZE) (by decide)
  rw [pageRest]
  omega

/-- The bytes that the first round writes. -/
abbrev firstChunk (dstva : ℕ) (src : List UInt8) : List UInt8 := src.take (pageRest dstva)

lemma firstChunk_fits (dstva : ℕ) (src : List UInt8) :
    dstva % PGSIZE + (firstChunk dstva src).length ≤ PGSIZE := by
  have hmod := pageRest_spec dstva
  rw [firstChunk, length_take]
  omega

lemma firstChunk_ne_nil (dstva : ℕ) (hne : src ≠ []) : firstChunk dstva src ≠ [] := by
  have hmod := pageRest_spec dstva
  intro hnil
  rcases take_eq_nil_iff.mp hnil with h0 | h0
  · omega
  · exact hne h0

/-- The page is there: the round writes to it if the entry has `PTE_W`. -/
lemma copyoutPage_write (hu : s.user p.pagetable) (hne : src ≠ []) (ht : Touched s s1 o p dstva)
    (hsees : Sees s s1 o p ((s.seen p).provide dstva))
    (hmax : dstva < MAXVA) (hv : (s1.pte ⟨p.pagetable, idx dstva⟩).v)
    (huser : (s1.pte ⟨p.pagetable, idx dstva⟩).perm.u)
    (hw : (s1.pte ⟨p.pagetable, idx dstva⟩).perm.w) {E : VmPanic → Prop} :
    wp (putBytes ((s1.pte ⟨p.pagetable, idx dstva⟩).pa + dstva % PGSIZE) (firstChunk dstva src)) s1
      (fun _ s' => Touched s s' o p dstva ∧
        Sees s s' o p ((s.seen p).storeAll dstva (firstChunk dstva src))) E := by
  have hfit := firstChunk_fits dstva src
  have hall := canStore_page hfit (canStore_iff.mpr ⟨hmax, hv, huser, hw⟩)
  have hput : s1.writeBytes p dstva (firstChunk dstva src) = _ :=
    writeBytes_eq ((s1.pte ⟨p.pagetable, idx dstva⟩).pa + dstva % PGSIZE) (by
      intro i hi
      obtain ⟨hidx, hmod, -, -⟩ := same_page dstva (i := i) (by omega)
      rw [hidx, hmod, Nat.add_assoc])
  rw [putBytes, wp_modify, ← hput]
  exact ⟨ht.writeBytes hu hall, hsees.writeBytes hu (firstChunk_ne_nil dstva hne) hall⟩

lemma copyoutPage_run (h : s.Inv o) (hu : s.user p.pagetable) (hsz : p.sz ≤ MAXVA)
    (hfree : 3 ≤ s.kmem.free) (hne : src ≠ []) :
    wp (copyoutPage p p.pagetable dstva src (pgRoundDown dstva)) s
      (fun r s' => r = none ∧ CopyOk s p dstva ∧ Touched s s' o p dstva ∧
          Sees s s' o p ((s.seen p).storeAll dstva (firstChunk dstva src)) ∨
        r = some () ∧ ¬ CopyOk s p dstva)
      fun _ => False := by
  have hround : pgRoundDown dstva ≤ dstva := Nat.div_mul_le_self ..
  have hlt : pgRoundDown dstva < MAXVA ↔ dstva < MAXVA := by
    simp only [pgRoundDown, PGSIZE, MAXVA]
    omega
  have hoff : dstva - pgRoundDown dstva = dstva % PGSIZE := by
    simp only [pgRoundDown, PGSIZE]
    omega
  rw [copyoutPage, wp_ite]
  simp only [max_eq_left hround, Nat.sub_self, drop_zero, hoff]
  refine ⟨fun hge => wp_pure.mpr (.inr ⟨rfl, fun hok => ?_⟩), fun hge => ?_⟩
  · exact not_lt.mpr hge (hlt.mpr hok.1)
  have hmax := hlt.mp (not_le.mp hge)
  rw [wp_bind, wp_walkaddr]
  by_cases hvu : (s.pte ⟨p.pagetable, idx dstva⟩).v ∧ (s.pte ⟨p.pagetable, idx dstva⟩).perm.u
  · have hpa := h.pa_ne_zero hu hvu.1
    have hwalk : s.userPa p.pagetable (pgRoundDown dstva) =
        (s.pte ⟨p.pagetable, idx dstva⟩).pa := by
      rw [userPa, idx_pgRoundDown]
      exact if_pos ⟨not_le.mp hge, hvu⟩
    rw [hwalk, if_neg hpa, wp_bind, wp_pure, if_neg hpa, wp_bind, walk_look, idx_pgRoundDown]
    refine ⟨fun hge' => absurd hge' hge, fun _ => ?_⟩
    have hreach := reach_of_valid hvu.1
    simp only [hreach, if_true, wp_bind, wp_load]
    rw [leaf_eq_pte hreach, wp_ite]
    refine ⟨fun hw => ?_, fun hw => wp_pure.mpr (.inr ⟨rfl, ?_⟩)⟩
    · rw [wp_bind]
      have hsees : Sees s s o p ((s.seen p).provide dstva) := by
        rw [seen_provide_of_valid hvu.1]
        exact .refl h
      refine (copyoutPage_write hu hne (.refl h) hsees hmax hvu.1 hvu.2 hw).post ?_
      rintro - s' ⟨ht, hs⟩
      exact wp_pure.mpr (.inl ⟨rfl, ⟨hmax, .inl ⟨hvu.1, hvu.2, hw⟩⟩, ht, hs⟩)
    · rintro ⟨-, ⟨-, -, hw'⟩ | ⟨hv, -⟩⟩
      · exact hw hw'
      · cases hv.symm.trans hvu.1
  · have hwalk : s.userPa p.pagetable (pgRoundDown dstva) = 0 := by
      rw [userPa, idx_pgRoundDown]
      exact if_neg fun hc => hvu hc.2
    rw [hwalk, if_pos rfl, wp_bind]
    have hle := lazyPages_le s p (pgRoundDown dstva)
    refine ((vmfault_cause h hu p.pagetable _).and (vmfault_free h.kmem p _)).mono ?_ ?_
    · rintro r s1 ⟨⟨rfl, -⟩ | ⟨hr, hlt', hv, hm, hpa⟩, hneed, hgets⟩
      · rw [if_pos rfl]
        refine wp_pure.mpr (.inr ⟨rfl, ?_⟩)
        rintro ⟨-, ⟨hv, huser, -⟩ | ⟨hv, hlt'⟩⟩
        · exact hvu ⟨hv, huser⟩
        · exact hgets (hle.trans hfree) hlt' (by rw [idx_pgRoundDown]; exact hv) rfl
      · rw [if_neg hr, wp_bind, walk_look, idx_pgRoundDown]
        refine ⟨fun hge' => absurd hge' hge, fun _ => ?_⟩
        have hf : FaultedIn p (pgRoundDown dstva) s s1 o := ⟨hlt', hv, hm⟩
        rw [idx_pgRoundDown] at hv hm hpa
        obtain ⟨pa, hpte⟩ := hm.pte _ rfl
        have hv1 : (s1.pte ⟨p.pagetable, idx dstva⟩).v := by rw [hpte]
        have hreach := reach_of_valid hv1
        have hw1 : (s1.pte ⟨p.pagetable, idx dstva⟩).perm.w := by
          rw [hpte]
          rfl
        simp only [hreach, if_true, wp_bind, wp_load]
        rw [leaf_eq_pte hreach, if_pos hw1, wp_bind, ← hpa]
        have hsees : Sees s s1 o p ((s.seen p).provide dstva) := by
          have hprov := hf.provide hu
          simp only [provide, idx_pgRoundDown] at hprov
          exact hprov
        have hroom : s.kmem.free ≤ s1.kmem.free + 3 :=
          hneed.free.trans (Nat.add_le_add_left hle _)
        refine (copyoutPage_write hu hne ⟨hm.inv, hm.user, hm.kept, hroom⟩ hsees hmax hv1
          (by rw [hpte]; rfl) hw1).post ?_
        rintro - s' ⟨ht, hs⟩
        exact wp_pure.mpr (.inl ⟨rfl, ⟨hmax, .inr ⟨hv, hlt'⟩⟩, ht, hs⟩)
    · exact fun _ he => absurd (he.1 rfl) (not_lt.mpr hsz)

/-! ## The range -/

lemma forUntil_shift {β : Type} (body : ℕ → VmProg (Option β)) (i n : ℕ) :
    forUntil body (i + 1) n = forUntil (fun k => body (k + 1)) i n := by
  induction n generalizing i with
  | zero => rfl
  | succ n ih => rw [forUntil, forUntil, ih]

/-- The rounds after the first one are a `copyout` of their own. -/
lemma copyoutPage_next (k : ℕ) :
    copyoutPage p p.pagetable dstva src (pgRoundDown dstva + (k + 1) * PGSIZE) =
      copyoutPage p p.pagetable (dstva + pageRest dstva) (src.drop (pageRest dstva))
        (pgRoundDown (dstva + pageRest dstva) + k * PGSIZE) := by
  have hmod := pageRest_spec dstva
  have hpage : pgRoundDown (dstva + pageRest dstva) = pgRoundDown dstva + PGSIZE := by
    simp only [pgRoundDown, PGSIZE] at *
    omega
  have hnext : dstva + pageRest dstva = pgRoundDown dstva + PGSIZE := by
    simp only [pgRoundDown, PGSIZE] at *
    omega
  have hva : pgRoundDown dstva + (k + 1) * PGSIZE = pgRoundDown dstva + PGSIZE + k * PGSIZE := by
    rw [Nat.add_mul, Nat.one_mul]
    omega
  have hle : dstva ≤ pgRoundDown dstva + PGSIZE + k * PGSIZE := by omega
  have hle' : pgRoundDown dstva + PGSIZE ≤ pgRoundDown dstva + PGSIZE + k * PGSIZE :=
    Nat.le_add_right ..
  have hdrop : pageRest dstva + (pgRoundDown dstva + PGSIZE + k * PGSIZE -
      (pgRoundDown dstva + PGSIZE)) = pgRoundDown dstva + PGSIZE + k * PGSIZE - dstva := by omega
  rw [hpage, hva, copyoutPage, copyoutPage]
  simp only [max_eq_right hle, hnext, max_eq_right hle', drop_drop, hdrop]

lemma copyout_next (hne : src ≠ []) : copyout p p.pagetable dstva src = (do
      match ← copyoutPage p p.pagetable dstva src (pgRoundDown dstva) with
      | some _ => pure false
      | none =>
        copyout p p.pagetable (dstva + pageRest dstva)
          (src.drop (pageRest dstva))) := by
  have hlen := length_pos_iff.mpr hne
  have hmod := pageRest_spec dstva
  have hrounds : pagesUpto (pgRoundDown dstva) (dstva + src.length) =
      (if src.drop (pageRest dstva) = [] then 0 else
        pagesUpto (pgRoundDown (dstva + pageRest dstva))
          (dstva + pageRest dstva + (src.drop (pageRest dstva)).length)) + 1 := by
    rw [length_drop]
    split
    all_goals
      next hnil =>
        rw [drop_eq_nil_iff] at hnil
        simp only [pagesUpto, pgRoundDown, PGSIZE] at *
        omega
  rw [copyout, if_neg hne, hrounds, forUntil, Nat.zero_mul, Nat.add_zero, bind_assoc]
  refine bind_congr fun r => ?_
  cases r with
  | some _ => rw [pure_bind]; rfl
  | none =>
    rw [forUntil_shift]
    simp only [copyoutPage_next, copyout]

lemma storeBytes_take_drop (va m : ℕ) (bs : List UInt8) : storeBytes p va bs = (do
      if ← storeBytes p va (bs.take m) then storeBytes p (va + m) (bs.drop m) else pure false) := by
  induction m generalizing va bs with
  | zero => rfl
  | succ m ih =>
    cases bs with
    | nil => rfl
    | cons b bs =>
      rw [take_succ_cons, drop_succ_cons, storeBytes, storeBytes, bind_assoc]
      refine bind_congr fun r => ?_
      cases r with
      | false => rfl
      | true =>
        simp only [if_true]
        rw [ih, Nat.add_right_comm, Nat.add_assoc]

lemma forall_byte_iff {P : ℕ → Prop} {n m : ℕ} (hn : 0 < n)
    (hpage : ∀ i < m, P i ↔ P 0) : (∀ i < n, P i) ↔ P 0 ∧ ∀ j < n - m, P (m + j) := by
  constructor
  · exact fun h => ⟨h 0 hn, fun j hj => h (m + j) (by omega)⟩
  · rintro ⟨h0, hrest⟩ i hi
    by_cases him : i < m
    · exact (hpage i him).mpr h0
    · obtain ⟨j, rfl⟩ := Nat.exists_eq_add_of_le (not_lt.mp him)
      exact hrest j (by omega)

/-- The pages a range touches. -/
abbrev pages (dstva len : ℕ) : ℕ := pagesUpto (pgRoundDown dstva) (dstva + len)

lemma pages_next (dstva : ℕ) {len : ℕ} (hlen : 0 < len) :
    pages (dstva + pageRest dstva) (len - pageRest dstva) + 1 ≤
      pages dstva len := by
  simp only [pageRest, pages, pagesUpto, pgRoundDown, PGSIZE]
  omega

lemma Touched.pte_next (ht : Touched s s' o p dstva) {j : ℕ}
    (hmax : dstva + pageRest dstva + j < MAXVA) :
    s'.pte ⟨p.pagetable, idx (dstva + pageRest dstva + j)⟩ =
      s.pte ⟨p.pagetable, idx (dstva + pageRest dstva + j)⟩ := by
  refine ht.kept _ fun heq => ?_
  have hidx := congrArg vaOf (Slot.mk.inj heq).2
  have hmod := pageRest_spec dstva
  rw [vaOf_idx hmax, vaOf_idx (by omega)] at hidx
  simp only [PGSIZE] at *
  omega

lemma copyout_run (h : s.Inv o) (hu : s.user p.pagetable) (hsz : p.sz ≤ MAXVA)
    (hfree : 3 * pages dstva src.length ≤ s.kmem.free) :
    wp (copyout p p.pagetable dstva src) s
      (fun r s' => (r = true ↔ ∀ i < src.length, CopyOk s p (dstva + i)) ∧
        (r = true → Sees s s' o p ((s.seen p).storeAll dstva src)))
      fun _ => False := by
  induction hn : src.length using Nat.strongRecOn generalizing src dstva s with
  | ind n ih =>
  by_cases hne : src = []
  · subst hne
    cases hn
    rw [copyout, if_pos rfl]
    exact wp_pure.mpr ⟨by simp, fun _ => .refl h⟩
  have hmod := pageRest_spec dstva
  have hlen := length_pos_iff.mpr hne
  have hnext := pages_next dstva hlen
  have hpage : ∀ i < pageRest dstva, CopyOk s p (dstva + i) ↔ CopyOk s p (dstva + 0) := by
    intro i hi
    obtain ⟨hidx, -, hround, hmax⟩ := same_page dstva (i := i) (by omega)
    rw [CopyOk, CopyOk, hidx, hround, hmax, Nat.add_zero]
  rw [copyout_next hne, wp_bind, ← hn, forall_byte_iff hlen hpage, Nat.add_zero]
  refine (copyoutPage_run h hu hsz (by omega) hne).post ?_
  rintro r s1 (⟨rfl, hok, ht, hs⟩ | ⟨rfl, hno⟩)
  · have hdrop : (src.drop (pageRest dstva)).length = src.length - pageRest dstva :=
      length_drop
    have hroom := ht.free
    refine (ih _ (by omega) ht.inv (ht.user ▸ hu) (by rw [hdrop]; omega) rfl).post ?_
    rintro r s' ⟨hr, hseen⟩
    refine ⟨?_, fun htrue => ?_⟩
    · rw [hr, hdrop, and_iff_right hok]
      refine forall₂_congr fun j _ => ?_
      rw [← Nat.add_assoc]
      refine and_congr_right fun hmax => ?_
      rw [ht.pte_next hmax]
    · have hfinal := Sees.trans (hs.seen.symm ▸ hs) (hseen htrue)
      rw [hs.seen, storeAll_take_drop] at hfinal
      exact hfinal
  · exact wp_pure.mpr ⟨by simp [hno], by simp⟩

/-- The first byte of the range in the page of `va`. -/
abbrev firstIn (dstva va : ℕ) : ℕ := max dstva (pgRoundDown va)

/-- **The user's stores to a range.**  A panic is no success either. -/
lemma storeBytes_run (h : s.Inv o) (hu : s.user p.pagetable) (hsz : p.sz ≤ MAXVA)
    (hfree : 3 * pages dstva src.length ≤ s.kmem.free) :
    wp (storeBytes p dstva src) s (fun r s' => (r = true ↔
          ∀ i < src.length, StoreOk s p (firstIn dstva (dstva + i)) (dstva + i)) ∧
        (r = true → (∀ i < src.length, (s.pte ⟨p.pagetable, idx (dstva + i)⟩).perm.cow = false) →
          Sees s s' o p ((s.seen p).storeAll dstva src)))
      fun _ => ¬ ∀ i < src.length, StoreOk s p (firstIn dstva (dstva + i)) (dstva + i) := by
  induction hn : src.length using Nat.strongRecOn generalizing src dstva s with
  | ind n ih =>
  by_cases hne : src = []
  · subst hne
    cases hn
    exact wp_pure.mpr ⟨by simp, fun _ _ => .refl h⟩
  have hmod := pageRest_spec dstva
  have hlen := length_pos_iff.mpr hne
  have hnext := pages_next dstva hlen
  have hfirst : firstIn dstva dstva = dstva := max_eq_left (Nat.div_mul_le_self ..)
  have hpage : ∀ i < pageRest dstva, StoreOk s p (firstIn dstva (dstva + i)) (dstva + i) ↔
      StoreOk s p (firstIn dstva (dstva + 0)) (dstva + 0) := by
    intro i hi
    obtain ⟨hidx, -, hround, hmax⟩ := same_page dstva (i := i) (by omega)
    rw [StoreOk, StoreOk, hidx, firstIn, hround, hmax, Nat.add_zero]
  rw [storeBytes_take_drop dstva (pageRest dstva), wp_bind, ← hn,
    forall_byte_iff hlen hpage, Nat.add_zero, hfirst]
  refine (storePage_run h hu hsz (by omega) (firstChunk_ne_nil dstva hne)
    (firstChunk_fits dstva src)).mono ?_ fun _ hno hall => hno hall.1
  rintro r s1 (⟨rfl, hok, ht, hs⟩ | ⟨rfl, hno⟩)
  · have hdrop : (src.drop (pageRest dstva)).length = src.length - pageRest dstva :=
      length_drop
    have hroom := ht.free
    have hrest : (∀ j < src.length - pageRest dstva,
        StoreOk s1 p (firstIn (dstva + pageRest dstva) (dstva + pageRest dstva + j))
          (dstva + pageRest dstva + j)) ↔
        ∀ j < src.length - pageRest dstva,
          StoreOk s p (firstIn dstva (dstva + (pageRest dstva + j)))
            (dstva + (pageRest dstva + j)) := by
      refine forall₂_congr fun j _ => ?_
      have hle : firstIn (dstva + pageRest dstva) (dstva + pageRest dstva + j) =
          firstIn dstva (dstva + pageRest dstva + j) := by
        simp only [firstIn, pgRoundDown, PGSIZE] at *
        omega
      rw [← Nat.add_assoc, hle]
      refine and_congr_right fun hmax => ?_
      rw [ht.pte_next hmax]
    rw [if_pos rfl]
    refine (ih _ (by omega) ht.inv (ht.user ▸ hu) (by rw [hdrop]; omega) rfl).mono ?_ ?_
    · rintro r s' ⟨hr, hseen⟩
      refine ⟨?_, fun htrue hcow => ?_⟩
      · rw [hr, hdrop, hrest, and_iff_right hok]
      · have hs := hs (hcow 0 hlen)
        have hall := hr.mp htrue
        have hfinal := Sees.trans (hs.seen.symm ▸ hs) (hseen htrue ?_)
        · rw [hs.seen, storeAll_take_drop] at hfinal
          exact hfinal
        · intro j hj
          rw [ht.pte_next (hall j hj).1, Nat.add_assoc]
          exact hcow _ (by omega)
    · intro e hno hall
      rw [hdrop, hrest] at hno
      exact hno hall.2
  · exact wp_pure.mpr ⟨by simp [hno], by simp⟩

/-! ## Agreement -/

/-- `copyout` succeeds where the stores of the user do, with the same memory afterwards, and nobody
else sees it. -/
structure CopyoutAgrees (s : Vm) (p : Proc) (dstva : ℕ) (src : List UInt8) : Prop where
  success : (∃ s', copyout p p.pagetable dstva src s = .ok (true, s')) ↔
    ∃ s', storeBytes p dstva src s = .ok (true, s')
  memory : ∀ s1 s2, copyout p p.pagetable dstva src s = .ok (true, s1) →
    storeBytes p dstva src s = .ok (true, s2) → s1.seen p = s2.seen p
  others : ∀ s1, copyout p p.pagetable dstva src s = .ok (true, s1) →
    ∀ q, s.user q.root → q.root ≠ p.pagetable → s1.page q = s.page q

/-- `va` is in a copy-on-write page of the user. -/
def CowAt (s : Vm) (p : Proc) (va : ℕ) : Prop :=
  va < MAXVA ∧ (s.pte ⟨p.pagetable, idx va⟩).perm.u ∧ (s.pte ⟨p.pagetable, idx va⟩).perm.cow

/-- The page of `va` is not mapped, and `va` is not below `p->sz`. -/
def Beyond (s : Vm) (p : Proc) (va : ℕ) : Prop :=
  (s.pte ⟨p.pagetable, idx va⟩).v = false ∧ p.sz ≤ va

/-- Neither `copyout` nor the user can write to some byte, or the range begins beyond `p->sz` just
if it has a copy-on-write page. -/
def SamePages (s : Vm) (p : Proc) (dstva len : ℕ) : Prop :=
  (∃ i < len, ¬ CopyOk s p (dstva + i) ∧ ¬ CowAt s p (dstva + i)) ∨
    ((∃ i < len, CowAt s p (dstva + i)) ↔ 0 < len ∧ Beyond s p dstva)

lemma CopyOk.not_cow (h : s.Inv o) (hu : s.user p.pagetable) (hc : CopyOk s p va) :
    (s.pte ⟨p.pagetable, idx va⟩).perm.cow = false := by
  refine eq_false_of_ne_true fun hcow => ?_
  obtain ⟨-, ⟨-, -, hw⟩ | ⟨hv, -⟩⟩ := hc
  · exact (h.ptes ⟨p.pagetable, idx va⟩ hu).cow ⟨hw, hcow⟩
  · cases hv.symm.trans (h.valid_of_cow hu hcow)

lemma storeOk_of_cowAt (h : s.Inv o) (hu : s.user p.pagetable) (hc : CowAt s p va) (first : ℕ) :
    StoreOk s p first va :=
  ⟨hc.1, .inl ⟨h.valid_of_cow hu hc.2.2, hc.2.1, .inr hc.2.2⟩⟩

/-- What the user can store to, `copyout` can write to or is copy-on-write. -/
lemma StoreOk.kind (hs : StoreOk s p (firstIn dstva va) va) : CopyOk s p va ∨ CowAt s p va := by
  obtain ⟨hmax, ⟨hv, huser, hw | hcow⟩ | ⟨hv, hlt⟩⟩ := hs
  · exact .inl ⟨hmax, .inl ⟨hv, huser, hw⟩⟩
  · exact .inr ⟨hmax, huser, hcow⟩
  · exact .inl ⟨hmax, .inr ⟨hv, (le_max_right ..).trans_lt hlt⟩⟩

/-- A range that does not begin beyond `p->sz` does not get there in a page of its own. -/
lemma CopyOk.storeOk (hb : ¬ Beyond s p dstva) {i : ℕ} (hc : CopyOk s p (dstva + i)) :
    StoreOk s p (firstIn dstva (dstva + i)) (dstva + i) := by
  obtain ⟨hmax, ⟨hv, huser, hw⟩ | ⟨hv, hlt⟩⟩ := hc
  · exact ⟨hmax, .inl ⟨hv, huser, .inl hw⟩⟩
  · refine ⟨hmax, .inr ⟨hv, max_lt ?_ hlt⟩⟩
    by_cases hpage : pgRoundDown (dstva + i) ≤ dstva
    · -- `dstva` is in the same page
      have hround : pgRoundDown dstva = pgRoundDown (dstva + i) := by
        simp only [pgRoundDown, PGSIZE] at *
        omega
      rw [← idx_pgRoundDown, ← hround, idx_pgRoundDown] at hv
      exact not_le.mp fun hge => hb ⟨hv, hge⟩
    · omega

/-- **`copyout` agrees with the user's stores if and only if they can do the same with the pages of
the range.** -/
theorem copyout_agrees_iff (h : s.Inv o) (hu : s.user p.pagetable) (hsz : p.sz ≤ MAXVA) (dstva : ℕ)
    (src : List UInt8) (hfree : 3 * pages dstva src.length ≤ s.kmem.free) :
    CopyoutAgrees s p dstva src ↔ SamePages s p dstva src.length := by
  obtain ⟨r, s1, hcopy, hr, hseen⟩ := (copyout_run h hu hsz hfree).returns
  have hstore := storeBytes_run h hu hsz hfree
  have hC : (∃ s', copyout p p.pagetable dstva src s = .ok (true, s')) ↔
      ∀ i < src.length, CopyOk s p (dstva + i) := by
    rw [← hr, hcopy]
    constructor
    · rintro ⟨s', hs'⟩
      cases hs'
      rfl
    · rintro rfl
      exact ⟨s1, rfl⟩
  have hS : (∃ s', storeBytes p dstva src s = .ok (true, s')) ↔
      ∀ i < src.length, StoreOk s p (firstIn dstva (dstva + i)) (dstva + i) := by
    constructor
    · rintro ⟨s', hs'⟩
      exact (hstore.1 _ _ hs').1.mp rfl
    · intro hall
      rcases hm : storeBytes p dstva src s with e | ⟨r', s2⟩
      · exact absurd hall (hstore.2 _ hm)
      · rw [(hstore.1 _ _ hm).1.mpr hall]
        exact ⟨s2, rfl⟩
  have hsuccess : ((∃ s', copyout p p.pagetable dstva src s = .ok (true, s')) ↔
      ∃ s', storeBytes p dstva src s = .ok (true, s')) ↔ SamePages s p dstva src.length := by
    rw [hC, hS, SamePages]
    by_cases hbad : ∃ i < src.length, ¬ CopyOk s p (dstva + i) ∧ ¬ CowAt s p (dstva + i)
    · obtain ⟨i, hi, hno, hnocow⟩ := hbad
      refine iff_of_true (iff_of_false (fun hall => hno (hall i hi)) fun hall => ?_)
        (.inl ⟨i, hi, hno, hnocow⟩)
      exact (hall i hi).kind.elim hno hnocow
    · rw [or_iff_right hbad]
      push Not at hbad
      have hcow : (∀ i < src.length, CopyOk s p (dstva + i)) ↔
          ¬ ∃ i < src.length, CowAt s p (dstva + i) := by
        constructor
        · rintro hall ⟨i, hi, hc⟩
          cases hc.2.2.symm.trans ((hall i hi).not_cow h hu)
        · intro hno i hi
          by_contra hc
          exact hno ⟨i, hi, hbad i hi hc⟩
      have hbeyond : (∀ i < src.length, StoreOk s p (firstIn dstva (dstva + i)) (dstva + i)) ↔
          ¬ (0 < src.length ∧ Beyond s p dstva) := by
        constructor
        · rintro hall ⟨hlen, hv, hge⟩
          obtain ⟨-, ⟨hv', -, -⟩ | ⟨-, hlt⟩⟩ := hall 0 hlen
          · cases hv.symm.trans hv'
          · exact not_lt.mpr hge ((le_max_left ..).trans_lt hlt)
        · intro hno i hi
          by_cases hc : CopyOk s p (dstva + i)
          · exact hc.storeOk fun hb => hno ⟨by omega, hb⟩
          · exact storeOk_of_cowAt h hu (hbad i hi hc) _
      rw [hcow, hbeyond, not_iff_not]
  constructor
  · exact fun hag => hsuccess.mp hag.success
  · intro hsame
    refine ⟨hsuccess.mpr hsame, ?_, ?_⟩
    · intro t1 t2 h1 h2
      have hall := hC.mp ⟨t1, h1⟩
      cases hcopy.symm.trans h1
      rw [(hseen rfl).seen, ((hstore.1 _ _ h2).2 rfl fun i hi => (hall i hi).not_cow h hu).seen]
    · intro t1 h1
      cases hcopy.symm.trans h1
      exact (hseen rfl).other

end Vm

/-- `copyout` of a byte to the page of `forkSys`. -/
theorem copyout_agrees_sample :
    Vm.CopyoutAgrees forkSys.vm ⟨0x1000, 0x87FF0000, 0x87FFF000⟩ 0x10 [0x41] := by
  obtain ⟨o, h⟩ := forkSys_ok
  refine (Vm.copyout_agrees_iff h.vm (h.user 1 _ rfl) (by decide) 0x10 [0x41] (by decide)).mpr
    (.inr (iff_of_false ?_ ?_))
  · rintro ⟨i, hi, -, -, hcow⟩
    obtain rfl := Nat.lt_one_iff.mp hi
    exact nomatch hcow
  · rintro ⟨-, hv, -⟩
    exact nomatch hv

/-- After `fork`, `copyout` to the page that both processes have fails; a store of the process
succeeds. -/
theorem copyout_fails_on_cow : forkSys.Ok ∧ ∃ s s1 s2, Run PSys.step forkSys [.fork 1 2 .empty] s ∧
    s.proc 1 = some ⟨0x1000, 0x87FF0000, 0x87FFF000⟩ ∧ 3 * Vm.pages 0 1 ≤ s.vm.kmem.free ∧
    Vm.copyout ⟨0x1000, 0x87FF0000, 0x87FFF000⟩ 0x87FF0000 0 [0x41] s.vm = .ok (false, s1) ∧
    Vm.storeBytes ⟨0x1000, 0x87FF0000, 0x87FFF000⟩ 0 [0x41] s.vm = .ok (true, s2) :=
  ⟨forkSys_ok, _, _, _, Run.of_exec rfl, rfl, by decide, rfl, rfl⟩

end Xv6
