import Xv6.Mem.Cow

/-!
# `copyin`

`copyin` no longer looks at the user page table: `copyin_new` is a `memmove` from the user address
on the page table that the kernel runs the process on. A read that this table does not allow is a
fault in the kernel and ends in a panic; no path returns -1.

`Confined` is what `copyin` should do: copy the bytes if the process may read all of them, return -1
if not. `copyin_confined_iff` says for which arguments it does so. For the others it reads whatever
the kernel page table maps at that address, the kernel's own memory first of all.

The buffer `dst` is the kernel's: `KernelBuffer` says what a caller has to provide.
-/

namespace Xv6.Vm

open Prog

/-! ## The code -/

/-- The physical address that a table maps `va` to. -/
def physAddr (s : Vm) (root va : ℕ) : ℕ := (s.pte ⟨root, idx va⟩).pa + va % PGSIZE

/-- The kernel can read `va` on this page table; it cannot read a page with `PTE_U`. -/
def kReadable (s : Vm) (kpagetable va : ℕ) : Bool :=
  let pte := s.pte ⟨kpagetable, idx va⟩
  decide (va < MAXVA) && pte.v && pte.perm.r && !pte.perm.u

def kWritable (s : Vm) (kpagetable va : ℕ) : Bool :=
  let pte := s.pte ⟨kpagetable, idx va⟩
  decide (va < MAXVA) && pte.v && pte.perm.w && !pte.perm.u

def setByte (s : Vm) (a : ℕ) (b : UInt8) : Vm :=
  { s with kmem := { s.kmem with mem := Function.update s.kmem.mem a b } }

def kRead (kpagetable va : ℕ) : VmProg UInt8 := do
  let s ← get
  if s.kReadable kpagetable va then pure (s.kmem.mem (s.physAddr kpagetable va))
  else throw .kernelFault

def kWrite (kpagetable va : ℕ) (b : UInt8) : VmProg Unit := do
  let s ← get
  if s.kWritable kpagetable va then set (s.setByte (s.physAddr kpagetable va) b)
  else throw .kernelFault

/-- Byte `i` of a `memmove`. -/
def moveByte (kpagetable dst src i : ℕ) : VmProg Unit := do
  let b ← kRead kpagetable ((src + i) % 2 ^ 64)
  kWrite kpagetable ((dst + i) % 2 ^ 64) b

/-- `memmove` on the page table `kpagetable`, from the last byte on if `dst` is inside the source.
-/
def memmove (kpagetable dst src n : ℕ) : VmProg Unit :=
  if src < dst ∧ dst < (src + n) % 2 ^ 64 then
    forRange (fun k => moveByte kpagetable dst src (n - 1 - k)) 0 n
  else forRange (fun k => moveByte kpagetable dst src k) 0 n

/-- The `uint` parameter of `memmove` cuts `len` to 32 bits. -/
def copyinNew (p : Proc) (_pagetable dst srcva len : ℕ) : VmProg ℤ := do
  memmove p.kpagetable dst srcva (len % 2 ^ 32)
  pure 0

def copyin (p : Proc) (pagetable dst srcva len : ℕ) : VmProg ℤ :=
    copyinNew p pagetable dst srcva len

/-! ## What it should do -/

/-- The byte that the process may read at `va`: the page is valid and has `PTE_U`. -/
def userByte (s : Vm) (p : Proc) (va : ℕ) : Option UInt8 :=
  let pte := s.pte ⟨p.pagetable, idx va⟩
  if va < MAXVA ∧ pte.v ∧ pte.perm.u then some (s.kmem.mem (s.physAddr p.pagetable va)) else none

/-- The byte that the kernel reads at `va` when it runs the process. -/
def kernelByte (s : Vm) (p : Proc) (va : ℕ) : Option UInt8 :=
  if s.kReadable p.kpagetable va then some (s.kmem.mem (s.physAddr p.kpagetable va)) else none

/-- Byte `i` of the buffer. -/
def bufByte (s : Vm) (p : Proc) (dst i : ℕ) : UInt8 :=
  s.kmem.mem (s.physAddr p.kpagetable ((dst + i) % 2 ^ 64))

/-- `dst` is a buffer of `len` bytes in the kernel's memory, which is not where the kernel finds the
bytes that the process may read. -/
structure KernelBuffer (s : Vm) (p : Proc) (dst srcva len : ℕ) : Prop where
  writable : ∀ i, i < len → s.kWritable p.kpagetable ((dst + i) % 2 ^ 64)
  inj : ∀ i, i < len → ∀ j, j < len → s.physAddr p.kpagetable ((dst + i) % 2 ^ 64) =
    s.physAddr p.kpagetable ((dst + j) % 2 ^ 64) → i = j
  own : ∀ i, i < len → (s.userByte p (srcva + i)).isSome → ∀ j, j < len →
    s.physAddr p.kpagetable ((dst + j) % 2 ^ 64) ≠ s.physAddr p.kpagetable (srcva + i)

/-- The result and the buffer afterwards. -/
def copied (s : Vm) (p : Proc) (dst srcva len : ℕ) : Option (ℤ × (Fin len → UInt8)) :=
  match copyin p p.pagetable dst srcva len s with
  | .ok (r, s') => some (r, fun i => s'.bufByte p dst i)
  | .error _ => none

/-- The bytes if the process may read all of them, and otherwise -1. -/
def Confined (s : Vm) (p : Proc) (dst srcva len : ℕ) : Prop :=
  ∃ r buf, s.copied p dst srcva len = some (r, buf) ∧
    ((∀ i, i < len → (s.userByte p (srcva + i)).isSome) → r = 0 ∧
      ∀ i : Fin len, s.userByte p (srcva + i) = some (buf i)) ∧
    ((∃ i, i < len ∧ s.userByte p (srcva + i) = none) → r = -1)

/-! ## Moving bytes -/

variable {s s' : Vm} {o : ℕ → ℕ} {p : Proc} {kpt dst src n : ℕ} {i : ℕ}

/-- What has been copied, when the bytes in `done` have been moved. -/
structure Moved (s s' : Vm) (kpt dst src : ℕ) (done : ℕ → Prop) : Prop where
  pt : s'.pt = s.pt
  readable : ∀ i, done i → s.kReadable kpt ((src + i) % 2 ^ 64)
  moved : ∀ i, done i → s'.kmem.mem (s.physAddr kpt ((dst + i) % 2 ^ 64)) =
    s.kmem.mem (s.physAddr kpt ((src + i) % 2 ^ 64))
  kept : ∀ a, (∀ i, done i → a ≠ s.physAddr kpt ((dst + i) % 2 ^ 64)) → s'.kmem.mem a = s.kmem.mem a

/-- Source and destination of a `memmove` have no byte in common. -/
structure Apart (s : Vm) (kpt dst src n : ℕ) : Prop where
  writable : ∀ i, i < n → s.kWritable kpt ((dst + i) % 2 ^ 64)
  inj : ∀ i j, i < n → j < n → s.physAddr kpt ((dst + i) % 2 ^ 64) =
    s.physAddr kpt ((dst + j) % 2 ^ 64) → i = j
  own : ∀ i j, i < n → j < n → s.physAddr kpt ((dst + j) % 2 ^ 64) ≠
    s.physAddr kpt ((src + i) % 2 ^ 64)

lemma Moved.congr {done done' : ℕ → Prop} (hm : Moved s s' kpt dst src done)
    (h : ∀ i, done' i ↔ done i) : Moved s s' kpt dst src done' :=
  ⟨hm.pt, fun i hi => hm.readable i ((h i).mp hi), fun i hi => hm.moved i ((h i).mp hi),
    fun a ha => hm.kept a fun i hi => ha i ((h i).mpr hi)⟩

lemma moveByte_spec {done : ℕ → Prop} (ha : s.Apart kpt dst src n)
    (hm : Moved s s' kpt dst src done) (hdone : ∀ i, done i → i < n) (hi : i < n) :
    wp (moveByte kpt dst src i) s' (fun _ s'' => Moved s s'' kpt dst src fun j => done j ∨ j = i)
      fun _ => ∃ j, j < n ∧ s.kReadable kpt ((src + j) % 2 ^ 64) = false := by
  have hread : ∀ va, s'.kReadable kpt va = s.kReadable kpt va := by
    intro va
    simp only [kReadable, pte, hm.pt]
  have hwrite : ∀ va, s'.kWritable kpt va = s.kWritable kpt va := by
    intro va
    simp only [kWritable, pte, hm.pt]
  have hphys : ∀ va, s'.physAddr kpt va = s.physAddr kpt va := by
    intro va
    simp only [physAddr, pte, hm.pt]
  rw [moveByte, wp_bind, kRead, wp_bind, wp_get, wp_ite, hread]
  refine ⟨fun hr => ?_, fun hr => wp_throw.mpr ⟨i, hi, by simpa using hr⟩⟩
  rw [wp_pure, kWrite, wp_bind, wp_get, hwrite, if_pos (ha.writable i hi), wp_set, hphys, hphys]
  -- the byte read is still the one of the start: no byte of the source has been written
  have hbyte : s'.kmem.mem (s.physAddr kpt ((src + i) % 2 ^ 64)) =
      s.kmem.mem (s.physAddr kpt ((src + i) % 2 ^ 64)) :=
    hm.kept _ fun j hj => (ha.own i j hi (hdone j hj)).symm
  refine ⟨hm.pt, ?_, ?_, ?_⟩
  · rintro j (hj | rfl)
    · exact hm.readable j hj
    · exact hr
  · rintro j hj
    by_cases heq : j = i
    · subst heq
      exact (Function.update_self ..).trans hbyte
    · have hjd := hj.resolve_right heq
      refine (Function.update_of_ne ?_ ..).trans (hm.moved j hjd)
      exact fun h => heq (ha.inj j i (hdone j hjd) hi h)
  · intro a hout
    refine (Function.update_of_ne (hout i (.inr rfl)) ..).trans ?_
    exact hm.kept a fun j hj => hout j (.inl hj)

lemma moveLoop_spec (ha : s.Apart kpt dst src n) {f : ℕ → ℕ} (hf : ∀ k, k < n → f k < n)
    (hall : ∀ i, i < n → ∃ k, k < n ∧ f k = i) :
    wp (forRange (fun k => moveByte kpt dst src (f k)) 0 n) s
      (fun _ s' => Moved s s' kpt dst src fun i => i < n)
      fun _ => ∃ j, j < n ∧ s.kReadable kpt ((src + j) % 2 ^ 64) = false := by
  refine (wp_forRange (fun k (s' : Vm) => Moved s s' kpt dst src fun i => ∃ j, j < k ∧ f j = i)
    ?_ ?_).post ?_
  · exact ⟨rfl, fun i ⟨j, hj, _⟩ => absurd hj (by omega), fun i ⟨j, hj, _⟩ => absurd hj (by omega),
      fun _ _ => rfl⟩
  · intro k s' _ hk hm
    have hk' : k < n := by omega
    have hdone : ∀ i, (∃ j, j < k ∧ f j = i) → i < n := by
      rintro i ⟨j, hj, rfl⟩
      exact hf j (by omega)
    refine (moveByte_spec ha hm hdone (hf k hk')).post ?_
    intro _ s'' hm'
    refine hm'.congr fun i => ⟨?_, ?_⟩
    · rintro ⟨j, hj, rfl⟩
      by_cases hjk : j = k
      · exact .inr (by rw [hjk])
      · exact .inl ⟨j, by omega, rfl⟩
    · rintro (⟨j, hj, rfl⟩ | rfl)
      · exact ⟨j, by omega, rfl⟩
      · exact ⟨k, by omega, rfl⟩
  · intro _ s' hm
    refine hm.congr fun i => ⟨fun hi => ?_, ?_⟩
    · obtain ⟨k, hk, rfl⟩ := hall i hi
      exact ⟨k, by omega, rfl⟩
    · rintro ⟨k, hk, rfl⟩
      exact hf k (by omega)

lemma memmove_spec (ha : s.Apart kpt dst src n) :
    wp (memmove kpt dst src n) s (fun _ s' => Moved s s' kpt dst src fun i => i < n)
      fun _ => ∃ j, j < n ∧ s.kReadable kpt ((src + j) % 2 ^ 64) = false := by
  rw [memmove]
  split
  · exact moveLoop_spec ha (fun k hk => by omega)
      fun i hi => ⟨n - 1 - i, by omega, by omega⟩
  · exact moveLoop_spec ha (fun k hk => hk) fun i hi => ⟨i, hi, rfl⟩

/-! ## When it does -/

section

variable {srcva len : ℕ}

lemma userByte_lt {va : ℕ} (h : (s.userByte p va).isSome) : va < MAXVA := by
  simp only [userByte] at h
  split at h
  · next hc => exact hc.1
  · cases h

lemma mod_of_userByte {va : ℕ} (h : (s.userByte p va).isSome) : va % 2 ^ 64 = va :=
  Nat.mod_eq_of_lt ((userByte_lt h).trans (by decide))

lemma KernelBuffer.apart (hb : s.KernelBuffer p dst srcva len)
    (hacc : ∀ i, i < len → (s.userByte p (srcva + i)).isSome) :
    s.Apart p.kpagetable dst srcva (len % 2 ^ 32) := by
  have hle : ∀ {i}, i < len % 2 ^ 32 → i < len := fun hi => hi.trans_le (Nat.mod_le ..)
  refine ⟨fun i hi => hb.writable i (hle hi), fun i j hi hj => hb.inj i (hle hi) j (hle hj), ?_⟩
  intro i j hi hj
  rw [mod_of_userByte (hacc i (hle hi))]
  exact hb.own i (hle hi) (hacc i (hle hi)) j (hle hj)

lemma copied_ret {r : ℤ} {buf : Fin len → UInt8} (h : s.copied p dst srcva len = some (r, buf)) :
    r = 0 := by
  have hret : wp (copyin p p.pagetable dst srcva len) s (fun r _ => r = 0) fun _ => True := by
    rw [copyin, copyinNew, wp_bind]
    exact ⟨fun _ _ _ => wp_pure.mpr rfl, fun _ _ => trivial⟩
  simp only [copied] at h
  split at h
  · next r' s' hrun =>
    have hr := hret.1 _ _ hrun
    simp only [Option.some.injEq, Prod.mk.injEq] at h
    rw [← h.1, hr]
  · cases h

/-- The bytes that memmove has moved, and beyond them the buffer as it was. -/
lemma copied_spec (hb : s.KernelBuffer p dst srcva len)
    (hacc : ∀ i, i < len → (s.userByte p (srcva + i)).isSome) :
    (∀ x, s.copied p dst srcva len = some x →
      ∀ i, i < len % 2 ^ 32 → s.kReadable p.kpagetable (srcva + i)) ∧
    ((∀ i, i < len % 2 ^ 32 → s.kReadable p.kpagetable (srcva + i)) →
      s.copied p dst srcva len = some (0, fun i : Fin len => if i.val < len % 2 ^ 32 then
        s.kmem.mem (s.physAddr p.kpagetable (srcva + i)) else s.bufByte p dst i)) := by
  have hle : ∀ {i}, i < len % 2 ^ 32 → i < len := fun hi => hi.trans_le (Nat.mod_le ..)
  have hmod : ∀ {i}, i < len % 2 ^ 32 → (srcva + i) % 2 ^ 64 = srcva + i :=
    fun hi => mod_of_userByte (hacc _ (hle hi))
  have hspec : wp (copyin p p.pagetable dst srcva len) s
      (fun r s' => r = 0 ∧ Moved s s' p.kpagetable dst srcva fun i => i < len % 2 ^ 32)
      fun _ => ∃ j, j < len % 2 ^ 32 ∧ s.kReadable p.kpagetable ((srcva + j) % 2 ^ 64) = false := by
    rw [copyin, copyinNew, wp_bind]
    exact (memmove_spec (hb.apart hacc)).post fun _ s' hm => wp_pure.mpr ⟨rfl, hm⟩
  simp only [copied]
  cases hrun : copyin p p.pagetable dst srcva len s with
  | error e =>
    obtain ⟨j, hj, hbad⟩ := hspec.2 e hrun
    rw [hmod hj] at hbad
    refine ⟨fun x hx => (nomatch hx), fun hr => ?_⟩
    rw [hr j hj] at hbad
    cases hbad
  | ok x =>
    obtain ⟨r, s'⟩ := x
    obtain ⟨rfl, hm⟩ := hspec.1 r s' hrun
    refine ⟨fun x _ i hi => ?_, fun _ => ?_⟩
    · have hr := hm.readable i hi
      rwa [hmod hi] at hr
    · simp only [Option.some.injEq, Prod.mk.injEq, true_and]
      funext i
      have hphys : s'.bufByte p dst i =
          s'.kmem.mem (s.physAddr p.kpagetable ((dst + i) % 2 ^ 64)) := by
        simp only [bufByte, physAddr, pte, hm.pt]
      rw [hphys]
      split
      · next hi => rw [hm.moved i hi, hmod hi]
      · next hi =>
        refine hm.kept _ fun j hj heq => hi ?_
        rw [hb.inj i i.2 j (hle hj) heq]
        exact hj

lemma walkaddr_userByte (h : s.Inv o) (hu : s.user p.pagetable) (va : ℕ) :
    ∃ pa, walkaddr p.pagetable (pgRoundDown va) s = .ok (pa, s) ∧
      s.userByte p va = if pa = 0 then none else some (s.kmem.mem (pa + va % PGSIZE)) := by
  have hround : pgRoundDown va < MAXVA ↔ va < MAXVA := by
    simp only [pgRoundDown, PGSIZE, MAXVA]
    omega
  have hspec : wp (walkaddr p.pagetable (pgRoundDown va)) s (fun pa s' => s' = s ∧
      s.userByte p va = if pa = 0 then none else some (s.kmem.mem (pa + va % PGSIZE)))
      fun _ => False := by
    rw [wp_walkaddr]
    refine ⟨rfl, ?_⟩
    simp only [userPa, idx_pgRoundDown, hround, userByte]
    split
    · next hvu =>
      have hpage := h.refs.page_of _ (.leaf ⟨p.pagetable, idx va⟩) ⟨hu, hvu.2.1, rfl⟩
      have hpos : (s.pte ⟨p.pagetable, idx va⟩).pa ≠ 0 := by
        have hend := h.kmem.kend_ge
        have hge := hpage.2.1
        simp only [KERNBASE] at hend
        omega
      rw [if_neg hpos]
      rfl
    · rw [if_pos rfl]
  obtain ⟨pa, s', hrun, rfl, hbyte⟩ := hspec.returns
  exact ⟨pa, hrun, hbyte⟩

lemma Confined.accessible (hc : s.Confined p dst srcva len) (hi : i < len) :
    (s.userByte p (srcva + i)).isSome := by
  obtain ⟨r, buf, hrun, -, hfail⟩ := hc
  by_contra hnone
  rw [Option.not_isSome_iff_eq_none] at hnone
  have hr := hfail ⟨i, hi, hnone⟩
  rw [copied_ret hrun] at hr
  cases hr

lemma Confined.copied (hc : s.Confined p dst srcva len) :
    ∃ buf, s.copied p dst srcva len = some (0, buf) ∧
      ∀ i : Fin len, s.userByte p (srcva + i) = some (buf i) := by
  have hacc : ∀ i, i < len → (s.userByte p (srcva + i)).isSome := fun i hi => hc.accessible hi
  obtain ⟨r, buf, hrun, hok, -⟩ := hc
  obtain ⟨rfl, hbuf⟩ := hok hacc
  exact ⟨buf, hrun, hbuf⟩

/-- The byte is one the process may read, and the kernel finds it where it looks for it. Beyond
`2 ^ 32` bytes nothing is copied, so there it must be in the buffer already. -/
def Delivered (s : Vm) (p : Proc) (dst srcva len i : ℕ) : Prop :=
  ∃ b, s.userByte p (srcva + i) = some b ∧
    if i < len % 2 ^ 32 then s.kernelByte p (srcva + i) = some b else s.bufByte p dst i = b

lemma Confined.delivered (hb : s.KernelBuffer p dst srcva len) (hc : s.Confined p dst srcva len)
    (hi : i < len) : s.Delivered p dst srcva len i := by
  have hspec := copied_spec hb fun i hi => hc.accessible hi
  obtain ⟨buf, hrun, hbuf⟩ := hc.copied
  have hread := hspec.1 _ hrun
  have heq := Option.some.inj (hrun.symm.trans (hspec.2 hread))
  have hbuf' := congrFun (congrArg Prod.snd heq) ⟨i, hi⟩
  simp only at hbuf'
  refine ⟨buf ⟨i, hi⟩, hbuf ⟨i, hi⟩, ?_⟩
  split
  · next hlt => rw [kernelByte, if_pos (hread i hlt), hbuf', if_pos hlt]
  · next hlt => rw [hbuf', if_neg hlt]

lemma confined_of_delivered (hb : s.KernelBuffer p dst srcva len)
    (hd : ∀ i, i < len → s.Delivered p dst srcva len i) : s.Confined p dst srcva len := by
  have hacc : ∀ i, i < len → (s.userByte p (srcva + i)).isSome := by
    intro i hi
    obtain ⟨b, hbyte, -⟩ := hd i hi
    rw [hbyte]
    rfl
  have hkernel : ∀ i, i < len → i < len % 2 ^ 32 → s.kReadable p.kpagetable (srcva + i) ∧
      s.userByte p (srcva + i) = some (s.kmem.mem (s.physAddr p.kpagetable (srcva + i))) := by
    intro i hi hlt
    obtain ⟨b, hbyte, hk⟩ := hd i hi
    rw [if_pos hlt, kernelByte] at hk
    split at hk
    · next hr => exact ⟨hr, hbyte.trans hk.symm⟩
    · cases hk
  have hrun := (copied_spec hb hacc).2 fun i hlt =>
    (hkernel i (hlt.trans_le (Nat.mod_le ..)) hlt).1
  refine ⟨_, _, hrun, fun _ => ⟨rfl, fun i => ?_⟩, ?_⟩
  · split
    · next hlt => exact (hkernel i i.2 hlt).2
    · next hlt =>
      obtain ⟨b, hbyte, hk⟩ := hd i i.2
      rw [if_neg hlt] at hk
      rw [hbyte, hk]
  · rintro ⟨i, hi, hnone⟩
    have hsome := hacc i hi
    rw [hnone] at hsome
    cases hsome

/-- **When `copyin` is confined.**  It is exactly if the process may read every byte and the kernel
page table has the byte there. Two states in which it is so and which agree on what the process may
read give the same. `walkaddr` finds the same bytes. -/
theorem copyin_confined_iff {s : Vm} {o : ℕ → ℕ} {p : Proc} {dst srcva len : ℕ} (h : s.Inv o)
    (hu : s.user p.pagetable) (hb : s.KernelBuffer p dst srcva len) :
    (s.Confined p dst srcva len ↔ ∀ i, i < len → s.Delivered p dst srcva len i) ∧
    (∀ s2 : Vm, s.Confined p dst srcva len → s2.Confined p dst srcva len →
      (∀ va, s2.userByte p va = s.userByte p va) →
      s2.copied p dst srcva len = s.copied p dst srcva len) ∧
    ∀ va, ∃ pa, walkaddr p.pagetable (pgRoundDown va) s = .ok (pa, s) ∧
      s.userByte p va = if pa = 0 then none else some (s.kmem.mem (pa + va % PGSIZE)) := by
  refine ⟨⟨fun hc i hi => hc.delivered hb hi, confined_of_delivered hb⟩, ?_, walkaddr_userByte h hu⟩
  intro s2 hc hc2 hagree
  obtain ⟨buf, hrun, hbuf⟩ := hc.copied
  obtain ⟨buf2, hrun2, hbuf2⟩ := hc2.copied
  have heq : buf2 = buf := by
    funext i
    refine Option.some.inj ?_
    rw [← hbuf2 i, ← hbuf i, hagree]
  rw [hrun, hrun2, heq]

end

end Vm

/-- The kernel's direct map of its first 2 MB. -/
def directMap : PageTable where
  mid := fun i => if i = 2 then some 0x80001000 else none
  low := fun ij => if ij = (2, 0) then some 0x80002000 else none
  leaf := fun x => if x.1 = 2 ∧ x.2.1 = 0 then ⟨true, { r := true, w := true }, vaOf x⟩ else .zero

/-- The process of `forkSys` with the page table that the kernel runs it on. -/
def copyinVm : Vm :=
  match Vm.copyProcToKernel 0x87FF0000 0x87FFF000 0 0x1000
      (forkSys.vm.setPt 0x87FFF000 directMap) with
  | .ok (_, s) => s
  | .error _ => forkSys.vm

def copyinProc : Proc := ⟨0x1000, 0x87FF0000, 0x87FFF000⟩

lemma copyinVm_inv : ∃ o, copyinVm.Inv o := by
  obtain ⟨o, h⟩ := forkSys_ok
  have hk := h.kernel 1 copyinProc rfl
  have huser : forkSys.vm.user 0x87FFF000 = false := h.vm.kernel_not_user hk
  obtain ⟨o1, h1, -⟩ := (Vm.KernelStep.setPt huser directMap).inv o h.vm
  have huser' : (forkSys.vm.setPt 0x87FFF000 directMap).user 0x87FFF000 = false := huser
  have hrun : Vm.copyProcToKernel 0x87FF0000 0x87FFF000 0 0x1000
      (forkSys.vm.setPt 0x87FFF000 directMap) = .ok ((), copyinVm) := rfl
  obtain ⟨o2, h2, -⟩ :=
    ((Vm.copyProcToKernel_cause h1 huser' (by decide) _ _).1 _ _ hrun).2.step.inv o1 h1
  exact ⟨o2, h2⟩

/-- `copyin` of eight bytes from the page of the process. -/
theorem copyin_confined_sample : copyinVm.KernelBuffer copyinProc 0x80005000 0 8 ∧
      copyinVm.Confined copyinProc 0x80005000 0 8 := by
  obtain ⟨o, h⟩ := copyinVm_inv
  have hb : copyinVm.KernelBuffer copyinProc 0x80005000 0 8 :=
    ⟨by decide, by decide, by decide⟩
  refine ⟨hb, (Vm.copyin_confined_iff h rfl hb).1.mpr ?_⟩
  intro i hi
  refine ⟨0, ?_⟩
  revert i
  decide

/-- `copyin` from the kernel's own memory returns 0, and what it copies depends on that memory. -/
theorem copyin_reads_kernel_memory : copyinVm.KernelBuffer copyinProc 0x80005000 0x80000000 8 ∧
      ¬ copyinVm.Confined copyinProc 0x80005000 0x80000000 8 ∧
      (∀ va, (copyinVm.setByte 0x80000000 0x42).userByte copyinProc va =
        copyinVm.userByte copyinProc va) ∧
      (copyinVm.setByte 0x80000000 0x42).copied copyinProc 0x80005000 0x80000000 8 ≠
        copyinVm.copied copyinProc 0x80005000 0x80000000 8 := by
  obtain ⟨o, h⟩ := copyinVm_inv
  refine ⟨⟨by decide, by decide, by decide⟩, ?_, ?_, ?_⟩
  · intro hc
    have hacc := hc.accessible (i := 0) (by decide)
    exact absurd hacc (by decide)
  · intro va
    have hpte : (copyinVm.setByte 0x80000000 0x42).pte = copyinVm.pte := rfl
    simp only [Vm.userByte, Vm.physAddr, hpte]
    split
    · next hc =>
      -- the pages of the process are above the kernel
      have hpage := h.refs.page_of _ (.leaf ⟨copyinProc.pagetable, idx va⟩) ⟨rfl, hc.2.1, rfl⟩
      have hge : 0x87FF0000 ≤ (copyinVm.pte ⟨copyinProc.pagetable, idx va⟩).pa := hpage.2.1
      exact congrArg some (Function.update_of_ne (by omega) ..)
    · rfl
  · intro heq
    have hbyte := congrArg (fun x => x.map fun y => y.2 0) heq
    exact absurd hbyte (by decide)

end Xv6
