import Xv6.Mem.ProcCalls

/-!
# `exec`

`kexec` builds a new user page table from an ELF file and the argument strings, and only then gives
up the old one. The file is a list of bytes, `none` if there is no such file; the argument strings
are as `sys_exec` passes them. `readi` is the part of it that a kernel reads with: from a file, into
kernel memory.

Up to the commit point only the new table changes (`Built`). Afterwards the old table is gone, and
the kernel page table has the entries of the new one up to the new size; what it had above stays
there.

`p->name` and the trampoline and trapframe entries are left out.
-/

namespace Xv6

/-! ## The file -/

def readi (file : List UInt8) (off n : ℕ) : List UInt8 :=
  if file.length < off ∨ (off + n) % 2 ^ 32 < off then [] else (file.drop off).take n

/-- The little-endian number in `n` bytes from `off` on. -/
def leNat (bytes : List UInt8) (off n : ℕ) : ℕ :=
  ((bytes.drop off).take n).foldr (fun b acc => b.toNat + 256 * acc) 0

/-- The bytes of a `uint64`. -/
def le64 (w : ℕ) : List UInt8 := (List.range 8).map fun i => UInt8.ofNat (w / 256 ^ i)

abbrev ELF_MAGIC : ℕ := 0x464C457F
abbrev ELF_PROG_LOAD : ℕ := 1

/-- `sizeof(struct elfhdr)`. -/
abbrev ELFHDR : ℕ := 64

/-- `sizeof(struct proghdr)`. -/
abbrev PROGHDR : ℕ := 56

/-- `struct elfhdr`, as far as `kexec` reads it. -/
structure Elfhdr where
  magic : ℕ
  entry : ℕ
  phoff : ℕ
  phnum : ℕ

def Elfhdr.ofBytes (b : List UInt8) : Elfhdr where
  magic := leNat b 0 4
  entry := leNat b 24 8
  phoff := leNat b 32 8
  phnum := leNat b 56 2

/-- `struct proghdr`, likewise. -/
structure Proghdr where
  type : ℕ
  flags : ℕ
  off : ℕ
  vaddr : ℕ
  filesz : ℕ
  memsz : ℕ

def Proghdr.ofBytes (b : List UInt8) : Proghdr where
  type := leNat b 0 4
  flags := leNat b 4 4
  off := leNat b 8 8
  vaddr := leNat b 16 8
  filesz := leNat b 32 8
  memsz := leNat b 40 8

/-- The strings that `sys_exec` has read into one page each. -/
structure Argv where
  strs : List (List UInt8)
  count : strs.length < MAXARG
  len : ∀ a ∈ strs, a.length < PGSIZE

/-- What `kexec` leaves in the process; `sp` is also `a1`. -/
structure Image where
  proc : Proc
  argc : ℕ
  entry : ℕ
  sp : ℕ

/-- Subtraction in 64 bits. -/
def sub64 (a b : ℕ) : ℕ := (a + (2 ^ 64 - b)) % 2 ^ 64

namespace Vm

/-! ## The code -/

/-- `memmove` of kernel bytes to physical memory. -/
def putBytes (pa : ℕ) (bytes : List UInt8) : VmProg Unit :=
  modify fun s => { s with kmem := { s.kmem with
    mem := fun a => if pa ≤ a then bytes.getD (a - pa) (s.kmem.mem a) else s.kmem.mem a } }

/-- One round of `copyout`, for the page `va0`; a result means that it has failed. -/
def copyoutPage (p : Proc) (pagetable dstva : ℕ) (src : List UInt8) (va0 : ℕ) :
    VmProg (Option Unit) := do
  if MAXVA ≤ va0 then pure (some ())
  else
    let pa ← walkaddr pagetable va0
    let pa0 ← if pa = 0 then vmfault p pagetable va0 else pure pa
    if pa0 = 0 then pure (some ())
    else
      match ← walk pagetable va0 false with
      | none => throw .kernelFault
      | some slot => do
          let pte ← load slot
          if pte.perm.w then
            -- `dstva` is inside the page in the first round only
            let dst := max dstva va0
            putBytes (pa0 + (dst - va0)) ((src.drop (dst - dstva)).take (PGSIZE - (dst - va0)))
            pure none
          else pure (some ())

/-- `copyout` of the running process `p`: `true` for 0, `false` for -1. -/
def copyout (p : Proc) (pagetable dstva : ℕ) (src : List UInt8) : VmProg Bool := do
  let lo := pgRoundDown dstva
  let r ← Prog.forUntil (fun k => copyoutPage p pagetable dstva src (lo + k * PGSIZE)) 0
    (if src = [] then 0 else pagesUpto lo (dstva + src.length))
  pure r.isNone

/-- One round of `loadseg`. -/
def loadPage (pagetable va : ℕ) (file : List UInt8) (offset sz i : ℕ) : VmProg (Option Unit) := do
  let pa ← walkaddr pagetable ((va + i) % 2 ^ 64)
  if pa = 0 then throw .loadseg
  else
    let n := if sz - i < PGSIZE then sz - i else PGSIZE
    let bytes := readi file ((offset + i) % 2 ^ 32) n
    putBytes pa bytes
    if bytes.length = n then pure none else pure (some ())

/-- `i` cannot wrap around: a file is much shorter. -/
def loadseg (pagetable va : ℕ) (file : List UInt8) (offset sz : ℕ) : VmProg Bool := do
  let r ← Prog.forUntil (fun k => loadPage pagetable va file offset sz (k * PGSIZE)) 0
    (pagesUpto 0 sz)
  pure r.isNone

/-- One round of the loop over the program headers: whether to go on, and `sz`. `flags2perm` is in
the last two arguments of `uvmalloc`. -/
def loadPhdr (pagetable : ℕ) (file : List UInt8) (off sz : ℕ) : VmProg (Bool × ℕ) := do
  let bytes := readi file off PROGHDR
  if bytes.length ≠ PROGHDR then pure (false, sz)
  else
    let ph := Proghdr.ofBytes bytes
    if ph.type ≠ ELF_PROG_LOAD then pure (true, sz)
    else if ph.memsz < ph.filesz then pure (false, sz)
    else if (ph.vaddr + ph.memsz) % 2 ^ 64 < ph.vaddr then pure (false, sz)
    else if ph.vaddr % PGSIZE ≠ 0 then pure (false, sz)
    else
      let sz1 ← uvmalloc pagetable sz ((ph.vaddr + ph.memsz) % 2 ^ 64) (ph.flags.testBit 1)
        (ph.flags.testBit 0)
      if sz1 = 0 then pure (false, sz)
      else
        let ok ← loadseg pagetable ph.vaddr file (ph.off % 2 ^ 32) (ph.filesz % 2 ^ 32)
        pure (ok, sz1)

def loadPhdrs (pagetable : ℕ) (file : List UInt8) : ℕ → ℕ → ℕ → VmProg (Bool × ℕ)
  | 0, _, sz => pure (true, sz)
  | n + 1, off, sz => do
      let (ok, sz) ← loadPhdr pagetable file off sz
      if ok then loadPhdrs pagetable file n ((off + PROGHDR) % 2 ^ 32) sz else pure (false, sz)

/-- The stack pointer below `n` more bytes. -/
def pushSp (sp n : ℕ) : ℕ := sub64 sp n - sub64 sp n % 16

/-- The loop over `argv`: `sp` and `ustack`, or `none` for `goto bad`. -/
def pushArgs (p : Proc) (pagetable stackbase : ℕ) :
    List (List UInt8) → ℕ → ℕ → List ℕ → VmProg (Option (ℕ × List ℕ))
  | [], _, sp, ustack => pure (some (sp, ustack))
  | arg :: argv, argc, sp, ustack => do
      if MAXARG ≤ argc then pure none
      else
        let sp := pushSp sp (arg.length + 1)
        if sp < stackbase then pure none
        else if ← copyout p pagetable sp (arg ++ [0]) then
          pushArgs p pagetable stackbase argv (argc + 1) sp (ustack ++ [sp])
        else pure none

/-- The user stack with its arguments: the stack pointer, or `none` for `goto bad`. -/
def pushArgv (p : Proc) (pagetable sz : ℕ) (argv : Argv) : VmProg (Option ℕ) := do
  let stackbase := sub64 sz (USERSTACK * PGSIZE)
  match ← pushArgs p pagetable stackbase argv.strs 0 sz [] with
  | none => pure none
  | some (sp, ustack) => do
      let sp := pushSp sp ((ustack.length + 1) * 8)
      if sp < stackbase then pure none
      else if ← copyout p pagetable sp ((ustack ++ [0]).flatMap le64) then pure (some sp)
      else pure none

/-- `bad:`, with a page table. -/
def execBad (pagetable sz : ℕ) : VmProg (Option Image) := do
  uvmfree pagetable sz
  pure none

/-- The new image, or `none` for -1. -/
def kexec (p : Proc) (file : Option (List UInt8)) (argv : Argv) : VmProg (Option Image) := do
  match file with
  | none => pure none
  | some file =>
    let bytes := readi file 0 ELFHDR
    if bytes.length ≠ ELFHDR then pure none
    else
      let elf := Elfhdr.ofBytes bytes
      if elf.magic ≠ ELF_MAGIC then pure none
      else
        match ← uvmcreate with
        | none => pure none
        | some pagetable => do
            let (ok, sz) ← loadPhdrs pagetable file elf.phnum (elf.phoff % 2 ^ 32) 0
            if ok then
              let sz := pgRoundUp sz
              let sz1 ← uvmalloc pagetable sz ((sz + (USERSTACK + 1) * PGSIZE) % 2 ^ 64) true false
              if sz1 = 0 then execBad pagetable sz
              else
                uvmclear pagetable (sub64 sz1 ((USERSTACK + 1) * PGSIZE))
                match ← pushArgv p pagetable sz1 argv with
                | none => execBad pagetable sz1
                | some sp => do
                    uvmfree p.pagetable p.sz
                    copyProcToKernel pagetable p.kpagetable 0 sz1
                    pure (some ⟨⟨sz1, pagetable, p.kpagetable⟩, argv.strs.length, elf.entry, sp⟩)
            else execBad pagetable sz

/-! ## Panics -/

open Prog List Function

lemma copyoutPage_noCopyErr (p : Proc) (t dstva : ℕ) (src : List UInt8) (va0 : ℕ) :
    NoCopyErr (copyoutPage p t dstva src va0) := by
  refine .ite (.of_pure _) <| (walkaddr_noCopyErr ..).bind fun pa =>
    .ite ((vmfault_noCopyErr ..).bind fun pa0 => ?_) <| Only.bind (.of_pure _) fun pa0 => ?_
  all_goals
    exact .ite (.of_pure _) <| (walk_noCopyErr ..).bindOption (.of_throw id) fun slot =>
      (load_noCopyErr slot).bind fun _ => .ite ((Only.of_modify _).bind fun _ =>
        .of_pure none) (.of_pure _)

lemma copyout_noCopyErr (p : Proc) (t dstva : ℕ) (src : List UInt8) :
    NoCopyErr (copyout p t dstva src) :=
  Only.bind (.forUntil (fun _ => copyoutPage_noCopyErr ..) 0 _) fun _ => .of_pure _

lemma loadseg_noCopyErr (t va : ℕ) (file : List UInt8) (offset sz : ℕ) :
    NoCopyErr (loadseg t va file offset sz) :=
  Only.bind (.forUntil (fun _ => (walkaddr_noCopyErr ..).bind fun _ => .ite (.of_throw id) <|
    (Only.of_modify _).bind fun _ => .ite (.of_pure _) (.of_pure _)) 0 _)
    fun _ => .of_pure _

lemma loadPhdr_noCopyErr (t : ℕ) (file : List UInt8) (off sz : ℕ) :
    NoCopyErr (loadPhdr t file off sz) :=
  .ite (.of_pure _) <| .ite (.of_pure _) <| .ite (.of_pure _) <|
    .ite (.of_pure _) <| .ite (.of_pure _) <| (uvmalloc_noCopyErr ..).bind fun _ =>
      .ite (.of_pure _) <| (loadseg_noCopyErr ..).bind fun _ => .of_pure _

lemma loadPhdrs_noCopyErr (t : ℕ) (file : List UInt8) (n off sz : ℕ) :
    NoCopyErr (loadPhdrs t file n off sz) := by
  induction n generalizing off sz with
  | zero => exact .of_pure _
  | succ n ih => exact (loadPhdr_noCopyErr ..).bind fun _ => .ite (ih ..) (.of_pure _)

lemma pushArgs_noCopyErr (p : Proc) (t stackbase : ℕ) (args : List (List UInt8)) (argc sp : ℕ)
    (ustack : List ℕ) : NoCopyErr (pushArgs p t stackbase args argc sp ustack) := by
  induction args generalizing argc sp ustack with
  | nil => exact .of_pure _
  | cons arg args ih =>
    exact .ite (.of_pure none) <| .ite (.of_pure none) <|
      (copyout_noCopyErr ..).bind fun _ => .ite (ih ..) (.of_pure none)

lemma pushArgv_noCopyErr (p : Proc) (t sz : ℕ) (argv : Argv) : NoCopyErr (pushArgv p t sz argv) :=
  (pushArgs_noCopyErr ..).bindOption (.of_pure none) fun _ => .ite (.of_pure none) <|
    (copyout_noCopyErr ..).bind fun _ => .ite (.of_pure _) (.of_pure none)

lemma execBad_noCopyErr (t sz : ℕ) : NoCopyErr (execBad t sz) :=
  (uvmfree_noCopyErr t sz).bind fun _ => .of_pure none

/-! ## Loading the file -/

variable {s s' s1 s2 : Vm} {o : ℕ → ℕ} {t sz : ℕ}

lemma Same.refl (h : s.Inv o) : Same s s o := ⟨h, rfl, fun _ => rfl⟩

lemma putBytes_spec (h : s.Inv o) (pa : ℕ) (bytes : List UInt8) {E : VmPanic → Prop} :
    wp (putBytes pa bytes) s (fun _ s' => Same s s' o) E := by
  rw [putBytes, wp_modify]
  exact ⟨h.setMem _, rfl, fun _ => rfl⟩

lemma loadseg_spec (h : s.Inv o) (va : ℕ) (file : List UInt8) (offset sz : ℕ) :
    wp (loadseg t va file offset sz) s (fun _ s' => Same s s' o) fun _ => True := by
  rw [loadseg, wp_bind]
  refine (wp_forUntil (fun _ (s' : Vm) => Same s s' o) (Q := fun _ (s' : Vm) => Same s s' o)
    (.refl h) ?_).post ?_
  · rintro k s1 - - h1
    rw [loadPage, wp_bind, wp_walkaddr, wp_ite]
    refine ⟨fun _ => wp_throw.mpr trivial, fun _ => ?_⟩
    refine (putBytes_spec h1.inv _ _).bind ?_
    rintro - s2 h2
    rw [wp_ite]
    exact ⟨fun _ => wp_pure.mpr (h1.trans h2), fun _ => wp_pure.mpr (h1.trans h2)⟩
  · rintro (_ | _) s1 h1
    · exact wp_pure.mpr h1
    · exact wp_pure.mpr h1

/-- Only the table `t` has changed, and it maps nothing from `sz` on. -/
structure Built (s s' : Vm) (o : ℕ → ℕ) (t sz : ℕ) : Prop where
  inv : s'.Inv o
  user : s'.user = s.user
  other : ∀ p, p.root ≠ t → s'.pte p = s.pte p
  below : ∀ x, (s'.pte ⟨t, x⟩).v → vaOf x < sz ∧ (s'.pte ⟨t, x⟩).perm.r
  max : sz ≤ MAXVA

lemma Built.same (h : Built s s1 o t sz) (h' : Same s1 s2 o) : Built s s2 o t sz := by
  refine ⟨h'.inv, h'.user.trans h.user, fun p hp => (h'.pte p).trans (h.other p hp), ?_, h.max⟩
  intro x hx
  rw [h'.pte] at hx ⊢
  exact h.below x hx

lemma Built.mono (h : Built s s1 o t sz) {sz' : ℕ} (hle : sz ≤ sz') (hmax : sz' ≤ MAXVA) :
    Built s s1 o t sz' :=
  ⟨h.inv, h.user, h.other, fun x hx => ⟨(h.below x hx).1.trans_le hle, (h.below x hx).2⟩, hmax⟩

lemma Built.mapped (h : Built s s1 o t sz) {newsz : ℕ} {perm : Perm} (hr : perm.r)
    (hle : sz ≤ newsz) (hmax : newsz ≤ MAXVA)
    (hm : Mapped s1 s2 o (InRange t (pgRoundUp sz) newsz) perm) : Built s s2 o t newsz := by
  refine ⟨hm.inv, hm.user.trans h.user, ?_, ?_, hmax⟩
  · intro p hp
    rw [hm.kept p fun hd => hp hd.1, h.other p hp]
  · intro x hx
    by_cases hd : InRange t (pgRoundUp sz) newsz ⟨t, x⟩
    · obtain ⟨pa, hpa⟩ := hm.pte _ hd
      rw [hpa]
      exact ⟨hd.2.2, hr⟩
    · rw [hm.kept _ hd] at hx ⊢
      exact ⟨(h.below x hx).1.trans_le hle, (h.below x hx).2⟩

/-- The end of the memory of a program whose stack still fits below `PLIC`. -/
abbrev EXECTOP : ℕ := PLIC - (USERSTACK + 2) * PGSIZE

/-- The segment of the program header at `off` ends in time for the stack, if it is to be loaded. -/
def SegmentFits (file : List UInt8) (off : ℕ) : Prop :=
  let ph := Proghdr.ofBytes (readi file off PROGHDR)
  ph.type = ELF_PROG_LOAD → (ph.vaddr + ph.memsz) % 2 ^ 64 ≤ EXECTOP

/-- The same for `n` program headers from `off` on. -/
def SegmentsFit (file : List UInt8) : ℕ → ℕ → Prop
  | 0, _ => True
  | n + 1, off => SegmentFits file off ∧ SegmentsFit file n ((off + PROGHDR) % 2 ^ 32)

/-- All segments of the file do so. -/
def ElfFits (file : List UInt8) : Prop :=
  let elf := Elfhdr.ofBytes (readi file 0 ELFHDR)
  SegmentsFit file elf.phnum (elf.phoff % 2 ^ 32)

/-- The size after the program header at `off`. -/
def phdrSz (file : List UInt8) (off sz : ℕ) : ℕ :=
  let ph := Proghdr.ofBytes (readi file off PROGHDR)
  if ph.type = ELF_PROG_LOAD then max sz ((ph.vaddr + ph.memsz) % 2 ^ 64) else sz

/-- The size after `n` program headers from `off` on. -/
def phdrsSz (file : List UInt8) : ℕ → ℕ → ℕ → ℕ
  | 0, _, sz => sz
  | n + 1, off, sz => phdrsSz file n ((off + PROGHDR) % 2 ^ 32) (phdrSz file off sz)

/-- The size of a process that executes the file. -/
def execSz (file : List UInt8) : ℕ :=
  let elf := Elfhdr.ofBytes (readi file 0 ELFHDR)
  pgRoundUp (phdrsSz file elf.phnum (elf.phoff % 2 ^ 32) 0) + (USERSTACK + 1) * PGSIZE

lemma phdrsSz_le {file : List UInt8} {n off : ℕ} (h : SegmentsFit file n off) (hle : sz ≤ EXECTOP) :
    phdrsSz file n off sz ≤ EXECTOP := by
  induction n generalizing off sz with
  | zero => exact hle
  | succ n ih =>
    refine ih h.2 ?_
    rw [phdrSz]
    split
    · next hload => exact max_le hle (h.1 hload)
    · exact hle

/-- One program header: where it goes on, every page up to the new size is there. -/
lemma loadPhdr_spec (hu : s.user t) (h : Built s s1 o t sz) (hf : s1.Filled t sz)
    (file : List UInt8) (off : ℕ) :
    wp (loadPhdr t file off sz) s1 (fun r s' => Built s s' o t r.2 ∧
      (r.1 → s'.Filled t r.2 ∧ r.2 = phdrSz file off sz)) fun _ => True := by
  have hstop : Built s s1 o t sz ∧ (false = true → s1.Filled t sz ∧ sz = phdrSz file off sz) :=
    ⟨h, fun hb => by cases hb⟩
  simp only [loadPhdr, wp_ite, wp_pure, wp_bind]
  refine ⟨fun _ => hstop, fun _ => ⟨fun htype => ⟨h, fun _ => ⟨hf, (if_neg htype).symm⟩⟩,
    fun htype => ⟨fun _ => hstop, fun _ =>
      ⟨fun _ => hstop, fun _ => ⟨fun _ => hstop, fun _ => ?_⟩⟩⟩⟩⟩
  have hload : phdrSz file off sz = max sz _ := if_pos (not_not.mp htype)
  refine (uvmalloc_spec h.inv (h.user ▸ hu) _ _ _ _).post ?_
  rintro r s2 hr
  refine ⟨?_, fun hr0 => ?_⟩
  · rintro rfl
    refine ⟨?_, fun hb => by cases hb⟩
    rcases hr with ⟨-, -, rfl⟩ | ⟨hle, ⟨-, h2⟩ | ⟨h0, hmax, h2⟩⟩
    · exact h
    · exact h.same h2
    · exact (h.mapped rfl hle (hmax h.max) h2).mono (h0 ▸ Nat.zero_le _) h.max
  · have hb : Built s s2 o t r ∧ s2.Filled t r ∧ r = phdrSz file off sz := by
      rw [hload]
      rcases hr with ⟨hlt, rfl, rfl⟩ | ⟨hle, ⟨h0, -⟩ | ⟨rfl, hmax, h2⟩⟩
      · exact ⟨h, hf, (max_eq_left hlt.le).symm⟩
      · exact absurd h0 hr0
      · exact ⟨h.mapped rfl hle (hmax h.max) h2, hf.mapped h.max h2, (max_eq_right hle).symm⟩
    refine (loadseg_spec hb.1.inv _ _ _ _).post fun _ s3 h3 => ⟨hb.1.same h3, fun _ => ⟨?_, hb.2.2⟩⟩
    exact hb.2.1.congr fun x => by rw [h3.pte]

lemma loadPhdrs_spec (hu : s.user t) (file : List UInt8) (n off : ℕ) (h : Built s s1 o t sz)
    (hf : s1.Filled t sz) :
    wp (loadPhdrs t file n off sz) s1 (fun r s' => Built s s' o t r.2 ∧
      (r.1 → s'.Filled t r.2 ∧ r.2 = phdrsSz file n off sz)) fun _ => True := by
  induction n generalizing off sz s1 with
  | zero => exact wp_pure.mpr ⟨h, fun _ => ⟨hf, rfl⟩⟩
  | succ n ih =>
    rw [loadPhdrs]
    refine (loadPhdr_spec hu h hf file off).bind ?_
    rintro ⟨ok, sz'⟩ s2 ⟨h2, hok⟩
    rw [wp_ite]
    refine ⟨fun htrue => ?_, fun hfalse => wp_pure.mpr ⟨h2, fun hb => by cases hb⟩⟩
    obtain ⟨hf2, rfl⟩ := hok htrue
    exact ih _ h2 hf2

/-! ## The stack -/

lemma uvmclear_spec (h : s.Inv o) (hu : s.user t) (va : ℕ) :
    wp (uvmclear t va) s (fun _ s' => s'.Inv o ∧ s'.user = s.user ∧ va < MAXVA ∧
      ∀ p, s'.pte p = if p = ⟨t, idx va⟩ then
        { s.pte p with perm := { (s.pte p).perm with u := false } } else s.pte p)
        fun _ => True := by
  rw [uvmclear, wp_bind, walk_look]
  refine ⟨fun _ => trivial, fun hva => ?_⟩
  by_cases hreach : (s.pt t).reach (idx va)
  · simp only [hreach, if_true, wp_bind, wp_load, wp_store]
    rw [leaf_eq_pte (p := ⟨t, idx va⟩) hreach]
    have hok := h.ptes ⟨t, idx va⟩ hu
    refine ⟨h.weaken (p := ⟨t, idx va⟩) hreach ⟨?_, hok.cow⟩ rfl rfl id, rfl, hva, ?_⟩
    · intro hv
      rw [hok.zero hv]
      rfl
    · intro p
      rw [pte_store (p := ⟨t, idx va⟩) hreach]
      by_cases hp : p = ⟨t, idx va⟩
      · rw [if_pos hp, if_pos hp, hp]
      · rw [if_neg hp, if_neg hp]
  · simp only [hreach]
    exact wp_throw.mpr trivial

/-- Every page of `[lo, hi)` can be stored to by the process. -/
def Writable (s : Vm) (t lo hi : ℕ) : Prop :=
  ∀ x, lo ≤ vaOf x → vaOf x < hi → (s.pte ⟨t, x⟩).v ∧ (s.pte ⟨t, x⟩).perm.u ∧ (s.pte ⟨t, x⟩).perm.w

lemma Writable.same {lo hi : ℕ} (h : s.Writable t lo hi) (h' : Same s s' o) :
    s'.Writable t lo hi := by
  intro x hlo hhi
  rw [h'.pte]
  exact h x hlo hhi

lemma reach_of_valid {p : Slot} (hv : (s.pte p).v) : (s.pt p.root).reach p.idx := by
  by_contra hreach
  simp [pte, PageTable.get, hreach, Pte.zero] at hv

lemma Inv.pa_ne_zero (h : s.Inv o) {p : Slot} (hu : s.user p.root) (hv : (s.pte p).v) :
    (s.pte p).pa ≠ 0 := by
  have hpage := h.refs.page_of _ (.leaf p) ⟨hu, hv, rfl⟩
  have hend := h.kmem.kend_ge
  have hge := hpage.2.1
  simp only [KERNBASE] at hend
  omega

/-- `copyout` to pages that are there writes to them and does nothing else. -/
lemma copyout_spec (h : s.Inv o) (hu : s.user t) (p : Proc) {dstva : ℕ} {src : List UInt8}
    (hw : s.Writable t (pgRoundDown dstva) (dstva + src.length))
    (hmax : dstva + src.length ≤ MAXVA) :
    wp (copyout p t dstva src) s (fun r s' => r = true ∧ Same s s' o) fun _ => True := by
  rw [copyout]
  refine (wp_forUntil (fun _ (s' : Vm) => Same s s' o) (Q := fun _ _ => False) (.refl h) ?_).bind ?_
  · rintro k s1 - hk h1
    rw [Nat.zero_add] at hk
    have hva : pgRoundDown dstva + k * PGSIZE < dstva + src.length := by
      split at hk
      · omega
      · simp only [pagesUpto, pgRoundDown, PGSIZE] at *
        omega
    have hva' := hva.trans_le hmax
    have hal : (pgRoundDown dstva + k * PGSIZE) % PGSIZE = 0 := by
      rw [Nat.add_mul_mod_self_right]
      exact Nat.mul_mod_left ..
    have hvaOf : vaOf (idx (pgRoundDown dstva + k * PGSIZE)) = pgRoundDown dstva + k * PGSIZE :=
      (eq_idx_iff hva' hal).mp rfl
    obtain ⟨hv, huser, hwr⟩ := hw.same h1 (idx (pgRoundDown dstva + k * PGSIZE))
      (by rw [hvaOf]; exact Nat.le_add_right ..) (by rw [hvaOf]; exact hva)
    have hpa := h1.inv.pa_ne_zero (h1.user ▸ hu) hv
    have hwalk : s1.userPa t (pgRoundDown dstva + k * PGSIZE) = _ := if_pos ⟨hva', hv, huser⟩
    rw [copyoutPage, if_neg (not_le.mpr hva'), wp_bind, wp_walkaddr, hwalk]
    simp only [hpa, if_false, wp_bind, wp_pure]
    rw [walk_look]
    refine ⟨fun _ => trivial, fun _ => ?_⟩
    have hreach := reach_of_valid hv
    simp only [hreach, if_true, wp_bind, wp_load]
    rw [leaf_eq_pte hreach, if_pos hwr]
    refine (putBytes_spec h1.inv _ _).bind ?_
    rintro - s2 h2
    exact wp_pure.mpr (h1.trans h2)
  · rintro (_ | _) s1 h1
    · exact wp_pure.mpr ⟨rfl, h1⟩
    · exact h1.elim

/-- The next stack pointer: there is room for the bytes below the old one. -/
lemma pushSp_le {sp n : ℕ} (hn : n ≤ sp) (hsp : sp ≤ MAXVA) : pushSp sp n + n ≤ sp := by
  simp only [pushSp, sub64, MAXVA] at *
  omega

section

variable {p : Proc} {stackbase top : ℕ}

lemma Writable.push {sp n : ℕ} (h : s.Writable t stackbase top) (hal : stackbase % PGSIZE = 0)
    (hsp : stackbase ≤ sp) (htop : sp + n ≤ top) : s.Writable t (pgRoundDown sp) (sp + n) := by
  intro x hlo hhi
  refine h x (le_trans ?_ hlo) (hhi.trans_le htop)
  simp only [pgRoundDown, PGSIZE] at *
  omega

lemma pushArgs_spec (hal : stackbase % PGSIZE = 0) (hbase : PGSIZE ≤ stackbase) (htop : top ≤ MAXVA)
    (args : List (List UInt8)) (hlen : ∀ a ∈ args, a.length < PGSIZE) (argc sp : ℕ)
    (ustack : List ℕ)
    (h : s.Inv o) (hu : s.user t) (hw : s.Writable t stackbase top) (hlo : stackbase ≤ sp)
    (hhi : sp ≤ top) :
    wp (pushArgs p t stackbase args argc sp ustack) s
      (fun r s' => Same s s' o ∧ ∀ sp' ustack', r = some (sp', ustack') →
        stackbase ≤ sp' ∧ sp' ≤ top ∧ ustack'.length = ustack.length + args.length)
      fun _ => True := by
  induction args generalizing argc sp ustack s with
  | nil =>
    refine wp_pure.mpr ⟨.refl h, ?_⟩
    rintro sp' ustack' hr
    cases hr
    exact ⟨hlo, hhi, rfl⟩
  | cons arg args ih =>
    have harg := hlen arg mem_cons_self
    have hroom := pushSp_le (n := arg.length + 1) (by omega) (hhi.trans htop)
    simp only [pushArgs, wp_ite, wp_pure, wp_bind]
    refine ⟨fun _ => ⟨.refl h, fun _ _ hr => by cases hr⟩, fun _ =>
      ⟨fun _ => ⟨.refl h, fun _ _ hr => by cases hr⟩, fun hge => ?_⟩⟩
    rw [not_lt] at hge
    have hlen' : (arg ++ [0]).length = arg.length + 1 := by simp
    refine (copyout_spec h hu p (hw.push hal hge ?_) ?_).post ?_
    · rw [hlen']
      omega
    · rw [hlen']
      omega
    rintro r s1 ⟨rfl, h₁⟩
    refine ⟨fun _ => ?_, fun hf => absurd rfl hf⟩
    refine (ih (fun a ha => hlen a (mem_cons_of_mem _ ha)) _ _ _ h₁.inv (h₁.user ▸ hu)
      (hw.same h₁) hge (by omega)).post ?_
    rintro r s2 ⟨h₂, hr⟩
    refine ⟨h₁.trans h₂, fun sp' ustack' heq => ?_⟩
    obtain ⟨h1, h2, h3⟩ := hr sp' ustack' heq
    refine ⟨h1, h2, ?_⟩
    simp only [h3, length_append, length_cons, length_nil]
    omega

lemma length_flatMap_le64 (l : List ℕ) : (l.flatMap le64).length = l.length * 8 := by
  induction l with
  | nil => rfl
  | cons w l ih =>
    rw [flatMap_cons, length_append, ih, length_cons]
    simp only [le64, length_map, length_range]
    omega

lemma pushArgv_spec (h : s.Inv o) (hu : s.user t) {sz : ℕ} (hsz : (USERSTACK + 1) * PGSIZE ≤ sz)
    (hmax : sz ≤ MAXVA) (hal : sz % PGSIZE = 0) (hw : s.Writable t (sz - PGSIZE) sz) (argv : Argv) :
    wp (pushArgv p t sz argv) s (fun _ s' => Same s s' o) fun _ => True := by
  have hbase : sub64 sz (USERSTACK * PGSIZE) = sz - PGSIZE := by
    simp only [sub64, USERSTACK, PGSIZE, MAXVA] at *
    omega
  have hlow : PGSIZE ≤ sz - PGSIZE := by
    simp only [USERSTACK, PGSIZE] at *
    omega
  have hal' : (sz - PGSIZE) % PGSIZE = 0 := by
    simp only [PGSIZE] at *
    omega
  rw [pushArgv, hbase]
  refine (pushArgs_spec hal' hlow hmax argv.strs argv.len 0 sz [] h hu hw
    (Nat.sub_le ..) le_rfl).bind ?_
  rintro (_ | ⟨sp, ustack⟩) s1 ⟨h1, hr⟩
  · exact wp_pure.mpr h1
  obtain ⟨hlo, hhi, hlen⟩ := hr sp ustack rfl
  have hcount := argv.count
  have hsmall : (ustack.length + 1) * 8 ≤ sp := by
    rw [hlen]
    simp only [length_nil, MAXARG, PGSIZE] at *
    omega
  have hroom := pushSp_le hsmall (hhi.trans hmax)
  have hbytes : ((ustack ++ [0]).flatMap le64).length = (ustack.length + 1) * 8 := by
    rw [length_flatMap_le64, length_append, length_singleton]
  simp only [wp_ite, wp_pure, wp_bind]
  refine ⟨fun _ => h1, fun hge => ?_⟩
  refine (copyout_spec h1.inv (h1.user ▸ hu) p
    ((hw.same h1).push hal' (not_lt.mp hge) ?_) ?_).post ?_
  · rw [hbytes]
    exact hroom.trans hhi
  · rw [hbytes]
    exact (hroom.trans hhi).trans hmax
  rintro r s2 ⟨-, h2⟩
  exact ⟨fun _ => h1.trans h2, fun _ => h1.trans h2⟩

end

/-! ## The whole call -/

/-- A failed `exec` leaves the tables that were there as they were. -/
structure ExecFailed (s s' : Vm) (o : ℕ → ℕ) : Prop where
  inv : s'.Inv o
  user : s'.user = s.user
  pte : ∀ q, (s.user q.root ∨ 0 < o q.root) → s'.pte q = s.pte q

/-- The process `p` has become `p'`. -/
structure Execed (s s' : Vm) (o : ℕ → ℕ) (p p' : Proc) : Prop where
  inv : ∃ o', s'.Inv o' ∧ ∀ q, o q ≤ o' q
  kpagetable : p'.kpagetable = p.kpagetable
  plic : p'.sz < PLIC
  fresh : s.user p'.pagetable = false
  held : o p'.pagetable = 0
  user : s'.user = update (update s.user p'.pagetable true) p.pagetable false
  other : ∀ q, q.root ≠ p.pagetable → q.root ≠ p'.pagetable → q.root ≠ p.kpagetable →
    s'.pte q = s.pte q
  below : ∀ x, (s'.pte ⟨p'.pagetable, x⟩).v → vaOf x < p'.sz ∧ (s'.pte ⟨p'.pagetable, x⟩).perm.r
  kernel : ∀ x, vaOf x < p'.sz → (s'.pte ⟨p'.pagetable, x⟩).v ∧
    s'.pte ⟨p.kpagetable, x⟩ = kernelPte (s'.pte ⟨p'.pagetable, x⟩)
  kernelRest : ∀ x, ¬ vaOf x < p'.sz → s'.pte ⟨p.kpagetable, x⟩ = s.pte ⟨p.kpagetable, x⟩

section

variable {p : Proc}

lemma Created.built (h : Created s s1 o t) : Built s1 s1 o t 0 := by
  refine ⟨h.inv, rfl, fun _ _ => rfl, fun x hx => ?_, Nat.zero_le _⟩
  rw [h.pte, if_pos rfl] at hx
  cases hx

lemma execBad_spec (hc : Created s s1 o t) (hb : Built s1 s2 o t sz) (sz' : ℕ) :
    wp (execBad t sz') s2 (fun r s' => r = none ∧ ExecFailed s s' o) fun _ => True := by
  have hut : s2.user t := by rw [hb.user, hc.user, update_self]
  rw [execBad]
  refine (uvmfree_spec hb.inv hut sz').bind ?_
  rintro - s' ⟨hf, -⟩
  refine wp_pure.mpr ⟨rfl, hf.inv, ?_, ?_⟩
  · rw [hf.user, hb.user, hc.user, update_idem, ← hc.fresh, update_eq_self]
  · intro q hq
    have hqt : q.root ≠ t := by
      rintro rfl
      rcases hq with hq | hq
      · rw [hc.fresh] at hq
        cases hq
      · rw [hc.held] at hq
        exact lt_irrefl _ hq
    rw [hf.pte q hqt, hb.other q hqt, hc.pte, if_neg hqt]

/-- The stack pages, after the guard page has been cleared. -/
lemma stack_ready (hb : Built s s1 o t (sz + (USERSTACK + 1) * PGSIZE)) (hu : s.user t)
    (hsz : sz % PGSIZE = 0) (hm : ∀ q, InRange t sz (sz + (USERSTACK + 1) * PGSIZE) q →
      ∃ pa, s1.pte q = ⟨true, { r := true, u := true, w := true }, pa⟩) :
    wp (uvmclear t sz) s1 (fun _ s' => Built s s' o t (sz + (USERSTACK + 1) * PGSIZE) ∧
      s'.Writable t (sz + USERSTACK * PGSIZE) (sz + (USERSTACK + 1) * PGSIZE) ∧
      ∀ x, (s'.pte ⟨t, x⟩).v = (s1.pte ⟨t, x⟩).v) fun _ => True := by
  refine (uvmclear_spec hb.inv (hb.user ▸ hu) sz).post ?_
  rintro - s' ⟨hinv, huser, hva, hpte⟩
  refine ⟨⟨hinv, huser.trans hb.user, ?_, ?_, hb.max⟩, ?_, ?_⟩
  · intro q hq
    rw [hpte, if_neg (by rintro rfl; exact hq rfl), hb.other q hq]
  · intro x hx
    have hx' : (s1.pte ⟨t, x⟩).v ∧ (s'.pte ⟨t, x⟩).perm.r = (s1.pte ⟨t, x⟩).perm.r := by
      rw [hpte] at hx ⊢
      split at hx
      · next hxt => exact ⟨hx, by rw [if_pos hxt]⟩
      · next hxt => exact ⟨hx, by rw [if_neg hxt]⟩
    rw [hx'.2]
    exact hb.below x hx'.1
  · intro x hlo hhi
    have hne : (⟨t, x⟩ : Slot) ≠ ⟨t, idx sz⟩ := by
      intro heq
      have hvx := (eq_idx_iff hva hsz).mp (Slot.mk.inj heq).2
      simp only [USERSTACK, PGSIZE] at *
      omega
    obtain ⟨pa, hpa⟩ := hm ⟨t, x⟩ ⟨rfl, (Nat.le_add_right ..).trans hlo, hhi⟩
    rw [hpte, if_neg hne, hpa]
    exact ⟨rfl, rfl, rfl⟩
  · intro x
    rw [hpte]
    split <;> rfl

section

variable (h : s.Inv o) (hu : s.user p.pagetable) (hk : 0 < o p.kpagetable)
  (file : Option (List UInt8)) (argv : Argv)
include h hu hk file argv

/-- The panics of `copy_proc_to_kernel` come from a file with a segment too high. -/
lemma kexec_cause : wp (kexec p file argv) s (fun r s' => r = none ∧ ExecFailed s s' o ∨
      ∃ img, r = some img ∧ Execed s s' o p img.proc ∧ ∀ f, file = some f → img.proc.sz = execSz f)
      fun e => CopyErr e → ¬ ∀ f, file = some f → ElfFits f := by
  have hstay : ExecFailed s s o := ⟨h, rfl, fun _ _ => rfl⟩
  cases file with
  | none => exact wp_pure.mpr (.inl ⟨rfl, hstay⟩)
  | some file =>
  simp only [kexec]
  rw [wp_ite]
  refine ⟨fun _ => wp_pure.mpr (.inl ⟨rfl, hstay⟩), fun _ => ?_⟩
  rw [wp_ite]
  refine ⟨fun _ => wp_pure.mpr (.inl ⟨rfl, hstay⟩), fun _ => ?_⟩
  refine ((uvmcreate_spec h).only (uvmcreate_noCopyErr.imp _)).bind ?_
  rintro r s1 (⟨rfl, h1⟩ | ⟨t, rfl, h1⟩)
  · exact wp_pure.mpr (.inl ⟨rfl, h1.inv, h1.user, fun q _ => h1.pte q⟩)
  have hut : s1.user t := by rw [h1.user, update_self]
  simp only [wp_bind]
  have hbad : ∀ {sz sz' s'}, Built s1 s' o t sz → wp (execBad t sz') s'
      (fun r s' => r = none ∧ ExecFailed s s' o ∨ ∃ img, r = some img ∧ Execed s s' o p img.proc ∧
        ∀ f, some file = some f → img.proc.sz = execSz f)
      fun e => CopyErr e → ¬ ∀ f, some file = some f → ElfFits f := fun hb =>
    ((execBad_spec h1 hb _).only ((execBad_noCopyErr ..).imp _)).post fun r s' hr => .inl hr
  refine ((loadPhdrs_spec hut file _ _ h1.built fun x hx => absurd hx (Nat.not_lt_zero _)).only
    ((loadPhdrs_noCopyErr ..).imp _)).post ?_
  rintro ⟨ok, sz⟩ s2 ⟨h2, hok⟩
  dsimp only at h2 hok ⊢
  rw [wp_ite]
  refine ⟨fun htrue => ?_, fun _ => hbad h2⟩
  obtain ⟨hf2, hend⟩ := hok htrue
  have h2' : Built s1 s2 o t (pgRoundUp sz) := by
    refine h2.mono ?_ (pgRoundUp_le h2.max)
    have hmax := h2.max
    simp only [pgRoundUp, PGSIZE, MAXVA] at *
    omega
  have hf3 : s2.Filled t (pgRoundUp sz) := by
    intro x hx
    refine hf2 x ?_
    have hmod := vaOf_mod x
    have hmax := h2.max
    simp only [pgRoundUp, PGSIZE, MAXVA] at *
    omega
  have hal := pgRoundUp_mod sz
  have hwrap : (pgRoundUp sz + (USERSTACK + 1) * PGSIZE) % 2 ^ 64 =
      pgRoundUp sz + (USERSTACK + 1) * PGSIZE := by
    have hmax := h2'.max
    simp only [USERSTACK, PGSIZE, MAXVA] at *
    omega
  rw [wp_bind, hwrap]
  refine ((uvmalloc_spec h2.inv (h2.user ▸ hut) _ _ _ _).only
    ((uvmalloc_noCopyErr ..).imp _)).post ?_
  rintro r s3 (⟨hlt, -⟩ | ⟨hle, ⟨rfl, h3⟩ | ⟨rfl, hmax, h3⟩⟩)
  · exact absurd hlt (not_lt.mpr (Nat.le_add_right ..))
  · simp only [if_true]
    exact hbad (h2'.same h3)
  have hmax := hmax h2'.max
  rw [if_neg (by simp only [USERSTACK, PGSIZE]; omega)]
  have hb := h2'.mapped rfl hle hmax h3
  have hm : ∀ q, InRange t (pgRoundUp sz) (pgRoundUp sz + (USERSTACK + 1) * PGSIZE) q →
      ∃ pa, s3.pte q = ⟨true, { r := true, u := true, w := true }, pa⟩ := by
    intro q hq
    refine h3.pte q ?_
    rwa [pgRoundUp_of_aligned h2'.max hal]
  have hguard : sub64 (pgRoundUp sz + (USERSTACK + 1) * PGSIZE) ((USERSTACK + 1) * PGSIZE) =
      pgRoundUp sz := by
    simp only [sub64, USERSTACK, PGSIZE, MAXVA] at *
    omega
  rw [wp_bind, hguard]
  refine ((stack_ready hb hut hal hm).only ((uvmclear_noCopyErr ..).imp _)).post ?_
  rintro - s4 ⟨h4, hw, hclear⟩
  have hf4 : s4.Filled t (pgRoundUp sz + (USERSTACK + 1) * PGSIZE) :=
    (hf3.mapped h2'.max h3).congr hclear
  rw [wp_bind]
  refine ((pushArgv_spec h4.inv (h4.user ▸ hut) (Nat.le_add_left ..) hmax ?_ ?_ argv).only
    ((pushArgv_noCopyErr ..).imp _)).post ?_
  · rw [Nat.add_mul_mod_self_right]
    exact hal
  · convert hw using 1
    simp only [USERSTACK, PGSIZE]
    omega
  rintro (_ | sp) s5 h5
  · exact hbad (h4.same h5)
  have hb5 := h4.same h5
  -- the commit point: the old table goes, and the kernel page table is given the new entries
  have hpt : p.pagetable ≠ t := by
    intro heq
    have hfresh := h1.fresh
    rw [← heq, hu] at hfresh
    cases hfresh
  have hup : s5.user p.pagetable := by rw [hb5.user, h1.user, update_of_ne hpt]; exact hu
  refine ((uvmfree_spec hb5.inv hup p.sz).only ((uvmfree_noCopyErr ..).imp _)).bind ?_
  rintro - s6 ⟨h6, -⟩
  have hut6 : s6.user t := by
    rw [h6.user, update_of_ne hpt.symm, hb5.user, h1.user, update_self]
  have htk := h6.inv.user_ne_kernel hut6 hk
  have hpk := h.user_ne_kernel hu hk
  rw [wp_bind]
  have hvis := visited_zero_iff hmax
  refine (copyProcToKernel_cause h6.inv (h6.inv.kernel_not_user hk) htk 0 _).mono ?_ ?_
  swap
  · intro e he hce hfits
    have htop := hend.trans_le (phdrsSz_le (hfits file rfl) (Nat.zero_le _))
    refine he.not_copyErr ?_ (fun x hx => ?_) hce
    · simp only [pgRoundUp, EXECTOP, PLIC, USERSTACK, PGSIZE] at *
      omega
    · rw [h6.pte ⟨t, x⟩ hpt.symm, h5.pte]
      exact hf4 x ((hvis x).mp hx)
  rintro - s7 ⟨hplic, h7⟩
  have hold : ∀ q : Slot, q.root ≠ p.pagetable → q.root ≠ t → s6.pte q = s.pte q := by
    intro q hqp hqt
    rw [h6.pte q hqp, hb5.other q hqt, h1.pte, if_neg hqt]
  have hnew : ∀ x, s7.pte ⟨t, x⟩ = s5.pte ⟨t, x⟩ := by
    intro x
    rw [h7.step.pte ⟨t, x⟩ htk, h6.pte ⟨t, x⟩ hpt.symm]
  refine wp_pure.mpr (.inr ⟨_, rfl, ⟨h7.step.inv o h6.inv, rfl, hplic, h1.fresh, h1.held, ?_,
    ?_, ?_, ?_, ?_⟩, ?_⟩)
  · rw [h7.step.user, h6.user, hb5.user, h1.user]
  · intro q hqp hqt hqk
    rw [h7.step.pte q hqk, hold q hqp hqt]
  · intro x hx
    rw [hnew] at hx ⊢
    exact hb5.below x hx
  · intro x hx
    rw [h7.copied x ((hvis x).mpr hx), h7.step.pte ⟨t, x⟩ htk]
    exact ⟨h7.valid x ((hvis x).mpr hx), rfl⟩
  · intro x hx
    rw [h7.kept x fun hv => hx ((hvis x).mp hv), hold ⟨p.kpagetable, x⟩ hpk.symm htk.symm]
  · rintro f hf
    cases hf
    rw [hend]
    rfl

end

end

end Vm

end Xv6
