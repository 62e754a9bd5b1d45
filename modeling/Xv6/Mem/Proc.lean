import Xv6.Mem.Vm

/-!
# The memory of a process

The functions of `proc.c`, `sysproc.c` and `vmcopyin.c` that change the address space of a process:
`growproc`, `sys_sbrk`, the memory part of `kfork`, and `copy_proc_to_kernel`, which copies mappings
of the user page table into the page table that the kernel runs the process on.

`kfork` starts with `allocproc`. Of what `allocproc` sets up, the model has the empty user page
table and the root of the kernel page table; the other mappings of the kernel page table are an
argument, as `kvmmake` makes them.
-/

namespace Xv6.Vm

/-- One round of `copy_proc_to_kernel`. -/
def copyEntry (procPt kernelPt a : ℕ) : VmProg Unit := do
  match ← walk procPt a false with
  | none => throw .noUserPte
  | some slot1 => do
      let pte1 ← load slot1
      if pte1.v then
        match ← walk kernelPt a true with
        | none => throw .noKernelPte
        | some slot2 =>
          store slot2 { pte1 with perm := { pte1.perm with u := false, w := false, x := false } }
      else throw .noValidUserPte

def copyProcToKernel (procPt kernelPt oldsz newsz : ℕ) : VmProg Unit := do
  if PLIC ≤ newsz then throw .exceedPlic
  else
    Prog.forRange (fun k => copyEntry procPt kernelPt (oldsz + k * PGSIZE)) 0
      (pagesUpto oldsz newsz)

/-- The end of `growproc`. -/
def growDone (p : Proc) (sz : ℕ) : VmProg (Option Proc) := do
  copyProcToKernel p.pagetable p.kpagetable p.sz sz
  pure (some { p with sz := sz })

/-- `sz + n` in 64 bits. -/
def addSz (sz : ℕ) (n : ℤ) : ℕ := ((sz + n) % 2 ^ 64).toNat

/-- The process afterwards, or `none` for -1. -/
def growproc (p : Proc) (n : ℤ) : VmProg (Option Proc) := do
  if 0 < n then
    if TRAPFRAME < addSz p.sz n then pure none
    else
      let sz ← uvmalloc p.pagetable p.sz (addSz p.sz n) true false
      if sz = 0 then pure none else growDone p sz
  else if n < 0 then
    let sz ← uvmdealloc p.pagetable p.sz (addSz p.sz n)
    growDone p sz
  else growDone p p.sz

/-- `sys_sbrk`; `eager` for `SBRK_EAGER`. -/
def sbrk (p : Proc) (n : ℤ) (eager : Bool) : VmProg (Option Proc) := do
  if eager ∨ n < 0 then growproc p n
  else if addSz p.sz n < p.sz then pure none
  else if TRAPFRAME < addSz p.sz n then pure none
  else pure (some { p with sz := addSz p.sz n })

/-- The kernel page table of `allocproc`: a fresh root with the mappings of `kvmmake`, which does
not test what `kalloc` returns. -/
def kvmmake (kpt : PageTable) : VmProg ℕ := do
  match ← kalloc with
  | none => throw .kernelFault
  | some page => do
      memset page 0
      modify fun s => s.setPt page kpt
      pure page

/-- The child, or `none` for -1. Of `allocproc` only the kernel page table is here: `kpt`. -/
def kfork (p : Proc) (kpt : PageTable) : VmProg (Option Proc) := do
  match ← uvmcreate with
  | none => pure none
  | some pagetable => do
      let kpagetable ← kvmmake kpt
      if ← uvmcopy p.pagetable pagetable p.sz then
        copyProcToKernel pagetable kpagetable 0 p.sz
        pure (some ⟨p.sz, pagetable, kpagetable⟩)
      else
        uvmfree pagetable 0
        pure none

end Xv6.Vm
