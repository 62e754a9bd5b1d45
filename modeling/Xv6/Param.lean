import Mathlib.Tactic

/-!
# Kernel parameters

The constants of `param.h`, `fs.h`, `riscv.h` and `memlayout.h` that the modelled functions use,
under their source names.
-/

namespace Xv6

/-! ## `param.h` -/

abbrev NPROC : ℕ := 64
abbrev NCPU : ℕ := 8
instance ncpuNe : NeZero NCPU := ⟨by decide⟩
abbrev MAXARG : ℕ := 32
abbrev MAXOPBLOCKS : ℕ := 10
abbrev LOGBLOCKS : ℕ := MAXOPBLOCKS * 3
abbrev NBUF : ℕ := MAXOPBLOCKS * 3
abbrev NOFILE : ℕ := 16
abbrev NFILE : ℕ := 100
abbrev NINODE : ℕ := 50
abbrev USERSTACK : ℕ := 1

/-! ## `fs.h` -/

abbrev BSIZE : ℕ := 1024
abbrev NDIRECT : ℕ := 12
abbrev NINDIRECT : ℕ := BSIZE / 4
abbrev MAXFILE : ℕ := NDIRECT + NINDIRECT
abbrev IPB : ℕ := BSIZE / 64
abbrev BPB : ℕ := BSIZE * 8
abbrev DIRSIZ : ℕ := 14

/-! ## `riscv.h` and `memlayout.h` -/

abbrev PGSIZE : ℕ := 4096
instance pxNe : NeZero 512 := ⟨by decide⟩
abbrev MAXVA : ℕ := 2 ^ 38
abbrev KERNBASE : ℕ := 0x80000000
abbrev PHYSTOP : ℕ := KERNBASE + 128 * 1024 * 1024
abbrev UART0 : ℕ := 0x10000000
abbrev VIRTIO0 : ℕ := 0x10001000
abbrev PLIC : ℕ := 0x0c000000
abbrev TRAMPOLINE : ℕ := MAXVA - PGSIZE
abbrev TRAPFRAME : ℕ := TRAMPOLINE - PGSIZE

/-- `KSTACK(p)`. -/
abbrev KSTACK (p : ℕ) : ℕ := TRAMPOLINE - (p + 1) * 2 * PGSIZE

end Xv6
