import Xv6.Lib.Bytes
import Xv6.Lib.Prog
import Xv6.Mem.Kalloc

/-!
# User page tables

The functions of `vm.c` that build, change and tear down user page tables, and the page-fault branch
of `usertrap`, over one state `Vm`: physical memory with its allocator, and the page tables.

A page table is known by the address of its root page, as a `pagetable_t` is. Its contents are kept
apart from the bytes of memory, level by level: the pages that the level-2 and level-1 entries point
to, and the level-0 entries. Entries below an absent page mean nothing; a fresh page-table page is
zeroed before it is linked in, and so are its entries here.

`sz`, virtual addresses and loop bounds are 64-bit numbers. A loop `for (a = lo; a < hi; a +=
PGSIZE)` runs `pagesUpto lo hi` times: `a` cannot wrap around, since `walk` panics on the way there,
at `MAXVA`.

The trampoline and trapframe entries are left out: no function below is called on their addresses
while they are mapped.
-/

namespace Xv6

open Function Prog

/-! ## Entries and tables -/

/-- The permission bits of an entry; `cow` is the software bit `PTE_COW`. -/
structure Perm where
  r : Bool := false
  w : Bool := false
  x : Bool := false
  u : Bool := false
  cow : Bool := false
  deriving DecidableEq

/-- A page-table entry. -/
structure Pte where
  v : Bool
  perm : Perm
  pa : ℕ
  deriving DecidableEq

def Pte.zero : Pte := ⟨false, {}, 0⟩

/-- `PX(level, va)`. -/
def px (level va : ℕ) : Fin 512 := Fin.ofNat 512 (va / 2 ^ (12 + 9 * level))

/-- The indices of a level-0 entry, from level 2 down. -/
abbrev Idx := Fin 512 × Fin 512 × Fin 512

def idx (va : ℕ) : Idx := (px 2 va, px 1 va, px 0 va)

/-- The first address of the page that an entry maps. -/
def vaOf (x : Idx) : ℕ := ((x.1.val * 512 + x.2.1.val) * 512 + x.2.2.val) * PGSIZE

lemma vaOf_idx {a : ℕ} (ha : a < MAXVA) : vaOf (idx a) = a / PGSIZE * PGSIZE := by
  simp only [vaOf, idx, px, Fin.ofNat, PGSIZE, MAXVA] at *
  omega

lemma idx_vaOf (x : Idx) : idx (vaOf x) = x := by
  obtain ⟨i, j, k⟩ := x
  have hi := i.2
  have hj := j.2
  have hk := k.2
  simp only [vaOf, idx, px, PGSIZE, Prod.mk.injEq]
  refine ⟨?_, ?_, ?_⟩ <;> ext <;> simp only [Fin.ofNat] <;> omega

lemma vaOf_mod (x : Idx) : vaOf x % PGSIZE = 0 := Nat.mul_mod_left ..

lemma eq_idx_iff {x : Idx} {a : ℕ} (ha : a < MAXVA) (hal : a % PGSIZE = 0) :
    x = idx a ↔ vaOf x = a := by
  have hround : a / PGSIZE * PGSIZE = a := Nat.div_mul_cancel (Nat.dvd_of_mod_eq_zero hal)
  constructor
  · rintro rfl
    rw [vaOf_idx ha, hround]
  · rintro rfl
    rw [idx_vaOf]

/-- The pages of a table on its two lower levels, and its leaf entries. -/
structure PageTable where
  mid : Fin 512 → Option ℕ
  low : Fin 512 × Fin 512 → Option ℕ
  leaf : Idx → Pte

namespace PageTable

def empty : PageTable := ⟨fun _ => none, fun _ => none, fun _ => .zero⟩

/-- The level-0 page that holds the entry exists. -/
def reach (pt : PageTable) (x : Idx) : Bool :=
  (pt.mid x.1).isSome && (pt.low (x.1, x.2.1)).isSome

/-- The table as a map: the entry, or zero if there is no page to hold one. -/
def get (pt : PageTable) (x : Idx) : Pte := if pt.reach x then pt.leaf x else .zero

def setMid (pt : PageTable) (i : Fin 512) (page : ℕ) : PageTable :=
  { pt with
    mid := update pt.mid i (some page)
    low := fun ij => if ij.1 = i then none else pt.low ij }

def setLow (pt : PageTable) (ij : Fin 512 × Fin 512) (page : ℕ) : PageTable :=
  { pt with
    low := update pt.low ij (some page)
    leaf := fun x => if (x.1, x.2.1) = ij then .zero else pt.leaf x }

def setLeaf (pt : PageTable) (x : Idx) (pte : Pte) : PageTable :=
  { pt with leaf := update pt.leaf x pte }

def clearMid (pt : PageTable) (i : Fin 512) : PageTable :=
  { pt with mid := update pt.mid i none }

def clearLow (pt : PageTable) (ij : Fin 512 × Fin 512) : PageTable :=
  { pt with low := update pt.low ij none }

end PageTable

/-! ## The state and the basic operations on it -/

/-- The allocator and the page tables, by the address of the root. -/
structure Vm where
  kmem : Kmem
  pt : ℕ → PageTable
  /-- The roots of the user page tables. -/
  user : ℕ → Bool

/-- The panics of vm.c and vmcopyin.c. -/
inductive VmPanic where
  | kfree (e : KPanic)
  | walk
  | mappagesVa
  | mappagesSizeAlign
  | mappagesSize
  | remap
  | uvmunmap
  | freewalkLeaf
  | uvmclear
  | exceedPlic
  | noUserPte
  | noValidUserPte
  | noKernelPte
  | kernelFault
  | loadseg
  deriving DecidableEq

abbrev VmProg := Prog Vm VmPanic

/-- The memory of a `struct proc`. -/
structure Proc where
  sz : ℕ
  pagetable : ℕ
  kpagetable : ℕ

/-- A pointer to a level-0 entry, as `walk` returns it. -/
structure Slot where
  root : ℕ
  idx : Idx
  deriving DecidableEq

/-- The number of rounds of `for (a = lo; a < hi; a += PGSIZE)`. -/
def pagesUpto (lo hi : ℕ) : ℕ := (hi - lo + (PGSIZE - 1)) / PGSIZE

def pgRoundUp (sz : ℕ) : ℕ := (sz + (PGSIZE - 1)) % 2 ^ 64 / PGSIZE * PGSIZE

def pgRoundDown (a : ℕ) : ℕ := a / PGSIZE * PGSIZE

namespace Vm

def setPt (s : Vm) (root : ℕ) (pt : PageTable) : Vm := { s with pt := update s.pt root pt }

/-- A new empty table. -/
def addRoot (s : Vm) (page : ℕ) : Vm :=
  { s with pt := update s.pt page .empty, user := update s.user page true }

def dropRoot (s : Vm) (page : ℕ) : Vm := { s with user := update s.user page false }

def kalloc : VmProg (Option ℕ) := do
  let s ← get
  set { s with kmem := s.kmem.kalloc.2 }
  pure s.kmem.kalloc.1

def kfree (pa : ℕ) : VmProg Unit := do
  let s ← get
  match s.kmem.kfree pa with
  | .ok k => set { s with kmem := k }
  | .error e => throw (.kfree e)

def kaddref (pa : ℕ) : VmProg Unit := modify fun s => { s with kmem := s.kmem.kaddref pa }

/-- `memset(pa, c, PGSIZE)`. -/
def memset (pa : ℕ) (c : UInt8) : VmProg Unit := modify fun s =>
    { s with kmem := s.kmem.memset pa c }

/-- `memmove(dst, src, PGSIZE)`. -/
def copyPage (dst src : ℕ) : VmProg Unit := modify fun s =>
    { s with kmem := s.kmem.copyPage dst src }

/-- `*pte`. -/
def load (p : Slot) : VmProg Pte := do
  let s ← get
  pure ((s.pt p.root).leaf p.idx)

/-- `*pte = ...`. -/
def store (p : Slot) (pte : Pte) : VmProg Unit :=
  modify fun s => s.setPt p.root ((s.pt p.root).setLeaf p.idx pte)

section

variable {s : Vm} {E : VmPanic → Prop}

@[simp] lemma wp_kalloc {Q : Option ℕ → Vm → Prop} :
    wp kalloc s Q E ↔ Q s.kmem.kalloc.1 { s with kmem := s.kmem.kalloc.2 } := by
  simp only [kalloc, wp_bind, wp_get, wp_set, wp_pure]

variable {Q : Unit → Vm → Prop} {pa : ℕ}

lemma wp_kfree : wp (kfree pa) s Q E ↔ (∀ k, s.kmem.kfree pa = .ok k → Q () { s with kmem := k }) ∧
      ∀ e, s.kmem.kfree pa = .error e → E (.kfree e) := by
  simp only [kfree, wp_bind, wp_get]
  cases s.kmem.kfree pa <;> simp

@[simp] lemma wp_kaddref : wp (kaddref pa) s Q E ↔ Q () { s with kmem := s.kmem.kaddref pa } := by
  simp [kaddref]

@[simp] lemma wp_memset {c : UInt8} :
    wp (memset pa c) s Q E ↔ Q () { s with kmem := s.kmem.memset pa c } := by
  simp [memset]

@[simp] lemma wp_copyPage {dst src : ℕ} :
    wp (copyPage dst src) s Q E ↔ Q () { s with kmem := s.kmem.copyPage dst src } := by
  simp [copyPage]

@[simp] lemma wp_load {p : Slot} {Q : Pte → Vm → Prop} :
    wp (load p) s Q E ↔ Q ((s.pt p.root).leaf p.idx) s := by
  simp only [load, wp_bind, wp_get, wp_pure]

@[simp] lemma wp_store {p : Slot} {pte : Pte} :
    wp (store p pte) s Q E ↔ Q () (s.setPt p.root ((s.pt p.root).setLeaf p.idx pte)) := by
  simp [store]

end

/-! ## Walking -/

/-- A round of `walk`'s loop: whether there is a page to go on in. `link` and `set` read and write
the entry of the level. -/
def walkLevel (pagetable : ℕ) (link : PageTable → Option ℕ) (set : PageTable → ℕ → PageTable)
    (alloc : Bool) : VmProg Bool := do
  let s ← get
  match link (s.pt pagetable) with
  | some _ => pure true
  | none =>
    if alloc then
      match ← kalloc with
      | none => pure false
      | some page => do
          memset page 0
          modify fun s => s.setPt pagetable (set (s.pt pagetable) page)
          pure true
    else pure false

/-- The round with `level == 2`. -/
def walkMid (pagetable : ℕ) (i : Fin 512) : Bool → VmProg Bool :=
  walkLevel pagetable (·.mid i) (·.setMid i)

/-- The round with `level == 1`. -/
def walkLow (pagetable : ℕ) (ij : Fin 512 × Fin 512) : Bool → VmProg Bool :=
  walkLevel pagetable (·.low ij) (·.setLow ij)

def walk (pagetable va : ℕ) (alloc : Bool) : VmProg (Option Slot) := do
  if MAXVA ≤ va then throw .walk
  else if ← walkMid pagetable (px 2 va) alloc then
    if ← walkLow pagetable (px 2 va, px 1 va) alloc then pure (some ⟨pagetable, idx va⟩)
    else pure none
  else pure none

/-- The physical address, or 0. -/
def walkaddr (pagetable va : ℕ) : VmProg ℕ := do
  if MAXVA ≤ va then pure 0
  else
    match ← walk pagetable va false with
    | none => pure 0
    | some slot => do
        let pte ← load slot
        if pte.v && pte.perm.u then pure pte.pa else pure 0

def ismapped (pagetable va : ℕ) : VmProg Bool := do
  match ← walk pagetable va false with
  | none => pure false
  | some slot => do
      let pte ← load slot
      pure pte.v

/-- One round of `mappages`: `true` if there was no memory for a page-table page. -/
def mapPage (pagetable a pa : ℕ) (perm : Perm) : VmProg (Option Unit) := do
  match ← walk pagetable a true with
  | none => pure (some ())
  | some slot => do
      let pte ← load slot
      if pte.v then throw .remap
      else
        store slot ⟨true, perm, pa⟩
        pure none

/-- `true` for 0, `false` for -1. -/
def mappages (pagetable va size pa : ℕ) (perm : Perm) : VmProg Bool := do
  if va % PGSIZE ≠ 0 then throw .mappagesVa
  else if size % PGSIZE ≠ 0 then throw .mappagesSizeAlign
  else if size = 0 then throw .mappagesSize
  else
    let r ← forUntil (fun k => mapPage pagetable (va + k * PGSIZE) (pa + k * PGSIZE) perm) 0
      (size / PGSIZE)
    pure r.isNone

/-! ## Creating, growing and shrinking -/

def uvmcreate : VmProg (Option ℕ) := do
  match ← kalloc with
  | none => pure none
  | some page => do
      memset page 0
      modify fun s => s.addRoot page
      pure (some page)

/-- One round of `uvmunmap`. -/
def unmapPage (pagetable a : ℕ) (doFree : Bool) : VmProg Unit := do
  match ← walk pagetable a false with
  | none => pure ()
  | some slot => do
      let pte ← load slot
      if pte.v then
        if doFree then kfree pte.pa
        store slot .zero
      else pure ()

def uvmunmap (pagetable va npages : ℕ) (doFree : Bool) : VmProg Unit := do
  if va % PGSIZE ≠ 0 then throw .uvmunmap
  else
    forRange (fun k => unmapPage pagetable (va + k * PGSIZE) doFree) 0
      (pagesUpto va ((va + npages * PGSIZE) % 2 ^ 64))

/-- `npages` is an `int` here and a `uint64` in `uvmunmap`. -/
def uvmdealloc (pagetable oldsz newsz : ℕ) : VmProg ℕ := do
  if oldsz ≤ newsz then pure oldsz
  else
    if pgRoundUp newsz < pgRoundUp oldsz then
      let npages := ByteArr.toInt32 ((pgRoundUp oldsz - pgRoundUp newsz) / PGSIZE % 2 ^ 32)
      uvmunmap pagetable (pgRoundUp newsz) (npages % 2 ^ 64).toNat true
    pure newsz

/-- One round of `uvmalloc`; a result means that it has failed and cleaned up. -/
def allocPage (pagetable oldsz a : ℕ) (perm : Perm) : VmProg (Option Unit) := do
  match ← kalloc with
  | none => do
      let _ ← uvmdealloc pagetable a oldsz
      pure (some ())
  | some mem => do
      memset mem 0
      if ← mappages pagetable a PGSIZE mem perm then pure none
      else
        kfree mem
        let _ ← uvmdealloc pagetable a oldsz
        pure (some ())

/-- The new size, or 0; `xw` and `xx` are the bits `PTE_W` and `PTE_X` of `xperm`. -/
def uvmalloc (pagetable oldsz newsz : ℕ) (xw xx : Bool) : VmProg ℕ := do
  if newsz < oldsz then pure oldsz
  else
    let lo := pgRoundUp oldsz
    let r ← forUntil (fun k => allocPage pagetable lo (lo + k * PGSIZE)
      { r := true, u := true, w := xw, x := xx }) 0 (pagesUpto lo newsz)
    match r with
    | some _ => pure 0
    | none => pure newsz

/-! ## Tearing down -/

/-- `freewalk` of a level-0 page. An entry with `PTE_V` and none of `PTE_R`, `PTE_W`, `PTE_X` would
be descended into; every mapping has `PTE_R`. -/
def freewalkLow (pagetable : ℕ) (ij : Fin 512 × Fin 512) (page : ℕ) : VmProg Unit := do
  forRange (fun k => do
    let s ← get
    if ((s.pt pagetable).leaf (ij.1, ij.2, Fin.ofNat 512 k)).v then throw .freewalkLeaf
    else pure ()) 0 512
  kfree page

/-- `freewalk` of a level-1 page. -/
def freewalkMid (pagetable : ℕ) (i : Fin 512) (page : ℕ) : VmProg Unit := do
  forRange (fun j => do
    let s ← get
    match (s.pt pagetable).low (i, Fin.ofNat 512 j) with
    | none => pure ()
    | some child => do
        freewalkLow pagetable (i, Fin.ofNat 512 j) child
        modify fun s => s.setPt pagetable ((s.pt pagetable).clearLow (i, Fin.ofNat 512 j))) 0 512
  kfree page

def freewalk (pagetable : ℕ) : VmProg Unit := do
  forRange (fun i => do
    let s ← get
    match (s.pt pagetable).mid (Fin.ofNat 512 i) with
    | none => pure ()
    | some child => do
        freewalkMid pagetable (Fin.ofNat 512 i) child
        modify fun s => s.setPt pagetable ((s.pt pagetable).clearMid (Fin.ofNat 512 i))) 0 512
  kfree pagetable
  modify fun s => s.dropRoot pagetable

def uvmfree (pagetable sz : ℕ) : VmProg Unit := do
  if 0 < sz then uvmunmap pagetable 0 (pgRoundUp sz / PGSIZE) true
  freewalk pagetable

/-! ## Copy-on-write -/

/-- What `uvmcopy` makes of an entry of the parent. -/
def markCow (pte : Pte) : Pte :=
  if pte.perm.w then { pte with perm := { pte.perm with w := false, cow := true } } else pte

/-- One round of `uvmcopy`; a result means that `mappages` has failed. -/
def copyOne (old new i : ℕ) : VmProg (Option ℕ) := do
  match ← walk old i false with
  | none => pure none
  | some slot => do
      let pte ← load slot
      if pte.v then
        store slot (markCow pte)
        if ← mappages new i PGSIZE pte.pa (markCow pte).perm then
          kaddref pte.pa
          pure none
        else pure (some i)
      else pure none

/-- `true` for 0, `false` for -1. -/
def uvmcopy (old new sz : ℕ) : VmProg Bool := do
  match ← forUntil (fun k => copyOne old new (k * PGSIZE)) 0 (pagesUpto 0 sz) with
  | none => pure true
  | some i => do
      uvmunmap new 0 (i / PGSIZE) true
      pure false

def uvmclear (pagetable va : ℕ) : VmProg Unit := do
  match ← walk pagetable va false with
  | none => throw .uvmclear
  | some slot => do
      let pte ← load slot
      store slot { pte with perm := { pte.perm with u := false } }

/-! ## Page faults -/

/-- The physical address, or 0. The page is looked for in `pagetable` and mapped in the page table
of the running process `p`. -/
def vmfault (p : Proc) (pagetable va : ℕ) : VmProg ℕ := do
  if p.sz ≤ va then pure 0
  else if ← ismapped pagetable (pgRoundDown va) then pure 0
  else
    match ← kalloc with
    | none => pure 0
    | some mem => do
        memset mem 0
        if ← mappages p.pagetable (pgRoundDown va) PGSIZE mem { w := true, u := true, r := true }
          then
          pure mem
        else
          kfree mem
          pure 0

/-- The copy-on-write branch of `usertrap`; `true` for `setkilled(p)`. -/
def cowFault (slot : Slot) (pte : Pte) : VmProg Bool := do
  match ← kalloc with
  | none => pure true
  | some mem => do
      copyPage mem pte.pa
      store slot ⟨pte.v, { pte.perm with w := true, cow := false }, mem⟩
      kfree pte.pa
      pure false

/-- `usertrap` with `scause == 15`. -/
def storeFault (p : Proc) (va : ℕ) : VmProg Bool := do
  let lazyFault : VmProg Bool := do
    let pa ← vmfault p p.pagetable va
    pure (pa == 0)
  match ← walk p.pagetable va false with
  | none => lazyFault
  | some slot => do
      let pte ← load slot
      if pte.perm.cow then cowFault slot pte else lazyFault

/-- `usertrap` with `scause == 13`. -/
def loadFault (p : Proc) (va : ℕ) : VmProg Bool := do
  let pa ← vmfault p p.pagetable va
  pure (pa == 0)

end Vm

end Xv6
