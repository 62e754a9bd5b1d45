import Xv6.Lib.Radix
import Xv6.Lib.Steps
import Xv6.Mem.Vm

/-!
# Page tables in memory

`walk`, `mappages`, `uvmunmap` and `uvmclear` once more, below the tables of `Mem/Vm.lean`: the
state is physical memory and its allocator, a page table is the page its root points to, and an
entry is the 64-bit word at its address. The functions read and write these words, follow the
physical addresses in them, and take pages from `kalloc`.

The result is that such a table is a finite map. `found` is what `walk(va, 0)` leads to, and
`TableOp.Effect` says what each function does to a map from page numbers to entries.

Seen page by page, memory is a memory of nodes (`nodes`), and a set of page tables is a set of radix
trees of depth 2 (`Tables`). The bit patterns are met in two places only, `next_pa2pte` and the page
number of an entry; that distinct entries do not overlap is `nodes_store`.

`uvmunmap` with `do_free` gives the page of an entry to `kfree`, which fills it with junk. If the
page were one of the page table's own, the table would be gone (`uvmunmap_frees_table`): nothing in
`mappages` prevents such an entry. `TableOp.Fits` excludes it.
-/

namespace Xv6.Sv39

open Prog ByteArr Radix

/-! ## Entries -/

def PTE_V : BitVec 64 := 1

def PTE_U : BitVec 64 := 16

def pa2pte (pa : BitVec 64) : BitVec 64 := (pa >>> 12) <<< 10

def pte2pa (pte : BitVec 64) : BitVec 64 := (pte >>> 10) <<< 12

/-- `*pte & PTE_V`. -/
def valid (pte : BitVec 64) : Bool := pte &&& PTE_V != 0

/-- What `mappages` stores; `perm` is an `int`, extended to 64 bits. -/
def mkPte (pa perm : BitVec 64) : BitVec 64 := pa2pte pa ||| perm ||| PTE_V

lemma valid_eq_getLsbD (w : BitVec 64) : valid w = w.getLsbD 0 := by
  have h : w &&& PTE_V = BitVec.ofNat 64 (w.toNat % 2) := by
    apply BitVec.eq_of_toNat_eq
    rw [BitVec.toNat_and, BitVec.toNat_ofNat]
    show w.toNat &&& 1 = _
    rw [Nat.and_one_is_mod]
    omega
  rw [valid, h, BitVec.getLsbD, Nat.testBit_zero]
  rcases Nat.mod_two_eq_zero_or_one w.toNat with h | h <;> rw [h] <;> rfl

lemma valid_mkPte (pa perm : BitVec 64) : valid (mkPte pa perm) = true := by
  rw [valid_eq_getLsbD, mkPte, BitVec.getLsbD_or]
  simp [PTE_V]

lemma valid_clear (w : BitVec 64) : valid (w &&& ~~~PTE_U) = valid w := by
  rw [valid_eq_getLsbD, valid_eq_getLsbD, BitVec.getLsbD_and]
  simp [PTE_U]

/-- The page number of the page an entry points to. -/
def ppn (w : BitVec 64) : ℕ := (pte2pa w).toNat / PGSIZE

lemma ppn_mul (w : BitVec 64) : ppn w * PGSIZE = (pte2pa w).toNat := by
  have h : (pte2pa w).toNat % PGSIZE = 0 := by
    simp only [pte2pa, BitVec.toNat_shiftLeft, Nat.shiftLeft_eq, PGSIZE]
    omega
  exact Nat.div_mul_cancel (Nat.dvd_of_mod_eq_zero h)

/-- The page a valid entry points to. -/
def next (w : BitVec 64) : Option ℕ := if valid w then some (ppn w) else none

@[simp] lemma next_isSome (w : BitVec 64) : (next w).isSome = valid w := by
  cases h : valid w <;> simp [next, h]

/-- An entry that points to a page-table page points back to it. -/
lemma next_pa2pte {n : ℕ} (hn : n * PGSIZE < PHYSTOP) :
    next (pa2pte (BitVec.ofNat 64 (n * PGSIZE)) ||| PTE_V) = some n := by
  have hv : valid (pa2pte (BitVec.ofNat 64 (n * PGSIZE)) ||| PTE_V) = true := by
    rw [valid_eq_getLsbD, BitVec.getLsbD_or]
    simp [PTE_V]
  have hpa : pte2pa (pa2pte (BitVec.ofNat 64 (n * PGSIZE)) ||| PTE_V) =
      pte2pa (pa2pte (BitVec.ofNat 64 (n * PGSIZE))) := by
    rw [pte2pa, pte2pa, BitVec.ushiftRight_or_distrib]
    simp [PTE_V]
  have hnat : (pte2pa (pa2pte (BitVec.ofNat 64 (n * PGSIZE)))).toNat = n * PGSIZE := by
    simp only [pte2pa, pa2pte, BitVec.toNat_shiftLeft, BitVec.toNat_ushiftRight, BitVec.toNat_ofNat,
      Nat.shiftLeft_eq, Nat.shiftRight_eq_div_pow, PGSIZE, PHYSTOP, KERNBASE] at *
    omega
  rw [next, if_pos hv, ppn, hpa, hnat, Nat.mul_div_cancel _ (by norm_num)]

/-! ## The functions -/

abbrev MemProg := Prog Kmem VmPanic

/-- `*pte`, for the entry at address `a`. -/
def load (s : Kmem) (a : ℕ) : BitVec 64 := BitVec.ofNat 64 (word64 s.mem a)

def putPte (s : Kmem) (a : ℕ) (w : BitVec 64) : Kmem := { s with mem := putWord64 s.mem a w.toNat }

/-- `*pte = w`. -/
def store (a : ℕ) (w : BitVec 64) : MemProg Unit := modify fun s => putPte s a w

def kalloc : MemProg (Option ℕ) := do
  let s ← get
  set s.kalloc.2
  pure s.kalloc.1

def kfree (pa : ℕ) : MemProg Unit := do
  let s ← get
  match s.kfree pa with
  | .ok s' => set s'
  | .error e => throw (.kfree e)

/-- `memset(pa, 0, PGSIZE)`. -/
def zeroPage (pa : ℕ) : MemProg Unit := modify fun s => s.memset pa 0

/-- One round of `walk`'s loop: the page-table page to go on in. -/
def walkLevel (pagetable va level : ℕ) (alloc : Bool) : MemProg (Option ℕ) := do
  let s ← get
  let pte := pagetable + 8 * (px level va).val
  if valid (load s pte) then pure (some (pte2pa (load s pte)).toNat)
  else if alloc then
    match ← kalloc with
    | none => pure none
    | some page => do
        zeroPage page
        store pte (pa2pte (BitVec.ofNat 64 page) ||| PTE_V)
        pure (some page)
  else pure none

/-- The address of the entry. -/
def walk (pagetable va : ℕ) (alloc : Bool) : MemProg (Option ℕ) := do
  if MAXVA ≤ va then throw .walk
  else
    match ← walkLevel pagetable va 2 alloc with
    | none => pure none
    | some mid =>
      match ← walkLevel mid va 1 alloc with
      | none => pure none
      | some low => pure (some (low + 8 * (px 0 va).val))

/-- One round of `mappages`: a result means that there was no memory for a page-table page. -/
def mapPage (pagetable a : ℕ) (pa perm : BitVec 64) : MemProg (Option Unit) := do
  match ← walk pagetable a true with
  | none => pure (some ())
  | some pte => do
      let s ← get
      if valid (load s pte) then throw .remap
      else
        store pte (mkPte pa perm)
        pure none

/-- `true` for 0, `false` for -1. The loop ends at `a == last`, after `size / PGSIZE` rounds. -/
def mappages (pagetable va size : ℕ) (pa perm : BitVec 64) : MemProg Bool := do
  if va % PGSIZE ≠ 0 then throw .mappagesVa
  else if size % PGSIZE ≠ 0 then throw .mappagesSizeAlign
  else if size = 0 then throw .mappagesSize
  else
    let r ← forUntil (fun k => mapPage pagetable (va + k * PGSIZE)
      (pa + BitVec.ofNat 64 (k * PGSIZE)) perm) 0 (size / PGSIZE)
    pure r.isNone

/-- One round of `uvmunmap`. -/
def unmapPage (pagetable a : ℕ) (doFree : Bool) : MemProg Unit := do
  match ← walk pagetable a false with
  | none => pure ()
  | some pte => do
      let s ← get
      if valid (load s pte) then
        if doFree then kfree (pte2pa (load s pte)).toNat
        store pte 0
      else pure ()

def uvmunmap (pagetable va npages : ℕ) (doFree : Bool) : MemProg Unit := do
  if va % PGSIZE ≠ 0 then throw .uvmunmap
  else
    forRange (fun k => unmapPage pagetable (va + k * PGSIZE) doFree) 0
      (pagesUpto va ((va + npages * PGSIZE) % 2 ^ 64))

def uvmclear (pagetable va : ℕ) : MemProg Unit := do
  match ← walk pagetable va false with
  | none => throw .uvmclear
  | some pte => do
      let s ← get
      store pte (load s pte &&& ~~~PTE_U)

/-- The entry that `walk(va, 0)` finds, if it is valid. -/
def found (s : Kmem) (pagetable va : ℕ) : Option (BitVec 64) :=
  match walk pagetable va false s with
  | .ok (some pte, _) => if valid (load s pte) then some (load s pte) else none
  | _ => none

/-! ## Memory page by page -/

/-- The words of a page. -/
def nodes (s : Kmem) (n : ℕ) (i : Fin 512) : BitVec 64 := load s (n * PGSIZE + 8 * i.val)

lemma nodes_store (s : Kmem) (n : ℕ) (i : Fin 512) (w : BitVec 64) :
    nodes (putPte s (n * PGSIZE + 8 * i.val) w) = put (nodes s) n i w := by
  funext n' i'
  by_cases h : n' = n ∧ i' = i
  · obtain ⟨rfl, rfl⟩ := h
    rw [put_self, nodes, load, putPte, word64_putWord64, Nat.mod_eq_of_lt w.isLt,
      BitVec.ofNat_toNat, BitVec.setWidth_eq]
  · have hi := i.isLt
    have hi' := i'.isLt
    have hdis : n * PGSIZE + 8 * i.val + 8 ≤ n' * PGSIZE + 8 * i'.val ∨
        n' * PGSIZE + 8 * i'.val + 8 ≤ n * PGSIZE + 8 * i.val := by
      have hne : n' ≠ n ∨ i'.val ≠ i.val := by
        rw [Fin.ext_iff] at h
        tauto
      simp only [PGSIZE]
      omega
    rw [nodes, load, putPte, word64_putWord64_ne _ hdis]
    by_cases hn : n' = n
    · subst hn
      rw [put_index_of_ne fun h' => h ⟨rfl, h'⟩]
      rfl
    · rw [put_of_ne hn]
      rfl

lemma nodes_congr {s s' : Kmem} {n : ℕ}
    (h : ∀ a, n * PGSIZE ≤ a → a < n * PGSIZE + PGSIZE → s'.mem a = s.mem a) :
    nodes s' n = nodes s n := by
  funext i
  have hi := i.isLt
  have hw : word64 s'.mem (n * PGSIZE + 8 * i.val) = word64 s.mem (n * PGSIZE + 8 * i.val) := by
    apply word64_congr
    intro a h1 h2
    have hlo : n * PGSIZE ≤ a := le_trans (Nat.le_add_right ..) h1
    have hhi : a < n * PGSIZE + PGSIZE := by
      clear h
      simp only [PGSIZE] at *
      omega
    exact h a hlo hhi
  rw [nodes, nodes, load, load, hw]

lemma nodes_zeroPage (s : Kmem) (n : ℕ) (i : Fin 512) :
    nodes (s.memset (n * PGSIZE) 0) n i = 0 := by
  have hi := i.isLt
  rw [nodes, load, word64_zero]
  · rfl
  · intro a h1 h2
    simp only [Kmem.memset, PGSIZE] at *
    rw [if_pos (by omega)]

lemma nodes_memset_of_ne {s : Kmem} {n n' : ℕ} {c : UInt8} (h : n' ≠ n) :
    nodes (s.memset (n * PGSIZE) c) n' = nodes s n' := by
  refine nodes_congr fun a h1 h2 => ?_
  simp only [Kmem.memset, PGSIZE] at *
  rw [if_neg (by omega)]

/-! ## Well-formed tables -/

/-- The page numbers of the roots. -/
def rootPages (roots : Set ℕ) : Set ℕ := {n | n * PGSIZE ∈ roots}

/-- The page is a page-table page of one of the tables. -/
abbrev Interior (s : Kmem) (roots : Set ℕ) (n : ℕ) : Prop :=
  Radix.Uses next (nodes s) 2 (rootPages roots) n

/-- **Well-formed page tables** with these roots: the page-table pages are distinct, in RAM, and
none of them is on a free list. -/
structure Tables (s : Kmem) (roots : Set ℕ) : Prop where
  ok : s.Ok
  aligned : ∀ r ∈ roots, r % PGSIZE = 0
  tree : Radix.Tree next (nodes s) 2 (rootPages roots)
  below : ∀ n, Interior s roots n → n * PGSIZE < PHYSTOP
  inUse : ∀ n, Interior s roots n → ¬ s.Listed (n * PGSIZE)

/-- The indices on the way to the entry of `va`, the last first. -/
def path (va : ℕ) : List (Fin 512) := [px 1 va, px 2 va]

/-- The entry of `va` in the table with root page `r`. -/
abbrev entry (s : Kmem) (r va : ℕ) : Option (BitVec 64) :=
  get next (nodes s) r (path va) (px 0 va)

/-- The entries of all tables are the same. -/
def Same (roots : Set ℕ) (s s' : Kmem) : Prop :=
  ∀ r ∈ rootPages roots, ∀ p : List (Fin 512), p.length = 2 → ∀ i,
    get next (nodes s') r p i = get next (nodes s) r p i

variable {s s' : Kmem} {roots : Set ℕ} {r root va n q : ℕ} {E : VmPanic → Prop}
  {Q : Unit → Kmem → Prop} {p : List (Fin 512)}

lemma Same.trans {s'' : Kmem} (h : Same roots s s') (h' : Same roots s' s'') :
    Same roots s s'' := fun r hr p hp i => (h' r hr p hp i).trans (h r hr p hp i)

lemma Tables.root_mem (h : Tables s roots) (hr : root ∈ roots) :
    root / PGSIZE ∈ rootPages roots ∧ root / PGSIZE * PGSIZE = root := by
  have hdiv : root / PGSIZE * PGSIZE = root :=
    Nat.div_mul_cancel (Nat.dvd_of_mod_eq_zero (h.aligned root hr))
  exact ⟨by rw [rootPages, Set.mem_ofPred_eq, hdiv]; exact hr, hdiv⟩

/-- Nothing but pages that are no page-table pages has been written. -/
lemma Tables.frame (h : Tables s roots) (hok : s'.Ok)
    (hmem : ∀ n, Interior s roots n → nodes s' n = nodes s n)
    (hlist : ∀ n, Interior s roots n → ¬ s'.Listed (n * PGSIZE)) :
    Tables s' roots ∧ Same roots s s' ∧ ∀ n, Interior s' roots n ↔ Interior s roots n := by
  have hpage : ∀ r ∈ rootPages roots, ∀ p : List (Fin 512), p.length ≤ 2 →
      page next (nodes s') r p = page next (nodes s) r p :=
    fun r hr p hp => page_congr_of_uses hr hp hmem
  have huses := uses_congr hpage
  exact ⟨⟨hok, h.aligned, h.tree.congr hpage, fun n hn => h.below n ((huses n).mp hn),
    fun n hn => hlist n ((huses n).mp hn)⟩, fun r hr p hp i => get_congr hr hp.le hmem, huses⟩

/-! ## Walking -/

lemma wp_kalloc {Q : Option ℕ → Kmem → Prop} : wp kalloc s Q E ↔ Q s.kalloc.1 s.kalloc.2 := by
  simp only [kalloc, wp_bind, wp_get, wp_set, wp_pure]

lemma wp_zeroPage {pa : ℕ} : wp (zeroPage pa) s Q E ↔ Q () (s.memset pa 0) := by
  simp [zeroPage]

lemma wp_store {a : ℕ} {w : BitVec 64} : wp (store a w) s Q E ↔ Q () (putPte s a w) := by
  simp [store]

lemma Tables.link {page : ℕ} {i : Fin 512} (h : Tables s roots)
    (hr : r ∈ rootPages roots) (hp : p.length < 2)
    (hq : Radix.page next (nodes s) r p = some q) (hempty : valid (nodes s q i) = false)
    (hk : s.kalloc = (some page, s')) :
    ∃ f, page = f * PGSIZE ∧
      let t := putPte (s'.memset page 0) (q * PGSIZE + 8 * i.val)
        (pa2pte (BitVec.ofNat 64 page) ||| PTE_V)
      Tables t roots ∧ Same roots s t ∧ Radix.page next (nodes t) r (i :: p) = some f := by
  have htook := Kmem.kalloc_spec h.ok
  have hlisted := Kmem.kalloc_listed s
  simp only [hk] at htook hlisted
  obtain ⟨f, rfl⟩ : ∃ f, page = f * PGSIZE :=
    ⟨page / PGSIZE, (Nat.div_mul_cancel (Nat.dvd_of_mod_eq_zero htook.page.1)).symm⟩
  have hf : ¬ Interior s roots f := fun hu => h.inUse f hu hlisted.1
  have hbelow : f * PGSIZE < PHYSTOP := htook.page.2.2
  have hqf : q ≠ f := fun he => hf (he ▸ ⟨r, hr, p, hp.le, hq⟩)
  have hnone : next (nodes s q i) = none := by rw [next, hempty]; rfl
  have hsame : ∀ n, n ≠ f → nodes (s'.memset (f * PGSIZE) 0) n = nodes s n := by
    intro n hn
    rw [nodes_memset_of_ne hn]
    refine nodes_congr fun a h1 h2 => htook.mem a ?_
    simp only [PGSIZE] at *
    omega
  refine ⟨f, rfl, ?_⟩
  intro t
  have hnodes : nodes t = put (nodes (s'.memset (f * PGSIZE) 0)) q i
      (pa2pte (BitVec.ofNat 64 (f * PGSIZE)) ||| PTE_V) := nodes_store _ _ _ _
  have hl : Radix.Linked next (nodes s) (nodes t) q f i := by
    rw [hnodes]
    refine ⟨?_, fun j => ?_, fun j hj => ?_, fun n hn hnf => ?_⟩
    · rw [put_self, next_pa2pte hbelow]
    · rw [put_of_ne (Ne.symm hqf), nodes_zeroPage]
      rfl
    · rw [put_index_of_ne hj, hsame q hqf]
    · rw [put_of_ne hn, hsame n hnf]
  have hnl : ¬ s'.Listed (f * PGSIZE) := by
    intro hx
    have h0 := (htook.ok.listed _ hx).2.1
    rw [htook.count] at h0
    cases h0
  refine ⟨⟨?_, h.aligned, h.tree.link hr hp hq hnone hf hl, fun n hn => ?_, fun n hn => ?_⟩,
    fun r' hr' p' hp' i' => h.tree.get_link hr hp hq hnone hf hl hr' hp', ?_⟩
  · exact ⟨htook.ok.kend_ge, htook.ok.listed⟩
  · rcases h.tree.uses_link hr hp hq hnone hf hl hn with rfl | hn
    · exact hbelow
    · exact h.below n hn
  · rcases h.tree.uses_link hr hp hq hnone hf hl hn with rfl | hn
    · exact hnl
    · exact fun hx => h.inUse n hn (hlisted.2 _ hx)
  · rw [h.tree.page_link hr hp hq hnone hf hl hr (by simpa using hp), if_pos ⟨rfl, rfl⟩]

/-- What a round of `walk` does: it leaves the entries alone, and returns the next page-table
page. -/
lemma walkLevel_spec (va level : ℕ) (alloc : Bool) (h : Tables s roots)
    (hr : r ∈ rootPages roots) (hp : p.length < 2) (hq : page next (nodes s) r p = some q) :
    wp (walkLevel (q * PGSIZE) va level alloc) s (fun o t => Tables t roots ∧ Same roots s t ∧
      (alloc = false → t = s) ∧
      match o with
      | some a => ∃ f, a = f * PGSIZE ∧ page next (nodes t) r (px level va :: p) = some f
      | none => alloc = false → page next (nodes t) r (px level va :: p) = none) E := by
  have hsame : Same roots s s := fun _ _ _ _ _ => rfl
  have hpage : page next (nodes s) r (px level va :: p) = next (nodes s q (px level va)) := by
    rw [page, hq]
    rfl
  rw [walkLevel, wp_bind, wp_get]
  show wp (if valid (nodes s q (px level va)) then _ else _) s _ E
  rw [wp_ite, wp_ite, wp_pure, wp_pure]
  refine ⟨fun hv => ⟨h, hsame, fun _ => rfl, ppn (nodes s q (px level va)), ?_, ?_⟩,
    fun hv => ⟨fun ha => ?_, fun ha => ⟨h, hsame, fun _ => rfl, fun _ => ?_⟩⟩⟩
  · exact (ppn_mul _).symm
  · rw [hpage, next, if_pos hv]
  · rw [wp_bind, wp_kalloc]
    rcases hk : s.kalloc with ⟨_ | page, s'⟩
    · have hno := Kmem.kalloc_spec h.ok
      have hlisted := Kmem.kalloc_listed s
      simp only [hk] at hno hlisted
      have hfr := h.frame hno.ok (fun n _ => nodes_congr fun a _ _ => congrFun hno.mem a)
        fun n hn hx => h.inUse n hn (hlisted _ hx)
      rw [wp_pure]
      exact ⟨hfr.1, hfr.2.1, fun ha' => absurd (ha.symm.trans ha') (by decide),
        fun ha' => absurd (ha.symm.trans ha') (by decide)⟩
    · obtain ⟨f, rfl, hT, hS, hP⟩ := h.link (i := px level va) hr hp hq
        (Bool.eq_false_of_not_eq_true hv) hk
      simp only [wp_bind, wp_zeroPage, wp_store, wp_pure]
      exact ⟨hT, hS, fun ha' => absurd (ha.symm.trans ha') (by decide), f, rfl, hP⟩
  · rw [hpage, next, if_neg hv]

lemma walk_spec (va : ℕ) (alloc : Bool) (h : Tables s roots) (hr : root ∈ roots) :
    wp (walk root va alloc) s (fun o t => va < MAXVA ∧ Tables t roots ∧ Same roots s t ∧
      (alloc = false → t = s) ∧
      match o with
      | some a => ∃ f, a = f * PGSIZE + 8 * (px 0 va).val ∧
          page next (nodes t) (root / PGSIZE) (path va) = some f
      | none => alloc = false → page next (nodes t) (root / PGSIZE) (path va) = none)
      fun _ => MAXVA ≤ va := by
  obtain ⟨hmem, hmul⟩ := h.root_mem hr
  rw [walk, wp_ite]
  refine ⟨fun hva => ?_, fun hva => ?_⟩
  · rw [wp_throw]
    exact hva
  have hva' : va < MAXVA := not_le.mp hva
  rw [wp_bind]
  have h1 := walkLevel_spec va 2 alloc (E := fun _ => MAXVA ≤ va) (p := []) h hmem (by simp) rfl
  rw [hmul] at h1
  refine h1.post ?_
  rintro (_ | mid) t ⟨hT, hS, heq, ho⟩
  · refine wp_pure.mpr ⟨hva', hT, hS, heq, fun ha => ?_⟩
    rw [path, page, ho ha]
    rfl
  · obtain ⟨f, rfl, hf⟩ := ho
    refine (walkLevel_spec va 1 alloc hT hmem (by simp) hf).bind ?_
    rintro (_ | low) t' ⟨hT', hS', heq', ho'⟩
    · refine wp_pure.mpr ⟨hva', hT', hS.trans hS', fun ha => ?_, ho'⟩
      rw [heq' ha, heq ha]
    · obtain ⟨f', rfl, hf'⟩ := ho'
      refine wp_pure.mpr ⟨hva', hT', hS.trans hS', fun ha => ?_, f', rfl, hf'⟩
      rw [heq' ha, heq ha]

end Xv6.Sv39
