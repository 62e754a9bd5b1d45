import Xv6.Lib.SortedCycle
import Xv6.Lib.Steps

/-!
# The user heap

`malloc`, `free` and `morecore` of `umalloc.c`. Addresses are numbers of bytes, so blocks that
`sbrk` has given may start anywhere; sizes are in units of `sizeof(Header)` and are added as `uint`.
The memory of the allocator is the headers. A block is the memory from its header on.

The free list is a `SortedCycle` through `base`. `Inv` says besides that the free blocks and the
live blocks divide the memory that `morecore` has got. The allocator changes the heap in three ways
that keep it: a block becomes a node (`Inv.link`), two neighbours become one (`Inv.merge`), and a
block or the end of it is taken (`Inv.take`). The loops of `free` and `malloc` walk along the cycle,
so they end by `SortedCycle.reach`.
-/

namespace Xv6.Umalloc

open Option Finset

/-- `sizeof(Header)`. -/
abbrev HSIZE : ℕ := 16

/-- `Header`; `size` counts units of its own size. -/
structure Header where
  ptr : ℕ
  size : ℕ

/-- The headers, `freep`, and the memory that `sbrk` has given: the regions, and where they end. -/
structure Heap where
  mem : ℕ → Header
  freep : ℕ
  got : List (ℕ × ℕ)
  top : ℕ

namespace Heap

def next (h : Heap) (a : ℕ) : ℕ := (h.mem a).ptr

def size (h : Heap) (a : ℕ) : ℕ := (h.mem a).size

/-- `a + a->s.size`. -/
def fin (h : Heap) (a : ℕ) : ℕ := a + HSIZE * h.size a

def setPtr (h : Heap) (a q : ℕ) : Heap :=
  { h with mem := Function.update h.mem a { h.mem a with ptr := q } }

def setSize (h : Heap) (a n : ℕ) : Heap :=
  { h with mem := Function.update h.mem a { h.mem a with size := n } }

variable {h : Heap} {a c q n : ℕ} {got : List (ℕ × ℕ)} {freep top : ℕ}

@[simp] lemma next_setPtr : (h.setPtr a q).next c = if c = a then q else h.next c := by
  by_cases hc : c = a <;> simp [next, setPtr, hc]

@[simp] lemma size_setPtr : (h.setPtr a q).size c = h.size c := by
  by_cases hc : c = a <;> simp [size, setPtr, hc]

@[simp] lemma next_setSize : (h.setSize a n).next c = h.next c := by
  by_cases hc : c = a <;> simp [next, setSize, hc]

@[simp] lemma size_setSize : (h.setSize a n).size c = if c = a then n else h.size c := by
  by_cases hc : c = a <;> simp [size, setSize, hc]

@[simp] lemma next_with : Heap.next ⟨h.mem, freep, got, top⟩ a = h.next a := rfl

@[simp] lemma size_with : Heap.size ⟨h.mem, freep, got, top⟩ a = h.size a := rfl

end Heap

open Heap

/-- Where the model stops. -/
inductive HeapError where
  | fuel
  | sbrkAgain
  deriving DecidableEq

/-! ## `free` -/

/-- The loop of `free`. -/
def findSlot (h : Heap) (bp : ℕ) : ℕ → ℕ → Option ℕ
  | 0, _ => none
  | fuel + 1, p =>
    if p < bp ∧ bp < h.next p then some p
    else if h.next p ≤ p ∧ (p < bp ∨ bp < h.next p) then some p
    else findSlot h bp fuel (h.next p)

/-- `bp` before `p->s.ptr`, or merged with it. -/
def linkNext (bp p : ℕ) (h : Heap) : Heap :=
  if h.fin bp = h.next p then
    (h.setSize bp ((h.size bp + h.size (h.next p)) % 2 ^ 32)).setPtr bp (h.next (h.next p))
  else h.setPtr bp (h.next p)

/-- `bp` behind `p`, or merged with it. -/
def linkPrev (bp p : ℕ) (h : Heap) : Heap :=
  if h.fin p = bp then (h.setSize p ((h.size p + h.size bp) % 2 ^ 32)).setPtr p (h.next bp)
  else h.setPtr p bp

/-- Without a result, the fuel is used up. -/
def free (fuel : ℕ) (h : Heap) (ap : ℕ) : Option Heap :=
  (findSlot h (ap - HSIZE) fuel h.freep).map fun p =>
    { linkPrev (ap - HSIZE) p (linkNext (ap - HSIZE) p h) with freep := p }

/-! ## `malloc` -/

/-- The units that `morecore` asks for. -/
def coreUnits (nu : ℕ) : ℕ := if nu < 4096 then 4096 else nu

/-- `sbrk` is what the system call returns. -/
def morecore (fuel : ℕ) (h : Heap) (nu : ℕ) (sbrk : Option ℕ) : Except HeapError (Heap × ℕ) :=
  match sbrk with
  | none => .ok (h, 0)
  | some p =>
    match free fuel { h.setSize p (coreUnits nu) with
        got := (p, coreUnits nu) :: h.got, top := p + HSIZE * coreUnits nu } (p + HSIZE) with
    | some h => .ok (h, h.freep)
    | none => .error .fuel

/-- All of `p`, or the end of it. -/
def take (h : Heap) (nunits prevp p : ℕ) : Heap × ℕ :=
  if h.size p = nunits then ({ h.setPtr prevp (h.next p) with freep := prevp }, p + HSIZE)
  else
    let q := p + HSIZE * (h.size p - nunits)
    ({ (h.setSize p (h.size p - nunits)).setSize q nunits with freep := prevp }, q + HSIZE)

/-- In a call of `malloc`, `sbrk` is there until it has been called. -/
def refill (fuel : ℕ) (h : Heap) (nu : ℕ) : Option (Option ℕ) → Except HeapError (Heap × ℕ)
  | none => .error .sbrkAgain
  | some sbrk => morecore fuel h nu sbrk

/-- The loop of `malloc`. -/
def mallocLoop (nunits : ℕ) : ℕ → Option (Option ℕ) → Heap → ℕ → ℕ → Except HeapError (Heap × ℕ)
  | 0, _, _, _, _ => .error .fuel
  | fuel + 1, sbrk, h, prevp, p =>
    if nunits ≤ h.size p then .ok (take h nunits prevp p)
    else if p = h.freep then
      refill fuel h nunits sbrk >>= fun r =>
        if r.2 = 0 then .ok (r.1, 0) else mallocLoop nunits fuel none r.1 r.2 (r.1.next r.2)
    else mallocLoop nunits fuel sbrk h p (h.next p)

def nunits (nbytes : ℕ) : ℕ := (nbytes + HSIZE - 1) / HSIZE + 1

/-- The list with `base` alone. -/
def start (base : ℕ) (h : Heap) : Heap :=
  if h.freep = 0 then { (h.setPtr base base).setSize base 0 with freep := base } else h

def malloc (base fuel : ℕ) (h : Heap) (nbytes : ℕ) (sbrk : Option ℕ) :
    Except HeapError (Heap × ℕ) :=
  let h := start base h
  mallocLoop (nunits nbytes) fuel (some sbrk) h h.freep (h.next h.freep)

/-! ## More fuel -/

variable {h h' : Heap} {bp p q a b x fuel fuel' n prevp base : ℕ} {r : Option ℕ} {res : Heap × ℕ}

lemma findSlot_mono (hle : fuel ≤ fuel') (h1 : findSlot h bp fuel p = some q) :
    findSlot h bp fuel' p = some q := by
  induction fuel generalizing fuel' p with
  | zero => cases h1
  | succ fuel ih =>
    obtain ⟨f, rfl⟩ : ∃ f, fuel' = f + 1 := ⟨fuel' - 1, by omega⟩
    rw [findSlot] at h1 ⊢
    split_ifs at h1 ⊢
    · exact h1
    · exact h1
    · exact ih (by omega) h1

lemma free_mono (hle : fuel ≤ fuel') (h1 : free fuel h a = some h') : free fuel' h a = some h' := by
  obtain ⟨p, hp, rfl⟩ := map_eq_some_iff.mp h1
  rw [free, findSlot_mono hle hp]
  rfl

lemma morecore_mono (hle : fuel ≤ fuel') (h1 : morecore fuel h n r = .ok res) :
    morecore fuel' h n r = .ok res := by
  cases r with
  | none => exact h1
  | some p =>
    simp only [morecore] at h1 ⊢
    split at h1
    · next hfree =>
      rw [free_mono hle hfree]
      exact h1
    · cases h1

lemma mallocLoop_mono {sbrk : Option (Option ℕ)} (hle : fuel ≤ fuel')
    (h1 : mallocLoop n fuel sbrk h prevp p = .ok res) :
    mallocLoop n fuel' sbrk h prevp p = .ok res := by
  induction fuel generalizing fuel' sbrk h prevp p with
  | zero => cases h1
  | succ fuel ih =>
    obtain ⟨f, rfl⟩ : ∃ f, fuel' = f + 1 := ⟨fuel' - 1, by omega⟩
    rw [mallocLoop] at h1 ⊢
    split_ifs at h1 ⊢ with hsize hfreep
    · exact h1
    · cases hmore : refill fuel h n sbrk with
      | error e =>
        rw [hmore] at h1
        cases h1
      | ok res' =>
        have hmore' : refill f h n sbrk = .ok res' := by
          cases sbrk with
          | none => cases hmore
          | some r => exact morecore_mono (by omega) hmore
        rw [hmore] at h1
        rw [hmore']
        change (if _ then _ else _) = _ at h1
        show (if _ then _ else _) = _
        split_ifs at h1 ⊢
        · exact h1
        · exact ih (by omega) h1
    · exact ih (by omega) h1

/-! ## The invariant -/

/-- A block: a node other than `base`, or a live one. -/
def Block (base : ℕ) (F L : Finset ℕ) (a : ℕ) : Prop := (a ∈ F ∧ a ≠ base) ∨ a ∈ L

/-- **The heap with the nodes `F` of the free list and the live blocks `L`.** -/
structure Inv (base : ℕ) (h : Heap) (F L : Finset ℕ) : Prop where
  cycle : SortedCycle F h.next
  base_mem : base ∈ F
  base_pos : 0 < base
  base_size : h.size base = 0
  freep : h.freep ∈ F
  pos : ∀ a, Block base F L a → 0 < h.size a
  lo : ∀ a, Block base F L a → base + HSIZE ≤ a
  hi : ∀ a, Block base F L a → h.fin a ≤ h.top
  sep : ∀ a b, Block base F L a → Block base F L b → a < b → h.fin a ≤ b
  cover : ∀ x, (∃ r ∈ h.got, r.1 ≤ x ∧ x < r.1 + HSIZE * r.2) ↔
    ∃ a, Block base F L a ∧ a ≤ x ∧ x < h.fin a
  disj : ∀ a ∈ L, a ∉ F
  above : base + HSIZE ≤ h.top
  limit : h.top ≤ 2 ^ 36

/-- No two free blocks touch. -/
def Apart (base : ℕ) (h : Heap) (F : Finset ℕ) : Prop := ∀ a ∈ F, a ≠ base → h.fin a ∉ F

variable {F L : Finset ℕ}

section

variable (hi : Inv base h F L)
include hi

lemma Inv.congr (hnext : ∀ a ∈ F, h'.next a = h.next a)
    (hsize : ∀ a, a = base ∨ Block base F L a → h'.size a = h.size a) (hfreep : h'.freep ∈ F)
    (hgot : h'.got = h.got) (htop : h'.top = h.top) : Inv base h' F L := by
  have hfin : ∀ a, Block base F L a → h'.fin a = h.fin a := fun a ha => by
    rw [fin, fin, hsize a (.inr ha)]
  refine ⟨hi.cycle.congr hnext, hi.base_mem, hi.base_pos, ?_, hfreep, fun a ha => ?_, hi.lo,
    fun a ha => ?_, fun a b ha hb hab => ?_, fun x => ?_, hi.disj, by rw [htop]; exact hi.above,
    by rw [htop]; exact hi.limit⟩
  · rw [hsize base (.inl rfl)]
    exact hi.base_size
  · rw [hsize a (.inr ha)]
    exact hi.pos a ha
  · rw [hfin a ha, htop]
    exact hi.hi a ha
  · rw [hfin a ha]
    exact hi.sep a b ha hb hab
  · rw [hgot, hi.cover x]
    refine exists_congr fun a => and_congr_right fun ha => ?_
    rw [hfin a ha]

lemma Inv.base_le (ha : a ∈ F) : a = base ∨ base + HSIZE ≤ a := by
  by_cases hab : a = base
  · exact .inl hab
  · exact .inr (hi.lo a (.inl ⟨ha, hab⟩))

lemma Inv.lt_fin (ha : Block base F L a) : a + HSIZE ≤ h.fin a := by
  have := hi.pos a ha
  rw [fin]
  simp only [HSIZE]
  omega

lemma Inv.link (hbp : bp ∈ L) (hp : p ∈ F) (hlt : p < bp)
    (hq : bp < h.next p ∨ h.next p ≤ p) (hnp : h'.next p = bp) (hnb : h'.next bp = h.next p)
    (hnext : ∀ a ∈ F, a ≠ p → h'.next a = h.next a) (hsize : ∀ a, h'.size a = h.size a)
    (hfreep : h'.freep ∈ F) (hgot : h'.got = h.got) (htop : h'.top = h.top) :
    Inv base h' (insert bp F) (L.erase bp) := by
  have hbase : bp ≠ base := by
    have := hi.lo bp (.inr hbp)
    simp only [HSIZE] at this
    omega
  have hblock : ∀ a, Block base (insert bp F) (L.erase bp) a ↔ Block base F L a := fun a => by
    simp only [Block, mem_insert, mem_erase]
    constructor
    · rintro (⟨rfl | ha, hne⟩ | ⟨-, ha⟩)
      · exact .inr hbp
      · exact .inl ⟨ha, hne⟩
      · exact .inr ha
    · rintro (⟨ha, hne⟩ | ha)
      · exact .inl ⟨.inr ha, hne⟩
      · by_cases hab : a = bp
        · exact .inl ⟨.inl hab, hab ▸ hbase⟩
        · exact .inr ⟨hab, ha⟩
  have hfin : ∀ a, h'.fin a = h.fin a := fun a => by rw [fin, fin, hsize]
  refine ⟨hi.cycle.insert hp hlt hq hnp hnb hnext, mem_insert_of_mem hi.base_mem, hi.base_pos,
    by rw [hsize]; exact hi.base_size, mem_insert_of_mem hfreep, fun a ha => ?_, fun a ha => ?_,
    fun a ha => ?_, fun a b ha hb => ?_, fun x => ?_, fun a ha hF => ?_,
      by rw [htop]; exact hi.above,
    by rw [htop]; exact hi.limit⟩
  · rw [hsize]
    exact hi.pos a ((hblock a).mp ha)
  · exact hi.lo a ((hblock a).mp ha)
  · rw [hfin, htop]
    exact hi.hi a ((hblock a).mp ha)
  · rw [hfin]
    exact hi.sep a b ((hblock a).mp ha) ((hblock b).mp hb)
  · rw [hgot, hi.cover x]
    simp only [hblock, hfin]
  · obtain ⟨hne, haL⟩ := mem_erase.mp ha
    exact hi.disj a haL ((mem_insert.mp hF).resolve_left hne)

lemma Inv.merge (ha : a ∈ F) (hab : a ≠ base) (hb : h.next a = b)
    (htouch : h.fin a = b) (hfree : h.freep ≠ b) (hna : h'.next a = h.next b)
    (hsa : h'.size a = (h.size a + h.size b) % 2 ^ 32)
    (hnext : ∀ c, c ≠ a → h'.next c = h.next c) (hsize : ∀ c, c ≠ a → h'.size c = h.size c)
    (hfreep : h'.freep = h.freep) (hgot : h'.got = h.got) (htop : h'.top = h.top) :
    Inv base h' (F.erase b) L ∧ h'.fin a = h.fin b := by
  have haB : Block base F L a := .inl ⟨ha, hab⟩
  have hlt : a < b := by
    have := hi.lt_fin haB
    simp only [HSIZE] at this
    omega
  have hbF : b ∈ F := hb ▸ hi.cycle.mem ha
  have hbb : b ≠ base := by
    have := hi.lo a haB
    simp only [HSIZE] at this
    omega
  have hbB : Block base F L b := .inl ⟨hbF, hbb⟩
  have hsum : h'.size a = h.size a + h.size b := by
    rw [hsa]
    refine Nat.mod_eq_of_lt ?_
    have h1 := hi.hi b hbB
    have h2 := hi.limit
    have h3 := hi.base_pos
    have h4 := hi.lo a haB
    simp only [fin, HSIZE] at h1 h4 htouch
    omega
  have hfina : h'.fin a = h.fin b := by
    rw [fin, hsum, fin, ← htouch, fin]
    ring
  have hfin : ∀ c, c ≠ a → h'.fin c = h.fin c := fun c hc => by rw [fin, fin, hsize c hc]
  have hblock : ∀ c, Block base (F.erase b) L c ↔ Block base F L c ∧ c ≠ b := fun c => by
    simp only [Block, mem_erase]
    constructor
    · rintro (⟨⟨hcb, hc⟩, hne⟩ | hc)
      · exact ⟨.inl ⟨hc, hne⟩, hcb⟩
      · exact ⟨.inr hc, fun he => hi.disj c hc (he ▸ hbF)⟩
    · rintro ⟨⟨hc, hne⟩ | hc, hcb⟩
      · exact .inl ⟨⟨hcb, hc⟩, hne⟩
      · exact .inr hc
  refine ⟨⟨hi.cycle.erase ha hb hlt.ne hna fun c _ hca _ => hnext c hca,
    mem_erase.mpr ⟨hbb.symm, hi.base_mem⟩, hi.base_pos, ?_,
    mem_erase.mpr ⟨by rwa [hfreep], by rw [hfreep]; exact hi.freep⟩, fun c hc => ?_,
    fun c hc => hi.lo c ((hblock c).mp hc).1, fun c hc => ?_, fun c d hc hd hcd => ?_, fun x => ?_,
    fun c hc hF => hi.disj c hc (mem_erase.mp hF).2, by rw [htop]; exact hi.above,
    by rw [htop]; exact hi.limit⟩, hfina⟩
  · rw [hsize base hab.symm]
    exact hi.base_size
  · by_cases hca : c = a
    · have := hi.pos a haB
      rw [hca, hsum]
      omega
    · rw [hsize c hca]
      exact hi.pos c ((hblock c).mp hc).1
  · by_cases hca : c = a
    · rw [hca, hfina, htop]
      exact hi.hi b hbB
    · rw [hfin c hca, htop]
      exact hi.hi c ((hblock c).mp hc).1
  · obtain ⟨hcB, hcb⟩ := (hblock c).mp hc
    obtain ⟨hdB, hdb⟩ := (hblock d).mp hd
    by_cases hca : c = a
    · -- no block is between the two
      subst hca
      rw [hfina]
      have hle := hi.sep c d hcB hdB hcd
      rw [htouch] at hle
      exact hi.sep b d hbB hdB (lt_of_le_of_ne hle (Ne.symm hdb))
    · rw [hfin c hca]
      exact hi.sep c d hcB hdB hcd
  · rw [hgot, hi.cover x]
    constructor
    · rintro ⟨c, hcB, h1, h2⟩
      by_cases hcb : c = b
      · subst hcb
        exact ⟨a, (hblock a).mpr ⟨haB, hlt.ne⟩, by omega, by rw [hfina]; exact h2⟩
      · by_cases hca : c = a
        · subst hca
          have := hi.lt_fin hbB
          exact ⟨c, (hblock c).mpr ⟨hcB, hcb⟩, h1, by rw [hfina]; simp only [HSIZE] at this; omega⟩
        · exact ⟨c, (hblock c).mpr ⟨hcB, hcb⟩, h1, by rw [hfin c hca]; exact h2⟩
    · rintro ⟨c, hc, h1, h2⟩
      obtain ⟨hcB, hcb⟩ := (hblock c).mp hc
      by_cases hca : c = a
      · subst hca
        rw [hfina] at h2
        rcases Nat.lt_or_ge x b with hxb | hxb
        · exact ⟨c, hcB, h1, by rw [htouch]; exact hxb⟩
        · exact ⟨b, hbB, hxb, h2⟩
      · rw [hfin c hca] at h2
        exact ⟨c, hcB, h1, h2⟩

/-! ## `free` keeps it -/

/-- **The loop of `free`** ends at the node before the block. -/
lemma findSlot_spec (hbp : bp ∈ L) : ∃ fuel p,
    findSlot h bp fuel h.freep = some p ∧ p ∈ F ∧ p < bp ∧ (bp < h.next p ∨ h.next p ≤ p) := by
  have hlo := hi.lo bp (.inr hbp)
  simp only [HSIZE] at hlo
  have hbpF := hi.disj bp hbp
  obtain ⟨p, hp, hmax⟩ := (F.filter (· < bp)).exists_max_image id
    ⟨base, mem_filter.mpr ⟨hi.base_mem, by omega⟩⟩
  obtain ⟨hpF, hlt⟩ := mem_filter.mp hp
  have hmax' : ∀ c ∈ F, c < bp → c ≤ p := fun c hc hcb => hmax c (mem_filter.mpr ⟨hc, hcb⟩)
  have hbetween : bp < h.next p ∨ h.next p ≤ p := by
    rcases Nat.lt_or_ge p (h.next p) with hgt | hle
    · left
      have hmem := hi.cycle.mem hpF
      have hne : h.next p ≠ bp := fun he => hbpF (he ▸ hmem)
      by_contra hnot
      have := hmax' _ hmem (by omega)
      omega
    · exact .inr hle
  suffices hreach : ∃ fuel, findSlot h bp fuel h.freep = some p by
    obtain ⟨fuel, hfuel⟩ := hreach
    exact ⟨fuel, p, hfuel, hpF, hlt, hbetween⟩
  refine hi.cycle.reach (P := fun a => ∃ fuel, findSlot h bp fuel a = some p) hpF ⟨1, ?_⟩
    (fun a ha hne hrec => ?_) hi.freep
  · rw [findSlot]
    rcases hbetween with hb | hb
    · rw [if_pos ⟨hlt, hb⟩]
    · rw [if_neg (by omega), if_pos ⟨hb, .inl hlt⟩]
  · obtain ⟨fuel, hfuel⟩ := hrec
    refine ⟨fuel + 1, ?_⟩
    -- a node other than `p` has `p` between itself and the block
    have h1 : ¬ (a < bp ∧ bp < h.next a) := fun ⟨hab, hba⟩ => by
      have hle := hmax' a ha hab
      have := (hi.cycle.next_le ha hpF (lt_of_le_of_ne hle hne)).2
      omega
    have h2 : ¬ (h.next a ≤ a ∧ (a < bp ∨ bp < h.next a)) := by
      rintro ⟨hwrap, hor⟩
      rcases (hi.cycle a ha).2 with ⟨hgt, -⟩ | ⟨hall, hmin⟩
      · omega
      · rcases hor with hab | hba
        · have := hmax' a ha hab
          have := hall p hpF
          omega
        · have := hmin base hi.base_mem
          omega
    rw [findSlot, if_neg h1, if_neg h2]
    exact hfuel

end

lemma touch_merge {X : ℕ → Prop} (hab : a ≠ b) (hX : ¬ X b)
    (htouch : ∀ c ∈ F, c ≠ base → h.fin c ∈ F → c = a ∨ X c) (hb : b ∈ F) (hbb : b ≠ base)
    (hfina : h'.fin a = h.fin b) (hfin : ∀ c, c ≠ a → h'.fin c = h.fin c) :
    ∀ c ∈ F.erase b, c ≠ base → h'.fin c ∈ F.erase b → X c := by
  intro c hc hcb hmem
  obtain ⟨hne, hcF⟩ := mem_erase.mp hc
  have hmemF := (mem_erase.mp hmem).2
  by_cases hca : c = a
  · rw [hca, hfina] at hmemF
    rcases htouch b hb hbb hmemF with he | hXb
    · exact absurd he.symm hab
    · exact absurd hXb hX
  · rw [hfin c hca] at hmemF
    exact (htouch c hcF hcb hmemF).resolve_left hca

lemma touch_link (hi : Inv base h F L) (hap : Apart base h F) (hbp : bp ∈ L) (hp : p ∈ F)
    (hlt : p < bp) (hq : bp < h.next p ∨ h.next p ≤ p) :
    ∀ c ∈ insert bp F, c ≠ base → h.fin c ∈ insert bp F →
      (c = bp ∧ h.fin bp = h.next p) ∨ (c = p ∧ h.fin p = bp) := by
  have hbpB : Block base F L bp := .inr hbp
  have hlo := hi.lo bp hbpB
  have hself := hi.lt_fin hbpB
  simp only [HSIZE] at hlo hself
  intro c hc hcb hmem
  rcases mem_insert.mp hc with rfl | hcF
  · left
    have hF : h.fin c ∈ F := (mem_insert.mp hmem).resolve_left (by omega)
    refine ⟨rfl, ?_⟩
    have hn := hi.cycle.next_le hp hF (by omega)
    -- the next node is not inside of the block
    by_contra hne
    have hqB : Block base F L (h.next p) := .inl ⟨hi.cycle.mem hp, by
      rcases hi.base_le hp with he | hle
      · omega
      · simp only [HSIZE] at hle
        omega⟩
    have hcq : c < h.next p := hq.resolve_right (by omega)
    have := hi.sep c _ hbpB hqB hcq
    omega
  · right
    have hcB : Block base F L c := .inl ⟨hcF, hcb⟩
    have hcfin := hi.lt_fin hcB
    simp only [HSIZE] at hcfin
    rcases mem_insert.mp hmem with heq | hF
    · have hcp : c = p := by
        rcases lt_trichotomy c p with hcp | hcp | hcp
        · have hpB : Block base F L p := .inl ⟨hp, by
            have := hi.lo c hcB
            simp only [HSIZE] at this
            omega⟩
          have := hi.sep c p hcB hpB hcp
          omega
        · exact hcp
        · have hn := hi.cycle.next_le hp hcF hcp
          omega
      exact ⟨hcp, hcp ▸ heq⟩
    · exact absurd hF (hap c hcF hcb)

lemma linkNext_got (bp p : ℕ) (h : Heap) :
    (linkNext bp p h).got = h.got ∧ (linkNext bp p h).top = h.top := by
  rw [linkNext]
  split_ifs <;> exact ⟨rfl, rfl⟩

lemma linkPrev_got (bp p : ℕ) (h : Heap) :
    (linkPrev bp p h).got = h.got ∧ (linkPrev bp p h).top = h.top := by
  rw [linkPrev]
  split_ifs <;> exact ⟨rfl, rfl⟩

section

variable (hi : Inv base h F L) (hap : Apart base h F) (hbp : bp ∈ L)
include hi hap hbp

section

variable (hp : p ∈ F) (hlt : p < bp) (hq : bp < h.next p ∨ h.next p ≤ p)
include hp hlt hq

/-- The block as a node behind `p`, merged with the next one if they touch. -/
lemma linkNext_spec (hh' : h' = { (linkNext bp p h).setPtr p bp with freep := p }) :
    ∃ F', Inv base h' F' (L.erase bp) ∧ p ∈ F' ∧ bp ∈ F' ∧
      (∀ c ∈ F', c ≠ base → h'.fin c ∈ F' → c = p ∧ h.fin p = bp) ∧
      (∀ c, c ≠ bp → h'.size c = h.size c) ∧ h.size bp ≤ h'.size bp := by
  have hbpF := hi.disj bp hbp
  have hpb : p ≠ bp := hlt.ne
  have hbpB : Block base F L bp := .inr hbp
  have hself := hi.lt_fin hbpB
  have hlo := hi.lo bp hbpB
  simp only [HSIZE] at hself hlo
  have htouch := touch_link hi hap hbp hp hlt hq
  have hqF : h.next p ∈ F := hi.cycle.mem hp
  have hqb : h.next p ≠ bp := fun he => hbpF (he ▸ hqF)
  have hgot : h'.got = h.got := by rw [hh']; exact (linkNext_got bp p h).1
  have htop : h'.top = h.top := by rw [hh']; exact (linkNext_got bp p h).2
  by_cases hN : h.fin bp = h.next p
  · have hqp : h.next p ≠ p := by omega
    have hqbase : h.next p ≠ base := by omega
    have hn' : ∀ c, h'.next c =
        if c = p then bp else if c = bp then h.next (h.next p) else h.next c := fun c => by
      simp [hh', linkNext, hN]
    have hs' : ∀ c, h'.size c =
        if c = bp then (h.size bp + h.size (h.next p)) % 2 ^ 32 else h.size c := fun c => by
      simp [hh', linkNext, hN]
    -- the block as a node of its own
    set h1 : Heap := { (h.setPtr bp (h.next p)).setPtr p bp with freep := p } with hh1
    have hn1 : ∀ c, h1.next c = if c = p then bp else if c = bp then h.next p else h.next c :=
      fun c => by simp [hh1]
    have hs1 : ∀ c, h1.size c = h.size c := fun c => by simp [hh1]
    have hf1 : ∀ c, h1.fin c = h.fin c := fun c => by rw [fin, fin, hs1]
    have hi1 : Inv base h1 (insert bp F) (L.erase bp) := by
      refine hi.link hbp hp hlt hq ?_ ?_ (fun a ha hap => ?_) hs1 hp rfl rfl
      · rw [hn1, if_pos rfl]
      · rw [hn1, if_neg hpb.symm, if_pos rfl]
      · rw [hn1, if_neg hap, if_neg fun he : a = bp => hbpF (he ▸ ha)]
    obtain ⟨hi2, hfin2⟩ := hi1.merge (mem_insert_self ..)
      (by omega) (by rw [hn1, if_neg hpb.symm, if_pos rfl]) (by rw [hf1, hN]) hqp.symm
      (by rw [hn', if_neg hpb.symm, if_pos rfl, hn1, if_neg hqp, if_neg hqb])
      (by rw [hs', if_pos rfl, hs1, hs1]) (fun c hc => by rw [hn', hn1, if_neg hc, if_neg hc])
      (fun c hc => by rw [hs', if_neg hc, hs1]) (by rw [hh']) hgot htop
    have hfin : ∀ c, c ≠ bp → h'.fin c = h1.fin c := fun c hc => by
      rw [fin, fin, hs', if_neg hc, hs1]
    refine ⟨_, hi2, mem_erase.mpr ⟨hqp.symm, mem_insert_of_mem hp⟩,
      mem_erase.mpr ⟨hqb.symm, mem_insert_self ..⟩, ?_,
      fun c hc => by rw [hs', if_neg hc], ?_⟩
    · refine touch_merge hqb.symm (fun hX => hqp hX.1)
        (fun c hc hcb hmem => ?_) (mem_insert_of_mem hqF) hqbase hfin2 hfin
      rw [hf1] at hmem
      exact (htouch c hc hcb hmem).imp_left And.left
    · have h1 := hfin2
      have h2 := hi.lt_fin (.inl ⟨hqF, hqbase⟩)
      rw [hf1] at h1
      simp only [fin, HSIZE] at h1 h2 hN
      omega
  · have hn' : ∀ c, h'.next c = if c = p then bp else if c = bp then h.next p else h.next c :=
      fun c => by simp [hh', linkNext, hN]
    have hs' : ∀ c, h'.size c = h.size c := fun c => by simp [hh', linkNext, hN]
    have hf' : ∀ c, h'.fin c = h.fin c := fun c => by rw [fin, fin, hs']
    refine ⟨insert bp F, ?_, mem_insert_of_mem hp, mem_insert_self .., fun c hc hcb hmem => ?_,
      fun c _ => hs' c, (hs' bp).ge⟩
    · refine hi.link hbp hp hlt hq ?_ ?_ (fun a ha hap => ?_) hs' (by rw [hh']; exact hp) hgot htop
      · rw [hn', if_pos rfl]
      · rw [hn', if_neg hpb.symm, if_pos rfl]
      · rw [hn', if_neg hap, if_neg fun he : a = bp => hbpF (he ▸ ha)]
    · rw [hf'] at hmem
      exact (htouch c hc hcb hmem).resolve_left fun hx => hN hx.2

/-- **Linking a block** keeps the invariant; some node is at least as large as the block. -/
lemma link_spec (hh' : h' = { linkPrev bp p (linkNext bp p h) with freep := p }) :
    ∃ F', Inv base h' F' (L.erase bp) ∧ Apart base h' F' ∧
      (∀ c ∈ L.erase bp, h'.size c = h.size c) ∧ ∃ z ∈ F', h.size bp ≤ h'.size z := by
  have hpb : p ≠ bp := hlt.ne
  set h2 : Heap := { (linkNext bp p h).setPtr p bp with freep := p } with hh2
  obtain ⟨F2, hi2, hp2, hbp2, htouch2, hs2, hle2⟩ := linkNext_spec hi hap hbp hp hlt hq hh2
  have hn : ∀ c, h2.next c = if c = p then bp else (linkNext bp p h).next c :=
    fun c => by simp [hh2]
  have hs : ∀ c, h2.size c = (linkNext bp p h).size c := fun c => by simp [hh2]
  have hfinp : (linkNext bp p h).fin p = h.fin p := by
    rw [fin, fin, ← hs, hs2 p hpb]
  have hgot : h'.got = h2.got := by rw [hh']; exact (linkPrev_got ..).1
  have htop : h'.top = h2.top := by rw [hh']; exact (linkPrev_got ..).2
  have hfreep : h'.freep = p := by rw [hh']
  have hne : ∀ c ∈ L.erase bp, c ≠ bp ∧ c ≠ p := fun c hc => by
    obtain ⟨hcb, hcL⟩ := mem_erase.mp hc
    exact ⟨hcb, fun he => hi.disj c hcL (he ▸ hp)⟩
  by_cases hP : h.fin p = bp
  · have hpbase : p ≠ base := fun he => by
      rw [he, fin, hi.base_size] at hP
      have := hi.lo bp (.inr hbp)
      simp only [HSIZE] at this
      omega
    have hn' : ∀ c, h'.next c =
        if c = p then (linkNext bp p h).next bp else (linkNext bp p h).next c := fun c => by
      simp [hh', linkPrev, hfinp, hP]
    have hs' : ∀ c, h'.size c =
        if c = p then ((linkNext bp p h).size p + (linkNext bp p h).size bp) % 2 ^ 32
        else (linkNext bp p h).size c := fun c => by simp [hh', linkPrev, hfinp, hP]
    have hfin : ∀ c, c ≠ p → h'.fin c = h2.fin c := fun c hc => by
      rw [fin, fin, hs', if_neg hc, hs]
    have hfinp2 : h2.fin p = bp := by rw [fin, hs, ← fin, hfinp, hP]
    obtain ⟨hi', hfin'⟩ := hi2.merge hp2 hpbase
      (by rw [hn, if_pos rfl]) hfinp2 hpb (by rw [hn', if_pos rfl, hn, if_neg hpb.symm])
      (by rw [hs', if_pos rfl, hs, hs]) (fun c hc => by rw [hn', if_neg hc, hn, if_neg hc])
      (fun c hc => by rw [hs', if_neg hc, hs]) (by rw [hfreep]) hgot htop
    have hbpbase : bp ≠ base := by
      have := hi.lo bp (.inr hbp)
      simp only [HSIZE] at this
      omega
    refine ⟨_, hi', fun c hc hcb hmem => ?_, fun c hc => ?_, ⟨p, mem_erase.mpr ⟨hpb, hp2⟩, ?_⟩⟩
    · exact touch_merge (X := fun _ => False) hpb not_false
        (fun c hc hcb hmem => .inl (htouch2 c hc hcb hmem).1) hbp2 hbpbase hfin' hfin c hc hcb hmem
    · rw [hs', if_neg (hne c hc).2, ← hs, hs2 c (hne c hc).1]
    · simp only [fin, HSIZE] at hfin' hfinp2
      omega
  · have hn' : ∀ c, h'.next c = h2.next c := fun c => by
      simp [hh', hh2, linkPrev, hfinp, hP]
    have hs' : ∀ c, h'.size c = h2.size c := fun c => by
      simp [hh', hh2, linkPrev, hfinp, hP]
    refine ⟨F2, hi2.congr (fun a _ => hn' a) (fun a _ => hs' a) (by rw [hfreep]; exact hp2)
      hgot htop, fun c hc hcb hmem => ?_, fun c hc => ?_, bp, hbp2, by rw [hs']; exact hle2⟩
    · rw [fin, hs', ← fin] at hmem
      exact hP (htouch2 c hc hcb hmem).2
    · rw [hs', hs2 c (hne c hc).1]

end

lemma free_spec : ∃ fuel h' F', free fuel h (bp + HSIZE) = some h' ∧ Inv base h' F' (L.erase bp) ∧
      Apart base h' F' ∧ (∀ c ∈ L.erase bp, h'.size c = h.size c) ∧
      ∃ z ∈ F', h.size bp ≤ h'.size z := by
  obtain ⟨fuel, p, hfind, hp, hlt, hq⟩ := findSlot_spec hi hbp
  obtain ⟨F', hspec⟩ := link_spec hi hap hbp hp hlt hq rfl
  refine ⟨fuel, _, F', ?_, hspec⟩
  rw [free, Nat.add_sub_cancel, hfind]
  rfl

end

/-! ## `malloc` keeps it -/

/-- What `take` leaves: the block is live. -/
structure Taken (base : ℕ) (h : Heap) (L : Finset ℕ) (n : ℕ) (h' : Heap) (b : ℕ) : Prop where
  inv : ∃ F', Inv base h' F' (insert b L) ∧ Apart base h' F'
  fresh : b ∉ L
  size : h'.size b = n
  live : ∀ c ∈ L, h'.size c = h.size c

section

variable (hi : Inv base h F L) (hap : Apart base h F) (hp : p ∈ F) (hprev : prevp ∈ F)
include hi hap hp hprev

lemma take_all (hnext : h.next prevp = p) (hn : 0 < n) (hsize : h.size p = n)
    (hh' : h' = { h.setPtr prevp (h.next p) with freep := prevp }) : Taken base h L n h' p := by
  have hpbase : p ≠ base := fun he => by
    rw [he, hi.base_size] at hsize
    omega
  have hpL : p ∉ L := fun hL => hi.disj p hL hp
  have hne : prevp ≠ p := by
    -- a node that is its own successor is the only one
    rintro rfl
    rcases (hi.cycle _ hp).2 with ⟨hgt, -⟩ | ⟨hall, hmin⟩
    · omega
    · have h1 := hall base hi.base_mem
      have h2 := hmin base hi.base_mem
      omega
  have hn' : ∀ c, h'.next c = if c = prevp then h.next p else h.next c := fun c => by simp [hh']
  have hs' : ∀ c, h'.size c = h.size c := fun c => by simp [hh']
  have hf' : ∀ c, h'.fin c = h.fin c := fun c => by rw [fin, fin, hs']
  have hblock : ∀ c, Block base (F.erase p) (insert p L) c ↔ Block base F L c := fun c => by
    simp only [Block, mem_insert, mem_erase]
    constructor
    · rintro (⟨⟨-, hc⟩, hcb⟩ | rfl | hc)
      · exact .inl ⟨hc, hcb⟩
      · exact .inl ⟨hp, hpbase⟩
      · exact .inr hc
    · rintro (⟨hc, hcb⟩ | hc)
      · by_cases hcp : c = p
        · exact .inr (.inl hcp)
        · exact .inl ⟨⟨hcp, hc⟩, hcb⟩
      · exact .inr (.inr hc)
  refine ⟨⟨F.erase p, ⟨?_, mem_erase.mpr ⟨hpbase.symm, hi.base_mem⟩, hi.base_pos, ?_, ?_,
    fun c hc => ?_, fun c hc => hi.lo c ((hblock c).mp hc), fun c hc => ?_, fun c d hc hd => ?_,
    fun x => ?_, fun c hc hF => ?_, ?_, ?_⟩, fun c hc hcb hmem => ?_⟩, hpL, by rw [hs', hsize],
    fun c _ => hs' c⟩
  · refine hi.cycle.erase hprev hnext hne (by rw [hn', if_pos rfl]) fun a _ ha _ => ?_
    rw [hn', if_neg ha]
  · rw [hs']
    exact hi.base_size
  · rw [hh']
    exact mem_erase.mpr ⟨hne, hprev⟩
  · rw [hs']
    exact hi.pos c ((hblock c).mp hc)
  · rw [hf', hh']
    exact hi.hi c ((hblock c).mp hc)
  · rw [hf']
    exact hi.sep c d ((hblock c).mp hc) ((hblock d).mp hd)
  · simp only [hblock, hf']
    rw [hh']
    exact hi.cover x
  · obtain ⟨hcp, hcF⟩ := mem_erase.mp hF
    exact hi.disj c ((mem_insert.mp hc).resolve_left hcp) hcF
  · rw [hh']
    exact hi.above
  · rw [hh']
    exact hi.limit
  · rw [hf'] at hmem
    exact hap c (mem_erase.mp hc).2 hcb (mem_erase.mp hmem).2

lemma take_end (hn : 0 < n) (hsize : n < h.size p) (hq : q = p + HSIZE * (h.size p - n))
    (hh' : h' = { (h.setSize p (h.size p - n)).setSize q n with freep := prevp }) :
    Taken base h L n h' q := by
  have hpbase : p ≠ base := fun he => by
    rw [he, hi.base_size] at hsize
    omega
  have hpB : Block base F L p := .inl ⟨hp, hpbase⟩
  have hpq : p < q := by
    simp only [hq, HSIZE]
    omega
  have hqfin : q + HSIZE * n = h.fin p := by
    simp only [hq, fin, HSIZE]
    omega
  -- no block starts inside of `p`
  have hinside : ∀ c, Block base F L c → c ≤ p ∨ h.fin p ≤ c := fun c hc => by
    rcases Nat.lt_or_ge p c with hlt | hle
    · exact .inr (hi.sep p c hpB hc hlt)
    · exact .inl hle
  have hqB : ¬ Block base F L q := fun hc => by
    have := hinside q hc
    simp only [HSIZE] at hqfin
    omega
  have hn' : ∀ c, h'.next c = h.next c := fun c => by simp [hh']
  have hs' : ∀ c, h'.size c = if c = q then n else if c = p then h.size p - n else h.size c :=
    fun c => by simp [hh']
  have hfp : h'.fin p = q := by rw [fin, hs', if_neg hpq.ne, if_pos rfl, hq]
  have hfq : h'.fin q = h.fin p := by rw [fin, hs', if_pos rfl, hqfin]
  have hf' : ∀ c, Block base F L c → c ≠ p → h'.fin c = h.fin c := fun c hc hcp => by
    rw [fin, fin, hs', if_neg fun he : c = q => hqB (he ▸ hc), if_neg hcp]
  have hblock : ∀ c, Block base F (insert q L) c ↔ Block base F L c ∨ c = q := fun c => by
    simp only [Block, mem_insert]
    tauto
  have hqL : q ∉ L := fun hL => hqB (.inr hL)
  have hbaseq : base ≠ q := by
    have := hi.lo p hpB
    simp only [HSIZE] at this
    omega
  refine ⟨⟨F, ⟨hi.cycle.congr fun a _ => hn' a, hi.base_mem, hi.base_pos, ?_, ?_, fun c hc => ?_,
    fun c hc => ?_, fun c hc => ?_, fun c d hc hd hcd => ?_, fun x => ?_,
      fun c hc hF => ?_, ?_, ?_⟩,
    fun c hc hcb hmem => ?_⟩, hqL, by rw [hs', if_pos rfl], fun c hc => ?_⟩
  · rw [hs', if_neg hbaseq, if_neg hpbase.symm]
    exact hi.base_size
  · rw [hh']
    exact hprev
  · rw [hs']
    split_ifs with h1 h2
    · exact hn
    · omega
    · exact hi.pos c (((hblock c).mp hc).resolve_right h1)
  · rcases (hblock c).mp hc with hcB | rfl
    · exact hi.lo c hcB
    · have := hi.lo p hpB
      omega
  · have htop : h'.top = h.top := by rw [hh']; rfl
    rw [htop]
    rcases (hblock c).mp hc with hcB | rfl
    · by_cases hcp : c = p
      · rw [hcp, hfp]
        have := hi.hi p hpB
        omega
      · rw [hf' c hcB hcp]
        exact hi.hi c hcB
    · rw [hfq]
      exact hi.hi p hpB
  · rcases (hblock c).mp hc with hcB | rfl
    · by_cases hcp : c = p
      · subst hcp
        rw [hfp]
        rcases (hblock d).mp hd with hdB | rfl
        · have := hi.sep c d hpB hdB hcd
          omega
        · exact le_rfl
      · rw [hf' c hcB hcp]
        rcases (hblock d).mp hd with hdB | rfl
        · exact hi.sep c d hcB hdB hcd
        · have h1 := hinside c hcB
          simp only [HSIZE] at hqfin
          have := hi.sep c p hcB hpB (by omega)
          omega
    · rw [hfq]
      rcases (hblock d).mp hd with hdB | rfl
      · exact (hinside d hdB).resolve_left (by omega)
      · omega
  · have hgot : h'.got = h.got := by rw [hh']; rfl
    rw [hgot, hi.cover x]
    simp only [HSIZE] at hqfin
    constructor
    · rintro ⟨c, hcB, h1, h2⟩
      by_cases hcp : c = p
      · subst hcp
        rcases Nat.lt_or_ge x q with hxq | hxq
        · exact ⟨c, (hblock c).mpr (.inl hcB), h1, by rw [hfp]; exact hxq⟩
        · exact ⟨q, (hblock q).mpr (.inr rfl), hxq, by rw [hfq]; exact h2⟩
      · exact ⟨c, (hblock c).mpr (.inl hcB), h1, by rw [hf' c hcB hcp]; exact h2⟩
    · rintro ⟨c, hc, h1, h2⟩
      rcases (hblock c).mp hc with hcB | rfl
      · by_cases hcp : c = p
        · subst hcp
          rw [hfp] at h2
          exact ⟨c, hcB, h1, by omega⟩
        · rw [hf' c hcB hcp] at h2
          exact ⟨c, hcB, h1, h2⟩
      · rw [hfq] at h2
        exact ⟨p, hpB, by omega, h2⟩
  · rcases mem_insert.mp hc with rfl | hcL
    · exact hqB (.inl ⟨hF, hbaseq.symm⟩)
    · exact hi.disj c hcL hF
  · rw [hh']
    exact hi.above
  · rw [hh']
    exact hi.limit
  · have hcB : Block base F L c := .inl ⟨hc, hcb⟩
    by_cases hcp : c = p
    · rw [hcp, hfp] at hmem
      exact hqB (.inl ⟨hmem, hbaseq.symm⟩)
    · rw [hf' c hcB hcp] at hmem
      exact hap c hc hcb hmem
  · have hcp : c ≠ p := fun he => hi.disj c hc (he ▸ hp)
    rw [hs', if_neg fun he : c = q => hqL (he ▸ hc), if_neg hcp]

lemma take_spec (hnext : h.next prevp = p) (hn : 0 < n) (hsize : n ≤ h.size p) :
    ∃ b, (take h n prevp p).2 = b + HSIZE ∧ Taken base h L n (take h n prevp p).1 b := by
  rw [take]
  split_ifs with heq
  · exact ⟨p, rfl, take_all hi hap hp hprev hnext hn heq rfl⟩
  · exact ⟨_, rfl, take_end hi hap hp hprev hn (lt_of_le_of_ne hsize (Ne.symm heq)) rfl rfl⟩

end

/-- `sbrk` gives a region above the heap; its block is live until `morecore` frees it. -/
lemma Inv.grow (hi : Inv base h F L) (hap : Apart base h F) (ha : h.top ≤ a) (hn : 0 < n)
    (hlim : a + HSIZE * n ≤ 2 ^ 36)
    (hh' : h' = { h.setSize a n with got := (a, n) :: h.got, top := a + HSIZE * n }) :
    Inv base h' F (insert a L) ∧ Apart base h' F ∧ a ∉ L ∧ h'.size a = n ∧
      ∀ c ∈ L, h'.size c = h.size c := by
  have hs' : ∀ c, h'.size c = if c = a then n else h.size c := fun c => by simp [hh']
  have hn' : ∀ c, h'.next c = h.next c := fun c => by simp [hh']
  have hbelow : ∀ c, Block base F L c → c < a := fun c hc => by
    have h1 := hi.hi c hc
    have h2 := hi.lt_fin hc
    simp only [HSIZE] at h2
    omega
  have hbasea : base < a := by
    have := hi.above
    simp only [HSIZE] at this
    omega
  have hf' : ∀ c, Block base F L c → h'.fin c = h.fin c := fun c hc => by
    rw [fin, fin, hs', if_neg (hbelow c hc).ne]
  have hfa : h'.fin a = a + HSIZE * n := by rw [fin, hs', if_pos rfl]
  have hblock : ∀ c, Block base F (insert a L) c ↔ Block base F L c ∨ c = a := fun c => by
    simp only [Block, mem_insert]
    tauto
  have haL : a ∉ L := fun hL => absurd (hbelow a (.inr hL)) (lt_irrefl _)
  have htop : h'.top = a + HSIZE * n := by rw [hh']
  refine ⟨⟨hi.cycle.congr fun c _ => hn' c, hi.base_mem, hi.base_pos, ?_,
    by rw [hh']; exact hi.freep,
    fun c hc => ?_, fun c hc => ?_, fun c hc => ?_, fun c d hc hd hcd => ?_, fun x => ?_,
    fun c hc hF => ?_, ?_, by rw [htop]; exact hlim⟩, fun c hc hcb hmem => ?_, haL,
    by rw [hs', if_pos rfl], fun c hc => ?_⟩
  · rw [hs', if_neg hbasea.ne]
    exact hi.base_size
  · rcases (hblock c).mp hc with hcB | rfl
    · rw [hs', if_neg (hbelow c hcB).ne]
      exact hi.pos c hcB
    · rw [hs', if_pos rfl]
      exact hn
  · rcases (hblock c).mp hc with hcB | rfl
    · exact hi.lo c hcB
    · exact hi.above.trans ha
  · rw [htop]
    rcases (hblock c).mp hc with hcB | rfl
    · rw [hf' c hcB]
      have := hi.hi c hcB
      omega
    · rw [hfa]
  · rcases (hblock c).mp hc with hcB | rfl
    · rw [hf' c hcB]
      rcases (hblock d).mp hd with hdB | rfl
      · exact hi.sep c d hcB hdB hcd
      · exact (hi.hi c hcB).trans ha
    · rcases (hblock d).mp hd with hdB | rfl
      · have := hbelow d hdB
        omega
      · omega
  · have hgot : h'.got = (a, n) :: h.got := by rw [hh']
    rw [hgot]
    simp only [List.mem_cons, exists_eq_or_imp, hi.cover x, hblock]
    constructor
    · rintro (⟨h1, h2⟩ | ⟨c, hcB, h1, h2⟩)
      · exact ⟨a, .inr rfl, h1, by rw [hfa]; exact h2⟩
      · exact ⟨c, .inl hcB, h1, by rw [hf' c hcB]; exact h2⟩
    · rintro ⟨c, hcB | rfl, h1, h2⟩
      · exact .inr ⟨c, hcB, h1, by rwa [hf' c hcB] at h2⟩
      · exact .inl ⟨h1, by rwa [hfa] at h2⟩
  · rcases mem_insert.mp hc with rfl | hcL
    · rcases hi.base_le hF with he | -
      · omega
      · have := hbelow c (.inl ⟨hF, by omega⟩)
        omega
    · exact hi.disj c hcL hF
  · rw [htop]
    have := hi.above
    omega
  · rw [hf' c (.inl ⟨hc, hcb⟩)] at hmem
    exact hap c hc hcb hmem
  · rw [hs', if_neg fun he : c = a => haL (he ▸ hc)]

/-- The loop of `malloc` finds a block if there is one on its way to `freep`. -/
lemma mallocLoop_found (sbrk : Option (Option ℕ)) (hi : Inv base h F L) (hp : p ∈ F)
    (hprev : prevp ∈ F) (hnext : h.next prevp = p)
    (hz : ∃ z ∈ F, SortedCycle.OnWay p h.freep z ∧ n ≤ h.size z) :
    ∃ fuel prevp' p', p' ∈ F ∧ prevp' ∈ F ∧ h.next prevp' = p' ∧ n ≤ h.size p' ∧
      mallocLoop n fuel sbrk h prevp p = .ok (take h n prevp' p') := by
  have hstop : ∀ {prevp p}, p ∈ F → prevp ∈ F → h.next prevp = p → n ≤ h.size p →
      ∃ fuel prevp' p', p' ∈ F ∧ prevp' ∈ F ∧ h.next prevp' = p' ∧ n ≤ h.size p' ∧
        mallocLoop n fuel sbrk h prevp p = .ok (take h n prevp' p') := fun hp hprev hnext hsize =>
    ⟨1, _, _, hp, hprev, hnext, hsize, by rw [mallocLoop, if_pos hsize]⟩
  refine hi.cycle.reach (P := fun p => ∀ prevp ∈ F, h.next prevp = p →
    (∃ z ∈ F, SortedCycle.OnWay p h.freep z ∧ n ≤ h.size z) →
    ∃ fuel prevp' p', p' ∈ F ∧ prevp' ∈ F ∧ h.next prevp' = p' ∧ n ≤ h.size p' ∧
      mallocLoop n fuel sbrk h prevp p = .ok (take h n prevp' p')) hi.freep ?_ ?_ hp prevp hprev
      hnext hz
  · rintro prevp hprev hnext ⟨z, -, hway, hsize⟩
    rw [SortedCycle.onWay_self hway] at hsize
    exact hstop hi.freep hprev hnext hsize
  · rintro p hp hne hrec prevp hprev hnext ⟨z, hz, hway, hsize⟩
    by_cases hfit : n ≤ h.size p
    · exact hstop hp hprev hnext hfit
    · rcases hi.cycle.onWay_next hp hi.freep hz hne hway with rfl | hway'
      · exact absurd hsize hfit
      · obtain ⟨fuel, prevp', p', h1, h2, h3, h4, hrun⟩ := hrec p hp rfl ⟨z, hz, hway', hsize⟩
        refine ⟨fuel + 1, prevp', p', h1, h2, h3, h4, ?_⟩
        rw [mallocLoop, if_neg hfit, if_neg hne]
        exact hrun

lemma mallocLoop_scan (sbrk : Option (Option ℕ)) (prevp : ℕ) (hi : Inv base h F L) (hp : p ∈ F)
    (hno : ∀ z ∈ F, h.size z < n) : ∃ k prevp', ∀ fuel,
      mallocLoop n (fuel + k) sbrk h prevp p = mallocLoop n fuel sbrk h prevp' h.freep := by
  refine hi.cycle.reach (P := fun p => ∀ prevp, ∃ k prevp', ∀ fuel,
    mallocLoop n (fuel + k) sbrk h prevp p = mallocLoop n fuel sbrk h prevp' h.freep) hi.freep
    (fun prevp => ⟨0, prevp, fun _ => rfl⟩) (fun p hp hne hrec prevp => ?_) hp prevp
  obtain ⟨k, prevp', hk⟩ := hrec p
  refine ⟨k + 1, prevp', fun fuel => ?_⟩
  rw [← Nat.add_assoc, mallocLoop, if_neg (not_le.mpr (hno p hp)), if_neg hne]
  exact hk fuel

lemma mallocLoop_more (hi : Inv base h F L) (hno : ∀ z ∈ F, h.size z < n) : ∃ k, ∀ fuel,
    mallocLoop n (fuel + 1 + k) (some r) h h.freep (h.next h.freep) =
      morecore fuel h n r >>= fun r =>
        if r.2 = 0 then .ok (r.1, 0) else mallocLoop n fuel none r.1 r.2 (r.1.next r.2) := by
  obtain ⟨k, prevp', hscan⟩ := mallocLoop_scan (some r) h.freep hi (hi.cycle.mem hi.freep) hno
  refine ⟨k, fun fuel => ?_⟩
  rw [hscan, mallocLoop, if_neg (not_le.mpr (hno _ hi.freep)), if_pos rfl]
  rfl

lemma free_got (h1 : free fuel h a = some h') : h'.got = h.got ∧ h'.top = h.top := by
  obtain ⟨p, -, rfl⟩ := map_eq_some_iff.mp h1
  exact ⟨(linkPrev_got ..).1.trans (linkNext_got ..).1,
    (linkPrev_got ..).2.trans (linkNext_got ..).2⟩

/-- With the region that `morecore` has got there is a block. -/
lemma mallocLoop_core (hi : Inv base h F L) (hap : Apart base h F) (hno : ∀ z ∈ F, h.size z < n)
    (htop : h.top ≤ a) (hlim : a + HSIZE * coreUnits n ≤ 2 ^ 36) :
    ∃ fuel h1 F1 prevp p, Inv base h1 F1 L ∧ Apart base h1 F1 ∧
      h1.got = (a, coreUnits n) :: h.got ∧ h1.top = a + HSIZE * coreUnits n ∧
      (∀ c ∈ L, h1.size c = h.size c) ∧ p ∈ F1 ∧ prevp ∈ F1 ∧ h1.next prevp = p ∧ n ≤ h1.size p ∧
      mallocLoop n fuel (some (some a)) h h.freep (h.next h.freep) = .ok (take h1 n prevp p) := by
  have hcore : n ≤ coreUnits n ∧ 0 < coreUnits n := by
    rw [coreUnits]
    split_ifs <;> omega
  set h0 : Heap := { h.setSize a (coreUnits n) with
    got := (a, coreUnits n) :: h.got, top := a + HSIZE * coreUnits n } with hh0
  obtain ⟨hi0, hap0, haL, hsa, hlive0⟩ := hi.grow hap htop hcore.2 hlim hh0
  obtain ⟨fuel1, h1, F1, hfree, hi1, hap1, hlive1, z, hzF, hzsize⟩ :=
    free_spec hi0 hap0 (mem_insert_self a L)
  rw [erase_insert haL] at hi1 hlive1
  obtain ⟨fuel2, prevp, p, hp, hprev, hnp, hfit, hrun⟩ := mallocLoop_found (n := n) none
    hi1 (hi1.cycle.mem hi1.freep) hi1.freep rfl
    ⟨z, hzF, hi1.cycle.onWay_around hi1.freep hzF, by omega⟩
  have hfreep : h1.freep ≠ 0 := by
    have h2 := hi1.base_le hi1.freep
    have h3 := hi1.base_pos
    omega
  have hmore : morecore (max fuel1 fuel2) h n (some a) = .ok (h1, h1.freep) := by
    simp only [morecore]
    rw [free_mono (le_max_left fuel1 fuel2) hfree]
  obtain ⟨k, hk⟩ := mallocLoop_more (r := some a) hi hno
  refine ⟨max fuel1 fuel2 + 1 + k, h1, F1, prevp, p, hi1, hap1, (free_got hfree).1,
    (free_got hfree).2, fun c hc => (hlive1 c hc).trans (hlive0 c hc), hp, hprev, hnp, hfit, ?_⟩
  rw [hk, hmore]
  show (if h1.freep = 0 then _ else _) = _
  rw [if_neg hfreep]
  exact mallocLoop_mono (le_max_right fuel1 fuel2) hrun

/-- What `malloc` leaves: nothing new with the result 0, or a block. -/
def Result (base : ℕ) (h : Heap) (L : Finset ℕ) (n : ℕ) (res : Heap × ℕ) : Prop :=
  (res.2 = 0 ∧ (∃ F', Inv base res.1 F' L ∧ Apart base res.1 F') ∧
    ∀ c ∈ L, res.1.size c = h.size c) ∨
  ∃ b, res.2 = b + HSIZE ∧ Taken base h L n res.1 b

lemma mallocLoop_spec (hi : Inv base h F L) (hap : Apart base h F) (hn : 0 < n)
    (hr : ∀ a, r = some a → h.top ≤ a ∧ a + HSIZE * coreUnits n ≤ 2 ^ 36) :
    ∃ fuel res, mallocLoop n fuel (some r) h h.freep (h.next h.freep) = .ok res ∧
      Result base h L n res := by
  by_cases hz : ∃ z ∈ F, n ≤ h.size z
  · obtain ⟨z, hzF, hsize⟩ := hz
    obtain ⟨fuel, prevp, p, hp, hprev, hnp, hfit, hrun⟩ := mallocLoop_found (some r) hi
      (hi.cycle.mem hi.freep) hi.freep rfl ⟨z, hzF, hi.cycle.onWay_around hi.freep hzF, hsize⟩
    exact ⟨fuel, _, hrun, .inr (take_spec hi hap hp hprev hnp hn hfit)⟩
  · have hno : ∀ z ∈ F, h.size z < n := fun z hz' => not_le.mp fun hle => hz ⟨z, hz', hle⟩
    cases r with
    | none =>
      obtain ⟨k, hk⟩ := mallocLoop_more hi hno
      exact ⟨0 + 1 + k, (h, 0), by rw [hk]; rfl, .inl ⟨rfl, ⟨F, hi, hap⟩, fun _ _ => rfl⟩⟩
    | some a =>
      obtain ⟨htop, hlim⟩ := hr a rfl
      obtain ⟨fuel, h1, F1, prevp, p, hi1, hap1, -, -, hlive, hp, hprev, hnp, hfit, hrun⟩ :=
        mallocLoop_core hi hap hno htop hlim
      obtain ⟨b, hb, htaken⟩ := take_spec hi1 hap1 hp hprev hnp hn hfit
      exact ⟨fuel, _, hrun, .inr ⟨b, hb, htaken.inv, htaken.fresh, htaken.size,
        fun c hc => (htaken.live c hc).trans (hlive c hc)⟩⟩

/-! ## A program that uses the heap -/

/-- The heap, and the blocks that `malloc` has returned and that have not been freed. -/
structure MallocSys where
  heap : Heap
  live : Finset ℕ

/-- A call of the allocator; `sbrk` is what the kernel answers. -/
inductive HeapCall where
  | malloc (nbytes : ℕ) (sbrk : Option ℕ)
  | free (ap : ℕ)

namespace MallocSys

/-- A call, with fuel for its loops. -/
def step (base : ℕ) (s : MallocSys) (a : HeapCall × ℕ) : Outcome HeapError MallocSys :=
  match a.1 with
  | .malloc nbytes sbrk =>
    match malloc base a.2 s.heap nbytes sbrk with
    | .ok (h, p) => .next ⟨h, if p = 0 then s.live else insert (p - HSIZE) s.live⟩
    | .error .fuel => .disabled
    | .error e => .panic e
  | .free ap =>
    match Umalloc.free a.2 s.heap ap with
    | some h => .next ⟨h, s.live.erase (ap - HSIZE)⟩
    | none => .disabled

/-- What `sbrk` may return: an error, or a region above everything that it has returned. -/
def SbrkOk (top : ℕ) : Option ℕ → Prop
  | none => True
  | some a => top ≤ a

/-- The calls that a program may make: requests whose size in bytes fits in an `int`, and blocks
that have not been freed. -/
def Allowed (s : MallocSys) : HeapCall → Prop
  | .malloc nbytes sbrk => nbytes < 2 ^ 32 ∧ HSIZE * coreUnits (nunits nbytes) < 2 ^ 31 ∧
      SbrkOk s.heap.top sbrk
  | .free ap => ∃ a ∈ s.live, ap = a + HSIZE

/-- The memory ends below 64 GiB, where a size in units is still a `uint`. -/
def Below : HeapCall → Prop
  | .malloc nbytes (some a) => a + HSIZE * coreUnits (nunits nbytes) ≤ 2 ^ 36
  | _ => True

/-- Before the first call: `base` is in the data of the program, below the heap. -/
structure Init (base : ℕ) (s : MallocSys) : Prop where
  base_pos : 0 < base
  above : base + HSIZE ≤ s.heap.top
  limit : s.heap.top ≤ 2 ^ 36
  freep : s.heap.freep = 0
  got : s.heap.got = []
  live : s.live = ∅

variable {base : ℕ} {s t : MallocSys} {a : HeapCall × ℕ} {c : HeapCall} {sbrk : Option ℕ}

/-- No call yet, or a heap. -/
def Good (base : ℕ) (s : MallocSys) : Prop :=
  Init base s ∨ ∃ F, Inv base s.heap F s.live ∧ Apart base s.heap F

lemma start_inv (hs : Init base s) :
    Inv base (start base s.heap) {base} s.live ∧ Apart base (start base s.heap) {base} := by
  have hstart : start base s.heap =
      { (s.heap.setPtr base base).setSize base 0 with freep := base } := by
    rw [start, if_pos hs.freep]
  have hblock : ∀ a, ¬ Block base {base} s.live a := by
    rintro a (⟨ha, hne⟩ | ha)
    · exact hne (mem_singleton.mp ha)
    · rw [hs.live] at ha
      simp at ha
  rw [hstart]
  refine ⟨⟨fun a ha => ?_, mem_singleton_self _, hs.base_pos, by simp,
    mem_singleton_self _, fun a ha => absurd ha (hblock a), fun a ha => absurd ha (hblock a),
    fun a ha => absurd ha (hblock a), fun a b ha => absurd ha (hblock a), fun x => ?_,
      fun a ha => ?_,
    hs.above, hs.limit⟩, fun a ha hne => absurd (mem_singleton.mp ha) hne⟩
  · obtain rfl := mem_singleton.mp ha
    have hnext : next { (s.heap.setPtr a a).setSize a 0 with freep := a } a = a := by simp
    rw [hnext]
    exact ⟨ha, .inr ⟨fun c hc => (mem_singleton.mp hc).le, fun c hc => (mem_singleton.mp hc).ge⟩⟩
  · constructor
    · rintro ⟨r, hr, -⟩
      change r ∈ s.heap.got at hr
      rw [hs.got] at hr
      cases hr
    · rintro ⟨a, ha, -⟩
      exact absurd ha (hblock a)
  · rw [hs.live] at ha
    simp at ha

/-- **Every allowed call of `malloc` returns**, and keeps the invariant. -/
lemma malloc_spec {nbytes : ℕ} (hs : Good base s)
    (hok : Allowed s (.malloc nbytes sbrk)) (hb : Below (.malloc nbytes sbrk)) :
    ∃ fuel res, malloc base fuel s.heap nbytes sbrk = .ok res ∧
      Result base s.heap s.live (nunits nbytes) res := by
  have hn : 0 < nunits nbytes := Nat.succ_pos _
  have hr : ∀ a, sbrk = some a → s.heap.top ≤ a ∧
      a + HSIZE * coreUnits (nunits nbytes) ≤ 2 ^ 36 := by
    rintro a rfl
    exact ⟨hok.2.2, hb⟩
  rcases hs with hinit | ⟨F, hi, hap⟩
  · obtain ⟨hi, hap⟩ := start_inv hinit
    have htop : (start base s.heap).top = s.heap.top := by
      rw [start, if_pos hinit.freep]
      rfl
    obtain ⟨fuel, res, hrun, hres⟩ := mallocLoop_spec hi hap hn (by rwa [htop])
    refine ⟨fuel, res, hrun, ?_⟩
    rw [hinit.live] at hres ⊢
    rcases hres with ⟨h0, hinv, -⟩ | ⟨b, hb, ht⟩
    · exact .inl ⟨h0, hinv, fun c hc => by simp at hc⟩
    · exact .inr ⟨b, hb, ht.inv, ht.fresh, ht.size, fun c hc => by simp at hc⟩
  · have hne : s.heap.freep ≠ 0 := by
      have h1 := hi.base_le hi.freep
      have h2 := hi.base_pos
      omega
    have hstart : start base s.heap = s.heap := by rw [start, if_neg hne]
    obtain ⟨fuel, res, hrun, hres⟩ := mallocLoop_spec hi hap hn hr
    exact ⟨fuel, res, by rw [malloc, hstart]; exact hrun, hres⟩

lemma malloc_result {nbytes fuel : ℕ} (hs : Good base s)
    (hok : Allowed s (.malloc nbytes sbrk)) (hb : Below (.malloc nbytes sbrk))
    (hrun : malloc base fuel s.heap nbytes sbrk = .ok res) :
    Result base s.heap s.live (nunits nbytes) res := by
  obtain ⟨fuel', res', hrun', hres⟩ := malloc_spec hs hok hb
  have h1 := mallocLoop_mono (le_max_left fuel fuel') hrun
  have h2 := mallocLoop_mono (le_max_right fuel fuel') hrun'
  rw [h1] at h2
  cases h2
  exact hres

lemma free_result {ap : ℕ} (hs : Good base s) (hok : Allowed s (.free ap)) :
    ∃ fuel h' F', Umalloc.free fuel s.heap ap = some h' ∧
      Inv base h' F' (s.live.erase (ap - HSIZE)) ∧ Apart base h' F' := by
  obtain ⟨b, hb, rfl⟩ := hok
  rcases hs with hinit | ⟨F, hi, hap⟩
  · rw [hinit.live] at hb
    simp at hb
  · obtain ⟨fuel, h', F', hfree, hi', hap', -⟩ := free_spec hi hap hb
    exact ⟨fuel, h', F', hfree, by rwa [Nat.add_sub_cancel], hap'⟩

lemma Good.step (hs : Good base s) (hok : Allowed s a.1 ∧ Below a.1)
    (hstep : MallocSys.step base s a = .next t) : Good base t := by
  obtain ⟨c, fuel⟩ := a
  cases c with
  | malloc nbytes sbrk =>
    simp only [MallocSys.step] at hstep
    split at hstep
    · next h p hrun =>
      cases hstep
      rcases malloc_result hs hok.1 hok.2 hrun with ⟨h0, hinv, -⟩ | ⟨b, hb, ht⟩
      · change p = 0 at h0
        rw [if_pos h0]
        exact .inr hinv
      · change p = b + HSIZE at hb
        rw [if_neg (by simp only [HSIZE] at hb; omega), hb, Nat.add_sub_cancel]
        exact .inr ht.inv
    · cases hstep
    · cases hstep
  | free ap =>
    simp only [MallocSys.step] at hstep
    split at hstep
    · next h hrun =>
      cases hstep
      obtain ⟨fuel', h', F', hfree, hi', hap'⟩ := free_result hs hok.1
      have h1 := free_mono (le_max_left fuel fuel') hrun
      have h2 := free_mono (le_max_right fuel fuel') hfree
      rw [h1] at h2
      cases h2
      exact .inr ⟨F', hi', hap'⟩
    · cases hstep

/-- The free list in order: it starts with `base`, each block points to the next one and the last
one to `base`. -/
structure FreeList (base : ℕ) (h : Heap) (l : List ℕ) : Prop where
  sorted : l.Pairwise (· < ·)
  head : l.head? = some base
  freep : h.freep ∈ l
  next : ∀ i a, l[i]? = some a → l[(i + 1) % l.length]? = some (h.next a)
  apart : ∀ a ∈ l, a ≠ base → h.fin a ∉ l

/-- The free blocks and the live blocks divide the memory that `morecore` has got. -/
structure Partition (base : ℕ) (s : MallocSys) (l : List ℕ) : Prop where
  cover : ∀ x, (∃ r ∈ s.heap.got, r.1 ≤ x ∧ x < r.1 + HSIZE * r.2) ↔
    ∃ a, ((a ∈ l ∧ a ≠ base) ∨ a ∈ s.live) ∧ a ≤ x ∧ x < s.heap.fin a
  unique : ∀ x a b, ((a ∈ l ∧ a ≠ base) ∨ a ∈ s.live) → ((b ∈ l ∧ b ≠ base) ∨ b ∈ s.live) →
    a ≤ x ∧ x < s.heap.fin a → b ≤ x ∧ x < s.heap.fin b → a = b
  disjoint : ∀ a ∈ s.live, a ∉ l

lemma freeList_of_inv {F : Finset ℕ} (hi : Inv base s.heap F s.live) (hap : Apart base s.heap F) :
    ∃ l, FreeList base s.heap l ∧ Partition base s l := by
  have hmem : ∀ a, a ∈ F.sort ↔ a ∈ F := fun a => mem_sort (· ≤ ·)
  have hsorted : F.sort.Pairwise (· < ·) := (sortedLT_sort F).pairwise
  have hblock : ∀ a, ((a ∈ F.sort ∧ a ≠ base) ∨ a ∈ s.live) ↔ Block base F s.live a := fun a => by
    rw [hmem, Block]
  refine ⟨F.sort, ⟨hsorted, ?_, (hmem _).mpr hi.freep, fun i a hia => ?_, fun a ha hne hfin => ?_⟩,
    fun x => ?_, fun x a b ha hb hxa hxb => ?_, fun a ha hl => hi.disj a ha ((hmem a).mp hl)⟩
  · cases hl : F.sort with
    | nil =>
      have := (hmem base).mpr hi.base_mem
      rw [hl] at this
      cases this
    | cons b l =>
      -- `base` is the smallest node
      have hb : b ∈ F := (hmem b).mp (by rw [hl]; exact List.mem_cons_self ..)
      have hbase := (hmem base).mpr hi.base_mem
      rw [hl] at hbase hsorted
      rcases List.mem_cons.mp hbase with he | hin
      · rw [he]
        rfl
      · have hlt := (List.pairwise_cons.mp hsorted).1 base hin
        have := hi.base_le hb
        omega
  · exact hi.cycle.getElem?_next hsorted hmem hia
  · exact hap a ((hmem a).mp ha) hne ((hmem _).mp hfin)
  · rw [hi.cover x]
    simp only [hblock]
  · rw [hblock] at ha hb
    rcases lt_trichotomy a b with hab | hab | hab
    · have := hi.sep a b ha hb hab
      omega
    · exact hab
    · have := hi.sep b a hb ha hab
      omega

/-- **The user heap.**  After every sequence of calls, with memory below 64 GiB: the free list is
one cycle through `base` in the order of addresses whose blocks do not touch; together with the live
blocks they divide the memory that `morecore` has got. Every allowed call returns. A pointer that
`malloc` returns is the start of a block with room for the request that no live block meets, and the
live blocks stay as they are. -/
theorem heap_is_partitioned {s0 : MallocSys} {acts : List (HeapCall × ℕ)} (h₀ : Init base s0)
    (hrun : RunOf (step base) (fun s a => Allowed s a.1 ∧ Below a.1) s0 acts s) :
    (s.heap.freep ≠ 0 → ∃ l, FreeList base s.heap l ∧ Partition base s l) ∧
    (s.heap.freep = 0 → s.heap.got = [] ∧ s.live = ∅) ∧
    (∀ nbytes sbrk, Allowed s (.malloc nbytes sbrk) → Below (.malloc nbytes sbrk) →
      (∃ fuel h p, malloc base fuel s.heap nbytes sbrk = .ok (h, p)) ∧
      ∀ fuel h p, malloc base fuel s.heap nbytes sbrk = .ok (h, p) →
        (∀ a ∈ s.live, h.size a = s.heap.size a) ∧
        (p ≠ 0 → HSIZE ≤ p ∧ p + nbytes ≤ h.fin (p - HSIZE) ∧ p - HSIZE ∉ s.live ∧
          ∀ a ∈ s.live, h.fin a ≤ p - HSIZE ∨ h.fin (p - HSIZE) ≤ a)) ∧
    ∀ ap, Allowed s (.free ap) → ∃ fuel h, Umalloc.free fuel s.heap ap = some h := by
  have hgood : Good base s := hrun.invariant (fun s a t hs hok hst => hs.step hok hst) (.inl h₀)
  refine ⟨fun hne => ?_, fun h0 => ?_, fun nbytes sbrk hok hb => ⟨?_, fun fuel h p hres => ?_⟩,
    fun ap hok => ?_⟩
  · rcases hgood with hinit | ⟨F, hi, hap⟩
    · exact absurd hinit.freep hne
    · exact freeList_of_inv hi hap
  · rcases hgood with hinit | ⟨F, hi, -⟩
    · exact ⟨hinit.got, hinit.live⟩
    · have h₁ := hi.base_le hi.freep
      have h₂ := hi.base_pos
      omega
  · obtain ⟨fuel, ⟨h, p⟩, hrun', -⟩ := malloc_spec hgood hok hb
    exact ⟨fuel, h, p, hrun'⟩
  · rcases malloc_result hgood hok hb hres with ⟨h0, -, hlive⟩ | ⟨b, hb, ht⟩
    · exact ⟨hlive, fun hne => absurd h0 hne⟩
    · change p = b + HSIZE at hb
      subst hb
      rw [Nat.add_sub_cancel]
      obtain ⟨F', hi', -⟩ := ht.inv
      have hbB : Block base F' (insert b s.live) b := .inr (mem_insert_self ..)
      refine ⟨ht.live, fun _ => ⟨Nat.le_add_left _ _, ?_, ht.fresh, fun a ha => ?_⟩⟩
      · rw [fin, ht.size, nunits]
        simp only [HSIZE]
        omega
      · have haB : Block base F' (insert b s.live) a := .inr (mem_insert_of_mem ha)
        rcases lt_trichotomy a b with hab | rfl | hab
        · exact .inl (hi'.sep a b haB hbB hab)
        · exact absurd ha ht.fresh
        · exact .inr (hi'.sep b a hbB haB hab)
  · obtain ⟨fuel, h', -, hfree, -⟩ := free_result hgood hok
    exact ⟨fuel, h', hfree⟩

/-- `Allowed`, as a test. -/
def allowed (s : MallocSys) : HeapCall → Bool
  | .malloc nbytes sbrk => nbytes < 2 ^ 32 && HSIZE * coreUnits (nunits nbytes) < 2 ^ 31 &&
      sbrk.all (s.heap.top ≤ ·)
  | .free ap => HSIZE ≤ ap && ap - HSIZE ∈ s.live

def below : HeapCall → Bool
  | .malloc nbytes (some a) => a + HSIZE * coreUnits (nunits nbytes) ≤ 2 ^ 36
  | _ => true

lemma allowed_of_test (h : allowed s c) : Allowed s c := by
  cases c with
  | malloc nbytes sbrk =>
    simp only [allowed, Bool.and_eq_true, decide_eq_true_eq] at h
    refine ⟨h.1.1, h.1.2, ?_⟩
    cases sbrk with
    | none => trivial
    | some a => exact of_decide_eq_true (p := s.heap.top ≤ a) h.2
  | free ap =>
    simp only [allowed, Bool.and_eq_true, decide_eq_true_eq] at h
    exact ⟨ap - HSIZE, h.2, (Nat.sub_add_cancel h.1).symm⟩

lemma below_of_test (h : below c) : Below c := by
  cases c with
  | malloc nbytes sbrk =>
    cases sbrk with
    | none => trivial
    | some a => exact of_decide_eq_true (p := a + HSIZE * coreUnits (nunits nbytes) ≤ 2 ^ 36) h
  | free ap => trivial

/-- `base` at 4096, and a heap from 8192 on. -/
def empty : MallocSys := ⟨⟨fun _ => ⟨0, 0⟩, 0, [], 8192⟩, ∅⟩

lemma empty_init : Init 4096 empty := ⟨by decide, by decide, by decide, rfl, rfl, rfl⟩

/-- Two blocks of one region, the first one freed again, and a region that `sbrk` gives behind a
gap. -/
theorem heap_is_partitioned_sample :
    ∃ (s : MallocSys) (acts : List (HeapCall × ℕ)), s.live = {73520, 73568, 204800} ∧
      RunOf (step 4096) (fun s a => Allowed s a.1 ∧ Below a.1) empty acts s ∧
      ∃ l, FreeList 4096 s.heap l ∧ Partition 4096 s l := by
  have hex : (exec (fun s (a : HeapCall × ℕ) =>
      if allowed s a.1 && below a.1 then step 4096 s a else .disabled) empty
      [(.malloc 100 (some 8192), 9), (.malloc 8 none, 9), (.free 73616, 9),
        (.malloc 70000 (some 204800), 9), (.malloc 20 none, 9)]).map
      (fun s => (s.heap.freep, s.live)) = some (4096, {73520, 73568, 204800}) := by
    decide +kernel
  obtain ⟨s, hs, h⟩ := map_eq_some_iff.mp hex
  simp only [Prod.mk.injEq] at h
  have hrun : RunOf (step 4096) (fun s a => Allowed s a.1 ∧ Below a.1) empty _ s :=
    RunOf.of_exec (fun s a ht => by
      rw [Bool.and_eq_true] at ht
      exact ⟨allowed_of_test ht.1, below_of_test ht.2⟩) hs
  exact ⟨s, _, h.2, hrun, (heap_is_partitioned empty_init hrun).1 (by rw [h.1]; decide)⟩

/-- A free list through `base` and one block has no third node. -/
lemma FreeList.two {l : List ℕ} {h : Heap} {b : ℕ} (hl : FreeList base h l) (hb : h.next base = b)
    (hbase : h.next b = base) (hne : b ≠ base) : l = [base, b] := by
  have hnodup : l.Nodup := hl.sorted.imp fun hlt => hlt.ne
  match l, hl with
  | [], hl => cases hl.head
  | [a], hl =>
    obtain rfl : a = base := some.inj hl.head
    have h1 : some a = some b := by simpa [hb] using hl.next 0 a rfl
    exact absurd (some.inj h1).symm hne
  | [a, c], hl =>
    obtain rfl : a = base := some.inj hl.head
    have h1 : some c = some b := by simpa [hb] using hl.next 0 a rfl
    rw [some.inj h1]
  | a :: c :: d :: l, hl =>
    obtain rfl : a = base := some.inj hl.head
    have h1 : some c = some b := by simpa [hb] using hl.next 0 a rfl
    obtain rfl := some.inj h1
    have hmod : 2 % (a :: c :: d :: l).length = 2 :=
      Nat.mod_eq_of_lt (by simp only [List.length_cons]; omega)
    have h2 : some d = some a := by
      have := hl.next 1 c rfl
      rwa [hmod, hbase] at this
    cases h2
    simp at hnodup

/-- **The size of a block is a `uint`.**  Thirty-three blocks of just under 2 GiB, side by side, are
freed in order of address, and the size of the block that they become is taken modulo `2 ^ 32`: the
memory behind it is lost. -/
theorem size_of_merged_block_wraps :
    ∃ (s : MallocSys) (acts : List (HeapCall × ℕ)), Init 4096 empty ∧
      RunOf (step 4096) (fun s a => Allowed s a.1) empty acts s ∧ s.heap.freep ≠ 0 ∧
      ¬ ∃ l, FreeList 4096 s.heap l ∧ Partition 4096 s l := by
  have hex : (exec (fun s (a : HeapCall × ℕ) =>
      if allowed s a.1 then step 4096 s a else .disabled) empty
      ((List.range 33).map (fun i => (.malloc (2 ^ 31 - 32) (some (8192 + i * (2 ^ 31 - 16))), 9))
        ++ (List.range 33).map (fun i => (.free (8208 + i * (2 ^ 31 - 16)), 9)))).map
      (fun s => (s.heap.next 4096, s.heap.next 8192, s.heap.size 8192, s.live,
        s.heap.freep, decide ((8192 + 32 * (2 ^ 31 - 16), 2 ^ 27 - 1) ∈ s.heap.got))) =
      some (8192, 4096, 2 ^ 27 - 33, ∅, 8192, true) := by
    decide +kernel
  obtain ⟨s, hs, h⟩ := map_eq_some_iff.mp hex
  simp only [Prod.mk.injEq] at h
  obtain ⟨hbase, hnext, hsize, hlive, hfreep, hgot⟩ := h
  refine ⟨s, _, empty_init, RunOf.of_exec (fun s a => allowed_of_test) hs,
    by rw [hfreep]; decide, ?_⟩
  rintro ⟨l, hl, hp⟩
  rw [hl.two hbase hnext (by decide)] at hp
  -- the last address that `sbrk` has given
  obtain ⟨a, ha, -, hlt⟩ := (hp.cover (8191 + 33 * (2 ^ 31 - 16))).mp
    ⟨_, of_decide_eq_true hgot, by norm_num, by norm_num [HSIZE]⟩
  rw [hlive] at ha
  obtain rfl : a = 8192 := by
    simp only [List.mem_cons, List.not_mem_nil, or_false, notMem_empty] at ha
    exact ha.1.resolve_left ha.2
  rw [fin, hsize] at hlt
  norm_num [HSIZE] at hlt

end MallocSys

end Xv6.Umalloc
