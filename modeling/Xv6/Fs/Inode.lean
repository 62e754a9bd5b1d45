import Xv6.Fs.Layout
import Xv6.Lib.Owner
import Xv6.Lib.Prog

/-!
# Blocks and inodes

The block allocator and the inode functions of `fs.c`: `balloc`, `bfree`, `bmap`, `itrunc`,
`iupdate`, `readi` and `writei`. The state is the disk together with the in-memory inodes, one for
each inode number; an inode in memory may be newer than its dinode until `iupdate` copies it.

An inode has `MAXFILE + 1` slots for blocks: the blocks of the file in order, and last the indirect
block. `Owned` says that the slots of all inodes own the blocks behind the metadata (`Owns`), and
`Consistent` adds that every block below the size of a file is there. What the functions do to a
file is said by `byte`, which reads a block that is not there as zeros: allocation never changes it.
-/

namespace Xv6

open Function Superblock ByteArr Prog

/-- The disk and the inodes in memory. -/
structure FsState where
  disk : Disk
  ino : ℕ → Dinode

/-- The panics of fs.c and sysfile.c. -/
inductive FsPanic where
  | freeingFreeBlock
  | bmapOutOfRange
  | dirlookupNotDir
  | dirlookupRead
  | dirlinkRead
  | isdiremptyReadi
  | ilockNoType
  | unlinkNlink
  | unlinkWritei
  deriving DecidableEq

abbrev FsProg (α : Type) := Prog FsState FsPanic α

/-- The indirect block is slot `NDIRECT` of `addrs`. -/
abbrev IND : ℕ := NDIRECT

namespace FsState

def addr (s : FsState) (inum k : ℕ) : ℕ := (s.ino inum).addrs.getD k 0

def setInode (s : FsState) (inum : ℕ) (v : Dinode) : FsState :=
  { s with ino := update s.ino inum v }

/-- `ip->addrs[k] = a`. -/
def setAddr (s : FsState) (inum k a : ℕ) : FsState :=
  s.setInode inum { s.ino inum with addrs := (s.ino inum).addrs.set k a }

def setBlock (s : FsState) (a : ℕ) (b : Block) : FsState :=
  { s with disk := update s.disk a b }

end FsState

/-- Where `writei` copies from: the bytes, and at which offset of the source a copy fails, with the
number of bytes that it has copied before. -/
structure Source where
  byte : ℕ → UInt8
  fault : ℕ → Option ℕ

/-- `m` bytes of `src` from `from` on, put into a block at `off`. -/
def putBytes (b : Block) (off m : ℕ) (src : ℕ → UInt8) : Block := fun i =>
  if off ≤ i ∧ i < off + m then src (i - off) else b i

namespace Fs

variable (sb : Superblock)

/-- The two loops of `balloc` together run over the blocks from 0 to `sb.size - 1`. -/
def balloc : FsProg ℕ := do
  let s ← get
  match (List.range sb.size).find? fun b => !sb.bit s.disk b with
  | some b =>
    set { s with disk := update (sb.setBit s.disk b true) b fun _ => 0 }
    return b
  | none => return 0

def bfree (b : ℕ) : FsProg Unit := do
  let s ← get
  if sb.bit s.disk b = false then throw .freeingFreeBlock
  else set { s with disk := sb.setBit s.disk b false }

/-- The block in `ip->addrs[k]`, which is allocated if there is none. -/
def bmapAddr (inum k : ℕ) : FsProg ℕ := do
  let s ← get
  if s.addr inum k = 0 then
    let addr ← balloc sb
    if addr = 0 then return 0
    else
      modify fun s => s.setAddr inum k addr
      return addr
  else return s.addr inum k

/-- The block in entry `j` of the indirect block `ind`, which is allocated if there is none. -/
def bmapEntry (ind j : ℕ) : FsProg ℕ := do
  let s ← get
  if word32 (s.disk ind) (4 * j) = 0 then
    let addr ← balloc sb
    if addr = 0 then return 0
    else
      modify fun s => s.setBlock ind (putWord32 (s.disk ind) (4 * j) addr)
      return addr
  else return word32 (s.disk ind) (4 * j)

def bmap (inum bn : ℕ) : FsProg ℕ :=
  if bn < NDIRECT then bmapAddr sb inum bn
  else if bn - NDIRECT < NINDIRECT then do
    let ind ← bmapAddr sb inum IND
    if ind = 0 then return 0 else bmapEntry sb ind (bn - NDIRECT)
  else throw .bmapOutOfRange

def iupdate (inum : ℕ) : FsProg Unit :=
  modify fun s => { s with disk := sb.setDinode s.disk inum (s.ino inum) }

def itrunc (inum : ℕ) : FsProg Unit := do
  forRange (fun k => do
    let s ← get
    if s.addr inum k ≠ 0 then
      bfree sb (s.addr inum k)
      modify fun s => s.setAddr inum k 0) 0 NDIRECT
  let s ← get
  if s.addr inum IND ≠ 0 then
    forRange (fun j => do
      let a := word32 (s.disk (s.addr inum IND)) (4 * j)
      if a ≠ 0 then bfree sb a) 0 NINDIRECT
    bfree sb (s.addr inum IND)
    modify fun s => s.setAddr inum IND 0
  modify fun s => s.setInode inum { s.ino inum with size := 0 }
  iupdate sb inum

/-- The loop of `readi`, with `dst` what has been copied out; `ok` says whether a copy succeeds. -/
def readLoop (inum n : ℕ) (ok : ℕ → Bool) : ℕ → ℕ → ℕ → List UInt8 → FsProg (ℤ × List UInt8)
  | 0, tot, _, dst => return (tot, dst)
  | fuel + 1, tot, off, dst =>
    if tot < n then do
      let addr ← bmap sb inum (off / BSIZE)
      if addr = 0 then return (tot, dst)
      else
        let s ← get
        let m := min (n - tot) (BSIZE - off % BSIZE)
        if ok tot then
          readLoop inum n ok fuel (tot + m) (off + m)
            (dst ++ (List.range m).map fun i => s.disk addr (off % BSIZE + i))
        else return (-1, dst)
    else return (tot, dst)

/-- `readi`; `off` and `n` are `uint`. A round of the loop copies a byte at least. -/
def readi (inum : ℕ) (ok : ℕ → Bool) (off n : ℕ) : FsProg (ℤ × List UInt8) := do
  let s ← get
  let size := (s.ino inum).size
  if off > size ∨ (off + n) % 2 ^ 32 < off then return (0, [])
  else
    let n := if (off + n) % 2 ^ 32 > size then size - off else n
    readLoop sb inum n ok n 0 off []

/-- The loop of `writei`; it returns `tot` and `off`. -/
def writeLoop (inum n : ℕ) (src : Source) : ℕ → ℕ → ℕ → FsProg (ℕ × ℕ)
  | 0, tot, off => return (tot, off)
  | fuel + 1, tot, off =>
    if tot < n then do
      let addr ← bmap sb inum (off / BSIZE)
      if addr = 0 then return (tot, off)
      else
        let m := min (n - tot) (BSIZE - off % BSIZE)
        match src.fault tot with
        | some k =>
          modify fun s => s.setBlock addr
            (putBytes (s.disk addr) (off % BSIZE) (min k m) fun i => src.byte (tot + i))
          return (tot, off)
        | none =>
          modify fun s => s.setBlock addr
            (putBytes (s.disk addr) (off % BSIZE) m fun i => src.byte (tot + i))
          writeLoop inum n src fuel (tot + m) (off + m)
    else return (tot, off)

def writei (inum : ℕ) (src : Source) (off n : ℕ) : FsProg ℤ := do
  let s ← get
  if off > (s.ino inum).size ∨ (off + n) % 2 ^ 32 < off then return -1
  else if (off + n) % 2 ^ 32 > MAXFILE * BSIZE then return -1
  else
    let (tot, off) ← writeLoop sb inum n src n 0 off
    modify fun s => s.setInode inum { s.ino inum with size := max (s.ino inum).size off }
    iupdate sb inum
    return tot

end Fs

/-! ## Slots -/

/-- The block in slot `k` of an inode, 0 if there is none. -/
def slotAddr (d : Disk) (v : Dinode) (k : ℕ) : ℕ :=
  if k < NDIRECT then v.addrs.getD k 0
  else if k < MAXFILE then
    if v.addrs.getD IND 0 = 0 then 0 else word32 (d (v.addrs.getD IND 0)) (4 * (k - NDIRECT))
  else if k = MAXFILE then v.addrs.getD IND 0
  else 0

namespace FsState

variable (sb : Superblock)

/-- The block in a slot of an inode. -/
def slot (s : FsState) (x : ℕ × ℕ) : ℕ :=
  if x.1 < sb.ninodes then slotAddr s.disk (s.ino x.1) x.2 else 0

/-- A block behind the metadata that is marked in the free map. -/
def InUse (s : FsState) (a : ℕ) : Prop := sb.nmeta ≤ a ∧ a < sb.size ∧ sb.bit s.disk a = true

/-- **Every block is owned by one slot, or free.** -/
structure Owned (s : FsState) : Prop where
  fits : ∀ i, i < sb.ninodes → (s.ino i).Fits
  owns : Owns (s.slot sb) (s.InUse sb)
  metadata : ∀ b, b < sb.nmeta → sb.bit s.disk b = true

/-- Besides, no block below the size of a file is missing. -/
structure Consistent (s : FsState) : Prop extends s.Owned sb where
  mapped : ∀ i, i < sb.ninodes → ∀ k, k * BSIZE < (s.ino i).size → s.slot sb (i, k) ≠ 0
  size_le : ∀ i, i < sb.ninodes → (s.ino i).size ≤ MAXFILE * BSIZE

/-- The byte at `p`; a block that is not there reads as zeros. -/
def byte (s : FsState) (i p : ℕ) : UInt8 :=
  if p / BSIZE < MAXFILE ∧ s.slot sb (i, p / BSIZE) ≠ 0 then
    s.disk (s.slot sb (i, p / BSIZE)) (p % BSIZE)
  else 0

variable {sb} {s t : FsState} {i j k a : ℕ} {x y : ℕ × ℕ} {b : Block} {c : ℕ}

lemma slot_direct (hi : i < sb.ninodes) (hk : k < NDIRECT) : s.slot sb (i, k) = s.addr i k := by
  rw [slot, if_pos hi, slotAddr, if_pos hk, addr]

lemma slot_ind (hi : i < sb.ninodes) : s.slot sb (i, MAXFILE) = s.addr i IND := by
  rw [slot, if_pos hi, slotAddr, if_neg (show ¬ MAXFILE < NDIRECT by decide),
    if_neg (show ¬ MAXFILE < MAXFILE by decide), if_pos rfl, addr]

lemma slot_entry (hi : i < sb.ninodes) (hk : ¬ k < NDIRECT) (hk' : k < MAXFILE)
    (ha : s.addr i IND ≠ 0) :
    s.slot sb (i, k) = word32 (s.disk (s.addr i IND)) (4 * (k - NDIRECT)) := by
  rw [addr] at ha ⊢
  rw [slot, if_pos hi, slotAddr, if_neg hk, if_pos hk', if_neg ha]

lemma slot_of_gt (hk : MAXFILE < k) : s.slot sb (i, k) = 0 := by
  rw [slot]
  split_ifs
  · rw [slotAddr, if_neg, if_neg, if_neg]
    · exact hk.ne'
    · exact not_lt.mpr hk.le
    · have : NDIRECT < MAXFILE := by decide
      omega
  · rfl

lemma le_of_slot_ne (h : s.slot sb x ≠ 0) : x.1 < sb.ninodes ∧ x.2 ≤ MAXFILE := by
  constructor
  · by_contra hx
    exact h (if_neg hx)
  · by_contra hx
    exact h (slot_of_gt (not_le.mp hx))

lemma Owned.data (h : s.Owned sb) (hx : s.slot sb x ≠ 0) :
    sb.nmeta ≤ s.slot sb x ∧ s.slot sb x < sb.size :=
  have hu := h.owns.used_ref hx
  ⟨hu.1, hu.2.1⟩

lemma nmeta_pos : 0 < sb.nmeta := (Nat.succ_pos _).trans_le (Nat.le_add_left _ _)

lemma slot_congr (hino : t.ino i = s.ino i)
    (hdisk : s.addr i IND ≠ 0 → t.disk (s.addr i IND) = s.disk (s.addr i IND)) :
    t.slot sb (i, k) = s.slot sb (i, k) := by
  rw [slot, slot]
  split_ifs with hi
  · rw [addr] at hdisk
    simp only [slotAddr, hino]
    by_cases ha : (s.ino i).addrs.getD IND 0 = 0
    · simp only [ha, if_true]
    · simp only [ha, if_false, hdisk ha]
  · rfl

lemma slots_congr (hino : t.ino = s.ino) (hdisk : ∀ i, i < sb.ninodes → s.slot sb (i, MAXFILE) ≠ 0 →
      t.disk (s.slot sb (i, MAXFILE)) = s.disk (s.slot sb (i, MAXFILE))) (x : ℕ × ℕ) :
    t.slot sb x = s.slot sb x := by
  obtain ⟨i, k⟩ := x
  by_cases hi : i < sb.ninodes
  · refine slot_congr (by rw [hino]) fun ha => ?_
    have := hdisk i hi
    rw [slot_ind hi] at this
    exact this ha
  · rw [slot, slot, if_neg hi, if_neg hi]

/-! ## Writing to a block of a file -/

lemma setBlock_self : (s.setBlock a b).disk a = b := update_self ..

lemma setBlock_of_ne (h : c ≠ a) : (s.setBlock a b).disk c = s.disk c :=
  update_of_ne h _ _

lemma bblock_ne (h : sb.nmeta ≤ a) (hj : j < sb.size ∨ j < sb.nmeta) (hsz : sb.nmeta ≤ sb.size) :
    a ≠ sb.bblock j := by
  have hj' : j < sb.size := by omega
  have := bblock_lt hj'
  omega

lemma Owned.slot_setBlock (h : s.Owned sb) (hx : s.slot sb x ≠ 0) (hk : x.2 ≠ MAXFILE)
    (y : ℕ × ℕ) : (s.setBlock (s.slot sb x) b).slot sb y = s.slot sb y := by
  refine slots_congr (s := s) (t := s.setBlock _ b) rfl (fun i hi ha => ?_) y
  refine update_of_ne ?_ _ _
  intro he
  have := h.owns.inj _ _ hx he.symm
  exact hk (by rw [this])

/-- A block behind the metadata is not part of the free map. -/
lemma bit_setBlock (ha : sb.nmeta ≤ a) (hsz : a < sb.size) (hj : j < sb.size ∨ j < sb.nmeta) :
    sb.bit (s.setBlock a b).disk j = sb.bit s.disk j :=
  bit_update_of_ne (bblock_ne ha hj (ha.trans hsz.le))

lemma Owned.setBlock (h : s.Owned sb) (hx : s.slot sb x ≠ 0) (hk : x.2 ≠ MAXFILE) :
    (s.setBlock (s.slot sb x) b).Owned sb := by
  obtain ⟨h1, h2⟩ := h.data hx
  refine ⟨h.fits, h.owns.congr (h.slot_setBlock hx hk) fun c _ => ?_, fun c hc => ?_⟩
  · refine and_congr_right fun _ => and_congr_right fun hc => ?_
    rw [bit_setBlock h1 h2 (.inl hc)]
  · rw [bit_setBlock h1 h2 (.inr hc)]
    exact h.metadata c hc

lemma Owned.byte_setBlock (h : s.Owned sb) (hx : s.slot sb (i, k) ≠ 0) (hk : k < MAXFILE)
    (p : ℕ) : (s.setBlock (s.slot sb (i, k)) b).byte sb j p =
      if j = i ∧ p / BSIZE = k then b (p % BSIZE) else s.byte sb j p := by
  rw [byte, byte, h.slot_setBlock hx hk.ne]
  by_cases hj : j = i ∧ p / BSIZE = k
  · obtain ⟨rfl, hp⟩ := hj
    rw [if_pos (show j = j ∧ p / BSIZE = k from ⟨rfl, hp⟩), hp, if_pos ⟨hk, hx⟩, setBlock_self]
  · rw [if_neg hj]
    split_ifs with h0
    · rw [setBlock_of_ne]
      intro he
      have := h.owns.inj _ _ h0.2 he
      rw [Prod.mk.injEq] at this
      exact hj this
    · rfl

/-! ## Allocation -/

/-- A free block behind the metadata has been marked and zeroed. -/
structure Took (sb : Superblock) (s t : FsState) (a : ℕ) : Prop where
  lo : sb.nmeta ≤ a
  hi : a < sb.size
  free : sb.bit s.disk a = false
  eq : t = { s with disk := update (sb.setBit s.disk a true) a fun _ => 0 }

lemma balloc_spec (h : s.Owned sb) : wp (Fs.balloc sb) s (fun a t =>
    (a = 0 ∧ t = s ∧ ∀ b, b < sb.size → sb.bit s.disk b = true) ∨ Took sb s t a)
    fun _ => False := by
  simp only [Fs.balloc, wp_bind, wp_get]
  cases hfind : (List.range sb.size).find? fun b => !sb.bit s.disk b with
  | none =>
    rw [wp_pure]
    refine .inl ⟨rfl, rfl, fun b hb => ?_⟩
    have := List.find?_eq_none.mp hfind b (List.mem_range.mpr hb)
    simpa using this
  | some a =>
    have hfree : sb.bit s.disk a = false := by simpa using List.find?_some hfind
    have hlt : a < sb.size := List.mem_range.mp (List.mem_of_find?_eq_some hfind)
    simp only [wp_bind, wp_set, wp_pure]
    refine .inr ⟨?_, hlt, hfree, rfl⟩
    by_contra hlo
    rw [h.metadata a (not_le.mp hlo)] at hfree
    cases hfree

namespace Took

variable (hsb : sb.WF) (ht : Took sb s t a)

include ht

lemma ne_zero : a ≠ 0 := by
  have := ht.lo
  have : 0 < sb.nmeta := nmeta_pos
  omega

lemma disk_self : t.disk a = fun _ => 0 := by
  rw [ht.eq]
  exact update_self ..

lemma disk_of_ne (hc : sb.nmeta ≤ c) (hne : c ≠ a) : t.disk c = s.disk c := by
  rw [ht.eq]
  show update _ _ _ c = _
  rw [update_of_ne hne, setBit_of_ne]
  have := bblock_lt ht.hi
  omega

lemma bit_eq (hc : c < sb.size ∨ c < sb.nmeta) :
    sb.bit t.disk c = if c = a then true else sb.bit s.disk c := by
  rw [ht.eq]
  rw [bit_update_of_ne (bblock_ne ht.lo hc (ht.lo.trans ht.hi.le)), bit_setBit]

lemma not_inUse : ¬ s.InUse sb a := by
  rintro ⟨-, -, h⟩
  rw [ht.free] at h
  cases h

lemma inUse_iff : t.InUse sb c ↔ s.InUse sb c ∨ c = a := by
  constructor
  · rintro ⟨h1, h2, h3⟩
    rw [ht.bit_eq (.inl h2)] at h3
    split_ifs at h3 with hc
    · exact .inr hc
    · exact .inl ⟨h1, h2, h3⟩
  · rintro (⟨h1, h2, h3⟩ | rfl)
    · refine ⟨h1, h2, ?_⟩
      rw [ht.bit_eq (.inl h2), h3, ite_self]
    · exact ⟨ht.lo, ht.hi, by rw [ht.bit_eq (.inl ht.hi), if_pos rfl]⟩

lemma slot_eq (h : s.Owned sb) (y : ℕ × ℕ) : t.slot sb y = s.slot sb y := by
  refine slots_congr (by rw [ht.eq]) (fun i hi hne => ?_) y
  exact ht.disk_of_ne (h.data hne).1 (h.owns.ne_of_not_used ht.ne_zero ht.not_inUse _)

lemma metadata (h : s.Owned sb) : ∀ b, b < sb.nmeta → sb.bit t.disk b = true := by
  intro b hb
  rw [ht.bit_eq (.inr hb), h.metadata b hb, ite_self]

include hsb in
lemma dinode_eq (hi : i < sb.ninodes) : sb.dinode t.disk i = sb.dinode s.disk i := by
  rw [ht.eq]
  have := ht.lo
  have := iblock_lt hsb hi
  rw [dinode_congr (update_of_ne (by omega) _ _), dinode_setBit hsb hi]

end Took

end FsState

end Xv6
