import Xv6.Log.Commit

/-!
# The layout of the file system on disk

Where `fs.h` puts things: bit `b` of the free map, dinode `i` in the inode blocks, entry `j` of an
indirect block. Each has a function that reads it from the disk and one that changes it, on the
bytes of the blocks; the lemmas say that a change is read back and that it leaves everything else
alone, so that nothing above this module looks at bytes of metadata again.

The disk is the one that the file system sees through the log and the buffer cache.
-/

namespace Xv6

open Function List ByteArr

/-! ## Dinodes -/

/-- `struct dinode`. -/
structure Dinode where
  type : ℤ
  major : ℤ
  minor : ℤ
  nlink : ℤ
  size : ℕ
  addrs : List ℕ
  deriving DecidableEq

def noAddrs : List ℕ := replicate (NDIRECT + 1) 0

namespace Dinode

/-- A free dinode that gets the type `type`. -/
def new (type : ℤ) : Dinode := ⟨type, 0, 0, 0, 0, noAddrs⟩

/-- `short` field number `f`. -/
def short (v : Dinode) : ℕ → ℤ
  | 0 => v.type
  | 1 => v.major
  | 2 => v.minor
  | _ => v.nlink

/-- The values fit into the fields. -/
structure Fits (v : Dinode) : Prop where
  short : ∀ f, -2 ^ 15 ≤ v.short f ∧ v.short f < 2 ^ 15
  size : v.size < 2 ^ 32
  length : v.addrs.length = NDIRECT + 1
  addrs : ∀ a ∈ v.addrs, a < 2 ^ 32

lemma new_fits {type : ℤ} (h : -2 ^ 15 ≤ type ∧ type < 2 ^ 15) : (new type).Fits := by
  refine ⟨fun f => ?_, by norm_num [new], rfl, fun a ha => ?_⟩
  · have h0 : -2 ^ 15 ≤ (0 : ℤ) ∧ (0 : ℤ) < 2 ^ 15 := by norm_num
    match f with
    | 0 => exact h
    | 1 | 2 | _ + 3 => exact h0
  · rw [eq_of_mem_replicate ha]
    norm_num

lemma Fits.of_free {v : Dinode} (h : v.Fits) : ({ v with type := 0 } : Dinode).Fits := by
  refine ⟨fun f => ?_, h.size, h.length, h.addrs⟩
  match f with
  | 0 => exact ⟨by norm_num [Dinode.short], by norm_num [Dinode.short]⟩
  | 1 => exact h.short 1
  | 2 => exact h.short 2
  | f + 3 => exact h.short 3

/-- The bytes of a dinode. -/
def encode (v : Dinode) (i : ℕ) : UInt8 :=
  if i < 8 then byteOf (v.short (i / 2) % 2 ^ 16).toNat (i % 2)
  else if i < 12 then byteOf v.size (i - 8)
  else byteOf (v.addrs.getD ((i - 12) / 4) 0) ((i - 12) % 4)

end Dinode

/-- Dinode number `k` of a block. -/
def getDinode (b : Block) (k : ℕ) : Dinode :=
  { type := toInt16 (word16 b (64 * k))
    major := toInt16 (word16 b (64 * k + 2))
    minor := toInt16 (word16 b (64 * k + 4))
    nlink := toInt16 (word16 b (64 * k + 6))
    size := word32 b (64 * k + 8)
    addrs := (range (NDIRECT + 1)).map fun j => word32 b (64 * k + 12 + 4 * j) }

def putDinode (b : Block) (k : ℕ) (v : Dinode) : Block := fun i =>
  if 64 * k ≤ i ∧ i < 64 * k + 64 then v.encode (i - 64 * k) else b i

lemma getDinode_congr {b b' : Block} {k k' : ℕ} (h : ∀ i < 64, b' (64 * k' + i) = b (64 * k + i)) :
    getDinode b' k' = getDinode b k := by
  have h16 : ∀ o, o + 2 ≤ 64 → word16 b' (64 * k' + o) = word16 b (64 * k + o) := fun o ho =>
    word16_congr fun i hi => by rw [Nat.add_assoc, Nat.add_assoc]; exact h _ (by omega)
  have h32 : ∀ o, o + 4 ≤ 64 → word32 b' (64 * k' + o) = word32 b (64 * k + o) := fun o ho =>
    word32_congr fun i hi => by rw [Nat.add_assoc, Nat.add_assoc]; exact h _ (by omega)
  have h0 := h16 0 (by omega)
  rw [Nat.add_zero, Nat.add_zero] at h0
  simp only [getDinode, h0, h16 2 (by omega), h16 4 (by omega), h16 6 (by omega), h32 8 (by omega),
    Dinode.mk.injEq, true_and]
  refine map_congr_left fun j hj => ?_
  rw [mem_range] at hj
  rw [Nat.add_assoc, Nat.add_assoc]
  exact h32 _ (by simp only [NDIRECT] at hj; omega)

lemma word16_encode {v : Dinode} (hv : v.Fits) {f : ℕ} (hf : f < 4) :
    toInt16 (word16 v.encode (2 * f)) = v.short f := by
  have hword : word16 v.encode (2 * f) = (v.short f % 2 ^ 16).toNat := by
    refine word16_of_bytes (by omega) fun j hj => ?_
    rw [Dinode.encode, if_pos (by omega), show (2 * f + j) / 2 = f by omega,
      show (2 * f + j) % 2 = j by omega]
  rw [hword]
  exact toInt16_toNat (hv.short f).1 (hv.short f).2

lemma word32_encode_size {v : Dinode} (hv : v.Fits) : word32 v.encode 8 = v.size := by
  refine word32_of_bytes hv.size fun j hj => ?_
  rw [Dinode.encode, if_neg (by omega), if_pos (by omega), Nat.add_sub_cancel_left]

lemma Dinode.Fits.getD_lt {v : Dinode} (hv : v.Fits) (j : ℕ) : v.addrs.getD j 0 < 2 ^ 32 := by
  rw [getD_eq_getElem?_getD]
  cases hj : v.addrs[j]? with
  | none => norm_num
  | some a => exact hv.addrs a (mem_of_getElem? hj)

lemma word32_encode_addr {v : Dinode} (hv : v.Fits) (j : ℕ) :
    word32 v.encode (12 + 4 * j) = v.addrs.getD j 0 := by
  refine word32_of_bytes (hv.getD_lt j) fun i hi => ?_
  rw [Dinode.encode, if_neg (by omega), if_neg (by omega),
    show (12 + 4 * j + i - 12) / 4 = j by omega, show (12 + 4 * j + i - 12) % 4 = i by omega]

lemma getDinode_encode {v : Dinode} (hv : v.Fits) : getDinode v.encode 0 = v := by
  have haddrs : (range (NDIRECT + 1)).map (fun j => word32 v.encode (64 * 0 + 12 + 4 * j)) =
      v.addrs := by
    refine ext_getElem (by simp [hv.length]) fun j h1 h2 => ?_
    rw [getElem_map, getElem_range]
    refine (word32_encode_addr hv j).trans ?_
    rw [getD_eq_getElem?_getD, getElem?_eq_getElem h2, Option.getD_some]
  cases v with
  | mk type major minor nlink size addrs =>
    rw [getDinode, haddrs]
    exact congr (congr (congr (congr (congr (congrArg Dinode.mk
      (word16_encode hv (f := 0) (by omega))) (word16_encode hv (f := 1) (by omega)))
      (word16_encode hv (f := 2) (by omega))) (word16_encode hv (f := 3) (by omega)))
      (word32_encode_size hv)) rfl

lemma getDinode_putDinode (b : Block) (k : ℕ) {v : Dinode} (hv : v.Fits) :
    getDinode (putDinode b k v) k = v := by
  have hsame : getDinode (putDinode b k v) k = getDinode v.encode 0 := by
    refine getDinode_congr fun i hi => ?_
    rw [putDinode, if_pos (by omega), Nat.add_sub_cancel_left, Nat.mul_zero, Nat.zero_add]
  rw [hsame, getDinode_encode hv]

lemma getDinode_putDinode_of_ne (b : Block) {k k' : ℕ} (v : Dinode) (h : k' ≠ k) :
    getDinode (putDinode b k v) k' = getDinode b k' :=
  getDinode_congr fun i hi => by rw [putDinode, if_neg (by omega)]

lemma getDinode_fits (b : Block) (k : ℕ) : (getDinode b k).Fits := by
  refine ⟨fun f => ?_, word32_lt _ _, by simp [getDinode], fun a ha => ?_⟩
  · match f with
    | 0 => exact toInt16_range (word16_lt _ _)
    | 1 => exact toInt16_range (word16_lt _ _)
    | 2 => exact toInt16_range (word16_lt _ _)
    | _ + 3 => exact toInt16_range (word16_lt _ _)
  · obtain ⟨j, -, rfl⟩ := mem_map.mp ha
    exact word32_lt _ _

/-! ## The disk -/

/-- The fields of `struct superblock` that the kernel uses. -/
structure Superblock where
  size : ℕ
  ninodes : ℕ
  inodestart : ℕ
  bmapstart : ℕ

namespace Superblock

/-- Block of the free map with the bit of block `b`. -/
def bblock (sb : Superblock) (b : ℕ) : ℕ := b / BPB + sb.bmapstart

/-- Block with dinode `i`. -/
def iblock (sb : Superblock) (i : ℕ) : ℕ := i / IPB + sb.inodestart

/-- The first block behind the metadata. -/
def nmeta (sb : Superblock) : ℕ := sb.bmapstart + (sb.size / BPB + 1)

/-- The inode blocks are before the free map, and that before the data; block numbers are `uint`. -/
structure WF (sb : Superblock) : Prop where
  inodes : ∀ i, i < sb.ninodes → sb.iblock i < sb.bmapstart
  size : sb.size < 2 ^ 32

variable (sb : Superblock)

def bit (d : Disk) (b : ℕ) : Bool := getBit (d (sb.bblock b) (b % BPB / 8)) (b % BPB % 8)

/-- `bp->data[bi / 8] |= m`, or `&= ~m`. -/
def setBit (d : Disk) (b : ℕ) (v : Bool) : Disk :=
  update d (sb.bblock b) (update (d (sb.bblock b)) (b % BPB / 8)
    ((if v then orBit else clearBit) (d (sb.bblock b) (b % BPB / 8)) (b % BPB % 8)))

def dinode (d : Disk) (i : ℕ) : Dinode := getDinode (d (sb.iblock i)) (i % IPB)

def setDinode (d : Disk) (i : ℕ) (v : Dinode) : Disk :=
  update d (sb.iblock i) (putDinode (d (sb.iblock i)) (i % IPB) v)

variable {sb} {d d' : Disk} {a b i j : ℕ} {v : Bool} {blk : Block}

lemma bblock_lt (h : b < sb.size) : sb.bblock b < sb.nmeta := by
  have : b / BPB ≤ sb.size / BPB := Nat.div_le_div_right h.le
  simp only [bblock, nmeta]
  omega

lemma le_bblock : sb.bmapstart ≤ sb.bblock b := Nat.le_add_left _ _

lemma bit_setBit (d : Disk) (a b : ℕ) (v : Bool) :
    sb.bit (sb.setBit d a v) b = if b = a then v else sb.bit d b := by
  by_cases hblock : sb.bblock b = sb.bblock a
  · have hdiv : b / BPB = a / BPB := by
      simp only [bblock] at hblock
      omega
    simp only [bit, setBit, hblock, update_self]
    by_cases hbyte : b % BPB / 8 = a % BPB / 8
    · rw [hbyte, update_self]
      have hiff : b % BPB % 8 = a % BPB % 8 ↔ b = a := by
        constructor
        · intro h8
          have h1 := Nat.div_add_mod (b % BPB) 8
          have h2 := Nat.div_add_mod (a % BPB) 8
          have h3 := Nat.div_add_mod b BPB
          have h4 := Nat.div_add_mod a BPB
          rw [← h3, ← h4, ← h1, ← h2, hdiv, hbyte, h8]
        · rintro rfl
          rfl
      have h8 : b % BPB % 8 < 8 := Nat.mod_lt _ (by norm_num)
      cases v with
      | true =>
        simp only [if_true, getBit_orBit h8, hiff]
        by_cases he : b = a <;> simp [he]
      | false =>
        simp only [Bool.false_eq_true, if_false, getBit_clearBit h8, hiff]
        by_cases he : b = a <;> simp [he]
    · rw [update_of_ne hbyte, if_neg]
      rintro rfl
      exact hbyte rfl
  · rw [bit, setBit, update_of_ne hblock, if_neg, bit]
    rintro rfl
    exact hblock rfl

lemma setBit_of_ne (h : b ≠ sb.bblock a) : sb.setBit d a v b = d b := update_of_ne h _ _

lemma bit_congr (h : d' (sb.bblock b) = d (sb.bblock b)) : sb.bit d' b = sb.bit d b := by
  rw [bit, bit, h]

lemma bit_update_of_ne (h : a ≠ sb.bblock b) : sb.bit (update d a blk) b = sb.bit d b :=
  bit_congr (update_of_ne h.symm _ _)

lemma bit_setDinode (hsb : sb.WF) (hi : i < sb.ninodes) {v : Dinode} :
    sb.bit (sb.setDinode d i v) b = sb.bit d b := by
  have := hsb.inodes i hi
  have : sb.bmapstart ≤ sb.bblock b := le_bblock
  exact bit_update_of_ne (by omega)

lemma setDinode_of_ne {v : Dinode} (h : b ≠ sb.iblock i) : sb.setDinode d i v b = d b :=
  update_of_ne h _ _

lemma dinode_setDinode {v : Dinode} (hv : v.Fits) :
    sb.dinode (sb.setDinode d i v) j = if j = i then v else sb.dinode d j := by
  by_cases hij : j = i
  · subst hij
    rw [if_pos rfl, dinode, setDinode, update_self, getDinode_putDinode _ _ hv]
  · rw [if_neg hij, dinode, dinode, setDinode]
    by_cases hblock : sb.iblock j = sb.iblock i
    · have hmod : j % IPB ≠ i % IPB := by
        intro hmod
        simp only [iblock] at hblock
        have h1 := Nat.div_add_mod j IPB
        have h2 := Nat.div_add_mod i IPB
        exact hij (by rw [← h1, ← h2, hmod, show j / IPB = i / IPB by omega])
      rw [hblock, update_self, getDinode_putDinode_of_ne _ _ hmod]
    · rw [update_of_ne hblock]

lemma dinode_congr (h : d' (sb.iblock i) = d (sb.iblock i)) : sb.dinode d' i = sb.dinode d i := by
  rw [dinode, dinode, h]

lemma dinode_setBit (hsb : sb.WF) (hi : i < sb.ninodes) :
    sb.dinode (sb.setBit d b v) i = sb.dinode d i := by
  have := hsb.inodes i hi
  have : sb.bmapstart ≤ sb.bblock b := le_bblock
  exact dinode_congr (setBit_of_ne (by omega))

lemma iblock_lt (hsb : sb.WF) (hi : i < sb.ninodes) : sb.iblock i < sb.nmeta :=
  (hsb.inodes i hi).trans_le (Nat.le_add_right _ _)

end Superblock

end Xv6
