import Xv6.Fs.Content

/-!
# Freeing the blocks of a file

`itrunc` frees every block of an inode. The direct blocks are freed one by one together with their
slots, but the entries of the indirect block are not cleared when their blocks are freed: in
between, the slots that still own a block are not those that the state shows. `Freeing s t inum ref`
therefore carries the slots that count, `ref`, and says that otherwise only the free map has
changed. `itrunc_spec` puts the pieces together.
-/

namespace Xv6.FsState

open ByteArr Prog Superblock List

variable {sb : Superblock} {s t u : FsState} {i j k a inum n : ℕ} {x y : ℕ × ℕ} {ref : ℕ × ℕ → ℕ}
  {v w : Dinode}

/-- While `itrunc` runs: `ref` are the blocks still owned. -/
structure Freeing (sb : Superblock) (s t : FsState) (inum : ℕ) (ref : ℕ × ℕ → ℕ) : Prop where
  owns : Owns ref (t.InUse sb)
  metadata : ∀ b, b < sb.nmeta → sb.bit t.disk b = true
  ino : ∀ j, j ≠ inum → t.ino j = s.ino j
  disk : ∀ b, (∀ c, c < sb.size → b ≠ sb.bblock c) → t.disk b = s.disk b

lemma Freeing.refl (h : s.Owned sb) : Freeing sb s s inum (s.slot sb) :=
  ⟨h.owns, h.metadata, fun _ _ => rfl, fun _ _ => rfl⟩

lemma Freeing.congr {ref' : ℕ × ℕ → ℕ} (h : Freeing sb s t inum ref) (href : ∀ y, ref' y = ref y) :
    Freeing sb s t inum ref' := by
  obtain rfl : ref' = ref := funext href
  exact h

lemma Freeing.disk_data (h : Freeing sb s t inum ref) (ha : sb.nmeta ≤ a) :
    t.disk a = s.disk a := by
  refine h.disk a fun c hc => ?_
  have := bblock_lt hc
  omega

lemma Freeing.setInode {v : Dinode} (h : Freeing sb s t inum ref) :
    Freeing sb s (t.setInode inum v) inum ref :=
  ⟨h.owns, h.metadata, fun j hj => (Function.update_of_ne hj _ _).trans (h.ino j hj), h.disk⟩

lemma Freeing.bfree (h : Freeing sb s t inum ref) (hx : ref x ≠ 0) :
    wp (Fs.bfree sb (ref x)) t (fun _ u => u.ino = t.ino ∧
      Freeing sb s u inum fun y => if y = x then 0 else ref y) fun _ => False := by
  obtain ⟨hlo, hhi, hbit⟩ := h.owns.used_ref hx
  simp only [Fs.bfree, wp_bind, wp_get, hbit]
  rw [wp_ite]
  refine ⟨fun hf => absurd hf (by decide), fun _ => wp_set.mpr ⟨rfl, ?_, fun b hb => ?_, h.ino,
    fun b hb => ?_⟩⟩
  · refine h.owns.erase hx (fun _ => rfl) fun b hb => ?_
    simp only [InUse, bit_setBit]
    constructor
    · rintro ⟨h1, h2, h3⟩
      split_ifs at h3 with he
      exact ⟨⟨h1, h2, h3⟩, he⟩
    · rintro ⟨⟨h1, h2, h3⟩, he⟩
      exact ⟨h1, h2, by rwa [if_neg he]⟩
  · rw [bit_setBit, if_neg (by omega)]
    exact h.metadata b hb
  · exact (setBit_of_ne (hb _ hhi)).trans (h.disk b hb)

/-- The slots of `inum` from `n` on are left. -/
def above (sb : Superblock) (s : FsState) (inum n : ℕ) (y : ℕ × ℕ) : ℕ :=
  if y.1 = inum ∧ y.2 < n then 0 else s.slot sb y

lemma above_zero : s.above sb inum 0 = s.slot sb := by
  funext y
  rw [above, if_neg (by omega)]

lemma above_self : s.above sb inum n (inum, n) = s.slot sb (inum, n) := by
  rw [above, if_neg (by simp)]

lemma above_succ (y : ℕ × ℕ) :
    s.above sb inum (n + 1) y = if y = (inum, n) then 0 else s.above sb inum n y := by
  obtain ⟨i, k⟩ := y
  simp only [above, Prod.mk.injEq]
  by_cases hi : i = inum
  · by_cases hk : k = n
    · rw [if_pos ⟨hi, by omega⟩, if_pos ⟨hi, hk⟩]
    · simp only [hi, hk, true_and, if_false, show k < n + 1 ↔ k < n by omega]
  · simp only [hi, false_and, if_false]

lemma Freeing.next (h : Freeing sb s t inum (s.above sb inum n)) (ha : s.slot sb (inum, n) = a) :
    wp (do if a ≠ 0 then Fs.bfree sb a) t (fun _ u => u.ino = t.ino ∧
      Freeing sb s u inum (s.above sb inum (n + 1))) fun _ => False := by
  have hself : s.above sb inum n (inum, n) = a := above_self.trans ha
  rw [wp_ite]
  refine ⟨fun hne => ?_, fun h0 => wp_pure.mpr ⟨rfl, h.congr fun y => ?_⟩⟩
  · rw [← hself] at hne ⊢
    exact (h.bfree hne).post fun _ u hu => ⟨hu.1, hu.2.congr above_succ⟩
  · rw [above_succ]
    split_ifs with hy
    · rw [hy, hself]
      exact (not_not.mp h0).symm
    · rfl

/-- `inum` differs from before in the slots of `addrs` below `n` only, which are empty. -/
structure Emptied (v w : Dinode) (n : ℕ) : Prop where
  fields : w = { v with addrs := w.addrs }
  length : w.addrs.length = v.addrs.length
  addrs : ∀ l, w.addrs.getD l 0 = if l < n then 0 else v.addrs.getD l 0

lemma Emptied.refl {v : Dinode} : Emptied v v 0 :=
  ⟨rfl, rfl, fun l => by rw [if_neg (Nat.not_lt_zero l)]⟩

lemma Emptied.set (h : Emptied v w n) (hn : n < v.addrs.length) :
    Emptied v { w with addrs := w.addrs.set n 0 } (n + 1) := by
  refine ⟨by rw [h.fields], (length_set ..).trans h.length, fun l => ?_⟩
  rw [getD_set (by rw [h.length]; exact hn), h.addrs]
  by_cases hl : l = n
  · rw [if_pos hl, if_pos (by omega)]
  · simp only [hl, if_false, show l < n + 1 ↔ l < n by omega]

lemma Emptied.skip (h : Emptied v w n) (h0 : v.addrs.getD n 0 = 0) : Emptied v w (n + 1) := by
  refine ⟨h.fields, h.length, fun l => ?_⟩
  rw [h.addrs]
  by_cases hl : l = n
  · rw [if_neg (by omega), if_pos (by omega), hl, h0]
  · simp only [show l < n + 1 ↔ l < n by omega]

/-- The effect of `itrunc`. -/
structure Truncated (sb : Superblock) (s t : FsState) (inum : ℕ) : Prop where
  owned : t.Owned sb
  self : t.ino inum = { s.ino inum with size := 0, addrs := noAddrs }
  ino : ∀ j, j ≠ inum → t.ino j = s.ino j
  empty : ∀ k, t.slot sb (inum, k) = 0
  slot : ∀ y, y.1 ≠ inum → t.slot sb y = s.slot sb y
  disk : ∀ b, (∀ c, c < sb.size → b ≠ sb.bblock c) → b ≠ sb.iblock inum → t.disk b = s.disk b
  dinode : ∀ i, i < sb.ninodes →
    sb.dinode t.disk i = if i = inum then t.ino inum else sb.dinode s.disk i

lemma slot_of_noAddrs (hv : (s.ino i).addrs = noAddrs) (k : ℕ) : s.slot sb (i, k) = 0 := by
  have hget : ∀ k, noAddrs.getD k 0 = 0 := fun k => by
    rw [noAddrs, getD_eq_getElem?_getD, getElem?_replicate]
    split_ifs <;> rfl
  simp only [slot, slotAddr, hv, hget, if_true, ite_self]

lemma slot_no_ind (ha : s.addr i IND = 0) (hk : ¬ k < NDIRECT) : s.slot sb (i, k) = 0 := by
  rw [addr] at ha
  simp only [slot, slotAddr, hk, ha, if_true, if_false, ite_self]

lemma Freeing.truncated (hsb : sb.WF) (h : s.Owned sb) (hi : inum < sb.ninodes)
    (hf : Freeing sb s t inum fun y => if y.1 = inum then 0 else s.slot sb y)
    (hv : t.ino inum = { s.ino inum with size := 0, addrs := noAddrs }) :
    Truncated sb s (t.updated sb inum) inum := by
  have hempty : ∀ k, t.slot sb (inum, k) = 0 := fun k => slot_of_noAddrs (by rw [hv]) k
  have hslot : ∀ y, t.slot sb y = if y.1 = inum then 0 else s.slot sb y := by
    rintro ⟨i, k⟩
    split_ifs with hii
    · obtain rfl : i = inum := hii
      exact hempty k
    · by_cases hi' : i < sb.ninodes
      · refine slot_congr (hf.ino i hii) fun ha => hf.disk_data ?_
        have hind : s.slot sb (i, MAXFILE) = s.addr i IND := slot_ind hi'
        rw [← hind] at ha ⊢
        exact (h.data ha).1
      · rw [slot, slot, if_neg hi', if_neg hi']
  have hfits := h.fits inum hi
  have howned : t.Owned sb := by
    refine ⟨fun i hi' => ?_, hf.owns.congr hslot fun _ _ => Iff.rfl, hf.metadata⟩
    by_cases hii : i = inum
    · rw [hii, hv]
      refine ⟨hfits.short, by norm_num, rfl, fun a ha => ?_⟩
      rw [eq_of_mem_replicate ha]
      norm_num
    · rw [hf.ino i hii]
      exact h.fits i hi'
  refine ⟨howned.updated hsb hi, hv, hf.ino, fun k => ?_, fun y hy => ?_, fun b hb hne => ?_,
    fun i hi' => ?_⟩
  · rw [slot_updated hsb howned hi]
    exact hempty k
  · rw [slot_updated hsb howned hi, hslot, if_neg hy]
  · exact (setDinode_of_ne hne).trans (hf.disk b hb)
  · rw [dinode_updated howned hi]
    split_ifs
    · rfl
    · refine dinode_congr (hf.disk _ fun c _ => ?_)
      have := hsb.inodes i hi'
      have : sb.bmapstart ≤ sb.bblock c := le_bblock
      omega

lemma itrunc_spec (hsb : sb.WF) (h : s.Owned sb) (hi : inum < sb.ninodes) :
    wp (Fs.itrunc sb inum) s (fun _ t => Truncated sb s t inum) fun _ => False := by
  have hlen := (h.fits inum hi).length
  simp only [Fs.itrunc, wp_bind]
  refine (wp_forRange (fun n t => Freeing sb s t inum (s.above sb inum n) ∧
    Emptied (s.ino inum) (t.ino inum) n)
    ⟨by rw [above_zero]; exact .refl h, .refl⟩ ?_).post fun _ t ht => ?_
  · -- a direct block
    rintro n t - hn ⟨hf, he⟩
    rw [Nat.zero_add] at hn
    have haddr : t.addr inum n = s.addr inum n := (he.addrs n).trans (if_neg (by omega))
    have hslot : s.slot sb (inum, n) = t.addr inum n := (slot_direct hi hn).trans haddr.symm
    simp only [wp_bind, wp_get]
    rw [wp_ite]
    refine ⟨fun hne => ?_, fun h0 => wp_pure.mpr ⟨?_, he.skip ?_⟩⟩
    · rw [wp_bind]
      have hnext := hf.next hslot
      rw [if_pos hne] at hnext
      refine hnext.post fun _ u hu => wp_modify.mpr ⟨hu.2.setInode, ?_⟩
      simp only [setAddr, setInode, Function.update_self, hu.1]
      exact he.set (by rw [hlen]; omega)
    · have hnext := hf.next hslot
      rw [if_neg h0] at hnext
      exact (wp_pure.mp hnext).2
    · rw [haddr] at h0
      exact not_not.mp h0
  rw [Nat.zero_add] at ht
  obtain ⟨hf, he⟩ := ht
  have haddr : t.addr inum IND = s.addr inum IND := (he.addrs IND).trans (if_neg (by simp))
  have hind : s.slot sb (inum, MAXFILE) = s.addr inum IND := slot_ind hi
  -- what is left when all slots are empty
  have hfinish : ∀ u : FsState, Freeing sb s u inum (s.above sb inum (MAXFILE + 1)) →
      Emptied (s.ino inum) (u.ino inum) (IND + 1) →
      Truncated sb s ((u.setInode inum { u.ino inum with size := 0 }).updated sb inum) inum := by
    intro u hu hue
    refine Freeing.truncated hsb h hi (hu.setInode.congr fun y => ?_) ?_
    · obtain ⟨i, k⟩ := y
      rw [above]
      by_cases hii : i = inum
      · by_cases hk : k < MAXFILE + 1
        · rw [if_pos hii, if_pos ⟨hii, hk⟩]
        · rw [if_pos hii, if_neg fun hc => hk hc.2, slot_of_gt (by omega)]
      · rw [if_neg hii, if_neg fun hc => hii hc.1]
    · have haddrs : (u.ino inum).addrs = noAddrs := by
        refine eq_replicate_iff.mpr ⟨hue.length.trans hlen, fun a ha => ?_⟩
        obtain ⟨l, hl, rfl⟩ := mem_iff_getElem.mp ha
        have := hue.addrs l
        rw [hue.length, hlen] at hl
        rw [if_pos hl, getD_eq_getElem?_getD, getElem?_eq_getElem] at this
        exact this
      simp only [setInode, Function.update_self, haddrs]
      rw [hue.fields]
  simp only [wp_get]
  rw [wp_ite]
  refine ⟨fun hne => ?_, fun h0 => ?_⟩
  · rw [haddr] at hne ⊢
    simp only [wp_bind]
    have hdata : sb.nmeta ≤ s.addr inum IND := by
      rw [← hind] at hne ⊢
      exact (h.data hne).1
    refine (wp_forRange (fun j u => Freeing sb s u inum (s.above sb inum (NDIRECT + j)) ∧
      u.ino = t.ino) ⟨hf, rfl⟩ ?_).post fun _ u hu => ?_
    · rintro j u - hj ⟨hfu, hino⟩
      rw [Nat.zero_add] at hj
      rw [hf.disk_data hdata]
      refine (hfu.next ?_).post fun _ w hw => ⟨hw.2, hw.1.trans hino⟩
      rw [slot_entry hi (by omega) (by simp only [MAXFILE]; omega) hne, Nat.add_sub_cancel_left]
    · rw [Nat.zero_add] at hu
      have hlast := hu.1.next hind
      rw [if_pos hne] at hlast
      refine hlast.post fun _ w hw => ?_
      simp only [wp_modify]
      refine iupdate_spec ?_
      refine hfinish (w.setAddr inum IND 0) hw.2.setInode ?_
      simp only [setAddr, setInode, Function.update_self, hw.1, hu.2]
      exact he.set (by rw [hlen]; omega)
  · rw [haddr] at h0
    refine iupdate_spec (hfinish t (hf.congr fun y => ?_) (he.skip (not_not.mp h0)))
    obtain ⟨i, k⟩ := y
    simp only [above]
    by_cases hc : i = inum ∧ k < NDIRECT
    · rw [if_pos hc, if_pos ⟨hc.1, by simp only [MAXFILE]; omega⟩]
    · rw [if_neg hc]
      split_ifs with hc'
      · rw [hc'.1, slot_no_ind (not_not.mp h0) fun hk => hc ⟨hc'.1, hk⟩]
      · rfl

end Xv6.FsState
