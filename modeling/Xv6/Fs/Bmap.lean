import Xv6.Fs.Inode

/-!
# Allocating the blocks of a file

What `bmap` does to a consistent file system. `Grew s t inum` is the whole effect: some empty slots
of `inum` got blocks, and no byte of any file changed, since new blocks are zero. The three places
where `bmap` allocates (a direct block, the indirect block, an entry of the indirect block) differ
only in where the block number is stored; `Grew.of_took` is the part they share.
-/

namespace Xv6.FsState

open ByteArr Prog

variable {sb : Superblock} {s t u : FsState} {i j k a inum : ℕ} {x y : ℕ × ℕ}

/-- Inode `inum` may have got blocks of zeros. -/
structure Grew (sb : Superblock) (s t : FsState) (inum : ℕ) : Prop where
  owned : t.Owned sb
  ino : ∀ j, j ≠ inum → t.ino j = s.ino j
  fields : t.ino inum = { s.ino inum with addrs := (t.ino inum).addrs }
  slot : ∀ x, s.slot sb x ≠ 0 → t.slot sb x = s.slot sb x
  other : ∀ x, x.1 ≠ inum → t.slot sb x = s.slot sb x
  byte : ∀ i p, t.byte sb i p = s.byte sb i p
  dinode : ∀ i, i < sb.ninodes → sb.dinode t.disk i = sb.dinode s.disk i

lemma Grew.refl (h : s.Owned sb) : Grew sb s s inum :=
  ⟨h, fun _ _ => rfl, rfl, fun _ _ => rfl, fun _ _ => rfl, fun _ _ => rfl, fun _ _ => rfl⟩

lemma Grew.trans (h1 : Grew sb s t inum) (h2 : Grew sb t u inum) : Grew sb s u inum := by
  refine ⟨h2.owned, fun j hj => (h2.ino j hj).trans (h1.ino j hj), ?_, fun x hx => ?_,
    fun x hx => (h2.other x hx).trans (h1.other x hx), fun i p => (h2.byte i p).trans (h1.byte i p),
    fun i hi => (h2.dinode i hi).trans (h1.dinode i hi)⟩
  · rw [h2.fields, h1.fields]
  · rw [h2.slot x (by rw [h1.slot x hx]; exact hx), h1.slot x hx]

/-- No block is free. -/
def Full (sb : Superblock) (s : FsState) : Prop := ∀ b, b < sb.size → sb.bit s.disk b = true

lemma Grew.of_took (h : s.Owned sb) (ht : Took sb s u a) (hx : s.slot sb x = 0)
    (hxi : x.1 = inum) (hslot : ∀ y, t.slot sb y = if y = x then a else s.slot sb y)
    (hfits : ∀ i, i < sb.ninodes → (t.ino i).Fits)
    (hbit : ∀ c, (c < sb.size ∨ c < sb.nmeta) → sb.bit t.disk c = sb.bit u.disk c)
    (hdata : ∀ y, y.2 < MAXFILE → t.slot sb y ≠ 0 → t.disk (t.slot sb y) = u.disk (t.slot sb y))
    (hino : ∀ j, j ≠ inum → t.ino j = s.ino j)
    (hfields : t.ino inum = { s.ino inum with addrs := (t.ino inum).addrs })
    (hdin : ∀ i, i < sb.ninodes → sb.dinode t.disk i = sb.dinode s.disk i) :
    Grew sb s t inum := by
  have hslot' : ∀ y, y ≠ x → t.slot sb y = s.slot sb y := fun y hy => by rw [hslot, if_neg hy]
  refine ⟨⟨hfits, ?_, fun b hb => ?_⟩, hino, hfields, fun y hy => ?_, fun y hy => ?_,
    fun i p => ?_, hdin⟩
  · refine h.owns.insert ht.ne_zero ht.not_inUse hx hslot fun c hc => ?_
    rw [← ht.inUse_iff]
    refine and_congr_right fun _ => and_congr_right fun hlt => ?_
    rw [hbit c (.inl hlt)]
  · rw [hbit b (.inr hb)]
    exact ht.metadata h b hb
  · exact hslot' y (fun he => hy (he ▸ hx))
  · exact hslot' y (fun he => hy (he ▸ hxi))
  · -- the new block is zero, and all others are as they were
    rw [FsState.byte, FsState.byte]
    by_cases hlt : p / BSIZE < MAXFILE
    · by_cases hy : (i, p / BSIZE) = x
      · have hnew : t.slot sb (i, p / BSIZE) = a := by rw [hslot, if_pos hy]
        have hd := hdata (i, p / BSIZE) hlt (by rw [hnew]; exact ht.ne_zero)
        rw [hnew] at hd
        rw [hnew, hy, if_pos ⟨hlt, ht.ne_zero⟩, hd, ht.disk_self, if_neg (fun hc => hc.2 hx)]
      · rw [hslot' _ hy]
        split_ifs with hc
        · have hd := hdata (i, p / BSIZE) hlt (by rw [hslot' _ hy]; exact hc.2)
          rw [hslot' _ hy] at hd
          rw [hd, ht.disk_of_ne (h.data hc.2).1 (h.owns.ne_of_not_used ht.ne_zero ht.not_inUse _)]
        · rfl
    · rw [if_neg fun hc => hlt hc.1, if_neg fun hc => hlt hc.1]

lemma getD_set {l : List ℕ} (hk : k < l.length) :
    (l.set k a).getD j 0 = if j = k then a else l.getD j 0 := by
  rw [List.getD_eq_getElem?_getD, List.getD_eq_getElem?_getD, List.getElem?_set]
  by_cases h : k = j
  · subst h
    simp [hk]
  · simp [h, Ne.symm h]

lemma addr_setAddr (hk : k < (s.ino i).addrs.length) (l : ℕ) :
    (s.setAddr i k a).addr i l = if l = k then a else s.addr i l := by
  simp only [addr, setAddr, setInode, Function.update_self]
  exact getD_set hk

lemma ino_setAddr_of_ne (h : j ≠ i) : (s.setAddr i k a).ino j = s.ino j :=
    Function.update_of_ne h _ _

lemma fits_setAddr (h : (s.ino i).Fits) (ha : a < 2 ^ 32) : ((s.setAddr i k a).ino i).Fits := by
  simp only [setAddr, setInode, Function.update_self]
  refine ⟨h.short, h.size, by simpa using h.length, fun c hc => ?_⟩
  rcases List.mem_or_eq_of_mem_set hc with hc | rfl
  · exact h.addrs c hc
  · exact ha

lemma slot_setAddr_direct (h : (s.ino i).Fits) (hi : i < sb.ninodes) (hk : k < NDIRECT)
    (y : ℕ × ℕ) : (s.setAddr i k a).slot sb y = if y = (i, k) then a else s.slot sb y := by
  obtain ⟨j, l⟩ := y
  have hlen : k < (s.ino i).addrs.length := by
    rw [h.length]
    omega
  by_cases hj : j = i
  · subst hj
    have haddr := addr_setAddr (a := a) hlen
    have hind : (s.setAddr j k a).addr j IND = s.addr j IND := by rw [haddr, if_neg hk.ne']
    by_cases hl : l < NDIRECT
    · rw [slot_direct hi hl, slot_direct hi hl, haddr]
      simp only [Prod.mk.injEq, true_and]
    · have hne : ¬ ((j, l) : ℕ × ℕ) = (j, k) := by
        intro he
        rw [Prod.mk.injEq] at he
        omega
      rw [if_neg hne]
      by_cases hl' : l < MAXFILE
      · by_cases h0 : s.addr j IND = 0
        · rw [addr] at h0
          rw [addr, addr] at hind
          simp only [slot, hi, if_true, slotAddr, hl, hl', if_false, hind, h0]
        · rw [slot_entry hi hl hl' (by rw [hind]; exact h0), slot_entry hi hl hl' h0, hind]
          rfl
      · by_cases hl'' : l = MAXFILE
        · subst hl''
          rw [slot_ind hi, slot_ind hi, hind]
        · rw [slot_of_gt (by omega), slot_of_gt (by omega)]
  · have hne : ¬ ((j, l) : ℕ × ℕ) = (i, k) := by
      intro he
      rw [Prod.mk.injEq] at he
      exact hj he.1
    rw [if_neg hne]
    exact slot_congr (ino_setAddr_of_ne hj) fun _ => rfl

-- A fresh indirect block is zero, so that its entries are empty, as they were without it.
lemma slot_setAddr_ind (h : (s.ino i).Fits) (hi : i < sb.ninodes) (h0 : s.addr i IND = 0)
    (hzero : s.disk a = fun _ => 0) (ha : a ≠ 0) (y : ℕ × ℕ) :
    (s.setAddr i IND a).slot sb y = if y = (i, MAXFILE) then a else s.slot sb y := by
  obtain ⟨j, l⟩ := y
  have hlen : IND < (s.ino i).addrs.length := by
    rw [h.length]
    exact Nat.lt_succ_self _
  by_cases hj : j = i
  · subst hj
    have haddr := addr_setAddr (a := a) hlen
    have hind : (s.setAddr j IND a).addr j IND = a := by rw [haddr, if_pos rfl]
    by_cases hl'' : l = MAXFILE
    · subst hl''
      rw [if_pos rfl, slot_ind hi, hind]
    · rw [if_neg fun he => hl'' (congrArg Prod.snd he)]
      by_cases hl : l < NDIRECT
      · rw [slot_direct hi hl, slot_direct hi hl, haddr, if_neg hl.ne]
      · by_cases hl' : l < MAXFILE
        · rw [slot_entry hi hl hl' (by rw [hind]; exact ha), hind]
          have hs : s.slot sb (j, l) = 0 := by
            rw [addr] at h0
            simp only [slot, hi, if_true, slotAddr, hl, hl', if_false, h0]
          rw [hs]
          show word32 (s.disk a) _ = 0
          rw [hzero]
          rfl
        · rw [slot_of_gt (by omega), slot_of_gt (by omega)]
  · rw [if_neg fun he => hj (congrArg Prod.fst he)]
    exact slot_congr (ino_setAddr_of_ne hj) fun _ => rfl

lemma Took.fits (ht : Took sb s t a) (h : s.Owned sb) (i : ℕ) (hi : i < sb.ninodes) :
    (t.ino i).Fits := by
  rw [ht.eq]
  exact h.fits i hi

/-- The slot of `addrs[k]`. -/
def slotOf (k : ℕ) : ℕ := if k < NDIRECT then k else MAXFILE

lemma slot_slotOf (hi : i < sb.ninodes) (hk : k ≤ IND) : s.slot sb (i, slotOf k) = s.addr i k := by
  rw [slotOf]
  split_ifs with hlt
  · exact slot_direct hi hlt
  · obtain rfl : k = IND := le_antisymm hk (not_lt.mp hlt)
    exact slot_ind hi

/-- What `bmap` does at the slot `x`: it returns the block there, or one that `f` enters. -/
lemma fill_spec (h : s.Owned sb) {x : ℕ × ℕ} {f : ℕ → FsState → FsState}
    (hf : ∀ a u, Took sb s u a → s.slot sb x = 0 → Grew sb s (f a u) inum ∧
      ∀ y, (f a u).slot sb y = if y = x then a else s.slot sb y) :
    wp (if s.slot sb x = 0 then do
        let addr ← Fs.balloc sb
        if addr = 0 then return 0
        else
          modify (f addr)
          return addr
      else return s.slot sb x) s
      (fun r t => Grew sb s t inum ∧ (r = 0 → t = s ∧ s.Full sb) ∧ (r ≠ 0 → t.slot sb x = r) ∧
        (s.slot sb x ≠ 0 → t = s ∧ r = s.slot sb x) ∧
        ∀ y, y ≠ x → t.slot sb y = s.slot sb y) fun _ => False := by
  rw [wp_ite]
  refine ⟨fun h0 => ?_, fun hne => ?_⟩
  · rw [wp_bind]
    refine (balloc_spec h).post fun a u hu => ?_
    rw [wp_ite]
    rcases hu with ⟨rfl, rfl, hfull⟩ | ht
    · refine ⟨fun _ => wp_pure.mpr ?_, fun hne => absurd rfl hne⟩
      exact ⟨Grew.refl h, fun _ => ⟨rfl, hfull⟩, fun hne => absurd rfl hne,
        fun hne => absurd h0 hne, fun _ _ => rfl⟩
    · refine ⟨fun ha => absurd ha ht.ne_zero, fun ha => ?_⟩
      simp only [wp_bind, wp_modify, wp_pure]
      obtain ⟨hgrew, hslot⟩ := hf a u ht h0
      exact ⟨hgrew, fun h0' => absurd h0' ha, fun _ => by rw [hslot, if_pos rfl],
        fun hne => absurd h0 hne, fun y hy => by rw [hslot, if_neg hy]⟩
  · rw [wp_pure]
    exact ⟨Grew.refl h, fun h0 => absurd h0 hne, fun _ => rfl, fun _ => ⟨rfl, rfl⟩, fun _ _ => rfl⟩

lemma bmapAddr_spec (hsb : sb.WF) (h : s.Owned sb) (hi : inum < sb.ninodes) (hk : k ≤ IND) :
    wp (Fs.bmapAddr sb inum k) s (fun r t => Grew sb s t inum ∧ (r = 0 → t = s ∧ s.Full sb) ∧
      (r ≠ 0 → t.addr inum k = r) ∧ (s.addr inum k ≠ 0 → t = s ∧ r = s.addr inum k) ∧
      ∀ y, y ≠ (inum, slotOf k) → t.slot sb y = s.slot sb y) fun _ => False := by
  simp only [Fs.bmapAddr, wp_bind, wp_get, ← slot_slotOf hi hk]
  refine fill_spec h fun a u ht h0 => ?_
  have hfits := ht.fits h inum hi
  have hino : u.ino = s.ino := by rw [ht.eq]
  have hu0 : u.addr inum k = 0 := by
    rw [addr, hino]
    exact (slot_slotOf hi hk).symm.trans h0
  have hlt : a < 2 ^ 32 := ht.hi.trans hsb.size
  have hslot : ∀ y, (u.setAddr inum k a).slot sb y =
      if y = (inum, slotOf k) then a else s.slot sb y := by
    intro y
    rw [← ht.slot_eq h y, slotOf]
    split_ifs with hlt' hy hy
    · rw [slot_setAddr_direct hfits hi hlt', if_pos hy]
    · rw [slot_setAddr_direct hfits hi hlt', if_neg hy]
    · obtain rfl : k = IND := le_antisymm hk (not_lt.mp hlt')
      rw [slot_setAddr_ind hfits hi hu0 ht.disk_self ht.ne_zero, if_pos hy]
    · obtain rfl : k = IND := le_antisymm hk (not_lt.mp hlt')
      rw [slot_setAddr_ind hfits hi hu0 ht.disk_self ht.ne_zero, if_neg hy]
  refine ⟨Grew.of_took h ht h0 rfl hslot (fun i hi' => ?_) (fun c _ => rfl) (fun y _ _ => rfl)
    (fun j hj => ?_) ?_ fun i hi' => ?_, hslot⟩
  · by_cases hii : i = inum
    · subst hii
      exact fits_setAddr hfits hlt
    · rw [ino_setAddr_of_ne hii]
      exact ht.fits h i hi'
  · rw [ino_setAddr_of_ne hj, hino]
  · simp only [setAddr, setInode, Function.update_self, hino]
  · show sb.dinode u.disk i = _
    exact ht.dinode_eq hsb hi'

lemma slot_putEntry (h : s.Owned sb) (hi : i < sb.ninodes) (hind : s.addr i IND ≠ 0)
    (hj : j < NINDIRECT) (ha : a < 2 ^ 32) (y : ℕ × ℕ) :
    (s.setBlock (s.addr i IND) (putWord32 (s.disk (s.addr i IND)) (4 * j) a)).slot sb y =
      if y = (i, NDIRECT + j) then a else s.slot sb y := by
  obtain ⟨i', l⟩ := y
  by_cases hii : i' = i
  · subst hii
    by_cases hl : l < NDIRECT
    · have hne : ¬ ((i', l) : ℕ × ℕ) = (i', NDIRECT + j) := by
        intro he
        rw [Prod.mk.injEq] at he
        omega
      rw [if_neg hne, slot_direct hi hl, slot_direct hi hl]
      rfl
    · by_cases hl' : l < MAXFILE
      · rw [slot_entry hi hl hl' hind, slot_entry (s := s.setBlock _ _) hi hl hl' hind]
        show word32 ((s.setBlock _ _).disk (s.addr i' IND)) _ = _
        rw [setBlock_self]
        by_cases hlj : l = NDIRECT + j
        · rw [if_pos (by rw [hlj]), hlj, Nat.add_sub_cancel_left, word32_putWord32,
            Nat.mod_eq_of_lt ha]
        · rw [if_neg fun he => hlj (congrArg Prod.snd he), word32_putWord32_ne _ (by omega)]
      · have hne : ¬ ((i', l) : ℕ × ℕ) = (i', NDIRECT + j) := by
          intro he
          rw [Prod.mk.injEq] at he
          simp only [MAXFILE] at hl'
          omega
        rw [if_neg hne]
        by_cases hl'' : l = MAXFILE
        · subst hl''
          rw [slot_ind hi, slot_ind hi]
          rfl
        · rw [slot_of_gt (by omega), slot_of_gt (by omega)]
  · rw [if_neg fun he => hii (congrArg Prod.fst he)]
    by_cases hi' : i' < sb.ninodes
    · refine slot_congr rfl fun h0 => setBlock_of_ne fun he => ?_
      have hslot' : s.slot sb (i', MAXFILE) = s.addr i' IND := slot_ind hi'
      have hslot : s.slot sb (i, MAXFILE) = s.addr i IND := slot_ind hi
      rw [← hslot', ← hslot] at he
      rw [← hslot'] at h0
      have := h.owns.inj _ _ h0 he
      rw [Prod.mk.injEq] at this
      exact hii this.1
    · rw [slot, slot, if_neg hi', if_neg hi']

lemma bmapEntry_spec (hsb : sb.WF) (h : s.Owned sb) (hi : inum < sb.ninodes)
    (hind : s.addr inum IND ≠ 0) (hj : j < NINDIRECT) :
    wp (Fs.bmapEntry sb (s.addr inum IND) j) s (fun r t => Grew sb s t inum ∧
      (r = 0 → t = s ∧ s.Full sb) ∧ (r ≠ 0 → t.slot sb (inum, NDIRECT + j) = r) ∧
      (s.slot sb (inum, NDIRECT + j) ≠ 0 → t = s ∧ r = s.slot sb (inum, NDIRECT + j)) ∧
      ∀ y, y ≠ (inum, NDIRECT + j) → t.slot sb y = s.slot sb y) fun _ => False := by
  have hentry : s.slot sb (inum, NDIRECT + j) = word32 (s.disk (s.addr inum IND)) (4 * j) := by
    rw [slot_entry hi (by omega) (by simp only [MAXFILE]; omega) hind, Nat.add_sub_cancel_left]
  simp only [Fs.bmapEntry, wp_bind, wp_get, ← hentry]
  refine fill_spec h fun a u ht h0 => ?_
  have hino : u.ino = s.ino := by rw [ht.eq]
  have hslotind : s.slot sb (inum, MAXFILE) = s.addr inum IND := slot_ind hi
  have hdata := h.data (x := (inum, MAXFILE)) (by rw [hslotind]; exact hind)
  rw [hslotind] at hdata
  have hina : s.addr inum IND ≠ a := by
    have := h.owns.ne_of_not_used ht.ne_zero ht.not_inUse (inum, MAXFILE)
    rwa [hslotind] at this
  have hdisk : u.disk (s.addr inum IND) = s.disk (s.addr inum IND) :=
    ht.disk_of_ne hdata.1 hina
  have hslot : ∀ y, (u.setBlock (s.addr inum IND)
      (putWord32 (u.disk (s.addr inum IND)) (4 * j) a)).slot sb y =
      if y = (inum, NDIRECT + j) then a else s.slot sb y := by
    intro y
    rw [← slot_putEntry h hi hind hj (ht.hi.trans hsb.size) y, hdisk]
    refine slots_congr (s := s.setBlock _ _) (t := u.setBlock _ _) hino (fun i' hi' h0' => ?_) y
    rw [slot_ind hi'] at h0' ⊢
    change s.addr i' IND ≠ 0 at h0'
    show (u.setBlock _ _).disk (s.addr i' IND) = (s.setBlock _ _).disk (s.addr i' IND)
    by_cases he : s.addr i' IND = s.addr inum IND
    · rw [he, setBlock_self, setBlock_self]
    · have hslot' : s.slot sb (i', MAXFILE) = s.addr i' IND := slot_ind hi'
      rw [setBlock_of_ne he, setBlock_of_ne he, ← hslot']
      rw [← hslot'] at h0'
      exact ht.disk_of_ne (h.data h0').1 (h.owns.ne_of_not_used ht.ne_zero ht.not_inUse _)
  refine ⟨Grew.of_took h ht h0 rfl hslot (fun i hi' => ht.fits h i hi') (fun c hc => ?_)
    (fun y hy h0' => ?_) (fun j _ => by rw [← hino]; rfl) ?_ fun i hi' => ?_, hslot⟩
  · exact bit_setBlock hdata.1 hdata.2 hc
  · refine setBlock_of_ne fun he => ?_
    rw [hslot] at h0' he
    split_ifs at he with hyx
    · exact hina he.symm
    · rw [if_neg hyx] at h0'
      rw [← hslotind] at he
      have := h.owns.inj _ _ h0' he
      rw [this] at hy
      exact absurd hy (lt_irrefl _)
  · show u.ino inum = { s.ino inum with addrs := (u.ino inum).addrs }
    rw [hino]
  · refine Eq.trans (Superblock.dinode_congr (setBlock_of_ne ?_)) (ht.dinode_eq hsb hi')
    have := Superblock.iblock_lt hsb hi'
    omega

/-- **`bmap` gives the block of a slot**, allocating if necessary; it fails only if no block is
free, and then files are as they were. -/
lemma bmap_spec (hsb : sb.WF) (h : s.Owned sb) (hi : inum < sb.ninodes) {bn : ℕ}
    (hbn : bn < MAXFILE) :
    wp (Fs.bmap sb inum bn) s (fun r t => Grew sb s t inum ∧ (r = 0 → t.Full sb) ∧
      (r ≠ 0 → t.slot sb (inum, bn) = r) ∧
      (s.slot sb (inum, bn) ≠ 0 → t = s ∧ r = s.slot sb (inum, bn)) ∧
      ∀ y, y ≠ (inum, bn) → (bn < NDIRECT ∨ y ≠ (inum, MAXFILE)) → t.slot sb y = s.slot sb y)
      fun _ => False := by
  rw [Fs.bmap]
  by_cases hlt : bn < NDIRECT
  · rw [if_pos hlt]
    refine (bmapAddr_spec hsb h hi hlt.le).post fun r t ht => ?_
    rw [slot_direct hi hlt, slot_direct hi hlt]
    refine ⟨ht.1, fun h0 => ?_, ht.2.2.1, ht.2.2.2.1, fun y hy _ => ht.2.2.2.2 y ?_⟩
    swap
    · rwa [slotOf, if_pos hlt]
    obtain ⟨rfl, hfull⟩ := ht.2.1 h0
    exact hfull
  · have hj : bn - NDIRECT < NINDIRECT := by
      simp only [MAXFILE] at hbn
      omega
    have hbn' : NDIRECT + (bn - NDIRECT) = bn := by omega
    rw [if_neg hlt, if_pos hj, wp_bind]
    refine (bmapAddr_spec hsb h hi le_rfl).post fun r t ht => ?_
    obtain ⟨hgrew, hfail, hok, hold, honly⟩ := ht
    rw [wp_ite]
    refine ⟨fun h0 => wp_pure.mpr ?_, fun hne => ?_⟩
    · obtain ⟨rfl, hfull⟩ := hfail h0
      refine ⟨hgrew, fun _ => hfull, fun h => absurd rfl h, fun hs => ?_, fun _ _ _ => rfl⟩
      exfalso
      by_cases hind : t.addr inum IND = 0
      · rw [addr] at hind
        exact hs (by simp only [slot, hi, if_true, slotAddr, hlt, hbn, if_false, hind])
      · exact hind ((hold hind).2.symm.trans h0)
    · have hind : t.addr inum IND ≠ 0 := by
        rw [hok hne]
        exact hne
      have hspec := bmapEntry_spec hsb hgrew.owned hi hind hj
      rw [hok hne, hbn'] at hspec
      refine hspec.post fun r' t' ht' => ?_
      refine ⟨hgrew.trans ht'.1, fun h0 => ?_, ht'.2.2.1, fun hs => ?_, fun y hy hy' => ?_⟩
      · obtain ⟨rfl, hfull⟩ := ht'.2.1 h0
        exact hfull
      · have hs' := hgrew.slot (inum, bn) hs
        obtain ⟨rfl, hr⟩ := ht'.2.2.2.1 (by rw [hs']; exact hs)
        have hind' : s.addr inum IND ≠ 0 := by
          intro h0
          rw [addr] at h0
          exact hs (by simp only [slot, hi, if_true, slotAddr, hlt, hbn, if_false, h0])
        exact ⟨(hold hind').1, by rw [hr, hs']⟩
      · rw [ht'.2.2.2.2 y hy, honly y]
        rw [slotOf, if_neg (lt_irrefl _)]
        exact hy'.resolve_left hlt

end Xv6.FsState
