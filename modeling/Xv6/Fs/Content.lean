import Xv6.Fs.Bmap
import Xv6.Lib.Steps

/-!
# The content of a file is a byte array

`readi` and `writei` on a consistent file system. Reading allocates nothing, since every block below
the size is there, and delivers the bytes of the file. Writing is described by `Wrote s t inum off
k`: between `s` and `t`, `k` bytes from `off` on have been replaced, blocks may have been added to
`inum`, and nothing else has happened to any file.

`ByteFiles` is the reference: a map from inode numbers to byte lists. **`files_are_byte_arrays`**
says what each call does, and that sequences of calls cannot be told from the reference.
-/

namespace Xv6

open ByteArr Prog List Superblock Function Fs

namespace FsState

variable {sb : Superblock} {s t u : FsState} {i j k a inum off n tot : ℕ} {src : ℕ → UInt8}

/-! ## Reading -/

lemma byte_of_block (hlt : off / BSIZE < MAXFILE) (ha : s.slot sb (i, off / BSIZE) ≠ 0)
    (hj : off % BSIZE + j < BSIZE) : s.byte sb i (off + j) =
      s.disk (s.slot sb (i, off / BSIZE)) (off % BSIZE + j) := by
  have hdiv : (off + j) / BSIZE = off / BSIZE := by
    simp only [BSIZE] at *
    omega
  have hmod : (off + j) % BSIZE = off % BSIZE + j := by
    simp only [BSIZE] at *
    omega
  rw [byte, hdiv, hmod, if_pos ⟨hlt, ha⟩]

/-- A copy of `readi` begins at the `m`-th byte, if those before it have succeeded: it is the first
one, or at the start of a block. -/
def CopyAt (off tot m : ℕ) : Prop := m = tot ∨ tot < m ∧ (off + (m - tot)) % BSIZE = 0

lemma readLoop_spec (hsb : sb.WF) (h : s.Consistent sb) (hi : inum < sb.ninodes) {ok : ℕ → Bool} :
    ∀ {fuel tot off : ℕ} {dst : List UInt8}, tot ≤ n → n - tot ≤ fuel →
      off + (n - tot) ≤ (s.ino inum).size →
      wp (readLoop sb inum n ok fuel tot off dst) s (fun r t => t = s ∧
        ((∃ m < n, CopyAt off tot m ∧ ok m = false) ∧ r.1 = -1 ∨
          (∀ m < n, CopyAt off tot m → ok m = true) ∧ r.1 = n ∧
          r.2 = dst ++ (range (n - tot)).map fun j => s.byte sb inum (off + j)))
        fun _ => False := by
  intro fuel
  have hdone : ∀ off m, m < n → ¬ CopyAt off n m := by
    rintro off m hm (rfl | ⟨hlt, -⟩) <;> omega
  induction fuel with
  | zero =>
    intro tot off dst hle hfuel _
    obtain rfl : tot = n := by omega
    rw [readLoop, wp_pure]
    exact ⟨rfl, .inr ⟨fun m hm hc => absurd hc (hdone _ m hm), rfl, by simp⟩⟩
  | succ fuel ih =>
    intro tot off dst hle hfuel hend
    rw [readLoop]
    by_cases hlt : tot < n
    · rw [if_pos hlt, wp_bind]
      have hsize := h.size_le inum hi
      have hbn : off / BSIZE < MAXFILE := by
        simp only [BSIZE] at *
        omega
      have hmapped : s.slot sb (inum, off / BSIZE) ≠ 0 := by
        refine h.mapped inum hi _ ?_
        simp only [BSIZE] at *
        omega
      refine (bmap_spec hsb h.toOwned hi hbn).post fun r t ht => ?_
      obtain ⟨rfl, rfl⟩ := ht.2.2.2.1 hmapped
      rw [wp_ite]
      refine ⟨fun h0 => absurd h0 hmapped, fun _ => ?_⟩
      rw [wp_bind, wp_get]
      simp only
      rw [wp_ite]
      refine ⟨fun hok => ?_, fun hok => wp_pure.mpr
        ⟨rfl, .inl ⟨⟨tot, hlt, .inl rfl, by simpa using hok⟩, rfl⟩⟩⟩
      set m := min (n - tot) (BSIZE - off % BSIZE) with hm
      have hm0 : 0 < m := by
        simp only [BSIZE] at *
        omega
      have hmn : m ≤ n - tot := min_le_left _ _
      have hmb : m ≤ BSIZE - off % BSIZE := min_le_right _ _
      have hrest : n - tot = m + (n - (tot + m)) := by omega
      have hin : ∀ j, j < m → off % BSIZE + j < BSIZE := fun j hj => by
        simp only [BSIZE] at *
        omega
      -- the next copy begins where this one ends, at the start of a block
      have hnext : ∀ j < n, CopyAt off tot j ↔ j = tot ∨ CopyAt (off + m) (tot + m) j := by
        intro j hj
        simp only [CopyAt, BSIZE] at *
        omega
      refine (ih (by omega) (by omega) (by omega)).post fun r u hu => ⟨hu.1, ?_⟩
      obtain ⟨-, ⟨⟨j, hj, hc, hbad⟩, hr⟩ | ⟨hall, hr⟩⟩ := hu
      · exact .inl ⟨⟨j, hj, (hnext j hj).mpr (.inr hc), hbad⟩, hr⟩
      refine .inr ⟨fun j hj hc => ?_, hr.1, ?_⟩
      · rcases (hnext j hj).mp hc with rfl | hc
        · exact hok
        · exact hall j hj hc
      rw [hr.2, append_assoc, hrest, range_add, map_append, map_map]
      refine congrArg (dst ++ ·) (congrArg₂ (· ++ ·) ?_ ?_)
      · refine map_congr_left fun j hj => ?_
        rw [mem_range] at hj
        exact (byte_of_block hbn hmapped (hin j hj)).symm
      · refine map_congr_left fun j _ => ?_
        simp only [comp_apply, Nat.add_assoc]
    · obtain rfl : tot = n := by omega
      rw [if_neg hlt, wp_pure]
      exact ⟨rfl, .inr ⟨fun m hm hc => absurd hc (hdone _ m hm), rfl, by simp⟩⟩

/-- The content of a file. -/
def content (sb : Superblock) (s : FsState) (i : ℕ) : List UInt8 :=
  (range (s.ino i).size).map (s.byte sb i)

lemma length_content : (s.content sb i).length = (s.ino i).size := by simp [content]

lemma content_slice (h : off + n ≤ (s.ino i).size) :
    ((s.content sb i).drop off).take n = (range n).map fun j => s.byte sb i (off + j) := by
  refine ext_getElem ?_ fun j h1 h2 => ?_
  · simp [content]
    omega
  · simp [content, getElem_take, getElem_drop]

/-- `readi` makes a copy that begins at the `m`-th byte, if those before it succeed. -/
def Copies (s : FsState) (inum off n m : ℕ) : Prop :=
  off ≤ (s.ino inum).size ∧ off + n < 2 ^ 32 ∧ m < min n ((s.ino inum).size - off) ∧ CopyAt off 0 m

/-- **Reading.**  Nothing changes; the result is the part of the file that is there, or -1 if a copy
to the destination fails. -/
lemma readi_spec (hsb : sb.WF) (h : s.Consistent sb) (hi : inum < sb.ninodes) (ok : ℕ → Bool)
    (hoff : off < 2 ^ 32) (hn : n < 2 ^ 32) :
    wp (readi sb inum ok off n) s (fun r t => t = s ∧
      ((∃ m, s.Copies inum off n m ∧ ok m = false) ∧ r.1 = -1 ∨
        (∀ m, s.Copies inum off n m → ok m = true) ∧ r.1 = r.2.length ∧
        r.2 = if off > (s.ino inum).size ∨ off + n ≥ 2 ^ 32 then []
          else ((s.content sb inum).drop off).take n)) fun _ => False := by
  have hsz := (h.fits inum hi).size
  have hwrap : (off + n) % 2 ^ 32 < off ↔ off + n ≥ 2 ^ 32 := by omega
  simp only [readi, wp_bind, wp_get, hwrap]
  rw [wp_ite]
  refine ⟨fun hbad => wp_pure.mpr ⟨rfl, .inr ⟨?_, rfl, by rw [if_pos hbad]⟩⟩, fun hgood => ?_⟩
  · rintro m ⟨hoff, hlt, -⟩
    omega
  have hmod : (off + n) % 2 ^ 32 = off + n := Nat.mod_eq_of_lt (by omega)
  rw [hmod]
  set n' := if off + n > (s.ino inum).size then (s.ino inum).size - off else n with hn'
  have hend : off + n' ≤ (s.ino inum).size := by
    rw [hn']
    split_ifs <;> omega
  have hcopies : ∀ m, s.Copies inum off n m ↔ m < n' ∧ CopyAt off 0 m := by
    have hmin : n' = min n ((s.ino inum).size - off) := by
      rw [hn']
      split_ifs <;> omega
    intro m
    rw [Copies, ← hmin]
    exact ⟨fun hm => hm.2.2, fun hm => ⟨by omega, by omega, hm⟩⟩
  refine (readLoop_spec hsb h hi (Nat.zero_le _) (by omega) (by omega)).post fun r t ht => ?_
  simp only [hcopies, and_assoc, and_imp]
  refine ⟨ht.1, ht.2.imp id fun hr => ⟨hr.1, ?_⟩⟩
  replace hr := hr.2
  rw [Nat.sub_zero, nil_append] at hr
  have htake : ((s.content sb inum).drop off).take n = ((s.content sb inum).drop off).take n' := by
    rw [hn']
    split_ifs with hlong
    · rw [take_of_length_le, take_of_length_le]
      · rw [length_drop, length_content]
      · rw [length_drop, length_content]
        omega
    · rfl
  rw [if_neg hgood, htake, content_slice hend, hr.2, hr.1]
  simp

/-! ## Writing -/

/-- The `k` bytes from `off` on are those of `src`. -/
structure Wrote (sb : Superblock) (s t : FsState) (inum off k : ℕ) (src : ℕ → UInt8) : Prop where
  owned : t.Owned sb
  ino : ∀ j, j ≠ inum → t.ino j = s.ino j
  fields : t.ino inum = { s.ino inum with addrs := (t.ino inum).addrs }
  slot : ∀ x, s.slot sb x ≠ 0 → t.slot sb x = s.slot sb x
  other : ∀ x, x.1 ≠ inum → t.slot sb x = s.slot sb x
  mapped : ∀ p, off ≤ p → p < off + k → t.slot sb (inum, p / BSIZE) ≠ 0
  byte : ∀ i p, t.byte sb i p =
    if i = inum ∧ off ≤ p ∧ p < off + k then src (p - off) else s.byte sb i p
  dinode : ∀ i, i < sb.ninodes → sb.dinode t.disk i = sb.dinode s.disk i

lemma Wrote.refl (h : s.Owned sb) : Wrote sb s s inum off 0 src := by
  refine ⟨h, fun _ _ => rfl, rfl, fun _ _ => rfl, fun _ _ => rfl, fun p h1 h2 => ?_, fun i p => ?_,
    fun _ _ => rfl⟩
  · omega
  · rw [if_neg (by omega)]

lemma Wrote.grew (h : Wrote sb s t inum off k src) (hg : Grew sb t u inum) :
    Wrote sb s u inum off k src := by
  refine ⟨hg.owned, fun j hj => (hg.ino j hj).trans (h.ino j hj), ?_, fun x hx => ?_,
    fun x hx => (hg.other x hx).trans (h.other x hx), fun p h1 h2 => ?_,
    fun i p => (hg.byte i p).trans (h.byte i p),
    fun i hi => (hg.dinode i hi).trans (h.dinode i hi)⟩
  · rw [hg.fields, h.fields]
  · rw [hg.slot x (by rw [h.slot x hx]; exact hx), h.slot x hx]
  · rw [hg.slot _ (h.mapped p h1 h2)]
    exact h.mapped p h1 h2

lemma Wrote.put (hsb : sb.WF) (h : Wrote sb s t inum off tot src)
    (hbn : (off + tot) / BSIZE < MAXFILE) (ha : t.slot sb (inum, (off + tot) / BSIZE) ≠ 0)
    (hk : (off + tot) % BSIZE + k ≤ BSIZE) :
    Wrote sb s (t.setBlock (t.slot sb (inum, (off + tot) / BSIZE))
      (putBytes (t.disk (t.slot sb (inum, (off + tot) / BSIZE))) ((off + tot) % BSIZE) k
        fun j => src (tot + j))) inum off (tot + k) src := by
  have hslot := h.owned.slot_setBlock (b := putBytes
    (t.disk (t.slot sb (inum, (off + tot) / BSIZE))) ((off + tot) % BSIZE) k
      fun j => src (tot + j)) ha hbn.ne
  refine ⟨h.owned.setBlock ha hbn.ne, h.ino, h.fields, fun x hx => ?_, fun x hx => ?_,
    fun p h1 h2 => ?_, fun i p => ?_, fun i hi => ?_⟩
  · rw [hslot]
    exact h.slot x hx
  · rw [hslot]
    exact h.other x hx
  · rw [hslot]
    by_cases hp : p < off + tot
    · exact h.mapped p h1 hp
    · have hdiv : p / BSIZE = (off + tot) / BSIZE := by
        simp only [BSIZE] at *
        omega
      rw [hdiv]
      exact ha
  · rw [h.owned.byte_setBlock ha hbn]
    by_cases hp : i = inum ∧ p / BSIZE = (off + tot) / BSIZE
    · obtain ⟨rfl, hp⟩ := hp
      rw [if_pos ⟨rfl, hp⟩, putBytes]
      by_cases hin : off + tot ≤ p ∧ p < off + tot + k
      · rw [if_pos (by simp only [BSIZE] at *; omega), if_pos (by omega)]
        refine congrArg src ?_
        simp only [BSIZE] at *
        omega
      · rw [if_neg (by simp only [BSIZE] at *; omega)]
        have hbyte : t.byte sb i p = t.disk (t.slot sb (i, (off + tot) / BSIZE)) (p % BSIZE) := by
          rw [FsState.byte, hp, if_pos ⟨hbn, ha⟩]
        rw [← hbyte, h.byte]
        by_cases hin' : off ≤ p ∧ p < off + tot
        · rw [if_pos ⟨rfl, hin'⟩, if_pos (by omega)]
        · rw [if_neg (fun hc => hin' hc.2), if_neg (by omega)]
    · rw [if_neg hp, h.byte]
      have hiff : (i = inum ∧ off ≤ p ∧ p < off + tot) ↔
          (i = inum ∧ off ≤ p ∧ p < off + (tot + k)) := by
        refine and_congr_right fun hi => ?_
        have hne : p / BSIZE ≠ (off + tot) / BSIZE := fun hx => hp ⟨hi, hx⟩
        simp only [BSIZE] at *
        omega
      simp only [hiff]
  · refine Eq.trans (dinode_congr (setBlock_of_ne ?_)) (h.dinode i hi)
    have := iblock_lt hsb hi
    have := (h.owned.data ha).1
    omega

/-- What the loop of `writei` leaves: `tot` bytes are written, and perhaps some more, from a copy
that failed; it stops early only if a copy fails or no block is free, and then between two blocks.
-/
structure LoopEnd (sb : Superblock) (s t : FsState) (inum off n : ℕ) (src : Source) (tot : ℕ) :
    Prop where
  le : tot ≤ n
  edge : tot = 0 ∨ tot = n ∨ (off + tot) % BSIZE = 0
  early : tot < n → src.fault tot ≠ none ∨ t.Full sb
  wrote : ∃ k, tot ≤ k ∧ k ≤ n ∧ (src.fault tot = none → k = tot) ∧ Wrote sb s t inum off k src.byte

lemma writeLoop_spec (hsb : sb.WF) (hi : inum < sb.ninodes) {src : Source}
    (hend : off + n ≤ MAXFILE * BSIZE) :
    ∀ {fuel tot : ℕ} {t : FsState}, tot ≤ n → n - tot ≤ fuel →
      (tot = 0 ∨ tot = n ∨ (off + tot) % BSIZE = 0) → Wrote sb s t inum off tot src.byte →
      wp (writeLoop sb inum n src fuel tot (off + tot)) t (fun r u => r.2 = off + r.1 ∧
        LoopEnd sb s u inum off n src r.1) fun _ => False := by
  intro fuel
  induction fuel with
  | zero =>
    intro tot t hle hfuel hedge h
    rw [writeLoop, wp_pure]
    exact ⟨rfl, hle, hedge, fun hlt => by omega, tot, le_rfl, hle, fun _ => rfl, h⟩
  | succ fuel ih =>
    intro tot t hle hfuel hedge h
    rw [writeLoop]
    by_cases hlt : tot < n
    · rw [if_pos hlt, wp_bind]
      have hbn : (off + tot) / BSIZE < MAXFILE := by
        simp only [BSIZE] at *
        omega
      refine (bmap_spec hsb h.owned hi hbn).post fun r u hu => ?_
      obtain ⟨hgrew, hfull, hslot, -⟩ := hu
      rw [wp_ite]
      refine ⟨fun h0 => wp_pure.mpr ?_, fun hne => ?_⟩
      · exact ⟨rfl, hle, hedge, fun _ => .inr (hfull h0), tot, le_rfl, hle, fun _ => rfl,
          h.grew hgrew⟩
      · have hw := h.grew hgrew
        have hs := hslot hne
        have ha : u.slot sb (inum, (off + tot) / BSIZE) ≠ 0 := by
          rw [hs]
          exact hne
        have hput : ∀ k, (off + tot) % BSIZE + k ≤ BSIZE → Wrote sb s (u.setBlock r
            (putBytes (u.disk r) ((off + tot) % BSIZE) k fun j => src.byte (tot + j))) inum off
            (tot + k) src.byte := by
          intro k hk
          have := hw.put hsb hbn ha hk
          rwa [hs] at this
        set m := min (n - tot) (BSIZE - (off + tot) % BSIZE) with hm
        have hm0 : 0 < m := by
          simp only [BSIZE] at *
          omega
        have hmn : m ≤ n - tot := min_le_left _ _
        have hmb : (off + tot) % BSIZE + m ≤ BSIZE := by
          have : m ≤ BSIZE - (off + tot) % BSIZE := min_le_right _ _
          have : (off + tot) % BSIZE < BSIZE := Nat.mod_lt _ (by norm_num)
          omega
        cases hfault : src.fault tot with
        | some k =>
          simp only [wp_bind, wp_modify, wp_pure]
          have hkm : min k m ≤ m := min_le_right _ _
          refine ⟨trivial, hle, hedge, fun _ => .inl (by rw [hfault]; simp), tot + min k m,
            by omega, by omega, fun hnone => ?_, hput (min k m) (by omega)⟩
          rw [hfault] at hnone
          cases hnone
        | none =>
          simp only [wp_bind, wp_modify]
          rw [Nat.add_assoc]
          refine ih (by omega) (by omega) (.inr ?_) (hput m hmb)
          by_cases hlast : tot + m = n
          · exact .inl hlast
          · refine .inr ?_
            simp only [BSIZE] at *
            omega
    · rw [if_neg hlt, wp_pure]
      exact ⟨rfl, hle, hedge, fun hlt' => absurd hlt' hlt, tot, le_rfl, hle, fun _ => rfl, h⟩

/-! ## Updating the dinode -/

lemma slot_setInode {v : Dinode} (hv : v.addrs = (s.ino inum).addrs) (y : ℕ × ℕ) :
    (s.setInode inum v).slot sb y = s.slot sb y := by
  obtain ⟨i, k⟩ := y
  by_cases hi : i = inum
  · subst hi
    simp only [slot, setInode, update_self, slotAddr, hv]
  · refine slot_congr ?_ fun _ => rfl
    exact update_of_ne hi _ _

lemma byte_congr (hslot : ∀ y, t.slot sb y = s.slot sb y)
    (hdisk : ∀ y, s.slot sb y ≠ 0 → t.disk (s.slot sb y) = s.disk (s.slot sb y)) (i p : ℕ) :
    t.byte sb i p = s.byte sb i p := by
  rw [byte, byte, hslot]
  split_ifs with hc
  · rw [hdisk _ hc.2]
  · rfl

lemma Owned.setInode (h : s.Owned sb) {v : Dinode} (hv : v.addrs = (s.ino inum).addrs)
    (hfits : v.Fits) : (s.setInode inum v).Owned sb := by
  refine ⟨fun i hi => ?_, h.owns.congr (slot_setInode hv) fun _ _ => Iff.rfl, h.metadata⟩
  by_cases hii : i = inum
  · subst hii
    simpa [FsState.setInode] using hfits
  · simpa [FsState.setInode, hii] using h.fits i hi

/-- The dinode on the disk becomes a copy of the inode. -/
def updated (sb : Superblock) (s : FsState) (inum : ℕ) : FsState :=
  { s with disk := sb.setDinode s.disk inum (s.ino inum) }

lemma disk_updated (hsb : sb.WF) (hi : inum < sb.ninodes) (ha : sb.nmeta ≤ a) :
    (s.updated sb inum).disk a = s.disk a := by
  refine setDinode_of_ne ?_
  have := iblock_lt hsb hi
  omega

section

variable (hsb : sb.WF) (h : s.Owned sb) (hi : inum < sb.ninodes)
include hsb h hi

lemma slot_updated (y : ℕ × ℕ) : (s.updated sb inum).slot sb y = s.slot sb y :=
  slots_congr (s := s) (t := s.updated sb inum) rfl
    (fun _ _ hne => disk_updated hsb hi (h.data hne).1) y

lemma byte_updated (i p : ℕ) : (s.updated sb inum).byte sb i p = s.byte sb i p :=
  byte_congr (slot_updated hsb h hi) (fun _ hne => disk_updated hsb hi (h.data hne).1) i p

lemma Owned.updated : (s.updated sb inum).Owned sb := by
  have hbit : ∀ b, sb.bit (s.updated sb inum).disk b = sb.bit s.disk b := fun b =>
    bit_setDinode hsb hi
  refine ⟨h.fits, h.owns.congr (slot_updated hsb h hi) fun c _ => ?_, fun b hb => ?_⟩
  · simp only [InUse, hbit]
  · rw [hbit]
    exact h.metadata b hb

end

lemma iupdate_spec {Q : PUnit → FsState → Prop} (h : Q ⟨⟩ (s.updated sb inum)) :
    wp (iupdate sb inum) s Q fun _ => False := wp_modify.mpr h

/-- Between calls, the dinodes on the disk are the inodes. -/
def Synced (sb : Superblock) (s : FsState) : Prop :=
  ∀ i, i < sb.ninodes → sb.dinode s.disk i = s.ino i

lemma dinode_updated (h : s.Owned sb) (hi : inum < sb.ninodes) :
    sb.dinode (s.updated sb inum).disk i = if i = inum then s.ino inum else sb.dinode s.disk i :=
  dinode_setDinode (h.fits inum hi)

/-! ## `writei` -/

/-- The effect of a call of `writei` that is not refused. -/
structure Written (sb : Superblock) (s t : FsState) (inum off n : ℕ) (src : Source) (tot : ℕ) :
    Prop where
  consistent : t.Consistent sb
  synced : s.Synced sb → t.Synced sb
  le : tot ≤ n
  edge : tot = 0 ∨ tot = n ∨ (off + tot) % BSIZE = 0
  early : tot < n → src.fault tot ≠ none ∨ t.Full sb
  size : (t.ino inum).size = max (s.ino inum).size (off + tot)
  fields : t.ino inum = { s.ino inum with size := (t.ino inum).size, addrs := (t.ino inum).addrs }
  wrote : ∀ j, j < tot → t.byte sb inum (off + j) = src.byte j
  kept : ∀ p, (p < off ∨ off + n ≤ p) → t.byte sb inum p = s.byte sb inum p
  clean : src.fault tot = none → ∀ p, off + tot ≤ p → t.byte sb inum p = s.byte sb inum p
  others : ∀ i, i ≠ inum → t.ino i = s.ino i ∧ ∀ p, t.byte sb i p = s.byte sb i p

/-- The call is refused. -/
def Refused (s : FsState) (inum off n : ℕ) : Prop :=
  off > (s.ino inum).size ∨ off + n ≥ 2 ^ 32 ∨ off + n > MAXFILE * BSIZE

instance : Decidable (s.Refused inum off n) := inferInstanceAs (Decidable (_ ∨ _ ∨ _))

lemma writei_spec (hsb : sb.WF) (h : s.Consistent sb) (hi : inum < sb.ninodes) (src : Source)
    (hoff : off < 2 ^ 32) (hn : n < 2 ^ 32) :
    wp (writei sb inum src off n) s (fun r t =>
      if s.Refused inum off n then r = -1 ∧ t = s
      else ∃ tot : ℕ, r = tot ∧ Written sb s t inum off n src tot) fun _ => False := by
  have hwrap : (off + n) % 2 ^ 32 < off ↔ off + n ≥ 2 ^ 32 := by omega
  simp only [writei, wp_bind, wp_get, hwrap]
  rw [wp_ite]
  refine ⟨fun hbad => wp_pure.mpr ?_, fun hgood => ?_⟩
  · rw [if_pos (show s.Refused inum off n from hbad.imp_right .inl)]
    exact ⟨rfl, rfl⟩
  have hmod : (off + n) % 2 ^ 32 = off + n := Nat.mod_eq_of_lt (by omega)
  rw [hmod, wp_ite]
  refine ⟨fun hbig => wp_pure.mpr ?_, fun hfit => ?_⟩
  · rw [if_pos (show s.Refused inum off n from .inr (.inr hbig))]
    exact ⟨rfl, rfl⟩
  have hend : off + n ≤ MAXFILE * BSIZE := not_lt.mp hfit
  have hnot : ¬ s.Refused inum off n := fun hr => by
    rcases hr with hr | hr | hr
    · exact hgood (.inl hr)
    · exact hgood (.inr hr)
    · exact hfit hr
  simp only [if_neg hnot, wp_bind]
  refine (writeLoop_spec hsb hi hend (Nat.zero_le n) (by omega) (.inl rfl)
    (Wrote.refl h.toOwned)).post ?_
  rintro ⟨tot, off'⟩ u ⟨hoff', hle, hedge, hearly, k, hk1, hk2, hk3, hw⟩
  obtain rfl : off' = off + tot := hoff'
  simp only [wp_modify]
  refine iupdate_spec (wp_pure.mpr ⟨tot, rfl, ?_⟩)
  -- `u` is the state behind the loop, `v` the one with the new size
  set v := u.setInode inum { u.ino inum with size := max (u.ino inum).size (off + tot) } with hv
  have hsize : (u.ino inum).size = (s.ino inum).size := by rw [hw.fields]
  have hvino : v.ino inum = { u.ino inum with size := max (u.ino inum).size (off + tot) } :=
    update_self ..
  have hvslot : ∀ y, v.slot sb y = u.slot sb y := slot_setInode rfl
  have hvbyte : ∀ i p, v.byte sb i p = u.byte sb i p := fun i p =>
    byte_congr hvslot (fun _ _ => rfl) i p
  have hmax : max (u.ino inum).size (off + tot) ≤ MAXFILE * BSIZE := by
    rw [hsize]
    exact max_le (h.size_le inum hi) (by omega)
  have hvowned : v.Owned sb := by
    refine hw.owned.setInode rfl ?_
    have hf := hw.owned.fits inum hi
    refine ⟨hf.short, ?_, hf.length, hf.addrs⟩
    refine lt_of_le_of_lt hmax ?_
    norm_num
  have hslot : ∀ y, (v.updated sb inum).slot sb y = u.slot sb y := fun y =>
    (slot_updated hsb hvowned hi y).trans (hvslot y)
  have hbyte : ∀ i p, (v.updated sb inum).byte sb i p =
      if i = inum ∧ off ≤ p ∧ p < off + k then src.byte (p - off) else s.byte sb i p := fun i p =>
    ((byte_updated hsb hvowned hi i p).trans (hvbyte i p)).trans (hw.byte i p)
  have hother : ∀ i, i ≠ inum → v.ino i = s.ino i := fun i hii =>
    (update_of_ne hii _ _).trans (hw.ino i hii)
  refine ⟨⟨hvowned.updated hsb hi, fun i hi' l hl => ?_, fun i hi' => ?_⟩,
    fun hsync i hi' => ?_, hle,
    hedge, fun hlt => ?_, ?_, ?_, fun j hj => ?_, fun p hp => ?_, fun hnone p hp => ?_,
      fun i hii => ?_⟩
  · rw [hslot]
    change l * BSIZE < (v.ino i).size at hl
    by_cases hii : i = inum
    · subst hii
      rw [hvino] at hl
      by_cases hold : l * BSIZE < (s.ino i).size
      · rw [hw.slot _ (h.mapped i hi' l hold)]
        exact h.mapped i hi' l hold
      · -- a block that is new in the size: it has a byte that was written
        have hlt : l * BSIZE < off + tot := by
          simp only [lt_max_iff, hsize] at hl
          exact hl.resolve_left hold
        have hle' : off ≤ (s.ino i).size := by
          by_contra hgt
          exact hgood (.inl (not_le.mp hgt))
        have := hw.mapped (l * BSIZE) (by omega) (by omega)
        rwa [Nat.mul_div_cancel _ (by norm_num)] at this
    · rw [hother i hii] at hl
      rw [hw.other _ hii]
      exact h.mapped i hi' l hl
  · show (v.ino i).size ≤ _
    by_cases hii : i = inum
    · subst hii
      rw [hvino]
      exact hmax
    · rw [hother i hii]
      exact h.size_le i hi'
  · rw [dinode_updated hvowned hi]
    show _ = v.ino i
    split_ifs with hii
    · rw [hii]
    · rw [hother i hii, ← hsync i hi']
      exact hw.dinode i hi'
  · refine (hearly hlt).imp_right fun hfull b hb => ?_
    have hbit : sb.bit (v.updated sb inum).disk b = sb.bit u.disk b := bit_setDinode hsb hi
    rw [hbit]
    exact hfull b hb
  · show (v.ino inum).size = _
    rw [hvino, hsize]
  · show v.ino inum = { s.ino inum with size := (v.ino inum).size, addrs := (v.ino inum).addrs }
    rw [hvino, hw.fields]
  · rw [hbyte, if_pos (by omega), Nat.add_sub_cancel_left]
  · rw [hbyte, if_neg (by omega)]
  · obtain rfl := hk3 hnone
    rw [hbyte, if_neg (by omega)]
  · exact ⟨hother i hii, fun p => by rw [hbyte, if_neg fun hc => hii hc.1]⟩

end FsState

/-! ## The reference -/

/-- A call of `readi` or `writei` whose copies succeed. -/
inductive IoCall where
  | write (inum : ℕ) (src : ℕ → UInt8) (off n : ℕ)
  | read (inum off n : ℕ)

/-- The inode exists, and the numbers are `uint`. -/
def IoCall.Ok (sb : Superblock) : IoCall → Prop
  | .write inum _ off n => inum < sb.ninodes ∧ off < 2 ^ 32 ∧ n < 2 ^ 32
  | .read inum off n => inum < sb.ninodes ∧ off < 2 ^ 32 ∧ n < 2 ^ 32

instance (sb : Superblock) : ∀ c : IoCall, Decidable (c.Ok sb)
  | .write .. => inferInstanceAs (Decidable (_ ∧ _ ∧ _))
  | .read .. => inferInstanceAs (Decidable (_ ∧ _ ∧ _))

/-- What a call returns, and what it copies out. -/
abbrev IoResult := ℤ × List UInt8

def Fs.io (sb : Superblock) : IoCall → FsProg IoResult
  | .write inum src off n => do
      let r ← writei sb inum ⟨src, fun _ => none⟩ off n
      return (r, [])
  | .read inum off n => readi sb inum (fun _ => true) off n

/-- A call together with its result, as a step. -/
def FsState.ioStep (sb : Superblock) (s : FsState) (a : IoCall × IoResult) :
    Outcome FsPanic FsState :=
  if a.1.Ok sb then
    match io sb a.1 s with
    | .ok (r, t) => if r = a.2 then .next t else .disabled
    | .error e => .panic e
  else .disabled

/-- The files as byte lists. -/
abbrev ByteFiles := ℕ → List UInt8

namespace ByteFiles

def overwrite (l : List UInt8) (off m : ℕ) (src : ℕ → UInt8) : List UInt8 :=
  l.take off ++ (range m).map src ++ l.drop (off + m)

/-- The same call on byte lists. A write may be cut short, and the result says where; everything
else about the result is determined. -/
def step (f : ByteFiles) : IoCall × IoResult → Outcome Empty ByteFiles
  | (.write i src off n, r, out) =>
    if off > (f i).length ∨ off + n ≥ 2 ^ 32 ∨ off + n > MAXFILE * BSIZE then
      if r = -1 ∧ out = [] then .next f else .disabled
    else if 0 ≤ r ∧ r ≤ n ∧ out = [] then .next (update f i (overwrite (f i) off r.toNat src))
    else .disabled
  | (.read i off n, r, out) =>
    if r = out.length ∧ out = (if off > (f i).length ∨ off + n ≥ 2 ^ 32 then []
        else ((f i).drop off).take n) then .next f
    else .disabled

end ByteFiles

namespace FsState

variable {sb : Superblock} {s t u : FsState} {i j k a inum off n tot : ℕ} {src : ℕ → UInt8}

lemma Written.content (h : Written sb s t inum off n ⟨src, fun _ => none⟩ tot)
    (hoff : off ≤ (s.ino inum).size) :
    t.content sb inum = ByteFiles.overwrite (s.content sb inum) off tot src := by
  have hlen : (t.ino inum).size = max (s.ino inum).size (off + tot) := h.size
  refine ext_getElem ?_ fun p h1 h2 => ?_
  · simp only [ByteFiles.overwrite, length_append, length_take, length_drop,
      length_map, length_range, length_content, hlen]
    omega
  · have hp : p < (t.ino inum).size := by rwa [length_content] at h1
    have hbyte : (t.content sb inum)[p] = t.byte sb inum p := by simp [FsState.content]
    rw [hbyte]
    simp only [ByteFiles.overwrite, getElem_append, length_append, length_take,
      length_map, length_range, min_eq_left hoff, getElem_take,
      getElem_drop, getElem_map, getElem_range, FsState.content]
    split_ifs with hlt hlt'
    · exact h.kept p (.inl hlt')
    · have := h.wrote (p - off) (by omega)
      rwa [Nat.add_sub_cancel' (by omega)] at this
    · rw [show off + tot + (p - (off + tot)) = p by omega]
      exact h.clean rfl p (by omega)

/-- A write at the end of a file, with copies that may fail. -/
lemma Written.append {src : Source} (h : Written sb s t inum off n src tot)
    (hoff : off = (s.ino inum).size) :
    t.content sb inum = s.content sb inum ++ (range tot).map src.byte := by
  have hsize : (t.ino inum).size = off + tot := by
    rw [h.size, ← hoff]
    omega
  rw [FsState.content, FsState.content, hsize, ← hoff, range_add, map_append, map_map]
  refine congrArg₂ (· ++ ·) (map_congr_left fun p hp => ?_) (map_congr_left fun p hp => ?_)
  · exact h.kept p (.inl (mem_range.mp hp))
  · exact h.wrote p (mem_range.mp hp)

/-- The byte lists are the contents of the files. -/
def Shows (sb : Superblock) (s : FsState) (f : ByteFiles) : Prop :=
  s.Consistent sb ∧ ∀ i, i < sb.ninodes → f i = s.content sb i

lemma Shows.step (hsb : sb.WF) {f : ByteFiles} {c : IoCall × IoResult} (h : s.Shows sb f)
    (hstep : s.ioStep sb c = .next t) : ∃ f', f.step c = .next f' ∧ t.Shows sb f' := by
  obtain ⟨c, r, out⟩ := c
  simp only [ioStep] at hstep
  split_ifs at hstep with hok
  cases c with
  | write inum src off n =>
    obtain ⟨hi, hoff, hn⟩ := hok
    obtain ⟨r', t', hrun, hspec⟩ :=
      (writei_spec hsb h.1 hi ⟨src, fun _ => none⟩ hoff hn).returns
    have hio : io sb (.write inum src off n) s = .ok ((r', []), t') := by
      simp only [io, bind, StateT.bind, hrun, Except.bind]
      rfl
    simp only [hio] at hstep
    split_ifs at hstep with hr
    cases hr
    obtain rfl : t' = t := Outcome.next.inj hstep
    have hlen : (f inum).length = (s.ino inum).size := by rw [h.2 inum hi, length_content]
    split_ifs at hspec with href
    · obtain ⟨rfl, rfl⟩ := hspec
      refine ⟨f, ?_, h⟩
      rw [Refused, ← hlen] at href
      rw [ByteFiles.step, if_pos href, if_pos ⟨rfl, rfl⟩]
    · obtain ⟨tot, rfl, hw⟩ := hspec
      rw [Refused, ← hlen] at href
      refine ⟨_, by rw [ByteFiles.step, if_neg href,
        if_pos ⟨Int.natCast_nonneg tot, by exact_mod_cast hw.le, rfl⟩],
        hw.consistent, fun i hi' => ?_⟩
      by_cases hii : i = inum
      · subst hii
        have hle : off ≤ (s.ino i).size := not_lt.mp fun hgt => href (.inl (by omega))
        rw [update_self, hw.content hle, h.2 i hi', Int.toNat_natCast]
      · rw [update_of_ne hii, h.2 i hi', FsState.content, FsState.content, (hw.others i hii).1]
        exact map_congr_left fun p _ => ((hw.others i hii).2 p).symm
  | read inum off n =>
    obtain ⟨hi, hoff, hn⟩ := hok
    obtain ⟨r', t', hrun, rfl, hspec⟩ :=
      (readi_spec hsb h.1 hi (fun _ => true) hoff hn).returns
    have hio : io sb (.read inum off n) t' = .ok (r', t') := hrun
    simp only [hio] at hstep
    split_ifs at hstep with hr
    obtain rfl : t' = t := Outcome.next.inj hstep
    subst hr
    obtain ⟨⟨m, -, hm⟩, -⟩ | ⟨-, hlen, hout⟩ := hspec
    · cases hm
    · refine ⟨f, ?_, h⟩
      simp only [ByteFiles.step, h.2 inum hi, length_content]
      exact if_pos ⟨hlen, hout⟩

/-- **The content of a file is a byte array.**  On a consistent file system, `writei` replaces the
bytes it reports and extends the file, or refuses and changes nothing; `readi` delivers the bytes
that are there, or returns -1 if a copy it makes fails, and changes nothing; and no sequence of
calls can be told from the same calls on byte lists. -/
theorem files_are_byte_arrays (hsb : sb.WF) :
    (∀ s : FsState, s.Consistent sb → ∀ inum, inum < sb.ninodes → ∀ off n, off < 2 ^ 32 →
      n < 2 ^ 32 →
      (∀ src : Source, ∃ r t, writei sb inum src off n s = .ok (r, t) ∧
        (r = -1 ↔ s.Refused inum off n) ∧ (r = -1 → t = s) ∧
        (r ≠ -1 → ∃ tot : ℕ, r = tot ∧ Written sb s t inum off n src tot)) ∧
      ∀ ok : ℕ → Bool, ∃ r out, readi sb inum ok off n s = .ok ((r, out), s) ∧
        ((∀ m, s.Copies inum off n m → ok m = true) → r = out.length ∧
          out = if off > (s.ino inum).size ∨ off + n ≥ 2 ^ 32 then []
            else (range (min n ((s.ino inum).size - off))).map fun j =>
              s.byte sb inum (off + j)) ∧
        ((∃ m, s.Copies inum off n m ∧ ok m = false) → r = -1)) ∧
    ∀ (s t : FsState) (calls : List (IoCall × IoResult)), s.Consistent sb →
      Run (ioStep sb) s calls t →
      t.Consistent sb ∧ ∃ f, Run ByteFiles.step (s.content sb) calls f ∧
        ∀ i, i < sb.ninodes → f i = t.content sb i := by
  refine ⟨fun s h inum hi off n hoff hn => ⟨fun src => ?_, fun ok => ?_⟩,
    fun s t calls h hrun => ?_⟩
  · obtain ⟨r, t, hrun, hspec⟩ := (writei_spec hsb h hi src hoff hn).returns
    refine ⟨r, t, hrun, ?_⟩
    split_ifs at hspec with href
    · exact ⟨⟨fun _ => href, fun _ => hspec.1⟩, fun _ => hspec.2, fun hne => absurd hspec.1 hne⟩
    · obtain ⟨tot, rfl, hw⟩ := hspec
      have hne : (tot : ℤ) ≠ -1 := by omega
      exact ⟨⟨fun hr => absurd hr hne, fun hr => absurd hr href⟩, fun hr => absurd hr hne,
        fun _ => ⟨tot, rfl, hw⟩⟩
  · obtain ⟨r, t, hrun, rfl, hspec⟩ := (readi_spec hsb h hi ok hoff hn).returns
    refine ⟨r.1, r.2, hrun, ?_⟩
    obtain ⟨⟨m, hm, hbad⟩, hr⟩ | ⟨hall, hlen, hout⟩ := hspec
    · refine ⟨fun hok => ?_, fun _ => hr⟩
      rw [hok m hm] at hbad
      cases hbad
    · refine ⟨fun _ => ⟨hlen, hout.trans ?_⟩, fun ⟨m, hm, hbad⟩ => ?_⟩
      rotate_left
      · rw [hall m hm] at hbad
        cases hbad
      by_cases hbad : off > (t.ino inum).size ∨ off + n ≥ 2 ^ 32
      · rw [if_pos hbad, if_pos hbad]
      · rw [if_neg hbad, if_neg hbad, ← content_slice (by omega)]
        rw [take_eq_take_iff, length_drop, length_content]
        omega
  · have hstep : ∀ s c s' (f : ByteFiles), s.Shows sb f → ioStep sb s c = .next s' →
        ∃ f', f.step c = .next f' ∧ s'.Shows sb f' := fun _ _ _ _ hs hst => hs.step hsb hst
    obtain ⟨f, hf, hshows⟩ := hrun.forward hstep ⟨h, fun _ _ => rfl⟩
    exact ⟨hshows.1, f, hf, hshows.2⟩

end FsState

/-- The file system as it is on the disk. -/
def diskFs (sb : Superblock) (d : Disk) : FsState := ⟨d, sb.dinode d⟩

namespace FsState

/-- A disk of eight blocks with one inode block, one bitmap block, and the bits of the first four
blocks set. -/
def smallSb : Superblock := ⟨8, 3, 2, 3⟩

lemma smallSb_wf : smallSb.WF := by
  refine ⟨fun i hi => ?_, by decide⟩
  have : i / IPB = 0 := Nat.div_eq_of_lt (hi.trans (by decide))
  rw [iblock, this]
  decide

def smallDisk : Disk := fun a i => if a = 3 ∧ i = 0 then 15 else if a = 4 ∧ i = 0 then 7 else 0

def smallFs : FsState := ⟨smallDisk, fun _ => .new 0⟩

lemma slot_smallFs (x : ℕ × ℕ) : smallFs.slot smallSb x = 0 := by
  have hget : ∀ k, noAddrs.getD k 0 = 0 := fun k => by
    rw [noAddrs, getD_eq_getElem?_getD, getElem?_replicate]
    split_ifs <;> rfl
  simp only [slot, smallFs, slotAddr, Dinode.new, hget, if_true, ite_self]

lemma smallFs_consistent : smallFs.Consistent smallSb := by
  refine ⟨⟨fun i _ => Dinode.new_fits (by norm_num), ⟨fun x y hx => ?_, fun a ha => ?_⟩,
    by decide +kernel⟩, fun i _ k hk => ?_, fun i _ => Nat.zero_le _⟩
  · exact absurd (slot_smallFs x) hx
  · constructor
    · rintro ⟨h1, h2, h3⟩
      have hall : ∀ b < 8, 4 ≤ b → smallSb.bit smallDisk b = false := by decide +kernel
      exact absurd ((hall a h2 h1).symm.trans h3) (by decide)
    · rintro ⟨x, hx⟩
      exact absurd (hx.symm.trans (slot_smallFs x)) ha
  · exact absurd hk (Nat.not_lt_zero _)

/-- Three bytes are written to an empty file and read back from offset 1. -/
theorem files_are_byte_arrays_sample : ∃ t, Run (ioStep smallSb) smallFs
        [(.write 1 (fun j => UInt8.ofNat (5 + j)) 0 3, 3, []), (.read 1 1 9, 2, [6, 7])] t ∧
      t.Consistent smallSb ∧ ∃ f, Run ByteFiles.step (smallFs.content smallSb)
        [(.write 1 (fun j => UInt8.ofNat (5 + j)) 0 3, 3, []), (.read 1 1 9, 2, [6, 7])] f ∧
        ∀ i, i < smallSb.ninodes → f i = t.content smallSb i := by
  have hex : (exec (ioStep smallSb) smallFs [(.write 1 (fun j => UInt8.ofNat (5 + j)) 0 3, 3, []),
        (.read 1 1 9, 2, [6, 7])]).isSome = true := by decide +kernel
  obtain ⟨t, ht⟩ := Option.isSome_iff_exists.mp hex
  exact ⟨t, .of_exec ht,
    (files_are_byte_arrays smallSb_wf).2 _ _ _ smallFs_consistent (.of_exec ht)⟩

/-- On this disk, inode 1 has a file of `n` bytes in block 4, and nothing else is allocated. -/
structure OneBlock (n : ℕ) (d : Disk) : Prop where
  slots : ∀ i < 3, ∀ k < MAXFILE + 1, (diskFs smallSb d).slot smallSb (i, k) =
    if (i, k) = (1, 0) then 4 else 0
  bits : ∀ b < 8, smallSb.bit d b = decide (b ≤ 4)
  size : ∀ i < 3, (smallSb.dinode d i).size = if i = 1 then n else 0
  le : n ≤ BSIZE

lemma OneBlock.slot {d : Disk} (h : OneBlock n d) (y : ℕ × ℕ) :
    (diskFs smallSb d).slot smallSb y = if y = (1, 0) then 4 else 0 := by
  obtain ⟨i, k⟩ := y
  by_cases hi : i < 3
  · by_cases hk : k < MAXFILE + 1
    · exact h.slots i hi k hk
    · rw [slot_of_gt (by omega), if_neg]
      rintro ⟨⟩
      exact hk (by decide)
  · rw [FsState.slot, if_neg (show ¬ (i, k).1 < smallSb.ninodes from hi), if_neg]
    rintro ⟨⟩
    exact hi (by decide)

lemma OneBlock.consistent {d : Disk} (h : OneBlock n d) :
    (diskFs smallSb d).Consistent smallSb := by
  refine ⟨⟨fun i _ => getDinode_fits _ _, ⟨fun x y hx hxy => ?_, fun a ha => ?_⟩, fun b hb => ?_⟩,
    fun i hi k hk => ?_, fun i hi => ?_⟩
  · have hone : ∀ y, (diskFs smallSb d).slot smallSb y ≠ 0 → y = (1, 0) := fun y hy => by
      by_contra hne
      rw [h.slot, if_neg hne] at hy
      exact hy rfl
    rw [hone x hx, hone y (hxy ▸ hx)]
  · constructor
    · rintro ⟨h₁, h2, h3⟩
      change 4 ≤ a at h₁
      rw [show (diskFs smallSb d).disk = d from rfl, h.bits a h2, decide_eq_true_eq] at h3
      exact ⟨(1, 0), by rw [h.slot, if_pos rfl]; omega⟩
    · rintro ⟨x, rfl⟩
      rw [h.slot] at ha ⊢
      split_ifs at ha ⊢ with hx
      · exact ⟨by decide, by decide, h.bits 4 (by decide)⟩
      · exact absurd rfl ha
  · change b < 4 at hb
    exact (h.bits b (by omega)).trans (by simp; omega)
  · change k * BSIZE < (smallSb.dinode d i).size at hk
    rw [h.size i hi] at hk
    split_ifs at hk with h1
    · have hle := h.le
      obtain rfl : k = 0 := by
        simp only [BSIZE] at *
        omega
      rw [h.slot, if_pos (by rw [h1])]
      decide
    · omega
  · show (smallSb.dinode d i).size ≤ _
    rw [h.size i hi]
    have hle := h.le
    split_ifs
    · exact hle.trans (by decide)
    · exact Nat.zero_le _

/-- A file with a block that is not marked in the free map. -/
def unmarkedFs : FsState :=
  ⟨smallDisk, update (fun _ => .new 0) 2
    { Dinode.new 2 with size := 1, addrs := noAddrs.set 0 4 }⟩

lemma slot_unmarkedFs {x : ℕ × ℕ} (h : unmarkedFs.slot smallSb x ≠ 0) : x = (2, 0) := by
  obtain ⟨i, k⟩ := x
  obtain ⟨hi, hk⟩ := le_of_slot_ne h
  have hall : ∀ i < 3, ∀ k < MAXFILE + 1, unmarkedFs.slot smallSb (i, k) ≠ 0 → i = 2 ∧ k = 0 := by
    decide +kernel
  obtain ⟨rfl, rfl⟩ := hall i hi k (Nat.lt_succ_of_le hk) h
  rfl

/-- **Mapped and unshared blocks are not enough.**  In this state every block below a size is there
and no two slots share one, but a block in use is not marked: writing to one file changes another.
And a read returns -1 if the copy to the destination fails. -/
theorem unmarked_block_is_handed_out :
    (∀ i, i < smallSb.ninodes → ∀ k, k * BSIZE < (unmarkedFs.ino i).size →
      unmarkedFs.slot smallSb (i, k) ≠ 0) ∧
    (∀ x y, unmarkedFs.slot smallSb x ≠ 0 → unmarkedFs.slot smallSb x = unmarkedFs.slot smallSb y →
      x = y) ∧
    unmarkedFs.byte smallSb 2 0 = 7 ∧
    (writei smallSb 1 ⟨fun _ => 9, fun _ => none⟩ 0 1 unmarkedFs).toOption.map
      (fun r => (r.1, r.2.byte smallSb 2 0)) = some (1, 9) ∧
    (readi smallSb 2 (fun _ => false) 0 1 unmarkedFs).toOption.map (fun r => r.1.1) =
      some (-1) := by
  refine ⟨fun i hi k hk => ?_, fun x y hx hxy => ?_, by decide +kernel, by decide +kernel,
    by decide +kernel⟩
  · have hsmall : ∀ i < 3, (unmarkedFs.ino i).size ≤ if i = 2 then 1 else 0 := by decide +kernel
    have hle := hsmall i hi
    split_ifs at hle with h2
    · obtain rfl : k = 0 := by
        simp only [BSIZE] at hk
        omega
      rw [h2]
      decide +kernel
    · omega
  · rw [slot_unmarkedFs hx, slot_unmarkedFs (x := y) (hxy ▸ hx)]

end FsState

end Xv6
