import Xv6.Fs.DirMap

/-!
# Every block is accounted for

The calls that allocate and free blocks, in any order and with all their failures: `create`, `link`,
`unlink`, the freeing of an inode when its last reference goes, writes to files, truncation, and
reads. `FsState.Consistent` is the account: every block behind the metadata is free or owned by one
slot of one inode, and the free map says which.

To stay consistent it is not enough to be consistent. A free dinode must not own blocks, because
`ialloc` clears it (`free_inode_loses_its_block`), and the entries of a directory must be numbers of
inodes. These are the other parts of `Sound`, which every call keeps.
-/

namespace Xv6

open Prog FsState Fs

/-- The calls, with copies from and to the user that may fail. -/
inductive FsCall where
  | dir (c : DirCall)
  | write (inum : ℕ) (src : Source) (off n : ℕ)
  | trunc (inum : ℕ)
  | read (inum : ℕ) (ok : ℕ → Bool) (off n : ℕ)

namespace DirSys

def runFs {α : Type} (s : DirSys) (m : FsProg α) : Outcome FsPanic DirSys :=
  match m s.fs with
  | .ok (_, fs) => .next ⟨fs, s.map⟩
  | .error e => .panic e

/-- Directories are written by the calls for directories only; the numbers are `uint`. -/
def fsStep (sb : Superblock) (s : DirSys) : FsCall → Outcome FsPanic DirSys
  | .dir c => s.step sb c
  | .write inum src off n =>
    if inum < sb.ninodes ∧ (s.fs.ino inum).type ≠ 0 ∧ (s.fs.ino inum).type ≠ T_DIR ∧
        off < 2 ^ 32 ∧ n < 2 ^ 32 then
      s.runFs (writei sb inum src off n)
    else .disabled
  | .trunc inum =>
    if inum < sb.ninodes ∧ (s.fs.ino inum).type = T_FILE then s.runFs (itrunc sb inum)
    else .disabled
  | .read inum ok off n =>
    if inum < sb.ninodes ∧ off < 2 ^ 32 ∧ n < 2 ^ 32 then s.runFs (readi sb inum ok off n)
    else .disabled

end DirSys

namespace FsState

variable {sb : Superblock} {s t u : FsState} {i j dp ip inum : ℕ} {name : List UInt8}
  {type major minor : ℤ}

/-- The entries of a directory are whole, and are numbers of inodes. -/
def DirFits (sb : Superblock) (s : FsState) (i : ℕ) : Prop :=
  DE ∣ (s.ino i).size ∧ ∀ d ∈ s.dir sb i, d.inum < sb.ninodes

/-- The invariant of all calls. -/
structure Sound (sb : Superblock) (s : FsState) : Prop where
  quiet : s.Quiet sb
  dirs : ∀ i, DirSys.IsDir sb s i → s.DirFits sb i

lemma DirFits.keep (h : s.DirFits sb i) (hk : Keeps sb s t i) : t.DirFits sb i := by
  rw [DirFits, hk.size, hk.dir]
  exact h

lemma Sound.kept (h : s.Sound sb) (hq : t.Quiet sb)
    (hkeep : ∀ j, Keeps sb s t j ∨ (t.ino j).type ≠ T_DIR) : t.Sound sb := by
  refine ⟨hq, fun i hi => ?_⟩
  rcases hkeep i with hk | hne
  · exact (h.dirs i ⟨hi.1, hk.type.symm.trans hi.2⟩).keep hk
  · exact absurd hi.2 hne

/-- The file system stays sound, and the inodes keep their types. -/
structure Stays (sb : Superblock) (s t : FsState) : Prop where
  sound : t.Sound sb
  type : ∀ j, (t.ino j).type = (s.ino j).type

lemma Stays.trans (h : Stays sb s t) (h' : Stays sb t u) : Stays sb s u :=
  ⟨h'.sound, fun j => (h'.type j).trans (h.type j)⟩

lemma Stays.isDir (h : Stays sb s t) (hi : DirSys.IsDir sb s i) : DirSys.IsDir sb t i :=
  ⟨hi.1, (h.type i).trans hi.2⟩

lemma setNlink_stays (hsb : sb.WF) (h : s.Sound sb) (hi : i < sb.ninodes) (f : ℤ → ℤ) :
    wp (setNlink sb i f) s (fun _ t => Stays sb s t) fun _ => False :=
  (setNlink_spec hsb h.quiet hi f).post fun _ _ ht =>
    ⟨h.kept ht.1 fun j => .inl (ht.2 j), fun j => (ht.2 j).type⟩

lemma Sound.touch (h : s.Sound sb) (ht : Touches sb s t i) (hne : (s.ino i).type ≠ 0)
    (hdir : DirSys.IsDir sb s i → t.DirFits sb i) : Stays sb s t := by
  have htype : ∀ j, (t.ino j).type = (s.ino j).type := by
    intro j
    by_cases hj : j = i
    · rw [hj, ht.type_eq]
    · rw [ht.ino j hj]
  refine ⟨⟨h.quiet.touch ht hne, fun j hj => ?_⟩, htype⟩
  have hj' : DirSys.IsDir sb s j := ⟨hj.1, (htype j).symm.trans hj.2⟩
  by_cases hji : j = i
  · subst hji
    exact hdir hj'
  · exact (h.dirs j hj').keep (ht.keeps hji)

lemma dirlink_mod (name : List UInt8) :
    dirlink sb dp name inum = dirlink sb dp name (inum % 2 ^ 16) := by
  have hbyte : ∀ j < 2, ByteArr.byteOf (inum % 2 ^ 16) j = ByteArr.byteOf inum j := by
    intro j hj
    refine UInt8.toNat_inj.mp ?_
    simp only [ByteArr.byteOf, UInt8.toNat_ofNat']
    interval_cases j <;> omega
  simp only [dirlink, Dirent.toBytes, hbyte 0 (by decide), hbyte 1 (by decide)]

lemma dirlink_stays (name : List UInt8) (hsb : sb.WF) (h : s.Sound sb) (hdp : DirSys.IsDir sb s dp)
    (hinum : inum < sb.ninodes) :
    wp (dirlink sb dp name inum) s (fun _ t => Stays sb s t) fun _ => False := by
  obtain ⟨hsize, hins⟩ := h.dirs dp hdp
  rw [dirlink_mod]
  refine (dirlink_spec name hsb h.quiet.consistent hdp.1 hsize hdp.2
    (Nat.mod_lt _ (by norm_num))).post fun r t ht => ?_
  obtain ⟨htouch, hsz, hcase⟩ := ht
  refine h.touch htouch (by rw [hdp.2]; decide) fun _ => ⟨hsz, fun d hd => ?_⟩
  rcases hcase with ⟨-, -, e, he, -, hput⟩ | ⟨-, hsame⟩
  · rw [hput] at hd
    rcases mem_putEntry he hd with rfl | ⟨k, -, hk⟩
    · exact (Nat.mod_le _ _).trans_lt hinum
    · exact hins d (List.mem_of_getElem? hk)
  · rw [dir, hsame] at hd
    exact hins d hd

section

variable (hsb : sb.WF) (h : s.Sound sb)
include hsb h

lemma iputFree_sound (hi : inum < sb.ninodes) :
    wp (iputFree sb inum) s (fun _ t => t.Sound sb) fun _ => False := by
  refine (iputFree_spec hsb h.quiet.consistent h.quiet.synced hi fun j hj _ =>
    h.quiet.free j hj).post fun _ t ht => h.kept ht.1 fun j => ?_
  by_cases hj : j = inum
  · rw [hj, ht.2.1]
    exact .inr (by decide)
  · exact .inl ⟨by rw [(ht.2.2 j hj).1], (ht.2.2 j hj).2⟩

lemma createFail_sound (hi : ip < sb.ninodes) :
    wp (createFail sb ip) s (fun _ t => t.Sound sb) fun _ => False := by
  simp only [createFail, wp_bind]
  refine (setNlink_stays hsb h hi _).post fun _ t ht => ?_
  exact (iputFree_sound hsb ht.sound hi).post fun _ u hu => wp_pure.mpr hu

lemma newDots_stays (hip : ip < sb.ninodes)
    (htype : (s.ino ip).type = type) (hdp : dp < sb.ninodes) :
    wp (newDots sb type ip dp) s (fun _ t => Stays sb s t) fun _ => False := by
  rw [newDots, wp_ite]
  refine ⟨fun hd => ?_, fun _ => wp_pure.mpr ⟨h, fun _ => rfl⟩⟩
  have hdir : DirSys.IsDir sb s ip := ⟨hip, htype.trans hd⟩
  simp only [dots, wp_bind]
  refine (dirlink_stays _ hsb h hdir hip).post fun r t ht => ?_
  rw [wp_ite]
  refine ⟨fun _ => wp_pure.mpr ht, fun _ => ?_⟩
  rw [wp_bind]
  exact (dirlink_stays _ hsb ht.sound (ht.isDir hdir) hdp).post fun _ u hu =>
    wp_pure.mpr (ht.trans hu)

end

lemma createNew_sound (name : List UInt8) (hsb : sb.WF) (h : s.Sound sb)
    (hdp : DirSys.IsDir sb s dp) (hshort : DirSys.IsShort major ∧ DirSys.IsShort minor)
    (hip : ip < sb.ninodes) (htype : (s.ino ip).type = type) :
    wp (createNew sb dp name type major minor ip) s (fun _ t => t.Sound sb) fun _ => False := by
  simp only [createNew, wp_bind]
  refine (update_keeps hsb
    h.quiet hip rfl rfl rfl (fits_device (h.quiet.consistent.fits ip hip) hshort)).post ?_
  rintro - t ⟨hq, hkeep, -⟩
  have ht : Stays sb s t := ⟨h.kept hq fun j => .inl (hkeep j), fun j => (hkeep j).type⟩
  refine (newDots_stays hsb ht.sound hip ((ht.type ip).trans htype) hdp.1).post fun ok u hu => ?_
  rw [wp_ite]
  refine ⟨fun _ => ?_, fun _ => createFail_sound hsb hu.sound hip⟩
  rw [wp_bind]
  refine (dirlink_stays name hsb hu.sound ((ht.trans hu).isDir hdp) hip).post fun r v hv => ?_
  rw [wp_ite]
  refine ⟨fun _ => createFail_sound hsb hv.sound hip, fun _ => ?_⟩
  rw [wp_bind, parentNlink, wp_ite]
  refine ⟨fun _ => ?_, fun _ => wp_pure.mpr (wp_pure.mpr hv.sound)⟩
  exact (setNlink_stays hsb hv.sound hdp.1 _).post fun _ w hw => wp_pure.mpr hw.sound

lemma create_sound (name : List UInt8) (hsb : sb.WF) (h : s.Sound sb)
    (hdp : DirSys.IsDir sb s dp) (hshort : DirSys.IsShort major ∧ DirSys.IsShort minor)
    (hne : type ≠ 0) (hfits : DirSys.IsShort type) :
    wp (create sb dp name type major minor) s (fun _ t => t.Sound sb)
      fun e => e ≠ .freeingFreeBlock := by
  simp only [create, wp_bind]
  refine (dirlookup_spec name hsb h.quiet.consistent hdp.1 (h.dirs dp hdp).1 hdp.2).mono ?_
    fun _ h => h.elim
  rintro r t ⟨rfl, -⟩
  cases r with
  | some x =>
    simp only [wp_bind, wp_get]
    rw [wp_ite]
    refine ⟨fun _ => wp_throw.mpr (by decide), fun _ => ?_⟩
    rw [wp_ite]
    exact ⟨fun _ => wp_pure.mpr h, fun _ => wp_pure.mpr h⟩
  | none =>
    simp only [wp_bind]
    refine (ialloc_spec hsb h.quiet hfits hne).mono (fun r u hu => ?_) fun _ h => h.elim
    cases r with
    | none =>
      obtain rfl : u = t := hu
      exact wp_pure.mpr h
    | some ip =>
      obtain ⟨-, hi, hfree, hq, hself, hother, hcontent⟩ := hu
      have hsound : u.Sound sb := by
        refine ⟨hq, fun j hj => ?_⟩
        by_cases hji : j = ip
        · -- the new inode is empty
          have hsize : (u.ino j).size = 0 := by rw [hji, hself]; rfl
          refine ⟨by rw [hsize]; exact dvd_zero _, fun d hd => ?_⟩
          have hlen : (u.dir sb j).length = 0 := by rw [length_dir, hsize, Nat.zero_div]
          rw [List.eq_nil_of_length_eq_zero hlen] at hd
          cases hd
        · have hk : Keeps sb t u j := ⟨by rw [hother j hji], hcontent j⟩
          exact (h.dirs j ⟨hj.1, hk.type.symm.trans hj.2⟩).keep hk
      have hne' : dp ≠ ip := by
        rintro rfl
        rw [hdp.2] at hfree
        exact absurd hfree (by decide)
      exact (createNew_sound name hsb hsound ⟨hdp.1, by rw [hother dp hne']; exact hdp.2⟩ hshort
        hi (by rw [hself]; rfl)).mono (fun _ _ h => h) fun _ h => h.elim

lemma link_sound (name : List UInt8) (hsb : sb.WF) (h : s.Sound sb) (hip : ip < sb.ninodes)
    (hdp : DirSys.IsDir sb s dp) :
    wp (link sb ip dp name) s (fun _ t => t.Sound sb) fun _ => False := by
  simp only [link, wp_bind, wp_get]
  rw [wp_ite]
  refine ⟨fun _ => wp_pure.mpr h, fun _ => ?_⟩
  rw [wp_bind]
  refine (setNlink_stays hsb h hip _).post fun _ t ht => ?_
  rw [wp_bind]
  refine (dirlink_stays name hsb ht.sound (ht.isDir hdp) hip).post fun r u hu => ?_
  rw [wp_ite]
  refine ⟨fun _ => ?_, fun _ => wp_pure.mpr hu.sound⟩
  rw [wp_bind]
  exact (setNlink_stays hsb hu.sound hip _).post fun _ v hv => wp_pure.mpr hv.sound

lemma unlink_sound (name : List UInt8) (hsb : sb.WF) (h : s.Sound sb) (hdp : DirSys.IsDir sb s dp) :
    wp (unlink sb dp name) s (fun _ t => t.Sound sb) fun e => e ≠ .freeingFreeBlock := by
  obtain ⟨hsize, hins⟩ := h.dirs dp hdp
  refine (unlink_spec name hsb h.quiet hdp.1 hdp.2 hsize
    (fun ip hlt hd => (h.dirs ip ⟨hlt, hd⟩).1) hins).post fun r t ht => ?_
  obtain ⟨hq, ⟨-, hremoved, hkeep⟩ | ⟨-, hkeep⟩⟩ := ht
  · refine ⟨hq, fun j hj => ?_⟩
    by_cases hjd : j = dp
    · subst hjd
      obtain ⟨e, d, hd, -, hput⟩ := hremoved.dir
      refine ⟨hremoved.size, fun d' hd' => ?_⟩
      rw [hput] at hd'
      rcases mem_putEntry (List.getElem?_eq_some_iff.mp hd).1.le hd' with rfl | ⟨k, -, hk⟩
      · exact (Nat.zero_le _).trans_lt hj.1
      · exact hins d' (List.mem_of_getElem? hk)
    · exact (h.dirs j ⟨hj.1, (hkeep j hjd).type.symm.trans hj.2⟩).keep (hkeep j hjd)
  · exact h.kept hq fun j => .inl (hkeep j)

lemma writei_sound (hsb : sb.WF) (h : s.Sound sb) (hi : inum < sb.ninodes)
    (hne : (s.ino inum).type ≠ 0) (hdir : (s.ino inum).type ≠ T_DIR) (src : Source) {off n : ℕ}
    (hoff : off < 2 ^ 32) (hn : n < 2 ^ 32) :
    wp (writei sb inum src off n) s (fun _ t => t.Sound sb) fun _ => False := by
  refine (writei_spec hsb h.quiet.consistent hi src hoff hn).post fun r t ht => ?_
  split_ifs at ht
  · rw [ht.2]
    exact h
  · obtain ⟨tot, -, hw⟩ := ht
    exact (h.touch hw.touches hne fun hd => absurd hd.2 hdir).sound

lemma itrunc_sound (hsb : sb.WF) (h : s.Sound sb) (hi : inum < sb.ninodes)
    (htype : (s.ino inum).type = T_FILE) :
    wp (itrunc sb inum) s (fun _ t => t.Sound sb) fun _ => False := by
  refine (itrunc_spec hsb h.quiet.consistent.toOwned hi).post fun _ t ht => ?_
  obtain ⟨hc, hcontent⟩ := ht.kept hsb h.quiet.consistent hi
  have hself : (t.ino inum).type = T_FILE := by rw [ht.self, htype]
  refine h.kept ⟨hc, fun j hj => ?_, fun j hj h0 => ?_⟩ fun j => ?_
  · rw [ht.dinode j hj]
    split_ifs with hji
    · rw [hji]
    · rw [ht.ino j hji, h.quiet.synced j hj]
  · by_cases hji : j = inum
    · rw [hji, hself] at h0
      exact absurd h0 (by decide)
    · rw [ht.ino j hji] at h0 ⊢
      exact h.quiet.free j hj h0
  · by_cases hji : j = inum
    · rw [hji, hself]
      exact .inr (by decide)
    · exact .inl ⟨by rw [ht.ino j hji], hcontent j hji⟩

end FsState

namespace DirSys

variable {sb : Superblock} {s t : DirSys} {c : FsCall}

/-- What a call may do to a sound file system. -/
def Safe (sb : Superblock) : Outcome FsPanic DirSys → Prop
  | .next t => t.fs.Sound sb
  | .disabled => True
  | .panic e => e ≠ .freeingFreeBlock

lemma runFs_safe {α : Type} {m : FsProg α} {E : FsPanic → Prop}
    (h : wp m s.fs (fun _ t => t.Sound sb) E) (hE : ∀ e, E e → e ≠ .freeingFreeBlock) :
    Safe sb (s.runFs m) := by
  rw [runFs]
  cases hm : m s.fs with
  | ok x => exact h.1 x.1 x.2 hm
  | error e => exact hE e (h.2 e hm)

lemma step_safe (hsb : sb.WF) (h : s.fs.Sound sb) (c : DirCall) : Safe sb (s.step sb c) := by
  by_cases hen : s.Enabled sb c
  swap
  · rw [DirSys.step, if_neg hen]
    trivial
  -- a call is its program on the file system; the maps do not matter
  have key : ∀ {α : Type} {m : FsProg α} {f : α → FsState → DirSys},
      wp m s.fs (fun _ t => t.Sound sb) (fun e => e ≠ .freeingFreeBlock) →
      (∀ a fs, (f a fs).fs = fs) →
      (s.call sb c = m s.fs >>= fun x => .ok (f x.1 x.2)) →
      Safe sb (s.step sb c) := by
    intro α m f hm hf hcall
    rw [DirSys.step, if_pos hen, hcall]
    cases hrun : m s.fs with
    | ok x =>
      show (f x.1 x.2).fs.Sound sb
      rw [hf]
      exact hm.1 x.1 x.2 hrun
    | error e => exact hm.2 e hrun
  cases c with
  | create dp name type major minor =>
    obtain ⟨hdp, hmaj, hmin, htype⟩ := hen
    have hne : type ≠ 0 ∧ IsShort type := by
      rcases htype with rfl | rfl | rfl <;> decide
    exact key (create_sound name hsb h hdp ⟨hmaj, hmin⟩ hne.1 hne.2)
      (f := fun r fs => ⟨fs, s.created dp name type r⟩) (fun _ _ => rfl) rfl
  | link ip dp name =>
    exact key ((link_sound name hsb h hen.2.2.1 hen.1).mono (fun _ _ h => h) fun _ h => h.elim)
      (f := fun r fs => ⟨fs, if r = 0 then bind s.map dp name ip else s.map⟩) (fun _ _ => rfl) rfl
  | unlink dp name =>
    exact key (unlink_sound name hsb h hen)
      (f := fun r fs => ⟨fs, if r = 0 then bind s.map dp name 0 else s.map⟩) (fun _ _ => rfl) rfl
  | free ip =>
    exact key ((iputFree_sound hsb h hen.2.1).mono (fun _ _ h => h) fun _ h => h.elim)
      (f := fun _ fs => ⟨fs, s.map⟩) (fun _ _ => rfl) rfl

lemma fsStep_safe (hsb : sb.WF) (h : s.fs.Sound sb) (c : FsCall) : Safe sb (s.fsStep sb c) := by
  cases c with
  | dir c => exact step_safe hsb h c
  | write inum src off n =>
    rw [fsStep]
    split_ifs with hen
    · exact runFs_safe (writei_sound hsb h hen.1 hen.2.1 hen.2.2.1 src hen.2.2.2.1 hen.2.2.2.2)
        fun _ h => h.elim
    · trivial
  | trunc inum =>
    rw [fsStep]
    split_ifs with hen
    · exact runFs_safe (itrunc_sound hsb h hen.1 hen.2) fun _ h => h.elim
    · trivial
  | read inum ok off n =>
    rw [fsStep]
    split_ifs with hen
    · refine runFs_safe ((readi_spec hsb h.quiet.consistent hen.1 ok hen.2.1 hen.2.2).post
        fun _ t ht => ?_) fun _ h => h.elim
      rw [ht.1]
      exact h
    · trivial

/-- **Every block is accounted for.**  After every sequence of calls on a sound file system it is
consistent, no call frees a free block, and a read changes nothing, so it allocates nothing. -/
theorem blocks_accounted (hsb : sb.WF) {s0 s : DirSys} {calls : List FsCall}
    (h₀ : s0.fs.Sound sb) (hrun : Run (fsStep sb) s0 calls s) :
    s.fs.Consistent sb ∧ (∀ c, s.fsStep sb c ≠ .panic .freeingFreeBlock) ∧
      ∀ inum ok off n, inum < sb.ninodes → off < 2 ^ 32 → n < 2 ^ 32 →
        ∃ r, readi sb inum ok off n s.fs = .ok (r, s.fs) := by
  have hsound : s.fs.Sound sb := by
    refine hrun.invariant (I := fun (t : DirSys) => t.fs.Sound sb) (fun t c t' h hs => ?_) h₀
    have := fsStep_safe hsb h c
    rwa [hs] at this
  refine ⟨hsound.quiet.consistent, fun c hc => ?_, fun inum ok off n hi hoff hn => ?_⟩
  · have := fsStep_safe hsb hsound c
    rw [hc] at this
    exact this rfl
  · obtain ⟨r, t, hr, ht, -⟩ := (readi_spec hsb hsound.quiet.consistent hi ok hoff hn).returns
    rw [ht] at hr
    exact ⟨r, hr⟩

/-- A file is made in the root, written with a copy that fails in its second block, truncated and
unlinked, and its inode is freed. -/
def fileCalls : List FsCall :=
  [.dir (.create 1 [97] T_FILE 0 0),
    .write 2 ⟨fun _ => 1, fun k => if k = BSIZE then some 3 else none⟩ 0 (2 * BSIZE),
    .trunc 2, .dir (.unlink 1 [97]), .dir (.free 2)]

theorem blocks_accounted_sample : ∃ s, Run (fsStep smallSb) rootSys fileCalls s ∧
    s.fs.Consistent smallSb ∧ (s.fs.ino 2).type = 0 := by
  have hinv := rootSys_inv
  have h₀ : rootSys.fs.Sound smallSb :=
    ⟨hinv.quiet, fun i hi => ⟨(hinv.dirs i hi).size, (hinv.dirs i hi).wf.range⟩⟩
  have hex : (exec (fsStep smallSb) rootSys fileCalls).map (fun s => (s.fs.ino 2).type) =
      some 0 := by decide +kernel
  obtain ⟨s, hs, htype⟩ := Option.map_eq_some_iff.mp hex
  exact ⟨s, .of_exec hs, (blocks_accounted smallSb_wf h₀ (.of_exec hs)).1, htype⟩

/-- Inode 1 is free and has block 4, and inode 2 is a directory without entries. -/
def leakDisk : Disk :=
  smallSb.setDinode (smallSb.setDinode (smallSb.setBit smallDisk 4 true) 1
    { Dinode.new 0 with addrs := noAddrs.set 0 4 }) 2 { Dinode.new T_DIR with nlink := 1 }

/-- A free inode that has a block. -/
def leakSys : DirSys := ⟨diskFs smallSb leakDisk, fun _ _ => 0⟩

/-- **A free inode must not have blocks.**  `create` takes the inode and clears it, and its block is
lost: it is marked, and no slot has it. -/
theorem free_inode_loses_its_block : leakSys.fs.Consistent smallSb ∧
    ∃ s, Run (fsStep smallSb) leakSys [.dir (.create 2 [97] T_FILE 0 0)] s ∧
      ¬ s.fs.Consistent smallSb := by
  have hone : OneBlock 0 leakDisk :=
    ⟨by decide +kernel, by decide +kernel, by decide +kernel, by decide⟩
  have hex : (exec (fsStep smallSb) leakSys [.dir (.create 2 [97] T_FILE 0 0)]).map
      (fun (s : DirSys) => (smallSb.bit s.fs.disk 4, (List.range 3).all fun i =>
        (List.range (MAXFILE + 1)).all fun k => s.fs.slot smallSb (i, k) ≠ 4)) =
        some (true, true) := by decide +kernel
  obtain ⟨s, hs, heq⟩ := Option.map_eq_some_iff.mp hex
  obtain ⟨hbit, hslots⟩ := Prod.mk.inj heq
  refine ⟨hone.consistent, s, .of_exec hs, fun hc => ?_⟩
  obtain ⟨⟨i, k⟩, hx⟩ := (hc.owns.2 4 (by decide)).mp ⟨by decide, by decide, hbit⟩
  have hne : s.fs.slot smallSb (i, k) ≠ 0 := by
    rw [hx]
    decide
  obtain ⟨hi, hk⟩ := le_of_slot_ne hne
  simp only [List.all_eq_true, List.mem_range, decide_eq_true_eq] at hslots
  exact hslots i hi k (Nat.lt_succ_of_le hk) hx

end DirSys

end Xv6
