import Xv6.Fs.Dir
import Xv6.Fs.Itrunc

/-!
# The calls that change directories

`create` (which is also `mkdir` and `mknod`), `sys_link` and `sys_unlink`, from the point on where
the path has been resolved: `dp` is the locked parent and `name` the last element. An inode that has
been unlinked is freed when the last reference to it goes away, by `iputFree`.

Each call has a specification that says which directory entries it changes. The calls that fail may
have allocated blocks, but they change no content.
-/

namespace Xv6

open ByteArr Prog List Function

/-- A C string. -/
def dot : List UInt8 := [46]

def dotdot : List UInt8 := [46, 46]

/-- A value stored in a `short`. -/
def toShort (x : ℤ) : ℤ := toInt16 (x % 2 ^ 16).toNat

/-- What `create` returns. -/
inductive CreateResult where
  /-- The file was there. -/
  | old (ip : ℕ)
  | new (ip : ℕ)
  | fail
  deriving DecidableEq

namespace Fs

variable (sb : Superblock)

/-- Fields of an inode other than size and blocks change, and `iupdate`. -/
def update (i : ℕ) (f : Dinode → Dinode) : FsProg Unit := do
  modify fun s => s.setInode i (f (s.ino i))
  iupdate sb i

def setNlink (i : ℕ) (f : ℤ → ℤ) : FsProg Unit :=
  update sb i fun v => { v with nlink := toShort (f v.nlink) }

/-- `ialloc`, and `ilock`, which reads the new dinode. -/
def ialloc (type : ℤ) : FsProg (Option ℕ) := do
  let s ← get
  match (range sb.ninodes).find? fun i => decide (0 < i ∧ (sb.dinode s.disk i).type = 0) with
  | some inum =>
    update sb inum fun _ => .new type
    return some inum
  | none => return none

/-- What `iput` does to an inode without links when the last reference goes. -/
def iputFree (inum : ℕ) : FsProg Unit := do
  itrunc sb inum
  update sb inum fun v => { v with type := 0 }

/-- The entries of a new directory. -/
def dots (ip dp : ℕ) : FsProg Bool := do
  let r ← dirlink sb ip dot ip
  if r < 0 then return false
  else
    let r ← dirlink sb ip dotdot dp
    return decide (0 ≤ r)

/-- A new directory gets its entries. -/
def newDots (type : ℤ) (ip dp : ℕ) : FsProg Bool :=
  if type = T_DIR then dots sb ip dp else pure true

/-- A directory has to be empty to be unlinked. -/
def mayUnlink (type : ℤ) (ip : ℕ) : FsProg Bool :=
  if type = T_DIR then isdirempty sb ip else pure true

/-- The link count of the parent follows the `..` of a directory. -/
def parentNlink (type : ℤ) (dp : ℕ) (f : ℤ → ℤ) : FsProg Unit :=
  if type = T_DIR then setNlink sb dp f else pure ()

/-- The label `fail` of `create`. -/
def createFail (ip : ℕ) : FsProg CreateResult := do
  setNlink sb ip fun _ => 0
  iputFree sb ip
  return .fail

/-- The part of `create` behind `ialloc`. -/
def createNew (dp : ℕ) (name : List UInt8) (type major minor : ℤ) (ip : ℕ) :
    FsProg CreateResult := do
  update sb ip fun v => { v with major := major, minor := minor, nlink := 1 }
  let ok ← newDots sb type ip dp
  if ok then
    let r ← dirlink sb dp name ip
    if r < 0 then createFail sb ip
    else
      parentNlink sb type dp (· + 1)
      return .new ip
  else createFail sb ip

def create (dp : ℕ) (name : List UInt8) (type major minor : ℤ) : FsProg CreateResult := do
  match ← dirlookup sb dp name with
  | some (ip, _) =>
    let s ← get
    if (s.ino ip).type = 0 then throw .ilockNoType
    else if type = T_FILE ∧ ((s.ino ip).type = T_FILE ∨ (s.ino ip).type = T_DEVICE) then
      return .old ip
    else return .fail
  | none =>
    match ← ialloc sb type with
    | none => return .fail
    | some ip => createNew sb dp name type major minor ip

def link (ip dp : ℕ) (name : List UInt8) : FsProg ℤ := do
  let s ← get
  if (s.ino ip).type = T_DIR then return -1
  else
    setNlink sb ip (· + 1)
    let r ← dirlink sb dp name ip
    if r < 0 then
      setNlink sb ip (· - 1)
      return -1
    else return 0

/-- An entry of zeros. -/
def noEntry : Dirent := ⟨0, replicate DIRSIZ 0⟩

def unlink (dp : ℕ) (name : List UInt8) : FsProg ℤ := do
  if namecmp name dot = 0 ∨ namecmp name dotdot = 0 then return -1
  else
    match ← dirlookup sb dp name with
    | none => return -1
    | some (ip, off) =>
      let s ← get
      if (s.ino ip).type = 0 then throw .ilockNoType
      else if (s.ino ip).nlink < 1 then throw .unlinkNlink
      else
        let empty ← mayUnlink sb (s.ino ip).type ip
        if empty then
          let r ← writei sb dp ⟨fun j => noEntry.toBytes.getD j 0, fun _ => none⟩ off DE
          if r ≠ DE then throw .unlinkWritei
          else
            parentNlink sb (s.ino ip).type dp (· - 1)
            setNlink sb ip (· - 1)
            return 0
        else return -1

end Fs

namespace FsState

variable {sb : Superblock} {s t u : FsState} {i j dp ip inum : ℕ} {name : List UInt8}
  {type major minor : ℤ} {f : Dinode → Dinode}

/-! ## Updates of inodes -/

/-- Between calls: the disk shows the inodes, and a free inode has no blocks. -/
structure Quiet (sb : Superblock) (s : FsState) : Prop where
  consistent : s.Consistent sb
  synced : s.Synced sb
  free : ∀ i, i < sb.ninodes → (s.ino i).type = 0 → (s.ino i).size = 0 ∧ (s.ino i).addrs = noAddrs

/-- An inode keeps its type and its content. -/
structure Keeps (sb : Superblock) (s t : FsState) (i : ℕ) : Prop where
  type : (t.ino i).type = (s.ino i).type
  content : t.content sb i = s.content sb i

lemma Keeps.refl : Keeps sb s s i := ⟨rfl, rfl⟩

lemma Keeps.trans (h : Keeps sb s t i) (h' : Keeps sb t u i) : Keeps sb s u i :=
  ⟨h'.type.trans h.type, h'.content.trans h.content⟩

lemma Keeps.size (h : Keeps sb s t i) : (t.ino i).size = (s.ino i).size := by
  have h1 : (t.content sb i).length = (t.ino i).size := length_content
  have h2 : (s.content sb i).length = (s.ino i).size := length_content
  rw [← h1, h.content, h2]

lemma Keeps.dir (h : Keeps sb s t i) : t.dir sb i = s.dir sb i := by
  rw [FsState.dir, h.content, FsState.dir]

lemma Touches.keeps (h : Touches sb s t i) (hj : j ≠ i) : Keeps sb s t j :=
  ⟨by rw [h.ino j hj], h.content j hj⟩

/-- `update` leaves content alone; only the other inodes need to be on the disk before. -/
lemma update_spec (hsb : sb.WF) (h : s.Consistent sb) (hi : i < sb.ninodes)
    (hsync : ∀ j, j < sb.ninodes → j ≠ i → sb.dinode s.disk j = s.ino j)
    (hsize : (f (s.ino i)).size = (s.ino i).size) (haddrs : (f (s.ino i)).addrs = (s.ino i).addrs)
    (hfits : (f (s.ino i)).Fits) :
    wp (Fs.update sb i f) s (fun _ t => t.Consistent sb ∧ t.Synced sb ∧
      t.ino = update s.ino i (f (s.ino i)) ∧ ∀ j, t.content sb j = s.content sb j)
      fun _ => False := by
  simp only [Fs.update, wp_bind, wp_modify]
  refine iupdate_spec ?_
  set v := s.setInode i (f (s.ino i)) with hv
  have hself : v.ino i = f (s.ino i) := update_self ..
  have hvsize : ∀ j, (v.ino j).size = (s.ino j).size := by
    intro j
    by_cases hj : j = i
    · rw [hj, hself, hsize]
    · exact congrArg Dinode.size (update_of_ne hj _ _)
  have howned : v.Owned sb := h.toOwned.setInode haddrs hfits
  have hvslot : ∀ y, v.slot sb y = s.slot sb y := slot_setInode haddrs
  have hslot : ∀ y, (v.updated sb i).slot sb y = s.slot sb y := fun y =>
    (slot_updated hsb howned hi y).trans (hvslot y)
  have hbyte : ∀ j p, (v.updated sb i).byte sb j p = s.byte sb j p := fun j p =>
    (byte_updated hsb howned hi j p).trans (byte_congr hvslot (fun _ _ => rfl) j p)
  refine ⟨⟨howned.updated hsb hi, fun j hj k hk => ?_, fun j hj => ?_⟩, fun j hj => ?_, rfl,
    fun j => ?_⟩
  · rw [hslot]
    change k * BSIZE < (v.ino j).size at hk
    rw [hvsize] at hk
    exact h.mapped j hj k hk
  · show (v.ino j).size ≤ _
    rw [hvsize]
    exact h.size_le j hj
  · rw [dinode_updated howned hi]
    split_ifs with hji
    · rw [hji]
      rfl
    · exact (hsync j hj hji).trans (update_of_ne hji _ _).symm
  · have hsz : ((v.updated sb i).ino j).size = (s.ino j).size := hvsize j
    rw [FsState.content, FsState.content, hsz]
    exact map_congr_left fun p _ => hbyte j p

lemma toShort_range (x : ℤ) : -2 ^ 15 ≤ toShort x ∧ toShort x < 2 ^ 15 :=
  toInt16_range (by omega)

lemma fits_nlink {v : Dinode} (h : v.Fits) (x : ℤ) :
    ({ v with nlink := toShort x } : Dinode).Fits := by
  refine ⟨fun f => ?_, h.size, h.length, h.addrs⟩
  match f with
  | 0 => exact h.short 0
  | 1 => exact h.short 1
  | 2 => exact h.short 2
  | f + 3 => exact toShort_range x

lemma update_keeps (hsb : sb.WF) (h : s.Quiet sb) (hi : i < sb.ninodes)
    (htype : (f (s.ino i)).type = (s.ino i).type) (hsize : (f (s.ino i)).size = (s.ino i).size)
    (haddrs : (f (s.ino i)).addrs = (s.ino i).addrs) (hfits : (f (s.ino i)).Fits) :
    wp (Fs.update sb i f) s (fun _ t => t.Quiet sb ∧ (∀ j, Keeps sb s t j) ∧
      t.ino = update s.ino i (f (s.ino i))) fun _ => False := by
  refine (update_spec hsb h.consistent hi (fun j hj _ => h.synced j hj) hsize haddrs hfits).post ?_
  rintro - t ⟨hc, hs, hino, hcontent⟩
  have hsame : ∀ j, (t.ino j).type = (s.ino j).type ∧ (t.ino j).size = (s.ino j).size ∧
      (t.ino j).addrs = (s.ino j).addrs := by
    intro j
    rw [hino]
    by_cases hj : j = i
    · rw [hj, update_self]
      exact ⟨htype, hsize, haddrs⟩
    · rw [update_of_ne hj]
      exact ⟨rfl, rfl, rfl⟩
  refine ⟨⟨hc, hs, fun j hj h0 => ?_⟩, fun j => ⟨(hsame j).1, hcontent j⟩, hino⟩
  rw [(hsame j).2.1, (hsame j).2.2]
  exact h.free j hj (by rw [← (hsame j).1]; exact h0)

lemma setNlink_spec (hsb : sb.WF) (h : s.Quiet sb) (hi : i < sb.ninodes) (f : ℤ → ℤ) :
    wp (Fs.setNlink sb i f) s (fun _ t => t.Quiet sb ∧ ∀ j, Keeps sb s t j) fun _ => False :=
  (update_keeps hsb h hi rfl rfl rfl (fits_nlink (h.consistent.fits i hi) _)).post fun _ _ ht =>
    ⟨ht.1, ht.2.1⟩

lemma fits_device {v : Dinode} (h : v.Fits)
    (hshort : (-2 ^ 15 ≤ major ∧ major < 2 ^ 15) ∧ (-2 ^ 15 ≤ minor ∧ minor < 2 ^ 15)) :
    ({ v with major := major, minor := minor, nlink := 1 } : Dinode).Fits := by
  refine ⟨fun f => ?_, h.size, h.length, h.addrs⟩
  match f with
  | 0 => exact h.short 0
  | 1 => exact hshort.1
  | 2 => exact hshort.2
  | f + 3 => exact (show -2 ^ 15 ≤ (1 : ℤ) ∧ (1 : ℤ) < 2 ^ 15 by norm_num)

lemma parentNlink_spec (hsb : sb.WF) (h : s.Quiet sb) (hi : dp < sb.ninodes) (f : ℤ → ℤ) :
    wp (Fs.parentNlink sb type dp f) s (fun _ t => t.Quiet sb ∧ ∀ j, Keeps sb s t j)
      fun _ => False := by
  rw [Fs.parentNlink, wp_ite]
  refine ⟨fun _ => ?_, fun _ => wp_pure.mpr ⟨h, fun _ => .refl⟩⟩
  exact setNlink_spec hsb h hi f

lemma ialloc_spec (hsb : sb.WF) (h : s.Quiet sb) (htype : -2 ^ 15 ≤ type ∧ type < 2 ^ 15)
    (hne : type ≠ 0) : wp (Fs.ialloc sb type) s (fun r t => match r with
      | none => t = s
      | some ip => 0 < ip ∧ ip < sb.ninodes ∧ (s.ino ip).type = 0 ∧ t.Quiet sb ∧
          t.ino ip = .new type ∧ (∀ j, j ≠ ip → t.ino j = s.ino j) ∧
          ∀ j, t.content sb j = s.content sb j) fun _ => False := by
  simp only [Fs.ialloc, wp_bind, wp_get]
  cases hfind : (range sb.ninodes).find? fun i =>
      decide (0 < i ∧ (sb.dinode s.disk i).type = 0) with
  | none => exact wp_pure.mpr rfl
  | some ip =>
    have hlt : ip < sb.ninodes := mem_range.mp (mem_of_find?_eq_some hfind)
    obtain ⟨hpos, h0⟩ : 0 < ip ∧ (sb.dinode s.disk ip).type = 0 := by
      simpa using find?_some hfind
    rw [h.synced ip hlt] at h0
    obtain ⟨hsize, haddrs⟩ := h.free ip hlt h0
    rw [wp_bind]
    refine (update_spec hsb h.consistent hlt
      (fun j hj _ => h.synced j hj) hsize.symm haddrs.symm (Dinode.new_fits htype)).post ?_
    rintro - t ⟨hc, hs, hino, hcontent⟩
    have hother : ∀ j, j ≠ ip → t.ino j = s.ino j := fun j hj => by
      rw [hino, update_of_ne hj]
    have hself : t.ino ip = .new type := by rw [hino, update_self]
    refine wp_pure.mpr ⟨hpos, hlt, h0, ⟨hc, hs, fun j hj hj0 => ?_⟩, hself, hother, hcontent⟩
    by_cases hji : j = ip
    · rw [hji, hself] at hj0
      exact absurd hj0 hne
    · rw [hother j hji] at hj0 ⊢
      exact h.free j hj hj0

/-- `itrunc` keeps the file system consistent and leaves the other files alone. -/
lemma Truncated.kept (hu : Truncated sb s u inum) (hsb : sb.WF) (h : s.Consistent sb)
    (hi : inum < sb.ninodes) :
    u.Consistent sb ∧ ∀ j, j ≠ inum → u.content sb j = s.content sb j := by
  have hbyte : ∀ j, j ≠ inum → ∀ p, u.byte sb j p = s.byte sb j p := by
    intro j hj p
    rw [byte, byte, hu.slot _ hj]
    split_ifs with hc
    · have hlo := (h.toOwned.data hc.2).1
      refine congrFun (hu.disk _ (fun c hc' => ?_) ?_) _
      · have := Superblock.bblock_lt hc'
        omega
      · have := Superblock.iblock_lt hsb hi
        omega
    · rfl
  refine ⟨⟨hu.owned, fun j hj k hk => ?_, fun j hj => ?_⟩, fun j hj => ?_⟩
  · by_cases hji : j = inum
    · rw [hji, hu.self] at hk
      exact absurd hk (Nat.not_lt_zero _)
    · rw [hu.ino j hji] at hk
      rw [hu.slot _ hji]
      exact h.mapped j hj k hk
  · by_cases hji : j = inum
    · rw [hji, hu.self]
      exact Nat.zero_le _
    · rw [hu.ino j hji]
      exact h.size_le j hj
  · rw [FsState.content, FsState.content, hu.ino j hj]
    exact map_congr_left fun p _ => hbyte j hj p

lemma iputFree_spec (hsb : sb.WF) (h : s.Consistent sb) (hsync : s.Synced sb)
    (hi : inum < sb.ninodes) (hfree : ∀ i, i < sb.ninodes → i ≠ inum → (s.ino i).type = 0 →
      (s.ino i).size = 0 ∧ (s.ino i).addrs = noAddrs) :
    wp (Fs.iputFree sb inum) s (fun _ t => t.Quiet sb ∧ (t.ino inum).type = 0 ∧
      ∀ j, j ≠ inum → t.ino j = s.ino j ∧ t.content sb j = s.content sb j) fun _ => False := by
  simp only [Fs.iputFree, wp_bind]
  refine (itrunc_spec hsb h.toOwned hi).post fun _ u hu => ?_
  obtain ⟨hcons, hcontent⟩ := hu.kept hsb h hi
  have hsync' : ∀ j, j < sb.ninodes → j ≠ inum → sb.dinode u.disk j = u.ino j := by
    intro j hj hji
    rw [hu.dinode j hj, if_neg hji, hu.ino j hji]
    exact hsync j hj
  have hfits := (hu.owned.fits inum hi).of_free
  refine (update_spec hsb hcons hi hsync' rfl rfl hfits).post ?_
  rintro - t ⟨hc, hs, hino, hct⟩
  have hself : t.ino inum = { u.ino inum with type := 0 } := by rw [hino, update_self]
  have hother : ∀ j, j ≠ inum → t.ino j = s.ino j := fun j hj => by
    rw [hino, update_of_ne hj, hu.ino j hj]
  refine ⟨⟨hc, hs, fun j hj h0 => ?_⟩, by rw [hself], fun j hj =>
    ⟨hother j hj, (hct j).trans (hcontent j hj)⟩⟩
  by_cases hji : j = inum
  · rw [hji, hself, hu.self]
    exact ⟨rfl, rfl⟩
  · rw [hother j hji] at h0 ⊢
    exact hfree j hj hji h0

/-! ## `create` -/

/-- All inodes but the new one are as before. -/
structure Fresh (sb : Superblock) (s t : FsState) (ip : ℕ) : Prop where
  quiet : t.Quiet sb
  others : ∀ j, j ≠ ip → Keeps sb s t j

lemma Quiet.touch (h : s.Quiet sb) (ht : Touches sb s t i) (hne : (s.ino i).type ≠ 0) :
    t.Quiet sb := by
  refine ⟨ht.consistent, ht.synced h.synced, fun j hj h0 => ?_⟩
  by_cases hji : j = i
  · rw [hji, ht.fields] at h0
    exact absurd h0 hne
  · rw [ht.ino j hji] at h0 ⊢
    exact h.free j hj h0

lemma Touches.type_eq (h : Touches sb s t i) : (t.ino i).type = (s.ino i).type := by rw [h.fields]

lemma Fresh.touch (h : Fresh sb s t ip) (ht : Touches sb t u ip) (hne : (t.ino ip).type ≠ 0) :
    Fresh sb s u ip :=
  ⟨h.quiet.touch ht hne, fun j hj => (h.others j hj).trans (ht.keeps hj)⟩

lemma createFail_spec (hsb : sb.WF) (h : Fresh sb s t ip) (hi : ip < sb.ninodes) :
    wp (Fs.createFail sb ip) t (fun r u => r = .fail ∧ Fresh sb s u ip ∧ (u.ino ip).type = 0)
      fun _ => False := by
  simp only [Fs.createFail, wp_bind]
  refine (setNlink_spec hsb h.quiet hi _).post fun _ u hu => ?_
  obtain ⟨hq, hkeep⟩ := hu
  refine (iputFree_spec hsb hq.consistent hq.synced hi fun j hj _ => hq.free j hj).post
    fun _ v hv => wp_pure.mpr ⟨rfl, ⟨hv.1, fun j hj => ?_⟩, hv.2.1⟩
  have hlast : Keeps sb u v j := ⟨by rw [(hv.2.2 j hj).1], (hv.2.2 j hj).2⟩
  exact ((h.others j hj).trans (hkeep j)).trans hlast

/-- The first two entries of a new directory. -/
def dotEntries (ip dp : ℕ) : List Dirent :=
  [⟨ip, strncpy DIRSIZ dot⟩, ⟨dp, strncpy DIRSIZ dotdot⟩]

lemma dots_spec (hsb : sb.WF) (h : Fresh sb s t ip) (hi : ip < sb.ninodes) (hpos : 0 < ip)
    (hlt : ip < 2 ^ 16) (hdp : dp < 2 ^ 16) (hdir : (t.ino ip).type = T_DIR)
    (hempty : t.dir sb ip = []) (h16 : DE ∣ (t.ino ip).size) :
    wp (Fs.dots sb ip dp) t (fun r u => Fresh sb s u ip ∧ (u.ino ip).type = T_DIR ∧
      DE ∣ (u.ino ip).size ∧ (r = true → u.dir sb ip = dotEntries ip dp)) fun _ => False := by
  have hne : ∀ v : FsState, (v.ino ip).type = T_DIR → (v.ino ip).type ≠ 0 := fun v hv => by
    rw [hv]
    decide
  simp only [Fs.dots, wp_bind]
  refine (dirlink_spec _ hsb h.quiet.consistent hi h16 hdir hlt).post fun r u hu => ?_
  obtain ⟨htouch, hsz, hcase⟩ := hu
  have hfu := h.touch htouch (hne t hdir)
  have hdu : (u.ino ip).type = T_DIR := htouch.type_eq.trans hdir
  rcases hcase with ⟨rfl, -, e, he, -, hput⟩ | ⟨rfl, -⟩
  · rw [if_neg (by decide), wp_bind]
    rw [hempty] at he hput
    obtain rfl : e = 0 := Nat.le_zero.mp he
    change u.dir sb ip = [_] at hput
    refine (dirlink_spec _ hsb hfu.quiet.consistent hi hsz hdu hdp).post fun r v hv => ?_
    obtain ⟨htouch', hsz', hcase'⟩ := hv
    refine wp_pure.mpr ⟨hfu.touch htouch' (hne u hdu), htouch'.type_eq.trans hdu, hsz',
      fun hr => ?_⟩
    rcases hcase' with ⟨rfl, -, e, he, hfree, hput'⟩ | ⟨rfl, -⟩
    · rw [hput] at he hfree hput'
      obtain rfl : e = 1 := by
        have he1 : e ≤ 1 := he
        rcases Nat.eq_zero_or_pos e with rfl | hpe
        · have := hfree _ rfl
          simp only at this
          omega
        · omega
      exact hput'
    · exact absurd hr (by decide)
  · rw [if_pos (by decide), wp_pure]
    exact ⟨hfu, hdu, hsz, fun hr => absurd hr (by decide)⟩

/-- A name has been entered into a directory. -/
structure Entered (sb : Superblock) (s t : FsState) (dp : ℕ) (name : List UInt8) (inum : ℕ) :
    Prop where
  type : (t.ino dp).type = (s.ino dp).type
  size : DE ∣ (t.ino dp).size
  absent : lookup (s.dir sb dp) name = 0
  dir : ∃ e, e ≤ (s.dir sb dp).length ∧ (∀ d, (s.dir sb dp)[e]? = some d → d.inum = 0) ∧
    t.dir sb dp = putEntry (s.dir sb dp) e ⟨inum, strncpy DIRSIZ name⟩

lemma Entered.congr (h : Entered sb t u dp name inum) (hk : Keeps sb s t dp) :
    Entered sb s u dp name inum := by
  refine ⟨h.type.trans hk.type, h.size, ?_, ?_⟩
  · rw [← hk.dir]
    exact h.absent
  · rw [← hk.dir]
    exact h.dir

lemma Entered.then (h : Entered sb s t dp name inum) (hk : Keeps sb t u dp) :
    Entered sb s u dp name inum := by
  refine ⟨hk.type.trans h.type, by rw [hk.size]; exact h.size, h.absent, ?_⟩
  rw [hk.dir]
  exact h.dir

/-- What `create` can do. A failure changes no content; the inode it may have used was free. -/
inductive Created (sb : Superblock) (s t : FsState) (dp : ℕ) (name : List UInt8) (type : ℤ) :
    CreateResult → Prop where
  | unchanged {r : CreateResult} (hr : ∀ ip, r ≠ .new ip)
      (hkeep : ∀ j, Keeps sb s t j ∨ (s.ino j).type = 0 ∧ (t.ino j).type = 0) :
      Created sb s t dp name type r
  | made {ip : ℕ} (hpos : 0 < ip) (hi : ip < sb.ninodes) (hfree : (s.ino ip).type = 0)
      (htype : (t.ino ip).type = type) (hsize : DE ∣ (t.ino ip).size ∨ type ≠ T_DIR)
      (hdots : type = T_DIR → t.dir sb ip = dotEntries ip dp) (hdp : Entered sb s t dp name ip)
      (hkeep : ∀ j, j ≠ ip → j ≠ dp → Keeps sb s t j) :
      Created sb s t dp name type (.new ip)

lemma createNew_spec (hsb : sb.WF) (h16 : sb.ninodes ≤ 2 ^ 16) (hdp : dp < sb.ninodes)
    (hdpt : (s.ino dp).type = T_DIR) (hdps : DE ∣ (s.ino dp).size)
    (hshort : (-2 ^ 15 ≤ major ∧ major < 2 ^ 15) ∧ (-2 ^ 15 ≤ minor ∧ minor < 2 ^ 15))
    (hpos : 0 < ip) (hi : ip < sb.ninodes) (hfree : (s.ino ip).type = 0) (hq : t.Quiet sb)
    (hself : t.ino ip = .new type) (hothers : ∀ j, j ≠ ip → Keeps sb s t j) :
    wp (Fs.createNew sb dp name type major minor ip) t
      (fun r u => u.Quiet sb ∧ Created sb s u dp name type r) fun _ => False := by
  have hne : dp ≠ ip := by
    rintro rfl
    rw [hdpt] at hfree
    exact absurd hfree (by decide)
  have hfail : ∀ {u}, Fresh sb s u ip → wp (Fs.createFail sb ip) u
      (fun r v => v.Quiet sb ∧ Created sb s v dp name type r) fun _ => False := by
    intro u hf
    refine (createFail_spec hsb hf hi).post ?_
    rintro r v ⟨rfl, hf', h0⟩
    refine ⟨hf'.quiet, .unchanged (fun ip he => by cases he) fun j => ?_⟩
    by_cases hj : j = ip
    · rw [hj]
      exact .inr ⟨hfree, h0⟩
    · exact .inl (hf'.others j hj)
  simp only [Fs.createNew, wp_bind]
  refine (update_keeps hsb hq hi
    rfl rfl rfl (fits_device (hq.consistent.fits ip hi) hshort)).post ?_
  rintro - u ⟨hqu, hku, hino⟩
  have huself : u.ino ip = { Dinode.new type with major := major, minor := minor, nlink := 1 } := by
    rw [hino, update_self, hself]
  have hfu : Fresh sb s u ip := ⟨hqu, fun j hj => (hothers j hj).trans (hku j)⟩
  have hutype : (u.ino ip).type = type := by rw [huself]; rfl
  have husize : (u.ino ip).size = 0 := by rw [huself]; rfl
  have hempty : u.dir sb ip = [] :=
    eq_nil_of_length_eq_zero (by rw [length_dir, husize, Nat.zero_div])
  -- the entries of the new inode, if it is a directory
  have hdots : wp (Fs.newDots sb type ip dp) u
      (fun r v => Fresh sb s v ip ∧ (v.ino ip).type = type ∧ (DE ∣ (v.ino ip).size ∨ type ≠ T_DIR) ∧
        (r = true → type = T_DIR → v.dir sb ip = dotEntries ip dp)) fun _ => False := by
    rw [Fs.newDots, wp_ite]
    refine ⟨fun hd => ?_, fun hd => wp_pure.mpr ⟨hfu, hutype, .inr hd, fun _ hd' => absurd hd' hd⟩⟩
    refine (dots_spec hsb hfu hi hpos (by omega) (by omega) (hutype.trans hd) hempty
      (by rw [husize]; exact dvd_zero _)).post fun r v hv => ?_
    exact ⟨hv.1, hv.2.1.trans hd.symm, .inl hv.2.2.1, fun hr _ => hv.2.2.2 hr⟩
  refine hdots.post fun ok v hv => ?_
  obtain ⟨hfv, hvtype, hvsize, hvdots⟩ := hv
  rw [wp_ite]
  refine ⟨fun hok => ?_, fun _ => hfail hfv⟩
  rw [wp_bind]
  have hkdp := hfv.others dp hne
  refine (dirlink_spec _ hsb hfv.quiet.consistent hdp (by rw [hkdp.size]; exact hdps)
    (hkdp.type.trans hdpt) (by omega)).post fun r w hw => ?_
  obtain ⟨htouch, hsz, hcase⟩ := hw
  have hqw : w.Quiet sb := hfv.quiet.touch htouch (by rw [hkdp.type, hdpt]; decide)
  have hkip : Keeps sb v w ip := htouch.keeps hne.symm
  rcases hcase with ⟨rfl, habsent, hput⟩ | ⟨rfl, hsame⟩
  · rw [if_neg (by decide)]
    have hentered : Entered sb s w dp name ip :=
      Entered.congr ⟨htouch.type_eq, hsz, habsent, hput⟩ hkdp
    have hkeep : ∀ j, j ≠ ip → j ≠ dp → Keeps sb s w j := fun j hj hjd =>
      (hfv.others j hj).trans (htouch.keeps hjd)
    have hmade : ∀ x : FsState, (∀ j, Keeps sb w x j) → Created sb s x dp name type (.new ip) := by
      intro x hx
      refine .made hpos hi hfree ((hx ip).type.trans (hkip.type.trans hvtype)) ?_ (fun hd => ?_)
        (hentered.then (hx dp)) fun j hj hjd => (hkeep j hj hjd).trans (hx j)
      · rw [(hx ip).size, hkip.size]
        exact hvsize
      · rw [(hx ip).dir, hkip.dir]
        exact hvdots hok hd
    rw [wp_bind]
    exact (parentNlink_spec hsb hqw hdp _).post fun _ x hx => wp_pure.mpr ⟨hx.1, hmade x hx.2⟩
  · rw [if_pos (by decide)]
    refine hfail ⟨hqw, fun j hj => ?_⟩
    by_cases hjd : j = dp
    · rw [hjd]
      exact hkdp.trans ⟨htouch.type_eq, hsame⟩
    · exact (hfv.others j hj).trans (htouch.keeps hjd)

section

variable (name) (hsb : sb.WF) (h16 : sb.ninodes ≤ 2 ^ 16) (hq : s.Quiet sb)
include name hsb h16 hq

lemma create_spec (hdp : dp < sb.ninodes) (hdpt : (s.ino dp).type = T_DIR)
    (hdps : DE ∣ (s.ino dp).size)
    (hshort : (-2 ^ 15 ≤ major ∧ major < 2 ^ 15) ∧ (-2 ^ 15 ≤ minor ∧ minor < 2 ^ 15))
    (htype : type ≠ 0) (hfits : -2 ^ 15 ≤ type ∧ type < 2 ^ 15) :
    wp (Fs.create sb dp name type major minor) s
      (fun r t => t.Quiet sb ∧ Created sb s t dp name type r) fun _ => True := by
  simp only [Fs.create, wp_bind]
  refine (dirlookup_spec _ hsb hq.consistent hdp hdps hdpt).mono ?_ fun _ h => h.elim
  rintro r t ⟨rfl, hfound⟩
  cases r with
  | some x =>
    simp only [wp_bind, wp_get]
    rw [wp_ite]
    refine ⟨fun _ => wp_throw.mpr trivial, fun _ => ?_⟩
    rw [wp_ite]
    exact ⟨fun _ => wp_pure.mpr ⟨hq, .unchanged (fun ip he => by cases he) fun _ => .inl .refl⟩,
      fun _ => wp_pure.mpr ⟨hq, .unchanged (fun ip he => by cases he) fun _ => .inl .refl⟩⟩
  | none =>
    simp only [wp_bind]
    refine (ialloc_spec hsb hq hfits htype).mono (fun r u hu => ?_) fun _ h => h.elim
    cases r with
    | none =>
      obtain rfl : u = t := hu
      exact wp_pure.mpr ⟨hq, .unchanged (fun ip he => by cases he) fun _ => .inl .refl⟩
    | some ip =>
      obtain ⟨hpos, hi, hfree, hqu, hself, hother, hcontent⟩ := hu
      exact (createNew_spec hsb h16 hdp hdpt hdps hshort hpos hi hfree hqu hself
        fun j hj => ⟨by rw [hother j hj], hcontent j⟩).mono (fun _ _ h => h) fun _ h => h.elim

/-! ## `link` and `unlink` -/

lemma link_spec (hip : ip < sb.ninodes) (hdp : dp < sb.ninodes) (hdpt : (s.ino dp).type = T_DIR)
    (hdps : DE ∣ (s.ino dp).size) :
    wp (Fs.link sb ip dp name) s (fun r t => t.Quiet sb ∧
      (r = 0 ∧ Entered sb s t dp name ip ∧ (∀ j, j ≠ dp → Keeps sb s t j) ∨
        r ≠ 0 ∧ ∀ j, Keeps sb s t j)) fun _ => False := by
  simp only [Fs.link, wp_bind, wp_get]
  rw [wp_ite]
  refine ⟨fun _ => wp_pure.mpr ⟨hq, .inr ⟨by decide, fun _ => .refl⟩⟩, fun _ => ?_⟩
  rw [wp_bind]
  refine (setNlink_spec hsb hq hip _).post fun _ t ht => ?_
  obtain ⟨hqt, hkt⟩ := ht
  rw [wp_bind]
  have hdpt' : (t.ino dp).type = T_DIR := (hkt dp).type.trans hdpt
  refine (dirlink_spec _ hsb hqt.consistent hdp (by rw [(hkt dp).size]; exact hdps) hdpt'
    (by omega)).post fun r u hu => ?_
  obtain ⟨htouch, hsz, hcase⟩ := hu
  have hqu : u.Quiet sb := hqt.touch htouch (by rw [hdpt']; decide)
  rcases hcase with ⟨rfl, habsent, hput⟩ | ⟨rfl, hsame⟩
  · rw [if_neg (by decide), wp_pure]
    exact ⟨hqu, .inl ⟨rfl, Entered.congr ⟨htouch.type_eq, hsz, habsent, hput⟩ (hkt dp),
      fun j hj => (hkt j).trans (htouch.keeps hj)⟩⟩
  · rw [if_pos (by decide), wp_bind]
    refine (setNlink_spec hsb hqu hip _).post fun _ v hv => wp_pure.mpr ⟨hv.1, .inr ⟨by decide,
      fun j => ?_⟩⟩
    have huj : Keeps sb t u j := by
      by_cases hj : j = dp
      · rw [hj]
        exact ⟨htouch.type_eq, hsame⟩
      · exact htouch.keeps hj
    exact ((hkt j).trans huj).trans (hv.2 j)

end

/-- A name has been removed from a directory. -/
structure Removed (sb : Superblock) (s t : FsState) (dp : ℕ) (name : List UInt8) : Prop where
  type : (t.ino dp).type = (s.ino dp).type
  size : DE ∣ (t.ino dp).size
  proper : key name ≠ key dot ∧ key name ≠ key dotdot
  dir : ∃ e d, (s.dir sb dp)[e]? = some d ∧ d.Matches name ∧
    t.dir sb dp = putEntry (s.dir sb dp) e Fs.noEntry

lemma Removed.then (h : Removed sb s t dp name) (hk : Keeps sb t u dp) :
    Removed sb s u dp name := by
  refine ⟨hk.type.trans h.type, by rw [hk.size]; exact h.size, h.proper, ?_⟩
  rw [hk.dir]
  exact h.dir

lemma unlink_spec (name : List UInt8) (hsb : sb.WF) (hq : s.Quiet sb) (hdp : dp < sb.ninodes)
    (hdpt : (s.ino dp).type = T_DIR) (hdps : DE ∣ (s.ino dp).size)
    (hips : ∀ ip, ip < sb.ninodes → (s.ino ip).type = T_DIR → DE ∣ (s.ino ip).size)
    (hins : ∀ d ∈ s.dir sb dp, d.inum < sb.ninodes) :
    wp (Fs.unlink sb dp name) s (fun r t => t.Quiet sb ∧
      (r = 0 ∧ Removed sb s t dp name ∧ (∀ j, j ≠ dp → Keeps sb s t j) ∨
        r ≠ 0 ∧ ∀ j, Keeps sb s t j)) fun e => e ≠ .freeingFreeBlock := by
  have hsame : s.Quiet sb ∧ ((-1 : ℤ) = 0 ∧ Removed sb s s dp name ∧
      (∀ j, j ≠ dp → Keeps sb s s j) ∨ (-1 : ℤ) ≠ 0 ∧ ∀ j, Keeps sb s s j) :=
    ⟨hq, .inr ⟨by decide, fun _ => .refl⟩⟩
  simp only [Fs.unlink]
  rw [wp_ite]
  refine ⟨fun _ => wp_pure.mpr hsame, fun hdots => ?_⟩
  rw [wp_bind]
  refine (dirlookup_spec _ hsb hq.consistent hdp hdps hdpt).mono ?_ fun _ h => h.elim
  rintro r t ⟨rfl, hfound⟩
  cases r with
  | none => exact wp_pure.mpr hsame
  | some x =>
    obtain ⟨k, de, rfl, hde, hm⟩ := hfound.off x rfl
    simp only [wp_bind, wp_get]
    rw [wp_ite]
    refine ⟨fun _ => wp_throw.mpr (by decide), fun _ => ?_⟩
    rw [wp_ite]
    refine ⟨fun _ => wp_throw.mpr (by decide), fun _ => ?_⟩
    have hdelt : de.inum < sb.ninodes := hins de (mem_of_getElem? hde)
    have hempty : wp (Fs.mayUnlink sb (t.ino de.inum).type de.inum) t (fun _ u => u = t)
        fun e => e ≠ .freeingFreeBlock := by
      rw [Fs.mayUnlink, wp_ite]
      refine ⟨fun hd => ?_, fun _ => wp_pure.mpr rfl⟩
      exact (isdirempty_spec hsb hq.consistent hdelt (hips _ hdelt hd)).mono
        (fun _ _ hu => hu.1) fun _ h => h.elim
    refine hempty.bind ?_
    rintro b u rfl
    rw [wp_ite]
    refine ⟨fun _ => ?_, fun _ => wp_pure.mpr hsame⟩
    rw [wp_bind]
    have hk : k < (u.dir sb dp).length := (List.getElem?_eq_some_iff.mp hde).1
    refine (writeEntry_spec hsb hq.consistent hdp hdps Fs.noEntry (by decide) rfl hk.le).mono
      (fun r v hv => ?_) fun _ h => h.elim
    obtain ⟨htouch, hsz, hcase⟩ := hv
    rcases hcase with ⟨rfl, hput⟩ | ⟨hne, -⟩
    · rw [if_neg (by simp)]
      have hqv : v.Quiet sb := hq.touch htouch (by rw [hdpt]; decide)
      have hproper : key name ≠ key dot ∧ key name ≠ key dotdot := by
        rw [namecmp_eq_zero, namecmp_eq_zero] at hdots
        exact not_or.mp hdots
      have hremoved : Removed sb u v dp name :=
        ⟨htouch.type_eq, hsz, hproper, k, de, hde, hm, hput⟩
      rw [wp_bind]
      refine (parentNlink_spec hsb hqv hdp _).mono (fun _ x hx => ?_) fun _ h => h.elim
      rw [wp_bind]
      refine (setNlink_spec hsb hx.1 hdelt _).mono (fun _ y hy => ?_) fun _ h => h.elim
      have hall : ∀ j, Keeps sb v y j := fun j => (hx.2 j).trans (hy.2 j)
      exact wp_pure.mpr ⟨hy.1, .inl ⟨rfl, hremoved.then (hall dp), fun j hj =>
        (htouch.keeps hj).trans (hall j)⟩⟩
    · rw [if_pos hne]
      exact wp_throw.mpr (by decide)

end FsState

end Xv6
