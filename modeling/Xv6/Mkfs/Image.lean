import Xv6.Fs.DirMap
import Xv6.Mkfs.Append

/-!
# The image that `mkfs` makes

`main` of `mkfs.c`: the root directory with its two entries, then for each file an inode, an entry
in the root and the bytes that `read` returns, and at the end the size of the root and the free map.

`Added` is the invariant of the loop over the files. When the loop has ended, the size of the root
is rounded up to the *next* multiple of the block size, also if it is a multiple already; the root
then ends with a block that it does not have. Otherwise the kernel finds every file on a consistent
image (`image_agrees_iff`).
-/

namespace Xv6

open ByteArr Prog FsState List Function

/-! ## Lists of entries as bytes -/

lemma length_toBytes {d : Dirent} (h : d.name.length = DIRSIZ) : d.toBytes.length = DE := by
  rw [Dirent.toBytes, length_cons, length_cons, h]

lemma entries_append {a l : List UInt8} (ha : a.length = DE) :
    entries (a ++ l) = .ofBytes a :: entries l := by
  have hlen : (a ++ l).length / DE = l.length / DE + 1 := by
    rw [length_append, ha]
    simp only [DE]
    omega
  rw [entries, entries, hlen, range_succ_eq_map, map_cons, map_map]
  refine congrArg₂ cons ?_ (map_congr_left fun e _ => ?_)
  · rw [Nat.mul_zero, drop_zero, ← ha, take_left]
  · have hdrop : (a ++ l).drop (DE * (e + 1)) = l.drop (DE * e) := by
      rw [Nat.mul_succ, Nat.add_comm, ← drop_drop, ← ha, drop_left]
    simp only [comp_apply, Nat.succ_eq_add_one, hdrop]

/-- The fields of an entry fit. -/
def Dirent.Ok (d : Dirent) : Prop := d.inum < 2 ^ 16 ∧ d.name.length = DIRSIZ

lemma entries_flatMap {es : List Dirent} (h : ∀ d ∈ es, d.Ok) :
    entries (es.flatMap Dirent.toBytes) = es := by
  induction es with
  | nil => rfl
  | cons d es ih =>
    obtain ⟨hinum, hname⟩ := h d (mem_cons_self ..)
    rw [flatMap_cons, entries_append (length_toBytes hname), Dirent.ofBytes_toBytes hinum,
      ih fun d' hd' => h d' (mem_cons_of_mem _ hd')]

lemma length_flatMap_toBytes {es : List Dirent} (h : ∀ d ∈ es, d.Ok) :
    (es.flatMap Dirent.toBytes).length = DE * es.length := by
  induction es with
  | nil => rfl
  | cons d es ih =>
    rw [flatMap_cons, length_append, length_toBytes (h d (mem_cons_self ..)).2,
      ih fun d' hd' => h d' (mem_cons_of_mem _ hd'), length_cons, Nat.mul_succ,
      Nat.add_comm]

namespace Mkfs

/-! ## The program -/

/-- A file on the command line: its name, and what the calls of `read` return before 0. -/
structure InputFile where
  arg : List UInt8
  nul : 0 ∉ arg
  reads : List (List UInt8)
  pos : [] ∉ reads

/-- `"user/"`. -/
def user : List UInt8 := [117, 115, 101, 114, 47]

/-- The name without `"user/"`. -/
def shortname (arg : List UInt8) : List UInt8 :=
  if strncmp 5 arg user = 0 then arg.drop 5 else arg

/-- `if(shortname[0] == '_') shortname += 1`. -/
def skip (shortname : List UInt8) : List UInt8 :=
  if shortname.headD 0 = 95 then shortname.tail else shortname

namespace InputFile

def stored (f : InputFile) : List UInt8 := skip (shortname f.arg)

def data (f : InputFile) : List UInt8 := f.reads.flatten

end InputFile

def dirent (inum : ℕ) (name : List UInt8) : List UInt8 :=
  Dirent.toBytes ⟨inum, strncpy DIRSIZ name⟩

def addFile (rootino : ℕ) (f : InputFile) : MkProg Unit :=
  if 47 ∈ shortname f.arg then throw .slash
  else if (skip (shortname f.arg)).length ≤ DIRSIZ then do
    let inum ← ialloc T_FILE
    iappend rootino (dirent inum (skip (shortname f.arg)))
    f.reads.forM (iappend inum)
  else throw .nameTooLong

/-- `fix size of root inode dir`. -/
def fixRoot (rootino : ℕ) : MkProg Unit := do
  let s ← get
  let din := rinode s.disk rootino
  winode rootino { din with size := (din.size / BSIZE + 1) * BSIZE }

def main (files : List InputFile) : MkProg Unit := do
  let rootino ← ialloc T_DIR
  if rootino = ROOTINO then
    iappend rootino (dirent rootino dot)
    iappend rootino (dirent rootino dotdot)
    files.forM (addFile rootino)
    fixRoot rootino
    let s ← get
    balloc s.freeblock
  else throw .rootino

/-- The image for a list of files. -/
def mkfs (files : List InputFile) : Except MkError Disk := (main files init).map (·.2.disk)

variable {s s' t u : MkState} {inum i : ℕ} {v : Dinode} {xp yp : List UInt8} {type : ℤ}
  {f : InputFile} {done files : List InputFile}

/-! ## The beginning -/

lemma disk_init {b : ℕ} (hb : b ≠ 1) : init.disk b = fun _ => 0 := by
  simp only [init, update_of_ne hb]

lemma rinode_init (hi : i < NINODES) : rinode init.disk i = .new 0 := by
  have hib := iblock_bounds hi
  have hdisk : init.disk (sb.iblock i) = fun _ => 0 := disk_init (by
    have : 1 < sb.inodestart := by decide
    omega)
  rw [rinode, Superblock.dinode, hdisk]
  rfl

lemma slot_init (x : ℕ × ℕ) : (image init).slot sb x = 0 := by
  by_cases hi : x.1 < NINODES
  · exact slot_of_noAddrs (i := x.1) (by rw [ino_image hi, rinode_init hi]; rfl) x.2
  · exact if_neg hi

lemma byte_init (i p : ℕ) : (image init).byte sb i p = 0 := by
  rw [byte, if_neg fun hc => hc.2 (slot_init _)]

lemma init_good : Good init := by
  have hsize : ∀ i, i < NINODES → ((image init).ino i).size = 0 := fun i hi => by
    rw [ino_image hi, rinode_init hi]
    rfl
  have hnmeta : nmeta ≤ FSSIZE := by decide
  refine ⟨⟨⟨fun i hi => ?_, ⟨fun x y hx => ?_, fun a ha => ?_⟩, fun b hb => ?_⟩,
    fun i hi k hk => ?_,
    fun i hi => ?_⟩, fun i hi => ⟨fun k _ => ?_, ?_⟩, fun i p _ _ => byte_init i p, fun b hb => ?_,
    le_rfl, hnmeta, fun i _ hi => ?_, fun _ _ => rfl⟩
  · rw [ino_image hi, rinode_init hi]
    exact Dinode.new_fits (by norm_num)
  · exact absurd (slot_init x) hx
  · refine ⟨fun hu => ?_, fun ⟨x, hx⟩ => absurd ((slot_init x).symm.trans hx) ha.symm⟩
    obtain ⟨hlo, hhi, hbit⟩ := hu
    rw [sb_nmeta] at hlo
    rw [show (image init).disk = marked init.disk nmeta from rfl, bit_marked hnmeta hhi] at hbit
    exact absurd (of_decide_eq_true hbit) (by omega)
  · rw [sb_nmeta] at hb
    rw [show (image init).disk = marked init.disk nmeta from rfl, bit_marked hnmeta (by omega)]
    exact decide_eq_true hb
  · rw [hsize i hi] at hk
    omega
  · rw [hsize i hi]
    exact Nat.zero_le _
  · rw [slot_init, hsize i hi]
    omega
  · rw [slot_init, hsize i hi]
    omega
  · have : 1 < init.freeblock := by decide
    exact disk_init (by omega)
  · rw [ino_image hi, rinode_init hi]

/-! ## New inodes -/

/-- Writing an inode that keeps its blocks. -/
structure Rewrote (s s' : MkState) (inum : ℕ) (v : Dinode) : Prop where
  owned : (image s').Owned sb
  slot : ∀ y, (image s').slot sb y = (image s).slot sb y
  byte : ∀ i p, (image s').byte sb i p = (image s).byte sb i p
  self : (image s').ino inum = v
  ino : ∀ i, i < NINODES → i ≠ inum → (image s').ino i = (image s).ino i
  data : ∀ b, nmeta ≤ b → s'.disk b = s.disk b
  low : ∀ b, b < sb.inodestart → s'.disk b = s.disk b

lemma Good.winode (h : Good s) (hi : inum < NINODES) (hv : v.addrs = ((image s).ino inum).addrs)
    (hf : v.Fits) (hdisk : s'.disk = sb.setDinode s.disk inum v)
    (hfree : s'.freeblock = s.freeblock) :
    Rewrote s s' inum v := by
  have hview : view (image s).ino inum s ((image s).ino inum) = image s := by
    rw [view, update_eq_self]
    rfl
  have hag := image_winode ((image s).ino inum) (s := s) hi hf
    fun i hi' _ => ino_image hi'
  have himage : image { s with disk := sb.setDinode s.disk inum v } = image s' := by
    rw [image, image, hdisk, hfree]
  rw [hview, himage] at hag
  have howned := h.consistent.toOwned.setInode hv hf
  have hslot : ∀ y, ((image s).setInode inum v).slot sb y = (image s).slot sb y := slot_setInode hv
  have hib := iblock_bounds hi
  refine ⟨hag.owned (howned.updated sb_wf hi), fun y => ?_, fun i p => ?_, ?_, fun i hi' hii => ?_,
    fun b hb => ?_, fun b hb => ?_⟩
  · rw [hag.slot, slot_updated sb_wf howned hi, hslot]
  · rw [hag.byte, byte_updated sb_wf howned hi, byte_congr hslot fun _ _ => rfl]
  · rw [hag.ino inum hi]
    exact update_self ..
  · rw [hag.ino i hi']
    exact update_of_ne hii _ _
  · rw [hdisk, Superblock.setDinode_of_ne (by omega)]
  · rw [hdisk, Superblock.setDinode_of_ne (by omega)]

lemma Rewrote.content_eq (h : Rewrote s s' inum v) (hi : i < NINODES) (hii : i ≠ inum) :
    (image s').content sb i = (image s).content sb i := by
  rw [FsState.content, FsState.content, h.ino i hi hii]
  exact map_congr_left fun p _ => h.byte i p

/-- `ialloc` makes an empty file. -/
structure Allocated (s s' : MkState) (type : ℤ) : Prop where
  good : Good s'
  freeinode : s'.freeinode = s.freeinode + 1
  freeblock : s'.freeblock = s.freeblock
  type : ((image s').ino s.freeinode).type = type
  empty : (image s').content sb s.freeinode = []
  ino : ∀ i, i < NINODES → i ≠ s.freeinode → (image s').ino i = (image s).ino i
  other : ∀ i, i < NINODES → i ≠ s.freeinode → (image s').content sb i = (image s).content sb i

lemma ialloc_spec (type : ℤ) (h : Good s) (hlt : s.freeinode < NINODES)
    (htype : -2 ^ 15 ≤ type ∧ type < 2 ^ 15) :
    ∃ s', ialloc type s = .ok (s.freeinode, s') ∧ Allocated s s' type := by
  set v : Dinode := { Dinode.new type with nlink := 1 } with hv
  have hold : (image s).ino s.freeinode = .new 0 := h.fresh _ le_rfl hlt
  have hfits : v.Fits := by
    have hf := Dinode.new_fits htype
    refine ⟨fun k => ?_, hf.size, hf.length, hf.addrs⟩
    match k with
    | 0 => exact hf.short 0
    | 1 => exact hf.short 1
    | 2 => exact hf.short 2
    | _ + 3 => exact (by norm_num : (-2 ^ 15 : ℤ) ≤ 1 ∧ (1 : ℤ) < 2 ^ 15)
  set s' : MkState := ⟨sb.setDinode s.disk s.freeinode v, s.freeinode + 1, s.freeblock⟩ with hs'
  have hr : Rewrote s s' s.freeinode v := h.winode hlt (by rw [hold]; rfl) hfits rfl rfl
  -- sizes do not change either
  have hsize : ∀ i, i < NINODES → ((image s').ino i).size = ((image s).ino i).size := by
    intro i hi
    by_cases hii : i = s.freeinode
    · rw [hii, hr.self, hold]
      rfl
    · rw [hr.ino i hi hii]
  refine ⟨s', rfl, ⟨⟨hr.owned, fun i hi k hk => ?_, fun i hi => ?_⟩, fun i hi => ?_,
    fun i p hi hp => ?_, fun b hb => ?_, h.lo, h.hi, fun i hfree hi => ?_, fun b hb => ?_⟩,
      rfl, rfl,
    ?_, ?_, hr.ino, fun i hi hii => hr.content_eq hi hii⟩
  · rw [hsize i hi] at hk
    rw [hr.slot]
    exact h.consistent.mapped i hi k hk
  · rw [hsize i hi]
    exact h.consistent.size_le i hi
  · rw [hsize i hi]
    exact (h.tight i hi).congr fun k => hr.slot _
  · rw [hsize i hi] at hp
    rw [hr.byte]
    exact h.tail i p hi hp
  · rw [hr.data b (h.lo.trans hb)]
    exact h.zero b hb
  · change s.freeinode + 1 ≤ i at hfree
    rw [hr.ino i hi (by omega)]
    exact h.fresh i (by omega) hi
  · rw [hr.low b hb]
    exact h.low b hb
  · rw [hr.self]
    rfl
  · rw [FsState.content, hr.self]
    rfl

/-! ## The files -/

lemma Appended.size (h : Appended s s' inum xp) :
    ((image s').ino inum).size = ((image s).ino inum).size + xp.length := by
  have hlen := congrArg length h.content
  rwa [length_append, length_content, length_content] at hlen

lemma Appended.refl (h : Good s) : Appended s s inum [] :=
  ⟨h, by rw [length_nil, Nat.add_zero, Nat.sub_self, Nat.add_zero], rfl,
    (append_nil _).symm, rfl, fun _ _ _ => rfl, fun _ _ _ => rfl⟩

lemma Appended.trans (h : Appended s t inum xp) (h' : Appended t u inum yp) :
    Appended s u inum (xp ++ yp) := by
  refine ⟨h'.good, ?_, h'.freeinode.trans h.freeinode, ?_, h'.type.trans h.type,
    fun i hi hii => (h'.ino i hi hii).trans (h.ino i hi hii),
    fun i hi hii => (h'.other i hi hii).trans (h.other i hi hii)⟩
  · have h1 := blocksFor_mono (Nat.le_add_right ((image s).ino inum).size xp.length)
    have h2 := blocksFor_mono (Nat.le_add_right (((image s).ino inum).size + xp.length) yp.length)
    rw [h'.freeblock, h.freeblock, h.size, length_append, ← Nat.add_assoc]
    omega
  · rw [h'.content, h.content, append_assoc]

lemma reads_spec {reads : List (List UInt8)} (hn : s.freeinode ≤ NINODES) (hi : inum < s.freeinode)
    (h : Good s) (hsize : ((image s).ino inum).size + reads.flatten.length ≤ MAXFILE * BSIZE)
    (hfit : s.freeblock + (blocksFor (((image s).ino inum).size + reads.flatten.length) -
      blocksFor ((image s).ino inum).size) ≤ FSSIZE) :
    ∃ s', reads.forM (iappend inum) s = .ok ((), s') ∧ Appended s s' inum reads.flatten := by
  induction reads generalizing s with
  | nil => exact ⟨s, rfl, .refl h⟩
  | cons xp reads ih =>
    rw [flatten_cons, length_append, ← Nat.add_assoc] at hsize hfit
    have h1 := blocksFor_mono (Nat.le_add_right ((image s).ino inum).size xp.length)
    have h2 := blocksFor_mono
      (Nat.le_add_right (((image s).ino inum).size + xp.length) reads.flatten.length)
    obtain ⟨t, hrun, ht⟩ := iappend_spec inum xp h hi hn (by omega) (by omega)
    have hfb := ht.freeblock
    have hfi := ht.freeinode
    obtain ⟨u, hrun', hu⟩ := ih (by omega) (by omega) ht.good (by rw [ht.size]; exact hsize)
      (by rw [ht.size]; omega)
    exact ⟨u, (run_bind hrun).trans hrun', ht.trans hu⟩

/-- The entries of the root. -/
def rootEntries (files : List InputFile) : List Dirent :=
  dotEntries ROOTINO ROOTINO ++ files.mapIdx fun k f => ⟨k + 2, strncpy DIRSIZ f.stored⟩

/-- The blocks that the root and the files need. -/
def blocks (files : List InputFile) : ℕ :=
  blocksFor (DE * (files.length + 2)) + (files.map fun f => blocksFor f.data.length).sum

/-- **After some files.** -/
structure Added (done : List InputFile) (s : MkState) : Prop where
  good : Good s
  freeinode : s.freeinode = done.length + 2
  freeblock : s.freeblock = nmeta + blocks done
  type : ((image s).ino ROOTINO).type = T_DIR
  root : (image s).content sb ROOTINO = (rootEntries done).flatMap Dirent.toBytes
  files : ∀ k f, done[k]? = some f → (image s).content sb (k + 2) = f.data

lemma length_rootEntries : (rootEntries files).length = files.length + 2 := by
  simp [rootEntries, dotEntries]

lemma rootEntries_ok (h : files.length + 1 < NINODES) : ∀ d ∈ rootEntries files, d.Ok := by
  intro d hd
  rw [rootEntries, mem_append, mem_mapIdx] at hd
  rcases hd with hd | ⟨k, hk, rfl⟩
  · simp only [dotEntries, mem_cons, not_mem_nil, or_false] at hd
    rcases hd with rfl | rfl
    · exact ⟨by norm_num, length_strncpy _ _⟩
    · exact ⟨by norm_num, length_strncpy _ _⟩
  · exact ⟨by simp only [NINODES] at h; norm_num; omega, length_strncpy _ _⟩

lemma Added.size (h : Added done s) (hn : done.length + 1 < NINODES) :
    ((image s).ino ROOTINO).size = DE * (done.length + 2) := by
  have hlen := congrArg length h.root
  rwa [length_content, length_flatMap_toBytes (rootEntries_ok hn), length_rootEntries] at hlen

lemma rootEntries_concat : rootEntries (done ++ [f]) =
    rootEntries done ++ [⟨done.length + 2, strncpy DIRSIZ f.stored⟩] := by
  simp [rootEntries, mapIdx_append]

lemma blocks_concat : blocks (done ++ [f]) = blocks done +
    (blocksFor (DE * (done.length + 2) + DE) - blocksFor (DE * (done.length + 2))) +
      blocksFor f.data.length := by
  have hmono := blocksFor_mono (Nat.le_add_right (DE * (done.length + 2)) DE)
  have hlen : DE * (done.length + 1 + 2) = DE * (done.length + 2) + DE := by ring
  simp only [blocks, length_append, length_singleton, map_append, map_cons,
    map_nil, sum_append, sum_cons, sum_nil, hlen]
  omega

lemma addFile_spec (h : Added done s) (hslash : 47 ∉ shortname f.arg)
    (hshort : f.stored.length ≤ DIRSIZ) (hn : done.length + 2 < NINODES)
    (hdata : f.data.length ≤ MAXFILE * BSIZE) (hfit : nmeta + blocks (done ++ [f]) ≤ FSSIZE) :
    ∃ s', addFile ROOTINO f s = .ok ((), s') ∧ Added (done ++ [f]) s' := by
  have hmono := blocksFor_mono (Nat.le_add_right (DE * (done.length + 2)) DE)
  have hfi := h.freeinode
  have hfb := h.freeblock
  rw [blocks_concat] at hfit
  obtain ⟨s1, hrun1, h1⟩ := ialloc_spec T_FILE h.good (by omega) (by norm_num)
  have hfi1 := h1.freeinode
  have hroot1 : (image s1).ino ROOTINO = (image s).ino ROOTINO :=
    h1.ino ROOTINO (by norm_num) (by simp only [ROOTINO]; omega)
  have hsize1 : ((image s1).ino ROOTINO).size = DE * (done.length + 2) := by
    rw [hroot1, h.size (by omega)]
  set xp := dirent s.freeinode f.stored with hxp
  have hlen : xp.length = DE := length_toBytes (length_strncpy _ _)
  obtain ⟨s2, hrun2, h2⟩ := iappend_spec ROOTINO xp h1.good
    (by simp only [ROOTINO]; omega) (by omega)
    (by rw [hsize1, hlen]; simp only [NINODES, DE] at *; norm_num; omega)
    (by rw [hsize1, hlen, h1.freeblock]; omega)
  have hfi2 := h2.freeinode
  have hfb2 := h2.freeblock
  rw [hsize1, hlen, h1.freeblock] at hfb2
  have hempty : (image s2).content sb s.freeinode = [] := by
    rw [h2.other _ (by omega) (by simp only [ROOTINO]; omega), h1.empty]
  have hsize2 : ((image s2).ino s.freeinode).size = 0 := by
    have hl := congrArg length hempty
    rwa [length_content] at hl
  have hzero : blocksFor 0 = 0 := by decide
  obtain ⟨s3, hrun3, h3⟩ := reads_spec (by omega)
    (show s.freeinode < s2.freeinode by omega) h2.good (by rw [hsize2, Nat.zero_add]; exact hdata)
    (by rw [hsize2, Nat.zero_add, hzero, Nat.sub_zero, hfb2]
        change _ + blocksFor f.data.length ≤ _
        omega)
  have hfb3 := h3.freeblock
  rw [hsize2, Nat.zero_add, hzero, Nat.sub_zero, hfb2] at hfb3
  change s3.freeblock = _ + blocksFor f.data.length at hfb3
  have hfi3 := h3.freeinode
  -- files other than the root and the new one
  have hother : ∀ i, i < NINODES → i ≠ ROOTINO → i ≠ s.freeinode →
      (image s3).content sb i = (image s).content sb i := fun i hi hr hf => by
    rw [h3.other i hi hf, h2.other i hi hr, h1.other i hi hf]
  have hrne : ROOTINO ≠ s.freeinode := by simp only [ROOTINO]; omega
  refine ⟨s3, ?_, h3.good, ?_, ?_, ?_, ?_, fun k f' hk => ?_⟩
  · have hlen' : (skip (shortname f.arg)).length ≤ DIRSIZ := hshort
    rw [addFile, if_neg hslash, if_pos hlen', run_bind hrun1]
    exact (run_bind hrun2).trans hrun3
  · rw [length_append, length_singleton]
    omega
  · rw [blocks_concat]
    omega
  · rw [h3.ino ROOTINO (by norm_num) hrne, h2.type, hroot1, h.type]
  · rw [h3.other ROOTINO (by norm_num) hrne, h2.content,
      h1.other ROOTINO (by norm_num) hrne, h.root, rootEntries_concat, flatMap_append, hxp, hfi]
    simp [dirent]
  · rcases lt_or_ge k done.length with hlt | hge
    · rw [getElem?_append_left hlt] at hk
      rw [hother (k + 2) (by omega) (by simp only [ROOTINO]; omega) (by omega)]
      exact h.files k f' hk
    · rw [getElem?_append_right hge, getElem?_singleton] at hk
      split_ifs at hk with h0
      obtain rfl : f = f' := Option.some.inj hk
      obtain rfl : k = done.length := by omega
      rw [← hfi, h3.content, hempty]
      rfl

lemma blocks_le_append (rest : List InputFile) : blocks done ≤ blocks (done ++ rest) := by
  have hmono := blocksFor_mono (m := DE * (done.length + 2)) (n := DE * ((done ++ rest).length + 2))
    (Nat.mul_le_mul_left _ (by simp))
  simp only [blocks, map_append, sum_append]
  omega

/-- The names in the root, in the order of the entries. -/
def names (files : List InputFile) : List (List UInt8) :=
  dot :: dotdot :: files.map InputFile.stored

/-- The input fits: names of at most `DIRSIZ` bytes, all different and none of them `.` or `..`,
inodes and blocks. -/
structure Fits (files : List InputFile) : Prop where
  short : ∀ f ∈ files, f.stored.length ≤ DIRSIZ
  slash : ∀ f ∈ files, 47 ∉ f.stored
  distinct : (names files).Nodup
  inodes : files.length + 1 < NINODES
  data : ∀ f ∈ files, f.data.length ≤ MAXFILE * BSIZE
  blocks : nmeta + blocks files ≤ FSSIZE

lemma not_mem_shortname (h : 47 ∉ f.stored) : 47 ∉ shortname f.arg := by
  rw [InputFile.stored, skip] at h
  split_ifs at h with h95
  · intro hm
    cases hs : shortname f.arg with
    | nil => simp [hs] at hm
    | cons c l =>
      rw [hs] at hm h95 h
      rcases mem_cons.mp hm with hc | hl
      · rw [← hc] at h95
        exact absurd (show (47 : UInt8) = 95 from h95) (by decide)
      · exact h hl
  · exact h

lemma files_spec {rest : List InputFile} (hfits : Fits (done ++ rest)) (h : Added done s) :
    ∃ s', rest.forM (addFile ROOTINO) s = .ok ((), s') ∧ Added (done ++ rest) s' := by
  induction rest generalizing done s with
  | nil => exact ⟨s, rfl, by rwa [append_nil]⟩
  | cons f rest ih =>
    have hf : f ∈ done ++ f :: rest := by simp
    have hcons : done ++ f :: rest = (done ++ [f]) ++ rest := by simp
    have hn := hfits.inodes
    have hb := hfits.blocks
    rw [length_append, length_cons] at hn
    have hle : Mkfs.blocks (done ++ [f]) ≤ Mkfs.blocks (done ++ f :: rest) := by
      rw [hcons]
      exact blocks_le_append rest
    obtain ⟨t, hrun, ht⟩ := addFile_spec h (not_mem_shortname (hfits.slash f hf))
      (hfits.short f hf) (by omega) (hfits.data f hf) (by omega)
    rw [hcons] at hfits ⊢
    obtain ⟨u, hrun', hu⟩ := ih hfits ht
    exact ⟨u, (run_bind hrun).trans hrun', hu⟩

lemma root_spec : ∃ s1 s2 s3, ialloc T_DIR init = .ok (ROOTINO, s1) ∧
    iappend ROOTINO (dirent ROOTINO dot) s1 = .ok ((), s2) ∧
    iappend ROOTINO (dirent ROOTINO dotdot) s2 = .ok ((), s3) ∧ Added [] s3 := by
  obtain ⟨s1, hrun1, h1⟩ := ialloc_spec T_DIR init_good (by decide) (by norm_num)
  have hfi1 : s1.freeinode = 2 := h1.freeinode
  have hfb1 : s1.freeblock = nmeta := h1.freeblock
  have hempty : (image s1).content sb ROOTINO = [] := h1.empty
  have hsize1 : ((image s1).ino ROOTINO).size = 0 := by
    have hl := congrArg length hempty
    rwa [length_content] at hl
  have hlen : ∀ name, (dirent ROOTINO name).length = DE := fun name =>
    length_toBytes (length_strncpy _ _)
  have hb0 : blocksFor 0 = 0 := by decide
  have hb1 : blocksFor DE = 1 := by decide
  have hb2 : blocksFor (DE + DE) = 1 := by decide
  obtain ⟨s2, hrun2, h2⟩ := iappend_spec ROOTINO (dirent ROOTINO dot) h1.good
    (by rw [hfi1]; decide) (by rw [hfi1]; decide)
    (by rw [hsize1, hlen]; decide)
    (by rw [hsize1, hlen, hfb1, Nat.zero_add, hb0, hb1]; decide)
  have hsize2 : ((image s2).ino ROOTINO).size = DE := by rw [h2.size, hsize1, hlen, Nat.zero_add]
  have hfi2 : s2.freeinode = 2 := h2.freeinode.trans hfi1
  have hfb2 : s2.freeblock = nmeta + 1 := by
    rw [h2.freeblock, hsize1, hlen, hfb1, Nat.zero_add, hb0, hb1]
  obtain ⟨s3, hrun3, h3⟩ := iappend_spec ROOTINO (dirent ROOTINO dotdot) h2.good
    (by rw [hfi2]; decide) (by rw [hfi2]; decide) (by rw [hsize2, hlen]; decide)
    (by rw [hsize2, hlen, hfb2, hb1, hb2]; decide)
  refine ⟨s1, s2, s3, hrun1, hrun2, hrun3, h3.good, h3.freeinode.trans hfi2, ?_, ?_, ?_,
    fun k f hk => ?_⟩
  · rw [h3.freeblock, hsize2, hlen, hfb2, hb1, hb2]
    rfl
  · rw [h3.type, h2.type]
    exact h1.type
  · rw [h3.content, h2.content, hempty]
    rfl
  · simp at hk

/-! ## The end -/

/-- What is on the image at the end. -/
structure Result (files : List InputFile) (d : Disk) : Prop where
  owned : (diskFs sb d).Owned sb
  low : ∀ b, b < sb.inodestart → d b = init.disk b
  size : ((diskFs sb d).ino ROOTINO).size = (DE * (files.length + 2) / BSIZE + 1) * BSIZE
  type : ((diskFs sb d).ino ROOTINO).type = T_DIR
  tight : Tight (diskFs sb d) ROOTINO (DE * (files.length + 2))
  mapped : ∀ i, i < NINODES → i ≠ ROOTINO → ∀ k, k * BSIZE < ((diskFs sb d).ino i).size →
    (diskFs sb d).slot sb (i, k) ≠ 0
  size_le : ∀ i, i < NINODES → ((diskFs sb d).ino i).size ≤ MAXFILE * BSIZE
  root : (diskFs sb d).content sb ROOTINO = (rootEntries files).flatMap Dirent.toBytes ++
    replicate (((diskFs sb d).ino ROOTINO).size - DE * (files.length + 2)) 0
  files : ∀ k f, files[k]? = some f → (diskFs sb d).content sb (k + 2) = f.data

lemma fixRoot_spec (h : Added files s) (hn : files.length + 1 < NINODES) :
    ∃ s', fixRoot ROOTINO s = .ok ((), s') ∧ s'.freeblock = s.freeblock ∧
      Result files (marked s'.disk s'.freeblock) := by
  have hroot : ROOTINO < NINODES := by norm_num
  have hsz := h.size hn
  set size := (DE * (files.length + 2) / BSIZE + 1) * BSIZE with hsize
  have hle : size ≤ 4 * BSIZE := by
    simp only [hsize, NINODES, DE, BSIZE] at *
    omega
  set v : Dinode := { (image s).ino ROOTINO with size := size } with hv
  have hfits : v.Fits := by
    have hf := h.good.consistent.fits ROOTINO hroot
    exact ⟨hf.short, lt_of_le_of_lt hle (by norm_num), hf.length, hf.addrs⟩
  set s' : MkState := { s with disk := sb.setDinode s.disk ROOTINO v } with hs'
  have hr : Rewrote s s' ROOTINO v := h.good.winode hroot rfl hfits rfl rfl
  have hother : ∀ i, i < NINODES → i ≠ ROOTINO → (image s').ino i = (image s).ino i := hr.ino
  refine ⟨s', ?_, rfl,
    ⟨hr.owned, fun b hb => ?_, ?_, ?_, ?_, fun i hi hii k hk => ?_, fun i hi => ?_,
    ?_, fun k f hk => ?_⟩⟩
  · rw [fixRoot, run_get_bind]
    simp only [← ino_image hroot, hsz]
    rfl
  · have hib := iblock_bounds hroot
    rw [marked_of_ne (by omega), hr.low b hb]
    exact h.good.low b hb
  · show ((image s').ino ROOTINO).size = _
    rw [hr.self]
  · show ((image s').ino ROOTINO).type = _
    rw [hr.self]
    exact h.type
  · refine Tight.congr (hsz ▸ h.good.tight ROOTINO hroot) fun k => hr.slot _
  · change k * BSIZE < ((image s').ino i).size at hk
    show (image s').slot sb (i, k) ≠ 0
    rw [hother i hi hii] at hk
    rw [hr.slot]
    exact h.good.consistent.mapped i hi k hk
  · show ((image s').ino i).size ≤ _
    by_cases hii : i = ROOTINO
    · rw [hii, hr.self]
      exact hle.trans (by norm_num)
    · rw [hother i hi hii]
      exact h.good.consistent.size_le i hi
  · show (image s').content sb ROOTINO = _ ++ replicate (((image s').ino ROOTINO).size - _) 0
    have hself : ((image s').ino ROOTINO).size = size := by rw [hr.self]
    have hadd : size = DE * (files.length + 2) + (size - DE * (files.length + 2)) := by
      simp only [hsize, DE, BSIZE] at *
      omega
    rw [FsState.content, hself]
    nth_rewrite 1 [hadd]
    rw [range_add, map_append, map_map, ← h.root, FsState.content, hsz]
    refine congrArg₂ (· ++ ·) (map_congr_left fun p _ => hr.byte _ p) ?_
    refine eq_replicate_iff.mpr ⟨by simp, fun b hb => ?_⟩
    obtain ⟨p, -, rfl⟩ := mem_map.mp hb
    rw [comp_apply, hr.byte]
    exact h.good.tail ROOTINO _ hroot (by rw [hsz]; omega)
  · have hlt := (List.getElem?_eq_some_iff.mp hk).1
    rw [← h.files k f hk]
    exact hr.content_eq (by omega) (by simp only [ROOTINO]; omega)

lemma mkfs_spec (h : Fits files) : ∃ d, mkfs files = .ok d ∧ Result files d := by
  obtain ⟨s1, s2, s3, hrun1, hrun2, hrun3, h3⟩ := root_spec
  obtain ⟨s4, hrun4, h4⟩ := files_spec (show Fits ([] ++ files) from h) h3
  obtain ⟨s5, hrun5, hfree, hres⟩ := fixRoot_spec h4 h.inodes
  have hlt : s5.freeblock < BPB := by
    have := h4.good.hi
    simp only [FSSIZE, BPB, BSIZE] at *
    omega
  refine ⟨_, ?_, hres⟩
  rw [mkfs, main, run_bind hrun1, if_pos rfl, run_bind hrun2, run_bind hrun3, run_bind hrun4,
    run_bind hrun5, run_get_bind, balloc, if_pos hlt]
  rfl

/-! ## The names in the root -/

lemma chars_of_short {n : ℕ} {l : List UInt8} (h0 : 0 ∉ l) (hl : l.length ≤ n) : chars n l = l := by
  induction n generalizing l with
  | zero =>
    obtain rfl := length_eq_zero_iff.mp (Nat.le_zero.mp hl)
    rfl
  | succ n ih =>
    cases l with
    | nil => rfl
    | cons c l =>
      have hc : c ≠ 0 := fun hc => h0 (hc ▸ mem_cons_self ..)
      rw [chars, headD_cons, if_neg hc, tail_cons,
        ih (fun hm => h0 (mem_cons_of_mem _ hm)) (Nat.le_of_succ_le_succ hl)]

lemma nul_stored : 0 ∉ f.stored := by
  have hshort : 0 ∉ shortname f.arg := by
    rw [shortname]
    split_ifs
    · exact fun hm => f.nul (mem_of_mem_drop hm)
    · exact f.nul
  rw [InputFile.stored, skip]
  split_ifs
  · exact fun hm => hshort (mem_of_mem_tail hm)
  · exact hshort

lemma key_stored (h : f.stored.length ≤ DIRSIZ) : key f.stored = f.stored :=
  chars_of_short nul_stored h

lemma map_key_rootEntries (h : ∀ f ∈ files, f.stored.length ≤ DIRSIZ) :
    (rootEntries files).map (fun d => key d.name) = names files := by
  have hfiles : (files.mapIdx fun k f => (⟨k + 2, strncpy DIRSIZ f.stored⟩ : Dirent)).map
      (fun d => key d.name) = files.map InputFile.stored := by
    refine ext_getElem (by simp) fun k h1 h2 => ?_
    rw [length_map] at h2
    simp only [getElem_map, getElem_mapIdx, key_strncpy]
    exact key_stored (h _ (getElem_mem h2))
  rw [rootEntries, map_append, hfiles]
  rfl

lemma noEntry_bytes (m : ℕ) :
    (replicate m Fs.noEntry).flatMap Dirent.toBytes = replicate (DE * m) 0 := by
  induction m with
  | zero => rfl
  | succ m ih =>
    have hone : Fs.noEntry.toBytes = replicate DE 0 := by decide
    rw [replicate_succ, flatMap_cons, ih, hone, replicate_append_replicate,
      Nat.mul_succ, Nat.add_comm]

variable {d : Disk}

section

variable (h : Result files d)
include h

lemma Result.dir (hn : files.length + 1 < NINODES) :
    ∃ m, (diskFs sb d).dir sb ROOTINO = rootEntries files ++ replicate m Fs.noEntry := by
  obtain ⟨m, hm⟩ : ∃ m, ((diskFs sb d).ino ROOTINO).size - DE * (files.length + 2) = DE * m := by
    refine ⟨(((diskFs sb d).ino ROOTINO).size - DE * (files.length + 2)) / DE, ?_⟩
    rw [h.size]
    simp only [DE, BSIZE]
    omega
  refine ⟨m, ?_⟩
  rw [FsState.dir, h.root, hm, ← noEntry_bytes, ← flatMap_append]
  refine entries_flatMap fun d hd => ?_
  rcases mem_append.mp hd with hd | hd
  · exact rootEntries_ok hn d hd
  · rw [eq_of_mem_replicate hd]
    exact ⟨by norm_num [Fs.noEntry], by decide⟩

/-- **The root is a directory** in the sense of the kernel. -/
lemma Result.wellFormed (hfits : Fits files) :
    WellFormed sb ROOTINO ((diskFs sb d).dir sb ROOTINO) := by
  obtain ⟨m, hdir⟩ := h.dir hfits.inodes
  rw [hdir]
  -- a live entry is one of the root, and its name is at the same place
  have hlive : ∀ (j : ℕ) (e : Dirent),
      (rootEntries files ++ replicate m Fs.noEntry)[j]? = some e → e.inum ≠ 0 →
      (names files)[j]? = some (key e.name) := by
    intro j e he h0
    rw [getElem?_append] at he
    split_ifs at he with hlt
    · rw [← map_key_rootEntries hfits.short, getElem?_map, he]
      rfl
    · have hmem := mem_of_getElem? he
      rw [eq_of_mem_replicate hmem] at h0
      exact absurd rfl h0
  refine ⟨rfl, ⟨⟨ROOTINO, strncpy DIRSIZ dotdot⟩, rfl, by decide, by decide⟩,
    fun j k e e' he he' h0 h0' hcmp => ?_, fun e he => ?_⟩
  · have hj := hlive j e he h0
    have hk := hlive k e' he' h0'
    rw [(namecmp_eq_zero _ _).mp hcmp] at hj
    exact (getElem?_inj (List.getElem?_eq_some_iff.mp hj).1 hfits.distinct).mp (hj.trans hk.symm)
  · rcases mem_append.mp he with he | he
    · rw [rootEntries, mem_append, mem_mapIdx] at he
      rcases he with he | ⟨k, hk, rfl⟩
      · simp only [dotEntries, mem_cons, not_mem_nil, or_false] at he
        rcases he with rfl | rfl
        · exact (by decide : ROOTINO < NINODES)
        · exact (by decide : ROOTINO < NINODES)
      · have hn := hfits.inodes
        show k + 2 < NINODES
        omega
    · rw [eq_of_mem_replicate he]
      exact (by decide : 0 < NINODES)

lemma Result.lookup_stored (hfits : Fits files) {k : ℕ} (hk : files[k]? = some f) :
    lookup ((diskFs sb d).dir sb ROOTINO) f.stored = k + 2 := by
  have hwf := h.wellFormed hfits
  obtain ⟨m, hdir⟩ := h.dir hfits.inodes
  obtain ⟨hlt, hget⟩ := List.getElem?_eq_some_iff.mp hk
  refine lookup_of_matches (d := ⟨k + 2, strncpy DIRSIZ f.stored⟩) hwf ?_ ?_
  · rw [hdir]
    refine mem_append_left _ (mem_append_right _ ?_)
    exact mem_mapIdx.mpr ⟨k, hlt, by rw [hget]⟩
  · refine matches_iff.mpr ⟨by simp, ?_⟩
    rw [key_strncpy]

/-- The root has its last block unless its size was a multiple of the block size. -/
lemma Result.consistent (hround : (files.length + 2) % (BSIZE / DE) ≠ 0) :
    (diskFs sb d).Consistent sb := by
  refine ⟨h.owned, fun i hi k hk => ?_, fun i hi => h.size_le i hi⟩
  by_cases hii : i = ROOTINO
  · subst hii
    rw [h.size] at hk
    have hle := h.size_le ROOTINO hi
    rw [h.size] at hle
    have hmax : MAXFILE = 268 := by decide
    refine (h.tight.data k ?_).mpr ?_
    · simp only [DE, BSIZE] at *
      omega
    · simp only [DE, BSIZE] at *
      omega
  · exact h.mapped i hi hii k hk

/-- Otherwise it lacks the block that `fixRoot` has added. -/
lemma Result.lacks (hround : (files.length + 2) % (BSIZE / DE) = 0) :
    ∃ k, k * BSIZE < ((diskFs sb d).ino ROOTINO).size ∧ (diskFs sb d).slot sb (ROOTINO, k) = 0 := by
  have hle := h.size_le ROOTINO (by decide)
  rw [h.size] at hle ⊢
  have hmax : MAXFILE = 268 := by decide
  refine ⟨DE * (files.length + 2) / BSIZE, ?_, ?_⟩
  · simp only [DE, BSIZE] at *
    omega
  · by_contra hne
    have hlt := (h.tight.data _ (by simp only [DE, BSIZE] at *; omega)).mp hne
    simp only [DE, BSIZE] at *
    omega

end

end Mkfs

/-! ## What the kernel sees -/

/-- `fsinit` reads the super block, and panics (`none`) without the magic number. -/
def fsinit (d : Disk) : Option Superblock :=
  if word32 (d 1) 0 = Mkfs.FSMAGIC then
    some ⟨word32 (d 1) 4, word32 (d 1) 12, word32 (d 1) 24, word32 (d 1) 28⟩
  else none

namespace Mkfs

lemma fsinit_init : fsinit init.disk = some sb := by
  have h : word32 superBlock 0 = FSMAGIC ∧ word32 superBlock 4 = sb.size ∧
      word32 superBlock 12 = sb.ninodes ∧ word32 superBlock 24 = sb.inodestart ∧
      word32 superBlock 28 = sb.bmapstart := by decide
  have hdisk : init.disk 1 = superBlock := by simp only [init, update_self]
  rw [fsinit, hdisk, if_pos h.1, h.2.1, h.2.2.1, h.2.2.2.1, h.2.2.2.2]

/-- The image is a consistent file system for the kernel: `dirlookup` finds every file in the root
and `readi` yields its bytes, every block up to the size of an inode is mapped, no block is in two
slots, and the bitmap marks the metadata and the blocks in the slots. -/
structure Agrees (files : List InputFile) (d : Disk) : Prop where
  super : fsinit d = some sb
  consistent : (diskFs sb d).Consistent sb
  stored : ∀ f ∈ files, ∃ inum off,
    Fs.dirlookup sb ROOTINO f.stored (diskFs sb d) = .ok (some (inum, off), diskFs sb d) ∧
    ((diskFs sb d).ino inum).size = f.data.length ∧
    ∀ off n, off + n < 2 ^ 32 → Fs.readi sb inum (fun _ => true) off n (diskFs sb d) =
      .ok (((((f.data.drop off).take n).length : ℤ), (f.data.drop off).take n), diskFs sb d)
  mapped : ∀ i, i < sb.ninodes → ∀ k, k * BSIZE < ((diskFs sb d).ino i).size →
    (diskFs sb d).slot sb (i, k) ≠ 0
  inj : ∀ x y, (diskFs sb d).slot sb x ≠ 0 → (diskFs sb d).slot sb x =
    (diskFs sb d).slot sb y → x = y
  bitmap : ∀ b, b < sb.size → (sb.bit d b = true ↔ b < sb.nmeta ∨ ∃ x, (diskFs sb d).slot sb x = b)

lemma Result.agrees {files : List InputFile} {d : Disk} (hres : Result files d)
    (h : Fits files) (hround : (files.length + 2) % (BSIZE / DE) ≠ 0) : Agrees files d := by
  have hcons := hres.consistent hround
  refine ⟨?_, hcons, fun f hf => ?_, hcons.mapped, hcons.owns.inj, fun b hb => ?_⟩
  · rw [fsinit, hres.low 1 (by decide)]
    exact fsinit_init
  · obtain ⟨k, hk⟩ := mem_iff_getElem?.mp hf
    have hlt := (List.getElem?_eq_some_iff.mp hk).1
    have hinodes := h.inodes
    have hi : k + 2 < sb.ninodes := (by omega : k + 2 < NINODES)
    have hcontent := hres.files k f hk
    have hsize : ((diskFs sb d).ino (k + 2)).size = f.data.length := by
      rw [← hcontent, length_content]
    have hdvd : DE ∣ ((diskFs sb d).ino ROOTINO).size := by
      rw [hres.size]
      simp only [DE, BSIZE]
      omega
    obtain ⟨r, t, hlook, rfl, hfound⟩ := (dirlookup_spec f.stored sb_wf hcons
      (by decide) hdvd hres.type).returns
    have hval := hfound.inum
    rw [hres.lookup_stored h hk] at hval
    cases r with
    | none => simp at hval
    | some x =>
      obtain ⟨inum, off⟩ := x
      obtain rfl : inum = k + 2 := hval
      refine ⟨k + 2, off, hlook, hsize, fun off n hn => ?_⟩
      obtain ⟨r, t, hread, rfl, hr⟩ := (readi_spec sb_wf hcons hi (fun _ => true)
        (show off < 2 ^ 32 by omega) (show n < 2 ^ 32 by omega)).returns
      rcases hr with ⟨⟨m, -, hm⟩, -⟩ | ⟨-, hr1, hr2⟩
      · exact absurd hm (by simp)
      · have hslice : r.2 = (f.data.drop off).take n := by
          rw [hr2, hcontent]
          split_ifs with hbad
          · rw [drop_of_length_le (by omega), take_nil]
          · rfl
        rw [hread, ← hslice, ← hr1]
  · rcases lt_or_ge b sb.nmeta with hlt | hge
    · exact ⟨fun _ => .inl hlt, fun _ => hcons.metadata b hlt⟩
    · have hpos : 0 < sb.nmeta := nmeta_pos
      have hiff := hcons.owns.used_iff b (by omega)
      rw [InUse] at hiff
      refine ⟨fun hbit => .inr (hiff.mp ⟨hge, hb, hbit⟩), fun hx => ?_⟩
      exact (hiff.mpr (hx.resolve_left (by omega))).2.2

/-- **The kernel agrees with `mkfs`** just when the entries of the root do not fill its blocks. -/
theorem image_agrees_iff {files : List InputFile} (h : Fits files) :
    (∃ d, mkfs files = .ok d ∧ Agrees files d) ↔ (files.length + 2) % (BSIZE / DE) ≠ 0 := by
  obtain ⟨d, hrun, hres⟩ := mkfs_spec h
  refine ⟨?_, fun hround => ⟨d, hrun, hres.agrees h hround⟩⟩
  rintro ⟨d', hrun', hagree⟩ hround
  obtain rfl : d = d' := Except.ok.inj (hrun.symm.trans hrun')
  obtain ⟨k, hk, h0⟩ := hres.lacks hround
  exact hagree.mapped ROOTINO (by decide) k hk h0

/-- `user/_cat` with three bytes, and `README`, which is empty. -/
def twoFiles : List InputFile :=
  [⟨[117, 115, 101, 114, 47, 95, 99, 97, 116], by decide, [[1, 2], [3]], by decide⟩,
    ⟨[82, 69, 65, 68, 77, 69], by decide, [], by decide⟩]

theorem image_agrees_sample : ∃ d, mkfs twoFiles = .ok d ∧ Agrees twoFiles d :=
  (image_agrees_iff ⟨by decide, by decide, by decide, by decide, by decide, by decide⟩).mpr
    (by decide)

/-- A file with a name of one letter. -/
def letter (k : Fin 62) : InputFile :=
  ⟨[UInt8.ofNat (k + 97)], by revert k; decide, [], by decide⟩

/-- With `.` and `..`, 64 entries: they fill one block. -/
def fullBlock : List InputFile := (finRange 62).map letter

lemma fullBlock_fits : Fits fullBlock :=
  ⟨by decide, by decide, by decide, by decide, by decide, by decide⟩

/-- The root gets the size of two blocks, and has one. -/
theorem root_lacks_its_last_block : Fits fullBlock ∧
    ∃ d, mkfs fullBlock = .ok d ∧ ((diskFs sb d).ino ROOTINO).size = 2 * BSIZE ∧
      (diskFs sb d).slot sb (ROOTINO, 1) = 0 ∧ ¬ (diskFs sb d).Consistent sb := by
  obtain ⟨d, hrun, hres⟩ := mkfs_spec fullBlock_fits
  have hsize : ((diskFs sb d).ino ROOTINO).size = 2 * BSIZE := by
    rw [hres.size]
    decide
  have hslot : (diskFs sb d).slot sb (ROOTINO, 1) = 0 := by
    by_contra hne
    exact absurd ((hres.tight.data 1 (by decide)).mp hne) (by decide)
  refine ⟨fullBlock_fits, d, hrun, hsize, hslot, fun hc => ?_⟩
  exact hc.mapped ROOTINO (by decide) 1 (by rw [hsize]; decide) hslot

end Mkfs

end Xv6
