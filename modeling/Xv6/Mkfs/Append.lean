import Xv6.Fs.Dir
import Xv6.Fs.Itrunc

/-!
# `mkfs`: appending to a file

The second implementation of the layout, in `mkfs.c`. It has no free map while it works: blocks are
handed out in order, and `balloc` writes the map of the first blocks at the end.

If one puts that map on the image all the time (`marked`), `iappend` does what the kernel's `writei`
does at the end of the file: the next block is the first free one, and the blocks that are still
free are zero. `appendLoop_sim` proves this block by block, and `iappend_spec` then follows from the
specification of `writei`.
-/

namespace Xv6

open Function List Superblock ByteArr Prog FsState

namespace Mkfs

abbrev FSSIZE : ℕ := 2000
abbrev NINODES : ℕ := 200

abbrev FSMAGIC : ℕ := 0x10203040

abbrev nbitmap : ℕ := FSSIZE / BPB + 1
abbrev ninodeblocks : ℕ := NINODES / IPB + 1
abbrev nlog : ℕ := LOGBLOCKS + 1
abbrev nmeta : ℕ := 2 + nlog + ninodeblocks + nbitmap

def sb : Superblock := ⟨FSSIZE, NINODES, 2 + nlog, 2 + nlog + ninodeblocks⟩

/-- The image, and the next inode and block. -/
structure MkState where
  disk : Disk
  freeinode : ℕ
  freeblock : ℕ

/-- The assertions, and `die` of `rsect`. -/
inductive MkError where
  | rootino
  | read
  | slash
  | nameTooLong
  | tooManyBlocks
  | usedTooBig
  deriving DecidableEq

abbrev MkProg (α : Type) := Prog MkState MkError α

/-- The image has `FSSIZE` blocks. -/
def rsect (sec : ℕ) : MkProg Block := do
  let s ← get
  if sec < FSSIZE then return s.disk sec else throw .read

def wsect (sec : ℕ) (buf : Block) : MkProg Unit :=
  modify fun s => { s with disk := update s.disk sec buf }

def rinode (d : Disk) (inum : ℕ) : Dinode := sb.dinode d inum

def winode (inum : ℕ) (din : Dinode) : MkProg Unit :=
  modify fun s => { s with disk := sb.setDinode s.disk inum din }

def ialloc (type : ℤ) : MkProg ℕ := do
  let s ← get
  set { s with freeinode := s.freeinode + 1 }
  winode s.freeinode { Dinode.new type with nlink := 1 }
  return s.freeinode

/-- The map of the first `used` blocks, bit by bit. -/
def bitmap (used : ℕ) : Block :=
  (range used).foldl (fun buf i => update buf (i / 8) (orBit (buf (i / 8)) (i % 8)))
    fun _ => 0

def balloc (used : ℕ) : MkProg Unit :=
  if used < BPB then wsect sb.bmapstart (bitmap used) else throw .usedTooBig

/-- `freeblock++` for `din.addrs[k]`, if it is 0. -/
def takeAddr (din : Dinode) (k : ℕ) : MkProg (ℕ × Dinode) := do
  let s ← get
  if din.addrs.getD k 0 = 0 then
    set { s with freeblock := s.freeblock + 1 }
    return (s.freeblock, { din with addrs := din.addrs.set k s.freeblock })
  else return (din.addrs.getD k 0, din)

/-- The same for an entry of the indirect block. -/
def takeEntry (ind j : ℕ) : MkProg ℕ := do
  let indirect ← rsect ind
  if word32 indirect (4 * j) = 0 then
    let s ← get
    set { s with freeblock := s.freeblock + 1 }
    wsect ind (putWord32 indirect (4 * j) s.freeblock)
    return s.freeblock
  else return word32 indirect (4 * j)

/-- The block `x` for block `fbn` of the file. -/
def blockOf (din : Dinode) (fbn : ℕ) : MkProg (ℕ × Dinode) :=
  if fbn < NDIRECT then takeAddr din fbn
  else do
    let (ind, din) ← takeAddr din NDIRECT
    let x ← takeEntry ind (fbn - NDIRECT)
    return (x, din)

/-- The loop of `iappend`; `tot` of the `n` bytes are written. -/
def appendLoop (p : ℕ → UInt8) (n : ℕ) : ℕ → Dinode → ℕ → ℕ → MkProg (Dinode × ℕ)
  | 0, din, _, off => return (din, off)
  | fuel + 1, din, tot, off =>
    if tot < n then do
      let fbn := off / BSIZE
      if fbn < MAXFILE then
        let (x, din) ← blockOf din fbn
        let n1 := min (n - tot) ((fbn + 1) * BSIZE - off)
        let buf ← rsect x
        wsect x (putBytes buf (off - fbn * BSIZE) n1 fun i => p (tot + i))
        appendLoop p n fuel din (tot + n1) (off + n1)
      else throw .tooManyBlocks
    else return (din, off)

/-- The bytes `xp[0..n)` are given as a list. -/
def iappend (inum : ℕ) (xp : List UInt8) : MkProg Unit := do
  let s ← get
  let din := rinode s.disk inum
  let (din, off) ← appendLoop (fun i => xp.getD i 0) xp.length xp.length din 0 din.size
  winode inum { din with size := off }

/-- The super block as `main` writes it. -/
def superBlock : Block := fun i =>
  byteOf ([FSMAGIC, FSSIZE, FSSIZE - nmeta, NINODES, nlog, 2, 2 + nlog,
    2 + nlog + ninodeblocks].getD (i / 4) 0) (i % 4)

/-- The image of zeros with its super block. -/
def init : MkState := ⟨update (fun _ _ => 0) 1 superBlock, 1, nmeta⟩

/-! ## The image with its free map -/

def marked (d : Disk) (used : ℕ) : Disk := update d sb.bmapstart (bitmap used)

lemma sb_wf : sb.WF := by
  refine ⟨fun i hi => ?_, by decide⟩
  have hdiv : i / IPB ≤ NINODES / IPB := Nat.div_le_div_right (le_of_lt hi)
  have hnum : NINODES / IPB = 12 := by decide
  show i / IPB + 33 < 46
  omega

lemma sb_nmeta : sb.nmeta = nmeta := by decide

variable {d : Disk} {used b a x : ℕ} {blk : Block}

lemma marked_of_ne (h : b ≠ sb.bmapstart) : marked d used b = d b := update_of_ne h _ _

lemma marked_of_data (h : nmeta ≤ b) : marked d used b = d b := by
  refine marked_of_ne ?_
  have : sb.bmapstart < nmeta := by decide
  omega

lemma marked_update (h : nmeta ≤ x) :
    marked (update d x blk) used = update (marked d used) x blk := by
  have : sb.bmapstart < nmeta := by decide
  exact update_comm (by omega) _ _ d

lemma bitmap_succ (used : ℕ) : bitmap (used + 1) =
    update (bitmap used) (used / 8) (orBit (bitmap used (used / 8)) (used % 8)) := by
  rw [bitmap, range_succ, foldl_append]
  rfl

lemma marked_succ (h : used < FSSIZE) :
    sb.setBit (marked d used) used true = marked d (used + 1) := by
  have hb : sb.bblock used = sb.bmapstart := by
    rw [bblock, Nat.div_eq_of_lt (h.trans (by decide)), Nat.zero_add]
  have hmod : used % BPB = used := Nat.mod_eq_of_lt (h.trans (by decide))
  rw [setBit, hb, hmod, marked, marked, update_self, update_idem, bitmap_succ]
  rfl

lemma bit_marked (h : used ≤ FSSIZE) (hb : b < FSSIZE) :
    sb.bit (marked d used) b = decide (b < used) := by
  induction used with
  | zero =>
    have hblock : sb.bblock b = sb.bmapstart := by
      rw [bblock, Nat.div_eq_of_lt (hb.trans (by decide)), Nat.zero_add]
    rw [bit, hblock, marked, update_self]
    show getBit 0 _ = _
    rw [getBit_zero]
    simp
  | succ used ih =>
    rw [← marked_succ (by omega), bit_setBit, ih (by omega)]
    by_cases hbu : b = used
    · rw [if_pos hbu]
      simp [hbu]
    · rw [if_neg hbu]
      exact decide_eq_decide.mpr (by omega)

lemma dinode_marked {i : ℕ} (hi : i < NINODES) : sb.dinode (marked d used) i = sb.dinode d i := by
  refine dinode_congr (marked_of_ne ?_)
  exact (sb_wf.inodes i hi).ne

/-! ## The kernel's functions on that image -/

/-- The file system that the kernel would see, with `din` the inode in memory. -/
def view (ino : ℕ → Dinode) (inum : ℕ) (s : MkState) (din : Dinode) : FsState :=
  ⟨marked s.disk s.freeblock, update ino inum din⟩

/-- The image is consistent so far, and the blocks that are left are zero. -/
structure Ready (ino : ℕ → Dinode) (inum : ℕ) (s : MkState) (din : Dinode) : Prop where
  owned : (view ino inum s din).Owned sb
  zero : ∀ b, s.freeblock ≤ b → s.disk b = fun _ => 0
  lo : nmeta ≤ s.freeblock
  hi : s.freeblock ≤ FSSIZE

variable {ino : ℕ → Dinode} {inum k j : ℕ} {s s' : MkState} {din din' : Dinode} {y : ℕ × ℕ}

lemma ino_view : (view ino inum s din).ino inum = din := update_self ..

lemma addr_view : (view ino inum s din).addr inum k = din.addrs.getD k 0 := by rw [addr, ino_view]

lemma balloc_view (h : Ready ino inum s din) (hlt : s.freeblock < FSSIZE) :
    Fs.balloc sb (view ino inum s din) =
      .ok (s.freeblock, view ino inum { s with freeblock := s.freeblock + 1 } din) := by
  have hfind : ((range sb.size).find? fun b => !sb.bit (view ino inum s din).disk b) =
      some s.freeblock := by
    refine find?_range_eq_some.mpr ⟨?_, mem_range.mpr hlt, fun b hb => ?_⟩
    · show (!sb.bit (marked s.disk s.freeblock) s.freeblock) = true
      rw [bit_marked hlt.le hlt]
      simp
    · show (!(!sb.bit (marked s.disk s.freeblock) b)) = true
      rw [bit_marked hlt.le (by omega)]
      simpa using hb
  have hdisk : update (sb.setBit (marked s.disk s.freeblock) s.freeblock true) s.freeblock
      (fun _ => 0) = marked s.disk (s.freeblock + 1) := by
    rw [marked_succ hlt, update_eq_self_iff, marked_of_data h.lo]
    exact (h.zero _ le_rfl).symm
  rw [Fs.balloc, run_get_bind, hfind]
  show Except.ok (s.freeblock, FsState.mk (update (sb.setBit (marked s.disk s.freeblock)
    s.freeblock true) s.freeblock fun _ => 0) (update ino inum din)) = _
  rw [hdisk]
  rfl

lemma Ready.slot (h : Ready ino inum s din) (hy : (view ino inum s din).slot sb y ≠ 0) :
    nmeta ≤ (view ino inum s din).slot sb y ∧ (view ino inum s din).slot sb y < s.freeblock := by
  obtain ⟨h1, h2, h3⟩ := h.owned.owns.used_ref hy
  refine ⟨h1, ?_⟩
  rw [show (view ino inum s din).disk = marked s.disk s.freeblock from rfl,
    bit_marked h.hi h2] at h3
  exact of_decide_eq_true h3

/-- How many of the slots are empty that `bmap` fills for block `fbn`. -/
def missing (v : FsState) (inum fbn : ℕ) : ℕ :=
  (if v.slot sb (inum, fbn) = 0 then 1 else 0) +
    if fbn < NDIRECT ∨ v.slot sb (inum, MAXFILE) ≠ 0 then 0 else 1

/-- What a step leaves. -/
structure Next (ino : ℕ → Dinode) (inum : ℕ) (s s' : MkState) (din' : Dinode) (c : ℕ) : Prop where
  ready : Ready ino inum s' din'
  metadata : ∀ b, b < nmeta → s'.disk b = s.disk b
  freeblock : s'.freeblock = s.freeblock + c
  freeinode : s'.freeinode = s.freeinode

lemma Next.refl (h : Ready ino inum s din) : Next ino inum s s din 0 :=
  ⟨h, fun _ _ => rfl, rfl, rfl⟩

lemma Next.trans {t : MkState} {c c' : ℕ} {din1 : Dinode} (h : Next ino inum s t din1 c)
    (h' : Next ino inum t s' din' c') : Next ino inum s s' din' (c + c') :=
  ⟨h'.ready, fun b hb => (h'.metadata b hb).trans (h.metadata b hb),
    by rw [h'.freeblock, h.freeblock, Nat.add_assoc], h'.freeinode.trans h.freeinode⟩

lemma rsect_run (h : b < FSSIZE) : rsect b s = .ok (s.disk b, s) := by
  rw [rsect, run_get_bind, if_pos h]
  rfl

lemma takeAddr_sim (h : Ready ino inum s din) (hi : inum < NINODES) (hk : k ≤ IND)
    (hfit : s.freeblock + (if din.addrs.getD k 0 = 0 then 1 else 0) ≤ FSSIZE) :
    ∃ a s' din', takeAddr din k s = .ok ((a, din'), s') ∧
      Fs.bmapAddr sb inum k (view ino inum s din) = .ok (a, view ino inum s' din') ∧ a ≠ 0 ∧
      Next ino inum s s' din' (if din.addrs.getD k 0 = 0 then 1 else 0) := by
  by_cases h0 : din.addrs.getD k 0 = 0
  · rw [if_pos h0] at hfit ⊢
    set s' : MkState := { s with freeblock := s.freeblock + 1 } with hs'
    set din' : Dinode := { din with addrs := din.addrs.set k s.freeblock } with hdin'
    have hne : s.freeblock ≠ 0 := by
      have hlo := h.lo
      have : 0 < nmeta := by decide
      omega
    have hrun : Fs.bmapAddr sb inum k (view ino inum s din) =
        .ok (s.freeblock, view ino inum s' din') := by
      rw [Fs.bmapAddr, run_get_bind, if_pos (addr_view.trans h0),
        run_bind (balloc_view h (by omega)), if_neg hne, run_modify_bind]
      simp only [setAddr, setInode, ino_view]
      rw [view, view, update_idem]
      rfl
    refine ⟨s.freeblock, s', din', ?_, hrun, hne, ?_, fun _ _ => rfl, rfl, rfl⟩
    · rw [takeAddr, run_get_bind, if_pos h0]
      rfl
    · have hspec := (bmapAddr_spec sb_wf h.owned hi hk).1 _ _ hrun
      exact ⟨hspec.1.owned, fun b hb => h.zero b (by simp only [hs'] at hb; omega),
        h.lo.trans (Nat.le_succ _), hfit⟩
  · rw [if_neg h0]
    refine ⟨din.addrs.getD k 0, s, din, ?_, ?_, h0, .refl h⟩
    · rw [takeAddr, run_get_bind, if_neg h0]
      rfl
    · rw [Fs.bmapAddr, run_get_bind, if_neg (by rw [addr_view]; exact h0), addr_view]
      rfl

lemma takeEntry_sim (h : Ready ino inum s din) (hi : inum < NINODES) (hj : j < NINDIRECT)
    (hind : din.addrs.getD IND 0 ≠ 0)
    (hfit : s.freeblock + (if (view ino inum s din).slot sb (inum, NDIRECT + j) = 0 then 1 else 0) ≤
      FSSIZE) :
    ∃ x s', takeEntry (din.addrs.getD IND 0) j s = .ok (x, s') ∧
      Fs.bmapEntry sb (din.addrs.getD IND 0) j (view ino inum s din) =
        .ok (x, view ino inum s' din) ∧ x ≠ 0 ∧
      Next ino inum s s' din
        (if (view ino inum s din).slot sb (inum, NDIRECT + j) = 0 then 1 else 0) := by
  set ind := din.addrs.getD IND 0 with hindeq
  have haddr : (view ino inum s din).addr inum IND = ind := addr_view
  have hslotind : (view ino inum s din).slot sb (inum, MAXFILE) = ind := (slot_ind hi).trans haddr
  obtain ⟨hlo, hhi⟩ := h.slot (y := (inum, MAXFILE)) (by rw [hslotind]; exact hind)
  rw [hslotind] at hlo hhi
  have hdisk : (view ino inum s din).disk ind = s.disk ind := marked_of_data hlo
  have hentry : (view ino inum s din).slot sb (inum, NDIRECT + j) =
      word32 (s.disk ind) (4 * j) := by
    rw [slot_entry hi (by omega) (by simp only [MAXFILE]; omega) (by rw [haddr]; exact hind),
      haddr, Nat.add_sub_cancel_left, hdisk]
  rw [hentry] at hfit ⊢
  have hspec := bmapEntry_spec sb_wf h.owned hi (by rw [haddr]; exact hind) hj
  rw [haddr] at hspec
  by_cases h0 : word32 (s.disk ind) (4 * j) = 0
  · rw [if_pos h0] at hfit ⊢
    set s' : MkState := { s with
      disk := update s.disk ind (putWord32 (s.disk ind) (4 * j) s.freeblock)
      freeblock := s.freeblock + 1 } with hs'
    have hne : s.freeblock ≠ 0 := by
      have := h.lo
      have : 0 < nmeta := by decide
      omega
    have hrun : Fs.bmapEntry sb ind j (view ino inum s din) =
        .ok (s.freeblock, view ino inum s' din) := by
      rw [Fs.bmapEntry, run_get_bind, hdisk, if_pos h0, run_bind (balloc_view h (by omega)),
        if_neg hne, run_modify_bind]
      simp only [view, setBlock, hs', marked_update hlo, marked_of_data hlo]
      rfl
    refine ⟨s.freeblock, s', ?_, hrun, hne, ?_, fun b hb => ?_, rfl, rfl⟩
    · rw [takeEntry, run_bind (rsect_run (by have := h.hi; omega)), if_pos h0]
      rfl
    · refine ⟨(hspec.1 _ _ hrun).1.owned, fun b hb => ?_, h.lo.trans (Nat.le_succ _), hfit⟩
      simp only [hs'] at hb ⊢
      rw [update_of_ne (by omega)]
      exact h.zero b (by omega)
    · exact update_of_ne (by omega) _ _
  · rw [if_neg h0]
    refine ⟨word32 (s.disk ind) (4 * j), s, ?_, ?_, h0, .refl h⟩
    · rw [takeEntry, run_bind (rsect_run (by have := h.hi; omega)), if_neg h0]
      rfl
    · rw [Fs.bmapEntry, run_get_bind, hdisk, if_neg h0]
      rfl

lemma blockOf_sim {fbn : ℕ} (h : Ready ino inum s din) (hi : inum < NINODES) (hfbn : fbn < MAXFILE)
    (hfit : s.freeblock + missing (view ino inum s din) inum fbn ≤ FSSIZE) :
    ∃ x s' din', blockOf din fbn s = .ok ((x, din'), s') ∧
      Fs.bmap sb inum fbn (view ino inum s din) = .ok (x, view ino inum s' din') ∧ x ≠ 0 ∧
      Next ino inum s s' din' (missing (view ino inum s din) inum fbn) := by
  by_cases hlt : fbn < NDIRECT
  · have hslot : (view ino inum s din).slot sb (inum, fbn) = din.addrs.getD fbn 0 :=
      (slot_direct hi hlt).trans addr_view
    have hmiss : missing (view ino inum s din) inum fbn =
        if din.addrs.getD fbn 0 = 0 then 1 else 0 := by
      simp only [missing, hslot, hlt, true_or, if_true, Nat.add_zero]
    rw [hmiss] at hfit ⊢
    obtain ⟨a, s', din', h1, h2, h3⟩ :=
      takeAddr_sim h hi (k := fbn) (by simp only [IND]; omega) hfit
    refine ⟨a, s', din', ?_, ?_, h3⟩
    · rw [blockOf, if_pos hlt, h1]
    · rw [Fs.bmap, if_pos hlt, h2]
  · have hj : fbn - NDIRECT < NINDIRECT := by
      simp only [MAXFILE] at hfbn
      omega
    have hbn : NDIRECT + (fbn - NDIRECT) = fbn := by omega
    have hslotind : (view ino inum s din).slot sb (inum, MAXFILE) = din.addrs.getD IND 0 :=
      (slot_ind hi).trans addr_view
    have hmiss : missing (view ino inum s din) inum fbn =
        (if din.addrs.getD IND 0 = 0 then 1 else 0) +
          if (view ino inum s din).slot sb (inum, fbn) = 0 then 1 else 0 := by
      simp only [missing, hslotind, hlt, false_or, ne_eq]
      by_cases h0 : din.addrs.getD IND 0 = 0
      · simp only [h0, not_true_eq_false, if_false, if_true]
        omega
      · simp only [h0, not_false_eq_true, if_false, if_true]
        omega
    rw [hmiss] at hfit ⊢
    obtain ⟨ind, s1, din1, hrun1, hsim1, hne1, hnext1⟩ :=
      takeAddr_sim h hi (k := IND) le_rfl (by omega)
    have hspec := (bmapAddr_spec sb_wf h.owned hi (le_refl IND)).1 _ _ hsim1
    have hind1 : din1.addrs.getD IND 0 = ind := addr_view.symm.trans (hspec.2.2.1 hne1)
    -- the entry is as empty as before
    have hsame : (view ino inum s1 din1).slot sb (inum, fbn) =
        (view ino inum s din).slot sb (inum, fbn) := by
      refine hspec.2.2.2.2 _ fun he => ?_
      rw [slotOf, if_neg (lt_irrefl _), Prod.mk.injEq] at he
      omega
    have hentry := takeEntry_sim hnext1.ready hi hj (by rw [hind1]; exact hne1)
      (by rw [hbn, hsame, hnext1.freeblock]; omega)
    rw [hind1, hbn, hsame] at hentry
    obtain ⟨x, s2, hrun2, hsim2, hne2, hnext2⟩ := hentry
    refine ⟨x, s2, din1, ?_, ?_, hne2, hnext1.trans hnext2⟩
    · rw [blockOf, if_neg hlt, run_bind hrun1]
      exact run_bind hrun2
    · rw [Fs.bmap, if_neg hlt, if_pos hj, run_bind hsim1, if_neg hne1, hsim2]

/-! ## The loop -/

/-- The blocks of a file of `n` bytes, with its indirect block. -/
def blocksFor (n : ℕ) : ℕ := (n + BSIZE - 1) / BSIZE + if NDIRECT * BSIZE < n then 1 else 0

variable {n : ℕ} {v w : FsState}

lemma blocksFor_mono {m : ℕ} (h : m ≤ n) : blocksFor m ≤ blocksFor n := by
  simp only [blocksFor]
  refine Nat.add_le_add (Nat.div_le_div_right (by omega)) ?_
  split_ifs <;> omega

/-- The file has exactly the blocks for `n` bytes. -/
structure Tight (v : FsState) (inum n : ℕ) : Prop where
  data : ∀ k, k < MAXFILE → (v.slot sb (inum, k) ≠ 0 ↔ k * BSIZE < n)
  ind : v.slot sb (inum, MAXFILE) ≠ 0 ↔ NDIRECT * BSIZE < n

lemma Tight.congr (h : Tight v inum n)
    (hslot : ∀ k, w.slot sb (inum, k) = v.slot sb (inum, k)) : Tight w inum n := by
  refine ⟨fun k hk => ?_, ?_⟩
  · rw [hslot]
    exact h.data k hk
  · rw [hslot]
    exact h.ind

variable {off m : ℕ}

/-- Adding `m` bytes within a block takes the blocks that are missing for it. -/
lemma Tight.missing {v : FsState} (h : Tight v inum off) (hlt : off / BSIZE < MAXFILE) (hm : 0 < m)
    (hm' : off % BSIZE + m ≤ BSIZE) :
    blocksFor (off + m) = blocksFor off + missing v inum (off / BSIZE) := by
  have hdata := h.data _ hlt
  have hind := h.ind
  have hmiss : Mkfs.missing v inum (off / BSIZE) = (if off / BSIZE * BSIZE < off then 0 else 1) +
      if off / BSIZE < NDIRECT ∨ NDIRECT * BSIZE < off then 0 else 1 := by
    simp only [Mkfs.missing, ← hind, ← hdata, ite_not]
  rw [hmiss, blocksFor, blocksFor]
  clear hmiss hind hdata h
  simp only [NDIRECT, BSIZE] at *
  split_ifs <;> omega

lemma Tight.next (h : Tight v inum off) (hlt : off / BSIZE < MAXFILE) (hm : 0 < m)
    (hm' : off % BSIZE + m ≤ BSIZE) (hnew : w.slot sb (inum, off / BSIZE) ≠ 0)
    (hsame : ∀ y, y ≠ (inum, off / BSIZE) →
      (off / BSIZE < NDIRECT ∨ y ≠ (inum, MAXFILE)) → w.slot sb y = v.slot sb y) :
    Tight w inum (off + m) := by
  refine ⟨fun k hk => ?_, ?_⟩
  · by_cases hkb : k = off / BSIZE
    · rw [hkb]
      refine ⟨fun _ => ?_, fun _ => hnew⟩
      simp only [BSIZE] at *
      omega
    · rw [hsame (inum, k) (fun he => hkb (Prod.mk.inj he).2)
        (.inr fun he => absurd (Prod.mk.inj he).2 (by omega)), h.data k hk]
      simp only [BSIZE] at *
      omega
  · by_cases hn : off / BSIZE < NDIRECT
    · rw [hsame (inum, MAXFILE) (fun he => absurd (Prod.mk.inj he).2 (by omega)) (.inl hn), h.ind]
      simp only [NDIRECT, BSIZE] at *
      omega
    · refine ⟨fun _ => ?_, fun _ h0 => ?_⟩
      · simp only [NDIRECT, BSIZE] at *
        omega
      · by_cases hi : inum < sb.ninodes
        · exact hnew (slot_no_ind ((slot_ind hi).symm.trans h0) hn)
        · exact hnew (if_neg hi)

lemma Ready.write {f : Block → Block} (h : Ready ino inum s din)
    (hx : (view ino inum s din).slot sb y ≠ 0) (hy : y.2 ≠ MAXFILE) :
    let x := (view ino inum s din).slot sb y
    let s' : MkState := { s with disk := update s.disk x (f (s.disk x)) }
    view ino inum s' din = (view ino inum s din).setBlock x (f ((view ino inum s din).disk x)) ∧
      Next ino inum s s' din 0 := by
  intro x s'
  obtain ⟨hlo, hhi⟩ := h.slot hx
  have hview : view ino inum s' din =
      (view ino inum s din).setBlock x (f ((view ino inum s din).disk x)) := by
    have hdisk : (view ino inum s din).disk x = s.disk x := marked_of_data hlo
    rw [hdisk, setBlock]
    show FsState.mk (marked (update s.disk x (f (s.disk x))) s.freeblock) _ = _
    rw [marked_update hlo]
    rfl
  refine ⟨hview, ⟨?_, fun b hb => ?_, h.lo, h.hi⟩, fun b hb => ?_, rfl, rfl⟩
  · rw [hview]
    exact h.owned.setBlock hx hy
  · refine (update_of_ne ?_ _ _).trans (h.zero b hb)
    have : s.freeblock ≤ b := hb
    omega
  · exact update_of_ne (by omega) _ _

lemma appendLoop_sim (hi : inum < NINODES) {p : ℕ → UInt8} :
    ∀ (fuel tot off : ℕ) {s : MkState} {din : Dinode}, tot ≤ n → n - tot ≤ fuel →
      off + (n - tot) ≤ MAXFILE * BSIZE → Ready ino inum s din →
      Tight (view ino inum s din) inum off →
      s.freeblock + (blocksFor (off + (n - tot)) - blocksFor off) ≤ FSSIZE →
      ∃ s' din', appendLoop p n fuel din tot off s = .ok ((din', off + (n - tot)), s') ∧
        Fs.writeLoop sb inum n ⟨p, fun _ => none⟩ fuel tot off (view ino inum s din) =
          .ok ((n, off + (n - tot)), view ino inum s' din') ∧
        Tight (view ino inum s' din') inum (off + (n - tot)) ∧
        Next ino inum s s' din' (blocksFor (off + (n - tot)) - blocksFor off) := by
  intro fuel
  induction fuel with
  | zero =>
    intro tot off s din hle hfuel _ h ht _
    obtain rfl : tot = n := by omega
    rw [Nat.sub_self, Nat.add_zero, Nat.sub_self]
    exact ⟨s, din, rfl, rfl, ht, .refl h⟩
  | succ fuel ih =>
    intro tot off s din hle hfuel hend h ht hfit
    by_cases hlt : tot < n
    · have hbn : off / BSIZE < MAXFILE := by
        simp only [BSIZE] at *
        omega
      set m := min (n - tot) (BSIZE - off % BSIZE) with hm
      have hn1 : min (n - tot) ((off / BSIZE + 1) * BSIZE - off) = m := by
        rw [hm]
        congr 1
        simp only [BSIZE] at *
        omega
      have hoffs : off - off / BSIZE * BSIZE = off % BSIZE := by
        simp only [BSIZE] at *
        omega
      have hmod : off % BSIZE < BSIZE := Nat.mod_lt _ (by norm_num)
      have hm0 : 0 < m := by omega
      have hmn : m ≤ n - tot := min_le_left _ _
      have hmb : off % BSIZE + m ≤ BSIZE := by omega
      have hmono : blocksFor (off + m) ≤ blocksFor (off + (n - tot)) := blocksFor_mono (by omega)
      have hmiss := ht.missing hbn hm0 hmb
      obtain ⟨x, s1, din1, hrun, hsim, hx, hnext⟩ := blockOf_sim h hi hbn (by omega)
      obtain ⟨-, -, hslot, -, honly⟩ := (bmap_spec sb_wf h.owned hi hbn).1 _ _ hsim
      have hsx := hslot hx
      have hne : (view ino inum s1 din1).slot sb (inum, off / BSIZE) ≠ 0 := by
        rw [hsx]
        exact hx
      have hw := hnext.ready.write (f := fun b => putBytes b (off % BSIZE) m fun i => p (tot + i))
        hne hbn.ne
      rw [hsx] at hw
      simp only at hw
      obtain ⟨hview, hnext'⟩ := hw
      have htight : Tight (view ino inum s1 din1) inum (off + m) := ht.next hbn hm0 hmb hne honly
      have hsub : off + m + (n - (tot + m)) = off + (n - tot) := by omega
      have hrec := ih (tot + m) (off + m) (by omega) (by omega) (by omega)
        hnext'.ready (htight.congr fun k => by
          rw [hview, ← hsx]
          exact hnext.ready.owned.slot_setBlock hne hbn.ne _)
        (by rw [hsub, hnext'.freeblock, hnext.freeblock]; omega)
      rw [hsub] at hrec
      obtain ⟨s', din', hrun', hsim', ht', hnext''⟩ := hrec
      have hxlt : x < FSSIZE := by
        have hused := hnext.ready.slot hne
        have hhi := hnext.ready.hi
        rw [hsx] at hused
        omega
      have hcount : missing (view ino inum s din) inum (off / BSIZE) + 0 +
          (blocksFor (off + (n - tot)) - blocksFor (off + m)) =
          blocksFor (off + (n - tot)) - blocksFor off := by omega
      refine ⟨s', din', ?_, ?_, ht', hcount ▸ (hnext.trans hnext').trans hnext''⟩
      · rw [appendLoop, if_pos hlt]
        simp only [if_pos hbn, hn1, hoffs]
        rw [run_bind hrun]
        simp only
        rw [run_bind (rsect_run hxlt), wsect, run_modify_bind]
        exact hrun'
      · rw [Fs.writeLoop, if_pos hlt, run_bind hsim, if_neg hx]
        simp only
        rw [run_modify_bind, ← hm, ← hview]
        exact hsim'
    · obtain rfl : tot = n := by omega
      simp only [Nat.sub_self, Nat.add_zero]
      refine ⟨s, din, ?_, ?_, ht, .refl h⟩
      · rw [appendLoop, if_neg hlt]
        rfl
      · rw [Fs.writeLoop, if_neg hlt]
        rfl

end Mkfs

/-! ## Inodes that no one looks at -/

namespace FsState

/-- Two states that differ at most in inodes that do not exist. -/
structure Agrees (sb : Superblock) (s t : FsState) : Prop where
  disk : t.disk = s.disk
  ino : ∀ i, i < sb.ninodes → t.ino i = s.ino i

namespace Agrees

variable {sb : Superblock} {s t : FsState} {i : ℕ}

section

variable (h : Agrees sb s t)
include h

lemma slot (x : ℕ × ℕ) : t.slot sb x = s.slot sb x := by
  rw [FsState.slot, FsState.slot]
  split_ifs with hi
  · rw [h.disk, h.ino _ hi]
  · rfl

lemma byte (i p : ℕ) : t.byte sb i p = s.byte sb i p :=
  byte_congr h.slot (fun _ _ => by rw [h.disk]) i p

lemma content (hi : i < sb.ninodes) : t.content sb i = s.content sb i := by
  rw [FsState.content, FsState.content, h.ino i hi]
  exact map_congr_left fun p _ => h.byte i p

lemma owned (hs : s.Owned sb) : t.Owned sb := by
  refine ⟨fun i hi => ?_, hs.owns.congr h.slot fun _ _ => ?_, fun b hb => ?_⟩
  · rw [h.ino i hi]
    exact hs.fits i hi
  · simp only [InUse, h.disk]
  · rw [h.disk]
    exact hs.metadata b hb

lemma consistent (hs : s.Consistent sb) : t.Consistent sb := by
  refine ⟨h.owned hs.toOwned, fun i hi k hk => ?_, fun i hi => ?_⟩
  · rw [h.ino i hi] at hk
    rw [h.slot]
    exact hs.mapped i hi k hk
  · rw [h.ino i hi]
    exact hs.size_le i hi

end

end Agrees

end FsState

/-! ## `iappend` -/

namespace Mkfs

/-- The file system on the image. -/
def image (s : MkState) : FsState := diskFs sb (marked s.disk s.freeblock)

/-- **The image while `mkfs` works.**  Files have exactly the blocks that they need, with zeros
behind their ends, and the blocks and dinodes that are left are zero. -/
structure Good (s : MkState) : Prop where
  consistent : (image s).Consistent sb
  tight : ∀ i, i < NINODES → Tight (image s) i ((image s).ino i).size
  tail : ∀ i p, i < NINODES → ((image s).ino i).size ≤ p → (image s).byte sb i p = 0
  zero : ∀ b, s.freeblock ≤ b → s.disk b = fun _ => 0
  lo : nmeta ≤ s.freeblock
  hi : s.freeblock ≤ FSSIZE
  fresh : ∀ i, s.freeinode ≤ i → i < NINODES → (image s).ino i = .new 0
  low : ∀ b, b < sb.inodestart → s.disk b = init.disk b

variable {ino : ℕ → Dinode} {inum b : ℕ} {s s' u : MkState} {din v : Dinode} {xp : List UInt8}

lemma iblock_bounds (hi : inum < NINODES) :
    sb.inodestart ≤ sb.iblock inum ∧ sb.iblock inum < sb.bmapstart ∧ sb.bmapstart < nmeta :=
  ⟨Nat.le_add_left _ _, sb_wf.inodes inum hi, by decide⟩

lemma ino_image (hi : inum < NINODES) : (image s).ino inum = rinode s.disk inum := dinode_marked hi

lemma image_winode (din : Dinode) (hi : inum < NINODES) (hv : v.Fits)
    (hino : ∀ i, i < NINODES → i ≠ inum → ino i = sb.dinode s.disk i) :
    Agrees sb (((view ino inum s din).setInode inum v).updated sb inum)
      (image { s with disk := sb.setDinode s.disk inum v }) := by
  have hne : sb.bmapstart ≠ sb.iblock inum := (iblock_bounds hi).2.1.ne'
  refine ⟨?_, fun i hi' => ?_⟩
  · show marked (sb.setDinode s.disk inum v) s.freeblock =
      sb.setDinode (marked s.disk s.freeblock) inum _
    have hvino : ((view ino inum s din).setInode inum v).ino inum = v := update_self ..
    rw [hvino, setDinode, setDinode, marked_of_ne hne.symm]
    exact update_comm hne.symm _ _ _
  · rw [ino_image hi', rinode, dinode_setDinode hv]
    show _ = update (update ino inum din) inum v i
    by_cases hii : i = inum
    · rw [if_pos hii, hii, update_self]
    · rw [if_neg hii, update_of_ne hii, update_of_ne hii, hino i hi' hii]

/-- What `iappend` leaves. -/
structure Appended (s s' : MkState) (inum : ℕ) (xp : List UInt8) : Prop where
  good : Good s'
  freeblock : s'.freeblock = s.freeblock + (blocksFor (((image s).ino inum).size + xp.length) -
    blocksFor ((image s).ino inum).size)
  freeinode : s'.freeinode = s.freeinode
  content : (image s').content sb inum = (image s).content sb inum ++ xp
  type : ((image s').ino inum).type = ((image s).ino inum).type
  ino : ∀ i, i < NINODES → i ≠ inum → (image s').ino i = (image s).ino i
  other : ∀ i, i < NINODES → i ≠ inum → (image s').content sb i = (image s).content sb i

/-- The image behind `iappend` is `t`, the state behind the kernel's `writei`. -/
structure Follows (s s' : MkState) (t : FsState) (inum n : ℕ) : Prop where
  agrees : Agrees sb t (image s')
  tight : Tight t inum (((image s).ino inum).size + n)
  other : ∀ y, y.1 ≠ inum → t.slot sb y = (image s).slot sb y
  zero : ∀ b, s'.freeblock ≤ b → s'.disk b = fun _ => 0
  lo : nmeta ≤ s'.freeblock
  hi : s'.freeblock ≤ FSSIZE
  low : ∀ b, b < sb.inodestart → s'.disk b = s.disk b
  freeblock : s'.freeblock = s.freeblock + (blocksFor (((image s).ino inum).size + n) -
    blocksFor ((image s).ino inum).size)
  freeinode : s'.freeinode = s.freeinode

lemma iappend_sim (h : Good s) (hi : inum < NINODES)
    (hsize : ((image s).ino inum).size + xp.length ≤ MAXFILE * BSIZE)
    (hfit : s.freeblock + (blocksFor (((image s).ino inum).size + xp.length) -
      blocksFor ((image s).ino inum).size) ≤ FSSIZE) :
    ∃ s' t, iappend inum xp s = .ok ((), s') ∧
      Fs.writei sb inum ⟨fun i => xp.getD i 0, fun _ => none⟩ ((image s).ino inum).size xp.length
        (image s) = .ok ((xp.length : ℤ), t) ∧ Follows s s' t inum xp.length := by
  have hdin : rinode s.disk inum = (image s).ino inum := (ino_image hi).symm
  have hview : view (image s).ino inum s (rinode s.disk inum) = image s := by
    rw [hdin, view, update_eq_self]
    rfl
  have hready : Ready (image s).ino inum s (rinode s.disk inum) :=
    ⟨by rw [hview]; exact h.consistent.toOwned, h.zero, h.lo, h.hi⟩
  set size := ((image s).ino inum).size with hsizeq
  have hsim := appendLoop_sim hi (p := fun i => xp.getD i 0) (n := xp.length) xp.length
    0 size (Nat.zero_le _) le_rfl hsize hready (by
      rw [hview]
      exact h.tight inum hi) hfit
  rw [Nat.sub_zero, hview] at hsim
  obtain ⟨u, din', hrun, hloop, ht, hnext⟩ := hsim
  set w := view (image s).ino inum u din' with hw
  -- the slots of other files, and the size, from the kernel's loop
  have hwrote := (writeLoop_spec sb_wf hi hsize
    (Nat.zero_le _) le_rfl (.inl rfl) (Wrote.refl h.consistent.toOwned)).1 _ _ hloop
  obtain ⟨k, -, -, -, hwrote⟩ := hwrote.2.wrote
  have hsame : max din'.size (size + xp.length) = size + xp.length := by
    have hfields := hwrote.fields
    rw [hw, ino_view] at hfields
    rw [hfields]
    show max size _ = _
    omega
  set v : Dinode := { din' with size := size + xp.length } with hv
  have hvfits : v.Fits := by
    have hf := hnext.ready.owned.fits inum hi
    have hmax : MAXFILE * BSIZE < 2 ^ 32 := by norm_num
    rw [ino_view] at hf
    exact ⟨hf.short, by simp only [hv]; omega, hf.length, hf.addrs⟩
  have hvaddrs : v.addrs = (w.ino inum).addrs := by rw [hw, ino_view]
  have hslot : ∀ y, ((w.setInode inum v).updated sb inum).slot sb y = w.slot sb y := fun y => by
    rw [slot_updated sb_wf (hnext.ready.owned.setInode hvaddrs hvfits) hi, slot_setInode hvaddrs]
  have hib := iblock_bounds hi
  refine ⟨{ u with disk := sb.setDinode u.disk inum v },
    (w.setInode inum v).updated sb inum, ?_, ?_,
    image_winode _ hi hvfits fun i hi' _ => ?_, ht.congr fun k => hslot _,
    fun y hy => (hslot y).trans (hwrote.other y hy), fun b hb => ?_, hnext.ready.lo, hnext.ready.hi,
    fun b hb => ?_, hnext.freeblock, hnext.freeinode⟩
  · rw [iappend, run_get_bind]
    simp only [hdin]
    rw [← hsizeq, ← hdin, run_bind hrun]
    rfl
  · have hmax : MAXFILE * BSIZE < 2 ^ 32 := by norm_num
    rw [Fs.writei, run_get_bind, if_neg (by omega), if_neg (by omega), run_bind hloop]
    simp only
    rw [run_modify_bind, hw, ino_view, hsame]
    rfl
  · have hib' := iblock_bounds hi'
    rw [ino_image hi']
    exact (dinode_congr (hnext.metadata _ (by omega))).symm
  · have hlo := hnext.ready.lo
    change u.freeblock ≤ b at hb
    exact (setDinode_of_ne (by omega)).trans (hnext.ready.zero b hb)
  · exact (setDinode_of_ne (by omega)).trans (hnext.metadata b (by omega))

lemma iappend_spec (inum : ℕ) (xp : List UInt8) (h : Good s) (hi : inum < s.freeinode)
    (hn : s.freeinode ≤ NINODES) (hsize : ((image s).ino inum).size + xp.length ≤ MAXFILE * BSIZE)
    (hfit : s.freeblock + (blocksFor (((image s).ino inum).size + xp.length) -
      blocksFor ((image s).ino inum).size) ≤ FSSIZE) :
    ∃ s', iappend inum xp s = .ok ((), s') ∧ Appended s s' inum xp := by
  have hi' : inum < NINODES := by omega
  have hmax : MAXFILE * BSIZE < 2 ^ 31 := by norm_num
  obtain ⟨s', t, hrun, hwritei, hf⟩ := iappend_sim h hi' hsize hfit
  have hspec := (writei_spec sb_wf h.consistent hi' _ (by omega) (by omega)).1 _ _ hwritei
  have hnot : ¬ (image s).Refused inum ((image s).ino inum).size xp.length := fun hr => by
    simp only [Refused] at hr
    omega
  simp only [if_neg hnot] at hspec
  obtain ⟨tot, htot, hw⟩ := hspec
  obtain rfl : xp.length = tot := by exact_mod_cast htot
  have hag := hf.agrees
  have hsz : ((image s').ino inum).size = ((image s).ino inum).size + xp.length := by
    rw [hag.ino inum hi', hw.size]
    omega
  have hino : ∀ i, i < NINODES → i ≠ inum → (image s').ino i = (image s).ino i :=
    fun i hi hii => (hag.ino i hi).trans (hw.others i hii).1
  refine ⟨s', hrun, ⟨hag.consistent hw.consistent, fun i hi => ?_, fun i p hi hp => ?_,
    hf.zero, hf.lo,
    hf.hi, fun i hfree hi => ?_, fun b hb => (hf.low b hb).trans (h.low b hb)⟩, hf.freeblock,
    hf.freeinode, ?_, ?_, hino, fun i hi hii => ?_⟩
  · by_cases hii : i = inum
    · rw [hii, hsz]
      exact hf.tight.congr fun k => hag.slot _
    · rw [hino i hi hii]
      exact (h.tight i hi).congr fun k => (hag.slot _).trans (hf.other (i, k) hii)
  · rw [hag.byte]
    by_cases hii : i = inum
    · subst hii
      rw [hsz] at hp
      rw [hw.clean rfl p hp]
      exact h.tail i p hi' (by omega)
    · rw [hino i hi hii] at hp
      rw [(hw.others i hii).2]
      exact h.tail i p hi hp
  · have hfi := hf.freeinode
    rw [hino i hi (by omega)]
    exact h.fresh i (by omega) hi
  · rw [hag.content hi', hw.append rfl]
    refine congrArg _ (ext_getElem (by simp) fun j h1 h2 => ?_)
    simp [getD_eq_getElem?_getD, h2]
  · rw [hag.ino inum hi', hw.fields]
  · exact (hag.content hi).trans (hw.touches.content i hii)

end Mkfs

end Xv6
