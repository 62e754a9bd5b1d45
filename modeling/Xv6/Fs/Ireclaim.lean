import Xv6.Fs.Itrunc

/-!
# Reclaiming orphaned inodes at boot

`ireclaim` scans the dinodes on the disk and, for every inode that is allocated but has no links,
takes a reference, reads it into the inode table and puts it back, which frees it. The model has the
inode table with its reference counts, since whether `iput` frees depends on them; it runs alone, as
at boot.

The steps of the development follow the code: `Reclaimed` is what freeing one inode does to the
disk, `Swept n` what the scan has done up to inode `n`, and **`ireclaim_exact`** is the whole scan.
-/

namespace Xv6

open ByteArr Prog FsState Function List Superblock

/-- An entry of the inode table; `d` is the copy of the dinode. -/
structure MemInode where
  dev : ℕ
  inum : ℕ
  ref : ℤ
  valid : Bool
  locked : Bool
  d : Dinode

/-- The disk and the inode table. -/
structure BootState where
  disk : Disk
  inode : Fin NINODE → MemInode

/-- The panics at boot. -/
inductive BootPanic where
  | igetNoInodes
  | ilock
  | ilockNoType
  | iunlock
  /-- `acquiresleep` would sleep, and nobody could wake it up. -/
  | asleep
  | fs (e : FsPanic)
  deriving DecidableEq

abbrev BootProg (α : Type) := Prog BootState BootPanic α

namespace BootState

/-- The entry `ip` changes. -/
def setInode (s : BootState) (ip : Fin NINODE) (v : MemInode) : BootState :=
  { s with inode := update s.inode ip v }

/-- The file system with the inode of `ip` in memory. -/
def view (sb : Superblock) (s : BootState) (ip : Fin NINODE) : FsState :=
  ⟨s.disk, update (sb.dinode s.disk) (s.inode ip).inum (s.inode ip).d⟩

end BootState

namespace Boot

variable (sb : Superblock)

/-- A function of the file system on the inode of `ip`. -/
def onInode (ip : Fin NINODE) (m : ℕ → FsProg Unit) : BootProg Unit := do
  let s ← get
  match m (s.inode ip).inum (s.view sb ip) with
  | .ok (_, t) =>
    set { s.setInode ip { s.inode ip with d := t.ino (s.inode ip).inum } with disk := t.disk }
  | .error e => throw (.fs e)

/-- The entry of the inode if it is in the table, or else the first empty one. -/
def iget (dev inum : ℕ) : BootProg (Fin NINODE) := do
  let s ← get
  match (finRange NINODE).find? fun i =>
      decide (0 < (s.inode i).ref ∧ (s.inode i).dev = dev ∧ (s.inode i).inum = inum) with
  | some i =>
    set (s.setInode i { s.inode i with ref := (s.inode i).ref + 1 })
    return i
  | none =>
    match (finRange NINODE).find? fun i => decide ((s.inode i).ref = 0) with
    | some i =>
      set (s.setInode i
        { s.inode i with dev := dev, inum := inum, ref := 1, valid := false })
      return i
    | none => throw .igetNoInodes

def ilock (ip : Fin NINODE) : BootProg Unit := do
  let s ← get
  if (s.inode ip).ref < 1 then throw .ilock
  else if (s.inode ip).locked then throw .asleep
  else if (s.inode ip).valid then set (s.setInode ip { s.inode ip with locked := true })
  else
    set (s.setInode ip { s.inode ip with
      locked := true, valid := true, d := sb.dinode s.disk (s.inode ip).inum })
    if (sb.dinode s.disk (s.inode ip).inum).type = 0 then throw .ilockNoType

def iunlock (ip : Fin NINODE) : BootProg Unit := do
  let s ← get
  if (s.inode ip).locked = false ∨ (s.inode ip).ref < 1 then throw .iunlock
  else set (s.setInode ip { s.inode ip with locked := false })

def iput (ip : Fin NINODE) : BootProg Unit := do
  let s ← get
  if (s.inode ip).ref = 1 ∧ (s.inode ip).valid ∧ (s.inode ip).d.nlink = 0 then
    if (s.inode ip).locked then throw .asleep
    else
      modify fun s => s.setInode ip { s.inode ip with locked := true }
      onInode sb ip (Fs.itrunc sb)
      modify fun s => s.setInode ip
        { s.inode ip with d := { (s.inode ip).d with type := 0 } }
      onInode sb ip (Fs.iupdate sb)
      modify fun s => s.setInode ip { s.inode ip with valid := false, locked := false }
  modify fun s => s.setInode ip { s.inode ip with ref := (s.inode ip).ref - 1 }

/-- An orphaned inode on the disk. -/
def Orphan (d : Disk) (inum : ℕ) : Prop :=
  (sb.dinode d inum).type ≠ 0 ∧ (sb.dinode d inum).nlink = 0

instance (d : Disk) (inum : ℕ) : Decidable (Orphan sb d inum) :=
  inferInstanceAs (Decidable (_ ∧ _))

def ireclaim (dev : ℕ) : BootProg Unit :=
  forRange (fun inum => do
    let s ← get
    if Orphan sb s.disk inum then
      let ip ← iget dev inum
      ilock sb ip
      iunlock ip
      iput sb ip) 1 (sb.ninodes - 1)

end Boot

/-! ## The disk -/

/-- **A consistent disk**: the blocks are owned by slots or free, a free inode has no blocks, and
inode 0 is not used. -/
structure DiskOk (sb : Superblock) (d : Disk) : Prop where
  consistent : (diskFs sb d).Consistent sb
  free : ∀ i, i < sb.ninodes → (sb.dinode d i).type = 0 → (sb.dinode d i).addrs = noAddrs
  zero : (sb.dinode d 0).type = 0

/-- A dinode that has been freed. -/
def Dinode.freed (v : Dinode) : Dinode := { v with type := 0, size := 0, addrs := noAddrs }

variable {sb : Superblock} {d d' d'' : Disk} {inum n i k dev : ℕ} {y : ℕ × ℕ}

/-- The inodes in `S` have been freed and nothing else has changed. -/
structure Reclaimed (sb : Superblock) (d d' : Disk) (S : ℕ → Prop) : Prop where
  ok : DiskOk sb d'
  freed : ∀ i, i < sb.ninodes → S i → sb.dinode d' i = (sb.dinode d i).freed
  kept : ∀ i, i < sb.ninodes → ¬ S i → sb.dinode d' i = sb.dinode d i
  slot : ∀ y, ¬ S y.1 → (diskFs sb d').slot sb y = (diskFs sb d).slot sb y
  disk : ∀ b, (∀ c, c < sb.size → b ≠ sb.bblock c) → (∀ i, S i → b ≠ sb.iblock i) → d' b = d b

lemma Reclaimed.refl (h : DiskOk sb d) : Reclaimed sb d d fun _ => False :=
  ⟨h, fun _ _ hf => hf.elim, fun _ _ _ => rfl, fun _ _ => rfl, fun _ _ _ => rfl⟩

lemma Reclaimed.trans {S T : ℕ → Prop} (h : Reclaimed sb d d' S) (h' : Reclaimed sb d' d'' T)
    (hdisj : ∀ i, S i → ¬ T i) : Reclaimed sb d d'' fun i => S i ∨ T i := by
  refine ⟨h'.ok, fun i hi hS => ?_, fun i hi hS => ?_, fun y hS => ?_, fun b hb hne => ?_⟩
  · rcases hS with hS | hT
    · rw [h'.kept i hi (hdisj i hS), h.freed i hi hS]
    · rw [h'.freed i hi hT, h.kept i hi fun hS => hdisj i hS hT]
  · rw [h'.kept i hi fun hT => hS (.inr hT), h.kept i hi fun hS' => hS (.inl hS')]
  · rw [h'.slot y fun hT => hS (.inr hT), h.slot y fun hS' => hS (.inl hS')]
  · rw [h'.disk b hb fun i hT => hne i (.inr hT), h.disk b hb fun i hS => hne i (.inl hS)]

lemma FsState.Owned.of_ino {s t : FsState} (h : s.Owned sb) (hdisk : t.disk = s.disk)
    (hino : ∀ i, i < sb.ninodes → t.ino i = s.ino i) :
    t.Owned sb ∧ ∀ y, t.slot sb y = s.slot sb y := by
  have hslot : ∀ y, t.slot sb y = s.slot sb y := by
    rintro ⟨i, k⟩
    by_cases hi : i < sb.ninodes
    · rw [slot, slot, if_pos hi, if_pos hi, hdisk, hino i hi]
    · rw [slot, slot, if_neg hi, if_neg hi]
  refine ⟨⟨fun i hi => ?_, h.owns.congr hslot fun b _ => ?_, fun b hb => ?_⟩, hslot⟩
  · rw [hino i hi]
    exact h.fits i hi
  · rw [InUse, InUse, hdisk]
  · rw [hdisk]
    exact h.metadata b hb

lemma FsState.Truncated.reaped {t : FsState} (hsb : sb.WF) (hd : DiskOk sb d)
    (hi : inum < sb.ninodes) (h : Truncated sb (diskFs sb d) t inum) :
    Reclaimed sb d (sb.setDinode t.disk inum { t.ino inum with type := 0 }) (· = inum) := by
  have hfits := (h.owned.fits inum hi).of_free
  -- `w` is the state before `iupdate`
  set w := t.setInode inum { t.ino inum with type := 0 } with hw
  have hwino : w.ino inum = { t.ino inum with type := 0 } := update_self ..
  have hwother : ∀ j, j ≠ inum → w.ino j = sb.dinode d j := fun j hj =>
    (update_of_ne hj _ _).trans (h.ino j hj)
  have howned : w.Owned sb := h.owned.setInode rfl hfits
  have hdisk : sb.setDinode t.disk inum { t.ino inum with type := 0 } =
      (w.updated sb inum).disk := by
    rw [updated, hwino]
    rfl
  have hself : w.ino inum = (sb.dinode d inum).freed := by
    rw [hwino, h.self]
    rfl
  have hdinode : ∀ i, i < sb.ninodes → sb.dinode (w.updated sb inum).disk i = w.ino i := by
    intro i hi'
    rw [dinode_updated howned hi]
    split_ifs with hii
    · rw [hii]
    · rw [hwother i hii]
      exact (h.dinode i hi').trans (if_neg hii)
  rw [hdisk]
  obtain ⟨hnew, hslot⟩ := (howned.updated hsb hi).of_ino
    (t := diskFs sb (w.updated sb inum).disk) rfl hdinode
  have hwslot : ∀ y, w.slot sb y = t.slot sb y := slot_setInode rfl
  have hslot' : ∀ y, (diskFs sb (w.updated sb inum).disk).slot sb y = t.slot sb y := fun y =>
    ((hslot y).trans (slot_updated hsb howned hi y)).trans (hwslot y)
  have hmapped := hd.consistent.mapped
  have hsize := hd.consistent.size_le
  refine ⟨⟨⟨hnew, fun i hi' k hk => ?_, fun i hi' => ?_⟩, fun i hi' h0 => ?_, ?_⟩,
    fun i hi' hS => ?_, fun i hi' hS => ?_, fun y hy => ?_, fun b hb hne => ?_⟩
  · rw [hslot']
    have hk' : k * BSIZE < (w.ino i).size := by
      rw [← hdinode i hi']
      exact hk
    by_cases hii : i = inum
    · rw [hii, hself] at hk'
      exact absurd hk' (Nat.not_lt_zero _)
    · rw [hwother i hii] at hk'
      rw [h.slot _ hii]
      exact hmapped i hi' k hk'
  · show (sb.dinode _ i).size ≤ _
    rw [hdinode i hi']
    by_cases hii : i = inum
    · rw [hii, hself]
      exact Nat.zero_le _
    · rw [hwother i hii]
      exact hsize i hi'
  · rw [hdinode i hi'] at h0 ⊢
    by_cases hii : i = inum
    · rw [hii, hself]
      rfl
    · rw [hwother i hii] at h0 ⊢
      exact hd.free i hi' h0
  · rw [hdinode 0 (by omega)]
    by_cases hii : 0 = inum
    · rw [hii, hself]
      rfl
    · rw [hwother 0 hii]
      exact hd.zero
  · obtain rfl : i = inum := hS
    rw [hdinode i hi', hself]
  · rw [hdinode i hi', hwother i hS]
  · rw [hslot', h.slot y hy]
  · have hne' := hne inum rfl
    exact (setDinode_of_ne hne').trans (h.disk b hb hne')

/-! ## The inode table -/

namespace BootState

variable {s t u : BootState} {ip : Fin NINODE} {v w : MemInode}

@[simp] lemma disk_setInode : (s.setInode ip v).disk = s.disk := rfl

@[simp] lemma inode_setInode_self : (s.setInode ip v).inode ip = v := update_self ..

@[simp] lemma setInode_setInode : (s.setInode ip v).setInode ip w = s.setInode ip w := by
  rw [setInode, setInode, setInode, update_idem]

@[simp] lemma setInode_mk {d : Disk} : (BootState.mk d (s.setInode ip v).inode).setInode ip w =
    ⟨d, (s.setInode ip w).inode⟩ := by
  rw [setInode, setInode, setInode, update_idem]

/-- There is an empty entry, and no orphan is in the table. -/
structure TableOk (sb : Superblock) (dev : ℕ) (s : BootState) : Prop where
  empty : ∃ e, (s.inode e).ref = 0
  unlocked : ∀ e, (s.inode e).ref = 0 → (s.inode e).locked = false
  busy : ∀ e, 0 < (s.inode e).ref → (s.inode e).dev = dev → (s.inode e).inum < sb.ninodes →
    ¬ Boot.Orphan sb s.disk (s.inode e).inum

/-- The reference counts are the same, and so are the entries in use. -/
structure SameTable (s t : BootState) : Prop where
  ref : ∀ e, (t.inode e).ref = (s.inode e).ref
  used : ∀ e, (s.inode e).ref ≠ 0 → t.inode e = s.inode e

lemma SameTable.refl : SameTable s s := ⟨fun _ => rfl, fun _ _ => rfl⟩

lemma SameTable.trans (h : SameTable s t) (h' : SameTable t u) : SameTable s u :=
  ⟨fun e => (h'.ref e).trans (h.ref e), fun e he =>
    (h'.used e (by rw [h.ref e]; exact he)).trans (h.used e he)⟩

lemma SameTable.of_empty (h0 : (s.inode ip).ref = 0) (hv : v.ref = 0) {d : Disk} :
    SameTable s ⟨d, (s.setInode ip v).inode⟩ := by
  refine ⟨fun e => ?_, fun e he => ?_⟩
  · by_cases hp : e = ip
    · simp [hp, setInode, h0, hv]
    · simp [hp, setInode]
  · have hp : e ≠ ip := fun hp => he (hp ▸ h0)
    simp [hp, setInode]

end BootState

namespace Boot

open BootState

variable {s : BootState} {ip : Fin NINODE}

lemma onInode_spec {m : ℕ → FsProg Unit} {Q : PUnit → FsState → Prop}
    (h : wp (m (s.inode ip).inum) (s.view sb ip) Q fun _ => False) :
    wp (onInode sb ip m) s (fun _ t => ∃ fs, Q ⟨⟩ fs ∧
      t = { s.setInode ip { s.inode ip with d := fs.ino (s.inode ip).inum } with disk := fs.disk })
      fun _ => False := by
  obtain ⟨⟨⟩, fs, hm, hQ⟩ := h.returns
  simp only [onInode, wp_bind, wp_get, hm, wp_set]
  exact ⟨fs, hQ, rfl⟩

lemma iget_spec (ht : s.TableOk sb dev) (hi : inum < sb.ninodes) (ho : Orphan sb s.disk inum) :
    wp (iget dev inum) s (fun ip t => (s.inode ip).ref = 0 ∧ t = s.setInode ip
      { s.inode ip with dev := dev, inum := inum, ref := 1, valid := false }) fun _ => False := by
  have hnone : ((finRange NINODE).find? fun i =>
      decide (0 < (s.inode i).ref ∧ (s.inode i).dev = dev ∧ (s.inode i).inum = inum)) = none := by
    refine find?_eq_none.mpr fun e _ => ?_
    simp only [decide_eq_true_eq]
    rintro ⟨hpos, hdev, rfl⟩
    exact ht.busy e hpos hdev hi ho
  simp only [iget, wp_bind, wp_get, hnone]
  cases hfind : (finRange NINODE).find? fun i => decide ((s.inode i).ref = 0) with
  | some e =>
    have h0 : (s.inode e).ref = 0 := by simpa using find?_some hfind
    simp only [wp_bind, wp_set, wp_pure]
    exact ⟨h0, trivial⟩
  | none =>
    obtain ⟨e, he⟩ := ht.empty
    have := find?_eq_none.mp hfind e (mem_finRange e)
    exact absurd he (by simpa using this)

/-- One orphan: it is freed, and its entry is empty again. -/
lemma reclaim_spec (hsb : sb.WF) (hd : DiskOk sb s.disk) (ht : s.TableOk sb dev)
    (hi : inum < sb.ninodes) (ho : Orphan sb s.disk inum) :
    wp (do
      let ip ← iget dev inum
      ilock sb ip
      iunlock ip
      iput sb ip) s (fun _ t => Reclaimed sb s.disk t.disk (· = inum) ∧ SameTable s t ∧
        ∀ e, (t.inode e).ref = 0 → (t.inode e).locked = false) fun _ => False := by
  rw [wp_bind]
  refine (iget_spec ht hi ho).post fun ip t h => ?_
  obtain ⟨h0, rfl⟩ := h
  have hunl : (s.inode ip).locked = false := ht.unlocked ip h0
  simp only [wp_bind, ilock, iunlock, iput, wp_get, wp_set, wp_modify, inode_setInode_self,
    disk_setInode, setInode_setInode, hunl, ho.1, ho.2, if_false, if_true, wp_pure, and_self,
    Bool.false_eq_true, Bool.true_eq_false, false_or, show ¬ ((1 : ℤ) < 1) by omega]
  refine (onInode_spec
    (Q := fun _ fs => FsState.Truncated sb (diskFs sb s.disk) fs inum) ?_).post ?_
  · simp only [view, inode_setInode_self, disk_setInode, update_eq_self]
    exact itrunc_spec hsb hd.consistent.toOwned hi
  rintro - t ⟨fs, hfs, rfl⟩
  simp only [setInode_setInode, inode_setInode_self, setInode_mk]
  refine (onInode_spec (Q := fun _ u =>
    u.disk = sb.setDinode fs.disk inum { fs.ino inum with type := 0 }) ?_).post ?_
  · refine iupdate_spec ?_
    simp only [updated, view, inode_setInode_self, update_self]
  rintro - t ⟨u, hu, rfl⟩
  simp only [inode_setInode_self, setInode_mk]
  refine ⟨?_, .of_empty h0 rfl, fun e he => ?_⟩
  · rw [hu]
    exact hfs.reaped hsb hd hi
  · by_cases hp : e = ip
    · rw [hp, inode_setInode_self]
    · simp only [BootState.setInode, update_of_ne hp] at he ⊢
      exact ht.unlocked e he

/-- The orphans that the scan has passed. -/
def passed (sb : Superblock) (d : Disk) (n i : ℕ) : Prop := Orphan sb d i ∧ 1 ≤ i ∧ i < n

/-- What the scan has done below inode `n`. -/
structure Swept (sb : Superblock) (s t : BootState) (n : ℕ) : Prop where
  reaped : Reclaimed sb s.disk t.disk (passed sb s.disk n)
  table : SameTable s t
  unlocked : ∀ e, (t.inode e).ref = 0 → (t.inode e).locked = false

variable {t u : BootState}

section

variable (h : Swept sb s t n)
include h

lemma Swept.orphan_iff (hi : i < sb.ninodes) :
    Orphan sb t.disk i ↔ Orphan sb s.disk i ∧ ¬ passed sb s.disk n i := by
  by_cases hp : passed sb s.disk n i
  · have hfreed := h.reaped.freed i hi hp
    refine ⟨fun ho => ?_, fun ho => absurd hp ho.2⟩
    rw [Orphan, hfreed] at ho
    exact absurd rfl ho.1
  · rw [Orphan, h.reaped.kept i hi hp]
    exact ⟨fun ho => ⟨ho, hp⟩, fun ho => ho.1⟩

lemma Swept.tableOk (ht : s.TableOk sb dev) : t.TableOk sb dev := by
  refine ⟨?_, h.unlocked, fun e hpos hdev hi ho => ?_⟩
  · obtain ⟨e, he⟩ := ht.empty
    exact ⟨e, (h.table.ref e).trans he⟩
  · rw [h.table.ref e] at hpos
    rw [h.table.used e hpos.ne'] at hdev hi ho
    exact ht.busy e hpos hdev hi ((h.orphan_iff hi).mp ho).1

lemma Swept.step (hr : Reclaimed sb t.disk u.disk (· = n)) (hn : 1 ≤ n)
    (hlt : n < sb.ninodes) (ho : Orphan sb t.disk n) (htab : SameTable t u)
    (hunl : ∀ e, (u.inode e).ref = 0 → (u.inode e).locked = false) : Swept sb s u (n + 1) := by
  have hso := ((h.orphan_iff hlt).mp ho).1
  refine ⟨?_, h.table.trans htab, hunl⟩
  have htrans := h.reaped.trans hr fun i hp he => absurd hp.2.2 (by omega)
  have hiff : passed sb s.disk (n + 1) = fun i => passed sb s.disk n i ∨ i = n := by
    funext i
    refine propext ⟨fun ⟨h1, h2, h3⟩ => ?_, ?_⟩
    · by_cases he : i = n
      · exact .inr he
      · exact .inl ⟨h1, h2, by omega⟩
    · rintro (⟨h1, h2, h3⟩ | rfl)
      · exact ⟨h1, h2, by omega⟩
      · exact ⟨hso, hn, by omega⟩
  rw [hiff]
  exact htrans

lemma Swept.skip (hlt : n < sb.ninodes) (ho : ¬ Orphan sb t.disk n) : Swept sb s t (n + 1) := by
  refine ⟨?_, h.table, h.unlocked⟩
  have hiff : passed sb s.disk (n + 1) = passed sb s.disk n := by
    funext i
    refine propext ⟨fun ⟨h1, h2, h3⟩ => ⟨h1, h2, ?_⟩, fun ⟨h1, h2, h3⟩ => ⟨h1, h2, by omega⟩⟩
    by_contra hge
    obtain rfl : i = n := by omega
    exact ho ((h.orphan_iff hlt).mpr ⟨h1, fun hp => hge hp.2.2⟩)
  rw [hiff]
  exact h.reaped

end

lemma ireclaim_spec (hsb : sb.WF) (hd : DiskOk sb s.disk) (ht : s.TableOk sb dev) :
    wp (ireclaim sb dev) s (fun _ t => Swept sb s t sb.ninodes) fun _ => False := by
  have hnone : passed sb s.disk 1 = fun _ => False := by
    funext i
    refine propext ⟨?_, False.elim⟩
    rintro ⟨_, h1, h2⟩
    omega
  have h₀ : Swept sb s s 1 := ⟨by rw [hnone]; exact .refl hd, .refl, ht.unlocked⟩
  refine (wp_forRange (fun n t => Swept sb s t n) h₀ ?_).post fun _ t hS => ?_
  · intro n t hn hlt hS
    have hlt' : n < sb.ninodes := by omega
    simp only [wp_bind, wp_get]
    rw [wp_ite]
    refine ⟨fun ho => ?_, fun ho => wp_pure.mpr (hS.skip hlt' ho)⟩
    exact (reclaim_spec hsb hS.reaped.ok (hS.tableOk ht) hlt' ho).post fun _ u hu =>
      hS.step hu.1 hn hlt' ho hu.2.1 hu.2.2
  · -- with no inodes at all the bound of the loop is 1
    by_cases h0 : sb.ninodes = 0
    · have hreaped := hS.reaped
      have hiff : passed sb s.disk sb.ninodes = passed sb s.disk (1 + (sb.ninodes - 1)) := by
        funext i
        refine propext ⟨?_, ?_⟩ <;> rintro ⟨_, h2, h3⟩ <;> omega
      exact ⟨hiff ▸ hreaped, hS.table, hS.unlocked⟩
    · rwa [show 1 + (sb.ninodes - 1) = sb.ninodes by omega] at hS

/-- **Reclamation is exact.**  From every consistent disk with one bitmap block and any orphans,
`ireclaim` returns. Every orphan is free and so is every block it had; every other inode and its
content are the same; the free map marks the metadata and the blocks of the allocated inodes; only
the bitmap block and the blocks of the orphans' dinodes have been written; and the reference counts
are as before. -/
theorem ireclaim_exact (hsb : sb.WF) (hone : sb.size ≤ BPB) (hd : DiskOk sb s.disk)
    (ht : s.TableOk sb dev) : ∃ t, ireclaim sb dev s = .ok (⟨⟩, t) ∧ DiskOk sb t.disk ∧
      (∀ i, i < sb.ninodes → Orphan sb s.disk i → (sb.dinode t.disk i).type = 0 ∧
        ∀ k, (diskFs sb s.disk).slot sb (i, k) ≠ 0 →
          sb.bit t.disk ((diskFs sb s.disk).slot sb (i, k)) = false) ∧
      (∀ i, i < sb.ninodes → ¬ Orphan sb s.disk i → sb.dinode t.disk i = sb.dinode s.disk i ∧
        ∀ p, (diskFs sb t.disk).byte sb i p = (diskFs sb s.disk).byte sb i p) ∧
      (∀ b, b < sb.size → (sb.bit t.disk b = true ↔ b < sb.nmeta ∨
        ∃ i k, i < sb.ninodes ∧ (sb.dinode t.disk i).type ≠ 0 ∧
          (diskFs sb t.disk).slot sb (i, k) = b)) ∧
      (∀ b, b ≠ sb.bmapstart → (∀ i, i < sb.ninodes → Orphan sb s.disk i → b ≠ sb.iblock i) →
        t.disk b = s.disk b) ∧
      SameTable s t := by
  obtain ⟨⟨⟩, t, hrun, hS⟩ := (ireclaim_spec hsb hd ht).returns
  have hok := hS.reaped.ok
  have howned := hok.consistent.toOwned
  have hpassed : ∀ i, i < sb.ninodes → (passed sb s.disk sb.ninodes i ↔ Orphan sb s.disk i) := by
    intro i hi
    refine ⟨fun hp => hp.1, fun ho => ⟨ho, ?_, hi⟩⟩
    rcases Nat.eq_zero_or_pos i with rfl | hpos
    · exact absurd hd.zero ho.1
    · exact hpos
  have hslot : ∀ y, y.1 < sb.ninodes → ¬ Orphan sb s.disk y.1 →
      (diskFs sb t.disk).slot sb y = (diskFs sb s.disk).slot sb y := fun y hy ho =>
    hS.reaped.slot y fun hp => ho hp.1
  -- an inode that owns a block is allocated, so it is no orphan
  have htype : ∀ i k, i < sb.ninodes → (diskFs sb t.disk).slot sb (i, k) ≠ 0 →
      (sb.dinode t.disk i).type ≠ 0 := fun i k hi hne h0 =>
    hne (slot_of_noAddrs (hok.free i hi h0) k)
  have hfreed : ∀ i, i < sb.ninodes → Orphan sb s.disk i → (sb.dinode t.disk i).type = 0 :=
    fun i hi ho => by rw [hS.reaped.freed i hi ((hpassed i hi).mpr ho)]; rfl
  refine ⟨t, hrun, hok, fun i hi ho => ⟨hfreed i hi ho, fun k hne => ?_⟩, fun i hi ho =>
    ⟨hS.reaped.kept i hi fun hp => ho hp.1, fun p => ?_⟩, fun b hb => ⟨fun hbit => ?_, ?_⟩,
    fun b hb hne => ?_, hS.table⟩
  · rw [Bool.eq_false_iff]
    intro hbit
    obtain ⟨hlo, hhi⟩ := hd.consistent.toOwned.data hne
    obtain ⟨⟨i', k'⟩, hy⟩ := (howned.owns.used_iff _ hne).mp ⟨hlo, hhi, hbit⟩
    have hne' : (diskFs sb t.disk).slot sb (i', k') ≠ 0 := hy ▸ hne
    have hi' := (le_of_slot_ne hne').1
    have ho' : ¬ Orphan sb s.disk i' := fun ho' => htype i' k' hi' hne' (hfreed i' hi' ho')
    rw [hslot _ hi' ho'] at hy
    have := hd.consistent.owns.inj _ _ hne hy.symm
    rw [Prod.mk.injEq] at this
    exact ho' (this.1 ▸ ho)
  · rw [byte, byte, hslot (i, p / BSIZE) hi ho]
    split_ifs with hc
    · have hlo := (hd.consistent.toOwned.data hc.2).1
      refine congrFun (hS.reaped.disk _ (fun c hc' => ?_) fun j hj => ?_) _
      · have := bblock_lt hc'
        omega
      · have := iblock_lt hsb hj.2.2
        omega
    · rfl
  · by_cases hlo : b < sb.nmeta
    · exact .inl hlo
    · have hb0 : b ≠ 0 := by
        have : 0 < sb.nmeta := nmeta_pos
        omega
      obtain ⟨⟨i, k⟩, hy⟩ := (howned.owns.used_iff b hb0).mp ⟨not_lt.mp hlo, hb, hbit⟩
      have hne : (diskFs sb t.disk).slot sb (i, k) ≠ 0 := hy ▸ hb0
      have hi := (le_of_slot_ne hne).1
      exact .inr ⟨i, k, hi, htype i k hi hne, hy⟩
  · rintro (hlo | ⟨i, k, -, -, rfl⟩)
    · exact howned.metadata b hlo
    · by_cases h0 : (diskFs sb t.disk).slot sb (i, k) = 0
      · rw [h0]
        exact howned.metadata 0 nmeta_pos
      · exact (howned.owns.used_ref h0).2.2
  · refine hS.reaped.disk b (fun c hc => ?_) fun i hp => hne i hp.2.2 hp.1
    rwa [bblock, Nat.div_eq_of_lt (lt_of_lt_of_le hc hone), Nat.zero_add]

/-- A disk with an orphaned inode 1 that has one block. -/
def orphanDisk : Disk :=
  let sb := smallSb
  sb.setDinode (sb.setBit smallDisk 4 true) 1
    { Dinode.new 2 with size := 1, addrs := noAddrs.set 0 4 }

lemma orphanDisk_oneBlock : FsState.OneBlock 1 orphanDisk :=
  ⟨by decide +kernel, by decide +kernel, by decide +kernel, by decide⟩

lemma orphanDisk_ok : DiskOk smallSb orphanDisk := by
  refine ⟨orphanDisk_oneBlock.consistent, ?_, by decide +kernel⟩
  decide +kernel

/-- The orphan is freed, with its block. -/
theorem ireclaim_exact_sample : ∃ t, ireclaim smallSb 1
      ⟨orphanDisk, fun _ => ⟨0, 0, 0, false, false, .new 0⟩⟩ = .ok (⟨⟩, t) ∧
    Orphan smallSb orphanDisk 1 ∧ smallSb.bit orphanDisk 4 = true ∧
    (smallSb.dinode t.disk 1).type = 0 ∧ smallSb.bit t.disk 4 = false := by
  have horphan : Orphan smallSb orphanDisk 1 := by decide +kernel
  have htable : TableOk smallSb 1 ⟨orphanDisk, fun _ => ⟨0, 0, 0, false, false, .new 0⟩⟩ :=
    ⟨⟨0, rfl⟩, fun _ _ => rfl, fun _ he => absurd he (lt_irrefl (0 : ℤ))⟩
  obtain ⟨t, hrun, -, hfreed, -⟩ :=
    ireclaim_exact smallSb_wf (by decide) orphanDisk_ok htable
  obtain ⟨htype, hblocks⟩ := hfreed 1 (by decide) horphan
  have hslot : (diskFs smallSb orphanDisk).slot smallSb (1, 0) = 4 :=
    (orphanDisk_oneBlock.slot _).trans (if_pos rfl)
  refine ⟨t, hrun, horphan, by decide +kernel, htype, ?_⟩
  have := hblocks 0 (by rw [hslot]; decide)
  rwa [hslot] at this

end Boot

end Xv6
