import Xv6.File.FtableRefs
import Xv6.Fs.PathCalls

/-!
# The calls that take a path are balanced

The specification of each function of `PathCalls`, in terms of what the process holds. A function
that is called with a reference is specified at `r.get ip`, one that is called with a locked inode
at `(r.get ip).lock ip`; what it leaves is then built from `r`.
-/

namespace Xv6.PathCall

open Prog Held

variable {P : Type} [DecidableEq P] {w : World} {p : P} {s t : CallState P} {r : Held P}
  {ip dp : ℕ} {E : CallError → Prop}

/-- Why a call does not return: a panic was answered, an inode with an entry has no link, an entry
cannot be cleared, a directory contains itself under a name other than `.` and `..`, or the free
inode that was found is the directory it is for. -/
def Cause (w : World) : CallError → Prop
  | .panic e => (∃ (α : Type) (q : Ask α) (k : ℕ), w q k = .error e) ∨
      (e = .unlinkNlink ∧ ∃ ip k v, w (.fields ip) k = .ok v ∧ v.nlink < 1) ∨
      (e = .unlinkWritei ∧ ∃ dp off k, w (.clear dp off) k = .ok false)
  | .selfLock ip => (∃ name off k, w (.dirlookup ip name) k = .ok (some (ip, off)) ∧
        namecmp name dot ≠ 0 ∧ namecmp name dotdot ≠ 0) ∨
      ∃ type k, w (.ialloc ip type) k = .ok (some ip)
  | _ => False

/-! ## Inodes -/

lemma ask_spec {α : Type} (q : Ask α) : wp (ask w q) s
    (fun a t => t.held = s.held ∧ ∃ k, w q k = .ok a) (Cause w) := by
  cases hq : w q s.tick with
  | ok a =>
    have hrun : ask w q s = .ok (a, { s with tick := s.tick + 1 }) := by rw [ask, hq]
    exact wp_of_ok hrun ⟨rfl, s.tick, hq⟩
  | error e =>
    have hrun : ask w q s = .error (.panic e) := by rw [ask, hq]
    refine ⟨fun a t h => ?_, fun e' h => ?_⟩
    · rw [hrun] at h
      cases h
    · rw [hrun] at h
      cases h
      exact .inl ⟨α, q, s.tick, hq⟩

variable {Q : Unit → CallState P → Prop}

@[simp] lemma wp_onHeld {f : Held P → Held P} :
    wp (onHeld f) s Q E ↔ Q () { s with held := f s.held } := wp_modify

@[simp] lemma wp_setFields {f : Fields → Fields} :
    wp (setFields ip f) s Q E ↔ Q () { s with ino := Function.update s.ino ip (f (s.ino ip)) } :=
  wp_modify

@[simp] lemma wp_readFields {Q : Fields → CallState P → Prop} :
    wp (readFields ip) s Q E ↔ Q (s.ino ip) s := by
  rw [readFields, wp_bind, wp_get, wp_pure]

lemma iget_spec (inum : ℕ) : wp (iget w inum) s
    (fun ip t => ip = inum ∧ t.held = s.held.get inum) (Cause w) := by
  rw [iget]
  refine (ask_spec _).bind ?_
  rintro _ t ⟨ht, -⟩
  rw [wp_bind, wp_onHeld, wp_pure, ht]
  exact ⟨rfl, rfl⟩

lemma acquiresleep_spec (h : ip ∉ s.held.locks) : wp (acquiresleep ip) s
    (fun _ t => t.held = s.held.lock ip) E := by
  rw [acquiresleep, wp_bind, wp_get, if_neg h, wp_onHeld]

lemma ilock_spec (h : s.held = r.get ip) (hl : ip ∉ r.locks) : wp (ilock w ip) s
    (fun _ t => t.held = (r.get ip).lock ip ∧ ∃ k, w (.fields ip) k = .ok (t.ino ip))
    (Cause w) := by
  have href : ¬ s.held.refs ip < 1 := by
    rw [h, refs_get_self]
    omega
  rw [ilock, wp_bind, wp_get, if_neg href]
  refine (acquiresleep_spec (by rwa [h])).bind ?_
  intro _ t ht
  refine (ask_spec _).bind ?_
  rintro v u ⟨hu, hk⟩
  rw [wp_setFields]
  refine ⟨by rw [← h, ← ht, ← hu], ?_⟩
  simpa using hk

lemma ilock_self (h : s.held = r.get ip) (hl : ip ∈ r.locks)
    (hE : E (.selfLock ip)) : wp (ilock w ip) s Q E := by
  have href : ¬ s.held.refs ip < 1 := by
    rw [h, refs_get_self]
    omega
  have hmem : ip ∈ s.held.locks := by rwa [h]
  rw [ilock, wp_bind, wp_get, if_neg href, wp_bind, acquiresleep, wp_bind, wp_get, if_pos hmem,
    wp_throw]
  exact hE

lemma iunlock_spec (h : s.held = (r.get ip).lock ip) (hl : ip ∉ r.locks) : wp (iunlock ip) s
    (fun _ t => t.held = r.get ip) E := by
  have hok : ¬ (ip ∉ s.held.locks ∨ s.held.refs ip < 1) := by
    rw [h, refs_lock, refs_get_self, mem_locks_lock]
    simp
  rw [iunlock, wp_bind, wp_get, if_neg hok, wp_onHeld, h]
  exact unlock_lock hl

/-- A locked inode has another reference, so that `iput` does not wait for it. -/
lemma iput_spec (h : s.held = r.get ip) (hl : ip ∈ r.locks → 0 < r.refs ip) : wp (iput w ip) s
    (fun _ t => t.held = r) (Cause w) := by
  have href : ¬ s.held.refs ip < 1 := by
    rw [h, refs_get_self]
    omega
  rw [iput, wp_bind, wp_get, if_neg href]
  refine (ask_spec _).bind ?_
  rintro unused t ⟨ht, -⟩
  split_ifs with hlast
  · have hnot : ip ∉ t.held.locks := fun hmem => by
      rw [ht, h] at hmem
      have := hl hmem
      rw [h, refs_get_self] at hlast
      omega
    refine (acquiresleep_spec hnot).bind ?_
    intro _ u hu
    refine (ask_spec _).bind ?_
    rintro _ v ⟨hv, -⟩
    rw [wp_bind, wp_setFields]
    refine (ask_spec _).bind ?_
    rintro _ x ⟨hx, -⟩
    rw [wp_bind, wp_onHeld, wp_onHeld]
    rw [hx]
    rw [hv, hu, unlock_lock hnot, ht, h, put_get]
  · rw [wp_onHeld]
    rw [ht, h, put_get]

lemma iunlockput_spec (h : s.held = (r.get ip).lock ip) (hl : ip ∉ r.locks) :
    wp (iunlockput w ip) s (fun _ t => t.held = r) (Cause w) := by
  rw [iunlockput]
  refine (iunlock_spec h hl).bind ?_
  intro _ t ht
  exact iput_spec ht fun hmem => absurd hmem hl

/-! ## Directories -/

lemma dirlookup_spec (dp : ℕ) (name : List UInt8) : wp (dirlookup w dp name) s
    (fun x t => match x with
      | none => t.held = s.held
      | some (ip, off) => t.held = s.held.get ip ∧
          ∃ k, w (.dirlookup dp name) k = .ok (some (ip, off))) (Cause w) := by
  rw [dirlookup]
  refine (ask_spec _).bind ?_
  rintro (_ | ⟨inum, off⟩) t ⟨ht, hk⟩
  · exact wp_pure.mpr ht
  · simp only
    refine (iget_spec inum).bind ?_
    rintro ip u ⟨rfl, hu⟩
    exact wp_pure.mpr ⟨by rw [hu, ht], hk⟩

lemma dirlink_spec (dp : ℕ) (name : List UInt8) (inum : ℕ)
    (hl : ∀ i ∈ s.held.locks, 0 < s.held.refs i) :
    wp (dirlink w dp name inum) s (fun _ t => t.held = s.held) (Cause w) := by
  rw [dirlink]
  refine (dirlookup_spec dp name).bind ?_
  rintro (_ | ⟨ip, off⟩) t ht
  · refine (ask_spec _).post ?_
    rintro _ u ⟨hu, -⟩
    rw [hu]
    exact ht
  · simp only
    refine (iput_spec ht.1 (hl ip)).bind ?_
    intro _ u hu
    exact wp_pure.mpr hu

lemma ialloc_spec (dp : ℕ) (type : ℤ) : wp (ialloc w dp type) s (fun x t => match x with
      | none => t.held = s.held
      | some ip => t.held = s.held.get ip ∧ ∃ k, w (.ialloc dp type) k = .ok (some ip))
      (Cause w) := by
  rw [ialloc]
  refine (ask_spec _).bind ?_
  rintro (_ | inum) t ⟨ht, hk⟩
  · exact wp_pure.mpr ht
  · simp only
    refine (iget_spec inum).bind ?_
    rintro ip u ⟨rfl, hu⟩
    exact wp_pure.mpr ⟨by rw [hu, ht], hk⟩

/-- What `namex` leaves: one more reference, to the inode that it returns. -/
def Found {α : Type} (r : Held P) : Option (ℕ × α) → Held P
  | none => r
  | some (ip, _) => r.get ip

/-- By induction on the path; between two elements the process has a reference and no lock. -/
lemma namexLoop_spec (parent : Bool) (path name : List UInt8) (h : s.held = r.get ip)
    (hl : r.locks = ∅) :
    wp (namexLoop w parent path name ip) s (fun x t => t.held = Found r x) (Cause w) := by
  induction hn : path.length using Nat.strong_induction_on generalizing path name s ip with
  | _ n ih =>
  have hnot : ∀ i, i ∉ r.locks := fun i => by simp [hl]
  rw [namexLoop]
  split
  · split_ifs
    · refine (iput_spec h fun hmem => absurd hmem (hnot ip)).bind ?_
      intro _ t ht
      exact wp_pure.mpr ht
    · exact wp_pure.mpr h
  · next rest elem hskip =>
    refine (ilock_spec h (hnot ip)).bind ?_
    rintro _ t ⟨ht, -⟩
    rw [wp_bind, wp_readFields]
    split_ifs
    · refine (iunlockput_spec ht (hnot ip)).bind ?_
      intro _ u hu
      exact wp_pure.mpr hu
    · refine (iunlock_spec ht (hnot ip)).bind ?_
      intro _ u hu
      exact wp_pure.mpr hu
    · refine (dirlookup_spec ip elem).bind ?_
      rintro (_ | ⟨next, off⟩) u hu
      · simp only
        refine (iunlockput_spec (hu.trans ht) (hnot ip)).bind ?_
        intro _ v hv
        exact wp_pure.mpr hv
      · have hheld : u.held = ((r.get next).get ip).lock ip := by
          rw [hu.1, ht, get_lock, get_comm]
        simp only
        refine (iunlockput_spec hheld (hnot ip)).bind ?_
        intro _ v hv
        exact ih rest.length (hn ▸ skipelem_length hskip) rest elem hv rfl

lemma namex_spec (parent : Bool) (path : List UInt8) (hl : s.held.locks = ∅) :
    wp (namex w parent path) s (fun x t => t.held = Found s.held x) (Cause w) := by
  rw [namex]
  split_ifs
  · refine (iget_spec ROOTINO).bind ?_
    rintro ip t ⟨rfl, ht⟩
    exact namexLoop_spec parent path [] ht hl
  · rw [wp_bind, wp_get, wp_bind, idup, wp_bind, wp_onHeld, wp_pure]
    exact namexLoop_spec parent path [] rfl hl

lemma namei_spec (path : List UInt8) (hl : s.held.locks = ∅) :
    wp (namei w path) s (fun x t => match x with
      | none => t.held = s.held
      | some ip => t.held = s.held.get ip) (Cause w) := by
  rw [namei]
  refine (namex_spec false path hl).bind ?_
  rintro (_ | ⟨ip, name⟩) t ht
  · exact wp_pure.mpr ht
  · exact wp_pure.mpr ht

/-! ## `create` -/

section

variable (h : s.held = (((r.get dp).lock dp).get ip).lock ip) (hl : r.locks = ∅)
include h hl

lemma dirlink_locked (d : ℕ) (name : List UInt8) (inum : ℕ) :
    wp (dirlink w d name inum) s (fun _ t => t.held = s.held) (Cause w) := by
  refine dirlink_spec d name inum fun i hi => ?_
  rw [h] at hi ⊢
  simp only [get_lock, mem_locks_lock, locks_get, hl, Finset.notMem_empty,
    or_false] at hi
  simp only [get_lock, refs_lock]
  rcases hi with rfl | rfl
  · rw [refs_get_self]
    omega
  · have hle : (r.get i).refs i ≤ ((r.get i).get ip).refs i := refs_le_get
    rw [refs_get_self] at hle
    omega

lemma newDots_spec (type : ℤ) :
    wp (newDots w type ip dp) s (fun _ t => t.held = s.held) (Cause w) := by
  rw [newDots]
  split_ifs
  · refine (dirlink_locked h hl ip dot ip).bind ?_
    intro ok t ht
    split_ifs
    · refine (dirlink_locked (ht.trans h) hl ip dotdot dp).post ?_
      intro _ u hu
      exact hu.trans ht
    · exact wp_pure.mpr ht
  · exact wp_pure.mpr rfl

end

lemma unlock_order (hne : ip ≠ dp) (hl : r.locks = ∅) :
    (((r.get dp).lock dp).get ip).lock ip = (((r.get ip).lock ip).get dp).lock dp ∧
      ip ∉ ((r.get dp).lock dp).locks ∧ dp ∉ ((r.get ip).lock ip).locks ∧ ip ∉ r.locks ∧
        dp ∉ r.locks := by
  refine ⟨?_, ?_, ?_, by simp [hl], by simp [hl]⟩
  · rw [get_lock, get_lock, get_comm, lock_comm]
  · simp [hl, hne]
  · simp [hl, hne.symm]

lemma createFail_spec (h : s.held = (((r.get dp).lock dp).get ip).lock ip) (hne : ip ≠ dp)
    (hl : r.locks = ∅) : wp (createFail w dp ip) s (fun x t => x = none ∧ t.held = r)
    (Cause w) := by
  obtain ⟨-, hip, -, -, hdp⟩ := unlock_order hne hl
  rw [createFail, wp_bind, wp_setFields]
  refine (ask_spec _).bind ?_
  rintro _ t ⟨ht, -⟩
  refine (iunlockput_spec (ht.trans h) hip).bind ?_
  intro _ u hu
  refine (iunlockput_spec hu hdp).bind ?_
  intro _ v hv
  exact wp_pure.mpr ⟨rfl, hv⟩

/-- What `create` leaves: an inode with a reference and locked. -/
def Created (r : Held P) : Option ℕ → Held P
  | none => r
  | some ip => (r.get ip).lock ip

lemma createNew_spec (name : List UInt8) (type major minor : ℤ)
    (h : s.held = ((r.get dp).lock dp).get ip) (hne : ip ≠ dp) (hl : r.locks = ∅) :
    wp (createNew w dp name type major minor ip) s (fun x t => t.held = Created r x) (Cause w) := by
  obtain ⟨horder, hip, hdp, -, -⟩ := unlock_order hne hl
  have hfail : ∀ u : CallState P, u.held = (((r.get dp).lock dp).get ip).lock ip →
      wp (createFail w dp ip) u (fun x t => t.held = Created r x) (Cause w) := fun u hu => by
    refine (createFail_spec hu hne hl).post ?_
    rintro x v ⟨rfl, hv⟩
    exact hv
  have hdone : ∀ u : CallState P, u.held = (((r.get dp).lock dp).get ip).lock ip →
      wp (do iunlockput w dp; return some ip) u (fun x t => t.held = Created r x) (Cause w) :=
    fun u hu => by
      refine (iunlockput_spec (hu.trans horder) hdp).bind ?_
      intro _ v hv
      exact wp_pure.mpr hv
  rw [createNew]
  refine (ilock_spec h hip).bind ?_
  rintro _ t ⟨ht, -⟩
  rw [wp_bind, wp_setFields]
  refine (ask_spec _).bind ?_
  rintro _ u ⟨hu, -⟩
  refine (newDots_spec (hu.trans ht) hl type).bind ?_
  intro dots v hv
  have hheld := (hv.trans hu).trans ht
  refine wp_ite.mpr ⟨fun _ => ?_, fun _ => hfail v hheld⟩
  refine (dirlink_locked hheld hl dp name ip).bind ?_
  intro linked x hx
  refine wp_ite.mpr ⟨fun _ => ?_, fun _ => hfail x (hx.trans hheld)⟩
  refine wp_ite.mpr ⟨fun _ => ?_, fun _ => hdone x (hx.trans hheld)⟩
  rw [wp_bind, wp_setFields]
  refine (ask_spec _).bind ?_
  rintro _ y ⟨hy, -⟩
  exact hdone y ((hy.trans hx).trans hheld)

lemma create_spec (path : List UInt8) (type major minor : ℤ) (hl : s.held.locks = ∅) :
    wp (create w path type major minor) s (fun x t => t.held = Created s.held x) (Cause w) := by
  have hnot : ∀ i, i ∉ s.held.locks := fun i => by simp [hl]
  rw [create]
  refine (namex_spec true path hl).bind ?_
  rintro (_ | ⟨dp, name⟩) t ht
  · exact wp_pure.mpr ht
  simp only
  refine (ilock_spec ht (hnot dp)).bind ?_
  rintro _ u ⟨hu, -⟩
  refine (dirlookup_spec dp name).bind ?_
  rintro (_ | ⟨ip, off⟩) v hv
  · simp only
    refine (ialloc_spec dp type).bind ?_
    rintro (_ | ip) x hx
    · simp only
      refine (iunlockput_spec ((hx.trans hv).trans hu) (hnot dp)).bind ?_
      intro _ y hy
      exact wp_pure.mpr hy
    · obtain ⟨hx, k, hk⟩ := hx
      have hheld : x.held = ((s.held.get dp).lock dp).get ip := by rw [hx, hv, hu]
      simp only
      by_cases hne : ip = dp
      · -- the new inode is the directory, and the process waits for itself
        subst hne
        rw [createNew, wp_bind]
        exact ilock_self hheld (by simp) (.inr ⟨type, k, hk⟩)
      · exact createNew_spec name type major minor hheld hne hl
  · obtain ⟨hv, -⟩ := hv
    have hheld : v.held = ((s.held.get ip).get dp).lock dp := by
      rw [hv, hu, get_lock, get_comm]
    simp only
    refine (iunlockput_spec hheld (hnot dp)).bind ?_
    intro _ x hx
    refine (ilock_spec hx (hnot ip)).bind ?_
    rintro _ y ⟨hy, -⟩
    rw [wp_bind, wp_readFields]
    split_ifs
    · exact wp_pure.mpr hy
    · refine (iunlockput_spec hy (hnot ip)).bind ?_
      intro _ z hz
      exact wp_pure.mpr hz

/-! ## The calls -/

lemma fail_spec (h : s.held = (r.get ip).lock ip) (hl : r.locks = ∅) :
    wp (fail w ip) s (fun v t => v = -1 ∧ t.held = r.endOp) (Cause w) := by
  rw [fail]
  refine (iunlockput_spec h (by simp [hl])).bind ?_
  intro _ t ht
  rw [wp_bind, endOp, wp_onHeld, wp_pure, ht]
  exact ⟨rfl, rfl⟩

lemma onFiles_spec {α : Type} {m : FileSys.FileProg P α} {Q : α → FileSys P → Prop}
    (h : wp m s.held.files Q fun _ => False) : wp (onFiles m) s
      (fun a t => ∃ fs, Q a fs ∧ t = { s with held := { s.held with files := fs } }) E := by
  obtain ⟨a, fs, hrun, hQ⟩ := h.returns
  refine wp_of_ok ?_ ⟨fs, hQ, rfl⟩
  rw [onFiles, hrun]

/-- A file that has just been allocated has no inode: closing it undoes `filealloc`. -/
lemma fileclose_new {fs : FileSys P} {f : FileId} (hfree : (fs.file f).ref = 0)
    (htype : (fs.file f).type = .none)
    (h : s.held = { r with files := fs.setFile f { fs.file f with ref := 1 } }) :
    wp (fileclose w f) s (fun _ t => t.held = { r with files := fs }) E := by
  have hnew : s.held.files.file f = { fs.file f with ref := 1 } := by
    rw [h]
    exact Function.update_self ..
  have hold : { fs.file f with ref := 0, type := .none } = fs.file f := by
    rw [← hfree, ← htype]
  have hclose : wp (FileSys.fileclose f) s.held.files (fun _ fs' => fs' = fs) fun _ => False := by
    rw [FileSys.fileclose, wp_bind, wp_get, hnew]
    simp only [lt_self_iff_false, if_false, sub_self]
    rw [wp_bind, wp_set, htype, if_neg (by decide), wp_pure, h]
    simp only [FileSys.setFile, Function.update_idem]
    rw [hold, Function.update_eq_self]
  rw [fileclose, wp_bind, wp_get, hnew]
  refine (onFiles_spec hclose).bind ?_
  rintro _ t ⟨fs', hfs, rfl⟩
  have hno : ¬ ((1 : ℤ) ≤ 1 ∧ ((fs.file f).type = .inode ∨ (fs.file f).type = .device)) := by
    simp [htype]
  simp only
  rw [if_neg hno, wp_pure, hfs, h]

/-- What `sys_open` leaves: everything as it was, or a new file with a reference to an inode. -/
def Opened (p : P) (r : Held P) (v : ℤ) (r' : Held P) : Prop :=
  (v = -1 ∧ r' = r) ∨ ∃ (f : FileId) (fd : ℕ) (fs : FileSys P), v = fd ∧ fd < NOFILE ∧
    r.files.ofile p fd = none ∧ fs.ofile p fd = some f ∧ (r.files.file f).ref = 0 ∧
    ((fs.file f).type = .inode ∨ (fs.file f).type = .device) ∧
    r' = { r.get (fs.file f).ip with files := fs }

/-- `f` is set up for a locked inode. -/
def NewFile (p : P) (r : Held P) (ip : ℕ) (f : FileId) (fd : ℕ) (r' : Held P) : Prop :=
  ∃ fs, r' = { (r.get ip).lock ip with files := fs } ∧ fs.ofile p fd = some f ∧
    ((fs.file f).type = .inode ∨ (fs.file f).type = .device) ∧ (fs.file f).ip = ip

lemma openDone_spec {f : FileId} {fd : ℕ} (h : NewFile p r ip f fd s.held) (hl : r.locks = ∅)
    (hfd : fd < NOFILE) (hnone : r.files.ofile p fd = none) (href : (r.files.file f).ref = 0) :
    wp (do iunlock ip; endOp; return (fd : ℤ)) s (fun v t => Opened p r.endOp v t.held) E := by
  obtain ⟨fs, hheld, hof, htype, hip⟩ := h
  have hshape : s.held = (({ r with files := fs } : Held P).get ip).lock ip := hheld
  refine (iunlock_spec hshape (by simp [hl])).bind ?_
  intro _ t ht
  rw [wp_bind, endOp, wp_onHeld, wp_pure, ht]
  exact .inr ⟨f, fd, fs, rfl, hfd, hnone, hof, href, htype, by rw [hip]; rfl⟩

lemma openInode_spec (omode : ℕ) (h : s.held = (r.get ip).lock ip) (hl : r.locks = ∅)
    (hfree : ∀ f, (r.files.file f).ref = 0 → (r.files.file f).type = .none) :
    wp (openInode w p omode ip) s (fun v t => Opened p r.endOp v t.held) (Cause w) := by
  have hfail : ∀ u : CallState P, u.held = (r.get ip).lock ip →
      wp (fail w ip) u (fun v t => Opened p r.endOp v t.held) (Cause w) := fun u hu => by
    refine (fail_spec hu hl).post ?_
    intro v t ht
    exact .inl ht
  rw [openInode, wp_bind, wp_readFields]
  refine wp_ite.mpr ⟨fun _ => hfail s h, fun _ => ?_⟩
  refine (onFiles_spec FileSys.filealloc_cases).bind ?_
  rintro (_ | f) t ⟨fs, hfs, rfl⟩
  · simp only at hfs
    subst hfs
    exact hfail _ h
  obtain ⟨href, rfl⟩ := hfs
  have hfiles : s.held.files = r.files := by rw [h]; rfl
  rw [hfiles] at href
  simp only
  refine (onFiles_spec FileSys.fdalloc_cases).bind ?_
  rintro (_ | fd) u ⟨fs, hfs, rfl⟩
  · simp only at hfs
    subst hfs
    simp only
    refine (fileclose_new (r := (r.get ip).lock ip) href (hfree f href) (by rw [h]; rfl)).bind ?_
    intro _ v hv
    exact hfail v hv
  obtain ⟨hfd, hnone, rfl⟩ := hfs
  rw [h] at hnone
  have hnew : ∀ e : FileEnt, (e.type = .inode ∨ e.type = .device) → e.ip = ip →
      NewFile p r ip f fd { s.held with files := ((s.held.files.setFile f
        { s.held.files.file f with ref := 1 }).setOfile p fd (some f)).setFile f e } :=
    fun e htype hip => by
      refine ⟨_, by rw [h], ?_, ?_, ?_⟩
      · simp [FileSys.setFile, FileSys.setOfile]
      · simpa [FileSys.setFile] using htype
      · simpa [FileSys.setFile] using hip
  have htype : (if (s.ino ip).type = T_DEVICE then FdType.device else .inode) = .inode ∨
      (if (s.ino ip).type = T_DEVICE then FdType.device else .inode) = .device := by
    split_ifs
    · exact .inr rfl
    · exact .inl rfl
  simp only
  rw [wp_bind, wp_onHeld]
  refine wp_ite.mpr ⟨fun _ => ?_, fun _ => openDone_spec (hnew _ htype rfl) hl hfd hnone href⟩
  refine (ask_spec _).bind ?_
  rintro _ t ⟨ht, -⟩
  exact openDone_spec (ht ▸ hnew _ htype rfl) hl hfd hnone href

/-- Before a call: no inode is locked, the working directory has its reference, and a file without
references has no type, which `Ftable` shows of all reachable tables. -/
structure Ready (r : Held P) : Prop where
  locks : r.locks = ∅
  cwd : 0 < r.refs r.cwd
  free : ∀ f, (r.files.file f).ref = 0 → (r.files.file f).type = .none

lemma Ready.unlocked (h : Ready r) (i : ℕ) : i ∉ r.beginOp.locks := by
  show i ∉ r.locks
  simp [h.locks]

lemma end_spec {v : ℤ} {Q : ℤ → CallState P → Prop} (h : Q v { s with held := s.held.endOp }) :
    wp (do endOp; return v) s Q E := by
  rw [wp_bind, endOp, wp_onHeld, wp_pure]
  exact h

lemma sysOpen_spec (h : Ready s.held) : wp (sysOpen w p) s
    (fun v t => (v = -1 ∧ t.held = s.held) ∨ Opened p s.held.beginOp.endOp v t.held) (Cause w) := by
  rw [sysOpen]
  refine (ask_spec _).bind ?_
  rintro omode t ⟨ht, -⟩
  refine (ask_spec _).bind ?_
  rintro (_ | path) u ⟨hu, -⟩
  · exact wp_pure.mpr (.inl ⟨rfl, hu.trans ht⟩)
  have hfail : ∀ x : CallState P, x.held = s.held.beginOp → wp (do endOp; return -1) x
      (fun v t => (v = -1 ∧ t.held = s.held) ∨ Opened p s.held.beginOp.endOp v t.held) (Cause w) :=
    fun x hx => end_spec (.inr (.inl ⟨rfl, by rw [hx]⟩))
  have hopen : ∀ (x : CallState P) ip, x.held = (s.held.beginOp.get ip).lock ip →
      wp (openInode w p omode ip) x
        (fun v t => (v = -1 ∧ t.held = s.held) ∨ Opened p s.held.beginOp.endOp v t.held)
        (Cause w) :=
    fun x ip hx => (openInode_spec omode hx h.locks h.free).post fun v t ht => .inr ht
  simp only
  rw [wp_bind, beginOp, wp_onHeld, hu, ht]
  refine wp_ite.mpr ⟨fun _ => ?_, fun _ => ?_⟩
  · refine (create_spec path T_FILE 0 0 (by exact h.locks)).bind ?_
    rintro (_ | ip) x hx
    · exact hfail x hx
    · exact hopen x ip hx
  · refine (namei_spec path (by exact h.locks)).bind ?_
    rintro (_ | ip) x hx
    · exact hfail x hx
    simp only
    rw [wp_bind]
    have hnot : ip ∉ s.held.beginOp.locks := by
      show ip ∉ s.held.locks
      simp [h.locks]
    refine (ilock_spec hx hnot).post ?_
    rintro _ y ⟨hy, -⟩
    rw [wp_bind, wp_readFields]
    refine wp_ite.mpr ⟨fun _ => ?_, fun _ => hopen y ip hy⟩
    refine (fail_spec hy h.locks).post ?_
    intro v z hz
    exact .inr (.inl hz)

/-! A call that leaves nothing is specified inside its transaction: it gets `r` and leaves
`r.endOp`. -/

lemma linkEntry_spec (dp : ℕ) (name : List UInt8) (ip : ℕ)
    (hl : ∀ i ∈ s.held.locks, 0 < s.held.refs i) :
    wp (linkEntry w dp name ip) s (fun _ t => t.held = s.held) (Cause w) := by
  rw [linkEntry]
  refine (ask_spec _).bind ?_
  rintro other t ⟨ht, -⟩
  refine wp_ite.mpr ⟨fun _ => wp_pure.mpr ht, fun _ => ?_⟩
  refine (dirlink_spec dp name ip (by rwa [ht])).post ?_
  intro _ u hu
  exact hu.trans ht

lemma linkBad_spec (h : s.held = r.get ip) (hl : r.locks = ∅) :
    wp (linkBad w ip) s (fun _ t => t.held = r.endOp) (Cause w) := by
  rw [linkBad]
  refine (ilock_spec h (by simp [hl])).bind ?_
  rintro _ t ⟨ht, -⟩
  rw [wp_bind, wp_setFields]
  refine (ask_spec _).bind ?_
  rintro _ u ⟨hu, -⟩
  refine (fail_spec (hu.trans ht) hl).post ?_
  rintro _ v ⟨-, hv⟩
  exact hv

lemma sysLink_spec (h : Ready s.held) : wp (sysLink w) s
    (fun _ t => t.held = s.held ∨ t.held = s.held.beginOp.endOp) (Cause w) := by
  have hnot := h.unlocked
  have hbad : ∀ (x : CallState P) ip, x.held = s.held.beginOp.get ip → wp (linkBad w ip) x
      (fun _ t => t.held = s.held ∨ t.held = s.held.beginOp.endOp) (Cause w) := fun x ip hx =>
    (linkBad_spec hx h.locks).post fun _ t ht => .inr ht
  rw [sysLink]
  refine (ask_spec _).bind ?_
  rintro (_ | old) t ⟨ht, -⟩
  · exact wp_pure.mpr (.inl ht)
  simp only
  refine (ask_spec _).bind ?_
  rintro (_ | new) u ⟨hu, -⟩
  · exact wp_pure.mpr (.inl (hu.trans ht))
  simp only
  rw [wp_bind, beginOp, wp_onHeld, hu, ht]
  refine (namei_spec old (by exact h.locks)).bind ?_
  rintro (_ | ip) x hx
  · exact end_spec (.inr (by rw [hx]))
  simp only
  refine (ilock_spec hx (hnot ip)).bind ?_
  rintro _ y ⟨hy, -⟩
  rw [wp_bind, wp_readFields]
  refine wp_ite.mpr ⟨fun _ => (fail_spec hy h.locks).post fun _ t ht => .inr ht.2, fun _ => ?_⟩
  rw [wp_bind, wp_setFields]
  refine (ask_spec _).bind ?_
  rintro _ z ⟨hz, -⟩
  refine (iunlock_spec (hz.trans hy) (hnot ip)).bind ?_
  intro _ a ha
  have hlocks : a.held.locks = ∅ := by
    rw [ha]
    exact h.locks
  refine (namex_spec true new hlocks).bind ?_
  rintro (_ | ⟨dp, name⟩) b hb
  · exact hbad b ip (hb.trans ha)
  have hb' : b.held = (s.held.beginOp.get ip).get dp := by
    rw [hb, ha]
    rfl
  simp only
  refine (ilock_spec hb' (hnot dp)).bind ?_
  rintro _ c ⟨hc, -⟩
  have hpos : ∀ i ∈ c.held.locks, 0 < c.held.refs i := fun i hi => by
    rw [hc] at hi ⊢
    obtain rfl : i = dp := by simpa [hnot] using hi
    rw [refs_lock, refs_get_self]
    omega
  refine (linkEntry_spec dp name ip hpos).bind ?_
  intro linked d hd
  refine wp_ite.mpr ⟨fun _ => ?_, fun _ => ?_⟩
  · refine (iunlockput_spec (hd.trans hc) (hnot dp)).bind ?_
    intro _ e he
    refine (iput_spec he fun hmem => absurd hmem (hnot ip)).bind ?_
    intro _ f hf
    exact end_spec (.inr (by rw [hf]))
  · refine (iunlockput_spec (hd.trans hc) (hnot dp)).bind ?_
    intro _ e he
    exact hbad e ip he

lemma unlinkEntry_spec (off : ℕ) (type : ℤ) (h : s.held = (((r.get dp).lock dp).get ip).lock ip)
    (hne : ip ≠ dp) (hl : r.locks = ∅) :
    wp (unlinkEntry w dp ip off type) s (fun _ t => t.held = r.endOp) (Cause w) := by
  obtain ⟨horder, -, hdp, hip, -⟩ := unlock_order hne hl
  have hlast : ∀ u : CallState P, u.held = (((r.get dp).lock dp).get ip).lock ip → wp (do
        iunlockput w dp
        setFields ip fun v => { v with nlink := toShort (v.nlink - 1) }
        let _ ← ask w (.iupdate ip)
        iunlockput w ip
        endOp
        return (0 : ℤ)) u (fun _ t => t.held = r.endOp) (Cause w) := fun u hu => by
    refine (iunlockput_spec (hu.trans horder) hdp).bind ?_
    intro _ x hx
    rw [wp_bind, wp_setFields]
    refine (ask_spec _).bind ?_
    rintro _ y ⟨hy, -⟩
    refine (iunlockput_spec (hy.trans hx) hip).bind ?_
    intro _ z hz
    exact end_spec (by rw [hz])
  rw [unlinkEntry]
  refine (ask_spec _).bind ?_
  rintro ok t ⟨ht, k, hk⟩
  refine wp_ite.mpr ⟨fun _ => ?_, fun hok => ?_⟩
  · refine wp_ite.mpr ⟨fun _ => ?_, fun _ => hlast t (ht.trans h)⟩
    rw [wp_bind, wp_setFields]
    refine (ask_spec _).bind ?_
    rintro _ u ⟨hu, -⟩
    exact hlast u ((hu.trans ht).trans h)
  · rw [Bool.not_eq_true] at hok
    exact wp_throw.mpr (.inr (.inr ⟨rfl, dp, off, k, hok ▸ hk⟩))

lemma sysUnlink_spec (h : Ready s.held) : wp (sysUnlink w) s
    (fun _ t => t.held = s.held ∨ t.held = s.held.beginOp.endOp) (Cause w) := by
  have hnot := h.unlocked
  have hfail : ∀ (x : CallState P) dp, x.held = (s.held.beginOp.get dp).lock dp → wp (fail w dp) x
      (fun _ t => t.held = s.held ∨ t.held = s.held.beginOp.endOp) (Cause w) := fun x dp hx =>
    (fail_spec hx h.locks).post fun _ t ht => .inr ht.2
  rw [sysUnlink]
  refine (ask_spec _).bind ?_
  rintro (_ | path) t ⟨ht, -⟩
  · exact wp_pure.mpr (.inl ht)
  simp only
  rw [wp_bind, beginOp, wp_onHeld, ht]
  refine (namex_spec true path (by exact h.locks)).bind ?_
  rintro (_ | ⟨dp, name⟩) u hu
  · exact end_spec (.inr (by rw [hu]; rfl))
  simp only
  refine (ilock_spec hu (hnot dp)).bind ?_
  rintro _ x ⟨hx, -⟩
  refine wp_ite.mpr ⟨fun _ => hfail x dp hx, fun hdots => ?_⟩
  rw [not_or] at hdots
  refine (dirlookup_spec dp name).bind ?_
  rintro (_ | ⟨ip, off⟩) y hy
  · exact hfail y dp (hy.trans hx)
  obtain ⟨hy, k, hk⟩ := hy
  have hheld : y.held = ((s.held.beginOp.get dp).lock dp).get ip := by rw [hy, hx]
  simp only
  rw [wp_bind]
  by_cases hne : ip = dp
  · -- the entry is for the directory itself, which is locked
    subst hne
    exact ilock_self hheld (by simp) (.inl ⟨name, off, k, hk, hdots⟩)
  obtain ⟨-, hip, -, -, -⟩ := unlock_order hne h.locks
  refine (ilock_spec hheld hip).post ?_
  rintro _ z ⟨hz, k', hk'⟩
  have hentry : ∀ x : CallState P, x.held = z.held → wp (unlinkEntry w dp ip off (z.ino ip).type) x
      (fun _ t => t.held = s.held ∨ t.held = s.held.beginOp.endOp) (Cause w) := fun x hx' =>
    (unlinkEntry_spec off _ (hx'.trans hz) hne h.locks).post fun _ t ht => .inr ht
  rw [wp_bind, wp_readFields]
  refine wp_ite.mpr ⟨fun hlink => ?_, fun _ => wp_ite.mpr ⟨fun _ => ?_, fun _ => hentry z rfl⟩⟩
  · exact wp_throw.mpr (.inr (.inl ⟨rfl, ip, k', _, hk', hlink⟩))
  · refine (ask_spec _).bind ?_
    rintro empty a ⟨ha, -⟩
    refine wp_ite.mpr ⟨fun _ => hentry a ha, fun _ => ?_⟩
    refine (iunlockput_spec (ha.trans hz) hip).bind ?_
    intro _ b hb
    exact hfail b dp hb

lemma make_spec (path : Option (List UInt8)) (type major minor : ℤ) (hl : s.held.locks = ∅) :
    wp (make w path type major minor) s (fun _ t => t.held = s.held.endOp) (Cause w) := by
  cases path with
  | none => exact end_spec rfl
  | some path =>
    refine (create_spec path type major minor hl).bind ?_
    rintro (_ | ip) t ht
    · exact end_spec (by rw [ht]; rfl)
    · simp only
      refine (iunlockput_spec ht (by simp [hl])).bind ?_
      intro _ u hu
      exact end_spec (by rw [hu])

lemma sysMkdir_spec (h : Ready s.held) : wp (sysMkdir w) s
    (fun _ t => t.held = s.held.beginOp.endOp) (Cause w) := by
  rw [sysMkdir, wp_bind, beginOp, wp_onHeld]
  refine (ask_spec _).bind ?_
  rintro path t ⟨ht, -⟩
  refine (make_spec path T_DIR 0 0 (by rw [ht]; exact h.locks)).post ?_
  intro _ u hu
  rw [hu, ht]

lemma sysMknod_spec (h : Ready s.held) : wp (sysMknod w) s
    (fun _ t => t.held = s.held.beginOp.endOp) (Cause w) := by
  rw [sysMknod, wp_bind, beginOp, wp_onHeld]
  refine (ask_spec _).bind ?_
  rintro major t ⟨ht, -⟩
  refine (ask_spec _).bind ?_
  rintro minor u ⟨hu, -⟩
  refine (ask_spec _).bind ?_
  rintro path x ⟨hx, -⟩
  have hheld := (hx.trans hu).trans ht
  refine (make_spec path T_DEVICE _ _ (by rw [hheld]; exact h.locks)).post ?_
  intro _ y hy
  rw [hy, hheld]

/-- What `sys_chdir` leaves. -/
def Moved (r : Held P) (v : ℤ) (r' : Held P) : Prop :=
  (v = -1 ∧ r' = r) ∨ (v = 0 ∧ ∃ ip, r' = { (r.get ip).put r.cwd with cwd := ip })

lemma sysChdir_spec (h : Ready s.held) : wp (sysChdir w) s
    (fun v t => Moved s.held.beginOp.endOp v t.held) (Cause w) := by
  have hnot := h.unlocked
  rw [sysChdir, wp_bind, beginOp, wp_onHeld]
  refine (ask_spec _).bind ?_
  rintro (_ | path) t ⟨ht, -⟩
  · exact end_spec (.inl ⟨rfl, by rw [ht]⟩)
  simp only
  refine (namei_spec path (by rw [ht]; exact h.locks)).bind ?_
  rw [ht]
  rintro (_ | ip) u hu
  · exact end_spec (.inl ⟨rfl, by rw [hu]⟩)
  simp only
  refine (ilock_spec hu (hnot ip)).bind ?_
  rintro _ x ⟨hx, -⟩
  rw [wp_bind, wp_readFields]
  refine wp_ite.mpr ⟨fun _ => (fail_spec hx h.locks).post fun _ t ht => .inl ht, fun _ => ?_⟩
  refine (iunlock_spec hx (hnot ip)).bind ?_
  intro _ y hy
  -- the reference of the old directory is there
  have hcwd : y.held = ((s.held.beginOp.get ip).put s.held.cwd).get s.held.cwd := by
    rw [hy, get_put]
    exact h.cwd.trans_le refs_le_get
  rw [wp_bind, wp_get, wp_bind, show y.held.cwd = s.held.cwd by rw [hy]; rfl]
  refine (iput_spec hcwd fun hmem => absurd hmem (hnot _)).post ?_
  intro _ z hz
  rw [wp_bind, endOp, wp_onHeld, wp_bind, wp_onHeld, wp_pure, hz]
  exact .inr ⟨rfl, ip, rfl⟩

lemma loadSegments_spec (ip i n : ℕ) : wp (loadSegments w ip i n) s
    (fun _ t => t.held = s.held) (Cause w) := by
  induction n generalizing i s with
  | zero => exact wp_pure.mpr rfl
  | succ n ih =>
    rw [loadSegments]
    refine (ask_spec _).bind ?_
    rintro (_ | _ | _) t ⟨ht, -⟩
    · refine (ih (i + 1)).post ?_
      intro _ u hu
      exact hu.trans ht
    · refine (ih (i + 1)).post ?_
      intro _ u hu
      exact hu.trans ht
    · exact wp_pure.mpr ht

lemma kexec_spec (path : List UInt8) (h : Ready s.held) : wp (kexec w path) s
    (fun _ t => t.held = s.held.beginOp.endOp) (Cause w) := by
  have hnot := h.unlocked
  have hbad : ∀ (x : CallState P) ip, x.held = (s.held.beginOp.get ip).lock ip →
      wp (execBad w (some ip)) x (fun _ t => t.held = s.held.beginOp.endOp) (Cause w) :=
      fun x ip hx =>
    (fail_spec hx h.locks).post fun _ t ht => ht.2
  rw [kexec, wp_bind, beginOp, wp_onHeld]
  refine (namei_spec path (by exact h.locks)).bind ?_
  rintro (_ | ip) t ht
  · exact end_spec (by rw [ht])
  simp only
  refine (ilock_spec ht (hnot ip)).bind ?_
  rintro _ u ⟨hu, -⟩
  refine (ask_spec _).bind ?_
  rintro (_ | phnum) x ⟨hx, -⟩
  · exact hbad x ip (hx.trans hu)
  simp only
  refine (loadSegments_spec ip 0 phnum).bind ?_
  intro ok y hy
  have hheld := (hy.trans hx).trans hu
  refine wp_ite.mpr ⟨fun _ => ?_, fun _ => hbad y ip hheld⟩
  refine (iunlockput_spec hheld (hnot ip)).bind ?_
  intro _ z hz
  rw [wp_bind, endOp, wp_onHeld, wp_bind, hz]
  refine (ask_spec _).post ?_
  rintro (_ | argc) a ⟨ha, -⟩
  · exact wp_pure.mpr ha
  · exact wp_pure.mpr ha

/-! ## All calls -/

/-- What a call may leave in the references: one for a new file, or one that has moved with the
working directory. -/
def References (p : P) (r : Held P) (v : ℤ) (r' : Held P) : FsCall → Prop
  | .open => r'.cwd = r.cwd ∧ ((v = -1 ∧ r'.refs = r.refs ∧ r'.files = r.files) ∨
      ∃ (f : FileId) (fd : ℕ), v = fd ∧ fd < NOFILE ∧ r.files.ofile p fd = none ∧
        r'.files.ofile p fd = some f ∧ (r.files.file f).ref = 0 ∧
        ((r'.files.file f).type = .inode ∨ (r'.files.file f).type = .device) ∧
        r'.refs = r.refs + Pi.single (r'.files.file f).ip 1)
  | .chdir => r'.files = r.files ∧ ((v = -1 ∧ r'.refs = r.refs ∧ r'.cwd = r.cwd) ∨
      (v = 0 ∧ r'.refs + Pi.single r.cwd 1 = r.refs + Pi.single r'.cwd 1))
  | _ => r'.refs = r.refs ∧ r'.cwd = r.cwd ∧ r'.files = r.files

/-- What a call leaves. -/
structure Balanced (p : P) (c : FsCall) (r : Held P) (v : ℤ) (r' : Held P) : Prop where
  ops : ∃ k, r'.begun = r.begun + k ∧ r'.ended = r.ended + k
  locks : r'.locks = r.locks
  refs : References p r v r' c

/-- **The calls that take a path are balanced.**  Whatever the world answers: `namex` returns with
one reference more to the inode that it has found, and with none more when it finds nothing. Each
call returns with as many transactions ended as begun, without locks, and with the references that
it had, apart from that of a new file and that of the working directory. If a function does not
return, the cause is an answer. -/
theorem calls_are_balanced (w : World) (p : P) {s : CallState P} (h : Ready s.held) :
    (∀ nameiparent path, wp (namex w nameiparent path) s (fun x t => t.held = match x with
      | none => s.held
      | some (ip, _) => { s.held with refs := s.held.refs + Pi.single ip 1 }) (Cause w)) ∧
    ∀ c, wp (call w p c) s (fun v t => Balanced p c s.held v t.held) (Cause w) := by
  refine ⟨fun parent path => ?_, fun c => ?_⟩
  · refine (namex_spec parent path h.locks).post ?_
    rintro (_ | ⟨ip, name⟩) t ht
    · exact ht
    · exact ht
  cases c with
  | «open» =>
    refine (sysOpen_spec h).post ?_
    rintro v t (⟨rfl, ht⟩ | ⟨rfl, ht⟩ | ⟨f, fd, fs, rfl, hfd, hnone, hof, href, htype, ht⟩)
    · rw [ht]
      exact ⟨⟨0, rfl, rfl⟩, rfl, rfl, .inl ⟨rfl, rfl, rfl⟩⟩
    · rw [ht]
      exact ⟨⟨1, rfl, rfl⟩, rfl, rfl, .inl ⟨rfl, rfl, rfl⟩⟩
    · rw [ht]
      exact ⟨⟨1, rfl, rfl⟩, rfl, rfl, .inr ⟨f, fd, rfl, hfd, hnone, hof, href, htype, rfl⟩⟩
  | link =>
    refine (sysLink_spec h).post ?_
    rintro v t (ht | ht)
    · rw [ht]
      exact ⟨⟨0, rfl, rfl⟩, rfl, rfl, rfl, rfl⟩
    · rw [ht]
      exact ⟨⟨1, rfl, rfl⟩, rfl, rfl, rfl, rfl⟩
  | unlink =>
    refine (sysUnlink_spec h).post ?_
    rintro v t (ht | ht)
    · rw [ht]
      exact ⟨⟨0, rfl, rfl⟩, rfl, rfl, rfl, rfl⟩
    · rw [ht]
      exact ⟨⟨1, rfl, rfl⟩, rfl, rfl, rfl, rfl⟩
  | mkdir =>
    refine (sysMkdir_spec h).post ?_
    intro v t ht
    rw [ht]
    exact ⟨⟨1, rfl, rfl⟩, rfl, rfl, rfl, rfl⟩
  | mknod =>
    refine (sysMknod_spec h).post ?_
    intro v t ht
    rw [ht]
    exact ⟨⟨1, rfl, rfl⟩, rfl, rfl, rfl, rfl⟩
  | chdir =>
    refine (sysChdir_spec h).post ?_
    rintro v t (⟨rfl, ht⟩ | ⟨rfl, ip, ht⟩)
    · rw [ht]
      exact ⟨⟨1, rfl, rfl⟩, rfl, rfl, .inl ⟨rfl, rfl, rfl⟩⟩
    · have hmove : ((s.held.get ip).put s.held.cwd).refs + Pi.single s.held.cwd 1 =
          (s.held.get ip).refs :=
        congrArg refs (get_put (h.cwd.trans_le refs_le_get))
      rw [ht]
      exact ⟨⟨1, rfl, rfl⟩, rfl, rfl, .inr ⟨rfl, hmove⟩⟩
  | exec path =>
    refine (kexec_spec path h).post ?_
    intro v t ht
    rw [ht]
    exact ⟨⟨1, rfl, rfl⟩, rfl, rfl, rfl, rfl⟩

/-- A world without panics: every inode is a directory, no name is taken, and everything can be
allocated and written. -/
def roomyWorld : World := fun _ q _ => match q with
  | .argstr => .ok (some [47, 97])
  | .argint => .ok O_CREATE
  | .iget _ => .ok ()
  | .fields _ => .ok ⟨T_DIR, 0, 0, 1⟩
  | .unused _ => .ok true
  | .itrunc _ => .ok ()
  | .iupdate _ => .ok ()
  | .dirlookup .. => .ok none
  | .dirwrite .. => .ok true
  | .ialloc dp _ => .ok (some (dp + 1))
  | .otherDev .. => .ok false
  | .isdirempty _ => .ok true
  | .clear .. => .ok true
  | .elf _ => .ok (some 2)
  | .segment .. => .ok .loaded
  | .image => .ok (some 1)

lemma not_cause_roomyWorld (e : CallError) : ¬ Cause roomyWorld e := by
  cases e with
  | panic e =>
    rintro (⟨α, q, k, h⟩ | ⟨-, ip, k, v, h, hv⟩ | ⟨-, dp, off, k, h⟩)
    · cases q <;> cases h
    · cases h
      exact absurd hv (by decide)
    · cases h
  | selfLock ip =>
    rintro (⟨name, off, k, h, -⟩ | ⟨type, k, h⟩)
    · cases h
    · have hip : ip + 1 = ip := Option.some.inj (Except.ok.inj h)
      omega
  | _ => exact id

/-- A process in the root directory, without files. -/
def idleCall : CallState Unit :=
  ⟨0, fun _ => ⟨0, 0, 0, 0⟩, ⟨0, 0, ∅, Pi.single ROOTINO 1, ROOTINO,
    ⟨fun _ => ⟨.none, 0, false, false, 0, 0, 0, 0⟩, fun _ _ => none, fun _ => true,
      fun _ => ⟨false, false⟩, 0, fun _ => 0⟩⟩⟩

theorem calls_are_balanced_sample : (∃ v t, call roomyWorld () .mkdir idleCall = .ok (v, t) ∧
      Balanced () .mkdir idleCall.held v t.held) ∧
    ∃ v t, call roomyWorld () .open idleCall = .ok (v, t) ∧
      Balanced () .open idleCall.held v t.held := by
  have hready : Ready idleCall.held := ⟨rfl, by decide, fun _ _ => rfl⟩
  have hcalls := (calls_are_balanced roomyWorld () hready).2
  exact ⟨((hcalls .mkdir).mono (fun _ _ h => h) not_cause_roomyWorld).returns,
    ((hcalls .open).mono (fun _ _ h => h) not_cause_roomyWorld).returns⟩

end Xv6.PathCall
