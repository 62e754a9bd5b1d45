import Xv6.Fs.DirCalls

/-!
# A directory is a finite map

The directories of a file system on which `create`, `mkdir`, `mknod`, `link` and `unlink` run, and
where inodes without links are freed. Next to the file system, the state has the maps that the
directories should implement: a successful call binds the name, or unbinds it. A name is identified
by its `key`.

`WellFormed` is the invariant of one directory. The two ways in which a directory changes, filling a
free entry and clearing an entry, keep it, and do to the lookups what the map says.
**`directories_are_maps`** follows for every sequence of calls.
-/

namespace Xv6

open Function Option Fs Prog FsState

/-! ## Lists of entries -/

/-- A list of entries of directory `own`: the first is `.`, the second `..`, and no two live entries
have the same name. -/
structure WellFormed (sb : Superblock) (own : ℕ) (es : List Dirent) : Prop where
  dot : es[0]? = some ⟨own, strncpy DIRSIZ dot⟩
  dotdot : ∃ d, es[1]? = some d ∧ d.inum ≠ 0 ∧ namecmp d.name dotdot = 0
  unique : ∀ (j k : ℕ) (d d' : Dirent), es[j]? = some d → es[k]? = some d' → d.inum ≠ 0 →
    d'.inum ≠ 0 → namecmp d.name d'.name = 0 → j = k
  range : ∀ d ∈ es, d.inum < sb.ninodes

variable {sb : Superblock} {es : List Dirent} {name name' : List UInt8} {e n own inum dp : ℕ}
  {d : Dirent} {de : Dirent}

lemma matches_iff : de.Matches name ↔ de.inum ≠ 0 ∧ key name = key de.name := by
  rw [Dirent.Matches, namecmp_eq_zero]

lemma lookup_eq_zero : lookup es name = 0 ↔ ∀ d ∈ es, ¬ d.Matches name := by
  rw [lookup]
  cases hfind : es.find? fun de => decide (de.Matches name) with
  | none =>
    refine ⟨fun _ d hd => ?_, fun _ => rfl⟩
    simpa using List.find?_eq_none.mp hfind d hd
  | some de =>
    have hm : de.Matches name := by simpa using List.find?_some hfind
    refine ⟨fun h0 => absurd h0 hm.1, fun hall => ?_⟩
    exact absurd hm (hall de (List.mem_of_find?_eq_some hfind))

lemma lookup_ne_zero : lookup es name ≠ 0 ↔ ∃ d ∈ es, d.Matches name := by
  rw [Ne, lookup_eq_zero]
  simp only [not_forall, not_not, exists_prop]

lemma lookup_of_matches (h : WellFormed sb own es) (hd : d ∈ es) (hm : d.Matches name) :
    lookup es name = d.inum := by
  rw [lookup]
  cases hfind : es.find? fun de => decide (de.Matches name) with
  | none => exact absurd hm (by simpa using List.find?_eq_none.mp hfind d hd)
  | some de =>
    have hm' : de.Matches name := by simpa using List.find?_some hfind
    obtain ⟨j, hj, hjd⟩ := List.mem_iff_getElem.mp hd
    obtain ⟨k, hk, hkd⟩ := List.mem_iff_getElem.mp (List.mem_of_find?_eq_some hfind)
    have hsame : namecmp d.name de.name = 0 := by
      rw [namecmp_eq_zero, ← (matches_iff.mp hm).2, ← (matches_iff.mp hm').2]
    obtain rfl := h.unique j k d de (by rw [List.getElem?_eq_getElem hj, hjd])
      (by rw [List.getElem?_eq_getElem hk, hkd]) hm.1 hm'.1 hsame
    rw [hjd] at hkd
    rw [hkd]
    rfl

lemma getElem?_putEntry (de : Dirent) (he : e ≤ es.length) (j : ℕ) :
    (putEntry es e de)[j]? = if j = e then some de else es[j]? := by
  rw [putEntry]
  split_ifs with hlt hj hj
  · rw [hj, List.getElem?_set_self hlt]
  · rw [List.getElem?_set_ne (Ne.symm hj)]
  · rw [hj, List.getElem?_append_right (by omega), show e - es.length = 0 by omega]
    rfl
  · by_cases hjl : j < es.length
    · rw [List.getElem?_append_left hjl]
    · have hlen : (es ++ [de]).length ≤ j := by
        rw [List.length_append, List.length_singleton]
        omega
      rw [List.getElem?_eq_none hlen, List.getElem?_eq_none (by omega)]

lemma mem_putEntry (he : e ≤ es.length) (hd : d ∈ putEntry es e de) :
    d = de ∨ ∃ j, j ≠ e ∧ es[j]? = some d := by
  obtain ⟨j, hj⟩ := List.mem_iff_getElem?.mp hd
  rw [getElem?_putEntry _ he] at hj
  split_ifs at hj with hje
  · exact .inl (some.inj hj).symm
  · exact .inr ⟨j, hje, hj⟩

namespace WellFormed

lemma live_zero (h : WellFormed sb own es) (hpos : 0 < own)
    (hdead : ∀ d, es[e]? = some d → d.inum = 0) : e ≠ 0 ∧ e ≠ 1 := by
  obtain ⟨d1, hd1, hne, -⟩ := h.dotdot
  constructor
  · rintro rfl
    have : own = 0 := hdead _ h.dot
    omega
  · rintro rfl
    exact hne (hdead _ hd1)

/-- The list is well formed again if entry `e` is not one of the first two, and its new name is not
the name of another live entry. -/
lemma put (h : WellFormed sb own es) (he : e ≤ es.length) (h01 : e ≠ 0 ∧ e ≠ 1)
    (hrange : de.inum < sb.ninodes) (hnew : de.inum ≠ 0 → ∀ (j : ℕ) (d : Dirent), j ≠ e →
      es[j]? = some d → d.inum ≠ 0 → key d.name ≠ key de.name) :
    WellFormed sb own (putEntry es e de) := by
  refine ⟨?_, ?_, fun j k d d' hd hd' hne hne' hsame => ?_, fun d hd => ?_⟩
  · rw [getElem?_putEntry _ he, if_neg h01.1.symm]
    exact h.dot
  · rw [getElem?_putEntry _ he, if_neg h01.2.symm]
    exact h.dotdot
  · rw [getElem?_putEntry _ he] at hd hd'
    rw [namecmp_eq_zero] at hsame
    split_ifs at hd hd' with hj hk hk
    · rw [hj, hk]
    · cases hd
      exact absurd hsame.symm (hnew hne k d' hk hd' hne')
    · cases hd'
      exact absurd hsame (hnew hne' j d hj hd hne)
    · exact h.unique j k d d' hd hd' hne hne' ((namecmp_eq_zero _ _).mpr hsame)
  · rcases mem_putEntry he hd with rfl | ⟨j, -, hj⟩
    · exact hrange
    · exact h.range d (List.mem_of_getElem? hj)

/-- The lookup of a name that neither the old nor the new entry has. -/
lemma lookup_putEntry (h : WellFormed sb own es) (he : e ≤ es.length)
    (hwf : WellFormed sb own (putEntry es e de)) (hnew : ¬ de.Matches name)
    (hold : ∀ d, es[e]? = some d → ¬ d.Matches name) :
    lookup (putEntry es e de) name = lookup es name := by
  by_cases h0 : lookup es name = 0
  · rw [h0, lookup_eq_zero]
    intro d hd hm
    rcases mem_putEntry he hd with rfl | ⟨j, -, hj⟩
    · exact hnew hm
    · exact lookup_eq_zero.mp h0 d (List.mem_of_getElem? hj) hm
  · obtain ⟨d, hd, hm⟩ := lookup_ne_zero.mp h0
    rw [lookup_of_matches h hd hm]
    obtain ⟨j, hj⟩ := List.mem_iff_getElem?.mp hd
    have hje : j ≠ e := by
      rintro rfl
      exact hold d hj hm
    have hget := (getElem?_putEntry de he j).trans (if_neg hje)
    exact lookup_of_matches hwf (List.mem_of_getElem? (hget.trans hj)) hm

lemma bind (h : WellFormed sb own es) (hpos : 0 < own) (he : e ≤ es.length)
    (hdead : ∀ d, es[e]? = some d → d.inum = 0) (habsent : lookup es name = 0) (hn : 0 < inum)
    (hlt : inum < sb.ninodes) :
    WellFormed sb own (putEntry es e ⟨inum, strncpy DIRSIZ name⟩) ∧
      ∀ name', lookup (putEntry es e ⟨inum, strncpy DIRSIZ name⟩) name' =
        if key name' = key name then inum else lookup es name' := by
  have hwf : WellFormed sb own (putEntry es e ⟨inum, strncpy DIRSIZ name⟩) := by
    refine h.put he (h.live_zero hpos hdead) hlt fun _ j d _ hd hne hsame => ?_
    rw [key_strncpy] at hsame
    exact lookup_eq_zero.mp habsent d (List.mem_of_getElem? hd) (matches_iff.mpr ⟨hne, hsame.symm⟩)
  refine ⟨hwf, fun name' => ?_⟩
  have hget := getElem?_putEntry ⟨inum, strncpy DIRSIZ name⟩ he
  split_ifs with hkey
  · refine lookup_of_matches (d := ⟨inum, strncpy DIRSIZ name⟩) hwf ?_ ?_
    · exact List.mem_of_getElem? ((hget e).trans (if_pos rfl))
    · exact matches_iff.mpr ⟨hn.ne', by rw [hkey, key_strncpy]⟩
  · refine lookup_putEntry h he hwf (fun hm => hkey ?_) fun d hd hm => hm.1 (hdead d hd)
    exact (matches_iff.mp hm).2.trans (key_strncpy name)

lemma unbind (h : WellFormed sb own es) (hself : own < sb.ninodes) (hd : es[e]? = some d)
    (hm : d.Matches name) (hproper : key name ≠ key Xv6.dot ∧ key name ≠ key Xv6.dotdot) :
    WellFormed sb own (putEntry es e noEntry) ∧
      ∀ name', lookup (putEntry es e noEntry) name' =
        if key name' = key name then 0 else lookup es name' := by
  have he : e ≤ es.length := (List.getElem?_eq_some_iff.mp hd).1.le
  have hkey := (matches_iff.mp hm).2
  have h01 : e ≠ 0 ∧ e ≠ 1 := by
    constructor
    · rintro rfl
      rw [h.dot] at hd
      rw [← some.inj hd, key_strncpy] at hkey
      exact hproper.1 hkey
    · rintro rfl
      obtain ⟨d1, hd1, -, hname⟩ := h.dotdot
      rw [hd1] at hd
      rw [← some.inj hd, (namecmp_eq_zero _ _).mp hname] at hkey
      exact hproper.2 hkey
  have hwf : WellFormed sb own (putEntry es e noEntry) :=
    h.put he h01 (by show 0 < _; omega) fun hne => absurd rfl hne
  refine ⟨hwf, fun name' => ?_⟩
  split_ifs with hk
  · rw [lookup_eq_zero]
    intro d' hd' hm'
    rcases mem_putEntry he hd' with rfl | ⟨j, hje, hj⟩
    · exact hm'.1 rfl
    · refine hje (h.unique j e d' d hj hd hm'.1 hm.1 ?_)
      rw [namecmp_eq_zero, ← (matches_iff.mp hm').2, hk, hkey]
  · refine lookup_putEntry h he hwf (fun hm' => hm'.1 rfl) fun d' hd' hm' => hk ?_
    rw [hd] at hd'
    rw [← some.inj hd'] at hm'
    exact (matches_iff.mp hm').2.trans hkey.symm

/-- Entries behind the first two are the names other than `.` and `..`. -/
lemma empty_iff (h : WellFormed sb own es) (hpos : 0 < own) :
    (∀ j, 2 ≤ j → ∀ d, es[j]? = some d → d.inum = 0) ↔
      ∀ name, lookup es name ≠ 0 → key name = key Xv6.dot ∨ key name = key Xv6.dotdot := by
  obtain ⟨d1, hd1, hne1, hname1⟩ := h.dotdot
  rw [namecmp_eq_zero] at hname1
  constructor
  · intro hall name hname
    obtain ⟨d, hd, hm⟩ := lookup_ne_zero.mp hname
    obtain ⟨j, hj⟩ := List.mem_iff_getElem?.mp hd
    obtain ⟨hne, hkey⟩ := matches_iff.mp hm
    match j, hj with
    | 0, hj =>
      rw [h.dot] at hj
      rw [← some.inj hj, key_strncpy] at hkey
      exact .inl hkey
    | 1, hj =>
      rw [hd1] at hj
      rw [← some.inj hj, hname1] at hkey
      exact .inr hkey
    | j + 2, hj => exact absurd (hall (j + 2) (by omega) d hj) hne
  · intro hall j hj d hd
    by_contra hne
    have hm : d.Matches d.name := matches_iff.mpr ⟨hne, rfl⟩
    have hlook := lookup_of_matches h (List.mem_of_getElem? hd) hm
    rcases hall d.name (by rw [hlook]; exact hne) with hk | hk
    · have := h.unique j 0 d _ hd h.dot hne (by simp only; omega)
        (by rw [namecmp_eq_zero, hk, key_strncpy])
      omega
    · have := h.unique j 1 d d1 hd hd1 hne hne1 (by rw [namecmp_eq_zero, hk, hname1])
      omega

end WellFormed

/-! ## The system -/

/-- The file system, and the map that each directory should be. -/
structure DirSys where
  fs : FsState
  map : ℕ → List UInt8 → ℕ

/-- The calls that change directories. -/
inductive DirCall where
  /-- `create` for `open`, `mkdir` and `mknod`. -/
  | create (dp : ℕ) (name : List UInt8) (type major minor : ℤ)
  | link (ip dp : ℕ) (name : List UInt8)
  | unlink (dp : ℕ) (name : List UInt8)
  /-- The last reference to an inode without links goes away. -/
  | free (ip : ℕ)

namespace DirSys

/-- `name` is bound to `inum` in `dp`, or unbound if `inum` is 0. -/
def bind (map : ℕ → List UInt8 → ℕ) (dp : ℕ) (name : List UInt8) (inum : ℕ) : ℕ → List UInt8 → ℕ :=
  update map dp (update (map dp) (key name) inum)

/-- The map of a new directory. -/
def newMap (ip dp : ℕ) : List UInt8 → ℕ := fun k =>
  if k = key dot then ip else if k = key dotdot then dp else 0

/-- `dp` is a directory. -/
def IsDir (sb : Superblock) (s : FsState) (dp : ℕ) : Prop :=
  dp < sb.ninodes ∧ (s.ino dp).type = T_DIR

instance (sb : Superblock) (s : FsState) (dp : ℕ) : Decidable (IsDir sb s dp) :=
  inferInstanceAs (Decidable (_ ∧ _))

/-- A value of a `short` field. -/
def IsShort (x : ℤ) : Prop := -2 ^ 15 ≤ x ∧ x < 2 ^ 15

instance (x : ℤ) : Decidable (IsShort x) := inferInstanceAs (Decidable (_ ∧ _))

/-- The names after `create`. -/
def created (s : DirSys) (dp : ℕ) (name : List UInt8) (type : ℤ) : CreateResult → ℕ → List UInt8 → ℕ
  | .new ip =>
    let map := bind s.map dp name ip
    if type = T_DIR then update map ip (newMap ip dp) else map
  | _ => s.map

/-- The possible arguments of a call. -/
def Enabled (sb : Superblock) (s : DirSys) : DirCall → Prop
  | .create dp _ type major minor => IsDir sb s.fs dp ∧ IsShort major ∧ IsShort minor ∧
      (type = T_DIR ∨ type = T_FILE ∨ type = T_DEVICE)
  | .link ip dp _ => IsDir sb s.fs dp ∧ 0 < ip ∧ ip < sb.ninodes ∧ (s.fs.ino ip).type ≠ 0
  | .unlink dp _ => IsDir sb s.fs dp
  | .free ip => 0 < ip ∧ ip < sb.ninodes ∧ (s.fs.ino ip).type ≠ 0 ∧ (s.fs.ino ip).nlink = 0

instance (sb : Superblock) (s : DirSys) : ∀ c, Decidable (s.Enabled sb c)
  | .create .. => inferInstanceAs (Decidable (_ ∧ _ ∧ _ ∧ _))
  | .link .. => inferInstanceAs (Decidable (_ ∧ _ ∧ _ ∧ _))
  | .unlink .. => inferInstanceAs (Decidable (IsDir ..))
  | .free .. => inferInstanceAs (Decidable (_ ∧ _ ∧ _ ∧ _))

/-- A call, with the new maps. -/
def call (sb : Superblock) (s : DirSys) : DirCall → Except FsPanic DirSys
  | .create dp name type major minor => do
      let (r, fs) ← create sb dp name type major minor s.fs
      return ⟨fs, s.created dp name type r⟩
  | .link ip dp name => do
      let (r, fs) ← link sb ip dp name s.fs
      return ⟨fs, if r = 0 then bind s.map dp name ip else s.map⟩
  | .unlink dp name => do
      let (r, fs) ← unlink sb dp name s.fs
      return ⟨fs, if r = 0 then bind s.map dp name 0 else s.map⟩
  | .free ip => do
      let (_, fs) ← iputFree sb ip s.fs
      return ⟨fs, s.map⟩

def step (sb : Superblock) (s : DirSys) (c : DirCall) : Outcome FsPanic DirSys :=
  if s.Enabled sb c then
    match s.call sb c with
    | .ok t => .next t
    | .error e => .panic e
  else .disabled

/-! ## The invariant -/

variable {s t : DirSys} {c : DirCall}

/-- A directory is well formed and implements its map. -/
structure DirOk (sb : Superblock) (fs : FsState) (map : List UInt8 → ℕ) (i : ℕ) : Prop where
  pos : 0 < i
  size : DE ∣ (fs.ino i).size
  wf : WellFormed sb i (fs.dir sb i)
  lookup : ∀ name, lookup (fs.dir sb i) name = map (key name)

/-- Every directory implements its map. -/
structure Inv (sb : Superblock) (s : DirSys) : Prop where
  quiet : s.fs.Quiet sb
  dirs : ∀ i, IsDir sb s.fs i → DirOk sb s.fs (s.map i) i

variable {fs fs' : FsState} {map map' : List UInt8 → ℕ} {i : ℕ}

lemma DirOk.keep (h : DirOk sb fs map i) (hk : Keeps sb fs fs' i) : DirOk sb fs' map i := by
  refine ⟨h.pos, by rw [hk.size]; exact h.size, ?_, ?_⟩
  · rw [hk.dir]
    exact h.wf
  · rw [hk.dir]
    exact h.lookup

lemma DirOk.bind (h : DirOk sb fs map i) (he : Entered sb fs fs' i name inum) (hn : 0 < inum)
    (hlt : inum < sb.ninodes) :
    DirOk sb fs' (update map (key name) inum) i := by
  obtain ⟨e, hle, hdead, hdir⟩ := he.dir
  obtain ⟨hwf, hlook⟩ := h.wf.bind h.pos hle hdead he.absent hn hlt
  refine ⟨h.pos, he.size, by rw [hdir]; exact hwf, fun name' => ?_⟩
  rw [hdir, hlook, Function.update_apply, h.lookup]

lemma DirOk.unbind (h : DirOk sb fs map i) (hi : i < sb.ninodes)
    (hr : Removed sb fs fs' i name) : DirOk sb fs' (update map (key name) 0) i := by
  obtain ⟨e, d, hd, hm, hdir⟩ := hr.dir
  obtain ⟨hwf, hlook⟩ := h.wf.unbind hi hd hm hr.proper
  refine ⟨h.pos, hr.size, by rw [hdir]; exact hwf, fun name' => ?_⟩
  rw [hdir, hlook, Function.update_apply, h.lookup]

lemma DirOk.new {ip : ℕ} (hpos : 0 < ip) (hi : ip < sb.ninodes) (hdp : 0 < dp)
    (hdplt : dp < sb.ninodes) (hsize : DE ∣ (fs.ino ip).size)
    (hdir : fs.dir sb ip = dotEntries ip dp) : DirOk sb fs (newMap ip dp) ip := by
  have hne : key dot ≠ key dotdot := by decide
  have hwf : WellFormed sb ip (dotEntries ip dp) := by
    refine ⟨rfl, ⟨_, rfl, hdp.ne', by rw [namecmp_eq_zero, key_strncpy]⟩,
      fun j k d d' hd hd' hn hn' hsame => ?_, fun d hd => ?_⟩
    · rw [namecmp_eq_zero] at hsame
      match j, k, hd, hd' with
      | 0, 0, _, _ => rfl
      | 1, 1, _, _ => rfl
      | 0, 1, hd, hd' =>
        rw [← some.inj hd, ← some.inj hd', key_strncpy, key_strncpy] at hsame
        exact absurd hsame hne
      | 1, 0, hd, hd' =>
        rw [← some.inj hd, ← some.inj hd', key_strncpy, key_strncpy] at hsame
        exact absurd hsame.symm hne
    · simp only [dotEntries, List.mem_cons, List.not_mem_nil, or_false] at hd
      rcases hd with rfl | rfl
      · exact hi
      · exact hdplt
  refine ⟨hpos, hsize, by rw [hdir]; exact hwf, fun name => ?_⟩
  rw [hdir, newMap]
  split_ifs with h1 h2
  · refine lookup_of_matches (d := ⟨ip, strncpy DIRSIZ dot⟩) hwf (by simp [dotEntries]) ?_
    exact matches_iff.mpr ⟨hpos.ne', by rw [h1, key_strncpy]⟩
  · refine lookup_of_matches (d := ⟨dp, strncpy DIRSIZ dotdot⟩) hwf (by simp [dotEntries]) ?_
    exact matches_iff.mpr ⟨hdp.ne', by rw [h2, key_strncpy]⟩
  · rw [lookup_eq_zero]
    intro d hd hm
    simp only [dotEntries, List.mem_cons, List.not_mem_nil, or_false] at hd
    have hkey := (matches_iff.mp hm).2
    rcases hd with rfl | rfl
    · exact h1 (hkey.trans (key_strncpy dot))
    · exact h2 (hkey.trans (key_strncpy dotdot))

lemma Inv.kept (h : s.Inv sb) (hi : IsDir sb fs i) (hk : Keeps sb s.fs fs i) :
    DirOk sb fs (s.map i) i :=
  (h.dirs i ⟨hi.1, hk.type.symm.trans hi.2⟩).keep hk

lemma Inv.create {type : ℤ} {r : CreateResult} (h : s.Inv sb) (hdp : IsDir sb s.fs dp)
    (hq : fs.Quiet sb) (hc : Created sb s.fs fs dp name type r) :
    Inv sb ⟨fs, s.created dp name type r⟩ := by
  refine ⟨hq, fun i hi => ?_⟩
  cases hc with
  | unchanged hr hkeep =>
    have hmap : s.created dp name type r = s.map := by
      cases r with
      | new ip => exact absurd rfl (hr ip)
      | old ip => rfl
      | fail => rfl
    rw [hmap]
    rcases hkeep i with hk | ⟨-, h0⟩
    · exact h.kept hi hk
    · rw [hi.2] at h0
      exact absurd h0 (by decide)
  | @made ip hpos hlt hfree htype hsize hdots hentered hkeep =>
    have hdpok := h.dirs dp hdp
    have hne : dp ≠ ip := by
      rintro rfl
      rw [hdp.2] at hfree
      exact absurd hfree (by decide)
    by_cases hip : i = ip
    · subst hip
      have hd : type = T_DIR := htype.symm.trans hi.2
      simp only [created, if_pos hd, update_self]
      exact .new hpos hlt hdpok.pos hdp.1 (hsize.resolve_right fun hn => hn hd) (hdots hd)
    · have hmap : s.created dp name type (.new ip) i = bind s.map dp name ip i := by
        simp only [created]
        split_ifs
        · exact update_of_ne hip _ _
        · rfl
      show DirOk sb fs (s.created dp name type (.new ip) i) i
      rw [hmap]
      by_cases hd : i = dp
      · subst hd
        rw [bind, update_self]
        exact hdpok.bind hentered hpos hlt
      · rw [bind, update_of_ne hd]
        exact h.kept hi (hkeep i hip hd)

lemma Inv.on_dir (h : s.Inv sb) (hq : fs.Quiet sb) {map : List UInt8 → ℕ}
    (hdp : DirOk sb fs map dp) (hkeep : ∀ j, j ≠ dp → Keeps sb s.fs fs j) :
    Inv sb ⟨fs, update s.map dp map⟩ := by
  refine ⟨hq, fun i hi => ?_⟩
  show DirOk sb fs (update s.map dp map i) i
  by_cases hd : i = dp
  · subst hd
    rwa [update_self]
  · rw [update_of_ne hd]
    exact h.kept hi (hkeep i hd)

lemma Inv.unchanged (h : s.Inv sb) (hq : fs.Quiet sb)
    (hkeep : ∀ j, Keeps sb s.fs fs j ∨ (fs.ino j).type = 0) : Inv sb ⟨fs, s.map⟩ := by
  refine ⟨hq, fun i hi => ?_⟩
  rcases hkeep i with hk | h0
  · exact h.kept hi hk
  · rw [hi.2] at h0
    exact absurd h0 (by decide)

lemma Inv.step (hsb : sb.WF) (h16 : sb.ninodes ≤ 2 ^ 16) (h : s.Inv sb)
    (hstep : s.step sb c = .next t) : t.Inv sb := by
  simp only [DirSys.step] at hstep
  split_ifs at hstep with hen
  cases hcall : s.call sb c with
  | error e =>
    rw [hcall] at hstep
    cases hstep
  | ok t' =>
    rw [hcall] at hstep
    obtain rfl : t' = t := Outcome.next.inj hstep
    cases c with
    | create dp name type major minor =>
      obtain ⟨hdp, hmaj, hmin, htype⟩ := hen
      have hok := h.dirs dp hdp
      have hne : type ≠ 0 ∧ -2 ^ 15 ≤ type ∧ type < 2 ^ 15 := by
        rcases htype with rfl | rfl | rfl <;> decide
      have hspec := create_spec name hsb h16 h.quiet hdp.1 hdp.2 hok.size ⟨hmaj, hmin⟩ hne.1 hne.2
      obtain ⟨x, hrun, ⟨⟩⟩ := of_bind_ok hcall
      obtain ⟨hq, hc⟩ := hspec.1 x.1 x.2 hrun
      exact h.create hdp hq hc
    | link ip dp name =>
      obtain ⟨hdp, hpos, hlt, -⟩ := hen
      have hok := h.dirs dp hdp
      have hspec := link_spec name hsb h16 h.quiet hlt hdp.1 hdp.2 hok.size
      obtain ⟨x, hrun, ⟨⟩⟩ := of_bind_ok hcall
      obtain ⟨hq, ⟨hr, hentered, hkeep⟩ | ⟨hr, hkeep⟩⟩ := hspec.1 x.1 x.2 hrun
      · rw [if_pos hr]
        exact h.on_dir hq (hok.bind hentered hpos hlt) hkeep
      · rw [if_neg hr]
        exact h.unchanged hq fun j => .inl (hkeep j)
    | unlink dp name =>
      have hok := h.dirs dp hen
      have hspec := unlink_spec name hsb h.quiet hen.1 hen.2 hok.size
        (fun ip hlt hd => (h.dirs ip ⟨hlt, hd⟩).size) hok.wf.range
      obtain ⟨x, hrun, ⟨⟩⟩ := of_bind_ok hcall
      obtain ⟨hq, ⟨hr, hremoved, hkeep⟩ | ⟨hr, hkeep⟩⟩ := hspec.1 x.1 x.2 hrun
      · rw [if_pos hr]
        exact h.on_dir hq (hok.unbind hen.1 hremoved) hkeep
      · rw [if_neg hr]
        exact h.unchanged hq fun j => .inl (hkeep j)
    | free ip =>
      obtain ⟨hpos, hlt, -, -⟩ := hen
      have hspec := iputFree_spec hsb h.quiet.consistent h.quiet.synced hlt
        fun j hj _ => h.quiet.free j hj
      obtain ⟨x, hrun, ⟨⟩⟩ := of_bind_ok hcall
      obtain ⟨hq, h0, hother⟩ := hspec.1 x.1 x.2 hrun
      refine h.unchanged hq fun j => ?_
      by_cases hj : j = ip
      · rw [hj]
        exact .inr h0
      · exact .inl ⟨by rw [(hother j hj).1], (hother j hj).2⟩

/-- **Directories implement finite maps.**  After every sequence of calls, with their failures: the
first two entries of every directory are `.` and `..`, no two live entries have the same name,
`dirlookup` is the map of the successful calls, a `dirlink` that returns -1 changes no lookup in any
directory, and `isdirempty` says whether the map has other names than `.` and `..`. -/
theorem directories_are_maps (hsb : sb.WF) (h16 : sb.ninodes ≤ 2 ^ 16) {s0 s : DirSys}
    {calls : List DirCall} (h₀ : s0.Inv sb) (hrun : Run (DirSys.step sb) s0 calls s) (i : ℕ)
    (hi : IsDir sb s.fs i) :
    (s.fs.dir sb i)[0]? = some ⟨i, strncpy DIRSIZ dot⟩ ∧
    (∃ d, (s.fs.dir sb i)[1]? = some d ∧ d.inum ≠ 0 ∧ namecmp d.name dotdot = 0) ∧
    (∀ (j k : ℕ) (d d' : Dirent), (s.fs.dir sb i)[j]? = some d → (s.fs.dir sb i)[k]? = some d' →
      d.inum ≠ 0 → d'.inum ≠ 0 → namecmp d.name d'.name = 0 → j = k) ∧
    (∀ name, ∃ r, dirlookup sb i name s.fs = .ok (r, s.fs) ∧
      (r.map (·.1)).getD 0 = s.map i (key name)) ∧
    (∀ name inum, inum < sb.ninodes → ∃ r fs, dirlink sb i name inum s.fs = .ok (r, fs) ∧
      (r = 0 ∨ r = -1) ∧
      (r = -1 → ∀ j name', lookup (fs.dir sb j) name' = lookup (s.fs.dir sb j) name')) ∧
    ∃ b, isdirempty sb i s.fs = .ok (b, s.fs) ∧
      (b = true ↔ ∀ name, s.map i (key name) ≠ 0 → key name = key dot ∨ key name = key dotdot) := by
  have hstep : ∀ (s : DirSys) c s', s.Inv sb → DirSys.step sb s c = .next s' → s'.Inv sb :=
    fun _ _ _ h hs => h.step hsb h16 hs
  have hinv : s.Inv sb := hrun.invariant hstep h₀
  have hok := hinv.dirs i hi
  have hcons := hinv.quiet.consistent
  refine ⟨hok.wf.dot, hok.wf.dotdot, hok.wf.unique, fun name => ?_, fun name inum hlt => ?_, ?_⟩
  · obtain ⟨r, fs, hr, rfl, hfound⟩ :=
      (dirlookup_spec name hsb hcons hi.1 hok.size hi.2).returns
    exact ⟨r, hr, hfound.inum.trans (hok.lookup name)⟩
  · obtain ⟨r, fs, hr, htouch, -, hcase⟩ :=
      (dirlink_spec name hsb hcons hi.1 hok.size hi.2 (show inum < 2 ^ 16 by omega)).returns
    refine ⟨r, fs, hr, hcase.imp (·.1) (·.1), fun hneg j name' => ?_⟩
    rcases hcase with ⟨rfl, -⟩ | ⟨-, hsame⟩
    · cases hneg
    · have hcontent : fs.content sb j = s.fs.content sb j := by
        by_cases hj : j = i
        · rw [hj, hsame]
        · exact htouch.content j hj
      rw [FsState.dir, hcontent, FsState.dir]
  · obtain ⟨b, fs, hr, rfl, hb⟩ := (isdirempty_spec hsb hcons hi.1 hok.size).returns
    refine ⟨b, hr, hb.trans ((hok.wf.empty_iff hok.pos).trans ?_)⟩
    simp only [hok.lookup]

/-- A disk with a root directory. -/
def rootDisk : Disk :=
  let bytes := (dotEntries 1 1).flatMap Dirent.toBytes
  smallSb.setDinode (update (smallSb.setBit smallDisk 4 true) 4 fun j => bytes.getD j 0) 1
    { Dinode.new T_DIR with nlink := 1, size := 32, addrs := noAddrs.set 0 4 }

def rootSys : DirSys := ⟨diskFs smallSb rootDisk, fun _ => newMap 1 1⟩

lemma rootSys_inv : rootSys.Inv smallSb := by
  have hone : OneBlock 32 rootDisk :=
    ⟨by decide +kernel, by decide +kernel, by decide +kernel, by decide⟩
  refine ⟨⟨hone.consistent, fun _ _ => rfl, by decide +kernel⟩, fun i hi => ?_⟩
  have honly : ∀ i < 3, (smallSb.dinode rootDisk i).type = T_DIR → i = 1 := by decide +kernel
  obtain rfl := honly i hi.1 hi.2
  exact .new (by decide) (by decide) (by decide) (by decide) (by decide +kernel) (by decide +kernel)

/-- A directory is made in the root and removed again; two calls in between fail. -/
def rootCalls : List DirCall :=
  [.create 1 [97] T_DIR 0 0, .create 1 [97] T_FILE 0 0, .unlink 1 dot, .unlink 1 [97]]

theorem directories_are_maps_sample : ∃ s, Run (DirSys.step smallSb) rootSys rootCalls s ∧
    IsDir smallSb s.fs 1 ∧ s.map 1 (key [97]) = 0 ∧
    ∃ r, dirlookup smallSb 1 [97] s.fs = .ok (r, s.fs) ∧ (r.map (·.1)).getD 0 = 0 := by
  have hex : (exec (DirSys.step smallSb) rootSys rootCalls).map
      (fun s => (decide (IsDir smallSb s.fs 1), s.map 1 (key [97]))) = some (true, 0) := by
    decide +kernel
  obtain ⟨s, hs, heq⟩ := map_eq_some_iff.mp hex
  obtain ⟨hdir, hmap⟩ := Prod.mk.inj heq
  have hi : IsDir smallSb s.fs 1 := of_decide_eq_true hdir
  obtain ⟨r, hr, hval⟩ := (directories_are_maps smallSb_wf (by decide) rootSys_inv (.of_exec hs) 1
    hi).2.2.2.1 [97]
  exact ⟨s, .of_exec hs, hi, hmap, r, hr, hval.trans hmap⟩

/-- A disk with more inodes than a directory entry can name. -/
def wideSb : Superblock := ⟨4110, 65537, 2, 4100⟩

/-- Its root directory is in block 4101, and inode 65536 is a file. -/
def wideFs : FsState :=
  let bytes := (dotEntries 1 1).flatMap Dirent.toBytes
  ⟨fun a j => if a = 4100 then (if j < 512 then 255 else if j = 512 then 63 else 0)
    else if a = 4101 then bytes.getD j 0 else 0,
    fun i => if i = 1 then
        { Dinode.new T_DIR with nlink := 1, size := 32, addrs := noAddrs.set 0 4101 }
      else if i = 65536 then { Dinode.new T_FILE with nlink := 1 } else .new 0⟩

/-- **An entry holds 16 bits of the inode number.**  `link` enters inode 65536 and returns 0, but
the entry has the number 0, and the name is not found. -/
theorem wide_inode_is_not_found :
    (link wideSb 65536 1 [97] wideFs).toOption.map (fun x => x.1) = some 0 ∧
    ((link wideSb 65536 1 [97] wideFs).toOption.bind fun x =>
      (dirlookup wideSb 1 [97] x.2).toOption.map (fun y => y.1)) = some none := by
  constructor <;> decide +kernel

end DirSys

end Xv6
