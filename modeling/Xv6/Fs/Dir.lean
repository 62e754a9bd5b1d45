import Xv6.Fs.Content

/-!
# Directories

`namecmp`, `dirlookup`, `dirlink` and `isdirempty`. A directory is a file whose content is a list of
entries of 16 bytes; an entry with inode number 0 is free. The three functions that walk over the
entries stop at the first one with some property, so they are one loop, `scan`.

Names are compared with `strncmp` and stored with `strncpy`, without a final NUL if they have
`DIRSIZ` bytes. What counts of a name is its `key`: `namecmp` compares keys and `strncpy` keeps
them.
-/

namespace Xv6

open ByteArr Prog List ByteFiles

abbrev T_DIR : ℤ := 1
abbrev T_FILE : ℤ := 2
abbrev T_DEVICE : ℤ := 3
abbrev ROOTINO : ℕ := 1

/-! ## Names -/

/-- `strncmp`; a string ends with a NUL. -/
def strncmp : ℕ → List UInt8 → List UInt8 → ℤ
  | 0, _, _ => 0
  | n + 1, p, q =>
    if p.headD 0 ≠ 0 ∧ p.headD 0 = q.headD 0 then strncmp n p.tail q.tail
    else (p.headD 0).toNat - (q.headD 0).toNat

/-- `strncpy`: the bytes it stores. -/
def strncpy : ℕ → List UInt8 → List UInt8
  | 0, _ => []
  | n + 1, t => if t.headD 0 = 0 then replicate (n + 1) 0 else t.headD 0 :: strncpy n t.tail

def namecmp (s t : List UInt8) : ℤ := strncmp DIRSIZ s t

/-- The characters among the first `n` that come before a NUL. -/
def chars : ℕ → List UInt8 → List UInt8
  | 0, _ => []
  | n + 1, s => if s.headD 0 = 0 then [] else s.headD 0 :: chars n s.tail

/-- What counts of a name. -/
def key (s : List UInt8) : List UInt8 := chars DIRSIZ s

lemma strncmp_eq_zero (n : ℕ) (p q : List UInt8) : strncmp n p q = 0 ↔ chars n p = chars n q := by
  induction n generalizing p q with
  | zero => simp [strncmp, chars]
  | succ n ih =>
    simp only [strncmp, chars]
    generalize p.headD 0 = a
    generalize q.headD 0 = b
    have hsub : (a.toNat : ℤ) - b.toNat = 0 ↔ a = b := by
      rw [← UInt8.toNat_inj]
      omega
    by_cases ha : a = 0
    · subst ha
      rw [if_neg (fun hc => hc.1 rfl), hsub, if_pos rfl]
      split_ifs with hb
      · simp [hb]
      · simp [Ne.symm hb]
    · by_cases hab : a = b
      · subst hab
        rw [if_pos ⟨ha, rfl⟩, ih, if_neg ha, if_neg ha]
        simp
      · rw [if_neg (fun hc => hab hc.2), hsub, if_neg ha]
        split_ifs with hb
        · simp [hab]
        · simp [hab]

lemma namecmp_eq_zero (s t : List UInt8) : namecmp s t = 0 ↔ key s = key t :=
  strncmp_eq_zero DIRSIZ s t

lemma chars_replicate (n m : ℕ) : chars n (replicate m 0) = [] := by
  cases n with
  | zero => rfl
  | succ n =>
    rw [chars, if_pos]
    cases m <;> rfl

lemma chars_strncpy (n : ℕ) (t : List UInt8) : chars n (strncpy n t) = chars n t := by
  induction n generalizing t with
  | zero => rfl
  | succ n ih =>
    rw [strncpy]
    by_cases ht : t.headD 0 = 0
    · rw [if_pos ht, chars_replicate, chars, if_pos ht]
    · rw [if_neg ht, chars, chars, headD_cons, tail_cons, ih, if_neg ht]

lemma key_strncpy (t : List UInt8) : key (strncpy DIRSIZ t) = key t := chars_strncpy DIRSIZ t

lemma length_strncpy (n : ℕ) (t : List UInt8) : (strncpy n t).length = n := by
  induction n generalizing t with
  | zero => rfl
  | succ n ih =>
    rw [strncpy]
    split_ifs
    · exact length_replicate ..
    · rw [length_cons, ih]

/-! ## Entries -/

/-- `struct dirent`. -/
structure Dirent where
  inum : ℕ
  name : List UInt8
  deriving DecidableEq

namespace Dirent

def ofBytes (b : List UInt8) : Dirent := ⟨word16 (fun j => b.getD j 0) 0, b.drop 2⟩

/-- The bytes of an entry; the inode number is cut to a `ushort`. -/
def toBytes (de : Dirent) : List UInt8 := byteOf de.inum 0 :: byteOf de.inum 1 :: de.name

lemma ofBytes_toBytes {de : Dirent} (h : de.inum < 2 ^ 16) : ofBytes de.toBytes = de := by
  have hinum : word16 (fun j => de.toBytes.getD j 0) 0 = de.inum := by
    refine word16_of_bytes h fun j hj => ?_
    match j, hj with
    | 0, _ => rfl
    | 1, _ => rfl
  rw [ofBytes, hinum]
  rfl

/-- The entry that `dirlookup` looks for. -/
def Matches (name : List UInt8) (de : Dirent) : Prop := de.inum ≠ 0 ∧ namecmp name de.name = 0

instance (name : List UInt8) (de : Dirent) : Decidable (de.Matches name) :=
  inferInstanceAs (Decidable (_ ∧ _))

end Dirent

/-- `sizeof(struct dirent)`. -/
abbrev DE : ℕ := 16

/-- The entries in the content of a directory. -/
def entries (l : List UInt8) : List Dirent :=
  (range (l.length / DE)).map fun e => .ofBytes ((l.drop (DE * e)).take DE)

/-- Entry `e` is replaced, or a new one is added at the end. -/
def putEntry (es : List Dirent) (e : ℕ) (de : Dirent) : List Dirent :=
  if e < es.length then es.set e de else es ++ [de]

/-! ## The functions -/

namespace Fs

variable (sb : Superblock)

/-- The loop over the entries from `off` on: the first entry with `stop`, and where it is. -/
def scan (dp : ℕ) (stop : Dirent → Bool) (err : FsPanic) : ℕ → ℕ → FsProg (Option Dirent × ℕ)
  | 0, off => return (none, off)
  | fuel + 1, off => do
      let s ← get
      if off < (s.ino dp).size then
        let (r, out) ← readi sb dp (fun _ => true) off DE
        if r ≠ DE then throw err
        else if stop (.ofBytes out) then return (some (.ofBytes out), off)
        else scan dp stop err fuel (off + DE)
      else return (none, off)

/-- `dirlookup`: the inode number, and the offset for `*poff`. -/
def dirlookup (dp : ℕ) (name : List UInt8) : FsProg (Option (ℕ × ℕ)) := do
  let s ← get
  if (s.ino dp).type ≠ T_DIR then throw .dirlookupNotDir
  else
    let (de, off) ← scan sb dp (fun de => decide (de.Matches name)) .dirlookupRead (s.ino dp).size 0
    return de.map fun de => (de.inum, off)

def dirlink (dp : ℕ) (name : List UInt8) (inum : ℕ) : FsProg ℤ := do
  match ← dirlookup sb dp name with
  | some _ => return -1
  | none =>
    let s ← get
    let (_, off) ← scan sb dp (fun de => decide (de.inum = 0)) .dirlinkRead (s.ino dp).size 0
    let de : Dirent := ⟨inum, strncpy DIRSIZ name⟩
    let r ← writei sb dp ⟨fun j => de.toBytes.getD j 0, fun _ => none⟩ off DE
    return if r ≠ DE then -1 else 0

def isdirempty (dp : ℕ) : FsProg Bool := do
  let s ← get
  let (de, _) ← scan sb dp (fun de => decide (de.inum ≠ 0)) .isdiremptyReadi (s.ino dp).size
    (2 * DE)
  return de.isNone

end Fs

/-! ## Their effect -/

lemma length_entries (l : List UInt8) : (entries l).length = l.length / DE := by simp [entries]

lemma entries_getElem? {l : List UInt8} {e : ℕ} (he : e < l.length / DE) :
    (entries l)[e]? = some (.ofBytes ((l.drop (DE * e)).take DE)) := by
  simp [entries, he]

lemma entries_overwrite {l : List UInt8} {e : ℕ} {de : Dirent} (hl : DE ∣ l.length)
    (he : DE * e ≤ l.length) (hde : de.inum < 2 ^ 16) (hname : de.name.length = DIRSIZ) :
    entries (overwrite l (DE * e) DE fun j => de.toBytes.getD j 0) = putEntry (entries l) e de := by
  obtain ⟨m, hm⟩ := hl
  have hlen : (overwrite l (DE * e) DE fun j => de.toBytes.getD j 0).length =
      max l.length (DE * e + DE) := by
    simp only [overwrite, length_append, length_take, length_drop, length_map, length_range]
    omega
  have hbytes : ((range DE).map fun j => de.toBytes.getD j 0) = de.toBytes := by
    refine ext_getElem (by simp [Dirent.toBytes, hname]) fun j h1 h2 => ?_
    simp [getD_eq_getElem?_getD, getElem?_eq_getElem h2]
  -- the bytes of entry `j` are new for `j = e` and old otherwise
  have hslice : ∀ j, j ≤ m → (j < m ∨ j = e) → (((overwrite l (DE * e) DE fun j =>
      de.toBytes.getD j 0).drop (DE * j)).take DE) =
        if j = e then de.toBytes else (l.drop (DE * j)).take DE := by
    intro j hj hje
    rw [overwrite, hbytes]
    have h16 : de.toBytes.length = DE := by simp [Dirent.toBytes, hname]
    split_ifs with h
    · subst h
      rw [append_assoc, drop_append_of_le_length (by simp; omega),
        drop_of_length_le (by simp), nil_append, ← h16, take_left]
    · rcases Nat.lt_or_gt_of_ne h with hlt | hgt
      · have hle : DE * j + DE ≤ DE * e := by
          simp only [DE] at *
          omega
        rw [append_assoc, drop_append_of_le_length (by simp; omega),
          take_append_of_le_length (by simp; omega), drop_take, take_take]
        congr 1
        omega
      · have hge : DE * e + DE ≤ DE * j := by
          simp only [DE] at *
          omega
        rw [drop_append, drop_of_length_le (by simp [h16]; omega), nil_append, drop_drop]
        congr 2
        simp [h16]
        omega
  refine ext_getElem? fun j => ?_
  by_cases hj : j < (max l.length (DE * e + DE)) / DE
  · rw [entries_getElem? (by rw [hlen]; exact hj)]
    have hjm : j < m ∨ j = e := by
      simp only [DE] at *
      omega
    have hem : e ≤ m := by
      simp only [DE] at *
      omega
    rw [hslice j (by omega) hjm, putEntry, length_entries]
    have hm' : l.length / DE = m := by
      simp only [DE] at *
      omega
    rw [hm']
    split_ifs with h1 h2 h2
    · rw [Dirent.ofBytes_toBytes hde, h1, getElem?_set_self (by rw [length_entries]; omega)]
    · rw [Dirent.ofBytes_toBytes hde, h1, getElem?_append_right (by rw [length_entries]; omega),
        length_entries, hm', show e - m = 0 by omega]
      rfl
    · rw [getElem?_set_ne (Ne.symm h1), entries_getElem? (by omega)]
    · rw [getElem?_append_left (by rw [length_entries]; omega), entries_getElem? (by omega)]
  · rw [getElem?_eq_none (by rw [length_entries, hlen]; omega), putEntry, length_entries]
    symm
    split_ifs with h1
    · refine getElem?_eq_none ?_
      rw [length_set, length_entries]
      simp only [DE] at *
      omega
    · refine getElem?_eq_none ?_
      rw [length_append, length_entries, length_singleton]
      simp only [DE] at *
      omega

namespace FsState

variable {sb : Superblock} {s t : FsState} {dp i e inum : ℕ} {name : List UInt8}
  {r : Option Dirent × ℕ} {es : List Dirent}

/-- The entries of a directory. -/
def dir (sb : Superblock) (s : FsState) (i : ℕ) : List Dirent := entries (s.content sb i)

lemma length_dir : (s.dir sb i).length = (s.ino i).size / DE := by
  rw [dir, length_entries, length_content]

/-- Where a scan that starts at entry `e` stops. -/
inductive StopsAt (es : List Dirent) (stop : Dirent → Bool) (e : ℕ) : Option Dirent × ℕ → Prop where
  | found {k : ℕ} {de : Dirent} (hk : e ≤ k) (hde : es[k]? = some de) (hstop : stop de = true)
      (hfirst : ∀ j, e ≤ j → j < k → ∀ d, es[j]? = some d → stop d = false) :
      StopsAt es stop e (some de, DE * k)
  | ran (hnone : ∀ j, e ≤ j → ∀ d, es[j]? = some d → stop d = false) :
      StopsAt es stop e (none, DE * max e es.length)

lemma StopsAt.skip {stop : Dirent → Bool} {d : Dirent}
    (hd : es[e]? = some d) (hstop : stop d = false) (h : StopsAt es stop (e + 1) r) :
    StopsAt es stop e r := by
  have hlt : e < es.length := (List.getElem?_eq_some_iff.mp hd).1
  -- every entry from `e` on is the entry `e` or one behind it
  have hcase : ∀ {P : ℕ → Prop}, (∀ j, e + 1 ≤ j → P j) → P e → ∀ j, e ≤ j → P j := by
    intro P hP he j hj
    rcases Nat.eq_or_lt_of_le hj with rfl | hj
    · exact he
    · exact hP j hj
  have he : ∀ d', es[e]? = some d' → stop d' = false := by
    intro d' hd'
    rw [hd] at hd'
    rw [← Option.some.inj hd']
    exact hstop
  cases h with
  | found hk hde hs hfirst =>
    exact .found (by omega) hde hs fun j => hcase (fun j hj => hfirst j hj) (fun _ => he) j
  | ran hnone =>
    have hmax : max (e + 1) es.length = max e es.length := by omega
    rw [hmax]
    exact .ran fun j => hcase hnone he j

lemma scan_spec (hsb : sb.WF) (h : s.Consistent sb) (hi : dp < sb.ninodes)
    (h16 : DE ∣ (s.ino dp).size) (stop : Dirent → Bool) (err : FsPanic) :
    ∀ fuel e : ℕ, (s.ino dp).size ≤ DE * (e + fuel) → wp (Fs.scan sb dp stop err fuel (DE * e)) s
        (fun r t => t = s ∧ StopsAt (s.dir sb dp) stop e r) fun _ => False := by
  have hlen : (s.ino dp).size = DE * (s.dir sb dp).length := by
    rw [length_dir, Nat.mul_div_cancel' h16]
  -- behind the last entry
  have hend : ∀ e, ¬ DE * e < (s.ino dp).size → StopsAt (s.dir sb dp) stop e (none, DE * e) := by
    intro e hge
    have hle : (s.dir sb dp).length ≤ e := by
      simp only [DE] at *
      omega
    have hran : StopsAt (s.dir sb dp) stop e (none, DE * max e (s.dir sb dp).length) := by
      refine .ran fun j hj d hd => ?_
      rw [getElem?_eq_none (by omega)] at hd
      cases hd
    rwa [max_eq_left hle] at hran
  intro fuel
  induction fuel with
  | zero =>
    intro e hfuel
    rw [Fs.scan, wp_pure]
    exact ⟨rfl, hend e (by simp only [DE] at *; omega)⟩
  | succ fuel ih =>
    intro e hfuel
    simp only [Fs.scan, wp_bind, wp_get]
    rw [wp_ite]
    refine ⟨fun hlt => ?_, fun hge => wp_pure.mpr ⟨rfl, hend e hge⟩⟩
    have hlt' : e < (s.dir sb dp).length := by
      simp only [DE] at *
      omega
    have hfit : DE * e + DE ≤ (s.ino dp).size := by
      simp only [DE] at *
      omega
    have hsize := h.size_le dp hi
    have hmax : MAXFILE * BSIZE < 2 ^ 31 := by norm_num
    refine (readi_spec hsb h hi (fun _ => true) (by omega) (by norm_num)).bind ?_
    rintro ⟨r, out⟩ t ⟨rfl, hr⟩
    obtain ⟨⟨m, -, hm⟩, -⟩ | ⟨-, hr, hout⟩ := hr
    · cases hm
    simp only at hr hout
    have hgood : ¬ (DE * e > (t.ino dp).size ∨ DE * e + DE ≥ 2 ^ 32) := by omega
    rw [if_neg hgood] at hout
    have hoss : (t.dir sb dp)[e]? = some (.ofBytes out) := by
      rw [dir, entries_getElem? (by rw [← length_entries]; exact hlt'), ← hout]
    have hlen16 : out.length = DE := by
      rw [hout, length_take, length_drop, length_content]
      omega
    simp only
    rw [hr, hlen16, if_neg (by simp), wp_ite]
    refine ⟨fun hs => wp_pure.mpr ⟨rfl, ?_⟩, fun hs => ?_⟩
    · exact .found le_rfl hoss hs fun j h1 h2 => by omega
    · rw [show DE * e + DE = DE * (e + 1) by ring]
      exact (ih _ (by rw [show e + 1 + fuel = e + (fuel + 1) by omega]; exact hfuel)).post
        fun r u hu => ⟨hu.1, hu.2.skip hoss (by simpa using hs)⟩

/-! ## Lookups -/

/-- A directory as a map: the inode number of a name, 0 if there is none. -/
def lookup (es : List Dirent) (name : List UInt8) : ℕ :=
  ((es.find? fun de => decide (de.Matches name)).map (·.inum)).getD 0

lemma lookup_of_stops (h : StopsAt es (fun de => decide (de.Matches name)) 0 r) :
    es.find? (fun de => decide (de.Matches name)) = r.1 := by
  cases h with
  | @found k de hk hde hstop hfirst =>
    obtain ⟨hlt, hget⟩ := List.getElem?_eq_some_iff.mp hde
    refine find?_eq_some_iff_getElem.mpr ⟨hstop, k, hlt, hget, fun j hj => ?_⟩
    rw [hfirst j (Nat.zero_le j) hj _ (getElem?_eq_getElem (hj.trans hlt))]
    rfl
  | ran hnone =>
    refine find?_eq_none.mpr fun d hd => ?_
    obtain ⟨j, hlt, rfl⟩ := mem_iff_getElem.mp hd
    rw [hnone j (Nat.zero_le j) _ (getElem?_eq_getElem hlt)]
    exact Bool.false_ne_true

/-- What `dirlookup` returns: the match and its offset. -/
structure Found (es : List Dirent) (name : List UInt8) (r : Option (ℕ × ℕ)) : Prop where
  inum : (r.map (·.1)).getD 0 = lookup es name
  none_iff : r = none ↔ lookup es name = 0
  off : ∀ x, r = some x → ∃ k de, x = (de.inum, DE * k) ∧ es[k]? = some de ∧ de.Matches name

lemma dirlookup_spec (name : List UInt8) (hsb : sb.WF) (h : s.Consistent sb) (hi : dp < sb.ninodes)
    (h16 : DE ∣ (s.ino dp).size) (hdir : (s.ino dp).type = T_DIR) :
    wp (Fs.dirlookup sb dp name) s (fun r t => t = s ∧ Found (s.dir sb dp) name r)
      fun _ => False := by
  simp only [Fs.dirlookup, wp_bind, wp_get]
  rw [wp_ite]
  refine ⟨fun hne => absurd hdir hne, fun _ => ?_⟩
  rw [wp_bind]
  have hscan := scan_spec hsb h hi h16 (fun de => decide (de.Matches name)) .dirlookupRead
    (s.ino dp).size 0 (by simp only [DE]; omega)
  rw [Nat.mul_zero] at hscan
  refine hscan.post ?_
  rintro r t ⟨rfl, hstops⟩
  have hfind := lookup_of_stops hstops
  rw [wp_pure]
  refine ⟨rfl, ?_⟩
  cases hstops with
  | @found k de hk hde hstop hfirst =>
    have hm : de.Matches name := by simpa using hstop
    have hval : lookup (t.dir sb dp) name = de.inum := by rw [lookup, hfind]; rfl
    refine ⟨hval.symm, ?_, fun x hx => ⟨k, de, (Option.some.inj hx).symm, hde, hm⟩⟩
    rw [hval]
    exact ⟨fun hx => (by cases hx), fun h0 => absurd h0 hm.1⟩
  | ran hnone =>
    have hval : lookup (t.dir sb dp) name = 0 := by rw [lookup, hfind]; rfl
    exact ⟨hval.symm, ⟨fun _ => hval, fun _ => rfl⟩, fun x hx => (by cases hx)⟩

lemma isdirempty_spec (hsb : sb.WF) (h : s.Consistent sb) (hi : dp < sb.ninodes)
    (h16 : DE ∣ (s.ino dp).size) :
    wp (Fs.isdirempty sb dp) s (fun r t => t = s ∧
      (r = true ↔ ∀ j, 2 ≤ j → ∀ d, (s.dir sb dp)[j]? = some d → d.inum = 0)) fun _ => False := by
  simp only [Fs.isdirempty, wp_bind, wp_get]
  have hscan := scan_spec hsb h hi h16 (fun de => decide (de.inum ≠ 0)) .isdiremptyReadi
    (s.ino dp).size 2 (by simp only [DE]; omega)
  rw [Nat.mul_comm DE 2] at hscan
  refine hscan.post ?_
  rintro r t ⟨rfl, hstops⟩
  rw [wp_pure]
  refine ⟨rfl, ?_⟩
  cases hstops with
  | @found k de hk hde hstop hfirst =>
    refine ⟨fun hx => (by cases hx), fun hall => ?_⟩
    have := hall k hk de hde
    simp [this] at hstop
  | ran hnone =>
    refine ⟨fun _ j hj d hd => ?_, fun _ => rfl⟩
    simpa using hnone j hj d hd

/-! ## `dirlink` -/

/-- Only the content of one file, its size and its blocks change. -/
structure Touches (sb : Superblock) (s t : FsState) (i : ℕ) : Prop where
  consistent : t.Consistent sb
  synced : s.Synced sb → t.Synced sb
  fields : t.ino i = { s.ino i with size := (t.ino i).size, addrs := (t.ino i).addrs }
  ino : ∀ j, j ≠ i → t.ino j = s.ino j
  content : ∀ j, j ≠ i → t.content sb j = s.content sb j

lemma Touches.refl (h : s.Consistent sb) : Touches sb s s i :=
  ⟨h, fun hs => hs, rfl, fun _ _ => rfl, fun _ _ => rfl⟩

lemma Written.touches {off n tot : ℕ} {src : Source} (h : Written sb s t i off n src tot) :
    Touches sb s t i := by
  refine ⟨h.consistent, h.synced, h.fields, fun j hj => (h.others j hj).1, fun j hj => ?_⟩
  rw [FsState.content, FsState.content, (h.others j hj).1]
  exact map_congr_left fun p _ => (h.others j hj).2 p

lemma writeEntry_spec (hsb : sb.WF) (h : s.Consistent sb) (hi : dp < sb.ninodes)
    (h16 : DE ∣ (s.ino dp).size) (de : Dirent) (hde : de.inum < 2 ^ 16)
    (hname : de.name.length = DIRSIZ) (he : e ≤ (s.dir sb dp).length) :
    wp (Fs.writei sb dp ⟨fun j => de.toBytes.getD j 0, fun _ => none⟩ (DE * e) DE) s
      (fun r t => Touches sb s t dp ∧ DE ∣ (t.ino dp).size ∧
        (r = DE ∧ t.dir sb dp = putEntry (s.dir sb dp) e de ∨
          r ≠ DE ∧ t.content sb dp = s.content sb dp)) fun _ => False := by
  have hsize := h.size_le dp hi
  have hmax : MAXFILE * BSIZE < 2 ^ 31 := by norm_num
  rw [length_dir] at he
  have hoff : DE * e ≤ (s.ino dp).size := by
    simp only [DE] at *
    omega
  refine (writei_spec hsb h hi _ (by omega) (by norm_num)).post fun r t ht => ?_
  split_ifs at ht with href
  · obtain ⟨rfl, rfl⟩ := ht
    exact ⟨.refl h, h16, .inr ⟨by decide, rfl⟩⟩
  · obtain ⟨tot, rfl, hw⟩ := ht
    have hcontent := hw.content hoff
    have hsz := hw.size
    have hedge : tot = 0 ∨ tot = DE := by
      have hle := hw.le
      rcases hw.edge with h0 | h0 | h0
      · exact .inl h0
      · exact .inr h0
      · simp only [DE, BSIZE] at *
        omega
    refine ⟨hw.touches, ?_, ?_⟩
    · rw [hsz]
      rcases hedge with h0 | h0 <;> simp only [DE] at * <;> omega
    · rcases hedge with rfl | rfl
      · refine .inr ⟨by decide, hcontent.trans ?_⟩
        simp [overwrite]
      · refine .inl ⟨rfl, ?_⟩
        rw [dir, hcontent]
        exact entries_overwrite (by rw [length_content]; exact h16)
          (by rw [length_content]; exact hoff) hde hname

/-- What `dirlink` does to the directory: a free entry is filled, or one is added at the end; if it
returns -1, nothing has changed. -/
lemma dirlink_spec (name : List UInt8) (hsb : sb.WF) (h : s.Consistent sb) (hi : dp < sb.ninodes)
    (h16 : DE ∣ (s.ino dp).size) (hdir : (s.ino dp).type = T_DIR) (hinum : inum < 2 ^ 16) :
    wp (Fs.dirlink sb dp name inum) s (fun r t => Touches sb s t dp ∧ DE ∣ (t.ino dp).size ∧
      (r = 0 ∧ lookup (s.dir sb dp) name = 0 ∧ (∃ e, e ≤ (s.dir sb dp).length ∧
          (∀ d, (s.dir sb dp)[e]? = some d → d.inum = 0) ∧
          t.dir sb dp = putEntry (s.dir sb dp) e ⟨inum, strncpy DIRSIZ name⟩) ∨
        r = -1 ∧ t.content sb dp = s.content sb dp)) fun _ => False := by
  simp only [Fs.dirlink, wp_bind]
  refine (dirlookup_spec _ hsb h hi h16 hdir).post ?_
  rintro r t ⟨rfl, hfound⟩
  cases r with
  | some x => exact wp_pure.mpr ⟨.refl h, h16, .inr ⟨rfl, rfl⟩⟩
  | none =>
    simp only [wp_bind, wp_get]
    have hscan := scan_spec hsb h hi h16 (fun de => decide (de.inum = 0)) .dirlinkRead
      (t.ino dp).size 0 (by simp only [DE]; omega)
    rw [Nat.mul_zero] at hscan
    refine hscan.post ?_
    rintro r u ⟨rfl, hstops⟩
    -- the free entry, or the end of the directory
    obtain ⟨e, he, hfree, hr⟩ : ∃ e, e ≤ (u.dir sb dp).length ∧
        (∀ d, (u.dir sb dp)[e]? = some d → d.inum = 0) ∧ r.2 = DE * e := by
      cases hstops with
      | @found k de hk hde hstop hfirst =>
        refine ⟨k, (List.getElem?_eq_some_iff.mp hde).1.le, fun d hd => ?_, rfl⟩
        rw [hde] at hd
        rw [← Option.some.inj hd]
        simpa using hstop
      | ran hnone =>
        refine ⟨_, le_rfl, fun d hd => ?_, by rw [Nat.zero_max]⟩
        rw [getElem?_eq_none le_rfl] at hd
        cases hd
    rw [hr]
    refine (writeEntry_spec hsb h hi h16 ⟨inum, strncpy DIRSIZ name⟩ hinum
      (length_strncpy _ _) he).post fun r t ht => ?_
    rw [wp_pure]
    obtain ⟨htouch, hsz, hcase⟩ := ht
    refine ⟨htouch, hsz, ?_⟩
    rcases hcase with ⟨rfl, hput⟩ | ⟨hne, hsame⟩
    · exact .inl ⟨by simp, hfound.none_iff.mp rfl, e, he, hfree, hput⟩
    · exact .inr ⟨by rw [if_pos hne], hsame⟩

end FsState

end Xv6
