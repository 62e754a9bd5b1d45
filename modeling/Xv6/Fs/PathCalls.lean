import Xv6.File.Ftable
import Xv6.Fs.DirCalls

/-!
# The calls that take a path

`namex`, `create`, the system calls on top of them and the file part of `kexec`, as far as they
begin and end transactions, lock inodes and hold references to them. Everything that depends on the
disk, on user memory or on other processes is asked from a `World`: what a lookup finds, whether
there is a free inode, whether a directory entry can be written, the fields of an inode that has
just been locked, and whether a reference that is given back is the last one to an inode without
links. An answer may be a panic. The answers to the same question at different times need not agree.

`Held` is what a process holds. Its operations cancel, so the specification of a function says what
it leaves in terms of what it was called with: `namex` leaves one more reference (`namex_spec`),
`create` a reference and a lock (`create_spec`), a call nothing. **`calls_are_balanced`** says so
for all calls and all answers. A call that does not return has a cause in the answers (`Cause`): it
never unlocks what is not locked or gives back a reference that it does not have.
-/

namespace Xv6.PathCall

open Prog

abbrev O_RDONLY : ℕ := 0x000
abbrev O_WRONLY : ℕ := 0x001
abbrev O_RDWR : ℕ := 0x002
abbrev O_CREATE : ℕ := 0x200
abbrev O_TRUNC : ℕ := 0x400
abbrev NDEV : ℕ := 10

/-! ## What a process holds -/

/-- Transactions that have been begun and ended, the inodes that the process has locked, and its
references to inodes: those of its calls, of its working directory and of the files it opens. -/
structure Held (P : Type) where
  begun : ℕ
  ended : ℕ
  locks : Finset ℕ
  refs : ℕ → ℕ
  cwd : ℕ
  files : FileSys P

namespace Held

variable {P : Type}

def get (r : Held P) (ip : ℕ) : Held P := { r with refs := r.refs + Pi.single ip 1 }

def put (r : Held P) (ip : ℕ) : Held P := { r with refs := r.refs - Pi.single ip 1 }

def lock (r : Held P) (ip : ℕ) : Held P := { r with locks := insert ip r.locks }

def unlock (r : Held P) (ip : ℕ) : Held P := { r with locks := r.locks.erase ip }

def beginOp (r : Held P) : Held P := { r with begun := r.begun + 1 }

def endOp (r : Held P) : Held P := { r with ended := r.ended + 1 }

variable {r : Held P} {ip jp : ℕ}

@[simp] lemma put_get : (r.get ip).put ip = r := by
  simp only [put, get]
  congr 1
  funext i
  simp

lemma get_put (h : 0 < r.refs ip) : (r.put ip).get ip = r := by
  simp only [put, get]
  congr 1
  funext i
  by_cases hi : i = ip
  · subst hi
    simp only [Pi.add_apply, Pi.sub_apply, Pi.single_eq_same]
    omega
  · simp [hi]

lemma get_comm : (r.get ip).get jp = (r.get jp).get ip := by
  simp only [get, add_right_comm]

lemma unlock_lock (h : ip ∉ r.locks) : (r.lock ip).unlock ip = r := by
  rw [unlock, lock, Finset.erase_insert h]

lemma lock_comm : (r.lock ip).lock jp = (r.lock jp).lock ip := by
  simp only [lock, Finset.insert_comm]

@[simp] lemma get_lock : (r.lock ip).get jp = (r.get jp).lock ip := rfl

@[simp] lemma refs_get_self : (r.get ip).refs ip = r.refs ip + 1 := by simp [get]

@[simp] lemma refs_lock : (r.lock ip).refs = r.refs := rfl

@[simp] lemma locks_get : (r.get ip).locks = r.locks := rfl

@[simp] lemma mem_locks_lock : jp ∈ (r.lock ip).locks ↔ jp = ip ∨ jp ∈ r.locks := Finset.mem_insert

lemma refs_le_get : r.refs jp ≤ (r.get ip).refs jp := Nat.le_add_right _ _

end Held

/-! ## The world -/

/-- The fields of an inode that the calls read. -/
structure Fields where
  type : ℤ
  major : ℤ
  minor : ℤ
  nlink : ℤ

/-- A panic in a function that is not modelled here, or in a check of what it returned. -/
inductive SysPanic where
  | igetNoInodes
  | ilockNoType
  | dirlookupNotDir
  | dirlookupRead
  | dirlinkRead
  | isdiremptyReadi
  | unlinkNlink
  | unlinkWritei
  | disk
  deriving DecidableEq

/-- The outcome for one program header of `kexec`. -/
inductive Segment where
  | skipped
  | loaded
  | bad
  deriving DecidableEq

/-- A question and the type of its answer. -/
inductive Ask : Type → Type where
  | argstr : Ask (Option (List UInt8))
  | argint : Ask ℕ
  /-- Is there a slot in the table? -/
  | iget (inum : ℕ) : Ask Unit
  /-- What `ilock` finds in the inode. -/
  | fields (ip : ℕ) : Ask Fields
  /-- Is the inode valid and without links, and does nobody else have a reference? -/
  | unused (ip : ℕ) : Ask Bool
  | itrunc (ip : ℕ) : Ask Unit
  | iupdate (ip : ℕ) : Ask Unit
  /-- The number and the offset of the entry. -/
  | dirlookup (dp : ℕ) (name : List UInt8) : Ask (Option (ℕ × ℕ))
  /-- The part of `dirlink` behind the lookup. -/
  | dirwrite (dp : ℕ) (name : List UInt8) (inum : ℕ) : Ask Bool
  | ialloc (dp : ℕ) (type : ℤ) : Ask (Option ℕ)
  | otherDev (dp ip : ℕ) : Ask Bool
  | isdirempty (ip : ℕ) : Ask Bool
  /-- `writei` of an empty entry. -/
  | clear (dp off : ℕ) : Ask Bool
  /-- `phnum`, if there is an ELF header and a page table. -/
  | elf (ip : ℕ) : Ask (Option ℕ)
  | segment (ip i : ℕ) : Ask Segment
  /-- `argc`, if the part of `kexec` behind the file succeeds. -/
  | image : Ask (Option ℕ)

/-- The answers at each time. -/
abbrev World := ∀ ⦃α : Type⦄, Ask α → ℕ → Except SysPanic α

/-- How a call can go wrong. -/
inductive CallError where
  | panic (e : SysPanic)
  | ilock
  | iunlock
  /-- A reference that the process does not have. -/
  | iput
  /-- The process waits for a lock that it holds. -/
  | selfLock (ip : ℕ)
  | file (e : FilePanic)

/-- What a call has, and the inodes it has read. -/
structure CallState (P : Type) where
  tick : ℕ
  ino : ℕ → Fields
  held : Held P

abbrev CallProg (P α : Type) := Prog (CallState P) CallError α

variable {P : Type} [DecidableEq P] (w : World) (p : P)

def ask {α : Type} (q : Ask α) : CallProg P α := fun s =>
  match w q s.tick with
  | .ok a => .ok (a, { s with tick := s.tick + 1 })
  | .error e => .error (.panic e)

def onHeld (f : Held P → Held P) : CallProg P Unit :=
  modify fun s => { s with held := f s.held }

def onFiles {α : Type} (m : FileSys.FileProg P α) : CallProg P α := fun s =>
  match m s.held.files with
  | .ok (a, fs) => .ok (a, { s with held := { s.held with files := fs } })
  | .error e => .error (.file e)

def readFields (ip : ℕ) : CallProg P Fields := do
  return (← get).ino ip

def setFields (ip : ℕ) (f : Fields → Fields) : CallProg P Unit :=
  modify fun s => { s with ino := Function.update s.ino ip (f (s.ino ip)) }

/-! ## Inodes -/

def beginOp : CallProg P Unit := onHeld Held.beginOp

def endOp : CallProg P Unit := onHeld Held.endOp

def iget (inum : ℕ) : CallProg P ℕ := do
  let _ ← ask w (.iget inum)
  onHeld (·.get inum)
  return inum

def idup (ip : ℕ) : CallProg P ℕ := do
  onHeld (·.get ip)
  return ip

/-- `acquiresleep` of the lock of an inode. -/
def acquiresleep (ip : ℕ) : CallProg P Unit := do
  if ip ∈ (← get).held.locks then throw (.selfLock ip)
  else onHeld (·.lock ip)

/-- The process needs a reference of its own. -/
def ilock (ip : ℕ) : CallProg P Unit := do
  if (← get).held.refs ip < 1 then throw .ilock
  else
    acquiresleep ip
    let v ← ask w (.fields ip)
    setFields ip fun _ => v

def iunlock (ip : ℕ) : CallProg P Unit := do
  let s ← get
  if ip ∉ s.held.locks ∨ s.held.refs ip < 1 then throw .iunlock
  else onHeld (·.unlock ip)

def iput (ip : ℕ) : CallProg P Unit := do
  let s ← get
  if s.held.refs ip < 1 then throw .iput
  else
    let unused ← ask w (.unused ip)
    if s.held.refs ip = 1 ∧ unused = true then
      acquiresleep ip
      let _ ← ask w (.itrunc ip)
      setFields ip fun v => { v with type := 0 }
      let _ ← ask w (.iupdate ip)
      onHeld (·.unlock ip)
    onHeld (·.put ip)

def iunlockput (ip : ℕ) : CallProg P Unit := do
  iunlock ip
  iput w ip

/-! ## Directories -/

/-- The inode, with a reference, and the offset of the entry. -/
def dirlookup (dp : ℕ) (name : List UInt8) : CallProg P (Option (ℕ × ℕ)) := do
  match ← ask w (.dirlookup dp name) with
  | some (inum, off) =>
    let ip ← iget w inum
    return some (ip, off)
  | none => return none

def dirlink (dp : ℕ) (name : List UInt8) (inum : ℕ) : CallProg P Bool := do
  match ← dirlookup w dp name with
  | some (ip, _) =>
    iput w ip
    return false
  | none => ask w (.dirwrite dp name inum)

def ialloc (dp : ℕ) (type : ℤ) : CallProg P (Option ℕ) := do
  match ← ask w (.ialloc dp type) with
  | some inum =>
    let ip ← iget w inum
    return some ip
  | none => return none

/-- The rest of a path, behind its first element, and this element. -/
def skipelem (path : List UInt8) : Option (List UInt8 × List UInt8) :=
  match path.dropWhile (· = 47) with
  | [] => none
  | c :: s => some (((c :: s).dropWhile (· ≠ 47)).dropWhile (· = 47),
      ((c :: s).takeWhile (· ≠ 47)).take DIRSIZ)

lemma skipelem_length {path rest name : List UInt8} (h : skipelem path = some (rest, name)) :
    rest.length < path.length := by
  rw [skipelem] at h
  split at h
  · cases h
  · next c s hpath =>
    cases h
    have hc : c ≠ 47 := by
      have := List.head?_dropWhile_not (· = (47 : UInt8)) path
      rw [hpath] at this
      simpa using this
    have h1 : (c :: s).length ≤ path.length := by
      rw [← hpath]
      exact (List.dropWhile_suffix _).length_le
    have h2 := (List.dropWhile_suffix (l := (c :: s).dropWhile (· ≠ 47)) (· = 47)).length_le
    have h3 : ((c :: s).dropWhile (· ≠ 47)).length ≤ s.length := by
      rw [List.dropWhile_cons_of_pos (by simpa using hc)]
      exact (List.dropWhile_suffix _).length_le
    rw [List.length_cons] at h1
    omega

/-- The loop of `namex`, at `ip`. -/
def namexLoop (nameiparent : Bool) (path : List UInt8) (name : List UInt8) (ip : ℕ) :
    CallProg P (Option (ℕ × List UInt8)) :=
  match _h : skipelem path with
  | none =>
    if nameiparent then do
      iput w ip
      return none
    else return some (ip, name)
  | some (rest, name) => do
      ilock w ip
      let v ← readFields ip
      if v.type ≠ T_DIR then
        iunlockput w ip
        return none
      else if nameiparent ∧ rest = [] then
        iunlock ip
        return some (ip, name)
      else
        match ← dirlookup w ip name with
        | none =>
          iunlockput w ip
          return none
        | some (next, _) =>
          iunlockput w ip
          namexLoop nameiparent rest name next
termination_by path.length
decreasing_by exact skipelem_length _h

/-- The inode that a path names, or with `nameiparent` the one of its last directory and the name
in it. -/
def namex (nameiparent : Bool) (path : List UInt8) : CallProg P (Option (ℕ × List UInt8)) := do
  if path.head? = some 47 then
    let ip ← iget w ROOTINO
    namexLoop w nameiparent path [] ip
  else
    let ip ← idup (← get).held.cwd
    namexLoop w nameiparent path [] ip

def namei (path : List UInt8) : CallProg P (Option ℕ) := do
  return (← namex w false path).map (·.1)

/-! ## `create` -/

/-- The label `fail`. -/
def createFail (dp ip : ℕ) : CallProg P (Option ℕ) := do
  setFields ip fun v => { v with nlink := 0 }
  let _ ← ask w (.iupdate ip)
  iunlockput w ip
  iunlockput w dp
  return none

/-- The entries `.` and `..`. -/
def newDots (type : ℤ) (ip dp : ℕ) : CallProg P Bool :=
  if type = T_DIR then do
    if ← dirlink w ip dot ip then dirlink w ip dotdot dp else return false
  else return true

/-- `create` with a new inode. -/
def createNew (dp : ℕ) (name : List UInt8) (type major minor : ℤ) (ip : ℕ) :
    CallProg P (Option ℕ) := do
  ilock w ip
  setFields ip fun v => { v with major := major, minor := minor, nlink := 1 }
  let _ ← ask w (.iupdate ip)
  if ← newDots w type ip dp then
    if ← dirlink w dp name ip then
      if type = T_DIR then
        setFields dp fun v => { v with nlink := toShort (v.nlink + 1) }
        let _ ← ask w (.iupdate dp)
      iunlockput w dp
      return some ip
    else createFail w dp ip
  else createFail w dp ip

/-- The inode, locked and with a reference. -/
def create (path : List UInt8) (type major minor : ℤ) : CallProg P (Option ℕ) := do
  match ← namex w true path with
  | none => return none
  | some (dp, name) =>
    ilock w dp
    match ← dirlookup w dp name with
    | some (ip, _) =>
      iunlockput w dp
      ilock w ip
      let v ← readFields ip
      if type = T_FILE ∧ (v.type = T_FILE ∨ v.type = T_DEVICE) then return some ip
      else
        iunlockput w ip
        return none
    | none =>
      match ← ialloc w dp type with
      | none =>
        iunlockput w dp
        return none
      | some ip => createNew w dp name type major minor ip

/-! ## The calls -/

/-- Unlock an inode and end the call. -/
def fail (ip : ℕ) : CallProg P ℤ := do
  iunlockput w ip
  endOp
  return -1

/-- `fileclose`, with the inode of the file. -/
def fileclose (f : FileId) : CallProg P Unit := do
  let ff := (← get).held.files.file f
  onFiles (FileSys.fileclose f)
  if ff.ref ≤ 1 ∧ (ff.type = .inode ∨ ff.type = .device) then
    beginOp
    iput w ff.ip
    endOp

/-- `sys_open` with a locked inode. -/
def openInode (omode : ℕ) (ip : ℕ) : CallProg P ℤ := do
  let v ← readFields ip
  if v.type = T_DEVICE ∧ (v.major < 0 ∨ v.major ≥ NDEV) then fail w ip
  else
    match ← onFiles FileSys.filealloc with
    | none => fail w ip
    | some f =>
      match ← onFiles (FileSys.fdalloc p f) with
      | none =>
        fileclose w f
        fail w ip
      | some fd =>
        onHeld fun r => { r with files := r.files.setFile f { r.files.file f with
          type := if v.type = T_DEVICE then .device else .inode
          major := if v.type = T_DEVICE then v.major else (r.files.file f).major
          off := if v.type = T_DEVICE then (r.files.file f).off else 0
          ip := ip
          readable := omode &&& O_WRONLY = 0
          writable := omode &&& O_WRONLY ≠ 0 ∨ omode &&& O_RDWR ≠ 0 } }
        if omode &&& O_TRUNC ≠ 0 ∧ v.type = T_FILE then
          let _ ← ask w (.itrunc ip)
        iunlock ip
        endOp
        return fd

def sysOpen : CallProg P ℤ := do
  let omode ← ask w .argint
  match ← ask w .argstr with
  | none => return -1
  | some path =>
    beginOp
    if omode &&& O_CREATE ≠ 0 then
      match ← create w path T_FILE 0 0 with
      | none =>
        endOp
        return -1
      | some ip => openInode w p omode ip
    else
      match ← namei w path with
      | none =>
        endOp
        return -1
      | some ip =>
        ilock w ip
        let v ← readFields ip
        if v.type = T_DIR ∧ omode ≠ O_RDONLY then fail w ip
        else openInode w p omode ip

/-- `dp->dev != ip->dev || dirlink(dp, name, ip->inum) < 0`, negated. -/
def linkEntry (dp : ℕ) (name : List UInt8) (ip : ℕ) : CallProg P Bool := do
  if ← ask w (.otherDev dp ip) then return false else dirlink w dp name ip

/-- The label `bad` of `sys_link`. -/
def linkBad (ip : ℕ) : CallProg P ℤ := do
  ilock w ip
  setFields ip fun v => { v with nlink := toShort (v.nlink - 1) }
  let _ ← ask w (.iupdate ip)
  fail w ip

def sysLink : CallProg P ℤ := do
  match ← ask w .argstr with
  | none => return -1
  | some old =>
    match ← ask w .argstr with
    | none => return -1
    | some new =>
      beginOp
      match ← namei w old with
      | none =>
        endOp
        return -1
      | some ip =>
        ilock w ip
        let v ← readFields ip
        if v.type = T_DIR then fail w ip
        else
          setFields ip fun v => { v with nlink := toShort (v.nlink + 1) }
          let _ ← ask w (.iupdate ip)
          iunlock ip
          match ← namex w true new with
          | none => linkBad w ip
          | some (dp, name) =>
            ilock w dp
            if ← linkEntry w dp name ip then
              iunlockput w dp
              iput w ip
              endOp
              return 0
            else
              iunlockput w dp
              linkBad w ip

/-- `sys_unlink` with both inodes locked. -/
def unlinkEntry (dp ip off : ℕ) (type : ℤ) : CallProg P ℤ := do
  if ← ask w (.clear dp off) then
    if type = T_DIR then
      setFields dp fun v => { v with nlink := toShort (v.nlink - 1) }
      let _ ← ask w (.iupdate dp)
    iunlockput w dp
    setFields ip fun v => { v with nlink := toShort (v.nlink - 1) }
    let _ ← ask w (.iupdate ip)
    iunlockput w ip
    endOp
    return 0
  else throw (.panic .unlinkWritei)

def sysUnlink : CallProg P ℤ := do
  match ← ask w .argstr with
  | none => return -1
  | some path =>
    beginOp
    match ← namex w true path with
    | none =>
      endOp
      return -1
    | some (dp, name) =>
      ilock w dp
      if namecmp name dot = 0 ∨ namecmp name dotdot = 0 then fail w dp
      else
        match ← dirlookup w dp name with
        | none => fail w dp
        | some (ip, off) =>
          ilock w ip
          let v ← readFields ip
          if v.nlink < 1 then throw (.panic .unlinkNlink)
          else if v.type = T_DIR then
            if ← ask w (.isdirempty ip) then unlinkEntry w dp ip off v.type
            else
              iunlockput w ip
              fail w dp
          else unlinkEntry w dp ip off v.type

/-- `sys_mkdir` and `sys_mknod` once they have their arguments. -/
def make (path : Option (List UInt8)) (type major minor : ℤ) : CallProg P ℤ := do
  match path with
  | none =>
    endOp
    return -1
  | some path =>
    match ← create w path type major minor with
    | none =>
      endOp
      return -1
    | some ip =>
      iunlockput w ip
      endOp
      return 0

def sysMkdir : CallProg P ℤ := do
  beginOp
  let path ← ask w .argstr
  make w path T_DIR 0 0

def sysMknod : CallProg P ℤ := do
  beginOp
  let major ← ask w .argint
  let minor ← ask w .argint
  let path ← ask w .argstr
  make w path T_DEVICE (toShort major) (toShort minor)

def sysChdir : CallProg P ℤ := do
  beginOp
  match ← ask w .argstr with
  | none =>
    endOp
    return -1
  | some path =>
    match ← namei w path with
    | none =>
      endOp
      return -1
    | some ip =>
      ilock w ip
      let v ← readFields ip
      if v.type ≠ T_DIR then fail w ip
      else
        iunlock ip
        iput w (← get).held.cwd
        endOp
        onHeld fun r => { r with cwd := ip }
        return 0

/-- The loop over the program headers: are all of them in memory? -/
def loadSegments (ip : ℕ) : ℕ → ℕ → CallProg P Bool
  | _, 0 => return true
  | i, n + 1 => do
      match ← ask w (.segment ip i) with
      | .bad => return false
      | .skipped | .loaded => loadSegments ip (i + 1) n

/-- The label `bad` of `kexec`. -/
def execBad (ip : Option ℕ) : CallProg P ℤ :=
  match ip with
  | some ip => fail w ip
  | none => return -1

def kexec (path : List UInt8) : CallProg P ℤ := do
  beginOp
  match ← namei w path with
  | none =>
    endOp
    return -1
  | some ip =>
    ilock w ip
    match ← ask w (.elf ip) with
    | none => execBad w (some ip)
    | some phnum =>
      if ← loadSegments w ip 0 phnum then
        iunlockput w ip
        endOp
        match ← ask w .image with
        | some argc => return argc
        | none => execBad w none
      else execBad w (some ip)

/-- The calls that take a path. -/
inductive FsCall where
  | open
  | link
  | unlink
  | mkdir
  | mknod
  | chdir
  | exec (path : List UInt8)

def call : FsCall → CallProg P ℤ
  | .open => sysOpen w p
  | .link => sysLink w
  | .unlink => sysUnlink w
  | .mkdir => sysMkdir w
  | .mknod => sysMknod w
  | .chdir => sysChdir w
  | .exec path => kexec w path

end Xv6.PathCall
