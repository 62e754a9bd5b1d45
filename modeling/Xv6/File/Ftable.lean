import Xv6.Lib.Count
import Xv6.Lib.Prog
import Xv6.Lib.Steps
import Xv6.Param

/-!
# The file table

`file.c` and the calls that create and drop references to open files: `sys_open`, `sys_dup`,
`sys_pipe` and `sys_close`, and the descriptor tables in `kfork` and `kexit`. A call runs to its
end; whatever can fail in it (the lookup of the path, `kalloc`, `copyout`, the rest of `kfork`) is
an argument.

A pipe is named by the `kalloc` that made its page, so that a page which is used again is another
pipe; `freed` counts the calls of `kfree` for it. Of a pipe only the two open flags matter here.
Dropping the inode of a file is the business of the inode layer and left out.
-/

namespace Xv6

open Function

/-- An entry of `ftable.file`. -/
abbrev FileId := Fin NFILE

/-- The type of a `struct file`. -/
inductive FdType where
  | none
  | pipe
  | inode
  | device
  deriving DecidableEq

/-- `struct file`. -/
structure FileEnt where
  type : FdType
  ref : ℤ
  readable : Bool
  writable : Bool
  pipe : ℕ
  ip : ℕ
  off : ℕ
  major : ℤ

/-- The open flags of `struct pipe`. -/
structure PipeEnds where
  readopen : Bool
  writeopen : Bool

/-- The flag of one end. -/
def PipeEnds.isOpen (pi : PipeEnds) (writable : Bool) : Bool :=
  if writable then pi.writeopen else pi.readopen

/-- `ftable`, the `ofile` tables and the pipes. -/
structure FileSys (P : Type) where
  file : FileId → FileEnt
  ofile : P → ℕ → Option FileId
  alive : P → Bool
  pipe : ℕ → PipeEnds
  npipe : ℕ
  freed : ℕ → ℕ

/-- The panics of file.c. -/
inductive FilePanic where
  | filedup
  | fileclose
  deriving DecidableEq

/-- What `namei` or `create` found, and the mode of `open`. -/
structure OpenArgs where
  ip : ℕ
  device : Bool
  major : ℤ
  readable : Bool
  writable : Bool

namespace FileSys

variable {P : Type} [DecidableEq P]

abbrev FileProg (P : Type) (α : Type) := Prog (FileSys P) FilePanic α

def setFile (s : FileSys P) (f : FileId) (e : FileEnt) : FileSys P :=
  { s with file := update s.file f e }

def setOfile (s : FileSys P) (p : P) (fd : ℕ) (o : Option FileId) : FileSys P :=
  { s with ofile := update s.ofile p (update (s.ofile p) fd o) }

def filealloc : FileProg P (Option FileId) := do
  let s ← get
  match (List.finRange NFILE).find? fun f => (s.file f).ref = 0 with
  | some f =>
    set (s.setFile f { s.file f with ref := 1 })
    return some f
  | none => return none

def filedup (f : FileId) : FileProg P Unit := do
  let s ← get
  if (s.file f).ref < 1 then throw .filedup
  else set (s.setFile f { s.file f with ref := (s.file f).ref + 1 })

/-- `pipeclose`; a pipe with both ends closed is given to `kfree`. -/
def pipeclose (s : FileSys P) (k : ℕ) (writable : Bool) : FileSys P :=
  let pi := if writable then { s.pipe k with writeopen := false }
    else { s.pipe k with readopen := false }
  let s := { s with pipe := update s.pipe k pi }
  if pi.readopen = false ∧ pi.writeopen = false then
    { s with freed := update s.freed k (s.freed k + 1) }
  else s

def fileclose (f : FileId) : FileProg P Unit := do
  let s ← get
  if (s.file f).ref < 1 then throw .fileclose
  else if (s.file f).ref - 1 > 0 then
    set (s.setFile f { s.file f with ref := (s.file f).ref - 1 })
  else
    let ff := s.file f
    set (s.setFile f { ff with ref := 0, type := .none })
    if ff.type = .pipe then modify fun s => s.pipeclose ff.pipe ff.writable

def fdalloc (p : P) (f : FileId) : FileProg P (Option ℕ) := do
  let s ← get
  match (List.range NOFILE).find? fun fd => s.ofile p fd = none with
  | some fd =>
    set (s.setOfile p fd (some f))
    return some fd
  | none => return none

/-- `argfd`. -/
def argfd (s : FileSys P) (p : P) (fd : ℤ) : Option (ℕ × FileId) :=
  if fd < 0 ∨ fd ≥ NOFILE then none else (s.ofile p fd.toNat).map fun f => (fd.toNat, f)

def sysDup (p : P) (fd : ℤ) : FileProg P ℤ := do
  match (← get).argfd p fd with
  | none => return -1
  | some (_, f) =>
    match ← fdalloc p f with
    | none => return -1
    | some fd =>
      filedup f
      return fd

def sysClose (p : P) (fd : ℤ) : FileProg P ℤ := do
  match (← get).argfd p fd with
  | none => return -1
  | some (fd, f) =>
    modify fun s => s.setOfile p fd none
    fileclose f
    return 0

/-- `sys_open` from the point where it has its inode, if it gets one. -/
def sysOpen (p : P) : Option OpenArgs → FileProg P ℤ
  | none => return -1
  | some a => do
      match ← filealloc with
      | none => return -1
      | some f =>
        match ← fdalloc p f with
        | none =>
          fileclose f
          return -1
        | some fd =>
          modify fun s => s.setFile f { s.file f with
            type := if a.device then .device else .inode
            major := if a.device then a.major else (s.file f).major
            off := if a.device then (s.file f).off else 0
            ip := a.ip
            readable := a.readable
            writable := a.writable }
          return fd

/-- The two ends of a new pipe. -/
def newPipe (s : FileSys P) (f0 f1 : FileId) : FileSys P :=
  let k := s.npipe
  let s := { s with npipe := k + 1, pipe := update s.pipe k ⟨true, true⟩ }
  let s := s.setFile f0
    { s.file f0 with type := .pipe, readable := true, writable := false, pipe := k }
  s.setFile f1 { s.file f1 with type := .pipe, readable := false, writable := true, pipe := k }

/-- `pipealloc`; `kalloc` says whether there is a page. -/
def pipealloc (kalloc : Bool) : FileProg P (Option (FileId × FileId)) := do
  match ← filealloc with
  | none => return none
  | some f0 =>
    match ← filealloc with
    | none =>
      fileclose f0
      return none
    | some f1 =>
      if kalloc then
        modify fun s => s.newPipe f0 f1
        return some (f0, f1)
      else
        fileclose f0
        fileclose f1
        return none

/-- `sys_pipe`; `copyout` says whether both descriptors could be copied out. -/
def sysPipe (p : P) (kalloc copyout : Bool) : FileProg P ℤ := do
  match ← pipealloc kalloc with
  | none => return -1
  | some (rf, wf) =>
    match ← fdalloc p rf with
    | none =>
      fileclose rf
      fileclose wf
      return -1
    | some fd0 =>
      match ← fdalloc p wf with
      | none =>
        modify fun s => s.setOfile p fd0 none
        fileclose rf
        fileclose wf
        return -1
      | some fd1 =>
        if copyout then return 0
        else
          modify fun s => s.setOfile p fd0 none
          modify fun s => s.setOfile p fd1 none
          fileclose rf
          fileclose wf
          return -1

/-- `kfork`; `q` is the entry that `allocproc` has found, if it and the copying of memory succeed.
-/
def kfork (p q : P) (ok : Bool) : FileProg P ℤ := do
  if ok then
    modify fun s => { s with alive := update s.alive q true }
    Prog.forRange (fun i => do
      match (← get).ofile p i with
      | some f =>
        filedup f
        modify fun s => s.setOfile q i (some f)
      | none => return ()) 0 NOFILE
    return 0
  else return -1

def kexit (p : P) : FileProg P ℤ := do
  Prog.forRange (fun fd => do
    match (← get).ofile p fd with
    | some f =>
      fileclose f
      modify fun s => s.setOfile p fd none
    | none => return ()) 0 NOFILE
  modify fun s => { s with alive := update s.alive p false }
  return 0

/-- The calls that change the file table. -/
inductive FileCall (P : Type) where
  | open (args : Option OpenArgs)
  | dup (fd : ℤ)
  | pipe (kalloc copyout : Bool)
  | close (fd : ℤ)
  | fork (q : P) (ok : Bool)
  | exit

def call (p : P) : FileCall P → FileProg P ℤ
  | .open args => sysOpen p args
  | .dup fd => sysDup p fd
  | .pipe kalloc copyout => sysPipe p kalloc copyout
  | .close fd => sysClose p fd
  | .fork q ok => kfork p q ok
  | .exit => kexit p

/-- A call of a process; `kfork` needs an entry that nobody uses. -/
def step (s : FileSys P) : P × FileCall P → Outcome FilePanic (FileSys P)
  | (p, x) =>
    if s.alive p = false then .disabled
    else
      match x with
      | .fork q _ => if s.alive q = true then .disabled else .ofExcept (call p x s)
      | x => .ofExcept (call p x s)

/-- No open files and no pipes. -/
structure Initial (s : FileSys P) : Prop where
  file : ∀ f, (s.file f).ref = 0 ∧ (s.file f).type = .none
  ofile : ∀ p fd, s.ofile p fd = none
  npipe : s.npipe = 0
  freed : ∀ k, s.freed k = 0

end FileSys

end Xv6
