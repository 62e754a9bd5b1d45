import Xv6.Lib.DList
import Xv6.Log.GroupCommit

/-!
# The buffer cache under the log

`bio.c` together with the parts of `log.c` that use it. Processes call `bread`, change the buffers
they hold, call `log_write`, `bwrite`, `brelse`, `bpin` and `bunpin`, and begin and end operations;
the process that ends the last operation runs `commit`, which is itself a sequence of such calls
(`BioLoc` has a control point for each). One step is what happens under `bcache.lock` or `log.lock`,
or the taking or giving up of one sleep lock, or one thing done to a buffer whose lock is held.

The list of buffers is the one of the source, with its pointers; `bget` walks along it. `refcnt` is
an integer here: it counts processes and pins, of which there are far fewer than `2 ^ 32`.

Four fields are history: `stored`, the contents last stored through a buffer for each block;
`dirty`, the buffers modified by their holder and not yet given to `log_write` or `bwrite`; `pins`,
the calls of `bpin` other than that of `log_write`, which the processes undo with `bunpin`; and
`installed`, the entries of the log header whose pin `install_trans` has taken back.
-/

namespace Xv6

open Function DList

abbrev Buf := Fin NBUF

/-- A buffer, or `bcache.head`. -/
abbrev BufNode := Option Buf

/-- The panics of bio.c, and a list that does not end. -/
inductive BufPanic where
  | noBuffers
  | listLoop
  | bwrite
  | brelse
  | log (e : LogPanic)
  deriving DecidableEq

/-- `bcache`: the LRU list and the fields of the buffers. -/
structure Bcache (P : Type) where
  links : Links BufNode
  dev : Buf → ℕ
  blockno : Buf → ℕ
  valid : Buf → Bool
  refcnt : Buf → ℤ
  lock : Buf → Option P
  data : Buf → Block

namespace Bcache

variable {P : Type}

/-- `binit`: the buffers are put in front of the list one after the other. -/
def binitLinks : Links BufNode :=
  (List.finRange NBUF).foldl (fun k b => k.pushFront none (some b)) ⟨fun _ => none, fun _ => none⟩

def onBuf (f : Buf → Bool) : BufNode → Bool
  | some b => f b
  | none => false

/-- A loop over the list of buffers, in the direction of `next`. -/
def find (k : Links BufNode) (f : Buf → Bool) : Outcome BufPanic (Option Buf) :=
  match scan k.next none (onBuf f) NBUF (k.next none) with
  | some r => .next r.join
  | none => .panic .listLoop

/-- Give the buffer to another block. -/
def recycle (c : Bcache P) (b : Buf) (dev blockno : ℕ) : Bcache P :=
  { c with
    dev := update c.dev b dev
    blockno := update c.blockno b blockno
    valid := update c.valid b false
    refcnt := update c.refcnt b 1 }

def addRef (c : Bcache P) (b : Buf) (n : ℤ) : Bcache P :=
  { c with refcnt := update c.refcnt b (c.refcnt b + n) }

/-- `bget` up to its `acquiresleep`. -/
def bget (c : Bcache P) (dev blockno : ℕ) : Outcome BufPanic (Buf × Bcache P) :=
  match find c.links fun b => c.dev b = dev && c.blockno b = blockno with
  | .next (some b) => .next (b, c.addRef b 1)
  | .next none =>
    match find c.links.swap fun b => c.refcnt b = 0 with
    | .next (some b) => .next (b, c.recycle b dev blockno)
    | .next none => .panic .noBuffers
    | .disabled => .disabled
    | .panic e => .panic e
  | .disabled => .disabled
  | .panic e => .panic e

/-- The section of `brelse` under `bcache.lock`. -/
def brelseUnref (c : Bcache P) (b : Buf) : Bcache P :=
  let c := c.addRef b (-1)
  if c.refcnt b = 0 then { c with links := (c.links.unlink (some b)).pushFront none (some b) }
    else c

end Bcache

/-- What a process does on its own. -/
inductive BioCall where
  | bread (dev blockno : ℕ)
  | modify (b : Buf) (v : Block)
  | bwrite (b : Buf)
  | brelse (b : Buf)
  | bpin (b : Buf)
  | bunpin (b : Buf)
  | beginOp
  | logWrite (b : Buf)
  | endOp

/-- A process outside `commit`, or a place in `commit`: in `write_log`, in one of the two calls of
`write_head`, or in `install_trans`. -/
inductive BioLoc where
  | user
  | commit
  | logTo (tail : ℕ)
  | logFrom (tail : ℕ) (dst : Buf)
  | logCopy (tail : ℕ) (dst src : Buf)
  | logWrite (tail : ℕ) (dst src : Buf)
  | logRelFrom (tail : ℕ) (dst src : Buf)
  | logRelTo (tail : ℕ) (dst : Buf)
  | headRead (last : Bool)
  | headFill (last : Bool) (b : Buf)
  | headWrite (last : Bool) (b : Buf)
  | headRel (last : Bool) (b : Buf)
  | instLog (tail : ℕ)
  | instHome (tail : ℕ) (lbuf : Buf)
  | instCopy (tail : ℕ) (lbuf dbuf : Buf)
  | instWrite (tail : ℕ) (lbuf dbuf : Buf)
  | instUnpin (tail : ℕ) (lbuf dbuf : Buf)
  | instRelLog (tail : ℕ) (lbuf dbuf : Buf)
  | instRelHome (tail : ℕ) (dbuf : Buf)
  | clear
  | finish
  deriving DecidableEq

/-- Where the caller of `bread` goes on with the buffer. -/
def BioLoc.ret : BioLoc → Buf → BioLoc
  | .logTo tail, b => .logFrom tail b
  | .logFrom tail dst, b => .logCopy tail dst b
  | .headRead last, b => .headFill last b
  | .instLog tail, b => .instHome tail b
  | .instHome tail lbuf, b => .instCopy tail lbuf b
  | l, _ => l

/-- The next thing to do. -/
inductive BioInstr where
  | bread (dev blockno : ℕ)
  | store (b : Buf) (v : Block) (l : BioLoc)
  | bwrite (b : Buf) (l : BioLoc)
  | brelse (b : Buf) (l : BioLoc)
  | bpin (b : Buf)
  | bunpin (b : Buf)
  | unpinLogged (tail : ℕ) (b : Buf) (l : BioLoc)
  | beginOp
  | logWrite (b : Buf)
  | endOp
  | goto (l : BioLoc)
  | clear
  | finish

/-- A process is at a control point; or it has a reference from `bget` and waits for the sleep lock;
or it has got the lock, for `bread` to look at `valid`; or it has given up the lock in `brelse` and
still has to give up the reference. -/
inductive BioPc where
  | here (l : BioLoc)
  | getting (dev blockno : ℕ) (b : Buf) (l : BioLoc)
  | filling (dev blockno : ℕ) (b : Buf) (l : BioLoc)
  | dropping (b : Buf) (l : BioLoc)
  deriving DecidableEq

/-- The buffer cache with the log, the disks and the processes. -/
structure BufSys (P : Type) where
  cache : Bcache P
  disk : ℕ → ℕ → Block
  log : Log
  logDev : ℕ
  pc : P → BioPc
  stored : ℕ → ℕ → Block
  dirty : Buf → Bool
  pins : Buf → ℕ
  installed : ℕ

namespace BufSys

variable {P : Type} [DecidableEq P]

def setPc (s : BufSys P) (p : P) (c : BioPc) : BufSys P := { s with pc := update s.pc p c }

/-- `f` with the value at `(d, n)` changed. -/
def setBlock (f : ℕ → ℕ → Block) (d n : ℕ) (v : Block) : ℕ → ℕ → Block :=
  update f d (update (f d) n v)

/-- The code of `commit`, and outside it what the process calls. -/
def code (s : BufSys P) : BioLoc → BioCall → BioInstr
  | .user, .bread dev blockno => .bread dev blockno
  | .user, .modify b v => .store b v .user
  | .user, .bwrite b => .bwrite b .user
  | .user, .brelse b => .brelse b .user
  | .user, .bpin b => .bpin b
  | .user, .bunpin b => .bunpin b
  | .user, .beginOp => .beginOp
  | .user, .logWrite b => .logWrite b
  | .user, .endOp => .endOp
  | .commit, _ => .goto (if s.log.lh.n > 0 then .logTo 0 else .finish)
  | .logTo tail, _ =>
    if (tail : ℤ) < s.log.lh.n then .bread s.logDev (s.log.start + tail + 1)
    else .goto (.headRead false)
  | .logFrom tail _, _ => .bread s.logDev (s.log.lh.block tail)
  | .logCopy tail dst src, _ => .store dst (s.cache.data src) (.logWrite tail dst src)
  | .logWrite tail dst src, _ => .bwrite dst (.logRelFrom tail dst src)
  | .logRelFrom tail dst src, _ => .brelse src (.logRelTo tail dst)
  | .logRelTo tail dst, _ => .brelse dst (.logTo (tail + 1))
  | .headRead _, _ => .bread s.logDev s.log.start
  | .headFill last b, _ => .store b (putHeader (s.cache.data b) s.log.lh) (.headWrite last b)
  | .headWrite last b, _ => .bwrite b (.headRel last b)
  | .headRel last b, _ => .brelse b (if last then .finish else .instLog 0)
  | .instLog tail, _ =>
    if (tail : ℤ) < s.log.lh.n then .bread s.logDev (s.log.start + tail + 1) else .goto .clear
  | .instHome tail _, _ => .bread s.logDev (s.log.lh.block tail)
  | .instCopy tail lbuf dbuf, _ => .store dbuf (s.cache.data lbuf) (.instWrite tail lbuf dbuf)
  | .instWrite tail lbuf dbuf, _ => .bwrite dbuf (.instUnpin tail lbuf dbuf)
  | .instUnpin tail lbuf dbuf, _ => .unpinLogged tail dbuf (.instRelLog tail lbuf dbuf)
  | .instRelLog tail lbuf dbuf, _ => .brelse lbuf (.instRelHome tail dbuf)
  | .instRelHome tail dbuf, _ => .brelse dbuf (.instLog (tail + 1))
  | .clear, _ => .clear
  | .finish, _ => .finish

/-- Change the data of a buffer. -/
def store (s : BufSys P) (b : Buf) (v : Block) : BufSys P :=
  { s with
    cache := { s.cache with data := update s.cache.data b v }
    stored := setBlock s.stored (s.cache.dev b) (s.cache.blockno b) v
    dirty := update s.dirty b true }

/-- `virtio_disk_rw(b, 1)`. -/
def write (s : BufSys P) (b : Buf) : BufSys P :=
  { s with
    disk := setBlock s.disk (s.cache.dev b) (s.cache.blockno b) (s.cache.data b)
    dirty := update s.dirty b false }

/-- `if (!b->valid) { virtio_disk_rw(b, 0); b->valid = 1; }`. -/
def fill (s : BufSys P) (b : Buf) : BufSys P :=
  if s.cache.valid b then s
  else { s with cache := { s.cache with
    data := update s.cache.data b (s.disk (s.cache.dev b) (s.cache.blockno b))
    valid := update s.cache.valid b true } }

/-- The lock of the buffer. -/
def setLock (s : BufSys P) (b : Buf) (o : Option P) : BufSys P :=
  { s with cache := { s.cache with lock := update s.cache.lock b o } }

/-- `releasesleep(&b->lock)`. -/
def releaseLock (s : BufSys P) (b : Buf) : BufSys P :=
  { s.setLock b none with dirty := update s.dirty b false }

/-- `log_write`; it looks at the block number of the buffer only. -/
def logWrite (s : BufSys P) (b : Buf) : Outcome BufPanic (BufSys P) :=
  if s.log.lh.n ≥ LOGBLOCKS then .panic (.log .tooBigATransaction)
  else if s.log.outstanding < 1 then .panic (.log .logWriteOutsideOfTrans)
  else .next { s with
    log := { s.log with lh := LogSys.logAbsorb s.log.lh (s.cache.blockno b) }
    cache := if (LogSys.logSlot s.log.lh (s.cache.blockno b) : ℤ) = s.log.lh.n then
      s.cache.addRef b 1 else s.cache
    dirty := update s.dirty b false }

/-- One instruction of process `p`, which is at `l`. -/
def perform (s : BufSys P) (p : P) (l : BioLoc) : BioInstr → Outcome BufPanic (BufSys P)
  | .bread dev blockno =>
    match s.cache.bget dev blockno with
    | .next (b, c) => .next ({ s with cache := c }.setPc p (.getting dev blockno b l))
    | .disabled => .disabled
    | .panic e => .panic e
  | .store b v l' =>
    if s.cache.lock b = some p then .next ((s.store b v).setPc p (.here l')) else .disabled
  | .bwrite b l' =>
    if s.cache.lock b = some p then .next ((s.write b).setPc p (.here l')) else .panic .bwrite
  | .brelse b l' =>
    if s.cache.lock b = some p then .next ((s.releaseLock b).setPc p (.dropping b l'))
    else .panic .brelse
  | .bpin b =>
    if s.cache.lock b = some p then
      .next { s with cache := s.cache.addRef b 1, pins := update s.pins b (s.pins b + 1) }
    else .disabled
  | .bunpin b =>
    if 0 < s.pins b then
      .next { s with
        cache := s.cache.addRef b (-1), pins := update s.pins b (s.pins b - 1) }
    else .disabled
  | .unpinLogged tail b l' =>
    .next ({ s with cache := s.cache.addRef b (-1), installed := tail + 1 }.setPc p (.here l'))
  | .beginOp =>
    if s.log.committing ∨ s.log.lh.n + (s.log.outstanding + 1) * MAXOPBLOCKS > LOGBLOCKS then
      .disabled
    else .next { s with log := { s.log with outstanding := s.log.outstanding + 1 } }
  | .logWrite b => if s.cache.lock b = some p then s.logWrite b else .disabled
  | .endOp =>
    if s.log.committing then .panic (.log .logCommitting)
    else if s.log.outstanding - 1 = 0 then
      .next ({ s with log := { s.log with
        outstanding := s.log.outstanding - 1, committing := true } }.setPc p (.here .commit))
    else .next { s with log := { s.log with outstanding := s.log.outstanding - 1 } }
  | .goto l' => .next (s.setPc p (.here l'))
  | .clear => .next ({ s with log := s.log.clear, installed := 0 }.setPc p (.here (.headRead true)))
  | .finish =>
    .next ({ s with log := { s.log with
      committing := false, ncommit := s.log.ncommit + 1 } }.setPc p (.here .user))

/-- One step of process `p`; outside `commit` it calls `x`. -/
def step (s : BufSys P) : P × BioCall → Outcome BufPanic (BufSys P)
  | (p, x) =>
    match s.pc p with
    | .here l => s.perform p l (s.code l x)
    | .getting dev blockno b l =>
      if s.cache.lock b = none then
        .next ((s.setLock b (some p)).setPc p (.filling dev blockno b l))
      else .disabled
    | .filling _ _ b l => .next ((s.fill b).setPc p (.here (l.ret b)))
    | .dropping b l =>
      .next ({ s with cache := s.cache.brelseUnref b }.setPc p (.here l))

/-- The block has been logged and is not installed yet. -/
def Logged (s : BufSys P) (dev blockno : ℕ) : Prop :=
  dev = s.logDev ∧ ∃ i, s.installed ≤ i ∧ (i : ℤ) < s.log.lh.n ∧ s.log.lh.block i = blockno

/-- The rules for the callers: they use devices other than 0, `log_write` is for buffers of the
log's device, and what a process has modified it gives to `log_write` or `bwrite` before `brelse`,
unless the block is in the log anyway. -/
def Allowed (s : BufSys P) : P × BioCall → Prop
  | (p, x) =>
    s.pc p = .here .user → match x with
      | .bread dev _ => dev ≠ 0
      | .logWrite b => s.cache.dev b = s.logDev
      | .brelse b => s.dirty b = true → s.Logged (s.cache.dev b) (s.cache.blockno b)
      | _ => True

/-- The system after boot: the log is empty, nobody uses a buffer, and the buffers that are valid
have the contents of the disk. -/
structure Initial (s : BufSys P) : Prop where
  list : ∃ l : List Buf, Circ s.cache.links none (l.map some) ∧ ∀ b, b ∈ l
  unused : ∀ b, s.cache.refcnt b = 0 ∧ s.cache.lock b = none ∧ s.pins b = 0 ∧ s.dirty b = false
  valid : ∀ b, s.cache.valid b = true → s.cache.dev b ≠ 0 ∧
    s.cache.data b = s.disk (s.cache.dev b) (s.cache.blockno b)
  unique : ∀ b b', s.cache.dev b ≠ 0 → s.cache.dev b = s.cache.dev b' →
    s.cache.blockno b = s.cache.blockno b' → b = b'
  pc : ∀ p, s.pc p = .here .user
  log : s.log.lh.n = 0 ∧ s.log.outstanding = 0 ∧ s.log.committing = false
  logDev : s.logDev ≠ 0
  stored : s.stored = s.disk
  installed : s.installed = 0

/-- A process has a reference to the buffer: it holds it, or waits for it, or is releasing it. -/
def Uses (s : BufSys P) (p : P) (b : Buf) : Prop :=
  s.cache.lock b = some p ∨ match s.pc p with
    | .here _ => False
    | .getting _ _ b' _ => b' = b
    | .filling _ _ b' _ => b' = b
    | .dropping b' _ => b' = b

end BufSys

end Xv6
