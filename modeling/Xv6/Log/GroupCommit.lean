import Xv6.Lib.Steps
import Xv6.Log.Commit

/-!
# Group commit

Any number of processes run file system operations, each bracketed by `begin_op` and `end_op`, and
the last one to leave commits for all of them. This is the concurrent half of `log.c`: the state is
`struct log` together with the buffer cache, the disk and a control point for each process, and one
action is one section of code under `log.lock`, or one block of the commit, which runs without the
lock.

`sleep(&log, &log.lock)` leaves a process asleep until `wakeup(&log)`, or a `kkill`, makes it run
again; it then takes the lock and goes round its loop once more (`resume`). A process modifies a
buffer while it holds the buffer's sleep lock (`modify`) and gives it up after `log_write`.

Three fields are history, read by no function: `group` lists the `log_write`s since the last commit
with the operation that made them, `nextOp` numbers the operations and `ended` collects the numbers
of those whose `end_op` has run.
-/

namespace Xv6

open Function List ByteArr

/-- Where the committing process is inside `commit`. -/
inductive CommitPc where
  | enter
  | writeLog (tail : ℕ)
  | writeHead
  | install (tail : ℕ)
  | clear
  | eraseHead
  | finish
  deriving DecidableEq

/-- Where a process is with respect to the log. -/
inductive PState where
  | idle
  | beginSleep
  | beginWake
  | inOp (op : ℕ) (dirty : List ℕ)
  | commit (pc : CommitPc)
  | syncSleep (n : ℕ)
  | syncWake (n : ℕ)
  deriving DecidableEq

/-- The panics of log.c. -/
inductive LogPanic where
  | logCommitting
  | tooBigATransaction
  | logWriteOutsideOfTrans
  deriving DecidableEq

/-- One `log_write`: the operation, the block and the contents of its buffer. -/
structure LogWrite where
  op : ℕ
  blockno : ℕ
  data : Block

/-- The log, its disk and the processes that use it. -/
structure LogSys (P : Type) where
  log : Log
  cache : ℕ → Block
  disk : Disk
  holder : ℕ → Option P := fun _ => none
  proc : P → PState
  group : List LogWrite := []
  nextOp : ℕ := 0
  ended : List ℕ := []

/-- What process `p` does next. -/
inductive LogAct (P : Type) where
  | beginOp (p : P)
  | modify (p : P) (b : ℕ) (v : Block)
  | logWrite (p : P) (b : ℕ)
  | endOp (p : P)
  | commitStep (p : P)
  | sync (p : P)
  | resume (p : P)
  | kill (p : P)

variable {P : Type} [DecidableEq P]

namespace LogSys

def setProc (s : LogSys P) (p : P) (c : PState) : LogSys P :=
  { s with proc := update s.proc p c }

/-- `wakeup(&log)`. -/
def wakeup (s : LogSys P) : LogSys P :=
  { s with proc := fun p =>
      match s.proc p with
      | .beginSleep => .beginWake
      | .syncSleep n => .syncWake n
      | c => c }

/-- One round of the loop in `begin_op`. -/
def beginOp (s : LogSys P) (p : P) : LogSys P :=
  if s.log.committing then s.setProc p .beginSleep
  else if s.log.lh.n + (s.log.outstanding + 1) * MAXOPBLOCKS > LOGBLOCKS then
    s.setProc p .beginSleep
  else
    { s with
      log := { s.log with outstanding := s.log.outstanding + 1 }
      proc := update s.proc p (.inOp s.nextOp [])
      nextOp := s.nextOp + 1 }

/-- The slot `log_write` uses: the first one that already has the block, else the next free one. -/
def logSlot (lh : LogHeader) (b : ℕ) : ℕ :=
  ((range lh.n.toNat).find? fun i => lh.block i = b).getD lh.n.toNat

/-- The header after `log_write` of block `b`. -/
def logAbsorb (lh : LogHeader) (b : ℕ) : LogHeader where
  n := if (logSlot lh b : ℤ) = lh.n then lh.n + 1 else lh.n
  block := update lh.block (logSlot lh b) b

/-- `log_write`, called by `p` inside operation `op` for a buffer it holds. -/
def logWrite (s : LogSys P) (p : P) (op : ℕ) (dirty : List ℕ) (b : ℕ) :
    Outcome LogPanic (LogSys P) :=
  if s.log.lh.n ≥ LOGBLOCKS then .panic .tooBigATransaction
  else if s.log.outstanding < 1 then .panic .logWriteOutsideOfTrans
  else .next { s with
    log := { s.log with lh := logAbsorb s.log.lh b }
    holder := update s.holder b none
    proc := update s.proc p (.inOp op (dirty.filter (· ≠ b)))
    group := s.group ++ [⟨op, b, s.cache b⟩] }

/-- The first critical section of `end_op`. -/
def endOp (s : LogSys P) (p : P) (op : ℕ) : Outcome LogPanic (LogSys P) :=
  let s := { s with
    log := { s.log with outstanding := s.log.outstanding - 1 }, ended := op :: s.ended }
  if s.log.committing then .panic .logCommitting
  else if s.log.outstanding = 0 then
    .next { s with
      log := { s.log with committing := true }
      proc := update s.proc p (.commit .enter) }
  else .next ((s.setProc p .idle).wakeup)

/-- One step of `commit`, and at its end the second critical section of `end_op`. -/
def commitStep (s : LogSys P) (p : P) : CommitPc → LogSys P
  | .enter => s.setProc p (.commit (if s.log.lh.n > 0 then .writeLog 0 else .finish))
  | .writeLog tail =>
    if (tail : ℤ) < s.log.lh.n then
      { s with
        disk := update s.disk (s.log.start + tail + 1) (s.cache (s.log.lh.block tail))
        proc := update s.proc p (.commit (.writeLog (tail + 1))) }
    else s.setProc p (.commit .writeHead)
  | .writeHead =>
    { s with
      disk := update s.disk s.log.start (putHeader (s.disk s.log.start) s.log.lh)
      proc := update s.proc p (.commit (.install 0)) }
  | .install tail =>
    if (tail : ℤ) < s.log.lh.n then
      { s with
        disk := update s.disk (s.log.lh.block tail) (s.disk (s.log.start + tail + 1))
        proc := update s.proc p (.commit (.install (tail + 1))) }
    else s.setProc p (.commit .clear)
  | .clear =>
    { s with
      log := s.log.clear
      proc := update s.proc p (.commit .eraseHead)
      group := [] }
  | .eraseHead =>
    { s with
      disk := update s.disk s.log.start (putHeader (s.disk s.log.start) s.log.lh)
      proc := update s.proc p (.commit .finish) }
  | .finish =>
    ({ s with
      log := { s.log with committing := false, ncommit := s.log.ncommit + 1 }
      proc := update s.proc p .idle }).wakeup

/-- `sys_sync` up to its first `sleep` or its return. -/
def sync (s : LogSys P) (p : P) : LogSys P :=
  if s.log.committing ∨ s.log.outstanding > 0 then s.setProc p (.syncSleep (s.log.ncommit + 1))
  else s.setProc p .idle

/-- A woken `sys_sync` looks at `ncommit` again. -/
def syncLoop (s : LogSys P) (p : P) (n : ℕ) : LogSys P :=
  if s.log.ncommit < n then s.setProc p (.syncSleep n) else s.setProc p .idle

/-- One action of one process. An operation modifies home blocks only, in buffers it has locked,
and calls `end_op` once each of them has been given to `log_write`. -/
def step (s : LogSys P) : LogAct P → Outcome LogPanic (LogSys P)
  | .beginOp p =>
    match s.proc p with
    | .idle => .next (s.beginOp p)
    | _ => .disabled
  | .modify p b v =>
    match s.proc p with
    | .inOp op dirty =>
      if (s.holder b = none ∨ s.holder b = some p) ∧ ¬ InLog s.log.start b ∧ b < 2 ^ 32 then
        .next { s with
          cache := update s.cache b v
          holder := update s.holder b (some p)
          proc := update s.proc p (.inOp op (b :: dirty)) }
      else .disabled
    | _ => .disabled
  | .logWrite p b =>
    match s.proc p with
    | .inOp op dirty => if b ∈ dirty then s.logWrite p op dirty b else .disabled
    | _ => .disabled
  | .endOp p =>
    match s.proc p with
    | .inOp op [] => s.endOp p op
    | _ => .disabled
  | .commitStep p =>
    match s.proc p with
    | .commit pc => .next (s.commitStep p pc)
    | _ => .disabled
  | .sync p =>
    match s.proc p with
    | .idle => .next (s.sync p)
    | _ => .disabled
  | .resume p =>
    match s.proc p with
    | .beginWake => .next (s.beginOp p)
    | .syncWake n => .next (s.syncLoop p n)
    | _ => .disabled
  | .kill p =>
    match s.proc p with
    | .beginSleep => .next (s.setProc p .beginWake)
    | .syncSleep n => .next (s.setProc p (.syncWake n))
    | _ => .disabled

/-- The log as `initlog` leaves it, with no operation running. -/
structure Initial (s : LogSys P) : Prop where
  outstanding : s.log.outstanding = 0
  committing : s.log.committing = false
  n_eq : s.log.lh.n = 0
  idle : ∀ p, s.proc p = .idle
  group : s.group = []

end LogSys

/-! ## The invariant

What ties the counters to the processes: `outstanding` counts the processes inside an operation,
`committing` is set exactly while one process is inside `commit`, and then no operation is running.
What ties the header to the history: the header lists each block of the group once, and a block that
is not being modified right now has its last logged contents in the cache.
-/

namespace PState

/-- The operation a process is inside of. -/
def op? : PState → Option ℕ
  | .inOp op _ => some op
  | _ => none

/-- The buffers a process has modified and not yet given to `log_write`. -/
def dirty : PState → List ℕ
  | .inOp _ dirty => dirty
  | _ => []

/-- The control point of the committing process. -/
def pc? : PState → Option CommitPc
  | .commit pc => some pc
  | _ => none

/-- Neither inside an operation nor committing. -/
def Quiet (c : PState) : Prop := c.op? = none ∧ c.dirty = [] ∧ c.pc? = none

end PState

open PState

/-- The contents last given to `log_write` for a block of the group. -/
def lastWrite (g : List LogWrite) (b : ℕ) : Option Block :=
  (g.reverse.find? fun w => w.blockno = b).map LogWrite.data

lemma lastWrite_append (g : List LogWrite) (w : LogWrite) (b : ℕ) :
    lastWrite (g ++ [w]) b = if w.blockno = b then some w.data else lastWrite g b := by
  simp only [lastWrite, reverse_append, reverse_cons, reverse_nil, nil_append,
    singleton_append, find?_cons]
  by_cases h : w.blockno = b <;> simp [h]

namespace LogSys

/-! ## The actions of the log, as a relation -/

/-- What `step` can do, one constructor for each way through the code. -/
inductive Moves (s : LogSys P) : LogAct P → LogSys P → Prop where
  | beginWait {a : LogAct P} {p : P} (hp : (s.proc p).Quiet)
      (ha : a = .beginOp p ∨ a = .resume p) : Moves s a (s.setProc p .beginSleep)
  | beginGo {a : LogAct P} {p : P} (hp : (s.proc p).Quiet)
      (ha : a = .beginOp p ∨ a = .resume p) (hcom : s.log.committing = false) :
      Moves s a { s with
        log := { s.log with outstanding := s.log.outstanding + 1 }
        proc := update s.proc p (.inOp s.nextOp [])
        nextOp := s.nextOp + 1 }
  | modify {p : P} {op b : ℕ} {dirty : List ℕ} {v : Block} (hp : s.proc p = .inOp op dirty)
      (hhome : ¬ InLog s.log.start b) (hb : b < 2 ^ 32) :
      Moves s (.modify p b v) { s with
        cache := update s.cache b v
        holder := update s.holder b (some p)
        proc := update s.proc p (.inOp op (b :: dirty)) }
  | logWrite {p : P} {op b : ℕ} {dirty : List ℕ} (hp : s.proc p = .inOp op dirty) (hb : b ∈ dirty)
      (hn : s.log.lh.n < LOGBLOCKS) :
      Moves s (.logWrite p b) { s with
        log := { s.log with lh := logAbsorb s.log.lh b }
        holder := update s.holder b none
        proc := update s.proc p (.inOp op (dirty.filter (· ≠ b)))
        group := s.group ++ [⟨op, b, s.cache b⟩] }
  | endLast {p : P} {op : ℕ} (hp : s.proc p = .inOp op []) (hlast : s.log.outstanding - 1 = 0) :
      Moves s (.endOp p) { s with
        log := { s.log with outstanding := s.log.outstanding - 1, committing := true }
        ended := op :: s.ended
        proc := update s.proc p (.commit .enter) }
  | endMore {p : P} {op : ℕ} (hp : s.proc p = .inOp op []) (hmore : s.log.outstanding - 1 ≠ 0) :
      Moves s (.endOp p) (({ s with
        log := { s.log with outstanding := s.log.outstanding - 1 }
        ended := op :: s.ended } : LogSys P).setProc p .idle).wakeup
  | commit {p : P} {pc : CommitPc} (hp : s.proc p = .commit pc) :
      Moves s (.commitStep p) (s.commitStep p pc)
  | syncWait {p : P} (hp : s.proc p = .idle) :
      Moves s (.sync p) (s.setProc p (.syncSleep (s.log.ncommit + 1)))
  | syncDone {p : P} (hp : s.proc p = .idle) (hcom : s.log.committing = false)
      (hout : s.log.outstanding ≤ 0) : Moves s (.sync p) (s.setProc p .idle)
  | loopWait {p : P} {n : ℕ} (hp : s.proc p = .syncWake n) :
      Moves s (.resume p) (s.setProc p (.syncSleep n))
  | loopDone {p : P} {n : ℕ} (hp : s.proc p = .syncWake n) (hn : n ≤ s.log.ncommit) :
      Moves s (.resume p) (s.setProc p .idle)
  | killBegin {p : P} (hp : s.proc p = .beginSleep) :
      Moves s (.kill p) (s.setProc p .beginWake)
  | killSync {p : P} {n : ℕ} (hp : s.proc p = .syncSleep n) :
      Moves s (.kill p) (s.setProc p (.syncWake n))

variable {a : LogAct P} {p : P} {s s' : LogSys P} {op : ℕ} {dirty : List ℕ} {lh : LogHeader}

lemma beginOp_moves (hp : (s.proc p).Quiet)
    (ha : a = .beginOp p ∨ a = .resume p) : Moves s a (s.beginOp p) := by
  rw [LogSys.beginOp]
  split_ifs with hcom hspace
  · exact .beginWait hp ha
  · exact .beginWait hp ha
  · exact .beginGo hp ha (by simpa using hcom)

lemma step_moves (hs : s.step a = .next s') : Moves s a s' := by
  cases a with
  | beginOp p =>
    simp only [LogSys.step] at hs
    split at hs
    · next hp =>
      cases hs
      exact beginOp_moves (by rw [hp]; exact ⟨rfl, rfl, rfl⟩) (.inl rfl)
    · cases hs
  | modify p b v =>
    simp only [LogSys.step] at hs
    split at hs
    · next op dirty hp =>
      split_ifs at hs with hc
      cases hs
      exact .modify hp hc.2.1 hc.2.2
    · cases hs
  | logWrite p b =>
    simp only [LogSys.step] at hs
    split at hs
    · next op dirty hp =>
      split_ifs at hs with hb
      rw [LogSys.logWrite] at hs
      split_ifs at hs with hbig
      cases hs
      exact .logWrite hp hb (by omega)
    · cases hs
  | endOp p =>
    simp only [LogSys.step] at hs
    split at hs
    · next op hp =>
      simp only [LogSys.endOp] at hs
      split_ifs at hs with _ hlast
      · cases hs
        exact .endLast hp hlast
      · cases hs
        exact .endMore hp hlast
    · cases hs
  | commitStep p =>
    simp only [LogSys.step] at hs
    split at hs
    · next pc hp =>
      cases hs
      exact .commit hp
    · cases hs
  | sync p =>
    simp only [LogSys.step, LogSys.sync] at hs
    split at hs
    · next hp =>
      cases hs
      split_ifs with hc
      · exact .syncWait hp
      · push Not at hc
        exact .syncDone hp (by simpa using hc.1) hc.2
    · cases hs
  | resume p =>
    simp only [LogSys.step, LogSys.syncLoop] at hs
    split at hs
    · next hp =>
      cases hs
      exact beginOp_moves (by rw [hp]; exact ⟨rfl, rfl, rfl⟩) (.inr rfl)
    · next n hp =>
      cases hs
      split_ifs with hn
      · exact .loopWait hp
      · exact .loopDone hp (by omega)
    · cases hs
  | kill p =>
    simp only [LogSys.step] at hs
    split at hs
    · next hp =>
      cases hs
      exact .killBegin hp
    · next n hp =>
      cases hs
      exact .killSync hp
    · cases hs

/-! ## One step keeps the invariant -/

/-- What holds at each point of `commit`. -/
def PcInv (s : LogSys P) : CommitPc → Prop
  | .writeLog tail => (tail : ℤ) ≤ s.log.lh.n ∧
      ∀ i < tail, s.disk (s.log.start + i + 1) = s.cache (s.log.lh.block i)
  | .writeHead => ∀ i < s.log.lh.n.toNat, s.disk (s.log.start + i + 1) = s.cache (s.log.lh.block i)
  | .eraseHead => s.log.lh.n = 0
  | .finish => s.log.lh.n = 0
  | _ => True

/-- Exactly one process commits while `committing` is set, and none otherwise. -/
def CommitInv (s : LogSys P) : Prop :=
  (s.log.committing = true ∧ s.log.outstanding = 0 ∧
    ∃ p pc, (s.proc p).pc? = some pc ∧ (∀ q, q ≠ p → (s.proc q).pc? = none) ∧ s.PcInv pc) ∨
  (s.log.committing = false ∧ (∀ q, (s.proc q).pc? = none) ∧
    (s.log.outstanding = 0 → s.log.lh.n = 0))

/-- The invariant of all runs. -/
structure Inv (s : LogSys P) : Prop where
  active : ∃ S : Finset P, (∀ p, p ∈ S ↔ (s.proc p).op? ≠ none) ∧ s.log.outstanding = S.card
  commit : s.CommitInv
  n_nonneg : 0 ≤ s.log.lh.n
  distinct : ∀ i j : ℕ, (i : ℤ) < s.log.lh.n → (j : ℤ) < s.log.lh.n →
    s.log.lh.block i = s.log.lh.block j → i = j
  blocks : ∀ b, (∃ i : ℕ, (i : ℤ) < s.log.lh.n ∧ s.log.lh.block i = b) ↔
    ∃ w ∈ s.group, w.blockno = b
  contents : ∀ w ∈ s.group, (∃ p, w.blockno ∈ (s.proc p).dirty) ∨
    lastWrite s.group w.blockno = some (s.cache w.blockno)
  ops : ∀ w ∈ s.group, w.op ∈ s.ended ∨ ∃ p, (s.proc p).op? = some w.op

lemma Initial.inv (h : s.Initial) : s.Inv := by
  refine ⟨⟨∅, by simp [h.idle, op?], by simp [h.outstanding]⟩, .inr ⟨h.committing, ?_, ?_⟩,
    by simp [h.n_eq], ?_, ?_, by simp [h.group], by simp [h.group]⟩
  · simp [h.idle, pc?]
  · intro _; exact h.n_eq
  · intro i j hi; rw [h.n_eq] at hi; omega
  · intro b
    simp only [h.n_eq, h.group, not_mem_nil, false_and, exists_false, iff_false]
    rintro ⟨i, hi, -⟩
    omega

/-- The invariant only looks at a process through `op?`, `dirty` and `pc?`. -/
lemma Inv.congr (h : s.Inv) (hlog : s'.log = s.log) (hcache : s'.cache = s.cache)
    (hdisk : s'.disk = s.disk) (hgroup : s'.group = s.group) (hended : s'.ended = s.ended)
    (hop : ∀ p, (s'.proc p).op? = (s.proc p).op?)
    (hdirty : ∀ p, (s'.proc p).dirty = (s.proc p).dirty)
    (hpc : ∀ p, (s'.proc p).pc? = (s.proc p).pc?) : s'.Inv := by
  have hpcinv : ∀ pc, s.PcInv pc → s'.PcInv pc := by
    intro pc hp
    cases pc <;> simp only [PcInv, hlog, hcache, hdisk] at hp ⊢ <;> exact hp
  refine ⟨?_, ?_, ?_, ?_, ?_, ?_, ?_⟩
  · simpa only [hop, hlog] using h.active
  · simp only [CommitInv, hlog, hpc]
    rcases h.commit with ⟨h1, h2, p, pc, h3, h4, h5⟩ | h1
    · exact .inl ⟨h1, h2, p, pc, h3, h4, hpcinv pc h5⟩
    · exact .inr h1
  · simpa only [hlog] using h.n_nonneg
  · simpa only [hlog] using h.distinct
  · simpa only [hlog, hgroup] using h.blocks
  · simpa only [hgroup, hdirty, hcache] using h.contents
  · simpa only [hgroup, hop, hended] using h.ops

lemma op?_wakeup (s : LogSys P) (p : P) : (s.wakeup.proc p).op? = (s.proc p).op? := by
  simp only [wakeup]
  cases s.proc p <;> rfl

lemma dirty_wakeup (s : LogSys P) (p : P) : (s.wakeup.proc p).dirty = (s.proc p).dirty := by
  simp only [wakeup]
  cases s.proc p <;> rfl

lemma pc?_wakeup (s : LogSys P) (p : P) : (s.wakeup.proc p).pc? = (s.proc p).pc? := by
  simp only [wakeup]
  cases s.proc p <;> rfl

lemma Inv.wakeup (h : s.Inv) : s.wakeup.Inv :=
  h.congr rfl rfl rfl rfl rfl (op?_wakeup s) (dirty_wakeup s) (pc?_wakeup s)

/-- A process outside operations and commits may move between such states freely. -/
lemma Inv.setProc (h : s.Inv) {c : PState} (hp : (s.proc p).Quiet)
    (hc : c.Quiet) : (s.setProc p c).Inv := by
  refine h.congr rfl rfl rfl rfl rfl ?_ ?_ ?_
  all_goals
    intro q
    by_cases hq : q = p
    · subst hq; simp [LogSys.setProc, hp.1, hp.2.1, hp.2.2, hc.1, hc.2.1, hc.2.2]
    · simp [LogSys.setProc, update_of_ne hq]

/-- **`begin_op`**, once it need not wait: one more running operation. -/
lemma Inv.beginOp (h : s.Inv) (hp : (s.proc p).Quiet) (hcom : s.log.committing = false) : ({ s with
      log := { s.log with outstanding := s.log.outstanding + 1 }
      proc := update s.proc p (.inOp s.nextOp [])
      nextOp := s.nextOp + 1 } : LogSys P).Inv := by
  obtain ⟨hop, hdirty, -⟩ := hp
  obtain ⟨S, hS, hcard⟩ := h.active
  have hpS : p ∉ S := by rw [hS p, hop]; simp
  have hquiet : ∀ q, (s.proc q).pc? = none := by
    rcases h.commit with ⟨h1, -⟩ | ⟨-, h2, -⟩
    · simp [hcom] at h1
    · exact h2
  refine ⟨⟨insert p S, fun q => ?_, ?_⟩, .inr ⟨hcom, fun q => ?_, ?_⟩,
    h.n_nonneg, h.distinct, h.blocks, fun w hw => ?_, fun w hw => ?_⟩
  · by_cases hq : q = p
    · subst hq; simp [op?]
    · simp [hq, hS q]
  · simp [Finset.card_insert_of_notMem hpS, hcard]
  · by_cases hq : q = p
    · subst hq; simp [pc?]
    · simpa [hq] using hquiet q
  · intro hz
    simp only at hz
    omega
  · rcases h.contents w hw with ⟨q, hq⟩ | hlast
    · have hqp : q ≠ p := by rintro rfl; rw [hdirty] at hq; simp at hq
      exact .inl ⟨q, by simpa [hqp] using hq⟩
    · exact .inr hlast
  · rcases h.ops w hw with hend | ⟨q, hq⟩
    · exact .inl hend
    · have hqp : q ≠ p := by rintro rfl; rw [hop] at hq; simp at hq
      exact .inr ⟨q, by simpa [hqp] using hq⟩

lemma Inv.not_committing (h : s.Inv) (hop : (s.proc p).op? ≠ none) :
    s.log.committing = false ∧ (∀ q, (s.proc q).pc? = none) ∧ 1 ≤ s.log.outstanding := by
  obtain ⟨S, hS, hcard⟩ := h.active
  have hpos : 0 < S.card := Finset.card_pos.mpr ⟨p, (hS p).mpr hop⟩
  rcases h.commit with ⟨-, h2, -⟩ | ⟨h1, h2, -⟩
  · omega
  · exact ⟨h1, h2, by omega⟩

/-- Replacing the state of a process inside an operation by another state inside the same
operation keeps the set of running operations. -/
lemma active_update (hp : s.proc p = .inOp op dirty) (dirty' : List ℕ) (q : P) :
    (update s.proc p (.inOp op dirty') q).op? = (s.proc q).op? ∧
      (update s.proc p (.inOp op dirty') q).pc? = (s.proc q).pc? := by
  by_cases hq : q = p
  · subst hq; simp [hp, op?, pc?]
  · simp [hq]

lemma Inv.modify (h : s.Inv) (hp : s.proc p = .inOp op dirty) (b : ℕ) (v : Block)
    (holder : ℕ → Option P) : ({ s with
      cache := update s.cache b v
      holder := holder
      proc := update s.proc p (.inOp op (b :: dirty)) } : LogSys P).Inv := by
  have hop : (s.proc p).op? ≠ none := by simp [hp, op?]
  obtain ⟨hcom, hquiet, hpos⟩ := h.not_committing hop
  have hupd := active_update hp (b :: dirty)
  refine ⟨?_, .inr ⟨hcom, fun q => ?_, fun hz => ?_⟩, h.n_nonneg, h.distinct, h.blocks,
    fun w hw => ?_, fun w hw => ?_⟩
  · simpa only [(hupd _).1] using h.active
  · rw [(hupd q).2]; exact hquiet q
  · simp only at hz
    omega
  · -- the block being modified is dirty; the cache of the others has not changed
    by_cases hb : w.blockno = b
    · exact .inl ⟨p, by simp [PState.dirty, hb]⟩
    · rcases h.contents w hw with ⟨q, hq⟩ | hlast
      · left
        by_cases hqp : q = p
        · subst hqp
          rw [hp] at hq
          exact ⟨q, by simpa [PState.dirty] using .inr hq⟩
        · exact ⟨q, by simpa [hqp] using hq⟩
      · right
        simpa [hb] using hlast
  · simpa only [(hupd _).1] using h.ops w hw

/-- `log_write` finds the block in the header, or the header does not have it. -/
lemma logSlot_cases (lh : LogHeader) (b : ℕ) :
    (logSlot lh b < lh.n.toNat ∧ lh.block (logSlot lh b) = b) ∨
      (logSlot lh b = lh.n.toNat ∧ ∀ i < lh.n.toNat, lh.block i ≠ b) := by
  rcases hf : (range lh.n.toNat).find? (fun i => lh.block i = b) with _ | i
  · right
    refine ⟨by simp [logSlot, hf], fun i hi => ?_⟩
    rw [find?_eq_none] at hf
    simpa using hf i (mem_range.mpr hi)
  · left
    have hmem := mem_of_find?_eq_some hf
    have hprop := find?_some hf
    rw [mem_range] at hmem
    simp only [logSlot, hf, Option.getD_some]
    exact ⟨hmem, by simpa using hprop⟩

/-- `log_write` as it changes the header: nothing, or one entry more. -/
lemma logAbsorb_cases (hn : 0 ≤ lh.n) (b : ℕ) :
    ((logSlot lh b : ℤ) ≠ lh.n ∧ logAbsorb lh b = lh ∧ ∃ i : ℕ, (i : ℤ) < lh.n ∧ lh.block i = b) ∨
    ((logSlot lh b : ℤ) = lh.n ∧ (logAbsorb lh b).n = lh.n + 1 ∧
      (logAbsorb lh b).block = update lh.block lh.n.toNat b ∧
      ∀ i : ℕ, (i : ℤ) < lh.n → lh.block i ≠ b) := by
  rcases logSlot_cases lh b with ⟨hlt, hblk⟩ | ⟨heq, hnone⟩
  · have hne : (logSlot lh b : ℤ) ≠ lh.n := by omega
    refine .inl ⟨hne, ?_, logSlot lh b, by omega, hblk⟩
    rw [logAbsorb, if_neg hne, Function.update_eq_self_iff.mpr hblk.symm]
  · have hslot : (logSlot lh b : ℤ) = lh.n := by omega
    refine .inr ⟨hslot, ?_, ?_, fun i hi => hnone i (by omega)⟩
    · rw [logAbsorb, if_pos hslot]
    · rw [logAbsorb, heq]

/-- What `log_write` makes of the header: the block joins it, once. -/
lemma logAbsorb_spec (hn : 0 ≤ lh.n) (b : ℕ)
    (hd : ∀ i j : ℕ, (i : ℤ) < lh.n → (j : ℤ) < lh.n → lh.block i = lh.block j → i = j) :
    0 ≤ (logAbsorb lh b).n ∧
    (∀ i j : ℕ, (i : ℤ) < (logAbsorb lh b).n → (j : ℤ) < (logAbsorb lh b).n →
      (logAbsorb lh b).block i = (logAbsorb lh b).block j → i = j) ∧
    ∀ c, (∃ i : ℕ, (i : ℤ) < (logAbsorb lh b).n ∧ (logAbsorb lh b).block i = c) ↔
      c = b ∨ ∃ i : ℕ, (i : ℤ) < lh.n ∧ lh.block i = c := by
  rcases logAbsorb_cases hn b with ⟨-, hsame, i, hi, hblk⟩ | ⟨-, hnew, hblock, hnone⟩
  · -- absorption: the header does not change
    rw [hsame]
    refine ⟨hn, hd, fun c => ⟨.inr, ?_⟩⟩
    rintro (rfl | h)
    · exact ⟨i, hi, hblk⟩
    · exact h
  · have hold : ∀ i : ℕ, (i : ℤ) < lh.n → (logAbsorb lh b).block i = lh.block i := by
      intro i hi
      rw [hblock, update_of_ne (by omega)]
    have hlast : (logAbsorb lh b).block lh.n.toNat = b := by rw [hblock, update_self]
    rw [hnew]
    refine ⟨by omega, fun i j hi hj hij => ?_, fun c => ⟨?_, ?_⟩⟩
    · rcases lt_or_eq_of_le (Int.lt_add_one_iff.mp hi) with hi | hi <;>
        rcases lt_or_eq_of_le (Int.lt_add_one_iff.mp hj) with hj | hj
      · rw [hold i hi, hold j hj] at hij
        exact hd i j hi hj hij
      · obtain rfl : j = lh.n.toNat := by omega
        rw [hold i hi, hlast] at hij
        exact absurd hij (hnone i hi)
      · obtain rfl : i = lh.n.toNat := by omega
        rw [hold j hj, hlast] at hij
        exact absurd hij.symm (hnone j hj)
      · omega
    · rintro ⟨i, hi, rfl⟩
      rcases lt_or_eq_of_le (Int.lt_add_one_iff.mp hi) with hi | hi
      · exact .inr ⟨i, hi, (hold i hi).symm⟩
      · obtain rfl : i = lh.n.toNat := by omega
        exact .inl hlast
    · rintro (rfl | ⟨i, hi, rfl⟩)
      · exact ⟨lh.n.toNat, by omega, hlast⟩
      · exact ⟨i, by omega, hold i hi⟩

section

variable (h : s.Inv) {pc : CommitPc}
include h

lemma Inv.logWrite (hp : s.proc p = .inOp op dirty) (b : ℕ) : ({ s with
      log := { s.log with lh := logAbsorb s.log.lh b }
      holder := update s.holder b none
      proc := update s.proc p (.inOp op (dirty.filter (· ≠ b)))
      group := s.group ++ [⟨op, b, s.cache b⟩] } : LogSys P).Inv := by
  have hop : (s.proc p).op? ≠ none := by simp [hp, op?]
  obtain ⟨hcom, hquiet, hpos⟩ := h.not_committing hop
  have hupd := active_update hp (dirty.filter (· ≠ b))
  obtain ⟨hn, hd, hb⟩ := logAbsorb_spec h.n_nonneg b h.distinct
  refine ⟨?_, .inr ⟨hcom, fun q => ?_, fun hz => ?_⟩, hn, hd, fun c => ?_, fun w hw => ?_,
    fun w hw => ?_⟩
  · simpa only [(hupd _).1] using h.active
  · rw [(hupd q).2]; exact hquiet q
  · simp only at hz
    omega
  · rw [hb c, h.blocks c]
    simp only [mem_append, mem_singleton]
    constructor
    · rintro (rfl | ⟨w, hw, rfl⟩)
      · exact ⟨⟨op, c, s.cache c⟩, .inr rfl, rfl⟩
      · exact ⟨w, .inl hw, rfl⟩
    · rintro ⟨w, hw | rfl, rfl⟩
      · exact .inr ⟨w, hw, rfl⟩
      · exact .inl rfl
  · -- the logged block now has its current contents as its last write
    rw [lastWrite_append]
    by_cases hwb : b = w.blockno
    · right; simp [hwb]
    · rw [if_neg hwb]
      have hw' : w ∈ s.group := by
        rcases mem_append.mp hw with hw | hw
        · exact hw
        · rw [mem_singleton] at hw
          subst hw
          exact absurd rfl hwb
      rcases h.contents w hw' with ⟨q, hq⟩ | hlast
      · left
        by_cases hqp : q = p
        · subst hqp
          rw [hp] at hq
          exact ⟨q, by simpa [PState.dirty, Ne.symm hwb] using hq⟩
        · exact ⟨q, by simpa [hqp] using hq⟩
      · exact .inr hlast
  · simp only [(hupd _).1]
    rcases mem_append.mp hw with hw | hw
    · exact h.ops w hw
    · rw [mem_singleton] at hw
      subst hw
      exact .inr ⟨p, by simp [hp, op?]⟩

/-- **`end_op`.**  The operation leaves; if it was the last one, its process starts to commit, and
at that moment every operation of the group has ended. -/
lemma Inv.endOp (hp : s.proc p = .inOp op []) (hs : Moves s (.endOp p) s') : s'.Inv := by
  have hop : (s.proc p).op? ≠ none := by simp [hp, op?]
  obtain ⟨hcom, hquiet, hpos⟩ := h.not_committing hop
  obtain ⟨S, hS, hcard⟩ := h.active
  have hpS : p ∈ S := (hS p).mpr hop
  have herase : ((S.erase p).card : ℤ) = s.log.outstanding - 1 := by
    rw [Finset.card_erase_of_mem hpS, hcard]
    have := Finset.card_pos.mpr ⟨p, hpS⟩
    omega
  -- the part of the invariant that does not depend on whether this process goes on to commit
  have hcore : ∀ c : PState, c.op? = none → c.dirty = [] →
      (∃ S : Finset P, (∀ q, q ∈ S ↔ (update s.proc p c q).op? ≠ none) ∧
        s.log.outstanding - 1 = S.card) ∧
      (∀ w ∈ s.group, (∃ q, w.blockno ∈ (update s.proc p c q).dirty) ∨
        lastWrite s.group w.blockno = some (s.cache w.blockno)) ∧
      ∀ w ∈ s.group, w.op ∈ op :: s.ended ∨ ∃ q, (update s.proc p c q).op? = some w.op := by
    intro c hcop hcdirty
    refine ⟨⟨S.erase p, fun q => ?_, herase.symm⟩, fun w hw => ?_, fun w hw => ?_⟩
    · by_cases hq : q = p
      · subst hq; simp [hcop]
      · simp [hq, hS q]
    · rcases h.contents w hw with ⟨q, hq⟩ | hlast
      · have hqp : q ≠ p := by rintro rfl; rw [hp] at hq; simp [dirty] at hq
        exact .inl ⟨q, by simpa [hqp] using hq⟩
      · exact .inr hlast
    · rcases h.ops w hw with hend | ⟨q, hq⟩
      · exact .inl (mem_cons_of_mem _ hend)
      · by_cases hqp : q = p
        · subst hqp
          rw [hp] at hq
          left
          simp only [op?, Option.some.injEq] at hq
          simp [hq]
        · exact .inr ⟨q, by simpa [hqp] using hq⟩
  cases hs with
  | beginWait _ ha | beginGo _ ha => simp at ha
  | @endLast _ op' hp' hlast =>
    obtain rfl : op' = op := by simpa [hp] using hp'.symm
    obtain ⟨hact, hcont, hops⟩ := hcore (.commit .enter) rfl rfl
    refine ⟨hact, .inl ⟨rfl, hlast, p, .enter, by simp [pc?], fun q hq => ?_, trivial⟩,
      h.n_nonneg, h.distinct, h.blocks, hcont, hops⟩
    simpa [hq] using hquiet q
  | @endMore _ op' hp' hmore =>
    obtain rfl : op' = op := by simpa [hp] using hp'.symm
    obtain ⟨hact, hcont, hops⟩ := hcore .idle rfl rfl
    refine Inv.wakeup ⟨hact, .inr ⟨hcom, fun q => ?_, fun hz => absurd hz hmore⟩,
      h.n_nonneg, h.distinct, h.blocks, hcont, hops⟩
    by_cases hq : q = p
    · subst hq; simp [LogSys.setProc, pc?]
    · simpa [LogSys.setProc, hq] using hquiet q

lemma Inv.committer (hp : s.proc p = .commit pc) :
    s.log.committing = true ∧ s.log.outstanding = 0 ∧ (∀ q, q ≠ p → (s.proc q).pc? = none) ∧
      s.PcInv pc := by
  have hpc : (s.proc p).pc? = some pc := by simp [hp, pc?]
  rcases h.commit with ⟨h1, h2, q, pc', h3, h4, h5⟩ | ⟨-, h2, -⟩
  · have hqp : q = p := by
      by_contra hne
      rw [h4 p (Ne.symm hne)] at hpc
      simp at hpc
    subst hqp
    rw [hpc] at h3
    obtain rfl : pc = pc' := Option.some.inj h3
    exact ⟨h1, h2, h4, h5⟩
  · rw [h2 p] at hpc
    simp at hpc

lemma Inv.no_op (hcom : s.log.committing = true) (p : P) : (s.proc p).op? = none := by
  by_contra hop
  have := (h.not_committing hop).1
  rw [hcom] at this
  simp at this

/-- The steps of `commit` that write the disk or move on: only the control point and the disk
change, so what has to be shown is the assertion at the next control point. -/
lemma Inv.commitTo {pc pc' : CommitPc} (hp : s.proc p = .commit pc) (disk : Disk)
    (hpc' : ({ s with disk := disk } : LogSys P).PcInv pc') :
    ({ s with disk := disk, proc := update s.proc p (.commit pc') } : LogSys P).Inv := by
  obtain ⟨hcom, hout, hothers, -⟩ := h.committer hp
  have hsame : ∀ q, (update s.proc p (.commit pc') q).op? = (s.proc q).op? ∧
      (update s.proc p (.commit pc') q).dirty = (s.proc q).dirty := by
    intro q
    by_cases hq : q = p
    · subst hq; simp [hp, op?, dirty]
    · simp [hq]
  refine ⟨?_, .inl ⟨hcom, hout, p, pc', by simp [pc?], fun q hq => ?_, ?_⟩, h.n_nonneg,
    h.distinct, h.blocks, ?_, ?_⟩
  · simpa only [(hsame _).1] using h.active
  · simpa [hq] using hothers q hq
  · cases pc' <;> exact hpc'
  · simpa only [(hsame _).2] using h.contents
  · simpa only [(hsame _).1] using h.ops

lemma Inv.commitStep (hp : s.proc p = .commit pc) : (s.commitStep p pc).Inv := by
  obtain ⟨hcom, hout, hothers, hpc⟩ := h.committer hp
  have hn := h.n_nonneg
  cases pc with
  | enter =>
    refine h.commitTo hp s.disk ?_
    split_ifs with hpos
    · exact ⟨hn, by simp⟩
    · simp only [PcInv]
      omega
  | writeLog tail =>
    obtain ⟨htail, hdone⟩ := hpc
    simp only [LogSys.commitStep]
    split_ifs with hlt
    · refine h.commitTo hp _ ⟨by simp only; omega, fun i hi => ?_⟩
      simp only
      rcases Nat.lt_succ_iff_lt_or_eq.mp hi with hi | rfl
      · rw [update_of_ne (by omega)]
        exact hdone i hi
      · rw [update_self]
    · refine h.commitTo hp s.disk fun i hi => hdone i ?_
      simp only at hi
      omega
  | writeHead => exact h.commitTo hp _ trivial
  | install tail =>
    simp only [LogSys.commitStep]
    split_ifs with hlt
    · exact h.commitTo hp _ trivial
    · exact h.commitTo hp s.disk trivial
  | clear =>
    simp only [LogSys.commitStep]
    refine ⟨?_, .inl ⟨hcom, hout, p, .eraseHead, by simp [pc?], fun q hq => ?_, rfl⟩,
      le_rfl, ?_, ?_, by simp, by simp⟩
    · obtain ⟨S, hS, hcard⟩ := h.active
      refine ⟨S, fun q => ?_, hcard⟩
      rw [hS q]
      by_cases hq : q = p
      · subst hq; simp [hp, op?]
      · simp [hq]
    · simpa [hq] using hothers q hq
    · intro i j hi
      simp only [Log.clear] at hi
      omega
    · intro b
      simp only [Log.clear, not_mem_nil, false_and, exists_false, iff_false]
      rintro ⟨i, hi, -⟩
      omega
  | eraseHead => exact h.commitTo hp _ hpc
  | finish =>
    have hsame : ∀ q, (update s.proc p .idle q).op? = (s.proc q).op? ∧
        (update s.proc p .idle q).dirty = (s.proc q).dirty := by
      intro q
      by_cases hq : q = p
      · subst hq; simp [hp, op?, dirty]
      · simp [hq]
    refine Inv.wakeup ⟨?_, .inr ⟨rfl, fun q => ?_, fun _ => hpc⟩, h.n_nonneg, h.distinct,
      h.blocks, ?_, ?_⟩
    · simpa only [(hsame _).1] using h.active
    · by_cases hq : q = p
      · subst hq; simp [pc?]
      · simpa [hq] using hothers q hq
    · simpa only [(hsame _).2] using h.contents
    · simpa only [(hsame _).1] using h.ops

lemma Inv.step (hs : s.step a = .next s') : s'.Inv := by
  have hm := step_moves hs
  cases hm with
  | beginWait hp _ => exact h.setProc hp ⟨rfl, rfl, rfl⟩
  | beginGo hp _ hcom => exact h.beginOp hp hcom
  | modify hp _ _ => exact h.modify hp _ _ _
  | logWrite hp _ _ => exact h.logWrite hp _
  | endLast hp _ | endMore hp _ => exact h.endOp hp (step_moves hs)
  | commit hp => exact h.commitStep hp
  | syncWait hp | syncDone hp | loopWait hp | loopDone hp | killBegin hp | killSync hp =>
    exact h.setProc (by rw [hp]; exact ⟨rfl, rfl, rfl⟩) ⟨rfl, rfl, rfl⟩

/-! ## Group commit contains only whole operations -/

/-- No action taken while a commit is running lets an operation begin or a `log_write` run. -/
lemma Inv.committing_step (hcom : s.log.committing = true) (hs : s.step a = .next s') :
    (∀ p, (s'.proc p).op? = none) ∧ ∀ p b, a ≠ .logWrite p b := by
  have hno := h.no_op hcom
  have hset : ∀ p c, c.op? = none → ∀ q, ((s.setProc p c).proc q).op? = none := by
    intro p c hc q
    by_cases hq : q = p
    · subst hq; simpa [LogSys.setProc] using hc
    · simpa [LogSys.setProc, hq] using hno q
  have hnotin : ∀ p op dirty, s.proc p ≠ .inOp op dirty := by
    intro p op dirty hp
    have := hno p
    rw [hp] at this
    simp [op?] at this
  cases step_moves hs with
  | @beginWait _ p _ ha => exact ⟨hset p _ rfl, by rcases ha with rfl | rfl <;> simp⟩
  | beginGo _ _ hno => simp [hcom] at hno
  | modify hp | logWrite hp | endLast hp | endMore hp => exact absurd hp (hnotin _ _ _)
  | @commit p pc hp =>
    refine ⟨?_, by simp⟩
    have hupd : ∀ c : PState, c.op? = none → ∀ q, (update s.proc p c q).op? = none :=
      fun c hc => hset p c hc
    cases pc <;> simp only [LogSys.commitStep]
    all_goals try split_ifs
    all_goals first
      | exact hset p _ rfl
      | exact hupd _ rfl
      | (intro q; rw [op?_wakeup]; exact hupd _ rfl q)
  | syncWait | syncDone | loopWait | loopDone | killBegin | killSync =>
    exact ⟨hset _ _ rfl, by simp⟩

/-- Once `write_log` is done, the log blocks hold the last logged contents of exactly the blocks of
the group, and every operation of the group has ended. -/
lemma Inv.writeLog_exact (hp : s.proc p = .commit .writeHead) :
    (∀ b, (∃ i < s.log.lh.n.toNat, s.log.lh.block i = b) ↔ ∃ w ∈ s.group, w.blockno = b) ∧
    (∀ i < s.log.lh.n.toNat,
      lastWrite s.group (s.log.lh.block i) = some (s.disk (s.log.start + i + 1))) ∧
    ∀ w ∈ s.group, w.op ∈ s.ended := by
  obtain ⟨hcom, -, -, hdone⟩ := h.committer hp
  have hno := h.no_op hcom
  have hclean : ∀ q, (s.proc q).dirty = [] := by
    intro q
    have hq := hno q
    cases hc : s.proc q <;> simp_all [op?, dirty]
  have hn := h.n_nonneg
  have hblocks : ∀ b, (∃ i < s.log.lh.n.toNat, s.log.lh.block i = b) ↔
      ∃ w ∈ s.group, w.blockno = b := by
    intro b
    rw [← h.blocks b]
    constructor
    · rintro ⟨i, hi, hb⟩
      exact ⟨i, by omega, hb⟩
    · rintro ⟨i, hi, hb⟩
      exact ⟨i, by omega, hb⟩
  refine ⟨hblocks, fun i hi => ?_, fun w hw => ?_⟩
  · obtain ⟨w, hw, hwb⟩ := (hblocks _).mp ⟨i, hi, rfl⟩
    rcases h.contents w hw with ⟨q, hq⟩ | hlast
    · rw [hclean q] at hq
      simp at hq
    · rw [hwb] at hlast
      rw [hlast, hdone i hi]
  · rcases h.ops w hw with hend | ⟨q, hq⟩
    · exact hend
    · rw [hno q] at hq
      simp at hq

/-- The only panic left to these actions is `log_write`'s "too big a transaction". -/
lemma Inv.step_panic {e : LogPanic} (hs : s.step a = .panic e) : e = .tooBigATransaction := by
  cases a with
  | logWrite p b =>
    simp only [LogSys.step] at hs
    split at hs
    · next op dirty hp =>
      obtain ⟨-, -, hpos⟩ := h.not_committing (p := p) (by simp [hp, op?])
      have hpos' : ¬ s.log.outstanding < 1 := by omega
      simp only [LogSys.logWrite, if_neg hpos'] at hs
      split_ifs at hs
      injection hs with hs
      exact hs.symm
    · cases hs
  | endOp p =>
    simp only [LogSys.step] at hs
    split at hs
    · next op hp =>
      obtain ⟨hcom, -, -⟩ := h.not_committing (p := p) (by simp [hp, op?])
      simp only [LogSys.endOp, hcom, Bool.false_eq_true, if_false] at hs
      split_ifs at hs
    · cases hs
  | modify p b v =>
    simp only [LogSys.step] at hs
    split at hs
    · split_ifs at hs
    · cases hs
  | beginOp p | commitStep p | sync p | resume p | kill p =>
    simp only [LogSys.step] at hs; split at hs <;> cases hs

end

end LogSys

/-- **Group commit contains only whole operations.**  In every state that any interleaving reaches:
while `committing` is set, `outstanding` is 0, no operation is inside and no step lets one begin or
log; once `write_log` is done the log blocks hold exactly the writes of the group, all of whose
operations have ended; with nothing outstanding and no commit the header is empty; its entries are
distinct; and neither the panic of `end_op` nor that of `log_write` outside of a transaction can be
reached. -/
theorem group_commit {s0 s : LogSys P} {as : List (LogAct P)} (h0 : s0.Initial)
    (h : Run LogSys.step s0 as s) :
    (s.log.committing = true → s.log.outstanding = 0 ∧ (∀ p, (s.proc p).op? = none) ∧
      ∀ a s', s.step a = .next s' → (∀ p, (s'.proc p).op? = none) ∧ ∀ p b, a ≠ .logWrite p b) ∧
    (∀ p, s.proc p = .commit .writeHead →
      (∀ b, (∃ i < s.log.lh.n.toNat, s.log.lh.block i = b) ↔ ∃ w ∈ s.group, w.blockno = b) ∧
      (∀ i < s.log.lh.n.toNat,
        lastWrite s.group (s.log.lh.block i) = some (s.disk (s.log.start + i + 1))) ∧
      ∀ w ∈ s.group, w.op ∈ s.ended) ∧
    (s.log.outstanding = 0 → s.log.committing = false → s.log.lh.n = 0) ∧
    (∀ i j, i < s.log.lh.n.toNat → j < s.log.lh.n.toNat →
      s.log.lh.block i = s.log.lh.block j → i = j) ∧
    ∀ a, s.step a ≠ .panic .logCommitting ∧ s.step a ≠ .panic .logWriteOutsideOfTrans := by
  have hinv : s.Inv := h.invariant (fun _ _ _ hi hs => hi.step hs) h0.inv
  refine ⟨fun hcom => ?_, fun p hp => hinv.writeLog_exact hp, fun hout hcom => ?_,
    fun i j hi hj => ?_, fun a => ⟨fun hp => ?_, fun hp => ?_⟩⟩
  · rcases hinv.commit with ⟨-, hout, -⟩ | ⟨hf, -⟩
    · exact ⟨hout, hinv.no_op hcom, fun a s' hs => hinv.committing_step hcom hs⟩
    · rw [hcom] at hf
      simp at hf
  · rcases hinv.commit with ⟨hf, -⟩ | ⟨-, -, hn⟩
    · rw [hcom] at hf
      simp at hf
    · exact hn hout
  · exact hinv.distinct i j (by omega) (by omega)
  · exact absurd (hinv.step_panic hp) (by simp)
  · exact absurd (hinv.step_panic hp) (by simp)

/-- A log with no operation running, on a disk of zeros. -/
def sampleLogSys : LogSys Bool where
  log := ⟨2, 0, false, 0, ⟨0, fun _ => 0⟩⟩
  cache := fun _ _ => 0
  disk := fun _ _ => 0
  proc := fun _ => .idle

/-- Two operations overlap and log one block each; the second one to end commits. -/
def sampleLogActs : List (LogAct Bool) :=
  [.beginOp false, .beginOp true, .modify true 40 (fun _ => 7), .logWrite true 40,
    .modify false 41 (fun _ => 8), .endOp true, .logWrite false 41, .endOp false,
    .commitStep false, .commitStep false, .commitStep false, .commitStep false]

/-- The run of these actions ends right after `write_log`. -/
theorem group_commit_sample :
    ∃ s, Run LogSys.step sampleLogSys sampleLogActs s ∧ s.proc false = .commit .writeHead ∧
      s.log.outstanding = 0 ∧ lastWrite s.group (s.log.lh.block 1) = some (s.disk 4) := by
  have h0 : sampleLogSys.Initial := ⟨rfl, rfl, rfl, fun _ => rfl, rfl⟩
  have hrun : Run LogSys.step sampleLogSys sampleLogActs _ := Run.of_exec rfl
  obtain ⟨hcom, hexact, -⟩ := group_commit h0 hrun
  exact ⟨_, hrun, rfl, (hcom rfl).1, (hexact false rfl).2.1 1 (by decide)⟩

end Xv6
