import Xv6.Lib.Ring
import Xv6.Lib.SleepWakeup

/-!
# Pipes

`pipewrite`, `piperead` and `pipeclose` of `pipe.c` as a client of `sleep` and `wakeup`: the data is
`struct pipe`, the lock is `pi->lock`, the channels are `&pi->nread` and `&pi->nwrite`. The counters
`nread` and `nwrite` are 32-bit unsigned and wrap.

Any number of processes call the three functions over and over, with any `n`. What `copyin` gives
and whether `copyout` succeeds is an input of the step that calls it; kills come from outside, at
any time. When both ends are closed `pipeclose` frees the pipe; the model keeps its last contents,
since no file refers to it any more.

History is kept beside `struct pipe`: every accepted byte with its writer, the number of the call
(in the order of the writer's calls) and the index in that call's buffer, and every delivered byte.
`Fifo` is the statement that the pipe is a queue; `Inv` adds what each process knows of the pipe at
its control point, and how far each writer has got.
-/

namespace Xv6

abbrev PIPESIZE : ℕ := 512

/-- `struct pipe`, without its lock. -/
structure Pipe where
  data : ℕ → UInt8
  nread : ℕ
  nwrite : ℕ
  readopen : Bool
  writeopen : Bool

/-- As `pipealloc` leaves it. -/
def Pipe.init : Pipe := ⟨fun _ => 0, 0, 0, true, true⟩

namespace Pipe

/-- `pi->nread == pi->nwrite`. -/
def Empty (pi : Pipe) : Prop := pi.nread = pi.nwrite

/-- `pi->nwrite == pi->nread + PIPESIZE`. -/
def Full (pi : Pipe) : Prop := pi.nwrite = (pi.nread + PIPESIZE) % 2 ^ 32

instance (pi : Pipe) : Decidable pi.Empty := inferInstanceAs (Decidable (_ = _))

instance (pi : Pipe) : Decidable pi.Full := inferInstanceAs (Decidable (_ = _))

/-- `pi->data[pi->nwrite++ % PIPESIZE] = ch`. -/
def put (pi : Pipe) (ch : UInt8) : Pipe :=
  { pi with
    data := Function.update pi.data (pi.nwrite % PIPESIZE) ch
    nwrite := (pi.nwrite + 1) % 2 ^ 32 }

/-- `pi->data[pi->nread % PIPESIZE]`. -/
def peek (pi : Pipe) : UInt8 := pi.data (pi.nread % PIPESIZE)

/-- `pi->nread++`. -/
def skip (pi : Pipe) : Pipe := { pi with nread := (pi.nread + 1) % 2 ^ 32 }

/-- The number of bytes in the pipe: `nwrite - nread` modulo `2 ^ 32`. -/
def used (pi : Pipe) : ℕ := Ring.used (2 ^ 32) pi.nread pi.nwrite

/-- The bytes in the pipe, oldest first. -/
def buffered (pi : Pipe) : List UInt8 :=
  Ring.contents PIPESIZE (2 ^ 32) pi.data pi.nread pi.nwrite

end Pipe

/-- A byte that `pipewrite` has accepted: byte `idx` of its writer's call number `call`. -/
structure PipeByte (ι : Type) where
  writer : ι
  call : ℕ
  idx : ℕ
  byte : UInt8

/-- A pipe with its history. -/
structure PipeHist (ι : Type) where
  pi : Pipe
  accepted : List (PipeByte ι)
  delivered : List UInt8

/-- The channels of `struct pipe`. -/
inductive PipeChan where
  | nread
  | nwrite
  deriving DecidableEq

/-- The channel that closing an end wakes up. -/
def PipeChan.ofClose (writable : Bool) : PipeChan := if writable then .nread else .nwrite

/-- A call, or the result of a user copy. -/
inductive PipeIn where
  | write (n : ℤ)
  | read (n : ℤ)
  | close (writable : Bool)
  | copyin (ch : Option UInt8)
  | copyout (ok : Bool)

/-- A call of `pipewrite`: its number, its `n`, the bytes stored so far, and how many of them had
been stored at its last `wakeup(&pi->nread)`. -/
structure WriteCall where
  call : ℕ
  n : ℤ
  i : ℕ
  told : ℕ
  deriving DecidableEq

/-- The control points of the three functions. Outside, a process knows the number of its next
call. -/
inductive PipeLoc where
  | idle (call : ℕ)
  | wLoop (c : WriteCall)
  | wOpen (c : WriteCall)
  | wKilled (c : WriteCall)
  | wFail (c : WriteCall)
  | wFull (c : WriteCall)
  | wWakeup (c : WriteCall)
  | wSleep (c : WriteCall)
  | wCopy (c : WriteCall)
  | wEnd (c : WriteCall)
  | wRelease (c : WriteCall)
  | rLoop (call : ℕ) (n : ℤ)
  | rKilled (call : ℕ) (n : ℤ)
  | rFail (call : ℕ)
  | rSleep (call : ℕ) (n : ℤ)
  | rFor (call : ℕ) (n : ℤ) (i : ℕ)
  | rCopy (call : ℕ) (n : ℤ) (i : ℕ)
  | rEnd (call : ℕ) (r : ℤ)
  | rRelease (call : ℕ) (r : ℤ)
  | cClose (call : ℕ) (writable : Bool)
  | cWakeup (call : ℕ) (writable : Bool)
  | cTest (call : ℕ) (writable : Bool)
  | cRelease (call : ℕ) (writable kfree : Bool)

namespace PipeHist

variable {ι : Type}

open PipeLoc List Pipe

/-- A statement that only looks at the pipe. -/
def look (f : Pipe → PipeLoc) : Instr Empty PipeChan PipeLoc (PipeHist ι) :=
  .act fun d => .next (f d.pi, d)

/-- A statement that needs another input. -/
def stuck : Instr Empty PipeChan PipeLoc (PipeHist ι) := .act fun _ => .disabled

/-- `pipewrite` stores a byte it has copied in. -/
def store (p : ι) (c : WriteCall) (ch : UInt8) (d : PipeHist ι) : PipeHist ι :=
  { d with pi := d.pi.put ch, accepted := d.accepted ++ [⟨p, c.call, c.i, ch⟩] }

/-- `piperead` goes on after a successful `copyout`. -/
def deliver (d : PipeHist ι) : PipeHist ι :=
  { d with pi := d.pi.skip, delivered := d.delivered ++ [d.pi.peek] }

/-- `pi->writeopen = 0` or `pi->readopen = 0`. -/
def shut (writable : Bool) (d : PipeHist ι) : PipeHist ι :=
  { d with pi :=
      if writable then { d.pi with writeopen := false } else { d.pi with readopen := false } }

/-- `pipewrite` after `copyin`, which gives a byte or fails. -/
def writeByte (p : ι) (c : WriteCall) (ch : Option UInt8) (d : PipeHist ι) : PipeLoc × PipeHist ι :=
  match ch with
  | none => (wEnd c, d)
  | some ch => (wLoop { c with i := c.i + 1 }, d.store p c ch)

/-- `piperead` after `copyout`: if that failed, the byte stays in the pipe. -/
def readByte (k : ℕ) (n : ℤ) (i : ℕ) (ok : Bool) (d : PipeHist ι) : PipeLoc × PipeHist ι :=
  if ok then (rFor k n (i + 1), d.deliver) else (rEnd k (if i = 0 then -1 else i), d)

/-- The code of process `p`. -/
def code (p : ι) : PipeLoc → PipeIn → Instr Empty PipeChan PipeLoc (PipeHist ι)
  | idle k, .write n => .acquire (wLoop ⟨k, n, 0, 0⟩)
  | idle k, .read n => .acquire (rLoop k n)
  | idle k, .close w => .acquire (cClose k w)
  | idle _, _ => stuck
  -- pipewrite
  | wLoop c, _ => look fun _ => if (c.i : ℤ) < c.n then wOpen c else wEnd c
  | wOpen c, _ => look fun pi => if pi.readopen then wKilled c else wFail c
  | wKilled c, _ => .killed (wFail c) (wFull c)
  | wFail c, _ => .release (idle (c.call + 1))
  | wFull c, _ => look fun pi => if pi.Full then wWakeup c else wCopy c
  | wWakeup c, _ => .wakeup .nread (wSleep { c with told := c.i })
  | wSleep c, _ => .sleep .nwrite (wLoop c)
  | wCopy c, .copyin ch => .act fun d => .next (d.writeByte p c ch)
  | wCopy _, _ => stuck
  | wEnd c, _ => .wakeup .nread (wRelease { c with told := c.i })
  | wRelease c, _ => .release (idle (c.call + 1))
  -- piperead
  | rLoop k n, _ => look fun pi => if pi.Empty ∧ pi.writeopen then rKilled k n else rFor k n 0
  | rKilled k n, _ => .killed (rFail k) (rSleep k n)
  | rFail k, _ => .release (idle (k + 1))
  | rSleep k n, _ => .sleep .nread (rLoop k n)
  | rFor k n i, _ =>
    look fun pi => if (i : ℤ) < n then (if pi.Empty then rEnd k i else rCopy k n i) else rEnd k i
  | rCopy k n i, .copyout ok => .act fun d => .next (d.readByte k n i ok)
  | rCopy _ _ _, _ => stuck
  | rEnd k r, _ => .wakeup .nwrite (rRelease k r)
  | rRelease k _, _ => .release (idle (k + 1))
  -- pipeclose
  | cClose k w, _ => .act fun d => .next (cWakeup k w, d.shut w)
  | cWakeup k w, _ => .wakeup (.ofClose w) (cTest k w)
  | cTest k w, _ => look fun pi => cRelease k w (!pi.readopen && !pi.writeopen)
  | cRelease k _ _, _ => .release (idle (k + 1))

/-- `pi->lock` is held everywhere inside the functions. -/
def holds : PipeLoc → Prop
  | idle _ => False
  | _ => True

variable {l l' : PipeLoc} {p : ι} {x : PipeIn} {d : PipeHist ι}
  {f : PipeHist ι → Outcome Empty (PipeLoc × PipeHist ι)} {d' : PipeHist ι} {ch : PipeChan}

lemma look_respects {f : Pipe → PipeLoc} (h : ∀ pi, holds (f pi) ↔ holds l) :
    (look f : Instr Empty PipeChan PipeLoc (PipeHist ι)).Respects holds l := by
  rintro d l' d' h'
  injection h' with h'
  cases h'
  exact ⟨h d.pi, fun _ => rfl⟩

lemma stuck_respects (l : PipeLoc) :
    (stuck : Instr Empty PipeChan PipeLoc (PipeHist ι)).Respects holds l := by
  intro d l' d' h
  cases h

lemma act_respects (l : PipeLoc) (f : PipeHist ι → PipeLoc × PipeHist ι) (hl : holds l)
    (hf : ∀ d, holds (f d).1) :
    (.act fun d => .next (f d) : Instr Empty PipeChan PipeLoc (PipeHist ι)).Respects holds l := by
  rintro d k d' h'
  injection h' with h'
  obtain rfl : k = (f d).1 := by rw [h']
  exact ⟨iff_of_true (hf d) hl, fun hn => absurd hl hn⟩

lemma code_respects (p : ι) (l : PipeLoc) (x : PipeIn) : (code p l x).Respects holds l := by
  cases l with
  | idle k =>
    cases x <;> first | exact stuck_respects _ | exact ⟨fun h => h, trivial⟩
  | wLoop c | wOpen c | wFull c | rLoop k n | rFor k n i =>
    rw [code]
    refine look_respects fun pi => ?_
    split_ifs <;> rfl
  | wKilled c | rKilled k n => exact ⟨Iff.rfl, Iff.rfl⟩
  | wFail c | wRelease c | rFail k | rRelease k r | cRelease k w b => exact ⟨trivial, fun h => h⟩
  | wWakeup c | wSleep c | wEnd c | rSleep k n | rEnd k r | cWakeup k w => exact ⟨trivial, trivial⟩
  | wCopy c =>
    cases x
    case copyin ch =>
      refine act_respects (wCopy c) (writeByte p c ch) trivial fun d => ?_
      cases ch <;> trivial
    all_goals exact stuck_respects _
  | rCopy k n i =>
    cases x
    case copyout ok =>
      refine act_respects (rCopy k n i) (readByte k n i ok) trivial fun d => ?_
      cases ok <;> trivial
    all_goals exact stuck_respects _
  | cClose k w =>
    exact act_respects (cClose k w) (fun d => (cWakeup k w, d.shut w)) trivial fun _ => trivial
  | cTest k w =>
    rw [code]
    exact look_respects fun _ => Iff.rfl

/-! Where the code acquires, releases, sleeps and wakes up. -/

lemma code_acquire (h : code p l x = .acquire l') :
    ∃ k, l = idle k ∧ ((∃ n, l' = wLoop ⟨k, n, 0, 0⟩) ∨ (∃ n, l' = rLoop k n) ∨
      ∃ w, l' = cClose k w) := by
  cases l <;> cases x <;> cases h <;> simp

lemma code_release (h : code p l x = .release l') :
    (∃ c, l = wFail c ∧ l' = idle (c.call + 1)) ∨ (∃ c, l = wRelease c ∧ l' = idle (c.call + 1)) ∨
      (∃ k, l = rFail k ∧ l' = idle (k + 1)) ∨ (∃ k r, l = rRelease k r ∧ l' = idle (k + 1)) ∨
      ∃ k w b, l = cRelease k w b ∧ l' = idle (k + 1) := by
  cases l <;> cases x <;> cases h <;> simp

lemma code_sleep (h : code p l x = .sleep ch l') :
    (∃ c, l = wSleep c ∧ ch = .nwrite ∧ l' = wLoop c) ∨
      ∃ k n, l = rSleep k n ∧ ch = .nread ∧ l' = rLoop k n := by
  cases l <;> cases x <;> cases h <;> simp

lemma code_wakeup (h : code p l x = .wakeup ch l') :
    (∃ c, l = wWakeup c ∧ ch = .nread ∧ l' = wSleep { c with told := c.i }) ∨
      (∃ c, l = wEnd c ∧ ch = .nread ∧ l' = wRelease { c with told := c.i }) ∨
      (∃ k r, l = rEnd k r ∧ ch = .nwrite ∧ l' = rRelease k r) ∨
      ∃ k w, l = cWakeup k w ∧ ch = .ofClose w ∧ l' = cTest k w := by
  cases l <;> cases x <;> cases h <;> first
    | exact .inl ⟨_, rfl, rfl, rfl⟩
    | exact .inr (.inl ⟨_, rfl, rfl, rfl⟩)
    | exact .inr (.inr (.inl ⟨_, _, rfl, rfl, rfl⟩))
    | exact .inr (.inr (.inr ⟨_, _, rfl, rfl, rfl⟩))

lemma code_killed {yes no : PipeLoc} (h : code p l x = .killed yes no) :
    (∃ c, l = wKilled c ∧ yes = wFail c ∧ no = wFull c) ∨
      ∃ k n, l = rKilled k n ∧ yes = rFail k ∧ no = rSleep k n := by
  cases l <;> cases x <;> cases h <;> simp

/-- The statements that only look at the pipe, and where they lead. -/
inductive Looks (pi : Pipe) : PipeLoc → PipeLoc → Prop where
  | wLoop (c : WriteCall) : Looks pi (wLoop c) (wOpen c)
  | wLoopEnd (c : WriteCall) : Looks pi (wLoop c) (wEnd c)
  | wOpen (c : WriteCall) (h : pi.readopen = true) : Looks pi (wOpen c) (wKilled c)
  | wShut (c : WriteCall) (h : pi.readopen = false) : Looks pi (wOpen c) (wFail c)
  | wFull (c : WriteCall) (h : pi.Full) : Looks pi (wFull c) (wWakeup c)
  | wRoom (c : WriteCall) (h : ¬ pi.Full) : Looks pi (wFull c) (wCopy c)
  | wBadCopy (c : WriteCall) : Looks pi (wCopy c) (wEnd c)
  | rWait (k : ℕ) (n : ℤ) (h : pi.Empty ∧ pi.writeopen = true) : Looks pi (rLoop k n) (rKilled k n)
  | rGo (k : ℕ) (n : ℤ) : Looks pi (rLoop k n) (rFor k n 0)
  | rDone (k : ℕ) (n : ℤ) (i : ℕ) : Looks pi (rFor k n i) (rEnd k i)
  | rData (k : ℕ) (n : ℤ) (i : ℕ) (h : ¬ pi.Empty) : Looks pi (rFor k n i) (rCopy k n i)
  | rBadCopy (k : ℕ) (n : ℤ) (i : ℕ) (r : ℤ) : Looks pi (rCopy k n i) (rEnd k r)
  | cTest (k : ℕ) (w b : Bool) : Looks pi (cTest k w) (cRelease k w b)

/-- The other statements store a byte, go on after one, or close an end. -/
lemma code_act (h : code p l x = .act f) (hf : f d = .next (l', d')) : (Looks d.pi l l' ∧ d' = d) ∨
      (∃ c ch, l = wCopy c ∧ l' = wLoop { c with i := c.i + 1 } ∧ d' = d.store p c ch) ∨
      (∃ k n i, l = rCopy k n i ∧ l' = rFor k n (i + 1) ∧ d' = d.deliver) ∨
      ∃ k w, l = cClose k w ∧ l' = cWakeup k w ∧ d' = d.shut w := by
  have hlook : ∀ g : Pipe → PipeLoc, look g = .act f → l' = g d.pi ∧ d' = d := by
    intro g hg
    cases hg
    injection hf with hf
    exact ⟨(Prod.mk.inj hf).1.symm, (Prod.mk.inj hf).2.symm⟩
  have hstuck : stuck ≠ (.act f : Instr Empty PipeChan PipeLoc (PipeHist ι)) := by
    intro hg
    cases hg
    cases hf
  cases l with
  | idle k => cases x <;> first | exact absurd h hstuck | cases h
  | wLoop c =>
    rw [code] at h
    obtain ⟨rfl, rfl⟩ := hlook _ h
    refine .inl ⟨?_, rfl⟩
    split_ifs
    · exact .wLoop c
    · exact .wLoopEnd c
  | wOpen c =>
    rw [code] at h
    obtain ⟨rfl, rfl⟩ := hlook _ h
    refine .inl ⟨?_, rfl⟩
    split_ifs with hopen
    · exact .wOpen c hopen
    · exact .wShut c (by simpa using hopen)
  | wFull c =>
    rw [code] at h
    obtain ⟨rfl, rfl⟩ := hlook _ h
    refine .inl ⟨?_, rfl⟩
    split_ifs with hfull
    · exact .wFull c hfull
    · exact .wRoom c hfull
  | wCopy c =>
    rcases x with _ | _ | _ | (_ | ch) | _
    case copyin.none =>
      obtain ⟨rfl, rfl⟩ := hlook (fun _ => wEnd c) h
      exact .inl ⟨.wBadCopy c, rfl⟩
    case copyin.some =>
      cases h
      cases hf
      exact .inr (.inl ⟨c, ch, rfl, rfl, rfl⟩)
    all_goals exact absurd h hstuck
  | rLoop k n =>
    rw [code] at h
    obtain ⟨rfl, rfl⟩ := hlook _ h
    refine .inl ⟨?_, rfl⟩
    split_ifs with hwait
    · exact .rWait k n hwait
    · exact .rGo k n
  | rFor k n i =>
    rw [code] at h
    obtain ⟨rfl, rfl⟩ := hlook _ h
    refine .inl ⟨?_, rfl⟩
    split_ifs with hlt hempty
    · exact .rDone k n i
    · exact .rData k n i hempty
    · exact .rDone k n i
  | rCopy k n i =>
    rcases x with _ | _ | _ | _ | (_ | _)
    case copyout.false =>
      obtain ⟨rfl, rfl⟩ := hlook (fun _ => rEnd k (if i = 0 then -1 else i)) h
      exact .inl ⟨.rBadCopy k n i _, rfl⟩
    case copyout.true =>
      cases h
      cases hf
      exact .inr (.inr (.inl ⟨k, n, i, rfl, rfl, rfl⟩))
    all_goals exact absurd h hstuck
  | cClose k w =>
    cases h
    cases hf
    exact .inr (.inr (.inr ⟨k, w, rfl, rfl, rfl⟩))
  | cTest k w =>
    rw [code] at h
    obtain ⟨rfl, rfl⟩ := hlook _ h
    exact .inl ⟨.cTest k w _, rfl⟩
  | _ => cases h

/-- Any number of processes that use one pipe. -/
def client (ι : Type) : Client Empty ι PipeChan PipeLoc (PipeHist ι) PipeIn Empty where
  code := code
  env := nofun
  holds := holds
  respects := code_respects

/-! ## The pipe is a queue -/

/-- The delivered bytes, followed by those in the pipe, are the accepted ones. -/
structure Fifo (d : PipeHist ι) : Prop where
  nread_lt : d.pi.nread < 2 ^ 32
  nwrite_lt : d.pi.nwrite < 2 ^ 32
  used_le : d.pi.used ≤ PIPESIZE
  queue : d.delivered ++ d.pi.buffered = d.accepted.map PipeByte.byte

lemma Fifo.full_iff (h : Fifo d) : d.pi.Full ↔ d.pi.used = PIPESIZE :=
  (Ring.used_eq_iff h.nread_lt h.nwrite_lt (by norm_num)).symm

lemma Fifo.store (h : Fifo d) (p : ι) (c : WriteCall) (ch : UInt8)
    (hfull : ¬ d.pi.Full) : Fifo (d.store p c ch) := by
  have hroom : d.pi.used < PIPESIZE := by
    have := h.used_le
    rw [h.full_iff] at hfull
    omega
  have hlt : Ring.used (2 ^ 32) d.pi.nread d.pi.nwrite + 1 < 2 ^ 32 := by
    simp only [used, PIPESIZE] at hroom
    omega
  refine ⟨h.nread_lt, Nat.mod_lt _ (by norm_num), ?_, ?_⟩
  · simp only [PipeHist.store, put, used]
    rw [Ring.used_put h.nread_lt h.nwrite_lt hlt]
    exact hroom
  · simp only [PipeHist.store, put, buffered, map_append, map_cons, map_nil]
    rw [Ring.contents_put (by norm_num) _ _ h.nread_lt h.nwrite_lt hroom hlt, ← append_assoc]
    exact congrArg (· ++ [ch]) h.queue

lemma Fifo.deliver (h : Fifo d) (hempty : ¬ d.pi.Empty) : Fifo d.deliver := by
  refine ⟨Nat.mod_lt _ (by norm_num), h.nwrite_lt, ?_, ?_⟩
  · have := Ring.used_take h.nread_lt h.nwrite_lt hempty
    have := h.used_le
    simp only [PipeHist.deliver, skip, used] at this ⊢
    omega
  · simp only [PipeHist.deliver, skip, buffered, peek]
    rw [append_assoc, singleton_append,
      ← Ring.contents_take (by norm_num) _ h.nread_lt h.nwrite_lt hempty]
    exact h.queue

lemma Fifo.shut (h : Fifo d) (w : Bool) : Fifo (d.shut w) := by
  cases w <;> exact ⟨h.nread_lt, h.nwrite_lt, h.used_le, h.queue⟩

/-! ## Each writer's bytes are in its own order -/

variable [DecidableEq ι] {c : WriteCall}

/-- The indices accepted so far from a call of a writer. -/
def indices (d : PipeHist ι) (p : ι) (k : ℕ) : List ℕ :=
  (d.accepted.filter fun e => e.writer = p ∧ e.call = k).map PipeByte.idx

/-- The number of a process's call, or of its next one, and the bytes of it stored so far. -/
def progress : PipeLoc → ℕ × ℕ
  | idle k => (k, 0)
  | wLoop c | wOpen c | wKilled c | wFail c | wFull c | wWakeup c | wSleep c | wCopy c | wEnd c
  | wRelease c => (c.call, c.i)
  | rLoop k _ | rKilled k _ | rFail k | rSleep k _ | rFor k _ _ | rCopy k _ _ | rEnd k _
  | rRelease k _ => (k, 0)
  | cClose k _ | cWakeup k _ | cTest k _ | cRelease k _ _ => (k, 0)

/-- Every call's bytes have been accepted from the first on, without a gap, and the calls of one
writer one after the other. -/
structure Ordered (d : PipeHist ι) : Prop where
  call : ∀ p k, ∃ n, d.indices p k = range n
  calls : d.accepted.Pairwise fun a b => a.writer = b.writer → a.call ≤ b.call

/-- What has been accepted from `p` when it is at `l`. -/
structure Upto (d : PipeHist ι) (p : ι) (l : PipeLoc) : Prop where
  now : d.indices p (progress l).1 = range (progress l).2
  past : ∀ e ∈ d.accepted, e.writer = p → e.call ≤ (progress l).1

lemma indices_store (d : PipeHist ι) (p q : ι) (c : WriteCall) (k : ℕ) (ch : UInt8) :
    (d.store p c ch).indices q k = d.indices q k ++ if p = q ∧ c.call = k then [c.i] else [] := by
  simp only [indices, store, filter_append, map_append]
  congr 1
  by_cases h : p = q ∧ c.call = k <;> simp [h]

lemma Upto.next (h : Upto d p l) : Upto d p (idle ((progress l).1 + 1)) := by
  refine ⟨?_, fun e he hp => (h.past e he hp).trans (Nat.le_succ _)⟩
  have hnone : d.accepted.filter (fun e => e.writer = p ∧ e.call = (progress l).1 + 1) = [] := by
    rw [filter_eq_nil_iff]
    intro e he
    simp only [decide_eq_true_eq, not_and]
    intro hp hcall
    have := h.past e he hp
    omega
  have hlist : d.indices p ((progress l).1 + 1) = [] := by rw [indices, hnone]; rfl
  exact hlist

lemma Upto.congr (h : Upto d p l) (hl : progress l' = progress l) : Upto d p l' := by
  refine ⟨?_, ?_⟩
  · rw [hl]; exact h.now
  · rw [hl]; exact h.past

lemma Upto.store (h : Upto d p (wCopy c)) (ch : UInt8) :
    Upto (d.store p c ch) p (wLoop { c with i := c.i + 1 }) := by
  refine ⟨?_, fun e he hp => ?_⟩
  · have hnow : d.indices p c.call = range c.i := h.now
    simp [progress, indices_store, hnow, range_succ]
  · simp only [PipeHist.store, mem_append, mem_singleton] at he
    rcases he with he | rfl
    · exact h.past e he hp
    · exact le_rfl

lemma Upto.store_other {q : ι} (h : Upto d q l) (hpq : p ≠ q)
    (c : WriteCall) (ch : UInt8) : Upto (d.store p c ch) q l := by
  refine ⟨?_, fun e he hp => ?_⟩
  · rw [indices_store]
    simpa [hpq] using h.now
  · simp only [PipeHist.store, mem_append, mem_singleton] at he
    rcases he with he | rfl
    · exact h.past e he hp
    · exact absurd hp hpq

lemma Ordered.store (h : Ordered d)
    (hp : Upto d p (wCopy c)) (ch : UInt8) : Ordered (d.store p c ch) := by
  refine ⟨fun q k => ?_, ?_⟩
  · rw [indices_store]
    by_cases hq : p = q ∧ c.call = k
    · obtain ⟨rfl, rfl⟩ := hq
      refine ⟨c.i + 1, ?_⟩
      have hnow : d.indices p c.call = range c.i := hp.now
      simp [hnow, range_succ]
    · simpa [hq] using h.call q k
  · simp only [PipeHist.store, pairwise_append, pairwise_singleton, true_and,
      mem_singleton, forall_eq]
    exact ⟨h.calls, fun e he hw => hp.past e he hw⟩

/-! ## What the processes know -/

/-- What a process knows of the pipe at a control point inside its calls. Bytes it has stored since
its last `wakeup(&pi->nread)` it has stored without giving up the lock. -/
def Knows (pi : Pipe) : MLoc PipeLoc → Prop
  | .here (wLoop c) | .here (wOpen c) => c.told ≤ c.i ∧ (c.told < c.i → pi.readopen = true)
  | .here (wKilled c) | .here (wFull c) => c.told ≤ c.i ∧ pi.readopen = true
  | .here (wWakeup _) => pi.readopen = true ∧ pi.Full
  | .here (wSleep c) => c.told = c.i ∧ pi.readopen = true ∧ pi.Full
  | .here (wCopy c) => c.told ≤ c.i ∧ pi.readopen = true ∧ ¬ pi.Full
  | .here (wRelease c) => c.told = c.i
  | .here (rKilled _ _) | .here (rSleep _ _) => pi.Empty ∧ pi.writeopen = true
  | .here (rCopy _ _ _) => ¬ pi.Empty
  | .here _ => True
  | .waiting l => (∃ c, l = wLoop c ∧ c.told = c.i) ∨ ∃ k n, l = rLoop k n

/-- The invariant of all runs. -/
structure Inv (m : Mon ι PipeLoc (PipeHist ι)) : Prop where
  fifo : Fifo m.data
  ordered : Ordered m.data
  upto : ∀ p, Upto m.data p (m.loc p).point
  knows : ∀ p, Knows m.data.pi (m.loc p)

variable {m : Mon ι PipeLoc (PipeHist ι)} {killed' : ι → Bool}

lemma Inv.move (h : Inv m) {c' : MLoc PipeLoc} {lk' : Option ι} (hupto : Upto m.data p c'.point)
    (hknows : Knows m.data.pi c') : Inv ⟨lk', Function.update m.loc p c', killed', m.data⟩ := by
  refine ⟨h.fifo, h.ordered, fun q => ?_, fun q => ?_⟩ <;> by_cases hq : q = p
  · subst hq; simpa using hupto
  · simpa [hq] using h.upto q
  · subst hq; simpa using hknows
  · simpa [hq] using h.knows q

omit [DecidableEq ι] in
/-- While process `p` holds `pi->lock`, the others know nothing of the pipe that could change. -/
lemma knows_of_lock (hlock : Mon.LockInv (client ι) m) {q : ι} (hp : m.lk = some p) (hq : q ≠ p)
    (h : Knows m.data.pi (m.loc q)) (pi : Pipe) : Knows pi (m.loc q) := by
  have hnot : ¬ Mon.Holds (client ι) (m.loc q) := by
    rw [← hlock.owner q, hp]
    simpa using Ne.symm hq
  rcases hc : m.loc q with l | l
  · rw [hc] at hnot
    cases l <;> first | trivial | exact absurd trivial hnot
  · rw [hc] at h
    exact h

section

variable (h : Inv m) (hlock : Mon.LockInv (client ι) m)
include h hlock

lemma Inv.change (hp : m.lk = some p) (hfifo : Fifo d')
    (hordered : Ordered d') (hupto : Upto d' p l')
    (hothers : ∀ q, q ≠ p → Upto d' q (m.loc q).point) (hknows : Knows d'.pi (.here l')) :
    Inv ⟨m.lk, Function.update m.loc p (.here l'), killed', d'⟩ := by
  refine ⟨hfifo, hordered, fun q => ?_, fun q => ?_⟩ <;> by_cases hq : q = p
  · subst hq; simpa [MLoc.point] using hupto
  · simpa [hq] using hothers q hq
  · subst hq; simpa using hknows
  · simpa [hq] using knows_of_lock hlock hp hq (h.knows q) d'.pi

lemma Inv.act (hl : m.loc p = .here l) (hc : code p l x = .act f) (hf : f m.data = .next (l', d')) :
    Inv ⟨m.lk, Function.update m.loc p (.here l'), m.killed, d'⟩ := by
  have hupto := h.upto p
  have hself := h.knows p
  rw [hl] at hupto hself
  have hlk : holds l → m.lk = some p := by
    intro hh
    refine (hlock.owner p).mpr ?_
    rw [hl]
    exact hh
  rcases code_act hc hf with ⟨hlooks, rfl⟩ | ⟨c, ch, rfl, rfl, rfl⟩ | ⟨k, n, i, rfl, rfl, rfl⟩ |
    ⟨k, w, rfl, rfl, rfl⟩
  · cases hlooks with
    | wLoop c => exact h.move (hupto.congr rfl) hself
    | wOpen c hopen => exact h.move (hupto.congr rfl) ⟨hself.1, hopen⟩
    | wFull c hfull => exact h.move (hupto.congr rfl) ⟨hself.2, hfull⟩
    | wRoom c hroom => exact h.move (hupto.congr rfl) ⟨hself.1, hself.2, hroom⟩
    | rWait k n hwait | rData k n i hwait => exact h.move (hupto.congr rfl) hwait
    | _ => exact h.move (hupto.congr rfl) trivial
  · obtain ⟨hle, hopen, hfull⟩ := hself
    refine h.change hlock (hlk trivial) (h.fifo.store p c ch hfull) (h.ordered.store hupto ch)
      (hupto.store ch) (fun q hq => (h.upto q).store_other (Ne.symm hq) c ch) ?_
    exact ⟨hle.trans (Nat.le_succ _), fun _ => hopen⟩
  · exact h.change hlock (hlk trivial) (h.fifo.deliver hself) ⟨h.ordered.call, h.ordered.calls⟩
      ⟨hupto.now, hupto.past⟩ (fun q _ => ⟨(h.upto q).now, (h.upto q).past⟩) trivial
  · exact h.change hlock (hlk trivial) (h.fifo.shut w) ⟨h.ordered.call, h.ordered.calls⟩
      ⟨hupto.now, hupto.past⟩ (fun q _ => ⟨(h.upto q).now, (h.upto q).past⟩) trivial

lemma Inv.step {a : MAct ι PipeIn Empty}
    {m' : Mon ι PipeLoc (PipeHist ι)} (hs : Mon.Moves (client ι) m a m') : Inv m' := by
  have hat : ∀ {p : ι} {l : PipeLoc}, m.loc p = .here l →
      Upto m.data p l ∧ Knows m.data.pi (.here l) := by
    intro p l hl
    have hupto := h.upto p
    have hself := h.knows p
    rw [hl] at hupto hself
    exact ⟨hupto, hself⟩
  cases hs with
  | acquire hl hc _ =>
    obtain ⟨hupto, -⟩ := hat hl
    obtain ⟨k, rfl, ⟨n, rfl⟩ | ⟨n, rfl⟩ | ⟨w, rfl⟩⟩ := code_acquire hc
    · exact h.move (hupto.congr rfl) ⟨le_rfl, fun hlt => absurd hlt (lt_irrefl _)⟩
    · exact h.move (hupto.congr rfl) trivial
    · exact h.move (hupto.congr rfl) trivial
  | release hl hc _ =>
    obtain ⟨hupto, -⟩ := hat hl
    rcases code_release hc with ⟨c, rfl, rfl⟩ | ⟨c, rfl, rfl⟩ | ⟨k, rfl, rfl⟩ | ⟨k, r, rfl, rfl⟩ |
      ⟨k, w, b, rfl, rfl⟩ <;> exact h.move hupto.next trivial
  | sleep hl hc _ =>
    obtain ⟨hupto, hself⟩ := hat hl
    rcases code_sleep hc with ⟨c, rfl, rfl, rfl⟩ | ⟨k, n, rfl, rfl, rfl⟩
    · exact h.move (hupto.congr rfl) (.inl ⟨c, rfl, hself.1⟩)
    · exact h.move (hupto.congr rfl) (.inr ⟨k, n, rfl⟩)
  | wakeup hl hc =>
    obtain ⟨hupto, hself⟩ := hat hl
    rcases code_wakeup hc with ⟨c, rfl, rfl, rfl⟩ | ⟨c, rfl, rfl, rfl⟩ | ⟨k, r, rfl, rfl, rfl⟩ |
      ⟨k, w, rfl, rfl, rfl⟩
    · exact h.move (hupto.congr rfl) ⟨rfl, hself⟩
    · exact h.move (hupto.congr rfl) rfl
    · exact h.move (hupto.congr rfl) trivial
    · exact h.move (hupto.congr rfl) trivial
  | killed hl hc =>
    obtain ⟨hupto, hself⟩ := hat hl
    rcases code_killed hc with ⟨c, rfl, rfl, rfl⟩ | ⟨k, n, rfl, rfl, rfl⟩ <;> split_ifs
    · exact h.move (hupto.congr rfl) trivial
    · exact h.move (hupto.congr rfl) hself
    · exact h.move (hupto.congr rfl) trivial
    · exact h.move (hupto.congr rfl) hself
  | act hl hc hf => exact h.act hlock hl hc hf
  | @resume p l hl _ =>
    have hupto := h.upto p
    have hself := h.knows p
    rw [hl] at hupto hself
    refine h.move hupto ?_
    rcases hself with ⟨c, rfl, htold⟩ | ⟨k, n, rfl⟩
    · exact ⟨htold.le, fun hlt => absurd htold hlt.ne⟩
    · trivial
  | kill p => exact ⟨h.fifo, h.ordered, h.upto, h.knows⟩
  | @env y => exact y.elim

end

/-! ## The whole system -/

/-- Any number of processes on one pipe, with `sleep` and `wakeup` in their steps. -/
abbrev Sys (ι : Type) := SW ι PipeChan PipeLoc (PipeHist ι) PipeIn

/-- After `pipealloc`, before the first call. -/
structure Initial (s : Sys ι) : Prop where
  lk : s.lk = none
  state : ∀ p, s.state p = .running
  pc : ∀ p, s.pc p = .here (idle 0)
  data : s.data = ⟨.init, [], []⟩

omit [DecidableEq ι] in
lemma Initial.sw {s : Sys ι} (h : Initial s) : SW.Initial (client ι) s :=
  ⟨h.lk, h.state, fun p => ⟨idle 0, h.pc p, fun hf => hf⟩⟩

lemma Initial.inv {s : Sys ι} (h : Initial s) : Inv s.proj := by
  have hloc : ∀ p, s.proj.loc p = .here (idle 0) := fun p => by simp [SW.proj, h.pc p, SW.locOf]
  have hdata : s.proj.data = ⟨.init, [], []⟩ := h.data
  refine ⟨⟨?_, ?_, ?_, ?_⟩, ⟨fun p k => ⟨0, ?_⟩, ?_⟩, fun p => ⟨?_, ?_⟩, fun p => ?_⟩
  · simp [hdata, init]
  · simp [hdata, init]
  · simp [hdata, init, used, Ring.used]
  · simp [hdata, init, buffered, Ring.contents, Ring.used]
  · simp [hdata, indices]
  · simp [hdata]
  · simp [hloc, hdata, indices, MLoc.point, progress]
  · simp [hdata]
  · simp [hloc, Knows]

end PipeHist

open PipeHist in
/-- **A pipe is a FIFO byte channel.**  Whatever any number of processes do with it, with `sleep`
and `wakeup` in their steps and user copies failing anywhere: the bytes delivered to readers,
followed by the bytes in the ring, are the bytes accepted from writers; each call's bytes are
accepted from the first on without a gap, and each writer's calls one after the other; there are at
most `PIPESIZE` bytes in the ring; and a `piperead` whose `copyout` fails leaves the pipe as it is.
-/
theorem pipe_fifo {ι : Type} [DecidableEq ι] {table : List ι} {s0 s : Sys ι}
    {as : List (SWAct ι PipeIn Empty)} (h0 : Initial s0)
    (hrun : Run (SW.step (client ι) table) s0 as s) :
    s.data.delivered ++ s.data.pi.buffered = s.data.accepted.map PipeByte.byte ∧
    ((∀ p k, ∃ n, s.data.indices p k = List.range n) ∧
      s.data.accepted.Pairwise fun a b => a.writer = b.writer → a.call ≤ b.call) ∧
    s.data.pi.used ≤ PIPESIZE ∧
    ∀ p k n i s', s.pc p = .here (.rCopy k n i) →
      SW.step (client ι) table s (.run p (.copyout false)) = .next s' → s'.data = s.data := by
  have hrun' : RunOf (SW.step (client ι) table) (SW.Allowed (client ι) fun _ _ => True) s0 as s :=
    hrun.toRunOf.mono fun _ _ _ _ _ => trivial
  obtain ⟨-, -, hinv⟩ :=
    SW.mon_invariant (fun _ _ _ h hlock _ hm => h.step hlock hm) h0.sw h0.inv hrun'
  refine ⟨hinv.fifo.queue, ⟨hinv.ordered.call, hinv.ordered.calls⟩, hinv.fifo.used_le, ?_⟩
  intro p k n i s' hpc hs
  simp only [SW.step, SW.runStep, hpc] at hs
  injection hs with hs
  rw [← hs]

/-- Two processes before their first call. -/
def samplePipe : PipeHist.Sys Bool := .fresh (.idle 0) ⟨.init, [], []⟩

/-- Process `false` writes two bytes, and process `true` reads one of them. -/
def samplePipeActs : List (SWAct Bool PipeIn Empty) :=
  List.replicate 5 (.run false (.write 2)) ++ .run false (.copyin (some 65)) ::
    List.replicate 4 (.run false (.write 2)) ++ .run false (.copyin (some 66)) ::
    List.replicate 7 (.run false (.write 2)) ++
    List.replicate 3 (.run true (.read 1)) ++ [.run true (.copyout true)]

theorem pipe_fifo_sample :
    ∃ s, Run (SW.step (PipeHist.client Bool) [false, true]) samplePipe samplePipeActs s ∧
      s.data.delivered = [65] ∧ s.data.pi.buffered = [66] ∧ s.data.pi.used ≤ PIPESIZE := by
  have h0 : PipeHist.Initial samplePipe := ⟨rfl, fun _ => rfl, fun _ => rfl, rfl⟩
  have hrun : Run (SW.step (PipeHist.client Bool) [false, true]) samplePipe samplePipeActs _ :=
    Run.of_exec rfl
  obtain ⟨hqueue, -, hused, -⟩ := pipe_fifo h0 hrun
  exact ⟨_, hrun, rfl, (List.cons.inj hqueue).2, hused⟩

end Xv6
