import Xv6.Proc.Table

/-!
# A process runs on at most one CPU

`p->lock` is what keeps a process on one CPU: the scheduler sets `p->state` and `c->proc` under it,
hands it over in `swtch`, and takes it back before `c->proc` is cleared. `ProcSys.CpuInv` says at
each point of each CPU which lock it holds, and what that means for the process it has: a process
that is on a CPU is `running` unless that CPU holds its lock, and a process that is on no CPU and
may run again has a context that was saved completely.

The other functions change the state of another process only under its lock. `ProcSys.notLive` is
what that gives them: a process whose lock another CPU holds and that is not `running` is on no CPU.
-/

namespace Xv6

open Function

namespace ProcPc

variable {ι : Type} {l : ProcPc ι}

/-- The process lock that the kernel thread of `p` holds. -/
def lock (p : ι) : ProcPc ι → Option ι
  | .yieldSet | .sleepSet _ | .sched _ | .saving _ | .resumed _ | .forkret | .kexitSet _
  | .kexitRelease | .kwaitKilled | .kwaitSleepRelease | .kwaitSleepSet => some p
  | .wakeupHeld _ j _ _ | .kkillHeld _ j _ | .kwaitHeld j _ | .kforkHeld j _ | .kforkCopy j
  | .kforkRun j => some j
  | _ => none

/-- The state of a process whose kernel thread is here and has a CPU. -/
def expect : ProcPc ι → ProcState
  | .sched g | .saving g => g.state
  | .kexitRelease => .zombie
  | _ => .running

/-- The slot that `kfork` is filling. -/
def child? : ProcPc ι → Option ι
  | .kforkCopy np | .kforkWait np | .kforkParent np | .kforkWaitRelease np | .kforkLock np
  | .kforkRun np => some np
  | _ => none

/-- A context with which a process can be resumed. -/
def Resumable : ProcPc ι → Prop
  | .resumed .kexit => False
  | .resumed _ | .forkret => True
  | _ => False

/-- Anything but the point after `sched()` in `kexit`. -/
def Alive : ProcPc ι → Prop
  | .resumed .kexit => False
  | _ => True

lemma Resumable.alive (h : l.Resumable) : l.Alive := by
  unfold Resumable at h
  unfold Alive
  split at h <;> simp_all

lemma Resumable.expect (h : l.Resumable) : l.expect = .running := by
  unfold Resumable at h
  split at h <;> simp_all [ProcPc.expect]

lemma Resumable.lock (h : l.Resumable) (p : ι) : l.lock p = some p := by
  unfold Resumable at h
  split at h <;> simp_all [ProcPc.lock]

end ProcPc

namespace Cpu

variable {ι : Type}

/-- The process that a CPU is responsible for: it has made it `running` and has not yet given up
its lock after the process came back. -/
def proc? : Cpu ι → Option ι
  | .setProc p _ | .swtch p _ | .run p _ | .back p _ => some p
  | _ => none

/-- `c->proc`. -/
def cproc? : Cpu ι → Option ι
  | .swtch p _ | .run p _ | .back p _ => some p
  | _ => none

/-- The process lock that a CPU holds. -/
def lock (pc : ι → ProcPc ι) : Cpu ι → Option ι
  | .scan _ => none
  | .test p _ | .setProc p _ | .swtch p _ | .back p _ | .release p _ => some p
  | .run p _ => (pc p).lock p

end Cpu

/-! ## What the code does to locks and states -/

namespace ProcSys

section code

variable {ι : Type} [DecidableEq ι] {init : ι} {table : List ι} {proc : ι → ProcEntry ι} {p j : ι}
  {l q : ProcPc ι} {x : ProcInput} {f : ProcEntry ι → ProcEntry ι}

lemma code_goto (h : Code init table proc p x l (.goto q)) :
    q.lock p = l.lock p ∧ q.expect = l.expect ∧ q.Alive ∧ q.child? = l.child? := by
  cases h with
  | @wakeupDone ch k => cases k <;> exact ⟨rfl, rfl, trivial, rfl⟩
  | _ => exact ⟨rfl, rfl, trivial, rfl⟩

lemma code_acquire (h : Code init table proc p x l (.acquire j q)) :
    l.lock p = none ∧ q.lock p = some j ∧ q.expect = l.expect ∧ q.Alive ∧ q.child? = l.child? := by
  cases h <;> exact ⟨rfl, rfl, rfl, trivial, rfl⟩

/-- What a section under the lock of `j` can do to the state of `j`. -/
inductive StateMove (l : ProcPc ι) (j : ι) (q : ProcPc ι) : ProcState → ProcState → Prop where
  | same {st : ProcState} (hq : q.child? = l.child?) : StateMove l j q st st
  | wake (hq : q.child? = l.child?) : StateMove l j q .sleeping .runnable
  | unfork {st : ProcState} (hl : l.child? = some j) (hq : q.child? = none) :
      StateMove l j q st .unused
  | fork {st : ProcState} (hl : l.child? = some j) (hq : q.child? = none) :
      StateMove l j q st .runnable

lemma code_release (h : Code init table proc p x l (.release j f q)) :
    l.lock p = some j ∧ q.lock p = none ∧ l.expect = .running ∧ q.expect = .running ∧ q.Alive ∧
      ∀ e, StateMove l j q e.state (f e).state := by
  cases h with
  | @wakeup ch k j todo =>
    refine ⟨rfl, rfl, rfl, rfl, trivial, fun e => ?_⟩
    rw [ProcEntry.wakeup]
    split_ifs with he
    · rw [he.1]
      exact .wake rfl
    · exact .same rfl
  | kkill =>
    refine ⟨rfl, rfl, rfl, rfl, trivial, fun e => ?_⟩
    simp only [ProcEntry.kkill]
    split_ifs with he
    · rw [he]
      exact .wake rfl
    · exact .same rfl
  | kforkFail => exact ⟨rfl, rfl, rfl, rfl, trivial, fun e => .unfork rfl rfl⟩
  | kforkRun => exact ⟨rfl, rfl, rfl, rfl, trivial, fun e => .fork rfl rfl⟩
  | _ => exact ⟨rfl, rfl, rfl, rfl, trivial, fun e => .same rfl⟩

lemma code_reap (h : Code init table proc p x l (.reap j q)) :
    l.lock p = some j ∧ q.lock p = none ∧ l.expect = .running ∧ q.expect = .running ∧ q.Alive ∧
      q.child? = l.child? ∧ (proc j).state = .zombie := by
  cases h with
  | kwaitReap hj => exact ⟨rfl, rfl, rfl, rfl, trivial, rfl, hj⟩

lemma code_acquireWait (h : Code init table proc p x l (.acquireWait q)) :
    q.lock p = l.lock p ∧ q.expect = l.expect ∧ q.Alive ∧ q.child? = l.child? := by
  cases h <;> exact ⟨rfl, rfl, trivial, rfl⟩

lemma code_releaseWait (h : Code init table proc p x l (.releaseWait q)) :
    q.lock p = l.lock p ∧ q.expect = l.expect ∧ q.Alive ∧ q.child? = l.child? := by
  cases h <;> exact ⟨rfl, rfl, trivial, rfl⟩

lemma code_reparent {k : ι} (h : Code init table proc p x l (.reparent j k q)) :
    q.lock p = l.lock p ∧ q.expect = l.expect ∧ q.Alive ∧ q.child? = l.child? := by
  cases h <;> exact ⟨rfl, rfl, trivial, rfl⟩

lemma code_give {ch : Option (Chan ι)} {st : ProcState}
    (h : Code init table proc p x l (.give ch st q)) :
    q.lock p = l.lock p ∧ q.expect = st ∧ l.expect = .running ∧ q.Alive ∧ q.child? = l.child? := by
  cases h <;> exact ⟨rfl, rfl, rfl, trivial, rfl⟩

lemma code_zombie {status : ℤ} (h : Code init table proc p x l (.zombie status q)) :
    q.lock p = l.lock p ∧ q.expect = .zombie ∧ l.expect = .running ∧ q.Alive ∧
      q.child? = l.child? := by
  cases h
  exact ⟨rfl, rfl, rfl, trivial, rfl⟩

end code

/-! ## The invariant -/

variable {ι κ : Type} [DecidableEq ι] [DecidableEq κ]

/-- The process lock that CPU `c` holds. -/
def lockOf (s : ProcSys ι κ) (c : κ) : Option ι := (s.cpu c).lock s.pc

/-- No CPU is responsible for `p`. -/
def Off (s : ProcSys ι κ) (p : ι) : Prop := ∀ c, (s.cpu c).proc? ≠ some p

/-- `p` can be resumed: its context is complete. -/
def Ready (s : ProcSys ι κ) (p : ι) : Prop := s.context p = .saved ∧ (s.pc p).Resumable

/-- What holds of a process that no CPU is responsible for. -/
structure OffOk (s : ProcSys ι κ) (p : ι) : Prop where
  idle : (s.proc p).state ≠ .running
  ready : (s.proc p).state = .runnable ∨ (s.proc p).state = .sleeping ∨
    (s.proc p).state = .used → s.Ready p

/-- What holds of the process that a CPU is responsible for. -/
def CpuOk (s : ProcSys ι κ) : Cpu ι → Prop
  | .setProc p _ | .swtch p _ => (s.proc p).state = .running ∧ s.Ready p
  | .run p _ => (s.proc p).state = (s.pc p).expect ∧ (s.pc p).Alive
  | .back p _ => s.OffOk p
  | _ => True

/-- The locks are held where the code says so. -/
def LockInv (s : ProcSys ι κ) : Prop := ∀ j c, s.plock j = some c ↔ s.lockOf c = some j

/-- A slot that `kfork` is filling is `used`, and only one `kfork` is filling it. -/
structure ForkInv (s : ProcSys ι κ) : Prop where
  used : ∀ p j, (s.pc p).child? = some j → (s.proc j).state = .used
  unique : ∀ p p' j, (s.pc p).child? = some j → (s.pc p').child? = some j → p = p'

/-- CPUs, locks and process states agree. -/
structure CpuInv (s : ProcSys ι κ) : Prop where
  lock : s.LockInv
  cproc : ∀ c, s.cproc c = (s.cpu c).cproc?
  alone : ∀ c c' p, (s.cpu c).proc? = some p → (s.cpu c').proc? = some p → c = c'
  cpu : ∀ c, s.CpuOk (s.cpu c)
  off : ∀ p, s.Off p → s.OffOk p
  fork : s.ForkInv

variable {s s' : ProcSys ι κ} {c c' : κ} {p i j : ι} {todo : List ι} {q : ProcPc ι}

variable {k : Cpu ι} {table : List ι} {lk : Option κ}

lemma CpuOk.congr (h : s.CpuOk k)
    (hp : ∀ p, k.proc? = some p → (s'.proc p).state = (s.proc p).state ∧
      s'.context p = s.context p ∧ s'.pc p = s.pc p) : s'.CpuOk k := by
  cases k with
  | scan | test | release => trivial
  | setProc p | swtch p | run p =>
    obtain ⟨h1, h2, h3⟩ := hp p rfl
    simpa only [CpuOk, Ready, h1, h2, h3] using h
  | back p =>
    obtain ⟨h1, h2, h3⟩ := hp p rfl
    exact ⟨by rw [h1]; exact h.idle, by simpa only [Ready, h1, h2, h3] using h.ready⟩

lemma OffOk.congr (h : s.OffOk p) (h1 : (s'.proc p).state = (s.proc p).state)
    (h2 : s'.context p = s.context p) (h3 : s'.pc p = s.pc p) : s'.OffOk p :=
  ⟨by rw [h1]; exact h.idle, by simpa only [Ready, h1, h2, h3] using h.ready⟩

omit [DecidableEq ι] [DecidableEq κ] in
/-- A CPU that is responsible for `j` holds its lock, unless `j` is running. -/
lemma CpuInv.lockOf_proc (h : s.CpuInv) (hc : (s.cpu c).proc? = some j)
    (hst : (s.proc j).state ≠ .running) : s.lockOf c = some j := by
  have hok := h.cpu c
  cases hk : s.cpu c with
  | scan | test | release => rw [hk] at hc; cases hc
  | setProc i | swtch i =>
    rw [hk] at hc hok
    cases hc
    exact absurd hok.1 hst
  | back i =>
    rw [hk] at hc
    cases hc
    rw [lockOf, hk]
    rfl
  | run i =>
    rw [hk] at hc hok
    cases hc
    rw [hok.1] at hst
    rw [lockOf, hk]
    show (s.pc j).lock j = some j
    generalize s.pc j = l at hst
    cases l <;> first | rfl | exact absurd rfl hst

omit [DecidableEq ι] [DecidableEq κ] in
/-- **A process whose lock another CPU holds and that is not running is on no CPU.** -/
lemma CpuInv.notLive (h : s.CpuInv) (hlk : s.plock j = some c) (hc : (s.cpu c).proc? ≠ some j)
    (hst : (s.proc j).state ≠ .running) : s.Off j := by
  intro c' hc'
  have hlk' := (h.lock j c').mpr (h.lockOf_proc hc' hst)
  obtain rfl : c = c' := Option.some.inj (hlk.symm.trans hlk')
  exact hc hc'

lemma CpuInv.lockOf_other (h : s.CpuInv) (hrun : (s.cpu c).proc? = some p) (hc : c' ≠ c)
    (hcpu : s'.cpu c' = s.cpu c') (hpc : ∀ i, i ≠ p → ¬ s.Off i → s'.pc i = s.pc i) :
    s'.lockOf c' = s.lockOf c' := by
  rw [lockOf, lockOf, hcpu]
  cases hk : s.cpu c' with
  | run i rest =>
    have hi : i ≠ p := by
      rintro rfl
      exact hc (h.alone _ _ _ (by rw [hk]; rfl) hrun)
    show (s'.pc i).lock i = (s.pc i).lock i
    rw [hpc i hi fun hoff => hoff c' (by rw [hk]; rfl)]
  | _ => rfl

lemma LockInv.same (h : s.LockInv) (hpl : s'.plock = s.plock)
    (hc : ∀ c, s'.lockOf c = s.lockOf c) : s'.LockInv := by
  intro j c
  rw [hpl, hc]
  exact h j c

lemma LockInv.acquire (h : s.LockInv) (hfree : s.plock j = none)
    (hpl : s'.plock = update s.plock j (some c)) (hn : s.lockOf c = none)
    (hc : s'.lockOf c = some j) (ho : ∀ c', c' ≠ c → s'.lockOf c' = s.lockOf c') : s'.LockInv := by
  intro i c'
  rw [hpl]
  by_cases hcc : c' = c
  · subst hcc
    rw [hc]
    by_cases hi : i = j
    · subst hi
      simp
    · rw [update_of_ne hi, h i c', hn]
      simp [Ne.symm hi]
  · rw [ho c' hcc, ← h i c']
    by_cases hi : i = j
    · subst hi
      simp [hfree, Ne.symm hcc]
    · rw [update_of_ne hi]

lemma LockInv.release (h : s.LockInv) (hheld : s.lockOf c = some j)
    (hpl : s'.plock = update s.plock j none)
    (hc : s'.lockOf c = none) (ho : ∀ c', c' ≠ c → s'.lockOf c' = s.lockOf c') : s'.LockInv := by
  have hj := (h j c).mpr hheld
  intro i c'
  rw [hpl]
  by_cases hcc : c' = c
  · subst hcc
    rw [hc]
    by_cases hi : i = j
    · subst hi
      simp
    · rw [update_of_ne hi, h i c', hheld]
      simp [Ne.symm hi]
  · rw [ho c' hcc, ← h i c']
    by_cases hi : i = j
    · subst hi
      simp [hj, Ne.symm hcc]
    · rw [update_of_ne hi]

lemma ForkInv.same (h : s.ForkInv) (hpc : ∀ i, (s'.pc i).child? = (s.pc i).child?)
    (hst : ∀ i, (s.proc i).state = .used → (s'.proc i).state = .used) : s'.ForkInv where
  used p j hp := hst j (h.used p j (by rw [← hpc]; exact hp))
  unique p p' j hp hp' := h.unique p p' j (by rw [← hpc]; exact hp) (by rw [← hpc]; exact hp')

/-- A step of the kernel thread of `p` after which `p` still has the CPU: every other process is
as it was, or is off the CPUs and fit to be. -/
lemma CpuInv.of_run (h : s.CpuInv) (hrun : s.cpu c = .run p todo) (hcpu : s'.cpu = s.cpu)
    (hcproc : s'.cproc = s.cproc) (hlock : s'.LockInv) (hfork : s'.ForkInv)
    (hp : (s'.proc p).state = (s'.pc p).expect ∧ (s'.pc p).Alive)
    (ho : ∀ i, i ≠ p → ((s'.proc i).state = (s.proc i).state ∧ s'.context i = s.context i ∧
      s'.pc i = s.pc i) ∨ (s.Off i ∧ s'.OffOk i)) : s'.CpuInv where
  lock := hlock
  cproc c' := by rw [hcproc, hcpu]; exact h.cproc c'
  alone := by rw [hcpu]; exact h.alone
  cpu c' := by
    rw [hcpu]
    by_cases hc : c' = c
    · subst hc
      rw [hrun]
      exact hp
    · refine (h.cpu c').congr fun i hi => ?_
      have hip : i ≠ p := by
        rintro rfl
        exact hc (h.alone _ _ _ hi (by rw [hrun]; rfl))
      exact (ho i hip).resolve_right fun hoff => hoff.1 c' hi
  off i hoff := by
    have hoff' : s.Off i := fun c' => by
      have := hoff c'
      rwa [hcpu] at this
    have hip : i ≠ p := by
      rintro rfl
      exact hoff' c (by rw [hrun]; rfl)
    rcases ho i hip with ⟨h1, h2, h3⟩ | hi
    · exact (h.off i hoff').congr h1 h2 h3
    · exact hi.2
  fork := hfork

/-! ## Steps of a kernel thread -/

lemma acquire_eq (hs : acquire lk c s = .next s') : lk = none ∧ s = s' := by
  unfold acquire at hs
  split at hs
  · exact ⟨rfl, Outcome.next.inj hs⟩
  · split_ifs at hs

lemma release_eq (hs : release lk c s = .next s') : lk = some c ∧ s = s' := by
  unfold release at hs
  split_ifs at hs with h
  exact ⟨h, Outcome.next.inj hs⟩

lemma expect_ne_used (l : ProcPc ι) : l.expect ≠ .used := by
  cases l with
  | sched g | saving g => cases g <;> simp [ProcPc.expect, Give.state]
  | _ => simp [ProcPc.expect]

omit [DecidableEq ι] [DecidableEq κ] in
lemma CpuInv.expect (h : s.CpuInv) (hrun : s.cpu c = .run p todo) :
    (s.proc p).state = (s.pc p).expect := by
  have := h.cpu c
  rw [hrun] at this
  exact this.1

omit [DecidableEq ι] [DecidableEq κ] in
lemma lockOf_run (hrun : s.cpu c = .run p todo) : s.lockOf c = (s.pc p).lock p := by
  rw [lockOf, hrun]
  rfl

section

variable (h : s.CpuInv) (hrun : s.cpu c = .run p todo)
include h hrun

lemma CpuInv.lockOf_goto (hcpu : s'.cpu = s.cpu)
    (hpc : s'.pc = update s.pc p q) (hc : c' ≠ c) : s'.lockOf c' = s.lockOf c' :=
  h.lockOf_other (by rw [hrun]; rfl) hc (by rw [hcpu]) fun i hi _ => by
    rw [hpc, update_of_ne hi]

/-- A step of `p` that takes and releases no process lock and changes no state but its own. -/
lemma CpuInv.keep (hcpu : s'.cpu = s.cpu)
    (hcproc : s'.cproc = s.cproc) (hplock : s'.plock = s.plock) (hpc : s'.pc = update s.pc p q)
    (ho : ∀ i, i ≠ p → (s'.proc i).state = (s.proc i).state ∧ s'.context i = s.context i)
    (hl : q.lock p = (s.pc p).lock p) (he : (s'.proc p).state = q.expect) (ha : q.Alive)
    (hch : q.child? = (s.pc p).child?) : s'.CpuInv := by
  obtain ⟨hpc', hother⟩ := eq_update_iff.mp hpc
  refine h.of_run hrun hcpu hcproc ?_ ?_ (by rw [hpc']; exact ⟨he, ha⟩)
    fun i hi => .inl ⟨(ho i hi).1, (ho i hi).2, hother i hi⟩
  · refine h.lock.same hplock fun c' => ?_
    by_cases hc : c' = c
    · subst hc
      rw [lockOf_run (by rw [hcpu]; exact hrun), lockOf_run hrun, hpc', hl]
    · exact h.lockOf_goto hrun hcpu hpc hc
  · refine h.fork.same (fun i => ?_) fun i hi => ?_
    · by_cases hi : i = p
      · subst hi
        rw [hpc', hch]
      · rw [hother i hi]
    · by_cases hip : i = p
      · subst hip
        exact absurd (h.expect hrun ▸ hi) (expect_ne_used _)
      · rw [(ho i hip).1, hi]

lemma CpuInv.acquire (hfree : s.plock j = none)
    (hl : (s.pc p).lock p = none) (hq : q.lock p = some j) (he : q.expect = (s.pc p).expect)
    (ha : q.Alive) (hch : q.child? = (s.pc p).child?) :
    ((s.setPlock j (some c)).goto p q).CpuInv := by
  refine h.of_run hrun rfl rfl ?_ ?_ ?_ fun i hi => .inl ⟨rfl, rfl, update_of_ne hi _ _⟩
  · refine h.lock.acquire hfree rfl (by rw [lockOf_run hrun, hl]) ?_
      fun c' hc => h.lockOf_goto hrun rfl rfl hc
    rw [lockOf_run (s := (s.setPlock j (some c)).goto p q) hrun]
    simpa [goto] using hq
  · refine h.fork.same (fun i => ?_) fun _ hi => hi
    by_cases hi : i = p
    · subst hi
      simpa [goto] using hch
    · simp [goto, setPlock, hi]
  · rw [show ((s.setPlock j (some c)).goto p q).pc p = q from update_self ..]
    exact ⟨he ▸ h.expect hrun, ha⟩

lemma CpuInv.release (hlk : s.plock j = some c)
    (hcpu : s'.cpu = s.cpu) (hcproc : s'.cproc = s.cproc) (hctx : s'.context = s.context)
    (hpl : s'.plock = update s.plock j none) (hpc : s'.pc = update s.pc p q)
    (ho : ∀ i, i ≠ j → s'.proc i = s.proc i) (hl : (s.pc p).lock p = some j)
    (hq : q.lock p = none) (hel : (s.pc p).expect = .running) (heq : q.expect = .running)
    (ha : q.Alive) (hm : StateMove (s.pc p) j q (s.proc j).state (s'.proc j).state ∨
      (q.child? = (s.pc p).child? ∧ (s.proc j).state = .zombie ∧ (s'.proc j).state = .unused)) :
    s'.CpuInv := by
  obtain ⟨hpc', hother⟩ := eq_update_iff.mp hpc
  have hself : j = p → (s.proc j).state = .running := by
    rintro rfl
    rw [h.expect hrun, hel]
  -- a fork fills another slot than its own
  have hchild : (s.pc p).child? = some j → (s.proc j).state = .used ∧ j ≠ p := by
    intro hc
    have hu := h.fork.used p j hc
    exact ⟨hu, fun hjp => by rw [hself hjp] at hu; cases hu⟩
  have hsame : q.child? = (s.pc p).child? → ∀ i, (s'.pc i).child? = (s.pc i).child? := by
    intro hc i
    by_cases hi : i = p
    · subst hi
      rw [hpc', hc]
    · rw [hother i hi]
  refine h.of_run hrun hcpu hcproc ?_ ?_ ?_ ?_
  · refine h.lock.release (by rw [lockOf_run hrun, hl]) hpl ?_
      fun c' hc => h.lockOf_goto hrun hcpu hpc hc
    rw [lockOf_run (by rw [hcpu]; exact hrun), hpc', hq]
  · -- the slots being filled
    have hkeep : q.child? = (s.pc p).child? → (s.proc j).state ≠ .used → s'.ForkInv := by
      intro hc hj
      refine h.fork.same (hsame hc) fun i hi => ?_
      have hij : i ≠ j := by
        rintro rfl
        exact hj hi
      rw [ho i hij, hi]
    have hdrop : (s.pc p).child? = some j → q.child? = none → s'.ForkInv := by
      intro hc hn
      have hne : ∀ i k, (s'.pc i).child? = some k → (s.pc i).child? = some k ∧ i ≠ p := by
        intro i k hk
        by_cases hi : i = p
        · subst hi
          rw [hpc', hn] at hk
          cases hk
        · exact ⟨by rw [← hother i hi]; exact hk, hi⟩
      refine ⟨fun i k hk => ?_, fun i i' k hk hk' => ?_⟩
      · obtain ⟨hk, hi⟩ := hne i k hk
        have hkj : k ≠ j := by
          rintro rfl
          exact hi (h.fork.unique i p k hk hc)
        rw [ho k hkj]
        exact h.fork.used i k hk
      · exact h.fork.unique i i' k (hne i k hk).1 (hne i' k hk').1
    rcases hm with hm | ⟨hc, hz, -⟩
    · generalize hst : (s.proc j).state = st at hm
      generalize hst' : (s'.proc j).state = st' at hm
      cases hm with
      | same hc =>
        refine h.fork.same (hsame hc) fun i hi => ?_
        by_cases hij : i = j
        · subst hij
          rw [hst', ← hst, hi]
        · rw [ho i hij, hi]
      | wake hc => exact hkeep hc (by rw [hst]; simp)
      | unfork hc hn | fork hc hn => exact hdrop hc hn
    · exact hkeep hc (by rw [hz]; simp)
  · -- `p` itself goes on running
    rw [hpc', heq]
    refine ⟨?_, ha⟩
    by_cases hjp : j = p
    · subst hjp
      have hr := hself rfl
      rcases hm with hm | ⟨-, hz, -⟩
      · rw [hr] at hm
        generalize (s'.proc j).state = st' at hm
        cases hm with
        | same => rfl
        | unfork hc | fork hc => exact absurd rfl (hchild hc).2
      · rw [hr] at hz
        cases hz
    · rw [ho p (Ne.symm hjp), h.expect hrun, hel]
  · -- a state that changed is that of a process off the CPUs
    intro i hi
    by_cases hij : i = j
    · subst hij
      have hoff : (s.proc i).state ≠ .running → s.Off i :=
        h.notLive hlk (by rw [hrun]; exact fun hp => hi (Option.some.inj hp).symm)
      have hready : (s.proc i).state = .sleeping ∨ (s.proc i).state = .used →
          s.Off i ∧ s'.Ready i := by
        intro hst
        have ho' := hoff (by rcases hst with hst | hst <;> simp [hst])
        refine ⟨ho', ?_⟩
        have := (h.off i ho').ready (.inr hst)
        exact ⟨by rw [hctx]; exact this.1, by rw [hother i hi]; exact this.2⟩
      rcases hm with hm | ⟨-, hz, hu⟩
      · generalize hst : (s.proc i).state = st at hm
        generalize hst' : (s'.proc i).state = st' at hm
        cases hm with
        | same => exact .inl ⟨rfl, by rw [hctx], hother i hi⟩
        | wake =>
          obtain ⟨ho', hr⟩ := hready (.inl hst)
          exact .inr ⟨ho', by simp [hst'], fun _ => hr⟩
        | unfork hc | fork hc =>
          obtain ⟨ho', hr⟩ := hready (.inr (hchild hc).1)
          exact .inr ⟨ho', by simp [hst'], fun _ => hr⟩
      · exact .inr ⟨hoff (by simp [hz]), by simp [hu], by simp [hu]⟩
    · exact .inl ⟨by rw [ho i hij], by rw [hctx], hother i hi⟩

end

lemma CpuInv.alloc {rest : List ι} (h : s.CpuInv) (hrun : s.cpu c = .run p todo)
    (hpl : s.pc p = .kforkHeld j rest) (hj : (s.proc j).state = .unused) (hcpu : s'.cpu = s.cpu)
    (hcproc : s'.cproc = s.cproc) (hplock : s'.plock = s.plock)
    (hpc : s'.pc = update (update s.pc j .forkret) p (.kforkCopy j))
    (hctx : s'.context = update s.context j .saved) (hst : (s'.proc j).state = .used)
    (ho : ∀ i, i ≠ j → s'.proc i = s.proc i) : s'.CpuInv := by
  have hjp : j ≠ p := by
    rintro rfl
    have := h.expect hrun
    rw [hj, hpl] at this
    cases this
  have hlock : s.lockOf c = some j := by
    rw [lockOf_run hrun, hpl]
    rfl
  have hoff : s.Off j := h.notLive ((h.lock j c).mpr hlock)
    (by rw [hrun]; exact fun hp => hjp (Option.some.inj hp).symm) (by simp [hj])
  have hpc' : s'.pc p = .kforkCopy j := by rw [hpc, update_self]
  have hpcj : s'.pc j = .forkret := by
    rw [hpc, update_of_ne hjp, update_self]
  have hother : ∀ i, i ≠ p → i ≠ j → s'.pc i = s.pc i := fun i hi hij => by
    rw [hpc, update_of_ne hi, update_of_ne hij]
  have hchild : ∀ i k, i ≠ p → (s'.pc i).child? = some k → (s.pc i).child? = some k ∧ k ≠ j := by
    intro i k hi hk
    by_cases hij : i = j
    · subst hij
      rw [hpcj] at hk
      cases hk
    · rw [hother i hi hij] at hk
      refine ⟨hk, ?_⟩
      rintro rfl
      rw [h.fork.used i k hk] at hj
      cases hj
  refine h.of_run hrun hcpu hcproc ?_ ⟨fun i k hk => ?_, fun i i' k hk hk' => ?_⟩ ?_ ?_
  · refine h.lock.same hplock fun c' => ?_
    by_cases hc : c' = c
    · subst hc
      rw [lockOf_run (by rw [hcpu]; exact hrun), hpc', hlock]
      rfl
    · refine h.lockOf_other (by rw [hrun]; rfl) hc (by rw [hcpu]) fun i hi hlive => ?_
      exact hother i hi fun hij => hlive (hij ▸ hoff)
  · by_cases hi : i = p
    · subst hi
      rw [hpc'] at hk
      obtain rfl : j = k := Option.some.inj hk
      exact hst
    · obtain ⟨hk, hkj⟩ := hchild i k hi hk
      rw [ho k hkj]
      exact h.fork.used i k hk
  · have key : ∀ i i', i = p → i' ≠ p → (s'.pc i).child? = some k →
        (s'.pc i').child? = some k → False := by
      rintro i i' rfl hi' hk hk'
      rw [hpc'] at hk
      exact (hchild i' k hi' hk').2 (Option.some.inj hk).symm
    by_cases hi : i = p <;> by_cases hi' : i' = p
    · rw [hi, hi']
    · exact (key i i' hi hi' hk hk').elim
    · exact (key i' i hi' hi hk' hk).elim
    · exact h.fork.unique i i' k (hchild i k hi hk).1 (hchild i' k hi' hk').1
  · rw [hpc', ho p (Ne.symm hjp), h.expect hrun, hpl]
    exact ⟨rfl, trivial⟩
  · intro i hi
    by_cases hij : i = j
    · subst hij
      refine .inr ⟨hoff, by simp [hst], fun _ => ⟨?_, ?_⟩⟩
      · rw [hctx, update_self]
      · rw [hpcj]
        trivial
    · exact .inl ⟨by rw [ho i hij], by rw [hctx, update_of_ne hij], hother i hi hij⟩

/-! ## Steps of the scheduler loop -/

/-- CPU `c` goes on to `k`, and the processes that it is not responsible for before or after are as
they were. -/
lemma CpuInv.of_cpu (h : s.CpuInv) (hcpu : s'.cpu = update s.cpu c k)
    (hc : s'.cproc c = k.cproc?) (hcproc : ∀ c', c' ≠ c → s'.cproc c' = s.cproc c')
    (hlock : s'.LockInv) (hfork : s'.ForkInv)
    (hnew : ∀ i, k.proc? = some i → (s.cpu c).proc? = some i ∨ s.Off i) (hok : s'.CpuOk k)
    (hleft : ∀ i, (s.cpu c).proc? = some i → k.proc? ≠ some i → s'.OffOk i)
    (ho : ∀ i, k.proc? ≠ some i → (s.cpu c).proc? ≠ some i →
      (s'.proc i).state = (s.proc i).state ∧ s'.context i = s.context i ∧ s'.pc i = s.pc i) :
    s'.CpuInv := by
  have hself : s'.cpu c = k := by rw [hcpu, update_self]
  have hother : ∀ c', c' ≠ c → s'.cpu c' = s.cpu c' := fun c' h' => by
    rw [hcpu, update_of_ne h']
  -- no other CPU is responsible for a process that `c` has
  have hdisj : ∀ c' i, c' ≠ c → (s.cpu c').proc? = some i → k.proc? ≠ some i := by
    intro c' i hc' hi hk
    rcases hnew i hk with h' | h'
    · exact hc' (h.alone _ _ _ hi h')
    · exact h' c' hi
  refine ⟨hlock, fun c' => ?_, fun c1 c2 i h1 h2 => ?_, fun c' => ?_, fun i hoff => ?_, hfork⟩
  · by_cases hc' : c' = c
    · rw [hc', hself, hc]
    · rw [hother c' hc', hcproc c' hc']
      exact h.cproc c'
  · by_cases hc1 : c1 = c <;> by_cases hc2 : c2 = c
    · rw [hc1, hc2]
    · rw [hother c2 hc2] at h2
      rw [hc1, hself] at h1
      exact absurd h1 (hdisj c2 i hc2 h2)
    · rw [hother c1 hc1] at h1
      rw [hc2, hself] at h2
      exact absurd h2 (hdisj c1 i hc1 h1)
    · rw [hother c1 hc1] at h1
      rw [hother c2 hc2] at h2
      exact h.alone _ _ _ h1 h2
  · by_cases hc' : c' = c
    · rw [hc', hself]
      exact hok
    · rw [hother c' hc']
      exact (h.cpu c').congr fun i hi =>
        ho i (hdisj c' i hc' hi) fun h' => hc' (h.alone _ _ _ hi h')
  · have hk : k.proc? ≠ some i := by
      have := hoff c
      rwa [hself] at this
    by_cases hi : (s.cpu c).proc? = some i
    · exact hleft i hi hk
    · obtain ⟨h1, h2, h3⟩ := ho i hk hi
      refine (h.off i fun c' => ?_).congr h1 h2 h3
      by_cases hc' : c' = c
      · rw [hc']
        exact hi
      · have := hoff c'
        rwa [hother c' hc'] at this

lemma lockOf_setCpu (hcpu : s'.cpu = update s.cpu c k) (hpc : s'.pc = s.pc)
    (hc : c' ≠ c) : s'.lockOf c' = s.lockOf c' := by
  rw [lockOf, lockOf, hcpu, update_of_ne hc, hpc]

lemma lockOf_cpu (hcpu : s'.cpu = update s.cpu c k) (hpc : s'.pc = s.pc) :
    s'.lockOf c = k.lock s.pc := by
  rw [lockOf, hcpu, update_self, hpc]

lemma LockInv.setCpu (h : s.LockInv) (hcpu : s'.cpu = update s.cpu c k)
    (hpc : s'.pc = s.pc) (hpl : s'.plock = s.plock) (hk : k.lock s.pc = s.lockOf c) :
    s'.LockInv := by
  refine h.same hpl fun c' => ?_
  by_cases hc : c' = c
  · rw [hc, lockOf_cpu hcpu hpc, hk]
  · exact lockOf_setCpu hcpu hpc hc

lemma CpuInv.swtch {g : Give} (h : s.CpuInv) (hrun : s.cpu c = .run p todo)
    (hpc : s.pc p = .saving g) :
    (((s.setContext p .saved).goto p (.resumed g)).setCpu c (.back p todo)).CpuInv := by
  have hst : (s.proc p).state = g.state := by rw [h.expect hrun, hpc]; rfl
  refine h.of_cpu rfl ?_ (fun _ _ => rfl) ?_ ?_ ?_ ?_ ?_ ?_
  · show s.cproc c = some p
    rw [h.cproc c, hrun]
    rfl
  · refine h.lock.same rfl fun c' => ?_
    by_cases hc : c' = c
    · subst hc
      rw [lockOf_run hrun, hpc, lockOf]
      simp [setCpu, Cpu.lock, ProcPc.lock]
    · exact h.lockOf_other (by rw [hrun]; rfl) hc (by simp [setCpu, goto, setContext, hc])
        fun i hi _ => update_of_ne hi _ _
  · refine h.fork.same (fun i => ?_) fun _ hi => hi
    by_cases hi : i = p
    · subst hi
      simp [setCpu, goto, hpc, ProcPc.child?]
    · simp [setCpu, goto, setContext, hi]
  · rintro i ⟨⟩
    exact .inl (by rw [hrun]; rfl)
  · refine ⟨?_, fun hrdy => ⟨update_self .., ?_⟩⟩
    · show (s.proc p).state ≠ .running
      rw [hst]
      cases g <;> simp [Give.state]
    · show (update s.pc p (.resumed g) p).Resumable
      have hrdy' : (s.proc p).state = .runnable ∨ (s.proc p).state = .sleeping ∨
        (s.proc p).state = .used := hrdy
      rw [update_self]
      rw [hst] at hrdy'
      cases g <;> simp_all [ProcPc.Resumable, Give.state]
  · intro i hi hk
    rw [hrun] at hi
    exact absurd hi hk
  · intro i hi _
    have hip : i ≠ p := fun hip => hi (hip ▸ rfl)
    exact ⟨rfl, update_of_ne hip _ _, update_of_ne hip _ _⟩

lemma CpuInv.perform {init : ι} {x : ProcInput} {a : ProcInstr ι} (h : s.CpuInv)
    (hrun : s.cpu c = .run p todo) (hcode : Code init table s.proc p x (s.pc p) a)
    (hs : s.perform c p todo a = .next s') : s'.CpuInv := by
  have hex := h.expect hrun
  cases a with
  | goto q =>
    cases hs
    obtain ⟨hl, he, ha, hch⟩ := code_goto hcode
    exact h.keep hrun rfl rfl rfl rfl (fun _ _ => ⟨rfl, rfl⟩) hl (he ▸ hex) ha hch
  | acquire j q =>
    obtain ⟨hfree, rfl⟩ := acquire_eq hs
    obtain ⟨hl, hq, he, ha, hch⟩ := code_acquire hcode
    exact h.acquire hrun hfree hl hq he ha hch
  | release j f q =>
    obtain ⟨hlk, rfl⟩ := release_eq hs
    obtain ⟨hl, hq, hel, heq, ha, hm⟩ := code_release hcode
    refine h.release hrun hlk rfl rfl rfl rfl rfl (fun i hi => update_of_ne hi _ _)
      hl hq hel heq ha (.inl ?_)
    simpa [goto, setPlock, modify] using hm (s.proc j)
  | reap j q =>
    obtain ⟨hlk, rfl⟩ := release_eq hs
    obtain ⟨hl, hq, hel, heq, ha, hch, hz⟩ := code_reap hcode
    refine h.release hrun hlk rfl rfl rfl rfl rfl (fun i hi => update_of_ne hi _ _)
      hl hq hel heq ha (.inr ⟨hch, hz, ?_⟩)
    simp [goto, setPlock, modify, ProcEntry.freeproc]
  | acquireWait q =>
    obtain ⟨-, rfl⟩ := acquire_eq hs
    obtain ⟨hl, he, ha, hch⟩ := code_acquireWait hcode
    exact h.keep hrun rfl rfl rfl rfl (fun _ _ => ⟨rfl, rfl⟩) hl (he ▸ hex) ha hch
  | releaseWait q =>
    obtain ⟨-, rfl⟩ := release_eq hs
    obtain ⟨hl, he, ha, hch⟩ := code_releaseWait hcode
    exact h.keep hrun rfl rfl rfl rfl (fun _ _ => ⟨rfl, rfl⟩) hl (he ▸ hex) ha hch
  | reparent j k q =>
    cases hs
    obtain ⟨hl, he, ha, hch⟩ := code_reparent hcode
    have hst : ∀ i, (update s.proc j { s.proc j with parent := some k } i).state =
        (s.proc i).state := fun i => by
      by_cases hi : i = j
      · subst hi
        simp
      · simp [hi]
    exact h.keep hrun rfl rfl rfl rfl (fun i _ => ⟨hst i, rfl⟩) hl ((hst p).trans (he ▸ hex)) ha hch
  | give ch st q =>
    cases hs
    obtain ⟨hl, he, -, ha, hch⟩ := code_give hcode
    refine h.keep hrun rfl rfl rfl rfl (fun i hi => ⟨?_, rfl⟩) hl ?_ ha hch
    · simp [goto, modify, hi]
    · simp [goto, modify, he]
  | zombie status q =>
    cases hs
    obtain ⟨hl, he, -, ha, hch⟩ := code_zombie hcode
    refine h.keep hrun rfl rfl rfl rfl (fun i hi => ⟨?_, rfl⟩) hl ?_ ha hch
    · simp [goto, modify, hi]
    · simp [goto, modify, he]
  | sched g =>
    simp only [ProcSys.perform] at hs
    split_ifs at hs
    cases hs
    generalize hl : s.pc p = l at hcode
    cases hcode
    refine h.keep hrun rfl rfl rfl rfl (fun i hi => ⟨rfl, update_of_ne hi _ _⟩) ?_ ?_
      trivial ?_
    · rw [hl]
      rfl
    · show (s.proc p).state = _
      rw [hex, hl]
      rfl
    · rw [hl]
      rfl
  | swtch g =>
    cases hs
    generalize hl : s.pc p = l at hcode
    cases hcode
    exact h.swtch hrun hl
  | alloc j q =>
    cases hs
    generalize hl : s.pc p = l at hcode
    cases hcode with
    | kforkAlloc hj =>
      refine h.alloc hrun hl hj rfl rfl rfl rfl rfl ?_ fun i hi => update_of_ne hi _ _
      simp [setContext, goto, modify]
  | disabled => cases hs
  | panic e => cases hs

lemma CpuInv.step {init : ι} {a : κ × ProcInput} (h : s.CpuInv)
    (hs : s.step init table a = .next s') : s'.CpuInv := by
  obtain ⟨c, x⟩ := a
  simp only [ProcSys.step] at hs
  cases hk : s.cpu c with
  | scan todo =>
    cases todo with
    | nil =>
      simp only [hk] at hs
      cases hs
      refine h.of_cpu rfl ?_ (fun _ _ => rfl)
        (h.lock.setCpu rfl rfl rfl ?_) ⟨h.fork.used, h.fork.unique⟩ ?_ trivial ?_
        fun _ _ _ => ⟨rfl, rfl, rfl⟩
      · show s.cproc c = none
        rw [h.cproc c, hk]
        rfl
      · rw [lockOf, hk]
        rfl
      · rintro i ⟨⟩
      · rw [hk]
        rintro i ⟨⟩
    | cons p todo =>
      simp only [hk] at hs
      obtain ⟨hfree, rfl⟩ := acquire_eq hs
      refine h.of_cpu rfl ?_ (fun _ _ => rfl)
        (h.lock.acquire hfree rfl ?_ ?_ fun c' hc => lockOf_setCpu rfl rfl hc)
        ⟨h.fork.used, h.fork.unique⟩ ?_ trivial ?_ fun _ _ _ => ⟨rfl, rfl, rfl⟩
      · show s.cproc c = none
        rw [h.cproc c, hk]
        rfl
      · rw [lockOf, hk]
        rfl
      · simp [lockOf, setCpu, Cpu.lock]
      · rintro i ⟨⟩
      · rw [hk]
        rintro i ⟨⟩
  | test p todo =>
    simp only [hk] at hs
    have hlock : s.lockOf c = some p := by
      rw [lockOf, hk]
      rfl
    have hcproc : s.cproc c = none := by
      rw [h.cproc c, hk]
      rfl
    split_ifs at hs with hst
    · cases hs
      have hoff : s.Off p := by
        refine h.notLive ((h.lock p c).mpr hlock) ?_ (by simp [hst])
        rw [hk]
        rintro ⟨⟩
      refine h.of_cpu rfl hcproc (fun _ _ => rfl)
        (h.lock.setCpu rfl rfl rfl (by rw [hlock]; rfl)) ?_ ?_ ?_ ?_ ?_
      · refine h.fork.same (fun _ => rfl) fun i hi => ?_
        have hip : i ≠ p := by
          rintro rfl
          rw [hst] at hi
          cases hi
        simp [setCpu, modify, hip, hi]
      · rintro i ⟨⟩
        exact .inr hoff
      · exact ⟨by simp [setCpu, modify], (h.off p hoff).ready (.inl hst)⟩
      · rw [hk]
        rintro i ⟨⟩
      · intro i hi _
        have hip : i ≠ p := fun hip => hi (hip ▸ rfl)
        exact ⟨by simp [setCpu, modify, hip], rfl, rfl⟩
    · cases hs
      refine h.of_cpu rfl hcproc (fun _ _ => rfl)
        (h.lock.setCpu rfl rfl rfl (by rw [hlock]; rfl)) ⟨h.fork.used, h.fork.unique⟩ ?_ trivial ?_
        fun _ _ _ => ⟨rfl, rfl, rfl⟩
      · rintro i ⟨⟩
      · rw [hk]
        rintro i ⟨⟩
  | setProc p todo =>
    simp only [hk] at hs
    cases hs
    have hok := h.cpu c
    rw [hk] at hok
    refine h.of_cpu rfl (update_self ..)
      (fun c' hc => update_of_ne hc _ _) (h.lock.setCpu rfl rfl rfl ?_)
      ⟨h.fork.used, h.fork.unique⟩ ?_ hok ?_ fun _ _ _ => ⟨rfl, rfl, rfl⟩
    · rw [lockOf, hk]
      rfl
    · rintro i ⟨⟩
      exact .inl (by rw [hk]; rfl)
    · rw [hk]
      exact fun i hi hn => absurd hi hn
  | swtch p todo =>
    simp only [hk] at hs
    split_ifs at hs with hctx
    cases hs
    have hok := h.cpu c
    rw [hk] at hok
    obtain ⟨hst, -, hres⟩ := hok
    refine h.of_cpu rfl ?_ (fun _ _ => rfl)
      (h.lock.setCpu rfl rfl rfl ?_) ⟨h.fork.used, h.fork.unique⟩ ?_ ?_ ?_ ?_
    · show s.cproc c = some p
      rw [h.cproc c, hk]
      rfl
    · rw [lockOf, hk]
      exact hres.lock p
    · rintro i ⟨⟩
      exact .inl (by rw [hk]; rfl)
    · exact ⟨hst.trans hres.expect.symm, hres.alive⟩
    · rw [hk]
      exact fun i hi hn => absurd hi hn
    · intro i hi _
      have hip : i ≠ p := fun hip => hi (hip ▸ rfl)
      exact ⟨rfl, update_of_ne hip _ _, rfl⟩
  | run p todo =>
    simp only [hk] at hs
    exact h.perform hk (code_spec _) hs
  | back p todo =>
    simp only [hk] at hs
    cases hs
    have hok := h.cpu c
    rw [hk] at hok
    refine h.of_cpu rfl (update_self ..)
      (fun c' hc => update_of_ne hc _ _) (h.lock.setCpu rfl rfl rfl ?_)
      ⟨h.fork.used, h.fork.unique⟩ ?_ trivial ?_ fun _ _ _ => ⟨rfl, rfl, rfl⟩
    · rw [lockOf, hk]
      rfl
    · rintro i ⟨⟩
    · rw [hk]
      rintro i ⟨⟩ -
      exact ⟨hok.idle, hok.ready⟩
  | release p todo =>
    simp only [hk] at hs
    obtain ⟨hlk, rfl⟩ := release_eq hs
    refine h.of_cpu rfl ?_ (fun _ _ => rfl)
      (h.lock.release ((h.lock p c).mp hlk) rfl ?_ fun c' hc => lockOf_setCpu rfl rfl hc)
      ⟨h.fork.used, h.fork.unique⟩ ?_ trivial ?_ fun _ _ _ => ⟨rfl, rfl, rfl⟩
    · show s.cproc c = none
      rw [h.cproc c, hk]
      rfl
    · simp [lockOf, setCpu, Cpu.lock]
    · rintro i ⟨⟩
    · rw [hk]
      rintro i ⟨⟩

lemma boot_cpuInv (init : ι) : (boot init : ProcSys ι κ).CpuInv where
  lock j c := by simp [boot, lockOf, Cpu.lock]
  cproc c := rfl
  alone c c' p h := by cases h
  cpu c := trivial
  off p _ := by
    refine ⟨?_, fun _ => ⟨rfl, trivial⟩⟩
    simp only [boot]
    split_ifs <;> simp
  fork := ⟨nofun, nofun⟩

lemma CpuInv.proc_of_cproc (h : s.CpuInv) (hc : s.cproc c = some p) : (s.cpu c).proc? = some p := by
  rw [h.cproc c] at hc
  cases hk : s.cpu c <;> rw [hk] at hc <;> first | exact hc | cases hc

/-- **A process runs on at most one CPU and is freed only off the CPUs.**  After any run of any
number of CPUs: no process is `c->proc` of two CPUs; a process whose lock is free is `RUNNING`
exactly if it is some `c->proc`; a CPU that is about to load a context finds it completely saved;
and where `kwait` has found a zombie, which it then frees, that process is no CPU's `c->proc`. -/
theorem process_on_one_cpu (init : ι) (table : List ι) {as : List (κ × ProcInput)}
    (hrun : Run (step init table) (boot init) as s) :
    (∀ c c' p, s.cproc c = some p → s.cproc c' = some p → c = c') ∧
    (∀ p, s.plock p = none → ((s.proc p).state = .running ↔ ∃ c, s.cproc c = some p)) ∧
    (∀ c p todo, s.cpu c = .swtch p todo → s.context p = .saved) ∧
    ∀ c p todo pp rest, s.cpu c = .run p todo → s.pc p = .kwaitHeld pp rest →
      (s.proc pp).state = .zombie → ∀ c', s.cproc c' ≠ some pp := by
  have h : s.CpuInv := hrun.invariant (fun s a s' h hs => h.step hs) (boot_cpuInv init)
  refine ⟨fun c c' p hc hc' => h.alone _ _ _ (h.proc_of_cproc hc) (h.proc_of_cproc hc'),
    fun p hfree => ⟨fun hst => ?_, fun ⟨c, hc⟩ => ?_⟩, fun c p todo hc => ?_, ?_⟩
  · -- a CPU that has made `p` running and not yet set `c->proc` holds its lock
    by_contra hnone
    refine (h.off p fun c hc => ?_).idle hst
    cases hk : s.cpu c with
    | scan | test | release => rw [hk] at hc; cases hc
    | setProc i =>
      have hlk : s.lockOf c = some p := by
        rw [hk] at hc
        rw [lockOf, hk]
        exact hc
      rw [(h.lock p c).mpr hlk] at hfree
      cases hfree
    | swtch i | run i | back i =>
      refine hnone ⟨c, ?_⟩
      rw [h.cproc c, hk]
      rw [hk] at hc
      exact hc
  · by_contra hst
    have hlk := (h.lock p c).mpr (h.lockOf_proc (h.proc_of_cproc hc) hst)
    rw [hlk] at hfree
    cases hfree
  · have hok := h.cpu c
    rw [hc] at hok
    exact hok.2.1
  · intro c p todo pp rest hc hpc hz c' hc'
    have hlk : s.lockOf c = some pp := by
      rw [lockOf_run hc, hpc]
      rfl
    refine h.notLive ((h.lock pp c).mpr hlk) ?_ (by simp [hz]) c' (h.proc_of_cproc hc')
    rw [hc]
    intro hp
    obtain rfl : p = pp := Option.some.inj hp
    have := h.expect hc
    rw [hz, hpc] at this
    cases this

/-- CPU `false` runs `init`, which forks; then CPU `true` takes the child from its scan of the table
up to the user code of the child. -/
def sampleSchedule : List (Bool × ProcInput) :=
  List.replicate 6 (false, .ok) ++ (false, .kfork) :: List.replicate 10 (false, .ok) ++
    List.replicate 9 (true, .ok)

theorem process_on_one_cpu_sample :
    ∃ s : ProcSys (Fin 2) Bool, Run (step 0 [0, 1]) (boot 0) sampleSchedule s ∧
      s.cproc false = some 0 ∧ s.cproc true = some 1 ∧ s.plock 1 = none ∧
      (s.proc 1).state = .running ∧ ∀ c, s.cproc c = some 1 → c = true := by
  have hrun : Run (step 0 [0, 1]) (boot 0 : ProcSys (Fin 2) Bool) sampleSchedule _ :=
    Run.of_exec rfl
  obtain ⟨hone, hiff, -⟩ := process_on_one_cpu 0 [0, 1] hrun
  exact ⟨_, hrun, rfl, rfl, rfl, (hiff 1 rfl).mpr ⟨true, rfl⟩, fun c hc => hone c true 1 hc rfl⟩

end ProcSys

end Xv6
