import Xv6.Lib.Steps

/-!
# The process table

The process table of `proc.c` shared by the scheduler loops of any number of CPUs `κ` and by the
kernel threads of the processes `ι` that they run. A step is one step of one CPU: of its scheduler
loop, or of the process whose kernel thread has the CPU.

A spinlock is held by a CPU, as `lk->cpu` says, so that `swtch` hands `p->lock` over from the
scheduler to the process and back without a step of the lock. `swtch` itself has two parts. It
first saves the registers of the old thread, during which the old context is `saving`, and then
loads the new context; loading a context that is not `saved` is the panic `wildContext`.

`code` is what a kernel thread does next: it is one definition for `yield`, `sleep`, `wakeup`,
`kkill`, `kexit` with `reparent`, `kwait`, `kfork` with `allocproc`, and `forkret`. Memory, files
and the trap path are not in this model; whether `copyout`, `uvmcopy` and the allocations of
`allocproc` succeed is an input of the step.
-/

namespace Xv6

open Function

/-- `enum procstate`. -/
inductive ProcState where
  | unused
  | used
  | sleeping
  | runnable
  | running
  | zombie
  deriving DecidableEq

/-- A sleep channel: the address of a `struct proc`, or any other address. -/
inductive Chan (ι : Type) where
  | proc (i : ι)
  | other (n : ℕ)
  deriving DecidableEq

/-- The fields of `struct proc` that the scheduling and waiting code reads; `0` pointers are
`none`. -/
structure ProcEntry (ι : Type) where
  state : ProcState
  chan : Option (Chan ι)
  killed : Bool
  xstate : ℤ
  pid : ℕ
  parent : Option ι

namespace ProcEntry

variable {ι : Type}

/-- The stores of `freeproc`; `parent` is not one of them. -/
def freeproc (e : ProcEntry ι) : ProcEntry ι :=
  { e with state := .unused, pid := 0, chan := none, killed := false, xstate := 0 }

/-- The body of the loop of `wakeup`. -/
def wakeup [DecidableEq ι] (chan : Option (Chan ι)) (e : ProcEntry ι) : ProcEntry ι :=
  if e.state = .sleeping ∧ e.chan = chan then { e with state := .runnable } else e

/-- What `kkill` does to the process with the given pid. -/
def kkill (e : ProcEntry ι) : ProcEntry ι :=
  { e with killed := true, state := if e.state = .sleeping then .runnable else e.state }

end ProcEntry

/-- The places that call `sched`. -/
inductive Give where
  | yield
  | sleep
  | kwait
  | kexit
  deriving DecidableEq

/-- The state with which `sched` is called. -/
def Give.state : Give → ProcState
  | .yield => .runnable
  | .sleep => .sleeping
  | .kwait => .sleeping
  | .kexit => .zombie

/-- Where `wakeup` returns to. -/
inductive Caller (ι : Type) where
  | user
  | reparent (status : ℤ) (todo : List ι)
  | kexit (status : ℤ)

/-- Where the kernel thread of a process is; a `todo` is the part of the table that a loop has not
visited. At `user` it is in code that holds none of the locks of this model. -/
inductive ProcPc (ι : Type) where
  | user
  | yieldSet
  | sleepSet (n : ℕ)
  | sched (g : Give)
  | saving (g : Give)
  | resumed (g : Give)
  | forkret
  | wakeup (chan : Option (Chan ι)) (todo : List ι) (k : Caller ι)
  | wakeupHeld (chan : Option (Chan ι)) (j : ι) (todo : List ι) (k : Caller ι)
  | kkill (pid : ℕ) (todo : List ι)
  | kkillHeld (pid : ℕ) (j : ι) (todo : List ι)
  | kexit (status : ℤ)
  | reparent (status : ℤ) (todo : List ι)
  | kexitLock (status : ℤ)
  | kexitSet (status : ℤ)
  | kexitRelease
  | kwait
  | kwaitScan (todo : List ι) (havekids : Bool)
  | kwaitHeld (pp : ι) (todo : List ι)
  | kwaitKillLock
  | kwaitKilled
  | kwaitSleep
  | kwaitSleepRelease
  | kwaitSleepSet
  | kwaitReturn
  | kfork (todo : List ι)
  | kforkHeld (np : ι) (todo : List ι)
  | kforkCopy (np : ι)
  | kforkWait (np : ι)
  | kforkParent (np : ι)
  | kforkWaitRelease (np : ι)
  | kforkLock (np : ι)
  | kforkRun (np : ι)

def Caller.pc {ι : Type} : Caller ι → ProcPc ι
  | .user => .user
  | .reparent status todo => .reparent status todo
  | .kexit status => .kexitLock status

/-- What a step of a process chooses: the call it makes from `user`, and whether the memory
operation of the step succeeds. -/
inductive ProcInput where
  | yield
  | sleep (n : ℕ)
  | wakeup (n : ℕ)
  | kkill (pid : ℕ)
  | kexit (status : ℤ)
  | kwait
  | kfork
  | ok
  | fail
  deriving DecidableEq

/-- The panics of proc.c and its locks. -/
inductive ProcPanic where
  | acquire
  | release
  | schedLock
  | schedLocks
  | schedRunning
  | zombieExit
  | initExiting
  | wildContext

/-- One step of a kernel thread. `release` makes the last stores of the section it ends, `reap` is
`release` after `pp->parent = 0; freeproc(pp)` in `kwait`, and `alloc` is the body of `allocproc`
for the slot it found. -/
inductive ProcInstr (ι : Type) where
  | goto (q : ProcPc ι)
  | acquire (j : ι) (q : ProcPc ι)
  | release (j : ι) (f : ProcEntry ι → ProcEntry ι) (q : ProcPc ι)
  | reap (j : ι) (q : ProcPc ι)
  | acquireWait (q : ProcPc ι)
  | releaseWait (q : ProcPc ι)
  | reparent (j : ι) (parent : ι) (q : ProcPc ι)
  | give (chan : Option (Chan ι)) (state : ProcState) (q : ProcPc ι)
  | zombie (status : ℤ) (q : ProcPc ι)
  | sched (g : Give)
  | swtch (g : Give)
  | alloc (j : ι) (q : ProcPc ι)
  | disabled
  | panic (e : ProcPanic)

namespace ProcSys

variable {ι : Type} [DecidableEq ι] (init : ι) (table : List ι)

/-- The call a process makes from `user`. -/
def call (p : ι) : ProcInput → ProcInstr ι
  | .yield => .acquire p .yieldSet
  | .sleep n => .acquire p (.sleepSet n)
  | .wakeup n => .goto (.wakeup (some (.other n)) table .user)
  | .kkill pid => .goto (.kkill pid table)
  | .kexit status => if p = init then .panic .initExiting else .goto (.kexit status)
  | .kwait => .goto .kwait
  | .kfork => .goto (.kfork table)
  | .ok => .disabled
  | .fail => .disabled

/-- What follows `sched()` in its caller. -/
def afterSched (p : ι) : Give → ProcInstr ι
  | .yield => .release p id .user
  | .sleep => .release p (fun e => { e with chan := none }) .user
  | .kwait => .release p (fun e => { e with chan := none }) .kwait
  | .kexit => .panic .zombieExit

/-- The loop of `wakeup`. -/
def wakeupLoop (p : ι) (chan : Option (Chan ι)) (k : Caller ι) : List ι → ProcInstr ι
  | [] => .goto k.pc
  | j :: todo => if j = p then .goto (.wakeup chan todo k)
      else .acquire j (.wakeupHeld chan j todo k)

def kkillLoop (pid : ℕ) : List ι → ProcInstr ι
  | [] => .goto .user
  | j :: todo => .acquire j (.kkillHeld pid j todo)

/-- The loop of `reparent`; after it `kexit` wakes the parent. -/
def reparentLoop (proc : ι → ProcEntry ι) (p : ι) (status : ℤ) : List ι → ProcInstr ι
  | [] => .goto (.wakeup ((proc p).parent.map .proc) table (.kexit status))
  | j :: todo =>
    if (proc j).parent = some p then
      .reparent j init (.wakeup (some (.proc init)) table (.reparent status todo))
    else .goto (.reparent status todo)

/-- The loop of `kwait` over the table, and the test after it. -/
def kwaitLoop (proc : ι → ProcEntry ι) (p : ι) (havekids : Bool) : List ι → ProcInstr ι
  | [] => .goto (if havekids then .kwaitKillLock else .kwaitReturn)
  | j :: todo =>
    if (proc j).parent = some p then .acquire j (.kwaitHeld j todo)
    else .goto (.kwaitScan todo havekids)

/-- The loop of `allocproc`. -/
def kforkLoop : List ι → ProcInstr ι
  | [] => .goto .user
  | j :: todo => .acquire j (.kforkHeld j todo)

/-- The next step of the kernel thread of process `p`. -/
def code (proc : ι → ProcEntry ι) (p : ι) : ProcPc ι → ProcInput → ProcInstr ι
  | .user, x => call init table p x
  | .yieldSet, _ => .give (proc p).chan .runnable (.sched .yield)
  | .sleepSet n, _ => .give (some (.other n)) .sleeping (.sched .sleep)
  | .sched g, _ => .sched g
  | .saving g, _ => .swtch g
  | .resumed g, _ => afterSched p g
  | .forkret, _ => .release p id .user
  | .wakeup chan todo k, _ => wakeupLoop p chan k todo
  | .wakeupHeld chan j todo k, _ => .release j (.wakeup chan) (.wakeup chan todo k)
  | .kkill pid todo, _ => kkillLoop pid todo
  | .kkillHeld pid j todo, _ =>
    if (proc j).pid = pid then .release j .kkill .user else .release j id (.kkill pid todo)
  | .kexit status, _ => .acquireWait (.reparent status table)
  | .reparent status todo, _ => reparentLoop init table proc p status todo
  | .kexitLock status, _ => .acquire p (.kexitSet status)
  | .kexitSet status, _ => .zombie status .kexitRelease
  | .kexitRelease, _ => .releaseWait (.sched .kexit)
  | .kwait, _ => .acquireWait (.kwaitScan table false)
  | .kwaitScan todo havekids, _ => kwaitLoop proc p havekids todo
  | .kwaitHeld pp todo, x =>
    if (proc pp).state = .zombie then
      -- the copyout of the exit status comes before the child is freed
      if x = .fail then .release pp id .kwaitReturn else .reap pp .kwaitReturn
    else .release pp id (.kwaitScan todo true)
  | .kwaitKillLock, _ => .acquire p .kwaitKilled
  | .kwaitKilled, _ => .release p id (if (proc p).killed then .kwaitReturn else .kwaitSleep)
  | .kwaitSleep, _ => .acquire p .kwaitSleepRelease
  | .kwaitSleepRelease, _ => .releaseWait .kwaitSleepSet
  | .kwaitSleepSet, _ => .give (some (.proc p)) .sleeping (.sched .kwait)
  | .kwaitReturn, _ => .releaseWait .user
  | .kfork todo, _ => kforkLoop todo
  | .kforkHeld np todo, _ =>
    if (proc np).state = .unused then .alloc np (.kforkCopy np) else .release np id (.kfork todo)
  | .kforkCopy np, x =>
    if x = .fail then .release np .freeproc .user else .release np id (.kforkWait np)
  | .kforkWait np, _ => .acquireWait (.kforkParent np)
  | .kforkParent np, _ => .reparent np p (.kforkWaitRelease np)
  | .kforkWaitRelease np, _ => .releaseWait (.kforkLock np)
  | .kforkLock np, _ => .acquire np (.kforkRun np)
  | .kforkRun np, _ => .release np (fun e => { e with state := .runnable }) .user

variable {init : ι} {table : List ι} {proc : ι → ProcEntry ι} {p : ι} {x : ProcInput}

/-- `code` as a relation: one constructor for each branch that goes on. -/
inductive Code (init : ι) (table : List ι) (proc : ι → ProcEntry ι) (p : ι) (x : ProcInput) :
    ProcPc ι → ProcInstr ι → Prop where
  | callYield : Code init table proc p x .user (.acquire p .yieldSet)
  | callSleep (n : ℕ) : Code init table proc p x .user (.acquire p (.sleepSet n))
  | callWakeup (n : ℕ) :
      Code init table proc p x .user (.goto (.wakeup (some (.other n)) table .user))
  | callKkill (pid : ℕ) : Code init table proc p x .user (.goto (.kkill pid table))
  | callKexit {status : ℤ} (hp : p ≠ init) :
      Code init table proc p x .user (.goto (.kexit status))
  | callKwait : Code init table proc p x .user (.goto .kwait)
  | callKfork : Code init table proc p x .user (.goto (.kfork table))
  | yieldSet : Code init table proc p x .yieldSet (.give (proc p).chan .runnable (.sched .yield))
  | sleepSet (n : ℕ) :
      Code init table proc p x (.sleepSet n) (.give (some (.other n)) .sleeping (.sched .sleep))
  | sched (g : Give) : Code init table proc p x (.sched g) (.sched g)
  | swtch (g : Give) : Code init table proc p x (.saving g) (.swtch g)
  | resumeYield : Code init table proc p x (.resumed .yield) (.release p id .user)
  | resumeSleep : Code init table proc p x (.resumed .sleep)
      (.release p (fun e => { e with chan := none }) .user)
  | resumeKwait : Code init table proc p x (.resumed .kwait)
      (.release p (fun e => { e with chan := none }) .kwait)
  | forkret : Code init table proc p x .forkret (.release p id .user)
  | wakeupDone {ch : Option (Chan ι)} {k : Caller ι} :
      Code init table proc p x (.wakeup ch [] k) (.goto k.pc)
  | wakeupSelf {ch : Option (Chan ι)} {k : Caller ι} {todo : List ι} :
      Code init table proc p x (.wakeup ch (p :: todo) k) (.goto (.wakeup ch todo k))
  | wakeupLock {ch : Option (Chan ι)} {k : Caller ι} {j : ι} {todo : List ι} (hj : j ≠ p) :
      Code init table proc p x (.wakeup ch (j :: todo) k) (.acquire j (.wakeupHeld ch j todo k))
  | wakeup {ch : Option (Chan ι)} {k : Caller ι} {j : ι} {todo : List ι} :
      Code init table proc p x (.wakeupHeld ch j todo k)
        (.release j (.wakeup ch) (.wakeup ch todo k))
  | kkillDone {pid : ℕ} : Code init table proc p x (.kkill pid []) (.goto .user)
  | kkillLock {pid : ℕ} {j : ι} {todo : List ι} :
      Code init table proc p x (.kkill pid (j :: todo)) (.acquire j (.kkillHeld pid j todo))
  | kkill {pid : ℕ} {j : ι} {todo : List ι} (hj : (proc j).pid = pid) :
      Code init table proc p x (.kkillHeld pid j todo) (.release j .kkill .user)
  | kkillNext {pid : ℕ} {j : ι} {todo : List ι} (hj : (proc j).pid ≠ pid) :
      Code init table proc p x (.kkillHeld pid j todo) (.release j id (.kkill pid todo))
  | kexit {status : ℤ} :
      Code init table proc p x (.kexit status) (.acquireWait (.reparent status table))
  | reparentDone {status : ℤ} : Code init table proc p x (.reparent status [])
      (.goto (.wakeup ((proc p).parent.map .proc) table (.kexit status)))
  | reparent {status : ℤ} {j : ι} {todo : List ι} (hj : (proc j).parent = some p) :
      Code init table proc p x (.reparent status (j :: todo))
        (.reparent j init (.wakeup (some (.proc init)) table (.reparent status todo)))
  | reparentNext {status : ℤ} {j : ι} {todo : List ι} (hj : (proc j).parent ≠ some p) :
      Code init table proc p x (.reparent status (j :: todo)) (.goto (.reparent status todo))
  | kexitLock {status : ℤ} :
      Code init table proc p x (.kexitLock status) (.acquire p (.kexitSet status))
  | kexitSet {status : ℤ} :
      Code init table proc p x (.kexitSet status) (.zombie status .kexitRelease)
  | kexitRelease : Code init table proc p x .kexitRelease (.releaseWait (.sched .kexit))
  | kwait : Code init table proc p x .kwait (.acquireWait (.kwaitScan table false))
  | kwaitKids : Code init table proc p x (.kwaitScan [] true) (.goto .kwaitKillLock)
  | kwaitNoKids : Code init table proc p x (.kwaitScan [] false) (.goto .kwaitReturn)
  | kwaitLock {havekids : Bool} {j : ι} {todo : List ι} (hj : (proc j).parent = some p) :
      Code init table proc p x (.kwaitScan (j :: todo) havekids) (.acquire j (.kwaitHeld j todo))
  | kwaitNext {havekids : Bool} {j : ι} {todo : List ι} (hj : (proc j).parent ≠ some p) :
      Code init table proc p x (.kwaitScan (j :: todo) havekids) (.goto (.kwaitScan todo havekids))
  | kwaitFail {j : ι} {todo : List ι} (hj : (proc j).state = .zombie) (hx : x = .fail) :
      Code init table proc p x (.kwaitHeld j todo) (.release j id .kwaitReturn)
  | kwaitReap {j : ι} {todo : List ι} (hj : (proc j).state = .zombie) (hx : x ≠ .fail) :
      Code init table proc p x (.kwaitHeld j todo) (.reap j .kwaitReturn)
  | kwaitAlive {j : ι} {todo : List ι} (hj : (proc j).state ≠ .zombie) :
      Code init table proc p x (.kwaitHeld j todo) (.release j id (.kwaitScan todo true))
  | kwaitKillLock : Code init table proc p x .kwaitKillLock (.acquire p .kwaitKilled)
  | kwaitKilled : Code init table proc p x .kwaitKilled (.release p id .kwaitReturn)
  | kwaitNotKilled : Code init table proc p x .kwaitKilled (.release p id .kwaitSleep)
  | kwaitSleep : Code init table proc p x .kwaitSleep (.acquire p .kwaitSleepRelease)
  | kwaitSleepRelease :
      Code init table proc p x .kwaitSleepRelease (.releaseWait .kwaitSleepSet)
  | kwaitSleepSet : Code init table proc p x .kwaitSleepSet
      (.give (some (.proc p)) .sleeping (.sched .kwait))
  | kwaitReturn : Code init table proc p x .kwaitReturn (.releaseWait .user)
  | kforkFull : Code init table proc p x (.kfork []) (.goto .user)
  | kforkLook {j : ι} {todo : List ι} :
      Code init table proc p x (.kfork (j :: todo)) (.acquire j (.kforkHeld j todo))
  | kforkAlloc {j : ι} {todo : List ι} (hj : (proc j).state = .unused) :
      Code init table proc p x (.kforkHeld j todo) (.alloc j (.kforkCopy j))
  | kforkNext {j : ι} {todo : List ι} (hj : (proc j).state ≠ .unused) :
      Code init table proc p x (.kforkHeld j todo) (.release j id (.kfork todo))
  | kforkFail {j : ι} : Code init table proc p x (.kforkCopy j) (.release j .freeproc .user)
  | kforkCopy {j : ι} : Code init table proc p x (.kforkCopy j) (.release j id (.kforkWait j))
  | kforkWait {j : ι} : Code init table proc p x (.kforkWait j) (.acquireWait (.kforkParent j))
  | kforkParent {j : ι} :
      Code init table proc p x (.kforkParent j) (.reparent j p (.kforkWaitRelease j))
  | kforkWaitRelease {j : ι} :
      Code init table proc p x (.kforkWaitRelease j) (.releaseWait (.kforkLock j))
  | kforkLock {j : ι} : Code init table proc p x (.kforkLock j) (.acquire j (.kforkRun j))
  | kforkRun {j : ι} : Code init table proc p x (.kforkRun j)
      (.release j (fun e => { e with state := .runnable }) .user)
  | disabled {l : ProcPc ι} : Code init table proc p x l .disabled
  | panic {l : ProcPc ι} {e : ProcPanic} : Code init table proc p x l (.panic e)

lemma code_spec (l : ProcPc ι) : Code init table proc p x l (code init table proc p l x) := by
  cases l with
  | user =>
    cases x with
    | kexit status =>
      simp only [code, call]
      split_ifs with hp
      · exact .panic
      · exact .callKexit hp
    | _ => constructor
  | resumed g | kkill pid g | kfork g => cases g <;> constructor
  | wakeup ch todo k =>
    cases todo with
    | nil => constructor
    | cons j todo =>
      simp only [code, wakeupLoop]
      split_ifs with hj
      · subst hj
        exact .wakeupSelf
      · exact .wakeupLock hj
  | reparent status todo =>
    cases todo with
    | nil => constructor
    | cons j todo =>
      simp only [code, reparentLoop]
      split_ifs with hj
      · exact .reparent hj
      · exact .reparentNext hj
  | kwaitScan todo havekids =>
    cases todo with
    | nil => cases havekids <;> constructor
    | cons j todo =>
      simp only [code, kwaitLoop]
      split_ifs with hj
      · exact .kwaitLock hj
      · exact .kwaitNext hj
  | kkillHeld | kwaitHeld | kwaitKilled | kforkHeld | kforkCopy =>
    simp only [code]
    split_ifs <;> constructor <;> assumption
  | _ => constructor

end ProcSys

/-! ## CPUs -/

/-- `p->context`: loaded into a CPU, being stored by `swtch`, or complete. -/
inductive Context where
  | loaded
  | saving
  | saved
  deriving DecidableEq

/-- Where a CPU is: in the loop of `scheduler`, or running the kernel thread of `p`. -/
inductive Cpu (ι : Type) where
  | scan (todo : List ι)
  | test (p : ι) (todo : List ι)
  | setProc (p : ι) (todo : List ι)
  | swtch (p : ι) (todo : List ι)
  | run (p : ι) (todo : List ι)
  | back (p : ι) (todo : List ι)
  | release (p : ι) (todo : List ι)

/-- An exit: the slot, the pid and the exit status of the process, and its parent when it exited. -/
structure Exited (ι : Type) where
  slot : ι
  pid : ℕ
  status : ℤ
  parent : Option ι
  deriving DecidableEq

/-- A successful `kwait` of `waiter`: the pid and the exit status it returned, and the exit of the
process that it freed. -/
structure Reaped (ι : Type) where
  waiter : ι
  pid : ℕ
  status : ℤ
  child : Exited ι

/-- The process table and the CPUs. The last three fields are history: the exits and the successful
waits so far, and the last exit of each slot. -/
structure ProcSys (ι κ : Type) where
  proc : ι → ProcEntry ι
  pc : ι → ProcPc ι
  context : ι → Context
  plock : ι → Option κ
  waitLock : Option κ
  nextpid : ℕ
  cpu : κ → Cpu ι
  cproc : κ → Option ι
  exits : List (Exited ι)
  reaps : List (Reaped ι)
  exited : ι → Exited ι

namespace ProcSys

variable {ι κ : Type} [DecidableEq ι] [DecidableEq κ]

def modify (s : ProcSys ι κ) (j : ι) (f : ProcEntry ι → ProcEntry ι) : ProcSys ι κ :=
  { s with proc := update s.proc j (f (s.proc j)) }

def goto (s : ProcSys ι κ) (p : ι) (q : ProcPc ι) : ProcSys ι κ :=
  { s with pc := update s.pc p q }

def setPlock (s : ProcSys ι κ) (j : ι) (o : Option κ) : ProcSys ι κ :=
  { s with plock := update s.plock j o }

def setContext (s : ProcSys ι κ) (j : ι) (x : Context) : ProcSys ι κ :=
  { s with context := update s.context j x }

def setCpu (s : ProcSys ι κ) (c : κ) (k : Cpu ι) : ProcSys ι κ :=
  { s with cpu := update s.cpu c k }

def setCproc (s : ProcSys ι κ) (c : κ) (o : Option ι) : ProcSys ι κ :=
  { s with cproc := update s.cproc c o }

/-- The exit of the process in slot `p` with the given status. -/
def exitOf (s : ProcSys ι κ) (p : ι) (status : ℤ) : Exited ι :=
  ⟨p, (s.proc p).pid, status, (s.proc p).parent⟩

/-- `acquire`, which spins while another CPU holds the lock. -/
def acquire (lk : Option κ) (c : κ) (s : ProcSys ι κ) : Outcome ProcPanic (ProcSys ι κ) :=
  match lk with
  | none => .next s
  | some c' => if c' = c then .panic .acquire else .disabled

def release (lk : Option κ) (c : κ) (s : ProcSys ι κ) : Outcome ProcPanic (ProcSys ι κ) :=
  if lk = some c then .next s else .panic .release

/-- CPU `c`, which runs the kernel thread of `p`, performs an instruction of it. -/
def perform (s : ProcSys ι κ) (c : κ) (p : ι) (todo : List ι) :
    ProcInstr ι → Outcome ProcPanic (ProcSys ι κ)
  | .goto q => .next (s.goto p q)
  | .acquire j q => acquire (s.plock j) c ((s.setPlock j (some c)).goto p q)
  | .release j f q => release (s.plock j) c (((s.modify j f).setPlock j none).goto p q)
  | .reap j q =>
    release (s.plock j) c
      { ((s.modify j fun e => { e.freeproc with parent := none }).setPlock j none).goto p q with
        reaps := s.reaps ++ [⟨p, (s.proc j).pid, (s.proc j).xstate, s.exited j⟩] }
  | .acquireWait q => acquire s.waitLock c { s.goto p q with waitLock := some c }
  | .releaseWait q => release s.waitLock c { s.goto p q with waitLock := none }
  | .reparent j parent q => .next ((s.modify j fun e => { e with parent := some parent }).goto p q)
  | .give chan state q =>
    .next ((s.modify p fun e => { e with chan := chan, state := state }).goto p q)
  | .zombie status q =>
    .next { (s.modify p fun e => { e with xstate := status, state := .zombie }).goto p q with
      exits := s.exits ++ [s.exitOf p status]
      exited := update s.exited p (s.exitOf p status) }
  | .sched g =>
    if s.plock p ≠ some c then .panic .schedLock
    else if s.waitLock = some c then .panic .schedLocks
    else if (s.proc p).state = .running then .panic .schedRunning
    else .next ((s.setContext p .saving).goto p (.saving g))
  | .swtch g => .next (((s.setContext p .saved).goto p (.resumed g)).setCpu c (.back p todo))
  | .alloc j q =>
    .next { (((s.modify j fun e => { e with pid := s.nextpid, state := .used }).goto j
        .forkret).goto p q).setContext j .saved with nextpid := s.nextpid + 1 }
  | .disabled => .disabled
  | .panic e => .panic e

/-- One step of CPU `c`. -/
def step (init : ι) (table : List ι) (s : ProcSys ι κ) : κ × ProcInput →
    Outcome ProcPanic (ProcSys ι κ)
  | (c, x) =>
    match s.cpu c with
    | .scan [] => .next (s.setCpu c (.scan table))
    | .scan (p :: todo) => acquire (s.plock p) c ((s.setPlock p (some c)).setCpu c (.test p todo))
    | .test p todo =>
      if (s.proc p).state = .runnable then
        .next ((s.modify p fun e => { e with state := .running }).setCpu c (.setProc p todo))
      else .next (s.setCpu c (.release p todo))
    | .setProc p todo => .next ((s.setCproc c (some p)).setCpu c (.swtch p todo))
    | .swtch p todo =>
      if s.context p = .saved then .next ((s.setContext p .loaded).setCpu c (.run p todo))
      else .panic .wildContext
    | .run p todo => s.perform c p todo (code init table s.proc p (s.pc p) x)
    | .back p todo => .next ((s.setCproc c none).setCpu c (.release p todo))
    | .release p todo => release (s.plock p) c ((s.setPlock p none).setCpu c (.scan todo))

/-- The table as `procinit` and `userinit` leave it, when every CPU enters `scheduler`. -/
def boot (init : ι) : ProcSys ι κ where
  proc := fun i =>
    if i = init then ⟨.runnable, none, false, 0, 1, none⟩ else ⟨.unused, none, false, 0, 0, none⟩
  pc := fun _ => .forkret
  context := fun _ => .saved
  plock := fun _ => none
  waitLock := none
  nextpid := 2
  cpu := fun _ => .scan []
  cproc := fun _ => none
  exits := []
  reaps := []
  exited := fun i => ⟨i, 0, 0, none⟩

end ProcSys

end Xv6
