import Xv6.Proc.Cpu

/-!
# fork, exit and wait

The parent links of the process table are changed only under `wait_lock`, and so is the step of a
process to `ZOMBIE`: `kexit` wakes its parent first and becomes a zombie later, but before it
releases `wait_lock`. `ProcSys.WaitInv` says what the process that holds `wait_lock` knows at each
point, above all

* in `reparent`, that the children not yet given to `init` are still ahead of the loop;
* after `wakeup(p->parent)`, that the parent is not asleep in `kwait`, nor on its way there;
* in `kwait`, that the zombies among the children are still ahead of the loop.

The last two meet in `WaitInv.woken`: a process that is asleep in `kwait` has no zombie child. The
one exception is `init`, between the store of `reparent` that gives it a zombie and the `wakeup`
that follows, and `wait_lock` is held there.

`ProcSys.Books` is the account of exits and waits: every exit is either still a zombie in the table
or has been returned by exactly one `kwait`.
-/

namespace Xv6

open Function List Option ProcEntry

/-- `SLEEPING`, `RUNNABLE` or `RUNNING`. -/
def ProcState.Alive (st : ProcState) : Prop := st = .sleeping ∨ st = .runnable ∨ st = .running

namespace ProcPc

variable {ι : Type} {l : ProcPc ι}

/-- The points of a kernel thread that hold `wait_lock`. -/
def HoldsWait : ProcPc ι → Prop
  | .wakeup _ _ .user | .wakeupHeld _ _ _ .user => False
  | .wakeup _ _ _ | .wakeupHeld _ _ _ _ | .reparent _ _ | .kexitLock _ | .kexitSet _
  | .kexitRelease | .kwaitScan _ _ | .kwaitHeld _ _ | .kwaitKillLock | .kwaitKilled | .kwaitSleep
  | .kwaitSleepRelease | .kwaitReturn | .kforkParent _ | .kforkWaitRelease _ => True
  | _ => False

/-- The points at which a kernel thread has no CPU. -/
def Parked : ProcPc ι → Prop
  | .resumed _ | .forkret => True
  | _ => False

/-- After `reparent` has given a child to `init`, before `wakeup(initproc)` has come to `init`. -/
def Waking (init : ι) : ProcPc ι → Prop
  | .wakeup _ todo (.reparent _ _) => init ∈ todo
  | .wakeupHeld _ j todo (.reparent _ _) => j = init ∨ init ∈ todo
  | _ => False

/-- Between the `sched()` of the `sleep` in `kwait` and its return. -/
def InKwaitSleep : ProcPc ι → Prop
  | .sched .kwait | .saving .kwait | .resumed .kwait => True
  | _ => False

lemma Parked.not_holdsWait (h : l.Parked) : ¬ l.HoldsWait := by
  cases l <;> simp_all [Parked, HoldsWait]

lemma Waking.holdsWait {init : ι} (h : l.Waking init) : l.HoldsWait := by
  cases l with
  | wakeup ch todo k | wakeupHeld ch j todo k => cases k <;> trivial
  | _ => exact h.elim

lemma Resumable.parked (h : l.Resumable) : l.Parked := by
  cases l <;> simp_all [Parked, Resumable]

end ProcPc

namespace ProcSys

variable {ι κ : Type}

/-- `q` sleeps in `kwait`. -/
def SleepsInKwait (s : ProcSys ι κ) (q : ι) : Prop :=
  (s.proc q).state = .sleeping ∧ (s.pc q).InKwaitSleep

/-- `q` sleeps in `kwait`, or has released `wait_lock` to do so. -/
def Dozing (s : ProcSys ι κ) (q : ι) : Prop := s.pc q = .kwaitSleepSet ∨ s.SleepsInKwait q

/-- Only `todo` can hold children of `p`. -/
def ChildrenIn (s : ProcSys ι κ) (p : ι) (todo : List ι) : Prop :=
  ∀ i, (s.proc i).parent = some p → i ∈ todo

/-- Only `todo` can hold zombie children of `p`. -/
def ZombiesIn (s : ProcSys ι κ) (p : ι) (todo : List ι) : Prop :=
  ∀ i, (s.proc i).parent = some p → (s.proc i).state = .zombie → i ∈ todo

/-- What a process in `wakeup` knows; `ahead` are the processes that the loop has still to visit. -/
def KnowsWake (init : ι) (s : ProcSys ι κ) (p : ι) (ch : Option (Chan ι)) (ahead : List ι) :
    Caller ι → Prop
  | .user => True
  | .reparent _ todo => p ≠ init ∧ s.ChildrenIn p todo ∧ ch = some (.proc init)
  | .kexit _ => p ≠ init ∧ s.ChildrenIn p [] ∧ ch = (s.proc p).parent.map .proc ∧
      ∀ q, (s.proc p).parent = some q → q ∉ ahead → ¬ s.Dozing q

/-- What process `p` knows at each point. -/
def Knows (init : ι) (s : ProcSys ι κ) (p : ι) : ProcPc ι → Prop
  | .kexit _ => p ≠ init
  | .reparent _ todo => p ≠ init ∧ s.ChildrenIn p todo
  | .wakeup ch todo k => s.KnowsWake init p ch todo k
  | .wakeupHeld ch j todo k => s.KnowsWake init p ch (j :: todo) k
  | .kexitLock _ | .kexitSet _ => p ≠ init ∧ s.ChildrenIn p [] ∧
      ∀ q, (s.proc p).parent = some q → ¬ s.Dozing q
  | .kwaitScan todo _ => s.ZombiesIn p todo
  | .kwaitHeld j todo => (s.proc j).parent = some p ∧ s.ZombiesIn p (j :: todo)
  | .kwaitKillLock | .kwaitKilled | .kwaitSleep | .kwaitSleepRelease => s.ZombiesIn p []
  | .kforkWaitRelease np | .kforkLock np | .kforkRun np => (s.proc np).parent = some p
  | _ => True

/-- `wait_lock` is held where the code says so. -/
def WaitLockInv (s : ProcSys ι κ) : Prop :=
  ∀ c, s.waitLock = some c ↔ ∃ p todo, s.cpu c = .run p todo ∧ (s.pc p).HoldsWait

/-- The process tree, and who sleeps in `kwait`. -/
structure WaitInv (init : ι) (s : ProcSys ι κ) : Prop where
  lock : s.WaitLockInv
  parked : ∀ p, (∀ c todo, s.cpu c ≠ .run p todo) → (s.pc p).Parked
  root : (s.proc init).state.Alive
  tree : ∀ i, i ≠ init → (s.proc i).state.Alive ∨ (s.proc i).state = .zombie →
    ∃ q, (s.proc i).parent = some q ∧ (s.proc q).state.Alive
  chan : ∀ q, s.SleepsInKwait q → (s.proc q).chan = some (.proc q)
  woken : ∀ q i, s.Dozing q → (s.proc i).parent = some q → (s.proc i).state = .zombie →
    q = init ∧ ∃ p, (s.pc p).Waking init
  knows : ∀ p, s.Knows init p (s.pc p)

/-- The account of exits and waits. -/
structure Books [DecidableEq ι] (init : ι) (s : ProcSys ι κ) : Prop where
  account : ∀ e, s.exits.count e = (s.reaps.map Reaped.child).count e +
    if (s.proc e.slot).state = .zombie ∧ s.exited e.slot = e then 1 else 0
  zombie : ∀ i, (s.proc i).state = .zombie → (s.exited i).slot = i ∧
    (s.exited i).pid = (s.proc i).pid ∧ (s.exited i).status = (s.proc i).xstate ∧
    ((s.proc i).parent = (s.exited i).parent ∨ (s.proc i).parent = some init)
  reap : ∀ r ∈ s.reaps, r.pid = r.child.pid ∧ r.status = r.child.status ∧
    (some r.waiter = r.child.parent ∨ r.waiter = init)

variable {s s' : ProcSys ι κ} {c c' : κ} {init p i j : ι} {todo : List ι} {l q : ProcPc ι}
  {ch : Option (Chan ι)} {k : Caller ι}

/-! ## Steps that leave parents and zombies alone -/

/-- A step that changes no parent, makes and frees no zombie, and puts nobody to sleep in `kwait`.
-/
structure Calm (s s' : ProcSys ι κ) : Prop where
  parent : ∀ i, (s'.proc i).parent = (s.proc i).parent
  zombie : ∀ i, (s'.proc i).state = .zombie ↔ (s.proc i).state = .zombie
  record : ∀ i, (s.proc i).state = .zombie →
    (s'.proc i).pid = (s.proc i).pid ∧ (s'.proc i).xstate = (s.proc i).xstate
  alive : ∀ i, (s.proc i).state.Alive → (s'.proc i).state.Alive
  dozing : ∀ i, s'.Dozing i → s.Dozing i
  exits : s'.exits = s.exits
  reaps : s'.reaps = s.reaps
  exited : s'.exited = s.exited

lemma Books.calm [DecidableEq ι] (h : s.Books init) (hc : Calm s s') : s'.Books init where
  account e := by
    rw [hc.exits, hc.reaps, hc.exited, h.account e]
    simp only [hc.zombie]
  zombie i hi := by
    have hz := (hc.zombie i).mp hi
    rw [hc.exited, hc.parent, (hc.record i hz).1, (hc.record i hz).2]
    exact h.zombie i hz
  reap := by rw [hc.reaps]; exact h.reap

lemma KnowsWake.calm {ahead : List ι} (h : s.KnowsWake init p ch ahead k) (hc : Calm s s') :
    s'.KnowsWake init p ch ahead k := by
  cases k with
  | user => trivial
  | reparent status todo =>
    exact ⟨h.1, fun i hi => h.2.1 i (by rw [← hc.parent]; exact hi), h.2.2⟩
  | kexit status =>
    obtain ⟨hp, hch, hchan, hd⟩ := h
    refine ⟨hp, fun i hi => hch i (by rw [← hc.parent]; exact hi), by rw [hc.parent]; exact hchan,
      fun q hq hn hdz => ?_⟩
    exact hd q (by rw [← hc.parent]; exact hq) hn (hc.dozing q hdz)

lemma Knows.calm (h : s.Knows init p l) (hc : Calm s s') : s'.Knows init p l := by
  have hchildren : ∀ {todo}, s.ChildrenIn p todo → s'.ChildrenIn p todo := fun h' i hi =>
    h' i (by rw [← hc.parent]; exact hi)
  have hzombies : ∀ {todo}, s.ZombiesIn p todo → s'.ZombiesIn p todo := fun h' i hi hz =>
    h' i (by rw [← hc.parent]; exact hi) ((hc.zombie i).mp hz)
  have hdoze : (∀ q, (s.proc p).parent = some q → ¬ s.Dozing q) →
      ∀ q, (s'.proc p).parent = some q → ¬ s'.Dozing q := fun h' q hq hd =>
    h' q (by rw [← hc.parent]; exact hq) (hc.dozing q hd)
  cases l with
  | kexit => exact h
  | reparent => exact ⟨h.1, hchildren h.2⟩
  | wakeup | wakeupHeld => exact KnowsWake.calm h hc
  | kexitLock | kexitSet => exact ⟨h.1, hchildren h.2.1, hdoze h.2.2⟩
  | kwaitScan | kwaitKillLock | kwaitKilled | kwaitSleep | kwaitSleepRelease => exact hzombies h
  | kwaitHeld => exact ⟨by rw [hc.parent]; exact h.1, hzombies h.2⟩
  | kforkWaitRelease | kforkLock | kforkRun =>
    show (s'.proc _).parent = some p
    rw [hc.parent]
    exact h
  | _ => trivial

/-- What the process knows that holds no `wait_lock` depends only on the slot it is filling. -/
lemma Knows.of_not_holdsWait (h : s.Knows init i l) (hl : ¬ l.HoldsWait)
    (hf : ∀ np, l.child? = some np → (s.proc np).parent = some i →
      (s'.proc np).parent = some i) : s'.Knows init i l := by
  cases l with
  | kexit => exact h
  | wakeup ch todo k | wakeupHeld ch j todo k =>
    cases k <;> first | trivial | exact absurd trivial hl
  | kforkLock np | kforkRun np => exact hf np rfl h
  | reparent | kexitLock | kexitSet | kwaitScan | kwaitHeld | kwaitKillLock | kwaitKilled
  | kwaitSleep | kwaitSleepRelease | kforkWaitRelease => exact absurd trivial hl
  | _ => trivial

section

variable (h : s.WaitInv init)
include h

lemma WaitInv.calm (hc : Calm s s') (hlock : s'.WaitLockInv)
    (hparked : ∀ p, (∀ c todo, s'.cpu c ≠ .run p todo) → (s'.pc p).Parked)
    (hchan : ∀ q, s'.SleepsInKwait q →
      (s.SleepsInKwait q ∧ (s'.proc q).chan = (s.proc q).chan) ∨ (s'.proc q).chan = some (.proc q))
    (hborn : ∀ i, (s'.proc i).state.Alive → (s.proc i).state.Alive ∨
      ∃ q, (s.proc i).parent = some q ∧ (s.proc q).state.Alive)
    (hpc : ∀ i, i ≠ p → s'.pc i = s.pc i ∨ s'.pc i = .forkret ∧ (s.pc i).Parked)
    (hknow : s'.Knows init p (s'.pc p))
    (hwake : (s.pc p).Waking init → (s'.pc p).Waking init ∨ ¬ s'.Dozing init) :
    s'.WaitInv init where
  lock := hlock
  parked := hparked
  root := hc.alive _ h.root
  tree i hi hst := by
    have key : ∃ q, (s.proc i).parent = some q ∧ (s.proc q).state.Alive := by
      rcases hst with hst | hst
      · exact (hborn i hst).elim (fun ha => h.tree i hi (.inl ha)) id
      · exact h.tree i hi (.inr ((hc.zombie i).mp hst))
    obtain ⟨q, hq, ha⟩ := key
    exact ⟨q, by rw [hc.parent, hq], hc.alive q ha⟩
  chan q hq := by
    rcases hchan q hq with ⟨h1, h2⟩ | h1
    · rw [h2, h.chan q h1]
    · exact h1
  woken q i hd hi hz := by
    obtain ⟨hq, p', hp'⟩ := h.woken q i (hc.dozing q hd) (by rw [← hc.parent]; exact hi)
      ((hc.zombie i).mp hz)
    refine ⟨hq, ?_⟩
    subst hq
    by_cases hpp : p' = p
    · subst hpp
      exact ⟨p', (hwake hp').resolve_right fun hn => hn hd⟩
    · rcases hpc p' hpp with h' | h'
      · exact ⟨p', by rw [h']; exact hp'⟩
      · exact absurd hp'.holdsWait h'.2.not_holdsWait
  knows i := by
    by_cases hip : i = p
    · subst hip
      exact hknow
    · rcases hpc i hip with h' | h'
      · rw [h']
        exact (h.knows i).calm hc
      · rw [h'.1]
        trivial

/-! ## The lock -/

lemma WaitInv.running_of_not_parked (hp : ¬ (s.pc p).Parked) : ∃ c todo, s.cpu c = .run p todo := by
  by_contra hn
  push Not at hn
  exact hp (h.parked p hn)

lemma WaitInv.locked_of_holdsWait (hp : (s.pc p).HoldsWait) :
    ∃ c todo, s.cpu c = .run p todo ∧ s.waitLock = some c := by
  obtain ⟨c, todo, hc⟩ := h.running_of_not_parked fun hpk => hpk.not_holdsWait hp
  exact ⟨c, todo, hc, (h.lock c).mpr ⟨p, todo, hc, hp⟩⟩

lemma WaitInv.holder_unique (hp : (s.pc p).HoldsWait) (hi : (s.pc i).HoldsWait) : i = p := by
  obtain ⟨c, todo, hc, hl⟩ := h.locked_of_holdsWait hp
  obtain ⟨c', todo', hc', hl'⟩ := h.locked_of_holdsWait hi
  obtain rfl : c = c' := some.inj (hl.symm.trans hl')
  rw [hc] at hc'
  cases hc'
  rfl

end

/-- The ways in which a step of the process on CPU `c` uses `wait_lock`. -/
inductive WaitMove (s s' : ProcSys ι κ) (c : κ) (l q : ProcPc ι) : Prop where
  | same (hw : s'.waitLock = s.waitLock) (hq : q.HoldsWait ↔ l.HoldsWait)
  | acquire (hfree : s.waitLock = none) (hw : s'.waitLock = some c) (hq : q.HoldsWait)
  | release (hl : s.waitLock = some c) (hw : s'.waitLock = none) (hq : ¬ q.HoldsWait)

lemma WaitLockInv.run (h : s.WaitLockInv) (hcpu : s.CpuInv) (hrun : s.cpu c = .run p todo)
    (hcpus : s'.cpu = s.cpu) (hpc : ∀ i, i ≠ p → s'.pc i = s.pc i ∨ s'.pc i = .forkret ∧ s.Off i)
    (hm : WaitMove s s' c (s.pc p) (s'.pc p)) : s'.WaitLockInv := by
  have hself : ∀ {t : ProcSys ι κ}, t.cpu = s.cpu →
      ((∃ i rest, t.cpu c = .run i rest ∧ (t.pc i).HoldsWait) ↔ (t.pc p).HoldsWait) := by
    intro t ht
    rw [ht, hrun]
    constructor
    · rintro ⟨i, rest, ⟨⟩, hi⟩
      exact hi
    · exact fun hp => ⟨p, todo, rfl, hp⟩
  have hother : ∀ c', c' ≠ c → ((∃ i rest, s'.cpu c' = .run i rest ∧ (s'.pc i).HoldsWait) ↔
      s.waitLock = some c') := by
    intro c' hc'
    rw [h c', hcpus]
    refine exists_congr fun i => exists_congr fun rest => and_congr_right fun hi => ?_
    have hip : i ≠ p := by
      rintro rfl
      exact hc' (hcpu.alone _ _ _ (by rw [hi]; rfl) (by rw [hrun]; rfl))
    rcases hpc i hip with h' | ⟨-, hoff⟩
    · rw [h']
    · exact absurd (by rw [hi]; rfl) (hoff c')
  intro c'
  by_cases hc' : c' = c
  · subst hc'
    rw [hself hcpus]
    cases hm with
    | same hw hq => rw [hw, h c', hself rfl, hq]
    | acquire hfree hw hq | release hl hw hq => simp [hw, hq]
  · rw [hother c' hc']
    cases hm with
    | same hw hq => rw [hw]
    | acquire hfree hw hq | release hfree hw hq => simp [hw, hfree, Ne.symm hc']

lemma WaitLockInv.setCpu [DecidableEq κ] {k : Cpu ι} (h : s.WaitLockInv)
    (hcpu : s'.cpu = update s.cpu c k) (hw : s'.waitLock = s.waitLock)
    (hpc : ∀ i c' rest, c' ≠ c → s.cpu c' = .run i rest → s'.pc i = s.pc i)
    (hl : ∀ i rest, s.cpu c = .run i rest → ¬ (s.pc i).HoldsWait)
    (hk : ∀ i rest, k = .run i rest → ¬ (s'.pc i).HoldsWait) : s'.WaitLockInv := by
  intro c'
  rw [hw, h c', hcpu]
  by_cases hc' : c' = c
  · subst hc'
    rw [update_self]
    constructor
    · rintro ⟨i, rest, hi, hh⟩
      exact absurd hh (hl i rest hi)
    · rintro ⟨i, rest, hi, hh⟩
      exact absurd hh (hk i rest hi)
  · rw [update_of_ne hc']
    refine exists_congr fun i => exists_congr fun rest => and_congr_right fun hi => ?_
    rw [hpc i c' rest hc' hi]

/-! ## What the code knows -/

section code

variable [DecidableEq ι] {table : List ι} {x : ProcInput} {f : ProcEntry ι → ProcEntry ι}

lemma knows_goto (htable : ∀ i, i ∈ table) (hk : s.Knows init p l)
    (h : Code init table s.proc p x l (.goto q)) : s.Knows init p q := by
  cases h with
  | callKexit hp => exact hp
  | @wakeupDone ch k =>
    cases k with
    | user => trivial
    | reparent status todo => exact ⟨hk.1, hk.2.1⟩
    | kexit status => exact ⟨hk.1, hk.2.1, fun q hq => hk.2.2.2 q hq (by simp)⟩
  | @wakeupSelf ch k todo =>
    cases k with
    | user => trivial
    | reparent status rest => exact hk
    | kexit status =>
      obtain ⟨hp, hch, hchan, hd⟩ := hk
      refine ⟨hp, hch, hchan, fun q hq hn => hd q hq ?_⟩
      -- `p` is not its own parent
      have hqp : q ≠ p := by
        rintro rfl
        exact absurd (hch q hq) (by simp)
      simp [hqp, hn]
  | reparentDone => exact ⟨hk.1, hk.2, rfl, fun q _ hn => absurd (htable q) hn⟩
  | reparentNext hj =>
    refine ⟨hk.1, fun i hi => (mem_cons.mp (hk.2 i hi)).resolve_left ?_⟩
    rintro rfl
    exact hj hi
  | kwaitKids => exact hk
  | kwaitNext hj =>
    refine fun i hi hz => (mem_cons.mp (hk i hi hz)).resolve_left ?_
    rintro rfl
    exact hj hi
  | _ => trivial

lemma knows_acquire (hk : s.Knows init p l) (h : Code init table s.proc p x l (.acquire j q)) :
    s.Knows init p q := by
  cases h with
  | wakeupLock hj => exact hk
  | kwaitLock hj => exact ⟨hj, hk⟩
  | kexitLock | kwaitKillLock | kwaitSleep | kforkLock => exact hk
  | _ => trivial

lemma knows_release (hc : Calm s s') (hk : s.Knows init p l)
    (h : Code init table s.proc p x l (.release j f q))
    (hd : ∀ ch todo k, l = .wakeupHeld ch j todo k → ch = some (.proc j) → ¬ s'.Dozing j) :
    s'.Knows init p q := by
  have hk' := hk.calm hc
  cases h with
  | @wakeup ch k j todo =>
    cases k with
    | user => trivial
    | reparent status rest => exact hk'
    | kexit status =>
      obtain ⟨hp, hch, hchan, hdz⟩ := hk'
      refine ⟨hp, hch, hchan, fun q hq hn => ?_⟩
      by_cases hqj : q = j
      · subst hqj
        exact hd _ _ _ rfl (by rw [hchan, hq]; rfl)
      · exact hdz q hq (by simp [hqj, hn])
  | kwaitAlive hj =>
    refine fun i hi hz => (mem_cons.mp (hk'.2 i hi hz)).resolve_left ?_
    rintro rfl
    exact hj ((hc.zombie i).mp hz)
  | kwaitNotKilled => exact hk'
  | _ => trivial

lemma waking_goto (hk : s.Knows init p l) (h : Code init table s.proc p x l (.goto q))
    (hw : l.Waking init) : q.Waking init := by
  cases h with
  | @wakeupDone ch k => cases k <;> simp_all [ProcPc.Waking]
  | @wakeupSelf ch k todo =>
    cases k with
    | reparent status rest =>
      have hw' : init ∈ p :: todo := hw
      exact (mem_cons.mp hw').resolve_left hk.1.symm
    | _ => exact hw.elim
  | _ => exact hw.elim

lemma waking_acquire (h : Code init table s.proc p x l (.acquire j q)) (hw : l.Waking init) :
    q.Waking init := by
  cases h with
  | @wakeupLock ch k j todo hj =>
    cases k with
    | reparent status rest =>
      have hw' : init ∈ j :: todo := hw
      exact (mem_cons.mp hw').imp_left Eq.symm
    | _ => exact hw.elim
  | _ => exact hw.elim

lemma waking_release (hk : s.Knows init p l) (h : Code init table s.proc p x l (.release j f q))
    (hw : l.Waking init)
    (hd : ∀ ch todo k, l = .wakeupHeld ch j todo k → ch = some (.proc j) → ¬ s'.Dozing j) :
    q.Waking init ∨ ¬ s'.Dozing init := by
  cases h with
  | @wakeup ch k j todo =>
    cases k with
    | reparent status rest =>
      have hw' : j = init ∨ init ∈ todo := hw
      refine hw'.symm.imp id ?_
      rintro rfl
      exact hd _ _ _ rfl hk.2.2
    | _ => exact hw.elim
  | _ => exact hw.elim

/-- No step but `releaseWait` brings a process to the point where it goes to sleep in `kwait`. -/
lemma holdsWait_goto (h : Code init table s.proc p x l (.goto q)) :
    (q.HoldsWait ↔ l.HoldsWait) ∧ q ≠ .kwaitSleepSet ∧ l.expect = .running := by
  cases h with
  | @wakeupDone ch k => cases k <;> simp [ProcPc.HoldsWait, Caller.pc, ProcPc.expect]
  | @wakeupSelf ch k => cases k <;> simp [ProcPc.HoldsWait, ProcPc.expect]
  | _ => simp [ProcPc.HoldsWait, ProcPc.expect]

lemma holdsWait_acquire (h : Code init table s.proc p x l (.acquire j q)) :
    (q.HoldsWait ↔ l.HoldsWait) ∧ q ≠ .kwaitSleepSet ∧ l.expect = .running := by
  cases h with
  | @wakeupLock ch k => cases k <;> simp [ProcPc.HoldsWait, ProcPc.expect]
  | _ => simp [ProcPc.HoldsWait, ProcPc.expect]

lemma holdsWait_release (h : Code init table s.proc p x l (.release j f q)) :
    (q.HoldsWait ↔ l.HoldsWait) ∧ q ≠ .kwaitSleepSet := by
  cases h with
  | @wakeup ch k => cases k <;> simp [ProcPc.HoldsWait]
  | _ => simp [ProcPc.HoldsWait]

/-- What the end of a section under the lock of `j` leaves of the entry of `j`. -/
lemma release_entry (h : Code init table s.proc p x l (.release j f q)) (e : ProcEntry ι) :
    (f e).parent = e.parent ∧ (l.child? = some j ∨ (f e).pid = e.pid ∧ (f e).xstate = e.xstate) ∧
      (l.child? = some j ∨ j = p ∨ (f e).chan = e.chan) := by
  cases h with
  | wakeup =>
    rw [wakeup]
    split_ifs <;> simp
  | kkill => simp [ProcEntry.kkill]
  | kforkFail | kforkRun => exact ⟨rfl, .inl rfl, .inl rfl⟩
  | _ => simp

lemma release_alive (hk : s.Knows init p l) (h : Code init table s.proc p x l (.release j f q))
    (ha : (f (s.proc j)).state.Alive) :
    (s.proc j).state.Alive ∨ (s.proc j).parent = some p := by
  cases h with
  | wakeup =>
    rw [wakeup] at ha
    split_ifs at ha with hst
    · exact .inl (.inl hst.1)
    · exact .inl ha
  | kkill =>
    by_cases hst : (s.proc j).state = .sleeping
    · exact .inl (.inl hst)
    · simp only [ProcEntry.kkill, if_neg hst] at ha
      exact .inl ha
  | kforkFail => rcases ha with ha | ha | ha <;> cases ha
  | kforkRun => exact .inr hk
  | _ => exact .inl ha

end code

/-! ## Steps of a kernel thread -/

section perform

variable [DecidableEq ι] {table : List ι} {x : ProcInput}
  {f : ProcEntry ι → ProcEntry ι}

lemma Calm.of_pc (hproc : s'.proc = s.proc) (he : s'.exits = s.exits) (hr : s'.reaps = s.reaps)
    (hx : s'.exited = s.exited) (hpc : ∀ i, i ≠ p → s'.pc i = s.pc i)
    (hp : s'.Dozing p → s.Dozing p) : Calm s s' where
  parent i := by rw [hproc]
  zombie i := by rw [hproc]
  record i _ := by rw [hproc]; exact ⟨rfl, rfl⟩
  alive i h := by rw [hproc]; exact h
  dozing i h := by
    by_cases hi : i = p
    · subst hi
      exact hp h
    · rwa [Dozing, SleepsInKwait, hpc i hi, hproc] at h
  exits := he
  reaps := hr
  exited := hx

lemma WaitInv.parked_run (h : s.WaitInv init) (hrun : s.cpu c = .run p todo) (hcpu : s'.cpu = s.cpu)
    (hpc : ∀ i, i ≠ p → s'.pc i = s.pc i ∨ s'.pc i = .forkret) :
    ∀ i, (∀ c todo, s'.cpu c ≠ .run i todo) → (s'.pc i).Parked := by
  intro i hi
  rw [hcpu] at hi
  have hip : i ≠ p := by
    rintro rfl
    exact hi c todo hrun
  rcases hpc i hip with h' | h'
  · rw [h']
    exact h.parked i hi
  · rw [h']
    trivial

lemma WaitInv.move (h : s.WaitInv init) (hi : s.CpuInv) (hrun : s.cpu c = .run p todo)
    (hcpu : s'.cpu = s.cpu) (hproc : s'.proc = s.proc) (he : s'.exits = s.exits)
    (hr : s'.reaps = s.reaps) (hx : s'.exited = s.exited)
    (hpc : s'.pc = update s.pc p q) (hd : q = .kwaitSleepSet → s.Dozing p)
    (hs : q.InKwaitSleep → (s.pc p).InKwaitSleep ∨ (s.proc p).state = .running)
    (hm : WaitMove s s' c (s.pc p) q) (hknow : s.Knows init p q)
    (hwake : (s.pc p).Waking init → q.Waking init) : Calm s s' ∧ s'.WaitInv init := by
  obtain ⟨hpc', hother⟩ := eq_update_iff.mp hpc
  have hsleep : ∀ i, s'.SleepsInKwait i → s.SleepsInKwait i := by
    rintro i ⟨h1, h2⟩
    rw [hproc] at h1
    refine ⟨h1, ?_⟩
    by_cases hip : i = p
    · subst hip
      rw [hpc'] at h2
      exact (hs h2).resolve_right (by simp [h1])
    · rwa [← hother i hip]
  have hcalm : Calm s s' := .of_pc hproc he hr hx hother fun hdz =>
    hdz.elim (fun hq => hd (by rw [← hpc', hq])) fun hk => .inr (hsleep p hk)
  refine ⟨hcalm, h.calm hcalm ?_ ?_ ?_ ?_ (fun i hi => .inl (hother i hi)) ?_ ?_⟩
  · exact h.lock.run hi hrun hcpu (fun i hi => .inl (hother i hi)) (by rw [hpc']; exact hm)
  · exact h.parked_run hrun hcpu fun i hi => .inl (hother i hi)
  · exact fun i hi => .inl ⟨hsleep i hi, by rw [hproc]⟩
  · intro i hi
    rw [hproc] at hi
    exact .inl hi
  · rw [hpc']
    exact hknow.calm hcalm
  · intro hw
    rw [hpc']
    exact .inl (hwake hw)

variable {rest : List ι} {st : ProcState} {status : ℤ}

/-- After its step under the lock of `j`, `wakeup` has woken `j`. -/
lemma WaitInv.woken_of_wakeup (h : s.WaitInv init) (hi : s.CpuInv) (hrun : s.cpu c = .run p todo)
    (hj : j ≠ p) (hpc : s.pc p = .wakeupHeld ch j rest k) (hch : ch = some (.proc j))
    (hpc' : s'.pc j = s.pc j) (hst : (s'.proc j).state = ((s.proc j).wakeup ch).state) :
    ¬ s'.Dozing j := by
  have hlock : s.lockOf c = some j := by
    rw [lockOf_run hrun, hpc]
    rfl
  rintro (hd | ⟨h1, h2⟩)
  · -- `j` would hold its own lock
    rw [hpc'] at hd
    obtain ⟨c', rest', hc'⟩ := h.running_of_not_parked (by rw [hd]; exact id)
    have hlock' : s.lockOf c' = some j := by
      rw [lockOf_run hc', hd]
      rfl
    obtain rfl : c = c' :=
      some.inj (((hi.lock j c).mpr hlock).symm.trans ((hi.lock j c').mpr hlock'))
    rw [hrun] at hc'
    cases hc'
    exact hj rfl
  · rw [hpc'] at h2
    rw [hst, wakeup] at h1
    split_ifs at h1 with hw
    exact hw ⟨h1, by rw [hch]; exact h.chan j ⟨h1, h2⟩⟩

lemma WaitInv.release [DecidableEq κ] (h : s.WaitInv init) (hi : s.CpuInv) (hi' : s'.CpuInv)
    (hrun : s.cpu c = .run p todo) (hcode : Code init table s.proc p x (s.pc p) (.release j f q))
    (hs' : ((s.modify j f).setPlock j none).goto p q = s') : Calm s s' ∧ s'.WaitInv init := by
  have hcpu : s'.cpu = s.cpu := by rw [← hs']; rfl
  obtain ⟨hpc', hother⟩ : s'.pc p = q ∧ ∀ i ≠ p, s'.pc i = s.pc i :=
    eq_update_iff.mp (by rw [← hs']; rfl)
  have hprocj : s'.proc j = f (s.proc j) := by rw [← hs']; exact update_self ..
  have hproc : ∀ i, i ≠ j → s'.proc i = s.proc i := fun i hi => by
    rw [← hs']
    exact update_of_ne hi _ _
  obtain ⟨-, -, -, heq, -, hmove⟩ := code_release hcode
  obtain ⟨hhold, hne⟩ := holdsWait_release hcode
  obtain ⟨hpar, hrec, hch⟩ := release_entry hcode (s.proc j)
  have hmove' := hmove (s.proc j)
  have hused : (s.pc p).child? = some j → (s.proc j).state = .used := hi.fork.used p j
  have hrun' : s'.cpu c = .run p todo := by rw [hcpu, hrun]
  have hrunning : (s'.proc p).state = .running := by rw [hi'.expect hrun', hpc', heq]
  -- the state of `j` before and after
  have hst : ((s'.proc j).state = .zombie ↔ (s.proc j).state = .zombie) ∧
      ((s.proc j).state.Alive → (s'.proc j).state.Alive) ∧
      ((s'.proc j).state = .sleeping → (s.proc j).state = .sleeping) := by
    rw [hprocj]
    generalize hst : (s.proc j).state = st at hmove' hused
    generalize (f (s.proc j)).state = st' at hmove'
    cases hmove' with
    | same => exact ⟨Iff.rfl, id, id⟩
    | wake => exact ⟨by simp, fun _ => .inr (.inl rfl), by simp⟩
    | unfork hc | fork hc =>
      rw [hused hc]
      exact ⟨by simp, by simp [ProcState.Alive], by simp⟩
  have hsleep : ∀ i, s'.SleepsInKwait i → s.SleepsInKwait i ∧
      (s'.proc i).chan = (s.proc i).chan := by
    rintro i ⟨h1, h2⟩
    have hip : i ≠ p := by
      rintro rfl
      rw [hrunning] at h1
      cases h1
    rw [hother i hip] at h2
    by_cases hij : i = j
    · subst hij
      have hsl := hst.2.2 h1
      refine ⟨⟨hsl, h2⟩, ?_⟩
      rw [hprocj]
      rcases hch with hc | hc | hc
      · rw [hused hc] at hsl
        cases hsl
      · exact absurd hc hip
      · exact hc
    · rw [hproc i hij] at h1 ⊢
      exact ⟨⟨h1, h2⟩, rfl⟩
  have hdoze : ∀ i, s'.Dozing i → s.Dozing i := by
    rintro i (hd | hd)
    · by_cases hip : i = p
      · subst hip
        rw [hpc'] at hd
        exact absurd hd hne
      · rw [hother i hip] at hd
        exact .inl hd
    · exact .inr (hsleep i hd).1
  have hcalm : Calm s s' := by
    refine ⟨fun i => ?_, fun i => ?_, fun i hz => ?_, fun i ha => ?_, hdoze, ?_, ?_, ?_⟩
    · by_cases hij : i = j
      · rw [hij, hprocj, hpar]
      · rw [hproc i hij]
    · by_cases hij : i = j
      · rw [hij]
        exact hst.1
      · rw [hproc i hij]
    · by_cases hij : i = j
      · subst hij
        rw [hprocj]
        refine hrec.resolve_left fun hc => ?_
        rw [hused hc] at hz
        cases hz
      · rw [hproc i hij]
        exact ⟨rfl, rfl⟩
    · by_cases hij : i = j
      · subst hij
        exact hst.2.1 ha
      · rw [hproc i hij]
        exact ha
    · rw [← hs']; rfl
    · rw [← hs']; rfl
    · rw [← hs']; rfl
  have hwoken : ∀ ch todo k, s.pc p = .wakeupHeld ch j todo k → ch = some (.proc j) →
      ¬ s'.Dozing j := by
    intro ch rest k hl hchan
    by_cases hjp : j = p
    · subst hjp
      rintro (hd | hd)
      · exact hne (by rw [← hpc', hd])
      · rw [SleepsInKwait, hrunning] at hd
        cases hd.1
    · refine h.woken_of_wakeup hi hrun hjp hl hchan (hother j hjp) ?_
      rw [hprocj]
      rw [hl] at hcode
      cases hcode
      rfl
  refine ⟨hcalm, h.calm hcalm ?_ ?_ (fun i hi => .inl (hsleep i hi)) ?_
    (fun i hi => .inl (hother i hi)) ?_ ?_⟩
  · refine h.lock.run hi hrun hcpu (fun i hi => .inl (hother i hi)) ?_
    rw [hpc']
    exact .same (by rw [← hs']; rfl) hhold
  · exact h.parked_run hrun hcpu fun i hi => .inl (hother i hi)
  · intro i ha
    by_cases hij : i = j
    · subst hij
      rw [hprocj] at ha
      refine (release_alive (h.knows p) hcode ha).imp id fun hp => ⟨p, hp, ?_⟩
      rw [hi.expect hrun, (code_release hcode).2.2.1]
      exact .inr (.inr rfl)
    · rw [hproc i hij] at ha
      exact .inl ha
  · rw [hpc']
    exact knows_release hcalm (h.knows p) hcode hwoken
  · intro hw
    rw [hpc']
    exact waking_release (h.knows p) hcode hw hwoken

/-- While another point of the code holds `wait_lock`, a process asleep in `kwait` has no zombie
child. -/
lemma WaitInv.woken_of_holder (h : s.WaitInv init) (hhold : (s.pc p).HoldsWait)
    (hw : ¬ (s.pc p).Waking init) {k : ι} (hd : s.Dozing k) (hk : (s.proc i).parent = some k) :
    (s.proc i).state ≠ .zombie := by
  intro hz
  obtain ⟨-, p', hp'⟩ := h.woken k i hd hk hz
  obtain rfl := h.holder_unique hhold hp'.holdsWait
  exact hw hp'

lemma alive_ne_zombie (h : st.Alive) : st ≠ .zombie := by
  rintro rfl
  rcases h with h | h | h <;> cases h

lemma CpuInv.alive_of_run (hi : s.CpuInv) (hrun : s.cpu c = .run p todo)
    (he : (s.pc p).expect = .running) : (s.proc p).state.Alive := by
  rw [hi.expect hrun, he]
  exact .inr (.inr rfl)

section

variable (h : s.WaitInv init) (hi : s.CpuInv) (hrun : s.cpu c = .run p todo)
include h hi hrun

/-- A step of the process that holds `wait_lock`, which is at `l` before it and at `q` after it.
What the others know is not touched by it. -/
lemma WaitInv.of_holder (hhold : (s.pc p).HoldsWait) (hcpu : s'.cpu = s.cpu)
    (hpc : s'.pc = update s.pc p q)
    (hm : WaitMove s s' c (s.pc p) q) (hroot : (s'.proc init).state.Alive)
    (htree : ∀ i, i ≠ init → (s'.proc i).state.Alive ∨ (s'.proc i).state = .zombie →
      ∃ q, (s'.proc i).parent = some q ∧ (s'.proc q).state.Alive)
    (hstate : ∀ i, i ≠ p → (s'.proc i).state = .sleeping →
      (s.proc i).state = .sleeping ∧ (s'.proc i).chan = (s.proc i).chan)
    (hq : ¬ q.InKwaitSleep)
    (hwoken : ∀ k i, s'.Dozing k → (s'.proc i).parent = some k → (s'.proc i).state = .zombie →
      k = init ∧ q.Waking init)
    (hfork : ∀ i np, i ≠ p → (s.pc i).child? = some np → (s.proc np).parent = some i →
      (s'.proc np).parent = some i)
    (hknow : s'.Knows init p q) : s'.WaitInv init := by
  obtain ⟨hpc', hother⟩ := eq_update_iff.mp hpc
  refine ⟨?_, ?_, hroot, htree, ?_, ?_, ?_⟩
  · exact h.lock.run hi hrun hcpu (fun i hi => .inl (hother i hi)) (by rw [hpc']; exact hm)
  · exact h.parked_run hrun hcpu fun i hi => .inl (hother i hi)
  · rintro i ⟨h1, h2⟩
    have hip : i ≠ p := by
      rintro rfl
      rw [hpc'] at h2
      exact hq h2
    rw [hother i hip] at h2
    obtain ⟨h3, h4⟩ := hstate i hip h1
    rw [h4]
    exact h.chan i ⟨h3, h2⟩
  · intro k i hd hk hz
    obtain ⟨h1, h2⟩ := hwoken k i hd hk hz
    exact ⟨h1, p, by rw [hpc']; exact h2⟩
  · intro i
    by_cases hip : i = p
    · subst hip
      rw [hpc']
      exact hknow
    · rw [hother i hip]
      exact (h.knows i).of_not_holdsWait (fun hh => hip (h.holder_unique hhold hh))
        fun np hnp => hfork i np hip hnp

lemma WaitInv.relink {x : ι}
    (hs' : (s.modify j fun e => { e with parent := some x }).goto p q = s')
    (hhold : (s.pc p).HoldsWait) (hw : ¬ (s.pc p).Waking init) (hq : q.HoldsWait)
    (hlive : (s.proc j).state.Alive ∨ (s.proc j).state = .zombie → (s.proc x).state.Alive)
    (hzombie : (s.proc j).state = .zombie → x = init ∧ q.Waking init)
    (hfork : ∀ i, i ≠ p → (s.pc i).child? = some j → (s.proc j).parent ≠ some i)
    (hknow : s'.Knows init p q) : s'.WaitInv init := by
  have hst : ∀ i, (s'.proc i).state = (s.proc i).state ∧ (s'.proc i).chan = (s.proc i).chan := by
    intro i
    rw [← hs']
    by_cases hij : i = j <;> simp [goto, modify, hij]
  have hpar : ∀ i, i ≠ j → (s'.proc i).parent = (s.proc i).parent := by
    intro i hij
    rw [← hs']
    simp [goto, modify, hij]
  have hparj : (s'.proc j).parent = some x := by
    rw [← hs']
    simp [goto, modify]
  have hpc : s'.pc = update s.pc p q := by rw [← hs']; rfl
  have hqs : ¬ q.InKwaitSleep ∧ q ≠ .kwaitSleepSet := by
    cases q <;> simp_all [ProcPc.InKwaitSleep, ProcPc.HoldsWait]
  refine h.of_holder hi hrun hhold (by rw [← hs']; rfl) hpc
    (.same (by rw [← hs']; rfl) (iff_of_true hq hhold)) ?_ ?_ ?_ hqs.1 ?_ ?_ hknow
  · rw [(hst init).1]
    exact h.root
  · intro i hii hst'
    rw [(hst i).1] at hst'
    by_cases hij : i = j
    · subst hij
      exact ⟨x, hparj, by rw [(hst x).1]; exact hlive hst'⟩
    · obtain ⟨q, hq, ha⟩ := h.tree i hii hst'
      exact ⟨q, by rw [hpar i hij, hq], by rw [(hst q).1]; exact ha⟩
  · intro i _ hsl
    rw [(hst i).1] at hsl
    exact ⟨hsl, (hst i).2⟩
  · intro k i hd hk hz
    rw [(hst i).1] at hz
    by_cases hij : i = j
    · subst hij
      rw [hparj] at hk
      obtain ⟨hx, hwake⟩ := hzombie hz
      exact ⟨(some.inj hk).symm.trans hx, hwake⟩
    · -- an older zombie child would have been noticed before
      rw [hpar i hij] at hk
      have hkp : k ≠ p := by
        rintro rfl
        rw [Dozing, SleepsInKwait, hpc, update_self] at hd
        exact hd.elim hqs.2 fun hd => hqs.1 hd.2
      refine absurd hz (h.woken_of_holder hhold hw ?_ hk)
      rwa [Dozing, SleepsInKwait, hpc, update_of_ne hkp, (hst k).1] at hd
  · intro i np hip hc hnp
    have hne : np ≠ j := by
      rintro rfl
      exact hfork i hip hc hnp
    rw [hpar np hne, hnp]

lemma WaitInv.reparent (htable : ∀ i, i ∈ table) (hl : s.pc p = .reparent status (j :: rest))
    (hj : (s.proc j).parent = some p)
    (hs' : (s.modify j fun e => { e with parent := some init }).goto p
      (.wakeup (some (.proc init)) table (.reparent status rest)) = s') : s'.WaitInv init := by
  have hk := h.knows p
  rw [hl] at hk
  obtain ⟨hpi, hch⟩ := hk
  refine h.relink hi hrun hs' (by rw [hl]; trivial) (by rw [hl]; exact id) trivial
    (fun _ => h.root) (fun _ => ⟨rfl, htable init⟩) (fun i hip _ hpar => ?_)
    ⟨hpi, fun i hii => ?_, rfl⟩
  · rw [hj] at hpar
    exact hip (some.inj hpar).symm
  · rw [← hs'] at hii
    have hij : i ≠ j := by
      rintro rfl
      simp only [goto, modify, update_self, some.injEq] at hii
      exact hpi hii.symm
    simp only [goto, modify, update_of_ne hij] at hii
    exact (mem_cons.mp (hch i hii)).resolve_left hij

lemma WaitInv.setParent (hl : s.pc p = .kforkParent j)
    (hs' : (s.modify j fun e => { e with parent := some p }).goto p (.kforkWaitRelease j) = s') :
    s'.WaitInv init := by
  have hused : (s.proc j).state = .used := hi.fork.used p j (by rw [hl]; rfl)
  refine h.relink hi hrun hs' (by rw [hl]; trivial) (by rw [hl]; exact id) trivial ?_ ?_
    (fun i hip hc _ => hip (hi.fork.unique i p j hc (by rw [hl]; rfl))) ?_
  · rw [hused]
    simp [ProcState.Alive]
  · rw [hused]
    simp
  · show (s'.proc j).parent = some p
    rw [← hs']
    simp [goto, modify]

lemma WaitInv.zombie (hl : s.pc p = .kexitSet status) (hcpu : s'.cpu = s.cpu)
    (hw : s'.waitLock = s.waitLock) (hpc : s'.pc = update s.pc p .kexitRelease)
    (hpar : (s'.proc p).parent = (s.proc p).parent) (hz : (s'.proc p).state = .zombie)
    (hproc : ∀ i, i ≠ p → s'.proc i = s.proc i) : s'.WaitInv init := by
  have hk := h.knows p
  rw [hl] at hk
  obtain ⟨hpi, hch, hd⟩ := hk
  have hpar' : ∀ i, (s'.proc i).parent = (s.proc i).parent := fun i => by
    by_cases hip : i = p
    · rw [hip, hpar]
    · rw [hproc i hip]
  have halive : (s.proc p).state.Alive := hi.alive_of_run hrun (by rw [hl]; rfl)
  refine h.of_holder hi hrun (by rw [hl]; trivial) hcpu hpc
    (.same hw (by rw [hl]; simp [ProcPc.HoldsWait])) ?_ ?_ ?_ id ?_ ?_ trivial
  · rw [hproc init hpi.symm]
    exact h.root
  · intro i hii hlive
    have hlive' : (s.proc i).state.Alive ∨ (s.proc i).state = .zombie := by
      by_cases hip : i = p
      · rw [hip]
        exact .inl halive
      · rwa [hproc i hip] at hlive
    obtain ⟨q, hq, ha⟩ := h.tree i hii hlive'
    -- `p` has no child any more
    have hqp : q ≠ p := by
      rintro rfl
      exact absurd (hch i hq) (by simp)
    exact ⟨q, by rw [hpar', hq], by rw [hproc q hqp]; exact ha⟩
  · intro i hip hsl
    rw [hproc i hip] at hsl ⊢
    exact ⟨hsl, rfl⟩
  · intro k i hdz hk hzi
    have hkp : k ≠ p := by
      rintro rfl
      rcases hdz with hdz | hdz
      · rw [hpc, update_self] at hdz
        cases hdz
      · rw [SleepsInKwait, hz] at hdz
        cases hdz.1
    have hdz' : s.Dozing k := by
      rwa [Dozing, SleepsInKwait, hproc k hkp, hpc, update_of_ne hkp] at hdz
    rw [hpar'] at hk
    by_cases hip : i = p
    · subst hip
      exact absurd hdz' (hd k hk)
    · rw [hproc i hip] at hzi
      exact absurd hzi (h.woken_of_holder (by rw [hl]; trivial) (by rw [hl]; exact id) hdz' hk)
  · intro i np _ _ hnp
    rw [hpar', hnp]

lemma WaitInv.reap (hl : s.pc p = .kwaitHeld j rest)
    (hj : (s.proc j).state = .zombie) (hcpu : s'.cpu = s.cpu) (hw : s'.waitLock = s.waitLock)
    (hpc : s'.pc = update s.pc p .kwaitReturn) (hu : (s'.proc j).state = .unused)
    (hproc : ∀ i, i ≠ j → s'.proc i = s.proc i) : s'.WaitInv init := by
  have halive : ∀ i, (s.proc i).state.Alive → i ≠ j := by
    rintro i ha rfl
    exact alive_ne_zombie ha hj
  have hne : ∀ i, (s'.proc i).state.Alive ∨ (s'.proc i).state = .zombie → i ≠ j := by
    rintro i hlive rfl
    rw [hu] at hlive
    simp [ProcState.Alive] at hlive
  refine h.of_holder hi hrun (by rw [hl]; trivial) hcpu hpc
    (.same hw (by rw [hl]; simp [ProcPc.HoldsWait])) ?_ ?_ ?_ id ?_ ?_ trivial
  · rw [hproc init (halive init h.root)]
    exact h.root
  · intro i hii hlive
    have hij := hne i hlive
    rw [hproc i hij] at hlive
    obtain ⟨q, hq, ha⟩ := h.tree i hii hlive
    exact ⟨q, by rw [hproc i hij, hq], by rw [hproc q (halive q ha)]; exact ha⟩
  · intro i _ hsl
    have hij := hne i (.inl (.inl hsl))
    rw [hproc i hij] at hsl ⊢
    exact ⟨hsl, rfl⟩
  · intro k i hdz hk hzi
    have hij := hne i (.inr hzi)
    rw [hproc i hij] at hk hzi
    have hkp : k ≠ p := by
      rintro rfl
      rcases hdz with hdz | hdz
      · rw [hpc, update_self] at hdz
        cases hdz
      · rw [SleepsInKwait, hpc, update_self] at hdz
        exact hdz.2.elim
    have hdz' : s.Dozing k := by
      rcases hdz with hdz | hdz
      · rw [hpc, update_of_ne hkp] at hdz
        exact .inl hdz
      · rw [SleepsInKwait, hproc k (hne k (.inl (.inl hdz.1))), hpc, update_of_ne hkp] at hdz
        exact .inr hdz
    exact absurd hzi (h.woken_of_holder (by rw [hl]; trivial) (by rw [hl]; exact id) hdz' hk)
  · intro i np _ hc hnp
    have hnj : np ≠ j := by
      rintro rfl
      rw [hi.fork.used i np hc] at hj
      cases hj
    rw [hproc np hnj, hnp]

/-- The `sleep` of `kwait` releases `wait_lock`: the loop before it has found no zombie. -/
lemma WaitInv.kwaitSleep (hl : s.pc p = .kwaitSleepRelease) (hlk : s.waitLock = some c)
    (hs' : { s.goto p .kwaitSleepSet with waitLock := none } = s') : s'.WaitInv init := by
  have hk := h.knows p
  rw [hl] at hk
  have hproc : s'.proc = s.proc := by rw [← hs']; rfl
  have hpc : s'.pc = update s.pc p .kwaitSleepSet := by rw [← hs']; rfl
  refine h.of_holder hi hrun (by rw [hl]; trivial) (by rw [← hs']; rfl) hpc
    (.release hlk (by rw [← hs']) id) ?_ ?_ ?_ id ?_ ?_ trivial
  · rw [hproc]
    exact h.root
  · rw [hproc]
    exact h.tree
  · intro i _ hsl
    rw [hproc] at hsl ⊢
    exact ⟨hsl, rfl⟩
  · intro k i hdz hki hz
    rw [hproc] at hki hz
    by_cases hkp : k = p
    · subst hkp
      exact absurd (hk i hki hz) (by simp)
    · rw [Dozing, SleepsInKwait, hproc, hpc, update_of_ne hkp] at hdz
      exact absurd hz (h.woken_of_holder (by rw [hl]; trivial) (by rw [hl]; exact id) hdz hki)
  · intro i np _ _ hnp
    rw [hproc]
    exact hnp

lemma WaitInv.give (hcode : Code init table s.proc p x (s.pc p) (.give ch st q))
    (hs' : (s.modify p fun e => { e with chan := ch, state := st }).goto p q = s') :
    Calm s s' ∧ s'.WaitInv init := by
  have hcpu : s'.cpu = s.cpu := by rw [← hs']; rfl
  obtain ⟨hpc', hother⟩ : s'.pc p = q ∧ ∀ i ≠ p, s'.pc i = s.pc i :=
    eq_update_iff.mp (by rw [← hs']; rfl)
  have hproc : ∀ i, i ≠ p → s'.proc i = s.proc i := fun i hi => by
    rw [← hs']
    exact update_of_ne hi _ _
  have hp : s'.proc p = { s.proc p with chan := ch, state := st } := by
    rw [← hs']
    exact update_self ..
  have hrunning : (s.proc p).state = .running := by
    rw [hi.expect hrun, (code_give hcode).2.2.1]
  have hfacts : (st = .runnable ∨ st = .sleeping) ∧ q ≠ .kwaitSleepSet ∧ ¬ q.HoldsWait ∧
      ¬ (s.pc p).HoldsWait ∧ s.Knows init p q ∧
      (q.InKwaitSleep → s.pc p = .kwaitSleepSet ∧ ch = some (.proc p)) := by
    generalize s.pc p = l at hcode
    cases hcode <;> simp [ProcPc.HoldsWait, Knows, ProcPc.InKwaitSleep]
  obtain ⟨hst, hne, hhq, hhl, hknow, hsleep⟩ := hfacts
  have hst' : (s'.proc p).state = st := by rw [hp]
  have hcalm : Calm s s' := by
    refine ⟨fun i => ?_, fun i => ?_, fun i hz => ?_, fun i ha => ?_, fun i hd => ?_, ?_, ?_, ?_⟩
    · by_cases hip : i = p
      · rw [hip, hp]
      · rw [hproc i hip]
    · by_cases hip : i = p
      · rw [hip, hst', hrunning]
        rcases hst with rfl | rfl <;> simp
      · rw [hproc i hip]
    · have hip : i ≠ p := by
        rintro rfl
        rw [hrunning] at hz
        cases hz
      rw [hproc i hip]
      exact ⟨rfl, rfl⟩
    · by_cases hip : i = p
      · rw [hip, hst']
        exact hst.elim (fun h => .inr (.inl h)) .inl
      · rw [hproc i hip]
        exact ha
    · by_cases hip : i = p
      · subst hip
        rcases hd with hd | hd
        · rw [hpc'] at hd
          exact absurd hd hne
        · rw [SleepsInKwait, hpc'] at hd
          exact .inl (hsleep hd.2).1
      · rwa [Dozing, SleepsInKwait, hproc i hip, hother i hip] at hd
    · rw [← hs']; rfl
    · rw [← hs']; rfl
    · rw [← hs']; rfl
  refine ⟨hcalm, h.calm hcalm ?_ ?_ ?_ ?_ (fun i hi => .inl (hother i hi)) ?_ ?_⟩
  · refine h.lock.run hi hrun hcpu (fun i hi => .inl (hother i hi)) ?_
    rw [hpc']
    exact .same (by rw [← hs']; rfl) ⟨fun h => absurd h hhq, fun h => absurd h hhl⟩
  · exact h.parked_run hrun hcpu fun i hi => .inl (hother i hi)
  · rintro i ⟨h1, h2⟩
    by_cases hip : i = p
    · subst hip
      rw [hpc'] at h2
      refine .inr ?_
      rw [hp]
      exact (hsleep h2).2
    · rw [hproc i hip] at h1 ⊢
      rw [hother i hip] at h2
      exact .inl ⟨⟨h1, h2⟩, rfl⟩
  · intro i ha
    by_cases hip : i = p
    · rw [hip, hrunning]
      exact .inl (.inr (.inr rfl))
    · rw [hproc i hip] at ha
      exact .inl ha
  · rw [hpc']
    exact hknow.calm hcalm
  · exact fun hw => absurd hw.holdsWait hhl

end

lemma WaitInv.swtch [DecidableEq κ] {g : Give} (h : s.WaitInv init) (hi : s.CpuInv)
    (hrun : s.cpu c = .run p todo) (hl : s.pc p = .saving g)
    (hs' : ((s.setContext p .saved).goto p (.resumed g)).setCpu c (.back p todo) = s') :
    Calm s s' ∧ s'.WaitInv init := by
  have hproc : s'.proc = s.proc := by rw [← hs']; rfl
  obtain ⟨hpc', hother⟩ : s'.pc p = .resumed g ∧ ∀ i ≠ p, s'.pc i = s.pc i :=
    eq_update_iff.mp (by rw [← hs']; rfl)
  have hsleep : ∀ i, s'.SleepsInKwait i → s.SleepsInKwait i := by
    intro i hk
    by_cases hip : i = p
    · subst hip
      rw [SleepsInKwait, hproc, hpc'] at hk
      refine ⟨hk.1, ?_⟩
      rw [hl]
      cases g <;> exact hk.2
    · rwa [SleepsInKwait, hproc, hother i hip] at hk
  have hcalm : Calm s s' := by
    refine .of_pc hproc ?_ ?_ ?_ hother fun hd => ?_
    · rw [← hs']; rfl
    · rw [← hs']; rfl
    · rw [← hs']; rfl
    · rcases hd with hd | hd
      · rw [hpc'] at hd
        cases hd
      · exact .inr (hsleep p hd)
  refine ⟨hcalm, h.calm hcalm ?_ ?_ (fun i hk => .inl ⟨hsleep i hk, by rw [hproc]⟩) ?_
    (fun i hi => .inl (hother i hi)) (by rw [hpc']; trivial) ?_⟩
  · refine h.lock.setCpu (by rw [← hs']; rfl) (by rw [← hs']; rfl) ?_ ?_ ?_
    · intro i c' rest hc' hi'
      refine hother i ?_
      rintro rfl
      exact hc' (hi.alone _ _ _ (by rw [hi']; rfl) (by rw [hrun]; rfl))
    · intro i rest hi'
      rw [hrun] at hi'
      cases hi'
      rw [hl]
      exact id
    · rintro i rest ⟨⟩
  · intro i hnot
    by_cases hip : i = p
    · rw [hip, hpc']
      trivial
    · rw [hother i hip]
      refine h.parked i fun c' rest hc' => hnot c' rest ?_
      have hcc : c' ≠ c := by
        rintro rfl
        rw [hrun] at hc'
        cases hc'
        exact hip rfl
      rw [← hs', ← hc']
      exact update_of_ne hcc _ _
  · intro i ha
    rw [hproc] at ha
    exact .inl ha
  · intro hw
    rw [hl] at hw
    exact hw.elim

lemma WaitInv.alloc (h : s.WaitInv init) (hi : s.CpuInv)
    (hrun : s.cpu c = .run p todo) (hl : s.pc p = .kforkHeld j rest)
    (hj : (s.proc j).state = .unused) (hcpu : s'.cpu = s.cpu) (hw : s'.waitLock = s.waitLock)
    (hpc : s'.pc = update (update s.pc j .forkret) p (.kforkCopy j))
    (hst : (s'.proc j).state = .used) (hpar : (s'.proc j).parent = (s.proc j).parent)
    (hproc : ∀ i, i ≠ j → s'.proc i = s.proc i) (he : s'.exits = s.exits)
    (hr : s'.reaps = s.reaps) (hx : s'.exited = s.exited) : Calm s s' ∧ s'.WaitInv init := by
  have hjp : j ≠ p := by
    rintro rfl
    have := hi.expect hrun
    rw [hj, hl] at this
    cases this
  have hlock : s.lockOf c = some j := by
    rw [lockOf_run hrun, hl]
    rfl
  have hoff : s.Off j := hi.notLive ((hi.lock j c).mpr hlock)
    (by rw [hrun]; exact fun hp => hjp (some.inj hp).symm) (by simp [hj])
  have hparked : (s.pc j).Parked := h.parked j fun c' rest' hc' =>
    hoff c' (by rw [hc']; rfl)
  have hpc' : s'.pc p = .kforkCopy j := by rw [hpc, update_self]
  have hpcj : s'.pc j = .forkret := by
    rw [hpc, update_of_ne hjp, update_self]
  have hother : ∀ i, i ≠ p → s'.pc i = s.pc i ∨ i = j := fun i hip => by
    by_cases hij : i = j
    · exact .inr hij
    · exact .inl (by rw [hpc, update_of_ne hip, update_of_ne hij])
  have hdoze : ∀ i, s'.Dozing i → i ≠ j ∧ i ≠ p := by
    rintro i hd
    constructor
    · rintro rfl
      rcases hd with hd | hd
      · rw [hpcj] at hd
        cases hd
      · rw [SleepsInKwait, hst] at hd
        cases hd.1
    · rintro rfl
      rcases hd with hd | hd
      · rw [hpc'] at hd
        cases hd
      · rw [SleepsInKwait, hpc'] at hd
        exact hd.2.elim
  have hsleep : ∀ i, i ≠ j → i ≠ p → s'.SleepsInKwait i → s.SleepsInKwait i := by
    intro i hij hip hk
    rwa [SleepsInKwait, hproc i hij, (hother i hip).resolve_right hij] at hk
  have hcalm : Calm s s' := by
    refine ⟨fun i => ?_, fun i => ?_, fun i hz => ?_, fun i ha => ?_, fun i hd => ?_, he, hr, hx⟩
    · by_cases hij : i = j
      · rw [hij, hpar]
      · rw [hproc i hij]
    · by_cases hij : i = j
      · rw [hij, hst, hj]
        simp
      · rw [hproc i hij]
    · have hij : i ≠ j := by
        rintro rfl
        rw [hj] at hz
        cases hz
      rw [hproc i hij]
      exact ⟨rfl, rfl⟩
    · have hij : i ≠ j := by
        rintro rfl
        rw [hj] at ha
        simp [ProcState.Alive] at ha
      rw [hproc i hij]
      exact ha
    · obtain ⟨hij, hip⟩ := hdoze i hd
      rcases hd with hd | hd
      · rw [(hother i hip).resolve_right hij] at hd
        exact .inl hd
      · exact .inr (hsleep i hij hip hd)
  refine ⟨hcalm, h.calm hcalm ?_ ?_ ?_ ?_ ?_ (by rw [hpc']; trivial) ?_⟩
  · refine h.lock.run hi hrun hcpu (fun i hip => ?_) ?_
    · rcases hother i hip with h' | rfl
      · exact .inl h'
      · exact .inr ⟨hpcj, hoff⟩
    · rw [hpc', hl]
      exact .same hw (by simp [ProcPc.HoldsWait])
  · refine h.parked_run hrun hcpu fun i hip => ?_
    rcases hother i hip with h' | rfl
    · exact .inl h'
    · exact .inr hpcj
  · intro i hk
    obtain ⟨hij, hip⟩ := hdoze i (.inr hk)
    exact .inl ⟨hsleep i hij hip hk, by rw [hproc i hij]⟩
  · intro i ha
    have hij : i ≠ j := by
      rintro rfl
      rw [hst] at ha
      simp [ProcState.Alive] at ha
    rw [hproc i hij] at ha
    exact .inl ha
  · intro i hip
    rcases hother i hip with h' | rfl
    · exact .inl h'
    · exact .inr ⟨hpcj, hparked⟩
  · intro hwk
    rw [hl] at hwk
    exact hwk.elim

/-! ## The account -/

lemma CpuInv.not_zombie_of_run (hi : s.CpuInv) (hrun : s.cpu c = .run p todo)
    (he : (s.pc p).expect = .running) : (s.proc p).state ≠ .zombie :=
  alive_ne_zombie (hi.alive_of_run hrun he)

lemma Books.relink (h : s.Books init) (he : s'.exits = s.exits) (hr : s'.reaps = s.reaps)
    (hx : s'.exited = s.exited)
    (hp : ∀ i, (s'.proc i).state = (s.proc i).state ∧ (s'.proc i).pid = (s.proc i).pid ∧
      (s'.proc i).xstate = (s.proc i).xstate)
    (hpar : ∀ i, (s.proc i).state = .zombie →
      (s'.proc i).parent = (s.proc i).parent ∨ (s'.proc i).parent = some init) :
    s'.Books init where
  account e := by
    rw [he, hr, hx, h.account e, (hp e.slot).1]
  zombie i hi := by
    rw [(hp i).1] at hi
    obtain ⟨h1, h2, h3, h4⟩ := h.zombie i hi
    rw [hx, (hp i).2.1, (hp i).2.2]
    refine ⟨h1, h2, h3, ?_⟩
    rcases hpar i hi with h' | h'
    · rw [h']
      exact h4
    · exact .inr h'
  reap := by rw [hr]; exact h.reap

lemma Books.exit {e : Exited ι} (h : s.Books init) (hlive : (s.proc p).state ≠ .zombie)
    (hp : e.slot = p ∧ e.pid = (s'.proc p).pid ∧ e.status = (s'.proc p).xstate ∧
      e.parent = (s'.proc p).parent)
    (hproc : ∀ i, i ≠ p → s'.proc i = s.proc i) (hz : (s'.proc p).state = .zombie)
    (he : s'.exits = s.exits ++ [e]) (hr : s'.reaps = s.reaps)
    (hx : s'.exited = update s.exited p e) : s'.Books init where
  account e' := by
    rw [he, hr, hx, count_append, h.account e']
    by_cases hslot : e'.slot = p
    · rw [hslot, update_self, hz, if_neg fun h => hlive h.1]
      by_cases hee : e = e'
      · subst hee
        simp
      · simp [hee]
    · have hee : e ≠ e' := by
        rintro rfl
        exact hslot hp.1
      rw [update_of_ne hslot, hproc _ hslot]
      simp [hee]
  zombie i hi := by
    by_cases hip : i = p
    · subst hip
      rw [hx, update_self]
      exact ⟨hp.1, hp.2.1, hp.2.2.1, .inl hp.2.2.2.symm⟩
    · rw [hproc i hip] at hi ⊢
      rw [hx, update_of_ne hip]
      exact h.zombie i hi
  reap := by rw [hr]; exact h.reap

lemma Books.reaped (h : s.Books init) (hz : (s.proc j).state = .zombie)
    (hpar : (s.proc j).parent = some p) (hproc : ∀ i, i ≠ j → s'.proc i = s.proc i)
    (hu : (s'.proc j).state = .unused) (he : s'.exits = s.exits)
    (hr : s'.reaps = s.reaps ++ [⟨p, (s.proc j).pid, (s.proc j).xstate, s.exited j⟩])
    (hx : s'.exited = s.exited) : s'.Books init := by
  obtain ⟨hslot, hpid, hstatus, hparent⟩ := h.zombie j hz
  refine ⟨fun e => ?_, fun i hi => ?_, fun r hmem => ?_⟩
  · rw [he, hr, hx, h.account e, map_append, count_append]
    by_cases hej : e.slot = j
    · simp only [hej, hz, hu]
      by_cases hee : s.exited j = e <;> simp [hee]
    · have hee : s.exited j ≠ e := by
        rintro rfl
        exact hej hslot
      rw [hproc _ hej]
      simp [hee]
  · have hij : i ≠ j := by
      rintro rfl
      rw [hu] at hi
      cases hi
    rw [hproc i hij] at hi ⊢
    rw [hx]
    exact h.zombie i hi
  · rw [hr, mem_append, mem_singleton] at hmem
    rcases hmem with hmem | rfl
    · exact h.reap r hmem
    · refine ⟨hpid.symm, hstatus.symm, ?_⟩
      rw [hpar] at hparent
      exact hparent.imp id fun h' => some.inj h'

lemma WaitInv.perform [DecidableEq κ] {a : ProcInstr ι} (htable : ∀ i, i ∈ table)
    (h : s.WaitInv init) (hb : s.Books init) (hi : s.CpuInv) (hrun : s.cpu c = .run p todo)
    (hcode : Code init table s.proc p x (s.pc p) a) (hs : s.perform c p todo a = .next s') :
    s'.WaitInv init ∧ s'.Books init := by
  have hi' : s'.CpuInv := hi.perform hrun hcode hs
  have finish : Calm s s' ∧ s'.WaitInv init → s'.WaitInv init ∧ s'.Books init :=
    fun hc => ⟨hc.2, hb.calm hc.1⟩
  cases a with
  | goto q =>
    cases hs
    obtain ⟨hhold, hne, hex⟩ := holdsWait_goto hcode
    exact finish (h.move hi hrun rfl rfl rfl rfl rfl rfl (fun hq => absurd hq hne)
      (fun _ => .inr ((hi.expect hrun).trans hex)) (.same rfl hhold)
      (knows_goto htable (h.knows p) hcode) (waking_goto (h.knows p) hcode))
  | acquire j q =>
    obtain ⟨hfree, rfl⟩ := acquire_eq hs
    obtain ⟨hhold, hne, hex⟩ := holdsWait_acquire hcode
    exact finish (h.move hi hrun rfl rfl rfl rfl rfl rfl (fun hq => absurd hq hne)
      (fun _ => .inr ((hi.expect hrun).trans hex)) (.same rfl hhold)
      (knows_acquire (h.knows p) hcode) (waking_acquire hcode))
  | release j f q =>
    obtain ⟨hlk, hs'⟩ := release_eq hs
    exact finish (h.release hi hi' hrun hcode hs')
  | reap j q =>
    obtain ⟨hlk, rfl⟩ := release_eq hs
    have hk := h.knows p
    generalize hl : s.pc p = l at hcode hk
    cases hcode with
    | kwaitReap hj hx =>
      refine ⟨h.reap hi hrun hl hj rfl rfl rfl ?_ fun i hij => update_of_ne hij _ _,
        hb.reaped hj hk.1 (fun i hij => update_of_ne hij _ _) ?_ rfl rfl rfl⟩
      · simp [goto, setPlock, modify, freeproc]
      · simp [goto, setPlock, modify, freeproc]
  | acquireWait q =>
    obtain ⟨hfree, rfl⟩ := acquire_eq hs
    have hfacts : q ≠ .kwaitSleepSet ∧ ¬ q.InKwaitSleep ∧ q.HoldsWait ∧ s.Knows init p q ∧
        ¬ (s.pc p).Waking init := by
      have hk := h.knows p
      generalize s.pc p = l at hcode hk
      cases hcode with
      | kexit => exact ⟨by simp, id, trivial, ⟨hk, fun i _ => htable i⟩, id⟩
      | kwait => exact ⟨by simp, id, trivial, fun i _ _ => htable i, id⟩
      | kforkWait => exact ⟨by simp, id, trivial, trivial, id⟩
    obtain ⟨h1, h2, h3, h4, h5⟩ := hfacts
    exact finish (h.move hi hrun rfl rfl rfl rfl rfl rfl (fun hq => absurd hq h1)
      (fun hq => absurd hq h2) (.acquire hfree rfl h3) h4 fun hw => absurd hw h5)
  | releaseWait q =>
    obtain ⟨hlk, hs'⟩ := release_eq hs
    by_cases hq : q = .kwaitSleepSet
    · subst hq
      generalize hl : s.pc p = l at hcode
      cases hcode
      refine ⟨h.kwaitSleep hi hrun hl hlk hs', ?_⟩
      rw [← hs']
      exact ⟨hb.account, hb.zombie, hb.reap⟩
    · subst hs'
      have hfacts : ¬ q.InKwaitSleep ∧ ¬ q.HoldsWait ∧ s.Knows init p q ∧
          ¬ (s.pc p).Waking init := by
        have hk := h.knows p
        generalize s.pc p = l at hcode hk
        cases hcode with
        | kwaitSleepRelease => exact absurd rfl hq
        | kforkWaitRelease => exact ⟨id, id, hk, id⟩
        | kexitRelease | kwaitReturn => exact ⟨id, id, trivial, id⟩
      obtain ⟨h1, h2, h3, h4⟩ := hfacts
      exact finish (h.move hi hrun rfl rfl rfl rfl rfl rfl (fun h' => absurd h' hq)
        (fun h' => absurd h' h1) (.release hlk rfl h2) h3 fun hw => absurd hw h4)
  | reparent j k q =>
    have hs' := Outcome.next.inj hs
    have hk := h.knows p
    have hentry : ∀ i, (s'.proc i).state = (s.proc i).state ∧ (s'.proc i).pid = (s.proc i).pid ∧
        (s'.proc i).xstate = (s.proc i).xstate := by
      intro i
      rw [← hs']
      by_cases hij : i = j <;> simp [goto, modify, hij]
    have hbooks : (∀ i, (s.proc i).state = .zombie → (s'.proc i).parent = (s.proc i).parent ∨
        (s'.proc i).parent = some init) → s'.Books init :=
      hb.relink (by rw [← hs']; rfl) (by rw [← hs']; rfl) (by rw [← hs']; rfl) hentry
    generalize hl : s.pc p = l at hcode hk
    cases hcode with
    | reparent hj =>
      refine ⟨h.reparent hi hrun htable hl hj hs', hbooks fun i _ => ?_⟩
      rw [← hs']
      by_cases hij : i = j <;> simp [goto, modify, hij]
    | kforkParent =>
      refine ⟨h.setParent hi hrun hl hs', hbooks fun i hz => .inl ?_⟩
      have hij : i ≠ j := by
        rintro rfl
        rw [hi.fork.used p i (by rw [hl]; rfl)] at hz
        cases hz
      rw [← hs']
      simp [goto, modify, hij]
  | give ch st q => exact finish (h.give hi hrun hcode (Outcome.next.inj hs))
  | zombie status q =>
    cases hs
    generalize hl : s.pc p = l at hcode
    cases hcode
    refine ⟨h.zombie hi hrun hl rfl rfl rfl ?_ ?_ fun i hip => update_of_ne hip _ _,
      hb.exit (hi.not_zombie_of_run hrun (by rw [hl]; rfl)) ?_
        (fun i hip => update_of_ne hip _ _) ?_ rfl rfl rfl⟩ <;>
    simp [goto, modify, exitOf]
  | sched g =>
    simp only [ProcSys.perform] at hs
    split_ifs at hs
    cases hs
    generalize hl : s.pc p = l at hcode
    cases hcode
    refine finish (h.move hi hrun rfl rfl rfl rfl rfl rfl (by simp) ?_ (.same rfl ?_) trivial ?_)
      <;> rw [hl]
    · intro hq
      cases g <;> first | exact .inl trivial | exact hq.elim
    · exact Iff.rfl
    · exact id
  | swtch g =>
    generalize hl : s.pc p = l at hcode
    cases hcode
    exact finish (h.swtch hi hrun hl (Outcome.next.inj hs))
  | alloc j q =>
    cases hs
    generalize hl : s.pc p = l at hcode
    cases hcode with
    | kforkAlloc hj =>
      refine finish (h.alloc hi hrun hl hj rfl rfl rfl ?_ ?_
        (fun i hij => update_of_ne hij _ _) rfl rfl rfl) <;>
      simp [setContext, goto, modify]
  | disabled => cases hs
  | panic e => cases hs

/-! ## Steps of the scheduler loop, and runs -/

/-- A step of the scheduler loop of CPU `c`, which may make a runnable process running. -/
lemma WaitInv.schedule [DecidableEq κ] {k : Cpu ι} (h : s.WaitInv init)
    (hcpu : s'.cpu = update s.cpu c k) (hw : s'.waitLock = s.waitLock)
    (hpc : s'.pc = s.pc) (he : s'.exits = s.exits) (hr : s'.reaps = s.reaps)
    (hx : s'.exited = s.exited) (hl : ∀ i rest, s.cpu c ≠ .run i rest)
    (hk : ∀ i rest, k = .run i rest → (s.pc i).Parked) (hproc : ∀ i, s'.proc i = s.proc i ∨
      (s.proc i).state = .runnable ∧ s'.proc i = { s.proc i with state := .running }) :
    Calm s s' ∧ s'.WaitInv init := by
  have hsleep : ∀ i, s'.SleepsInKwait i →
      s.SleepsInKwait i ∧ (s'.proc i).chan = (s.proc i).chan := by
    rintro i ⟨h1, h2⟩
    rw [hpc] at h2
    rcases hproc i with h' | ⟨-, h'⟩
    · rw [h'] at h1 ⊢
      exact ⟨⟨h1, h2⟩, rfl⟩
    · rw [h'] at h1
      cases h1
  have hcalm : Calm s s' := by
    refine ⟨fun i => ?_, fun i => ?_, fun i hz => ?_, fun i ha => ?_, fun i hd => ?_, he, hr, hx⟩
    · rcases hproc i with h' | ⟨-, h'⟩ <;> rw [h']
    · rcases hproc i with h' | ⟨hst, h'⟩
      · rw [h']
      · rw [h', hst]
        simp
    · rcases hproc i with h' | ⟨-, h'⟩ <;> rw [h'] <;> exact ⟨rfl, rfl⟩
    · rcases hproc i with h' | ⟨-, h'⟩ <;> rw [h']
      · exact ha
      · exact .inr (.inr rfl)
    · rcases hd with hd | hd
      · rw [hpc] at hd
        exact .inl hd
      · exact .inr (hsleep i hd).1
  refine ⟨hcalm, h.calm hcalm ?_ ?_ (fun i hi => .inl (hsleep i hi)) ?_
    (fun i _ => .inl (by rw [hpc])) (by rw [hpc]; exact (h.knows init).calm hcalm)
    fun hwk => .inl (by rw [hpc]; exact hwk)⟩
  · refine h.lock.setCpu hcpu hw (fun i _ _ _ _ => by rw [hpc])
      (fun i rest hc => absurd hc (hl i rest)) fun i rest hki => ?_
    rw [hpc]
    exact (hk i rest hki).not_holdsWait
  · intro i hi
    rw [hpc]
    refine h.parked i fun c' rest hc' => ?_
    have hcc : c' ≠ c := by
      rintro rfl
      exact hl i rest hc'
    refine hi c' rest ?_
    rw [hcpu, update_of_ne hcc, hc']
  · intro i ha
    rcases hproc i with h' | ⟨hst, -⟩
    · rw [h'] at ha
      exact .inl ha
    · exact .inl (.inr (.inl hst))

lemma WaitInv.step [DecidableEq κ] {a : κ × ProcInput} (htable : ∀ i, i ∈ table)
    (h : s.WaitInv init) (hb : s.Books init) (hi : s.CpuInv)
    (hs : s.step init table a = .next s') : s'.WaitInv init ∧ s'.Books init := by
  obtain ⟨c, x⟩ := a
  have finish : Calm s s' ∧ s'.WaitInv init → s'.WaitInv init ∧ s'.Books init :=
    fun hc => ⟨hc.2, hb.calm hc.1⟩
  simp only [ProcSys.step] at hs
  cases hk : s.cpu c with
  | run p todo =>
    simp only [hk] at hs
    exact h.perform htable hb hi hk (code_spec _) hs
  | scan todo =>
    cases todo with
    | nil =>
      simp only [hk] at hs
      cases hs
      exact finish (h.schedule rfl rfl rfl rfl rfl rfl (by simp [hk]) (by simp)
        fun _ => .inl rfl)
    | cons p todo =>
      simp only [hk] at hs
      obtain ⟨-, rfl⟩ := acquire_eq hs
      exact finish (h.schedule rfl rfl rfl rfl rfl rfl (by simp [hk]) (by simp)
        fun _ => .inl rfl)
  | test p todo =>
    simp only [hk] at hs
    split_ifs at hs with hst
    · cases hs
      refine finish (h.schedule rfl rfl rfl rfl rfl rfl (by simp [hk]) (by simp) fun i => ?_)
      by_cases hip : i = p
      · subst hip
        exact .inr ⟨hst, update_self ..⟩
      · exact .inl (update_of_ne hip _ _)
    · cases hs
      exact finish (h.schedule rfl rfl rfl rfl rfl rfl (by simp [hk]) (by simp)
        fun _ => .inl rfl)
  | setProc p todo | back p todo =>
    simp only [hk] at hs
    cases hs
    exact finish (h.schedule rfl rfl rfl rfl rfl rfl (by simp [hk]) (by simp)
      fun _ => .inl rfl)
  | swtch p todo =>
    simp only [hk] at hs
    split_ifs at hs
    cases hs
    refine finish (h.schedule rfl rfl rfl rfl rfl rfl (by simp [hk]) ?_ fun _ => .inl rfl)
    rintro i rest ⟨⟩
    have hok := hi.cpu c
    rw [hk] at hok
    exact hok.2.2.parked
  | release p todo =>
    simp only [hk] at hs
    obtain ⟨-, rfl⟩ := release_eq hs
    exact finish (h.schedule (c := c) rfl rfl rfl rfl rfl rfl (by simp [hk]) (by simp)
      fun _ => .inl rfl)

end perform

variable [DecidableEq ι] {table : List ι}

lemma boot_waitInv : (boot init : ProcSys ι κ).WaitInv init where
  lock c := by simp [boot]
  parked p _ := trivial
  root := by simp [boot, ProcState.Alive]
  tree i hi hlive := by simp [boot, hi, ProcState.Alive] at hlive
  chan q hq := hq.2.elim
  woken q i hd := by
    rcases hd with hd | hd
    · cases hd
    · exact hd.2.elim
  knows p := trivial

lemma boot_books : (boot init : ProcSys ι κ).Books init := by
  have hz : ∀ i, ((boot init : ProcSys ι κ).proc i).state ≠ .zombie := by
    intro i
    simp only [boot]
    split_ifs <;> simp
  exact ⟨fun e => by rw [if_neg fun h => hz _ h.1]; rfl, fun i hi => absurd hi (hz
    i), fun r hr => by cases hr⟩

/-- **fork, exit and wait.**  After any run:

* when `wait_lock` is free, the parent of every process but `init` that has not been freed is
  alive;
* every exit is accounted for: the waits that have returned it, plus one if it is the zombie that is
  still in its slot, are as many as the exits with that record;
* each wait has returned the pid and the exit status of the exit it stands for, and was made by the
  parent of the exited process or by `init`;
* a `kwait` whose `copyout` fails leaves the whole table as it is;
* when `wait_lock` is free, no process that sleeps in `kwait` has a zombie child. -/
theorem fork_exit_wait [DecidableEq κ] (htable : ∀ i, i ∈ table) {as : List (κ × ProcInput)}
    (hrun : Run (step init table) (boot init) as s) :
    (s.waitLock = none → ∀ i, i ≠ init → (s.proc i).state.Alive ∨ (s.proc i).state = .zombie →
      ∃ q, (s.proc i).parent = some q ∧ (s.proc q).state.Alive) ∧
    (∀ e, s.exits.count e = (s.reaps.map Reaped.child).count e +
      if (s.proc e.slot).state = .zombie ∧ s.exited e.slot = e then 1 else 0) ∧
    (∀ r ∈ s.reaps, r.pid = r.child.pid ∧ r.status = r.child.status ∧
      (some r.waiter = r.child.parent ∨ r.waiter = init)) ∧
    (∀ c p todo pp rest s', s.cpu c = .run p todo → s.pc p = .kwaitHeld pp rest →
      (s.proc pp).state = .zombie → s.step init table (c, .fail) = .next s' →
      s'.proc = s.proc ∧ s'.reaps = s.reaps) ∧
    (s.waitLock = none → ∀ q i, s.SleepsInKwait q → (s.proc i).parent = some q →
      (s.proc i).state ≠ .zombie) := by
  obtain ⟨-, hw, hb⟩ := hrun.invariant (I := fun s => s.CpuInv ∧ s.WaitInv init ∧ s.Books init)
    (fun s a s' h hs => ⟨h.1.step hs, h.2.1.step htable h.2.2 h.1 hs⟩)
    ⟨boot_cpuInv init, boot_waitInv, boot_books⟩
  refine ⟨fun _ => hw.tree, hb.account, hb.reap, ?_, fun hfree q i hq hi hz => ?_⟩
  · intro c p todo pp rest s' hc hl hz hs
    simp only [ProcSys.step, hc, hl, code, hz, if_true, perform] at hs
    obtain ⟨-, rfl⟩ := release_eq hs
    refine ⟨?_, rfl⟩
    simp [goto, setPlock, modify]
  · obtain ⟨-, p, hp⟩ := hw.woken q i (.inr hq) hi hz
    obtain ⟨c, todo, -, hlk⟩ := hw.locked_of_holdsWait hp.holdsWait
    rw [hfree] at hlk
    cases hlk

/-- On one CPU: `init` forks a child and sleeps in `kwait`, the child exits with status 7, and
`init` wakes up and frees it. -/
def sampleWait : List (Unit × ProcInput) :=
  replicate 6 ((), .ok) ++ ((), .kfork) :: replicate 10 ((), .ok) ++
    ((), .kwait) :: replicate 19 ((), .ok) ++ ((), .kexit 7) :: replicate 26 ((), .ok)

theorem fork_exit_wait_sample :
    ∃ s : ProcSys (Fin 2) Unit, Run (step 0 [0, 1]) (boot 0) sampleWait s ∧ s.waitLock = none ∧
      s.exits.count ⟨1, 2, 7, some 0⟩ = 1 ∧
      s.reaps.map (fun r => (r.waiter, r.pid, r.status)) = [(0, 2, 7)] ∧
      ∀ r ∈ s.reaps, some r.waiter = r.child.parent ∨ r.waiter = 0 := by
  have hrun : Run (step 0 [0, 1]) (boot 0 : ProcSys (Fin 2) Unit) sampleWait _ := Run.of_exec rfl
  obtain ⟨-, haccount, hreap, -⟩ := fork_exit_wait (by decide) hrun
  exact ⟨_, hrun, rfl, haccount ⟨1, 2, 7, some 0⟩, rfl, fun r hr => (hreap r hr).2.2⟩

end ProcSys

end Xv6
