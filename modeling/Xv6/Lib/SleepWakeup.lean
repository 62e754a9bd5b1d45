import Xv6.Lib.Monitor

/-!
# Sleep and wakeup under a lock per thread

The implementation of a monitor that a Unix kernel has. Every thread has a lock of its own, which
protects its run state and the channel it sleeps on.

* `sleep` takes the thread's lock, and only then gives up the monitor's lock; it marks the thread
  sleeping and switches to the scheduler, which releases the thread's lock.
* `wakeup` scans the thread table, takes the lock of each other thread in turn, and makes those that
  sleep on its channel runnable.
* Killing a thread makes it runnable, too, if it sleeps.
* The scheduler takes a runnable thread's lock and lets it run; the thread clears its channel,
  releases its lock and takes the monitor's lock again.

Each of these is a step of its own, so `wakeup` may be anywhere in the table when another thread
goes to sleep. `SW.proj` maps a state to the state of the monitor; `SW.refines` is the refinement.

**No lost wakeup** (`WakeSpec.no_lost_wakeup`): a `WakeSpec` names, for each channel, when its
sleepers must not sleep (`ready`), and for each control point at which the lock is held, the
channels nobody sleeps on (`quiet`); if the code never gives up the lock while a channel is ready
and not quiet, no thread sleeps on a ready channel while the lock is free.
-/

/-- The state of a process. -/
inductive RunState where
  | running
  | sleeping
  | runnable
  deriving DecidableEq

/-- Where a thread is: at a control point of its code, or inside `sleep` or `wakeup`. The latter
remember the instruction they execute and where the thread goes on. -/
inductive Pc (ι C L X : Type) where
  | here (l : L)
  | sleepRelease (l : L) (x : X) (ch : C) (l' : L)
  | sleepMark (ch : C) (l' : L)
  | sleepSwitch (l' : L)
  | asleep (l' : L)
  | tidy (l' : L)
  | reacquire (l' : L)
  | scan (l : L) (x : X) (ch : C) (todo : List ι) (l' : L)
  | scanHeld (l : L) (x : X) (ch : C) (j : ι) (todo : List ι) (l' : L)

/-- Processes that sleep and wake each other under one lock. -/
structure SW (ι C L D X : Type) where
  lk : Option ι
  plock : ι → Option ι
  state : ι → RunState
  chan : ι → Option C
  killed : ι → Bool
  pc : ι → Pc ι C L X
  data : D

/-- A step of a process, of the scheduler or of the environment. -/
inductive SWAct (ι X Y : Type) where
  | run (i : ι) (x : X)
  | dispatch (i : ι)
  | kill (i : ι)
  | env (y : Y)

namespace SW

open Option Function

variable {ε ι C L D X Y : Type} [DecidableEq ι] [DecidableEq C]

def setPc (s : SW ι C L D X) (i : ι) (c : Pc ι C L X) : SW ι C L D X :=
  { s with pc := update s.pc i c }

def setPlock (s : SW ι C L D X) (i : ι) (o : Option ι) : SW ι C L D X :=
  { s with plock := update s.plock i o }

def setState (s : SW ι C L D X) (i : ι) (r : RunState) : SW ι C L D X :=
  { s with state := update s.state i r }

def setChan (s : SW ι C L D X) (i : ι) (c : Option C) : SW ι C L D X :=
  { s with chan := update s.chan i c }

/-- Begin one instruction of thread `i`, which is at control point `l`. -/
def execute (table : List ι) (s : SW ι C L D X) (i : ι) (l : L) (x : X) :
    Instr ε C L D → Outcome ε (SW ι C L D X)
  | .acquire l' =>
    if s.lk = none then .next { s.setPc i (.here l') with lk := some i } else .disabled
  | .release l' =>
    if s.lk = some i then .next { s.setPc i (.here l') with lk := none } else .disabled
  | .sleep ch l' =>
    if s.plock i = none then
      .next ((s.setPlock i (some i)).setPc i (.sleepRelease l x ch l'))
    else .disabled
  | .wakeup ch l' => .next (s.setPc i (.scan l x ch table l'))
  | .killed yes no =>
    if s.plock i = none then .next (s.setPc i (.here (if s.killed i then yes else no)))
    else .disabled
  | .act f =>
    match f s.data with
    | .next (l', d') => .next { s.setPc i (.here l') with data := d' }
    | .disabled => .disabled
    | .panic e => .panic e

/-- One step of thread `i`, which has the processor. -/
def runStep (cl : Client ε ι C L D X Y) (table : List ι) (s : SW ι C L D X) (i : ι) (x : X) :
    Outcome ε (SW ι C L D X) :=
  match s.pc i with
  | .here l => s.execute table i l x (cl.code i l x)
  | .sleepRelease _ _ ch l' =>
    if s.lk = some i then .next { s.setPc i (.sleepMark ch l') with lk := none } else .disabled
  | .sleepMark ch l' =>
    .next (((s.setChan i (some ch)).setState i .sleeping).setPc i (.sleepSwitch l'))
  -- the scheduler, on this thread's stack of control, releases its lock
  | .sleepSwitch l' => .next ((s.setPlock i none).setPc i (.asleep l'))
  | .asleep _ => .disabled
  | .tidy l' => .next (((s.setChan i none).setPlock i none).setPc i (.reacquire l'))
  | .reacquire l' =>
    if s.lk = none then .next { s.setPc i (.here l') with lk := some i } else .disabled
  | .scan _ _ _ [] l' => .next (s.setPc i (.here l'))
  | .scan l x ch (j :: todo) l' =>
    if j = i then .next (s.setPc i (.scan l x ch todo l'))
    else if s.plock j = none then
      .next ((s.setPlock j (some i)).setPc i (.scanHeld l x ch j todo l'))
    else .disabled
  | .scanHeld l x ch j todo l' =>
    .next (((s.setState j
      (if s.state j = .sleeping ∧ s.chan j = some ch then .runnable else s.state j)).setPlock j
        none).setPc i (.scan l x ch todo l'))

def step (cl : Client ε ι C L D X Y) (table : List ι) (s : SW ι C L D X) :
    SWAct ι X Y → Outcome ε (SW ι C L D X)
  | .run i x => runStep cl table s i x
  | .dispatch i =>
    match s.pc i with
    | .asleep l' =>
      if s.state i = .runnable ∧ s.plock i = none then
        .next (((s.setPlock i (some i)).setState i .running).setPc i (.tidy l'))
      else .disabled
    | _ => .disabled
  | .kill i =>
    if s.plock i = none then
      .next { s.setState i (if s.state i = .sleeping then .runnable else s.state i) with
        killed := update s.killed i true }
    else .disabled
  | .env y =>
    match cl.env y s.data with
    | .next d' => .next { s with data := d' }
    | .disabled => .disabled
    | .panic e => .panic e

/-- What `step` can do, one constructor for each step of the code. -/
inductive Moves (cl : Client ε ι C L D X Y) (table : List ι) (s : SW ι C L D X) :
    SWAct ι X Y → SW ι C L D X → Prop where
  | acquire {i : ι} {l l' : L} {x : X} (hpc : s.pc i = .here l) (hc : cl.code i l x = .acquire l')
      (hlk : s.lk = none) : Moves cl table s (.run i x) { s.setPc i (.here l') with lk := some i }
  | release {i : ι} {l l' : L} {x : X} (hpc : s.pc i = .here l) (hc : cl.code i l x = .release l')
      (hlk : s.lk = some i) : Moves cl table s (.run i x) { s.setPc i (.here l') with lk := none }
  | sleepLock {i : ι} {l l' : L} {x : X} {ch : C} (hpc : s.pc i = .here l)
      (hc : cl.code i l x = .sleep ch l') (hfree : s.plock i = none) :
      Moves cl table s (.run i x) ((s.setPlock i (some i)).setPc i (.sleepRelease l x ch l'))
  | wakeup {i : ι} {l l' : L} {x : X} {ch : C} (hpc : s.pc i = .here l)
      (hc : cl.code i l x = .wakeup ch l') :
      Moves cl table s (.run i x) (s.setPc i (.scan l x ch table l'))
  | killed {i : ι} {l yes no : L} {x : X} (hpc : s.pc i = .here l)
      (hc : cl.code i l x = .killed yes no) :
      Moves cl table s (.run i x) (s.setPc i (.here (if s.killed i then yes else no)))
  | act {i : ι} {l l' : L} {x : X} {f : D → Outcome ε (L × D)} {d' : D} (hpc : s.pc i = .here l)
      (hc : cl.code i l x = .act f) (hf : f s.data = .next (l', d')) :
      Moves cl table s (.run i x) { s.setPc i (.here l') with data := d' }
  | sleepRelease {i : ι} {l l' : L} {x x' : X} {ch : C} (hpc : s.pc i = .sleepRelease l x' ch l')
      (hlk : s.lk = some i) :
      Moves cl table s (.run i x) { s.setPc i (.sleepMark ch l') with lk := none }
  | sleepMark {i : ι} {l' : L} {x : X} {ch : C} (hpc : s.pc i = .sleepMark ch l') :
      Moves cl table s (.run i x)
        (((s.setChan i (some ch)).setState i .sleeping).setPc i (.sleepSwitch l'))
  | sleepSwitch {i : ι} {l' : L} {x : X} (hpc : s.pc i = .sleepSwitch l') :
      Moves cl table s (.run i x) ((s.setPlock i none).setPc i (.asleep l'))
  | tidy {i : ι} {l' : L} {x : X} (hpc : s.pc i = .tidy l') :
      Moves cl table s (.run i x) (((s.setChan i none).setPlock i none).setPc i (.reacquire l'))
  | reacquire {i : ι} {l' : L} {x : X} (hpc : s.pc i = .reacquire l') (hlk : s.lk = none) :
      Moves cl table s (.run i x) { s.setPc i (.here l') with lk := some i }
  | scanDone {i : ι} {l l' : L} {x x' : X} {ch : C} (hpc : s.pc i = .scan l x' ch [] l') :
      Moves cl table s (.run i x) (s.setPc i (.here l'))
  | scanSelf {i : ι} {l l' : L} {x x' : X} {ch : C} {todo : List ι}
      (hpc : s.pc i = .scan l x' ch (i :: todo) l') :
      Moves cl table s (.run i x) (s.setPc i (.scan l x' ch todo l'))
  | scanLock {i j : ι} {l l' : L} {x x' : X} {ch : C} {todo : List ι}
      (hpc : s.pc i = .scan l x' ch (j :: todo) l') (hne : j ≠ i) (hfree : s.plock j = none) :
      Moves cl table s (.run i x) ((s.setPlock j (some i)).setPc i (.scanHeld l x' ch j todo l'))
  | scanWake {i j : ι} {l l' : L} {x x' : X} {ch : C} {todo : List ι}
      (hpc : s.pc i = .scanHeld l x' ch j todo l') :
      Moves cl table s (.run i x) (((s.setState j
        (if s.state j = .sleeping ∧ s.chan j = some ch then .runnable else s.state j)).setPlock j
          none).setPc i (.scan l x' ch todo l'))
  | dispatch {i : ι} {l' : L} (hpc : s.pc i = .asleep l') (hrun : s.state i = .runnable)
      (hfree : s.plock i = none) : Moves cl table s (.dispatch i)
        (((s.setPlock i (some i)).setState i .running).setPc i (.tidy l'))
  | kill {i : ι} (hfree : s.plock i = none) : Moves cl table s (.kill i)
      { s.setState i (if s.state i = .sleeping then .runnable else s.state i) with
        killed := update s.killed i true }
  | env {y : Y} {d' : D} (hf : cl.env y s.data = .next d') :
      Moves cl table s (.env y) { s with data := d' }

variable {cl : Client ε ι C L D X Y} {table : List ι}

variable {i : ι} {s s' : SW ι C L D X} {a : SWAct ι X Y} {c : Pc ι C L X}

lemma execute_moves {l : L} {x : X} (hpc : s.pc i = .here l)
    (hs : s.execute table i l x (cl.code i l x) = .next s') : Moves cl table s (.run i x) s' := by
  rcases hc : cl.code i l x with l' | l' | ⟨ch, l'⟩ | ⟨ch, l'⟩ | ⟨yes, no⟩ | f <;> rw [hc] at hs <;>
    simp only [execute] at hs
  case acquire =>
    split_ifs at hs with hlk
    injection hs with hs
    exact hs ▸ .acquire hpc hc hlk
  case release =>
    split_ifs at hs with hlk
    injection hs with hs
    exact hs ▸ .release hpc hc hlk
  case sleep =>
    split_ifs at hs with hfree
    injection hs with hs
    exact hs ▸ .sleepLock hpc hc hfree
  case wakeup =>
    injection hs with hs
    exact hs ▸ .wakeup hpc hc
  case killed =>
    split_ifs at hs with hfree
    all_goals
      cases hs
      have hm : Moves cl table s (.run i x) _ := .killed hpc hc
      simpa [*] using hm
  case act =>
    split at hs
    · next l' d' hf =>
      injection hs with hs
      exact hs ▸ .act hpc hc hf
    · cases hs
    · cases hs

lemma runStep_moves {x : X}
    (hs : runStep cl table s i x = .next s') : Moves cl table s (.run i x) s' := by
  rw [runStep] at hs
  split at hs
  · next l hpc => exact execute_moves hpc hs
  · next hpc =>
    split_ifs at hs with hlk
    injection hs with hs
    exact hs ▸ .sleepRelease hpc hlk
  · next hpc =>
    injection hs with hs
    exact hs ▸ .sleepMark hpc
  · next hpc =>
    injection hs with hs
    exact hs ▸ .sleepSwitch hpc
  · cases hs
  · next hpc =>
    injection hs with hs
    exact hs ▸ .tidy hpc
  · next hpc =>
    split_ifs at hs with hlk
    injection hs with hs
    exact hs ▸ .reacquire hpc hlk
  · next hpc =>
    injection hs with hs
    exact hs ▸ .scanDone hpc
  · next j todo l' hpc =>
    split_ifs at hs with hji hfree
    · injection hs with hs
      subst hji
      exact hs ▸ .scanSelf hpc
    · injection hs with hs
      exact hs ▸ .scanLock hpc hji hfree
  · next hpc =>
    injection hs with hs
    exact hs ▸ .scanWake hpc

lemma step_moves (hs : step cl table s a = .next s') : Moves cl table s a s' := by
  cases a with
  | run i x => exact runStep_moves hs
  | dispatch i =>
    simp only [step] at hs
    split at hs
    · next l' hpc =>
      split_ifs at hs with hc
      injection hs with hs
      exact hs ▸ .dispatch hpc hc.1 hc.2
    · cases hs
  | kill i =>
    simp only [step] at hs
    split_ifs at hs with hfree
    all_goals
      cases hs
      have hm : Moves cl table s (.kill i) _ := .kill hfree
      simpa [*] using hm
  | env y =>
    simp only [step] at hs
    split at hs
    · next d' hf =>
      injection hs with hs
      exact hs ▸ .env hf
    · cases hs
    · cases hs

/-! ## Refinement of the monitor -/

/-- Where a thread is for the monitor: an instruction counts as executed when its last step is
done, except that a `sleep` has happened once the monitor's lock is given up. -/
def locOf : Pc ι C L X → MLoc L
  | .here l => .here l
  | .sleepRelease l _ _ _ => .here l
  | .sleepMark _ l' => .waiting l'
  | .sleepSwitch l' => .waiting l'
  | .asleep l' => .waiting l'
  | .tidy l' => .waiting l'
  | .reacquire l' => .waiting l'
  | .scan l _ _ _ _ => .here l
  | .scanHeld l _ _ _ _ _ => .here l

def proj (s : SW ι C L D X) : Mon ι L D where
  lk := s.lk
  loc := fun i => locOf (s.pc i)
  killed := s.killed
  data := s.data

/-- The action of the monitor that an action performs, if it performs one. -/
def act? (cl : Client ε ι C L D X Y) (s : SW ι C L D X) : SWAct ι X Y → Option (MAct ι X Y)
  | .run i x =>
    match s.pc i with
    | .here l =>
      match cl.code i l x with
      | .sleep _ _ => none
      | .wakeup _ _ => none
      | _ => some (.run i x)
    | .sleepRelease _ x' _ _ => some (.run i x')
    | .scan _ x' _ [] _ => some (.run i x')
    | .reacquire _ => some (.resume i)
    | _ => none
  | .dispatch _ => none
  | .kill i => some (.kill i)
  | .env y => some (.env y)

/-- What a thread inside `sleep` or `wakeup` knows: the instruction it executes and the locks it
holds. -/
def PcInv (cl : Client ε ι C L D X Y) (s : SW ι C L D X) (i : ι) : Pc ι C L X → Prop
  | .here _ => s.state i ≠ .sleeping
  | .sleepRelease l x ch l' =>
    cl.code i l x = .sleep ch l' ∧ s.plock i = some i ∧ s.state i ≠ .sleeping
  | .sleepMark _ _ => s.plock i = some i ∧ s.state i ≠ .sleeping
  | .sleepSwitch _ => s.plock i = some i
  | .asleep _ => True
  | .tidy _ => s.plock i = some i ∧ s.state i ≠ .sleeping
  | .reacquire _ => s.state i ≠ .sleeping
  | .scan l x ch _ l' => cl.code i l x = .wakeup ch l' ∧ s.state i ≠ .sleeping
  | .scanHeld l x ch j _ l' =>
    cl.code i l x = .wakeup ch l' ∧ s.plock j = some i ∧ j ≠ i ∧ s.state i ≠ .sleeping

def Inv (cl : Client ε ι C L D X Y) (s : SW ι C L D X) : Prop := ∀ i, PcInv cl s i (s.pc i)

/-- A thread whose lock and run state stay as they are keeps what it knows, as long as nobody takes
away a lock it holds. -/
lemma PcInv.keep (h : PcInv cl s i c) (hlock : ∀ j, s.plock j = some i → s'.plock j = some i)
    (hstate : s'.state i = .sleeping → s.state i = .sleeping) : PcInv cl s' i c := by
  cases c with
  | here l | reacquire l' => exact fun hs => h (hstate hs)
  | sleepRelease l x ch l' => exact ⟨h.1, hlock _ h.2.1, fun hs => h.2.2 (hstate hs)⟩
  | sleepMark ch l' | tidy l' => exact ⟨hlock _ h.1, fun hs => h.2 (hstate hs)⟩
  | sleepSwitch l' => exact hlock _ h
  | asleep l' => trivial
  | scan l x ch todo l' => exact ⟨h.1, fun hs => h.2 (hstate hs)⟩
  | scanHeld l x ch j todo l' =>
    exact ⟨h.1, hlock _ h.2.1, h.2.2.1, fun hs => h.2.2.2 (hstate hs)⟩

lemma Inv.of_pc (h : Inv cl s) (hpc : s.pc i = c) : PcInv cl s i c := hpc ▸ h i

/-- The step of one thread: show what it knows afterwards, and that the others lose nothing. -/
lemma Inv.move (h : Inv cl s) (hpc : s'.pc = update s.pc i c) (hi : PcInv cl s' i c)
    (hlock : ∀ k, k ≠ i → ∀ j, s.plock j = some k → s'.plock j = some k)
    (hstate : ∀ k, k ≠ i → s'.state k = .sleeping → s.state k = .sleeping) : Inv cl s' := by
  intro k
  by_cases hk : k = i
  · subst hk
    rw [hpc, update_self]
    exact hi
  · rw [hpc, update_of_ne hk]
    exact (h k).keep (hlock k hk) (hstate k hk)

lemma Inv.step (h : Inv cl s) (hs : Moves cl table s a s') : Inv cl s' := by
  cases hs with
  | acquire hpc hc hlk | release hpc hc hlk | killed hpc hc | act hpc hc hf | reacquire hpc hlk
  | scanSelf hpc =>
    have hi := h.of_pc hpc
    exact h.move rfl hi (fun _ _ _ hj => hj) (fun _ _ hk => hk)
  | @sleepLock i l l' x ch hpc hc hfree =>
    have hi := h.of_pc hpc
    refine h.move rfl ⟨hc, by simp [setPlock, setPc], hi⟩ (fun k hk j hj => ?_) (fun _ _ hk => hk)
    have hji : j ≠ i := by rintro rfl; rw [hfree] at hj; cases hj
    simpa [setPlock, setPc, hji] using hj
  | wakeup hpc hc =>
    have hi := h.of_pc hpc
    exact h.move rfl ⟨hc, hi⟩ (fun _ _ _ hj => hj) (fun _ _ hk => hk)
  | sleepRelease hpc hlk | scanDone hpc =>
    have hi := h.of_pc hpc
    exact h.move rfl hi.2 (fun _ _ _ hj => hj) (fun _ _ hk => hk)
  | @sleepMark i l' x ch hpc =>
    have hi := h.of_pc hpc
    refine h.move rfl hi.1 (fun _ _ _ hj => hj) (fun k hk hsl => ?_)
    simpa [setState, setPc, setChan, hk] using hsl
  | @sleepSwitch i l' x hpc =>
    have hi := h.of_pc hpc
    refine h.move rfl trivial (fun k hk j hj => ?_) (fun _ _ hk => hk)
    have hji : j ≠ i := by rintro rfl; rw [hi] at hj; exact hk (some.inj hj).symm
    simpa [setPlock, setPc, hji] using hj
  | @tidy i l' x hpc =>
    have hi := h.of_pc hpc
    refine h.move rfl hi.2 (fun k hk j hj => ?_) (fun _ _ hk => hk)
    have hji : j ≠ i := by rintro rfl; rw [hi.1] at hj; exact hk (some.inj hj).symm
    simpa [setPlock, setPc, setChan, hji] using hj
  | @scanLock i j l l' x x' ch todo hpc hne hfree =>
    have hi := h.of_pc hpc
    refine h.move rfl ⟨hi.1, by simp [setPlock, setPc], hne, hi.2⟩ (fun k hk j' hj' => ?_)
      (fun _ _ hk => hk)
    have hjj : j' ≠ j := by rintro rfl; rw [hfree] at hj'; cases hj'
    simpa [setPlock, setPc, hjj] using hj'
  | @scanWake i j l l' x x' ch todo hpc =>
    have hi := h.of_pc hpc
    obtain ⟨hcode, hlock, hne, hstate⟩ := hi
    refine h.move rfl ⟨hcode, ?_⟩ (fun k hk j' hj' => ?_) (fun k hk hsl => ?_)
    · simpa [setState, setPlock, setPc, Ne.symm hne] using hstate
    · have hjj : j' ≠ j := by rintro rfl; rw [hlock] at hj'; exact hk (some.inj hj').symm
      simpa [setPlock, setPc, setState, hjj] using hj'
    · by_cases hkj : k = j
      · subst hkj
        simp only [setState, setPlock, setPc, update_self] at hsl
        split_ifs at hsl
        exact hsl
      · simpa [setState, setPlock, setPc, hkj] using hsl
  | @dispatch i l' hpc hrun hfree =>
    refine h.move rfl ⟨by simp [setPlock, setState, setPc], by simp [setPlock, setState, setPc]⟩
      (fun k hk j hj => ?_) (fun k hk hsl => ?_)
    · have hji : j ≠ i := by rintro rfl; rw [hfree] at hj; cases hj
      simpa [setPlock, setPc, setState, hji] using hj
    · simpa [setState, setPlock, setPc, hk] using hsl
  | @kill i hfree =>
    intro k
    refine (h k).keep (fun _ hj => hj) fun hsl => ?_
    by_cases hk : k = i
    · subst hk
      simp only [setState, update_self] at hsl
      split_ifs at hsl
      exact hsl
    · simpa [setState, hk] using hsl
  | env hf => exact fun k => (h k).keep (fun _ hj => hj) (fun hk => hk)

lemma proj_move (hpc : s'.pc = update s.pc i c) :
    s'.proj = ⟨s'.lk, update s.proj.loc i (locOf c), s'.killed, s'.data⟩ := by
  simp only [proj, hpc, Mon.mk.injEq, true_and, and_true]
  funext j
  by_cases hj : j = i
  · subst hj; simp
  · simp [hj]

lemma performs {b : MAct ι X Y} (hact : act? cl s a = some b) (hpc : s'.pc = update s.pc i c)
    (hb : Mon.step cl s.proj b = .next ⟨s'.lk, update s.proj.loc i (locOf c), s'.killed, s'.data⟩) :
    (act? cl s a = none → s'.proj = s.proj) ∧
      ∀ b, act? cl s a = some b → Mon.step cl s.proj b = .next s'.proj := by
  rw [hact, proj_move hpc, ← hb]
  refine ⟨fun h => ?_, fun b' h => by rw [some.inj h]⟩
  cases h

/-- A thread that moves inside one instruction does not move for the monitor. -/
lemma proj_same
    (hpc : s'.pc = update s.pc i c) (hloc : locOf c = locOf (s.pc i)) (hlk : s'.lk = s.lk)
    (hkilled : s'.killed = s.killed) (hdata : s'.data = s.data) : s'.proj = s.proj := by
  rw [proj_move hpc, hlk, hkilled, hdata, hloc]
  exact congrArg (fun f => { s.proj with loc := f }) (update_eq_self i s.proj.loc)

/-- **Every step refines the monitor**: it performs the action that `act?` names, or none. -/
lemma refines_step (h : Inv cl s)
    (hs : Moves cl table s a s') : (act? cl s a = none → s'.proj = s.proj) ∧
      ∀ b, act? cl s a = some b → Mon.step cl s.proj b = .next s'.proj := by
  have hloc : ∀ {i : ι} {c : Pc ι C L X}, s.pc i = c → s.proj.loc i = locOf c :=
    fun hpc => congrArg locOf hpc
  cases hs with
  | acquire hpc hc hlk | release hpc hc hlk =>
    refine performs (by simp only [act?, hpc, hc]; rfl) rfl ?_
    rw [Mon.step, hloc hpc]
    simp only [locOf, hc, Mon.execute]
    exact if_pos hlk
  | sleepLock hpc hc | wakeup hpc hc =>
    exact ⟨fun _ => proj_same rfl (by rw [hpc]; rfl) rfl rfl rfl, by simp [act?, hpc, hc]⟩
  | killed hpc hc =>
    refine performs (by simp only [act?, hpc, hc]; rfl) rfl ?_
    rw [Mon.step, hloc hpc]
    simp only [locOf, hc, Mon.execute]
    rfl
  | act hpc hc hf =>
    refine performs (by simp only [act?, hpc, hc]; rfl) rfl ?_
    rw [Mon.step, hloc hpc]
    simp only [locOf, hc, Mon.execute, proj, hf]
    rfl
  | sleepRelease hpc hlk =>
    refine performs (by simp only [act?, hpc]; rfl) rfl ?_
    rw [Mon.step, hloc hpc]
    simp only [locOf, (h.of_pc hpc).1, Mon.execute]
    exact if_pos hlk
  | sleepMark hpc | sleepSwitch hpc | tidy hpc | scanSelf hpc | scanLock hpc | scanWake hpc
  | dispatch hpc =>
    exact ⟨fun _ => proj_same rfl (by rw [hpc]; rfl) rfl rfl rfl, by simp [act?, hpc]⟩
  | reacquire hpc hlk =>
    refine performs (by simp only [act?, hpc]; rfl) rfl ?_
    rw [Mon.step, hloc hpc]
    exact if_pos hlk
  | scanDone hpc =>
    refine performs (by simp only [act?, hpc]; rfl) rfl ?_
    rw [Mon.step, hloc hpc]
    simp only [locOf, (h.of_pc hpc).1, Mon.execute]
    rfl
  | kill hfree =>
    refine ⟨by simp [act?], ?_⟩
    rintro _ ⟨⟩
    rfl
  | env hf =>
    refine ⟨by simp [act?], ?_⟩
    rintro _ ⟨⟩
    simp only [Mon.step, proj, hf]

/-- All threads run at `l`, and no lock is held. -/
def fresh (l : L) (d : D) : SW ι C L D X where
  lk := none
  plock := fun _ => none
  state := fun _ => .running
  chan := fun _ => none
  killed := fun _ => false
  pc := fun _ => .here l
  data := d

/-- No thread has begun to sleep, and no lock is held. -/
structure Initial (cl : Client ε ι C L D X Y) (s : SW ι C L D X) : Prop where
  lk : s.lk = none
  state : ∀ i, s.state i = .running
  pc : ∀ i, ∃ l, s.pc i = .here l ∧ ¬ cl.holds l

lemma Initial.inv (h : Initial cl s) : Inv cl s := by
  intro i
  obtain ⟨l, hl, -⟩ := h.pc i
  rw [hl]
  simp [PcInv, h.state i]

lemma Initial.lockInv (h : Initial cl s) : Mon.LockInv cl s.proj := by
  refine ⟨fun i => ?_, fun i l hl => ?_⟩ <;> obtain ⟨l0, hl0, hnot⟩ := h.pc i
  · simp [proj, h.lk, hl0, locOf, Mon.Holds, hnot]
  · simp [proj, hl0, locOf] at hl

lemma step_panic {e : ε} (hs : step cl table s a = .panic e) :
    (∃ i x l f, s.pc i = .here l ∧ cl.code i l x = .act f ∧ f s.data = .panic e) ∨
      ∃ y, cl.env y s.data = .panic e := by
  cases a with
  | run i x =>
    refine .inl ⟨i, x, ?_⟩
    simp only [step, runStep] at hs
    split at hs
    case h_1 l hpc =>
      refine ⟨l, ?_⟩
      cases hc : cl.code i l x with
      | act f =>
        rw [hc] at hs
        simp only [execute] at hs
        split at hs <;> cases hs
        exact ⟨f, hpc, rfl, by assumption⟩
      | _ =>
        rw [hc] at hs
        simp only [execute] at hs
        first | cases hs | (split_ifs at hs)
    all_goals first | cases hs | (split_ifs at hs)
  | dispatch i =>
    simp only [step] at hs
    split at hs
    · split_ifs at hs
    · cases hs
  | kill i =>
    simp only [step] at hs
    split_ifs at hs
  | env y =>
    simp only [step] at hs
    split at hs <;> cases hs
    exact .inr ⟨y, by assumption⟩

/-- The condition on the steps of the monitor that a condition on its actions amounts to. -/
def Allowed (cl : Client ε ι C L D X Y) (allow : Mon ι L D → MAct ι X Y → Prop)
    (s : SW ι C L D X) (a : SWAct ι X Y) : Prop := ∀ b, act? cl s a = some b → allow s.proj b

section Invariants

variable {I : Mon ι L D → Prop} {allow : Mon ι L D → MAct ι X Y → Prop}
  (hI : ∀ m a m', I m → Mon.LockInv cl m → allow m a → Mon.Moves cl m a m' → I m')

include hI

/-- What the steps of the monitor preserve is preserved by the steps of its implementation. -/
lemma mon_step {s s' : SW ι C L D X} {a : SWAct ι X Y}
    (h : Inv cl s ∧ Mon.LockInv cl s.proj ∧ I s.proj) (hok : Allowed cl allow s a)
    (hs : Moves cl table s a s') : Inv cl s' ∧ Mon.LockInv cl s'.proj ∧ I s'.proj := by
  obtain ⟨hinv, hlock, hIs⟩ := h
  obtain ⟨hnone, hsome⟩ := refines_step hinv hs
  refine ⟨hinv.step hs, ?_⟩
  cases hb : act? cl s a with
  | none =>
    rw [hnone hb]
    exact ⟨hlock, hIs⟩
  | some b =>
    have hm := Mon.step_moves (hsome b hb)
    exact ⟨hlock.step hm, hI _ b _ hIs hlock (hok b hb) hm⟩

/-- An invariant of the monitor holds in every state of its implementation. -/
lemma mon_invariant {s0 s : SW ι C L D X} {as : List (SWAct ι X Y)} (h0 : Initial cl s0)
    (hI0 : I s0.proj) (hrun : RunOf (step cl table) (Allowed cl allow) s0 as s) :
    Inv cl s ∧ Mon.LockInv cl s.proj ∧ I s.proj := by
  refine hrun.invariant (I := fun s => Inv cl s ∧ Mon.LockInv cl s.proj ∧ I s.proj) ?_
    ⟨h0.inv, h0.lockInv, hI0⟩
  exact fun s a s' h hok hst => mon_step hI h hok (step_moves hst)

end Invariants

/-! ## No lost wakeup -/

/-- Thread `j` sleeps on `c`, or has given up the monitor's lock in order to. -/
def Waiting (s : SW ι C L D X) (j : ι) (c : C) : Prop :=
  (∃ l', s.pc j = .sleepMark c l') ∨ (s.state j = .sleeping ∧ s.chan j = some c)

lemma Waiting.of_move {j : ι} {p : Pc ι C L X} {c : C}
    (h : Waiting s' j c) (hpc : s'.pc = update s.pc i p) (hp : ∀ l', p ≠ .sleepMark c l')
    (hsleep : s'.state j = .sleeping → s'.chan j = some c →
      s.state j = .sleeping ∧ s.chan j = some c) : Waiting s j c := by
  rcases h with ⟨l', hl'⟩ | ⟨h1, h2⟩
  · left
    rw [hpc] at hl'
    by_cases hj : j = i
    · subst hj
      rw [update_self] at hl'
      exact absurd hl' (hp l')
    · rw [update_of_ne hj] at hl'
      exact ⟨l', hl'⟩
  · exact .inr (hsleep h1 h2)

/-- A thread begins to wait only by giving up the monitor's lock in `sleep`. -/
lemma waiting_step (hs : Moves cl table s a s') {j : ι} {c : C} (hw : Waiting s' j c) :
    Waiting s j c ∨ s.lk = some j ∧ s'.lk = none ∧ ∃ l x l', s.pc j = .sleepRelease l x c l' := by
  cases hs with
  | acquire hpc hc hlk | release hpc hc hlk | sleepLock hpc hc hfree | wakeup hpc hc
  | killed hpc hc | act hpc hc hf | sleepSwitch hpc | reacquire hpc hlk | scanDone hpc
  | scanSelf hpc | scanLock hpc hne hfree =>
    exact .inl (hw.of_move rfl (by simp) fun h1 h2 => ⟨h1, h2⟩)
  | @sleepRelease i l l' x x' ch hpc hlk =>
    rcases hw with ⟨l'', hl''⟩ | hw
    · by_cases hj : j = i
      · subst hj
        simp only [setPc, update_self, Pc.sleepMark.injEq] at hl''
        obtain ⟨rfl, -⟩ := hl''
        exact .inr ⟨hlk, rfl, l, x', l', hpc⟩
      · simp only [setPc, update_of_ne hj] at hl''
        exact .inl (.inl ⟨l'', hl''⟩)
    · exact .inl (.inr hw)
  | @sleepMark i l' x ch hpc =>
    left
    by_cases hj : j = i
    · subst hj
      rcases hw with ⟨l'', hl''⟩ | ⟨-, hch⟩
      · simp [setPc] at hl''
      · simp only [setPc, setState, setChan, update_self, some.injEq] at hch
        subst hch
        exact .inl ⟨l', hpc⟩
    · refine hw.of_move rfl (by simp) fun h1 h2 => ?_
      simp only [setPc, setState, setChan, update_of_ne hj] at h1 h2
      exact ⟨h1, h2⟩
  | @tidy i l' x hpc =>
    refine .inl (hw.of_move rfl (by simp) fun h1 h2 => ⟨h1, ?_⟩)
    by_cases hj : j = i
    · subst hj
      simp [setPc, setPlock, setChan] at h2
    · simpa [setPc, setPlock, setChan, hj] using h2
  | @scanWake i k l l' x x' ch todo hpc =>
    refine .inl (hw.of_move rfl (by simp) fun h1 h2 => ⟨?_, h2⟩)
    by_cases hj : j = k
    · subst hj
      simp only [setPc, setPlock, setState, update_self] at h1
      split_ifs at h1
      exact h1
    · simpa [setPc, setPlock, setState, hj] using h1
  | @dispatch i l' hpc hrun hfree =>
    refine .inl (hw.of_move rfl (by simp) fun h1 h2 => ⟨?_, h2⟩)
    by_cases hj : j = i
    · subst hj
      simp [setPc, setPlock, setState] at h1
    · simpa [setPc, setPlock, setState, hj] using h1
  | @kill i hfree =>
    left
    rcases hw with hw | ⟨h1, h2⟩
    · exact .inl hw
    · refine .inr ⟨?_, h2⟩
      by_cases hj : j = i
      · subst hj
        simp only [setState, update_self] at h1
        split_ifs at h1
        exact h1
      · simpa [setState, hj] using h1
  | env hf => exact .inl hw

end SW

/-- Why no wakeup is lost: `ready c d` says that nobody may stay asleep on `c` while the data is
`d`, `quiet i l d c` that nobody waits on `c` while thread `i` holds the lock at `l`. `I` is what is
known of the reachable states of the monitor, and `allow` restricts the actions considered. -/
structure WakeSpec {ε ι C L D X Y : Type} [DecidableEq ι] (cl : Client ε ι C L D X Y)
    (I : Mon ι L D → Prop) (allow : Mon ι L D → MAct ι X Y → Prop) where
  ready : C → D → Prop
  quiet : ι → L → D → C → Prop
  acquire : ∀ {m i l x l' c}, I m → m.loc i = .here l → cl.code i l x = .acquire l' →
    quiet i l' m.data c → ready c m.data
  resume : ∀ {m i l c}, I m → m.loc i = .waiting l → quiet i l m.data c → ready c m.data
  release : ∀ {m i l x l' c}, I m → m.loc i = .here l → cl.code i l x = .release l' →
    ready c m.data → quiet i l m.data c
  sleep : ∀ {m i l x ch l' c}, I m → m.loc i = .here l → cl.code i l x = .sleep ch l' →
    ready c m.data → c ≠ ch ∧ quiet i l m.data c
  wakeup : ∀ {m i l x ch l' c}, I m → m.loc i = .here l → cl.code i l x = .wakeup ch l' →
    quiet i l' m.data c → quiet i l m.data c ∨ c = ch
  killed : ∀ {m i l x yes no c}, I m → allow m (.run i x) → m.loc i = .here l →
    cl.code i l x = .killed yes no → quiet i (if m.killed i then yes else no) m.data c →
    quiet i l m.data c
  act : ∀ {m i l x f l' d' c}, I m → m.loc i = .here l → cl.code i l x = .act f →
    f m.data = .next (l', d') → quiet i l' d' c → quiet i l m.data c
  env : ∀ {y d d' c}, cl.env y d = .next d' →
    (ready c d' → ready c d) ∧ ∀ i l, quiet i l d' c → quiet i l d c

namespace WakeSpec

open SW Function

variable {ε ι C L D X Y : Type} [DecidableEq ι] [DecidableEq C] {cl : Client ε ι C L D X Y}
  {table : List ι} {I : Mon ι L D → Prop} {allow : Mon ι L D → MAct ι X Y → Prop}

/-- Nobody waits on the channels that are quiet where thread `i` is. -/
def QuietAt (w : WakeSpec cl I allow) (s : SW ι C L D X) (i : ι) (l : L) : Prop :=
  ∀ c, w.quiet i l s.data c → ∀ j, ¬ Waiting s j c

/-- What holds while `i` has the monitor's lock: during a scan, the threads it has passed do not
wait on its channel. -/
def HolderInv (w : WakeSpec cl I allow) (s : SW ι C L D X) (i : ι) : Pc ι C L X → Prop
  | .here l => w.QuietAt s i l
  | .sleepRelease l _ _ _ => w.QuietAt s i l
  | .scan l _ ch todo _ => w.QuietAt s i l ∧ ∀ j, j ∉ todo → ¬ Waiting s j ch
  | .scanHeld l _ ch k todo _ => w.QuietAt s i l ∧ ∀ j, j ∉ k :: todo → ¬ Waiting s j ch
  | _ => True

/-- Nobody waits for what is there. -/
structure QuietInv (w : WakeSpec cl I allow) (s : SW ι C L D X) : Prop where
  free : s.lk = none → ∀ c, w.ready c s.data → ∀ j, ¬ Waiting s j c
  held : ∀ i, s.lk = some i → w.HolderInv s i (s.pc i)

variable {s s' : SW ι C L D X} {w : WakeSpec cl I allow}

lemma HolderInv.mono {i : ι} {p : Pc ι C L X}
    (h : w.HolderInv s i p) (hquiet : ∀ l c, w.quiet i l s'.data c → w.quiet i l s.data c)
    (hwait : ∀ j c, Waiting s' j c → Waiting s j c) : w.HolderInv s' i p := by
  have hq : ∀ {l}, w.QuietAt s i l → w.QuietAt s' i l :=
    fun hq c hc j hj => hq c (hquiet _ c hc) j (hwait j c hj)
  cases p with
  | here l => exact hq h
  | sleepRelease l x ch l' => exact hq h
  | scan l x ch todo l' | scanHeld l x ch k todo l' =>
    exact ⟨hq h.1, fun j hj hw => h.2 j hj (hwait j ch hw)⟩
  | _ => trivial

lemma QuietInv.move (h : w.QuietInv s) {i : ι}
    {p : Pc ι C L X} (hlk : s'.lk = s.lk) (hpc : s'.pc = update s.pc i p)
    (hdata : s'.data = s.data) (hwait : ∀ j c, Waiting s' j c → Waiting s j c)
    (hi : s.lk = some i → w.HolderInv s' i p) : w.QuietInv s' := by
  refine ⟨fun hfree c hc j hj => ?_, fun k hk => ?_⟩
  · rw [hdata] at hc
    exact h.free (hlk ▸ hfree) c hc j (hwait j c hj)
  · rw [hlk] at hk
    rw [hpc]
    by_cases hki : k = i
    · subst hki
      rw [update_self]
      exact hi hk
    · rw [update_of_ne hki]
      exact (h.held k hk).mono (by rw [hdata]; exact fun _ _ hq => hq) hwait

lemma QuietInv.stay (h : w.QuietInv s)
    (hlk : s'.lk = s.lk) (hpc : s'.pc = s.pc) (hready : ∀ c, w.ready c s'.data → w.ready c s.data)
    (hquiet : ∀ i l c, w.quiet i l s'.data c → w.quiet i l s.data c)
    (hwait : ∀ j c, Waiting s' j c → Waiting s j c) : w.QuietInv s' := by
  refine ⟨fun hfree c hc j hj => ?_, fun k hk => ?_⟩
  · exact h.free (hlk ▸ hfree) c (hready c hc) j (hwait j c hj)
  · rw [hpc]
    exact (h.held k (hlk ▸ hk)).mono (hquiet k) hwait

lemma QuietInv.step (htable : ∀ i, i ∈ table)
    {a : SWAct ι X Y} (h : w.QuietInv s) (hinv : Inv cl s) (hlock : Mon.LockInv cl s.proj)
    (hI : I s.proj) (hallow : Allowed cl allow s a) (hs : Moves cl table s a s') :
    w.QuietInv s' := by
  have hnew := fun j c => waiting_step (j := j) (c := c) hs
  -- while the lock stays where it is, nobody begins to wait
  have hwait : s'.lk = s.lk → ∀ j c, Waiting s' j c → Waiting s j c := by
    intro hlk j c hw
    refine (hnew j c hw).resolve_right ?_
    rintro ⟨h1, h2, -⟩
    rw [hlk, h1] at h2
    cases h2
  have hheld : ∀ {i : ι} {p : Pc ι C L X}, s.pc i = p → s.lk = some i → w.HolderInv s i p := by
    intro i p hpc hlk
    rw [← hpc]
    exact h.held i hlk
  have hloc : ∀ {i : ι} {p : Pc ι C L X}, s.pc i = p → s.proj.loc i = locOf p :=
    fun hpc => congrArg locOf hpc
  cases hs with
  | @acquire i l l' x hpc hc hlk =>
    refine ⟨by simp, fun k hk => ?_⟩
    obtain rfl : i = k := Option.some.inj hk
    simp only [setPc, update_self]
    intro c hq j hw
    have hw' := (hnew j c hw).resolve_right (by simp [hlk])
    exact h.free hlk c (w.acquire hI (hloc hpc) hc hq) j hw'
  | @release i l l' x hpc hc hlk =>
    refine ⟨fun _ c hready j hw => ?_, by simp⟩
    have hw' := (hnew j c hw).resolve_right (by
      rintro ⟨h1, -, l1, x1, l2, h2⟩
      rw [hlk] at h1
      cases h1
      rw [hpc] at h2
      cases h2)
    exact hheld hpc hlk c (w.release hI (hloc hpc) hc hready) j hw'
  | sleepLock hpc hc hfree | scanLock hpc hne hfree =>
    exact h.move rfl rfl rfl (hwait rfl) fun hlk =>
      (hheld hpc hlk).mono (fun _ _ hq => hq) (hwait rfl)
  | @wakeup i l l' x ch hpc hc =>
    refine h.move rfl rfl rfl (hwait rfl) fun hlk => ⟨?_, fun j hj => absurd (htable j) hj⟩
    exact (hheld hpc hlk).mono (fun _ _ hq => hq) (hwait rfl)
  | @killed i l yes no x hpc hc =>
    have hok : allow s.proj (.run i x) := hallow _ (by simp [act?, hpc, hc])
    refine h.move rfl rfl rfl (hwait rfl) fun hlk c hq j hw => ?_
    exact hheld hpc hlk c (w.killed hI hok (hloc hpc) hc hq) j (hwait rfl j c hw)
  | @act i l l' x f d' hpc hc hf =>
    by_cases hlk : s.lk = some i
    · refine ⟨by simp [setPc, hlk], fun k hk => ?_⟩
      obtain rfl : i = k := Option.some.inj (hlk.symm.trans hk)
      simp only [setPc, update_self]
      intro c hq j hw
      exact hheld hpc hlk c (w.act hI (hloc hpc) hc hf hq) j (hwait rfl j c hw)
    · -- without the lock the data stays as it is
      have hnot : ¬ cl.holds l := by
        intro hh
        refine hlk ((hlock.owner i).mpr ?_)
        rw [hloc hpc]
        exact hh
      have hdata : d' = s.data := by
        have hres := cl.respects i l x
        rw [hc] at hres
        exact (hres _ _ _ hf).2 hnot
      exact h.move rfl rfl hdata (hwait rfl) fun hk => absurd hk hlk
  | @sleepRelease i l l' x x' ch hpc hlk =>
    refine ⟨fun _ c hready j hw => ?_, by simp⟩
    obtain ⟨hne, hq⟩ := w.sleep hI (hloc hpc) (hinv.of_pc hpc).1 hready
    have hw' := (hnew j c hw).resolve_right (by
      rintro ⟨h1, -, l1, x1, l2, h2⟩
      rw [hlk] at h1
      cases h1
      rw [hpc] at h2
      injection h2 with _ _ hch
      exact hne hch.symm)
    exact hheld hpc hlk c hq j hw'
  | sleepMark hpc | sleepSwitch hpc | tidy hpc | dispatch hpc hrun hfree =>
    exact h.move rfl rfl rfl (hwait rfl) fun _ => trivial
  | @reacquire i l' x hpc hlk =>
    refine ⟨by simp, fun k hk => ?_⟩
    obtain rfl : i = k := Option.some.inj hk
    simp only [setPc, update_self]
    intro c hq j hw
    have hw' := (hnew j c hw).resolve_right (by simp [hlk])
    exact h.free hlk c (w.resume hI (hloc hpc) hq) j hw'
  | @scanDone i l l' x x' ch hpc =>
    refine h.move rfl rfl rfl (hwait rfl) fun hlk c hq j hw => ?_
    obtain ⟨hquiet, hscan⟩ := hheld hpc hlk
    have hw' := hwait rfl j c hw
    rcases w.wakeup hI (hloc hpc) (hinv.of_pc hpc).1 hq with hq' | rfl
    · exact hquiet c hq' j hw'
    · exact hscan j (by simp) hw'
  | @scanSelf i l l' x x' ch todo hpc =>
    refine h.move rfl rfl rfl (hwait rfl) fun hlk => ?_
    obtain ⟨hquiet, hscan⟩ := hheld hpc hlk
    refine ⟨fun c hq j hw => hquiet c hq j (hwait rfl j c hw), fun j hj hw => ?_⟩
    have hw' := hwait rfl j ch hw
    by_cases hji : j = i
    · -- the scanning thread itself is awake
      subst hji
      rcases hw' with ⟨l1, h1⟩ | ⟨h1, -⟩
      · rw [hpc] at h1
        cases h1
      · exact (hinv.of_pc hpc).2 h1
    · exact hscan j (by simp [hji, hj]) hw'
  | @scanWake i k l l' x x' ch todo hpc =>
    refine h.move rfl rfl rfl (hwait rfl) fun hlk => ?_
    obtain ⟨hquiet, hscan⟩ := hheld hpc hlk
    refine ⟨fun c hq j hw => hquiet c hq j (hwait rfl j c hw), fun j hj hw => ?_⟩
    by_cases hjk : j = k
    · -- the thread whose lock is held: it is not about to sleep, and not asleep on the channel now
      subst hjk
      obtain ⟨-, hplock, hne, -⟩ := hinv.of_pc hpc
      rcases hw with ⟨l1, h1⟩ | ⟨h1, h2⟩
      · have h1' : s.pc j = .sleepMark ch l1 := by
          simpa [setPc, setPlock, setState, hne] using h1
        have howns := (hinv.of_pc h1').1
        rw [hplock] at howns
        exact hne (Option.some.inj howns).symm
      · have h2' : s.chan j = some ch := h2
        simp only [setPc, setPlock, setState, update_self, h2', and_true] at h1
        split_ifs at h1 with hsl
        exact hsl h1
    · exact hscan j (by simp [hjk, hj]) (hwait rfl j ch hw)
  | kill hfree => exact h.stay rfl rfl (fun _ hr => hr) (fun _ _ _ hq => hq) (hwait rfl)
  | env hf =>
    exact h.stay rfl rfl (fun c => (w.env hf).1) (fun i l c => (w.env hf).2 i l) (hwait rfl)

lemma quietInv_of_initial (w : WakeSpec cl I allow) (h : Initial cl s) : w.QuietInv s := by
  refine ⟨fun _ c _ j hw => ?_, fun i hi => by simp [h.lk] at hi⟩
  rcases hw with ⟨l', hl'⟩ | ⟨hs, -⟩
  · obtain ⟨l, hl, -⟩ := h.pc j
    rw [hl] at hl'
    cases hl'
  · rw [h.state j] at hs
    cases hs

/-- **No lost wakeup.**  Whenever the monitor's lock is free, nobody sleeps on a channel that is
ready; more than that, nobody has given up the lock in order to. -/
theorem no_lost_wakeup (w : WakeSpec cl I allow) (htable : ∀ i, i ∈ table)
    (hI : ∀ m a m', I m → Mon.LockInv cl m → allow m a → Mon.Moves cl m a m' → I m')
    {s0 : SW ι C L D X} {as : List (SWAct ι X Y)} (h0 : Initial cl s0) (hI0 : I s0.proj)
    (hrun : RunOf (SW.step cl table) (Allowed cl allow) s0 as s) (hfree : s.lk = none) {c : C}
    (hready : w.ready c s.data) (j : ι) : ¬ Waiting s j c := by
  have hall : (Inv cl s ∧ Mon.LockInv cl s.proj ∧ I s.proj) ∧ w.QuietInv s := by
    refine hrun.invariant
      (I := fun s => (Inv cl s ∧ Mon.LockInv cl s.proj ∧ I s.proj) ∧ w.QuietInv s) ?_
      ⟨⟨h0.inv, h0.lockInv, hI0⟩, w.quietInv_of_initial h0⟩
    rintro s a s' ⟨hmon, hq⟩ hok hst
    have hm := SW.step_moves hst
    exact ⟨mon_step hI hmon hok hm, hq.step htable hmon.1 hmon.2.1 hmon.2.2 hok hm⟩
  exact hall.2.free hfree c hready j

end WakeSpec
