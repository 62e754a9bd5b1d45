import Xv6.Proc.Cpu

/-!
# `kill`

`kkill` compares `p->pid` with the pid it is given, and does not look at `p->state`. The pid of an
UNUSED slot is 0, so `kkill(0)` finds the first of them, sets its `killed` flag and returns 0; and
`allocproc` does not clear the flag, so that the next process in the slot is killed from the start.

**No other pid does harm.**  `SlotMove` says what a step can do to a slot: only `kkill` and a fault
of the process itself set the flag, and only `freeproc` and `allocproc` change the pid.

A fault that the kernel cannot deal with ends in `setkilled`, which is a step of its own here.
-/

namespace Xv6.ProcSys

variable {ι κ : Type} [DecidableEq ι] [DecidableEq κ]

/-- `kkill(pid)` with nothing in between: its result, and the table after it. -/
def kkill (table : List ι) (proc : ι → ProcEntry ι) (pid : ℤ) : ℤ × (ι → ProcEntry ι) :=
  match table.find? fun i => ((proc i).pid : ℤ) = pid with
  | some i => (0, Function.update proc i (proc i).kkill)
  | none => (-1, proc)

/-- `setkilled(p)` in `usertrap`, for the process that CPU `c` runs. -/
def setkilled (s : ProcSys ι κ) (c : κ) : Outcome ProcPanic (ProcSys ι κ) :=
  match s.cpu c with
  | .run p _ =>
    match s.pc p with
    | .user => acquire (s.plock p) c (s.modify p fun e => { e with killed := true })
    | _ => .disabled
  | _ => .disabled

/-- A step of CPU `c`, or a fault of the process it runs. -/
def killStep (init : ι) (table : List ι) (s : ProcSys ι κ) :
    κ × Option ProcInput → Outcome ProcPanic (ProcSys ι κ)
  | (c, some x) => s.step init table (c, x)
  | (c, none) => s.setkilled c

/-- `kkill(pid)` succeeds just when a process in use has the pid, and changes no other slot. -/
def KillsNamed (table : List ι) (proc : ι → ProcEntry ι) (pid : ℤ) : Prop :=
  ((kkill table proc pid).1 = 0 ↔ ∃ i ∈ table, (proc i).state ≠ .unused ∧
    ((proc i).pid : ℤ) = pid) ∧
    ∀ i, (kkill table proc pid).2 i ≠ proc i → (proc i).state ≠ .unused ∧ ((proc i).pid : ℤ) = pid

/-- The process on CPU `c` is about to compare a pid with 0 in `kkill(0)`. -/
def KillsZero (s : ProcSys ι κ) (c : κ) : Prop :=
  ∃ p todo j rest, s.cpu c = .run p todo ∧ s.pc p = .kkillHeld 0 j rest

/-- The step kills process `i` by its pid, or it is a fault of `i`. -/
def KillsOwn (s : ProcSys ι κ) (c : κ) (x : Option ProcInput) (i : ι) : Prop :=
  ∃ p todo, s.cpu c = .run p todo ∧ (s.proc i).state ≠ .unused ∧
    ((∃ rest, s.pc p = .kkillHeld (s.proc i).pid i rest) ∨ x = none ∧ p = i)

/-- What a step of CPU `c` can do to slot `i`, whose entry is `e` afterwards. -/
inductive SlotMove (s : ProcSys ι κ) (c : κ) (x : Option ProcInput) (i : ι) (e : ProcEntry ι) :
    Prop where
  | same (hu : e.state = .unused ↔ (s.proc i).state = .unused) (hpid : e.pid = (s.proc i).pid)
      (hk : e.killed = (s.proc i).killed)
  | alloc (hu : (s.proc i).state = .unused) (hu' : e.state ≠ .unused) (hpid : e.pid = s.nextpid)
      (hk : e.killed = (s.proc i).killed)
  | free (hu : e.state = .unused) (hpid : e.pid = 0) (hk : e.killed = false)
  | kill {p : ι} {todo rest : List ι} (hc : s.cpu c = .run p todo)
      (hp : s.pc p = .kkillHeld (s.proc i).pid i rest)
      (hu : e.state = .unused ↔ (s.proc i).state = .unused) (hpid : e.pid = (s.proc i).pid)
  | fault {todo : List ι} (hc : s.cpu c = .run i todo) (hx : x = none)
      (hu : (s.proc i).state ≠ .unused) (hst : e.state = (s.proc i).state)
      (hpid : e.pid = (s.proc i).pid)

variable {s s' : ProcSys ι κ} {c : κ} {x : Option ProcInput} {i j p : ι} {todo : List ι}
  {init : ι} {table : List ι} {y : ProcInput}

lemma SlotMove.refl (i : ι) : SlotMove s c x i (s.proc i) := .same Iff.rfl rfl rfl

lemma SlotMove.update {e : ProcEntry ι} (h : SlotMove s c x j e) (i : ι) :
    SlotMove s c x i (Function.update s.proc j e i) := by
  by_cases hij : i = j
  · subst hij
    rwa [Function.update_self]
  · rw [Function.update_of_ne hij]
    exact .refl i

lemma release_move {f : ProcEntry ι → ProcEntry ι} {q : ProcPc ι} (h : s.CpuInv)
    (hrun : s.cpu c = .run p todo) (hcode : Code init table s.proc p y (s.pc p) (.release j f q)) :
    SlotMove s c x j (f (s.proc j)) := by
  have hfork := h.fork.used p j
  generalize hl : s.pc p = l at hcode hfork
  cases hcode with
  | wakeup =>
    rw [ProcEntry.wakeup]
    split_ifs with he
    · exact .same (by simp [he.1]) rfl rfl
    · exact .refl j
  | kkill hj =>
    subst hj
    refine .kill hrun hl ?_ rfl
    simp only [ProcEntry.kkill]
    split_ifs with he <;> simp [he]
  | kforkFail => exact .free rfl rfl rfl
  | kforkRun => exact .same (by simp [hfork rfl]) rfl rfl
  | _ => exact .same Iff.rfl rfl rfl

lemma perform_moves {a : ProcInstr ι} (h : s.CpuInv) (hrun : s.cpu c = .run p todo)
    (hcode : Code init table s.proc p y (s.pc p) a) (hs : s.perform c p todo a = .next s') :
    (∀ i, SlotMove s c x i (s'.proc i)) ∧ s.nextpid ≤ s'.nextpid := by
  have hex := h.expect hrun
  cases a with
  | goto q | swtch g =>
    cases hs
    exact ⟨fun i => .refl i, le_rfl⟩
  | acquire j q | acquireWait q =>
    obtain ⟨-, rfl⟩ := acquire_eq hs
    exact ⟨fun i => .refl i, le_rfl⟩
  | releaseWait q =>
    obtain ⟨-, rfl⟩ := release_eq hs
    exact ⟨fun i => .refl i, le_rfl⟩
  | release j f q =>
    obtain ⟨-, rfl⟩ := release_eq hs
    exact ⟨(release_move h hrun hcode).update, le_rfl⟩
  | reap j q =>
    obtain ⟨-, rfl⟩ := release_eq hs
    exact ⟨SlotMove.update (.free rfl rfl rfl), le_rfl⟩
  | reparent j k q =>
    cases hs
    refine ⟨SlotMove.update ?_, le_rfl⟩
    exact .same Iff.rfl rfl rfl
  | give ch st q =>
    cases hs
    refine ⟨SlotMove.update ?_, le_rfl⟩
    refine .same ?_ rfl rfl
    rw [hex, (code_give hcode).2.2.1]
    generalize s.pc p = l at hcode
    cases hcode <;> simp
  | zombie status q =>
    cases hs
    refine ⟨SlotMove.update ?_, le_rfl⟩
    refine .same ?_ rfl rfl
    rw [hex, (code_zombie hcode).2.2.1]
    simp
  | sched g =>
    simp only [ProcSys.perform] at hs
    split_ifs at hs
    cases hs
    exact ⟨fun i => .refl i, le_rfl⟩
  | alloc j q =>
    cases hs
    generalize hl : s.pc p = l at hcode
    cases hcode with
    | kforkAlloc hj =>
      refine ⟨SlotMove.update ?_, Nat.le_succ _⟩
      exact .alloc hj (by simp) rfl rfl
  | disabled | panic e => cases hs

lemma step_slots (h : s.CpuInv) (hs : s.step init table (c, y) = .next s') :
    (∀ i, SlotMove s c x i (s'.proc i)) ∧ s.nextpid ≤ s'.nextpid := by
  simp only [ProcSys.step] at hs
  split at hs
  · cases hs
    exact ⟨fun i => .refl i, le_rfl⟩
  · obtain ⟨-, rfl⟩ := acquire_eq hs
    exact ⟨fun i => .refl i, le_rfl⟩
  · split_ifs at hs with hst
    · cases hs
      refine ⟨SlotMove.update ?_, le_rfl⟩
      exact .same (by simp [hst]) rfl rfl
    · cases hs
      exact ⟨fun i => .refl i, le_rfl⟩
  · cases hs
    exact ⟨fun i => .refl i, le_rfl⟩
  · split_ifs at hs
    cases hs
    exact ⟨fun i => .refl i, le_rfl⟩
  · next hrun => exact perform_moves h hrun (code_spec _) hs
  · cases hs
    exact ⟨fun i => .refl i, le_rfl⟩
  · obtain ⟨-, rfl⟩ := release_eq hs
    exact ⟨fun i => .refl i, le_rfl⟩

lemma setkilled_moves (h : s.CpuInv) (hs : s.setkilled c = .next s') :
    s'.CpuInv ∧ (∀ i, SlotMove s c none i (s'.proc i)) ∧ s.nextpid ≤ s'.nextpid := by
  simp only [setkilled] at hs
  split at hs
  · next p todo hrun =>
    split at hs
    · next hpc =>
      obtain ⟨-, rfl⟩ := acquire_eq hs
      have hst : (s.proc p).state = .running := by rw [h.expect hrun, hpc]; rfl
      refine ⟨?_, SlotMove.update ?_, le_rfl⟩
      swap
      · exact .fault hrun rfl (by simp [hst]) rfl rfl
      refine h.keep hrun rfl rfl rfl (Function.update_eq_self p s.pc).symm
        (fun i hi => ⟨by simp [modify, hi], rfl⟩) rfl ?_ (by rw [hpc]; trivial) rfl
      simpa [modify] using h.expect hrun
    · cases hs
  · cases hs

/-- The UNUSED slots are those with pid 0. -/
structure PidInv (s : ProcSys ι κ) : Prop where
  cpu : s.CpuInv
  zero : ∀ i, (s.proc i).pid = 0 ↔ (s.proc i).state = .unused
  next : 0 < s.nextpid

lemma killStep_moves (h : s.CpuInv) (hs : s.killStep init table (c, x) = .next s') :
    s'.CpuInv ∧ (∀ i, SlotMove s c x i (s'.proc i)) ∧ s.nextpid ≤ s'.nextpid := by
  cases x with
  | none => exact setkilled_moves h hs
  | some y => exact ⟨h.step (show s.step init table (c, y) = .next s' from hs), step_slots h hs⟩

lemma PidInv.step (h : s.PidInv) (hs : s.killStep init table (c, x) = .next s') : s'.PidInv := by
  obtain ⟨hcpu, hm, hn⟩ := killStep_moves h.cpu hs
  refine ⟨hcpu, fun i => ?_, h.next.trans_le hn⟩
  cases hm i with
  | same hu hpid | kill _ _ hu hpid | fault _ _ _ hu hpid => rw [hpid, hu, h.zero i]
  | alloc _ hu' hpid => simp [hpid, hu', h.next.ne']
  | free hu hpid => simp [hpid, hu]

/-- What a step does to the flags, when the UNUSED slots have none. -/
lemma PidInv.flags (h : s.PidInv)
    (hclean : ∀ i, (s.proc i).state = .unused → (s.proc i).killed = false)
    (hok : ¬ s.KillsZero c) (hs : s.killStep init table (c, x) = .next s') (i : ι) :
    ((s'.proc i).state = .unused → (s'.proc i).killed = false) ∧
    ((s.proc i).state = .unused → (s'.proc i).state ≠ .unused → (s'.proc i).killed = false) ∧
    ((s.proc i).killed = false → (s'.proc i).killed = true → s.KillsOwn c x i) := by
  cases (killStep_moves h.cpu hs).2.1 i with
  | same hu _ hk =>
    exact ⟨fun h' => hk.trans (hclean i (hu.mp h')), fun h1 h2 => absurd (hu.mpr h1) h2,
      fun h1 h2 => nomatch h1.symm.trans (hk.symm.trans h2)⟩
  | alloc hu hu' _ hk =>
    have hfalse := hk.trans (hclean i hu)
    exact ⟨fun h' => absurd h' hu', fun _ _ => hfalse, fun _ h2 => nomatch hfalse.symm.trans h2⟩
  | free hu _ hk =>
    exact ⟨fun _ => hk, fun _ h2 => absurd hu h2, fun _ h2 => nomatch hk.symm.trans h2⟩
  | @kill p todo rest hc hp hu _ =>
    have hused : (s.proc i).state ≠ .unused := by
      intro hun
      rw [(h.zero i).mpr hun] at hp
      exact hok ⟨p, todo, i, rest, hc, hp⟩
    exact ⟨fun h' => absurd (hu.mp h') hused, fun h1 => absurd h1 hused,
      fun _ _ => ⟨p, todo, hc, hused, .inl ⟨rest, hp⟩⟩⟩
  | @fault todo hc hx hu hst _ =>
    exact ⟨fun h' => absurd (hst.symm.trans h') hu, fun h1 => absurd h1 hu,
      fun _ _ => ⟨i, todo, hc, hu, .inr ⟨hx, rfl⟩⟩⟩

/-- `kkill` does what it should unless it finds a slot that is not in use. -/
lemma PidInv.killsNamed_iff (h : s.PidInv) (pid : ℤ) :
    KillsNamed table s.proc pid ↔ pid ≠ 0 ∨ ∀ i ∈ table, (s.proc i).state ≠ .unused := by
  have hzero : ∀ i, ((s.proc i).pid : ℤ) = 0 ↔ (s.proc i).state = .unused := by
    intro i
    rw [Int.natCast_eq_zero, h.zero i]
  rw [KillsNamed, kkill]
  cases hf : table.find? fun i => ((s.proc i).pid : ℤ) = pid with
  | none =>
    have hnone : ∀ i ∈ table, ((s.proc i).pid : ℤ) ≠ pid := by simpa using hf
    refine iff_of_true ⟨?_, fun i hi => absurd rfl hi⟩ ?_
    · simpa using fun i hi _ => hnone i hi
    · by_cases hp : pid = 0
      · exact .inr fun i hi hu => hnone i hi (hp ▸ (hzero i).mpr hu)
      · exact .inl hp
  | some j =>
    have hj : ((s.proc j).pid : ℤ) = pid := by simpa using List.find?_some hf
    have hmem := List.mem_of_find?_eq_some hf
    have hiff : pid ≠ 0 ∨ (∀ i ∈ table, (s.proc i).state ≠ .unused) ↔
        (s.proc j).state ≠ .unused := by
      rw [← hj, Ne, hzero j]
      exact ⟨fun h => h.elim id fun hall => hall j hmem, .inl⟩
    rw [hiff]
    constructor
    · rintro ⟨hret, -⟩ hu
      obtain ⟨i, -, hi, hpid⟩ := hret.mp rfl
      exact hi ((hzero i).mp (hpid.trans (hj.symm.trans ((hzero j).mpr hu))))
    · refine fun hu => ⟨iff_of_true rfl ⟨j, hmem, hu, hj⟩, fun i hi => ?_⟩
      by_cases hij : i = j
      · exact hij ▸ ⟨hu, hj⟩
      · exact absurd (Function.update_of_ne hij _ _) hi

lemma boot_pidInv (init : ι) : (boot init : ProcSys ι κ).PidInv := by
  refine ⟨boot_cpuInv init, fun i => ?_, Nat.two_pos⟩
  simp only [boot]
  split_ifs <;> simp

/-- **`kill` hits only the process it names, but for `kill(0)`.**  In every reachable table
`kkill(pid)` does what it should just when `pid` is not 0 or no slot is UNUSED. In a run without
`kkill(0)` the UNUSED slots have no `killed` flag, a new process starts without one, and it gets one
only through a `kkill` with its pid or a fault of its own. -/
theorem kill_hits_named (init : ι) (table : List ι) :
    (∀ (as : List (κ × Option ProcInput)) (s : ProcSys ι κ),
      Run (killStep init table) (boot init) as s → ∀ pid : ℤ,
        (KillsNamed table s.proc pid ↔ pid ≠ 0 ∨ ∀ i ∈ table, (s.proc i).state ≠ .unused)) ∧
    ∀ (as : List (κ × Option ProcInput)) (s : ProcSys ι κ),
      RunOf (killStep init table) (fun s a => ¬ s.KillsZero a.1) (boot init) as s →
      (∀ i, (s.proc i).state = .unused → (s.proc i).killed = false) ∧
      ∀ c x s', ¬ s.KillsZero c → s.killStep init table (c, x) = .next s' → ∀ i,
        ((s.proc i).state = .unused → (s'.proc i).state ≠ .unused → (s'.proc i).killed = false) ∧
        ((s.proc i).killed = false → (s'.proc i).killed = true → s.KillsOwn c x i) := by
  refine ⟨fun as s hrun pid => ?_, fun as s hrun => ?_⟩
  · exact (hrun.invariant (fun s a s' h hs => h.step hs) (boot_pidInv init)).killsNamed_iff pid
  · have hclean : s.PidInv ∧ ∀ i, (s.proc i).state = .unused → (s.proc i).killed = false := by
      refine hrun.invariant (I := fun (t : ProcSys ι κ) =>
        t.PidInv ∧ ∀ i, (t.proc i).state = .unused → (t.proc i).killed = false) ?_ ?_
      · exact fun s a s' h hok hs => ⟨h.1.step hs, fun i => (h.1.flags h.2 hok hs i).1⟩
      · refine ⟨boot_pidInv init, fun i _ => ?_⟩
        simp only [boot]
        split_ifs <;> rfl
    exact ⟨hclean.2, fun c x s' hok hs i => (hclean.1.flags hclean.2 hok hs i).2⟩

/-- `init` calls `kill(0)` and then `fork`: up to the new process. -/
def killZeroRun : List (Unit × Option ProcInput) :=
  List.replicate 6 ((), some .ok) ++ ((), some (.kkill 0)) :: List.replicate 4 ((), some .ok) ++
    ((), some .kfork) :: List.replicate 4 ((), some .ok)

/-- `kill(0)` succeeds and sets the flag of a slot that is not in use, and the process that `fork`
then puts there starts with it. -/
theorem kill_zero_marks_unused : ∃ s t : ProcSys (Fin 2) Unit,
    Run (killStep 0 [0, 1]) (boot 0) (killZeroRun.take 11) s ∧
      Run (killStep 0 [0, 1]) (boot 0) killZeroRun t ∧
      (kkill [0, 1] (boot 0 : ProcSys (Fin 2) Unit).proc 0).1 = 0 ∧
      (∀ i, ((boot 0 : ProcSys (Fin 2) Unit).proc i).pid = 0 → i = 1) ∧
      (s.proc 1).state = .unused ∧ (s.proc 1).killed = true ∧
      (t.proc 1).state = .used ∧ (t.proc 1).pid = 2 ∧ (t.proc 1).killed = true :=
  ⟨_, _, Run.of_exec rfl, Run.of_exec rfl, rfl, by decide, rfl, rfl, rfl, rfl, rfl⟩

/-- `KillsZero`, computed. -/
def killsZero (s : ProcSys ι κ) (c : κ) : Bool :=
  match s.cpu c with
  | .run p _ =>
    match s.pc p with
    | .kkillHeld 0 _ _ => true
    | _ => false
  | _ => false

lemma not_killsZero (h : !s.killsZero c) : ¬ s.KillsZero c := by
  rintro ⟨p, todo, j, rest, hc, hp⟩
  simp [killsZero, hc, hp] at h

/-- `init` forks and calls `kill` with the pid of the child: up to the step that sets its flag. -/
def killChildRun : List (Unit × Option ProcInput) :=
  List.replicate 6 ((), some .ok) ++ ((), some .kfork) :: List.replicate 10 ((), some .ok) ++
    ((), some (.kkill 2)) :: List.replicate 3 ((), some .ok)

theorem kill_hits_named_child : ∃ s : ProcSys ℕ Unit,
    Run (killStep 0 [0, 1]) (boot 0) killChildRun s ∧ KillsNamed [0, 1] s.proc 2 ∧
      s.KillsOwn () (some .ok) 1 := by
  have hrun : Run (killStep 0 [0, 1]) (boot 0) killChildRun _ := Run.of_exec rfl
  have hrun' : RunOf (killStep 0 [0, 1]) (fun s a => ¬ s.KillsZero a.1) (boot 0) killChildRun _ :=
    RunOf.of_exec (fun (s : ProcSys ℕ Unit) a => s.not_killsZero) rfl
  refine ⟨_, hrun, ((kill_hits_named 0 [0, 1]).1 _ _ hrun 2).mpr (.inl (by decide)), ?_⟩
  exact (((kill_hits_named 0 [0, 1]).2 _ _ hrun').2 () (some .ok) _ (not_killsZero rfl) rfl 1).2
    rfl rfl

end Xv6.ProcSys
