import Xv6.Lib.Steps

/-!
# Monitors

Threads share data under one lock and wait for each other by `sleep` and `wakeup` on channels. A
`Client` gives the code of the threads, one instruction for each control point; what the environment
contributes to an instruction (the result of a user copy, which call comes next) is an input `x` of
the step that executes it.

In a `Mon` a `sleep` gives up the lock and waits in one step, and a waiting thread may go on at any
time, woken or not: what holds of every run of a `Mon` holds whatever `wakeup` does. Which threads
`wakeup` does wake is the business of `Lib/SleepWakeup.lean`, whose system refines this one.

A client comes with the proof that its control points say truly whether the lock is held there, so
that `Mon.LockInv` needs no proof for a particular client.
-/

/-- One instruction: `C` are the channels, `L` the control points, `D` the shared data. -/
inductive Instr (ε C L D : Type) where
  | acquire (l : L)
  | release (l : L)
  | sleep (ch : C) (l : L)
  | wakeup (ch : C) (l : L)
  | killed (yes no : L)
  | act (f : D → Outcome ε (L × D))

/-- The control points that hold the lock are told apart by `holds`: an instruction at `l` respects
that, and one that does not hold the lock does not touch the data. -/
def Instr.Respects {ε C L D : Type} (holds : L → Prop) (l : L) : Instr ε C L D → Prop
  | .acquire l' => ¬ holds l ∧ holds l'
  | .release l' => holds l ∧ ¬ holds l'
  | .sleep _ l' => holds l ∧ holds l'
  | .wakeup _ l' => holds l ∧ holds l'
  | .killed yes no => (holds yes ↔ holds l) ∧ (holds no ↔ holds l)
  | .act f => ∀ d l' d', f d = .next (l', d') → (holds l' ↔ holds l) ∧ (¬ holds l → d' = d)

/-- The code of the threads `ι`, the steps of the environment, and the control points that hold the
lock. -/
structure Client (ε ι C L D X Y : Type) where
  code : ι → L → X → Instr ε C L D
  env : Y → D → Outcome ε D
  holds : L → Prop
  respects : ∀ i l x, (code i l x).Respects holds l

/-- A thread is at a control point, or waits to go on at one after a `sleep`. -/
inductive MLoc (L : Type) where
  | here (l : L)
  | waiting (l : L)

/-- The control point, reached or to be reached. -/
def MLoc.point {L : Type} : MLoc L → L
  | .here l => l
  | .waiting l => l

/-- Threads that share data under one lock. -/
structure Mon (ι L D : Type) where
  lk : Option ι
  loc : ι → MLoc L
  killed : ι → Bool
  data : D

/-- A step of a thread or of the environment. -/
inductive MAct (ι X Y : Type) where
  | run (i : ι) (x : X)
  | resume (i : ι)
  | kill (i : ι)
  | env (y : Y)

namespace Mon

variable {ε ι C L D X Y : Type} [DecidableEq ι]

def setLoc (m : Mon ι L D) (i : ι) (c : MLoc L) : Mon ι L D :=
  { m with loc := Function.update m.loc i c }

/-- One instruction of thread `i`, which is at control point `l`. -/
def execute (m : Mon ι L D) (i : ι) : Instr ε C L D → Outcome ε (Mon ι L D)
  | .acquire l' =>
    if m.lk = none then .next { m.setLoc i (.here l') with lk := some i } else .disabled
  | .release l' =>
    if m.lk = some i then .next { m.setLoc i (.here l') with lk := none } else .disabled
  | .sleep _ l' =>
    if m.lk = some i then .next { m.setLoc i (.waiting l') with lk := none } else .disabled
  | .wakeup _ l' => .next (m.setLoc i (.here l'))
  | .killed yes no => .next (m.setLoc i (.here (if m.killed i then yes else no)))
  | .act f =>
    match f m.data with
    | .next (l', d') => .next { m.setLoc i (.here l') with data := d' }
    | .disabled => .disabled
    | .panic e => .panic e

def step (cl : Client ε ι C L D X Y) (m : Mon ι L D) : MAct ι X Y → Outcome ε (Mon ι L D)
  | .run i x =>
    match m.loc i with
    | .here l => m.execute i (cl.code i l x)
    | .waiting _ => .disabled
  | .resume i =>
    match m.loc i with
    | .here _ => .disabled
    | .waiting l =>
      if m.lk = none then .next { m.setLoc i (.here l) with lk := some i } else .disabled
  | .kill i => .next { m with killed := Function.update m.killed i true }
  | .env y =>
    match cl.env y m.data with
    | .next d' => .next { m with data := d' }
    | .disabled => .disabled
    | .panic e => .panic e

/-- What `step` can do, one constructor for each kind of instruction. -/
inductive Moves (cl : Client ε ι C L D X Y) (m : Mon ι L D) : MAct ι X Y → Mon ι L D → Prop where
  | acquire {i : ι} {l l' : L} {x : X} (hl : m.loc i = .here l) (hc : cl.code i l x = .acquire l')
      (hlk : m.lk = none) : Moves cl m (.run i x) { m.setLoc i (.here l') with lk := some i }
  | release {i : ι} {l l' : L} {x : X} (hl : m.loc i = .here l) (hc : cl.code i l x = .release l')
      (hlk : m.lk = some i) : Moves cl m (.run i x) { m.setLoc i (.here l') with lk := none }
  | sleep {i : ι} {l l' : L} {x : X} {ch : C} (hl : m.loc i = .here l)
      (hc : cl.code i l x = .sleep ch l') (hlk : m.lk = some i) :
      Moves cl m (.run i x) { m.setLoc i (.waiting l') with lk := none }
  | wakeup {i : ι} {l l' : L} {x : X} {ch : C} (hl : m.loc i = .here l)
      (hc : cl.code i l x = .wakeup ch l') : Moves cl m (.run i x) (m.setLoc i (.here l'))
  | killed {i : ι} {l yes no : L} {x : X} (hl : m.loc i = .here l)
      (hc : cl.code i l x = .killed yes no) :
      Moves cl m (.run i x) (m.setLoc i (.here (if m.killed i then yes else no)))
  | act {i : ι} {l l' : L} {x : X} {f : D → Outcome ε (L × D)} {d' : D} (hl : m.loc i = .here l)
      (hc : cl.code i l x = .act f) (hf : f m.data = .next (l', d')) :
      Moves cl m (.run i x) { m.setLoc i (.here l') with data := d' }
  | resume {i : ι} {l : L} (hl : m.loc i = .waiting l) (hlk : m.lk = none) :
      Moves cl m (.resume i) { m.setLoc i (.here l) with lk := some i }
  | kill (i : ι) : Moves cl m (.kill i) { m with killed := Function.update m.killed i true }
  | env {y : Y} {d' : D} (hf : cl.env y m.data = .next d') :
      Moves cl m (.env y) { m with data := d' }

variable {cl : Client ε ι C L D X Y}

variable {m m' : Mon ι L D} {a : MAct ι X Y}

lemma execute_moves {i : ι} {l : L} {x : X} (hl : m.loc i = .here l)
    (hs : m.execute i (cl.code i l x) = .next m') : Moves cl m (.run i x) m' := by
  rcases hc : cl.code i l x with l' | l' | ⟨ch, l'⟩ | ⟨ch, l'⟩ | ⟨yes, no⟩ | f <;> rw [hc] at hs <;>
    simp only [execute] at hs
  case acquire =>
    split_ifs at hs with hlk
    injection hs with hs
    exact hs ▸ .acquire hl hc hlk
  case release =>
    split_ifs at hs with hlk
    injection hs with hs
    exact hs ▸ .release hl hc hlk
  case sleep =>
    split_ifs at hs with hlk
    injection hs with hs
    exact hs ▸ .sleep hl hc hlk
  case wakeup =>
    injection hs with hs
    exact hs ▸ .wakeup hl hc
  case killed =>
    injection hs with hs
    exact hs ▸ .killed hl hc
  case act =>
    split at hs
    · next l' d' hf =>
      injection hs with hs
      exact hs ▸ .act hl hc hf
    · cases hs
    · cases hs

lemma step_moves (hs : step cl m a = .next m') : Moves cl m a m' := by
  cases a with
  | run i x =>
    simp only [step] at hs
    split at hs
    · next l hl => exact execute_moves hl hs
    · cases hs
  | resume i =>
    simp only [step] at hs
    split at hs
    · cases hs
    · next l hl =>
      split_ifs at hs with hlk
      injection hs with hs
      exact hs ▸ .resume hl hlk
  | kill i =>
    injection hs with hs
    exact hs ▸ .kill i
  | env y =>
    simp only [step] at hs
    split at hs
    · next d' hf =>
      injection hs with hs
      exact hs ▸ .env hf
    · cases hs
    · cases hs

/-! ## Who holds the lock -/

/-- A waiting thread does not hold the lock, the others hold it where the client says so. -/
def Holds (cl : Client ε ι C L D X Y) : MLoc L → Prop
  | .here l => cl.holds l
  | .waiting _ => False

/-- The lock is held by the thread whose control point says so, and by no other; a waiting thread
will hold it when it goes on. -/
structure LockInv (cl : Client ε ι C L D X Y) (m : Mon ι L D) : Prop where
  owner : ∀ i, m.lk = some i ↔ Holds cl (m.loc i)
  waiting : ∀ i l, m.loc i = .waiting l → cl.holds l

lemma LockInv.move (h : LockInv cl m) {i : ι} {c : MLoc L} {lk' : Option ι}
    {killed' : ι → Bool} {d' : D} (hi : lk' = some i ↔ Holds cl c)
    (hothers : ∀ j, j ≠ i → (lk' = some j ↔ m.lk = some j))
    (hwait : ∀ l, c = .waiting l → cl.holds l) :
    LockInv cl { lk := lk', loc := Function.update m.loc i c, killed := killed', data := d' } := by
  refine ⟨fun j => ?_, fun j l hj' => ?_⟩ <;> by_cases hj : j = i
  · subst hj
    simpa using hi
  · simp only [Function.update_of_ne hj]
    exact (hothers j hj).trans (h.owner j)
  · subst hj
    exact hwait l (by simpa using hj')
  · simp only [Function.update_of_ne hj] at hj'
    exact h.waiting j l hj'

lemma LockInv.step (h : LockInv cl m) (hs : Moves cl m a m') : LockInv cl m' := by
  have hres : ∀ {i : ι} {l : L} {x : X} {c : Instr ε C L D}, cl.code i l x = c →
      c.Respects cl.holds l := fun hc => hc ▸ cl.respects _ _ _
  have hself : ∀ {i : ι} {l : L}, m.loc i = .here l → (m.lk = some i ↔ cl.holds l) := by
    intro i l hl
    rw [h.owner i, hl]
    rfl
  cases hs with
  | acquire hl hc hlk =>
    refine h.move (iff_of_true rfl (hres hc).2) (fun j hj => ?_) (by simp)
    simp [hlk, Ne.symm hj]
  | release hl hc hlk =>
    refine h.move (iff_of_false (by simp) (hres hc).2) (fun j hj => ?_) (by simp)
    simp [hlk, Ne.symm hj]
  | sleep hl hc hlk =>
    refine h.move (iff_of_false (by simp) (fun hf => hf)) (fun j hj => ?_) ?_
    · simp [hlk, Ne.symm hj]
    · rintro _ ⟨⟩
      exact (hres hc).2
  | wakeup hl hc =>
    refine h.move (iff_of_true ?_ (hres hc).2) (fun j _ => Iff.rfl) (by simp)
    exact (hself hl).mpr (hres hc).1
  | killed hl hc =>
    refine h.move ((hself hl).trans ?_) (fun j _ => Iff.rfl) (by simp)
    split_ifs
    · exact (hres hc).1.symm
    · exact (hres hc).2.symm
  | act hl hc hf =>
    refine h.move ((hself hl).trans ?_) (fun j _ => Iff.rfl) (by simp)
    exact (hres hc _ _ _ hf).1.symm
  | @resume i l hl hlk =>
    refine h.move (iff_of_true rfl (h.waiting i l hl)) (fun j hj => ?_) (by simp)
    simp [hlk, Ne.symm hj]
  | kill i | env hf => exact ⟨h.owner, h.waiting⟩

end Mon
