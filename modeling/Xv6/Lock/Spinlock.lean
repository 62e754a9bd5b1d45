import Xv6.Lib.Steps

/-!
# Spin locks

`acquire` and `release` of `spinlock.c` on one lock, one access to memory a step: the two reads of
`holding`, the atomic swap, the stores to `lk->cpu` and `lk->locked`. Interrupts are off from
`push_off` to `pop_off`, so that a CPU is inside one call at a time. Other modules take a section
under a lock as one step; this is what they rest on.
-/

namespace Xv6

open Function

/-- The next access of a CPU; `out` is outside of both calls. -/
inductive SpinPc where
  | out | acqLocked | acqCpu | swap | setCpu | relLocked | relCpu | clearCpu | unlock
  deriving DecidableEq

/-- A new call, or `go` on with the one it is in. -/
inductive SpinCall where
  | acquire
  | release
  | go

/-- The panics of spinlock.c. -/
inductive SpinPanic where
  | acquire
  | release

/-- `lk->locked` and `lk->cpu` (`none` when it is 0), and the CPUs. `held` is there for the rule and
the statements: the CPU has swapped in the 1 and has not stored the 0 yet. -/
structure SpinSys (C : Type) where
  locked : Bool
  cpu : Option C
  pc : C → SpinPc
  held : C → Bool

namespace SpinSys

variable {C : Type} [DecidableEq C] {s s' : SpinSys C} {c : C} {a : C × SpinCall}

def move (s : SpinSys C) (c : C) (q : SpinPc) : SpinSys C :=
  { s with pc := update s.pc c q }

def step (s : SpinSys C) : C × SpinCall → Outcome SpinPanic (SpinSys C)
  | (c, .acquire) => if s.pc c = .out then .next (s.move c .acqLocked) else .disabled
  | (c, .release) => if s.pc c = .out then .next (s.move c .relLocked) else .disabled
  | (c, .go) =>
    match s.pc c with
    | .out => .disabled
    | .acqLocked => .next (s.move c (if s.locked then .acqCpu else .swap))
    | .acqCpu => if s.cpu = some c then .panic .acquire else .next (s.move c .swap)
    | .swap =>
      if s.locked then .next s
      else .next { s.move c .setCpu with locked := true, held := update s.held c true }
    | .setCpu => .next { s.move c .out with cpu := some c }
    | .relLocked => if s.locked then .next (s.move c .relCpu) else .panic .release
    | .relCpu => if s.cpu = some c then .next (s.move c .clearCpu) else .panic .release
    | .clearCpu => .next { s.move c .unlock with cpu := none }
    | .unlock => .next { s.move c .out with locked := false, held := update s.held c false }

/-- A CPU acquires the lock only if it does not hold it, and releases it only if it does. -/
def Proper (s : SpinSys C) : C × SpinCall → Prop
  | (c, .acquire) => s.held c = false
  | (c, .release) => s.held c = true
  | (_, .go) => True

/-- `holding(lk)` on the CPU `c`. -/
def holding (s : SpinSys C) (c : C) : Bool :=
  s.locked && s.cpu = some c

/-- After `initlock`. -/
def init : SpinSys C :=
  ⟨false, none, fun _ => .out, fun _ => false⟩

/-- What a place in the calls says about the caller. -/
def Knows (held : Bool) : SpinPc → Prop
  | .out => True
  | .acqLocked | .acqCpu | .swap => held = false
  | .setCpu | .relLocked | .relCpu | .clearCpu | .unlock => held = true

/-- Where the holder is not in `lk->cpu`. -/
def Unmarked (q : SpinPc) : Prop := q = .setCpu ∨ q = .unlock

/-- At most one CPU holds the lock. -/
structure Inv (s : SpinSys C) : Prop where
  locked : s.locked = true ↔ ∃ c, s.held c = true
  unique : ∀ c d, s.held c = true → s.held d = true → c = d
  cpu : ∀ c, s.cpu = some c ↔ s.held c = true ∧ ¬ Unmarked (s.pc c)
  knows : ∀ c, Knows (s.held c) (s.pc c)

omit [DecidableEq C] in
lemma Inv.none_else (h : s.Inv) (hc : s.held c = true) : ∀ d, d ≠ c → s.held d = false :=
  fun d hd => by
    rw [Bool.eq_false_iff]
    exact fun hd' => hd (h.unique d c hd' hc)

lemma Inv.move {q : SpinPc} (h : s.Inv) (hq : Knows (s.held c) q)
    (hmark : Unmarked q ↔ Unmarked (s.pc c)) : (s.move c q).Inv := by
  refine ⟨h.locked, h.unique, fun d => ?_, fun d => ?_⟩ <;> by_cases hd : d = c
  · simpa [SpinSys.move, hd, hmark] using h.cpu c
  · simpa [SpinSys.move, hd] using h.cpu d
  · simpa [SpinSys.move, hd] using hq
  · simpa [SpinSys.move, hd] using h.knows d

/-- A step of `c` on the lock while no other CPU holds it. -/
lemma Inv.change {q : SpinPc} {b : Bool} (h : s.Inv) (hone : ∀ d, d ≠ c → s.held d = false)
    (hpc : s'.pc = update s.pc c q) (hheld : s'.held = update s.held c b) (hlocked : s'.locked = b)
    (hcpu : ∀ d, s'.cpu = some d ↔ d = c ∧ b = true ∧ ¬ Unmarked q) (hq : Knows b q) : s'.Inv := by
  have hat : ∀ d, s'.held d = (decide (d = c) && b) := fun d => by
    by_cases hd : d = c <;> simp_all
  refine ⟨?_, fun d e => ?_, fun d => ?_, fun d => ?_⟩
  · simp [hat, hlocked]
  · simp only [hat, Bool.and_eq_true, decide_eq_true_eq]
    exact fun hd he => hd.1.trans he.1.symm
  · rw [hcpu, hat, hpc]
    by_cases hd : d = c <;> simp [hd]
  · by_cases hd : d = c
    · simpa [hd, hpc, hheld] using hq
    · simpa [hd, hpc, hheld] using h.knows d

lemma Inv.go (h : s.Inv) (hs : s.step (c, .go) = .next s') : s'.Inv := by
  have hk := h.knows c
  cases hpc : s.pc c <;> simp only [step, hpc] at hk hs
  case out => cases hs
  case acqLocked =>
    cases hs
    refine h.move ?_ ?_ <;> split_ifs <;> simp_all [Knows, Unmarked]
  case acqCpu | relLocked | relCpu =>
    split_ifs at hs
    cases hs
    exact h.move hk (by simp [hpc, Unmarked])
  case swap =>
    split_ifs at hs with hl
    · cases hs
      exact h
    -- nobody holds the lock, so that `lk->cpu` is 0
    have hfree : ∀ d, s.held d = false := fun d => by
      rw [Bool.eq_false_iff]
      exact fun hd => hl (h.locked.mpr ⟨d, hd⟩)
    cases hs
    exact h.change (fun d _ => hfree d) rfl rfl rfl
      (by simp [SpinSys.move, h.cpu, hfree, Unmarked]) rfl
  case setCpu | clearCpu =>
    cases hs
    refine h.change (b := true) (h.none_else hk) rfl ?_ (h.locked.mpr ⟨c, hk⟩) ?_ (by simp [Knows])
    · rw [← hk]
      exact (update_eq_self ..).symm
    · simp [Unmarked, eq_comm]
  case unlock =>
    cases hs
    refine h.change (h.none_else hk) rfl rfl rfl (fun d => ?_) trivial
    by_cases hd : d = c
    · simp [SpinSys.move, h.cpu, hd, hpc, Unmarked]
    · simp [SpinSys.move, h.cpu, h.none_else hk d hd]

lemma Inv.step (h : s.Inv) (hok : s.Proper a) (hs : s.step a = .next s') : s'.Inv := by
  obtain ⟨c, _ | _ | _⟩ := a
  case go => exact h.go hs
  all_goals
    simp only [SpinSys.step] at hs
    split_ifs at hs with hpc
    cases hs
    exact h.move hok (by simp [hpc, Unmarked])

lemma Inv.no_panic (h : s.Inv) (e : SpinPanic) : s.step a ≠ .panic e := by
  obtain ⟨c, _ | _ | _⟩ := a
  case go =>
    have hk := h.knows c
    cases hpc : s.pc c <;> simp only [SpinSys.step, hpc] at hk ⊢ <;> try split_ifs
    all_goals simp_all [Knows, h.cpu, h.locked, Unmarked]
  all_goals
    simp only [SpinSys.step]
    split_ifs <;> simp

/-- **Spin locks exclude.**  In every run in which CPUs acquire the lock only if they do not hold it
and release it only if they do, it is locked just when a CPU holds it, at most one does, `holding`
says outside of the two calls which one, and no call panics. -/
theorem spinlock_exclusion {as : List (C × SpinCall)} (hr : RunOf step Proper init as s) :
    (s.locked = true ↔ ∃ c, s.held c = true) ∧ (∀ c d, s.held c = true → s.held d = true → c = d) ∧
      (∀ c, s.pc c = .out → s.holding c = s.held c) ∧ ∀ a e, s.step a ≠ .panic e := by
  have h0 : (init : SpinSys C).Inv :=
    ⟨by simp [init], by simp [init], by simp [init], fun _ => trivial⟩
  have h := hr.invariant (fun _ _ _ h hok hs => Inv.step h hok hs) h0
  refine ⟨h.locked, h.unique, fun c hc => ?_, fun _ => h.no_panic⟩
  rw [Bool.eq_iff_iff, holding, Bool.and_eq_true, h.locked, decide_eq_true_eq, h.cpu, hc]
  exact ⟨fun hh => hh.2.1, fun hh => ⟨⟨c, hh⟩, hh, by simp [Unmarked]⟩⟩

theorem spinlock_exclusion_two : ∃ s : SpinSys Bool, s.pc false = .swap ∧ s.held true = true ∧
    ∀ c, s.held c = true → c = true := by
  have hr : RunOf step Proper (init : SpinSys Bool) [(true, .acquire), (true, .go),
      (false, .acquire), (false, .go), (true, .go)] _ :=
    .cons rfl rfl (.cons trivial rfl
      (.cons rfl rfl (.cons trivial rfl (.cons trivial rfl (.nil _)))))
  exact ⟨_, rfl, rfl, fun c hc => (spinlock_exclusion hr).2.1 c true hc rfl⟩

end SpinSys

end Xv6
