import Xv6.Lib.Steps

/-!
# `push_off`, `pop_off` and `sched`

While a kernel thread is inside a `push_off` interrupts are off, and the last `pop_off` leaves them
as they were before the first `push_off`. `noff` and `intena` belong to the CPU: a process that goes
through `sched` may come back on another CPU, and `sched` then stores the `intena` it has kept. An
`acquire` counts as a `push_off` and a `release` as a `pop_off`.
-/

namespace Xv6

open Function

/-- `noff` and `intena` of `struct cpu`, and the bit `SSTATUS_SIE`. -/
structure Hart where
  sie : Bool
  noff : ℤ
  intena : Bool

/-- The panics of `pop_off` and `sched`. -/
inductive IntrPanic where
  | popOffInterruptible
  | popOff
  | schedLocks
  | schedInterruptible

def Hart.pushOff (h : Hart) : Hart :=
  ⟨false, h.noff + 1, if h.noff = 0 then h.sie else h.intena⟩

def Hart.popOff (h : Hart) : Except IntrPanic Hart :=
  if h.sie then .error .popOffInterruptible
  else if h.noff < 1 then .error .popOff
  else .ok ⟨h.noff - 1 = 0 && h.intena, h.noff - 1, h.intena⟩

/-- A thread's open calls of `push_off`, and `SSTATUS_SIE` before the first of them, `none` if that
was another thread's: for the rule and the statements. -/
structure Nest where
  depth : ℕ
  entry : Option Bool

/-- What a CPU does next. -/
inductive IntrAct (P : Type) where
  | pushOff
  | popOff
  /-- `intr_on` and `intr_off`, or a trap and the return from it. -/
  | setIntr (b : Bool)
  | sched
  /-- The scheduler of the CPU switches to `p`. -/
  | run (p : P)
  /-- `allocproc`: `p` will start in `forkret`. -/
  | alloc (p : P)

/-- `cur` is the process on a CPU, `none` in its scheduler, and `nest` belongs to that thread. A
process that has left its CPU is in `parked`, with the variable `intena` of `sched`; a new one has
none. -/
structure IntrSys (C P : Type) where
  hart : C → Hart
  cur : C → Option P
  nest : C → Nest
  parked : P → Option (Nest × Option Bool)

namespace IntrSys

variable {C P : Type} [DecidableEq C] [DecidableEq P] {s s' : IntrSys C P} {c : C}
  {a : C × IntrAct P}

def step (s : IntrSys C P) : C × IntrAct P → Outcome IntrPanic (IntrSys C P)
  | (c, .pushOff) => .next { s with
      hart := update s.hart c (s.hart c).pushOff
      nest := update s.nest c ⟨(s.nest c).depth + 1,
        if (s.nest c).depth = 0 then some (s.hart c).sie else (s.nest c).entry⟩ }
  | (c, .popOff) =>
    match (s.hart c).popOff with
    | .error e => .panic e
    | .ok h => .next { s with
        hart := update s.hart c h
        nest := update s.nest c { s.nest c with depth := (s.nest c).depth - 1 } }
  | (c, .setIntr b) => .next { s with hart := update s.hart c { s.hart c with sie := b } }
  | (c, .sched) =>
    match s.cur c with
    | none => .disabled
    | some p =>
      if (s.hart c).noff ≠ 1 then .panic .schedLocks
      else if (s.hart c).sie then .panic .schedInterruptible
      else .next { s with
        cur := update s.cur c none
        parked := update s.parked p (some (s.nest c, some (s.hart c).intena))
        -- the scheduler is inside its `acquire` of `p->lock`, with the `intena` of the process
        nest := update s.nest c ⟨1, none⟩ }
  | (c, .run p) =>
    match s.cur c, s.parked p with
    | none, some (n, i) => .next { s with
        cur := update s.cur c (some p)
        parked := update s.parked p none
        nest := update s.nest c n
        hart := update s.hart c { s.hart c with intena := i.getD (s.hart c).intena } }
    | _, _ => .disabled
  | (_, .alloc p) => .next { s with parked := update s.parked p (some (⟨1, none⟩, none)) }

/-- Calls are balanced, interrupts are set outside of them, and both sides of a `swtch` hold the
lock of the process and no other. -/
def Balanced (s : IntrSys C P) : C × IntrAct P → Prop
  | (_, .pushOff) | (_, .alloc _) => True
  | (c, .popOff) => 0 < (s.nest c).depth
  | (c, .setIntr _) => (s.nest c).depth = 0
  | (c, .sched) | (c, .run _) => (s.nest c).depth = 1

/-- Every CPU is in its scheduler, and there are no processes. -/
def boot : IntrSys C P :=
  ⟨fun _ => ⟨false, 0, false⟩, fun _ => none, fun _ => ⟨0, none⟩, fun _ => none⟩

/-- The CPU is as the thread on it expects. -/
structure Good (h : Hart) (n : Nest) : Prop where
  noff : h.noff = n.depth
  off : 0 < n.depth → h.sie = false
  intena : ∀ b, 0 < n.depth → n.entry = some b → h.intena = b

/-- A process in `parked` has kept what it will expect. -/
def Kept (x : Option (Nest × Option Bool)) : Prop :=
  ∀ n i, x = some (n, i) → n.depth = 1 ∧ ∀ b, n.entry = some b → i = some b

/-- Every CPU and every parked thread has what `push_off` recorded. -/
structure Inv (s : IntrSys C P) : Prop where
  good : ∀ c, Good (s.hart c) (s.nest c)
  parked : ∀ p, Kept (s.parked p)

lemma Good.popOff_eq {h : Hart} {n : Nest} (hg : Good h n) (hpos : 0 < n.depth) :
    h.popOff = .ok ⟨n.depth = 1 && h.intena, n.depth - 1, h.intena⟩ := by
  rw [Hart.popOff, hg.off hpos, hg.noff, if_neg (by simp), if_neg (by omega)]
  congr 4
  simp only [eq_iff_iff]
  omega

omit [DecidableEq P] in
lemma Inv.at_cpu {k : Hart} {n : Nest} (h : s.Inv) (hg : Good k n)
    (hhart : s'.hart = update s.hart c k) (hnest : s'.nest = update s.nest c n)
    (hparked : ∀ p, Kept (s'.parked p)) : s'.Inv := by
  refine ⟨fun d => ?_, hparked⟩
  by_cases hd : d = c
  · simpa [hd, hhart, hnest] using hg
  · simpa [hd, hhart, hnest] using h.good d

omit [DecidableEq C] in
lemma Inv.park {p : P} {x : Option (Nest × Option Bool)} (h : s.Inv) (hx : Kept x) (q : P) :
    Kept (update s.parked p x q) := by
  by_cases hq : q = p
  · simpa [hq] using hx
  · simpa [hq] using h.parked q

lemma Inv.step (h : s.Inv) (hok : s.Balanced a) (hs : s.step a = .next s') : s'.Inv := by
  obtain ⟨c, _ | _ | b | _ | p | p⟩ := a <;> simp only [IntrSys.step] at hs <;>
    simp only [Balanced] at hok
  case pushOff =>
    cases hs
    refine h.at_cpu ⟨?_, fun _ => rfl, fun b _ hb => ?_⟩ rfl rfl h.parked
    · simp [Hart.pushOff, (h.good c).noff]
    · have hint := (h.good c).intena b
      rw [Hart.pushOff, (h.good c).noff]
      split_ifs at hb ⊢ <;> grind
  case popOff =>
    rw [(h.good c).popOff_eq hok] at hs
    cases hs
    refine h.at_cpu ⟨?_, fun hp => ?_, ?_⟩ rfl rfl h.parked
    · push_cast [Nat.one_le_iff_ne_zero.mpr hok.ne']
      rfl
    · simp only at hp
      simp [show (s.nest c).depth ≠ 1 by omega]
    · exact fun b _ hb => (h.good c).intena b hok hb
  case setIntr =>
    cases hs
    refine h.at_cpu ⟨?_, ?_, ?_⟩ rfl (Function.update_eq_self ..).symm h.parked
    · exact (h.good c).noff
    · simp [hok]
    · simp [hok]
  case sched =>
    cases hp : s.cur c with
    | none => simp [hp] at hs
    | some p =>
      simp only [hp] at hs
      split_ifs at hs with hn hi
      cases hs
      refine h.at_cpu ⟨?_, ?_, ?_⟩ (Function.update_eq_self ..).symm rfl (h.park ?_)
      · simpa using hn
      · simpa using hi
      · simp
      · rintro n i ⟨⟩
        exact ⟨hok, fun b hb => by rw [(h.good c).intena b (by omega) hb]⟩
  case run =>
    split at hs <;> cases hs
    next n i _ hp =>
    obtain ⟨hn, hi⟩ := h.parked p n i hp
    refine h.at_cpu ⟨?_, ?_, fun b _ hb => ?_⟩ rfl rfl (h.park ?_)
    · simpa [hn, hok] using (h.good c).noff
    · simpa [hn, hok] using (h.good c).off
    · simp [hi b hb]
    · simp [Kept]
  case alloc =>
    cases hs
    exact ⟨h.good, h.park (by simp [Kept])⟩

/-- **Interrupts are restored.**  In every run of balanced calls, on every CPU interrupts are off
while `noff` is positive, `pop_off` and `sched` do not panic, and the `pop_off` that ends a thread's
nesting leaves interrupts as they were before the `push_off` that began it, on whatever CPU that
was. -/
theorem interrupts_restored {as : List (C × IntrAct P)} (hr : RunOf step Balanced boot as s) :
    (∀ c, 0 < (s.hart c).noff → (s.hart c).sie = false) ∧
      (∀ a e, s.Balanced a → s.step a ≠ .panic e) ∧
      ∀ c b, (s.nest c).depth = 1 → (s.nest c).entry = some b →
        ∃ s', s.step (c, .popOff) = .next s' ∧ (s'.hart c).sie = b := by
  have h0 : (boot : IntrSys C P).Inv :=
    ⟨fun c => ⟨rfl, by simp [boot], by simp [boot]⟩, by simp [boot, Kept]⟩
  have h := hr.invariant (fun _ _ _ h hok hs => Inv.step h hok hs) h0
  refine ⟨fun c hc => (h.good c).off (by simpa [(h.good c).noff] using hc), ?_, fun c b hd hb => ?_⟩
  · rintro ⟨c, _ | _ | b | _ | p | p⟩ e hok <;> simp only [step, Balanced] at hok ⊢
    case popOff => simp [(h.good c).popOff_eq hok]
    case sched => cases s.cur c <;> simp [(h.good c).noff, (h.good c).off (by omega), hok]
    case run => split <;> simp
    all_goals simp
  · have hpos : 0 < (s.nest c).depth := by omega
    refine ⟨_, by simp only [step, (h.good c).popOff_eq hpos]; rfl, ?_⟩
    simp [hd, (h.good c).intena b hpos hb]

/-- A process that has gone from one CPU to the other. -/
theorem interrupts_restored_moved : ∃ s s' : IntrSys Bool Unit, s.cur true = some () ∧
    s.step (true, .popOff) = .next s' ∧ (s'.hart true).sie = true := by
  have hr : RunOf step Balanced (boot : IntrSys Bool Unit) [(false, .alloc ()), (false, .pushOff),
      (false, .run ()), (false, .popOff), (false, .setIntr true), (false, .pushOff),
      (false, .sched),
      (true, .pushOff), (true, .run ())] _ :=
    .cons trivial rfl (.cons trivial rfl (.cons rfl rfl (.cons Nat.one_pos rfl (.cons rfl rfl
      (.cons trivial rfl (.cons rfl rfl (.cons trivial rfl (.cons rfl rfl (.nil _)))))))))
  obtain ⟨s', hs, hsie⟩ := (interrupts_restored hr).2.2 true true rfl rfl
  exact ⟨_, s', rfl, hs, hsie⟩

end IntrSys

end Xv6
