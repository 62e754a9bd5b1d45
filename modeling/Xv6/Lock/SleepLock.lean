import Xv6.Lib.SleepWakeup

/-!
# Sleep locks

`acquiresleep`, `releasesleep` and `holdingsleep` of `sleeplock.c` as a client of `sleep` and
`wakeup`: the data is `lk->locked` and `lk->pid`, the lock that protects them is `lk->lk`, and the
one channel is the address of the sleep lock. Every statement of the three functions is a control
point of its own.

Any number of processes call the functions over and over, a process releasing the lock only while it
holds it. Calls of `kkill` come from outside, at any time.

`SleepLock.Inv` is the mutual exclusion argument, on the level of the monitor, where `sleep` and
`wakeup` are single steps: `locked` is set exactly while one process is between setting it and
clearing it. That `wakeup` is never missed is then an instance of `WakeSpec.no_lost_wakeup`.
-/

namespace Xv6

open Function

/-- `struct sleeplock`, without its spin lock and name. -/
structure SleepLock where
  locked : Bool
  pid : ℕ
  deriving DecidableEq

/-- The functions of sleeplock.c. -/
inductive SleepLockCall where
  | acquiresleep
  | releasesleep
  | holdingsleep
  deriving DecidableEq

/-- The statements of the three functions. `holdTest` and `holdDone` remember whether the caller of
`holdingsleep` holds the sleep lock, `holdDone` also the result. -/
inductive SleepLockLoc where
  | idle
  | acqTest
  | acqSleep
  | acqLocked
  | acqPid
  | acqRelease
  | held
  | relLocked
  | relPid
  | relWakeup
  | relRelease
  | holdTest (holder : Bool)
  | holdRelease (holder r : Bool)
  deriving DecidableEq

namespace SleepLock

variable {ι : Type}

open SleepLockLoc

/-- The code of process `i`, whose `p->pid` is `pid i`. -/
def code (pid : ι → ℕ) (i : ι) :
    SleepLockLoc → SleepLockCall → Instr Empty Unit SleepLockLoc SleepLock
  | idle, .acquiresleep => .acquire acqTest
  | idle, .holdingsleep => .acquire (holdTest false)
  | idle, .releasesleep => .act fun _ => .disabled
  | acqTest, _ => .act fun lk => .next (if lk.locked then acqSleep else acqLocked, lk)
  | acqSleep, _ => .sleep () acqTest
  | acqLocked, _ => .act fun lk => .next (acqPid, { lk with locked := true })
  | acqPid, _ => .act fun lk => .next (acqRelease, { lk with pid := pid i })
  | acqRelease, _ => .release held
  | held, .acquiresleep => .act fun _ => .disabled
  | held, .holdingsleep => .acquire (holdTest true)
  | held, .releasesleep => .acquire relLocked
  | relLocked, _ => .act fun lk => .next (relPid, { lk with locked := false })
  | relPid, _ => .act fun lk => .next (relWakeup, { lk with pid := 0 })
  | relWakeup, _ => .wakeup () relRelease
  | relRelease, _ => .release idle
  | holdTest b, _ => .act fun lk => .next (holdRelease b (lk.locked && lk.pid == pid i), lk)
  | holdRelease b _, _ => .release (if b then held else idle)

/-- `lk->lk` is held everywhere inside the functions. -/
def holds : SleepLockLoc → Prop
  | idle => False
  | held => False
  | _ => True

def client (pid : ι → ℕ) : Client Empty ι Unit SleepLockLoc SleepLock SleepLockCall Empty where
  code := code pid
  env := nofun
  holds := holds
  respects := by
    intro i l x
    rcases l with _ | _ | _ | _ | _ | _ | _ | _ | _ | _ | _ | _ | ⟨_ | _, _⟩ <;> cases x <;>
      simp only [code, Instr.Respects, holds, not_true, not_false_iff, and_self, if_true,
        Bool.false_eq_true, if_false]
    all_goals
      intro d l' d' h
      simp only [Outcome.next.injEq, Prod.mk.injEq, reduceCtorEq] at h
    all_goals
      obtain ⟨rfl, rfl⟩ := h
      try split_ifs
      all_goals simp

/-! ## Mutual exclusion -/

/-- Between setting `lk->locked` and clearing it. -/
def owns : MLoc SleepLockLoc → Bool
  | .here acqPid => true
  | .here acqRelease => true
  | .here held => true
  | .here relLocked => true
  | .here (holdTest b) => b
  | .here (holdRelease b _) => b
  | _ => false

/-- Between setting `lk->pid` and clearing `lk->locked`. -/
def signed : MLoc SleepLockLoc → Bool
  | .here acqPid => false
  | c => owns c

/-- What the process knows of the data where it holds `lk->lk`; `acquiresleep` is the only place to
wait. -/
def Knows (d : SleepLock) : MLoc SleepLockLoc → Prop
  | .here acqSleep => d.locked = true
  | .here acqLocked => d.locked = false
  | .here relPid => d.locked = false
  | .here (holdRelease b r) => r = b
  | .here _ => True
  | .waiting l => l = acqTest

/-- At most one process owns the lock, and `lk->pid` is its pid. -/
structure Inv (pid : ι → ℕ) (m : Mon ι SleepLockLoc SleepLock) : Prop where
  owner : ∀ i j, owns (m.loc i) = true → owns (m.loc j) = true → i = j
  locked : m.data.locked = true ↔ ∃ i, owns (m.loc i) = true
  pid : ∀ i, signed (m.loc i) = true → m.data.pid = pid i
  knows : ∀ i, Knows m.data (m.loc i)

lemma owns_of_signed : ∀ {c : MLoc SleepLockLoc}, signed c = true → owns c = true
  | .here acqPid, h => by simp [signed] at h
  | .here idle, h => h
  | .here acqTest, h => h
  | .here acqSleep, h => h
  | .here acqLocked, h => h
  | .here acqRelease, h => h
  | .here held, h => h
  | .here relLocked, h => h
  | .here relPid, h => h
  | .here relWakeup, h => h
  | .here relRelease, h => h
  | .here (holdTest _), h => h
  | .here (holdRelease _ _), h => h
  | .waiting _, h => h

variable [DecidableEq ι] {pid : ι → ℕ} {m : Mon ι SleepLockLoc SleepLock} {i : ι}
  {killed' : ι → Bool} {d' : SleepLock}

lemma Inv.move (h : Inv pid m) {c c' : MLoc SleepLockLoc} {lk' : Option ι}
    (hc : m.loc i = c) (howns : owns c' = owns c)
    (hsigned : signed c' = signed c) (hknows : Knows m.data c') :
    Inv pid ⟨lk', update m.loc i c', killed', m.data⟩ := by
  have howns' : ∀ j, owns (update m.loc i c' j) = owns (m.loc j) := by
    intro j
    by_cases hj : j = i
    · subst hj; simp [hc, howns]
    · simp [hj]
  refine ⟨?_, ?_, fun j hj => ?_, fun j => ?_⟩
  · simpa only [howns'] using h.owner
  · simpa only [howns'] using h.locked
  · by_cases hji : j = i
    · subst hji
      simp only [update_self, hsigned, ← hc] at hj
      exact h.pid j hj
    · simp only [update_of_ne hji] at hj
      exact h.pid j hj
  · by_cases hji : j = i
    · subst hji; simpa using hknows
    · simpa [hji] using h.knows j

/-- While process `i` holds `lk->lk`, the others know nothing of the data that could change. -/
lemma knows_of_lock (hlock : Mon.LockInv (client pid) m) {i j : ι} (hi : m.lk = some i)
    (hj : j ≠ i) (h : Knows m.data (m.loc j)) (d : SleepLock) : Knows d (m.loc j) := by
  have hnot : ¬ Mon.Holds (client pid) (m.loc j) := by
    rw [← hlock.owner j, hi]
    simpa using Ne.symm hj
  rcases hc : m.loc j with l | l
  · rw [hc] at hnot
    cases l <;> first | trivial | exact absurd trivial hnot
  · rw [hc] at h
    exact h

lemma Inv.store (h : Inv pid m) (hlock : Mon.LockInv (client pid) m) {c' : MLoc SleepLockLoc}
    (hi : m.lk = some i)
    (hothers : ∀ j, j ≠ i → owns (m.loc j) = true → owns c' = false ∧ d' = m.data)
    (hlocked : d'.locked = true ↔ owns c' = true ∨ ∃ j, j ≠ i ∧ owns (m.loc j) = true)
    (hsigned : signed c' = true → d'.pid = pid i) (hknows : Knows d' c') :
    Inv pid ⟨m.lk, update m.loc i c', killed', d'⟩ := by
  refine ⟨fun j k hj hk => ?_, ?_, fun j hj => ?_, fun j => ?_⟩
  · by_cases hji : j = i <;> by_cases hki : k = i
    · exact hji.trans hki.symm
    · subst hji
      simp only [update_self, update_of_ne hki] at hj hk
      rw [(hothers k hki hk).1] at hj
      cases hj
    · subst hki
      simp only [update_self, update_of_ne hji] at hj hk
      rw [(hothers j hji hj).1] at hk
      cases hk
    · simp only [update_of_ne hji, update_of_ne hki] at hj hk
      exact h.owner j k hj hk
  · rw [hlocked]
    constructor
    · rintro (hc | ⟨j, hji, hj⟩)
      · exact ⟨i, by simpa using hc⟩
      · exact ⟨j, by simpa [hji] using hj⟩
    · rintro ⟨j, hj⟩
      by_cases hji : j = i
      · subst hji
        exact .inl (by simpa using hj)
      · exact .inr ⟨j, hji, by simpa [hji] using hj⟩
  · by_cases hji : j = i
    · subst hji
      exact hsigned (by simpa using hj)
    · simp only [update_of_ne hji] at hj
      rw [(hothers j hji (owns_of_signed hj)).2]
      exact h.pid j hj
  · by_cases hji : j = i
    · subst hji; simpa using hknows
    · simpa [hji] using knows_of_lock hlock hi hji (h.knows j) d'

lemma Inv.not_owns (h : Inv pid m) (hfree : m.data.locked = false) (j : ι) :
    ¬ owns (m.loc j) = true := by
  intro hj
  rw [h.locked.mpr ⟨j, hj⟩] at hfree
  cases hfree

section

variable (hpid : Function.Injective pid) (h : Inv pid m) (hlock : Mon.LockInv (client pid) m)
include hpid h hlock

lemma Inv.act {l l' : SleepLockLoc} {x : SleepLockCall}
    {f : SleepLock → Outcome Empty (SleepLockLoc × SleepLock)} (hl : m.loc i = .here l)
    (hlk : holds l → m.lk = some i) (hc : code pid i l x = .act f)
    (hf : f m.data = .next (l', d')) :
    Inv pid ⟨m.lk, update m.loc i (.here l'), m.killed, d'⟩ := by
  have hself := h.knows i
  rw [hl] at hself
  cases l with
  | idle | held => cases x <;> cases hc; cases hf
  | acqTest =>
    cases hc
    cases hf
    by_cases hk : m.data.locked = true
    · rw [if_pos hk]
      exact h.move hl rfl rfl hk
    · rw [if_neg hk]
      exact h.move hl rfl rfl (Bool.eq_false_of_not_eq_true hk)
  | acqSleep | acqRelease | relWakeup | relRelease | holdRelease b r => cases hc
  | acqLocked =>
    -- the lock is free, so nobody owns it
    cases hc
    cases hf
    have hnone := h.not_owns hself
    refine h.store hlock (hlk trivial) (fun j _ hj => absurd hj (hnone j)) ?_ (by simp [signed])
      trivial
    simp [owns]
  | acqPid =>
    cases hc
    cases hf
    have hown : owns (m.loc i) = true := by rw [hl]; rfl
    refine h.store hlock (hlk trivial) (fun j hji hj => absurd (h.owner j i hj hown) hji) ?_
      (fun _ => rfl) trivial
    simp [owns, h.locked.mpr ⟨i, hown⟩]
  | relLocked =>
    cases hc
    cases hf
    have hown : owns (m.loc i) = true := by rw [hl]; rfl
    refine h.store hlock (hlk trivial) (fun j hji hj => absurd (h.owner j i hj hown) hji) ?_
      (by simp [signed, owns]) rfl
    simp only [Bool.false_eq_true, owns, false_or, false_iff, not_exists, not_and]
    exact fun j hji hj => hji (h.owner j i hj hown)
  | relPid =>
    cases hc
    cases hf
    have hnone := h.not_owns hself
    refine h.store hlock (hlk trivial) (fun j _ hj => absurd hj (hnone j)) ?_
      (by simp [signed, owns]) trivial
    simp only [show m.data.locked = false from hself, owns, Bool.false_eq_true, false_or, false_iff,
      not_exists, not_and]
    exact fun j _ hj => hnone j hj
  | holdTest b =>
    cases hc
    cases hf
    refine h.move hl rfl rfl ?_
    cases b with
    | true =>
      have hown : owns (m.loc i) = true := by rw [hl]; rfl
      have hpid' := h.pid i (by rw [hl]; rfl)
      simp [Knows, h.locked.mpr ⟨i, hown⟩, hpid']
    | false =>
      -- another process owns the lock, if any, and is outside: its pid is in the lock
      simp only [Knows, Bool.and_eq_false_imp, beq_eq_false_iff_ne]
      intro hk heq
      obtain ⟨j, hj⟩ := h.locked.mp hk
      have hji : j ≠ i := by
        rintro rfl
        rw [hl] at hj
        cases hj
      have hsig : signed (m.loc j) = true := by
        have hnot : ¬ Mon.Holds (client pid) (m.loc j) := by
          rw [← hlock.owner j, hlk trivial]
          simpa using Ne.symm hji
        rcases hcj : m.loc j with k | k
        · rw [hcj] at hnot hj
          cases k <;> first | exact hj | exact absurd trivial hnot
        · rw [hcj] at hj
          cases hj
      exact hji (hpid ((h.pid j hsig).symm.trans heq))

lemma Inv.step {a : MAct ι SleepLockCall Empty}
    {m' : Mon ι SleepLockLoc SleepLock} (hs : Mon.Moves (client pid) m a m') : Inv pid m' := by
  have hlk : ∀ {i : ι} {l : SleepLockLoc}, m.loc i = .here l → holds l → m.lk = some i := by
    intro i l hl hh
    refine (hlock.owner i).mpr ?_
    rw [hl]
    exact hh
  cases hs with
  | @acquire i l l' x hl hc _ | @wakeup i l l' x ch hl hc =>
    cases l <;> cases x <;> cases hc <;> exact h.move hl rfl rfl trivial
  | @release i l l' x hl hc _ =>
    cases l <;> cases x <;> cases hc
    all_goals try exact h.move hl rfl rfl trivial
    all_goals
      next b r => cases b <;> exact h.move hl rfl rfl trivial
  | @sleep i l l' x ch hl hc _ => cases l <;> cases x <;> cases hc <;> exact h.move hl rfl rfl rfl
  | @killed i l yes no x hl hc => cases l <;> cases x <;> cases hc
  | @act i l l' x f d' hl hc hf => exact h.act hpid hlock hl (hlk hl) hc hf
  | @resume i l hl hfree =>
    have hself := h.knows i
    rw [hl] at hself
    obtain rfl : l = acqTest := hself
    exact h.move hl rfl rfl trivial
  | kill i => exact ⟨h.owner, h.locked, h.pid, h.knows⟩
  | @env y => exact y.elim

end

/-! ## No lost wakeup -/

/-- When nobody sleeps on the lock, for a process that holds `lk->lk`: as long as the lock is free,
except that between clearing `locked` and the end of `wakeup` somebody may be asleep. -/
def quiet : SleepLockLoc → SleepLock → Prop
  | relLocked, _ => False
  | relPid, _ => False
  | relWakeup, _ => False
  | relRelease, _ => True
  | _, lk => lk.locked = false

def wakeSpec (pid : ι → ℕ) : WakeSpec (client pid) (Inv pid) fun _ _ => True where
  ready := fun _ lk => lk.locked = false
  quiet := fun _ l lk _ => quiet l lk
  acquire := by
    intro m i l x l' c hI hl hc hq
    cases l <;> cases x <;> cases hc <;> first | exact hq | exact hq.elim
  resume := by
    intro m i l c hI hl hq
    have hself := hI.knows i
    rw [hl] at hself
    obtain rfl : l = acqTest := hself
    exact hq
  release := by
    intro m i l x l' c hI hl hc hr
    cases l <;> cases x <;> cases hc <;> first | exact hr | trivial
  sleep := by
    intro m i l x ch l' c hI hl hc hr
    have hself := hI.knows i
    rw [hl] at hself
    cases l <;> cases x <;> cases hc
    all_goals
      rw [show m.data.locked = true from hself] at hr
      cases hr
  wakeup := fun _ _ _ _ => .inr rfl
  killed := by
    intro m i l x yes no c hI _ hl hc
    cases l <;> cases x <;> cases hc
  act := by
    intro m i l x f l' d' c hI hl hc hf hq
    cases l <;> cases x <;> cases hc <;> cases hf <;>
      try first | exact hq.elim | exact hq | exact (nomatch (show true = false from hq))
    all_goals
      -- what is left is the test in `acquiresleep`
      by_cases hk : m.data.locked = true
      · rw [if_pos hk] at hq
        exact hq
      · rw [if_neg hk] at hq
        exact hq
  env := fun {y} => y.elim

/-- The system of any number of processes that use one sleep lock. -/
abbrev Sys (ι : Type) := SW ι Unit SleepLockLoc SleepLock SleepLockCall

/-- After `initsleeplock`, with no process inside any of the functions. -/
structure Initial (s : Sys ι) : Prop where
  lk : s.lk = none
  state : ∀ i, s.state i = .running
  pc : ∀ i, s.pc i = .here idle
  data : s.data = ⟨false, 0⟩

/-- Process `i` is between a completed `acquiresleep` and its `releasesleep`; it may be inside
`holdingsleep`. -/
def Holding (s : Sys ι) (i : ι) : Prop :=
  s.pc i = .here held ∨ s.pc i = .here (holdTest true) ∨ ∃ r, s.pc i = .here (holdRelease true r)

lemma Initial.inv {s : Sys ι} (h : Initial s) (pid : ι → ℕ) : Inv pid s.proj := by
  have hloc : ∀ i, s.proj.loc i = .here idle := fun i => by simp [SW.proj, h.pc i, SW.locOf]
  have hdata : s.proj.data.locked = false := by simp [SW.proj, h.data]
  exact ⟨by simp [hloc, owns], by simp [hloc, owns, hdata], by simp [hloc, signed, owns],
    by simp [hloc, Knows]⟩

lemma Initial.sw {s : Sys ι} (h : Initial s) (pid : ι → ℕ) : SW.Initial (client pid) s :=
  ⟨h.lk, h.state, fun i => ⟨idle, h.pc i, fun hf => hf⟩⟩

lemma signed_of_holding {s : Sys ι} (h : Holding s i) : signed (s.proj.loc i) = true := by
  rcases h with h | h | ⟨r, h⟩ <;> simp [SW.proj, h, SW.locOf, signed, owns]

/-- Outside `lk->lk`, to own the sleep lock is to be at `held`. -/
lemma holding_of_owns {s : Sys ι} (hlock : Mon.LockInv (client pid) s.proj) (hfree : s.lk = none)
    (h : owns (s.proj.loc i) = true) (hinv : SW.Inv (client pid) s) : Holding s i := by
  have hnot : ¬ Mon.Holds (client pid) (s.proj.loc i) := by
    rw [← hlock.owner i]
    simp [SW.proj, hfree]
  have hin : ∀ {l x c}, (client pid).code i l x = c → c.Respects holds l :=
    fun hc => hc ▸ (client pid).respects i _ _
  have hpc := hinv i
  rcases hp : s.pc i with l | ⟨l, x, ch, l'⟩ | _ | _ | _ | _ | _ | ⟨l, x, ch, todo, l'⟩ |
    ⟨l, x, ch, j, todo, l'⟩ <;> simp only [SW.proj, hp, SW.locOf] at h hnot
  case here =>
    cases l <;> first | exact .inl hp | exact absurd trivial hnot | cases h
  case sleepRelease | scan | scanHeld =>
    rw [hp] at hpc
    exact absurd (hin hpc.1).1 hnot
  all_goals cases h

end SleepLock

variable {ι : Type} [DecidableEq ι]

open SleepLock in
/-- **Sleep locks.**  For any number of processes with different pids, whatever the interleaving of
the steps of their calls, of `sleep` and `wakeup`, and of kills: at most one process holds the sleep
lock; while one does, `lk->locked` is set and `lk->pid` is its pid; conversely, when `lk->lk` is
free and `lk->locked` is set, there is such a process; and when `lk->lk` is free and `lk->locked` is
clear, nobody sleeps on the lock. -/
theorem sleeplock_exclusion {pid : ι → ℕ} (hpid : Function.Injective pid) {table : List ι}
    (htable : ∀ i, i ∈ table) {s0 s : Sys ι} {as : List (SWAct ι SleepLockCall Empty)}
    (h0 : Initial s0) (hrun : Run (SW.step (client pid) table) s0 as s) :
    (∀ i j, Holding s i → Holding s j → i = j) ∧
    (∀ i, Holding s i → s.data.locked = true ∧ s.data.pid = pid i) ∧
    (s.lk = none → s.data.locked = true → ∃ i, Holding s i ∧ s.data.pid = pid i) ∧
    (s.lk = none → s.data.locked = false →
    ∀ i, ¬ (s.state i = .sleeping ∧ s.chan i = some ())) := by
  have hI : ∀ m a m', Inv pid m → Mon.LockInv (client pid) m → True →
      Mon.Moves (client pid) m a m' → Inv pid m' := fun _ _ _ h hlock _ hm => h.step hpid hlock hm
  have hrun' : RunOf (SW.step (client pid) table) (SW.Allowed (client pid) fun _ _ => True)
      s0 as s :=
    hrun.toRunOf.mono fun _ _ _ _ _ => trivial
  obtain ⟨hsw, hlock, hinv⟩ := SW.mon_invariant hI (h0.sw pid) (h0.inv pid) hrun'
  have hown : ∀ {i}, Holding s i → owns (s.proj.loc i) = true :=
    fun h => owns_of_signed (signed_of_holding h)
  refine ⟨fun i j hi hj => hinv.owner i j (hown hi) (hown hj), fun i hi => ?_, fun hfree hk => ?_,
    fun hfree hk i hi => ?_⟩
  · exact ⟨hinv.locked.mpr ⟨i, hown hi⟩, hinv.pid i (signed_of_holding hi)⟩
  · obtain ⟨i, hi⟩ := hinv.locked.mp hk
    have hh := holding_of_owns hlock hfree hi hsw
    exact ⟨i, hh, hinv.pid i (signed_of_holding hh)⟩
  · exact (wakeSpec pid).no_lost_wakeup htable hI (h0.sw pid) (h0.inv pid) hrun' hfree hk i
      (.inr hi)

/-- Two processes, before their first call. -/
def sampleSleepLock : SleepLock.Sys Bool := .fresh .idle ⟨false, 0⟩

/-- Process `false` acquires the lock; `true` finds it taken and goes to sleep; `false` releases it,
waking `true`, which has not been scheduled yet. -/
def sampleSleepLockActs : List (SWAct Bool SleepLockCall Empty) :=
  List.replicate 5 (.run false .acquiresleep) ++ List.replicate 6 (.run true .acquiresleep) ++
    List.replicate 9 (.run false .releasesleep)

theorem sleeplock_exclusion_sample :
    ∃ s, Run (SW.step (SleepLock.client fun b => if b then 2 else 1) [false, true]) sampleSleepLock
        sampleSleepLockActs s ∧ s.lk = none ∧ s.state true = .runnable ∧
      ¬ (s.state true = .sleeping ∧ s.chan true = some ()) := by
  have hpid : Function.Injective fun b : Bool => if b then 2 else 1 := by decide
  have h0 : SleepLock.Initial sampleSleepLock := ⟨rfl, fun _ => rfl, fun _ => rfl, rfl⟩
  have hrun : Run (SW.step (SleepLock.client fun b => if b then 2 else 1) [false, true])
      sampleSleepLock sampleSleepLockActs _ := Run.of_exec rfl
  obtain ⟨-, -, -, hsleep⟩ := sleeplock_exclusion hpid (by decide) h0 hrun
  exact ⟨_, hrun, rfl, rfl, hsleep rfl rfl true⟩

end Xv6
