import Xv6.Lib.Count
import Xv6.Log.GroupCommit

/-!
# Space in the log

`begin_op` admits an operation if `MAXOPBLOCKS` blocks for it and for every operation that is
running still fit into the log. Nothing records what an operation has used of its share: the test
counts what is in the header once more. `LogSpace` keeps the blocks that each running operation has
logged beside `struct log`, as history.

**The reserve.**  What is in the header and what the running operations may still add together never
exceed `LOGBLOCKS` (`Fits.active`). A block that is new in the header is new for its operation,
whose share gets smaller by one; a block that was there already costs nothing.

**The panic.**  `log_write` compares `log.lh.n` with `LOGBLOCKS` before it looks for the block in
the header. Three operations of `MAXOPBLOCKS` blocks fill the log, as they may; when one of them
then logs one of its blocks again, which needs no space, the kernel panics (`log_full_panics`).
There is no other way into the panic (`log_space_iff`).
-/

namespace Xv6

open Function Finset LogSys

/-- Where a process is; `own` is the set of blocks that its operation has logged. -/
inductive SpaceProc where
  | idle
  | inOp (own : Finset ℕ)
  | commit
  | finish
  deriving DecidableEq

/-- The log, and where each process is in its operation. -/
structure LogSpace (P : Type) where
  log : Log
  proc : P → SpaceProc

/-- A `begin_op` that goes to sleep changes nothing and is tried again. -/
inductive SpaceAct (P : Type) where
  | beginOp (p : P)
  | logWrite (p : P) (b : ℕ)
  | endOp (p : P)
  | commit (p : P)

namespace SpaceProc

/-- How many blocks the operation may still add. -/
def share : SpaceProc → ℕ
  | .inOp own => MAXOPBLOCKS - own.card
  | _ => 0

def active : SpaceProc → Bool
  | .inOp _ => true
  | _ => false

def commits : SpaceProc → Bool
  | .commit => true
  | .finish => true
  | _ => false

lemma share_le (c : SpaceProc) : c.share ≤ MAXOPBLOCKS := by
  cases c with
  | inOp own => exact Nat.sub_le ..
  | _ => exact Nat.zero_le _

end SpaceProc

variable {P : Type} [DecidableEq P]

namespace LogSpace

def step (s : LogSpace P) : SpaceAct P → Outcome LogPanic (LogSpace P)
  | .beginOp p =>
    match s.proc p with
    | .idle =>
      if s.log.committing then .disabled
      else if s.log.lh.n + (s.log.outstanding + 1) * MAXOPBLOCKS > LOGBLOCKS then .disabled
      else .next {
        log := { s.log with outstanding := s.log.outstanding + 1 }
        proc := update s.proc p (.inOp ∅) }
    | _ => .disabled
  | .logWrite p b =>
    match s.proc p with
    | .inOp own =>
      if s.log.lh.n ≥ LOGBLOCKS then .panic .tooBigATransaction
      else if s.log.outstanding < 1 then .panic .logWriteOutsideOfTrans
      else .next {
        log := { s.log with lh := logAbsorb s.log.lh b }
        proc := update s.proc p (.inOp (insert b own)) }
    | _ => .disabled
  | .endOp p =>
    match s.proc p with
    | .inOp _ =>
      if s.log.committing then .panic .logCommitting
      else if s.log.outstanding - 1 = 0 then .next {
        log := { s.log with outstanding := s.log.outstanding - 1, committing := true }
        proc := update s.proc p .commit }
      else .next {
        log := { s.log with outstanding := s.log.outstanding - 1 }
        proc := update s.proc p .idle }
    | _ => .disabled
  | .commit p =>
    match s.proc p with
    | .commit => .next { log := s.log.clear, proc := update s.proc p .finish }
    | .finish => .next {
        log := { s.log with committing := false, ncommit := s.log.ncommit + 1 }
        proc := update s.proc p .idle }
    | _ => .disabled

/-- The log as `initlog` leaves it. -/
structure Initial (s : LogSpace P) : Prop where
  n_eq : s.log.lh.n = 0
  outstanding : s.log.outstanding = 0
  committing : s.log.committing = false
  idle : ∀ p, s.proc p = .idle

/-- The operation logs at most `MAXOPBLOCKS` distinct blocks. -/
def SmallOp (s : LogSpace P) : SpaceAct P → Prop
  | .logWrite p b => ∀ own, s.proc p = .inOp own → (insert b own).card ≤ MAXOPBLOCKS
  | _ => True

/-- An operation logs one of its blocks again while the log is full. -/
def RelogsFull (s : LogSpace P) : SpaceAct P → Prop
  | .logWrite p b => s.log.lh.n = LOGBLOCKS ∧ ∃ own, s.proc p = .inOp own ∧ b ∈ own
  | _ => False

/-- The reserved space is enough for the step. -/
structure Suffices (s : LogSpace P) (a : SpaceAct P) : Prop where
  bound : s.log.lh.n ≤ LOGBLOCKS
  index : ∀ p b s', a = .logWrite p b → s.step a = .next s' →
    logSlot s.log.lh b < LOGBLOCKS ∧ s'.log.lh.n ≤ LOGBLOCKS
  safe : s.step a ≠ .panic .tooBigATransaction

/-! ## The reserve -/

def InHeader (lh : LogHeader) (b : ℕ) : Prop := ∃ i : ℕ, (i : ℤ) < lh.n ∧ lh.block i = b

variable {b : ℕ} {own : Finset ℕ}

lemma inHeader_absorb {lh : LogHeader} (hn : 0 ≤ lh.n) {c : ℕ} (h : c = b ∨ InHeader lh c) :
    InHeader (logAbsorb lh b) c := by
  rcases logAbsorb_cases hn b with ⟨-, hsame, hin⟩ | ⟨-, hn', hblk, -⟩
  · rw [hsame]
    exact h.elim (fun hc => hc ▸ hin) id
  · obtain rfl | ⟨i, hi, hic⟩ := h
    · refine ⟨lh.n.toNat, by omega, ?_⟩
      rw [hblk, update_self]
    · refine ⟨i, by omega, ?_⟩
      rw [hblk, update_of_ne (by omega), hic]

/-- Every running operation can still log its `MAXOPBLOCKS` blocks. -/
structure Fits (s : LogSpace P) : Prop where
  n_nonneg : 0 ≤ s.log.lh.n
  active : ∃ S : Finset P, (∀ p, p ∈ S ↔ (s.proc p).active) ∧ s.log.outstanding = S.card ∧
    s.log.lh.n + (∑ p ∈ S, (s.proc p).share : ℕ) ≤ LOGBLOCKS
  small : ∀ p own, s.proc p = .inOp own → own.card ≤ MAXOPBLOCKS
  logged : ∀ p own, s.proc p = .inOp own → ∀ b ∈ own, InHeader s.log.lh b
  quiet : s.log.committing = true → s.log.outstanding = 0
  committer : ∀ p, (s.proc p).commits → s.log.committing = true
  unique : ∀ p q, (s.proc p).commits → (s.proc q).commits → p = q

variable {s s' s0 : LogSpace P} {p : P} {c : SpaceProc} {a : SpaceAct P}

lemma Initial.fits (h : s.Initial) : s.Fits where
  n_nonneg := h.n_eq.ge
  active := ⟨∅, by simp [h.idle, SpaceProc.active], by simp [h.outstanding], by simp [h.n_eq]⟩
  small p own hp := by simp [h.idle] at hp
  logged p own hp := by simp [h.idle] at hp
  quiet hc := by simp [h.committing] at hc
  committer p hp := by simp [h.idle, SpaceProc.commits] at hp
  unique p q hp := by simp [h.idle, SpaceProc.commits] at hp

lemma Fits.n_le (h : s.Fits) : s.log.lh.n ≤ LOGBLOCKS := by
  obtain ⟨S, -, -, hsum⟩ := h.active
  omega

lemma Fits.no_op (h : s.Fits) (hc : s.log.committing = true) (q : P) :
    (s.proc q).active = false := by
  obtain ⟨S, hS, hout, -⟩ := h.active
  have hcard := h.quiet hc
  have hempty : S = ∅ := card_eq_zero.mp (by omega)
  rw [hempty] at hS
  simpa using hS q

lemma Fits.moved (h : s.Fits) {log : Log} (hn : 0 ≤ log.lh.n)
    (hactive : ∃ S : Finset P, (∀ q, q ∈ S ↔ (update s.proc p c q).active) ∧
      log.outstanding = S.card ∧
      log.lh.n + (∑ q ∈ S, (update s.proc p c q).share : ℕ) ≤ LOGBLOCKS)
    (hown : ∀ own, c = .inOp own → own.card ≤ MAXOPBLOCKS ∧ ∀ b ∈ own, InHeader log.lh b)
    (hkeep : ∀ q, q ≠ p → (s.proc q).active → ∀ b, InHeader s.log.lh b → InHeader log.lh b)
    (hquiet : log.committing = true → log.outstanding = 0)
    (hcom : c.commits → log.committing = true ∧ (s.log.committing = false ∨ (s.proc p).commits))
    (hother : ∀ q, q ≠ p → (s.proc q).commits → log.committing = true) :
    Fits ⟨log, update s.proc p c⟩ := by
  have hne : c.commits → ∀ q, q ≠ p → ¬ (s.proc q).commits := by
    intro hc q hq hcq
    rcases (hcom hc).2 with hno | hp
    · cases hno.symm.trans (h.committer q hcq)
    · exact hq (h.unique q p hcq hp)
  refine ⟨hn, hactive, ?_, ?_, hquiet, ?_, ?_⟩
  · intro q own (hq : update s.proc p c q = .inOp own)
    by_cases hqp : q = p
    · subst hqp
      rw [update_self] at hq
      exact (hown own hq).1
    · rw [update_of_ne hqp] at hq
      exact h.small q own hq
  · intro q own (hq : update s.proc p c q = .inOp own) b hb
    by_cases hqp : q = p
    · subst hqp
      rw [update_self] at hq
      exact (hown own hq).2 b hb
    · rw [update_of_ne hqp] at hq
      exact hkeep q hqp (by rw [hq]; rfl) b (h.logged q own hq b hb)
  · intro q (hq : (update s.proc p c q).commits)
    by_cases hqp : q = p
    · subst hqp
      rw [update_self] at hq
      exact (hcom hq).1
    · rw [update_of_ne hqp] at hq
      exact hother q hqp hq
  · intro q r (hq : (update s.proc p c q).commits) (hr : (update s.proc p c r).commits)
    by_cases hqp : q = p <;> by_cases hrp : r = p
    · rw [hqp, hrp]
    · subst hqp
      rw [update_self] at hq
      rw [update_of_ne hrp] at hr
      exact absurd hr (hne hq r hrp)
    · subst hrp
      rw [update_self] at hr
      rw [update_of_ne hqp] at hq
      exact absurd hq (hne hr q hqp)
    · rw [update_of_ne hqp] at hq
      rw [update_of_ne hrp] at hr
      exact h.unique q r hq hr

lemma mem_update_iff {S : Finset P} (hS : ∀ q, q ∈ S ↔ (s.proc q).active)
    (hc : c.active = (s.proc p).active) (q : P) :
    q ∈ S ↔ (update s.proc p c q).active := by
  by_cases hq : q = p
  · subst hq
    rw [update_self, hc, hS]
  · rw [update_of_ne hq, hS]

lemma Fits.beginOp (h : s.Fits) (hp : s.proc p = .idle) (hc : s.log.committing = false)
    (hroom : ¬ s.log.lh.n + (s.log.outstanding + 1) * MAXOPBLOCKS > LOGBLOCKS) :
    Fits ⟨{ s.log with outstanding := s.log.outstanding + 1 }, update s.proc p (.inOp ∅)⟩ := by
  obtain ⟨S, hS, hout, -⟩ := h.active
  have hpS : p ∉ S := by simp [hS, hp, SpaceProc.active]
  refine h.moved h.n_nonneg ⟨insert p S, ?_, ?_, ?_⟩ ?_ (fun _ _ _ _ hb => hb) ?_ nofun ?_
  · intro q
    by_cases hq : q = p
    · subst hq
      simp [SpaceProc.active]
    · simp [hq, hS]
  · rw [card_insert_of_notMem hpS]
    push_cast
    omega
  · have hle : ∑ q ∈ insert p S, (update s.proc p (.inOp ∅) q).share ≤
        (insert p S).card * MAXOPBLOCKS :=
      sum_le_card_nsmul _ _ _ fun q _ => SpaceProc.share_le _
    rw [card_insert_of_notMem hpS] at hle
    simp only [MAXOPBLOCKS, LOGBLOCKS] at *
    omega
  · rintro own ⟨⟩
    simp
  · intro hcom
    cases hc.symm.trans hcom
  · exact fun q _ => h.committer q

/-- **`log_write`**: a block that is new in the header is new for the operation. -/
lemma Fits.logWrite (h : s.Fits) (hp : s.proc p = .inOp own)
    (hsmall : (insert b own).card ≤ MAXOPBLOCKS) :
    Fits ⟨{ s.log with lh := logAbsorb s.log.lh b }, update s.proc p (.inOp (insert b own))⟩ := by
  obtain ⟨S, hS, hout, hsum⟩ := h.active
  have hpS : p ∈ S := by simp [hS, hp, SpaceProc.active]
  have hupd := sum_update_add hpS SpaceProc.share s.proc (.inOp (insert b own))
  have hle := card_le_card (subset_insert b own)
  have hspace : 0 ≤ (logAbsorb s.log.lh b).n ∧ (logAbsorb s.log.lh b).n +
      (∑ q ∈ S, (update s.proc p (.inOp (insert b own)) q).share : ℕ) ≤ LOGBLOCKS := by
    rw [hp] at hupd
    change _ + (MAXOPBLOCKS - own.card) = _ + (MAXOPBLOCKS - (insert b own).card) at hupd
    have hn := h.n_nonneg
    rcases logAbsorb_cases hn b with ⟨-, hsame, -⟩ | ⟨-, hn', -, hnew⟩
    · rw [hsame]
      omega
    · have hb : b ∉ own := by
        intro hb
        obtain ⟨i, hi, hib⟩ := h.logged p own hp b hb
        exact hnew i hi hib
      rw [card_insert_of_notMem hb] at hupd hsmall
      rw [hn']
      omega
  refine h.moved hspace.1 ⟨S, mem_update_iff hS (by rw [hp]; rfl), hout, hspace.2⟩ ?_ ?_ h.quiet
    nofun fun q _ => h.committer q
  · rintro own' ⟨⟩
    refine ⟨hsmall, fun c hc => inHeader_absorb h.n_nonneg ?_⟩
    exact (mem_insert.mp hc).imp_right (h.logged p own hp c)
  · exact fun q _ _ c hc => inHeader_absorb h.n_nonneg (.inr hc)

lemma Fits.endOp {com : Bool} (h : s.Fits) (hp : s.proc p = .inOp own)
    (hc : s.log.committing = false) (hcom : com = true → s.log.outstanding - 1 = 0)
    (hact : c.active = false) (hcc : c.commits = com) :
    Fits ⟨{ s.log with outstanding := s.log.outstanding - 1, committing := com },
      update s.proc p c⟩ := by
  obtain ⟨S, hS, hout, hsum⟩ := h.active
  have hpS : p ∈ S := by simp [hS, hp, SpaceProc.active]
  have hcard := card_erase_of_mem hpS
  have hpos := card_pos.mpr ⟨p, hpS⟩
  refine h.moved h.n_nonneg ⟨S.erase p, ?_, ?_, ?_⟩ ?_ (fun _ _ _ _ hb => hb) hcom ?_ ?_
  · intro q
    by_cases hq : q = p
    · subst hq
      simp [hact]
    · simp [hq, hS]
  · show s.log.outstanding - 1 = _
    omega
  · have hle : ∑ q ∈ S.erase p, (update s.proc p c q).share ≤ ∑ q ∈ S, (s.proc q).share := by
      rw [← sum_erase_add S _ hpS]
      refine (sum_congr rfl fun q hq => ?_).le.trans (Nat.le_add_right ..)
      rw [update_of_ne (ne_of_mem_erase hq)]
    show s.log.lh.n + _ ≤ _
    omega
  · rintro own' rfl
    cases hact
  · exact fun hc' => ⟨hcc ▸ hc', .inl hc⟩
  · intro q _ hq
    cases hc.symm.trans (h.committer q hq)

lemma Fits.commits {log : Log} (h : s.Fits) (hp : (s.proc p).commits) (hc : c.active = false)
    (hn : 0 ≤ log.lh.n) (hle : log.lh.n ≤ s.log.lh.n) (hout : log.outstanding = s.log.outstanding)
    (hcom : c.commits = log.committing) : Fits ⟨log, update s.proc p c⟩ := by
  have hcommitting := h.committer p hp
  have hzero := h.quiet hcommitting
  obtain ⟨S, hS, houtS, hsum⟩ := h.active
  have hact := h.no_op hcommitting p
  have hpS : p ∉ S := by simp [hS, hact]
  have hsame : ∑ q ∈ S, (update s.proc p c q).share = ∑ q ∈ S, (s.proc q).share := by
    refine sum_congr rfl fun q hq => ?_
    rw [update_of_ne (ne_of_mem_of_not_mem hq hpS)]
  refine h.moved hn ⟨S, mem_update_iff hS (hc.trans hact.symm), hout.trans houtS, ?_⟩ ?_ ?_
    (fun _ => hout.trans hzero) (fun hcc => ⟨hcom ▸ hcc, .inr hp⟩) ?_
  · rw [hsame]
    omega
  · rintro own rfl
    cases hc
  · intro q _ hq
    cases (h.no_op hcommitting q).symm.trans hq
  · exact fun q hq hcq => absurd (h.unique q p hcq hp) hq

lemma Fits.step (h : s.Fits) (ha : s.SmallOp a) (hs : s.step a = .next s') : s'.Fits := by
  cases a with
  | beginOp p =>
    simp only [LogSpace.step] at hs
    split at hs
    · next hp =>
      split_ifs at hs with hc hroom
      cases hs
      exact h.beginOp hp (by simpa using hc) hroom
    · cases hs
  | logWrite p b =>
    simp only [LogSpace.step] at hs
    split at hs
    · next own hp =>
      split_ifs at hs
      cases hs
      exact h.logWrite hp (ha own hp)
    · cases hs
  | endOp p =>
    simp only [LogSpace.step] at hs
    split at hs
    · next own hp =>
      split_ifs at hs with hc hlast <;> cases hs
      · exact h.endOp hp (by simpa using hc) (fun _ => hlast) rfl rfl
      · have hc' : s.log.committing = false := by simpa using hc
        exact h.endOp hp hc' (fun hcom => nomatch hc'.symm.trans hcom) rfl hc'.symm
    · cases hs
  | commit p =>
    simp only [LogSpace.step] at hs
    split at hs
    · next hp =>
      cases hs
      have hcom := h.committer p (by rw [hp]; rfl)
      exact h.commits (by rw [hp]; rfl) rfl le_rfl h.n_nonneg rfl hcom.symm
    · next hp =>
      cases hs
      exact h.commits (by rw [hp]; rfl) rfl h.n_nonneg le_rfl rfl rfl
    · cases hs

/-! ## The panic -/

lemma Fits.own_of_full (h : s.Fits) (hp : s.proc p = .inOp own)
    (hfull : s.log.lh.n ≥ LOGBLOCKS) (hsmall : (insert b own).card ≤ MAXOPBLOCKS) : b ∈ own := by
  obtain ⟨S, hS, -, hsum⟩ := h.active
  have hpS : p ∈ S := by simp [hS, hp, SpaceProc.active]
  have hshare := single_le_sum (f := fun q => (s.proc q).share) (fun _ _ => Nat.zero_le _) hpS
  simp only [hp] at hshare
  change MAXOPBLOCKS - own.card ≤ _ at hshare
  by_contra hb
  rw [card_insert_of_notMem hb] at hsmall
  omega

lemma Fits.suffices_iff (h : s.Fits) (ha : s.SmallOp a) : s.Suffices a ↔ ¬ s.RelogsFull a := by
  constructor
  · intro hsuf hre
    cases a with
    | logWrite p b =>
      obtain ⟨hfull, own, hp, -⟩ := hre
      refine hsuf.safe ?_
      simp only [LogSpace.step, hp, hfull.ge, if_true]
    | _ => exact hre
  · intro hre
    refine ⟨h.n_le, ?_, fun hpanic => ?_⟩
    · rintro p b s' rfl hs
      refine ⟨?_, (h.step ha hs).n_le⟩
      simp only [LogSpace.step] at hs
      split at hs
      · split at hs
        · cases hs
        · next hn =>
          have hslot := logSlot_cases s.log.lh b
          simp only [LOGBLOCKS, MAXOPBLOCKS] at *
          omega
      · cases hs
    · cases a with
      | logWrite p b =>
        simp only [LogSpace.step] at hpanic
        split at hpanic
        · next own hp =>
          split at hpanic
          · next hfull =>
            exact hre ⟨le_antisymm h.n_le hfull, own, hp, h.own_of_full hp hfull (ha own hp)⟩
          · split at hpanic <;> cases hpanic
        · cases hpanic
      | _ =>
        simp only [LogSpace.step] at hpanic
        repeat' split at hpanic
        all_goals cases hpanic

/-- **The reserved space suffices, except for an operation that logs one of its blocks again while
the log is full.** -/
theorem log_space_iff {as : List (SpaceAct P)} {a : SpaceAct P} (h0 : s0.Initial)
    (hrun : RunOf LogSpace.step LogSpace.SmallOp s0 as s) (ha : s.SmallOp a) :
    s.Suffices a ↔ ¬ s.RelogsFull a :=
  (hrun.invariant (fun _ _ _ h hok hs => h.step hok hs) h0.fits).suffices_iff ha

end LogSpace

/-! ## Runs -/

/-- An empty log. -/
def emptyLog (P : Type) : LogSpace P := ⟨⟨2, 0, false, 0, ⟨0, fun _ => 0⟩⟩, fun _ => .idle⟩

lemma emptyLog_initial (P : Type) : (emptyLog P).Initial := ⟨rfl, rfl, rfl, fun _ => rfl⟩

def smallOpTest (s : LogSpace P) : SpaceAct P → Bool
  | .logWrite p b =>
    match s.proc p with
    | .inOp own => decide ((insert b own).card ≤ MAXOPBLOCKS)
    | _ => true
  | _ => true

lemma smallOp_of_test (s : LogSpace P) (a : SpaceAct P) (h : smallOpTest s a) : s.SmallOp a := by
  cases a with
  | logWrite p b =>
    intro own hp
    simpa [smallOpTest, hp] using h
  | _ => trivial

/-- An operation logs a block twice. -/
theorem log_space_sample : ∃ s : LogSpace Bool,
    RunOf LogSpace.step LogSpace.SmallOp (emptyLog Bool) [.beginOp true, .logWrite true 40] s ∧
      s.Suffices (.logWrite true 40) := by
  have hrun : RunOf LogSpace.step LogSpace.SmallOp (emptyLog Bool)
      [.beginOp true, .logWrite true 40] _ := RunOf.of_exec smallOp_of_test rfl
  refine ⟨_, hrun, (LogSpace.log_space_iff (emptyLog_initial Bool) hrun ?_).mpr ?_⟩
  · rintro own ⟨⟩
    decide
  · rintro ⟨hfull, -⟩
    exact absurd hfull (by decide)

/-- Three operations log ten blocks each. -/
def fillLog : List (SpaceAct ℕ) :=
  [.beginOp 0, .beginOp 1, .beginOp 2] ++
    (List.range 3).flatMap fun p => (List.range MAXOPBLOCKS).map fun i => .logWrite p (100 * p + i)

/-- The log is full, and the first operation logs its first block again. -/
theorem log_full_panics : ∃ s : LogSpace ℕ, (emptyLog ℕ).Initial ∧
    RunOf LogSpace.step LogSpace.SmallOp (emptyLog ℕ) fillLog s ∧ s.SmallOp (.logWrite 0 0) ∧
      s.step (.logWrite 0 0) = .panic .tooBigATransaction := by
  have hrun : RunOf LogSpace.step LogSpace.SmallOp (emptyLog ℕ) fillLog _ :=
    RunOf.of_exec smallOp_of_test rfl
  exact ⟨_, emptyLog_initial ℕ, hrun, smallOp_of_test _ _ rfl, rfl⟩

end Xv6
