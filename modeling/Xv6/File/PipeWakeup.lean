import Xv6.File.Pipe

/-!
# Wakeups on a pipe

A process sleeps in `piperead` while the pipe is empty and in `pipewrite` while it is full. Whoever
makes data, space or a closed end visible has to wake up the other side before it releases
`pi->lock`, on each of its exits.

One exit does not: when `pipewrite` finds its process killed, it returns at once, and bytes it has
stored since its last `wakeup(&pi->nread)` are not announced. `pipewrite_killed_loses_wakeup` is a
run that ends with a reader asleep on a pipe that has a byte in it.

`KillOk` rules this out: a `pipewrite` that finds its process killed has stored nothing since its
last `wakeup(&pi->nread)`. On runs whose steps meet it no wakeup is lost, as an instance of
`WakeSpec.no_lost_wakeup`; `quiet` says for each control point which channels nobody sleeps on.
-/

namespace Xv6.PipeHist

open PipeLoc

variable {ι : Type} [DecidableEq ι]

/-- The condition on a step: if it is the test of `killed(pr)` in `pipewrite` and the process has
been killed, no byte has been stored since the last `wakeup(&pi->nread)`. -/
def KillOk (s : Sys ι) (a : SWAct ι PipeIn Empty) : Prop :=
  ∀ p x c, a = .run p x → s.proj.loc p = .here (wKilled c) → s.killed p = true → c.told = c.i

/-- The same for the steps of the monitor. -/
def MonKillOk (m : Mon ι PipeLoc (PipeHist ι)) (a : MAct ι PipeIn Empty) : Prop :=
  ∀ p x c, a = .run p x → m.loc p = .here (wKilled c) → m.killed p = true → c.told = c.i

omit [DecidableEq ι] in
lemma KillOk.allowed {s : Sys ι} {a : SWAct ι PipeIn Empty} (h : KillOk s a) :
    SW.Allowed (client ι) MonKillOk s a := by
  rintro b hb p x c rfl hloc hk
  cases a with
  | run q y =>
    have hqp : q = p := by
      simp only [SW.act?] at hb
      split at hb
      · split at hb <;> simp_all
      all_goals simp_all
    subst hqp
    exact h q y c rfl hloc hk
  | dispatch q | kill q => simp [SW.act?] at hb
  | env y => exact y.elim

/-- A `pipewrite` that is about to fail has announced every byte it has stored. -/
def Announced (m : Mon ι PipeLoc (PipeHist ι)) : Prop :=
  ∀ p c, m.loc p = .here (wFail c) → c.told = c.i

variable {m m' : Mon ι PipeLoc (PipeHist ι)} {d : PipeHist ι} {ch : PipeChan}

lemma Announced.move (h : Announced m) {p : ι} {l' : MLoc PipeLoc} {lk' : Option ι}
    {killed' : ι → Bool} {d' : PipeHist ι} (hl' : ∀ c, l' = .here (wFail c) → c.told = c.i) :
    Announced ⟨lk', Function.update m.loc p l', killed', d'⟩ := by
  intro q c hq
  by_cases hqp : q = p
  · subst hqp
    exact hl' c (by simpa using hq)
  · simp only [Function.update_of_ne hqp] at hq
    exact h q c hq

lemma Announced.step (h : Announced m) (hinv : Inv m) {a : MAct ι PipeIn Empty}
    (hok : MonKillOk m a) (hs : Mon.Moves (client ι) m a m') : Announced m' := by
  cases hs with
  | acquire hl hc _ =>
    refine h.move fun c hl' => ?_
    obtain ⟨k, rfl, ⟨n, rfl⟩ | ⟨n, rfl⟩ | ⟨w, rfl⟩⟩ := code_acquire hc <;> cases hl'
  | release hl hc _ =>
    refine h.move fun c hl' => ?_
    rcases code_release hc with ⟨c, rfl, rfl⟩ | ⟨c, rfl, rfl⟩ | ⟨k, rfl, rfl⟩ | ⟨k, r, rfl, rfl⟩ |
      ⟨k, w, b, rfl, rfl⟩ <;> cases hl'
  | sleep hl hc _ => exact h.move fun c hl' => by cases hl'
  | wakeup hl hc =>
    refine h.move fun c hl' => ?_
    rcases code_wakeup hc with ⟨c, rfl, rfl, rfl⟩ | ⟨c, rfl, rfl, rfl⟩ | ⟨k, r, rfl, rfl, rfl⟩ |
      ⟨k, w, rfl, rfl, rfl⟩ <;> cases hl'
  | @killed p l yes no x hl hc =>
    refine h.move fun c hl' => ?_
    rcases code_killed hc with ⟨c, rfl, rfl, rfl⟩
      | ⟨k, n, rfl, rfl, rfl⟩ <;> split_ifs at hl' with hk
    · injection hl' with hl'
      cases hl'
      exact hok p x c rfl hl hk
    all_goals cases hl'
  | @act p l l' x f d' hl hc hf =>
    refine h.move fun c hl' => ?_
    cases hl'
    -- only the test of `readopen` leads to `wFail`
    have hself := hinv.knows p
    rw [hl] at hself
    rcases code_act hc hf with ⟨hlooks, -⟩ | ⟨_, _, _, hl', _⟩ | ⟨_, _, _, _, hl', _⟩ |
      ⟨_, _, _, hl', _⟩
    · cases hlooks with
      | wShut c hshut =>
        obtain ⟨hle, hopen⟩ := hself
        by_contra hne
        rw [hopen (lt_of_le_of_ne hle hne)] at hshut
        cases hshut
    all_goals cases hl'
  | @resume p l hl _ =>
    refine h.move fun c hl' => ?_
    cases hl'
    have hself := hinv.knows p
    rw [hl] at hself
    rcases hself with ⟨_, hl', -⟩ | ⟨_, _, hl'⟩ <;> cases hl'
  | kill p => exact h
  | @env y => exact y.elim

/-! ## Ready and quiet channels -/

/-- When nobody may stay asleep on a channel. -/
def ready : PipeChan → PipeHist ι → Prop
  | .nread, d => ¬ d.pi.Empty ∨ d.pi.writeopen = false
  | .nwrite, d => ¬ d.pi.Full ∨ d.pi.readopen = false

/-- When nobody is asleep on a channel, for a process that holds `pi->lock`. A writer loses
`&pi->nread` with the first byte it has not announced, a reader loses `&pi->nwrite` with its first
byte, and closing an end loses the channel of the other one, until they call `wakeup`. -/
def quiet : PipeLoc → PipeHist ι → PipeChan → Prop
  | wLoop c, d, ch | wOpen c, d, ch | wKilled c, d, ch | wFail c, d, ch | wFull c, d, ch
  | wWakeup c, d, ch | wSleep c, d, ch | wCopy c, d, ch | wEnd c, d, ch | wRelease c, d, ch =>
    (ch = .nread → c.told = c.i) ∧ ready ch d
  | rFor _ _ _, d, ch | rCopy _ _ _, d, ch | rEnd _ _, d, ch => ch ≠ .nwrite ∧ ready ch d
  | rRelease _ _, d, ch => ch = .nwrite ∨ ready ch d
  | cWakeup _ w, d, ch => ch ≠ .ofClose w ∧ ready ch d
  | cTest _ w, d, ch | cRelease _ w _, d, ch => ch = .ofClose w ∨ ready ch d
  | _, d, ch => ready ch d

omit [DecidableEq ι] in
lemma ready_of_shut {w : Bool} (hch : ch ≠ .ofClose w) (h : ready ch (d.shut w)) : ready ch d := by
  cases w <;> cases ch <;> first | exact absurd rfl hch | exact h

omit [DecidableEq ι] in
lemma quiet_of_looks {l l' : PipeLoc} (h : Looks d.pi l l')
    (hq : quiet l' d ch) : quiet l d ch := by
  cases h with
  | rGo k n => exact hq.2
  | _ => exact hq

/-- Why no wakeup is lost on a pipe. -/
def wakeSpec (ι : Type) [DecidableEq ι] :
    WakeSpec (client ι) (fun m => Inv m ∧ Announced m) MonKillOk where
  ready := ready
  quiet := fun _ l d ch => quiet l d ch
  acquire := by
    intro m i l x l' c hI hl hc hq
    obtain ⟨k, rfl, ⟨n, rfl⟩ | ⟨n, rfl⟩ | ⟨w, rfl⟩⟩ := code_acquire hc
    · exact hq.2
    · exact hq
    · exact hq
  resume := by
    intro m i l c hI hl hq
    have hself := hI.1.knows i
    rw [hl] at hself
    rcases hself with ⟨c, rfl, -⟩ | ⟨k, n, rfl⟩
    · exact hq.2
    · exact hq
  release := by
    intro m i l x l' ch hI hl hc hr
    have hself := hI.1.knows i
    rw [hl] at hself
    rcases code_release hc with ⟨c, rfl, -⟩ | ⟨c, rfl, -⟩ | ⟨k, rfl, -⟩ | ⟨k, r, rfl, -⟩ |
      ⟨k, w, b, rfl, -⟩
    · exact ⟨fun _ => hI.2 i c hl, hr⟩
    · exact ⟨fun _ => hself, hr⟩
    · exact hr
    · exact .inr hr
    · exact .inr hr
  sleep := by
    intro m i l x ch l' ch' hI hl hc hr
    have hself := hI.1.knows i
    rw [hl] at hself
    rcases code_sleep hc with ⟨c, rfl, rfl, -⟩ | ⟨k, n, rfl, rfl, -⟩
    · obtain ⟨htold, hopen, hfull⟩ := hself
      refine ⟨?_, fun _ => htold, hr⟩
      rintro rfl
      rcases hr with hr | hr
      · exact hr hfull
      · rw [hopen] at hr
        cases hr
    · obtain ⟨hempty, hopen⟩ := hself
      refine ⟨?_, hr⟩
      rintro rfl
      rcases hr with hr | hr
      · exact hr hempty
      · rw [hopen] at hr
        cases hr
  wakeup := by
    intro m i l x ch l' ch' hI hl hc hq
    by_cases hch : ch' = ch
    · exact .inr hch
    left
    rcases code_wakeup hc with ⟨c, rfl, rfl, rfl⟩ | ⟨c, rfl, rfl, rfl⟩ | ⟨k, r, rfl, rfl, rfl⟩ |
      ⟨k, w, rfl, rfl, rfl⟩
    · exact ⟨fun h => absurd h hch, hq.2⟩
    · exact ⟨fun h => absurd h hch, hq.2⟩
    · exact ⟨hch, hq.resolve_left hch⟩
    · exact ⟨hch, hq.resolve_left hch⟩
  killed := by
    intro m i l x yes no c hI _ hl hc hq
    rcases code_killed hc with ⟨c, rfl, rfl, rfl⟩ | ⟨k, n, rfl, rfl, rfl⟩ <;> split_ifs at hq <;>
      exact hq
  act := by
    intro m i l x f l' d' ch hI hl hc hf hq
    have hself := hI.1.knows i
    rw [hl] at hself
    rcases code_act hc hf with ⟨hlooks, rfl⟩ | ⟨c, b, rfl, rfl, rfl⟩ | ⟨k, n, j, rfl, rfl, rfl⟩ |
      ⟨k, w, rfl, rfl, rfl⟩
    · exact quiet_of_looks hlooks hq
    · obtain ⟨hle, -, hroom⟩ := hself
      cases ch with
      | nread =>
        have htold : c.told = c.i + 1 := hq.1 rfl
        omega
      | nwrite => exact ⟨by simp, .inl hroom⟩
    · cases ch with
      | nread => exact ⟨by simp, .inl hself⟩
      | nwrite => exact absurd rfl hq.1
    · exact ready_of_shut hq.1 hq.2
  env := fun {y} => y.elim

end PipeHist

open PipeHist

/-- **No lost wakeup on a pipe, unless a writer is killed between two bytes.**  In every state that
a run reaches whose steps meet `KillOk`, when `pi->lock` is free: a process that sleeps on
`&pi->nread` sleeps on an empty pipe that is open for writing, and one that sleeps on `&pi->nwrite`
on a full pipe that is open for reading. -/
theorem pipe_no_lost_wakeup {ι : Type} [DecidableEq ι] {table : List ι} (htable : ∀ p, p ∈ table)
    {s0 s : Sys ι} {as : List (SWAct ι PipeIn Empty)} (h0 : Initial s0)
    (hrun : RunOf (SW.step (client ι) table) KillOk s0 as s) (hfree : s.lk = none) (p : ι)
    (hp : s.state p = .sleeping) :
    (s.chan p = some .nread → s.data.pi.nread = s.data.pi.nwrite ∧ s.data.pi.writeopen = true) ∧
    (s.chan p = some .nwrite →
      s.data.pi.nwrite = (s.data.pi.nread + PIPESIZE) % 2 ^ 32 ∧ s.data.pi.readopen = true) := by
  have hann : Announced s0.proj := by
    intro q c hq
    simp [SW.proj, h0.pc q, SW.locOf] at hq
  have hnot : ∀ ch, s.chan p = some ch → ¬ ready ch s.data := by
    intro ch hch hr
    refine (wakeSpec ι).no_lost_wakeup htable (fun m a m' hI hlock hok hm => ?_) h0.sw
      ⟨h0.inv, hann⟩ (hrun.mono fun _ _ => KillOk.allowed) hfree hr p (.inr ⟨hp, hch⟩)
    exact ⟨hI.1.step hlock hm, hI.2.step hI.1 hok hm⟩
  refine ⟨fun hch => ?_, fun hch => ?_⟩
  · have := hnot .nread hch
    simpa [ready, Pipe.Empty] using this
  · have := hnot .nwrite hch
    simpa [ready, Pipe.Full] using this

/-- The reader `true` has gone to sleep on the empty pipe. -/
def sampleReaderActs : List (SWAct Bool PipeIn Empty) := List.replicate 7 (.run true (.read 1))

theorem pipe_no_lost_wakeup_sample :
    ∃ s, RunOf (SW.step (client Bool) [false, true]) KillOk samplePipe sampleReaderActs s ∧
      s.lk = none ∧ s.state true = .sleeping ∧ s.data.pi.nread = s.data.pi.nwrite := by
  have h0 : Initial samplePipe := ⟨rfl, fun _ => rfl, fun _ => rfl, rfl⟩
  have hok : ∀ {s : Sys Bool} {a}, s.killed = (fun _ => false) → KillOk s a := by
    intro s a hk p x c _ _ hkp
    rw [hk] at hkp
    cases hkp
  have hrun : RunOf (SW.step (client Bool) [false, true]) KillOk samplePipe sampleReaderActs _ :=
    .cons (hok rfl) rfl <| .cons (hok rfl) rfl <| .cons (hok rfl) rfl <| .cons (hok rfl) rfl <|
      .cons (hok rfl) rfl <| .cons (hok rfl) rfl <| .cons (hok rfl) rfl <| .nil _
  exact ⟨_, hrun, rfl, rfl, ((pipe_no_lost_wakeup (by decide) h0 hrun rfl true rfl).1 rfl).1⟩

/-- The reader `true` sleeps; the writer `false` stores the first of two bytes, is killed, and
returns. -/
def sampleKillActs : List (SWAct Bool PipeIn Empty) :=
  sampleReaderActs ++ samplePipeActs.take 6 ++ [.kill false] ++
    List.replicate 4 (.run false (.write 2))

/-- **A killed writer loses the wakeup**: the reader is left asleep, with a byte in the pipe and
`pi->lock` free. -/
theorem pipewrite_killed_loses_wakeup :
    ∃ s, Run (SW.step (client Bool) [false, true]) samplePipe sampleKillActs s ∧ s.lk = none ∧
      s.state true = .sleeping ∧ s.chan true = some .nread ∧ s.data.pi.nread ≠ s.data.pi.nwrite :=
  ⟨_, Run.of_exec rfl, rfl, rfl, rfl, by decide⟩

end Xv6
