import Xv6.Log.CrashAtomic
import Xv6.Log.GroupCommit

/-!
# `sys_sync` is durable

`sys_sync` waits for one increment of `log.ncommit` if an operation or a commit is running when it
takes `log.lock`, and returns at once otherwise. What it promises is about the disk: every
`log_write` of an operation that had ended by then survives any later crash.

The argument has two halves, which meet in `SyncSys.Inv`:

* *the disk means a prefix of the history.*  `past` lists the `log_write`s of the groups committed
  so far. Up to the header write of a commit the disk means `past` over the disk the log started
  with, from there on it means `past` and the whole group; `DiskInv` says which, control point by
  control point, in the terms of `Holds`.
* *what a returned `sys_sync` had seen is in `past`.*  A group is emptied only by a commit, so when
  `ncommit` has grown by one since the call, no `log_write` of an operation that had ended then is
  in the group any more. `SyncInv` says so for the calls that are still waiting, too.

`SyncSys` adds three fields of history to `LogSys`; no function reads them.
-/

namespace Xv6

open Function List LogSys PState ByteArr DiskProg

variable {P : Type} [DecidableEq P] {pc : CommitPc} {start : ℕ} {p : P} {s : LogSys P}

namespace LogSys

/-! ## Operations have numbers of their own -/

/-- The numbers of the running operations are distinct, and none of them has ended. -/
structure Ids (s : LogSys P) : Prop where
  running : ∀ p op, (s.proc p).op? = some op → op < s.nextOp ∧ op ∉ s.ended
  ended : ∀ op ∈ s.ended, op < s.nextOp
  alone : ∀ p q op, (s.proc p).op? = some op → (s.proc q).op? = some op → p = q

variable {s s' : LogSys P} {p : P} {a : LogAct P}

lemma Ids.congr (h : s.Ids) (hop : ∀ p, (s'.proc p).op? = (s.proc p).op?)
    (hnext : s'.nextOp = s.nextOp) (hended : s'.ended = s.ended) : s'.Ids := by
  refine ⟨?_, ?_, ?_⟩
  · simpa only [hop, hnext, hended] using h.running
  · simpa only [hnext, hended] using h.ended
  · simpa only [hop] using h.alone

lemma op?_update {c : PState} (h : (s.proc p).op? = c.op?) (q : P) :
    (update s.proc p c q).op? = (s.proc q).op? := by
  by_cases hq : q = p
  · subst hq; simp [h]
  · simp [hq]

lemma Ids.leave (h : s.Ids) {op : ℕ} (hp : s.proc p = .inOp op [])
    (hop : ∀ q, (s'.proc q).op? = if q = p then none else (s.proc q).op?)
    (hnext : s'.nextOp = s.nextOp) (hended : s'.ended = op :: s.ended) : s'.Ids := by
  have hpop : (s.proc p).op? = some op := by simp [hp, op?]
  refine ⟨fun q o hq => ?_, fun o ho => ?_, fun q r o hq hr => ?_⟩
  · rw [hop] at hq
    split_ifs at hq with hqp
    have hne : o ≠ op := by
      rintro rfl
      exact hqp (h.alone q p _ hq hpop)
    rw [hnext, hended, mem_cons, not_or]
    exact ⟨(h.running q o hq).1, hne, (h.running q o hq).2⟩
  · rw [hended, mem_cons] at ho
    rw [hnext]
    rcases ho with rfl | ho
    · exact (h.running p o hpop).1
    · exact h.ended o ho
  · rw [hop] at hq hr
    split_ifs at hq hr
    exact h.alone q r o hq hr

lemma commitStep_ids (s : LogSys P) (hp : s.proc p = .commit pc) :
    (∀ q, ((s.commitStep p pc).proc q).op? = (s.proc q).op?) ∧
      (∀ q, ((s.commitStep p pc).proc q).dirty = (s.proc q).dirty) ∧
      (s.commitStep p pc).nextOp = s.nextOp ∧ (s.commitStep p pc).ended = s.ended ∧
      (s.commitStep p pc).log.start = s.log.start := by
  have hop : ∀ c : PState, c.op? = none → ∀ q, (update s.proc p c q).op? = (s.proc q).op? :=
    fun c hc => op?_update (by rw [hp, hc]; rfl)
  have hdirty : ∀ c : PState, c.dirty = [] →
      ∀ q, (update s.proc p c q).dirty = (s.proc q).dirty := by
    intro c hc q
    by_cases hq : q = p
    · subst hq; rw [update_self, hc, hp]; rfl
    · simp [hq]
  cases pc
  case finish =>
    exact ⟨fun q => (op?_wakeup _ q).trans (hop _ rfl q),
      fun q => (dirty_wakeup _ q).trans (hdirty _ rfl q), rfl, rfl, rfl⟩
  case writeLog tail | install tail =>
    rw [commitStep]
    split_ifs
    · exact ⟨hop _ rfl, hdirty _ rfl, rfl, rfl, rfl⟩
    · exact ⟨hop _ rfl, hdirty _ rfl, rfl, rfl, rfl⟩
  all_goals exact ⟨hop _ rfl, hdirty _ rfl, rfl, rfl, rfl⟩

lemma Ids.step (h : s.Ids) (hs : Moves s a s') : s'.Ids := by
  have hquiet : ∀ {p : P} {c : PState}, (s.proc p).op? = none → c.op? = none →
      (s.setProc p c).Ids :=
    fun hp hc => h.congr (op?_update (hp.trans hc.symm)) rfl rfl
  cases hs with
  | beginWait hp _ => exact hquiet hp.1 rfl
  | @beginGo _ p hp ha hcom =>
    refine ⟨fun q o hq => ?_, fun o ho => ?_, fun q r o hq hr => ?_⟩
    · by_cases hqp : q = p
      · subst hqp
        simp only [update_self, op?, Option.some.injEq] at hq
        subst hq
        exact ⟨Nat.lt_succ_self _, fun hmem => (h.ended _ hmem).ne rfl⟩
      · simp only [update_of_ne hqp] at hq
        exact ⟨Nat.lt_succ_of_lt (h.running q o hq).1, (h.running q o hq).2⟩
    · exact Nat.lt_succ_of_lt (h.ended o ho)
    · by_cases hqp : q = p <;> by_cases hrp : r = p
      · exact hqp.trans hrp.symm
      · subst hqp
        simp only [update_self, op?, Option.some.injEq] at hq
        simp only [update_of_ne hrp] at hr
        exact absurd hq (h.running r o hr).1.ne'
      · subst hrp
        simp only [update_self, op?, Option.some.injEq] at hr
        simp only [update_of_ne hqp] at hq
        exact absurd hr (h.running q o hq).1.ne'
      · simp only [update_of_ne hqp] at hq
        simp only [update_of_ne hrp] at hr
        exact h.alone q r o hq hr
  | modify hp _ _ | logWrite hp _ _ => exact h.congr (fun q => (active_update hp _ q).1) rfl rfl
  | @endLast p op hp _ =>
    refine h.leave hp (fun q => ?_) rfl rfl
    by_cases hq : q = p
    · subst hq; simp [op?]
    · simp [hq]
  | @endMore p op hp _ =>
    refine h.leave hp (fun q => ?_) rfl rfl
    rw [op?_wakeup]
    by_cases hq : q = p
    · subst hq; simp [setProc, op?]
    · simp [setProc, hq]
  | commit hp =>
    obtain ⟨hop, -, hnext, hended, -⟩ := commitStep_ids s hp
    exact h.congr hop hnext hended
  | syncWait hp | syncDone hp | loopWait hp | loopDone hp | killBegin hp | killSync hp =>
    exact hquiet (by rw [hp]; rfl) rfl

/-! ## Logged blocks are home blocks, and they fit into the log -/

/-- A block number that operations may log. -/
def IsHome (s : LogSys P) (b : ℕ) : Prop := ¬ InLog s.log.start b ∧ b < 2 ^ 32

/-- The log is not too long, and no operation logs a block of the log. -/
structure Fits (s : LogSys P) : Prop where
  n_le : s.log.lh.n ≤ LOGBLOCKS
  dirty : ∀ p, ∀ b ∈ (s.proc p).dirty, s.IsHome b
  group : ∀ w ∈ s.group, s.IsHome w.blockno

lemma Fits.congr (h : s.Fits) (hstart : s'.log.start = s.log.start)
    (hn : s'.log.lh.n ≤ LOGBLOCKS) (hdirty : ∀ p, (s'.proc p).dirty = (s.proc p).dirty)
    (hgroup : ∀ w ∈ s'.group, w ∈ s.group) : s'.Fits := by
  refine ⟨hn, fun p b hb => ?_, fun w hw => ?_⟩
  · simp only [IsHome, hstart]
    exact h.dirty p b (hdirty p ▸ hb)
  · simp only [IsHome, hstart]
    exact h.group w (hgroup w hw)

lemma dirty_update {c : PState} (h : (s.proc p).dirty = c.dirty) (q : P) :
    (update s.proc p c q).dirty = (s.proc q).dirty := by
  by_cases hq : q = p
  · subst hq; simp [h]
  · simp [hq]

lemma logAbsorb_n_le (lh : LogHeader) (b : ℕ) : (logAbsorb lh b).n ≤ lh.n + 1 := by
  simp only [logAbsorb]
  split_ifs <;> omega

/-- `commit` leaves `lh` alone until it clears it, and the group with it. -/
lemma commitStep_group (s : LogSys P) (p : P) (pc : CommitPc) :
    ((s.commitStep p pc).log.lh = s.log.lh ∧ (s.commitStep p pc).group = s.group ∧ pc ≠ .clear) ∨
      (pc = .clear ∧ (s.commitStep p pc).log.lh.n = 0 ∧ (s.commitStep p pc).group = []) := by
  cases pc
  case clear => exact .inr ⟨rfl, rfl, rfl⟩
  case writeLog tail | install tail =>
    rw [commitStep]
    split_ifs
    · exact .inl ⟨rfl, rfl, by simp⟩
    · exact .inl ⟨rfl, rfl, by simp⟩
  all_goals exact .inl ⟨rfl, rfl, by simp⟩

lemma Fits.step (h : s.Fits) (hs : Moves s a s') : s'.Fits := by
  have hquiet : ∀ {p : P} {c : PState}, (s.proc p).dirty = [] → c.dirty = [] →
      (s.setProc p c).Fits :=
    fun hp hc => h.congr rfl h.n_le (dirty_update (hp.trans hc.symm)) (fun _ hw => hw)
  cases hs with
  | beginWait hp _ => exact hquiet hp.2.1 rfl
  | beginGo hp _ _ => exact h.congr rfl h.n_le (dirty_update hp.2.1) (fun _ hw => hw)
  | @modify p op b dirty v hp hhome hb =>
    refine ⟨h.n_le, fun q c hc => ?_, h.group⟩
    by_cases hq : q = p
    · subst hq
      simp only [update_self, PState.dirty, mem_cons] at hc
      rcases hc with rfl | hc
      · exact ⟨hhome, hb⟩
      · exact h.dirty q c (by rw [hp]; exact hc)
    · simp only [update_of_ne hq] at hc
      exact h.dirty q c hc
  | @logWrite p op b dirty hp hb hn =>
    refine ⟨?_, fun q c hc => ?_, fun w hw => ?_⟩
    · have := logAbsorb_n_le s.log.lh b
      simp only
      omega
    · by_cases hq : q = p
      · subst hq
        simp only [update_self, PState.dirty, mem_filter] at hc
        exact h.dirty q c (by rw [hp]; exact hc.1)
      · simp only [update_of_ne hq] at hc
        exact h.dirty q c hc
    · rcases mem_append.mp hw with hw | hw
      · exact h.group w hw
      · rw [mem_singleton] at hw
        subst hw
        exact h.dirty p b (by rw [hp]; exact hb)
  | endLast hp _ => exact h.congr rfl h.n_le (dirty_update (by rw [hp]; rfl)) (fun _ hw => hw)
  | endMore hp _ =>
    refine h.congr rfl h.n_le (fun q => (dirty_wakeup _ q).trans ?_) (fun _ hw => hw)
    exact dirty_update (by rw [hp]; rfl) q
  | @commit p pc hp =>
    obtain ⟨-, hdirty, -, -, hstart⟩ := commitStep_ids s hp
    rcases commitStep_group s p pc with ⟨hlh, hgroup, -⟩ | ⟨-, hn, hgroup⟩
    · exact h.congr hstart (by rw [hlh]; exact h.n_le) hdirty (by simp [hgroup])
    · exact h.congr hstart (by rw [hn]; simp) hdirty (by simp [hgroup])
  | syncWait hp | syncDone hp | loopWait hp | loopDone hp | killBegin hp | killSync hp =>
    exact hquiet (by rw [hp]; rfl) rfl

lemma Inv.group_eq_nil (h : s.Inv) (hn : s.log.lh.n = 0) : s.group = [] := by
  rcases hg : s.group with _ | ⟨w, g⟩
  · rfl
  · obtain ⟨i, hi, -⟩ := (h.blocks w.blockno).mpr ⟨w, by simp [hg], rfl⟩
    omega

end LogSys

/-! ## Applying a history of `log_write`s to a disk -/

/-- The home blocks after a list of `log_write`s: the last one to a block wins. -/
def applyWrites (ws : List LogWrite) (d : Disk) : Disk := fun b => (lastWrite ws b).getD (d b)

lemma applyWrites_append (ws vs : List LogWrite) (d : Disk) :
    applyWrites (ws ++ vs) d = applyWrites vs (applyWrites ws d) := by
  funext b
  simp only [applyWrites, lastWrite, reverse_append, find?_append]
  cases vs.reverse.find? fun w => decide (w.blockno = b) <;> rfl

lemma lastWrite_eq_none {ws : List LogWrite} {b : ℕ} (h : ∀ w ∈ ws, w.blockno ≠ b) :
    lastWrite ws b = none := by
  rw [lastWrite, Option.map_eq_none_iff, find?_eq_none]
  simpa using h

namespace LogSys

/-- The transaction a commit is about to write: the blocks of the header with their copies. -/
def headTxn (s : LogSys P) : List (ℕ × Block) :=
  (range s.log.lh.n.toNat).map fun i => (s.log.lh.block i, s.disk (s.log.start + i + 1))

/-- Right before the header write, the header and the copies form a transaction that applies the
whole group. -/
lemma Inv.exists_txn (h : s.Inv) (hf : s.Fits) (hp : s.proc p = .commit .writeHead) :
    ∃ t : Txn s.log.start, Names s.log t ∧ (∀ i < t.size, s.disk (s.log.start + i + 1) = t.val i) ∧
      ∀ d, t.apply d = applyWrites s.group d := by
  obtain ⟨hblocks, hcopies, -⟩ := h.writeLog_exact hp
  have hn := h.n_nonneg
  have hle := hf.n_le
  have hhome : ∀ i < s.log.lh.n.toNat, s.IsHome (s.log.lh.block i) := by
    intro i hi
    obtain ⟨w, hw, hwb⟩ := (hblocks _).mp ⟨i, hi, rfl⟩
    rw [← hwb]
    exact hf.group w hw
  have hkeys : s.headTxn.map Prod.fst = (range s.log.lh.n.toNat).map s.log.lh.block := by
    simp [headTxn, Function.comp_def]
  let t : Txn s.log.start :=
    { blocks := s.headTxn
      length_le := by simp only [headTxn, length_map, length_range]; omega
      nodup := by
        rw [hkeys]
        refine List.Nodup.map_on (fun i hi j hj hij => ?_) nodup_range
        rw [mem_range] at hi hj
        exact h.distinct i j (by omega) (by omega) hij
      home := by
        simp only [headTxn, mem_map, mem_range]
        rintro _ ⟨i, hi, rfl⟩
        exact (hhome i hi).1
      blockno_lt := by
        simp only [headTxn, mem_map, mem_range]
        rintro _ ⟨i, hi, rfl⟩
        exact (hhome i hi).2 }
  have hsize : t.size = s.log.lh.n.toNat := by simp [t, Txn.size, headTxn]
  have hentry : ∀ i < t.size, t.dst i = s.log.lh.block i ∧ t.val i =
      s.disk (s.log.start + i + 1) := by
    intro i hi
    rw [hsize] at hi
    simp [t, Txn.dst, Txn.val, headTxn, hi]
  refine ⟨t, ⟨rfl, by omega, fun i hi => (hentry i hi).1.symm⟩, fun i hi => (hentry i hi).2.symm,
    fun d => ?_⟩
  funext b
  rcases t.lookup_eq_none_or b with hb | ⟨i, hi, rfl⟩
  · -- a block the transaction does not have is in no `log_write` of the group
    have hnone : ∀ w ∈ s.group, w.blockno ≠ b := by
      intro w hw hwb
      obtain ⟨i, hi, hib⟩ := (hblocks b).mpr ⟨w, hw, hwb⟩
      rw [← hsize] at hi
      have hlook := t.lookup_dst hi
      rw [(hentry i hi).1, hib, hb] at hlook
      simp at hlook
    simp [Txn.apply, applyWrites, hb, lastWrite_eq_none hnone]
  · have hlast := hcopies i (hsize ▸ hi)
    rw [← (hentry i hi).1] at hlast
    simp [Txn.apply, applyWrites, t.lookup_dst hi, hlast, (hentry i hi).2]

end LogSys

lemma putHeader_congr (b : Block) {lh lh' : LogHeader} (hn : lh.n = lh'.n)
    (hblock : ∀ i < lh.n.toNat, lh.block i = lh'.block i) : putHeader b lh = putHeader b lh' := by
  have hput : ∀ (c : Block) (m : ℕ), m ≤ lh.n.toNat →
      putBlocks c lh.block m = putBlocks c lh'.block m := by
    intro c m
    induction m with
    | zero => intro _; rfl
    | succ m ih =>
      intro hm
      rw [putBlocks, putBlocks, ih (by omega), hblock m (by omega)]
  rw [putHeader, putHeader, ← hn]
  exact hput _ _ le_rfl

/-- The header write of the running system commits, as `committed_putHeader` has it for the log of
the transaction itself. -/
lemma Names.committed_putHeader {t : Txn start} {log : Log} (h : Names log t)
    {d L : Disk} (hL : HomeEq start d L) (hcopy : ∀ i < t.size, d (start + i + 1) = t.val i) :
    Committed t (update d start (putHeader (d start) log.lh)) ∧
      HomeEq start (t.apply (update d start (putHeader (d start) log.lh))) (t.apply L) := by
  have hput : putHeader (d start) log.lh = putHeader (d start) t.log.lh := by
    refine putHeader_congr _ h.n_eq fun i hi => h.block_eq i ?_
    rw [h.n_eq] at hi
    omega
  rw [hput]
  exact Xv6.committed_putHeader t hL hcopy

/-! ## The log with its history -/

/-- The log system with its history: the `log_write`s of the groups committed so far, for each
process the operations that had ended when it last called `sys_sync`, and those that had ended when
some `sys_sync` that has returned was called. -/
structure SyncSys (P : Type) where
  sys : LogSys P
  past : List LogWrite := []
  mark : P → List ℕ := fun _ => []
  synced : List ℕ := []

namespace SyncSys

/-- All `log_write`s so far, in order. -/
def writes (s : SyncSys P) : List LogWrite := s.past ++ s.sys.group

/-- Note down what an action that leads to `t` adds to the history. -/
def record (s : SyncSys P) (t : LogSys P) : LogAct P → SyncSys P
  | .commitStep p =>
    { s with
      sys := t
      past := if s.sys.proc p = .commit .clear then s.past ++ s.sys.group else s.past }
  | .sync p =>
    { s with
      sys := t
      mark := update s.mark p s.sys.ended
      synced := if t.proc p = .idle then s.sys.ended ++ s.synced else s.synced }
  | .resume p =>
    { s with
      sys := t
      synced := if t.proc p = .idle then s.mark p ++ s.synced else s.synced }
  | _ => { s with sys := t }

def step (s : SyncSys P) (a : LogAct P) : Outcome LogPanic (SyncSys P) :=
  match s.sys.step a with
  | .next t => .next (s.record t a)
  | .disabled => .disabled
  | .panic e => .panic e

/-- The log as `initlog` leaves it: recovery has emptied the header, and nothing has happened. -/
structure Initial (s : SyncSys P) : Prop where
  sys : s.sys.Initial
  ended : s.sys.ended = []
  clean : Clean s.sys.log.start s.sys.disk
  past : s.past = []
  synced : s.synced = []

/-! ## What a waiting `sys_sync` knows -/

/-- No `log_write` of the operation is waiting for a commit. -/
def Settled (s : SyncSys P) (op : ℕ) : Prop := ∀ w ∈ s.sys.group, w.op ≠ op

end SyncSys

/-- The commit count a waiting `sys_sync` is waiting for. -/
def PState.sync? : PState → Option ℕ
  | .syncSleep n => some n
  | .syncWake n => some n
  | _ => none

lemma LogSys.sync?_wakeup (s : LogSys P) (p : P) : (s.wakeup.proc p).sync? = (s.proc p).sync? := by
  simp only [wakeup]
  cases s.proc p <;> rfl

lemma LogSys.sync?_update {c : PState}
    (h : ∀ n, c.sync? = some n → (s.proc p).sync? = some n) (q : P) (n : ℕ)
    (hq : (update s.proc p c q).sync? = some n) : (s.proc q).sync? = some n := by
  by_cases hqp : q = p
  · subst hqp
    exact h n (by simpa using hq)
  · simpa [hqp] using hq

namespace SyncSys

/-- What a `sys_sync` waits for is settled once it returns. -/
structure SyncInv (s : SyncSys P) : Prop where
  waiting : ∀ p n, (s.sys.proc p).sync? = some n →
    ∀ op ∈ s.mark p, op ∈ s.sys.ended ∧ (n ≤ s.sys.log.ncommit → s.Settled op)
  synced : ∀ op ∈ s.synced, op ∈ s.sys.ended ∧ s.Settled op

variable {s s' : SyncSys P} {a : LogAct P} {d0 : Disk} {t : LogSys P}

/-- An action that starts no `sys_sync` and finishes no commit or `sys_sync`. -/
lemma SyncInv.keep (h : s.SyncInv)
    (hsync : ∀ p n, (s'.sys.proc p).sync? = some n → (s.sys.proc p).sync? = some n)
    (hmark : s'.mark = s.mark) (hended : ∀ op ∈ s.sys.ended, op ∈ s'.sys.ended)
    (hcommit : s'.sys.log.ncommit = s.sys.log.ncommit)
    (hsettled : ∀ op ∈ s.sys.ended, s.Settled op → s'.Settled op)
    (hsynced : s'.synced = s.synced) : s'.SyncInv := by
  refine ⟨fun p n hp op hop => ?_, fun op hop => ?_⟩
  · rw [hmark] at hop
    obtain ⟨hend, hset⟩ := h.waiting p n (hsync p n hp) op hop
    refine ⟨hended op hend, fun hn => hsettled op hend (hset ?_)⟩
    rwa [hcommit] at hn
  · rw [hsynced] at hop
    obtain ⟨hend, hset⟩ := h.synced op hop
    exact ⟨hended op hend, hsettled op hend hset⟩

lemma settled_of_nil (h : s.sys.group = []) (op : ℕ) : s.Settled op := by
  simp [Settled, h]

/-- `commit` moves no process into a `sys_sync`, and counts when it is done. -/
lemma commitStep_sync (s : LogSys P) (p : P) (pc : CommitPc) :
    (∀ q n, ((s.commitStep p pc).proc q).sync? = some n → (s.proc q).sync? = some n) ∧
      (pc ≠ .finish → (s.commitStep p pc).log.ncommit = s.log.ncommit) := by
  have hto : ∀ c : PState, c.sync? = none → ∀ q n,
      (update s.proc p c q).sync? = some n → (s.proc q).sync? = some n :=
    fun c hc => sync?_update (by simp [hc])
  cases pc
  case finish =>
    refine ⟨fun q n hq => ?_, fun hne => absurd rfl hne⟩
    rw [commitStep, sync?_wakeup] at hq
    exact hto _ rfl q n hq
  case writeLog tail | install tail =>
    rw [commitStep]
    split_ifs
    · exact ⟨hto _ rfl, fun _ => rfl⟩
    · exact ⟨hto _ rfl, fun _ => rfl⟩
  all_goals exact ⟨hto _ rfl, fun _ => rfl⟩

lemma SyncInv.step (h : s.SyncInv)
    (hinv : s.sys.Inv) (hids : s.sys.Ids) (hs : LogSys.Moves s.sys a t) :
    (s.record t a).SyncInv := by
  have hstay : ∀ op ∈ s.sys.ended, s.Settled op → s.Settled op := fun _ _ h => h
  cases hs with
  | @beginWait _ p hp ha =>
    have hto := sync?_update (s := s.sys) (p := p) (c := .beginSleep) (by simp [sync?])
    rcases ha with rfl | rfl
    · exact h.keep hto rfl (fun _ ho => ho) rfl hstay rfl
    · exact h.keep hto rfl (fun _ ho => ho) rfl hstay (by simp [record, setProc])
  | @beginGo _ p hp ha hcom =>
    have hto := sync?_update (s := s.sys) (p := p) (c := .inOp s.sys.nextOp [])
      (by simp [sync?])
    rcases ha with rfl | rfl
    · exact h.keep hto rfl (fun _ ho => ho) rfl hstay rfl
    · exact h.keep hto rfl (fun _ ho => ho) rfl hstay (by simp [record])
  | modify hp _ _ =>
    exact h.keep (sync?_update (by simp [sync?])) rfl (fun _ ho => ho) rfl hstay rfl
  | @logWrite p op b dirty hp _ _ =>
    refine h.keep (sync?_update (by simp [sync?])) rfl (fun _ ho => ho) rfl ?_ rfl
    -- the operation that logs is still running, so it is none of the ended ones
    intro o ho hset w hw
    rcases mem_append.mp hw with hw | hw
    · exact hset w hw
    · rw [mem_singleton] at hw
      subst hw
      rintro rfl
      exact (hids.running p _ (by rw [hp]; rfl)).2 ho
  | endLast hp _ =>
    exact h.keep (sync?_update (by simp [sync?])) rfl
      (fun _ ho => mem_cons_of_mem _ ho) rfl hstay rfl
  | endMore hp _ =>
    refine h.keep (fun q n hq => ?_) rfl (fun _ ho => mem_cons_of_mem _ ho) rfl hstay rfl
    simp only [record, sync?_wakeup] at hq
    exact sync?_update (by simp [sync?]) q n hq
  | @commit p pc hp =>
    obtain ⟨hto, hcount⟩ := commitStep_sync s.sys p pc
    obtain ⟨-, -, -, hended, -⟩ := commitStep_ids s.sys hp
    have hend : ∀ op ∈ s.sys.ended, op ∈ (s.sys.commitStep p pc).ended := by
      rw [hended]; exact fun _ ho => ho
    by_cases hfin : pc = .finish
    · -- a finished commit leaves an empty group
      have hnil : (s.sys.commitStep p pc).group = [] := by
        obtain ⟨-, -, -, hn⟩ := hinv.committer hp
        subst hfin
        exact hinv.group_eq_nil hn
      refine ⟨fun q n hq op hop => ?_, fun op hop => ?_⟩
      · exact ⟨hend op (h.waiting q n (hto q n hq) op hop).1, fun _ => settled_of_nil hnil op⟩
      · exact ⟨hend op (h.synced op hop).1, settled_of_nil hnil op⟩
    · refine h.keep hto rfl hend (hcount hfin) (fun op _ hset => ?_) rfl
      rcases commitStep_group s.sys p pc with ⟨-, hgroup, -⟩ | ⟨-, -, hgroup⟩
      · intro w hw
        exact hset w (hgroup ▸ hw)
      · exact settled_of_nil hgroup op
  | @syncWait p hp =>
    refine ⟨fun q n hq op hop => ?_, fun op hop => ?_⟩
    · by_cases hqp : q = p
      · subst hqp
        simp only [record, update_self, setProc, sync?, Option.some.injEq] at hop hq
        refine ⟨hop, fun hn => ?_⟩
        simp only [record, setProc] at hn
        omega
      · simp only [record, update_of_ne hqp, setProc] at hop hq
        exact h.waiting q n hq op hop
    · simp only [record, setProc, update_self, reduceCtorEq, if_false] at hop
      exact h.synced op hop
  | @syncDone p hp hcom hout =>
    have hnil : s.sys.group = [] := by
      obtain ⟨S, -, hcard⟩ := hinv.active
      rcases hinv.commit with ⟨htrue, -⟩ | ⟨-, -, hn⟩
      · rw [hcom] at htrue
        simp at htrue
      · exact hinv.group_eq_nil (hn (by omega))
    refine ⟨fun q n hq op hop => ?_, fun op hop => ?_⟩
    · by_cases hqp : q = p
      · subst hqp
        simp [record, setProc, sync?] at hq
      · simp only [record, update_of_ne hqp, setProc] at hop hq
        exact h.waiting q n hq op hop
    · simp only [record, setProc, update_self, if_true, mem_append] at hop
      rcases hop with hop | hop
      · exact ⟨hop, settled_of_nil hnil op⟩
      · exact h.synced op hop
  | @loopWait p n hp =>
    refine h.keep (sync?_update ?_) rfl (fun _ ho => ho) rfl hstay (by simp [record, setProc])
    simp [hp, sync?]
  | @loopDone p n hp hn =>
    refine ⟨fun q m hq op hop => ?_, fun op hop => ?_⟩
    · exact h.waiting q m (sync?_update (by simp [sync?]) q m hq) op hop
    · simp only [record, setProc, update_self, if_true, mem_append] at hop
      rcases hop with hop | hop
      · obtain ⟨hend, hset⟩ := h.waiting p n (by rw [hp]; rfl) op hop
        exact ⟨hend, hset hn⟩
      · exact h.synced op hop
  | killBegin hp =>
    exact h.keep (sync?_update (by simp [sync?])) rfl (fun _ ho => ho) rfl hstay rfl
  | killSync hp =>
    refine h.keep (sync?_update ?_) rfl (fun _ ho => ho) rfl hstay rfl
    simp [hp, sync?]

/-! ## What the disk means -/

/-- What the disk means at each point of a commit, and between commits: the history up to the last
group whose header has been written. -/
def PcDisk (s : SyncSys P) (d0 : Disk) : Option CommitPc → Prop
  | some (.install tail) => ∃ t : Txn s.sys.log.start, Names s.sys.log t ∧ Committed t s.sys.disk ∧
      HomeEq s.sys.log.start (t.apply s.sys.disk) (applyWrites s.writes d0) ∧
      ∀ i < tail, i < t.size → s.sys.disk (t.dst i) = t.val i
  | some .clear => ∃ t : Txn s.sys.log.start, Committed t s.sys.disk ∧
      HomeEq s.sys.log.start (t.apply s.sys.disk) (applyWrites s.writes d0) ∧
      ∀ i < t.size, s.sys.disk (t.dst i) = t.val i
  | some .eraseHead => ∃ t : Txn s.sys.log.start, Committed t s.sys.disk ∧
      HomeEq s.sys.log.start (t.apply s.sys.disk) (applyWrites s.past d0) ∧
      ∀ i < t.size, s.sys.disk (t.dst i) = t.val i
  | _ => Clean s.sys.log.start s.sys.disk ∧
      HomeEq s.sys.log.start s.sys.disk (applyWrites s.past d0)

/-- What is on the disk, by where the commit is. -/
structure DiskInv (s : SyncSys P) (d0 : Disk) : Prop where
  quiet : (∀ p, (s.sys.proc p).pc? = none) → s.PcDisk d0 none
  commit : ∀ p pc, (s.sys.proc p).pc? = some pc → s.PcDisk d0 (some pc)

/-- An action that leaves the log, the disk and the history alone, and every process where it is
with respect to `commit`. -/
lemma DiskInv.same (h : s.DiskInv d0)
    (hlog : s'.sys.log = s.sys.log) (hdisk : s'.sys.disk = s.sys.disk) (hpast : s'.past = s.past)
    (hgroup : s'.sys.group = s.sys.group)
    (hpc : ∀ p, (s'.sys.proc p).pc? = (s.sys.proc p).pc?) : s'.DiskInv d0 := by
  have hpcd : ∀ pc, s.PcDisk d0 pc → s'.PcDisk d0 pc := by
    intro pc hd
    unfold PcDisk writes at hd ⊢
    rw [hlog, hdisk, hpast, hgroup]
    exact hd
  exact ⟨fun hq => hpcd _ (h.quiet fun p => (hpc p).symm.trans (hq p)),
    fun p pc hp => hpcd _ (h.commit p pc ((hpc p).symm.trans hp))⟩

/-- An action taken while nobody commits, which leaves the disk alone and lets at most one process
enter `commit`. -/
lemma DiskInv.between (h : s.DiskInv d0)
    (hquiet : ∀ p, (s.sys.proc p).pc? = none) (hstart : s'.sys.log.start = s.sys.log.start)
    (hdisk : s'.sys.disk = s.sys.disk) (hpast : s'.past = s.past)
    (hpc : ∀ p pc, (s'.sys.proc p).pc? = some pc → pc = .enter) : s'.DiskInv d0 := by
  have hd : Clean s'.sys.log.start s'.sys.disk ∧
      HomeEq s'.sys.log.start s'.sys.disk (applyWrites s'.past d0) := by
    rw [hstart, hdisk, hpast]
    exact h.quiet hquiet
  refine ⟨fun _ => hd, fun p pc hp => ?_⟩
  rw [hpc p pc hp]
  exact hd

/-- While `p` commits, the disk is described by the control point of `p`. -/
lemma DiskInv.of_commit (hp : (s.sys.proc p).pc? = some pc)
    (hothers : ∀ q, q ≠ p → (s.sys.proc q).pc? = none)
    (hd : s.PcDisk d0 (some pc)) : s.DiskInv d0 := by
  refine ⟨fun hq => ?_, fun q pc' hq => ?_⟩
  · rw [hq p] at hp
    simp at hp
  · by_cases hqp : q = p
    · subst hqp
      rw [hp] at hq
      cases hq
      exact hd
    · rw [hothers q hqp] at hq
      simp at hq

/-- **`commit`, and what the disk means after each of its steps.**  The copies go to the log area
under an empty header; the header write adds the whole group at once; installing changes nothing in
the disk's meaning, and nothing is left to redo when the header is erased. -/
lemma DiskInv.commitStep (h : s.DiskInv d0) (hinv : s.sys.Inv)
    (hfits : s.sys.Fits) (hp : s.sys.proc p = .commit pc) :
    (s.record (s.sys.commitStep p pc) (.commitStep p)).DiskInv d0 := by
  obtain ⟨-, -, hothers, -⟩ := hinv.committer hp
  have hd := h.commit p pc (by rw [hp]; rfl)
  have hn := hinv.n_nonneg
  have hupd : ∀ c : PState, ∀ q, q ≠ p → (update s.sys.proc p c q).pc? = none := by
    intro c q hq
    rw [update_of_ne hq]
    exact hothers q hq
  have hself : ∀ pc' : CommitPc, (update s.sys.proc p (.commit pc') p).pc? = some pc' := by
    simp [pc?]
  have hpast : pc ≠ .clear → ∀ t : LogSys P, (s.record t (.commitStep p)).past = s.past := by
    intro hne t
    simp only [record, hp, commit.injEq, hne, if_false]
  cases pc with
  | enter =>
    refine .of_commit (hself _) (hupd _) ?_
    split_ifs
    · simp only [PcDisk, hpast (by simp)]; exact hd
    · simp only [PcDisk, hpast (by simp)]; exact hd
  | writeLog tail =>
    rw [commitStep]
    split_ifs with hlt
    · refine .of_commit (hself _) (hupd _) ?_
      have htail : tail < LOGBLOCKS := by have := hfits.n_le; omega
      simp only [PcDisk, hpast (by simp)]
      refine ⟨?_, hd.2.update_inLog (inLog_copy _ htail) _⟩
      simp only [record, Clean]
      rw [update_of_ne (by omega)]
      exact hd.1
    · refine .of_commit (hself _) (hupd _) ?_
      simp only [PcDisk, hpast (by simp)]
      exact hd
  | writeHead =>
    refine .of_commit (hself _) (hupd _) ?_
    obtain ⟨t, hnames, hcopy, happly⟩ := hinv.exists_txn hfits hp
    obtain ⟨hcom, hmeans⟩ := hnames.committed_putHeader hd.2 hcopy
    refine ⟨t, hnames, hcom, ?_, by simp⟩
    simp only [writes, hpast (by simp), applyWrites_append]
    rw [happly (applyWrites s.past d0)] at hmeans
    exact hmeans
  | install tail =>
    obtain ⟨t, hnames, hcom, hmeans, hdone⟩ := hd
    have hsize : s.sys.log.lh.n = t.size := hnames.n_eq
    rw [commitStep]
    split_ifs with hlt
    · refine .of_commit (hself _) (hupd _) ?_
      have hi : tail < t.size := by omega
      have hdst : s.sys.log.lh.block tail = t.dst tail := hnames.block_eq tail hi
      have hval : s.sys.disk (s.sys.log.start + tail + 1) = t.val tail := hcom.copy_eq tail hi
      refine ⟨t, hnames, ?_, ?_, fun i hi' his => ?_⟩
      · simp only [record, hdst]
        exact hcom.update_home (t.dst_not_inLog hi) _
      · simp only [record, hdst, hval, writes, hp, commit.injEq, reduceCtorEq, if_false]
        rw [t.apply_update_dst _ hi]
        exact hmeans
      · simp only [record, hdst, hval]
        by_cases heq : t.dst i = t.dst tail
        · have hlook := t.lookup_dst hi
          rw [← heq, t.lookup_dst his] at hlook
          rw [heq, update_self]
          exact (Option.some.inj hlook).symm
        · have hne : i ≠ tail := by rintro rfl; exact heq rfl
          rw [update_of_ne heq]
          exact hdone i (by omega) his
    · have hle : t.size ≤ tail := by omega
      refine .of_commit (hself _) (hupd _) ⟨t, hcom, ?_, fun i hi => hdone i (hi.trans_le hle) hi⟩
      simp only [writes, hpast (by simp)]
      exact hmeans
  | clear =>
    refine .of_commit (hself _) (hupd _) ?_
    simp only [PcDisk, record, hp, if_true]
    exact hd
  | eraseHead =>
    obtain ⟨t, hcom, hmeans, hdone⟩ := hd
    obtain ⟨-, -, -, hzero⟩ := hinv.committer hp
    refine .of_commit (hself _) (hupd _) ?_
    simp only [PcDisk, hpast (by simp)]
    rw [t.apply_eq_self hdone] at hmeans
    refine ⟨?_, hmeans.update_inLog (inLog_header _) _⟩
    have hzero' : s.sys.log.lh.n = 0 := hzero
    simp only [record, commitStep, Clean, update_self]
    rw [hdrN_putHeader _ _ hn (by omega), hzero']
  | finish =>
    have hquiet : ∀ q, ((s.sys.commitStep p .finish).proc q).pc? = none := by
      intro q
      rw [commitStep, pc?_wakeup]
      by_cases hq : q = p
      · subst hq; simp [pc?]
      · exact hupd _ q hq
    refine ⟨fun _ => ?_, fun q pc' hq => ?_⟩
    · simp only [PcDisk, hpast (by simp)]
      exact hd
    · simp only [record] at hq
      rw [hquiet q] at hq
      simp at hq

lemma DiskInv.step (h : s.DiskInv d0)
    (hinv : s.sys.Inv) (hfits : s.sys.Fits) (hs : LogSys.Moves s.sys a t) :
    (s.record t a).DiskInv d0 := by
  have hquiet : ∀ {p : P} {c : PState}, (s.sys.proc p).pc? = none → c.pc? = none → ∀ q,
      ((s.sys.setProc p c).proc q).pc? = (s.sys.proc q).pc? := by
    intro p c hp hc q
    by_cases hq : q = p
    · subst hq; simp [setProc, hp, hc]
    · simp [setProc, hq]
  -- an operation is running, or about to begin, so nobody commits
  have hmove : ∀ {p : P} {c : PState}, (∀ q, (s.sys.proc q).pc? = none) →
      (∀ pc, c.pc? = some pc → pc = .enter) →
      ∀ q pc, (update s.sys.proc p c q).pc? = some pc → pc = .enter := by
    intro p c hnone hc q pc hq
    by_cases hqp : q = p
    · subst hqp
      exact hc pc (by simpa using hq)
    · rw [update_of_ne hqp, hnone q] at hq
      simp at hq
  have hin : ∀ {p : P} {op : ℕ} {dirty : List ℕ}, s.sys.proc p = .inOp op dirty →
      ∀ q, (s.sys.proc q).pc? = none :=
    fun hp => (hinv.not_committing (by rw [hp]; simp [op?])).2.1
  cases hs with
  | beginWait hp ha =>
    rcases ha with rfl | rfl
    · exact h.same rfl rfl rfl rfl (hquiet hp.2.2 rfl)
    · exact h.same rfl rfl rfl rfl (hquiet hp.2.2 rfl)
  | beginGo hp ha hcom =>
    have hnone : ∀ q, (s.sys.proc q).pc? = none := by
      rcases hinv.commit with ⟨htrue, -⟩ | ⟨-, hnone, -⟩
      · rw [hcom] at htrue
        simp at htrue
      · exact hnone
    rcases ha with rfl | rfl
    · exact h.between hnone rfl rfl rfl (hmove hnone (by simp [pc?]))
    · exact h.between hnone rfl rfl rfl (hmove hnone (by simp [pc?]))
  | modify hp _ _ | logWrite hp _ _ =>
    exact h.between (hin hp) rfl rfl rfl (hmove (hin hp) (by simp [pc?]))
  | endLast hp _ =>
    exact h.between (hin hp) rfl rfl rfl (hmove (hin hp) (by simp [pc?, eq_comm]))
  | endMore hp _ =>
    refine h.between (hin hp) rfl rfl rfl fun q pc hq => ?_
    simp only [record, pc?_wakeup] at hq
    exact hmove (hin hp) (by simp [pc?]) q pc hq
  | commit hp => exact h.commitStep hinv hfits hp
  | syncWait hp | syncDone hp | loopWait hp | loopDone hp | killBegin hp | killSync hp =>
    exact h.same rfl rfl rfl rfl (hquiet (by rw [hp]; rfl) rfl)

/-! ## Durability -/

/-- Everything together, for a log that starts at block `start` on the disk `d0`. -/
structure Inv (start : ℕ) (d0 : Disk) (s : SyncSys P) : Prop where
  sys : s.sys.Inv
  ids : s.sys.Ids
  fits : s.sys.Fits
  sync : s.SyncInv
  disk : s.DiskInv d0
  start_eq : s.sys.log.start = start

lemma Initial.inv (h : s.Initial) : Inv s.sys.log.start s.sys.disk s := by
  have hidle := h.sys.idle
  refine ⟨h.sys.inv, ⟨?_, ?_, ?_⟩, ⟨?_, ?_, ?_⟩, ⟨?_, ?_⟩, ⟨fun _ => ⟨h.clean, ?_⟩, ?_⟩, rfl⟩
  · simp [hidle, op?]
  · simp [h.ended]
  · simp [hidle, op?]
  · simp [h.sys.n_eq]
  · simp [hidle, dirty]
  · simp [h.sys.group]
  · simp [hidle, sync?]
  · simp [h.synced]
  · intro b _
    simp [applyWrites, lastWrite, h.past]
  · simp [hidle, pc?]

lemma record_sys (s : SyncSys P) (t : LogSys P) (a : LogAct P) : (s.record t a).sys = t := by
  cases a <;> rfl

lemma step_sys (hs : s.step a = .next s') : ∃ t, s.sys.step a = .next t ∧ s' = s.record t a := by
  rw [SyncSys.step] at hs
  split at hs
  · next t ht =>
    injection hs with hs
    exact ⟨t, ht, hs.symm⟩
  · cases hs
  · cases hs

lemma Moves_start {s t : LogSys P} (h : LogSys.Moves s a t) : t.log.start = s.log.start := by
  cases h with
  | commit hp => exact (commitStep_ids s hp).2.2.2.2
  | _ => rfl

lemma Inv.step (h : Inv start d0 s) (hs : s.step a = .next s') : Inv start d0 s' := by
  obtain ⟨t, ht, rfl⟩ := step_sys hs
  have hm := step_moves ht
  refine ⟨?_, ?_, ?_, h.sync.step h.sys h.ids hm, h.disk.step h.sys h.fits hm, ?_⟩
  · rw [record_sys]; exact h.sys.step ht
  · rw [record_sys]; exact h.ids.step hm
  · rw [record_sys]; exact h.fits.step hm
  · rw [record_sys, Moves_start hm]; exact h.start_eq

/-- In every state the disk means the history up to some point, and whatever lies behind that point
belongs to no operation that a `sys_sync` has promised. -/
lemma Inv.holds (h : Inv start d0 s) :
    ∃ kept lost, s.writes = kept ++ lost ∧ (∀ w ∈ lost, w.op ∉ s.synced) ∧
      Holds start (applyWrites kept d0) s.sys.disk := by
  obtain ⟨hinv, -, -, hsync, hdisk, rfl⟩ := h
  have hlost : ∀ w ∈ s.sys.group, w.op ∉ s.synced :=
    fun w hw hop => (hsync.synced w.op hop).2 w hw rfl
  have hbefore : Holds s.sys.log.start (applyWrites s.past d0) s.sys.disk →
      ∃ kept lost, s.writes = kept ++ lost ∧ (∀ w ∈ lost, w.op ∉ s.synced) ∧
        Holds s.sys.log.start (applyWrites kept d0) s.sys.disk :=
    fun hh => ⟨s.past, s.sys.group, rfl, hlost, hh⟩
  have hafter : Holds s.sys.log.start (applyWrites s.writes d0) s.sys.disk →
      ∃ kept lost, s.writes = kept ++ lost ∧ (∀ w ∈ lost, w.op ∉ s.synced) ∧
        Holds s.sys.log.start (applyWrites kept d0) s.sys.disk :=
    fun hh => ⟨s.writes, [], by simp, by simp, hh⟩
  rcases hinv.commit with ⟨-, -, p, pc, hpc, -, -⟩ | ⟨-, hnone, -⟩
  · have hd := hdisk.commit p pc hpc
    cases pc with
    | install tail =>
      obtain ⟨t, -, hcom, hmeans, -⟩ := hd
      exact hafter ⟨t, hcom, hmeans⟩
    | clear =>
      obtain ⟨t, hcom, hmeans, -⟩ := hd
      exact hafter ⟨t, hcom, hmeans⟩
    | eraseHead =>
      obtain ⟨t, hcom, hmeans, -⟩ := hd
      exact hbefore ⟨t, hcom, hmeans⟩
    | enter | writeLog tail | writeHead | finish => exact hbefore (hd.1.holds hd.2)
  · have hd := hdisk.quiet hnone
    exact hbefore (hd.1.holds hd.2)

end SyncSys

/-- **`sys_sync` is durable.**  Take any interleaving of operations, commits and `sys_sync` calls on
a freshly initialised log, cut the power in the state it reaches, and let recovery run until it
completes for the first time. The home blocks then hold the `log_write`s of the run up to some
point, in order, and beyond that point there is no `log_write` of any operation whose `end_op` had
run when a `sys_sync` that has returned took the lock. -/
theorem sync_durable {s0 s : SyncSys P} {as : List (LogAct P)} (h0 : s0.Initial)
    (hrun : Run SyncSys.step s0 as s) {d : Disk}
    (hrec : Recovers (recoverFromLog (bootLog s0.sys.log.start)) s.sys.disk d) :
    ∃ kept lost, s.writes = kept ++ lost ∧ (∀ w ∈ lost, w.op ∉ s.synced) ∧
      HomeEq s0.sys.log.start d (applyWrites kept s0.sys.disk) := by
  have hinv : SyncSys.Inv s0.sys.log.start s0.sys.disk s :=
    hrun.invariant (fun _ _ _ hi hs => hi.step hs) h0.inv
  obtain ⟨kept, lost, hw, hlost, hholds⟩ := hinv.holds
  refine ⟨kept, lost, hw, hlost, ?_⟩
  exact (Recovers.of_crashSpec (recoverFromLog_spec (bootLog s0.sys.log.start) rfl _) hrec hholds).2

/-- The operation of `true` logs block 40 and ends while that of `false` is still running; then
`true` calls `sys_sync`, which has to wait for the commit that `false` does. -/
def sampleSyncActs : List (LogAct Bool) :=
  [.beginOp false, .beginOp true, .modify true 40 (fun _ => 7), .logWrite true 40, .endOp true,
    .sync true, .endOp false, .commitStep false, .commitStep false, .commitStep false,
    .commitStep false, .commitStep false, .commitStep false, .commitStep false, .commitStep false,
    .commitStep false, .resume true]

/-- When that `sys_sync` returns, block 40 survives a crash. -/
theorem sync_durable_sample :
    ∃ s, Run SyncSys.step ⟨sampleLogSys, [], fun _ => [], []⟩ sampleSyncActs s ∧
      s.sys.proc true = .idle ∧ s.synced = [1] ∧
      ∀ d, Recovers (recoverFromLog (bootLog 2)) s.sys.disk d → d 40 = fun _ => 7 := by
  have hclean : Clean 2 (fun _ _ => 0) := by simp [Clean, hdrN, word32, toInt32]
  have h0 : SyncSys.Initial ⟨sampleLogSys, [], fun _ => [], []⟩ :=
    ⟨⟨rfl, rfl, rfl, fun _ => rfl, rfl⟩, rfl, hclean, rfl, rfl⟩
  have hrun : Run SyncSys.step ⟨sampleLogSys, [], fun _ => [], []⟩ sampleSyncActs _ :=
    Run.of_exec rfl
  refine ⟨_, hrun, rfl, rfl, fun d hd => ?_⟩
  obtain ⟨kept, lost, hw, hlost, hhome⟩ := sync_durable h0 hrun hd
  -- the only `log_write` is one of the promised operation, so it is not among the lost ones
  have hone : [⟨1, 40, fun _ => 7⟩] = kept ++ lost := hw
  have hkept : kept = [⟨1, 40, fun _ => 7⟩] := by
    cases kept with
    | nil =>
      have hl : lost = [⟨1, 40, fun _ => 7⟩] := hone.symm
      exact absurd (mem_singleton.mpr rfl) (hlost ⟨1, 40, fun _ => 7⟩ (by simp [hl]))
    | cons w ws =>
      simp only [cons_append, cons.injEq, nil_eq, append_eq_nil_iff] at hone
      rw [← hone.1, hone.2.1]
  have h40 := hhome 40 (by simp [sampleLogSys, InLog, LOGBLOCKS, MAXOPBLOCKS])
  rw [h40, hkept]
  rfl

end Xv6
