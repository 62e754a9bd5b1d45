import Mathlib.Data.List.GetD
import Xv6.Log.Commit

/-!
# Crash atomicity of the redo log

What a disk *means* is not what its home blocks hold but what recovery would leave there.
`Holds start L d` says that `d` means `L`: its header names a transaction whose copies are in the
log, and installing them over the home blocks gives `L`. A disk with an empty header means its own
home blocks.

Every write of `commit` and of `recover_from_log` other than the commit header write keeps the
meaning of the disk, and that one write moves it from before the transaction to after it. So
`Holds` is the crash condition of both programs:

* `installTrans_spec` and `clearHead_spec` are the two halves that `commit` and recovery share;
* `recoverFromLog_spec` is recovery, from any disk that means `L`;
* `writeLog_spec` covers the crash points before the commit point, `commit_tail_spec` those after.

`crash_atomic` puts them together over a whole history of transactions and crashes.
-/

namespace Xv6

open Function List ByteArr DiskProg

variable {start i b : ℕ} {d L : Disk} {P C : Disk → Prop}

/-! ## Transactions and what they do to the home blocks -/

/-- A transaction as `commit` finds it: the logged block numbers in log order, each with the
contents of its pinned buffer. -/
structure Txn (start : ℕ) where
  blocks : List (ℕ × Block)
  length_le : blocks.length ≤ LOGBLOCKS
  nodup : (blocks.map Prod.fst).Nodup
  home : ∀ p ∈ blocks, ¬ InLog start p.1
  blockno_lt : ∀ p ∈ blocks, p.1 < 2 ^ 32

namespace Txn

/-- Number of logged blocks. -/
def size (t : Txn start) : ℕ := t.blocks.length

/-- The home block number of log entry `i`. -/
def dst (t : Txn start) (i : ℕ) : ℕ := (t.blocks.getD i (0, fun _ => 0)).1

/-- The contents of log entry `i`. -/
def val (t : Txn start) (i : ℕ) : Block := (t.blocks.getD i (0, fun _ => 0)).2

/-- The in-memory log when this transaction is about to be committed. -/
def log (t : Txn start) : Log where
  start := start
  lh := ⟨t.size, t.dst⟩

/-- The buffers this transaction has pinned. -/
def cache (t : Txn start) : Cache := fun b => t.blocks.lookup b

/-- The disk with the whole transaction installed. -/
def apply (t : Txn start) (d : Disk) : Disk := fun b => (t.blocks.lookup b).getD (d b)

section

variable (t : Txn start) (h : i < t.size)
include t h

lemma entry_mem : (t.dst i, t.val i) ∈ t.blocks := by
  have hg : t.blocks.getD i (0, fun _ => 0) = t.blocks.get ⟨i, h⟩ := by
    rw [getD_eq_getElem _ _ h]
    rfl
  have : (t.dst i, t.val i) = t.blocks.get ⟨i, h⟩ := by rw [dst, val, hg]
  rw [this]
  exact get_mem _ _

lemma dst_not_inLog : ¬ InLog start (t.dst i) :=
  t.home _ (t.entry_mem h)

lemma dst_lt : t.dst i < 2 ^ 32 :=
  t.blockno_lt _ (t.entry_mem h)

end

lemma lookup_eq_of_mem {v : Block} :
    ∀ {l : List (ℕ × Block)}, (l.map Prod.fst).Nodup → (b, v) ∈ l → l.lookup b = some v
  | (c, w) :: l, hnd, h => by
      rw [map_cons, nodup_cons] at hnd
      rcases mem_cons.mp h with heq | hmem
      · cases heq
        simp
      · have hne : b ≠ c := by
          rintro rfl
          exact hnd.1 (mem_map.mpr ⟨_, hmem, rfl⟩)
        rw [lookup_cons, beq_false_of_ne hne]
        exact lookup_eq_of_mem hnd.2 hmem

lemma lookup_dst (t : Txn start) (h : i < t.size) : t.blocks.lookup (t.dst i) = some (t.val i) :=
  lookup_eq_of_mem t.nodup (t.entry_mem h)

/-- A block number the transaction does not log is found by no key. -/
lemma lookup_eq_none_or (t : Txn start) (b : ℕ) :
    t.blocks.lookup b = none ∨ ∃ i < t.size, t.dst i = b := by
  rcases hb : t.blocks.lookup b with _ | v
  · exact .inl rfl
  · right
    obtain ⟨l1, l2, hl, -⟩ := lookup_eq_some_iff.mp hb
    refine ⟨l1.length, by simp [size, hl], ?_⟩
    simp [dst, hl]

lemma cache_inLog (t : Txn start) (hb : InLog start b) : t.cache b = none := by
  rcases t.lookup_eq_none_or b with h | ⟨i, hi, rfl⟩
  · exact h
  · exact absurd hb (t.dst_not_inLog hi)

/-- The transaction that logs nothing. -/
def nil (start : ℕ) : Txn start := ⟨[], by simp, by simp, by simp, by simp⟩

end Txn

/-! ## What a disk means -/

/-- Two disks agree outside the log area. -/
def HomeEq (start : ℕ) (d d' : Disk) : Prop := ∀ b, ¬ InLog start b → d b = d' b

/-- The on-disk header is empty. -/
def Clean (start : ℕ) (d : Disk) : Prop := hdrN (d start) = 0

/-- The on-disk header names `t` and the log blocks hold its contents. -/
structure Committed (t : Txn start) (d : Disk) : Prop where
  hdrN_eq : hdrN (d start) = t.size
  hdrBlock_eq : ∀ i < t.size, hdrBlock (d start) i = t.dst i
  copy_eq : ∀ i < t.size, d (start + i + 1) = t.val i

/-- The disk `d` means `L`: installing what its header names gives `L`. -/
def Holds (start : ℕ) (L d : Disk) : Prop :=
  ∃ t : Txn start, Committed t d ∧ HomeEq start (t.apply d) L

lemma inLog_header (start : ℕ) : InLog start start := ⟨le_rfl, by omega⟩

lemma inLog_copy (start : ℕ) (h : i < LOGBLOCKS) : InLog start (start + i + 1) :=
    ⟨by omega, by omega⟩

lemma HomeEq.update_inLog (h : HomeEq start d L) {c : ℕ} (hc : InLog start c)
    (v : Block) : HomeEq start (update d c v) L := by
  intro b hb
  have hne : b ≠ c := by rintro rfl; exact hb hc
  rw [update_of_ne hne]
  exact h b hb

lemma Clean.holds (hc : Clean start d) (h : HomeEq start d L) : Holds start L d :=
  ⟨Txn.nil start, ⟨hc, by simp [Txn.size, Txn.nil], by simp [Txn.size, Txn.nil]⟩, h⟩

lemma Committed.update_home {t : Txn start} (h : Committed t d) {c : ℕ}
    (hc : ¬ InLog start c) (v : Block) : Committed t (update d c v) := by
  have hstart : start ≠ c := by rintro rfl; exact hc (inLog_header start)
  refine ⟨?_, fun i hi => ?_, fun i hi => ?_⟩
  · rw [update_of_ne hstart]; exact h.hdrN_eq
  · rw [update_of_ne hstart]; exact h.hdrBlock_eq i hi
  · have hne : start + i + 1 ≠ c := by
      rintro rfl
      exact hc (inLog_copy start (lt_of_lt_of_le hi t.length_le))
    rw [update_of_ne hne]
    exact h.copy_eq i hi

/-- Installing a block over its home location does not change what the transaction makes of the
disk. -/
lemma Txn.apply_update_dst (t : Txn start) (d : Disk) (hi : i < t.size) (v : Block) :
    t.apply (update d (t.dst i) v) = t.apply d := by
  funext b
  by_cases hb : b = t.dst i
  · subst hb
    simp [Txn.apply, t.lookup_dst hi]
  · simp [Txn.apply, update_of_ne hb]

lemma Txn.apply_eq_self (t : Txn start) (h : ∀ i < t.size, d (t.dst i) = t.val i) :
    t.apply d = d := by
  funext b
  rcases t.lookup_eq_none_or b with hb | ⟨i, hi, rfl⟩
  · simp [Txn.apply, hb]
  · simp [Txn.apply, t.lookup_dst hi, h i hi]

/-! ## The steps of commit and recovery -/

lemma bread_spec {cache : Cache} (hb : cache b = none)
    (hC : ∀ d, P d → C d) : CrashSpec P (bread cache b) (fun v d => P d ∧ d b = v) C := by
  simp only [bread, hb]
  exact CrashSpec.read fun v => CrashSpec.ret (fun d h => h) (fun d h => hC d h.1)

lemma bread_spec_frame (cache : Cache) (b : ℕ) (hC : ∀ d, P d → C d) :
    CrashSpec P (bread cache b) (fun _ d => P d) C := by
  rcases hb : cache b with _ | v
  · exact (bread_spec hb hC).conseq (fun _ h => h) (fun _ _ h => h.1) (fun _ h => h)
  · simp only [bread, hb]
    exact CrashSpec.ret (fun _ h => h) hC

lemma bwrite_spec {v : Block} {P P' C : Disk → Prop} (hC : ∀ d, P d → C d)
    (hP : ∀ d, P d → P' (update d b v)) (hC' : ∀ d, P' d → C d) :
    CrashSpec P (bwrite b v) (fun _ => P') C :=
  CrashSpec.write hC hP (CrashSpec.ret (fun _ h => h) hC')

/-- The in-memory header names the blocks of `t`. -/
structure Names (log : Log) (t : Txn start) : Prop where
  start_eq : log.start = start
  n_eq : log.lh.n = t.size
  block_eq : ∀ i < t.size, log.lh.block i = t.dst i

lemma Txn.log_names (t : Txn start) : Names t.log t := ⟨rfl, rfl, fun _ _ => rfl⟩

/-- **`install_trans`.**  Run on a committed transaction it installs every block, and no crash point
on the way changes what the disk means: the header is still there to redo the copying. -/
lemma installTrans_spec {t : Txn start} {log : Log} (hlog : Names log t) {cache : Cache}
    (hcache : ∀ b, InLog start b → cache b = none) (L : Disk) :
    CrashSpec (fun d => Committed t d ∧ HomeEq start (t.apply d) L) (installTrans log cache)
      (fun _ d => Committed t d ∧ HomeEq start (t.apply d) L ∧ ∀ i < t.size, d (t.dst i) = t.val i)
      (Holds start L) := by
  have hn : log.lh.n.toNat = t.size := by rw [hlog.n_eq]; rfl
  -- after `m` iterations the first `m` blocks are installed
  let I : ℕ → Disk → Prop := fun m d =>
    Committed t d ∧ HomeEq start (t.apply d) L ∧ ∀ i < m, d (t.dst i) = t.val i
  have hI : ∀ m d, I m d → Holds start L d := fun m d h => ⟨t, h.1, h.2.1⟩
  have hbody : ∀ m < t.size, CrashSpec (I m)
      (do let lbuf ← bread cache (log.start + m + 1)
          let _dbuf ← bread cache (log.lh.block m)
          bwrite (log.lh.block m) lbuf) (fun _ => I (m + 1)) (Holds start L) := by
    intro m hm
    rw [hlog.start_eq, hlog.block_eq m hm]
    have hcopy := inLog_copy start (lt_of_lt_of_le hm t.length_le)
    refine (bread_spec (hcache _ hcopy) (hI m)).bind fun v => ?_
    refine (bread_spec_frame cache _ fun d h => hI m d h.1).bind fun _ => ?_
    refine bwrite_spec (fun d h => hI m d h.1) (fun d ⟨⟨hcom, hL, hdone⟩, hv⟩ => ?_) (hI (m + 1))
    rw [hcom.copy_eq m hm] at hv
    subst hv
    refine ⟨hcom.update_home (t.dst_not_inLog hm) _, ?_, fun i hi => ?_⟩
    · rw [t.apply_update_dst d hm]; exact hL
    · by_cases heq : t.dst i = t.dst m
      · have hval := t.lookup_dst hm
        rw [← heq, t.lookup_dst (by omega)] at hval
        rw [heq, update_self]
        exact (Option.some.inj hval).symm
      · have hlt : i < m := by
          rcases Nat.lt_succ_iff_lt_or_eq.mp hi with h | rfl
          · exact h
          · exact absurd rfl heq
        rw [update_of_ne heq]
        exact hdone i hlt
  have hloop := CrashSpec.forUpto (hI 0) hbody
  rw [installTrans, hn]
  exact hloop.conseq (fun d h => ⟨h.1, h.2, by simp⟩) (fun _ _ h => h) (fun _ h => h)

lemma clean_putHeader_clear (log : Log) (b : Block) : hdrN (putHeader b log.clear.lh) = 0 :=
  hdrN_putHeader b log.clear.lh le_rfl (by norm_num [Log.clear])

/-- Erasing the header once everything is installed keeps the meaning of the disk. -/
lemma clearHead_spec {t : Txn start} (log : Log) (hlog : log.start = start) {cache : Cache}
    (hcache : ∀ b, InLog start b → cache b = none) (L : Disk) :
    CrashSpec (fun d => Committed t d ∧ HomeEq start (t.apply d) L ∧
        ∀ i < t.size, d (t.dst i) = t.val i)
      (writeHead log.clear cache) (fun _ d => Clean start d ∧ HomeEq start d L)
      (Holds start L) := by
  have hstart : log.clear.start = start := hlog
  rw [writeHead, hstart]
  refine (bread_spec (hcache _ (inLog_header start)) fun d h => ⟨t, h.1, h.2.1⟩).bind fun v => ?_
  refine bwrite_spec (fun d h => ⟨t, h.1.1, h.1.2.1⟩) (fun d ⟨⟨_, hL, hdone⟩, _⟩ => ?_)
    (fun d h => h.1.holds h.2)
  rw [t.apply_eq_self hdone] at hL
  refine ⟨?_, hL.update_inLog (inLog_header start) _⟩
  rw [Clean, update_self]
  exact clean_putHeader_clear log v

/-- **Recovery.**  From any disk that means `L`, `recover_from_log` leaves `L` in the home blocks
and an empty header, and a crash inside it leaves a disk that still means `L`. -/
lemma recoverFromLog_spec (log : Log) (hlog : log.start = start) (L : Disk) :
    CrashSpec (Holds start L) (recoverFromLog log)
      (fun _ d => Clean start d ∧ HomeEq start d L) (Holds start L) := by
  -- the transaction found depends on the disk recovery starts from, so fix that disk first
  rintro d0 ⟨t, hcom, hL⟩
  have hempty : ∀ b, InLog start b → Cache.empty b = none := fun _ _ => rfl
  have hspec : CrashSpec (fun d => Committed t d ∧ HomeEq start (t.apply d) L)
      (recoverFromLog log) (fun _ d => Clean start d ∧ HomeEq start d L) (Holds start L) := by
    have hread : CrashSpec (fun d => Committed t d ∧ HomeEq start (t.apply d) L)
        (readHead log .empty)
        (fun log' d => Names log' t ∧ Committed t d ∧ HomeEq start (t.apply d) L)
        (Holds start L) := by
      rw [readHead, hlog]
      refine (bread_spec rfl fun d h => ⟨t, h⟩).bind fun v => ?_
      refine CrashSpec.ret (fun d ⟨⟨h, hL⟩, hv⟩ => ?_) (fun d h => ⟨t, h.1⟩)
      subst hv
      exact ⟨⟨rfl, h.hdrN_eq, h.hdrBlock_eq⟩, h, hL⟩
    refine hread.bind fun log' d hd => ?_
    have htail := (installTrans_spec hd.1 hempty L).bind
      fun _ => clearHead_spec log' hd.1.start_eq hempty L
    exact htail d hd.2
  exact hspec d0 ⟨hcom, hL⟩

/-- **`write_log`.**  The copies go to log blocks the empty header does not name, so the disk keeps
its meaning throughout. -/
lemma writeLog_spec (t : Txn start) (L : Disk) :
    CrashSpec (fun d => Clean start d ∧ HomeEq start d L) (writeLog t.log t.cache)
      (fun _ d => Clean start d ∧ HomeEq start d L ∧ ∀ i < t.size, d (start + i + 1) = t.val i)
      (Holds start L) := by
  let I : ℕ → Disk → Prop := fun m d =>
    Clean start d ∧ HomeEq start d L ∧ ∀ i < m, d (start + i + 1) = t.val i
  have hI : ∀ m d, I m d → Holds start L d := fun m d h => h.1.holds h.2.1
  have hbody : ∀ m < t.size, CrashSpec (I m)
      (do let _to ← bread t.cache (start + m + 1)
          let blk ← bread t.cache (t.dst m)
          bwrite (start + m + 1) blk) (fun _ => I (m + 1)) (Holds start L) := by
    intro m hm
    have hcopy := inLog_copy start (lt_of_lt_of_le hm t.length_le)
    have hpinned : bread t.cache (t.dst m) = .ret (t.val m) := by
      simp only [bread, Txn.cache, t.lookup_dst hm]
    rw [hpinned]
    refine (bread_spec_frame t.cache _ (hI m)).bind fun _ => ?_
    refine bwrite_spec (hI m) (fun d ⟨hclean, hL, hdone⟩ => ?_) (hI (m + 1))
    refine ⟨?_, hL.update_inLog hcopy _, fun i hi => ?_⟩
    · rw [Clean, update_of_ne (by omega)]; exact hclean
    · rcases Nat.lt_succ_iff_lt_or_eq.mp hi with h | rfl
      · rw [update_of_ne (by omega)]; exact hdone i h
      · rw [update_self]
  have hloop := CrashSpec.forUpto (hI 0) hbody
  exact hloop.conseq (fun d h => ⟨h.1, h.2, by simp⟩) (fun _ _ h => h) (fun _ h => h)

lemma writes_bread (cache : Cache) (b : ℕ) (d : Disk) : (bread cache b).writes d = 0 := by
  rcases hb : cache b with _ | v <;> simp [bread, hb, writes]

section

variable (t : Txn start)
include t

/-- `write_log` issues one write for each logged block: the next write of `commit` is the header. -/
lemma writes_writeLog (d : Disk) : (writeLog t.log t.cache).writes d = t.size := by
  refine writes_forUpto (fun i d => ?_) t.size d
  simp only [bind_eq, writes_bind, writes_bread]
  rfl

/-- The header write commits: on a disk that holds all the copies it makes the header name `t`, so
the disk now means the state after the transaction. -/
lemma committed_putHeader (hL : HomeEq start d L)
    (hcopy : ∀ i < t.size, d (start + i + 1) = t.val i) :
    Committed t (update d start (putHeader (d start) t.log.lh)) ∧
      HomeEq start (t.apply (update d start (putHeader (d start) t.log.lh))) (t.apply L) := by
  have hsize : t.size ≤ LOGBLOCKS := t.length_le
  refine ⟨⟨?_, fun i hi => ?_, fun i hi => ?_⟩, fun b hb => ?_⟩
  · rw [update_self]
    exact hdrN_putHeader _ t.log.lh (by simp [Txn.log])
      (by simp only [Txn.log, LOGBLOCKS, MAXOPBLOCKS] at hsize ⊢; omega)
  · rw [update_self]
    exact hdrBlock_putHeader _ t.log.lh hi (t.dst_lt hi)
  · rw [update_of_ne (by omega)]
    exact hcopy i hi
  · simp only [Txn.apply, hL.update_inLog (inLog_header start) _ b hb]

lemma commit_tail_spec (L : Disk) : CrashSpec (fun d => Committed t d ∧ HomeEq start (t.apply d) L)
      ((installTrans t.log t.cache).bind fun _ => writeHead t.log.clear t.cache)
      (fun _ d => Clean start d ∧ HomeEq start d L) (Holds start L) :=
  (installTrans_spec t.log_names (fun _ => t.cache_inLog) L).bind
    fun _ => clearHead_spec t.log rfl (fun _ => t.cache_inLog) L

lemma writeHead_log_eq : writeHead t.log t.cache
      = .read start fun v => .write start (putHeader v t.log.lh) (.ret ()) := by
  have hc : t.cache t.log.start = none := t.cache_inLog (inLog_header start)
  simp only [writeHead, bread, hc]
  rfl

/-- `commit` on a non-empty transaction, as `write_log` followed by the rest. -/
lemma commit_eq (h : 0 < t.size) : commit t.log t.cache = (writeLog t.log t.cache).bind fun _ =>
      .read start fun v => .write start (putHeader v t.log.lh)
        ((installTrans t.log t.cache).bind fun _ => writeHead t.log.clear t.cache) := by
  have hn : t.log.lh.n > 0 := by simpa [Txn.log] using h
  rw [commit, if_pos hn, writeHead_log_eq]
  rfl

lemma commit_eq_ret (h : t.size = 0) : commit t.log t.cache = .ret () := by
  have hn : ¬ t.log.lh.n > 0 := by simp [Txn.log, h]
  rw [commit, if_neg hn]

lemma Txn.apply_of_size_zero (h : t.size = 0) (d : Disk) : t.apply d = d :=
  t.apply_eq_self fun i hi => by omega

/-- A crash before the header write leaves the state before the transaction. -/
lemma commit_crash_le (hd : Clean start d) {k : ℕ} (hk : k ≤ t.size) :
    Holds start d (crash k (commit t.log t.cache) d) := by
  have hhome : HomeEq start d d := fun _ _ => rfl
  rcases Nat.eq_zero_or_pos t.size with h0 | hpos
  · rw [commit_eq_ret t h0, crash_ret]
    exact hd.holds hhome
  · rw [commit_eq t hpos, crash_bind_le _ _ _ (by rwa [writes_writeLog])]
    exact (writeLog_spec t d d ⟨hd, hhome⟩).2 k

/-- A crash after the header write, and completion, leave the state after the transaction. -/
lemma commit_crash_gt (hd : Clean start d) : (Clean start ((commit t.log t.cache).run d).2 ∧
      HomeEq start ((commit t.log t.cache).run d).2 (t.apply d)) ∧
    ∀ k, t.size < k → Holds start (t.apply d) (crash k (commit t.log t.cache) d) := by
  have hhome : HomeEq start d d := fun _ _ => rfl
  rcases Nat.eq_zero_or_pos t.size with h0 | hpos
  · rw [commit_eq_ret t h0, t.apply_of_size_zero h0]
    exact ⟨⟨hd, hhome⟩, fun k _ => by rw [crash_ret]; exact hd.holds hhome⟩
  · obtain ⟨⟨hclean, hL, hcopy⟩, -⟩ := writeLog_spec t d d ⟨hd, hhome⟩
    have htail := commit_tail_spec t (t.apply d) _ (committed_putHeader t hL hcopy)
    rw [commit_eq t hpos]
    refine ⟨by rw [run_bind, run_read, run_write]; exact htail.1, fun k hk => ?_⟩
    have hw := writes_writeLog t d
    obtain ⟨m, hm⟩ : ∃ m, k - (writeLog t.log t.cache).writes d = m + 1 :=
      ⟨k - t.size - 1, by omega⟩
    rw [crash_bind_ge _ _ _ (by omega), hm, crash_read, crash_write_succ]
    exact htail.2 m

end

/-! ## Whole histories -/

/-- What happens to one transaction: it is committed, or power is lost after `k` block writes of
its commit. -/
inductive Event (start : ℕ) where
  | complete (t : Txn start)
  | interrupted (t : Txn start) (k : ℕ)

/-- The transaction counts as done: it completed, or the commit header write (the write after the
`t.size` of `write_log`) had reached the disk. -/
def Event.survives : Event start → Bool
  | .complete _ => true
  | .interrupted t k => t.size < k

/-- The transaction of an event. -/
def Event.txn : Event start → Txn start
  | .complete t => t
  | .interrupted t _ => t

/-- The home blocks after a history: exactly the surviving transactions, whole and in order. -/
def replay (es : List (Event start)) (d : Disk) : Disk :=
  es.foldl (fun d e => if e.survives then e.txn.apply d else d) d

/-- The log as `initlog` finds it, before recovery has read the header. -/
def bootLog (start : ℕ) : Log := { start := start, lh := ⟨0, fun _ => 0⟩ }

/-- A history of transactions on a disk. After an interrupted one the machine reboots and runs
`recover_from_log` until it completes for the first time. -/
inductive History (start : ℕ) : Disk → List (Event start) → Disk → Prop where
  | nil (d : Disk) : History start d [] d
  | complete (t : Txn start) {d d' : Disk} {es : List (Event start)} :
      History start ((commit t.log t.cache).run d).2 es d' →
      History start d (.complete t :: es) d'
  | interrupted (t : Txn start) (k : ℕ) {d d1 d' : Disk} {es : List (Event start)} :
      Recovers (recoverFromLog (bootLog start)) (crash k (commit t.log t.cache) d) d1 →
      History start d1 es d' → History start d (.interrupted t k :: es) d'

lemma replay_congr (es : List (Event start)) {d d' : Disk} (h : HomeEq start d d') :
    HomeEq start (replay es d) (replay es d') := by
  induction es generalizing d d' with
  | nil => exact h
  | cons e es ih =>
    simp only [replay, foldl_cons]
    refine ih ?_
    split_ifs
    · intro b hb
      simp only [Txn.apply, h b hb]
    · exact h

/-- **Crash atomicity.**  Whatever sequence of transactions runs on a disk with an empty log
header, wherever each of them is interrupted and however often its recovery is interrupted in turn,
the home blocks end up holding exactly the transactions that completed or whose header write had
reached the disk, each of them whole, and the header is empty. -/
theorem crash_atomic {d d' : Disk} {es : List (Event start)} (hd : Clean start d)
    (h : History start d es d') : HomeEq start d' (replay es d) ∧ Clean start d' := by
  induction h with
  | nil d => exact ⟨fun _ _ => rfl, hd⟩
  | complete t _ ih =>
    obtain ⟨⟨hclean, hhome⟩, -⟩ := commit_crash_gt t hd
    obtain ⟨ih1, ih2⟩ := ih hclean
    refine ⟨fun b hb => (ih1 b hb).trans (replay_congr _ hhome b hb), ih2⟩
  | @interrupted t k d d1 d' es hrec _ ih =>
    have hholds : Holds start (replay [.interrupted t k] d)
        (crash k (commit t.log t.cache) d) := by
      by_cases hk : t.size < k
      · simpa [replay, Event.survives, Event.txn, hk] using (commit_crash_gt t hd).2 k hk
      · simpa [replay, Event.survives, Event.txn, hk] using commit_crash_le t hd (by omega)
    obtain ⟨hclean, hhome⟩ :=
      Recovers.of_crashSpec (recoverFromLog_spec (bootLog start) rfl _) hrec hholds
    obtain ⟨ih1, ih2⟩ := ih hclean
    exact ⟨fun b hb => (ih1 b hb).trans (replay_congr _ hhome b hb), ih2⟩

/-- A transaction writing `7`s over block 40, of a log that starts at block 2. -/
def sampleTxn : Txn 2 :=
  ⟨[(40, fun _ => 7)], by simp [LOGBLOCKS, MAXOPBLOCKS], by simp,
    by simp [InLog, LOGBLOCKS, MAXOPBLOCKS], by simp⟩

/-- Power lost right after the header write, and again after the first write of recovery: the next
recovery still brings block 40 to its new contents and leaves the others alone. -/
theorem crash_atomic_sample : ∃ d', History 2 (fun _ _ => 0) [.interrupted sampleTxn 2] d' ∧
      d' 40 = (fun _ => 7) ∧ d' 41 = (fun _ => 0) ∧ Clean 2 d' := by
  have hclean : Clean 2 (fun _ _ => 0) := by simp [Clean, hdrN, word32, toInt32]
  have hist : History 2 (fun _ _ => 0) [.interrupted sampleTxn 2] _ :=
    .interrupted sampleTxn 2 (.crash 1 (.done _)) (.nil _)
  obtain ⟨hhome, hclean'⟩ := crash_atomic hclean hist
  refine ⟨_, hist, ?_, ?_, hclean'⟩
  · exact hhome 40 (by simp [InLog, LOGBLOCKS, MAXOPBLOCKS])
  · exact hhome 41 (by simp [InLog, LOGBLOCKS, MAXOPBLOCKS])

end Xv6
