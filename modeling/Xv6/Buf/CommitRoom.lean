import Xv6.Buf.Coherence

/-!
# Buffers for the commit

Every block in the log header has its buffer pinned until `install_trans` has written it home.
`commit` needs a further buffer for the log: `write_log` and `install_trans` hold one for the block
of the log and one for its home block, `write_head` one for the header.

**The home blocks** are in the cache, since they are pinned, so `bread` finds them (`home_cached`).
**The log blocks** need a buffer that is not used. With nobody else around, the buffers in use are
the pinned ones, one for each entry of the header; there is another one just if the header has fewer
than `NBUF` entries. `LOGBLOCKS` is `NBUF`, so a group as large as `begin_op` admits leaves none,
and `commit` panics in its first `bread`.
-/

namespace Xv6

open Function

namespace BioLoc

/-- The buffers that `commit` holds. -/
def holds (l : BioLoc) : List Buf := l.wet ++ l.clean

/-- A call of `bread` in `commit`, for one of the `n` entries. -/
def Reads (n : ℤ) : BioLoc → Prop
  | .logTo tail => (tail : ℤ) < n
  | .logFrom tail _ => (tail : ℤ) < n
  | .headRead _ => True
  | .instLog tail => (tail : ℤ) < n
  | .instHome tail _ => (tail : ℤ) < n
  | _ => False

/-- `commit` has the log block of one of the `n` entries and will read the home block. -/
def Enters (n : ℤ) : BioLoc → Prop
  | .logFrom tail _ => (tail : ℤ) < n
  | .instHome tail _ => (tail : ℤ) < n
  | _ => True

end BioLoc

namespace BioPc

/-- The buffers whose locks the process has. -/
def held : BioPc → List Buf
  | .here l => l.holds
  | .getting _ _ _ l => l.holds
  | .filling _ _ b l => b :: l.holds
  | .dropping _ l => l.holds

def Ready (n : ℤ) : BioPc → Prop
  | .here l => l.Enters n
  | .getting _ _ _ l => l.Reads n
  | .filling _ _ _ l => l.Reads n
  | .dropping _ l => l.Enters n

end BioPc

namespace BufSys

open BioLoc BioPc

variable {P : Type} [DecidableEq P]

/-- No process holds a buffer, waits for one or has pinned one. -/
structure Unheld (s : BufSys P) : Prop where
  lock : ∀ b, s.cache.lock b = none
  ref : ∀ q, (s.pc q).ref = none
  pins : ∀ b, s.pins b = 0

/-- As `p` goes on with `commit`, alone, it does not run out of buffers. -/
def CommitSafe (s : BufSys P) (p : P) : Prop :=
  ∀ as s' x, RunOf step (fun t a => a.1 = p ∧ (t.pc p).loc ≠ .user) s as s' →
    (s'.pc p).loc ≠ .user → s'.step (p, x) ≠ .panic .noBuffers

/-- Only `p` uses buffers, those of `commit`. -/
structure Alone (s : BufSys P) (p : P) : Prop where
  lock : ∀ b q, s.cache.lock b = some q → q = p ∧ b ∈ (s.pc p).held
  ref : ∀ q, q ≠ p → (s.pc q).ref = none
  pins : ∀ b, s.pins b = 0
  ready : (s.pc p).Ready s.log.lh.n

variable {s s' s0 : BufSys P} {p q : P} {b b' : Buf} {d n : ℕ} {l l' : BioLoc} {x : BioCall}
  {a : P × BioCall}

/-! ## A step of the commit -/

lemma Alone.of_unheld (h : s.Unheld) (hpc : s.pc p = .here .commit) : s.Alone p where
  lock b q hb := by simp [h.lock] at hb
  ref q _ := h.ref q
  pins := h.pins
  ready := by simp [hpc, Ready, Enters]

lemma Alone.goto (h : s.Alone p) {c : BioPc} (hpc : s'.pc = update s.pc p c)
    (hlock : ∀ b q, s'.cache.lock b = some q → q = p ∧ b ∈ c.held)
    (hpins : s'.pins = s.pins) (hready : c.Ready s'.log.lh.n) : s'.Alone p := by
  refine ⟨?_, ?_, hpins ▸ h.pins, ?_⟩
  · rw [hpc, update_self]
    exact hlock
  · intro q hq
    rw [hpc, update_of_ne hq]
    exact h.ref q hq
  · rw [hpc, update_self]
    exact hready

/-- Between two calls `commit` keeps the buffers it holds. -/
lemma holds_next {v : Block} {t : ℕ} (hl : l ≠ .user) (hc : s.code l x = .store b v l' ∨
    s.code l x = .bwrite b l' ∨ s.code l x = .unpinLogged t b l' ∨ s.code l x = .goto l') :
    l.holds ⊆ l'.holds ∧ l'.Enters s.log.lh.n := by
  rcases hc with hc | hc | hc | hc
  · obtain ⟨rfl, -⟩ | ⟨t, src, rfl, rfl⟩ | ⟨last, rfl, rfl⟩ | ⟨t, lb, rfl, rfl⟩ := code_store hc
    · exact absurd rfl hl
    all_goals simp [holds, wet, clean, Enters]
  · obtain ⟨rfl, -⟩ | ⟨t, src, rfl, rfl⟩ | ⟨last, rfl, rfl⟩ | ⟨t, lb, rfl, rfl⟩ := code_bwrite hc
    · exact absurd rfl hl
    all_goals simp [holds, wet, clean, Enters]
  · obtain ⟨lb, rfl, rfl⟩ := code_unpin hc
    simp [holds, wet, clean, Enters]
  · obtain ⟨rfl, rfl⟩ | ⟨rfl, rfl⟩ | ⟨t, rfl, rfl⟩ | ⟨t, rfl, -, rfl⟩ := code_goto hc
    all_goals simp [holds, wet, clean, Enters]

lemma holds_released (hl : l ≠ .user) (hc : s.code l x = .brelse b l') :
    (∀ b' ∈ l.holds, b' ≠ b → b' ∈ l'.holds) ∧ l'.Enters s.log.lh.n := by
  obtain ⟨-, rfl, -⟩ | ⟨t, dst, rfl, rfl⟩ | ⟨t, rfl, rfl⟩ | ⟨rfl, rfl⟩ | ⟨rfl, rfl⟩ |
    ⟨t, db, rfl, rfl⟩ | ⟨t, rfl, rfl⟩ := code_brelse hc
  · exact absurd rfl hl
  all_goals simp [holds, wet, clean, Enters]

lemma reads_of_code (hl : l ≠ .user) (henter : l.Enters s.log.lh.n) (hc : s.code l x = .bread d n) :
    l.Reads s.log.lh.n := by
  cases l with
  | user => exact absurd rfl hl
  | _ =>
    simp only [code] at hc
    (try split_ifs at hc) <;> first | assumption | exact henter | trivial

lemma holds_ret {k : ℤ} (h : l.Reads k) (b : Buf) :
    b :: l.holds ⊆ (l.ret b).holds ∧ (l.ret b).Enters k := by
  cases l with
  | logTo | logFrom | headRead | instLog | instHome =>
    refine ⟨by simp [holds, wet, clean, ret], ?_⟩
    first | exact h | trivial
  | _ => exact h.elim

lemma Alone.perform {i : BioInstr} (hi : s.Inv) (h : s.Alone p) (hpc : s.pc p = .here l)
    (hl : l ≠ .user) (hc : s.code l x = i) (hs : s.perform p l i = .next s') :
    s'.Alone p ∧ (s'.log.lh.n = s.log.lh.n ∨ s'.log.lh.n = 0) := by
  have hlock : ∀ b q, s.cache.lock b = some q → q = p ∧ b ∈ l.holds := by
    intro b q hb
    have hb' := h.lock b q hb
    rwa [hpc] at hb'
  have henter : l.Enters s.log.lh.n := by
    have hready := h.ready
    rwa [hpc] at hready
  cases i with
  | bread d n =>
    simp only [BufSys.perform] at hs
    split at hs
    · next b c hget =>
      cases hs
      have hreads := reads_of_code hl henter hc
      have hkeep : c.lock = s.cache.lock := by
        rcases hi.coherent.bget hget with ⟨-, -, rfl⟩ | ⟨-, -, rfl⟩ <;> rfl
      exact ⟨h.goto rfl (hkeep ▸ hlock) rfl hreads, .inl rfl⟩
    · cases hs
    · cases hs
  | store b v l' =>
    simp only [BufSys.perform] at hs
    split_ifs at hs
    cases hs
    have hnext := holds_next (t := 0) hl (.inl hc)
    exact ⟨h.goto rfl (fun b q hb => (hlock b q hb).imp_right (hnext.1 ·)) rfl hnext.2, .inl rfl⟩
  | bwrite b l' =>
    simp only [BufSys.perform] at hs
    split_ifs at hs
    cases hs
    have hnext := holds_next (t := 0) (v := fun _ => 0) hl (.inr (.inl hc))
    exact ⟨h.goto rfl (fun b q hb => (hlock b q hb).imp_right (hnext.1 ·)) rfl hnext.2, .inl rfl⟩
  | brelse b l' =>
    simp only [BufSys.perform] at hs
    split_ifs at hs
    cases hs
    have hnext := holds_released hl hc
    refine ⟨h.goto rfl ?_ rfl hnext.2, .inl rfl⟩
    intro b' q (hb : update s.cache.lock b none b' = some q)
    by_cases hbb : b' = b
    · subst hbb
      rw [update_self] at hb
      cases hb
    · rw [update_of_ne hbb] at hb
      exact (hlock b' q hb).imp_right fun hin => hnext.1 b' hin hbb
  | unpinLogged t b l' =>
    cases hs
    have hnext := holds_next (v := fun _ => 0) hl (.inr (.inr (.inl hc)))
    exact ⟨h.goto rfl (fun b q hb => (hlock b q hb).imp_right (hnext.1 ·)) rfl hnext.2, .inl rfl⟩
  | goto l' =>
    cases hs
    have hnext := holds_next (t := 0) (v := fun _ => 0) (b := 0) hl (.inr (.inr (.inr hc)))
    exact ⟨h.goto rfl (fun b q hb => (hlock b q hb).imp_right (hnext.1 ·)) rfl hnext.2, .inl rfl⟩
  | clear =>
    cases hs
    obtain rfl := code_clear hc
    exact ⟨h.goto rfl hlock rfl trivial, .inr rfl⟩
  | finish =>
    cases hs
    obtain rfl := code_finish hc
    exact ⟨h.goto rfl hlock rfl trivial, .inl rfl⟩
  | bpin b => exact absurd (code_user (.inl hc)) hl
  | bunpin b => exact absurd (code_user (.inr (.inl hc))) hl
  | logWrite b => exact absurd (code_user (.inr (.inr (.inl hc)))) hl
  | beginOp => exact absurd (code_user (b := 0) (.inr (.inr (.inr (.inl hc))))) hl
  | endOp => exact absurd (code_user (b := 0) (.inr (.inr (.inr (.inr hc))))) hl

lemma Alone.step (hi : s.Inv) (h : s.Alone p) (hl : (s.pc p).loc ≠ .user)
    (hs : s.step (p, x) = .next s') :
    s'.Alone p ∧ (s'.log.lh.n = s.log.lh.n ∨ s'.log.lh.n = 0) := by
  simp only [BufSys.step] at hs
  have hready := h.ready
  have hlock := h.lock
  split at hs
  · next l hpc =>
    rw [hpc] at hl
    exact h.perform hi hpc hl rfl hs
  · next d n b l hpc =>
    rw [hpc] at hready hlock
    split_ifs at hs
    cases hs
    refine ⟨h.goto rfl ?_ rfl hready, .inl rfl⟩
    intro b' q (hb : update s.cache.lock b (some p) b' = some q)
    by_cases hbb : b' = b
    · subst hbb
      rw [update_self] at hb
      cases hb
      exact ⟨rfl, List.mem_cons_self ..⟩
    · rw [update_of_ne hbb] at hb
      exact (hlock b' q hb).imp_right (List.mem_cons_of_mem b)
  · next d n b l hpc =>
    rw [hpc] at hready hlock
    cases hs
    obtain ⟨-, -, hkeep, -, -, -, hframe⟩ := fill_frame s b
    have hret := holds_ret hready b
    have hlog : (s.fill b).log = s.log := by rw [hframe]
    refine ⟨h.goto (c := .here (l.ret b)) ?_ ?_ ?_ ?_, .inl ?_⟩
    · rw [setPc, hframe]
    · intro b' q (hb : (s.fill b).cache.lock b' = some q)
      rw [hkeep] at hb
      exact (hlock b' q hb).imp_right (hret.1 ·)
    · show (s.fill b).pins = s.pins
      rw [hframe]
    · show (l.ret b).Enters (s.fill b).log.lh.n
      rw [hlog]
      exact hret.2
    · show (s.fill b).log.lh.n = _
      rw [hlog]
  · next b l hpc =>
    rw [hpc] at hready hlock
    cases hs
    obtain ⟨k, hk⟩ := brelseUnref_frame s.cache b
    refine ⟨h.goto rfl ?_ rfl hready, .inl rfl⟩
    intro b' q (hb : (s.cache.brelseUnref b).lock b' = some q)
    rw [hk] at hb
    exact hlock b' q hb

/-! ## The buffers in use -/

lemma Inv.home_cached (hi : s.Inv) {tail : ℕ} (hle : s.installed ≤ tail)
    (hlt : (tail : ℤ) < s.log.lh.n) :
    ∃ b, s.cache.dev b = s.logDev ∧ s.cache.blockno b = s.log.lh.block tail := by
  obtain ⟨b, hd, hn, -⟩ :=
    hi.coherent.logged s.logDev (s.log.lh.block tail) ⟨rfl, tail, hle, hlt, rfl⟩
  exact ⟨b, hd, hn⟩

/-- If every buffer is for a block of the log, the log has as many entries. -/
lemma Inv.nbuf_le (hi : s.Inv) (h : ∀ b, s.Logged (s.cache.dev b) (s.cache.blockno b)) :
    (NBUF : ℤ) ≤ s.log.lh.n := by
  choose hdev i _ hlt hblk using h
  have hinj : Function.Injective fun b =>
      (⟨i b, by have := hlt b; omega⟩ : Fin s.log.lh.n.toNat) := by
    intro b b' heq
    have hib : i b = i b' := Fin.mk.inj heq
    refine hi.coherent.unique b b' ?_ ((hdev b).trans (hdev b').symm) ?_
    · rw [hdev b]
      exact hi.commits.logDev
    · rw [← hblk b, ← hblk b', hib]
  have hcard := Fintype.card_le_of_injective _ hinj
  rw [Fintype.card_fin, Fintype.card_fin] at hcard
  simp only [NBUF, MAXOPBLOCKS] at *
  omega

section

variable (hi : s.Inv) (h : s.Alone p)
include hi h

lemma Alone.logged_of_used (hpc : s.pc p = .here l) (hl : l.holds = [])
    (hb : s.cache.refcnt b ≠ 0) : s.Logged (s.cache.dev b) (s.cache.blockno b) := by
  by_contra hno
  rw [← logPins_eq_zero_iff] at hno
  obtain ⟨c, hc, hcount⟩ := hi.count b
  have hlock : s.cache.lock b = none := by
    cases hlk : s.cache.lock b with
    | none => rfl
    | some q =>
      have hin := (h.lock b q hlk).2
      rw [hpc, BioPc.held, hl] at hin
      cases hin
  have href : c = 0 := by
    refine hc.unique (CountIs.zero_iff.mpr fun q hq => ?_)
    by_cases hqp : q = p
    · subst hqp
      rw [hpc] at hq
      cases hq
    · rw [h.ref q hqp] at hq
      cases hq
  rw [hlock, href, hno, h.pins] at hcount
  exact hb (by simpa using hcount)

lemma Alone.bread_safe (hpc : s.pc p = .here l) (hl : l ≠ .user)
    (hn : s.log.lh.n < NBUF) (hc : s.code l x = .bread d n) :
    s.cache.bget d n ≠ .panic .noBuffers := by
  intro hpanic
  obtain ⟨-, hmiss, hused⟩ := hi.coherent.bget_panic.mp hpanic
  have henter : l.Enters s.log.lh.n := by
    have hready := h.ready
    rwa [hpc] at hready
  have hstage : l.Stage s.log.lh.n s.installed := by
    have hok := hi.pcOk p
    rw [hpc] at hok
    exact hok.stage
  have hreads := reads_of_code hl henter hc
  cases l with
  | logTo | headRead | instLog =>
    have hall := hi.nbuf_le fun b => h.logged_of_used hi hpc rfl (hused b)
    omega
  | logFrom tail dst =>
    cases hc
    obtain ⟨b, hb⟩ := hi.home_cached (hstage.trans_le (Nat.zero_le tail)) hreads
    exact hmiss b hb
  | instHome tail lbuf =>
    cases hc
    obtain ⟨b, hb⟩ := hi.home_cached hstage.1.le hreads
    exact hmiss b hb
  | _ => exact hreads.elim

lemma Alone.safe (hl : (s.pc p).loc ≠ .user) (hn : s.log.lh.n < NBUF) :
    s.step (p, x) ≠ .panic .noBuffers := by
  intro hpanic
  simp only [BufSys.step] at hpanic
  split at hpanic
  · next l hpc =>
    rw [hpc] at hl
    cases hc : s.code l x with
    | bread d n =>
      rw [hc] at hpanic
      simp only [BufSys.perform] at hpanic
      split at hpanic
      · cases hpanic
      · cases hpanic
      · next hget =>
        cases hpanic
        exact h.bread_safe hi hpc hl hn hc hget
    | logWrite b => exact hl (code_user (.inr (.inr (.inl hc))))
    | endOp => exact hl (code_user (b := 0) (.inr (.inr (.inr (.inr hc)))))
    | _ =>
      rw [hc] at hpanic
      simp only [BufSys.perform] at hpanic
      (try split_ifs at hpanic) <;> cases hpanic
  · split_ifs at hpanic
  · cases hpanic
  · cases hpanic

/-- **With fewer than `NBUF` blocks in the log, the whole commit finds its buffers.** -/
lemma Alone.commitSafe (hn : s.log.lh.n < NBUF) : s.CommitSafe p := by
  intro as s' x hrun hl
  obtain ⟨hi', h', hn'⟩ := hrun.invariant
    (I := fun (t : BufSys P) => t.Inv ∧ t.Alone p ∧ t.log.lh.n < NBUF)
    (fun t a t' ⟨hti, hta, htn⟩ hok hs => by
      obtain ⟨q, y⟩ := a
      obtain ⟨rfl, htl⟩ := hok
      have hnext := hta.step hti htl hs
      refine ⟨hti.step (fun hpc => ?_) hs, hnext.1, ?_⟩
      · rw [hpc] at htl
        exact absurd rfl htl
      · rcases hnext.2 with heq | heq
        · rw [heq]
          exact htn
        · rw [heq]
          decide) ⟨hi, h, hn⟩
  exact h'.safe hi' hl hn'

end

/-! ## A full log -/

/-- The header has no block twice. -/
def Distinct (s : BufSys P) : Prop :=
  ∀ i j : ℕ, (i : ℤ) < s.log.lh.n → (j : ℤ) < s.log.lh.n → s.log.lh.block i =
    s.log.lh.block j → i = j

lemma step_header (hs : s.step a = .next s') : s'.log.lh = s.log.lh ∨
    (∃ y, s'.log.lh = LogSys.logAbsorb s.log.lh y) ∨ s'.log.lh.n = 0 := by
  obtain ⟨p, x⟩ := a
  simp only [BufSys.step] at hs
  split at hs
  · next l hpc =>
    cases hc : s.code l x with
    | bread d n =>
      rw [hc] at hs
      simp only [BufSys.perform] at hs
      split at hs <;> cases hs
      exact .inl rfl
    | logWrite b =>
      rw [hc] at hs
      simp only [BufSys.perform, BufSys.logWrite] at hs
      split_ifs at hs <;> cases hs <;> exact .inr (.inl ⟨_, rfl⟩)
    | clear =>
      rw [hc] at hs
      cases hs
      exact .inr (.inr rfl)
    | _ =>
      rw [hc] at hs
      simp only [BufSys.perform] at hs
      (try split_ifs at hs) <;> cases hs <;> exact .inl rfl
  · split_ifs at hs
    cases hs
    exact .inl rfl
  · next b l hpc =>
    cases hs
    left
    show (s.fill b).log.lh = _
    rw [(fill_frame s b).2.2.2.2.2.2]
  · cases hs
    exact .inl rfl

section

variable (hi : s.Inv) (h : s.Distinct)
include hi h

lemma Distinct.step (hs : s.step a = .next s') : s'.Distinct := by
  rcases step_header hs with heq | ⟨y, heq⟩ | heq
  · rw [Distinct, heq]
    exact h
  · rw [Distinct, heq]
    exact (LogSys.logAbsorb_spec hi.commits.nonneg y h).2.1
  · intro i j hlt
    omega

/-- With `NBUF` blocks in the log, every buffer is for one of them. -/
lemma Distinct.all_logged (hins : s.installed = 0)
    (hn : (NBUF : ℤ) ≤ s.log.lh.n) (b : Buf) : s.Logged (s.cache.dev b) (s.cache.blockno b) := by
  have hlt : ∀ i : Fin NBUF, ((i : ℕ) : ℤ) < s.log.lh.n := by
    intro i
    have := i.2
    omega
  choose f hdev hblk using fun i : Fin NBUF =>
    hi.home_cached (hins.trans_le (Nat.zero_le i)) (hlt i)
  have hinj : Function.Injective f := by
    intro i j heq
    refine Fin.ext (h i j (hlt i) (hlt j) ?_)
    rw [← hblk i, ← hblk j, heq]
  obtain ⟨i, rfl⟩ := (Finite.injective_iff_surjective.mp hinj) b
  exact ⟨hdev i, i, hins.trans_le (Nat.zero_le _), hlt i, (hblk i).symm⟩

lemma Distinct.not_commitSafe (hpc : s.pc p = .here .commit)
    (hhome : ∀ i : ℕ, (i : ℤ) < s.log.lh.n → ¬ InLog s.log.start (s.log.lh.block i))
    (hn : (NBUF : ℤ) ≤ s.log.lh.n) : ¬ s.CommitSafe p := by
  have hins : s.installed = 0 := by
    have hok := hi.pcOk p
    rw [hpc] at hok
    exact hok.stage
  have hpos : s.log.lh.n > 0 := by
    simp only [NBUF, MAXOPBLOCKS] at hn
    omega
  have hfirst : s.step (p, .beginOp) = .next (s.setPc p (.here (.logTo 0))) := by
    simp only [BufSys.step, hpc, code, hpos, if_true, perform]
  have hpanic : s.cache.bget s.logDev (s.log.start + 0 + 1) = .panic .noBuffers := by
    refine hi.coherent.bget_panic.mpr ⟨rfl, ?_, ?_⟩
    · rintro b ⟨-, hb⟩
      obtain ⟨-, i, -, hlt, hblk⟩ := h.all_logged hi hins hn b
      refine hhome i hlt ?_
      rw [hblk, hb]
      simp only [InLog, LOGBLOCKS, MAXOPBLOCKS]
      omega
    · intro b hb
      exact logPins_eq_zero_iff.mp (hi.unused hb).2.2.1 (h.all_logged hi hins hn b)
  have hpc' : (s.setPc p (.here (.logTo 0))).pc p = .here (.logTo 0) := update_self ..
  intro hsafe
  refine hsafe [(p, .beginOp)] _ .beginOp
    (.cons ⟨rfl, by rw [hpc]; rintro ⟨⟩⟩ hfirst (.nil _)) ?_ ?_
  · rw [hpc']
    rintro ⟨⟩
  · have hlt : ((0 : ℕ) : ℤ) < s.log.lh.n := hpos
    have hcode : (s.setPc p (.here (.logTo 0))).code (.logTo 0) .beginOp =
        .bread s.logDev (s.log.start + 0 + 1) := if_pos hlt
    have hcache : (s.setPc p (.here (.logTo 0))).cache = s.cache := rfl
    simp only [BufSys.step, hpc', hcode, perform, hcache, hpanic]

end

/-- **`commit`, alone, finds its buffers if the log has fewer than `NBUF` blocks**, and otherwise,
as long as no block of the log itself has been logged, it does not. -/
theorem commit_has_buffers {as : List (P × BioCall)} (h0 : s0.Initial)
    (hrun : RunOf step Allowed s0 as s) (hpc : s.pc p = .here .commit) (hfree : s.Unheld) :
    (s.log.lh.n < NBUF → s.CommitSafe p) ∧
      ((∀ i : ℕ, (i : ℤ) < s.log.lh.n → ¬ InLog s.log.start (s.log.lh.block i)) → s.CommitSafe p →
        s.log.lh.n < NBUF) := by
  have hdistinct : s0.Distinct := by
    intro i j hlt
    rw [h0.log.1] at hlt
    omega
  obtain ⟨hi, hd⟩ := hrun.invariant (I := fun t => t.Inv ∧ t.Distinct)
    (fun t a t' ⟨hti, htd⟩ hok hs => ⟨hti.step hok hs, htd.step hti hs⟩) ⟨h0.inv, hdistinct⟩
  refine ⟨(Alone.of_unheld hfree hpc).commitSafe hi, fun hhome hsafe => ?_⟩
  by_contra hn
  exact hd.not_commitSafe hi hpc hhome (not_lt.mp hn) hsafe

/-! ## Runs -/

/-- Process `p` logs block `n` in buffer `b`. -/
def logActs (p : P) (n : ℕ) (b : Buf) : List (P × BioCall) :=
  breadActs p 1 n ++ [(p, .modify b fun _ => 7), (p, .logWrite b)] ++ List.replicate 2
    (p, .brelse b)

def unheldTest (s : BufSys (Fin 3)) : Bool :=
  decide (∀ b, s.cache.lock b = none ∧ s.pins b = 0) && decide (∀ q, (s.pc q).ref = none)

lemma unheld_of_test {s : BufSys (Fin 3)} (h : unheldTest s) : s.Unheld := by
  simp only [unheldTest, Bool.and_eq_true, decide_eq_true_eq] at h
  exact ⟨fun b => (h.1 b).1, h.2, fun b => (h.1 b).2⟩

/-- One operation logs one block and ends. -/
theorem commit_has_buffers_sample : ∃ s, RunOf step Allowed (bootBufSys (Fin 3))
    ([(0, .beginOp)] ++ logActs 0 50 0 ++ [(0, .endOp)]) s ∧ s.CommitSafe 0 := by
  have hex : (exec (fun s a => if allowedTest s a then step s a else .disabled) (bootBufSys (Fin 3))
      ([(0, .beginOp)] ++ logActs 0 50 0 ++ [(0, .endOp)])).map
        (fun s => (s.pc 0, unheldTest s, s.log.lh.n)) = some (.here .commit, true, 1) := by
    decide +kernel
  obtain ⟨s, hs, heq⟩ := Option.map_eq_some_iff.mp hex
  simp only [Prod.mk.injEq] at heq
  have hrun : RunOf step Allowed (bootBufSys (Fin 3)) _ s := RunOf.of_exec allowed_of_test hs
  refine ⟨s, hrun, (commit_has_buffers bootBufSys_initial hrun heq.1 (unheld_of_test heq.2.1)).1 ?_⟩
  rw [heq.2.2]
  decide

/-- Three operations run at the same time and log ten blocks each. -/
def fullGroupActs : List (Fin 3 × BioCall) :=
  [(0, .beginOp), (1, .beginOp), (2, .beginOp)] ++
    (List.finRange NBUF).flatMap (fun b => logActs (Fin.ofNat 3 (b.val / 10)) (100 + b.val) b) ++
    [(0, .endOp), (1, .endOp), (2, .endOp)]

/-- The first `bread` of `write_log` finds every buffer pinned. -/
theorem commit_out_of_buffers : ∃ s, RunOf step Allowed (bootBufSys (Fin 3))
    (fullGroupActs ++ [(2, .beginOp)]) s ∧ s.pc 2 = .here (.logTo 0) ∧ s.Unheld ∧
      s.step (2, .beginOp) = .panic .noBuffers := by
  have hex : (exec (fun s a => if allowedTest s a then step s a else .disabled) (bootBufSys (Fin 3))
      (fullGroupActs ++ [(2, .beginOp)])).map (fun s => (s.pc 2, unheldTest s,
        match s.step (2, .beginOp) with
        | .panic e => some e
        | _ => none)) = some (.here (.logTo 0), true, some .noBuffers) := by
    decide +kernel
  obtain ⟨s, hs, heq⟩ := Option.map_eq_some_iff.mp hex
  simp only [Prod.mk.injEq] at heq
  refine ⟨s, RunOf.of_exec allowed_of_test hs, heq.1, unheld_of_test heq.2.1, ?_⟩
  have hpanic := heq.2.2
  split at hpanic
  · next e he =>
    cases hpanic
    exact he
  · cases hpanic

end BufSys

end Xv6
