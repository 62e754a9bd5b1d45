import Xv6.Buf.Bcache
import Xv6.Lib.Count

/-!
# The invariant of the buffer cache

`BufSys.Inv` says what holds between any two steps of any number of processes:

* the list is a list of all the buffers, and no two buffers are for one block;
* `refcnt` counts: the processes that wait for the buffer or are about to let go of it, the holder
  of its lock, the entries of the log that pin it, and the other pins;
* a valid buffer has the contents last stored for its block, and so has the disk, except for a block
  that is in the log or just being modified; such a block has a valid buffer.

The last point is the coherence of cache, log and disk. It is kept because a buffer is recycled only
with `refcnt == 0`, and then none of the exceptions is about it.

`LocOk` says what the committing process knows at each place of `commit`: which buffers it holds,
and how far `install_trans` has got. `Frame` is what a step of another process leaves alone.
-/

namespace Xv6

open Function BioLoc DList

/-- The buffer that the process has a reference to without its lock. -/
def BioPc.ref : BioPc → Option Buf
  | .here _ => none
  | .getting _ _ b _ => some b
  | .filling _ _ _ _ => none
  | .dropping b _ => some b

def BioPc.loc : BioPc → BioLoc
  | .here l => l
  | .getting _ _ _ l => l
  | .filling _ _ _ l => l
  | .dropping _ l => l

namespace BioLoc

/-- The buffers that `commit` holds and has not modified, or has written to disk. -/
def clean : BioLoc → List Buf
  | .logFrom _ dst => [dst]
  | .logCopy _ dst src => [dst, src]
  | .logWrite _ _ src => [src]
  | .logRelFrom _ dst src => [dst, src]
  | .logRelTo _ dst => [dst]
  | .headFill _ b => [b]
  | .headRel _ b => [b]
  | .instHome _ lbuf => [lbuf]
  | .instCopy _ lbuf dbuf => [lbuf, dbuf]
  | .instWrite _ lbuf _ => [lbuf]
  | .instUnpin _ lbuf dbuf => [lbuf, dbuf]
  | .instRelLog _ lbuf dbuf => [lbuf, dbuf]
  | .instRelHome _ dbuf => [dbuf]
  | _ => []

/-- The buffer that `commit` has modified. -/
def wet : BioLoc → List Buf
  | .logWrite _ dst _ => [dst]
  | .headWrite _ b => [b]
  | .instWrite _ _ dbuf => [dbuf]
  | _ => []

/-- The buffer of a home block, and its entry in the header. -/
def home : BioLoc → Option (ℕ × Buf)
  | .instCopy tail _ dbuf => some (tail, dbuf)
  | .instWrite tail _ dbuf => some (tail, dbuf)
  | .instUnpin tail _ dbuf => some (tail, dbuf)
  | _ => none

/-- The home block is on the disk, and about to lose its pin. -/
def unpins : BioLoc → Option (ℕ × Buf)
  | .instUnpin tail _ dbuf => some (tail, dbuf)
  | _ => none

/-- How many of the `n` entries have lost their pin. -/
def Stage (n : ℤ) (k : ℕ) : BioLoc → Prop
  | .user => True
  | .instLog tail => k = tail
  | .instHome tail _ => k = tail ∧ (tail : ℤ) < n
  | .instCopy tail _ _ => k = tail ∧ (tail : ℤ) < n
  | .instWrite tail _ _ => k = tail ∧ (tail : ℤ) < n
  | .instUnpin tail _ _ => k = tail ∧ (tail : ℤ) < n
  | .instRelLog tail _ _ => k = tail + 1
  | .instRelHome tail _ => k = tail + 1
  | .clear => n ≤ k
  | _ => k = 0

lemma home_mem {l : BioLoc} {e : ℕ × Buf} (h : e ∈ l.home) : e.2 ∈ l.wet ++ l.clean := by
  cases l <;> simp [home] at h <;> subst h <;> simp [wet, clean]

lemma home_of_unpins {l : BioLoc} {e : ℕ × Buf} (h : e ∈ l.unpins) : e ∈ l.home := by
  cases l with
  | instUnpin => exact h
  | _ => cases h

end BioLoc

namespace BufSys

variable {P : Type} [DecidableEq P]

/-- The entries of the log that pin the buffer. -/
def logPins (s : BufSys P) (b : Buf) : ℕ :=
  if s.cache.dev b = s.logDev then
    ((Finset.range s.log.lh.n.toNat).filter fun i =>
      s.installed ≤ i ∧ s.log.lh.block i = s.cache.blockno b).card
  else 0

/-- What a process knows at a place. -/
structure LocOk (s : BufSys P) (p : P) (l : BioLoc) : Prop where
  own : ∀ b ∈ l.clean, s.cache.lock b = some p ∧ s.cache.valid b = true ∧ s.dirty b = false
  wet : ∀ b ∈ l.wet, s.cache.lock b = some p ∧ s.cache.valid b = true
  nodup : (l.wet ++ l.clean).Nodup
  home : ∀ e ∈ l.home, s.cache.dev e.2 = s.logDev ∧ s.cache.blockno e.2 = s.log.lh.block e.1
  unpin : ∀ e ∈ l.unpins,
    s.disk s.logDev (s.log.lh.block e.1) = s.stored s.logDev (s.log.lh.block e.1)
  stage : l.Stage s.log.lh.n s.installed

/-- What `commit` reads in a call of `bread`. -/
def Target (s : BufSys P) (dev blockno : ℕ) : BioLoc → Prop
  | .instLog tail => (tail : ℤ) < s.log.lh.n
  | .instHome tail _ => dev = s.logDev ∧ blockno = s.log.lh.block tail
  | _ => True

/-- What a process knows about its buffers. -/
def PcOk (s : BufSys P) (p : P) : BioPc → Prop
  | .here l => s.LocOk p l
  | .getting dev blockno b l => s.LocOk p l ∧ s.Target dev blockno l ∧ dev ≠ 0 ∧
      s.cache.dev b = dev ∧ s.cache.blockno b = blockno
  | .filling dev blockno b l => s.LocOk p l ∧ s.Target dev blockno l ∧ dev ≠ 0 ∧
      s.cache.dev b = dev ∧ s.cache.blockno b = blockno ∧ s.cache.lock b = some p ∧
      s.dirty b = false ∧ b ∉ l.wet ++ l.clean
  | .dropping _ l => s.LocOk p l

/-- The blocks and buffers. -/
structure Coherent (s : BufSys P) : Prop where
  list : ∃ l : List Buf, Circ s.cache.links none (l.map some) ∧ ∀ b, b ∈ l
  unique : ∀ b b', s.cache.dev b ≠ 0 → s.cache.dev b = s.cache.dev b' →
    s.cache.blockno b = s.cache.blockno b' → b = b'
  valid : ∀ b, s.cache.valid b = true → s.cache.dev b ≠ 0 ∧
    s.cache.data b = s.stored (s.cache.dev b) (s.cache.blockno b)
  disk : ∀ d n, s.disk d n ≠ s.stored d n → ∃ b, s.cache.dev b = d ∧ s.cache.blockno b = n ∧
    s.cache.valid b = true ∧ (s.Logged d n ∨ s.dirty b = true)
  logged : ∀ d n, s.Logged d n → ∃ b, s.cache.dev b = d ∧ s.cache.blockno b = n ∧
    s.cache.valid b = true
  dirty : ∀ b, s.dirty b = true → s.cache.lock b ≠ none

/-- Who is in `commit`. -/
structure Commits (s : BufSys P) : Prop where
  committing : ∀ p, (s.pc p).loc ≠ .user → s.log.committing = true
  alone : ∀ p q, (s.pc p).loc ≠ .user → (s.pc q).loc ≠ .user → p = q
  outstanding : s.log.committing = true → s.log.outstanding ≤ 0
  idle : s.log.committing = false → s.installed = 0
  logDev : s.logDev ≠ 0
  nonneg : 0 ≤ s.log.lh.n

/-- The invariant of all runs that keep to the rules. -/
structure Inv (s : BufSys P) : Prop where
  coherent : s.Coherent
  commits : s.Commits
  count : ∀ b, ∃ c : ℕ, CountIs (fun p => (s.pc p).ref = some b) c ∧
    s.cache.refcnt b = c + (if (s.cache.lock b).isSome then 1 else 0) + s.logPins b + s.pins b
  held : ∀ b p, s.cache.lock b = some p → s.cache.valid b = true ∨
    ∃ dev blockno l, s.pc p = .filling dev blockno b l
  pcOk : ∀ p, s.PcOk p (s.pc p)

variable {s s' : BufSys P} {p q : P} {b b' : Buf} {d n : ℕ} {l l' : BioLoc} {c c' : BioPc}
  {f : ℕ → ℕ → Block}

/-! ## References -/

omit [DecidableEq P] in
lemma logPins_eq_zero_iff : s.logPins b = 0 ↔ ¬ s.Logged (s.cache.dev b) (s.cache.blockno b) := by
  rw [logPins, Logged]
  split_ifs with hd
  · rw [Finset.card_eq_zero, Finset.filter_eq_empty_iff]
    constructor
    · rintro h ⟨-, i, h1, h2, h3⟩
      exact h (Finset.mem_range.mpr (by omega)) ⟨h1, h3⟩
    · intro h i hi hx
      rw [Finset.mem_range] at hi
      exact h ⟨hd, i, hx.1, by omega, hx.2⟩
  · simp [hd]

omit [DecidableEq P] in
lemma Inv.pcOk_eq (hi : s.Inv) (hpc : s.pc p = c) : s.PcOk p c := hpc ▸ hi.pcOk p

omit [DecidableEq P] in
lemma Inv.unused (hi : s.Inv) (h : s.cache.refcnt b = 0) :
    s.cache.lock b = none ∧ (∀ p, (s.pc p).ref ≠ some b) ∧ s.logPins b = 0 ∧ s.pins b = 0 := by
  obtain ⟨c, hc, heq⟩ := hi.count b
  cases hl : s.cache.lock b with
  | none =>
    simp only [hl, Option.isSome_none, Bool.false_eq_true, if_false] at heq
    obtain rfl : c = 0 := by omega
    exact ⟨rfl, CountIs.zero_iff.mp hc, by omega, by omega⟩
  | some p =>
    simp only [hl, Option.isSome_some, if_true] at heq
    omega

omit [DecidableEq P] in
lemma Inv.used_of_lock (hi : s.Inv) (h : s.cache.lock b = some p) : s.cache.refcnt b ≠ 0 := by
  intro h0
  rw [(hi.unused h0).1] at h
  cases h

omit [DecidableEq P] in
lemma Inv.used_of_ref (hi : s.Inv) (h : (s.pc p).ref = some b) : s.cache.refcnt b ≠ 0 :=
  fun h0 => (hi.unused h0).2.1 p h

omit [DecidableEq P] in
/-- A process at a place of its code holds only valid buffers. -/
lemma Inv.valid_of_lock (hi : s.Inv) (hpc : s.pc p = .here l) (h : s.cache.lock b = some p) :
    s.cache.valid b = true := by
  rcases hi.held b p h with hv | ⟨dev, blockno, l, hf⟩
  · exact hv
  · rw [hpc] at hf
    cases hf

omit [DecidableEq P] in
lemma Inv.dev_ne_zero (hi : s.Inv) (h : s.cache.lock b = some p) : s.cache.dev b ≠ 0 := by
  rcases hi.held b p h with hv | ⟨dev, blockno, l, hf⟩
  · exact (hi.coherent.valid b hv).1
  · have hk := hi.pcOk p
    rw [hf] at hk
    rw [hk.2.2.2.1]
    exact hk.2.2.1

omit [DecidableEq P] in
/-- Two buffers, one of them held, are for different blocks. -/
lemma Inv.block_ne (hi : s.Inv) (h : s.cache.lock b = some p) (hne : b' ≠ b) :
    ¬ (s.cache.dev b' = s.cache.dev b ∧ s.cache.blockno b' = s.cache.blockno b) :=
  fun hx => hne (hi.coherent.unique b b' (hi.dev_ne_zero h) hx.1.symm hx.2.symm).symm

lemma setBlock_self {v : Block} : setBlock f d n v d n = v := by
  simp [setBlock]

lemma setBlock_of_ne {d' n' : ℕ} {v : Block} (h : ¬ (d' = d ∧ n' = n)) :
    setBlock f d n v d' n' = f d' n' := by
  by_cases hd : d' = d
  · subst hd
    rw [setBlock, update_self, update_of_ne fun hn => h ⟨rfl, hn⟩]
  · rw [setBlock, update_of_ne hd]

/-! ## What a step leaves alone -/

/-- What a step of `p` leaves to the others. -/
structure Frame (s s' : BufSys P) (p : P) : Prop where
  pc : ∀ q, q ≠ p → s'.pc q = s.pc q
  own : ∀ q b, q ≠ p → s.cache.lock b = some q → s'.cache.lock b = some q ∧
    s'.cache.valid b = s.cache.valid b ∧ s'.dirty b = s.dirty b ∧
    s'.disk (s.cache.dev b) (s.cache.blockno b) = s.disk (s.cache.dev b) (s.cache.blockno b) ∧
    s'.stored (s.cache.dev b) (s.cache.blockno b) = s.stored (s.cache.dev b) (s.cache.blockno b)
  ident : ∀ b, s.cache.refcnt b ≠ 0 → s'.cache.dev b = s.cache.dev b ∧
    s'.cache.blockno b = s.cache.blockno b
  log : ∀ q, q ≠ p → (s.pc q).loc ≠ .user → s'.log.lh = s.log.lh ∧ s'.installed = s.installed
  logDev : s'.logDev = s.logDev

omit [DecidableEq P] in
lemma locOk_user : s.LocOk p .user := ⟨by simp [clean], by simp [wet],
  by simp [wet, clean], by simp [home], by simp [unpins], trivial⟩

omit [DecidableEq P] in
lemma LocOk.locked (h : s.LocOk p l) (hb : b ∈ l.wet ++ l.clean) : s.cache.lock b = some p := by
  rcases List.mem_append.mp hb with hb | hb
  · exact (h.wet b hb).1
  · exact (h.own b hb).1

omit [DecidableEq P] in
lemma LocOk.frame (h : s.LocOk q l) (hi : s.Inv) (hf : Frame s s' p) (hq : q ≠ p)
    (hl : (s.pc q).loc = l) : s'.LocOk q l := by
  by_cases hu : l = .user
  · subst hu
    exact locOk_user
  obtain ⟨hlh, hins⟩ := hf.log q hq (by rwa [hl])
  have hident : ∀ b ∈ l.wet ++ l.clean, s'.cache.dev b = s.cache.dev b ∧
      s'.cache.blockno b = s.cache.blockno b :=
    fun b hb => hf.ident b (hi.used_of_lock (h.locked hb))
  refine ⟨fun b hb => ?_, fun b hb => ?_, h.nodup, fun e he => ?_, fun e he => ?_, ?_⟩
  · obtain ⟨h1, h2, h3⟩ := h.own b hb
    obtain ⟨g1, g2, g3, -⟩ := hf.own q b hq h1
    exact ⟨g1, g2.trans h2, g3.trans h3⟩
  · obtain ⟨h1, h2⟩ := h.wet b hb
    obtain ⟨g1, g2, -⟩ := hf.own q b hq h1
    exact ⟨g1, g2.trans h2⟩
  · obtain ⟨g1, g2⟩ := hident _ (home_mem he)
    rw [g1, g2, hlh, hf.logDev]
    exact h.home e he
  · have hhome := home_of_unpins he
    obtain ⟨h1, h2⟩ := h.home e hhome
    obtain ⟨-, -, -, g1, g2⟩ := hf.own q e.2 hq (h.locked (home_mem hhome))
    rw [h1, h2] at g1 g2
    rw [hlh, hf.logDev, g1, g2]
    exact h.unpin e he
  · rw [hlh, hins]
    exact h.stage

omit [DecidableEq P] in
lemma Target.frame (h : s.Target d n l) (hf : Frame s s' p) (hq : q ≠ p) (hl : (s.pc q).loc = l) :
    s'.Target d n l := by
  by_cases hu : l = .user
  · subst hu
    trivial
  obtain ⟨hlh, hins⟩ := hf.log q hq (by rwa [hl])
  cases l with
  | instLog tail =>
    show (tail : ℤ) < s'.log.lh.n
    rw [hlh]
    exact h
  | instHome tail lbuf =>
    show d = s'.logDev ∧ n = s'.log.lh.block tail
    rw [hlh, hf.logDev]
    exact h
  | _ => trivial

omit [DecidableEq P] in
lemma Inv.pcOk_frame (hi : s.Inv) (hf : Frame s s' p) (hq : q ≠ p) : s'.PcOk q (s'.pc q) := by
  have hk := hi.pcOk q
  rw [hf.pc q hq]
  cases hc : s.pc q with
  | here l | dropping b l =>
    rw [hc] at hk
    exact LocOk.frame hk hi hf hq (by rw [hc]; rfl)
  | getting dev blockno b l =>
    rw [hc] at hk
    obtain ⟨h1, h2, h3, h4, h5⟩ := hk
    have hid := hf.ident b (hi.used_of_ref (by rw [hc]; rfl))
    exact ⟨h1.frame hi hf hq (by rw [hc]; rfl), h2.frame hf hq (by rw [hc]; rfl), h3,
      hid.1.trans h4, hid.2.trans h5⟩
  | filling dev blockno b l =>
    rw [hc] at hk
    obtain ⟨h1, h2, h3, h4, h5, h6, h7, h8⟩ := hk
    have hid := hf.ident b (hi.used_of_lock h6)
    obtain ⟨g1, g2, g3, -⟩ := hf.own q b hq h6
    exact ⟨h1.frame hi hf hq (by rw [hc]; rfl), h2.frame hf hq (by rw [hc]; rfl), h3,
      hid.1.trans h4, hid.2.trans h5, g1, g3.trans h7, h8⟩

omit [DecidableEq P] in
lemma Inv.pcOk_of (hi : s.Inv) (hf : Frame s s' p) (hp : s'.PcOk p (s'.pc p)) (q : P) :
    s'.PcOk q (s'.pc q) := by
  by_cases hq : q = p
  · subst hq
    exact hp
  · exact hi.pcOk_frame hf hq

omit [DecidableEq P] in
lemma ne_of_lock (hb : s.cache.lock b = some p) (hq : q ≠ p) (hb' : s.cache.lock b' = some q) :
    b' ≠ b := by
  rintro rfl
  rw [hb] at hb'
  exact hq (Option.some.inj hb').symm

lemma Commits.stay (h : s.Commits) (hpc : s'.pc = update s.pc p c)
    (hloc : c.loc ≠ .user → (s.pc p).loc ≠ .user) (hlog : s'.log = s.log)
    (hins : s'.log.committing = false → s'.installed = 0) (hdev : s'.logDev = s.logDev) :
    s'.Commits := by
  have hloc' : ∀ q, (s'.pc q).loc ≠ .user → (s.pc q).loc ≠ .user := by
    intro q hq
    rw [hpc] at hq
    by_cases hqp : q = p
    · subst hqp
      rw [update_self] at hq
      exact hloc hq
    · rwa [update_of_ne hqp] at hq
  refine ⟨fun q hq => ?_, fun q r hq hr => h.alone q r (hloc' q hq) (hloc' r hr), ?_, hins, ?_, ?_⟩
  · rw [hlog]
    exact h.committing q (hloc' q hq)
  · rw [hlog]
    exact h.outstanding
  · rw [hdev]
    exact h.logDev
  · rw [hlog]
    exact h.nonneg

omit [DecidableEq P] in
lemma logPins_congr (hdev : s'.cache.dev b = s.cache.dev b)
    (hno : s'.cache.blockno b = s.cache.blockno b) (hlog : s'.log.lh = s.log.lh)
    (hins : s'.installed = s.installed) (hld : s'.logDev = s.logDev) :
    s'.logPins b = s.logPins b := by
  simp only [logPins, hdev, hno, hlog, hins, hld]

omit [DecidableEq P] in
lemma logged_congr (hlog : s'.log.lh = s.log.lh) (hins : s'.installed = s.installed)
    (hld : s'.logDev = s.logDev) : s'.Logged d n ↔ s.Logged d n := by
  simp only [Logged, hlog, hins, hld]

lemma refs_same (hpc : s'.pc = update s.pc p c) (hc : c.ref = (s.pc p).ref) (q : P) :
    (s'.pc q).ref = (s.pc q).ref := by
  rw [hpc]
  by_cases hq : q = p
  · subst hq
    rw [update_self, hc]
  · rw [update_of_ne hq]

end BufSys

end Xv6
