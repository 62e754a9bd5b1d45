import Xv6.Fs.Content

/-!
# Processes that share an open file

`fileread` and `filewrite` on one `struct file` of type `FD_INODE` that any number of processes have
inherited. `f->off` is read when `readi` or `writei` is called and advanced in a later statement;
what keeps another process out in between is the sleep lock of the inode, which a long write gives
up after each chunk. Every statement is a step here, so that the steps of the processes interleave
freely. The rest of the system may change the file system at any time, but not the content of a file
while its inode is locked.

The ghost fields record what has happened: `grants` who has obtained the lock, and `chunks` the
calls of `readi` and `writei` with the offset they used. **`sharers_never_overlap`** says that the
ranges of the chunks follow each other, in the order of `grants`.
-/

namespace Xv6

open Function List FsState

/-- A call of `fileread`, or of `filewrite` that has written `i` of `n` bytes. -/
inductive ShareJob where
  | read (n : ℤ) (ok : ℕ → Bool)
  | write (src : Source) (n i : ℕ)

/-- What the process executes next: `ilock`, then `readi` or `writei`, `f->off += r`, and `iunlock`.
-/
inductive SharePc where
  | user
  | ilock (j : ShareJob)
  | io (j : ShareJob)
  | advance (j : ShareJob) (r : ℤ)
  | iunlock (j : ShareJob) (r : ℤ)

/-- One call of `readi` or `writei`. -/
structure Chunk (P : Type) where
  proc : P
  isWrite : Bool
  off : ℕ
  r : ℤ
  data : List UInt8

/-- A `struct file` that processes share. -/
structure ShareSys (P : Type) where
  fs : FsState
  off : ℕ
  readable : Bool
  writable : Bool
  lock : Option P
  pc : P → SharePc
  grants : List P
  chunks : List (Chunk P)

/-- A call, a step of one, or a change to other files. -/
inductive ShareAct (P : Type) where
  | fileread (p : P) (n : ℤ) (ok : ℕ → Bool)
  | filewrite (p : P) (src : Source) (n : ℤ)
  | run (p : P)
  | other (fs : FsState)

/-- The source from byte `i` on: the user address is `addr + i`. -/
def Source.drop (src : Source) (i : ℕ) : Source :=
  ⟨fun j => src.byte (i + j), fun j => src.fault (i + j)⟩

/-- The largest chunk of `filewrite`. -/
abbrev maxChunk : ℕ := (MAXOPBLOCKS - 1 - 1 - 2) / 2 * BSIZE

namespace ShareJob

/-- `n1`. -/
def chunk (n i : ℕ) : ℕ := min (n - i) maxChunk

/-- What comes behind `iunlock`. -/
def next : ShareJob → ℤ → SharePc
  | .read .., _ => .user
  | .write src n i, r =>
    if r ≠ chunk n i then .user
    else if i + r.toNat < n then .ilock (.write src n (i + r.toNat))
    else .user

end ShareJob

namespace ShareSys

variable {P : Type} [DecidableEq P] (sb : Superblock) (inum : ℕ)

def goto (s : ShareSys P) (p : P) (c : SharePc) : ShareSys P :=
  { s with pc := update s.pc p c }

/-- `readi` or `writei` at `f->off`. A negative `n` of `fileread` is a large `uint`. -/
def transfer (s : ShareSys P) (p : P) : ShareJob → Except FsPanic (Chunk P × FsState)
  | .read n ok => do
      let ((r, out), fs) ← Fs.readi sb inum ok s.off (n % 2 ^ 32).toNat s.fs
      return (⟨p, false, s.off, r, out⟩, fs)
  | .write src n i => do
      let (r, fs) ← Fs.writei sb inum (src.drop i) s.off (ShareJob.chunk n i) s.fs
      return (⟨p, true, s.off, r, (range r.toNat).map (src.drop i).byte⟩, fs)

def run (s : ShareSys P) (p : P) : Outcome FsPanic (ShareSys P) :=
  match s.pc p with
  | .user => .disabled
  | .ilock j =>
    if s.lock = none then
      .next { s.goto p (.io j) with lock := some p, grants := s.grants ++ [p] }
    else .disabled
  | .io j =>
    match s.transfer sb inum p j with
    | .ok (c, fs) =>
      .next { s.goto p (.advance j c.r) with fs := fs, chunks := s.chunks ++ [c] }
    | .error e => .panic e
  | .advance j r =>
    .next { s.goto p (.iunlock j r) with
      off := if r > 0 then (s.off + r.toNat) % 2 ^ 32 else s.off }
  | .iunlock j r => .next { s.goto p (j.next r) with lock := none }

/-- One step; `filewrite` of nothing, or of a negative number of bytes, returns at once. -/
def step (s : ShareSys P) : ShareAct P → Outcome FsPanic (ShareSys P)
  | .fileread p n ok =>
    match s.pc p with
    | .user =>
      if s.readable then .next (s.goto p (.ilock (.read n ok))) else .next s
    | _ => .disabled
  | .filewrite p src n =>
    match s.pc p with
    | .user =>
      if s.writable ∧ 0 < n then .next (s.goto p (.ilock (.write src n.toNat 0))) else .next s
    | _ => .disabled
  | .run p => s.run sb inum p
  | .other fs => .next { s with fs := fs }

/-- The rest of the system keeps the file system consistent and respects the inode lock. -/
def Respects (s : ShareSys P) : ShareAct P → Prop
  | .other fs => fs.Consistent sb ∧ (s.lock ≠ none → fs.ino inum = s.fs.ino inum ∧
      fs.content sb inum = s.fs.content sb inum)
  | _ => True

/-- Nobody but the sharers writes to the file. -/
def Alone (s : ShareSys P) : ShareAct P → Prop
  | .other fs => fs.content sb inum = s.fs.content sb inum
  | _ => True

/-- Before the first call. -/
structure Initial (s : ShareSys P) : Prop where
  consistent : s.fs.Consistent sb
  off : s.off < 2 ^ 32
  pc : ∀ p, s.pc p = .user
  lock : s.lock = none
  grants : s.grants = []
  chunks : s.chunks = []

end ShareSys

/-! ## Chunks that follow each other -/

namespace Chunk

variable {P : Type} {o : ℕ} {cs : List (Chunk P)} {c : Chunk P}

/-- The bytes transferred; a call that fails returns -1 and transfers nothing. -/
def len (c : Chunk P) : ℕ := c.r.toNat

def total (cs : List (Chunk P)) : ℕ := (cs.map len).sum

/-- Each chunk starts where the one before has ended. -/
def Consecutive : ℕ → List (Chunk P) → Prop
  | _, [] => True
  | o, c :: cs => c.off = o ∧ Consecutive (o + c.len) cs

/-- The data of the writes. -/
def written (cs : List (Chunk P)) : List UInt8 := ((cs.filter (·.isWrite)).map (·.data)).flatten

lemma total_append : total (cs ++ [c]) = total cs + c.len := by simp [total]

lemma written_append : written (cs ++ [c]) = written cs ++ if c.isWrite then c.data else [] := by
  cases hc : c.isWrite <;> simp [written, filter_append, hc]

lemma Consecutive.append (h : Consecutive o cs) (hc : c.off = o + total cs) :
    Consecutive o (cs ++ [c]) := by
  induction cs generalizing o with
  | nil => exact ⟨by simpa [total] using hc, trivial⟩
  | cons d cs ih =>
    refine ⟨h.1, ih h.2 ?_⟩
    rw [hc, total, map_cons, sum_cons, total]
    omega

lemma Consecutive.le (h : Consecutive o cs) : ∀ c ∈ cs, o ≤ c.off := by
  induction cs generalizing o with
  | nil => simp
  | cons d cs ih =>
    intro c hc
    rcases mem_cons.mp hc with rfl | hc
    · exact h.1.ge
    · have := ih h.2 c hc
      omega

lemma Consecutive.pairwise (h : Consecutive o cs) :
    cs.Pairwise fun c d => c.off + c.len ≤ d.off := by
  induction cs generalizing o with
  | nil => exact .nil
  | cons c cs ih => exact .cons (fun d hd => h.1 ▸ h.2.le d hd) (ih h.2)

end Chunk

open Chunk

/-! ## The invariant -/

namespace SharePc

/-- The process has the inode lock. -/
def holds : SharePc → Bool
  | .io _ | .advance .. | .iunlock .. => true
  | _ => false

/-- The part of a transfer that `f->off` does not show yet. -/
def due : SharePc → ℕ
  | .advance _ r => r.toNat
  | _ => 0

/-- The lock is taken for a transfer that is still to come. -/
def fresh : SharePc → Bool
  | .io _ => true
  | _ => false

end SharePc

namespace ShareSys

open Prog

variable {P : Type} [DecidableEq P] {sb : Superblock} {inum o : ℕ} {s s' : ShareSys P} {p : P}
  {a : ShareAct P} {c : SharePc}

def due (s : ShareSys P) : ℕ := s.lock.elim 0 fun p => (s.pc p).due

def fresh (s : ShareSys P) : List P :=
  s.lock.elim [] fun p => if (s.pc p).fresh then [p] else []

/-- The chunks so far lie one after the other. -/
structure Inv (sb : Superblock) (o : ℕ) (s : ShareSys P) : Prop where
  consistent : s.fs.Consistent sb
  lock : ∀ p, (s.pc p).holds = true ↔ s.lock = some p
  consecutive : Chunk.Consecutive o s.chunks
  off : s.off + s.due = o + total s.chunks
  lt : s.off + s.due < 2 ^ 32
  grants : s.grants = s.chunks.map (·.proc) ++ s.fresh

lemma Initial.inv (h : s.Initial sb) : s.Inv sb s.off := by
  refine ⟨h.consistent, fun p => ?_, ?_, ?_, ?_, ?_⟩
  · simp [h.pc p, h.lock, SharePc.holds]
  · rw [h.chunks]
    trivial
  · simp [due, h.lock, h.chunks, total]
  · simpa [due, h.lock] using h.off
  · simp [h.grants, h.chunks, fresh, h.lock]

lemma due_of_lock (h : s.lock = some p) : s.due = (s.pc p).due := by rw [due, h]; rfl

lemma fresh_of_lock (h : s.lock = some p) : s.fresh = if (s.pc p).fresh then [p] else [] := by
  rw [fresh, h]
  rfl

lemma Inv.goto (h : s.Inv sb o) (hp : (s.pc p).holds = false)
    (hc : c.holds = false) : (s.goto p c).Inv sb o := by
  have hne : s.lock ≠ some p := fun hl => by
    rw [(h.lock p).mpr hl] at hp
    cases hp
  have hsame : ∀ q, s.lock = some q → (s.goto p c).pc q = s.pc q := fun q hq =>
    update_of_ne (fun he => hne (by rw [hq, he])) _ _
  have hdue : (s.goto p c).due = s.due := by
    cases hl : s.lock with
    | none => rw [due, due, show (s.goto p c).lock = none from hl, hl]; rfl
    | some q => rw [due_of_lock hl, due_of_lock (s := s.goto p c) hl, hsame q hl]
  have hfresh : (s.goto p c).fresh = s.fresh := by
    cases hl : s.lock with
    | none => rw [fresh, fresh, show (s.goto p c).lock = none from hl, hl]; rfl
    | some q => rw [fresh_of_lock hl, fresh_of_lock (s := s.goto p c) hl, hsame q hl]
  refine ⟨h.consistent, fun q => ?_, h.consecutive, ?_, ?_, ?_⟩
  · show (update s.pc p c q).holds = true ↔ _
    by_cases hq : q = p
    · rw [hq, update_self, hc]
      exact ⟨fun hx => absurd hx (by decide), fun hx => absurd hx hne⟩
    · rw [update_of_ne hq]
      exact h.lock q
  · rw [hdue]
    exact h.off
  · rw [hdue]
    exact h.lt
  · rw [hfresh]
    exact h.grants

/-- A transfer at `f->off` keeps the file system consistent and stays below `MAXFILE` blocks. -/
lemma transfer_spec (hsb : sb.WF) (hi : inum < sb.ninodes) (h : s.fs.Consistent sb)
    (hoff : s.off < 2 ^ 32) (p : P) (j : ShareJob) :
    ∃ c fs, s.transfer sb inum p j = .ok (c, fs) ∧ fs.Consistent sb ∧ c.proc = p ∧
      c.off = s.off ∧ s.off + c.len < 2 ^ 32 ∧
      (s.off = (s.fs.ino inum).size → fs.content sb inum = s.fs.content sb inum ++
        if c.isWrite then c.data else []) ∧
      (s.off = (s.fs.ino inum).size → c.len = (if c.isWrite then c.data else []).length) := by
  have hlim : MAXFILE * BSIZE < 2 ^ 32 := by norm_num
  cases j with
  | read n ok =>
    have hn : (n % 2 ^ 32).toNat < 2 ^ 32 := by omega
    obtain ⟨r, fs, hrun, rfl, hspec⟩ := (readi_spec hsb h hi ok hoff hn).returns
    have hsize := h.size_le inum hi
    refine ⟨⟨p, false, s.off, r.1, r.2⟩, s.fs, ?_, h, rfl, rfl, ?_, fun _ => by simp, fun heq => ?_⟩
    · simp only [transfer, hrun]
      rfl
    · show s.off + r.1.toNat < _
      obtain ⟨-, hr⟩ | ⟨-, hr, hout⟩ := hspec
      · rw [hr]
        simpa using hoff
      · split_ifs at hout with hbad
        · rw [hr, hout]
          simpa using hoff
        · have : r.2.length ≤ (s.fs.ino inum).size - s.off := by
            rw [hout, length_take, length_drop, length_content]
            exact min_le_right _ _
          rw [hr]
          omega
    · show r.1.toNat = _
      obtain ⟨-, hr⟩ | ⟨-, hr, hout⟩ := hspec
      · rw [hr]
        rfl
      · rw [hr]
        split_ifs at hout with hbad
        · simp [hout]
        · rw [hout, heq, drop_of_length_le (by rw [length_content])]
          simp
  | write src n i =>
    have hn : ShareJob.chunk n i < 2 ^ 32 :=
      lt_of_le_of_lt (min_le_right _ _) (by norm_num)
    obtain ⟨r, fs, hrun, hspec⟩ :=
      (writei_spec hsb h hi (src.drop i) hoff hn).returns
    refine ⟨⟨p, true, s.off, r, (range r.toNat).map (src.drop i).byte⟩, fs, ?_, ?_, rfl, rfl,
      ?_, fun heq => ?_, fun _ => by simp [len]⟩
    · simp only [transfer, hrun]
      rfl
    · split_ifs at hspec with href
      · rw [hspec.2]
        exact h
      · obtain ⟨tot, -, hw⟩ := hspec
        exact hw.consistent
    · show s.off + r.toNat < _
      split_ifs at hspec with href
      · rw [hspec.1]
        simpa using hoff
      · obtain ⟨tot, rfl, hw⟩ := hspec
        have hle : tot ≤ ShareJob.chunk n i := hw.le
        have hfit : s.off + ShareJob.chunk n i ≤ MAXFILE * BSIZE :=
          not_lt.mp fun hgt => href (.inr (.inr hgt))
        rw [Int.toNat_natCast]
        omega
    · split_ifs at hspec with href
      · obtain ⟨rfl, rfl⟩ := hspec
        simp
      · obtain ⟨tot, rfl, hw⟩ := hspec
        simpa using hw.append heq

lemma Inv.of_lock (hl : s.lock = some p) (hpc : s.pc p = c) (hc : c.holds = true)
    (hother : ∀ q, q ≠ p → (s.pc q).holds = false) (hfs : s.fs.Consistent sb)
    (hcons : Chunk.Consecutive o s.chunks) (hoff : s.off + c.due = o + total s.chunks)
    (hlt : s.off + c.due < 2 ^ 32)
    (hgrants : s.grants = s.chunks.map (·.proc) ++ if c.fresh then [p] else []) :
    s.Inv sb o := by
  refine ⟨hfs, fun q => ?_, hcons, ?_, ?_, ?_⟩
  · by_cases hq : q = p
    · rw [hq, hpc, hc, hl]
      exact ⟨fun _ => rfl, fun _ => rfl⟩
    · rw [hother q hq, hl]
      exact ⟨fun hx => absurd hx (by decide), fun hx => absurd (Option.some.inj hx).symm hq⟩
  · rwa [due_of_lock hl, hpc]
  · rwa [due_of_lock hl, hpc]
  · rwa [fresh_of_lock hl, hpc]

lemma Inv.others (h : s.Inv sb o) (hl : s.lock = none ∨ s.lock = some p) (q : P)
    (hq : q ≠ p) : (update s.pc p c q).holds = false := by
  rw [update_of_ne hq, Bool.eq_false_iff]
  intro hx
  rw [h.lock q] at hx
  rcases hl with hl | hl
  · rw [hl] at hx
    cases hx
  · rw [hl] at hx
    exact hq (Option.some.inj hx).symm

lemma Inv.run (hsb : sb.WF) (hi : inum < sb.ninodes) (h : s.Inv sb o)
    (hstep : s.run sb inum p = .next s') : s'.Inv sb o := by
  cases hp : s.pc p with
  | user =>
    simp only [ShareSys.run, hp] at hstep
    cases hstep
  | ilock j =>
    simp only [ShareSys.run, hp] at hstep
    split_ifs at hstep with hl
    cases hstep
    have hdue : s.due = 0 := by rw [due, hl]; rfl
    have hfresh : s.fresh = [] := by rw [fresh, hl]; rfl
    have hoff := h.off
    have hlt := h.lt
    have hgrants := h.grants
    rw [hdue] at hoff hlt
    rw [hfresh, append_nil] at hgrants
    refine .of_lock rfl (update_self ..) rfl (h.others (.inl hl))
      h.consistent h.consecutive hoff hlt ?_
    simp only [hgrants]
    rfl
  | io j =>
    have hl : s.lock = some p := (h.lock p).mp (by rw [hp]; rfl)
    have hdue : s.due = 0 := by rw [due_of_lock hl, hp]; rfl
    have hoff := h.off
    have hlt := h.lt
    rw [hdue] at hoff hlt
    obtain ⟨c, fs, hc, hfs, hproc, hcoff, hclt, -, -⟩ :=
      transfer_spec hsb hi h.consistent hlt p j
    simp only [ShareSys.run, hp, hc] at hstep
    cases hstep
    have hgrants := h.grants
    rw [fresh_of_lock hl, hp] at hgrants
    refine .of_lock hl (update_self ..) rfl (h.others (.inr hl))
      hfs (h.consecutive.append ?_) ?_ hclt ?_
    · rw [hcoff]
      exact hoff
    · rw [total_append, ← Nat.add_assoc, ← hoff]
      rfl
    · show s.grants = (s.chunks ++ [c]).map (·.proc) ++ _
      rw [hgrants, map_append, map_singleton, hproc]
      simp [SharePc.fresh]
  | advance j r =>
    have hl : s.lock = some p := (h.lock p).mp (by rw [hp]; rfl)
    have hdue : s.due = r.toNat := by rw [due_of_lock hl, hp]; rfl
    have hoff := h.off
    have hlt := h.lt
    rw [hdue] at hoff hlt
    simp only [ShareSys.run, hp] at hstep
    cases hstep
    have hnew : (if r > 0 then (s.off + r.toNat) % 2 ^ 32 else s.off) = s.off + r.toNat := by
      split_ifs with hr
      · exact Nat.mod_eq_of_lt hlt
      · omega
    have hgrants := h.grants
    rw [fresh_of_lock hl, hp] at hgrants
    rw [hnew]
    exact .of_lock hl (update_self ..) rfl (h.others (.inr hl))
      h.consistent h.consecutive hoff hlt hgrants
  | iunlock j r =>
    have hl : s.lock = some p := (h.lock p).mp (by rw [hp]; rfl)
    have hdue : s.due = 0 := by rw [due_of_lock hl, hp]; rfl
    have hfresh : s.fresh = [] := by rw [fresh_of_lock hl, hp]; rfl
    simp only [ShareSys.run, hp] at hstep
    cases hstep
    have hnext : (j.next r).holds = false := by
      cases j with
      | read n ok => rfl
      | write src n i =>
        simp only [ShareJob.next]
        split_ifs <;> rfl
    refine ⟨h.consistent, fun q => ?_, h.consecutive, ?_, ?_, ?_⟩
    · show (update s.pc p (j.next r) q).holds = true ↔ none = some q
      by_cases hq : q = p
      · rw [hq, update_self, hnext]
        simp
      · rw [update_of_ne hq, h.lock q, hl]
        simp [Ne.symm hq]
    · have hoff := h.off
      rw [hdue] at hoff
      exact hoff
    · have hlt := h.lt
      rw [hdue] at hlt
      exact hlt
    · have hgrants := h.grants
      rw [hfresh] at hgrants
      exact hgrants

lemma Inv.step (hsb : sb.WF) (hi : inum < sb.ninodes) (h : s.Inv sb o)
    (hok : s.Respects sb inum a) (hstep : s.step sb inum a = .next s') : s'.Inv sb o := by
  cases a with
  | fileread p n ok | filewrite p src n =>
    simp only [ShareSys.step] at hstep
    split at hstep
    · next hp =>
      split_ifs at hstep
      · cases hstep
        exact h.goto (by rw [hp]; rfl) rfl
      · cases hstep
        exact h
    · cases hstep
  | run p => exact h.run hsb hi hstep
  | other fs =>
    cases hstep
    exact ⟨hok.1, h.lock, h.consecutive, h.off, h.lt, h.grants⟩

/-! ## A file written only through the shared descriptor -/

/-- The file is the writes so far, one behind the other. -/
structure Appended (sb : Superblock) (inum : ℕ) (s : ShareSys P) : Prop where
  inv : s.Inv sb 0
  content : s.fs.content sb inum = written s.chunks
  total : total s.chunks = (written s.chunks).length

section

variable (hsb : sb.WF) (hi : inum < sb.ninodes) (h : s.Appended sb inum)
include hsb hi h

/-- What a step can do to the content and the chunks: nothing, or one transfer at `f->off`. -/
lemma Appended.run (hstep : s.run sb inum p = .next s') :
    s'.fs.content sb inum = Chunk.written s'.chunks ∧
      Chunk.total s'.chunks = (Chunk.written s'.chunks).length := by
  cases hp : s.pc p with
  | user =>
    simp only [ShareSys.run, hp] at hstep
    cases hstep
  | ilock j =>
    simp only [ShareSys.run, hp] at hstep
    split_ifs at hstep with hl
    cases hstep
    exact ⟨h.content, h.total⟩
  | io j =>
    have hl : s.lock = some p := (h.inv.lock p).mp (by rw [hp]; rfl)
    have hdue : s.due = 0 := by rw [due_of_lock hl, hp]; rfl
    have hoff := h.inv.off
    have hlt := h.inv.lt
    rw [hdue] at hoff hlt
    have hend : s.off = (s.fs.ino inum).size := by
      have hlen : (s.fs.content sb inum).length = (s.fs.ino inum).size := length_content
      rw [← hlen, h.content, ← h.total]
      omega
    obtain ⟨c, fs, hc, -, -, -, -, hcontent, hlen⟩ :=
      transfer_spec hsb hi h.inv.consistent hlt p j
    simp only [ShareSys.run, hp, hc] at hstep
    cases hstep
    constructor
    · rw [hcontent hend, h.content, written_append]
    · rw [total_append, written_append, length_append, h.total, hlen hend]
  | advance j r | iunlock j r =>
    simp only [ShareSys.run, hp] at hstep
    cases hstep
    exact ⟨h.content, h.total⟩

lemma Appended.step (hok : s.Respects sb inum a ∧ s.Alone sb inum a)
    (hstep : s.step sb inum a = .next s') : s'.Appended sb inum := by
  have hinv := h.inv.step hsb hi hok.1 hstep
  cases a with
  | fileread p n ok | filewrite p src n =>
    simp only [ShareSys.step] at hstep
    split at hstep
    · split_ifs at hstep <;> obtain rfl :=
        Outcome.next.inj hstep <;> exact ⟨hinv, h.content, h.total⟩
    · cases hstep
  | run p =>
    obtain ⟨hcontent, htotal⟩ := h.run hsb hi hstep
    exact ⟨hinv, hcontent, htotal⟩
  | other fs =>
    cases hstep
    exact ⟨hinv, hok.2.trans h.content, h.total⟩

end

/-- **Sharers never overlap.**  In every interleaving, the chunks of all sharers are consecutive
ranges from the first offset on, made in the order in which their processes obtained the inode lock,
and `f->off` is behind the last of them when no process is inside. If the file was empty and only
the sharers write to it, it consists of what they have written. -/
theorem sharers_never_overlap (hsb : sb.WF) (hi : inum < sb.ninodes) {s0 s : ShareSys P}
    {acts : List (ShareAct P)} (h0 : s0.Initial sb)
    (hrun : RunOf (ShareSys.step sb inum) (Respects sb inum) s0 acts s) :
    Chunk.Consecutive s0.off s.chunks ∧ (s.chunks.Pairwise fun c d => c.off + c.len ≤ d.off) ∧
    (s.lock = none → s.off = s0.off + total s.chunks ∧ s.grants = s.chunks.map (·.proc)) ∧
    (∀ p, s.lock = some p → ∃ l, s.grants = s.chunks.map (·.proc) ++ l ∧ (l = [] ∨ l = [p])) ∧
    (RunOf (ShareSys.step sb inum) (fun s a => s.Respects sb inum a ∧ s.Alone sb inum a) s0 acts s →
      s0.off = 0 → (s0.fs.ino inum).size = 0 → s.fs.content sb inum = written s.chunks ∧
      (s.lock = none → s.off = (written s.chunks).length)) := by
  have hstep : ∀ (s : ShareSys P) a s', s.Inv sb s0.off → s.Respects sb inum a →
      ShareSys.step sb inum s a = .next s' → s'.Inv sb s0.off :=
    fun _ _ _ h hok hs => h.step hsb hi hok hs
  have hinv : s.Inv sb s0.off := hrun.invariant hstep h0.inv
  refine ⟨hinv.consecutive, hinv.consecutive.pairwise, fun hl => ?_, fun p hl => ?_,
    fun halone hoff hsize => ?_⟩
  · have hoff := hinv.off
    have hgrants := hinv.grants
    rw [due, hl] at hoff
    rw [fresh, hl] at hgrants
    exact ⟨hoff, hgrants.trans (append_nil _)⟩
  · refine ⟨s.fresh, hinv.grants, ?_⟩
    rw [fresh_of_lock hl]
    split_ifs
    · exact .inr rfl
    · exact .inl rfl
  · have hstep' : ∀ (s : ShareSys P) a s', s.Appended sb inum →
      (s.Respects sb inum a ∧ s.Alone sb inum a) →
        ShareSys.step sb inum s a = .next s' → s'.Appended sb inum :=
      fun _ _ _ h hok hs => h.step hsb hi hok hs
    have happ0 : s0.Appended sb inum := by
      refine ⟨hoff ▸ h0.inv, ?_, ?_⟩
      · rw [h0.chunks, content, hsize]
        rfl
      · rw [h0.chunks]
        rfl
    have happ := halone.invariant hstep' happ0
    refine ⟨happ.content, fun hl => ?_⟩
    have := happ.inv.off
    rw [due, hl] at this
    rw [← happ.total]
    simpa using this

/-- Two processes write at the same time to an empty file. -/
def sampleShare : ShareSys Bool :=
  ⟨smallFs, 0, true, true, none, fun _ => .user, [], []⟩

def sampleActs : List (ShareAct Bool) :=
  [.filewrite true ⟨fun j => UInt8.ofNat (5 + j), fun _ => none⟩ 2,
    .filewrite false ⟨fun _ => 9, fun _ => none⟩ 1, .run false, .run false, .run false, .run false,
    .run true, .run true, .run true, .run true]

theorem sharers_never_overlap_sample :
    ∃ s, RunOf (ShareSys.step smallSb 1) (Respects smallSb 1) sampleShare sampleActs s ∧
      s.chunks.map (fun c => (c.off, c.len, c.data)) = [(0, 1, [9]), (1, 2, [5, 6])] ∧
      Chunk.Consecutive 0 s.chunks ∧ s.fs.content smallSb 1 = written s.chunks := by
  have hex : (exec (ShareSys.step smallSb 1) sampleShare sampleActs).map
      (fun s => s.chunks.map fun c => (c.off, c.len, c.data)) =
        some [(0, 1, [9]), (1, 2, [5, 6])] := by decide +kernel
  obtain ⟨s, hs, hchunks⟩ := Option.map_eq_some_iff.mp hex
  have hquiet : ∀ a ∈ sampleActs, ∀ fs, a ≠ .other fs := by
    simp [sampleActs]
  have hrespects : ∀ a ∈ sampleActs, ∀ s : ShareSys Bool,
      s.Respects smallSb 1 a ∧ s.Alone smallSb 1 a := fun a ha s => by
    cases a with
    | other fs => exact absurd rfl (hquiet _ ha fs)
    | fileread | filewrite | run => exact ⟨trivial, trivial⟩
  have hrun := (Run.of_exec hs).toRunOf_of_forall fun a ha s => (hrespects a ha s).1
  have h0 : sampleShare.Initial smallSb :=
    ⟨smallFs_consistent, by decide, fun _ => rfl, rfl, rfl, rfl⟩
  have h := sharers_never_overlap smallSb_wf (by decide) h0 hrun
  exact ⟨s, hrun, hchunks, h.1,
    (h.2.2.2.2 ((Run.of_exec hs).toRunOf_of_forall hrespects) rfl rfl).1⟩

end ShareSys

end Xv6
