import Xv6.Lib.Ring
import Xv6.Lib.Steps

/-!
# The console: line editing and reading

`consoleintr` and `consoleread` of `console.c`. The input buffer is a ring with three counters, `r`,
`w` and `e`, which are 32-bit unsigned and wrap: bytes from `r` to `w` are committed and wait for a
reader, bytes from `w` to `e` are still being edited. Both functions work under `cons.lock`;
`consoleread` gives it up only to sleep while `r == w`, so a step of a reader goes from there to the
end of the call or to the next sleep. Destinations are writable and no reader is killed.

`Tty` is the reference: a line editor on lists, with no ring and no counters, and readers that take
bytes from the front of what is committed. **`console_refines`** says that the console takes the
same steps, and what the readers get, over whole runs.
-/

namespace Xv6

open Ring List Function

abbrev INPUT_BUF_SIZE : ℕ := 128

namespace Console

abbrev ctrlD : UInt8 := 4
abbrev ctrlH : UInt8 := 8
abbrev newline : UInt8 := 10
abbrev carriageReturn : UInt8 := 13
abbrev ctrlP : UInt8 := 16
abbrev ctrlU : UInt8 := 21
abbrev delete : UInt8 := 127

/-- `x + 1` for a 32-bit unsigned `x`. -/
def inc (x : ℕ) : ℕ := (x + 1) % 2 ^ 32

/-- `x - 1` for a 32-bit unsigned `x`. -/
def dec (x : ℕ) : ℕ := (x + 2 ^ 32 - 1) % 2 ^ 32

end Console

open Console

/-- `cons`, without its lock. -/
structure Cons where
  buf : ℕ → UInt8
  r : ℕ
  w : ℕ
  e : ℕ

/-- How a section of `consoleread` ends: asleep with `n` bytes to go, or with a return. -/
inductive ReadEnd where
  | sleep (n : ℕ)
  | done
  deriving DecidableEq

namespace Cons

/-- The loop of `^U`; there are `e - w` bytes to kill at most. -/
def killLine (c : Cons) : ℕ → Cons
  | 0 => c
  | k + 1 =>
    if c.e ≠ c.w ∧ c.buf (dec c.e % INPUT_BUF_SIZE) ≠ newline then
      killLine { c with e := dec c.e } k
    else c

def backspace (c : Cons) : Cons := if c.e ≠ c.w then { c with e := dec c.e } else c

/-- `cons.buf[cons.e++ % INPUT_BUF_SIZE] = b`. -/
def put (c : Cons) (b : UInt8) : Cons :=
  { c with buf := update c.buf (c.e % INPUT_BUF_SIZE) b, e := inc c.e }

/-- The `default` case of `consoleintr`. -/
def store (c : Cons) (b : UInt8) : Cons :=
  let c := c.put b
  if b = newline ∨ b = ctrlD ∨ used (2 ^ 32) c.r c.e = INPUT_BUF_SIZE
    then { c with w := c.e } else c

def consoleintr (c : Cons) (ch : UInt8) : Cons :=
  if ch = ctrlP then c
  else if ch = ctrlU then c.killLine (used (2 ^ 32) c.w c.e)
  else if ch = ctrlH ∨ ch = delete then c.backspace
  else if ch ≠ 0 ∧ used (2 ^ 32) c.r c.e < INPUT_BUF_SIZE then
    c.store (if ch = carriageReturn then newline else ch)
  else c

/-- `consoleread` up to its next sleep or its return, with `n` bytes to go and `got` copied out. -/
def consoleread (target : ℕ) : ℕ → Cons → List UInt8 → Cons × List UInt8 × ReadEnd
  | 0, c, got => (c, got, .done)
  | n + 1, c, got =>
    if c.r = c.w then (c, got, .sleep (n + 1))
    else
      let b := c.buf (c.r % INPUT_BUF_SIZE)
      let c := { c with r := inc c.r }
      if b = ctrlD then (if n + 1 < target then { c with r := dec c.r } else c, got, .done)
      else if b = newline then (c, got ++ [b], .done)
      else consoleread target n c (got ++ [b])

end Cons

/-! ## The reference -/

/-- A line editor: the bytes committed and not yet read, and the line being edited. -/
structure Editor where
  unread : List UInt8
  pending : List UInt8

namespace Editor

/-- Append to the line. A newline, an end-of-file or a full buffer commits it. -/
def append (x : Editor) (b : UInt8) : Editor :=
  if b = newline ∨ b = ctrlD ∨ (x.unread ++ x.pending ++ [b]).length = INPUT_BUF_SIZE then
    ⟨x.unread ++ x.pending ++ [b], []⟩
  else ⟨x.unread, x.pending ++ [b]⟩

/-- One character from the keyboard. -/
def type (x : Editor) (ch : UInt8) : Editor :=
  if ch = ctrlP then x
  else if ch = ctrlU then ⟨x.unread, []⟩
  else if ch = ctrlH ∨ ch = delete then ⟨x.unread, x.pending.dropLast⟩
  else if ch ≠ 0 ∧ (x.unread ++ x.pending).length < INPUT_BUF_SIZE then
    x.append (if ch = carriageReturn then newline else ch)
  else x

/-- A read of up to `n` bytes, which has got `got` of its `target` bytes before: it stops behind a
newline and at an end-of-file, which it takes with it only if it has got nothing. -/
def read (target : ℕ) : ℕ → List UInt8 → List UInt8 → List UInt8 × List UInt8 × ReadEnd
  | 0, unread, got => (unread, got, .done)
  | n + 1, [], got => ([], got, .sleep (n + 1))
  | n + 1, b :: unread, got =>
    if b = ctrlD then (if n + 1 < target then b :: unread else unread, got, .done)
    else if b = newline then (unread, got ++ [b], .done)
    else read target n unread (got ++ [b])

end Editor

open Editor

/-- A call of `consoleread` that sleeps. -/
structure ReadCall where
  target : ℕ
  n : ℕ
  got : List UInt8
  deriving DecidableEq

/-- The readers and what they have got. -/
structure Readers (P : Type) where
  call : P → Option ReadCall
  delivered : List (P × UInt8)
  returned : List (P × List UInt8)

namespace Readers

variable {P : Type} [DecidableEq P]

/-- Reader `p` had got `old` and has now got `got`; it sleeps or returns. -/
def advance (x : Readers P) (p : P) (target : ℕ) (old got : List UInt8) : ReadEnd → Readers P
  | .sleep n =>
    { x with
      call := update x.call p (some ⟨target, n, got⟩)
      delivered := x.delivered ++ (got.drop old.length).map fun b => (p, b) }
  | .done =>
    { call := update x.call p none
      delivered := x.delivered ++ (got.drop old.length).map fun b => (p, b)
      returned := x.returned ++ [(p, got)] }

end Readers

/-- A character from the keyboard, a call of `consoleread` by `p`, or `p` going on after a sleep. -/
inductive ConsAct (P : Type) where
  | intr (ch : UInt8)
  | read (p : P) (n : ℤ)
  | wakeup (p : P)

/-- The console and the calls that sleep on it. -/
structure ConsSys (P : Type) where
  cons : Cons
  readers : Readers P

namespace ConsSys

variable {P : Type} [DecidableEq P]

def run (s : ConsSys P) (p : P) (target n : ℕ) (got : List UInt8) : ConsSys P :=
  let x := Cons.consoleread target n s.cons got
  ⟨x.1, s.readers.advance p target got x.2.1 x.2.2⟩

/-- One step. A sleeping reader goes on when there is something to read. -/
def step (s : ConsSys P) : ConsAct P → Outcome Empty (ConsSys P)
  | .intr ch => .next { s with cons := s.cons.consoleintr ch }
  | .read p n =>
    match s.readers.call p with
    | none => .next (s.run p n.toNat n.toNat [])
    | some _ => .disabled
  | .wakeup p =>
    match s.readers.call p with
    | some c => if s.cons.r = s.cons.w then .disabled else .next (s.run p c.target c.n c.got)
    | none => .disabled

/-- The buffer is empty, at any value of the counters, and nobody reads. -/
def Initial (s : ConsSys P) : Prop :=
  s.cons.r < 2 ^ 32 ∧ s.cons.w = s.cons.r ∧ s.cons.e = s.cons.r ∧
    s.readers = ⟨fun _ => none, [], []⟩

end ConsSys

/-- The editor with its readers. `committed` and `consumed` are history: all bytes ever committed,
and those that readers have taken off the front. -/
structure Tty (P : Type) where
  editor : Editor
  readers : Readers P
  committed : List UInt8
  consumed : List UInt8

namespace Tty

variable {P : Type} [DecidableEq P]

def init : Tty P := ⟨⟨[], []⟩, ⟨fun _ => none, [], []⟩, [], []⟩

def type (t : Tty P) (ch : UInt8) : Tty P :=
  { t with
    editor := t.editor.type ch
    committed := t.committed ++ (t.editor.type ch).unread.drop t.editor.unread.length }

def run (t : Tty P) (p : P) (target n : ℕ) (got : List UInt8) : Tty P :=
  let x := read target n t.editor.unread got
  { t with
    editor := { t.editor with unread := x.1 }
    readers := t.readers.advance p target got x.2.1 x.2.2
    consumed := t.consumed ++ t.editor.unread.take (t.editor.unread.length - x.1.length) }

def step (t : Tty P) : ConsAct P → Outcome Empty (Tty P)
  | .intr ch => .next (t.type ch)
  | .read p n =>
    match t.readers.call p with
    | none => .next (t.run p n.toNat n.toNat [])
    | some _ => .disabled
  | .wakeup p =>
    match t.readers.call p with
    | some c => if t.editor.unread = [] then .disabled else .next (t.run p c.target c.n c.got)
    | none => .disabled

end Tty

/-! ## The ring shows the editor -/

lemma Console.inc_lt (x : ℕ) : inc x < 2 ^ 32 := Nat.mod_lt _ (by norm_num)

lemma Console.dec_lt (x : ℕ) : dec x < 2 ^ 32 := Nat.mod_lt _ (by norm_num)

lemma Console.dec_inc {x : ℕ} (h : x < 2 ^ 32) : dec (inc x) = x := by
  simp only [dec, inc]
  omega

namespace Cons

variable {c : Cons} {x : Editor} {b : UInt8} {u : List UInt8}

/-- The ring holds what the editor has, with `w` at the boundary of the line being edited. -/
structure Shows (c : Cons) (x : Editor) : Prop where
  r_lt : c.r < 2 ^ 32
  w_lt : c.w < 2 ^ 32
  e_lt : c.e < 2 ^ 32
  whole : contents INPUT_BUF_SIZE (2 ^ 32) c.buf c.r c.e = x.unread ++ x.pending
  split : used (2 ^ 32) c.r c.w = x.unread.length
  room : (x.unread ++ x.pending).length ≤ INPUT_BUF_SIZE
  line : newline ∉ x.pending

section

variable (h : c.Shows x)
include h

lemma Shows.used_eq : used (2 ^ 32) c.r c.e = (x.unread ++ x.pending).length := by
  rw [← h.whole, length_contents]

lemma Shows.empty_iff : c.r = c.w ↔ x.unread = [] := by
  rw [← used_eq_zero h.r_lt h.w_lt, h.split, length_eq_zero_iff]

lemma Shows.edited_iff : c.e = c.w ↔ x.pending = [] := by
  constructor
  · intro he
    have hlen := h.used_eq
    rw [he, h.split, length_append] at hlen
    exact length_eq_zero_iff.mp (by omega)
  · intro hp
    have hlen := h.used_eq
    rw [hp, append_nil, ← h.split] at hlen
    rw [← add_used h.r_lt h.e_lt, hlen, add_used h.r_lt h.w_lt]

section

variable (hroom : (x.unread ++ x.pending).length < INPUT_BUF_SIZE)
include hroom

lemma Shows.put (hb : b ≠ newline) : (c.put b).Shows ⟨x.unread, x.pending ++ [b]⟩ := by
  have hused := h.used_eq
  refine ⟨h.r_lt, h.w_lt, inc_lt _, ?_, h.split, ?_, ?_⟩
  · show contents _ _ (update c.buf (c.e % INPUT_BUF_SIZE) b) c.r ((c.e + 1) % 2 ^ 32) = _
    rw [contents_put (by norm_num) _ _ h.r_lt h.e_lt (by omega)
      (by simp only [INPUT_BUF_SIZE] at hroom; omega), h.whole, append_assoc]
  · simp only [length_append, length_singleton] at hroom ⊢
    omega
  · simp [h.line, hb.symm]

/-- `cons.w = cons.e` behind a byte that has just been stored. -/
lemma Shows.commit :
    { c.put b with w := (c.put b).e }.Shows ⟨x.unread ++ x.pending ++ [b], []⟩ := by
  have hused := h.used_eq
  have hwhole : contents INPUT_BUF_SIZE (2 ^ 32) (c.put b).buf c.r (c.put b).e =
      x.unread ++ x.pending ++ [b] := by
    rw [← h.whole]
    exact contents_put (by norm_num) _ _ h.r_lt h.e_lt (by omega)
      (by simp only [INPUT_BUF_SIZE] at hroom; omega)
  refine ⟨h.r_lt, inc_lt _, inc_lt _, ?_, ?_, ?_, by simp⟩
  · rw [append_nil]
    exact hwhole
  · show used (2 ^ 32) c.r (c.put b).e = _
    rw [← hwhole, length_contents]
  · rw [append_nil, length_append, length_singleton]
    omega

lemma Shows.store : (c.store b).Shows (x.append b) := by
  have hcommit := h.commit (b := b) hroom
  have hfull : used (2 ^ 32) (c.put b).r (c.put b).e = (x.unread ++ x.pending ++ [b]).length := by
    have := hcommit.used_eq
    rwa [append_nil] at this
  rw [Cons.store, append]
  simp only [hfull]
  split_ifs with hc
  · exact hcommit
  · have hput := h.put hroom fun hn => hc (.inl hn)
    exact hput

end

lemma Shows.shrink (hp : x.pending ≠ []) :
    { c with e := dec c.e }.Shows ⟨x.unread, x.pending.dropLast⟩ ∧
      c.buf (dec c.e % INPUT_BUF_SIZE) ∈ x.pending := by
  have hused := h.used_eq
  have hroom := h.room
  have hne : c.r ≠ c.e := by
    intro he
    have h0 := (used_eq_zero h.r_lt h.e_lt).mpr he
    rw [hused, length_append] at h0
    exact hp (length_eq_zero_iff.mp (by omega))
  have hwhole : contents INPUT_BUF_SIZE (2 ^ 32) c.buf c.r (dec c.e) ++
      [c.buf (dec c.e % INPUT_BUF_SIZE)] = x.unread ++ x.pending := by
    rw [← h.whole, contents_pred (by norm_num) c.buf h.r_lt h.e_lt hne]
    rfl
  rw [← dropLast_append_getLast hp, ← append_assoc] at hwhole
  obtain ⟨hw1, hw2⟩ := append_inj' hwhole rfl
  refine ⟨⟨h.r_lt, h.w_lt, dec_lt _, hw1, h.split, ?_, ?_⟩, ?_⟩
  · simp only [length_append, length_dropLast] at hroom ⊢
    omega
  · exact fun hn => h.line (mem_of_mem_dropLast hn)
  · rw [singleton_inj.mp hw2]
    exact getLast_mem hp

lemma Shows.backspace : c.backspace.Shows ⟨x.unread, x.pending.dropLast⟩ := by
  rw [Cons.backspace]
  split_ifs with he
  · exact (h.shrink fun hp => he (h.edited_iff.mpr hp)).1
  · have hp : x.pending = [] := h.edited_iff.mp (not_not.mp he)
    rw [hp, dropLast_nil, ← hp]
    exact h

-- The line has no newline, so the loop of `^U` ends at `w`, after as many rounds as it has bytes.
lemma Shows.killLine : ∀ {k : ℕ}, x.pending.length = k → (c.killLine k).Shows ⟨x.unread, []⟩ := by
  intro k
  induction k generalizing c x with
  | zero =>
    intro hk
    rw [← length_eq_zero_iff.mp hk]
    exact h
  | succ k ih =>
    intro hk
    have hp : x.pending ≠ [] := by
      rintro h0
      rw [h0] at hk
      cases hk
    obtain ⟨hshrink, hmem⟩ := h.shrink hp
    have hcond : c.e ≠ c.w ∧ c.buf (dec c.e % INPUT_BUF_SIZE) ≠ newline :=
      ⟨fun he => hp (h.edited_iff.mp he), fun hn => h.line (hn ▸ hmem)⟩
    rw [Cons.killLine, if_pos hcond]
    exact ih (x := ⟨x.unread, x.pending.dropLast⟩) hshrink (by simp [hk])

lemma Shows.used_line : used (2 ^ 32) c.w c.e = x.pending.length := by
  have hroom := h.room
  have hre := h.used_eq
  have hrw := h.split
  have h1 := h.r_lt
  have h2 := h.w_lt
  have h3 := h.e_lt
  rw [length_append] at hre hroom
  simp only [INPUT_BUF_SIZE] at hroom
  rw [Ring.used_eq h1 h3] at hre
  rw [Ring.used_eq h1 h2] at hrw
  rw [Ring.used_eq h2 h3]
  split_ifs at hre hrw ⊢ <;> omega

lemma Shows.parts : contents INPUT_BUF_SIZE (2 ^ 32) c.buf c.r c.w = x.unread ∧
      contents INPUT_BUF_SIZE (2 ^ 32) c.buf c.w c.e = x.pending := by
  have hall : contents INPUT_BUF_SIZE (2 ^ 32) c.buf c.r c.e =
      contents INPUT_BUF_SIZE (2 ^ 32) c.buf c.r c.w ++
        contents INPUT_BUF_SIZE (2 ^ 32) c.buf c.w c.e :=
    contents_append (by norm_num) h.r_lt h.w_lt
      (by rw [h.split, h.used_line, h.used_eq, length_append])
  rw [h.whole] at hall
  obtain ⟨hunread, hpending⟩ := append_inj hall (by rw [length_contents, h.split])
  exact ⟨hunread.symm, hpending.symm⟩

lemma Shows.consoleintr (ch : UInt8) : (c.consoleintr ch).Shows (x.type ch) := by
  rw [Cons.consoleintr, type, h.used_eq]
  by_cases hP : ch = ctrlP
  · rwa [if_pos hP, if_pos hP]
  rw [if_neg hP, if_neg hP]
  by_cases hU : ch = ctrlU
  · rw [if_pos hU, if_pos hU, h.used_line]
    exact h.killLine rfl
  rw [if_neg hU, if_neg hU]
  by_cases hH : ch = ctrlH ∨ ch = delete
  · rw [if_pos hH, if_pos hH]
    exact h.backspace
  rw [if_neg hH, if_neg hH]
  by_cases hroom : ch ≠ 0 ∧ (x.unread ++ x.pending).length < INPUT_BUF_SIZE
  · rw [if_pos hroom, if_pos hroom]
    exact h.store hroom.2
  · rwa [if_neg hroom, if_neg hroom]

lemma Shows.take (hu : x.unread = b :: u) :
    c.buf (c.r % INPUT_BUF_SIZE) = b ∧ { c with r := inc c.r }.Shows ⟨u, x.pending⟩ := by
  have hroom := h.room
  have hne : c.r ≠ c.w := by
    rw [ne_eq, h.empty_iff, hu]
    simp
  have hne' : c.r ≠ c.e := by
    intro he
    have h0 := (used_eq_zero h.r_lt h.e_lt).mpr he
    rw [h.used_eq, hu] at h0
    cases h0
  have hwhole := h.whole
  rw [contents_take (by norm_num) c.buf h.r_lt h.e_lt hne', hu, cons_append] at hwhole
  obtain ⟨hb, hrest⟩ := cons.inj hwhole
  refine ⟨hb, inc_lt _, h.w_lt, h.e_lt, hrest, ?_, ?_, h.line⟩
  · have htake := used_take h.r_lt h.w_lt hne
    rw [h.split, hu, length_cons] at htake
    exact Nat.succ.inj htake
  · rw [hu, cons_append, length_cons] at hroom
    exact Nat.le_of_succ_le hroom

end

/-- **A section of a read takes from the front of what is committed.** -/
lemma Shows.consoleread (target : ℕ) : ∀ {n : ℕ} {c : Cons} {unread pending got : List UInt8},
    c.Shows ⟨unread, pending⟩ →
    (Cons.consoleread target n c got).1.Shows ⟨(read target n unread got).1, pending⟩ ∧
      (Cons.consoleread target n c got).2 = (read target n unread got).2 := by
  intro n
  induction n with
  | zero =>
    intro c unread pending got h
    exact ⟨by simpa [Cons.consoleread, Editor.read] using h,
      by simp [Cons.consoleread, Editor.read]⟩
  | succ n ih =>
    intro c unread pending got h
    rw [Cons.consoleread]
    cases unread with
    | nil =>
      rw [if_pos (h.empty_iff.mpr rfl), Editor.read]
      exact ⟨h, rfl⟩
    | cons b unread =>
      obtain ⟨hb, hnext⟩ := h.take rfl
      rw [if_neg fun he => cons_ne_nil _ _ (h.empty_iff.mp he), Editor.read]
      simp only [hb]
      by_cases hD : b = ctrlD
      · rw [if_pos hD, if_pos hD]
        refine ⟨?_, rfl⟩
        split_ifs
        · -- the `^D` is put back
          rw [dec_inc h.r_lt]
          exact h
        · exact hnext
      rw [if_neg hD, if_neg hD]
      by_cases hN : b = newline
      · rw [if_pos hN, if_pos hN]
        exact ⟨hnext, rfl⟩
      · rw [if_neg hN, if_neg hN]
        exact ih hnext

end Cons

/-! ## What readers get -/

lemma Editor.read_front (target : ℕ) : ∀ (n : ℕ) (unread got : List UInt8), ∃ front,
    unread = front ++ (read target n unread got).1 ∧
      (read target n unread got).2.1 = got ++ front.filter (· ≠ ctrlD) := by
  intro n
  induction n with
  | zero => exact fun unread got => ⟨[], by simp [read], by simp [read]⟩
  | succ n ih =>
    intro unread got
    cases unread with
    | nil => exact ⟨[], by simp [read], by simp [read]⟩
    | cons b unread =>
      rw [read]
      split_ifs with hD hlt hN
      · exact ⟨[], rfl, by simp⟩
      · exact ⟨[b], rfl, by simp [hD]⟩
      · exact ⟨[b], rfl, by rw [filter_cons_of_pos (by simpa using hD), filter_nil]⟩
      · obtain ⟨front, h1, h2⟩ := ih unread (got ++ [b])
        refine ⟨b :: front, ?_, ?_⟩
        · rw [cons_append, ← h1]
        · rw [h2, filter_cons_of_pos (by simpa using hD), append_assoc, singleton_append]

lemma Editor.unread_append (x : Editor) (b : UInt8) : x.unread <+: (x.append b).unread := by
  rw [append]
  split_ifs
  · exact append_assoc .. ▸ prefix_append _ _
  · exact prefix_rfl

lemma Editor.unread_type (x : Editor) (ch : UInt8) :
    x.unread ++ (x.type ch).unread.drop x.unread.length = (x.type ch).unread := by
  have hpre : x.unread <+: (x.type ch).unread := by
    rw [type]
    split
    · exact prefix_rfl
    split
    · exact prefix_rfl
    split
    · exact prefix_rfl
    split
    · exact x.unread_append _
    · exact prefix_rfl
  obtain ⟨rest, hrest⟩ := hpre
  rw [← hrest, drop_left]

section

variable {P : Type} [DecidableEq P] {p q : P}

lemma tagged_self (l : List UInt8) : ((l.map fun b => (p, b)).filter (·.1 = p)).map (·.2) = l := by
  simp [filter_map, comp_def]

lemma tagged_of_ne (h : q ≠ p) (l : List UInt8) :
    (l.map fun b => (p, b)).filter (·.1 = q) = [] := by
  simp [filter_map, comp_def, h.symm]

end

namespace Tty

variable {P : Type} [DecidableEq P]

/-- What a reader has been given: what its calls have returned, and what the present one has got. -/
def givenTo (t : Tty P) (p : P) : List UInt8 :=
  (t.readers.returned.filter (·.1 = p)).flatMap (·.2) ++ ((t.readers.call p).elim [] (·.got))

/-- Every committed byte is unread or consumed, and the consumed ones have been delivered, in order
and once each, except for the end-of-file marks; each reader has what was delivered to it. -/
structure Books (t : Tty P) : Prop where
  committed : t.committed = t.consumed ++ t.editor.unread
  delivered : t.readers.delivered.map (·.2) = t.consumed.filter (· ≠ ctrlD)
  given : ∀ p, t.givenTo p = (t.readers.delivered.filter (·.1 = p)).map (·.2)

lemma books_init : (init : Tty P).Books := ⟨rfl, rfl, fun _ => rfl⟩

lemma Books.type {t : Tty P} (h : t.Books) (ch : UInt8) : (t.type ch).Books := by
  refine ⟨?_, h.delivered, h.given⟩
  show t.committed ++ _ = t.consumed ++ (t.editor.type ch).unread
  rw [h.committed, append_assoc, unread_type]

lemma Books.run {t : Tty P} (h : t.Books) (p : P) (target n : ℕ) {got : List UInt8}
    (hgot : (t.readers.call p).elim [] (·.got) = got) : (t.run p target n got).Books := by
  obtain ⟨front, hfront, hres⟩ := read_front target n t.editor.unread got
  have htake : t.editor.unread.take
      (t.editor.unread.length - (read target n t.editor.unread got).1.length) = front := by
    have hlen := congrArg length hfront
    rw [length_append] at hlen
    rw [show t.editor.unread.length - (read target n t.editor.unread got).1.length
      = front.length by omega]
    conv_lhs => rw [hfront]
    rw [take_left]
  have hdrop : (read target n t.editor.unread got).2.1.drop got.length =
      front.filter (· ≠ ctrlD) := by
    rw [hres, drop_left]
  have hcall := h.given p
  rw [givenTo, hgot] at hcall
  refine ⟨?_, ?_, ?_⟩
  · show t.committed = t.consumed ++ _ ++ (read target n t.editor.unread got).1
    rw [htake, append_assoc, ← hfront]
    exact h.committed
  · show map _ (Readers.advance _ _ _ _ _ _).delivered = filter _ (t.consumed ++ _)
    rw [htake, filter_append, ← h.delivered]
    cases (read target n t.editor.unread got).2.2 with
    | sleep m | done => simp [Readers.advance, hdrop, comp_def]
  · intro q
    by_cases hq : q = p
    · subst hq
      rw [givenTo]
      simp only [Tty.run]
      cases (read target n t.editor.unread got).2.2 with
      | sleep m =>
        simp only [Readers.advance, hres, drop_left, update_self, Option.elim_some,
          filter_append, map_append, tagged_self]
        rw [← append_assoc, hcall]
      | done =>
        simp only [Readers.advance, hres, drop_left, update_self, Option.elim_none,
          append_nil, filter_append, map_append, tagged_self, flatMap_append,
          filter_cons, filter_nil, decide_true, if_true, flatMap_cons,
          flatMap_nil]
        rw [← append_assoc, hcall]
    · have hq' : ¬ p = q := fun he => hq he.symm
      have hold := h.given q
      rw [givenTo] at hold ⊢
      simp only [Tty.run]
      cases (read target n t.editor.unread got).2.2 with
      | sleep m =>
        simp only [Readers.advance, update_of_ne hq, filter_append, tagged_of_ne hq, append_nil]
        exact hold
      | done =>
        simp only [Readers.advance, update_of_ne hq, filter_append,
          tagged_of_ne hq, append_nil, filter_cons, filter_nil, hq', decide_false,
          Bool.false_eq_true, if_false]
        exact hold

end Tty

namespace ConsSys

variable {P : Type} [DecidableEq P]

/-- The console and the reference agree. -/
structure Sim (s : ConsSys P) (t : Tty P) : Prop where
  editor : s.cons.Shows t.editor
  readers : s.readers = t.readers
  books : t.Books

variable {s : ConsSys P}

lemma Initial.sim (h : s.Initial) : s.Sim Tty.init := by
  obtain ⟨hr, hw, he, hreaders⟩ := h
  have hused : used (2 ^ 32) s.cons.r s.cons.r = 0 := (used_eq_zero hr hr).mpr rfl
  refine ⟨⟨hr, hw ▸ hr, he ▸ hr, ?_, ?_, by simp [Tty.init], by simp [Tty.init]⟩, hreaders,
    Tty.books_init⟩
  · rw [he, contents, hused]
    rfl
  · rw [hw, hused]
    rfl

lemma Sim.run {t : Tty P} (h : s.Sim t) (p : P) (target n : ℕ)
    {got : List UInt8} (hgot : (t.readers.call p).elim [] (·.got) = got) :
    (s.run p target n got).Sim (t.run p target n got) := by
  obtain ⟨hshows, hres⟩ : (Cons.consoleread target n s.cons got).1.Shows _ ∧ _ :=
    Cons.Shows.consoleread target h.editor
  refine ⟨hshows, ?_, h.books.run p target n hgot⟩
  show s.readers.advance p target got _ _ = t.readers.advance p target got _ _
  rw [hres, h.readers]

lemma Sim.step {s' : ConsSys P} {t : Tty P} {a : ConsAct P} (h : s.Sim t)
    (hst : s.step a = .next s') : ∃ t', t.step a = .next t' ∧ s'.Sim t' := by
  cases a with
  | intr ch =>
    cases hst
    exact ⟨_, rfl, h.editor.consoleintr ch, h.readers, h.books.type ch⟩
  | read p n =>
    simp only [ConsSys.step, h.readers] at hst
    split at hst
    · next hcall =>
      cases hst
      refine ⟨_, by simp only [Tty.step, hcall]; rfl, ?_⟩
      exact h.run p _ _ (by rw [hcall]; rfl)
    · cases hst
  | wakeup p =>
    simp only [ConsSys.step, h.readers, h.editor.empty_iff] at hst
    split at hst
    · next c hcall =>
      split_ifs at hst with hempty
      cases hst
      refine ⟨_, by simp only [Tty.step, hcall, if_neg hempty]; rfl, ?_⟩
      exact h.run p _ _ (by rw [hcall]; rfl)
    · cases hst

/-- **The console is a line editor with a queue of committed bytes.**  For every interleaving of
characters and reads, from any value of the counters, the counters keep their order, and there is a
run of the reference with the same actions in which the readers get the same: the bytes delivered
are the committed ones that have been consumed, in order and once each, without the end-of-file
marks. -/
theorem console_refines {s0 s : ConsSys P} {acts : List (ConsAct P)} (h₀ : s0.Initial)
    (hrun : Run step s0 acts s) :
    used (2 ^ 32) s.cons.r s.cons.w ≤ used (2 ^ 32) s.cons.r s.cons.e ∧
      used (2 ^ 32) s.cons.r s.cons.e ≤ INPUT_BUF_SIZE ∧
      ∃ t, Run Tty.step Tty.init acts t ∧ s.readers = t.readers ∧
        contents INPUT_BUF_SIZE (2 ^ 32) s.cons.buf s.cons.r s.cons.w = t.editor.unread ∧
        contents INPUT_BUF_SIZE (2 ^ 32) s.cons.buf s.cons.w s.cons.e = t.editor.pending ∧
        t.committed = t.consumed ++ t.editor.unread ∧
        s.readers.delivered.map (·.2) = t.consumed.filter (· ≠ ctrlD) ∧
        ∀ p, t.givenTo p = (s.readers.delivered.filter (·.1 = p)).map (·.2) := by
  have hstep : ∀ (s : ConsSys P) a s' t, s.Sim t → s.step a = .next s' →
      ∃ t', Tty.step t a = .next t' ∧ s'.Sim t' := fun _ _ _ _ hR hst => hR.step hst
  obtain ⟨t, ht, hsim⟩ := hrun.forward hstep h₀.sim
  have hshows := hsim.editor
  refine ⟨?_, ?_, t, ht, hsim.readers, hshows.parts.1, hshows.parts.2, hsim.books.committed, ?_, ?_⟩
  · rw [hshows.split, hshows.used_eq, length_append]
    exact Nat.le_add_right _ _
  · rw [hshows.used_eq]
    exact hshows.room
  · rw [hsim.readers]
    exact hsim.books.delivered
  · rw [hsim.readers]
    exact hsim.books.given

/-- An empty buffer whose counters are about to wrap. -/
def sampleConsole : ConsSys (Fin 2) :=
  ⟨⟨fun _ => 0, 2 ^ 32 - 1, 2 ^ 32 - 1, 2 ^ 32 - 1⟩, ⟨fun _ => none, [], []⟩⟩

/-- A reader waits; then come `h`, `x`, backspace, `i`, return, `^D`; two more reads. -/
def sampleKeys : List (ConsAct (Fin 2)) :=
  [.read 0 10, .intr 104, .intr 120, .intr 8, .intr 105, .intr 13, .intr 4, .wakeup 0, .read 1 5]

/-- The first reader gets the line, the second one the end of the file. -/
theorem console_refines_sample : ∃ s, Run step sampleConsole sampleKeys s ∧
    s.readers.returned = [(0, [104, 105, 10]), (1, [])] ∧
    used (2 ^ 32) s.cons.r s.cons.e ≤ INPUT_BUF_SIZE ∧
    ∃ t, Run Tty.step Tty.init sampleKeys t ∧ s.readers = t.readers := by
  have hex : (exec step sampleConsole sampleKeys).map (fun s => s.readers.returned) =
      some [(0, [104, 105, 10]), (1, [])] := by decide +kernel
  obtain ⟨s, hs, hret⟩ := Option.map_eq_some_iff.mp hex
  have hrun := Run.of_exec hs
  have h₀ : sampleConsole.Initial := ⟨by decide, rfl, rfl, rfl⟩
  obtain ⟨-, hroom, t, ht, hreaders, -⟩ := console_refines h₀ hrun
  exact ⟨s, hrun, hret, hroom, t, ht, hreaders⟩

end ConsSys

end Xv6
