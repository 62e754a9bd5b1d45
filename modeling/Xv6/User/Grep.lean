import Mathlib.Tactic

/-!
# `grep`

The matcher and the buffer loop of user/grep.c. A C string is the list of the bytes before its NUL.
`Denotes` says what a pattern stands for: the elements of the pattern are matched by consecutive
words, a starred character by any number of bytes it fits. The loop reads into a buffer of 1024
bytes behind the line it has not seen the end of; `read` may return fewer bytes than asked for, in
any way.
-/

namespace Xv6.Grep

open List

/-! ## The matcher -/

/-- `c == '.' || c == a`. -/
def fits (c a : UInt8) : Bool := c == 46 || c == a

/-- `matchstar(c, re, text)`, where `here` is `matchhere(re, ·)`. -/
def matchstar (c : UInt8) (here : List UInt8 → Bool) : List UInt8 → Bool
  | [] => here []
  | a :: text => here (a :: text) || fits c a && matchstar c here text

def matchhere : List UInt8 → List UInt8 → Bool
  | [], _ => true
  | c :: 42 :: re, text => matchstar c (matchhere re) text
  | [36], text => text.isEmpty
  | c :: re, a :: text => fits c a && matchhere re text
  | _ :: _, [] => false

/-- The loop of `match`, over the suffixes of the text. -/
def matchAnywhere (re : List UInt8) : List UInt8 → Bool
  | [] => matchhere re []
  | a :: text => matchhere re (a :: text) || matchAnywhere re text

def «match» : List UInt8 → List UInt8 → Bool
  | 94 :: re, text => matchhere re text
  | re, text => matchAnywhere re text

/-- An element of a pattern. -/
inductive Elem where
  | star (c : UInt8)
  | one (c : UInt8)
  | eof

/-- The elements of a pattern behind its `^`. -/
def elems : List UInt8 → List Elem
  | [] => []
  | c :: 42 :: re => .star c :: elems re
  | [36] => [.eof]
  | c :: re => .one c :: elems re

/-- The elements stand for the word, with `rest` behind it. -/
inductive Denotes : List Elem → List UInt8 → List UInt8 → Prop where
  | nil {rest} : Denotes [] [] rest
  | star {c es w v rest} (hw : ∀ a ∈ w, fits c a) (h : Denotes es v rest) :
      Denotes (.star c :: es) (w ++ v) rest
  | one {c a es v rest} (ha : fits c a) (h : Denotes es v rest) :
      Denotes (.one c :: es) (a :: v) rest
  | eof : Denotes [.eof] [] []

/-- The elements match a beginning of the text. -/
def MatchesAt (es : List Elem) (text : List UInt8) : Prop :=
  ∃ w rest, text = w ++ rest ∧ Denotes es w rest

variable {re text : List UInt8} {c : UInt8}

lemma matchstar_iff {here : List UInt8 → Bool} : matchstar c here text ↔
    ∃ w v, text = w ++ v ∧ (∀ a ∈ w, fits c a) ∧ here v := by
  induction text with
  | nil => simp [matchstar]
  | cons a text ih =>
    simp only [matchstar, Bool.or_eq_true, Bool.and_eq_true, ih]
    constructor
    · rintro (h | ⟨ha, w, v, rfl, hw, h⟩)
      · exact ⟨[], _, rfl, by simp, h⟩
      · exact ⟨a :: w, v, rfl, forall_mem_cons.mpr ⟨ha, hw⟩, h⟩
    · rintro ⟨w, v, he, hw, h⟩
      cases w with
      | nil => exact .inl (he ▸ h)
      | cons b w =>
        obtain ⟨rfl, rfl⟩ := cons_eq_cons.mp he
        exact .inr ⟨hw _ mem_cons_self, w, v, rfl, fun x hx => hw x (mem_cons_of_mem _ hx), h⟩

lemma matchesAt_star {es : List Elem} : MatchesAt (.star c :: es) text ↔
    ∃ w v, text = w ++ v ∧ (∀ a ∈ w, fits c a) ∧ MatchesAt es v := by
  constructor
  · rintro ⟨_, rest, rfl, hd⟩
    cases hd with
    | @star _ _ w v _ hw h => exact ⟨w, v ++ rest, append_assoc .., hw, v, rest, rfl, h⟩
  · rintro ⟨w, _, rfl, hw, v, rest, rfl, h⟩
    exact ⟨w ++ v, rest, (append_assoc ..).symm, .star hw h⟩

-- The cases are those of `elems`, which reads the pattern as `matchhere` does.
lemma matchhere_iff : matchhere re text ↔ MatchesAt (elems re) text := by
  induction re using elems.induct generalizing text with
  | case1 =>
    rw [matchhere, elems]
    exact iff_of_true rfl ⟨[], text, rfl, .nil⟩
  | case2 c re ih => simp only [matchhere, elems, matchstar_iff, matchesAt_star, ih]
  | case3 =>
    rw [matchhere, elems, List.isEmpty_iff]
    constructor
    · rintro rfl
      exact ⟨[], [], rfl, .eof⟩
    · rintro ⟨_, _, rfl, ⟨⟩⟩
      rfl
  | case4 c re hstar heof ih =>
    rw [elems]
    · cases text with
      | nil =>
        rw [matchhere]
        · refine iff_of_false Bool.false_ne_true ?_
          rintro ⟨_, _, he, ⟨⟩⟩
          cases he
        all_goals assumption
      | cons a text =>
        rw [matchhere, Bool.and_eq_true, ih]
        · constructor
          · rintro ⟨ha, w, rest, rfl, h⟩
            exact ⟨a :: w, rest, rfl, .one ha h⟩
          · rintro ⟨_, rest, he, h⟩
            cases h with
            | one ha h =>
              obtain ⟨rfl, rfl⟩ := cons_eq_cons.mp he
              exact ⟨ha, _, rest, rfl, h⟩
        all_goals assumption
    all_goals assumption

-- The loop is that of `matchstar` for a dot.
lemma matchAnywhere_eq : matchAnywhere re text = matchstar 46 (matchhere re) text := by
  induction text with
  | nil => rfl
  | cons a text ih => rw [matchAnywhere, matchstar, ih, fits, beq_self_eq_true, Bool.true_or,
      Bool.true_and]

/-- **The matcher is sound and complete.**  `match` accepts a text if and only if the elements of
the pattern match at the start of the text, when the pattern has a leading `^`, or of a suffix of
it. -/
theorem match_iff (re text : List UInt8) : «match» re text = true ↔ match re with
    | 94 :: re => MatchesAt (elems re) text
    | re => ∃ u v, text = u ++ v ∧ MatchesAt (elems re) v := by
  unfold «match»
  split
  · exact matchhere_iff
  · simp [matchAnywhere_eq, matchstar_iff, matchhere_iff, fits]

/-! ## The buffer -/

/-- `strchr(s, c)`, as the bytes before the first `c` and those behind it. -/
def strchr (c : UInt8) : List UInt8 → Option (List UInt8 × List UInt8)
  | [] => none
  | a :: s =>
    if a = 0 then none
    else if a = c then some ([], s)
    else (strchr c s).map fun r => (a :: r.1, r.2)

lemma strchr_length {s : List UInt8} {r : List UInt8 × List UInt8} (h : strchr c s = some r) :
    r.2.length < s.length := by
  induction s generalizing r with
  | nil => cases h
  | cons a s ih =>
    rw [strchr] at h
    split_ifs at h
    · cases h
      exact Nat.lt_succ_self _
    · obtain ⟨r, hr, rfl⟩ := Option.map_eq_some_iff.mp h
      exact (ih hr).trans (Nat.lt_succ_self _)

/-- The inner loop, from `p`: what it writes, and the bytes behind the last newline. -/
def scan (pattern p : List UInt8) : List (List UInt8) × List UInt8 :=
  match h : strchr 10 p with
  | none => ([], p)
  | some (line, rest) =>
    let r := scan pattern rest
    (if «match» pattern line then (line ++ [10]) :: r.1 else r.1, r.2)
termination_by p.length
decreasing_by exact strchr_length h

/-- What `read(fd, buf + m, sizeof(buf) - m - 1)` returns, with `m` bytes in the buffer: `split`
says how many bytes arrive at most, by the length of the input still to come, which no two reads
share. -/
def read (split : ℕ → ℕ) (m : ℕ) (input : List UInt8) : ℕ :=
  min (max 1 (split input.length)) (min (1024 - m - 1) input.length)

/-- What `grep` writes, when the buffer holds `kept`. -/
def grep (pattern : List UInt8) (split : ℕ → ℕ) (kept input : List UInt8) : List (List UInt8) :=
  if 0 < read split kept.length input then
    match scan pattern (kept ++ input.take (read split kept.length input)) with
    | (out, rest) => out ++ grep pattern split rest (input.drop (read split kept.length input))
  else []
termination_by input.length
decreasing_by grind [read]

/-- Lines, each with its newline. -/
def unlines (ls : List (List UInt8)) : List UInt8 := ls.flatMap (· ++ [10])

/-- The line fits into the buffer with its newline. -/
def short (l : List UInt8) : Bool := l.length + 1 ≤ 1023

/-- The lines that `match` accepts. -/
def accepted (pattern : List UInt8) (ls : List (List UInt8)) : List (List UInt8) :=
  (ls.filter («match» pattern)).map (· ++ [10])

/-- Lines without newline and NUL. -/
def Lines (ls : List (List UInt8)) : Prop := ∀ l ∈ ls, 10 ∉ l ∧ 0 ∉ l

variable {l kept buf input pattern : List UInt8} {ls : List (List UInt8)} {split : ℕ → ℕ}

lemma strchr_newline (h : 10 ∉ l) (h0 : 0 ∉ l) : strchr 10 (l ++ 10 :: buf) = some (l, buf) := by
  induction l with
  | nil => rfl
  | cons a l ih =>
    simp only [mem_cons, not_or] at h h0
    simp [strchr, ih h.2 h0.2, Ne.symm h.1, Ne.symm h0.1]

lemma strchr_none (h : 10 ∉ l) : strchr 10 l = none := by
  induction l with
  | nil => rfl
  | cons a l ih =>
    simp only [mem_cons, not_or] at h
    simp [strchr, ih h.2, Ne.symm h.1]

/-- A piece of the lines ends inside the first of them, or behind its newline. -/
lemma unlines_split (h : buf ++ input = unlines (l :: ls)) :
    (∃ t, l = buf ++ t) ∨ ∃ t, buf = l ++ 10 :: t ∧ t ++ input = unlines ls := by
  rw [unlines, flatMap_cons, append_assoc] at h
  rcases append_eq_append_iff.mp h with ⟨t, ht, -⟩ | ⟨t, ht, ht'⟩
  · exact .inl ⟨t, ht⟩
  · cases t with
    | nil => exact .inl ⟨[], by simp [ht]⟩
    | cons a t =>
      obtain ⟨rfl, htail⟩ := cons_eq_cons.mp ht'
      exact .inr ⟨t, ht, htail.symm⟩

-- By induction on the lines: the loop takes the first one when its newline is in the buffer.
lemma scan_spec (hls : Lines ls) (h : buf ++ input = unlines ls) : ∃ done left rest,
    ls = done ++ left ∧ scan pattern buf = (accepted pattern done, rest) ∧
    buf = unlines done ++ rest ∧ rest ++ input = unlines left ∧ 10 ∉ rest := by
  induction ls generalizing buf with
  | nil =>
    obtain ⟨rfl, rfl⟩ := append_eq_nil_iff.mp h
    exact ⟨[], [], [], rfl, by rw [scan]; rfl, rfl, rfl, not_mem_nil⟩
  | cons l ls ih =>
    obtain ⟨hl, hl0⟩ := hls l mem_cons_self
    rcases unlines_split h with ⟨t, rfl⟩ | ⟨t, rfl, ht⟩
    · have hbuf : 10 ∉ buf := fun hm => hl (mem_append_left _ hm)
      refine ⟨[], _, buf, rfl, ?_, rfl, h, hbuf⟩
      rw [scan, strchr_none hbuf]
      rfl
    · obtain ⟨done, left, rest, rfl, hscan, rfl, hleft, hrest⟩ :=
        ih (fun l hl => hls l (mem_cons_of_mem _ hl)) ht
      refine ⟨l :: done, left, rest, rfl, ?_, by simp [unlines], hleft, hrest⟩
      rw [scan, strchr_newline hl hl0]
      simp only [hscan, accepted, filter_cons]
      split <;> rfl

lemma short_of_unlines (h : (unlines ls).length ≤ 1023) : ∀ l ∈ ls, short l := by
  intro l hl
  have hle : (l ++ [10]).length ≤ (unlines ls).length :=
    (sublist_flatten_of_mem (mem_map_of_mem (f := (· ++ [10])) hl)).length_le
  simpa [short] using hle.trans h

lemma accepted_append (ls ls' : List (List UInt8)) :
    accepted pattern (ls ++ ls') = accepted pattern ls ++ accepted pattern ls' := by
  simp [accepted]

-- Each round finishes some of the lines; one that is not short is never finished.
lemma grep_eq (hls : Lines ls) (h : kept ++ input = unlines ls) (hk : 10 ∉ kept)
    (hlen : kept.length ≤ 1023) :
    grep pattern split kept input = accepted pattern (ls.takeWhile short) := by
  fun_induction grep pattern split kept input generalizing ls with
  | case1 kept input hn out rest hscan ih =>
    generalize hm : read split kept.length input = n at *
    have hcat : (kept ++ input.take n) ++ input.drop n = unlines ls := by
      rw [append_assoc, take_append_drop, h]
    obtain ⟨done, left, rest, rfl, hscan', hbuf, hleft, hrest⟩ := scan_spec hls hcat
    cases hscan.symm.trans hscan'
    have hfit : (kept ++ input.take n).length ≤ 1023 := by
      simp only [← hm, read, length_append, length_take]
      omega
    rw [hbuf, length_append] at hfit
    rw [ih (fun l hl => hls l (mem_append_right _ hl)) hleft hrest (by omega),
      takeWhile_append_of_pos (short_of_unlines (by omega)), accepted_append]
  | case2 kept input hn =>
    cases ls with
    | nil => rfl
    | cons l ls =>
      rcases unlines_split h with ⟨t, rfl⟩ | ⟨t, rfl, -⟩
      · -- There is input left, so the buffer is full.
        have hin := congrArg length h
        have hlong : ¬ short (kept ++ t) := by
          simp only [unlines, flatMap_cons, length_append, length_cons] at hin
          simp only [read] at hn
          simp only [short, length_append, decide_eq_true_eq]
          omega
        rw [takeWhile_cons_of_neg hlong]
        rfl
      · exact absurd (by simp) hk

/-- **When `grep` writes the lines that match.**  For input lines `ls` in any pieces, `grep` writes
the lines that `match` accepts, once each and in order, if and only if it accepts none from the
first line on that does not fit into the buffer with its newline. -/
theorem grep_writes_iff {ls : List (List UInt8)} (hls : Lines ls) (pattern : List UInt8)
    (split : ℕ → ℕ) : grep pattern split [] (unlines ls) = accepted pattern ls ↔
      ∀ l ∈ ls.dropWhile short, «match» pattern l = false := by
  have hcut : accepted pattern ls = accepted pattern (ls.takeWhile short) ++
      accepted pattern (ls.dropWhile short) := by
    rw [← accepted_append, takeWhile_append_dropWhile]
  rw [grep_eq hls (nil_append _) not_mem_nil (Nat.zero_le _), hcut, self_eq_append_right, accepted,
    map_eq_nil_iff, filter_eq_nil_iff]
  simp

theorem grep_writes_iff_short : grep [97] (fun _ => 1) [] [97, 10, 98, 10] = [[97, 10]] := by
  have hls : Lines [[97], [98]] := by unfold Lines; decide
  exact (grep_writes_iff hls [97] _).mpr (by decide)

/-- A line of 1023 bytes is accepted by the empty pattern and is not written. -/
theorem grep_long_line : Lines [replicate 1023 97] ∧
    grep [] (fun _ => 1) [] (unlines [replicate 1023 97]) = [] ∧
    accepted [] [replicate 1023 97] = [replicate 1023 97 ++ [10]] := by
  have hls : Lines [replicate 1023 97] := by
    intro l hl
    rw [mem_singleton.mp hl, mem_replicate, mem_replicate]
    decide
  have hlong : ¬ short (replicate 1023 97) := by
    rw [short, length_replicate]
    decide
  refine ⟨hls, ?_, rfl⟩
  rw [grep_eq hls (nil_append _) not_mem_nil (Nat.zero_le _), takeWhile_cons_of_neg hlong]
  rfl

end Xv6.Grep
