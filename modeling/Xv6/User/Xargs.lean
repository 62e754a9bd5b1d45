import Xv6.User.Grep

/-!
# `xargs`

The loop of user/xargs.c, which keeps the current line in `buf`. What it does is the list of the
argument vectors it forks and calls `exec` with, and how it ends.
-/

namespace Xv6.Xargs

open List Grep

/-- How `xargs` exits. -/
inductive Exit where
  | ok
  | missingCommand
  | readError
  | lineTooLong
  deriving DecidableEq

variable (args : List (List UInt8)) (fails : Bool)

/-- The fixed arguments, then `buf` up to its first NUL. -/
def runLine (buf : List UInt8) : List (List (List UInt8)) :=
  if 0 < buf.length then [args ++ [buf.takeWhile (· ≠ 0)]] else []

/-- After the bytes of the input `read` returns 0, or -1 if `fails`. -/
def loop (buf : List UInt8) : List UInt8 → List (List (List UInt8)) × Exit
  | [] => if fails then ([], .readError) else (runLine args buf, .ok)
  | c :: input =>
    if c = 10 then (loop [] input).map (runLine args buf ++ ·) id
    else if buf.length < 511 then loop (buf ++ [c]) input
    else ([], .lineTooLong)

def main (argv : List (List UInt8)) (input : List UInt8) : List (List (List UInt8)) × Exit :=
  if argv.length < 2 then ([], .missingCommand) else loop argv.tail fails [] input

variable {args fails} {ls argv : List (List UInt8)} {buf l input : List UInt8}

lemma loop_line (h : 10 ∉ l) (hb : buf.length ≤ 511) : loop args fails buf (l ++ input) =
    if buf.length + l.length ≤ 511 then loop args fails (buf ++ l) input
    else ([], .lineTooLong) := by
  induction l generalizing buf with
  | nil => simp [hb]
  | cons c l ih =>
    rw [mem_cons, not_or] at h
    rw [cons_append, loop, if_neg (Ne.symm h.1), length_cons]
    split_ifs with hfit hall hall
    · rw [ih h.2 (by simpa using hfit), if_pos (by simp; omega), append_assoc, singleton_append]
    · rw [ih h.2 (by simpa using hfit), if_neg (by simp; omega)]
    · omega
    · rfl

lemma loop_unlines (h : ∀ l ∈ ls, 10 ∉ l ∧ l.length ≤ 511) :
    loop args fails [] (unlines ls ++ input) =
      (loop args fails [] input).map (ls.flatMap (runLine args) ++ ·) id := by
  induction ls with
  | nil => rfl
  | cons l ls ih =>
    obtain ⟨⟨hl, hlen⟩, hls⟩ := forall_mem_cons.mp h
    have hsplit : unlines (l :: ls) ++ input = l ++ 10 :: (unlines ls ++ input) := by simp [unlines]
    rw [hsplit, loop_line hl (by simp), if_pos (by simpa using hlen), loop, if_pos rfl, ih hls]
    simp [Prod.map]

/-- **`xargs` runs the command once for each line that is not empty**, in their order, and so for a
last line without a newline unless `read` fails there. A line of more than 511 bytes ends the
program after the lines before it, whatever follows. -/
theorem xargs_lines (hargv : 2 ≤ argv.length) (hls : ∀ l ∈ ls, 10 ∉ l ∧ l.length ≤ 511)
    (hl : 10 ∉ l) :
    (l.length ≤ 511 → main fails argv (unlines ls ++ l) =
      if fails then (ls.flatMap (runLine argv.tail), .readError)
      else ((ls ++ [l]).flatMap (runLine argv.tail), .ok)) ∧
    (511 < l.length → main fails argv (unlines ls ++ (l ++ input)) =
      (ls.flatMap (runLine argv.tail), .lineTooLong)) := by
  have hmain : ∀ text, main fails argv text = loop argv.tail fails [] text :=
    fun text => if_neg (by omega)
  rw [hmain, hmain, loop_unlines hls, loop_unlines hls]
  constructor
  · intro hlen
    have hend : loop argv.tail fails [] (l ++ []) = _ := loop_line hl (by simp)
    rw [append_nil, if_pos (by simpa using hlen), loop] at hend
    rw [hend]
    split_ifs <;> simp
  · intro hlen
    rw [loop_line hl (by simp), if_neg (by simpa using hlen)]
    simp

theorem xargs_lines_echo :
    main false [[120], [101]] [97, 10, 10, 98] = ([[[101], [97]], [[101], [98]]], .ok) :=
  (@xargs_lines false [[97], []] _ [98] [] (by decide) (by decide) (by decide)).1 (by decide)

end Xv6.Xargs
