import Xv6.Param
import Xv6.Lib.Prog

/-!
# The parser of the shell

`gettoken`, `peek` and the recursive descent of `sh.c`, over a line that is a list of bytes without
NUL. A pointer into the line is the rest of the line from there: `es` is the empty list, and `*es`
is the NUL. The cursor `*ps` is the state of the parser, and panics are its errors. The functions
call each other without a bound in the source, so they get fuel; running out of it is an error of
its own, and so is an index outside of `argv`.

`tokens` says what the tokens of a line are, without a cursor. The lemmas at the end of the module
connect the two: `peek` looks at the first token, and `gettoken` removes it.
-/

namespace Xv6.Sh

open Prog List

abbrev MAXARGS : ℕ := 10

/-- `" \t\r\n\v"`. -/
def whitespace : List UInt8 := [32, 9, 13, 10, 11]

/-- `"<|>&;()"`. -/
def symbols : List UInt8 := [60, 124, 62, 38, 59, 40, 41]

abbrev Ptr := List UInt8

/-- `q` and `eq` of a word. -/
abbrev Span := Ptr × Ptr

/-- The commands; `α` is how words are given. -/
inductive Cmd (α : Type) where
  | exec (argv : List α)
  | redir (cmd : Cmd α) (file : α) (mode fd : ℕ)
  | pipe (left right : Cmd α)
  | list (left right : Cmd α)
  | back (cmd : Cmd α)

/-- How the parser can fail. -/
inductive ShError where
  | missingFile
  | syntaxError
  | parseblock
  | missingParen
  | tooManyArgs
  | leftovers
  | argvBounds
  | fuel
  deriving DecidableEq

abbrev ShProg (α : Type) := Prog Ptr ShError α

abbrev O_RDONLY : ℕ := 0x000
abbrev O_WRONLY : ℕ := 0x001
abbrev O_CREATE : ℕ := 0x200
abbrev O_TRUNC : ℕ := 0x400

/-! ## Tokens -/

/-- `while(s < es && strchr(whitespace, *s)) s++`. -/
def skip (s : Ptr) : Ptr := s.dropWhile (· ∈ whitespace)

def isWord (c : UInt8) : Bool := c ∉ whitespace ∧ c ∉ symbols

/-- The `switch` of `gettoken`: `ret`, and `s` behind the token. -/
def scan : Ptr → UInt8 × Ptr
  | [] => (0, [])
  | c :: s =>
    if c = 0 then (0, c :: s)
    else if c ∈ [124, 40, 41, 59, 38, 60] then (c, s)
    else if c = 62 then if s.headD 0 = 62 then (43, s.tail) else (62, s)
    else (97, (c :: s).dropWhile isWord)

/-- What `gettoken` returns and stores. -/
structure Token where
  ret : UInt8
  q : Ptr
  eq : Ptr

def gettoken : ShProg Token := do
  let ps ← get
  set (skip (scan (skip ps)).2)
  return ⟨(scan (skip ps)).1, skip ps, (scan (skip ps)).2⟩

def peek (toks : List UInt8) : ShProg Bool := do
  let ps ← get
  set (skip ps)
  return (skip ps).headD 0 ≠ 0 ∧ (skip ps).headD 0 ∈ toks

/-! ## Commands -/

/-- The `switch` of `parseredirs`. -/
def redircmd (tok : UInt8) (cmd : Cmd Span) (file : Span) : Cmd Span :=
  if tok = 60 then .redir cmd file O_RDONLY 0
  else if tok = 62 then .redir cmd file (O_WRONLY ||| O_CREATE ||| O_TRUNC) 1
  else if tok = 43 then .redir cmd file (O_WRONLY ||| O_CREATE) 1
  else cmd

def parseredirs : ℕ → Cmd Span → ShProg (Cmd Span)
  | 0, _ => throw .fuel
  | fuel + 1, cmd => do
      if ← peek [60, 62] then
        let tok ← gettoken
        let file ← gettoken
        if file.ret ≠ 97 then throw .missingFile
        else parseredirs fuel (redircmd tok.ret cmd (file.q, file.eq))
      else return cmd

/-- `cmd->argv[argc] = q`: `cmd` is the `EXEC` node at the bottom of `ret`. -/
def addArg (a : Span) : Cmd Span → Cmd Span
  | .exec argv => .exec (argv ++ [a])
  | .redir cmd file mode fd => .redir (addArg a cmd) file mode fd
  | cmd => cmd

/-- `cmd->argv[argc] = 0`. -/
def endArgs (ret : Cmd Span) (argc : ℕ) : ShProg (Cmd Span) :=
  if argc < MAXARGS then return ret else throw .argvBounds

/-- The loop of `parseexec`. -/
def parseargs : ℕ → Cmd Span → ℕ → ShProg (Cmd Span)
  | 0, _, _ => throw .fuel
  | fuel + 1, ret, argc => do
      if ← peek [124, 41, 38, 59] then endArgs ret argc
      else
        let tok ← gettoken
        if tok.ret = 0 then endArgs ret argc
        else if tok.ret ≠ 97 then throw .syntaxError
        else if ¬ argc < MAXARGS then throw .argvBounds
        else if argc + 1 ≥ MAXARGS then throw .tooManyArgs
        else
          let ret ← parseredirs fuel (addArg (tok.q, tok.eq) ret)
          parseargs fuel ret (argc + 1)

/-- The first loop of `parseline`. -/
def parseback : ℕ → Cmd Span → ShProg (Cmd Span)
  | 0, _ => throw .fuel
  | fuel + 1, cmd => do
      if ← peek [38] then
        let _ ← gettoken
        parseback fuel (.back cmd)
      else return cmd

mutual

def parseline : ℕ → ShProg (Cmd Span)
  | 0 => throw .fuel
  | fuel + 1 => do
      let cmd ← parsepipe fuel
      let cmd ← parseback fuel cmd
      if ← peek [59] then
        let _ ← gettoken
        let right ← parseline fuel
        return .list cmd right
      else return cmd

def parsepipe : ℕ → ShProg (Cmd Span)
  | 0 => throw .fuel
  | fuel + 1 => do
      let cmd ← parseexec fuel
      if ← peek [124] then
        let _ ← gettoken
        let right ← parsepipe fuel
        return .pipe cmd right
      else return cmd

def parseexec : ℕ → ShProg (Cmd Span)
  | 0 => throw .fuel
  | fuel + 1 => do
      if ← peek [40] then parseblock fuel
      else
        let ret ← parseredirs fuel (.exec [])
        parseargs fuel ret 0

def parseblock : ℕ → ShProg (Cmd Span)
  | 0 => throw .fuel
  | fuel + 1 => do
      if ← peek [40] then
        let _ ← gettoken
        let cmd ← parseline fuel
        if ← peek [41] then
          let _ ← gettoken
          parseredirs fuel cmd
        else throw .missingParen
      else throw .parseblock

end

/-- `*p = 0` in the line `buf`; the NUL at `es` is there already. -/
def endAt (buf : List UInt8) (p : Ptr) : List UInt8 := buf.set (buf.length - p.length) 0

def nulterminate : Cmd Span → List UInt8 → List UInt8
  | .exec argv, buf => argv.foldl (fun buf a => endAt buf a.2) buf
  | .redir cmd file _ _, buf => endAt (nulterminate cmd buf) file.2
  | .pipe left right, buf => nulterminate right (nulterminate left buf)
  | .list left right, buf => nulterminate right (nulterminate left buf)
  | .back cmd, buf => nulterminate cmd buf

/-- The command, and the line with its words terminated. -/
def parsecmd (s : List UInt8) : Except ShError (Cmd Span × List UInt8) := do
  let (cmd, ps) ← parseline (4 * s.length + 4) s
  if skip ps ≠ [] then throw .leftovers
  else return (cmd, nulterminate cmd s)

/-! ## What the tokens of a line are -/

/-- The tokens. -/
inductive Tok where
  | bar
  | lpar
  | rpar
  | semi
  | amp
  | lt
  | gt
  | append
  | word (w : List UInt8)
  deriving DecidableEq

/-- The token of a character, apart from `>`. -/
def symbol (c : UInt8) : Option Tok :=
  if c = 124 then some .bar else if c = 40 then some .lpar else if c = 41 then some .rpar
  else if c = 59 then some .semi else if c = 38 then some .amp else if c = 60 then some .lt
  else none

/-- Words are maximal runs of characters that are neither white space nor symbols, and `>>` is one
token. -/
def tokens : List UInt8 → List Tok
  | [] => []
  | c :: l =>
    if c ∈ whitespace then tokens l
    else if c = 62 then
      if l.headD 0 = 62 then .append :: tokens l.tail else .gt :: tokens l
    else match symbol c with
      | some t => t :: tokens l
      | none => .word (c :: l.takeWhile isWord) :: tokens (l.dropWhile isWord)
termination_by l => l.length
decreasing_by
  · exact Nat.lt_succ_self _
  · exact Nat.lt_succ_of_le (by rw [length_tail]; exact Nat.sub_le _ _)
  · exact Nat.lt_succ_self _
  · exact Nat.lt_succ_self _
  · exact Nat.lt_succ_of_le (dropWhile_sublist _).length_le

namespace Tok

/-- What `gettoken` returns for a token. -/
def code : Tok → UInt8
  | bar => 124
  | lpar => 40
  | rpar => 41
  | semi => 59
  | amp => 38
  | lt => 60
  | gt => 62
  | append => 43
  | word _ => 97

/-- The first character of a symbol; no symbol starts a word. -/
def first : Tok → UInt8
  | append => 62
  | word _ => 0
  | t => t.code

end Tok

/-- The text of a word. -/
def text (x : Span) : List UInt8 := x.1.take (x.1.length - x.2.length)

variable {l s : Ptr} {ts : List Tok}

lemma tokens_nil : tokens [] = [] := by rw [tokens]

lemma tokens_skip (l : Ptr) : tokens (skip l) = tokens l := by
  induction l with
  | nil => rfl
  | cons c l ih =>
    rw [skip, dropWhile_cons]
    split_ifs with hc
    · rw [tokens.eq_2, if_pos (by simpa using hc)]
      exact ih
    · rfl

lemma text_word (q : Ptr) : text (q, q.dropWhile isWord) = q.takeWhile isWord := by
  have happ : q.takeWhile isWord ++ q.dropWhile isWord = q := takeWhile_append_dropWhile
  have hlen := congrArg length happ
  rw [length_append] at hlen
  have htake : q.length - (q.dropWhile isWord).length = (q.takeWhile isWord).length := by omega
  calc q.take (q.length - (q.dropWhile isWord).length)
      = (q.takeWhile isWord ++ q.dropWhile isWord).take (q.takeWhile isWord).length := by
        rw [htake, happ]
    _ = q.takeWhile isWord := take_left

/-- The token `t` at the cursor, as `scan` sees it. -/
structure Lexed (l : Ptr) (t : Tok) (ts : List Tok) : Prop where
  ret : (scan (skip l)).1 = t.code
  rest : tokens (skip (scan (skip l)).2) = ts
  suffix : (scan (skip l)).2 <:+ skip l
  lt : (scan (skip l)).2.length < (skip l).length
  head : ∀ c ∈ symbols, (skip l).headD 0 = c ↔ t.first = c
  word : ∀ w, t = .word w → w = text (skip l, (scan (skip l)).2) ∧
    (scan (skip l)).2 = (skip l).dropWhile isWord

lemma skip_cons {c : UInt8} (h : skip l = c :: s) : c ∉ whitespace := fun hc => by
  have hne : skip l ≠ [] := by rw [h]; exact cons_ne_nil _ _
  have hhead := head_dropWhile_not (fun c => decide (c ∈ whitespace)) hne
  have hget : (skip l).head hne = c := by simp [h]
  rw [show (l.dropWhile fun c => decide (c ∈ whitespace)).head hne = c from hget] at hhead
  simp [hc] at hhead

lemma skip_suffix (l : Ptr) : skip l <:+ l := dropWhile_suffix _

lemma lex_nil (h : tokens l = []) : skip l = [] := by
  cases hs : skip l with
  | nil => rfl
  | cons c s =>
    rw [← tokens_skip, hs, tokens.eq_2, if_neg (skip_cons hs)] at h
    split_ifs at h
    split at h <;> simp at h

lemma lex_cons {t : Tok} (h0 : 0 ∉ l) (h : tokens l = t :: ts) : Lexed l t ts := by
  rw [← tokens_skip] at h
  cases hs : skip l with
  | nil =>
    rw [hs] at h
    simp [tokens] at h
  | cons c s =>
    have hws := skip_cons hs
    have hc0 : c ≠ 0 := fun hc => h0 ((skip_suffix l).subset (by rw [hs, hc]; simp))
    rw [hs, tokens.eq_2, if_neg hws] at h
    by_cases hgt : c = 62
    · subst hgt
      rw [if_pos rfl] at h
      by_cases hgt : s.headD 0 = 62
      · rw [if_pos hgt] at h
        obtain ⟨rfl, rfl⟩ := cons.inj h
        have hscan : scan (skip l) = (43, s.tail) := by
          rw [hs, scan, if_neg (by decide), if_neg (by decide), if_pos rfl, if_pos hgt]
        refine ⟨by rw [hscan]; rfl, by rw [hscan, tokens_skip], ?_, ?_, fun c _ => ?_,
          fun w hw => (by cases hw)⟩
        · rw [hscan, hs]
          exact (tail_suffix s).trans (suffix_cons _ _)
        · rw [hscan, hs, length_tail, length_cons]
          omega
        · rw [hs]
          rfl
      · rw [if_neg hgt] at h
        obtain ⟨rfl, rfl⟩ := cons.inj h
        have hscan : scan (skip l) = (62, s) := by
          rw [hs, scan, if_neg (by decide), if_neg (by decide), if_pos rfl, if_neg hgt]
        refine ⟨by rw [hscan]; rfl, by rw [hscan, tokens_skip], ?_, ?_, fun c _ => ?_,
          fun w hw => (by cases hw)⟩
        · rw [hscan, hs]
          exact suffix_cons _ _
        · rw [hscan, hs, length_cons]
          exact Nat.lt_succ_self _
        · rw [hs]
          rfl
    · rw [if_neg hgt] at h
      by_cases hmem : c ∈ [124, 40, 41, 59, 38, 60]
      · have hscan : scan (skip l) = (c, s) := by
          rw [hs, scan, if_neg hc0, if_pos hmem]
        obtain ⟨t', ht', hcode, hfirst, hword⟩ : ∃ t', symbol c = some t' ∧ c = t'.code ∧
            t'.first = t'.code ∧ ∀ w, t' ≠ .word w := by
          simp only [mem_cons, not_mem_nil, or_false] at hmem
          rcases hmem with rfl | rfl | rfl | rfl | rfl | rfl
          · exact ⟨.bar, rfl, rfl, rfl, fun _ => Tok.noConfusion⟩
          · exact ⟨.lpar, rfl, rfl, rfl, fun _ => Tok.noConfusion⟩
          · exact ⟨.rpar, rfl, rfl, rfl, fun _ => Tok.noConfusion⟩
          · exact ⟨.semi, rfl, rfl, rfl, fun _ => Tok.noConfusion⟩
          · exact ⟨.amp, rfl, rfl, rfl, fun _ => Tok.noConfusion⟩
          · exact ⟨.lt, rfl, rfl, rfl, fun _ => Tok.noConfusion⟩
        rw [ht'] at h
        obtain ⟨rfl, rfl⟩ := cons.inj h
        refine ⟨by rw [hscan]; exact hcode, by rw [hscan, tokens_skip], ?_, ?_, fun d _ => ?_,
          fun w hw => absurd hw (hword w)⟩
        · rw [hscan, hs]
          exact suffix_cons _ _
        · rw [hscan, hs, length_cons]
          exact Nat.lt_succ_self _
        · rw [hs, headD_cons, hfirst, ← hcode]
      · have hsym : symbol c = none := by
          simp only [mem_cons, not_mem_nil, or_false, not_or] at hmem
          simp [symbol, hmem]
        have hword : isWord c = true := by
          simp only [isWord, symbols, mem_cons, not_mem_nil, or_false, not_or] at hmem ⊢
          simp [hws, hmem, hgt]
        have hdrop : (c :: s).dropWhile isWord = s.dropWhile isWord := by
          rw [dropWhile_cons_of_pos hword]
        have hscan : scan (skip l) = (97, (skip l).dropWhile isWord) := by
          rw [hs, scan, if_neg hc0, if_neg hmem, if_neg hgt]
        rw [hsym] at h
        obtain ⟨rfl, rfl⟩ := cons.inj h
        refine ⟨by rw [hscan]; rfl, ?_, ?_, ?_, fun d hd => ?_, fun w hw => ?_⟩
        · rw [hscan, tokens_skip, hs, hdrop]
        · rw [hscan]
          exact dropWhile_suffix _
        · rw [hscan, hs, hdrop, length_cons]
          exact Nat.lt_succ_of_le (dropWhile_sublist _).length_le
        · rw [hs, headD_cons]
          refine ⟨fun hcd => ?_, fun h0d => ?_⟩
          · rw [hcd] at hword
            simp [isWord, hd] at hword
          · rw [← h0d] at hd
            exact absurd (show (0 : UInt8) ∈ symbols from hd) (by decide)
        · obtain rfl := Tok.word.inj hw
          refine ⟨?_, by rw [hscan]⟩
          rw [hscan, text_word, hs, takeWhile_cons_of_pos hword]

/-! ## `peek` and `gettoken` on tokens -/

/-- The first token satisfies `p`. -/
def Starts (p : Tok → Prop) (ts : List Tok) : Prop := ∃ t ∈ ts.head?, p t

lemma peek_run {toks : List UInt8} (h0 : 0 ∉ l) (htoks : toks ⊆ symbols) :
    ∃ b, peek toks l = .ok (b, skip l) ∧ (b = true ↔ Starts (·.first ∈ toks) (tokens l)) := by
  refine ⟨_, rfl, ?_⟩
  have h0' : (0 : UInt8) ∉ toks := fun h => absurd (htoks h) (by decide)
  cases ht : tokens l with
  | nil =>
    rw [lex_nil ht]
    simp [Starts]
  | cons t ts =>
    have hlex := lex_cons h0 ht
    have hiff : (skip l).headD 0 ∈ toks ↔ t.first ∈ toks := by
      refine ⟨fun hm => ?_, fun hm => ?_⟩
      · rwa [← (hlex.head _ (htoks hm)).mp rfl] at hm
      · rwa [← (hlex.head _ (htoks hm)).mpr rfl] at hm
    simp only [Starts, head?_cons, Option.mem_def, Option.some.injEq, exists_eq_left', hiff,
      decide_eq_true_eq]
    refine ⟨fun h => h.2, fun hm => ⟨fun hz => ?_, hm⟩⟩
    exact h0' (hz ▸ hiff.mpr hm)

lemma gettoken_nil (h : tokens l = []) : gettoken l = .ok (⟨0, [], []⟩, []) := by
  show Except.ok (_, _) = _
  rw [lex_nil h]
  rfl

/-- What `gettoken` returns when there is a token. -/
structure Got (s l : Ptr) (t : Tok) (ts : List Tok) (g : Token) (l' : Ptr) : Prop where
  ret : g.ret = t.code
  rest : tokens l' = ts
  suffix : l' <:+ l
  lt : l'.length < l.length
  word : ∀ w, t = .word w → text (g.q, g.eq) = w ∧ g.q <:+ s ∧ g.eq = g.q.dropWhile isWord

lemma gettoken_cons {t : Tok} (h0 : 0 ∉ s) (hl : l <:+ s)
    (h : tokens l = t :: ts) : ∃ g l', gettoken l = .ok (g, l') ∧ Got s l t ts g l' := by
  have hlex := lex_cons (fun hm => h0 (hl.subset hm)) h
  have hsuf : skip (scan (skip l)).2 <:+ skip l := (skip_suffix _).trans hlex.suffix
  refine ⟨_, _, rfl, hlex.ret, hlex.rest, hsuf.trans (skip_suffix l), ?_, fun w hw => ?_⟩
  · have h1 := (skip_suffix (scan (skip l)).2).length_le
    have h2 := (skip_suffix l).length_le
    have h3 := hlex.lt
    omega
  · obtain ⟨rfl, heq⟩ := hlex.word w hw
    exact ⟨rfl, (skip_suffix l).trans hl, heq⟩

end Xv6.Sh
