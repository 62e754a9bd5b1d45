import Xv6.User.ShellParser

/-!
# The grammar of the shell

`Derives` is the grammar, with the command of each derivation. `parse_sound` proves that a parser
function which returns has consumed a derivation, and that with fuel for the rest of the line it
ends in the panics of the source only. `parse_complete` proves that a parser function finds the
derivation of the tokens in front of it, if they are followed by a token that can follow it.

The words of the returned command are pointers into the line. `nulterminate` writes behind each
word, where no other word can be, so the strings that the pointers then show are the words.
**`parsecmd_accepts_grammar`** puts these together.
-/

namespace Xv6.Sh

open Prog List
open List (append_assoc mem_cons append_nil not_mem_nil cons_append suffix_refl)

variable {α β : Type}

/-! ## Commands and derivations -/

/-- The redirections. -/
inductive RedirOp where
  | input
  | output
  | append

namespace RedirOp

def tok : RedirOp → Tok
  | input => .lt
  | output => .gt
  | append => .append

def mode : RedirOp → ℕ
  | input => O_RDONLY
  | output => O_WRONLY ||| O_CREATE ||| O_TRUNC
  | append => O_WRONLY ||| O_CREATE

def fd : RedirOp → ℕ
  | input => 0
  | _ => 1

end RedirOp

abbrev Redirs (α : Type) := List (RedirOp × α)

/-- Words, each with the redirections behind it. -/
abbrev Args (α : Type) := List (α × Redirs α)

/-- Redirections around a command, the first one inside. -/
def wrap (rs : Redirs α) (c : Cmd α) : Cmd α := rs.foldl (fun c r => .redir c r.2 r.1.mode r.1.fd) c

def redirToks (rs : Redirs (List UInt8)) : List Tok := rs.flatMap fun r => [r.1.tok, .word r.2]

def argToks (args : Args (List UInt8)) : List Tok :=
  args.flatMap fun a => .word a.1 :: redirToks a.2

/-- The command of `redir* (word redir*)*`. -/
def execTree (rs : Redirs α) (args : Args α) : Cmd α :=
  wrap (rs ++ args.flatMap (·.2)) (.exec (args.map (·.1)))

/-- The nonterminals. -/
inductive NT where
  | line
  | pipe
  | cmd

/-- The grammar: `line ::= pipe '&'* [';' line]`, `pipe ::= cmd ['|' pipe]`,
`cmd ::= '(' line ')' redir* | redir* (word redir*)*`. -/
inductive Derives : NT → List Tok → Cmd (List UInt8) → Prop where
  | line {ts c} (n : ℕ) (hpipe : Derives .pipe ts c) :
      Derives .line (ts ++ replicate n .amp) (Cmd.back^[n] c)
  | seq {ts c ts' c'} (n : ℕ) (hpipe : Derives .pipe ts c) (hline : Derives .line ts' c') :
      Derives .line (ts ++ replicate n .amp ++ .semi :: ts') (.list (Cmd.back^[n] c) c')
  | single {ts c} (hcmd : Derives .cmd ts c) : Derives .pipe ts c
  | pipe {ts c ts' c'} (hcmd : Derives .cmd ts c) (hpipe : Derives .pipe ts' c') :
      Derives .pipe (ts ++ .bar :: ts') (.pipe c c')
  | block {ts c} (rs : Redirs (List UInt8)) (hline : Derives .line ts c) :
      Derives .cmd (.lpar :: (ts ++ .rpar :: redirToks rs)) (wrap rs c)
  | exec (rs : Redirs (List UInt8)) (args : Args (List UInt8)) (hargs : args.length < MAXARGS) :
      Derives .cmd (redirToks rs ++ argToks args) (execTree rs args)

/-- Words in another form. -/
def Cmd.map (f : α → β) : Cmd α → Cmd β
  | .exec argv => .exec (argv.map f)
  | .redir c file mode fd => .redir (c.map f) (f file) mode fd
  | .pipe left right => .pipe (left.map f) (right.map f)
  | .list left right => .list (left.map f) (right.map f)
  | .back c => .back (c.map f)

def Cmd.All (P : α → Prop) : Cmd α → Prop
  | .exec argv => ∀ a ∈ argv, P a
  | .redir c file _ _ => c.All P ∧ P file
  | .pipe left right => left.All P ∧ right.All P
  | .list left right => left.All P ∧ right.All P
  | .back c => c.All P

def mapRedirs (f : α → β) (rs : Redirs α) : Redirs β := rs.map fun r => (r.1, f r.2)

def mapArgs (f : α → β) (args : Args α) : Args β := args.map fun a => (f a.1, mapRedirs f a.2)

lemma wrap_append (rs rs' : Redirs α) (c : Cmd α) : wrap (rs ++ rs') c = wrap rs' (wrap rs c) :=
  foldl_append

lemma map_wrap (f : α → β) (rs : Redirs α) (c : Cmd α) :
    (wrap rs c).map f = wrap (mapRedirs f rs) (c.map f) := by
  induction rs generalizing c with
  | nil => rfl
  | cons r rs ih => exact ih _

lemma map_execTree (f : α → β) (rs : Redirs α) (args : Args α) :
    (execTree rs args).map f = execTree (mapRedirs f rs) (mapArgs f args) := by
  rw [execTree, map_wrap, execTree]
  congr 1
  · simp [mapRedirs, mapArgs, map_flatMap, flatMap_map]
  · simp [Cmd.map, mapArgs, Function.comp_def]

lemma map_back (f : α → β) (n : ℕ) (c : Cmd α) :
    (Cmd.back^[n] c).map f = Cmd.back^[n] (c.map f) := by
  induction n generalizing c with
  | zero => rfl
  | succ n ih => exact ih (.back c)

variable {P : α → Prop} {t : Tok} {ts rest : List Tok} {nt : NT}

lemma all_back (n : ℕ) {c : Cmd α} (h : c.All P) : (Cmd.back^[n] c).All P := by
  induction n generalizing c with
  | zero => exact h
  | succ n ih => exact ih (c := .back c) h

lemma all_wrap {rs : Redirs α} {c : Cmd α} (hc : c.All P) (hrs : ∀ r ∈ rs, P r.2) :
    (wrap rs c).All P := by
  induction rs generalizing c with
  | nil => exact hc
  | cons r rs ih =>
    exact ih (c := .redir c r.2 r.1.mode r.1.fd) ⟨hc, hrs r (mem_cons_self ..)⟩
      fun r' hr' => hrs r' (mem_cons_of_mem _ hr')

lemma execTree_snoc (rs rs' : Redirs α) (args : Args α) (a : α) :
    wrap rs' (wrap (rs ++ args.flatMap (·.2)) (.exec (args.map (·.1) ++ [a]))) =
      execTree rs (args ++ [(a, rs')]) := by
  rw [← wrap_append, execTree]
  simp [append_assoc]

lemma addArg_wrap (a : Span) (rs : Redirs Span) (argv : List Span) :
    addArg a (wrap rs (.exec argv)) = wrap rs (.exec (argv ++ [a])) := by
  induction rs using reverseRecOn with
  | nil => rfl
  | append_singleton rs r ih =>
    rw [wrap_append, wrap_append]
    show Cmd.redir (addArg a (wrap rs (.exec argv))) _ _ _ = _
    rw [ih]
    rfl

lemma redircmd_tok (op : RedirOp) (c : Cmd Span) (file : Span) :
    redircmd op.tok.code c file = .redir c file op.mode op.fd := by
  cases op <;> rfl

lemma isRedir (h : t.first ∈ [60, 62]) : ∃ op : RedirOp, t = op.tok := by
  cases t with
  | lt => exact ⟨.input, rfl⟩
  | gt => exact ⟨.output, rfl⟩
  | append => exact ⟨.append, rfl⟩
  | word w => exact absurd h (show (0 : UInt8) ∉ _ by decide)
  | _ => exact absurd h (by decide)

lemma isWord_of_code (h : t.code = 97) : ∃ w, t = .word w := by
  cases t with
  | word w => exact ⟨w, rfl⟩
  | _ => exact absurd h (by decide)

lemma code_ne_zero (t : Tok) : t.code ≠ 0 := by
  cases t with
  | word w => exact (by decide : (97 : UInt8) ≠ 0)
  | _ => decide

/-! ## Soundness -/

/-- The panics of the source. -/
def IsPanic (e : ShError) : Prop := e ≠ .fuel ∧ e ≠ .argvBounds

/-- A word of the line. -/
def WordOf (s : Ptr) (x : Span) : Prop := x.1 <:+ s ∧ x.2 = x.1.dropWhile isWord

variable {s l l' : Ptr} {c : Cmd Span} {p : Tok → Prop} {tree : Cmd (List UInt8)} {fuel : ℕ}
  {Q : α → Ptr → Prop} {f : Bool → ShProg α} {E : ShError → Prop} {toks : List UInt8}

lemma Starts.cons (h : Starts p ts) : ∃ t ts', ts = t :: ts' ∧ p t := by
  obtain ⟨t, ht, hp⟩ := h
  cases ts with
  | nil => cases ht
  | cons t' ts' =>
    obtain rfl : t' = t := by simpa using ht
    exact ⟨t', ts', rfl, hp⟩

lemma not_nul (h0 : 0 ∉ s) (hl : l <:+ s) : 0 ∉ l := fun hm => h0 (hl.subset hm)

lemma wp_peek (h0 : 0 ∉ l) (htoks : toks ⊆ symbols)
    (hyes : Starts (·.first ∈ toks) (tokens l) → wp (f true) (skip l) Q E)
    (hno : ¬ Starts (·.first ∈ toks) (tokens l) → wp (f false) (skip l) Q E) :
    wp (peek toks >>= f) l Q E := by
  obtain ⟨b, hrun, hb⟩ := peek_run h0 htoks
  rw [wp_bind]
  refine wp_of_ok hrun ?_
  cases b with
  | true => exact hyes (hb.mp rfl)
  | false => exact hno fun h => Bool.false_ne_true (hb.mpr h)

lemma parseredirs_sound (h0 : 0 ∉ s) (hl : l <:+ s) (hfuel : l.length < fuel) :
    wp (parseredirs fuel c) l
      (fun c' l' => ∃ rs, tokens l = redirToks (mapRedirs text rs) ++ tokens l' ∧
      c' = wrap rs c ∧ l' <:+ l ∧ ∀ r ∈ rs, WordOf s r.2) IsPanic := by
  induction fuel generalizing l c with
  | zero => omega
  | succ fuel ih =>
    rw [parseredirs]
    refine wp_peek (not_nul h0 hl) (by decide) (fun hyes => ?_) fun _ => ?_
    · obtain ⟨t, ts, hts, hfirst⟩ := hyes.cons
      obtain ⟨op, rfl⟩ := isRedir hfirst
      obtain ⟨g, l1, hrun1, h1⟩ := gettoken_cons h0 ((skip_suffix l).trans hl)
        ((tokens_skip l).trans hts)
      have hs1 := (h1.suffix.trans (skip_suffix l)).trans hl
      have hlen := (skip_suffix l).length_le
      rw [if_pos rfl, wp_bind]
      refine wp_of_ok hrun1 ?_
      rw [wp_bind]
      cases hts1 : ts with
      | nil =>
        refine wp_of_ok (gettoken_nil (h1.rest.trans hts1)) ?_
        rw [if_pos (by decide), wp_throw]
        exact ⟨by decide, by decide⟩
      | cons t' ts' =>
        obtain ⟨g', l2, hrun2, h2⟩ := gettoken_cons h0 hs1 (h1.rest.trans hts1)
        refine wp_of_ok hrun2 ?_
        rw [wp_ite]
        refine ⟨fun _ => wp_throw.mpr ⟨by decide, by decide⟩, fun hword => ?_⟩
        obtain ⟨w, rfl⟩ := isWord_of_code (h2.ret.symm.trans (not_not.mp hword))
        obtain ⟨htext, hspan⟩ := h2.word w rfl
        have h1lt := h1.lt
        have h2lt := h2.lt
        rw [h1.ret, redircmd_tok]
        refine (ih (h2.suffix.trans hs1) (by omega)).post ?_
        rintro c' l' ⟨rs, htoks, rfl, hsuf, hrs⟩
        refine ⟨(op, (g'.q, g'.eq)) :: rs, ?_, rfl,
          ((hsuf.trans h2.suffix).trans h1.suffix).trans (skip_suffix l), fun r hr => ?_⟩
        · rw [hts, hts1, ← h2.rest, htoks]
          simp [redirToks, mapRedirs, htext]
        · rcases mem_cons.mp hr with rfl | hr
          · exact hspan
          · exact hrs r hr
    · rw [if_neg Bool.false_ne_true, wp_pure]
      exact ⟨[], (tokens_skip l).symm, rfl, skip_suffix l, fun r hr => by cases hr⟩

/-- The loop of `parseexec`, with the words and redirections that it has found. -/
lemma parseargs_sound (h0 : 0 ∉ s) (hl : l <:+ s) (hfuel : l.length < fuel)
    {rs : Redirs Span} {args : Args Span} (hargs : args.length < MAXARGS) :
    wp (parseargs fuel (execTree rs args) args.length) l (fun c' l' => ∃ more : Args Span,
      tokens l = argToks (mapArgs text more) ++ tokens l' ∧ c' = execTree rs (args ++ more) ∧
      (args ++ more).length < MAXARGS ∧ l' <:+ l ∧
      ∀ a ∈ more, WordOf s a.1 ∧ ∀ r ∈ a.2, WordOf s r.2) IsPanic := by
  induction fuel generalizing l args with
  | zero => omega
  | succ fuel ih =>
    have hdone : ∀ {l0 : Ptr}, l0 <:+ l → tokens l0 = tokens l →
        wp (endArgs (execTree rs args) args.length) l0 (fun c' l' => ∃ more : Args Span,
          tokens l = argToks (mapArgs text more) ++ tokens l' ∧ c' = execTree rs (args ++ more) ∧
          (args ++ more).length < MAXARGS ∧ l' <:+ l ∧
          ∀ a ∈ more, WordOf s a.1 ∧ ∀ r ∈ a.2, WordOf s r.2) IsPanic := by
      intro l0 hsuf htoks
      rw [endArgs, if_pos hargs, wp_pure]
      exact ⟨[], htoks.symm, by rw [append_nil], by rwa [append_nil], hsuf, fun a ha => by cases ha⟩
    rw [parseargs]
    refine wp_peek (not_nul h0 hl) (by decide) (fun _ => ?_) fun _ => ?_
    · rw [if_pos rfl]
      exact hdone (skip_suffix l) (tokens_skip l)
    · rw [if_neg Bool.false_ne_true, wp_bind]
      cases hts : tokens l with
      | nil =>
        refine wp_of_ok (gettoken_nil ((tokens_skip l).trans hts)) ?_
        rw [if_pos rfl, ← hts]
        exact hdone nil_suffix (by rw [hts, tokens_nil])
      | cons t ts =>
        obtain ⟨g, l1, hrun1, h1⟩ := gettoken_cons h0 ((skip_suffix l).trans hl)
          ((tokens_skip l).trans hts)
        have hs1 := h1.suffix.trans (skip_suffix l)
        have hlen := (skip_suffix l).length_le
        have h1lt := h1.lt
        refine wp_of_ok hrun1 ?_
        rw [if_neg (by rw [h1.ret]; exact code_ne_zero t), wp_ite]
        refine ⟨fun _ => wp_throw.mpr ⟨by decide, by decide⟩, fun hword => ?_⟩
        obtain ⟨w, rfl⟩ := isWord_of_code (h1.ret.symm.trans (not_not.mp hword))
        obtain ⟨htext, hspan⟩ := h1.word w rfl
        rw [if_neg (not_not.mpr hargs), wp_ite]
        refine ⟨fun _ => wp_throw.mpr ⟨by decide, by decide⟩, fun hmax => ?_⟩
        rw [execTree, addArg_wrap]
        refine (parseredirs_sound h0 (hs1.trans hl) (by omega)).bind ?_
        rintro c' l2 ⟨rs', htoks2, rfl, hs2, hrs'⟩
        rw [execTree_snoc, show args.length + 1 = (args ++ [((g.q, g.eq), rs')]).length by simp]
        have h2len := hs2.length_le
        refine (ih ((hs2.trans hs1).trans hl) (by omega) (by simp; omega)).post ?_
        rintro c' l' ⟨more, htoks', rfl, hmax', hs', hmore⟩
        refine ⟨((g.q, g.eq), rs') :: more, ?_, by simp, by simpa using hmax',
          (hs'.trans hs2).trans hs1, fun a ha => ?_⟩
        · rw [← h1.rest, htoks2, htoks']
          simp [argToks, mapArgs, htext]
        · rcases mem_cons.mp ha with rfl | ha
          · exact ⟨hspan, hrs'⟩
          · exact hmore a ha

lemma eq_of_first {t' : Tok} (ht : t ∈ [Tok.bar, .lpar, .rpar, .semi, .amp])
    (h : t'.first ∈ [t.code]) : t' = t := by
  simp only [mem_cons, not_mem_nil, or_false] at ht
  rcases ht with rfl | rfl | rfl | rfl | rfl <;> cases t' with
  | word w => exact absurd h (show (0 : UInt8) ∉ _ by decide)
  | _ => first | rfl | exact absurd h (by decide)

lemma code_mem_symbols (ht : t ∈ [Tok.bar, .lpar, .rpar, .semi, .amp]) : [t.code] ⊆ symbols := by
  simp only [mem_cons, not_mem_nil, or_false] at ht
  rcases ht with rfl | rfl | rfl | rfl | rfl <;> decide

/-- `if(peek(ps, es, t)) { gettoken(ps, es, 0, 0); ... }`. -/
lemma wp_take {m m' : ShProg α} (h0 : 0 ∉ s)
    (hl : l <:+ s) (ht : t ∈ [Tok.bar, .lpar, .rpar, .semi, .amp])
    (hyes : ∀ l1, tokens l = t :: tokens l1 → l1 <:+ l → l1.length < l.length → wp m l1 Q E)
    (hno : wp m' (skip l) Q E) :
    wp (do if ← peek [t.code] then let _ ← gettoken; m else m') l Q E := by
  refine wp_peek (not_nul h0 hl) (code_mem_symbols ht) (fun hstart => ?_) fun _ => ?_
  · obtain ⟨t', ts, hts, hfirst⟩ := hstart.cons
    obtain rfl := eq_of_first ht hfirst
    obtain ⟨g, l1, hrun, h1⟩ := gettoken_cons h0 ((skip_suffix l).trans hl)
      ((tokens_skip l).trans hts)
    have hlen := (skip_suffix l).length_le
    have hlt := h1.lt
    rw [if_pos rfl, wp_bind]
    exact wp_of_ok hrun (hyes l1 (by rw [hts, h1.rest]) (h1.suffix.trans (skip_suffix l))
      (by omega))
  · rwa [if_neg Bool.false_ne_true]

lemma parseback_sound (h0 : 0 ∉ s) (hl : l <:+ s) (hfuel : l.length < fuel) :
    wp (parseback fuel c) l (fun c' l' => ∃ n, tokens l = replicate n .amp ++ tokens l' ∧
      c' = Cmd.back^[n] c ∧ l' <:+ l) IsPanic := by
  induction fuel generalizing l c with
  | zero => omega
  | succ fuel ih =>
    refine wp_take (t := .amp) h0 hl (by simp) (fun l1 hts hs1 hlt => ?_) (wp_pure.mpr ?_)
    · refine (ih (hs1.trans hl) (by omega)).post ?_
      rintro c' l' ⟨n, htoks, rfl, hs'⟩
      refine ⟨n + 1, ?_, rfl, hs'.trans hs1⟩
      rw [hts, htoks]
      rfl
    · exact ⟨0, (tokens_skip l).symm, rfl, skip_suffix l⟩

/-- The function for a nonterminal. -/
def parse : NT → ℕ → ShProg (Cmd Span)
  | .line => parseline
  | .pipe => parsepipe
  | .cmd => parseexec

/-- The fuel that it needs for a rest of the line. -/
def need : NT → ℕ → ℕ
  | .line, n => 4 * n + 4
  | .pipe, n => 4 * n + 3
  | .cmd, n => 4 * n + 2

/-- What a parser function leaves. -/
structure Parsed (nt : NT) (s l : Ptr) (c : Cmd Span) (l' : Ptr) : Prop where
  derives : ∃ ts, tokens l = ts ++ tokens l' ∧ Derives nt ts (c.map text)
  suffix : l' <:+ l
  words : c.All (WordOf s)

lemma Parsed.of (hd : Derives nt ts tree)
    (htree : c.map text = tree) (hts : tokens l = ts ++ tokens l') (hs : l' <:+ l)
    (hw : c.All (WordOf s)) : Parsed nt s l c l' := ⟨⟨ts, hts, htree ▸ hd⟩, hs, hw⟩

/-- **Soundness.**  By induction on the fuel, for the three nonterminals at once. -/
lemma parse_sound (h0 : 0 ∉ s) (nt : NT) (fuel : ℕ) (hl : l <:+ s)
    (hfuel : need nt l.length ≤ fuel) : wp (parse nt fuel) l (Parsed nt s l) IsPanic := by
  induction fuel using Nat.strong_induction_on generalizing nt l with
  | _ fuel ih =>
  cases nt with
  | line =>
    simp only [need] at hfuel
    obtain _ | f := fuel
    · omega
    show wp (parseline (f + 1)) l _ _
    rw [parseline, wp_bind]
    refine (ih f (Nat.lt_succ_self f) .pipe hl (by simp only [need]; omega)).post ?_
    rintro c l1 ⟨⟨ts, hts, hd⟩, hs1, hw⟩
    have hlen1 := hs1.length_le
    refine (parseback_sound h0 (hs1.trans hl) (by omega)).bind ?_
    rintro c' l2 ⟨n, hts2, rfl, hs2⟩
    have hlen2 := hs2.length_le
    refine wp_take (t := .semi) h0 ((hs2.trans hs1).trans hl) (by simp)
      (fun l3 hts3 hs3 hlt => ?_) (wp_pure.mpr ?_)
    · rw [wp_bind]
      refine (ih f (Nat.lt_succ_self f) .line (((hs3.trans hs2).trans hs1).trans hl)
        (by simp only [need]; omega)).post ?_
      rintro right l4 ⟨⟨ts', hts4, hd'⟩, hs4, hw'⟩
      refine wp_pure.mpr (.of (.seq n hd hd') (by rw [Cmd.map, map_back]) ?_
        (((hs4.trans hs3).trans hs2).trans hs1) ⟨all_back n hw, hw'⟩)
      rw [hts, hts2, hts3, hts4]
      simp
    · refine .of (.line n hd) (map_back text n c) ?_ (((skip_suffix l2).trans hs2).trans hs1)
        (all_back n hw)
      rw [hts, hts2, tokens_skip, append_assoc]
  | pipe =>
    simp only [need] at hfuel
    obtain _ | f := fuel
    · omega
    show wp (parsepipe (f + 1)) l _ _
    rw [parsepipe, wp_bind]
    refine (ih f (Nat.lt_succ_self f) .cmd hl (by simp only [need]; omega)).post ?_
    rintro c l1 ⟨⟨ts, hts, hd⟩, hs1, hw⟩
    have hlen1 := hs1.length_le
    refine wp_take (t := .bar) h0 (hs1.trans hl) (by simp)
      (fun l2 hts2 hs2 hlt => ?_) (wp_pure.mpr ?_)
    · rw [wp_bind]
      refine (ih f (Nat.lt_succ_self f) .pipe ((hs2.trans hs1).trans hl)
        (by simp only [need]; omega)).post ?_
      rintro right l3 ⟨⟨ts', hts3, hd'⟩, hs3, hw'⟩
      refine wp_pure.mpr (.of (.pipe hd hd') rfl ?_ ((hs3.trans hs2).trans hs1) ⟨hw, hw'⟩)
      rw [hts, hts2, hts3]
      simp
    · exact .of (.single hd) rfl (by rw [hts, tokens_skip]) ((skip_suffix l1).trans hs1) hw
  | cmd =>
    simp only [need] at hfuel
    obtain _ | _ | f := fuel
    · omega
    · omega
    show wp (parseexec (f + 2)) l _ _
    rw [parseexec]
    have hskip := (skip_suffix l).length_le
    refine wp_peek (not_nul h0 hl) (by decide) (fun _ => ?_) fun _ => ?_
    · rw [if_pos rfl, parseblock]
      refine wp_take (t := .lpar) h0 ((skip_suffix l).trans hl) (by simp)
        (fun l1 hts1 hs1 hlt => ?_) (wp_throw.mpr ⟨by decide, by decide⟩)
      have hs1' := hs1.trans (skip_suffix l)
      refine (ih f (by omega) .line (hs1'.trans hl) (by simp only [need]; omega)).bind ?_
      rintro c l2 ⟨⟨ts, hts2, hd⟩, hs2, hw⟩
      refine wp_take (t := .rpar) h0 ((hs2.trans hs1').trans hl) (by simp)
        (fun l3 hts3 hs3 hlt' => ?_) (wp_throw.mpr ⟨by decide, by decide⟩)
      have hlen2 := hs2.length_le
      have hs3' := (hs3.trans hs2).trans hs1'
      refine (parseredirs_sound h0 (hs3'.trans hl) (by omega)).post ?_
      rintro c' l' ⟨rs, hts', rfl, hs', hrs⟩
      refine .of (.block (mapRedirs text rs) hd) (map_wrap text rs c) ?_ (hs'.trans hs3')
        (all_wrap hw hrs)
      rw [← tokens_skip l, hts1, hts2, hts3, hts']
      simp
    · rw [if_neg Bool.false_ne_true]
      refine (parseredirs_sound h0 ((skip_suffix l).trans hl) (by omega)).bind ?_
      rintro c l1 ⟨rs, hts1, rfl, hs1, hrs⟩
      have hlen1 := hs1.length_le
      have hs1' := hs1.trans (skip_suffix l)
      have hempty : wrap rs (.exec []) = execTree rs ([] : Args Span) := by simp [execTree]
      rw [hempty]
      refine (parseargs_sound h0 (hs1'.trans hl) (by omega) (by decide)).post ?_
      rintro c' l' ⟨args, hts', rfl, hmax, hs', hargs⟩
      have hmax' : (mapArgs text args).length < MAXARGS := by simpa [mapArgs] using hmax
      refine .of (.exec (mapRedirs text rs) (mapArgs text args) hmax')
        (map_execTree text rs args) ?_ (hs'.trans hs1') (all_wrap (fun a ha => ?_) fun r hr => ?_)
      · rw [← tokens_skip l, hts1, hts', append_assoc]
      · obtain ⟨a', ha', rfl⟩ := mem_map.mp ha
        exact (hargs a' ha').1
      · rcases mem_append.mp hr with hr | hr
        · exact hrs r hr
        · obtain ⟨a', ha', hr⟩ := mem_flatMap.mp hr
          exact (hargs a' ha').2 r hr

/-! ## Completeness -/

lemma run_peek (h0 : 0 ∉ l) (htoks : toks ⊆ symbols) :
    (Starts (·.first ∈ toks) (tokens l) → (peek toks >>= f) l = f true (skip l)) ∧
      (¬ Starts (·.first ∈ toks) (tokens l) → (peek toks >>= f) l = f false (skip l)) := by
  obtain ⟨b, hrun, hb⟩ := peek_run h0 htoks
  rw [run_bind hrun]
  refine ⟨fun h => by rw [hb.mpr h], fun h => ?_⟩
  cases b with
  | true => exact absurd (hb.mp rfl) h
  | false => rfl

lemma starts_cons : Starts p (t :: ts) ↔ p t := by
  simp [Starts]

section

variable (h0 : 0 ∉ s) (hl : l <:+ s) (ht : t ∈ [Tok.bar, .lpar, .rpar, .semi, .amp])
include h0 hl ht

lemma run_take (hts : tokens l = t :: ts) :
    ∃ l1, tokens l1 = ts ∧ l1 <:+ l ∧ l1.length < l.length ∧ ∀ m m' : ShProg (Cmd Span),
      (do if ← peek [t.code] then let _ ← gettoken; m else m') l = m l1 := by
  have hfirst : t.first ∈ [t.code] := by
    simp only [mem_cons, not_mem_nil, or_false] at ht
    rcases ht with rfl | rfl | rfl | rfl | rfl <;> decide
  obtain ⟨g, l1, hrun, h1⟩ :=
    gettoken_cons h0 ((skip_suffix l).trans hl) ((tokens_skip l).trans hts)
  have hlen := (skip_suffix l).length_le
  have hlt := h1.lt
  refine ⟨l1, h1.rest, h1.suffix.trans (skip_suffix l), by omega, fun m m' => ?_⟩
  rw [(run_peek (not_nul h0 hl) (code_mem_symbols ht)).1
    (by rw [hts]; exact starts_cons.mpr hfirst), if_pos rfl, run_bind hrun]

lemma run_no_take (hno : ¬ Starts (· = t) (tokens l)) (m m' : ShProg (Cmd Span)) :
    (do if ← peek [t.code] then let _ ← gettoken; m else m') l = m' (skip l) := by
  rw [(run_peek (not_nul h0 hl) (code_mem_symbols ht)).2 fun h => ?_, if_neg Bool.false_ne_true]
  obtain ⟨t', ht', hfirst⟩ := h
  exact hno ⟨t', ht', eq_of_first ht hfirst⟩

end

lemma first_tok (op : RedirOp) : op.tok.first ∈ [60, 62] := by cases op <;> decide

lemma parseredirs_complete (h0 : 0 ∉ s) {rs : Redirs (List UInt8)} {more : List Tok} (fuel : ℕ)
    (hl : l <:+ s) (hfuel : l.length < fuel) (hts : tokens l = redirToks rs ++ more)
    (hmore : ¬ Starts (·.first ∈ [60, 62]) more) :
    ∃ rs' l', parseredirs fuel c l = .ok (wrap rs' c, l') ∧ mapRedirs text rs' = rs ∧
      tokens l' = more ∧ l' <:+ l := by
  induction rs generalizing l c fuel with
  | nil =>
    obtain _ | f := fuel
    · omega
    refine ⟨[], skip l, ?_, rfl, (tokens_skip l).trans hts, skip_suffix l⟩
    rw [parseredirs, (run_peek (not_nul h0 hl) (by decide)).2 (by rw [hts]; exact hmore),
      if_neg Bool.false_ne_true]
    rfl
  | cons r rs ih =>
    obtain ⟨op, w⟩ := r
    obtain _ | f := fuel
    · omega
    have hts' : tokens l = op.tok :: .word w :: (redirToks rs ++ more) := hts
    obtain ⟨g, l1, hrun1, h1⟩ := gettoken_cons h0 ((skip_suffix l).trans hl)
      ((tokens_skip l).trans hts')
    have hs1 := h1.suffix.trans (skip_suffix l)
    obtain ⟨g', l2, hrun2, h2⟩ := gettoken_cons h0 (hs1.trans hl) h1.rest
    have hlen := (skip_suffix l).length_le
    have h1lt := h1.lt
    have h2lt := h2.lt
    obtain ⟨rs', l', hrun', hrs', hl', hs'⟩ := ih (c := .redir c (g'.q, g'.eq) op.mode op.fd)
      f ((h2.suffix.trans hs1).trans hl) (by omega) h2.rest
    refine ⟨(op, (g'.q, g'.eq)) :: rs', l', ?_, ?_, hl', (hs'.trans h2.suffix).trans hs1⟩
    · have hret : ¬ g'.ret ≠ 97 := not_not.mpr h2.ret
      rw [parseredirs, (run_peek (not_nul h0 hl) (by decide)).1
        (by rw [hts']; exact starts_cons.mpr (first_tok op)), if_pos rfl, run_bind hrun1,
        run_bind hrun2, if_neg hret, h1.ret, redircmd_tok]
      exact hrun'
    · show (op, text (g'.q, g'.eq)) :: mapRedirs text rs' = _
      rw [hrs', (h2.word w rfl).1]

/-- What can follow. -/
def follow : NT → List UInt8
  | .line => [41]
  | .pipe => [41, 38, 59]
  | .cmd => [41, 38, 59, 124]

/-- The rest may follow `nt`. -/
def Ends (nt : NT) (rest : List Tok) : Prop := ∀ t ∈ rest.head?, t.first ∈ follow nt

lemma Ends.not_starts (h : Ends nt rest)
    (hp : ∀ t, t.first ∈ follow nt → ¬ p t) : ¬ Starts p rest := fun ⟨t, ht, hpt⟩ =>
  hp t (h t ht) hpt

lemma Ends.of_cons (h : t.first ∈ follow nt) : Ends nt (t :: ts) :=
  fun _ ht => by
    cases ht
    exact h

lemma Ends.mono {nt' : NT} (h : Ends nt rest) (hsub : follow nt ⊆ follow nt') :
    Ends nt' rest := fun t ht => hsub (h t ht)

lemma Ends.amps {n : ℕ} (h : Ends .pipe rest) : Ends .pipe (replicate n .amp ++ rest) := by
  cases n with
  | zero => exact h
  | succ n => exact .of_cons (by decide)

lemma Ends.not_starts_eq (h : Ends nt rest) (ht : t.first ∉ follow nt) : ¬ Starts (· = t) rest :=
  h.not_starts fun _ hf he => ht (he ▸ hf)

lemma Ends.not_redir (h : Ends .cmd rest) : ¬ Starts (·.first ∈ [60, 62]) rest :=
  h.not_starts fun t hf => (by simp [follow] : ∀ c ∈ follow .cmd, c ∉ [60, 62]) _ hf

lemma parseargs_complete (h0 : 0 ∉ s) {more : Args (List UInt8)} (fuel : ℕ)
    (rs : Redirs Span) (args : Args Span) (hl : l <:+ s) (hfuel : l.length < fuel)
    (hts : tokens l = argToks more ++ rest) (hrest : Ends .cmd rest)
    (hmax : args.length + more.length < MAXARGS) :
    ∃ more' l', parseargs fuel (execTree rs args) args.length l =
      .ok (execTree rs (args ++ more'), l') ∧ mapArgs text more' = more ∧ tokens l' = rest ∧
        l' <:+ l := by
  induction more generalizing l args fuel with
  | nil =>
    obtain _ | f := fuel
    · omega
    have hend : ∀ l0, endArgs (execTree rs args) args.length l0 =
        .ok (execTree rs (args ++ []), l0) :=
      fun l0 => by
        rw [endArgs, if_pos (by simpa using hmax), append_nil]
        rfl
    cases hr : rest with
    | nil =>
      have hnil : tokens l = [] := hts.trans hr
      refine ⟨[], [], ?_, rfl, tokens_nil, nil_suffix⟩
      rw [parseargs, (run_peek (not_nul h0 hl) (by decide)).2 (by rw [hnil]; simp [Starts]),
        if_neg Bool.false_ne_true, run_bind (gettoken_nil ((tokens_skip l).trans hnil)),
        if_pos rfl, hend]
    | cons t ts =>
      have hcons : tokens l = t :: ts := hts.trans hr
      have hfirst : t.first ∈ follow .cmd := hrest t (by rw [hr]; rfl)
      refine ⟨[], skip l, ?_, rfl, (tokens_skip l).trans hcons, skip_suffix l⟩
      rw [parseargs, (run_peek (not_nul h0 hl) (by decide)).1
        (by rw [hcons, starts_cons]; simp only [follow, mem_cons] at hfirst ⊢; tauto),
        if_pos rfl, hend]
  | cons a more ih =>
    obtain ⟨w, rs0⟩ := a
    obtain _ | f := fuel
    · omega
    have hts' : tokens l = .word w :: (redirToks rs0 ++ (argToks more ++ rest)) := by
      rw [hts]
      simp [argToks]
    obtain ⟨g, l1, hrun1, h1⟩ := gettoken_cons h0 ((skip_suffix l).trans hl)
      ((tokens_skip l).trans hts')
    have hs1 := h1.suffix.trans (skip_suffix l)
    have hlen := (skip_suffix l).length_le
    have h1lt := h1.lt
    rw [length_cons] at hmax
    -- behind the redirections comes a word or the end
    have hnext : ¬ Starts (·.first ∈ [60, 62]) (argToks more ++ rest) := by
      cases more with
      | nil => exact hrest.not_redir
      | cons a' more =>
        show ¬ Starts _ (Tok.word a'.1 :: _)
        rw [starts_cons]
        exact (by decide : (0 : UInt8) ∉ [60, 62])
    obtain ⟨rs', l2, hrun2, hrs', hl2, hs2⟩ := parseredirs_complete h0
      (c := wrap (rs ++ args.flatMap (·.2)) (.exec (args.map (·.1) ++ [(g.q, g.eq)]))) f
      (hs1.trans hl) (by omega) h1.rest hnext
    have h2len := hs2.length_le
    obtain ⟨more', l', hrun', hmore', hl', hs'⟩ := ih f
      (args ++ [((g.q, g.eq), rs')]) ((hs2.trans hs1).trans hl) (by omega) hl2 (by simp; omega)
    refine ⟨((g.q, g.eq), rs') :: more', l', ?_, ?_, hl', (hs'.trans hs2).trans hs1⟩
    · have hne : g.ret ≠ 0 := by
        rw [h1.ret]
        exact code_ne_zero _
      have hret : ¬ g.ret ≠ 97 := not_not.mpr h1.ret
      rw [parseargs, (run_peek (not_nul h0 hl) (by decide)).2
        (by rw [hts', starts_cons]; exact (by decide : (0 : UInt8) ∉ [124, 41, 38, 59])),
        if_neg Bool.false_ne_true, run_bind hrun1, if_neg hne, if_neg hret, if_neg (by omega),
        if_neg (by omega), execTree, addArg_wrap, run_bind hrun2, execTree_snoc]
      rw [length_append, length_singleton, append_assoc] at hrun'
      exact hrun'
    · show (text (g.q, g.eq), mapRedirs text rs') :: mapArgs text more' = _
      rw [hmore', hrs', (h1.word w rfl).1]

lemma parseback_complete (h0 : 0 ∉ s) {n : ℕ} (fuel : ℕ) (hl : l <:+ s)
    (hfuel : l.length < fuel) (hts : tokens l = replicate n .amp ++ rest)
    (hrest : ¬ Starts (· = .amp) rest) :
    ∃ l', parseback fuel c l = .ok (Cmd.back^[n] c, l') ∧ tokens l' = rest ∧ l' <:+ l := by
  induction n generalizing l c fuel with
  | zero =>
    obtain _ | f := fuel
    · omega
    refine ⟨skip l, ?_, (tokens_skip l).trans hts, skip_suffix l⟩
    exact run_no_take (t := .amp) h0 hl (by simp) (by rw [hts]; exact hrest) _ _
  | succ n ih =>
    obtain _ | f := fuel
    · omega
    rw [replicate_succ, cons_append] at hts
    obtain ⟨l1, hl1, hs1, hlt, hrun⟩ := run_take h0 hl (by simp) hts
    obtain ⟨l', hrun', hl', hs'⟩ := ih f (hs1.trans hl) (by omega) hl1
    exact ⟨l', (hrun _ _).trans hrun', hl', hs'.trans hs1⟩

lemma parse_complete (h0 : 0 ∉ s) (h : Derives nt ts tree) (fuel : ℕ) (hl : l <:+ s)
    (hfuel : need nt l.length ≤ fuel) (hts : tokens l = ts ++ rest) (hrest : Ends nt rest) :
    ∃ c l', parse nt fuel l = .ok (c, l') ∧ c.map text = tree ∧ tokens l' = rest ∧ l' <:+ l := by
  induction h generalizing l fuel rest with
  | @line ts c n hpipe ih =>
    simp only [need] at hfuel
    obtain _ | f := fuel
    · omega
    rw [append_assoc] at hts
    have hends : Ends .pipe (replicate n .amp ++ rest) := (hrest.mono (by decide)).amps
    have hamp : ¬ Starts (· = .amp) rest := hrest.not_starts_eq (by decide)
    have hsemi : ¬ Starts (· = .semi) rest := hrest.not_starts_eq (by decide)
    obtain ⟨c1, l1, hrun1, hc1, hl1, hs1⟩ := ih f hl (by simp only [need]; omega) hts hends
    have hlen1 := hs1.length_le
    obtain ⟨l2, hrun2, hl2, hs2⟩ := parseback_complete h0 (c := c1) f (hs1.trans hl)
      (by omega) hl1 hamp
    refine ⟨Cmd.back^[n] c1, skip l2, ?_, by rw [map_back, hc1], (tokens_skip l2).trans hl2,
      ((skip_suffix l2).trans hs2).trans hs1⟩
    change parsepipe f l = _ at hrun1
    show parseline (f + 1) l = _
    rw [parseline, run_bind hrun1, run_bind hrun2]
    exact run_no_take (t := .semi) h0 ((hs2.trans hs1).trans hl) (by simp)
      (by rw [hl2]; exact hsemi) _ _
  | @seq ts c ts' c' n hpipe hline ih ih' =>
    simp only [need] at hfuel
    obtain _ | f := fuel
    · omega
    rw [append_assoc, append_assoc, cons_append] at hts
    have hends : Ends .pipe (replicate n .amp ++ .semi :: (ts' ++ rest)) :=
      Ends.amps (.of_cons (by decide))
    have hamp : ¬ Starts (· = .amp) (.semi :: (ts' ++ rest)) := by
      rw [starts_cons]
      exact Tok.noConfusion
    obtain ⟨c1, l1, hrun1, hc1, hl1, hs1⟩ := ih f hl (by simp only [need]; omega) hts hends
    have hlen1 := hs1.length_le
    obtain ⟨l2, hrun2, hl2, hs2⟩ := parseback_complete h0 (c := c1) f (hs1.trans hl)
      (by omega) hl1 hamp
    obtain ⟨l3, hl3, hs3, hlt, hrun3⟩ := run_take (t := .semi) h0 ((hs2.trans hs1).trans hl)
      (by simp) hl2
    have hlen2 := hs2.length_le
    obtain ⟨c2, l4, hrun4, hc2, hl4, hs4⟩ := ih' f (((hs3.trans hs2).trans hs1).trans hl)
      (by simp only [need]; omega) hl3 hrest
    refine ⟨.list (Cmd.back^[n] c1) c2, l4, ?_, by rw [Cmd.map, map_back, hc1, hc2], hl4,
      ((hs4.trans hs3).trans hs2).trans hs1⟩
    change parsepipe f l = _ at hrun1
    show parseline (f + 1) l = _
    rw [parseline, run_bind hrun1, run_bind hrun2]
    refine (hrun3 _ _).trans ?_
    change parseline f l3 = _ at hrun4
    exact run_bind hrun4
  | @single ts c hcmd ih =>
    simp only [need] at hfuel
    obtain _ | f := fuel
    · omega
    have hends : Ends .cmd rest := hrest.mono (by decide)
    have hbar : ¬ Starts (· = .bar) rest := hrest.not_starts_eq (by decide)
    obtain ⟨c1, l1, hrun1, hc1, hl1, hs1⟩ := ih f hl (by simp only [need]; omega) hts hends
    refine ⟨c1, skip l1, ?_, hc1, (tokens_skip l1).trans hl1, (skip_suffix l1).trans hs1⟩
    change parseexec f l = _ at hrun1
    show parsepipe (f + 1) l = _
    rw [parsepipe, run_bind hrun1]
    exact run_no_take (t := .bar) h0 (hs1.trans hl) (by simp) (by rw [hl1]; exact hbar) _ _
  | @pipe ts c ts' c' hcmd hpipe ih ih' =>
    simp only [need] at hfuel
    obtain _ | f := fuel
    · omega
    rw [append_assoc, cons_append] at hts
    have hends : Ends .cmd (.bar :: (ts' ++ rest)) := .of_cons (by decide)
    obtain ⟨c1, l1, hrun1, hc1, hl1, hs1⟩ := ih f hl (by simp only [need]; omega) hts hends
    obtain ⟨l2, hl2, hs2, hlt, hrun2⟩ := run_take h0 (hs1.trans hl) (by simp) hl1
    have hlen1 := hs1.length_le
    obtain ⟨c2, l3, hrun3, hc2, hl3, hs3⟩ := ih' f ((hs2.trans hs1).trans hl)
      (by simp only [need]; omega) hl2 hrest
    refine ⟨.pipe c1 c2, l3, ?_, by rw [Cmd.map, hc1, hc2], hl3, (hs3.trans hs2).trans hs1⟩
    change parseexec f l = _ at hrun1
    show parsepipe (f + 1) l = _
    rw [parsepipe, run_bind hrun1]
    refine (hrun2 _ _).trans ?_
    change parsepipe f l2 = _ at hrun3
    exact run_bind hrun3
  | @block ts c rs hline ih =>
    simp only [need] at hfuel
    obtain _ | _ | f := fuel
    · omega
    · omega
    rw [cons_append, append_assoc, cons_append] at hts
    have hskip := (skip_suffix l).length_le
    have hends : Ends .line (.rpar :: (redirToks rs ++ rest)) := .of_cons (by decide)
    obtain ⟨l1, hl1, hs1, hlt, hrun1⟩ := run_take h0 ((skip_suffix l).trans hl) (by simp)
      ((tokens_skip l).trans hts)
    have hs1' := hs1.trans (skip_suffix l)
    obtain ⟨c1, l2, hrun2, hc1, hl2, hs2⟩ := ih f (hs1'.trans hl)
      (by simp only [need]; omega) hl1 hends
    have hs2' := hs2.trans hs1'
    obtain ⟨l3, hl3, hs3, hlt3, hrun3⟩ := run_take h0 (hs2'.trans hl) (by simp) hl2
    have hlen2 := hs2.length_le
    obtain ⟨rs', l4, hrun4, hrs', hl4, hs4⟩ := parseredirs_complete h0 f
      ((hs3.trans hs2').trans hl) (by omega) hl3 hrest.not_redir
    refine ⟨wrap rs' c1, l4, ?_, by rw [map_wrap, hrs', hc1], hl4, (hs4.trans hs3).trans hs2'⟩
    show parseexec (f + 2) l = _
    rw [parseexec, (run_peek (not_nul h0 hl) (by decide)).1
      (by rw [hts, starts_cons]; decide), if_pos rfl, parseblock]
    refine (hrun1 _ _).trans ?_
    change parseline f l1 = _ at hrun2
    rw [run_bind hrun2]
    exact (hrun3 _ _).trans hrun4
  | exec rs args hargs =>
    simp only [need] at hfuel
    obtain _ | _ | f := fuel
    · omega
    · omega
    rw [append_assoc] at hts
    have hskip := (skip_suffix l).length_le
    have hmore : ∀ {toks : List UInt8}, 0 ∉ toks → (∀ c ∈ follow .cmd, c ∉ toks) →
        ¬ Starts (·.first ∈ toks) (argToks args ++ rest) := by
      intro toks h0 hf
      cases args with
      | nil => exact hrest.not_starts fun t ht => hf _ ht
      | cons a args =>
        show ¬ Starts _ (Tok.word a.1 :: _)
        rw [starts_cons]
        exact h0
    have hpar : ¬ Starts (·.first ∈ [40]) (tokens l) := by
      rw [hts]
      cases rs with
      | nil => exact hmore (by decide) (by simp [follow])
      | cons r rs =>
        show ¬ Starts _ (r.1.tok :: _)
        rw [starts_cons]
        cases r.1 <;> decide
    obtain ⟨rs', l1, hrun1, hrs', hl1, hs1⟩ := parseredirs_complete h0 (f + 1)
      ((skip_suffix l).trans hl) (by omega) ((tokens_skip l).trans hts)
      (hmore (by decide) (by simp [follow]))
    have hs1' := hs1.trans (skip_suffix l)
    have hlen1 := hs1.length_le
    have hempty : wrap rs' (.exec []) = execTree rs' ([] : Args Span) := by simp [execTree]
    obtain ⟨args', l2, hrun2, hargs', hl2, hs2⟩ := parseargs_complete h0 (f + 1) rs' []
      (hs1'.trans hl) (by omega) hl1 hrest (by simpa using hargs)
    refine ⟨execTree rs' args', l2, ?_, by rw [map_execTree, hrs', hargs'], hl2, hs2.trans hs1'⟩
    show parseexec (f + 2) l = _
    rw [parseexec, (run_peek (not_nul h0 hl) (by decide)).2 hpar, if_neg Bool.false_ne_true,
      run_bind hrun1, hempty]
    exact hrun2

/-! ## The strings of a command -/

/-- The string at `p` in the line `buf`. -/
def cstr (buf : List UInt8) (p : Ptr) : List UInt8 :=
  (buf.drop (buf.length - p.length)).takeWhile (· ≠ 0)

/-- A place where `nulterminate` may write. -/
def EndPos (s : Ptr) (i : ℕ) : Prop := ∃ x, WordOf s x ∧ i = s.length - x.2.length

variable {buf buf' buf'' : List UInt8} {x : Span} {i : ℕ} {c : Cmd Span} {P' : α → Prop}

lemma drop_of_suffix {p : Ptr} (h : p <:+ s) : s.drop (s.length - p.length) = p := by
  obtain ⟨t, rfl⟩ := h
  rw [length_append, Nat.add_sub_cancel, drop_left]

lemma EndPos.not_isWord {b : UInt8} (h : EndPos s i) (hb : s[i]? = some b) : isWord b = false := by
  obtain ⟨⟨q, p⟩, ⟨hq, hp⟩, rfl⟩ := h
  change p = q.dropWhile isWord at hp
  have hsuf : p <:+ s := hp ▸ (dropWhile_suffix _).trans hq
  have hhead : p.head? = some b := by
    rw [← hb]
    nth_rewrite 1 [← drop_of_suffix hsuf]
    exact head?_drop ..
  have hne : q.dropWhile isWord ≠ [] := fun hnil => by
    rw [hp, hnil] at hhead
    cases hhead
  have hnot := head_dropWhile_not isWord hne
  rw [hp, head?_eq_some_head hne] at hhead
  rwa [Option.some.inj hhead] at hnot

/-- Some ends of words have been written. -/
structure Ended (s buf buf' : List UInt8) : Prop where
  length : buf'.length = buf.length
  kept : ∀ i, ¬ EndPos s i → buf'[i]? = buf[i]?
  zero : ∀ i : ℕ, buf[i]? = some 0 → buf'[i]? = some 0

lemma Ended.refl : Ended s buf buf := ⟨rfl, fun _ _ => rfl, fun _ h => h⟩

lemma Ended.trans (h : Ended s buf buf') (h' : Ended s buf' buf'') : Ended s buf buf'' :=
  ⟨h'.length.trans h.length, fun i hi => (h'.kept i hi).trans (h.kept i hi),
    fun i hi => h'.zero i (h.zero i hi)⟩

/-- The word ends with a NUL. -/
def Closed (buf : List UInt8) (x : Span) : Prop := x.2 = [] ∨ buf[buf.length - x.2.length]? = some 0

lemma Closed.mono (h : Ended s buf buf') (hx : Closed buf x) : Closed buf' x :=
  hx.imp_right fun h0 => by
    rw [h.length]
    exact h.zero _ h0

lemma Cmd.All.mono {c : Cmd α} (h : c.All P) (hP : ∀ a, P a → P' a) : c.All P' := by
  induction c with
  | exec argv => exact fun a ha => hP a (h a ha)
  | redir c file mode fd ih => exact ⟨ih h.1, hP _ h.2⟩
  | pipe left right ih ih' | list left right ih ih' => exact ⟨ih h.1, ih' h.2⟩
  | back c ih => exact ih h

lemma endAt_ended (hlen : buf.length = s.length) (hx : WordOf s x) :
    Ended s buf (endAt buf x.2) ∧ Closed (endAt buf x.2) x := by
  refine ⟨⟨length_set, fun i hi => ?_, fun i hi => ?_⟩, ?_⟩
  · refine getElem?_set_ne fun heq => hi ⟨x, hx, ?_⟩
    rw [← heq, hlen]
  · rw [endAt, getElem?_set]
    have hlt := (List.getElem?_eq_some_iff.mp hi).1
    split_ifs with h1
    · rfl
    · exact absurd (h1 ▸ hlt) ‹_›
    · exact hi
  · rcases eq_nil_or_concat x.2 with hnil | ⟨p, b, hp⟩
    · exact .inl hnil
    · refine .inr ?_
      have hpos : 0 < x.2.length := by
        rw [hp]
        simp
      have hle : x.2.length ≤ buf.length := by
        rw [hlen, hx.2]
        exact ((dropWhile_suffix _).trans hx.1).length_le
      rw [endAt, length_set, getElem?_set_self (by omega)]

lemma nulterminate_ended (hc : c.All (WordOf s)) (hlen : buf.length = s.length) :
    Ended s buf (nulterminate c buf) ∧ c.All (Closed (nulterminate c buf)) := by
  induction c generalizing buf with
  | exec argv =>
    change ∀ a ∈ argv, WordOf s a at hc
    induction argv generalizing buf with
    | nil => exact ⟨.refl, fun a ha => by cases ha⟩
    | cons a argv ih =>
      obtain ⟨h1, hcl⟩ := endAt_ended hlen (hc a (mem_cons_self ..))
      obtain ⟨h2, hrest⟩ := ih (h1.length.trans hlen)
        fun a' ha' => hc a' (mem_cons_of_mem _ ha')
      refine ⟨h1.trans h2, fun a' ha' => ?_⟩
      rcases mem_cons.mp ha' with rfl | ha'
      · exact hcl.mono h2
      · exact hrest a' ha'
  | redir c file mode fd ih =>
    obtain ⟨h1, hcl⟩ := ih hc.1 hlen
    obtain ⟨h2, hfile⟩ := endAt_ended (h1.length.trans hlen) hc.2
    exact ⟨h1.trans h2, hcl.mono fun a => .mono h2, hfile⟩
  | pipe left right ih ih' | list left right ih ih' =>
    obtain ⟨h1, hcl⟩ := ih hc.1 hlen
    obtain ⟨h2, hcl'⟩ := ih' hc.2 (h1.length.trans hlen)
    exact ⟨h1.trans h2, hcl.mono fun a => .mono h2, hcl'⟩
  | back c ih => exact ih hc hlen

lemma cstr_eq_text (h0 : 0 ∉ s) (h : Ended s s buf) (hx : WordOf s x) (hcl : Closed buf x) :
    cstr buf x.1 = text x := by
  obtain ⟨q, p⟩ := x
  obtain ⟨hq, hp⟩ := hx
  change q <:+ s at hq
  change p = q.dropWhile isWord at hp
  subst hp
  set w := q.takeWhile isWord with hw
  have hsplit : w ++ q.dropWhile isWord = q := takeWhile_append_dropWhile
  have hlen := congrArg length hsplit
  have hqlen := hq.length_le
  rw [length_append] at hlen
  have hget : ∀ j : ℕ, s[s.length - q.length + j]? = q[j]? := fun j => by
    nth_rewrite 2 [← drop_of_suffix hq]
    rw [getElem?_drop]
  -- the characters of the word are still there
  have hword : (buf.drop (buf.length - q.length)).take w.length = w := by
    refine ext_getElem? fun j => ?_
    rw [getElem?_take, getElem?_drop, h.length]
    split_ifs with hj
    · have hqj : q[j]? = w[j]? := by
        nth_rewrite 1 [← hsplit]
        exact getElem?_append_left hj
      rw [h.kept, hget, hqj]
      intro hend
      have hwj := getElem?_eq_getElem hj
      have hnot := hend.not_isWord ((hget j).trans (hqj.trans hwj))
      have hyes := all_eq_true.mp all_takeWhile _ (getElem_mem hj)
      rw [hyes] at hnot
      cases hnot
    · exact (getElem?_eq_none (by omega)).symm
  have hnz : ∀ b ∈ w, decide (b ≠ 0) = true := fun b hb => by
    refine decide_eq_true fun hb0 => h0 (hq.subset ?_)
    rw [← hb0]
    exact (takeWhile_subset _) hb
  have hstop : ((buf.drop (buf.length - q.length)).drop w.length).takeWhile (· ≠ 0) = [] := by
    rw [drop_drop]
    have hpos : buf.length - q.length + w.length = buf.length - (q.dropWhile isWord).length := by
      rw [h.length]
      omega
    rw [hpos]
    rcases hcl with hnil | hzero
    · change q.dropWhile isWord = [] at hnil
      rw [hnil, length_nil, Nat.sub_zero, drop_length, takeWhile_nil]
    · obtain ⟨hlt, hb⟩ := List.getElem?_eq_some_iff.mp hzero
      change buf.length - (q.dropWhile isWord).length < buf.length at hlt
      rw [drop_eq_getElem_cons hlt]
      refine takeWhile_cons_of_neg ?_
      simpa using hb
  have happ := take_append_drop w.length (buf.drop (buf.length - q.length))
  rw [hword] at happ
  rw [text_word, cstr, ← hw]
  calc (buf.drop (buf.length - q.length)).takeWhile (· ≠ 0)
      = (w ++ (buf.drop (buf.length - q.length)).drop w.length).takeWhile (· ≠ 0) := by
        rw [happ]
    _ = w := by rw [takeWhile_append_of_pos hnz, hstop, append_nil]

lemma Cmd.map_congr {f g : α → β} {c : Cmd α} (h : c.All fun a => f a = g a) :
    c.map f = c.map g := by
  induction c with
  | exec argv => exact congrArg _ (map_congr_left h)
  | redir c file mode fd ih => rw [Cmd.map, Cmd.map, ih h.1, h.2]
  | pipe left right ih ih' | list left right ih ih' => rw [Cmd.map, Cmd.map, ih h.1, ih' h.2]
  | back c ih => rw [Cmd.map, Cmd.map, ih h]

lemma Cmd.All.and {c : Cmd α} (h : c.All P) (h' : c.All P') : c.All fun a => P a ∧ P' a := by
  induction c with
  | exec argv => exact fun a ha => ⟨h a ha, h' a ha⟩
  | redir c file mode fd ih => exact ⟨ih h.1 h'.1, h.2, h'.2⟩
  | pipe left right ih ih' | list left right ih ih' => exact ⟨ih h.1 h'.1, ih' h.2 h'.2⟩
  | back c ih => exact ih h h'

lemma all_cstr (h0 : 0 ∉ s) (hc : c.All (WordOf s)) :
    c.All fun x => cstr (nulterminate c s) x.1 = text x := by
  obtain ⟨h, hcl⟩ := nulterminate_ended hc rfl
  exact (hc.and hcl).mono fun x hx => cstr_eq_text h0 h hx.1 hx.2

lemma map_cstr (h0 : 0 ∉ s) (hc : c.All (WordOf s)) :
    c.map (fun x => cstr (nulterminate c s) x.1) = c.map text :=
  Cmd.map_congr (all_cstr h0 hc)

/-! ## `parsecmd` -/

lemma parsecmd_cases (h0 : 0 ∉ s) :
    (∃ c, parsecmd s = .ok (c, nulterminate c s) ∧ c.All (WordOf s) ∧
      Derives .line (tokens s) (c.map text)) ∨ ∃ e, parsecmd s = .error e ∧ IsPanic e := by
  have hsound := parse_sound h0 .line (4 * s.length + 4) (suffix_refl s) le_rfl
  cases hrun : parseline (4 * s.length + 4) s with
  | error e =>
    refine .inr ⟨e, ?_, hsound.2 e hrun⟩
    simp [parsecmd, hrun, bind, Except.bind]
  | ok r =>
    obtain ⟨c, ps⟩ := r
    obtain ⟨⟨ts, hts, hd⟩, -, hw⟩ := hsound.1 c ps hrun
    by_cases hps : skip ps = []
    · have hnil : tokens ps = [] := by rw [← tokens_skip, hps, tokens_nil]
      rw [hnil, append_nil] at hts
      refine .inl ⟨c, ?_, hw, hts ▸ hd⟩
      simp [parsecmd, hrun, bind, Except.bind, hps, pure, Except.pure]
    · refine .inr ⟨.leftovers, ?_, by decide, by decide⟩
      simp [parsecmd, hrun, bind, Except.bind, hps, throw, throwThe, MonadExceptOf.throw]

/-- **The shell parser accepts exactly its grammar.**  For a line without NUL, `parsecmd` returns a
command if and only if the tokens of the line derive from `line`, and the strings of the command, in
the line that it leaves, are those of the derivation. Otherwise it ends in a panic of the source; it
never runs out of fuel, and no index of `argv` is out of bounds. -/
theorem parsecmd_accepts_grammar {s : List UInt8} (h0 : 0 ∉ s) :
    (∀ tree, (∃ c buf, parsecmd s = .ok (c, buf) ∧ c.map (fun x => cstr buf x.1) = tree) ↔
      Derives .line (tokens s) tree) ∧
    ((¬ ∃ tree, Derives .line (tokens s) tree) → ∃ e, parsecmd s = .error e) ∧
    ∀ e, parsecmd s = .error e → e ≠ .fuel ∧ e ≠ .argvBounds := by
  refine ⟨fun tree => ⟨?_, fun hd => ?_⟩, fun hno => ?_, fun e he => ?_⟩
  · rintro ⟨c, buf, hrun, rfl⟩
    rcases parsecmd_cases h0 with ⟨c', hrun', hw, hd⟩ | ⟨e, he, -⟩
    · rw [hrun'] at hrun
      cases hrun
      rwa [map_cstr h0 hw]
    · rw [he] at hrun
      cases hrun
  · obtain ⟨c, l', hrun, rfl, hl', -⟩ := parse_complete h0 hd (4 * s.length + 4)
      (suffix_refl s) le_rfl (by rw [append_nil]) (fun t ht => by cases ht)
    have hok : parsecmd s = .ok (c, nulterminate c s) := by
      change parseline (4 * s.length + 4) s = _ at hrun
      simp [parsecmd, hrun, bind, Except.bind, lex_nil hl', pure, Except.pure]
    have hw := ((parse_sound h0 .line _ (suffix_refl s) le_rfl).1 c l' hrun).words
    exact ⟨c, _, hok, map_cstr h0 hw⟩
  · rcases parsecmd_cases h0 with ⟨c, -, -, hd⟩ | ⟨e, he, -⟩
    · exact absurd ⟨_, hd⟩ hno
    · exact ⟨e, he⟩
  · rcases parsecmd_cases h0 with ⟨c, hrun, -⟩ | ⟨e', he', hp⟩
    · rw [hrun] at he
      cases he
    · rw [he'] at he
      cases he
      exact hp

/-- `ls>f|wc;`. -/
def sampleLine : List UInt8 := [108, 115, 62, 102, 124, 119, 99, 59]

theorem parsecmd_accepts_grammar_sample : 0 ∉ sampleLine ∧ Derives .line (tokens sampleLine)
    (.list (.pipe (.redir (.exec [[108, 115]]) [102] 0x601 1) (.exec [[119, 99]])) (.exec [])) := by
  have h0 : 0 ∉ sampleLine := by decide
  refine ⟨h0, ((parsecmd_accepts_grammar h0).1 _).mp ⟨_, _, rfl, ?_⟩⟩
  rfl

end Xv6.Sh
