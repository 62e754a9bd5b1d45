import Mathlib.Tactic

/-!
# Runs of a transition system

A system is given by a step function: a state and an action give the next state, or the action is
not possible there, or it ends in a panic. Interleavings are lists of actions, so a statement about
every interleaving is a statement about every `Run`.

`Run.invariant` is the induction every safety proof uses. `RunOf.invariant` is the same for runs
whose steps all meet a condition `ok`, which may look at the state before the step.
-/

/-- The result of one step. -/
inductive Outcome (ε σ : Type) where
  | next (s : σ)
  | disabled
  | panic (e : ε)

/-- A program as one step of a system. -/
def Outcome.ofExcept {ε σ α : Type} : Except ε (α × σ) → Outcome ε σ
  | .ok (_, s) => .next s
  | .error e => .panic e

variable {σ α ε : Type} {step : σ → α → Outcome ε σ}

/-- `Run step s as s'`: the actions `as` lead from `s` to `s'`. -/
inductive Run (step : σ → α → Outcome ε σ) : σ → List α → σ → Prop where
  | nil (s : σ) : Run step s [] s
  | cons {s s' s'' : σ} {a : α} {as : List α} :
      step s a = .next s' → Run step s' as s'' → Run step s (a :: as) s''

/-- Every step of the run meets `ok` in the state it is taken from. -/
inductive RunOf (step : σ → α → Outcome ε σ) (ok : σ → α → Prop) : σ → List α → σ → Prop where
  | nil (s : σ) : RunOf step ok s [] s
  | cons {s s' s'' : σ} {a : α} {as : List α} :
      ok s a → step s a = .next s' → RunOf step ok s' as s'' → RunOf step ok s (a :: as) s''

/-- Run a list of actions, if every one of them is possible. -/
def exec (step : σ → α → Outcome ε σ) : σ → List α → Option σ
  | s, [] => some s
  | s, a :: as =>
    match step s a with
    | .next s' => exec step s' as
    | _ => none

namespace Run

variable {as : List α} {s s' : σ}

lemma of_exec (h : exec step s as = some s') : Run step s as s' := by
  induction as generalizing s with
  | nil =>
    obtain rfl : s = s' := Option.some.inj h
    exact .nil s
  | cons a as ih =>
    simp only [exec] at h
    split at h
    · next hs => exact .cons hs (ih h)
    · cases h

lemma toRunOf_of_forall {ok : σ → α → Prop} (h : Run step s as s')
    (hok : ∀ a ∈ as, ∀ s, ok s a) : RunOf step ok s as s' := by
  induction h with
  | nil s => exact .nil s
  | @cons s _ _ a as hs _ ih =>
    exact .cons (hok a (List.mem_cons_self ..) s) hs
      (ih fun b hb => hok b (List.mem_cons_of_mem a hb))

lemma toRunOf (h : Run step s as s') : RunOf step (fun _ _ => True) s as s' := by
  induction h with
  | nil s => exact .nil s
  | cons hs _ ih => exact .cons trivial hs ih

end Run

variable {as : List α} {ok : σ → α → Prop} {s s' : σ} {I : σ → Prop}

lemma RunOf.mono {ok' : σ → α → Prop} (hok : ∀ s a, ok s a → ok' s a)
    (h : RunOf step ok s as s') : RunOf step ok' s as s' := by
  induction h with
  | nil s => exact .nil s
  | cons h1 hs _ ih => exact .cons (hok _ _ h1) hs ih

/-- Run a list of actions, with a test that implies the condition. -/
lemma RunOf.of_exec {test : σ → α → Bool} (htest : ∀ s a, test s a → ok s a)
    (h : exec (fun s a => if test s a then step s a else .disabled) s as = some s') :
    RunOf step ok s as s' := by
  induction as generalizing s with
  | nil =>
    obtain rfl : s = s' := Option.some.inj h
    exact .nil s
  | cons a as ih =>
    simp only [exec] at h
    split at h
    · next t hs =>
      split_ifs at hs with ht
      exact .cons (htest s a ht) hs (ih h)
    · cases h

lemma RunOf.invariant (hstep : ∀ s a s', I s → ok s a → step s a = .next s' → I s')
    (h : RunOf step ok s as s') (hs : I s) : I s' := by
  induction h with
  | nil s => exact hs
  | cons hok hst _ ih => exact ih (hstep _ _ _ hs hok hst)

lemma Run.invariant (hstep : ∀ s a s', I s → step s a = .next s' → I s')
    (h : Run step s as s') (hs : I s) : I s' :=
  h.toRunOf.invariant (fun s a s' hs _ hst => hstep s a s' hs hst) hs

/-- A step for a step between the images under `f`, for the allowed steps from states in `I`. -/
lemma RunOf.simulates {τ : Type} {step' : τ → α → Outcome ε τ} {f : σ → τ}
      (hstep : ∀ s a s', I s → ok s a → step s a = .next s' → I s' ∧ step' (f s) a = .next (f s'))
    (h : RunOf step ok s as s') (hs : I s) :
    I s' ∧ Run step' (f s) as (f s') := by
  induction h with
  | nil s => exact ⟨hs, .nil _⟩
  | cons hok hst _ ih =>
    obtain ⟨hI, hst'⟩ := hstep _ _ _ hs hok hst
    obtain ⟨hI', hrun⟩ := ih hI
    exact ⟨hI', .cons hst' hrun⟩

/-- Forward simulation: a relation that every step of one system carries along with a step of the
other for the same action. -/
lemma Run.forward {τ ε' : Type} {step' : τ → α → Outcome ε' τ} {R : σ → τ → Prop}
    (hstep : ∀ s a s' t, R s t → step s a = .next s' → ∃ t', step' t a = .next t' ∧ R s' t')
    {t : τ} (h : Run step s as s') (hs : R s t) :
    ∃ t', Run step' t as t' ∧ R s' t' := by
  induction h generalizing t with
  | nil s => exact ⟨t, .nil t, hs⟩
  | cons hst _ ih =>
    obtain ⟨t1, ht1, hR⟩ := hstep _ _ _ t hs hst
    obtain ⟨t', hrun, hR'⟩ := ih hR
    exact ⟨t', .cons ht1 hrun, hR'⟩
