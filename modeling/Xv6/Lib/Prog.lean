import Mathlib.Tactic

/-!
# Programs with a state that may panic

`Prog σ ε α` is a program over a state `σ` that returns an `α` or stops with an error in `ε`.

`wp m s Q E` is its specification at one starting state: if `m` returns, `Q` holds of the result and
of the state it leaves; if it stops with an error, `E` holds of the error. Every program returns or
stops, so with `E` false this says that `m` returns and that `Q` holds then. The rules for the
constructs of the language are equations, for a loop there is an invariant rule, and a function that
has a specification is used through `wp.mono`.

`forUntil` is a counted loop that its body can leave early.
-/

abbrev Prog (σ ε α : Type) := StateT σ (Except ε) α

namespace Prog

variable {σ ε α β : Type}

/-- What holds after running `m` from `s`. -/
def wp (m : Prog σ ε α) (s : σ) (Q : α → σ → Prop) (E : ε → Prop) : Prop :=
  (∀ a s', m s = .ok (a, s') → Q a s') ∧ ∀ e, m s = .error e → E e

variable {m : Prog σ ε α} {s s' : σ} {Q Q' : α → σ → Prop} {E E' : ε → Prop} {f : α → Prog σ ε β}
  {body : ℕ → Prog σ ε (Option β)} {a : α} {m' : Prog σ ε α}

lemma wp.mono (h : wp m s Q E) (hQ : ∀ a s', Q a s' → Q' a s') (hE : ∀ e, E e → E' e) :
    wp m s Q' E' :=
  ⟨fun a s' hm => hQ a s' (h.1 a s' hm), fun e hm => hE e (h.2 e hm)⟩

lemma wp.post (h : wp m s Q E) (hQ : ∀ a s', Q a s' → Q' a s') : wp m s Q' E :=
  h.mono hQ fun _ he => he

lemma wp.weaken (h : wp m s Q E) : wp m s Q fun _ => True :=
  h.mono (fun _ _ hQ => hQ) fun _ _ => trivial

lemma wp.and (h : wp m s Q E) (h' : wp m s Q' E') :
    wp m s (fun a s' => Q a s' ∧ Q' a s') fun e => E e ∧ E' e :=
  ⟨fun a s' hm => ⟨h.1 a s' hm, h'.1 a s' hm⟩, fun e hm => ⟨h.2 e hm, h'.2 e hm⟩⟩

lemma wp_of_ok (h : m s = .ok (a, s')) (hQ : Q a s') : wp m s Q E := by
  constructor
  · intro b t hm
    rw [h] at hm
    cases hm
    exact hQ
  · intro e hm
    rw [h] at hm
    cases hm

/-- What holds of the result from one specification, and of the error from another. -/
lemma wp.errors (h : wp m s Q fun _ => True) (h' : wp m s Q' E) : wp m s Q E := ⟨h.1, h'.2⟩

/-- A program whose specification excludes every error returns. -/
lemma wp.returns (h : wp m s Q fun _ => False) : ∃ a s', m s = .ok (a, s') ∧ Q a s' := by
  cases hm : m s with
  | ok r => exact ⟨r.1, r.2, rfl, h.1 r.1 r.2 hm⟩
  | error e => exact (h.2 e hm).elim

lemma wp_ok_iff (h : m s = .ok (a, s')) : wp m s Q E ↔ Q a s' :=
  ⟨fun hwp => hwp.1 a s' h, wp_of_ok h⟩

@[simp] lemma wp_pure : wp (pure a : Prog σ ε α) s Q E ↔ Q a s := wp_ok_iff rfl

@[simp] lemma wp_get {Q : σ → σ → Prop} : wp (get : Prog σ ε σ) s Q E ↔ Q s s := wp_ok_iff rfl

@[simp] lemma wp_set {t : σ} {Q : PUnit → σ → Prop} :
    wp (set t : Prog σ ε PUnit) s Q E ↔ Q ⟨⟩ t := wp_ok_iff rfl

@[simp] lemma wp_modify {f : σ → σ} {Q : PUnit → σ → Prop} :
    wp (modify f : Prog σ ε PUnit) s Q E ↔ Q ⟨⟩ (f s) := wp_ok_iff rfl

@[simp] lemma wp_throw {e : ε} : wp (throw e : Prog σ ε α) s Q E ↔ E e := by
  constructor
  · intro h
    exact h.2 e rfl
  · intro h
    constructor
    · intro a s' hm
      cases hm
    · intro e' hm
      cases hm
      exact h

@[simp] lemma wp_bind {Q : β → σ → Prop} :
    wp (m >>= f) s Q E ↔ wp m s (fun a s' => wp (f a) s' Q E) E := by
  have hrun : (m >>= f) s = match m s with
      | .ok (a, s') => f a s'
      | .error e => .error e := by
    simp only [Bind.bind, StateT.bind, Except.bind]
    cases m s <;> rfl
  constructor
  · intro h
    refine ⟨?_, ?_⟩
    · intro a s' hm
      simp only [wp, hrun, hm] at h
      exact h
    · intro e hm
      simp only [wp, hrun, hm] at h
      exact h.2 e rfl
  · rintro ⟨hok, herr⟩
    cases hm : m s with
    | ok p =>
      obtain ⟨a, s'⟩ := p
      simp only [wp, hrun, hm]
      exact hok a s' hm
    | error e =>
      simp only [wp, hrun, hm]
      refine ⟨?_, ?_⟩
      · intro b t h
        cases h
      · intro e' h
        cases h
        exact herr e hm

lemma wp.bind {R : β → σ → Prop} (h : wp m s Q E)
    (hf : ∀ a s', Q a s' → wp (f a) s' R E) : wp (m >>= f) s R E :=
  wp_bind.mpr (h.post hf)

lemma run_bind (h : m s = .ok (a, s')) : (m >>= f) s = f a s' := by
  simp only [Bind.bind, StateT.bind, h, Except.bind]

lemma run_get_bind {f : σ → Prog σ ε β} : (get >>= f) s = f s s := rfl

lemma run_modify_bind {g : σ → σ} {f : PUnit → Prog σ ε β} : (modify g >>= f) s = f ⟨⟩ (g s) := rfl

lemma wp_ite {c : Prop} [Decidable c] :
    wp (if c then m else m') s Q E ↔ (c → wp m s Q E) ∧ (¬ c → wp m' s Q E) := by
  by_cases h : c <;> simp [h]

/-! ## Loops -/

/-- `for (j = i; j < i + n; j++) body(j)`, left early when the body returns `some`. -/
def forUntil (body : ℕ → Prog σ ε (Option β)) : ℕ → ℕ → Prog σ ε (Option β)
  | _, 0 => pure none
  | i, n + 1 => do
      match ← body i with
      | some b => pure (some b)
      | none => forUntil body (i + 1) n

/-- What holds when the loop ends: `I` at the end of the range, or what the body left early with. -/
def LoopPost (I : σ → Prop) (Q : β → σ → Prop) : Option β → σ → Prop
  | none, s => I s
  | some b, s => Q b s

@[simp] lemma loopPost_none {I : σ → Prop} {Q : β → σ → Prop} : LoopPost I Q none s ↔ I s := Iff.rfl

lemma wp_forUntil (I : ℕ → σ → Prop) {Q : β → σ → Prop} {i n : ℕ} (hs : I i s)
    (hbody : ∀ j t, i ≤ j → j < i + n → I j t → wp (body j) t (LoopPost (I (j + 1)) Q) E) :
    wp (forUntil body i n) s (LoopPost (I (i + n)) Q) E := by
  induction n generalizing i s with
  | zero => simpa [forUntil] using hs
  | succ n ih =>
    simp only [forUntil, wp_bind]
    refine (hbody i s le_rfl (by omega) hs).post ?_
    rintro (_ | b) t ht
    · have hrec := ih ht fun j t hij hj => hbody j t (by omega) (by omega)
      rwa [show i + 1 + n = i + (n + 1) by omega] at hrec
    · exact wp_pure.mpr ht

/-- The same loop with a body that cannot leave it. -/
def forRange (body : ℕ → Prog σ ε PUnit) : ℕ → ℕ → Prog σ ε PUnit
  | _, 0 => pure ⟨⟩
  | i, n + 1 => do
      body i
      forRange body (i + 1) n

lemma wp_forRange {body : ℕ → Prog σ ε PUnit} (I : ℕ → σ → Prop) {i n : ℕ} (hs : I i s)
    (hbody : ∀ j t, i ≤ j → j < i + n → I j t → wp (body j) t (fun _ => I (j + 1)) E) :
    wp (forRange body i n) s (fun _ => I (i + n)) E := by
  induction n generalizing i s with
  | zero => simpa [forRange] using hs
  | succ n ih =>
    simp only [forRange, wp_bind]
    refine (hbody i s le_rfl (by omega) hs).post ?_
    intro _ t ht
    have hrec := ih ht fun j t hij hj => hbody j t (by omega) (by omega)
    rwa [show i + 1 + n = i + (n + 1) by omega] at hrec

/-! ## Errors -/

/-- Whatever state it starts in, `m` stops with errors in `E` only. -/
structure Only (E : ε → Prop) (m : Prog σ ε α) : Prop where
  spec : ∀ s, wp m s (fun _ _ => True) E

/-- A specification that says nothing about errors, for a program with few of them. -/
lemma wp.only (h : wp m s Q fun _ => True) (h' : Only E m) : wp m s Q E :=
  h.errors (h'.spec s)

namespace Only

lemma mono (h : Only E m) (hE : ∀ e, E e → E' e) : Only E' m :=
  ⟨fun s => (h.spec s).mono (fun _ _ _ => trivial) hE⟩

lemma of_pure (a : α) : Only E (pure a : Prog σ ε α) := ⟨fun _ => wp_pure.mpr trivial⟩

lemma of_get : Only E (get : Prog σ ε σ) := ⟨fun _ => wp_get.mpr trivial⟩

lemma of_modify (f : σ → σ) : Only E (modify f : Prog σ ε PUnit) := ⟨fun _ => wp_modify.mpr trivial⟩

lemma of_throw {e : ε} (h : E e) : Only E (throw e : Prog σ ε α) := ⟨fun _ => wp_throw.mpr h⟩

lemma bind (h : Only E m) (hf : ∀ a, Only E (f a)) : Only E (m >>= f) :=
  ⟨fun s => wp_bind.mpr ((h.spec s).post fun a s' _ => (hf a).spec s')⟩

lemma ite {c : Prop} [Decidable c] (h : Only E m) (h' : Only E m') :
    Only E (if c then m else m') :=
  ⟨fun s => wp_ite.mpr ⟨fun _ => h.spec s, fun _ => h'.spec s⟩⟩

/-- A call whose caller looks at whether there is a result. -/
lemma bindOption {m : Prog σ ε (Option β)} {f : Option β → Prog σ ε α} (h : Only E m)
    (hnone : Only E (f none)) (hsome : ∀ b, Only E (f (some b))) : Only E (m >>= f) :=
  h.bind fun r => by
    cases r with
    | none => exact hnone
    | some b => exact hsome b

lemma forUntil (h : ∀ k, Only E (body k)) (i n : ℕ) : Only E (Prog.forUntil body i n) := by
  induction n generalizing i with
  | zero => exact of_pure none
  | succ n ih =>
    refine bind (h i) fun r => ?_
    cases r with
    | none => exact ih (i + 1)
    | some b => exact of_pure (some b)

lemma forRange {body : ℕ → Prog σ ε PUnit} (h : ∀ k, Only E (body k)) (i n : ℕ) :
    Only E (Prog.forRange body i n) := by
  induction n generalizing i with
  | zero => exact of_pure PUnit.unit
  | succ n ih => exact bind (h i) fun _ => ih (i + 1)

end Only

/-! ## Calls -/

lemma of_bind_ok {m : Except ε α} {f : α → Except ε β} {b : β} (h : m >>= f = .ok b) :
    ∃ a, m = .ok a ∧ f a = .ok b := by
  cases m with
  | error e => cases h
  | ok a => exact ⟨a, rfl, h⟩

/-- `m`, called by a program with errors of its own. -/
def mapError {ε' : Type} (f : ε → ε') (m : Prog σ ε α) : Prog σ ε' α := fun s =>
  match m s with
  | .ok r => .ok r
  | .error e => .error (f e)

@[simp] lemma wp_mapError {ε' : Type} {f : ε → ε'} {E' : ε' → Prop} :
    wp (mapError f m) s Q E' ↔ wp m s Q fun e => E' (f e) := by
  cases hm : m s with
  | ok r | error e => simp [wp, mapError, hm]

lemma wp_true : wp m s (fun _ _ => True) fun _ => True := ⟨fun _ _ _ => trivial, fun _ _ => trivial⟩

end Prog
