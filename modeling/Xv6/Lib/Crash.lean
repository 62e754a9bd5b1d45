import Mathlib.Tactic

/-!
# Programs over a disk that can crash

A disk is a function from addresses to blocks and single-block writes are atomic, so the only
states a crash can expose are the ones between two writes. `DiskProg` is the syntax of a program
that reads and writes blocks; `run` is its complete execution and `crash k` the disk left behind
when power is lost after `k` writes.

* `crash_bind_le` and `crash_bind_ge` locate a crash point in a sequence of two programs.
* `CrashSpec P p Q C` is the triple used in proofs: from a disk satisfying `P` the program ends in
  `Q`, and every crash point on the way satisfies `C`. It has one rule for each construct and a
  loop rule.
* `Recovers` is recovery under repeated failure: any number of runs cut short, then one that
  completes. `Recovers.of_crashSpec` is its rule: a crash invariant that recovery itself keeps.
-/

/-- A program that reads and writes the blocks of a disk. -/
inductive DiskProg (A V α : Type) : Type where
  | ret (a : α)
  | read (b : A) (k : V → DiskProg A V α)
  | write (b : A) (v : V) (k : DiskProg A V α)

namespace DiskProg

variable {A V α β : Type}

/-- Sequential composition. -/
def bind : DiskProg A V α → (α → DiskProg A V β) → DiskProg A V β
  | ret a, f => f a
  | read b k, f => read b fun v => (k v).bind f
  | write b v k, f => write b v (k.bind f)

instance : Monad (DiskProg A V) where
  pure := ret
  bind := bind

@[simp] lemma pure_eq (a : α) : (pure a : DiskProg A V α) = ret a := rfl

@[simp] lemma bind_eq (p : DiskProg A V α) (f : α → DiskProg A V β) : p >>= f = p.bind f := rfl

/-- The loop `for (i = 0; i < n; i++) body(i)`. -/
def forUpto : ℕ → (ℕ → DiskProg A V Unit) → DiskProg A V Unit
  | 0, _ => ret ()
  | n + 1, body => (forUpto n body).bind fun _ => body n

section Semantics

variable [DecidableEq A] {body : ℕ → DiskProg A V Unit}

/-- Complete execution: the result and the final disk. -/
def run : DiskProg A V α → (A → V) → α × (A → V)
  | ret a, d => (a, d)
  | read b k, d => run (k (d b)) d
  | write b v k, d => run k (Function.update d b v)

/-- The disk after the first `n` writes, power being lost there. -/
def crash : ℕ → DiskProg A V α → (A → V) → A → V
  | _, ret _, d => d
  | n, read b k, d => crash n (k (d b)) d
  | 0, write _ _ _, d => d
  | n + 1, write b v k, d => crash n k (Function.update d b v)

/-- How many writes a complete execution issues. -/
def writes : DiskProg A V α → (A → V) → ℕ
  | ret _, _ => 0
  | read b k, d => writes (k (d b)) d
  | write b v k, d => writes k (Function.update d b v) + 1

@[simp] lemma run_ret (a : α) (d : A → V) : (ret a : DiskProg A V α).run d = (a, d) := rfl

@[simp] lemma run_read (b : A) (k : V → DiskProg A V α) (d : A → V) :
    (read b k).run d = (k (d b)).run d := rfl

@[simp] lemma run_write (b : A) (v : V) (k : DiskProg A V α) (d : A → V) :
    (write b v k).run d = k.run (Function.update d b v) := rfl

@[simp] lemma crash_ret (n : ℕ) (a : α) (d : A → V) : crash n (ret a) d = d := by
  cases n <;> rfl

@[simp] lemma crash_read (n : ℕ) (b : A) (k : V → DiskProg A V α) (d : A → V) :
    crash n (read b k) d = crash n (k (d b)) d := by
  cases n <;> rfl

@[simp] lemma crash_write_succ (n : ℕ) (b : A) (v : V) (k : DiskProg A V α) (d : A → V) :
    crash (n + 1) (write b v k) d = crash n k (Function.update d b v) := rfl

section

variable (p : DiskProg A V α) (f : α → DiskProg A V β) (d : A → V)
include p f d

lemma run_bind : (p.bind f).run d = (f (p.run d).1).run (p.run d).2 := by
  induction p generalizing d with
  | ret a => rfl
  | read b k ih => exact ih (d b) d
  | write b v k ih => exact ih _

lemma writes_bind : (p.bind f).writes d = p.writes d + (f (p.run d).1).writes (p.run d).2 := by
  induction p generalizing d with
  | ret a => simp [bind, writes]
  | read b k ih => exact ih (d b) d
  | write b v k ih =>
    simp only [bind, writes, run_write]
    rw [ih]
    omega

end

lemma writes_forUpto (h : ∀ i d, (body i).writes d = 1) :
    ∀ (n : ℕ) (d : A → V), (forUpto n body).writes d = n
  | 0, _ => rfl
  | n + 1, d => by rw [forUpto, writes_bind, writes_forUpto h n d, h]

/-- A crash before the second program has written anything is a crash of the first. -/
lemma crash_bind_le (p : DiskProg A V α) (f : α → DiskProg A V β) {n : ℕ} (d : A → V)
    (h : n ≤ p.writes d) : crash n (p.bind f) d = crash n p d := by
  induction p generalizing d n with
  | ret a =>
    obtain rfl : n = 0 := by simpa [writes] using h
    simp only [bind, crash_ret]
    -- the continuation may still read before its first write
    generalize f a = q
    induction q with
    | ret _ => simp
    | read b k ih => simpa using ih (d b)
    | write b v k _ => rfl
  | read b k ih =>
    simp only [bind, crash_read]
    exact ih (d b) d h
  | write b v k ih =>
    cases n with
    | zero => rfl
    | succ m =>
      simp only [writes] at h
      simp only [bind, crash_write_succ]
      exact ih _ (by omega)

/-- A crash after the first program is done is a crash of the second. -/
lemma crash_bind_ge (p : DiskProg A V α) (f : α → DiskProg A V β) {n : ℕ} (d : A → V)
    (h : p.writes d ≤ n) :
    crash n (p.bind f) d = crash (n - p.writes d) (f (p.run d).1) (p.run d).2 := by
  induction p generalizing d n with
  | ret a => simp [bind, writes]
  | read b k ih =>
    simp only [bind, crash_read]
    exact ih (d b) d h
  | write b v k ih =>
    simp only [writes] at h
    obtain ⟨m, rfl⟩ : ∃ m, n = m + 1 := ⟨n - 1, by omega⟩
    simp only [bind, crash_write_succ, writes, run_write]
    rw [ih _ (by omega), Nat.add_sub_add_right]

/-! ## Crash triples -/

/-- From every disk in `P` the program ends in `Q`, and every crash point satisfies `C`. -/
def CrashSpec (P : (A → V) → Prop) (p : DiskProg A V α) (Q : α → (A → V) → Prop)
    (C : (A → V) → Prop) : Prop :=
  ∀ d, P d → Q (p.run d).1 (p.run d).2 ∧ ∀ n, C (crash n p d)

variable {P P' C C' : (A → V) → Prop} {Q Q' : α → (A → V) → Prop} {p : DiskProg A V α}

namespace CrashSpec

lemma ret {a : α} (hQ : ∀ d, P d → Q a d) (hC : ∀ d, P d → C d) :
    CrashSpec P (DiskProg.ret a) Q C := fun d hd => ⟨hQ d hd, fun n => by simpa using hC d hd⟩

lemma read {b : A} {k : V → DiskProg A V α}
    (h : ∀ v, CrashSpec (fun d => P d ∧ d b = v) (k v) Q C) :
    CrashSpec P (DiskProg.read b k) Q C := by
  intro d hd
  have hk := h (d b) d ⟨hd, rfl⟩
  exact ⟨hk.1, fun n => by simpa using hk.2 n⟩

lemma write {b : A} {v : V} {k : DiskProg A V α} (hC : ∀ d, P d → C d)
    (hP : ∀ d, P d → P' (Function.update d b v)) (hk : CrashSpec P' k Q C) :
    CrashSpec P (DiskProg.write b v k) Q C := by
  intro d hd
  have h := hk _ (hP d hd)
  refine ⟨h.1, fun n => ?_⟩
  cases n with
  | zero => exact hC d hd
  | succ m => exact h.2 m

lemma bind {f : α → DiskProg A V β} {R : β → (A → V) → Prop}
    (hp : CrashSpec P p Q C) (hf : ∀ a, CrashSpec (Q a) (f a) R C) :
    CrashSpec P (p.bind f) R C := by
  intro d hd
  obtain ⟨hq, hc⟩ := hp d hd
  obtain ⟨hr, hc'⟩ := hf _ _ hq
  refine ⟨by rw [run_bind]; exact hr, fun n => ?_⟩
  rcases Nat.le_total n (p.writes d) with h | h
  · rw [crash_bind_le p f d h]; exact hc n
  · rw [crash_bind_ge p f d h]; exact hc' _

lemma conseq (h : CrashSpec P p Q C) (hP : ∀ d, P' d → P d)
    (hQ : ∀ a d, Q a d → Q' a d) (hC : ∀ d, C d → C' d) : CrashSpec P' p Q' C' :=
  fun d hd => ⟨hQ _ _ (h d (hP d hd)).1, fun n => hC _ ((h d (hP d hd)).2 n)⟩

/-- Loop rule: the invariant is indexed by the number of iterations done. -/
lemma forUpto {I : ℕ → (A → V) → Prop} :
    ∀ {n : ℕ}, (∀ d, I 0 d → C d) → (∀ i < n, CrashSpec (I i) (body i) (fun _ => I (i + 1)) C) →
      CrashSpec (I 0) (DiskProg.forUpto n body) (fun _ => I n) C
  | 0, hC, _ => CrashSpec.ret (fun _ h => h) hC
  | n + 1, hC, h =>
    (forUpto hC fun i hi => h i (by omega)).bind fun _ => h n (by omega)

end CrashSpec

/-! ## Recovery under repeated crashes -/

/-- Recovery is cut short any number of times before one run of it completes. -/
inductive Recovers (r : DiskProg A V Unit) : (A → V) → (A → V) → Prop where
  | done (d : A → V) : Recovers r d (r.run d).2
  | crash (n : ℕ) {d d' : A → V} : Recovers r (crash n r d) d' → Recovers r d d'

/-- A crash invariant that recovery keeps holds, with recovery's postcondition, when recovery
first completes. -/
lemma Recovers.of_crashSpec {r : DiskProg A V Unit} {Q : Unit → (A → V) → Prop}
    (h : CrashSpec C r Q C) {d d' : A → V} (hr : Recovers r d d') (hd : C d) : Q () d' := by
  induction hr with
  | done d => exact (h d hd).1
  | crash n _ ih => exact ih ((h _ hd).2 n)

end Semantics

end DiskProg
