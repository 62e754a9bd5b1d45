import Xv6.Lib.Steps
import Xv6.Mem.Kalloc

/-!
# The allocator under interleaving

Any number of threads call `kalloc`, `kfree` and `kaddref` on any CPUs. Popping a page, setting its
count, decrementing it and pushing the page back are separate critical sections, so between two of
them a page is on no list and has no reference: it is *in transit* inside one call.

`refs pa` counts the references to `pa` that have been handed out and that no `kfree` call has been
given yet; callers may free or duplicate a page only while one is left.

The invariant is an equation for each page. Its `refcnt` is `refs` plus the number of `kfree` calls
that have still to decrement it, and the number of its occurrences on the free lists plus the number
of calls it is in transit in is one if `refcnt` is zero, and none otherwise.
-/

namespace Xv6

open Function CountIs Kmem

/-- Where a thread is inside the allocator. `setRef none` is a `kalloc` that found no page. -/
inductive KThread where
  | idle
  | steal (todo : List (Fin NCPU))
  | setRef (r : Option ℕ)
  | freeDec (pa : ℕ)
  | freePush (pa : ℕ)
  deriving DecidableEq

/-- The page is in the hands of the thread: popped and not yet returned, or unreferenced and not yet
pushed. -/
def KThread.Holds (c : KThread) (pa : ℕ) : Prop := c = .setRef (some pa) ∨ c = .freePush pa

/-- The allocator, its threads, and the references they have. -/
structure KSys (T : Type) where
  kmem : Kmem
  thread : T → KThread
  refs : ℕ → ℕ

/-- The next section of thread `t`. -/
inductive KAct (T : Type) where
  | kalloc (t : T)
  | steal (t : T)
  | setRef (t : T)
  | kfree (t : T) (pa : ℕ)
  | freeDec (t : T)
  | freePush (t : T)
  | kaddref (t : T) (pa : ℕ)

namespace KSys

variable {T : Type} [DecidableEq T]

/-- One section of `kalloc` that tries to pop a page; `todo` are the CPUs still to be tried. -/
def pop (s : KSys T) (t : T) (cpu : Fin NCPU) (todo : List (Fin NCPU)) : KSys T :=
  match s.kmem.popFree cpu with
  | (some r, k) => { s with kmem := k, thread := update s.thread t (.setRef (some r)) }
  | (none, k) => { s with kmem := k, thread := update s.thread t (.steal todo) }

/-- One section of one call. -/
def step (s : KSys T) : KAct T → Outcome KPanic (KSys T)
  | .kalloc t =>
    match s.thread t with
    | .idle =>
      let (cpu, k) := s.kmem.cpuid
      .next (pop { s with kmem := k } t cpu (victims cpu))
    | _ => .disabled
  | .steal t =>
    match s.thread t with
    | .steal [] => .next { s with thread := update s.thread t (.setRef none) }
    | .steal (c :: cs) => .next (s.pop t c cs)
    | _ => .disabled
  | .setRef t =>
    match s.thread t with
    | .setRef none =>
      .next { s with
        kmem := s.kmem.setRef 0
        thread := update s.thread t .idle }
    | .setRef (some r) =>
      .next { s with
        kmem := (s.kmem.memset r 5).setRef r
        thread := update s.thread t .idle
        refs := update s.refs r (s.refs r + 1) }
    | _ => .disabled
  | .kfree t pa =>
    match s.thread t with
    | .idle =>
      if 0 < s.refs pa then
        if ¬ s.kmem.IsPage pa then .panic .kfreeAddr
        else .next { s with
          kmem := s.kmem.memset pa 1
          thread := update s.thread t (.freeDec pa)
          refs := update s.refs pa (s.refs pa - 1) }
      else .disabled
    | _ => .disabled
  | .freeDec t =>
    match s.thread t with
    | .freeDec pa =>
      match s.kmem.decRef pa with
      | .error e => .panic e
      | .ok (last, k) =>
        .next { s with
          kmem := k
          thread := update s.thread t (if last then .freePush pa else .idle) }
    | _ => .disabled
  | .freePush t =>
    match s.thread t with
    | .freePush pa =>
      let (cpu, k) := s.kmem.cpuid
      .next { s with
        kmem := k.pushFree cpu pa
        thread := update s.thread t .idle }
    | _ => .disabled
  | .kaddref t pa =>
    match s.thread t with
    | .idle =>
      if 0 < s.refs pa then
        .next { s with
          kmem := s.kmem.kaddref pa
          refs := update s.refs pa (s.refs pa + 1) }
      else .disabled
    | _ => .disabled

/-- No thread is inside the allocator, the lists are duplicate-free and pairwise disjoint, and a
page has as many references as its count says, none exactly when it is listed. -/
structure Initial (s : KSys T) : Prop where
  kend_ge : KERNBASE ≤ s.kmem.kend
  idle : ∀ t, s.thread t = .idle
  nodup : ∀ c, (s.kmem.freelist c).Nodup
  disjoint : ∀ c c' pa, pa ∈ s.kmem.freelist c → pa ∈ s.kmem.freelist c' → c = c'
  page : ∀ pa, s.kmem.Listed pa ∨ 0 < s.refs pa → s.kmem.IsPage pa
  refcnt_eq : ∀ pa, s.kmem.IsPage pa → s.kmem.refcnt (refIdx pa) = s.refs pa
  refcnt_zero : ∀ pa, s.kmem.IsPage pa → (s.kmem.refcnt (refIdx pa) = 0 ↔ s.kmem.Listed pa)

/-! ## The invariant -/

/-- Where the page `pa` is, and what its count says. -/
structure PageInv (s : KSys T) (pa : ℕ) : Prop where
  refcnt_eq : ∃ n, CountIs (fun t => s.thread t = .freeDec pa) n ∧
    s.kmem.refcnt (refIdx pa) = s.refs pa + n
  place : ∃ n, CountIs (fun t => (s.thread t).Holds pa) n ∧
    (s.kmem.refcnt (refIdx pa) = 0 ∧ s.kmem.listed pa + n = 1 ∨
      0 < s.kmem.refcnt (refIdx pa) ∧ s.kmem.listed pa + n = 0)

/-- The invariant of every interleaving. -/
structure Inv (s : KSys T) : Prop where
  kend_ge : KERNBASE ≤ s.kmem.kend
  page : ∀ pa, s.kmem.IsPage pa → s.PageInv pa
  /-- No other address ever enters the allocator. -/
  stray : ∀ pa, ¬ s.kmem.IsPage pa → s.kmem.listed pa = 0 ∧ s.refs pa = 0 ∧
    ∀ t, s.thread t ≠ .freeDec pa ∧ ¬ (s.thread t).Holds pa

/-- The two states do not differ in what the invariant says about `pa`. -/
structure SameAt (s s' : KSys T) (pa : ℕ) : Prop where
  freeDec : ∀ t, s'.thread t = .freeDec pa ↔ s.thread t = .freeDec pa
  holds : ∀ t, (s'.thread t).Holds pa ↔ (s.thread t).Holds pa
  refs : s'.refs pa = s.refs pa
  refcnt : s.kmem.IsPage pa → s'.kmem.refcnt (refIdx pa) = s.kmem.refcnt (refIdx pa)
  listed : s'.kmem.listed pa = s.kmem.listed pa

variable {s s' : KSys T}

variable {pa : ℕ} {t : T} {k : Kmem} {c : KThread}

lemma PageInv.of_sameAt (h : s.PageInv pa) (hp : s.kmem.IsPage pa)
    (hs : SameAt s s' pa) : s'.PageInv pa := by
  obtain ⟨n, hn, hcnt⟩ := h.refcnt_eq
  obtain ⟨m, hm, hplace⟩ := h.place
  refine ⟨⟨n, hn.congr hs.freeDec, ?_⟩, ⟨m, hm.congr hs.holds, ?_⟩⟩
  · rw [hs.refcnt hp, hs.refs, hcnt]
  · rw [hs.refcnt hp, hs.listed]
    exact hplace

/-- A step keeps the invariant if it keeps it for the pages it touches. -/
lemma Inv.of_sameAt (h : s.Inv) (hk : s'.kmem.kend = s.kmem.kend)
    (hs : ∀ pa, SameAt s s' pa ∨ s.kmem.IsPage pa ∧ s'.PageInv pa) : s'.Inv := by
  have hpage : ∀ pa, s'.kmem.IsPage pa ↔ s.kmem.IsPage pa := by
    intro pa
    simp only [Kmem.IsPage, hk]
  refine ⟨hk ▸ h.kend_ge, ?_, ?_⟩
  · intro pa hp
    rcases hs pa with hsame | ⟨-, hinv⟩
    · exact (h.page pa ((hpage pa).mp hp)).of_sameAt ((hpage pa).mp hp) hsame
    · exact hinv
  · intro pa hp
    rcases hs pa with hsame | ⟨hp', -⟩
    · obtain ⟨hl, hr, ht⟩ := h.stray pa (mt (hpage pa).mpr hp)
      refine ⟨hsame.listed.trans hl, hsame.refs.trans hr, fun t => ?_⟩
      exact ⟨mt (hsame.freeDec t).mp (ht t).1, mt (hsame.holds t).mp (ht t).2⟩
    · exact absurd ((hpage pa).mpr hp') hp

lemma Inv.isPage (h : s.Inv) (hpa : 0 < s.kmem.listed pa ∨ 0 < s.refs pa ∨
    ∃ t, s.thread t = .freeDec pa ∨ (s.thread t).Holds pa) : s.kmem.IsPage pa := by
  by_contra hp
  obtain ⟨hl, hr, ht⟩ := h.stray pa hp
  rcases hpa with hpa | hpa | ⟨t, hpa | hpa⟩
  · omega
  · omega
  · exact (ht t).1 hpa
  · exact (ht t).2 hpa

/-! ## One section at a time -/

/-- Thread `t` moves to `c`, and nothing else of what the invariant says about `pa` changes. -/
lemma sameAt_update {rf : ℕ → ℕ} (hd : c = .freeDec pa ↔ s.thread t = .freeDec pa)
    (hh : c.Holds pa ↔ (s.thread t).Holds pa) (hr : rf pa = s.refs pa)
    (hcnt : s.kmem.IsPage pa → k.refcnt (refIdx pa) = s.kmem.refcnt (refIdx pa))
    (hl : k.listed pa = s.kmem.listed pa) :
    SameAt s ⟨k, update s.thread t c, rf⟩ pa :=
  ⟨iff_update (· = KThread.freeDec pa) hd, iff_update (KThread.Holds · pa) hh, hr, hcnt, hl⟩

lemma Inv.cpuid (h : s.Inv) : Inv { s with kmem := s.kmem.cpuid.2 } :=
  h.of_sameAt rfl fun _ => .inl ⟨fun _ => Iff.rfl, fun _ => Iff.rfl, rfl, fun _ => rfl, rfl⟩

lemma Inv.setThread (h : s.Inv) (hc : ∀ pa, c ≠ .freeDec pa ∧ ¬ c.Holds pa)
    (ht : ∀ pa, s.thread t ≠ .freeDec pa ∧ ¬ (s.thread t).Holds pa) :
    Inv { s with thread := update s.thread t c } := by
  refine h.of_sameAt rfl ?_
  intro pa
  refine .inl (sameAt_update ?_ ?_ rfl (fun _ => rfl) rfl)
  · simp [(hc pa).1, (ht pa).1]
  · simp [(hc pa).2, (ht pa).2]

lemma Inv.pop (h : s.Inv) (ht : ∀ pa, s.thread t ≠ .freeDec pa ∧ ¬ (s.thread t).Holds pa)
    (cpu : Fin NCPU) (todo : List (Fin NCPU)) : (s.pop t cpu todo).Inv := by
  rcases hl : s.kmem.freelist cpu with _ | ⟨r, rest⟩
  · have hpop : s.pop t cpu todo = { s with thread := update s.thread t (.steal todo) } := by
      simp [KSys.pop, popFree, hl]
    rw [hpop]
    exact h.setThread (by simp [KThread.Holds]) ht
  · have hpop : s.pop t cpu todo = ⟨s.kmem.setFreelist cpu rest,
        update s.thread t (.setRef (some r)), s.refs⟩ := by
      simp [KSys.pop, popFree, hl]
    rw [hpop]
    have hlist := listed_update s.kmem cpu rest
    simp only [hl, List.count_cons, beq_iff_eq] at hlist
    refine h.of_sameAt rfl ?_
    intro pa
    by_cases hpa : r = pa
    · subst hpa
      -- the page leaves the list and is in the hands of `t`
      have hlr := hlist r
      simp only [if_true] at hlr
      have hp : s.kmem.IsPage r := h.isPage (.inl (by omega))
      obtain ⟨n, hn, hcnt⟩ := (h.page r hp).refcnt_eq
      obtain ⟨m, hm, hplace⟩ := (h.page r hp).place
      refine .inr ⟨hp, ⟨n, ?_, hcnt⟩, m + 1, ?_, ?_⟩
      · exact update_congr (· = KThread.freeDec r) hn (by simp [(ht r).1])
      · exact update_insert (KThread.Holds · r) hm (ht r).2 (.inl rfl)
      · simp only [setFreelist_refcnt]
        omega
    · refine .inl (sameAt_update ?_ ?_ rfl (fun _ => rfl) ?_)
      · simp [(ht pa).1]
      · refine iff_of_false ?_ (ht pa).2
        simp [KThread.Holds, hpa]
      · have := hlist pa
        simp only [hpa, if_false] at this
        omega

lemma Inv.setRef_none (h : s.Inv) (ht : s.thread t = .setRef none) :
    Inv { s with kmem := s.kmem.setRef 0, thread := update s.thread t .idle } := by
  refine h.of_sameAt rfl ?_
  intro pa
  refine .inl (sameAt_update ?_ ?_ rfl ?_ rfl)
  · simp [ht]
  · simp [KThread.Holds, ht]
  · intro hp
    simp only [setRef]
    rw [update_of_ne (refIdx_null_ne h.kend_ge hp).symm]

/-- A page in the hands of a thread is on no list, in no other thread's hands, and unreferenced. -/
lemma PageInv.transit (h : s.PageInv pa) (ht : (s.thread t).Holds pa) :
    s.kmem.listed pa = 0 ∧ CountIs (fun t => (s.thread t).Holds pa) 1 ∧ s.refs pa = 0 ∧
      CountIs (fun t => s.thread t = .freeDec pa) 0 ∧ s.kmem.refcnt (refIdx pa) = 0 := by
  obtain ⟨n, hn, hcnt⟩ := h.refcnt_eq
  obtain ⟨m, hm, hplace⟩ := h.place
  have hpos := hm.pos ht
  obtain rfl : m = 1 := by omega
  obtain rfl : n = 0 := by omega
  exact ⟨by omega, hm, by omega, hn, by omega⟩

section

variable (h : s.Inv)
include h

lemma Inv.setRef_some {r : ℕ} (ht : s.thread t = .setRef (some r)) : Inv { s with
      kmem := (s.kmem.memset r 5).setRef r
      thread := update s.thread t .idle
      refs := update s.refs r (s.refs r + 1) } := by
  have hold : (s.thread t).Holds r := .inl ht
  have hp : s.kmem.IsPage r := h.isPage (.inr (.inr ⟨t, .inr hold⟩))
  refine h.of_sameAt rfl ?_
  intro pa
  by_cases hpa : pa = r
  · subst hpa
    obtain ⟨hl, hone, hrefs, hzero, -⟩ := (h.page pa hp).transit hold
    obtain ⟨m, hm, hm0⟩ := update_erase (KThread.Holds · pa) (b := .idle) hone hold
      (by simp [KThread.Holds])
    refine .inr ⟨hp, ⟨0, ?_, ?_⟩, m, hm0, ?_⟩
    · exact update_congr (· = KThread.freeDec pa) hzero (by simp [ht])
    · simp [setRef, hrefs]
    · have hl' : ((s.kmem.memset pa 5).setRef pa).listed pa = 0 := hl
      have hcnt : ((s.kmem.memset pa 5).setRef pa).refcnt (refIdx pa) = 1 := update_self ..
      simp only [hl', hcnt]
      omega
  · refine .inl (sameAt_update ?_ ?_ ?_ ?_ rfl)
    · simp [ht]
    · simp [KThread.Holds, ht, Ne.symm hpa]
    · rw [update_of_ne hpa]
    · intro hp'
      simp only [setRef, memset]
      rw [update_of_ne (mt (refIdx_inj h.kend_ge hp' hp) hpa)]

lemma Inv.kfree (ht : s.thread t = .idle) (hpa : 0 < s.refs pa) : Inv { s with
      kmem := s.kmem.memset pa 1
      thread := update s.thread t (.freeDec pa)
      refs := update s.refs pa (s.refs pa - 1) } := by
  have hp : s.kmem.IsPage pa := h.isPage (.inr (.inl hpa))
  refine h.of_sameAt rfl ?_
  intro q
  by_cases hq : q = pa
  · subst hq
    obtain ⟨n, hn, hcnt⟩ := (h.page q hp).refcnt_eq
    obtain ⟨m, hm, hplace⟩ := (h.page q hp).place
    refine .inr ⟨hp, ⟨n + 1, ?_, ?_⟩, m, ?_, hplace⟩
    · exact update_insert (· = KThread.freeDec q) hn (by simp [ht]) rfl
    · simp only [memset, update_self]
      omega
    · exact update_congr (KThread.Holds · q) hm (by simp [KThread.Holds, ht])
  · refine .inl (sameAt_update ?_ ?_ ?_ (fun _ => rfl) rfl)
    · simp [ht, Ne.symm hq]
    · simp [KThread.Holds, ht]
    · rw [update_of_ne hq]

lemma Inv.kaddref (hpa : 0 < s.refs pa) : Inv { s with
      kmem := s.kmem.kaddref pa
      refs := update s.refs pa (s.refs pa + 1) } := by
  have hp : s.kmem.IsPage pa := h.isPage (.inr (.inl hpa))
  refine h.of_sameAt rfl ?_
  intro q
  by_cases hq : q = pa
  · subst hq
    obtain ⟨n, hn, hcnt⟩ := (h.page q hp).refcnt_eq
    obtain ⟨m, hm, hplace⟩ := (h.page q hp).place
    refine .inr ⟨hp, ⟨n, hn, ?_⟩, m, hm, ?_⟩
    · simp only [kaddref, update_self]
      push_cast
      omega
    · have hl : (s.kmem.kaddref q).listed q = s.kmem.listed q := rfl
      simp only [hl]
      simp only [kaddref, update_self]
      omega
  · refine .inl ⟨fun _ => Iff.rfl, fun _ => Iff.rfl, ?_, ?_, rfl⟩
    · simp only
      rw [update_of_ne hq]
    · intro hq'
      simp only [Kmem.kaddref]
      rw [update_of_ne (mt (Kmem.refIdx_inj h.kend_ge hq' hp) hq)]

lemma Inv.freeDec_pos (ht : s.thread t = .freeDec pa) : 0 < s.kmem.refcnt (refIdx pa) := by
  obtain ⟨n, hn, hcnt⟩ := (h.page pa (h.isPage (.inr (.inr ⟨t, .inl ht⟩)))).refcnt_eq
  have := hn.pos ht
  omega

lemma Inv.freeDec (ht : s.thread t = .freeDec pa) {last : Bool}
    (hk : s.kmem.decRef pa = .ok (last, k)) :
    Inv { s with
      kmem := k
      thread := update s.thread t (if last then .freePush pa else .idle) } := by
  have hpos := h.freeDec_pos ht
  have hp : s.kmem.IsPage pa := h.isPage (.inr (.inr ⟨t, .inl ht⟩))
  simp only [decRef, not_le.mpr hpos, if_false, update_self, Except.ok.injEq,
    Prod.mk.injEq] at hk
  obtain ⟨rfl, rfl⟩ := hk
  refine h.of_sameAt rfl ?_
  intro q
  by_cases hq : q = pa
  · subst hq
    obtain ⟨n, hn, hcnt⟩ := (h.page q hp).refcnt_eq
    obtain ⟨m, hm, hplace⟩ := (h.page q hp).place
    obtain ⟨n', rfl, hn'⟩ := update_erase (· = KThread.freeDec q)
      (b := if decide (¬ s.kmem.refcnt (refIdx q) - 1 > 0) then .freePush q else .idle) hn ht
      (by split <;> simp)
    refine .inr ⟨hp, ⟨n', hn', ?_⟩, ?_⟩
    · simp only [update_self]
      push_cast at hcnt
      omega
    · simp only [update_self]
      by_cases hlast : s.kmem.refcnt (refIdx q) - 1 > 0
      · refine ⟨m, ?_, ?_⟩
        · rw [if_neg (by simpa using hlast)]
          exact update_congr (KThread.Holds · q) hm (by simp [KThread.Holds, ht])
        · simp only [listed] at hplace ⊢
          omega
      · refine ⟨m + 1, ?_, ?_⟩
        · rw [if_pos (by simpa using hlast)]
          exact update_insert (KThread.Holds · q) hm (by simp [KThread.Holds, ht]) (.inr rfl)
        · simp only [listed] at hplace ⊢
          omega
  · refine .inl (sameAt_update ?_ ?_ rfl ?_ rfl)
    · simp only [ht, KThread.freeDec.injEq, Ne.symm hq, iff_false]
      split <;> simp
    · simp only [ht, KThread.Holds]
      split <;> simp [Ne.symm hq]
    · intro hq'
      simp only
      rw [update_of_ne (mt (refIdx_inj h.kend_ge hq' hp) hq)]

lemma Inv.freePush (ht : s.thread t = .freePush pa) (cpu : Fin NCPU) : Inv { s with
      kmem := s.kmem.pushFree cpu pa
      thread := update s.thread t .idle } := by
  have hold : (s.thread t).Holds pa := .inr ht
  have hp : s.kmem.IsPage pa := h.isPage (.inr (.inr ⟨t, .inr hold⟩))
  have hlist := listed_update s.kmem cpu (pa :: s.kmem.freelist cpu)
  simp only [List.count_cons, beq_iff_eq] at hlist
  refine h.of_sameAt rfl ?_
  intro q
  by_cases hq : pa = q
  · subst hq
    obtain ⟨hl, hone, hrefs, hzero, hcnt⟩ := (h.page pa hp).transit hold
    obtain ⟨m, hm, hm0⟩ := update_erase (KThread.Holds · pa) (b := .idle) hone hold
      (by simp [KThread.Holds])
    refine .inr ⟨hp, ⟨0, ?_, ?_⟩, m, hm0, ?_⟩
    · exact update_congr (· = KThread.freeDec pa) hzero (by simp [ht])
    · simp [pushFree, hrefs, hcnt]
    · have := hlist pa
      simp only [if_true] at this
      simp only [pushFree, setFreelist_refcnt]
      omega
  · refine .inl (sameAt_update ?_ ?_ rfl (fun _ => rfl) ?_)
    · simp [ht]
    · simp [KThread.Holds, ht, hq]
    · have := hlist q
      simp only [hq, if_false] at this
      simp only [pushFree]
      omega

end

/-! ## Every interleaving -/

lemma Initial.inv (h : s.Initial) : s.Inv := by
  have hnone : ∀ pa t, s.thread t ≠ .freeDec pa ∧ ¬ (s.thread t).Holds pa := by
    intro pa t
    simp [h.idle t, KThread.Holds]
  refine ⟨h.kend_ge, ?_, ?_⟩
  · intro pa hp
    refine ⟨⟨0, zero_iff.mpr fun t => (hnone pa t).1, ?_⟩,
      0, zero_iff.mpr fun t => (hnone pa t).2, ?_⟩
    · simpa using h.refcnt_eq pa hp
    · by_cases hl : s.kmem.Listed pa
      · refine .inl ⟨(h.refcnt_zero pa hp).mpr hl, ?_⟩
        rw [Nat.add_zero, listed_eq_one_iff]
        obtain ⟨c, hc⟩ := hl
        refine ⟨c, List.count_eq_one_of_mem (h.nodup c) hc, fun c' hc' hmem => ?_⟩
        exact hc' (h.disjoint c' c pa hmem hc)
      · have hne := mt (h.refcnt_zero pa hp).mp hl
        have heq := h.refcnt_eq pa hp
        exact .inr ⟨by omega, by simpa using listed_eq_zero_iff.mpr hl⟩
  · intro pa hp
    have hstray := mt (h.page pa) hp
    rw [not_or] at hstray
    exact ⟨listed_eq_zero_iff.mpr hstray.1, by omega, hnone pa⟩

lemma Inv.step (h : s.Inv) {a : KAct T} (hs : s.step a = .next s') : s'.Inv := by
  cases a with
  | kalloc t =>
    simp only [KSys.step] at hs
    split at hs
    · next ht =>
      cases hs
      exact h.cpuid.pop (by simp [ht, KThread.Holds]) _ _
    · cases hs
  | steal t =>
    simp only [KSys.step] at hs
    split at hs
    · next ht =>
      cases hs
      exact h.setThread (by simp [KThread.Holds]) (by simp [ht, KThread.Holds])
    · next c cs ht =>
      cases hs
      exact h.pop (by simp [ht, KThread.Holds]) c cs
    · cases hs
  | setRef t =>
    simp only [KSys.step] at hs
    split at hs
    · next ht =>
      cases hs
      exact h.setRef_none ht
    · next r ht =>
      cases hs
      exact h.setRef_some ht
    · cases hs
  | kfree t pa =>
    simp only [KSys.step] at hs
    split at hs
    · next ht =>
      split at hs
      · next hpa =>
        split at hs
        · cases hs
        · cases hs
          exact h.kfree ht hpa
      · cases hs
    · cases hs
  | freeDec t =>
    simp only [KSys.step] at hs
    split at hs
    · next pa ht =>
      split at hs
      · cases hs
      · next last k hk =>
        cases hs
        exact h.freeDec ht hk
    · cases hs
  | freePush t =>
    simp only [KSys.step] at hs
    split at hs
    · next pa ht =>
      cases hs
      exact h.cpuid.freePush ht _
    · cases hs
  | kaddref t pa =>
    simp only [KSys.step] at hs
    split at hs
    · split at hs
      · next hpa =>
        cases hs
        exact h.kaddref hpa
      · cases hs
    · cases hs

lemma Inv.no_panic (h : s.Inv) (a : KAct T) (e : KPanic) : s.step a ≠ .panic e := by
  intro hs
  cases a with
  | kfree t pa =>
    simp only [KSys.step] at hs
    split at hs
    · split at hs
      · next hpa =>
        rw [if_neg (not_not.mpr (h.isPage (.inr (.inl hpa))))] at hs
        cases hs
      · cases hs
    · cases hs
  | freeDec t =>
    simp only [KSys.step] at hs
    split at hs
    · next pa ht =>
      simp only [decRef, not_le.mpr (h.freeDec_pos ht), if_false] at hs
      cases hs
    · cases hs
  | _ =>
    simp only [KSys.step] at hs
    split at hs <;> first | cases hs | (split at hs <;> cases hs)

/-! ## A call that is not interrupted -/

/-- A `kalloc` of thread `t` that nothing has interrupted, started with the lists `l`: the lists it
has passed are empty. -/
def Searching (t : T) (l : Fin NCPU → List ℕ) (s : KSys T) : Prop :=
  (∃ todo, s.thread t = .steal todo ∧ s.kmem.freelist = l ∧ ∀ c, c ∉ todo → l c = []) ∨
    (∃ r, s.thread t = .setRef (some r)) ∨ (s.thread t = .setRef none ∧ ∀ c, l c = [])

lemma Searching.step {l : Fin NCPU → List ℕ} (h : s.Searching t l)
    (hs : s.step (.steal t) = .next s') : s'.Searching t l := by
  rcases h with ⟨todo, ht, hl, hnil⟩ | ⟨r, ht⟩ | ⟨ht, hnil⟩
  · cases todo with
    | nil =>
      simp only [KSys.step, ht] at hs
      cases hs
      exact .inr (.inr ⟨update_self .., fun c => hnil c List.not_mem_nil⟩)
    | cons c cs =>
      simp only [KSys.step, ht, KSys.pop, popFree] at hs
      cases hc : s.kmem.freelist c with
      | nil =>
        simp only [hc] at hs
        cases hs
        refine .inl ⟨cs, update_self .., hl, fun c' hc' => ?_⟩
        by_cases heq : c' = c
        · rw [heq, ← hl, hc]
        · exact hnil c' (by simp [heq, hc'])
      | cons r rest =>
        simp only [hc] at hs
        cases hs
        exact .inr (.inl ⟨r, update_self ..⟩)
  · simp only [KSys.step, ht] at hs
    cases hs
  · simp only [KSys.step, ht] at hs
    cases hs

lemma Searching.start (hs : s.step (.kalloc t) = .next s') : s'.Searching t s.kmem.freelist := by
  simp only [KSys.step] at hs
  split at hs
  · simp only [KSys.pop, popFree, cpuid] at hs
    cases hc : s.kmem.freelist (s.kmem.sched s.kmem.tick) with
    | nil =>
      simp only [hc] at hs
      cases hs
      refine .inl ⟨_, update_self .., rfl, fun c hc' => ?_⟩
      rcases mem_victims (s.kmem.sched s.kmem.tick) c with rfl | hmem
      · exact hc
      · exact absurd hmem hc'
    | cons r rest =>
      simp only [hc] at hs
      cases hs
      exact .inr (.inl ⟨r, update_self ..⟩)
  · cases hs

lemma kalloc_alone_none {s1 s2 : KSys T} {as : List (KAct T)}
    (hs : s.step (.kalloc t) = .next s1) (hr : RunOf step (fun _ a => a = .steal t) s1 as s2)
    (hnone : s2.thread t = .setRef none) (c : Fin NCPU) : s.kmem.freelist c = [] := by
  have hsearch : s2.Searching t s.kmem.freelist :=
    hr.invariant (by rintro s a s' h rfl hst; exact h.step hst) (Searching.start hs)
  rcases hsearch with ⟨todo, ht, -⟩ | ⟨r, ht⟩ | ⟨-, hnil⟩
  · rw [hnone] at ht
    cases ht
  · rw [hnone] at ht
    cases ht
  · exact hnil c

/-- **The allocator is safe in every interleaving.**  Whatever the threads do, a page is on exactly
one free list, in transit inside exactly one call, or referenced as often as its count says; the
pages `kalloc` is about to return have no reference left; `kfree` never panics; and a `kalloc` that
runs alone fails only if every free list is empty. -/
theorem kalloc_safe {s0 s : KSys T} {as : List (KAct T)} (h0 : s0.Initial) (hr : Run step s0 as s) :
    (∀ pa, s.kmem.IsPage pa → (∃ n, CountIs (fun t => s.thread t = .freeDec pa) n ∧
        s.kmem.refcnt (refIdx pa) = s.refs pa + n) ∧
      (s.kmem.refcnt (refIdx pa) = 0 ∧ s.kmem.OnOneList pa ∧ (∀ t, ¬ (s.thread t).Holds pa) ∨
        s.kmem.refcnt (refIdx pa) = 0 ∧ ¬ s.kmem.Listed pa ∧ (∃! t, (s.thread t).Holds pa) ∨
        0 < s.kmem.refcnt (refIdx pa) ∧ ¬ s.kmem.Listed pa ∧ ∀ t, ¬ (s.thread t).Holds pa)) ∧
    (∀ t r, s.thread t = .setRef (some r) →
      s.kmem.IsPage r ∧ s.refs r = 0 ∧ ∀ t', s.thread t' ≠ .freeDec r) ∧
    (∀ a e, s.step a ≠ .panic e) ∧
    (∀ t s₁ bs s₂, s.step (.kalloc t) = .next s₁ → RunOf step (fun _ a => a = .steal t) s₁ bs s₂ →
      s₂.thread t = .setRef none → ∀ c, s.kmem.freelist c = []) := by
  have hinv : s.Inv := hr.invariant (fun s a s' h hs => h.step hs) h0.inv
  refine ⟨?_, ?_, hinv.no_panic, ?_⟩
  · intro pa hp
    refine ⟨(hinv.page pa hp).refcnt_eq, ?_⟩
    obtain ⟨n, hn, h | h⟩ := (hinv.page pa hp).place
    · by_cases hl : s.kmem.Listed pa
      · have := mt listed_eq_zero_iff.mp (not_not.mpr hl)
        obtain rfl : n = 0 := by omega
        exact .inl ⟨h.1, listed_eq_one_iff.mp (by omega), zero_iff.mp hn⟩
      · rw [listed_eq_zero_iff.mpr hl] at h
        obtain rfl : n = 1 := by omega
        exact .inr (.inl ⟨h.1, hl, one_iff.mp hn⟩)
    · obtain rfl : n = 0 := by omega
      exact .inr (.inr ⟨h.1, listed_eq_zero_iff.mp (by omega), zero_iff.mp hn⟩)
  · intro t r ht
    have hp : s.kmem.IsPage r := hinv.isPage (.inr (.inr ⟨t, .inr (.inl ht)⟩))
    obtain ⟨-, -, hrefs, hzero, -⟩ := (hinv.page r hp).transit (.inl ht)
    exact ⟨hp, hrefs, zero_iff.mp hzero⟩
  · intro t s₁ bs s₂ hs hrun hnone
    exact kalloc_alone_none hs hrun hnone

end KSys

/-- Two pages: the first is on the list of CPU 0, the second has one reference. -/
def sampleKSys : KSys Bool where
  kmem := {
    kend := 0x87FFE000
    freelist := fun c => if c = 0 then [0x87FFE000] else []
    refcnt := fun i => if i = 0x7FFF then 1 else 0
    mem := fun _ => 0
    sched := fun _ => 3
    tick := 0 }
  thread := fun _ => .idle
  refs := fun pa => if pa = 0x87FFF000 then 1 else 0

lemma sampleKSys_initial : sampleKSys.Initial := by
  have hpages : ∀ pa, sampleKSys.kmem.IsPage pa → pa = 0x87FFE000 ∨ pa = 0x87FFF000 := by
    rintro pa ⟨h1, h2, h3⟩
    simp only [PGSIZE, PHYSTOP, KERNBASE, sampleKSys] at h1 h2 h3
    omega
  have hlist : ∀ pa, sampleKSys.kmem.Listed pa ↔ pa = 0x87FFE000 := by
    intro pa
    constructor
    · rintro ⟨c, hc⟩
      by_cases h : c = 0 <;> simp_all [sampleKSys]
    · rintro rfl
      exact ⟨0, by simp [sampleKSys]⟩
  refine ⟨by decide, fun _ => rfl, ?_, ?_, ?_, ?_, ?_⟩
  · intro c
    by_cases h : c = 0 <;> simp [sampleKSys, h]
  · intro c c' pa h h'
    by_cases hc : c = 0 <;> by_cases hc' : c' = 0 <;> simp_all [sampleKSys]
  · rintro pa (h | h)
    · rw [(hlist pa).mp h]
      decide
    · have : pa = 0x87FFF000 := by
        by_contra hne
        simp [sampleKSys, hne] at h
      rw [this]
      decide
  · intro pa hp
    rcases hpages pa hp with rfl | rfl <;> decide
  · intro pa hp
    rw [hlist]
    rcases hpages pa hp with rfl | rfl <;> decide

/-- While one thread frees the second page, another one, on CPU 3, steals the first. -/
theorem kalloc_safe_sample :
    ∃ s, Run KSys.step sampleKSys [.kfree true 0x87FFF000, .kalloc false, .steal false,
        .steal false, .freeDec true, .steal false, .steal false, .steal false] s ∧
      s.thread false = .setRef (some 0x87FFE000) ∧ s.refs 0x87FFE000 = 0 := by
  have hrun : Run KSys.step sampleKSys [.kfree true 0x87FFF000, .kalloc false, .steal false,
        .steal false, .freeDec true, .steal false, .steal false, .steal false] _ :=
    Run.of_exec rfl
  obtain ⟨-, hfree, -⟩ := KSys.kalloc_safe sampleKSys_initial hrun
  exact ⟨_, hrun, rfl, (hfree false _ rfl).2.1⟩

end Xv6
