import Mathlib.Tactic

/-!
# Radix trees in memory

A memory of nodes `m : P → I → W`: the node at `q` has one word for each index. `next` says which
node a word points to, if any. A path is a list of indices, the last one taken first, and
`page next m r p` is the node that `p` leads to from the root `r`. In a tree of depth `d` the words
of the nodes at the end of the paths of length `d` are the entries; `get` reads an entry, and an
entry that points nowhere counts as absent.

Several trees can share the memory. `Tree next m d roots` says that they are trees: no node is
reached from two roots, or on two paths of length at most `d`. The three ways to change the memory
in place are

* writing to nodes that no tree uses (`Tree.congr`, `get_congr`);
* writing an entry (`Tree.put`, `get_put`);
* linking an empty node into an empty place (`Tree.link`, `get_link`), which changes no entry.
-/

namespace Radix

open Option

variable {P I W : Type} {next : W → Option P} {m m' : P → I → W} {d : ℕ} {roots : Set P}
  {p : List I} {r : P} {i : I}

/-- The node that a path leads to. -/
def page (next : W → Option P) (m : P → I → W) (r : P) : List I → Option P
  | [] => some r
  | i :: p => (page next m r p).bind fun q => next (m q i)

/-- The entry `i` at the end of the path, if it points anywhere. -/
def get (next : W → Option P) (m : P → I → W) (r : P) (p : List I) (i : I) : Option W :=
  (page next m r p).bind fun q => if (next (m q i)).isSome then some (m q i) else none

/-- The nodes of the trees. -/
def Uses (next : W → Option P) (m : P → I → W) (d : ℕ) (roots : Set P) (q : P) : Prop :=
  ∃ r ∈ roots, ∃ p, p.length ≤ d ∧ page next m r p = some q

/-- No two paths meet. -/
def Tree (next : W → Option P) (m : P → I → W) (d : ℕ) (roots : Set P) : Prop :=
  ∀ r ∈ roots, ∀ r' ∈ roots, ∀ p p' q, p.length ≤ d → p'.length ≤ d →
    page next m r p = some q → page next m r' p' = some q → r = r' ∧ p = p'

/-! ## Writing elsewhere -/

lemma page_congr (hp : p.length ≤ d)
    (h : ∀ p' q, p'.length < d → page next m r p' = some q → m' q = m q) :
    page next m' r p = page next m r p := by
  induction p with
  | nil => rfl
  | cons i p ih =>
    have hlen : p.length < d := hp
    rw [page, page, ih hlen.le]
    cases hq : page next m r p with
    | none => rfl
    | some q => rw [bind_some, bind_some, h p q hlen hq]

lemma page_congr_of_uses (hr : r ∈ roots) (hp : p.length ≤ d)
    (h : ∀ q, Uses next m d roots q → m' q = m q) : page next m' r p = page next m r p :=
  page_congr hp fun p' q hlen hq => h q ⟨r, hr, p', hlen.le, hq⟩

lemma uses_congr (h : ∀ r ∈ roots, ∀ p : List I, p.length ≤ d →
    page next m' r p = page next m r p) (q : P) :
    Uses next m' d roots q ↔ Uses next m d roots q := by
  constructor
  · rintro ⟨r, hr, p, hp, hq⟩
    exact ⟨r, hr, p, hp, (h r hr p hp).symm.trans hq⟩
  · rintro ⟨r, hr, p, hp, hq⟩
    exact ⟨r, hr, p, hp, (h r hr p hp).trans hq⟩

lemma Tree.congr (ht : Tree next m d roots) (h : ∀ r ∈ roots, ∀ p : List I, p.length ≤ d →
    page next m' r p = page next m r p) : Tree next m' d roots := by
  intro r hr r' hr' p p' q hp hp' hq hq'
  rw [h r hr p hp] at hq
  rw [h r' hr' p' hp'] at hq'
  exact ht r hr r' hr' p p' q hp hp' hq hq'

lemma get_congr (hr : r ∈ roots) (hp : p.length ≤ d)
    (h : ∀ q, Uses next m d roots q → m' q = m q) : get next m' r p i = get next m r p i := by
  rw [get, get, page_congr_of_uses hr hp h]
  cases hq : page next m r p with
  | none => rfl
  | some q => rw [bind_some, bind_some, h q ⟨r, hr, p, hp, hq⟩]

section update

variable [DecidableEq P] [DecidableEq I] {w : W}

/-- Write one word. -/
def put (m : P → I → W) (q : P) (i : I) (w : W) : P → I → W :=
  Function.update m q (Function.update (m q) i w)

@[simp] lemma put_self {q : P} : put m q i w q i = w := by simp [put]

lemma put_of_ne {q q' : P} (h : q' ≠ q) : put m q i w q' = m q' := by
  simp [put, h]

lemma put_index_of_ne {q : P} {i j : I} (h : j ≠ i) : put m q i w q j = m q j := by
  simp [put, h]

/-! ## Writing an entry -/

variable {r r' q f : P} {p p' : List I} {i i' : I} {w : W}

section

variable (ht : Tree next m d roots) (hr : r ∈ roots) (hp : p.length = d)
  (hq : page next m r p = some q)
include ht hr hp hq

lemma Tree.page_put (hr' : r' ∈ roots) (hp' : p'.length ≤ d) :
    page next (put m q i w) r' p' = page next m r' p' := by
  refine page_congr hp' fun p'' q'' hlen hq'' => put_of_ne ?_
  rintro rfl
  obtain ⟨-, rfl⟩ := ht r hr r' hr' p p'' _ hp.le hlen.le hq hq''
  omega

lemma Tree.get_put (hr' : r' ∈ roots) (hp' : p'.length ≤ d) :
    get next (Radix.put m q i w) r' p' i' =
      if r' = r ∧ p' = p ∧ i' = i then (if (next w).isSome then some w else none)
      else get next m r' p' i' := by
  rw [get, get, ht.page_put hr hp hq hr' hp']
  cases hq' : page next m r' p' with
  | none =>
    rw [if_neg]
    · rfl
    · rintro ⟨rfl, rfl, -⟩
      rw [hq] at hq'
      cases hq'
  | some q' =>
    rw [bind_some, bind_some]
    by_cases hqq : q' = q
    · subst hqq
      obtain ⟨rfl, rfl⟩ := ht r hr r' hr' p p' q' hp.le hp' hq hq'
      by_cases hi : i' = i
      · simp [hi]
      · simp [put_index_of_ne hi, hi]
    · have hne : ¬ (r' = r ∧ p' = p ∧ i' = i) := by
        rintro ⟨rfl, rfl, -⟩
        rw [hq] at hq'
        exact hqq (some.inj hq').symm
      rw [put_of_ne hqq, if_neg hne]

end

/-! ## Linking a node -/

/-- `m'` is `m` with the empty node `f` linked in as the child `i` of the node `q`. -/
structure Linked (next : W → Option P) (m m' : P → I → W) (q f : P) (i : I) : Prop where
  child : next (m' q i) = some f
  fresh : ∀ j, next (m' f j) = none
  index : ∀ j, j ≠ i → m' q j = m q j
  other : ∀ q', q' ≠ q → q' ≠ f → m' q' = m q'

section

variable (ht : Tree next m d roots) (hr : r ∈ roots) (hp : p.length < d)
  (hq : page next m r p = some q) (hempty : next (m q i) = none) (hf : ¬ Uses next m d roots f)
  (hl : Linked next m m' q f i)
include ht hr hp hq hempty hf hl

lemma Tree.page_link (hr' : r' ∈ roots) (hp' : p'.length ≤ d) :
    page next m' r' p' = if r' = r ∧ p' = i :: p then some f else page next m r' p' := by
  induction p' with
  | nil => simp [page]
  | cons j p' ih =>
    have hlen : p'.length ≤ d := Nat.le_of_succ_le hp'
    rw [page, ih hlen]
    split_ifs with h1 h2 h2
    · obtain ⟨-, h⟩ := h2
      rw [h1.2, List.cons.injEq] at h
      exact absurd (congrArg List.length h.2) (by simp)
    · -- below the new node there is nothing, as before
      obtain ⟨rfl, rfl⟩ := h1
      rw [bind_some, hl.fresh, page, page, hq, bind_some, hempty, bind_none]
    · obtain ⟨rfl, h⟩ := h2
      rw [List.cons.injEq] at h
      obtain ⟨rfl, rfl⟩ := h
      rw [hq, bind_some, hl.child]
    · rw [page]
      cases hq' : page next m r' p' with
      | none => rfl
      | some q' =>
        rw [bind_some, bind_some]
        by_cases hqq : q' = q
        · subst hqq
          obtain ⟨rfl, rfl⟩ := ht r hr r' hr' p p' q' hp.le hlen hq hq'
          rw [hl.index j fun hj => h2 ⟨rfl, by rw [hj]⟩]
        · have hqf : q' ≠ f := fun h => hf ⟨r', hr', p', hlen, h ▸ hq'⟩
          rw [hl.other q' hqq hqf]

lemma Tree.uses_link {q' : P} (h : Uses next m' d roots q') : q' = f ∨ Uses next m d roots q' := by
  obtain ⟨r', hr', p', hp', hq'⟩ := h
  rw [ht.page_link hr hp hq hempty hf hl hr' hp'] at hq'
  split_ifs at hq' with h
  · exact .inl (some.inj hq').symm
  · exact .inr ⟨r', hr', p', hp', hq'⟩

lemma Tree.link : Tree next m' d roots := by
  intro r1 hr1 r2 hr2 p1 p2 q' hp1 hp2 hq1 hq2
  rw [ht.page_link hr hp hq hempty hf hl hr1 hp1] at hq1
  rw [ht.page_link hr hp hq hempty hf hl hr2 hp2] at hq2
  split_ifs at hq1 hq2 with h1 h2 h2
  · exact ⟨h1.1.trans h2.1.symm, h1.2.trans h2.2.symm⟩
  · exact absurd ⟨r2, hr2, p2, hp2, hq2.trans hq1.symm⟩ hf
  · exact absurd ⟨r1, hr1, p1, hp1, hq1.trans hq2.symm⟩ hf
  · exact ht r1 hr1 r2 hr2 p1 p2 q' hp1 hp2 hq1 hq2

lemma Tree.get_link (hr' : r' ∈ roots)
    (hp' : p'.length = d) : get next m' r' p' i' = get next m r' p' i' := by
  rw [get, get, ht.page_link hr hp hq hempty hf hl hr' hp'.le]
  split_ifs with h
  · obtain ⟨rfl, rfl⟩ := h
    rw [bind_some, hl.fresh, page, hq, bind_some, hempty]
    rfl
  · cases hq' : page next m r' p' with
    | none => rfl
    | some q' =>
      have hqq : q' ≠ q := by
        rintro rfl
        obtain ⟨-, rfl⟩ := ht r hr r' hr' p p' q' hp.le hp'.le hq hq'
        omega
      have hqf : q' ≠ f := fun h => hf ⟨r', hr', p', hp'.le, h ▸ hq'⟩
      rw [bind_some, bind_some, hl.other q' hqq hqf]

end

end update

end Radix
