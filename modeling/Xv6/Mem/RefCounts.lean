import Xv6.Lib.RefCount
import Xv6.Mem.Vm

/-!
# Reference counts of user memory

Every entry of a user page table that maps a page is a reference to it, and so is every link from
one page-table page to the next. The invariant `Vm.Inv` says that the count of a page is the number
of such references plus those that the kernel holds elsewhere (`o`), and that an entry with `PTE_W`,
a page-table link or a reference held elsewhere is the only one to its page.

It is an instance of `RefInv`: the slots are the `Ref`s below. For each kind of change that the
functions of `vm.c` make there is a rule here, from the rules `take`, `release`, `attach`, `share`
and `detach` of `RefInv`; `Xv6.Mem.Calls` follows the functions with them.
-/

namespace Xv6

open Function Prog Kmem Option
open PageTable (reach setMid setLow clearMid clearLow setLeaf)

/-- The places that can refer to a page. -/
inductive Ref where
  | leaf (p : Slot)
  | root (t : ℕ)
  | mid (t : ℕ) (i : Fin 512)
  | low (t : ℕ) (ij : Fin 512 × Fin 512)
  deriving DecidableEq

/-- What a process sees of a page it has mapped. `w` is what the process may do, whether or not it
will get a copy first. -/
structure UPage where
  bytes : ℕ → UInt8
  r : Bool
  w : Bool
  x : Bool
  u : Bool

namespace Vm

def pte (s : Vm) (p : Slot) : Pte := (s.pt p.root).get p.idx

/-- The reference is one to page `pa`. -/
def Refers (s : Vm) (pa : ℕ) : Ref → Prop
  | .leaf p => s.user p.root ∧ (s.pte p).v ∧ (s.pte p).pa = pa
  | .root t => s.user t ∧ t = pa
  | .mid t i => s.user t ∧ (s.pt t).mid i = some pa
  | .low t ij => s.user t ∧ ((s.pt t).mid ij.1).isSome ∧ (s.pt t).low ij = some pa

/-- The references that tolerate no other one to the same page. -/
def Excl (s : Vm) : Ref → Prop
  | .leaf p => (s.pte p).perm.w
  | _ => True

/-- No entry is writable and copy-on-write. -/
structure PteOk (pte : Pte) : Prop where
  zero : pte.v = false → pte = .zero
  cow : ¬ (pte.perm.w ∧ pte.perm.cow)

/-- The invariant, with `o pa` further references to `pa` held by the kernel. -/
structure Inv (o : ℕ → ℕ) (s : Vm) : Prop where
  kmem : s.kmem.Ok
  refs : RefInv s.kmem.IsPage s.kmem.kref s.Refers s.Excl o
  ptes : ∀ p, s.user p.root → PteOk (s.pte p)

/-- No mapping and no page in use has changed. -/
structure Frame (s s' : Vm) : Prop where
  pte : ∀ p, s'.pte p = s.pte p
  user : s'.user = s.user
  keeps : s.kmem.Keeps s'.kmem

/-- What entry `p` shows of memory. -/
def page (s : Vm) (p : Slot) : Option UPage :=
  if (s.pte p).v then
    some {
      bytes := fun i => if i < PGSIZE then s.kmem.mem ((s.pte p).pa + i) else 0
      r := (s.pte p).perm.r
      w := (s.pte p).perm.w || (s.pte p).perm.cow
      x := (s.pte p).perm.x
      u := (s.pte p).perm.u }
  else none

variable {s s' s'' : Vm} {o : ℕ → ℕ}

lemma Frame.refl (s : Vm) : s.Frame s := ⟨fun _ => rfl, rfl, .refl _⟩

lemma Frame.trans (h : s.Frame s') (h' : s'.Frame s'') : s.Frame s'' :=
  ⟨fun p => (h'.pte p).trans (h.pte p), h'.user.trans h.user, h.keeps.trans h'.keeps⟩

/-- The two entries show the same to a process. -/
structure PteSim (e e' : Pte) : Prop where
  v : e'.v = e.v
  pa : e'.pa = e.pa
  r : e'.perm.r = e.perm.r
  w : (e'.perm.w || e'.perm.cow) = (e.perm.w || e.perm.cow)
  x : e'.perm.x = e.perm.x
  u : e'.perm.u = e.perm.u

lemma PteSim.refl (e : Pte) : PteSim e e := ⟨rfl, rfl, rfl, rfl, rfl, rfl⟩

lemma PteSim.of_eq {e e' e'' : Pte} (heq : e' = e'') (h : PteSim e e'') : PteSim e e' :=
  heq ▸ h

variable {p : Slot} {k : Kmem} {pt : PageTable} {r a : ℕ} {perm : Perm} {t : ℕ}
  {E : VmPanic → Prop} {ij : Fin 512 × Fin 512} {i : Fin 512} {Q : Unit → Vm → Prop} {q : Slot}
  {j : Ref}

lemma page_congr (hpte : PteSim (s.pte p) (s'.pte q))
    (hmem : (s.pte p).v → ∀ a, (s.pte p).pa ≤ a ∧ a < (s.pte p).pa + PGSIZE →
      s'.kmem.mem a = s.kmem.mem a) : s'.page q = s.page p := by
  unfold page
  rw [hpte.v, hpte.pa, hpte.r, hpte.w, hpte.x, hpte.u]
  split
  · next hv =>
    simp only [some.injEq, UPage.mk.injEq, and_self, and_true]
    funext i
    split
    · next hi => exact hmem hv _ ⟨by omega, by omega⟩
    · rfl
  · rfl

section

variable (h : s.Inv o) (hu : s.user p.root)
include h hu

lemma page_of_sim (hpte : PteSim (s.pte p) (s'.pte q)) (hk : s.kmem.KeepsMem s'.kmem) :
    s'.page q = s.page p := by
  refine page_congr hpte ?_
  intro hv
  have hp : s.Refers (s.pte p).pa (.leaf p) := ⟨hu, hv, rfl⟩
  exact hk _ (h.refs.page_of _ _ hp) (h.refs.pos hp)

lemma page_of_keeps (hpte : s'.pte p = s.pte p)
    (hk : s.kmem.KeepsMem s'.kmem) : s'.page p = s.page p :=
  page_of_sim h hu (hpte ▸ .refl _) hk

lemma page_of_dropped {q : ℕ}
    (hk : s.kmem.Dropped k q) (hk' : s'.kmem = k) (hpte : s'.pte p = s.pte p)
    (hq : (s.pte p).v → (s.pte p).pa ≠ q) : s'.page p = s.page p := by
  refine page_congr (hpte ▸ .refl _) ?_
  intro hv a ha
  have hp : s.Refers (s.pte p).pa (.leaf p) := ⟨hu, hv, rfl⟩
  have hout := (h.refs.page_of _ _ hp).disjoint hk.page (hq hv) ha
  rw [hk', hk.mem, if_neg hout]

end

/-! ## Changing one table -/

lemma pte_setPt_of_ne (h : p.root ≠ t) : (s.setPt t pt).pte p = s.pte p := by
  simp only [pte, setPt, update_of_ne h]

lemma pte_setPt_self {x : Idx} : (s.setPt t pt).pte ⟨t, x⟩ = pt.get x := by
  simp only [pte, setPt, update_self]

lemma setPt_pt_of_ne {t t' : ℕ} (h : t' ≠ t) : (s.setPt t pt).pt t' = s.pt t' := by
  simp only [setPt, update_of_ne h]

lemma setPt_pt_self : (s.setPt t pt).pt t = pt := by
  simp only [setPt, update_self]

lemma pte_setPt_congr (h : ∀ x, pt.get x = (s.pt t).get x) (p : Slot) :
    (s.setPt t pt).pte p = s.pte p := by
  obtain ⟨t', x⟩ := p
  by_cases ht : t' = t
  · subst ht
    rw [pte_setPt_self, h]
    rfl
  · exact pte_setPt_of_ne ht

lemma get_setMid (h : pt.mid i = none) (page : ℕ) (x : Idx) :
    (pt.setMid i page).get x = pt.get x := by
  by_cases hx : x.1 = i
  · simp [PageTable.get, reach, setMid, hx, h]
  · simp [PageTable.get, reach, setMid, hx]

lemma get_setLow (h : pt.low ij = none)
    (page : ℕ) (x : Idx) : (pt.setLow ij page).get x = pt.get x := by
  by_cases hx : (x.1, x.2.1) = ij
  · simp [PageTable.get, reach, setLow, hx, h]
  · simp [PageTable.get, reach, setLow, hx]

lemma get_setLeaf {x : Idx} (h : pt.reach x) (pte : Pte) (y : Idx) :
    (pt.setLeaf x pte).get y = if y = x then pte else pt.get y := by
  have hreach : ∀ y, (pt.setLeaf x pte).reach y = pt.reach y := fun _ => rfl
  by_cases hy : y = x
  · subst hy
    simp only [PageTable.get, hreach, h, if_true]
    simp [setLeaf]
  · simp only [PageTable.get, hreach, hy, if_false]
    simp [setLeaf, hy]

lemma pte_store (h : (s.pt p.root).reach p.idx) (new : Pte) (q : Slot) :
    (s.setPt p.root ((s.pt p.root).setLeaf p.idx new)).pte q = if q = p then new else s.pte q := by
  obtain ⟨t, x⟩ := p
  obtain ⟨t', y⟩ := q
  by_cases ht : t' = t
  · subst ht
    rw [pte_setPt_self, get_setLeaf h]
    simp [pte]
  · rw [pte_setPt_of_ne ht]
    simp [ht]

lemma leaf_eq_pte (h : (s.pt p.root).reach p.idx) : (s.pt p.root).leaf p.idx = s.pte p := by
  simp [pte, PageTable.get, h]

@[simp] lemma setPt_user : (s.setPt t pt).user = s.user := rfl

@[simp] lemma setPt_kmem : (s.setPt t pt).kmem = s.kmem := rfl

lemma refers_setMid (hu : s.user t) (h : (s.pt t).mid i = none) (page : ℕ) (q : ℕ) (r : Ref) :
    (s.setPt t ((s.pt t).setMid i page)).Refers q r ↔ s.Refers q r ∨ q = page ∧ r = .mid t i := by
  have hpte := pte_setPt_congr (s := s) (get_setMid h page)
  cases r with
  | leaf p => simp [Refers, hpte]
  | root t' => simp [Refers]
  | mid t' i' =>
    by_cases ht : t' = t
    · subst ht
      by_cases hi : i' = i
      · subst hi
        simp [Refers, setPt_pt_self, setMid, h, hu, eq_comm]
      · simp [Refers, setPt_pt_self, setMid, hi]
    · simp [Refers, setPt_pt_of_ne ht, ht]
  | low t' ij =>
    by_cases ht : t' = t
    · subst ht
      by_cases hi : ij.1 = i
      · simp [Refers, setPt_pt_self, setMid, h, hi]
      · simp [Refers, setPt_pt_self, setMid, hi]
    · simp [Refers, setPt_pt_of_ne ht]

lemma refers_setLow (hu : s.user t) (hm : ((s.pt t).mid ij.1).isSome)
    (h : (s.pt t).low ij = none) (page : ℕ) (q : ℕ) (r : Ref) :
    (s.setPt t ((s.pt t).setLow ij page)).Refers q r ↔ s.Refers q r ∨ q = page ∧ r = .low t ij := by
  have hpte := pte_setPt_congr (s := s) (get_setLow h page)
  cases r with
  | leaf p => simp [Refers, hpte]
  | root t' => simp [Refers]
  | mid t' i' =>
    by_cases ht : t' = t
    · subst ht
      simp [Refers, setPt_pt_self, setLow]
    · simp [Refers, setPt_pt_of_ne ht]
  | low t' ij' =>
    by_cases ht : t' = t
    · subst ht
      by_cases hi : ij' = ij
      · subst hi
        simp [Refers, setPt_pt_self, setLow, h, hm, hu, eq_comm]
      · simp [Refers, setPt_pt_self, setLow, hi]
    · simp [Refers, setPt_pt_of_ne ht, ht]

lemma refers_store (h : (s.pt p.root).reach p.idx) (new : Pte) (q : ℕ) (r : Ref) :
    (s.setPt p.root ((s.pt p.root).setLeaf p.idx new)).Refers q r ↔
      if r = .leaf p then s.user p.root ∧ new.v ∧ new.pa = q else s.Refers q r := by
  cases r with
  | leaf p' =>
    by_cases hp : p' = p <;> simp [Refers, pte_store h, hp]
  | root t' => simp [Refers]
  | mid t' i' | low t' ij' =>
    by_cases ht : t' = p.root
    · subst ht
      simp [Refers, setPt_pt_self, setLeaf]
    · simp [Refers, setPt_pt_of_ne ht]

/-! ## Taking and giving up pages -/

lemma wp_kalloc_inv {Q : Option ℕ → Vm → Prop} (h : s.Inv o)
    (hnone : ∀ k, s.kmem.NoPage k → Inv o { s with kmem := k } → Q none { s with kmem := k })
    (hsome : ∀ r k, s.kmem.Took k r → o r = 0 → Inv (update o r 1) { s with kmem := k } →
      Q (some r) { s with kmem := k }) :
    wp kalloc s Q E := by
  rw [wp_kalloc]
  have hspec := kalloc_spec h.kmem
  rcases hk : s.kmem.kalloc with ⟨_ | r, k⟩
  · simp only [hk] at hspec
    refine hnone k hspec ⟨hspec.ok, ?_, h.ptes⟩
    simp only [isPage_eq hspec.kend]
    exact h.refs.congr hspec.count (fun _ _ => Iff.rfl) (fun _ _ _ hx => hx)
  · simp only [hk] at hspec
    refine hsome r k hspec (h.refs.free hspec.page hspec.free).2 ⟨hspec.ok, ?_, h.ptes⟩
    simp only [isPage_eq hspec.kend]
    exact h.refs.take hspec.page hspec.free hspec.count hspec.other (update_self ..)
      fun q hq => update_of_ne hq ..

lemma wp_kfree_held (h : s.Inv (update o r 1)) (ho : o r = 0)
    (hQ : ∀ k, s.kmem.Dropped k r → Inv o { s with kmem := k } → Q () { s with kmem := k }) :
    wp (kfree r) s Q E := by
  have hheld : 0 < update o r 1 r := by simp
  obtain ⟨k, hk⟩ := kfree_ok (h.refs.page_held r hheld) (h.refs.pos_of_held hheld)
  rw [wp_kfree]
  refine ⟨?_, fun e he => by rw [hk] at he; cases he⟩
  rintro k' hk'
  obtain rfl : k = k' := Except.ok.inj (hk.symm.trans hk')
  have hspec := kfree_spec h.kmem hk
  refine hQ k hspec ⟨hspec.ok, ?_, h.ptes⟩
  simp only [isPage_eq hspec.kend]
  refine h.refs.release (p := r) (by simp) hspec.count hspec.other (by simp [ho]) ?_
  intro q hq
  rw [update_of_ne hq]

lemma Inv.setMem (h : s.Inv o) (mem : ℕ → UInt8) :
    Inv o { s with kmem := { s.kmem with mem := mem } } :=
  ⟨⟨h.kmem.kend_ge, h.kmem.listed⟩, h.refs, h.ptes⟩

lemma Inv.link (h : s.Inv (update o r 1)) (ho : o r = 0)
    (hk : s'.kmem = s.kmem) (huser : s'.user = s.user) (hpte : ∀ p, s'.pte p = s.pte p)
    (hR : ∀ q j', s'.Refers q j' ↔ s.Refers q j' ∨ q = r ∧ j' = j) : s'.Inv o := by
  refine ⟨hk ▸ h.kmem, ?_, ?_⟩
  · rw [hk]
    refine h.refs.attach (update_self ..) hR ?_ ho ?_
    · rintro q (p | _ | _ | _) - hx
      · simpa only [Excl, hpte] using hx
      · trivial
      · trivial
      · trivial
    · intro q hq
      rw [update_of_ne hq]
  · intro p hp
    rw [hpte]
    exact h.ptes p (huser ▸ hp)

/-! ## Walking -/

/-- A page-table page `r` is linked into a table where there was none. -/
inductive NewPage (pt : PageTable) (r : ℕ) : PageTable → Prop where
  | mid {i : Fin 512} (h : pt.mid i = none) : NewPage pt r (pt.setMid i r)
  | low {ij : Fin 512 × Fin 512} (hm : (pt.mid ij.1).isSome) (h : pt.low ij = none) :
      NewPage pt r (pt.setLow ij r)

lemma NewPage.get {pt' : PageTable} (h : NewPage pt r pt') (x : Idx) : pt'.get x = pt.get x := by
  cases h with
  | mid h => exact get_setMid h r x
  | low _ h => exact get_setLow h r x

lemma NewPage.refers (hu : s.user t) (h : NewPage (s.pt t) r pt) :
    ∃ j, ∀ q j', (s.setPt t pt).Refers q j' ↔ s.Refers q j' ∨ q = r ∧ j' = j := by
  cases h with
  | mid h => exact ⟨_, refers_setMid hu h r⟩
  | low hm h => exact ⟨_, refers_setLow hu hm h r⟩

section

variable {I : Vm → Prop} {E : VmPanic → Prop} {t : ℕ} {alloc : Bool}

/-- `I` is kept when `walk` asks for a page and, if there is one, links it into the table `t`. -/
def KeptByWalk (t : ℕ) (I : Vm → Prop) (E : VmPanic → Prop) : Prop :=
  ∀ s, I s → wp kalloc s (fun r s' => match r with
    | none => I s'
    | some page => ∀ pt, NewPage (s.pt t) page pt →
        I (setPt { s' with kmem := s'.kmem.memset page 0 } t pt)) E

lemma wp_walkLevel {link : PageTable → Option ℕ} {set : PageTable → ℕ → PageTable} (h : I s)
    (hkept : KeptByWalk t I E) (Q : PageTable → Prop) (hlink : (link (s.pt t)).isSome → Q (s.pt t))
    (hset : link (s.pt t) = none → ∀ r,
      NewPage (s.pt t) r (set (s.pt t) r) ∧ Q (set (s.pt t) r)) :
    wp (walkLevel t link set alloc) s (fun b s' => I s' ∧ (b = true → Q (s'.pt t))) E := by
  simp only [walkLevel, wp_bind, wp_get]
  cases hl : link (s.pt t) with
  | some page => exact wp_pure.mpr ⟨h, fun _ => hlink (by rw [hl]; rfl)⟩
  | none =>
    cases alloc with
    | false => exact wp_pure.mpr ⟨h, fun hf => by cases hf⟩
    | true =>
      have hnew := wp_kalloc.mp (hkept s h)
      simp only [if_true, wp_bind, wp_kalloc]
      cases hk : s.kmem.kalloc.1 with
      | none =>
        rw [hk] at hnew
        exact wp_pure.mpr ⟨hnew, fun hf => by cases hf⟩
      | some r =>
        rw [hk] at hnew
        simp only [wp_bind, wp_memset, wp_modify, wp_pure, setPt_pt_self]
        exact ⟨hnew _ (hset hl r).1, fun _ => (hset hl r).2⟩

lemma wp_walkMid (h : I s) (hkept : KeptByWalk t I E) (i : Fin 512) :
    wp (walkMid t i alloc) s (fun b s' => I s' ∧ (b = true → ((s'.pt t).mid i).isSome)) E :=
  wp_walkLevel h hkept (fun pt => (pt.mid i).isSome) id fun hm r => ⟨.mid hm, by simp [setMid]⟩

lemma wp_walkLow (h : I s) (hkept : KeptByWalk t I E) (hmid : ((s.pt t).mid ij.1).isSome) :
    wp (walkLow t ij alloc) s (fun b s' => I s' ∧
      (b = true → ((s'.pt t).mid ij.1).isSome ∧ ((s'.pt t).low ij).isSome)) E :=
  wp_walkLevel h hkept (fun pt => (pt.mid ij.1).isSome ∧ (pt.low ij).isSome) (fun hl => ⟨hmid, hl⟩)
    fun hl r => ⟨.low hmid hl, by simpa [setLow] using hmid⟩

lemma wp_walk (h : I s) {va : ℕ} (hE : MAXVA ≤ va → E .walk) (hkept : KeptByWalk t I E) :
    wp (walk t va alloc) s (fun r s' => I s' ∧
      ∀ p, r = some p → p = ⟨t, idx va⟩ ∧ va < MAXVA ∧ (s'.pt t).reach (idx va)) E := by
  rw [walk, wp_ite, wp_throw]
  refine ⟨hE, fun hva => ?_⟩
  refine (wp_walkMid h hkept _).bind ?_
  rintro (_ | _) s1 ⟨h1, hb1⟩
  · exact wp_pure.mpr ⟨h1, fun p hp => nomatch hp⟩
  · simp only [if_true, wp_bind]
    refine (wp_walkLow h1 hkept (hb1 rfl)).post ?_
    rintro (_ | _) s2 ⟨h2, hb2⟩
    · exact wp_pure.mpr ⟨h2, fun p hp => nomatch hp⟩
    · refine wp_pure.mpr ⟨h2, ?_⟩
      rintro p hp
      cases hp
      obtain ⟨hm, hl⟩ := hb2 rfl
      exact ⟨rfl, not_le.mp hva, by simp only [reach, idx, hm, hl, Bool.and_self]⟩

end

lemma walk_spec (h : s.Inv o) (hu : s.user t) (va : ℕ) (alloc : Bool) (hE : MAXVA ≤ va → E .walk) :
    wp (walk t va alloc) s (fun r s' => s'.Inv o ∧ s.Frame s' ∧
        ∀ p, r = some p → p = ⟨t, idx va⟩ ∧ va < MAXVA ∧ (s'.pt t).reach (idx va)) E := by
  refine (wp_walk (I := fun s' => s'.Inv o ∧ s.Frame s') ⟨h, .refl s⟩ hE ?_).post
    fun r s' hr => ⟨hr.1.1, hr.1.2, hr.2⟩
  rintro s1 ⟨h1, hf1⟩
  refine wp_kalloc_inv h1 ?_ ?_
  · intro k hk hinv
    exact ⟨hinv, hf1.trans ⟨fun _ => rfl, rfl, hk.keeps⟩⟩
  · intro r k hk ho hinv pt hnew
    have hinv' : Inv (update o r 1) { s1 with kmem := k.memset r 0 } := hinv.setMem _
    have hpte := pte_setPt_congr (s := { s1 with kmem := k.memset r 0 }) hnew.get
    obtain ⟨j, hj⟩ := NewPage.refers (s := { s1 with kmem := k.memset r 0 })
      (by rw [← hf1.user] at hu; exact hu) hnew
    exact ⟨hinv'.link ho rfl rfl hpte hj, hf1.trans ⟨hpte, rfl, hk.keeps _ fun a ha => if_neg ha⟩⟩

lemma walk_look (s : Vm) (t va : ℕ) {Q : Option Slot → Vm → Prop} :
    wp (walk t va false) s Q E ↔ (MAXVA ≤ va → E .walk) ∧
      (va < MAXVA → Q (if (s.pt t).reach (idx va) then some ⟨t, idx va⟩ else none) s) := by
  rw [walk, wp_ite, wp_throw, not_le]
  refine and_congr_right fun _ => imp_congr_right fun _ => ?_
  simp only [walkMid, walkLow, walkLevel, wp_bind, wp_get]
  cases hm : (s.pt t).mid (px 2 va) with
  | none => simp [reach, idx, hm]
  | some m =>
    simp only [wp_pure, if_true, wp_bind, wp_get]
    cases hl : (s.pt t).low (px 2 va, px 1 va) with
    | none => simp [reach, idx, hl]
    | some l => simp [reach, idx, hm, hl]

lemma walk_frame (s : Vm) (t va : ℕ) (alloc : Bool) :
    wp (walk t va alloc) s (fun r s' => (∀ p, s'.pte p = s.pte p) ∧
        ∀ p, r = some p → p = ⟨t, idx va⟩ ∧ (s'.pt t).reach (idx va))
      fun e => e = .walk ∧ MAXVA ≤ va := by
  refine (wp_walk (I := fun s' => ∀ p, s'.pte p = s.pte p) (fun _ => rfl) (fun hva => ⟨rfl, hva⟩)
    ?_).post fun r s' hr => ⟨hr.1, fun p hp => ⟨(hr.2 p hp).1, (hr.2 p hp).2.2⟩⟩
  intro s1 h1
  rw [wp_kalloc]
  cases s1.kmem.kalloc.1 with
  | none => exact h1
  | some r =>
    intro pt hnew p
    exact (pte_setPt_congr (s := { s1 with kmem := s1.kmem.kalloc.2.memset r 0 }) hnew.get p).trans
      (h1 p)

/-! ## Entries -/

lemma excl_store (h : (s.pt p.root).reach p.idx) (new : Pte) (hj : j ≠ .leaf p) :
    (s.setPt p.root ((s.pt p.root).setLeaf p.idx new)).Excl j ↔ s.Excl j := by
  cases j with
  | leaf p' =>
    have hp : p' ≠ p := by
      rintro rfl
      exact hj rfl
    simp only [Excl, pte_store h, if_neg hp]
  | root t | mid t i | low t ij => exact Iff.rfl

lemma ptes_store (h : (s.pt p.root).reach p.idx) {new : Pte} (hnew : PteOk new)
    (hs : ∀ q, s.user q.root → PteOk (s.pte q)) (q : Slot) (hq : s.user q.root) :
    PteOk ((s.setPt p.root ((s.pt p.root).setLeaf p.idx new)).pte q) := by
  rw [pte_store h]
  split
  · exact hnew
  · exact hs q hq

lemma Inv.map (h : s.Inv (update o r 1)) (ho : o r = 0)
    (hu : s.user p.root) (hreach : (s.pt p.root).reach p.idx) (hfree : (s.pte p).v = false)
    (hperm : ¬ (perm.w ∧ perm.cow)) :
    (s.setPt p.root ((s.pt p.root).setLeaf p.idx ⟨true, perm, r⟩)).Inv o := by
  have hnone : ∀ q, ¬ s.Refers q (.leaf p) := by
    intro q hq
    simp [Refers, hfree] at hq
  refine ⟨h.kmem, ?_, ptes_store hreach ⟨(nomatch ·), hperm⟩ h.ptes⟩
  refine h.refs.attach (i := .leaf p) (update_self ..) ?_ ?_ ho ?_
  · intro q j
    rw [refers_store hreach]
    split
    · next hj =>
      subst hj
      simp [hnone q, hu, eq_comm]
    · next hj => simp [hj]
  · intro q j hj hx
    have hne : j ≠ .leaf p := by
      rintro rfl
      exact hnone q hj
    exact (excl_store hreach _ hne).mp hx
  · intro q hq
    rw [update_of_ne hq]

lemma Inv.unmap (h : s.Inv o) (hu : s.user p.root) (hreach : (s.pt p.root).reach p.idx)
    (hv : (s.pte p).v) (hk : s.kmem.Dropped k (s.pte p).pa) :
    (setPt { s with kmem := k } p.root ((s.pt p.root).setLeaf p.idx .zero)).Inv o := by
  refine ⟨hk.ok, ?_, ptes_store (s := { s with kmem := k }) hreach
    ⟨fun _ => rfl, fun hc => nomatch hc.1⟩ h.ptes⟩
  rw [setPt_kmem, isPage_eq hk.kend]
  refine h.refs.detach (i := .leaf p) ⟨hu, hv, rfl⟩ ?_ ?_ ?_ hk.count hk.other
  · rintro q ⟨-, -, hq⟩
    exact hq.symm
  · intro q j
    rw [refers_store (s := { s with kmem := k }) hreach]
    split
    · next hj => simp [hj, Pte.zero]
    · next hj => simp [hj, Refers, pte]
  · intro q j hj hx
    by_cases hne : j = .leaf p
    · subst hne
      simp [Excl, pte_store (s := { s with kmem := k }) hreach, Pte.zero] at hx
    · exact (excl_store (s := { s with kmem := k }) hreach _ hne).mp hx

lemma wp_mapPage {Q : Option Unit → Vm → Prop} (h : s.Inv o) (hu : s.user t) {pa : ℕ}
    (hfail : ∀ s', s'.Inv o → s.Frame s' → Q (some ()) s')
    (hok : ∀ s', a < MAXVA → s'.Inv o → s.Frame s' → (s'.pt t).reach (idx a) →
    (s'.pte ⟨t, idx a⟩).v = false →
      Q none (s'.setPt t ((s'.pt t).setLeaf (idx a) ⟨true, perm, pa⟩))) :
    wp (mapPage t a pa perm) s Q fun _ => True := by
  rw [mapPage]
  refine (walk_spec h hu a true fun _ => trivial).bind ?_
  rintro (_ | p) s' ⟨h', hf', hr⟩
  · exact wp_pure.mpr (hfail s' h' hf')
  · obtain ⟨rfl, hva, hreach⟩ := hr p rfl
    rw [wp_bind, wp_load, leaf_eq_pte (p := ⟨t, idx a⟩) hreach, wp_ite]
    refine ⟨fun _ => wp_throw.mpr trivial, fun hv => ?_⟩
    rw [wp_bind, wp_store, wp_pure]
    exact hok s' hva h' hf' hreach (by simpa using hv)

lemma wp_mappages {Q : Bool → Vm → Prop} (h : s.Inv o) (hu : s.user t) {pa : ℕ}
    (hfail : ∀ s', s'.Inv o → s.Frame s' → Q false s')
    (hok : ∀ s', a < MAXVA → s'.Inv o → s.Frame s' → (s'.pt t).reach (idx a) →
    (s'.pte ⟨t, idx a⟩).v = false →
      Q true (s'.setPt t ((s'.pt t).setLeaf (idx a) ⟨true, perm, pa⟩))) :
    wp (mappages t a PGSIZE pa perm) s Q fun _ => True := by
  rw [mappages, wp_ite]
  refine ⟨fun _ => wp_throw.mpr trivial, fun _ => ?_⟩
  rw [if_neg (by decide), if_neg (by decide), show PGSIZE / PGSIZE = 1 from rfl, wp_bind]
  simp only [forUntil, wp_bind, Nat.zero_mul, Nat.add_zero]
  refine wp_mapPage h hu ?_ ?_
  · intro s' h' hf
    simpa using hfail s' h' hf
  · intro s' hva h' hf hreach hv
    simpa using hok s' hva h' hf hreach hv

lemma mappages_returns (hva : a < MAXVA) (hal : a % PGSIZE = 0)
    (hfree : (s.pte ⟨t, idx a⟩).v = false) (pa : ℕ) (perm : Perm) :
    wp (mappages t a PGSIZE pa perm) s (fun _ _ => True) E := by
  rw [mappages, if_neg (not_not.mpr hal), if_neg (by decide), if_neg (by decide),
    show PGSIZE / PGSIZE = 1 from rfl, wp_bind]
  simp only [forUntil, wp_bind, Nat.zero_mul, Nat.add_zero, mapPage]
  refine (walk_frame s t a true).mono ?_ fun e he => absurd he.2 (not_le.mpr hva)
  rintro (_ | p) s' ⟨hpte, hr⟩
  · simp
  · obtain ⟨rfl, hreach⟩ := hr p rfl
    rw [wp_bind, wp_load, leaf_eq_pte (p := ⟨t, idx a⟩) hreach, hpte, hfree]
    simp only [Bool.false_eq_true, if_false, wp_bind, wp_store, wp_pure]

lemma wp_unmapPage (h : s.kmem.Ok) (hskip : a < MAXVA → (s.pte ⟨t, idx a⟩).v = false → Q () s)
    (hdrop : ∀ k, a < MAXVA → (s.pt t).reach (idx a) → (s.pte ⟨t, idx a⟩).v →
      s.kmem.Dropped k (s.pte ⟨t, idx a⟩).pa →
      Q () (setPt { s with kmem := k } t ((s.pt t).setLeaf (idx a) .zero))) :
    wp (unmapPage t a true) s Q fun _ => True := by
  rw [unmapPage, wp_bind, walk_look]
  refine ⟨fun _ => trivial, fun hva => ?_⟩
  by_cases hreach : (s.pt t).reach (idx a)
  · simp only [hreach, if_true, wp_bind, wp_load]
    rw [leaf_eq_pte (p := ⟨t, idx a⟩) hreach]
    by_cases hv : (s.pte ⟨t, idx a⟩).v
    · simp only [hv, if_true, wp_bind, wp_kfree, wp_store]
      exact ⟨fun k hk => hdrop k hva hreach hv (kfree_spec h hk), fun _ _ => trivial⟩
    · simp only [hv]
      exact wp_pure.mpr (hskip hva (by simpa using hv))
  · simp only [hreach]
    exact wp_pure.mpr (hskip hva (by simp [pte, PageTable.get, hreach, Pte.zero]))

/-! ## Fresh pages -/

/-- A page just taken is mapped, unless there is no memory for the tables. -/
lemma wp_mappages_fresh {Q : Bool → Vm → Prop} (h : s.Inv (update o r 1))
    (ho : o r = 0) (hu : s.user t) (hperm : ¬ (perm.w ∧ perm.cow))
    (hok : ∀ s', a < MAXVA → s'.Inv o → s'.user = s.user → s.kmem.Keeps s'.kmem →
      (s.pte ⟨t, idx a⟩).v = false →
      (∀ p, s'.pte p = if p = ⟨t, idx a⟩ then ⟨true, perm, r⟩ else s.pte p) → Q true s')
    (hfail : ∀ s', s'.Inv (update o r 1) → s.Frame s' → Q false s') :
    wp (mappages t a PGSIZE r perm) s Q fun _ => True := by
  refine wp_mappages h hu hfail ?_
  intro s' hva h' hf hreach hv
  refine hok _ hva (h'.map (p := ⟨t, idx a⟩) ho (by rw [hf.user]; exact hu) hreach hv hperm) hf.user
    hf.keeps (hf.pte _ ▸ hv) ?_
  intro p
  rw [pte_store (p := ⟨t, idx a⟩) hreach, hf.pte]

/-- A page of zeros. -/
def zeroPage (perm : Perm) : UPage := ⟨fun _ => 0, perm.r, perm.w || perm.cow, perm.x, perm.u⟩

lemma page_of_fresh (h : s.Inv o) (hk : s.kmem.Took k r) {c : Slot}
    (hkeep : (k.memset r 0).Keeps s'.kmem)
    (hpte : ∀ p, s'.pte p = if p = c then ⟨true, perm, r⟩ else s.pte p) (p : Slot)
    (hp : s.user p.root) :
    s'.page p = if p = c then some (zeroPage perm) else s.page p := by
  split
  · next hpc =>
    have hmem : ∀ i, i < PGSIZE → s'.kmem.mem (r + i) = 0 := by
      intro i hi
      have hpage : (k.memset r 0).IsPage r := (isPage_congr hk.kend r).mpr hk.page
      have hpos : 0 < (k.memset r 0).kref r := by
        rw [show (k.memset r 0).kref r = k.kref r from rfl, hk.count]
        exact Int.one_pos
      rw [hkeep.mem r hpage hpos (r + i) ⟨by omega, by omega⟩]
      exact if_pos ⟨by omega, by omega⟩
    simp only [page, hpte p, if_pos hpc, if_true, zeroPage, some.injEq, UPage.mk.injEq,
      and_self, and_true]
    funext i
    split
    · next hi => exact hmem i hi
    · rfl
  · next hpc =>
    have hkeep0 : s.kmem.Keeps (k.memset r 0) := hk.keeps _ fun b hb => if_neg hb
    exact page_of_keeps h hp (by rw [hpte, if_neg hpc]) (hkeep0.trans hkeep).mem

/-! ## Copy-on-write -/

lemma markCow_w (pte : Pte) : (markCow pte).perm.w = false := by
  unfold markCow
  split
  · rfl
  · next hw => simpa using hw

lemma markCow_pa (pte : Pte) : (markCow pte).pa = pte.pa ∧ (markCow pte).v = pte.v := by
  unfold markCow
  split <;> exact ⟨rfl, rfl⟩

lemma markCow_sim (pte : Pte) : PteSim pte (markCow pte) := by
  unfold markCow
  split
  · next hw => exact ⟨rfl, rfl, rfl, by simp [hw], rfl, rfl⟩
  · exact .refl _

lemma markCow_ok {pte : Pte} (hv : pte.v) : PteOk (markCow pte) := by
  refine ⟨?_, ?_⟩
  · intro hz
    rw [(markCow_pa pte).2, hv] at hz
    cases hz
  · rw [markCow_w]
    simp

lemma Inv.weaken (h : s.Inv o) (hreach : (s.pt p.root).reach p.idx) {new : Pte}
    (hnew : PteOk new) (hv : new.v = (s.pte p).v) (hpa : new.pa = (s.pte p).pa)
    (hw : new.perm.w → (s.pte p).perm.w) :
    (s.setPt p.root ((s.pt p.root).setLeaf p.idx new)).Inv o := by
  refine ⟨h.kmem, ?_, ptes_store hreach hnew h.ptes⟩
  refine h.refs.congr (fun _ _ => rfl) ?_ ?_
  · intro q j
    rw [refers_store hreach]
    split
    · next hj =>
      subst hj
      simp [Refers, hv, hpa]
    · exact Iff.rfl
  · intro q j _ hx
    by_cases hj : j = .leaf p
    · subst hj
      simp only [Excl, pte_store hreach, if_true] at hx
      exact hw hx
    · exact (excl_store hreach _ hj).mp hx

lemma Inv.mark (h : s.Inv o) (hreach : (s.pt p.root).reach p.idx) (hv : (s.pte p).v) :
    (s.setPt p.root ((s.pt p.root).setLeaf p.idx (markCow (s.pte p)))).Inv o := by
  refine h.weaken hreach (markCow_ok hv) (markCow_pa _).2 (markCow_pa _).1 ?_
  rw [markCow_w]
  exact fun hw => nomatch hw

/-- The page that entry `p` maps without `PTE_W` is mapped by entry `c` as well. -/
lemma Inv.share {c : Slot} (h : s.Inv o) (hup : s.user p.root) (huc : s.user c.root)
    (hreach : (s.pt c.root).reach c.idx) (hv : (s.pte p).v) (hw : (s.pte p).perm.w = false)
    (hfree : (s.pte c).v = false) (perm : Perm) (hperm : perm.w = false) :
    Inv o { s.setPt c.root ((s.pt c.root).setLeaf c.idx ⟨true, perm, (s.pte p).pa⟩) with
      kmem := s.kmem.kaddref (s.pte p).pa } := by
  have hp : s.Refers (s.pte p).pa (.leaf p) := ⟨hup, hv, rfl⟩
  have hpage := h.refs.page_of _ _ hp
  have hnone : ∀ q, ¬ s.Refers q (.leaf c) := by
    intro q hq
    simp [Refers, hfree] at hq
  refine ⟨h.kmem.kaddref hpage (h.refs.pos hp), ?_,
    ptes_store hreach ⟨(nomatch ·), by simp [hperm]⟩ h.ptes⟩
  refine h.refs.share (i := .leaf c) hp hnone ?_ ?_ ?_ (kaddref_kref ..)
    fun q hq hne => kaddref_kref_of_ne h.kmem hpage hq hne
  · intro q j
    refine (refers_store hreach _ q j).trans ?_
    split
    · next hj =>
      subst hj
      simp [hnone q, huc, eq_comm]
    · next hj => simp [hj]
  · intro q j hj hx
    have hne : j ≠ .leaf c := by
      rintro rfl
      exact hnone q hj
    exact (excl_store hreach _ hne).mp hx
  · intro j hj hx
    by_cases hne : j = .leaf c
    · subst hne
      have : (s.setPt c.root ((s.pt c.root).setLeaf c.idx ⟨true, perm, (s.pte p).pa⟩)).Excl
        (.leaf c) := hx
      simp [Excl, pte_store hreach, hperm] at this
    · have hj' := (refers_store hreach _ _ j).mp hj
      rw [if_neg hne] at hj'
      have hx' := (excl_store hreach _ hne).mp hx
      -- an exclusive reference would be entry `p` itself, which has no `PTE_W`
      have heq := h.refs.excl _ _ _ hj' hx' hp
      subst heq
      simp [Excl, hw] at hx'

/-- Entry `p` is moved from its page to the page `r` just taken. -/
lemma Inv.move (h : s.Inv (update o r 1)) (ho : o r = 0)
    (hu : s.user p.root) (hreach : (s.pt p.root).reach p.idx) (hv : (s.pte p).v) (perm : Perm)
    (hperm : ¬ (perm.w ∧ perm.cow)) (hk : s.kmem.Dropped k (s.pte p).pa) :
    (setPt { s with kmem := k } p.root ((s.pt p.root).setLeaf p.idx ⟨true, perm, r⟩)).Inv o := by
  have hreach' : (({ s with kmem := k } : Vm).pt p.root).reach p.idx := hreach
  refine ⟨hk.ok, ?_, ptes_store hreach' ⟨(nomatch ·), hperm⟩ h.ptes⟩
  rw [setPt_kmem, isPage_eq hk.kend]
  have hdet : RefInv s.kmem.IsPage k.kref (fun q j => s.Refers q j ∧ j ≠ .leaf p) s.Excl
      (update o r 1) :=
    h.refs.detach (i := .leaf p) ⟨hu, hv, rfl⟩ (by rintro q ⟨-, -, hq⟩; exact hq.symm)
      (fun _ _ => Iff.rfl) (fun _ _ _ hx => hx) hk.count hk.other
  refine hdet.attach (i := .leaf p) (update_self ..) ?_ ?_ ho ?_
  · intro q j
    refine (refers_store hreach' _ q j).trans ?_
    split
    · next hj => simp [hj, hu, eq_comm]
    · next hj =>
      simp only [hj, ne_eq, not_false_eq_true, and_true, and_false, or_false]
      exact Iff.rfl
  · rintro q j ⟨-, hne⟩ hx
    exact (excl_store hreach' _ hne).mp hx
  · intro q hq
    rw [update_of_ne hq]

/-- If the entry maps a page, it is the only one that does. -/
def Sole (s : Vm) (p : Slot) : Prop := (s.pte p).v → s.kmem.kref (s.pte p).pa = 1

instance (s : Vm) (p : Slot) : Decidable (s.Sole p) := inferInstanceAs (Decidable (_ → _))

lemma Inv.eq_of_sole (h : s.Inv o) (hp : s.user p.root) (hq : s.user q.root)
    (hpv : (s.pte p).v) (hqv : (s.pte q).v) (hsole : s.Sole p) (hpa : (s.pte q).pa = (s.pte p).pa) :
    q = p := by
  have hrp : s.Refers (s.pte p).pa (.leaf p) := ⟨hp, hpv, rfl⟩
  have hrq : s.Refers (s.pte p).pa (.leaf q) := ⟨hq, hqv, hpa⟩
  exact Ref.leaf.inj (h.refs.eq_of_one (hsole hpv) hrp hrq)

lemma Inv.valid_of_cow (h : s.Inv o) (hu : s.user p.root) (hcow : (s.pte p).perm.cow) :
    (s.pte p).v := by
  by_contra hv
  rw [(h.ptes p hu).zero (by simpa using hv)] at hcow
  simp [Pte.zero] at hcow

/-- Entry `p` has been moved to a copy of its page, which nobody else had mapped. -/
lemma page_of_moved (h : s.Inv o) (hu : s.user p.root) (hv : (s.pte p).v)
    (hcow : (s.pte p).perm.cow) (hsole : s.Sole p) {k' : Kmem} (hk : s.kmem.Took k r)
    (hdrop : (k.copyPage r (s.pte p).pa).Dropped k' (s.pte p).pa) (hk' : s'.kmem = k')
    (hpte : ∀ q, s'.pte q = if q = p then ⟨true, { (s.pte p).perm with w := true, cow := false }, r⟩
      else s.pte q) (q : Slot) (hq : s.user q.root) : s'.page q = s.page q := by
  have href : s.Refers (s.pte p).pa (.leaf p) := ⟨hu, hv, rfl⟩
  have hpage := h.refs.page_of _ _ href
  have hpos := h.refs.pos href
  have hne : r ≠ (s.pte p).pa := by
    rintro rfl
    rw [hk.free] at hpos
    exact lt_irrefl _ hpos
  have hkeep : s.kmem.Keeps (k.copyPage r (s.pte p).pa) := hk.keeps _ fun a ha => if_neg ha
  by_cases hqp : q = p
  · subst hqp
    simp only [page, hpte, if_true, hv, hcow, Bool.or_true, some.injEq, UPage.mk.injEq,
      and_self, and_true, Bool.or_false]
    funext i
    split
    · next hi =>
      have hout : ¬ ((s.pte q).pa ≤ r + i ∧ r + i < (s.pte q).pa + PGSIZE) :=
        hk.page.disjoint hpage hne ⟨by omega, by omega⟩
      have hcopy : (k.copyPage r (s.pte q).pa).mem (r + i) = k.mem ((s.pte q).pa + i) := by
        refine (if_pos ⟨by omega, by omega⟩).trans ?_
        rw [Nat.add_sub_cancel_left]
      rw [hk', hdrop.mem, if_neg hout, hcopy]
      refine hk.mem _ ?_
      exact hpage.disjoint hk.page hne.symm ⟨by omega, by omega⟩
    · rfl
  · refine page_congr (by rw [hpte, if_neg hqp]; exact .refl _) ?_
    intro hqv a ha
    have hrefq : s.Refers (s.pte q).pa (.leaf q) := ⟨hq, hqv, rfl⟩
    have hpa : (s.pte q).pa ≠ (s.pte p).pa := fun heq =>
      hqp (h.eq_of_sole hu hq hv hqv hsole heq)
    have hout := (h.refs.page_of _ _ hrefq).disjoint hpage hpa ha
    rw [hk', hdrop.mem, if_neg hout]
    exact hkeep.mem _ (h.refs.page_of _ _ hrefq) (h.refs.pos hrefq) a ha

/-! ## Creating and tearing down -/

lemma addRoot_pte (p : Slot) : (s.addRoot r).pte p = if p.root = r then .zero else s.pte p := by
  by_cases hp : p.root = r
  · simp [pte, addRoot, hp, PageTable.get, reach, PageTable.empty]
  · simp [pte, addRoot, hp]

lemma Inv.root_free (h : s.Inv (update o r 1)) : s.user r = false := by
  by_contra hu
  exact h.refs.not_of_held (p := r) (by simp) (.root r) ⟨by simpa using hu, rfl⟩

lemma Inv.addRoot (h : s.Inv (update o r 1)) (ho : o r = 0) : (s.addRoot r).Inv o := by
  have hroot := h.root_free
  have hself : ∀ t, (s.addRoot r).user t = true ↔ t = r ∨ s.user t = true := by
    intro t
    by_cases ht : t = r <;> simp [Vm.addRoot, ht]
  have hpt : ∀ t, (s.addRoot r).pt t = if t = r then .empty else s.pt t := by
    intro t
    by_cases ht : t = r <;> simp [Vm.addRoot, ht]
  refine ⟨h.kmem, h.refs.attach (i := .root r) (update_self ..) ?_ ?_ ho ?_, ?_⟩
  · rintro q (⟨t, x⟩ | t | ⟨t, i⟩ | ⟨t, ij⟩)
    · by_cases ht : t = r
      · simp [Refers, addRoot_pte, ht, hroot, Pte.zero]
      · simp [Refers, addRoot_pte, ht, hself]
    · by_cases ht : t = r
      · simp [Refers, hself, ht, hroot, eq_comm]
      · simp [Refers, hself, ht]
    · by_cases ht : t = r
      · simp [Refers, hpt, ht, hroot, PageTable.empty]
      · simp [Refers, hpt, hself, ht]
    · by_cases ht : t = r
      · simp [Refers, hpt, ht, hroot, PageTable.empty]
      · simp [Refers, hpt, hself, ht]
  · rintro q (p | _ | _ | _) hj hx
    · by_cases hp : p.root = r
      · simp [Excl, addRoot_pte, hp, Pte.zero] at hx
      · simpa only [Excl, addRoot_pte, if_neg hp] using hx
    · trivial
    · trivial
    · trivial
  · intro q hq
    rw [update_of_ne hq]
  · intro p hu
    rw [addRoot_pte]
    split
    · exact ⟨fun _ => rfl, fun hc => nomatch hc.1⟩
    · next hp => exact h.ptes p (((hself _).mp hu).resolve_left hp)

lemma Inv.unlink {q : ℕ} (h : s.Inv o) (hk : s.kmem.Dropped k q)
    (hj : s.Refers q j) (hlink : ∀ p, j ≠ .leaf p) (huniq : ∀ q', s.Refers q' j → q' = q)
    (hk' : s'.kmem = k) (huser : ∀ t, s'.user t → s.user t) (hpte : ∀ p, s'.pte p = s.pte p)
    (hR : ∀ q' j', s'.Refers q' j' ↔ s.Refers q' j' ∧ j' ≠ j) :
    s'.Inv o ∧ (∀ p, s'.pte p = s.pte p) ∧ ∀ p, s'.user p.root → s'.page p = s.page p := by
  have hx : s.Excl j := by
    cases j with
    | leaf p => exact absurd rfl (hlink p)
    | _ => trivial
  refine ⟨⟨hk' ▸ hk.ok, ?_, ?_⟩, hpte, ?_⟩
  · rw [hk', isPage_eq hk.kend]
    refine h.refs.detach hj huniq hR ?_ hk.count hk.other
    rintro q' (p | _ | _ | _) - hx
    · simpa only [Excl, hpte] using hx
    · trivial
    · trivial
    · trivial
  · intro p hp
    rw [hpte]
    exact h.ptes p (huser _ hp)
  · intro p hp
    refine page_of_dropped h (huser _ hp) hk hk' (hpte p) ?_
    rintro hv rfl
    have hleaf : s.Refers (s.pte p).pa (.leaf p) := ⟨huser _ hp, hv, rfl⟩
    exact hlink p (h.refs.excl _ _ _ hj hx hleaf).symm

section

variable (h : s.Inv o) (hu : s.user t)
include h hu

lemma Inv.cutLow {page : ℕ} (hmid : ((s.pt t).mid ij.1).isSome) (hlow : (s.pt t).low ij = some page)
    (hleaf : ∀ x, ((s.pt t).leaf (ij.1, ij.2, x)).v = false) (hk : s.kmem.Dropped k page) :
    (setPt { s with kmem := k } t ((s.pt t).clearLow ij)).Inv o ∧
      (∀ p, (setPt { s with kmem := k } t ((s.pt t).clearLow ij)).pte p = s.pte p) ∧
      ∀ p, s.user p.root →
        (setPt { s with kmem := k } t ((s.pt t).clearLow ij)).page p = s.page p := by
  have hget : ∀ x, ((s.pt t).clearLow ij).get x = (s.pt t).get x := by
    rintro ⟨i, j, x⟩
    by_cases hij : (i, j) = ij
    · subst hij
      have hz := (h.ptes ⟨t, (i, j, x)⟩ hu).zero
      simp only [pte, PageTable.get, reach, hlow, isSome_some, hmid, Bool.and_self,
        if_true] at hz
      simp [PageTable.get, reach, clearLow, hlow, hmid, hz (hleaf x)]
    · simp [PageTable.get, reach, clearLow, hij]
  have hpte := pte_setPt_congr (s := { s with kmem := k }) (t := t) hget
  refine h.unlink (j := .low t ij) hk ⟨hu, hmid, hlow⟩ (fun _ => nofun) ?_ rfl
    (fun _ hu' => hu') hpte ?_
  · rintro q ⟨-, -, hq⟩
    rw [hlow] at hq
    exact (some.inj hq).symm
  · rintro q (p | t' | ⟨t', i'⟩ | ⟨t', ij'⟩)
    · simp only [Refers, hpte, setPt_user, ne_eq, reduceCtorEq, not_false_eq_true, and_true]
      exact Iff.rfl
    · simp [Refers]
    · by_cases ht : t' = t
      · subst ht
        simp [Refers, setPt_pt_self, clearLow]
      · simp [Refers, setPt_pt_of_ne ht]
    · by_cases ht : t' = t
      · subst ht
        by_cases hij : ij' = ij <;> simp [Refers, setPt_pt_self, clearLow, hij]
      · simp [Refers, setPt_pt_of_ne ht, ht]

lemma Inv.cutMid {page : ℕ}
    (hmid : (s.pt t).mid i = some page) (hlow : ∀ j, (s.pt t).low (i, j) = none)
    (hk : s.kmem.Dropped k page) :
    (setPt { s with kmem := k } t ((s.pt t).clearMid i)).Inv o ∧
      (∀ p, (setPt { s with kmem := k } t ((s.pt t).clearMid i)).pte p = s.pte p) ∧
      ∀ p, s.user p.root →
        (setPt { s with kmem := k } t ((s.pt t).clearMid i)).page p = s.page p := by
  have hget : ∀ x, ((s.pt t).clearMid i).get x = (s.pt t).get x := by
    rintro ⟨i', j, x⟩
    by_cases hi : i' = i
    · subst hi
      simp [PageTable.get, reach, clearMid, hlow]
    · simp [PageTable.get, reach, clearMid, hi]
  have hpte := pte_setPt_congr (s := { s with kmem := k }) (t := t) hget
  refine h.unlink (j := .mid t i) hk ⟨hu, hmid⟩ (fun _ => nofun) ?_ rfl (fun _ hu' => hu') hpte ?_
  · rintro q ⟨-, hq⟩
    rw [hmid] at hq
    exact (some.inj hq).symm
  · rintro q (p | t' | ⟨t', i'⟩ | ⟨t', i', j'⟩)
    · simp only [Refers, hpte, setPt_user, ne_eq, reduceCtorEq, not_false_eq_true, and_true]
      exact Iff.rfl
    · simp [Refers]
    · by_cases ht : t' = t
      · subst ht
        by_cases hi : i' = i <;> simp [Refers, setPt_pt_self, clearMid, hi]
      · simp [Refers, setPt_pt_of_ne ht, ht]
    · by_cases ht : t' = t
      · subst ht
        by_cases hi : i' = i
        · subst hi
          simp [Refers, setPt_pt_self, clearMid, hlow]
        · simp [Refers, setPt_pt_self, clearMid, hi]
      · simp [Refers, setPt_pt_of_ne ht]

lemma Inv.dropRoot (hmid : ∀ i, (s.pt t).mid i = none) (hk : s.kmem.Dropped k t) :
    (Vm.dropRoot { s with kmem := k } t).Inv o ∧
      (∀ p, (Vm.dropRoot { s with kmem := k } t).pte p = s.pte p) ∧
      ∀ p, (Vm.dropRoot { s with kmem := k } t).user p.root →
        (Vm.dropRoot { s with kmem := k } t).page p = s.page p := by
  have hzero : ∀ x, s.pte ⟨t, x⟩ = .zero := by
    intro x
    simp [pte, PageTable.get, reach, hmid]
  have huser : ∀ t', (Vm.dropRoot { s with kmem := k } t).user t' = true ↔
      s.user t' = true ∧ t' ≠ t := by
    intro t'
    by_cases ht : t' = t <;> simp [Vm.dropRoot, ht]
  refine h.unlink (j := .root t) hk ⟨hu, rfl⟩ (fun _ => nofun) ?_ rfl
    (fun t' ht' => ((huser t').mp ht').1) (fun _ => rfl) ?_
  · rintro q ⟨-, hq⟩
    exact hq.symm
  · rintro q (⟨t', x⟩ | t' | ⟨t', i'⟩ | ⟨t', ij'⟩)
    · by_cases ht : t' = t
      · subst ht
        simp [Refers, huser, hzero, Pte.zero]
      · have hsame : (Vm.dropRoot { s with kmem := k } t).pte ⟨t', x⟩ = s.pte ⟨t', x⟩ := rfl
        simp [Refers, huser, ht, hsame]
    · simp [Refers, huser, and_right_comm]
    · by_cases ht : t' = t
      · subst ht
        simp [Refers, huser, hmid]
      · simp [Refers, ht, Vm.dropRoot]
    · by_cases ht : t' = t
      · subst ht
        simp [Refers, huser, hmid]
      · simp [Refers, ht, Vm.dropRoot]

end

end Vm

end Xv6
