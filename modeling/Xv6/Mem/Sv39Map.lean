import Xv6.Mem.Sv39

/-!
# A page table is a finite map

`RefMap` is the reference: for each root a map from page numbers to entries. `TableOp.Effect` says
what the functions of `Mem/Sv39.lean` do to it: `mappages` inserts the pages of its range, or a
prefix of them when it returns -1, `uvmunmap` deletes those of its range, `uvmclear` takes `PTE_U`
off one entry, and `walk` does nothing.

`Represents` ties memory to a reference map, and each function keeps it (`walk_represents`,
`mappages_represents`, `uvmunmap_represents`, `uvmclear_represents`). `page_tables_are_maps` is the
result for whole runs on any number of tables.
-/

namespace Xv6.Sv39

open Prog Option

/-! ## The reference -/

/-- The entry of each page number, for each root. -/
abbrev RefMap := ℕ → ℕ → Option (BitVec 64)

namespace RefMap

def setEntry (M : RefMap) (root n : ℕ) (e : Option (BitVec 64)) : RefMap := fun root' n' =>
  if root' = root ∧ n' = n then e else M root' n'

/-- The pages `n₀ .. n₀ + k - 1` are mapped to `pa` and the pages after it. -/
def mapped (M : RefMap) (root n₀ k : ℕ) (pa perm : BitVec 64) : RefMap := fun root' n =>
  if root' = root ∧ n₀ ≤ n ∧ n < n₀ + k then
    some (mkPte (pa + BitVec.ofNat 64 ((n - n₀) * PGSIZE)) perm)
  else M root' n

/-- The pages `n₀ .. n₀ + k - 1` are not mapped. -/
def unmapped (M : RefMap) (root n₀ k : ℕ) : RefMap := fun root' n =>
  if root' = root ∧ n₀ ≤ n ∧ n < n₀ + k then none else M root' n

/-- `PTE_U` is taken off one entry. -/
def cleared (M : RefMap) (root n : ℕ) : RefMap :=
  M.setEntry root n ((M root n).map fun e => e &&& ~~~PTE_U)

lemma setEntry_self {M : RefMap} {root n : ℕ} {e : Option (BitVec 64)} (h : M root n = e) :
    M.setEntry root n e = M := by
  funext root' n'
  rw [setEntry]
  split_ifs with hx
  · rw [hx.1, hx.2, h]
  · rfl

lemma mapped_zero (M : RefMap) (root n0 : ℕ) (pa perm : BitVec 64) :
    M.mapped root n0 0 pa perm = M := by
  funext root' n
  rw [mapped, if_neg (by omega)]

lemma mapped_succ (M : RefMap) (root n0 k : ℕ) (pa perm : BitVec 64) :
    (M.mapped root n0 k pa perm).setEntry root (n0 + k)
      (some (mkPte (pa + BitVec.ofNat 64 (k * PGSIZE)) perm)) =
      M.mapped root n0 (k + 1) pa perm := by
  funext root' n
  by_cases hn : root' = root ∧ n = n0 + k
  · obtain ⟨rfl, rfl⟩ := hn
    rw [setEntry, if_pos ⟨rfl, rfl⟩, mapped, if_pos (by omega), Nat.add_sub_cancel_left]
  · rw [setEntry, if_neg hn, mapped, mapped]
    exact if_congr (by omega) rfl rfl

lemma unmapped_zero (M : RefMap) (root n0 : ℕ) : M.unmapped root n0 0 = M := by
  funext root' n
  rw [unmapped, if_neg (by omega)]

lemma unmapped_succ (M : RefMap) (root n0 k : ℕ) :
    (M.unmapped root n0 k).setEntry root (n0 + k) none = M.unmapped root n0 (k + 1) := by
  funext root' n
  by_cases hn : root' = root ∧ n = n0 + k
  · obtain ⟨rfl, rfl⟩ := hn
    rw [setEntry, if_pos ⟨rfl, rfl⟩, unmapped, if_pos (by omega)]
  · rw [setEntry, if_neg hn, unmapped, unmapped]
    exact if_congr (by omega) rfl rfl

end RefMap

/-! ## What a memory represents -/

/-- The entry found for every address is that of the reference. -/
def Represents (s : Kmem) (roots : Set ℕ) (M : RefMap) : Prop :=
  ∀ root ∈ roots, ∀ va, va < MAXVA → found s root va = M root (va / PGSIZE)

variable {s s' t : Kmem} {roots : Set ℕ} {root va n f : ℕ} {M : RefMap} {pa perm : BitVec 64}
  {doFree : Bool}

lemma path_eq_iff {a b : ℕ} (ha : a < MAXVA) (hb : b < MAXVA) :
    (path a = path b ∧ px 0 a = px 0 b) ↔ a / PGSIZE = b / PGSIZE := by
  have h : (path a = path b ∧ px 0 a = px 0 b) ↔ idx a = idx b := by
    simp only [path, idx, List.cons.injEq, and_true, Prod.mk.injEq]
    tauto
  rw [h]
  constructor
  · intro he
    have hv := congrArg vaOf he
    rw [vaOf_idx ha, vaOf_idx hb] at hv
    exact Nat.eq_of_mul_eq_mul_right (by norm_num) hv
  · intro he
    rw [← idx_vaOf (idx a), ← idx_vaOf (idx b), vaOf_idx ha, vaOf_idx hb, he]

lemma found_eq (h : Tables s roots) (hr : root ∈ roots) (hva : va < MAXVA) :
    found s root va = entry s (root / PGSIZE) va := by
  obtain ⟨hok, herr⟩ := walk_spec va false h hr
  rw [found, entry, Radix.get]
  cases hw : walk root va false s with
  | error e => exact absurd (herr e hw) (by omega)
  | ok res =>
    obtain ⟨o, t⟩ := res
    obtain ⟨-, -, -, heq, ho⟩ := hok o t hw
    obtain rfl := heq rfl
    cases o with
    | none => rw [ho rfl]; rfl
    | some a =>
      obtain ⟨f, rfl, hf⟩ := ho
      rw [hf, bind_some, next_isSome]
      rfl

lemma Same.represents (hs : Same roots s t) (h : Tables s roots) (ht : Tables t roots)
    (hM : Represents s roots M) : Represents t roots M := by
  intro root hr va hva
  rw [found_eq ht hr hva, entry, hs _ (ht.root_mem hr).1 _ rfl]
  exact (found_eq h hr hva).symm.trans (hM root hr va hva)

lemma Tables.storeEntry (h : Tables s roots) (hM : Represents s roots M) (hr : root ∈ roots)
    (hva : va < MAXVA) (hf : Radix.page next (nodes s) (root / PGSIZE) (path va) = some f)
    (w : BitVec 64) :
    Tables (putPte s (f * PGSIZE + 8 * (px 0 va).val) w) roots ∧
      Represents (putPte s (f * PGSIZE + 8 * (px 0 va).val) w) roots
        (M.setEntry root (va / PGSIZE) (if valid w then some w else none)) ∧
      ∀ n, Interior (putPte s (f * PGSIZE + 8 * (px 0 va).val) w) roots n ↔ Interior s roots n := by
  obtain ⟨hmem, hmul⟩ := h.root_mem hr
  have hnodes := nodes_store s f (px 0 va) w
  have hpage : ∀ r ∈ rootPages roots, ∀ p : List (Fin 512), p.length ≤ 2 →
      Radix.page next (nodes (putPte s (f * PGSIZE + 8 * (px 0 va).val) w)) r p =
        Radix.page next (nodes s) r p := by
    intro r hr' p hp
    rw [hnodes]
    exact h.tree.page_put hmem rfl hf hr' hp
  have huses := Radix.uses_congr hpage
  have hT : Tables (putPte s (f * PGSIZE + 8 * (px 0 va).val) w) roots :=
    ⟨⟨h.ok.kend_ge, h.ok.listed⟩, h.aligned, h.tree.congr hpage,
      fun n hn => h.below n ((huses n).mp hn), fun n hn => h.inUse n ((huses n).mp hn)⟩
  refine ⟨hT, fun root' hr' va' hva' => ?_, huses⟩
  obtain ⟨hmem', hmul'⟩ := h.root_mem hr'
  rw [found_eq hT hr' hva', entry, hnodes,
    h.tree.get_put hmem rfl hf hmem' (le_refl (path va').length), next_isSome, RefMap.setEntry]
  have hroot : root' / PGSIZE = root / PGSIZE ↔ root' = root :=
    ⟨fun he => by rw [← hmul, ← hmul', he], fun he => by rw [he]⟩
  have hiff := and_congr hroot (path_eq_iff hva' hva)
  rw [if_congr hiff rfl rfl, ← hM root' hr' va' hva', found_eq h hr' hva']

section

variable (hM : Represents s roots M) (h : Tables s roots) (hr : root ∈ roots) (hva : va < MAXVA)
include hM h hr hva

/-- What the word at the address that `walk` returns has to do with the reference. -/
lemma Represents.entry_eq (hf : Radix.page next (nodes s) (root / PGSIZE) (path va) = some f) :
    M root (va / PGSIZE) =
      if valid (nodes s f (px 0 va)) then some (nodes s f (px 0 va)) else none := by
  rw [← hM root hr va hva, found_eq h hr hva, entry, Radix.get, hf, bind_some, next_isSome]

lemma Represents.entry_none (hf : Radix.page next (nodes s) (root / PGSIZE) (path va) = none) :
    M root (va / PGSIZE) = none := by
  rw [← hM root hr va hva, found_eq h hr hva, entry, Radix.get, hf, bind_none]

end

/-! ## The functions -/

/-- The error does not matter: the results are about calls that return. -/
def anyPanic : VmPanic → Prop := fun _ => True

lemma walk_represents {alloc : Bool} (h : Tables s roots) (hM : Represents s roots M)
    (hr : root ∈ roots) :
    wp (walk root va alloc) s (fun _ t => Tables t roots ∧ Represents t roots M) anyPanic :=
  (walk_spec va alloc h hr).mono (fun _ _ ⟨_, hT, hS, _⟩ => ⟨hT, hS.represents h hT hM⟩) fun _
    _ => trivial

lemma mapPage_represents (h : Tables s roots) (hM : Represents s roots M) (hr : root ∈ roots) :
    wp (mapPage root va pa perm) s (fun o t => Tables t roots ∧ match o with
      | some _ => Represents t roots M
      | none => Represents t roots (M.setEntry root (va / PGSIZE) (some (mkPte pa perm))))
      anyPanic := by
  rw [mapPage, wp_bind]
  refine (walk_spec va true h hr).mono ?_ fun _ _ => trivial
  rintro (_ | a) t ⟨hva, hT, hS, -, ho⟩
  · exact wp_pure.mpr ⟨hT, hS.represents h hT hM⟩
  · obtain ⟨f, rfl, hf⟩ := ho
    have hst := hT.storeEntry (hS.represents h hT hM) hr hva hf (mkPte pa perm)
    rw [valid_mkPte, if_pos rfl] at hst
    simp only [wp_bind, wp_get, wp_ite, wp_throw, wp_store, wp_pure]
    exact ⟨fun _ => trivial, fun _ => ⟨hst.1, hst.2.1⟩⟩

lemma page_add (va k : ℕ) : (va + k * PGSIZE) / PGSIZE = va / PGSIZE + k :=
  Nat.add_mul_div_right _ _ (by norm_num)

lemma mappages_represents {size : ℕ} (h : Tables s roots)
    (hM : Represents s roots M) (hr : root ∈ roots) :
    wp (mappages root va size pa perm) s (fun b t => Tables t roots ∧
      if b then Represents t roots (M.mapped root (va / PGSIZE) (size / PGSIZE) pa perm)
      else ∃ k < size / PGSIZE, Represents t roots (M.mapped root (va / PGSIZE) k pa perm))
      anyPanic := by
  simp only [mappages, wp_ite, wp_throw, wp_bind, wp_pure]
  refine ⟨fun _ => trivial, fun _ => ⟨fun _ => trivial, fun _ => ⟨fun _ => trivial, fun _ => ?_⟩⟩⟩
  refine (wp_forUntil
    (fun k t => Tables t roots ∧ Represents t roots (M.mapped root (va / PGSIZE) k pa perm))
    (Q := fun _ t => Tables t roots ∧
      ∃ k < size / PGSIZE, Represents t roots
        (M.mapped root (va / PGSIZE) k pa perm)) ?_ ?_).post ?_
  · exact ⟨h, by rwa [RefMap.mapped_zero]⟩
  · rintro k t - hk ⟨hT, hR⟩
    refine (mapPage_represents hT hR hr).post ?_
    rintro (_ | u) t' ⟨hT', hR'⟩
    · refine ⟨hT', ?_⟩
      rwa [page_add, RefMap.mapped_succ] at hR'
    · exact ⟨hT', k, by omega, hR'⟩
  · rintro (_ | u) t hpost
    · rw [loopPost_none, Nat.zero_add] at hpost
      exact hpost
    · exact hpost

lemma wp_kfree {pa : ℕ} {Q : Unit → Kmem → Prop} {E : VmPanic → Prop} : wp (kfree pa) s Q E ↔
      (∀ s', s.kfree pa = .ok s' → Q () s') ∧ ∀ e, s.kfree pa = .error e → E (.kfree e) := by
  simp only [kfree, wp_bind, wp_get]
  cases s.kfree pa <;> simp

lemma Tables.kfree {w : BitVec 64} (h : Tables s roots) (hw : ¬ Interior s roots (ppn w))
    (hk : s.kfree (pte2pa w).toNat = .ok t) :
    Tables t roots ∧ Same roots s t ∧ (∀ n, Interior t roots n ↔ Interior s roots n) ∧
      ∀ n, Interior s roots n → nodes t n = nodes s n := by
  have hd := Kmem.kfree_spec h.ok hk
  rw [← ppn_mul] at hk hd
  have hmem : ∀ n, Interior s roots n → nodes t n = nodes s n := by
    intro n hn
    have hne : n ≠ ppn w := fun he => hw (he ▸ hn)
    refine nodes_congr fun a h1 h2 => ?_
    rw [hd.mem a, if_neg]
    generalize ppn w = q at hne
    simp only [PGSIZE] at *
    omega
  have hlist : ∀ n, Interior s roots n → ¬ t.Listed (n * PGSIZE) := by
    intro n hn hl
    rcases Kmem.kfree_listed hk hl with he | hl
    · exact hw (Nat.eq_of_mul_eq_mul_right (by norm_num) he ▸ hn)
    · exact h.inUse n hn hl
  obtain ⟨hT, hS, hI⟩ := h.frame hd.ok hmem hlist
  exact ⟨hT, hS, hI, hmem⟩

lemma unmapPage_represents (h : Tables s roots) (hM : Represents s roots M) (hr : root ∈ roots)
    (hfree : doFree = true → ∀ e, M root (va / PGSIZE) = some e → ¬ Interior s roots (ppn e)) :
    wp (unmapPage root va doFree) s (fun _ t => Tables t roots ∧
      Represents t roots (M.setEntry root (va / PGSIZE) none) ∧
      ∀ n, Interior t roots n ↔ Interior s roots n) anyPanic := by
  rw [unmapPage, wp_bind]
  refine (walk_spec va false h hr).mono ?_ fun _ _ => trivial
  rintro (_ | a) t ⟨hva, -, -, heq, ho⟩ <;> obtain rfl := heq rfl
  · rw [RefMap.setEntry_self (hM.entry_none h hr hva (ho rfl))]
    exact wp_pure.mpr ⟨h, hM, fun _ => Iff.rfl⟩
  · obtain ⟨f, rfl, hf⟩ := ho
    have hentry := hM.entry_eq h hr hva hf
    rw [wp_bind, wp_get]
    show wp (if valid (nodes t f (px 0 va)) then _ else _) t _ _
    rw [wp_ite, wp_pure]
    refine ⟨fun hv => ?_, fun hv => ?_⟩
    · rw [if_pos hv] at hentry
      cases doFree with
      | false =>
        simp only [Bool.false_eq_true, if_false, wp_store]
        exact h.storeEntry hM hr hva hf 0
      | true =>
        simp only [if_true, wp_bind, wp_kfree, wp_store]
        refine ⟨fun t' hk => ?_, fun _ _ => trivial⟩
        obtain ⟨hT, hS, hI, hmem⟩ := h.kfree (hfree rfl _ hentry) hk
        have hf' : Radix.page next (nodes t') (root / PGSIZE) (path va) = some f := by
          rw [Radix.page_congr_of_uses (h.root_mem hr).1 le_rfl hmem, hf]
        obtain ⟨h1, h2, h3⟩ := hT.storeEntry (hS.represents h hT hM) hr hva hf' 0
        exact ⟨h1, h2, fun n => (h3 n).trans (hI n)⟩
    · rw [if_neg hv] at hentry
      rw [RefMap.setEntry_self hentry]
      exact ⟨h, hM, fun _ => Iff.rfl⟩

lemma uvmunmap_represents {npages : ℕ} (h : Tables s roots)
    (hM : Represents s roots M) (hr : root ∈ roots) (hend : va + npages * PGSIZE ≤ MAXVA)
    (hfree : doFree = true → ∀ n e, va / PGSIZE ≤ n → n < va / PGSIZE + npages →
      M root n = some e → ¬ Interior s roots (ppn e)) :
    wp (uvmunmap root va npages doFree) s (fun _ t => Tables t roots ∧
      Represents t roots (M.unmapped root (va / PGSIZE) npages)) anyPanic := by
  rw [uvmunmap, wp_ite, wp_throw]
  refine ⟨fun _ => trivial, fun hal => ?_⟩
  have hrounds : pagesUpto va ((va + npages * PGSIZE) % 2 ^ 64) = npages := by
    simp only [pagesUpto, PGSIZE, MAXVA] at *
    omega
  rw [hrounds]
  refine (wp_forRange (fun k t => Tables t roots ∧
    Represents t roots (M.unmapped root (va / PGSIZE) k) ∧
    ∀ n, Interior t roots n ↔ Interior s roots n) ?_ ?_).post ?_
  · exact ⟨h, by rwa [RefMap.unmapped_zero], fun _ => Iff.rfl⟩
  · rintro k t - hk ⟨hT, hR, hI⟩
    refine (unmapPage_represents hT hR hr fun hd e he => ?_).post ?_
    · rw [page_add, RefMap.unmapped, if_neg (by omega)] at he
      rw [hI]
      exact hfree hd _ e (by omega) (by omega) he
    · rintro - t' ⟨hT', hR', hI'⟩
      rw [page_add, RefMap.unmapped_succ] at hR'
      exact ⟨hT', hR', fun n => (hI' n).trans (hI n)⟩
  · rintro - t ⟨hT, hR, -⟩
    rw [Nat.zero_add] at hR
    exact ⟨hT, hR⟩

lemma uvmclear_represents (h : Tables s roots) (hM : Represents s roots M) (hr : root ∈ roots) :
    wp (uvmclear root va) s (fun _ t => Tables t roots ∧
      Represents t roots (M.cleared root (va / PGSIZE))) anyPanic := by
  rw [uvmclear, wp_bind]
  refine (walk_spec va false h hr).mono ?_ fun _ _ => trivial
  rintro (_ | a) t ⟨hva, -, -, heq, ho⟩ <;> obtain rfl := heq rfl
  · exact wp_throw.mpr trivial
  · obtain ⟨f, rfl, hf⟩ := ho
    have hentry := hM.entry_eq h hr hva hf
    have hst := h.storeEntry hM hr hva hf (nodes t f (px 0 va) &&& ~~~PTE_U)
    have hmap : (M root (va / PGSIZE)).map (fun e => e &&& ~~~PTE_U) =
        if valid (nodes t f (px 0 va) &&& ~~~PTE_U) then some (nodes t f (px 0 va) &&& ~~~PTE_U)
        else none := by
      rw [hentry, valid_clear]
      split_ifs <;> rfl
    rw [← hmap] at hst
    simp only [wp_bind, wp_get, wp_store]
    exact ⟨hst.1, hst.2.1⟩

/-! ## Runs -/

/-- A call that reads or changes a page table. -/
inductive TableOp where
  | walk (root va : ℕ) (alloc : Bool)
  | mappages (root va size : ℕ) (pa perm : BitVec 64)
  | uvmunmap (root va npages : ℕ) (doFree : Bool)
  | uvmclear (root va : ℕ)

namespace TableOp

/-- The call, and whether it succeeds. -/
def run : TableOp → MemProg Bool
  | .walk root va alloc => do
      let pte ← Sv39.walk root va alloc
      pure pte.isSome
  | .mappages root va size pa perm => Sv39.mappages root va size pa perm
  | .uvmunmap root va npages doFree => do
      Sv39.uvmunmap root va npages doFree
      pure true
  | .uvmclear root va => do
      Sv39.uvmclear root va
      pure true

/-- What the call does to the reference. -/
def Effect (M M' : RefMap) : TableOp → Bool → Prop
  | .walk .., _ => M' = M
  | .mappages root va size pa perm, true =>
    M' = M.mapped root (va / PGSIZE) (size / PGSIZE) pa perm
  | .mappages root va size pa perm, false =>
    ∃ k < size / PGSIZE, M' = M.mapped root (va / PGSIZE) k pa perm
  | .uvmunmap root va npages _, _ => M' = M.unmapped root (va / PGSIZE) npages
  | .uvmclear root va, _ => M' = M.cleared root (va / PGSIZE)

/-- The call is on one of the tables and on addresses below `MAXVA`, and `uvmunmap` is not told to
free a page-table page of the tables. -/
def Fits (roots : Set ℕ) (s : Kmem) : TableOp → Prop
  | .walk root _ _ => root ∈ roots
  | .mappages root _ _ _ _ => root ∈ roots
  | .uvmunmap root va npages doFree => root ∈ roots ∧ va + npages * PGSIZE ≤ MAXVA ∧
      (doFree = true → ∀ a e, va ≤ a → a < va + npages * PGSIZE → found s root a = some e →
        ¬ Interior s roots (ppn e))
  | .uvmclear root _ => root ∈ roots

end TableOp

/-- One call, with its result. -/
def step (s : Kmem) (a : TableOp × Bool) : Outcome VmPanic Kmem :=
  match a.1.run s with
  | .ok (b, s') => if b = a.2 then .next s' else .disabled
  | .error e => .panic e

/-- The same calls on the reference. -/
inductive RefRun : RefMap → List (TableOp × Bool) → RefMap → Prop where
  | nil (M : RefMap) : RefRun M [] M
  | cons {M M' M'' : RefMap} {a : TableOp × Bool} {as : List (TableOp × Bool)} :
      a.1.Effect M M' a.2 → RefRun M' as M'' → RefRun M (a :: as) M''

/-- The map that a memory starts with. -/
def view (s : Kmem) : RefMap := fun root n => found s root (n * PGSIZE)

lemma represents_view (h : Tables s roots) : Represents s roots (view s) := by
  intro root hr va hva
  have hle : va / PGSIZE * PGSIZE ≤ va := Nat.div_mul_le_self ..
  have hva' : va / PGSIZE * PGSIZE < MAXVA := by omega
  have hpath := (path_eq_iff hva hva').mpr (Nat.mul_div_cancel _ (by norm_num)).symm
  rw [view, found_eq h hr hva, found_eq h hr hva', entry, entry, hpath.1, hpath.2]

lemma run_represents {op : TableOp} (h : Tables s roots) (hM : Represents s roots M)
    (hfit : op.Fits roots s) :
    wp op.run s (fun b t => Tables t roots ∧ ∃ M', op.Effect M M' b ∧ Represents t roots M')
      anyPanic := by
  cases op with
  | walk root va alloc =>
    simp only [TableOp.run, wp_bind, wp_pure]
    exact (walk_represents h hM hfit).post fun _ _ h => ⟨h.1, M, rfl, h.2⟩
  | mappages root va size pa perm =>
    refine (mappages_represents h hM hfit).post ?_
    rintro (_ | _) t ⟨hT, hR⟩
    · obtain ⟨k, hk, hR⟩ := hR
      exact ⟨hT, _, ⟨k, hk, rfl⟩, hR⟩
    · exact ⟨hT, _, rfl, hR⟩
  | uvmunmap root va npages doFree =>
    obtain ⟨hr, hend, hfree⟩ := hfit
    simp only [TableOp.run, wp_bind, wp_pure]
    by_cases hal : va % PGSIZE = 0
    · have hround : va / PGSIZE * PGSIZE = va :=
        Nat.div_mul_cancel (Nat.dvd_of_mod_eq_zero hal)
      refine (uvmunmap_represents h hM hr hend fun hd n e h1 h2 he => ?_).post
        fun _ _ h => ⟨h.1, _, rfl, h.2⟩
      have hlo : va ≤ n * PGSIZE := by
        rw [← hround]
        exact Nat.mul_le_mul_right _ h1
      have hhi : n * PGSIZE < va + npages * PGSIZE := by
        rw [← hround, ← Nat.add_mul]
        exact Nat.mul_lt_mul_of_pos_right h2 (by norm_num)
      refine hfree hd (n * PGSIZE) e hlo hhi ?_
      rw [hM root hr _ (by omega), Nat.mul_div_cancel _ (by norm_num), he]
    · rw [uvmunmap, if_pos hal, wp_throw]
      trivial
  | uvmclear root va =>
    simp only [TableOp.run, wp_bind, wp_pure]
    exact (uvmclear_represents h hM hfit).post fun _ _ h => ⟨h.1, _, rfl, h.2⟩

/-- **Page tables are finite maps.**  After any sequence of calls on well-formed page tables that do
not panic, none of which frees a page-table page, the tables are well formed, and what `walk(va, 0)`
finds for every address below `MAXVA` is what the same calls make of the reference map. -/
theorem page_tables_are_maps {as : List (TableOp × Bool)} (h : Tables s roots)
    (hrun : RunOf step (fun s a => a.1.Fits roots s) s as s') :
    Tables s' roots ∧ ∃ M', RefRun (view s) as M' ∧
      ∀ root ∈ roots, ∀ va, va < MAXVA → found s' root va = M' root (va / PGSIZE) := by
  have hM := represents_view h
  generalize view s = M at hM
  induction hrun generalizing M with
  | nil s => exact ⟨h, M, .nil M, hM⟩
  | @cons s s1 s2 a as hfit hstep _ ih =>
    simp only [step] at hstep
    split at hstep
    · next b t hb =>
      split_ifs at hstep with hba
      cases hstep
      obtain ⟨hT, M', heff, hR⟩ := (run_represents h hM hfit).1 b _ hb
      obtain ⟨hT', M'', hrun', hR'⟩ := ih hT M' hR
      exact ⟨hT', M'', .cons (hba ▸ heff) hrun', hR'⟩
    · cases hstep

/-! ## A small memory -/

/-- An empty page table at the first page of RAM, and two free pages. -/
def sampleRam : Kmem where
  kend := KERNBASE
  freelist := fun c => if c = 0 then [KERNBASE + PGSIZE, KERNBASE + 2 * PGSIZE] else []
  refcnt := fun i => if i = 0 then 1 else 0
  mem := fun _ => 0
  sched := fun _ => 0
  tick := 0

lemma sampleRam_page {r q : ℕ} {p : List (Fin 512)}
    (h : Radix.page next (nodes sampleRam) r p = some q) : p = [] ∧ q = r := by
  cases p with
  | nil => exact ⟨rfl, (some.inj h).symm⟩
  | cons i p =>
    obtain ⟨q', -, hq'⟩ := bind_eq_some_iff.mp h
    have hzero : nodes sampleRam q' i = 0 := by
      rw [nodes, load, ByteArr.word64_zero (b := sampleRam.mem) fun _ _ _ => rfl]
      rfl
    rw [hzero] at hq'
    cases hq'

lemma sampleRam_tables : Tables sampleRam {KERNBASE} := by
  have hroot : ∀ n, n ∈ rootPages {KERNBASE} → n = KERNBASE / PGSIZE := by
    intro n hn
    have hn' : n * PGSIZE = KERNBASE := hn
    simp only [PGSIZE, KERNBASE] at *
    omega
  have hin : ∀ n, Interior sampleRam {KERNBASE} n → n = KERNBASE / PGSIZE := by
    rintro n ⟨r, hr, p, -, hp⟩
    rw [(sampleRam_page hp).2, hroot r hr]
  have hfree : ∀ pa, sampleRam.Listed pa → pa = KERNBASE + PGSIZE ∨ pa = KERNBASE + 2 * PGSIZE := by
    rintro pa ⟨c, hc⟩
    simp only [sampleRam] at hc
    split_ifs at hc
    · simpa using hc
    · cases hc
  refine ⟨⟨le_rfl, fun pa hpa => ?_⟩, ?_, ?_, fun n hn => ?_, fun n hn hl => ?_⟩
  · rcases hfree pa hpa with rfl | rfl <;> decide +kernel
  · rintro r rfl
    rfl
  · intro r hr r' hr' p p' q _ _ hq hq'
    rw [(sampleRam_page hq).1, (sampleRam_page hq').1, hroot r hr, hroot r' hr']
    exact ⟨rfl, rfl⟩
  · rw [hin n hn]
    decide
  · rw [hin n hn] at hl
    rcases hfree _ hl with h | h <;> revert h <;> decide

/-- Map two pages, unmap the first and clear `PTE_U` of the second. -/
def sampleOps : List (TableOp × Bool) :=
  [(.mappages KERNBASE 0 (2 * PGSIZE) 0x80100000 0x16, true), (.uvmunmap KERNBASE 0 1 false, true),
    (.uvmclear KERNBASE PGSIZE, true)]

theorem page_tables_are_maps_sample :
    ∃ s', RunOf step (fun s a => a.1.Fits {KERNBASE} s) sampleRam sampleOps s' ∧
      found s' KERNBASE 0 = none ∧ found s' KERNBASE PGSIZE = some 0x20040407 ∧
      Tables s' {KERNBASE} := by
  have hex : (exec step sampleRam sampleOps).map
      (fun s' => (found s' KERNBASE 0, found s' KERNBASE PGSIZE)) =
      some (none, some 0x20040407) := by
    decide +kernel
  obtain ⟨s', hs', hfound⟩ := map_eq_some_iff.mp hex
  rw [Prod.mk.injEq] at hfound
  have hrun : RunOf step (fun s a => a.1.Fits {KERNBASE} s) sampleRam sampleOps s' := by
    refine (Run.of_exec hs').toRunOf_of_forall fun a ha s => ?_
    simp only [sampleOps, List.mem_cons, List.not_mem_nil, or_false] at ha
    rcases ha with rfl | rfl | rfl
    · exact rfl
    · exact ⟨rfl, by decide, fun h => by cases h⟩
    · exact rfl
  exact ⟨s', hrun, hfound.1, hfound.2, (page_tables_are_maps sampleRam_tables hrun).1⟩

/-- Map the page-table page that holds the entry itself, and unmap it again with `do_free`. -/
def sampleFreeOps : List (TableOp × Bool) :=
  [(.mappages KERNBASE 0 PGSIZE (BitVec.ofNat 64 (KERNBASE + 2 * PGSIZE)) 0x16, true),
    (.uvmunmap KERNBASE 0 1 true, true)]

/-- **`uvmunmap` frees a page of the table.**  The entry of the next page, which no call was about,
is junk. -/
theorem uvmunmap_frees_table :
    Tables sampleRam {KERNBASE} ∧ found sampleRam KERNBASE PGSIZE = none ∧
      ∃ s', Run step sampleRam sampleFreeOps s' ∧
        found s' KERNBASE PGSIZE = some 0x0101010101010101 := by
  have hex : (exec step sampleRam sampleFreeOps).map (fun s' => found s' KERNBASE PGSIZE) =
      some (some 0x0101010101010101) := by
    decide +kernel
  obtain ⟨s', hs', hfound⟩ := map_eq_some_iff.mp hex
  exact ⟨sampleRam_tables, by decide +kernel, s', Run.of_exec hs', hfound⟩

end Xv6.Sv39
