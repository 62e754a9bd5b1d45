import Xv6.Mem.Copyin
import Xv6.Mem.Exec

/-!
# The kernel page table of a process

Below `PLIC`, the page table that the kernel runs a process on should map what the user page table
maps (`Vm.Mirror`), so that `copyin` finds the memory of the process there. Processes here fork,
call `exec` and `sbrk`, fault and exit, in any order; a call that fails is a step like any other.

Only `copy_proc_to_kernel` keeps the two tables together, and it only adds entries. So `Mirror`
survives the steps that `MirrorOk` describes: those that take no page below `PLIC` away from the
process, give it none behind the kernel's back, and do not end an eager `sbrk` short of its last
page. An `sbrk` that shrinks by one page already leaves an entry for a page that is free.
-/

namespace Xv6

open Function Vm

namespace Vm

variable {s s' : Vm} {o : ℕ → ℕ} {p p' : Proc} {eager : Bool} {newsz : ℕ} {lo hi : ℕ} {va : ℕ}

/-! ## The property -/

/-- Below `PLIC` the kernel page table has the pages of the process, and the kernel can only read
them. `vaOf x` runs through the page-aligned addresses. -/
structure Mirror (s : Vm) (p : Proc) : Prop where
  maps : ∀ x, vaOf x < PLIC →
    ((s.pte ⟨p.kpagetable, x⟩).v ↔ vaOf x < p.sz ∧ (s.pte ⟨p.pagetable, x⟩).v)
  page : ∀ x, vaOf x < PLIC → (s.pte ⟨p.kpagetable, x⟩).v →
    (s.pte ⟨p.kpagetable, x⟩).pa = (s.pte ⟨p.pagetable, x⟩).pa
  perm : ∀ x, vaOf x < PLIC → (s.pte ⟨p.kpagetable, x⟩).v → (s.pte ⟨p.kpagetable, x⟩).perm.r ∧
    ¬ (s.pte ⟨p.kpagetable, x⟩).perm.u ∧ ¬ (s.pte ⟨p.kpagetable, x⟩).perm.w ∧
    ¬ (s.pte ⟨p.kpagetable, x⟩).perm.x

/-- What holds of the two tables of a process. -/
structure TablesOk (s : Vm) (p : Proc) : Prop where
  below : ∀ x, (s.pte ⟨p.pagetable, x⟩).v → vaOf x < p.sz ∧ (s.pte ⟨p.pagetable, x⟩).perm.r
  mirror : Mirror s p

/-- Below `PLIC` the process has no page from `sz` on. -/
def Fits (s : Vm) (p : Proc) (sz : ℕ) : Prop :=
  ∀ x, vaOf x < PLIC → (s.pte ⟨p.pagetable, x⟩).v → vaOf x < sz

lemma TablesOk.of_sim (h : TablesOk s p)
    (hu : ∀ x, PteSim (s.pte ⟨p.pagetable, x⟩) (s'.pte ⟨p.pagetable, x⟩))
    (hk : ∀ x, s'.pte ⟨p.kpagetable, x⟩ = s.pte ⟨p.kpagetable, x⟩) : TablesOk s' p := by
  refine ⟨fun x hx => ?_, ⟨fun x hx => ?_, fun x hx hv => ?_, fun x hx hv => ?_⟩⟩
  · rw [(hu x).v] at hx
    rw [(hu x).r]
    exact h.below x hx
  · rw [hk, (hu x).v]
    exact h.mirror.maps x hx
  · rw [hk] at hv ⊢
    rw [(hu x).pa]
    exact h.mirror.page x hx hv
  · rw [hk] at hv ⊢
    exact h.mirror.perm x hx hv

lemma TablesOk.congr (h : TablesOk s p)
    (hpte : ∀ q : Slot, q.root = p.pagetable ∨ q.root = p.kpagetable → s'.pte q = s.pte q) :
    TablesOk s' p :=
  h.of_sim (fun x => .of_eq (hpte ⟨p.pagetable, x⟩ (.inl rfl)) (.refl _))
    fun x => hpte ⟨p.kpagetable, x⟩ (.inr rfl)

/-! ## Which entries `copy_proc_to_kernel` visits -/

lemma Visited.lt {x : Idx} (h : Visited lo hi x) (hmax : hi ≤ MAXVA) : vaOf x < hi := by
  obtain ⟨k, hk, rfl⟩ := h
  have hlt : lo + k * PGSIZE < hi := by
    simp only [pagesUpto, PGSIZE] at *
    omega
  rw [vaOf_idx (hlt.trans_le hmax)]
  exact (Nat.div_mul_le_self ..).trans_lt hlt

lemma not_visited (hle : hi ≤ lo) (x : Idx) : ¬ Visited lo hi x := by
  rintro ⟨k, hk, -⟩
  simp only [pagesUpto, PGSIZE] at *
  omega

/-- Starting at `lo`, not at a page, the loop reaches every new page if `lo` is not further into its
page than the last byte is into the last one. -/
lemma visited_of_range {x : Idx} (hstep : lo % PGSIZE ≤ (hi - 1) % PGSIZE)
    (hlo : lo ≤ MAXVA) (hx : pgRoundUp lo ≤ vaOf x) (hhi : vaOf x < hi) : Visited lo hi x := by
  have hmod := vaOf_mod x
  have hround : pgRoundDown (lo + (vaOf x - pgRoundDown lo) / PGSIZE * PGSIZE) = vaOf x := by
    simp only [pgRoundUp, pgRoundDown, PGSIZE, MAXVA] at *
    omega
  refine ⟨(vaOf x - pgRoundDown lo) / PGSIZE, ?_, ?_⟩
  · simp only [pagesUpto, pgRoundUp, pgRoundDown, PGSIZE, MAXVA] at *
    omega
  · rw [← idx_pgRoundDown, hround, idx_vaOf]

/-! ## Growing and shrinking -/

/-- What `copy_proc_to_kernel` copies mirrors the user's. -/
lemma kernelPte_perm (pte : Pte) : (kernelPte pte).perm.r = pte.perm.r ∧ ¬ (kernelPte pte).perm.u ∧
    ¬ (kernelPte pte).perm.w ∧ ¬ (kernelPte pte).perm.x := ⟨rfl, nofun, nofun, nofun⟩

/-- The tables after `copy_proc_to_kernel`, if the pages it does not visit are as they were. -/
lemma TablesOk.copied {d : Idx → Prop} (h : TablesOk s p)
    (hpt : p'.pagetable = p.pagetable) (hkt : p'.kpagetable = p.kpagetable)
    (hbelow : ∀ x, (s'.pte ⟨p.pagetable, x⟩).v → vaOf x < p'.sz ∧ (s'.pte ⟨p.pagetable, x⟩).perm.r)
    (hd : ∀ x, d x → (s'.pte ⟨p.pagetable, x⟩).v ∧
      s'.pte ⟨p.kpagetable, x⟩ = kernelPte (s'.pte ⟨p.pagetable, x⟩))
    (hkept : ∀ x, ¬ d x → s'.pte ⟨p.kpagetable, x⟩ = s.pte ⟨p.kpagetable, x⟩)
    (hsame : ∀ x, ¬ d x → vaOf x < PLIC → (s.pte ⟨p.pagetable, x⟩).v ∨ (s'.pte ⟨p.pagetable, x⟩).v →
      s'.pte ⟨p.pagetable, x⟩ = s.pte ⟨p.pagetable, x⟩) : TablesOk s' p' := by
  refine ⟨hpt ▸ hbelow, ?_⟩
  have hmirror := h.mirror
  refine ⟨?_, ?_, ?_⟩ <;> intro x hx <;> rw [hkt]
  · rw [hpt]
    by_cases hdx : d x
    · obtain ⟨hv, hk⟩ := hd x hdx
      rw [hk]
      exact ⟨fun _ => ⟨(hbelow x hv).1, hv⟩, fun _ => hv⟩
    · rw [hkept x hdx, hmirror.maps x hx]
      constructor
      · rintro ⟨-, hv⟩
        have hv' : (s'.pte ⟨p.pagetable, x⟩).v := by rw [hsame x hdx hx (.inl hv)]; exact hv
        exact ⟨(hbelow x hv').1, hv'⟩
      · rintro ⟨-, hv'⟩
        have hv : (s.pte ⟨p.pagetable, x⟩).v := by rw [← hsame x hdx hx (.inr hv')]; exact hv'
        exact ⟨(h.below x hv).1, hv⟩
  · intro hv
    rw [hpt]
    by_cases hdx : d x
    · rw [(hd x hdx).2]
      rfl
    · rw [hkept x hdx] at hv ⊢
      rw [hmirror.page x hx hv, hsame x hdx hx (.inl ((hmirror.maps x hx).mp hv).2)]
  · intro hv
    by_cases hdx : d x
    · obtain ⟨hv, hk⟩ := hd x hdx
      obtain ⟨hr, hperm⟩ := kernelPte_perm (s'.pte ⟨p.pagetable, x⟩)
      rw [hk]
      exact ⟨hr.trans (hbelow x hv).2, hperm⟩
    · rw [hkept x hdx] at hv ⊢
      exact hmirror.perm x hx hv

/-- What an `sbrk` to `sz` must not do: end short of its last page, or take a page away. -/
def SbrkOk (s : Vm) (p : Proc) (eager : Bool) (sz : ℕ) : Prop :=
  (eager → p.sz < sz → p.sz % PGSIZE ≤ (sz - 1) % PGSIZE) ∧ (sz < p.sz → s.Fits p sz)

/-- The process has been given the size `sz`. -/
structure Sized (s s' : Vm) (o : ℕ → ℕ) (p : Proc) (sz : ℕ) (eager : Bool) : Prop where
  inv : ∃ o', s'.Inv o' ∧ ∀ q, o q ≤ o' q
  user : s'.user = s.user
  other : ∀ q, q.root ≠ p.pagetable → q.root ≠ p.kpagetable → s'.pte q = s.pte q
  top : sz ≤ TRAPFRAME
  tables : TablesOk s p → SbrkOk s p eager sz → TablesOk s' { p with sz := sz }

lemma Sized.of_grown {s1 : Vm} (hu : s.user p.pagetable) (hk : 0 < o p.kpagetable)
    (hle : p.sz ≤ newsz) (htop : newsz ≤ TRAPFRAME) {perm : Perm} (hr : perm.r)
    (hm : Mapped s s1 o (InRange p.pagetable (pgRoundUp p.sz) newsz) perm)
    (hc : KernelCopy s1 s' p.pagetable p.kpagetable (Visited p.sz newsz)) :
    Sized s s' o p newsz true := by
  have hne := hm.inv.user_ne_kernel (hm.user ▸ hu) hk
  have hmax : newsz ≤ MAXVA := htop.trans (by decide)
  have huser : ∀ x, s'.pte ⟨p.pagetable, x⟩ = s1.pte ⟨p.pagetable, x⟩ := fun x => hc.step.pte _ hne
  refine ⟨hc.step.inv o hm.inv, hc.step.user.trans hm.user, ?_, htop, ?_⟩
  · intro q hqp hqk
    rw [hc.step.pte q hqk, hm.kept q fun hd => hqp hd.1]
  · intro h hok
    refine h.copied (d := Visited p.sz newsz) rfl rfl ?_ ?_ ?_ ?_
    · intro x hx
      rw [huser] at hx ⊢
      by_cases hd : InRange p.pagetable (pgRoundUp p.sz) newsz ⟨p.pagetable, x⟩
      · obtain ⟨pa, hpa⟩ := hm.pte _ hd
        rw [hpa]
        exact ⟨hd.2.2, hr⟩
      · rw [hm.kept _ hd] at hx ⊢
        exact ⟨(h.below x hx).1.trans_le hle, (h.below x hx).2⟩
    · intro x hx
      rw [huser]
      exact ⟨hc.valid x hx, hc.copied x hx⟩
    · intro x hx
      rw [hc.kept x hx, hm.kept _ fun hd => hne.symm hd.1]
    · intro x hx _ _
      rw [huser, hm.kept _ fun hd => hx ?_]
      refine visited_of_range ?_ (hle.trans hmax) hd.2.1 hd.2.2
      rcases hle.lt_or_eq with hlt | heq
      · exact hok.1 rfl hlt
      · have hlo := hd.2.1
        have hhi := hd.2.2
        simp only [pgRoundUp, PGSIZE, MAXVA] at *
        omega

lemma Sized.of_shrunk {s1 : Vm} (hu : s.user p.pagetable)
    (hk : 0 < o p.kpagetable) (hlt : newsz < p.sz) (htop : p.sz ≤ TRAPFRAME)
    (hm : Unmapped s s1 o (InRange p.pagetable (pgRoundUp newsz) (pgRoundUp p.sz)))
    (hc : KernelCopy s1 s' p.pagetable p.kpagetable (Visited p.sz newsz)) :
    Sized s s' o p newsz eager := by
  have hne := hm.inv.user_ne_kernel (hm.user ▸ hu) hk
  have huser : ∀ x, s'.pte ⟨p.pagetable, x⟩ = s1.pte ⟨p.pagetable, x⟩ := fun x => hc.step.pte _ hne
  have hnone : ∀ x, ¬ Visited p.sz newsz x := not_visited hlt.le
  have hmax : p.sz ≤ MAXVA := htop.trans (by decide)
  refine ⟨hc.step.inv o hm.inv, hc.step.user.trans hm.user, ?_, hlt.le.trans htop, ?_⟩
  · intro q hqp hqk
    rw [hc.step.pte q hqk, hm.kept q fun hd => hqp hd.1]
  · intro h hok
    have hdrop : ∀ x, InRange p.pagetable (pgRoundUp newsz) (pgRoundUp p.sz) ⟨p.pagetable, x⟩ →
        newsz ≤ vaOf x := by
      intro x hd
      have hlo := hd.2.1
      simp only [pgRoundUp, PGSIZE, MAXVA] at *
      omega
    refine h.copied (d := Visited p.sz newsz) rfl rfl ?_ (fun x hx => absurd hx (hnone x)) ?_ ?_
    · intro x hx
      rw [huser] at hx ⊢
      by_cases hd : InRange p.pagetable (pgRoundUp newsz) (pgRoundUp p.sz) ⟨p.pagetable, x⟩
      · rw [hm.gone _ hd] at hx
        cases hx
      · rw [hm.kept _ hd] at hx ⊢
        refine ⟨?_, (h.below x hx).2⟩
        by_contra hge
        refine hd ⟨rfl, ?_, ?_⟩
        · have hmod := vaOf_mod x
          simp only [pgRoundUp, PGSIZE, MAXVA] at *
          omega
        · have hold := (h.below x hx).1
          simp only [pgRoundUp, PGSIZE, MAXVA] at *
          omega
    · intro x hx
      rw [hc.kept x hx, hm.kept _ fun hd => hne.symm hd.1]
    · intro x _ hplic hv
      rw [huser] at hv ⊢
      by_cases hd : InRange p.pagetable (pgRoundUp newsz) (pgRoundUp p.sz) ⟨p.pagetable, x⟩
      · rcases hv with hv | hv
        · exact absurd (hok.2 hlt x hplic hv) (not_lt.mpr (hdrop x hd))
        · rw [hm.gone _ hd] at hv
          cases hv
      · exact hm.kept _ hd

lemma Sized.of_kept (hle : p.sz ≤ newsz) (htop : newsz ≤ TRAPFRAME)
    (hinv : ∃ o', s'.Inv o' ∧ ∀ q, o q ≤ o' q) (hu : s'.user = s.user)
    (hpte : ∀ q, s'.pte q = s.pte q) : Sized s s' o p newsz eager := by
  refine ⟨hinv, hu, fun q _ _ => hpte q, htop, fun h _ => ?_⟩
  refine h.copied (d := fun _ => False) rfl rfl ?_ (fun _ hx => hx.elim) (fun x _ => hpte _)
    fun x _ _ _ => hpte _
  intro x hx
  rw [hpte] at hx ⊢
  exact ⟨(h.below x hx).1.trans_le hle, (h.below x hx).2⟩

section

variable (h : s.Inv o) (hu : s.user p.pagetable) (hk : 0 < o p.kpagetable) (hsz : p.sz ≤ TRAPFRAME)
include h hu hk hsz

lemma growproc_sized {n : ℤ} (hn : n < 2 ^ 31) (heager : eager ∨ n < 0) :
    Prog.wp (growproc p n) s (fun r s' => r = none ∧ Same s s' o ∨
      ∃ sz, r = some { p with sz := sz } ∧ Sized s s' o p sz eager ∧
        (sz = p.sz ∨ sz = addSz p.sz n))
      fun _ => True := by
  by_cases hpos : 0 < n
  · obtain rfl : eager = true := heager.resolve_right (by omega)
    refine (growproc_grow h hu hk hsz hpos hn).post ?_
    rintro r s' (⟨rfl, hs, -⟩ | ⟨rfl, hle, htop, -, s1, h1, h2⟩)
    · exact .inl ⟨rfl, hs⟩
    · exact .inr ⟨_, rfl, .of_grown hu hk hle htop rfl h1 h2, .inr rfl⟩
  · by_cases hlt : n < 0 ∧ addSz p.sz n < p.sz
    · refine (growproc_shrink h hu hk hsz hlt.1 hlt.2).post ?_
      rintro r s' ⟨rfl, -, s1, h1, h2⟩
      exact .inr ⟨_, rfl, .of_shrunk hu hk hlt.2 hsz h1 h2, .inr rfl⟩
    · refine (growproc_same h hu hk hpos hlt).post ?_
      rintro r s' ⟨rfl, h1⟩
      refine .inr ⟨p.sz, rfl, .of_kept le_rfl hsz (h1.step.inv o h) h1.step.user ?_, .inl rfl⟩
      intro q
      by_cases hq : q.root = p.kpagetable
      · obtain ⟨t, x⟩ := q
        subst hq
        exact h1.kept x (not_visited le_rfl x)
      · exact h1.step.pte q hq

lemma sbrk_spec {n : ℤ} (hn : n < 2 ^ 31) (eager : Bool) :
    Prog.wp (sbrk p n eager) s (fun r s' => r = none ∧ Same s s' o ∨
      ∃ sz, r = some { p with sz := sz } ∧ Sized s s' o p sz eager ∧
        (sz = p.sz ∨ sz = addSz p.sz n))
      fun _ => True := by
  rw [sbrk]
  split
  · next he => exact growproc_sized h hu hk hsz hn he
  · have hsame : Same s s o := .refl h
    rw [Prog.wp_ite]
    refine ⟨fun _ => Prog.wp_pure.mpr (.inl ⟨rfl, hsame⟩), fun hle => ?_⟩
    rw [Prog.wp_ite]
    refine ⟨fun _ => Prog.wp_pure.mpr (.inl ⟨rfl, hsame⟩), fun htop => ?_⟩
    exact Prog.wp_pure.mpr (.inr ⟨_, rfl, .of_kept (not_lt.mp hle) (not_lt.mp htop)
      ⟨o, h, fun _ => le_rfl⟩ rfl fun _ => rfl, .inr rfl⟩)

end

/-! ## Faults, `exec` and `fork` -/

lemma TablesOk.above {x0 : Idx} (h : TablesOk s p) (hx0 : PLIC ≤ vaOf x0)
    (hpte : ∀ q, q ≠ ⟨p.pagetable, x0⟩ → s'.pte q = s.pte q) (hne : p.pagetable ≠ p.kpagetable)
    (hnew : vaOf x0 < p.sz ∧ (s'.pte ⟨p.pagetable, x0⟩).perm.r) : TablesOk s' p := by
  have huser : ∀ x, x ≠ x0 → s'.pte ⟨p.pagetable, x⟩ = s.pte ⟨p.pagetable, x⟩ := by
    intro x hx
    exact hpte _ fun heq => hx (Slot.mk.inj heq).2
  have hkernel : ∀ x, s'.pte ⟨p.kpagetable, x⟩ = s.pte ⟨p.kpagetable, x⟩ := by
    intro x
    exact hpte _ fun heq => hne (Slot.mk.inj heq).1.symm
  refine h.copied (d := fun _ => False) rfl rfl ?_ (fun _ hx => hx.elim) (fun x _ => hkernel x) ?_
  · intro x hx
    by_cases heq : x = x0
    · subst heq
      exact hnew
    · rw [huser x heq] at hx ⊢
      exact h.below x hx
  · intro x _ hplic _
    refine huser x ?_
    rintro rfl
    omega

lemma plic_le_vaOf (hva : PLIC ≤ va) (hmax : va < MAXVA) : PLIC ≤ vaOf (idx va) := by
  rw [vaOf_idx hmax]
  simp only [PLIC, PGSIZE] at *
  omega

lemma TablesOk.faultedIn (h : TablesOk s p) (hne : p.pagetable ≠ p.kpagetable)
    (hva : PLIC ≤ va) (hmax : va < MAXVA) (hf : FaultedIn p va s s' o) : TablesOk s' p := by
  obtain ⟨pa, hpte⟩ := hf.mapped.pte _ rfl
  refine h.above (plic_le_vaOf hva hmax) (fun q hq => hf.mapped.kept q hq) hne ⟨?_, ?_⟩
  · rw [vaOf_idx hmax]
    exact (Nat.div_mul_le_self ..).trans_lt hf.lt
  · rw [hpte]
    rfl

lemma TablesOk.copiedIn (h : TablesOk s p) (hinv : s.Inv o) (hu : s.user p.pagetable)
    (hne : p.pagetable ≠ p.kpagetable) (hva : PLIC ≤ va) (hmax : va < MAXVA)
    (hc : CopiedIn ⟨p.pagetable, idx va⟩ s s' o) : TablesOk s' p := by
  obtain ⟨pa, hpte⟩ := hc.pte
  have hold := h.below _ (hinv.valid_of_cow hu hc.cow)
  refine h.above (plic_le_vaOf hva hmax) hc.kept hne ⟨hold.1, ?_⟩
  rw [hpte]
  exact hold.2

/-- The kernel page table has been filled with the entries up to `p.sz`, and has no others. -/
lemma TablesOk.of_filled
    (hbelow : ∀ x, (s.pte ⟨p.pagetable, x⟩).v → vaOf x < p.sz ∧ (s.pte ⟨p.pagetable, x⟩).perm.r)
    (hfill : ∀ x, vaOf x < p.sz → (s.pte ⟨p.pagetable, x⟩).v ∧
      s.pte ⟨p.kpagetable, x⟩ = kernelPte (s.pte ⟨p.pagetable, x⟩))
    (hrest : ∀ x, vaOf x < PLIC → ¬ vaOf x < p.sz → (s.pte ⟨p.kpagetable, x⟩).v = false) :
    TablesOk s p := by
  have hlt : ∀ x, vaOf x < PLIC → (s.pte ⟨p.kpagetable, x⟩).v → vaOf x < p.sz := by
    intro x hx hv
    by_contra hge
    rw [hrest x hx hge] at hv
    cases hv
  refine ⟨hbelow, ?_, ?_, ?_⟩ <;> intro x hx
  · constructor
    · intro hv
      exact ⟨hlt x hx hv, (hfill x (hlt x hx hv)).1⟩
    · rintro ⟨hsz, hv⟩
      rw [(hfill x hsz).2]
      exact hv
  · intro hv
    rw [(hfill x (hlt x hx hv)).2]
    rfl
  · intro hv
    obtain ⟨hv, hk⟩ := hfill x (hlt x hx hv)
    obtain ⟨hr, hperm⟩ := kernelPte_perm (s.pte ⟨p.pagetable, x⟩)
    rw [hk]
    exact ⟨hr.trans (hbelow x hv).2, hperm⟩

lemma TablesOk.execed (h : TablesOk s p) (he : Execed s s' o p p') (hfits : s.Fits p p'.sz) :
    TablesOk s' p' := by
  refine .of_filled he.below ?_ ?_
  · rw [he.kpagetable]
    exact he.kernel
  · intro x hx hge
    rw [he.kpagetable, he.kernelRest x hge]
    by_contra hv
    exact hge (hfits x hx ((h.mirror.maps x hx).mp (by simpa using hv)).2)

end Vm

/-- The mappings of `kvmmake`: none of them is below `PLIC`. -/
structure KernelMap where
  table : PageTable
  low : ∀ x, vaOf x < PLIC → (table.get x).v = false

namespace Vm

variable {s s' : Vm} {o : ℕ → ℕ} {p c : Proc}

lemma TablesOk.forked {km : KernelMap} (h : TablesOk s p) (hf : Forked s s' o km.table p c) :
    TablesOk s' c := by
  have hvis := visited_zero_iff (hf.sz ▸ hf.plic.le.trans (by decide) : p.sz ≤ MAXVA)
  refine .of_filled ?_ ?_ ?_ <;> rw [hf.sz]
  · intro x hx
    by_cases hlt : vaOf x < p.sz
    · have hsim := hf.child x hlt
      rw [hsim.v] at hx
      rw [hsim.r]
      exact ⟨hlt, (h.below x hx).2⟩
    · rw [hf.rest x hlt] at hx
      cases hx
  · intro x hlt
    exact hf.kernel x ((hvis x).mpr hlt)
  · intro x hx hge
    rw [hf.kernelRest x fun hv => hge ((hvis x).mp hv)]
    exact km.low x hx

end Vm

/-! ## The system -/

/-- The calls and faults that change the memory of `pid`. -/
inductive MemAct where
  | fork (pid child : ℕ) (km : KernelMap)
  | exec (pid : ℕ) (file : Option (List UInt8)) (argv : Argv)
  | sbrk (pid : ℕ) (n : ℤ) (eager : Bool)
  | storeFault (pid va : ℕ)
  | loadFault (pid va : ℕ)
  | exit (pid : ℕ)

namespace PSys

/-- The process `pid` calls `f`, and `next` is the state it leaves. -/
def call {α : Type} (s : PSys) (pid : ℕ) (f : Proc → VmProg α) (next : α → Vm → PSys) :
    Outcome VmPanic PSys :=
  match s.proc pid with
  | none => .disabled
  | some p =>
    match f p s.vm with
    | .ok (a, vm) => .next (next a vm)
    | .error e => .panic e

/-- `pid` has become `np`, if the call has succeeded. -/
def put (s : PSys) (pid : ℕ) (np : Option Proc) (vm : Vm) : PSys :=
  match np with
  | some p => ⟨vm, update s.proc pid (some p)⟩
  | none => ⟨vm, s.proc⟩

def memStep (s : PSys) : MemAct → Outcome VmPanic PSys
  | .fork pid child km =>
    if (s.proc child).isNone then s.call pid (fun p => kfork p km.table) (s.put child)
    else .disabled
  | .exec pid file argv =>
    s.call pid (fun p => kexec p file argv) fun r => s.put pid (r.map Image.proc)
  | .sbrk pid n eager =>
    if -2 ^ 31 ≤ n ∧ n < 2 ^ 31 then s.call pid (fun p => sbrk p n eager) (s.put pid)
    else .disabled
  | .storeFault pid va => s.call pid (fun p => storeFault p va) fun _ vm => ⟨vm, s.proc⟩
  | .loadFault pid va => s.call pid (fun p => loadFault p va) fun _ vm => ⟨vm, s.proc⟩
  | .exit pid =>
    s.call pid (fun p => uvmfree p.pagetable p.sz) fun _ vm =>
      ⟨vm, update s.proc pid none⟩

/-- The step keeps the tables of its process together: an `sbrk` that is not refused takes no page
away and reaches its last page, an `exec` is of a file no smaller than the pages of the process, and
a fault below `PLIC` is on a page that is there and not copy-on-write, or beyond the process. -/
def MirrorOk (s : PSys) : MemAct → Prop
  | .exec pid file _ => ∀ p, s.proc pid = some p → ∀ f, file = some f → s.vm.Fits p (execSz f)
  | .sbrk pid n eager => ∀ p, s.proc pid = some p → addSz p.sz n ≤ TRAPFRAME →
      s.vm.SbrkOk p eager (addSz p.sz n)
  | .storeFault pid va => ∀ p, s.proc pid = some p → va < PLIC →
      (s.vm.pte ⟨p.pagetable, idx va⟩).perm.cow = false ∧
        (va < p.sz → (s.vm.pte ⟨p.pagetable, idx va⟩).v)
  | .loadFault pid va => ∀ p, s.proc pid = some p → va < PLIC → va < p.sz →
      (s.vm.pte ⟨p.pagetable, idx va⟩).v
  | _ => True

variable {s s' : PSys} {o o' : ℕ → ℕ} {pid : ℕ} {p p' : Proc} {vm : Vm}

lemma of_call {α : Type} {f : Proc → VmProg α} {next : α → Vm → PSys}
    (h : s.call pid f next = .next s') :
    ∃ p a vm, s.proc pid = some p ∧ f p s.vm = .ok (a, vm) ∧ s' = next a vm := by
  rw [call] at h
  split at h
  · cases h
  · next p hp =>
    split at h
    · next a vm hm => exact ⟨p, a, vm, hp, hm, (Outcome.next.inj h).symm⟩
    · cases h

lemma Inv.keep (h : s.Inv o) (hvm : vm.Inv o') (hle : ∀ q, o q ≤ o' q)
    (hu : ∀ t, s.vm.user t → vm.user t) : Inv ⟨vm, s.proc⟩ o' :=
  ⟨hvm, fun _ _ hp => hu _ (h.user _ _ hp), fun _ _ hp => (h.kernel _ _ hp).trans_le (hle _), h.sz,
    h.inj⟩

lemma Inv.execed_ne (he : Vm.Execed s.vm vm o p p') {t : ℕ} (ht : s.vm.user t) :
    t ≠ p'.pagetable := by
  rintro rfl
  rw [he.fresh] at ht
  cases ht

lemma Inv.execed (h : s.Inv o) (hp : s.proc pid = some p) (he : Vm.Execed s.vm vm o p p') :
    ∃ o', Inv ⟨vm, update s.proc pid (some p')⟩ o' := by
  obtain ⟨o', ho', hle⟩ := he.inv
  have hsz : p'.sz ≤ TRAPFRAME := he.plic.le.trans (by decide)
  refine ⟨o', h.put hp ho' hle ?_ ?_ he.kpagetable hsz⟩
  · rw [he.user, update_of_ne (execed_ne he (h.user _ _ hp)).symm, update_self]
  · intro t ht hne
    rw [he.user, update_of_ne hne, update_of_ne (execed_ne he ht)]
    exact ⟨ht, execed_ne he ht⟩

/-- Every process has its own kernel page table, and its two tables agree. -/
structure Mirrored (s : PSys) (o : ℕ → ℕ) : Prop extends Inv s o where
  kinj : ∀ pid p pid' p', s.proc pid = some p → s.proc pid' = some p' →
    p.kpagetable = p'.kpagetable → pid = pid'
  tables : ∀ pid p, s.proc pid = some p → s.vm.TablesOk p

section

variable (h : s.Mirrored o) {child : ℕ}
include h

lemma Mirrored.ne_kernel (hp : s.proc pid = some p) : p.pagetable ≠ p.kpagetable :=
  h.vm.user_ne_kernel (h.user _ _ hp) (h.kernel _ _ hp)

lemma Mirrored.keep (hvm : vm.Inv o') (hle : ∀ q, o q ≤ o' q) (hu : ∀ t, s.vm.user t → vm.user t)
    (ht : ∀ pid p, s.proc pid = some p → vm.TablesOk p) : Mirrored ⟨vm, s.proc⟩ o' :=
  ⟨h.toInv.keep hvm hle hu, h.kinj, ht⟩

lemma Mirrored.same (hvm : vm.Inv o) (hu : vm.user = s.vm.user)
    (hpte : ∀ q, s.vm.user q.root ∨ 0 < o q.root → vm.pte q = s.vm.pte q) :
    Mirrored ⟨vm, s.proc⟩ o := by
  refine h.keep hvm (fun _ => le_rfl) (fun t ht => hu ▸ ht) fun pid p hp => ?_
  refine (h.tables pid p hp).congr ?_
  rintro q (hq | hq)
  · exact hpte q (.inl (hq ▸ h.user _ _ hp))
  · exact hpte q (.inr (hq ▸ h.kernel _ _ hp))

lemma Mirrored.others (hp : s.proc pid = some p)
    (hpte : ∀ q, (s.vm.user q.root ∨ 0 < o q.root) → q.root ≠ p.pagetable → q.root ≠ p.kpagetable →
      vm.pte q = s.vm.pte q) {pid' : ℕ} {q : Proc} (hne : pid' ≠ pid) (hq : s.proc pid' = some q) :
    vm.TablesOk q := by
  refine (h.tables _ _ hq).congr ?_
  rintro r (hr | hr)
  · refine hpte r (.inl (hr ▸ h.user _ _ hq)) ?_ ?_ <;> rw [hr]
    · exact fun heq => hne (h.inj _ _ _ _ hq hp heq)
    · exact h.vm.user_ne_kernel (h.user _ _ hq) (h.kernel _ _ hp)
  · refine hpte r (.inr (hr ▸ h.kernel _ _ hq)) ?_ ?_ <;> rw [hr]
    · exact (h.vm.user_ne_kernel (h.user _ _ hp) (h.kernel _ _ hq)).symm
    · exact fun heq => hne (h.kinj _ _ _ _ hq hp heq)

lemma Mirrored.replace (hp : s.proc pid = some p)
    (hinv : Inv ⟨vm, update s.proc pid (some p')⟩ o') (hk : p'.kpagetable = p.kpagetable)
    (hpte : ∀ q, (s.vm.user q.root ∨ 0 < o q.root) → q.root ≠ p.pagetable → q.root ≠ p.kpagetable →
      vm.pte q = s.vm.pte q) (ht : vm.TablesOk p') :
    Mirrored ⟨vm, update s.proc pid (some p')⟩ o' := by
  refine ⟨hinv, inj_update Proc.kpagetable h.kinj fun pid' q hne hq heq => ?_,
    forall_update ht fun _ _ hne hq => h.others hp hpte hne hq⟩
  exact hne (h.kinj _ _ _ _ hq hp (heq.trans hk))

/-! ## One step -/

lemma Mirrored.sbrk {n : ℤ} {eager : Bool} (hok : s.MirrorOk (.sbrk pid n eager))
    (hs : s.memStep (.sbrk pid n eager) = .next s') : ∃ o', s'.Mirrored o' := by
  rw [memStep] at hs
  split at hs
  · next hn =>
    obtain ⟨p, r, vm, hp, hm, rfl⟩ := of_call hs
    have hspec := sbrk_spec h.vm (h.user _ _ hp) (h.kernel _ _ hp) (h.sz _ _ hp) hn.2 eager
    obtain ⟨rfl, hsame⟩ | ⟨sz, rfl, hsized, hsz⟩ := hspec.1 _ _ hm
    · exact ⟨o, h.same hsame.inv hsame.user fun q _ => hsame.pte q⟩
    · obtain ⟨o', ho', hle⟩ := hsized.inv
      have hsbrk : s.vm.SbrkOk p eager sz := by
        obtain rfl | rfl := hsz
        · exact ⟨fun _ hlt => absurd hlt (lt_irrefl _), fun hlt => absurd hlt (lt_irrefl _)⟩
        · exact hok p hp hsized.top
      exact ⟨o', h.replace hp (h.withProc hp ho' hle hsized.user rfl rfl hsized.top) rfl
        (fun q _ => hsized.other q) (hsized.tables (h.tables _ _ hp) hsbrk)⟩
  · cases hs

lemma Mirrored.exec {file : Option (List UInt8)} {argv : Argv}
    (hok : s.MirrorOk (.exec pid file argv)) (hs : s.memStep (.exec pid file argv) = .next s') :
    ∃ o', s'.Mirrored o' := by
  obtain ⟨p, r, vm, hp, hm, rfl⟩ := of_call hs
  rcases (kexec_cause h.vm (h.user _ _ hp) (h.kernel _ _ hp) file argv).1 _ _ hm with
    ⟨rfl, hf⟩ | ⟨img, rfl, he, hsz⟩
  · exact ⟨o, h.same hf.inv hf.user hf.pte⟩
  · obtain ⟨o', ho'⟩ := h.toInv.execed hp he
    have hfits : s.vm.Fits p img.proc.sz := by
      cases file with
      | none => cases hm
      | some f =>
        rw [hsz f rfl]
        exact hok p hp f rfl
    refine ⟨o', h.replace hp ho' he.kpagetable ?_ ((h.tables _ _ hp).execed he hfits)⟩
    intro q hq hqp hqk
    refine he.other q hqp ?_ hqk
    rcases hq with hq | hq
    · exact Inv.execed_ne he hq
    · intro heq
      rw [heq, he.held] at hq
      exact lt_irrefl _ hq

lemma Mirrored.fault (hp : s.proc pid = some p) (hvm : vm.Inv o)
    (hu : vm.user = s.vm.user) {x : Idx} (hpte : ∀ q, q ≠ ⟨p.pagetable, x⟩ → vm.pte q = s.vm.pte q)
    (ht : vm.TablesOk p) : Mirrored ⟨vm, s.proc⟩ o := by
  refine h.keep hvm (fun _ => le_rfl) (fun t ht => hu ▸ ht) fun pid' q hq => ?_
  by_cases hne : pid' = pid
  · subst hne
    cases hp.symm.trans hq
    exact ht
  · refine h.others hp (fun r _ hrp _ => hpte r ?_) hne hq
    rintro rfl
    exact hrp rfl

lemma Mirrored.storeFault {va : ℕ} (hok : s.MirrorOk (.storeFault pid va))
    (hs : s.memStep (.storeFault pid va) = .next s') : ∃ o', s'.Mirrored o' := by
  obtain ⟨p, killed, vm, hp, hm, rfl⟩ := of_call hs
  have hu := h.user _ _ hp
  rcases (storeFault_cause h.vm hu va).1 _ _ hm with ⟨rfl, hsame⟩ | ⟨rfl, hmax, hcase⟩
  · exact ⟨o, h.same hsame.inv hsame.user fun q _ => hsame.pte q⟩
  · have ht := h.tables _ _ hp
    rcases hcase with hc | hf
    · have hplic : PLIC ≤ va := by
        by_contra hlt
        cases hc.cow.symm.trans (hok p hp (not_le.mp hlt)).1
      exact ⟨o, h.fault hp hc.inv hc.user hc.kept
        (ht.copiedIn h.vm hu (h.ne_kernel hp) hplic hmax hc)⟩
    · have hplic : PLIC ≤ va := by
        by_contra hlt
        cases hf.free.symm.trans ((hok p hp (not_le.mp hlt)).2 hf.lt)
      exact ⟨o, h.fault hp hf.mapped.inv hf.mapped.user hf.mapped.kept
        (ht.faultedIn (h.ne_kernel hp) hplic hmax hf)⟩

lemma Mirrored.loadFault {va : ℕ} (hok : s.MirrorOk (.loadFault pid va))
    (hs : s.memStep (.loadFault pid va) = .next s') : ∃ o', s'.Mirrored o' := by
  obtain ⟨p, killed, vm, hp, hm, rfl⟩ := of_call hs
  rcases (loadFault_cause h.vm (h.user _ _ hp) va).1 _ _ hm with ⟨rfl, hsame⟩ | ⟨rfl, hf⟩
  · exact ⟨o, h.same hsame.inv hsame.user fun q _ => hsame.pte q⟩
  · have hplic : PLIC ≤ va := by
      by_contra hlt
      cases hf.free.symm.trans (hok p hp (not_le.mp hlt) hf.lt)
    have hmax : va < MAXVA := hf.lt.trans_le ((h.sz _ _ hp).trans trapframe_le)
    exact ⟨o, h.fault hp hf.mapped.inv hf.mapped.user hf.mapped.kept
      ((h.tables _ _ hp).faultedIn (h.ne_kernel hp) hplic hmax hf)⟩

lemma Mirrored.forkFailed (hp : s.proc pid = some p)
    (hf : Vm.ForkFailed s.vm vm o p) : ∃ o', Mirrored ⟨vm, s.proc⟩ o' := by
  obtain ⟨o', ho', hle⟩ := hf.inv
  refine ⟨o', h.keep ho' hle hf.user fun pid' q hq => ?_⟩
  by_cases hne : pid' = pid
  · subst hne
    cases hp.symm.trans hq
    refine (h.tables _ _ hp).of_sim hf.parent fun x => ?_
    exact hf.other _ (.inr (h.kernel _ _ hp)) (h.ne_kernel hp).symm
  · exact h.others hp (fun r hr hrp _ => hf.other r hr hrp) hne hq

lemma Mirrored.forked {c : Proc} {km : KernelMap}
    (hp : s.proc pid = some p) (hf : Vm.Forked s.vm vm o km.table p c) :
    ∃ o', Mirrored ⟨vm, update s.proc child (some c)⟩ o' := by
  obtain ⟨o', ho', hle, hkc⟩ := hf.inv
  have hnew : vm.user c.pagetable := by rw [hf.user, update_self]
  have hfresh : ∀ t, s.vm.user t → t ≠ c.pagetable := by
    rintro t ht rfl
    rw [hf.fresh] at ht
    cases ht
  have hstill : ∀ t, s.vm.user t → vm.user t := by
    intro t ht
    rw [hf.user, update_of_ne (hfresh t ht)]
    exact ht
  have hkne : ∀ pid' q, s.proc pid' = some q → q.kpagetable ≠ c.kpagetable := by
    intro pid' q hq heq
    have hkq := h.kernel _ _ hq
    rw [heq, hf.kfresh] at hkq
    exact lt_irrefl _ hkq
  -- the tables of the other processes are neither of the child's two
  have hother : ∀ q : Slot, (s.vm.user q.root ∨ 0 < o q.root) → q.root ≠ p.pagetable →
      vm.pte q = s.vm.pte q := by
    intro q hq hqp
    refine hf.other q hqp ?_ ?_
    · rcases hq with hq | hq
      · exact hfresh _ hq
      · exact (ho'.user_ne_kernel hnew (hq.trans_le (hle _))).symm
    · rcases hq with hq | hq
      · exact ho'.user_ne_kernel (hstill _ hq) hkc
      · intro heq
        rw [heq, hf.kfresh] at hq
        exact lt_irrefl _ hq
  refine ⟨o', h.add (by rw [hf.sz]; exact h.sz _ _ hp) hf.fresh ho' hle hkc hf.user,
    inj_update Proc.kpagetable h.kinj fun _ _ _ => hkne _ _,
    forall_update ((h.tables _ _ hp).forked hf) fun pid' q _ hq => ?_⟩
  by_cases hne : pid' = pid
  · subst hne
    cases hp.symm.trans hq
    refine (h.tables _ _ hp).of_sim hf.parent fun x => ?_
    exact hother _ (.inr (h.kernel _ _ hp)) (h.ne_kernel hp).symm
  · exact h.others hp (fun r hr hrp _ => hother r hr hrp) hne hq

lemma Mirrored.fork {km : KernelMap}
    (hs : s.memStep (.fork pid child km) = .next s') : ∃ o', s'.Mirrored o' := by
  rw [memStep] at hs
  split at hs
  · obtain ⟨p, r, vm, hp, hm, rfl⟩ := of_call hs
    rcases (kfork_cause h.vm (h.user _ _ hp) km.table).1 _ _ hm with ⟨rfl, hf⟩ | ⟨c, rfl, hf⟩
    · exact h.forkFailed hp hf
    · exact h.forked hp hf
  · cases hs

lemma Mirrored.exit (hs : s.memStep (.exit pid) = .next s') : ∃ o', s'.Mirrored o' := by
  obtain ⟨p, r, vm, hp, hm, rfl⟩ := of_call hs
  obtain ⟨hf, -⟩ := (uvmfree_spec h.vm (h.user _ _ hp) p.sz).1 _ _ hm
  refine ⟨o, h.remove hp hf.inv hf.user, ?_, ?_⟩
  · intro pid1 q1 pid2 q2 hq1 hq2 heq
    exact h.kinj _ _ _ _ (of_removed hq1).2 (of_removed hq2).2 heq
  · intro pid' q hq
    exact h.others hp (fun r _ hrp _ => hf.pte r hrp) (of_removed hq).1 (of_removed hq).2

end

lemma Mirrored.step (h : ∃ o, s.Mirrored o) {a : MemAct} (hok : s.MirrorOk a)
    (hs : s.memStep a = .next s') : ∃ o, s'.Mirrored o := by
  obtain ⟨o, h⟩ := h
  cases a with
  | fork pid child km => exact h.fork hs
  | exec pid file argv => exact h.exec hok hs
  | sbrk pid n eager => exact h.sbrk hok hs
  | storeFault pid va => exact h.storeFault hok hs
  | loadFault pid va => exact h.loadFault hok hs
  | exit pid => exact h.exit hs

/-- **The kernel page table mirrors the user page table** of every process, in every state that is
reached by steps which meet `MirrorOk`. -/
theorem kernel_table_mirrors {s0 s : PSys} {as : List MemAct} (h0 : ∃ o, s0.Mirrored o)
    (hr : RunOf memStep MirrorOk s0 as s) (pid : ℕ) (p : Proc) (hp : s.proc pid = some p) :
    s.vm.Mirror p := by
  obtain ⟨o, h⟩ := hr.invariant (I := fun s => ∃ o, s.Mirrored o)
    (fun s a s' h hok hs => Mirrored.step h hok hs) h0
  exact (h.tables pid p hp).mirror

end PSys

lemma directMap_low (x : Idx) (hx : vaOf x < PLIC) : (directMap.get x).v = false := by
  obtain ⟨i, j, k⟩ := x
  have hi : i ≠ 2 := by
    rintro rfl
    simp only [vaOf, PLIC, PGSIZE] at hx
    omega
  simp [PageTable.get, PageTable.reach, directMap, hi, Pte.zero]

def directKernelMap : KernelMap where
  table := directMap
  low := directMap_low

/-- A process without memory. -/
def emptySys : PSys where
  vm := ((exec uvmStep forkVm [.uvmcreate]).getD forkVm).setPt 0x87FFF000 directMap
  proc := fun pid => if pid = 1 then some ⟨0, 0x87FF0000, 0x87FFF000⟩ else none

lemma emptySys_mirrored : ∃ o, emptySys.Mirrored o := by
  have hrun : Run uvmStep forkVm [.uvmcreate] ((exec uvmStep forkVm [.uvmcreate]).getD forkVm) :=
    Run.of_exec rfl
  have hinv := hrun.invariant (fun s a s' h hs => h.uvmStep hs) forkVm_inv
  have hkernel := hinv.kernel_not_user (t := 0x87FFF000) (by simp)
  obtain ⟨o, ho, hle⟩ := (Vm.KernelStep.setPt hkernel directMap).inv _ hinv
  have huser : ∀ x, (emptySys.vm.pte ⟨0x87FF0000, x⟩).v = false := fun _ => rfl
  refine ⟨o, .one ho rfl (lt_of_lt_of_le (by simp) (hle 0x87FFF000)) (by decide), ?_, ?_⟩
  · exact fun pid p pid' p' hp hp' _ => (of_one hp).1.trans (of_one hp').1.symm
  · rintro pid p hp
    obtain ⟨-, rfl⟩ := of_one hp
    refine .of_filled ?_ (fun x hx => absurd hx (Nat.not_lt_zero _)) fun x hx _ => ?_
    · intro x hx
      rw [huser x] at hx
      cases hx
    · exact directKernelMap.low x hx

/-- `sbrk(0x1000)` and `sbrk(-0x1000)`: the kernel page table still maps the page, which is free. -/
theorem shrink_leaves_stale_entry : (∃ o, emptySys.Mirrored o) ∧ ∃ s p,
      Run PSys.memStep emptySys [.sbrk 1 0x1000 true, .sbrk 1 (-0x1000) true] s ∧
      s.proc 1 = some p ∧ ¬ s.vm.Mirror p ∧ (s.vm.pte ⟨p.kpagetable, idx 0⟩).v ∧
      s.vm.kmem.Listed (s.vm.pte ⟨p.kpagetable, idx 0⟩).pa := by
  refine ⟨emptySys_mirrored, _, _, Run.of_exec rfl, rfl, ?_, rfl, 0, by decide⟩
  intro hm
  exact absurd ((hm.maps (idx 0) (by decide)).mp rfl).1 (by decide)

lemma mirrorOk_of_grown {s : PSys} {pid : ℕ} {p : Proc} {n : ℤ} {eager : Bool}
    (hp : s.proc pid = some p) (hal : p.sz % PGSIZE = 0) (hle : p.sz ≤ addSz p.sz n) :
    s.MirrorOk (.sbrk pid n eager) := by
  intro q hq _
  cases hp.symm.trans hq
  refine ⟨fun _ _ => ?_, fun hlt => absurd hlt (not_lt.mpr hle)⟩
  rw [hal]
  exact Nat.zero_le _

/-- A process forks and its child grows, first eagerly, then lazily. -/
theorem kernel_table_mirrors_sample : ∃ s, RunOf PSys.memStep PSys.MirrorOk emptySys
        [.fork 1 2 directKernelMap, .sbrk 2 0x1000 true, .sbrk 2 0x800 false] s ∧
      ∃ p, s.proc 2 = some p ∧ p.sz = 0x1800 ∧ s.vm.Mirror p := by
  have hrun : RunOf PSys.memStep PSys.MirrorOk emptySys
      [.fork 1 2 directKernelMap, .sbrk 2 0x1000 true, .sbrk 2 0x800 false] _ :=
    .cons trivial rfl (.cons (mirrorOk_of_grown rfl rfl (by decide)) rfl
      (.cons (mirrorOk_of_grown rfl rfl (by decide)) rfl (.nil _)))
  exact ⟨_, hrun, _, rfl, rfl, PSys.kernel_table_mirrors emptySys_mirrored hrun 2 _ rfl⟩

end Xv6
