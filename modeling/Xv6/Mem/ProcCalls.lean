import Xv6.Mem.Calls
import Xv6.Mem.Panics
import Xv6.Mem.Proc

/-!
# What `fork` and `sbrk` do to the page tables

The kernel keeps its own page tables in the same memory. `KernelStep t` says that only the kernel's
table `t` and pages the kernel has taken for itself have changed; `copy_proc_to_kernel` is such a
step, and its effect on `t` is one entry for each round of its loop. From that and `Xv6.Mem.Calls`
follow the specifications of `kvmmake`, `kfork` and `growproc`.
-/

namespace Xv6.Vm

open Function Prog

variable {s s' s'' : Vm} {o : ℕ → ℕ} {t : ℕ} {procPt kernelPt : ℕ} {p : Proc}

/-! ## The kernel's own page tables -/

/-- Only the kernel's table `t` has changed. -/
structure KernelStep (t : ℕ) (s s' : Vm) : Prop where
  inv : ∀ o, s.Inv o → ∃ o', s'.Inv o' ∧ ∀ q, o q ≤ o' q
  user : s'.user = s.user
  pte : ∀ p, p.root ≠ t → s'.pte p = s.pte p
  page : ∀ o, s.Inv o → ∀ p, s.user p.root → s'.page p = s.page p

lemma KernelStep.refl (t : ℕ) (s : Vm) : KernelStep t s s :=
  ⟨fun o h => ⟨o, h, fun _ => le_rfl⟩, rfl, fun _ _ => rfl, fun _ _ _ _ => rfl⟩

lemma KernelStep.trans (h : KernelStep t s s') (h' : KernelStep t s' s'') : KernelStep t s s'' := by
  refine ⟨?_, h'.user.trans h.user, fun p hp => (h'.pte p hp).trans (h.pte p hp), ?_⟩
  · intro o ho
    obtain ⟨o', ho', hle⟩ := h.inv o ho
    obtain ⟨o'', ho'', hle'⟩ := h'.inv o' ho'
    exact ⟨o'', ho'', fun q => (hle q).trans (hle' q)⟩
  · intro o ho p hp
    obtain ⟨o', ho', -⟩ := h.inv o ho
    rw [h'.page o' ho' p (h.user ▸ hp), h.page o ho p hp]

lemma refers_setPt_kernel (ht : s.user t = false) (pt : PageTable) (q : ℕ) (r : Ref) :
    (s.setPt t pt).Refers q r ↔ s.Refers q r := by
  have hne : ∀ t', s.user t' = true → t' ≠ t := by
    rintro t' hu rfl
    rw [hu] at ht
    cases ht
  rcases r with p | t' | ⟨t', i⟩ | ⟨t', ij⟩
  · simp only [Refers, setPt_user]
    refine and_congr_right fun hu => ?_
    rw [pte_setPt_of_ne (hne _ hu)]
  · exact Iff.rfl
  · simp only [Refers, setPt_user]
    refine and_congr_right fun hu => ?_
    rw [setPt_pt_of_ne (hne _ hu)]
  · simp only [Refers, setPt_user]
    refine and_congr_right fun hu => ?_
    rw [setPt_pt_of_ne (hne _ hu)]

lemma KernelStep.setPt (ht : s.user t = false) (pt : PageTable) :
    KernelStep t s (s.setPt t pt) := by
  have hne : ∀ p : Slot, s.user p.root = true → p.root ≠ t := by
    intro p hu hp
    rw [hp, ht] at hu
    cases hu
  refine ⟨?_, rfl, fun p hp => pte_setPt_of_ne hp, ?_⟩
  · intro o h
    refine ⟨o, ⟨h.kmem, ?_, ?_⟩, fun _ => le_rfl⟩
    · refine h.refs.congr (fun _ _ => rfl) (refers_setPt_kernel ht pt) ?_
      rintro q (p | _ | _ | _) hj hx
      · have hx' : ((s.setPt t pt).pte p).perm.w := hx
        rw [pte_setPt_of_ne (hne p hj.1)] at hx'
        exact hx'
      · trivial
      · trivial
      · trivial
    · intro p hp
      rw [pte_setPt_of_ne (hne p hp)]
      exact h.ptes p hp
  · intro o h p hp
    exact page_of_keeps h hp (pte_setPt_of_ne (hne p hp)) (Kmem.Keeps.refl _).mem

/-- A page the kernel takes for itself, whatever it writes there. -/
lemma kernelStep_take {r : ℕ} {k : Kmem} (hk : s.kmem.Took k r) (c : UInt8) :
    KernelStep t s { s with kmem := k.memset r c } := by
  have hkeep : s.kmem.Keeps (k.memset r c) := hk.keeps _ fun a ha => if_neg ha
  refine ⟨?_, rfl, fun _ _ => rfl, ?_⟩
  · intro o h
    refine ⟨update o r 1, ⟨⟨hk.ok.kend_ge, hk.ok.listed⟩, ?_, h.ptes⟩, ?_⟩
    · rw [show (k.memset r c).IsPage = s.kmem.IsPage from Kmem.isPage_eq hk.kend]
      exact h.refs.take hk.page hk.free hk.count hk.other (update_self ..)
        fun q hq => update_of_ne hq ..
    · intro q
      by_cases hq : q = r
      · subst hq
        rw [(h.refs.free hk.page hk.free).2]
        exact Nat.zero_le _
      · rw [update_of_ne hq]
  · intro o h p hp
    exact page_of_keeps h hp rfl hkeep.mem

lemma kernelStep_noPage {k : Kmem} (hk : s.kmem.NoPage k) :
    KernelStep t s { s with kmem := k } := by
  refine ⟨?_, rfl, fun _ _ => rfl, fun o h p hp => page_of_keeps h hp rfl hk.keeps.mem⟩
  intro o h
  refine ⟨o, ⟨hk.ok, ?_, h.ptes⟩, fun _ => le_rfl⟩
  simp only [Kmem.isPage_eq hk.kend]
  exact h.refs.congr hk.count (fun _ _ => Iff.rfl) (fun _ _ _ hx => hx)

/-- Page-table pages are taken where there are none, and the entries are what they were. -/
lemma walk_kernel (h : s.Inv o) (ht : s.user t = false) (va : ℕ) (alloc : Bool) :
    wp (walk t va alloc) s (fun r s' => KernelStep t s s' ∧ (∀ p, s'.pte p = s.pte p) ∧
        ∀ p, r = some p → p = ⟨t, idx va⟩ ∧ (s'.pt t).reach (idx va)) fun _ => True := by
  refine (wp_walk (I := fun s' => KernelStep t s s' ∧ ∀ p, s'.pte p = s.pte p)
    ⟨.refl t s, fun _ => rfl⟩ (fun _ => trivial) ?_).post
    fun r s' hr => ⟨hr.1.1, hr.1.2, fun p hp => ⟨(hr.2 p hp).1, (hr.2 p hp).2.2⟩⟩
  rintro s1 ⟨h1, hp1⟩
  obtain ⟨o1, ho1, -⟩ := h1.inv o h
  refine wp_kalloc_inv ho1 ?_ ?_
  · intro k hk _
    exact ⟨h1.trans (kernelStep_noPage hk), hp1⟩
  · intro r k hk _ _ pt hnew
    refine ⟨h1.trans ((kernelStep_take hk 0).trans
      (.setPt (by rw [← h1.user] at ht; exact ht) pt)), ?_⟩
    intro p
    exact (pte_setPt_congr hnew.get p).trans (hp1 p)

/-! ## `copy_proc_to_kernel` -/

/-- What `copy_proc_to_kernel` makes of an entry. -/
def kernelPte (pte : Pte) : Pte :=
  { pte with perm := { pte.perm with u := false, w := false, x := false } }

/-! ### The entries

This part needs no reference counts: the tables are read and written as they are. -/

section

variable {procPt kernelPt oldsz newsz : ℕ} {e : VmPanic}

/-- The entries that `copy_proc_to_kernel` visits. It starts at `oldsz`, aligned or not, so the page
of the last bytes is visited only if they reach far enough into it. -/
def Visited (oldsz newsz : ℕ) (x : Idx) : Prop :=
  ∃ k, k < pagesUpto oldsz newsz ∧ x = idx (oldsz + k * PGSIZE)

/-- Why a round of `copy_proc_to_kernel` panics. -/
def EntryPanic (s : Vm) (procPt a : ℕ) : VmPanic → Prop
  | .walk => MAXVA ≤ a
  | .noUserPte | .noValidUserPte => (s.pte ⟨procPt, idx a⟩).v = false
  | .noKernelPte => True
  | _ => False

lemma copyEntry_frame (s : Vm) (procPt kernelPt a : ℕ) :
    wp (copyEntry procPt kernelPt a) s (fun _ s' => (s.pte ⟨procPt, idx a⟩).v ∧ ∀ p, s'.pte p =
        if p = ⟨kernelPt, idx a⟩ then kernelPte (s.pte ⟨procPt, idx a⟩) else s.pte p)
      (EntryPanic s procPt a) := by
  rw [copyEntry, wp_bind, walk_look]
  refine ⟨fun h => h, fun ha => ?_⟩
  by_cases hreach : (s.pt procPt).reach (idx a)
  · simp only [hreach, if_true, wp_bind, wp_load]
    rw [leaf_eq_pte (p := ⟨procPt, idx a⟩) hreach, wp_ite]
    refine ⟨fun hv => ?_, fun hv => wp_throw.mpr (eq_false_of_ne_true hv)⟩
    rw [wp_bind]
    refine (walk_frame s kernelPt a true).mono ?_ ?_
    · rintro (_ | slot) s' ⟨hp', hslot⟩
      · exact wp_throw.mpr trivial
      · obtain ⟨rfl, hreach'⟩ := hslot slot rfl
        rw [wp_store]
        refine ⟨hv, fun p => ?_⟩
        rw [pte_store (p := ⟨kernelPt, idx a⟩) hreach', hp']
        rfl
    · rintro e ⟨rfl, hmax⟩
      exact hmax
  · simp only [hreach]
    refine wp_throw.mpr ?_
    simp only [EntryPanic, pte, PageTable.get, hreach]
    rfl

/-- Why `copy_proc_to_kernel` panics. -/
def CopyPanic (s : Vm) (procPt oldsz newsz : ℕ) : VmPanic → Prop
  | .exceedPlic => PLIC ≤ newsz
  | .noUserPte | .noValidUserPte => ∃ x, Visited oldsz newsz x ∧ (s.pte ⟨procPt, x⟩).v = false
  | .noKernelPte => True
  | _ => False

/-- The entries `d` of the user's table are copied, and no other entry changes. -/
structure Copied (s s' : Vm) (procPt kernelPt : ℕ) (d : Idx → Prop) : Prop where
  other : ∀ p, p.root ≠ kernelPt → s'.pte p = s.pte p
  valid : ∀ x, d x → (s.pte ⟨procPt, x⟩).v
  copied : ∀ x, d x → s'.pte ⟨kernelPt, x⟩ = kernelPte (s.pte ⟨procPt, x⟩)
  kept : ∀ x, ¬ d x → s'.pte ⟨kernelPt, x⟩ = s.pte ⟨kernelPt, x⟩

lemma EntryPanic.copyPanic {k : ℕ} (h : EntryPanic s procPt (oldsz + k * PGSIZE) e)
    (hk : k < pagesUpto oldsz newsz) (hplic : newsz < PLIC) : CopyPanic s procPt oldsz newsz e := by
  cases e with
  | walk =>
    simp only [EntryPanic, pagesUpto, PLIC, MAXVA, PGSIZE] at *
    omega
  | noUserPte | noValidUserPte => exact ⟨_, ⟨k, hk, rfl⟩, h⟩
  | noKernelPte => trivial
  | _ => exact h.elim

lemma copyProcToKernel_frame (s : Vm) (hne : procPt ≠ kernelPt) (oldsz newsz : ℕ) :
    wp (copyProcToKernel procPt kernelPt oldsz newsz) s
      (fun _ s' => newsz < PLIC ∧ Copied s s' procPt kernelPt (Visited oldsz newsz))
      (CopyPanic s procPt oldsz newsz) := by
  rw [copyProcToKernel, wp_ite]
  refine ⟨fun h => wp_throw.mpr h, fun hplic => ?_⟩
  -- After `k` rounds the first `k` entries have been copied.
  refine (wp_forRange (fun k (s' : Vm) => Copied s s' procPt kernelPt
    fun x => ∃ j, j < k ∧ x = idx (oldsz + j * PGSIZE)) ⟨fun _ _ => rfl, ?_, ?_, fun _ _ => rfl⟩
    ?_).post ?_
  · rintro x ⟨j, hj, -⟩
    omega
  · rintro x ⟨j, hj, -⟩
    omega
  · rintro k s1 - hk h1
    have huser : ∀ x, s1.pte ⟨procPt, x⟩ = s.pte ⟨procPt, x⟩ := fun x => h1.other _ hne
    refine (copyEntry_frame s1 procPt kernelPt _).mono ?_ ?_
    · rintro - s2 ⟨hv, hpte⟩
      rw [huser] at hv hpte
      refine ⟨?_, ?_, ?_, ?_⟩
      · intro p hp
        rw [hpte, if_neg fun he => hp (congrArg Slot.root he), h1.other p hp]
      · rintro x ⟨j, hj, rfl⟩
        by_cases hjk : j = k
        · rw [hjk]
          exact hv
        · exact h1.valid _ ⟨j, by omega, rfl⟩
      · rintro x ⟨j, hj, rfl⟩
        rw [hpte]
        by_cases hx : idx (oldsz + j * PGSIZE) = idx (oldsz + k * PGSIZE)
        · rw [hx, if_pos rfl]
        · rw [if_neg fun he => hx (Slot.mk.inj he).2]
          refine h1.copied _ ⟨j, ?_, rfl⟩
          have hjk : j ≠ k := by
            rintro rfl
            exact hx rfl
          omega
      · intro x hx
        rw [hpte, if_neg fun he => hx ⟨k, by omega, (Slot.mk.inj he).2⟩]
        refine h1.kept x ?_
        rintro ⟨j, hj, rfl⟩
        exact hx ⟨j, by omega, rfl⟩
    · intro e he
      have he' : EntryPanic s procPt (oldsz + k * PGSIZE) e := by
        simp only [EntryPanic, huser] at he
        exact he
      exact he'.copyPanic (by omega) (not_le.mp hplic)
  · rintro - s' hs'
    rw [Nat.zero_add] at hs'
    exact ⟨not_le.mp hplic, hs'⟩

/-- With every visited page there and a size below `PLIC`, only memory can be missing. -/
lemma CopyPanic.not_copyErr (h : CopyPanic s procPt oldsz newsz e)
    (hplic : newsz < PLIC) (hv : ∀ x, Visited oldsz newsz x → (s.pte ⟨procPt, x⟩).v) :
    ¬ CopyErr e := by
  cases e with
  | exceedPlic => exact absurd hplic (not_lt.mpr h)
  | noUserPte | noValidUserPte =>
    obtain ⟨x, hx, hf⟩ := h
    rw [hv x hx] at hf
    cases hf
  | _ => exact id

end

/-! ### The kernel's pages -/

lemma copyEntry_step (h : s.Inv o) (ht : s.user kernelPt = false) (a : ℕ) :
    wp (copyEntry procPt kernelPt a) s (fun _ s' => KernelStep kernelPt s s') fun _ => True := by
  rw [copyEntry, wp_bind, walk_look]
  refine ⟨fun _ => trivial, fun _ => ?_⟩
  by_cases hreach : (s.pt procPt).reach (idx a)
  · simp only [hreach, if_true, wp_bind, wp_load]
    rw [wp_ite]
    refine ⟨fun _ => ?_, fun _ => wp_throw.mpr trivial⟩
    refine (walk_kernel h ht a true).bind ?_
    rintro (_ | slot) s' ⟨h', -, hslot⟩
    · exact wp_throw.mpr trivial
    · obtain ⟨rfl, -⟩ := hslot slot rfl
      rw [wp_store]
      exact h'.trans (.setPt (h'.user ▸ ht) _)
  · simp only [hreach]
    exact wp_throw.mpr trivial

/-- The kernel's table has the visited entries of the user's table. -/
structure KernelCopy (s s' : Vm) (procPt kernelPt : ℕ) (d : Idx → Prop) : Prop where
  step : KernelStep kernelPt s s'
  valid : ∀ x, d x → (s.pte ⟨procPt, x⟩).v
  copied : ∀ x, d x → s'.pte ⟨kernelPt, x⟩ = kernelPte (s.pte ⟨procPt, x⟩)
  kept : ∀ x, ¬ d x → s'.pte ⟨kernelPt, x⟩ = s.pte ⟨kernelPt, x⟩

section

variable (h : s.Inv o) (ht : s.user kernelPt = false) (hne : procPt ≠ kernelPt) (oldsz newsz : ℕ)
include h ht hne oldsz newsz

lemma copyProcToKernel_cause : wp (copyProcToKernel procPt kernelPt oldsz newsz) s
      (fun _ s' => newsz < PLIC ∧ KernelCopy s s' procPt kernelPt (Visited oldsz newsz))
      (CopyPanic s procPt oldsz newsz) := by
  have hstep : wp (copyProcToKernel procPt kernelPt oldsz newsz) s
      (fun _ s' => KernelStep kernelPt s s') fun _ => True := by
    rw [copyProcToKernel, wp_ite]
    refine ⟨fun _ => wp_throw.mpr trivial, fun _ => ?_⟩
    refine wp_forRange (fun _ (s' : Vm) => KernelStep kernelPt s s') (.refl _ s) ?_
    rintro k s1 - - h1
    obtain ⟨o1, ho1, -⟩ := h1.inv o h
    exact (copyEntry_step ho1 (h1.user ▸ ht) _).post fun _ _ h2 => h1.trans h2
  refine ((copyProcToKernel_frame s hne oldsz newsz).and hstep).mono ?_ fun e he => he.1
  rintro - s' ⟨⟨hplic, hc⟩, hk⟩
  exact ⟨hplic, hk, hc.valid, hc.copied, hc.kept⟩

end

/-- Every page below `sz` is there. -/
def Filled (s : Vm) (t sz : ℕ) : Prop := ∀ x, vaOf x < sz → (s.pte ⟨t, x⟩).v

lemma visited_zero_iff {newsz : ℕ} (hmax : newsz ≤ MAXVA) (x : Idx) :
    Visited 0 newsz x ↔ vaOf x < newsz := by
  constructor
  · rintro ⟨k, hk, rfl⟩
    have hlt : 0 + k * PGSIZE < newsz := by
      simp only [pagesUpto, PGSIZE] at *
      omega
    rwa [(eq_idx_iff (hlt.trans_le hmax) (by simp)).mp rfl]
  · intro hx
    have hmod := vaOf_mod x
    refine ⟨vaOf x / PGSIZE, ?_, ?_⟩
    · simp only [pagesUpto, PGSIZE] at *
      omega
    · rw [Nat.zero_add, Nat.div_mul_cancel (Nat.dvd_of_mod_eq_zero hmod), idx_vaOf]

lemma Filled.mapped {sz newsz : ℕ} {perm : Perm} (h : s.Filled t sz) (hmax : sz ≤ MAXVA)
    (hm : Mapped s s' o (InRange t (pgRoundUp sz) newsz) perm) : s'.Filled t newsz := by
  intro x hx
  by_cases hd : InRange t (pgRoundUp sz) newsz ⟨t, x⟩
  · obtain ⟨pa, hpa⟩ := hm.pte _ hd
    rw [hpa]
  · rw [hm.kept _ hd]
    refine h x ?_
    have hmod := vaOf_mod x
    by_contra hge
    refine hd ⟨rfl, ?_, hx⟩
    simp only [pgRoundUp, PGSIZE, MAXVA] at *
    omega

lemma Filled.congr {sz : ℕ} (h : s.Filled t sz) (hpte : ∀ x, (s'.pte ⟨t, x⟩).v = (s.pte ⟨t, x⟩).v) :
    s'.Filled t sz := by
  intro x hx
  rw [hpte]
  exact h x hx

/-! ## Forking -/

lemma Inv.kernel_not_user (h : s.Inv o) (ht : 0 < o t) : s.user t = false := by
  by_contra hu
  exact h.refs.not_of_held ht (.root t) ⟨by simpa using hu, rfl⟩

lemma Inv.user_ne_kernel (h : s.Inv o) {u : ℕ} (hu : s.user u) (ht : 0 < o t) : u ≠ t := by
  rintro rfl
  rw [h.kernel_not_user ht] at hu
  cases hu

/-- The kernel has taken the page `t` for a table with the entries of `kpt`. -/
structure KernelTable (s s' : Vm) (o : ℕ → ℕ) (kpt : PageTable) (t : ℕ) : Prop where
  step : KernelStep t s s'
  fresh : o t = 0
  notUser : s.user t = false
  inv : ∃ o', s'.Inv o' ∧ (∀ q, o q ≤ o' q) ∧ 0 < o' t
  pte : ∀ x, s'.pte ⟨t, x⟩ = kpt.get x

lemma kvmmake_spec (h : s.Inv o) (kpt : PageTable) :
    wp (kvmmake kpt) s (fun r s' => KernelTable s s' o kpt r) fun _ => True := by
  rw [kvmmake, wp_bind]
  refine wp_kalloc_inv h (fun _ _ _ => wp_throw.mpr trivial) ?_
  intro r k hk ho hinv
  simp only [wp_bind, wp_memset, wp_modify, wp_pure]
  have hinv' : Inv (update o r 1) { s with kmem := k.memset r 0 } := hinv.setMem _
  have huser := hinv'.kernel_not_user (t := r) (by simp)
  have hset := KernelStep.setPt huser kpt
  obtain ⟨o', ho', hle⟩ := hset.inv _ hinv'
  refine ⟨(kernelStep_take hk 0).trans hset, ho, huser, ⟨o', ho', ?_, ?_⟩, fun _ => pte_setPt_self⟩
  · intro q
    refine le_trans ?_ (hle q)
    by_cases hq : q = r
    · rw [hq, ho]
      exact Nat.zero_le _
    · rw [update_of_ne hq]
  · have := hle r
    rw [update_self] at this
    omega

/-- The child `c` of `p`: its user page table has the pages of `p` below `p.sz`, and its kernel page
table maps them as well. -/
structure Forked (s s' : Vm) (o : ℕ → ℕ) (kpt : PageTable) (p c : Proc) : Prop where
  inv : ∃ o', s'.Inv o' ∧ (∀ q, o q ≤ o' q) ∧ 0 < o' c.kpagetable
  sz : c.sz = p.sz
  plic : c.sz < PLIC
  fresh : s.user c.pagetable = false
  kfresh : o c.kpagetable = 0
  user : s'.user = update s.user c.pagetable true
  other : ∀ q, q.root ≠ p.pagetable → q.root ≠ c.pagetable → q.root ≠ c.kpagetable →
    s'.pte q = s.pte q
  parent : ∀ x, PteSim (s.pte ⟨p.pagetable, x⟩) (s'.pte ⟨p.pagetable, x⟩)
  child : ∀ x, vaOf x < p.sz → PteSim (s.pte ⟨p.pagetable, x⟩) (s'.pte ⟨c.pagetable, x⟩)
  rest : ∀ x, ¬ vaOf x < p.sz → s'.pte ⟨c.pagetable, x⟩ = .zero
  kernel : ∀ x, Visited 0 p.sz x → (s'.pte ⟨c.pagetable, x⟩).v ∧
    s'.pte ⟨c.kpagetable, x⟩ = kernelPte (s'.pte ⟨c.pagetable, x⟩)
  kernelRest : ∀ x, ¬ Visited 0 p.sz x → s'.pte ⟨c.kpagetable, x⟩ = kpt.get x
  page : ∀ q, s'.user q.root → s'.page q = if q.root = c.pagetable then
    (if vaOf q.idx < p.sz then s.page ⟨p.pagetable, q.idx⟩ else none) else s.page q

/-- A `fork` that fails. -/
structure ForkFailed (s s' : Vm) (o : ℕ → ℕ) (p : Proc) : Prop where
  inv : ∃ o', s'.Inv o' ∧ ∀ q, o q ≤ o' q
  user : ∀ t, s.user t → s'.user t
  other : ∀ q, (s.user q.root ∨ 0 < o q.root) → q.root ≠ p.pagetable → s'.pte q = s.pte q
  parent : ∀ x, PteSim (s.pte ⟨p.pagetable, x⟩) (s'.pte ⟨p.pagetable, x⟩)

lemma kvmmake_noCopyErr (kpt : PageTable) : NoCopyErr (kvmmake kpt) := by
  refine kalloc_noCopyErr.bind fun r => ?_
  cases r with
  | none => exact .of_throw id
  | some page =>
    exact (memset_noCopyErr page 0).bind fun _ =>
      (Prog.Only.of_modify _).bind fun _ => .of_pure page

section

variable (h : s.Inv o) (hu : s.user p.pagetable)
include h hu

/-- The panics of `copy_proc_to_kernel` come from a parent that is too large or lacks a page. -/
lemma kfork_cause (kpt : PageTable) : wp (kfork p kpt) s
      (fun r s' => r = none ∧ ForkFailed s s' o p ∨ ∃ c, r = some c ∧ Forked s s' o kpt p c)
      fun e => CopyErr e → ¬ (p.sz < PLIC ∧ s.Filled p.pagetable p.sz) := by
  rw [kfork]
  refine ((uvmcreate_spec h).only (uvmcreate_noCopyErr.imp _)).bind ?_
  rintro r s1 (⟨rfl, h1⟩ | ⟨t, rfl, h1⟩)
  · refine wp_pure.mpr (.inl ⟨rfl, ⟨o, h1.inv, fun _ => le_rfl⟩, fun t ht => ?_,
      fun q _ _ => h1.pte q, fun x => .of_eq (h1.pte _) (.refl _)⟩)
    rw [h1.user]
    exact ht
  have htp : p.pagetable ≠ t := by
    intro heq
    have hfresh := h1.fresh
    rw [← heq, hu] at hfresh
    cases hfresh
  have hut : s1.user t := by rw [h1.user, update_self]
  have hup : s1.user p.pagetable := by rw [h1.user, update_of_ne htp]; exact hu
  refine ((kvmmake_spec h1.inv kpt).only ((kvmmake_noCopyErr kpt).imp _)).bind ?_
  intro kt s2 h2
  obtain ⟨o2, ho2, hle2, hkt⟩ := h2.inv
  have hu2 := h2.step.user
  have hpk : p.pagetable ≠ kt := by
    rintro rfl
    rw [h2.notUser] at hup
    cases hup
  have htk : t ≠ kt := by
    rintro rfl
    rw [h2.notUser] at hut
    cases hut
  have hempty : ∀ x, s2.pte ⟨t, x⟩ = .zero := by
    intro x
    rw [h2.step.pte ⟨t, x⟩ htk, h1.pte, if_pos rfl]
  have hparent : ∀ x, s2.pte ⟨p.pagetable, x⟩ = s.pte ⟨p.pagetable, x⟩ := by
    intro x
    rw [h2.step.pte ⟨p.pagetable, x⟩ hpk, h1.pte, if_neg htp]
  rw [wp_bind]
  refine ((uvmcopy_spec ho2 (hu2 ▸ hup) (hu2 ▸ hut) htp p.sz hempty).only
    ((uvmcopy_noCopyErr ..).imp _)).post ?_
  rintro b s3 (⟨rfl, h3⟩ | ⟨rfl, ho3, hu3, hother3, hparent3⟩)
  · simp only [if_true, wp_bind]
    refine (copyProcToKernel_cause h3.inv (h3.inv.kernel_not_user hkt) htk 0 p.sz).mono ?_ ?_
    swap
    · rintro e he hce ⟨hplic, hfull⟩
      refine he.not_copyErr hplic (fun x hx => ?_) hce
      have hlt := (visited_zero_iff (hplic.le.trans (by decide)) x).mp hx
      have hc := h3.child x hlt
      rw [hparent] at hc
      rw [hc.v]
      exact hfull x hlt
    rintro - s4 ⟨hplic, h4⟩
    obtain ⟨o4, ho4, hle4⟩ := h4.step.inv _ h3.inv
    have huser : s4.user = s1.user := by rw [h4.step.user, h3.user, hu2]
    refine wp_pure.mpr (.inr ⟨_, rfl, ?_⟩)
    refine ⟨⟨o4, ho4, fun q => (hle2 q).trans (hle4 q), hkt.trans_le (hle4 kt)⟩, rfl, hplic,
      h1.fresh, h2.fresh, huser.trans h1.user, ?_, ?_, ?_, ?_, ?_, ?_, ?_⟩
    · intro q hqp hqt hqk
      rw [h4.step.pte q hqk, h3.other q hqp hqt, h2.step.pte q hqk, h1.pte, if_neg hqt]
    · intro x
      have hp := h3.parent x
      rw [hparent] at hp
      exact .of_eq (h4.step.pte ⟨p.pagetable, x⟩ hpk) hp
    · intro x hx
      have hc := h3.child x hx
      rw [hparent] at hc
      exact .of_eq (h4.step.pte ⟨t, x⟩ htk) hc
    · intro x hx
      rw [h4.step.pte ⟨t, x⟩ htk, h3.rest x hx]
    · intro x hx
      rw [h4.copied x hx, h4.step.pte ⟨t, x⟩ htk]
      exact ⟨h4.valid x hx, rfl⟩
    · intro x hx
      rw [h4.kept x hx, h3.other ⟨kt, x⟩ hpk.symm htk.symm, h2.pte]
    · intro q hq
      rw [huser] at hq
      have hq2 : s2.user q.root := by rw [hu2]; exact hq
      rw [h4.step.page _ h3.inv q (by rw [h3.user]; exact hq2),
        h3.page ho2 (hu2 ▸ hup) hempty q hq2, h2.step.page _ h1.inv q hq,
        h2.step.page _ h1.inv ⟨p.pagetable, q.idx⟩ hup, h1.page q hq,
        h1.page ⟨p.pagetable, q.idx⟩ hup, if_neg htp]
      by_cases hqt : q.root = t <;> simp [hqt]
  · simp only [Bool.false_eq_true, if_false, wp_bind]
    refine ((uvmfree_spec ho3 (by rw [hu3, hu2]; exact hut) 0).only
      ((uvmfree_noCopyErr ..).imp _)).post ?_
    rintro - s4 ⟨h4, -⟩
    refine wp_pure.mpr (.inl ⟨rfl, ⟨o2, h4.inv, hle2⟩, ?_, ?_, ?_⟩)
    · intro u hus
      have hne : u ≠ t := by
        rintro rfl
        rw [h1.fresh] at hus
        cases hus
      rw [h4.user, update_of_ne hne, hu3, hu2, h1.user, update_of_ne hne]
      exact hus
    · intro q hq hqp
      have hqt : q.root ≠ t := by
        rintro rfl
        rcases hq with hq | hq
        · rw [h1.fresh] at hq
          cases hq
        · rw [h1.held] at hq
          exact lt_irrefl _ hq
      have hqk : q.root ≠ kt := by
        rintro rfl
        rcases hq with hq | hq
        · have huq : s1.user q.root := by rw [h1.user, update_of_ne hqt]; exact hq
          rw [h2.notUser] at huq
          cases huq
        · rw [h2.fresh] at hq
          exact lt_irrefl _ hq
      rw [h4.pte q hqt, hother3 q hqp hqt, h2.step.pte q hqk, h1.pte, if_neg hqt]
    · intro x
      have hp := hparent3 x
      rw [hparent] at hp
      exact .of_eq (h4.pte ⟨p.pagetable, x⟩ htp) hp

/-! ## Growing and shrinking -/

lemma growDone_cause (hk : 0 < o p.kpagetable) (sz : ℕ) :
    wp (growDone p sz) s (fun r s' => r = some { p with sz := sz } ∧ sz < PLIC ∧
        KernelCopy s s' p.pagetable p.kpagetable (Visited p.sz sz))
      (CopyPanic s p.pagetable p.sz sz) := by
  rw [growDone]
  refine (copyProcToKernel_cause h (h.kernel_not_user hk) (h.user_ne_kernel hu hk) _ _).bind ?_
  rintro - s' hs'
  exact wp_pure.mpr ⟨rfl, hs'⟩

end

section

variable {p : Proc} {n : ℤ}

section

variable (h : s.Inv o) (hu : s.user p.pagetable) (hk : 0 < o p.kpagetable)
include h hu hk

lemma growproc_grow (hsz : p.sz ≤ TRAPFRAME) (hpos : 0 < n) (hn : n < 2 ^ 31) :
    wp (growproc p n) s (fun r s' => r = none ∧ Same s s' o ∧ (TRAPFRAME < addSz p.sz n → s' = s) ∨
        r = some { p with sz := addSz p.sz n } ∧ p.sz ≤ addSz p.sz n ∧ addSz p.sz n ≤ TRAPFRAME ∧
          addSz p.sz n < PLIC ∧ ∃ s1,
            Mapped s s1 o (InRange p.pagetable (pgRoundUp p.sz) (addSz p.sz n))
              { r := true, u := true, w := true } ∧
            KernelCopy s1 s' p.pagetable p.kpagetable (Visited p.sz (addSz p.sz n)))
      fun _ => True := by
  rw [growproc, if_pos hpos, wp_ite]
  refine ⟨fun _ => wp_pure.mpr (.inl ⟨rfl, ⟨h, rfl, fun _ => rfl⟩, fun _ => rfl⟩), fun htop => ?_⟩
  have hle : p.sz ≤ addSz p.sz n := by
    simp only [addSz, TRAPFRAME, TRAMPOLINE, PGSIZE, MAXVA] at *
    omega
  have hpos' : 0 < addSz p.sz n := by
    simp only [addSz, TRAPFRAME, TRAMPOLINE, PGSIZE, MAXVA] at *
    omega
  refine (uvmalloc_spec h hu _ _ true false).bind ?_
  rintro r s1 (⟨hlt, -⟩ | ⟨-, ⟨rfl, h1⟩ | ⟨rfl, -, h1⟩⟩)
  · exact absurd hlt (not_lt.mpr hle)
  · exact wp_pure.mpr (.inl ⟨rfl, h1, fun hlt => absurd hlt htop⟩)
  · rw [if_neg hpos'.ne']
    refine (growDone_cause h1.inv (h1.user ▸ hu) hk _).weaken.post ?_
    rintro r s2 ⟨rfl, hplic, h2⟩
    exact .inr ⟨rfl, hle, not_lt.mp htop, hplic, s1, h1, h2⟩

lemma growproc_shrink (hsz : p.sz ≤ TRAPFRAME) (hneg : n < 0) (hlt : addSz p.sz n < p.sz) :
    wp (growproc p n) s
      (fun r s' => r = some { p with sz := addSz p.sz n } ∧ addSz p.sz n < PLIC ∧ ∃ s1,
        Unmapped s s1 o (InRange p.pagetable (pgRoundUp (addSz p.sz n)) (pgRoundUp p.sz)) ∧
        KernelCopy s1 s' p.pagetable p.kpagetable (Visited p.sz (addSz p.sz n)))
      fun _ => True := by
  have hmax : p.sz ≤ MAXVA := hsz.trans (by decide)
  rw [growproc, if_neg (by omega), if_pos hneg]
  refine (uvmdealloc_spec h hu hmax hlt).bind ?_
  rintro _ s1 ⟨rfl, h1⟩
  refine (growDone_cause h1.inv (h1.user ▸ hu) hk _).weaken.post ?_
  rintro _ s2 ⟨rfl, hplic, h2⟩
  exact ⟨rfl, hplic, s1, h1, h2⟩

/-- With `n < 0` below zero the sum wraps around, and `uvmdealloc` does nothing. -/
lemma growproc_same (hpos : ¬ 0 < n) (hle : ¬ (n < 0 ∧ addSz p.sz n < p.sz)) : wp (growproc p n) s
      (fun r s' => r = some p ∧ KernelCopy s s' p.pagetable p.kpagetable (Visited p.sz p.sz))
      fun _ => True := by
  have hdone := (growDone_cause h hu hk p.sz).weaken.post fun r s' hp =>
    (⟨hp.1, hp.2.2⟩ : r = some p ∧ KernelCopy s s' p.pagetable p.kpagetable (Visited p.sz p.sz))
  rw [growproc, if_neg hpos, wp_ite]
  refine ⟨fun hneg => ?_, fun _ => hdone⟩
  rw [uvmdealloc, if_pos (not_lt.mp fun hlt => hle ⟨hneg, hlt⟩), wp_bind, wp_pure]
  exact hdone

end

end

end Xv6.Vm
