import Xv6.Mem.Mirror

/-!
# The callers of `copy_proc_to_kernel`

`copy_proc_to_kernel` panics if the size it is given reaches `PLIC` or if a page it visits is not
mapped. Its callers are `growproc`, `kfork` and `kexec`, and a process reaches them by system calls,
with sizes and files of its own choice.

**What keeps it from panicking.**  If every process has all pages below its size, and a size below
`PLIC` (`Full`), no call panics, and every step that meets `SizesOk` leaves it so. Three kinds of
step do not: an `sbrk` that grows the process lazily, for the pages are not there; an `sbrk` beyond
`PLIC`; an `exec` of a file with a segment so high that the stack ends beyond `PLIC`.
-/

namespace Xv6

open Function Prog Vm

namespace Vm

variable {s s' : Vm} {o : ℕ → ℕ} {p : Proc}

lemma KernelCopy.filled {procPt kernelPt sz : ℕ} {d : Idx → Prop}
    (hc : KernelCopy s s' procPt kernelPt d) (hne : procPt ≠ kernelPt) (h : s.Filled procPt sz) :
    s'.Filled procPt sz :=
  h.congr fun x => by rw [hc.step.pte ⟨procPt, x⟩ hne]

section

variable (h : s.Inv o) (hu : s.user p.pagetable) (hk : 0 < o p.kpagetable)
include h hu hk

lemma growDone_fills {sz : ℕ} (hplic : sz < PLIC) (hfull : s.Filled p.pagetable sz) :
    wp (growDone p sz) s (fun r s' => ∀ p', r = some p' → p'.pagetable = p.pagetable ∧
      p'.sz < PLIC ∧ s'.Filled p'.pagetable p'.sz) fun e => ¬ CopyErr e := by
  refine (growDone_cause h hu hk sz).mono ?_ ?_
  · rintro _ s' ⟨rfl, -, hc⟩ p' hp'
    cases hp'
    exact ⟨rfl, hplic, hc.filled (h.user_ne_kernel hu hk) hfull⟩
  · intro e he
    exact he.not_copyErr hplic fun x hx => hfull x (hx.lt (hplic.le.trans (by decide)))

lemma growproc_fills (hplic : p.sz < PLIC) (hfull : s.Filled p.pagetable p.sz) {n : ℤ}
    (hn : n < 2 ^ 31) (hgrow : 0 < n → TRAPFRAME < addSz p.sz n ∨ addSz p.sz n < PLIC) :
    wp (growproc p n) s (fun r s' => ∀ p', r = some p' → p'.pagetable = p.pagetable ∧
      p'.sz < PLIC ∧ s'.Filled p'.pagetable p'.sz) fun e => ¬ CopyErr e := by
  have hmax : p.sz ≤ MAXVA := hplic.le.trans (by decide)
  rw [growproc, wp_ite]
  refine ⟨fun hpos => ?_, fun hpos => ?_⟩
  · rw [wp_ite]
    refine ⟨fun _ => wp_pure.mpr fun _ hf => (by cases hf), fun htop => ?_⟩
    have hnew := (hgrow hpos).resolve_left htop
    refine ((uvmalloc_spec h hu _ _ true false).only (uvmalloc_noCopyErr ..)).bind ?_
    rintro r s1 (⟨hlt, -⟩ | ⟨-, ⟨rfl, -⟩ | ⟨rfl, -, h1⟩⟩)
    · simp only [addSz, PLIC] at *
      omega
    · exact wp_pure.mpr fun _ hf => (by cases hf)
    · rw [wp_ite]
      refine ⟨fun _ => wp_pure.mpr fun _ hf => (by cases hf), fun _ => ?_⟩
      exact growDone_fills h1.inv (h1.user ▸ hu) hk hnew (hfull.mapped hmax h1)
  · rw [wp_ite]
    refine ⟨fun hneg => ?_, fun _ => growDone_fills h hu hk hplic hfull⟩
    rw [wp_bind]
    by_cases hlt : addSz p.sz n < p.sz
    · refine ((uvmdealloc_spec h hu hmax hlt).only (uvmdealloc_noCopyErr ..)).post ?_
      rintro _ s1 ⟨rfl, h1⟩
      refine growDone_fills h1.inv (h1.user ▸ hu) hk (hlt.trans hplic) ?_
      intro x hx
      rw [h1.kept _ fun hd => ?_]
      · exact hfull x (hx.trans hlt)
      · have hlo := hd.2.1
        simp only [pgRoundUp, PGSIZE, MAXVA] at *
        omega
    · rw [uvmdealloc, if_pos (not_lt.mp hlt), wp_pure]
      exact growDone_fills h hu hk hplic hfull

lemma sbrk_fills (hplic : p.sz < PLIC) (hfull : s.Filled p.pagetable p.sz) {n : ℤ} (hn : n < 2 ^ 31)
    (eager : Bool) (hgrow : 0 < n → TRAPFRAME < addSz p.sz n ∨ eager ∧ addSz p.sz n < PLIC) :
    wp (sbrk p n eager) s (fun r s' => ∀ p', r = some p' → p'.pagetable = p.pagetable ∧
      p'.sz < PLIC ∧ s'.Filled p'.pagetable p'.sz) fun e => ¬ CopyErr e := by
  rw [sbrk, wp_ite]
  refine ⟨fun _ => growproc_fills h hu hk hplic hfull hn fun hpos =>
    (hgrow hpos).imp_right And.right, fun hlazy => ?_⟩
  simp only [wp_ite, wp_pure]
  refine ⟨fun _ _ hf => (nomatch hf), fun hle =>
    ⟨fun _ _ hf => (nomatch hf), fun htop p' hp' => ?_⟩⟩
  cases hp'
  -- A lazy call that does not grow the process.
  have hn0 : n = 0 := by
    by_contra hne
    rcases hgrow (by simp only [not_or] at hlazy; omega) with hbig | heager
    · exact htop hbig
    · exact hlazy (.inl heager.1)
  have hsame : addSz p.sz n = p.sz := by
    simp only [addSz, PLIC] at *
    omega
  simp only [hsame]
  exact ⟨trivial, hplic, hfull⟩

end

end Vm

namespace PSys

variable {s s' : PSys} {o o' : ℕ → ℕ} {pid : ℕ} {p p' : Proc} {vm : Vm} {e : VmPanic}

/-- The step does not make a process grow lazily, or beyond `PLIC`. -/
def SizesOk (s : PSys) : MemAct → Prop
  | .exec _ file _ => ∀ f, file = some f → Vm.ElfFits f
  | .sbrk pid n eager => ∀ p, s.proc pid = some p → 0 < n →
      TRAPFRAME < addSz p.sz n ∨ eager ∧ addSz p.sz n < PLIC
  | _ => True

/-- Every process has all pages below its size, which is below `PLIC`. -/
structure Full (s : PSys) (o : ℕ → ℕ) : Prop extends Inv s o where
  plic : ∀ pid p, s.proc pid = some p → p.sz < PLIC
  filled : ∀ pid p, s.proc pid = some p → s.vm.Filled p.pagetable p.sz

section

variable (h : s.Full o) {child : ℕ}
include h

lemma Full.keep (hinv : Inv ⟨vm, s.proc⟩ o')
    (hv : ∀ q, s.vm.user q.root → (s.vm.pte q).v → (vm.pte q).v) : Full ⟨vm, s.proc⟩ o' := by
  refine ⟨hinv, h.plic, fun pid p hp x hx => ?_⟩
  exact hv _ (h.user _ _ hp) (h.filled _ _ hp x hx)

lemma Full.replace (hp : s.proc pid = some p)
    (hinv : Inv ⟨vm, update s.proc pid (some p')⟩ o') (hplic : p'.sz < PLIC)
    (hfull : vm.Filled p'.pagetable p'.sz)
    (hv : ∀ q, s.vm.user q.root → q.root ≠ p.pagetable → (s.vm.pte q).v → (vm.pte q).v) :
    Full ⟨vm, update s.proc pid (some p')⟩ o' := by
  refine ⟨hinv, forall_update hplic fun _ _ _ hq => h.plic _ _ hq,
    forall_update hfull fun pid' q hne hq x hx => ?_⟩
  exact hv _ (h.user _ _ hq) (fun heq => hne (h.inj _ _ _ _ hq hp heq)) (h.filled _ _ hq x hx)

/-! ## One step -/

lemma Full.sbrk {n : ℤ} {eager : Bool} (hok : s.SizesOk (.sbrk pid n eager))
    (hs : s.memStep (.sbrk pid n eager) = .next s') : ∃ o', s'.Full o' := by
  rw [memStep] at hs
  split at hs
  · next hn =>
    obtain ⟨p, r, vm, hp, hm, rfl⟩ := of_call hs
    have hu := h.user _ _ hp
    have hk := h.kernel _ _ hp
    rcases (sbrk_spec h.vm hu hk (h.sz _ _ hp) hn.2 eager).1 _ _ hm with
      ⟨rfl, hsame⟩ | ⟨sz, rfl, hsized, -⟩
    · exact ⟨o, h.keep (h.toInv.keep hsame.inv (fun _ => le_rfl) fun t ht => hsame.user ▸ ht)
        fun q _ hv => by rwa [hsame.pte]⟩
    · obtain ⟨o', ho', hle⟩ := hsized.inv
      obtain ⟨-, hplic, hfull⟩ := (sbrk_fills h.vm hu hk (h.plic _ _ hp) (h.filled _ _ hp) hn.2
        eager (hok p hp)).1 _ _ hm _ rfl
      refine ⟨o', h.replace hp (h.withProc hp ho' hle hsized.user rfl rfl hsized.top) hplic
        hfull ?_⟩
      intro q hq hne hv
      rwa [hsized.other q hne (h.vm.user_ne_kernel hq hk)]
  · cases hs

lemma Full.exec {file : Option (List UInt8)} {argv : Argv}
    (hs : s.memStep (.exec pid file argv) = .next s') : ∃ o', s'.Full o' := by
  obtain ⟨p, r, vm, hp, hm, rfl⟩ := of_call hs
  have hk := h.kernel _ _ hp
  rcases (kexec_cause h.vm (h.user _ _ hp) hk file argv).1 _ _ hm with
    ⟨rfl, hf⟩ | ⟨img, rfl, he, -⟩
  · exact ⟨o, h.keep (h.toInv.keep hf.inv (fun _ => le_rfl) fun t ht => hf.user ▸ ht)
      fun q hq hv => by rwa [hf.pte q (.inl hq)]⟩
  · obtain ⟨o', ho'⟩ := h.toInv.execed hp he
    refine ⟨o', h.replace hp ho' he.plic (fun x hx => (he.kernel x hx).1) ?_⟩
    intro q hq hne hv
    rwa [he.other q hne (Inv.execed_ne he hq) (h.vm.user_ne_kernel hq hk)]

lemma Full.storeFault {va : ℕ} (hs : s.memStep (.storeFault pid va) = .next s') :
    ∃ o', s'.Full o' := by
  obtain ⟨p, killed, vm, hp, hm, rfl⟩ := of_call hs
  have hu := h.user _ _ hp
  have hkeep : ∀ {vm : Vm}, vm.Inv o → vm.user = s.vm.user →
      (∀ q, s.vm.user q.root → (s.vm.pte q).v → (vm.pte q).v) → Full ⟨vm, s.proc⟩ o :=
    fun hinv huser hv => h.keep (h.toInv.keep hinv (fun _ => le_rfl) fun t ht => huser ▸ ht) hv
  rcases (storeFault_cause h.vm hu va).1 _ _ hm with ⟨rfl, hsame⟩ | ⟨rfl, -, hc | hf⟩
  · exact ⟨o, hkeep hsame.inv hsame.user fun q _ hv => by rwa [hsame.pte]⟩
  · refine ⟨o, hkeep hc.inv hc.user fun q _ hv => ?_⟩
    by_cases hq : q = ⟨p.pagetable, idx va⟩
    · obtain ⟨pa, hpa⟩ := hc.pte
      rw [hq, hpa]
    · rwa [hc.kept q hq]
  · refine ⟨o, hkeep hf.mapped.inv hf.mapped.user fun q _ hv => ?_⟩
    by_cases hq : q = ⟨p.pagetable, idx va⟩
    · obtain ⟨pa, hpa⟩ := hf.mapped.pte _ hq
      rw [hpa]
    · rwa [hf.mapped.kept q hq]

lemma Full.loadFault {va : ℕ} (hs : s.memStep (.loadFault pid va) = .next s') :
    ∃ o', s'.Full o' := by
  obtain ⟨p, killed, vm, hp, hm, rfl⟩ := of_call hs
  rcases (loadFault_cause h.vm (h.user _ _ hp) va).1 _ _ hm with ⟨rfl, hsame⟩ | ⟨rfl, hf⟩
  · exact ⟨o, h.keep (h.toInv.keep hsame.inv (fun _ => le_rfl) fun t ht => hsame.user ▸ ht)
      fun q _ hv => by rwa [hsame.pte]⟩
  · refine ⟨o, h.keep (h.toInv.keep hf.mapped.inv (fun _ => le_rfl) fun t ht => hf.mapped.user ▸ ht)
      fun q _ hv => ?_⟩
    by_cases hq : q = ⟨p.pagetable, idx va⟩
    · obtain ⟨pa, hpa⟩ := hf.mapped.pte _ hq
      rw [hpa]
    · rwa [hf.mapped.kept q hq]

lemma Full.forked {c : Proc} {kpt : PageTable} (hp : s.proc pid = some p)
    (hf : Vm.Forked s.vm vm o kpt p c) :
    ∃ o', Full ⟨vm, update s.proc child (some c)⟩ o' := by
  obtain ⟨o', ho', hle, hkc⟩ := hf.inv
  have hfresh : ∀ t, s.vm.user t → t ≠ c.pagetable := by
    rintro t ht rfl
    rw [hf.fresh] at ht
    cases ht
  have hinv : Inv ⟨vm, update s.proc child (some c)⟩ o' :=
    h.add (by rw [hf.sz]; exact h.sz _ _ hp) hf.fresh ho' hle hkc hf.user
  refine ⟨o', hinv, forall_update hf.plic fun _ _ _ hq => h.plic _ _ hq,
    forall_update (fun x hx => ?_) fun pid' q _ hs x hx => ?_⟩
  · rw [hf.sz] at hx
    rw [(hf.child x hx).v]
    exact h.filled _ _ hp x hx
  · have hv := h.filled _ _ hs x hx
    by_cases hqp : q.pagetable = p.pagetable
    · rw [hqp] at hv ⊢
      rw [(hf.parent x).v]
      exact hv
    · have huq := h.user _ _ hs
      have huq' : vm.user q.pagetable := by
        rw [hf.user, update_of_ne (hfresh _ huq)]
        exact huq
      rwa [hf.other ⟨q.pagetable, x⟩ hqp (hfresh _ huq) (ho'.user_ne_kernel huq' hkc)]

lemma Full.fork {km : KernelMap}
    (hs : s.memStep (.fork pid child km) = .next s') : ∃ o', s'.Full o' := by
  rw [memStep] at hs
  split at hs
  · obtain ⟨p, r, vm, hp, hm, rfl⟩ := of_call hs
    rcases (kfork_cause h.vm (h.user _ _ hp) km.table).1 _ _ hm with ⟨rfl, hf⟩ | ⟨c, rfl, hf⟩
    · obtain ⟨o', ho', hle⟩ := hf.inv
      refine ⟨o', h.keep (h.toInv.keep ho' hle hf.user) fun q hq hv => ?_⟩
      by_cases hqp : q.root = p.pagetable
      · obtain ⟨t, x⟩ := q
        obtain rfl : t = p.pagetable := hqp
        rw [(hf.parent x).v]
        exact hv
      · rwa [hf.other q (.inl hq) hqp]
    · exact h.forked hp hf
  · cases hs

lemma Full.exit (hs : s.memStep (.exit pid) = .next s') : ∃ o', s'.Full o' := by
  obtain ⟨p, r, vm, hp, hm, rfl⟩ := of_call hs
  obtain ⟨hf, -⟩ := (uvmfree_spec h.vm (h.user _ _ hp) p.sz).1 _ _ hm
  refine ⟨o, h.remove hp hf.inv hf.user, fun _ _ hq => h.plic _ _ (of_removed hq).2, ?_⟩
  intro pid' q hq x hx
  obtain ⟨hne, hq⟩ := of_removed hq
  rw [hf.pte ⟨q.pagetable, x⟩ fun heq => hne (h.inj _ _ _ _ hq hp heq)]
  exact h.filled _ _ hq x hx

end

lemma Full.step (h : ∃ o, s.Full o) {a : MemAct} (hok : s.SizesOk a) (hs : s.memStep a = .next s') :
    ∃ o, s'.Full o := by
  obtain ⟨o, h⟩ := h
  cases a with
  | fork pid child km => exact h.fork hs
  | exec pid file argv => exact h.exec hs
  | sbrk pid n eager => exact h.sbrk hok hs
  | storeFault pid va => exact h.storeFault hs
  | loadFault pid va => exact h.loadFault hs
  | exit pid => exact h.exit hs

/-! ## Panics -/

lemma panic_of_call {α : Type} {f : Proc → VmProg α} {next : α → Vm → PSys}
    (h : s.call pid f next = .panic e) : ∃ p, s.proc pid = some p ∧ f p s.vm = .error e := by
  rw [call] at h
  split at h
  · cases h
  · next p hp =>
    split at h
    · cases h
    · next e' hm =>
      cases h
      exact ⟨p, hp, hm⟩

/-- No call of `copy_proc_to_kernel` fails for its arguments. -/
lemma Full.no_copyErr (h : s.Full o) {a : MemAct} (hok : s.SizesOk a)
    (hs : s.memStep a = .panic e) : ¬ Vm.CopyErr e := by
  cases a with
  | fork pid child km =>
    rw [memStep] at hs
    split at hs
    · obtain ⟨p, hp, hm⟩ := panic_of_call hs
      intro hce
      exact (kfork_cause h.vm (h.user _ _ hp) km.table).2 e hm hce ⟨h.plic _ _ hp, h.filled _ _ hp⟩
    · cases hs
  | exec pid file argv =>
    obtain ⟨p, hp, hm⟩ := panic_of_call hs
    intro hce
    exact (kexec_cause h.vm (h.user _ _ hp) (h.kernel _ _ hp) file argv).2 e hm hce hok
  | sbrk pid n eager =>
    rw [memStep] at hs
    split at hs
    · next hn =>
      obtain ⟨p, hp, hm⟩ := panic_of_call hs
      exact (sbrk_fills h.vm (h.user _ _ hp) (h.kernel _ _ hp) (h.plic _ _ hp)
        (h.filled _ _ hp) hn.2 eager (hok p hp)).2 e hm
    · cases hs
  | storeFault pid va =>
    obtain ⟨p, -, hm⟩ := panic_of_call hs
    exact ((storeFault_noCopyErr p va).spec s.vm).2 e hm
  | loadFault pid va =>
    obtain ⟨p, -, hm⟩ := panic_of_call hs
    exact ((loadFault_noCopyErr p va).spec s.vm).2 e hm
  | exit pid =>
    obtain ⟨p, -, hm⟩ := panic_of_call hs
    exact ((uvmfree_noCopyErr p.pagetable p.sz).spec s.vm).2 e hm

/-- **The calls of `copy_proc_to_kernel` meet its requirements**, in every run of steps that meet
`SizesOk`: every process has its pages and a size below `PLIC`, and no further such step panics for
want of them. -/
theorem copy_calls_meet_requirements {s0 s : PSys} {as : List MemAct} (h0 : ∃ o, s0.Full o)
    (hr : RunOf memStep SizesOk s0 as s) :
    (∀ pid p, s.proc pid = some p → p.sz < PLIC ∧ s.vm.Filled p.pagetable p.sz) ∧
      ∀ a e, s.SizesOk a → s.memStep a = .panic e → ¬ Vm.CopyErr e := by
  obtain ⟨o, h⟩ := hr.invariant (fun s a s' h hok hs => Full.step h hok hs) h0
  exact ⟨fun pid p hp => ⟨h.plic pid p hp, h.filled pid p hp⟩, fun a e hok hs =>
    h.no_copyErr hok hs⟩

end PSys

lemma emptySys_full : ∃ o, emptySys.Full o := by
  obtain ⟨o, h⟩ := emptySys_mirrored
  refine ⟨o, h.toInv, ?_, ?_⟩
  · intro pid p hp
    rw [(of_one hp).2]
    decide
  · intro pid p hp x hx
    rw [(of_one hp).2] at hx
    exact absurd hx (Nat.not_lt_zero _)

/-- It forks, and the child grows and shrinks. -/
theorem copy_calls_sample : ∃ s, RunOf PSys.memStep PSys.SizesOk emptySys
      [.fork 1 2 directKernelMap, .sbrk 2 0x1000 true, .sbrk 2 (-0x400) true] s ∧
    ∀ pid p, s.proc pid = some p → p.sz < PLIC ∧ s.vm.Filled p.pagetable p.sz := by
  have hgrow : ∀ {s : PSys} {pid : ℕ} {p : Proc} {n : ℤ}, s.proc pid = some p →
      addSz p.sz n < PLIC → s.SizesOk (.sbrk pid n true) := by
    intro s pid p n hp hlt q hq _
    cases hp.symm.trans hq
    exact .inr ⟨rfl, hlt⟩
  have hrun : RunOf PSys.memStep PSys.SizesOk emptySys
      [.fork 1 2 directKernelMap, .sbrk 2 0x1000 true, .sbrk 2 (-0x400) true] _ :=
    .cons trivial rfl (.cons (hgrow rfl (by decide)) rfl
      (.cons (hgrow rfl (by decide)) rfl (.nil _)))
  exact ⟨_, hrun, (PSys.copy_calls_meet_requirements emptySys_full hrun).1⟩

/-- `sbrk(2048)`, lazily, and then `sbrk(1)`: the kernel panics, as the page is not there. So it
does in a `fork` after a lazy `sbrk(4096)`: the child lacks the page as well. -/
theorem fork_after_lazy_sbrk_panics : (∃ o, emptySys.Full o) ∧ ∃ s t,
    Run PSys.memStep emptySys [.sbrk 1 0x800 false] s ∧
      s.memStep (.sbrk 1 1 true) = .panic .noUserPte ∧
      Run PSys.memStep emptySys [.sbrk 1 0x1000 false] t ∧
      t.memStep (.fork 1 2 directKernelMap) = .panic .noUserPte ∧ Vm.CopyErr .noUserPte :=
  ⟨emptySys_full, _, _, Run.of_exec rfl, rfl, Run.of_exec rfl, rfl, trivial⟩

end Xv6
