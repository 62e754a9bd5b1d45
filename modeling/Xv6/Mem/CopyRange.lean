import Xv6.Mem.Cow

/-!
# Which pages `copy_proc_to_kernel` copies

`copy_proc_to_kernel` steps from `oldsz` by `PGSIZE`, and `sbrk` gives it sizes that are not page
aligned. It then visits one page for each step, the first of them the page of `oldsz`, and stops at
the first address that is not below `newsz`.

**The last page.**  The page of the last byte is missed just when `oldsz` is further into its page
than that byte is into its own (`Meets.visited_or_last`, `visited_last_iff`). Such a call leaves the
kernel without the page, unless it had it already.

Nothing here needs the reference counts of `Vm.Inv`: `copyProcToKernel_frame` reads and writes the
page tables as they are.
-/

namespace Xv6.Vm

variable {s s' : Vm} {procPt kernelPt oldsz newsz : ℕ} {x : Idx}

/-! ## Which pages the range has -/

/-- The page has a byte of `[lo, hi)`. -/
def Meets (lo hi : ℕ) (x : Idx) : Prop := lo < hi ∧ lo < vaOf x + PGSIZE ∧ vaOf x < hi

lemma Visited.meets (h : Visited oldsz newsz x) (hmax : newsz ≤ MAXVA) : Meets oldsz newsz x := by
  obtain ⟨k, hk, rfl⟩ := h
  have hlt : oldsz + k * PGSIZE < newsz := by
    simp only [pagesUpto, PGSIZE] at *
    omega
  rw [Meets, vaOf_idx (hlt.trans_le hmax)]
  simp only [PGSIZE] at *
  omega

/-- Every page of the range is visited, or it is the last one. -/
lemma Meets.visited_or_last (h : Meets oldsz newsz x) :
    Visited oldsz newsz x ∨ x = idx (newsz - 1) := by
  obtain ⟨hlt, hlo, hhi⟩ := h
  have hmod := vaOf_mod x
  by_cases hlast : vaOf x / PGSIZE = (newsz - 1) / PGSIZE
  · refine .inr ?_
    rw [← idx_pgRoundDown, pgRoundDown, ← hlast, Nat.div_mul_cancel (Nat.dvd_of_mod_eq_zero hmod),
      idx_vaOf]
  · refine .inl ⟨vaOf x / PGSIZE - oldsz / PGSIZE, ?_, ?_⟩
    · simp only [pagesUpto, PGSIZE] at *
      omega
    · have hround : pgRoundDown (oldsz + (vaOf x / PGSIZE - oldsz / PGSIZE) * PGSIZE) = vaOf x := by
        simp only [pgRoundDown, PGSIZE] at *
        omega
      rw [← idx_pgRoundDown, hround, idx_vaOf]

lemma meets_last (hlt : oldsz < newsz) (hmax : newsz ≤ MAXVA) :
    Meets oldsz newsz (idx (newsz - 1)) := by
  rw [Meets, vaOf_idx (by omega)]
  simp only [PGSIZE] at *
  omega

/-- The last page is visited just when `oldsz` is not further into its page than the last byte is.
-/
lemma visited_last_iff (hlt : oldsz < newsz) (hmax : newsz ≤ MAXVA) :
    Visited oldsz newsz (idx (newsz - 1)) ↔ oldsz % PGSIZE ≤ (newsz - 1) % PGSIZE := by
  constructor
  · rintro ⟨k, hk, heq⟩
    have hlt' : oldsz + k * PGSIZE < newsz := by
      simp only [pagesUpto, PGSIZE] at *
      omega
    have hva := congrArg vaOf heq
    rw [vaOf_idx (by omega), vaOf_idx (hlt'.trans_le hmax)] at hva
    simp only [pagesUpto, PGSIZE] at *
    omega
  · intro hstep
    refine ⟨(newsz - 1) / PGSIZE - oldsz / PGSIZE, ?_, ?_⟩
    · simp only [pagesUpto, PGSIZE] at *
      omega
    · have hround : pgRoundDown (oldsz + ((newsz - 1) / PGSIZE - oldsz / PGSIZE) * PGSIZE) =
          pgRoundDown (newsz - 1) := by
        simp only [pgRoundDown, PGSIZE] at *
        omega
      rw [← idx_pgRoundDown, ← hround, idx_pgRoundDown]

/-- What `copy_proc_to_kernel` is for: the kernel has the pages of the range, without `PTE_U`,
`PTE_W` and `PTE_X`, and keeps its other mappings. -/
structure CopiesRange (s s' : Vm) (procPt kernelPt oldsz newsz : ℕ) : Prop where
  copied : ∀ x, Meets oldsz newsz x → s'.pte ⟨kernelPt, x⟩ = kernelPte (s.pte ⟨procPt, x⟩)
  kept : ∀ x, ¬ Meets oldsz newsz x → s'.pte ⟨kernelPt, x⟩ = s.pte ⟨kernelPt, x⟩

/-- The loop reaches the last page, or the kernel has it already. -/
def LastCovered (s : Vm) (procPt kernelPt oldsz newsz : ℕ) : Prop :=
  oldsz % PGSIZE ≤ (newsz - 1) % PGSIZE ∨
    s.pte ⟨kernelPt, idx (newsz - 1)⟩ = kernelPte (s.pte ⟨procPt, idx (newsz - 1)⟩)

lemma Copied.copiesRange_iff (h : Copied s s' procPt kernelPt (Visited oldsz newsz))
    (hlt : oldsz < newsz) (hmax : newsz ≤ MAXVA) :
    CopiesRange s s' procPt kernelPt oldsz newsz ↔ LastCovered s procPt kernelPt oldsz newsz := by
  constructor
  · intro hc
    by_cases hv : Visited oldsz newsz (idx (newsz - 1))
    · exact .inl ((visited_last_iff hlt hmax).mp hv)
    · refine .inr ?_
      rw [← h.kept _ hv]
      exact hc.copied _ (meets_last hlt hmax)
  · intro hlast
    refine ⟨fun x hx => ?_, fun x hx => h.kept x fun hv => hx (hv.meets hmax)⟩
    by_cases hv : Visited oldsz newsz x
    · exact h.copied x hv
    · obtain rfl := hx.visited_or_last.resolve_left hv
      rw [visited_last_iff hlt hmax] at hv
      rw [h.kept _ (mt (visited_last_iff hlt hmax).mp hv)]
      exact hlast.resolve_left hv

/-- **`copy_proc_to_kernel` copies the whole range just when its loop reaches the last page or the
kernel has that page already.**  With every page of the range mapped, the only panic is for want of
a page-table page. -/
theorem copy_covers_range_iff (s : Vm) (procPt kernelPt oldsz newsz : ℕ) (hne : procPt ≠ kernelPt)
    (hle : oldsz ≤ newsz) (hplic : newsz < PLIC)
    (hmapped : ∀ x, Meets oldsz newsz x → (s.pte ⟨procPt, x⟩).v) :
    Prog.wp (copyProcToKernel procPt kernelPt oldsz newsz) s
      (fun _ s' => CopiesRange s s' procPt kernelPt oldsz newsz ↔
        oldsz = newsz ∨ LastCovered s procPt kernelPt oldsz newsz)
      fun e => e = .noKernelPte := by
  have hmax : newsz ≤ MAXVA := hplic.le.trans (by decide)
  refine (copyProcToKernel_frame s hne oldsz newsz).mono ?_ ?_
  · rintro - s' ⟨-, hc⟩
    rcases hle.eq_or_lt with heq | hlt
    · refine iff_of_true ⟨fun x hx => absurd hx.1 (by omega), fun x _ => hc.kept x fun hv => ?_⟩
        (.inl heq)
      exact absurd (hv.meets hmax).1 (by omega)
    · rw [hc.copiesRange_iff hlt hmax, or_iff_right hlt.ne]
  · intro e he
    cases e with
    | exceedPlic => exact absurd hplic (not_lt.mpr he)
    | noUserPte | noValidUserPte =>
      obtain ⟨x, hx, hv⟩ := he
      rw [hmapped x (hx.meets hmax)] at hv
      cases hv
    | noKernelPte => rfl
    | _ => exact he.elim

/-! ### A process of two pages -/

/-- A process of 4097 bytes; the kernel has none of its pages. -/
def twoPageVm : Vm :=
  (exec uvmStep forkVm [.uvmcreate, .uvmalloc 0x87FF0000 0 0x1001 true false]).getD forkVm

lemma twoPageVm_mapped (h : Meets 0 4097 x) : (twoPageVm.pte ⟨0x87FF0000, x⟩).v := by
  have hmod := vaOf_mod x
  obtain ⟨-, -, hhi⟩ := h
  rw [← idx_vaOf x]
  have hva : vaOf x = 0 ∨ vaOf x = 4096 := by
    simp only [PGSIZE] at *
    omega
  rcases hva with hva | hva
  · rw [hva]
    rfl
  · rw [hva]
    rfl

/-- From 0 bytes the loop reaches both pages. -/
theorem copy_covers_range_sample : ∃ s',
    copyProcToKernel 0x87FF0000 0x87FFF000 0 4097 twoPageVm = .ok ((), s') ∧
      CopiesRange twoPageVm s' 0x87FF0000 0x87FFF000 0 4097 := by
  have h := copy_covers_range_iff twoPageVm 0x87FF0000 0x87FFF000 0 4097 (by decide) (by decide)
    (by decide) fun _ hx => twoPageVm_mapped hx
  exact ⟨_, rfl, (h.1 _ _ rfl).mpr (.inr (.inl (by decide)))⟩

/-- `sbrk` from 4095 to 4097 bytes: the loop visits the page of byte 4095 and ends, and the kernel
has no mapping for byte 4096. -/
theorem copy_misses_last_page : ∃ s',
    copyProcToKernel 0x87FF0000 0x87FFF000 4095 4097 twoPageVm = .ok ((), s') ∧
      (twoPageVm.pte ⟨0x87FF0000, idx 4095⟩).v ∧ (twoPageVm.pte ⟨0x87FF0000, idx 4096⟩).v ∧
      (s'.pte ⟨0x87FFF000, idx 4095⟩).v ∧ (s'.pte ⟨0x87FFF000, idx 4096⟩).v = false :=
  ⟨_, rfl, rfl, rfl, rfl, rfl⟩

end Xv6.Vm
