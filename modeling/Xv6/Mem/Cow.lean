import Xv6.Mem.UserMem
import Xv6.Mem.ProcCalls

/-!
# Copy-on-write fork and eager copying

Processes fork, load, store, call `sbrk` and exit, on the kernel's memory (`PSys`) and on a machine
where every process has pages of its own and `fork` copies them (`EagerSys`). `PSys.abs` is what the
processes of the kernel see of memory, as a state of the second machine.

The two agree as long as no page is given up that another process still has mapped: `kfree` fills
the page with junk before it looks whether there are other references (`NoSharedDrop`). Otherwise
they do not: after a fork, the first store of the child destroys the page of its parent.

A step that needs a page when there is none is not a step of the system.
-/

namespace Xv6

open Function Prog Option

/-- The memory and the processes. -/
structure PSys where
  vm : Vm
  proc : ℕ → Option Proc

/-- What process `pid` does next. -/
inductive ProcAct where
  /-- `kpt` is what `kvmmake` puts into the kernel page table of the child. -/
  | fork (pid child : ℕ) (kpt : PageTable)
  | load (pid va : ℕ)
  | store (pid va : ℕ) (b : UInt8)
  | sbrk (pid : ℕ) (n : ℤ)
  | exit (pid : ℕ)

/-! ## The kernel -/

namespace Vm

/-- The hardware lets the process load from `va`. -/
def canLoad (s : Vm) (p : Proc) (va : ℕ) : Bool :=
  let pte := s.pte ⟨p.pagetable, idx va⟩
  decide (va < MAXVA) && pte.v && pte.perm.u && pte.perm.r

def canStore (s : Vm) (p : Proc) (va : ℕ) : Bool :=
  let pte := s.pte ⟨p.pagetable, idx va⟩
  decide (va < MAXVA) && pte.v && pte.perm.u && pte.perm.w

def writeByte (s : Vm) (p : Proc) (va : ℕ) (b : UInt8) : Vm :=
  { s with kmem := { s.kmem with
      mem := update s.kmem.mem ((s.pte ⟨p.pagetable, idx va⟩).pa + va % PGSIZE) b } }

/-- A load instruction: `false` if the process is killed. -/
def userLoad (p : Proc) (va : ℕ) : VmProg Bool := do
  let s ← get
  if s.canLoad p va then pure true
  else
    let killed ← loadFault p va
    pure (!killed)

/-- A store instruction, tried again after a fault. -/
def userStore (p : Proc) (va : ℕ) (b : UInt8) : VmProg Bool := do
  let s ← get
  if s.canStore p va then
    set (s.writeByte p va b)
    pure true
  else if ← storeFault p va then pure false
  else
    let s ← get
    if s.canStore p va then set (s.writeByte p va b)
    pure true

end Vm

namespace PSys

def step (s : PSys) : ProcAct → Outcome VmPanic PSys
  | .fork pid child kpt =>
    match s.proc pid, s.proc child with
    | some p, none =>
      match Vm.kfork p kpt s.vm with
      | .ok (some c, vm) => .next ⟨vm, update s.proc child (some c)⟩
      | .ok (none, _) => .disabled
      | .error e => .panic e
    | _, _ => .disabled
  | .load pid va =>
    match s.proc pid with
    | some p =>
      match Vm.userLoad p va s.vm with
      | .ok (true, vm) => .next ⟨vm, s.proc⟩
      | .ok (false, _) => .disabled
      | .error e => .panic e
    | none => .disabled
  | .store pid va b =>
    match s.proc pid with
    | some p =>
      match Vm.userStore p va b s.vm with
      | .ok (true, vm) => .next ⟨vm, s.proc⟩
      | .ok (false, _) => .disabled
      | .error e => .panic e
    | none => .disabled
  | .sbrk pid n =>
    match s.proc pid with
    | some p =>
      if -2 ^ 31 ≤ n ∧ n < 2 ^ 31 then
        match Vm.growproc p n s.vm with
        | .ok (some p', vm) => .next ⟨vm, update s.proc pid (some p')⟩
        -- the size asked for is too large, or there was no page
        | .ok (none, vm) => if TRAPFRAME < Vm.addSz p.sz n then .next ⟨vm, s.proc⟩ else .disabled
        | .error e => .panic e
      else .disabled
    | none => .disabled
  | .exit pid =>
    match s.proc pid with
    | some p =>
      match Vm.uvmfree p.pagetable p.sz s.vm with
      | .ok (_, vm) => .next ⟨vm, update s.proc pid none⟩
      | .error e => .panic e
    | none => .disabled

/-- The byte that a load of the process returns. -/
def load (s : PSys) (pid va : ℕ) : Option UInt8 :=
  match s.proc pid with
  | some p =>
    if s.vm.canLoad p va then
      some (s.vm.kmem.mem ((s.vm.pte ⟨p.pagetable, idx va⟩).pa + va % PGSIZE))
    else none
  | none => none

/-- Every page that the step gives up is mapped only there. -/
def NoSharedDrop (s : PSys) : ProcAct → Prop
  | .store pid va _ => ∀ p, s.proc pid = some p → s.vm.canStore p va = false →
      (s.vm.pte ⟨p.pagetable, idx va⟩).perm.cow → s.vm.Sole ⟨p.pagetable, idx va⟩
  | .sbrk pid n => ∀ p, s.proc pid = some p → n < 0 → Vm.addSz p.sz n < p.sz → ∀ q,
      Vm.InRange p.pagetable (pgRoundUp (Vm.addSz p.sz n)) (pgRoundUp p.sz) q → s.vm.Sole q
  | .exit pid => ∀ p, s.proc pid = some p → ∀ q,
      Vm.InRange p.pagetable 0 (pgRoundUp p.sz) q → s.vm.Sole q
  | _ => True

end PSys

/-! ## Eager copying -/

/-- A process that has pages of its own. -/
structure EagerProc where
  sz : ℕ
  page : Idx → Option UPage

/-- Every process has pages of its own. -/
abbrev EagerSys := ℕ → Option EagerProc

def UPage.write (pg : UPage) (i : ℕ) (b : UInt8) : UPage :=
  { pg with bytes := update pg.bytes i b }

namespace EagerProc

def setPage (p : EagerProc) (x : Idx) (pg : Option UPage) : EagerProc :=
  { p with page := update p.page x pg }

/-- What a child gets: a copy of every page. -/
def fork (p : EagerProc) : EagerProc :=
  { p with page := fun x => if vaOf x < p.sz then p.page x else none }

/-- A page of zeros, if there is none yet. -/
def fault (p : EagerProc) (va : ℕ) : EagerProc :=
  if va < p.sz ∧ (p.page (idx va)).isNone then
    p.setPage (idx va) (some (Vm.zeroPage Vm.lazyPerm))
  else p

def canLoad (p : EagerProc) (va : ℕ) : Bool :=
  decide (va < MAXVA) && (p.page (idx va)).any fun pg => pg.u && pg.r

def canStore (p : EagerProc) (va : ℕ) : Bool :=
  decide (va < MAXVA) && (p.page (idx va)).any fun pg => pg.u && pg.w

def write (p : EagerProc) (va : ℕ) (b : UInt8) : EagerProc :=
  p.setPage (idx va) ((p.page (idx va)).map fun pg => pg.write (va % PGSIZE) b)

def store (p : EagerProc) (va : ℕ) (b : UInt8) : EagerProc :=
  if (p.fault va).canStore va then (p.fault va).write va b else p.fault va

def sbrk (p : EagerProc) (n : ℤ) : EagerProc :=
  let newsz := Vm.addSz p.sz n
  if 0 < n then
    if TRAPFRAME < newsz then p
    else
      { sz := newsz
        page := fun x => if pgRoundUp p.sz ≤ vaOf x ∧ vaOf x < newsz then
            some (Vm.zeroPage { r := true, u := true, w := true }) else p.page x }
  else if n < 0 ∧ newsz < p.sz then
    { sz := newsz
      page := fun x => if pgRoundUp newsz ≤ vaOf x ∧ vaOf x < pgRoundUp p.sz then none
        else p.page x }
  else p

end EagerProc

namespace EagerSys

def step (e : EagerSys) : ProcAct → Outcome VmPanic EagerSys
  | .fork pid child _ =>
    match e pid, e child with
    | some p, none => .next (update e child (some p.fork))
    | _, _ => .disabled
  | .load pid va =>
    match e pid with
    | some p => .next (update e pid (some (p.fault va)))
    | none => .disabled
  | .store pid va b =>
    match e pid with
    | some p => .next (update e pid (some (p.store va b)))
    | none => .disabled
  | .sbrk pid n =>
    match e pid with
    | some p => .next (update e pid (some (p.sbrk n)))
    | none => .disabled
  | .exit pid =>
    match e pid with
    | some _ => .next (update e pid none)
    | none => .disabled

def load (e : EagerSys) (pid va : ℕ) : Option UInt8 :=
  match e pid with
  | some p => if p.canLoad va then (p.page (idx va)).map fun pg => pg.bytes (va % PGSIZE) else none
  | none => none

end EagerSys

/-! ## What the kernel's processes see -/

/-- The memory of the process. -/
def Vm.seen (s : Vm) (p : Proc) : EagerProc := ⟨p.sz, fun x => s.page ⟨p.pagetable, x⟩⟩

/-- The memories that the page tables implement. -/
def PSys.abs (s : PSys) : EagerSys := fun pid => (s.proc pid).map s.vm.seen

namespace Vm

variable {s s' : Vm} {o : ℕ → ℕ} {p : Proc} {va : ℕ} {b : UInt8}

lemma seen_canLoad : (s.seen p).canLoad va = s.canLoad p va := by
  cases hv : (s.pte ⟨p.pagetable, idx va⟩).v <;>
    simp [EagerProc.canLoad, canLoad, seen, page, hv, Bool.and_assoc]

lemma seen_fault_of_valid (hv : (s.pte ⟨p.pagetable, idx va⟩).v) :
    (s.seen p).fault va = s.seen p := by
  simp [EagerProc.fault, seen, page, hv]

lemma valid_of_canStore (hc : s.canStore p va) : (s.pte ⟨p.pagetable, idx va⟩).v := by
  simp only [canStore, Bool.and_eq_true] at hc
  exact hc.1.1.2

/-- The kernel lets a process store where its entry has `PTE_W`. -/
lemma seen_canStore (h : va < MAXVA) (hw : (s.pte ⟨p.pagetable, idx va⟩).perm.w) :
    (s.seen p).canStore va = s.canStore p va := by
  cases hv : (s.pte ⟨p.pagetable, idx va⟩).v <;>
    simp [EagerProc.canStore, canStore, seen, page, hv, hw, h]

lemma writeByte_inv (h : s.Inv o) : (s.writeByte p va b).Inv o := h.setMem _

/-- Nobody else sees what is stored through an entry with `PTE_W`. -/
lemma writeByte_page (h : s.Inv o) (hu : s.user p.pagetable) (hc : s.canStore p va) (q : Slot)
    (hq : s.user q.root) :
    (s.writeByte p va b).page q = if q = ⟨p.pagetable, idx va⟩ then
      (s.page ⟨p.pagetable, idx va⟩).map fun pg => pg.write (va % PGSIZE) b else s.page q := by
  have hv := valid_of_canStore hc
  have hw : (s.pte ⟨p.pagetable, idx va⟩).perm.w := by
    simp only [canStore, Bool.and_eq_true] at hc
    exact hc.2
  have hmod : va % PGSIZE < PGSIZE := Nat.mod_lt _ (by decide)
  have href : s.Refers (s.pte ⟨p.pagetable, idx va⟩).pa (.leaf ⟨p.pagetable, idx va⟩) :=
    ⟨hu, hv, rfl⟩
  have hpte : ∀ q, (s.writeByte p va b).pte q = s.pte q := fun _ => rfl
  split
  · next hqp =>
    subst hqp
    simp only [page, hpte, hv, if_true, map_some, UPage.write, some.injEq,
      UPage.mk.injEq, and_self, and_true]
    funext i
    by_cases hi : i = va % PGSIZE
    · subst hi
      rw [if_pos hmod, update_self]
      exact update_self ..
    · rw [update_of_ne hi]
      split
      · exact update_of_ne (by omega) ..
      · rfl
  · next hqp =>
    refine page_congr (hpte q ▸ .refl _) ?_
    intro hqv a ha
    have hrefq : s.Refers (s.pte q).pa (.leaf q) := ⟨hq, hqv, rfl⟩
    have hpa : (s.pte q).pa ≠ (s.pte ⟨p.pagetable, idx va⟩).pa := by
      intro heq
      rw [heq] at hrefq
      exact hqp (Ref.leaf.inj (h.refs.excl _ _ _ href hw hrefq))
    have hout := (h.refs.page_of _ _ hrefq).disjoint (h.refs.page_of _ _ href) hpa ha
    exact update_of_ne (by omega) ..

/-- The step changed what `p` sees to `e` and nothing else. -/
structure Sees (s s' : Vm) (o : ℕ → ℕ) (p : Proc) (e : EagerProc) : Prop where
  inv : s'.Inv o
  user : s'.user = s.user
  seen : s'.seen p = e
  other : ∀ q, s.user q.root → q.root ≠ p.pagetable → s'.page q = s.page q

lemma sees_write (h : s.Inv o) (hu : s.user p.pagetable) (hc : s.canStore p va) :
    Sees s (s.writeByte p va b) o p ((s.seen p).write va b) := by
  have hpage := writeByte_page (b := b) h hu hc
  refine ⟨writeByte_inv h, rfl, ?_, ?_⟩
  · simp only [Vm.seen, EagerProc.write, EagerProc.setPage, EagerProc.mk.injEq, true_and]
    funext x
    rw [hpage _ hu]
    by_cases hx : x = idx va
    · subst hx
      rw [if_pos rfl, update_self]
    · rw [if_neg (by simpa using hx), update_of_ne hx]
  · intro q hq hne
    rw [hpage q hq, if_neg]
    rintro rfl
    exact hne rfl

section

variable (hf : FaultedIn p va s s' o)
include hf

lemma FaultedIn.seen (hu : s.user p.pagetable) : s'.seen p = (s.seen p).fault va := by
  have hnone : (s.page ⟨p.pagetable, idx va⟩) = none := by simp [page, hf.free]
  simp only [Vm.seen, EagerProc.fault, hf.lt, hnone, isNone_none, and_self, if_true,
    EagerProc.setPage, EagerProc.mk.injEq, true_and]
  funext x
  rw [hf.mapped.view _ hu]
  by_cases hx : x = idx va
  · subst hx
    rw [if_pos rfl, update_self]
  · rw [if_neg (by simpa using hx), update_of_ne hx]

lemma FaultedIn.other (q : Slot) (hq : s.user q.root)
    (hne : q.root ≠ p.pagetable) : s'.page q = s.page q := by
  refine hf.mapped.page q ?_ hq
  rintro rfl
  exact hne rfl

lemma FaultedIn.sees (hu : s.user p.pagetable) : Sees s s' o p ((s.seen p).fault va) :=
  ⟨hf.mapped.inv, hf.mapped.user, hf.seen hu, hf.other⟩

end

lemma CopiedIn.sees (hc : CopiedIn ⟨p.pagetable, idx va⟩ s s' o)
    (hsole : s.Sole ⟨p.pagetable, idx va⟩) (hu : s.user p.pagetable) :
    Sees s s' o p (s.seen p) := by
  refine ⟨hc.inv, hc.user, ?_, fun q hq _ => hc.page hsole q hq⟩
  simp only [Vm.seen, EagerProc.mk.injEq, true_and]
  funext x
  exact hc.page hsole _ hu

lemma userLoad_sees (h : s.Inv o) (hu : s.user p.pagetable) (va : ℕ) :
    wp (userLoad p va) s (fun r s' => r = true → Sees s s' o p ((s.seen p).fault va))
      fun _ => True := by
  rw [userLoad, wp_bind, wp_get, wp_ite]
  refine ⟨fun hc => wp_pure.mpr fun _ => ⟨h, rfl, ?_, fun _ _ _ => rfl⟩, fun _ => ?_⟩
  · simp only [canLoad, Bool.and_eq_true] at hc
    exact (seen_fault_of_valid hc.1.1.2).symm
  · refine (loadFault_cause h hu va).weaken.bind ?_
    rintro killed s' (⟨rfl, -⟩ | ⟨rfl, hf⟩)
    · exact wp_pure.mpr fun hk => (nomatch hk)
    · exact wp_pure.mpr fun _ => hf.sees hu

/-- The store is tried again in `s₁`, where the entry has `PTE_W`. -/
lemma retry_sees {s1 : Vm} {e : EagerProc} (h : Sees s s1 o p e) (hu : s.user p.pagetable)
    (hmax : va < MAXVA) (hw : (s1.pte ⟨p.pagetable, idx va⟩).perm.w) (hfault : e.fault va = e) :
    wp (do
      let s ← get
      if s.canStore p va then set (s.writeByte p va b)
      pure true : VmProg Bool) s1 (fun r s' => r = true → Sees s s' o p (e.store va b))
      fun _ => True := by
  have hseen := h.seen
  have hstore : e.store va b = if s1.canStore p va then e.write va b else e := by
    rw [EagerProc.store, hfault, ← hseen, seen_canStore hmax hw]
  rw [wp_bind, wp_get, hstore]
  split
  · next hc =>
    rw [wp_bind, wp_set, wp_pure]
    intro _
    have hwrite := sees_write (b := b) h.inv (h.user ▸ hu) hc
    refine ⟨hwrite.inv, hwrite.user.trans h.user, hseen ▸ hwrite.seen, ?_⟩
    intro q hq hne
    rw [hwrite.other q (h.user ▸ hq) hne, h.other q hq hne]
  · exact wp_pure.mpr fun _ => h

lemma fault_fault (e : EagerProc) : (e.fault va).fault va = e.fault va := by
  by_cases hf : va < e.sz ∧ (e.page (idx va)).isNone
  · simp [EagerProc.fault, hf, EagerProc.setPage]
  · have hsame : e.fault va = e := if_neg hf
    rw [hsame, hsame]

lemma userStore_sees (h : s.Inv o) (hu : s.user p.pagetable)
    (hsole : s.canStore p va = false → (s.pte ⟨p.pagetable, idx va⟩).perm.cow →
      s.Sole ⟨p.pagetable, idx va⟩) :
    wp (userStore p va b) s (fun r s' => r = true → Sees s s' o p ((s.seen p).store va b))
      fun _ => True := by
  rw [userStore, wp_bind, wp_get, wp_ite]
  refine ⟨fun hc => ?_, fun hc => ?_⟩
  · rw [wp_bind, wp_set, wp_pure]
    intro _
    have hstore : (s.seen p).store va b = (s.seen p).write va b := by
      have hc' := hc
      simp only [canStore, Bool.and_eq_true, decide_eq_true_eq] at hc'
      rw [EagerProc.store, seen_fault_of_valid (valid_of_canStore hc),
        seen_canStore hc'.1.1.1 hc'.2, if_pos hc]
    exact hstore ▸ sees_write h hu hc
  · refine (storeFault_cause h hu va).weaken.bind ?_
    rintro killed s1 (⟨rfl, -⟩ | ⟨rfl, hmax, hcopy | hfresh⟩)
    · exact wp_pure.mpr fun hr => (nomatch hr)
    · have hs := hsole (by simpa using hc) hcopy.cow
      have hv := h.valid_of_cow hu hcopy.cow
      obtain ⟨pa, hpte⟩ := hcopy.pte
      exact retry_sees (hcopy.sees hs hu) hu hmax (by rw [hpte]) (seen_fault_of_valid hv)
    · obtain ⟨pa, hpte⟩ := hfresh.mapped.pte _ rfl
      have hretry := retry_sees (b := b) (hfresh.sees hu) hu hmax (by rw [hpte]; rfl)
        (fault_fault _)
      simpa only [EagerProc.store, fault_fault, Bool.false_eq_true, if_false] using hretry

/-- `view` is what is seen of memory now. -/
structure Resized (s s' : Vm) (o : ℕ → ℕ) (view : Slot → Option UPage) : Prop where
  inv : ∃ o', s'.Inv o' ∧ ∀ q, o q ≤ o' q
  user : s'.user = s.user
  page : ∀ q, s.user q.root → s'.page q = view q

lemma KernelStep.resized {t : ℕ} {s1 : Vm} {view : Slot → Option UPage} (hk : KernelStep t s1 s')
    (h1 : s1.Inv o) (hu : s1.user = s.user) (hp : ∀ q, s.user q.root → s1.page q = view q) :
    Resized s s' o view := by
  refine ⟨hk.inv o h1, hk.user.trans hu, fun q hq => ?_⟩
  rw [hk.page o h1 q (hu ▸ hq), hp q hq]

/-- What `growproc` does is what `sbrk` does to the memory of the process. -/
lemma growproc_sees (h : s.Inv o) (hu : s.user p.pagetable) (hk : 0 < o p.kpagetable)
    (hsz : p.sz ≤ TRAPFRAME) {n : ℤ} (hn : n < 2 ^ 31) (hsole : n < 0 → addSz p.sz n < p.sz → ∀ q,
      InRange p.pagetable (pgRoundUp (addSz p.sz n)) (pgRoundUp p.sz) q → s.Sole q) :
    wp (growproc p n) s
      (fun r s' => r = none ∧ (TRAPFRAME < addSz p.sz n → s' = s ∧ (s.seen p).sbrk n = s.seen p) ∨
        ∃ sz view, r = some { p with sz := sz } ∧ sz ≤ TRAPFRAME ∧ Resized s s' o view ∧
          (∀ q, q.root ≠ p.pagetable → view q = s.page q) ∧
          (s.seen p).sbrk n = ⟨sz, fun x => view ⟨p.pagetable, x⟩⟩)
      fun _ => True := by
  have hsee : (s.seen p).sz = p.sz := rfl
  by_cases hpos : 0 < n
  · refine (growproc_grow h hu hk hsz hpos hn).post ?_
    rintro r s' (⟨rfl, -, hsame⟩ | ⟨rfl, -, htop, -, s1, h1, h2⟩)
    · refine .inl ⟨rfl, fun htop => ⟨hsame htop, ?_⟩⟩
      rw [EagerProc.sbrk, if_pos hpos, hsee, if_pos htop]
    · refine .inr ⟨_, _, rfl, htop, h2.step.resized h1.inv h1.user h1.view,
        fun q hq => if_neg fun hin => hq hin.1, ?_⟩
      rw [EagerProc.sbrk, if_pos hpos, hsee, if_neg (not_lt.mpr htop)]
      simp only [seen, InRange, true_and]
  · by_cases hlt : n < 0 ∧ addSz p.sz n < p.sz
    · refine (growproc_shrink h hu hk hsz hlt.1 hlt.2).post ?_
      rintro r s' ⟨rfl, -, s1, h1, h2⟩
      refine .inr ⟨_, _, rfl, hlt.2.le.trans hsz, h2.step.resized h1.inv h1.user
        (h1.page fun q _ => hsole hlt.1 hlt.2 q), fun q hq => if_neg fun hin => hq hin.1, ?_⟩
      rw [EagerProc.sbrk, if_neg hpos, hsee, if_pos hlt]
      simp only [seen, InRange, true_and]
    · refine (growproc_same h hu hk hpos hlt).post ?_
      rintro r s' ⟨rfl, h1⟩
      refine .inr ⟨p.sz, _, rfl, hsz, h1.step.resized h rfl fun _ _ => rfl, fun q _ => rfl, ?_⟩
      rw [EagerProc.sbrk, if_neg hpos, hsee, if_neg hlt]
      rfl

end Vm

/-! ## One step for a step -/

namespace PSys

variable {s s' : PSys}

/-- Every process has tables of its own, and its kernel page table is held by the kernel. -/
structure Inv (s : PSys) (o : ℕ → ℕ) : Prop where
  vm : s.vm.Inv o
  user : ∀ pid p, s.proc pid = some p → s.vm.user p.pagetable
  kernel : ∀ pid p, s.proc pid = some p → 0 < o p.kpagetable
  sz : ∀ pid p, s.proc pid = some p → p.sz ≤ TRAPFRAME
  inj : ∀ pid p pid' p', s.proc pid = some p → s.proc pid' = some p' →
    p.pagetable = p'.pagetable → pid = pid'

def Ok (s : PSys) : Prop := ∃ o, s.Inv o

lemma trapframe_le : TRAPFRAME ≤ MAXVA := by decide

variable {o o' : ℕ → ℕ} {pid : ℕ} {p p' : Proc} {vm : Vm}

lemma update_cases {np q : Option Proc} {pid' : ℕ} (h : update s.proc pid np pid' = q) :
    pid' = pid ∧ np = q ∨ pid' ≠ pid ∧ s.proc pid' = q := by
  by_cases hpid : pid' = pid
  · subst hpid
    rw [update_self] at h
    exact .inl ⟨rfl, h⟩
  · rw [update_of_ne hpid] at h
    exact .inr ⟨hpid, h⟩

lemma of_removed {pid' : ℕ} {q : Proc} (hq : update s.proc pid none pid' = some q) :
    pid' ≠ pid ∧ s.proc pid' = some q :=
  (update_cases hq).resolve_left fun hnone => nomatch hnone.2

lemma forall_update {P : ℕ → Proc → Prop} (hself : P pid p')
    (hrest : ∀ pid' q, pid' ≠ pid → s.proc pid' = some q → P pid' q) (pid' : ℕ) (q : Proc)
    (hq : update s.proc pid (some p') pid' = some q) : P pid' q := by
  rcases update_cases hq with ⟨rfl, hs⟩ | ⟨hne, hs⟩
  · cases hs
    exact hself
  · exact hrest _ _ hne hs

/-- A table of the new process `p'` that no other process has. -/
lemma inj_update (f : Proc → ℕ)
    (hinj : ∀ pid1 q1 pid2 q2, s.proc pid1 = some q1 → s.proc pid2 = some q2 → f q1 = f q2 →
      pid1 = pid2) (hne : ∀ pid' q, pid' ≠ pid → s.proc pid' = some q → f q ≠ f p')
    (pid1 : ℕ) (q1 : Proc) (pid2 : ℕ) (q2 : Proc) (hq1 : update s.proc pid (some p') pid1 = some q1)
    (hq2 : update s.proc pid (some p') pid2 = some q2) (heq : f q1 = f q2) : pid1 = pid2 := by
  rcases update_cases hq1 with ⟨hc1, hs1⟩ | ⟨hn1, hs1⟩ <;>
    rcases update_cases hq2 with ⟨hc2, hs2⟩ | ⟨hn2, hs2⟩
  · rw [hc1, hc2]
  · cases hs1
    exact absurd heq.symm (hne _ _ hn2 hs2)
  · cases hs2
    exact absurd heq (hne _ _ hn1 hs1)
  · exact hinj _ _ _ _ hs1 hs2 heq

section

variable (h : s.Inv o) (hp : s.proc pid = some p) (hvm : vm.Inv o') (hle : ∀ q, o q ≤ o' q)
include h hp hvm hle

/-- The process `pid` has become `p'`, with the same kernel page table. -/
lemma Inv.put (hself : vm.user p'.pagetable)
    (hother : ∀ t, s.vm.user t → t ≠ p.pagetable → vm.user t ∧ t ≠ p'.pagetable)
    (hk : p'.kpagetable = p.kpagetable) (hsz : p'.sz ≤ TRAPFRAME) :
    Inv ⟨vm, update s.proc pid (some p')⟩ o' := by
  have hne : ∀ pid' q, pid' ≠ pid → s.proc pid' = some q → vm.user q.pagetable ∧
      q.pagetable ≠ p'.pagetable := fun pid' q hpid hq =>
    hother _ (h.user _ _ hq) fun heq => hpid (h.inj _ _ _ _ hq hp heq)
  refine ⟨hvm, forall_update hself fun _ _ hpid hq => (hne _ _ hpid hq).1,
    forall_update ?_ fun _ _ _ hq => (h.kernel _ _ hq).trans_le (hle _),
    forall_update hsz fun _ _ _ hq => h.sz _ _ hq,
    inj_update Proc.pagetable h.inj fun _ _ hpid hq => (hne _ _ hpid hq).2⟩
  rw [hk]
  exact (h.kernel _ _ hp).trans_le (hle _)

lemma Inv.withProc (hu : vm.user = s.vm.user) (ht : p'.pagetable = p.pagetable)
    (hk : p'.kpagetable = p.kpagetable)
    (hsz : p'.sz ≤ TRAPFRAME) : Inv ⟨vm, update s.proc pid (some p')⟩ o' := by
  refine h.put hp hvm hle ?_ ?_ hk hsz
  · rw [hu, ht]
    exact h.user _ _ hp
  · intro t hut hne
    rw [hu, ht]
    exact ⟨hut, hne⟩

end

lemma abs_update {np : Option Proc} (hother : ∀ pid' q, pid' ≠ pid → s.proc pid' = some q → ∀ x,
      vm.page ⟨q.pagetable, x⟩ = s.vm.page ⟨q.pagetable, x⟩) :
    abs ⟨vm, update s.proc pid np⟩ = update s.abs pid (np.map vm.seen) := by
  funext pid'
  by_cases hpid : pid' = pid
  · subst hpid
    simp only [abs, update_self]
  · simp only [abs, update_of_ne hpid]
    cases hq : s.proc pid' with
    | none => rfl
    | some q => simp only [map_some, Vm.seen, hother pid' q hpid hq]

lemma abs_of_some (hp : s.proc pid = some p) : s.abs pid = some (s.vm.seen p) := by
  rw [abs, hp, map_some]

section

variable (h : s.Inv o) {child : ℕ}
include h

lemma Inv.other (hp : s.proc pid = some p)
    (hview : ∀ q, s.vm.user q.root → q.root ≠ p.pagetable → vm.page q = s.vm.page q) (pid' : ℕ)
    (q : Proc) (hne : pid' ≠ pid) (hq : s.proc pid' = some q) (x : Idx) :
    vm.page ⟨q.pagetable, x⟩ = s.vm.page ⟨q.pagetable, x⟩ :=
  hview _ (h.user _ _ hq) fun heq => hne (h.inj _ _ _ _ hq hp heq)

lemma Inv.sees (hp : s.proc pid = some p) {e : EagerProc} (hs : Vm.Sees s.vm vm o p e) :
    Ok ⟨vm, s.proc⟩ ∧ abs ⟨vm, s.proc⟩ = update s.abs pid (some e) := by
  have hself : s.proc = update s.proc pid (some p) := by rw [← hp, update_eq_self]
  rw [hself]
  refine ⟨⟨o, h.withProc hp hs.inv (fun _ => le_rfl) hs.user rfl rfl (h.sz _ _ hp)⟩, ?_⟩
  rw [abs_update (h.other hp hs.other), map_some, hs.seen]

lemma Inv.add {c : Proc} (hsz : c.sz ≤ TRAPFRAME)
    (hfresh : s.vm.user c.pagetable = false) (hvm : vm.Inv o') (hle : ∀ q, o q ≤ o' q)
    (hk : 0 < o' c.kpagetable) (hu : vm.user = update s.vm.user c.pagetable true) :
    Inv ⟨vm, update s.proc child (some c)⟩ o' := by
  have hne : ∀ pid' q, s.proc pid' = some q → q.pagetable ≠ c.pagetable := by
    intro pid' q hq heq
    have huq := h.user _ _ hq
    rw [heq, hfresh] at huq
    cases huq
  refine ⟨hvm, forall_update (by simp [hu]) fun pid' q _ hq => ?_,
    forall_update hk fun _ _ _ hq => (h.kernel _ _ hq).trans_le (hle _),
    forall_update hsz fun _ _ _ hq => h.sz _ _ hq, inj_update Proc.pagetable h.inj fun _ _ _ =>
      hne _ _⟩
  simpa [hu, hne _ _ hq] using h.user _ _ hq

lemma Inv.fork {c : Proc} {kpt : PageTable} (hp : s.proc pid = some p)
    (hf : Vm.Forked s.vm vm o kpt p c) :
    Ok ⟨vm, update s.proc child (some c)⟩ ∧ abs ⟨vm, update s.proc child (some c)⟩ =
        update s.abs child (some (s.vm.seen p).fork) := by
  obtain ⟨o', ho', hle, hk⟩ := hf.inv
  refine ⟨⟨o', h.add (by rw [hf.sz]; exact h.sz _ _ hp) hf.fresh ho' hle hk hf.user⟩, ?_⟩
  rw [abs_update, map_some]
  · congr 2
    simp only [Vm.seen, EagerProc.fork, hf.sz, EagerProc.mk.injEq, true_and]
    funext x
    rw [hf.page _ (by simp [hf.user]), if_pos rfl]
    rfl
  · intro pid' q _ hq x
    have huq := h.user _ _ hq
    have hne : q.pagetable ≠ c.pagetable := by
      intro heq
      rw [heq, hf.fresh] at huq
      cases huq
    rw [hf.page _ (by simpa [hf.user, hne] using huq), if_neg hne]

section

variable (hp : s.proc pid = some p) (hvm : vm.Inv o)
  (hu : vm.user = update s.vm.user p.pagetable false)
include hp hvm hu

lemma Inv.remove : Inv ⟨vm, update s.proc pid none⟩ o := by
  refine ⟨hvm, ?_, fun _ q hq => h.kernel _ q (of_removed hq).2,
    fun _ q hq => h.sz _ q (of_removed hq).2, ?_⟩
  · intro pid' q hq
    obtain ⟨hne, hq'⟩ := of_removed hq
    rw [hu, update_of_ne fun heq => hne (h.inj _ _ _ _ hq' hp heq)]
    exact h.user _ _ hq'
  · intro pid1 q1 pid2 q2 hq1 hq2 heq
    exact h.inj _ _ _ _ (of_removed hq1).2 (of_removed hq2).2 heq

lemma Inv.exit (hpage : ∀ q, vm.user q.root → vm.page q = s.vm.page q) :
    Ok ⟨vm, update s.proc pid none⟩ ∧ abs ⟨vm, update s.proc pid none⟩ = update s.abs pid none := by
  have hrem := h.remove hp hvm hu
  refine ⟨⟨o, hrem⟩, ?_⟩
  rw [abs_update, map_none]
  intro pid' q hne hq x
  exact hpage _ (hrem.user pid' q ((update_of_ne hne ..).trans hq))

end

lemma Inv.resized (hp : s.proc pid = some p) {sz : ℕ} (hsz : sz ≤ TRAPFRAME)
    {view : Slot → Option UPage} (hr : Vm.Resized s.vm vm o view)
    (hview : ∀ q, q.root ≠ p.pagetable → view q = s.vm.page q) :
    Ok ⟨vm, update s.proc pid (some { p with sz := sz })⟩ ∧
      abs ⟨vm, update s.proc pid (some { p with sz := sz })⟩ =
        update s.abs pid (some ⟨sz, fun x => view ⟨p.pagetable, x⟩⟩) := by
  obtain ⟨o', ho', hle⟩ := hr.inv
  refine ⟨⟨o', h.withProc hp ho' hle hr.user rfl rfl hsz⟩, ?_⟩
  rw [abs_update, map_some]
  · congr 2
    simp only [Vm.seen, EagerProc.mk.injEq, true_and]
    funext x
    exact hr.page _ (h.user _ _ hp)
  · exact h.other hp fun q hq hne => by rw [hr.page q hq, hview q hne]

lemma step_sbrk (hp : s.proc pid = some p) {n : ℤ} (hok : s.NoSharedDrop (.sbrk pid n))
    (hs : s.step (.sbrk pid n) = .next s') :
    s'.Ok ∧ s'.abs = update s.abs pid (some ((s.vm.seen p).sbrk n)) := by
  simp only [step, hp] at hs
  split at hs
  · next hn =>
    have hgrow := (Vm.growproc_sees h.vm (h.user _ _ hp) (h.kernel _ _ hp) (h.sz _ _ hp) hn.2
      (hok p hp)).1
    split at hs
    · next p' vm hm =>
      cases hs
      rcases hgrow _ _ hm with ⟨hr, -⟩ | ⟨sz, view, hr, hsz, hres, hview, hsee⟩
      · cases hr
      · cases hr
        rw [hsee]
        exact h.resized hp hsz hres hview
    · next vm hm =>
      split at hs
      · next htop =>
        cases hs
        rcases hgrow _ _ hm with ⟨-, hsame⟩ | ⟨sz, view, hr, -⟩
        · obtain ⟨rfl, hsee⟩ := hsame htop
          refine ⟨⟨o, h⟩, ?_⟩
          rw [hsee, ← abs_of_some hp, update_eq_self]
        · cases hr
      · cases hs
    · cases hs
  · cases hs

end

lemma step_simulates (h : s.Ok) {a : ProcAct} (hok : s.NoSharedDrop a) (hs : s.step a = .next s') :
    s'.Ok ∧ EagerSys.step s.abs a = .next s'.abs := by
  obtain ⟨o, h⟩ := h
  cases a with
  | fork pid child kpt =>
    cases hp : s.proc pid with
    | none => simp only [step, hp, reduceCtorEq] at hs
    | some p =>
      cases hc : s.proc child with
      | some c => simp only [step, hp, hc, reduceCtorEq] at hs
      | none =>
        have hfork := (Vm.kfork_cause h.vm (h.user _ _ hp) kpt).1
        simp only [step, hp, hc] at hs
        split at hs
        · next c vm hm =>
          cases hs
          obtain ⟨c, hc', hf⟩ := (hfork _ _ hm).resolve_left fun hnone => nomatch hnone.1
          cases hc'
          obtain ⟨hok', habs⟩ := h.fork hp hf
          refine ⟨hok', ?_⟩
          have hnone : s.abs child = none := by rw [abs, hc, map_none]
          simp only [EagerSys.step, abs_of_some hp, hnone, habs]
        · cases hs
        · cases hs
  | load pid va =>
    cases hp : s.proc pid with
    | none => simp only [step, hp, reduceCtorEq] at hs
    | some p =>
      have hload := (Vm.userLoad_sees h.vm (h.user _ _ hp) va).1
      simp only [step, hp] at hs
      split at hs
      · next vm hm =>
        cases hs
        obtain ⟨hok', habs⟩ := h.sees hp (hload _ _ hm rfl)
        exact ⟨hok', by simp only [EagerSys.step, abs_of_some hp, habs]⟩
      · cases hs
      · cases hs
  | store pid va b =>
    cases hp : s.proc pid with
    | none => simp only [step, hp, reduceCtorEq] at hs
    | some p =>
      have hstore := (Vm.userStore_sees (b := b) h.vm (h.user _ _ hp) (hok p hp)).1
      simp only [step, hp] at hs
      split at hs
      · next vm hm =>
        cases hs
        obtain ⟨hok', habs⟩ := h.sees hp (hstore _ _ hm rfl)
        exact ⟨hok', by simp only [EagerSys.step, abs_of_some hp, habs]⟩
      · cases hs
      · cases hs
  | sbrk pid n =>
    cases hp : s.proc pid with
    | none => simp only [step, hp, reduceCtorEq] at hs
    | some p =>
      obtain ⟨hok', habs⟩ := step_sbrk h hp hok hs
      exact ⟨hok', by simp only [EagerSys.step, abs_of_some hp, habs]⟩
  | exit pid =>
    cases hp : s.proc pid with
    | none => simp only [step, hp, reduceCtorEq] at hs
    | some p =>
      have hfree := (Vm.uvmfree_spec h.vm (h.user _ _ hp) p.sz).1
      simp only [step, hp] at hs
      split at hs
      · next vm hm =>
        cases hs
        obtain ⟨hfreed, hpage⟩ := hfree _ _ hm
        obtain ⟨hok', habs⟩ := h.exit hp hfreed.inv hfreed.user
          (hpage ((h.sz _ _ hp).trans trapframe_le) (hok p hp))
        exact ⟨hok', by simp only [EagerSys.step, abs_of_some hp, habs]⟩
      · cases hs

lemma load_abs (s : PSys) (pid va : ℕ) : s.abs.load pid va = s.load pid va := by
  cases hp : s.proc pid with
  | none => simp only [EagerSys.load, load, abs, hp, map_none]
  | some p =>
    simp only [EagerSys.load, load, abs_of_some hp, hp, Vm.seen_canLoad]
    split
    · next hc =>
      simp only [Vm.canLoad, Bool.and_eq_true] at hc
      have hmod : va % PGSIZE < PGSIZE := Nat.mod_lt _ (by decide)
      simp [Vm.seen, Vm.page, hc.1.1.2, hmod]
    · rfl

end PSys

/-- The process that takes the step. -/
def ProcAct.pid : ProcAct → ℕ
  | .fork pid _ _ | .load pid _ | .store pid _ _ | .sbrk pid _ | .exit pid => pid

lemma EagerSys.load_other {e e' : EagerSys} {a : ProcAct} (hs : e.step a = .next e') {pid : ℕ}
    (hne : pid ≠ a.pid) (hp : (e pid).isSome) (va : ℕ) : e'.load pid va = e.load pid va := by
  have hsame : e' pid = e pid := by
    cases a with
    | fork p child kpt =>
      simp only [EagerSys.step] at hs
      split at hs
      · next hc =>
        cases hs
        refine update_of_ne ?_ ..
        rintro rfl
        rw [hc] at hp
        cases hp
      · cases hs
    | _ p =>
      simp only [EagerSys.step] at hs
      split at hs
      · cases hs
        exact update_of_ne hne ..
      · cases hs
  simp only [EagerSys.load, hsame]

/-- **Copy-on-write is eager copying as long as no shared page is given up.**  Every load returns
what it would return if `fork` copied every page, and no step changes what another process reads. -/
theorem cow_refines_eager {s0 s : PSys} {as : List ProcAct} (h0 : s0.Ok)
    (hr : RunOf PSys.step PSys.NoSharedDrop s0 as s) :
    (∃ e, Run EagerSys.step s0.abs as e ∧ ∀ pid va, s.load pid va = e.load pid va) ∧
    ∀ a s', s.NoSharedDrop a → s.step a = .next s' → ∀ pid va, pid ≠ a.pid →
      (s.proc pid).isSome → s'.load pid va = s.load pid va := by
  obtain ⟨h, hrun⟩ := hr.simulates (fun s a s' h hok hs => PSys.step_simulates h hok hs) h0
  refine ⟨⟨s.abs, hrun, fun pid va => (s.load_abs pid va).symm⟩, ?_⟩
  intro a s' hok hs pid va hne hp
  obtain ⟨-, hs'⟩ := PSys.step_simulates h hok hs
  rw [← s'.load_abs, ← s.load_abs]
  exact EagerSys.load_other hs' hne (by rwa [PSys.abs, isSome_map]) va

lemma of_one {q p : Proc} {pid : ℕ} (h : (if pid = 1 then some q else none) = some p) :
    pid = 1 ∧ p = q := by
  split at h
  · next hpid => exact ⟨hpid, (some.inj h).symm⟩
  · cases h

/-- A system with one process. -/
lemma PSys.Inv.one {vm : Vm} {o : ℕ → ℕ} {q : Proc} (h : vm.Inv o) (hu : vm.user q.pagetable)
    (hk : 0 < o q.kpagetable) (hsz : q.sz ≤ TRAPFRAME) :
    PSys.Inv ⟨vm, fun pid => if pid = 1 then some q else none⟩ o := by
  refine ⟨h, fun pid p hp => ?_, fun pid p hp => ?_, fun pid p hp => ?_, ?_⟩
  · rwa [(of_one hp).2]
  · rwa [(of_one hp).2]
  · rwa [(of_one hp).2]
  · exact fun pid p pid' p' hp hp' _ => (of_one hp).1.trans (of_one hp').1.symm

/-- A process with one page. -/
def forkSys : PSys where
  vm := (exec Vm.uvmStep forkVm [.uvmcreate, .uvmalloc 0x87FF0000 0 0x1000 true false]).getD forkVm
  proc := fun pid => if pid = 1 then some ⟨0x1000, 0x87FF0000, 0x87FFF000⟩ else none

lemma forkSys_ok : forkSys.Ok := by
  have hrun : Run Vm.uvmStep forkVm [.uvmcreate, .uvmalloc 0x87FF0000 0 0x1000 true false]
      forkSys.vm := Run.of_exec rfl
  have hinv := hrun.invariant (fun s a s' h hs => h.uvmStep hs) forkVm_inv
  exact ⟨_, .one hinv rfl (by simp) (by decide)⟩

/-- The child stores into the page it shares with its parent, and the parent then reads junk. -/
theorem cow_store_destroys_shared_page :
    forkSys.Ok ∧ ∃ s e, Run PSys.step forkSys [.fork 1 2 .empty, .store 2 0 0x41] s ∧
      Run EagerSys.step forkSys.abs [.fork 1 2 .empty, .store 2 0 0x41] e ∧
      e.load 1 0 = some 0 ∧ s.load 1 0 = some 1 :=
  ⟨forkSys_ok, _, _, Run.of_exec rfl, Run.of_exec rfl, rfl, rfl⟩

/-- A process stores, forks and grows. -/
theorem cow_refines_eager_sample : ∃ s e, RunOf PSys.step PSys.NoSharedDrop forkSys
        [.store 1 0 0x41, .fork 1 2 .empty, .sbrk 1 0x1000] s ∧
      Run EagerSys.step forkSys.abs [.store 1 0 0x41, .fork 1 2 .empty, .sbrk 1 0x1000] e ∧
      s.load 2 0 = some 0x41 ∧ ∀ pid va, s.load pid va = e.load pid va := by
  have hstore : forkSys.NoSharedDrop (.store 1 0 0x41) := by
    rintro p hp hc
    cases hp
    exact absurd hc (by decide)
  have hrun : RunOf PSys.step PSys.NoSharedDrop forkSys
      [.store 1 0 0x41, .fork 1 2 .empty, .sbrk 1 0x1000] _ :=
    .cons hstore rfl (.cons trivial rfl (.cons (fun _ _ hn => absurd hn (by decide)) rfl (.nil _)))
  obtain ⟨⟨e, he, hload⟩, -⟩ := cow_refines_eager forkSys_ok hrun
  exact ⟨_, e, hrun, he, rfl, hload⟩

end Xv6
