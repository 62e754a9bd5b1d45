import Xv6.Mem.Vm

/-!
# Which panics a function can raise

`copy_proc_to_kernel` has three panics of its own, for a size beyond `PLIC` and for a page of the
process that is not there (`CopyErr`). No function of `vm.c` raises them, from whatever state: so
where one of the callers of `copy_proc_to_kernel` ends in such a panic, it is that call that has
failed.
-/

namespace Xv6.Vm

/-- The panics of `copy_proc_to_kernel` that its arguments are responsible for. -/
def CopyErr : VmPanic → Prop
  | .exceedPlic | .noUserPte | .noValidUserPte => True
  | _ => False

/-- The program does not raise the panics of `copy_proc_to_kernel`. -/
abbrev NoCopyErr {α : Type} (m : VmProg α) : Prop := Prog.Only (fun e => ¬ CopyErr e) m

lemma NoCopyErr.imp {α : Type} {m : VmProg α} (h : NoCopyErr m) (c : Prop) :
    Prog.Only (fun e => CopyErr e → c) m :=
  h.mono fun _ he hc => absurd hc he

section

open Prog Only

lemma kalloc_noCopyErr : NoCopyErr kalloc := ⟨fun _ => wp_kalloc.mpr trivial⟩

lemma kfree_noCopyErr (pa : ℕ) : NoCopyErr (kfree pa) :=
  ⟨fun _ => wp_kfree.mpr ⟨fun _ _ => trivial, fun _ _ h => h⟩⟩

lemma load_noCopyErr (p : Slot) : NoCopyErr (load p) := ⟨fun _ => wp_load.mpr trivial⟩

lemma store_noCopyErr (p : Slot) (pte : Pte) : NoCopyErr (store p pte) :=
  ⟨fun _ => wp_store.mpr trivial⟩

lemma memset_noCopyErr (pa : ℕ) (c : UInt8) : NoCopyErr (memset pa c) :=
  ⟨fun _ => wp_memset.mpr trivial⟩

lemma walkLevel_noCopyErr (t : ℕ) (link : PageTable → Option ℕ) (set : PageTable → ℕ → PageTable)
    (alloc : Bool) : NoCopyErr (walkLevel t link set alloc) := by
  refine of_get.bind fun s => ?_
  cases link (s.pt t) with
  | some page => exact .of_pure true
  | none =>
    exact .ite (kalloc_noCopyErr.bindOption (.of_pure false) fun page =>
      (memset_noCopyErr page 0).bind fun _ => (of_modify _).bind fun _ => .of_pure true) <|
      .of_pure false

lemma walk_noCopyErr (t va : ℕ) (alloc : Bool) : NoCopyErr (walk t va alloc) :=
  .ite (.of_throw id) <| (walkLevel_noCopyErr t _ _ alloc).bind fun _ =>
    .ite ((walkLevel_noCopyErr t _ _ alloc).bind fun _ =>
      .ite (.of_pure _) (.of_pure _)) (.of_pure _)

lemma walkaddr_noCopyErr (t va : ℕ) : NoCopyErr (walkaddr t va) :=
  .ite (.of_pure 0) <| (walk_noCopyErr t va false).bindOption (.of_pure 0) fun slot =>
    (load_noCopyErr slot).bind fun _ => .ite (.of_pure _) (.of_pure _)

lemma ismapped_noCopyErr (t va : ℕ) : NoCopyErr (ismapped t va) :=
  (walk_noCopyErr t va false).bindOption (.of_pure false) fun slot =>
    (load_noCopyErr slot).bind fun _ => .of_pure _

lemma mapPage_noCopyErr (t a pa : ℕ) (perm : Perm) : NoCopyErr (mapPage t a pa perm) :=
  (walk_noCopyErr t a true).bindOption (.of_pure _) fun slot =>
    (load_noCopyErr slot).bind fun _ => .ite (.of_throw id) <|
      (store_noCopyErr slot _).bind fun _ => .of_pure none

lemma mappages_noCopyErr (t va size pa : ℕ) (perm : Perm) :
    NoCopyErr (mappages t va size pa perm) :=
  .ite (.of_throw id) <| .ite (.of_throw id) <| .ite (.of_throw id) <|
    bind (.forUntil (fun _ => mapPage_noCopyErr ..) 0 _) fun _ => .of_pure _

lemma uvmcreate_noCopyErr : NoCopyErr uvmcreate :=
  kalloc_noCopyErr.bindOption (.of_pure none) fun page =>
    (memset_noCopyErr page 0).bind fun _ => (of_modify _).bind fun _ => .of_pure _

lemma unmapPage_noCopyErr (t a : ℕ) (doFree : Bool) : NoCopyErr (unmapPage t a doFree) :=
  (walk_noCopyErr t a false).bindOption (.of_pure _) fun slot =>
    (load_noCopyErr slot).bind fun _ => .ite (.ite ((kfree_noCopyErr _).bind
      fun _ => store_noCopyErr slot _) <| store_noCopyErr slot _) (.of_pure _)

lemma uvmunmap_noCopyErr (t va npages : ℕ) (doFree : Bool) :
    NoCopyErr (uvmunmap t va npages doFree) :=
  .ite (.of_throw id) <| .forRange (fun _ => unmapPage_noCopyErr ..) 0 _

lemma uvmdealloc_noCopyErr (t oldsz newsz : ℕ) : NoCopyErr (uvmdealloc t oldsz newsz) :=
  .ite (.of_pure _) <| .ite ((uvmunmap_noCopyErr ..).bind fun _ => .of_pure _) (.of_pure _)

lemma allocPage_noCopyErr (t oldsz a : ℕ) (perm : Perm) : NoCopyErr (allocPage t oldsz a perm) :=
  kalloc_noCopyErr.bindOption ((uvmdealloc_noCopyErr ..).bind fun _ => .of_pure _) fun mem =>
    (memset_noCopyErr mem 0).bind fun _ => (mappages_noCopyErr ..).bind fun _ =>
      .ite (.of_pure none) <| (kfree_noCopyErr mem).bind fun _ =>
        (uvmdealloc_noCopyErr ..).bind fun _ => .of_pure _

lemma uvmalloc_noCopyErr (t oldsz newsz : ℕ) (xw xx : Bool) :
    NoCopyErr (uvmalloc t oldsz newsz xw xx) :=
  .ite (.of_pure _) <| bindOption (.forUntil (fun _ => allocPage_noCopyErr ..) 0 _)
    (.of_pure _) fun _ => .of_pure _

lemma freewalkLow_noCopyErr (t : ℕ) (ij : Fin 512 × Fin 512) (page : ℕ) :
    NoCopyErr (freewalkLow t ij page) :=
  (forRange (fun _ => of_get.bind fun _ =>
    .ite (.of_throw id) (.of_pure _)) 0 512).bind fun _ => kfree_noCopyErr page

lemma freewalkMid_noCopyErr (t : ℕ) (i : Fin 512) (page : ℕ) :
    NoCopyErr (freewalkMid t i page) := by
  refine (forRange (fun j => of_get.bind fun s => ?_) 0 512).bind fun _ =>
    kfree_noCopyErr page
  cases (s.pt t).low (i, Fin.ofNat 512 j) with
  | none => exact .of_pure _
  | some child => exact (freewalkLow_noCopyErr ..).bind fun _ => .of_modify _

lemma freewalk_noCopyErr (t : ℕ) : NoCopyErr (freewalk t) := by
  refine (forRange (fun i => of_get.bind fun s => ?_) 0 512).bind fun _ =>
    (kfree_noCopyErr t).bind fun _ => .of_modify _
  cases (s.pt t).mid (Fin.ofNat 512 i) with
  | none => exact .of_pure _
  | some child => exact (freewalkMid_noCopyErr ..).bind fun _ => .of_modify _

lemma uvmfree_noCopyErr (t sz : ℕ) : NoCopyErr (uvmfree t sz) :=
  .ite ((uvmunmap_noCopyErr ..).bind fun _ => freewalk_noCopyErr t) (freewalk_noCopyErr t)

lemma copyOne_noCopyErr (old new i : ℕ) : NoCopyErr (copyOne old new i) :=
  (walk_noCopyErr old i false).bindOption (.of_pure none) fun slot =>
    (load_noCopyErr slot).bind fun _ => .ite ((store_noCopyErr slot _).bind fun _ =>
      (mappages_noCopyErr ..).bind fun _ => .ite ((of_modify _).bind fun _ =>
        .of_pure none) (.of_pure _)) (.of_pure none)

lemma uvmcopy_noCopyErr (old new sz : ℕ) : NoCopyErr (uvmcopy old new sz) :=
  bindOption (.forUntil (fun _ => copyOne_noCopyErr ..) 0 _) (.of_pure true) fun _ =>
    (uvmunmap_noCopyErr ..).bind fun _ => .of_pure false

lemma uvmclear_noCopyErr (t va : ℕ) : NoCopyErr (uvmclear t va) :=
  (walk_noCopyErr t va false).bindOption (.of_throw id) fun slot =>
    (load_noCopyErr slot).bind fun _ => store_noCopyErr slot _

lemma vmfault_noCopyErr (p : Proc) (t va : ℕ) : NoCopyErr (vmfault p t va) :=
  .ite (.of_pure 0) <| (ismapped_noCopyErr ..).bind fun _ =>
    .ite (.of_pure 0) <| kalloc_noCopyErr.bindOption (.of_pure 0) fun mem =>
      (memset_noCopyErr mem 0).bind fun _ => (mappages_noCopyErr ..).bind fun _ =>
      .ite (.of_pure mem) <| (kfree_noCopyErr mem).bind fun _ => .of_pure 0

lemma cowFault_noCopyErr (slot : Slot) (pte : Pte) : NoCopyErr (cowFault slot pte) :=
  kalloc_noCopyErr.bindOption (.of_pure true) fun _ =>
    (of_modify _).bind fun _ => (store_noCopyErr slot _).bind fun _ =>
      (kfree_noCopyErr _).bind fun _ => .of_pure false

lemma loadFault_noCopyErr (p : Proc) (va : ℕ) : NoCopyErr (loadFault p va) :=
  (vmfault_noCopyErr ..).bind fun _ => .of_pure _

lemma storeFault_noCopyErr (p : Proc) (va : ℕ) : NoCopyErr (storeFault p va) :=
  (walk_noCopyErr ..).bindOption (loadFault_noCopyErr p va) fun slot =>
    (load_noCopyErr slot).bind fun _ => .ite (cowFault_noCopyErr ..)
      (loadFault_noCopyErr p va)

end

end Xv6.Vm
