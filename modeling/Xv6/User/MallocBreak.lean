import Xv6.Lib.Bytes
import Xv6.User.Umalloc

/-!
# `malloc` and the break

`morecore` multiplies the number of units by `sizeof(Header)` in 64 bits and passes the product to
`sbrk`, which takes an `int`; the header of the new block has the number of units as it was. From
2 GiB on the two disagree: `sbrk` grows the process by too little or shrinks it, and returns the old
break all the same.

`malloc_owned_iff` says that this is the only way for `malloc` to return memory that the process
does not have.
-/

namespace Xv6.Umalloc

open ByteArr Heap

/-- What `morecore` passes to `sbrk` in a call of `malloc`. -/
def coreBytes (nbytes : ℕ) : ℤ := toInt32 (HSIZE * coreUnits (nunits nbytes) % 2 ^ 32)

/-- `sbrk(n)`: what it returns, `none` for `SBRK_ERROR`, and the new break; `room` says whether
there is memory to grow. -/
def sbrk (brk : ℕ) (n : ℤ) (room : Bool) : Option ℕ × ℕ :=
  if 0 ≤ n then if room then (some brk, brk + n.toNat) else (none, brk)
  else if n.natAbs ≤ brk then (some brk, brk - n.natAbs)
  else (some brk, brk)

/-- `malloc` in a process with the break `brk`: the heap, the pointer and the break. `got` has a new
region if `sbrk` has been called and has given one. A header stored above the break is no fault
here. -/
def mallocBrk (base fuel : ℕ) (h : Heap) (brk nbytes : ℕ) (room : Bool) :
    Except HeapError (Heap × ℕ × ℕ) :=
  match malloc base fuel h nbytes (sbrk brk (coreBytes nbytes) room).1 with
  | .error e => .error e
  | .ok (h', q) =>
    .ok (h', q, if h'.got = h.got then brk else (sbrk brk (coreBytes nbytes) room).2)

/-- The memory behind a pointer other than 0 is heap memory below the break, and so are the blocks
that were live before. -/
def OwnsResult (h : Heap) (L : Finset ℕ) (nbytes : ℕ) (h' : Heap) (q brk : ℕ) : Prop :=
  q ≠ 0 → (∀ x, q ≤ x → x < q + nbytes →
    (∃ r ∈ h'.got, r.1 ≤ x ∧ x < r.1 + HSIZE * r.2) ∧ x < brk) ∧ ∀ c ∈ L, h.fin c ≤ brk

/-- A block on the list will do, or the byte count is an `int`, or `sbrk` fails. -/
def Serves (h : Heap) (F : Finset ℕ) (nbytes : ℕ) (room : Bool) : Prop :=
  (∃ z ∈ F, nunits nbytes ≤ h.size z) ∨ HSIZE * coreUnits (nunits nbytes) < 2 ^ 31 ∨
    0 ≤ coreBytes nbytes ∧ room = false

variable {base n nbytes brk p x y : ℕ} {h h1 : Heap} {F F1 L : Finset ℕ} {room : Bool}

lemma Inv.fin_not_free {a c : ℕ} (hi : Inv base h F L) (hap : Apart base h F) (ha : a ∈ F)
    (hab : a ≠ base) (hc : c ∈ F) (hcb : c ≠ base) (hle : c ≤ h.fin a) : ¬ h.fin a < h.fin c := by
  intro hlt
  rcases lt_trichotomy a c with hac | rfl | hca
  · have hsep := hi.sep a c (.inl ⟨ha, hab⟩) (.inl ⟨hc, hcb⟩) hac
    obtain rfl : c = h.fin a := by omega
    exact hap a ha hab hc
  · omega
  · have hsep := hi.sep c a (.inl ⟨hc, hcb⟩) (.inl ⟨ha, hab⟩) hca
    have hfin := hi.lt_fin (.inl ⟨ha, hab⟩)
    omega

/-- A stretch of heap memory without a live block lies in one free block. -/
lemma Inv.span (hi : Inv base h F L) (hap : Apart base h F) (hxy : x < y)
    (hfree : ∀ z, x ≤ z → z < y → ∃ a ∈ F, a ≠ base ∧ a ≤ z ∧ z < h.fin a) :
    ∃ a ∈ F, a ≠ base ∧ a ≤ x ∧ y ≤ h.fin a := by
  obtain ⟨a, ha, hab, hax, hxa⟩ := hfree x le_rfl hxy
  refine ⟨a, ha, hab, hax, ?_⟩
  by_contra hlt
  -- the block that has the first byte behind `a` would touch it
  obtain ⟨c, hc, hcb, hcz, hzc⟩ := hfree (h.fin a) (by omega) (by omega)
  exact hi.fin_not_free hap ha hab hc hcb hcz hzc

/-- The block that the loop finds after `morecore` ends where the new region ends. -/
lemma fin_eq_top (hi : Inv base h F L) (hap : Apart base h F) (hno : ∀ z ∈ F, h.size z < n)
    (hn : 0 < n) (htop : h.top ≤ brk) (hi1 : Inv base h1 F1 L) (hap1 : Apart base h1 F1)
    (hgot : h1.got = (brk, coreUnits n) :: h.got) (htop1 : h1.top = brk + HSIZE * coreUnits n)
    (hlive : ∀ c ∈ L, h1.size c = h.size c) (hp : p ∈ F1) (hfit : n ≤ h1.size p) :
    h1.fin p = h1.top := by
  have hpb : p ≠ base := by
    rintro rfl
    rw [hi1.base_size] at hfit
    omega
  have hblock : Block base F1 L p := .inl ⟨hp, hpb⟩
  have hlt : p < h1.fin p := (Nat.lt_add_of_pos_right (by decide)).trans_le (hi1.lt_fin hblock)
  have hold : brk < h1.fin p := by
    by_contra hle
    -- all of it would have been free before, in one block
    obtain ⟨a, ha, hab, hap', hfin⟩ := hi.span hap hlt fun z hz1 hz2 => by
      have hcov := (hi1.cover z).mpr ⟨p, hblock, hz1, hz2⟩
      rw [hgot] at hcov
      obtain ⟨r, hr, hrz⟩ := hcov
      rcases List.mem_cons.mp hr with rfl | hr
      · omega
      obtain ⟨a, ha | ha, haz⟩ := (hi.cover z).mp ⟨r, hr, hrz⟩
      · exact ⟨a, ha.1, ha.2, haz⟩
      · have hfa : h1.fin a = h.fin a := by rw [fin, fin, hlive a ha]
        have hne : a ≠ p := fun he => hi1.disj a ha (he ▸ hp)
        rcases lt_or_gt_of_ne hne with hlt | hlt
        · have := hi1.sep a p (.inr ha) hblock hlt
          omega
        · have := hi1.sep p a hblock (.inr ha) hlt
          omega
    have := hno a ha
    simp only [fin, HSIZE] at hfin hap' hfit
    omega
  by_contra hne
  have hle := hi1.hi p hblock
  obtain ⟨c, hc, hcz, hzc⟩ := (hi1.cover (h1.fin p)).mp
    ⟨(brk, coreUnits n), by simp [hgot], by simp only; omega, by simp only; omega⟩
  rcases hc with ⟨hc, hcb⟩ | hc
  · exact hi1.fin_not_free hap1 hp hpb hc hcb hcz hzc
  · have hfc : h1.fin c = h.fin c := by rw [fin, fin, hlive c hc]
    have := hi.hi c (.inr hc)
    omega

lemma take_end_eq (hfit : n ≤ h.size p) (prevp : ℕ) :
    ∃ b, (take h n prevp p).2 = b + HSIZE ∧ b + HSIZE * n = h.fin p ∧
      (take h n prevp p).1.got = h.got ∧ (take h n prevp p).1.top = h.top := by
  rw [take]
  split_ifs with heq
  · exact ⟨p, rfl, by rw [fin, heq], rfl, rfl⟩
  · exact ⟨_, rfl, by simp only [fin, HSIZE]; omega, rfl, rfl⟩

/-- A block taken from a heap whose memory lies below the break is owned. -/
lemma owns_of_take {prevp : ℕ} (hi : Inv base h1 F1 L) (hap : Apart base h1 F1) (hp : p ∈ F1)
    (hprev : prevp ∈ F1) (hnp : h1.next prevp = p) (hfit : nunits nbytes ≤ h1.size p)
    (hlive : ∀ c ∈ L, h1.size c = h.size c) (htop : h1.top ≤ brk) :
    OwnsResult h L nbytes (take h1 (nunits nbytes) prevp p).1 (take h1 (nunits nbytes) prevp p).2
      brk := by
  have hn : 0 < nunits nbytes := Nat.succ_pos _
  obtain ⟨b, hb, htaken⟩ := take_spec hi hap hp hprev hnp hn hfit
  obtain ⟨-, -, -, hgot, htop'⟩ := take_end_eq hfit prevp
  obtain ⟨F', hi', -⟩ := htaken.inv
  have hbl : Block base F' (insert b L) b := .inr (Finset.mem_insert_self b L)
  have hfin : b + HSIZE + nbytes ≤ fin (take h1 (nunits nbytes) prevp p).1 b := by
    rw [fin, htaken.size, nunits]
    simp only [HSIZE]
    omega
  have hle := hi'.hi b hbl
  refine fun _ => ⟨fun x hx1 hx2 => ⟨(hi'.cover x).mpr ⟨b, hbl, ?_, ?_⟩, ?_⟩, fun c hc => ?_⟩
  · omega
  · omega
  · omega
  · have hfc : h1.fin c = h.fin c := by rw [fin, fin, hlive c hc]
    have := hi.hi c (.inr hc)
    omega

lemma start_got (base : ℕ) (h : Heap) :
    (start base h).got = h.got ∧ (start base h).top = h.top := by
  rw [start]
  split_ifs <;> exact ⟨rfl, rfl⟩

lemma mallocBrk_eq {fuel : ℕ} {r : Heap × ℕ}
    (hrun : mallocLoop (nunits nbytes) fuel (some (sbrk brk (coreBytes nbytes) room).1)
      (start base h) (start base h).freep ((start base h).next (start base h).freep) = .ok r) :
    mallocBrk base fuel h brk nbytes room = .ok (r.1, r.2,
      if r.1.got = h.got then brk else (sbrk brk (coreBytes nbytes) room).2) := by
  have hm : malloc base fuel h nbytes (sbrk brk (coreBytes nbytes) room).1 = .ok r := hrun
  rw [mallocBrk, hm]

lemma sbrk_cases (brk : ℕ) (n : ℤ) (room : Bool) :
    0 ≤ n ∧ room = false ∧ (sbrk brk n room).1 = none ∨
      ¬ (0 ≤ n ∧ room = false) ∧ (sbrk brk n room).1 = some brk ∧
        (sbrk brk n room).2 ≤ brk + n.toNat ∧ (0 ≤ n → (sbrk brk n room).2 = brk + n.toNat) := by
  rw [sbrk]
  split_ifs with h0 hroom
  · exact .inr ⟨by simp [hroom], rfl, le_rfl, fun _ => rfl⟩
  · exact .inl ⟨h0, by simpa using hroom, rfl⟩
  · exact .inr ⟨fun h => h0 h.1, rfl, by simp only; omega, fun h => absurd h h0⟩
  · exact .inr ⟨fun h => h0 h.1, rfl, by simp only; omega, fun h => absurd h h0⟩

/-- **`malloc` returns memory of the process just when its byte count is an `int`.**  In every heap,
for every request: `malloc` returns, and what it returns is owned if and only if a block on the list
will do, or `morecore` asks for less than 2 GiB, or `sbrk` fails. -/
theorem malloc_owned_iff (hi : Inv base (start base h) F L) (hap : Apart base (start base h) F)
    (htop : h.top ≤ brk) (hlim : brk + HSIZE * coreUnits (nunits nbytes) ≤ 2 ^ 36)
    (hnb : nbytes < 2 ^ 32) (room : Bool) :
    ∃ fuel h' q brk', mallocBrk base fuel h brk nbytes room = .ok (h', q, brk') ∧
      (OwnsResult (start base h) L nbytes h' q brk' ↔ Serves (start base h) F nbytes room) := by
  obtain ⟨hgot, htop0⟩ := start_got base h
  rw [← htop0] at htop
  by_cases hz : ∃ z ∈ F, nunits nbytes ≤ (start base h).size z
  · obtain ⟨z, hzF, hsize⟩ := hz
    obtain ⟨fuel, prevp, p, hp, hprev, hnp, hfit, hrun⟩ := mallocLoop_found
      (some (sbrk brk (coreBytes nbytes) room).1) hi (hi.cycle.mem hi.freep) hi.freep rfl
      ⟨z, hzF, hi.cycle.onWay_around hi.freep hzF, hsize⟩
    obtain ⟨-, -, -, hg, -⟩ := take_end_eq hfit prevp
    refine ⟨fuel, _, _, _, mallocBrk_eq hrun, iff_of_true ?_ (.inl ⟨z, hzF, hsize⟩)⟩
    rw [if_pos (hg.trans hgot)]
    exact owns_of_take hi hap hp hprev hnp hfit (fun _ _ => rfl) htop
  have hno : ∀ z ∈ F, (start base h).size z < nunits nbytes :=
    fun z hz' => not_le.mp fun hle => hz ⟨z, hz', hle⟩
  rcases sbrk_cases brk (coreBytes nbytes) room with ⟨h0, hroom, hnone⟩ | ⟨hnr, hsome, hle, hgrow⟩
  · obtain ⟨k, hk⟩ := mallocLoop_more hi hno
    refine ⟨0 + 1 + k, _, _, _, mallocBrk_eq (r := (start base h, 0)) ?_,
      iff_of_true (fun h => absurd rfl h) (.inr (.inr ⟨h0, hroom⟩))⟩
    rw [hnone, hk]
    rfl
  obtain ⟨fuel, h1, F1, prevp, p, hi₁, hap₁, hgot1, htop₁, hlive, hp, hprev, hnp, hfit, hrun⟩ :=
    mallocLoop_core hi hap hno htop hlim
  rw [← hsome] at hrun
  obtain ⟨b, hb, hend, hg, ht⟩ := take_end_eq hfit prevp
  have hgrown : (take h1 (nunits nbytes) prevp p).1.got ≠ h.got := by
    rw [hg, hgot1, hgot]
    exact List.cons_ne_self _ _
  refine ⟨fuel, _, _, _, mallocBrk_eq hrun, ?_⟩
  rw [if_neg hgrown]
  by_cases hint : HSIZE * coreUnits (nunits nbytes) < 2 ^ 31
  · have hbytes : coreBytes nbytes = (HSIZE * coreUnits (nunits nbytes) : ℕ) := by
      rw [coreBytes, Nat.mod_eq_of_lt (by omega), toInt32_of_lt hint]
    have hbrk := hgrow (by omega)
    refine iff_of_true (owns_of_take hi₁ hap₁ hp hprev hnp hfit hlive ?_) (.inr (.inl hint))
    omega
  · -- the header says more than `sbrk` has been asked for
    refine iff_of_false (fun howns => ?_) ?_
    · have hfin := fin_eq_top hi hap hno (Nat.succ_pos _) htop hi₁ hap₁ hgot1 htop₁ hlive hp hfit
      have hcore : coreUnits (nunits nbytes) = nunits nbytes := by
        rw [coreUnits, if_neg]
        intro hlt
        rw [coreUnits, if_pos hlt] at hint
        exact hint (by decide)
      have hunits : nunits nbytes = (nbytes + 15) / 16 + 1 := rfl
      have hq : (take h1 (nunits nbytes) prevp p).2 = brk + HSIZE := by
        rw [hb]
        rw [hcore] at htop₁
        omega
      rw [hcore] at hint
      simp only [HSIZE] at hint hq
      have hbytes : coreBytes nbytes ≤ 16 := by
        rw [coreBytes, hcore, toInt32]
        simp only [HSIZE]
        split_ifs <;> omega
      have hx := ((howns (by omega)).1 (brk + 15 + nbytes) (by omega) (by omega)).2
      omega
    · rintro (h' | h' | h')
      · exact hz h'
      · exact hint h'
      · exact hnr h'

/-- A request of 2^32 - 1 bytes, which `morecore` passes on as 16: the pointer is the new break
itself. -/
theorem malloc_returns_break :
    ∃ h', mallocBrk 4096 9 MallocSys.empty.heap 8192 (2 ^ 32 - 1) true = .ok (h', 8208, 8208) ∧
      ¬ OwnsResult MallocSys.empty.heap ∅ (2 ^ 32 - 1) h' 8208 8208 := by
  refine ⟨_, rfl, fun howns => ?_⟩
  exact absurd ((howns (by decide)).1 8208 le_rfl (by decide)).2 (lt_irrefl _)

/-- A request of 100 bytes is served. -/
theorem malloc_owned_small : ∃ fuel h' q brk',
    mallocBrk 4096 fuel MallocSys.empty.heap 8192 100 true = .ok (h', q, brk') ∧
      OwnsResult (start 4096 MallocSys.empty.heap) ∅ 100 h' q brk' := by
  obtain ⟨hi, hap⟩ := MallocSys.start_inv MallocSys.empty_init
  obtain ⟨fuel, h', q, brk', hrun, howns⟩ := malloc_owned_iff hi hap
    (show _ ≤ 8192 by decide) (by decide) (show 100 < _ by decide) true
  exact ⟨fuel, h', q, brk', hrun, howns.mpr (.inr (.inl (by decide)))⟩

end Xv6.Umalloc
