import Xv6.Dev.Virtio

/-!
# Descriptors and requests in flight

The invariant of the disk driver, on the level of the monitor.

* `Owned`: a descriptor that is not free belongs to exactly one thread, which has allocated it and
  not yet freed it. What a thread owns can be read off its control point.
* `Flight`: the heads of the chains between `avail->idx` being advanced and `disk.used_idx` being
  advanced, in the four places where they can be: in the avail ring, taken by the device, written by
  the device, in the used ring. They are distinct, and each is the head of the chain of a thread
  that waits for it. That they are distinct bounds their number by `NUM`, so neither ring overflows,
  whatever the 16-bit counters are.
* `Knows`: what the threads know of the descriptors and of `served` at each point. A thread that
  finds `b->disk` clear finds its own request, and only it, in `served`.

While `virtio_disk_intr` is between `b->disk = 0` and `disk.used_idx += 1`, the head it has just
handled is still in the used ring; it is the `lag` of the thread that holds the lock.
-/

namespace Xv6

open Function List Option
open List (mem_range nodup_cons mem_cons mem_append nodup_append' append_assoc perm_middle
  mem_append_right nil_append)

namespace VirtioLoc

variable {B : Type}

/-- The descriptors that a thread has allocated and not freed. -/
def own : VirtioLoc B → List ℕ
  | .alloc _ got => got
  | .unalloc _ todo | .unallocWake _ todo => todo
  | .format ch | .post ch | .bump ch | .wait ch | .await ch | .finish ch => [ch.i0, ch.i1, ch.i2]
  | .free _ _ own | .freeWake _ _ own => own
  | _ => []

/-- The buffer of the call that a thread is in. -/
def buf? : VirtioLoc B → Option B
  | .alloc c _ | .unalloc c _ | .unallocWake c _ | .free c _ _ | .freeWake c _ _ |
    .done c => some c.b
  | .format ch | .post ch | .bump ch | .wait ch | .await ch | .finish ch => some ch.call.b
  | _ => none

/-- The chain that a thread has posted and waits for. -/
def posted? : VirtioLoc B → Option (DiskChain B)
  | .wait ch | .await ch => some ch
  | _ => none

/-- The head that `virtio_disk_intr` has handled and not yet counted. -/
def lag : VirtioLoc B → List ℕ
  | .intrWake _ id | .intrNext id => [id]
  | _ => []

lemma own_posted {l : VirtioLoc B} {ch : DiskChain B} (h : l.posted? = some ch) :
    l.own = [ch.i0, ch.i1, ch.i2] ∧ l.buf? = some ch.call.b := by
  cases l <;> simp_all [posted?, own, buf?]

end VirtioLoc

namespace VirtioDisk

section data

variable {ι B : Type} [DecidableEq ι] [DecidableEq B]

/-- The heads in the avail ring that the device has not taken. -/
def availQ (d : VirtioDisk ι B) : List ℕ :=
  Ring.contents NUM IDX d.avail.ring d.dev.seen d.avail.idx

/-- The heads in the used ring that `virtio_disk_intr` has not counted. -/
def usedQ (d : VirtioDisk ι B) : List ℕ :=
  Ring.contents NUM IDX d.used.ring d.usedIdx d.used.idx

/-- The number of free descriptors. -/
def freeCount (d : VirtioDisk ι B) : ℕ := ((Finset.range NUM).filter fun k => d.free k = true).card

/-- The descriptors of a chain as `virtio_disk_rw` has set them up. -/
structure Formatted (d : VirtioDisk ι B) (ch : DiskChain B) : Prop where
  desc0 : d.desc ch.i0 = ⟨.ops ch.i0, 16, true, false, ch.i1⟩
  desc1 : d.desc ch.i1 = ⟨.data ch.call.b, 1024, true, !ch.call.write, ch.i2⟩
  desc2 : d.desc ch.i2 = ⟨.status ch.i0, 1, false, true, 0⟩
  ops : d.ops ch.i0 = ⟨ch.call.write, ch.call.sector⟩
  info : (d.info ch.i0).b = some ch.call.b

/-- The descriptors of the list are linked in this order. -/
def Links (d : VirtioDisk ι B) : List ℕ → Prop
  | [] => True
  | [k] => (d.desc k).flagNext = false
  | k :: k' :: rest => (d.desc k).flagNext = true ∧ (d.desc k).next = k' ∧ d.Links (k' :: rest)

/-- What a thread knows of the data. -/
def Knows (d : VirtioDisk ι B) : VirtioLoc B → Prop
  | .alloc c got => d.served c.b = [] ∧ got.length ≤ 2
  | .unalloc c todo | .unallocWake c todo => d.served c.b = [] ∧ d.freeCount + todo.length < 3
  | .format ch => d.served ch.call.b = []
  | .post ch => d.served ch.call.b = [] ∧ d.Formatted ch ∧ d.bdisk ch.call.b = true
  | .bump ch => d.served ch.call.b = [] ∧ d.Formatted ch ∧ d.bdisk ch.call.b = true ∧
      d.avail.ring (d.avail.idx % NUM) = ch.i0
  | .wait ch => d.Formatted ch ∧ (d.bdisk ch.call.b = false → d.served ch.call.b = [ch.call])
  | .await ch => d.Formatted ch ∧ d.bdisk ch.call.b = true
  | .finish ch => d.Formatted ch ∧ d.served ch.call.b = [ch.call]
  | .free c k own => d.served c.b = [c] ∧ own.head? = some k ∧ d.Links own
  | .freeWake c nxt own => d.served c.b = [c] ∧ own.head? = nxt ∧ d.Links own
  | .done c => d.served c.b = [c]
  | .intrWake b _ => d.bdisk b = false
  | _ => True

/-- The indices are 16 bits wide. -/
structure Bounds (d : VirtioDisk ι B) : Prop where
  seen : d.dev.seen < IDX
  avail : d.avail.idx < IDX
  usedIdx : d.usedIdx < IDX
  used : d.used.idx < IDX

/-- The lock of `b` is held by `i` for the time of its call. -/
def InCall (d : VirtioDisk ι B) (i : ι) (b : B) : Prop := d.inCall b = true ∧ d.owner b = some i

variable {d d' : VirtioDisk ι B} {k : ℕ}

lemma allocDesc_some (h : d.allocDesc = some k) : k < NUM ∧ d.free k = true :=
  ⟨mem_range.mp (mem_of_find?_eq_some h), find?_some h⟩

lemma freeCount_of_none (h : d.allocDesc = none) : d.freeCount = 0 := by
  rw [allocDesc, find?_eq_none] at h
  rw [freeCount, Finset.card_eq_zero, Finset.filter_eq_empty_iff]
  exact fun k hk => h k (mem_range.mpr (Finset.mem_range.mp hk))

lemma freeCount_freed (hk : k < NUM) (hf : d.free k = false) :
    (d.freed k).freeCount = d.freeCount + 1 := by
  have heq : (Finset.range NUM).filter (fun j => (d.freed k).free j = true) =
      insert k ((Finset.range NUM).filter fun j => d.free j = true) := by
    ext j
    rw [Finset.mem_filter, Finset.mem_insert, Finset.mem_filter, Finset.mem_range]
    by_cases hj : j = k
    · subst hj
      simp [freed, hk]
    · simp [freed, hj]
  rw [freeCount, heq, Finset.card_insert_of_notMem (by simp [hf]), freeCount]

lemma freeCount_le (hfree : d'.free = update d.free k false) : d'.freeCount ≤ d.freeCount := by
  refine Finset.card_le_card fun j hj => ?_
  rw [Finset.mem_filter] at hj ⊢
  refine ⟨hj.1, ?_⟩
  rw [hfree] at hj
  by_cases hjk : j = k
  · simp [hjk] at hj
  · simpa [hjk] using hj.2

lemma Links.congr {o : List ℕ} (h : d.Links o) (hk : ∀ k ∈ o, d'.desc k = d.desc k) :
    d'.Links o := by
  induction o with
  | nil => trivial
  | cons k rest ih =>
    cases rest with
    | nil =>
      show (d'.desc k).flagNext = false
      rw [hk k (by simp)]
      exact h
    | cons k' rest =>
      obtain ⟨h1, h2, h3⟩ := h
      refine ⟨?_, ?_, ih h3 fun j hj => hk j (by simp [hj])⟩
      · rw [hk k (by simp), h1]
      · rw [hk k (by simp), h2]

lemma Links.next {rest : List ℕ} (h : d.Links (k :: rest)) :
    (if (d.desc k).flagNext then some (d.desc k).next else none) = rest.head? ∧ d.Links rest := by
  cases rest with
  | nil =>
    have h' : (d.desc k).flagNext = false := h
    simp [h', Links]
  | cons k' rest =>
    obtain ⟨h1, h2, h3⟩ := h
    simp [h1, h2, h3]

lemma Formatted.congr {ch : DiskChain B} (h : d.Formatted ch)
    (hdesc : ∀ k ∈ [ch.i0, ch.i1, ch.i2], d'.desc k = d.desc k) (hops : d'.ops ch.i0 = d.ops ch.i0)
    (hinfo : (d'.info ch.i0).b = (d.info ch.i0).b) : d'.Formatted ch where
  desc0 := by rw [hdesc _ (by simp), h.desc0]
  desc1 := by rw [hdesc _ (by simp), h.desc1]
  desc2 := by rw [hdesc _ (by simp), h.desc2]
  ops := by rw [hops, h.ops]
  info := by rw [hinfo, h.info]

lemma formatted_format {ch : DiskChain B} (hn : [ch.i0, ch.i1, ch.i2].Nodup) :
    (d.format ch).Formatted ch := by
  simp only [nodup_cons, mem_cons, not_mem_nil, or_false, not_or] at hn
  obtain ⟨⟨h01, h02⟩, h12, -⟩ := hn
  constructor <;> simp [format, h01, h02, h12]

lemma Formatted.links {ch : DiskChain B} (h : d.Formatted ch) : d.Links [ch.i0, ch.i1, ch.i2] := by
  refine ⟨?_, ?_, ?_, ?_, ?_⟩
  · rw [h.desc0]
  · rw [h.desc0]
  · rw [h.desc1]
  · rw [h.desc1]
  · show (d.desc ch.i2).flagNext = false
    rw [h.desc2]

/-- `d'` differs from `d` only at the descriptors in `o` and the buffer `u`. -/
structure Keeps (d d' : VirtioDisk ι B) (o : List ℕ) (u : Option B) : Prop where
  desc : ∀ k, k ∉ o → d'.desc k = d.desc k ∧ d'.ops k = d.ops k ∧ d'.info k = d.info k
  buf : ∀ b, some b ≠ u → d'.bdisk b = d.bdisk b ∧ d'.served b = d.served b ∧
    d'.inCall b = d.inCall b ∧ d'.owner b = d.owner b

end data

/-! ## The invariant -/

variable {ι B : Type} [DecidableEq ι] [DecidableEq B]

/-- The states of the monitor. -/
abbrev VMon (ι B : Type) := Mon ι (VirtioLoc B) (VirtioDisk ι B)

/-- The control point of a thread. -/
def pt (m : VMon ι B) (i : ι) : VirtioLoc B := (m.loc i).point

/-- The lag of the thread that holds the lock. -/
def lag (m : VMon ι B) : List ℕ :=
  match m.lk with
  | none => []
  | some i => (pt m i).lag

/-- Every descriptor that is not free has one owner. -/
structure Owned (m : VMon ι B) : Prop where
  nodup : ∀ i, (pt m i).own.Nodup
  disjoint : ∀ i j k, k ∈ (pt m i).own → k ∈ (pt m j).own → i = j
  held : ∀ i k, k ∈ (pt m i).own → k < NUM ∧ m.data.free k = false
  cover : ∀ k, k < NUM → m.data.free k = false → ∃ i, k ∈ (pt m i).own

/-- Thread `i` waits for a chain with head `h`. -/
def Awaits (m : VMon ι B) (h : ℕ) (P : DiskChain B → Prop) : Prop :=
  ∃ i ch, (pt m i).posted? = some ch ∧ ch.i0 = h ∧ P ch

/-- The heads in the avail ring and in the device, and those after them. -/
abbrev queued (d : VirtioDisk ι B) (late : List ℕ) : List ℕ :=
  d.availQ ++ d.dev.taken ++ (d.dev.writing.toList ++ late)

/-- The heads in flight; `late` are those in the used ring that have not been handled. -/
structure Flight (m : VMon ι B) (late : List ℕ) : Prop where
  used : m.data.usedQ = lag m ++ late
  nodup : (lag m ++ m.data.queued late).Nodup
  posted : ∀ h ∈ m.data.availQ ++ m.data.dev.taken,
    Awaits m h fun ch => m.data.bdisk ch.call.b = true ∧ m.data.served ch.call.b = []
  completed : ∀ h ∈ m.data.dev.writing.toList ++ late,
    Awaits m h fun ch => m.data.bdisk ch.call.b = true ∧ m.data.served ch.call.b = [ch.call] ∧
      (m.data.info h).status = 0
  handled : ∀ h ∈ lag m, Awaits m h fun ch => m.data.bdisk ch.call.b = false

/-- The invariant of driver and device. -/
structure Inv (m : VMon ι B) : Prop where
  bounds : m.data.Bounds
  owned : Owned m
  waiting : ∀ i l, m.loc i = .waiting l → (∃ c, l = .alloc c []) ∨ ∃ ch, l = .wait ch
  inCall : ∀ i b, (pt m i).buf? = some b → m.data.InCall i b
  knows : ∀ i, m.data.Knows (pt m i)
  slot : ∀ h, m.data.dev.writing = some h → m.data.used.ring (m.data.used.idx % NUM) = h
  flight : ∃ late, Flight m late

variable {m m' : VMon ι B} {i j : ι} {l l' : VirtioLoc B} {d' : VirtioDisk ι B} {h k : ℕ} {b : B}

lemma Inv.buf_unique (hi : Inv m) (h1 : (pt m i).buf? = some b)
    (h2 : (pt m j).buf? = some b) : i = j :=
  some.inj ((hi.inCall i b h1).2.symm.trans (hi.inCall j b h2).2)

lemma Awaits.own {P : DiskChain B → Prop} (ha : Awaits m h P) : ∃ i, h ∈ (pt m i).own := by
  obtain ⟨i, ch, hp, rfl, -⟩ := ha
  exact ⟨i, by rw [(VirtioLoc.own_posted hp).1]; simp⟩

variable {late : List ℕ} {c' : MLoc (VirtioLoc B)} {killed' : ι → Bool} {lk' : Option ι}
  {ch : DiskChain B} {d : VirtioDisk ι B} {u : Option B}

lemma Flight.awaits (hf : Flight m late) (hh : h ∈ lag m ++ m.data.queued late) :
    Awaits m h fun _ => True := by
  rw [mem_append, mem_append] at hh
  rcases hh with hh | hh | hh
  · obtain ⟨i, ch, hp, he, -⟩ := hf.handled h hh
    exact ⟨i, ch, hp, he, trivial⟩
  · obtain ⟨i, ch, hp, he, -⟩ := hf.posted h hh
    exact ⟨i, ch, hp, he, trivial⟩
  · obtain ⟨i, ch, hp, he, -⟩ := hf.completed h hh
    exact ⟨i, ch, hp, he, trivial⟩

lemma Inv.length_lt (hi : Inv m) {q : List ℕ} (hf : Flight m late)
    (hsub : ∀ x ∈ q, x ∈ lag m ++ m.data.queued late) (hq : (h :: q).Nodup) (hh : h < NUM) :
    q.length < NUM := by
  have hlt : ∀ x ∈ h :: q, x < NUM := by
    intro x hx
    rcases mem_cons.mp hx with rfl | hx
    · exact hh
    · obtain ⟨i, hown⟩ := (hf.awaits (hsub x hx)).own
      exact (hi.owned.held i x hown).1
  have hle : (h :: q).length ≤ (range NUM).length :=
    (subperm_of_subset hq fun x hx => mem_range.mpr (hlt x hx)).length_le
  rw [length_range, length_cons] at hle
  exact hle

/-- The avail ring has room for a head that is not in flight. -/
lemma Inv.avail_room (hi : Inv m) (hh : h < NUM)
    (hnew : ∀ late, Flight m late → h ∉ m.data.availQ) :
    Ring.used IDX m.data.dev.seen m.data.avail.idx < NUM := by
  obtain ⟨late, hf⟩ := hi.flight
  have hn := hf.nodup
  rw [nodup_append', nodup_append', nodup_append'] at hn
  have := hi.length_lt hf (fun x hx => by simp [hx]) (nodup_cons.mpr ⟨hnew late hf, hn.2.1.1.1⟩) hh
  rwa [availQ, Ring.length_contents] at this

/-! ## Steps of a thread -/

lemma Awaits.mono {P Q : DiskChain B → Prop} (ha : Awaits m h P)
    (hp : ∀ i ch, (pt m i).posted? = some ch → ch.i0 = h → P ch →
      (pt m' i).posted? = some ch ∧ Q ch) : Awaits m' h Q := by
  obtain ⟨i, ch, h1, h2, h3⟩ := ha
  obtain ⟨h4, h5⟩ := hp i ch h1 h2 h3
  exact ⟨i, ch, h4, h2, h5⟩

/-- A step that leaves the rings and the device alone, and the chains that are still awaited. -/
lemma Flight.keep (hf : Flight m late) (hlag : lag m' = lag m)
    (hq : m'.data.availQ = m.data.availQ) (hdev : m'.data.dev = m.data.dev)
    (hused : m'.data.usedQ = m.data.usedQ)
    (hp : ∀ j ch, (pt m j).posted? = some ch → m.data.bdisk ch.call.b = true ∨ lag m ≠ [] →
      (pt m' j).posted? = some ch ∧ m'.data.bdisk ch.call.b = m.data.bdisk ch.call.b ∧
      m'.data.served ch.call.b = m.data.served ch.call.b ∧
      (m'.data.info ch.i0).status = (m.data.info ch.i0).status) : Flight m' late where
  used := by rw [hused, hlag, hf.used]
  nodup := by
    rw [hlag, queued, hq, hdev]
    exact hf.nodup
  posted h hh := by
    rw [hq, hdev] at hh
    refine (hf.posted h hh).mono fun j ch hj _ hP => ?_
    obtain ⟨h1, h2, h3, -⟩ := hp j ch hj (.inl hP.1)
    exact ⟨h1, h2.trans hP.1, h3.trans hP.2⟩
  completed h hh := by
    rw [hdev] at hh
    refine (hf.completed h hh).mono fun j ch hj hh hP => ?_
    obtain ⟨h1, h2, h3, h4⟩ := hp j ch hj (.inl hP.1)
    exact ⟨h1, h2.trans hP.1, h3.trans hP.2.1, by rw [← hh, h4, hh, hP.2.2]⟩
  handled h hh := by
    rw [hlag] at hh
    refine (hf.handled h hh).mono fun j ch hj _ hP => ?_
    obtain ⟨h1, h2, -⟩ := hp j ch hj (.inr (ne_nil_of_mem hh))
    exact ⟨h1, h2.trans hP⟩

lemma pt_update : pt (⟨lk', update m.loc i c', killed', d'⟩ : VMon ι B) j =
      if j = i then c'.point else pt m j := by
  simp only [pt]
  split_ifs with hj
  · rw [hj, update_self]
  · rw [update_of_ne hj]

lemma Inv.moved (hi : Inv m) (hm : m' = ⟨lk', update m.loc i c', killed', d'⟩) (hbounds : d'.Bounds)
    (howned : Owned m') (hwait : ∀ l, c' = .waiting l → (∃ c, l = .alloc c []) ∨ ∃ ch, l = .wait ch)
    (hothers : ∀ j, j ≠ i → d'.Knows (pt m j) ∧ ∀ b, (pt m j).buf? = some b → d'.InCall j b)
    (hknow : d'.Knows c'.point) (hcall : ∀ b, c'.point.buf? = some b → d'.InCall i b)
    (hslot : ∀ h, d'.dev.writing = some h → d'.used.ring (d'.used.idx % NUM) = h)
    (hflight : ∃ late, Flight m' late) : Inv m' := by
  subst hm
  refine ⟨hbounds, howned, fun j l hj => ?_, fun j b hj => ?_, fun j => ?_, hslot, hflight⟩
  · by_cases hji : j = i
    · subst hji
      exact hwait l (by simpa using hj)
    · exact hi.waiting j l (by simpa [hji] using hj)
  · rw [pt_update] at hj
    split_ifs at hj with hji
    · rw [hji]
      exact hcall b hj
    · exact (hothers j hji).2 b hj
  · rw [pt_update]
    split_ifs with hji
    · exact hknow
    · exact (hothers j hji).1

section

variable (ho : Owned m) (hm : m' = ⟨lk', update m.loc i c', killed', d'⟩)
include ho hm

lemma Owned.same (hown : c'.point.own = (pt m i).own)
    (hfree : d'.free = m.data.free) : Owned m' := by
  have hpt : ∀ j, (pt m' j).own = (pt m j).own := by
    intro j
    rw [hm, pt_update]
    split_ifs with hj
    · rw [hj, hown]
    · rfl
  have hf : m'.data.free = m.data.free := by rw [hm]; exact hfree
  refine ⟨fun j => ?_, fun j j' k => ?_, fun j k => ?_, fun k => ?_⟩
  · rw [hpt]; exact ho.nodup j
  · rw [hpt, hpt]; exact ho.disjoint j j' k
  · rw [hpt, hf]; exact ho.held j k
  · simp only [hpt, hf]
    exact ho.cover k

lemma Owned.grow (hown : c'.point.own = (pt m i).own ++ [k]) (hk : k < NUM)
    (hfk : m.data.free k = true) (hfree : d'.free = update m.data.free k false) : Owned m' := by
  have hpt : ∀ j, (pt m' j).own = if j = i then (pt m i).own ++ [k] else (pt m j).own := by
    intro j
    rw [hm, pt_update]
    split_ifs with hj
    · exact hown
    · rfl
  have hf : m'.data.free = update m.data.free k false := by rw [hm]; exact hfree
  have hnot : ∀ j, k ∉ (pt m j).own := by
    intro j hj
    rw [(ho.held j k hj).2] at hfk
    cases hfk
  have hmem : ∀ j k', k' ∈ (pt m' j).own ↔ k' ∈ (pt m j).own ∨ j = i ∧ k' = k := by
    intro j k'
    rw [hpt]
    split_ifs with hj
    · simp [hj]
    · simp [hj]
  refine ⟨fun j => ?_, fun j j' k' h1 h2 => ?_, fun j k' h1 => ?_, fun k' h1 h2 => ?_⟩
  · rw [hpt]
    split_ifs with hj
    · exact (ho.nodup i).append (nodup_singleton k) (by simpa using hnot i)
    · exact ho.nodup j
  · rw [hmem] at h1 h2
    rcases h1 with h1 | ⟨rfl, rfl⟩ <;> rcases h2 with h2 | ⟨rfl, h2⟩
    · exact ho.disjoint j j' k' h1 h2
    · exact absurd (h2 ▸ h1) (hnot j)
    · exact absurd h2 (hnot j')
    · rfl
  · rw [hmem] at h1
    rw [hf]
    rcases h1 with h1 | ⟨-, rfl⟩
    · have hne : k' ≠ k := fun he => hnot j (he ▸ h1)
      rw [update_of_ne hne]
      exact ho.held j k' h1
    · simp [hk]
  · simp only [hmem]
    by_cases hkk : k' = k
    · exact ⟨i, .inr ⟨rfl, hkk⟩⟩
    · rw [hf, update_of_ne hkk] at h2
      obtain ⟨j, hj⟩ := ho.cover k' h1 h2
      exact ⟨j, .inl hj⟩

lemma Owned.shrink (hown : (pt m i).own = k :: c'.point.own)
    (hfree : d'.free = update m.data.free k true) : Owned m' := by
  have hpt : ∀ j, (pt m' j).own = if j = i then c'.point.own else (pt m j).own := by
    intro j
    rw [hm, pt_update]
    split_ifs <;> rfl
  have hf : m'.data.free = update m.data.free k true := by rw [hm]; exact hfree
  have hn := ho.nodup i
  rw [hown, nodup_cons] at hn
  have hki : k ∈ (pt m i).own := by rw [hown]; simp
  have hmem : ∀ j k', k' ∈ (pt m' j).own ↔ k' ∈ (pt m j).own ∧ k' ≠ k := by
    intro j k'
    rw [hpt]
    split_ifs with hj
    · rw [hj, hown, mem_cons]
      refine ⟨fun h => ⟨.inr h, fun he => hn.1 (he ▸ h)⟩, fun h => h.1.resolve_left h.2⟩
    · refine ⟨fun h => ⟨h, fun he => hj ?_⟩, fun h => h.1⟩
      exact ho.disjoint j i k' h (he ▸ hki)
  refine ⟨fun j => ?_, fun j j' k' h1 h2 => ?_, fun j k' h1 => ?_, fun k' h1 h2 => ?_⟩
  · rw [hpt]
    split_ifs with hj
    · exact hn.2
    · exact ho.nodup j
  · exact ho.disjoint j j' k' ((hmem j k').mp h1).1 ((hmem j' k').mp h2).1
  · obtain ⟨h1, hne⟩ := (hmem j k').mp h1
    rw [hf, update_of_ne hne]
    exact ho.held j k' h1
  · simp only [hmem]
    have hne : k' ≠ k := by
      rintro rfl
      simp [hf] at h2
    rw [hf, update_of_ne hne] at h2
    obtain ⟨j, hj⟩ := ho.cover k' h1 h2
    exact ⟨j, hj, hne⟩

end

/-- While `i` holds the lock, the others are outside or wait. -/
lemma Inv.others (hi : Inv m) (hlock : Mon.LockInv (client ι B) m) (hlk : m.lk = some i)
    (hj : j ≠ i) : pt m j = .idle ∨ (∃ c, pt m j = .alloc c []) ∨ ∃ ch, pt m j = .wait ch := by
  have hnot : ¬ Mon.Holds (client ι B) (m.loc j) := by
    rw [← hlock.owner j, hlk]
    simpa using Ne.symm hj
  rw [pt]
  cases hc : m.loc j with
  | here l =>
    rw [hc] at hnot
    cases l <;> first | exact .inl rfl | exact absurd trivial hnot
  | waiting l => exact .inr (hi.waiting j l hc)

/-- What the others know survives a step that keeps away from their descriptors and buffers. -/
lemma Inv.others_keep {o : List ℕ} (hi : Inv m)
    (hlock : Mon.LockInv (client ι B) m) (hlk : m.lk = some i) (hk : Keeps m.data d' o u)
    (ho : ∀ k ∈ o, ∀ j, j ≠ i → k ∉ (pt m j).own)
    (hb : ∀ b, u = some b → ∀ j, j ≠ i → (pt m j).buf? ≠ some b) (hj : j ≠ i) :
    d'.Knows (pt m j) ∧ ∀ b, (pt m j).buf? = some b → d'.InCall j b := by
  have hbuf : ∀ b, (pt m j).buf? = some b → d'.bdisk b = m.data.bdisk b ∧
      d'.served b = m.data.served b ∧ d'.inCall b = m.data.inCall b ∧
      d'.owner b = m.data.owner b := fun b h' => hk.buf b fun he => hb b he.symm j hj h'
  refine ⟨?_, fun b h' => ?_⟩
  · have hkn := hi.knows j
    rcases hi.others hlock hlk hj with hp | ⟨c, hp⟩ | ⟨ch, hp⟩ <;> rw [hp] at hkn ⊢
    · trivial
    · rw [Knows, (hbuf c.b (by rw [hp]; rfl)).2.1]
      exact hkn
    · have hown : ∀ k ∈ [ch.i0, ch.i1, ch.i2], k ∉ o := fun k hko hk' =>
        ho k hk' j hj (by rw [hp]; exact hko)
      obtain ⟨h1, h2, -⟩ := hbuf ch.call.b (by rw [hp]; rfl)
      refine ⟨hkn.1.congr (fun k hk' => (hk.desc k (hown k hk')).1) ?_ ?_, ?_⟩
      · exact (hk.desc ch.i0 (hown _ (by simp))).2.1
      · rw [(hk.desc ch.i0 (hown _ (by simp))).2.2]
      · rw [h1, h2]
        exact hkn.2
  · obtain ⟨-, -, h3, h4⟩ := hbuf b h'
    rw [InCall, h3, h4]
    exact hi.inCall j b h'

/-- A step of thread `i`, which holds the lock, inside its own descriptors and its own buffer. -/
lemma Inv.within {o : List ℕ} (hi : Inv m) (hlock : Mon.LockInv (client ι B) m)
    (hm : m' = ⟨m.lk, update m.loc i (.here l'), m.killed, d'⟩)
    (hl : m.loc i = .here l) (hlk : m.lk = some i) (hk : Keeps m.data d' o u)
    (ho : ∀ k ∈ o, ∀ j, j ≠ i → k ∉ (pt m j).own)
    (hb : ∀ b, u = some b → ∀ j, j ≠ i → (pt m j).buf? ≠ some b) (howned : Owned m')
    (hq : d'.availQ = m.data.availQ) (havail : d'.avail.idx = m.data.avail.idx)
    (hdev : d'.dev = m.data.dev) (hused : d'.used = m.data.used) (hui : d'.usedIdx = m.data.usedIdx)
    (hlag : l'.lag = l.lag)
    (hpost : ∀ ch, l.posted? = some ch → (m.data.bdisk ch.call.b = true ∨ l.lag ≠ []) →
      l'.posted? = some ch ∧ d' = m.data)
    (hknow : d'.Knows l') (hcall : ∀ b, l'.buf? = some b → d'.InCall i b) : Inv m' := by
  have hpti : pt m i = l := by rw [pt, hl]; rfl
  have hd : m'.data = d' := by rw [hm]
  refine hi.moved hm ?_ howned nofun
    (fun j hj => hi.others_keep hlock hlk hk ho hb hj) hknow hcall ?_ ?_
  · obtain ⟨h1, h2, h3, h4⟩ := hi.bounds
    exact ⟨by rw [hdev]; exact h1, by rw [havail]; exact h2, by rw [hui]; exact h3,
      by rw [hused]; exact h4⟩
  · rw [hdev, hused]
    exact hi.slot
  · obtain ⟨late, hf⟩ := hi.flight
    have hlagm : lag m = l.lag := by rw [lag, hlk]; exact congrArg VirtioLoc.lag hpti
    refine ⟨late, hf.keep ?_ (by rw [hd]; exact hq) (by rw [hd]; exact hdev) ?_ ?_⟩
    · rw [hlagm, ← hlag, hm, lag, hlk]
      simp [pt_update, MLoc.point]
    · rw [hd, usedQ, usedQ, hused, hui]
    · intro j ch hp hb'
      rw [hlagm] at hb'
      by_cases hji : j = i
      · subst hji
        rw [hpti] at hp
        obtain ⟨h1, h2⟩ := hpost ch hp hb'
        rw [hd, h2, hm, pt_update, if_pos rfl]
        exact ⟨h1, rfl, rfl, rfl⟩
      · obtain ⟨hown, hbuf⟩ := VirtioLoc.own_posted hp
        obtain ⟨h1, h2, -⟩ := hk.buf ch.call.b fun he => hb _ he.symm j hji hbuf
        have h3 := hk.desc ch.i0 fun hko => ho _ hko j hji (by rw [hown]; simp)
        rw [hd, h1, h2, h3.2.2, hm, pt_update, if_neg hji]
        exact ⟨hp, rfl, rfl, rfl⟩

lemma Keeps.refl (d : VirtioDisk ι B) : Keeps d d [] none :=
  ⟨fun _ _ => ⟨rfl, rfl, rfl⟩, fun _ _ => ⟨rfl, rfl, rfl, rfl⟩⟩

lemma own_afterAlloc (c : DiskCall B) (got : List ℕ) :
    (afterAlloc c got).own = got ∧ (afterAlloc c got).buf? = some c.b ∧
      (afterAlloc c got).lag = [] := by
  unfold afterAlloc
  split <;> exact ⟨rfl, rfl, rfl⟩

lemma knows_afterAlloc {c : DiskCall B} {got : List ℕ}
    (hs : d.served c.b = []) (hlen : got.length ≤ 2) : d.Knows (afterAlloc c (got ++ [k])) := by
  rcases got with _ | ⟨a, _ | ⟨b, _ | ⟨x, rest⟩⟩⟩
  · exact ⟨hs, by simp⟩
  · exact ⟨hs, by simp⟩
  · exact hs
  · simp at hlen

/-- The chain of a thread that has not posted it is not in flight. -/
lemma Inv.not_in_flight (hi : Inv m) (hf : Flight m late)
    (hk : k ∈ (pt m i).own) (hp : (pt m i).posted? = none) : k ∉ lag m ++ m.data.queued late := by
  intro hmem
  obtain ⟨j, ch, hj, rfl, -⟩ := hf.awaits hmem
  have hown : ch.i0 ∈ (pt m j).own := by rw [(VirtioLoc.own_posted hj).1]; simp
  rw [hi.owned.disjoint j i _ hown hk, hp] at hj
  cases hj

lemma posted_update (hm : m' = ⟨lk', update m.loc i c', killed', d'⟩)
    (hp : (pt m i).posted? = none) (hj : (pt m j).posted? = some ch) :
    (pt m' j).posted? = some ch := by
  have hji : j ≠ i := by
    rintro rfl
    rw [hp] at hj
    cases hj
  rw [hm, pt_update, if_neg hji]
  exact hj

section

variable (hi : Inv m)
include hi

/-- `disk.avail->idx += 1`: the chain is in flight from here on. -/
lemma Inv.bump (hlock : Mon.LockInv (client ι B) m)
    (hl : m.loc i = .here (.bump ch)) (hlk : m.lk = some i)
    (hd' : d' = { m.data with avail := { m.data.avail with idx := (m.data.avail.idx + 1) % IDX } })
    (hm : m' = ⟨m.lk, update m.loc i (.here (.wait ch)), m.killed, d'⟩) : Inv m' := by
  have hpti : pt m i = .bump ch := by rw [pt, hl]; rfl
  have hkn := hi.knows i
  rw [hpti] at hkn
  obtain ⟨hserved, hform, hdisk, hring⟩ := hkn
  have hd : m'.data = d' := by rw [hm]
  have hmem : ch.i0 ∈ (pt m i).own := by rw [hpti]; simp [VirtioLoc.own]
  have hnot : ∀ late, Flight m late → ch.i0 ∉ lag m ++ m.data.queued late := fun late hf =>
    hi.not_in_flight hf hmem (by rw [hpti]; rfl)
  have hroom := hi.avail_room (hi.owned.held i ch.i0 hmem).1 fun late hf hq =>
    hnot late hf (by simp [hq])
  have hkeeps : Keeps m.data d' [] none := by
    rw [hd']
    exact ⟨fun _ _ => ⟨rfl, rfl, rfl⟩, fun _ _ => ⟨rfl, rfl, rfl, rfl⟩⟩
  have hq : d'.availQ = m.data.availQ ++ [ch.i0] := by
    rw [hd', availQ, availQ, ← hring]
    exact Ring.contents_succ (by norm_num) _ hi.bounds.seen hi.bounds.avail
      (by simp only [NUM, IDX] at hroom ⊢; omega)
  refine hi.moved hm ?_ ?_ nofun
    (fun j hj => hi.others_keep hlock hlk hkeeps (by simp) (by simp) hj) ?_ ?_ ?_ ?_
  · rw [hd']
    exact { hi.bounds with avail := Nat.mod_lt _ (by norm_num) }
  · exact hi.owned.same hm (by rw [hpti]; rfl) (by rw [hd'])
  · rw [hd']
    refine ⟨hform.congr (fun _ _ => rfl) rfl rfl, fun hb => ?_⟩
    rw [show m.data.bdisk ch.call.b = true from hdisk] at hb
    cases hb
  · rintro b ⟨⟩
    rw [hd']
    exact hi.inCall i _ (by rw [hpti]; rfl)
  · rw [hd']
    exact hi.slot
  · obtain ⟨late, hf⟩ := hi.flight
    have hlag : lag m' = lag m := by
      rw [hm, lag, lag, hlk]
      simp [pt_update, MLoc.point, hpti, VirtioLoc.lag]
    have hdev : d'.dev = m.data.dev := by rw [hd']
    have hpost : ∀ j ch', (pt m j).posted? = some ch' → (pt m' j).posted? = some ch' :=
      fun j ch' hj => posted_update hm (by rw [hpti]; rfl) hj
    have hwait : Awaits m' ch.i0 fun ch => d'.bdisk ch.call.b = true ∧
        d'.served ch.call.b = [] := by
      refine ⟨i, ch, ?_, rfl, ?_⟩
      · rw [hm, pt_update, if_pos rfl]
        rfl
      · rw [hd']
        exact ⟨hdisk, hserved⟩
    refine ⟨late, ?_, ?_, ?_, ?_, ?_⟩
    · rw [hlag, hd, hd', usedQ]
      exact hf.used
    · rw [hlag, hd, queued, hq, hdev]
      have hperm : List.Perm (lag m ++ (m.data.availQ ++ [ch.i0] ++ m.data.dev.taken ++
          (m.data.dev.writing.toList ++ late))) (ch.i0 :: (lag m ++ m.data.queued late)) := by
        simp only [append_assoc, singleton_append]
        exact (List.Perm.append_left _ perm_middle).trans perm_middle
      exact hperm.nodup_iff.mpr (nodup_cons.mpr ⟨hnot late hf, hf.nodup⟩)
    · intro h hh
      rw [hd, hq, hdev] at hh
      rw [hd]
      simp only [mem_append, mem_singleton] at hh
      have hold : h ∈ m.data.availQ ++ m.data.dev.taken → Awaits m' h fun ch =>
          d'.bdisk ch.call.b = true ∧ d'.served ch.call.b = [] := fun hh' =>
        (hf.posted h hh').mono fun j ch' hj _ hP => ⟨hpost j ch' hj, by rw [hd']; exact hP⟩
      rcases hh with (hh | rfl) | hh
      · exact hold (mem_append_left _ hh)
      · exact hwait
      · exact hold (mem_append_right _ hh)
    · intro h hh
      rw [hd, hdev] at hh
      rw [hd]
      exact (hf.completed h hh).mono fun j ch' hj _ hP => ⟨hpost j ch' hj, by rw [hd']; exact hP⟩
    · intro h hh
      rw [hlag] at hh
      rw [hd]
      exact (hf.handled h hh).mono fun j ch' hj _ hP => ⟨hpost j ch' hj, by rw [hd']; exact hP⟩

/-- The next entry of the used ring is a chain that its thread still waits for. -/
lemma Inv.next_used (hlag : lag m = []) (hu : m.data.usedIdx ≠ m.data.used.idx) :
    ∃ late, Flight m (m.data.used.ring (m.data.usedIdx % NUM) :: late) := by
  obtain ⟨late, hf⟩ := hi.flight
  have htake : m.data.usedQ = m.data.used.ring (m.data.usedIdx % NUM) :: _ :=
    Ring.contents_take (by norm_num) _ hi.bounds.usedIdx hi.bounds.used hu
  have hused := hf.used
  rw [hlag, nil_append, htake] at hused
  exact ⟨_, hused ▸ hf⟩

section

variable (hlock : Mon.LockInv (client ι B) m)
include hlock

lemma Inv.intr (hl : m.loc i = .here .intr) (hlk : m.lk = some i)
    (hu : m.data.usedIdx ≠ m.data.used.idx)
    (hid : m.data.used.ring (m.data.usedIdx % NUM) = k) (hb : (m.data.info k).b = some b)
    (hd' : d' = { m.data with bdisk := update m.data.bdisk b false })
    (hm : m' = ⟨m.lk, update m.loc i (.here (.intrWake b k)), m.killed, d'⟩) : Inv m' := by
  have hpti : pt m i = .intr := by rw [pt, hl]; rfl
  have hd : m'.data = d' := by rw [hm]
  have hlag : lag m = [] := by
    rw [lag, hlk]
    simp [hpti, VirtioLoc.lag]
  obtain ⟨late, hf⟩ := hi.next_used hlag hu
  rw [hid] at hf
  -- the thread whose request it is
  obtain ⟨r, ch, hr, hch, hdisk, hserved, hstatus⟩ := hf.completed k (by simp)
  have hri : r ≠ i := by
    rintro rfl
    rw [hpti] at hr
    cases hr
  have hkr : m.data.Knows (.wait ch) ∧ pt m r = .wait ch := by
    have := hi.knows r
    rcases hi.others hlock hlk hri with hp | ⟨c, hp⟩ | ⟨ch', hp⟩ <;> rw [hp] at hr this <;>
      cases hr
    exact ⟨this, hp⟩
  obtain ⟨hkr, hptr⟩ := hkr
  have hbch : b = ch.call.b := by
    have := hkr.1.info
    rw [hch, hb] at this
    exact some.inj this
  have hbr : (pt m r).buf? = some b := by rw [hptr, hbch]; rfl
  have hne : ∀ j, j ≠ r → ∀ b', (pt m j).buf? = some b' → b' ≠ b := by
    rintro j hj b' hb' rfl
    exact hj (hi.buf_unique hb' hbr)
  have hdother : ∀ b', b' ≠ b → d'.bdisk b' = m.data.bdisk b' := fun b' hb' => by
    rw [hd']
    exact update_of_ne hb' _ _
  have hdb : d'.bdisk b = false := by
    rw [hd']
    exact update_self ..
  refine hi.moved hm ?_ ?_ nofun (fun j hj => ?_) ?_ nofun ?_ ⟨late, ?_⟩
  · rw [hd']
    exact { hi.bounds with }
  · exact hi.owned.same hm (by rw [hpti]; rfl) (by rw [hd'])
  · refine ⟨?_, fun b' hb' => by rw [hd']; exact hi.inCall j b' hb'⟩
    by_cases hjr : j = r
    · subst hjr
      rw [hptr]
      refine ⟨by rw [hd']; exact hkr.1.congr (fun _ _ => rfl) rfl rfl, fun _ => ?_⟩
      rw [hd']
      exact hserved
    · have hkj := hi.knows j
      rcases hi.others hlock hlk hj with hp | ⟨c, hp⟩ | ⟨ch', hp⟩ <;> rw [hp] at hkj ⊢
      · trivial
      · rw [hd']
        exact hkj
      · refine ⟨by rw [hd']; exact hkj.1.congr (fun _ _ => rfl) rfl rfl, fun hf' => ?_⟩
        rw [hdother _ (hne j hjr _ (by rw [hp]; rfl))] at hf'
        rw [hd']
        exact hkj.2 hf'
  · exact hdb
  · rw [hd']
    exact hi.slot
  · -- the other requests in flight have other buffers
    have hlag' : lag m' = [k] := by
      rw [hm, lag, hlk]
      simp [pt_update, MLoc.point, VirtioLoc.lag]
    have hdev : d'.dev = m.data.dev := by rw [hd']
    have hq : d'.availQ = m.data.availQ := by rw [hd']; rfl
    have hn := hf.nodup
    rw [hlag, nil_append] at hn
    have hperm : List.Perm (m.data.queued (k :: late)) (k :: m.data.queued late) := by
      rw [queued, queued, ← append_assoc _ m.data.dev.writing.toList, ← append_assoc _ _ late]
      exact perm_middle
    have hn' := nodup_cons.mp (hperm.nodup_iff.mp hn)
    have hpost : ∀ j ch', (pt m j).posted? = some ch' → (pt m' j).posted? = some ch' :=
      fun j ch' hj => posted_update hm (by rw [hpti]; rfl) hj
    have hkeep : ∀ j ch' h, (pt m j).posted? = some ch' → ch'.i0 = h → h ∈ m.data.queued late →
        d'.bdisk ch'.call.b = m.data.bdisk ch'.call.b := by
      rintro j ch' h hj rfl hh
      have hjr : j ≠ r := by
        rintro rfl
        rw [hr] at hj
        cases hj
        exact hn'.1 (hch ▸ hh)
      exact hdother _ (hne j hjr _ (VirtioLoc.own_posted hj).2)
    refine ⟨?_, ?_, fun h hh => ?_, fun h hh => ?_, fun h hh => ?_⟩
    · rw [hlag', hd, hd']
      have := hf.used
      rw [hlag] at this
      exact this
    · rw [hlag', hd, queued, hq, hdev]
      exact nodup_cons.mpr hn'
    · rw [hd, hq, hdev] at hh
      rw [hd]
      refine (hf.posted h hh).mono fun j ch' hj he hP =>
        ⟨hpost j ch' hj, ?_, by rw [hd']; exact hP.2⟩
      rw [hkeep j ch' h hj he (mem_append_left _ hh)]
      exact hP.1
    · rw [hd, hdev] at hh
      rw [hd]
      refine (hf.completed h ?_).mono fun j ch' hj he hP =>
        ⟨hpost j ch' hj, ?_, by rw [hd']; exact hP.2⟩
      · simp only [mem_append, mem_cons] at hh ⊢
        tauto
      · rw [hkeep j ch' h hj he (mem_append_right _ hh)]
        exact hP.1
    · rw [hlag', mem_singleton] at hh
      refine ⟨r, ch, hpost r ch hr, hch.trans hh.symm, ?_⟩
      show m'.data.bdisk ch.call.b = false
      rw [hd, ← hbch]
      exact hdb

lemma Inv.intrNext (hl : m.loc i = .here (.intrNext k)) (hlk : m.lk = some i)
    (hd' : d' = { m.data with usedIdx := (m.data.usedIdx + 1) % IDX })
    (hm : m' = ⟨m.lk, update m.loc i (.here .intr), m.killed, d'⟩) : Inv m' := by
  have hpti : pt m i = .intrNext k := by rw [pt, hl]; rfl
  have hd : m'.data = d' := by rw [hm]
  have hlag : lag m = [k] := by
    rw [lag, hlk]
    simp [hpti, VirtioLoc.lag]
  have hlag' : lag m' = [] := by
    rw [hm, lag, hlk]
    simp [pt_update, MLoc.point, VirtioLoc.lag]
  have hkeeps : Keeps m.data d' [] none := by
    rw [hd']
    exact ⟨fun _ _ => ⟨rfl, rfl, rfl⟩, fun _ _ => ⟨rfl, rfl, rfl, rfl⟩⟩
  refine hi.moved hm ?_ ?_ nofun
    (fun j hj => hi.others_keep hlock hlk hkeeps (by simp) (by simp) hj) trivial nofun ?_ ?_
  · rw [hd']
    exact { hi.bounds with usedIdx := Nat.mod_lt _ (by norm_num) }
  · exact hi.owned.same hm (by rw [hpti]; rfl) (by rw [hd'])
  · rw [hd']
    exact hi.slot
  · obtain ⟨late, hf⟩ := hi.flight
    have hused := hf.used
    rw [hlag] at hused
    have hne : m.data.usedIdx ≠ m.data.used.idx := by
      intro he
      have hlen := congrArg length hused
      rw [usedQ, Ring.length_contents,
        (Ring.used_eq_zero hi.bounds.usedIdx hi.bounds.used).mpr he] at hlen
      simp at hlen
    have htake : m.data.usedQ = m.data.used.ring (m.data.usedIdx % NUM) :: d'.usedQ := by
      rw [hd']
      exact Ring.contents_take (by norm_num) _ hi.bounds.usedIdx hi.bounds.used hne
    have hdev : d'.dev = m.data.dev := by rw [hd']
    have hq : d'.availQ = m.data.availQ := by rw [hd']; rfl
    have hpost : ∀ j ch', (pt m j).posted? = some ch' → (pt m' j).posted? = some ch' :=
      fun j ch' hj => posted_update hm (by rw [hpti]; rfl) hj
    refine ⟨late, ?_, ?_, fun h hh => ?_, fun h hh => ?_, fun h hh => ?_⟩
    · rw [hlag', hd]
      rw [htake] at hused
      exact (cons.inj hused).2
    · rw [hlag', hd, queued, hq, hdev, nil_append]
      have := hf.nodup
      rw [hlag] at this
      exact (nodup_cons.mp this).2
    · rw [hd, hq, hdev] at hh
      rw [hd]
      exact (hf.posted h hh).mono fun j ch' hj _ hP => ⟨hpost j ch' hj, by rw [hd']; exact hP⟩
    · rw [hd, hdev] at hh
      rw [hd]
      exact (hf.completed h hh).mono fun j ch' hj _ hP => ⟨hpost j ch' hj, by rw [hd']; exact hP⟩
    · rw [hlag'] at hh
      cases hh

lemma Inv.act (hl : m.loc i = .here l) (ha : Acts i m.data l l' d')
    (hm : m' = ⟨m.lk, update m.loc i (.here l'), m.killed, d'⟩) : Inv m' := by
  have hlk : m.lk = some i := by
    refine (hlock.owner i).mpr ?_
    rw [hl]
    exact (acts_holds ha).1
  have hpti : pt m i = l := by rw [pt, hl]; rfl
  have hkn := hi.knows i
  rw [hpti] at hkn
  have hcall : ∀ b, l.buf? = some b → m.data.InCall i b := fun b hb =>
    hi.inCall i b (by rw [hpti]; exact hb)
  have howns : ∀ k ∈ l.own, ∀ j, j ≠ i → k ∉ (pt m j).own := fun k hk j hj hkj =>
    hj (hi.owned.disjoint j i k hkj (by rw [hpti]; exact hk))
  have hbufs : ∀ b, l.buf? = some b → ∀ j, j ≠ i → (pt m j).buf? ≠ some b := fun b hb j hj hbj =>
    hj (hi.buf_unique hbj (by rw [hpti]; exact hb))
  cases ha with
  | @enter c ho =>
    refine hi.within (o := []) (u := some c.b) hlock hm hl hlk ⟨fun _ _ => ⟨rfl, rfl, rfl⟩, ?_⟩
      (by simp) ?_ (hi.owned.same hm (by rw [hpti]; rfl) rfl) rfl rfl rfl rfl rfl rfl nofun ?_ ?_
    · intro b hb
      have hne : b ≠ c.b := fun he => hb (by rw [he])
      exact ⟨rfl, update_of_ne hne _ _, update_of_ne hne _ _, rfl⟩
    · rintro _ ⟨⟩ j hj hbj
      exact hj (some.inj ((hi.inCall j _ hbj).2.symm.trans ho))
    · exact ⟨update_self .., by simp⟩
    · rintro _ ⟨⟩
      exact ⟨update_self .., ho⟩
  | @alloc c got k hk =>
    obtain ⟨hlt, hfk⟩ := allocDesc_some hk
    obtain ⟨hown, hbuf, hlag⟩ := own_afterAlloc c (got ++ [k])
    refine hi.within hlock hm hl hlk ⟨fun _ _ => ⟨rfl, rfl, rfl⟩, fun _ _ => ⟨rfl, rfl, rfl, rfl⟩⟩
      (o := []) (u := none) (by simp) (by simp)
      (hi.owned.grow hm (by rw [hpti]; exact hown) hlt hfk rfl) rfl rfl rfl rfl rfl hlag nofun
      (knows_afterAlloc hkn.1 hkn.2) ?_
    rw [hbuf]
    exact hcall
  | full hk =>
    refine hi.within hlock hm hl hlk (Keeps.refl _) (by simp) (by simp)
      (hi.owned.same hm (by rw [hpti]; rfl) rfl) rfl rfl rfl rfl rfl rfl nofun ⟨hkn.1, ?_⟩ hcall
    rw [freeCount_of_none hk]
    have := hkn.2
    omega
  | @unalloc c j todo =>
    obtain ⟨hlt, hfj⟩ := hi.owned.held i j (by rw [hpti]; simp [VirtioLoc.own])
    refine hi.within (o := [j]) (u := none) hlock hm hl hlk
      ⟨fun k hk => ⟨update_of_ne (by simpa using hk) _ _, rfl, rfl⟩,
        fun _ _ => ⟨rfl, rfl, rfl, rfl⟩⟩ (fun k hk => howns k (by simp_all [VirtioLoc.own]))
          (by simp)
      (hi.owned.shrink hm (by rw [hpti]; rfl) rfl) rfl rfl rfl rfl rfl rfl nofun ⟨hkn.1, ?_⟩ hcall
    rw [freeCount_freed hlt hfj]
    have := hkn.2
    simp only [length_cons] at this
    omega
  | @format ch =>
    refine hi.within (o := [ch.i0, ch.i1, ch.i2]) (u := some ch.call.b) hlock hm hl hlk ⟨?_, ?_⟩
      (fun k hk => howns k hk) (fun b hb => hbufs b hb)
      (hi.owned.same hm (by rw [hpti]; rfl) rfl) rfl rfl rfl rfl rfl rfl nofun
      ⟨hkn, formatted_format ?_, update_self ..⟩ hcall
    · intro k hk
      simp only [mem_cons, not_mem_nil, or_false, not_or] at hk
      simp [VirtioDisk.format, hk]
    · intro b hb
      exact ⟨update_of_ne (fun he => hb (by rw [he])) _ _, rfl, rfl, rfl⟩
    · have := hi.owned.nodup i
      rwa [hpti] at this
  | @post ch =>
    have hmem : ch.i0 ∈ (pt m i).own := by rw [hpti]; simp [VirtioLoc.own]
    have hroom := hi.avail_room (hi.owned.held i ch.i0 hmem).1 fun late hf hq =>
      hi.not_in_flight hf hmem (by rw [hpti]; rfl) (by simp [hq])
    refine hi.within hlock hm hl hlk ⟨fun _ _ => ⟨rfl, rfl, rfl⟩, fun _ _ => ⟨rfl, rfl, rfl, rfl⟩⟩
      (o := []) (u := none) (by simp) (by simp) (hi.owned.same hm (by rw [hpti]; rfl) rfl)
      (Ring.contents_store (by norm_num) _ _ hi.bounds.seen hi.bounds.avail hroom) rfl rfl rfl rfl
      rfl nofun ⟨hkn.1, hkn.2.1.congr (fun _ _ => rfl) rfl rfl, hkn.2.2, ?_⟩ hcall
    exact update_self ..
  | bump => exact hi.bump hlock hl hlk rfl hm
  | @busy ch hb =>
    exact hi.within hlock hm hl hlk (Keeps.refl _) (by simp) (by simp)
      (hi.owned.same hm (by rw [hpti]; rfl) rfl) rfl rfl rfl rfl rfl rfl (fun _ h' _ => ⟨h', rfl⟩)
      ⟨hkn.1, hb⟩ hcall
  | @ready ch hb =>
    refine hi.within hlock hm hl hlk (Keeps.refl _) (by simp) (by simp)
      (hi.owned.same hm (by rw [hpti]; rfl) rfl) rfl rfl rfl rfl rfl rfl ?_ ⟨hkn.1, hkn.2 hb⟩ hcall
    rintro _ ⟨⟩ (hb' | hb')
    · rw [hb] at hb'
      cases hb'
    · exact absurd rfl hb'
  | @finish ch =>
    refine hi.within (o := [ch.i0]) (u := none) hlock hm hl hlk ⟨fun k hk => ?_,
      fun _ _ => ⟨rfl, rfl, rfl, rfl⟩⟩ (fun k hk => howns k (by simp_all [VirtioLoc.own])) (by simp)
      (hi.owned.same hm (by rw [hpti]; rfl) rfl) rfl rfl rfl rfl rfl rfl nofun
      ⟨hkn.2, rfl, hkn.1.links.congr fun _ _ => rfl⟩ hcall
    exact ⟨rfl, rfl, update_of_ne (by simpa using hk) _ _⟩
  | @free c k own =>
    obtain ⟨hserved, hhead, hlinks⟩ := hkn
    obtain ⟨rest, rfl⟩ : ∃ rest, own = k :: rest := by
      cases own with
      | nil => cases hhead
      | cons k' rest => exact ⟨rest, by rw [some.inj hhead]⟩
    obtain ⟨hnext, hlinks'⟩ := hlinks.next
    have hnd := hi.owned.nodup i
    rw [hpti] at hnd
    have hkr : ∀ k' ∈ rest, k' ≠ k := by
      rintro k' hk' rfl
      exact (nodup_cons.mp hnd).1 hk'
    exact hi.within (o := [k]) (u := none) hlock hm hl hlk
      ⟨fun k' hk' => ⟨update_of_ne (by simpa using hk') _ _, rfl, rfl⟩,
        fun _ _ => ⟨rfl, rfl, rfl, rfl⟩⟩ (fun k' hk' => howns k' (by simp_all [VirtioLoc.own]))
      (by simp) (hi.owned.shrink hm (by rw [hpti]; rfl) rfl) rfl rfl rfl rfl rfl rfl nofun
      ⟨hserved, hnext.symm, hlinks'.congr fun k' hk' => update_of_ne (hkr k' hk') _ _⟩ hcall
  | @done c =>
    refine hi.within (o := []) (u := some c.b) hlock hm hl hlk ⟨fun _ _ => ⟨rfl, rfl, rfl⟩, ?_⟩
      (by simp) (fun b hb => hbufs b hb) (hi.owned.same hm (by rw [hpti]; rfl) rfl) rfl rfl rfl
      rfl rfl rfl nofun trivial nofun
    intro b hb
    exact ⟨rfl, rfl, update_of_ne (fun he => hb (by rw [he])) _ _, rfl⟩
  | intrEnd hu =>
    exact hi.within hlock hm hl hlk (Keeps.refl _) (by simp) (by simp)
      (hi.owned.same hm (by rw [hpti]; rfl) rfl) rfl rfl rfl rfl rfl rfl nofun trivial nofun
  | intr hu hb => exact hi.intr hlock hl hlk hu rfl hb rfl hm
  | intrNext => exact hi.intrNext hlock hl hlk rfl hm

end

/-! ## Steps without data, and steps of the environment -/

/-- A thread moves without touching the data: the lock changes hands, or `wakeup` returns. -/
lemma Inv.goto (hm : m' = ⟨lk', update m.loc i c', killed', m.data⟩)
    (hown : c'.point.own = (pt m i).own) (hbuf : c'.point.buf? = (pt m i).buf?)
    (hpost : c'.point.posted? = (pt m i).posted?) (hlag : lag m' = lag m)
    (hknow : m.data.Knows c'.point)
    (hwait : ∀ l, c' = .waiting l → (∃ c, l = .alloc c []) ∨ ∃ ch, l = .wait ch) : Inv m' := by
  refine hi.moved hm hi.bounds (hi.owned.same hm hown rfl) hwait
    (fun j _ => ⟨hi.knows j, hi.inCall j⟩) hknow ?_ hi.slot ?_
  · intro b hb
    exact hi.inCall i b (by rw [← hbuf]; exact hb)
  · obtain ⟨late, hf⟩ := hi.flight
    have hd : m'.data = m.data := by rw [hm]
    refine ⟨late, hf.keep hlag (by rw [hd]) (by rw [hd]) (by rw [hd]) fun j ch hj _ => ?_⟩
    rw [hd]
    refine ⟨?_, rfl, rfl, rfl⟩
    rw [hm, pt_update]
    split_ifs with hji
    · rw [hpost, ← hji]
      exact hj
    · exact hj

/-- A step of the environment: it keeps the threads, their descriptors and `b->disk`. -/
lemma Inv.outside (hm : m' = { m with data := d' }) (hbounds : d'.Bounds)
    (hfree : d'.free = m.data.free) (hdesc : d'.desc = m.data.desc) (hops : d'.ops = m.data.ops)
    (hinfo : ∀ k, (d'.info k).b = (m.data.info k).b) (havail : d'.avail = m.data.avail)
    (hbdisk : d'.bdisk = m.data.bdisk)
    (hserved : ∀ i b, (pt m i).buf? = some b → d'.served b = m.data.served b ∨
      ∃ ch, (pt m i).posted? = some ch ∧ m.data.bdisk b = true)
    (hcall : ∀ i b, m.data.InCall i b → d'.InCall i b)
    (hslot : ∀ h, d'.dev.writing = some h → d'.used.ring (d'.used.idx % NUM) = h)
    (hflight : ∃ late, Flight m' late) : Inv m' := by
  subst hm
  have hform : ∀ {ch : DiskChain B}, m.data.Formatted ch → d'.Formatted ch := fun hf =>
    hf.congr (fun _ _ => by rw [hdesc]) (by rw [hops]) (hinfo _)
  have hlinks : ∀ {o : List ℕ}, m.data.Links o → d'.Links o := fun hl =>
    hl.congr fun _ _ => by rw [hdesc]
  have hcount : d'.freeCount = m.data.freeCount := by rw [freeCount, freeCount, hfree]
  refine ⟨hbounds, ⟨hi.owned.nodup, hi.owned.disjoint, ?_, ?_⟩, hi.waiting,
    fun i b hb => hcall i b (hi.inCall i b hb), fun i => ?_, hslot, hflight⟩
  · rw [hfree]
    exact hi.owned.held
  · rw [hfree]
    exact hi.owned.cover
  · show d'.Knows (pt m i)
    have hkn := hi.knows i
    have hs := hserved i
    generalize pt m i = l at hkn hs
    have hserv : ∀ b, l.buf? = some b → l.posted? = none → d'.served b = m.data.served b := by
      intro b hb hp
      rcases hs b hb with h' | ⟨ch, h', -⟩
      · exact h'
      · rw [hp] at h'
        cases h'
    cases l with
    | alloc c got => exact ⟨by rw [hserv c.b rfl rfl]; exact hkn.1, hkn.2⟩
    | unalloc c todo | unallocWake c todo =>
      exact ⟨by rw [hserv c.b rfl rfl]; exact hkn.1, by rw [hcount]; exact hkn.2⟩
    | format ch =>
      show d'.served ch.call.b = []
      rw [hserv _ rfl rfl]
      exact hkn
    | post ch =>
      exact ⟨by rw [hserv _ rfl rfl]; exact hkn.1, hform hkn.2.1, by rw [hbdisk]; exact hkn.2.2⟩
    | bump ch =>
      exact ⟨by rw [hserv _ rfl rfl]; exact hkn.1, hform hkn.2.1, by rw [hbdisk]; exact hkn.2.2.1,
        by rw [havail]; exact hkn.2.2.2⟩
    | wait ch =>
      refine ⟨hform hkn.1, fun hb => ?_⟩
      rw [hbdisk] at hb
      rcases hs ch.call.b rfl with h' | ⟨-, -, h'⟩
      · rw [h']
        exact hkn.2 hb
      · rw [hb] at h'
        cases h'
    | await ch => exact ⟨hform hkn.1, by rw [hbdisk]; exact hkn.2⟩
    | finish ch => exact ⟨hform hkn.1, by rw [hserv _ rfl rfl]; exact hkn.2⟩
    | free c k own | freeWake c nxt own =>
      exact ⟨by rw [hserv _ rfl rfl]; exact hkn.1, hkn.2.1, hlinks hkn.2.2⟩
    | done c =>
      show d'.served c.b = [c]
      rw [hserv _ rfl rfl]
      exact hkn
    | intrWake b id =>
      show d'.bdisk b = false
      rw [hbdisk]
      exact hkn
    | _ => trivial

lemma Inv.formatted_of_posted (hp : (pt m i).posted? = some ch) : m.data.Formatted ch := by
  have hkn := hi.knows i
  generalize pt m i = l at hp hkn
  cases l with
  | wait ch' | await ch' =>
    obtain rfl : ch' = ch := some.inj hp
    exact hkn.1
  | _ => cases hp

end

/-- The device finds the request that the driver has described. -/
lemma Formatted.complete (hf : d.Formatted ch) : d.complete ch.i0 = .next { d with
      info := update d.info ch.i0 { d.info ch.i0 with status := 0 }
      used := { d.used with ring := update d.used.ring (d.used.idx % NUM) ch.i0 }
      dev := { d.dev with taken := d.dev.taken.erase ch.i0, writing := some ch.i0 }
      served := update d.served ch.call.b (d.served ch.call.b ++ [ch.call]) } := by
  simp [VirtioDisk.complete, hf.desc0, hf.desc1, hf.desc2, hf.ops]

/-- The used ring has room for a head that the device has not completed. -/
lemma Inv.used_room (hi : Inv m) (hf : Flight m late) (hh : h < NUM)
    (hnew : h ∉ lag m ++ late) : Ring.used IDX m.data.usedIdx m.data.used.idx < NUM := by
  have hn : (lag m ++ late).Nodup :=
    hf.nodup.sublist ((sublist_append_right (m.data.dev.writing.toList) late).trans
      (sublist_append_right _ _) |>.append_left _)
  have := hi.length_lt hf (fun x hx => by rcases mem_append.mp hx with hx | hx <;> simp [hx])
    (nodup_cons.mpr ⟨hnew, hn⟩) hh
  rwa [← hf.used, usedQ, Ring.length_contents] at this

lemma Inv.take (hi : Inv m) (hne : m.data.dev.seen ≠ m.data.avail.idx)
    (hd' : d' = { m.data with dev := { m.data.dev with
      seen := (m.data.dev.seen + 1) % IDX
      taken := m.data.dev.taken ++ [m.data.avail.ring (m.data.dev.seen % NUM)] } })
    (hm : m' = { m with data := d' }) : Inv m' := by
  refine hi.outside hm ?_ (by rw [hd']) (by rw [hd']) (by rw [hd']) (fun _ => by rw [hd'])
    (by rw [hd']) (by rw [hd']) (fun _ _ _ => .inl (by rw [hd']))
      (fun _ _ hc => by rw [hd']; exact hc)
    (by rw [hd']; exact hi.slot) ?_
  · rw [hd']
    exact { hi.bounds with seen := Nat.mod_lt _ (by norm_num) }
  · obtain ⟨late, hf⟩ := hi.flight
    have hq : m.data.availQ = m.data.avail.ring (m.data.dev.seen % NUM) :: d'.availQ := by
      rw [hd']
      exact Ring.contents_take (by norm_num) _ hi.bounds.seen hi.bounds.avail hne
    have htaken : d'.dev.taken =
        m.data.dev.taken ++ [m.data.avail.ring (m.data.dev.seen % NUM)] := by
      rw [hd']
    have hperm : List.Perm (d'.availQ ++ d'.dev.taken) (m.data.availQ ++ m.data.dev.taken) := by
      rw [hq, htaken, ← append_assoc]
      exact perm_append_singleton _ _
    subst hm
    refine ⟨late, ?_, ?_, fun h hh => ?_, ?_, ?_⟩
    · rw [hd']
      exact hf.used
    · have hall : List.Perm (lag m ++ d'.queued late) (lag m ++ m.data.queued late) := by
        rw [queued, show d'.dev.writing = m.data.dev.writing by rw [hd']]
        exact (hperm.append_right _).append_left _
      exact hall.nodup_iff.mpr hf.nodup
    · rw [hd']
      exact hf.posted h (hperm.mem_iff.mp hh)
    · rw [hd']
      exact hf.completed
    · rw [hd']
      exact hf.handled

/-- The device writes the status and the used ring entry of a chain it has taken. -/
lemma Inv.complete (hi : Inv m) (hh : h ∈ m.data.dev.taken) (hw : m.data.dev.writing = none) :
    ∃ d', m.data.complete h = .next d' ∧ Inv { m with data := d' } := by
  obtain ⟨late, hf⟩ := hi.flight
  obtain ⟨r, ch, hr, rfl, hdisk, hserved⟩ := hf.posted h (mem_append_right _ hh)
  have hform := hi.formatted_of_posted hr
  obtain ⟨hown, hbuf⟩ := VirtioLoc.own_posted hr
  refine ⟨_, hform.complete, ?_⟩
  have hn := hf.nodup
  have hnew : ch.i0 ∉ lag m ++ late ∧ ch.i0 ∉ m.data.availQ := by
    rw [nodup_append', nodup_append', nodup_append'] at hn
    obtain ⟨-, ⟨⟨-, -, h1⟩, -, h2⟩, h3⟩ := hn
    refine ⟨fun hx => ?_, fun hx => h1 hx hh⟩
    rcases mem_append.mp hx with hx | hx
    · exact h3 hx (by simp [hh])
    · exact h2 (mem_append_right _ hh) (by simp [hx])
  have hlt : ch.i0 < NUM := (hi.owned.held r ch.i0 (by rw [hown]; simp)).1
  have hroom := hi.used_room hf hlt hnew.1
  -- other threads have other heads and other buffers
  have hother : ∀ j ch', (pt m j).posted? = some ch' → ch'.i0 ≠ ch.i0 → ch'.call.b ≠ ch.call.b := by
    intro j ch' hj hne hb
    have hjr : j = r := hi.buf_unique (VirtioLoc.own_posted hj).2 (hb ▸ hbuf)
    rw [hjr, hr] at hj
    cases hj
    exact hne rfl
  refine hi.outside rfl { hi.bounds with } rfl rfl
    rfl ?_ rfl rfl ?_ (fun _ _ hc => hc) ?_ ⟨late, ?_, ?_, ?_, ?_, ?_⟩
  · intro k
    by_cases hk : k = ch.i0
    · subst hk
      simp
    · simp [hk]
  · intro i b hb
    by_cases hbb : b = ch.call.b
    · subst hbb
      obtain rfl := hi.buf_unique hb hbuf
      exact .inr ⟨ch, hr, hdisk⟩
    · exact .inl (update_of_ne hbb _ _)
  · rintro _ ⟨⟩
    exact update_self ..
  · show Ring.contents NUM IDX (update m.data.used.ring (m.data.used.idx % NUM) ch.i0)
      m.data.usedIdx m.data.used.idx = lag m ++ late
    rw [Ring.contents_store (by norm_num) _ _ hi.bounds.usedIdx hi.bounds.used hroom]
    exact hf.used
  · show (lag m ++ (m.data.availQ ++ m.data.dev.taken.erase ch.i0 ++ ([ch.i0] ++ late))).Nodup
    have hperm : List.Perm (lag m ++ (m.data.availQ ++ m.data.dev.taken.erase ch.i0 ++
        ([ch.i0] ++ late))) (lag m ++ m.data.queued late) := by
      rw [queued, hw]
      refine List.Perm.append_left _ ?_
      simp only [toList_none, nil_append, append_assoc, singleton_append]
      refine List.Perm.append_left _ ?_
      exact (perm_middle.trans ((perm_cons_erase hh).symm.append_right late))
    exact hperm.nodup_iff.mpr hn
  · intro h' hh'
    have hne : h' ≠ ch.i0 ∧ h' ∈ m.data.availQ ++ m.data.dev.taken := by
      have hnd : m.data.dev.taken.Nodup := by
        rw [nodup_append', nodup_append', nodup_append'] at hn
        exact hn.2.1.1.2.1
      rcases mem_append.mp hh' with hx | hx
      · exact ⟨fun he => hnew.2 (he ▸ hx), mem_append_left _ hx⟩
      · obtain ⟨h1, h2⟩ := (List.Nodup.mem_erase_iff hnd).mp hx
        exact ⟨h1, mem_append_right _ h2⟩
    refine (hf.posted h' hne.2).mono fun j ch' hj he hP => ⟨hj, hP.1, ?_⟩
    have := hother j ch' hj (he ▸ hne.1)
    exact (update_of_ne this _ _).trans hP.2
  · intro h' hh'
    rcases mem_append.mp hh' with hx | hx
    · obtain rfl : h' = ch.i0 := by simpa using hx
      refine ⟨r, ch, hr, rfl, hdisk, ?_, ?_⟩
      · show update m.data.served ch.call.b _ ch.call.b = [ch.call]
        rw [update_self, hserved]
        rfl
      · simp
    · have hne : h' ≠ ch.i0 := fun he => hnew.1 (mem_append_right _ (he ▸ hx))
      refine (hf.completed h' (mem_append_right _ hx)).mono fun j ch' hj he hP =>
        ⟨hj, hP.1, ?_, ?_⟩
      · exact (update_of_ne (hother j ch' hj (he ▸ hne)) _ _).trans hP.2.1
      · simp [hne, hP.2.2]
  · exact hf.handled

lemma Inv.publish (hi : Inv m) (hw : m.data.dev.writing = some h) (hd' : d' = { m.data with
      used := { m.data.used with idx := (m.data.used.idx + 1) % IDX }
      dev := { m.data.dev with writing := none } })
    (hm : m' = { m with data := d' }) : Inv m' := by
  refine hi.outside hm ?_ (by rw [hd']) (by rw [hd']) (by rw [hd']) (fun _ => by rw [hd'])
    (by rw [hd']) (by rw [hd']) (fun _ _ _ => .inl (by rw [hd']))
      (fun _ _ hc => by rw [hd']; exact hc)
    (by rw [hd']; exact nofun) ?_
  · rw [hd']
    exact { hi.bounds with used := Nat.mod_lt _ (by norm_num) }
  · obtain ⟨late, hf⟩ := hi.flight
    have hn := hf.nodup
    rw [queued, hw] at hn
    obtain ⟨j, hj⟩ := (hf.awaits (h := h) (by rw [queued, hw]; simp)).own
    have hnew : h ∉ lag m ++ late := by
      rw [nodup_append', nodup_append'] at hn
      obtain ⟨-, ⟨-, h1, -⟩, h2⟩ := hn
      intro hx
      rcases mem_append.mp hx with hx | hx
      · exact h2 hx (by simp)
      · exact (nodup_cons.mp h1).1 hx
    have hroom := hi.used_room hf (hi.owned.held j h hj).1 hnew
    have hq : d'.usedQ = m.data.usedQ ++ [h] := by
      rw [hd', usedQ, usedQ, ← hi.slot h hw]
      exact Ring.contents_succ (by norm_num) _ hi.bounds.usedIdx hi.bounds.used
        (by simp only [NUM, IDX] at hroom ⊢; omega)
    have hmem : ∀ x, x ∈ late ++ [h] ↔ x ∈ m.data.dev.writing.toList ++ late := by
      intro x
      rw [hw]
      simp [or_comm]
    subst hm
    refine ⟨late ++ [h], ?_, ?_, ?_, fun x hx => ?_, ?_⟩
    · show d'.usedQ = lag m ++ (late ++ [h])
      rw [hq, hf.used, append_assoc]
    · have hperm : List.Perm (lag m ++ (m.data.availQ ++ m.data.dev.taken ++ (late ++ [h])))
          (lag m ++ (m.data.availQ ++ m.data.dev.taken ++ ([h] ++ late))) :=
        (perm_append_comm.append_left _).append_left _
      rw [hd']
      exact hperm.nodup_iff.mpr hn
    · rw [hd']
      exact hf.posted
    · rw [hd'] at hx ⊢
      exact hf.completed x ((hmem x).mp (by simpa using hx))
    · rw [hd']
      exact hf.handled

lemma Inv.relock (hi : Inv m) {o : Option ι} (hfree : ∀ i, ¬ m.data.InCall i b) :
    Inv { m with data := { m.data with owner := update m.data.owner b o } } := by
  obtain ⟨late, hf⟩ := hi.flight
  refine hi.outside rfl { hi.bounds with } rfl
    rfl rfl (fun _ => rfl) rfl rfl (fun _ _ _ => .inl rfl) (fun i b' hc => ?_) hi.slot
    ⟨late, { hf with }⟩
  have hne : b' ≠ b := by
    rintro rfl
    exact hfree i hc
  exact ⟨hc.1, (update_of_ne hne _ _).trans hc.2⟩

lemma Inv.env {y : VirtioEnv ι B} (hi : Inv m) (hs : env y m.data = .next d') :
    Inv { m with data := d' } := by
  cases y with
  | take =>
    simp only [VirtioDisk.env] at hs
    split_ifs at hs with hne
    exact hi.take hne (Outcome.next.inj hs).symm rfl
  | complete h =>
    simp only [VirtioDisk.env] at hs
    split_ifs at hs with hh
    obtain ⟨d'', hd'', hi'⟩ := hi.complete hh.1 hh.2
    rw [hd''] at hs
    cases hs
    exact hi'
  | publish =>
    simp only [VirtioDisk.env] at hs
    split_ifs at hs with hw
    obtain ⟨h, hw⟩ := ne_none_iff_exists'.mp hw
    exact hi.publish hw (Outcome.next.inj hs).symm rfl
  | lock i b =>
    simp only [VirtioDisk.env] at hs
    split_ifs at hs with hfree
    cases hs
    exact hi.relock fun j hc => nomatch hfree.symm.trans hc.2
  | unlock i b =>
    simp only [VirtioDisk.env] at hs
    split_ifs at hs with hfree
    cases hs
    exact hi.relock fun j hc => nomatch hfree.2.symm.trans hc.1

lemma Inv.step {a : MAct ι (VirtioIn B) (VirtioEnv ι B)} (hi : Inv m)
    (hlock : Mon.LockInv (client ι B) m) (hs : Mon.Moves (client ι B) m a m') : Inv m' := by
  have hpt : ∀ {i : ι} {c : MLoc (VirtioLoc B)}, m.loc i = c → pt m i = c.point := by
    rintro i c hc
    rw [pt, hc]
  cases hs with
  | @acquire i l l' x hl hc hlk =>
    obtain ⟨rfl, hl'⟩ := code_acquire hc
    have hp := hpt hl
    refine hi.goto rfl ?_ ?_ ?_ ?_ ?_ nofun
    · rcases hl' with ⟨c, rfl⟩ | rfl <;> rw [hp] <;> rfl
    · rcases hl' with ⟨c, rfl⟩ | rfl <;> rw [hp] <;> rfl
    · rcases hl' with ⟨c, rfl⟩ | rfl <;> rw [hp] <;> rfl
    · rw [lag, lag, hlk]
      rcases hl' with ⟨c, rfl⟩ | rfl <;> simp [pt, Mon.setLoc, MLoc.point, VirtioLoc.lag]
    · rcases hl' with ⟨c, rfl⟩ | rfl <;> trivial
  | @release i l l' x hl hc hlk =>
    obtain ⟨rfl, rfl⟩ := code_release hc
    have hp := hpt hl
    refine hi.goto rfl (by rw [hp]; rfl) (by rw [hp]; rfl) (by rw [hp]; rfl) ?_ trivial nofun
    rw [lag, lag, hlk]
    simp [hp, MLoc.point, VirtioLoc.lag]
  | @sleep i l l' x w hl hc hlk =>
    have hp := hpt hl
    have hkn := hi.knows i
    rw [hp] at hkn
    rcases code_sleep hc with ⟨c, rfl, -, rfl⟩ | ⟨ch, rfl, -, rfl⟩
    · refine hi.goto rfl (by rw [hp]; rfl) (by rw [hp]; rfl) (by rw [hp]; rfl) ?_
        ⟨hkn.1, by simp⟩ ?_
      · rw [lag, lag, hlk]
        simp [hp, MLoc.point, VirtioLoc.lag]
      · rintro _ ⟨⟩
        exact .inl ⟨c, rfl⟩
    · refine hi.goto rfl (by rw [hp]; rfl) (by rw [hp]; rfl) (by rw [hp]; rfl) ?_
        ⟨hkn.1, fun hb => ?_⟩ ?_
      · rw [lag, lag, hlk]
        simp [hp, MLoc.point, VirtioLoc.lag]
      · rw [show m.data.bdisk ch.call.b = true from hkn.2] at hb
        cases hb
      · rintro _ ⟨⟩
        exact .inr ⟨ch, rfl⟩
  | @wakeup i l l' x w hl hc =>
    have hp := hpt hl
    have hkn := hi.knows i
    rw [hp] at hkn
    have hlk : m.lk = some i := by
      refine (hlock.owner i).mpr ?_
      rw [hl]
      rcases code_wakeup hc with ⟨c, todo, rfl, -, -⟩ | ⟨c, nxt, own, rfl, -, -⟩ |
        ⟨b, id, rfl, -, -⟩ <;> trivial
    have hlag : l'.lag = l.lag → lag (m.setLoc i (.here l') : VMon ι B) = lag m := by
      intro he
      simp only [lag, Mon.setLoc, hlk, hp]
      simp only [pt, update_self]
      exact he
    rcases code_wakeup hc with ⟨c, todo, rfl, -, rfl⟩ | ⟨c, nxt, own, rfl, -, rfl⟩ |
      ⟨b, id, rfl, -, rfl⟩
    · exact hi.goto rfl (by rw [hp]; rfl) (by rw [hp]; rfl) (by rw [hp]; rfl) (hlag rfl) hkn nofun
    · obtain ⟨hserved, hhead, hlinks⟩ := hkn
      cases nxt with
      | some k =>
        exact hi.goto rfl (by rw [hp]; rfl) (by rw [hp]; rfl) (by rw [hp]; rfl) (hlag rfl)
          ⟨hserved, hhead, hlinks⟩ nofun
      | none =>
        obtain rfl : own = [] := head?_eq_none_iff.mp hhead
        exact hi.goto rfl (by rw [hp]; rfl) (by rw [hp]; rfl) (by rw [hp]; rfl) (hlag rfl)
          hserved nofun
    · exact hi.goto rfl (by rw [hp]; rfl) (by rw [hp]; rfl) (by rw [hp]; rfl)
        (hlag rfl) trivial nofun
  | killed hl hc => exact absurd hc code_killed
  | act hl hc hf => exact hi.act hlock hl (code_act hc hf) rfl
  | @resume i l hl hlk =>
    have hp := hpt hl
    have hkn := hi.knows i
    rw [hp] at hkn
    refine hi.goto rfl (by rw [hp]; rfl) (by rw [hp]; rfl) (by rw [hp]; rfl) ?_ hkn nofun
    rw [lag, lag, hlk]
    rcases hi.waiting i l hl with ⟨c, rfl⟩ | ⟨ch, rfl⟩ <;>
      simp [pt, Mon.setLoc, MLoc.point, VirtioLoc.lag]
  | kill i =>
    obtain ⟨late, hf⟩ := hi.flight
    exact ⟨hi.bounds, { hi.owned with }, hi.waiting, hi.inCall, hi.knows, hi.slot,
      late, hf.used, hf.nodup, hf.posted, hf.completed, hf.handled⟩
  | env hf => exact hi.env hf

end VirtioDisk

end Xv6
