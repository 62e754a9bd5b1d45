import Xv6.Dev.VirtioInv

/-!
# The disk driver and its device

What the invariant of `Dev/VirtioInv.lean` gives for the driver with `sleep` and `wakeup` as they
are. No statement of the driver panics, and the device never meets a chain that is not a request
(`Inv.no_panic`); the one panic left is the check of the caller that it holds the lock of the
buffer. No wakeup is lost: `wakeSpec` says when the two kinds of channel are ready, `b->disk == 0`
for a buffer, three free descriptors for `&disk.free[0]`.
-/

namespace Xv6.VirtioDisk

open List

variable {ι B : Type} [DecidableEq ι] [DecidableEq B] {m : VMon ι B} {i : ι} {l l' : VirtioLoc B}
  {x : VirtioIn B} {d d' : VirtioDisk ι B} {y : VirtioEnv ι B} {e : VirtioPanic}

lemma freeDesc_next {k : ℕ} (hk : k < NUM) (hf : d.free k = false) :
    d.freeDesc k = .next (d.freed k) := by
  rw [freeDesc, if_neg (by omega), if_neg (by simp [hf])]

lemma Inv.no_panic {f : VirtioDisk ι B → Outcome VirtioPanic (VirtioLoc B × VirtioDisk ι B)}
    (hi : Inv m) (hlock : Mon.LockInv (client ι B) m) (hl : m.loc i = .here l)
    (hc : code i l x = .act f) (hf : f m.data = .panic e) : e = .notHeld := by
  have hpti : pt m i = l := by rw [pt, hl]; rfl
  have hkn := hi.knows i
  rw [hpti] at hkn
  have hheld : ∀ k ∈ l.own, m.data.freeDesc k = .next (m.data.freed k) := by
    intro k hk
    obtain ⟨h1, h2⟩ := hi.owned.held i k (by rw [hpti]; exact hk)
    exact freeDesc_next h1 h2
  cases l with
  | idle => cases x <;> cases hc
  | enter c =>
    cases hc
    dsimp only at hf
    split_ifs at hf
    cases hf
    rfl
  | alloc c got =>
    cases hc
    dsimp only at hf
    split at hf <;> cases hf
  | unalloc c todo =>
    cases todo with
    | nil => cases hc
    | cons j todo =>
      cases hc
      simp only [hheld j (by simp [VirtioLoc.own])] at hf
      cases hf
  | free c k own =>
    cases hc
    have hk : k ∈ own := mem_of_mem_head? hkn.2.1
    simp only [freeTurn, hheld k hk] at hf
    cases hf
  | intr =>
    cases hc
    simp only [intrBody] at hf
    split_ifs at hf with hu hst
    all_goals
      have hlag : lag m = [] := by
        rw [lag, (hlock.owner i).mpr (by rw [hl]; trivial)]
        simp [hpti, VirtioLoc.lag]
      obtain ⟨late, hfl⟩ := hi.next_used hlag hu
      obtain ⟨r, ch, hr, hch, -, -, hstatus⟩ := hfl.completed _ (mem_append_right _
        (mem_cons_self ..))
    · exact absurd hstatus hst
    · have hinfo := (hi.formatted_of_posted hr).info
      rw [hch] at hinfo
      rw [hinfo] at hf
      cases hf
  | unallocWake | await | freeWake | exit | intrWake => cases hc
  | format | post | bump | wait | finish | done | intrNext =>
    cases hc
    cases hf

lemma Inv.env_no_panic (hi : Inv m) : VirtioDisk.env y m.data ≠ .panic e := by
  intro hs
  cases y with
  | complete h =>
    simp only [VirtioDisk.env] at hs
    split_ifs at hs with hh
    obtain ⟨d'', hd'', -⟩ := hi.complete hh.1 hh.2
    rw [hd''] at hs
    cases hs
  | _ =>
    simp only [VirtioDisk.env] at hs
    split_ifs at hs

/-! ## No lost wakeup -/

/-- Nobody may sleep on the channel. -/
def ready (d : VirtioDisk ι B) : VirtioChan B → Prop
  | .buf b => d.bdisk b = false
  | .free => 3 ≤ d.freeCount

/-- Nobody sleeps on the channel while the lock is held here. -/
def quiet : VirtioLoc B → VirtioDisk ι B → VirtioChan B → Prop
  | .intrWake b _, d, w => w ≠ .buf b ∧ d.ready w
  | .unallocWake _ _, d, .free => 4 ≤ d.freeCount
  | .freeWake _ _ _, d, .free => 4 ≤ d.freeCount
  | _, d, w => d.ready w

variable {w : VirtioChan B}

lemma ready_congr (hb : d'.bdisk = d.bdisk) (hf : d'.free = d.free) : d'.ready w ↔ d.ready w := by
  cases w with
  | buf b => rw [ready, ready, hb]
  | free => rw [ready, ready, freeCount, freeCount, hf]

lemma quiet_congr (hb : d'.bdisk = d.bdisk) (hf : d'.free = d.free) :
    quiet l d' w ↔ quiet l d w := by
  have hcount : d'.freeCount = d.freeCount := by rw [freeCount, freeCount, hf]
  have hready : d'.ready w ↔ d.ready w := ready_congr hb hf
  cases l with
  | intrWake b id => simp only [quiet, hready]
  | unallocWake | freeWake =>
    cases w with
    | buf b => exact hready
    | free => simp only [quiet, hcount]
  | _ => exact hready

lemma env_keeps (hs : env y d = .next d') : d'.bdisk = d.bdisk ∧ d'.free = d.free := by
  cases y with
  | complete h =>
    simp only [env, VirtioDisk.complete] at hs
    split_ifs at hs
    split at hs
    · split_ifs at hs
      cases hs
      exact ⟨rfl, rfl⟩
    · cases hs
  | _ =>
    simp only [env] at hs
    split_ifs at hs
    cases hs
    exact ⟨rfl, rfl⟩

/-- No statement makes a channel ready without a `wakeup` to follow. -/
lemma Inv.quiet_of_acts (hi : Inv m) (hl : pt m i = l)
    (ha : Acts i m.data l l' d') (hq : quiet l' d' w) : quiet l m.data w := by
  have hkn := hi.knows i
  rw [hl] at hkn
  have hfreed : ∀ k ∈ l.own, (m.data.freed k).freeCount = m.data.freeCount + 1 := by
    intro k hk
    obtain ⟨h1, h2⟩ := hi.owned.held i k (by rw [hl]; exact hk)
    exact freeCount_freed h1 h2
  cases ha with
  | @alloc c got k hk =>
    have hq' : VirtioDisk.ready { m.data with free := Function.update m.data.free k false } w := by
      unfold afterAlloc at hq
      split at hq <;> exact hq
    cases w with
    | buf b => exact hq'
    | free => exact le_trans hq' (freeCount_le rfl)
  | @unalloc c j todo =>
    cases w with
    | buf b => exact hq
    | free =>
      have hq' : 4 ≤ (m.data.freed j).freeCount := hq
      rw [hfreed j (by simp [VirtioLoc.own])] at hq'
      show 3 ≤ m.data.freeCount
      omega
  | @free c k own =>
    cases w with
    | buf b => exact hq
    | free =>
      have hq' : 4 ≤ (m.data.freed k).freeCount := hq
      rw [hfreed k (mem_of_mem_head? hkn.2.1)] at hq'
      show 3 ≤ m.data.freeCount
      omega
  | @format ch =>
    cases w with
    | buf b =>
      have hq' : Function.update m.data.bdisk ch.call.b true b = false := hq
      by_cases hb : b = ch.call.b
      · simp [hb] at hq'
      · rwa [Function.update_of_ne hb] at hq'
    | free => exact hq
  | @intr b hu hb =>
    obtain ⟨hne, hq'⟩ := hq
    cases w with
    | buf b' =>
      have hq'' : Function.update m.data.bdisk b false b' = false := hq'
      rwa [Function.update_of_ne fun he => hne (by rw [he])] at hq''
    | free => exact hq'
  | _ => exact hq

/-- Why no wakeup is lost. -/
def wakeSpec (ι B : Type) [DecidableEq ι] [DecidableEq B] :
    WakeSpec (client ι B) (fun m => Inv m) (fun _ _ => True) where
  ready := fun w d => d.ready w
  quiet := fun _ l d w => quiet l d w
  acquire := by
    intro m i l x l' w _ _ hc hq
    obtain ⟨-, ⟨c, rfl⟩ | rfl⟩ := code_acquire hc <;> exact hq
  resume := by
    intro m i l w hi hl hq
    rcases hi.waiting i l hl with ⟨c, rfl⟩ | ⟨ch, rfl⟩ <;> exact hq
  release := by
    intro m i l x l' w _ _ hc hr
    obtain ⟨rfl, -⟩ := code_release hc
    exact hr
  sleep := by
    intro m i l x w l' w' hi hl hc hr
    have hkn := hi.knows i
    rw [pt, hl] at hkn
    rcases code_sleep hc with ⟨c, rfl, rfl, -⟩ | ⟨ch, rfl, rfl, -⟩
    · refine ⟨?_, hr⟩
      rintro rfl
      have h₁ : m.data.freeCount + 0 < 3 := hkn.2
      have h₂ : 3 ≤ m.data.freeCount := hr
      exact h₂.not_gt h₁
    · refine ⟨?_, hr⟩
      rintro rfl
      have h₁ : m.data.bdisk ch.call.b = true := hkn.2
      have h₂ : m.data.bdisk ch.call.b = false := hr
      rw [h₁] at h₂
      cases h₂
  wakeup := by
    intro m i l x w l' w' _ _ hc hq
    rcases code_wakeup hc with ⟨c, todo, rfl, rfl, rfl⟩ | ⟨c, nxt, own, rfl, rfl, rfl⟩ |
      ⟨b, id, rfl, rfl, rfl⟩
    · cases w' with
      | buf b => exact .inl hq
      | free => exact .inr rfl
    · cases w' with
      | buf b => cases nxt <;> exact .inl hq
      | free => exact .inr rfl
    · by_cases hw : w' = .buf b
      · exact .inr hw
      · exact .inl ⟨hw, hq⟩
  killed := by
    intro m i l x yes no w _ _ _ hc
    exact absurd hc code_killed
  act := by
    intro m i l x f l' d' w hi hl hc hf hq
    exact hi.quiet_of_acts (by rw [pt, hl]; rfl) (code_act hc hf) hq
  env := by
    intro y d d' w hs
    obtain ⟨hb, hf⟩ := env_keeps hs
    exact ⟨(ready_congr hb hf).mp, fun i l => (quiet_congr hb hf).mp⟩

/-! ## The whole system -/

/-- Any number of threads on one disk. -/
abbrev Sys (ι B : Type) := SW ι (VirtioChan B) (VirtioLoc B) (VirtioDisk ι B) (VirtioIn B)

/-- After `virtio_disk_init`: all descriptors are free, the rings are empty, and no thread is in the
driver. -/
structure Initial (s : Sys ι B) : Prop where
  lk : s.lk = none
  state : ∀ i, s.state i = .running
  pc : ∀ i, s.pc i = .here .idle
  free : ∀ k, k < NUM → s.data.free k = true
  idx : s.data.avail.idx = 0 ∧ s.data.used.idx = 0 ∧ s.data.usedIdx = 0
  dev : s.data.dev = ⟨0, [], none⟩

lemma Initial.sw {s : Sys ι B} (h : Initial s) : SW.Initial (client ι B) s :=
  ⟨h.lk, h.state, fun i => ⟨.idle, h.pc i, id⟩⟩

lemma Initial.inv {s : Sys ι B} (h : Initial s) : Inv s.proj := by
  have hpt : ∀ i, pt s.proj i = .idle := fun i => by
    simp [pt, SW.proj, h.pc i, SW.locOf, MLoc.point]
  have hdata : s.proj.data = s.data := rfl
  obtain ⟨h1, h2, h3⟩ := h.idx
  refine ⟨?_, ⟨?_, ?_, ?_, ?_⟩, ?_, ?_, ?_, ?_, [], ?_, ?_, ?_, ?_, ?_⟩
  · rw [hdata]
    refine ⟨?_, ?_, ?_, ?_⟩ <;> simp [h.dev, h1, h2, h3]
  · intro i
    simp [hpt, VirtioLoc.own]
  · intro i j k hk
    simp [hpt, VirtioLoc.own] at hk
  · intro i k hk
    simp [hpt, VirtioLoc.own] at hk
  · intro k hk hf
    rw [hdata, h.free k hk] at hf
    cases hf
  · intro i l hl
    simp [SW.proj, h.pc i, SW.locOf] at hl
  · intro i b hb
    simp [hpt, VirtioLoc.buf?] at hb
  · intro i
    rw [hpt]
    trivial
  · rw [hdata, h.dev]
    simp
  · rw [hdata, usedQ, h2, h3, lag, show s.proj.lk = none from h.lk]
    rfl
  · rw [hdata, queued, availQ, h.dev, h1, lag, show s.proj.lk = none from h.lk]
    exact nodup_nil
  · rw [hdata, availQ, h.dev, h1]
    rintro _ ⟨⟩
  · rw [hdata, h.dev]
    simp
  · rw [lag, show s.proj.lk = none from h.lk]
    simp

/-- The control point of a thread. -/
def atLoc (s : Sys ι B) (i : ι) : VirtioLoc B := pt s.proj i

/-- **The disk driver.**  After any run of any number of calls, interrupts and device steps:

* a descriptor is free and belongs to no thread, or it is not free and belongs to exactly one; when
  `vdisk_lock` is free, what a thread owns is nothing or the three distinct descriptors of the
  request that it waits for, set up as the device expects them;
* the entry of the avail ring that `virtio_disk_rw` is about to write is none of those the device
  has not taken, and the entry of the used ring that the device is about to write is none of those
  `virtio_disk_intr` has not seen;
* no step panics, but for the check that the buffer is locked; so `virtio_disk_intr` finds the
  status 0 and a buffer, and `free_desc` does not panic;
* a `virtio_disk_rw` that is about to return has had its own request completed, and nothing else,
  for its buffer;
* when `vdisk_lock` is free, nobody sleeps on a buffer with `b->disk == 0`, nor on `&disk.free[0]`
  while three descriptors are free. -/
theorem virtio_protocol {table : List ι} (htable : ∀ i, i ∈ table) {s0 s : Sys ι B}
    {as : List (SWAct ι (VirtioIn B) (VirtioEnv ι B))} (h0 : Initial s0)
    (hrun : Run (SW.step (client ι B) table) s0 as s) :
    (∀ k, k < NUM → (s.data.free k = true ∧ ∀ i, k ∉ (atLoc s i).own) ∨
      (s.data.free k = false ∧ ∃! i, k ∈ (atLoc s i).own)) ∧
    (s.lk = none → ∀ i, (atLoc s i).own = [] ∨ ∃ ch, atLoc s i = .wait ch ∧
      [ch.i0, ch.i1, ch.i2].Nodup ∧ s.data.Formatted ch) ∧
    (∀ i ch, atLoc s i = .post ch → ∀ n < Ring.used IDX s.data.dev.seen s.data.avail.idx,
      (s.data.dev.seen + n) % NUM ≠ s.data.avail.idx % NUM) ∧
    (∀ h ∈ s.data.dev.taken, s.data.dev.writing = none →
      ∀ n < Ring.used IDX s.data.usedIdx s.data.used.idx,
        (s.data.usedIdx + n) % NUM ≠ s.data.used.idx % NUM) ∧
    (∀ a e, SW.step (client ι B) table s a = .panic e → e = .notHeld) ∧
    (∀ i c, atLoc s i = .done c → s.data.served c.b = [c]) ∧
    (s.lk = none → ∀ i, s.state i = .sleeping →
      (∀ b, s.chan i = some (.buf b) → s.data.bdisk b = true) ∧
      (s.chan i = some .free → s.data.freeCount < 3)) := by
  have hall : RunOf (SW.step (client ι B) table) (SW.Allowed (client ι B) fun _ _ => True)
      s0 as s :=
    hrun.toRunOf.mono fun _ _ _ _ _ => trivial
  have hstep : ∀ m a m', Inv m → Mon.LockInv (client ι B) m → True →
      Mon.Moves (client ι B) m a m' → Inv m' := fun m a m' hi hlock _ hm => hi.step hlock hm
  obtain ⟨-, hlock, hi⟩ := SW.mon_invariant hstep h0.sw h0.inv hall
  refine ⟨fun k hk => ?_, fun hfree i => ?_, fun i ch hp n hn => ?_, fun h hh hw n hn => ?_,
    fun a e hs => ?_, fun i c hp => ?_, fun hfree i hsl => ⟨fun b hb => ?_, fun hc => ?_⟩⟩
  · cases hf : s.data.free k with
    | true =>
      refine .inl ⟨rfl, fun i hki => ?_⟩
      have : s.data.free k = false := (hi.owned.held i k hki).2
      rw [hf] at this
      cases this
    | false =>
      obtain ⟨i, hki⟩ := hi.owned.cover k hk hf
      exact .inr ⟨rfl, i, hki, fun j hkj => hi.owned.disjoint j i k hkj hki⟩
  · -- with the lock free, a thread is outside or waits
    have hnot : ¬ Mon.Holds (client ι B) (s.proj.loc i) := by
      rw [← hlock.owner i, show s.proj.lk = none from hfree]
      simp
    cases hc : s.proj.loc i with
    | here l =>
      rw [hc] at hnot
      cases l <;> first | exact absurd trivial hnot | skip
      rw [atLoc, pt, hc]
      exact .inl rfl
    | waiting l =>
      have hkn := hi.knows i
      have hnd := hi.owned.nodup i
      rw [pt, hc] at hkn hnd
      rcases hi.waiting i l hc with ⟨c, rfl⟩ | ⟨ch, rfl⟩
      · rw [atLoc, pt, hc]
        exact .inl rfl
      · exact .inr ⟨ch, by rw [atLoc, pt, hc]; rfl, hnd, hkn.1⟩
  · have hmem : ch.i0 ∈ (pt s.proj i).own := by
      rw [show pt s.proj i = .post ch from hp]
      simp [VirtioLoc.own]
    have hroom := hi.avail_room (hi.owned.held i ch.i0 hmem).1 fun late hf hq =>
      hi.not_in_flight hf hmem (by rw [show pt s.proj i = .post ch from hp]; rfl) (by simp [hq])
    exact Ring.slot_write_ne (by norm_num) hi.bounds.seen hi.bounds.avail hroom hn
  · obtain ⟨late, hf⟩ := hi.flight
    obtain ⟨r, hr⟩ := (hf.posted h (mem_append_right _ hh)) |>.own
    have hnew : h ∉ lag s.proj ++ late := by
      have hnd := hf.nodup
      rw [nodup_append', nodup_append'] at hnd
      obtain ⟨-, ⟨-, -, h₂⟩, h₃⟩ := hnd
      intro hx
      rcases mem_append.mp hx with hx | hx
      · exact h₃ hx (mem_append_left _ (mem_append_right _ hh))
      · exact h₂ (mem_append_right _ hh) (mem_append_right _ hx)
    exact Ring.slot_write_ne (by norm_num) hi.bounds.usedIdx hi.bounds.used
      (hi.used_room hf (hi.owned.held r h hr).1 hnew) hn
  · rcases SW.step_panic hs with ⟨i, x, l, f, hpc, hc, hf⟩ | ⟨y, hy⟩
    · exact hi.no_panic hlock (by simp [SW.proj, hpc, SW.locOf]) hc hf
    · exact absurd hy hi.env_no_panic
  · have hkn := hi.knows i
    rw [show pt s.proj i = .done c from hp] at hkn
    exact hkn
  · by_contra hd
    refine (wakeSpec ι B).no_lost_wakeup htable hstep h0.sw h0.inv hall hfree ?_ i (.inr ⟨hsl, hb⟩)
    exact Bool.eq_false_of_not_eq_true hd
  · by_contra hd
    exact (wakeSpec ι B).no_lost_wakeup htable hstep h0.sw h0.inv hall hfree (c := .free)
      (not_lt.mp hd) i (.inr ⟨hsl, hc⟩)

/-- The disk after `virtio_disk_init`, with one buffer and two threads. -/
def sampleDisk : Sys Bool Unit :=
  .fresh .idle {
    desc := fun _ => ⟨.null, 0, false, false, 0⟩
    avail := ⟨0, fun _ => 0⟩
    used := ⟨0, fun _ => 0⟩
    free := fun _ => true
    usedIdx := 0
    info := fun _ => ⟨none, 0⟩
    ops := fun _ => ⟨false, 0⟩
    bdisk := fun _ => false
    owner := fun _ => none
    dev := ⟨0, [], none⟩
    inCall := fun _ => false
    served := fun _ => [] }

/-- Thread `true` writes block 3 and sleeps until the interrupt that thread `false` handles. -/
def sampleDiskActs : List (SWAct Bool (VirtioIn Unit) (VirtioEnv Bool Unit)) :=
  [.env (.lock true ())] ++ replicate 13 (.run true (.rw () true 3)) ++
    [.env .take, .env (.complete 0), .env .publish] ++ replicate 10 (.run false .intr) ++
    [.dispatch true] ++ replicate 22 (.run true (.rw () true 3))

theorem virtio_protocol_sample :
    ∃ s, Run (SW.step (client Bool Unit) [false, true]) sampleDisk sampleDiskActs s ∧
      atLoc s true = .done ⟨(), true, 6⟩ ∧ s.data.served () = [⟨(), true, 6⟩] := by
  have h0 : Initial sampleDisk :=
    ⟨rfl, fun _ => rfl, fun _ => rfl, fun _ _ => rfl, ⟨rfl, rfl, rfl⟩, rfl⟩
  have hrun : Run (SW.step (client Bool Unit) [false, true]) sampleDisk sampleDiskActs _ :=
    Run.of_exec rfl
  obtain ⟨-, -, -, -, -, hserved, -⟩ := virtio_protocol (by decide) h0 hrun
  exact ⟨_, hrun, rfl, hserved true _ rfl⟩

end Xv6.VirtioDisk
