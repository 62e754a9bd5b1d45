import Xv6.Buf.CacheStep

/-!
# References to buffers

The steps that count: `log_write` pins a buffer and `install_trans` takes the pin back, `bget` takes
a reference, and the second half of `brelse` gives it up and moves the buffer to the front of the
list. At the end, every step of the system keeps the invariant (`Inv.step`).
-/

namespace Xv6.BufSys

open Function DList List

variable {P : Type} {s s' : BufSys P} {p q : P} {b b' : Buf} {d n : ℕ} {l l' : BioLoc}
  {x : BioCall}

/-! ## The pins of the log -/

variable {k : ℕ} {f : ℕ → ℕ}

lemma card_pins_succ {m y : ℕ} (hk : k ≤ m) :
    ((Finset.range (m + 1)).filter fun i => k ≤ i ∧ update f m y i = n).card =
      ((Finset.range m).filter fun i => k ≤ i ∧ f i = n).card + if y = n then 1 else 0 := by
  have hold : (Finset.range m).filter (fun i => k ≤ i ∧ update f m y i = n) =
      (Finset.range m).filter fun i => k ≤ i ∧ f i = n := by
    refine Finset.filter_congr fun i hi => ?_
    rw [update_of_ne (Finset.mem_range.mp hi).ne]
  rw [Finset.range_add_one, Finset.filter_insert, hold, update_self]
  split_ifs with h1 h2 h2
  · rw [Finset.card_insert_of_notMem (by simp)]
  · exact absurd h1.2 h2
  · exact absurd ⟨hk, h2⟩ h1
  · rfl

lemma card_pins_tail {m : ℕ} (hk : k < m) :
    ((Finset.range m).filter fun i => k ≤ i ∧ f i = n).card =
      ((Finset.range m).filter fun i => k + 1 ≤ i ∧ f i = n).card + if f k = n then 1 else 0 := by
  split_ifs with hn
  · have hset : (Finset.range m).filter (fun i => k ≤ i ∧ f i = n) =
        insert k ((Finset.range m).filter fun i => k + 1 ≤ i ∧ f i = n) := by
      ext i
      simp only [Finset.mem_filter, Finset.mem_range, Finset.mem_insert]
      constructor
      · rintro ⟨h1, h2, h3⟩
        by_cases hik : i = k
        · exact .inl hik
        · exact .inr ⟨h1, by omega, h3⟩
      · rintro (rfl | ⟨h1, h2, h3⟩)
        · exact ⟨hk, le_rfl, hn⟩
        · exact ⟨h1, by omega, h3⟩
    rw [hset, Finset.card_insert_of_notMem (by simp)]
  · rw [add_zero]
    refine congrArg Finset.card (Finset.filter_congr fun i _ => ⟨?_, ?_⟩)
    · rintro ⟨h1, h2⟩
      refine ⟨?_, h2⟩
      by_contra hlt
      obtain rfl : i = k := by omega
      exact hn h2
    · rintro ⟨h1, h2⟩
      exact ⟨by omega, h2⟩

/-- A `log_write` that returns: an operation is outstanding, and only the reference counts of the
cache may change. -/
lemma logWrite_next (hs : s.logWrite b = .next s') : 1 ≤ s.log.outstanding ∧
      s'.log = { s.log with lh := LogSys.logAbsorb s.log.lh (s.cache.blockno b) } ∧
      s'.cache = (if (LogSys.logSlot s.log.lh (s.cache.blockno b) : ℤ) = s.log.lh.n then
        s.cache.addRef b 1 else s.cache) ∧
      s'.dirty = update s.dirty b false ∧ s'.pc = s.pc ∧ s'.disk = s.disk ∧
      s'.stored = s.stored ∧ s'.pins = s.pins ∧ s'.logDev = s.logDev ∧
      s'.installed = s.installed := by
  rw [BufSys.logWrite] at hs
  by_cases hbig : s.log.lh.n ≥ LOGBLOCKS
  · rw [if_pos hbig] at hs
    cases hs
  by_cases hout : s.log.outstanding < 1
  · rw [if_neg hbig, if_pos hout] at hs
    cases hs
  rw [if_neg hbig, if_neg hout] at hs
  injection hs with hs
  subst hs
  exact ⟨by omega, rfl, rfl, rfl, rfl, rfl, rfl, rfl, rfl, rfl⟩

/-- While an operation is outstanding nothing is being committed, so nothing is installed. -/
lemma Inv.idle_of_outstanding (hi : s.Inv) (hout : 1 ≤ s.log.outstanding) :
    s.log.committing = false ∧ s.installed = 0 := by
  have hcom : s.log.committing = false := by
    by_contra hx
    have := hi.commits.outstanding (by simpa using hx)
    omega
  exact ⟨hcom, hi.commits.idle hcom⟩

/-- `log_write` counts the reference it takes among the pins of the log. -/
lemma Inv.logWrite_refs (hi : s.Inv) (hb : s.cache.lock b = some p)
    (hdev : s.cache.dev b = s.logDev) (hs : s.logWrite b = .next s') (b' : Buf) :
    s'.cache.refcnt b' - s'.logPins b' = s.cache.refcnt b' - s.logPins b' := by
  obtain ⟨hout, hlog, hcache, -, -, -, -, -, hld, hinst⟩ := logWrite_next hs
  have hins := (hi.idle_of_outstanding hout).2
  have hn := hi.commits.nonneg
  rcases LogSys.logAbsorb_cases hn (s.cache.blockno b) with ⟨hne, hsame, -⟩ | ⟨heq, hn', hblk, -⟩
  · rw [if_neg hne] at hcache
    simp only [logPins, hcache, hlog, hsame, hld, hinst]
  · rw [if_pos heq] at hcache
    simp only [logPins, hcache, hlog, hn', hblk, hld, hinst]
    have hcard := card_pins_succ (n := s.cache.blockno b') (f := s.log.lh.block)
      (m := s.log.lh.n.toNat) (k := s.installed) (y := s.cache.blockno b) (by omega)
    have hto : (s.log.lh.n + 1).toNat = s.log.lh.n.toNat + 1 := by omega
    rw [addRef_apply, hto]
    show _ - ((if s.cache.dev b' = s.logDev then _ else 0 : ℕ) : ℤ) = _
    split_ifs with h1 h2 h2
    · rw [h1] at hcard ⊢
      rw [show (s.cache.addRef b 1).blockno = s.cache.blockno from rfl, hcard, if_pos rfl]
      push_cast
      ring
    · exact absurd (h1 ▸ hdev) h2
    · have hne : s.cache.blockno b ≠ s.cache.blockno b' := by
        intro he
        exact h1 (hi.coherent.unique b b' (hi.dev_ne_zero hb) (hdev.trans h2.symm) he).symm
      rw [show (s.cache.addRef b 1).blockno = s.cache.blockno from rfl, hcard, if_neg hne]
      simp
    · simp

lemma Inv.logWrite_logged (hi : s.Inv) (hdev : s.cache.dev b = s.logDev)
    (hs : s.logWrite b = .next s') (d n : ℕ) :
    s'.Logged d n ↔ s.Logged d n ∨ (d = s.cache.dev b ∧ n = s.cache.blockno b) := by
  obtain ⟨hout, hlog, -, -, -, -, -, -, hld, hinst⟩ := logWrite_next hs
  have hins := (hi.idle_of_outstanding hout).2
  have hn := hi.commits.nonneg
  rw [hdev]
  rcases LogSys.logAbsorb_cases hn (s.cache.blockno b) with
    ⟨-, hsame, i, hi1, hi2⟩ | ⟨-, hn', hblk, -⟩
  · simp only [Logged, hlog, hsame, hld, hinst]
    constructor
    · exact .inl
    · rintro (h | ⟨rfl, rfl⟩)
      · exact h
      · exact ⟨rfl, i, by omega, hi1, hi2⟩
  · simp only [Logged, hlog, hn', hblk, hld, hinst, hins]
    constructor
    · rintro ⟨hd, i, h1, h2, h3⟩
      by_cases hin : i = s.log.lh.n.toNat
      · rw [hin, update_self] at h3
        exact .inr ⟨hd, h3.symm⟩
      · rw [update_of_ne hin] at h3
        exact .inl ⟨hd, i, h1, by omega, h3⟩
    · rintro (⟨hd, i, h1, h2, h3⟩ | ⟨rfl, rfl⟩)
      · exact ⟨hd, i, h1, by omega, by rw [update_of_ne (by omega)]; exact h3⟩
      · exact ⟨rfl, s.log.lh.n.toNat, by omega, by omega, update_self ..⟩

/-- **`log_write`**: the buffer is pinned, once for each block in the header. -/
lemma Inv.logWrite (hi : s.Inv) (hpc : s.pc p = .here .user) (hb : s.cache.lock b = some p)
    (hdev : s.cache.dev b = s.logDev) (hs : s.logWrite b = .next s') : s'.Inv := by
  obtain ⟨hout, hlog, hcache, hdirty, hspc, hdisk, hstored, hpins, hld, hinst⟩ := logWrite_next hs
  have huser := hi.commits.all_user (hi.idle_of_outstanding hout).1
  have hv := hi.valid_of_lock hpc hb
  have hlogged := hi.logWrite_logged hdev hs
  obtain ⟨hscom, hsout⟩ : s'.log.committing = s.log.committing ∧
      s'.log.outstanding = s.log.outstanding := by
    rw [hlog]
    exact ⟨rfl, rfl⟩
  obtain ⟨hcdev, hno, hvalid, hlock, hdata, hlk⟩ : s'.cache.dev = s.cache.dev ∧
      s'.cache.blockno = s.cache.blockno ∧ s'.cache.valid = s.cache.valid ∧
      s'.cache.lock = s.cache.lock ∧ s'.cache.data = s.cache.data ∧
      s'.cache.links = s.cache.links := by
    rw [hcache]
    split_ifs <;> exact ⟨rfl, rfl, rfl, rfl, rfl, rfl⟩
  have hn' : 0 ≤ s'.log.lh.n := by
    have hn := hi.commits.nonneg
    rw [hlog]
    rcases LogSys.logAbsorb_cases hn (s.cache.blockno b) with ⟨-, hsame, -⟩ | ⟨-, hn', -⟩
    · simpa only [hsame] using hn
    · simp only [hn']
      omega
  have hf : Frame s s' p := by
    refine ⟨fun q _ => by rw [hspc], fun q b' hq h => ⟨by rw [hlock, h], by rw [hvalid], ?_,
      by rw [hdisk], by rw [hstored]⟩, fun b' _ => ⟨by rw [hcdev], by rw [hno]⟩,
      fun q _ hx => absurd (huser q) hx, hld⟩
    rw [hdirty, update_of_ne (ne_of_lock hb hq h)]
  refine ⟨⟨?_, ?_, ?_, fun d n hd => ?_, fun d n hd => ?_, fun b' hd => ?_⟩, ⟨?_, ?_, ?_, ?_, ?_,
    hn'⟩, fun b' => ?_, ?_, hi.pcOk_of hf ?_⟩
  · rw [hlk]
    exact hi.coherent.list
  · rw [hcdev, hno]
    exact hi.coherent.unique
  · rw [hvalid, hcdev, hno, hdata, hstored]
    exact hi.coherent.valid
  · rw [hdisk, hstored] at hd
    obtain ⟨b', h1, h2, h3, h4⟩ := hi.coherent.disk d n hd
    refine ⟨b', by rw [hcdev, h1], by rw [hno, h2], by rw [hvalid, h3], ?_⟩
    rw [hlogged, hdirty]
    rcases h4 with h4 | h4
    · exact .inl (.inl h4)
    · by_cases hbb : b' = b
      · subst hbb
        exact .inl (.inr ⟨h1.symm, h2.symm⟩)
      · exact .inr ((update_of_ne hbb ..).trans h4)
  · rw [hcdev, hno, hvalid]
    rcases (hlogged d n).mp hd with h | ⟨rfl, rfl⟩
    · exact hi.coherent.logged d n h
    · exact ⟨b, rfl, rfl, hv⟩
  · rw [hlock]
    rw [hdirty] at hd
    by_cases hbb : b' = b
    · rw [hbb, hb]
      simp
    · rw [update_of_ne hbb] at hd
      exact hi.coherent.dirty b' hd
  · rw [hspc, hscom]
    exact hi.commits.committing
  · rw [hspc]
    exact hi.commits.alone
  · rw [hscom, hsout]
    exact hi.commits.outstanding
  · rw [hscom, hinst]
    exact hi.commits.idle
  · rw [hld]
    exact hi.commits.logDev
  · obtain ⟨k, hk, heq⟩ := hi.count b'
    refine ⟨k, by rw [hspc]; exact hk, ?_⟩
    rw [hlock, hpins]
    have := hi.logWrite_refs hb hdev hs b'
    omega
  · rw [hlock, hvalid, hspc]
    exact hi.held
  · rw [hspc, hpc]
    exact locOk_user

variable [DecidableEq P]

/-- `install_trans` takes back the pin of a block that is on the disk. -/
lemma Inv.unpinLogged {t : ℕ} {lb : Buf} (hi : s.Inv) (hpc : s.pc p = .here (.instUnpin t lb b)) :
    ({ s with cache := s.cache.addRef b (-1), installed := t + 1 }.setPc p
      (.here (.instRelLog t lb b))).Inv := by
  set s' := { s with cache := s.cache.addRef b (-1), installed := t + 1 }.setPc p
    (.here (.instRelLog t lb b))
  have hpc' : s'.pc = update s.pc p (.here (.instRelLog t lb b)) := rfl
  have hp : s.LocOk p (.instUnpin t lb b) := hi.pcOk_eq hpc
  obtain ⟨hins, hlt⟩ : s.installed = t ∧ (t : ℤ) < s.log.lh.n := hp.stage
  obtain ⟨hdev, hno⟩ := hp.home (t, b) rfl
  have hclean : s.disk s.logDev (s.log.lh.block t) = s.stored s.logDev (s.log.lh.block t) :=
    hp.unpin (t, b) rfl
  have hlock : s.cache.lock b = some p := (hp.own b (by simp [BioLoc.clean])).1
  have halone : ∀ q, q ≠ p → (s.pc q).loc = .user := by
    intro q hq
    by_contra hx
    exact hq (hi.commits.alone q p hx (by rw [loc_here hpc]; simp))
  have hlogged : ∀ d n, s'.Logged d n → s.Logged d n := by
    rintro d n ⟨hd, i, h1, h2, h3⟩
    have h1' : t + 1 ≤ i := h1
    exact ⟨hd, i, by omega, h2, h3⟩
  have hf : Frame s s' p :=
    ⟨fun q hq => update_of_ne hq .., fun q b' _ h => ⟨h, rfl, rfl, rfl, rfl⟩,
      fun _ _ => ⟨rfl, rfl⟩, fun q hq hx => absurd (halone q hq) hx, rfl⟩
  refine ⟨⟨hi.coherent.list, hi.coherent.unique, hi.coherent.valid, fun d n hd => ?_,
    fun d n h => hi.coherent.logged d n (hlogged d n h), hi.coherent.dirty⟩, ?_, fun b' => ?_, ?_,
    hi.pcOk_of hf ?_⟩
  · obtain ⟨b', h1, h2, h3, h4⟩ := hi.coherent.disk d n hd
    refine ⟨b', h1, h2, h3, h4.imp ?_ id⟩
    rintro ⟨hd', i, g1, g2, g3⟩
    refine ⟨hd', i, ?_, g2, g3⟩
    show t + 1 ≤ i
    by_contra hlt'
    obtain rfl : i = t := by omega
    rw [hd', ← g3] at hd
    exact hd hclean
  · refine hi.commits.stay (p := p) (c := .here (.instRelLog t lb b)) rfl
      (fun _ => by rw [loc_here hpc]; simp) rfl (fun h => ?_) rfl
    have hcom := hi.commits.committing p (by rw [loc_here hpc]; simp)
    have h' : s.log.committing = false := h
    rw [hcom] at h'
    cases h'
  · refine hi.count_of (p := p) (c := .here (.instRelLog t lb b)) rfl (ref_here hpc).symm b' ?_
    show (s.cache.addRef b (-1)).refcnt b' - (if (s.cache.lock b').isSome then 1 else 0) -
      s'.logPins b' - s.pins b' = _
    have hcard := card_pins_tail (n := s.cache.blockno b') (f := s.log.lh.block)
      (m := s.log.lh.n.toNat) (k := t) (by omega)
    have hpins : (s.logPins b' : ℤ) = s'.logPins b' + if b' = b then 1 else 0 := by
      simp only [logPins, hins]
      show ((if s.cache.dev b' = s.logDev then _ else 0 : ℕ) : ℤ) =
        (if s.cache.dev b' = s.logDev then (Finset.filter (fun i => t + 1 ≤ i ∧
          s.log.lh.block i = s.cache.blockno b') (Finset.range s.log.lh.n.toNat)).card
            else 0 : ℕ) + _
      rw [hcard]
      split_ifs with h1 h2 h3 h3 h3
      · simp
      · exact absurd (hi.coherent.unique b b' (hi.dev_ne_zero hlock) (hdev.trans h1.symm)
          (hno.trans h2)).symm h3
      · exact absurd (by rw [h3, hno]) h2
      · simp
      · exact absurd (h3 ▸ hdev) h1
      · simp
    rw [addRef_apply, hpins]
    split_ifs <;> ring
  · exact hi.held_of hpc (c := .here (.instRelLog t lb b)) rfl (fun _ _ h => h) fun _ _ _ h => h
  · rw [hpc', update_self]
    exact ⟨hp.own, hp.wet, hp.nodup, by simp [BioLoc.home], by simp [BioLoc.unpins], rfl⟩

/-! ## `bget` -/

/-- A loop over the list looks at the buffers in its order. -/
lemma find_eq {k : Links BufNode} {bs : List Buf} (hc : Circ k none (bs.map some))
    (f : Buf → Bool) : Bcache.find k f = .next (bs.find? f) := by
  have hnd : bs.Nodup := (nodup_cons.mp hc.nodup).2.of_map
  have hlen : (bs.map some).length ≤ NBUF := by
    rw [length_map]
    exact hnd.length_le_card.trans (Fintype.card_fin NBUF).le
  have hfun : (Bcache.onBuf f ∘ some) = f := rfl
  rw [Bcache.find, hc.scan hlen, find?_map, hfun]
  cases bs.find? f <;> rfl

/-- What `bget` finds: the buffer of the block, or, if there is none, one that is not used. -/
lemma Coherent.bget (h : s.Coherent) {c : Bcache P} (hs : s.cache.bget d n = .next (b, c)) :
    (s.cache.dev b = d ∧ s.cache.blockno b = n ∧ c = s.cache.addRef b 1) ∨
    ((∀ b', ¬ (s.cache.dev b' = d ∧ s.cache.blockno b' = n)) ∧ s.cache.refcnt b = 0 ∧
      c = s.cache.recycle b d n) := by
  obtain ⟨bs, hc, hall⟩ := h.list
  have hrev : Circ s.cache.links.swap none (bs.reverse.map some) := by
    rw [map_reverse]
    exact hc.swap
  rw [Bcache.bget, find_eq hc, find_eq hrev] at hs
  cases hf : bs.find? (fun b => s.cache.dev b = d && s.cache.blockno b = n) with
  | some b' =>
    rw [hf] at hs
    cases hs
    have hp := find?_some hf
    simp only [Bool.and_eq_true, decide_eq_true_eq] at hp
    exact .inl ⟨hp.1, hp.2, rfl⟩
  | none =>
    rw [hf] at hs
    rw [find?_eq_none] at hf
    cases hg : bs.reverse.find? (fun b => s.cache.refcnt b = 0) with
    | some b' =>
      rw [hg] at hs
      cases hs
      refine .inr ⟨fun b' hb' => hf b' (hall b') ?_, ?_, rfl⟩
      · simp [hb'.1, hb'.2]
      · simpa using find?_some hg
    | none =>
      rw [hg] at hs
      cases hs

/-- `bget` panics when every buffer is used and none is for the block; its loops end. -/
lemma Coherent.bget_panic (h : s.Coherent) {e : BufPanic} :
    s.cache.bget d n = .panic e ↔ e = .noBuffers ∧
      (∀ b, ¬ (s.cache.dev b = d ∧ s.cache.blockno b = n)) ∧ ∀ b, s.cache.refcnt b ≠ 0 := by
  obtain ⟨bs, hc, hall⟩ := h.list
  have hrev : Circ s.cache.links.swap none (bs.reverse.map some) := by
    rw [map_reverse]
    exact hc.swap
  rw [Bcache.bget, find_eq hc, find_eq hrev]
  cases hf : bs.find? (fun b => s.cache.dev b = d && s.cache.blockno b = n) with
  | some b' =>
    have hp := find?_some hf
    simp only [Bool.and_eq_true, decide_eq_true_eq] at hp
    simp only [reduceCtorEq, false_iff]
    exact fun hno => hno.2.1 b' hp
  | none =>
    rw [find?_eq_none] at hf
    have hno : ∀ b, ¬ (s.cache.dev b = d ∧ s.cache.blockno b = n) :=
      fun b hb => hf b (hall b) (by simp [hb.1, hb.2])
    cases hg : bs.reverse.find? (fun b => s.cache.refcnt b = 0) with
    | some b' =>
      have hp := find?_some hg
      simp only [reduceCtorEq, false_iff]
      exact fun hno' => hno'.2.2 b' (by simpa using hp)
    | none =>
      rw [find?_eq_none] at hg
      have hused : ∀ b, s.cache.refcnt b ≠ 0 :=
        fun b => by simpa using hg b (mem_reverse.mpr (hall b))
      simp only [Outcome.panic.injEq]
      exact ⟨fun he => ⟨he.symm, hno, hused⟩, fun he => he.1.symm⟩

lemma count_getting {c : BioPc} (hpc : (s.pc p).ref = none) (hc : c.ref = some b)
    (hk : CountIs (fun q => (s.pc q).ref = some b') k) :
    CountIs (fun q => (update s.pc p c q).ref = some b') (k + if b' = b then 1 else 0) := by
  by_cases hbb : b' = b
  · subst hbb
    rw [if_pos rfl]
    refine hk.insert (i := p) (by rw [hpc]; simp) fun q => ?_
    by_cases hq : q = p
    · simp [hq, hc]
    · simp [hq]
  · rw [if_neg hbb, add_zero]
    refine hk.congr fun q => ?_
    by_cases hq : q = p
    · subst hq
      rw [update_self, hc, hpc]
      simp [Ne.symm hbb]
    · rw [update_of_ne hq]

lemma count_dropped {c : BioPc} (hpc : (s.pc p).ref = some b) (hc : c.ref = none)
    (hk : CountIs (fun q => (s.pc q).ref = some b') k) :
    ∃ m, k = m + (if b' = b then 1 else 0) ∧
      CountIs (fun q => (update s.pc p c q).ref = some b') m := by
  by_cases hbb : b' = b
  · subst hbb
    rw [if_pos rfl]
    refine hk.erase (i := p) hpc fun q => ?_
    by_cases hq : q = p
    · simp [hq, hc]
    · simp [hq]
  · refine ⟨k, by rw [if_neg hbb, add_zero], hk.congr fun q => ?_⟩
    by_cases hq : q = p
    · subst hq
      rw [update_self, hc, hpc]
      simp [Ne.symm hbb]
    · rw [update_of_ne hq]

section

variable (hi : s.Inv) (hpc : s.pc p = .here l) (ht : s.Target d n l) (hd : d ≠ 0)
include hi hpc ht hd

lemma Inv.hit (hdev : s.cache.dev b = d) (hno : s.cache.blockno b = n) :
    ({ s with cache := s.cache.addRef b 1 }.setPc p (.getting d n b l)).Inv := by
  have hp : s.LocOk p l := hi.pcOk_eq hpc
  have hf : Frame s ({ s with cache := s.cache.addRef b 1 }.setPc p (.getting d n b l)) p :=
    ⟨fun q hq => update_of_ne hq .., fun q b' _ h => ⟨h, rfl, rfl, rfl, rfl⟩,
      fun _ _ => ⟨rfl, rfl⟩, fun _ _ _ => ⟨rfl, rfl⟩, rfl⟩
  refine ⟨{ hi.coherent with }, ?_, fun b' => ?_, ?_, hi.pcOk_of hf ?_⟩
  · exact hi.commits.stay (p := p) (c := .getting d n b l) rfl
      (by rw [loc_here hpc]; exact fun h => h) rfl hi.commits.idle rfl
  · obtain ⟨k, hk, heq⟩ := hi.count b'
    refine ⟨_, count_getting (ref_here hpc) rfl hk, ?_⟩
    show (s.cache.addRef b 1).refcnt b' = _ + (if (s.cache.lock b').isSome then 1 else 0) +
      s.logPins b' + s.pins b'
    rw [addRef_apply, heq]
    split_ifs <;> push_cast <;> ring
  · exact hi.held_of hpc (c := .getting d n b l) rfl (fun _ _ h => h) fun _ _ _ h => h
  · show PcOk _ p (update s.pc p (.getting d n b l) p)
    rw [update_self]
    exact ⟨{ hp with }, ht, hd, hdev, hno⟩

/-- `bget` of a block that has none: a buffer is recycled that nobody uses. -/
lemma Inv.recycle (hnew : ∀ b', ¬ (s.cache.dev b' = d ∧ s.cache.blockno b' = n))
    (hfree : s.cache.refcnt b = 0) :
    ({ s with cache := s.cache.recycle b d n }.setPc p (.getting d n b l)).Inv := by
  set s' := { s with cache := s.cache.recycle b d n }.setPc p (.getting d n b l) with hs'
  obtain ⟨hlock, href, hlpins, hpins⟩ := hi.unused hfree
  have hp : s.LocOk p l := hi.pcOk_eq hpc
  have hother : ∀ b', b' ≠ b → s'.cache.dev b' = s.cache.dev b' ∧
      s'.cache.blockno b' = s.cache.blockno b' ∧ s'.cache.valid b' = s.cache.valid b' ∧
      s'.cache.refcnt b' = s.cache.refcnt b' := fun b' hb' =>
    ⟨update_of_ne hb' .., update_of_ne hb' .., update_of_ne hb' .., update_of_ne hb' ..⟩
  have hself : s'.cache.dev b = d ∧ s'.cache.blockno b = n ∧ s'.cache.valid b = false ∧
      s'.cache.refcnt b = 1 := ⟨update_self .., update_self ..,
    update_self .., update_self ..⟩
  -- the buffer was not the one of a logged or modified block
  have hkeep : ∀ b', s.Logged (s.cache.dev b') (s.cache.blockno b') ∨ s.dirty b' = true →
      b' ≠ b := by
    rintro b' (h | h) rfl
    · exact logPins_eq_zero_iff.mp hlpins h
    · exact hi.coherent.dirty b' h hlock
  have hnl : ¬ s.Logged d n := by
    intro h
    obtain ⟨b', h1, h2, -⟩ := hi.coherent.logged d n h
    exact hnew b' ⟨h1, h2⟩
  have hne_of_lock : ∀ b' q, s.cache.lock b' = some q → b' ≠ b := by
    rintro b' q h rfl
    rw [hlock] at h
    cases h
  have hf : Frame s s' p := by
    refine ⟨fun q hq => update_of_ne hq .., fun q b' _ h => ⟨h, ?_, rfl, rfl, rfl⟩,
      fun b' hb' => ?_, fun _ _ _ => ⟨rfl, rfl⟩, rfl⟩
    · exact (hother b' (hne_of_lock b' q h)).2.2.1
    · have hbb : b' ≠ b := fun he => hb' (he ▸ hfree)
      exact ⟨(hother b' hbb).1, (hother b' hbb).2.1⟩
  refine ⟨⟨hi.coherent.list, fun b1 b2 h1 h2 h3 => ?_, fun b' hv => ?_, fun d' n' hd' => ?_,
    fun d' n' h => ?_, hi.coherent.dirty⟩, ?_, fun b' => ?_, ?_, hi.pcOk_of hf ?_⟩
  · by_cases hb1 : b1 = b
    · by_cases hb2 : b2 = b
      · rw [hb1, hb2]
      · rw [hb1, hself.1, (hother b2 hb2).1] at h2
        rw [hb1, hself.2.1, (hother b2 hb2).2.1] at h3
        exact absurd ⟨h2.symm, h3.symm⟩ (hnew b2)
    · by_cases hb2 : b2 = b
      · rw [hb2, hself.1, (hother b1 hb1).1] at h2
        rw [hb2, hself.2.1, (hother b1 hb1).2.1] at h3
        exact absurd ⟨h2, h3⟩ (hnew b1)
      · rw [(hother b1 hb1).1] at h1 h2
        rw [(hother b2 hb2).1] at h2
        rw [(hother b1 hb1).2.1, (hother b2 hb2).2.1] at h3
        exact hi.coherent.unique b1 b2 h1 h2 h3
  · have hbb : b' ≠ b := by
      rintro rfl
      rw [hself.2.2.1] at hv
      cases hv
    rw [(hother b' hbb).2.2.1] at hv
    rw [(hother b' hbb).1, (hother b' hbb).2.1]
    exact hi.coherent.valid b' hv
  · obtain ⟨b', h1, h2, h3, h4⟩ := hi.coherent.disk d' n' hd'
    have hbb : b' ≠ b := hkeep b' (by rw [h1, h2]; exact h4)
    exact ⟨b', (hother b' hbb).1.trans h1, (hother b' hbb).2.1.trans h2,
      (hother b' hbb).2.2.1.trans h3, h4⟩
  · obtain ⟨b', h1, h2, h3⟩ := hi.coherent.logged d' n' h
    have hbb : b' ≠ b := hkeep b' (by rw [h1, h2]; exact .inl h)
    exact ⟨b', (hother b' hbb).1.trans h1, (hother b' hbb).2.1.trans h2,
      (hother b' hbb).2.2.1.trans h3⟩
  · exact hi.commits.stay (p := p) (c := .getting d n b l) rfl
      (by rw [loc_here hpc]; exact fun h => h) rfl hi.commits.idle rfl
  · obtain ⟨k, hk, heq⟩ := hi.count b'
    refine ⟨_, count_getting (ref_here hpc) rfl hk, ?_⟩
    show s'.cache.refcnt b' = _ + (if (s.cache.lock b').isSome then 1 else 0) +
      s'.logPins b' + s.pins b'
    by_cases hbb : b' = b
    · subst hbb
      have hk0 : k = 0 := by
        rw [hfree] at heq
        rw [hlock] at heq
        simp only [Option.isSome_none, Bool.false_eq_true, if_false] at heq
        omega
      have hl0 : s'.logPins b' = 0 := by
        rw [logPins_eq_zero_iff, hself.1, hself.2.1]
        exact hnl
      rw [hself.2.2.2, hk0, hl0, hpins, hlock]
      simp
    · have hl : s'.logPins b' = s.logPins b' :=
        logPins_congr (hother b' hbb).1 (hother b' hbb).2.1 rfl rfl rfl
      rw [(hother b' hbb).2.2.2, heq, hl, if_neg hbb, add_zero]
  · exact hi.held_of hpc (c := .getting d n b l) rfl (fun _ _ h => h) fun b' q h hv =>
      (hother b' (hne_of_lock b' q h)).2.2.1.trans hv
  · show PcOk _ p (update s.pc p (.getting d n b l) p)
    rw [update_self]
    refine ⟨⟨fun b' hb' => ?_, fun b' hb' => ?_, hp.nodup, fun e he => ?_, hp.unpin, hp.stage⟩, ht,
      hd, hself.1, hself.2.1⟩
    · obtain ⟨h1, h2, h3⟩ := hp.own b' hb'
      exact ⟨h1, (hother b' (hne_of_lock b' p h1)).2.2.1.trans h2, h3⟩
    · obtain ⟨h1, h2⟩ := hp.wet b' hb'
      exact ⟨h1, (hother b' (hne_of_lock b' p h1)).2.2.1.trans h2⟩
    · have hbb := hne_of_lock e.2 p (hp.locked (BioLoc.home_mem he))
      rw [(hother _ hbb).1, (hother _ hbb).2.1]
      exact hp.home e he

end

lemma Inv.lock (hi : s.Inv) (hpc : s.pc p = .getting d n b l) (hb : s.cache.lock b = none) :
    ((s.setLock b (some p)).setPc p (.filling d n b l)).Inv := by
  set s' := (s.setLock b (some p)).setPc p (.filling d n b l)
  have hp := hi.pcOk p
  rw [hpc] at hp
  obtain ⟨hloc, htarget, hd, hdev, hno⟩ := hp
  have href : (s.pc p).ref = some b := by rw [hpc]; rfl
  have hne : ∀ b' q, s.cache.lock b' = some q → b' ≠ b := by
    rintro b' q h rfl
    rw [hb] at h
    cases h
  have hlock : ∀ b', b' ≠ b → s'.cache.lock b' = s.cache.lock b' :=
    fun b' hb' => update_of_ne hb' ..
  have hself : s'.cache.lock b = some p := update_self ..
  have hf : Frame s s' p := by
    refine ⟨fun q hq => update_of_ne hq .., fun q b' _ h => ⟨?_, rfl, rfl, rfl, rfl⟩,
      fun _ _ => ⟨rfl, rfl⟩, fun _ _ _ => ⟨rfl, rfl⟩, rfl⟩
    rw [hlock b' (hne b' q h)]
    exact h
  refine ⟨{ hi.coherent with dirty := fun b' h => ?_ }, ?_, fun b' => ?_, fun b' q h => ?_,
    hi.pcOk_of hf ?_⟩
  · by_cases hbb : b' = b
    · rw [hbb, hself]
      simp
    · rw [hlock b' hbb]
      exact hi.coherent.dirty b' h
  · exact hi.commits.stay (p := p) (c := .filling d n b l) rfl
      (by rw [hpc]; exact fun h => h) rfl hi.commits.idle rfl
  · obtain ⟨k, hk, heq⟩ := hi.count b'
    obtain ⟨m, rfl, hm⟩ := count_dropped (c := .filling d n b l) href rfl hk
    refine ⟨m, hm, ?_⟩
    show s.cache.refcnt b' = m + (if (s'.cache.lock b').isSome then 1 else 0) +
      s.logPins b' + s.pins b'
    by_cases hbb : b' = b
    · subst hbb
      rw [hself, heq, hb]
      simp
    · rw [hlock b' hbb, heq, if_neg hbb, add_zero]
  · by_cases hbb : b' = b
    · subst hbb
      rw [hself] at h
      cases h
      exact .inr ⟨d, n, l, update_self ..⟩
    · rw [hlock b' hbb] at h
      rcases hi.held b' q h with hv | ⟨d', n', l2, hq⟩
      · exact .inl hv
      · have hqp : q ≠ p := by
          rintro rfl
          rw [hpc] at hq
          cases hq
        exact .inr ⟨d', n', l2, (update_of_ne hqp ..).trans hq⟩
  · show PcOk _ p (update s.pc p (.filling d n b l) p)
    rw [update_self]
    refine ⟨⟨fun b' hb' => ?_, fun b' hb' => ?_, hloc.nodup, hloc.home, hloc.unpin, hloc.stage⟩,
      htarget, hd, hdev, hno, hself, ?_, fun hmem => hne b p (hloc.locked hmem) rfl⟩
    · obtain ⟨h1, h2⟩ := hloc.own b' hb'
      exact ⟨(hlock b' (hne b' p h1)).trans h1, h2⟩
    · obtain ⟨h1, h2⟩ := hloc.wet b' hb'
      exact ⟨(hlock b' (hne b' p h1)).trans h1, h2⟩
    · show s.dirty b = false
      by_contra hx
      exact hi.coherent.dirty b (by simpa using hx) hb

/-- A buffer that is not valid is for a block whose contents are on the disk. -/
lemma Coherent.disk_of_invalid (h : s.Coherent) (hd : s.cache.dev b ≠ 0)
    (hv : s.cache.valid b = false) : s.disk (s.cache.dev b) (s.cache.blockno b) =
      s.stored (s.cache.dev b) (s.cache.blockno b) := by
  by_contra hx
  obtain ⟨b', h1, h2, h3, -⟩ := h.disk _ _ hx
  obtain rfl := h.unique b b' hd h1.symm h2.symm
  rw [hv] at h3
  cases h3

lemma fill_valid (s : BufSys P) (b : Buf) : (s.fill b).cache.valid b = true := by
  rw [fill]
  split_ifs with h
  · exact h
  · exact update_self ..

lemma fill_frame (s : BufSys P) (b : Buf) : (s.fill b).cache.dev = s.cache.dev ∧
    (s.fill b).cache.blockno = s.cache.blockno ∧ (s.fill b).cache.lock = s.cache.lock ∧
    (s.fill b).cache.links = s.cache.links ∧ (s.fill b).cache.refcnt = s.cache.refcnt ∧
    (∀ b', b' ≠ b → (s.fill b).cache.valid b' = s.cache.valid b') ∧
    s.fill b = { s with cache := (s.fill b).cache } := by
  rw [fill]
  split_ifs with h
  · exact ⟨rfl, rfl, rfl, rfl, rfl, fun _ _ => rfl, rfl⟩
  · exact ⟨rfl, rfl, rfl, rfl, rfl, fun b' hb' => update_of_ne hb' .., rfl⟩

/-- After `bread` has looked at `valid`, the buffer has the contents of its block. -/
lemma Coherent.fill (h : s.Coherent) (hd : s.cache.dev b ≠ 0) : (s.fill b).Coherent := by
  obtain ⟨hdev, hno, hlock, hlinks, -, hother, hrest⟩ := fill_frame s b
  have hst : (s.fill b).stored = s.stored := by rw [hrest]
  have hdk : (s.fill b).disk = s.disk := by rw [hrest]
  have hdt : (s.fill b).dirty = s.dirty := by rw [hrest]
  have hlg : ∀ d n, (s.fill b).Logged d n ↔ s.Logged d n := fun d n => by rw [hrest]; rfl
  have hmono : ∀ b', s.cache.valid b' = true → (s.fill b).cache.valid b' = true := by
    intro b' hv
    by_cases hbb : b' = b
    · rw [hbb]
      exact fill_valid s b
    · rw [hother b' hbb]
      exact hv
  refine ⟨?_, ?_, fun b' hv => ?_, fun d n hx => ?_, fun d n hx => ?_, ?_⟩
  · rw [hlinks]
    exact h.list
  · rw [hdev, hno]
    exact h.unique
  · rw [hdev, hno, hst]
    by_cases hbb : b' = b
    · subst hbb
      refine ⟨hd, ?_⟩
      rw [BufSys.fill]
      split_ifs with hv'
      · exact (h.valid b' hv').2
      · rw [← h.disk_of_invalid hd (by simpa using hv')]
        exact update_self ..
    · rw [hother b' hbb] at hv
      refine ⟨(h.valid b' hv).1, ?_⟩
      rw [← (h.valid b' hv).2, BufSys.fill]
      split_ifs
      · rfl
      · exact update_of_ne hbb ..
  · rw [hdk, hst] at hx
    obtain ⟨b', h1, h2, h3, h4⟩ := h.disk d n hx
    rw [hdev, hno, hdt, hlg]
    exact ⟨b', h1, h2, hmono b' h3, h4⟩
  · obtain ⟨b', h1, h2, h3⟩ := h.logged d n ((hlg d n).mp hx)
    rw [hdev, hno]
    exact ⟨b', h1, h2, hmono b' h3⟩
  · rw [hdt, hlock]
    exact h.dirty

lemma ret_user (h : l.ret b ≠ .user) : l ≠ .user := by
  rintro rfl
  exact h rfl

lemma Inv.fill (hi : s.Inv) (hpc : s.pc p = .filling d n b l) :
    ((s.fill b).setPc p (.here (l.ret b))).Inv := by
  set s' := (s.fill b).setPc p (.here (l.ret b))
  have hp := hi.pcOk p
  rw [hpc] at hp
  obtain ⟨hloc, htarget, hd, hdev, hno, hlock, hdirty, hmem⟩ := hp
  obtain ⟨fdev, fno, flock, -, fref, fother, frest⟩ := fill_frame s b
  have hpc' : s'.pc = update s.pc p (.here (l.ret b)) := by
    show update (s.fill b).pc p _ = _
    rw [frest]
  have hlog : s'.log = s.log := by
    show (s.fill b).log = s.log
    rw [frest]
  have hld : s'.logDev = s.logDev := by
    show (s.fill b).logDev = s.logDev
    rw [frest]
  have hins : s'.installed = s.installed := by
    show (s.fill b).installed = s.installed
    rw [frest]
  have hpins : s'.pins = s.pins := by
    show (s.fill b).pins = s.pins
    rw [frest]
  have hdt : s'.dirty = s.dirty := by
    show (s.fill b).dirty = s.dirty
    rw [frest]
  have hdk : s'.disk = s.disk ∧ s'.stored = s.stored := by
    show (s.fill b).disk = s.disk ∧ (s.fill b).stored = s.stored
    rw [frest]
    exact ⟨rfl, rfl⟩
  have hcoh := hi.coherent.fill (b := b) (by rw [hdev]; exact hd)
  have hvalid : ∀ b', s.cache.valid b' = true → s'.cache.valid b' = true := by
    intro b' hv
    by_cases hbb : b' = b
    · rw [hbb]
      exact fill_valid s b
    · exact (fother b' hbb).trans hv
  have hf : Frame s s' p := by
    refine ⟨fun q hq => by rw [hpc', update_of_ne hq], fun q b' hq h => ?_, fun b' _ => ?_,
      fun _ _ _ => ⟨by rw [hlog], hins⟩, hld⟩
    · refine ⟨(congrFun flock b').trans h, fother b' (ne_of_lock hlock hq h), by rw [hdt],
        by rw [hdk.1], by rw [hdk.2]⟩
    · exact ⟨congrFun fdev b', congrFun fno b'⟩
  refine ⟨{ hcoh with }, ?_, fun b' => ?_, fun b' q h => ?_, hi.pcOk_of hf ?_⟩
  · refine hi.commits.stay (p := p) hpc' (fun h => ?_) hlog (fun h => ?_) hld
    · rw [hpc]
      exact ret_user h
    · rw [hins]
      rw [hlog] at h
      exact hi.commits.idle h
  · refine hi.count_of hpc' (by rw [hpc]; rfl) b' ?_
    have hlp : s'.logPins b' = s.logPins b' :=
      logPins_congr (congrFun fdev b') (congrFun fno b') (by rw [hlog]) hins hld
    show (s.fill b).cache.refcnt b' - (if ((s.fill b).cache.lock b').isSome then 1 else 0) -
      s'.logPins b' - s'.pins b' = _
    rw [fref, flock, hlp, hpins]
  · have h' : s.cache.lock b' = some q := (congrFun flock b').symm.trans h
    by_cases hq : q = p
    · subst hq
      by_cases hbb : b' = b
      · rw [hbb]
        exact .inl (fill_valid s b)
      · rcases hi.held b' q h' with hv | ⟨d', n', l2, hx⟩
        · exact .inl (hvalid b' hv)
        · rw [hpc] at hx
          cases hx
          exact absurd rfl hbb
    · rcases hi.held b' q h' with hv | hx
      · exact .inl (hvalid b' hv)
      · rw [hpc', update_of_ne hq]
        exact .inr hx
  · rw [hpc', update_self]
    refine LocOk.ret (d := d) (n := n) ?_ ?_ ((congrFun fdev b).trans hdev)
      ((congrFun fno b).trans hno) ((congrFun flock b).trans hlock) (fill_valid s b)
      (by rw [hdt]; exact hdirty) hmem
    · refine ⟨fun b' hb' => ?_, fun b' hb' => ?_, hloc.nodup, fun e he => ?_, fun e he => ?_, ?_⟩
      · obtain ⟨h1, h2, h3⟩ := hloc.own b' hb'
        exact ⟨(congrFun flock b').trans h1, hvalid b' h2, by rw [hdt]; exact h3⟩
      · obtain ⟨h1, h2⟩ := hloc.wet b' hb'
        exact ⟨(congrFun flock b').trans h1, hvalid b' h2⟩
      · rw [hlog, hld, show s'.cache.dev = s.cache.dev from fdev,
          show s'.cache.blockno = s.cache.blockno from fno]
        exact hloc.home e he
      · rw [hlog, hld, hdk.1, hdk.2]
        exact hloc.unpin e he
      · rw [hlog, hins]
        exact hloc.stage
    · cases l with
      | instLog t =>
        show (t : ℤ) < s'.log.lh.n
        rw [hlog]
        exact htarget
      | instHome t lb =>
        show d = s'.logDev ∧ n = s'.log.lh.block t
        rw [hlog, hld]
        exact htarget
      | _ => trivial

/-! ## The second half of `brelse` -/

lemma brelseUnref_frame (c : Bcache P) (b : Buf) : ∃ k, c.brelseUnref b =
    { c with links := k, refcnt := (c.addRef b (-1)).refcnt } := by
  rw [Bcache.brelseUnref]
  split_ifs
  · exact ⟨_, rfl⟩
  · exact ⟨_, rfl⟩

lemma Coherent.brelse_list (h : s.Coherent) (b : Buf) :
    ∃ l : List Buf, Circ (s.cache.brelseUnref b).links none (l.map some) ∧ ∀ b', b' ∈ l := by
  obtain ⟨bs, hc, hall⟩ := h.list
  rw [Bcache.brelseUnref]
  split_ifs
  · obtain ⟨l1, l2, rfl⟩ := append_of_mem (hall b)
    rw [map_append, map_cons] at hc
    have hnot : some b ∉ none :: (l1.map some ++ l2.map some) := by
      have hnd := (nodup_cons.mp hc.nodup).2
      rw [nodup_middle, nodup_cons] at hnd
      simpa using hnd.1
    refine ⟨b :: (l1 ++ l2), ?_, fun b' => ?_⟩
    · rw [map_cons, map_append]
      exact hc.unlink.pushFront hnot
    · have := hall b'
      simp only [mem_append, mem_cons] at this ⊢
      tauto
  · exact ⟨bs, hc, hall⟩

lemma Inv.unref (hi : s.Inv) (hpc : s.pc p = .dropping b l) :
    ({ s with cache := s.cache.brelseUnref b }.setPc p (.here l)).Inv := by
  have hloc : s.LocOk p l := hi.pcOk_eq hpc
  have href : (s.pc p).ref = some b := by rw [hpc]; rfl
  have hlist := hi.coherent.brelse_list b
  obtain ⟨k, hk⟩ := brelseUnref_frame s.cache b
  rw [hk] at hlist ⊢
  have hf : Frame s ({ s with cache := { s.cache with
      links := k, refcnt := (s.cache.addRef b (-1)).refcnt } }.setPc p (.here l)) p :=
    ⟨fun q hq => update_of_ne hq .., fun q b' _ h => ⟨h, rfl, rfl, rfl, rfl⟩,
      fun _ _ => ⟨rfl, rfl⟩, fun _ _ _ => ⟨rfl, rfl⟩, rfl⟩
  refine ⟨{ hi.coherent with list := hlist }, ?_, fun b' => ?_, fun b' q h => ?_, hi.pcOk_of hf ?_⟩
  · exact hi.commits.stay (p := p) (c := .here l) rfl (by rw [hpc]; exact fun h => h) rfl
      hi.commits.idle rfl
  · obtain ⟨m, hm, heq⟩ := hi.count b'
    obtain ⟨m', rfl, hm'⟩ := count_dropped (c := .here l) href rfl hm
    refine ⟨m', hm', ?_⟩
    show (s.cache.addRef b (-1)).refcnt b' = m' + (if (s.cache.lock b').isSome then 1 else 0) +
      s.logPins b' + s.pins b'
    rw [addRef_apply, heq]
    split_ifs <;> push_cast <;> ring
  · rcases hi.held b' q h with hv | ⟨d', n', l2, hq⟩
    · exact .inl hv
    · have hqp : q ≠ p := by
        rintro rfl
        rw [hpc] at hq
        cases hq
      exact .inr ⟨d', n', l2, (update_of_ne hqp ..).trans hq⟩
  · show PcOk _ p (update s.pc p (.here l) p)
    rw [update_self]
    exact { hloc with }

/-! ## Every step -/

lemma Inv.perform {i : BioInstr} (hi : s.Inv) (hpc : s.pc p = .here l) (hc : s.code l x = i)
    (hok : s.Allowed (p, x)) (hs : s.perform p l i = .next s') : s'.Inv := by
  have hloc : s.LocOk p l := hi.pcOk_eq hpc
  cases i with
  | bread d n =>
    simp only [BufSys.perform] at hs
    split at hs
    · next b c hb =>
      injection hs with hs
      have hd : d ≠ 0 ∧ s.Target d n l := by
        rcases code_bread hc with ⟨rfl, rfl⟩ | ⟨rfl, -, ht⟩
        · exact ⟨hok hpc, trivial⟩
        · exact ⟨hi.commits.logDev, ht⟩
      rw [← hs]
      rcases hi.coherent.bget hb with ⟨h1, h2, rfl⟩ | ⟨h1, h2, rfl⟩
      · exact hi.hit hpc hd.2 hd.1 h1 h2
      · exact hi.recycle hpc hd.2 hd.1 h1 h2
    · cases hs
    · cases hs
  | store b v l' =>
    simp only [BufSys.perform] at hs
    split_ifs at hs with hb
    cases hs
    refine hi.store hpc hb (hloc.store hc) fun hu => ?_
    rcases code_store hc with ⟨-, rfl⟩ | ⟨t, src, rfl, -⟩ | ⟨last, rfl, -⟩ | ⟨t, lb, rfl, -⟩
    · exact absurd rfl hu
    all_goals simp
  | bwrite b l' =>
    simp only [BufSys.perform] at hs
    split_ifs at hs with hb
    cases hs
    refine hi.write hpc hb (hloc.write hc (hi.coherent.valid b (hi.valid_of_lock hpc hb)).2)
      fun hu => ?_
    rcases code_bwrite hc with ⟨-, rfl⟩ | ⟨t, src, rfl, -⟩ | ⟨last, rfl, -⟩ | ⟨t, lb, rfl, -⟩
    · exact absurd rfl hu
    all_goals simp
  | brelse b l' =>
    simp only [BufSys.perform] at hs
    split_ifs at hs with hb
    cases hs
    refine hi.release hpc hb (fun hd => ?_) (hloc.release hc) fun hu => ?_
    · by_cases hl : l = .user
      · subst hl
        rcases code_brelse hc with ⟨rfl, -⟩ | ⟨t, dst, h, -⟩ | ⟨t, h, -⟩ | ⟨h, -⟩ | ⟨h, -⟩ |
          ⟨t, db, h, -⟩ | ⟨t, h, -⟩
        · exact hok hpc hd
        all_goals cases h
      · rw [hloc.release_clean hc hl] at hd
        cases hd
    · rcases code_brelse hc with ⟨-, -, rfl⟩ | ⟨t, dst, rfl, -⟩ | ⟨t, rfl, -⟩ | ⟨rfl, -⟩ |
        ⟨rfl, -⟩ | ⟨t, db, rfl, -⟩ | ⟨t, rfl, -⟩
      · exact absurd rfl hu
      all_goals simp
  | bpin b =>
    simp only [BufSys.perform] at hs
    split_ifs at hs
    cases hs
    exact hi.bpin
  | bunpin b =>
    simp only [BufSys.perform] at hs
    split_ifs at hs with hb
    cases hs
    exact hi.bunpin hb
  | unpinLogged t b l' =>
    injection hs with hs
    obtain ⟨lb, rfl, rfl⟩ := code_unpin hc
    rw [← hs]
    exact hi.unpinLogged hpc
  | beginOp =>
    simp only [BufSys.perform] at hs
    split_ifs at hs with hcom
    cases hs
    exact hi.outstanding (by simpa using (not_or.mp hcom).1) _
  | logWrite b =>
    obtain rfl := code_user (b := b) (.inr (.inr (.inl hc)))
    simp only [BufSys.perform] at hs
    split_ifs at hs with hb
    refine hi.logWrite hpc hb ?_ hs
    cases x with
    | logWrite b' =>
      cases hc
      exact hok hpc
    | _ => cases hc
  | endOp =>
    obtain rfl := code_user (b := 0) (.inr (.inr (.inr (.inr hc))))
    simp only [BufSys.perform] at hs
    split_ifs at hs with hcom hout
    · cases hs
      exact hi.enterCommit hpc (by simpa using hcom) hout
    · cases hs
      exact hi.outstanding (by simpa using hcom) _
  | goto l' =>
    cases hs
    refine hi.goto hpc (hloc.goto hc) fun _ => ?_
    rcases code_goto hc with ⟨rfl, -⟩ | ⟨rfl, -⟩ | ⟨t, rfl, -⟩ | ⟨t, rfl, -⟩ <;> simp
  | clear =>
    injection hs with hs
    obtain rfl := code_clear hc
    rw [← hs]
    exact hi.clearLog hpc
  | finish =>
    injection hs with hs
    obtain rfl := code_finish hc
    rw [← hs]
    exact hi.leaveCommit hpc

lemma Inv.step {a : P × BioCall} (hi : s.Inv) (hok : s.Allowed a) (hs : s.step a = .next s') :
    s'.Inv := by
  obtain ⟨p, x⟩ := a
  simp only [BufSys.step] at hs
  split at hs
  · next l hpc => exact hi.perform hpc rfl hok hs
  · next d n b l hpc =>
    split_ifs at hs with hb
    cases hs
    exact hi.lock hpc hb
  · next d n b l hpc =>
    cases hs
    exact hi.fill hpc
  · next b l hpc =>
    cases hs
    exact hi.unref hpc

end Xv6.BufSys
