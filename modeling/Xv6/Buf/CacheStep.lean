import Xv6.Buf.CacheInv

/-!
# The steps of the buffer cache

Each kind of step keeps `BufSys.Inv`: one lemma for each thing that `perform` and `step` can do.
-/

namespace Xv6.BufSys

open Function BufSys DList
open BioLoc (clean ret unpins)

variable {P : Type} {s s' : BufSys P} {p q : P} {b b' : Buf} {d n : ℕ} {l l' : BioLoc} {c : BioPc}
  {x : BioCall} {v : Block}

/-! ## What the committing process does next -/

lemma code_store (h : s.code l x = .store b v l') : (l = .user ∧ l' = .user) ∨
    (∃ t src, l = .logCopy t b src ∧ l' = .logWrite t b src) ∨
    (∃ last, l = .headFill last b ∧ l' = .headWrite last b) ∨
    ∃ t lb, l = .instCopy t lb b ∧ l' = .instWrite t lb b := by
  cases l with
  | user =>
    cases x <;> cases h
    simp
  | _ =>
    simp only [code] at h
    (try split_ifs at h) <;> cases h <;> simp

lemma code_bwrite (h : s.code l x = .bwrite b l') : (l = .user ∧ l' = .user) ∨
    (∃ t src, l = .logWrite t b src ∧ l' = .logRelFrom t b src) ∨
    (∃ last, l = .headWrite last b ∧ l' = .headRel last b) ∨
    ∃ t lb, l = .instWrite t lb b ∧ l' = .instUnpin t lb b := by
  cases l with
  | user =>
    cases x <;> cases h
    simp
  | _ =>
    simp only [code] at h
    (try split_ifs at h) <;> cases h <;> simp

lemma code_brelse (h : s.code l x = .brelse b l') : (x = .brelse b ∧ l = .user ∧ l' = .user) ∨
    (∃ t dst, l = .logRelFrom t dst b ∧ l' = .logRelTo t dst) ∨
    (∃ t, l = .logRelTo t b ∧ l' = .logTo (t + 1)) ∨
    (l = .headRel true b ∧ l' = .finish) ∨ (l = .headRel false b ∧ l' = .instLog 0) ∨
    (∃ t db, l = .instRelLog t b db ∧ l' = .instRelHome t db) ∨
    ∃ t, l = .instRelHome t b ∧ l' = .instLog (t + 1) := by
  cases l with
  | user =>
    cases x <;> cases h
    simp
  | headRel last b' => cases last <;> cases h <;> simp
  | _ =>
    simp only [code] at h
    (try split_ifs at h) <;> cases h <;> simp

lemma code_bread (h : s.code l x = .bread d n) :
    (l = .user ∧ x = .bread d n) ∨ (d = s.logDev ∧ l ≠ .user ∧ s.Target d n l) := by
  cases l with
  | user =>
    cases x <;> cases h
    simp
  | instLog t =>
    simp only [code] at h
    split_ifs at h with ht
    cases h
    exact .inr ⟨rfl, by simp, ht⟩
  | instHome t lb =>
    cases h
    exact .inr ⟨rfl, by simp, rfl, rfl⟩
  | _ =>
    simp only [code] at h
    (try split_ifs at h) <;> cases h <;>
      exact .inr ⟨rfl, by simp, trivial⟩

lemma code_goto (h : s.code l x = .goto l') :
    (l = .commit ∧ l' = .logTo 0) ∨ (l = .commit ∧ l' = .finish) ∨
    (∃ t, l = .logTo t ∧ l' = .headRead false) ∨
    ∃ t : ℕ, l = .instLog t ∧ s.log.lh.n ≤ t ∧ l' = .clear := by
  cases l with
  | user => cases x <;> cases h
  | commit =>
    simp only [code] at h
    split_ifs at h <;> cases h <;> simp
  | instLog t =>
    simp only [code] at h
    split_ifs at h with ht
    cases h
    exact .inr (.inr (.inr ⟨t, rfl, not_lt.mp ht, rfl⟩))
  | _ =>
    simp only [code] at h
    (try split_ifs at h) <;> cases h <;> simp

lemma code_unpin {t : ℕ} (h : s.code l x = .unpinLogged t b l') :
    ∃ lb, l = .instUnpin t lb b ∧ l' = .instRelLog t lb b := by
  cases l with
  | user => cases x <;> cases h
  | _ =>
    simp only [code] at h
    (try split_ifs at h) <;> cases h <;> simp

lemma code_user (h : s.code l x = .bpin b ∨ s.code l x = .bunpin b ∨ s.code l x = .logWrite b ∨
    s.code l x = .beginOp ∨ s.code l x = .endOp) : l = .user := by
  cases l with
  | user => rfl
  | _ =>
    simp only [code] at h
    (try split_ifs at h) <;> simp at h

lemma code_clear (h : s.code l x = .clear) : l = .clear := by
  cases l with
  | user => cases x <;> cases h
  | _ =>
    simp only [code] at h
    (try split_ifs at h) <;> cases h <;> simp

lemma code_finish (h : s.code l x = .finish) : l = .finish := by
  cases l with
  | user => cases x <;> cases h
  | _ =>
    simp only [code] at h
    (try split_ifs at h) <;> cases h <;> simp

/-! ## What it knows then -/

lemma LocOk.free (hclean : l.clean = []) (hwet : l.wet = []) (hhome : l.home = none)
    (hunpins : l.unpins = none) (hstage : l.Stage s.log.lh.n s.installed) : s.LocOk p l :=
  ⟨by simp [hclean], by simp [hwet], by simp [hclean, hwet], by simp [hhome], by simp [hunpins],
    hstage⟩

section

variable (h : s.LocOk p l)
include h

lemma LocOk.store (hc : s.code l x = .store b v l') : (s.store b v).LocOk p l' := by
  rcases code_store hc with ⟨rfl, rfl⟩ | ⟨t, src, rfl, rfl⟩ | ⟨last, rfl, rfl⟩ | ⟨t, lb, rfl, rfl⟩
  · exact locOk_user
  · have hne : b ≠ src := by simpa [BioLoc.wet, clean] using h.nodup
    have hsrc := h.own src (by simp [clean])
    have hb := h.own b (by simp [clean])
    refine ⟨?_, ?_, h.nodup, ?_, ?_, h.stage⟩
    · simpa [clean, store, update_of_ne hne.symm] using hsrc
    · simpa [BioLoc.wet, store] using ⟨hb.1, hb.2.1⟩
    · simp [BioLoc.home]
    · simp [unpins]
  · have hb := h.own b (by simp [clean])
    refine ⟨by simp [clean], ?_, by simp [clean, BioLoc.wet], by simp [BioLoc.home],
      by simp [unpins], h.stage⟩
    simpa [BioLoc.wet, store] using ⟨hb.1, hb.2.1⟩
  · have hne : lb ≠ b := by simpa [BioLoc.wet, clean] using h.nodup
    have hlb := h.own lb (by simp [clean])
    have hb := h.own b (by simp [clean])
    refine ⟨?_, ?_, ?_, h.home, by simp [unpins], h.stage⟩
    · simpa [clean, store, update_of_ne hne] using hlb
    · simpa [BioLoc.wet, store] using ⟨hb.1, hb.2.1⟩
    · simpa [BioLoc.wet, clean] using hne.symm

lemma LocOk.write (hc : s.code l x = .bwrite b l')
    (hdata : s.cache.data b = s.stored (s.cache.dev b) (s.cache.blockno b)) :
    (s.write b).LocOk p l' := by
  rcases code_bwrite hc with ⟨rfl, rfl⟩ | ⟨t, src, rfl, rfl⟩ | ⟨last, rfl, rfl⟩ | ⟨t, lb, rfl, rfl⟩
  · exact locOk_user
  · have hne : b ≠ src := by simpa [BioLoc.wet, clean] using h.nodup
    have hsrc := h.own src (by simp [clean])
    have hb := h.wet b (by simp [BioLoc.wet])
    refine ⟨?_, by simp [BioLoc.wet], h.nodup, by simp [BioLoc.home], by simp [unpins], h.stage⟩
    simpa [clean, write, update_of_ne hne.symm] using ⟨hb, hsrc⟩
  · have hb := h.wet b (by simp [BioLoc.wet])
    refine ⟨?_, by simp [BioLoc.wet], by simp [clean, BioLoc.wet], by simp [BioLoc.home],
      by simp [unpins], h.stage⟩
    simpa [clean, write] using hb
  · have hne : b ≠ lb := by simpa [BioLoc.wet, clean] using h.nodup
    have hlb := h.own lb (by simp [clean])
    have hb := h.wet b (by simp [BioLoc.wet])
    obtain ⟨hd, hn⟩ := h.home (t, b) rfl
    refine ⟨?_, by simp [BioLoc.wet], ?_, h.home, ?_, h.stage⟩
    · simpa [clean, write, update_of_ne hne.symm] using ⟨hlb, hb⟩
    · simpa [BioLoc.wet, clean] using hne.symm
    · rintro e ⟨⟩
      show setBlock s.disk (s.cache.dev b) (s.cache.blockno b) (s.cache.data b) s.logDev
        (s.log.lh.block t) = s.stored s.logDev (s.log.lh.block t)
      rw [hdata, hd, hn]
      exact setBlock_self

lemma LocOk.release (hc : s.code l x = .brelse b l') : (s.releaseLock b).LocOk p l' := by
  have hkeep : ∀ b', b' ≠ b → s.cache.lock b' = some p ∧ s.cache.valid b' = true ∧
      s.dirty b' = false → (s.releaseLock b).cache.lock b' = some p ∧
      (s.releaseLock b).cache.valid b' = true ∧ (s.releaseLock b).dirty b' = false := by
    intro b' hne hb'
    simpa [releaseLock, setLock, update_of_ne hne] using hb'
  rcases code_brelse hc with ⟨-, rfl, rfl⟩ | ⟨t, dst, rfl, rfl⟩ | ⟨t, rfl, rfl⟩ | ⟨rfl, rfl⟩ |
    ⟨rfl, rfl⟩ | ⟨t, db, rfl, rfl⟩ | ⟨t, rfl, rfl⟩
  · exact locOk_user
  · have hne : dst ≠ b := by simpa [BioLoc.wet, clean] using h.nodup
    refine ⟨?_, by simp [BioLoc.wet], by simp [clean, BioLoc.wet], by simp [BioLoc.home],
      by simp [unpins], h.stage⟩
    intro b' hb'
    obtain rfl : b' = dst := by simpa [clean] using hb'
    exact hkeep b' hne (h.own b' (by simp [clean]))
  · exact .free rfl rfl rfl rfl h.stage
  · exact .free rfl rfl rfl rfl h.stage
  · exact .free rfl rfl rfl rfl h.stage
  · have hne : db ≠ b := by
      have : b ≠ db := by simpa [BioLoc.wet, clean] using h.nodup
      exact this.symm
    refine ⟨?_, by simp [BioLoc.wet], by simp [clean, BioLoc.wet], by simp [BioLoc.home],
      by simp [unpins], h.stage⟩
    intro b' hb'
    obtain rfl : b' = db := by simpa [clean] using hb'
    exact hkeep b' hne (h.own b' (by simp [clean]))
  · exact .free rfl rfl rfl rfl h.stage

/-- In `commit` only buffers that are on the disk are released. -/
lemma LocOk.release_clean (hc : s.code l x = .brelse b l') (hl : l ≠ .user) :
    s.dirty b = false := by
  rcases code_brelse hc with ⟨-, rfl, -⟩ | ⟨t, dst, rfl, rfl⟩ | ⟨t, rfl, rfl⟩ | ⟨rfl, rfl⟩ |
    ⟨rfl, rfl⟩ | ⟨t, db, rfl, rfl⟩ | ⟨t, rfl, rfl⟩
  · exact absurd rfl hl
  all_goals exact (h.own b (by simp [clean])).2.2

lemma LocOk.goto (hc : s.code l x = .goto l') : s.LocOk p l' := by
  have hstage := h.stage
  refine ⟨?_, ?_, ?_, ?_, ?_, ?_⟩ <;>
    rcases code_goto hc with ⟨rfl, rfl⟩ | ⟨rfl, rfl⟩ | ⟨t, rfl, rfl⟩ | ⟨t, rfl, ht, rfl⟩ <;>
    first
      | exact hstage
      | (simp only [BioLoc.Stage] at hstage ⊢; rw [hstage]; exact ht)
      | simp [clean, BioLoc.wet, BioLoc.home, unpins]

lemma LocOk.ret (ht : s.Target d n l) (hd : s.cache.dev b = d)
    (hn : s.cache.blockno b = n) (hlock : s.cache.lock b = some p) (hv : s.cache.valid b = true)
    (hdirty : s.dirty b = false) (hb : b ∉ l.wet ++ l.clean) : s.LocOk p (l.ret b) := by
  have hown : s.cache.lock b = some p ∧ s.cache.valid b = true ∧ s.dirty b = false :=
    ⟨hlock, hv, hdirty⟩
  cases l with
  | logTo t | headRead last =>
    exact ⟨by simpa [clean, ret] using hown, by simp [BioLoc.wet, ret],
      by simp [clean, BioLoc.wet, ret], by simp [BioLoc.home, ret],
      by simp [unpins, ret], h.stage⟩
  | logFrom t dst =>
    have hdst := h.own dst (by simp [clean])
    have hne : b ≠ dst := by simpa [clean, BioLoc.wet] using hb
    refine ⟨?_, by simp [BioLoc.wet, ret], ?_, by simp [BioLoc.home, ret],
      by simp [unpins, ret], h.stage⟩
    · simpa [clean, ret] using ⟨hdst, hown⟩
    · simpa [clean, BioLoc.wet, ret] using hne.symm
  | instLog t =>
    exact ⟨by simpa [clean, ret] using hown, by simp [BioLoc.wet, ret],
      by simp [clean, BioLoc.wet, ret], by simp [BioLoc.home, ret],
      by simp [unpins, ret], h.stage, ht⟩
  | instHome t lb =>
    have hlb := h.own lb (by simp [clean])
    have hne : b ≠ lb := by simpa [clean, BioLoc.wet] using hb
    refine ⟨?_, by simp [BioLoc.wet, ret], ?_, ?_, by simp [unpins, ret], h.stage⟩
    · simpa [clean, ret] using ⟨hlb, hown⟩
    · simpa [clean, BioLoc.wet, ret] using hne.symm
    · rintro e ⟨⟩
      exact ⟨hd.trans ht.1, hn.trans ht.2⟩
  | _ => exact h

end

/-! ## Steps at a place of the code -/

lemma loc_here (hpc : s.pc p = .here l) : (s.pc p).loc = l := by rw [hpc]; rfl

lemma ref_here (hpc : s.pc p = .here l) : (s.pc p).ref = none := by rw [hpc]; rfl

variable [DecidableEq P]

/-- A process holds what it held; `p` was at a place of its code, so what it holds is valid. -/
lemma Inv.held_of (hi : s.Inv) (hpc : s.pc p = .here l) (hpc' : s'.pc = update s.pc p c)
    (hlock : ∀ b q, s'.cache.lock b = some q → s.cache.lock b = some q)
    (hvalid : ∀ b q, s'.cache.lock b = some q → s.cache.valid b = true → s'.cache.valid b = true)
    (b : Buf) (q : P) (h : s'.cache.lock b = some q) :
    s'.cache.valid b = true ∨ ∃ dev blockno l, s'.pc q = .filling dev blockno b l := by
  by_cases hq : q = p
  · subst hq
    exact .inl (hvalid b q h (hi.valid_of_lock hpc (hlock b q h)))
  · rcases hi.held b q (hlock b q h) with hv | hf
    · exact .inl (hvalid b q h hv)
    · rw [hpc', update_of_ne hq]
      exact .inr hf

lemma Inv.count_of (hi : s.Inv) (hpc' : s'.pc = update s.pc p c)
    (href : c.ref = (s.pc p).ref) (b : Buf)
    (h : s'.cache.refcnt b - (if (s'.cache.lock b).isSome then 1 else 0) -
      s'.logPins b - s'.pins b =
      s.cache.refcnt b - (if (s.cache.lock b).isSome then 1 else 0) - s.logPins b - s.pins b) :
    ∃ k : ℕ, CountIs (fun q => (s'.pc q).ref = some b) k ∧ s'.cache.refcnt b =
        k + (if (s'.cache.lock b).isSome then 1 else 0) + s'.logPins b + s'.pins b := by
  obtain ⟨k, hk, heq⟩ := hi.count b
  refine ⟨k, hk.congr fun q => by rw [refs_same hpc' href], ?_⟩
  generalize (if (s'.cache.lock b).isSome then (1 : ℤ) else 0) = u at h ⊢
  generalize (if (s.cache.lock b).isSome then (1 : ℤ) else 0) = w at h heq
  omega

section

variable (hi : s.Inv) (hpc : s.pc p = .here l)
include hi hpc

/-- A step that changes what is in the buffers or on the disk, but neither locks nor counts. -/
lemma Inv.here {t : BufSys P} (ht : ∃ data disk stored dirty, t = { s with
      cache := { s.cache with data := data }, disk := disk, stored := stored, dirty := dirty })
    (hcoh : (t.setPc p (.here l')).Coherent) (hf : Frame s (t.setPc p (.here l')) p)
    (hl : t.LocOk p l') (hu : l' ≠ .user → l ≠ .user) : (t.setPc p (.here l')).Inv := by
  obtain ⟨data, disk, stored, dirty, rfl⟩ := ht
  refine ⟨hcoh, ?_, fun b => ?_, ?_, hi.pcOk_of hf ?_⟩
  · exact hi.commits.stay rfl (by rw [loc_here hpc]; exact hu) rfl hi.commits.idle rfl
  · exact hi.count_of (c := .here l') rfl (ref_here hpc).symm b rfl
  · exact hi.held_of hpc rfl (fun _ _ h => h) fun _ _ _ h => h
  · show PcOk _ p (update s.pc p (.here l') p)
    rw [update_self]
    exact { hl with }

lemma Inv.goto (hl : s.LocOk p l') (hu : l' ≠ .user → l ≠ .user) : (s.setPc p (.here l')).Inv := by
  have hf : Frame s (s.setPc p (.here l')) p :=
    ⟨fun q hq => update_of_ne hq .., fun q b _ h => ⟨h, rfl, rfl, rfl, rfl⟩,
      fun _ _ => ⟨rfl, rfl⟩, fun _ _ _ => ⟨rfl, rfl⟩, rfl⟩
  exact hi.here hpc ⟨_, _, _, _, rfl⟩ { hi.coherent with } hf hl hu

section

variable (hb : s.cache.lock b = some p)
include hb

lemma Inv.store (hl : (s.store b v).LocOk p l') (hu : l' ≠ .user → l ≠ .user) :
    ((s.store b v).setPc p (.here l')).Inv := by
  have hv := hi.valid_of_lock hpc hb
  have hf : Frame s ((s.store b v).setPc p (.here l')) p := by
    refine ⟨fun q hq => update_of_ne hq .., fun q b' hq h => ⟨h, rfl, ?_, rfl, ?_⟩,
      fun _ _ => ⟨rfl, rfl⟩, fun _ _ _ => ⟨rfl, rfl⟩, rfl⟩
    · exact update_of_ne (ne_of_lock hb hq h) ..
    · exact setBlock_of_ne (hi.block_ne hb (ne_of_lock hb hq h))
  refine hi.here hpc ⟨_, _, _, _, rfl⟩ ⟨hi.coherent.list, hi.coherent.unique, fun b' hv' => ?_,
    fun d n hd => ?_, hi.coherent.logged, fun b' hd => ?_⟩ hf hl hu
  · refine ⟨(hi.coherent.valid b' hv').1, ?_⟩
    show update s.cache.data b v b' = setBlock s.stored _ _ v _ _
    by_cases hbb : b' = b
    · subst hbb
      rw [update_self]
      exact setBlock_self.symm
    · rw [update_of_ne hbb]
      exact (hi.coherent.valid b' hv').2.trans (setBlock_of_ne (hi.block_ne hb hbb)).symm
  · by_cases hdn : d = s.cache.dev b ∧ n = s.cache.blockno b
    · exact ⟨b, hdn.1.symm, hdn.2.symm, hv, .inr (update_self ..)⟩
    · have hd' : s.disk d n ≠ s.stored d n := by
        intro he
        exact hd (he.trans (setBlock_of_ne hdn).symm)
      obtain ⟨b', h1, h2, h3, h4⟩ := hi.coherent.disk d n hd'
      refine ⟨b', h1, h2, h3, h4.imp id fun h => ?_⟩
      show update s.dirty b true b' = true
      by_cases hbb : b' = b
      · rw [hbb, update_self]
      · rw [update_of_ne hbb]
        exact h
  · show s.cache.lock b' ≠ none
    by_cases hbb : b' = b
    · rw [hbb, hb]
      simp
    · exact hi.coherent.dirty b' ((update_of_ne hbb ..).symm.trans hd)

lemma Inv.write (hl : (s.write b).LocOk p l') (hu : l' ≠ .user → l ≠ .user) :
    ((s.write b).setPc p (.here l')).Inv := by
  have hv := hi.coherent.valid b (hi.valid_of_lock hpc hb)
  have hf : Frame s ((s.write b).setPc p (.here l')) p := by
    refine ⟨fun q hq => update_of_ne hq .., fun q b' hq h => ⟨h, rfl, ?_, ?_, rfl⟩,
      fun _ _ => ⟨rfl, rfl⟩, fun _ _ _ => ⟨rfl, rfl⟩, rfl⟩
    · exact update_of_ne (ne_of_lock hb hq h) ..
    · exact setBlock_of_ne (hi.block_ne hb (ne_of_lock hb hq h))
  refine hi.here hpc ⟨_, _, _, _, rfl⟩ { hi.coherent with
    disk := fun d n hd => ?_, dirty := fun b' hd => ?_ } hf hl hu
  · have hd1 : setBlock s.disk (s.cache.dev b) (s.cache.blockno b) (s.cache.data b) d n ≠
        s.stored d n := hd
    by_cases hdn : d = s.cache.dev b ∧ n = s.cache.blockno b
    · rw [hdn.1, hdn.2, setBlock_self] at hd1
      exact absurd hv.2 hd1
    · rw [setBlock_of_ne hdn] at hd1
      obtain ⟨b', h1, h2, h3, h4⟩ := hi.coherent.disk d n hd1
      refine ⟨b', h1, h2, h3, h4.imp id fun h => ?_⟩
      show update s.dirty b false b' = true
      rw [update_of_ne fun hbb => hdn ⟨by rw [← h1, hbb], by rw [← h2, hbb]⟩]
      exact h
  · have hd1 : update s.dirty b false b' = true := hd
    by_cases hbb : b' = b
    · rw [hbb, update_self] at hd1
      cases hd1
    · rw [update_of_ne hbb] at hd1
      exact hi.coherent.dirty b' hd1

lemma Inv.release (hdirty : s.dirty b = true → s.Logged (s.cache.dev b) (s.cache.blockno b))
    (hl : (s.releaseLock b).LocOk p l') (hu : l' ≠ .user → l ≠ .user) :
    ((s.releaseLock b).setPc p (.dropping b l')).Inv := by
  have hlock : ∀ b' q, update s.cache.lock b none b' = some q →
      b' ≠ b ∧ s.cache.lock b' = some q := by
    intro b' q h
    by_cases hbb : b' = b
    · rw [hbb, update_self] at h
      cases h
    · exact ⟨hbb, (update_of_ne hbb ..).symm.trans h⟩
  have hf : Frame s ((s.releaseLock b).setPc p (.dropping b l')) p := by
    refine ⟨fun q hq => update_of_ne hq .., fun q b' hq h => ⟨?_, rfl, ?_, rfl, rfl⟩,
      fun _ _ => ⟨rfl, rfl⟩, fun _ _ _ => ⟨rfl, rfl⟩, rfl⟩
    · exact (update_of_ne (ne_of_lock hb hq h) ..).trans h
    · exact update_of_ne (ne_of_lock hb hq h) ..
  refine ⟨{ hi.coherent with disk := fun d n hd => ?_, dirty := fun b' hd => ?_ }, ?_,
    fun b' => ?_, ?_, hi.pcOk_of hf ?_⟩
  · obtain ⟨b', h1, h2, h3, h4⟩ := hi.coherent.disk d n hd
    refine ⟨b', h1, h2, h3, ?_⟩
    rcases h4 with h4 | h4
    · exact .inl h4
    · by_cases hbb : b' = b
      · subst hbb
        rw [h1, h2] at hdirty
        exact .inl (hdirty h4)
      · exact .inr ((update_of_ne hbb ..).trans h4)
  · have hd1 : update s.dirty b false b' = true := hd
    show update s.cache.lock b none b' ≠ none
    by_cases hbb : b' = b
    · rw [hbb, update_self] at hd1
      cases hd1
    · rw [update_of_ne hbb] at hd1 ⊢
      exact hi.coherent.dirty b' hd1
  · exact hi.commits.stay rfl (by rw [loc_here hpc]; exact hu) rfl hi.commits.idle rfl
  · obtain ⟨k, hk, heq⟩ := hi.count b'
    by_cases hbb : b' = b
    · subst hbb
      have hlk : update s.cache.lock b' none b' = none := update_self ..
      refine ⟨k + 1, hk.insert (by rw [ref_here hpc]; simp) fun q => ?_, ?_⟩
      · show (update s.pc p (.dropping b' l') q).ref = some b' ↔ _
        by_cases hq : q = p
        · simp [hq, BioPc.ref]
        · simp [hq]
      · show s.cache.refcnt b' = _ + (if (update s.cache.lock b' none b').isSome then 1 else 0)
          + s.logPins b' + s.pins b'
        rw [hlk, heq, hb]
        simp
    · have hlk : update s.cache.lock b none b' = s.cache.lock b' :=
        update_of_ne hbb ..
      refine ⟨k, hk.congr fun q => ?_, ?_⟩
      · show (update s.pc p (.dropping b l') q).ref = some b' ↔ _
        by_cases hq : q = p
        · subst hq
          rw [update_self, ref_here hpc]
          simp [BioPc.ref, Ne.symm hbb]
        · rw [update_of_ne hq]
      · show s.cache.refcnt b' = _ + (if (update s.cache.lock b none b').isSome then 1 else 0)
          + s.logPins b' + s.pins b'
        rw [hlk, heq]
  · exact hi.held_of hpc rfl (fun b' q h => (hlock b' q h).2) fun _ _ _ h => h
  · show PcOk _ p (update s.pc p (.dropping b l') p)
    rw [update_self]
    exact { hl with }

end

end

/-! ## Pins and the log -/

omit [DecidableEq P] in
lemma Inv.recount (hi : s.Inv) (hcache : s'.cache = { s.cache with refcnt := s'.cache.refcnt })
    (hdisk : s'.disk = s.disk) (hstored : s'.stored = s.stored) (hdirty : s'.dirty = s.dirty)
    (hlh : s'.log.lh = s.log.lh) (hins : s'.installed = s.installed) (hdev : s'.logDev = s.logDev)
    (hpc : s'.pc = s.pc) (hcom : s'.Commits)
    (hcount : ∀ b, s'.cache.refcnt b - s'.pins b = s.cache.refcnt b - s.pins b) : s'.Inv := by
  have hlogged : ∀ d n, s'.Logged d n ↔ s.Logged d n := fun d n => logged_congr hlh hins hdev
  have hlinks : s'.cache.links = s.cache.links := by rw [hcache]
  have hcdev : s'.cache.dev = s.cache.dev := by rw [hcache]
  have hno : s'.cache.blockno = s.cache.blockno := by rw [hcache]
  have hvalid : s'.cache.valid = s.cache.valid := by rw [hcache]
  have hlock : s'.cache.lock = s.cache.lock := by rw [hcache]
  have hdata : s'.cache.data = s.cache.data := by rw [hcache]
  have hloc : ∀ p l, s.LocOk p l → s'.LocOk p l := by
    intro p l h
    refine ⟨?_, ?_, h.nodup, ?_, ?_, ?_⟩
    · rw [hlock, hvalid, hdirty]
      exact h.own
    · rw [hlock, hvalid]
      exact h.wet
    · rw [hcdev, hno, hlh, hdev]
      exact h.home
    · rw [hlh, hdev, hdisk, hstored]
      exact h.unpin
    · rw [hlh, hins]
      exact h.stage
  have htarget : ∀ d n l, s.Target d n l → s'.Target d n l := by
    intro d n l h
    cases l with
    | instLog t =>
      show (t : ℤ) < s'.log.lh.n
      rw [hlh]
      exact h
    | instHome t lb =>
      show d = s'.logDev ∧ n = s'.log.lh.block t
      rw [hlh, hdev]
      exact h
    | _ => trivial
  refine ⟨⟨?_, ?_, ?_, fun d n hd => ?_, fun d n hd => ?_, ?_⟩, hcom, fun b => ?_, ?_, fun p => ?_⟩
  · rw [hlinks]
    exact hi.coherent.list
  · rw [hcdev, hno]
    exact hi.coherent.unique
  · rw [hvalid, hcdev, hno, hdata, hstored]
    exact hi.coherent.valid
  · rw [hdisk, hstored] at hd
    rw [hcdev, hno, hvalid, hdirty, hlogged]
    exact hi.coherent.disk d n hd
  · rw [hcdev, hno, hvalid]
    exact hi.coherent.logged d n ((hlogged d n).mp hd)
  · rw [hdirty, hlock]
    exact hi.coherent.dirty
  · obtain ⟨k, hk, heq⟩ := hi.count b
    have hpins : s'.logPins b = s.logPins b :=
      logPins_congr (congrFun hcdev b) (congrFun hno b) hlh hins hdev
    refine ⟨k, by rw [hpc]; exact hk, ?_⟩
    rw [hlock, hpins]
    have := hcount b
    omega
  · rw [hlock, hvalid, hpc]
    exact hi.held
  · rw [hpc]
    have hk := hi.pcOk p
    cases hc : s.pc p with
    | here l | dropping b l =>
      rw [hc] at hk
      exact hloc p l hk
    | getting dev blockno b l =>
      rw [hc] at hk
      obtain ⟨h1, h2, h3⟩ := hk
      refine ⟨hloc p l h1, htarget _ _ l h2, ?_⟩
      rw [hcdev, hno]
      exact h3
    | filling dev blockno b l =>
      rw [hc] at hk
      obtain ⟨h1, h2, h3⟩ := hk
      refine ⟨hloc p l h1, htarget _ _ l h2, ?_⟩
      rw [hcdev, hno, hlock, hdirty]
      exact h3

omit [DecidableEq P] in
lemma addRef_apply (c : Bcache P) (b b' : Buf) (k : ℤ) :
    (c.addRef b k).refcnt b' = c.refcnt b' + if b' = b then k else 0 := by
  by_cases hbb : b' = b <;> simp [Bcache.addRef, hbb]

omit [DecidableEq P] in
lemma Inv.bpin (hi : s.Inv) : { s with
    cache := s.cache.addRef b 1, pins := update s.pins b (s.pins b + 1) }.Inv := by
  refine hi.recount rfl rfl rfl rfl rfl rfl rfl rfl { hi.commits with } fun b' => ?_
  rw [addRef_apply]
  by_cases hbb : b' = b
  · subst hbb
    simp
  · simp [hbb]

omit [DecidableEq P] in
lemma Inv.bunpin (hi : s.Inv) (hb : 0 < s.pins b) : { s with
    cache := s.cache.addRef b (-1), pins := update s.pins b (s.pins b - 1) }.Inv := by
  refine hi.recount rfl rfl rfl rfl rfl rfl rfl rfl { hi.commits with } fun b' => ?_
  rw [addRef_apply]
  by_cases hbb : b' = b
  · subst hbb
    simp only [if_true, update_self]
    omega
  · simp [hbb]

omit [DecidableEq P] in
/-- `begin_op`, and `end_op` while there are other operations. -/
lemma Inv.outstanding (hi : s.Inv) (hcom : s.log.committing = false) (k : ℤ) :
    { s with log := { s.log with outstanding := k } }.Inv := by
  refine hi.recount rfl rfl rfl rfl rfl rfl rfl rfl
    { hi.commits with outstanding := fun h => ?_ } fun _ => rfl
  have h' : s.log.committing = true := h
  rw [hcom] at h'
  cases h'

omit [DecidableEq P] in
lemma Commits.all_user (h : s.Commits) (hcom : s.log.committing = false) (q : P) :
    (s.pc q).loc = .user := by
  by_contra hq
  have := h.committing q hq
  rw [hcom] at this
  cases this

lemma Inv.enterCommit (hi : s.Inv) (hpc : s.pc p = .here .user) (hcom : s.log.committing = false)
    {k : ℤ} (hk : k = 0) : ({ s with log := { s.log with
      outstanding := k, committing := true } }.setPc p (.here .commit)).Inv := by
  set s' := { s with log := { s.log with outstanding := k, committing := true } }.setPc p
    (.here .commit)
  have hpc' : s'.pc = update s.pc p (.here .commit) := rfl
  have huser := hi.commits.all_user hcom
  have honly : ∀ q, (s'.pc q).loc ≠ .user → q = p := by
    intro q hq
    by_contra hqp
    rw [hpc', update_of_ne hqp] at hq
    exact hq (huser q)
  have hf : Frame s s' p :=
    ⟨fun q hq => update_of_ne hq .., fun q b _ h => ⟨h, rfl, rfl, rfl, rfl⟩,
      fun _ _ => ⟨rfl, rfl⟩, fun _ _ _ => ⟨rfl, rfl⟩, rfl⟩
  refine ⟨{ hi.coherent with }, ⟨fun _ _ => rfl, fun q r hq hr => ?_, fun _ => hk.le,
    fun h => (by cases h), hi.commits.logDev, hi.commits.nonneg⟩, fun b => ?_, ?_, hi.pcOk_of hf ?_⟩
  · rw [honly q hq, honly r hr]
  · exact hi.count_of (c := .here .commit) rfl (ref_here hpc).symm b rfl
  · exact hi.held_of hpc rfl (fun _ _ h => h) fun _ _ _ h => h
  · rw [hpc', update_self]
    exact ⟨by simp [clean], by simp [BioLoc.wet], by simp [clean, BioLoc.wet],
      by simp [BioLoc.home], by simp [unpins], hi.commits.idle hcom⟩

lemma Inv.leaveCommit (hi : s.Inv) (hpc : s.pc p = .here .finish) {k : ℕ} :
    ({ s with log := { s.log with committing := false, ncommit := k } }.setPc p
      (.here .user)).Inv := by
  set s' := { s with log := { s.log with committing := false, ncommit := k } }.setPc p (.here .user)
  have hpc' : s'.pc = update s.pc p (.here .user) := rfl
  have hp : s.LocOk p .finish := hi.pcOk_eq hpc
  have huser : ∀ q, (s'.pc q).loc = .user := by
    intro q
    by_cases hq : q = p
    · rw [hpc', hq, update_self]
      rfl
    · rw [hpc', update_of_ne hq]
      by_contra hx
      exact hq (hi.commits.alone q p hx (by rw [loc_here hpc]; simp))
  have hf : Frame s s' p :=
    ⟨fun q hq => update_of_ne hq .., fun q b _ h => ⟨h, rfl, rfl, rfl, rfl⟩,
      fun _ _ => ⟨rfl, rfl⟩, fun _ _ _ => ⟨rfl, rfl⟩, rfl⟩
  refine ⟨{ hi.coherent with }, ⟨fun q hq => absurd (huser q) hq,
    fun q r hq => absurd (huser q) hq, fun h => (by cases h), fun _ => hp.stage, hi.commits.logDev,
    hi.commits.nonneg⟩, fun b => ?_, ?_, hi.pcOk_of hf ?_⟩
  · exact hi.count_of (c := .here .user) rfl (ref_here hpc).symm b rfl
  · exact hi.held_of hpc rfl (fun _ _ h => h) fun _ _ _ h => h
  · rw [hpc', update_self]
    exact locOk_user

lemma Inv.clearLog (hi : s.Inv) (hpc : s.pc p = .here .clear) :
    ({ s with log := s.log.clear, installed := 0 }.setPc p (.here (.headRead true))).Inv := by
  set s' := { s with log := s.log.clear, installed := 0 }.setPc p (.here (.headRead true))
  have hpc' : s'.pc = update s.pc p (.here (.headRead true)) := rfl
  have hp : s.LocOk p .clear := hi.pcOk_eq hpc
  have hstage : s.log.lh.n ≤ s.installed := hp.stage
  have hnone : ∀ d n, ¬ s.Logged d n := by
    rintro d n ⟨-, i, h1, h2, -⟩
    omega
  have hnone' : ∀ d n, ¬ s'.Logged d n := by
    rintro d n ⟨-, i, -, h2, -⟩
    have h3 : (i : ℤ) < 0 := h2
    omega
  have halone : ∀ q, q ≠ p → (s.pc q).loc = .user := by
    intro q hq
    by_contra hx
    exact hq (hi.commits.alone q p hx (by rw [loc_here hpc]; simp))
  have hf : Frame s s' p :=
    ⟨fun q hq => update_of_ne hq .., fun q b _ h => ⟨h, rfl, rfl, rfl, rfl⟩,
      fun _ _ => ⟨rfl, rfl⟩, fun q hq hx => absurd (halone q hq) hx, rfl⟩
  refine ⟨⟨hi.coherent.list, hi.coherent.unique, hi.coherent.valid, fun d n hd => ?_,
    fun d n h => absurd h (hnone' d n), hi.coherent.dirty⟩, ⟨fun q hq => ?_, fun q r hq hr => ?_,
    hi.commits.outstanding, fun _ => rfl, hi.commits.logDev, le_rfl⟩, fun b => ?_, ?_,
    hi.pcOk_of hf ?_⟩
  · obtain ⟨b, h1, h2, h3, h4 | h4⟩ := hi.coherent.disk d n hd
    · exact absurd h4 (hnone d n)
    · exact ⟨b, h1, h2, h3, .inr h4⟩
  · by_cases hqp : q = p
    · exact hi.commits.committing p (by rw [loc_here hpc]; simp)
    · rw [hpc', update_of_ne hqp] at hq
      exact hi.commits.committing q hq
  · have honly : ∀ r, (s'.pc r).loc ≠ .user → r = p := by
      intro r hr
      by_contra hrp
      rw [hpc', update_of_ne hrp] at hr
      exact hr (halone r hrp)
    rw [honly q hq, honly r hr]
  · refine hi.count_of (c := .here (.headRead true)) rfl (ref_here hpc).symm b ?_
    rw [logPins_eq_zero_iff.mpr (hnone _ _), logPins_eq_zero_iff.mpr (hnone' _ _)]
    rfl
  · exact hi.held_of hpc (c := .here (.headRead true)) rfl (fun _ _ h => h) fun _ _ _ h => h
  · rw [hpc', update_self]
    exact ⟨by simp [clean], by simp [BioLoc.wet], by simp [clean, BioLoc.wet],
      by simp [BioLoc.home], by simp [unpins], rfl⟩

end Xv6.BufSys
