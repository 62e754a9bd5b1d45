import Xv6.File.Ftable

/-!
# References to open files are counted

`Counts s x` says that the reference count of every file is the number of descriptors that point to
it, plus `x`: the references that a call in progress has taken and not stored yet, or stored and not
counted yet. Between calls `x` is zero.

`Ends` is about pipes: an end of a pipe is one entry of the file table, and it is open exactly as
long as that entry is in use. It looks at the file table only, so the two halves of the invariant
`Inv` are kept for different reasons, and each of the functions of `file.c` has one specification
that carries both.
-/

namespace Xv6.FileSys

open Function CountIs Prog

variable {P : Type} [DecidableEq P] {s s' : FileSys P} {x : FileId → ℤ} {f g : FileId} {p q : P}
  {fd k : ℕ} {w : Bool}

/-- The counts are exact, but for the `x f` references that a call has. -/
structure Counts (s : FileSys P) (x : FileId → ℤ) : Prop where
  count : ∀ f, ∃ n : ℕ, CountIs (fun y : P × ℕ => s.ofile y.1 y.2 = some f) n ∧
    (s.file f).ref = n + x f
  bound : ∀ p fd, NOFILE ≤ fd → s.ofile p fd = none
  dead : ∀ p, s.alive p = false → ∀ fd, s.ofile p fd = none

/-- The entry is an end of pipe `k`, the one that is `writable` or not. -/
def IsEnd (s : FileSys P) (f : FileId) (k : ℕ) (w : Bool) : Prop :=
  0 < (s.file f).ref ∧ (s.file f).type = .pipe ∧ (s.file f).pipe = k ∧ (s.file f).writable = w

/-- The ends of the pipes. -/
structure Ends (s : FileSys P) : Prop where
  nonneg : ∀ f, 0 ≤ (s.file f).ref
  free : ∀ f, (s.file f).ref = 0 → (s.file f).type = .none
  unique : ∀ f g k w, s.IsEnd f k w → s.IsEnd g k w → f = g
  known : ∀ f k w, s.IsEnd f k w → k < s.npipe
  opens : ∀ k, k < s.npipe → ∀ w, (s.pipe k).isOpen w = true ↔ ∃ f, s.IsEnd f k w
  freed : ∀ k, s.freed k =
    if k < s.npipe ∧ (s.pipe k).isOpen false = false ∧ (s.pipe k).isOpen true = false then 1 else 0

/-- The counts and the pipe ends are right. -/
structure Inv (s : FileSys P) (x : FileId → ℤ) : Prop where
  counts : s.Counts x
  ends : s.Ends

/-! ## Descriptors -/

lemma Counts.pos (h : s.Counts x) (hf : s.ofile p fd = some f) (hx : 0 ≤ x f) :
    0 < (s.file f).ref := by
  obtain ⟨n, hn, href⟩ := h.count f
  have := hn.pos (i := (p, fd)) hf
  omega

lemma setOfile_apply (s : FileSys P) (p : P) (fd : ℕ) (o : Option FileId) (y : P × ℕ) :
    (s.setOfile p fd o).ofile y.1 y.2 = update (fun y : P × ℕ => s.ofile y.1 y.2) (p, fd) o y := by
  obtain ⟨q, fd'⟩ := y
  simp only [setOfile, update_apply, Prod.mk.injEq]
  by_cases hq : q = p
  · subst hq
    simp [update_apply]
  · simp [hq]

lemma Counts.link (h : s.Counts x) (p : P) (fd : ℕ) (f : FileId) (h0 : s.ofile p fd = none)
    (hfd : fd < NOFILE)
    (hp : s.alive p = true) : (s.setOfile p fd (some f)).Counts (x - Pi.single f 1) := by
  refine ⟨fun g => ?_, fun q fd' hq => ?_, fun q hq fd' => ?_⟩
  · obtain ⟨n, hn, href⟩ := h.count g
    simp only [setOfile_apply]
    by_cases hg : g = f
    · subst hg
      refine ⟨n + 1, update_insert (fun o => o = some g) hn (by simp [h0]) rfl, ?_⟩
      show (s.file g).ref = _
      simp only [Pi.sub_apply, Pi.single_eq_same]
      push_cast
      omega
    · refine ⟨n, update_congr (fun o => o = some g) hn ?_, ?_⟩
      · simp [h0, Ne.symm hg]
      · show (s.file g).ref = _
        simp only [Pi.sub_apply, Pi.single_eq_of_ne hg]
        omega
  · have hne : ((q, fd') : P × ℕ) ≠ (p, fd) := by
      intro he
      rw [Prod.mk.injEq] at he
      omega
    have := setOfile_apply s p fd (some f) (q, fd')
    rw [update_of_ne hne] at this
    exact this.trans (h.bound q fd' hq)
  · have hne : ((q, fd') : P × ℕ) ≠ (p, fd) := by
      intro he
      rw [Prod.mk.injEq] at he
      rw [he.1] at hq
      exact Bool.false_ne_true (hq.symm.trans hp)
    have := setOfile_apply s p fd (some f) (q, fd')
    rw [update_of_ne hne] at this
    exact this.trans (h.dead q hq fd')

lemma Counts.unlink (h : s.Counts x) (p : P) (fd : ℕ) (f : FileId) (hf : s.ofile p fd = some f) :
    (s.setOfile p fd none).Counts (x + Pi.single f 1) := by
  have hnone : ∀ q fd', s.ofile q fd' = none → (s.setOfile p fd none).ofile q fd' = none := by
    intro q fd' hq
    have := setOfile_apply s p fd none (q, fd')
    rw [this, update_apply]
    split_ifs
    · rfl
    · exact hq
  refine ⟨fun g => ?_, fun q fd' hq => hnone _ _ (h.bound q fd' hq),
    fun q hq fd' => hnone _ _ (h.dead q hq fd')⟩
  obtain ⟨n, hn, href⟩ := h.count g
  simp only [setOfile_apply]
  by_cases hg : g = f
  · subst hg
    obtain ⟨m, rfl, hm⟩ := update_erase (fun o => o = some g) hn (i := (p, fd)) hf
      (b := none) (by simp)
    refine ⟨m, hm, ?_⟩
    show (s.file g).ref = _
    simp only [Pi.add_apply, Pi.single_eq_same]
    push_cast at href
    omega
  · refine ⟨n, update_congr (fun o => o = some g) hn ?_, ?_⟩
    · simp [hf, Ne.symm hg]
    · show (s.file g).ref = _
      simp only [Pi.add_apply, Pi.single_eq_of_ne hg]
      omega

variable {e : FileEnt}

lemma Counts.setFile (h : s.Counts x) {d : ℤ} (hd : e.ref = (s.file f).ref + d) :
    (s.setFile f e).Counts (x + Pi.single f d) := by
  refine ⟨fun g => ?_, h.bound, h.dead⟩
  obtain ⟨n, hn, href⟩ := h.count g
  refine ⟨n, hn, ?_⟩
  by_cases hg : g = f
  · subst hg
    simp only [FileSys.setFile, update_self, Pi.add_apply, Pi.single_eq_same]
    omega
  · simp only [FileSys.setFile, update_of_ne hg, Pi.add_apply, Pi.single_eq_of_ne hg]
    omega

/-! ## Ends of pipes -/

lemma Ends.congr (h : s.Ends) (hend : ∀ f k w, s'.IsEnd f k w ↔ s.IsEnd f k w)
    (hnonneg : ∀ f, 0 ≤ (s'.file f).ref)
    (hfree : ∀ f, (s'.file f).ref = 0 → (s'.file f).type = .none) (hpipe : s'.pipe = s.pipe)
    (hnpipe : s'.npipe = s.npipe) (hfreed : s'.freed = s.freed) : s'.Ends := by
  refine ⟨hnonneg, hfree, ?_, ?_, ?_, ?_⟩
  · intro f g k w hf hg
    exact h.unique f g k w ((hend f k w).mp hf) ((hend g k w).mp hg)
  · intro f k w hf
    rw [hnpipe]
    exact h.known f k w ((hend f k w).mp hf)
  · intro k hk w
    rw [hnpipe] at hk
    simp only [hpipe, hend]
    exact h.opens k hk w
  · intro k
    rw [hfreed, hnpipe, hpipe]
    exact h.freed k

lemma isEnd_setFile_of_ne (hg : g ≠ f) : (s.setFile f e).IsEnd g k w ↔ s.IsEnd g k w := by
  simp only [IsEnd, setFile, update_of_ne hg]

lemma isEnd_setFile_self : (s.setFile f e).IsEnd f k w ↔
    0 < e.ref ∧ e.type = .pipe ∧ e.pipe = k ∧ e.writable = w := by
  simp only [IsEnd, setFile, update_self]

lemma Ends.setFile (h : s.Ends) (hnonneg : 0 ≤ e.ref) (hfree : e.ref = 0 → e.type = .none)
    (hend : ∀ k w, (0 < e.ref ∧ e.type = .pipe ∧ e.pipe = k ∧ e.writable = w) ↔ s.IsEnd f k w) :
    (s.setFile f e).Ends := by
  refine h.congr (fun g k w => ?_) (fun g => ?_) (fun g => ?_) rfl rfl rfl
  · by_cases hg : g = f
    · subst hg
      rw [isEnd_setFile_self]
      exact hend k w
    · exact isEnd_setFile_of_ne hg
  · by_cases hg : g = f
    · subst hg
      simpa [FileSys.setFile] using hnonneg
    · simpa [FileSys.setFile, hg] using h.nonneg g
  · by_cases hg : g = f
    · subst hg
      simpa [FileSys.setFile] using hfree
    · simpa [FileSys.setFile, hg] using h.free g

lemma Ends.setOfile {o : Option FileId} (h : s.Ends) : (s.setOfile p fd o).Ends :=
  { h with }

lemma not_isEnd_of_none (h : (s.file f).type = .none) : ¬ s.IsEnd f k w := by
  rintro ⟨-, ht, -⟩
  rw [h] at ht
  cases ht

lemma isOpen_close (pi : PipeEnds) (w' : Bool) :
    (if w then { pi with writeopen := false } else { pi with readopen := false }).isOpen w' =
      (pi.isOpen w' && (w' != w)) := by
  cases w <;> cases w' <;> simp [PipeEnds.isOpen]

lemma Ends.closeEnd (h : s.Ends) (hf : s.IsEnd f k w) (href : e.ref = 0)
    (htype : e.type = .none) : ((s.setFile f e).pipeclose k w).Ends := by
  have hend : ∀ g k' w', ((s.setFile f e).pipeclose k w).IsEnd g k' w' ↔
      s.IsEnd g k' w' ∧ g ≠ f := by
    intro g k' w'
    have hfile : ((s.setFile f e).pipeclose k w).file = (s.setFile f e).file := by
      simp only [pipeclose]
      split_ifs <;> rfl
    have hiff : ((s.setFile f e).pipeclose k w).IsEnd g k' w' ↔ (s.setFile f e).IsEnd g k' w' := by
      simp only [IsEnd, hfile]
    rw [hiff]
    by_cases hg : g = f
    · subst hg
      rw [isEnd_setFile_self, href]
      simp
    · rw [isEnd_setFile_of_ne hg]
      simp [hg]
  have hnpipe : ((s.setFile f e).pipeclose k w).npipe = s.npipe := by
    simp only [pipeclose]
    split_ifs <;> rfl
  have hopen : ∀ k' w', (((s.setFile f e).pipeclose k w).pipe k').isOpen w' =
      ((s.pipe k').isOpen w' && !(k' = k && w' = w)) := by
    intro k' w'
    have hpipe : ((s.setFile f e).pipeclose k w).pipe = update s.pipe k
        (if w then { s.pipe k with writeopen := false }
        else { s.pipe k with readopen := false }) := by
      simp only [pipeclose]
      split_ifs <;> rfl
    rw [hpipe]
    by_cases hk : k' = k
    · subst hk
      rw [update_self, isOpen_close]
      cases w <;> cases w' <;> simp
    · rw [update_of_ne hk]
      simp [hk]
  have hk : k < s.npipe := h.known f k w hf
  refine ⟨fun g => ?_, fun g => ?_, ?_, ?_, ?_, ?_⟩
  · have hfile : ((s.setFile f e).pipeclose k w).file g = (s.setFile f e).file g := by
      simp only [pipeclose]
      split_ifs <;> rfl
    rw [hfile]
    by_cases hg : g = f
    · subst hg
      simp [FileSys.setFile, href]
    · simpa [FileSys.setFile, hg] using h.nonneg g
  · have hfile : ((s.setFile f e).pipeclose k w).file g = (s.setFile f e).file g := by
      simp only [pipeclose]
      split_ifs <;> rfl
    rw [hfile]
    by_cases hg : g = f
    · subst hg
      simp [FileSys.setFile, htype]
    · simpa [FileSys.setFile, hg] using h.free g
  · intro g g' k' w' hg hg'
    exact h.unique g g' k' w' ((hend _ _ _).mp hg).1 ((hend _ _ _).mp hg').1
  · intro g k' w' hg
    rw [hnpipe]
    exact h.known g k' w' ((hend _ _ _).mp hg).1
  · intro k' hk' w'
    rw [hnpipe] at hk'
    rw [hopen, Bool.and_eq_true, h.opens k' hk' w']
    simp only [hend]
    constructor
    · rintro ⟨⟨g, hg⟩, hne⟩
      refine ⟨g, hg, ?_⟩
      rintro rfl
      obtain ⟨-, -, h1, h2⟩ := hf
      obtain ⟨-, -, h3, h4⟩ := hg
      simp [← h1, ← h2, ← h3, ← h4] at hne
    · rintro ⟨g, hg, hne⟩
      refine ⟨⟨g, hg⟩, ?_⟩
      by_contra hx
      simp only [Bool.not_eq_true, Bool.not_eq_false', Bool.and_eq_true, decide_eq_true_eq] at hx
      obtain ⟨rfl, rfl⟩ := hx
      exact hne (h.unique g f _ _ hg hf)
  · -- `kfree` is called when the other flag is 0 too; before, this end was open
    intro k'
    have hwas : (s.pipe k).isOpen w = true := (h.opens k hk w).mpr ⟨f, hf⟩
    have hfreed : ((s.setFile f e).pipeclose k w).freed k' =
        if k' = k ∧ (s.pipe k).isOpen (!w) = false then s.freed k' + 1 else s.freed k' := by
      simp only [pipeclose]
      by_cases hother : (s.pipe k).isOpen (!w) = false
      · rw [if_pos (by cases w <;> simpa [PipeEnds.isOpen, FileSys.setFile] using hother)]
        by_cases hk' : k' = k
        · subst hk'
          simp [FileSys.setFile, hother]
        · simp [FileSys.setFile, hk']
      · rw [if_neg (by cases w <;> simpa [PipeEnds.isOpen, FileSys.setFile] using hother)]
        simp [FileSys.setFile, hother]
    rw [hfreed, hnpipe, hopen, hopen]
    have hold := h.freed k'
    by_cases hk' : k' = k
    · subst hk'
      cases w <;> cases hother : (s.pipe k').isOpen false <;>
        cases hother' : (s.pipe k').isOpen true <;> simp_all
    · simpa [hk'] using hold

lemma Ends.newPipe (h : s.Ends) (hne : f ≠ g) (hf : (s.file f).ref = 1 ∧ (s.file f).type = .none)
    (hg : (s.file g).ref = 1 ∧ (s.file g).type = .none) : (s.newPipe f g).Ends := by
  have hfile : ∀ i, (s.newPipe f g).file i =
      if i = g then { s.file g with type := .pipe, readable := false, writable := true, pipe :=
        s.npipe }
      else if i = f then
        { s.file f with type := .pipe, readable := true, writable := false, pipe := s.npipe }
      else s.file i := by
    intro i
    simp only [FileSys.newPipe, FileSys.setFile, update_apply, hne.symm, if_false]
  have hend : ∀ i k w, (s.newPipe f g).IsEnd i k w ↔ s.IsEnd i k w ∨
      (k = s.npipe ∧ ((i = f ∧ w = false) ∨ (i = g ∧ w = true))) := by
    intro i k w
    rw [IsEnd, hfile]
    by_cases hi : i = g
    · subst hi
      have hno := not_isEnd_of_none (k := k) (w := w) hg.2
      simp only [if_true, hg.1, hne.symm, hno]
      cases w <;> simp [eq_comm]
    rw [if_neg hi]
    by_cases hi' : i = f
    · subst hi'
      have hno := not_isEnd_of_none (k := k) (w := w) hf.2
      simp only [if_true, hf.1, hi, hno]
      cases w <;> simp [eq_comm]
    · rw [if_neg hi']
      simp [IsEnd, hi, hi']
  have hold : ∀ i k w, s.IsEnd i k w → k ≠ s.npipe := fun i k w hi => (h.known i k w hi).ne
  have hpipe : ∀ k, k ≠ s.npipe → (s.newPipe f g).pipe k = s.pipe k := fun k hk =>
    update_of_ne hk _ _
  refine ⟨fun i => ?_, fun i => ?_, ?_, ?_, ?_, ?_⟩
  · rw [hfile]
    split_ifs
    · exact h.nonneg g
    · exact h.nonneg f
    · exact h.nonneg i
  · rw [hfile]
    split_ifs
    · intro h0
      exact absurd (hg.1.symm.trans h0) one_ne_zero
    · intro h0
      exact absurd (hf.1.symm.trans h0) one_ne_zero
    · exact h.free i
  · intro i j k w hi hj
    rcases (hend i k w).mp hi with hi | ⟨hk, hi⟩ <;> rcases (hend j k w).mp hj with hj | ⟨hk', hj⟩
    · exact h.unique i j k w hi hj
    · exact absurd hk' (hold i k w hi)
    · exact absurd hk (hold j k w hj)
    · cases w <;> simp_all
  · intro i k w hi
    rcases (hend i k w).mp hi with hi | ⟨rfl, -⟩
    · exact Nat.lt_succ_of_lt (h.known i k w hi)
    · exact Nat.lt_succ_self _
  · intro k hk w
    simp only [hend]
    by_cases hk' : k = s.npipe
    · subst hk'
      have hpi : (s.newPipe f g).pipe s.npipe = ⟨true, true⟩ := update_self ..
      rw [hpi]
      cases w
      · exact iff_of_true rfl ⟨f, .inr ⟨rfl, .inl ⟨rfl, rfl⟩⟩⟩
      · exact iff_of_true rfl ⟨g, .inr ⟨rfl, .inr ⟨rfl, rfl⟩⟩⟩
    · have hlt : k < s.npipe := by
        have : k < s.npipe + 1 := hk
        omega
      rw [hpipe k hk', h.opens k hlt w]
      simp [hk']
  · intro k
    have hnew : (s.newPipe f g).npipe = s.npipe + 1 := rfl
    show s.freed k = _
    rw [h.freed k, hnew]
    by_cases hk' : k = s.npipe
    · subst hk'
      have hpi : (s.newPipe f g).pipe s.npipe = ⟨true, true⟩ := update_self ..
      rw [hpi]
      simp [PipeEnds.isOpen]
    · rw [hpipe k hk']
      have hlt : k < s.npipe + 1 ↔ k < s.npipe := by omega
      simp only [hlt]

lemma Inv.setUp (h : s.Inv x) (hpos : 0 < (s.file f).ref)
    (htype : (s.file f).type = .none) (href : e.ref = (s.file f).ref) (he : e.type ≠ .pipe) :
    (s.setFile f e).Inv x := by
  have hcounts := h.counts.setFile (by rw [href, add_zero])
  rw [Pi.single_zero, add_zero] at hcounts
  refine ⟨hcounts, h.ends.setFile (by omega) (by omega) fun k w => ?_⟩
  exact iff_of_false (fun hx => he hx.2.1) (not_isEnd_of_none htype)

/-! ## The functions of `file.c` -/

lemma filealloc_cases : wp filealloc s (fun r s' => match r with
    | some f => (s.file f).ref = 0 ∧ s' = s.setFile f { s.file f with ref := 1 }
    | none => s' = s) fun _ => False := by
  simp only [filealloc, wp_bind, wp_get]
  cases hfind : (List.finRange NFILE).find? fun f => decide ((s.file f).ref = 0) with
  | none => simp
  | some f =>
    have hfree : (s.file f).ref = 0 := by simpa using List.find?_some hfind
    simp only [wp_bind, wp_set, wp_pure]
    exact ⟨hfree, trivial⟩

/-- An unused entry becomes a file with one reference that is not stored yet. -/
lemma filealloc_spec (h : s.Inv x) : wp filealloc s (fun r s' => match r with
    | some f => s'.Inv (x + Pi.single f 1) ∧ (s.file f).ref = 0 ∧
        s' = s.setFile f { s.file f with ref := 1 }
    | none => s' = s) fun _ => False := by
  refine filealloc_cases.post ?_
  rintro (_ | f) t ht
  · exact ht
  · obtain ⟨hfree, rfl⟩ := ht
    have htype := h.ends.free f hfree
    refine ⟨⟨h.counts.setFile (by simp [hfree]), ?_⟩, hfree, rfl⟩
    refine h.ends.setFile (by simp) (by simp) fun k w => ?_
    exact iff_of_false (by simp [htype]) (not_isEnd_of_none htype)

lemma filedup_spec (h : s.Inv x) (hf : 0 < (s.file f).ref) : wp (filedup f) s
    (fun _ s' => s'.Inv (x + Pi.single f 1) ∧ s'.ofile = s.ofile ∧ s'.alive = s.alive)
    fun _ => False := by
  have hlt : ¬ (s.file f).ref < 1 := by omega
  simp only [filedup, wp_bind, wp_get, hlt, if_false, wp_set]
  refine ⟨⟨h.counts.setFile rfl, h.ends.setFile ?_ ?_ fun k w => ?_⟩, rfl, rfl⟩
  · show 0 ≤ (s.file f).ref + 1
    omega
  · intro h0
    have : (s.file f).ref + 1 = 0 := h0
    omega
  · have hpos : 0 < (s.file f).ref + 1 := by omega
    simp [IsEnd, hf, hpos]

lemma pipeclose_frame (s : FileSys P) (k : ℕ) (w : Bool) : (s.pipeclose k w).file = s.file ∧
    (s.pipeclose k w).ofile = s.ofile ∧ (s.pipeclose k w).alive = s.alive := by
  simp only [pipeclose]
  split_ifs <;> exact ⟨rfl, rfl, rfl⟩

lemma fileclose_spec (h : s.Inv x) (hf : 0 < (s.file f).ref) : wp (fileclose f) s
    (fun _ s' => s'.Inv (x - Pi.single f 1) ∧ s'.ofile = s.ofile ∧ s'.alive = s.alive ∧
      ∀ g, g ≠ f → s'.file g = s.file g) fun _ => False := by
  have hlt : ¬ (s.file f).ref < 1 := by omega
  have hx : x - Pi.single f 1 = x + Pi.single f (-1) := by
    rw [Pi.single_neg, sub_eq_add_neg]
  simp only [fileclose, wp_bind, wp_get, hlt, if_false]
  rw [wp_ite]
  refine ⟨fun hmore => ?_, fun hlast => ?_⟩
  · rw [wp_set, hx]
    refine ⟨⟨h.counts.setFile rfl, h.ends.setFile ?_ ?_ fun k w => ?_⟩, rfl, rfl, fun g hg => ?_⟩
    · exact hmore.le
    · exact fun h0 => absurd h0 hmore.ne'
    · exact ⟨fun he => ⟨hf, he.2⟩, fun he => ⟨hmore, he.2⟩⟩
    · exact update_of_ne hg _ _
  · have hone : (s.file f).ref = 1 := by omega
    have hcounts : (s.setFile f { s.file f with ref := 0, type := .none }).Counts
        (x - Pi.single f 1) := by
      rw [hx]
      exact h.counts.setFile (by simp [hone])
    simp only [wp_bind, wp_set]
    rw [wp_ite]
    refine ⟨fun hpipe => ?_, fun hpipe => ?_⟩
    · rw [wp_modify]
      obtain ⟨h1, h2, h3⟩ := pipeclose_frame (s.setFile f { s.file f with ref := 0, type := .none })
        (s.file f).pipe (s.file f).writable
      refine ⟨⟨⟨?_, ?_, ?_⟩, ?_⟩, h2, h3, fun g hg => ?_⟩
      · rw [h1, h2]
        exact hcounts.count
      · rw [h2]
        exact hcounts.bound
      · rw [h2, h3]
        exact hcounts.dead
      · exact h.ends.closeEnd ⟨hf, hpipe, rfl, rfl⟩ rfl rfl
      · rw [h1]
        exact update_of_ne hg _ _
    · rw [wp_pure]
      refine ⟨⟨hcounts, h.ends.setFile le_rfl (fun _ => rfl) fun k w => ?_⟩, rfl, rfl,
        fun g hg => ?_⟩
      · exact iff_of_false (by simp) fun he => hpipe he.2.1
      · exact update_of_ne hg _ _

lemma fdalloc_cases : wp (fdalloc p f) s (fun r s' => match r with
      | some fd => fd < NOFILE ∧ s.ofile p fd = none ∧ s' = s.setOfile p fd (some f)
      | none => s' = s) fun _ => False := by
  simp only [fdalloc, wp_bind, wp_get]
  cases hfind : (List.range NOFILE).find? fun fd => decide (s.ofile p fd = none) with
  | none => simp
  | some fd =>
    have hnone : s.ofile p fd = none := by simpa using List.find?_some hfind
    have hlt : fd < NOFILE := List.mem_range.mp (List.mem_of_find?_eq_some hfind)
    simp only [wp_bind, wp_set, wp_pure]
    exact ⟨hlt, hnone, trivial⟩

lemma fdalloc_spec (h : s.Inv x) (hp : s.alive p = true) : wp (fdalloc p f) s
    (fun r s' => match r with
      | some fd => s'.Inv (x - Pi.single f 1) ∧ fd < NOFILE ∧ s.ofile p fd = none ∧
          s' = s.setOfile p fd (some f)
      | none => s' = s) fun _ => False := by
  refine fdalloc_cases.post ?_
  rintro (_ | fd) t ht
  · exact ht
  · obtain ⟨hlt, hnone, rfl⟩ := ht
    exact ⟨⟨h.counts.link _ _ _ hnone hlt hp, h.ends.setOfile⟩, hlt, hnone, rfl⟩

lemma argfd_some {fd : ℤ} {n : ℕ} (h : s.argfd p fd = some (n, f)) : s.ofile p n = some f := by
  rw [argfd] at h
  split_ifs at h
  obtain ⟨g, hg, he⟩ := Option.map_eq_some_iff.mp h
  cases he
  exact hg

/-! ## System calls -/

lemma sysDup_spec (h : s.Inv 0) (hp : s.alive p = true) (fd : ℤ) :
    wp (sysDup p fd) s (fun _ s' => s'.Inv 0) fun _ => False := by
  simp only [sysDup, wp_bind, wp_get]
  cases hfd : s.argfd p fd with
  | none => exact wp_pure.mpr h
  | some r =>
    obtain ⟨n, f⟩ := r
    have hpos := h.counts.pos (argfd_some hfd) le_rfl
    refine (fdalloc_spec h hp).bind ?_
    rintro (_ | fd') t ht
    · obtain rfl : t = s := ht
      exact wp_pure.mpr h
    · obtain ⟨hinv, -, -, rfl⟩ := ht
      rw [wp_bind]
      refine (filedup_spec hinv hpos).post fun _ t ht => wp_pure.mpr ?_
      simpa using ht.1

lemma sysClose_spec (h : s.Inv 0) (fd : ℤ) :
    wp (sysClose p fd) s (fun _ s' => s'.Inv 0) fun _ => False := by
  simp only [sysClose, wp_bind, wp_get]
  cases hfd : s.argfd p fd with
  | none => exact wp_pure.mpr h
  | some r =>
    obtain ⟨n, f⟩ := r
    have hslot := argfd_some hfd
    rw [wp_bind, wp_modify, wp_bind]
    refine (fileclose_spec ⟨h.counts.unlink _ _ _ hslot, h.ends.setOfile⟩
      (h.counts.pos hslot le_rfl)).post fun _ t ht => wp_pure.mpr ?_
    simpa using ht.1

lemma sysOpen_spec (h : s.Inv 0) (hp : s.alive p = true) (args : Option OpenArgs) :
    wp (sysOpen p args) s (fun _ s' => s'.Inv 0) fun _ => False := by
  cases args with
  | none => exact wp_pure.mpr h
  | some a =>
    simp only [sysOpen]
    refine (filealloc_spec h).bind ?_
    rintro (_ | f) t ht
    · obtain rfl : t = s := ht
      exact wp_pure.mpr h
    obtain ⟨hinv, hfree, rfl⟩ := ht
    have hnew : (s.setFile f { s.file f with ref := 1 }).file f = { s.file f with ref := 1 } :=
      update_self ..
    refine (fdalloc_spec hinv hp).bind ?_
    rintro (_ | fd) t ht
    · obtain rfl : t = _ := ht
      rw [wp_bind]
      refine (fileclose_spec hinv (by rw [hnew]; exact one_pos)).post fun _ t ht => wp_pure.mpr ?_
      simpa using ht.1
    · obtain ⟨hinv', -, -, rfl⟩ := ht
      simp only [wp_bind, wp_modify, wp_pure]
      refine (show _ from add_sub_cancel_right (0 : FileId → ℤ) (Pi.single f 1)) ▸
        hinv'.setUp ?_ ?_ rfl ?_
      · show 0 < ((s.setFile f { s.file f with ref := 1 }).file f).ref
        rw [hnew]
        exact one_pos
      · show ((s.setFile f { s.file f with ref := 1 }).file f).type = .none
        rw [hnew]
        exact h.ends.free f hfree
      · cases a.device <;> simp

/-- The two ends of a new pipe, each with one reference that is not stored yet, or nothing. -/
lemma pipealloc_spec (h : s.Inv 0) (kalloc : Bool) : wp (pipealloc kalloc) s (fun r s' =>
    s'.alive = s.alive ∧ match r with
    | some (f, g) => s'.Inv (Pi.single f 1 + Pi.single g 1) ∧ f ≠ g ∧ 0 < (s'.file f).ref ∧
        0 < (s'.file g).ref
    | none => s'.Inv 0) fun _ => False := by
  simp only [pipealloc]
  refine (filealloc_spec h).bind ?_
  rintro (_ | f) t ht
  · obtain rfl : t = s := ht
    exact wp_pure.mpr ⟨rfl, h⟩
  obtain ⟨hinv, hfree, rfl⟩ := ht
  have hf : (s.setFile f { s.file f with ref := 1 }).file f = { s.file f with ref := 1 } :=
    update_self ..
  refine (filealloc_spec hinv).bind ?_
  rintro (_ | g) t ht
  · obtain rfl : t = _ := ht
    rw [wp_bind]
    refine (fileclose_spec hinv (by rw [hf]; exact one_pos)).post fun _ t ht => wp_pure.mpr ?_
    exact ⟨ht.2.2.1, by simpa using ht.1⟩
  obtain ⟨hinv', hfree', rfl⟩ := ht
  have hne : f ≠ g := by
    rintro rfl
    rw [hf] at hfree'
    cases hfree'
  have hg0 : (s.setFile f { s.file f with ref := 1 }).file g = s.file g :=
    update_of_ne hne.symm _ _
  rw [hg0] at hinv' ⊢
  have hff : ((s.setFile f { s.file f with ref := 1 }).setFile g { s.file g with ref := 1 }).file f
      = { s.file f with ref := 1 } := (update_of_ne hne _ _).trans hf
  have hgg : ((s.setFile f { s.file f with ref := 1 }).setFile g { s.file g with ref := 1 }).file g
      = { s.file g with ref := 1 } := update_self ..
  rw [hg0] at hfree'
  rw [wp_ite]
  refine ⟨fun _ => ?_, fun _ => ?_⟩
  · simp only [wp_bind, wp_modify, wp_pure]
    refine ⟨rfl, ⟨?_, hinv'.ends.newPipe hne ?_ ?_⟩, hne, ?_, ?_⟩
    · have hsame : ∀ i, ((((s.setFile f { s.file f with ref := 1 }).setFile g
          { s.file g with ref := 1 }).newPipe f g).file i).ref =
          (((s.setFile f { s.file f with ref := 1 }).setFile g { s.file g with ref := 1 }).file
            i).ref := by
        intro i
        simp only [FileSys.newPipe, FileSys.setFile, update_apply]
        split_ifs <;> simp_all
      refine ⟨fun i => ?_, hinv'.counts.bound, hinv'.counts.dead⟩
      obtain ⟨n, hn, href⟩ := hinv'.counts.count i
      rw [zero_add] at href
      exact ⟨n, hn, (hsame i).trans href⟩
    · rw [hff]
      exact ⟨rfl, h.ends.free f hfree⟩
    · rw [hgg]
      exact ⟨rfl, h.ends.free g hfree'⟩
    · simp [FileSys.newPipe, FileSys.setFile, hne]
    · simp [FileSys.newPipe, FileSys.setFile, hne.symm]
  · simp only [wp_bind]
    refine (fileclose_spec hinv' (by rw [hff]; exact one_pos)).post fun _ t ht => ?_
    obtain ⟨ht1, -, ht2, ht3⟩ := ht
    refine (fileclose_spec ht1 (by rw [ht3 g hne.symm, hgg]; exact one_pos)).post fun _ u hu =>
      wp_pure.mpr ?_
    exact ⟨hu.2.2.1.trans ht2, by simpa [add_sub_right_comm] using hu.1⟩

lemma closeBoth_spec (h : s.Inv (Pi.single f 1 + Pi.single g 1)) (hne : f ≠ g)
    (hf : 0 < (s.file f).ref) (hg : 0 < (s.file g).ref) :
    wp (do fileclose f; fileclose g; return (-1 : ℤ)) s (fun _ s' => s'.Inv 0) fun _ => False := by
  simp only [wp_bind]
  refine (fileclose_spec h hf).post fun _ t ht => ?_
  obtain ⟨ht1, -, -, ht2⟩ := ht
  refine (fileclose_spec ht1 (by rw [ht2 g hne.symm]; exact hg)).post fun _ u hu => wp_pure.mpr ?_
  simpa [add_sub_right_comm] using hu.1

lemma sysPipe_spec (h : s.Inv 0) (hp : s.alive p = true) (kalloc copyout : Bool) :
    wp (sysPipe p kalloc copyout) s (fun _ s' => s'.Inv 0) fun _ => False := by
  simp only [sysPipe]
  refine (pipealloc_spec h kalloc).bind ?_
  rintro (_ | ⟨f, g⟩) t ⟨hal, ht⟩
  · exact wp_pure.mpr ht
  obtain ⟨hinv, hne, hf, hg⟩ := ht
  have hpt : t.alive p = true := by rwa [hal]
  simp only
  refine (fdalloc_spec hinv hpt).bind ?_
  rintro (_ | fd0) u hu
  · obtain rfl : u = t := hu
    exact closeBoth_spec hinv hne hf hg
  obtain ⟨hinv1, hfd0, hnone0, rfl⟩ := hu
  simp only
  refine (fdalloc_spec hinv1 hpt).bind ?_
  have hslot0 : (t.setOfile p fd0 (some f)).ofile p fd0 = some f := by simp [setOfile]
  rintro (_ | fd1) v hv
  · obtain rfl : v = _ := hv
    rw [wp_bind, wp_modify]
    have hback := hinv1.counts.unlink _ _ _ hslot0
    rw [sub_add_cancel] at hback
    exact closeBoth_spec ⟨hback, hinv1.ends.setOfile⟩ hne hf hg
  obtain ⟨hinv2, hfd1, hnone1, rfl⟩ := hv
  rw [wp_ite]
  refine ⟨fun _ => ?_, fun _ => ?_⟩
  · rw [wp_pure]
    simpa using hinv2
  · rw [wp_bind, wp_modify, wp_bind, wp_modify]
    have h01 : fd1 ≠ fd0 := by
      rintro rfl
      rw [hslot0] at hnone1
      cases hnone1
    have hback0 := hinv2.counts.unlink p fd0 f (by simp [setOfile, h01.symm])
    have hback1 := hback0.unlink p fd1 g (by simp [setOfile, h01])
    have hx : ∀ a b : FileId → ℤ, a + b - a - b + a + b = a + b := fun a b => by abel
    rw [hx] at hback1
    exact closeBoth_spec ⟨hback1, hinv2.ends.setOfile.setOfile⟩ hne hf hg

-- The child's table is filled up to `j`, and every file in it is counted.
lemma kfork_spec (h : s.Inv 0) (hp : s.alive p = true) (hq : s.alive q = false) (ok : Bool) :
    wp (kfork p q ok) s (fun _ s' => s'.Inv 0) fun _ => False := by
  have hpq : p ≠ q := by
    rintro rfl
    rw [hp] at hq
    cases hq
  simp only [kfork]
  rw [wp_ite]
  refine ⟨fun _ => ?_, fun _ => wp_pure.mpr h⟩
  simp only [wp_bind, wp_modify, wp_pure]
  have hstart : { s with alive := update s.alive q true }.Inv 0 := by
    refine ⟨⟨h.counts.count, h.counts.bound, fun r hr => ?_⟩, { h.ends with }⟩
    refine h.counts.dead r ?_
    by_cases hrq : r = q
    · subst hrq
      exact hq
    · simpa [hrq] using hr
  refine (wp_forRange (fun j t => t.Inv 0 ∧ t.alive q = true ∧ ∀ fd, j ≤ fd → t.ofile q fd = none)
    ⟨hstart, by simp, fun fd _ => h.counts.dead q hq fd⟩ ?_).post fun _ t ht => ht.1
  rintro j t - hj ⟨hinv, hal, hnone⟩
  simp only [wp_bind, wp_get]
  cases hfd : t.ofile p j with
  | none => exact wp_pure.mpr ⟨hinv, hal, fun fd hle => hnone fd (by omega)⟩
  | some f =>
    rw [wp_bind]
    refine (filedup_spec hinv (hinv.counts.pos hfd le_rfl)).post fun _ u hu => ?_
    obtain ⟨hu1, hu2, hu3⟩ := hu
    rw [wp_modify]
    have hlink := hu1.counts.link q j f (by rw [hu2]; exact hnone j le_rfl)
      (by omega) (by rw [hu3]; exact hal)
    refine ⟨⟨by simpa using hlink, hu1.ends.setOfile⟩, by rw [← hal, ← hu3]; rfl, fun fd hle => ?_⟩
    have hne : fd ≠ j := by omega
    simp only [setOfile, update_self, update_of_ne hne, hu2]
    exact hnone fd (by omega)

lemma kexit_spec (h : s.Inv 0) : wp (kexit p) s (fun _ s' => s'.Inv 0) fun _ => False := by
  simp only [kexit, wp_bind]
  refine (wp_forRange (fun j t => t.Inv 0 ∧ ∀ fd, fd < j → t.ofile p fd = none)
    ⟨h, fun fd hfd => absurd hfd (Nat.not_lt_zero fd)⟩ ?_).post fun _ t ht => ?_
  · rintro j t - hj ⟨hinv, hnone⟩
    simp only [wp_bind, wp_get]
    cases hfd : t.ofile p j with
    | none =>
      refine wp_pure.mpr ⟨hinv, fun fd hlt => ?_⟩
      by_cases he : fd = j
      · subst he
        exact hfd
      · exact hnone fd (by omega)
    | some f =>
      rw [wp_bind]
      refine (fileclose_spec hinv (hinv.counts.pos hfd le_rfl)).post fun _ u hu => ?_
      obtain ⟨hu1, hu2, -, -⟩ := hu
      rw [wp_modify]
      have hunlink := hu1.counts.unlink p j f (by rw [hu2]; exact hfd)
      refine ⟨⟨by simpa using hunlink, hu1.ends.setOfile⟩, fun fd hlt => ?_⟩
      by_cases he : fd = j
      · simp [setOfile, he]
      · simp only [setOfile, update_self, update_of_ne he, hu2]
        exact hnone fd (by omega)
  · rw [wp_modify, wp_pure]
    obtain ⟨hinv, hnone⟩ := ht
    refine ⟨⟨hinv.counts.count, hinv.counts.bound, fun r hr fd => ?_⟩, { hinv.ends with }⟩
    by_cases hrp : r = p
    · subst hrp
      by_cases hfd : fd < NOFILE
      · exact hnone fd (by omega)
      · exact hinv.counts.bound r fd (by omega)
    · exact hinv.counts.dead r (by simpa [hrp] using hr) fd

lemma call_spec (h : s.Inv 0) (hp : s.alive p = true) (c : FileCall P)
    (hq : ∀ q ok, c = .fork q ok → s.alive q = false) :
    wp (call p c) s (fun _ s' => s'.Inv 0) fun _ => False := by
  cases c with
  | «open» args => exact sysOpen_spec h hp args
  | dup fd => exact sysDup_spec h hp fd
  | pipe kalloc copyout => exact sysPipe_spec h hp kalloc copyout
  | close fd => exact sysClose_spec h fd
  | fork q ok => exact kfork_spec h hp (hq q ok rfl) ok
  | exit => exact kexit_spec h

lemma step_cases {c : FileCall P} : s.step (p, c) = .disabled ∨ (s.alive p = true ∧
    (∀ q ok, c = .fork q ok → s.alive q = false) ∧ s.step (p, c) = .ofExcept (call p c s)) := by
  cases hp : s.alive p with
  | false => exact .inl (by simp [step, hp])
  | true =>
    cases c with
    | fork q ok =>
      cases hq : s.alive q with
      | false =>
        refine .inr ⟨rfl, ?_, by simp [step, hp, hq]⟩
        rintro q' ok' ⟨⟩
        exact hq
      | true => exact .inl (by simp [step, hp, hq])
    | _ => exact .inr ⟨rfl, by rintro q ok ⟨⟩, by simp [step, hp]⟩

lemma Inv.step_next {a : P × FileCall P} (h : s.Inv 0) (hst : s.step a = .next s') : s'.Inv 0 := by
  obtain ⟨p, c⟩ := a
  rcases step_cases (c := c) with hd | ⟨hp, hq, he⟩
  · rw [hd] at hst
    cases hst
  · obtain ⟨r, t, hrun, ht⟩ := (call_spec h hp c hq).returns
    rw [he, hrun] at hst
    cases hst
    exact ht

lemma Inv.step_ne_panic (h : s.Inv 0) (a : P × FileCall P) (e : FilePanic) :
    s.step a ≠ .panic e := by
  obtain ⟨p, c⟩ := a
  rcases step_cases (c := c) with hd | ⟨hp, hq, he⟩
  · rw [hd]
    exact fun hx => by cases hx
  · obtain ⟨r, t, hrun, -⟩ := (call_spec h hp c hq).returns
    rw [he, hrun]
    exact fun hx => by cases hx

lemma Initial.inv (h : s.Initial) : s.Inv 0 := by
  have hend : ∀ f k w, ¬ s.IsEnd f k w := fun f k w => not_isEnd_of_none (h.file f).2
  refine ⟨⟨fun f => ⟨0, ?_, ?_⟩, fun p fd _ => h.ofile p fd, fun p _ fd => h.ofile p fd⟩, ?_⟩
  · rw [zero_iff]
    intro y hy
    rw [h.ofile] at hy
    cases hy
  · simp [(h.file f).1]
  · refine ⟨fun f => (h.file f).1.ge, fun f _ => (h.file f).2, fun f g k w hf =>
      absurd hf (hend _ _ _), fun f k w hf => absurd hf (hend _ _ _), fun k hk => ?_, fun k => ?_⟩
    · rw [h.npipe] at hk
      exact absurd hk (Nat.not_lt_zero k)
    · rw [h.freed, h.npipe]
      simp

/-- Between calls, an entry is in use exactly if a descriptor points to it. -/
lemma Inv.used_iff (h : s.Inv 0) : 0 < (s.file f).ref ↔ ∃ p fd, s.ofile p fd = some f := by
  constructor
  · intro hpos
    by_contra hno
    obtain ⟨n, hn, href⟩ := h.counts.count f
    have h0 : n = 0 := by
      refine hn.unique (zero_iff.mpr ?_)
      rintro ⟨p, fd⟩ hy
      exact hno ⟨p, fd, hy⟩
    rw [h0] at href
    simp at href
    omega
  · rintro ⟨p, fd, hf⟩
    exact h.counts.pos hf le_rfl

/-- Some descriptor refers to the end of pipe `k` that is `writable` or not. -/
def Refers (s : FileSys P) (k : ℕ) (writable : Bool) : Prop :=
  ∃ p fd f, s.ofile p fd = some f ∧ (s.file f).type = .pipe ∧ (s.file f).pipe = k ∧
    (s.file f).writable = writable

lemma Inv.refers_iff (h : s.Inv 0) : s.Refers k w ↔ ∃ f, s.IsEnd f k w := by
  constructor
  · rintro ⟨p, fd, f, hf, hrest⟩
    exact ⟨f, h.used_iff.mpr ⟨p, fd, hf⟩, hrest⟩
  · rintro ⟨f, hpos, hrest⟩
    obtain ⟨p, fd, hf⟩ := h.used_iff.mp hpos
    exact ⟨p, fd, f, hf, hrest⟩

/-- **References to open files.**  After every sequence of calls, whatever fails in them, the count
of every file is the number of descriptors that point to it, no call can panic, an end of a pipe is
open exactly as long as some descriptor refers to it, and the page of a pipe has been given to
`kfree` once if both ends are closed, and else not at all. -/
theorem file_refs_counted {s0 s : FileSys P} {acts : List (P × FileCall P)} (h₀ : s0.Initial)
    (hrun : Run step s0 acts s) :
    (∀ f, ∃ n : ℕ, CountIs (fun y : P × ℕ => y.2 < NOFILE ∧ s.ofile y.1 y.2 = some f) n ∧
      (s.file f).ref = n) ∧
    (∀ a e, s.step a ≠ .panic e) ∧
    (∀ k, k < s.npipe → ((s.pipe k).readopen = true ↔ s.Refers k false) ∧
      ((s.pipe k).writeopen = true ↔ s.Refers k true)) ∧
    ∀ k, s.freed k =
      if k < s.npipe ∧ (s.pipe k).readopen = false ∧ (s.pipe k).writeopen = false then 1
      else 0 := by
  have hstep : ∀ (s : FileSys P) a s', s.Inv 0 → s.step a = .next s' → s'.Inv 0 :=
    fun _ _ _ h hst => h.step_next hst
  have hinv : s.Inv 0 := Run.invariant (I := fun s => s.Inv 0) hstep hrun h₀.inv
  refine ⟨fun f => ?_, hinv.step_ne_panic, fun k hk => ?_, hinv.ends.freed⟩
  · obtain ⟨n, hn, href⟩ := hinv.counts.count f
    refine ⟨n, hn.congr fun y => ?_, by simpa using href⟩
    refine ⟨fun hy => hy.2, fun hy => ⟨?_, hy⟩⟩
    by_contra hle
    rw [hinv.counts.bound _ _ (not_lt.mp hle)] at hy
    cases hy
  · rw [hinv.refers_iff, hinv.refers_iff]
    exact ⟨hinv.ends.opens k hk false, hinv.ends.opens k hk true⟩

/-- One process, no files. -/
def bootFiles : FileSys Bool :=
  ⟨fun _ => ⟨.none, 0, false, false, 0, 0, 0, 0⟩, fun _ _ => none, fun p => !p,
    fun _ => ⟨false, false⟩, 0, fun _ => 0⟩

/-- A pipe is shared with a child; the parent closes its ends; a second pipe fails; the child exits.
-/
def pipeCalls : List (Bool × FileCall Bool) :=
  [(false, .pipe true true), (false, .dup 1), (false, .fork true true), (false, .close 0),
    (false, .close 1), (false, .close 2), (false, .pipe false true), (false, .pipe true false),
    (true, .exit)]

theorem file_refs_counted_sample : ∃ s, Run step bootFiles pipeCalls s ∧ s.npipe = 2 ∧
    s.freed 0 = 1 ∧ s.freed 1 = 1 ∧ (∀ a e, s.step a ≠ .panic e) ∧ ¬ s.Refers 0 true := by
  have hex : (exec step bootFiles pipeCalls).map (fun s =>
      (s.npipe, s.freed 0, s.freed 1, (s.pipe 0).writeopen)) = some (2, 1, 1, false) := by
    decide +kernel
  obtain ⟨s, hs, hres⟩ := Option.map_eq_some_iff.mp hex
  simp only [Prod.mk.injEq] at hres
  obtain ⟨h₁, h₂, h₃, h₄⟩ := hres
  have h₀ : bootFiles.Initial := ⟨fun _ => ⟨rfl, rfl⟩, fun _ _ => rfl, rfl, fun _ => rfl⟩
  obtain ⟨-, hpanic, hends, -⟩ := file_refs_counted h₀ (Run.of_exec hs)
  refine ⟨s, Run.of_exec hs, h₁, h₂, h₃, hpanic, fun hr => ?_⟩
  have hopen := (hends 0 (by omega)).2.mpr hr
  rw [h₄] at hopen
  cases hopen

end Xv6.FileSys
