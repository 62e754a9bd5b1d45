import Xv6.Fs.Bmap

/-!
# What one `writei` passes to `log_write`

`filewrite` splits a write into transactions of at most `((MAXOPBLOCKS-1-1-2) / 2) * BSIZE` bytes,
and `begin_op` reserves `MAXOPBLOCKS` blocks of the log for each. Here are `balloc`, `bmap`,
`iupdate` and `writei` once more, with their calls of `log_write`: the state notes the blocks passed
to it, and `writei_erases` says that apart from that these are the functions of `Xv6.Fs.Inode`.

The blocks are counted by `charge`, which has the blocks that are logged once for the whole call in
it from the start: the inode's, the indirect block, and the bitmap block of the latter if it is
still to be allocated. A round of the loop then adds two blocks at most, the data block and its
bitmap block, and only one if the data block was there. A write that does not start at a block
boundary touches one block more, but starts in a block that was there.
-/

namespace Xv6

open ByteArr Prog FsState Finset

/-- The file system, and the blocks passed to `log_write` since `begin_op`. -/
structure LoggedFs where
  fs : FsState
  logged : Finset ℕ

abbrev LoggedProg (α : Type) := Prog LoggedFs FsPanic α

namespace LoggedFs

variable (sb : Superblock)

/-- Change the buffer of block `b` and pass it to `log_write`. -/
def logWrite (b : ℕ) (f : FsState → FsState) : LoggedProg PUnit :=
  modify fun s => ⟨f s.fs, insert b s.logged⟩

def balloc : LoggedProg ℕ := do
  let s ← get
  match (List.range sb.size).find? fun b => !sb.bit s.fs.disk b with
  | some b =>
    logWrite (sb.bblock b) fun s => { s with disk := sb.setBit s.disk b true }
    -- `bzero`
    logWrite b fun s => s.setBlock b fun _ => 0
    return b
  | none => return 0

def bmapAddr (inum k : ℕ) : LoggedProg ℕ := do
  let s ← get
  if s.fs.addr inum k = 0 then
    let addr ← balloc sb
    if addr = 0 then return 0
    else
      modify fun s => { s with fs := s.fs.setAddr inum k addr }
      return addr
  else return s.fs.addr inum k

def bmapEntry (ind j : ℕ) : LoggedProg ℕ := do
  let s ← get
  if word32 (s.fs.disk ind) (4 * j) = 0 then
    let addr ← balloc sb
    if addr = 0 then return 0
    else
      logWrite ind fun s => s.setBlock ind (putWord32 (s.disk ind) (4 * j) addr)
      return addr
  else return word32 (s.fs.disk ind) (4 * j)

def bmap (inum bn : ℕ) : LoggedProg ℕ :=
  if bn < NDIRECT then bmapAddr sb inum bn
  else if bn - NDIRECT < NINDIRECT then do
    let ind ← bmapAddr sb inum IND
    if ind = 0 then return 0 else bmapEntry sb ind (bn - NDIRECT)
  else throw .bmapOutOfRange

def iupdate (inum : ℕ) : LoggedProg PUnit :=
  logWrite (sb.iblock inum) fun s => { s with disk := sb.setDinode s.disk inum (s.ino inum) }

def writeLoop (inum n : ℕ) (src : Source) : ℕ → ℕ → ℕ → LoggedProg (ℕ × ℕ)
  | 0, tot, off => return (tot, off)
  | fuel + 1, tot, off =>
    if tot < n then do
      let addr ← bmap sb inum (off / BSIZE)
      if addr = 0 then return (tot, off)
      else
        let m := min (n - tot) (BSIZE - off % BSIZE)
        match src.fault tot with
        | some k =>
          -- the copy may have changed a part of the block
          logWrite addr fun s => s.setBlock addr
            (putBytes (s.disk addr) (off % BSIZE) (min k m) fun i => src.byte (tot + i))
          return (tot, off)
        | none =>
          logWrite addr fun s => s.setBlock addr
            (putBytes (s.disk addr) (off % BSIZE) m fun i => src.byte (tot + i))
          writeLoop inum n src fuel (tot + m) (off + m)
    else return (tot, off)

def writei (inum : ℕ) (src : Source) (off n : ℕ) : LoggedProg ℤ := do
  let s ← get
  if off > (s.fs.ino inum).size ∨ (off + n) % 2 ^ 32 < off then return -1
  else if (off + n) % 2 ^ 32 > MAXFILE * BSIZE then return -1
  else
    let (tot, off) ← writeLoop sb inum n src n 0 off
    modify fun s => { s with
      fs := s.fs.setInode inum { s.fs.ino inum with size := max (s.fs.ino inum).size off } }
    iupdate sb inum
    return tot

/-! ## Without the log these are the functions of the inode layer -/

section Erase

variable {α β : Type} {m : LoggedProg α} {m' : FsProg α}

/-- Without the log, `m` is `m'`. -/
def Erases (m : LoggedProg α) (m' : FsProg α) : Prop :=
  ∀ s, (m s).map (fun r => (r.1, r.2.fs)) = m' s.fs

lemma Erases.pure (a : α) : Erases (pure a) (pure a) := fun _ => rfl

lemma Erases.logWrite (b : ℕ) (f : FsState → FsState) : Erases (logWrite b f) (modify f) :=
  fun _ => rfl

lemma Erases.bind {f : α → LoggedProg β} {f' : α → FsProg β} (h : Erases m m')
    (hf : ∀ a, Erases (f a) (f' a)) : Erases (m >>= f) (m' >>= f') := by
  intro s
  simp only [Bind.bind, StateT.bind, ← h s]
  rcases m s with e | ⟨a, t⟩
  · rfl
  · exact hf a t

lemma Erases.get_bind {f : LoggedFs → LoggedProg β} {f' : FsState → FsProg β}
    (hf : ∀ s, Erases (f s) (f' s.fs)) : Erases (get >>= f) (get >>= f') := fun s => hf s s

lemma Erases.ite {c : Prop} [Decidable c] {k : LoggedProg α} {k' : FsProg α} (h : Erases m m')
    (hk : Erases k k') : Erases (if c then m else k) (if c then m' else k') := by
  split_ifs
  · exact h
  · exact hk

variable {sb} {inum : ℕ}

lemma balloc_erases : Erases (balloc sb) (Fs.balloc sb) := by
  intro s
  rw [balloc, Fs.balloc, run_get_bind, run_get_bind]
  rcases (List.range sb.size).find? fun b => !sb.bit s.fs.disk b with _ | b
  · rfl
  · rfl

lemma bmapAddr_erases (k : ℕ) : Erases (bmapAddr sb inum k) (Fs.bmapAddr sb inum k) :=
  .get_bind fun _ => .ite (balloc_erases.bind fun _ => .ite (.pure 0) fun _ => rfl) (.pure _)

lemma bmapEntry_erases (ind j : ℕ) : Erases (bmapEntry sb ind j) (Fs.bmapEntry sb ind j) :=
  .get_bind fun _ => .ite (balloc_erases.bind fun _ => .ite (.pure 0) fun _ => rfl) (.pure _)

lemma bmap_erases (bn : ℕ) : Erases (bmap sb inum bn) (Fs.bmap sb inum bn) :=
  .ite (bmapAddr_erases bn) <| .ite
    ((bmapAddr_erases IND).bind fun _ => .ite (.pure 0) (bmapEntry_erases _ _)) fun _ => rfl

lemma writeLoop_erases (n : ℕ) (src : Source) (fuel tot off : ℕ) :
    Erases (writeLoop sb inum n src fuel tot off) (Fs.writeLoop sb inum n src fuel tot off) := by
  induction fuel generalizing tot off with
  | zero => exact .pure _
  | succ fuel ih =>
    refine .ite ((bmap_erases _).bind fun addr => .ite (.pure _) ?_) (.pure _)
    dsimp only
    cases src.fault tot with
    | some k => exact fun _ => rfl
    | none => exact (Erases.logWrite _ _).bind fun _ => ih _ _

/-- The calls of `log_write` apart, `writei` is the `writei` of the inode layer. -/
lemma writei_erases (src : Source) (off n : ℕ) :
    Erases (writei sb inum src off n) (Fs.writei sb inum src off n) :=
  .get_bind fun _ => .ite (.pure _) <| .ite (.pure _) <|
    (writeLoop_erases n src n 0 off).bind fun _ => fun _ => rfl

end Erase

/-! ## Counting -/

variable {sb} {inum off n tot k c : ℕ} {s t : LoggedFs} {src : Source} {a b : ℕ}

/-- The blocks that are logged if the call ends now: the inode's block goes last, and the indirect
block is logged whenever an entry of it is. -/
def due (sb : Superblock) (inum : ℕ) (s : LoggedFs) : Finset ℕ :=
  insert (sb.iblock inum)
    (if s.fs.addr inum IND = 0 then s.logged else insert (s.fs.addr inum IND) s.logged)

/-- Their number, and two for an indirect block that is still to be allocated. -/
def charge (sb : Superblock) (inum : ℕ) (s : LoggedFs) : ℕ :=
  (s.due sb inum).card + if s.fs.addr inum IND = 0 then 2 else 0

lemma mem_due {x : ℕ} : x ∈ s.due sb inum ↔
    x = sb.iblock inum ∨ (x = s.fs.addr inum IND ∧ s.fs.addr inum IND ≠ 0) ∨ x ∈ s.logged := by
  rw [due]
  split_ifs with h0 <;> simp [h0]

lemma card_le_two {D D' : Finset ℕ} (h : D' ⊆ insert a (insert b D)) : D'.card ≤ D.card + 2 :=
  (card_le_card h).trans <| (card_insert_le _ _).trans <|
    Nat.add_le_add_right (card_insert_le _ _) 1

/-- Two blocks more, while the indirect block stays what it is. -/
lemma charge_le_two (haddr : t.fs.addr inum IND = s.fs.addr inum IND)
    (hlog : ∀ x ∈ t.logged, x = a ∨ x = b ∨ x ∈ s.due sb inum) :
    t.charge sb inum ≤ s.charge sb inum + 2 := by
  have hdue : t.due sb inum ⊆ insert a (insert b (s.due sb inum)) := by
    intro x hx
    rw [mem_insert, mem_insert]
    rcases mem_due.mp hx with rfl | h | h
    · exact .inr (.inr (mem_due.mpr (.inl rfl)))
    · rw [haddr] at h
      exact .inr (.inr (mem_due.mpr (.inr (.inl h))))
    · exact hlog x h
  have := card_le_two hdue
  rw [charge, charge, haddr]
  omega

lemma charge_insert_le {u : FsState} (haddr : u.addr inum IND = s.fs.addr inum IND) (a : ℕ) :
    charge sb inum ⟨u, insert a s.logged⟩ ≤ s.charge sb inum + 1 := by
  have hdue : due sb inum ⟨u, insert a s.logged⟩ ⊆ insert a (s.due sb inum) := by
    intro x
    simp only [mem_due, mem_insert, haddr]
    tauto
  have := (card_le_card hdue).trans (card_insert_le _ _)
  rw [charge, charge, haddr]
  omega

/-- The indirect block and its bitmap block have been charged for. -/
lemma charge_le_of_ind (h0 : s.fs.addr inum IND = 0) (haddr : t.fs.addr inum IND = a)
    (ha : a ≠ 0) (hlog : ∀ x ∈ t.logged, x = a ∨ x = b ∨ x ∈ s.due sb inum) :
    t.charge sb inum ≤ s.charge sb inum := by
  have hdue : t.due sb inum ⊆ insert a (insert b (s.due sb inum)) := by
    intro x hx
    rw [mem_insert, mem_insert]
    rcases mem_due.mp hx with rfl | h | h
    · exact .inr (.inr (mem_due.mpr (.inl rfl)))
    · exact .inl (h.1.trans haddr)
    · exact hlog x h
  have := card_le_two hdue
  rw [charge, charge, if_pos h0, haddr, if_neg ha]
  omega

lemma balloc_logs (inum : ℕ) : wp (balloc sb) s (fun a t => t.fs.ino = s.fs.ino ∧
    (∀ x ∈ t.logged, x = a ∨ x = sb.bblock a ∨ x ∈ s.due sb inum) ∧ (a ≠ 0 → a ∈ t.logged))
    fun _ => False := by
  have hold : ∀ x ∈ s.logged, x ∈ s.due sb inum := fun x hx => mem_due.mpr (.inr (.inr hx))
  simp only [balloc, wp_bind, wp_get]
  split
  · simp only [logWrite, wp_bind, wp_modify, wp_pure, mem_insert]
    exact ⟨rfl, fun x hx => hx.imp id (Or.imp id (hold x)), fun _ => .inl trivial⟩
  · rw [wp_pure]
    exact ⟨rfl, fun x hx => .inr (.inr (hold x hx)), fun h => absurd rfl h⟩

/-- What a step that provides a block costs: two blocks with that block logged, or nothing. -/
structure Provides (sb : Superblock) (inum : ℕ) (s : LoggedFs) (r : ℕ) (t : LoggedFs) : Prop where
  length : (t.fs.ino inum).addrs.length = (s.fs.ino inum).addrs.length
  charge : t.charge sb inum ≤ s.charge sb inum + 2
  logged : r ≠ 0 → t.charge sb inum ≤ s.charge sb inum ∨ r ∈ t.logged

lemma Provides.refl (r : ℕ) : Provides sb inum s r s :=
  ⟨rfl, Nat.le_add_right _ _, fun _ => .inl le_rfl⟩

lemma bmapAddr_charge (hlen : (s.fs.ino inum).addrs.length = NDIRECT + 1) (hk : k ≤ IND) :
    wp (bmapAddr sb inum k) s (fun r t => Provides sb inum s r t ∧
      (k = IND → r ≠ 0 → t.charge sb inum ≤ s.charge sb inum ∧ t.fs.addr inum IND = r) ∧
      (s.fs.addr inum k ≠ 0 → t = s ∧ r = s.fs.addr inum k)) fun _ => False := by
  simp only [bmapAddr, wp_bind, wp_get]
  rw [wp_ite]
  refine ⟨fun h0 => ?_, fun hne => ?_⟩
  · refine (balloc_logs inum).bind ?_
    rintro a t ⟨hino, hlog, hmem⟩
    have hind : t.fs.addr inum IND = s.fs.addr inum IND := by rw [addr, hino, addr]
    rw [wp_ite]
    refine ⟨fun ha => ?_, fun ha => ?_⟩
    · rw [wp_pure]
      exact ⟨⟨by rw [hino], charge_le_two hind hlog, fun h => absurd rfl h⟩,
        fun _ h => absurd rfl h, fun h => absurd h0 h⟩
    · rw [wp_bind, wp_modify, wp_pure]
      have hl : k < (t.fs.ino inum).addrs.length := by
        rw [hino, hlen]
        exact Nat.lt_succ_of_le hk
      have haddr := addr_setAddr (a := a) hl IND
      have hlen' : ((t.fs.setAddr inum k a).ino inum).addrs.length =
          (s.fs.ino inum).addrs.length := by
        simp [setAddr, setInode, hino]
      by_cases hki : k = IND
      · subst hki
        rw [if_pos rfl] at haddr
        have hle : charge sb inum ⟨t.fs.setAddr inum IND a, t.logged⟩ ≤ s.charge sb inum :=
          charge_le_of_ind h0 haddr ha hlog
        exact ⟨⟨hlen', hle.trans (Nat.le_add_right _ _), fun _ => .inr (hmem ha)⟩,
          fun _ _ => ⟨hle, haddr⟩, fun h => absurd h0 h⟩
      · rw [if_neg (Ne.symm hki)] at haddr
        exact ⟨⟨hlen', charge_le_two (haddr.trans hind) hlog, fun _ => .inr (hmem ha)⟩,
          fun h => absurd h hki, fun h => absurd h0 h⟩
  · rw [wp_pure]
    exact ⟨.refl _, fun h _ => ⟨le_rfl, by rw [h]⟩, fun _ => ⟨rfl, rfl⟩⟩

lemma bmapEntry_charge {ind : ℕ} (hind : s.fs.addr inum IND = ind) (h0 : ind ≠ 0) (j : ℕ) :
    wp (bmapEntry sb ind j) s (fun r t => Provides sb inum s r t ∧
      (word32 (s.fs.disk ind) (4 * j) ≠ 0 → t = s)) fun _ => False := by
  simp only [bmapEntry, wp_bind, wp_get]
  rw [wp_ite]
  refine ⟨fun hz => ?_, fun hne => ?_⟩
  · refine (balloc_logs inum).bind ?_
    rintro a t ⟨hino, hlog, hmem⟩
    have hsame : t.fs.addr inum IND = s.fs.addr inum IND := by rw [addr, hino, addr]
    rw [wp_ite]
    refine ⟨fun ha => ?_, fun ha => ?_⟩
    · rw [wp_pure]
      exact ⟨⟨by rw [hino], charge_le_two hsame hlog, fun h => absurd rfl h⟩, fun h => absurd hz h⟩
    · rw [wp_bind, logWrite, wp_modify, wp_pure]
      refine ⟨⟨congrArg (fun f => (f inum).addrs.length) hino, ?_,
        fun _ => .inr (mem_insert_of_mem (hmem ha))⟩, fun h => absurd hz h⟩
      -- the indirect block is logged along with the new one
      refine charge_le_two (a := a) (b := sb.bblock a) hsame fun x hx => ?_
      rcases mem_insert.mp hx with rfl | hx
      · exact .inr (.inr (mem_due.mpr (.inr (.inl ⟨hind.symm, by rw [hind]; exact h0⟩))))
      · exact hlog x hx
  · rw [wp_pure]
    exact ⟨.refl _, fun _ => rfl⟩

lemma bmap_charge (hlen : (s.fs.ino inum).addrs.length = NDIRECT + 1) {bn : ℕ}
    (hbn : bn < MAXFILE) : wp (bmap sb inum bn) s (fun r t => Provides sb inum s r t ∧
      (slotAddr s.fs.disk (s.fs.ino inum) bn ≠ 0 → t = s)) fun _ => False := by
  rw [bmap]
  by_cases hd : bn < NDIRECT
  · rw [if_pos hd, slotAddr, if_pos hd]
    exact (bmapAddr_charge hlen hd.le).post fun _ _ h => ⟨h.1, fun hn => (h.2.2 hn).1⟩
  · have hi : bn - NDIRECT < NINDIRECT := by
      simp only [MAXFILE] at hbn
      omega
    have hslot : slotAddr s.fs.disk (s.fs.ino inum) bn ≠ 0 → s.fs.addr inum IND ≠ 0 ∧
        word32 (s.fs.disk (s.fs.addr inum IND)) (4 * (bn - NDIRECT)) ≠ 0 := by
      rw [slotAddr, if_neg hd, if_pos hbn]
      split_ifs with hz
      · exact fun h => absurd rfl h
      · exact fun h => ⟨hz, h⟩
    rw [if_neg hd, if_pos hi]
    refine (bmapAddr_charge hlen le_rfl).bind ?_
    rintro ind t ⟨hp, hind, hsame⟩
    rw [wp_ite]
    refine ⟨fun h0 => ?_, fun h0 => ?_⟩
    · rw [wp_pure]
      exact ⟨⟨hp.length, hp.charge, fun h => absurd rfl h⟩, fun h => (hsame (hslot h).1).1⟩
    · obtain ⟨hle, haddr⟩ := hind rfl h0
      refine (bmapEntry_charge haddr h0 _).post ?_
      rintro r u ⟨hq, hsame'⟩
      refine ⟨?_, fun h => ?_⟩
      · exact ⟨hq.length.trans hp.length, hq.charge.trans (Nat.add_le_add_right hle 2),
          fun hr => (hq.logged hr).imp (fun h => h.trans hle) id⟩
      · obtain ⟨rfl, hind'⟩ := hsame (hslot h).1
        rw [hind'] at hsame'
        exact hsame' (hslot h).2

lemma writeLoop_round {fuel c' : ℕ} (htot : tot < n)
    (hb : wp (bmap sb inum (off / BSIZE)) s (fun r t =>
      (t.fs.ino inum).addrs.length = NDIRECT + 1 ∧ t.charge sb inum ≤ c ∧
      (r ≠ 0 → t.charge sb inum + 1 ≤ c ∨ r ∈ t.logged)) fun _ => False)
    (hc : c ≤ c') (hnext : ∀ t : LoggedFs, (t.fs.ino inum).addrs.length = NDIRECT + 1 →
      t.charge sb inum ≤ c →
      wp (writeLoop sb inum n src fuel (tot + min (n - tot) (BSIZE - off % BSIZE))
        (off + min (n - tot) (BSIZE - off % BSIZE))) t (fun _ u => u.charge sb inum ≤ c')
        fun _ => False) :
    wp (writeLoop sb inum n src (fuel + 1) tot off) s (fun _ u => u.charge sb inum ≤ c')
      fun _ => False := by
  rw [writeLoop, if_pos htot, wp_bind]
  refine hb.post fun r t ⟨hlen, hle, hr⟩ => ?_
  rw [wp_ite]
  refine ⟨fun _ => wp_pure.mpr (hle.trans hc), fun h0 => ?_⟩
  have hput : ∀ b : Block, charge sb inum ⟨t.fs.setBlock r b, insert r t.logged⟩ ≤ c := by
    intro b
    rcases hr h0 with h | h
    · exact (charge_insert_le rfl r).trans h
    · rw [insert_eq_of_mem h]
      exact hle
  dsimp only
  cases src.fault tot with
  | some k =>
    rw [wp_bind, logWrite, wp_modify, wp_pure]
    exact (hput _).trans hc
  | none =>
    rw [wp_bind, logWrite, wp_modify]
    exact hnext _ hlen (hput _)

/-- **The loop adds two blocks for each block it touches.** -/
lemma writeLoop_charge (fuel : ℕ) (hlen : (s.fs.ino inum).addrs.length = NDIRECT + 1)
    (hmax : off + (n - tot) ≤ MAXFILE * BSIZE)
    (hk : tot < n → off % BSIZE + (n - tot) ≤ k * BSIZE) :
    wp (writeLoop sb inum n src fuel tot off) s
      (fun _ t => t.charge sb inum ≤ s.charge sb inum + 2 * k) fun _ => False := by
  induction fuel generalizing s tot off k with
  | zero => exact wp_pure.mpr (Nat.le_add_right _ _)
  | succ fuel ih =>
    by_cases htot : tot < n
    · have hk' := hk htot
      have hk0 : 0 < k := by
        rcases Nat.eq_zero_or_pos k with rfl | h
        · omega
        · exact h
      have hbn : off / BSIZE < MAXFILE := by
        rw [Nat.div_lt_iff_lt_mul (by decide)]
        omega
      refine writeLoop_round htot (c := s.charge sb inum + 2) ?_ (by omega) fun t ht hle => ?_
      · refine (bmap_charge hlen hbn).post fun r t ⟨hp, _⟩ => ⟨hp.length.trans hlen, hp.charge, ?_⟩
        exact fun hr => (hp.logged hr).imp (fun h => by omega) id
      · refine (ih (k := k - 1) ht ?_ ?_).post fun _ u hu => by omega
        · omega
        · intro hmore
          have hm : min (n - tot) (BSIZE - off % BSIZE) = BSIZE - off % BSIZE := by omega
          have hlt : off % BSIZE < BSIZE := Nat.mod_lt _ (by decide)
          have hmod : (off + (BSIZE - off % BSIZE)) % BSIZE = 0 := by
            simp only [BSIZE] at *
            omega
          rw [hm] at hmore ⊢
          rw [hmod, Nat.sub_mul]
          omega
    · rw [writeLoop, if_neg htot]
      exact wp_pure.mpr (Nat.le_add_right _ _)

/-- **A transaction of `filewrite` fits its reservation.**  Whatever the bitmap says, `writei`
returns and has passed at most `MAXOPBLOCKS` different blocks to `log_write`. -/
theorem filewrite_fits_reservation (sb : Superblock) (inum off n : ℕ) (src : Source) (s : FsState)
    (hlen : (s.ino inum).addrs.length = NDIRECT + 1)
    (hmapped : ∀ k, k < MAXFILE → k * BSIZE < (s.ino inum).size →
      slotAddr s.disk (s.ino inum) k ≠ 0)
    (hn : n ≤ (MAXOPBLOCKS - 1 - 1 - 2) / 2 * BSIZE) :
    ∃ r t, writei sb inum src off n ⟨s, ∅⟩ = .ok (r, t) ∧ t.logged.card ≤ MAXOPBLOCKS := by
  suffices h : wp (writei sb inum src off n) ⟨s, ∅⟩ (fun _ t => t.logged.card ≤ MAXOPBLOCKS)
      fun _ => False from h.returns
  have hstart : charge sb inum ⟨s, ∅⟩ ≤ 3 := by
    simp only [charge, due]
    split_ifs
    · simp
    · simp only [insert_empty_eq, add_zero]
      exact Finset.card_le_two.trans (by decide)
  simp only [writei, wp_bind, wp_get]
  rw [wp_ite]
  refine ⟨fun _ => wp_pure.mpr (by simp), fun hoff => ?_⟩
  rw [wp_ite]
  refine ⟨fun _ => wp_pure.mpr (by simp), fun hmax => ?_⟩
  rw [wp_bind]
  have hn' : n ≤ 3 * BSIZE := hn
  suffices hloop : wp (writeLoop sb inum n src n 0 off) ⟨s, ∅⟩
      (fun _ t => t.charge sb inum ≤ MAXOPBLOCKS) fun _ => False by
    refine hloop.post fun r t ht => ?_
    rw [wp_bind, wp_modify, wp_bind, iupdate, logWrite, wp_modify, wp_pure]
    have hsub : insert (sb.iblock inum) t.logged ⊆ t.due sb inum :=
      fun x hx => mem_due.mpr ((mem_insert.mp hx).imp id .inr)
    exact (card_le_card hsub).trans ((Nat.le_add_right _ _).trans ht)
  have hmax' : off + n ≤ MAXFILE * BSIZE := by
    push Not at hoff hmax
    have : (off + n) % 2 ^ 32 = off + n := by
      simp only [BSIZE] at *
      omega
    omega
  by_cases h0 : off % BSIZE = 0
  · refine (writeLoop_charge (k := 3) n hlen (by omega) (by omega)).post fun _ t ht => ?_
    simp only [MAXOPBLOCKS]
    omega
  · -- the block of the first byte is there, so that the first round adds the data block only
    rcases Nat.eq_zero_or_pos n with rfl | hpos
    · exact wp_pure.mpr (hstart.trans (by decide))
    have hbn : off / BSIZE < MAXFILE := by
      rw [Nat.div_lt_iff_lt_mul (by decide)]
      omega
    have hsame := hmapped _ hbn (by
      push Not at hoff
      simp only [BSIZE] at *
      omega)
    obtain ⟨m, rfl⟩ := Nat.exists_eq_succ_of_ne_zero hpos.ne'
    refine writeLoop_round hpos (c := 4) ?_ (by decide) fun t ht hle => ?_
    · refine (bmap_charge hlen hbn).post fun r t h => ?_
      obtain rfl := h.2 hsame
      exact ⟨hlen, by omega, fun _ => .inl (by omega)⟩
    · refine (writeLoop_charge (k := 3) m ht (by omega) fun hmore => ?_).post fun _ u hu => ?_
      · simp only [BSIZE] at *
        omega
      · simp only [MAXOPBLOCKS]
        omega

/-- Inode 1 has the blocks 4 to 15 and no indirect block; its last block lacks 24 bytes. -/
def directFs : FsState where
  disk := fun a i => if a = 3 ∧ i < 2 then 255 else 0
  ino := fun i => if i = 1 then
      { Dinode.new 2 with size := 12264, addrs := [4, 5, 6, 7, 8, 9, 10, 11, 12, 13, 14, 15, 0] }
    else .new 0

/-- The write of 3000 bytes at the end of this file, beginning in its last direct block. -/
def appendWrite : Except FsPanic (ℤ × LoggedFs) :=
  writei ⟨300, 3, 2, 3⟩ 1 ⟨fun _ => 7, fun _ => none⟩ 12264 3000 ⟨directFs, ∅⟩

/-- It logs seven blocks: four of data, the new indirect block, the bitmap's and the inode's. -/
theorem filewrite_fits_reservation_append :
    (∃ r t, appendWrite = .ok (r, t) ∧ t.logged.card ≤ MAXOPBLOCKS) ∧
    appendWrite.toOption.map (fun x => (x.1, (x.2.fs.ino 1).size, x.2.logged.card)) =
      some (3000, 15264, 7) := by
  refine ⟨filewrite_fits_reservation _ 1 12264 3000 _ directFs rfl ?_ (by decide),
    by decide +kernel⟩
  have hdirect : ∀ k < 12, slotAddr directFs.disk (directFs.ino 1) k ≠ 0 := by decide
  intro k _ hk
  refine hdirect k ?_
  have hsize : k * 1024 < 12264 := hk
  omega

end LoggedFs

end Xv6
