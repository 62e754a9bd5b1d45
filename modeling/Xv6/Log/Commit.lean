import Xv6.Lib.Bytes
import Xv6.Lib.Crash
import Xv6.Param

/-!
# The redo log: commit and recovery

`log.c` keeps a redo log in the blocks `log.start .. log.start + LOGBLOCKS`: a header block with
the home block numbers of the committed transaction, then one copy for each of them. `commit`
writes the copies, writes the header (the commit point), installs the copies at their home
locations and erases the header; `recover_from_log` repeats the last two steps for whatever the
header names.

The functions here are disk programs (`DiskProg`), one `write` for each `bwrite` of the source, so
that a crash between any two block writes can be talked about. The volatile state they read is
passed explicitly: `Log` is `struct log`, and `cache` gives the contents of the buffers that
`log_write` has pinned. A block with no pinned buffer is read from the disk.
-/

namespace Xv6

open ByteArr

/-- The contents of a disk block or of a buffer. -/
abbrev Block := Bytes

/-- A disk: block number to contents. -/
abbrev Disk := ℕ → Block

/-- The log's programs run on block numbers and blocks. -/
abbrev LogProg := DiskProg ℕ Block

/-- `struct logheader`: `int n; int block[LOGBLOCKS]`. -/
structure LogHeader where
  n : ℤ
  block : ℕ → ℕ

/-- `struct log`, without its lock and device number. -/
structure Log where
  start : ℕ
  outstanding : ℤ := 0
  committing : Bool := false
  ncommit : ℕ := 0
  lh : LogHeader

/-- The buffers pinned by `log_write`, with their contents. -/
abbrev Cache := ℕ → Option Block

/-- After a reboot nothing is cached. -/
def Cache.empty : Cache := fun _ => none

/-- The blocks of the log area: the header and `LOGBLOCKS` copies. -/
def InLog (start b : ℕ) : Prop := start ≤ b ∧ b ≤ start + LOGBLOCKS

instance (start b : ℕ) : Decidable (InLog start b) := inferInstanceAs (Decidable (_ ∧ _))

/-! ## The header block

`struct logheader` laid over the bytes of block `log.start`: the word at offset 0 is `n` and the
word at offset `4 + 4 * i` is `block[i]`.
-/

/-- `lh->n` of a header block. -/
def hdrN (b : Block) : ℤ := toInt32 (word32 b 0)

/-- `lh->block[i]` of a header block, as the `uint` that `bread` receives. -/
def hdrBlock (b : Block) (i : ℕ) : ℕ := word32 b (4 + 4 * i)

/-- `for (i = 0; i < m; i++) hb->block[i] = block[i]`. -/
def putBlocks (b : Block) (block : ℕ → ℕ) : ℕ → Block
  | 0 => b
  | m + 1 => putWord32 (putBlocks b block m) (4 + 4 * m) (block m)

/-- Store an in-memory header into a header block. Entries from `n` on keep their old words. -/
def putHeader (b : Block) (lh : LogHeader) : Block :=
  putBlocks (putWord32 b 0 (lh.n % 2 ^ 32).toNat) lh.block lh.n.toNat

/-! ## Disk programs -/

/-- `bread`: a pinned buffer if there is one, the disk block otherwise. -/
def bread (cache : Cache) (b : ℕ) : LogProg Block :=
  match cache b with
  | some v => .ret v
  | none => .read b .ret

/-- `bwrite`. -/
def bwrite (b : ℕ) (v : Block) : LogProg Unit := .write b v (.ret ())

/-- `install_trans`: copy committed blocks from the log to their home location. -/
def installTrans (log : Log) (cache : Cache) : LogProg Unit :=
  .forUpto log.lh.n.toNat fun tail => do
    let lbuf ← bread cache (log.start + tail + 1)
    let _dbuf ← bread cache (log.lh.block tail)
    bwrite (log.lh.block tail) lbuf

/-- `read_head`: read the log header from disk into the in-memory header. -/
def readHead (log : Log) (cache : Cache) : LogProg Log := do
  let buf ← bread cache log.start
  return { log with lh := ⟨hdrN buf, hdrBlock buf⟩ }

/-- `write_head`: write the in-memory header to disk. -/
def writeHead (log : Log) (cache : Cache) : LogProg Unit := do
  let buf ← bread cache log.start
  bwrite log.start (putHeader buf log.lh)

/-- `log.lh.n = 0`. -/
def Log.clear (log : Log) : Log := { log with lh := { log.lh with n := 0 } }

/-- `recover_from_log`, run at boot with an empty cache. -/
def recoverFromLog (log : Log) : LogProg Unit := do
  let log ← readHead log .empty
  installTrans log .empty
  writeHead log.clear .empty

/-- `write_log`: copy modified blocks from cache to log. -/
def writeLog (log : Log) (cache : Cache) : LogProg Unit :=
  .forUpto log.lh.n.toNat fun tail => do
    let _to ← bread cache (log.start + tail + 1)
    let blk ← bread cache (log.lh.block tail)
    bwrite (log.start + tail + 1) blk

/-- `commit`. -/
def commit (log : Log) (cache : Cache) : LogProg Unit :=
  if log.lh.n > 0 then do
    writeLog log cache
    writeHead log cache
    installTrans log cache
    writeHead log.clear cache
  else .ret ()

/-! ## Reading a header back -/

lemma word32_putBlocks_lt (b : Block) (block : ℕ → ℕ) {off : ℕ} :
    ∀ m, off + 4 ≤ 4 → word32 (putBlocks b block m) off = word32 b off
  | 0, _ => rfl
  | m + 1, h => by
      rw [putBlocks, word32_putWord32_ne _ (by omega), word32_putBlocks_lt b block m h]

lemma hdrBlock_putBlocks (b : Block) (block : ℕ → ℕ) :
    ∀ {m i : ℕ}, i < m → hdrBlock (putBlocks b block m) i = block i % 2 ^ 32
  | m + 1, i, h => by
      rw [hdrBlock, putBlocks]
      rcases Nat.lt_succ_iff_lt_or_eq.mp h with hlt | rfl
      · rw [word32_putWord32_ne _ (by omega)]
        exact hdrBlock_putBlocks b block hlt
      · exact word32_putWord32 _ _ _

lemma hdrN_putHeader (b : Block) (lh : LogHeader) (h0 : 0 ≤ lh.n) (h : lh.n < 2 ^ 31) :
    hdrN (putHeader b lh) = lh.n := by
  have hmod : lh.n % 2 ^ 32 = lh.n := Int.emod_eq_of_lt h0 (by omega)
  rw [hdrN, putHeader, word32_putBlocks_lt _ _ _ le_rfl, word32_putWord32, hmod,
    Nat.mod_eq_of_lt (by omega), toInt32_of_lt (by omega)]
  omega

lemma hdrBlock_putHeader (b : Block) (lh : LogHeader) {i : ℕ} (hi : i < lh.n.toNat)
    (h : lh.block i < 2 ^ 32) : hdrBlock (putHeader b lh) i = lh.block i := by
  rw [putHeader, hdrBlock_putBlocks _ _ hi, Nat.mod_eq_of_lt h]

end Xv6
