import Xv6.Lib.Ring
import Xv6.Lib.SleepWakeup

/-!
# The virtio disk driver

`virtio_disk.c` as a client of `sleep` and `wakeup`: the data is `struct disk` together with the
fields of the buffers and the state of the device, and the lock is `vdisk_lock`. A thread calls
`virtio_disk_rw` or runs `virtio_disk_intr`; every statement that the other threads or the device
can see is a control point of its own.

The device is the environment. It takes an entry of the avail ring, later writes the status byte
and the used ring entry of one of the chains it has taken, and then advances `used->idx`. It finds
its way through the descriptors as the driver left them, and a chain that is not a block request is
the panic `badChain`.

A buffer is passed to `virtio_disk_rw` with its sleep lock held: `bread` gets it locked from `bget`,
and `bwrite` checks it. The sleep locks belong to the environment too; `inCall` is what forbids it
to release the lock of a buffer during the call. `served` is history: the requests that the device
has completed for a buffer since the call that is in progress began.
-/

namespace Xv6

open Function

/-- Number of descriptors. -/
abbrev NUM : ℕ := 8

/-- The ring indices are 16 bits wide. -/
abbrev IDX : ℕ := 65536

/-- What a descriptor points to: nothing, `disk.ops[k]`, the data of a buffer, or
`disk.info[k].status`. -/
inductive DescAddr (B : Type) where
  | null
  | ops (k : ℕ)
  | data (b : B)
  | status (k : ℕ)
  deriving DecidableEq

/-- `struct virtq_desc`, with the two bits of `flags`. -/
structure VirtqDesc (B : Type) where
  addr : DescAddr B
  len : ℕ
  flagNext : Bool
  flagWrite : Bool
  next : ℕ

/-- The avail ring, or the used ring with the `id` of each entry. -/
structure VirtqRing where
  idx : ℕ
  ring : ℕ → ℕ

/-- `struct virtio_blk_req`; `write` is `type == VIRTIO_BLK_T_OUT`. -/
structure VirtioBlkReq where
  write : Bool
  sector : ℕ
  deriving DecidableEq

/-- `disk.info[i]`. -/
structure DiskInfo (B : Type) where
  b : Option B
  status : ℕ

/-- A disk request: what `virtio_disk_rw` is called with, and what the device carries out. -/
structure DiskCall (B : Type) where
  b : B
  write : Bool
  sector : ℕ
  deriving DecidableEq

/-- The device: the avail entries it has seen, the chains it has taken and not completed, and the
chain whose used entry is written but not yet counted in `used->idx`. -/
structure VirtioDev where
  seen : ℕ
  taken : List ℕ
  writing : Option ℕ

/-- `struct disk`, `b->disk` and `b->lock` of the buffers, the device, and the history. -/
structure VirtioDisk (ι B : Type) where
  desc : ℕ → VirtqDesc B
  avail : VirtqRing
  used : VirtqRing
  free : ℕ → Bool
  usedIdx : ℕ
  info : ℕ → DiskInfo B
  ops : ℕ → VirtioBlkReq
  bdisk : B → Bool
  owner : B → Option ι
  dev : VirtioDev
  inCall : B → Bool
  served : B → List (DiskCall B)

/-- The panics of virtio_disk.c, and what would be undefined. -/
inductive VirtioPanic where
  | freeDesc1
  | freeDesc2
  | intrStatus
  | nullBuf
  | badChain
  | notHeld
  deriving DecidableEq

/-- A call with the three descriptors it has allocated. -/
structure DiskChain (B : Type) where
  call : DiskCall B
  i0 : ℕ
  i1 : ℕ
  i2 : ℕ

/-- The statements of `virtio_disk_rw` and `virtio_disk_intr`. In `free_chain` the last component
is history: what is left of the chain. -/
inductive VirtioLoc (B : Type) where
  | idle
  | enter (c : DiskCall B)
  | alloc (c : DiskCall B) (got : List ℕ)
  | unalloc (c : DiskCall B) (todo : List ℕ)
  | unallocWake (c : DiskCall B) (todo : List ℕ)
  | format (ch : DiskChain B)
  | post (ch : DiskChain B)
  | bump (ch : DiskChain B)
  | wait (ch : DiskChain B)
  | await (ch : DiskChain B)
  | finish (ch : DiskChain B)
  | free (c : DiskCall B) (i : ℕ) (own : List ℕ)
  | freeWake (c : DiskCall B) (nxt : Option ℕ) (own : List ℕ)
  | done (c : DiskCall B)
  | exit
  | intr
  | intrWake (b : B) (id : ℕ)
  | intrNext (id : ℕ)

/-- The address of a buffer, or `&disk.free[0]`. -/
inductive VirtioChan (B : Type) where
  | buf (b : B)
  | free
  deriving DecidableEq

/-- The calls of a thread; `blockno` is `b->blockno`, a 32-bit number. -/
inductive VirtioIn (B : Type) where
  | rw (b : B) (write : Bool) (blockno : ℕ)
  | intr

/-- The steps of the device, and of the code that locks and unlocks buffers. -/
inductive VirtioEnv (ι B : Type) where
  | take
  | complete (h : ℕ)
  | publish
  | lock (i : ι) (b : B)
  | unlock (i : ι) (b : B)

namespace VirtioDisk

variable {ι B : Type} [DecidableEq ι] [DecidableEq B]

/-- `alloc_desc`: the first free descriptor. -/
def allocDesc (d : VirtioDisk ι B) : Option ℕ := (List.range NUM).find? d.free

/-- The stores of `free_desc`. -/
def freed (d : VirtioDisk ι B) (i : ℕ) : VirtioDisk ι B :=
  { d with
    desc := update d.desc i ⟨.null, 0, false, false, 0⟩
    free := update d.free i true }

/-- `free_desc` up to its `wakeup`. -/
def freeDesc (d : VirtioDisk ι B) (i : ℕ) : Outcome VirtioPanic (VirtioDisk ι B) :=
  if NUM ≤ i then .panic .freeDesc1
  else if d.free i then .panic .freeDesc2
  else .next (d.freed i)

/-- The stores between the allocation of the descriptors and the avail ring. -/
def format (d : VirtioDisk ι B) (ch : DiskChain B) : VirtioDisk ι B :=
  { d with
    ops := update d.ops ch.i0 ⟨ch.call.write, ch.call.sector⟩
    desc := update (update (update d.desc
      ch.i0 ⟨.ops ch.i0, 16, true, false, ch.i1⟩)
      ch.i1 ⟨.data ch.call.b, 1024, true, !ch.call.write, ch.i2⟩)
      ch.i2 ⟨.status ch.i0, 1, false, true, 0⟩
    info := update d.info ch.i0 ⟨some ch.call.b, 255⟩
    bdisk := update d.bdisk ch.call.b true }

/-- Where `alloc3_desc` goes on with one more descriptor. -/
def afterAlloc (c : DiskCall B) : List ℕ → VirtioLoc B
  | [i0, i1, i2] => .format ⟨c, i0, i1, i2⟩
  | got => .alloc c got

/-- `free_chain` follows the link, if there is one. -/
def afterFree (c : DiskCall B) (own : List ℕ) : Option ℕ → VirtioLoc B
  | some i => .free c i own
  | none => .done c

/-- The rollback loop of `alloc3_desc`, and the `sleep` after it. -/
def unallocCode (c : DiskCall B) :
    List ℕ → Instr VirtioPanic (VirtioChan B) (VirtioLoc B) (VirtioDisk ι B)
  | [] => .sleep .free (.alloc c [])
  | j :: todo => .act fun d =>
    match d.freeDesc j with
    | .next d' => .next (.unallocWake c todo, d')
    | .disabled => .disabled
    | .panic e => .panic e

/-- The body of the loop of `virtio_disk_intr` up to its `wakeup`. -/
def intrBody (d : VirtioDisk ι B) : Outcome VirtioPanic (VirtioLoc B × VirtioDisk ι B) :=
  if d.usedIdx = d.used.idx then .next (.exit, d)
  else if (d.info (d.used.ring (d.usedIdx % NUM))).status ≠ 0 then .panic .intrStatus
  else match (d.info (d.used.ring (d.usedIdx % NUM))).b with
    | none => .panic .nullBuf
    | some b => .next (.intrWake b (d.used.ring (d.usedIdx % NUM)),
        { d with bdisk := update d.bdisk b false })

/-- One turn of the loop of `free_chain`. -/
def freeTurn (d : VirtioDisk ι B) (c : DiskCall B) (i : ℕ) (own : List ℕ) :
    Outcome VirtioPanic (VirtioLoc B × VirtioDisk ι B) :=
  match d.freeDesc i with
  | .next d' =>
    .next (.freeWake c (if (d.desc i).flagNext then some (d.desc i).next else none) own.tail, d')
  | .disabled => .disabled
  | .panic e => .panic e

/-- The code of thread `i`. -/
def code (i : ι) : VirtioLoc B → VirtioIn B →
    Instr VirtioPanic (VirtioChan B) (VirtioLoc B) (VirtioDisk ι B)
  | .idle, .rw b write blockno => .acquire (.enter ⟨b, write, blockno * 2 % 4294967296⟩)
  | .idle, .intr => .acquire .intr
  | .enter c, _ => .act fun d =>
    if d.owner c.b = some i then .next (.alloc c [], { d with
      inCall := update d.inCall c.b true
      served := update d.served c.b [] })
    else .panic .notHeld
  | .alloc c got, _ => .act fun d =>
    match d.allocDesc with
    | some k => .next (afterAlloc c (got ++ [k]), { d with free := update d.free k false })
    | none => .next (.unalloc c got, d)
  | .unalloc c todo, _ => unallocCode c todo
  | .unallocWake c todo, _ => .wakeup .free (.unalloc c todo)
  | .format ch, _ => .act fun d => .next (.post ch, d.format ch)
  | .post ch, _ => .act fun d => .next (.bump ch, { d with
      avail := { d.avail with ring := update d.avail.ring (d.avail.idx % NUM) ch.i0 } })
  | .bump ch, _ => .act fun d => .next (.wait ch, { d with
      avail := { d.avail with idx := (d.avail.idx + 1) % IDX } })
  | .wait ch, _ => .act fun d => .next (if d.bdisk ch.call.b then .await ch else .finish ch, d)
  | .await ch, _ => .sleep (.buf ch.call.b) (.wait ch)
  | .finish ch, _ => .act fun d => .next (.free ch.call ch.i0 [ch.i0, ch.i1, ch.i2], { d with
      info := update d.info ch.i0 { d.info ch.i0 with b := none } })
  | .free c k own, _ => .act fun d => d.freeTurn c k own
  | .freeWake c nxt own, _ => .wakeup .free (afterFree c own nxt)
  | .done c, _ => .act fun d => .next (.exit, { d with inCall := update d.inCall c.b false })
  | .exit, _ => .release .idle
  | .intr, _ => .act fun d => d.intrBody
  | .intrWake b id, _ => .wakeup (.buf b) (.intrNext id)
  | .intrNext _, _ => .act fun d => .next (.intr, { d with usedIdx := (d.usedIdx + 1) % IDX })

/-- The device completes the chain that starts at descriptor `h`. -/
def complete (d : VirtioDisk ι B) (h : ℕ) : Outcome VirtioPanic (VirtioDisk ι B) :=
  let d1 := d.desc (d.desc h).next
  let d2 := d.desc d1.next
  match (d.desc h).addr, d1.addr, d2.addr with
  | .ops k, .data b, .status j =>
    if (d.desc h).flagNext && d1.flagNext && !d2.flagNext && (d1.flagWrite == !(d.ops k).write) then
      .next { d with
        info := update d.info j { d.info j with status := 0 }
        used := { d.used with ring := update d.used.ring (d.used.idx % NUM) h }
        dev := { d.dev with taken := d.dev.taken.erase h, writing := some h }
        served := update d.served b (d.served b ++ [⟨b, (d.ops k).write, (d.ops k).sector⟩]) }
    else .panic .badChain
  | _, _, _ => .panic .badChain

/-- The environment: the device, and the owners of buffer locks. -/
def env : VirtioEnv ι B → VirtioDisk ι B → Outcome VirtioPanic (VirtioDisk ι B)
  | .take, d =>
    if d.dev.seen = d.avail.idx then .disabled
    else .next { d with dev := { d.dev with
      seen := (d.dev.seen + 1) % IDX
      taken := d.dev.taken ++ [d.avail.ring (d.dev.seen % NUM)] } }
  | .complete h, d => if h ∈ d.dev.taken ∧ d.dev.writing = none then d.complete h else .disabled
  | .publish, d =>
    if d.dev.writing = none then .disabled
    else .next { d with
      used := { d.used with idx := (d.used.idx + 1) % IDX }
      dev := { d.dev with writing := none } }
  | .lock i b, d =>
    if d.owner b = none then .next { d with owner := update d.owner b (some i) }
    else .disabled
  | .unlock i b, d =>
    if d.owner b = some i ∧ d.inCall b = false then
      .next { d with owner := update d.owner b none }
    else .disabled

/-- `vdisk_lock` is held everywhere inside the two functions. -/
def holds : VirtioLoc B → Prop
  | .idle => False
  | _ => True

lemma afterAlloc_holds (c : DiskCall B) (got : List ℕ) : holds (afterAlloc c got) := by
  unfold afterAlloc
  split <;> trivial

lemma afterFree_holds (c : DiskCall B) (own : List ℕ) (nxt : Option ℕ) :
    holds (afterFree c own nxt) := by
  cases nxt <;> trivial

/-- The statements that read or write the data, one constructor for each way they can go on. -/
inductive Acts (i : ι) (d : VirtioDisk ι B) :
    VirtioLoc B → VirtioLoc B → VirtioDisk ι B → Prop where
  | enter {c : DiskCall B} (ho : d.owner c.b = some i) : Acts i d (.enter c) (.alloc c [])
      { d with
        inCall := update d.inCall c.b true
        served := update d.served c.b [] }
  | alloc {c : DiskCall B} {got : List ℕ} {k : ℕ} (hk : d.allocDesc = some k) :
      Acts i d (.alloc c got) (afterAlloc c (got ++ [k]))
        { d with free := update d.free k false }
  | full {c : DiskCall B} {got : List ℕ} (hk : d.allocDesc = none) :
      Acts i d (.alloc c got) (.unalloc c got) d
  | unalloc {c : DiskCall B} {j : ℕ} {todo : List ℕ} :
      Acts i d (.unalloc c (j :: todo)) (.unallocWake c todo) (d.freed j)
  | format {ch : DiskChain B} : Acts i d (.format ch) (.post ch) (d.format ch)
  | post {ch : DiskChain B} : Acts i d (.post ch) (.bump ch) { d with
      avail := { d.avail with ring := update d.avail.ring (d.avail.idx % NUM) ch.i0 } }
  | bump {ch : DiskChain B} : Acts i d (.bump ch) (.wait ch) { d with
      avail := { d.avail with idx := (d.avail.idx + 1) % IDX } }
  | busy {ch : DiskChain B} (hb : d.bdisk ch.call.b = true) : Acts i d (.wait ch) (.await ch) d
  | ready {ch : DiskChain B} (hb : d.bdisk ch.call.b = false) : Acts i d (.wait ch) (.finish ch) d
  | finish {ch : DiskChain B} :
      Acts i d (.finish ch) (.free ch.call ch.i0 [ch.i0, ch.i1, ch.i2]) { d with
        info := update d.info ch.i0 { d.info ch.i0 with b := none } }
  | free {c : DiskCall B} {k : ℕ} {own : List ℕ} : Acts i d (.free c k own)
      (.freeWake c (if (d.desc k).flagNext then some (d.desc k).next else none) own.tail)
      (d.freed k)
  | done {c : DiskCall B} : Acts i d (.done c) .exit
      { d with inCall := update d.inCall c.b false }
  | intrEnd (hu : d.usedIdx = d.used.idx) : Acts i d .intr .exit d
  | intr {b : B} (hu : d.usedIdx ≠ d.used.idx)
      (hb : (d.info (d.used.ring (d.usedIdx % NUM))).b = some b) :
      Acts i d .intr (.intrWake b (d.used.ring (d.usedIdx % NUM)))
        { d with bdisk := update d.bdisk b false }
  | intrNext {id : ℕ} : Acts i d (.intrNext id) .intr { d with usedIdx := (d.usedIdx + 1) % IDX }

variable {i : ι} {l l' : VirtioLoc B} {x : VirtioIn B} {d d' : VirtioDisk ι B} {w : VirtioChan B}

lemma freeDesc_eq {k : ℕ} (h : d.freeDesc k = .next d') : d' = d.freed k := by
  unfold freeDesc at h
  split_ifs at h
  exact (Outcome.next.inj h).symm

lemma code_act {f : VirtioDisk ι B → Outcome VirtioPanic (VirtioLoc B × VirtioDisk ι B)}
    (hc : code i l x = .act f) (hf : f d = .next (l', d')) : Acts i d l l' d' := by
  cases l with
  | idle => cases x <;> cases hc
  | enter c =>
    cases hc
    dsimp only at hf
    split_ifs at hf with ho
    cases hf
    exact .enter ho
  | alloc c got =>
    cases hc
    dsimp only at hf
    split at hf
    · next k hk =>
      cases hf
      exact .alloc hk
    · next hk =>
      cases hf
      exact .full hk
  | unalloc c todo =>
    cases todo with
    | nil => cases hc
    | cons j todo =>
      cases hc
      dsimp only at hf
      split at hf
      · next d'' hd =>
        cases hf
        rw [freeDesc_eq hd]
        exact .unalloc
      · cases hf
      · cases hf
  | free c k own =>
    cases hc
    simp only [freeTurn] at hf
    split at hf
    · next d'' hd =>
      cases hf
      rw [freeDesc_eq hd]
      exact .free
    · cases hf
    · cases hf
  | wait ch =>
    cases hc
    cases hf
    split_ifs with hb
    · exact .busy hb
    · exact .ready (Bool.eq_false_of_not_eq_true hb)
  | intr =>
    cases hc
    simp only [intrBody] at hf
    split_ifs at hf with hu hst
    · cases hf
      exact .intrEnd hu
    · split at hf
      · cases hf
      · next b hb =>
        cases hf
        exact .intr hu hb
  | unallocWake | await | freeWake | exit | intrWake => cases hc
  | format | post | bump | finish | done | intrNext =>
    cases hc
    cases hf
    constructor

lemma acts_holds (h : Acts i d l l' d') : holds l ∧ holds l' := by
  cases h with
  | alloc => exact ⟨trivial, afterAlloc_holds _ _⟩
  | _ => exact ⟨trivial, trivial⟩

lemma code_acquire (hc : code i l x = .acquire l') :
    l = .idle ∧ ((∃ c, l' = .enter c) ∨ l' = .intr) := by
  cases l with
  | idle =>
    cases x with
    | rw b write blockno =>
      cases hc
      exact ⟨rfl, .inl ⟨_, rfl⟩⟩
    | intr =>
      cases hc
      exact ⟨rfl, .inr rfl⟩
  | unalloc c todo => cases todo <;> cases hc
  | _ => cases hc

lemma code_release (hc : code i l x = .release l') : l = .exit ∧ l' = .idle := by
  cases l with
  | idle => cases x <;> cases hc
  | unalloc c todo => cases todo <;> cases hc
  | exit =>
    cases hc
    exact ⟨rfl, rfl⟩
  | _ => cases hc

lemma code_sleep (hc : code i l x = .sleep w l') :
    (∃ c, l = .unalloc c [] ∧ w = .free ∧ l' = .alloc c []) ∨
      ∃ ch, l = .await ch ∧ w = .buf ch.call.b ∧ l' = .wait ch := by
  cases l with
  | idle => cases x <;> cases hc
  | unalloc c todo =>
    cases todo with
    | nil =>
      cases hc
      exact .inl ⟨c, rfl, rfl, rfl⟩
    | cons => cases hc
  | await ch =>
    cases hc
    exact .inr ⟨ch, rfl, rfl, rfl⟩
  | _ => cases hc

lemma code_wakeup (hc : code i l x = .wakeup w l') :
    (∃ c todo, l = .unallocWake c todo ∧ w = .free ∧ l' = .unalloc c todo) ∨
    (∃ c nxt own, l = .freeWake c nxt own ∧ w = .free ∧ l' = afterFree c own nxt) ∨
    ∃ b id, l = .intrWake b id ∧ w = .buf b ∧ l' = .intrNext id := by
  cases l with
  | idle => cases x <;> cases hc
  | unalloc c todo => cases todo <;> cases hc
  | unallocWake c todo =>
    cases hc
    exact .inl ⟨c, todo, rfl, rfl, rfl⟩
  | freeWake c nxt own =>
    cases hc
    exact .inr (.inl ⟨c, nxt, own, rfl, rfl, rfl⟩)
  | intrWake b id =>
    cases hc
    exact .inr (.inr ⟨b, id, rfl, rfl, rfl⟩)
  | _ => cases hc

lemma code_killed {yes no : VirtioLoc B} : code i l x ≠ .killed yes no := by
  intro hc
  cases l with
  | idle => cases x <;> cases hc
  | unalloc c todo => cases todo <;> cases hc
  | _ => cases hc

lemma code_respects (i : ι) (l : VirtioLoc B) (x : VirtioIn B) : (code i l x).Respects holds l := by
  cases hc : code i l x with
  | acquire l' =>
    obtain ⟨rfl, ⟨c, rfl⟩ | rfl⟩ := code_acquire hc <;> exact ⟨id, trivial⟩
  | release l' =>
    obtain ⟨rfl, rfl⟩ := code_release hc
    exact ⟨trivial, id⟩
  | sleep w l' =>
    rcases code_sleep hc with ⟨c, rfl, -, rfl⟩ | ⟨ch, rfl, -, rfl⟩ <;> exact ⟨trivial, trivial⟩
  | wakeup w l' =>
    rcases code_wakeup hc with ⟨c, todo, rfl, -, rfl⟩ | ⟨c, nxt, own, rfl, -, rfl⟩ |
      ⟨b, id, rfl, -, rfl⟩
    · exact ⟨trivial, trivial⟩
    · exact ⟨trivial, afterFree_holds _ _ _⟩
    · exact ⟨trivial, trivial⟩
  | killed yes no => exact absurd hc code_killed
  | act f =>
    intro d l' d' hf
    obtain ⟨hl, hl'⟩ := acts_holds (code_act hc hf)
    exact ⟨iff_of_true hl' hl, fun hn => absurd hl hn⟩

/-- The driver and its device. -/
def client (ι B : Type) [DecidableEq ι] [DecidableEq B] : Client VirtioPanic ι (VirtioChan B)
    (VirtioLoc B) (VirtioDisk ι B) (VirtioIn B) (VirtioEnv ι B) where
  code := code
  env := env
  holds := holds
  respects := code_respects

end VirtioDisk

end Xv6
