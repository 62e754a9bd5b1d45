import Xv6.Lib.Bytes
import Xv6.Lib.Steps

/-!
# `sigalarm` and `sigreturn`

A timer interrupt that makes an alarm due saves the process's trapframe and sends the process to its
handler; `sigreturn` puts the saved trapframe back. The model follows a user process from one trap
to the next: `uservec` stores the user registers in the trapframe, `usertrap` handles the trap,
`prepare_return` and `userret` go back to user space.

What the program does between two traps is arbitrary (`UserAct.instr`): user code reaches neither
trapframe. The other system calls are given by what they return and, for `exec`, by the new image; a
trap after which the process exits is not a step, for it does not return to user space.

**The saved frame survives the handler.**  While `alarm_active` is set no timer interrupt saves a
second one (`Saved.step`), whatever the handler does. `sigreturn` restores it; but it is a system
call itself, so `syscall` then stores its return value, 0, in the restored `a0`. The program resumes
as it was just when it was interrupted with `a0 = 0`.

**Alarms come on time.**  `Counts` relates the alarm fields to the events of the run so far.
-/

namespace Xv6

/-- The registers `uservec` saves. -/
inductive Reg where
  | ra | sp | gp | tp | t0 | t1 | t2 | s0 | s1 | a0 | a1 | a2 | a3 | a4 | a5 | a6 | a7
  | s2 | s3 | s4 | s5 | s6 | s7 | s8 | s9 | s10 | s11 | t3 | t4 | t5 | t6
  deriving DecidableEq

/-- `struct trapframe`. -/
structure Trapframe where
  kernelSatp : UInt64
  kernelSp : UInt64
  kernelTrap : UInt64
  epc : UInt64
  kernelHartid : UInt64
  regs : Reg → UInt64

/-- The system calls of `syscalls[]`. -/
inductive Syscall where
  | fork | exit | wait | pipe | read | kill | exec | fstat | chdir | dup | getpid | sbrk | pause
  | uptime | open | write | mknod | unlink | link | mkdir | close | sync | trace | sysinfo
  | sigalarm | sigreturn
  deriving DecidableEq

/-- `syscalls[num]`; there is no function for `SYS_sleep`. -/
def syscalls : ℕ → Option Syscall
  | 1 => some .fork
  | 2 => some .exit
  | 3 => some .wait
  | 4 => some .pipe
  | 5 => some .read
  | 6 => some .kill
  | 7 => some .exec
  | 8 => some .fstat
  | 9 => some .chdir
  | 10 => some .dup
  | 11 => some .getpid
  | 12 => some .sbrk
  | 14 => some .uptime
  | 15 => some .open
  | 16 => some .write
  | 17 => some .mknod
  | 18 => some .unlink
  | 19 => some .link
  | 20 => some .mkdir
  | 21 => some .close
  | 22 => some .pause
  | 23 => some .sync
  | 24 => some .trace
  | 25 => some .sysinfo
  | 26 => some .sigalarm
  | 27 => some .sigreturn
  | _ => none

/-- What a system call other than `sigalarm` and `sigreturn` comes to: the value it returns and, for
an `exec` that succeeds, the entry point and the stack pointer of the new image. -/
structure SysResult where
  ret : UInt64
  image : Option (UInt64 × UInt64) := none

/-- `scause`, with what the handling of a trap depends on. -/
inductive TrapCause where
  | syscall (out : SysResult)
  | timer
  | device
  /-- A load or store page fault; `ok` says whether the page could be provided. -/
  | pageFault (ok : Bool)
  | unexpected

/-- The control registers `prepare_return` reads and the address of `usertrap`. -/
structure KernelRegs where
  satp : UInt64
  usertrap : UInt64
  hartid : UInt64

/-- The fields of `struct proc` that the return to user space and the alarm use. -/
structure UserProc where
  trapframe : Trapframe
  kstack : UInt64
  alarmTicks : ℤ
  alarmInterval : ℤ
  alarmHandler : UInt64
  alarmTrapframe : Trapframe
  alarmActive : Bool

namespace UserProc

def setReg (p : UserProc) (r : Reg) (v : UInt64) : UserProc :=
  { p with trapframe.regs := Function.update p.trapframe.regs r v }

def setEpc (p : UserProc) (epc : UInt64) : UserProc := { p with trapframe.epc := epc }

/-- `argint(0)` and `argaddr(1)` read `a0` and `a1`. -/
def sysSigalarm (p : UserProc) : UserProc :=
  { p with
    alarmInterval := ByteArr.toInt32 ((p.trapframe.regs .a0).toNat % 2 ^ 32)
    alarmHandler := p.trapframe.regs .a1
    alarmTicks := 0 }

def sysSigreturn (p : UserProc) : UserProc :=
  { p with trapframe := p.alarmTrapframe, alarmActive := false }

/-- The end of `kexec`, where it commits to the new image. -/
def commitImage (p : UserProc) (image : UInt64 × UInt64) : UserProc :=
  ((p.setReg .a1 image.2).setEpc image.1).setReg .sp image.2

/-- The function of a system call: its return value and the process after it; `exit` does not
return. -/
def callSys (p : UserProc) (out : SysResult) : Syscall → Option (UInt64 × UserProc)
  | .exit => none
  | .sigalarm => some (0, p.sysSigalarm)
  | .sigreturn => some (0, p.sysSigreturn)
  | .exec =>
    match out.image with
    | some image => some (out.ret, p.commitImage image)
    | none => some (out.ret, p)
  | _ => some (out.ret, p)

/-- The system call that `a7` asks for; `num` is an `int`. -/
def sysOf (p : UserProc) : Option Syscall :=
  let num := ByteArr.toInt32 ((p.trapframe.regs .a7).toNat % 2 ^ 32)
  if 0 < num then syscalls num.toNat else none

def syscall (p : UserProc) (out : SysResult) : Option UserProc :=
  match p.sysOf with
  | some sys => (p.callSys out sys).map fun (ret, p) => p.setReg .a0 ret
  | none => some (p.setReg .a0 (-1))

/-- The part of `usertrap` for a timer interrupt. -/
def alarm (p : UserProc) : UserProc :=
  if 0 < p.alarmInterval ∧ p.alarmActive = false then
    let p := { p with alarmTicks := p.alarmTicks + 1 }
    if p.alarmTicks = p.alarmInterval then
      { p with
        alarmActive := true
        alarmTrapframe := p.trapframe
        trapframe.epc := p.alarmHandler
        alarmTicks := 0 }
    else p
  else p

def prepareReturn (p : UserProc) (k : KernelRegs) : UserProc :=
  { p with
    trapframe.kernelSatp := k.satp
    trapframe.kernelSp := p.kstack + 4096
    trapframe.kernelTrap := k.usertrap
    trapframe.kernelHartid := k.hartid }

/-- The branch of `usertrap` for the trap's cause. -/
def handleTrap (p : UserProc) : TrapCause → Option UserProc
  | .syscall out => (p.setEpc (p.trapframe.epc + 4)).syscall out
  | .timer => some p.alarm
  | .device => some p
  | .pageFault ok => if ok then some p else none
  | .unexpected => none

/-- `usertrap`, with the trapframe as `uservec` leaves it; `killed` is what `killed(p)` says at the
end. -/
def usertrap (p : UserProc) (sepc : UInt64) (cause : TrapCause) (killed : Bool) (k : KernelRegs) :
    Option UserProc := do
  let p ← (p.setEpc sepc).handleTrap cause
  if killed then none else some (p.prepareReturn k)

end UserProc

open UserProc

/-- A process in user space. -/
structure UserState where
  regs : Reg → UInt64
  pc : UInt64
  proc : UserProc

/-- A step of the process. -/
inductive UserAct where
  /-- The program executes instructions, up to these registers and this `pc`. -/
  | instr (regs : Reg → UInt64) (pc : UInt64)
  | trap (cause : TrapCause) (killed : Bool) (k : KernelRegs)

namespace UserState

/-- `uservec`: the registers go to the trapframe. -/
def uservec (s : UserState) : UserProc := { s.proc with trapframe.regs := s.regs }

/-- `userret`: the registers come from the trapframe. -/
def userret (p : UserProc) : UserState := ⟨p.trapframe.regs, p.trapframe.epc, p⟩

def step (s : UserState) : UserAct → Outcome Empty UserState
  | .instr regs pc => .next { s with regs := regs, pc := pc }
  | .trap cause killed k =>
    match s.uservec.usertrap s.pc cause killed k with
    | some p => .next (userret p)
    | none => .disabled

/-- The next timer interrupt delivers an alarm. -/
def AlarmDue (s : UserState) : Prop :=
  0 < s.proc.alarmInterval ∧ s.proc.alarmActive = false ∧
    s.proc.alarmTicks + 1 = s.proc.alarmInterval

/-- The action is a call of `sigreturn`. -/
def CallsSigreturn (s : UserState) : UserAct → Prop
  | .trap (.syscall _) _ _ => s.uservec.sysOf = some .sigreturn
  | _ => False

instance (s : UserState) (a : UserAct) : Decidable (s.CallsSigreturn a) := by
  rcases a with _ | ⟨_ | _, _, _⟩ <;> simp only [CallsSigreturn] <;> infer_instance

/-- The registers and the `pc` the process was interrupted with are saved, and no alarm will be
delivered before they are restored. -/
structure Saved (s : UserState) (regs : Reg → UInt64) (pc : UInt64) : Prop where
  active : s.proc.alarmActive = true
  regs : s.proc.alarmTrapframe.regs = regs
  epc : s.proc.alarmTrapframe.epc = pc

variable {s s' : UserState} {regs : Reg → UInt64} {pc : UInt64} {k : KernelRegs}

variable {killed : Bool} {a : UserAct} {out : SysResult} {p : UserProc}

lemma step_trap {cause : TrapCause} (hs : s.step (.trap cause killed k) = .next s') :
    ∃ p, (s.uservec.setEpc s.pc).handleTrap cause = some p ∧ s' = userret (p.prepareReturn k) := by
  simp only [step] at hs
  split at hs
  · next q hq =>
    cases hs
    simp only [usertrap, Option.bind_eq_bind, Option.bind_eq_some_iff] at hq
    obtain ⟨p, hp, hq⟩ := hq
    split_ifs at hq
    cases hq
    exact ⟨p, hp, rfl⟩
  · cases hs

/-- Nothing of the alarm has changed. -/
structure SameAlarm (p p' : UserProc) : Prop where
  interval : p'.alarmInterval = p.alarmInterval
  ticks : p'.alarmTicks = p.alarmTicks
  frame : p'.alarmTrapframe = p.alarmTrapframe
  active : p'.alarmActive = p.alarmActive

/-- What a step means for the alarm. -/
inductive AlarmEvent where
  | tick
  | delivery
  | sigalarm (interval : ℤ)
  | sigreturn
  | other

/-- The event of a step; `alarm_active` goes from 0 to 1 when an alarm is delivered. -/
def event (s : UserState) (a : UserAct) (s' : UserState) : AlarmEvent :=
  match a with
  | .trap .timer _ _ =>
    if s.proc.alarmActive = false ∧ s'.proc.alarmActive = true then .delivery else .tick
  | .trap (.syscall _) _ _ =>
    match s.uservec.sysOf with
    | some .sigalarm => .sigalarm (ByteArr.toInt32 ((s.regs .a0).toNat % 2 ^ 32))
    | some .sigreturn => .sigreturn
    | _ => .other
  | _ => .other

/-- What a step does to the alarm: nothing, or what the timer or one of the two calls does. -/
inductive AlarmStep (s s' : UserState) (a : UserAct) : Prop where
  | same (he : s.event a s' = .other) (h : SameAlarm s.proc s'.proc)
  | timer {killed : Bool} {k : KernelRegs} (ha : a = .trap .timer killed k)
      (h : SameAlarm (s.uservec.setEpc s.pc).alarm s'.proc)
  | sigalarm {n : ℤ} (he : s.event a s' = .sigalarm n)
      (h : SameAlarm { s.proc with alarmInterval := n, alarmTicks := 0 } s'.proc)
  | sigreturn (he : s.event a s' = .sigreturn) (ha : s.CallsSigreturn a)
      (h : SameAlarm { s.proc with alarmActive := false } s'.proc)

lemma callSys_sameAlarm {p p' : UserProc} {sys : Syscall} {ret : UInt64}
    (hne : sys ≠ .sigalarm) (hne' : sys ≠ .sigreturn) (h : p.callSys out sys = some (ret, p')) :
    SameAlarm p p' := by
  cases sys with
  | exit => cases h
  | sigalarm => exact absurd rfl hne
  | sigreturn => exact absurd rfl hne'
  | exec =>
    simp only [callSys] at h
    split at h
    all_goals
      cases h
      exact ⟨rfl, rfl, rfl, rfl⟩
  | _ =>
    cases h
    exact ⟨rfl, rfl, rfl, rfl⟩

lemma syscall_alarm (h : (s.uservec.setEpc s.pc).handleTrap (.syscall out) = some p) :
    AlarmStep s (userret (p.prepareReturn k)) (.trap (.syscall out) killed k) := by
  have hepc : ((s.uservec.setEpc s.pc).setEpc (s.pc + 4)).sysOf = s.uservec.sysOf := rfl
  change ((s.uservec.setEpc s.pc).setEpc (s.pc + 4)).syscall out = some p at h
  simp only [syscall, hepc] at h
  split at h
  · next sys hsys =>
    obtain ⟨⟨ret, q⟩, hq, rfl⟩ := Option.map_eq_some_iff.mp h
    by_cases hal : sys = .sigalarm
    · subst hal
      cases hq
      refine .sigalarm (n := ByteArr.toInt32 ((s.regs .a0).toNat % 2 ^ 32)) ?_ ⟨rfl, rfl, rfl, rfl⟩
      simp only [event, hsys]
    by_cases hret : sys = .sigreturn
    · subst hret
      cases hq
      exact .sigreturn (by simp only [event, hsys]) hsys ⟨rfl, rfl, rfl, rfl⟩
    have hsame := callSys_sameAlarm hal hret hq
    refine .same ?_ { hsame with }
    simp only [event, hsys]
    split <;> simp_all
  · next hsys =>
    cases h
    exact .same (by simp only [event, hsys]) ⟨rfl, rfl, rfl, rfl⟩

lemma step_alarm (hs : s.step a = .next s') : AlarmStep s s' a := by
  cases a with
  | instr regs' pc' =>
    cases hs
    exact .same rfl ⟨rfl, rfl, rfl, rfl⟩
  | trap cause killed k =>
    obtain ⟨p, hp, rfl⟩ := step_trap hs
    cases cause with
    | syscall out => exact syscall_alarm hp
    | timer =>
      cases hp
      exact .timer rfl ⟨rfl, rfl, rfl, rfl⟩
    | device =>
      cases hp
      exact .same rfl ⟨rfl, rfl, rfl, rfl⟩
    | pageFault ok =>
      simp only [handleTrap] at hp
      split_ifs at hp
      cases hp
      exact .same rfl ⟨rfl, rfl, rfl, rfl⟩
    | unexpected => cases hp

lemma alarm_of_active (h : p.alarmActive = true) : p.alarm = p := by
  simp [alarm, h]

lemma frame_kept (h : s.proc.alarmActive = true) (hs : s.step a = .next s') :
    s'.proc.alarmTrapframe = s.proc.alarmTrapframe := by
  cases step_alarm hs with
  | timer _ hsame =>
    rw [alarm_of_active (p := s.uservec.setEpc s.pc) h] at hsame
    exact hsame.frame
  | same _ hsame | sigalarm _ hsame | sigreturn _ _ hsame => exact hsame.frame

lemma Saved.step (h : s.Saved regs pc) (hok : ¬ s.CallsSigreturn a)
    (hs : s.step a = .next s') : s'.Saved regs pc := by
  have hframe := frame_kept h.active hs
  refine ⟨?_, by rw [hframe, h.regs], by rw [hframe, h.epc]⟩
  cases step_alarm hs with
  | timer _ hsame =>
    rw [alarm_of_active (p := s.uservec.setEpc s.pc) h.active] at hsame
    exact hsame.active.trans h.active
  | same _ hsame | sigalarm _ hsame => exact hsame.active.trans h.active
  | sigreturn _ ha _ => exact absurd ha hok

/-- An alarm that is due is delivered by the next timer interrupt: the process goes to its handler,
and where it was is saved. -/
lemma AlarmDue.delivered (h : s.AlarmDue) (hs : s.step (.trap .timer killed k) = .next s') :
    s'.Saved s.regs s.pc ∧ s'.pc = s.proc.alarmHandler ∧ s'.regs = s.regs := by
  obtain ⟨hpos, hidle, hlast⟩ := h
  obtain ⟨p, hp, rfl⟩ := step_trap hs
  simp only [handleTrap, alarm, uservec, setEpc, hpos, hidle, hlast,
    and_self, if_true, Option.some.injEq] at hp
  subst hp
  exact ⟨⟨rfl, rfl, rfl⟩, rfl, rfl⟩

/-- `sigreturn` restores the saved registers, all but `a0`. -/
lemma Saved.sigreturn (h : s.Saved regs pc)
    (hcall : s.CallsSigreturn (.trap (.syscall out) killed k))
    (hs : s.step (.trap (.syscall out) killed k) = .next s') :
    s'.pc = pc ∧ s'.regs = Function.update regs .a0 0 := by
  obtain ⟨p, hp, rfl⟩ := step_trap hs
  have hsys : ((s.uservec.setEpc s.pc).setEpc (s.pc + 4)).sysOf = some .sigreturn := hcall
  have hepc : (s.uservec.setEpc s.pc).trapframe.epc = s.pc := rfl
  simp only [handleTrap, syscall, hepc, hsys, callSys, Option.map_some,
    Option.some.injEq] at hp
  subst hp
  exact ⟨h.epc, congrArg (fun regs => Function.update regs Reg.a0 0) h.regs⟩

lemma update_a0_eq_iff {regs : Reg → UInt64} :
    Function.update regs .a0 0 = regs ↔ regs .a0 = 0 := by
  rw [Function.update_eq_self_iff]
  exact eq_comm

/-- **`sigreturn` resumes the interrupted program, except for `a0`**: whatever the handler did,
every other register and the `pc` are those of the timer interrupt that delivered the alarm, and
`a0` is 0. -/
theorem sigreturn_resumes_iff {s s₁ s₂ s₃ : UserState} {as : List UserAct} {out : SysResult}
    {killed : Bool} {k k' : KernelRegs} (hdue : s.AlarmDue)
    (hint : s.step (.trap .timer false k) = .next s₁)
    (hrun : RunOf step (fun s a => ¬ s.CallsSigreturn a) s₁ as s₂)
    (hcall : s₂.CallsSigreturn (.trap (.syscall out) killed k'))
    (hret : s₂.step (.trap (.syscall out) killed k') = .next s₃) :
    (s₃.regs = s.regs ∧ s₃.pc = s.pc ↔ s.regs .a0 = 0) ∧ s₃.pc = s.pc ∧
      ∀ r, r ≠ .a0 → s₃.regs r = s.regs r := by
  have hsaved : s₂.Saved s.regs s.pc :=
    hrun.invariant (I := fun t => t.Saved s.regs s.pc) (fun _ _ _ h hok hs => h.step hok hs)
      (hdue.delivered hint).1
  obtain ⟨hpc, hregs⟩ := hsaved.sigreturn hcall hret
  rw [hpc, hregs]
  refine ⟨⟨fun h => update_a0_eq_iff.mp h.1, fun h => ⟨update_a0_eq_iff.mpr h, rfl⟩⟩, rfl, ?_⟩
  intro r hr
  exact Function.update_of_ne hr _ _

/-! ### An alarm in the middle of a computation -/

def sampleKernel : KernelRegs := ⟨0x8000000000087FFF, 0x80002000, 0⟩

/-- A program with `a0` as given, one tick before an alarm of `sigalarm(2, 0x100)`. -/
def alarmStart (a0 : UInt64) : UserState where
  regs := fun r => if r = .a0 then a0 else if r = .s0 then 7 else 1
  pc := 0x40
  proc := {
    trapframe := ⟨0, 0, 0, 0, 0, fun _ => 0⟩
    kstack := 0x3FFFFFD000
    alarmTicks := 1
    alarmInterval := 2
    alarmHandler := 0x100
    alarmTrapframe := ⟨0, 0, 0, 0, 0, fun _ => 0⟩
    alarmActive := false }

/-- The handler: it calls `write`, is interrupted by the timer, calls `sigalarm(0, 0)` and changes
registers, and is about to call `sigreturn`. -/
def sampleHandler : List UserAct :=
  [.instr (fun r => if r = .a7 then 16 else 3) 0x104, .trap (.syscall ⟨1, none⟩) false sampleKernel,
    .trap .timer false sampleKernel, .instr (fun r => if r = .a7 then 26 else 0) 0x110,
    .trap (.syscall ⟨0, none⟩) false sampleKernel,
      .instr (fun r => if r = .a7 then 27 else 9) 0x120]

def sigreturnCall : UserAct := .trap (.syscall ⟨0, none⟩) false sampleKernel

lemma sampleHandler_runs (a0 : UInt64) : ∃ s1 s2 s3, (alarmStart a0).AlarmDue ∧
      (alarmStart a0).step (.trap .timer false sampleKernel) = .next s1 ∧
      RunOf step (fun s a => ¬ s.CallsSigreturn a) s1 sampleHandler s2 ∧
      s2.CallsSigreturn sigreturnCall ∧ s2.step sigreturnCall = .next s3 ∧ s3.regs .a0 = 0 :=
  ⟨_, _, _, ⟨(by decide : (0 : ℤ) < 2), rfl, rfl⟩, rfl,
    RunOf.of_exec (fun (s : UserState) a (h : !decide (s.CallsSigreturn a)) => by simpa using h)
      rfl,
    (by show _ = _; rfl), rfl, rfl⟩

/-- Interrupted with `a0 = 0`, the program resumes as it was. -/
theorem sigreturn_resumes_sample : ∃ s₁ s₂ s₃,
    (alarmStart 0).step (.trap .timer false sampleKernel) = .next s₁ ∧
      RunOf step (fun s a => ¬ s.CallsSigreturn a) s₁ sampleHandler s₂ ∧
      s₂.step sigreturnCall = .next s₃ ∧ s₃.regs = (alarmStart 0).regs ∧ s₃.pc = 0x40 := by
  obtain ⟨s₁, s₂, s₃, hdue, hint, hrun, hcall, hret, -⟩ := sampleHandler_runs 0
  obtain ⟨hregs, hpc⟩ := (sigreturn_resumes_iff hdue hint hrun hcall hret).1.mpr rfl
  exact ⟨s₁, s₂, s₃, hint, hrun, hret, hregs, hpc⟩

/-- Interrupted with `a0 = 5`, it resumes with `a0 = 0`. -/
theorem sigreturn_clears_a0 : (alarmStart 5).regs .a0 = 5 ∧ ∃ s₁ s₂ s₃, (alarmStart 5).AlarmDue ∧
    (alarmStart 5).step (.trap .timer false sampleKernel) = .next s₁ ∧
      RunOf step (fun s a => ¬ s.CallsSigreturn a) s₁ sampleHandler s₂ ∧
      s₂.CallsSigreturn sigreturnCall ∧ s₂.step sigreturnCall = .next s₃ ∧ s₃.regs .a0 = 0 :=
  ⟨rfl, sampleHandler_runs 5⟩

/-! ## When alarms are delivered -/

namespace AlarmEvent

/-- The interval of the last `sigalarm`; the latest event comes first. -/
def interval : List AlarmEvent → ℤ
  | [] => 0
  | .sigalarm n :: _ => n
  | _ :: es => interval es

/-- An alarm was delivered after the last `sigreturn`. -/
def awaiting : List AlarmEvent → Bool
  | [] => false
  | .delivery :: _ => true
  | .sigreturn :: _ => false
  | _ :: es => awaiting es

/-- The timer interrupts since the last `sigalarm` or delivery, but for those taken while an alarm
was awaiting `sigreturn`. -/
def ticks : List AlarmEvent → ℤ
  | [] => 0
  | .sigalarm _ :: _ => 0
  | .delivery :: _ => 0
  | .tick :: es => if awaiting es then ticks es else ticks es + 1
  | _ :: es => ticks es

end AlarmEvent

open AlarmEvent

/-- A step together with the events so far. -/
def stepTraced (t : UserState × List AlarmEvent) (a : UserAct) :
    Outcome Empty (UserState × List AlarmEvent) :=
  match t.1.step a with
  | .next s' => .next (s', t.1.event a s' :: t.2)
  | .disabled => .disabled
  | .panic e => .panic e

/-- The alarm fields as `allocproc` sets them. -/
structure FreshAlarm (p : UserProc) : Prop where
  interval : p.alarmInterval = 0
  ticks : p.alarmTicks = 0
  active : p.alarmActive = false

/-- The alarm fields say what the events were. With no alarm set the ticks are not counted. -/
structure Counts (t : UserState × List AlarmEvent) : Prop where
  interval : t.1.proc.alarmInterval = interval t.2
  active : t.1.proc.alarmActive = awaiting t.2
  ticks : 0 < AlarmEvent.interval t.2 →
    t.1.proc.alarmTicks = ticks t.2 ∧ ticks t.2 < AlarmEvent.interval t.2

variable {es : List AlarmEvent}

/-- What the timer interrupt does, from the fields it tests. -/
lemma alarm_cases (p : UserProc) :
    (0 < p.alarmInterval ∧ p.alarmActive = false ∧ p.alarmTicks + 1 = p.alarmInterval ∧
      p.alarm.alarmInterval = p.alarmInterval ∧ p.alarm.alarmTicks = 0 ∧
        p.alarm.alarmActive = true) ∨
    (0 < p.alarmInterval ∧ p.alarmActive = false ∧ p.alarmTicks + 1 ≠ p.alarmInterval ∧
      p.alarm = { p with alarmTicks := p.alarmTicks + 1 }) ∨
    (¬ (0 < p.alarmInterval ∧ p.alarmActive = false) ∧ p.alarm = p) := by
  by_cases hon : 0 < p.alarmInterval ∧ p.alarmActive = false
  · by_cases hlast : p.alarmTicks + 1 = p.alarmInterval
    · exact .inl ⟨hon.1, hon.2, hlast, by simp [alarm, hon, hlast]⟩
    · exact .inr (.inl ⟨hon.1, hon.2, hlast, by simp [alarm, hon, hlast]⟩)
  · exact .inr (.inr ⟨hon, if_neg hon⟩)

lemma alarm_of_timer (hs : s.step (.trap .timer killed k) = .next s') :
    SameAlarm (s.uservec.setEpc s.pc).alarm s'.proc := by
  obtain ⟨p, hp, rfl⟩ := step_trap hs
  cases hp
  exact ⟨rfl, rfl, rfl, rfl⟩

/-- A timer interrupt delivers an alarm exactly when one is due. -/
lemma event_timer (hs : s.step (.trap .timer killed k) = .next s') :
    s.event (.trap .timer killed k) s' = .delivery ∧ s.AlarmDue ∨
      s.event (.trap .timer killed k) s' = .tick ∧ ¬ s.AlarmDue := by
  have hact := (alarm_of_timer hs).active
  simp only [event]
  rcases alarm_cases (s.uservec.setEpc s.pc) with ⟨hpos, hidle, hlast, -, -, ha⟩ |
    ⟨-, hidle, hne, ha⟩ | ⟨hoff, ha⟩
  · exact .inl ⟨if_pos ⟨hidle, hact.trans ha⟩, hpos, hidle, hlast⟩
  · rw [ha] at hact
    exact .inr ⟨if_neg fun h => (by cases h.2.symm.trans (hact.trans hidle)), fun h => hne h.2.2⟩
  · rw [ha] at hact
    exact .inr ⟨if_neg fun h => (by cases h.2.symm.trans (hact.trans h.1)),
      fun h => hoff ⟨h.1, h.2.1⟩⟩

lemma Counts.timer (h : Counts (s, es)) (hs : s.step (.trap .timer killed k) = .next s') :
    Counts (s', s.event (.trap .timer killed k) s' :: es) := by
  obtain ⟨hint, hact, htick⟩ := h
  obtain ⟨hi, ht, -, ha⟩ := alarm_of_timer hs
  have hcases := alarm_cases (s.uservec.setEpc s.pc)
  rcases event_timer hs with ⟨he, hpos, hidle, hlast⟩ | ⟨he, hdue⟩ <;> rw [he]
  · -- the count starts again
    rcases hcases with ⟨-, -, -, hi', ht', ha'⟩ | ⟨-, -, hne, -⟩ | ⟨hoff, -⟩
    · exact ⟨(hi.trans hi').trans hint, ha.trans ha', fun hn => ⟨ht.trans ht', hn⟩⟩
    · exact absurd hlast hne
    · exact absurd ⟨hpos, hidle⟩ hoff
  · rcases hcases with ⟨hpos, hidle, hlast, -⟩ | ⟨-, hidle, hne, hq⟩ | ⟨hoff, hq⟩
    · exact absurd ⟨hpos, hidle, hlast⟩ hdue
    · rw [hq] at hi ht ha
      refine ⟨hi.trans hint, ha.trans hact, fun hn => ?_⟩
      obtain ⟨hcount, hlt⟩ := htick hn
      have hnot : awaiting es = false := hact.symm.trans hidle
      have hstop : AlarmEvent.ticks es + 1 ≠ AlarmEvent.interval es := by
        rw [← hcount, ← hint]
        exact hne
      simp only [AlarmEvent.ticks, AlarmEvent.interval, hnot] at hlt ⊢
      exact ⟨ht.trans (congrArg (· + 1) hcount), lt_of_le_of_ne hlt hstop⟩
    · rw [hq] at hi ht ha
      refine ⟨hi.trans hint, ha.trans hact, fun hn => ?_⟩
      have hwait : awaiting es = true := by
        rw [← hact]
        exact (Bool.eq_false_or_eq_true _).resolve_right fun hf => hoff ⟨hint.symm ▸ hn, hf⟩
      simp only [AlarmEvent.ticks, hwait, if_true]
      exact ⟨ht.trans (htick hn).1, (htick hn).2⟩

lemma Counts.step (h : Counts (s, es)) (hs : s.step a = .next s') :
    Counts (s', s.event a s' :: es) := by
  cases step_alarm hs with
  | timer ha hsame =>
    subst ha
    exact h.timer hs
  | same he hsame =>
    rw [he]
    exact ⟨hsame.interval.trans h.interval, hsame.active.trans h.active,
      fun hn => ⟨hsame.ticks.trans (h.ticks hn).1, (h.ticks hn).2⟩⟩
  | sigalarm he hsame =>
    rw [he]
    exact ⟨hsame.interval, hsame.active.trans h.active, fun hn => ⟨hsame.ticks, hn⟩⟩
  | sigreturn he _ hsame =>
    rw [he]
    exact ⟨hsame.interval.trans h.interval, hsame.active,
      fun hn => ⟨hsame.ticks.trans (h.ticks hn).1, (h.ticks hn).2⟩⟩

lemma Counts.stepTraced {t t' : UserState × List AlarmEvent} (h : Counts t)
    (hs : UserState.stepTraced t a = .next t') : Counts t' := by
  simp only [UserState.stepTraced] at hs
  split at hs
  · next s1 hs1 =>
    cases hs
    exact Counts.step h hs1
  all_goals cases hs

/-- **Alarms are delivered exactly on time, one at a time.**  Whatever the process has done since
`allocproc`, a timer interrupt delivers an alarm just when the interval is positive, no alarm awaits
`sigreturn` and this is the `interval`-th interrupt of those that count, which the count never
passes; and while one awaits `sigreturn` the saved frame stays. -/
theorem alarm_delivery_exact {s₀ s : UserState} {as : List UserAct} {es : List AlarmEvent}
    (h0 : FreshAlarm s₀.proc) (hrun : Run stepTraced (s₀, []) as (s, es)) :
    (∀ killed k s', s.step (.trap .timer killed k) = .next s' →
      (s.event (.trap .timer killed k) s' = .delivery ↔
        0 < interval es ∧ awaiting es = false ∧ ticks es + 1 = interval es)) ∧
    (0 < interval es → ticks es < interval es) ∧
    (∀ killed k s', s.step (.trap .timer killed k) = .next s' →
      s.event (.trap .timer killed k) s' = .delivery →
        s'.pc = s.proc.alarmHandler ∧ s'.regs = s.regs ∧ s'.Saved s.regs s.pc) ∧
    ∀ a s', awaiting es = true → s.step a = .next s' →
      s'.proc.alarmTrapframe = s.proc.alarmTrapframe := by
  have hc : Counts (s, es) := hrun.invariant (fun _ _ _ h hs => h.stepTraced hs)
    ⟨h0.interval, h0.active, fun h => absurd h (lt_irrefl 0)⟩
  have hevent : ∀ {killed k s'}, s.step (.trap .timer killed k) = .next s' →
      (s.event (.trap .timer killed k) s' = .delivery ↔ s.AlarmDue) := by
    intro killed k s' hs
    rcases event_timer hs with ⟨he, hdue⟩ | ⟨he, hdue⟩ <;> simp [he, hdue]
  refine ⟨fun killed k s' hs => ?_, fun hn => (hc.ticks hn).2, fun killed k s' hs hd => ?_,
    fun a s' hw hs => frame_kept (hc.active.trans hw) hs⟩
  · rw [hevent hs, AlarmDue, show s.proc.alarmInterval = _ from hc.interval,
      show s.proc.alarmActive = _ from hc.active]
    exact and_congr_right fun hn => by rw [show s.proc.alarmTicks = _ from (hc.ticks hn).1]
  · obtain ⟨hsaved, hpc, hregs⟩ := ((hevent hs).mp hd).delivered hs
    exact ⟨hpc, hregs, hsaved⟩

/-- A fresh process calls `sigalarm(2, 0x100)` and takes one timer interrupt. -/
def sampleSigalarm : List UserAct :=
  [.instr (fun r => if r = .a7 then 26 else if r = .a0 then 2 else 0x100) 0x40,
    .trap (.syscall ⟨0, none⟩) false sampleKernel, .trap .timer false sampleKernel]

/-- The next interrupt delivers the alarm. -/
theorem alarm_delivery_second : ∃ s es s',
    Run stepTraced ({ alarmStart 0 with proc.alarmInterval := 0, proc.alarmTicks := 0 }, [])
      sampleSigalarm (s, es) ∧ s.step (.trap .timer false sampleKernel) = .next s' ∧
      s.event (.trap .timer false sampleKernel) s' = .delivery := by
  have hsample : ∃ s es, Run stepTraced
      ({ alarmStart 0 with proc.alarmInterval := 0, proc.alarmTicks := 0 }, []) sampleSigalarm
      (s, es) ∧
      (0 < interval es ∧ awaiting es = false ∧ ticks es + 1 = interval es) ∧
      ∃ s', s.step (.trap .timer false sampleKernel) = .next s' :=
    ⟨_, _, Run.of_exec rfl, ⟨by decide, rfl, rfl⟩, _, rfl⟩
  obtain ⟨s, es, hrun, hdue, s', hs⟩ := hsample
  exact ⟨s, es, s', hrun, hs, ((alarm_delivery_exact ⟨rfl, rfl, rfl⟩ hrun).1 _ _ _ hs).mpr hdue⟩

end UserState

end Xv6
