import ComputerOS.Lib.Bytes
import ComputerOS.Linux.FileCalls

/-!
The way back to user mode. A system call returns through `sysret` with the address in `rcx` and the
flags in `r11` of its frame; `execve`, `rt_sigreturn` and the delivery of a signal rewrite them
with values that come from a program's file, from user memory and from `rt_sigaction`.
-/
namespace ComputerOS.Linux.Signals

abbrev Word := BitVec 64

/-- `linux_frame_t` -/
structure Frame where
  r9 : Word := 0
  r8 : Word := 0
  r10 : Word := 0
  rdx : Word := 0
  rsi : Word := 0
  rdi : Word := 0
  rax : Word := 0
  rcx : Word := 0
  r11 : Word := 0
  rbx : Word := 0
  userRsp : Word := 0
deriving DecidableEq, Repr

/-- The registers that `linux_syscall_entry` pushes below the frame. -/
structure Saved where
  rbp : Word := 0
  r12 : Word := 0
  r13 : Word := 0
  r14 : Word := 0
  r15 : Word := 0
deriving DecidableEq, Repr

structure Task where
  isUser : Bool := true
  pending : BitVec 32 := 0
  blocked : BitVec 32 := 0
  handlers : ℕ → Word := fun _ => 0
  restorer : Word := 0

/-- The bytes of user memory that can be read. -/
abbrev Mem := Word → Option UInt8

structure Machine where
  frame : Frame
  saved : Saved
  task : Task
  mem : Mem

def userRangeOk (p : Word) (len : ℕ) : Bool := p.toNat < 2 ^ 47 && (len = 0 || p.toNat + len ≤ 2 ^ 47)

def copyFromUser (mem : Mem) (p : Word) (n : ℕ) : Option (Bytes n) :=
  if userRangeOk p n && (List.range n).all fun i => (mem (p + BitVec.ofNat 64 i)).isSome then
    some (Bytes.ofFn fun i => (mem (p + BitVec.ofNat 64 i)).getD 0)
  else none

def canStore (canWrite : Word → Bool) (p : Word) (n : ℕ) : Bool :=
  userRangeOk p n && (List.range n).all fun i => canWrite (p + BitVec.ofNat 64 i)

def copyToUser (canWrite : Word → Bool) (mem : Mem) (p : Word) {n : ℕ} (b : Bytes n) : Mem :=
  if userRangeOk p n then
    let m := ((List.range n).takeWhile fun i => canWrite (p + BitVec.ofNat 64 i)).length
    fun a => if (a - p).toNat < m then some (b.byte (a - p).toNat) else mem a
  else mem

/-- The 64-bit word at index `i` of a structure. -/
def word {n : ℕ} (b : Bytes n) (i : ℕ) : Word := BitVec.ofNat 64 (b.getLE (8 * i) 8)

def ofWords (n : ℕ) (l : List Word) : Bytes n :=
  Bytes.ofFn fun i => UInt8.ofNat ((l.getD (i / 8) 0).toNat / 256 ^ (i % 8))

/-- `lx_sigframe_t` -/
structure SigFrame where
  retAddr : Word
  r8 : Word
  r9 : Word
  r10 : Word
  r11 : Word
  r12 : Word
  r13 : Word
  r14 : Word
  r15 : Word
  rdi : Word
  rsi : Word
  rbp : Word
  rbx : Word
  rdx : Word
  rax : Word
  rcx : Word
  rip : Word
  rflags : Word
  rsp : Word
  blocked : Word
  signo : Word
deriving DecidableEq, Repr

namespace SigFrame

def bytes (f : SigFrame) : Bytes 168 :=
  ofWords 168 [f.retAddr, f.r8, f.r9, f.r10, f.r11, f.r12, f.r13, f.r14, f.r15, f.rdi, f.rsi, f.rbp,
    f.rbx, f.rdx, f.rax, f.rcx, f.rip, f.rflags, f.rsp, f.blocked, f.signo]

def ofBytes (b : Bytes 168) : SigFrame where
  retAddr := word b 0
  r8 := word b 1
  r9 := word b 2
  r10 := word b 3
  r11 := word b 4
  r12 := word b 5
  r13 := word b 6
  r14 := word b 7
  r15 := word b 8
  rdi := word b 9
  rsi := word b 10
  rbp := word b 11
  rbx := word b 12
  rdx := word b 13
  rax := word b 14
  rcx := word b 15
  rip := word b 16
  rflags := word b 17
  rsp := word b 18
  blocked := word b 19
  signo := word b 20

end SigFrame

def SIG_DFL_H : Word := 0

def SIG_IGN_H : Word := 1

def LX_SIGKILL : ℕ := 9

def LX_SIGSTOP : ℕ := 19

def bit32 (i : ℕ) : BitVec 32 := 1#32 <<< i

def sigDefaultIgnored (s : ℕ) : Bool := s ∈ [17, 18, 23, 28, 19, 20, 21, 22]

/-- The signals that can be delivered; two of them cannot be blocked. -/
def Task.ready (t : Task) : BitVec 32 :=
  (t.pending &&& ~~~t.blocked) ||| (t.pending &&& (bit32 LX_SIGKILL ||| bit32 LX_SIGSTOP))

/-- What `deliver_signals` does about the signals of a task. -/
inductive Action
  | nothing
  | ignore (sig : ℕ)
  | terminate (sig : ℕ)
  | enter (sig : ℕ) (h : Word)
deriving DecidableEq, Repr

def signalAction (t : Task) : Action :=
  if t.isUser = false then .nothing
  else
    match (List.range' 1 31).find? fun i => t.ready.getLsbD i with
    | none => .nothing
    | some sig =>
      let h := t.handlers sig
      if h = SIG_IGN_H ∨ (h = SIG_DFL_H ∧ sigDefaultIgnored sig = true) then .ignore sig
      else if h = SIG_DFL_H ∨ sig = LX_SIGKILL then .terminate sig
      else .enter sig h

/-- What becomes of a system call: it returns to user mode, or the task ends. -/
inductive Outcome
  | returned (m : Machine)
  | exited (code : ℕ)

/-- Where the signal frame goes: below the red zone, aligned as for a call. -/
def signalSp (userRsp : Word) : Word :=
  let sp := ((userRsp - 128) &&& ~~~15#64) - 168
  if (sp + 8) &&& 15#64 ≠ 0 then sp - 8 else sp

def signalFrame (m : Machine) (sig : ℕ) : SigFrame where
  retAddr := m.task.restorer
  r8 := m.frame.r8
  r9 := m.frame.r9
  r10 := m.frame.r10
  r11 := m.frame.r11
  r12 := m.saved.r12
  r13 := m.saved.r13
  r14 := m.saved.r14
  r15 := m.saved.r15
  rdi := m.frame.rdi
  rsi := m.frame.rsi
  rbp := m.saved.rbp
  rbx := m.frame.rbx
  rdx := m.frame.rdx
  rax := m.frame.rax
  rcx := m.frame.rcx
  rip := m.frame.rcx
  rflags := m.frame.r11
  rsp := m.frame.userRsp
  blocked := m.task.blocked.setWidth 64
  signo := BitVec.ofNat 64 sig

def deliverSignals (canWrite : Word → Bool) (m : Machine) : Outcome :=
  let taken := fun sig => { m.task with pending := m.task.pending &&& ~~~bit32 sig }
  match signalAction m.task with
  | .nothing => .returned m
  | .ignore sig => .returned { m with task := taken sig }
  | .terminate sig => .exited (128 + sig)
  | .enter sig h =>
      let sp := signalSp m.frame.userRsp
      if canStore canWrite sp 168 then
        .returned { m with
          frame := { m.frame with rcx := h, rdi := BitVec.ofNat 64 sig, userRsp := sp, r11 := m.frame.r11 ||| 0x200 }
          task := { taken sig with blocked := m.task.blocked ||| bit32 sig }
          mem := copyToUser canWrite m.mem sp (signalFrame m sig).bytes }
      else .exited (128 + sig)

/-- The low half of a register as an `int`. -/
def toInt (w : Word) : ℤ := (w.setWidth 32).toInt

def sysRtSigaction (canWrite : Word → Bool) (sig : ℤ) (act oact : Word) (m : Machine) : ℤ × Machine :=
  if sig ≤ 0 ∨ 32 ≤ sig then (EINVAL, m)
  else
    let old : Bytes 32 := ofWords 32 [m.task.handlers sig.toNat, 0, m.task.restorer, 0]
    let m' := if oact = 0 then m else { m with mem := copyToUser canWrite m.mem oact old }
    if oact ≠ 0 ∧ canStore canWrite oact 32 = false then (EFAULT, m')
    else if act = 0 then (0, m')
    else
      match copyFromUser m'.mem act 32 with
      | none => (EFAULT, m')
      | some na =>
        if sig = LX_SIGKILL ∨ sig = LX_SIGSTOP then (0, m')
        else
          let handlers := fun i => if i = sig.toNat then word na 0 else m'.task.handlers i
          let restorer := if word na 2 = 0 then m'.task.restorer else word na 2
          (0, { m' with task := { m'.task with handlers, restorer } })

def sysRtSigprocmask (canWrite : Word → Bool) (how : ℤ) (set oset : Word) (m : Machine) : ℤ × Machine :=
  let cur : Bytes 8 := ofWords 8 [m.task.blocked.setWidth 64]
  let m' := if oset = 0 then m else { m with mem := copyToUser canWrite m.mem oset cur }
  if oset ≠ 0 ∧ canStore canWrite oset 8 = false then (EFAULT, m')
  else if set = 0 then (0, m')
  else
    match copyFromUser m'.mem set 8 with
    | none => (EFAULT, m')
    | some v =>
      let mask := (word v 0).setWidth 32
      let blocked := if how = 0 then m'.task.blocked ||| mask else if how = 1 then m'.task.blocked &&& ~~~mask
        else if how = 2 then mask else m'.task.blocked
      let blocked := blocked &&& ~~~(bit32 LX_SIGKILL ||| bit32 LX_SIGSTOP)
      (0, { m' with task := { m'.task with blocked } })

/-- The frame that `rt_sigreturn` reads, if it can. -/
def sigFrameAt (m : Machine) : Option SigFrame := (copyFromUser m.mem (m.frame.userRsp - 8) 168).map SigFrame.ofBytes

def sysRtSigreturn (m : Machine) : ℤ × Machine :=
  match sigFrameAt m with
  | none => (EFAULT, m)
  | some sf =>
    (sf.rax.toInt,
      { m with
        frame := { m.frame with
          rcx := sf.rip, r11 := sf.rflags, userRsp := sf.rsp, rax := sf.rax, rbx := sf.rbx, rdx := sf.rdx, rsi := sf.rsi
          rdi := sf.rdi, r8 := sf.r8, r9 := sf.r9, r10 := sf.r10 }
        saved := { rbp := sf.rbp, r12 := sf.r12, r13 := sf.r13, r14 := sf.r14, r15 := sf.r15 }
        task := { m.task with blocked := sf.blocked.setWidth 32 } })

def LOADER_PIE_BASE : Word := 0x555555554000

def LOADER_INTERP_BASE : Word := 0x7f0000000000

/-- What `elf_map` takes from the headers of a file: whether it is `ET_DYN`, the lowest address of
its segments, its entry, and the segments it writes, as address and length. -/
structure Elf where
  dyn : Bool
  minVaddr : Word
  eEntry : Word
  segments : List (Word × ℕ)

def Elf.bias (base : Word) (e : Elf) : Word := if e.dyn then base - (e.minVaddr &&& ~~~0xFFF#64) else 0

/-- What `execve` finds: the program, its interpreter if it names one, the stack pointer that
`build_linux_stack` gives, and whether everything else succeeds. -/
structure Exec where
  main : Elf
  interp : Option Elf
  rsp : Word
  ok : Bool

namespace Exec

/-- `elf_load_program`: the address to start at. -/
def entry (x : Exec) : Word :=
  match x.interp with
  | none => x.main.eEntry + x.main.bias LOADER_PIE_BASE
  | some i => i.eEntry + i.bias LOADER_INTERP_BASE

/-- The segments that are written, with their bias. -/
def writes (x : Exec) : List (Word × ℕ) :=
  (x.main.segments.map fun s => (s.1 + x.main.bias LOADER_PIE_BASE, s.2)) ++
    match x.interp with
    | none => []
    | some i => i.segments.map fun s => (s.1 + i.bias LOADER_INTERP_BASE, s.2)

end Exec

/-- What the rest of the kernel does during a call: which user memory can be written, what the calls
that are not modelled here return, the signals that they raise and the user memory after them, what
`execve` finds, the calls on files that the call makes, each with the descriptors and write buffers
it finds, and what a write outside its object makes of the frame. -/
structure Kernel where
  canWrite : Word → Bool
  ret : ℤ
  raised : BitVec 32
  mem : Mem
  exec : Exec
  files : List (Files.Op × Files.Sys)
  smashed : Frame

/-- What a call writes through pointers it does not check: the buffer of `getrandom`, and the
segments of a program. -/
def rawWrites (k : Kernel) (f : Frame) : List (Word × ℕ) :=
  if f.rax = 318 then (if f.rdi = 0 then [] else [(f.rdi, f.rsi.toNat)])
  else if f.rax = 59 then k.exec.writes
  else []

/-- The parts of write buffers that a call touches; the calls for signals touch none. -/
def bufferUses (k : Kernel) (f : Frame) : List Files.Access :=
  if f.rax = 13 ∨ f.rax = 14 ∨ f.rax = 15 then [] else k.files.flatMap fun c => (c.1.run c.2).2

/-- No such write leaves the user's half, and no write buffer is left. -/
def Intact (k : Kernel) (f : Frame) : Prop :=
  (∀ w ∈ rawWrites k f, w.2 = 0 ∨ w.1.toNat + w.2 ≤ 2 ^ 47) ∧ ∀ a ∈ bufferUses k f, a.Ok

instance (k : Kernel) (f : Frame) : Decidable (Intact k f) :=
  inferInstanceAs (Decidable ((∀ w ∈ rawWrites k f, w.2 = 0 ∨ w.1.toNat + w.2 ≤ 2 ^ 47) ∧
  ∀ a ∈ bufferUses k f, a.Ok))

def Task.raise (t : Task) (sigs : BitVec 32) : Task := { t with pending := t.pending ||| sigs }

def sysExecve (k : Kernel) (m : Machine) : ℤ × Machine :=
  if k.exec.ok ∧ k.exec.entry ≠ 0 then
    (0, { m with
      frame := { rcx := k.exec.entry, r11 := 0x202, userRsp := k.exec.rsp }
      task := m.task.raise k.raised, mem := k.mem })
  else (k.ret, { m with task := m.task.raise k.raised, mem := k.mem })

/-- The switch of `linux_syscall_handler`: the return value and the state, unless the task exits. -/
def dispatch (k : Kernel) (m : Machine) : Option (ℤ × Machine) :=
  let f := m.frame
  let m := if Intact k f then m else { m with frame := k.smashed }
  if f.rax = 13 then some (sysRtSigaction k.canWrite (toInt f.rdi) f.rsi f.rdx m)
  else if f.rax = 14 then some (sysRtSigprocmask k.canWrite (toInt f.rdi) f.rsi f.rdx m)
  else if f.rax = 15 then some (sysRtSigreturn m)
  else if f.rax = 59 then some (sysExecve k m)
  else if f.rax = 60 ∨ f.rax = 231 then none
  else some (k.ret, { m with task := m.task.raise k.raised, mem := k.mem })

def linuxSyscallHandler (k : Kernel) (m : Machine) : Outcome :=
  match dispatch k m with
  | none => .exited (m.frame.rdi.toNat % 256)
  | some (ret, m) => deliverSignals k.canWrite { m with frame := { m.frame with rax := BitVec.ofInt 64 ret } }

/-- The frame returns to a canonical user address, without any privilege for input and output. -/
structure UserFrame (f : Frame) : Prop where
  rip : f.rcx.toNat < 2 ^ 47
  iopl : f.r11 &&& 0x3000 = 0

def Starts (k : Kernel) (m : Machine) : Prop := m.frame.rax = 59 ∧ k.exec.ok = true ∧ k.exec.entry ≠ 0

instance (k : Kernel) (m : Machine) : Decidable (Starts k m) :=
  inferInstanceAs (Decidable (m.frame.rax = 59 ∧ k.exec.ok = true ∧ k.exec.entry ≠ 0))

/-- A write reaches kernel memory that is not its own, and the frame is not replaced. -/
def Smashes (k : Kernel) (m : Machine) : Prop := ¬ Intact k m.frame ∧ ¬ Starts k m

/-- What `rt_sigaction` reads of the new action, if it sets one; the old one is stored before. -/
def newAction (k : Kernel) (m : Machine) : Option (Bytes 32) :=
  let sig := toInt m.frame.rdi
  let old : Bytes 32 := ofWords 32 [m.task.handlers sig.toNat, 0, m.task.restorer, 0]
  if sig ≤ 0 ∨ 32 ≤ sig ∨ sig = LX_SIGKILL ∨ sig = LX_SIGSTOP ∨ m.frame.rsi = 0 ∨
      m.frame.rdx ≠ 0 ∧ canStore k.canWrite m.frame.rdx 32 = false then none
  else copyFromUser (if m.frame.rdx = 0 then m.mem else copyToUser k.canWrite m.mem m.frame.rdx old) m.frame.rsi 32

/-- The mask that `rt_sigprocmask` reads, if it sets one. -/
def newMask (k : Kernel) (m : Machine) : Option (BitVec 32) :=
  let cur : Bytes 8 := ofWords 8 [m.task.blocked.setWidth 64]
  if m.frame.rsi = 0 ∨ m.frame.rdx ≠ 0 ∧ canStore k.canWrite m.frame.rdx 8 = false then none
  else (copyFromUser (if m.frame.rdx = 0 then m.mem else copyToUser k.canWrite m.mem m.frame.rdx cur) m.frame.rsi 8).map
    fun v => (word v 0).setWidth 32

/-- The signals, the mask and the handlers with which a call ends. -/
def taskAfter (k : Kernel) (m : Machine) : Task :=
  if m.frame.rax = 13 then
    match newAction k m with
    | none => m.task
    | some na => { m.task with
        handlers := fun i => if i = (toInt m.frame.rdi).toNat then word na 0 else m.task.handlers i
        restorer := if word na 2 = 0 then m.task.restorer else word na 2 }
  else if m.frame.rax = 14 then
    match newMask k m with
    | none => m.task
    | some mask =>
      let how := toInt m.frame.rdi
      let blocked := if how = 0 then m.task.blocked ||| mask else if how = 1 then m.task.blocked &&& ~~~mask
        else if how = 2 then mask else m.task.blocked
      { m.task with blocked := blocked &&& ~~~(bit32 LX_SIGKILL ||| bit32 LX_SIGSTOP) }
  else if m.frame.rax = 15 then
    match sigFrameAt m with
    | none => m.task
    | some sf => { m.task with blocked := sf.blocked.setWidth 32 }
  else m.task.raise k.raised

/-- The stack pointer with which a call ends, if the frame is not smashed. -/
def rspAfter (k : Kernel) (m : Machine) : Word :=
  if m.frame.rax = 15 then ((sigFrameAt m).map SigFrame.rsp).getD m.frame.userRsp
  else if Starts k m then k.exec.rsp
  else m.frame.userRsp

/-- The address that `rt_sigreturn` or `execve` gives is a user address, and nothing else is written
over the frame. -/
def RipOk (k : Kernel) (m : Machine) : Prop :=
  (m.frame.rax = 15 → ∀ sf, sigFrameAt m = some sf → sf.rip.toNat < 2 ^ 47) ∧
    (Starts k m → k.exec.entry.toNat < 2 ^ 47) ∧ ¬ Smashes k m

/-- The flags that `rt_sigreturn` gives have no privilege, and nothing is written over the frame. -/
def FlagsOk (k : Kernel) (m : Machine) : Prop :=
  (m.frame.rax = 15 → ∀ sf, sigFrameAt m = some sf → sf.rflags &&& 0x3000 = 0) ∧ ¬ Smashes k m

/-- What is restored is fit for user mode, and so is the handler of the signal that is delivered
after the call, if one is entered. -/
def ReturnsFit (k : Kernel) (m : Machine) : Prop :=
  m.frame.rax = 60 ∨ m.frame.rax = 231 ∨
    match signalAction (taskAfter k m) with
    | .nothing => RipOk k m ∧ FlagsOk k m
    | .ignore _ => RipOk k m ∧ FlagsOk k m
    | .terminate _ => True
    | .enter _ h =>
        (∃ rsp, (rsp = rspAfter k m ∨ Smashes k m) ∧ canStore k.canWrite (signalSp rsp) 168 = true)
          → h.toNat < 2 ^ 47 ∧ FlagsOk k m

variable {k : Kernel} {m m' : Machine} {ret : ℤ}

theorem iopl_or_if (x : Word) : (x ||| 0x200) &&& 0x3000 = x &&& (0x3000 : Word) := by
  have hzero : (0x200 : Word) &&& 0x3000 = 0 := by decide
  rw [BitVec.and_or_distrib_right, hzero]
  exact BitVec.or_zero

theorem frame_sysRtSigaction (w : Word → Bool) (sig : ℤ) (act oact : Word) (m : Machine) :
    (sysRtSigaction w sig act oact m).2.frame = m.frame := by
  unfold sysRtSigaction
  dsimp only
  repeat' split
  all_goals rfl

theorem frame_sysRtSigprocmask (w : Word → Bool) (how : ℤ) (set oset : Word) (m : Machine) :
    (sysRtSigprocmask w how set oset m).2.frame = m.frame := by
  unfold sysRtSigprocmask
  dsimp only
  repeat' split
  all_goals rfl

theorem task_sysRtSigaction (h13 : m.frame.rax = 13) :
    (sysRtSigaction k.canWrite (toInt m.frame.rdi) m.frame.rsi m.frame.rdx m).2.task = taskAfter k m := by
  unfold sysRtSigaction taskAfter newAction
  rw [if_pos h13]
  dsimp only
  generalize toInt m.frame.rdi = sig
  by_cases hsig : sig ≤ 0 ∨ 32 ≤ sig
  · rw [if_pos hsig, if_pos (hsig.elim Or.inl fun h => Or.inr (Or.inl h))]
  rw [if_neg hsig]
  by_cases hfault : m.frame.rdx ≠ 0 ∧ canStore k.canWrite m.frame.rdx 32 = false
  · rw [if_pos hfault, if_pos (Or.inr (Or.inr (Or.inr (Or.inr (Or.inr hfault)))))]
    split <;> rfl
  rw [if_neg hfault]
  by_cases hact : m.frame.rsi = 0
  · rw [if_pos hact, if_pos (Or.inr (Or.inr (Or.inr (Or.inr (Or.inl hact)))))]
    split <;> rfl
  rw [if_neg hact]
  -- the memory that is read: after the old action was stored
  have hmem : ∀ old : Bytes 32, (if m.frame.rdx = 0 then m
      else { m with mem := copyToUser k.canWrite m.mem m.frame.rdx old }) =
      { m with mem := if m.frame.rdx = 0 then m.mem else copyToUser k.canWrite m.mem m.frame.rdx old } := fun old => by
    split <;> rfl
  rw [hmem]
  dsimp only
  by_cases hkill : sig = LX_SIGKILL ∨ sig = LX_SIGSTOP
  · rw [if_pos (hkill.elim (fun h => Or.inr (Or.inr (Or.inl h))) fun h => Or.inr (Or.inr (Or.inr (Or.inl h))))]
    cases copyFromUser _ m.frame.rsi 32 with
    | none => rfl
    | some na =>
      dsimp only
      rw [if_pos hkill]
  · rw [if_neg (show ¬ (sig ≤ 0 ∨ 32 ≤ sig ∨ sig = LX_SIGKILL ∨ sig = LX_SIGSTOP ∨ m.frame.rsi = 0 ∨
      m.frame.rdx ≠ 0 ∧ canStore k.canWrite m.frame.rdx 32 = false) by tauto)]
    cases copyFromUser _ m.frame.rsi 32 with
    | none => rfl
    | some na =>
      dsimp only
      rw [if_neg hkill]

theorem task_sysRtSigprocmask (h14 : m.frame.rax = 14) :
    (sysRtSigprocmask k.canWrite (toInt m.frame.rdi) m.frame.rsi m.frame.rdx m).2.task = taskAfter k m := by
  unfold sysRtSigprocmask taskAfter newMask
  rw [if_neg (show ¬ m.frame.rax = 13 by rw [h14]; decide), if_pos h14]
  dsimp only
  by_cases hfault : m.frame.rdx ≠ 0 ∧ canStore k.canWrite m.frame.rdx 8 = false
  · rw [if_pos hfault, if_pos (Or.inr hfault)]
    split <;> rfl
  rw [if_neg hfault]
  by_cases hset : m.frame.rsi = 0
  · rw [if_pos hset, if_pos (Or.inl hset)]
    split <;> rfl
  rw [if_neg hset, if_neg (not_or.mpr ⟨hset, hfault⟩)]
  have hmem : ∀ cur : Bytes 8, (if m.frame.rdx = 0 then m
      else { m with mem := copyToUser k.canWrite m.mem m.frame.rdx cur }) =
      { m with mem := if m.frame.rdx = 0 then m.mem else copyToUser k.canWrite m.mem m.frame.rdx cur } := fun cur => by
    split <;> rfl
  rw [hmem]
  dsimp only
  cases copyFromUser _ m.frame.rsi 8 with
  | none => rfl
  | some v => rfl

/-- Only `getrandom`, `execve` and the calls on files write to kernel memory that user code chooses.
-/
theorem intact_of_signal (h : m.frame.rax = 13 ∨ m.frame.rax = 14 ∨ m.frame.rax = 15) : Intact k m.frame := by
  have h318 : m.frame.rax ≠ 318 := by rcases h with h | h | h <;> rw [h] <;> decide
  have h59 : m.frame.rax ≠ 59 := by rcases h with h | h | h <;> rw [h] <;> decide
  unfold Intact rawWrites bufferUses
  rw [if_neg h318, if_neg h59, if_pos h]
  exact ⟨fun w hw => (by cases hw), fun a ha => by cases ha⟩

/-- The frame after a call's own work, before signals. -/
def frameAfter (k : Kernel) (m : Machine) : Frame :=
  if m.frame.rax = 15 then (sysRtSigreturn m).2.frame
  else if Starts k m then { rcx := k.exec.entry, r11 := 0x202, userRsp := k.exec.rsp }
  else if Intact k m.frame then m.frame
  else k.smashed

/-- A call that does not exit ends with the task and the frame that are said here. -/
theorem dispatch_some (h60 : m.frame.rax ≠ 60) (h231 : m.frame.rax ≠ 231) :
    ∃ ret m', dispatch k m = some (ret, m') ∧ m'.task = taskAfter k m ∧ m'.frame = frameAfter k m := by
  have hframe : (if Intact k m.frame then m else { m with frame := k.smashed }).frame =
      if Intact k m.frame then m.frame else k.smashed := by split <;> rfl
  have htask : (if Intact k m.frame then m else { m with frame := k.smashed }).task = m.task := by split <;> rfl
  have hno : m.frame.rax ≠ 59 → ¬ Starts k m := fun h59 h => h59 h.1
  unfold dispatch frameAfter
  dsimp only
  by_cases h13 : m.frame.rax = 13
  · rw [if_pos h13, if_pos (intact_of_signal (Or.inl h13)), if_pos (intact_of_signal (Or.inl h13)),
      if_neg (show ¬ m.frame.rax = 15 by rw [h13]; decide), if_neg (hno (by rw [h13]; decide))]
    exact ⟨_, _, rfl, task_sysRtSigaction h13, frame_sysRtSigaction _ _ _ _ _⟩
  rw [if_neg h13]
  by_cases h14 : m.frame.rax = 14
  · rw [if_pos h14, if_pos (intact_of_signal (Or.inr (Or.inl h14))), if_pos (intact_of_signal (Or.inr (Or.inl h14))),
      if_neg (show ¬ m.frame.rax = 15 by rw [h14]; decide), if_neg (hno (by rw [h14]; decide))]
    exact ⟨_, _, rfl, task_sysRtSigprocmask h14, frame_sysRtSigprocmask _ _ _ _ _⟩
  rw [if_neg h14]
  by_cases h15 : m.frame.rax = 15
  · rw [if_pos h15, if_pos (intact_of_signal (Or.inr (Or.inr h15))), if_pos h15]
    refine ⟨_, _, rfl, ?_, rfl⟩
    unfold taskAfter
    rw [if_neg h13, if_neg h14, if_pos h15]
    cases sigFrameAt m <;> rfl
  rw [if_neg h15, if_neg h15]
  have hlast : taskAfter k m = m.task.raise k.raised := by
    unfold taskAfter
    rw [if_neg h13, if_neg h14, if_neg h15]
  rw [hlast]
  by_cases h59 : m.frame.rax = 59
  · rw [if_pos h59]
    unfold sysExecve
    by_cases hok : k.exec.ok ∧ k.exec.entry ≠ 0
    · rw [if_pos hok, if_pos (show Starts k m from ⟨h59, hok⟩)]
      exact ⟨_, _, rfl, congrArg (·.raise k.raised) htask, rfl⟩
    · rw [if_neg hok, if_neg fun h : Starts k m => hok h.2]
      exact ⟨_, _, rfl, congrArg (·.raise k.raised) htask, hframe⟩
  · rw [if_neg h59, if_neg (not_or.mpr ⟨h60, h231⟩), if_neg (hno h59)]
    exact ⟨_, _, rfl, congrArg (·.raise k.raised) htask, hframe⟩

/-- The frame that is not smashed: only `rt_sigreturn` and `execve` change it. -/
theorem fit_frameAfter (hentry : UserFrame m.frame) (hsmash : ¬ Smashes k m) :
    ((frameAfter k m).rcx.toNat < 2 ^ 47 ↔ RipOk k m) ∧ ((frameAfter k m).r11 &&& 0x3000 = 0 ↔ FlagsOk k m) ∧
      (frameAfter k m).userRsp = rspAfter k m := by
  unfold frameAfter RipOk FlagsOk rspAfter
  rw [and_iff_left hsmash, and_iff_left hsmash]
  by_cases h15 : m.frame.rax = 15
  · have hstarts : ¬ Starts k m := fun h => by
      have h59 := h.1
      rw [h15] at h59
      revert h59
      decide
    rw [if_pos h15, if_pos h15, and_iff_left (show Starts k m → _ from fun h => absurd h hstarts)]
    unfold sysRtSigreturn
    cases hsf : sigFrameAt m with
    | none =>
      exact ⟨iff_of_true hentry.rip fun _ sf h => (by cases h), iff_of_true hentry.iopl fun _ sf h => (by cases h), rfl⟩
    | some sf =>
      exact ⟨⟨fun h _ sf' hsf' => Option.some.inj hsf' ▸ h, fun h => h h15 sf rfl⟩,
        ⟨fun h _ sf' hsf' => Option.some.inj hsf' ▸ h, fun h => h h15 sf rfl⟩, rfl⟩
  rw [if_neg h15, if_neg h15, and_iff_right fun h => absurd h h15, forall_prop_of_false h15, iff_true]
  by_cases hstarts : Starts k m
  · rw [if_pos hstarts, if_pos hstarts]
    exact ⟨⟨fun h _ => h, fun h => h hstarts⟩, (by decide : (0x202 : Word) &&& 0x3000 = 0), rfl⟩
  · have hintact : Intact k m.frame := by
      by_contra hi
      exact hsmash ⟨hi, hstarts⟩
    rw [if_neg hstarts, if_neg hstarts, if_pos hintact]
    exact ⟨iff_of_true hentry.rip fun h => absurd h hstarts, hentry.iopl, rfl⟩

theorem frameAfter_smashed (hsmash : Smashes k m) : frameAfter k m = k.smashed := by
  have h15 : m.frame.rax ≠ 15 := fun h => hsmash.1 (intact_of_signal (Or.inr (Or.inr h)))
  unfold frameAfter
  rw [if_neg h15, if_neg hsmash.2, if_neg hsmash.1]

/-- What the handler leaves for the user, from the task and the frame before signals. -/
def Fit (w : Word → Bool) (t : Task) (f : Frame) : Prop :=
  match signalAction t with
  | .nothing => UserFrame f
  | .ignore _ => UserFrame f
  | .terminate _ => True
  | .enter _ h => canStore w (signalSp f.userRsp) 168 = true → h.toNat < 2 ^ 47 ∧ f.r11 &&& 0x3000 = 0

theorem deliverSignals_fit (w : Word → Bool) (m : Machine) (rax : Word) :
    (∀ m', deliverSignals w { m with frame := { m.frame with rax } } = .returned m' →
      UserFrame m'.frame) ↔ Fit w m.task m.frame := by
  have hone : ∀ (out : Machine), (∀ m', Outcome.returned out = .returned m' → UserFrame m'.frame) ↔
    UserFrame out.frame :=
    fun out => ⟨fun h => h out rfl, fun h m' hm' => by cases hm'; exact h⟩
  unfold deliverSignals Fit
  dsimp only
  cases signalAction m.task with
  | nothing => exact (hone _).trans ⟨fun h => ⟨h.rip, h.iopl⟩, fun h => ⟨h.rip, h.iopl⟩⟩
  | ignore sig => exact (hone _).trans ⟨fun h => ⟨h.rip, h.iopl⟩, fun h => ⟨h.rip, h.iopl⟩⟩
  | terminate sig => exact iff_of_true (fun _ h => by cases h) trivial
  | enter sig h =>
    dsimp only
    split
    · rename_i hstore
      rw [hone]
      constructor
      · exact fun hf _ => ⟨hf.rip, (iopl_or_if m.frame.r11).symm.trans hf.iopl⟩
      · exact fun hf => ⟨(hf hstore).1, (iopl_or_if m.frame.r11).trans (hf hstore).2⟩
    · rename_i hstore
      exact iff_of_true (fun _ h => by cases h) fun h => absurd h hstore

/-- A kernel where nothing else happens. -/
def quiet : Kernel where
  canWrite := fun _ => true
  ret := 0
  raised := 0
  mem := fun _ => none
  exec := ⟨⟨false, 0, 0, []⟩, none, 0, false⟩
  files := []
  smashed := {}

/-- A task that calls `rt_sigreturn` where every byte of memory is `b`. -/
def forged (b : UInt8) : Machine where
  frame := { rax := 15, userRsp := 0x1008 }
  saved := {}
  task := {}
  mem := fun _ => some b

/-- The address that a call returns to. -/
def Outcome.rip : Outcome → Option Word
  | .returned m => some m.frame.rcx
  | .exited _ => none

end ComputerOS.Linux.Signals
