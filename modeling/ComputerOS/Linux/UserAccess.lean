import ComputerOS.Lib.Accessing
import ComputerOS.Linux.Signals

/-!
How the system calls use user memory: the copy helpers of `uaccess.c` byte by byte, and each handler
with its copies, its strings and its direct accesses in their order. What a handler learns from the
rest of the kernel (descriptors, files, sockets, the heap, other tasks) may be anything here.
Addresses in program files, which the loader uses, are not passed to a system call.
-/
namespace ComputerOS.Linux.UserAccess

open Accessing Signals

abbrev M := Accessing Word

def EIO : ℤ := -5

def EBADF : ℤ := -9

def ECHILD : ℤ := -10

def EAGAIN : ℤ := -11

def ENOMEM : ℤ := -12

def EFAULT : ℤ := -14

def ENOTDIR : ℤ := -20

def EISDIR : ℤ := -21

def EINVAL : ℤ := -22

def EMFILE : ℤ := -24

def ENOENT : ℤ := -2

def ESPIPE : ℤ := -29

def EPIPE : ℤ := -32

def ENOTTY : ℤ := -25

def ENOTCONN : ℤ := -107

def E2BIG : ℤ := -7

/-- A number that the rest of the kernel gives. -/
def answer : M ℕ := .ask .ret

/-- A condition on the kernel's own state. -/
def choose : M Bool := .ask fun n => .ret (n == 1)

def load (p : Word) : M (Option UInt8) := .load p .ret

def store (p : Word) : M Bool := .store p .ret

def orReturn {β : Type} (x : M (Option β)) (err : ℤ) (k : β → M ℤ) : M ℤ := do
  let r ← x
  r.elim (pure err) k

/-- Return `err` when the kernel is not in a state to go on. -/
def require (err : ℤ) (k : M ℤ) : M ℤ := do
  if ← choose then k else pure err

/-- A count or an error, as the rest of the kernel has it. -/
def result : M ℤ := do
  let n ← answer
  pure (n - 4096)

def int32 (w : Word) : ℤ := (w.setWidth 32).toInt

/-- `(unsigned int)w` -/
def uint32 (w : Word) : ℕ := (w.setWidth 32).toNat

def ofNat (n : ℕ) : Word := BitVec.ofNat 64 n

def kernelAddress : M Word := do
  let n ← answer
  pure (ofNat (2 ^ 64 - 2 ^ 47 + n % 2 ^ 47))

/-- The loop of `copy_from_user`; a fault ends it. -/
def loads (p : Word) : ℕ → M (Option (List UInt8))
  | 0 => pure (some [])
  | n + 1 => do
    match ← load p with
    | none => pure none
    | some b => do
      let rest ← loads (p + 1) n
      pure (rest.map (b :: ·))

def copyFromUser (p : Word) (n : ℕ) : M (Option (List UInt8)) :=
  if userRangeOk p n then loads p n else pure none

/-- The loop of `copy_to_user`. -/
def stores (p : Word) : ℕ → M Bool
  | 0 => pure true
  | n + 1 => do
    if ← store p then stores (p + 1) n else pure false

def copyToUser (p : Word) (n : ℕ) : M Bool :=
  if userRangeOk p n then stores p n else pure false

/-- `copy_to_user` of `n` bytes, with an error when it fails. -/
def copyOut (p : Word) (n : ℕ) (k : M ℤ) : M ℤ := do
  if ← copyToUser p n then k else pure EFAULT

/-- The 64-bit word at an offset. -/
def wordAt (bytes : List UInt8) (off : ℕ) : Word :=
  ofNat (((bytes.drop off).take 8).foldr (fun b acc => b.toNat + 256 * acc) 0)

/-- What is passed where a path is expected: a user pointer, or a string of the kernel. -/
inductive Src where
  | user (p : Word)
  | kernel (s : List UInt8)

/-- The loop of `copy_str_from_user` over addresses below 2 ^ 47. -/
def copyChars (p : Word) : ℕ → M (Option (List UInt8))
  | 0 => pure (some [])
  | n + 1 => do
    match ← copyFromUser p 1 with
    | none => pure none
    | some bytes =>
      let c := bytes.headD 0
      if c = 0 then pure (some [])
      else do
        let rest ← copyChars (p + 1) n
        pure (rest.map (c :: ·))

/-- The loop over other addresses: a fault is not recovered from. -/
def loadChars (p : Word) : ℕ → M (List UInt8)
  | 0 => pure []
  | n + 1 => do
    match ← load p with
    | none => .halt
    | some c => do
      if c = 0 then pure []
      else do
        let rest ← loadChars (p + 1) n
        pure (c :: rest)

def copyStrFromUser (src : Src) (max : ℕ) : M (Option (List UInt8)) :=
  match src with
  | .kernel s => pure (some (s.take (max - 1)))
  | .user p =>
    if 2 ^ 47 ≤ p.toNat then do
      let s ← loadChars p max
      pure (some (s.take (max - 1)))
    else do
      let s ← copyChars p max
      pure (s.map (List.take (max - 1)))

def resolveUserPath (src : Src) : M (Option Unit) := do
  let s ← copyStrFromUser src 512
  let ok ← choose
  pure (s.bind fun _ => if ok then some () else none)

def atJoinPath (upath : Word) (k : Src → M ℤ) : M ℤ :=
  orReturn (copyStrFromUser (.user upath) 256) EFAULT fun rel => do
    if ← choose then k (.kernel rel)
    else require EBADF <| require ENOTDIR <| k (.kernel rel)

/-- Bytes copied out one at a time, `n` of them at most. -/
def copyOutBytes (buf : Word) (n : ℕ) : M ℤ := do
  let avail ← answer
  let r ← rounds (fun i => do
    if ← copyToUser (buf + ofNat i) 1 then pure none else pure (some (if 0 < i then (i : ℤ) else EFAULT))) (min avail n) 0
  pure (r.getD (min avail n))

/-- `tty_read`: injected bytes and those of raw mode go one at a time, a line at once. -/
def ttyRead (ubuf count : Word) : M ℤ := do
  if count = 0 then pure 0
  else if !userRangeOk ubuf (uint32 count) then pure EFAULT
  else if ← choose then copyOutBytes ubuf count.toNat
  else require (-4) <| do
    let n ← answer
    copyOut ubuf (uint32 (ofNat (min n count.toNat))) (pure n)

def sysLinuxRead (buf count : Word) : M ℤ :=
  require EBADF <| do
    if count = 0 then pure 0
    else if ← choose then ttyRead buf count
    else require EISDIR <| require ENOMEM <| require EIO <| do
      let avail ← answer
      copyOut buf (min avail (uint32 count)) (pure (min avail (uint32 count)))

/-- The chunks of a write to the console. A chunk of no bytes, with 2 ^ 32 left, is tried for ever.
-/
def ttyWrite (buf count : Word) : ℕ → ℕ → M ℤ
  | 0, _ => .halt
  | fuel + 1, total => do
    if count.toNat ≤ total then pure total
    else do
      let n := min (uint32 (count - ofNat total)) 128
      match ← copyFromUser (buf + ofNat total) n with
      | none => pure (if 0 < total then (total : ℤ) else EFAULT)
      | some _ => ttyWrite buf count fuel (total + n)

def sysLinuxWrite (buf count : Word) : M ℤ :=
  require EBADF <| do
    if count = 0 then pure 0
    else if ← choose then do
      let fuel ← answer
      ttyWrite buf count fuel 0
    else require ENOMEM <| require EIO <|
      orReturn (copyFromUser buf (uint32 count)) EFAULT fun _ => pure count.toNat

def pipeRead (buf count : Word) : M ℤ :=
  require EBADF <| do
    if count = 0 then pure 0 else require 0 (copyOutBytes buf count.toNat)

def pipeWrite (buf count : Word) : M ℤ :=
  require EBADF <| do
    let n ← answer
    let r ← rounds (fun i => do
      if ← choose then pure (some (if 0 < i then (i : ℤ) else EPIPE))
      else do
        match ← copyFromUser (buf + ofNat i) 1 with
        | none => pure (some (if 0 < i then (i : ℤ) else EFAULT))
        | some _ => pure none) (min n count.toNat) 0
    pure (r.getD count.toNat)

def sysLinuxConnect (uaddr : Word) : M ℤ :=
  require EBADF <| orReturn (copyFromUser uaddr 16) EFAULT fun _ => result

def sysLinuxSendto (ubuf len uaddr : Word) : M ℤ :=
  require EBADF <| do
    if ← choose then do
      -- a datagram: the address and the query are copied, whether or not that works
      if uaddr ≠ 0 then discard (copyFromUser uaddr 16)
      if ← choose then
        require ENOMEM <| do
          discard (copyFromUser ubuf (uint32 len))
          pure len.toNat
      else pure len.toNat
    else do
      let r ← if uaddr ≠ 0 then do
          if ← choose then sysLinuxConnect uaddr else pure 0
        else pure 0
      if r < 0 then pure r
      else require (-111) <| require ENOTCONN <| require ENOMEM <|
        orReturn (copyFromUser ubuf (uint32 len)) EFAULT fun _ => require EIO (pure len.toNat)

def sysLinuxRecvfrom (ubuf len uaddr uaddrlen : Word) : M ℤ :=
  require EBADF <| do
    if ← choose then
      require EAGAIN <| do
        let avail ← answer
        copyOut ubuf (min avail (uint32 len)) <| do
          if uaddr ≠ 0 ∧ uaddrlen ≠ 0 then
            discard (copyToUser uaddr 16)
            discard (copyToUser uaddrlen 4)
          pure (min avail (uint32 len))
    else require ENOTCONN <| require ENOMEM <| require 0 <| require EAGAIN <| do
      let r ← answer
      copyOut ubuf (min r (uint32 len)) (pure (min r (uint32 len)))

def fdReadAny (buf count : Word) : M ℤ := do
  if ← choose then pipeRead buf count
  else if ← choose then sysLinuxRecvfrom buf count 0 0
  else sysLinuxRead buf count

def fdWriteAny (buf count : Word) : M ℤ := do
  if ← choose then pipeWrite buf count
  else if ← choose then sysLinuxSendto buf count 0
  else sysLinuxWrite buf count

/-- The loop of `sys_linux_readv` and `sys_linux_writev` over `n` entries from entry `i` on, with
`io` for one entry and `total` bytes so far. -/
def vecLoop (io : Word → Word → M ℤ) (uiov : Word) : ℕ → ℕ → ℤ → M ℤ
  | 0, _, total => pure total
  | n + 1, i, total =>
    orReturn (copyFromUser (uiov + ofNat (16 * i)) 16) EFAULT fun iov =>
      if wordAt iov 8 = 0 then vecLoop io uiov n (i + 1) total
      else do
        let r ← io (wordAt iov 0) (wordAt iov 8)
        if r < 0 then pure (if 0 < total then total else r)
        else if r < (wordAt iov 8).toNat then pure (total + r)
        else vecLoop io uiov n (i + 1) (total + r)

def sysLinuxReadv (uiov : Word) (iovcnt : ℤ) : M ℤ := require EBADF (vecLoop fdReadAny uiov iovcnt.toNat 0 0)

def sysLinuxWritev (uiov : Word) (iovcnt : ℤ) : M ℤ := require EBADF (vecLoop fdWriteAny uiov iovcnt.toNat 0 0)

def sysLinuxPread (buf count : Word) (isWrite : Bool) : M ℤ :=
  require EBADF <| require ESPIPE <| require EINVAL <|
    if isWrite then sysLinuxWrite buf count else sysLinuxRead buf count

def sysLinuxOpen (src : Src) : M ℤ := do
  let raw ← copyStrFromUser src 64
  let hosts ← choose
  let path := if raw.isSome && hosts then Src.kernel "/tmp/.vhosts".toUTF8.toList else src
  orReturn (resolveUserPath path) ENOENT fun _ => require EMFILE <| require ENOENT <| require EIO result

def fillStat (ustat : Word) : M ℤ := require ENOENT (copyOut ustat 144 (pure 0))

def sysLinuxStat (src : Src) (ustat : Word) : M ℤ := orReturn (resolveUserPath src) ENOENT fun _ => fillStat ustat

def sysLinuxFstat (ustat : Word) : M ℤ :=
  require EBADF <| do
    if ← choose then copyOut ustat 144 (pure 0) else fillStat ustat

/-- `sys_linux_access`, `sys_linux_chdir`, `sys_linux_unlink`, `sys_linux_rmdir`,
`sys_linux_truncate`, `sys_linux_chroot`: a path, and then the file system. -/
def onPath (src : Src) (err : ℤ) : M ℤ := orReturn (resolveUserPath src) err fun _ => result

def sysLinuxAccess (src : Src) : M ℤ := onPath src ENOENT

def sysLinuxChdir (src : Src) : M ℤ := onPath src ENOENT

def sysLinuxMkdir (src : Src) : M ℤ := onPath src EFAULT

def sysLinuxUnlink (src : Src) : M ℤ := onPath src ENOENT

def sysLinuxRmdir (src : Src) : M ℤ := onPath src ENOENT

def sysLinuxTruncate (src : Src) : M ℤ := onPath src ENOENT

def sysLinuxChroot (src : Src) : M ℤ := onPath src ENOENT

/-- `exec_copy_vec`: entries `i`, `i + 1`, … of an array of strings, `n` of them before it is too
long. -/
def execCopyVec (uvec : Word) : ℕ → ℕ → M ℤ
  | n, i => do
    match ← copyFromUser (uvec + ofNat (8 * i)) 8 with
    | none => pure EFAULT
    | some bytes =>
      let up := wordAt bytes 0
      if up = 0 then pure 0
      else match n with
        | 0 => pure E2BIG
        | n + 1 =>
          orReturn (copyStrFromUser (.user up) 4096) EFAULT fun _ => require E2BIG (execCopyVec uvec n (i + 1))

/-- An array that may be left out. -/
def execVec (uvec : Word) : M ℤ := if uvec = 0 then pure 0 else execCopyVec uvec 256 0

def sysLinuxExecve (upath uargv uenvp : Word) : M ℤ :=
  require ENOMEM <| orReturn (copyStrFromUser (.user upath) 256) EFAULT fun _ => do
    let r ← execVec uargv
    if r ≠ 0 then pure r
    else do
      let r ← execVec uenvp
      if r ≠ 0 then pure r else result

def sysLinuxReadlink (upath ubuf bufsz : Word) : M ℤ :=
  orReturn (copyStrFromUser (.user upath) 512) EFAULT fun _ => require EINVAL <| do
    let tl ← answer
    copyOut ubuf (min tl bufsz.toNat % 2 ^ 32) (pure (min tl bufsz.toNat))

def sysLinuxRename (uold unew : Src) : M ℤ :=
  orReturn (resolveUserPath uold) ENOENT fun _ => orReturn (resolveUserPath unew) EFAULT fun _ =>
  result

def sysLinuxRenameat (uold unew : Word) : M ℤ :=
  atJoinPath uold fun fullold => atJoinPath unew fun fullnew => sysLinuxRename fullold fullnew

def sysLinuxUnlinkat (upath : Word) (removeDir : Bool) : M ℤ :=
  atJoinPath upath fun full => if removeDir then sysLinuxRmdir full else sysLinuxUnlink full

def sysLinuxMkdirat (upath : Word) : M ℤ := atJoinPath upath sysLinuxMkdir

def sysLinuxFaccessat (upath : Word) : M ℤ := atJoinPath upath sysLinuxAccess

def sysLinuxSymlink (utarget ulinkpath : Word) : M ℤ :=
  orReturn (copyStrFromUser (.user utarget) 280) EFAULT fun _ =>
    orReturn (copyStrFromUser (.user ulinkpath) 512) EFAULT fun _ => result

def sysLinuxSymlinkat (utarget ulinkpath : Word) : M ℤ :=
  orReturn (copyStrFromUser (.user utarget) 280) EFAULT fun _ => atJoinPath ulinkpath fun _ =>
  result

def sysLinuxLink (uold unew : Word) : M ℤ :=
  orReturn (resolveUserPath (.user uold)) ENOENT fun _ =>
    orReturn (copyStrFromUser (.user unew) 512) EFAULT fun _ => result

def sysLinuxReadlinkat (upath ubuf bufsz : Word) : M ℤ :=
  orReturn (copyStrFromUser (.user upath) 512) EFAULT fun tmp => do
    if tmp = "/proc/self/exe".toUTF8.toList then copyOut ubuf (min 11 (uint32 bufsz)) (pure (min 11 (uint32 bufsz)))
    else atJoinPath upath fun _ => require EINVAL <| do
      let tl ← answer
      copyOut ubuf (min tl bufsz.toNat % 2 ^ 32) (pure (min tl bufsz.toNat))

def sysLinuxOpenat (upath : Word) : M ℤ := atJoinPath upath sysLinuxOpen

def sysLinuxStatx (upath ubuf : Word) (emptyPath : Bool) : M ℤ :=
  orReturn (copyStrFromUser (.user upath) 256) EFAULT fun rel =>
    if emptyPath && rel.isEmpty then require EBADF <| require ENOENT <| copyOut ubuf 256 (pure 0)
    else atJoinPath upath fun _ => require ENOENT <| copyOut ubuf 256 (pure 0)

def sysLinuxNewfstatat (upath ustat : Word) : M ℤ :=
  atJoinPath upath fun full => orReturn (resolveUserPath full) ENOENT fun _ => fillStat ustat

/-- The loop of `sys_linux_getdents64` over `n` entries, with `written` bytes so far. -/
def getdents (ubuf : Word) (count : ℕ) : ℕ → ℕ → M ℤ
  | 0, written => pure written
  | n + 1, written => do
    let nlen ← answer
    let reclen := (19 + nlen + 1 + 7) / 8 * 8 % 2 ^ 16
    if count < written + reclen then pure written
    else copyOut (ubuf + ofNat written) 19 <| copyOut (ubuf + ofNat (written + 19)) (nlen + 1) <|
      getdents ubuf count n (written + reclen)

def sysLinuxGetdents64 (ubuf count : Word) : M ℤ :=
  require EBADF <| require ENOTDIR <| require ENOMEM <| require EIO <| do
    let n ← answer
    getdents ubuf (uint32 count) n 0

def copyStruct (p : Word) (n : ℕ) : M ℤ := copyOut p n (pure 0)

/-- The same, if there is somewhere to put it. -/
def copyStructOpt (p : Word) (n : ℕ) : M ℤ := if p = 0 then pure 0 else copyStruct p n

def sysLinuxWait4 (ustatus : Word) : M ℤ :=
  require ECHILD <| require 0 <| if ustatus = 0 then result else copyOut ustatus 4 result

def sysLinuxUname (ubuf : Word) : M ℤ := copyStruct ubuf 390

def sysLinuxClockGettime (utp : Word) : M ℤ := copyStruct utp 16

def sysLinuxGettimeofday (utv : Word) : M ℤ := copyStructOpt utv 16

def sysLinuxClockGetres (utp : Word) : M ℤ := copyStructOpt utp 16

def sysLinuxStatfs (ubuf : Word) : M ℤ := copyStruct ubuf 128

def sysLinuxGetrlimit (ubuf : Word) : M ℤ := copyStruct ubuf 16

def sysLinuxPrlimit (uold : Word) : M ℤ := if uold = 0 then pure 0 else sysLinuxGetrlimit uold

def sysLinuxSysinfo (ubuf : Word) : M ℤ := copyStruct ubuf 128

def sysLinuxNanosleep (rem : Word) : M ℤ := do
  if rem ≠ 0 then discard (copyToUser rem 16)
  pure 0

def sysLinuxPipe (upipefd : Word) : M ℤ := require ENOMEM <| require EMFILE <| copyStruct upipefd 8

def sysLinuxGetgroups (sz : ℤ) (ulist : Word) : M ℤ := do
  if 1 ≤ sz then discard (copyToUser ulist 4)
  pure 1

def sysLinuxPrctl (op : ℤ) (a2 : Word) : M ℤ := do
  if op = 16 then discard (copyToUser a2 4)
  pure 0

/-- `sys_linux_sendfile`, which reads and writes through a buffer of the kernel. -/
def sysLinuxSendfile (uoffset count : Word) : M ℤ :=
  require EBADF <| do
    let off ← if uoffset = 0 then pure (some []) else copyFromUser uoffset 8
    off.elim (pure EFAULT) fun _ => require ENOMEM <| do
      let buf ← kernelAddress
      let nr ← sysLinuxRead buf count
      if uoffset ≠ 0 then discard (copyToUser uoffset 8)
      if 0 < nr then sysLinuxWrite buf (ofNat nr.toNat) else pure nr

def sysLinuxSplice (len : Word) : M ℤ := do
  if len = 0 then pure 0
  else require ENOMEM <| do
    let n := ofNat (min len.toNat 65536)
    let buf ← kernelAddress
    let nr ← if ← choose then pipeRead buf n else sysLinuxRead buf n
    if nr ≤ 0 then pure nr
    else if ← choose then pipeWrite buf (ofNat nr.toNat) else sysLinuxWrite buf (ofNat nr.toNat)

def sysLinuxSchedGetaffinity (len umask : Word) : M ℤ :=
  if umask = 0 ∨ uint32 len = 0 then pure EINVAL else copyOut umask (min (uint32 len) 128) (pure (min (uint32 len) 128))

def sysLinuxGetsockname (uaddr ulen : Word) : M ℤ :=
  require EBADF <| do
    discard (copyToUser uaddr 16)
    discard (copyToUser ulen 4)
    pure 0

def sysLinuxGetsockopt (opt : ℤ) (uval ulen : Word) : M ℤ := do
  if opt = 4 ∧ uval ≠ 0 then
    discard (copyToUser uval 4)
    if ulen ≠ 0 then discard (copyToUser ulen 4)
  pure 0

def sysLinuxArchPrctl (code : ℤ) (addr : Word) : M ℤ :=
  if code = 0x1003 then copyStruct addr 8
  else if code = 0x1002 ∨ code = 0x1001 then pure 0 else pure EINVAL

def sysLinuxGetcwd (ubuf size : Word) : M ℤ :=
  require EIO <| do
    let len ← answer
    if uint32 size < len then pure EINVAL else copyOut ubuf len (pure ubuf.toInt)

def sysLinuxIoctl (req arg : Word) : M ℤ :=
  require EBADF <| do
    let isTty ← choose
    match req.toNat with
    | 0x5401 => if isTty then copyStruct arg 36 else pure ENOTTY
    | 0x5402 | 0x5403 | 0x5404 =>
      if isTty then orReturn (copyFromUser arg 36) EFAULT fun _ => pure 0 else pure ENOTTY
    | 0x5413 => if isTty then copyStruct arg 8 else pure ENOTTY
    | 0x540F => if isTty then copyStruct arg 4 else pure ENOTTY
    | 0x541B => copyStruct arg 4
    | 0x5421 | 0x5451 | 0x5450 => pure 0
    | 0x5414 | 0x5410 | 0x540E => pure (if isTty then 0 else ENOTTY)
    | _ => pure (if isTty then EINVAL else ENOTTY)

/-- `sys_linux_rt_sigaction` (32 bytes) and `sys_linux_rt_sigprocmask` (8 bytes): the old value goes
out, then the new one comes in. -/
def exchange (new old : Word) (n : ℕ) : M ℤ :=
  require EINVAL <| do
    let r ← copyStructOpt old n
    if r ≠ 0 then pure r
    else if new = 0 then pure 0
    else orReturn (copyFromUser new n) EFAULT fun _ => pure 0

def sysLinuxRtSigaction (act oact : Word) : M ℤ := exchange act oact 32

def sysLinuxRtSigprocmask (set oset : Word) : M ℤ := exchange set oset 8

def sysLinuxRtSigreturn (userRsp : Word) : M ℤ := orReturn (copyFromUser (userRsp - 8) 168) EFAULT fun _ => result

/-- `poll`: an entry that cannot be read is passed over. -/
def poll (fds : Word) (nfds : ℤ) : M ℤ := do
  let tries ← answer
  let _ ← rounds (α := Unit) (fun _ => do
    let _ ← rounds (α := Unit) (fun i => do
      match ← copyFromUser (fds + ofNat (8 * i)) 8 with
      | none => pure none
      | some _ => do
        discard (copyToUser (fds + ofNat (8 * i)) 8)
        pure none) nfds.toNat 0
    pure none) tries 0
  result

def pselect6 (nfds : ℤ) (rfds wfds efds : Word) : M ℤ := do
  if wfds ≠ 0 ∧ 0 < nfds then
    discard <| rounds (α := Unit) (fun i => do
      match ← copyFromUser (wfds + ofNat (8 * i)) 8 with
      | none => pure none
      | some _ => do
        discard (copyToUser (wfds + ofNat (8 * i)) 8)
        pure none) ((nfds.toNat + 63) / 64) 0
  if rfds ≠ 0 then discard (copyToUser rfds 8)
  if efds ≠ 0 then discard (copyToUser efds 8)
  pure 1

def time (p : Word) : M ℤ := do
  if p ≠ 0 then discard (copyToUser p 8)
  result

def futex (uaddr op : Word) : M ℤ :=
  if uint32 op &&& 0xFFFFFF7F = 0 then orReturn (copyFromUser uaddr 4) EFAULT fun _ => require EAGAIN (pure 0)
  else pure 0

/-- The header and the first entry of `sendmsg` and `recvmsg`. -/
def withMsg (msg : Word) (k : List UInt8 → List UInt8 → M ℤ) : M ℤ :=
  orReturn (copyFromUser msg 32) EFAULT fun mh =>
    if wordAt mh 24 = 0 then pure EFAULT
    else orReturn (copyFromUser (wordAt mh 16) 16) EFAULT fun iov => k mh iov

/-- The 32-bit length of the name. -/
def nameLen (mh : List UInt8) : ℕ := uint32 (wordAt mh 8)

def sendmsg (msg : Word) : M ℤ := withMsg msg fun mh iov =>
  sysLinuxSendto (wordAt iov 0) (wordAt iov 8) (if 0 < nameLen mh then wordAt mh 0 else 0)

def recvmsg (msg : Word) : M ℤ := withMsg msg fun mh iov => do
  let len ← kernelAddress
  sysLinuxRecvfrom (wordAt iov 0) (wordAt iov 8) (wordAt mh 0) (if nameLen mh ≠ 0 then len else 0)

/-- The loop of `getrandom`, which stores to the buffer itself. -/
def randomBytes (p : Word) : ℕ → M Unit
  | 0 => pure ()
  | n + 1 => do
    if ← store p then randomBytes (p + 1) n else .halt

def getrandom (buf len : Word) : M ℤ := do
  if buf ≠ 0 ∧ len ≠ 0 then randomBytes buf len.toNat
  pure len.toInt

/-- The loads of the `memcpy` of `mremap`; its stores go to the new mapping. -/
def copyOld (p : Word) : ℕ → M Unit
  | 0 => pure ()
  | n + 1 => do
    match ← load p with
    | none => .halt
    | some _ => copyOld (p + 1) n

def mremap (oldAddr oldSize newSize : Word) : M ℤ :=
  if newSize ≤ oldSize then pure oldAddr.toInt
  else require ENOMEM <| do
    copyOld oldAddr oldSize.toNat
    result

def deliverSignals : M Unit := do
  if ← choose then
    let sp ← answer
    if ← copyToUser (ofNat sp) 168 then pure () else .halt

/-- The argument registers, and the user stack pointer. -/
structure Args where
  a1 : Word := 0
  a2 : Word := 0
  a3 : Word := 0
  a4 : Word := 0
  a5 : Word := 0
  userRsp : Word := 0

/-- The `switch` of `linux_syscall_handler`. Calls without a pointer, and those that ignore theirs,
give some result. -/
def syscall (num : ℕ) (a : Args) : M ℤ :=
  match num with
  | 0 => fdReadAny a.a2 a.a3
  | 1 => fdWriteAny a.a2 a.a3
  | 2 => sysLinuxOpen (.user a.a1)
  | 4 => sysLinuxStat (.user a.a1) a.a2
  | 5 => sysLinuxFstat a.a2
  | 6 => sysLinuxStat (.user a.a1) a.a2
  | 7 => poll a.a1 (int32 a.a2)
  | 13 => sysLinuxRtSigaction a.a2 a.a3
  | 14 => sysLinuxRtSigprocmask a.a2 a.a3
  | 15 => sysLinuxRtSigreturn a.userRsp
  | 16 => sysLinuxIoctl a.a2 a.a3
  | 17 => sysLinuxPread a.a2 a.a3 false
  | 18 => sysLinuxPread a.a2 a.a3 true
  | 19 => sysLinuxReadv a.a2 (int32 a.a3)
  | 20 => sysLinuxWritev a.a2 (int32 a.a3)
  | 21 => sysLinuxAccess (.user a.a1)
  | 22 => sysLinuxPipe a.a1
  | 25 => mremap a.a1 a.a2 a.a3
  | 35 => sysLinuxNanosleep a.a2
  | 40 => sysLinuxSendfile a.a3 a.a4
  | 42 => sysLinuxConnect a.a2
  | 44 => sysLinuxSendto a.a2 a.a3 a.a5
  | 45 => sysLinuxRecvfrom a.a2 a.a3 a.a5 0
  | 46 => sendmsg a.a2
  | 47 => recvmsg a.a2
  | 51 => sysLinuxGetsockname a.a2 a.a3
  | 52 => sysLinuxGetsockname a.a2 a.a3
  | 55 => sysLinuxGetsockopt (int32 a.a3) a.a4 a.a5
  | 59 => sysLinuxExecve a.a1 a.a2 a.a3
  | 61 => sysLinuxWait4 a.a2
  | 63 => sysLinuxUname a.a1
  | 76 => sysLinuxTruncate (.user a.a1)
  | 78 => sysLinuxGetdents64 a.a2 a.a3
  | 79 => sysLinuxGetcwd a.a1 a.a2
  | 80 => sysLinuxChdir (.user a.a1)
  | 82 => sysLinuxRename (.user a.a1) (.user a.a2)
  | 83 => sysLinuxMkdir (.user a.a1)
  | 84 => sysLinuxRmdir (.user a.a1)
  | 86 => sysLinuxLink a.a1 a.a2
  | 87 => sysLinuxUnlink (.user a.a1)
  | 88 => sysLinuxSymlink a.a1 a.a2
  | 89 => sysLinuxReadlink a.a1 a.a2 a.a3
  | 96 => sysLinuxGettimeofday a.a1
  | 97 => sysLinuxGetrlimit a.a2
  | 99 => sysLinuxSysinfo a.a1
  | 115 => sysLinuxGetgroups (int32 a.a1) a.a2
  | 137 => sysLinuxStatfs a.a2
  | 138 => sysLinuxStatfs a.a2
  | 157 => sysLinuxPrctl (int32 a.a1) a.a2
  | 158 => sysLinuxArchPrctl (int32 a.a1) a.a2
  | 161 => sysLinuxChroot (.user a.a1)
  | 165 => sysLinuxGetdents64 a.a2 a.a3
  | 201 => time a.a1
  | 202 => futex a.a1 a.a2
  | 204 => sysLinuxSchedGetaffinity a.a2 a.a3
  | 217 => sysLinuxGetdents64 a.a2 a.a3
  | 228 => sysLinuxClockGettime a.a2
  | 229 => sysLinuxClockGetres a.a2
  | 230 => sysLinuxNanosleep a.a2
  | 257 => sysLinuxOpenat a.a2
  | 258 => sysLinuxMkdirat a.a2
  | 262 => sysLinuxNewfstatat a.a2 a.a3
  | 263 => sysLinuxUnlinkat a.a2 (a.a3.getLsbD 9)
  | 264 => sysLinuxRenameat a.a2 a.a4
  | 266 => sysLinuxSymlinkat a.a1 a.a3
  | 267 => sysLinuxReadlinkat a.a2 a.a3 a.a4
  | 269 => sysLinuxFaccessat a.a2
  | 270 => pselect6 (int32 a.a1) a.a2 a.a3 a.a4
  | 275 => sysLinuxSplice a.a5
  | 293 => sysLinuxPipe a.a1
  | 302 => sysLinuxPrlimit a.a4
  | 316 => sysLinuxRenameat a.a2 a.a4
  | 318 => getrandom a.a1 a.a2
  | 332 => sysLinuxStatx a.a2 a.a5 (a.a3.getLsbD 12)
  | 439 => sysLinuxFaccessat a.a2
  | _ => result

def linuxSyscallHandler (num : ℕ) (a : Args) : M ℤ := do
  let ret ← syscall num a
  deliverSignals
  pure ret

end ComputerOS.Linux.UserAccess
