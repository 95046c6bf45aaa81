import Mathlib.Data.Int.Init
import Mathlib.Logic.Function.Basic
import Mathlib.Algebra.Ring.Nat
import Mathlib.Algebra.Ring.Int.Defs

/-!
The descriptor tables of the Linux system calls. Every process has a table of 64 entries, made
on first use and copied by `fork`; pipes live in a pool of 16, and an entry for a pipe end holds
the index into the pool where an entry for a file holds the position.
-/
namespace ComputerOS.Linux

open Function

def FD_MAX : ℕ := 64

def PIPE_MAX : ℕ := 16

def EBADF : ℤ := -9

def ENOMEM : ℤ := -12

def EFAULT : ℤ := -14

def EISDIR : ℤ := -21

def EINVAL : ℤ := -22

def EMFILE : ℤ := -24

def EIO : ℤ := -5

structure FdFlags where
  used : Bool := false
  dir : Bool := false
  tty : Bool := false
  pipeR : Bool := false
  pipeW : Bool := false
  sock : Bool := false
  cloexec : Bool := false
deriving DecidableEq, Repr

/-- `fd_entry_t`; `wbuf` says whether there is a write buffer. -/
structure FdEntry where
  flags : FdFlags := {}
  path : List UInt8 := []
  offset : ℕ := 0
  size : ℕ := 0
  wbuf : Bool := false
  wbufCap : ℕ := 0
deriving DecidableEq, Repr

abbrev FdTable := ℕ → FdEntry

/-- `pipe_t`: how many bytes are buffered, and how many ends are open. -/
structure Pipe where
  used : ℕ := 0
  readOpen : ℤ := 0
  writeOpen : ℤ := 0
deriving DecidableEq, Repr

abbrev Pool := ℕ → Pipe

/-- `tables 0` is `boot_fd_table`, `tables t` the table of task `t`, if it has one; `tasks` is
the number of the next task. -/
structure St where
  pool : Pool
  tables : ℕ → Option FdTable
  isUser : ℕ → Bool
  tasks : ℕ

namespace St

def table (s : St) (k : ℕ) : FdTable := (s.tables k).getD fun _ => {}

def setTable (s : St) (k : ℕ) (tab : FdTable) : St := { s with tables := update s.tables k (some tab) }

def setEntry (s : St) (k i : ℕ) (e : FdEntry) : St := s.setTable k (update (s.table k) i e)

def setPipe (s : St) (i : ℕ) (p : Pipe) : St := { s with pool := update s.pool i p }

end St

def fdtNew : FdTable := fun i => if i < 3 then { flags := { used := true, tty := true } } else {}

/-- `cur_fdt` for task `t`: which table its calls work on. `ok` says whether `kmalloc` has room
for a new table. -/
def curFdt (t : ℕ) (ok : Bool) (s : St) : ℕ × St :=
  if s.isUser t then
    match s.tables t with
    | some _ => (t, s)
    | none => if ok then (t, s.setTable t fdtNew) else (0, s)
  else (0, s)

def fdAlloc (tab : FdTable) : Option ℕ := (List.range' 3 (FD_MAX - 3)).find? fun i => !(tab i).flags.used

def fdValid (tab : FdTable) (fd : ℤ) : Prop := 0 ≤ fd ∧ fd < FD_MAX ∧ (tab fd.toNat).flags.used = true

instance (tab : FdTable) (fd : ℤ) : Decidable (fdValid tab fd) := inferInstanceAs (Decidable (_ ∧ _ ∧ _))

def incRead (pool : Pool) (i : ℕ) : Pool := update pool i { pool i with readOpen := (pool i).readOpen + 1 }

def incWrite (pool : Pool) (i : ℕ) : Pool := update pool i { pool i with writeOpen := (pool i).writeOpen + 1 }

def decRead (pool : Pool) (i : ℕ) : Pool :=
  update pool i { pool i with readOpen := if (pool i).readOpen - 1 < 0 then 0 else (pool
  i).readOpen - 1 }

def decWrite (pool : Pool) (i : ℕ) : Pool :=
  update pool i { pool i with writeOpen := if (pool i).writeOpen - 1 < 0 then 0 else (pool
  i).writeOpen - 1 }

/-- What `dup` and `dup2` add for the entry they copied: one end, the read end first. -/
def bumpOne (pool : Pool) (e : FdEntry) : Pool :=
  if e.flags.pipeR then incRead pool e.offset
  else if e.flags.pipeW then incWrite pool e.offset else pool

/-- What `fork` and `fcntl` add for the entry they copied: each end that it is. -/
def bumpBoth (pool : Pool) (e : FdEntry) : Pool :=
  let pool := if e.flags.pipeR then incRead pool e.offset else pool
  if e.flags.pipeW then incWrite pool e.offset else pool

/-- What closing an entry takes away: one end, the read end first. -/
def dropOne (pool : Pool) (e : FdEntry) : Pool :=
  if e.flags.pipeR then decRead pool e.offset
  else if e.flags.pipeW then decWrite pool e.offset else pool

def fdFlush (e : FdEntry) : FdEntry :=
  if e.wbuf ∧ 0 < e.size ∧ e.path ≠ [] then { e with wbuf := false, wbufCap := 0 } else e

def fdCloseEntry (pool : Pool) (e : FdEntry) : Pool × FdEntry :=
  if e.flags.used = false then (pool, e)
  else
    (if e.offset < PIPE_MAX then dropOne pool e else pool,
      { fdFlush { e with flags := {} } with wbuf := false, wbufCap := 0 })

def closeAt (k : ℕ) (s : St) (i : ℕ) : St :=
  { s with pool := (fdCloseEntry s.pool (s.table k i)).1 }.setEntry k i
    (fdCloseEntry s.pool (s.table k i)).2

def sysClose (k : ℕ) (fd : ℤ) (s : St) : ℤ × St :=
  if fdValid (s.table k) fd then (0, closeAt k s fd.toNat) else (EBADF, s)

def linuxFdtRelease (t : ℕ) (s : St) : St :=
  match s.tables t with
  | none => s
  | some _ =>
    let s := (List.range FD_MAX).foldl (closeAt t) s
    { s with tables := update s.tables t none }

def fdtCloseOnExec (k : ℕ) (s : St) : St :=
  (List.range' 3 (FD_MAX - 3)).foldl (fun s i =>
    if (s.table k i).flags.used ∧ (s.table k i).flags.cloexec then closeAt k s i else s) s

/-- The loop of `linux_fdt_clone` over one entry; `ok i` says whether its write buffer could
be copied. -/
def cloneEntry (ok : ℕ → Bool) (i : ℕ) (e : FdEntry) : FdEntry :=
  if e.flags.used ∧ e.wbuf ∧ ok i = false then { e with wbuf := false, wbufCap := 0 } else e

/-- `linux_fdt_clone`, from task `parent` to a new task; `tableOk` says whether there is memory
for the table. -/
def linuxFdtClone (parent : ℕ) (tableOk : Bool) (ok : ℕ → Bool) (s : St) : St :=
  let child := s.tasks
  let s := { s with
    tasks := s.tasks + 1
    isUser := update s.isUser child true
    tables := update s.tables child none }
  match s.tables parent with
  | none => s
  | some tab =>
    if tableOk then
      { s with pool := (List.range FD_MAX).foldl (fun pool i =>
          if (tab i).flags.used then bumpBoth pool (tab i) else pool) s.pool }.setTable child
        fun i => cloneEntry ok i (tab i)
    else s

/-- A new task without a parent's table. -/
def spawn (user : Bool) (s : St) : St :=
  { s with
    tasks := s.tasks + 1
    isUser := update s.isUser s.tasks user
    tables := update s.tables s.tasks none }

/-- `pipe_alloc`; the pool is zero from the start, so `pipe_pool_ensure` changes nothing. -/
def pipeAlloc (s : St) : Option ℕ × St :=
  match (List.range PIPE_MAX).find? fun i => (s.pool i).readOpen = 0 ∧ (s.pool i).writeOpen = 0 with
  | some i => (some i, s.setPipe i { readOpen := 1, writeOpen := 1 })
  | none => (none, s)

def pipeUndo (s : St) (i : ℕ) : St := s.setPipe i { s.pool i with readOpen := 0, writeOpen := 0 }

/-- The entry of a fresh pipe end: path and write buffer are those of the slot. -/
def pipeEntry (old : FdEntry) (flags : FdFlags) (pi : ℕ) : FdEntry :=
  { old with flags := flags, offset := pi, size := 0 }

/-- `sys_linux_pipe`; `copied` says whether the two numbers could be stored for the caller. -/
def sysPipe (k : ℕ) (cloexec copied : Bool) (s : St) : ℤ × St :=
  match pipeAlloc s with
  | (none, s) => (ENOMEM, s)
  | (some pi, s) =>
    match fdAlloc (s.table k) with
    | none => (EMFILE, pipeUndo s pi)
    | some rfd =>
      let s := s.setEntry k rfd (pipeEntry (s.table k rfd) { used := true, pipeR := true, cloexec } pi)
      match fdAlloc (s.table k) with
      | none => (EMFILE, pipeUndo (s.setEntry k rfd { s.table k rfd with flags := {} }) pi)
      | some wfd =>
        let s := s.setEntry k wfd (pipeEntry (s.table k wfd) { used := true, pipeW := true, cloexec } pi)
        if copied then (0, s)
        else
          let s := s.setEntry k wfd { s.table k wfd with flags := {} }
          (EFAULT, pipeUndo (s.setEntry k rfd { s.table k rfd with flags := {} }) pi)

/-- `sys_linux_eventfd`: one descriptor that is both ends of a pipe. -/
def sysEventfd (k : ℕ) (s : St) : ℤ × St :=
  match pipeAlloc s with
  | (none, s) => (ENOMEM, s)
  | (some pi, s) =>
    match fdAlloc (s.table k) with
    | none => (EMFILE, pipeUndo s pi)
    | some fd =>
      (fd, s.setEntry k fd (pipeEntry (s.table k fd) { used := true, pipeR := true, pipeW := true } pi))

def FdEntry.copy (e : FdEntry) (cloexec : Bool) : FdEntry := { e with flags := { e.flags with cloexec } }

def sysDup (k : ℕ) (oldfd : ℤ) (s : St) : ℤ × St :=
  if fdValid (s.table k) oldfd then
    match fdAlloc (s.table k) with
    | none => (EMFILE, s)
    | some nfd =>
      let e := s.table k oldfd.toNat
      (nfd, { s with pool := bumpOne s.pool e }.setEntry k nfd (e.copy false))
  else (EBADF, s)

/-- What `dup2` does to a descriptor that is open, before it is overwritten. -/
def dup2Close (k i : ℕ) (s : St) : St :=
  let e := s.table k i
  if e.flags.used then
    { s with pool := dropOne s.pool e }.setEntry k i
      { fdFlush { e with flags := { e.flags with pipeR := false, pipeW := false } } with flags := {} }
  else s

def sysDup2 (k : ℕ) (oldfd newfd : ℤ) (s : St) : ℤ × St :=
  if fdValid (s.table k) oldfd then
    if newfd < 0 ∨ (FD_MAX : ℤ) ≤ newfd then (EBADF, s)
    else if newfd = oldfd then (newfd, s)
    else
      let s := dup2Close k newfd.toNat s
      let e := s.table k oldfd.toNat
      (newfd, { s with pool := bumpOne s.pool e }.setEntry k newfd.toNat (e.copy false))
  else (EBADF, s)

/-- `dup3`: as `dup2`, but the two descriptors must differ. -/
def sysDup3 (k : ℕ) (oldfd newfd : ℤ) (cloexec : Bool) (s : St) : ℤ × St :=
  if oldfd = newfd then (EINVAL, s)
  else
    let (ret, s) := sysDup2 k oldfd newfd s
    if 0 ≤ ret ∧ cloexec then (ret, s.setEntry k ret.toNat ((s.table k ret.toNat).copy true))
    else (ret, s)

def sysFcntl (k : ℕ) (fd : ℤ) (cmd arg : ℕ) (s : St) : ℤ × St :=
  if fdValid (s.table k) fd then
    let e := s.table k fd.toNat
    if cmd = 0 ∨ cmd = 1030 then
      if FD_MAX ≤ arg then (EINVAL, s)
      else
        match (List.range' arg (FD_MAX - arg)).find? fun i => !(s.table k i).flags.used with
        | none => (EMFILE, s)
        | some nfd => (nfd, { s with pool := bumpBoth s.pool e }.setEntry k nfd (e.copy (cmd = 1030)))
    else if cmd = 1 then (if e.flags.cloexec then 1 else 0, s)
    else if cmd = 2 then (0, s.setEntry k fd.toNat (e.copy (arg % 2 = 1)))
    else if cmd = 3 then (2, s)
    else if cmd = 4 ∨ cmd ∈ [5, 6, 7, 36, 37, 38] then (0, s)
    else (EINVAL, s)
  else (EBADF, s)

/-- A 64-bit signed number. -/
def wrap64 (x : ℤ) : ℤ := x.bmod (2 ^ 64)

/-- The position that `lseek` asks for. -/
def seekPos (e : FdEntry) (offset whence : ℤ) : Option ℤ :=
  if whence = 0 then some offset
  else if whence = 1 then some (wrap64 (e.offset + offset))
  else if whence = 2 then some (wrap64 (e.size + offset))
  else none

def sysLseek (k : ℕ) (fd offset whence : ℤ) (s : St) : ℤ × St :=
  if fdValid (s.table k) fd then
    let e := s.table k fd.toNat
    match seekPos e offset whence with
    | none => (EINVAL, s)
    | some pos =>
      if pos < 0 then (EINVAL, s)
      else (pos, s.setEntry k fd.toNat { e with offset := pos.toNat % 2 ^ 32 })
  else (EBADF, s)

/-- What the rest of the kernel answers while `sys_linux_read` runs: `tty_read`, the two
calls of `kmalloc`, and `vfs_read_file`. -/
structure ReadEnv where
  tty : ℤ
  kbuf : Bool
  filebuf : Bool
  vfs : ℤ

/-- `sys_linux_read` of an open descriptor into kernel memory, which `copy_to_user` refuses
(`user_range_ok`), so that the position never moves. -/
def readIntoKernel (w : ReadEnv) (e : FdEntry) (count : ℕ) : ℤ :=
  if count = 0 then 0
  else if e.flags.tty then w.tty
  else if e.flags.dir then EISDIR
  else if e.size ≤ e.offset then 0
  else if w.kbuf = false then ENOMEM
  else if e.wbuf then EFAULT
  else if w.filebuf = false then ENOMEM
  else if w.vfs < 0 then EIO
  else if w.vfs ≤ e.offset then 0
  else EFAULT

/-- `sys_linux_write` of an open descriptor from kernel memory, which `copy_from_user` refuses:
the write buffer may grow, the position stays. `kmalloc` and `vfs` say whether the buffer could
be made and filled. -/
def writeFromKernel (kmalloc vfs : Bool) (e : FdEntry) (count : ℕ) : ℤ × FdEntry :=
  if count = 0 then (0, e)
  else if e.flags.tty then (EFAULT, e)
  else
    let need := (e.offset + count) % 2 ^ 32
    if e.wbufCap < need ∨ e.wbuf = false then
      let newcap := if need * 2 % 2 ^ 32 < 4096 ∨ need ≤ e.wbufCap then 4096 else need * 2 % 2 ^ 32
      if kmalloc = false then (ENOMEM, e)
      else if e.wbufCap < need ∧ e.wbuf = false ∧ 0 < e.size ∧ vfs = false then ( EIO, e)
      else (EFAULT, { e with wbuf := true, wbufCap := newcap })
    else (EFAULT, e)

/-- `sys_linux_sendfile`. `uoffset` is the caller's offset, if it passed one; `buf` says whether
there was memory for the buffer, and `kmalloc` and `vfs` are for the write. -/
def sysSendfile (k : ℕ) (outfd infd : ℤ) (uoffset : Option (Option ℤ)) (count : ℕ) (buf : Bool)
    (w : ReadEnv) (kmalloc vfs : Bool) (s : St) : ℤ × St :=
  if fdValid (s.table k) outfd ∧ fdValid (s.table k) infd then
    if uoffset = some none then (EFAULT, s)
    else if buf = false then (ENOMEM, s)
    else
      let fin := s.table k infd.toNat
      let offset := match uoffset with
        | some (some tmp) => if 0 ≤ tmp then tmp.toNat % 2 ^ 32 else 0
        | _ => 0
      let nr := readIntoKernel w { fin with offset } count
      let fin := if uoffset.isSome then { fin with offset }
        else { fin with offset := (fin.offset + (if 0 < nr then nr.toNat else 0)) % 2 ^ 32 }
      let s := s.setEntry k infd.toNat fin
      if 0 < nr then
        let (nw, eout) := writeFromKernel kmalloc vfs (s.table k outfd.toNat) nr.toNat
        (nw, s.setEntry k outfd.toNat eout)
      else (nr, s)
  else (EBADF, s)

/-- What one pass through the wait loop of `pipe_read` does. -/
inductive Wait
  | eof | yield | ready
deriving DecidableEq, Repr

def pipeReadWait (p : Pipe) : Wait := if p.used = 0 then (if p.writeOpen = 0 then .eof else .yield) else .ready

/-- What a task can ask for; `ok` says whether there is memory for its first table. -/
inductive Op
  | pipe (t : ℕ) (ok cloexec copied : Bool)
  | eventfd (t : ℕ) (ok : Bool)
  | dup (t : ℕ) (ok : Bool) (oldfd : ℤ)
  | dup2 (t : ℕ) (ok : Bool) (oldfd newfd : ℤ)
  | dup3 (t : ℕ) (ok : Bool) (oldfd newfd : ℤ) (cloexec : Bool)
  | fcntl (t : ℕ) (ok : Bool) (fd : ℤ) (cmd arg : ℕ)
  | lseek (t : ℕ) (ok : Bool) (fd offset whence : ℤ)
  | sendfile (t : ℕ) (ok : Bool) (outfd infd : ℤ) (uoffset : Option (Option ℤ)) (count : ℕ) (buf : Bool)
      (w : ReadEnv) (kmalloc vfs : Bool)
  | close (t : ℕ) (ok : Bool) (fd : ℤ)
  | fork (t : ℕ) (tableOk : Bool) (bufOk : ℕ → Bool)
  | exec (t : ℕ) (ok : Bool)
  | exit (t : ℕ)
  | spawn (user : Bool)

def onTable (t : ℕ) (ok : Bool) (f : ℕ → St → St) (s : St) : St := f (curFdt t ok s).1 (curFdt t ok s).2

def Op.run : Op → St → St
  | .pipe t ok cloexec copied => onTable t ok fun k s => (sysPipe k cloexec copied s).2
  | .eventfd t ok => onTable t ok fun k s => (sysEventfd k s).2
  | .dup t ok oldfd => onTable t ok fun k s => (sysDup k oldfd s).2
  | .dup2 t ok oldfd newfd => onTable t ok fun k s => (sysDup2 k oldfd newfd s).2
  | .dup3 t ok oldfd newfd cloexec => onTable t ok fun k s => (sysDup3 k oldfd newfd cloexec s).2
  | .fcntl t ok fd cmd arg => onTable t ok fun k s => (sysFcntl k fd cmd arg s).2
  | .lseek t ok fd offset whence => onTable t ok fun k s => (sysLseek k fd offset whence s).2
  | .sendfile t ok outfd infd uoffset count buf w kmalloc vfs =>
      onTable t ok fun k s => (sysSendfile k outfd infd uoffset count buf w kmalloc vfs s).2
  | .close t ok fd => onTable t ok fun k s => (sysClose k fd s).2
  | .fork t tableOk bufOk => fun s => if s.isUser t then linuxFdtClone t tableOk bufOk s else s
  | .exec t ok => onTable t ok fdtCloseOnExec
  | .exit t => fun s => if s.isUser t then linuxFdtRelease t s else s
  | .spawn user => Linux.spawn user

end ComputerOS.Linux
