import ComputerOS.Linux.Open

/-!
The file calls of all tasks together: descriptor tables whose entries point into the kernel heap,
the write buffers there, and the files. An entry is copied by assignment in `dup`, `dup2` and
`fcntl`; only `fork` also copies the buffer.
-/
namespace ComputerOS.Linux.Files

open Function

/-- `tables 0` is `boot_fd_table`; `tasks` is the number of the next task. -/
structure Sys where
  tables : ℕ → Option (ℕ → Fd)
  isUser : ℕ → Bool
  tasks : ℕ
  heap : Heap
  files : Path → Option (List UInt8)

namespace Sys

def table (s : Sys) (k : ℕ) : ℕ → Fd := (s.tables k).getD fun _ => {}

def setTable (s : Sys) (k : ℕ) (tab : ℕ → Fd) : Sys := { s with tables := update s.tables k (some tab) }

def setEntry (s : Sys) (k i : ℕ) (e : Fd) : Sys := s.setTable k (update (s.table k) i e)

def view (s : Sys) (k i : ℕ) : FileSt := ⟨s.table k i, s.heap, s.files⟩

/-- The state after such a call. -/
def back (s : Sys) (k i : ℕ) (f : FileSt) : Sys := { s.setEntry k i f.fd with heap := f.heap, files := f.files }

end Sys

def entries (tab : ℕ → Fd) : FdTable := fun i => (tab i).entry

def fdtNew : ℕ → Fd := fun i => if i < 3 then { flags := { used := true, tty := true } } else {}

/-- `cur_fdt` for task `t`; `ok` says whether `kmalloc` has room for a new table. -/
def curFdt (t : ℕ) (ok : Bool) (s : Sys) : ℕ × Sys :=
  if s.isUser t then
    match s.tables t with
    | some _ => (t, s)
    | none => if ok then (t, s.setTable t fdtNew) else (0, s)
  else (0, s)

/-- A call on an open descriptor. -/
def onFile (k : ℕ) (fd : ℤ) (f : FileSt → Out) (s : Sys) : Sys × List Access :=
  if fdValid (entries (s.table k)) fd then
    let out := f (s.view k fd.toNat)
    (s.back k fd.toNat out.st, out.used)
  else (s, [])

def Fd.isPipeOrSock (e : Fd) : Bool := e.flags.pipeR || e.flags.pipeW || e.flags.sock

/-- `fd_read_any`, `fd_write_any`: pipes and sockets have calls of their own. -/
def fdAny (env : Env) (io : FileSt → Out) (s : FileSt) : Out :=
  if s.fd.isPipeOrSock then { ret := env.tty, st := s } else io s

def sysClose (env : Env) (s : FileSt) : Out :=
  { ret := 0, st := (fdCloseEntry env s).1, used := (fdCloseEntry env s).2 }

def openFile (k : ℕ) (env : OpenEnv) (flags : ℕ) (s : Sys) : Sys :=
  let fd := fdAlloc (entries (s.table k))
  match sysOpen env flags (fd.map (s.table k)) s.files, fd with
  | (.inr e, files), some i => { s.setEntry k i e with files := files }
  | (_, files), _ => { s with files := files }

/-- The copy of an entry, with the given close-on-exec flag. -/
def Fd.copy (e : Fd) (cloexec : Bool) : Fd := { e with flags := { e.flags with cloexec } }

def sysDup (k : ℕ) (oldfd : ℤ) (s : Sys) : Sys :=
  if fdValid (entries (s.table k)) oldfd then
    match fdAlloc (entries (s.table k)) with
    | none => s
    | some nfd => s.setEntry k nfd ((s.table k oldfd.toNat).copy false)
  else s

/-- What `dup2` does to a descriptor that is open, before it is overwritten. -/
def dup2Close (env : Env) (s : FileSt) : FileSt × List Access :=
  if s.fd.flags.used then
    let (s, used) := fdFlush env { s with
      fd := { s.fd with flags := { s.fd.flags with pipeR := false, pipeW := false } } }
    ({ s with fd := { s.fd with flags := {} } }, used)
  else (s, [])

/-- `sys_linux_dup2`, with the close-on-exec flag of the copy. -/
def sysDup2 (k : ℕ) (env : Env) (oldfd newfd : ℤ) (cloexec : Bool) (s : Sys) : Sys × List Access :=
  if fdValid (entries (s.table k)) oldfd then
    if newfd < 0 ∨ (FD_MAX : ℤ) ≤ newfd ∨ newfd = oldfd then (s, [])
    else
      let closed := dup2Close env (s.view k newfd.toNat)
      let s := s.back k newfd.toNat closed.1
      (s.setEntry k newfd.toNat ((s.table k oldfd.toNat).copy cloexec), closed.2)
  else (s, [])

def sysFcntl (k : ℕ) (fd : ℤ) (cmd arg : ℕ) (s : Sys) : Sys :=
  if fdValid (entries (s.table k)) fd then
    let e := s.table k fd.toNat
    if cmd = 0 ∨ cmd = 1030 then
      if FD_MAX ≤ arg then s
      else
        match (List.range' arg (FD_MAX - arg)).find? fun i => !(s.table k i).flags.used with
        | none => s
        | some nfd => s.setEntry k nfd (e.copy (cmd = 1030))
    else if cmd = 2 then s.setEntry k fd.toNat (e.copy (arg % 2 = 1))
    else s
  else s

/-- The loop of `linux_fdt_clone` over one entry. -/
def cloneBuf (env : Env) (s : FileSt) : FileSt × List Access :=
  match s.fd.wbuf with
  | some b =>
    if s.fd.flags.used then
      let cap := if s.fd.wbufCap = 0 then 1 else s.fd.wbufCap
      match kmalloc env cap s.heap with
      | some (a, heap) =>
        ({ s with fd := { s.fd with wbuf := some a }, heap := store heap a 0 (firstOf s.heap b
          s.fd.wbufCap) }, [⟨s.fd.wbufCap, capOf s.heap b⟩, ⟨s.fd.wbufCap, given cap⟩])
      | none => ({ s with fd := { s.fd with wbuf := none, wbufCap := 0 } }, [])
    else (s, [])
  | none => (s, [])

def cloneAt (parent child : ℕ) (envs : ℕ → Env) (s : Sys × List Access) (i : ℕ) : Sys × List Access :=
  let out := cloneBuf (envs i) (s.1.view parent i)
  (s.1.back child i out.1, s.2 ++ out.2)

/-- `linux_fdt_clone`, from task `parent` to a new task; `tableOk` says whether there is memory for
the table. -/
def linuxFdtClone (parent : ℕ) (tableOk : Bool) (envs : ℕ → Env) (s : Sys) : Sys × List Access :=
  let child := s.tasks
  let s := { s with
    tasks := s.tasks + 1
    isUser := update s.isUser child true
    tables := update s.tables child none }
  match s.tables parent with
  | none => (s, [])
  | some _ =>
    if tableOk then (List.range FD_MAX).foldl (cloneAt parent child envs)
      (s.setTable child fun _ => {}, []) else (s, [])

def closeAt (k : ℕ) (envs : ℕ → Env) (s : Sys × List Access) (i : ℕ) : Sys × List Access :=
  let out := fdCloseEntry (envs i) (s.1.view k i)
  (s.1.back k i out.1, s.2 ++ out.2)

def fdtCloseOnExec (k : ℕ) (envs : ℕ → Env) (s : Sys) : Sys × List Access :=
  (List.range' 3 (FD_MAX - 3)).foldl (fun s i =>
    if (s.1.table k i).flags.used ∧ (s.1.table k i).flags.cloexec then closeAt k envs s i else s) (s, [])

def linuxFdtRelease (t : ℕ) (envs : ℕ → Env) (s : Sys) : Sys × List Access :=
  match s.tables t with
  | none => (s, [])
  | some _ =>
    let s := (List.range FD_MAX).foldl (closeAt t envs) (s, [])
    ({ s.1 with tables := update s.1.tables t none }, s.2)

/-- A new task without a parent's table. -/
def spawn (user : Bool) (s : Sys) : Sys :=
  { s with
    tasks := s.tasks + 1
    isUser := update s.isUser s.tasks user
    tables := update s.tables s.tasks none }

/-- What a task can ask for; `ok` says whether there is memory for its first table. -/
inductive Op
  | openFile (t : ℕ) (ok : Bool) (env : OpenEnv) (flags : ℕ)
  | read (t : ℕ) (ok : Bool) (env : Env) (fd : ℤ) (count : ℕ)
  | write (t : ℕ) (ok : Bool) (env : Env) (fd : ℤ) (data : List UInt8)
  | pread (t : ℕ) (ok : Bool) (env : Env) (fd : ℤ) (count : ℕ) (off : ℤ)
  | pwrite (t : ℕ) (ok : Bool) (env : Env) (fd : ℤ) (data : List UInt8) (off : ℤ)
  | lseek (t : ℕ) (ok : Bool) (fd offset whence : ℤ)
  | ftruncate (t : ℕ) (ok : Bool) (env : Env) (fd length : ℤ)
  | fsync (t : ℕ) (ok : Bool) (env : Env) (fd : ℤ)
  | dup (t : ℕ) (ok : Bool) (oldfd : ℤ)
  | dup2 (t : ℕ) (ok : Bool) (env : Env) (oldfd newfd : ℤ) (cloexec : Bool)
  | fcntl (t : ℕ) (ok : Bool) (fd : ℤ) (cmd arg : ℕ)
  | close (t : ℕ) (ok : Bool) (env : Env) (fd : ℤ)
  | fork (t : ℕ) (tableOk : Bool) (envs : ℕ → Env)
  | exec (t : ℕ) (ok : Bool) (envs : ℕ → Env)
  | exit (t : ℕ) (envs : ℕ → Env)
  | spawn (user : Bool)

def onTable (t : ℕ) (ok : Bool) (f : ℕ → Sys → Sys × List Access) (s : Sys) : Sys × List Access :=
  f (curFdt t ok s).1 (curFdt t ok s).2

/-- The state after a call, and which parts of buffers it touched. `dup3` is `dup2` with its
close-on-exec flag. -/
def Op.run : Op → Sys → Sys × List Access
  | .openFile t ok env flags => onTable t ok fun k s => (Files.openFile k env flags s, [])
  | .read t ok env fd count => onTable t ok fun k => onFile k fd (fdAny env (sysRead env count))
  | .write t ok env fd data => onTable t ok fun k => onFile k fd (fdAny env (sysWrite env data))
  | .pread t ok env fd count off => onTable t ok fun k => onFile k fd (sysPread off (sysRead env count))
  | .pwrite t ok env fd data off => onTable t ok fun k => onFile k fd (sysPread off (sysWrite env data))
  | .lseek t ok fd offset whence => onTable t ok fun k => onFile k fd (sysLseek offset whence)
  | .ftruncate t ok env fd length => onTable t ok fun k => onFile k fd (sysFtruncate env length)
  | .fsync t ok env fd => onTable t ok fun k => onFile k fd (sysFsync env)
  | .dup t ok oldfd => onTable t ok fun k s => (sysDup k oldfd s, [])
  | .dup2 t ok env oldfd newfd cloexec => onTable t ok fun k => sysDup2 k env oldfd newfd cloexec
  | .fcntl t ok fd cmd arg => onTable t ok fun k s => (sysFcntl k fd cmd arg s, [])
  | .close t ok env fd => onTable t ok fun k => onFile k fd (sysClose env)
  | .fork t tableOk envs => fun s => if s.isUser t then linuxFdtClone t tableOk envs s else (s, [])
  | .exec t ok envs => onTable t ok fun k => fdtCloseOnExec k envs
  | .exit t envs => fun s => if s.isUser t then linuxFdtRelease t envs s else (s, [])
  | .spawn user => fun s => (Files.spawn user s, [])

/-- The state before the first call, with any files. -/
def boot (files : Path → Option (List UInt8)) : Sys where
  tables := update (fun _ => none) 0 (some fdtNew)
  isUser := fun _ => false
  tasks := 1
  heap := fun _ => none
  files := files

/-- The states reached by calls that all satisfy `C`, with the parts of buffers touched on the way.
-/
inductive Run (C : Op → Sys → Prop) : Sys → List Access → Prop
  | boot (files : Path → Option (List UInt8)) : Run C (boot files) []
  | step {s : Sys} {used : List Access} (h : Run C s used) (op : Op) (hop : C op s) :
      Run C (op.run s).1 (used ++ (op.run s).2)

end ComputerOS.Linux.Files
