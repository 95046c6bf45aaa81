import ComputerOS.Kheap.Model
import ComputerOS.Linux.FdTable

/-!
The calls on a descriptor of a file, with the contents of its write buffer. The rest of the
kernel answers through `Env`; the files are seen through `vfs_read_file` and `vfs_write_file`.
Every call also says which parts of buffers it touches, as a bound on the index and the size of
the buffer.
-/
namespace ComputerOS.Linux.Files

open Function

abbrev Path := List UInt8

def ESPIPE : ℤ := -29

/-- `fd_entry_t`; `wbuf` is the address of the write buffer. -/
structure Fd where
  flags : FdFlags := {}
  path : Path := []
  offset : ℕ := 0
  size : ℕ := 0
  wbuf : Option ℕ := none
  wbufCap : ℕ := 0
deriving DecidableEq, Repr

/-- The entry as the descriptor tables see it. -/
def Fd.entry (e : Fd) : FdEntry := ⟨e.flags, e.path, e.offset, e.size, e.wbuf.isSome, e.wbufCap⟩

/-- A block of the kernel heap; `cap` is how many of the bytes asked for it has. -/
structure Block where
  cap : ℕ
  bytes : ℕ → UInt8

/-- The blocks in use, by address. -/
abbrev Heap := ℕ → Option Block

/-- What the rest of the kernel answers during a call: the address that `kmalloc` has for a write
buffer and what stands there, whether there is room for the buffers that the call frees again and
what stands in them, whether the file system can read and write, what a write that fails leaves of
the file, what a console, a pipe or a socket returns, and how far the user's memory can be copied,
if it faults. -/
structure Env where
  grant : Option (ℕ × (ℕ → UInt8)) := none
  kbuf : Bool := true
  filebuf : Bool := true
  junk : ℕ → UInt8 := fun _ => 0
  readable : Bool := true
  writable : Bool := true
  left : Option (List UInt8) → Option (List UInt8) := id
  tty : ℤ := 0
  copied : Option ℕ := none

/-- `n` bytes from the start of a buffer of `cap` bytes are touched. -/
structure Access where
  upto : ℕ
  cap : ℕ
deriving DecidableEq, Repr

def Access.Ok (a : Access) : Prop := a.upto ≤ a.cap

instance (a : Access) : Decidable a.Ok := inferInstanceAs (Decidable (a.upto ≤ a.cap))

/-- The entry a call works on, the write buffers, and the files. -/
structure FileSt where
  fd : Fd
  heap : Heap
  files : Path → Option (List UInt8)

/-- The return value, the bytes given to the user, and the state after a call. -/
structure Out where
  ret : ℤ
  data : List UInt8 := []
  st : FileSt
  used : List Access := []

/-- How many of `n` bytes asked for `kmalloc` gives: `ALIGN8` makes a small size of the largest
ones. -/
def given (n : ℕ) : ℕ := min n (Kheap.align8 n)

/-- `kmalloc` of a write buffer; the address is not that of a block in use. -/
def kmalloc (env : Env) (cap : ℕ) (heap : Heap) : Option (ℕ × Heap) :=
  match env.grant with
  | none => none
  | some (a, junk) => if (heap a).isNone then some (a, update heap a (some ⟨given cap, junk⟩)) else none

def kfree (heap : Heap) (a : ℕ) : Heap := update heap a none

def capOf (heap : Heap) (a : ℕ) : ℕ :=
  match heap a with
  | some b => b.cap
  | none => 0

def bytesOf (heap : Heap) (a : ℕ) : ℕ → UInt8 :=
  match heap a with
  | some b => b.bytes
  | none => fun _ => 0

/-- Bytes stored in a block from index `at` on. -/
def store (heap : Heap) (a pos : ℕ) (data : List UInt8) : Heap :=
  match heap a with
  | some b => update heap a (some { b with
      bytes := fun i => if pos ≤ i ∧ i < pos + data.length then data.getD (i - pos) 0 else b.bytes i })
  | none => heap

def firstOf (heap : Heap) (a n : ℕ) : List UInt8 := (List.range n).map (bytesOf heap a)

def vfsRead (env : Env) (s : FileSt) (max : ℕ) : Option (List UInt8) :=
  if env.readable then (s.files s.fd.path).map (·.take max) else none

def vfsWrite (env : Env) (s : FileSt) (data : List UInt8) : FileSt :=
  { s with files := update s.files s.fd.path (if env.writable then some data else env.left
  (s.files s.fd.path)) }

/-- How many bytes `sys_linux_read` wants, with the sum of 32 bits. -/
def toRead (e : Fd) (count : ℕ) : ℕ :=
  if e.size < (e.offset + count % 2 ^ 32) % 2 ^ 32 then e.size - e.offset else count % 2 ^ 32

/-- The copy to the user at the end of `sys_linux_read`. -/
def handOut (env : Env) (s : FileSt) (data : List UInt8) (used : List Access) : Out :=
  if env.copied.isSome then { ret := EFAULT, st := s, used }
  else { ret := data.length, data, st := { s with fd := { s.fd with offset := (s.fd.offset + data.length) % 2 ^ 32 } }, used }

def sysRead (env : Env) (count : ℕ) (s : FileSt) : Out :=
  let e := s.fd
  if count = 0 then { ret := 0, st := s }
  else if e.flags.tty then { ret := env.tty, st := s }
  else if e.flags.dir then { ret := EISDIR, st := s }
  else if e.size ≤ e.offset then { ret := 0, st := s }
  else if env.kbuf = false ∨ toRead e count = 0 then { ret := ENOMEM, st := s }
  else
    match e.wbuf with
    | some b =>
        handOut env s ((List.range (toRead e count)).map fun i => bytesOf s.heap b ((e.offset + i) % 2 ^ 32))
          [⟨min (e.offset + toRead e count) (2 ^ 32), capOf s.heap b⟩]
    | none =>
        if env.filebuf = false then { ret := ENOMEM, st := s }
        else
          match vfsRead env s e.size with
          | none => { ret := EIO, st := s, used := [⟨e.size, given e.size⟩] }
          | some d =>
              if d.length ≤ e.offset then { ret := 0, st := s, used := [⟨e.size, given e.size⟩] }
              else
                let n := if d.length < (e.offset + toRead e count) % 2 ^ 32 then d.length - e.offset else toRead e count
                handOut env s ((List.range n).map fun i => d.getD ((e.offset + i) % 2 ^ 32) 0) [⟨e.size, given e.size⟩]

/-- The size of a new write buffer. -/
def growTo (need : ℕ) : ℕ := if need * 2 % 2 ^ 32 < 4096 then 4096 else need * 2 % 2 ^ 32

/-- The part of `sys_linux_write` that makes the buffer large enough; the error it returns, if any.
-/
def ensure (env : Env) (need : ℕ) (s : FileSt) : Option ℤ × FileSt × List Access :=
  let e := s.fd
  if e.wbufCap < need then
    let cap := growTo need
    match kmalloc env cap s.heap with
    | none => (some ENOMEM, s, [])
    | some (a, heap) =>
      let grown := { e with wbuf := some a, wbufCap := cap }
      match e.wbuf with
      | some b =>
          if 0 < e.size then
            (none, { s with fd := grown, heap := kfree (store heap a 0
              (firstOf s.heap b e.size)) b }, [⟨e.size, capOf s.heap b⟩, ⟨e.size, given cap⟩])
          else (none, { s with fd := grown, heap := kfree heap b }, [])
      | none =>
          if 0 < e.size then
            match vfsRead env s e.size with
            | none => (some EIO, s, [⟨e.size, given cap⟩])
            | some d => (none, { s with fd := grown, heap := store heap a 0 d }, [⟨e.size, given cap⟩])
          else (none, { s with fd := grown, heap := heap }, [])
  else
    match e.wbuf with
    | some _ => (none, s, [])
    | none =>
      match kmalloc env 4096 s.heap with
      | none => (some ENOMEM, s, [])
      | some (a, heap) => (none, { s with fd := { e with wbuf := some a, wbufCap := 4096 }, heap := heap }, [])

/-- How many of `n` bytes are copied from the user. -/
def copyLen (env : Env) (n : ℕ) : ℕ := min (env.copied.getD n) n

/-- The part of `sys_linux_write` that copies the user's bytes. -/
def put (env : Env) (data : List UInt8) (n : ℕ) (s : FileSt) (used : List Access) : Out :=
  let e := s.fd
  let a := e.wbuf.getD 0
  let used := used ++ if copyLen env n = 0 then [] else [⟨e.offset + copyLen env n, capOf s.heap a⟩]
  match env.copied with
  | some m => { ret := EFAULT, st := { s with heap := store s.heap a e.offset ((data.take n).take m) }, used }
  | none =>
      let offset := (e.offset + n) % 2 ^ 32
      { ret := data.length
        st := { s with
          heap := store s.heap a e.offset (data.take n)
          fd := { e with offset := offset, size := if e.size < offset then offset else e.size } }
        used }

/-- `sys_linux_write`; the console takes what can be copied. -/
def sysWrite (env : Env) (data : List UInt8) (s : FileSt) : Out :=
  if data = [] then { ret := 0, st := s }
  else if s.fd.flags.tty then { ret := env.tty, st := s }
  else
    let n := data.length % 2 ^ 32
    match ensure env ((s.fd.offset + n) % 2 ^ 32) s with
    | (some err, s, used) => { ret := err, st := s, used }
    | (none, s, used) => put env data n s used

def fdFlush (env : Env) (s : FileSt) : FileSt × List Access :=
  match s.fd.wbuf with
  | none => (s, [])
  | some b =>
      if 0 < s.fd.size ∧ s.fd.path ≠ [] then
        ({ vfsWrite env s (firstOf s.heap b s.fd.size) with
            heap := kfree s.heap b, fd := { s.fd with wbuf := none, wbufCap := 0 } },
          [⟨s.fd.size, capOf s.heap b⟩])
      else (s, [])

def fdCloseEntry (env : Env) (s : FileSt) : FileSt × List Access :=
  if s.fd.flags.used = false then (s, [])
  else
    let (s, used) := fdFlush env { s with fd := { s.fd with flags := {} } }
    ({ s with fd := { s.fd with wbuf := none, wbufCap := 0 } }, used)

def sysFsync (env : Env) (s : FileSt) : Out :=
  match s.fd.wbuf with
  | none => { ret := 0, st := s }
  | some b =>
      if 0 < s.fd.size ∧ s.fd.path ≠ [] then
        { ret := 0, st := vfsWrite env s (firstOf s.heap b s.fd.size), used := [⟨s.fd.size, capOf s.heap b⟩] }
      else { ret := 0, st := s }

/-- The bytes that `sys_linux_ftruncate` writes; what `vfs_read_file` does not fill is left over. -/
def truncated (env : Env) (s : FileSt) (newlen : ℕ) : List UInt8 :=
  let copy := if 0 < s.fd.size ∧ 0 < newlen ∧ env.filebuf then min s.fd.size newlen else 0
  let old := (vfsRead env s s.fd.size).getD []
  (List.range newlen).map fun i => if i < copy then old.getD i (env.junk i) else 0

def sysFtruncate (env : Env) (length : ℤ) (s : FileSt) : Out :=
  if length < 0 then { ret := EINVAL, st := s }
  else if env.kbuf = false ∨ (length.toNat % 2 ^ 32 + 1) % 2 ^ 32 = 0 then { ret := ENOMEM, st := s }
  else
    let newlen := length.toNat % 2 ^ 32
    let s' := vfsWrite env s (truncated env s newlen)
    { ret := 0
      st := { s' with fd := { s'.fd with size := newlen } }
      used := if 0 < s.fd.size ∧ 0 < newlen ∧ env.filebuf then [⟨s.fd.size, given s.fd.size⟩] else [] }

def sysLseek (offset whence : ℤ) (s : FileSt) : Out :=
  match seekPos s.fd.entry offset whence with
  | none => { ret := EINVAL, st := s }
  | some pos =>
      if pos < 0 then { ret := EINVAL, st := s }
      else { ret := pos, st := { s with fd := { s.fd with offset := pos.toNat % 2 ^ 32 } } }

def sysPread (off : ℤ) (io : FileSt → Out) (s : FileSt) : Out :=
  let f := s.fd.flags
  if f.tty ∨ f.pipeR ∨ f.pipeW ∨ f.sock then { ret := ESPIPE, st := s }
  else if off < 0 then { ret := EINVAL, st := s }
  else
    let out := io { s with fd := { s.fd with offset := off.toNat % 2 ^ 32 } }
    { out with st := { out.st with fd := { out.st.fd with offset := s.fd.offset } } }

end ComputerOS.Linux.Files
