import ComputerOS.Fat32.Model
import ComputerOS.Lib.Fallible

/-!
The operations of the FAT32 driver, on a device that does not fail. `n` bounds the clusters of a
directory that are walked; a chain without a cycle is shorter than the table. The heap gives its
answers in turn.
-/
namespace ComputerOS.Fat32

open Fallible Function

structure St where
  vol : Vol
  cwd : ℕ
  heap : ℕ → Bool

abbrev M := Fallible St

def kmalloc : M Bool := mk fun s => (some (s.heap 0), { s with heap := fun i => s.heap (i + 1) })

def getVol : M Vol := mk fun s => (some s.vol, s)

def setVol (f : Vol → Vol) : M Unit := modify fun s => { s with vol := f s.vol }

/-- Go on only with a buffer. -/
def needBuf : M Unit := do
  if ← kmalloc then pure () else fail

/-- A run of `dir_each_lfn` with its two buffers. -/
def lookup (find : Vol → Option Visit) : M (Option Visit) := do
  if ← kmalloc then
    if ← kmalloc then
      let v ← getVol
      pure (find v)
    else pure none
  else pure none

variable (g : Geom) (n : ℕ)

def isFree (v : Vol) (c : ℕ) : Bool := v.fat c % 2 ^ 28 = FAT32_FREE

/-- `fat32_alloc_cluster`; `none` is the return value 0. -/
def allocCluster : M (Option ℕ) := do
  let v ← getVol
  match (List.range' 2 (g.fatEntries - 2)).find? (isFree v) with
  | some c => do
      setVol (setEntry g c FAT32_EOC)
      pure (some c)
  | none => pure none

/-- The loop of `fat32_free_chain`, at most `safety` times, and the entry after it. -/
def freeLoop : ℕ → ℕ → Vol → Vol
  | safety, c, v =>
      if 2 ≤ c ∧ isEndOfChain c = false then
        match safety with
        | 0 => v
        | safety + 1 => freeLoop safety (getEntry g v c) (setEntry g c FAT32_FREE v)
      else if 2 ≤ c ∧ isEndOfChain c then setEntry g c FAT32_FREE v else v

def freeChain (start : ℕ) : M Unit := setVol (freeLoop g (g.totalClusters + 2) start)

def extendChain (last : ℕ) : M (Option ℕ) := do
  match ← allocCluster g with
  | none => pure none
  | some c => do
      setVol fun v => setEntry g c FAT32_EOC (setEntry g last c v)
      pure (some c)

def flushFat : M Unit := setVol fun v => { v with copies := fun i => if i < g.numFats then v.fat else v.copies i }

def writeCluster (c : ℕ) (cell : Mem) : M Unit := setVol fun v => { v with disk := update v.disk c cell }

/-- A slot that may be taken. -/
def slotFree (e : Mem) : Bool := e 0 = 0xE5 || e 0 = 0

/-- The chunk of a directory, as `dir_read_chunk` reads it. -/
def chunkOf (v : Vol) (c : ℕ) : Mem := v.disk (realCluster g c)

def writeChunk (c : ℕ) (cell : Mem) : M Unit := writeCluster (realCluster g c) cell

/-- A cluster of zeros at the end of a directory. -/
def growDir (last : ℕ) : M (ℕ × ℕ) := do
  match ← extendChain g (realCluster g last) with
  | none => fail
  | some c => do
      writeCluster c fun _ => 0
      pure (c, 0)

def dirAllocSlot (dir : ℕ) : M (ℕ × ℕ) := do
  needBuf
  let v ← getVol
  match ((chain g v n dir).flatMap (slotsIn g v)).find? fun p => slotFree p.entry with
  | some p => pure (p.chunk, p.idx)
  | none => growDir g ((chain g v n dir).getLastD dir)

def freeRun (cell : Mem) (count : ℕ) : Option ℕ :=
  (List.range (entriesPerCluster g)).find? fun i =>
    i + count ≤ entriesPerCluster g ∧ ∀ j < count, slotFree (slotOf cell (i + j))

/-- A chunk whose end marks are turned into free slots. -/
def unmarkEnd (cell : Mem) : Mem := fun j =>
  if j % 32 = 0 ∧ j / 32 < entriesPerCluster g ∧ cell j = 0 then 0xE5 else cell j

/-- The loop of `dir_alloc_slots` over the chunks of a directory. -/
def allocSlotsLoop (count : ℕ) : List ℕ → M (Option (ℕ × ℕ))
  | [] => pure none
  | c :: rest => do
      let v ← getVol
      match freeRun g (chunkOf g v c) count with
      | some i => pure (some (c, i))
      | none => do
          if (List.range (entriesPerCluster g)).any (fun i => chunkOf g v c (32 * i) = 0) then
            writeChunk g c (unmarkEnd g (chunkOf g v c))
          allocSlotsLoop count rest

def dirAllocSlots (dir count : ℕ) : M (ℕ × ℕ) := do
  needBuf
  let v ← getVol
  match ← allocSlotsLoop g count (chain g v n dir) with
  | some p => pure p
  | none => growDir g ((chain g v n dir).getLastD dir)

def dirPutEntry (chunk idx : ℕ) (e : Mem) : M Unit := do
  needBuf
  let v ← getVol
  writeChunk g chunk (putSlot (chunkOf g v chunk) idx e)

/-- How many long name entries stand right before a slot, down to the start of the chunk. -/
def lfnBefore (cell : Mem) : ℕ → ℕ
  | 0 => 0
  | j + 1 =>
      let e := slotOf cell j
      if slotFree e ∨ attr e ≠ ATTR_LFN then 0 else lfnBefore cell j + 1

/-- The slot and the long name entries before it, marked as deleted. -/
def eraseSlots (cell : Mem) (idx : ℕ) : Mem := fun j =>
  if j % 32 = 0 ∧ idx - lfnBefore cell idx ≤ j / 32 ∧ j / 32 ≤ idx then 0xE5 else cell j

def dirDeleteSlot (chunk idx : ℕ) : M Unit := do
  needBuf
  let v ← getVol
  writeChunk g chunk (eraseSlots (chunkOf g v chunk) idx)

/-- An entry whose other fields are 0. -/
def newEntry (raw83 : Str) (attr cluster size : ℕ) : Mem :=
  (((Mem.setLE (fun j => if j < 11 then raw83.getD j 0 else 0) 11 1 attr).setLE 20 2
    (cluster / 2 ^ 16)).setLE 26 2 cluster).setLE 28 4 size

def lfnChecksum (name83 : Str) : ℕ :=
  name83.foldl (fun sum c => (sum % 2 * 128 + sum / 2 + c.toNat) % 256) 0

def lfnChar (name : Str) (ci : ℕ) : ℕ :=
  if ci < name.length then (name.getD ci 0).toNat else if ci = name.length then 0 else 0xFFFF

def lfnEntry (name : Str) (checksum segs seg : ℕ) : Mem :=
  let chars := (List.range 13).map fun i => lfnChar name (seg * 13 + i)
  let order := seg + 1 + if seg + 1 = segs then 0x40 else 0
  ([1, 3, 5, 7, 9, 14, 16, 18, 20, 22, 24, 28, 30].zip chars).foldl (fun e p => e.setLE p.1 2 p.2)
    (((((Mem.setLE (fun _ => 0xFF) 0 1 order).setLE 11 1 ATTR_LFN).setLE 12 1 0).setLE 13 1 checksum).setLE 26 2 0)

def lfnEntryCount (len : ℕ) : ℕ := (len + 12) / 13

/-- `lfn_write_entries`: the last segment comes first. -/
def lfnWriteEntries (cell : Mem) (start segs : ℕ) (name : Str) (checksum : ℕ) : Mem :=
  (List.range segs).foldl (fun cell k =>
    if start + k < entriesPerCluster g then putSlot cell (start + k) (lfnEntry name checksum segs (segs - 1 - k))
    else cell) cell

/-- The first number from `t` on whose short name is not taken. -/
def freeAlias (dir : ℕ) (name : Str) : ℕ → ℕ → M ℕ
  | 0, _ => fail
  | fuel + 1, t => do
      match ← lookup fun v => dirFind g v n dir (build83Tail name t) with
      | none => pure t
      | some _ => freeAlias dir name fuel (t + 1)

def dirInsertNamed (dir : ℕ) (name : Str) (ne : Str → Mem) : M Unit := do
  if needsLfn name = false then
    let p ← dirAllocSlot g n dir
    dirPutEntry g p.1 p.2 (ne (build83 name))
  else
    let t ← freeAlias g n dir name 999 1
    let raw83 := build83Tail name t
    let segs := lfnEntryCount name.length
    let p ← dirAllocSlots g n dir (segs + 1)
    needBuf
    let v ← getVol
    let cell := lfnWriteEntries g (chunkOf g v p.1) p.2 segs name (lfnChecksum raw83)
    if entriesPerCluster g ≤ p.2 + segs then fail
    else writeChunk g p.1 (putSlot cell (p.2 + segs) (ne raw83))

def resolveComponent (dir : ℕ) (comp : Str) : M ℕ := do
  if comp = [46] then pure dir
  else
    let found ← lookup fun v => resolveFinds g v n dir comp
    if comp = [46, 46] then
      match found with
      | none => pure 0
      | some w =>
          let c := entryCluster w.entry
          pure (if c = g.rootCluster ∨ c = 0 then 0 else c)
    else
      match found with
      | none => fail
      | some w =>
          if isDirectory w.entry then
            let c := entryCluster w.entry
            pure (if c = g.rootCluster then 0 else c)
          else fail

/-- The components of a path that are walked, each cut to 255 bytes. -/
def walked (path : Str) : List Str := ((path.splitOn 47).filter (· ≠ [])).map (·.take 255)

def resolveDir (path : Str) : M ℕ := do
  let s ← get
  (walked path).foldlM (resolveComponent g n) (if path.head? = some 47 then 0 else s.cwd)

/-- The parent directory of a path and the last name, cut to 255 bytes. -/
def resolveParent (path : Str) : M (ℕ × Str) := do
  let s ← get
  if 47 ∈ path then
    let base := (path.reverse.takeWhile (· ≠ 47)).reverse
    let slash := path.length - base.length - 1
    let plen := if 0 < slash then slash else 1
    if 256 ≤ plen then fail
    else do
      let parent ← resolveDir g n (path.take plen)
      pure (parent, base.take 255)
  else pure (s.cwd, path.take 255)

/-- The loop of `fat32_read_file`. -/
def readLoop (v : Vol) : ℕ → ℕ → ℕ → Str
  | 0, _, _ => []
  | fuel + 1, c, remaining =>
      if 0 < remaining ∧ 2 ≤ c ∧ isEndOfChain c = false then
        (List.range (min remaining g.bytesPerCluster)).map (v.disk c) ++
          readLoop v fuel (getEntry g v c) (remaining - min remaining g.bytesPerCluster)
      else []

/-- The first `max` bytes of the file of an entry. -/
def contentOf (v : Vol) (e : Mem) (max : ℕ) : Str :=
  let size := if entrySize e < max then entrySize e else max
  readLoop g v size (entryCluster e) size

def fat32ReadFile (path : Str) (max : ℕ) : M Str := do
  let p ← resolveParent g n path
  match ← lookup fun v => readFinds g v n p.1 p.2 with
  | none => fail
  | some w =>
      if isDirectory w.entry then fail
      else do
        needBuf
        let v ← getVol
        pure (contentOf g v w.entry max)

/-- A cluster that holds the given bytes and then zeros. -/
def cellOf (data : Str) : Mem := fun j => data.getD j 0

/-- The loop of `fat32_write_file`; `first` and `last` are 0 before the first cluster. -/
def writeLoop : ℕ → Str → ℕ → ℕ → M ℕ
  | 0, _, first, _ => pure first
  | fuel + 1, data, first, last => do
      if data = [] then pure first
      else
        match ← allocCluster g with
        | none => fail
        | some c => do
            if first ≠ 0 then setVol (setEntry g last c)
            setVol (setEntry g c FAT32_EOC)
            writeCluster c (cellOf (data.take g.bytesPerCluster))
            writeLoop fuel (data.drop g.bytesPerCluster) (if first = 0 then c else first) c

/-- `fat32_write_file` in a directory. -/
def writeIn (dir : ℕ) (name data : Str) : M ℕ := do
  let found ← lookup fun v => writeFinds g v n dir name
  if found.any fun w => isDirectory w.entry then fail
  else do
    match found with
    | some w => if 2 ≤ entryCluster w.entry then freeChain g (entryCluster w.entry)
    | none => pure ()
    needBuf
    let first ← writeLoop g data.length data 0 0
    match found with
    | some w => dirPutEntry g w.chunk w.idx (newEntry (shortName w.entry) ATTR_ARCHIVE first data.length)
    | none => dirInsertNamed g n dir name fun raw83 => newEntry raw83 ATTR_ARCHIVE first data.length
    flushFat g
    pure data.length

def fat32WriteFile (path data : Str) : M ℕ := do
  let p ← resolveParent g n path
  writeIn g n p.1 p.2 data

/-- `fat32_delete_file` in a directory; whether `dir_delete_slot` had a buffer is not checked. -/
def deleteIn (dir : ℕ) (name : Str) : M Unit := do
  match ← lookup fun v => deleteFinds g v n dir name with
  | none => fail
  | some w =>
      if isDirectory w.entry then fail
      else do
        if 2 ≤ entryCluster w.entry then freeChain g (entryCluster w.entry)
        let _ ← attempt (dirDeleteSlot g w.chunk w.idx)
        flushFat g

def fat32DeleteFile (path : Str) : M Unit := do
  let p ← resolveParent g n path
  deleteIn g n p.1 p.2

/-- The first cluster of a new directory. -/
def newDir (c parent : ℕ) : Mem :=
  putSlot (putSlot (fun _ => 0) 0 (newEntry (padTo 11 [46]) ATTR_DIRECTORY c 0)) 1
    (newEntry (padTo 11 [46, 46]) ATTR_DIRECTORY (if parent = 0 then g.rootCluster else parent) 0)

/-- `fat32_mkdir` in a directory. -/
def mkdirIn (dir : ℕ) (name : Str) : M Unit := do
  let found ← lookup fun v => dirFindLfn g v n dir (build83 name) name
  if found.isSome then fail
  else
    match ← allocCluster g with
    | none => fail
    | some c => do
        needBuf
        writeCluster c (newDir g c dir)
        match ← attempt (dirInsertNamed g n dir name fun raw83 => newEntry raw83 ATTR_DIRECTORY c 0) with
        | some _ => flushFat g
        | none => do
            setVol (setEntry g c FAT32_FREE)
            fail

def fat32Mkdir (path : Str) : M Unit := do
  let p ← resolveParent g n path
  mkdirIn g n p.1 p.2

/-- What `rmdir_count_cb` counts: an entry that is not free, no long name, and does not begin
with a dot. -/
def counts (e : Mem) : Bool := !slotFree e && attr e ≠ ATTR_LFN && e 0 ≠ 46

/-- A run of `dir_each` with `rmdir_count_cb`; without a buffer nothing is counted. -/
def dirBusy (dir : ℕ) : M Bool := do
  if ← kmalloc then
    let v ← getVol
    pure ((((chain g v n dir).flatMap (slotsIn g v)).takeWhile fun p => p.entry 0 ≠ 0).any fun p => counts p.entry)
  else pure false

def fat32Rmdir (path : Str) : M Unit := do
  let p ← resolveParent g n path
  if p.2 = [46] ∨ p.2 = [46, 46] then fail
  else
    match ← lookup fun v => rmdirFinds g v n p.1 p.2 with
    | none => fail
    | some w =>
        if isDirectory w.entry = false then fail
        else if ← dirBusy g n (entryCluster w.entry) then fail
        else do
          freeChain g (entryCluster w.entry)
          let _ ← attempt (dirDeleteSlot g w.chunk w.idx)
          flushFat g

/-- The path that `fat32_cp` and `fat32_mv` write to: under `dst` if it is a directory. -/
def dstPath (dst base : Str) : M Str := do
  match ← attempt (resolveDir g n dst) with
  | some _ => if 256 ≤ dst.length + 1 + base.length then fail else pure (dst ++ 47 :: base)
  | none => if 256 ≤ dst.length then fail else pure dst

/-- `fat32_mv`; the branch for directories is never reached. -/
def fat32Mv (src dst : Str) : M Unit := do
  let p ← resolveParent g n src
  match ← lookup fun v => mvFinds g v n p.1 p.2 with
  | none => fail
  | some w =>
      if isDirectory w.entry then fail
      else do
        let path ← dstPath g n dst p.2
        let q ← resolveParent g n path
        let slot ← dirAllocSlot g n q.1
        let raw83 := build83 q.2
        dirPutEntry g slot.1 slot.2 fun j => if j < 11 then raw83.getD j 0 else w.entry j
        dirDeleteSlot g w.chunk w.idx
        flushFat g

end ComputerOS.Fat32
