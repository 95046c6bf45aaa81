import ComputerOS.Cfs.Dir

/-!
The public operations of CFS on paths. Each mutating call runs its body inside a
transaction: a negative result aborts it, any other result commits it. The caller's
identity and the clock are parameters; every body reads the clock at most once.
-/
namespace ComputerOS.Cfs

open M Bytes

/-- Who calls, and what `cfs_now_ns` answers during the call. -/
structure Env where
  uid : ℕ
  gid : ℕ
  now : ℕ

def CFS_R : ℕ := 4
def CFS_W : ℕ := 2
def CFS_X : ℕ := 1

def mayAccess (env : Env) (d : DInode) (want : ℕ) : Bool :=
  if env.uid = 0 then true
  else
    let perm := if env.uid = d.uid then (d.mode >>> 6) &&& 7
      else if env.gid = d.gid then (d.mode >>> 3) &&& 7
      else d.mode &&& 7
    perm &&& want = want

/-- `(int)x` for a 32-bit unsigned `x`. -/
def toInt32 (x : ℕ) : ℤ := if x % 2 ^ 32 < 2 ^ 31 then (x % 2 ^ 32 : ℕ) else (x % 2 ^ 32 : ℕ) - 2 ^ 32

def cfsIsDir (path : List UInt8) : M Bool := do
  let ino ← resolveIno path
  if ino = 0 then pure false
  else match ← attempt (readDinode ino) with
    | none => pure false
    | some d => pure d.isDir

structure Stat where
  mode : ℕ
  uid : ℕ
  gid : ℕ
  size : ℕ
  flags : ℕ
  deriving DecidableEq

def statOf (d : DInode) : Stat :=
  { mode := d.mode, uid := d.uid, gid := d.gid, size := d.size, flags := d.flags }

def cfsStat (path : List UInt8) : M Stat := do
  let ino ← resolveIno path
  ensure (ino ≠ 0)
  let d ← readDinode ino
  pure (statOf d)

/-- `vfs_dirent_t`: the fields `cfs_list` fills. -/
structure Listed where
  name : Name
  size : ℕ
  attr : ℕ
  deriving DecidableEq

def listRecord (blk : Block) (off : ℕ) : M Listed := do
  match ← attempt (readDinode (Dirent.inode blk off)) with
  | none => pure { name := Dirent.name blk off, size := 0, attr := 0 }
  | some cd => pure { name := Dirent.name blk off, size := cd.size % 2 ^ 32,
                      attr := if cd.isDir then 16 else 0 }

def listRecords (blk : Block) (max : ℕ) : List ℕ → ℕ → M (List Listed)
  | [], _ => pure []
  | off :: offs, n =>
      if max ≤ n then pure []
      else if Dirent.inode blk off = 0 ∨ isDots blk off then listRecords blk max offs n
      else do
        let e ← listRecord blk off
        let rest ← listRecords blk max offs (n + 1)
        pure (e :: rest)

def listBlocks (d : DInode) (max : ℕ) : List ℕ → ℕ → M (List Listed)
  | [], _ => pure []
  | fb :: fbs, n =>
      if max ≤ n then pure []
      else if mapFileblock d fb = 0 then listBlocks d max fbs n
      else do
        let blk ← bdReadBlock (mapFileblock d fb)
        let front ← listRecords blk max (dirRecs blk 0) n
        let rest ← listBlocks d max fbs (n + front.length)
        pure (front ++ rest)

def cfsList (env : Env) (path : List UInt8) (max : ℕ) : M (List Listed) := do
  let ino ← resolveIno path
  ensure (ino ≠ 0)
  let d ← readDinode ino
  ensure (d.isDir = true)
  ensure (mayAccess env d CFS_R = true)
  listBlocks d max (List.range (d.size / 4096)) 0

/-- One piece of the read loop: a hole reads as zeroes. -/
def readChunk (pb within chunk : ℕ) : M (List UInt8) :=
  if pb = 0 then pure (List.replicate chunk 0)
  else do
    let buf ← rawReadBlock pb
    pure (buf.slice within chunk)

/-- The loop over the blocks of a regular file. -/
def readChunks (d : DInode) (offset len done : ℕ) : M (List UInt8) :=
  if done < len then do
    let pos := (offset + done) % 2 ^ 32
    let chunk := min (4096 - pos % 4096) (len - done)
    let bytes ← readChunk (mapFileblock d (pos / 4096)) (pos % 4096) chunk
    let rest ← readChunks d offset len (done + chunk)
    pure (bytes ++ rest)
  else pure []
  termination_by len - done
  decreasing_by
    have : (offset + done) % 2 ^ 32 % 4096 < 4096 := Nat.mod_lt _ (by omega)
    omega

/-- The target of a symlink: in the inode, or in its first block. -/
def linkTarget (d : DInode) : M (List UInt8) :=
  if d.nextents = 0 then pure (d.extentBytes (d.size % 2 ^ 32))
  else do
    let buf ← rawReadBlock (d.extentStart 0)
    pure (buf.slice 0 (d.size % 2 ^ 32))

/-- The part of `cfs_read_at` after the inode is found. -/
def readInode (env : Env) (d : DInode) (offset len : ℕ) : M (List UInt8) :=
  if d.isLnk then do
    let tgt ← linkTarget d
    let total := (10 + d.size % 2 ^ 32) % 2 ^ 32
    pure (((VFS_SYMLINK_MAGIC ++ tgt).drop offset).take (min len (total - offset)))
  else do
    ensure (d.isDir = false)
    ensure (mayAccess env d CFS_R = true)
    if d.size ≤ offset then pure []
    else if d.isInline then
      pure (d.slice (76 + offset) (min len (sub32 (d.size % 2 ^ 32) offset)))
    else readChunks d offset (min len (d.size - offset)) 0

/-- `cfs_read_at`: the bytes it stores in the caller's buffer. -/
def cfsReadAt (env : Env) (path : List UInt8) (offset len : ℕ) : M (List UInt8) := do
  let ino ← resolveIno path
  ensure (ino ≠ 0)
  let d ← readDinode ino
  readInode env d offset len

def isLink (data : List UInt8) : Bool := 10 ≤ data.length ∧ data.take 10 = VFS_SYMLINK_MAGIC

/-- The last assignments to a written file's inode. -/
def touch (d : DInode) (size now : ℕ) : DInode :=
  let d := ((d.setSize size).setMtime now).setCtime now
  if d.atime = 0 then d.setAtime now else d

def newFileInode (env : Env) (mode : ℕ) : DInode :=
  ((((DInode.setMode zero mode).setUid env.uid).setGid env.gid).setLinks 1).setCrtime env.now

/-- The target inode of a write, truncated or newly created in the parent. -/
def openForWrite (env : Env) (parent : ℕ) (pdin : DInode) (leaf : Name) (mode ftype : ℕ) :
    M (ℕ × DInode) := do
  let ino ← dirLookup pdin leaf
  if ino ≠ 0 then do
    let din ← readDinode ino
    ensure (din.isDir = false)
    ensure (mayAccess env din CFS_W = true)
    let din ← inodeFreeData din
    pure (ino, din.setMode mode)
  else do
    ensure (mayAccess env pdin (CFS_W + CFS_X) = true)
    let ino ← allocInode
    ensure (ino ≠ 0)
    let pdin ← orUndo (dirAdd pdin leaf ino ftype) (freeInode ino)
    writeDinode parent pdin
    pure (ino, newFileInode env mode)

/-- Store a symlink target: in the inode, or in a block of its own. -/
def storeTarget (din : DInode) (target : List UInt8) : M DInode :=
  if target.length ≤ 144 then pure ((din.setExtentBytes target).setNextents 0)
  else do
    let b ← allocBlock
    ensure (b ≠ 0)
    rawWriteBlock b (zero.put 0 target)
    pure (((din.setNextents 1).setExtentStart 0 b).setExtentCount 0 1)

def chunkBlock (data : List UInt8) (fb : ℕ) : Block := zero.put 0 ((data.drop (fb * 4096)).take 4096)

/-- The loop over the data blocks of a large file. -/
def writeBlocks (data : List UInt8) : List ℕ → DInode → M DInode
  | [], din => pure din
  | fb :: fbs, din => do
      let b ← allocBlock
      ensure (b ≠ 0)
      rawWriteBlock b (chunkBlock data fb)
      match inodePushExtent din b 1 with
      | none => fail
      | some din => writeBlocks data fbs din

/-- Store the contents: symlink, inline file or data blocks. -/
def storeData (din : DInode) (data : List UInt8) : M DInode :=
  if isLink data then storeTarget din (data.drop 10)
  else if data.length ≤ CFS_INLINE_MAX then
    pure (((din.setExtentBytes data).setFlags (din.flags ||| CFS_FL_INLINE)).setNextents 0)
  else
    writeBlocks data (List.range ((data.length + 4095) % 2 ^ 32 / 4096))
      (din.setFlags (din.flags &&& (2 ^ 32 - 1 - CFS_FL_INLINE)))

def writeMode (data : List UInt8) : ℕ :=
  if isLink data then CFS_S_IFLNK + 0o777 else CFS_S_IFREG + 0o644

/-- The type in the directory entry of a new file. -/
def writeType (data : List UInt8) : ℕ := if isLink data then CFS_FT_LNK else CFS_FT_REG

/-- The size recorded in the inode: a symlink counts without the magic. -/
def writeSize (data : List UInt8) : ℕ := if isLink data then data.length - 10 else data.length

def doWriteFile (env : Env) (path data : List UInt8) : M ℤ := do
  let (parent, leaf) ← resolveParent path
  let pdin ← readDinode parent
  ensure (isLink data = true → data.length - 10 ≤ 4095)
  let (ino, din) ← openForWrite env parent pdin leaf (writeMode data) (writeType data)
  let din ← storeData din data
  writeDinode ino (touch din (writeSize data) env.now)
  syncSuper
  pure (toInt32 data.length)

/-- The inode of a new directory whose first block is `b`. -/
def newDirInode (env : Env) (b : ℕ) : DInode :=
  let d : DInode :=
    (((DInode.setMode zero (CFS_S_IFDIR + 0o755)).setUid env.uid).setGid env.gid).setLinks 2
  let d : DInode := (((d.setAtime env.now).setMtime env.now).setCtime env.now).setCrtime env.now
  (((d.setSize 4096).setNextents 1).setExtentStart 0 b).setExtentCount 0 1

def doMkdir (env : Env) (path : List UInt8) : M ℤ := do
  let (parent, leaf) ← resolveParent path
  let pdin ← readDinode parent
  ensure (mayAccess env pdin (CFS_W + CFS_X) = true)
  let old ← dirLookup pdin leaf
  ensure (old = 0)
  let ino ← allocInode
  ensure (ino ≠ 0)
  let b ← allocBlock
  if b = 0 then do
    freeInode ino
    fail
  else do
    rawWriteBlock b (dirInitBlock ino parent)
    writeDinode ino (newDirInode env b)
    let pdin ← orUndo (dirAdd pdin leaf ino CFS_FT_DIR) do
      freeBlock b
      freeInode ino
    writeDinode parent (((pdin.setLinks (pdin.links + 1)).setMtime env.now).setCtime env.now)
    syncSuper
    pure 0

def doRmdir (env : Env) (path : List UInt8) : M ℤ := do
  let (parent, leaf) ← resolveParent path
  let pdin ← readDinode parent
  ensure (mayAccess env pdin (CFS_W + CFS_X) = true)
  let ino ← dirLookup pdin leaf
  ensure (ino ≠ 0)
  let din ← readDinode ino
  ensure (din.isDir = true)
  let empty ← dirIsEmpty din
  ensure (empty = true)
  dirRemove pdin leaf
  writeDinode parent (((pdin.setLinks (pdin.links - 1)).setMtime env.now).setCtime env.now)
  let _ ← inodeFreeData din
  freeInode ino
  syncSuper
  pure 0

/-- The end of `do_unlink`: drop one link, and the inode with the last one. -/
def dropLink (ino : ℕ) (din : DInode) : M Unit :=
  if din.links = 0 then do
    let _ ← inodeFreeData din
    freeInode ino
  else do
    let _ ← attempt (writeDinode ino din)

def doUnlink (env : Env) (path : List UInt8) : M ℤ := do
  let (parent, leaf) ← resolveParent path
  let pdin ← readDinode parent
  ensure (mayAccess env pdin (CFS_W + CFS_X) = true)
  let ino ← dirLookup pdin leaf
  ensure (ino ≠ 0)
  let din ← readDinode ino
  ensure (din.isDir = false)
  dirRemove pdin leaf
  writeDinode parent ((pdin.setMtime env.now).setCtime env.now)
  dropLink ino (din.setLinks (din.links - 1))
  syncSuper
  pure 0

def doLink (env : Env) (oldpath newpath : List UInt8) : M ℤ := do
  let oino ← resolveIno oldpath
  ensure (oino ≠ 0)
  let od ← readDinode oino
  ensure (od.isDir = false)
  let (parent, leaf) ← resolveParent newpath
  let pd ← readDinode parent
  ensure (mayAccess env pd (CFS_W + CFS_X) = true)
  let old ← dirLookup pd leaf
  ensure (old = 0)
  let pd ← dirAdd pd leaf oino (if od.isLnk then CFS_FT_LNK else CFS_FT_REG)
  writeDinode parent pd
  writeDinode oino ((od.setLinks (od.links + 1)).setCtime env.now)
  pure 0

def doChmod (env : Env) (path : List UInt8) (newperm : ℕ) : M ℤ := do
  let ino ← resolveIno path
  ensure (ino ≠ 0)
  let d ← readDinode ino
  ensure (env.uid = 0 ∨ env.uid = d.uid)
  writeDinode ino
    ((d.setMode ((d.mode &&& CFS_S_IFMT) ||| (newperm &&& 0o7777))).setCtime env.now)
  pure 0

/-- A `uid` or `gid` of `(uint32_t)-1` leaves that field alone. -/
def doChown (env : Env) (path : List UInt8) (uid gid : ℕ) : M ℤ := do
  ensure (env.uid = 0)
  let ino ← resolveIno path
  ensure (ino ≠ 0)
  let d ← readDinode ino
  let d := if uid ≠ 2 ^ 32 - 1 then d.setUid uid else d
  let d := if gid ≠ 2 ^ 32 - 1 then d.setGid gid else d
  writeDinode ino (d.setCtime env.now)
  pure 0

/-- Every public mutating function: the body inside one transaction. -/
def inTxn (body : M ℤ) : M ℤ := do
  txnBegin
  match ← attempt body with
  | none => do
      txnAbort
      fail
  | some rc =>
      if rc < 0 then do
        txnAbort
        fail
      else do
        txnCommit
        pure rc

/-- The public mutating calls with their arguments. -/
inductive Call
  | writeFile (path data : List UInt8)
  | mkdir (path : List UInt8)
  | rmdir (path : List UInt8)
  | unlink (path : List UInt8)
  | link (oldpath newpath : List UInt8)
  | chmod (path : List UInt8) (perm : ℕ)
  | chown (path : List UInt8) (uid gid : ℕ)

def Call.body (env : Env) : Call → M ℤ
  | .writeFile path data => doWriteFile env path data
  | .mkdir path => doMkdir env path
  | .rmdir path => doRmdir env path
  | .unlink path => doUnlink env path
  | .link oldpath newpath => doLink env oldpath newpath
  | .chmod path perm => doChmod env path perm
  | .chown path uid gid => doChown env path uid gid

def cfsWriteFile (env : Env) (path data : List UInt8) : M ℤ := inTxn (doWriteFile env path data)
def cfsMkdir (env : Env) (path : List UInt8) : M ℤ := inTxn (doMkdir env path)
def cfsRmdir (env : Env) (path : List UInt8) : M ℤ := inTxn (doRmdir env path)
def cfsUnlink (env : Env) (path : List UInt8) : M ℤ := inTxn (doUnlink env path)
def cfsLink (env : Env) (oldpath newpath : List UInt8) : M ℤ := inTxn (doLink env oldpath newpath)
def cfsChmod (env : Env) (path : List UInt8) (perm : ℕ) : M ℤ := inTxn (doChmod env path perm)
def cfsChown (env : Env) (path : List UInt8) (uid gid : ℕ) : M ℤ := inTxn (doChown env path uid gid)

/-- One public mutating call. -/
def Call.exec (env : Env) : Call → M ℤ
  | .writeFile path data => cfsWriteFile env path data
  | .mkdir path => cfsMkdir env path
  | .rmdir path => cfsRmdir env path
  | .unlink path => cfsUnlink env path
  | .link oldpath newpath => cfsLink env oldpath newpath
  | .chmod path perm => cfsChmod env path perm
  | .chown path uid gid => cfsChown env path uid gid

theorem Call.exec_eq (env : Env) (c : Call) : c.exec env = inTxn (c.body env) := by
  cases c <;> rfl

def formatInodes (total : ℕ) : ℕ := if total / 8 < 64 then 64 else total / 8

def bitmapSpan (bits : ℕ) : ℕ := ((bits + 7) % 2 ^ 64 / 8 + 4095) % 2 ^ 64 / 4096

def tableSpan (inodes : ℕ) : ℕ := (inodes * CFS_INODE_SIZE % 2 ^ 64 + 4095) % 2 ^ 64 / 4096

/-- The regions in order: superblock, journal, block bitmap, inode bitmap, inode table. -/
def formatGeom (total journal : ℕ) : Geom :=
  let inodes := formatInodes total
  let bbmStart := (1 + journal) % 2 ^ 64
  let ibmStart := (bbmStart + bitmapSpan total) % 2 ^ 64
  let itStart := (ibmStart + bitmapSpan inodes) % 2 ^ 64
  { inodeSize := CFS_INODE_SIZE, totalBlocks := total, totalInodes := inodes,
    blockBitmapStart := bbmStart, inodeBitmapStart := ibmStart, inodeTableStart := itStart,
    dataStart := (itStart + tableSpan inodes) % 2 ^ 64, rootIno := CFS_ROOT_INO,
    journalStart := if journal ≠ 0 then 1 else 0, journalBlocks := journal, flags := CFS_FEAT_CSUM }

/-- The number fields of the superblock of a new volume. -/
def formatFields (g : Geom) (now : ℕ) : Block :=
  let sb : Block := ((((zero.setLE 0 4 CFS_MAGIC).setLE 4 4 CFS_VERSION).setLE 8 4 4096).setLE 12 4
    CFS_INODE_SIZE).setLE 16 8 g.totalBlocks
  let sb := ((sb.setLE 24 8 g.totalInodes).setLE 32 8 (g.totalBlocks - (g.dataStart + 1))).setLE 40 8
    (g.totalInodes - 2)
  let sb := (sb.setLE 48 8 g.blockBitmapStart).setLE 56 8 (bitmapSpan g.totalBlocks)
  let sb := (sb.setLE 64 8 g.inodeBitmapStart).setLE 72 8 (bitmapSpan g.totalInodes)
  let sb := (sb.setLE 80 8 g.inodeTableStart).setLE 88 8 (tableSpan g.totalInodes)
  let sb := (sb.setLE 96 8 g.dataStart).setLE 104 8 CFS_ROOT_INO
  let sb := (sb.setLE 112 8 g.journalStart).setLE 120 8 g.journalBlocks
  ((sb.setLE 128 4 CFS_STATE_CLEAN).setLE 132 4 CFS_FEAT_CSUM).setLE 136 4 (now / 1000000000)

/-- The superblock of a new volume, with its label and checksum. -/
def formatSuper (g : Geom) (label : List UInt8) (now : ℕ) : Block :=
  let sb := (formatFields g now).put 160 (label.take 31)
  sb.setLE 140 4 (superCsum sb)

/-- What `cfs_format` writes to 64 blocks with a journal of 34. -/
def formattedDisk (b : ℕ) : Block :=
  if b = 0 then formatSuper (formatGeom 64 34) [] 0
  else if b = 35 then zero.put 0 ([255, 255, 255, 255, 255, 3, 0, 0] ++ List.replicate 4088 255)
  else if b = 36 then zero.put 0 ([3, 0, 0, 0, 0, 0, 0, 0] ++ List.replicate 4088 255)
  else if b = 37 then zero.paste 256 (stamp CFS_FEAT_CSUM (newDirInode ⟨0, 0, 0⟩ 41))
  else if b = 41 then dirInitBlock 1 1
  else zero

end ComputerOS.Cfs
