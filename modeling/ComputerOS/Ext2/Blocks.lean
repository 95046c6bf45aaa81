import ComputerOS.Ext2.Cache

/-!
Bitmaps, block and inode allocation, inode records, and the block map of an inode. An inode in
memory is its 128 bytes on disk.
-/
namespace ComputerOS.Ext2

open Mem (clip)

open Prog

namespace Meta

variable (md : Meta) (g : Geom) (n grp : ℕ)

def sbFreeBlocks : ℕ := md.sb.getLE 12 4

def sbFreeInodes : ℕ := md.sb.getLE 16 4

def gdBlockBitmap : ℕ := md.gdt.getLE (32 * grp) 4

def gdInodeBitmap : ℕ := md.gdt.getLE (32 * grp + 4) 4

def gdInodeTable : ℕ := md.gdt.getLE (32 * grp + 8) 4

def gdFreeBlocks : ℕ := md.gdt.getLE (32 * grp + 12) 2

def gdFreeInodes : ℕ := md.gdt.getLE (32 * grp + 14) 2

def gdUsedDirs : ℕ := md.gdt.getLE (32 * grp + 16) 2

def setSbFreeBlocks : Meta := { md with sb := md.sb.setLE 12 4 n }

def setSbFreeInodes : Meta := { md with sb := md.sb.setLE 16 4 n }

def setGdFreeBlocks : Meta := { md with gdt := md.gdt.setLE (32 * grp + 12) 2 n }

def setGdFreeInodes : Meta := { md with gdt := md.gdt.setLE (32 * grp + 14) 2 n }

def setGdUsedDirs : Meta := { md with gdt := md.gdt.setLE (32 * grp + 16) 2 n }

/-- `gdt_mark_dirty`, and `sb_dirty = 1`. -/
def markDirty : Meta :=
  let b := 32 * grp / g.blockSize
  { md with
    sbDirty := true
    gdtDirty := some (match md.gdtDirty with
      | none => (b, b)
      | some (lo, hi) => (min b lo, max b hi)) }

end Meta

/-- Blocks `lo` to `hi` of the descriptors, each written around the cache; whether all went well. -/
def syncGdt (g : Geom) (gdt : Mem) : List ℕ → Prog Bool
  | [] => pure true
  | b :: l => do
      binval (g.gdtStart + b)
      let ok ← devWrite (g.gdtStart + b) 1 fun i => gdt (b * g.blockSize + i)
      let rest ← syncGdt g gdt l
      pure (ok && rest)

/-- The dirty descriptors go to disk. -/
def syncDescriptors (g : Geom) : Prog Bool := do
  let md ← getMeta
  match md.gdtDirty with
  | none => pure true
  | some (lo, hi) => do
      let ok ← syncGdt g md.gdt (List.range' lo (hi + 1 - lo))
      setMeta { md with gdtDirty := none }
      pure ok

def syncMeta (g : Geom) : Prog Bool := do
  let gdtOk ← syncDescriptors g
  let md ← getMeta
  if md.sbDirty then do
    let t ← now
    let sb := md.sb.setLE 48 4 t
    binval g.superBlock
    let ok ← superWrite sb
    setMeta { md with sb := sb, sbDirty := false }
    pure (gdtOk && ok)
  else pure gdtOk

namespace Geom

variable (g : Geom)

def groupOfIno (ino : ℕ) : ℕ := (ino - 1) / g.inodesPerGroup

/-- The last group is short. -/
def blocksInGroup (grp : ℕ) : ℕ :=
  if grp = g.groupCount - 1 then g.blocksCount - g.firstDataBlock - grp * g.blocksPerGroup else g.blocksPerGroup

end Geom

/-- The first zero bit below `nbits`; bytes of ones are skipped. -/
def zeroBit (bm : Mem) (nbits : ℕ) : Option ℕ :=
  (List.range ((nbits + 7) / 8)).findSome? fun byte =>
    if bm byte = 0xFF then none
    else (List.range 8).findSome? fun bit =>
      if nbits ≤ byte * 8 + bit then none
      else if bm.bit (byte * 8 + bit) then none
      else some (byte * 8 + bit)

def bitmapClaim (bitmapBlk nbits : ℕ) : Prog (Option ℕ) := do
  match ← bread bitmapBlk with
  | none => pure none
  | some bm =>
      match zeroBit bm nbits with
      | none => pure none
      | some i => do
          let ok ← bwrite bitmapBlk (bm.setBit i true)
          pure (if ok then some i else none)

/-- Clear a bit: whether it was set, `none` on an I/O error. -/
def bitmapRelease (bitmapBlk i : ℕ) : Prog (Option Bool) := do
  match ← bread bitmapBlk with
  | none => pure none
  | some bm =>
      if bm.bit i then do
        let ok ← bwrite bitmapBlk (bm.setBit i false)
        pure (if ok then some true else none)
      else pure (some false)

/-- The groups in the order in which an allocation for `goal` tries them. -/
def groupsFrom (g : Geom) (goal : ℕ) : List ℕ := (List.range g.groupCount).map fun k => (goal + k) % g.groupCount

def allocBlockIn (g : Geom) : List ℕ → Prog ℕ
  | [] => pure 0
  | grp :: l => do
      let md ← getMeta
      if md.gdFreeBlocks grp = 0 then allocBlockIn g l
      else do
        match ← bitmapClaim (md.gdBlockBitmap grp) (g.blocksInGroup grp) with
        | none => allocBlockIn g l
        | some i => do
            setMeta (((md.setGdFreeBlocks (md.gdFreeBlocks grp - 1) grp).setSbFreeBlocks
              (md.sbFreeBlocks - 1)).markDirty g grp)
            let blk := u32 (g.firstDataBlock + grp * g.blocksPerGroup + i)
            binval blk
            pure blk

/-- A block that is marked used now, 0 when the disk is full. -/
def allocBlock (g : Geom) (goal : ℕ) : Prog ℕ := do
  let md ← getMeta
  if md.sbFreeBlocks = 0 then pure 0 else allocBlockIn g (groupsFrom g goal)

def freeBlock (g : Geom) (blk : ℕ) : Prog Unit := do
  if blk < g.firstDataBlock ∨ g.blocksCount ≤ blk then pure ()
  else do
    let rel := blk - g.firstDataBlock
    let grp := rel / g.blocksPerGroup
    binval blk
    let md ← getMeta
    match ← bitmapRelease (md.gdBlockBitmap grp) (rel % g.blocksPerGroup) with
    | some true =>
        setMeta (((md.setGdFreeBlocks (md.gdFreeBlocks grp + 1) grp).setSbFreeBlocks
          (md.sbFreeBlocks + 1)).markDirty g grp)
    | _ => pure ()

def allocInodeIn (g : Geom) (isDir : Bool) : List ℕ → Prog ℕ
  | [] => pure 0
  | grp :: l => do
      let md ← getMeta
      if md.gdFreeInodes grp = 0 then allocInodeIn g isDir l
      else do
        match ← bitmapClaim (md.gdInodeBitmap grp) g.inodesPerGroup with
        | none => allocInodeIn g isDir l
        | some i =>
            let ino := grp * g.inodesPerGroup + i + 1
            -- a reserved inode with a clear bit stays marked, and the search goes on
            if ino < g.firstIno ∨ g.inodesCount < ino then allocInodeIn g isDir l
            else do
              let md := md.setGdFreeInodes (md.gdFreeInodes grp - 1) grp
              let md := if isDir then md.setGdUsedDirs (md.gdUsedDirs grp + 1) grp else md
              setMeta ((md.setSbFreeInodes (md.sbFreeInodes - 1)).markDirty g grp)
              pure ino

def allocInode (g : Geom) (goal : ℕ) (isDir : Bool) : Prog ℕ := do
  let md ← getMeta
  if md.sbFreeInodes = 0 then pure 0 else allocInodeIn g isDir (groupsFrom g goal)

def freeInodeBit (g : Geom) (ino : ℕ) (isDir : Bool) : Prog Unit := do
  let grp := g.groupOfIno ino
  let md ← getMeta
  match ← bitmapRelease (md.gdInodeBitmap grp) ((ino - 1) % g.inodesPerGroup) with
  | some true =>
      let md := md.setGdFreeInodes (md.gdFreeInodes grp + 1) grp
      let md := if isDir ∧ md.gdUsedDirs grp ≠ 0 then md.setGdUsedDirs (md.gdUsedDirs grp - 1) grp else md
      setMeta ((md.setSbFreeInodes (md.sbFreeInodes + 1)).markDirty g grp)
  | _ => pure ()

abbrev Inode := Mem

def S_IFREG : ℕ := 0o100000

def S_IFDIR : ℕ := 0o040000

def S_IFLNK : ℕ := 0o120000

def EXT2_NDIR : ℕ := 12

namespace Inode

variable (ind : Inode) (g : Geom) (n i : ℕ)

def mode : ℕ := ind.getLE 0 2

def size : ℕ := ind.getLE 4 4

def links : ℕ := ind.getLE 26 2

def blocks : ℕ := ind.getLE 28 4

def flags : ℕ := ind.getLE 32 4

def block : ℕ := ind.getLE (40 + 4 * i) 4

def fileAcl : ℕ := ind.getLE 104 4

def setMode : Inode := ind.setLE 0 2 n

def setSize : Inode := ind.setLE 4 4 n

def setAtime : Inode := ind.setLE 8 4 n

def setCtime : Inode := ind.setLE 12 4 n

def setMtime : Inode := ind.setLE 16 4 n

def setDtime : Inode := ind.setLE 20 4 n

def setLinks : Inode := ind.setLE 26 2 n

def setBlocks : Inode := ind.setLE 28 4 n

def setFlags : Inode := ind.setLE 32 4 n

def setBlock : Inode := ind.setLE (40 + 4 * i) 4 n

def setFileAcl : Inode := ind.setLE 104 4 n

def fmt : ℕ := ind.mode / 0o10000 * 0o10000

def isDir : Bool := ind.fmt = S_IFDIR

def isLnk : Bool := ind.fmt = S_IFLNK

def gainBlock : Inode := ind.setBlocks (ind.blocks + g.spb)

def dropBlock : Inode := ind.setBlocks (ind.blocks + (2 ^ 32 - g.spb))

/-- A fast symlink keeps its target in the block pointers and owns no data blocks. -/
def isFastSymlink : Bool := ind.isLnk && u32 (ind.blocks + (2 ^ 32 - if ind.fileAcl = 0 then 0 else g.spb)) = 0

end Inode

/-- The block and the offset of an inode record. -/
def inodeLoc (g : Geom) (md : Meta) (ino : ℕ) : Option (ℕ × ℕ) :=
  if ino = 0 ∨ g.inodesCount < ino then none
  else
    let byte := (ino - 1) % g.inodesPerGroup * g.inodeSize
    some (u32 (md.gdInodeTable (g.groupOfIno ino) + byte / g.blockSize), byte % g.blockSize)

def readInode (g : Geom) (ino : ℕ) : Prog (Option Inode) := do
  let md ← getMeta
  match inodeLoc g md ino with
  | none => pure none
  | some (blk, off) => do
      match ← bread blk with
      | none => pure none
      | some p => pure (some (clip 128 fun i => p (off + i)))

/-- The record with the inode in it; a fresh one is cleared before, and declares its extra fields.
-/
def putInode (g : Geom) (p : Mem) (off : ℕ) (ind : Inode) (fresh : Bool) : Mem :=
  let p := if fresh then p.blit off (fun _ => 0) 0 g.inodeSize else p
  let p := if fresh ∧ 160 ≤ g.inodeSize then p.setLE (off + 128) 2 32 else p
  p.blit off ind 0 128

def writeInodeEx (g : Geom) (ino : ℕ) (ind : Inode) (fresh : Bool) : Prog Bool := do
  let md ← getMeta
  match inodeLoc g md ino with
  | none => pure false
  | some (blk, off) => do
      match ← bread blk with
      | none => pure false
      | some p => bwrite blk (putInode g p off ind fresh)

def writeInode (g : Geom) (ino : ℕ) (ind : Inode) : Prog Bool := writeInodeEx g ino ind false

def Geom.span (g : Geom) (depth : ℕ) : ℕ := g.ppb ^ depth

/-- A new block for the inode, counted in `i_blocks`; 0 when there is none. -/
def inodeNewBlock (g : Geom) (ind : Inode) (goal : ℕ) (zero : Bool) : Prog (ℕ × Inode) := do
  let b ← allocBlock g goal
  if b = 0 then pure (0, ind)
  else if zero then do
    victim fun _ => 0
    let ok ← bwrite b fun _ => 0
    pure (if ok then b else 0, ind.gainBlock g)
  else pure (b, ind.gainBlock g)

/-- The tree that maps a logical block behind the direct ones, and the block's place in it. -/
def Geom.treeOf (g : Geom) (lblk : ℕ) : Option (ℕ × ℕ) :=
  let rel := lblk - EXT2_NDIR
  if rel < g.span 1 then some (1, rel)
  else
    let rel := rel - g.span 1
    if rel < g.span 2 then some (2, rel)
    else
      let rel := rel - g.span 2
      if rel < g.span 3 then some (3, rel) else none

/-- Down from the indirect block `blk`, `level` levels above the data. -/
def bmapDown (g : Geom) (goal rel : ℕ) (alloc : Bool) : ℕ → ℕ → Inode → Prog (ℕ × Inode)
  | 0, blk, ind => pure (blk, ind)
  | level + 1, blk, ind => do
      let idx := rel / g.span level % g.ppb
      match ← bread blk with
      | none => pure (0, ind)
      | some p =>
          if p.getLE (4 * idx) 4 ≠ 0 then bmapDown g goal rel alloc level (p.getLE (4 * idx) 4) ind
          else if alloc = false then pure (0, ind)
          else do
            let (next, ind) ← inodeNewBlock g ind goal (0 < level)
            if next = 0 then pure (0, ind)
            else do
              -- the allocation may have evicted the node
              match ← bread blk with
              | none => pure (0, ind)
              | some p => do
                  if ← bwrite blk (p.setLE (4 * idx) 4 next) then bmapDown g goal rel alloc level next ind
                  else pure (0, ind)

/-- The physical block of logical block `lblk`, 0 for a hole, and the inode with what `alloc` has
added. -/
def bmap (g : Geom) (ind : Inode) (goal lblk : ℕ) (alloc : Bool) : Prog (ℕ × Inode) := do
  if lblk < EXT2_NDIR then
    if ind.block lblk = 0 ∧ alloc then do
      let (b, ind) ← inodeNewBlock g ind goal false
      pure (b, ind.setBlock b lblk)
    else pure (ind.block lblk, ind)
  else
    match g.treeOf lblk with
    | none => pure (0, ind)
    | some (depth, rel) =>
        let root := 11 + depth
        if ind.block root ≠ 0 then bmapDown g goal rel alloc depth (ind.block root) ind
        else if alloc = false then pure (0, ind)
        else do
          let (blk, ind) ← inodeNewBlock g ind goal true
          if blk = 0 then pure (0, ind)
          else bmapDown g goal rel alloc depth blk (ind.setBlock blk root)

/-- The loop over the pointers of a node: the inode, the node with the freed pointers cleared, and
whether one was. -/
def truncChildren (free : Inode → ℕ → ℕ → Prog Inode) (base cs cutoff : ℕ) : List ℕ → Inode → Mem →
    Bool → Prog (Inode × Mem × Bool)
  | [], ind, tab, changed => pure (ind, tab, changed)
  | i :: l, ind, tab, changed => do
      let child := tab.getLE (4 * i) 4
      let cb := base + i * cs
      if child = 0 ∨ cb + cs ≤ cutoff then truncChildren free base cs cutoff l ind tab changed
      else do
        let ind ← free ind child cb
        if cutoff ≤ cb then truncChildren free base cs cutoff l ind (tab.setLE (4 * i) 4 0) true
        else truncChildren free base cs cutoff l ind tab changed

/-- The end of `trunc_tree`: the block itself is freed when all that it maps is at or above the
cutoff. -/
def truncSelf (g : Geom) (blk base cutoff : ℕ) (ind : Inode) : Prog Inode :=
  if cutoff ≤ base then do
    freeBlock g blk
    pure (ind.dropBlock g)
  else pure ind

def truncTree (g : Geom) (cutoff : ℕ) : ℕ → Inode → ℕ → ℕ → Prog Inode
  | 0, ind, blk, base =>
      if blk = 0 ∨ base + g.span 0 ≤ cutoff then pure ind else truncSelf g blk base cutoff ind
  | depth + 1, ind, blk, base =>
      if blk = 0 ∨ base + g.span (depth + 1) ≤ cutoff then pure ind
      else do
        if ← kmalloc g.blockSize then
          match ← bread blk with
          | none => pure ind
          | some p => do
              let (ind, tab, changed) ←
                truncChildren (truncTree g cutoff depth) base (g.span depth) cutoff (List.range g.ppb) ind p false
              if base < cutoff ∧ changed then do
                let _ ← bwrite blk tab
                truncSelf g blk base cutoff ind
              else truncSelf g blk base cutoff ind
        else pure ind

def truncDirect (g : Geom) (cutoff : ℕ) : List ℕ → Inode → Prog Inode
  | [], ind => pure ind
  | i :: l, ind =>
      if cutoff ≤ i ∧ ind.block i ≠ 0 then do
        freeBlock g (ind.block i)
        truncDirect g cutoff l ((ind.dropBlock g).setBlock 0 i)
      else truncDirect g cutoff l ind

/-- The three trees, with the depth and the first logical block of each. -/
def truncTrees (g : Geom) (cutoff : ℕ) : List (ℕ × ℕ) → Inode → Prog Inode
  | [], ind => pure ind
  | (depth, base) :: l, ind => do
      let ind ← truncTree g cutoff depth ind (ind.block (11 + depth)) base
      truncTrees g cutoff l (if cutoff ≤ base then ind.setBlock 0 (11 + depth) else ind)

def Geom.trees (g : Geom) : List (ℕ × ℕ) :=
  [(1, EXT2_NDIR), (2, EXT2_NDIR + g.span 1), (3, EXT2_NDIR + g.span 1 + g.span 2)]

def truncateBlocks (g : Geom) (ind : Inode) (newSize : ℕ) : Prog Inode := do
  if ind.isFastSymlink g then pure ind
  else do
    let cutoff := (newSize + g.blockSize - 1) / g.blockSize
    let ind ← truncDirect g cutoff (List.range EXT2_NDIR) ind
    truncTrees g cutoff g.trees ind

end ComputerOS.Ext2
