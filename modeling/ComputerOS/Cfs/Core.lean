import ComputerOS.Cfs.Device

/-!
Bitmaps, the inode table and extent lists of CFS. The two allocators are one
first-fit scan over different regions and ranges; the source writes it twice.
-/
namespace ComputerOS.Cfs

open M Bytes

def bitSet (region idx : ℕ) (val : Bool) : M Unit := do
  let blk := region + idx / 32768
  let buf ← bdReadBlock blk
  bdWriteBlock blk (buf.setBit (idx % 32768) val)

/-- How the scan of one bitmap block ends: at a clear bit, at the end of the
volume, or with nothing found in this block. -/
inductive Scan
  | found (idx : ℕ)
  | full
  | next

/-- The inner loop over the bits of one byte; bit 0 of the byte has index `b`. -/
def scanBits (lo hi : ℕ) (byte : UInt8) (b : ℕ) : List ℕ → Scan
  | [] => .next
  | j :: js =>
      if hi ≤ b + j then .full
      else if b + j < lo then scanBits lo hi byte b js
      else if byte.toBitVec.getLsbD j = false then .found (b + j)
      else scanBits lo hi byte b js

/-- The loop over the bytes of a bitmap block whose first bit has index `base`. -/
def scanBytes (lo hi : ℕ) (buf : Block) (base : ℕ) : List ℕ → Scan
  | [] => .next
  | i :: is =>
      if buf.byte i = 0xFF then scanBytes lo hi buf base is
      else match scanBits lo hi (buf.byte i) (base + 8 * i) (List.range 8) with
        | .next => scanBytes lo hi buf base is
        | r => r

@[irreducible] def blockBytes : List ℕ := List.range 4096

/-- The loop over the bitmap blocks: the first clear bit in `[lo, hi)` is set and
returned; 0 means none, or a failed access. `count` adjusts the free count. -/
def allocBit (region lo hi : ℕ) (count : Fs → ℕ × ℕ) : List ℕ → M ℕ
  | [] => pure 0
  | bb :: bbs => do
      match ← attempt (bdReadBlock (region + bb)) with
      | none => pure 0
      | some buf =>
          match scanBytes lo hi buf (bb * 32768) blockBytes with
          | .next => allocBit region lo hi count bbs
          | .full => pure 0
          | .found b => do
              match ← attempt (bdWriteBlock (region + bb) (buf.setBit (b % 32768) true)) with
              | none => pure 0
              | some _ => do
                  setCounts count
                  pure b

def bitmapBlocks (nbits : ℕ) : List ℕ := List.range ((nbits + 32767) / 32768)

/-- The blocks of a bitmap that the allocators look at: `bmblocks` wraps. -/
def bmblocks (nbits : ℕ) : List ℕ := List.range ((nbits + 32767) % 2 ^ 64 / 32768)

theorem bmblocks_eq {nbits : ℕ} (h : nbits + 32767 < 2 ^ 64) : bmblocks nbits = bitmapBlocks nbits := by
  rw [bmblocks, Nat.mod_eq_of_lt h, bitmapBlocks]

theorem bmblocks_subset (nbits : ℕ) : bmblocks nbits ⊆ bitmapBlocks nbits := by
  intro bb hbb
  rw [bmblocks, List.mem_range] at hbb
  exact List.mem_range.2 (hbb.trans_le (Nat.div_le_div_right (Nat.mod_le _ _)))

def allocBlock : M ℕ := do
  let fs ← getFs
  allocBit fs.blockBitmapStart fs.dataStart fs.totalBlocks
    (fun fs => (dec64 fs.freeBlocks, fs.freeInodes)) (bmblocks fs.totalBlocks)

def allocInode : M ℕ := do
  let fs ← getFs
  allocBit fs.inodeBitmapStart 2 fs.totalInodes
    (fun fs => (fs.freeBlocks, dec64 fs.freeInodes)) (bmblocks fs.totalInodes)

def freeBlock (b : ℕ) : M Unit := do
  let fs ← getFs
  if b < fs.dataStart ∨ fs.totalBlocks ≤ b then pure ()
  else match ← attempt (bitSet fs.blockBitmapStart b false) with
    | none => pure ()
    | some _ => setCounts fun fs => (inc64 fs.freeBlocks, fs.freeInodes)

def freeInode (n : ℕ) : M Unit := do
  let fs ← getFs
  if n < 2 ∨ fs.totalInodes ≤ n then pure ()
  else match ← attempt (bitSet fs.inodeBitmapStart n false) with
    | none => pure ()
    | some _ => setCounts fun fs => (fs.freeBlocks, inc64 fs.freeInodes)

def Geom.inodeBlock (g : Geom) (n : ℕ) : ℕ := g.inodeTableStart + n * g.inodeSize / 4096

def Geom.inodeOff (g : Geom) (n : ℕ) : ℕ := n * g.inodeSize % 4096

def readDinode (n : ℕ) : M DInode := do
  let fs ← getFs
  ensure (n ≠ 0 ∧ n < fs.totalInodes)
  let buf ← bdReadBlock (fs.inodeBlock n)
  pure (buf.sub (fs.inodeOff n))

/-- The record `write_dinode` stores: the inode with its checksum filled in. -/
def stamp (flags : ℕ) (d : DInode) : DInode :=
  d.setCsum (if flags &&& CFS_FEAT_CSUM ≠ 0 then inodeCsum d else 0)

def writeDinode (n : ℕ) (d : DInode) : M Unit := do
  let fs ← getFs
  ensure (n ≠ 0 ∧ n < fs.totalInodes)
  let buf ← bdReadBlock (fs.inodeBlock n)
  bdWriteBlock (fs.inodeBlock n) (buf.paste (fs.inodeOff n) (stamp fs.flags d))

/-- The superblock with new free counts, marked clean, and its checksum. -/
def superWith (flags freeBlocks freeInodes : ℕ) (sb : Block) : Block :=
  let sb := ((sb.setLE 32 8 freeBlocks).setLE 40 8 freeInodes).setLE 128 4 CFS_STATE_CLEAN
  if flags &&& CFS_FEAT_CSUM ≠ 0 then sb.setLE 140 4 (superCsum (sb.setLE 140 4 0)) else sb

def syncSuper : M Unit := do
  let fs ← getFs
  let _ ← attempt do
    let sb ← bdReadBlock 0
    bdWriteBlock 0 (superWith fs.flags fs.freeBlocks fs.freeInodes sb)

/-- The loop of `map_fileblock` from extent `e` on, with `n` extents left and
`logical` file blocks before extent `e`. -/
def mapFrom (d : DInode) (fileblk : ℕ) : ℕ → ℕ → ℕ → ℕ
  | _, 0, _ => 0
  | e, n + 1, logical =>
      if fileblk < logical + d.extentCount e then
        if d.extentStart e = 0 then 0
        else (d.extentStart e + (fileblk - logical)) % 2 ^ 64
      else mapFrom d fileblk (e + 1) n (logical + d.extentCount e)

def mapFileblock (d : DInode) (fileblk : ℕ) : ℕ := mapFrom d fileblk 0 d.nextents 0

/-- `none` when the extent array is full. -/
def inodePushExtent (d : DInode) (start count : ℕ) : Option DInode :=
  let last := d.nextents - 1
  if 0 < d.nextents ∧ d.extentStart last ≠ 0 ∧
      (d.extentStart last + d.extentCount last) % 2 ^ 64 = start then
    some (d.setExtentCount last (d.extentCount last + count))
  else if CFS_INLINE_EXTENTS ≤ d.nextents then none
  else some (((d.setExtentStart d.nextents start).setExtentCount d.nextents count).setNextents
    (d.nextents + 1))

/-- Free the blocks `start + k`, `start + k + 1`, … of one extent. -/
def freeExtent (start : ℕ) : ℕ → ℕ → M Unit
  | _, 0 => pure ()
  | k, n + 1 => do
      freeBlock ((start + k) % 2 ^ 64)
      freeExtent start (k + 1) n

def freeExtentAt (d : DInode) (e : ℕ) : M Unit :=
  if d.extentStart e = 0 then pure () else freeExtent (d.extentStart e) 0 (d.extentCount e)

def freeExtents (d : DInode) : ℕ → ℕ → M Unit
  | _, 0 => pure ()
  | e, n + 1 => do
      freeExtentAt d e
      freeExtents d (e + 1) n

def inodeFreeData (d : DInode) : M DInode := do
  freeExtents d 0 d.nextents
  pure ((d.setNextents 0).setSize 0)

end ComputerOS.Cfs
