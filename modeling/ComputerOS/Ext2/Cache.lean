import ComputerOS.Lib.Memory
import ComputerOS.Lib.Calling

/-!
An ext2 volume as `ext2_mount` leaves it, the device below it, and the write-through block cache in
between. The functions of the driver are programs over the calls that reach the cache, the device,
the superblock and descriptors in memory, the clock and the heap. A change that the code makes in a
cached block before it hands the block to `bwrite` is part of that call, and a victim that serves as
a buffer is a call of its own.
-/
namespace ComputerOS.Ext2

open Mem (clip)

def u32 (n : ℕ) : ℕ := n % 2 ^ 32

def CACHE_N : ℕ := 64

/-- What a mount computes from the superblock, of a volume whose groups fit their bitmap blocks and
whose descriptors cover all inodes. -/
structure Geom where
  partLba : ℕ
  blockSize : ℕ
  firstDataBlock : ℕ
  blocksCount : ℕ
  blocksPerGroup : ℕ
  inodesCount : ℕ
  inodesPerGroup : ℕ
  inodeSize : ℕ
  firstIno : ℕ
  hasFiletype : Bool
  writable : Bool
  block_size : blockSize = 1024 ∨ blockSize = 2048 ∨ blockSize = 4096
  data_lt : firstDataBlock < blocksCount
  groups_pos : 0 < blocksPerGroup
  inodes_pos : 0 < inodesPerGroup
  inode_le : 128 ≤ inodeSize
  inode_dvd : inodeSize ∣ blockSize
  blocks_fit : blocksPerGroup ≤ 8 * blockSize
  inodes_fit : inodesPerGroup ≤ 8 * blockSize
  count_lt : blocksCount + blocksPerGroup ≤ 2 ^ 32
  inodes_covered : inodesCount ≤ (blocksCount - firstDataBlock + blocksPerGroup - 1) / blocksPerGroup * inodesPerGroup

namespace Geom

variable (g : Geom)

/-- Sectors per block. -/
def spb : ℕ := g.blockSize / 512

def ppb : ℕ := g.blockSize / 4

def groupCount : ℕ := (g.blocksCount - g.firstDataBlock + g.blocksPerGroup - 1) / g.blocksPerGroup

def gdtStart : ℕ := g.firstDataBlock + 1

/-- The first sector of a block, in the 32-bit arithmetic of `dev_read` and `dev_write`. -/
def sector (blk : ℕ) : ℕ := u32 (g.partLba + blk * g.spb)

def superBlock : ℕ := if g.blockSize = 1024 then 1 else 0

end Geom

/-- The superblock and the descriptors in memory, and what of them is not yet on disk. -/
structure Meta where
  sb : Mem
  gdt : Mem
  sbDirty : Bool
  gdtDirty : Option (ℕ × ℕ)

inductive Call where
  | bread (blk : ℕ)
  | bwrite (blk : ℕ) (data : Mem)
  | victim (data : Mem)
  | binval (blk : ℕ)
  | devRead (blk count : ℕ)
  | devWrite (blk count : ℕ) (data : Mem)
  | superWrite (data : Mem)
  | getMeta
  | setMeta (md : Meta)
  | now
  | kmalloc (size : ℕ)

abbrev Call.Reply : Call → Type
  | .bread _ => Option Mem
  | .bwrite _ _ => Bool
  | .victim _ => Unit
  | .binval _ => Unit
  | .devRead _ _ => Option Mem
  | .devWrite _ _ _ => Bool
  | .superWrite _ => Bool
  | .getMeta => Meta
  | .setMeta _ => Unit
  | .now => ℕ
  | .kmalloc _ => Bool

abbrev Prog (α : Type) : Type := Calling Call Call.Reply α

namespace Prog

def bread (blk : ℕ) : Prog (Option Mem) := Calling.ask (Call.bread blk)

def bwrite (blk : ℕ) (data : Mem) : Prog Bool := Calling.ask (Call.bwrite blk data)

/-- `cache_victim`, as a buffer that is filled with `data`. -/
def victim (data : Mem) : Prog Unit := Calling.ask (Call.victim data)

def binval (blk : ℕ) : Prog Unit := Calling.ask (Call.binval blk)

def devRead (blk count : ℕ) : Prog (Option Mem) := Calling.ask (Call.devRead blk count)

def devWrite (blk count : ℕ) (data : Mem) : Prog Bool := Calling.ask (Call.devWrite blk count data)

/-- The write of `sb_raw` to sectors 2 and 3 of the volume. -/
def superWrite (data : Mem) : Prog Bool := Calling.ask (Call.superWrite data)

def getMeta : Prog Meta := Calling.ask Call.getMeta

def setMeta (md : Meta) : Prog Unit := Calling.ask (Call.setMeta md)

def now : Prog ℕ := Calling.ask Call.now

def kmalloc (size : ℕ) : Prog Bool := Calling.ask (Call.kmalloc size)

end Prog

/-- What the device makes of a request; a failed write leaves any bytes in the sectors it was for.
-/
inductive Io where
  | ok
  | failed (left : Mem)

/-- One cache entry. -/
structure Ent where
  blk : ℕ
  stamp : ℕ
  valid : Bool
  data : Mem

/-- The cache, the bytes of the device, the superblock and descriptors in memory, what the
environment will answer, and the blocks of the device requests so far. -/
structure Machine where
  cache : ℕ → Ent
  clock : ℕ
  disk : Mem
  md : Meta
  io : ℕ → Io
  times : ℕ → ℕ
  heap : ℕ → Bool
  log : List (ℕ × ℕ)

def readSectors (disk : Mem) (s n : ℕ) : Mem := clip (512 * n) fun i => disk (512 * s + i)

def writeSectors (disk : Mem) (s n : ℕ) (data : Mem) : Mem := disk.blit (512 * s) data 0 (512 * n)

namespace Machine

variable (g : Geom)

/-- The request has been made. -/
def requested (m : Machine) (blk count : ℕ) : Machine :=
  { m with io := fun i => m.io (i + 1), log := (blk, count) :: m.log }

def devRead (blk count : ℕ) (m : Machine) : Option Mem × Machine :=
  match m.io 0 with
  | .ok => (some (readSectors m.disk (g.sector blk) (count * g.spb)), m.requested blk count)
  | .failed _ => (none, m.requested blk count)

/-- Sectors `s` to `s + n - 1` are written, for the blocks from `blk` on. -/
def writeAt (blk count s n : ℕ) (data : Mem) (m : Machine) : Bool × Machine :=
  match m.io 0 with
  | .ok => (true, { m.requested blk count with disk := writeSectors m.disk s n data })
  | .failed left => (false, { m.requested blk count with disk := writeSectors m.disk s n left })

def devWrite (blk count : ℕ) (data : Mem) (m : Machine) : Bool × Machine :=
  m.writeAt blk count (g.sector blk) (count * g.spb) data

def superWrite (data : Mem) (m : Machine) : Bool × Machine :=
  m.writeAt g.superBlock 1 (u32 (g.partLba + 2)) 2 data

def cacheFind (m : Machine) (blk : ℕ) : Option ℕ :=
  (List.range CACHE_N).find? fun i => (m.cache i).valid && (m.cache i).blk == blk

/-- The first entry that is not valid, else the one whose last use is longest ago. -/
def victimFrom (cache : ℕ → Ent) : ℕ → List ℕ → ℕ
  | v, [] => v
  | v, i :: l =>
      if (cache i).valid = false then i
      else victimFrom cache (if (cache i).stamp < (cache v).stamp then i else v) l

def cacheVictim (m : Machine) : ℕ := victimFrom m.cache 0 (List.range CACHE_N)

def setEnt (m : Machine) (i : ℕ) (e : Ent) : Machine := { m with cache := Function.update m.cache i e }

def tick (m : Machine) : Machine := { m with clock := u32 (m.clock + 1) }

def bread (blk : ℕ) (m : Machine) : Option Mem × Machine :=
  match m.cacheFind blk with
  | some i =>
      let m := m.tick
      (some (m.cache i).data, m.setEnt i { m.cache i with stamp := m.clock })
  | none =>
      let i := m.cacheVictim
      let m := m.setEnt i { m.cache i with valid := false }
      match m.devRead g blk 1 with
      | (none, m) => (none, m)
      | (some data, m) =>
          let m := m.tick
          (some data, m.setEnt i ⟨blk, m.clock, true, data⟩)

def bwrite (blk : ℕ) (data : Mem) (m : Machine) : Bool × Machine :=
  let i := (m.cacheFind blk).getD m.cacheVictim
  let m := m.tick
  let e : Ent := ⟨blk, m.clock, true, clip g.blockSize data⟩
  match (m.setEnt i e).devWrite g blk 1 e.data with
  | (true, m) => (true, m)
  | (false, m) => (false, m.setEnt i { e with valid := false })

def victim (data : Mem) (m : Machine) : Machine :=
  let i := m.cacheVictim
  m.setEnt i { m.cache i with valid := false, data := clip g.blockSize data }

def binval (blk : ℕ) (m : Machine) : Machine :=
  match m.cacheFind blk with
  | some i => m.setEnt i { m.cache i with valid := false }
  | none => m

end Machine

def cached (g : Geom) : (c : Call) → Machine → c.Reply × Machine
  | .bread blk, m => m.bread g blk
  | .bwrite blk data, m => m.bwrite g blk data
  | .victim data, m => ((), m.victim g data)
  | .binval blk, m => ((), m.binval blk)
  | .devRead blk count, m => m.devRead g blk count
  | .devWrite blk count data, m => m.devWrite g blk count data
  | .superWrite data, m => m.superWrite g data
  | .getMeta, m => (m.md, m)
  | .setMeta md, m => ((), { m with md := md })
  | .now, m => (m.times 0, { m with times := fun i => m.times (i + 1) })
  | .kmalloc _, m => (m.heap 0, { m with heap := fun i => m.heap (i + 1) })

end ComputerOS.Ext2
