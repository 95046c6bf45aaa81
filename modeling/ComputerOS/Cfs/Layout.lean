import ComputerOS.Lib.Bytes

/-!
The CFS on-disk format: blocks of 4096 bytes, packed little-endian records at
fixed offsets, and the CRC-32 checksums over them. A record is the bytes it
occupies, as in the C code, where a buffer is cast to a structure; a field is
read and written at its offset, and a value too wide for its field is cut off.
-/
namespace ComputerOS.Cfs

open Bytes

abbrev Block := Bytes 4096

/-- The bytes of a file or directory entry name. -/
abbrev Name := List UInt8

def CFS_MAGIC : ℕ := 0x31534643
def CFS_VERSION : ℕ := 1
def CFS_INODE_SIZE : ℕ := 256
def CFS_ROOT_INO : ℕ := 1
def CFS_NAME_MAX : ℕ := 255
def CFS_INLINE_EXTENTS : ℕ := 12
def CFS_INLINE_MAX : ℕ := 144
def CFS_STATE_CLEAN : ℕ := 1
def CFS_FEAT_CSUM : ℕ := 1
def CFS_FL_INLINE : ℕ := 1
def CFS_S_IFMT : ℕ := 0xF000
def CFS_S_IFREG : ℕ := 0x8000
def CFS_S_IFDIR : ℕ := 0x4000
def CFS_S_IFLNK : ℕ := 0xA000
def CFS_FT_REG : ℕ := 1
def CFS_FT_DIR : ℕ := 2
def CFS_FT_LNK : ℕ := 7

/-- `VFS_SYMLINK_MAGIC`, the ten bytes that mark symbolic link data. -/
def VFS_SYMLINK_MAGIC : List UInt8 := [33, 60, 115, 121, 109, 108, 105, 110, 107, 62]

/-- One round of the bitwise CRC-32 (reflected IEEE polynomial). -/
def crcRound (crc : UInt32) : UInt32 :=
  (crc >>> 1) ^^^ (0xEDB88320 &&& (0 - (crc &&& 1)))

def crcByte (crc : UInt32) (b : UInt8) : UInt32 :=
  Nat.repeat crcRound 8 (crc ^^^ b.toUInt32)

def crc32Up (crc : UInt32) (data : List UInt8) : UInt32 :=
  ~~~(data.foldl crcByte (~~~crc))

namespace Super

abbrev magic (b : Block) : ℕ := b.getLE 0 4
abbrev version (b : Block) : ℕ := b.getLE 4 4
abbrev blockSize (b : Block) : ℕ := b.getLE 8 4
abbrev inodeSize (b : Block) : ℕ := b.getLE 12 4
abbrev totalBlocks (b : Block) : ℕ := b.getLE 16 8
abbrev totalInodes (b : Block) : ℕ := b.getLE 24 8
abbrev freeBlocks (b : Block) : ℕ := b.getLE 32 8
abbrev freeInodes (b : Block) : ℕ := b.getLE 40 8
abbrev blockBitmapStart (b : Block) : ℕ := b.getLE 48 8
abbrev inodeBitmapStart (b : Block) : ℕ := b.getLE 64 8
abbrev inodeTableStart (b : Block) : ℕ := b.getLE 80 8
abbrev dataStart (b : Block) : ℕ := b.getLE 96 8
abbrev rootInode (b : Block) : ℕ := b.getLE 104 8
abbrev journalStart (b : Block) : ℕ := b.getLE 112 8
abbrev journalBlocks (b : Block) : ℕ := b.getLE 120 8
abbrev flags (b : Block) : ℕ := b.getLE 132 4
abbrev sbCsum (b : Block) : ℕ := b.getLE 140 4

end Super

/-- `super_csum`: the CRC of the superblock without its own field at 140. -/
def superCsum (sb : Block) : ℕ :=
  (crc32Up (crc32Up 0 (sb.slice 0 140)) (sb.slice 144 (4096 - 144))).toNat

/-- `cfs_dinode_t`: the 224 bytes of an inode record that are in use. -/
abbrev DInode := Bytes 224

namespace DInode

abbrev mode (d : DInode) : ℕ := d.getLE 0 2
abbrev links (d : DInode) : ℕ := d.getLE 2 2
abbrev uid (d : DInode) : ℕ := d.getLE 4 4
abbrev gid (d : DInode) : ℕ := d.getLE 8 4
abbrev size (d : DInode) : ℕ := d.getLE 12 8
abbrev atime (d : DInode) : ℕ := d.getLE 20 8
abbrev flags (d : DInode) : ℕ := d.getLE 52 4
abbrev nextents (d : DInode) : ℕ := d.getLE 56 4
abbrev extentStart (d : DInode) (e : ℕ) : ℕ := d.getLE (76 + 12 * e) 8
abbrev extentCount (d : DInode) (e : ℕ) : ℕ := d.getLE (84 + 12 * e) 4
abbrev csum (d : DInode) : ℕ := d.getLE 220 4

abbrev setMode (d : DInode) (v : ℕ) : DInode := d.setLE 0 2 v
abbrev setLinks (d : DInode) (v : ℕ) : DInode := d.setLE 2 2 v
abbrev setUid (d : DInode) (v : ℕ) : DInode := d.setLE 4 4 v
abbrev setGid (d : DInode) (v : ℕ) : DInode := d.setLE 8 4 v
abbrev setSize (d : DInode) (v : ℕ) : DInode := d.setLE 12 8 v
abbrev setAtime (d : DInode) (v : ℕ) : DInode := d.setLE 20 8 v
abbrev setMtime (d : DInode) (v : ℕ) : DInode := d.setLE 28 8 v
abbrev setCtime (d : DInode) (v : ℕ) : DInode := d.setLE 36 8 v
abbrev setCrtime (d : DInode) (v : ℕ) : DInode := d.setLE 44 8 v
abbrev setFlags (d : DInode) (v : ℕ) : DInode := d.setLE 52 4 v
abbrev setNextents (d : DInode) (v : ℕ) : DInode := d.setLE 56 4 v
abbrev setExtentStart (d : DInode) (e v : ℕ) : DInode := d.setLE (76 + 12 * e) 8 v
abbrev setExtentCount (d : DInode) (e v : ℕ) : DInode := d.setLE (84 + 12 * e) 4 v
abbrev setCsum (d : DInode) (v : ℕ) : DInode := d.setLE 220 4 v

/-- The extent area, which inline files and fast symlinks use as plain bytes. -/
abbrev extentBytes (d : DInode) (len : ℕ) : List UInt8 := d.slice 76 len

/-- Zero the extent area and copy `src` to its front. -/
abbrev setExtentBytes (d : DInode) (src : List UInt8) : DInode :=
  (d.put 76 (List.replicate 144 0)).put 76 src

abbrev isDir (d : DInode) : Bool := d.mode &&& CFS_S_IFMT = CFS_S_IFDIR
abbrev isLnk (d : DInode) : Bool := d.mode &&& CFS_S_IFMT = CFS_S_IFLNK
abbrev isInline (d : DInode) : Bool := d.flags &&& CFS_FL_INLINE ≠ 0

end DInode

def inodeCsum (d : DInode) : ℕ := (crc32Up 0 ((d.setCsum 0).slice 0 224)).toNat

namespace Dirent

abbrev inode (b : Block) (off : ℕ) : ℕ := b.getLE off 8
abbrev recLen (b : Block) (off : ℕ) : ℕ := b.getLE (off + 8) 2
abbrev nameLen (b : Block) (off : ℕ) : ℕ := b.getLE (off + 10) 1
abbrev name (b : Block) (off : ℕ) : Name := b.slice (off + 12) (nameLen b off)

abbrev setInode (b : Block) (off v : ℕ) : Block := b.setLE off 8 v
abbrev setRecLen (b : Block) (off v : ℕ) : Block := b.setLE (off + 8) 2 v

end Dirent

def align8 (x : ℕ) : ℕ := (x + 7) / 8 * 8

def CFS_JMAGIC : ℕ := 0x4A534643
def CFS_JNONE : ℕ := 0
def CFS_JCOMMITTED : ℕ := 1

namespace JHdr

abbrev magic (b : Block) : ℕ := b.getLE 0 4
abbrev state (b : Block) : ℕ := b.getLE 4 4
abbrev seq (b : Block) : ℕ := b.getLE 8 8
abbrev nblocks (b : Block) : ℕ := b.getLE 16 4
abbrev csum (b : Block) : ℕ := b.getLE 20 4

/-- A header block with the given fields and zeroes elsewhere. -/
def make (state seq nblocks csum : ℕ) : Block :=
  ((((zero.setLE 0 4 CFS_JMAGIC).setLE 4 4 state).setLE 8 8 seq).setLE 16 4 nblocks).setLE 20 4 csum

/-- The header announces a transaction that must be replayed. -/
def Committed (b : Block) : Prop := magic b = CFS_JMAGIC ∧ state b = CFS_JCOMMITTED

instance (b : Block) : Decidable (Committed b) := inferInstanceAs (Decidable (_ ∧ _))

end JHdr

theorem align8_mod (x : ℕ) : align8 x % 8 = 0 := by
  unfold align8
  omega

theorem le_align8 (x : ℕ) : x ≤ align8 x := by
  unfold align8
  omega

theorem align8_lt (x : ℕ) : align8 x < x + 8 := by
  unfold align8
  omega

theorem superCsum_lt (sb : Block) : superCsum sb < 2 ^ 32 := UInt32.toNat_lt _

theorem inodeCsum_lt (d : DInode) : inodeCsum d < 2 ^ 32 := UInt32.toNat_lt _

/-- The superblock checksum does not read its own field. -/
theorem superCsum_setCsum (sb : Block) (v : ℕ) : superCsum (sb.setLE 140 4 v) = superCsum sb := by
  unfold superCsum
  rw [slice_setLE_ne sb (by omega), slice_setLE_ne sb (by omega)]

/-- The inode checksum does not read its own field. -/
theorem inodeCsum_setCsum (d : DInode) (v : ℕ) : inodeCsum (d.setCsum v) = inodeCsum d := by
  unfold inodeCsum
  rw [DInode.setCsum, DInode.setCsum, DInode.setCsum, setLE_setLE_same]

/-- Storing an inode's checksum makes the record pass its own check. -/
theorem csum_setCsum_inodeCsum (d : DInode) :
    (d.setCsum (inodeCsum d)).csum = inodeCsum (d.setCsum (inodeCsum d)) := by
  rw [inodeCsum_setCsum, DInode.csum, getLE_setLE_same _ _ (by omega)]
  exact Nat.mod_eq_of_lt (inodeCsum_lt d)

end ComputerOS.Cfs
