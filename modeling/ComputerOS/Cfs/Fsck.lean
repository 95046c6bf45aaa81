import ComputerOS.Cfs.Mount

/-!
`cfs_fsck`: the walk from the root that rebuilds the bitmaps and link counts, and the comparison of
the result with what is on disk. The static arrays are maps over all indices; whether an index was
ever outside of its array is recorded.
-/
namespace ComputerOS.Cfs

open M Bytes Function

def CFS_FSCK_MAX_BLOCKS : ℕ := 65536
def CFS_FSCK_MAX_INODES : ℕ := 16384
def CFS_FSCK_MAX_STACK : ℕ := 2048

/-- `cfs_fsck_result_t`; the counters are counted without a bound. -/
structure FsckResult where
  sbBad : ℕ := 0
  blockBadref : ℕ := 0
  blockLeaks : ℕ := 0
  blockDup : ℕ := 0
  inodeBadref : ℕ := 0
  inodeLeaks : ℕ := 0
  linkcountBad : ℕ := 0
  freecountBad : ℕ := 0
  sbCsumBad : ℕ := 0
  inodeCsumBad : ℕ := 0
  total : ℕ := 0
  deriving DecidableEq

/-- The static working sets and the result; the stack has its top first. -/
structure Fsck where
  bbm : ℕ → Bool
  ibm : ℕ → Bool
  refs : ℕ → ℕ
  stack : List ℕ
  out : FsckResult
  /-- Not in the source: whether an index was outside of its array, or extents were used of a record
  that `read_dinode` did not find whole in `it_buf`. -/
  wild : Bool

namespace Fsck

/-- An access whose index is in its array when `ok` holds. -/
def access (w : Fsck) (ok : Bool) : Fsck := { w with wild := w.wild || !ok }

def setBlock (w : Fsck) (b : ℕ) : Fsck := { w.access (b < CFS_FSCK_MAX_BLOCKS) with bbm := update w.bbm b true }

def setInode (w : Fsck) (n : ℕ) : Fsck := { w.access (n < CFS_FSCK_MAX_INODES) with ibm := update w.ibm n true }

def count (w : Fsck) (f : FsckResult → FsckResult) : Fsck := { w with out := f w.out }

end Fsck

/-- One block of an extent. -/
def fsckMark (g : Geom) (w : Fsck) (b : ℕ) : Fsck :=
  if b < g.dataStart ∨ g.totalBlocks ≤ b then w.count fun r => { r with blockBadref := r.blockBadref + 1 }
  else
    let w := w.access (b < CFS_FSCK_MAX_BLOCKS)
    if w.bbm b then w.count fun r => { r with blockDup := r.blockDup + 1 } else w.setBlock b

def fsckMarkExtent (g : Geom) (d : DInode) (w : Fsck) (e : ℕ) : Fsck :=
  let w := w.access (e < CFS_INLINE_EXTENTS)
  if d.extentStart e = 0 then w
  else (List.range (d.extentCount e)).foldl (fun w k => fsckMark g w ((d.extentStart e + k) % 2 ^ 64)) w

def fsckMarkBlocks (g : Geom) (d : DInode) (w : Fsck) : Fsck := (List.range d.nextents).foldl (fsckMarkExtent g d) w

/-- The record of inode `n` ends in its block. Else `read_dinode` goes on behind `it_buf`, and what
it finds there is not modelled. -/
def Geom.recordInside (g : Geom) (n : ℕ) : Bool := g.inodeOff n + 224 ≤ 4096

def fsckMarkInode (g : Geom) (n : ℕ) (d : DInode) (w : Fsck) : Fsck := fsckMarkBlocks g d (w.access (g.recordInside n))

def fsckEntry (blk : Block) (w : Fsck) (off : ℕ) : M Fsck := do
  let fs ← getFs
  let c := Dirent.inode blk off
  if c = 0 then pure w
  else
    let w := if c < CFS_FSCK_MAX_INODES then { w with refs := update w.refs c ((w.refs c + 1) % 2 ^ 16) } else w
    if isDots blk off then pure w
    else if fs.totalInodes ≤ c then pure (w.count fun r => { r with inodeBadref := r.inodeBadref + 1 })
    else
      let w := w.access (c < CFS_FSCK_MAX_INODES)
      if w.ibm c then pure w
      else
        let w := w.setInode c
        match ← attempt (readDinode c) with
        | none => pure w
        | some cd =>
            if cd.isDir then
              if w.stack.length < CFS_FSCK_MAX_STACK then pure { w with stack := c :: w.stack }
              else pure (w.count fun r => { r with sbBad := r.sbBad + 1 })
            else pure (fsckMarkInode fs.toGeom c cd w)

/-- The extents that `map_fileblock` looks at, as `mapFrom` does. -/
def extentsRead (d : DInode) (fileblk : ℕ) : ℕ → ℕ → ℕ → List ℕ
  | _, 0, _ => []
  | e, n + 1, logical =>
      if fileblk < logical + d.extentCount e then [e]
      else e :: extentsRead d fileblk (e + 1) n (logical + d.extentCount e)

def fsckBlock (d : DInode) (w : Fsck) (fb : ℕ) : M Fsck := do
  let w := w.access ((extentsRead d fb 0 d.nextents 0).all (· < CFS_INLINE_EXTENTS))
  let pb := mapFileblock d fb
  if pb = 0 then pure w
  else match ← attempt (rawReadBlock pb) with
    | none => pure w
    | some blk => (dirRecs blk 0).foldlM (fsckEntry blk) w

/-- A directory taken from the stack. -/
def fsckDir (w : Fsck) (dno : ℕ) : M Fsck := do
  let fs ← getFs
  match ← attempt (readDinode dno) with
  | none => pure w
  | some d => (List.range (d.size / 4096)).foldlM (fsckBlock d) (fsckMarkInode fs.toGeom dno d w)

/-- The loop over the stack, for at most the given number of directories. -/
def fsckWalk : ℕ → Fsck → M (Option Fsck)
  | 0, _ => pure none
  | n + 1, w =>
      match w.stack with
      | [] => pure (some w)
      | dno :: rest => do
          let w ← fsckDir { w with stack := rest } dno
          fsckWalk n w

/-- The metadata region is in use, and the root is the only directory to visit. -/
def fsckInit (g : Geom) : Fsck :=
  let w : Fsck := {
    bbm := fun _ => false, ibm := fun _ => false, refs := fun _ => 0
    stack := [], out := {}, wild := false }
  let w := (List.range g.dataStart).foldl Fsck.setBlock w
  { w with stack := [g.rootIno] }.setInode g.rootIno

/-- The comparison of one on-disk bitmap: where it is, how many bits count, what they should be, and
the counters of bits that are missing and that are too many. -/
structure BitmapCheck where
  region : ℕ
  bits : ℕ
  want : ℕ → Bool
  counted : ℕ → Bool
  inArray : ℕ → Bool
  missing : FsckResult → FsckResult
  extra : FsckResult → FsckResult

def Fsck.blockCheck (w : Fsck) (g : Geom) : BitmapCheck where
  region := g.blockBitmapStart
  bits := g.totalBlocks
  want b := if b < g.totalBlocks then w.bbm b else true
  counted b := b < g.totalBlocks
  inArray b := b < g.totalBlocks → b < CFS_FSCK_MAX_BLOCKS
  missing r := { r with blockBadref := r.blockBadref + 1 }
  extra r := { r with blockLeaks := r.blockLeaks + 1 }

def Fsck.inodeCheck (w : Fsck) (g : Geom) : BitmapCheck where
  region := g.inodeBitmapStart
  bits := g.totalInodes
  want n := if n = 0 then true else if n < g.totalInodes then w.ibm n else true
  counted n := n < g.totalInodes ∧ 0 < n
  inArray n := n ≠ 0 → n < g.totalInodes → n < CFS_FSCK_MAX_INODES
  missing r := { r with inodeBadref := r.inodeBadref + 1 }
  extra r := { r with inodeLeaks := r.inodeLeaks + 1 }

/-- Bit `i` of a bitmap block whose first bit has index `base`: the block, and whether it has been
changed. -/
def fsckBit (c : BitmapCheck) (repair : Bool) (base : ℕ) (x : Block × Bool × Fsck) (i : ℕ) : Block × Bool × Fsck :=
  let (buf, dirty, w) := x
  let disk := buf.bit i
  let want := c.want (base + i)
  let w := w.access (c.inArray (base + i))
  let w := if c.counted (base + i) then
      if want && !disk then w.count c.missing else if !want && disk then w.count c.extra else w
    else w
  if repair && want != disk then (buf.setBit i want, true, w) else (buf, dirty, w)

@[irreducible] def blockBits : List ℕ := List.range 32768

def fsckBits (c : BitmapCheck) (repair : Bool) (base : ℕ) (buf : Block) (w : Fsck) : Block × Bool × Fsck :=
  blockBits.foldl (fsckBit c repair base) (buf, false, w)

def fsckBitmap (c : BitmapCheck) (repair : Bool) : List ℕ → Fsck → M Fsck
  | [], w => pure w
  | bb :: bbs, w => do
      match ← attempt (rawReadBlock (c.region + bb)) with
      | none => pure w
      | some buf =>
          let x := fsckBits c repair (bb * 32768) buf w
          if repair && x.2.1 then do
            let _ ← attempt (rawWriteBlock (c.region + bb) x.1)
            fsckBitmap c repair bbs x.2.2
          else fsckBitmap c repair bbs x.2.2

theorem attempt_some {α : Type} {x : M α} {a : α} {s' : St} (h : x.run s = (some a, s')) :
    (attempt x).run s = (some (some a), s') := by
  rw [attempt_run, h]

theorem attempt_none {α : Type} {x : M α} {s' : St} (h : x.run s = (none, s')) :
    (attempt x).run s = (some none, s') := by
  rw [attempt_run, h]

/-- An inode with its link count corrected, when it is wrong and repaired. -/
def fixLinks (repair : Bool) (refs : ℕ) (d : DInode) : DInode :=
  if d.links ≠ refs ∧ repair then d.setLinks refs else d

def csumWrong (flags : ℕ) (d : DInode) : Bool := flags &&& CFS_FEAT_CSUM ≠ 0 ∧ d.csum ≠ inodeCsum d

def fsckLinks (repair : Bool) : List ℕ → Fsck → M Fsck
  | [], w => pure w
  | n :: ns, w => do
      let w := w.access (n < CFS_FSCK_MAX_INODES)
      if w.ibm n = false then fsckLinks repair ns w
      else match ← attempt (readDinode n) with
        | none => fsckLinks repair ns w
        | some d => do
            let fs ← getFs
            let w := if d.links ≠ w.refs n then w.count fun r => { r with linkcountBad := r.linkcountBad + 1 } else w
            let d' := fixLinks repair (w.refs n) d
            let w := if csumWrong fs.flags d' then w.count fun r => { r with inodeCsumBad := r.inodeCsumBad + 1 } else w
            if repair && (d.links ≠ w.refs n || csumWrong fs.flags d') then do
              let _ ← attempt (writeDinode n d')
              fsckLinks repair ns w
            else fsckLinks repair ns w

/-- The superblock with its free counts corrected, when they are wrong and repaired. -/
def fixFree (repair : Bool) (fb fi : ℕ) (sb : Block) : Block :=
  if (Super.freeBlocks sb ≠ fb ∨ Super.freeInodes sb ≠ fi) ∧ repair then
    ((sb.setLE 32 8 fb).setLE 40 8 fi).setLE 128 4 CFS_STATE_CLEAN
  else sb

def superWrong (flags : ℕ) (sb : Block) : Bool := flags &&& CFS_FEAT_CSUM ≠ 0 ∧ Super.sbCsum sb ≠ superCsum sb

def fsckSuper (repair : Bool) (fb fi : ℕ) (w : Fsck) : M Fsck := do
  match ← attempt (rawReadBlock 0) with
  | none => pure w
  | some sb => do
      let fs ← getFs
      let bad := Super.freeBlocks sb ≠ fb || Super.freeInodes sb ≠ fi
      let w := if bad then w.count fun r => { r with freecountBad := r.freecountBad + 1 } else w
      let sb := fixFree repair fb fi sb
      let w := if superWrong fs.flags sb then w.count fun r => { r with sbCsumBad := r.sbCsumBad + 1 } else w
      if repair && (bad || superWrong fs.flags sb) then do
        let _ ← attempt (rawWriteBlock 0
          (if fs.flags &&& CFS_FEAT_CSUM ≠ 0 then sb.setLE 140 4 (superCsum (sb.setLE 140 4 0)) else sb))
        setCounts fun _ => (fb, fi)
        pure w
      else pure w

/-- The blocks of the volume that are in use. -/
def Fsck.usedBlocks (w : Fsck) (g : Geom) : ℕ := (List.range g.totalBlocks).countP fun b => b < g.dataStart || w.bbm b

def Fsck.usedInodes (w : Fsck) (g : Geom) : ℕ := (List.range g.totalInodes).countP fun n => n = 0 || w.ibm n

def FsckResult.sum (r : FsckResult) : ℕ :=
  r.sbBad + r.blockBadref + r.blockLeaks + r.blockDup + r.inodeBadref + r.inodeLeaks +
    r.linkcountBad + r.freecountBad + r.sbCsumBad + r.inodeCsumBad

/-- What follows the walk. -/
def fsckCompare (repair : Bool) (w : Fsck) : M Fsck := do
  let fs ← getFs
  let w ← fsckBitmap (w.blockCheck fs.toGeom) repair (bitmapBlocks fs.totalBlocks) w
  let w := w.access ((List.range fs.totalBlocks).all (· < CFS_FSCK_MAX_BLOCKS))
  let w ← fsckBitmap (w.inodeCheck fs.toGeom) repair (bitmapBlocks fs.totalInodes) w
  let w := w.access ((List.range fs.totalInodes).all (· < CFS_FSCK_MAX_INODES))
  let w ← fsckLinks repair (List.range' 1 (fs.totalInodes - 1)) w
  let w ← fsckSuper repair (fs.totalBlocks - w.usedBlocks fs.toGeom) (fs.totalInodes - w.usedInodes fs.toGeom) w
  pure (w.count fun r => { r with total := r.sum })

/-- `cfs_fsck`: the working sets with the result, and the return value. Every directory is visited
once, so the walk needs no more rounds than there are inodes. -/
def cfsFsck (repair : Bool) : M (Option (Fsck × ℤ)) := do
  let fs ← getFs
  if CFS_FSCK_MAX_BLOCKS < fs.totalBlocks ∨ CFS_FSCK_MAX_INODES < fs.totalInodes then
    pure (some ({ bbm := fun _ => false, ibm := fun _ => false, refs := fun _ => 0, stack := [],
                  out := { sbBad := 1, total := 1 }, wild := false }, -1))
  else
    match ← fsckWalk (fs.totalInodes + 2) (fsckInit fs.toGeom) with
    | none => pure none
    | some w => do
        let w ← fsckCompare repair w
        pure (some (w, w.out.total))

end ComputerOS.Cfs
