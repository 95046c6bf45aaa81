import ComputerOS.Ext2.Blocks

/-!
File contents: reading a range, replacing the whole content, and symlink targets.
-/
namespace ComputerOS.Ext2

open Mem (clip)

open Prog

abbrev Str := List UInt8

/-- How many whole blocks from `lb` on one device request can read: they follow `pb` on disk and fit
the rest of the range. -/
def runLength (g : Geom) (ind : Inode) (lb pb done len : ℕ) : ℕ → ℕ → Prog ℕ
  | 0, run => pure run
  | n + 1, run => do
      if run < 128 ∧ u32 (done + (run + 1) * g.blockSize) ≤ len then do
        let (b, _) ← bmap g ind 0 (lb + run) false
        if b = u32 (pb + run) then runLength g ind lb pb done len n (run + 1) else pure run
      else pure run

/-- The loop of `read_range`: the buffer, and whether the device answered. -/
def readLoop (g : Geom) (ind : Inode) (off len : ℕ) : ℕ → ℕ → Mem → Prog (Bool × Mem)
  | 0, _, out => pure (true, out)
  | n + 1, done, out =>
      if done < len then do
        let pos := off + done
        let boff := pos % g.blockSize
        let chunk := min (g.blockSize - boff) (len - done)
        let (pb, _) ← bmap g ind 0 (pos / g.blockSize) false
        if pb = 0 then readLoop g ind off len n (done + chunk) (out.blit done (fun _ => 0) 0 chunk)
        else if boff = 0 ∧ chunk = g.blockSize then do
          let run ← runLength g ind (pos / g.blockSize) pb done len 127 1
          match ← devRead pb run with
          | none => pure (false, out)
          | some p => readLoop g ind off len n (done + run * g.blockSize) (out.blit done p 0 (run * g.blockSize))
        else do
          match ← bread pb with
          | none => pure (false, out)
          | some p => readLoop g ind off len n (done + chunk) (out.blit done p boff chunk)
      else pure (true, out)

/-- `read_range`: the number of bytes, `none` on an I/O error, and the caller's buffer. -/
def readRange (g : Geom) (ind : Inode) (out : Mem) (off len : ℕ) : Prog (Option ℕ × Mem) := do
  if ind.size ≤ off then pure (some 0, out)
  else do
    let len := min len (ind.size - off)
    let (ok, out) ← readLoop g ind off len len 0 out
    pure (if ok then some len else none, out)

def binvals : ℕ → List ℕ → Prog Unit
  | _, [] => pure ()
  | blk, k :: l => do
      binval (u32 (blk + k))
      binvals blk l

/-- Whole blocks of `data` from logical block `lb` on go to `count` blocks from `blk` on, around the
cache. -/
def flushRun (g : Geom) (data : Mem) (blk count lb : ℕ) : Prog Bool := do
  binvals blk (List.range count)
  devWrite blk count fun i => data (lb * g.blockSize + i)

/-- The blocks that wait to be written in one request, and how many leading blocks are on disk. -/
structure Pending where
  start : ℕ
  len : ℕ
  lb : ℕ
  committed : ℕ

/-- The waiting blocks go to disk. -/
def flushPending (g : Geom) (data : Mem) (r : Pending) : Prog Bool :=
  if r.len ≠ 0 then flushRun g data r.start r.len r.lb else pure true

/-- The loop of `write_content`: whether it got to the end, the inode, and what is still to be
written. -/
def writeLoop (g : Geom) (goal : ℕ) (data : Mem) (size : ℕ) : List ℕ → Inode → Pending → Prog (Bool × Inode × Pending)
  | [], ind, r => pure (true, ind, r)
  | lb :: l, ind, r => do
      let (pb, ind) ← bmap g ind goal lb true
      if pb = 0 then pure (false, ind, r)
      else
        let full : Bool := u32 ((lb + 1) * g.blockSize) ≤ size
        if full ∧ r.len ≠ 0 ∧ pb = u32 (r.start + r.len) ∧ r.len < 128 then
          writeLoop g goal data size l ind { r with len := r.len + 1 }
        else do
          let ok ← flushPending g data r
          if ok = false then pure (false, ind, r)
          else
            let r := if r.len ≠ 0 then { r with committed := r.lb + r.len, len := 0 } else r
            if full then writeLoop g goal data size l ind { r with start := pb, len := 1, lb := lb }
            else do
              -- a partial last block is padded with zeros
              let tail := Mem.blit (fun _ => 0) 0 data (lb * g.blockSize) (size - lb * g.blockSize)
              victim tail
              if ← bwrite pb tail then writeLoop g goal data size l ind { r with committed := lb + 1 }
              else pure (false, ind, r)

/-- The inode behind the loop: after a failure what is known to be on disk stays. -/
def settleSize (g : Geom) (ind : Inode) (r : Pending) (size : ℕ) (ok : Bool) : Prog Inode :=
  if ok then pure (ind.setSize size)
  else do
    let kept := min (u32 (r.committed * g.blockSize)) size
    let ind ← truncateBlocks g ind kept
    pure (ind.setSize kept)

/-- Replace the whole content of a regular file: whether all of it was written, and the inode. -/
def writeContent (g : Geom) (ino : ℕ) (ind : Inode) (data : Mem) (size : ℕ) : Prog (Bool × Inode) := do
  let goal := g.groupOfIno ino
  let ind ← truncateBlocks g ind size
  let nblocks := u32 (size + g.blockSize - 1) / g.blockSize
  let (ok, ind, r) ← writeLoop g goal data size (List.range nblocks) ind ⟨0, 0, 0, 0⟩
  let flushed ← if ok then flushPending g data r else pure false
  let ind ← settleSize g ind r size flushed
  let t ← now
  let ind := (ind.setCtime t).setMtime t
  let _ ← writeInode g ino ind
  pure (flushed, ind)

/-- The target, `none` when it does not fit a buffer of `max` bytes or cannot be read. -/
def readSymlink (g : Geom) (ind : Inode) (max : ℕ) : Prog (Option Str) := do
  let n := ind.size
  if max ≤ n then pure none
  else if ind.isFastSymlink g then pure (some ((List.range n).map fun i => ind (40 + i)))
  else do
    let (pb, _) ← bmap g ind 0 0 false
    if pb = 0 then pure none
    else
      match ← bread pb with
      | none => pure none
      | some p => pure (some ((List.range n).map p))

end ComputerOS.Ext2

-- Directories: entries in blocks, looking up, adding and removing names, and resolving paths. A
-- string is the list of its bytes before the terminator.
namespace ComputerOS.Ext2

open Mem (clip)

open Prog

def FT_UNKNOWN : ℕ := 0

def FT_REG : ℕ := 1

def FT_DIR : ℕ := 2

def FT_SYMLINK : ℕ := 7

def EXT2_INDEX_FL : ℕ := 12

def EXT2_ROOT_INO : ℕ := 2

def slash : UInt8 := 0x2f

def dot : UInt8 := 0x2e

/-- The bytes of a string in memory. -/
def Str.mem (s : Str) : Mem := fun i => s.getD i 0

def direntSize (nameLen : ℕ) : ℕ := (8 + nameLen + 3) / 4 * 4

/-- A directory entry in block `p` at offset `off`. -/
structure At where
  p : Mem
  off : ℕ

namespace At

variable (g : Geom) (d : At)

def ino : ℕ := d.p.getLE d.off 4

def recLen : ℕ := d.p.getLE (d.off + 4) 2

def nameLen : ℕ := if g.hasFiletype then (d.p (d.off + 6)).toNat else d.p.getLE (d.off + 6) 2

def name (n : ℕ) : Str := (List.range n).map fun i => d.p (d.off + 8 + i)

/-- A used entry with this name. -/
def Named (s : Str) : Prop := d.ino ≠ 0 ∧ d.nameLen g = s.length ∧ d.name s.length = s

instance (s : Str) : Decidable (d.Named g s) := inferInstanceAs (Decidable (_ ∧ _))

/-- The entry `.` or `..`. -/
def isDot : Bool :=
  (d.nameLen g = 1 ∧ d.p (d.off + 8) = dot) ∨
  (d.nameLen g = 2 ∧ d.p (d.off + 8) = dot ∧ d.p (d.off + 9) = dot)

/-- The bytes of its record that the entry uses. -/
def used : ℕ := if d.ino = 0 then 0 else direntSize (d.nameLen g)

end At

/-- The entries that the loops over a directory block come to. -/
def direntsFrom (g : Geom) (p : Mem) : ℕ → ℕ → List ℕ
  | 0, _ => []
  | n + 1, off =>
      if g.blockSize < off + 8 then []
      else
        let rec_ := At.recLen ⟨p, off⟩
        if rec_ < 8 ∨ g.blockSize < off + rec_ then [] else off :: direntsFrom g p n (off + rec_)

def dirents (g : Geom) (p : Mem) : List ℕ := direntsFrom g p g.blockSize 0

def modeToFt (ind : Inode) : ℕ :=
  if ind.isDir then FT_DIR
  else if ind.isLnk then FT_SYMLINK
  else if ind.fmt = S_IFREG then FT_REG
  else FT_UNKNOWN

def direntSet (g : Geom) (p : Mem) (off ino recLen : ℕ) (name : Str) (ft : ℕ) : Mem :=
  let p := (p.setLE off 4 ino).setLE (off + 4) 2 recLen
  let p := if g.hasFiletype then (p.setLE (off + 6) 1 name.length).setLE (off + 7) 1 ft
    else p.setLE (off + 6) 2 name.length
  p.blit (off + 8) (Str.mem name) 0 name.length

/-- The loop over the blocks of a directory: `f` looks at each block that is there, and ends the
loop with `some`; `none` is an I/O error. -/
def eachBlock {α : Type} (g : Geom) (dir : Inode) (f : ℕ → Mem → Prog (Option α)) : List ℕ → Prog (Option (Option α))
  | [] => pure (some none)
  | lb :: l => do
      let (pb, _) ← bmap g dir 0 lb false
      if pb = 0 then eachBlock g dir f l
      else do
        match ← bread pb with
        | none => pure none
        | some p => do
            match ← f pb p with
            | some a => pure (some (some a))
            | none => eachBlock g dir f l

def dirBlocks (g : Geom) (dir : Inode) : List ℕ := List.range (dir.size / g.blockSize)

/-- The entry of a block with this name. -/
def findName (g : Geom) (p : Mem) (name : Str) : Option ℕ :=
  (dirents g p).find? fun off => At.Named g ⟨p, off⟩ name

def dirLookup (g : Geom) (dir : Inode) (name : Str) : Prog (Option ℕ) := do
  let r ← eachBlock g dir (fun _ p => pure ((findName g p name).map fun off => At.ino ⟨p, off⟩)) (dirBlocks g dir)
  pure (r.getD none)

/-- `dir->flags &= ~EXT2_INDEX_FL`. -/
def Inode.dropIndex (ind : Inode) : Inode :=
  if ind.flags.testBit EXT2_INDEX_FL then ind.setFlags (ind.flags - 2 ^ EXT2_INDEX_FL) else ind

def dirTouch (g : Geom) (dirIno : ℕ) (dir : Inode) : Prog Inode := do
  let t ← now
  let dir := ((dir.setCtime t).setMtime t).dropIndex
  let _ ← writeInode g dirIno dir
  pure dir

/-- The first entry of a block with room for `need` bytes. -/
def findRoom (g : Geom) (p : Mem) (need : ℕ) : Option ℕ :=
  (dirents g p).find? fun off => At.used g ⟨p, off⟩ + need ≤ At.recLen ⟨p, off⟩

/-- The block with the entry added in the room at `off`. -/
def putEntry (g : Geom) (p : Mem) (off ino : ℕ) (name : Str) (ft : ℕ) : Mem :=
  let used := At.used g ⟨p, off⟩
  let rec_ := At.recLen ⟨p, off⟩
  if used = 0 then direntSet g p off ino rec_ name ft
  else direntSet g (p.setLE (off + 4) 2 used) (off + used) ino (rec_ - used) name ft

/-- Add an entry to a directory: whether it is there now, and the directory's inode. -/
def dirAdd (g : Geom) (dirIno : ℕ) (dir : Inode) (name : Str) (ino ft : ℕ) : Prog (Bool × Inode) := do
  if name.length = 0 ∨ 255 < name.length then pure (false, dir)
  else do
    let r ← eachBlock g dir (fun pb p =>
      match findRoom g p (direntSize name.length) with
      | none => pure none
      | some off => do
          let ok ← bwrite pb (putEntry g p off ino name ft)
          pure (some ok)) (dirBlocks g dir)
    match r with
    | none => pure (false, dir)
    | some (some false) => pure (false, dir)
    | some (some true) => do
        let dir ← dirTouch g dirIno dir
        pure (true, dir)
    | some none => do
        -- no room: a fresh block holds just this entry
        let (pb, dir) ← bmap g dir (g.groupOfIno dirIno) (dir.size / g.blockSize) true
        if pb = 0 then pure (false, dir)
        else do
          let p := direntSet g (fun _ => 0) 0 ino g.blockSize name ft
          victim p
          if ← bwrite pb p then do
            let dir ← dirTouch g dirIno (dir.setSize (dir.size + g.blockSize))
            pure (true, dir)
          else pure (false, dir)

def before (off : ℕ) : Option ℕ → List ℕ → Option ℕ
  | _, [] => none
  | prev, o :: l => if o = off then prev else before off (some o) l

/-- The block without the entry at `off`: it is merged into the one before, or cleared as the first
one. -/
def cutEntry (g : Geom) (p : Mem) (off : ℕ) : Mem :=
  match before off none (dirents g p) with
  | some prev => p.setLE (prev + 4) 2 (At.recLen ⟨p, prev⟩ + At.recLen ⟨p, off⟩)
  | none => p.setLE off 4 0

def dirRemove (g : Geom) (dirIno : ℕ) (dir : Inode) (name : Str) : Prog (Bool × Inode) := do
  let r ← eachBlock g dir (fun pb p =>
    match findName g p name with
    | none => pure none
    | some off => do
        let ok ← bwrite pb (cutEntry g p off)
        pure (some ok)) (dirBlocks g dir)
  match r with
  | some (some true) => do
      let dir ← dirTouch g dirIno dir
      pure (true, dir)
  | _ => pure (false, dir)

/-- Whether the directory holds nothing but `.` and `..`. -/
def dirIsEmpty (g : Geom) (dir : Inode) : Prog Bool := do
  let r ← eachBlock g dir (fun _ p =>
    pure (if (dirents g p).any (fun off => At.ino ⟨p, off⟩ ≠ 0 ∧ At.isDot g ⟨p, off⟩ = false) then some () else none))
    (dirBlocks g dir)
  pure (r = some none)

/-- Point a directory's `..` entry at a new parent. -/
def dirSetDotdot (g : Geom) (ino parent : ℕ) : Prog Bool := do
  match ← readInode g ino with
  | none => pure false
  | some ind => do
      let (pb, _) ← bmap g ind 0 0 false
      if pb = 0 then pure false
      else do
        match ← bread pb with
        | none => pure false
        | some p =>
            let rec_ := At.recLen ⟨p, 0⟩
            if rec_ < 12 ∨ g.blockSize < rec_ + 12 then pure false
            else if At.nameLen g ⟨p, rec_⟩ ≠ 2 ∨ p (rec_ + 8) ≠ dot ∨ p (rec_ + 9) ≠ dot then pure false
            else bwrite pb (p.setLE rec_ 4 parent)

def MAX_SYMLINKS : ℕ := 8

def skipSlashes (p : Str) : Str := p.dropWhile (· == slash)

/-- The loop of `namei`: the inode, 0 when there is none. Each turn takes a component from the rest
of the path, or puts the target of a symlink before it. -/
def nameiFrom (g : Geom) (followLast : Bool) : ℕ → ℕ → ℕ → Str → Prog ℕ
  | 0, _, _, _ => pure 0
  | n + 1, cur, links, path => do
      let path := skipSlashes path
      if path = [] then pure cur
      else
        let comp := path.takeWhile (· != slash)
        let rest := skipSlashes (path.dropWhile (· != slash))
        if 255 < comp.length then pure 0
        else if comp = [dot] then nameiFrom g followLast n cur links rest
        else do
          match ← readInode g cur with
          | none => pure 0
          | some din =>
              if din.isDir = false then pure 0
              else do
                match ← dirLookup g din comp with
                | none => pure 0
                | some child => do
                    match ← readInode g child with
                    | none => pure 0
                    | some cin =>
                        if cin.isLnk ∧ (rest ≠ [] ∨ followLast) then
                          if MAX_SYMLINKS < links + 1 then pure 0
                          else do
                            match ← readSymlink g cin 256 with
                            | none => pure 0
                            | some target =>
                                -- the target ends at its first zero byte
                                let tgt := target.takeWhile (· != 0)
                                let cur := if tgt.head? = some slash then EXT2_ROOT_INO else cur
                                if 511 < tgt.length + 1 + rest.length then pure 0
                                else nameiFrom g followLast n cur (links + 1) (tgt ++ slash :: rest)
                        else nameiFrom g followLast n child links rest

/-- Every turn but those that follow one of at most eight links shortens a path of at most 511
bytes. -/
def nameiTurns : ℕ := (MAX_SYMLINKS + 1) * 513

def namei (g : Geom) (path : Str) (followLast : Bool) : Prog ℕ :=
  if 511 < path.length then pure 0 else nameiFrom g followLast nameiTurns EXT2_ROOT_INO 0 path

/-- The path without trailing slashes, of which the first byte stays. -/
def stripSlashes (path : Str) : Str :=
  match path with
  | [] => []
  | c :: s => c :: (s.reverse.dropWhile (· == slash)).reverse

/-- What follows the last slash, and what stands before it; `none` when there is no slash. -/
def lastPart (path : Str) : Str × Option Str :=
  let base := (path.reverse.takeWhile (· != slash)).reverse
  (base, if slash ∈ path then some (path.take (path.length - base.length - 1)) else none)

/-- Split `/a/b/c` into the inode of `/a/b` and the name `c`. -/
def splitParent (g : Geom) (path : Str) : Prog (Option (ℕ × Str)) := do
  let (base, front) := lastPart (stripSlashes path)
  if base.length = 0 ∨ 255 < base.length ∨ base = [dot] ∨ base = [dot, dot] then pure none
  else
    let front := front.getD []
    if 512 ≤ front.length then pure none
    else do
      let pino ← namei g (if front = [] then [slash] else front) true
      if pino = 0 then pure none
      else do
        match ← readInode g pino with
        | none => pure none
        | some pin => pure (if pin.isDir then some (pino, base) else none)

end ComputerOS.Ext2
