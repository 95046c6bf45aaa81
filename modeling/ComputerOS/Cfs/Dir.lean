import ComputerOS.Cfs.Core

/-!
Directory blocks and path resolution of CFS. A directory block is a sequence of
records; every loop of the source over a block visits the same records, so the
walk is one function and the loops search its list.
-/
namespace ComputerOS.Cfs

open M Bytes

/-- Offsets of the records the walk visits from `off` on. It ends at the block's
end or at a record length that is too small or leaves the block. -/
def dirRecs (blk : Block) (off : ℕ) : List ℕ :=
  if off + 12 ≤ 4096 then
    if _h : Dirent.recLen blk off < 12 ∨ 4096 < off + Dirent.recLen blk off then []
    else off :: dirRecs blk (off + Dirent.recLen blk off)
  else []
  termination_by 4096 - off

def nameEq (blk : Block) (name : Name) (off : ℕ) : Bool :=
  Dirent.inode blk off ≠ 0 ∧ Dirent.nameLen blk off = name.length ∧
    blk.slice (off + 12) name.length = name

/-- The record's name is `.` or `..`. -/
def isDots (blk : Block) (off : ℕ) : Bool :=
  (Dirent.nameLen blk off = 1 ∧ blk.byte (off + 12) = 46) ∨
  (Dirent.nameLen blk off = 2 ∧ blk.byte (off + 12) = 46 ∧ blk.byte (off + 13) = 46)

def lookupBlocks (d : DInode) (name : Name) : List ℕ → M ℕ
  | [] => pure 0
  | fb :: fbs => do
      let pb := mapFileblock d fb
      if pb = 0 then lookupBlocks d name fbs
      else match ← attempt (bdReadBlock pb) with
        | none => pure 0
        | some blk =>
            match (dirRecs blk 0).find? (nameEq blk name) with
            | some off => pure (Dirent.inode blk off)
            | none => lookupBlocks d name fbs

def dirLookup (d : DInode) (name : Name) : M ℕ :=
  lookupBlocks d name (List.range (d.size / 4096))

/-- Header and name of a record; its length field is left alone. -/
def putEntry (blk : Block) (off child type : ℕ) (name : Name) : Block :=
  ((((blk.setLE off 8 child).setLE (off + 10) 1 name.length).setLE (off + 11) 1 type).put
    (off + 12) name)

/-- A fresh directory block with the entries `.` and `..`. -/
def dirInitBlock (self parent : ℕ) : Block :=
  let dot := (putEntry zero 0 self CFS_FT_DIR [46]).setLE 8 2 (align8 13)
  (putEntry dot 16 parent CFS_FT_DIR [46, 46]).setLE 24 2 (4096 - 16)

/-- 32-bit subtraction. -/
def sub32 (a b : ℕ) : ℕ := (a + 2 ^ 32 - b) % 2 ^ 32

/-- The bytes a live record needs for itself. -/
def usedLen (blk : Block) (off : ℕ) : ℕ := align8 (12 + Dirent.nameLen blk off)

/-- A free record that is large enough, or a live one with enough slack. -/
def fitsAt (blk : Block) (need off : ℕ) : Bool :=
  if Dirent.inode blk off = 0 then need ≤ Dirent.recLen blk off
  else need ≤ sub32 (Dirent.recLen blk off) (usedLen blk off)

/-- Put the entry into the record found: reuse a free one, or split a live one. -/
def addAt (blk : Block) (off child type : ℕ) (name : Name) : Block :=
  if Dirent.inode blk off = 0 then putEntry blk off child type name
  else
    let used := usedLen blk off
    let newlen := sub32 (Dirent.recLen blk off) used
    putEntry ((Dirent.setRecLen blk off used).setLE (off + used + 8) 2 newlen)
      (off + used) child type name

/-- The search of `dir_add` through the existing blocks; `none` when no block has room. -/
def addBlocks (d : DInode) (name : Name) (child type : ℕ) : List ℕ → M (Option Unit)
  | [] => pure none
  | fb :: fbs => do
      let pb := mapFileblock d fb
      if pb = 0 then addBlocks d name child type fbs
      else do
        let blk ← bdReadBlock pb
        match (dirRecs blk 0).find? (fitsAt blk (align8 (12 + name.length))) with
        | some off => do
            bdWriteBlock pb (addAt blk off child type name)
            pure (some ())
        | none => addBlocks d name child type fbs

def freshDirBlock (child type : ℕ) (name : Name) : Block :=
  (putEntry zero 0 child type name).setLE 8 2 4096

/-- No room: append a block. -/
def growDir (d : DInode) (name : Name) (child type : ℕ) : M DInode := do
  let b ← allocBlock
  ensure (b ≠ 0)
  rawWriteBlock b (freshDirBlock child type name)
  match inodePushExtent d b 1 with
  | none => do
      freeBlock b
      fail
  | some d => pure (d.setSize (d.size + 4096))

/-- `dir_add`; the directory inode as it is afterwards. -/
def dirAdd (d : DInode) (name : Name) (child type : ℕ) : M DInode := do
  match ← addBlocks d name child type (List.range (d.size / 4096)) with
  | some _ => pure d
  | none => growDir d name child type

/-- The block without the entry: its space goes to the record before it, or the
record is marked free when it is the first. -/
def removeFrom (blk : Block) (name : Name) : Option ℕ → List ℕ → Option Block
  | _, [] => none
  | prev, off :: rest =>
      if nameEq blk name off then
        some (match prev with
          | some p => Dirent.setRecLen blk p (Dirent.recLen blk p + Dirent.recLen blk off)
          | none => Dirent.setInode blk off 0)
      else removeFrom blk name (some off) rest

def removeBlocks (d : DInode) (name : Name) : List ℕ → M Unit
  | [] => fail
  | fb :: fbs => do
      let pb := mapFileblock d fb
      if pb = 0 then removeBlocks d name fbs
      else do
        let blk ← bdReadBlock pb
        match removeFrom blk name none (dirRecs blk 0) with
        | some blk' => bdWriteBlock pb blk'
        | none => removeBlocks d name fbs

def dirRemove (d : DInode) (name : Name) : M Unit :=
  removeBlocks d name (List.range (d.size / 4096))

def emptyBlocks (d : DInode) : List ℕ → M Bool
  | [] => pure true
  | fb :: fbs => do
      let pb := mapFileblock d fb
      if pb = 0 then emptyBlocks d fbs
      else match ← attempt (bdReadBlock pb) with
        | none => pure false
        | some blk =>
            if (dirRecs blk 0).all (fun off => Dirent.inode blk off = 0 ∨ isDots blk off) then
              emptyBlocks d fbs
            else pure false

def dirIsEmpty (d : DInode) : M Bool := emptyBlocks d (List.range (d.size / 4096))

/-- The components of a path: what stands between slashes. -/
def components (path : List UInt8) : List Name := (path.splitOn 47).filter (· ≠ [])

/-- The walk of `resolve_ino` from inode `ino`; 0 when a component is missing. -/
def walk (ino : ℕ) : List Name → M ℕ
  | [] => pure ino
  | c :: cs =>
      if CFS_NAME_MAX < c.length then pure 0
      else do
        match ← attempt (readDinode ino) with
        | none => pure 0
        | some d =>
            if d.isDir = false then pure 0
            else do
              let next ← dirLookup d c
              if next = 0 then pure 0 else walk next cs

def resolveIno (path : List UInt8) : M ℕ := do
  let fs ← getFs
  walk fs.rootIno (components path)

/-- What follows the last slash of a path. -/
def leafOf (path : List UInt8) : Name := (path.reverse.takeWhile (· ≠ 47)).reverse

/-- What precedes the last slash; the root when there is none or it is the first byte. -/
def parentOf (path : List UInt8) : List UInt8 :=
  match (path.reverse.dropWhile (· ≠ 47)).tail.reverse with
  | [] => [47]
  | p => p

def resolveParent (path : List UInt8) : M (ℕ × Name) := do
  ensure ((leafOf path).length ≠ 0 ∧ (leafOf path).length ≤ CFS_NAME_MAX)
  ensure ((parentOf path).length < 256)
  let pino ← resolveIno (parentOf path)
  ensure (pino ≠ 0)
  let d ← readDinode pino
  ensure (d.isDir = true)
  pure (pino, leafOf path)

end ComputerOS.Cfs
