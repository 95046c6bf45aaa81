import ComputerOS.Ext2.Dirs

/-!
The operations that the VFS calls on a mounted volume, and runs of them.
-/
namespace ComputerOS.Ext2

open Mem (clip)

open Prog

def EXT2_EA_MAGIC : ℕ := 0xEA020000

/-- The extended-attribute block of an inode that goes: a shared one loses a reference. -/
def releaseAcl (g : Geom) (acl : ℕ) : Prog Unit := do
  match ← bread acl with
  | none => freeBlock g acl
  | some p =>
      if p.getLE 0 4 = EXT2_EA_MAGIC ∧ 1 < p.getLE 4 4 then do
        let _ ← bwrite acl (p.setLE 4 4 (p.getLE 4 4 - 1))
        pure ()
      else freeBlock g acl

/-- The inode without its extended-attribute block. -/
def dropAcl (g : Geom) (ind : Inode) : Prog Inode :=
  if ind.fileAcl ≠ 0 then do
    releaseAcl g ind.fileAcl
    pure ((ind.dropBlock g).setFileAcl 0)
  else pure ind

def releaseInode (g : Geom) (ino : ℕ) (ind : Inode) : Prog Unit := do
  let isDir := ind.isDir
  let ind ← truncateBlocks g ind 0
  let ind ← dropAcl g ind
  let ind : Inode := if ind.isFastSymlink g then Mem.blit ind 40 (fun _ => 0) 0 60 else ind
  let t ← now
  let _ ← writeInode g ino (((ind.setLinks 0).setSize 0).setDtime t)
  freeInodeBit g ino isDir

/-- The link counts behind a removed name: a directory's parent loses the child's "..". -/
def countUnlink (g : Geom) (pino : ℕ) (pin ind : Inode) (wantDir : Bool) : Prog (Inode × Inode) :=
  if wantDir then do
    let pin := if 2 < pin.links then pin.setLinks (pin.links - 1) else pin
    let _ ← writeInode g pino pin
    pure (pin, ind.setLinks 0)
  else pure (pin, if ind.links ≠ 0 then ind.setLinks (ind.links - 1) else ind)

/-- Remove a name from directory `pino`, of a directory if `wantDir`: whether it is gone, and the
directory's inode. -/
def doUnlink (g : Geom) (pino : ℕ) (pin : Inode) (base : Str) (wantDir : Bool) : Prog (Bool × Inode) := do
  match ← dirLookup g pin base with
  | none => pure (false, pin)
  | some ino => do
      match ← readInode g ino with
      | none => pure (false, pin)
      | some ind => do
          if ind.isDir ≠ wantDir then pure (false, pin)
          else do
            let removable ← if wantDir then dirIsEmpty g ind else pure true
            if removable = false then pure (false, pin)
            else do
              let (ok, pin) ← dirRemove g pino pin base
              if ok = false then pure (false, pin)
              else do
                let (pin, ind) ← countUnlink g pino pin ind wantDir
                if ind.links = 0 then do
                  releaseInode g ino ind
                  pure (true, pin)
                else do
                  let t ← now
                  let _ ← writeInode g ino (ind.setCtime t)
                  pure (true, pin)

def freshInode (mode links t : ℕ) : Inode :=
  ((((Inode.setMode (fun _ => 0) mode).setLinks links).setAtime t).setCtime t).setMtime t

/-- Create an inode and name it in the parent: its number, 0 on failure, the inode, and the parent's
inode. -/
def createNode (g : Geom) (pino : ℕ) (pin : Inode) (base : Str) (mode : ℕ) : Prog (ℕ × Inode × Inode) := do
  let dir := Inode.isDir (Inode.setMode (fun _ => 0) mode)
  let ino ← allocInode g (g.groupOfIno pino) dir
  if ino = 0 then pure (0, fun _ => 0, pin)
  else do
    let t ← now
    let ind := freshInode mode (if dir then 2 else 1) t
    if ← writeInodeEx g ino ind true then do
      let (ok, pin) ← dirAdd g pino pin base ino (modeToFt ind)
      if ok then pure (ino, ind, pin)
      else do
        freeInodeBit g ino dir
        pure (0, ind, pin)
    else do
      freeInodeBit g ino dir
      pure (0, ind, pin)

/-- What `vfs_dirent_t` says of an entry. -/
structure Dirent where
  name : Str
  ino : ℕ
  size : ℕ
  attr : ℕ

def SYMLINK_MAGIC : Str := [0x21, 0x3c, 0x73, 0x79, 0x6d, 0x6c, 0x69, 0x6e, 0x6b, 0x3e]

/-- The entries of a block that are listed, in front of at most `room` places. -/
def listed (g : Geom) (p : Mem) : List ℕ → ℕ → List Dirent
  | [], _ => []
  | _ :: _, 0 => []
  | off :: l, room + 1 =>
      let d : At := ⟨p, off⟩
      if d.ino ≠ 0 ∧ 0 < d.nameLen g ∧ d.isDot g = false then
        ⟨d.name (d.nameLen g), d.ino, 0, 0⟩ :: listed g p l room
      else listed g p l (room + 1)

/-- The first pass of `fill_dirents`: names and inode numbers. -/
def listBlocks (g : Geom) (dir : Inode) (max : ℕ) : List ℕ → List Dirent → Prog (Option (List Dirent))
  | [], out => pure (some out)
  | lb :: l, out =>
      if max ≤ out.length then pure (some out)
      else do
        let (pb, _) ← bmap g dir 0 lb false
        if pb = 0 then listBlocks g dir max l out
        else do
          match ← bread pb with
          | none => pure none
          | some p => listBlocks g dir max l (out ++ listed g p (dirents g p) (max - out.length))

/-- The second pass: sizes and types from the inodes. -/
def listInodes (g : Geom) : List Dirent → Prog (List Dirent)
  | [] => pure []
  | e :: l => do
      let ind ← readInode g e.ino
      let rest ← listInodes g l
      let e := match ind with
        | none => { e with size := 0, attr := 0 }
        | some ind =>
            if ind.isDir then { e with size := 0, attr := 0x10 }
            else if ind.isLnk then { e with size := u32 (SYMLINK_MAGIC.length + ind.size), attr := 0 }
            else { e with size := ind.size, attr := 0 }
      pure (e :: rest)

def fillDirents (g : Geom) (dino max : ℕ) : Prog (Option (List Dirent)) := do
  match ← readInode g dino with
  | none => pure none
  | some dir =>
      if dir.isDir = false then pure none
      else do
        match ← listBlocks g dir max (dirBlocks g dir) [] with
        | none => pure none
        | some out => do
            let out ← listInodes g out
            pure (some out)

def ext2List (g : Geom) (path : Str) (max : ℕ) : Prog (Option (List Dirent)) := do
  let ino ← namei g path true
  if ino = 0 then pure none else fillDirents g ino max

def ext2IsDir (g : Geom) (path : Str) : Prog Bool := do
  let ino ← namei g path true
  if ino = 0 then pure false
  else do
    match ← readInode g ino with
    | none => pure false
    | some ind => pure ind.isDir

/-- A symlink reads back as the magic and its target. -/
def readLinkAsFile (g : Geom) (ind : Inode) (out : Mem) (off len : ℕ) : Prog (Option ℕ × Mem) := do
  let cap := SYMLINK_MAGIC.length + g.blockSize + 1
  if ← kmalloc cap then
    match ← readSymlink g ind (cap - SYMLINK_MAGIC.length) with
    | none => pure (none, out)
    | some target =>
        let content := SYMLINK_MAGIC ++ target
        let len := if content.length ≤ off then 0 else min len (content.length - off)
        pure (some len, out.blit 0 (Str.mem content) off len)
  else pure (none, out)

def ext2ReadFileAt (g : Geom) (path : Str) (out : Mem) (off len : ℕ) : Prog (Option ℕ × Mem) := do
  let ino ← namei g path false
  if ino = 0 then pure (none, out)
  else do
    match ← readInode g ino with
    | none => pure (none, out)
    | some ind =>
        if ind.isDir then pure (none, out)
        else if ind.isLnk then readLinkAsFile g ind out off len
        else readRange g ind out off len

/-- The new content of a symlink: `none` for a target that has no block. -/
def writeTarget (g : Geom) (ino : ℕ) (ind : Inode) (data : Mem) (tl : ℕ) : Prog (Bool × Inode) := do
  if tl < 60 then pure (true, Mem.blit ind 40 data SYMLINK_MAGIC.length tl)
  else do
    let (pb, ind) ← bmap g ind (g.groupOfIno ino) 0 true
    if pb = 0 then pure (false, ind)
    else do
      let p := Mem.blit (fun _ => 0) 0 data SYMLINK_MAGIC.length tl
      victim p
      let ok ← bwrite pb p
      pure (ok, ind)

def syncFail (g : Geom) : Prog (Option ℕ) := do
  let _ ← syncMeta g
  pure none

def isLinkData (data : Mem) (size : ℕ) : Bool :=
  SYMLINK_MAGIC.length ≤ size ∧ (List.range SYMLINK_MAGIC.length).map data = SYMLINK_MAGIC

/-- The content of a regular file, and `sync_meta`. -/
def writeFull (g : Geom) (ino : ℕ) (ind : Inode) (data : Mem) (size : ℕ) : Prog (Option ℕ) := do
  let (ok, _) ← writeContent g ino ind data size
  let synced ← syncMeta g
  pure (if ok ∧ synced then some size else none)

/-- The part of `ext2_write_file` that comes after the old inode is out of the way; `ino` is the
file that keeps its inode, else 0. -/
def writeNew (g : Geom) (pino ino : ℕ) (pin ind : Inode) (base : Str) (data : Mem) (size : ℕ) : Prog (Option ℕ) := do
  if isLinkData data size then do
    let tl := size - SYMLINK_MAGIC.length
    if tl = 0 ∨ g.blockSize ≤ tl then syncFail g
    else do
      let (ino, ind, _) ← createNode g pino pin base (S_IFLNK + 0o777)
      if ino = 0 then syncFail g
      else do
        let (ok, ind) ← writeTarget g ino ind data tl
        let _ ← writeInode g ino (ind.setSize (if ok then tl else 0))
        let synced ← syncMeta g
        pure (if ok ∧ synced then some size else none)
  else do
    if ino ≠ 0 then writeFull g ino ind data size
    else do
      let (ino, ind, _) ← createNode g pino pin base (S_IFREG + 0o644)
      if ino = 0 then syncFail g else writeFull g ino ind data size

def ext2WriteFile (g : Geom) (path : Str) (data : Mem) (size : ℕ) : Prog (Option ℕ) := do
  if g.writable = false then pure none
  else do
    match ← splitParent g path with
    | none => pure none
    | some (pino, base) => do
        match ← readInode g pino with
        | none => pure none
        | some pin => do
            match ← dirLookup g pin base with
            | none => writeNew g pino 0 pin (fun _ => 0) base data size
            | some ino => do
                match ← readInode g ino with
                | none => pure none
                | some ind =>
                    if ind.isDir then pure none
                    else if isLinkData data size ∨ ind.isLnk then do
                      -- a change between file and symlink replaces the inode
                      let (ok, pin) ← doUnlink g pino pin base false
                      if ok then writeNew g pino 0 pin ind base data size else syncFail g
                    else writeNew g pino ino pin ind base data size

/-- `ext2_delete_file`, and `ext2_rmdir` for a directory. -/
def ext2Remove (g : Geom) (path : Str) (wantDir : Bool) : Prog Bool := do
  if g.writable = false then pure false
  else do
    match ← splitParent g path with
    | none => pure false
    | some (pino, base) => do
        match ← readInode g pino with
        | none => pure false
        | some pin => do
            let (ok, _) ← doUnlink g pino pin base wantDir
            let synced ← syncMeta g
            pure (ok && synced)

def ext2DeleteFile (g : Geom) (path : Str) : Prog Bool := ext2Remove g path false

def ext2Rmdir (g : Geom) (path : Str) : Prog Bool := ext2Remove g path true

/-- The first block of a new directory. -/
def dotsBlock (g : Geom) (ino pino : ℕ) : Mem :=
  direntSet g (direntSet g (fun _ => 0) 0 ino 12 [dot] FT_DIR) 12 pino (g.blockSize - 12) [dot, dot]
  FT_DIR

/-- The first block, the inode and the name of a new directory: whether they are on disk, and both
inodes. -/
def mkdirAt (g : Geom) (pino ino pb : ℕ) (pin ind : Inode) (base : Str) : Prog (Bool × Inode) := do
  let p := dotsBlock g ino pino
  victim p
  if ← bwrite pb p then
    if ← writeInodeEx g ino ind true then dirAdd g pino pin base ino FT_DIR
    else pure (false, pin)
  else pure (false, pin)

def ext2Mkdir (g : Geom) (path : Str) : Prog Bool := do
  if g.writable = false then pure false
  else do
    match ← splitParent g path with
    | none => pure false
    | some (pino, base) => do
        match ← readInode g pino with
        | none => pure false
        | some pin => do
            match ← dirLookup g pin base with
            | some _ => pure false
            | none => do
                let ino ← allocInode g (g.groupOfIno pino) true
                if ino = 0 then pure false
                else do
                  let t ← now
                  let (pb, ind) ← bmap g (freshInode (S_IFDIR + 0o755) 2 t) (g.groupOfIno ino) 0 true
                  if pb = 0 then do
                    freeInodeBit g ino true
                    let _ ← syncMeta g
                    pure false
                  else do
                    let (ok, pin) ← mkdirAt g pino ino pb pin (ind.setSize g.blockSize) base
                    if ok then do
                      let _ ← writeInode g pino (pin.setLinks (pin.links + 1))
                      syncMeta g
                    else do
                      let _ ← truncateBlocks g (ind.setSize g.blockSize) 0
                      freeInodeBit g ino true
                      let _ ← syncMeta g
                      pure false

/-- The suffix of a path that the scan for its basename stops at. -/
def tailFrom : Str → Str → Str
  | b, [] => b
  | b, c :: s => if c = slash ∧ s ≠ [] then tailFrom s s else tailFrom b s

def baseOf (src : Str) : Str := (tailFrom src src).takeWhile (· != slash)

def targetPath (g : Geom) (src dst : Str) (outsz : ℕ) : Prog (Option Str) := do
  if outsz ≤ dst.length then pure none
  else do
    let dino ← namei g dst true
    if dino = 0 then pure (some dst)
    else do
      match ← readInode g dino with
      | none => pure (some dst)
      | some din =>
          if din.isDir = false then pure (some dst)
          else if outsz < dst.length + 1 + (baseOf src).length + 1 then pure none
          else pure (some ((if dst = [] ∨ dst.getLast? ≠ some slash then dst ++ [slash] else dst) ++ baseOf src))

def ext2Cp (g : Geom) (src dst : Str) : Prog Bool := do
  if g.writable = false then pure false
  else do
    let sino ← namei g src false
    if sino = 0 then pure false
    else do
      match ← readInode g sino with
      | none => pure false
      | some sin =>
          if sin.isDir then pure false
          else do
            match ← targetPath g src dst 512 with
            | none => pure false
            | some dpath => do
                let sz := if sin.isLnk then u32 (SYMLINK_MAGIC.length + sin.size) else sin.size
                if ← kmalloc (if sz = 0 then 1 else sz) then do
                  let (n, buf) ← ext2ReadFileAt g src (fun _ => 0) 0 sz
                  match n with
                  | none => pure false
                  | some n => do
                      let r ← ext2WriteFile g dpath buf n
                      pure r.isSome
                else pure false

/-- The walk up from the target's parent: `none` when an entry cannot be read, else whether it met
`sino`. -/
def meets (g : Geom) (sino : ℕ) : ℕ → ℕ → Prog (Option Bool)
  | 0, _ => pure (some false)
  | n + 1, walk =>
      if walk = sino then pure (some true)
      else if walk = EXT2_ROOT_INO then pure (some false)
      else do
        match ← readInode g walk with
        | none => pure none
        | some w => do
            match ← dirLookup g w [dot, dot] with
            | none => pure none
            | some up => meets g sino n up

/-- A moved directory's `..` and both parents' link counts. -/
def mvParents (g : Geom) (spino sino dpino : ℕ) (spin dpin : Inode) : Prog Bool := do
  let moved ← dirSetDotdot g sino dpino
  let _ ← writeInode g dpino (dpin.setLinks (dpin.links + 1))
  let _ ← writeInode g spino (if 2 < spin.links then spin.setLinks (spin.links - 1) else spin)
  pure moved

/-- The change time of the moved inode. -/
def mvTouch (g : Geom) (sino : ℕ) : Prog Unit := do
  match ← readInode g sino with
  | none => pure ()
  | some sin => do
      let t ← now
      let _ ← writeInode g sino (sin.setCtime t)
      pure ()

/-- The end of `ext2_mv`, from the new name on. With one parent for both names `spin` stands for
both. -/
def mvLink (g : Geom) (spino sino dpino : ℕ) (sbase dbase : Str) (spin dpin sin : Inode) : Prog Bool := do
  let (ok, dpin) ← dirAdd g dpino dpin dbase sino (modeToFt sin)
  if ok = false then do
    let _ ← syncMeta g
    pure false
  else do
    let (ok, spin) ← dirRemove g spino (if dpino = spino then dpin else spin) sbase
    let moved ← if sin.isDir ∧ dpino ≠ spino then mvParents g spino sino dpino spin dpin else pure true
    mvTouch g sino
    let synced ← syncMeta g
    pure (ok && moved && synced)

/-- `ext2_mv` from where both parents are known. -/
def mvInto (g : Geom) (spino sino dpino : ℕ) (sbase dbase : Str) (spin dpin sin : Inode) : Prog Bool := do
  if dpino = spino ∧ sbase = dbase then pure true
  else do
    let inside ← if sin.isDir then meets g sino 4096 dpino else pure (some false)
    if inside ≠ some false then pure false
    else do
      match ← dirLookup g dpin dbase with
      | none => mvLink g spino sino dpino sbase dbase spin dpin sin
      | some tino =>
          if tino = sino then pure true
          else do
            match ← readInode g tino with
            | none => pure false
            | some tin =>
                if tin.isDir ≠ sin.isDir then pure false
                else do
                  let (ok, dpin) ← doUnlink g dpino dpin dbase sin.isDir
                  if ok then mvLink g spino sino dpino sbase dbase spin dpin sin
                  else do
                    let _ ← syncMeta g
                    pure false

def ext2Mv (g : Geom) (src dst : Str) : Prog Bool := do
  if g.writable = false then pure false
  else do
    match ← splitParent g src with
    | none => pure false
    | some (spino, sbase) => do
        match ← readInode g spino with
        | none => pure false
        | some spin => do
            match ← dirLookup g spin sbase with
            | none => pure false
            | some sino => do
                match ← readInode g sino with
                | none => pure false
                | some sin => do
                    match ← targetPath g src dst 512 with
                    | none => pure false
                    | some dpath => do
                        match ← splitParent g dpath with
                        | none => pure false
                        | some (dpino, dbase) =>
                            if dpino = spino then mvInto g spino sino dpino sbase dbase spin spin sin
                            else do
                              match ← readInode g dpino with
                              | none => pure false
                              | some dpin => mvInto g spino sino dpino sbase dbase spin dpin sin

/-- An operation of the VFS with its arguments. -/
inductive Op where
  | list (path : Str) (max : ℕ)
  | isDir (path : Str)
  | readFileAt (path : Str) (out : Mem) (off len : ℕ)
  | writeFile (path : Str) (data : Mem) (size : ℕ)
  | deleteFile (path : Str)
  | mkdir (path : Str)
  | rmdir (path : Str)
  | cp (src dst : Str)
  | mv (src dst : Str)

/-- The operation, without its result. -/
def Op.prog (g : Geom) : Op → Prog Unit
  | .list path max => do
      let _ ← ext2List g path max
      pure ()
  | .isDir path => do
      let _ ← ext2IsDir g path
      pure ()
  | .readFileAt path out off len => do
      let _ ← ext2ReadFileAt g path out off len
      pure ()
  | .writeFile path data size => do
      let _ ← ext2WriteFile g path data size
      pure ()
  | .deleteFile path => do
      let _ ← ext2DeleteFile g path
      pure ()
  | .mkdir path => do
      let _ ← ext2Mkdir g path
      pure ()
  | .rmdir path => do
      let _ ← ext2Rmdir g path
      pure ()
  | .cp src dst => do
      let _ ← ext2Cp g src dst
      pure ()
  | .mv src dst => do
      let _ ← ext2Mv g src dst
      pure ()

/-- One operation after the other. -/
def runOps (g : Geom) : List Op → Prog Unit
  | [] => pure ()
  | op :: l => do
      op.prog g
      runOps g l

end ComputerOS.Ext2
