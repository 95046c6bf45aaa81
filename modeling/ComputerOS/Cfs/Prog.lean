import ComputerOS.Cfs.Ops

/-!
Two classes of programs. A `Buffered` program reads blocks, buffers metadata writes and
adjusts the free counts. An `Ordered` program may also write blocks straight to the
device, and gives up when such a write fails. Every body of a public call is an
`Ordered` program; what all of them keep is proved once, by induction over the class.
-/
namespace ComputerOS.Cfs

open M

inductive Buffered : {α : Type} → M α → Prop
  | pure {α : Type} (a : α) : Buffered (Pure.pure a : M α)
  | fail {α : Type} : Buffered (M.fail : M α)
  | fs : Buffered getFs
  | rawRead (b : ℕ) : Buffered (rawReadBlock b)
  | read (b : ℕ) : Buffered (bdReadBlock b)
  | write (b : ℕ) (v : Block) : Buffered (bdWriteBlock b v)
  | counts (c : Fs → ℕ × ℕ) : Buffered (setCounts c)
  | bind {α β : Type} {x : M α} {f : α → M β} (hx : Buffered x) (hf : ∀ a, Buffered (f a)) :
      Buffered (x >>= f)
  | attempt {α : Type} {x : M α} (hx : Buffered x) : Buffered (M.attempt x)

inductive Ordered : {α : Type} → M α → Prop
  | buffered {α : Type} {x : M α} (hx : Buffered x) : Ordered x
  | rawWrite (b : ℕ) (v : Block) : Ordered (rawWriteBlock b v)
  | bind {α β : Type} {x : M α} {f : α → M β} (hx : Ordered x) (hf : ∀ a, Ordered (f a)) :
      Ordered (x >>= f)
  | orUndo {α : Type} {x : M α} {undo : M Unit} (hx : Ordered x) (hu : Buffered undo) :
      Ordered (M.orUndo x undo)

theorem Buffered.ensure (c : Prop) [Decidable c] : Buffered (M.ensure c) := by
  unfold M.ensure
  split
  · exact .pure ()
  · exact .fail

theorem Ordered.ensure (c : Prop) [Decidable c] : Ordered (M.ensure c) := .buffered (.ensure c)

section Keeps

variable {R : St → St → Prop} (hr : ∀ s, R s s) (ht : ∀ a b c, R a b → R b c → R a c)
  (hraw : ∀ b, Keeps R (rawReadBlock b)) (hread : ∀ b, Keeps R (bdReadBlock b))
  (hwrite : ∀ b v, Keeps R (bdWriteBlock b v)) (hcounts : ∀ c, Keeps R (setCounts c))

include hr ht hraw hread hwrite hcounts

theorem Buffered.keeps {α : Type} {x : M α} (h : Buffered x) : Keeps R x := by
  induction h with
  | pure a => exact Keeps.pure hr a
  | fail => exact Keeps.fail hr
  | fs => exact hr
  | rawRead b => exact hraw b
  | read b => exact hread b
  | write b v => exact hwrite b v
  | counts c => exact hcounts c
  | bind hx hf ihx ihf => exact Keeps.bind ht ihx ihf
  | attempt hx ih => exact Keeps.attempt ih

theorem Ordered.keeps (hput : ∀ b v, Keeps R (rawWriteBlock b v)) {α : Type} {x : M α}
    (h : Ordered x) : Keeps R x := by
  induction h with
  | buffered hx => exact hx.keeps hr ht hraw hread hwrite hcounts
  | rawWrite b v => exact hput b v
  | bind hx hf ihx ihf => exact Keeps.bind ht ihx ihf
  | orUndo hx hu ih =>
    refine Keeps.bind ht (Keeps.attempt ih) fun r => ?_
    cases r with
    | none =>
      exact Keeps.bind ht (hu.keeps hr ht hraw hread hwrite hcounts) fun _ => Keeps.fail hr
    | some a => exact Keeps.pure hr a

end Keeps

theorem bitSet_buffered (region idx : ℕ) (val : Bool) : Buffered (bitSet region idx val) :=
  .bind (.read _) fun _ => .write _ _

theorem allocBit_buffered (region lo hi : ℕ) (count : Fs → ℕ × ℕ) (bbs : List ℕ) :
    Buffered (allocBit region lo hi count bbs) := by
  induction bbs with
  | nil => exact .pure 0
  | cons bb bbs ih =>
    refine .bind (.attempt (.read _)) fun r => ?_
    cases r with
    | none => exact .pure 0
    | some buf =>
      dsimp only
      split
      · exact ih
      · exact .pure 0
      · refine .bind (.attempt (.write _ _)) fun r => ?_
        cases r with
        | none => exact .pure 0
        | some _ => exact .bind (.counts _) fun _ => .pure _

theorem allocBlock_buffered : Buffered allocBlock := .bind .fs fun _ => allocBit_buffered _ _ _ _ _

theorem allocInode_buffered : Buffered allocInode := .bind .fs fun _ => allocBit_buffered _ _ _ _ _

theorem freeBlock_buffered (b : ℕ) : Buffered (freeBlock b) := by
  refine .bind .fs fun fs => ?_
  split
  · exact .pure ()
  · refine .bind (.attempt (bitSet_buffered _ _ _)) fun r => ?_
    cases r with
    | none => exact .pure ()
    | some _ => exact .counts _

theorem freeInode_buffered (n : ℕ) : Buffered (freeInode n) := by
  refine .bind .fs fun fs => ?_
  split
  · exact .pure ()
  · refine .bind (.attempt (bitSet_buffered _ _ _)) fun r => ?_
    cases r with
    | none => exact .pure ()
    | some _ => exact .counts _

theorem readDinode_buffered (n : ℕ) : Buffered (readDinode n) :=
  .bind .fs fun _ => .bind (.ensure _) fun _ => .bind (.read _) fun _ => .pure _

theorem writeDinode_buffered (n : ℕ) (d : DInode) : Buffered (writeDinode n d) :=
  .bind .fs fun _ => .bind (.ensure _) fun _ => .bind (.read _) fun _ => .write _ _

theorem syncSuper_buffered : Buffered syncSuper :=
  .bind .fs fun _ => .bind (.attempt (.bind (.read _) fun _ => .write _ _)) fun _ => .pure ()

theorem freeExtent_buffered (start k n : ℕ) : Buffered (freeExtent start k n) := by
  induction n generalizing k with
  | zero => exact .pure ()
  | succ n ih => exact .bind (freeBlock_buffered _) fun _ => ih (k + 1)

theorem freeExtents_buffered (d : DInode) (e n : ℕ) : Buffered (freeExtents d e n) := by
  induction n generalizing e with
  | zero => exact .pure ()
  | succ n ih =>
    refine .bind ?_ fun _ => ih (e + 1)
    unfold freeExtentAt
    split
    · exact .pure ()
    · exact freeExtent_buffered _ _ _

theorem inodeFreeData_buffered (d : DInode) : Buffered (inodeFreeData d) :=
  .bind (freeExtents_buffered d _ _) fun _ => .pure _

theorem lookupBlocks_buffered (d : DInode) (name : Name) (fbs : List ℕ) :
    Buffered (lookupBlocks d name fbs) := by
  induction fbs with
  | nil => exact .pure 0
  | cons fb fbs ih =>
    unfold lookupBlocks
    dsimp only
    split
    · exact ih
    · refine .bind (.attempt (.read _)) fun r => ?_
      cases r with
      | none => exact .pure 0
      | some blk =>
        dsimp only
        split
        · exact .pure _
        · exact ih

theorem dirLookup_buffered (d : DInode) (name : Name) : Buffered (dirLookup d name) :=
  lookupBlocks_buffered d name _

theorem addBlocks_buffered (d : DInode) (name : Name) (child type : ℕ) (fbs : List ℕ) :
    Buffered (addBlocks d name child type fbs) := by
  induction fbs with
  | nil => exact .pure none
  | cons fb fbs ih =>
    unfold addBlocks
    dsimp only
    split
    · exact ih
    · refine .bind (.read _) fun blk => ?_
      split
      · exact .bind (.write _ _) fun _ => .pure _
      · exact ih

theorem growDir_ordered (d : DInode) (name : Name) (child type : ℕ) :
    Ordered (growDir d name child type) := by
  refine .bind (.buffered allocBlock_buffered) fun b => .bind (.ensure _) fun _ =>
    .bind (.rawWrite _ _) fun _ => ?_
  split
  · exact .buffered (.bind (freeBlock_buffered b) fun _ => .fail)
  · exact .buffered (.pure _)

theorem dirAdd_ordered (d : DInode) (name : Name) (child type : ℕ) :
    Ordered (dirAdd d name child type) := by
  refine .bind (.buffered (addBlocks_buffered _ _ _ _ _)) fun r => ?_
  cases r with
  | none => exact growDir_ordered d name child type
  | some _ => exact .buffered (.pure _)

theorem dirRemove_buffered (d : DInode) (name : Name) : Buffered (dirRemove d name) := by
  unfold dirRemove
  induction List.range (d.size / 4096) with
  | nil => exact .fail
  | cons fb fbs ih =>
    unfold removeBlocks
    dsimp only
    split
    · exact ih
    · refine .bind (.read _) fun blk => ?_
      split
      · exact .write _ _
      · exact ih

theorem dirIsEmpty_buffered (d : DInode) : Buffered (dirIsEmpty d) := by
  unfold dirIsEmpty
  induction List.range (d.size / 4096) with
  | nil => exact .pure true
  | cons fb fbs ih =>
    unfold emptyBlocks
    dsimp only
    split
    · exact ih
    · refine .bind (.attempt (.read _)) fun r => ?_
      cases r with
      | none => exact .pure false
      | some blk =>
        dsimp only
        split
        · exact ih
        · exact .pure false

theorem walk_buffered (ino : ℕ) (cs : List Name) : Buffered (walk ino cs) := by
  induction cs generalizing ino with
  | nil => exact .pure ino
  | cons c cs ih =>
    unfold walk
    split
    · exact .pure 0
    · refine .bind (.attempt (readDinode_buffered _)) fun r => ?_
      cases r with
      | none => exact .pure 0
      | some d =>
        dsimp only
        split
        · exact .pure 0
        · refine .bind (dirLookup_buffered _ _) fun next => ?_
          split
          · exact .pure 0
          · exact ih next

theorem resolveIno_buffered (path : List UInt8) : Buffered (resolveIno path) :=
  .bind .fs fun _ => walk_buffered _ _

theorem resolveParent_buffered (path : List UInt8) : Buffered (resolveParent path) :=
  .bind (.ensure _) fun _ => .bind (.ensure _) fun _ => .bind (resolveIno_buffered _) fun _ =>
    .bind (.ensure _) fun _ => .bind (readDinode_buffered _) fun _ => .bind (.ensure _) fun _ => .pure _

theorem openForWrite_ordered (env : Env) (parent : ℕ) (pdin : DInode) (leaf : Name)
    (mode ftype : ℕ) : Ordered (openForWrite env parent pdin leaf mode ftype) := by
  refine .bind (.buffered (dirLookup_buffered _ _)) fun ino => ?_
  split
  · exact .buffered (.bind (readDinode_buffered _) fun _ => .bind (.ensure _) fun _ =>
      .bind (.ensure _) fun _ => .bind (inodeFreeData_buffered _) fun _ => .pure _)
  · exact .bind (.ensure _) fun _ => .bind (.buffered allocInode_buffered) fun ino =>
      .bind (.ensure _) fun _ => .bind (.orUndo (dirAdd_ordered _ _ _ _) (freeInode_buffered ino))
        fun _ => .buffered (.bind (writeDinode_buffered _ _) fun _ => .pure _)

theorem writeBlocks_ordered (data : List UInt8) (fbs : List ℕ) (din : DInode) :
    Ordered (writeBlocks data fbs din) := by
  induction fbs generalizing din with
  | nil => exact .buffered (.pure din)
  | cons fb fbs ih =>
    refine .bind (.buffered allocBlock_buffered) fun b => .bind (.ensure _) fun _ =>
      .bind (.rawWrite _ _) fun _ => ?_
    split
    · exact .buffered .fail
    · exact ih _

theorem storeData_ordered (din : DInode) (data : List UInt8) : Ordered (storeData din data) := by
  unfold storeData
  split
  · unfold storeTarget
    split
    · exact .buffered (.pure _)
    · exact .bind (.buffered allocBlock_buffered) fun _ => .bind (.ensure _) fun _ =>
        .bind (.rawWrite _ _) fun _ => .buffered (.pure _)
  · split
    · exact .buffered (.pure _)
    · exact writeBlocks_ordered _ _ _

theorem doWriteFile_ordered (env : Env) (path data : List UInt8) :
    Ordered (doWriteFile env path data) :=
  .bind (.buffered (resolveParent_buffered _)) fun _ => .bind (.buffered (readDinode_buffered _))
  fun _ =>
    .bind (.ensure _) fun _ => .bind (openForWrite_ordered _ _ _ _ _ _) fun _ =>
      .bind (storeData_ordered _ _) fun _ => .buffered (.bind (writeDinode_buffered _ _) fun _ =>
        .bind syncSuper_buffered fun _ => .pure _)

theorem doMkdir_ordered (env : Env) (path : List UInt8) : Ordered (doMkdir env path) := by
  refine .bind (.buffered (resolveParent_buffered _)) fun _ => .bind (.buffered (readDinode_buffered _)) fun _ =>
    .bind (.ensure _) fun _ => .bind (.buffered (dirLookup_buffered _ _)) fun _ =>
      .bind (.ensure _) fun _ => .bind (.buffered allocInode_buffered) fun ino =>
        .bind (.ensure _) fun _ => .bind (.buffered allocBlock_buffered) fun b => ?_
  split
  · exact .buffered (.bind (freeInode_buffered _) fun _ => .fail)
  · exact .bind (.rawWrite _ _) fun _ => .bind (.buffered (writeDinode_buffered _ _)) fun _ =>
      .bind (.orUndo (dirAdd_ordered _ _ _ _)
        (.bind (freeBlock_buffered b) fun _ => freeInode_buffered ino)) fun _ =>
        .buffered (.bind (writeDinode_buffered _ _) fun _ => .bind syncSuper_buffered fun _ => .pure _)

theorem doRmdir_buffered (env : Env) (path : List UInt8) : Buffered (doRmdir env path) :=
  .bind (resolveParent_buffered _) fun _ => .bind (readDinode_buffered _) fun _ =>
  .bind (.ensure _) fun _ =>
    .bind (dirLookup_buffered _ _) fun _ => .bind (.ensure _) fun _ => .bind (readDinode_buffered _) fun _ =>
      .bind (.ensure _) fun _ => .bind (dirIsEmpty_buffered _) fun _ => .bind (.ensure _) fun _ =>
        .bind (dirRemove_buffered _ _) fun _ => .bind (writeDinode_buffered _ _) fun _ =>
          .bind (inodeFreeData_buffered _) fun _ => .bind (freeInode_buffered _) fun _ =>
            .bind syncSuper_buffered fun _ => .pure _

theorem dropLink_buffered (ino : ℕ) (din : DInode) : Buffered (dropLink ino din) := by
  unfold dropLink
  split
  · exact .bind (inodeFreeData_buffered _) fun _ => freeInode_buffered _
  · exact .bind (.attempt (writeDinode_buffered _ _)) fun _ => .pure _

theorem doUnlink_buffered (env : Env) (path : List UInt8) : Buffered (doUnlink env path) :=
  .bind (resolveParent_buffered _) fun _ => .bind (readDinode_buffered _) fun _ =>
  .bind (.ensure _) fun _ =>
    .bind (dirLookup_buffered _ _) fun _ => .bind (.ensure _) fun _ => .bind (readDinode_buffered _) fun _ =>
      .bind (.ensure _) fun _ => .bind (dirRemove_buffered _ _) fun _ =>
        .bind (writeDinode_buffered _ _) fun _ => .bind (dropLink_buffered _ _) fun _ =>
          .bind syncSuper_buffered fun _ => .pure _

theorem doLink_ordered (env : Env) (oldpath newpath : List UInt8) :
    Ordered (doLink env oldpath newpath) :=
  .bind (.buffered (resolveIno_buffered _)) fun _ => .bind (.ensure _) fun _ =>
    .bind (.buffered (readDinode_buffered _)) fun _ => .bind (.ensure _) fun _ =>
      .bind (.buffered (resolveParent_buffered _)) fun _ => .bind (.buffered (readDinode_buffered _)) fun _ =>
        .bind (.ensure _) fun _ => .bind (.buffered (dirLookup_buffered _ _)) fun _ =>
          .bind (.ensure _) fun _ => .bind (dirAdd_ordered _ _ _ _) fun _ =>
            .buffered (.bind (writeDinode_buffered _ _) fun _ => .bind (writeDinode_buffered _ _) fun _ => .pure _)

theorem doChmod_buffered (env : Env) (path : List UInt8) (perm : ℕ) : Buffered (doChmod env path perm) :=
  .bind (resolveIno_buffered _) fun _ => .bind (.ensure _) fun _ => .bind (readDinode_buffered _)
  fun _ =>
    .bind (.ensure _) fun _ => .bind (writeDinode_buffered _ _) fun _ => .pure _

theorem doChown_buffered (env : Env) (path : List UInt8) (uid gid : ℕ) :
    Buffered (doChown env path uid gid) :=
  .bind (.ensure _) fun _ => .bind (resolveIno_buffered _) fun _ => .bind (.ensure _) fun _ =>
    .bind (readDinode_buffered _) fun _ => .bind (writeDinode_buffered _ _) fun _ => .pure _

theorem Call.body_ordered (env : Env) (c : Call) : Ordered (c.body env) := by
  cases c with
  | writeFile path data => exact doWriteFile_ordered env path data
  | mkdir path => exact doMkdir_ordered env path
  | rmdir path => exact .buffered (doRmdir_buffered env path)
  | unlink path => exact .buffered (doUnlink_buffered env path)
  | link oldpath newpath => exact doLink_ordered env oldpath newpath
  | chmod path perm => exact .buffered (doChmod_buffered env path perm)
  | chown path uid gid => exact .buffered (doChown_buffered env path uid gid)

end ComputerOS.Cfs
