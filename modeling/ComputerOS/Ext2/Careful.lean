import ComputerOS.Ext2.Coherent

/-!
Every function of the driver invalidates the blocks that it writes around the cache. A program is
careful when its device writes come right behind their invalidations; what the single calls keep,
careful programs keep.
-/
namespace ComputerOS.Ext2

open Prog

inductive Careful (g : Geom) : {α : Type} → Prog α → Prop
  | pure {α : Type} (a : α) : Careful g (Pure.pure a : Prog α)
  | ask (c : Call) (hc : c.Quiet) : Careful g (Calling.ask c : Prog c.Reply)
  | bind {α β : Type} {x : Prog α} {f : α → Prog β} (hx : Careful g x) (hf : ∀ a, Careful g (f a)) :
      Careful g (x >>= f)
  | run (blk : ℕ) {count : ℕ} (hcount : 0 < count) (data : Mem) :
      Careful g (binvals blk (List.range count) >>= fun _ => devWrite blk count data)
  | gdt (blk : ℕ) (data : Mem) : Careful g (binval blk >>= fun _ => devWrite blk 1 data)
  | super (data : Mem) : Careful g (binval g.superBlock >>= fun _ => superWrite data)

variable {g : Geom}

theorem bread_careful (blk : ℕ) : Careful g (Prog.bread blk) := .ask _ trivial

theorem bwrite_careful (blk : ℕ) (data : Mem) : Careful g (Prog.bwrite blk data) := .ask _ trivial

theorem victim_careful (data : Mem) : Careful g (Prog.victim data) := .ask _ trivial

theorem binval_careful (blk : ℕ) : Careful g (Prog.binval blk) := .ask _ trivial

theorem devRead_careful (blk count : ℕ) : Careful g (Prog.devRead blk count) := .ask _ trivial

theorem getMeta_careful : Careful g Prog.getMeta := .ask _ trivial

theorem setMeta_careful (md : Meta) : Careful g (Prog.setMeta md) := .ask _ trivial

theorem now_careful : Careful g Prog.now := .ask _ trivial

theorem kmalloc_careful (size : ℕ) : Careful g (Prog.kmalloc size) := .ask _ trivial

theorem Careful.ite {α : Type} {c : Prop} [Decidable c] {x y : Prog α} (hx : Careful g x) (hy : Careful g y) :
    Careful g (if c then x else y) := by
  split
  · exact hx
  · exact hy

theorem Careful.ite_bind {α β : Type} {c : Prop} [Decidable c] {x y : Prog α} {f : α → Prog β} (hx : Careful g x)
    (hy : Careful g y) (hf : ∀ a, Careful g (f a)) : Careful g (if c then x >>= f else y >>= f) :=
  .ite (hx.bind hf) (hy.bind hf)

theorem syncGdt_careful (gdt : Mem) (l : List ℕ) : Careful g (syncGdt g gdt l) := by
  induction l with
  | nil => exact .pure true
  | cons b l ih =>
    unfold syncGdt
    rw [← Calling.bind_assoc]
    exact (Careful.gdt _ _).bind fun ok => ih.bind fun rest => .pure _

theorem syncDescriptors_careful : Careful g (syncDescriptors g) := by
  refine getMeta_careful.bind fun md => ?_
  split
  · exact .pure true
  · exact (syncGdt_careful _ _).bind fun ok => (setMeta_careful _).bind fun _ => .pure ok

theorem syncMeta_careful : Careful g (syncMeta g) := by
  refine syncDescriptors_careful.bind fun gdtOk => getMeta_careful.bind fun md =>
    .ite (now_careful.bind fun t => ?_) (.pure gdtOk)
  dsimp only
  rw [← Calling.bind_assoc]
  exact (Careful.super _).bind fun ok => (setMeta_careful _).bind fun _ => .pure _

theorem bitmapClaim_careful (blk nbits : ℕ) : Careful g (bitmapClaim blk nbits) := by
  refine (bread_careful blk).bind fun r => ?_
  rcases r with _ | bm
  · exact .pure none
  · dsimp only
    split
    · exact .pure none
    · exact (bwrite_careful _ _).bind fun ok => .pure _

theorem bitmapRelease_careful (blk i : ℕ) : Careful g (bitmapRelease blk i) := by
  refine (bread_careful blk).bind fun r => ?_
  rcases r with _ | bm
  · exact .pure none
  · exact .ite ((bwrite_careful _ _).bind fun ok => .pure _) (.pure _)

theorem allocBlockIn_careful (l : List ℕ) : Careful g (allocBlockIn g l) := by
  induction l with
  | nil => exact .pure 0
  | cons grp l ih =>
    refine getMeta_careful.bind fun md => .ite ih ((bitmapClaim_careful _ _).bind fun r => ?_)
    rcases r with _ | i
    · exact ih
    · exact (setMeta_careful _).bind fun _ => (binval_careful _).bind fun _ => .pure _

theorem allocBlock_careful (goal : ℕ) : Careful g (allocBlock g goal) :=
  getMeta_careful.bind fun _ => .ite (.pure 0) (allocBlockIn_careful _)

theorem freeBlock_careful (blk : ℕ) : Careful g (freeBlock g blk) := by
  refine .ite (.pure ()) ((binval_careful _).bind fun _ => getMeta_careful.bind fun md =>
    (bitmapRelease_careful _ _).bind fun r => ?_)
  split
  · exact setMeta_careful _
  · exact .pure ()

theorem allocInodeIn_careful (isDir : Bool) (l : List ℕ) : Careful g (allocInodeIn g isDir l) := by
  induction l with
  | nil => exact .pure 0
  | cons grp l ih =>
    refine getMeta_careful.bind fun md => .ite ih ((bitmapClaim_careful _ _).bind fun r => ?_)
    rcases r with _ | i
    · exact ih
    · exact .ite ih ((setMeta_careful _).bind fun _ => .pure _)

theorem allocInode_careful (goal : ℕ) (isDir : Bool) : Careful g (allocInode g goal isDir) :=
  getMeta_careful.bind fun _ => .ite (.pure 0) (allocInodeIn_careful _ _)

theorem freeInodeBit_careful (ino : ℕ) (isDir : Bool) : Careful g (freeInodeBit g ino isDir) := by
  refine getMeta_careful.bind fun md => (bitmapRelease_careful _ _).bind fun r => ?_
  split
  · exact setMeta_careful _
  · exact .pure ()

theorem readInode_careful (ino : ℕ) : Careful g (readInode g ino) := by
  refine getMeta_careful.bind fun md => ?_
  split
  · exact .pure none
  · refine (bread_careful _).bind fun r => ?_
    rcases r with _ | p
    · exact .pure none
    · exact .pure _

theorem writeInodeEx_careful (ino : ℕ) (ind : Inode) (fresh : Bool) : Careful g (writeInodeEx g ino ind fresh) := by
  refine getMeta_careful.bind fun md => ?_
  split
  · exact .pure false
  · refine (bread_careful _).bind fun r => ?_
    rcases r with _ | p
    · exact .pure false
    · exact bwrite_careful _ _

theorem writeInode_careful (ino : ℕ) (ind : Inode) : Careful g (writeInode g ino ind) := writeInodeEx_careful _ _ _

theorem inodeNewBlock_careful (ind : Inode) (goal : ℕ) (zero : Bool) : Careful g (inodeNewBlock g ind goal zero) :=
  (allocBlock_careful goal).bind fun _ => .ite (.pure _) <| .ite
    ((victim_careful _).bind fun _ => (bwrite_careful _ _).bind fun _ => .pure _) (.pure _)

theorem bmapDown_careful (goal rel : ℕ) (alloc : Bool) (level blk : ℕ) (ind : Inode) :
    Careful g (bmapDown g goal rel alloc level blk ind) := by
  induction level generalizing blk ind with
  | zero => exact .pure _
  | succ level ih =>
    refine (bread_careful blk).bind fun r => ?_
    rcases r with _ | p
    · exact .pure _
    · refine .ite (ih _ _) (.ite (.pure _) ((inodeNewBlock_careful _ _ _).bind fun r => ?_))
      refine .ite (.pure _) ((bread_careful blk).bind fun r => ?_)
      rcases r with _ | p
      · exact .pure _
      · exact (bwrite_careful _ _).bind fun ok => .ite (ih _ _) (.pure _)

theorem bmap_careful (ind : Inode) (goal lblk : ℕ) (alloc : Bool) : Careful g (bmap g ind goal lblk alloc) := by
  refine .ite (.ite ((inodeNewBlock_careful _ _ _).bind fun r => .pure _) (.pure _)) ?_
  split
  · exact .pure _
  · exact .ite (bmapDown_careful _ _ _ _ _ _) <| .ite (.pure _) <|
      (inodeNewBlock_careful _ _ _).bind fun r => .ite (.pure _) (bmapDown_careful _ _ _ _ _ _)

theorem truncChildren_careful {free : Inode → ℕ → ℕ → Prog Inode}
    (hfree : ∀ ind blk base, Careful g (free ind blk base))
    (base cs cutoff : ℕ) (l : List ℕ) (ind : Inode) (tab : Mem) (changed : Bool) :
    Careful g (truncChildren free base cs cutoff l ind tab changed) := by
  induction l generalizing ind tab changed with
  | nil => exact .pure _
  | cons i l ih => exact .ite (ih _ _ _) ((hfree _ _ _).bind fun _ => .ite (ih _ _ _) (ih _ _ _))

theorem truncSelf_careful (blk base cutoff : ℕ) (ind : Inode) : Careful g (truncSelf g blk base cutoff ind) :=
  .ite ((freeBlock_careful _).bind fun _ => .pure _) (.pure _)

theorem truncTree_careful (cutoff depth : ℕ) (ind : Inode) (blk base : ℕ) :
    Careful g (truncTree g cutoff depth ind blk base) := by
  induction depth generalizing ind blk base with
  | zero => exact .ite (.pure _) (truncSelf_careful _ _ _ _)
  | succ depth ih =>
    refine .ite (.pure _) ((kmalloc_careful _).bind fun ok => .ite ((bread_careful blk).bind fun r => ?_) (.pure _))
    rcases r with _ | p
    · exact .pure _
    · exact (truncChildren_careful ih _ _ _ _ _ _ _).bind fun r =>
        .ite ((bwrite_careful _ _).bind fun _ => truncSelf_careful _ _ _ _) (truncSelf_careful _ _ _ _)

theorem truncDirect_careful (cutoff : ℕ) (l : List ℕ) (ind : Inode) : Careful g (truncDirect g cutoff l ind) := by
  induction l generalizing ind with
  | nil => exact .pure _
  | cons i l ih => exact .ite ((freeBlock_careful _).bind fun _ => ih _) (ih _)

theorem truncTrees_careful (cutoff : ℕ) (l : List (ℕ × ℕ)) (ind : Inode) : Careful g (truncTrees g cutoff l ind) := by
  induction l generalizing ind with
  | nil => exact .pure _
  | cons t l ih => exact (truncTree_careful _ _ _ _ _).bind fun _ => ih _

theorem truncateBlocks_careful (ind : Inode) (newSize : ℕ) : Careful g (truncateBlocks g ind newSize) :=
  .ite (.pure _) ((truncDirect_careful _ _ _).bind fun _ => truncTrees_careful _ _ _)

theorem runLength_careful (ind : Inode) (lb pb done len n run : ℕ) :
    Careful g (runLength g ind lb pb done len n run) := by
  induction n generalizing run with
  | zero => exact .pure _
  | succ n ih => exact .ite ((bmap_careful _ _ _ _).bind fun r => .ite (ih _) (.pure _)) (.pure _)

theorem readLoop_careful (ind : Inode) (off len n done : ℕ) (out : Mem) :
    Careful g (readLoop g ind off len n done out) := by
  induction n generalizing done out with
  | zero => exact .pure _
  | succ n ih =>
    refine .ite ((bmap_careful _ _ _ _).bind fun r => .ite (ih _ _) (.ite ?_ ?_)) (.pure _)
    · refine (runLength_careful _ _ _ _ _ _ _).bind fun run => (devRead_careful _ _).bind fun r => ?_
      rcases r with _ | p
      · exact .pure _
      · exact ih _ _
    · refine (bread_careful _).bind fun r => ?_
      rcases r with _ | p
      · exact .pure _
      · exact ih _ _

theorem readRange_careful (ind : Inode) (out : Mem) (off len : ℕ) : Careful g (readRange g ind out off len) :=
  .ite (.pure _) ((readLoop_careful _ _ _ _ _ _).bind fun _ => .pure _)

theorem flushPending_careful (data : Mem) (r : Pending) : Careful g (flushPending g data r) := by
  unfold flushPending
  split
  · exact .run _ (Nat.pos_of_ne_zero ‹_›) _
  · exact .pure _

theorem writeLoop_careful (goal : ℕ) (data : Mem) (size : ℕ) (l : List ℕ) (ind : Inode) (r : Pending) :
    Careful g (writeLoop g goal data size l ind r) := by
  induction l generalizing ind r with
  | nil => exact .pure _
  | cons lb l ih =>
    refine (bmap_careful _ _ _ _).bind fun b => .ite (.pure _) (.ite (ih _ _) ?_)
    refine (flushPending_careful _ _).bind fun ok => .ite (.pure _) (.ite (ih _ _) ?_)
    exact (victim_careful _).bind fun _ => (bwrite_careful _ _).bind fun ok => .ite (ih _ _) (.pure _)

theorem settleSize_careful (ind : Inode) (r : Pending) (size : ℕ) (ok : Bool) :
    Careful g (settleSize g ind r size ok) :=
  .ite (.pure _) ((truncateBlocks_careful _ _).bind fun _ => .pure _)

theorem writeContent_careful (ino : ℕ) (ind : Inode) (data : Mem) (size : ℕ) :
    Careful g (writeContent g ino ind data size) := by
  refine (truncateBlocks_careful _ _).bind fun ind => (writeLoop_careful _ _ _ _ _ _).bind fun r => ?_
  refine .ite ((flushPending_careful _ _).bind fun ok => ?_) ((Careful.pure _).bind fun ok => ?_) <;>
  exact (settleSize_careful _ _ _ _).bind fun ind => now_careful.bind fun t =>
    (writeInode_careful _ _).bind fun _ => .pure _

theorem readSymlink_careful (ind : Inode) (max : ℕ) : Careful g (readSymlink g ind max) := by
  refine .ite (.pure _) (.ite (.pure _) ((bmap_careful _ _ _ _).bind fun r => .ite (.pure _) ?_))
  refine (bread_careful _).bind fun r => ?_
  rcases r with _ | p
  · exact .pure _
  · exact .pure _

theorem eachBlock_careful {α : Type} (dir : Inode) {f : ℕ → Mem → Prog (Option α)} (hf : ∀ pb p, Careful g (f pb p))
    (l : List ℕ) : Careful g (eachBlock g dir f l) := by
  induction l with
  | nil => exact .pure _
  | cons lb l ih =>
    refine (bmap_careful _ _ _ _).bind fun r => .ite ih ((bread_careful _).bind fun r => ?_)
    rcases r with _ | p
    · exact .pure _
    · refine (hf _ _).bind fun r => ?_
      rcases r with _ | a
      · exact ih
      · exact .pure _

theorem dirLookup_careful (dir : Inode) (name : Str) : Careful g (dirLookup g dir name) :=
  (eachBlock_careful dir (fun _ _ => .pure _) _).bind fun _ => .pure _

theorem dirTouch_careful (dirIno : ℕ) (dir : Inode) : Careful g (dirTouch g dirIno dir) :=
  now_careful.bind fun _ => (writeInode_careful _ _).bind fun _ => .pure _

theorem dirAdd_careful (dirIno : ℕ) (dir : Inode) (name : Str) (ino ft : ℕ) :
    Careful g (dirAdd g dirIno dir name ino ft) := by
  refine .ite (.pure _) ((eachBlock_careful dir (fun pb p => ?_) _).bind fun r => ?_)
  · split
    · exact .pure _
    · exact (bwrite_careful _ _).bind fun ok => .pure _
  · rcases r with _ | _ | _ | _
    · exact .pure _
    · refine (bmap_careful _ _ _ _).bind fun r => .ite (.pure _) ((victim_careful _).bind fun _ => ?_)
      exact (bwrite_careful _ _).bind fun ok => .ite ((dirTouch_careful _ _).bind fun _ => .pure _) (.pure _)
    · exact .pure _
    · exact (dirTouch_careful _ _).bind fun _ => .pure _

theorem dirRemove_careful (dirIno : ℕ) (dir : Inode) (name : Str) : Careful g (dirRemove g dirIno dir name) := by
  refine (eachBlock_careful dir (fun pb p => ?_) _).bind fun r => ?_
  · split
    · exact .pure _
    · exact (bwrite_careful _ _).bind fun ok => .pure _
  · split
    · exact (dirTouch_careful _ _).bind fun _ => .pure _
    · exact .pure _

theorem dirIsEmpty_careful (dir : Inode) : Careful g (dirIsEmpty g dir) :=
  (eachBlock_careful dir (fun _ _ => .pure _) _).bind fun _ => .pure _

theorem dirSetDotdot_careful (ino parent : ℕ) : Careful g (dirSetDotdot g ino parent) := by
  refine (readInode_careful _).bind fun r => ?_
  rcases r with _ | ind
  · exact .pure _
  · refine (bmap_careful _ _ _ _).bind fun r => .ite (.pure _) ((bread_careful _).bind fun r => ?_)
    rcases r with _ | p
    · exact .pure _
    · exact .ite (.pure _) (.ite (.pure _) (bwrite_careful _ _))

theorem nameiFrom_careful (followLast : Bool) (n cur links : ℕ) (path : Str) :
    Careful g (nameiFrom g followLast n cur links path) := by
  induction n generalizing cur links path with
  | zero => exact .pure _
  | succ n ih =>
    refine .ite (.pure _) (.ite (.pure _) (.ite (ih _ _ _) ((readInode_careful _).bind fun r => ?_)))
    rcases r with _ | din
    · exact .pure _
    · refine .ite (.pure _) ((dirLookup_careful _ _).bind fun r => ?_)
      rcases r with _ | child
      · exact .pure _
      · refine (readInode_careful _).bind fun r => ?_
        rcases r with _ | cin
        · exact .pure _
        · refine .ite (.ite (.pure _) ((readSymlink_careful _ _).bind fun r => ?_)) (ih _ _ _)
          rcases r with _ | target
          · exact .pure _
          · exact .ite (.pure _) (ih _ _ _)

theorem namei_careful (path : Str) (followLast : Bool) : Careful g (namei g path followLast) :=
  .ite (.pure _) (nameiFrom_careful _ _ _ _ _)

theorem splitParent_careful (path : Str) : Careful g (splitParent g path) := by
  refine .ite (.pure _) (.ite (.pure _) ((namei_careful _ _).bind fun pino => .ite (.pure _) ?_))
  refine (readInode_careful _).bind fun r => ?_
  rcases r with _ | pin
  · exact .pure _
  · exact .pure _

theorem releaseAcl_careful (acl : ℕ) : Careful g (releaseAcl g acl) := by
  refine (bread_careful _).bind fun r => ?_
  rcases r with _ | p
  · exact freeBlock_careful _
  · exact .ite ((bwrite_careful _ _).bind fun _ => .pure _) (freeBlock_careful _)

theorem dropAcl_careful (ind : Inode) : Careful g (dropAcl g ind) :=
  .ite ((releaseAcl_careful _).bind fun _ => .pure _) (.pure _)

theorem releaseInode_careful (ino : ℕ) (ind : Inode) : Careful g (releaseInode g ino ind) :=
  (truncateBlocks_careful _ _).bind fun _ => (dropAcl_careful _).bind fun _ =>
  now_careful.bind fun _ =>
    (writeInode_careful _ _).bind fun _ => freeInodeBit_careful _ _

theorem countUnlink_careful (pino : ℕ) (pin ind : Inode) (wantDir : Bool) :
    Careful g (countUnlink g pino pin ind wantDir) :=
  .ite ((writeInode_careful _ _).bind fun _ => .pure _) (.pure _)

theorem doUnlink_careful (pino : ℕ) (pin : Inode) (base : Str) (wantDir : Bool) :
    Careful g (doUnlink g pino pin base wantDir) := by
  refine (dirLookup_careful _ _).bind fun r => ?_
  rcases r with _ | ino
  · exact .pure _
  · refine (readInode_careful _).bind fun r => ?_
    rcases r with _ | ind
    · exact .pure _
    · refine .ite (.pure _) (.ite_bind (dirIsEmpty_careful _) (.pure _) fun removable => ?_)
      exact .ite (.pure _) <| (dirRemove_careful _ _ _).bind fun r => .ite (.pure _) <|
        (countUnlink_careful _ _ _ _).bind fun r => .ite ((releaseInode_careful _ _).bind fun _ => .pure _)
          (now_careful.bind fun _ => (writeInode_careful _ _).bind fun _ => .pure _)

theorem createNode_careful (pino : ℕ) (pin : Inode) (base : Str) (mode : ℕ) :
    Careful g (createNode g pino pin base mode) := by
  refine (allocInode_careful _ _).bind fun ino => .ite (.pure _) (now_careful.bind fun t => ?_)
  refine (writeInodeEx_careful _ _ _).bind fun ok => .ite ?_ ((freeInodeBit_careful _ _).bind fun _ => .pure _)
  exact (dirAdd_careful _ _ _ _ _).bind fun r => .ite (.pure _) ((freeInodeBit_careful _ _).bind fun _ => .pure _)

theorem listBlocks_careful (dir : Inode) (max : ℕ) (l : List ℕ) (out : List Dirent) :
    Careful g (listBlocks g dir max l out) := by
  induction l generalizing out with
  | nil => exact .pure _
  | cons lb l ih =>
    refine .ite (.pure _) ((bmap_careful _ _ _ _).bind fun r => .ite (ih _) ((bread_careful _).bind fun r => ?_))
    rcases r with _ | p
    · exact .pure _
    · exact ih _

theorem listInodes_careful (l : List Dirent) : Careful g (listInodes g l) := by
  induction l with
  | nil => exact .pure _
  | cons e l ih => exact (readInode_careful _).bind fun _ => ih.bind fun _ => .pure _

theorem ext2List_careful (path : Str) (max : ℕ) : Careful g (ext2List g path max) := by
  refine (namei_careful _ _).bind fun ino => .ite (.pure _) ((readInode_careful _).bind fun r => ?_)
  rcases r with _ | dir
  · exact .pure _
  · refine .ite (.pure _) ((listBlocks_careful _ _ _ _).bind fun r => ?_)
    rcases r with _ | out
    · exact .pure _
    · exact (listInodes_careful _).bind fun _ => .pure _

theorem ext2IsDir_careful (path : Str) : Careful g (ext2IsDir g path) := by
  refine (namei_careful _ _).bind fun ino => .ite (.pure _) ((readInode_careful _).bind fun r => ?_)
  rcases r with _ | ind
  · exact .pure _
  · exact .pure _

theorem readLinkAsFile_careful (ind : Inode) (out : Mem) (off len : ℕ) :
    Careful g (readLinkAsFile g ind out off len) := by
  refine (kmalloc_careful _).bind fun ok => .ite ((readSymlink_careful _ _).bind fun r => ?_) (.pure _)
  rcases r with _ | target
  · exact .pure _
  · exact .pure _

theorem ext2ReadFileAt_careful (path : Str) (out : Mem) (off len : ℕ) :
    Careful g (ext2ReadFileAt g path out off len) := by
  refine (namei_careful _ _).bind fun ino => .ite (.pure _) ((readInode_careful _).bind fun r => ?_)
  rcases r with _ | ind
  · exact .pure _
  · exact .ite (.pure _) (.ite (readLinkAsFile_careful _ _ _ _) (readRange_careful _ _ _ _))

theorem syncFail_careful : Careful g (syncFail g) := syncMeta_careful.bind fun _ => .pure _

theorem writeTarget_careful (ino : ℕ) (ind : Inode) (data : Mem) (tl : ℕ) :
    Careful g (writeTarget g ino ind data tl) :=
  .ite (.pure _) ((bmap_careful _ _ _ _).bind fun _ => .ite (.pure _)
    ((victim_careful _).bind fun _ => (bwrite_careful _ _).bind fun _ => .pure _))

theorem writeFull_careful (ino : ℕ) (ind : Inode) (data : Mem) (size : ℕ) :
    Careful g (writeFull g ino ind data size) :=
  (writeContent_careful _ _ _ _).bind fun _ => syncMeta_careful.bind fun _ => .pure _

theorem writeNew_careful (pino ino : ℕ) (pin ind : Inode) (base : Str) (data : Mem) (size : ℕ) :
    Careful g (writeNew g pino ino pin ind base data size) := by
  refine .ite (.ite syncFail_careful ?_) (.ite (writeFull_careful _ _ _ _) ?_)
  · refine (createNode_careful _ _ _ _).bind fun r => .ite syncFail_careful ?_
    exact (writeTarget_careful _ _ _ _).bind fun _ => (writeInode_careful _ _).bind fun _ =>
      syncMeta_careful.bind fun _ => .pure _
  · exact (createNode_careful _ _ _ _).bind fun r => .ite syncFail_careful (writeFull_careful _ _ _ _)

theorem ext2WriteFile_careful (path : Str) (data : Mem) (size : ℕ) : Careful g (ext2WriteFile g path data size) := by
  refine .ite (.pure _) ((splitParent_careful _).bind fun r => ?_)
  rcases r with _ | ⟨pino, base⟩
  · exact .pure _
  · refine (readInode_careful _).bind fun r => ?_
    rcases r with _ | pin
    · exact .pure _
    · refine (dirLookup_careful _ _).bind fun r => ?_
      rcases r with _ | ino
      · exact writeNew_careful _ _ _ _ _ _ _
      · refine (readInode_careful _).bind fun r => ?_
        rcases r with _ | ind
        · exact .pure _
        · exact .ite (.pure _) (.ite ((doUnlink_careful _ _ _ _).bind fun r =>
            .ite (writeNew_careful _ _ _ _ _ _ _) syncFail_careful) (writeNew_careful _ _ _ _ _ _ _))

theorem ext2Remove_careful (path : Str) (wantDir : Bool) : Careful g (ext2Remove g path wantDir) := by
  refine .ite (.pure _) ((splitParent_careful _).bind fun r => ?_)
  rcases r with _ | ⟨pino, base⟩
  · exact .pure _
  · refine (readInode_careful _).bind fun r => ?_
    rcases r with _ | pin
    · exact .pure _
    · exact (doUnlink_careful _ _ _ _).bind fun _ => syncMeta_careful.bind fun _ => .pure _

theorem mkdirAt_careful (pino ino pb : ℕ) (pin ind : Inode) (base : Str) :
    Careful g (mkdirAt g pino ino pb pin ind base) :=
  (victim_careful _).bind fun _ => (bwrite_careful _ _).bind fun _ => .ite
    ((writeInodeEx_careful _ _ _).bind fun _ => .ite (dirAdd_careful _ _ _ _ _) (.pure _)) (.pure _)

theorem ext2Mkdir_careful (path : Str) : Careful g (ext2Mkdir g path) := by
  refine .ite (.pure _) ((splitParent_careful _).bind fun r => ?_)
  rcases r with _ | ⟨pino, base⟩
  · exact .pure _
  · refine (readInode_careful _).bind fun r => ?_
    rcases r with _ | pin
    · exact .pure _
    · refine (dirLookup_careful _ _).bind fun r => ?_
      rcases r with _ | ino
      · refine (allocInode_careful _ _).bind fun ino => .ite (.pure _) (now_careful.bind fun t => ?_)
        refine (bmap_careful _ _ _ _).bind fun r => .ite ?_ ((mkdirAt_careful _ _ _ _ _ _).bind fun r => .ite ?_ ?_)
        · exact (freeInodeBit_careful _ _).bind fun _ => syncMeta_careful.bind fun _ => .pure _
        · exact (writeInode_careful _ _).bind fun _ => syncMeta_careful
        · exact (truncateBlocks_careful _ _).bind fun _ => (freeInodeBit_careful _ _).bind fun _ =>
            syncMeta_careful.bind fun _ => .pure _
      · exact .pure _

theorem targetPath_careful (src dst : Str) (outsz : ℕ) : Careful g (targetPath g src dst outsz) := by
  refine .ite (.pure _) ((namei_careful _ _).bind fun dino => .ite (.pure _) ((readInode_careful _).bind fun r => ?_))
  rcases r with _ | din
  · exact .pure _
  · exact .ite (.pure _) (.ite (.pure _) (.pure _))

theorem ext2Cp_careful (src dst : Str) : Careful g (ext2Cp g src dst) := by
  refine .ite (.pure _) ((namei_careful _ _).bind fun sino => .ite (.pure _) ((readInode_careful _).bind fun r => ?_))
  rcases r with _ | sin
  · exact .pure _
  · refine .ite (.pure _) ((targetPath_careful _ _ _).bind fun r => ?_)
    rcases r with _ | dpath
    · exact .pure _
    · refine (kmalloc_careful _).bind fun ok => .ite ((ext2ReadFileAt_careful _ _ _ _).bind fun r => ?_) (.pure _)
      rcases r with ⟨_ | n, buf⟩
      · exact .pure _
      · exact (ext2WriteFile_careful _ _ _).bind fun _ => .pure _

theorem meets_careful (sino n walk : ℕ) : Careful g (meets g sino n walk) := by
  induction n generalizing walk with
  | zero => exact .pure _
  | succ n ih =>
    refine .ite (.pure _) (.ite (.pure _) ((readInode_careful _).bind fun r => ?_))
    rcases r with _ | w
    · exact .pure _
    · refine (dirLookup_careful _ _).bind fun r => ?_
      rcases r with _ | up
      · exact .pure _
      · exact ih up

theorem mvParents_careful (spino sino dpino : ℕ) (spin dpin : Inode) :
    Careful g (mvParents g spino sino dpino spin dpin) :=
  (dirSetDotdot_careful _ _).bind fun _ => (writeInode_careful _ _).bind fun _ =>
    (writeInode_careful _ _).bind fun _ => .pure _

theorem mvTouch_careful (sino : ℕ) : Careful g (mvTouch g sino) := by
  refine (readInode_careful _).bind fun r => ?_
  rcases r with _ | sin
  · exact .pure _
  · exact now_careful.bind fun _ => (writeInode_careful _ _).bind fun _ => .pure _

theorem mvLink_careful (spino sino dpino : ℕ) (sbase dbase : Str) (spin dpin sin : Inode) :
    Careful g (mvLink g spino sino dpino sbase dbase spin dpin sin) := by
  refine (dirAdd_careful _ _ _ _ _).bind fun r => .ite (syncMeta_careful.bind fun _ => .pure _) ?_
  refine (dirRemove_careful _ _ _).bind fun r => ?_
  refine .ite ((mvParents_careful _ _ _ _ _).bind fun _ => ?_) ((Careful.pure _).bind fun _ => ?_) <;>
  exact (mvTouch_careful _).bind fun _ => syncMeta_careful.bind fun _ => .pure _

theorem mvInto_careful (spino sino dpino : ℕ) (sbase dbase : Str) (spin dpin sin : Inode) :
    Careful g (mvInto g spino sino dpino sbase dbase spin dpin sin) := by
  refine .ite (.pure _) (.ite_bind (meets_careful _ _ _) (.pure _) fun inside => .ite (.pure _) ?_)
  refine (dirLookup_careful _ _).bind fun r => ?_
  rcases r with _ | tino
  · exact mvLink_careful _ _ _ _ _ _ _ _
  · refine .ite (.pure _) ((readInode_careful _).bind fun r => ?_)
    rcases r with _ | tin
    · exact .pure _
    · exact .ite (.pure _) ((doUnlink_careful _ _ _ _).bind fun r =>
        .ite (mvLink_careful _ _ _ _ _ _ _ _) (syncMeta_careful.bind fun _ => .pure _))

theorem ext2Mv_careful (src dst : Str) : Careful g (ext2Mv g src dst) := by
  refine .ite (.pure _) ((splitParent_careful _).bind fun r => ?_)
  rcases r with _ | ⟨spino, sbase⟩
  · exact .pure _
  refine (readInode_careful _).bind fun r => ?_
  rcases r with _ | spin
  · exact .pure _
  refine (dirLookup_careful _ _).bind fun r => ?_
  rcases r with _ | sino
  · exact .pure _
  refine (readInode_careful _).bind fun r => ?_
  rcases r with _ | sin
  · exact .pure _
  refine (targetPath_careful _ _ _).bind fun r => ?_
  rcases r with _ | dpath
  · exact .pure _
  refine (splitParent_careful _).bind fun r => ?_
  rcases r with _ | ⟨dpino, dbase⟩
  · exact .pure _
  refine .ite (mvInto_careful _ _ _ _ _ _ _ _) ((readInode_careful _).bind fun r => ?_)
  rcases r with _ | dpin
  · exact .pure _
  · exact mvInto_careful _ _ _ _ _ _ _ _

theorem op_careful (op : Op) : Careful g (op.prog g) := by
  cases op with
  | list path max => exact (ext2List_careful path max).bind fun _ => .pure _
  | isDir path => exact (ext2IsDir_careful path).bind fun _ => .pure _
  | readFileAt path out off len => exact (ext2ReadFileAt_careful path out off len).bind fun _ => .pure _
  | writeFile path data size => exact (ext2WriteFile_careful path data size).bind fun _ => .pure _
  | deleteFile path => exact (ext2Remove_careful path false).bind fun _ => .pure _
  | mkdir path => exact (ext2Mkdir_careful path).bind fun _ => .pure _
  | rmdir path => exact (ext2Remove_careful path true).bind fun _ => .pure _
  | cp src dst => exact (ext2Cp_careful src dst).bind fun _ => .pure _
  | mv src dst => exact (ext2Mv_careful src dst).bind fun _ => .pure _

theorem runOps_careful (ops : List Op) : Careful g (runOps g ops) := by
  induction ops with
  | nil => exact .pure ()
  | cons op ops ih => exact (op_careful op).bind fun _ => ih

section Keeps

variable {m : Machine}

/-- After its invalidation a block is not in the cache, and nothing new is. -/
theorem binval_gone (hs : Sound g m.cache m.disk) (blk j : ℕ) (hj : j < CACHE_N) (hv : ((m.binval blk).cache j).valid) :
    (m.cache j).valid ∧ ((m.binval blk).cache j).blk = (m.cache j).blk ∧ (m.cache j).blk ≠ blk := by
  unfold Machine.binval at hv ⊢
  rcases hf : m.cacheFind blk with _ | i
  · rw [hf] at hv
    exact ⟨hv, rfl, cacheFind_none hf hj hv⟩
  · obtain ⟨hi, hvi, hblk⟩ := cacheFind_some hf
    rw [hf] at hv
    dsimp only [Machine.setEnt] at hv ⊢
    by_cases hji : j = i
    · rw [hji, Function.update_self] at hv
      cases hv
    · rw [Function.update_of_ne hji] at hv ⊢
      exact ⟨hv, rfl, fun heq => hji (hs.unique j i hj hi hv hvi (heq.trans hblk.symm))⟩

theorem binval_log (blk : ℕ) : (m.binval blk).log = m.log := by
  unfold Machine.binval
  split <;> rfl

/-- After the invalidations none of the blocks is in the cache. -/
theorem binvals_spec (blk : ℕ) (l : List ℕ) (h : Inv g m) :
    (∀ t ∈ (binvals blk l).returns (cached g) m, Inv g t) ∧ Inv g ((binvals blk l).run (cached g) m).2 ∧
      ((binvals blk l).run (cached g) m).2.log = m.log ∧
      (Sound g m.cache m.disk → ∀ j, j < CACHE_N → (((binvals blk l).run (cached g) m).2.cache j).valid →
        (m.cache j).valid ∧ (((binvals blk l).run (cached g) m).2.cache j).blk = (m.cache j).blk ∧
        ∀ k ∈ l, (m.cache j).blk ≠ u32 (blk + k)) := by
  induction l generalizing m with
  | nil =>
    exact ⟨fun t ht => absurd ht List.not_mem_nil, h, rfl, fun _ j hj hv =>
      ⟨hv, rfl, fun k hk => absurd hk List.not_mem_nil⟩⟩
  | cons k l ih =>
    have hone : Inv g (m.binval (u32 (blk + k))) := binval_inv h
    obtain ⟨hret, hend, hlog, hgone⟩ := ih hone
    refine ⟨fun t ht => ?_, hend, hlog.trans (binval_log _), fun hs j hj hv => ?_⟩
    · rcases List.mem_cons.mp ht with rfl | ht
      · exact hone
      · exact hret t ht
    · have hs' : Sound g (m.binval (u32 (blk + k))).cache (m.binval (u32 (blk + k))).disk := by
        unfold Machine.binval
        split
        · exact hs.invalidate rfl
        · exact hs
      obtain ⟨hv', hblk', hrest⟩ := hgone hs' j hj hv
      obtain ⟨hv'', hblk'', hne⟩ := binval_gone hs _ j hj hv'
      refine ⟨hv'', hblk'.trans hblk'', fun k' hk' => ?_⟩
      rcases List.mem_cons.mp hk' with rfl | hk'
      · exact hne
      · rw [← hblk'']
        exact hrest k' hk'

theorem writeAt_log {blk count s n : ℕ} {data : Mem} {r : ℕ × ℕ} (hr : r ∈ m.log) :
    r ∈ (m.writeAt blk count s n data).2.log := by
  unfold Machine.writeAt
  split <;> exact List.mem_cons_of_mem _ hr

theorem fits_lt {blk count : ℕ} (h : Fits g (blk, count)) : blk + count < 2 ^ 32 ∨ blk + count = 0 := by
  unfold Fits at h
  dsimp only at h
  have := Nat.mul_le_mul_left (blk + count) g.two_le_spb
  omega

theorem superBlock_range (hfits : Fits g (g.superBlock, 1)) :
    g.partLba + g.superBlock * g.spb ≤ u32 (g.partLba + 2) ∧
      u32 (g.partLba + 2) + 2 ≤ g.partLba + (g.superBlock + 1) * g.spb := by
  unfold Fits at hfits
  unfold u32
  have hspb := g.sectors_eq
  unfold Geom.superBlock at hfits ⊢
  by_cases h : g.blockSize = 1024
  · rw [if_pos h] at hfits ⊢
    dsimp only at hfits
    omega
  · rw [if_neg h] at hfits ⊢
    dsimp only at hfits
    have hsize := g.block_size
    omega

/-- A device write behind which no entry for its blocks is left. -/
theorem devWrite_inv {blk count : ℕ} {data : Mem} (h : Inv g m) (hcount : 0 < count)
    (hnone : Sound g m.cache m.disk → Fits g (blk, count) → ∀ j, j < CACHE_N → (m.cache j).valid →
      (m.cache j).blk < blk ∨ blk + count ≤ (m.cache j).blk) : Inv g (m.devWrite g blk count data).2 := by
  refine writeAt_inv h (fun hfits => ?_) hnone
  rw [sector_of_fits hcount hfits, Nat.add_mul, Nat.add_assoc]
  exact ⟨le_rfl, le_rfl⟩

/-- In all states of a careful program's run the cache is coherent, as long as the requests have
fitted. -/
theorem Careful.inv {α : Type} {x : Prog α} (hx : Careful g x) (h : Inv g m) :
    (∀ t ∈ x.returns (cached g) m, Inv g t) ∧ Inv g (x.run (cached g) m).2 := by
  induction hx generalizing m with
  | pure a => exact ⟨fun t ht => absurd ht List.not_mem_nil, h⟩
  | ask c hc =>
    refine ⟨fun t ht => ?_, quiet_inv hc h⟩
    obtain rfl := List.mem_singleton.mp ht
    exact quiet_inv hc h
  | bind hx hf ihx ihf =>
    obtain ⟨hret, hend⟩ := ihx h
    obtain ⟨hret', hend'⟩ := ihf _ hend
    rw [Calling.returns_bind, Calling.run_bind]
    refine ⟨fun t ht => ?_, hend'⟩
    rcases List.mem_append.mp ht with ht | ht
    · exact hret t ht
    · exact hret' t ht
  | run blk hcount data =>
    rename_i count
    obtain ⟨hret, hend, hlog, hgone⟩ := binvals_spec blk (List.range count) h
    have hwrite : Inv g ((((binvals blk (List.range count)).run (cached g) m).2.devWrite g blk count data).2) := by
      refine fun hlog' => devWrite_inv hend hcount (fun _ hfits j hj hv => ?_) hlog'
      have hold : ∀ r ∈ m.log, Fits g r := by
        intro r hr
        rw [← hlog] at hr
        exact hlog' r (writeAt_log hr)
      obtain ⟨-, hblk, hne⟩ := hgone (h hold) j hj hv
      by_contra hcon
      have hk := hne ((m.cache j).blk - blk) (List.mem_range.mpr (by omega))
      have hlt := fits_lt hfits
      unfold u32 at hk
      omega
    rw [Calling.returns_bind, Calling.run_bind]
    refine ⟨fun t ht => ?_, hwrite⟩
    rcases List.mem_append.mp ht with ht | ht
    · exact hret t ht
    · obtain rfl := List.mem_singleton.mp ht
      exact hwrite
  | gdt blk data =>
    have hwrite : Inv g ((m.binval blk).devWrite g blk 1 data).2 := by
      refine fun hlog' => devWrite_inv (binval_inv h) Nat.one_pos (fun _ _ j hj hv => ?_) hlog'
      obtain ⟨-, hblk, hne⟩ := binval_gone
        (h fun r hr => hlog' r (writeAt_log ((binval_log blk).symm ▸ hr))) blk j hj hv
      omega
    refine ⟨fun t ht => ?_, hwrite⟩
    rcases List.mem_cons.mp ht with rfl | ht
    · exact binval_inv h
    · obtain rfl := List.mem_singleton.mp ht
      exact hwrite
  | super data =>
    have hwrite : Inv g ((m.binval g.superBlock).superWrite g data).2 := by
      refine fun hlog' => writeAt_inv (binval_inv h) superBlock_range (fun _ _ j hj hv => ?_) hlog'
      obtain ⟨-, hblk, hne⟩ :=
        binval_gone (h fun r hr => hlog' r (writeAt_log ((binval_log g.superBlock).symm ▸ hr))) _ j hj hv
      omega
    refine ⟨fun t ht => ?_, hwrite⟩
    rcases List.mem_cons.mp ht with rfl | ht
    · exact binval_inv h
    · obtain rfl := List.mem_singleton.mp ht
      exact hwrite

end Keeps

/-- What a mount leaves: an empty cache. -/
structure Mounted (m : Machine) : Prop where
  empty : ∀ i, i < CACHE_N → (m.cache i).valid = false
  started : m.log = []

theorem Mounted.inv {m : Machine} (h : Mounted m) : Inv g m := by
  have hnone : ∀ i, i < CACHE_N → ¬ (m.cache i).valid = true := fun i hi => by rw [h.empty i hi]; decide
  exact fun _ => ⟨⟨fun i j hi _ hv _ _ => absurd hv (hnone i hi), fun i hi hv =>
    absurd hv (hnone i hi)⟩, fun i hi hv => absurd hv (hnone i hi)⟩

/-- In every run of operations after a mount, whatever the device fails at, the cache is coherent
wherever a call returns up to which all requests were for sectors below 2^32. -/
theorem cache_coherent {m : Machine} (hm : Mounted m) (ops : List Op) :
    ∀ t ∈ (runOps g ops).returns (cached g) m, (∀ r ∈ t.log, Fits g r) → Coherent g t.cache t.disk :=
  fun t ht hlog => (((runOps_careful ops).inv hm.inv).1 t ht hlog).toCoherent

/-- A root directory whose only file has its one block at the number `block`; the inode table is
block 5. -/
def fileDisk (block : ℕ) : Mem :=
  let root := Inode.setBlock (Inode.setSize (Inode.setMode zeros (S_IFDIR + 0o755)) 4096) 6 0
  let file := Inode.setBlock (Inode.setSize (Inode.setMode zeros (S_IFREG + 0o644)) 1) block 0
  let names := direntSet wideGeom (dotsBlock wideGeom 2 2) 24 12 4072 [0x66] FT_REG
  (((zeros.blit (4096 * 5 + 128) root 0 128).blit (4096 * 5 + 1408) file 0 128).blit (4096 * 6)
  names 0 4096).setLE
    (4096 * 6 + 16) 2 12

/-- The volume, just mounted, on a device that never fails. -/
def fileMachine (block : ℕ) : Machine where
  cache := fun _ => ⟨0, 0, false, fun _ => 0⟩
  clock := 0
  disk := fileDisk block
  md := { sb := fun _ => 0, gdt := Mem.setLE (fun _ => 0) 8 4 5, sbDirty := false, gdtDirty := none }
  io := fun _ => .ok
  times := fun _ => 0
  heap := fun _ => true
  log := []

theorem fileMachine_mounted (block : ℕ) : Mounted (fileMachine block) := ⟨fun _ _ => rfl, rfl⟩

/-- A byte is written to the file in block 7, and the cache holds the inode table, the directory and
the descriptors. -/
theorem cache_coherent_write : ∃ t ∈ (runOps wideGeom [.writeFile [slash, 0x66] (fun _ => 0xAB)
    1]).returns (cached wideGeom)
      (fileMachine 7),
    t.disk (4096 * 7) = 0xAB ∧ (t.cache 0).valid = true ∧ Coherent wideGeom t.cache t.disk := by
  have hrun : (((runOps wideGeom [.writeFile [slash, 0x66] (fun _ => 0xAB) 1]).returns
      (cached wideGeom) (fileMachine 7))[10]?.map fun t => (t.disk (4096 * 7), (t.cache 0).valid,
        t.log.all fun r => decide ((r.1 + r.2) * 8 ≤ 2 ^ 32))) = some (0xAB, true, true) := by decide +kernel
  obtain ⟨t, ht, heq⟩ := Option.map_eq_some_iff.mp hrun
  obtain ⟨hdisk, heq⟩ := Prod.mk.inj heq
  obtain ⟨hv, hlog⟩ := Prod.mk.inj heq
  refine ⟨t, List.mem_of_getElem? ht, hdisk, hv, ?_⟩
  refine cache_coherent (fileMachine_mounted 7) _ t (List.mem_of_getElem? ht) fun r hr => ?_
  have hfits : (r.1 + r.2) * 8 ≤ 2 ^ 32 := of_decide_eq_true (List.all_eq_true.mp hlog r hr)
  exact (Nat.zero_add _).trans_le hfits

/-- A file whose block lies behind sector 2^32. -/
def wideMachine : Machine := fileMachine (2 ^ 29 + 5)

/-- The write of the file's one byte goes to the sectors of the inode table, whose block stays in
the cache. -/
theorem cache_incoherent : Mounted wideMachine ∧
    ∃ t ∈ (runOps wideGeom [.writeFile [slash, 0x66] (fun _ => 0xAB) 1]).returns (cached wideGeom)
      wideMachine, ¬ Coherent wideGeom t.cache t.disk := by
  refine ⟨fileMachine_mounted _, ?_⟩
  have hrun : (((runOps wideGeom [.writeFile [slash, 0x66] (fun _ => 0xAB) 1]).returns (cached wideGeom)
      wideMachine)[10]?.map fun t => ((t.cache 0).valid, (t.cache 0).blk, (t.cache 0).data 0, t.disk (512 * 40))) =
      some (true, 5, 0, 0xAB) := by decide +kernel
  obtain ⟨t, ht, heq⟩ := Option.map_eq_some_iff.mp hrun
  obtain ⟨hv, heq⟩ := Prod.mk.inj heq
  obtain ⟨hblk, heq⟩ := Prod.mk.inj heq
  obtain ⟨hdata, hdisk⟩ := Prod.mk.inj heq
  refine ⟨t, List.mem_of_getElem? ht, fun hc => ?_⟩
  have hsame := congrFun (hc.current 0 (by decide) hv) 0
  rw [hblk, hdata] at hsame
  have hsector : wideGeom.sector 5 = 40 := by decide
  rw [hsector, readSectors, Mem.clip_of_lt (by decide), Nat.add_zero, hdisk] at hsame
  exact absurd hsame (by decide)

end ComputerOS.Ext2
