import ComputerOS.Cfs.Commit
import ComputerOS.Cfs.DirSpec
import Mathlib.Data.List.Perm.Subperm

/-!
The transaction buffer has room for every call on a volume whose bitmaps are small. A
body writes the superblock, bitmap blocks and at most three other metadata blocks, so
with at most 28 bitmap blocks no buffered write is ever refused.
-/
namespace ComputerOS.Cfs

open M Bytes Function

/-- The superblock and the bitmap blocks. -/
def Geom.fixed (g : Geom) : List ℕ :=
  0 :: ((bitmapBlocks g.totalBlocks).map (g.blockBitmapStart + ·) ++
    (bitmapBlocks g.totalInodes).map (g.inodeBitmapStart + ·))

/-- Nothing was refused yet, and at most `k` buffered blocks are neither the superblock
nor a bitmap block. -/
structure Room (g : Geom) (k : ℕ) (s : St) : Prop where
  kept : s.lost = false
  nodup : (s.txn.map Prod.fst).Nodup
  homes : ∃ l : List ℕ, l.length ≤ k ∧ ∀ b ∈ s.txn.map Prod.fst, b ∈ g.fixed ∨ b ∈ l

/-- Every run of `x` takes room for at most `a` further blocks. -/
def Grows (g : Geom) (a : ℕ) {α : Type} (x : M α) : Prop :=
  ∀ s k, s.InTxn g → Room g k s → g.fixed.length + (k + a) ≤ CFS_MAX_TXN →
    (x.run s).2.InTxn g ∧ Room g (k + a) (x.run s).2

variable {g : Geom}

theorem Room.mono {k k' : ℕ} {s : St} (h : Room g k s) (hk : k ≤ k') : Room g k' s := by
  obtain ⟨l, hl, hmem⟩ := h.homes
  exact ⟨h.kept, h.nodup, l, by omega, hmem⟩

namespace Grows

variable {a b : ℕ} {α β : Type}

theorem mono {x : M α} (h : Grows g a x) (hab : a ≤ b) : Grows g b x := by
  intro s k hs hr hle
  obtain ⟨h1, h2⟩ := h s k hs hr (by omega)
  exact ⟨h1, h2.mono (by omega)⟩

theorem bind {x : M α} {f : α → M β} (hx : Grows g a x) (hf : ∀ v, Grows g b (f v)) :
    Grows g (a + b) (x >>= f) := by
  intro s k hs hr hle
  obtain ⟨h1, h2⟩ := hx s k hs hr (by omega)
  rw [bind_run]
  rcases hrun : x.run s with ⟨_ | v, s1⟩
  · rw [hrun] at h1 h2
    exact ⟨h1, h2.mono (by omega)⟩
  · rw [hrun] at h1 h2
    rw [← Nat.add_assoc]
    exact hf v s1 (k + a) h1 h2 (by omega)

/-- First a program that takes no room. -/
theorem after {x : M α} {f : α → M β} (hx : Grows g 0 x) (hf : ∀ v, Grows g a (f v)) :
    Grows g a (x >>= f) := by
  have h := bind hx hf
  rwa [Nat.zero_add] at h

/-- A program that only reads. -/
theorem keep {x : M α} (h : ∀ s : St, s.ReadsOk → (x.run s).2 = s) : Grows g 0 x := by
  intro s k hs hr _
  rw [h s hs.reads]
  exact ⟨hs, hr⟩

theorem pure (v : α) : Grows g 0 (Pure.pure v : M α) := keep fun _ _ => rfl

theorem fail : Grows g 0 (M.fail : M α) := keep fun _ _ => rfl

theorem ensure (c : Prop) [Decidable c] : Grows g 0 (M.ensure c) := by
  refine keep fun s _ => ?_
  unfold M.ensure
  split
  · rfl
  · rfl

theorem attempt {x : M α} (h : Grows g a x) : Grows g a (M.attempt x) := h

theorem orUndo {x : M α} {undo : M Unit} (hx : Grows g a x) (hu : Grows g 0 undo) :
    Grows g a (M.orUndo x undo) := by
  refine @bind g a 0 _ _ _ _ (attempt hx) fun r => ?_
  cases r with
  | none => exact after hu fun _ => fail
  | some v => exact pure v

/-- The mount structure has the geometry of the volume. -/
theorem getFs {f : Fs → M β} (hf : ∀ fs : Fs, fs.toGeom = g → Grows g a (f fs)) :
    Grows g a (M.getFs >>= f) := by
  intro s k hs hr hle
  rw [bind_of_some (getFs_run s)]
  exact hf s.fs hs.geom s k hs hr hle

theorem read (b : ℕ) : Grows g 0 (bdReadBlock b) := by
  refine keep fun s hr => ?_
  rw [bdReadBlock_run hr b]

theorem rawWrite (b : ℕ) (v : Block) : Grows g 0 (rawWriteBlock b v) := by
  intro s k hs hr _
  rw [rawWriteBlock_run]
  split
  · exact ⟨⟨⟨hs.geom, hs.reads⟩, hs.active⟩, hr.kept, hr.nodup, hr.homes⟩
  · exact ⟨⟨⟨hs.geom, hs.reads⟩, hs.active⟩, hr.kept, hr.nodup, hr.homes⟩

theorem counts (c : Fs → ℕ × ℕ) : Grows g 0 (setCounts c) := by
  intro s k hs hr _
  exact ⟨⟨⟨hs.geom, hs.reads⟩, hs.active⟩, hr.kept, hr.nodup, hr.homes⟩

end Grows

/-- A buffered write succeeds while the buffer has room. -/
theorem Room.write {k : ℕ} {s : St} (hs : s.InTxn g) {b : ℕ} (v : Block) {l : List ℕ}
    (hr : Room g k s) (hmem : ∀ x ∈ s.txn.map Prod.fst, x ∈ g.fixed ∨ x ∈ l)
    (hlen : g.fixed.length + l.length ≤ CFS_MAX_TXN) (hb : b ∈ g.fixed ∨ b ∈ l) :
    (bdWriteBlock b v).run s = (some (), s.buffer b v) ∧ (s.buffer b v).InTxn g ∧
      Room g l.length (s.buffer b v) := by
  have hroom : ¬ (txnFind s.txn b = none ∧ CFS_MAX_TXN ≤ s.txn.length) := by
    rintro ⟨hnone, hfull⟩
    have hnew : b ∉ s.txn.map Prod.fst := txnFind_eq_none.mp hnone
    have hsub : (b :: s.txn.map Prod.fst) ⊆ g.fixed ++ l := by
      intro x hx
      rw [List.mem_append]
      rcases List.mem_cons.mp hx with rfl | hx
      · exact hb
      · exact hmem x hx
    have hnd : (b :: s.txn.map Prod.fst).Nodup := List.nodup_cons.mpr ⟨hnew, hr.nodup⟩
    have hle := (List.subperm_of_subset hnd hsub).length_le
    rw [List.length_cons, List.length_map, List.length_append] at hle
    omega
  refine ⟨?_, ⟨⟨hs.geom, hs.reads⟩, hs.active⟩, hr.kept, nodup_txnPut hr.nodup, l, le_rfl, ?_⟩
  · rw [bdWriteBlock_eq, if_pos hs.active, if_neg hroom]
    rfl
  · intro x hx
    rcases mem_map_txnPut.mp hx with rfl | hx
    · exact hb
    · exact hmem x hx

theorem Grows.write (b : ℕ) (v : Block) : Grows g 1 (bdWriteBlock b v) := by
  intro s k hs hr hle
  obtain ⟨l, hl, hmem⟩ := hr.homes
  obtain ⟨hrun, hin, hroom⟩ := @Room.write g k s hs b v (b :: l) hr
    (fun x hx => (hmem x hx).imp_right (List.mem_cons_of_mem b))
    (by rw [List.length_cons]; omega) (Or.inr (by simp))
  rw [hrun]
  exact ⟨hin, hroom.mono (by simpa using hl)⟩

theorem Grows.writeFixed {b : ℕ} (hb : b ∈ g.fixed) (v : Block) : Grows g 0 (bdWriteBlock b v) := by
  intro s k hs hr hle
  obtain ⟨l, hl, hmem⟩ := hr.homes
  obtain ⟨hrun, hin, hroom⟩ := @Room.write g k s hs b v l hr hmem (by omega) (Or.inl hb)
  rw [hrun]
  exact ⟨hin, hroom.mono hl⟩

theorem allocBit_grows {region lo hi : ℕ} (count : Fs → ℕ × ℕ) (bbs : List ℕ)
    (h : ∀ bb ∈ bbs, region + bb ∈ g.fixed) : Grows g 0 (allocBit region lo hi count bbs) := by
  induction bbs with
  | nil => exact .pure 0
  | cons bb bbs ih =>
    rw [allocBit]
    refine .after (.attempt (.read _)) fun r => ?_
    cases r with
    | none => exact .pure 0
    | some buf =>
      dsimp only
      split
      · exact ih fun x hx => h x (List.mem_cons_of_mem bb hx)
      · exact .pure 0
      · refine .after (.attempt (.writeFixed (h bb (by simp)) _)) fun r => ?_
        cases r with
        | none => exact .pure 0
        | some _ => exact .after (.counts _) fun _ => .pure _

theorem allocBlock_grows : Grows g 0 allocBlock := by
  refine .getFs fun fs hfs => allocBit_grows _ _ fun bb hbb => ?_
  subst hfs
  simp [Geom.fixed, bmblocks_subset _ hbb]

theorem allocInode_grows : Grows g 0 allocInode := by
  refine .getFs fun fs hfs => allocBit_grows _ _ fun bb hbb => ?_
  subst hfs
  simp [Geom.fixed, bmblocks_subset _ hbb]

theorem bitSet_grows {region idx : ℕ} (val : Bool) (h : region + idx / 32768 ∈ g.fixed) :
    Grows g 0 (bitSet region idx val) :=
  .after (.read _) fun _ => .writeFixed h _

theorem mem_bitmapBlocks {n i : ℕ} (h : i < n) : i / 32768 ∈ bitmapBlocks n := by
  rw [bitmapBlocks, List.mem_range]
  omega

theorem freeBlock_grows (b : ℕ) : Grows g 0 (freeBlock b) := by
  refine .getFs fun fs hfs => ?_
  subst hfs
  split
  · exact .pure ()
  · next hb =>
    have hmem := @mem_bitmapBlocks fs.totalBlocks b (by omega)
    refine .after (.attempt (bitSet_grows _ (by simp [Geom.fixed, hmem]))) fun r => ?_
    cases r with
    | none => exact .pure ()
    | some _ => exact .counts _

theorem freeInode_grows (n : ℕ) : Grows g 0 (freeInode n) := by
  refine .getFs fun fs hfs => ?_
  subst hfs
  split
  · exact .pure ()
  · next hn =>
    have hmem := @mem_bitmapBlocks fs.totalInodes n (by omega)
    refine .after (.attempt (bitSet_grows _ (by simp [Geom.fixed, hmem]))) fun r => ?_
    cases r with
    | none => exact .pure ()
    | some _ => exact .counts _

theorem readDinode_grows (n : ℕ) : Grows g 0 (readDinode n) :=
  .getFs fun _ _ => .after (.ensure _) fun _ => .after (.read _) fun _ => .pure _

theorem writeDinode_grows (n : ℕ) (d : DInode) : Grows g 1 (writeDinode n d) :=
  .getFs fun _ _ => .after (.ensure _) fun _ => .after (.read _) fun _ => .write _ _

theorem syncSuper_grows : Grows g 0 syncSuper :=
  .getFs fun _ _ => .after (.attempt (.after (.read _) fun _ => .writeFixed (by simp [Geom.fixed])
  _))
    fun _ => .pure ()

theorem inodeFreeData_grows (d : DInode) : Grows g 0 (inodeFreeData d) := by
  have hextent : ∀ start k n, Grows g 0 (freeExtent start k n) := by
    intro start k n
    induction n generalizing k with
    | zero => exact .pure ()
    | succ n ih => exact .after (freeBlock_grows _) fun _ => ih (k + 1)
  have hextents : ∀ e n, Grows g 0 (freeExtents d e n) := by
    intro e n
    induction n generalizing e with
    | zero => exact .pure ()
    | succ n ih =>
      refine .after ?_ fun _ => ih (e + 1)
      unfold freeExtentAt
      split
      · exact .pure ()
      · exact hextent _ _ _
  exact .after (hextents _ _) fun _ => .pure _

theorem dirLookup_grows (d : DInode) (name : Name) : Grows g 0 (dirLookup d name) := by
  refine .keep fun s hr => ?_
  rw [dirLookup_run hr]

theorem dirIsEmpty_grows (d : DInode) : Grows g 0 (dirIsEmpty d) := by
  refine .keep fun s hr => ?_
  obtain ⟨r, hrun, -⟩ := dirIsEmpty_run hr d
  rw [hrun]

theorem walk_grows (n : ℕ) (cs : List Name) : Grows g 0 (walk n cs) := by
  induction cs generalizing n with
  | nil => exact .pure n
  | cons c cs ih =>
    rw [walk]
    split
    · exact .pure 0
    · refine .after (.attempt (readDinode_grows _)) fun r => ?_
      cases r with
      | none => exact .pure 0
      | some d =>
        dsimp only
        split
        · exact .pure 0
        · refine .after (dirLookup_grows _ _) fun next => ?_
          split
          · exact .pure 0
          · exact ih next

theorem resolveIno_grows (path : List UInt8) : Grows g 0 (resolveIno path) :=
  .getFs fun _ _ => walk_grows _ _

theorem resolveParent_grows (path : List UInt8) : Grows g 0 (resolveParent path) :=
  .after (.ensure _) fun _ => .after (.ensure _) fun _ => .after (resolveIno_grows _) fun _ =>
    .after (.ensure _) fun _ => .after (readDinode_grows _) fun _ => .after (.ensure _) fun _ => .pure _

theorem dirAdd_grows (d : DInode) (name : Name) (child type : ℕ) :
    Grows g 1 (dirAdd d name child type) := by
  have hblocks : ∀ fbs, Grows g 1 (addBlocks d name child type fbs) := by
    intro fbs
    induction fbs with
    | nil => exact (Grows.pure none).mono (by omega)
    | cons fb fbs ih =>
      rw [addBlocks]
      split
      · exact ih
      · refine .after (.read _) fun blk => ?_
        split
        · exact .bind (.write _ _) fun _ => .pure _
        · exact ih
  refine @Grows.bind g 1 0 _ _ _ _ (hblocks _) fun r => ?_
  cases r with
  | some _ => exact .pure d
  | none =>
    refine .after allocBlock_grows fun b => .after (.ensure _) fun _ => .after (.rawWrite _ _) fun _ => ?_
    split
    · exact .after (freeBlock_grows b) fun _ => .fail
    · exact .pure _

theorem dirRemove_grows (d : DInode) (name : Name) : Grows g 1 (dirRemove d name) := by
  have hblocks : ∀ fbs, Grows g 1 (removeBlocks d name fbs) := by
    intro fbs
    induction fbs with
    | nil => exact Grows.fail.mono (by omega)
    | cons fb fbs ih =>
      rw [removeBlocks]
      split
      · exact ih
      · refine .after (.read _) fun blk => ?_
        split
        · exact .write _ _
        · exact ih
  exact hblocks _

theorem storeData_grows (din : DInode) (data : List UInt8) : Grows g 0 (storeData din data) := by
  have hblocks : ∀ fbs din, Grows g 0 (writeBlocks data fbs din) := by
    intro fbs
    induction fbs with
    | nil => exact fun din => .pure din
    | cons fb fbs ih =>
      intro din
      rw [writeBlocks]
      refine .after allocBlock_grows fun b => .after (.ensure _) fun _ => .after (.rawWrite _ _) fun _ => ?_
      split
      · exact .fail
      · exact ih _
  unfold storeData
  split
  · unfold storeTarget
    split
    · exact .pure _
    · exact .after allocBlock_grows fun b => .after (.ensure _) fun _ => .after (.rawWrite _ _) fun _ =>
        .pure _
  · split
    · exact .pure _
    · exact hblocks _ _

theorem openForWrite_grows (env : Env) (p : ℕ) (pdin : DInode) (leaf : Name) (mode ftype : ℕ) :
    Grows g 2 (openForWrite env p pdin leaf mode ftype) := by
  refine .after (dirLookup_grows _ _) fun n => ?_
  split
  · refine Grows.mono (a := 0) ?_ (by omega)
    exact .after (readDinode_grows _) fun _ => .after (.ensure _) fun _ => .after (.ensure _) fun _ =>
      .after (inodeFreeData_grows _) fun _ => .pure _
  · refine .after (.ensure _) fun _ => .after allocInode_grows fun n => .after (.ensure _) fun _ => ?_
    refine @Grows.bind g 1 1 _ _ _ _ (.orUndo (dirAdd_grows _ _ _ _) (freeInode_grows n)) fun pd => ?_
    exact @Grows.bind g 1 0 _ _ _ _ (writeDinode_grows _ _) fun _ => .pure _

/-- Every body takes room for at most three blocks besides the superblock and the bitmaps. -/
theorem body_grows (env : Env) (c : Call) : Grows g 3 (c.body env) := by
  cases c with
  | writeFile path data =>
    refine .after (resolveParent_grows _) fun r => .after (readDinode_grows _) fun _ =>
      .after (.ensure _) fun _ => ?_
    refine @Grows.bind g 2 1 _ _ _ _ (openForWrite_grows _ _ _ _ _ _) fun r =>
      .after (storeData_grows _ _) fun _ => ?_
    exact @Grows.bind g 1 0 _ _ _ _ (writeDinode_grows _ _) fun _ => .after syncSuper_grows fun _ => .pure _
  | mkdir path =>
    refine .after (resolveParent_grows _) fun r => .after (readDinode_grows _) fun _ =>
      .after (.ensure _) fun _ => .after (dirLookup_grows _ _) fun _ => .after (.ensure _) fun _ =>
      .after allocInode_grows fun n => .after (.ensure _) fun _ => .after allocBlock_grows fun b => ?_
    split
    · refine Grows.mono (a := 0) ?_ (by omega)
      exact .after (freeInode_grows n) fun _ => .fail
    · refine .after (.rawWrite _ _) fun _ => ?_
      refine @Grows.bind g 1 2 _ _ _ _ (writeDinode_grows _ _) fun _ => ?_
      refine @Grows.bind g 1 1 _ _ _ _ (.orUndo (dirAdd_grows _ _ _ _)
        (.after (freeBlock_grows b) fun _ => freeInode_grows n)) fun pd => ?_
      exact @Grows.bind g 1 0 _ _ _ _ (writeDinode_grows _ _) fun _ => .after syncSuper_grows fun _ => .pure _
  | rmdir path =>
    refine Grows.mono (a := 2) ?_ (by omega)
    refine .after (resolveParent_grows _) fun r => .after (readDinode_grows _) fun _ =>
      .after (.ensure _) fun _ => .after (dirLookup_grows _ _) fun _ => .after (.ensure _) fun _ =>
      .after (readDinode_grows _) fun _ => .after (.ensure _) fun _ => .after (dirIsEmpty_grows _) fun _ =>
      .after (.ensure _) fun _ => ?_
    refine @Grows.bind g 1 1 _ _ _ _ (dirRemove_grows _ _) fun _ => ?_
    exact @Grows.bind g 1 0 _ _ _ _ (writeDinode_grows _ _) fun _ => .after (inodeFreeData_grows _) fun _ =>
      .after (freeInode_grows _) fun _ => .after syncSuper_grows fun _ => .pure _
  | unlink path =>
    refine .after (resolveParent_grows _) fun r => .after (readDinode_grows _) fun _ =>
      .after (.ensure _) fun _ => .after (dirLookup_grows _ _) fun _ => .after (.ensure _) fun _ =>
      .after (readDinode_grows _) fun _ => .after (.ensure _) fun _ => ?_
    refine @Grows.bind g 1 2 _ _ _ _ (dirRemove_grows _ _) fun _ => ?_
    refine @Grows.bind g 1 1 _ _ _ _ (writeDinode_grows _ _) fun _ => ?_
    refine @Grows.bind g 1 0 _ _ _ _ ?_ fun _ => .after syncSuper_grows fun _ => .pure _
    unfold dropLink
    split
    · refine Grows.mono (a := 0) ?_ (by omega)
      exact .after (inodeFreeData_grows _) fun _ => freeInode_grows _
    · exact @Grows.bind g 1 0 _ _ _ _ (.attempt (writeDinode_grows _ _)) fun _ => .pure _
  | link oldpath newpath =>
    refine .after (resolveIno_grows _) fun _ => .after (.ensure _) fun _ => .after (readDinode_grows _)
      fun _ => .after (.ensure _) fun _ => .after (resolveParent_grows _) fun r =>
      .after (readDinode_grows _) fun _ => .after (.ensure _) fun _ => .after (dirLookup_grows _ _)
      fun _ => .after (.ensure _) fun _ => ?_
    refine @Grows.bind g 1 2 _ _ _ _ (dirAdd_grows _ _ _ _) fun pd => ?_
    refine @Grows.bind g 1 1 _ _ _ _ (writeDinode_grows _ _) fun _ => ?_
    exact @Grows.bind g 1 0 _ _ _ _ (writeDinode_grows _ _) fun _ => .pure _
  | chmod path perm =>
    refine Grows.mono (a := 1) ?_ (by omega)
    refine .after (resolveIno_grows _) fun _ => .after (.ensure _) fun _ => .after (readDinode_grows _)
      fun _ => .after (.ensure _) fun _ => ?_
    exact @Grows.bind g 1 0 _ _ _ _ (writeDinode_grows _ _) fun _ => .pure _
  | chown path uid gid =>
    refine Grows.mono (a := 1) ?_ (by omega)
    refine .after (.ensure _) fun _ => .after (resolveIno_grows _) fun _ => .after (.ensure _) fun _ =>
      .after (readDinode_grows _) fun _ => ?_
    exact @Grows.bind g 1 0 _ _ _ _ (writeDinode_grows _ _) fun _ => .pure _

/-- The bitmaps leave room in the buffer for every call. -/
def Geom.Roomy (g : Geom) : Prop :=
  (bitmapBlocks g.totalBlocks).length + (bitmapBlocks g.totalInodes).length ≤ 28

/-- On a roomy volume no buffered write of a call is refused. -/
theorem body_not_lost (hg : g.Roomy) {s : St} (hs : s.Mounted g) (env : Env) (c : Call) :
    ((c.body env).run s.begun).2.lost = false := by
  have hin : s.begun.InTxn g := ⟨⟨hs.geom, hs.reads⟩, rfl⟩
  have hroom : Room g 0 s.begun := ⟨rfl, List.nodup_nil, [], le_rfl, fun b hb => by cases hb⟩
  have hlen : g.fixed.length + (0 + 3) ≤ CFS_MAX_TXN := by
    unfold Geom.Roomy at hg
    simp only [Geom.fixed, List.length_cons, List.length_append, List.length_map, CFS_MAX_TXN]
    omega
  exact (body_grows env c s.begun 0 hin hroom hlen).2.kept

/-- On a roomy volume a call reaches its commit with every buffered write taken. -/
theorem commitState_kept (hroom : g.Roomy) {s t : St} {env : Env} {c : Call}
    (hs : s.Mounted g) (h : commitState env c s = some t) :
    t.lost = false := by
  have hlost := body_not_lost hroom hs env c
  unfold commitState at h
  rcases hb : (c.body env).run s.begun with ⟨_ | rc, s'⟩
  · simp [hb] at h
  · rw [hb] at h hlost
    dsimp only at h
    split_ifs at h
    · cases h
      exact hlost

end ComputerOS.Cfs
