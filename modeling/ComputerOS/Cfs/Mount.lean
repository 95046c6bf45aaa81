import ComputerOS.Cfs.CrashAtomic
import ComputerOS.Cfs.Consistent

/-!
Mounting a volume. `cfs_format` lays the regions out one after another and writes the
superblock. `cfs_mount_bd` reads the geometry back from the superblock, replays the
journal and takes the free counts from the superblock as it is after the replay.
-/
namespace ComputerOS.Cfs

open M Bytes Function

/-- The mount structure that `cfs_mount_bd` fills from the superblock. -/
def mountedFs (sb : Block) : Fs where
  inodeSize := Super.inodeSize sb
  totalBlocks := Super.totalBlocks sb
  totalInodes := Super.totalInodes sb
  blockBitmapStart := Super.blockBitmapStart sb
  inodeBitmapStart := Super.inodeBitmapStart sb
  inodeTableStart := Super.inodeTableStart sb
  dataStart := Super.dataStart sb
  rootIno := Super.rootInode sb
  journalStart := Super.journalStart sb
  journalBlocks := Super.journalBlocks sb
  flags := Super.flags sb
  freeBlocks := Super.freeBlocks sb
  freeInodes := Super.freeInodes sb
  csumOk := if Super.flags sb &&& CFS_FEAT_CSUM ≠ 0 then Super.sbCsum sb = superCsum sb else true

/-- Reload the free counts: the replay may have rewritten block 0. -/
def reloadCounts : M Unit := do
  match ← attempt (rawReadBlock 0) with
  | none => pure ()
  | some sb => setCounts fun _ => (Super.freeBlocks sb, Super.freeInodes sb)

def cfsMountBd : M Unit := do
  modify fun s => { s with txnActive := false, txn := [], fs := default }
  let sb ← rawReadBlock 0
  ensure (Super.magic sb = CFS_MAGIC)
  ensure (Super.version sb = CFS_VERSION)
  ensure (Super.blockSize sb = 4096)
  modify fun s => { s with fs := mountedFs sb }
  journalRecover
  reloadCounts

/-- `sync_super` writes the counts, the state and the checksum only. -/
theorem getLE_superWith {flags fb fi off w : ℕ} (sb : Block)
    (h : off + w ≤ 32 ∨ (48 ≤ off ∧ off + w ≤ 128) ∨ (132 ≤ off ∧ off + w ≤ 140)) :
    (superWith flags fb fi sb).getLE off w = sb.getLE off w := by
  have hset : ((((sb.setLE 32 8 fb).setLE 40 8 fi).setLE 128 4 CFS_STATE_CLEAN).getLE off w) =
      sb.getLE off w := by
    rw [getLE_setLE_ne _ (by omega), getLE_setLE_ne _ (by omega), getLE_setLE_ne _ (by omega)]
  rw [superWith]
  split
  · rw [getLE_setLE_ne _ (by omega), hset]
  · exact hset

theorem SuperOf.superWith {g : Geom} {sb : Block} (h : SuperOf g sb) (flags fb fi : ℕ) :
    SuperOf g (superWith flags fb fi sb) := by
  have hfield : ∀ off w v, (off + w ≤ 32 ∨ (48 ≤ off ∧ off + w ≤ 128) ∨
      (132 ≤ off ∧ off + w ≤ 140)) → sb.getLE off w = v →
      (Cfs.superWith flags fb fi sb).getLE off w = v := by
    intro off w v hw h1
    rw [getLE_superWith sb hw, h1]
  exact ⟨hfield _ _ _ (by omega) h.magic, hfield _ _ _ (by omega) h.version,
    hfield _ _ _ (by omega) h.blockSize, hfield _ _ _ (by omega) h.inodeSize,
    hfield _ _ _ (by omega) h.totalBlocks, hfield _ _ _ (by omega) h.totalInodes,
    hfield _ _ _ (by omega) h.blockBitmapStart, hfield _ _ _ (by omega) h.inodeBitmapStart,
    hfield _ _ _ (by omega) h.inodeTableStart, hfield _ _ _ (by omega) h.dataStart,
    hfield _ _ _ (by omega) h.rootInode, hfield _ _ _ (by omega) h.journalStart,
    hfield _ _ _ (by omega) h.journalBlocks, hfield _ _ _ (by omega) h.flags⟩

/-- The superblock states the free counts and passes its own check. -/
structure SuperCounts (g : Geom) (sb : Block) (freeBlocks freeInodes : ℕ) : Prop where
  blocks : Super.freeBlocks sb = freeBlocks
  inodes : Super.freeInodes sb = freeInodes
  csum : g.flags &&& CFS_FEAT_CSUM ≠ 0 → Super.sbCsum sb = superCsum sb

theorem superWith_counts {g : Geom} {fb fi : ℕ} (sb : Block) (hfb : fb < 2 ^ 64) (hfi : fi < 2 ^ 64) :
    SuperCounts g (superWith g.flags fb fi sb) fb fi := by
  have h1 : ((((sb.setLE 32 8 fb).setLE 40 8 fi).setLE 128 4 CFS_STATE_CLEAN).getLE 32 8) = fb := by
    rw [getLE_setLE_ne _ (by omega), getLE_setLE_ne _ (by omega), getLE_setLE_same _ _ (by omega)]
    exact Nat.mod_eq_of_lt hfb
  have h2 : ((((sb.setLE 32 8 fb).setLE 40 8 fi).setLE 128 4 CFS_STATE_CLEAN).getLE 40 8) = fi := by
    rw [getLE_setLE_ne _ (by omega), getLE_setLE_same _ _ (by omega)]
    exact Nat.mod_eq_of_lt hfi
  rw [superWith]
  by_cases hfl : g.flags &&& CFS_FEAT_CSUM ≠ 0
  · simp only [if_pos hfl]
    refine ⟨?_, ?_, fun _ => ?_⟩
    · rw [Super.freeBlocks, getLE_setLE_ne _ (by omega), h1]
    · rw [Super.freeInodes, getLE_setLE_ne _ (by omega), h2]
    · rw [superCsum_setCsum, superCsum_setCsum, Super.sbCsum, getLE_setLE_same _ _ (by omega)]
      exact Nat.mod_eq_of_lt (superCsum_lt _)
  · simp only [if_neg hfl]
    exact ⟨h1, h2, fun h => absurd h hfl⟩

theorem getLE_formatSuper (g : Geom) (label : List UInt8) (now : ℕ) {off w : ℕ} (h : off + w ≤ 140) :
    (formatSuper g label now).getLE off w = (formatFields g now).getLE off w := by
  rw [formatSuper, getLE_setLE_ne _ (by omega), getLE_put_ne _ (by omega)]

/-- The superblock of a new volume states its geometry and free counts. -/
theorem formatSuper_spec {g : Geom} (label : List UInt8) (now : ℕ) (h1 : g.inodeSize = CFS_INODE_SIZE)
    (h2 : g.rootIno = CFS_ROOT_INO) (h3 : g.flags = CFS_FEAT_CSUM) (h4 : g.totalBlocks < 2 ^ 64)
    (h5 : g.totalInodes < 2 ^ 64) (h6 : g.blockBitmapStart < 2 ^ 64)
    (h7 : g.inodeBitmapStart < 2 ^ 64) (h8 : g.inodeTableStart < 2 ^ 64) (h9 : g.dataStart < 2 ^ 64)
    (h10 : g.journalStart < 2 ^ 64) (h11 : g.journalBlocks < 2 ^ 64) :
    SuperOf g (formatSuper g label now) ∧ SuperCounts g (formatSuper g label now)
      (g.totalBlocks - (g.dataStart + 1)) (g.totalInodes - 2) := by
  have hmod : ∀ x : ℕ, x < 2 ^ 64 → x % 256 ^ 8 = x := fun x hx => Nat.mod_eq_of_lt hx
  have hfb : g.totalBlocks - (g.dataStart + 1) < 2 ^ 64 := by omega
  have hfi : g.totalInodes - 2 < 2 ^ 64 := by omega
  have hval : ∀ off w v : ℕ, off + w ≤ 140 → (formatFields g now).getLE off w = v →
      (formatSuper g label now).getLE off w = v := by
    intro off w v h hv
    rw [getLE_formatSuper g label now h, hv]
  refine ⟨⟨?_, ?_, ?_, ?_, ?_, ?_, ?_, ?_, ?_, ?_, ?_, ?_, ?_, ?_⟩, ?_, ?_, fun _ => ?_⟩
  -- the checksum last; every other goal is a field
  rotate_right
  · rw [formatSuper, superCsum_setCsum, Super.sbCsum, getLE_setLE_same _ _ (by omega)]
    exact Nat.mod_eq_of_lt (superCsum_lt _)
  all_goals refine hval _ _ _ (by omega) ?_
  all_goals simp (disch := omega) only [formatFields, getLE_setLE_ne, getLE_setLE_same, hmod, h1, h2, h3]
  all_goals rfl

def DeviceOnly {α : Type} (x : M α) : Prop :=
  ∀ s t : St, s.disk = t.disk → s.rd = t.rd → s.wr = t.wr →
    (x.run s).1 = (x.run t).1 ∧ (x.run s).2.disk = (x.run t).2.disk ∧
      (x.run s).2.rd = (x.run t).2.rd ∧ (x.run s).2.wr = (x.run t).2.wr

namespace DeviceOnly

variable {α β : Type}

theorem pure (a : α) : DeviceOnly (Pure.pure a : M α) := fun _ _ hd hr hw => ⟨rfl, hd, hr, hw⟩

theorem ensure (c : Prop) [Decidable c] : DeviceOnly (M.ensure c) := by
  intro s t hd hr hw
  by_cases hc : c
  · rw [ensure_pos hc, ensure_pos hc]
    exact ⟨rfl, hd, hr, hw⟩
  · rw [ensure_neg hc, ensure_neg hc]
    exact ⟨rfl, hd, hr, hw⟩

theorem read (b : ℕ) : DeviceOnly (rawReadBlock b) := by
  intro s t hd hr hw
  simp only [rawReadBlock_run, hd, hr, hw, and_self]

theorem write (b : ℕ) (v : Block) : DeviceOnly (rawWriteBlock b v) := by
  rintro ⟨d, r, w, _, _, _, _, _, _, _⟩ ⟨_, _, _, _, _, _, _, _, _, _⟩ rfl rfl rfl
  rw [rawWriteBlock_run, rawWriteBlock_run]
  dsimp only
  cases w 0 with
  | ok => exact ⟨rfl, rfl, rfl, rfl⟩
  | fail k => exact ⟨rfl, rfl, rfl, rfl⟩

theorem bind {x : M α} {f : α → M β} (hx : DeviceOnly x) (hf : ∀ a, DeviceOnly (f a)) :
    DeviceOnly (x >>= f) := by
  intro s t hd hr hw
  obtain ⟨h1, h2, h3, h4⟩ := hx s t hd hr hw
  rw [bind_run, bind_run]
  rcases hs : x.run s with ⟨r, s1⟩
  rcases ht : x.run t with ⟨r', t1⟩
  rw [hs, ht] at h1 h2 h3 h4
  obtain rfl : r = r' := h1
  cases r with
  | none => exact ⟨rfl, h2, h3, h4⟩
  | some a => exact hf a s1 t1 h2 h3 h4

theorem attempt {x : M α} (hx : DeviceOnly x) : DeviceOnly (M.attempt x) := by
  intro s t hd hr hw
  obtain ⟨h1, h2, h3, h4⟩ := hx s t hd hr hw
  rw [attempt_run, attempt_run]
  exact ⟨congrArg some h1, h2, h3, h4⟩

end DeviceOnly

theorem readRun_deviceOnly (b n : ℕ) : DeviceOnly (readRun b n) := by
  induction n generalizing b with
  | zero => exact .pure _
  | succ n ih => exact .bind (.read b) fun _ => .bind (ih _) fun _ => .pure _

theorem redo_deviceOnly (j : ℕ) (desc : Block) (i n : ℕ) : DeviceOnly (redo j desc i n) := by
  induction n generalizing i with
  | zero => exact .pure _
  | succ n ih => exact .bind (.read _) fun _ => .bind (.attempt (.write _ _)) fun _ => ih _

theorem recoverBody_deviceOnly (j n : ℕ) : DeviceOnly (recoverBody j n) := by
  refine .bind (.ensure _) fun _ => .bind (.read _) fun h => .bind (.ensure _) fun _ =>
    .bind (.ensure _) fun _ => .bind (.read _) fun _ => .bind (readRun_deviceOnly _ _) fun _ =>
    .bind (.ensure _) fun _ => .bind (redo_deviceOnly _ _ _ _) fun _ => .bind ?_ fun _ =>
    .bind (.attempt (.write _ _)) fun _ => .pure _
  exact fun _ _ hd hr hw => ⟨rfl, hd, hr, hw⟩

/-- A replay touches the device and the sequence number only. -/
structure Replayed (s s' : St) : Prop where
  fs : s'.fs = s.fs
  active : s'.txnActive = s.txnActive
  reads : s.ReadsOk → s'.ReadsOk
  writes : s.WritesOk → s'.WritesOk

theorem Replayed.refl (s : St) : Replayed s s := ⟨rfl, rfl, id, id⟩

theorem Replayed.trans (a b c : St) (h₁ : Replayed a b) (h₂ : Replayed b c) : Replayed a c :=
  ⟨h₂.fs.trans h₁.fs, h₂.active.trans h₁.active, h₂.reads ∘ h₁.reads, h₂.writes ∘ h₁.writes⟩

theorem rawReadBlock_replayed (b : ℕ) : Keeps Replayed (rawReadBlock b) := by
  refine fun s => ⟨rfl, rfl, ?_, id⟩
  intro hr
  rw [rawReadBlock_ok b hr]
  exact hr

theorem rawWriteBlock_replayed (b : ℕ) (v : Block) : Keeps Replayed (rawWriteBlock b v) := by
  intro s
  rw [rawWriteBlock_run]
  have hw : s.WritesOk → (fun i => s.wr (i + 1)) = fun _ => Outcome.ok := by
    intro hw
    rw [hw]
  split
  · exact ⟨rfl, rfl, id, hw⟩
  · exact ⟨rfl, rfl, id, hw⟩

theorem readRun_replayed (b n : ℕ) : Keeps Replayed (readRun b n) := by
  induction n generalizing b with
  | zero => exact .pure .refl _
  | succ n ih =>
    exact .bind .trans (rawReadBlock_replayed b) fun _ => .bind .trans (ih _) fun _ => .pure .refl _

theorem redo_replayed (j : ℕ) (desc : Block) (i n : ℕ) : Keeps Replayed (redo j desc i n) := by
  induction n generalizing i with
  | zero => exact .pure .refl _
  | succ n ih =>
    exact .bind .trans (rawReadBlock_replayed _) fun _ =>
      .bind .trans (.attempt (rawWriteBlock_replayed _ _)) fun _ => ih _

theorem recoverBody_replayed (j n : ℕ) : Keeps Replayed (recoverBody j n) :=
  .bind .trans (.ensure .refl _) fun _ => .bind .trans (rawReadBlock_replayed _) fun _ =>
    .bind .trans (.ensure .refl _) fun _ => .bind .trans (.ensure .refl _) fun _ =>
    .bind .trans (rawReadBlock_replayed _) fun _ => .bind .trans (readRun_replayed _ _) fun _ =>
    .bind .trans (.ensure .refl _) fun _ => .bind .trans (redo_replayed _ _ _ _) fun _ =>
    .bind .trans (fun _ => ⟨rfl, rfl, id, id⟩) fun _ =>
    .bind .trans (.attempt (rawWriteBlock_replayed _ _)) fun _ => .pure .refl _

theorem mountedFs_geom {g : Geom} {sb : Block} (h : SuperOf g sb) : (mountedFs sb).toGeom = g := by
  obtain ⟨-, -, -, h1, h2, h3, h4, h5, h6, h7, h8, h9, h10, h11⟩ := h
  cases g
  simp only [mountedFs, h1, h2, h3, h4, h5, h6, h7, h8, h9, h10, h11]

theorem reloadCounts_run {s : St} (hr : s.ReadsOk) : reloadCounts.run s =
    (some (), s.withCounts (Super.freeBlocks (s.disk 0), Super.freeInodes (s.disk 0))) := by
  have hread : (attempt (rawReadBlock 0)).run s = (some (some (s.disk 0)), s) := by
    rw [attempt_run, rawReadBlock_ok 0 hr]
  rw [reloadCounts, bind_of_some hread, setCounts_run]

/-- The end of a mount: the replay, and the counts from the superblock it leaves. -/
theorem recover_reload {g : Geom} {s : St} (hs : s.Idle g) :
    ∃ s', (do journalRecover; reloadCounts : M Unit).run s = (some (), s') ∧ s'.Idle g ∧
      (s.WritesOk → s'.WritesOk) ∧ s'.disk = recoverOn g s.wr s.disk ∧
      s'.fs.freeBlocks = Super.freeBlocks (s'.disk 0) ∧
      s'.fs.freeInodes = Super.freeInodes (s'.disk 0) := by
  obtain ⟨s1, hs1⟩ : ∃ s1, ((recoverBody g.journalStart g.journalBlocks).run s).2 = s1 := ⟨_, rfl⟩
  have hkeep : Replayed s s1 := hs1 ▸ recoverBody_replayed _ _ s
  have hr1 : s1.ReadsOk := hkeep.reads hs.reads
  have hdisk : s1.disk = recoverOn g s.wr s.disk := by
    rw [recoverOn_eq, ← hs1]
    exact (recoverBody_deviceOnly _ _ s (St.boot g s.disk s.wr) rfl hs.reads rfl).2.1
  have hrec : journalRecover.run s = (some (), s1) := by
    rw [journalRecover, bind_of_some (getFs_run s), bind_of_some (attempt_run _ _), pure_run]
    rw [← hs1, ← hs.geom]
  have hload := reloadCounts_run hr1
  obtain ⟨c, hc⟩ : ∃ c, (Super.freeBlocks (s1.disk 0), Super.freeInodes (s1.disk 0)) = c := ⟨_, rfl⟩
  rw [hc] at hload
  refine ⟨s1.withCounts c, ?_, ⟨⟨?_, hr1⟩, hkeep.active.trans hs.idle⟩, hkeep.writes, hdisk,
    (congrArg Prod.fst hc).symm, (congrArg Prod.snd hc).symm⟩
  · rw [bind_of_some hrec, hload]
  · change s1.fs.toGeom = g
    rw [hkeep.fs]
    exact hs.geom

/-- A mount of a volume with geometry `g` succeeds; it replays the journal and takes the
free counts from the superblock. -/
theorem cfsMountBd_run {g : Geom} {s : St} (hr : s.ReadsOk) (hsb : SuperOf g (s.disk 0)) :
    ∃ s', cfsMountBd.run s = (some (), s') ∧ s'.Idle g ∧ (s.WritesOk → s'.WritesOk) ∧
      s'.disk = recoverOn g s.wr s.disk ∧ s'.fs.freeBlocks = Super.freeBlocks (s'.disk 0) ∧
      s'.fs.freeInodes = Super.freeInodes (s'.disk 0) := by
  obtain ⟨fs, hfs⟩ : ∃ fs, mountedFs (s.disk 0) = fs := ⟨_, rfl⟩
  have hs : St.Idle g { s with txnActive := false, txn := [], fs := fs } :=
    ⟨⟨hfs ▸ mountedFs_geom hsb, hr⟩, rfl⟩
  obtain ⟨s', hrun, hrest⟩ := recover_reload hs
  refine ⟨s', ?_, hrest⟩
  have hread : (rawReadBlock 0).run { s with txnActive := false, txn := [], fs := default } =
      (some (s.disk 0), { s with txnActive := false, txn := [], fs := default }) := rawReadBlock_ok 0 hr
  rw [cfsMountBd, bind_of_some (modify_run _ s), bind_of_some hread,
    bind_of_some (ensure_pos hsb.magic _), bind_of_some (ensure_pos hsb.version _),
    bind_of_some (ensure_pos hsb.blockSize _), bind_of_some (modify_run _ _), hfs]
  exact hrun

end ComputerOS.Cfs
