import ComputerOS.Cfs.Reading

/-!
Consistent volumes. `Consistent` ties the five on-disk structures together: directory
records, the inode bitmap, the block bitmap, link counts with checksums, and the free
counts. `WellFormed` adds the shapes the format gives inodes, the dot entries and the
superblock, which no function of the core checks but all of them rely on.
-/
namespace ComputerOS.Cfs

open M Bytes Function

namespace Vol

open Classical in
/-- The entries of reachable directories that name inode `c`. -/
noncomputable def refs (g : Geom) (v : Vol) (c : ℕ) : ℕ :=
  ∑ n ∈ (Finset.range g.totalInodes).filter v.Reach, (v.out n).countP fun e => e.2 = c

def clearBlocks (g : Geom) (v : Vol) : ℕ := (List.range g.totalBlocks).countP fun b => !v.bbit b

def clearInodes (g : Geom) (v : Vol) : ℕ := (List.range g.totalInodes).countP fun n => !v.ibit n

end Vol

structure Consistent (g : Geom) (v : Vol) : Prop where
  tiled : ∀ n, v.Reach n → (v.ino n).isDir = true → ∀ b ∈ (v.ino n).dirBlocks, Tiled (v.data b)
  names : ∀ n, v.Reach n → ((v.out n).map Prod.fst).Nodup
  inTable : ∀ n, v.Reach n → n < g.totalInodes
  ibits : ∀ n < g.totalInodes, v.ibit n = true ↔ n = 0 ∨ v.Reach n
  inRange : ∀ n, v.Reach n → ∀ b ∈ (v.ino n).blocks, g.IsData b
  once : ∀ n, v.Reach n → (v.ino n).blocks.Nodup
  apart : ∀ n m, v.Reach n → v.Reach m → n ≠ m → ∀ b ∈ (v.ino n).blocks, b ∉ (v.ino m).blocks
  bbits : ∀ b < g.totalBlocks,
    v.bbit b = true ↔ b < g.dataStart ∨ ∃ n, v.Reach n ∧ b ∈ (v.ino n).blocks
  links : ∀ n, v.Reach n → (v.ino n).links = v.refs g n
  csum : ∀ n, v.Reach n → (v.ino n).csum = inodeCsum (v.ino n)
  freeBlocks : v.freeBlocks = v.clearBlocks g
  freeInodes : v.freeInodes = v.clearInodes g

/-- How the format uses an inode: at most twelve extents, directories without holes and
exactly as long as their blocks, short data in place of the extents. -/
structure Shaped (d : DInode) : Prop where
  extents : d.nextents ≤ 12
  dir : d.isDir = true → d.NoHoles ∧ d.size = 4096 * d.blocks.length
  lnk : d.isLnk = true →
    (d.nextents = 0 ∧ d.size ≤ 144) ∨ (d.extentStart 0 ∈ d.blocks ∧ d.nextents ≠ 0 ∧ d.size ≤ 4095)
  inline : d.isDir = false → d.isLnk = false → d.isInline = true → d.size ≤ 144

/-- The dot entries: every directory names itself `.` and its parent `..`, and is named
by exactly one other entry, in its parent; the root is its own parent. -/
structure Dotted (v : Vol) : Prop where
  root : (v.ino CFS_ROOT_INO).isDir = true
  self : ∀ n, v.Reach n → (v.ino n).isDir = true → ([46], n) ∈ v.out n
  parent : ∀ n, v.Reach n → (v.ino n).isDir = true → ∃ p, ([46, 46], p) ∈ v.out n ∧
    (n = CFS_ROOT_INO → p = CFS_ROOT_INO) ∧
    (n ≠ CFS_ROOT_INO → ∃ name, ¬ IsDotName name ∧ (name, n) ∈ v.out p)
  unique : ∀ m m' n name name', v.Reach m → v.Reach m' → (v.ino n).isDir = true →
    ¬ IsDotName name → ¬ IsDotName name' → (name, n) ∈ v.out m → (name', n) ∈ v.out m' →
    m = m' ∧ name = name'
  above : ∀ m name, v.Reach m → ¬ IsDotName name → (name, CFS_ROOT_INO) ∉ v.out m

structure SuperOf (g : Geom) (sb : Block) : Prop where
  magic : Super.magic sb = CFS_MAGIC
  version : Super.version sb = CFS_VERSION
  blockSize : Super.blockSize sb = 4096
  inodeSize : Super.inodeSize sb = g.inodeSize
  totalBlocks : Super.totalBlocks sb = g.totalBlocks
  totalInodes : Super.totalInodes sb = g.totalInodes
  blockBitmapStart : Super.blockBitmapStart sb = g.blockBitmapStart
  inodeBitmapStart : Super.inodeBitmapStart sb = g.inodeBitmapStart
  inodeTableStart : Super.inodeTableStart sb = g.inodeTableStart
  dataStart : Super.dataStart sb = g.dataStart
  rootInode : Super.rootInode sb = g.rootIno
  journalStart : Super.journalStart sb = g.journalStart
  journalBlocks : Super.journalBlocks sb = g.journalBlocks
  flags : Super.flags sb = g.flags

structure WellFormed (g : Geom) (v : Vol) : Prop extends Consistent g v where
  shaped : ∀ n, v.Reach n → Shaped (v.ino n)
  dotted : Dotted v
  super : SuperOf g v.super

theorem reach_ne_zero {v : Vol} {n : ℕ} (hn : v.Reach n) : n ≠ 0 := by
  cases hn with
  | root => decide
  | step _ he => exact out_ne_zero he

theorem Consistent.readable {g : Geom} {v : Vol} (h : Consistent g v) : Readable g v :=
  ⟨fun _ hn => reach_ne_zero hn, h.inTable, fun n hn _ b hb => h.inRange n hn b (mem_dirBlocks hb)⟩

/-- A covered block is in use. -/
theorem Consistent.used {g : Geom} {v : Vol} (h : Consistent g v) {n b : ℕ} (hn : v.Reach n)
    (hb : b ∈ (v.ino n).blocks) : v.bbit b = true :=
  (h.bbits b (h.inRange n hn b hb).2).mpr (Or.inr ⟨n, hn, hb⟩)

/-- What the core relies on to walk and change directories. -/
structure Usable (g : Geom) (v : Vol) : Prop extends Readable g v where
  used : ∀ n, v.Reach n → (v.ino n).isDir = true → ∀ b ∈ (v.ino n).dirBlocks, v.bbit b = true

theorem Consistent.usable {g : Geom} {v : Vol} (h : Consistent g v) : Usable g v :=
  ⟨h.readable, fun _ hn _ _ hb => h.used hn (mem_dirBlocks hb)⟩

theorem Shaped.linkCovered {d : DInode} (h : Shaped d) : LinkCovered d := by
  intro hl
  rcases h.lnk hl with ⟨hz, _⟩ | ⟨hmem, _⟩
  · exact Or.inl hz
  · exact Or.inr hmem

/-- A directory of the right shape visits every block it covers. -/
theorem dirBlocks_eq {d : DInode} (hh : d.NoHoles) (hsize : d.size = 4096 * d.blocks.length)
    (h0 : ∀ b ∈ d.blocks, b ≠ 0) : d.dirBlocks = d.blocks := by
  unfold DInode.dirBlocks
  have hmap : (List.range (d.size / 4096)).map (mapFileblock d) = d.blocks := by
    rw [hsize, Nat.mul_div_cancel_left _ (by omega)]
    apply List.ext_getElem
    · simp
    · intro i h1 h2
      rw [List.getElem_map, List.getElem_range, mapFileblock_eq hh]
      simp [h2]
  rw [hmap, List.filter_eq_self]
  intro b hb
  simpa using h0 b hb

theorem WellFormed.dirBlocks {g : Geom} {v : Vol} (hg : g.Wf) (h : WellFormed g v) {n : ℕ}
    (hn : v.Reach n) (hd : (v.ino n).isDir = true) : (v.ino n).dirBlocks = (v.ino n).blocks := by
  obtain ⟨hh, hsize⟩ := (h.shaped n hn).dir hd
  refine dirBlocks_eq hh hsize fun b hb => ?_
  have h1 := (h.inRange n hn b hb).1
  have h2 := hg.super
  have h3 := hg.blockBitmap
  have h4 := hg.inodeBitmap
  have h5 := hg.inodeTable
  omega

/-- `w` has the reachable inodes of `v` and the blocks of its directories. -/
structure SameDirs (v w : Vol) : Prop where
  ino : ∀ n, v.Reach n → w.ino n = v.ino n
  dirs : ∀ n, v.Reach n → (v.ino n).isDir = true → ∀ b ∈ (v.ino n).dirBlocks, w.data b = v.data b

structure SameShown (v w : Vol) : Prop extends SameDirs v w where
  shown : ∀ n, v.Reach n → (v.ino n).isDir = false →
    ∀ b j, (v.ino n).Shows b j → (w.data b).byte j = (v.data b).byte j

/-- `w` has the reachable inodes of `v` and their blocks. -/
structure SameFiles (v w : Vol) : Prop where
  ino : ∀ n, v.Reach n → w.ino n = v.ino n
  data : ∀ n, v.Reach n → ∀ b ∈ (v.ino n).blocks, w.data b = v.data b

theorem SameFiles.sameShown {v w : Vol} (h : SameFiles v w)
    (hl : ∀ n, v.Reach n → LinkCovered (v.ino n)) : SameShown v w := by
  refine ⟨⟨h.ino, fun n hn _ b hb => h.data n hn b (mem_dirBlocks hb)⟩, fun n hn _ b j hs => ?_⟩
  rw [h.data n hn b (hs.mem_blocks (hl n hn))]

namespace SameDirs

variable {v w : Vol} (h : SameDirs v w)

include h

theorem out_eq {n : ℕ} (hn : v.Reach n) : w.out n = v.out n := by
  unfold Vol.out
  rw [h.ino n hn]
  split
  · next hd => exact entsIn_congr fun b hb => h.dirs n hn hd b hb
  · rfl

theorem reach_iff {n : ℕ} : w.Reach n ↔ v.Reach n :=
  DirGraph.reach_congr fun _ hn => h.out_eq hn

theorem walk_eq (cs : List Name) {n : ℕ} (hn : v.Reach n) : w.walk n cs = v.walk n cs := by
  induction cs generalizing n with
  | nil => rfl
  | cons c cs ih =>
    rw [Vol.walk, Vol.walk, h.out_eq hn]
    split
    · rfl
    · split
      · rfl
      · next hz => exact ih (.step hn (lookupEnt_mem hz))

theorem resolve_eq (path : List UInt8) : w.resolve path = v.resolve path := h.walk_eq _ .root

theorem readable {g : Geom} (hv : Readable g v) : Readable g w := by
  refine ⟨fun n hn => hv.pos n (h.reach_iff.mp hn), fun n hn => hv.lt n (h.reach_iff.mp hn),
    fun n hn => ?_⟩
  have hn' := h.reach_iff.mp hn
  rw [h.ino n hn']
  exact hv.data n hn'

end SameDirs

/-- States that answer every read alike. -/
structure SameAnswers (s t : St) : Prop where
  resolve : ∀ path, ((resolveIno path).run t).1 = ((resolveIno path).run s).1
  isDir : ∀ path, ((cfsIsDir path).run t).1 = ((cfsIsDir path).run s).1
  stat : ∀ path, ((cfsStat path).run t).1 = ((cfsStat path).run s).1
  list : ∀ env path max, ((cfsList env path max).run t).1 = ((cfsList env path max).run s).1
  readAt : ∀ env path offset len,
    ((cfsReadAt env path offset len).run t).1 = ((cfsReadAt env path offset len).run s).1

theorem SameShown.answers {g : Geom} {s t : St} (hg : g.Wf) (hs : s.Idle g) (ht : t.Idle g)
    (hc : Consistent g s.vol) (hl : ∀ n, s.vol.Reach n → LinkCovered (s.vol.ino n))
    (h : SameShown s.vol t.vol) : SameAnswers s t := by
  have hv := hc.readable
  have hw := h.toSameDirs.readable hv
  constructor
  · intro path
    rw [resolveIno_run hg hs.toMounted hv, resolveIno_run hg ht.toMounted hw, h.toSameDirs.resolve_eq]
  · intro path
    rw [cfsIsDir_run hg hs hv, cfsIsDir_run hg ht hw, h.toSameDirs.resolve_eq]
    by_cases hz : s.vol.resolve path = 0
    · simp [hz]
    · rw [h.ino _ (resolve_reach hz)]
  · intro path
    rw [cfsStat_run hg hs hv, cfsStat_run hg ht hw, h.toSameDirs.resolve_eq]
    by_cases hz : s.vol.resolve path = 0
    · simp [hz]
    · rw [h.ino _ (resolve_reach hz)]
  · intro env path max
    rw [cfsList_run hg hs hv, cfsList_run hg ht hw, h.toSameDirs.resolve_eq]
    by_cases hz : s.vol.resolve path = 0
    · simp [hz]
    · have hr := resolve_reach hz
      rw [h.ino _ hr, h.toSameDirs.out_eq hr]
      have hlisted : ((visible (s.vol.out (s.vol.resolve path))).take max).map t.vol.listed =
          ((visible (s.vol.out (s.vol.resolve path))).take max).map s.vol.listed := by
        apply List.map_congr_left
        intro e he
        have hmem : e ∈ s.vol.out (s.vol.resolve path) :=
          List.mem_of_mem_filter (List.mem_of_mem_take he)
        rw [Vol.listed, Vol.listed, h.ino e.2 (hr.of_mem hmem)]
      rw [hlisted]
  · intro env path offset len
    rw [cfsReadAt_run hg hs hv, cfsReadAt_run hg ht hw, h.toSameDirs.resolve_eq]
    by_cases hz : s.vol.resolve path = 0
    · simp [hz]
    · have hr := resolve_reach hz
      rw [if_neg hz, if_neg hz, h.ino _ hr]
      by_cases hd : (s.vol.ino (s.vol.resolve path)).isDir = true
      · rw [readIn_of_isDir hd, readIn_of_isDir hd]
      · refine readIn_congr (fun b j hb => ?_) env offset len
        have hb' := hc.inRange _ hr b (hb.mem_blocks (hl _ hr))
        rw [← hs.view_eq, ← ht.view_eq, ← vol_data hs.toMounted hb', ← vol_data ht.toMounted hb']
        exact h.shown _ hr (by simpa using hd) b j hb

end ComputerOS.Cfs
