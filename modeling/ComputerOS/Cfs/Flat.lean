import ComputerOS.Cfs.Wide
import ComputerOS.Cfs.Room

/-!
Flat volumes: the wide volumes with one directory block on the smallest geometry. They are
the states that the examples start from.
-/
namespace ComputerOS.Cfs

open M Bytes Function

/-- The geometry that `cfs_format` gives 64 blocks with a journal of 34. -/
def smallGeom : Geom :=
  { inodeSize := 256, totalBlocks := 64, totalInodes := 64, blockBitmapStart := 35,
    inodeBitmapStart := 36, inodeTableStart := 37, dataStart := 41, rootIno := 1,
    journalStart := 1, journalBlocks := 34, flags := 1 }

example : formatGeom 64 34 = smallGeom := by decide

theorem smallGeom_wf : smallGeom.Wf := by
  refine ⟨rfl, rfl, ?_, ?_, ?_, ?_, ?_, ?_, ?_, ?_, ?_, ?_⟩ <;> decide

theorem smallGeom_roomy : smallGeom.Roomy := by
  rw [Geom.Roomy]
  decide

/-- A regular file of `k` blocks from block 42 on, with the given number of links. -/
def flatFile (links k : ℕ) : DInode :=
  (((((DInode.setMode zero (CFS_S_IFREG + 0o644)).setLinks links).setSize (4096 * k)).setNextents
    1).setExtentStart 0 42).setExtentCount 0 k

def flatEnts (names : List Name) : List Ent :=
  ([46], 1) :: ([46, 46], 1) :: names.map fun name => (name, 2)

def flatVol (names : List Name) (k : ℕ) (content : ℕ → Block) : Vol where
  super := superWith 1 (22 - k) 61 (formatSuper smallGeom [] 0)
  bbit b := decide (b < 42 + k ∨ 64 ≤ b)
  ibit n := decide (n < 3 ∨ 64 ≤ n)
  ino n := if n = 1 then stamp 1 (newDirInode { uid := 0, gid := 0, now := 0 } 41)
    else if n = 2 then stamp 1 (flatFile names.length k) else zero
  data b := if b = 41 then packDir (flatEnts names)
    else if 42 ≤ b ∧ b < 42 + k then content (b - 42) else zero
  freeBlocks := 22 - k
  freeInodes := 61

/-- The names fit into one block and the file into the data area. -/
structure FlatOk (names : List Name) (k : ℕ) : Prop where
  some_name : names ≠ []
  nodup : names.Nodup
  plain : ∀ name ∈ names, ¬ IsDotName name
  short : ∀ name ∈ names, name.length ≤ 255
  fits : entsLen (flatEnts names) ≤ 4096
  pos : 1 ≤ k
  blocks : k ≤ 22

section File

variable {links k : ℕ}

theorem flatFile_mode : (flatFile links k).mode = CFS_S_IFREG + 0o644 := wideFile_mode

theorem flatFile_size (h : k ≤ 22) : (flatFile links k).size = 4096 * k := wideFile_size (by omega)

theorem flatFile_nextents : (flatFile links k).nextents = 1 := wideFile_nextents

theorem flatFile_start : (flatFile links k).extentStart 0 = 42 := wideFile_start (by omega)

theorem flatFile_count (h : k ≤ 22) : (flatFile links k).extentCount 0 = k := wideFile_count (by omega)

theorem flatFile_isLnk : (flatFile links k).isLnk = false := wideFile_isLnk

theorem flatFile_isInline : (flatFile links k).isInline = false := wideFile_isInline

theorem wideRoot_one {a : ℕ} : wideRoot a 1 = newDirInode { uid := 0, gid := 0, now := 0 } a := by
  have hsize : (newDirInode { uid := 0, gid := 0, now := 0 } a).setSize (4096 * 1) =
      newDirInode { uid := 0, gid := 0, now := 0 } a := setLE_self _ (by omega) (newDirInode_size _ _)
  rw [wideRoot, hsize]
  exact setLE_self _ (by omega) (newDirInode_count _ _)

end File

theorem length_le_entsLen (l : List Ent) : 16 * l.length ≤ entsLen l := by
  induction l with
  | nil => simp
  | cons e l ih =>
    have := align8_mod (12 + e.1.length)
    have := le_align8 (12 + e.1.length)
    simp only [entsLen, List.map_cons, List.sum_cons, List.length_cons] at ih ⊢
    omega

section Flat

variable {names : List Name} {k : ℕ} {content : ℕ → Block}

theorem wideRow_flat : wideRow [names] 0 = flatEnts names := rfl

theorem wideEnts_flat : wideEnts [names] = flatEnts names := by
  rw [wideEnts, flatEnts, List.flatten_singleton]

theorem flatVol_eq : flatVol names k content = wideVol smallGeom [names] k content := by
  have hused : wideUsed smallGeom [names] k = 42 + k := rfl
  refine Vol.ext ?_ ?_ ?_ ?_ ?_ ?_ rfl
  · simp only [flatVol, wideVol, hused]
    rw [show smallGeom.totalBlocks - (42 + k) = 22 - k from show 64 - (42 + k) = 22 - k by omega]
    rfl
  · funext b
    simp only [flatVol, wideVol, hused]
    rfl
  · rfl
  · funext n
    simp only [flatVol, wideVol]
    rw [show ([names] : List (List Name)).length = 1 from rfl, wideRoot_one, List.flatten_singleton]
    rfl
  · funext b
    simp only [flatVol, wideVol, hused]
    rw [show ([names] : List (List Name)).length = 1 from rfl, show smallGeom.dataStart = 41 from rfl]
    by_cases hb : b = 41
    · rw [if_pos hb, if_pos ⟨by omega, by omega⟩, hb]
      rfl
    · rw [if_neg hb, if_neg (show ¬ (41 ≤ b ∧ b < 41 + 1) by omega)]
  · exact show 22 - k = 64 - (42 + k) by omega

theorem FlatOk.length (h : FlatOk names k) : names.length ≤ 254 := by
  have := length_le_entsLen (flatEnts names)
  have := h.fits
  simp only [flatEnts, List.length_cons, List.length_map] at *
  omega

theorem FlatOk.wide (h : FlatOk names k) : WideOk smallGeom [names] k := by
  have hlen := h.length
  have hk := h.blocks
  have hflat : ([names] : List (List Name)).flatten = names := List.flatten_singleton
  refine ⟨smallGeom_wf, rfl, by decide, ?_, by simp, ?_, ?_, ?_, ?_, ?_, ?_, by decide, by decide⟩
  · intro r hr
    rw [List.mem_singleton.mp hr]
    exact h.some_name
  · rw [hflat]
    exact h.nodup
  · rw [hflat]
    exact h.plain
  · rw [hflat]
    exact h.short
  · intro i hi
    obtain rfl : i = 0 := by simpa using hi
    rw [wideRow_flat]
    exact h.fits
  · rw [hflat]
    omega
  · exact show 41 + 1 + k ≤ 64 by omega

theorem flatVol_root : (flatVol names k content).ino 1 =
    stamp 1 (newDirInode { uid := 0, gid := 0, now := 0 } 41) := rfl

theorem flatVol_file : (flatVol names k content).ino 2 = stamp 1 (flatFile names.length k) := rfl

theorem flatVol_isDir {n : ℕ} (hn : n ≠ 1) : ((flatVol names k content).ino n).isDir = false := by
  rw [flatVol_eq]
  exact wideVol_isDir hn

theorem flatVol_out_root (h : FlatOk names k) : (flatVol names k content).out 1 = flatEnts names := by
  rw [flatVol_eq, wideVol_out_root h.wide, wideEnts_flat]

theorem flatVol_within (h : k ≤ 22) : (flatVol names k content).Within smallGeom := by
  refine ⟨?_, ?_, ?_, ?_⟩
  · intro b hb
    have : 64 ≤ b := hb
    simp [flatVol, this]
  · intro n hn
    have : 64 ≤ n := hn
    simp [flatVol, this]
  · intro n hn
    have h64 : 64 ≤ n := hn
    simp only [flatVol, if_neg (show ¬ n = 1 by omega), if_neg (show ¬ n = 2 by omega)]
  · intro b hb
    have hb' : ¬ (41 ≤ b ∧ b < 64) := hb
    simp only [flatVol, if_neg (show ¬ b = 41 by omega), if_neg (show ¬ (42 ≤ b ∧ b < 42 + k) by omega)]

theorem flatVol_file_blocks (h : k ≤ 22) :
    ((flatVol names k content).ino 2).blocks = List.range' 42 k := by
  have halike : DInode.Alike (wideFile names.length 42 k) ((flatVol names k content).ino 2) :=
    DInode.Alike.stamp 1 _
  rw [halike.blocks (by rw [wideFile_nextents]; omega)]
  exact wideFile_blocks (by omega) (by omega) (by omega) (by omega)

theorem flatVol_bbit (b : ℕ) : (flatVol names k content).bbit b = true ↔ b < 42 + k ∨ 64 ≤ b :=
  decide_eq_true_iff

theorem flatVol_wellFormed (h : FlatOk names k) : WellFormed smallGeom (flatVol names k content) := by
  rw [flatVol_eq]
  exact wideVol_wellFormed h.wide

def flatState (names : List Name) (k : ℕ) (content : ℕ → Block) : St :=
  (flatVol names k content).mounted smallGeom

theorem flatState_vol (h : k ≤ 22) : (flatState names k content).vol = flatVol names k content :=
  Vol.mounted_vol smallGeom_wf (flatVol_within h)

theorem flatState_idle : (flatState names k content).Idle smallGeom := Vol.mounted_idle _ _

theorem flatState_writesOk : (flatState names k content).WritesOk := rfl

theorem flatState_wellFormed (h : FlatOk names k) :
    WellFormed smallGeom (flatState names k content).vol := by
  rw [flatState_vol h.blocks]
  exact flatVol_wellFormed h

end Flat

end ComputerOS.Cfs
