import ComputerOS.Cfs.Encode
import ComputerOS.Cfs.Inodes

/-!
Wide volumes: a root directory of several blocks whose names all name one file of any
number of blocks, in any geometry. Every wide volume is well-formed, so that it is a state
from which public calls can be run.
-/
namespace ComputerOS.Cfs

open M Bytes Function

/-- A regular file of `k` blocks from block `a` on, with the given number of links. -/
def wideFile (links a k : ℕ) : DInode :=
  (((((DInode.setMode zero (CFS_S_IFREG + 0o644)).setLinks links).setSize (4096 * k)).setNextents
    1).setExtentStart 0 a).setExtentCount 0 k

/-- A root directory of `m` blocks from block `a` on. -/
def wideRoot (a m : ℕ) : DInode :=
  ((newDirInode { uid := 0, gid := 0, now := 0 } a).setSize (4096 * m)).setExtentCount 0 m

/-- The entries of directory block `i`; the first one also has the dot entries. -/
def wideRow (rows : List (List Name)) (i : ℕ) : List Ent :=
  (if i = 0 then [([46], 1), ([46, 46], 1)] else []) ++ (rows.getD i []).map fun name => (name, 2)

def wideEnts (rows : List (List Name)) : List Ent :=
  ([46], 1) :: ([46, 46], 1) :: rows.flatten.map fun name => (name, 2)

/-- The blocks in use: the metadata, the directory and the file. -/
def wideUsed (g : Geom) (rows : List (List Name)) (k : ℕ) : ℕ := g.dataStart + rows.length + k

def wideVol (g : Geom) (rows : List (List Name)) (k : ℕ) (content : ℕ → Block) : Vol where
  super := superWith g.flags (g.totalBlocks - wideUsed g rows k) (g.totalInodes - 3) (formatSuper g [] 0)
  bbit b := decide (b < wideUsed g rows k ∨ g.totalBlocks ≤ b)
  ibit n := decide (n < 3 ∨ g.totalInodes ≤ n)
  ino n := if n = 1 then stamp g.flags (wideRoot g.dataStart rows.length)
    else if n = 2 then stamp g.flags (wideFile rows.flatten.length (g.dataStart + rows.length) k) else zero
  data b := if g.dataStart ≤ b ∧ b < g.dataStart + rows.length then packDir
    (wideRow rows (b - g.dataStart))
    else if g.dataStart + rows.length ≤ b ∧ b < wideUsed g rows k then
      content (b - (g.dataStart + rows.length))
    else zero
  freeBlocks := g.totalBlocks - wideUsed g rows k
  freeInodes := g.totalInodes - 3

/-- The names fit into their blocks, and everything into the volume. -/
structure WideOk (g : Geom) (rows : List (List Name)) (k : ℕ) : Prop where
  wf : g.Wf
  flags : g.flags = CFS_FEAT_CSUM
  inodes : 2 < g.totalInodes
  row : ∀ r ∈ rows, r ≠ []
  some_row : rows ≠ []
  nodup : rows.flatten.Nodup
  plain : ∀ name ∈ rows.flatten, ¬ IsDotName name
  short : ∀ name ∈ rows.flatten, name.length ≤ 255
  fits : ∀ i < rows.length, entsLen (wideRow rows i) ≤ 4096
  links : rows.flatten.length < 65536
  blocks : wideUsed g rows k ≤ g.totalBlocks
  narrow : g.totalBlocks < 2 ^ 32
  journal : g.journalStart < 2 ^ 64 ∧ g.journalBlocks < 2 ^ 64

section OneExtent

variable {d : DInode} {a k : ℕ} (hx : d.nextents = 1) (hs : d.extentStart 0 = a) (hc : d.extentCount 0 = k)
  (ha : a ≠ 0) (hk : a + k ≤ 2 ^ 64)

include hx hs hc ha hk

theorem oneExtent_blocks : d.blocks = List.range' a k := by
  rw [DInode.blocks, hx, List.range_one, List.flatMap_singleton, DInode.extentBlocks, hs, if_neg ha,
    hc, List.range'_eq_map_range]
  apply List.map_congr_left
  intro i hi
  rw [List.mem_range] at hi
  exact Nat.mod_eq_of_lt (by omega)

omit hc hk in
theorem oneExtent_noHoles : d.NoHoles := by
  intro e he
  rw [hx] at he
  obtain rfl : e = 0 := by omega
  rw [hs]
  exact ha

end OneExtent

section File

variable {links a k : ℕ}

theorem wideFile_mode : (wideFile links a k).mode = CFS_S_IFREG + 0o644 := by
  simp [wideFile, getLE_setLE_same, CFS_S_IFREG]

theorem wideFile_links (h : links < 65536) : (wideFile links a k).links = links := by
  simp [wideFile, getLE_setLE_same, Nat.mod_eq_of_lt h]

theorem wideFile_size (h : k < 2 ^ 32) : (wideFile links a k).size = 4096 * k := by
  simp only [wideFile, DInode.size, DInode.setExtentCount, DInode.setExtentStart, DInode.setNextents]
  rw [getLE_setLE_ne _ (by omega), getLE_setLE_ne _ (by omega), getLE_setLE_ne _ (by omega),
    getLE_setLE_same _ _ (by omega)]
  exact Nat.mod_eq_of_lt (by omega)

theorem wideFile_nextents : (wideFile links a k).nextents = 1 := by
  simp [wideFile, getLE_setLE_same]

theorem wideFile_flags : (wideFile links a k).flags = 0 := by simp [wideFile]

theorem wideFile_start (h : a < 2 ^ 64) : (wideFile links a k).extentStart 0 = a := by
  simp only [wideFile, DInode.extentStart, DInode.setExtentStart, DInode.setExtentCount]
  rw [getLE_setLE_ne _ (by omega), getLE_setLE_same _ _ (by omega)]
  exact Nat.mod_eq_of_lt h

theorem wideFile_count (h : k < 2 ^ 32) : (wideFile links a k).extentCount 0 = k := by
  simp only [wideFile, DInode.extentCount, DInode.setExtentCount]
  rw [getLE_setLE_same _ _ (by omega)]
  exact Nat.mod_eq_of_lt h

theorem wideFile_isDir : (wideFile links a k).isDir = false := by
  rw [DInode.isDir, wideFile_mode]
  decide

theorem wideFile_isLnk : (wideFile links a k).isLnk = false := by
  rw [DInode.isLnk, wideFile_mode]
  decide

theorem wideFile_isInline : (wideFile links a k).isInline = false := by
  rw [DInode.isInline, wideFile_flags]
  decide

theorem wideFile_blocks (ha : a ≠ 0) (hk : k < 2 ^ 32) (hle : a + k ≤ 2 ^ 64) (hlt : a < 2 ^ 64) :
    (wideFile links a k).blocks = List.range' a k :=
  oneExtent_blocks wideFile_nextents (wideFile_start hlt) (wideFile_count hk) ha hle

theorem wideFile_shaped : Shaped (wideFile links a k) := by
  refine ⟨by rw [wideFile_nextents]; omega, ?_, ?_, ?_⟩
  · intro h
    rw [wideFile_isDir] at h
    cases h
  · intro h
    rw [wideFile_isLnk] at h
    cases h
  · intro _ _ h
    rw [wideFile_isInline] at h
    cases h

end File

section Root

variable {a m : ℕ}

theorem wideRoot_head : DInode.SameHead (newDirInode { uid := 0, gid := 0, now := 0 } a) (wideRoot a m) :=
  (DInode.SameHead.setLE _ _ _ (by omega)).trans (.setLE _ _ _ (by omega))

theorem wideRoot_isDir : (wideRoot a m).isDir = true := by
  rw [wideRoot_head.isDir]
  exact newDirInode_isDir _ _

theorem wideRoot_nextents : (wideRoot a m).nextents = 1 := by
  rw [wideRoot, DInode.nextents, DInode.setExtentCount, getLE_setLE_ne _ (by omega), DInode.setSize,
    getLE_setLE_ne _ (by omega)]
  exact newDirInode_nextents _ _

theorem wideRoot_start (h : a < 2 ^ 64) : (wideRoot a m).extentStart 0 = a := by
  rw [wideRoot, DInode.extentStart, DInode.setExtentCount, getLE_setLE_ne _ (by omega),
    DInode.setSize, getLE_setLE_ne _ (by omega)]
  exact newDirInode_start _ h

theorem wideRoot_count (h : m < 2 ^ 32) : (wideRoot a m).extentCount 0 = m := by
  rw [wideRoot, DInode.extentCount, DInode.setExtentCount, getLE_setLE_same _ _ (by omega)]
  exact Nat.mod_eq_of_lt h

theorem wideRoot_size (h : m < 2 ^ 32) : (wideRoot a m).size = 4096 * m := by
  rw [wideRoot, DInode.size, DInode.setExtentCount, getLE_setLE_ne _ (by omega), DInode.setSize,
    getLE_setLE_same _ _ (by omega)]
  exact Nat.mod_eq_of_lt (by omega)

theorem wideRoot_blocks (ha : a ≠ 0) (hm : m < 2 ^ 32) (hle : a + m ≤ 2 ^ 64) (hlt : a < 2 ^ 64) :
    (wideRoot a m).blocks = List.range' a m :=
  oneExtent_blocks wideRoot_nextents (wideRoot_start hlt) (wideRoot_count hm) ha hle

theorem wideRoot_shaped (ha : a ≠ 0) (hm : m < 2 ^ 32) (hle : a + m ≤ 2 ^ 64) (hlt : a < 2 ^ 64) :
    Shaped (wideRoot a m) := by
  refine ⟨by rw [wideRoot_nextents]; omega, fun _ => ⟨?_, ?_⟩, ?_, ?_⟩
  · exact oneExtent_noHoles wideRoot_nextents (wideRoot_start hlt) ha
  · rw [wideRoot_blocks ha hm hle hlt, wideRoot_size hm, List.length_range']
  · intro h
    have hmode : (wideRoot a m).mode = CFS_S_IFDIR + 0o755 := wideRoot_head.mode.trans (newDirInode_mode _ _)
    rw [DInode.isLnk, hmode] at h
    exact absurd h (by decide)
  · intro h
    rw [wideRoot_isDir] at h
    cases h

end Root

theorem map_getD_range {α : Type} (l : List α) (x : α) :
    (List.range l.length).map (fun i => l.getD i x) = l := by
  apply List.ext_getElem
  · simp
  · intro i h₁ h₂
    simp [List.getD_eq_getElem?_getD, h₂]

theorem flatMap_wideRow {rows : List (List Name)} (h : rows ≠ []) :
    (List.range rows.length).flatMap (wideRow rows) = wideEnts rows := by
  obtain ⟨r, rs, rfl⟩ := List.exists_cons_of_ne_nil h
  have hrest : (List.range rs.length).flatMap (fun i => (rs.getD i []).map fun name =>
      ((name, 2) : Ent)) = rs.flatten.map fun name => (name, 2) := by
    conv_rhs => rw [← map_getD_range rs []]
    rw [List.map_flatten, List.map_map, List.flatMap_def]
    rfl
  rw [List.length_cons, List.range_succ_eq_map, List.flatMap_cons, List.flatMap_map]
  have hrow : (fun i => wideRow (r :: rs) (i + 1)) = fun i => (rs.getD i []).map fun name => ((name, 2) : Ent) := by
    funext i
    rw [wideRow, if_neg (by omega), List.getD_cons_succ, List.nil_append]
  have hsucc : (fun i => wideRow (r :: rs) (Nat.succ i)) = fun i => wideRow (r :: rs) (i + 1) := rfl
  rw [hsucc, hrow, hrest, wideRow, if_pos rfl, wideEnts]
  simp

section Wide

variable {g : Geom} {rows : List (List Name)} {k : ℕ} {content : ℕ → Block}

theorem mem_wideRow {i : ℕ} {e : Ent} (he : e ∈ wideRow rows i) :
    (IsDotName e.1 ∧ e.2 = 1) ∨ (e.1 ∈ rows.flatten ∧ e.2 = 2) := by
  rw [wideRow, List.mem_append, List.mem_map] at he
  rcases he with he | ⟨name, hname, rfl⟩
  · split at he
    · simp only [List.mem_cons, List.not_mem_nil, or_false] at he
      rcases he with rfl | rfl
      · exact Or.inl ⟨Or.inl rfl, rfl⟩
      · exact Or.inl ⟨Or.inr rfl, rfl⟩
    · cases he
  · refine Or.inr ⟨?_, rfl⟩
    by_cases hi : i < rows.length
    · rw [List.getD_eq_getElem?_getD, List.getElem?_eq_getElem hi] at hname
      exact List.mem_flatten.mpr ⟨_, List.getElem_mem hi, hname⟩
    · rw [List.getD_eq_getElem?_getD, List.getElem?_eq_none (by omega)] at hname
      cases hname

theorem WideOk.packed (h : WideOk g rows k) {i : ℕ} (hi : i < rows.length) :
    Tiled (packDir (wideRow rows i)) ∧ dirEnts (packDir (wideRow rows i)) = wideRow rows i := by
  refine packDir_spec ?_ (fun e he => ?_) (fun e he => ?_) (h.fits i hi)
  · intro hnil
    rw [wideRow, List.append_eq_nil_iff, List.map_eq_nil_iff, List.getD_eq_getElem?_getD,
      List.getElem?_eq_getElem hi] at hnil
    exact h.row _ (List.getElem_mem hi) hnil.2
  · rcases mem_wideRow he with ⟨hdot | hdot, -⟩ | ⟨hname, -⟩
    · rw [hdot]
      decide
    · rw [hdot]
      decide
    · exact h.short _ hname
  · rcases mem_wideRow he with ⟨-, h2⟩ | ⟨-, h2⟩
    · rw [h2]
      omega
    · rw [h2]
      omega

theorem wideVol_file : (wideVol g rows k content).ino 2 =
    stamp g.flags (wideFile rows.flatten.length (g.dataStart + rows.length) k) := rfl

theorem wideVol_root_alike : DInode.Alike (wideRoot g.dataStart rows.length) ((wideVol g rows k content).ino 1) :=
  DInode.Alike.stamp _ _

theorem wideVol_file_alike : DInode.Alike (wideFile rows.flatten.length (g.dataStart + rows.length) k)
    ((wideVol g rows k content).ino 2) := DInode.Alike.stamp _ _

theorem wideVol_root_isDir : ((wideVol g rows k content).ino 1).isDir = true := by
  rw [wideVol_root_alike.isDir]
  exact wideRoot_isDir

theorem wideVol_isDir {n : ℕ} (hn : n ≠ 1) : ((wideVol g rows k content).ino n).isDir = false := by
  by_cases h2 : n = 2
  · subst h2
    rw [wideVol_file_alike.isDir]
    exact wideFile_isDir
  · have hz : (wideVol g rows k content).ino n = zero := by
      simp only [wideVol, if_neg hn, if_neg h2]
    rw [hz, DInode.isDir, DInode.mode, getLE_zero]
    decide

theorem wideVol_out {n : ℕ} (hn : n ≠ 1) : (wideVol g rows k content).out n = [] :=
  Vol.out_of_not_dir (wideVol_isDir hn)

theorem wideVol_bbit (b : ℕ) :
    (wideVol g rows k content).bbit b = true ↔ b < wideUsed g rows k ∨ g.totalBlocks ≤ b := decide_eq_true_iff

section Layout

variable (h : WideOk g rows k)

include h

/-- Where the directory and the file lie. -/
theorem WideOk.bounds : g.dataStart ≠ 0 ∧ g.dataStart + rows.length + k ≤ g.totalBlocks ∧
    g.totalBlocks < 2 ^ 32 := by
  have h1 := h.wf.super
  have h2 := h.wf.blockBitmap
  have h3 := h.wf.inodeBitmap
  have h4 := h.wf.inodeTable
  have h5 := h.blocks
  unfold wideUsed at h5
  exact ⟨by omega, h5, h.narrow⟩

theorem wideVol_root_blocks :
    ((wideVol g rows k content).ino 1).blocks = List.range' g.dataStart rows.length := by
  obtain ⟨h0, hle, hlt⟩ := h.bounds
  rw [wideVol_root_alike.blocks (by rw [wideRoot_nextents]; omega)]
  exact wideRoot_blocks h0 (by omega) (by omega) (by omega)

theorem wideVol_file_blocks :
    ((wideVol g rows k content).ino 2).blocks = List.range' (g.dataStart + rows.length) k := by
  obtain ⟨h0, hle, hlt⟩ := h.bounds
  rw [wideVol_file_alike.blocks (by rw [wideFile_nextents]; omega)]
  exact wideFile_blocks (by omega) (by omega) (by omega) (by omega)

theorem wideVol_root_shaped : Shaped ((wideVol g rows k content).ino 1) := by
  obtain ⟨h0, hle, hlt⟩ := h.bounds
  exact wideVol_root_alike.shaped (wideRoot_shaped h0 (by omega) (by omega) (by omega))

theorem wideVol_root_dirBlocks :
    ((wideVol g rows k content).ino 1).dirBlocks = List.range' g.dataStart rows.length := by
  obtain ⟨h0, -, -⟩ := h.bounds
  obtain ⟨hh, hsize⟩ := (wideVol_root_shaped h).dir (@wideVol_root_isDir g rows k content)
  rw [dirBlocks_eq hh hsize, wideVol_root_blocks h]
  intro b hb
  rw [wideVol_root_blocks h, List.mem_range'_1] at hb
  omega

omit h in
theorem wideVol_data_row {i : ℕ} (hi : i < rows.length) :
    (wideVol g rows k content).data (g.dataStart + i) = packDir (wideRow rows i) := by
  simp only [wideVol]
  rw [if_pos ⟨by omega, by omega⟩, Nat.add_sub_cancel_left]

theorem wideVol_out_root : (wideVol g rows k content).out 1 = wideEnts rows := by
  rw [Vol.out_of_isDir wideVol_root_isDir, Vol.ents, entsIn, wideVol_root_dirBlocks h,
    List.range'_eq_map_range, List.flatMap_map, ← flatMap_wideRow h.some_row]
  refine List.flatMap_congr fun i hi => ?_
  rw [List.mem_range] at hi
  rw [wideVol_data_row hi]
  exact (h.packed hi).2

omit h in
theorem mem_wideEnts {e : Ent} : e ∈ wideEnts rows ↔
    e = ([46], 1) ∨ e = ([46, 46], 1) ∨ (e.1 ∈ rows.flatten ∧ e.2 = 2) := by
  rw [wideEnts, List.mem_cons, List.mem_cons, List.mem_map]
  refine or_congr Iff.rfl (or_congr Iff.rfl ⟨?_, ?_⟩)
  · rintro ⟨name, hname, rfl⟩
    exact ⟨hname, rfl⟩
  · rintro ⟨hname, h2⟩
    exact ⟨e.1, hname, Prod.ext rfl h2.symm⟩

theorem wideVol_reach {n : ℕ} : (wideVol g rows k content).Reach n ↔ n = 1 ∨ n = 2 := by
  constructor
  · intro hn
    induction hn with
    | root => exact Or.inl rfl
    | @step m c name _ he ih =>
      rcases ih with rfl | rfl
      · rw [wideVol_out_root h, mem_wideEnts] at he
        rcases he with he | he | ⟨-, he⟩
        · exact Or.inl (congrArg Prod.snd he)
        · exact Or.inl (congrArg Prod.snd he)
        · exact Or.inr he
      · rw [wideVol_out (by omega)] at he
        cases he
  · rintro (rfl | rfl)
    · exact .root
    · obtain ⟨r, hr⟩ := List.exists_mem_of_ne_nil _ h.some_row
      obtain ⟨name, hname⟩ := List.exists_mem_of_ne_nil _ (h.row r hr)
      refine @DirGraph.Reach.step _ _ _ _ 1 2 name .root ?_
      rw [wideVol_out_root h, mem_wideEnts]
      exact Or.inr (Or.inr ⟨List.mem_flatten.mpr ⟨r, hr, hname⟩, rfl⟩)

theorem wideVol_refs (c : ℕ) :
    (wideVol g rows k content).refs g c = (wideEnts rows).countP fun e => e.2 = c := by
  classical
  have hfilter : (Finset.range g.totalInodes).filter (wideVol g rows k content).Reach = {1, 2} := by
    have hinodes := h.inodes
    ext n
    simp only [Finset.mem_filter, Finset.mem_range, wideVol_reach h, Finset.mem_insert,
      Finset.mem_singleton, and_iff_right_iff_imp]
    rintro (rfl | rfl) <;> omega
  have hsum : ∀ S : Finset ℕ, S = {1, 2} →
      ∑ n ∈ S, ((wideVol g rows k content).out n).countP (fun e => e.2 = c) =
        (wideEnts rows).countP fun e => e.2 = c := by
    rintro S rfl
    rw [Finset.sum_pair (by omega), wideVol_out_root h, wideVol_out (n := 2) (by omega),
      List.countP_nil, Nat.add_zero]
  rw [Vol.refs]
  apply hsum
  rw [← hfilter]

theorem wideVol_within : (wideVol g rows k content).Within g := by
  obtain ⟨h0, hle, -⟩ := h.bounds
  have hinodes := h.inodes
  refine ⟨?_, ?_, ?_, ?_⟩
  · intro b hb
    rw [wideVol_bbit]
    exact Or.inr hb
  · intro n hn
    simp [wideVol, hn]
  · intro n hn
    simp only [wideVol, if_neg (show ¬ n = 1 by omega), if_neg (show ¬ n = 2 by omega)]
  · intro b hb
    unfold Geom.IsData at hb
    simp only [wideVol]
    rw [if_neg (by omega), if_neg (by unfold wideUsed; omega)]

theorem wideEnts_names : ((wideEnts rows).map Prod.fst).Nodup := by
  have hdot : ∀ d, IsDotName d → d ∉ rows.flatten := fun d hd hmem => h.plain d hmem hd
  simp only [wideEnts, List.map_cons, List.map_map, List.nodup_cons, List.mem_cons]
  have hid : (Prod.fst ∘ fun name : Name => (name, 2)) = id := rfl
  rw [hid, List.map_id]
  refine ⟨?_, hdot _ (Or.inr rfl), h.nodup⟩
  rintro (h1 | h1)
  · cases h1
  · exact hdot _ (Or.inl rfl) h1

omit h in
/-- The clear bits below `n` of a bitmap that is set up to `a`. -/
theorem countP_clear (a n : ℕ) :
    (List.range n).countP (fun b => !decide (b < a ∨ n ≤ b)) = n - a := by
  have hpre : ∀ m ≤ n, (List.range m).countP (fun b => !decide (b < a ∨ n ≤ b)) = m - a := by
    intro m
    induction m with
    | zero => simp
    | succ m ih =>
      intro hm
      rw [List.range_succ, List.countP_append, ih (by omega), List.countP_singleton]
      by_cases hma : m < a
      · simp [hma]
        omega
      · simp [hma, show ¬ n ≤ m by omega]
        omega
  exact hpre n le_rfl

theorem wideVol_consistent : Consistent g (wideVol g rows k content) := by
  obtain ⟨h0, hle, hlt⟩ := h.bounds
  have hinodes := h.inodes
  have hcsum : g.flags &&& CFS_FEAT_CSUM ≠ 0 := by
    rw [h.flags]
    decide
  have hreach : ∀ n, (wideVol g rows k content).Reach n → n = 1 ∨ n = 2 := fun n => (wideVol_reach h).mp
  have hroot := @wideVol_root_blocks g rows k content h
  have hfile := @wideVol_file_blocks g rows k content h
  refine ⟨?_, ?_, ?_, ?_, ?_, ?_, ?_, ?_, ?_, ?_, ?_, ?_⟩
  · rintro n hn hdir b hb
    rcases hreach n hn with rfl | rfl
    · rw [wideVol_root_dirBlocks h, List.mem_range'_1] at hb
      obtain ⟨i, rfl⟩ := Nat.exists_eq_add_of_le hb.1
      rw [wideVol_data_row (by omega)]
      exact (h.packed (by omega)).1
    · rw [wideVol_isDir (by omega)] at hdir
      cases hdir
  · intro n hn
    rcases hreach n hn with rfl | rfl
    · rw [wideVol_out_root h]
      exact wideEnts_names h
    · rw [wideVol_out (by omega)]
      exact List.nodup_nil
  · intro n hn
    rcases hreach n hn with rfl | rfl <;> omega
  · intro n hn
    rw [wideVol_reach h]
    simp only [wideVol, decide_eq_true_eq]
    omega
  · intro n hn b hb
    rcases hreach n hn with rfl | rfl
    · rw [hroot, List.mem_range'_1] at hb
      exact ⟨by omega, by omega⟩
    · rw [hfile, List.mem_range'_1] at hb
      exact ⟨by omega, by omega⟩
  · intro n hn
    rcases hreach n hn with rfl | rfl
    · rw [hroot]
      exact List.nodup_range'
    · rw [hfile]
      exact List.nodup_range'
  · intro n m hn hm hne b hb
    rcases hreach n hn with rfl | rfl
    · rcases hreach m hm with rfl | rfl
      · exact absurd rfl hne
      · rw [hroot, List.mem_range'_1] at hb
        rw [hfile, List.mem_range'_1]
        omega
    · rcases hreach m hm with rfl | rfl
      · rw [hfile, List.mem_range'_1] at hb
        rw [hroot, List.mem_range'_1]
        omega
      · exact absurd rfl hne
  · intro b hb
    rw [wideVol_bbit, wideUsed]
    constructor
    · intro hused
      by_cases h1 : b < g.dataStart
      · exact Or.inl h1
      · refine Or.inr ?_
        by_cases h2 : b < g.dataStart + rows.length
        · exact ⟨1, (wideVol_reach h).mpr (Or.inl rfl), by rw [hroot, List.mem_range'_1]; omega⟩
        · exact ⟨2, (wideVol_reach h).mpr (Or.inr rfl), by rw [hfile, List.mem_range'_1]; omega⟩
    · rintro (hmeta | ⟨n, hn, hmem⟩)
      · omega
      · rcases hreach n hn with rfl | rfl
        · rw [hroot, List.mem_range'_1] at hmem
          omega
        · rw [hfile, List.mem_range'_1] at hmem
          omega
  · intro n hn
    rw [wideVol_refs h]
    rcases hreach n hn with rfl | rfl
    · have hnone : (rows.flatten.map fun name => ((name, 2) : Ent)).countP (fun e => e.2 = 1) = 0 := by
        rw [List.countP_eq_zero]
        intro e he
        obtain ⟨name, -, rfl⟩ := List.mem_map.mp he
        simp
      have hlinks : ((wideVol g rows k content).ino 1).links = 2 :=
        (getLE_stamp _ _ (by omega)).trans (wideRoot_head.links.trans (newDirInode_links _ _))
      rw [hlinks, wideEnts, List.countP_cons, List.countP_cons, hnone]
      simp
    · have hall : (rows.flatten.map fun name => ((name, 2) : Ent)).countP (fun e => e.2 = 2) =
          rows.flatten.length := by
        rw [List.countP_eq_length.mpr, List.length_map]
        intro e he
        obtain ⟨name, -, rfl⟩ := List.mem_map.mp he
        simp
      have hlinks : ((wideVol g rows k content).ino 2).links = rows.flatten.length :=
        (getLE_stamp _ _ (by omega)).trans (wideFile_links h.links)
      rw [hlinks, wideEnts, List.countP_cons, List.countP_cons, hall]
      simp
  · intro n hn
    rcases hreach n hn with rfl | rfl
    · exact stamp_csum hcsum _
    · exact stamp_csum hcsum _
  · exact (countP_clear _ _).symm
  · exact (countP_clear _ _).symm

theorem wideVol_dotted : Dotted (wideVol g rows k content) := by
  have hreach : ∀ n, (wideVol g rows k content).Reach n → n = 1 ∨ n = 2 := fun n => (wideVol_reach h).mp
  have hroot : ∀ n, (wideVol g rows k content).Reach n →
      ((wideVol g rows k content).ino n).isDir = true → n = 1 := by
    intro n hn hdir
    rcases hreach n hn with rfl | rfl
    · rfl
    · rw [wideVol_isDir (by omega)] at hdir
      cases hdir
  have habove : ∀ m name, (wideVol g rows k content).Reach m → ¬ IsDotName name →
      (name, CFS_ROOT_INO) ∉ (wideVol g rows k content).out m := by
    intro m name hm hname hmem
    rcases hreach m hm with rfl | rfl
    · rw [wideVol_out_root h, mem_wideEnts] at hmem
      rcases hmem with he | he | ⟨-, he⟩
      · exact hname (Or.inl (congrArg Prod.fst he))
      · exact hname (Or.inr (congrArg Prod.fst he))
      · cases he
    · rw [wideVol_out (by omega)] at hmem
      cases hmem
  refine ⟨wideVol_root_isDir, ?_, ?_, ?_, habove⟩
  · intro n hn hdir
    obtain rfl := hroot n hn hdir
    rw [wideVol_out_root h, mem_wideEnts]
    exact Or.inl rfl
  · intro n hn hdir
    obtain rfl := hroot n hn hdir
    refine ⟨1, ?_, fun _ => rfl, fun hne => absurd rfl hne⟩
    rw [wideVol_out_root h, mem_wideEnts]
    exact Or.inr (Or.inl rfl)
  · intro m m' n name name' hm hm' hdir hname _ hmem _
    have hn : n = 1 := by
      by_contra hne
      rw [wideVol_isDir hne] at hdir
      cases hdir
    subst hn
    exact absurd hmem (habove m name hm hname)

theorem wideVol_super : SuperOf g (wideVol g rows k content).super ∧
    SuperCounts g (wideVol g rows k content).super (g.totalBlocks - wideUsed g rows k) (g.totalInodes - 3) := by
  obtain ⟨-, hle, hlt⟩ := h.bounds
  have htable := h.wf.tableBytes
  have h2 := h.wf.blockBitmap
  have h3 := h.wf.inodeBitmap
  have h4 := h.wf.inodeTable
  have h5 := h.wf.dataStart
  have hsb := (formatSuper_spec [] 0 h.wf.inodeSize h.wf.rootIno h.flags (by omega) (by omega)
    (by omega) (by omega) (by omega) (by omega) h.journal.1 h.journal.2).1
  exact ⟨hsb.superWith _ _ _, superWith_counts _ (by omega) (by omega)⟩

theorem wideVol_wellFormed : WellFormed g (wideVol g rows k content) := by
  refine ⟨wideVol_consistent h, ?_, wideVol_dotted h, (wideVol_super h).1⟩
  intro n hn
  rcases (wideVol_reach h).mp hn with rfl | rfl
  · exact wideVol_root_shaped h
  · exact wideVol_file_alike.shaped wideFile_shaped

def wideState (g : Geom) (rows : List (List Name)) (k : ℕ) (content : ℕ → Block) : St :=
  (wideVol g rows k content).mounted g

theorem wideState_vol : (wideState g rows k content).vol = wideVol g rows k content :=
  Vol.mounted_vol h.wf (wideVol_within h)

omit h in
theorem wideState_idle : (wideState g rows k content).Idle g := Vol.mounted_idle _ _

omit h in
theorem wideState_writesOk : (wideState g rows k content).WritesOk := rfl

theorem wideState_wellFormed : WellFormed g (wideState g rows k content).vol := by
  rw [wideState_vol h]
  exact wideVol_wellFormed h

end Layout

end Wide

end ComputerOS.Cfs
