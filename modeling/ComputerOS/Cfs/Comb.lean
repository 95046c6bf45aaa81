import ComputerOS.Cfs.Wide
import Mathlib.Algebra.BigOperators.Group.Finset.Piecewise
import Mathlib.Order.Interval.Finset.Nat

/-!
Comb volumes: a chain of directories of any length, each with one empty directory beside the next
one in the chain. Every directory has one block. The inode numbers go up along the chain: the odd
ones are the chain, and the even ones the directories beside it.
-/
namespace ComputerOS.Cfs

open M Bytes Function

/-- The directory that directory `n` lies in. -/
def combUp (n : ℕ) : ℕ := if n = 1 then 1 else if n % 2 = 0 then n - 1 else n - 2

def combBelow (m n : ℕ) : List Ent := if n % 2 = 1 ∧ n < m then [([97], n + 1), ([98], n + 2)] else []

def combEnts (m n : ℕ) : List Ent := ([46], n) :: ([46, 46], combUp n) :: combBelow m n

def combVol (g : Geom) (m : ℕ) : Vol where
  super := superWith g.flags (g.totalBlocks - (g.dataStart + m)) (g.totalInodes - (m + 1)) (formatSuper g [] 0)
  bbit b := decide (b < g.dataStart + m ∨ g.totalBlocks ≤ b)
  ibit n := decide (n < m + 1 ∨ g.totalInodes ≤ n)
  ino n := if 1 ≤ n ∧ n ≤ m then
      stamp g.flags ((wideRoot (g.dataStart + (n - 1)) 1).setLinks (2 + (combBelow m n).length))
    else zero
  data b := if g.dataStart ≤ b ∧ b < g.dataStart + m then packDir
    (combEnts m (b - g.dataStart + 1)) else zero
  freeBlocks := g.totalBlocks - (g.dataStart + m)
  freeInodes := g.totalInodes - (m + 1)

/-- The chain ends with a directory of its own, and everything fits into the volume. -/
structure CombOk (g : Geom) (m : ℕ) : Prop where
  wf : g.Wf
  flags : g.flags = CFS_FEAT_CSUM
  odd : m % 2 = 1
  inodes : m < g.totalInodes
  blocks : g.dataStart + m ≤ g.totalBlocks
  narrow : g.totalBlocks < 2 ^ 32
  journal : g.journalStart < 2 ^ 64 ∧ g.journalBlocks < 2 ^ 64

variable {g : Geom} {m n c b : ℕ}

theorem mem_combEnts {e : Ent} : e ∈ combEnts m n ↔ e = ([46], n) ∨ e = ([46, 46], combUp n) ∨
    (n % 2 = 1 ∧ n < m) ∧ (e = ([97], n + 1) ∨ e = ([98], n + 2)) := by
  unfold combEnts combBelow
  rw [List.mem_cons, List.mem_cons]
  split
  · rename_i h
    simp [h]
  · rename_i h
    simp [h]

theorem mem_combEnts_le {e : Ent} (hm : m % 2 = 1) (hn : 1 ≤ n ∧ n ≤ m) (he : e ∈ combEnts m n) :
    1 ≤ e.2 ∧ e.2 ≤ m := by
  rcases mem_combEnts.mp he with rfl | rfl | ⟨hlt, rfl | rfl⟩
  · exact hn
  · unfold combUp
    dsimp only
    split
    · omega
    · split <;> omega
  · exact ⟨by omega, by dsimp only; omega⟩
  · exact ⟨by omega, by dsimp only; omega⟩

theorem combEnts_names (m n : ℕ) : ((combEnts m n).map Prod.fst).Nodup := by
  unfold combEnts combBelow
  split <;> simp

theorem combEnts_packed (hn : 1 ≤ n ∧ n ≤ m) (hm : m % 2 = 1) (hlt : m < 2 ^ 64) :
    Tiled (packDir (combEnts m n)) ∧ dirEnts (packDir (combEnts m n)) = combEnts m n := by
  refine packDir_spec (List.cons_ne_nil _ _) (fun e he => ?_) (fun e he => ?_) ?_
  · rcases mem_combEnts.mp he with rfl | rfl | ⟨-, rfl | rfl⟩ <;> simp
  · have hle := mem_combEnts_le hm hn he
    omega
  · unfold combEnts combBelow entsLen
    split <;> simp [align8]

/-- The dots name the directory above. -/
theorem combUp_eq_iff (hn : 1 ≤ n) : combUp n = c ↔
    (n = 1 ∧ c = 1) ∨ (n = c + 1 ∧ c % 2 = 1) ∨ (n = c + 2 ∧ c % 2 = 1) := by
  unfold combUp
  split
  · omega
  · split <;> omega

theorem count_combUp (hn : 1 ≤ n) : (if combUp n = c then 1 else 0) = (if n = 1 then if c = 1 then 1 else 0 else 0) +
    (if n = c + 1 then if c % 2 = 1 then 1 else 0 else 0) + (if n = c + 2 then if c % 2 = 1 then 1 else 0 else 0) := by
  rw [if_congr (combUp_eq_iff hn) rfl rfl]
  split_ifs <;> omega

/-- A name in its directory. -/
theorem countP_combBelow (hm : m % 2 = 1) (hn : 1 ≤ n ∧ n ≤ m) (hc : 1 ≤ c ∧ c ≤ m) :
    (combBelow m n).countP (fun e => e.2 = c) = if n = combUp c then if c = 1 then 0 else 1 else 0 := by
  have hname : (n = combUp c ∧ c ≠ 1) ↔ (n % 2 = 1 ∧ n < m) ∧ (n + 1 = c ∨ n + 2 = c) := by
    unfold combUp
    split
    · omega
    · split <;> omega
  unfold combBelow
  split
  · simp only [List.countP_cons, List.countP_nil, decide_eq_true_eq]
    split_ifs <;> omega
  · rw [List.countP_nil]
    split_ifs <;> omega

/-- An entry names a directory by its own dot, by the dots of a directory in it, or by its name. -/
theorem countP_combEnts (hm : m % 2 = 1) (hn : 1 ≤ n ∧ n ≤ m) (hc : 1 ≤ c ∧ c ≤ m) :
    (combEnts m n).countP (fun e => e.2 = c) = (if n = c then 1 else 0) + (if n = 1 then if c = 1 then 1 else 0 else 0) +
      (if n = c + 1 then if c % 2 = 1 then 1 else 0 else 0) + (if n = c + 2 then if c % 2 = 1 then 1 else 0 else 0) +
      (if n = combUp c then if c = 1 then 0 else 1 else 0) := by
  unfold combEnts
  rw [List.countP_cons, List.countP_cons, countP_combBelow hm hn hc]
  simp only [decide_eq_true_eq]
  rw [count_combUp hn.1]
  omega

theorem length_combBelow (m c : ℕ) : (combBelow m c).length = if c % 2 = 1 ∧ c < m then 2 else 0 := by
  unfold combBelow
  split <;> rfl

/-- The references to a directory: its own dot, its name or the root's own dots, and the dots below.
-/
theorem sum_combEnts (hm : m % 2 = 1) (hc : 1 ≤ c ∧ c ≤ m) :
    ∑ n ∈ Finset.Icc 1 m, (combEnts m n).countP (fun e => e.2 = c) = 2 + (combBelow m c).length := by
  have hsum : ∑ n ∈ Finset.Icc 1 m, (combEnts m n).countP (fun e => e.2 = c) =
      ∑ n ∈ Finset.Icc 1 m, ((if n = c then 1 else 0) + (if n = 1 then if c = 1 then 1 else 0 else 0) +
      (if n = c + 1 then if c % 2 = 1 then 1 else 0 else 0) + (if n = c + 2 then if c % 2 = 1 then 1 else 0 else 0) +
      (if n = combUp c then if c = 1 then 0 else 1 else 0)) :=
    Finset.sum_congr rfl fun n hn => countP_combEnts hm (Finset.mem_Icc.mp hn) hc
  have hup : combUp c ∈ Finset.Icc 1 m :=
    Finset.mem_Icc.mpr (mem_combEnts_le hm hc (mem_combEnts.mpr (Or.inr (Or.inl rfl))))
  rw [hsum, Finset.sum_add_distrib, Finset.sum_add_distrib, Finset.sum_add_distrib,
    Finset.sum_add_distrib, Finset.sum_ite_eq', Finset.sum_ite_eq', Finset.sum_ite_eq',
    Finset.sum_ite_eq', Finset.sum_ite_eq', if_pos hup, length_combBelow]
  simp only [Finset.mem_Icc]
  split_ifs <;> omega

theorem combVol_ino (hn : 1 ≤ n ∧ n ≤ m) : (combVol g m).ino n =
    stamp g.flags ((wideRoot (g.dataStart + (n - 1)) 1).setLinks (2 + (combBelow m n).length)) := if_pos hn

theorem combVol_alike (hn : 1 ≤ n ∧ n ≤ m) : DInode.Alike (wideRoot (g.dataStart + (n - 1)) 1)
    ((combVol g m).ino n) := by
  rw [combVol_ino hn]
  exact (DInode.Alike.setLE _ _ (by omega)).trans (.stamp _ _)

theorem combVol_isDir (n : ℕ) : ((combVol g m).ino n).isDir = true ↔ 1 ≤ n ∧ n ≤ m := by
  by_cases hn : 1 ≤ n ∧ n ≤ m
  · rw [(combVol_alike hn).isDir, wideRoot_isDir]
    exact ⟨fun _ => hn, fun _ => rfl⟩
  · have hz : (combVol g m).ino n = zero := if_neg hn
    rw [hz, DInode.isDir, DInode.mode, getLE_zero]
    exact ⟨fun h => absurd h (by decide), fun h => absurd h hn⟩

section Layout

variable (h : CombOk g m)
include h

theorem CombOk.bounds : g.dataStart ≠ 0 ∧ g.dataStart + m ≤ g.totalBlocks ∧ g.totalBlocks < 2 ^ 32 := by
  have h1 := h.wf.super
  have h2 := h.wf.blockBitmap
  have h3 := h.wf.inodeBitmap
  have h4 := h.wf.inodeTable
  exact ⟨by omega, h.blocks, h.narrow⟩

theorem combVol_blocks (hn : 1 ≤ n ∧ n ≤ m) : ((combVol g m).ino n).blocks = [g.dataStart + (n - 1)] := by
  obtain ⟨h0, hle, hlt⟩ := h.bounds
  rw [(combVol_alike hn).blocks (by rw [wideRoot_nextents]; omega),
    wideRoot_blocks (by omega) (by omega) (by omega) (by omega)]
  rfl

theorem combVol_shaped (hn : 1 ≤ n ∧ n ≤ m) : Shaped ((combVol g m).ino n) := by
  obtain ⟨h0, hle, hlt⟩ := h.bounds
  exact (combVol_alike hn).shaped (wideRoot_shaped (by omega) (by omega) (by omega) (by omega))

theorem combVol_dirBlocks (hn : 1 ≤ n ∧ n ≤ m) : ((combVol g m).ino n).dirBlocks = [g.dataStart + (n - 1)] := by
  obtain ⟨h0, -, -⟩ := h.bounds
  obtain ⟨hh, hsize⟩ := (combVol_shaped h hn).dir ((combVol_isDir n).mpr hn)
  rw [dirBlocks_eq hh hsize, combVol_blocks h hn]
  intro b hb
  rw [combVol_blocks h hn, List.mem_singleton] at hb
  omega

omit h in
theorem combVol_data (hn : 1 ≤ n ∧ n ≤ m) : (combVol g m).data (g.dataStart + (n - 1)) = packDir (combEnts m n) := by
  simp only [combVol]
  rw [if_pos ⟨by omega, by omega⟩, Nat.add_sub_cancel_left, Nat.sub_add_cancel hn.1]

theorem combVol_packed (hn : 1 ≤ n ∧ n ≤ m) :
    Tiled (packDir (combEnts m n)) ∧ dirEnts (packDir (combEnts m n)) = combEnts m n := by
  obtain ⟨-, hle, hlt⟩ := h.bounds
  exact combEnts_packed hn h.odd (by omega)

theorem combVol_out (hn : 1 ≤ n ∧ n ≤ m) : (combVol g m).out n = combEnts m n := by
  rw [Vol.out_of_isDir ((combVol_isDir n).mpr hn), Vol.ents, entsIn, combVol_dirBlocks h hn,
    List.flatMap_singleton, combVol_data hn]
  exact (combVol_packed h hn).2

theorem combVol_reach : (combVol g m).Reach n ↔ 1 ≤ n ∧ n ≤ m := by
  have hodd := h.odd
  constructor
  · intro hn
    induction hn with
    | root => exact ⟨Nat.le_refl 1, show 1 ≤ m by omega⟩
    | @step k c name _ he ih =>
      rw [combVol_out h ih] at he
      exact mem_combEnts_le hodd ih he
  · intro hn
    induction n using Nat.strong_induction_on with
    | _ n ih =>
      by_cases h1 : n = 1
      · rw [h1]
        exact .root
      · -- an even directory lies beside the one before it, an odd one behind the one two before it
        by_cases h2 : n % 2 = 0
        · have hup := ih (n - 1) (by omega) ⟨by omega, by omega⟩
          refine @DirGraph.Reach.step _ _ _ _ (n - 1) n [97] hup ?_
          rw [combVol_out h ⟨by omega, by omega⟩, mem_combEnts]
          exact Or.inr (Or.inr ⟨⟨by omega, by omega⟩, Or.inl (by rw [Nat.sub_add_cancel hn.1])⟩)
        · have hup := ih (n - 2) (by omega) ⟨by omega, by omega⟩
          refine @DirGraph.Reach.step _ _ _ _ (n - 2) n [98] hup ?_
          rw [combVol_out h ⟨by omega, by omega⟩, mem_combEnts]
          exact Or.inr (Or.inr ⟨⟨by omega, by omega⟩, Or.inr (by rw [Nat.sub_add_cancel (by omega)])⟩)

theorem combVol_refs (hc : 1 ≤ c ∧ c ≤ m) : (combVol g m).refs g c = 2 + (combBelow m c).length := by
  classical
  have hinodes := h.inodes
  have hfilter : (Finset.range g.totalInodes).filter (combVol g m).Reach = Finset.Icc 1 m := by
    ext n
    simp only [Finset.mem_filter, Finset.mem_range, combVol_reach h, Finset.mem_Icc, and_iff_right_iff_imp]
    omega
  rw [← sum_combEnts h.odd hc, ← hfilter, Vol.refs]
  refine Finset.sum_congr (by congr) fun n hn => ?_
  rw [combVol_out h ((combVol_reach h).mp (Finset.mem_filter.mp hn).2)]

omit h in
theorem combVol_links (hn : 1 ≤ n ∧ n ≤ m) : ((combVol g m).ino n).links = 2 + (combBelow m n).length := by
  have hlt : (combBelow m n).length ≤ 2 := by
    rw [length_combBelow]
    split <;> omega
  rw [combVol_ino hn, DInode.links, getLE_stamp _ _ (by omega), DInode.setLinks,
    getLE_setLE_same _ _ (by omega), Nat.mod_eq_of_lt (by omega)]

theorem combVol_within : (combVol g m).Within g := by
  obtain ⟨h0, hle, -⟩ := h.bounds
  have hinodes := h.inodes
  refine ⟨fun b hb => decide_eq_true (Or.inr hb), fun n hn => decide_eq_true (Or.inr hn),
    fun n hn => if_neg (by omega), fun b hb => if_neg ?_⟩
  unfold Geom.IsData at hb
  omega

theorem combVol_consistent : Consistent g (combVol g m) := by
  obtain ⟨h0, hle, hlt⟩ := h.bounds
  have hinodes := h.inodes
  have hodd := h.odd
  have hcsum : g.flags &&& CFS_FEAT_CSUM ≠ 0 := by
    rw [h.flags]
    decide
  have hreach : ∀ n, (combVol g m).Reach n → 1 ≤ n ∧ n ≤ m := fun n => (combVol_reach h).mp
  refine ⟨?_, ?_, ?_, ?_, ?_, ?_, ?_, ?_, ?_, ?_, ?_, ?_⟩
  · intro n hn _ b hb
    rw [combVol_dirBlocks h (hreach n hn), List.mem_singleton] at hb
    rw [hb, combVol_data (hreach n hn)]
    exact (combVol_packed h (hreach n hn)).1
  · intro n hn
    rw [combVol_out h (hreach n hn)]
    exact combEnts_names m n
  · intro n hn
    have := hreach n hn
    omega
  · intro n hn
    rw [combVol_reach h]
    simp only [combVol, decide_eq_true_eq]
    omega
  · intro n hn b hb
    have hle' := hreach n hn
    rw [combVol_blocks h hle', List.mem_singleton] at hb
    exact ⟨by omega, by omega⟩
  · intro n hn
    rw [combVol_blocks h (hreach n hn)]
    exact List.nodup_singleton _
  · intro n k hn hk hne b hb
    have hn' := hreach n hn
    have hk' := hreach k hk
    rw [combVol_blocks h hn', List.mem_singleton] at hb
    rw [combVol_blocks h hk', List.mem_singleton]
    omega
  · intro b hb
    simp only [combVol, decide_eq_true_eq]
    constructor
    · intro hused
      by_cases h1 : b < g.dataStart
      · exact Or.inl h1
      · refine Or.inr ⟨b - g.dataStart + 1, (combVol_reach h).mpr ⟨by omega, by omega⟩, ?_⟩
        change b ∈ ((combVol g m).ino (b - g.dataStart + 1)).blocks
        rw [combVol_blocks h ⟨by omega, by omega⟩, List.mem_singleton]
        omega
    · rintro (hmeta | ⟨n, hn, hmem⟩)
      · omega
      · change b ∈ ((combVol g m).ino n).blocks at hmem
        have hn' := hreach n hn
        rw [combVol_blocks h hn', List.mem_singleton] at hmem
        omega
  · intro n hn
    rw [combVol_refs h (hreach n hn), combVol_links (hreach n hn)]
  · intro n hn
    rw [combVol_ino (hreach n hn)]
    exact stamp_csum hcsum _
  · exact (countP_clear _ _).symm
  · exact (countP_clear _ _).symm

theorem combVol_dotted : Dotted (combVol g m) := by
  have hodd := h.odd
  have hreach : ∀ n, (combVol g m).Reach n → 1 ≤ n ∧ n ≤ m := fun n => (combVol_reach h).mp
  -- a name that is not a dot name lies in the directory above
  have hnamed : ∀ k n name, (combVol g m).Reach k → ¬ IsDotName name → (name, n) ∈ (combVol g m).out k →
      n ≠ 1 ∧ k = combUp n ∧ name = if n % 2 = 0 then [97] else [98] := by
    intro k n name hk hname hmem
    rw [combVol_out h (hreach k hk), mem_combEnts] at hmem
    rcases hmem with he | he | ⟨hodd', he | he⟩
    · exact absurd (Or.inl (congrArg Prod.fst he)) hname
    · exact absurd (Or.inr (congrArg Prod.fst he)) hname
    · obtain ⟨rfl, rfl⟩ := Prod.mk.inj he
      refine ⟨by omega, ?_, by rw [if_pos (by omega)]⟩
      rw [combUp, if_neg (by omega), if_pos (by omega), Nat.add_sub_cancel]
    · obtain ⟨rfl, rfl⟩ := Prod.mk.inj he
      refine ⟨by omega, ?_, by rw [if_neg (by omega)]⟩
      rw [combUp, if_neg (by omega), if_neg (by omega), Nat.add_sub_cancel]
  refine ⟨(combVol_isDir 1).mpr ⟨Nat.le_refl 1, by omega⟩, ?_, ?_, ?_, ?_⟩
  · intro n hn _
    rw [combVol_out h (hreach n hn), mem_combEnts]
    exact Or.inl rfl
  · intro n hn _
    have hn' := hreach n hn
    refine ⟨combUp n, ?_, fun h1 => ?_, fun h1 => ?_⟩
    · rw [combVol_out h hn', mem_combEnts]
      exact Or.inr (Or.inl rfl)
    · rw [show n = 1 from h1]
      rfl
    · have h1' : n ≠ 1 := h1
      have hup := mem_combEnts_le hodd hn' (mem_combEnts.mpr (Or.inr (Or.inl rfl)) :
        ([46, 46], combUp n) ∈ combEnts m n)
      rw [combVol_out h hup]
      by_cases h2 : n % 2 = 0
      · refine ⟨[97], by decide, mem_combEnts.mpr (Or.inr (Or.inr ?_))⟩
        rw [combUp, if_neg h1', if_pos h2]
        exact ⟨⟨by omega, by omega⟩, Or.inl (by rw [Nat.sub_add_cancel hn'.1])⟩
      · refine ⟨[98], by decide, mem_combEnts.mpr (Or.inr (Or.inr ?_))⟩
        rw [combUp, if_neg h1', if_neg h2]
        exact ⟨⟨by omega, by omega⟩, Or.inr (by rw [Nat.sub_add_cancel (by omega)])⟩
  · intro k k' n name name' hk hk' _ hname hname' hmem hmem'
    obtain ⟨-, hkn, hnn⟩ := hnamed k n name hk hname hmem
    obtain ⟨-, hkn', hnn'⟩ := hnamed k' n name' hk' hname' hmem'
    exact ⟨hkn.trans hkn'.symm, hnn.trans hnn'.symm⟩
  · intro k name hk hname hmem
    exact (hnamed k CFS_ROOT_INO name hk hname hmem).1 rfl

theorem combVol_wellFormed : WellFormed g (combVol g m) := by
  obtain ⟨-, hle, hlt⟩ := h.bounds
  have htable := h.wf.tableBytes
  have h2 := h.wf.blockBitmap
  have h3 := h.wf.inodeBitmap
  have h4 := h.wf.inodeTable
  have h5 := h.wf.dataStart
  have hsb := (formatSuper_spec [] 0 h.wf.inodeSize h.wf.rootIno h.flags (by omega) (by omega)
    (by omega) (by omega) (by omega) (by omega) h.journal.1 h.journal.2).1
  exact ⟨combVol_consistent h, fun n hn => combVol_shaped h ((combVol_reach h).mp hn),
    combVol_dotted h, hsb.superWith _ _ _⟩

def combState (g : Geom) (m : ℕ) : St := (combVol g m).mounted g

theorem combState_vol : (combState g m).vol = combVol g m := Vol.mounted_vol h.wf (combVol_within h)

theorem combState_wellFormed : WellFormed g (combState g m).vol := by
  rw [combState_vol h]
  exact combVol_wellFormed h

end Layout

theorem combState_idle (g : Geom) (m : ℕ) : (combState g m).Idle g := Vol.mounted_idle _ _

theorem combState_writesOk (g : Geom) (m : ℕ) : (combState g m).WritesOk := rfl

/-- Room for 4097 directories. -/
def combGeom : Geom where
  inodeSize := 256
  totalBlocks := 8192
  totalInodes := 4112
  blockBitmapStart := 1
  inodeBitmapStart := 2
  inodeTableStart := 3
  dataStart := 260
  rootIno := 1
  journalStart := 0
  journalBlocks := 0
  flags := 1

theorem combGeom_wf : combGeom.Wf := by
  refine ⟨rfl, rfl, ?_, ?_, ?_, ?_, ?_, ?_, ?_, ?_, ?_, ?_⟩ <;> decide

theorem combOk_three : CombOk combGeom 3 :=
  ⟨combGeom_wf, rfl, by decide, by decide, by decide, by decide, by decide, by decide⟩

end ComputerOS.Cfs
