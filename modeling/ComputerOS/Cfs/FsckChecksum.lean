import ComputerOS.Cfs.FsckReport

/-!
What `cfs_fsck` makes of a damaged checksum. A check counts every inode that it meets and the
superblock when a short burst has hit them; a repair counts them there, or under what it corrects in
them.
-/
namespace ComputerOS.Cfs

open M Bytes

variable {g : Geom} {s : St} {ino : ℕ → DInode} {V : ℕ → Block} {w : Fsck} {n : ℕ}

theorem csumWrong_of_damaged {flags : ℕ} {d d' : DInode} (hflags : flags &&& CFS_FEAT_CSUM ≠ 0)
    (hd : d.csum = inodeCsum d)
    (h : inodeBytes.Damaged d d') : csumWrong flags d' = true := decide_eq_true ⟨hflags, inodeCsum_catches hd h⟩

theorem superWrong_of_damaged {flags : ℕ} {sb sb' : Block} (hflags : flags &&& CFS_FEAT_CSUM ≠ 0)
    (hsb : Super.sbCsum sb = superCsum sb) (h : superBytes.Damaged sb sb') : superWrong flags sb' = true :=
  decide_eq_true ⟨hflags, superCsum_catches hsb h⟩

theorem FsckResult.tally_total (r : FsckResult) (links csums free super : ℕ) :
    links + csums ≤ (r.tally links csums free super).total ∧ free + super ≤ (r.tally links csums free super).total := by
  simp only [tally, sum]
  exact ⟨by omega, by omega⟩

/-- An inode that is met counts, by its checksum in a check, and in a repair by that or by its link
count. -/
theorem compared_inode (hcap : g.Capped) (hn : g.InTable n) (hibm : w.ibm n = true)
    (hwrong : csumWrong g.flags (ino n) = true) :
    1 ≤ (compared false g ino V w).out.inodeCsumBad ∧ 1 ≤ (compared true g ino V w).out.total := by
  obtain ⟨r, hout⟩ := compared_tally hcap ino V w
  have hmem : n ∈ List.range' 1 (g.totalInodes - 1) :=
    List.mem_range'_1.mpr ⟨Nat.pos_of_ne_zero hn.1, by have := hn.2; omega⟩
  rw [hout, hout]
  constructor
  · refine Nat.le_add_left_of_le (List.countP_pos_iff.mpr ⟨n, hmem, ?_⟩)
    rw [csumCounted, hibm, fixLinks_false, hwrong]
    rfl
  · refine Nat.le_trans ?_ (FsckResult.tally_total r _ _ _ _).1
    by_cases hlinks : (ino n).links = w.refs n
    · refine Nat.le_add_left_of_le (List.countP_pos_iff.mpr ⟨n, hmem, ?_⟩)
      rw [csumCounted, hibm, fixLinks, if_neg fun h => h.1 hlinks, hwrong]
      rfl
    · refine Nat.le_add_right_of_le (List.countP_pos_iff.mpr ⟨n, hmem, ?_⟩)
      rw [hibm, Bool.true_and]
      exact bne_iff_ne.mpr hlinks

theorem compared_super (hcap : g.Capped) (hwrong : superWrong g.flags (V 0) = true) :
    1 ≤ (compared false g ino V w).out.sbCsumBad ∧ 1 ≤ (compared true g ino V w).out.total := by
  obtain ⟨r, hout⟩ := compared_tally hcap ino V w
  rw [hout, hout]
  constructor
  · refine Nat.le_add_left_of_le ?_
    rw [fixFree_false, if_pos hwrong]
  · refine Nat.le_trans ?_ (FsckResult.tally_total r _ _ _ _).2
    split
    · exact Nat.le_add_right _ _
    · next hfree =>
      have hright : Super.freeBlocks (V 0) = g.totalBlocks - w.usedBlocks g ∧
        Super.freeInodes (V 0) = g.totalInodes - w.usedInodes g := by
        simpa using hfree
      have hfix : fixFree true (g.totalBlocks - w.usedBlocks g) (g.totalInodes - w.usedInodes g) (V 0) = V 0 :=
        if_neg fun h => h.1.elim (fun h => h hright.1) fun h => h hright.2
      rw [hfix, if_pos hwrong]

/-- Checksums can be chained and catch every burst of up to 32 bits, in an inode and in the
superblock; a check of a volume with checksums counts it, and a repair does not end with a clean
report. -/
theorem bursts_caught : (∀ a b : List UInt8, crc32Up (crc32Up 0 a) b = crc32Up 0 (a ++ b)) ∧
    (∀ d d' : DInode, d.csum = inodeCsum d → inodeBytes.Damaged d d' → d'.csum ≠ inodeCsum d') ∧
    (∀ sb sb' : Block, Super.sbCsum sb = superCsum sb → superBytes.Damaged sb sb' → Super.sbCsum sb' ≠ superCsum sb') ∧
    ∀ (g : Geom) (s : St), s.Idle g → g.Capped → g.flags &&& CFS_FEAT_CSUM ≠ 0 → ∃ w ret s₁ w' ret' s₂,
      (cfsFsck false).run s = (some (some (w, ret)), s₁) ∧ (cfsFsck true).run s = (some (some (w', ret')), s₂) ∧
      (∀ n d, g.InTable n → (walkOf g s.vol.ino s.disk).seen n = true → d.csum = inodeCsum d →
        inodeBytes.Damaged d (s.vol.ino n) → 1 ≤ w.out.inodeCsumBad ∧ (g.Apart → s.WritesOk → 1 ≤ ret')) ∧
      ∀ sb, Super.sbCsum sb = superCsum sb → superBytes.Damaged sb (s.disk 0) →
        1 ≤ w.out.sbCsumBad ∧ (g.Apart → s.WritesOk → 1 ≤ ret') := by
  refine ⟨crc32Up_append 0, fun _ _ => inodeCsum_catches, fun _ _ => superCsum_catches, fun g s hs hcap hflags => ?_⟩
  obtain ⟨w, w₁, w₂, s₁, s₂, hmarks, hcmp₁, hcmp₂, hrun₁, hrun₂⟩ := fsck_runs hs hcap
  obtain ⟨s₁', hcheck⟩ := fsckCompare_check hs w
  obtain rfl : w₁ = compared false g s.vol.ino s.disk w := Option.some.inj (congrArg Prod.fst (hcmp₁.symm.trans hcheck))
  have hrepair : g.Apart → s.WritesOk → w₂ = compared true g s.vol.ino s.disk w := fun ha hw => by
    obtain ⟨s₂', hrep⟩ := fsckCompare_run ha hs hw true w
    exact Option.some.inj (congrArg Prod.fst (hcmp₂.symm.trans hrep))
  refine ⟨_, _, s₁, _, _, s₂, hrun₁, hrun₂, fun n d hn hseen hd hdam => ?_, fun sb hsb hdam => ?_⟩
  · have hibm : w.ibm n = true := by rw [hmarks.ibm]; exact hseen
    have hcount := compared_inode (V := s.disk) hcap hn hibm (csumWrong_of_damaged hflags hd hdam)
    refine ⟨hcount.1, fun ha hw => ?_⟩
    rw [hrepair ha hw]
    exact Int.ofNat_le.mpr hcount.2
  · have hcount := @compared_super g s.vol.ino s.disk w hcap (superWrong_of_damaged hflags hsb hdam)
    refine ⟨hcount.1, fun ha hw => ?_⟩
    rw [hrepair ha hw]
    exact Int.ofNat_le.mpr hcount.2

/-- The root directory of an empty volume, its link count changed after the checksum was taken. -/
def staleState : St := rootState (((combVol combGeom 1).ino 1).setLinks 5)

theorem bursts_caught_stale : ∃ w ret s', (cfsFsck false).run staleState =
    (some (some (w, ret)), s') ∧ 1 ≤ w.out.inodeCsumBad := by
  have hflags : combGeom.flags &&& CFS_FEAT_CSUM ≠ 0 := by decide
  have hroot : (combVol combGeom 1).ino 1 = stamp combGeom.flags ((wideRoot (combGeom.dataStart + (1 - 1)) 1).setLinks
    (2 + (combBelow 1 1).length)) := combVol_ino ⟨by decide, by decide⟩
  have hcsum : ((combVol combGeom 1).ino 1).csum = inodeCsum ((combVol combGeom 1).ino 1) := by
    rw [hroot]
    exact stamp_csum hflags _
  have hlinks : ((combVol combGeom 1).ino 1).links ≠ 5 := by
    rw [combVol_links ⟨by decide, by decide⟩]
    decide
  have hseen : (walkOf combGeom staleState.vol.ino staleState.disk).seen 1 = true := by
    have hlike : DInode.Alike ((combVol combGeom 1).ino 1) (((combVol combGeom 1).ino 1).setLinks 5) :=
      .setLE _ _ (Or.inl ⟨by decide, by decide⟩)
    have hwalk := congrFun (rootState_walk hlike).1 1
    rw [staleState]
    exact hwalk.trans (start_seen_self 1)
  obtain ⟨w, ret, s₁, w', ret', s₂, hrun, -, hino, -⟩ :=
    bursts_caught.2.2.2 combGeom staleState (rootState_idle _) combGeom_capped hflags
  refine ⟨w, ret, s₁, hrun, (hino 1 _ ⟨by decide, by decide⟩ hseen hcsum ?_).1⟩
  rw [staleState, rootState_ino]
  exact damaged_setLinks (by decide) hlinks

end ComputerOS.Cfs
