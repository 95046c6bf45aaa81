import ComputerOS.Cfs.FsckLive
import ComputerOS.Cfs.Checksum
import ComputerOS.Cfs.Sound

/-!
The report of `cfs_fsck` with and without repair. A repair corrects link counts and free counts
before it looks at the checksums over them, so it also counts the checksums that its own corrections
have made stale. On volumes whose regions do not overlap, nothing else that it writes is read again.
-/
namespace ComputerOS.Cfs

open M Bytes Function

variable {g : Geom} {s s' : St} {w : Fsck} {n k : ℕ} {ns : List ℕ} {ino ino' : ℕ → DInode} {V : ℕ → Block}

/-- The bitmaps, the inode table and the superblock have no block in common, inode records neither
overlap nor cross the end of a block, and block numbers do not wrap around. -/
structure Geom.Apart (g : Geom) : Prop where
  record : 224 ≤ g.inodeSize
  divides : g.inodeSize ∣ 4096
  bitmaps : ∀ i ∈ bitmapBlocks g.totalBlocks, ∀ j ∈ bitmapBlocks g.totalInodes,
    g.blockBitmapStart + i ≠ g.inodeBitmapStart + j
  blocks : ∀ i ∈ bitmapBlocks g.totalBlocks, ¬ g.Table (g.blockBitmapStart + i)
  inodes : ∀ j ∈ bitmapBlocks g.totalInodes, ¬ g.Table (g.inodeBitmapStart + j)
  super : ¬ g.TableBlock 0
  bitmapSectors : g.blockBitmapStart + (g.totalBlocks + 32767) / 32768 ≤ 2 ^ 61 ∧
    g.inodeBitmapStart + (g.totalInodes + 32767) / 32768 ≤ 2 ^ 61
  tableSectors : g.inodeTableStart + (g.totalInodes * g.inodeSize + 4095) / 4096 ≤ 2 ^ 61

/-- A well-formed geometry keeps its regions apart. -/
theorem Geom.Wf.apart (hg : g.Wf) : g.Apart := by
  have hblock := hg.blockBitmap
  have hinode := hg.inodeBitmap
  have htable := hg.inodeTable
  have hdata := hg.dataStart
  have hsectors := hg.sectors
  have hsuper := hg.super
  have hmem : ∀ {i m : ℕ}, i ∈ bitmapBlocks m → i < (m + 32767) / 32768 := fun h => List.mem_range.mp h
  refine ⟨by rw [hg.inodeSize]; decide, by rw [hg.inodeSize]; decide, fun i hi j hj => ?_,
    fun i hi h => ?_, fun j hj h => ?_, fun h => ?_, ⟨by omega, by omega⟩, by rw [hg.inodeSize]; omega⟩
  · have := hmem hi
    omega
  · have := hmem hi
    have := hg.table h
    omega
  · have := hmem hj
    have := hg.table h
    omega
  · obtain ⟨n, hn, h0⟩ := h
    rw [Geom.inodeBlock, hg.inodeSize] at h0
    omega

theorem Geom.Apart.records (ha : g.Apart) (hne : k ≠ n) (hblk : g.inodeBlock k = g.inodeBlock n) :
    g.inodeOff k + 224 ≤ g.inodeOff n ∨ g.inodeOff n + 224 ≤ g.inodeOff k := by
  have hrec := ha.record
  unfold Geom.inodeBlock at hblk
  unfold Geom.inodeOff
  rcases Nat.lt_or_gt_of_ne hne with hlt | hlt
  · have hmul := Nat.mul_le_mul_right g.inodeSize (Nat.succ_le_of_lt hlt)
    rw [Nat.succ_mul] at hmul
    omega
  · have hmul := Nat.mul_le_mul_right g.inodeSize (Nat.succ_le_of_lt hlt)
    rw [Nat.succ_mul] at hmul
    omega

theorem idle_ino (hs : s.Idle g) (hn : n < g.totalInodes) :
    s.vol.ino n = (s.disk (g.inodeBlock n)).sub (g.inodeOff n) := by
  rw [← hs.geom] at hn ⊢
  change (if n < s.fs.totalInodes then (s.view _).sub _ else _) = _
  rw [if_pos hn, hs.view_eq]

/-- Writing one inode leaves the others as they are. -/
theorem writeDinode_idle (ha : g.Apart) (hs : s.Idle g) (hw : s.WritesOk) (hn : g.InTable n) (d : DInode) :
    ∃ s', (writeDinode n d).run s = (some (), s') ∧ Confined g g.TableBlock s s' ∧
      ∀ k, k ≠ n → k < g.totalInodes → s'.vol.ino k = s.vol.ino k := by
  have hconf : Confined g g.TableBlock s ((writeDinode n d).run s).2 :=
    Confines.writeDinode d (fun h => ⟨n, h, rfl⟩) s hs
  have hn' : n ≠ 0 ∧ n < s.fs.totalInodes := by
    rw [show s.fs.totalInodes = g.totalInodes from congrArg Geom.totalInodes hs.geom]
    exact hn
  have hrun : (writeDinode n d).run s = (some (), { s with
      disk := update s.disk (g.inodeBlock n)
        ((s.disk (g.inodeBlock n)).paste (g.inodeOff n) (stamp s.fs.flags d)) }) := by
    rw [writeDinode, bind_of_some (getFs_run s), bind_of_some (ensure_pos hn' s),
      bind_of_some (bdReadBlock_run hs.reads _), bdWriteBlock_eq,
      if_neg (by rw [hs.idle]; exact Bool.false_ne_true), rawWriteBlock_ok _ _ hw, hs.view_eq,
      hs.geom]
  rw [hrun] at hconf
  refine ⟨_, hrun, hconf, fun k hk hlt => ?_⟩
  rw [idle_ino hconf.toIdle hlt, idle_ino hs hlt]
  by_cases hblk : g.inodeBlock k = g.inodeBlock n
  · change (update s.disk _ _ (g.inodeBlock k)).sub _ = _
    rw [hblk, update_self, sub_paste_ne _ _ (ha.records hk hblk)]
  · exact congrArg (fun b : Block => b.sub (g.inodeOff k)) (update_of_ne hblk _ _)

/-- What one inode adds to the counters. -/
def linkStep (repair : Bool) (flags : ℕ) (ino : ℕ → DInode) (w : Fsck) (n : ℕ) : Fsck :=
  let w := w.access (n < CFS_FSCK_MAX_INODES)
  if w.ibm n = false then w
  else
    let w := if (ino n).links ≠ w.refs n then w.count fun r => { r with linkcountBad := r.linkcountBad + 1 } else w
    if csumWrong flags (fixLinks repair (w.refs n) (ino n)) then w.count fun r =>
      { r with inodeCsumBad := r.inodeCsumBad + 1 }
    else w

theorem foldl_linkStep_congr (repair : Bool) (flags : ℕ) (h : ∀ n ∈ ns, ino n = ino' n) (w : Fsck) :
    ns.foldl (linkStep repair flags ino) w = ns.foldl (linkStep repair flags ino') w := by
  refine List.foldl_ext _ _ _ fun w n hn => ?_
  unfold linkStep
  rw [h n hn]

/-- One round of the loop over the inodes. -/
theorem fsckLinks_cons (ha : g.Apart) (hs : s.Idle g) (hw : s.WritesOk) (repair : Bool) (hn : g.InTable n) (w : Fsck) :
    ∃ s', (fsckLinks repair (n :: ns) w).run s = (fsckLinks repair ns (linkStep repair g.flags s.vol.ino w n)).run s' ∧
      Confined g g.TableBlock s s' ∧ ∀ k, k ≠ n → k < g.totalInodes → s'.vol.ino k = s.vol.ino k := by
  have hflags : s.fs.flags = g.flags := congrArg Geom.flags hs.geom
  have hstay : ∀ x : Fsck, ∃ s', (fsckLinks repair ns x).run s = (fsckLinks repair ns x).run s' ∧
      Confined g g.TableBlock s s' ∧ ∀ k, k ≠ n → k < g.totalInodes → s'.vol.ino k = s.vol.ino k :=
    fun x => ⟨s, rfl, .refl hs, fun _ _ _ => rfl⟩
  unfold linkStep
  rw [fsckLinks]
  dsimp only
  generalize w.access (n < CFS_FSCK_MAX_INODES) = w₁
  by_cases hibm : w₁.ibm n = false
  · rw [if_pos hibm, if_pos hibm]
    exact hstay w₁
  rw [if_neg hibm, if_neg hibm, bind_of_some (attempt_some (readDinode_run hs.toMounted hn))]
  dsimp only
  rw [bind_of_some (getFs_run s), hflags]
  generalize (if (s.vol.ino n).links ≠ w₁.refs n then _ else w₁ : Fsck) = w₂
  generalize (if csumWrong g.flags (fixLinks repair (w₂.refs n) (s.vol.ino n)) = true then _ else w₂ : Fsck) = w₃
  split
  · obtain ⟨s', hrun, hconf, hino⟩ := writeDinode_idle ha hs hw hn (fixLinks repair (w₂.refs n) (s.vol.ino n))
    rw [bind_of_some (attempt_some hrun)]
    exact ⟨s', rfl, hconf, hino⟩
  · exact hstay w₃

theorem fsckLinks_run (ha : g.Apart) (hs : s.Idle g) (hw : s.WritesOk) (repair : Bool) (hnd : ns.Nodup)
    (hns : ∀ n ∈ ns, g.InTable n) (w : Fsck) : ∃ s', (fsckLinks repair ns w).run s =
      (some (ns.foldl (linkStep repair g.flags s.vol.ino) w), s') ∧ Confined g g.TableBlock s s' := by
  induction ns generalizing s w with
  | nil => exact ⟨s, rfl, .refl hs⟩
  | cons n ns ih =>
    obtain ⟨hn, hnd⟩ := List.nodup_cons.mp hnd
    obtain ⟨s₁, hrun₁, hconf₁, hino⟩ := @fsckLinks_cons g s n ns ha hs hw repair (hns n List.mem_cons_self) w
    obtain ⟨s₂, hrun₂, hconf₂⟩ := ih hconf₁.toIdle (hconf₁.writes hw) hnd
      (fun k hk => hns k (List.mem_cons_of_mem _ hk))
      (linkStep repair g.flags s.vol.ino w n)
    refine ⟨s₂, ?_, hconf₁.trans hconf₂⟩
    rw [hrun₁, hrun₂, List.foldl_cons]
    refine congrArg (fun x => (some x, s₂)) (foldl_linkStep_congr _ _ (fun k hk => hino k ?_ ?_) _)
    · exact fun h => hn (h ▸ hk)
    · exact (hns k (List.mem_cons_of_mem _ hk)).2

def superStep (repair : Bool) (flags fb fi : ℕ) (sb : Block) (w : Fsck) : Fsck :=
  let w := if Super.freeBlocks sb ≠ fb || Super.freeInodes sb ≠ fi then
      w.count fun r => { r with freecountBad := r.freecountBad + 1 } else w
  if superWrong flags (fixFree repair fb fi sb) then w.count fun r => { r with sbCsumBad := r.sbCsumBad + 1 } else w

theorem fsckSuper_run (hs : s.Idle g) (repair : Bool) (fb fi : ℕ) (w : Fsck) :
    ∃ s', (fsckSuper repair fb fi w).run s = (some (superStep repair g.flags fb fi (s.disk 0) w), s') := by
  have hflags : s.fs.flags = g.flags := congrArg Geom.flags hs.geom
  unfold superStep
  rw [fsckSuper, bind_of_some (attempt_some (rawReadBlock_ok 0 hs.reads))]
  dsimp only
  rw [bind_of_some (getFs_run s), hflags]
  generalize (if (decide (Super.freeBlocks (s.disk 0) ≠ fb) || decide
    (Super.freeInodes (s.disk 0) ≠ fi)) = true then _ else w : Fsck) = w₁
  generalize (if superWrong g.flags (fixFree repair fb fi (s.disk 0)) = true then _ else w₁ : Fsck) = w₂
  split
  · rw [bind_of_some (attempt_run _ s), bind_of_some (setCounts_run _ _), pure_run]
    exact ⟨_, rfl⟩
  · exact ⟨s, rfl⟩

theorem all_range_lt {n m : ℕ} (h : n ≤ m) : ((List.range n).all (· < m)) = true :=
  List.all_eq_true.mpr fun _ hi => decide_eq_true (Nat.lt_of_lt_of_le (List.mem_range.mp hi) h)

/-- The working sets after the comparison of a volume with inodes `ino` on the disk `V`. -/
def compared (repair : Bool) (g : Geom) (ino : ℕ → DInode) (V : ℕ → Block) (w : Fsck) : Fsck :=
  let w := comparedBits (w.blockCheck g) V (bitmapBlocks g.totalBlocks) w
  let w := w.access ((List.range g.totalBlocks).all (· < CFS_FSCK_MAX_BLOCKS))
  let w := comparedBits (w.inodeCheck g) V (bitmapBlocks g.totalInodes) w
  let w := w.access ((List.range g.totalInodes).all (· < CFS_FSCK_MAX_INODES))
  let w := (List.range' 1 (g.totalInodes - 1)).foldl (linkStep repair g.flags ino) w
  let w := superStep repair g.flags (g.totalBlocks - w.usedBlocks g) (g.totalInodes - w.usedInodes g) (V 0) w
  w.count fun r => { r with total := r.sum }

theorem comparedBits_congr {c : BitmapCheck} {V' : ℕ → Block} {bbs : List ℕ}
    (h : ∀ bb ∈ bbs, V (c.region + bb) = V' (c.region + bb))
    (w : Fsck) : comparedBits c V bbs w = comparedBits c V' bbs w := by
  unfold comparedBits
  refine List.foldl_ext _ _ _ fun w bb hbb => ?_
  rw [h bb hbb]

/-- Whatever is repaired, the comparison counts what was there before. -/
theorem fsckCompare_run (ha : g.Apart) (hs : s.Idle g) (hw : s.WritesOk) (repair : Bool) (w : Fsck) :
    ∃ s', (fsckCompare repair w).run s = (some (compared repair g s.vol.ino s.disk w), s') := by
  rw [fsckCompare, bind_of_some (getFs_run s), show s.fs.totalBlocks = g.totalBlocks from congrArg
    Geom.totalBlocks hs.geom,
    show s.fs.totalInodes = g.totalInodes from congrArg Geom.totalInodes hs.geom, hs.geom]
  unfold compared
  obtain ⟨s₁, hrun₁, hconf₁, -, -⟩ := fsckBitmap_run hs hw (w.blockCheck g) repair
    (show (bitmapBlocks g.totalBlocks).Nodup from List.nodup_range) w
  rw [bind_of_some hrun₁]
  dsimp only
  generalize (comparedBits (w.blockCheck g) s.disk (bitmapBlocks g.totalBlocks) w).access
    ((List.range g.totalBlocks).all (· < CFS_FSCK_MAX_BLOCKS)) = w₁
  obtain ⟨s₂, hrun₂, hconf₂, -, -⟩ := fsckBitmap_run hconf₁.toIdle (hconf₁.writes hw) (w₁.inodeCheck g) repair
    (show (bitmapBlocks g.totalInodes).Nodup from List.nodup_range) w₁
  have hinodes : comparedBits (w₁.inodeCheck g) s₁.disk (bitmapBlocks g.totalInodes) w₁ =
      comparedBits (w₁.inodeCheck g) s.disk (bitmapBlocks g.totalInodes) w₁ := by
    refine comparedBits_congr (fun bb hbb => hconf₁.disk _ ?_) w₁
    rintro ⟨i, hi, heq⟩
    exact ha.bitmaps i hi bb hbb heq.symm
  rw [bind_of_some hrun₂, hinodes]
  generalize (comparedBits (w₁.inodeCheck g) s.disk (bitmapBlocks g.totalInodes) w₁).access
    ((List.range g.totalInodes).all (· < CFS_FSCK_MAX_INODES)) = w₂
  -- the bitmaps that have been written are neither the inode table nor the superblock
  have hkeep : ∀ b, g.Table b → s₂.disk b = s.disk b := fun b hb => by
    rw [hconf₂.disk b, hconf₁.disk b]
    · rintro ⟨i, hi, rfl⟩
      exact ha.blocks i hi hb
    · rintro ⟨j, hj, rfl⟩
      exact ha.inodes j hj hb
  have hino : ∀ n, n < g.totalInodes → s₂.vol.ino n = s.vol.ino n := fun n hn => by
    rw [idle_ino hconf₂.toIdle hn, idle_ino hs hn, hkeep _ (Or.inr ⟨n, hn, rfl⟩)]
  have hrange : ∀ n ∈ List.range' 1 (g.totalInodes - 1), g.InTable n := fun n hn => by
    have := List.mem_range'_1.mp hn
    exact ⟨by omega, by omega⟩
  obtain ⟨s₃, hrun₃, hconf₃⟩ := fsckLinks_run ha hconf₂.toIdle (hconf₂.writes (hconf₁.writes hw))
    repair List.nodup_range'
    hrange w₂
  rw [foldl_linkStep_congr repair g.flags fun n hn => hino n (hrange n hn).2] at hrun₃
  rw [bind_of_some hrun₃]
  generalize (List.range' 1 (g.totalInodes - 1)).foldl (linkStep repair g.flags s.vol.ino) w₂ = w₃
  obtain ⟨s₄, hrun₄⟩ := fsckSuper_run hconf₃.toIdle repair (g.totalBlocks - w₃.usedBlocks g)
    (g.totalInodes - w₃.usedInodes g) w₃
  rw [hconf₃.disk 0 ha.super, hkeep 0 (Or.inl rfl)] at hrun₄
  rw [bind_of_some hrun₄, pure_run]
  exact ⟨s₄, rfl⟩

def csumCounted (repair : Bool) (flags : ℕ) (ino : ℕ → DInode) (ibm : ℕ → Bool) (refs : ℕ → ℕ) (n : ℕ) : Bool :=
  ibm n && csumWrong flags (fixLinks repair (refs n) (ino n))

theorem linkStep_spec (repair : Bool) (flags : ℕ) (ino : ℕ → DInode) (w : Fsck) (n : ℕ) :
    (linkStep repair flags ino w n).bbm = w.bbm ∧ (linkStep repair flags ino w n).ibm = w.ibm ∧
    (linkStep repair flags ino w n).refs = w.refs ∧ (linkStep repair flags ino w n).out = { w.out with
      linkcountBad := w.out.linkcountBad + (if w.ibm n && (ino n).links != w.refs n then 1 else 0)
      inodeCsumBad := w.out.inodeCsumBad + (if csumCounted repair flags ino w.ibm w.refs n then 1 else 0) } := by
  unfold linkStep csumCounted
  dsimp only
  cases hibm : w.ibm n with
  | false => simp [Fsck.access, hibm]
  | true =>
    by_cases hlinks : (ino n).links = w.refs n
    · cases hcsum : csumWrong flags (fixLinks repair (w.refs n) (ino n)) <;>
        simp [Fsck.access, Fsck.count, hibm, hlinks, hcsum]
    · cases hcsum : csumWrong flags (fixLinks repair (w.refs n) (ino n)) <;>
        simp [Fsck.access, Fsck.count, hibm, hlinks, hcsum]

theorem foldl_linkStep (repair : Bool) (flags : ℕ) (ino : ℕ → DInode) (ns : List ℕ) (w : Fsck) :
    (ns.foldl (linkStep repair flags ino) w).bbm = w.bbm ∧ (ns.foldl (linkStep repair flags ino) w).ibm = w.ibm ∧
    (ns.foldl (linkStep repair flags ino) w).out = { w.out with
      linkcountBad := w.out.linkcountBad + ns.countP (fun n => w.ibm n && (ino n).links != w.refs n)
      inodeCsumBad := w.out.inodeCsumBad + ns.countP (csumCounted repair flags ino w.ibm w.refs) } := by
  induction ns generalizing w with
  | nil => exact ⟨rfl, rfl, rfl⟩
  | cons n ns ih =>
    obtain ⟨hbbm, hibm, hrefs, hout⟩ := linkStep_spec repair flags ino w n
    obtain ⟨ihbbm, ihibm, ihout⟩ := ih (linkStep repair flags ino w n)
    rw [List.foldl_cons]
    refine ⟨ihbbm.trans hbbm, ihibm.trans hibm, ?_⟩
    rw [ihout, hout, hibm, hrefs, List.countP_cons, List.countP_cons]
    simp only [FsckResult.mk.injEq, true_and, and_true]
    exact ⟨by omega, by omega⟩

theorem superStep_out (repair : Bool) (flags fb fi : ℕ) (sb : Block) (w : Fsck) :
    (superStep repair flags fb fi sb w).out = { w.out with
      freecountBad := w.out.freecountBad + (if Super.freeBlocks sb ≠ fb || Super.freeInodes sb ≠ fi then 1 else 0)
      sbCsumBad := w.out.sbCsumBad + (if superWrong flags (fixFree repair fb fi sb) then 1 else 0) } := by
  unfold superStep
  split <;> cases superWrong flags (fixFree repair fb fi sb) <;> simp [Fsck.count]

/-- A result with the counters of the inodes and the superblock added, and its total. -/
def FsckResult.tally (r : FsckResult) (links csums free super : ℕ) : FsckResult :=
  let r := { r with
    linkcountBad := r.linkcountBad + links
    inodeCsumBad := r.inodeCsumBad + csums
    freecountBad := r.freecountBad + free
    sbCsumBad := r.sbCsumBad + super }
  { r with total := r.sum }

theorem FsckResult.tally_inj (r : FsckResult) {links csums csums' free super super' : ℕ} :
    r.tally links csums free super = r.tally links csums' free super' ↔ csums = csums' ∧ super = super' := by
  constructor
  · intro h
    have hcsums : r.inodeCsumBad + csums = r.inodeCsumBad + csums' := congrArg FsckResult.inodeCsumBad h
    have hsuper : r.sbCsumBad + super = r.sbCsumBad + super' := congrArg FsckResult.sbCsumBad h
    exact ⟨Nat.add_left_cancel hcsums, Nat.add_left_cancel hsuper⟩
  · rintro ⟨rfl, rfl⟩
    rfl

theorem fixFree_false (fb fi : ℕ) (sb : Block) : fixFree false fb fi sb = sb := if_neg fun h => Bool.false_ne_true h.2

theorem fixLinks_false (refs : ℕ) (d : DInode) : fixLinks false refs d = d := if_neg fun h => Bool.false_ne_true h.2

/-- The checksums that count as wrong are as many with and without repair. -/
def EvenCounts (g : Geom) (ino : ℕ → DInode) (sb : Block) (w : Fsck) : Prop :=
  (List.range' 1 (g.totalInodes - 1)).countP (csumCounted true g.flags ino w.ibm w.refs) =
    (List.range' 1 (g.totalInodes - 1)).countP (csumCounted false g.flags ino w.ibm w.refs) ∧
  superWrong g.flags (fixFree true (g.totalBlocks - w.usedBlocks g) (g.totalInodes - w.usedInodes g)
    sb) = superWrong g.flags sb

/-- The result of the comparison: the bitmaps have been counted in a result that does not depend on
the flag, and the other counters are numbers of inodes and of superblocks. -/
theorem compared_tally (hg : g.Capped) (ino : ℕ → DInode) (V : ℕ → Block) (w : Fsck) :
    ∃ r : FsckResult, ∀ repair, (compared repair g ino V w).out = r.tally
      ((List.range' 1 (g.totalInodes - 1)).countP fun n => w.ibm n && (ino n).links != w.refs n)
      ((List.range' 1 (g.totalInodes - 1)).countP (csumCounted repair g.flags ino w.ibm w.refs))
      (if Super.freeBlocks (V 0) ≠ g.totalBlocks - w.usedBlocks g || Super.freeInodes (V 0) ≠
      g.totalInodes - w.usedInodes g
        then 1 else 0)
      (if superWrong g.flags (fixFree repair (g.totalBlocks - w.usedBlocks g) (g.totalInodes - w.usedInodes g) (V 0))
        then 1 else 0) := by
  -- up to the loop over the inodes the repair flag does not matter
  obtain ⟨w₂, hsets, hcomp⟩ : ∃ w₂, SameSets w w₂ ∧ ∀ repair, compared repair g ino V w =
      (superStep repair g.flags
        (g.totalBlocks - ((List.range' 1 (g.totalInodes - 1)).foldl (linkStep repair g.flags ino) w₂).usedBlocks g)
        (g.totalInodes - ((List.range' 1 (g.totalInodes - 1)).foldl (linkStep repair g.flags ino)
        w₂).usedInodes g) (V 0)
        ((List.range' 1 (g.totalInodes - 1)).foldl (linkStep repair g.flags ino) w₂)).count
          fun r => { r with total := r.sum } := by
    refine ⟨_, ?_, fun repair => rfl⟩
    refine SameSets.trans ?_ (.access _ (all_range_lt hg.2))
    refine SameSets.trans ?_ (comparedBits_sets (inodeCheck_inArray hg _) V _ _)
    exact (comparedBits_sets (blockCheck_inArray hg w) V _ w).trans (.access _ (all_range_lt hg.1))
  have hused : ∀ repair, ((List.range' 1 (g.totalInodes - 1)).foldl (linkStep repair g.flags ino) w₂).usedBlocks g =
      w.usedBlocks g ∧ ((List.range' 1 (g.totalInodes - 1)).foldl (linkStep repair g.flags ino) w₂).usedInodes g =
      w.usedInodes g := fun repair => by
    obtain ⟨hbbm, hibm, -⟩ := foldl_linkStep repair g.flags ino (List.range' 1 (g.totalInodes - 1)) w₂
    rw [Fsck.usedBlocks, Fsck.usedBlocks, Fsck.usedInodes, Fsck.usedInodes, hbbm, hibm, hsets.bbm, hsets.ibm]
    exact ⟨rfl, rfl⟩
  refine ⟨w₂.out, fun repair => ?_⟩
  have hlinks := (foldl_linkStep repair g.flags ino (List.range' 1 (g.totalInodes - 1)) w₂).2.2
  have hsuper := superStep_out repair g.flags (g.totalBlocks - w.usedBlocks g) (g.totalInodes - w.usedInodes g) (V 0)
    ((List.range' 1 (g.totalInodes - 1)).foldl (linkStep repair g.flags ino) w₂)
  rw [hlinks, hsets.ibm, hsets.refs] at hsuper
  rw [hcomp repair, (hused repair).1, (hused repair).2]
  exact congrArg (fun r : FsckResult => { r with total := r.sum }) hsuper

theorem compared_out (hg : g.Capped) (ino : ℕ → DInode) (V : ℕ → Block) (w : Fsck) :
    (compared true g ino V w).out = (compared false g ino V w).out ↔ EvenCounts g ino (V 0) w := by
  obtain ⟨r, hout⟩ := compared_tally hg ino V w
  have hsame : ∀ a b : Bool, (if a = true then 1 else 0) = (if b = true then 1 else 0) ↔ a = b := by decide
  rw [hout true, hout false, FsckResult.tally_inj, hsame, fixFree_false, EvenCounts]

/-- Everything on disk is as the working sets ask for. -/
structure Settled (g : Geom) (ino : ℕ → DInode) (V : ℕ → Block) (w : Fsck) : Prop where
  blocks : ∀ bb ∈ bitmapBlocks g.totalBlocks, ∀ i < 32768,
    (w.blockCheck g).want (bb * 32768 + i) = (V (g.blockBitmapStart + bb)).bit i
  inodes : ∀ bb ∈ bitmapBlocks g.totalInodes, ∀ i < 32768,
    (w.inodeCheck g).want (bb * 32768 + i) = (V (g.inodeBitmapStart + bb)).bit i
  links : ∀ n, g.InTable n → w.ibm n = true → (ino n).links = w.refs n ∧ csumWrong g.flags (ino n) = false
  free : Super.freeBlocks (V 0) = g.totalBlocks - w.usedBlocks g ∧
    Super.freeInodes (V 0) = g.totalInodes - w.usedInodes g
  super : superWrong g.flags (V 0) = false

/-- Bits that are as they should be leave the block as it is. -/
theorem foldl_fsckBit_still (c : BitmapCheck) (repair : Bool) (base : ℕ) {l : List ℕ} {x : Block × Bool × Fsck}
    (h : ∀ i ∈ l, c.want (base + i) = x.1.bit i) : (l.foldl (fsckBit c repair base) x).2.1 = x.2.1 := by
  induction l generalizing x with
  | nil => rfl
  | cons j l ih =>
    have hj : (repair && c.want (base + j) != x.1.bit j) = false := by
      rw [h j List.mem_cons_self, bne_self_eq_false, Bool.and_false]
    obtain ⟨hblk, hdirty⟩ := fsckBit_block c repair base x j
    rw [hj] at hblk hdirty
    rw [List.foldl_cons, ih fun i hi => ?_, hdirty, Bool.or_false]
    rw [hblk]
    exact h i (List.mem_cons_of_mem _ hi)

theorem fsckBits_still (c : BitmapCheck) (repair : Bool) {base : ℕ} {buf : Block}
    (h : ∀ i < 32768, c.want (base + i) = buf.bit i) (w : Fsck) : (fsckBits c repair base buf w).2.1 = false :=
  foldl_fsckBit_still c repair base (x := (buf, false, w)) fun i hi => h i (blockBits_lt i hi)

theorem fsckBitmap_settled (hs : s.Idle g) (c : BitmapCheck) (repair : Bool) {bbs : List ℕ}
    (h : repair = true → ∀ bb ∈ bbs, ∀ i < 32768, c.want (bb * 32768 + i) = (s.disk (c.region + bb)).bit i) (w : Fsck) :
    (fsckBitmap c repair bbs w).run s = (some (comparedBits c s.disk bbs w), s) := by
  induction bbs generalizing w with
  | nil => rfl
  | cons bb bbs ih =>
    obtain ⟨x, hx⟩ : ∃ x, fsckBits c repair (bb * 32768) (s.disk (c.region + bb)) w = x := ⟨_, rfl⟩
    have hcount : x.2.2 = (fsckBits c false (bb * 32768) (s.disk (c.region + bb)) w).2.2 :=
      hx ▸ fsckBits_count c repair _ _ w
    have hstill : repair = true → x.2.1 = false := fun hr => hx ▸ fsckBits_still c repair (h hr bb List.mem_cons_self) w
    have hclean : (repair && x.2.1) = false := Bool.and_eq_false_imp.mpr hstill
    rw [fsckBitmap_read (rawReadBlock_ok _ hs.reads) hx, hclean, if_neg Bool.false_ne_true,
      ih (fun hr b hb => h hr b (List.mem_cons_of_mem _ hb)), hcount, comparedBits, comparedBits, List.foldl_cons]

theorem fsckLinks_settled (hcap : g.Capped) (hs : s.Idle g) (hns : ∀ n ∈ ns, g.InTable n) (w : Fsck)
    (h : ∀ n ∈ ns, w.ibm n = true → (s.vol.ino n).links = w.refs n ∧ csumWrong g.flags (s.vol.ino n) = false) :
    ∃ w', SameSets w w' ∧ ∀ repair, (fsckLinks repair ns w).run s = (some w', s) := by
  induction ns generalizing w with
  | nil => exact ⟨w, .refl w, fun _ => rfl⟩
  | cons n ns ih =>
    obtain ⟨w', hsets, hrun⟩ := ih (fun k hk => hns k (List.mem_cons_of_mem _ hk)) (w.access (n < CFS_FSCK_MAX_INODES))
      fun k hk => h k (List.mem_cons_of_mem _ hk)
    have hin : decide (n < CFS_FSCK_MAX_INODES) = true :=
      decide_eq_true (Nat.lt_of_lt_of_le (hns n List.mem_cons_self).2 hcap.2)
    refine ⟨w', (SameSets.access w hin).trans hsets, fun repair => ?_⟩
    rw [fsckLinks]
    dsimp only
    by_cases hibm : (w.access (n < CFS_FSCK_MAX_INODES)).ibm n = false
    · rw [if_pos hibm]
      exact hrun repair
    · obtain ⟨hlinks, hcsum⟩ := h n List.mem_cons_self (Bool.not_eq_false _ ▸ hibm)
      have hfix : fixLinks repair (w.refs n) (s.vol.ino n) = s.vol.ino n := if_neg fun hne => hne.1 hlinks
      have hrefs : (w.access (n < CFS_FSCK_MAX_INODES)).refs n = w.refs n := rfl
      rw [if_neg hibm, bind_of_some (attempt_some (readDinode_run hs.toMounted (hns n List.mem_cons_self)))]
      dsimp only
      rw [bind_of_some (getFs_run s), show s.fs.flags = g.flags from congrArg Geom.flags hs.geom,
        hrefs, if_neg (not_not.mpr hlinks), hrefs, hfix, hcsum]
      simpa [hlinks, hrefs] using hrun repair

theorem fsckSuper_settled (hs : s.Idle g) {fb fi : ℕ} (hfree : Super.freeBlocks (s.disk 0) = fb ∧
    Super.freeInodes (s.disk 0) = fi)
    (hcsum : superWrong g.flags (s.disk 0) = false) (w : Fsck) :
    (fsckSuper true fb fi w).run s = (fsckSuper false fb fi w).run s := by
  have hfix : ∀ repair, fixFree repair fb fi (s.disk 0) = s.disk 0 := fun repair =>
    if_neg fun hne => hne.1.elim (fun h => h hfree.1) fun h => h hfree.2
  have hread := attempt_some (rawReadBlock_ok 0 hs.reads)
  rw [fsckSuper, fsckSuper, bind_of_some hread, bind_of_some hread]
  dsimp only
  rw [bind_of_some (getFs_run s), bind_of_some (getFs_run s),
    show s.fs.flags = g.flags from congrArg Geom.flags hs.geom, hfix, hfix, hcsum]
  simp [hfree]

/-- Where there is nothing to repair, the two runs are the same, whatever the layout. -/
theorem fsckCompare_settled (hcap : g.Capped) (hs : s.Idle g) (h : Settled g s.vol.ino s.disk w) :
    (fsckCompare true w).run s = (fsckCompare false w).run s := by
  rw [fsckCompare, fsckCompare, bind_of_some (getFs_run s), bind_of_some (getFs_run s),
    show s.fs.totalBlocks = g.totalBlocks from congrArg Geom.totalBlocks hs.geom,
    show s.fs.totalInodes = g.totalInodes from congrArg Geom.totalInodes hs.geom, hs.geom,
    bind_of_some (fsckBitmap_settled hs (w.blockCheck g) true (fun _ => h.blocks) w),
    bind_of_some (fsckBitmap_settled hs (w.blockCheck g) false (fun _ => h.blocks) w)]
  dsimp only
  have h₁ := (comparedBits_sets (blockCheck_inArray hcap w) s.disk (bitmapBlocks g.totalBlocks) w).trans
    (.access _ (all_range_lt hcap.1))
  generalize (comparedBits (w.blockCheck g) s.disk (bitmapBlocks g.totalBlocks) w).access
    ((List.range g.totalBlocks).all (· < CFS_FSCK_MAX_BLOCKS)) = w₁ at h₁ ⊢
  have hinodes : ∀ bb ∈ bitmapBlocks g.totalInodes, ∀ i < 32768,
      (w₁.inodeCheck g).want (bb * 32768 + i) = (s.disk (g.inodeBitmapStart + bb)).bit i := fun bb hbb i hi => by
    rw [← h.inodes bb hbb i hi, Fsck.inodeCheck, Fsck.inodeCheck, h₁.ibm]
  rw [bind_of_some (fsckBitmap_settled hs (w₁.inodeCheck g) true (fun _ => hinodes) w₁),
    bind_of_some (fsckBitmap_settled hs (w₁.inodeCheck g) false (fun _ => hinodes) w₁)]
  have h₂ := h₁.trans ((comparedBits_sets (inodeCheck_inArray hcap w₁) s.disk
    (bitmapBlocks g.totalInodes) w₁).trans (.access _ (all_range_lt hcap.2)))
  generalize (comparedBits (w₁.inodeCheck g) s.disk (bitmapBlocks g.totalInodes) w₁).access
    ((List.range g.totalInodes).all (· < CFS_FSCK_MAX_INODES)) = w₂ at h₂ ⊢
  have hrange : ∀ n ∈ List.range' 1 (g.totalInodes - 1), g.InTable n := fun n hn => by
    have := List.mem_range'_1.mp hn
    exact ⟨by omega, by omega⟩
  obtain ⟨w₃, h₃, hrun⟩ := fsckLinks_settled hcap hs hrange w₂ fun n hn hibm => by
    rw [h₂.refs]
    exact h.links n (hrange n hn) (h₂.ibm ▸ hibm)
  rw [bind_of_some (hrun true), bind_of_some (hrun false)]
  have hfree : Super.freeBlocks (s.disk 0) = g.totalBlocks - w₃.usedBlocks g ∧
      Super.freeInodes (s.disk 0) = g.totalInodes - w₃.usedInodes g := by
    rw [Fsck.usedBlocks, Fsck.usedInodes, h₃.bbm, h₃.ibm, h₂.bbm, h₂.ibm]
    exact h.free
  rw [bind_run, bind_run, fsckSuper_settled hs hfree h.super w₃]

theorem fsckLinks_check (hs : s.Idle g) (hns : ∀ n ∈ ns, g.InTable n) (w : Fsck) :
    (fsckLinks false ns w).run s = (some (ns.foldl (linkStep false g.flags s.vol.ino) w), s) := by
  induction ns generalizing w with
  | nil => rfl
  | cons n ns ih =>
    have ih' := ih fun k hk => hns k (List.mem_cons_of_mem _ hk)
    rw [fsckLinks, List.foldl_cons]
    unfold linkStep at ih' ⊢
    dsimp only
    generalize w.access (n < CFS_FSCK_MAX_INODES) = w₁
    by_cases hibm : w₁.ibm n = false
    · rw [if_pos hibm, if_pos hibm]
      exact ih' w₁
    · rw [if_neg hibm, if_neg hibm, bind_of_some
        (attempt_some (readDinode_run hs.toMounted (hns n List.mem_cons_self)))]
      dsimp only
      rw [bind_of_some (getFs_run s), show s.fs.flags = g.flags from congrArg Geom.flags hs.geom,
        Bool.false_and, if_neg Bool.false_ne_true]
      exact ih' _

/-- Without repair nothing is written that is read again, whatever the layout. -/
theorem fsckCompare_check (hs : s.Idle g) (w : Fsck) :
    ∃ s', (fsckCompare false w).run s = (some (compared false g s.vol.ino s.disk w), s') := by
  rw [fsckCompare, bind_of_some (getFs_run s), show s.fs.totalBlocks = g.totalBlocks from congrArg
    Geom.totalBlocks hs.geom,
    show s.fs.totalInodes = g.totalInodes from congrArg Geom.totalInodes hs.geom, hs.geom]
  unfold compared
  rw [bind_of_some (fsckBitmap_settled hs (w.blockCheck g) false (fun h => absurd h Bool.false_ne_true) w)]
  dsimp only
  generalize (comparedBits (w.blockCheck g) s.disk (bitmapBlocks g.totalBlocks) w).access
    ((List.range g.totalBlocks).all (· < CFS_FSCK_MAX_BLOCKS)) = w₁
  rw [bind_of_some (fsckBitmap_settled hs (w₁.inodeCheck g) false (fun h => absurd h Bool.false_ne_true) w₁)]
  generalize (comparedBits (w₁.inodeCheck g) s.disk (bitmapBlocks g.totalInodes) w₁).access
    ((List.range g.totalInodes).all (· < CFS_FSCK_MAX_INODES)) = w₂
  rw [bind_of_some (fsckLinks_check hs (fun n hn => ?_) w₂)]
  · generalize (List.range' 1 (g.totalInodes - 1)).foldl (linkStep false g.flags s.vol.ino) w₂ = w₃
    obtain ⟨s', hrun⟩ := fsckSuper_run hs false (g.totalBlocks - w₃.usedBlocks g) (g.totalInodes - w₃.usedInodes g) w₃
    rw [bind_of_some hrun, pure_run]
    exact ⟨s', rfl⟩
  · have := List.mem_range'_1.mp hn
    exact ⟨by omega, by omega⟩

/-- What the walk from the root comes to. -/
def walkOf (g : Geom) (ino : ℕ → DInode) (V : ℕ → Block) : Branching.Walk ℕ :=
  ((entryTree g ino V).walk CFS_FSCK_MAX_STACK (g.totalInodes + 2) (Branching.start g.rootIno)).getD
    (Branching.start g.rootIno)

/-- The entries in the directories that the walk deals with. -/
def entriesRead (g : Geom) (ino : ℕ → DInode) (V : ℕ → Block) : List Ent :=
  ((walkOf g ino V).done.filter fun n => n = g.rootIno ∨ (ino n).isDir = true).flatMap
  (entriesOf g ino V)

/-- The working sets that belong to an image: the blocks below the data region and those that the
inodes dealt with cover, the inodes met, and for each inode the number of entries that name it, in
16 bits. -/
def setsOf (g : Geom) (ino : ℕ → DInode) (V : ℕ → Block) : Fsck where
  bbm b := b < g.dataStart ∨ ∃ n ∈ (walkOf g ino V).done, g.InTable n ∧ g.IsData b ∧
    b ∈ (ino n).blocks
  ibm := (walkOf g ino V).seen
  refs c := ((entriesRead g ino V).countP fun e => e.2 = c) % 2 ^ 16
  stack := []
  out := {}
  wild := false

theorem setsOf_ibm (g : Geom) (ino : ℕ → DInode) (V : ℕ → Block) : (setsOf g ino V).ibm = (walkOf g ino V).seen := rfl

theorem setsOf_refs (g : Geom) (ino : ℕ → DInode) (V : ℕ → Block) (c : ℕ) :
    (setsOf g ino V).refs c = ((entriesRead g ino V).countP fun e => e.2 = c) % 2 ^ 16 := rfl

/-- The marks and, for the inodes of the volume, the references are the same. -/
structure SameMarks (g : Geom) (w w' : Fsck) : Prop where
  bbm : w'.bbm = w.bbm
  ibm : w'.ibm = w.ibm
  refs : ∀ n, g.InTable n → w'.refs n = w.refs n

theorem SameMarks.used (h : SameMarks g w w') : w'.usedBlocks g = w.usedBlocks g ∧
    w'.usedInodes g = w.usedInodes g := by
  rw [Fsck.usedBlocks, Fsck.usedBlocks, Fsck.usedInodes, Fsck.usedInodes, h.bbm, h.ibm]
  exact ⟨rfl, rfl⟩

theorem SameMarks.evenCounts (h : SameMarks g w w') (sb : Block) : EvenCounts g ino sb w' ↔ EvenCounts g ino sb w := by
  have hcount : ∀ repair, (List.range' 1 (g.totalInodes - 1)).countP (csumCounted repair g.flags ino w'.ibm w'.refs) =
      (List.range' 1 (g.totalInodes - 1)).countP (csumCounted repair g.flags ino w.ibm w.refs) := fun repair => by
    refine List.countP_congr fun n hn => ?_
    have hmem := List.mem_range'_1.mp hn
    rw [csumCounted, csumCounted, h.ibm, h.refs n ⟨by omega, by omega⟩]
  rw [EvenCounts, EvenCounts, hcount, hcount, h.used.1, h.used.2]

theorem SameMarks.settled (h : SameMarks g w w') (hset : Settled g ino V w) : Settled g ino V w' where
  blocks bb hbb i hi := by
    rw [← hset.blocks bb hbb i hi, Fsck.blockCheck, Fsck.blockCheck, h.bbm]
  inodes bb hbb i hi := by
    rw [← hset.inodes bb hbb i hi, Fsck.inodeCheck, Fsck.inodeCheck, h.ibm]
  links n hn hibm := by
    rw [h.refs n hn]
    exact hset.links n hn (h.ibm ▸ hibm)
  free := by
    rw [h.used.1, h.used.2]
    exact hset.free
  super := hset.super

/-- The walk fills the working sets with what belongs to the image. -/
theorem Tracks.sameMarks {t : Branching.Walk ℕ} {es : List Ent} {X : Prop} (h : Tracks g ino X t es w) (hcap : g.Capped)
    (ht : (entryTree g ino V).walk CFS_FSCK_MAX_STACK (g.totalInodes + 2) (Branching.start g.rootIno) = some t)
    (hread : ReadUp g ino V g.rootIno t es) : SameMarks g (setsOf g ino V) w := by
  have hwalk : walkOf g ino V = t := by rw [walkOf, ht, Option.getD_some]
  refine ⟨?_, h.ibm.trans (congrArg Branching.Walk.seen hwalk).symm, fun n hn => ?_⟩
  · funext b
    rw [Bool.eq_iff_iff, h.bbm b, ← hwalk]
    exact decide_eq_true_iff.symm
  · rw [h.refs n (Nat.lt_of_lt_of_le hn.2 hcap.2)]
    exact congrArg (· % 2 ^ 16) ((hread.countP_eq _).trans (by rw [← hwalk, entriesRead]))

/-- Both runs of `cfs_fsck` on a volume that is not refused. -/
theorem fsck_runs (hs : s.Idle g) (hcap : g.Capped) : ∃ w w₁ w₂ s₁ s₂, SameMarks g (setsOf g s.vol.ino s.disk) w ∧
    (fsckCompare false w).run s = (some w₁, s₁) ∧ (fsckCompare true w).run s = (some w₂, s₂) ∧
    (cfsFsck false).run s = (some (some (w₁, (w₁.out.total : ℤ))), s₁) ∧
    (cfsFsck true).run s = (some (some (w₂, (w₂.out.total : ℤ))), s₂) := by
  obtain ⟨t, es, w, ht, hwalk, htr, hread⟩ := fsckWalk_tracks hs hcap
  have hrun : ∀ {repair v s'}, (fsckCompare repair w).run s = (some v, s') →
      (cfsFsck repair).run s = (some (some (v, (v.out.total : ℤ))), s') := fun {repair v s'} h => by
    rw [cfsFsck_capped hs.geom hcap, bind_of_some hwalk]
    dsimp only
    rw [bind_of_some h]
    rfl
  obtain ⟨w₁, s₁, hcmp₁, -, -⟩ := fsckCompare_sets hcap false w s hs.geom
  obtain ⟨w₂, s₂, hcmp₂, -, -⟩ := fsckCompare_sets hcap true w s hs.geom
  exact ⟨w, w₁, w₂, s₁, s₂, htr.sameMarks hcap ht hread, hcmp₁, hcmp₂, hrun hcmp₁, hrun hcmp₂⟩

theorem report_iff (hs : s.Idle g) (hw : s.WritesOk) (hcap : g.Capped) (ha : g.Apart) {w w₁ w₂ : Fsck} {s₁ s₂ : St}
    (hmarks : SameMarks g (setsOf g s.vol.ino s.disk) w) (h₁ : (fsckCompare false w).run s = (some w₁, s₁))
    (h₂ : (fsckCompare true w).run s = (some w₂, s₂)) :
    w₂.out = w₁.out ↔ EvenCounts g s.vol.ino (s.disk 0) (setsOf g s.vol.ino s.disk) := by
  obtain ⟨s₁', hcmp₁⟩ := fsckCompare_run ha hs hw false w
  obtain ⟨s₂', hcmp₂⟩ := fsckCompare_run ha hs hw true w
  obtain rfl : w₁ = _ := Option.some.inj (congrArg Prod.fst (h₁.symm.trans hcmp₁))
  obtain rfl : w₂ = _ := Option.some.inj (congrArg Prod.fst (h₂.symm.trans hcmp₂))
  rw [compared_out hcap, hmarks.evenCounts]

/-- A run with repair fills in the same report as one without, exactly when as many checksums count
as wrong before the link counts and the free counts are corrected as after. Where there is nothing
to repair it is the same on any layout. -/
theorem fsck_report (hs : s.Idle g) (hw : s.WritesOk) : ∃ w ret s₁ w' ret' s₂,
    (cfsFsck false).run s = (some (some (w, ret)), s₁) ∧ (cfsFsck true).run s = (some (some (w', ret')), s₂) ∧
    (g.Apart → (w'.out = w.out ∧ ret' = ret ↔
      ¬ g.Capped ∨ EvenCounts g s.vol.ino (s.disk 0) (setsOf g s.vol.ino s.disk))) ∧
    (Settled g s.vol.ino s.disk (setsOf g s.vol.ino s.disk) → w'.out = w.out ∧ ret' = ret) := by
  by_cases hcap : g.Capped
  swap
  · -- a volume that is too large is refused before anything is looked at
    have hsame : (cfsFsck true).run s = (cfsFsck false).run s := by
      have hbig := (not_capped_iff hs.geom).mpr hcap
      rw [cfsFsck, cfsFsck, bind_of_some (getFs_run s), bind_of_some (getFs_run s), if_pos hbig, if_pos hbig]
    obtain ⟨w, ret, hrun, -⟩ := cfsFsck_refused hs.geom hcap false
    exact ⟨w, ret, s, w, ret, s, hrun, hsame.trans hrun,
      fun _ => ⟨fun _ => Or.inl hcap, fun _ => ⟨rfl, rfl⟩⟩, fun _ => ⟨rfl, rfl⟩⟩
  obtain ⟨w, w₁, w₂, s₁, s₂, hmarks, hcmp₁, hcmp₂, hrun₁, hrun₂⟩ := fsck_runs hs hcap
  have hret : (w₂.out = w₁.out ∧ (w₂.out.total : ℤ) = w₁.out.total) ↔ w₂.out = w₁.out :=
    ⟨And.left, fun h => ⟨h, by rw [h]⟩⟩
  refine ⟨w₁, _, s₁, w₂, _, s₂, hrun₁, hrun₂, fun ha => ?_, fun hset => hret.mpr ?_⟩
  · rw [hret, report_iff hs hw hcap ha hmarks hcmp₁ hcmp₂, or_iff_right (not_not.mpr hcap)]
  · have hsame := fsckCompare_settled hcap hs (hmarks.settled hset)
    rw [hcmp₁, hcmp₂] at hsame
    exact congrArg Fsck.out (Option.some.inj (congrArg Prod.fst hsame))

/-- Correcting the link count of an inode with a right checksum makes the checksum stale. -/
theorem csumWrong_fixLinks {flags refs : ℕ} {d : DInode} (hflags : flags &&& CFS_FEAT_CSUM ≠ 0)
    (hd : d.csum = inodeCsum d)
    (hrefs : refs < 2 ^ 16) (hlinks : d.links ≠ refs) : csumWrong flags (fixLinks true refs d) = true := by
  rw [fixLinks, if_pos ⟨hlinks, rfl⟩]
  exact decide_eq_true ⟨hflags, inodeCsum_catches hd (damaged_setLinks hrefs hlinks)⟩

theorem start_seen_self (root : ℕ) : (Branching.start root).seen root = true := by
  simp [Branching.start]

theorem start_seen_ne {root : ℕ} (h : n ≠ root) : (Branching.start root).seen n = false := by
  simp [Branching.start, h]

/-- A walk that finds nothing in the root ends there. -/
theorem walkOf_leaf {root : ℕ} (hroot : g.rootIno = root) (hleaf : leadsTo g (entriesOf g ino V root) = []) :
    (walkOf g ino V).seen = (Branching.start root).seen ∧ (walkOf g ino V).done = [root] := by
  subst hroot
  have h : (entryTree g ino V).outs g.rootIno = [] := hleaf
  have hvisit : ∀ t, (entryTree g ino V).visit CFS_FSCK_MAX_STACK t g.rootIno =
    { t with done := g.rootIno :: t.done } :=
    fun t => by rw [Branching.visit, h, List.foldl_nil]
  have hwalk : (entryTree g ino V).walk CFS_FSCK_MAX_STACK (g.totalInodes + 2) (Branching.start g.rootIno) =
      some { (Branching.start g.rootIno) with stack := [], done := [g.rootIno] } := by
    rw [Branching.walk]
    dsimp only [Branching.start]
    rw [hvisit]
    rfl
  rw [walkOf, hwalk]
  exact ⟨rfl, rfl⟩

theorem entriesRead_leaf {root : ℕ} (hroot : g.rootIno = root) (hdone : (walkOf g ino V).done = [root]) :
    entriesRead g ino V = entriesOf g ino V root := by
  subst hroot
  simp [entriesRead, hdone]

/-- A volume with nothing in it but a root directory, whose record is `d`. -/
def rootVol (d : DInode) : Vol := (combVol combGeom 1).setIno 1 d

def rootState (d : DInode) : St := (rootVol d).mounted combGeom

theorem combOk_one : CombOk combGeom 1 :=
  ⟨combGeom_wf, rfl, by decide, by decide, by decide, by decide, by decide, by decide⟩

theorem rootState_idle (d : DInode) : (rootState d).Idle combGeom := Vol.mounted_idle _ _

theorem rootState_vol (d : DInode) : (rootState d).vol = rootVol d :=
  Vol.mounted_vol combGeom_wf ((combVol_within combOk_one).setIno (by decide) _)

theorem rootState_ino (d : DInode) : (rootState d).vol.ino 1 = d := by
  rw [rootState_vol]
  exact Vol.ino_setIno_same _ _ _

section Root

variable {d : DInode} (hlike : DInode.Alike ((combVol combGeom 1).ino 1) d)
include hlike

theorem rootState_entries : entriesOf combGeom (rootState d).vol.ino (rootState d).disk 1 = combEnts 1 1 := by
  have hlike' : DInode.Alike ((combVol combGeom 1).ino 1) ((rootState d).vol.ino 1) := by
    rwa [rootState_ino]
  have hdir : ((combVol combGeom 1).ino 1).isDir = true := (combVol_isDir 1).mpr ⟨by decide, by decide⟩
  have hshaped := combVol_shaped combOk_one (n := 1) ⟨by decide, by decide⟩
  have hout : (rootState d).vol.out 1 = combEnts 1 1 := by
    rw [out_frame (v := combVol combGeom 1) hshaped.extents hlike' fun b _ => by rw [rootState_vol]; rfl]
    exact combVol_out combOk_one ⟨by decide, by decide⟩
  rw [entriesOf, if_pos ⟨by decide, by decide⟩, ← hout, Vol.out_of_isDir (hlike'.isDir.trans hdir),
    ← (rootState_idle d).view_eq]
  refine entsIn_view (rootState_idle d).toMounted fun b hb => ?_
  rw [hlike'.dirBlocks hshaped.extents, combVol_dirBlocks combOk_one ⟨by decide, by decide⟩, List.mem_singleton] at hb
  rw [hb]
  exact ⟨by decide, by decide⟩

theorem rootState_walk : (walkOf combGeom (rootState d).vol.ino (rootState d).disk).seen = (Branching.start 1).seen ∧
    (walkOf combGeom (rootState d).vol.ino (rootState d).disk).done = [1] := by
  have hdots : leadsTo combGeom (combEnts 1 1) = [] := by decide
  refine walkOf_leaf rfl ?_
  rw [rootState_entries hlike, hdots]

theorem rootState_refs : (setsOf combGeom (rootState d).vol.ino (rootState d).disk).refs 1 = 2 := by
  have hread : entriesRead combGeom (rootState d).vol.ino (rootState d).disk = combEnts 1 1 :=
    (entriesRead_leaf rfl (rootState_walk hlike).2).trans (rootState_entries hlike)
  have hcount : ((combEnts 1 1).countP fun e => e.2 = 1) % 2 ^ 16 = 2 := by decide
  rw [setsOf_refs, hread, hcount]

end Root

/-- The volume as it should be: nothing but a root directory. -/
def cleanState : St := rootState ((combVol combGeom 1).ino 1)

theorem cleanState_ino : cleanState.vol.ino 1 = (combVol combGeom 1).ino 1 := rootState_ino _

theorem cleanState_used : (setsOf combGeom cleanState.vol.ino cleanState.disk).usedBlocks combGeom =
    261 ∧ (setsOf combGeom cleanState.vol.ino cleanState.disk).usedInodes combGeom = 2 := by
  obtain ⟨hseen, hdone⟩ := rootState_walk (DInode.Alike.refl ((combVol combGeom 1).ino 1))
  have hblocks : (cleanState.vol.ino 1).blocks = [260] := by
    rw [cleanState_ino]
    exact combVol_blocks combOk_one ⟨by decide, by decide⟩
  have hbbm : ∀ b, (decide (b < combGeom.dataStart) || (setsOf combGeom cleanState.vol.ino cleanState.disk).bbm b) =
      decide (b < 261) := by
    intro b
    have hmark : (setsOf combGeom cleanState.vol.ino cleanState.disk).bbm b = true ↔ b < combGeom.dataStart ∨
        ∃ n ∈ (walkOf combGeom cleanState.vol.ino cleanState.disk).done, combGeom.InTable n ∧ combGeom.IsData b ∧
          b ∈ (cleanState.vol.ino n).blocks := decide_eq_true_iff
    rw [Bool.eq_iff_iff, Bool.or_eq_true, hmark, cleanState, hdone, decide_eq_true_iff, decide_eq_true_iff]
    simp only [List.mem_singleton, exists_eq_left]
    rw [← cleanState, hblocks, List.mem_singleton]
    change b < 260 ∨ b < 260 ∨ combGeom.InTable 1 ∧ (260 ≤ b ∧ b < 8192) ∧ b = 260 ↔ b < 261
    have hin : combGeom.InTable 1 := ⟨by decide, by decide⟩
    constructor
    · rintro (h | h | ⟨-, -, h⟩) <;> omega
    · intro h
      by_cases h260 : b = 260
      · exact Or.inr (Or.inr ⟨hin, ⟨by omega, by omega⟩, h260⟩)
      · exact Or.inl (by omega)
  constructor
  · rw [Fsck.usedBlocks, List.countP_congr fun b _ => by rw [hbbm b]]
    decide +kernel
  · rw [Fsck.usedInodes, setsOf_ibm, cleanState, hseen]
    decide +kernel

theorem cleanState_counts : Super.freeBlocks (cleanState.disk 0) = 8192 - 261 ∧
    Super.freeInodes (cleanState.disk 0) = 4112 - 2 := by
  have hsuper : cleanState.disk 0 = (combVol combGeom 1).super := by
    have h : cleanState.vol.super = (combVol combGeom 1).super := by
      rw [cleanState, rootState_vol]
      rfl
    rw [← h, St.vol, cleanState, (rootState_idle _).view_eq]
    rfl
  have hcounts := @superWith_counts combGeom (8192 - 261) (4112 - 2) (formatSuper combGeom [] 0) (by decide) (by decide)
  rw [hsuper]
  exact ⟨hcounts.blocks, hcounts.inodes⟩

theorem cleanState_even : EvenCounts combGeom cleanState.vol.ino (cleanState.disk 0)
    (setsOf combGeom cleanState.vol.ino cleanState.disk) := by
  constructor
  · refine List.countP_congr fun n _ => ?_
    rw [csumCounted, csumCounted, fixLinks_false, setsOf_ibm, cleanState, (rootState_walk (DInode.Alike.refl _)).1]
    by_cases hn : n = 1
    · have hlinks : ((rootState ((combVol combGeom 1).ino 1)).vol.ino 1).links = 2 := by
        rw [rootState_ino]
        exact combVol_links (m := 1) ⟨by decide, by decide⟩
      rw [hn, rootState_refs (DInode.Alike.refl _), fixLinks, if_neg fun h => h.1 hlinks]
    · rw [start_seen_ne hn, Bool.false_and, Bool.false_and]
  · obtain ⟨hblocks, hinodes⟩ := cleanState_counts
    rw [cleanState_used.1, cleanState_used.2, fixFree, if_neg]
    rintro ⟨hne | hne, -⟩
    · exact hne hblocks
    · exact hne hinodes

/-- A check and a repair of this volume report the same. -/
theorem fsck_report_clean : ∃ w ret s₁ w' ret' s₂,
    (cfsFsck false).run cleanState = (some (some (w, ret)), s₁) ∧
    (cfsFsck true).run cleanState = (some (some (w', ret')), s₂) ∧ w'.out = w.out ∧ ret' = ret := by
  obtain ⟨w, ret, s₁, w', ret', s₂, hrun₁, hrun₂, hiff, -⟩ := fsck_report (s := cleanState) (rootState_idle _) rfl
  exact ⟨w, ret, s₁, w', ret', s₂, hrun₁, hrun₂, (hiff combGeom_wf.apart).mpr (Or.inr cleanState_even)⟩

/-- A root directory whose checksum is right and whose link count is not. -/
def linksState : St := rootState (stamp combGeom.flags (((combVol combGeom 1).ino 1).setLinks 5))

theorem linksState_alike : DInode.Alike ((combVol combGeom 1).ino 1)
    (stamp combGeom.flags (((combVol combGeom 1).ino 1).setLinks 5)) :=
  (DInode.Alike.setLE _ _ (by decide)).trans (.stamp _ _)

theorem linksState_idle : linksState.Idle combGeom := rootState_idle _

theorem linksState_ino : linksState.vol.ino 1 = stamp combGeom.flags (((combVol combGeom 1).ino 1).setLinks 5) :=
  rootState_ino _

/-- The repair counts one more inode with a wrong checksum than the check. -/
theorem linksState_uneven : ¬ EvenCounts combGeom linksState.vol.ino (linksState.disk 0)
    (setsOf combGeom linksState.vol.ino linksState.disk) := by
  have hflags : combGeom.flags &&& CFS_FEAT_CSUM ≠ 0 := by decide
  have hcsum : (linksState.vol.ino 1).csum = inodeCsum (linksState.vol.ino 1) := by
    rw [linksState_ino]
    exact stamp_csum hflags _
  have hlinks : (linksState.vol.ino 1).links = 5 := by
    rw [linksState_ino, DInode.links, getLE_stamp _ _ (by decide), DInode.setLinks, getLE_setLE_same _ _ (by decide)]
    rfl
  have hrefs : (setsOf combGeom linksState.vol.ino linksState.disk).refs 1 = 2 := by
    rw [linksState]
    exact rootState_refs linksState_alike
  have hibm : (setsOf combGeom linksState.vol.ino linksState.disk).ibm = (Branching.start 1).seen := by
    rw [setsOf_ibm, linksState]
    exact (rootState_walk linksState_alike).1
  rintro ⟨heven, -⟩
  rw [hibm] at heven
  have hcheck : (List.range' 1 (combGeom.totalInodes - 1)).countP (csumCounted false combGeom.flags linksState.vol.ino
      (Branching.start 1).seen (setsOf combGeom linksState.vol.ino linksState.disk).refs) = 0 := by
    refine List.countP_eq_zero.mpr fun n _ => ?_
    by_cases hn : n = 1
    · rw [hn, csumCounted, fixLinks_false, csumWrong]
      simp [hcsum]
    · have hseen : (Branching.start 1).seen n = false := start_seen_ne hn
      rw [csumCounted, hseen, Bool.false_and]
      exact Bool.false_ne_true
  rw [hcheck] at heven
  have hone : (1 : ℕ) ∈ List.range' 1 (combGeom.totalInodes - 1) := List.mem_range'_1.mpr ⟨by decide, by decide⟩
  refine List.countP_eq_zero.mp heven 1 hone ?_
  have hseen : (Branching.start 1).seen 1 = true := start_seen_self 1
  rw [csumCounted, hseen, Bool.true_and]
  refine csumWrong_fixLinks hflags hcsum ?_ ?_
  · rw [hrefs]
    decide
  · rw [hrefs, hlinks]
    decide

/-- A repair reports what a check does not. -/
theorem links_report : linksState.Idle combGeom ∧ linksState.WritesOk ∧ ∃ w ret s₁ w' ret' s₂,
    (cfsFsck false).run linksState = (some (some (w, ret)), s₁) ∧
    (cfsFsck true).run linksState = (some (some (w', ret')), s₂) ∧ ¬ (w'.out = w.out ∧ ret' = ret) := by
  obtain ⟨w, w₁, w₂, s₁, s₂, hmarks, hcmp₁, hcmp₂, hrun₁, hrun₂⟩ := fsck_runs linksState_idle combGeom_capped
  have hiff := report_iff linksState_idle rfl combGeom_capped combGeom_wf.apart hmarks hcmp₁ hcmp₂
  exact ⟨linksState_idle, rfl, w₁, _, s₁, w₂, _, s₂, hrun₁, hrun₂, fun h => linksState_uneven (hiff.mp h.1)⟩

end ComputerOS.Cfs
