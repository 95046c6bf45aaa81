import ComputerOS.Cfs.FsckIndex
import ComputerOS.Cfs.Room

/-!
What a repair writes. Each bitmap block gets the bits that the working sets ask for, and what
follows writes to the inode table and the superblock only, so both bitmaps end up as the walk has
found them.
-/
namespace ComputerOS.Cfs

open M Bytes Function

variable {g : Geom} {s s' s'' : St} {w w' : Fsck} {R : ℕ → Prop} {α β : Type}

/-- The volume stays mounted, and only blocks with `R` change. -/
structure Confined (g : Geom) (R : ℕ → Prop) (s s' : St) : Prop extends s'.Idle g where
  writes : s.WritesOk → s'.WritesOk
  disk : ∀ b, ¬ R b → s'.disk b = s.disk b

theorem Confined.refl (hs : s.Idle g) : Confined g R s s := ⟨hs, id, fun _ _ => rfl⟩

theorem Confined.trans (h₁ : Confined g R s s') (h₂ : Confined g R s' s'') : Confined g R s s'' :=
  ⟨h₂.toIdle, h₂.writes ∘ h₁.writes, fun b hb => (h₂.disk b hb).trans (h₁.disk b hb)⟩

theorem Confined.mono {R' : ℕ → Prop} (h : Confined g R s s') (hR : ∀ b, R b → R' b) : Confined g R' s s' :=
  ⟨h.toIdle, h.writes, fun b hb => h.disk b (mt (hR b) hb)⟩

/-- On a mounted volume, `x` changes only blocks with `R`. -/
def Confines (g : Geom) (R : ℕ → Prop) (x : M α) : Prop := ∀ s : St, s.Idle g → Confined g R s (x.run s).2

namespace Confines

theorem pure (a : α) : Confines g R (Pure.pure a : M α) := fun _ hs => .refl hs

theorem getFs_bind {f : Fs → M β} (hf : ∀ fs : Fs, fs.toGeom = g → Confines g R (f fs)) :
    Confines g R (M.getFs >>= f) :=
  fun s hs => hf s.fs hs.geom s hs

theorem bind {x : M α} {f : α → M β} (hx : Confines g R x) (hf : ∀ a, Confines g R (f a)) : Confines g R (x >>= f) := by
  intro s hs
  have h₁ := hx s hs
  rw [bind_run]
  rcases h : x.run s with ⟨_ | a, s₁⟩
  · rw [h] at h₁
    exact h₁
  · rw [h] at h₁
    exact h₁.trans (hf a s₁ h₁.toIdle)

theorem mono {R' : ℕ → Prop} {x : M α} (hx : Confines g R x) (hR : ∀ b, R b → R' b) : Confines g R' x :=
  fun s hs => (hx s hs).mono hR

theorem attempt {x : M α} (hx : Confines g R x) : Confines g R (M.attempt x) := hx

theorem read (b : ℕ) : Confines g R (rawReadBlock b) := by
  intro s hs
  rw [rawReadBlock_ok b hs.reads]
  exact .refl hs

theorem write {b : ℕ} (v : Block) (hb : R b) : Confines g R (rawWriteBlock b v) := by
  intro s hs
  have hkept := rawWriteBlock_replayed b v s
  refine ⟨⟨⟨?_, hkept.reads hs.reads⟩, hkept.active.trans hs.idle⟩, hkept.writes, fun x hx =>
    rawWriteBlock_disk s b v ?_⟩
  · rw [hkept.fs]
    exact hs.geom
  · rintro rfl
    exact hx hb

theorem readDinode (n : ℕ) : Confines g R (readDinode n) := by
  intro s hs
  by_cases hn : n ≠ 0 ∧ n < g.totalInodes
  · rw [readDinode_run hs.toMounted hn]
    exact .refl hs
  · rw [readDinode_none hs.toMounted hn]
    exact .refl hs

theorem writeDinode {n : ℕ} (d : DInode) (hn : n < g.totalInodes → R (g.inodeBlock n)) :
    Confines g R (writeDinode n d) := by
  refine getFs_bind fun fs hfs => ?_
  intro s hs
  by_cases hlt : n ≠ 0 ∧ n < fs.totalInodes
  · have hR : R (fs.inodeBlock n) := by
      rw [← hfs] at hn
      exact hn hlt.2
    rw [bind_of_some (ensure_pos hlt s), bind_of_some (bdReadBlock_run hs.reads _), bdWriteBlock_eq,
      if_neg (by rw [hs.idle]; exact Bool.false_ne_true)]
    exact write _ hR s hs
  · rw [bind_of_none (ensure_neg hlt s)]
    exact .refl hs

theorem setCounts (c : Fs → ℕ × ℕ) : Confines g R (Cfs.setCounts c) :=
  fun _ hs => ⟨⟨⟨hs.geom, hs.reads⟩, hs.idle⟩, id, fun _ _ => rfl⟩

end Confines

def Geom.TableBlock (g : Geom) (b : ℕ) : Prop := ∃ n < g.totalInodes, b = g.inodeBlock n

def Geom.Table (g : Geom) (b : ℕ) : Prop := b = 0 ∨ g.TableBlock b

theorem fsckLinks_confines (repair : Bool) (ns : List ℕ) (w : Fsck) : Confines g g.TableBlock
    (fsckLinks repair ns w) := by
  induction ns generalizing w with
  | nil => exact .pure w
  | cons n ns ih =>
    unfold fsckLinks
    dsimp only
    split
    · exact ih _
    refine (Confines.readDinode n).attempt.bind fun o => ?_
    cases o with
    | none => exact ih _
    | some d =>
      refine Confines.getFs_bind fun fs _ => ?_
      generalize (if d.links ≠ (w.access (n < CFS_FSCK_MAX_INODES)).refs n then _ else w.access _ : Fsck) = w₁
      generalize (if csumWrong fs.flags (fixLinks repair (w₁.refs n) d) = true then _ else w₁ : Fsck) = w₂
      split
      · exact (Confines.writeDinode _ fun hn => ⟨n, hn, rfl⟩).attempt.bind fun _ => ih w₂
      · exact ih w₂

theorem fsckSuper_confines (repair : Bool) (fb fi : ℕ) (w : Fsck) : Confines g g.Table (fsckSuper repair fb fi w) := by
  unfold fsckSuper
  refine (Confines.read 0).attempt.bind fun o => ?_
  cases o with
  | none => exact .pure w
  | some sb =>
    refine Confines.getFs_bind fun fs _ => ?_
    dsimp only
    split
    · exact (Confines.write _ (Or.inl rfl)).attempt.bind fun _ => (Confines.setCounts _).bind fun _ => .pure _
    · exact .pure _

theorem fsckBit_block (c : BitmapCheck) (repair : Bool) (base : ℕ) (x : Block × Bool × Fsck) (i : ℕ) :
    (fsckBit c repair base x i).1 = (if repair && c.want (base + i) != x.1.bit i then x.1.setBit i
    (c.want (base + i)) else x.1) ∧
    (fsckBit c repair base x i).2.1 = (x.2.1 || (repair && c.want (base + i) != x.1.bit i)) := by
  obtain ⟨buf, dirty, w⟩ := x
  unfold fsckBit
  dsimp only
  split
  · rename_i h
    rw [h, Bool.or_true]
    exact ⟨rfl, rfl⟩
  · rename_i h
    rw [Bool.eq_false_iff.mpr h, Bool.or_false]
    exact ⟨rfl, rfl⟩

/-- The bits of a block after the listed ones have been compared. -/
theorem foldl_fsckBit_bit (c : BitmapCheck) (repair : Bool) (base : ℕ) {l : List ℕ} (hl : ∀ i ∈ l, i < 32768)
    (x : Block × Bool × Fsck) (i : ℕ) : (l.foldl (fsckBit c repair base) x).1.bit i =
      if repair = true ∧ i ∈ l then c.want (base + i) else x.1.bit i := by
  induction l generalizing x with
  | nil => simp
  | cons j l ih =>
    have hj := hl j List.mem_cons_self
    rw [List.foldl_cons, ih (fun i hi => hl i (List.mem_cons_of_mem _ hi)), (fsckBit_block c repair base x j).1]
    cases repair with
    | false => simp
    | true =>
      have hbit : (if c.want (base + j) != x.1.bit j then x.1.setBit j (c.want (base + j)) else x.1).bit i =
          if i = j then c.want (base + j) else x.1.bit i := by
        split
        · rw [bit_setBit _ _ (by omega)]
          exact if_congr eq_comm rfl rfl
        · rename_i heq
          split
          · rename_i hij
            rw [hij]
            simpa using Eq.symm (by simpa using heq : c.want (base + j) = x.1.bit j)
          · rfl
      rw [Bool.true_and, hbit]
      by_cases hi : i ∈ l
      · simp [hi]
      · by_cases hij : i = j
        · simp [hij]
        · simp [hi, hij]

/-- A block that has not been changed is not written. -/
theorem foldl_fsckBit_clean (c : BitmapCheck) (repair : Bool) (base : ℕ) (l : List ℕ) (x : Block × Bool × Fsck)
    (h : (l.foldl (fsckBit c repair base) x).2.1 = false) : (l.foldl (fsckBit c repair base) x).1 =
    x.1 ∧ x.2.1 = false := by
  induction l generalizing x with
  | nil => exact ⟨rfl, h⟩
  | cons j l ih =>
    obtain ⟨hblk, hdirty⟩ := ih _ h
    rw [(fsckBit_block c repair base x j).2, Bool.or_eq_false_iff] at hdirty
    rw [List.foldl_cons, hblk, (fsckBit_block c repair base x j).1, hdirty.2]
    exact ⟨rfl, hdirty.1⟩

theorem fsckBit_count (c : BitmapCheck) (r r' : Bool) (base : ℕ) {x y : Block × Bool × Fsck} {i : ℕ}
    (hbit : x.1.bit i = y.1.bit i) (hw : x.2.2 = y.2.2) : (fsckBit c r base x i).2.2 = (fsckBit c r' base y i).2.2 := by
  obtain ⟨buf, dirty, w⟩ := x
  obtain ⟨buf', dirty', w'⟩ := y
  dsimp only at hbit hw
  subst hw
  unfold fsckBit
  dsimp only
  rw [hbit, apply_ite (fun z : Block × Bool × Fsck => z.2.2),
    apply_ite (fun z : Block × Bool × Fsck => z.2.2), ite_self, ite_self]

theorem foldl_fsckBit_count (c : BitmapCheck) (r r' : Bool) (base : ℕ) {l : List ℕ} (hnd : l.Nodup)
    (hl : ∀ i ∈ l, i < 32768) {x y : Block × Bool × Fsck} (hbit : ∀ i ∈ l, x.1.bit i = y.1.bit i) (hw : x.2.2 = y.2.2) :
    (l.foldl (fsckBit c r base) x).2.2 = (l.foldl (fsckBit c r' base) y).2.2 := by
  induction l generalizing x y with
  | nil => exact hw
  | cons j l ih =>
    obtain ⟨hj, hnd⟩ := List.nodup_cons.mp hnd
    have hone : ∀ (r : Bool) (x : Block × Bool × Fsck), ∀ i ∈ l, (fsckBit c r base x j).1.bit i = x.1.bit i := by
      intro r x i hi
      have hij : i ≠ j := fun h => hj (h ▸ hi)
      have hbits := foldl_fsckBit_bit c r base (l := [j]) (by simpa using hl j List.mem_cons_self) x i
      rwa [if_neg (by simp [hij])] at hbits
    refine ih hnd (fun i hi => hl i (List.mem_cons_of_mem _ hi)) (fun i hi => ?_)
      (fsckBit_count c r r' base (hbit j List.mem_cons_self) hw)
    rw [hone r x i hi, hone r' y i hi, hbit i (List.mem_cons_of_mem _ hi)]

theorem mem_blockBits {i : ℕ} : i ∈ blockBits ↔ i < 32768 := by
  unfold blockBits
  exact List.mem_range

theorem nodup_blockBits : blockBits.Nodup := by
  unfold blockBits
  exact List.nodup_range

theorem blockBits_lt : ∀ i ∈ blockBits, i < 32768 := fun _ hi => mem_blockBits.mp hi

theorem fsckBits_bit (c : BitmapCheck) (base : ℕ) (buf : Block) (w : Fsck) {i : ℕ} (hi : i < 32768) :
    (fsckBits c true base buf w).1.bit i = c.want (base + i) := by
  rw [fsckBits, foldl_fsckBit_bit c true base blockBits_lt, if_pos ⟨rfl, mem_blockBits.mpr hi⟩]

theorem fsckBits_clean (c : BitmapCheck) (repair : Bool) (base : ℕ) (buf : Block) (w : Fsck)
    (h : (fsckBits c repair base buf w).2.1 = false) : (fsckBits c repair base buf w).1 = buf :=
  (foldl_fsckBit_clean c repair base blockBits (buf, false, w) h).1

theorem fsckBits_count (c : BitmapCheck) (repair : Bool) (base : ℕ) (buf : Block) (w : Fsck) :
    (fsckBits c repair base buf w).2.2 = (fsckBits c false base buf w).2.2 :=
  foldl_fsckBit_count c repair false base nodup_blockBits blockBits_lt (fun _ _ => rfl) rfl

def comparedBits (c : BitmapCheck) (V : ℕ → Block) (bbs : List ℕ) (w : Fsck) : Fsck :=
  bbs.foldl (fun w bb => (fsckBits c false (bb * 32768) (V (c.region + bb)) w).2.2) w

theorem fsckBitmap_read {c : BitmapCheck} {repair : Bool} {bb : ℕ} {bbs : List ℕ} {buf : Block}
    {x : Block × Bool × Fsck}
    (h : (rawReadBlock (c.region + bb)).run s = (some buf, s')) (hx : fsckBits c repair (bb * 32768) buf w = x) :
    (fsckBitmap c repair (bb :: bbs) w).run s =
      (if repair && x.2.1 then attempt (rawWriteBlock (c.region + bb) x.1) >>= fun _ => fsckBitmap c repair bbs x.2.2
        else fsckBitmap c repair bbs x.2.2).run s' := by
  subst hx
  exact (congrArg (fun m => M.run m s) (fsckBitmap.eq_2 c repair w bb bbs)).trans (bind_of_some (attempt_some h))

/-- A bitmap is counted as it was found; a repair makes it what it should be, and a check leaves it.
-/
theorem fsckBitmap_run (hs : s.Idle g) (hw : s.WritesOk) (c : BitmapCheck) (repair : Bool)
    {bbs : List ℕ} (hnd : bbs.Nodup)
    (w : Fsck) : ∃ s', (fsckBitmap c repair bbs w).run s = (some (comparedBits c s.disk bbs w),
      s') ∧ Confined g (fun b => ∃ bb ∈ bbs, b = c.region + bb) s s' ∧ (repair = false → s' = s) ∧
      (repair = true → ∀ bb ∈ bbs, ∀ i < 32768, (s'.disk (c.region + bb)).bit i = c.want (bb * 32768 + i)) := by
  induction bbs generalizing s w with
  | nil => exact ⟨s, rfl, .refl hs, fun _ => rfl, fun _ bb hbb => by cases hbb⟩
  | cons bb bbs ih =>
    obtain ⟨hbb, hnd⟩ := List.nodup_cons.mp hnd
    obtain ⟨x, hx⟩ : ∃ x, fsckBits c repair (bb * 32768) (s.disk (c.region + bb)) w = x := ⟨_, rfl⟩
    have hcount : x.2.2 = (fsckBits c false (bb * 32768) (s.disk (c.region + bb)) w).2.2 :=
      hx ▸ fsckBits_count c repair _ _ w
    -- the state after this block: what the block should hold has been written, or is there already
    obtain ⟨s₁, hrun, hconf, hcheck, hblk⟩ : ∃ s₁, (fsckBitmap c repair (bb :: bbs) w).run s =
        (fsckBitmap c repair bbs x.2.2).run s₁ ∧ Confined g (fun b => b = c.region + bb) s s₁ ∧
        (repair = false → s₁ = s) ∧
        (repair = true → s₁.disk (c.region + bb) = x.1) := by
      rw [fsckBitmap_read (rawReadBlock_ok _ hs.reads) hx]
      by_cases hdirty : (repair && x.2.1) = true
      · have hwrite := rawWriteBlock_ok (c.region + bb) x.1 hw
        have hconf : Confined g (fun b => b = c.region + bb) s ((rawWriteBlock (c.region + bb) x.1).run s).2 :=
          @Confines.write g (fun b => b = c.region + bb) _ x.1 rfl s hs
        rw [hwrite] at hconf
        rw [if_pos hdirty, bind_of_some (attempt_some hwrite)]
        refine ⟨_, rfl, hconf, fun hr => ?_, fun _ => update_self _ _ _⟩
        rw [hr] at hdirty
        cases hdirty
      · rw [if_neg hdirty]
        refine ⟨s, rfl, .refl hs, fun _ => rfl, fun hr => ?_⟩
        rw [hr, Bool.true_and, Bool.not_eq_true, ← hx] at hdirty
        rw [← hx, fsckBits_clean _ _ _ _ _ hdirty]
    obtain ⟨s₂, hrun₂, hconf₂, hcheck₂, hbits₂⟩ := ih hconf.toIdle (hconf.writes hw) hnd x.2.2
    have hfar : ∀ b ∈ bbs, c.region + b ≠ c.region + bb := fun b hb h => hbb (Nat.add_left_cancel h ▸ hb)
    refine ⟨s₂, ?_, ?_, fun hr => (hcheck₂ hr).trans (hcheck hr), fun hr b hb i hi => ?_⟩
    · rw [hrun, hrun₂, comparedBits, comparedBits, List.foldl_cons, ← hcount]
      refine congrArg (fun z => (some z, s₂)) (List.foldl_ext _ _ _ fun w b hb => ?_)
      rw [hconf.disk _ (hfar b hb)]
    · refine (hconf.mono fun b hb => ⟨bb, List.mem_cons_self, hb⟩).trans (hconf₂.mono fun b hb => ?_)
      obtain ⟨b', hb', rfl⟩ := hb
      exact ⟨b', List.mem_cons_of_mem _ hb', rfl⟩
    · rcases List.mem_cons.mp hb with rfl | hb
      · rw [hconf₂.disk _ fun h => by
          obtain ⟨b', hb', heq⟩ := h
          exact hfar b' hb' heq.symm, hblk hr, ← hx, hr, fsckBits_bit c _ _ _ hi]
      · exact hbits₂ hr b hb i hi

theorem comparedBits_sets {c : BitmapCheck} (hc : ∀ i, c.inArray i = true) (V : ℕ → Block) (bbs : List ℕ) (w : Fsck) :
    SameSets w (comparedBits c V bbs w) := by
  unfold comparedBits
  induction bbs generalizing w with
  | nil => exact .refl w
  | cons bb bbs ih =>
    exact (foldl_fsckBit_sets hc false (bb * 32768) (V (c.region + bb), false, w) blockBits).trans
      (ih _)

theorem blockCheck_inArray (hg : g.Capped) (w : Fsck) (i : ℕ) : (w.blockCheck g).inArray i = true :=
  decide_eq_true fun h => Nat.lt_of_lt_of_le h hg.1

theorem inodeCheck_inArray (hg : g.Capped) (w : Fsck) (i : ℕ) : (w.inodeCheck g).inArray i = true :=
  decide_eq_true fun _ h => Nat.lt_of_lt_of_le h hg.2

theorem idle_bbit (hs : s.Idle g) {b : ℕ} (hb : b < g.totalBlocks) :
    s.vol.bbit b = (s.disk (g.blockBitmapStart + b / 32768)).bit (b % 32768) := by
  rw [← hs.geom] at hb ⊢
  change (if b < s.fs.totalBlocks then (s.view _).bit _ else true) = _
  rw [if_pos hb, hs.view_eq]

theorem idle_ibit (hs : s.Idle g) {n : ℕ} (hn : n < g.totalInodes) :
    s.vol.ibit n = (s.disk (g.inodeBitmapStart + n / 32768)).bit (n % 32768) := by
  rw [← hs.geom] at hn ⊢
  change (if n < s.fs.totalInodes then (s.view _).bit _ else true) = _
  rw [if_pos hn, hs.view_eq]

/-- The table and the superblock lie outside of the bitmaps. -/
theorem Geom.Wf.table (hg : g.Wf) {b : ℕ} (hb : g.Table b) :
    b = 0 ∨ g.inodeTableStart ≤ b ∧ b < g.dataStart := by
  refine hb.imp_right fun h => ?_
  obtain ⟨n, hn, rfl⟩ := h
  have hsize := hg.inodeSize
  have htable := hg.inodeTable
  rw [Geom.inodeBlock, hsize]
  omega

/-- What follows the bitmaps writes to the inode table and the superblock only. -/
theorem fsckRest_confines (repair : Bool) (w : Fsck) : Confines g g.Table (do
    let w ← fsckLinks repair (List.range' 1 (g.totalInodes - 1)) w
    let w ← fsckSuper repair (g.totalBlocks - w.usedBlocks g) (g.totalInodes - w.usedInodes g) w
    pure (w.count fun r => { r with total := r.sum })) :=
  ((fsckLinks_confines repair _ w).mono fun _ => Or.inr).bind fun w =>
  (fsckSuper_confines repair _ _ w).bind fun _ => .pure _

/-- After a repair both bitmaps are as the walk has found them. -/
theorem fsckCompare_bits (hg : g.Wf) (hcap : g.Capped) (hs : s.Idle g) (hw : s.WritesOk) (w : Fsck) :
    ∃ w' s', (fsckCompare true w).run s = (some w', s') ∧ s'.Idle g ∧ (∀ b < g.totalBlocks, s'.vol.bbit b = w.bbm b) ∧
      ∀ n < g.totalInodes, s'.vol.ibit n = (decide (n = 0) || w.ibm n) := by
  obtain ⟨w', s', hrun, -, -⟩ := fsckCompare_sets hcap true w s hs.geom
  refine ⟨w', s', hrun, ?_⟩
  rw [fsckCompare, bind_of_some (getFs_run s), show s.fs.totalBlocks = g.totalBlocks from congrArg
    Geom.totalBlocks hs.geom,
    show s.fs.totalInodes = g.totalInodes from congrArg Geom.totalInodes hs.geom, hs.geom] at hrun
  obtain ⟨s₁, hrun₁, hconf₁, -, hbits₁⟩ := fsckBitmap_run hs hw (w.blockCheck g) true
    (show (bitmapBlocks g.totalBlocks).Nodup from List.nodup_range) w
  have hsets₁ := comparedBits_sets (blockCheck_inArray hcap w) s.disk (bitmapBlocks g.totalBlocks) w
  rw [bind_of_some hrun₁] at hrun
  dsimp only at hrun
  have hibm : ((comparedBits (w.blockCheck g) s.disk (bitmapBlocks g.totalBlocks) w).access
      ((List.range g.totalBlocks).all (· < CFS_FSCK_MAX_BLOCKS))).ibm = w.ibm := hsets₁.ibm
  generalize (comparedBits (w.blockCheck g) s.disk (bitmapBlocks g.totalBlocks) w).access
    ((List.range g.totalBlocks).all (· < CFS_FSCK_MAX_BLOCKS)) = w₁ at hibm hrun
  obtain ⟨s₂, hrun₂, hconf₂, -, hbits₂⟩ := fsckBitmap_run hconf₁.toIdle (hconf₁.writes hw) (w₁.inodeCheck g) true
    (show (bitmapBlocks g.totalInodes).Nodup from List.nodup_range) w₁
  rw [bind_of_some hrun₂] at hrun
  have hconf₃ : Confined g g.Table s₂ s' := by
    have h := fsckRest_confines true ((comparedBits (w₁.inodeCheck g) s₁.disk (bitmapBlocks g.totalInodes) w₁).access
      ((List.range g.totalInodes).all (· < CFS_FSCK_MAX_INODES))) s₂ hconf₂.toIdle
    rw [hrun] at h
    exact h
  have hblock := hg.blockBitmap
  have hinode := hg.inodeBitmap
  have hsuper := hg.super
  refine ⟨hconf₃.toIdle, fun b hb => ?_, fun n hn => ?_⟩
  · have hwant : (w.blockCheck g).want (b / 32768 * 32768 + b % 32768) = w.bbm b := by
      rw [Nat.div_add_mod']
      exact if_pos hb
    rw [idle_bbit hconf₃.toIdle hb, hconf₃.disk _ fun h => ?_, hconf₂.disk _ ?_, ← hwant]
    · exact hbits₁ rfl _ (mem_bitmapBlocks hb) _ (Nat.mod_lt _ (by omega))
    · rintro ⟨bb, hbb, heq⟩
      have hregion : (w₁.inodeCheck g).region = g.inodeBitmapStart := rfl
      rw [hregion] at heq
      omega
    · have := hg.table h
      omega
  · have hwant : (w₁.inodeCheck g).want (n / 32768 * 32768 + n % 32768) = (decide (n = 0) || w.ibm n) := by
      rw [Nat.div_add_mod', ← hibm]
      change (if n = 0 then true else if n < g.totalInodes then w₁.ibm n else true) = _
      rw [if_pos hn]
      by_cases h0 : n = 0 <;> simp [h0]
    rw [idle_ibit hconf₃.toIdle hn, hconf₃.disk _ fun h => ?_, ← hwant]
    · exact hbits₂ rfl _ (mem_bitmapBlocks hn) _ (Nat.mod_lt _ (by omega))
    · have := hg.table h
      omega

end ComputerOS.Cfs
