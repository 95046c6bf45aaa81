import ComputerOS.Cfs.Image
import ComputerOS.Cfs.Settle

/-!
The core on a device that answers every read, inside a transaction. A metadata write
either enters the buffer, and then the volume changes in one place, or is refused
because the buffer is full. `Step` is what every metadata write keeps: the disk, the
device and the blocks of files and directories that are not buffered.
-/
namespace ComputerOS.Cfs

open M Bytes Function

/-- The volume is mounted with geometry `g` on a device that answers every read. -/
structure St.Mounted (g : Geom) (s : St) : Prop where
  geom : s.fs.toGeom = g
  reads : s.ReadsOk

/-- As `Mounted`, with a transaction open. -/
structure St.InTxn (g : Geom) (s : St) : Prop extends s.Mounted g where
  active : s.txnActive = true

/-- What a metadata write keeps. -/
structure Step (g : Geom) (s s' : St) : Prop where
  active : s'.txnActive = s.txnActive
  geom : s'.fs.toGeom = s.fs.toGeom
  reads : s'.rd = s.rd
  disk : s'.disk = s.disk
  writes : s'.wr = s.wr
  lost : s.lost = true → s'.lost = true
  clean : ∀ b, g.IsData b → txnFind s.txn b = none → txnFind s'.txn b = none

variable {g : Geom} {s s' s'' : St}

theorem Step.refl (g : Geom) (s : St) : Step g s s :=
  ⟨rfl, rfl, rfl, rfl, rfl, id, fun _ _ => id⟩

theorem Step.trans (h₁ : Step g s s') (h₂ : Step g s' s'') : Step g s s'' :=
  ⟨h₂.active.trans h₁.active, h₂.geom.trans h₁.geom, h₂.reads.trans h₁.reads,
    h₂.disk.trans h₁.disk, h₂.writes.trans h₁.writes, fun h => h₂.lost (h₁.lost h),
    fun b hb h => h₂.clean b hb (h₁.clean b hb h)⟩

theorem Step.inTxn (h : Step g s s') (hs : s.InTxn g) : s'.InTxn g :=
  ⟨⟨h.geom.trans hs.geom, h.reads.trans hs.reads⟩, h.active.trans hs.active⟩

theorem Step.not_lost (h : Step g s s') (hl : s'.lost = false) : s.lost = false := by
  cases hs : s.lost with
  | false => rfl
  | true => simp [h.lost hs] at hl

theorem txnFind_txnPut (t : List (ℕ × Block)) (b x : ℕ) (v : Block) :
    txnFind (txnPut t b v) x = if x = b then some v else txnFind t x := by
  induction t with
  | nil =>
    by_cases h : b = x
    · simp [txnPut, txnFind, h]
    · simp [txnPut, txnFind, h, Ne.symm h]
  | cons e t ih =>
    obtain ⟨home, data⟩ := e
    by_cases hb : home = b
    · subst hb
      by_cases hx : home = x
      · simp [txnPut, txnFind, hx]
      · simp [txnPut, txnFind, hx, Ne.symm hx]
    · by_cases hx : home = x
      · subst hx
        simp [txnPut, txnFind, hb]
      · simp [txnPut, txnFind, hb, hx, ih]

/-- The state after a buffered write. -/
def St.buffer (s : St) (b : ℕ) (v : Block) : St := { s with txn := txnPut s.txn b v }

theorem view_buffer (ha : s.txnActive = true) (b : ℕ) (v : Block) :
    (s.buffer b v).view = update s.view b v := by
  funext x
  by_cases h : x = b
  · subst h
    simp [St.view, St.buffer, ha, txnFind_txnPut]
  · simp [St.view, St.buffer, ha, txnFind_txnPut, h]

theorem vol_buffer (ha : s.txnActive = true) (b : ℕ) (v : Block) :
    (s.buffer b v).vol = s.fs.image (update s.view b v) := by
  unfold St.vol
  rw [view_buffer ha]
  rfl

theorem Step.buffer {b : ℕ} (v : Block) (h : ¬ g.IsData b) : Step g s (s.buffer b v) := by
  refine ⟨rfl, rfl, rfl, rfl, rfl, id, fun x hx hnone => ?_⟩
  have hne : x ≠ b := by
    rintro rfl
    exact h hx
  simp [St.buffer, txnFind_txnPut, hne, hnone]

theorem bdReadBlock_run (hr : s.ReadsOk) (b : ℕ) : (bdReadBlock b).run s = (some (s.view b), s) := by
  have hraw := rawReadBlock_ok b hr
  cases ha : s.txnActive with
  | false => simpa [bdReadBlock_eq, St.view, ha] using hraw
  | true =>
    cases hf : txnFind s.txn b with
    | none => simpa [bdReadBlock_eq, St.view, ha, hf] using hraw
    | some v => simp [bdReadBlock_eq, St.view, ha, hf]

theorem bdWriteBlock_cases (ha : s.txnActive = true) (b : ℕ) (v : Block) :
    (bdWriteBlock b v).run s = (some (), s.buffer b v) ∨
    (bdWriteBlock b v).run s = (none, { s with lost := true }) := by
  rw [bdWriteBlock_eq]
  rw [if_pos ha]
  split
  · exact Or.inr rfl
  · exact Or.inl rfl

theorem bdWriteBlock_some {b : ℕ} {v : Block} {u : Unit} (ha : s.txnActive = true)
    (h : (bdWriteBlock b v).run s = (some u, s')) : s' = s.buffer b v := by
  rcases bdWriteBlock_cases ha b v with hrun | hrun
  · rw [hrun] at h
    exact (congrArg Prod.snd h).symm
  · simp [hrun] at h

theorem Step.setLost : Step g s { s with lost := true } :=
  ⟨rfl, rfl, rfl, rfl, rfl, fun _ => rfl, fun _ _ => id⟩

theorem readDinode_run (hs : s.Mounted g) {n : ℕ} (hn : n ≠ 0 ∧ n < g.totalInodes) :
    (readDinode n).run s = (some (s.vol.ino n), s) := by
  have hn' : n ≠ 0 ∧ n < s.fs.totalInodes := by rw [hs.geom]; exact hn
  rw [readDinode, bind_of_some (getFs_run s), bind_of_some (ensure_pos hn' s),
    bind_of_some (bdReadBlock_run hs.reads _), pure_run]
  simp [St.vol, Fs.image, hn'.2]

theorem readDinode_none (hs : s.Mounted g) {n : ℕ} (hn : ¬ (n ≠ 0 ∧ n < g.totalInodes)) :
    (readDinode n).run s = (none, s) := by
  have hn' : ¬ (n ≠ 0 ∧ n < s.fs.totalInodes) := by rw [hs.geom]; exact hn
  rw [readDinode, bind_of_some (getFs_run s), bind_of_none (ensure_neg hn' s)]

theorem readDinode_some (hs : s.Mounted g) {n : ℕ} {d : DInode}
    (h : (readDinode n).run s = (some d, s')) :
    (n ≠ 0 ∧ n < g.totalInodes) ∧ d = s.vol.ino n ∧ s' = s := by
  by_cases hn : n ≠ 0 ∧ n < g.totalInodes
  · rw [readDinode_run hs hn] at h
    simp only [Prod.mk.injEq, Option.some.injEq] at h
    exact ⟨hn, h.1.symm, h.2.symm⟩
  · rw [readDinode_none hs hn] at h
    simp at h

section Writes

variable (hg : g.Wf) (hs : s.InTxn g)

include hg hs

theorem wf_fs : s.fs.Wf := by
  rw [hs.geom]
  exact hg

theorem writeDinode_cases {n : ℕ} (d : DInode) (hn : n ≠ 0 ∧ n < g.totalInodes) :
    ∃ s', Step g s s' ∧
      (((writeDinode n d).run s = (some (), s') ∧ s'.vol = s.vol.setIno n (stamp g.flags d)) ∨
       ((writeDinode n d).run s = (none, s') ∧ s'.vol = s.vol ∧ s'.lost = true)) := by
  have hn' : n ≠ 0 ∧ n < s.fs.totalInodes := by rw [hs.geom]; exact hn
  have hwf := wf_fs hg hs
  have hrun : (writeDinode n d).run s = (bdWriteBlock (s.fs.inodeBlock n)
      ((s.view (s.fs.inodeBlock n)).paste (s.fs.inodeOff n) (stamp s.fs.flags d))).run s := by
    rw [writeDinode, bind_of_some (getFs_run s), bind_of_some (ensure_pos hn' s),
      bind_of_some (bdReadBlock_run hs.reads _)]
  have hmeta : ¬ g.IsData (s.fs.inodeBlock n) := by
    rintro ⟨h1, _⟩
    have ht := hwf.inodeTable
    rw [hwf.inodeBlock_eq n] at h1
    rw [← hs.geom] at h1
    omega
  rcases bdWriteBlock_cases hs.active (s.fs.inodeBlock n)
    ((s.view (s.fs.inodeBlock n)).paste (s.fs.inodeOff n) (stamp s.fs.flags d)) with h | h
  · refine ⟨_, Step.buffer _ hmeta, Or.inl ⟨hrun.trans h, ?_⟩⟩
    rw [vol_buffer hs.active, image_update_ino hwf hn'.2, ← hs.geom]
    rfl
  · exact ⟨_, Step.setLost, Or.inr ⟨hrun.trans h, rfl, rfl⟩⟩

theorem writeDinode_some {n : ℕ} {d : DInode} {u : Unit}
    (h : (writeDinode n d).run s = (some u, s')) :
    (n ≠ 0 ∧ n < g.totalInodes) ∧ Step g s s' ∧ s'.vol = s.vol.setIno n (stamp g.flags d) := by
  by_cases hn : n ≠ 0 ∧ n < g.totalInodes
  · obtain ⟨s1, hstep, ⟨hrun, hvol⟩ | ⟨hrun, _⟩⟩ := writeDinode_cases hg hs d hn
    · rw [hrun] at h
      simp only [Prod.mk.injEq, true_and] at h
      rw [← h]
      exact ⟨hn, hstep, hvol⟩
    · simp [hrun] at h
  · have hn' : ¬ (n ≠ 0 ∧ n < s.fs.totalInodes) := by rw [hs.geom]; exact hn
    rw [writeDinode, bind_of_some (getFs_run s), bind_of_none (ensure_neg hn' s)] at h
    simp at h

/-- `sync_super` cannot fail; without room in the buffer it changes nothing. -/
theorem syncSuper_spec : ∃ s', syncSuper.run s = (some (), s') ∧ Step g s s' ∧
    (s'.vol = s.vol.setSuper (superWith g.flags s.vol.freeBlocks s.vol.freeInodes s.vol.super) ∨
      (s'.vol = s.vol ∧ s'.lost = true)) := by
  have hwf := wf_fs hg hs
  have hmeta : ¬ g.IsData 0 := by
    rintro ⟨h1, _⟩
    have hb := hg.blockBitmap
    have hi := hg.inodeBitmap
    have ht := hg.inodeTable
    have h0 := hg.super
    omega
  have hrun : syncSuper.run s = (some (), ((bdWriteBlock 0 (superWith s.fs.flags s.fs.freeBlocks
      s.fs.freeInodes (s.view 0))).run s).2) := by
    rw [syncSuper, bind_of_some (getFs_run s), bind_of_some (attempt_run _ s),
      bind_of_some (bdReadBlock_run hs.reads _), pure_run]
  rcases bdWriteBlock_cases hs.active 0 (superWith s.fs.flags s.fs.freeBlocks
    s.fs.freeInodes (s.view 0)) with h | h
  · rw [h] at hrun
    refine ⟨_, hrun, Step.buffer _ hmeta, Or.inl ?_⟩
    rw [vol_buffer hs.active, image_update_super hwf, ← hs.geom]
    rfl
  · rw [h] at hrun
    exact ⟨_, hrun, Step.setLost, Or.inr ⟨rfl, rfl⟩⟩

end Writes

theorem bdWriteBlock_data (hg : g.Wf) (hs : s.InTxn g) {b : ℕ} {v : Block} {u : Unit}
    (hb : g.IsData b) (h : (bdWriteBlock b v).run s = (some u, s')) :
    s'.vol = s.vol.setData b v ∧ s'.InTxn g ∧ s'.disk = s.disk ∧ s'.wr = s.wr ∧
      (s.lost = true → s'.lost = true) ∧
      ∀ x, x ≠ b → txnFind s.txn x = none → txnFind s'.txn x = none := by
  have hb' : s.fs.IsData b := by rw [hs.geom]; exact hb
  rw [bdWriteBlock_some hs.active h]
  refine ⟨?_, ⟨⟨hs.geom, hs.reads⟩, hs.active⟩, rfl, rfl, id, ?_⟩
  · rw [vol_buffer hs.active, image_update_data (wf_fs hg hs) hb']
    rfl
  · intro x hx hnone
    simp [St.buffer, txnFind_txnPut, hx, hnone]

/-- A write straight to the device: the block is not buffered, so the core sees it. -/
theorem rawWriteBlock_data (hg : g.Wf) (hs : s.InTxn g) {b : ℕ} {v : Block} {u : Unit}
    (hb : g.IsData b) (hclean : txnFind s.txn b = none)
    (h : (rawWriteBlock b v).run s = (some u, s')) :
    s'.vol = s.vol.setData b v ∧ s'.InTxn g ∧ s'.disk = update s.disk b v ∧
      s'.lost = s.lost ∧ s'.txn = s.txn := by
  have hb' : s.fs.IsData b := by rw [hs.geom]; exact hb
  have hs' : s' = { s with disk := update s.disk b v, wr := fun i => s.wr (i + 1) } := by
    rw [rawWriteBlock_run] at h
    split at h
    · exact (congrArg Prod.snd h).symm
    · simp at h
  subst hs'
  have hview : St.view { s with disk := update s.disk b v, wr := fun i => s.wr (i + 1) } =
      update s.view b v := by
    funext x
    by_cases hx : x = b
    · subst hx
      simp [St.view, hs.active, hclean]
    · simp [St.view, hs.active, hx]
  refine ⟨?_, ⟨⟨hs.geom, hs.reads⟩, hs.active⟩, rfl, rfl, rfl⟩
  unfold St.vol
  rw [hview, image_update_data (wf_fs hg hs) hb']

/-- Whatever the device answers, a raw write touches its own block only. -/
theorem rawWriteBlock_disk (s : St) (b : ℕ) (v : Block) {x : ℕ} (hx : x ≠ b) :
    ((rawWriteBlock b v).run s).2.disk x = s.disk x := by
  rw [rawWriteBlock_run]
  split
  · exact update_block_ne s.disk v hx
  · exact update_block_ne s.disk _ hx

end ComputerOS.Cfs
