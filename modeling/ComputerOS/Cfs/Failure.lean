import ComputerOS.Cfs.Untouched

/-!
A call that returns `-1` on a device that never fails. The abort drops the buffered
metadata and restores the free counts, but not the blocks already written to the device.
As long as these are none of the replaced file's, every path answers as before.
-/
namespace ComputerOS.Cfs

open M Bytes Function

variable {g : Geom} {s t : St}

theorem St.Idle.begun_vol (hs : s.Idle g) : s.begun.vol = s.vol := by
  have hview : s.begun.view = s.view := by
    rw [hs.view_eq]
    rfl
  unfold St.vol
  rw [hview]
  rfl

theorem St.Idle.begun_fresh (hs : s.Idle g) : s.begun.Fresh g :=
  ⟨⟨⟨hs.geom, hs.reads⟩, rfl⟩, fun _ _ => rfl⟩

/-- On a device that never fails, a call that returns `-1` aborted. -/
theorem commitState_eq_none {env : Env} {c : Call} (hw : s.WritesOk)
    (hf : ((c.exec env).run s).1 = none) : commitState env c s = none := by
  cases hc : commitState env c s with
  | none => rfl
  | some s' =>
    exfalso
    obtain ⟨rc, hrun, -, hb⟩ := exec_commits hc
    have hw' : s'.WritesOk := by
      have := ((Call.body_ordered env c).device s.begun).2 hw
      rwa [hb] at this
    rcases txnCommit_cases (commitState_framed hc).active with ⟨-, h1, -⟩ | ⟨⟨i, -, hbad⟩, -⟩
    · rcases hcom : txnCommit.run s' with ⟨r, s''⟩
      rw [hcom] at h1
      obtain rfl : r = some () := h1
      rw [hrun, bind_of_some hcom] at hf
      simp [pure_run] at hf
    · exact hbad (by rw [hw'])

/-- On a device that never fails, a call whose body succeeds does. -/
theorem exec_ne_none {env : Env} {c : Call} (hw : s.WritesOk) {rc : ℤ}
    (hrc : ((c.body env).run s.begun).1 = some rc) (hpos : 0 ≤ rc) :
    ((c.exec env).run s).1 ≠ none := by
  intro hf
  have hnone := commitState_eq_none hw hf
  unfold commitState at hnone
  rcases hbody : (c.body env).run s.begun with ⟨r, s'⟩
  rw [hbody] at hnone hrc
  obtain rfl : r = some rc := hrc
  simp [hpos] at hnone

theorem image_setFree {fs fs' : Fs} (h : fs'.toGeom = fs.toGeom) (V : ℕ → Block) :
    fs'.image V = (fs.image V).setFree (fs'.freeBlocks, fs'.freeInodes) := by
  obtain ⟨geom, fb, fi, ok⟩ := fs
  obtain ⟨geom', fb', fi', ok'⟩ := fs'
  obtain rfl : geom' = geom := h
  rfl

theorem St.Idle.vol_data (hs : s.Idle g) {b : ℕ} (hb : g.IsData b) : s.vol.data b = s.disk b := by
  rw [Cfs.vol_data hs.toMounted hb, hs.view_eq]

theorem sameMeta_of_disk (hg : g.Wf) (hs : s.Idle g) (ht : t.Idle g)
    (h : ∀ b < g.dataStart, t.disk b = s.disk b) :
    t.vol.ino = s.vol.ino ∧ t.vol.bbit = s.vol.bbit ∧ t.vol.ibit = s.vol.ibit := by
  have hfs : s.fs.Wf := by rw [hs.geom]; exact hg
  have hvol : t.vol = (s.fs.image t.disk).setFree (t.fs.freeBlocks, t.fs.freeInodes) := by
    unfold St.vol
    rw [ht.view_eq]
    exact image_setFree (ht.geom.trans hs.geom.symm) t.disk
  have hvol' : s.vol = s.fs.image s.disk := by
    unfold St.vol
    rw [hs.view_eq]
  have hb := hg.blockBitmap
  have hi := hg.inodeBitmap
  have htb := hg.inodeTable
  rw [← hs.geom] at hb hi htb h
  rw [hvol, hvol']
  exact ⟨image_ino_congr hfs fun x _ _ => h x (by omega), image_bbit_congr fun x _ _ =>
    h x (by omega), image_ibit_congr fun x _ _ => h x (by omega)⟩

structure SameTree (v w : Vol) : Prop extends SameFiles v w where
  bbit : w.bbit = v.bbit
  ibit : w.ibit = v.ibit

theorem sameTree_of_disk (hg : g.Wf) (hs : s.Idle g) (ht : t.Idle g)
    (hres : ∀ b < g.dataStart, s.vol.bbit b = true)
    (hblk : ∀ n, s.vol.Reach n → ∀ b ∈ (s.vol.ino n).blocks, g.IsData b ∧ s.vol.bbit b = true)
    (h : ∀ b, s.vol.bbit b = true → t.disk b = s.disk b) : SameTree s.vol t.vol := by
  obtain ⟨hino, hbbit, hibit⟩ := sameMeta_of_disk hg hs ht fun b hb => h b (hres b hb)
  refine ⟨⟨fun n _ => congrFun hino n, fun n hn b hbn => ?_⟩, hbbit, hibit⟩
  obtain ⟨hdata, hused⟩ := hblk n hn b hbn
  rw [ht.vol_data hdata, hs.vol_data hdata, h b hused]

/-- What an abort leaves behind: the disk as the body left it, and the old counts. -/
theorem aborted_state (hs : s.Idle g) {env : Env} {c : Call} (h : commitState env c s = none) :
    ((c.exec env).run s).2.Idle g ∧
      ((c.exec env).run s).2.disk = ((c.body env).run s.begun).2.disk ∧
      ((c.exec env).run s).2.fs.freeBlocks = s.fs.freeBlocks ∧
      ((c.exec env).run s).2.fs.freeInodes = s.fs.freeInodes := by
  have hord := Call.body_ordered env c
  have hf := hord.framed s.begun
  have hin := hord.inTxn hs.begun_fresh.toInTxn
  rw [exec_aborts h]
  exact ⟨⟨⟨hin.geom, hin.reads⟩, rfl⟩, rfl, hf.freeBlocks, hf.freeInodes⟩

theorem aborted_keeps (hg : g.Wf) (hs : s.Idle g) (hc : Consistent g s.vol) {env : Env} {c : Call}
    (hH : ¬ c.Reuses g env s.vol) (h : commitState env c s = none) :
    SameTree s.vol ((c.exec env).run s).2.vol := by
  obtain ⟨hidle, hdisk, -⟩ := aborted_state hs h
  have hsafe := @body_untouched g s.begun hg hs.begun_fresh (by rw [hs.begun_vol]; exact hc) env c
    (by rw [hs.begun_vol]; exact hH)
  refine sameTree_of_disk hg hs hidle (fun b hb => ?_)
    (fun n hn b hb => ⟨hc.inRange n hn b hb, hc.used hn hb⟩) fun b hb => ?_
  · exact (hc.bbits b (by have := hg.dataStart; omega)).mpr (Or.inl hb)
  rw [hdisk]
  exact hsafe b (by rw [hs.begun_vol]; exact hb)

/-- After the call every path answers as before, and the free counts are unchanged. -/
def KeptAll (env : Env) (c : Call) (s : St) : Prop :=
  SameAnswers s ((c.exec env).run s).2 ∧
    ((c.exec env).run s).2.fs.freeBlocks = s.fs.freeBlocks ∧
    ((c.exec env).run s).2.fs.freeInodes = s.fs.freeInodes

/-- A call that returns `-1` on a device that never fails leaves every answer and the
free counts as they were, unless it replaces a file and first fit hands out blocks of
that very file. -/
theorem failed_keeps (hg : g.Wf) (hs : s.Idle g) (hw : s.WritesOk) (hv : WellFormed g s.vol)
    {env : Env} {c : Call} (hH : ¬ c.Reuses g env s.vol) (hf : ((c.exec env).run s).1 = none) :
    KeptAll env c s := by
  have hnone := commitState_eq_none hw hf
  obtain ⟨hidle, -, hcounts⟩ := aborted_state hs hnone
  have hl : ∀ n, s.vol.Reach n → LinkCovered (s.vol.ino n) :=
    fun n hn => (hv.shaped n hn).linkCovered
  have hsame := (aborted_keeps hg hs hv.toConsistent hH hnone).toSameFiles.sameShown hl
  exact ⟨hsame.answers hg hs hidle hv.toConsistent hl, hcounts⟩

end ComputerOS.Cfs
