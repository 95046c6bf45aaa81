import ComputerOS.Cfs.Owners
import ComputerOS.Cfs.Rewrite

/-!
Who changes permission bits. A write that replaces a file builds its mode from scratch, so
that the file gets the bits of a new one; it needs write permission only. Every other call
leaves bits and owners alone, unless it is `cfs_chmod` by the owner or root or `cfs_chown`
by root.
-/
namespace ComputerOS.Cfs

open M Bytes Function

variable {g : Geom} {s : St} {env : Env}

/-- After the call the volume is as before, whatever the device answers. -/
def KeepsVol {α : Type} (x : M α) (s : St) : Prop := (x.run s).2.vol = s.vol

theorem keepsVol_of_asks {α : Type} {x : M α} {Q : α → Prop} (h : Holds (Asked s) x Q) : KeepsVol x s := by
  have hs := h s (.refl s)
  unfold KeepsVol
  rcases hrun : x.run s with ⟨_ | a, s'⟩
  · exact (hs.2 s' hrun).vol
  · exact (hs.1 a s' hrun).1.vol

section Readers

variable {s₀ : St} (hgeom : s₀.fs.toGeom = g)

include hgeom

theorem listRecords_asks (blk : Block) (max : ℕ) (offs : List ℕ) (n : ℕ) :
    Holds (Asked s₀) (listRecords blk max offs n) fun _ => True := by
  induction offs generalizing n with
  | nil => exact .pure trivial
  | cons off offs ih =>
    rw [listRecords]
    split
    · exact .pure trivial
    · split
      · exact ih n
      · refine .bind (Q := fun _ => True) ?_ fun e _ => .bind (ih (n + 1)) fun rest _ => .pure trivial
        refine .bind (.attempt (readDinode_asks hgeom _)) fun r _ => ?_
        cases r with
        | none => exact .pure trivial
        | some d => exact .pure trivial

theorem listBlocks_asks (d : DInode) (max : ℕ) (fbs : List ℕ) (n : ℕ) :
    Holds (Asked s₀) (listBlocks d max fbs n) fun _ => True := by
  induction fbs generalizing n with
  | nil => exact .pure trivial
  | cons fb fbs ih =>
    rw [listBlocks]
    split
    · exact .pure trivial
    · split
      · exact ih n
      · exact .bind (bdReadBlock_asks _) fun blk _ => .bind (listRecords_asks hgeom blk max _ n) fun front _ =>
          .bind (ih _) fun rest _ => .pure trivial

end Readers

theorem readChunks_asks {s₀ : St} (d : DInode) (offset len : ℕ) (fuel : ℕ) :
    ∀ done, len - done ≤ fuel → Holds (Asked s₀) (readChunks d offset len done) fun _ => True := by
  induction fuel with
  | zero =>
    intro done hle
    rw [readChunks, if_neg (by omega)]
    exact .pure trivial
  | succ fuel ih =>
    intro done hle
    rw [readChunks]
    split
    · refine .bind (Q := fun _ => True) ?_ fun bytes _ => .bind (ih _ ?_) fun rest _ => .pure trivial
      · unfold readChunk
        split
        · exact .pure trivial
        · exact .bind (rawReadBlock_asks _) fun buf _ => .pure trivial
      · have : (offset + done) % 2 ^ 32 % 4096 < 4096 := Nat.mod_lt _ (by omega)
        omega
    · exact .pure trivial

theorem readInode_asks {s₀ : St} (env : Env) (d : DInode) (offset len : ℕ) :
    Holds (Asked s₀) (readInode env d offset len) fun _ => True := by
  unfold readInode
  split
  · refine .bind (Q := fun _ => True) ?_ fun tgt _ => .pure trivial
    unfold linkTarget
    split
    · exact .pure trivial
    · exact .bind (rawReadBlock_asks _) fun buf _ => .pure trivial
  · refine .bind (.ensure _) fun _ _ => .bind (.ensure _) fun _ _ => ?_
    split
    · exact .pure trivial
    · split
      · exact .pure trivial
      · exact readChunks_asks d offset _ _ 0 le_rfl

/-- The calls that only read leave the volume alone. -/
theorem readers_keepVol (hg : g.Wf) (hs : s.Still g) (hv : Readable g s.vol) (path : List UInt8) :
    (∀ offset len, KeepsVol (cfsReadAt env path offset len) s) ∧ (∀ max, KeepsVol (cfsList env path max) s) ∧
    KeepsVol (cfsStat path) s ∧ KeepsVol (cfsIsDir path) s := by
  have hnamed := named_asks hs.geom hg.rootIno hv path
  have hino := resolveIno_asks hs.geom hv hg.rootIno path
  refine ⟨fun offset len => ?_, fun max => ?_, ?_, ?_⟩
  · rw [cfsReadAt_eq]
    exact keepsVol_of_asks (.bind hnamed fun r _ => readInode_asks env r.2 offset len)
  · rw [cfsList_eq]
    exact keepsVol_of_asks (.bind hnamed fun r _ => .bind (.ensure _) fun _ _ => .bind (.ensure _) fun _ _ =>
      listBlocks_asks hs.geom r.2 max _ 0)
  · exact keepsVol_of_asks (Q := fun _ => True) (.bind hino fun n _ => .bind (.ensure _) fun _ _ =>
      .bind (readDinode_asks hs.geom n) fun d _ => .pure trivial)
  · refine keepsVol_of_asks (Q := fun _ => True) (.bind hino fun n _ => ?_)
    split
    · exact .pure trivial
    · refine .bind (.attempt (readDinode_asks hs.geom n)) fun r _ => ?_
      cases r with
      | none => exact .pure trivial
      | some d => exact .pure trivial

/-- The call stores new contents in a file whose permission bits are not those of a new file. -/
def Call.Overrides (g : Geom) (env : Env) (v : Vol) : Call → Prop
  | .writeFile path data => (Call.writeFile path data).Resets env v ∧ v.Takes g path data
  | _ => False

theorem overrides_changes (hg : g.Wf) (hs : s.Idle g) (hw : s.WritesOk) (hv : WellFormed g s.vol)
    (hroom : g.Roomy) {c : Call} (h : c.Overrides g env s.vol) : ¬ OwnerOnly env c s := by
  cases c with
  | writeFile path data =>
    obtain ⟨⟨hr, hmode⟩, htakes⟩ := h
    have hreach : s.vol.Reach (s.vol.target path) :=
      .step (resolve_reach hr.parent.2) (lookupEnt_mem hr.target)
    obtain ⟨rc, hok⟩ := Option.ne_none_iff_exists'.mp ((takes_iff hg hs hw hv hroom hr).mpr htakes)
    obtain ⟨s1, hcom, -, hvol, -⟩ := exec_commit hg hs hok
    have heff := commitState_effect hg hs hv.toConsistent.usable hcom
    obtain ⟨l, d, hnew⟩ := heff.rewritten hr.target
    rw [← hvol] at hnew
    intro hown
    have hkin := hown id _ hreach ((hnew.reach_iff hv.toConsistent hreach).mpr hreach)
    exact hmode (by rw [← hkin.perm, hnew.mode])
  | _ => exact h.elim

/-- Permission bits, owners and, in a write, link counts stay as they are in every call that
does not replace a file with other bits than a new one has, whatever the device does. Where
it never fails and the bitmaps leave room in the buffer, exactly the writes that store
contents in such a file change them. The calls that only read change nothing. -/
theorem owner_only_iff (hg : g.Wf) (hs : s.Still g) (hv : WellFormed g s.vol) (env : Env) (c : Call) :
    (¬ c.Resets env s.vol → OwnerOnly env c s) ∧
    (s.ReadsOk → s.WritesOk → g.Roomy → (OwnerOnly env c s ↔ ¬ c.Overrides g env s.vol)) ∧
    ∀ path, (∀ offset len, KeepsVol (cfsReadAt env path offset len) s) ∧
      (∀ max, KeepsVol (cfsList env path max) s) ∧ KeepsVol (cfsStat path) s ∧ KeepsVol (cfsIsDir path) s := by
  have hkeeps : ¬ c.Resets env s.vol → OwnerOnly env c s :=
    fun hreset hpriv n hn _ => exec_kin hg hs hv.toConsistent hpriv hreset hn
  refine ⟨hkeeps, fun hr hw hroom => ?_, readers_keepVol hg hs hv.toConsistent.readable⟩
  have hidle : s.Idle g := ⟨⟨hs.geom, hr⟩, hs.idle⟩
  refine ⟨fun hown hover => overrides_changes hg hidle hw hv hroom hover hown, fun hover => ?_⟩
  by_cases hreset : c.Resets env s.vol
  · cases c with
    | writeFile path data =>
      have hrepl := hreset.1
      have hf : (((Call.writeFile path data).exec env).run s).1 = none := by
        by_contra hok
        exact hover ⟨hreset, (takes_iff hg hidle hw hv hroom hrepl).mp hok⟩
      intro _ n hn _
      rw [refused_ino hg hidle hw hv hroom hrepl hf hn]
      exact .refl _
    | _ => exact hreset.elim
  · exact hkeeps hreset

/-- The volume with the file `/f`, which root owns and everybody may write. -/
def sharedVol : Vol := (flatVol [[102]] 1 fun _ => zero).setPerm smallGeom 2 0o666 0

def sharedState : St := sharedVol.mounted smallGeom

theorem sharedState_vol : sharedState.vol = sharedVol := by
  have h : (flatVol [[102]] 1 fun _ => zero).Within smallGeom := flatVol_within (by omega)
  exact Vol.mounted_vol smallGeom_wf (h.setIno (show 2 < 64 by omega) _)

theorem sharedState_wellFormed : WellFormed smallGeom sharedState.vol := by
  have hflat := @flatVol_wellFormed _ _ (fun _ => zero) closed_ok
  rw [sharedState_vol]
  exact hflat.setPerm (by decide) 2 0o666 0

theorem sharedVol_file : (sharedVol.ino 2).mode = CFS_S_IFREG + 0o666 ∧ (sharedVol.ino 2).uid = 0 ∧
    (sharedVol.ino 2).gid = 0 := by
  rw [sharedVol]
  refine ⟨?_, ?_, ?_⟩
  · rw [Vol.setPerm_mode, flatVol_file, DInode.mode, getLE_stamp _ _ (by omega)]
    rw [show (flatFile _ _).getLE 0 2 = _ from flatFile_mode]
    decide
  · rw [DInode.uid, Vol.getLE_setPerm _ _ _ _ _ _ (by omega), flatVol_file, getLE_stamp _ _ (by omega)]
    simp [flatFile, getLE_setLE_ne]
  · rw [DInode.gid, Vol.getLE_setPerm _ _ _ _ _ _ (by omega), flatVol_file, getLE_stamp _ _ (by omega)]
    simp [flatFile, getLE_setLE_ne]

theorem sharedVol_out : sharedVol.out 1 = flatEnts [[102]] := by
  have hwf := @flatVol_wellFormed _ _ (fun _ => zero) closed_ok
  have hsame := (Vol.setPerm_retagged smallGeom (flatVol [[102]] 1 fun _ => zero) 2 0o666 0).out_eq
    (fun n hn => (hwf.shaped n hn).extents) .root
  exact hsame.trans (flatVol_out_root closed_ok)

theorem sharedVol_target : sharedVol.resolve (parentOf [47, 102]) = 1 ∧ sharedVol.target [47, 102] = 2 := by
  have hroot : sharedVol.resolve (parentOf [47, 102]) = 1 := by
    have hcomp : components (parentOf [47, 102]) = [] := by decide
    rw [Vol.resolve, hcomp, Vol.walk, CFS_ROOT_INO]
  refine ⟨hroot, ?_⟩
  rw [Vol.target, hroot, sharedVol_out]
  decide

theorem sharedState_mkdir : OwnerOnly ⟨1000, 1000, 0⟩ (.mkdir [47, 100]) sharedState :=
  ((owner_only_iff smallGeom_wf ⟨rfl, rfl⟩ sharedState_wellFormed ⟨1000, 1000, 0⟩
    (.mkdir [47, 100])).2.1 rfl rfl smallGeom_roomy).mpr id

/-- A caller who owns nothing writes one byte to `/f`, and its bits are no longer `0666`. -/
theorem sharedState_override : WellFormed smallGeom sharedState.vol ∧ sharedState.Idle smallGeom ∧
    sharedState.WritesOk ∧ ¬ OwnerOnly ⟨1000, 1000, 0⟩ (.writeFile [47, 102] [120]) sharedState := by
  have hidle : sharedState.Idle smallGeom := Vol.mounted_idle _ _
  refine ⟨sharedState_wellFormed, hidle, rfl, ?_⟩
  refine overrides_changes smallGeom_wf hidle rfl sharedState_wellFormed smallGeom_roomy ?_
  obtain ⟨hmode, huid, hgid⟩ := sharedVol_file
  obtain ⟨hroot, htarget⟩ := sharedVol_target
  rw [sharedState_vol]
  refine ⟨⟨⟨by decide, ⟨by decide, ?_⟩, ?_, ?_, ?_, by decide⟩, ?_⟩, ?_⟩
  · rw [hroot]
    decide
  · rw [htarget]
    decide
  · rw [htarget, DInode.isDir, hmode]
    decide
  · rw [htarget, mayAccess, hmode, huid, hgid]
    decide
  · rw [htarget, hmode]
    decide
  · rw [Vol.Takes, if_neg (by decide)]
    exact Or.inl (by decide)

end ComputerOS.Cfs
