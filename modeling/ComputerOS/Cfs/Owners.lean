import ComputerOS.Cfs.Access
import ComputerOS.Cfs.Commit
import ComputerOS.Cfs.Untouched

/-!
Who may change the permission bits and the owner of an inode. Every call writes back the
inodes it changes with the owner it read; only `cfs_chmod`, `cfs_chown` and a write over
an existing file set these fields. This holds whatever the device answers: a call that
fails half-way drops its inodes, and a commit cut off half-way leaves each inode old or new.
-/
namespace ComputerOS.Cfs

open M Bytes Function

/-- `d'` has the permission bits and the owner of `d`, and its link count if `L`. -/
structure Kin (L : Prop) (d d' : DInode) : Prop where
  perm : d'.mode &&& 0o7777 = d.mode &&& 0o7777
  uid : d'.uid = d.uid
  gid : d'.gid = d.gid
  links : L → d'.links = d.links

namespace Kin

variable {L : Prop} {d d' d'' : DInode}

theorem refl (d : DInode) : Kin L d d := ⟨rfl, rfl, rfl, fun _ => rfl⟩

theorem trans (h₁ : Kin L d d') (h₂ : Kin L d' d'') : Kin L d d'' :=
  ⟨h₂.perm.trans h₁.perm, h₂.uid.trans h₁.uid, h₂.gid.trans h₁.gid,
    fun hl => (h₂.links hl).trans (h₁.links hl)⟩

theorem ofHead (h : DInode.SameHead d d') : Kin L d d' := ⟨by rw [h.mode], h.uid, h.gid, fun _ => h.links⟩

theorem setLinks (hL : ¬ L) (d : DInode) (v : ℕ) : Kin L d (d.setLinks v) := by
  refine ⟨?_, ?_, ?_, fun hl => absurd hl hL⟩
  · rw [DInode.mode, getLE_setLE_ne d (by omega)]
  · exact getLE_setLE_ne d (by omega)
  · exact getLE_setLE_ne d (by omega)

theorem setMode (d : DInode) {m : ℕ} (h : m % 2 ^ 16 &&& 0o7777 = d.mode &&& 0o7777) :
    Kin L d (d.setMode m) := by
  refine ⟨?_, ?_, ?_, fun _ => ?_⟩
  · rw [DInode.mode, getLE_setLE_same d _ (by omega)]
    exact h
  · exact getLE_setLE_ne d (by omega)
  · exact getLE_setLE_ne d (by omega)
  · exact getLE_setLE_ne d (by omega)

end Kin

/-- Inside a transaction that started in `s₀`: the metadata on the disk is untouched, and
every inode that was reachable still has its permission bits and owner. -/
structure Guard (g : Geom) (L : Prop) (s₀ s : St) : Prop where
  geom : s.fs.toGeom = g
  active : s.txnActive = true
  nodup : (s.txn.map Prod.fst).Nodup
  disk : ∀ b, ¬ g.IsData b → s.disk b = s₀.disk b
  kin : ∀ n, s₀.vol.Reach n → Kin L (s₀.vol.ino n) (s.vol.ino n)

variable {α : Type} {g : Geom} {L : Prop} {s₀ s s' : St}

theorem Guard.asked (h : Guard g L s₀ s) (ha : Asked s s') : Guard g L s₀ s' := by
  obtain ⟨r, rfl⟩ := ha
  exact ⟨h.geom, h.active, h.nodup, h.disk, h.kin⟩

theorem Guard.reads {x : M α} {Q : α → Prop} (h : ∀ s, Holds (Asked s) x fun _ => True)
    (hQ : ∀ a, Q a) : Holds (Guard g L s₀) x Q := by
  intro s hs
  obtain ⟨h1, h2⟩ := h s s (.refl s)
  exact ⟨fun a s' hrun => ⟨hs.asked (h1 a s' hrun).1, hQ a⟩, fun s' hrun => hs.asked (h2 s' hrun)⟩

/-- To keep the invariant, look at the state at hand. -/
theorem Holds.ofStates {I : St → Prop} {x : M α} {Q : α → Prop}
    (h : ∀ s, I s → Triple (Asked s) x (fun a s' => I s' ∧ Q a) I) : Holds I x Q :=
  fun s hs => h s hs s (.refl s)

section Writes

variable (hg : g.Wf)

include hg

theorem guard_put {b : ℕ} (hb : b < g.inodeTableStart ∨ g.dataStart ≤ b) (v : Block) :
    Holds (Guard g L s₀) (bdWriteBlock b v) fun _ => True := by
  intro s hs
  have hwf : s.fs.Wf := by
    rw [hs.geom]
    exact hg
  have htable : s.fs.inodeTableStart + (s.fs.totalInodes * 256 + 4095) / 4096 ≤ g.dataStart := by
    rw [hs.geom]
    exact hg.inodeTable
  have hstart : s.fs.inodeTableStart = g.inodeTableStart := by rw [hs.geom]
  have hbuf : Guard g L s₀ (s.buffer b v) := by
    refine ⟨hs.geom, hs.active, nodup_txnPut hs.nodup, hs.disk, ?_⟩
    have hino : (s.buffer b v).vol.ino = s.vol.ino := by
      rw [vol_buffer hs.active]
      refine image_ino_congr hwf fun x h1 h2 => update_block_ne _ _ ?_
      omega
    rw [hino]
    exact hs.kin
  have hlost : Guard g L s₀ { s with lost := true } := ⟨hs.geom, hs.active, hs.nodup, hs.disk, hs.kin⟩
  rcases bdWriteBlock_cases hs.active b v with hrun | hrun
  · exact Triple.at_some hrun ⟨hbuf, trivial⟩
  · exact Triple.at_none hrun hlost

theorem guard_raw {b : ℕ} (hb : g.IsData b) (v : Block) :
    Holds (Guard g L s₀) (rawWriteBlock b v) fun _ => True := by
  intro s hs
  have hwf : s.fs.Wf := by
    rw [hs.geom]
    exact hg
  have htable : s.fs.inodeTableStart + (s.fs.totalInodes * 256 + 4095) / 4096 ≤ g.dataStart := by
    rw [hs.geom]
    exact hg.inodeTable
  have hafter : ∀ (v : Block) (w : ℕ → Outcome),
      Guard g L s₀ { s with disk := update s.disk b v, wr := w } := by
    intro v w
    refine ⟨hs.geom, hs.active, hs.nodup, fun x hx => ?_, ?_⟩
    · have hne : x ≠ b := by
        rintro rfl
        exact hx hb
      rw [← hs.disk x hx]
      exact update_of_ne hne _ _
    · have hino : (St.vol { s with disk := update s.disk b v, wr := w }).ino = s.vol.ino := by
        refine image_ino_congr hwf fun x h1 h2 => ?_
        dsimp only at h1 h2
        have hne : x ≠ b := by
          have := hb.1
          omega
        simp only [St.view, update_of_ne hne]
      rw [hino]
      exact hs.kin
  have hrun := rawWriteBlock_run b v s
  cases hw : s.wr 0 with
  | ok =>
    rw [hw] at hrun
    exact Triple.at_some hrun ⟨hafter _ _, trivial⟩
  | fail k =>
    rw [hw] at hrun
    exact Triple.at_none hrun (hafter _ _)

omit hg in
theorem guard_counts (c : Fs → ℕ × ℕ) : Holds (Guard g L s₀) (setCounts c) fun _ => True := by
  intro s hs
  refine Triple.at_some (setCounts_run c s) ⟨⟨hs.geom, hs.active, hs.nodup, hs.disk, ?_⟩, trivial⟩
  exact hs.kin

/-- An inode that was reachable is written back with its permission bits and owner. -/
theorem guard_writeDinode {n : ℕ} {d : DInode} (hd : s₀.vol.Reach n → Kin L (s₀.vol.ino n) d) :
    Holds (Guard g L s₀) (writeDinode n d) fun _ => True := by
  refine Holds.ofStates fun s hs => ?_
  have hwf : s.fs.Wf := by
    rw [hs.geom]
    exact hg
  have hasked : ∀ s', Asked s s' → Guard g L s₀ s' := fun s' ha => hs.asked ha
  refine Holds.andThen (Holds.getFs (P := fun fs => fs = s.fs) fun s' ha => ha.fs) hasked fun fs hfs => ?_
  refine Holds.andThen (Holds.ensure _) hasked fun _ hn => ?_
  refine Holds.andThen (bdReadBlock_asks _) hasked fun buf hbuf => ?_
  · intro s' ha
    obtain rfl := hfs
    obtain rfl := hbuf
    have hlt : n < s.fs.totalInodes := hn.2
    have hs' := hs.asked ha
    rcases bdWriteBlock_cases hs'.active (s.fs.inodeBlock n)
      ((s.view (s.fs.inodeBlock n)).paste (s.fs.inodeOff n) (stamp s.fs.flags d)) with hrun | hrun
    · refine Triple.at_some hrun ⟨⟨hs'.geom, hs'.active, nodup_txnPut hs'.nodup, hs'.disk, ?_⟩, trivial⟩
      rw [vol_buffer hs'.active, ha.view, ha.fs, image_update_ino hwf hlt]
      intro m hm
      by_cases hmn : m = n
      · subst hmn
        rw [Vol.ino_setIno_same]
        exact (hd hm).trans (.ofHead (.stamp _ _))
      · rw [Vol.ino_setIno_ne _ _ hmn]
        exact hs.kin m hm
    · exact Triple.at_none hrun ⟨hs'.geom, hs'.active, hs'.nodup, hs'.disk, hs'.kin⟩

omit hg in
/-- An allocation finds a clear bit of its range; its one write goes to its bitmap. -/
theorem allocBit_finds {I : St → Prop} {region lo hi : ℕ} (count : Fs → ℕ × ℕ) {bbs : List ℕ}
    (hI : ∀ s', Asked s s' → I s')
    (hput : ∀ bb ∈ bbs, ∀ v, Holds I (bdWriteBlock (region + bb) v) fun _ => True)
    (hcounts : ∀ c, Holds I (setCounts c) fun _ => True) :
    Triple (Asked s) (allocBit region lo hi count bbs)
      (fun b s' => I s' ∧ (b = 0 ∨ (lo ≤ b ∧ b < hi ∧ bitAt s.view region b = false))) I := by
  induction bbs with
  | nil => exact Triple.pure fun s' hs' => ⟨hI s' hs', Or.inl rfl⟩
  | cons bb bbs ih =>
    rw [allocBit]
    refine Holds.andThen (Holds.attempt (bdReadBlock_asks _)) hI fun r hr => ?_
    cases r with
    | none => exact Triple.pure fun s' hs' => ⟨hI s' hs', Or.inl rfl⟩
    | some buf =>
      obtain rfl := hr buf rfl
      have hscan := scanBlock_spec s.view region lo hi bb
      dsimp only
      cases hfound : scanBytes lo hi (s.view (region + bb)) (bb * 32768) blockBytes with
      | next => exact ih fun x hx => hput x (List.mem_cons_of_mem _ hx)
      | full => exact Triple.pure fun s' hs' => ⟨hI s' hs', Or.inl rfl⟩
      | found b =>
        rw [hfound] at hscan
        obtain ⟨-, -, hlo, hhi, hclear, -⟩ := hscan
        refine Triple.mono (?_ : Holds I _ fun b => b = 0 ∨ (lo ≤ b ∧ b < hi ∧ bitAt s.view region b = false)) hI
          (fun _ _ => id) fun _ => id
        refine .bind (Holds.attempt (hput bb List.mem_cons_self _)) fun r _ => ?_
        cases r with
        | none => exact Holds.pure (Or.inl rfl)
        | some u => exact Holds.bind (hcounts count) fun _ _ => Holds.pure (Or.inr ⟨hlo, hhi, hclear⟩)

theorem guard_allocBlock : Holds (Guard g L s₀) allocBlock fun b => b = 0 ∨ g.IsData b := by
  refine .bind (Holds.getFs (P := fun fs => fs.toGeom = g) fun s hs => hs.geom) fun fs hfs => ?_
  refine Holds.ofStates fun s hs => ?_
  have hregion : ∀ bb ∈ bmblocks fs.totalBlocks, fs.blockBitmapStart + bb < g.inodeTableStart := by
    intro bb hbb
    have h1 := hg.blockBitmap
    have h2 := hg.inodeBitmap
    rw [← hfs] at h1 h2
    rw [bmblocks, List.mem_range] at hbb
    rw [← hfs]
    omega
  refine Triple.mono (allocBit_finds _ (fun s' ha => hs.asked ha)
    (fun bb hbb v => guard_put hg (Or.inl (hregion bb hbb)) v) guard_counts) (fun _ => id) ?_ fun _ => id
  rintro b s' ⟨hs', h0 | ⟨hlo, hhi, -⟩⟩
  · exact ⟨hs', Or.inl h0⟩
  · refine ⟨hs', Or.inr ⟨?_, ?_⟩⟩
    · rw [← hfs]
      exact hlo
    · rw [← hfs]
      exact hhi

/-- A new inode has a number that no reachable inode had. -/
theorem guard_allocInode (hs₀ : Guard g L s₀ s₀) : Triple (Asked s₀) allocInode
    (fun n s => Guard g L s₀ s ∧ (n = 0 ∨ (n < g.totalInodes ∧ s₀.vol.ibit n = false))) (Guard g L s₀) := by
  have hasked : ∀ s', Asked s₀ s' → Guard g L s₀ s' := fun s' ha => hs₀.asked ha
  refine Holds.andThen (Holds.getFs (P := fun fs => fs = s₀.fs) fun s ha => ha.fs) hasked fun fs hfs => ?_
  obtain rfl := hfs
  have hregion : ∀ bb ∈ bmblocks s₀.fs.totalInodes,
      s₀.fs.inodeBitmapStart + bb < g.inodeTableStart := by
    intro bb hbb
    have h2 := hg.inodeBitmap
    rw [← hs₀.geom] at h2 ⊢
    rw [bmblocks, List.mem_range] at hbb
    omega
  refine Triple.mono (allocBit_finds _ hasked
    (fun bb hbb v => guard_put hg (Or.inl (hregion bb hbb)) v) guard_counts) (fun _ => id) ?_ fun _ => id
  rintro n s' ⟨hs', h0 | ⟨-, hhi, hclear⟩⟩
  · exact ⟨hs', Or.inl h0⟩
  · refine ⟨hs', Or.inr ⟨?_, ?_⟩⟩
    · rw [← hs₀.geom]
      exact hhi
    · change (if n < s₀.fs.totalInodes then _ else _) = _
      rw [if_pos hhi]
      exact hclear

theorem guard_bitSet {region idx : ℕ} (val : Bool) (h : region + idx / 32768 < g.inodeTableStart) :
    Holds (Guard g L s₀) (bitSet region idx val) fun _ => True :=
  .bind (Guard.reads (fun _ => (bdReadBlock_asks _).mono fun _ _ => trivial) fun _ => trivial)
    fun _ _ => guard_put hg (Or.inl h) _

theorem guard_freeBlock (b : ℕ) : Holds (Guard g L s₀) (freeBlock b) fun _ => True := by
  refine .bind (Holds.getFs (P := fun fs => fs.toGeom = g) fun s hs => hs.geom) fun fs hfs => ?_
  split
  · exact Holds.pure trivial
  · next hb =>
    rw [not_or] at hb
    have hregion : fs.blockBitmapStart + b / 32768 < g.inodeTableStart := by
      have h1 := hg.blockBitmap
      have h2 := hg.inodeBitmap
      rw [← hfs] at h1 h2 ⊢
      omega
    refine .bind (Holds.attempt (guard_bitSet hg false hregion)) fun r _ => ?_
    cases r with
    | none => exact Holds.pure trivial
    | some u => exact guard_counts _

theorem guard_freeInode (n : ℕ) : Holds (Guard g L s₀) (freeInode n) fun _ => True := by
  refine .bind (Holds.getFs (P := fun fs => fs.toGeom = g) fun s hs => hs.geom) fun fs hfs => ?_
  split
  · exact Holds.pure trivial
  · next hn =>
    rw [not_or] at hn
    have hregion : fs.inodeBitmapStart + n / 32768 < g.inodeTableStart := by
      have h2 := hg.inodeBitmap
      rw [← hfs] at h2 ⊢
      omega
    refine .bind (Holds.attempt (guard_bitSet hg false hregion)) fun r _ => ?_
    cases r with
    | none => exact Holds.pure trivial
    | some u => exact guard_counts _

theorem guard_freeAll (l : List ℕ) : Holds (Guard g L s₀) (freeAll l) fun _ => True := by
  induction l with
  | nil => exact Holds.pure trivial
  | cons b l ih => exact .bind (guard_freeBlock hg b) fun _ _ => ih

theorem guard_inodeFreeData (d : DInode) :
    Holds (Guard g L s₀) (inodeFreeData d) fun d' => d' = (d.setNextents 0).setSize 0 := by
  rw [inodeFreeData_eq]
  exact .bind (guard_freeAll hg _) fun _ _ => Holds.pure rfl

theorem guard_syncSuper : Holds (Guard g L s₀) syncSuper fun _ => True := by
  refine .bind (Holds.getFs (P := fun _ => True) fun _ _ => trivial) fun fs _ => ?_
  refine .bind (Q := fun _ => True) ?_ fun _ _ => Holds.pure trivial
  refine Holds.mono (Holds.attempt (Q := fun _ => True) ?_) fun _ _ => trivial
  refine .bind (Guard.reads (fun _ => (bdReadBlock_asks 0).mono fun _ _ => trivial) fun _ => trivial)
    fun sb _ => guard_put hg (Or.inl ?_) _
  have h1 := hg.super
  have h2 := hg.blockBitmap
  have h3 := hg.inodeBitmap
  omega

theorem guard_addBlocks {d : DInode} {name : Name} {child type : ℕ} {fbs : List ℕ}
    (hd : ∀ b ∈ mappedAt d fbs, g.IsData b) :
    Holds (Guard g L s₀) (addBlocks d name child type fbs) fun _ => True := by
  induction fbs with
  | nil => exact Holds.pure trivial
  | cons fb fbs ih =>
    rw [addBlocks]
    by_cases hz : mapFileblock d fb = 0
    · rw [mappedAt_zero fbs hz] at hd
      simpa [hz] using ih hd
    · rw [mappedAt_pos fbs hz] at hd
      simp only [if_neg hz]
      refine .bind (Guard.reads (fun _ => (bdReadBlock_asks _).mono fun _ _ => trivial) fun _ => trivial)
        fun blk _ => ?_
      split
      · exact .bind (guard_put hg (Or.inr (hd _ List.mem_cons_self).1) _) fun _ _ => Holds.pure trivial
      · exact ih fun b hb => hd b (List.mem_cons_of_mem _ hb)

theorem guard_removeBlocks {d : DInode} {name : Name} {fbs : List ℕ}
    (hd : ∀ b ∈ mappedAt d fbs, g.IsData b) :
    Holds (Guard g L s₀) (removeBlocks d name fbs) fun _ => True := by
  induction fbs with
  | nil => exact Holds.fail
  | cons fb fbs ih =>
    rw [removeBlocks]
    by_cases hz : mapFileblock d fb = 0
    · rw [mappedAt_zero fbs hz] at hd
      simpa [hz] using ih hd
    · rw [mappedAt_pos fbs hz] at hd
      simp only [if_neg hz]
      refine .bind (Guard.reads (fun _ => (bdReadBlock_asks _).mono fun _ _ => trivial) fun _ => trivial)
        fun blk _ => ?_
      split
      · exact guard_put hg (Or.inr (hd _ List.mem_cons_self).1) _
      · exact ih fun b hb => hd b (List.mem_cons_of_mem _ hb)

theorem guard_growDir (d : DInode) (name : Name) (child type : ℕ) :
    Holds (Guard g L s₀) (growDir d name child type) fun d' => Kin L d d' := by
  refine .bind (guard_allocBlock hg) fun b hb => .bind (Holds.ensure _) fun _ hne => ?_
  refine .bind (guard_raw hg (hb.resolve_left hne) _) fun _ _ => ?_
  cases hp : inodePushExtent d b 1 with
  | none => exact .bind (guard_freeBlock hg b) fun _ _ => Holds.fail
  | some d' => exact Holds.pure (.ofHead ((DInode.SameHead.push hp).trans (.setLE _ _ _ (by omega))))

theorem guard_dirAdd {d : DInode} {name : Name} {child type : ℕ} (hd : ∀ b ∈ d.dirBlocks, g.IsData b) :
    Holds (Guard g L s₀) (dirAdd d name child type) fun d' => Kin L d d' := by
  refine .bind (guard_addBlocks hg hd) fun r _ => ?_
  cases r with
  | none => exact guard_growDir hg d name child type
  | some u => exact Holds.pure (.refl d)

theorem guard_writeBlocks (data : List UInt8) (fbs : List ℕ) (din : DInode) :
    Holds (Guard g L s₀) (writeBlocks data fbs din) fun d' => Kin L din d' := by
  induction fbs generalizing din with
  | nil => exact Holds.pure (.refl din)
  | cons fb fbs ih =>
    refine .bind (guard_allocBlock hg) fun b hb => .bind (Holds.ensure _) fun _ hne => ?_
    refine .bind (guard_raw hg (hb.resolve_left hne) _) fun _ _ => ?_
    cases hp : inodePushExtent din b 1 with
    | none => exact Holds.fail
    | some d' => exact Holds.mono (ih d') fun _ h => (Kin.ofHead (.push hp)).trans h

theorem guard_storeData (din : DInode) (data : List UInt8) :
    Holds (Guard g L s₀) (storeData din data) fun d' => Kin L din d' := by
  unfold storeData
  split
  · unfold storeTarget
    split
    · exact Holds.pure (.ofHead ((DInode.SameHead.setExtentBytes _ _).trans (.setLE _ _ _ (by omega))))
    · refine .bind (guard_allocBlock hg) fun b hb => .bind (Holds.ensure _) fun _ hne => ?_
      refine .bind (guard_raw hg (hb.resolve_left hne) _) fun _ _ => Holds.pure ?_
      exact .ofHead (((DInode.SameHead.setLE _ _ _ (by omega)).trans
        (.setLE _ _ _ (by omega))).trans (.setLE _ _ _ (by omega)))
  · split
    · refine Holds.pure (.ofHead ?_)
      exact ((DInode.SameHead.setExtentBytes _ _).trans (.setLE _ _ _ (by omega))).trans
        (.setLE _ _ _ (by omega))
    · exact Holds.mono (guard_writeBlocks hg data _ _) fun _ h =>
        (Kin.ofHead (.setLE _ _ _ (by omega))).trans h

end Writes

section Bodies

variable {env : Env} (hg : g.Wf) (hs₀ : Guard g L s₀ s₀) (hc : Consistent g s₀.vol)

include hg hs₀ hc

omit hg hs₀ in
theorem not_reach_of_free {n : ℕ} (hn : n < g.totalInodes) (hfree : s₀.vol.ibit n = false) :
    ¬ s₀.vol.Reach n := by
  intro hr
  rw [(hc.ibits n hn).mpr (Or.inr hr)] at hfree
  cases hfree

theorem openForWrite_guard {p : ℕ} {leaf : Name} {mode ftype : ℕ} (hp : s₀.vol.Reach p)
    (hd : (s₀.vol.ino p).isDir = true)
    (hmode : lookupEnt (s₀.vol.out p) leaf ≠ 0 →
      (s₀.vol.ino (lookupEnt (s₀.vol.out p) leaf)).isDir = false →
      mayAccess env (s₀.vol.ino (lookupEnt (s₀.vol.out p) leaf)) CFS_W = true →
      mode % 2 ^ 16 &&& 0o7777 = (s₀.vol.ino (lookupEnt (s₀.vol.out p) leaf)).mode &&& 0o7777) :
    Triple (Asked s₀) (openForWrite env p (s₀.vol.ino p) leaf mode ftype)
      (fun r s => Guard g L s₀ s ∧ (s₀.vol.Reach r.1 → Kin L (s₀.vol.ino r.1) r.2)) (Guard g L s₀) := by
  have hasked : ∀ s', Asked s₀ s' → Guard g L s₀ s' := fun s' ha => hs₀.asked ha
  have hdata := hc.readable.data p hp hd
  refine Holds.andThen (dirLookup_asks hs₀.geom hc.readable hp hd leaf) hasked fun c hlook => ?_
  by_cases hz : c = 0
  · rw [if_neg (by simp [hz])]
    refine Holds.andThen (Holds.ensure _) hasked fun _ _ => ?_
    refine Triple.bind (guard_allocInode hg hs₀) fun n => ?_
    rintro s ⟨hs, hn⟩
    have hrest : Holds (Guard g L s₀) (do
        ensure (n ≠ 0)
        let pdin ← orUndo (dirAdd (s₀.vol.ino p) leaf n ftype) (freeInode n)
        writeDinode p pdin
        pure (n, newFileInode env mode) : M (ℕ × DInode))
        fun r => s₀.vol.Reach r.1 → Kin L (s₀.vol.ino r.1) r.2 := by
      refine .bind (Holds.ensure _) fun _ hne => ?_
      obtain ⟨hlt, hfree⟩ := hn.resolve_left hne
      refine .bind (Holds.orUndo (guard_dirAdd hg hdata) (guard_freeInode hg n)) fun pd hpd => ?_
      refine .bind (guard_writeDinode hg fun _ => hpd) fun _ _ => Holds.pure fun hr => ?_
      exact absurd hr (not_reach_of_free hc hlt hfree)
    exact hrest s hs
  · obtain rfl := hlook.resolve_left hz
    rw [if_pos (by simpa using hz)]
    refine Holds.andThen (readDinode_asks hs₀.geom _) hasked fun din hdin => ?_
    obtain ⟨rfl, -, -⟩ := hdin
    refine Holds.andThen (Holds.ensure _) hasked fun _ hfile => ?_
    refine Holds.andThen (Holds.ensure _) hasked fun _ hmay => ?_
    refine Triple.mono (Holds.bind (guard_inodeFreeData hg _) fun d hd => Holds.pure fun _ => ?_) hasked
      (fun _ _ => id) fun _ => id
    rw [hd]
    have hkin : Kin L (s₀.vol.ino (lookupEnt (s₀.vol.out p) leaf))
        (((s₀.vol.ino (lookupEnt (s₀.vol.out p) leaf)).setNextents 0).setSize 0) :=
      .ofHead ((DInode.SameHead.setLE _ _ _ (by omega)).trans (.setLE _ _ _ (by omega)))
    refine hkin.trans (.setMode _ ?_)
    rw [hkin.perm]
    exact hmode hz hfile hmay

theorem doWriteFile_guard {path data : List UInt8}
    (hreset : Replaces env s₀.vol path data →
      writeMode data &&& 0o7777 = (s₀.vol.ino (s₀.vol.target path)).mode &&& 0o7777) :
    Triple (Asked s₀) (doWriteFile env path data) (fun _ s => Guard g L s₀ s) (Guard g L s₀) := by
  have hasked : ∀ s', Asked s₀ s' → Guard g L s₀ s' := fun s' ha => hs₀.asked ha
  refine Holds.andThen (resolveParent_asks hs₀.geom hc.readable hg.rootIno path) hasked fun r hr => ?_
  obtain ⟨p, leaf⟩ := r
  refine Holds.andThen (readDinode_asks hs₀.geom p) hasked fun pdin hpdin => ?_
  obtain ⟨rfl, -, -⟩ := hpdin
  refine Holds.andThen (Holds.ensure _) hasked fun _ hlink => ?_
  have hlt : writeMode data % 2 ^ 16 = writeMode data := by
    unfold writeMode
    split <;> rfl
  refine Triple.bind (openForWrite_guard hg hs₀ hc hr.reach hr.isDir ?_) fun x => ?_
  · obtain rfl : leaf = leafOf path := hr.leaf_eq
    obtain rfl : p = s₀.vol.resolve (parentOf path) := hr.parent_eq
    intro hne hfile hmay
    rw [hlt]
    exact hreset ⟨⟨hr.leaf_ne, hr.leaf_le⟩, ⟨hr.parent_le, reach_ne_zero hr.reach⟩, hne, hfile, hmay, hlink⟩
  · obtain ⟨n, din⟩ := x
    rintro s ⟨hs, hdin⟩
    have hrest : Holds (Guard g L s₀) (do
        let din ← storeData din data
        writeDinode n (touch din (writeSize data) env.now)
        syncSuper
        pure (toInt32 data.length) : M ℤ) fun _ => True := by
      refine .bind (guard_storeData hg din data) fun d' hd' => ?_
      refine .bind (guard_writeDinode hg fun hn => ?_) fun _ _ => ?_
      · exact ((hdin hn).trans hd').trans (.ofHead (.touch _ _ _))
      · exact .bind (guard_syncSuper hg) fun _ _ => Holds.pure trivial
    exact Triple.mono hrest (fun _ => id) (fun _ _ h => h.1) (fun _ => id) s hs

omit hg in
/-- What every call on a name in its parent directory does before it changes anything. -/
theorem parent_guard {path : List UInt8} {p : ℕ} {leaf : Name} (hat : Located s₀.vol path p leaf)
    {f : DInode → ℕ → M ℤ} (hf : ∀ c, Triple (Asked s₀) (f (s₀.vol.ino p) c)
      (fun _ s => Guard g L s₀ s) (Guard g L s₀)) :
    Triple (Asked s₀) (readDinode p >>= fun pdin =>
      ensure (mayAccess env pdin (CFS_W + CFS_X) = true) >>= fun _ => dirLookup pdin leaf >>= f pdin)
      (fun _ s => Guard g L s₀ s) (Guard g L s₀) := by
  have hasked : ∀ s', Asked s₀ s' → Guard g L s₀ s' := fun s' ha => hs₀.asked ha
  refine Holds.andThen (readDinode_asks hs₀.geom p) hasked fun pdin hpdin => ?_
  obtain ⟨rfl, -, -⟩ := hpdin
  refine Holds.andThen (Holds.ensure _) hasked fun _ _ => ?_
  exact Holds.andThen (dirLookup_asks hs₀.geom hc.readable hat.reach hat.isDir leaf) hasked fun c _ => hf c

theorem doMkdir_guard (hL : ¬ L) (path : List UInt8) :
    Triple (Asked s₀) (doMkdir env path) (fun _ s => Guard g L s₀ s) (Guard g L s₀) := by
  have hasked : ∀ s', Asked s₀ s' → Guard g L s₀ s' := fun s' ha => hs₀.asked ha
  refine Holds.andThen (resolveParent_asks hs₀.geom hc.readable hg.rootIno _) hasked fun r hat => ?_
  obtain ⟨p, leaf⟩ := r
  refine parent_guard hs₀ hc hat fun c => ?_
  have hdata := hc.readable.data p hat.reach hat.isDir
  refine Holds.andThen (Holds.ensure _) hasked fun _ _ => ?_
  refine Triple.bind (guard_allocInode hg hs₀) fun n => ?_
  rintro s ⟨hs, hn⟩
  refine Triple.mono (P := Guard g L s₀) (Q := fun _ s => Guard g L s₀ s ∧ True) ?_ (fun _ => id)
    (fun _ _ h => h.1) (fun _ => id) s hs
  refine Holds.bind (Holds.ensure _) fun _ hne => ?_
  have hnot := (hn.resolve_left hne).elim (not_reach_of_free hc)
  refine Holds.bind (guard_allocBlock hg) fun b hb => ?_
  by_cases hb0 : b = 0
  · rw [if_pos hb0]
    exact Holds.bind (guard_freeInode hg n) fun _ _ => Holds.fail
  · rw [if_neg hb0]
    refine Holds.bind (guard_raw hg (hb.resolve_left hb0) _) fun _ _ => ?_
    refine Holds.bind (guard_writeDinode hg fun hr => absurd hr hnot) fun _ _ => ?_
    refine Holds.bind (Holds.orUndo (guard_dirAdd hg hdata)
      (.bind (guard_freeBlock hg b) fun _ _ => guard_freeInode hg n)) fun pd hpd => ?_
    refine Holds.bind (guard_writeDinode hg fun _ => ?_) fun _ _ =>
      Holds.bind (guard_syncSuper hg) fun _ _ => Holds.pure trivial
    exact (hpd.trans (.setLinks hL _ _)).trans (.ofHead (.restamp _ _))

theorem doRmdir_guard (hL : ¬ L) (path : List UInt8) :
    Triple (Asked s₀) (doRmdir env path) (fun _ s => Guard g L s₀ s) (Guard g L s₀) := by
  have hasked : ∀ s', Asked s₀ s' → Guard g L s₀ s' := fun s' ha => hs₀.asked ha
  refine Holds.andThen (resolveParent_asks hs₀.geom hc.readable hg.rootIno _) hasked fun r hat => ?_
  obtain ⟨p, leaf⟩ := r
  refine parent_guard hs₀ hc hat fun n => ?_
  have hdata := hc.readable.data p hat.reach hat.isDir
  refine Holds.andThen (Holds.ensure _) hasked fun _ _ => ?_
  refine Holds.andThen (readDinode_asks hs₀.geom n) hasked fun din _ => ?_
  refine Holds.andThen (Holds.ensure _) hasked fun _ _ => ?_
  refine Holds.andThen (emptyBlocks_asks din _) hasked fun _ _ => ?_
  refine Holds.andThen (Holds.ensure _) hasked fun _ _ => ?_
  refine Triple.mono (P := Guard g L s₀) (Q := fun _ s => Guard g L s₀ s ∧ True) ?_ hasked
    (fun _ _ h => h.1) fun _ => id
  refine Holds.bind (guard_removeBlocks hg hdata) fun _ _ => ?_
  refine Holds.bind (guard_writeDinode hg fun _ => ?_) fun _ _ => ?_
  · exact (Kin.setLinks hL _ _).trans (.ofHead (.restamp _ _))
  · exact Holds.bind (guard_inodeFreeData hg _) fun _ _ => Holds.bind (guard_freeInode hg n) fun _ _ =>
      Holds.bind (guard_syncSuper hg) fun _ _ => Holds.pure trivial

theorem doUnlink_guard (hL : ¬ L) (path : List UInt8) :
    Triple (Asked s₀) (doUnlink env path) (fun _ s => Guard g L s₀ s) (Guard g L s₀) := by
  have hasked : ∀ s', Asked s₀ s' → Guard g L s₀ s' := fun s' ha => hs₀.asked ha
  refine Holds.andThen (resolveParent_asks hs₀.geom hc.readable hg.rootIno _) hasked fun r hat => ?_
  obtain ⟨p, leaf⟩ := r
  refine parent_guard hs₀ hc hat fun n => ?_
  have hdata := hc.readable.data p hat.reach hat.isDir
  refine Holds.andThen (Holds.ensure _) hasked fun _ _ => ?_
  refine Holds.andThen (readDinode_asks hs₀.geom n) hasked fun din hdin => ?_
  obtain ⟨rfl, -, -⟩ := hdin
  refine Holds.andThen (Holds.ensure _) hasked fun _ _ => ?_
  refine Triple.mono (P := Guard g L s₀) (Q := fun _ s => Guard g L s₀ s ∧ True) ?_ hasked
    (fun _ _ h => h.1) fun _ => id
  refine Holds.bind (guard_removeBlocks hg hdata) fun _ _ => ?_
  refine Holds.bind (guard_writeDinode hg fun _ => Kin.ofHead (.restamp _ _)) fun _ _ => ?_
  refine Holds.bind (Q := fun _ => True) ?_ fun _ _ =>
    Holds.bind (guard_syncSuper hg) fun _ _ => Holds.pure trivial
  unfold dropLink
  split
  · exact Holds.bind (guard_inodeFreeData hg _) fun _ _ => guard_freeInode hg n
  · exact Holds.bind (Holds.attempt (guard_writeDinode hg fun _ => Kin.setLinks hL _ _)) fun _ _ =>
      Holds.pure trivial

theorem doLink_guard (hL : ¬ L) (oldpath newpath : List UInt8) :
    Triple (Asked s₀) (doLink env oldpath newpath) (fun _ s => Guard g L s₀ s) (Guard g L s₀) := by
  have hasked : ∀ s', Asked s₀ s' → Guard g L s₀ s' := fun s' ha => hs₀.asked ha
  refine Holds.andThen (resolveIno_asks hs₀.geom hc.readable hg.rootIno oldpath) hasked fun o _ => ?_
  refine Holds.andThen (Holds.ensure _) hasked fun _ _ => ?_
  refine Holds.andThen (readDinode_asks hs₀.geom o) hasked fun od hod => ?_
  obtain ⟨rfl, -, -⟩ := hod
  refine Holds.andThen (Holds.ensure _) hasked fun _ _ => ?_
  refine Holds.andThen (resolveParent_asks hs₀.geom hc.readable hg.rootIno _) hasked fun r hat => ?_
  obtain ⟨p, leaf⟩ := r
  refine parent_guard hs₀ hc hat fun c => ?_
  have hdata := hc.readable.data p hat.reach hat.isDir
  refine Holds.andThen (Holds.ensure _) hasked fun _ _ => ?_
  refine Triple.mono (P := Guard g L s₀) (Q := fun _ s => Guard g L s₀ s ∧ True) ?_ hasked
    (fun _ _ h => h.1) fun _ => id
  refine Holds.bind (guard_dirAdd hg hdata) fun pd hpd => ?_
  refine Holds.bind (guard_writeDinode hg fun _ => hpd) fun _ _ => ?_
  refine Holds.bind (guard_writeDinode hg fun _ => ?_) fun _ _ => Holds.pure trivial
  exact (Kin.setLinks hL _ _).trans (.ofHead (.setLE _ _ _ (by omega)))

end Bodies

/-- The calls that may change the owner or permission bits: `cfs_chmod` by the owner of the
inode or root, and `cfs_chown` by root. -/
def Call.Privileged (env : Env) (v : Vol) : Call → Prop
  | .chmod path _ => env.uid = 0 ∨ env.uid = (v.ino (v.resolve path)).uid
  | .chown _ _ _ => env.uid = 0
  | _ => False

def Call.IsWrite : Call → Prop
  | .writeFile _ _ => True
  | _ => False

/-- The call replaces a file whose permission bits are not those of a new file. -/
def Call.Resets (env : Env) (v : Vol) : Call → Prop
  | .writeFile path data => Replaces env v path data ∧
      writeMode data &&& 0o7777 ≠ (v.ino (v.target path)).mode &&& 0o7777
  | _ => False

theorem body_guard {env : Env} {c : Call} (hg : g.Wf) (hs₀ : Guard g c.IsWrite s₀ s₀)
    (hc : Consistent g s₀.vol) (hpriv : ¬ c.Privileged env s₀.vol) (hreset : ¬ c.Resets env s₀.vol) :
    Triple (Asked s₀) (c.body env) (fun _ s => Guard g c.IsWrite s₀ s) (Guard g c.IsWrite s₀) := by
  have hasked : ∀ s', Asked s₀ s' → Guard g c.IsWrite s₀ s' := fun s' ha => hs₀.asked ha
  cases c with
  | writeFile path data =>
    refine doWriteFile_guard hg hs₀ hc fun hr => ?_
    by_contra hne
    exact hreset ⟨hr, hne⟩
  | mkdir path => exact doMkdir_guard hg hs₀ hc id path
  | rmdir path => exact doRmdir_guard hg hs₀ hc id path
  | unlink path => exact doUnlink_guard hg hs₀ hc id path
  | link oldpath newpath => exact doLink_guard hg hs₀ hc id oldpath newpath
  | chmod path perm =>
    rw [Call.body, doChmod_eq]
    refine Holds.andThen (named_asks hs₀.geom hg.rootIno hc.readable path) hasked fun r hr => ?_
    obtain rfl := hr
    exact Holds.andThen (Holds.ensure _) hasked fun _ h => absurd h hpriv
  | chown path uid gid => exact Holds.andThen (Holds.ensure _) hasked fun _ h => absurd h hpriv

/-- A tear at a sector boundary does not go through an inode record. -/
theorem torn_sub {off : ℕ} (k : ℕ) (old new : Block) (h : off % 256 = 0) :
    ((torn k old new).sub off : DInode) = new.sub off ∨ ((torn k old new).sub off : DInode) = old.sub off := by
  by_cases hk : off < 512 * k
  · left
    apply ext_byte
    intro i hi
    rw [byte_sub _ hi, byte_sub _ hi]
    by_cases hin : off + i < 4096
    · rw [torn, byte_ofFn _ hin, if_pos (by omega)]
    · rw [byte_of_le _ (by omega), byte_of_le _ (by omega)]
  · right
    apply ext_byte
    intro i hi
    rw [byte_sub _ hi, byte_sub _ hi]
    by_cases hin : off + i < 4096
    · rw [torn, byte_ofFn _ hin, if_neg (by omega)]
    · rw [byte_of_le _ (by omega), byte_of_le _ (by omega)]

/-- After the call every inode that was reachable and still is has its permission bits and
its owner, unless the call was one that may change them. -/
def OwnerOnly (env : Env) (c : Call) (s : St) : Prop :=
  ¬ c.Privileged env s.vol → ∀ n, s.vol.Reach n → ((c.exec env).run s).2.vol.Reach n →
    Kin c.IsWrite (s.vol.ino n) (((c.exec env).run s).2.vol.ino n)

theorem vol_ino {n : ℕ} (hg : g.Wf) (hs : s.fs.toGeom = g) (hn : n < g.totalInodes) :
    s.vol.ino n = (s.view (g.inodeBlock n)).sub (n * 256 % 4096) := by
  change (if n < s.fs.totalInodes then (s.view (s.fs.inodeBlock n)).sub (s.fs.inodeOff n) else _) = _
  have hwf : s.fs.Wf := by rwa [hs]
  rw [hwf.inodeOff_eq, hs, if_pos hn]

/-- The records of the inode table are neither in the journal nor data. -/
theorem inodeBlock_region {n : ℕ} (hg : g.Wf) (hn : n < g.totalInodes) :
    ¬ g.InJournal (g.inodeBlock n) ∧ ¬ g.IsData (g.inodeBlock n) := by
  have h1 := hg.blockBitmap
  have h2 := hg.inodeBitmap
  have h3 := hg.inodeTable
  have h4 := hg.inodeSize
  have hblk : g.inodeBlock n = g.inodeTableStart + n * 256 / 4096 := by rw [Geom.inodeBlock, h4]
  rw [hblk]
  constructor
  · rintro ⟨h5, h6⟩
    by_cases hj : g.journalBlocks = 0
    · omega
    · have := hg.journal (hg.journalAt hj)
      omega
  · rintro ⟨h5, h6⟩
    omega

/-- A call that is not privileged and does not reset a mode keeps every owner, whatever the
device answers. -/
theorem exec_kin {env : Env} {c : Call} (hg : g.Wf) (hs : s.Still g) (hc : Consistent g s.vol)
    (hpriv : ¬ c.Privileged env s.vol) (hreset : ¬ c.Resets env s.vol) {n : ℕ} (hn : s.vol.Reach n) :
    Kin c.IsWrite (s.vol.ino n) (((c.exec env).run s).2.vol.ino n) := by
  have hlt := hc.inTable n hn
  obtain ⟨hjour, hmeta⟩ := inodeBlock_region hg hlt
  have hvol := hs.begun_vol
  have hs₀ : Guard g c.IsWrite s.begun s.begun :=
    ⟨hs.geom, rfl, List.nodup_nil, fun _ _ => rfl, fun _ _ => .refl _⟩
  rw [← hvol] at hc hpriv hreset hn ⊢
  have hbody := body_guard hg hs₀ hc hpriv hreset s.begun (.refl _)
  have hold : s.begun.vol.ino n = (s.disk (g.inodeBlock n)).sub (n * 256 % 4096) := by
    rw [hvol, vol_ino hg hs.geom hlt, view_of_inactive hs.idle]
  cases hcom : commitState env c s with
  | none =>
    rw [exec_aborts hcom]
    have hs1 : Guard g c.IsWrite s.begun ((c.body env).run s.begun).2 := by
      rcases hrun : (c.body env).run s.begun with ⟨_ | rc, s1⟩
      · exact hbody.2 s1 hrun
      · exact hbody.1 rc s1 hrun
    have habort : (txnAbort.run ((c.body env).run s.begun).2).2.vol.ino n =
        (((c.body env).run s.begun).2.disk (g.inodeBlock n)).sub (n * 256 % 4096) :=
      @vol_ino g (txnAbort.run ((c.body env).run s.begun).2).2 n hg hs1.geom hlt
    rw [habort]
    rw [hs1.disk _ hmeta]
    change Kin _ _ ((s.disk (g.inodeBlock n)).sub (n * 256 % 4096))
    rw [← hold]
    exact .refl _
  | some s1 =>
    obtain ⟨rc, hrun, -, hb⟩ := exec_commits hcom
    have hs1 := hbody.1 rc s1 hb
    have hafter : ((c.exec env).run s).2 = (txnCommit.run s1).2 := by
      rw [hrun, bind_run]
      rcases txnCommit.run s1 with ⟨_ | u, s2⟩ <;> rfl
    have hgeom : (txnCommit.run s1).2.fs.toGeom = g := by rw [(txnCommit_sameMount s1).fs, hs1.geom]
    obtain ⟨⟨k, hk⟩, -⟩ := txnCommit_view hs1.active hs1.nodup (b := g.inodeBlock n)
      (by rw [hs1.geom]; exact hjour)
    rw [hafter, vol_ino hg hgeom hlt, hk]
    rcases torn_sub k (s1.disk (g.inodeBlock n)) (s1.view (g.inodeBlock n))
      (show n * 256 % 4096 % 256 = 0 by omega) with h | h
    · rw [h, ← vol_ino hg hs1.geom hlt]
      exact hs1.kin n hn
    · rw [h, hs1.disk _ hmeta]
      change Kin _ _ ((s.disk (g.inodeBlock n)).sub (n * 256 % 4096))
      rw [← hold]
      exact .refl _

end ComputerOS.Cfs
