import ComputerOS.Cfs.Effect

/-!
Calls that pass their checks and find room succeed. `removeBlocks` and `addBlocks` reach
the block they look for, and up to three buffered writes are not refused: the frees and the
superblock come after them, and their answers are not looked at.
-/

namespace ComputerOS.Cfs

open M Bytes Function

variable {g : Geom} {s s' : St} {d : DInode} {name : Name}

theorem bdWriteBlock_room (ha : s.txnActive = true) (hroom : s.txn.length < CFS_MAX_TXN) (b : ℕ)
    (blk : Block) : (bdWriteBlock b blk).run s = (some (), s.buffer b blk) := by
  rw [bdWriteBlock_eq, if_pos ha, if_neg fun h => absurd h.2 (by omega)]
  rfl

theorem length_buffer_le (s : St) (b : ℕ) (blk : Block) : (s.buffer b blk).txn.length ≤ s.txn.length + 1 :=
  length_txnPut_le s.txn b blk

/-- `dir_remove` finds a name that the directory has. -/
theorem removeBlocks_run (hs : s.InTxn g) (hroom : s.txn.length < CFS_MAX_TXN) {fbs : List ℕ}
    (hmem : ∃ e ∈ (mappedAt d fbs).flatMap (fun b => dirEnts (s.view b)), e.1 = name) :
    ∃ s', (removeBlocks d name fbs).run s = (some (), s') ∧ s'.txn.length ≤ s.txn.length + 1 := by
  induction fbs with
  | nil => simp [mappedAt] at hmem
  | cons fb fbs ih =>
    rw [removeBlocks]
    by_cases hz : mapFileblock d fb = 0
    · rw [mappedAt_zero fbs hz] at hmem
      simpa only [if_pos hz] using ih hmem
    · rw [mappedAt_pos fbs hz, List.flatMap_cons] at hmem
      simp only [if_neg hz]
      rw [bind_of_some (bdReadBlock_run hs.reads _)]
      cases hrem : removeFrom (s.view (mapFileblock d fb)) name none
          (dirRecs (s.view (mapFileblock d fb)) 0) with
      | none =>
        obtain ⟨e, he, hname⟩ := hmem
        rcases List.mem_append.mp he with h | h
        · exact absurd hname (removeFrom_eq_none hrem e h)
        · exact ih ⟨e, h, hname⟩
      | some blk => exact ⟨_, bdWriteBlock_room hs.active hroom _ _, length_buffer_le _ _ _⟩

theorem addBlocks_run (hs : s.InTxn g) (hroom : s.txn.length < CFS_MAX_TXN) (child type : ℕ) {fbs : List ℕ}
    (hfits : ∃ b ∈ mappedAt d fbs,
      (dirRecs (s.view b) 0).find? (fitsAt (s.view b) (align8 (12 + name.length))) ≠ none) :
    ∃ s', (addBlocks d name child type fbs).run s = (some (some ()), s') ∧
      s'.txn.length ≤ s.txn.length + 1 := by
  induction fbs with
  | nil => simp [mappedAt] at hfits
  | cons fb fbs ih =>
    rw [addBlocks]
    by_cases hz : mapFileblock d fb = 0
    · rw [mappedAt_zero fbs hz] at hfits
      simpa only [if_pos hz] using ih hfits
    · rw [mappedAt_pos fbs hz] at hfits
      simp only [if_neg hz]
      rw [bind_of_some (bdReadBlock_run hs.reads _)]
      cases hfind : (dirRecs (s.view (mapFileblock d fb)) 0).find?
          (fitsAt (s.view (mapFileblock d fb)) (align8 (12 + name.length))) with
      | none =>
        obtain ⟨b, hb, hfit⟩ := hfits
        rcases List.mem_cons.mp hb with rfl | hb
        · exact absurd hfind hfit
        · exact ih ⟨b, hb, hfit⟩
      | some off =>
        refine ⟨s.buffer (mapFileblock d fb)
          (addAt (s.view (mapFileblock d fb)) off child type name), ?_, length_buffer_le _ _ _⟩
        dsimp only
        rw [bind_of_some (bdWriteBlock_room hs.active hroom _ _), pure_run]

theorem freshDirBlock_fits {child type : ℕ} {name : Name} (hn : name.length ≤ 255) (hc : child < 2 ^ 64)
    (hc0 : child ≠ 0) {need : ℕ} (hneed : need ≤ 272) : (dirRecs (freshDirBlock child type name) 0).find?
      (fitsAt (freshDirBlock child type name) need) ≠ none := by
  obtain ⟨htiled, hents⟩ := freshDirBlock_spec type hn hc hc0
  have hrec : Dirent.recLen (freshDirBlock child type name) 0 = 4096 := by
    rw [Dirent.recLen, freshDirBlock, getLE_setLE_same _ _ (by omega)]
    rfl
  have hused : usedLen (freshDirBlock child type name) 0 ≤ 280 := by
    have hlt : Dirent.nameLen (freshDirBlock child type name) 0 < 2 ^ 8 := getLE_lt _ _ 1
    have := align8_lt (12 + Dirent.nameLen (freshDirBlock child type name) 0)
    unfold usedLen
    omega
  have hmem : 0 ∈ dirRecs (freshDirBlock child type name) 0 := by
    unfold Tiled at htiled
    revert htiled
    cases hrecs : dirRecs (freshDirBlock child type name) 0 with
    | nil => intro h; cases h
    | cons o offs => intro h; cases h; exact List.mem_cons_self
  intro hnone
  have := List.find?_eq_none.mp hnone 0 hmem
  unfold fitsAt at this
  rw [hrec, sub32] at this
  split_ifs at this <;> simp only [decide_eq_true_eq] at this <;> omega

/-- A path with a parent directory is resolved to it. -/
theorem Located.run (hg : g.Wf) (hs : s.Mounted g) (hv : Readable g s.vol) {path : List UInt8} {p : ℕ}
    {leaf : Name} (h : Located s.vol path p leaf) : (resolveParent path).run s = (some (p, leaf), s) := by
  obtain ⟨rfl, hne, hle, hpar, rfl, hreach, hdir⟩ := h
  exact resolveParent_run hg hs hv ⟨hne, hle⟩ hpar (hv.pos _ hreach) hdir

theorem dropLink_run (hg : g.Wf) (hs : s.InTxn g) (n : ℕ) (d : DInode) :
    ∃ s', (dropLink n d).run s = (some (), s') ∧ s'.InTxn g := by
  unfold dropLink
  by_cases hl : d.links = 0
  · rw [if_pos hl]
    obtain ⟨s', hrun, hstep, -⟩ := free_freed hg hs n d
    exact ⟨s', hrun, hstep.inTxn hs⟩
  · rw [if_neg hl]
    refine ⟨((writeDinode n d).run s).2, ?_, (Ordered.buffered (writeDinode_buffered n d)).inTxn hs⟩
    rw [bind_of_some (attempt_run _ s), pure_run]

section Bodies

variable (hg : g.Wf) (hs : s.Fresh g) (hu : Usable g s.vol) (htxn : s.txn = []) {env : Env}
  {path : List UInt8} {p n : ℕ} {leaf : Name}

include hg hs hu htxn

omit hg in
/-- The entry of a name is taken out and the inode of its directory written. -/
theorem removed_run (hat : Located s.vol path p leaf) (hmem : (leaf, n) ∈ s.vol.out p) (d : DInode) :
    ∃ s1 s2, (dirRemove (s.vol.ino p) leaf).run s = (some (), s1) ∧
      (writeDinode p d).run s1 = (some (), s2) ∧ s2.InTxn g := by
  have hents : (leaf, n) ∈ entsIn s.view (s.vol.ino p) := by
    rwa [entsIn_view hs.toMounted (hu.data p hat.reach hat.isDir), ← Vol.out_of_isDir hat.isDir]
  obtain ⟨s1, h1, hlen1⟩ : ∃ s1, (dirRemove (s.vol.ino p) leaf).run s = (some (), s1) ∧
      s1.txn.length ≤ s.txn.length + 1 :=
    removeBlocks_run hs.toInTxn (by rw [htxn]; decide) ⟨_, hents, rfl⟩
  have hin1 : s1.InTxn g := (dirRemove_buffered _ _).inTxn_of_run hs.toInTxn h1
  rw [htxn] at hlen1
  obtain ⟨s2, h2, -⟩ := writeDinode_room hin1 ⟨hu.pos p hat.reach, hu.lt p hat.reach⟩ d
    (lt_of_le_of_lt hlen1 (by decide))
  exact ⟨s1, s2, h1, h2, (writeDinode_buffered _ _).inTxn_of_run hin1 h2⟩

/-- An unlink that passes its checks returns 0. -/
theorem doUnlink_run (hat : Located s.vol path p leaf)
    (hmay : mayAccess env (s.vol.ino p) (CFS_W + CFS_X) = true) (hlook : lookupEnt (s.vol.out p) leaf = n)
    (hn : n ≠ 0) (hlt : n < g.totalInodes) (hfile : (s.vol.ino n).isDir = false) :
    ∃ s', (doUnlink env path).run s = (some 0, s') := by
  have hpd : p ≠ 0 ∧ p < g.totalInodes := ⟨hu.pos p hat.reach, hu.lt p hat.reach⟩
  have hparent := hat.run hg hs.toMounted hu.toReadable
  have hmem : (leaf, n) ∈ s.vol.out p := by
    rw [← hlook] at hn ⊢
    exact lookupEnt_mem hn
  obtain ⟨s1, s2, h1, h2, hin2⟩ := removed_run hs hu htxn hat hmem (((s.vol.ino p).setMtime env.now).setCtime env.now)
  obtain ⟨s3, h3, hin3⟩ := dropLink_run hg hin2 n ((s.vol.ino n).setLinks ((s.vol.ino n).links - 1))
  obtain ⟨s4, h4, -⟩ := syncSuper_synced hg hin3
  refine ⟨s4, ?_⟩
  rw [doUnlink, bind_of_some hparent, bind_of_some (readDinode_run hs.toMounted hpd),
    bind_of_some (ensure_pos hmay s),
    bind_of_some (dirLookup_vol hs.toMounted hu.toReadable hat.reach hat.isDir leaf), hlook,
    bind_of_some (ensure_pos hn s), bind_of_some (readDinode_run hs.toMounted ⟨hn, hlt⟩),
    bind_of_some (ensure_pos hfile s), bind_of_some h1, bind_of_some h2, bind_of_some h3, bind_of_some h4,
    pure_run]

/-- A link that passes its checks returns 0, if a block of the directory has room for the name. -/
theorem doLink_run {oldpath newpath : List UInt8} (hold : s.vol.resolve oldpath = n) (hn : n ≠ 0)
    (hfile : (s.vol.ino n).isDir = false) (hat : Located s.vol newpath p leaf)
    (hmay : mayAccess env (s.vol.ino p) (CFS_W + CFS_X) = true) (hlook : lookupEnt (s.vol.out p) leaf = 0)
    (hfits : ∃ b ∈ (s.vol.ino p).dirBlocks, (dirRecs (s.vol.data b) 0).find?
      (fitsAt (s.vol.data b) (align8 (12 + leaf.length))) ≠ none) :
    ∃ s', (doLink env oldpath newpath).run s = (some 0, s') := by
  have hpd : p ≠ 0 ∧ p < g.totalInodes := ⟨hu.pos p hat.reach, hu.lt p hat.reach⟩
  have hnd : n ≠ 0 ∧ n < g.totalInodes := ⟨hn, hu.lt n (hold ▸ resolve_reach (by rwa [hold]))⟩
  have hfits' : ∃ b ∈ mappedAt (s.vol.ino p) (List.range ((s.vol.ino p).size / 4096)),
      (dirRecs (s.view b) 0).find? (fitsAt (s.view b) (align8 (12 + leaf.length))) ≠ none := by
    obtain ⟨b, hb, hfind⟩ := hfits
    rw [vol_data hs.toMounted (hu.data p hat.reach hat.isDir b hb)] at hfind
    exact ⟨b, hb, hfind⟩
  obtain ⟨s1, hadd, hlen1⟩ := addBlocks_run hs.toInTxn (by rw [htxn]; decide) n
    (if (s.vol.ino n).isLnk then CFS_FT_LNK else CFS_FT_REG) hfits'
  have h1 : (dirAdd (s.vol.ino p) leaf n (if (s.vol.ino n).isLnk then CFS_FT_LNK else CFS_FT_REG)).run s =
      (some (s.vol.ino p), s1) := by
    rw [dirAdd, bind_of_some hadd]
    rfl
  have hin1 : s1.InTxn g := (dirAdd_ordered _ _ _ _).inTxn_of_run hs.toInTxn h1
  rw [htxn] at hlen1
  obtain ⟨s2, h2, hlen2⟩ := writeDinode_room hin1 hpd (s.vol.ino p) (lt_of_le_of_lt hlen1 (by decide))
  have hin2 : s2.InTxn g := (writeDinode_buffered _ _).inTxn_of_run hin1 h2
  obtain ⟨s3, h3, -⟩ := writeDinode_room hin2 hnd
    (((s.vol.ino n).setLinks ((s.vol.ino n).links + 1)).setCtime env.now)
    (lt_of_le_of_lt (hlen2.trans (Nat.add_le_add_right hlen1 1)) (by decide))
  refine ⟨s3, ?_⟩
  rw [doLink, bind_of_some (resolveIno_run hg hs.toMounted hu.toReadable oldpath), hold,
    bind_of_some (ensure_pos hn s), bind_of_some (readDinode_run hs.toMounted hnd),
    bind_of_some (ensure_pos hfile s), bind_of_some (hat.run hg hs.toMounted hu.toReadable),
    bind_of_some (readDinode_run hs.toMounted hpd), bind_of_some (ensure_pos hmay s),
    bind_of_some (dirLookup_vol hs.toMounted hu.toReadable hat.reach hat.isDir leaf),
    bind_of_some (ensure_pos hlook s), bind_of_some h1, bind_of_some h2, bind_of_some h3, pure_run]

end Bodies

section Calls

variable (hg : g.Wf) (hs : s.Idle g) (hw : s.WritesOk) (hu : Usable g s.vol) {env : Env} {p n : ℕ}
  {leaf : Name}

include hg hs hw hu

theorem unlink_succeeds {path : List UInt8} (hat : Located s.vol path p leaf)
    (hmay : mayAccess env (s.vol.ino p) (CFS_W + CFS_X) = true) (hlook : lookupEnt (s.vol.out p) leaf = n)
    (hn : n ≠ 0) (hlt : n < g.totalInodes) (hfile : (s.vol.ino n).isDir = false) :
    (((Call.unlink path).exec env).run s).1 ≠ none := by
  have hvol := hs.begun_vol
  obtain ⟨s', hrun⟩ := @doUnlink_run g s.begun hg hs.begun_fresh (hvol ▸ hu) rfl env path p n leaf
    (hvol ▸ hat) (hvol ▸ hmay) (hvol ▸ hlook) hn hlt (hvol ▸ hfile)
  exact exec_ne_none hw (congrArg Prod.fst hrun) le_rfl

theorem link_succeeds {oldpath newpath : List UInt8} (hold : s.vol.resolve oldpath = n) (hn : n ≠ 0)
    (hfile : (s.vol.ino n).isDir = false) (hat : Located s.vol newpath p leaf)
    (hmay : mayAccess env (s.vol.ino p) (CFS_W + CFS_X) = true) (hlook : lookupEnt (s.vol.out p) leaf = 0)
    (hfits : ∃ b ∈ (s.vol.ino p).dirBlocks, (dirRecs (s.vol.data b) 0).find?
      (fitsAt (s.vol.data b) (align8 (12 + leaf.length))) ≠ none) :
    (((Call.link oldpath newpath).exec env).run s).1 ≠ none := by
  have hvol := hs.begun_vol
  obtain ⟨s', hrun⟩ := @doLink_run g s.begun hg hs.begun_fresh (hvol ▸ hu) rfl env p n leaf oldpath newpath
    (hvol ▸ hold) hn (hvol ▸ hfile) (hvol ▸ hat) (hvol ▸ hmay) (hvol ▸ hlook) (hvol ▸ hfits)
  exact exec_ne_none hw (congrArg Prod.fst hrun) le_rfl

end Calls

end ComputerOS.Cfs
