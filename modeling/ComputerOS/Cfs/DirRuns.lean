import ComputerOS.Cfs.DirMap
import ComputerOS.Cfs.Rmdir
import ComputerOS.Cfs.Pushes

/-!
Runs of `dir_add` and `dir_remove` on one directory. In every state of a run the directory is the
map that the operations so far make of the first one, however records are split, merged and reused.
The run may not let the 32 bits of an extent's count wrap: then the directory loses the whole
extent, and the new name with it.
-/
namespace ComputerOS.Cfs

open M Bytes Function

variable {g : Geom} {v w : Vol} {s s' t u : St} {d d' e : DInode} {name : Name} {b c type : ℕ} {m : Name → ℕ}

/-- The states, directory inodes and maps that successful calls lead to. Between them the rest of
the core may do what leaves the blocks of the directory alone and in use. -/
inductive DirRun (g : Geom) (s : St) (d : DInode) : St → DInode → (Name → ℕ) → Prop
  | start : DirRun g s d s d (entMap (s.vol.ents d))
  | add {t u : St} {e e' : DInode} {m : Name → ℕ} {name : Name} {c type : ℕ} (h : DirRun g s d t e m)
      (hname : 1 ≤ name.length ∧ name.length ≤ 255) (hnew : m name = 0) (hc : c ≠ 0 ∧ c < 2 ^ 64)
      (hfits : ¬ CountWraps g t.vol e name) (hrun : (dirAdd e name c type).run t = (some e', u)) :
      DirRun g s d u e' (update m name c)
  | remove {t u : St} {e : DInode} {m : Name → ℕ} {name : Name} (h : DirRun g s d t e m)
      (hrun : (dirRemove e name).run t = (some (), u)) : DirRun g s d u e (update m name 0)
  | rest {t u : St} {e : DInode} {m : Name → ℕ} (h : DirRun g s d t e m) (hw : u.Working g)
      (hkept : ∀ b ∈ e.blocks, u.vol.data b = t.vol.data b ∧ u.vol.bbit b = true) : DirRun g s d u e m

/-- Directory `d` is the map `m`: its blocks are tiled and its names unique, looking a name up
applies the map, the emptiness test asks for names besides the dots, and the entries are those of
the map. -/
structure IsMap (g : Geom) (s : St) (d : DInode) (m : Name → ℕ) : Prop where
  sound : SoundDir g s.vol d
  lookup : ∀ name, (dirLookup d name).run s = (some (m name), s)
  empty : ∃ r, (dirIsEmpty d).run s = (some r, s) ∧ (r = true ↔ ∀ name, m name ≠ 0 → IsDotName name)
  entries : ∀ name c, (name, c) ∈ s.vol.ents d ↔ m name = c ∧ c ≠ 0

theorem SoundDir.isMap (hg : g.Wf) (hs : s.Working g) (hd : SoundDir g s.vol d) :
    IsMap g s d (entMap (s.vol.ents d)) := by
  have hview : entsIn s.view d = s.vol.ents d := entsIn_view hs.toMounted fun b hb => (hd.held hg b hb).1
  have hmem : ∀ name c, (name, c) ∈ s.vol.ents d ↔ entMap (s.vol.ents d) name = c ∧ c ≠ 0 := fun name c =>
    mem_iff_entMap hd.names fun e he => ents_ne_zero he
  refine ⟨hd, fun name => ?_, ?_, hmem⟩
  · rw [dirLookup_run hs.reads, hview]
    rfl
  · obtain ⟨r, hrun, hr⟩ := dirIsEmpty_run hs.reads d
    refine ⟨r, hrun, hr.trans ?_⟩
    rw [hview]
    constructor
    · intro hall name hname
      exact hall _ ((hmem name _).mpr ⟨rfl, hname⟩)
    · intro hall e he
      obtain ⟨heq, hne⟩ := (hmem e.1 e.2).mp he
      exact hall e.1 (heq ▸ hne)

/-- One call updates the map at its name. -/
theorem dirRun_keeps (hg : g.Wf) (hs : s.Working g) (hd : SoundDir g s.vol d) (h : DirRun g s d t e m) :
    t.Working g ∧ SoundDir g t.vol e ∧ m = entMap (t.vol.ents e) := by
  induction h with
  | start => exact ⟨hs, hd, rfl⟩
  | @add t u e e' m name c type _ hname hnew hc hfits hrun ih =>
    obtain ⟨hw, hsound, rfl⟩ := ih
    have hnot : name ∉ (t.vol.ents e).map Prod.fst := (lookupEnt_eq_zero fun e he => ents_ne_zero he).mp hnew
    obtain ⟨hw', hsound', l₁, l₂, hold, hnew'⟩ := dirAdd_inserts hg hw hsound hname.2 hnot hc.1 hc.2 hfits hrun
    refine ⟨hw', hsound', ?_⟩
    rw [hold] at hnot ⊢
    rw [hnew', entMap_insert hnot]
  | @remove t u e m name _ hrun ih =>
    obtain ⟨hw, hsound, rfl⟩ := ih
    obtain ⟨hw', hsound', l₁, c, l₂, hold, hnew⟩ := dirRemove_erases hg hw hsound hrun
    have hnames := hsound.names
    rw [hold] at hnames
    refine ⟨hw', hsound', ?_⟩
    rw [hold, hnew, entMap_erase hnames]
  | rest _ hw' hkept ih =>
    obtain ⟨-, hsound, rfl⟩ := ih
    obtain ⟨hsound', hents⟩ := hsound.congr hg hkept
    exact ⟨hw', hsound', by rw [hents]⟩

/-- A directory implements a finite map: in every state of a run in which no extent count wraps, it
is the map that the calls so far make of the first one. -/
theorem dirRun_isMap (hg : g.Wf) (hs : s.Working g) (hd : SoundDir g s.vol d) (h : DirRun g s d t e m) :
    IsMap g t e m := by
  obtain ⟨hw, hsound, rfl⟩ := dirRun_keeps hg hs hd h
  exact hsound.isMap hg hw

theorem Good.soundDir {n : ℕ} (h : Good g v n) (hdir : (v.ino n).isDir = true) : SoundDir g v (v.ino n) := by
  obtain ⟨hholes, hsize⟩ := h.shaped.dir hdir
  have hnames := h.names
  rw [Vol.out_of_isDir hdir] at hnames
  exact ⟨h.shaped.extents, hholes, hsize, h.inRange, h.once, h.used, h.tiled hdir, hnames⟩

/-- What the entries of a packed block leave over belongs to the last record. -/
theorem packEnts_room {l : List Ent} (hne : l ≠ []) (hname : ∀ e ∈ l, e.1.length ≤ 255)
    (hino : ∀ e ∈ l, e.2 < 2 ^ 64 ∧ e.2 ≠ 0) {off need : ℕ} (hlen : off + entsLen l + need ≤ 4096) {blk : Block}
    {offs : List ℕ} (ht : Tiles (packEnts off l blk) off 4096 offs) :
    ∃ o ∈ offs, fitsAt (packEnts off l blk) need o = true := by
  induction l generalizing off blk offs with
  | nil => exact absurd rfl hne
  | cons e rest ih =>
    have hn := hname e List.mem_cons_self
    have hc := hino e List.mem_cons_self
    have halign := le_align8 (12 + e.1.length)
    rw [entsLen, List.map_cons, List.sum_cons] at hlen
    have hoff : off < 4096 := by omega
    cases ht with
    | nil => omega
    | @cons _ _ offs _ ht =>
      cases rest with
      | nil =>
        refine ⟨off, List.mem_cons_self, ?_⟩
        rw [List.map_nil, List.sum_nil] at hlen
        have hrec : Dirent.recLen (packEnts off [e] blk) off = 4096 - off := by
          rw [packEnts, Dirent.recLen, getLE_setLE_same _ _ (by omega)]
          exact Nat.mod_eq_of_lt (by omega)
        have hnum : Dirent.inode (packEnts off [e] blk) off = e.2 := by
          rw [packEnts, Dirent.inode, getLE_setLE_ne _ (by omega)]
          exact inode_putEntry _ _ _ _ _ (by omega) hc.1
        have hnlen : Dirent.nameLen (packEnts off [e] blk) off = e.1.length := by
          rw [packEnts, Dirent.nameLen, getLE_setLE_ne _ (by omega)]
          exact nameLen_putEntry _ _ _ _ _ (by omega) hn
        rw [fitsAt, hnum, if_neg hc.2, hrec, usedLen, hnlen, sub32]
        simp only [decide_eq_true_eq]
        omega
      | cons e' rest =>
        have hrec : Dirent.recLen (packEnts off (e :: e' :: rest) blk) off = align8 (12 + e.1.length) := by
          rw [packEnts, recLen_congr fun i _ hi => packEnts_byte _ (by omega) _, Dirent.recLen,
            getLE_setLE_same _ _ (by omega)]
          exact Nat.mod_eq_of_lt (by omega)
        rw [hrec, packEnts] at ht
        rw [packEnts]
        obtain ⟨o, ho, hfits⟩ := ih (by simp) (fun x hx => hname x (List.mem_cons_of_mem _ hx))
          (fun x hx => hino x (List.mem_cons_of_mem _ hx)) (by rw [entsLen]; omega) ht
        exact ⟨o, List.mem_cons_of_mem _ ho, hfits⟩

/-- The directory has room for one more name. -/
theorem comb_fits : (dirRecs (packDir (combEnts 3 1)) 0).find?
    (fitsAt (packDir (combEnts 3 1)) (align8 (12 + List.length [(99 : UInt8)]))) ≠ none := by
  have hname : ∀ e ∈ combEnts 3 1, e.1.length ≤ 255 := by decide
  have hino : ∀ e ∈ combEnts 3 1, e.2 < 2 ^ 64 ∧ e.2 ≠ 0 := by decide
  obtain ⟨htiled, -⟩ := packDir_spec (by decide) hname hino (by decide)
  obtain ⟨o, ho, hfits⟩ := packEnts_room (by decide) hname hino
    (show 0 + entsLen (combEnts 3 1) + 16 ≤ 4096 by decide) htiled
  exact fun hnone => List.find?_eq_none.mp hnone o ho hfits

/-- The root of a volume with two directories in it: a name is added, and one of the old names
removed. -/
theorem dirRun_isMap_comb : ∃ t u,
    (dirAdd ((combVol combGeom 3).ino 1) [99] 3 CFS_FT_DIR).run (combState combGeom 3).begun =
      (some ((combVol combGeom 3).ino 1), t) ∧
    (dirRemove ((combVol combGeom 3).ino 1) [97]).run t = (some (), u) ∧
    IsMap combGeom u ((combVol combGeom 3).ino 1) (update (update (entMap (combEnts 3 1)) [99] 3) [97] 0) := by
  have hs := (combState_idle combGeom 3).begun_fresh
  have hv := combState_wellFormed combOk_three
  have hvol : (combState combGeom 3).begun.vol = combVol combGeom 3 := by
    rw [(combState_idle combGeom 3).begun_vol, combState_vol combOk_three]
  have hdir : ((combVol combGeom 3).ino 1).isDir = true := (combVol_isDir 1).mpr ⟨by decide, by decide⟩
  have hd : SoundDir combGeom (combState combGeom 3).begun.vol ((combVol combGeom 3).ino 1) := by
    rw [combState_vol combOk_three] at hv
    rw [hvol]
    exact ((hv.sound combGeom_wf).good 1 .root).soundDir hdir
  have hents : (combVol combGeom 3).ents ((combVol combGeom 3).ino 1) = combEnts 3 1 := by
    rw [← Vol.out_of_isDir hdir]
    exact combVol_out combOk_three ⟨by decide, by decide⟩
  have hblocks : ((combVol combGeom 3).ino 1).dirBlocks = [combGeom.dataStart] :=
    combVol_dirBlocks combOk_three ⟨by decide, by decide⟩
  have hdata : (combVol combGeom 3).data combGeom.dataStart = packDir (combEnts 3 1) :=
    combVol_data (n := 1) ⟨by decide, by decide⟩
  have hfits : ¬ CountWraps combGeom (combState combGeom 3).begun.vol ((combVol combGeom 3).ino 1) [99] := by
    intro hw
    have hfull := hw.full combGeom.dataStart (by rw [hblocks]; exact List.mem_singleton_self _)
    rw [hvol, hdata] at hfull
    exact comb_fits hfull
  obtain ⟨t, hblock, hlen⟩ := @addBlocks_run combGeom _ ((combVol combGeom 3).ino 1) [99] hs.toInTxn (by decide) 3
    CFS_FT_DIR (List.range (((combVol combGeom 3).ino 1).size / 4096)) ⟨combGeom.dataStart, by
      change _ ∈ ((combVol combGeom 3).ino 1).dirBlocks
      rw [hblocks]
      exact List.mem_singleton_self _, by
      rw [← vol_data hs.toMounted ⟨le_rfl, by decide⟩, hvol, hdata]
      exact comb_fits⟩
  have hadd : (dirAdd ((combVol combGeom 3).ino 1) [99] 3 CFS_FT_DIR).run
      (combState combGeom 3).begun = (some ((combVol combGeom 3).ino 1), t) := by
    rw [dirAdd, bind_of_some hblock]
    rfl
  have hnew : entMap ((combState combGeom 3).begun.vol.ents ((combVol combGeom 3).ino 1)) [99] = 0 := by
    rw [hvol, hents]
    decide
  have hstep := DirRun.add .start ⟨by decide, by decide⟩ hnew ⟨by decide, by decide⟩ hfits hadd
  obtain ⟨ht, hsound, hmap⟩ := dirRun_keeps combGeom_wf hs.working hd hstep
  have hview : entsIn t.view ((combVol combGeom 3).ino 1) = t.vol.ents ((combVol combGeom 3).ino 1) :=
    entsIn_view ht.toMounted fun b hb => (hsound.held combGeom_wf b hb).1
  have hmem : ([97], 2) ∈ entsIn t.view ((combVol combGeom 3).ino 1) := by
    rw [hview, (hsound.isMap combGeom_wf ht).entries, ← hmap, hvol, hents]
    decide
  obtain ⟨u, hremove, -⟩ := @removeBlocks_run combGeom _ ((combVol combGeom 3).ino 1) [97]
    ((dirAdd_ordered _ _ _ _).inTxn_of_run hs.toInTxn hadd) (lt_of_le_of_lt hlen (by decide))
    (List.range (((combVol combGeom 3).ino 1).size / 4096)) ⟨_, hmem, rfl⟩
  have hrun := dirRun_isMap combGeom_wf hs.working hd (.remove hstep hremove)
  rw [hvol, hents] at hrun
  exact ⟨t, u, hadd, hremove, hrun⟩

theorem addBlocks_none (hr : s.ReadsOk) {fbs : List ℕ} (h : ∀ b ∈ mappedAt d fbs,
      (dirRecs (s.view b) 0).find? (fitsAt (s.view b) (align8 (12 + name.length))) = none) :
    (addBlocks d name c type fbs).run s = (some none, s) := by
  induction fbs with
  | nil => rfl
  | cons fb fbs ih =>
    rw [addBlocks]
    by_cases hpb : mapFileblock d fb = 0
    · rw [if_pos hpb]
      rw [mappedAt_zero _ hpb] at h
      exact ih h
    · rw [mappedAt_pos _ hpb, List.forall_mem_cons] at h
      rw [if_neg hpb, bind_of_some (bdReadBlock_run hr _), h.1]
      exact ih h.2

/-- An allocation is refused nothing while the buffer has room. -/
theorem allocBit_room (hr : s.ReadsOk) (ha : s.txnActive = true) (hroom : s.txn.length < CFS_MAX_TXN)
    (region lo hi : ℕ) (count : Fs → ℕ × ℕ) (bbs : List ℕ) :
    ((allocBit region lo hi count bbs).run s).2.lost = s.lost := by
  induction bbs with
  | nil => rfl
  | cons bb bbs ih =>
    rw [allocBit, bind_of_some (attempt_run _ s), bdReadBlock_run hr]
    dsimp only
    cases scanBytes lo hi (s.view (region + bb)) (bb * 32768) blockBytes with
    | next => exact ih
    | full => rfl
    | found b =>
      dsimp only
      rw [bind_of_some (attempt_run _ s), bdWriteBlock_room ha hroom]
      rfl

theorem first_free_eq {b' : ℕ} (hdata : g.IsData b) (hfree : v.bbit b = false)
    (hfirst : ∀ x, g.dataStart ≤ x → x < b → v.bbit x = true) (hdata' : g.IsData b') (hfree' : v.bbit b' = false)
    (hfirst' : ∀ x, g.dataStart ≤ x → x < b' → v.bbit x = true) : b = b' := by
  rcases lt_trichotomy b b' with hlt | heq | hlt
  · rw [hfirst' b hdata.1 hlt] at hfree
    cases hfree
  · exact heq
  · rw [hfirst b' hdata'.1 hlt] at hfree'
    cases hfree'

section Wrap

variable (hg : g.Wf) (hs : s.Working g) (hd : SoundDir g s.vol d) (hwrap : CountWraps g s.vol d name)

include hg hs hd hwrap

theorem CountWraps.no_room : (addBlocks d name c type (List.range (d.size / 4096))).run s = (some none, s) := by
  refine addBlocks_none hs.reads fun b hb => ?_
  rw [← vol_data hs.toMounted (hd.held hg b hb).1]
  exact hwrap.full b hb

theorem CountWraps.succeeds (hw : s.WritesOk) (hroom : s.txn.length < CFS_MAX_TXN) (hlost : s.lost = false) :
    ∃ d' s', (dirAdd d name c type).run s = (some d', s') := by
  obtain ⟨last, b, hlast, hne, hcount, hnext, hdata, hfree, hfirst⟩ := hwrap.limit
  rw [dirAdd, bind_of_some (hwrap.no_room hg hs hd)]
  rcases hrun : allocBlock.run s with ⟨r, s1⟩
  have hkept : s1.lost = false := by
    have hspec := allocBit_room hs.reads hs.active hroom s.fs.blockBitmapStart s.fs.dataStart s.fs.totalBlocks
      (fun fs => (dec64 fs.freeBlocks, fs.freeInodes)) (bmblocks s.fs.totalBlocks)
    have heq : (allocBlock.run s).2 = s1 := congrArg Prod.snd hrun
    rw [allocBlock, bind_of_some (getFs_run s)] at heq
    rw [← heq, hspec, hlost]
  obtain ⟨b', rfl, -, ⟨-, -, hnone⟩ | ⟨hb', -⟩⟩ := allocBlock_spec hg hs.toInTxn hrun
  · rcases hnone with hl | hall
    · rw [hkept] at hl
      cases hl
    · rw [hall b hdata] at hfree
      cases hfree
  · have hwr : s1.wr 0 = .ok := by
      have := ((Ordered.buffered allocBlock_buffered).device s).2 hw
      rw [hrun] at this
      exact congrFun this 0
    obtain ⟨-, -, hdata1, hfree1, hfirst1, -, -⟩ := allocBlock_some hg hs hb' hrun
    obtain rfl := first_free_eq hdata1 hfree1 hfirst1 hdata hfree hfirst
    have hwrite : (rawWriteBlock b' (freshDirBlock c type name)).run s1 = (some (), { s1 with
        disk := update s1.disk b' (freshDirBlock c type name), wr := fun i => s1.wr (i + 1) }) := by
      rw [rawWriteBlock_run, hwr]
    dsimp only
    rw [growDir, bind_of_some hrun, bind_of_some (ensure_pos hb' s1), bind_of_some hwrite,
      inodePushExtent_last hlast hne hnext]
    exact ⟨_, _, rfl⟩

/-- The new name is not found afterwards. -/
theorem CountWraps.loses (hnew : name ∉ (s.vol.ents d).map Prod.fst)
    (hrun : (dirAdd d name c type).run s = (some d', s')) : (dirLookup d' name).run s' = (some 0, s') := by
  obtain ⟨last, b', hlast, hne, hcount, hnext, hdata', hfree', hfirst'⟩ := hwrap.limit
  obtain ⟨r, s1, h1, k1⟩ := bind_eq_some hrun
  rw [hwrap.no_room hg hs hd] at h1
  simp only [Prod.mk.injEq, Option.some.injEq] at h1
  obtain ⟨rfl, rfl⟩ := h1
  obtain ⟨hw, -, b, d1, hdata, hfree, hfirst, hpush, rfl, hvol⟩ := growDir_grown hg hs k1
  obtain rfl := first_free_eq hdata' hfree' hfirst' hdata hfree hfirst
  rw [inodePushExtent_last hlast hne hnext] at hpush
  have hd1 : d1 = d.setExtentCount last (d.extentCount last + 1) := (Option.some.inj hpush).symm
  have hsub : ∀ x ∈ (d1.setSize (d1.size + 4096)).dirBlocks, x ∈ d.blocks := by
    rw [hd1]
    intro x hx
    have hmem := mem_dirBlocks hx
    rw [setSize_blocks, wrapped_blocks hd.extents hlast hcount] at hmem
    rw [blocks_snoc hlast]
    exact List.mem_append_left _ hmem
  have hsame : ∀ x ∈ d.blocks, s'.vol.data x = s.vol.data x := by
    intro x hx
    have hxb : x ≠ b' := by
      rintro rfl
      rw [hd.used x hx] at hfree
      cases hfree
    rw [hvol]
    simp [Vol.setData, Vol.takeBlock, hxb]
  have hzero : lookupEnt (s'.vol.ents (d1.setSize (d1.size + 4096))) name = 0 := by
    rw [lookupEnt_eq_zero fun e he => ents_ne_zero he]
    intro hmem
    obtain ⟨e, he, rfl⟩ := List.mem_map.mp hmem
    obtain ⟨x, hx, hex⟩ := List.mem_flatMap.mp he
    refine hnew (List.mem_map.mpr ⟨e, ?_, rfl⟩)
    rw [hd.ents_eq hg, List.mem_flatMap]
    exact ⟨x, hsub x hx, by rwa [← hsame x (hsub x hx)]⟩
  rw [dirLookup_run hw.reads, entsIn_view hw.toMounted fun x hx => hd.inRange x (hsub x hx), hzero]

end Wrap

/-- Room for the directory and one block more. -/
def wrapGeom : Geom where
  inodeSize := 256
  totalBlocks := 4295098400
  totalInodes := 16
  blockBitmapStart := 1
  inodeBitmapStart := 131101
  inodeTableStart := 131102
  dataStart := 131104
  rootIno := 1
  journalStart := 0
  journalBlocks := 0
  flags := 1

theorem wrapGeom_wf : wrapGeom.Wf := by
  refine ⟨rfl, rfl, ?_, ?_, ?_, ?_, ?_, ?_, ?_, ?_, ?_, ?_⟩ <;> decide

def rowBlock : Block := ofFn fun i => if i % 256 = 9 then 1 else 0

theorem rowBlock_rec {k : ℕ} (hk : k < 16) : Dirent.inode rowBlock (256 * k) = 0 ∧
    Dirent.recLen rowBlock (256 * k) = 256 := by
  have hbyte : ∀ i, i < 256 → rowBlock.byte (256 * k + i) = if i = 9 then 1 else 0 := by
    intro i hi
    rw [rowBlock, byte_ofFn _ (by omega), Nat.mul_add_mod, Nat.mod_eq_of_lt hi]
  constructor
  · simp only [Dirent.inode, getLE, Nat.add_assoc]
    rw [← Nat.add_zero (256 * k)]
    simp only [Nat.add_assoc, Nat.zero_add, Nat.reduceAdd]
    simp only [hbyte _ (show 0 < 256 by decide), hbyte _ (show 1 < 256 by decide), hbyte _ (show 2 < 256 by decide),
      hbyte _ (show 3 < 256 by decide), hbyte _ (show 4 < 256 by decide), hbyte _ (show 5 < 256 by decide),
      hbyte _ (show 6 < 256 by decide), hbyte _ (show 7 < 256 by decide)]
    decide
  · simp only [Dirent.recLen, getLE, Nat.add_assoc, Nat.reduceAdd]
    rw [hbyte _ (by decide), hbyte _ (by decide)]
    decide

theorem rowBlock_tiles {j : ℕ} (hj : j ≤ 16) :
    Tiles rowBlock (256 * (16 - j)) 4096 ((List.range' (16 - j) j).map (256 * ·)) := by
  induction j with
  | zero => exact .nil 4096
  | succ j ih =>
    obtain ⟨hinode, hlen⟩ := rowBlock_rec (k := 16 - (j + 1)) (by omega)
    have hnext : 256 * (16 - (j + 1)) + Dirent.recLen rowBlock (256 * (16 - (j + 1))) = 256 * (16 - j) := by
      rw [hlen]
      omega
    rw [List.range'_succ, List.map_cons, show 16 - (j + 1) + 1 = 16 - j by omega]
    exact .cons ⟨by rw [hlen], by rw [hlen]; decide, fun h => absurd hinode h⟩ (hnext ▸ ih (by omega))

theorem rowBlock_tiled : Tiled rowBlock ∧ dirRecs rowBlock 0 = (List.range' 0 16).map (256 * ·) :=
  (rowBlock_tiles (j := 16) (by decide)).tiled

theorem mem_rowBlock {off : ℕ} (h : off ∈ dirRecs rowBlock 0) :
    Dirent.inode rowBlock off = 0 ∧ Dirent.recLen rowBlock off = 256 := by
  rw [rowBlock_tiled.2, List.mem_map] at h
  obtain ⟨k, hk, rfl⟩ := h
  rw [List.mem_range'_1] at hk
  exact rowBlock_rec (by omega)

theorem rowBlock_ents : dirEnts rowBlock = [] :=
  List.filterMap_eq_nil_iff.mpr fun _ hoff => if_pos (mem_rowBlock hoff).1

/-- No name of 255 bytes fits. -/
theorem rowBlock_full : (dirRecs rowBlock 0).find? (fitsAt rowBlock (align8 (12 + 255))) = none := by
  rw [List.find?_eq_none]
  intro off hoff
  obtain ⟨hinode, hlen⟩ := mem_rowBlock hoff
  rw [fitsAt, if_pos hinode, hlen]
  decide

/-- The only free block is the one behind the directory. -/
def wrapVol : Vol where
  super := zero
  bbit b := decide (b ≠ 131104 + (2 ^ 32 - 1))
  ibit _ := true
  ino _ := zero
  data b := if 131104 ≤ b ∧ b < 4295098400 then rowBlock else zero
  freeBlocks := 1
  freeInodes := 0

theorem wrapVol_within : wrapVol.Within wrapGeom := by
  refine ⟨fun b hb => decide_eq_true ?_, fun _ _ => rfl, fun _ _ => rfl, fun b hb => if_neg hb⟩
  have : wrapGeom.totalBlocks = 4295098400 := rfl
  omega

/-- The directory of 2 ^ 32 - 1 blocks. -/
def wrapDir : DInode := wideRoot 131104 (2 ^ 32 - 1)

theorem mem_wrapDir : b ∈ wrapDir.blocks ↔ 131104 ≤ b ∧ b < 131104 + (2 ^ 32 - 1) := by
  rw [wrapDir, wideRoot_blocks (by decide) (by decide) (by decide) (by decide), List.mem_range'_1]

theorem wrapVol_data (hb : b ∈ wrapDir.blocks) : wrapVol.data b = rowBlock := by
  rw [mem_wrapDir] at hb
  exact if_pos ⟨hb.1, by omega⟩

theorem wrapDir_ents : wrapVol.ents wrapDir = [] := by
  rw [Vol.ents, entsIn, List.flatMap_eq_nil_iff]
  intro b hb
  rw [wrapVol_data (mem_dirBlocks hb), rowBlock_ents]

theorem wrapDir_sound : SoundDir wrapGeom wrapVol wrapDir := by
  have hshaped : Shaped wrapDir := wideRoot_shaped (by decide) (by decide) (by decide) (by decide)
  have hdir : wrapDir.isDir = true := by rw [wrapDir, wideRoot_isDir]
  obtain ⟨hholes, hsize⟩ := hshaped.dir hdir
  refine ⟨hshaped.extents, hholes, hsize, fun b hb => ?_, ?_, fun b hb => decide_eq_true ?_, fun b hb => ?_, ?_⟩
  · rw [mem_wrapDir] at hb
    exact ⟨hb.1, show b < 4295098400 by omega⟩
  · rw [wrapDir, wideRoot_blocks (by decide) (by decide) (by decide) (by decide)]
    exact List.nodup_range'
  · rw [mem_wrapDir] at hb
    omega
  · rw [wrapVol_data hb]
    exact rowBlock_tiled.1
  · rw [wrapDir_ents]
    exact List.nodup_nil

theorem wrapDir_wraps (hname : name.length = 255) : CountWraps wrapGeom wrapVol wrapDir name := by
  refine ⟨fun b hb => ?_, 0, 131104 + (2 ^ 32 - 1), wideRoot_nextents, ?_, ?_, ?_, ⟨?_, ?_⟩, ?_, fun x _ hx => ?_⟩
  · rw [wrapVol_data (mem_dirBlocks hb), hname]
    exact rowBlock_full
  · rw [wrapDir, wideRoot_start (by decide)]
    decide
  · rw [wrapDir, wideRoot_count (by decide)]
    omega
  · rw [wrapDir, wideRoot_start (by decide), wideRoot_count (by decide)]
    omega
  · exact show (131104 : ℕ) ≤ 131104 + (2 ^ 32 - 1) by decide
  · exact show 131104 + (2 ^ 32 - 1) < 4295098400 by decide
  · rw [wrapVol, decide_eq_false_iff_not, not_not]
  · exact decide_eq_true (by omega)

/-- `dir_add` of a long name to a directory of 2 ^ 32 - 1 full blocks returns 0, and the name is not
there. -/
theorem wrap_loses : ∃ s, s.Working wrapGeom ∧ SoundDir wrapGeom s.vol wrapDir ∧
    entMap (s.vol.ents wrapDir) (List.replicate 255 97) = 0 ∧ ∃ d t,
      (dirAdd wrapDir (List.replicate 255 97) 2 CFS_FT_REG).run s = (some d, t) ∧
      (dirLookup d (List.replicate 255 97)).run t = (some 0, t) ∧
      ¬ IsMap wrapGeom t d (update (entMap (s.vol.ents wrapDir)) (List.replicate 255 97) 2) := by
  have hidle := Vol.mounted_idle wrapGeom wrapVol
  have hvol : (wrapVol.mounted wrapGeom).begun.vol = wrapVol := by
    rw [hidle.begun_vol, Vol.mounted_vol wrapGeom_wf wrapVol_within]
  have hs := hidle.begun_fresh.working
  have hd : SoundDir wrapGeom (wrapVol.mounted wrapGeom).begun.vol wrapDir := by
    rw [hvol]
    exact wrapDir_sound
  have hwrap : CountWraps wrapGeom (wrapVol.mounted wrapGeom).begun.vol wrapDir (List.replicate 255 97) := by
    rw [hvol]
    exact wrapDir_wraps List.length_replicate
  have hents : (wrapVol.mounted wrapGeom).begun.vol.ents wrapDir = [] := by
    rw [hvol]
    exact wrapDir_ents
  obtain ⟨d, t, hrun⟩ : ∃ d t, (dirAdd wrapDir (List.replicate 255 97) 2 CFS_FT_REG).run
      (wrapVol.mounted wrapGeom).begun = (some d, t) := hwrap.succeeds wrapGeom_wf hs hd rfl (by decide) rfl
  have hzero := hwrap.loses wrapGeom_wf hs hd (by rw [hents]; exact List.not_mem_nil) hrun
  refine ⟨_, hs, hd, by rw [hents]; rfl, d, t, hrun, hzero, fun hmap => ?_⟩
  have htwo := hmap.lookup (List.replicate 255 97)
  rw [update_self, hzero] at htwo
  exact absurd (Option.some.inj (congrArg Prod.fst htwo)) (by decide)

end ComputerOS.Cfs
