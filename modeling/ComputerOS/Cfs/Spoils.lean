import ComputerOS.Cfs.Failure
import ComputerOS.Cfs.Flat

/-!
A write that fails after it freed the blocks of the file it replaces. On a volume whose
bitmaps leave room in the buffer, the run is determined by first fit: the chunks of the
new contents go to the blocks handed out, in order, until no block is left or the extent
array is full. The abort restores the inode but not these blocks.
-/
namespace ComputerOS.Cfs

open M Bytes Function

/-- First fit finds `n` blocks and the extent array takes them. -/
def fitsBlocks (g : Geom) (bits : ℕ → Bool) (din : DInode) : ℕ → Bool
  | 0 => true
  | n + 1 =>
      match g.firstFree bits with
      | none => false
      | some b =>
          match inodePushExtent din b 1 with
          | none => false
          | some din => fitsBlocks g (update bits b true) din n

theorem firstFree_eq_none {g : Geom} {bits : ℕ → Bool} (h : ∀ x, g.IsData x → bits x = true) :
    g.firstFree bits = none := by
  cases hf : g.firstFree bits with
  | none => rfl
  | some b =>
    obtain ⟨hd, hb, -⟩ := firstFree_eq_some.mp hf
    simp [h b hd] at hb

theorem fitsBlocks_le_card {g : Geom} {bits : ℕ → Bool} {din : DInode} {n : ℕ} {S : Finset ℕ}
    (hS : ∀ b, g.IsData b → bits b = false → b ∈ S) (h : fitsBlocks g bits din n = true) : n ≤ S.card := by
  induction n generalizing bits din S with
  | zero => omega
  | succ n ih =>
    rw [fitsBlocks] at h
    cases hfree : g.firstFree bits with
    | none => simp [hfree] at h
    | some b =>
      rw [hfree] at h
      dsimp only at h
      obtain ⟨hdata, hbit, -⟩ := firstFree_eq_some.mp hfree
      have hmem := hS b hdata hbit
      cases hpush : inodePushExtent din b 1 with
      | none => simp [hpush] at h
      | some din' =>
        rw [hpush] at h
        have hrest := ih (S := S.erase b) (fun x hx hx' => ?_) h
        · rw [Finset.card_erase_of_mem hmem] at hrest
          have := Finset.card_pos.mpr ⟨b, hmem⟩
          omega
        · by_cases hxb : x = b
          · simp [hxb] at hx'
          · rw [update_of_ne hxb] at hx'
            exact Finset.mem_erase.mpr ⟨hxb, hS x hx hx'⟩

variable {g : Geom} {s : St}

/-- The run of the block loop on a device that never fails, while the buffer has room. -/
theorem writeBlocks_exact (hg : g.Wf) (hs : s.Working g) (hw : s.WritesOk) {data : List UInt8}
    {fbs : List ℕ} {din : DInode} {r : Option DInode} {s' : St}
    (hrun : (writeBlocks data fbs din).run s = (r, s')) (hl : s'.lost = false) :
    (∀ i b : ℕ, (handedBlocks g s.vol.bbit din fbs.length)[i]? = some b →
      ∃ fb, fbs[i]? = some fb ∧ s'.disk b = chunkBlock data fb) ∧
    (∀ b, b ∉ handedBlocks g s.vol.bbit din fbs.length → s'.disk b = s.disk b) ∧
    (r = none ↔ fitsBlocks g s.vol.bbit din fbs.length = false) := by
  induction fbs generalizing s din with
  | nil =>
    rw [writeBlocks, pure_run] at hrun
    obtain ⟨rfl, rfl⟩ := Prod.mk.inj hrun
    refine ⟨fun i b h => ?_, fun b _ => rfl, ?_⟩
    · simp [handedBlocks] at h
    · simp [fitsBlocks]
  | cons fb fbs ih =>
    rw [writeBlocks] at hrun
    rcases ha : allocBlock.run s with ⟨o, s1⟩
    obtain ⟨b, rfl, hstep, hcase⟩ := allocBlock_spec hg hs.toInTxn ha
    rw [bind_of_some ha] at hrun
    rw [List.length_cons, handedBlocks, fitsBlocks]
    rcases hcase with ⟨rfl, -, hfull⟩ | ⟨hb, -⟩
    · rw [bind_of_none (ensure_neg (by simp) s1)] at hrun
      obtain ⟨rfl, rfl⟩ := Prod.mk.inj hrun
      rw [firstFree_eq_none (hfull.resolve_left (by simp [hl]))]
      refine ⟨fun i b h => by simp at h, fun b _ => ?_, by simp⟩
      rw [hstep.disk]
    · obtain ⟨-, hw1, hdata, hfree, hfirst, hvol, hclean⟩ := allocBlock_some hg hs hb ha
      have hput : (rawWriteBlock b (chunkBlock data fb)).run s1 = (some (), { s1 with
          disk := update s1.disk b (chunkBlock data fb), wr := fun i => s1.wr (i + 1) }) := by
        rw [rawWriteBlock_run, hstep.writes, hw]
      obtain ⟨hw3, hvol3, -⟩ := rawWriteBlock_working hg hw1 hdata hclean hput
      rw [bind_of_some (ensure_pos hb s1), bind_of_some hput] at hrun
      rw [firstFree_eq_some.mpr ⟨hdata, hfree, hfirst⟩]
      dsimp only
      cases hp : inodePushExtent din b 1 with
      | none =>
        rw [hp, fail_run] at hrun
        obtain ⟨rfl, rfl⟩ := Prod.mk.inj hrun
        refine ⟨fun i x h => ?_, fun x hx => ?_, by simp⟩
        · cases i with
          | zero =>
            obtain rfl : b = x := by simpa using h
            exact ⟨fb, by simp, update_self ..⟩
          | succ i => simp at h
        · rw [← hstep.disk]
          exact update_block_ne s1.disk _ (by simpa using hx)
      | some d =>
        rw [hp] at hrun
        have hbits : update s.vol.bbit b true = ((s.vol.takeBlock b).setData b (chunkBlock data fb)).bbit :=
          rfl
        obtain ⟨h1, h2, h3⟩ := ih hw3 (by
          change (fun i => s1.wr (i + 1)) = _
          rw [hstep.writes, hw]) hrun
        rw [hvol3, hvol, ← hbits] at h1 h2 h3
        have hnot : b ∉ handedBlocks g (update s.vol.bbit b true) d fbs.length := by
          intro hmem
          have := (handedBlocks_clear hmem).2
          simp at this
        refine ⟨fun i x h => ?_, fun x hx => ?_, h3⟩
        · cases i with
          | zero =>
            obtain rfl : b = x := by simpa using h
            refine ⟨fb, by simp, ?_⟩
            rw [h2 b hnot]
            exact update_self ..
          | succ i =>
            obtain ⟨fb', hfb', hdisk⟩ := h1 i x (by simpa using h)
            exact ⟨fb', by simpa using hfb', hdisk⟩
        · rw [List.mem_cons, not_or] at hx
          rw [h2 x hx.2, ← hstep.disk]
          exact update_block_ne s1.disk _ hx.1

/-- The block numbers of new contents, and whether first fit and the extents take them. -/
def Vol.fits (g : Geom) (v : Vol) (path data : List UInt8) : Bool :=
  let din := truncated (v.ino (v.target path)) (writeMode data)
  fitsBlocks g (v.bitsWithout (v.target path))
    (din.setFlags (din.flags &&& (2 ^ 32 - 1 - CFS_FL_INLINE))) ((data.length + 4095) % 2 ^ 32 / 4096)

theorem Vol.handed_blocks {v : Vol} {path data : List UInt8} (hlink : isLink data = false)
    (hbig : CFS_INLINE_MAX < data.length) :
    v.handed g path data = handedBlocks g (v.bitsWithout (v.target path))
      ((truncated (v.ino (v.target path)) (writeMode data)).setFlags
        ((truncated (v.ino (v.target path)) (writeMode data)).flags &&& (2 ^ 32 - 1 - CFS_FL_INLINE)))
      ((data.length + 4095) % 2 ^ 32 / 4096) := by
  unfold Vol.handed Cfs.handed
  rw [if_neg (by simp [hlink]), if_neg (by omega)]

theorem Replaces.isDir {env : Env} {v : Vol} {path data : List UInt8} (h : Replaces env v path data) :
    (v.ino (v.resolve (parentOf path))).isDir = true := by
  by_contra hne
  have hout : v.out (v.resolve (parentOf path)) = [] := Vol.out_of_not_dir (by simpa using hne)
  refine h.target ?_
  unfold Vol.target
  rw [hout]
  rfl

/-- The file is truncated, and no block write has happened yet. -/
theorem openForWrite_replaces (hg : g.Wf) (hs : s.Fresh g) (hc : Consistent g s.vol) {env : Env}
    {path data : List UInt8} (hr : Replaces env s.vol path data) (mode ftype : ℕ) :
    ∃ s', (openForWrite env (s.vol.resolve (parentOf path))
        (s.vol.ino (s.vol.resolve (parentOf path))) (leafOf path) mode ftype).run s =
        (some (s.vol.target path, truncated (s.vol.ino (s.vol.target path)) mode), s') ∧
      Step g s s' ∧ s'.Working g ∧
      (s'.lost = false → s'.vol.bbit = s.vol.bitsWithout (s.vol.target path)) := by
  have hp := resolve_reach hr.parent.2
  have hreach : s.vol.Reach (s.vol.target path) := .step hp (lookupEnt_mem hr.target)
  have hn : s.vol.target path ≠ 0 ∧ s.vol.target path < g.totalInodes :=
    ⟨hr.target, hc.inTable _ hreach⟩
  rcases openForWrite_split hs hp hr.isDir hc.readable env (leafOf path) mode ftype with ⟨-, hrun⟩ | ⟨hz, -⟩
  · obtain ⟨s4, F, hfree, hstep, hF, -, hvol, hall⟩ :=
      inodeFreeData_spec hg hs.toInTxn (s.vol.ino (s.vol.target path))
    refine ⟨s4, ?_, hstep, ?_, fun hl => ?_⟩
    · rw [hrun]
      change (do
        let din ← readDinode (s.vol.target path)
        ensure (din.isDir = false)
        ensure (mayAccess env din CFS_W = true)
        let din ← inodeFreeData din
        pure (s.vol.target path, din.setMode mode) : M (ℕ × DInode)).run s = _
      rw [bind_of_some (readDinode_run hs.toMounted hn), bind_of_some (ensure_pos hr.file s),
        bind_of_some (ensure_pos hr.may s), bind_of_some hfree, pure_run]
      rfl
    · exact hstep.working_of_clean hs.working fun b hb _ => Or.inr (hs.unbuffered b hb)
    · have hblocks : F = (s.vol.ino (s.vol.target path)).blocks := by
        rw [hall hl, List.filter_eq_self]
        intro b hb
        simpa using hc.inRange _ hreach b hb
      funext b
      rw [hvol, Vol.giveBlocks_bbit, hblocks]
      rfl
  · exact absurd hz hr.target

theorem doWriteFile_replaces (hg : g.Wf) (hs : s.Fresh g) (hc : Consistent g s.vol) {env : Env}
    {path data : List UInt8} (hr : Replaces env s.vol path data) :
    ∃ s4, (doWriteFile env path data).run s = (do
        let din ← storeData (truncated (s.vol.ino (s.vol.target path)) (writeMode data)) data
        writeDinode (s.vol.target path) (touch din (writeSize data) env.now)
        syncSuper
        pure (toInt32 data.length) : M ℤ).run s4 ∧ Step g s s4 ∧ s4.Working g ∧
      (s4.lost = false → s4.vol.bbit = s.vol.bitsWithout (s.vol.target path)) := by
  have hv := hc.readable
  have hp := resolve_reach hr.parent.2
  obtain ⟨s4, hopen, hfacts⟩ := openForWrite_replaces hg hs hc hr (writeMode data) (writeType data)
  refine ⟨s4, ?_, hfacts⟩
  rw [doWriteFile, bind_of_some (resolveParent_run hg hs.toMounted hv hr.leaf hr.parent.1
    hr.parent.2 hr.isDir), bind_of_some (readDinode_run hs.toMounted ⟨hr.parent.2, hv.lt _ hp⟩),
    bind_of_some (ensure_pos hr.link s), bind_of_some hopen]

/-- The end of a write does not fail while the buffer has room. -/
theorem finish_run (hg : g.Wf) (hs : s.InTxn g) {n : ℕ} (hn : n ≠ 0 ∧ n < g.totalInodes)
    {d : DInode} {rc : ℤ} {r : Option ℤ} {s' : St}
    (hrun : (do writeDinode n d; syncSuper; pure rc : M ℤ).run s = (r, s')) (hl : s'.lost = false) :
    r = some rc ∧ s'.disk = s.disk ∧ s.lost = false := by
  obtain ⟨s6, hstep6, ⟨hwrite, -⟩ | ⟨hwrite, -, hlost⟩⟩ := writeDinode_cases hg hs d hn
  · obtain ⟨s7, hsync, hstep7, -⟩ := syncSuper_spec hg (hstep6.inTxn hs)
    rw [bind_of_some hwrite, bind_of_some hsync, pure_run] at hrun
    obtain ⟨rfl, rfl⟩ := Prod.mk.inj hrun
    exact ⟨rfl, hstep7.disk.trans hstep6.disk, hstep6.not_lost (hstep7.not_lost hl)⟩
  · rw [bind_of_none hwrite] at hrun
    obtain ⟨-, rfl⟩ := Prod.mk.inj hrun
    simp [hlost] at hl

section Run

variable (hg : g.Wf) (hs : s.Fresh g) (hc : Consistent g s.vol) (hw : s.WritesOk) {env : Env}
  {path data : List UInt8} (hr : Replaces env s.vol path data) {r : Option ℤ} {s' : St}
  (hrun : (doWriteFile env path data).run s = (r, s')) (hl : s'.lost = false)

include hg hs hc hw hr hrun hl

theorem replaced_run (hlink : isLink data = false) (hbig : CFS_INLINE_MAX < data.length) :
    (∀ i b : ℕ, (s.vol.handed g path data)[i]? = some b → s'.disk b = chunkBlock data i) ∧
    (∀ b, b ∉ s.vol.handed g path data → s'.disk b = s.disk b) ∧
    (r = none ↔ s.vol.fits g path data = false) ∧ (∀ rc, r = some rc → rc = toInt32 data.length) := by
  obtain ⟨s4, hopen, hstep4, hw4, hbits⟩ := doWriteFile_replaces hg hs hc hr
  rw [hopen] at hrun
  have hw4' : s4.WritesOk := hstep4.writes.trans hw
  rcases hstore : (storeData (truncated (s.vol.ino (s.vol.target path)) (writeMode data)) data).run s4
    with ⟨r5, s5⟩
  have hfact : s5.lost = false →
      (∀ i b : ℕ, (s.vol.handed g path data)[i]? = some b → s5.disk b = chunkBlock data i) ∧
      (∀ b, b ∉ s.vol.handed g path data → s5.disk b = s.disk b) ∧
      (r5 = none ↔ s.vol.fits g path data = false) := by
    intro h5
    have h4 : s4.lost = false := by
      by_contra h4
      have := (storeData_ordered (truncated (s.vol.ino (s.vol.target path)) (writeMode data)) data).lost s4
        (by simpa using h4)
      rw [hstore] at this
      simp [h5] at this
    have hblocks := hstore
    rw [storeData, if_neg (by simp [hlink]), if_neg (by omega)] at hblocks
    obtain ⟨h1, h2, h3⟩ := writeBlocks_exact hg hw4 hw4' hblocks h5
    rw [hbits h4, List.length_range] at h1 h2 h3
    rw [Vol.handed_blocks hlink hbig, Vol.fits]
    refine ⟨fun i b hi => ?_, fun b hb => ?_, h3⟩
    · obtain ⟨fb, hfb, hdisk⟩ := h1 i b hi
      obtain ⟨hlt, heq⟩ := List.getElem?_eq_some_iff.mp hfb
      rw [List.getElem_range] at heq
      rw [hdisk, heq]
    · rw [h2 b hb, hstep4.disk]
  cases r5 with
  | none =>
    rw [bind_of_none hstore] at hrun
    obtain ⟨rfl, rfl⟩ := Prod.mk.inj hrun
    obtain ⟨h1, h2, h3⟩ := hfact hl
    exact ⟨h1, h2, by simpa using h3, by simp⟩
  | some d =>
    rw [bind_of_some hstore] at hrun
    have hn : s.vol.target path ≠ 0 ∧ s.vol.target path < g.totalInodes :=
      ⟨hr.target, hc.inTable _ (.step (resolve_reach hr.parent.2) (lookupEnt_mem hr.target))⟩
    obtain ⟨rfl, hdisk, h5⟩ := finish_run hg (storeData_some hg hw4 hstore).1.toInTxn hn hrun hl
    obtain ⟨h1, h2, h3⟩ := hfact h5
    rw [hdisk]
    exact ⟨h1, h2, by simpa using h3, by simp⟩

/-- A symlink that replaces a file is stored whenever first fit finds a block for it. -/
theorem replaced_link_run (hlink : isLink data = true) (hne : s.vol.handed g path data ≠ []) :
    r = some (toInt32 data.length) := by
  obtain ⟨s4, hopen, hstep4, hw4, hbits⟩ := doWriteFile_replaces hg hs hc hr
  rw [hopen] at hrun
  unfold Vol.handed Cfs.handed at hne
  rw [if_pos hlink] at hne
  have hlong : ¬ (data.drop 10).length ≤ 144 := fun h => hne (if_pos h)
  rw [if_neg hlong] at hne
  rcases ha : allocBlock.run s4 with ⟨o, s1⟩
  obtain ⟨b, rfl, hstep, hcase⟩ := allocBlock_spec hg hw4.toInTxn ha
  rcases hcase with ⟨rfl, -, hfull⟩ | ⟨hb, -⟩
  · have hstore : (storeData (truncated (s.vol.ino (s.vol.target path)) (writeMode data)) data).run
        s4 = (none, s1) := by
      rw [storeData, if_pos hlink, storeTarget, if_neg hlong, bind_of_some ha,
        bind_of_none (ensure_neg (by simp) s1)]
    rw [bind_of_none hstore] at hrun
    obtain ⟨-, rfl⟩ := Prod.mk.inj hrun
    refine absurd ?_ hne
    rw [← hbits (hstep.not_lost hl), firstFree_eq_none (hfull.resolve_left (by simp [hl]))]
    rfl
  · obtain ⟨-, hw1, hdata, -, -, -, hclean⟩ := allocBlock_some hg hw4 hb ha
    have hput : (rawWriteBlock b (zero.put 0 (data.drop 10))).run s1 = (some (), { s1 with
        disk := update s1.disk b (zero.put 0 (data.drop 10)), wr := fun i => s1.wr (i + 1) }) := by
      rw [rawWriteBlock_run, hstep.writes, hstep4.writes, hw]
    have hstore : ∃ d s5,
        (storeData (truncated (s.vol.ino (s.vol.target path)) (writeMode data)) data).run s4 = (some d, s5) := by
      rw [storeData, if_pos hlink, storeTarget, if_neg hlong, bind_of_some ha,
        bind_of_some (ensure_pos hb s1), bind_of_some hput, pure_run]
      exact ⟨_, _, rfl⟩
    obtain ⟨d, s5, hstore⟩ := hstore
    rw [bind_of_some hstore] at hrun
    have hn : s.vol.target path ≠ 0 ∧ s.vol.target path < g.totalInodes :=
      ⟨hr.target, hc.inTable _ (.step (resolve_reach hr.parent.2) (lookupEnt_mem hr.target))⟩
    exact (finish_run hg (storeData_some hg hw4 hstore).1.toInTxn hn hrun hl).1

end Run

/-- The call replaces a file, the new contents do not fit or are too long for the result,
and first fit puts a chunk over bytes that the file still shows. -/
def Call.Spoils (g : Geom) (env : Env) (v : Vol) : Call → Prop
  | .writeFile path data => Replaces env v path data ∧ isLink data = false ∧
      (v.fits g path data = false ∨ 2 ^ 31 ≤ data.length % 2 ^ 32) ∧
      ∃ i b j : ℕ, (v.handed g path data)[i]? = some b ∧ (v.ino (v.target path)).Shows b j ∧
        (chunkBlock data i).byte j ≠ (v.data b).byte j
  | _ => False

theorem toInt32_neg {n : ℕ} : toInt32 n < 0 ↔ 2 ^ 31 ≤ n % 2 ^ 32 := by
  unfold toInt32
  split
  · constructor
    · omega
    · omega
  · constructor
    · omega
    · omega

section Exact

variable {env : Env} {path data : List UInt8} (hg : g.Wf) (hs : s.Idle g) (hw : s.WritesOk)
  (hv : WellFormed g s.vol) (hroom : g.Roomy) (hr : Replaces env s.vol path data)

include hg hs hw hv hroom hr

/-- A write that replaces a file with data blocks fails exactly when they do not fit or
are too many for the result; the chunks written so far are then on the disk. -/
theorem replaced_exec (hlink : isLink data = false) (hbig : CFS_INLINE_MAX < data.length) :
    (((Call.writeFile path data).exec env).run s).1 = none ↔
      s.vol.fits g path data = false ∨ 2 ^ 31 ≤ data.length % 2 ^ 32 := by
  have hlost := body_not_lost hroom hs.toMounted env (.writeFile path data)
  rcases hrun : (doWriteFile env path data).run s.begun with ⟨r, s'⟩
  have hbody : ((Call.writeFile path data).body env).run s.begun = (r, s') := hrun
  rw [hbody] at hlost
  have hvol := hs.begun_vol
  obtain ⟨-, -, hnone, hrc⟩ := replaced_run hg hs.begun_fresh (by rw [hvol]; exact hv.toConsistent) hw
    (by rw [hvol]; exact hr) hrun hlost hlink hbig
  rw [hvol] at hnone
  have hstate : commitState env (.writeFile path data) s = none ↔
      s.vol.fits g path data = false ∨ 2 ^ 31 ≤ data.length % 2 ^ 32 := by
    unfold commitState
    rw [hbody]
    cases r with
    | none => simpa using Or.inl (hnone.mp rfl)
    | some rc =>
      have hfits : ¬ s.vol.fits g path data = false := fun h => by simpa using hnone.mpr h
      have hneg := @toInt32_neg data.length
      rw [← hrc rc rfl] at hneg
      by_cases h0 : 0 ≤ rc
      · have hlong : ¬ 2 ^ 31 ≤ data.length % 2 ^ 32 := fun h => by
          have := hneg.mpr h
          omega
        simp only [if_pos h0]
        constructor
        · intro h
          simp at h
        · rintro (h | h)
          · exact absurd h hfits
          · exact absurd h hlong
      · simp only [if_neg h0, true_iff]
        exact Or.inr (hneg.mp (by omega))
  constructor
  · exact fun hf => hstate.mp (commitState_eq_none hw hf)
  · intro h
    rw [exec_aborts (hstate.mpr h)]

/-- What a failed write that replaces a file leaves on the disk. -/
theorem replaced_disk (hlink : isLink data = false) (hbig : CFS_INLINE_MAX < data.length)
    (hf : (((Call.writeFile path data).exec env).run s).1 = none) :
    (∀ i b : ℕ, (s.vol.handed g path data)[i]? = some b →
      (((Call.writeFile path data).exec env).run s).2.disk b = chunkBlock data i) ∧
    ∀ b, b ∉ s.vol.handed g path data →
      (((Call.writeFile path data).exec env).run s).2.disk b = s.disk b := by
  have hlost := body_not_lost hroom hs.toMounted env (.writeFile path data)
  obtain ⟨-, hdisk, -⟩ := aborted_state hs (commitState_eq_none hw hf)
  have hvol := hs.begun_vol
  obtain ⟨h1, h2, -⟩ := replaced_run hg hs.begun_fresh (by rw [hvol]; exact hv.toConsistent) hw
    (by rw [hvol]; exact hr) (Prod.mk.eta).symm hlost hlink hbig
  rw [hvol] at h1 h2
  rw [hdisk]
  exact ⟨h1, h2⟩

omit hg hs hw hroom in
/-- The blocks handed out belong to no directory and to no other file. -/
theorem not_handed {n b : ℕ} (hn : s.vol.Reach n) (hne : n ≠ s.vol.target path)
    (hb : b ∈ (s.vol.ino n).blocks) : b ∉ s.vol.handed g path data := by
  intro hmem
  have ht : s.vol.Reach (s.vol.target path) :=
    .step (resolve_reach hr.parent.2) (lookupEnt_mem hr.target)
  rcases (Vol.handed_clear hmem).2 with h | h
  · exact hv.apart n _ hn ht hne b hb h
  · simp [hv.used hn hb] at h

theorem replaced_dirs (hlink : isLink data = false) (hbig : CFS_INLINE_MAX < data.length)
    (hf : (((Call.writeFile path data).exec env).run s).1 = none) :
    SameDirs s.vol (((Call.writeFile path data).exec env).run s).2.vol := by
  obtain ⟨hidle, -⟩ := aborted_state hs (commitState_eq_none hw hf)
  obtain ⟨-, hrest⟩ := replaced_disk hg hs hw hv hroom hr hlink hbig hf
  obtain ⟨hino, -⟩ := sameMeta_of_disk hg hs hidle fun b hb => hrest b fun hmem => by
    have := (Vol.handed_clear hmem).1.1
    omega
  refine ⟨fun n _ => congrFun hino n, fun n hn hd b hb => ?_⟩
  have hmem := mem_dirBlocks hb
  have hdata := hv.inRange n hn b hmem
  have hne : n ≠ s.vol.target path := by
    rintro rfl
    simp [hr.file] at hd
  rw [hidle.vol_data hdata, hs.vol_data hdata]
  exact hrest b (not_handed hv hr hn hne hmem)

/-- A failed write that spoils nothing leaves what the volume shows. -/
theorem replaced_shown (hlink : isLink data = false) (hbig : CFS_INLINE_MAX < data.length)
    (hf : (((Call.writeFile path data).exec env).run s).1 = none)
    (hn : ∀ i b j : ℕ, (s.vol.handed g path data)[i]? = some b →
      (s.vol.ino (s.vol.target path)).Shows b j → (chunkBlock data i).byte j = (s.vol.data b).byte j) :
    SameShown s.vol (((Call.writeFile path data).exec env).run s).2.vol := by
  obtain ⟨hidle, -⟩ := aborted_state hs (commitState_eq_none hw hf)
  obtain ⟨hput, hrest⟩ := replaced_disk hg hs hw hv hroom hr hlink hbig hf
  refine ⟨replaced_dirs hg hs hw hv hroom hr hlink hbig hf, fun n hreach _ b j hshow => ?_⟩
  have hmem := hshow.mem_blocks (hv.shaped n hreach).linkCovered
  have hdata := hv.inRange n hreach b hmem
  rw [hidle.vol_data hdata]
  by_cases hb : b ∈ s.vol.handed g path data
  · obtain ⟨i, hi⟩ := List.mem_iff_getElem?.mp hb
    have heq : n = s.vol.target path := by
      by_contra hne
      exact not_handed hv hr hreach hne hmem hb
    rw [hput i b hi]
    exact hn i b j hi (heq ▸ hshow)
  · rw [hrest b hb, hs.vol_data hdata]

/-- Where every answer is as before, nothing was spoiled. -/
theorem replaced_kept (hlink : isLink data = false) (hbig : CFS_INLINE_MAX < data.length)
    (hf : (((Call.writeFile path data).exec env).run s).1 = none)
    (hsame : SameAnswers s (((Call.writeFile path data).exec env).run s).2) {i b j : ℕ}
    (hi : (s.vol.handed g path data)[i]? = some b)
    (hshow : (s.vol.ino (s.vol.target path)).Shows b j) :
    (chunkBlock data i).byte j = (s.vol.data b).byte j := by
  obtain ⟨hidle, -⟩ := aborted_state hs (commitState_eq_none hw hf)
  obtain ⟨hput, -⟩ := replaced_disk hg hs hw hv hroom hr hlink hbig hf
  have hdirs := replaced_dirs hg hs hw hv hroom hr hlink hbig hf
  have ht : s.vol.Reach (s.vol.target path) :=
    .step (resolve_reach hr.parent.2) (lookupEnt_mem hr.target)
  have hshaped := hv.shaped _ ht
  have hdata := hv.inRange _ ht b (hshow.mem_blocks hshaped.linkCovered)
  have hresolve : s.vol.resolve path = s.vol.target path :=
    resolve_eq_target hr.leaf.1 hr.leaf.2 hr.parent.2
  have hread := hsame.readAt ⟨0, 0, 0⟩ path
  simp only [cfsReadAt_run hg hs hv.readable, cfsReadAt_run hg hidle (hdirs.readable hv.readable),
    hdirs.resolve_eq, hresolve, if_neg hr.target, hdirs.ino _ ht] at hread
  have hsmall : (s.vol.ino (s.vol.target path)).isLnk = true →
      (s.vol.ino (s.vol.target path)).size ≤ 4095 := by
    intro hl
    rcases hshaped.lnk hl with ⟨-, h⟩ | ⟨-, -, h⟩
    · omega
    · exact h
  have hbyte := Shows.byte_eq hr.file hsmall (show (⟨0, 0, 0⟩ : Env).uid = 0 from rfl) hread hshow
  rw [hput i b hi] at hbyte
  rw [hbyte, hs.vol_data hdata]

/-- A symlink that replaces a file fits whenever first fit finds a block for it. -/
theorem replaced_link_exec (hlink : isLink data = true) (hne : s.vol.handed g path data ≠ []) :
    (((Call.writeFile path data).exec env).run s).1 ≠ none := by
  have hlost := body_not_lost hroom hs.toMounted env (.writeFile path data)
  have hvol := hs.begun_vol
  have hrc : (((Call.writeFile path data).body env).run s.begun).1 = some (toInt32 data.length) :=
    replaced_link_run hg hs.begun_fresh (by rw [hvol]; exact hv.toConsistent) hw
      (by rw [hvol]; exact hr) (Prod.mk.eta).symm hlost hlink (by rw [hvol]; exact hne)
  refine exec_ne_none hw hrc ?_
  have := hr.link hlink
  have := @toInt32_neg data.length
  omega

end Exact

/-- A call that returns `-1` leaves everything as it was unless it replaces a file and
first fit hands out blocks of that very file; where the bitmaps leave room in the buffer,
it does so exactly unless it spoils bytes that the file still shows. -/
theorem failed_keeps_iff (hg : g.Wf) (hs : s.Idle g) (hw : s.WritesOk) (hv : WellFormed g s.vol)
    (env : Env) (c : Call) :
    (¬ c.Reuses g env s.vol → ((c.exec env).run s).1 = none → KeptAll env c s) ∧
    (g.Roomy → ((((c.exec env).run s).1 = none → KeptAll env c s) ↔ ¬ c.Spoils g env s.vol)) := by
  refine ⟨failed_keeps hg hs hw hv, fun hroom => ⟨fun hkept hspoils => ?_, fun hspoils hf => ?_⟩⟩
  · cases c with
    | writeFile path data =>
      obtain ⟨hr, hlink, hrefused, i, b, j, hi, hshow, hne⟩ := hspoils
      have hbig : CFS_INLINE_MAX < data.length := by
        by_contra hsmall
        have hnil : s.vol.handed g path data = [] := by
          unfold Vol.handed Cfs.handed
          rw [if_neg (by simp [hlink]), if_pos (by omega)]
        simp [hnil] at hi
      have hf := (replaced_exec hg hs hw hv hroom hr hlink hbig).mpr hrefused
      exact hne (replaced_kept hg hs hw hv hroom hr hlink hbig hf (hkept hf).1 hi hshow)
    | _ => exact hspoils
  · by_cases hreuse : c.Reuses g env s.vol
    · cases c with
      | writeFile path data =>
        obtain ⟨hr, b, hb, -⟩ := hreuse
        have hne : s.vol.handed g path data ≠ [] := List.ne_nil_of_mem hb
        by_cases hlink : isLink data = true
        · exact absurd hf (replaced_link_exec hg hs hw hv hroom hr hlink hne)
        · have hlink' : isLink data = false := by simpa using hlink
          have hbig : CFS_INLINE_MAX < data.length := by
            by_contra hsmall
            refine hne ?_
            unfold Vol.handed Cfs.handed
            rw [if_neg hlink, if_pos (by omega)]
          have hrefused := (replaced_exec hg hs hw hv hroom hr hlink' hbig).mp hf
          obtain ⟨hidle, -, hcounts⟩ := aborted_state hs (commitState_eq_none hw hf)
          have hshown := replaced_shown hg hs hw hv hroom hr hlink' hbig hf fun i b j hi hshow => by
            by_contra hne
            exact hspoils ⟨hr, hlink', hrefused, i, b, j, hi, hshow, hne⟩
          exact ⟨hshown.answers hg hs hidle hv.toConsistent fun n hn =>
            (hv.shaped n hn).linkCovered, hcounts⟩
      | _ => exact hreuse.elim
    · exact failed_keeps hg hs hw hv hreuse hf

section Example

/-- A volume with the file `/f` of eleven blocks; the other eleven data blocks are free. -/
def halfFull : St := flatState [[102]] 11 fun _ => zero

theorem halfFull_ok : FlatOk [[102]] 11 :=
  ⟨by simp, by simp, by decide, by decide, by decide, by decide, by decide⟩

/-- Contents of 23 blocks, all of one byte. -/
structure TooMuch (c : UInt8) (data : List UInt8) : Prop where
  length : data.length = 22 * 4096 + 1
  byte : ∀ x ∈ data, x = c
  plain : c ≠ 33

namespace TooMuch

variable {c : UInt8} {data : List UInt8} (h : TooMuch c data)

include h

theorem not_link : isLink data = false := by
  by_contra hlink
  have hmagic : data.take 10 = VFS_SYMLINK_MAGIC := by
    simpa [isLink, h.length] using hlink
  have hmem : (33 : UInt8) ∈ data.take 10 := by
    rw [hmagic]
    decide
  exact h.plain (h.byte _ (List.mem_of_mem_take hmem)).symm

theorem inline_lt : CFS_INLINE_MAX < data.length := by
  rw [h.length, CFS_INLINE_MAX]
  omega

theorem chunk : (chunkBlock data 0).byte 0 = c := by
  have hpos : 0 < data.length := by rw [h.length]; omega
  rw [chunkBlock, byte_put_of_mem _ (by omega) (by omega) (by simp [h.length])]
  refine h.byte _ ?_
  rw [List.getD_eq_getElem?_getD]
  simp [hpos]

end TooMuch

-- The volume is a variable here: Lean would otherwise try to evaluate its inodes.

variable {v : Vol} {c : UInt8} {data : List UInt8} (hvol : v = flatVol [[102]] 11 fun _ => zero) (h : TooMuch c data)

include hvol

theorem halfFull_target : v.resolve (parentOf [47, 102]) = 1 ∧ v.target [47, 102] = 2 := by
  have hroot : v.resolve (parentOf [47, 102]) = 1 := by
    have hcomp : components (parentOf [47, 102]) = [] := by decide
    rw [Vol.resolve, hcomp, Vol.walk, CFS_ROOT_INO]
  refine ⟨hroot, ?_⟩
  rw [Vol.target, hroot, hvol, flatVol_out_root halfFull_ok]
  decide

theorem halfFull_bits (b : ℕ) : v.bitsWithout 2 b = decide (b < 42 ∨ 64 ≤ b) := by
  rw [Vol.bitsWithout, hvol, flatVol_file_blocks (by omega), Bool.eq_iff_iff, Bool.and_eq_true,
    flatVol_bbit, decide_eq_true_iff, decide_eq_true_iff, List.mem_range'_1]
  omega

theorem halfFull_shows : (v.ino 2).Shows 42 0 := by
  have halike : DInode.Alike (flatFile [([102] : Name)].length 11) (v.ino 2) := by
    rw [hvol, flatVol_file]
    exact DInode.Alike.stamp 1 _
  rw [halike.shows (by rw [flatFile_nextents]; omega), shows_file (by simp [flatFile_isLnk])]
  refine ⟨flatFile_isInline, by omega, by omega, 0, ?_, ?_, by omega⟩
  · rw [mapFileblock, flatFile_nextents, mapFrom, flatFile_count (by omega), flatFile_start]
    rfl
  · rw [flatFile_size (by omega)]
    omega

include h

theorem tooMuch_replaces : Replaces ⟨0, 0, 0⟩ v [47, 102] data := by
  obtain ⟨hroot, htarget⟩ := halfFull_target hvol
  refine ⟨by decide, ⟨by decide, ?_⟩, ?_, ?_, ?_, by simp [h.not_link]⟩
  · rw [hroot]
    decide
  · rw [htarget]
    decide
  · rw [htarget, hvol]
    exact flatVol_isDir (by decide)
  · rw [mayAccess]
    exact if_pos rfl

/-- Only 22 blocks are free once the file is truncated. -/
theorem tooMuch_not_fits : v.fits smallGeom [47, 102] data = false := by
  obtain ⟨-, htarget⟩ := halfFull_target hvol
  by_contra hfits
  rw [Bool.not_eq_false, Vol.fits, h.length] at hfits
  have hle := fitsBlocks_le_card (S := (Finset.range 22).map ⟨(42 + ·), add_right_injective 42⟩)
    (fun b hb hbit => ?_) hfits
  · rw [Finset.card_map, Finset.card_range] at hle
    omega
  · rw [htarget, halfFull_bits hvol, decide_eq_false_iff_not] at hbit
    rw [Finset.mem_map]
    exact ⟨b - 42, by rw [Finset.mem_range]; omega, show 42 + (b - 42) = b by omega⟩

/-- The first chunk goes to the first block of the file itself. -/
theorem tooMuch_handed : (v.handed smallGeom [47, 102] data)[0]? = some 42 := by
  obtain ⟨-, htarget⟩ := halfFull_target hvol
  have hfirst : smallGeom.firstFree (v.bitsWithout 2) = some 42 := by
    refine firstFree_eq_some.mpr ⟨by decide, by rw [halfFull_bits hvol]; decide, fun x _ hx => ?_⟩
    rw [halfFull_bits hvol, decide_eq_true_iff]
    omega
  rw [Vol.handed_blocks h.not_link h.inline_lt, h.length, htarget]
  rw [show (22 * 4096 + 1 + 4095) % 2 ^ 32 / 4096 = 22 + 1 from rfl, handedBlocks, hfirst]
  rfl

omit hvol in
theorem tooMuch_refused {s : St} (hs : s.Idle smallGeom) (hw : s.WritesOk)
    (hvol : s.vol = flatVol [[102]] 11 fun _ => zero) :
    (((Call.writeFile [47, 102] data).exec ⟨0, 0, 0⟩).run s).1 = none := by
  have hwf : WellFormed smallGeom s.vol := by
    rw [hvol]
    exact flatVol_wellFormed halfFull_ok
  exact (replaced_exec smallGeom_wf hs hw hwf smallGeom_roomy (tooMuch_replaces hvol h) h.not_link h.inline_lt).mpr
    (Or.inl (tooMuch_not_fits hvol h))

/-- Zeros over a file of zeros spoil nothing, though they go to the blocks of the file. -/
theorem zeros_spoil_nothing (hzero : c = 0) : ¬ (Call.writeFile [47, 102] data).Spoils smallGeom ⟨0, 0, 0⟩ v := by
  rintro ⟨-, -, -, i, b, j, hi, -, hne⟩
  have hclear := (handed_clear (List.mem_of_getElem? hi)).2
  rw [(halfFull_target hvol).2, halfFull_bits hvol, decide_eq_false_iff_not] at hclear
  refine hne ?_
  have hdata : v.data b = zero := by
    rw [hvol, flatVol]
    dsimp only
    rw [if_neg (by omega)]
    split <;> rfl
  rw [hdata, byte_zero, chunkBlock]
  by_cases hj : j < 4096 ∧ j < ((data.drop (i * 4096)).take 4096).length
  · rw [byte_put_of_mem _ hj.1 (Nat.zero_le j) (by omega), List.getD_eq_getElem?_getD,
      List.getElem?_eq_getElem (by omega), Option.getD_some, ← hzero]
    exact h.byte _ (List.mem_of_mem_drop (List.mem_of_mem_take (List.getElem_mem _)))
  · have hlen : ((data.drop (i * 4096)).take 4096).length ≤ 4096 := List.length_take_le _ _
    rw [byte_put_of_not _ (by omega), byte_zero]

omit hvol in
/-- The write fails, and the file no longer reads as before. -/
theorem tooMuch_spoils (hbyte : c ≠ 0) {s : St} (hs : s.Idle smallGeom) (hw : s.WritesOk)
    (hvol : s.vol = flatVol [[102]] 11 fun _ => zero) :
    (((Call.writeFile [47, 102] data).exec ⟨0, 0, 0⟩).run s).1 = none ∧
    ¬ KeptAll ⟨0, 0, 0⟩ (.writeFile [47, 102] data) s := by
  have hwf : WellFormed smallGeom s.vol := by
    rw [hvol]
    exact flatVol_wellFormed halfFull_ok
  have hr := tooMuch_replaces hvol h
  have hf := tooMuch_refused h hs hw hvol
  have hshow : (s.vol.ino (s.vol.target [47, 102])).Shows 42 0 := by
    rw [(halfFull_target hvol).2]
    exact halfFull_shows hvol
  refine ⟨hf, fun hkept => ?_⟩
  have hsame := replaced_kept smallGeom_wf hs hw hwf smallGeom_roomy hr h.not_link h.inline_lt hf hkept.1
    (tooMuch_handed hvol h) hshow
  rw [h.chunk, hvol] at hsame
  exact hbyte (by simpa [flatVol] using hsame)

end Example

/-- Root writes 23 blocks of zeros over a file of eleven such blocks: for want of space the call
fails, and nothing changes. -/
theorem halfFull_zeros : (((Call.writeFile [47, 102] (List.replicate (22 * 4096 + 1) 0)).exec
    ⟨0, 0, 0⟩).run halfFull).1 = none ∧ KeptAll ⟨0, 0, 0⟩
    (.writeFile [47, 102] (List.replicate (22 * 4096 + 1) 0)) halfFull := by
  have hmuch : TooMuch 0 (List.replicate (22 * 4096 + 1) 0) :=
    ⟨List.length_replicate, fun _ => List.eq_of_mem_replicate, by decide⟩
  have hvol : halfFull.vol = flatVol [[102]] 11 fun _ => zero := flatState_vol (by omega)
  have hf := tooMuch_refused hmuch flatState_idle flatState_writesOk hvol
  exact ⟨hf, ((failed_keeps_iff smallGeom_wf flatState_idle flatState_writesOk (flatState_wellFormed halfFull_ok)
    ⟨0, 0, 0⟩ _).2 smallGeom_roomy).mpr (zeros_spoil_nothing hvol hmuch rfl) hf⟩

/-- Root writes 23 blocks over a file of eleven where 22 fit: the call fails, and the file
is spoiled. -/
theorem halfFull_spoiled : WellFormed smallGeom halfFull.vol ∧ halfFull.Idle smallGeom ∧
    halfFull.WritesOk ∧
    (((Call.writeFile [47, 102] (List.replicate (22 * 4096 + 1) 66)).exec ⟨0, 0, 0⟩).run halfFull).1 = none ∧
    ¬ KeptAll ⟨0, 0, 0⟩ (.writeFile [47, 102] (List.replicate (22 * 4096 + 1) 66)) halfFull :=
  ⟨flatState_wellFormed halfFull_ok, flatState_idle, flatState_writesOk,
    tooMuch_spoils ⟨List.length_replicate, fun _ => List.eq_of_mem_replicate, by decide⟩ (by decide)
    flatState_idle flatState_writesOk
      (flatState_vol (by omega))⟩

end ComputerOS.Cfs
