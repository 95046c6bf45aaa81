import ComputerOS.Cfs.Volume
import ComputerOS.Cfs.Ops

/-!
The public read functions as functions of the volume. Outside a transaction on a device
that answers every read, each of them leaves the state alone, and its answer depends on
the inodes the root reaches and on the blocks these inodes cover.
-/
namespace ComputerOS.Cfs

open M Bytes Function

/-- As `Mounted`, with no transaction open. -/
structure St.Idle (g : Geom) (s : St) : Prop extends s.Mounted g where
  idle : s.txnActive = false

theorem St.Idle.view_eq {g : Geom} {s : St} (hs : s.Idle g) : s.view = s.disk := by
  funext b
  exact view_of_inactive hs.idle b

def fileByte (V : ℕ → Block) (d : DInode) (pos : ℕ) : UInt8 :=
  if mapFileblock d (pos / 4096) = 0 then 0 else (V (mapFileblock d (pos / 4096))).byte (pos % 4096)

theorem readChunk_run {s : St} (hr : s.ReadsOk) (d : DInode) {pos chunk : ℕ}
    (h : pos % 4096 + chunk ≤ 4096) :
    (readChunk (mapFileblock d (pos / 4096)) (pos % 4096) chunk).run s =
      (some ((List.range chunk).map fun i => fileByte s.disk d (pos + i)), s) := by
  have hbyte : ∀ i ∈ List.range chunk, fileByte s.disk d (pos + i) =
      if mapFileblock d (pos / 4096) = 0 then 0
      else (s.disk (mapFileblock d (pos / 4096))).byte (pos % 4096 + i) := by
    intro i hi
    have hi' := List.mem_range.mp hi
    unfold fileByte
    rw [show (pos + i) / 4096 = pos / 4096 by omega, show (pos + i) % 4096 = pos % 4096 + i by omega]
  rw [List.map_congr_left hbyte]
  unfold readChunk
  split
  · rw [pure_run, List.map_const', List.length_range]
  · rw [bind_of_some (rawReadBlock_ok _ hr), pure_run]
    rfl

/-- The read loop returns the bytes of the file one by one. -/
theorem readChunks_run {s : St} (hr : s.ReadsOk) (d : DInode) (offset len done : ℕ) :
    (readChunks d offset len done).run s =
      (some ((List.range' done (len - done)).map fun i => fileByte s.disk d ((offset + i) % 2 ^ 32)), s) := by
  induction hk : len - done using Nat.strong_induction_on generalizing done with
  | _ k ih =>
    rw [readChunks]
    split
    · next hlt =>
      dsimp only
      have hmod : (offset + done) % 2 ^ 32 % 4096 < 4096 := Nat.mod_lt _ (by omega)
      have hbound : (offset + done) % 2 ^ 32 % 4096 +
          min (4096 - (offset + done) % 2 ^ 32 % 4096) (len - done) ≤ 4096 := by omega
      rw [bind_of_some (readChunk_run hr d hbound)]
      generalize hc : min (4096 - (offset + done) % 2 ^ 32 % 4096) (len - done) = chunk at *
      rw [bind_of_some (ih (len - (done + chunk)) (by omega) (done + chunk) rfl), pure_run]
      have hsplit : List.range' done k = List.range' done chunk ++
          List.range' (done + chunk) (len - (done + chunk)) := by
        rw [List.range'_append_1, show chunk + (len - (done + chunk)) = k by omega]
      have hhead : (List.range chunk).map (fun i => fileByte s.disk d ((offset + done) % 2 ^ 32 + i)) =
          (List.range' done chunk).map fun i => fileByte s.disk d ((offset + i) % 2 ^ 32) := by
        rw [List.range'_eq_map_range, List.map_map]
        apply List.map_congr_left
        intro i hi
        have hi' := List.mem_range.mp hi
        -- a chunk ends at a block boundary, so the position does not wrap inside it
        have hpos : (offset + done) % 2 ^ 32 + i = (offset + (done + i)) % 2 ^ 32 := by omega
        rw [Function.comp_apply, hpos]
      rw [hsplit, List.map_append, hhead]
    · next hge =>
      rw [show k = 0 by omega]
      rfl

/-- The bytes of a symlink's target. -/
def targetIn (V : ℕ → Block) (d : DInode) : List UInt8 :=
  if d.nextents = 0 then d.extentBytes (d.size % 2 ^ 32)
  else (V (d.extentStart 0)).slice 0 (d.size % 2 ^ 32)

def readIn (V : ℕ → Block) (env : Env) (d : DInode) (offset len : ℕ) : Option (List UInt8) :=
  if d.isLnk then
    some (((VFS_SYMLINK_MAGIC ++ targetIn V d).drop offset).take
      (min len ((10 + d.size % 2 ^ 32) % 2 ^ 32 - offset)))
  else if d.isDir = false ∧ mayAccess env d CFS_R = true then
    if d.size ≤ offset then some []
    else if d.isInline then
      some (d.slice (76 + offset) (min len (sub32 (d.size % 2 ^ 32) offset)))
    else some ((List.range (min len (d.size - offset))).map fun i =>
      fileByte V d ((offset + i) % 2 ^ 32))
  else none

theorem readInode_run {s : St} (hr : s.ReadsOk) (env : Env) (d : DInode) (offset len : ℕ) :
    (readInode env d offset len).run s = (readIn s.disk env d offset len, s) := by
  unfold readInode readIn
  split
  · have htgt : (linkTarget d).run s = (some (targetIn s.disk d), s) := by
      unfold linkTarget targetIn
      split
      · rw [pure_run]
      · rw [bind_of_some (rawReadBlock_ok _ hr), pure_run]
    rw [bind_of_some htgt, pure_run]
  · by_cases hd : d.isDir = false
    · rw [bind_of_some (ensure_pos hd s)]
      by_cases ha : mayAccess env d CFS_R = true
      · have hboth : d.isDir = false ∧ mayAccess env d CFS_R = true := ⟨hd, ha⟩
        rw [bind_of_some (ensure_pos ha s), if_pos hboth]
        split
        · rw [pure_run]
        · split
          · rw [pure_run]
          · rw [readChunks_run hr, Nat.sub_zero, ← List.range_eq_range']
      · have hboth : ¬ (d.isDir = false ∧ mayAccess env d CFS_R = true) := fun h => ha h.2
        rw [bind_of_none (ensure_neg ha s), if_neg hboth]
    · have hboth : ¬ (d.isDir = false ∧ mayAccess env d CFS_R = true) := fun h => hd h.1
      rw [bind_of_none (ensure_neg hd s), if_neg hboth]

/-- A directory is neither a symlink nor readable. -/
theorem readIn_of_isDir {V : ℕ → Block} {env : Env} {d : DInode} (hd : d.isDir = true)
    (offset len : ℕ) : readIn V env d offset len = none := by
  have hl : d.isLnk = false := by
    unfold DInode.isLnk
    unfold DInode.isDir at hd
    rw [decide_eq_true_eq] at hd
    rw [hd]
    rfl
  rw [readIn, if_neg (by simp [hl]), if_neg (by simp [hd])]

/-- Byte `j` of block `b` is part of what `cfs_read_at` answers for inode `d`: of a
symlink's target block, or of the file up to its size and the 32-bit position. -/
def DInode.Shows (d : DInode) (b j : ℕ) : Prop :=
  if d.isLnk then d.nextents ≠ 0 ∧ b = d.extentStart 0 ∧ j < d.size % 2 ^ 32
  else d.isInline = false ∧ b ≠ 0 ∧ j < 4096 ∧
    ∃ fb, mapFileblock d fb = b ∧ fb * 4096 + j < d.size ∧ fb * 4096 + j < 2 ^ 32

theorem shows_link {d : DInode} (h : d.isLnk = true) (b j : ℕ) :
    d.Shows b j ↔ d.nextents ≠ 0 ∧ b = d.extentStart 0 ∧ j < d.size % 2 ^ 32 := by
  rw [DInode.Shows, if_pos h]

theorem shows_file {d : DInode} (h : ¬ d.isLnk = true) (b j : ℕ) :
    d.Shows b j ↔ d.isInline = false ∧ b ≠ 0 ∧ j < 4096 ∧
      ∃ fb, mapFileblock d fb = b ∧ fb * 4096 + j < d.size ∧ fb * 4096 + j < 2 ^ 32 := by
  rw [DInode.Shows, if_neg h]

/-- A slow symlink's target block is one the inode covers. -/
def LinkCovered (d : DInode) : Prop := d.isLnk = true → d.nextents = 0 ∨ d.extentStart 0 ∈ d.blocks

theorem DInode.Shows.mem_blocks {d : DInode} {b j : ℕ} (h : d.Shows b j) (hl : LinkCovered d) :
    b ∈ d.blocks := by
  by_cases hlnk : d.isLnk = true
  · obtain ⟨hn, hb, hj⟩ := (shows_link hlnk b j).mp h
    rw [hb]
    exact (hl hlnk).resolve_left hn
  · obtain ⟨hin, hb, hj, fb, hfb, hsize⟩ := (shows_file hlnk b j).mp h
    rw [← hfb] at hb ⊢
    exact mapFileblock_mem hb

/-- Reading an inode looks at the bytes it shows only. -/
theorem readIn_congr {V W : ℕ → Block} {d : DInode}
    (h : ∀ b j, d.Shows b j → (V b).byte j = (W b).byte j) (env : Env) (offset len : ℕ) :
    readIn V env d offset len = readIn W env d offset len := by
  unfold readIn
  by_cases hlnk : d.isLnk = true
  · have htgt : targetIn V d = targetIn W d := by
      unfold targetIn
      by_cases hz : d.nextents = 0
      · rw [if_pos hz, if_pos hz]
      · rw [if_neg hz, if_neg hz]
        refine slice_congr fun i hi => ?_
        rw [Nat.zero_add]
        exact h _ i ((shows_link hlnk _ i).mpr ⟨hz, rfl, hi⟩)
    rw [if_pos hlnk, if_pos hlnk, htgt]
  · rw [if_neg hlnk, if_neg hlnk]
    split
    · split
      · rfl
      · next hoff =>
        split
        · rfl
        · next hin =>
          refine congrArg some (List.map_congr_left fun i hi => ?_)
          have hi' := List.mem_range.mp hi
          have hpos : (offset + i) % 2 ^ 32 < d.size := by omega
          have hpos' : (offset + i) % 2 ^ 32 < 2 ^ 32 := Nat.mod_lt _ (by omega)
          unfold fileByte
          by_cases hz : mapFileblock d ((offset + i) % 2 ^ 32 / 4096) = 0
          · rw [if_pos hz, if_pos hz]
          · rw [if_neg hz, if_neg hz]
            exact h _ _ ((shows_file hlnk _ _).mpr
              ⟨by simpa using hin, hz, by omega, _, rfl, by omega, by omega⟩)
    · rfl

/-- Every byte an inode shows can be read. -/
theorem Shows.byte_eq {V W : ℕ → Block} {d : DInode} (hd : d.isDir = false)
    (hsmall : d.isLnk = true → d.size ≤ 4095) {env : Env} (henv : env.uid = 0)
    (h : ∀ offset len, readIn V env d offset len = readIn W env d offset len) {b j : ℕ}
    (hs : d.Shows b j) : (V b).byte j = (W b).byte j := by
  by_cases hlnk : d.isLnk = true
  · obtain ⟨hn, hb, hj⟩ := (shows_link hlnk b j).mp hs
    rw [hb]
    have hsize : d.size % 2 ^ 32 = d.size := by
      have := hsmall hlnk
      omega
    have hread := h (10 + j) 1
    have hone : ∀ X : ℕ → Block, readIn X env d (10 + j) 1 = some [(X (d.extentStart 0)).byte j] := by
      intro X
      have hmin : min 1 ((10 + d.size % 2 ^ 32) % 2 ^ 32 - (10 + j)) = 1 := by
        have := hsmall hlnk
        omega
      have hlen : (VFS_SYMLINK_MAGIC).length = 10 := rfl
      rw [readIn, if_pos hlnk, hmin, targetIn, if_neg hn, ← List.drop_drop, List.drop_left' hlen,
        drop_slice, take_slice, Nat.zero_add, show min 1 (d.size % 2 ^ 32 - j) = 1 by omega, slice_one]
    rw [hone V, hone W] at hread
    simpa using hread
  · obtain ⟨hin, hb, hj, fb, hfb, hsize, h32⟩ := (shows_file hlnk b j).mp hs
    rw [← hfb] at hb ⊢
    have hread := h (fb * 4096 + j) 1
    have hone : ∀ X : ℕ → Block, readIn X env d (fb * 4096 + j) 1 =
        some [(X (mapFileblock d fb)).byte j] := by
      intro X
      have hmay : mayAccess env d CFS_R = true := by simp [mayAccess, henv]
      have hmin : min 1 (d.size - (fb * 4096 + j)) = 1 := by omega
      rw [readIn, if_neg hlnk, if_pos ⟨hd, hmay⟩, if_neg (by omega), if_neg (by simp [hin]), hmin,
        List.range_one, List.map_cons, List.map_nil, Nat.add_zero, fileByte,
        Nat.mod_eq_of_lt h32, show (fb * 4096 + j) / 4096 = fb by omega,
        show (fb * 4096 + j) % 4096 = j by omega, if_neg hb]
    rw [hone V, hone W] at hread
    simpa using hread

section Public

variable {g : Geom} {s : St} (hg : g.Wf) (hs : s.Idle g) (hv : Readable g s.vol)

include hg hs hv

theorem cfsIsDir_run (path : List UInt8) :
    (cfsIsDir path).run s = (some (decide (s.vol.resolve path ≠ 0) &&
      (s.vol.ino (s.vol.resolve path)).isDir), s) := by
  rw [cfsIsDir, bind_of_some (resolveIno_run hg hs.toMounted hv path)]
  by_cases hz : s.vol.resolve path = 0
  · rw [if_pos hz, pure_run]
    simp [hz]
  · have hr := resolve_reach hz
    rw [if_neg hz, bind_of_some (attempt_run _ s),
      readDinode_run hs.toMounted ⟨hz, hv.lt _ hr⟩]
    simp [hz, pure_run]

theorem cfsStat_run (path : List UInt8) :
    (cfsStat path).run s = (if s.vol.resolve path = 0 then none
      else some (statOf (s.vol.ino (s.vol.resolve path))), s) := by
  rw [cfsStat, bind_of_some (resolveIno_run hg hs.toMounted hv path)]
  by_cases hz : s.vol.resolve path = 0
  · rw [bind_of_none (ensure_neg (by simpa using hz) s), if_pos hz]
  · have hr := resolve_reach hz
    rw [bind_of_some (ensure_pos hz s), bind_of_some (readDinode_run hs.toMounted ⟨hz, hv.lt _ hr⟩),
      if_neg hz, pure_run]

theorem cfsReadAt_run (env : Env) (path : List UInt8) (offset len : ℕ) :
    (cfsReadAt env path offset len).run s = (if s.vol.resolve path = 0 then none
      else readIn s.disk env (s.vol.ino (s.vol.resolve path)) offset len, s) := by
  rw [cfsReadAt, bind_of_some (resolveIno_run hg hs.toMounted hv path)]
  by_cases hz : s.vol.resolve path = 0
  · rw [bind_of_none (ensure_neg (by simpa using hz) s), if_pos hz]
  · have hr := resolve_reach hz
    rw [bind_of_some (ensure_pos hz s), bind_of_some (readDinode_run hs.toMounted ⟨hz, hv.lt _ hr⟩),
      if_neg hz, readInode_run hs.reads]

end Public

/-- What `cfs_list` reports for an entry. -/
def Vol.listed (v : Vol) (e : Ent) : Listed :=
  { name := e.1, size := (v.ino e.2).size % 2 ^ 32, attr := if (v.ino e.2).isDir then 16 else 0 }

/-- The entries `cfs_list` reports. -/
def visible (l : List Ent) : List Ent := l.filter fun e => ¬ IsDotName e.1

section List

variable {g : Geom} {s : St}

theorem listRecord_run (hs : s.Mounted g) {blk : Block} {off : ℕ}
    (hlive : Dirent.inode blk off ≠ 0) :
    (listRecord blk off).run s =
      (some (s.vol.listed (Dirent.name blk off, Dirent.inode blk off)), s) := by
  rw [listRecord, bind_of_some (attempt_run _ s)]
  by_cases hlt : Dirent.inode blk off < g.totalInodes
  · rw [readDinode_run hs ⟨hlive, hlt⟩]
    rfl
  · rw [readDinode_none hs (fun h => hlt h.2)]
    have hzero : s.vol.ino (Dirent.inode blk off) = zero := by
      have hlt' : ¬ Dirent.inode blk off < s.fs.totalInodes := by rw [hs.geom]; exact hlt
      simp [St.vol, Fs.image, hlt']
    simp [Vol.listed, hzero, pure_run, CFS_S_IFDIR]

theorem listRecords_run (hs : s.Mounted g) (blk : Block) (max : ℕ) (offs : List ℕ) (n : ℕ) :
    (listRecords blk max offs n).run s =
      (some (((visible (offs.filterMap (recEnt blk))).take (max - n)).map s.vol.listed), s) := by
  induction offs generalizing n with
  | nil => simp [listRecords, visible, pure_run]
  | cons off offs ih =>
    rw [listRecords, List.filterMap_cons]
    by_cases hmax : max ≤ n
    · rw [if_pos hmax, pure_run, show max - n = 0 by omega, List.take_zero, List.map_nil]
    · rw [if_neg hmax]
      by_cases hlive : Dirent.inode blk off = 0
      · have hnone : recEnt blk off = none := by rw [recEnt, if_pos hlive]
        rw [if_pos (Or.inl hlive), ih, hnone]
      · have hsome : recEnt blk off = some (Dirent.name blk off, Dirent.inode blk off) := by
          rw [recEnt, if_neg hlive]
        rw [hsome]
        by_cases hdots : isDots blk off = true
        · rw [if_pos (Or.inr hdots), ih]
          simp [visible, (isDots_iff blk off).mp hdots]
        · have hdots' : ¬ IsDotName (Dirent.name blk off) := fun h => hdots ((isDots_iff blk off).mpr h)
          rw [if_neg (by simp [hlive, hdots]), bind_of_some (listRecord_run hs hlive),
            bind_of_some (ih (n + 1)), pure_run, show max - n = max - (n + 1) + 1 by omega]
          simp [visible, hdots']

theorem visible_append (l₁ l₂ : List Ent) : visible (l₁ ++ l₂) = visible l₁ ++ visible l₂ :=
  List.filter_append ..

theorem listBlocks_run (hs : s.Mounted g) (d : DInode) (max : ℕ) (fbs : List ℕ) (n : ℕ) :
    (listBlocks d max fbs n).run s =
      (some (((visible ((mappedAt d fbs).flatMap fun b => dirEnts (s.view b))).take (max - n)).map
        s.vol.listed), s) := by
  induction fbs generalizing n with
  | nil => simp [listBlocks, mappedAt, visible, pure_run]
  | cons fb fbs ih =>
    rw [listBlocks]
    by_cases hmax : max ≤ n
    · rw [if_pos hmax, pure_run, show max - n = 0 by omega, List.take_zero, List.map_nil]
    · rw [if_neg hmax]
      by_cases hz : mapFileblock d fb = 0
      · rw [if_pos hz, ih, mappedAt_zero fbs hz]
      · rw [if_neg hz, bind_of_some (bdReadBlock_run hs.reads _),
          bind_of_some (listRecords_run hs _ max _ n), bind_of_some (ih _), pure_run,
          mappedAt_pos fbs hz, List.flatMap_cons, visible_append, List.take_append, List.map_append]
        have hlen : (((visible (dirEnts (s.view (mapFileblock d fb)))).take (max - n)).map
            s.vol.listed).length = min (max - n) (visible (dirEnts (s.view (mapFileblock d fb)))).length := by
          rw [List.length_map, List.length_take]
        have hrest : max - (n + min (max - n) (visible (dirEnts (s.view (mapFileblock d fb)))).length) =
            max - n - (visible (dirEnts (s.view (mapFileblock d fb)))).length := by omega
        change (some (_ ++ ((visible _).take (max - (n + (((visible (dirEnts
          (s.view (mapFileblock d fb)))).take (max - n)).map s.vol.listed).length))).map _), s) = _
        rw [hlen, hrest]
        rfl

/-- `cfs_list` reports the visible entries of a directory, in order. -/
theorem cfsList_run (hg : g.Wf) (hs : s.Idle g) (hv : Readable g s.vol) (env : Env)
    (path : List UInt8) (max : ℕ) :
    (cfsList env path max).run s = (if s.vol.resolve path ≠ 0 ∧
        (s.vol.ino (s.vol.resolve path)).isDir = true ∧
        mayAccess env (s.vol.ino (s.vol.resolve path)) CFS_R = true
      then some (((visible (s.vol.out (s.vol.resolve path))).take max).map s.vol.listed) else none, s) := by
  rw [cfsList, bind_of_some (resolveIno_run hg hs.toMounted hv path)]
  by_cases hz : s.vol.resolve path ≠ 0
  · have hr := resolve_reach hz
    rw [bind_of_some (ensure_pos hz s), bind_of_some (readDinode_run hs.toMounted ⟨hz, hv.lt _ hr⟩)]
    by_cases hd : (s.vol.ino (s.vol.resolve path)).isDir = true
    · rw [bind_of_some (ensure_pos hd s)]
      by_cases ha : mayAccess env (s.vol.ino (s.vol.resolve path)) CFS_R = true
      · have hents := entsIn_view hs.toMounted (hv.data _ hr hd)
        rw [bind_of_some (ensure_pos ha s), if_pos ⟨hz, hd, ha⟩, Vol.out_of_isDir hd, ← hents]
        exact listBlocks_run hs.toMounted _ max _ 0
      · rw [bind_of_none (ensure_neg ha s), if_neg (fun h => ha h.2.2)]
    · rw [bind_of_none (ensure_neg hd s), if_neg (fun h => hd h.2.1)]
  · rw [bind_of_none (ensure_neg hz s), if_neg (fun h => hz h.1)]

end List

end ComputerOS.Cfs
