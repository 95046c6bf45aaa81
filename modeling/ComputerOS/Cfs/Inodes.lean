import ComputerOS.Cfs.Consistent

/-!
Inode records that differ in their times, owners, permissions, links and checksum only.
Such records cover the same blocks, have the same type and shape, and show the same bytes.
-/
namespace ComputerOS.Cfs

open Bytes Function

namespace DInode

/-- `d'` has the type, size, flags and extent area of `d`. -/
structure Alike (d d' : DInode) : Prop where
  type : d'.mode &&& CFS_S_IFMT = d.mode &&& CFS_S_IFMT
  size : d'.size = d.size
  flags : d'.flags = d.flags
  nextents : d'.nextents = d.nextents
  body : ∀ i, 76 ≤ i → i < 220 → d'.byte i = d.byte i

namespace Alike

variable {d d' d'' : DInode}

theorem refl (d : DInode) : Alike d d := ⟨rfl, rfl, rfl, rfl, fun _ _ _ => rfl⟩

theorem trans (h₁ : Alike d d') (h₂ : Alike d' d'') : Alike d d'' :=
  ⟨h₂.type.trans h₁.type, h₂.size.trans h₁.size, h₂.flags.trans h₁.flags,
    h₂.nextents.trans h₁.nextents,
    fun i h1 h2 => (h₂.body i h1 h2).trans (h₁.body i h1 h2)⟩

/-- Links, owners, times and the checksum may be set to anything. -/
theorem setLE (d : DInode) {off w : ℕ} (v : ℕ)
    (h : (2 ≤ off ∧ off + w ≤ 12) ∨ (20 ≤ off ∧ off + w ≤ 52) ∨ 220 ≤ off) :
    Alike d (d.setLE off w v) := by
  refine ⟨?_, ?_, ?_, ?_, fun i h1 h2 => byte_setLE_ne d (by omega)⟩
  · rw [DInode.mode, getLE_setLE_ne d (by omega)]
  · exact getLE_setLE_ne d (by omega)
  · exact getLE_setLE_ne d (by omega)
  · exact getLE_setLE_ne d (by omega)

theorem setMode (d : DInode) {m : ℕ} (hm : m < 2 ^ 16)
    (h : m &&& CFS_S_IFMT = d.mode &&& CFS_S_IFMT) : Alike d (d.setMode m) := by
  refine ⟨?_, ?_, ?_, ?_, fun i h1 h2 => byte_setLE_ne d (by omega)⟩
  · rw [DInode.mode, getLE_setLE_same d _ (by omega), Nat.mod_eq_of_lt (by omega), h]
  · exact getLE_setLE_ne d (by omega)
  · exact getLE_setLE_ne d (by omega)
  · exact getLE_setLE_ne d (by omega)

theorem stamp (flags : ℕ) (d : DInode) : Alike d (stamp flags d) := setLE d _ (by omega)

variable (h : Alike d d')

include h

theorem isDir : d'.isDir = d.isDir := by rw [DInode.isDir, DInode.isDir, h.type]

theorem isLnk : d'.isLnk = d.isLnk := by rw [DInode.isLnk, DInode.isLnk, h.type]

theorem isInline : d'.isInline = d.isInline := by rw [DInode.isInline, DInode.isInline, h.flags]

theorem extentStart {e : ℕ} (he : e < 12) : d'.extentStart e = d.extentStart e :=
  getLE_congr fun i hi => h.body _ (by omega) (by omega)

theorem extentCount {e : ℕ} (he : e < 12) : d'.extentCount e = d.extentCount e :=
  getLE_congr fun i hi => h.body _ (by omega) (by omega)

variable (hn : d.nextents ≤ 12)

include hn

theorem blocks : d'.blocks = d.blocks :=
  blocks_congr h.nextents fun e he => ⟨h.extentStart (by omega), h.extentCount (by omega)⟩

theorem noHoles (hd : d.NoHoles) : d'.NoHoles := by
  intro e he
  rw [h.nextents] at he
  rw [h.extentStart (by omega)]
  exact hd e he

omit hn in
theorem mapFrom {fb e n logical : ℕ} (hle : e + n ≤ 12) :
    mapFrom d' fb e n logical = mapFrom d fb e n logical := by
  induction n generalizing e logical with
  | zero => rfl
  | succ n ih =>
    rw [Cfs.mapFrom, Cfs.mapFrom, h.extentStart (by omega), h.extentCount (by omega), ih (by omega)]

theorem mapFileblock (fb : ℕ) : mapFileblock d' fb = mapFileblock d fb := by
  rw [Cfs.mapFileblock, Cfs.mapFileblock, h.nextents, h.mapFrom (by omega)]

theorem dirBlocks : d'.dirBlocks = d.dirBlocks := by
  rw [DInode.dirBlocks, DInode.dirBlocks, h.size]
  congr 1
  exact List.map_congr_left fun fb _ => h.mapFileblock hn fb

omit hn in
theorem shaped (hd : Shaped d) : Shaped d' := by
  have hn := hd.extents
  refine ⟨h.nextents ▸ hn, ?_, ?_, ?_⟩
  · intro hdir
    rw [h.isDir] at hdir
    rw [h.blocks hn, h.size]
    exact ⟨h.noHoles hn (hd.dir hdir).1, (hd.dir hdir).2⟩
  · intro hlnk
    rw [h.isLnk] at hlnk
    rw [h.blocks hn, h.size, h.nextents, h.extentStart (by omega)]
    exact hd.lnk hlnk
  · intro hdir hlnk hin
    rw [h.isDir] at hdir
    rw [h.isLnk] at hlnk
    rw [h.isInline] at hin
    rw [h.size]
    exact hd.inline hdir hlnk hin

theorem shows (b j : ℕ) : d'.Shows b j ↔ d.Shows b j := by
  by_cases hl : d.isLnk = true
  · rw [shows_link hl, shows_link (h.isLnk ▸ hl), h.nextents, h.extentStart (by omega), h.size]
  · rw [shows_file hl, shows_file (by rw [h.isLnk]; exact hl), h.isInline]
    simp only [h.size, h.mapFileblock hn]

end Alike

end DInode

/-- The first twelve bytes agree: mode, links, uid and gid. -/
def DInode.SameHead (d d' : DInode) : Prop := ∀ i < 12, d'.byte i = d.byte i

namespace DInode.SameHead

variable {d d' d'' : DInode}

theorem refl (d : DInode) : SameHead d d := fun _ _ => rfl

theorem trans (h₁ : SameHead d d') (h₂ : SameHead d' d'') : SameHead d d'' :=
  fun i hi => (h₂ i hi).trans (h₁ i hi)

theorem setLE (d : DInode) {off : ℕ} (w v : ℕ) (h : 12 ≤ off) : SameHead d (d.setLE off w v) :=
  fun _ _ => byte_setLE_ne d (by omega)

theorem put (d : DInode) {off : ℕ} (src : List UInt8) (h : 12 ≤ off) : SameHead d (d.put off src) :=
  fun _ _ => byte_put_of_not d (by omega)

theorem setExtentBytes (d : DInode) (src : List UInt8) : SameHead d (d.setExtentBytes src) :=
  (put d _ (by omega)).trans (put _ _ (by omega))

theorem stamp (flags : ℕ) (d : DInode) : SameHead d (stamp flags d) := setLE d _ _ (by omega)

theorem push {b n : ℕ} (h : inodePushExtent d b n = some d') : SameHead d d' := by
  unfold inodePushExtent at h
  dsimp only at h
  split at h
  · obtain rfl := Option.some.inj h
    exact setLE d _ _ (by omega)
  · split at h
    · simp at h
    · obtain rfl := Option.some.inj h
      exact ((setLE d _ _ (by omega)).trans (setLE _ _ _ (by omega))).trans (setLE _ _ _ (by omega))

theorem touch (d : DInode) (size now : ℕ) : SameHead d (touch d size now) := by
  unfold Cfs.touch
  dsimp only
  have h : SameHead d (((d.setSize size).setMtime now).setCtime now) :=
    ((setLE d _ _ (by omega)).trans (setLE _ _ _ (by omega))).trans (setLE _ _ _ (by omega))
  split
  · exact h.trans (setLE _ _ _ (by omega))
  · exact h

variable (h : SameHead d d')

include h

theorem mode : d'.mode = d.mode := getLE_congr fun i hi => h _ (by omega)

theorem links : d'.links = d.links := getLE_congr fun i hi => h _ (by omega)

theorem uid : d'.uid = d.uid := getLE_congr fun i hi => h _ (by omega)

theorem gid : d'.gid = d.gid := getLE_congr fun i hi => h _ (by omega)

theorem isDir : d'.isDir = d.isDir := by rw [DInode.isDir, DInode.isDir, h.mode]

end DInode.SameHead

theorem getLE_stamp (flags : ℕ) (d : DInode) {off w : ℕ} (h : off + w ≤ 220) :
    (stamp flags d).getLE off w = d.getLE off w := getLE_setLE_ne d (by omega)

theorem stamp_csum {flags : ℕ} (hf : flags &&& CFS_FEAT_CSUM ≠ 0) (d : DInode) :
    (stamp flags d).csum = inodeCsum (stamp flags d) := by
  rw [stamp, if_pos hf]
  exact csum_setCsum_inodeCsum d

/-- The inode of a directory after a change of its entries. -/
def DInode.restamp (d : DInode) (now : ℕ) : DInode := (d.setMtime now).setCtime now

/-- The inode that `cfs_chown` writes. -/
def DInode.chowned (d : DInode) (uid gid now : ℕ) : DInode :=
  let d := if uid ≠ 2 ^ 32 - 1 then d.setUid uid else d
  let d := if gid ≠ 2 ^ 32 - 1 then d.setGid gid else d
  d.setCtime now

/-- The inode that `cfs_chmod` writes. -/
def DInode.chmodded (d : DInode) (perm now : ℕ) : DInode :=
  (d.setMode ((d.mode &&& CFS_S_IFMT) ||| (perm &&& 0o7777))).setCtime now

theorem chmod_mode (m perm : ℕ) : (m &&& CFS_S_IFMT ||| perm &&& 0o7777) < 2 ^ 16 ∧
    (m &&& CFS_S_IFMT ||| perm &&& 0o7777) &&& CFS_S_IFMT = m &&& CFS_S_IFMT ∧
    (m &&& CFS_S_IFMT ||| perm &&& 0o7777) &&& 0o7777 = perm &&& 0o7777 := by
  refine ⟨Nat.or_lt_two_pow ?_ ?_, ?_, ?_⟩
  · exact Nat.and_lt_two_pow _ (by decide)
  · exact Nat.and_lt_two_pow _ (by decide)
  · have h1 : CFS_S_IFMT &&& CFS_S_IFMT = CFS_S_IFMT := by decide
    have h2 : 0o7777 &&& CFS_S_IFMT = 0 := by decide
    rw [Nat.and_or_distrib_right, Nat.and_assoc, Nat.and_assoc, h1, h2, Nat.and_zero, Nat.or_zero]
  · have h1 : CFS_S_IFMT &&& 0o7777 = 0 := by decide
    have h2 : 0o7777 &&& 0o7777 = 0o7777 := by decide
    rw [Nat.and_or_distrib_right, Nat.and_assoc, Nat.and_assoc, h1, h2, Nat.and_zero, Nat.zero_or]

theorem chmodded_mode (d : DInode) (perm now : ℕ) :
    (d.chmodded perm now).mode = (d.mode &&& CFS_S_IFMT ||| perm &&& 0o7777) := by
  rw [DInode.chmodded, DInode.mode, getLE_setLE_ne _ (by omega), getLE_setLE_same _ _ (by omega)]
  exact Nat.mod_eq_of_lt (chmod_mode d.mode perm).1

theorem getLE_chmodded (d : DInode) (perm now : ℕ) {off w : ℕ} (h : 2 ≤ off ∧ off + w ≤ 36) :
    (d.chmodded perm now).getLE off w = d.getLE off w := by
  rw [DInode.chmodded, getLE_setLE_ne _ (by omega), getLE_setLE_ne _ (by omega)]

theorem DInode.SameHead.restamp (d : DInode) (now : ℕ) : DInode.SameHead d (d.restamp now) :=
  (setLE d _ _ (by omega)).trans (setLE _ _ _ (by omega))

namespace DInode.Alike

variable (d : DInode) (now : ℕ)

theorem restamp : Alike d (d.restamp now) := (setLE d _ (by omega)).trans (setLE _ _ (by omega))

theorem chmodded (perm : ℕ) : Alike d (d.chmodded perm now) :=
  (setMode d (chmod_mode d.mode perm).1 (chmod_mode d.mode perm).2.1).trans (setLE _ _ (by omega))

end DInode.Alike

/-- `w` is `v` up to the times, owners, permissions and links of its inodes. -/
structure Retagged (v w : Vol) : Prop where
  ino : ∀ n, v.Reach n → DInode.Alike (v.ino n) (w.ino n)
  data : w.data = v.data
  bbit : w.bbit = v.bbit
  ibit : w.ibit = v.ibit
  freeBlocks : w.freeBlocks = v.freeBlocks
  freeInodes : w.freeInodes = v.freeInodes

/-- One inode gets a record that is alike. -/
theorem Retagged.setIno {v : Vol} {n : ℕ} {d : DInode} (h : DInode.Alike (v.ino n) d) :
    Retagged v (v.setIno n d) := by
  refine ⟨fun m _ => ?_, rfl, rfl, rfl, rfl, rfl⟩
  by_cases hm : m = n
  · subst hm
    simpa [Vol.setIno] using h
  · simpa [Vol.setIno, hm] using DInode.Alike.refl (v.ino m)

namespace Retagged

variable {g : Geom} {v w : Vol} (h : Retagged v w) (hx : ∀ n, v.Reach n → (v.ino n).nextents ≤ 12)

include h hx

theorem out_eq {n : ℕ} (hn : v.Reach n) : w.out n = v.out n := by
  unfold Vol.out
  rw [(h.ino n hn).isDir, Vol.ents, Vol.ents, entsIn, entsIn, (h.ino n hn).dirBlocks (hx n hn), h.data]

theorem reach_iff {n : ℕ} : w.Reach n ↔ v.Reach n := DirGraph.reach_congr fun _ hn => h.out_eq hx hn

theorem walk_eq (cs : List Name) {n : ℕ} (hn : v.Reach n) : w.walk n cs = v.walk n cs := by
  induction cs generalizing n with
  | nil => rfl
  | cons c cs ih =>
    rw [Vol.walk, Vol.walk, h.out_eq hx hn]
    split
    · rfl
    · split
      · rfl
      · next hz => exact ih (.step hn (lookupEnt_mem hz))

theorem resolve_eq (path : List UInt8) : w.resolve path = v.resolve path := h.walk_eq hx _ .root

open Classical in
theorem refs_eq (c : ℕ) : w.refs g c = v.refs g c := by
  unfold Vol.refs
  refine Finset.sum_congr (Finset.filter_congr fun n _ => h.reach_iff hx) fun n hn => ?_
  rw [h.out_eq hx (Finset.mem_filter.mp hn).2]

theorem consistent (hc : Consistent g v) (hlinks : ∀ n, v.Reach n → (w.ino n).links = (v.ino n).links)
    (hcsum : ∀ n, v.Reach n → (w.ino n).csum = inodeCsum (w.ino n)) : Consistent g w := by
  have hr : ∀ n, w.Reach n ↔ v.Reach n := fun n => h.reach_iff hx
  have hblocks : ∀ n, v.Reach n → (w.ino n).blocks = (v.ino n).blocks :=
    fun n hn => (h.ino n hn).blocks (hx n hn)
  constructor
  case tiled =>
    intro n hn hd b hb
    rw [hr] at hn
    rw [(h.ino n hn).isDir] at hd
    rw [(h.ino n hn).dirBlocks (hx n hn)] at hb
    rw [h.data]
    exact hc.tiled n hn hd b hb
  case names =>
    intro n hn
    rw [hr] at hn
    rw [h.out_eq hx hn]
    exact hc.names n hn
  case inTable =>
    intro n hn
    exact hc.inTable n ((hr n).mp hn)
  case ibits =>
    intro n hn
    rw [h.ibit, hc.ibits n hn, hr]
  case inRange =>
    intro n hn b hb
    rw [hr] at hn
    rw [hblocks n hn] at hb
    exact hc.inRange n hn b hb
  case once =>
    intro n hn
    rw [hr] at hn
    rw [hblocks n hn]
    exact hc.once n hn
  case apart =>
    intro n m hn hm hne b hb
    rw [hr] at hn hm
    rw [hblocks n hn] at hb
    rw [hblocks m hm]
    exact hc.apart n m hn hm hne b hb
  case bbits =>
    intro b hb
    rw [h.bbit, hc.bbits b hb]
    refine or_congr Iff.rfl (exists_congr fun n => ?_)
    rw [hr]
    exact and_congr_right fun hn => by rw [hblocks n hn]
  case links =>
    intro n hn
    rw [hr] at hn
    rw [hlinks n hn, h.refs_eq hx, hc.links n hn]
  case csum =>
    intro n hn
    exact hcsum n ((hr n).mp hn)
  case freeBlocks =>
    rw [h.freeBlocks, hc.freeBlocks, Vol.clearBlocks, Vol.clearBlocks, h.bbit]
  case freeInodes =>
    rw [h.freeInodes, hc.freeInodes, Vol.clearInodes, Vol.clearInodes, h.ibit]

theorem dotted (hd : Dotted v) : Dotted w := by
  have hr : ∀ n, w.Reach n ↔ v.Reach n := fun n => h.reach_iff hx
  have hdir : ∀ n, v.Reach n → (w.ino n).isDir = (v.ino n).isDir := fun n hn => (h.ino n hn).isDir
  constructor
  case root =>
    rw [hdir _ .root]
    exact hd.root
  case self =>
    intro n hn hn'
    rw [hr] at hn
    rw [hdir n hn] at hn'
    rw [h.out_eq hx hn]
    exact hd.self n hn hn'
  case parent =>
    intro n hn hn'
    rw [hr] at hn
    rw [hdir n hn] at hn'
    obtain ⟨p, hp, hroot, hname⟩ := hd.parent n hn hn'
    have hreach : v.Reach p := .step hn hp
    rw [h.out_eq hx hn]
    refine ⟨p, hp, hroot, ?_⟩
    rw [h.out_eq hx hreach]
    exact hname
  case unique =>
    intro m m' n name name' hm hm' hn hdot hdot' he he'
    rw [hr] at hm hm'
    rw [h.out_eq hx hm] at he
    rw [h.out_eq hx hm'] at he'
    rw [hdir n (.step hm he)] at hn
    exact hd.unique m m' n name name' hm hm' hn hdot hdot' he he'
  case above =>
    intro m name hm hdot he
    rw [hr] at hm
    rw [h.out_eq hx hm] at he
    exact hd.above m name hm hdot he

omit hx in
theorem wellFormed (hv : WellFormed g v) (hlinks : ∀ n, v.Reach n → (w.ino n).links = (v.ino n).links)
    (hcsum : ∀ n, v.Reach n → (w.ino n).csum = inodeCsum (w.ino n)) (hsuper : w.super = v.super) :
    WellFormed g w := by
  have hx : ∀ n, v.Reach n → (v.ino n).nextents ≤ 12 := fun n hn => (hv.shaped n hn).extents
  refine ⟨h.consistent hx hv.toConsistent hlinks hcsum, fun n hn => ?_, h.dotted hx hv.dotted, ?_⟩
  · have hn' := (h.reach_iff hx).mp hn
    exact (h.ino n hn').shaped (hv.shaped n hn')
  · rw [hsuper]
    exact hv.super

end Retagged

def Vol.setPerm (g : Geom) (v : Vol) (n perm now : ℕ) : Vol :=
  v.setIno n (stamp g.flags ((v.ino n).chmodded perm now))

theorem Vol.setPerm_retagged (g : Geom) (v : Vol) (n perm now : ℕ) : Retagged v (v.setPerm g n perm now) :=
  .setIno ((DInode.Alike.chmodded _ _ _).trans (DInode.Alike.stamp _ _))

theorem Vol.getLE_setPerm (g : Geom) (v : Vol) (n m perm now : ℕ) {off w : ℕ} (h : 2 ≤ off ∧ off + w ≤ 36) :
    ((v.setPerm g n perm now).ino m).getLE off w = (v.ino m).getLE off w := by
  by_cases hm : m = n
  · subst hm
    rw [Vol.setPerm, Vol.ino_setIno_same, getLE_stamp _ _ (by omega), getLE_chmodded _ _ _ h]
  · rw [Vol.setPerm, Vol.ino_setIno_ne _ _ hm]

theorem Vol.setPerm_mode (g : Geom) (v : Vol) (n perm now : ℕ) :
    ((v.setPerm g n perm now).ino n).mode = ((v.ino n).mode &&& CFS_S_IFMT ||| perm &&& 0o7777) := by
  rw [Vol.setPerm, Vol.ino_setIno_same, DInode.mode, getLE_stamp _ _ (by omega)]
  exact chmodded_mode _ _ _

theorem WellFormed.setPerm {g : Geom} {v : Vol} (hf : g.flags &&& CFS_FEAT_CSUM ≠ 0)
    (hv : WellFormed g v) (n perm now : ℕ) : WellFormed g (v.setPerm g n perm now) := by
  refine (v.setPerm_retagged g n perm now).wellFormed hv (fun m _ => ?_) (fun m hm => ?_) rfl
  · exact v.getLE_setPerm g n m perm now (by omega)
  · by_cases hmn : m = n
    · subst hmn
      rw [Vol.setPerm, Vol.ino_setIno_same]
      exact stamp_csum hf _
    · rw [Vol.setPerm, Vol.ino_setIno_ne _ _ hmn]
      exact hv.csum m hm

section NewDir

variable (env : Env) {b : ℕ}

theorem newDirInode_mode (b : ℕ) : (newDirInode env b).mode = CFS_S_IFDIR + 0o755 := by
  simp [newDirInode, getLE_setLE_same, CFS_S_IFDIR]

theorem newDirInode_uid (b : ℕ) : (newDirInode env b).uid = env.uid % 2 ^ 32 := by
  simp [newDirInode, getLE_setLE_same]

theorem newDirInode_gid (b : ℕ) : (newDirInode env b).gid = env.gid % 2 ^ 32 := by
  simp [newDirInode, getLE_setLE_same]

theorem newDirInode_links (b : ℕ) : (newDirInode env b).links = 2 := by
  simp [newDirInode, getLE_setLE_same]

theorem newDirInode_size (b : ℕ) : (newDirInode env b).size = 4096 := by
  simp [newDirInode, getLE_setLE_same]

theorem newDirInode_nextents (b : ℕ) : (newDirInode env b).nextents = 1 := by
  simp [newDirInode, getLE_setLE_same]

theorem newDirInode_start (hb : b < 2 ^ 64) : (newDirInode env b).extentStart 0 = b := by
  simp only [newDirInode, DInode.extentStart, DInode.setExtentStart, DInode.setExtentCount]
  rw [getLE_setLE_ne _ (by omega), getLE_setLE_same _ _ (by omega)]
  exact Nat.mod_eq_of_lt hb

theorem newDirInode_count (b : ℕ) : (newDirInode env b).extentCount 0 = 1 := by
  simp only [newDirInode, DInode.extentCount, DInode.setExtentCount]
  rw [getLE_setLE_same _ _ (by omega)]
  rfl

theorem newDirInode_isDir (b : ℕ) : (newDirInode env b).isDir = true := by
  rw [DInode.isDir, newDirInode_mode]
  decide

end NewDir

end ComputerOS.Cfs
