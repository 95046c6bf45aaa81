import ComputerOS.Cfs.Commit
import ComputerOS.Cfs.Failure
import ComputerOS.Cfs.Inodes

/-!
What a public call that reaches its commit does to the volume. `Effect` says it once for
each call, with every check the call has passed; `k` stands for "no buffered write was
refused", and without it the frees and the superblock may be missing. Everything that holds
after a successful call is derived from `Effect`.
-/
namespace ComputerOS.Cfs

open M Bytes Function

/-- The end of a call: the superblock with the free counts. -/
inductive Synced (g : Geom) (k : Prop) (v : Vol) : Vol → Prop
  | sync : Synced g k v (v.setSuper (superWith g.flags v.freeBlocks v.freeInodes v.super))
  | refused (hk : ¬ k) : Synced g k v v

/-- The inode bit that `free_inode` clears; never that of the root. -/
def Vol.dropInode (g : Geom) (v : Vol) (n : ℕ) : Vol :=
  if n < 2 ∨ g.totalInodes ≤ n then v else v.giveInode n

/-- The blocks of inode `n`, with contents `d`, and its bit are given back. -/
inductive Freed (g : Geom) (k : Prop) (n : ℕ) (d : DInode) (v : Vol) : Vol → Prop
  | all {F : List ℕ} (hF : F ⊆ d.blocks) (hdata : ∀ b ∈ F, g.IsData b)
      (hall : k → F = d.blocks.filter fun b => g.IsData b) :
      Freed g k n d v ((v.giveBlocks F).dropInode g n)
  | blocks {F : List ℕ} (hF : F ⊆ d.blocks) (hdata : ∀ b ∈ F, g.IsData b) (hk : ¬ k) :
      Freed g k n d v (v.giveBlocks F)

/-- `dropLink`: the inode `d` with one link less is written, or freed with the last. -/
inductive Dropped (g : Geom) (k : Prop) (n : ℕ) (d : DInode) (v : Vol) : Vol → Prop
  | last {w : Vol} (hlast : d.links = 0) (hfreed : Freed g k n d v w) : Dropped g k n d v w
  | more (hmore : d.links ≠ 0) : Dropped g k n d v (v.setIno n (stamp g.flags d))

/-- The volume before the new directory `n`, with block `b`, is entered in its parent. -/
def Vol.withDir (g : Geom) (env : Env) (v : Vol) (p n b : ℕ) : Vol :=
  (((v.takeInode n).takeBlock b).setData b (dirInitBlock n p)).setIno n
  (stamp g.flags (newDirInode env b))

inductive Effect (g : Geom) (env : Env) (k : Prop) (v : Vol) : Call → Vol → Prop
  | write {path data : List UInt8} {p n : ℕ} {leaf : Name} {din d' : DInode} {v₁ v₂ w : Vol}
      {l : List (ℕ × Block)} (hat : Located v path p leaf)
      (hlink : isLink data = true → data.length - 10 ≤ 4095)
      (hopen : Target g env k p leaf (writeMode data) (writeType data) v n din v₁)
      (hstore : Stored g v₁ l v₂) (hlaid : Laid din data l d') (hn : n < g.totalInodes)
      (hsync : Synced g k (v₂.setIno n (stamp g.flags (touch d' (writeSize data) env.now))) w) :
      Effect g env k v (.writeFile path data) w
  | mkdir {path : List UInt8} {p n b : ℕ} {leaf : Name} {pd : DInode} {v₁ w : Vol}
      (hat : Located v path p leaf) (hmay : mayAccess env (v.ino p) (CFS_W + CFS_X) = true)
      (hlook : lookupEnt (v.out p) leaf = 0) (hn : 2 ≤ n) (hlt : n < g.totalInodes)
      (hfree : v.ibit n = false) (hb : g.IsData b) (hbfree : v.bbit b = false)
      (hadd : Added g leaf n CFS_FT_DIR (v.withDir g env p n b) (v.ino p) v₁ pd)
      (hsync : Synced g k
        (v₁.setIno p (stamp g.flags ((pd.setLinks (pd.links + 1)).restamp env.now))) w) :
      Effect g env k v (.mkdir path) w
  | rmdir {path : List UInt8} {p n : ℕ} {leaf : Name} {v₁ v₂ w : Vol} (hat : Located v path p leaf)
      (hmay : mayAccess env (v.ino p) (CFS_W + CFS_X) = true)
      (hlook : lookupEnt (v.out p) leaf = n) (hn : n ≠ 0) (hdir : (v.ino n).isDir = true)
      (hempty : ∀ e ∈ v.out n, IsDotName e.1) (hrem : Removed leaf v (v.ino p) v₁)
      (hfreed : Freed g k n (v.ino n)
        (v₁.setIno p (stamp g.flags (((v.ino p).setLinks ((v.ino p).links - 1)).restamp env.now))) v₂)
      (hsync : Synced g k v₂ w) : Effect g env k v (.rmdir path) w
  | unlink {path : List UInt8} {p n : ℕ} {leaf : Name} {v₁ v₂ w : Vol} (hat : Located v path p leaf)
      (hmay : mayAccess env (v.ino p) (CFS_W + CFS_X) = true)
      (hlook : lookupEnt (v.out p) leaf = n) (hn : n ≠ 0) (hfile : (v.ino n).isDir = false)
      (hrem : Removed leaf v (v.ino p) v₁)
      (hdrop : Dropped g k n ((v.ino n).setLinks ((v.ino n).links - 1))
        (v₁.setIno p (stamp g.flags ((v.ino p).restamp env.now))) v₂)
      (hsync : Synced g k v₂ w) : Effect g env k v (.unlink path) w
  | link {oldpath newpath : List UInt8} {p n : ℕ} {leaf : Name} {pd : DInode} {v₁ : Vol}
      (hold : v.resolve oldpath = n) (hn : n ≠ 0) (hfile : (v.ino n).isDir = false)
      (hat : Located v newpath p leaf) (hmay : mayAccess env (v.ino p) (CFS_W + CFS_X) = true)
      (hlook : lookupEnt (v.out p) leaf = 0)
      (hadd : Added g leaf n (if (v.ino n).isLnk then CFS_FT_LNK else CFS_FT_REG) v (v.ino p) v₁ pd) :
      Effect g env k v (.link oldpath newpath) ((v₁.setIno p (stamp g.flags pd)).setIno n
        (stamp g.flags (((v.ino n).setLinks ((v.ino n).links + 1)).setCtime env.now)))
  | chmod {path : List UInt8} {perm n : ℕ} (hpath : v.resolve path = n) (hn : n ≠ 0)
      (hmay : env.uid = 0 ∨ env.uid = (v.ino n).uid) :
      Effect g env k v (.chmod path perm)
        (v.setIno n (stamp g.flags ((v.ino n).chmodded perm env.now)))
  | chown {path : List UInt8} {uid gid n : ℕ} (hroot : env.uid = 0) (hpath : v.resolve path = n)
      (hn : n ≠ 0) :
      Effect g env k v (.chown path uid gid)
        (v.setIno n (stamp g.flags ((v.ino n).chowned uid gid env.now)))

variable {g : Geom} {s s' : St} {k : Prop}

theorem syncSuper_synced (hg : g.Wf) (hs : s.InTxn g) :
    ∃ s', syncSuper.run s = (some (), s') ∧ Step g s s' ∧ Synced g (s'.lost = false) s.vol s'.vol := by
  obtain ⟨s', hrun, hstep, hvol | ⟨hvol, hlost⟩⟩ := syncSuper_spec hg hs
  · refine ⟨s', hrun, hstep, ?_⟩
    rw [hvol]
    exact .sync
  · refine ⟨s', hrun, hstep, ?_⟩
    rw [hvol]
    exact .refused (by simp [hlost])

theorem freeInode_drops (hg : g.Wf) (hs : s.InTxn g) (n : ℕ) :
    ∃ s', (freeInode n).run s = (some (), s') ∧ Step g s s' ∧
      (s'.vol = s.vol.dropInode g n ∨ (s'.vol = s.vol ∧ s'.lost = true)) := by
  by_cases hn : n < 2 ∨ g.totalInodes ≤ n
  · have hn' : n < 2 ∨ s.fs.totalInodes ≤ n := by
      rw [hs.geom]
      exact hn
    refine ⟨s, ?_, .refl g s, Or.inl ?_⟩
    · rw [freeInode, bind_of_some (getFs_run s), if_pos hn', pure_run]
    · rw [Vol.dropInode, if_pos hn]
  · rw [not_or] at hn
    obtain ⟨s', hrun, hstep, hvol⟩ := freeInode_spec hg hs (n := n) (by omega) (by omega)
    refine ⟨s', hrun, hstep, ?_⟩
    rwa [Vol.dropInode, if_neg (by omega)]

/-- Giving an inode's blocks and its bit back. -/
theorem free_freed (hg : g.Wf) (hs : s.InTxn g) (n : ℕ) (d : DInode) :
    ∃ s', (do let _ ← inodeFreeData d; freeInode n : M Unit).run s = (some (), s') ∧ Step g s s' ∧
      Freed g (s'.lost = false) n d s.vol s'.vol := by
  obtain ⟨s1, F, hrun1, hstep1, hF, hdata, hvol1, hall⟩ := inodeFreeData_spec hg hs d
  obtain ⟨s2, hrun2, hstep2, hvol2 | ⟨hvol2, hlost⟩⟩ := freeInode_drops hg (hstep1.inTxn hs) n
  · refine ⟨s2, by rw [bind_of_some hrun1, hrun2], hstep1.trans hstep2, ?_⟩
    rw [hvol2, hvol1]
    exact .all hF hdata fun hl => hall (hstep2.not_lost hl)
  · refine ⟨s2, by rw [bind_of_some hrun1, hrun2], hstep1.trans hstep2, ?_⟩
    rw [hvol2, hvol1]
    exact .blocks hF hdata (by simp [hlost])

theorem Freed.mono {k' : Prop} {n : ℕ} {d : DInode} {v w : Vol} (h : Freed g k n d v w) (hk : k' → k) :
    Freed g k' n d v w := by
  cases h with
  | all hF hdata hall => exact .all hF hdata fun h => hall (hk h)
  | blocks hF hdata hnot => exact .blocks hF hdata fun h => hnot (hk h)

theorem Dropped.mono {k' : Prop} {n : ℕ} {d : DInode} {v w : Vol} (h : Dropped g k n d v w)
    (hk : k' → k) : Dropped g k' n d v w := by
  cases h with
  | last hlast hfreed => exact .last hlast (hfreed.mono hk)
  | more hmore => exact .more hmore

theorem length_txnPut_le (t : List (ℕ × Block)) (b : ℕ) (v : Block) :
    (txnPut t b v).length ≤ t.length + 1 := by
  induction t with
  | nil => simp [txnPut]
  | cons e t ih =>
    rw [txnPut]
    split
    · simp
    · simpa using ih

theorem writeDinode_room (hs : s.InTxn g) {n : ℕ} (hn : n ≠ 0 ∧ n < g.totalInodes)
    (d : DInode) (hroom : s.txn.length < CFS_MAX_TXN) :
    ∃ s', (writeDinode n d).run s = (some (), s') ∧ s'.txn.length ≤ s.txn.length + 1 := by
  have hn' : n ≠ 0 ∧ n < s.fs.totalInodes := by rw [hs.geom]; exact hn
  refine ⟨s.buffer (s.fs.inodeBlock n) ((s.view (s.fs.inodeBlock n)).paste (s.fs.inodeOff n)
    (stamp s.fs.flags d)), ?_, length_txnPut_le _ _ _⟩
  rw [writeDinode, bind_of_some (getFs_run s), bind_of_some (ensure_pos hn' s),
    bind_of_some (bdReadBlock_run hs.reads _), bdWriteBlock_eq, if_pos hs.active,
    if_neg fun h => absurd h.2 (by omega)]
  rfl

section Bodies

variable (hg : g.Wf) (hs : s.Fresh g) (hu : Usable g s.vol) {env : Env}

include hg hs hu

omit hg hu in
/-- What follows the read of an inode and a check on it. -/
theorem inode_checked {α : Type} {n : ℕ} {c : DInode → Prop} [∀ d, Decidable (c d)] {f : DInode → M α}
    {r : α} (h : (readDinode n >>= fun d => ensure (c d) >>= fun _ => f d).run s = (some r, s')) :
    c (s.vol.ino n) ∧ (f (s.vol.ino n)).run s = (some r, s') := by
  obtain ⟨d, s1, h1, k1⟩ := bind_eq_some h
  obtain ⟨-, rfl, rfl⟩ := readDinode_some hs.toMounted h1
  obtain ⟨_, s2, h2, k2⟩ := bind_eq_some k1
  obtain ⟨hc, rfl⟩ := ensure_eq_some h2
  exact ⟨hc, k2⟩

/-- What follows the search for the directory that holds the last name of a path. -/
theorem parent_opened {α : Type} {path : List UInt8} {f : ℕ × Name → M α} {r : α}
    (h : (resolveParent path >>= f).run s = (some r, s')) :
    ∃ p leaf, Located s.vol path p leaf ∧ (f (p, leaf)).run s = (some r, s') := by
  obtain ⟨⟨p, leaf⟩, s1, h1, k1⟩ := bind_eq_some h
  obtain ⟨rfl, hat⟩ := resolveParent_located hg hs.toMounted hu.toReadable h1
  exact ⟨p, leaf, hat, k1⟩

/-- What follows the resolution of a path that must lead to an inode. -/
theorem inode_opened {α : Type} {path : List UInt8} {f : ℕ → M α} {r : α}
    (h : (resolveIno path >>= fun n => ensure (n ≠ 0) >>= fun _ => f n).run s = (some r, s')) :
    s.vol.resolve path ≠ 0 ∧ (f (s.vol.resolve path)).run s = (some r, s') := by
  rw [bind_of_some (resolveIno_run hg hs.toMounted hu.toReadable path)] at h
  obtain ⟨_, s1, h1, k1⟩ := bind_eq_some h
  obtain ⟨hn, rfl⟩ := ensure_eq_some h1
  exact ⟨hn, k1⟩

theorem doWriteFile_effect {path data : List UInt8} {rc : ℤ}
    (h : (doWriteFile env path data).run s = (some rc, s')) :
    Effect g env (s'.lost = false) s.vol (.writeFile path data) s'.vol := by
  obtain ⟨p, leaf, hat, k⟩ := parent_opened hg hs hu h
  obtain ⟨hlink, k3⟩ := inode_checked hs k
  obtain ⟨r, s4, h4, k4⟩ := bind_eq_some k3
  obtain ⟨n, din⟩ := r
  obtain ⟨hw4, -, htarget⟩ := openForWrite_target hg hs hu hat.reach hat.isDir h4
  obtain ⟨d', s5, h5, k5⟩ := bind_eq_some k4
  obtain ⟨hw5, hlost5, l, hstore, hlaid⟩ := storeData_some hg hw4 h5
  obtain ⟨_, s6, h6, k6⟩ := bind_eq_some k5
  obtain ⟨⟨-, hlt⟩, hstep6, hw6, hvol6⟩ := writeDinode_working hg hw5 h6
  obtain ⟨s7, h7, hstep7, hsync⟩ := syncSuper_synced hg hw6.toInTxn
  rw [bind_of_some h7, pure_run] at k6
  obtain rfl : s7 = s' := congrArg Prod.snd k6
  rw [hvol6] at hsync
  refine .write hat hlink (htarget.mono fun hl => ?_) hstore hlaid hlt hsync
  have hl5 := hstep6.not_lost (hstep7.not_lost hl)
  by_contra hne
  rw [hlost5 (by simpa using hne)] at hl5
  cases hl5

theorem doMkdir_effect {path : List UInt8} {rc : ℤ} (h : (doMkdir env path).run s = (some rc, s')) :
    Effect g env (s'.lost = false) s.vol (.mkdir path) s'.vol := by
  obtain ⟨p, leaf, hat, k⟩ := parent_opened hg hs hu h
  obtain ⟨hmay, k3⟩ := inode_checked hs k
  rw [bind_of_some (dirLookup_vol hs.toMounted hu.toReadable hat.reach hat.isDir leaf)] at k3
  obtain ⟨_, s5, h5, k5⟩ := bind_eq_some k3
  obtain ⟨hlook, rfl⟩ := ensure_eq_some h5
  obtain ⟨n, s6, h6, k6⟩ := bind_eq_some k5
  obtain ⟨_, s7, h7, k7⟩ := bind_eq_some k6
  obtain ⟨hne, rfl⟩ := ensure_eq_some h7
  obtain ⟨-, hw7, hn2, hlt, hfree, hvol7⟩ := allocInode_some hg hs.working hne h6
  obtain ⟨b, s8, h8, k8⟩ := bind_eq_some k7
  by_cases hb : b = 0
  · rw [if_pos hb] at k8
    obtain ⟨_, _, _, k9⟩ := bind_eq_some k8
    simp [fail_run] at k9
  · rw [if_neg hb] at k8
    obtain ⟨-, hw8, hdata, hbfree, -, hvol8, hclean⟩ := allocBlock_some hg hw7 hb h8
    obtain ⟨_, s9, h9, k9⟩ := bind_eq_some k8
    obtain ⟨hw9, hvol9, -⟩ := rawWriteBlock_working hg hw8 hdata hclean h9
    obtain ⟨_, s10, h10, k10⟩ := bind_eq_some k9
    obtain ⟨-, -, hw10, hvol10⟩ := writeDinode_working hg hw9 h10
    rw [hvol9, hvol8, hvol7] at hvol10
    rw [hvol7] at hbfree
    obtain ⟨pd, s11, h11, k11⟩ := bind_eq_some k10
    have hblocks : ∀ x ∈ (s5.vol.ino p).dirBlocks, g.IsData x ∧ s10.vol.bbit x = true := by
      intro x hx
      obtain ⟨hxd, hxu⟩ := parent_blocks hu hat.reach hat.isDir x hx
      refine ⟨hxd, ?_⟩
      rw [hvol10]
      by_cases hxb : x = b
      · simp [Vol.setIno, Vol.setData, Vol.takeBlock, hxb]
      · simpa [Vol.setIno, Vol.setData, Vol.takeBlock, Vol.takeInode, hxb] using hxu
    obtain ⟨hw11, hadd, -⟩ := dirAdd_some hg hw10 hblocks (orUndo_eq_some h11)
    obtain ⟨_, s12, h12, k12⟩ := bind_eq_some k11
    obtain ⟨-, -, hw12, hvol12⟩ := writeDinode_working hg hw11 h12
    obtain ⟨s13, h13, -, hsync⟩ := syncSuper_synced hg hw12.toInTxn
    rw [bind_of_some h13, pure_run] at k12
    obtain rfl : s13 = s' := congrArg Prod.snd k12
    rw [hvol12] at hsync
    rw [hvol10] at hadd
    exact .mkdir hat hmay hlook hn2 hlt hfree hdata hbfree hadd hsync

theorem doLink_effect {oldpath newpath : List UInt8} {rc : ℤ}
    (h : (doLink env oldpath newpath).run s = (some rc, s')) :
    Effect g env (s'.lost = false) s.vol (.link oldpath newpath) s'.vol := by
  obtain ⟨hn, k1⟩ := inode_opened hg hs hu h
  obtain ⟨hfile, k2⟩ := inode_checked hs k1
  obtain ⟨p, leaf, hat, k3⟩ := parent_opened hg hs hu k2
  obtain ⟨hmay, k6⟩ := inode_checked hs k3
  rw [bind_of_some (dirLookup_vol hs.toMounted hu.toReadable hat.reach hat.isDir leaf)] at k6
  obtain ⟨_, s7, h7, k7⟩ := bind_eq_some k6
  obtain ⟨hlook, rfl⟩ := ensure_eq_some h7
  obtain ⟨pd, s8, h8, k8⟩ := bind_eq_some k7
  obtain ⟨hw8, hadd, -⟩ := dirAdd_some hg hs.working (parent_blocks hu hat.reach hat.isDir) h8
  obtain ⟨_, s9, h9, k9⟩ := bind_eq_some k8
  obtain ⟨-, -, hw9, hvol9⟩ := writeDinode_working hg hw8 h9
  obtain ⟨_, s10, h10, k10⟩ := bind_eq_some k9
  obtain ⟨-, -, -, hvol10⟩ := writeDinode_working hg hw9 h10
  rw [pure_run] at k10
  obtain rfl : s10 = s' := congrArg Prod.snd k10
  rw [hvol10, hvol9]
  exact .link rfl hn hfile hat hmay hlook hadd

theorem doRmdir_effect {path : List UInt8} {rc : ℤ} (h : (doRmdir env path).run s = (some rc, s')) :
    Effect g env (s'.lost = false) s.vol (.rmdir path) s'.vol := by
  obtain ⟨p, leaf, hat, k⟩ := parent_opened hg hs hu h
  obtain ⟨hmay, k3⟩ := inode_checked hs k
  rw [bind_of_some (dirLookup_vol hs.toMounted hu.toReadable hat.reach hat.isDir leaf)] at k3
  obtain ⟨_, s5, h5, k5⟩ := bind_eq_some k3
  obtain ⟨hn, rfl⟩ := ensure_eq_some h5
  obtain ⟨din, s6, h6, k6⟩ := bind_eq_some k5
  obtain ⟨-, rfl, rfl⟩ := readDinode_some hs.toMounted h6
  obtain ⟨_, s7, h7, k7⟩ := bind_eq_some k6
  obtain ⟨hdir, rfl⟩ := ensure_eq_some h7
  obtain ⟨r, hrun, hiff⟩ := dirIsEmpty_run hs.reads (s7.vol.ino (lookupEnt (s7.vol.out p) leaf))
  rw [bind_of_some hrun] at k7
  obtain ⟨_, s8, h8, k8⟩ := bind_eq_some k7
  obtain ⟨hempty, rfl⟩ := ensure_eq_some h8
  have hr := hat.reach.step (lookupEnt_mem hn)
  rw [hempty] at hiff
  rw [entsIn_view hs.toMounted (hu.data _ hr hdir), ← Vol.out_of_isDir hdir] at hiff
  obtain ⟨_, s9, h9, k9⟩ := bind_eq_some k8
  obtain ⟨hw9, hrem, -⟩ := dirRemove_some hg hs.working (parent_blocks hu hat.reach hat.isDir) h9
  obtain ⟨_, s10, h10, k10⟩ := bind_eq_some k9
  obtain ⟨-, -, hw10, hvol10⟩ := writeDinode_working hg hw9 h10
  obtain ⟨s11, h11, hstep11, hfreed⟩ := free_freed hg hw10.toInTxn (lookupEnt (s8.vol.out p) leaf)
    (s8.vol.ino (lookupEnt (s8.vol.out p) leaf))
  obtain ⟨s12, h12, hstep12, hsync⟩ := syncSuper_synced hg (hstep11.inTxn hw10.toInTxn)
  rw [← bind_assoc, bind_of_some h11, bind_of_some h12, pure_run] at k10
  obtain rfl : s12 = s' := congrArg Prod.snd k10
  rw [hvol10] at hfreed
  exact .rmdir hat hmay rfl hn hdir (hiff.mp rfl) hrem (hfreed.mono hstep12.not_lost) hsync

theorem doChmod_effect {path : List UInt8} {perm : ℕ} {rc : ℤ}
    (h : (doChmod env path perm).run s = (some rc, s')) :
    Effect g env (s'.lost = false) s.vol (.chmod path perm) s'.vol := by
  obtain ⟨hn, k1⟩ := inode_opened hg hs hu h
  obtain ⟨hmay, k3⟩ := inode_checked hs k1
  obtain ⟨_, s4, h4, k4⟩ := bind_eq_some k3
  obtain ⟨-, -, -, hvol4⟩ := writeDinode_working hg hs.working h4
  rw [pure_run] at k4
  obtain rfl : s4 = s' := congrArg Prod.snd k4
  rw [hvol4]
  exact .chmod rfl hn hmay

theorem doChown_effect {path : List UInt8} {uid gid : ℕ} {rc : ℤ}
    (h : (doChown env path uid gid).run s = (some rc, s')) :
    Effect g env (s'.lost = false) s.vol (.chown path uid gid) s'.vol := by
  obtain ⟨_, s1, h1, k1⟩ := bind_eq_some h
  obtain ⟨hroot, rfl⟩ := ensure_eq_some h1
  obtain ⟨hn, k2⟩ := inode_opened hg hs hu k1
  obtain ⟨d, s3, h3, k3⟩ := bind_eq_some k2
  obtain ⟨-, rfl, rfl⟩ := readDinode_some hs.toMounted h3
  obtain ⟨_, s4, h4, k4⟩ := bind_eq_some k3
  obtain ⟨-, -, -, hvol4⟩ := writeDinode_working hg hs.working h4
  rw [pure_run] at k4
  obtain rfl : s4 = s' := congrArg Prod.snd k4
  rw [hvol4]
  exact .chown hroot rfl hn

theorem doUnlink_effect (htxn : s.txn = []) {path : List UInt8} {rc : ℤ}
    (h : (doUnlink env path).run s = (some rc, s')) :
    Effect g env (s'.lost = false) s.vol (.unlink path) s'.vol := by
  obtain ⟨p, leaf, hat, k⟩ := parent_opened hg hs hu h
  obtain ⟨hmay, k3⟩ := inode_checked hs k
  rw [bind_of_some (dirLookup_vol hs.toMounted hu.toReadable hat.reach hat.isDir leaf)] at k3
  obtain ⟨_, s5, h5, k5⟩ := bind_eq_some k3
  obtain ⟨hn, rfl⟩ := ensure_eq_some h5
  obtain ⟨din, s6, h6, k6⟩ := bind_eq_some k5
  obtain ⟨hlt, rfl, rfl⟩ := readDinode_some hs.toMounted h6
  obtain ⟨_, s7, h7, k7⟩ := bind_eq_some k6
  obtain ⟨hfile, rfl⟩ := ensure_eq_some h7
  obtain ⟨_, s8, h8, k8⟩ := bind_eq_some k7
  obtain ⟨hw8, hrem, -⟩ := dirRemove_some hg hs.working (parent_blocks hu hat.reach hat.isDir) h8
  -- one block is buffered by the removal and one by the parent: the last write has room
  have hlen8 : s8.txn.length ≤ 1 := by
    obtain ⟨_, b, _, blk, -, -, hwrite⟩ := removeBlocks_some hs.reads h8
    rw [bdWriteBlock_some hs.active hwrite]
    have := length_txnPut_le s7.txn b blk
    rw [htxn] at this
    simpa [St.buffer, htxn] using this
  obtain ⟨_, s9, h9, k9⟩ := bind_eq_some k8
  obtain ⟨hp, -, hw9, hvol9⟩ := writeDinode_working hg hw8 h9
  have hlen9 : s9.txn.length ≤ 2 := by
    obtain ⟨s9', h9', hlen⟩ := writeDinode_room hw8.toInTxn hp
      (((s7.vol.ino p).setMtime env.now).setCtime env.now) (by rw [CFS_MAX_TXN]; omega)
    rw [h9] at h9'
    obtain rfl : s9 = s9' := congrArg Prod.snd h9'
    omega
  generalize hd : (s7.vol.ino (lookupEnt (s7.vol.out p) leaf)).setLinks
    ((s7.vol.ino (lookupEnt (s7.vol.out p) leaf)).links - 1) = d at k9
  have hdrop : ∃ s10, (dropLink (lookupEnt (s7.vol.out p) leaf) d).run s9 = (some (), s10) ∧
      s10.InTxn g ∧ Dropped g (s10.lost = false) (lookupEnt (s7.vol.out p) leaf) d s9.vol s10.vol := by
    unfold dropLink
    by_cases hl : d.links = 0
    · rw [if_pos hl]
      obtain ⟨s10, h10, hstep, hfreed⟩ := free_freed hg hw9.toInTxn (lookupEnt (s7.vol.out p) leaf) d
      exact ⟨s10, h10, hstep.inTxn hw9.toInTxn, .last hl hfreed⟩
    · rw [if_neg hl]
      obtain ⟨s10, h10, -⟩ := writeDinode_room hw9.toInTxn hlt d (by rw [CFS_MAX_TXN]; omega)
      obtain ⟨-, hstep, -, hvol⟩ := writeDinode_working hg hw9 h10
      refine ⟨s10, ?_, hstep.inTxn hw9.toInTxn, ?_⟩
      · rw [bind_of_some (attempt_run _ s9), h10, pure_run]
      · rw [hvol]
        exact .more hl
  obtain ⟨s10, h10, hin10, hdropped⟩ := hdrop
  obtain ⟨s11, h11, hstep11, hsync⟩ := syncSuper_synced hg hin10
  rw [bind_of_some h10, bind_of_some h11, pure_run] at k9
  obtain rfl : s11 = s' := congrArg Prod.snd k9
  rw [hvol9, ← hd] at hdropped
  exact .unlink hat hmay rfl hn hfile hrem (hdropped.mono hstep11.not_lost) hsync

end Bodies

section Calls

variable (hg : g.Wf) (hs : s.Idle g) (hu : Usable g s.vol) {env : Env} {c : Call}

include hg hs

theorem commitState_effect (hu : Usable g s.vol) (h : commitState env c s = some s') :
    Effect g env (s'.lost = false) s.vol c s'.vol := by
  obtain ⟨rc, -, -, hb⟩ := exec_commits h
  have hf := hs.begun_fresh
  rw [← hs.begun_vol] at hu ⊢
  cases c with
  | writeFile path data => exact doWriteFile_effect hg hf hu hb
  | mkdir path => exact doMkdir_effect hg hf hu hb
  | rmdir path => exact doRmdir_effect hg hf hu hb
  | unlink path => exact doUnlink_effect hg hf hu rfl hb
  | link oldpath newpath => exact doLink_effect hg hf hu hb
  | chmod path perm => exact doChmod_effect hg hf hu hb
  | chown path uid gid => exact doChown_effect hg hf hu hb

omit hg hs in
theorem not_inJournal (hg : g.Wf) {b : ℕ} (hb : b = 0 ∨ g.blockBitmapStart ≤ b) : ¬ g.InJournal b := by
  rintro ⟨h1, h2⟩
  by_cases hj : g.journalBlocks = 0
  · omega
  · have h3 := hg.journalAt hj
    have h4 := hg.journal h3
    omega

/-- What a successful call leaves: the volume as it was when the commit began. -/
theorem exec_commit {rc : ℤ} (hok : ((c.exec env).run s).1 = some rc) :
    ∃ s1, commitState env c s = some s1 ∧ ((c.exec env).run s).2.Idle g ∧
      ((c.exec env).run s).2.vol = s1.vol ∧ (s.WritesOk → ((c.exec env).run s).2.WritesOk) := by
  cases hcom : commitState env c s with
  | none =>
    rw [exec_aborts hcom] at hok
    cases hok
  | some s1 =>
    obtain ⟨rc', hrun, -, hb⟩ := exec_commits hcom
    have hord := Call.body_ordered env c
    have hin := hord.inTxn_of_run hs.begun_fresh.toInTxn hb
    have hnodup : (s1.txn.map Prod.fst).Nodup := by
      have := hord.nodup s.begun List.nodup_nil
      rwa [hb] at this
    have hwrites : s.WritesOk → s1.WritesOk := by
      intro hw
      have := (hord.device s.begun).2 hw
      rwa [hb] at this
    have hmount := txnCommit_sameMount s1
    rcases hc : txnCommit.run s1 with ⟨_ | u, s2⟩
    · rw [hrun, bind_of_none hc] at hok
      cases hok
    · have hafter : ((c.exec env).run s).2 = s2 := by rw [hrun, bind_of_some hc, pure_run]
      rw [hc] at hmount
      have hview : ∀ b, ¬ g.InJournal b → s2.view b = s1.view b := by
        intro b hb
        have := (txnCommit_view hin.active hnodup (b := b) (by rw [hin.geom]; exact hb)).2
        rw [hc] at this
        exact this rfl
      have hidle : s2.txnActive = false := by
        rcases txnCommit_cases hin.active with ⟨-, -, h⟩ | ⟨-, h, -⟩
        · rwa [hc] at h
        · rw [hc] at h
          cases h
      refine ⟨s1, rfl, ?_, ?_, ?_⟩
      · rw [hafter]
        exact ⟨⟨by rw [hmount.fs, hin.geom], hmount.reads.trans hin.reads⟩, hidle⟩
      · rw [hafter, St.vol, St.vol, hmount.fs]
        have hwf : s1.fs.Wf := wf_fs hg hin
        refine image_congr hwf (hview 0 (not_inJournal hg (Or.inl rfl))) fun b hb _ => ?_
        refine hview b (not_inJournal hg (Or.inr ?_))
        rwa [← hin.geom]
      · intro hw
        rw [hafter]
        exact hmount.writes (hwrites hw)

end Calls

end ComputerOS.Cfs
