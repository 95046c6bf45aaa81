import ComputerOS.Cfs.Triple
import ComputerOS.Cfs.OpenWrite
import ComputerOS.Cfs.Flat

/-!
Which permissions decide a call. No function looks at the search permission of the
directories on the way: reading, listing and changing the mode of a path are decided by
the inode that the path names, replacing a file by that file, and only the calls that add
or remove a name ask for search permission, on the one directory that holds the name.
-/
namespace ComputerOS.Cfs

open M Bytes Function

/-- The volume is mounted and no transaction is in flight; the device may do anything. -/
structure St.Still (g : Geom) (s : St) : Prop where
  geom : s.fs.toGeom = g
  idle : s.txnActive = false

/-- The same call made by root. -/
def Env.asRoot (env : Env) : Env := { env with uid := 0 }

/-- The call returned `-1`, and the disk and the mount structure are as before. -/
structure Refused {α : Type} (s : St) (r : Option α × St) : Prop where
  fails : r.1 = none
  disk : r.2.disk = s.disk
  fs : r.2.fs = s.fs
  idle : r.2.txnActive = false

/-- Where `ok` holds, `op` serves the caller as it serves root; elsewhere it refuses. -/
structure Gated {α : Type} (ok : Prop) (op : Env → M α) (env : Env) (s : St) : Prop where
  serves : ok → (op env).run s = (op env.asRoot).run s
  refuses : ¬ ok → Refused s ((op env).run s)

theorem mayAccess_root (env : Env) (d : DInode) (want : ℕ) : mayAccess env.asRoot d want = true := by
  rw [mayAccess, Env.asRoot, if_pos rfl]

/-- Write and search permission together include search permission. -/
theorem mayAccess_search {env : Env} {d : DInode} (h : mayAccess env d (CFS_W + CFS_X) = true) :
    mayAccess env d CFS_X = true := by
  have hbits : ∀ p < 8, p &&& (CFS_W + CFS_X) = CFS_W + CFS_X → p &&& CFS_X = CFS_X := by decide
  have hlt : ∀ x : ℕ, x &&& 7 < 8 := fun x => Nat.lt_succ_of_le Nat.and_le_right
  unfold mayAccess at h ⊢
  by_cases h0 : env.uid = 0
  · rw [if_pos h0]
  · rw [if_neg h0] at h ⊢
    simp only [decide_eq_true_eq] at h ⊢
    refine hbits _ ?_ h
    split
    · exact hlt _
    · split
      · exact hlt _
      · exact hlt _

variable {g : Geom} {s : St} {env : Env}

theorem St.Still.begun_vol (hs : s.Still g) : s.begun.vol = s.vol := by
  have hview : s.begun.view = s.view := by
    funext b
    rw [view_of_inactive hs.idle]
    rfl
  unfold St.vol
  rw [hview]
  rfl

/-- Bodies that run alike make calls that run alike. -/
theorem inTxn_congr {x y : M ℤ} (h : x.run s.begun = y.run s.begun) : (inTxn x).run s = (inTxn y).run s := by
  rw [inTxn, inTxn, bind_of_some (begun_run s), bind_of_some (begun_run s),
    bind_of_some (attempt_run _ _), bind_of_some (attempt_run _ _), h]

/-- A body that gives up before it changes anything makes a call that is refused. -/
theorem inTxn_refused {x : M ℤ} {s1 : St} (hx : x.run s.begun = (none, s1)) (ha : Asked s.begun s1) :
    Refused s ((inTxn x).run s) := by
  rw [inTxn, bind_of_some (begun_run s), bind_of_some (attempt_run _ _), hx]
  obtain ⟨r, rfl⟩ := ha
  exact ⟨rfl, rfl, rfl, rfl⟩

theorem inTxn_refused_of_asks {x : M ℤ} (h : Holds (Asked s.begun) x fun _ => False) :
    Refused s ((inTxn x).run s) := by
  rcases hx : x.run s.begun with ⟨_ | rc, s1⟩
  · exact inTxn_refused hx ((h _ (.refl _)).2 s1 hx)
  · exact ((h _ (.refl _)).1 rc s1 hx).2.elim

theorem refused_of_asks {α : Type} {x : M α} (hs : s.Still g) (h : Holds (Asked s) x fun _ => False) :
    Refused s (x.run s) := by
  rcases hx : x.run s with ⟨_ | a, s1⟩
  · obtain ⟨r, rfl⟩ := (h s (.refl s)).2 s1 hx
    exact ⟨rfl, rfl, rfl, hs.idle⟩
  · exact ((h s (.refl s)).1 a s1 hx).2.elim

theorem bind_run_congr {α β : Type} {x y : M α} {f : α → M β} (h : x.run s = y.run s) :
    (x >>= f).run s = (y >>= f).run s := by
  rw [bind_run, bind_run, h]

/-- Programs that differ only in what they do with a value that is found run alike when
they do the same with the only value that can be found. -/
theorem run_congr {α β : Type} {x : M α} {a : α} {f f' : α → M β} {P : α → Prop}
    (hx : Holds (Asked s) x P) (ha : ∀ b, P b → b = a) (hf : f a = f' a) :
    (x >>= f).run s = (x >>= f').run s := by
  rcases h : x.run s with ⟨_ | b, s1⟩
  · rw [bind_of_none h, bind_of_none h]
  · obtain rfl := ha b ((hx s (.refl s)).1 b s1 h).2
    rw [bind_of_some h, bind_of_some h, hf]

def named (path : List UInt8) : M (ℕ × DInode) := do
  let ino ← resolveIno path
  ensure (ino ≠ 0)
  let d ← readDinode ino
  pure (ino, d)

theorem named_asks (hgeom : s.fs.toGeom = g) (hroot : g.rootIno = CFS_ROOT_INO) (hv : Readable g s.vol)
    (path : List UInt8) : Holds (Asked s) (named path) fun r =>
      r = (s.vol.resolve path, s.vol.ino (s.vol.resolve path)) := by
  refine .bind (resolveIno_asks hgeom hv hroot path) fun n hn => .bind (.ensure _) fun _ hne => ?_
  obtain rfl := hn.resolve_left hne
  refine .bind (readDinode_asks hgeom _) fun d hd => .pure ?_
  rw [hd.1]

theorem cfsReadAt_eq (env : Env) (path : List UInt8) (offset len : ℕ) :
    cfsReadAt env path offset len = named path >>= fun r => readInode env r.2 offset len := by
  simp only [cfsReadAt, named, bind_assoc, pure_bind]

theorem cfsList_eq (env : Env) (path : List UInt8) (max : ℕ) :
    cfsList env path max = named path >>= fun r => (do
      ensure (r.2.isDir = true)
      ensure (mayAccess env r.2 CFS_R = true)
      listBlocks r.2 max (List.range (r.2.size / 4096)) 0 : M (List Listed)) := by
  simp only [cfsList, named, bind_assoc, pure_bind]

theorem doChmod_eq (env : Env) (path : List UInt8) (perm : ℕ) :
    doChmod env path perm = named path >>= fun r => (do
      ensure (env.uid = 0 ∨ env.uid = r.2.uid)
      writeDinode r.1
        ((r.2.setMode ((r.2.mode &&& CFS_S_IFMT) ||| (perm &&& 0o7777))).setCtime env.now)
      pure 0 : M ℤ) := by
  simp only [doChmod, named, bind_assoc, pure_bind]

section Gates

variable (hg : g.Wf) (hs : s.Still g) (hv : Readable g s.vol)

include hg hs hv

theorem cfsReadAt_gated (path : List UInt8) (offset len : ℕ) :
    Gated ((s.vol.ino (s.vol.resolve path)).isLnk = true ∨
        mayAccess env (s.vol.ino (s.vol.resolve path)) CFS_R = true)
      (fun e => cfsReadAt e path offset len) env s := by
  have hnamed := named_asks hs.geom hg.rootIno hv path
  constructor
  · intro hok
    rw [cfsReadAt_eq, cfsReadAt_eq]
    refine run_congr hnamed (fun _ h => h) ?_
    unfold readInode
    rcases hok with hlnk | hmay
    · rw [if_pos hlnk, if_pos hlnk]
    · rw [hmay, mayAccess_root]
  · intro hok
    rw [not_or] at hok
    refine refused_of_asks hs ?_
    rw [cfsReadAt_eq]
    refine .bind hnamed fun r hr => ?_
    obtain rfl := hr
    rw [readInode, if_neg hok.1]
    exact .bind (.ensure _) fun _ _ => .bind (.ensure _) fun _ h => absurd h hok.2

theorem cfsList_gated (path : List UInt8) (max : ℕ) :
    Gated (mayAccess env (s.vol.ino (s.vol.resolve path)) CFS_R = true)
      (fun e => cfsList e path max) env s := by
  have hnamed := named_asks hs.geom hg.rootIno hv path
  constructor
  · intro hok
    rw [cfsList_eq, cfsList_eq]
    refine run_congr hnamed (fun _ h => h) ?_
    dsimp only
    rw [hok, mayAccess_root]
  · intro hok
    refine refused_of_asks hs ?_
    rw [cfsList_eq]
    refine .bind hnamed fun r hr => ?_
    obtain rfl := hr
    exact .bind (.ensure _) fun _ _ => .bind (.ensure _) fun _ h => absurd h hok

theorem cfsChmod_gated (path : List UInt8) (perm : ℕ) :
    Gated (env.uid = 0 ∨ env.uid = (s.vol.ino (s.vol.resolve path)).uid)
      (fun e => cfsChmod e path perm) env s := by
  have hv' : Readable g s.begun.vol := by rwa [hs.begun_vol]
  have hnamed := named_asks (s := s.begun) hs.geom hg.rootIno hv' path
  rw [hs.begun_vol] at hnamed
  constructor
  · intro hok
    refine inTxn_congr ?_
    rw [doChmod_eq, doChmod_eq]
    refine run_congr hnamed (fun _ h => h) ?_
    have hroot : env.asRoot.uid = 0 ∨ env.asRoot.uid = (s.vol.ino (s.vol.resolve path)).uid := Or.inl rfl
    dsimp only
    rw [ensure, ensure, if_pos hok, if_pos hroot]
    rfl
  · intro hok
    refine inTxn_refused_of_asks ?_
    rw [doChmod_eq]
    refine .bind hnamed fun r hr => ?_
    obtain rfl := hr
    exact .bind (.ensure _) fun _ h => absurd h hok

theorem cfsWriteFile_gated (hr : s.ReadsOk) (path data : List UInt8) (ht : s.vol.target path ≠ 0) :
    Gated (mayAccess env (s.vol.ino (s.vol.target path)) CFS_W = true)
      (fun e => cfsWriteFile e path data) env s := by
  have hv' : Readable g s.begun.vol := by rwa [hs.begun_vol]
  have hf : s.begun.Fresh g := ⟨⟨⟨hs.geom, hr⟩, rfl⟩, fun _ _ => rfl⟩
  rw [← hs.begun_vol] at ht ⊢
  generalize hs0 : s.begun = s0 at hv' hf ht ⊢
  have hpar := resolveParent_asks hf.geom hv' hg.rootIno path s0 (.refl s0)
  rcases h1 : (resolveParent path).run s0 with ⟨_ | ⟨p, leaf⟩, s1⟩
  · have hnone : ∀ e : Env, (doWriteFile e path data).run s.begun = (none, s1) := by
      intro e
      rw [hs0]
      exact bind_of_none h1
    refine ⟨fun _ => inTxn_congr ?_, fun _ => inTxn_refused (hnone env) (by rw [hs0]; exact hpar.2 s1 h1)⟩
    rw [hnone, hnone]
  · obtain ⟨rfl, rfl, -, -, -, rfl, hp, hd⟩ := resolveParent_some hg hf.toMounted hv' h1
    subst hs0
    have htr : s.begun.vol.Reach (s.begun.vol.target path) := .step hp (lookupEnt_mem ht)
    have hrun : ∀ e : Env, e.now = env.now → (doWriteFile e path data).run s.begun =
        (ensure (isLink data = true → data.length - 10 ≤ 4095) >>= fun _ => (do
          ensure ((s.begun.vol.ino (s.begun.vol.target path)).isDir = false)
          ensure (mayAccess e (s.begun.vol.ino (s.begun.vol.target path)) CFS_W = true)
          let din ← inodeFreeData (s.begun.vol.ino (s.begun.vol.target path))
          let din ← storeData (din.setMode (writeMode data)) data
          writeDinode (s.begun.vol.target path) (touch din (writeSize data) env.now)
          syncSuper
          pure (toInt32 data.length) : M ℤ)).run s.begun := by
      intro e he
      rw [doWriteFile, bind_of_some h1]
      dsimp only
      rw [bind_of_some (readDinode_run hf.toMounted ⟨reach_ne_zero hp, hv'.lt _ hp⟩)]
      by_cases hl : isLink data = true → data.length - 10 ≤ 4095
      · rw [bind_of_some (ensure_pos hl _), bind_of_some (ensure_pos hl _)]
        obtain ⟨-, hopen⟩ := (openForWrite_split hf hp hd hv' e (leafOf path) (writeMode data)
          (writeType data)).resolve_right fun h => ht h.1
        have htarget : lookupEnt (s.begun.vol.out (s.begun.vol.resolve (parentOf path)))
            (leafOf path) = s.begun.vol.target path := rfl
        rw [htarget] at hopen
        rw [bind_run_congr hopen]
        simp only [bind_assoc, pure_bind]
        rw [bind_of_some (readDinode_run hf.toMounted ⟨ht, hv'.lt _ htr⟩), he]
      · rw [bind_of_none (ensure_neg hl _), bind_of_none (ensure_neg hl _)]
    constructor
    · intro hok
      refine inTxn_congr ?_
      rw [hrun env rfl, hrun env.asRoot rfl, hok, mayAccess_root]
    · intro hok
      rw [cfsWriteFile, inTxn_congr (hrun env rfl)]
      refine inTxn_refused_of_asks ?_
      exact .bind (.ensure _) fun _ _ => .bind (.ensure _) fun _ _ => .bind (.ensure _) fun _ h => absurd h hok

omit hg hv in
/-- The check of every call that adds or removes a name in the parent of `path`. -/
theorem parent_denied {path : List UInt8} {p : ℕ} {leaf : Name} {f : DInode → Unit → M ℤ}
    (hx : mayAccess env (s.vol.ino (s.vol.resolve (parentOf path))) CFS_X = false)
    (hp : Located s.begun.vol path p leaf) : Holds (Asked s.begun)
      (readDinode p >>= fun pdin => ensure (mayAccess env pdin (CFS_W + CFS_X) = true) >>= f pdin)
      fun _ => False := by
  have hgeom : s.begun.fs.toGeom = g := hs.geom
  refine .bind (readDinode_asks hgeom p) fun d hd => .bind (.ensure _) fun _ hmay => ?_
  obtain ⟨rfl, -, -⟩ := hd
  obtain rfl : p = s.begun.vol.resolve (parentOf path) := hp.parent_eq
  rw [hs.begun_vol] at hmay
  rw [mayAccess_search hmay] at hx
  exact absurd hx (by simp)

/-- Without search permission on the parent, no name in it is added or removed. -/
theorem search_denied {path : List UInt8}
    (hx : mayAccess env (s.vol.ino (s.vol.resolve (parentOf path))) CFS_X = false) :
    Refused s ((cfsMkdir env path).run s) ∧ Refused s ((cfsRmdir env path).run s) ∧
    Refused s ((cfsUnlink env path).run s) ∧ (∀ oldpath, Refused s ((cfsLink env oldpath path).run s)) ∧
    ∀ data, s.vol.target path = 0 → Refused s ((cfsWriteFile env path data).run s) := by
  have hv' : Readable g s.begun.vol := by rwa [hs.begun_vol]
  have hgeom : s.begun.fs.toGeom = g := hs.geom
  have hpar := resolveParent_asks hgeom hv' hg.rootIno path
  refine ⟨?_, ?_, ?_, fun oldpath => ?_, fun data ht => ?_⟩
  · exact inTxn_refused_of_asks (.bind hpar fun r hr => parent_denied hs hx hr)
  · exact inTxn_refused_of_asks (.bind hpar fun r hr => parent_denied hs hx hr)
  · exact inTxn_refused_of_asks (.bind hpar fun r hr => parent_denied hs hx hr)
  · refine inTxn_refused_of_asks ?_
    refine .bind (resolveIno_asks hgeom hv' hg.rootIno _) fun n _ => .bind (.ensure _) fun _ _ => ?_
    refine .bind (readDinode_asks hgeom n) fun od _ => .bind (.ensure _) fun _ _ => ?_
    exact .bind hpar fun r hr => parent_denied hs hx hr
  · refine inTxn_refused_of_asks ?_
    refine .bind hpar fun r hr => ?_
    obtain ⟨p, leaf⟩ := r
    refine .bind (readDinode_asks hgeom p) fun d hd => .bind (.ensure _) fun _ _ => .bind ?_ fun _ => False.elim
    obtain ⟨rfl, -, -⟩ := hd
    obtain rfl : leaf = leafOf path := hr.leaf_eq
    obtain rfl : p = s.begun.vol.resolve (parentOf path) := hr.parent_eq
    refine .bind (dirLookup_asks hgeom hv' hr.reach hr.isDir (leafOf path)) fun n hn => ?_
    rw [hs.begun_vol] at hn ⊢
    -- the name is not there, whether or not a read failed
    obtain rfl : n = 0 := hn.elim id fun h => h.trans ht
    rw [if_neg (by simp)]
    refine .bind (.ensure _) fun _ hmay => ?_
    rw [mayAccess_search hmay] at hx
    exact absurd hx (by simp)

end Gates

/-- Which permissions decide a call: `cfs_stat` asks for none, reading and listing for
read permission on the inode named, `cfs_chmod` for its owner, replacing a file for write
permission on the file. Search permission counts only on the directory in which a name is
added or removed. -/
theorem named_inode_decides (hg : g.Wf) (hs : s.Still g) (hv : Readable g s.vol) (env : Env) :
    (∀ path, s.ReadsOk → ((cfsStat path).run s).1 = if s.vol.resolve path = 0 then none
      else some (statOf (s.vol.ino (s.vol.resolve path)))) ∧
    (∀ path offset len, Gated ((s.vol.ino (s.vol.resolve path)).isLnk = true ∨
        mayAccess env (s.vol.ino (s.vol.resolve path)) CFS_R = true)
      (fun e => cfsReadAt e path offset len) env s) ∧
    (∀ path max, Gated (mayAccess env (s.vol.ino (s.vol.resolve path)) CFS_R = true)
      (fun e => cfsList e path max) env s) ∧
    (∀ path perm, Gated (env.uid = 0 ∨ env.uid = (s.vol.ino (s.vol.resolve path)).uid)
      (fun e => cfsChmod e path perm) env s) ∧
    (∀ path data, s.ReadsOk → s.vol.target path ≠ 0 →
      Gated (mayAccess env (s.vol.ino (s.vol.target path)) CFS_W = true)
        (fun e => cfsWriteFile e path data) env s) ∧
    ∀ path, mayAccess env (s.vol.ino (s.vol.resolve (parentOf path))) CFS_X = false →
      Refused s ((cfsMkdir env path).run s) ∧ Refused s ((cfsRmdir env path).run s) ∧
      Refused s ((cfsUnlink env path).run s) ∧
      (∀ oldpath, Refused s ((cfsLink env oldpath path).run s)) ∧
      ∀ data, s.vol.target path = 0 → Refused s ((cfsWriteFile env path data).run s) := by
  refine ⟨fun path hr => ?_, fun path offset len => cfsReadAt_gated hg hs hv path offset len,
    fun path max => cfsList_gated hg hs hv path max, fun path perm => cfsChmod_gated hg hs hv path perm,
    fun path data hr ht => cfsWriteFile_gated hg hs hv hr path data ht,
    fun path hx => search_denied hg hs hv hx⟩
  rw [cfsStat_run hg ⟨⟨hs.geom, hr⟩, hs.idle⟩ hv]

/-- A directory above what `path` names denies the caller search permission. -/
def SearchDenied (env : Env) (v : Vol) (path : List UInt8) : Prop :=
  ∃ above below, components path = above ++ below ∧ below ≠ [] ∧
    (v.ino (v.walk CFS_ROOT_INO above)).isDir = true ∧
    mayAccess env (v.ino (v.walk CFS_ROOT_INO above)) CFS_X = false

/-- Every call on `path` returns `-1` and changes nothing. -/
structure AllRefused (env : Env) (s : St) (path : List UInt8) : Prop where
  readAt : ∀ offset len, Refused s ((cfsReadAt env path offset len).run s)
  list : ∀ max, Refused s ((cfsList env path max).run s)
  stat : Refused s ((cfsStat path).run s)
  writeFile : ∀ data, Refused s ((cfsWriteFile env path data).run s)
  mkdir : Refused s ((cfsMkdir env path).run s)
  rmdir : Refused s ((cfsRmdir env path).run s)
  unlink : Refused s ((cfsUnlink env path).run s)
  link : ∀ newpath, Refused s ((cfsLink env path newpath).run s)
  chmod : ∀ perm, Refused s ((cfsChmod env path perm).run s)

/-- The volume with the file `/f`, whose root directory only its owner may search. -/
def closedVol : Vol :=
  let v := flatVol [[102]] 1 fun _ => zero
  v.setIno 1 (stamp 1 ((v.ino 1).chmodded 0o700 0))

theorem closed_ok : FlatOk [[102]] 1 :=
  ⟨by simp, by simp, by decide, by decide, by decide, by decide, by decide⟩

theorem closedVol_retagged : Retagged (flatVol [[102]] 1 fun _ => zero) closedVol :=
  Retagged.setIno ((DInode.Alike.chmodded _ _ _).trans (DInode.Alike.stamp _ _))

theorem closedVol_extents {n : ℕ} (hn : (flatVol [[102]] 1 fun _ => zero).Reach n) :
    ((flatVol [[102]] 1 fun _ => zero).ino n).nextents ≤ 12 :=
  ((@flatVol_wellFormed _ _ (fun _ => zero) closed_ok).shaped n hn).extents

theorem closedVol_eq : closedVol = (flatVol [[102]] 1 fun _ => zero).setPerm smallGeom 1 0o700 0 := rfl

theorem closedVol_root : (closedVol.ino 1).mode = CFS_S_IFDIR + 0o700 ∧ (closedVol.ino 1).uid = 0 ∧
    (closedVol.ino 1).gid = 0 := by
  rw [closedVol_eq]
  refine ⟨?_, ?_, ?_⟩
  · rw [Vol.setPerm_mode, flatVol_root, DInode.mode, getLE_stamp _ _ (by omega)]
    rw [show (newDirInode _ _).getLE 0 2 = _ from newDirInode_mode _ _]
    decide
  · rw [DInode.uid, Vol.getLE_setPerm _ _ _ _ _ _ (by omega), flatVol_root, getLE_stamp _ _ (by omega)]
    exact newDirInode_uid _ _
  · rw [DInode.gid, Vol.getLE_setPerm _ _ _ _ _ _ (by omega), flatVol_root, getLE_stamp _ _ (by omega)]
    exact newDirInode_gid _ _

theorem closedVol_consistent : Consistent smallGeom closedVol := by
  have hflat := @flatVol_wellFormed _ _ (fun _ => zero) closed_ok
  exact (hflat.setPerm (by decide) 1 0o700 0).toConsistent

/-- The state with that volume mounted. -/
def closedRoot : St := closedVol.mounted smallGeom

theorem closedRoot_vol : closedRoot.vol = closedVol := by
  have h : (flatVol [[102]] 1 fun _ => zero).Within smallGeom := flatVol_within (by omega)
  exact Vol.mounted_vol smallGeom_wf (h.setIno (show 1 < 64 by omega) _)

theorem closedRoot_resolve : closedRoot.vol.resolve [47, 102] = 2 := by
  rw [closedRoot_vol, closedVol_retagged.resolve_eq fun _ => closedVol_extents]
  have hcomp : components [47, 102] = [[102]] := by decide
  have hroot : (flatVol [[102]] 1 fun _ => zero).out CFS_ROOT_INO = flatEnts [[102]] :=
    flatVol_out_root closed_ok
  rw [Vol.resolve, hcomp, Vol.walk, hroot]
  simp only [Vol.walk]
  decide

theorem closedRoot_consistent : Consistent smallGeom closedRoot.vol := by
  rw [closedRoot_vol]
  exact closedVol_consistent

theorem closedRoot_walk : closedRoot.vol.walk CFS_ROOT_INO [] = 1 := by rw [Vol.walk, CFS_ROOT_INO]

theorem closedRoot_denies : mayAccess ⟨1000, 1000, 0⟩ (closedRoot.vol.ino 1) CFS_X = false := by
  obtain ⟨hmode, huid, hgid⟩ := closedVol_root
  rw [closedRoot_vol, mayAccess, hmode, huid, hgid]
  decide

theorem closedRoot_decides : Refused closedRoot ((cfsMkdir ⟨1000, 1000, 0⟩ [47, 100]).run closedRoot) := by
  have hroot : closedRoot.vol.resolve (parentOf [47, 100]) = 1 := by
    have hcomp : components (parentOf [47, 100]) = [] := by decide
    rw [Vol.resolve, hcomp, closedRoot_walk]
  have hx : mayAccess ⟨1000, 1000, 0⟩ (closedRoot.vol.ino (closedRoot.vol.resolve (parentOf [47, 100])))
      CFS_X = false := by
    rw [hroot]
    exact closedRoot_denies
  exact ((named_inode_decides smallGeom_wf ⟨rfl, rfl⟩ closedRoot_consistent.readable
    ⟨1000, 1000, 0⟩).2.2.2.2.2 [47, 100] hx).1

/-- A caller who may not search the root directory still gets an answer for `/f`. -/
theorem closedRoot_not_refused : Consistent smallGeom closedRoot.vol ∧ closedRoot.Idle smallGeom ∧
    SearchDenied ⟨1000, 1000, 0⟩ closedRoot.vol [47, 102] ∧
    ¬ AllRefused ⟨1000, 1000, 0⟩ closedRoot [47, 102] := by
  have hidle : closedRoot.Idle smallGeom := Vol.mounted_idle _ _
  refine ⟨closedRoot_consistent, hidle, ⟨[], [[102]], by decide, by simp, ?_, ?_⟩, fun h => ?_⟩
  · rw [closedRoot_walk, closedRoot_vol, DInode.isDir, closedVol_root.1]
    decide
  · rw [closedRoot_walk]
    exact closedRoot_denies
  · have hstat := h.stat.fails
    rw [cfsStat_run smallGeom_wf hidle closedRoot_consistent.readable, closedRoot_resolve] at hstat
    simp at hstat

end ComputerOS.Cfs
