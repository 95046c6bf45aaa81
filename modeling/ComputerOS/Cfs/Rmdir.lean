import ComputerOS.Cfs.Links
import ComputerOS.Cfs.FsckLive
/-!
Removing a directory. `do_rmdir` looks its leaf name up like any other, so a path that ends in a dot
names the parent directory itself. Such a call passes the emptiness test when that directory is
empty, and takes away blocks and inode of a directory that its own parent still names; every other
call is clean.
-/
namespace ComputerOS.Cfs

open M Bytes Function

variable {g : Geom} {v u w : Vol} {s : St} {env : Env} {path : List UInt8} {leaf name : Name} {n m p : ℕ}

/-- What `rmdir` of directory `n` may do: `n` was empty and is named no more but by its own dot,
only its blocks and its inode are given back, and it is not the root. -/
structure Unmade (v w : Vol) (n : ℕ) : Prop where
  isDir : (v.ino n).isDir = true
  empty : ∀ e ∈ v.out n, IsDotName e.1
  notRoot : n ≠ CFS_ROOT_INO
  unnamed : ∀ m name, w.Reach m → (name, n) ∈ w.out m → m = n ∧ name = [46]
  blocks : ∀ b, v.bbit b = true → w.bbit b = false → b ∈ (v.ino n).blocks
  inodes : ∀ m, m ≠ n → w.ibit m = v.ibit m

/-- Either `-1` and nothing has changed, or a directory is gone as it should. -/
def RmdirSafe (env : Env) (path : List UInt8) (s : St) : Prop :=
  (((cfsRmdir env path).run s).1 = none → ((cfsRmdir env path).run s).2.disk = s.disk ∧
    ((cfsRmdir env path).run s).2.fs.freeBlocks = s.fs.freeBlocks ∧
    ((cfsRmdir env path).run s).2.fs.freeInodes = s.fs.freeInodes) ∧
  ∀ rc, ((cfsRmdir env path).run s).1 = some rc →
    Unmade s.vol ((cfsRmdir env path).run s).2.vol (s.vol.target path)

/-- The path ends in a dot name, by which a directory open to the caller names an empty one. -/
structure EndsInDot (env : Env) (v : Vol) (path : List UInt8) : Prop where
  dot : IsDotName (leafOf path)
  located : Located v path (v.resolve (parentOf path)) (leafOf path)
  may : mayAccess env (v.ino (v.resolve (parentOf path))) (CFS_W + CFS_X) = true
  empty : ∀ e ∈ v.out (v.target path), IsDotName e.1

theorem isDir_of_out {e : Ent} (he : e ∈ v.out n) : (v.ino n).isDir = true := by
  by_contra hdir
  rw [Vol.out_of_not_dir (Bool.eq_false_of_not_eq_true hdir)] at he
  cases he

theorem WellFormed.dots (hv : WellFormed g v) (hm : v.Reach m) (he : (name, n) ∈ v.out m) (hdot : IsDotName name) :
    (name = [46] ∧ n = m) ∨ (name = [46, 46] ∧ (m = CFS_ROOT_INO → n = CFS_ROOT_INO) ∧
      (m ≠ CFS_ROOT_INO → ∃ name', ¬ IsDotName name' ∧ (name', m) ∈ v.out n)) := by
  have hdir := isDir_of_out he
  have hone : ∀ {k}, (name, k) ∈ v.out m → n = k := fun {k} hk =>
    (lookupEnt_eq (hv.names m hm) he).symm.trans (lookupEnt_eq (hv.names m hm) hk)
  rcases hdot with rfl | rfl
  · exact Or.inl ⟨rfl, hone (hv.dotted.self m hm hdir)⟩
  · obtain ⟨q, hq, hroot, hother⟩ := hv.dotted.parent m hm hdir
    obtain rfl := hone hq
    exact Or.inr ⟨rfl, hroot, hother⟩

/-- An empty directory that a dot name names is the directory that holds the entry. -/
theorem WellFormed.dot_loop (hv : WellFormed g v) (hm : v.Reach m) (he : (name, n) ∈ v.out m) (hdot : IsDotName name)
    (hempty : ∀ e ∈ v.out n, IsDotName e.1) : n = m ∧ (name = [46] ∨ n = CFS_ROOT_INO) := by
  rcases hv.dots hm he hdot with ⟨rfl, rfl⟩ | ⟨-, hroot, hother⟩
  · exact ⟨rfl, Or.inl rfl⟩
  · by_cases h1 : m = CFS_ROOT_INO
    · exact ⟨(hroot h1).trans h1.symm, Or.inr (hroot h1)⟩
    · obtain ⟨name', hname', hmem⟩ := hother h1
      exact absurd (hempty _ hmem) hname'

/-- What a call that reaches its commit has checked and done, over the volume `u` without the entry;
`k` stands for no buffered write having been refused. -/
structure Rmdired (g : Geom) (env : Env) (k : Prop) (v u w : Vol) (path : List UInt8) : Prop where
  located : Located v path (v.resolve (parentOf path)) (leafOf path)
  may : mayAccess env (v.ino (v.resolve (parentOf path))) (CFS_W + CFS_X) = true
  named : (leafOf path, v.target path) ∈ v.out (v.resolve (parentOf path))
  isDir : (v.ino (v.target path)).isDir = true
  empty : ∀ e ∈ v.out (v.target path), IsDotName e.1
  shed : Shed (leafOf path) (v.target path) (v.resolve (parentOf path)) v u
  out : w.out = u.out
  blocks : ∀ b, v.bbit b = true → w.bbit b = false → b ∈ (v.ino (v.target path)).blocks
  inodes : ∀ m, m ≠ v.target path → w.ibit m = v.ibit m
  freed : k → 2 ≤ v.target path → v.target path < g.totalInodes → w.ibit (v.target path) = false

theorem Effect.rmdired {k : Prop} (hg : g.Wf) (hv : Tree g v) (h : Effect g env k v (.rmdir path) w) :
    ∃ u, Rmdired g env k v u w path := by
  cases h with
  | @rmdir _ p n leaf v₁ v₂ _ hat hmay hlook hn hdir hempty hrem hfreed hsync =>
    obtain rfl := hat.parent_eq
    obtain rfl := hat.leaf_eq
    have htarget : v.target path = n := hlook
    have hmem : (leafOf path, n) ∈ v.out (v.resolve (parentOf path)) := by
      rw [← hlook] at hn ⊢
      exact lookupEnt_mem hn
    obtain ⟨F, hF, -, hino, hdata, hbbit, hibit⟩ := hfreed.bits
    have hlinks : DInode.Alike (v.ino (v.resolve (parentOf path))) ((v.ino (v.resolve (parentOf path))).setLinks
        ((v.ino (v.resolve (parentOf path))).links - 1)) := DInode.Alike.setLE _ _ (by omega)
    have hshed := hrem.shed hg (hv.good _ hat.reach) hat.isDir
      (hlinks.trans ((DInode.Alike.restamp _ env.now).trans (DInode.Alike.stamp g.flags _))) hlook
    refine ⟨_, hat, hmay, htarget ▸ hmem, htarget ▸ hdir, htarget ▸ hempty, htarget ▸ hshed, ?_, ?_,
      ?_, fun hk h2 hlt => ?_⟩
    · funext m
      unfold Vol.out Vol.ents
      rw [hsync.ino, hsync.data, hino, hdata]
    · intro b hb hclear
      rw [hsync.bbit, hbbit, hshed.bbit, hb, Bool.and_true, decide_eq_false_iff_not, not_not] at hclear
      rw [htarget]
      exact hF hclear
    · intro m hm
      rw [hsync.ibit, hibit m (htarget ▸ hm), hshed.ibit]
    · rw [htarget] at h2 hlt ⊢
      rw [hsync.ibit]
      exact hfreed.ibit_self hk h2 hlt

namespace Rmdired

variable {k : Prop} (h : Rmdired g env k v u w path)

include h

/-- The name is gone from its directory. -/
theorem leaf_gone (hv : WellFormed g v) : leafOf path ∉ (w.out (v.resolve (parentOf path))).map Prod.fst := by
  obtain ⟨l₁, l₂, hold, hnew⟩ := h.shed.out
  have hnames := hv.names _ h.located.reach
  rw [hold, List.map_append, List.map_cons, List.nodup_middle, List.nodup_cons] at hnames
  rw [h.out, hnew, List.map_append]
  exact hnames.1

variable (ht : Tree g v)

include ht

theorem out_sub {e : Ent} (hm : v.Reach m) (he : e ∈ w.out m) : e ∈ v.out m := by
  rw [h.out] at he
  by_cases hmp : m = v.resolve (parentOf path)
  · subst hmp
    obtain ⟨l₁, l₂, hold, hnew⟩ := h.shed.out
    rw [hnew, List.mem_append] at he
    rw [hold, List.mem_append, List.mem_cons]
    exact he.imp_right Or.inr
  · rwa [h.shed.out_other ht h.located.reach hm hmp] at he

theorem reach_old (hm : w.Reach m) : v.Reach m :=
  DirGraph.Reach.mono (fun _ _ _ he hk => hk.of_mem (h.out_sub ht hk he)) hm

/-- Taking away an entry by which a directory names itself leaves every inode in use. -/
theorem reach_loop (hself : v.target path = v.resolve (parentOf path)) (hm : v.Reach m) : w.Reach m := by
  refine DirGraph.Reach.mono (fun k hk e he hwk => ?_) hm
  by_cases hkp : k = v.resolve (parentOf path)
  · subst hkp
    obtain ⟨l₁, l₂, hold, hnew⟩ := h.shed.out
    rw [hold, List.mem_append, List.mem_cons] at he
    rcases he with he | rfl | he
    · exact hwk.of_mem (by rw [h.out, hnew]; exact List.mem_append_left _ he)
    · exact hself ▸ hwk
    · exact hwk.of_mem (by rw [h.out, hnew]; exact List.mem_append_right _ he)
  · exact hwk.of_mem (by rwa [h.out, h.shed.out_other ht h.located.reach hk hkp])

variable (hv : WellFormed g v)

include hv

theorem unmade (hdot : ¬ IsDotName (leafOf path)) : Unmade v w (v.target path) := by
  have hroot : v.target path ≠ CFS_ROOT_INO := fun h1 =>
    hv.dotted.above _ _ h.located.reach hdot (h1 ▸ h.named)
  refine ⟨h.isDir, h.empty, hroot, fun m name hm he => ?_, h.blocks, h.inodes⟩
  have hm' := h.reach_old ht hm
  have he' := h.out_sub ht hm' he
  by_cases hname : IsDotName name
  · rcases hv.dots hm' he' hname with ⟨rfl, hself⟩ | ⟨-, hup, hdown⟩
    · exact ⟨hself.symm, rfl⟩
    · -- the dots of a directory in it: there is none
      by_cases h1 : m = CFS_ROOT_INO
      · exact absurd (hup h1) hroot
      · obtain ⟨name', hname', hmem⟩ := hdown h1
        exact absurd (h.empty _ hmem) hname'
  · obtain ⟨rfl, rfl⟩ := hv.dotted.unique _ _ _ _ _ hm' h.located.reach h.isDir hname hdot he' h.named
    exact absurd (List.mem_map_of_mem he) (h.leaf_gone hv)

/-- By a dot name the directory loses itself, while its parent still names it. -/
theorem not_unmade (hdot : IsDotName (leafOf path)) : ¬ Unmade v w (v.target path) := by
  intro hun
  obtain ⟨hself, -⟩ := hv.dot_loop h.located.reach h.named hdot h.empty
  have hreach : v.Reach (v.target path) := h.located.reach.of_mem h.named
  obtain ⟨q, hq, -, hup⟩ := hv.dotted.parent _ hreach h.isDir
  obtain ⟨name, hname, hmem⟩ := hup hun.notRoot
  have hne : q ≠ v.target path := fun hqn => hname (h.empty _ (hqn ▸ hmem))
  have hqr : v.Reach q := hreach.of_mem hq
  refine hne (hun.unnamed q name (h.reach_loop ht hself hqr) ?_).1
  rwa [h.out, h.shed.out_other ht h.located.reach hqr (hself ▸ hne)]

end Rmdired

/-- A call that passes its checks returns 0. -/
theorem doRmdir_run (hg : g.Wf) (hs : s.Fresh g) (hu : Usable g s.vol) (htxn : s.txn = [])
    (hat : Located s.vol path p leaf) (hmay : mayAccess env (s.vol.ino p) (CFS_W + CFS_X) = true)
    (hlook : lookupEnt (s.vol.out p) leaf = n) (hn : n ≠ 0) (hdir : (s.vol.ino n).isDir = true)
    (hempty : ∀ e ∈ s.vol.out n, IsDotName e.1) : ∃ s', (doRmdir env path).run s = (some 0, s') := by
  have hpd : p ≠ 0 ∧ p < g.totalInodes := ⟨hu.pos p hat.reach, hu.lt p hat.reach⟩
  have hmem : (leaf, n) ∈ s.vol.out p := by
    rw [← hlook] at hn ⊢
    exact lookupEnt_mem hn
  have hr : s.vol.Reach n := hat.reach.step hmem
  obtain ⟨r, hrun, hiff⟩ := dirIsEmpty_run hs.reads (s.vol.ino n)
  rw [entsIn_view hs.toMounted (hu.data _ hr hdir), ← Vol.out_of_isDir hdir] at hiff
  obtain ⟨s1, s2, h1, h2, hin2⟩ := removed_run hs hu htxn hat hmem
    ((((s.vol.ino p).setLinks ((s.vol.ino p).links - 1)).setMtime env.now).setCtime env.now)
  obtain ⟨s3, h3, hstep3, -⟩ := free_freed hg hin2 n (s.vol.ino n)
  obtain ⟨s4, h4, -⟩ := syncSuper_synced hg (hstep3.inTxn hin2)
  refine ⟨s4, ?_⟩
  rw [doRmdir, bind_of_some (hat.run hg hs.toMounted hu.toReadable), bind_of_some (readDinode_run hs.toMounted hpd),
    bind_of_some (ensure_pos hmay s), bind_of_some (dirLookup_vol hs.toMounted hu.toReadable hat.reach hat.isDir leaf),
    hlook, bind_of_some (ensure_pos hn s), bind_of_some (readDinode_run hs.toMounted ⟨hn, hu.lt n hr⟩),
    bind_of_some (ensure_pos hdir s), bind_of_some hrun, bind_of_some (ensure_pos (hiff.mpr hempty) s), bind_of_some h1,
    bind_of_some h2, ← bind_assoc, bind_of_some h3, bind_of_some h4, pure_run]

section Calls

variable (hg : g.Wf) (hs : s.Idle g) (hw : s.WritesOk) (hv : WellFormed g s.vol)

include hg hs hv

/-- A call that returned 0 has its effect. -/
theorem rmdir_done {rc : ℤ} (h : ((cfsRmdir env path).run s).1 = some rc) :
    ∃ k u, (g.Roomy → k) ∧ Rmdired g env k s.vol u ((cfsRmdir env path).run s).2.vol path := by
  have hok : (((Call.rmdir path).exec env).run s).1 = some rc := h
  obtain ⟨s1, hcom, -, hvol, -⟩ := exec_commit hg hs hok
  obtain ⟨u, hu⟩ := (commitState_effect hg hs hv.toConsistent.usable hcom).rmdired hg (hv.sound hg).toTree
  refine ⟨_, u, fun hroom => commitState_kept hroom hs.toMounted hcom, ?_⟩
  rw [← hvol] at hu
  exact hu

include hw

theorem endsInDot_succeeds (h : EndsInDot env s.vol path) : ((cfsRmdir env path).run s).1 ≠ none := by
  have hmem : (leafOf path, s.vol.target path) ∈ s.vol.out (s.vol.resolve (parentOf path)) := by
    refine lookupEnt_mem ?_
    rw [Ne, lookupEnt_eq_zero fun e he => out_ne_zero he, not_not]
    rcases h.dot with hdot | hdot
    · rw [hdot]
      exact List.mem_map_of_mem (hv.dotted.self _ h.located.reach h.located.isDir)
    · obtain ⟨q, hq, -⟩ := hv.dotted.parent _ h.located.reach h.located.isDir
      rw [hdot]
      exact List.mem_map_of_mem hq
  obtain ⟨hself, -⟩ := hv.dot_loop h.located.reach hmem h.dot h.empty
  have hvol := hs.begun_vol
  obtain ⟨s', hrun⟩ := @doRmdir_run g s.begun env path (leafOf path) (s.vol.target path) _ hg hs.begun_fresh
    (hvol ▸ hv.toConsistent.usable) rfl (hvol ▸ h.located) (hvol ▸ h.may) (by rw [hvol]; rfl) (out_ne_zero hmem)
    (by rw [hvol, hself]; exact h.located.isDir) (hvol ▸ h.empty)
  exact exec_ne_none (c := .rmdir path) hw (congrArg Prod.fst hrun) le_rfl

/-- The call returns, and its parent still names the directory it took away. -/
theorem endsInDot_unsafe (h : EndsInDot env s.vol path) : ¬ RmdirSafe env path s := by
  intro hsafe
  obtain ⟨rc, hrc⟩ := Option.ne_none_iff_exists'.mp (endsInDot_succeeds hg hs hw hv h)
  obtain ⟨k, u, -, hu⟩ := rmdir_done hg hs hv hrc
  exact hu.not_unmade (hv.sound hg).toTree hv h.dot (hsafe.2 rc hrc)

/-- `rmdir` either fails and leaves everything alone or removes an empty directory that nothing else
names, unless the path ends in a dot name for an empty directory. -/
theorem rmdir_safe_iff : RmdirSafe env path s ↔ ¬ EndsInDot env s.vol path := by
  constructor
  · exact fun hsafe hdot => endsInDot_unsafe hg hs hw hv hdot hsafe
  · intro hdot
    constructor
    · intro hnone
      have hcom := commitState_eq_none (c := .rmdir path) hw hnone
      obtain ⟨-, hdisk, hcounts⟩ := aborted_state hs hcom
      refine ⟨hdisk.trans ?_, hcounts⟩
      exact ((doRmdir_buffered env path).disk s.begun rfl).1
    · intro rc hrc
      obtain ⟨k, u, -, hu⟩ := rmdir_done hg hs hv hrc
      exact hu.unmade (hv.sound hg).toTree hv fun hname => hdot ⟨hname, hu.located, hu.may, hu.empty⟩

end Calls

theorem combGeom_roomy : combGeom.Roomy := by
  rw [Geom.Roomy]
  decide

section Comb

variable {v : Vol} (hvol : v = combVol combGeom 3)

include hvol

theorem comb_out (hn : 1 ≤ n ∧ n ≤ 3) : v.out n = combEnts 3 n := by
  rw [hvol, combVol_out combOk_three hn]

theorem comb_parent : v.resolve (parentOf [47, 97, 47, 46]) = 2 := by
  have h1 := comb_out hvol (n := 1) ⟨by decide, by decide⟩
  have hcomp : components (parentOf [47, 97, 47, 46]) = [[97]] := by decide
  have hlook : lookupEnt (v.out CFS_ROOT_INO) [97] = 2 := by
    rw [show v.out CFS_ROOT_INO = _ from h1]
    decide
  rw [Vol.resolve, hcomp, Vol.walk, if_neg (by decide), hlook, if_neg (by decide)]
  rfl

theorem comb_target : v.target [47, 97, 47, 46] = 2 := by
  rw [Vol.target, comb_parent hvol, comb_out hvol ⟨by decide, by decide⟩]
  decide

theorem comb_endsInDot : EndsInDot ⟨0, 0, 0⟩ v [47, 97, 47, 46] := by
  have hdir : (v.ino 2).isDir = true := by
    rw [hvol]
    exact (combVol_isDir 2).mpr ⟨by decide, by decide⟩
  have hreach : v.Reach 2 := by
    rw [hvol]
    exact (combVol_reach combOk_three).mpr ⟨by decide, by decide⟩
  have hpar := comb_parent hvol
  refine ⟨by decide, ⟨rfl, by decide, by decide, by decide, rfl, by rwa [hpar], by rwa [hpar]⟩, rfl, ?_⟩
  rw [comb_target hvol, comb_out hvol ⟨by decide, by decide⟩]
  decide

end Comb

/-- `rmdir` of `/a/.` frees the inode of the empty directory `a`, which the root still names. -/
theorem rmdir_dot_frees : WellFormed combGeom (combState combGeom 3).vol ∧ (combState combGeom 3).Idle combGeom ∧
    (combState combGeom 3).WritesOk ∧ ∃ t, t = ((cfsRmdir ⟨0, 0, 0⟩ [47, 97, 47, 46]).run (combState combGeom 3)).2 ∧
      ((cfsRmdir ⟨0, 0, 0⟩ [47, 97, 47, 46]).run (combState combGeom 3)).1 ≠ none ∧ ([97], 2) ∈ t.vol.out CFS_ROOT_INO ∧
      t.vol.ibit 2 = false ∧ ¬ RmdirSafe ⟨0, 0, 0⟩ [47, 97, 47, 46] (combState combGeom 3) := by
  have hs := combState_idle combGeom 3
  have hw := combState_writesOk combGeom 3
  have hv := combState_wellFormed combOk_three
  have hvol := combState_vol combOk_three
  have hdot := comb_endsInDot hvol
  have hsucc := endsInDot_succeeds combGeom_wf hs hw hv hdot
  obtain ⟨rc, hrc⟩ := Option.ne_none_iff_exists'.mp hsucc
  obtain ⟨k, u, hroom, hu⟩ := rmdir_done combGeom_wf hs hv hrc
  refine ⟨hv, hs, hw, _, rfl, hsucc, ?_, ?_, endsInDot_unsafe combGeom_wf hs hw hv hdot⟩
  · have hne : CFS_ROOT_INO ≠ (combState combGeom 3).vol.resolve (parentOf [47, 97, 47, 46]) := by
      rw [comb_parent hvol]
      decide
    rw [hu.out, hu.shed.out_other (hv.sound combGeom_wf).toTree hu.located.reach .root hne,
      comb_out hvol ⟨by decide, by decide⟩]
    decide
  · have hfree := hu.freed (hroom combGeom_roomy)
    rw [comb_target hvol] at hfree
    exact hfree (by decide) (by decide)

theorem rmdir_name_safe : RmdirSafe ⟨0, 0, 0⟩ [47, 97] (combState combGeom 3) :=
  (rmdir_safe_iff combGeom_wf (combState_idle _ _) (combState_writesOk _ _)
  (combState_wellFormed combOk_three)).mpr
    fun h => absurd h.dot (by decide)

end ComputerOS.Cfs
