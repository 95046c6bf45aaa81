import ComputerOS.Cfs.Sound
import ComputerOS.Cfs.DirMap
import Mathlib.Algebra.BigOperators.Group.Finset.Piecewise

/-!
One entry more or less in one directory. `Gained` and `Shed` say what `dir_add` and
`dir_remove` make of a volume once the directory's inode is written back; everything
outside the directory and the block it may take stays as it is.
-/
namespace ComputerOS.Cfs

open Bytes Function

/-- Directory `p` of `w` is that of `v` with the entry `leaf` for `n`; `F` is the block it
took, if any. -/
structure Gained (g : Geom) (leaf : Name) (n p : ℕ) (F : List ℕ) (v w : Vol) : Prop where
  isDir : (w.ino p).isDir = true
  out : ∃ l₁ l₂, v.out p = l₁ ++ l₂ ∧ w.out p = l₁ ++ (leaf, n) :: l₂
  blocks : (w.ino p).blocks = (v.ino p).blocks ++ F
  fresh : ∀ b ∈ F, g.IsData b ∧ v.bbit b = false
  short : F = [] ∨ ∃ b, F = [b]
  tiled : ∀ b ∈ (w.ino p).blocks, Tiled (w.data b)
  shaped : Shaped (w.ino p)
  ino : ∀ m, m ≠ p → w.ino m = v.ino m
  data : ∀ b, b ∉ (w.ino p).blocks → w.data b = v.data b
  bbit : ∀ b, w.bbit b = (v.bbit b || decide (b ∈ F))
  ibit : w.ibit = v.ibit

structure Shed (leaf : Name) (n p : ℕ) (v w : Vol) : Prop where
  like : DInode.Alike (v.ino p) (w.ino p)
  out : ∃ l₁ l₂, v.out p = l₁ ++ (leaf, n) :: l₂ ∧ w.out p = l₁ ++ l₂
  tiled : ∀ b ∈ (w.ino p).blocks, Tiled (w.data b)
  ino : ∀ m, m ≠ p → w.ino m = v.ino m
  data : ∀ b, b ∉ (w.ino p).blocks → w.data b = v.data b
  bbit : w.bbit = v.bbit
  ibit : w.ibit = v.ibit

variable {g : Geom} {v v₁ w : Vol} {n p type : ℕ} {leaf : Name} {pd d : DInode}

theorem isDir_not_isLnk {d : DInode} (h : d.isDir = true) : d.isLnk = false := by
  have hmode : d.mode &&& CFS_S_IFMT = CFS_S_IFDIR := by simpa [DInode.isDir] using h
  rw [DInode.isLnk, hmode]
  decide

/-- A directory that takes one block more keeps its shape. -/
theorem Shaped.grow {d d' : DInode} {b : ℕ} (hd : Shaped d) (hdir : d.isDir = true) (hb : b ≠ 0)
    (hb' : b < 2 ^ 64) (hlen : d.blocks.length + 1 < 2 ^ 32) (hpush : inodePushExtent d b 1 = some d') :
    Shaped (d'.setSize (d'.size + 4096)) ∧ (d'.setSize (d'.size + 4096)).isDir = true ∧
      (d'.setSize (d'.size + 4096)).blocks = d.blocks ++ [b] := by
  have hx := hd.extents
  have hblocks : (d'.setSize (d'.size + 4096)).blocks = d.blocks ++ [b] := by
    rw [setSize_blocks, inodePushExtent_blocks hx hb hb' hlen hpush]
  have hisDir : (d'.setSize (d'.size + 4096)).isDir = true := by
    rw [((DInode.SameHead.push hpush).trans (.setLE _ _ _ (by omega))).isDir]
    exact hdir
  have hsize : d'.size = d.size := inodePushExtent_getLE hx hpush (by omega)
  refine ⟨⟨?_, fun _ => ⟨?_, ?_⟩, fun hl => ?_, fun hf => ?_⟩, hisDir, hblocks⟩
  · rw [setSize_nextents]
    exact (inodePushExtent_nextents hx hpush).1
  · exact setSize_noHoles _ _ (inodePushExtent_noHoles hx hb hb' (hd.dir hdir).1 hpush)
  · rw [hblocks, hsize, (hd.dir hdir).2, List.length_append]
    rw [DInode.size, getLE_setLE_same _ _ (by omega), Nat.mod_eq_of_lt (by omega)]
    simp only [List.length_singleton]
    omega
  · rw [isDir_not_isLnk hisDir] at hl
    cases hl
  · rw [hisDir] at hf
    cases hf

/-- Adding an entry leaves mode, links and owner of the directory alone. -/
theorem Added.head (hadd : Added g leaf n type v d v₁ pd) : DInode.SameHead d pd := by
  cases hadd with
  | place => exact .refl _
  | grow _ _ hpush => exact (DInode.SameHead.push hpush).trans (.setLE _ _ _ (by omega))

section Change

variable (hg : g.Wf) (hp : Good g v p) (hdir : (v.ino p).isDir = true)

include hg hp hdir

/-- What one of its blocks and its inode, written with the blocks it has, make of a directory. -/
theorem block_rewritten {b : ℕ} {blk : Block} {l₁ l₂ : List ℕ} (hlike : DInode.Alike (v.ino p) d)
    (hblocks : (v.ino p).blocks = l₁ ++ b :: l₂) (htiled : Tiled blk) :
    ((v.setData b blk).setIno p d).out p = l₁.flatMap (fun x => dirEnts (v.data x)) ++
        (dirEnts blk ++ l₂.flatMap fun x => dirEnts (v.data x)) ∧
      (∀ x ∈ d.blocks, Tiled (((v.setData b blk).setIno p d).data x)) ∧
      (∀ m, m ≠ p → ((v.setData b blk).setIno p d).ino m = v.ino m) ∧
      ∀ x, x ∉ d.blocks → ((v.setData b blk).setIno p d).data x = v.data x := by
  have hmem : b ∈ (v.ino p).blocks := by rw [hblocks]; simp
  have hino : ((v.setData b blk).setIno p d).ino p = d := Vol.ino_setIno_same _ _ _
  have hx := hp.shaped.extents
  have hd : d.isDir = true := by rw [hlike.isDir]; exact hdir
  rw [hlike.blocks hx]
  refine ⟨?_, fun x hx => ?_, fun m hm => ?_, fun x hx => ?_⟩
  · have hout : ((v.setData b blk).setIno p d).out p =
        (l₁ ++ b :: l₂).flatMap fun x => dirEnts (update v.data b blk x) := by
      rw [Vol.out_of_isDir (by rw [hino]; exact hd), hino, Vol.ents, entsIn, hlike.dirBlocks hx,
        hp.dirBlocks hg hdir, hblocks]
      rfl
    rw [hout, flatMap_update (by rw [← hblocks]; exact hp.once)]
  · by_cases hxb : x = b
    · subst hxb
      simpa [Vol.setIno, Vol.setData] using htiled
    · simpa [Vol.setIno, Vol.setData, hxb] using hp.tiled hdir x hx
  · rw [Vol.ino_setIno_ne _ _ hm]
    rfl
  · have hxb : x ≠ b := by
      rintro rfl
      exact hx hmem
    simp [Vol.setIno, Vol.setData, hxb]

theorem Added.gained (hadd : Added g leaf n type v (v.ino p) v₁ pd) (hlike : DInode.Alike pd d)
    (hleaf : leaf.length ≤ 255) (hn : n ≠ 0) (hn' : n < 2 ^ 64)
    (hlen : (v.ino p).blocks.length + 1 < 2 ^ 32) : ∃ F, Gained g leaf n p F v (v₁.setIno p d) := by
  have hents : v.out p = (v.ino p).blocks.flatMap fun b => dirEnts (v.data b) := by
    rw [Vol.out_of_isDir hdir, Vol.ents, entsIn, hp.dirBlocks hg hdir]
  cases hadd with
  | @place l₁ l₂ b off hblocks hfind =>
    rw [hp.dirBlocks hg hdir] at hblocks
    have hmem : b ∈ (v.ino p).blocks := by rw [hblocks]; simp
    obtain ⟨htiled, m₁, m₂, hold, hnew⟩ := addAt_spec type (hp.tiled hdir b hmem) hleaf hn' hn hfind
    obtain ⟨hout, htiled', hino', hdata'⟩ := block_rewritten hg hp hdir hlike hblocks htiled
    have hino : ((v.setData b (addAt (v.data b) off n type leaf)).setIno p d).ino p = d :=
      Vol.ino_setIno_same _ _ _
    have hdblocks : d.blocks = (v.ino p).blocks := hlike.blocks hp.shaped.extents
    refine ⟨[], ?_, ⟨l₁.flatMap (fun x => dirEnts (v.data x)) ++ m₁,
      m₂ ++ l₂.flatMap fun x => dirEnts (v.data x), ?_, ?_⟩, ?_, by simp, Or.inl rfl,
      by rwa [hino], ?_, hino', by rwa [hino], ?_, rfl⟩
    · rw [hino, hlike.isDir]
      exact hdir
    · rw [hents, hblocks, List.flatMap_append, List.flatMap_cons, hold]
      simp only [List.append_assoc]
    · rw [hout, hnew]
      simp only [List.append_assoc, List.cons_append]
    · rw [hino, hdblocks, List.append_nil]
    · rw [hino]
      exact hlike.shaped hp.shaped
    · intro x
      simp [Vol.setIno, Vol.setData]
  | @grow b d' hdata hfree hpush =>
    have hb64 : b < 2 ^ 64 := by
      have := hg.sectors
      have := hdata.2
      omega
    obtain ⟨hshaped', hdir', hblocks'⟩ :=
      hp.shaped.grow hdir (isData_ne_zero hg hdata) hb64 hlen hpush
    obtain ⟨htiled, hents'⟩ := freshDirBlock_spec type hleaf hn' hn
    have hino : (((v.takeBlock b).setData b (freshDirBlock n type leaf)).setIno p d).ino p = d :=
      Vol.ino_setIno_same _ _ _
    have hx := hshaped'.extents
    have hd : d.isDir = true := by rw [hlike.isDir]; exact hdir'
    have hshaped : Shaped d := hlike.shaped hshaped'
    have hdblocks : d.blocks = (v.ino p).blocks ++ [b] := (hlike.blocks hx).trans hblocks'
    have hnotin : b ∉ (v.ino p).blocks := by
      intro hmem
      rw [hp.used b hmem] at hfree
      cases hfree
    have hne0 : ∀ x ∈ d.blocks, x ≠ 0 := by
      intro x hx
      rw [hdblocks, List.mem_append, List.mem_singleton] at hx
      rcases hx with hx | rfl
      · exact isData_ne_zero hg (hp.inRange x hx)
      · exact isData_ne_zero hg hdata
    refine ⟨[b], ?_, ?_, ?_, ?_, Or.inr ⟨b, rfl⟩, ?_, ?_, ?_, ?_, ?_, rfl⟩
    · rw [hino]
      exact hd
    · refine ⟨v.out p, [], by simp, ?_⟩
      have hout : (((v.takeBlock b).setData b (freshDirBlock n type leaf)).setIno p d).out p =
          ((v.ino p).blocks ++ b :: []).flatMap fun x =>
            dirEnts (update v.data b (freshDirBlock n type leaf) x) := by
        rw [Vol.out_of_isDir (by rw [hino]; exact hd), hino, Vol.ents, entsIn,
          dirBlocks_eq (hshaped.dir hd).1 (hshaped.dir hd).2 hne0, hdblocks]
        rfl
      rw [hout, flatMap_update (List.nodup_middle.mpr (by simpa using ⟨hnotin, hp.once⟩)), hents', hents]
      simp
    · rw [hino, hdblocks]
    · intro x hx
      obtain rfl := List.mem_singleton.mp hx
      exact ⟨hdata, hfree⟩
    · rw [hino, hdblocks]
      intro x hx
      by_cases hxb : x = b
      · subst hxb
        simpa [Vol.setIno, Vol.setData] using htiled
      · have hx' : x ∈ (v.ino p).blocks := by simpa [hxb] using hx
        simpa [Vol.setIno, Vol.setData, Vol.takeBlock, hxb] using hp.tiled hdir x hx'
    · rw [hino]
      exact hshaped
    · intro m hm
      rw [Vol.ino_setIno_ne _ _ hm]
      rfl
    · intro x hx
      rw [hino, hdblocks, List.mem_append, List.mem_singleton, not_or] at hx
      simp [Vol.setIno, Vol.setData, Vol.takeBlock, hx.2]
    · intro x
      by_cases hxb : x = b
      · simp [Vol.setIno, Vol.setData, Vol.takeBlock, hxb]
      · simp [Vol.setIno, Vol.setData, Vol.takeBlock, hxb]

theorem Removed.shed (hrem : Removed leaf v (v.ino p) v₁) (hlike : DInode.Alike (v.ino p) d)
    (hlook : lookupEnt (v.out p) leaf = n) : Shed leaf n p v (v₁.setIno p d) := by
  have hents : v.out p = (v.ino p).blocks.flatMap fun b => dirEnts (v.data b) := by
    rw [Vol.out_of_isDir hdir, Vol.ents, entsIn, hp.dirBlocks hg hdir]
  cases hrem with
  | @intro l₁ l₂ b blk hblocks hrem =>
    rw [hp.dirBlocks hg hdir] at hblocks
    have hmem : b ∈ (v.ino p).blocks := by rw [hblocks]; simp
    obtain ⟨htiled, m₁, c, m₂, hold, hnew⟩ := removeFrom_spec (hp.tiled hdir b hmem) hrem
    have hino : ((v.setData b blk).setIno p d).ino p = d := Vol.ino_setIno_same _ _ _
    obtain ⟨hout, htiled', hino', hdata'⟩ := block_rewritten hg hp hdir hlike hblocks htiled
    have hbefore : v.out p = (l₁.flatMap (fun x => dirEnts (v.data x)) ++ m₁) ++
        (leaf, c) :: (m₂ ++ l₂.flatMap fun x => dirEnts (v.data x)) := by
      rw [hents, hblocks, List.flatMap_append, List.flatMap_cons, hold]
      simp only [List.append_assoc, List.cons_append]
    obtain rfl : c = n := by
      rw [← hlook]
      exact (lookupEnt_eq hp.names (by rw [hbefore]; simp)).symm
    refine ⟨by rwa [hino], ⟨_, _, hbefore, ?_⟩, by rwa [hino], hino', by rwa [hino], rfl, rfl⟩
    rw [hout, hnew]
    simp only [List.append_assoc]

end Change

section Tree

variable {l₁ l₂ : List Ent} {m : ℕ} (hp : v.Reach p)

section Gain

variable (hold : v.out p = l₁ ++ l₂) (hnew : w.out p = l₁ ++ (leaf, n) :: l₂)
  (hother : ∀ k, v.Reach k → k ≠ p → k ≠ n → w.out k = v.out k)

include hp hold hnew hother

/-- The entry makes its inode live, and nothing else. -/
theorem reach_gain (hin : ∀ e ∈ w.out n, v.Reach e.2 ∨ e.2 = n)
    (hlive : v.Reach n → n ≠ p ∧ w.out n = v.out n) : w.Reach m ↔ v.Reach m ∨ m = n := by
  have hedge : ∀ k, v.Reach k → ∀ e, e ∈ w.out k ↔ e ∈ v.out k ∨ (k = p ∧ e = (leaf, n)) := by
    intro k hk e
    by_cases hkp : k = p
    · subst hkp
      rw [hold, hnew]
      simp only [List.mem_append, List.mem_cons, true_and]
      tauto
    · have hout : w.out k = v.out k := by
        by_cases hkn : k = n
        · subst hkn
          exact (hlive hk).2
        · exact hother k hk hkp hkn
      rw [hout]
      simp [hkp]
  refine @DirGraph.reach_insert _ _ v.out w.out CFS_ROOT_INO m n
    (fun k hk e he => (hedge k hk e).mpr (Or.inl he)) (fun k hk e he => ?_) hin
    ⟨p, hp, (leaf, n), (hedge p hp _).mpr (Or.inr ⟨rfl, rfl⟩), rfl⟩
  rcases (hedge k hk e).mp he with he | ⟨-, rfl⟩
  · exact Or.inl (hk.of_mem he)
  · exact Or.inr rfl

open Classical in
/-- The entry is one more name of its inode. -/
theorem refs_gain (hin : ∀ e ∈ w.out n, v.Reach e.2 ∨ e.2 = n) (hne : n ≠ p)
    (hlive : v.Reach n → w.out n = v.out n) (htab : ∀ k, w.Reach k → k < g.totalInodes) (c : ℕ) :
    w.refs g c = v.refs g c + (if c = n then 1 else 0) +
      if v.Reach n then 0 else (w.out n).countP fun e => e.2 = c := by
  have hreach : ∀ k, w.Reach k ↔ v.Reach k ∨ k = n := fun k =>
    reach_gain hp hold hnew hother hin fun h => ⟨hne, hlive h⟩
  let S := (Finset.range g.totalInodes).filter v.Reach
  have hS : ∀ k, k ∈ S ↔ v.Reach k := by
    intro k
    rw [Finset.mem_filter, Finset.mem_range]
    exact ⟨fun h => h.2, fun h => ⟨htab k ((hreach k).mpr (Or.inl h)), h⟩⟩
  have hcount : ∀ k ∈ S, (w.out k).countP (fun e => e.2 = c) =
      (v.out k).countP (fun e => e.2 = c) + if k = p then (if c = n then 1 else 0) else 0 := by
    intro k hk
    rw [hS] at hk
    by_cases hkp : k = p
    · subst hkp
      rw [if_pos rfl, hold, hnew, List.countP_append, List.countP_append, List.countP_cons]
      by_cases hc : c = n
      · simp [hc]
        omega
      · simp [hc, Ne.symm hc]
    · have hout : w.out k = v.out k := by
        by_cases hkn : k = n
        · subst hkn
          exact hlive hk
        · exact hother k hk hkp hkn
      rw [hout, if_neg hkp, Nat.add_zero]
  have hsum : ∑ k ∈ S, (w.out k).countP (fun e => e.2 = c) = v.refs g c + if c = n then 1 else 0 := by
    rw [Finset.sum_congr rfl hcount, Finset.sum_add_distrib, Finset.sum_ite_eq',
      if_pos ((hS p).mpr hp), refs_eq_sum hS fun k hk => htab k ((hreach k).mpr (Or.inl hk))]
  by_cases hn : v.Reach n
  · rw [if_pos hn, Nat.add_zero, ← hsum]
    refine refs_eq_sum (fun k => ?_) htab c
    rw [hS, hreach]
    exact ⟨Or.inl, fun h => h.elim id fun h => h ▸ hn⟩
  · have hnS : n ∉ S := fun h => hn ((hS n).mp h)
    have hins : ∀ k, k ∈ insert n S ↔ w.Reach k := by
      intro k
      rw [Finset.mem_insert, hS, hreach]
      exact or_comm
    rw [if_neg hn, ← hsum, add_comm, refs_eq_sum hins htab c, Finset.sum_insert hnS]

end Gain

section Loss

variable (hold : v.out p = l₁ ++ (leaf, n) :: l₂) (hnew : w.out p = l₁ ++ l₂)
  (hother : ∀ k, v.Reach k → k ≠ p → k ≠ n → w.out k = v.out k)

include hp hold hnew hother

/-- Without the entry, every other inode is as live as before: a file leads nowhere, and an
empty directory back to its parent only. -/
theorem reach_loss (hroot : n ≠ CFS_ROOT_INO) (hn : w.out n = v.out n)
    (hback : ∀ e ∈ v.out n, e.2 = n ∨ e.2 = p)
    (honly : v.out n ≠ [] → ∀ k, v.Reach k → k ≠ n → ∀ e ∈ v.out k, e.2 = n → k = p) :
    (w.Reach m → v.Reach m) ∧ (v.Reach m → m ≠ n → w.Reach m) := by
  have hless : ∀ k, v.Reach k → ∀ e ∈ w.out k, e ∈ v.out k := by
    intro k hk e he
    by_cases hkp : k = p
    · subst hkp
      rw [hnew] at he
      rw [hold]
      simp only [List.mem_append, List.mem_cons] at he ⊢
      tauto
    · by_cases hkn : k = n
      · subst hkn
        rwa [hn] at he
      · rwa [hother k hk hkp hkn] at he
  refine @DirGraph.reach_erase _ _ v.out w.out CFS_ROOT_INO m n p hroot hless (fun k hk hkn e he hen => ?_)
    hback honly
  by_cases hkp : k = p
  · subst hkp
    rw [hold] at he
    rw [hnew]
    simp only [List.mem_append, List.mem_cons] at he ⊢
    rcases he with he | rfl | he
    · exact Or.inl he
    · exact absurd rfl hen
    · exact Or.inr he
  · rwa [hother k hk hkp hkn]

open Classical in
/-- The entry was one of the names of its inode. -/
theorem refs_loss (hroot : n ≠ CFS_ROOT_INO) (hne : n ≠ p) (hn : w.out n = v.out n)
    (hback : ∀ e ∈ v.out n, e.2 = n ∨ e.2 = p)
    (honly : v.out n ≠ [] → ∀ k, v.Reach k → k ≠ n → ∀ e ∈ v.out k, e.2 = n → k = p)
    (hlive : v.Reach n) (htab : ∀ k, v.Reach k → k < g.totalInodes) (c : ℕ) :
    v.refs g c = w.refs g c + (if c = n then 1 else 0) +
      if w.Reach n then 0 else (v.out n).countP fun e => e.2 = c := by
  have hreach := fun k => @reach_loss v w n p leaf l₁ l₂ k hp hold hnew hother hroot hn hback honly
  let S := (Finset.range g.totalInodes).filter v.Reach
  have hS : ∀ k, k ∈ S ↔ v.Reach k := by
    intro k
    rw [Finset.mem_filter, Finset.mem_range]
    exact ⟨fun h => h.2, fun h => ⟨htab k h, h⟩⟩
  have hcount : ∀ k ∈ S, (v.out k).countP (fun e => e.2 = c) =
      (w.out k).countP (fun e => e.2 = c) + if k = p then (if c = n then 1 else 0) else 0 := by
    intro k hk
    rw [hS] at hk
    by_cases hkp : k = p
    · subst hkp
      rw [if_pos rfl, hold, hnew, List.countP_append, List.countP_append, List.countP_cons]
      by_cases hc : c = n
      · simp [hc]
        omega
      · simp [hc, Ne.symm hc]
    · have hout : w.out k = v.out k := by
        by_cases hkn : k = n
        · rw [hkn, hn]
        · exact hother k hk hkp hkn
      rw [hout, if_neg hkp, Nat.add_zero]
  have hsum : ∑ k ∈ S, (w.out k).countP (fun e => e.2 = c) =
      w.refs g c + if w.Reach n then 0 else (v.out n).countP fun e => e.2 = c := by
    by_cases hw : w.Reach n
    · rw [if_pos hw, Nat.add_zero]
      refine (refs_eq_sum (fun k => ?_) (fun k hk => htab k ((hreach k).1 hk)) c).symm
      rw [hS]
      refine ⟨fun hk => ?_, (hreach k).1⟩
      by_cases hkn : k = n
      · rwa [hkn]
      · exact (hreach k).2 hk hkn
    · rw [if_neg hw, ← Finset.sum_erase_add S _ ((hS n).mpr hlive), hn]
      congr 1
      refine (refs_eq_sum (fun k => ?_) (fun k hk => htab k ((hreach k).1 hk)) c).symm
      rw [Finset.mem_erase, hS]
      exact ⟨fun h => (hreach k).2 h.2 h.1, fun h => ⟨fun hkn => hw (hkn ▸ h), (hreach k).1 h⟩⟩
  rw [refs_eq_sum hS htab, Finset.sum_congr rfl hcount, Finset.sum_add_distrib, Finset.sum_ite_eq',
    if_pos ((hS p).mpr hp), hsum]
  omega

end Loss

end Tree

end ComputerOS.Cfs
