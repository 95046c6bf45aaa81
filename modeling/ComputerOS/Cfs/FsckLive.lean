import ComputerOS.Cfs.FsckRepair
import ComputerOS.Cfs.Comb

/-!
The repair and the shape of the directory tree. On a consistent volume the directories form a tree,
and a repair marks everything reachable exactly when no directory lies too high for the directories
in it: a directory that is dropped from the full stack is never read, and its blocks are given away.
-/
namespace ComputerOS.Cfs

open M Bytes Function

variable {g : Geom} {s : St} {n c root : ℕ}

section Tree

variable (hs : s.Idle g) (hv : WellFormed g s.vol)
include hs hv

theorem entriesOf_out (hn : s.vol.Reach n) (hd : (s.vol.ino n).isDir = true) : entriesOf g s.vol.ino
    s.disk n = s.vol.out n := by
  have hread := hv.toConsistent.readable
  rw [entriesOf, if_pos ⟨hread.pos n hn, hread.lt n hn⟩, Vol.out_of_isDir hd, ← hs.view_eq]
  exact entsIn_view hs.toMounted (hread.data n hn hd)

theorem mem_outs (hn : s.vol.Reach n) (hd : (s.vol.ino n).isDir = true) :
    c ∈ (entryTree g s.vol.ino s.disk).outs n ↔ ∃ name, ¬ IsDotName name ∧ (name, c) ∈ s.vol.out n := by
  change c ∈ leadsTo g (entriesOf g s.vol.ino s.disk n) ↔ _
  rw [entriesOf_out hs hv hn hd, List.mem_map]
  constructor
  · rintro ⟨e, he, rfl⟩
    obtain ⟨hmem, hleads⟩ := List.mem_filter.mp he
    exact ⟨e.1, (of_decide_eq_true hleads).1, hmem⟩
  · rintro ⟨name, hname, hmem⟩
    exact ⟨(name, c), List.mem_filter.mpr ⟨hmem, decide_eq_true ⟨hname, hv.inTable c (hn.step hmem)⟩⟩, rfl⟩

/-- What the walk reaches is reachable, and it goes on from directories only. -/
theorem reach_of_tree (h : (entryTree g s.vol.ino s.disk).Reach CFS_ROOT_INO n) : s.vol.Reach n := by
  induction h with
  | root => exact .root
  | @step m c _ hin hc ih =>
    have hd : (s.vol.ino m).isDir = true := by
      rcases hin with rfl | hin
      · exact hv.dotted.root
      · exact hin
    obtain ⟨name, -, hmem⟩ := (mem_outs hs hv ih hd).mp hc
    exact ih.step hmem

/-- The dot entries lead back to where the walk has come from. -/
theorem tree_of_reach (h : s.vol.Reach n) : (entryTree g s.vol.ino s.disk).Reach CFS_ROOT_INO n := by
  induction h with
  | root => exact .root
  | @step m c name hm hmem ih =>
    have hd : (s.vol.ino m).isDir = true := by
      by_contra hd
      rw [Vol.out_of_not_dir (Bool.eq_false_iff.mpr hd)] at hmem
      cases hmem
    have hsame : ∀ {d : Name} {x : ℕ}, (d, x) ∈ s.vol.out m → name = d → c = x := by
      rintro d x hx rfl
      exact congrArg Prod.snd (List.inj_on_of_nodup_map (hv.names m hm) hmem hx rfl)
    by_cases hdot : IsDotName name
    · rcases hdot with hdot | hdot
      · rw [hsame (hv.dotted.self m hm hd) hdot]
        exact ih
      · obtain ⟨p, hp, hroot, hparent⟩ := hv.dotted.parent m hm hd
        rw [hsame hp hdot]
        by_cases hmr : m = CFS_ROOT_INO
        · rw [hroot hmr]
          exact .root
        · obtain ⟨name₁, hname₁, hmem₁⟩ := hparent hmr
          cases ih with
          | root => exact absurd rfl hmr
          | @step q _ hq hin hmq =>
            have hqv := reach_of_tree hs hv hq
            have hqd : (s.vol.ino q).isDir = true := by
              rcases hin with rfl | hin
              · exact hv.dotted.root
              · exact hin
            obtain ⟨name₂, hname₂, hmem₂⟩ := (mem_outs hs hv hqv hqd).mp hmq
            obtain ⟨rfl, -⟩ := hv.dotted.unique p q m name₁ name₂ (hm.step hp) hqv hd hname₁ hname₂ hmem₁ hmem₂
            exact hq
    · exact ih.step (Or.inr hd) ((mem_outs hs hv hm hd).mpr ⟨name, hdot, hmem⟩)

theorem leading_isDir (h : (entryTree g s.vol.ino s.disk).Leading CFS_ROOT_INO n) :
    s.vol.Reach n ∧ (s.vol.ino n).isDir = true := by
  refine ⟨reach_of_tree hs hv h.1, ?_⟩
  rcases h.2 with rfl | hin
  · exact hv.dotted.root
  · exact hin

theorem mem_kids (h : (entryTree g s.vol.ino s.disk).Leading CFS_ROOT_INO n) :
    c ∈ (entryTree g s.vol.ino s.disk).kids n ↔
      (∃ name, ¬ IsDotName name ∧ (name, c) ∈ s.vol.out n) ∧ (s.vol.ino c).isDir = true := by
  obtain ⟨hn, hd⟩ := leading_isDir hs hv h
  rw [Branching.mem_kids, mem_outs hs hv hn hd]
  rfl

/-- The directories of a consistent volume form a tree. -/
theorem treeLike : Branching.TreeLike (entryTree g s.vol.ino s.disk) CFS_ROOT_INO := by
  refine ⟨fun n m c hn hm hcn hcm => ?_, fun n hn => ?_, fun n hn hroot => ?_⟩
  · obtain ⟨⟨name, hname, hmem⟩, hd⟩ := (mem_kids hs hv hn).mp hcn
    obtain ⟨⟨name', hname', hmem'⟩, -⟩ := (mem_kids hs hv hm).mp hcm
    exact (hv.dotted.unique n m c name name' (leading_isDir hs hv hn).1 (leading_isDir hs hv hm).1
      hd hname hname' hmem hmem').1
  · obtain ⟨hn', hd⟩ := leading_isDir hs hv hn
    have hents : (s.vol.out n).Nodup := (hv.names n hn').of_map _
    change ((leadsTo g (entriesOf g s.vol.ino s.disk n)).filter fun c => (s.vol.ino c).isDir).Nodup
    rw [entriesOf_out hs hv hn' hd, leadsTo, List.filter_map]
    refine List.Nodup.map_on (fun e he e' he' heq => ?_) ((hents.filter _).filter _)
    obtain ⟨he, hdir⟩ := List.mem_filter.mp he
    obtain ⟨hmem, hleads⟩ := List.mem_filter.mp he
    obtain ⟨hmem', hleads'⟩ := List.mem_filter.mp (List.mem_filter.mp he').1
    have hname := (hv.dotted.unique n n e.2 e.1 e'.1 hn' hn' hdir (of_decide_eq_true hleads).1
      (of_decide_eq_true hleads').1 hmem (heq ▸ hmem')).2
    exact Prod.ext hname heq
  · obtain ⟨⟨name, hname, hmem⟩, -⟩ := (mem_kids hs hv hn).mp hroot
    exact hv.dotted.above n name (leading_isDir hs hv hn).1 hname hmem

omit hs in
/-- A directory has a block of its own. -/
theorem exists_block (hn : s.vol.Reach n) (hd : (s.vol.ino n).isDir = true) : ∃ b, b ∈ (s.vol.ino n).blocks := by
  have hself := hv.dotted.self n hn hd
  rw [Vol.out_of_isDir hd] at hself
  obtain ⟨b, hb, -⟩ := List.mem_flatMap.mp hself
  exact ⟨b, mem_dirBlocks hb⟩

def LiveMarked (v v' : Vol) : Prop := ∀ n, v.Reach n → v'.ibit n = true ∧ ∀ b ∈ (v.ino n).blocks, v'.bbit b = true

/-- After a repair everything reachable is marked exactly when the walk has lost no directory. -/
theorem liveMarked_iff_lost {w : Fsck} {t : Branching.Walk ℕ} {es : List Ent} {v' : Vol} {X : Prop} {fuel : ℕ}
    (ht : (entryTree g s.vol.ino s.disk).walk CFS_FSCK_MAX_STACK fuel (Branching.start CFS_ROOT_INO) = some t)
    (htr : Tracks g s.vol.ino X t es w) (hb : ∀ b < g.totalBlocks, v'.bbit b = w.bbm b)
    (hi : ∀ n < g.totalInodes, v'.ibit n = (decide (n = 0) || w.ibm n)) : LiveMarked s.vol v' ↔ t.lost = [] := by
  obtain ⟨hwalk, -, -, -⟩ := Branching.walk_start ht
  constructor
  · intro hlive
    by_contra hlost
    obtain ⟨c, hc⟩ := List.exists_mem_of_ne_nil _ hlost
    have hmet : c ∈ t.met := List.mem_append_right _ (List.mem_append_right _ hc)
    obtain ⟨hcv, hcd⟩ := leading_isDir hs hv ⟨hwalk.reach c hmet, hwalk.inner c (List.mem_append_right _ hc)⟩
    obtain ⟨b, hbc⟩ := exists_block hv hcv hcd
    have hdata := hv.inRange c hcv b hbc
    have hmarked := (hlive c hcv).2 b hbc
    rw [hb b hdata.2, htr.bbm] at hmarked
    rcases hmarked with hlow | ⟨n, hn, -, -, hbn⟩
    · exact absurd hlow (Nat.not_lt.mpr hdata.1)
    · -- the block belongs to the lost directory only, which has not been dealt with
      have hnv := reach_of_tree hs hv (hwalk.reach n (List.mem_append_right _ (List.mem_append_left _ hn)))
      have hnc : n ≠ c := by
        rintro rfl
        have hnd := hwalk.nodup
        rw [Branching.Walk.met] at hnd
        exact List.disjoint_of_nodup_append (List.nodup_append.mp hnd).2.1 hn hc
      exact hv.apart n c hnv hcv hnc b hbn hbc
  · intro hlost n hn
    have hread := hv.toConsistent.readable
    have hdone := Branching.mem_done_of_reach ht hlost (tree_of_reach hs hv hn)
    refine ⟨?_, fun b hbn => ?_⟩
    · rw [hi n (hread.lt n hn), htr.ibm,
        (hwalk.seen n).mpr (List.mem_append_right _ (List.mem_append_left _ hdone)), Bool.or_true]
    · have hdata := hv.inRange n hn b hbn
      rw [hb b hdata.2, htr.bbm]
      exact Or.inr ⟨n, hdone, ⟨hread.pos n hn, hread.lt n hn⟩, hdata, hbn⟩

end Tree

/-- What a repair of a consistent volume comes to. -/
theorem repair_run (hg : g.Wf) (hcap : g.Capped) (hs : s.Idle g) (hw : s.WritesOk) (hv : WellFormed g s.vol) :
    ∃ t w ret s', (entryTree g s.vol.ino s.disk).walk CFS_FSCK_MAX_STACK (g.totalInodes + 2)
        (Branching.start CFS_ROOT_INO) = some t ∧
      (cfsFsck true).run s = (some (some (w, ret)), s') ∧ (LiveMarked s.vol s'.vol ↔ t.lost = []) := by
  obtain ⟨t, es, w, ht, hrun, htr, -⟩ := fsckWalk_tracks hs hcap
  obtain ⟨w', s', hcmp, -, hb, hi⟩ := fsckCompare_bits hg hcap hs hw w
  rw [hg.rootIno] at ht
  refine ⟨t, w', w'.out.total, s', ht, ?_, liveMarked_iff_lost hs hv ht htr hb hi⟩
  rw [cfsFsck_capped hs.geom hcap, bind_of_some hrun]
  dsimp only
  rw [bind_of_some hcmp, pure_run]

/-- A repair of a consistent volume leaves everything reachable marked exactly when, for every
directory, its place on the stack leaves room for the directories in it. -/
theorem repair_keeps_live (hg : g.Wf) (hcap : g.Capped) (hs : s.Idle g) (hw : s.WritesOk) (hv : WellFormed g s.vol) :
    ∃ w ret s', (cfsFsck true).run s = (some (some (w, ret)), s') ∧
      (LiveMarked s.vol s'.vol ↔ ∀ n k, (entryTree g s.vol.ino s.disk).At CFS_ROOT_INO n k →
        k + ((entryTree g s.vol.ino s.disk).kids n).length ≤ CFS_FSCK_MAX_STACK) := by
  obtain ⟨t, w, ret, s', ht, hrun, hlive⟩ := repair_run hg hcap hs hw hv
  exact ⟨w, ret, s', hrun, hlive.trans (Branching.lost_eq_nil_iff (treeLike hs hv) (by decide) ht)⟩

theorem combOk : CombOk combGeom 4097 :=
  ⟨combGeom_wf, rfl, by decide, by decide, by decide, by decide, by decide, by decide⟩

/-- The directories in a directory of a comb. -/
theorem comb_kids {m n : ℕ} (h : CombOk g m) (hn : 1 ≤ n ∧ n ≤ m) :
    (entryTree g (combState g m).vol.ino (combState g m).disk).kids n = (combBelow m n).map Prod.snd := by
  have hm := h.odd
  have hvol := combState_vol h
  have hreach : (combState g m).vol.Reach n := by
    rwa [hvol, combVol_reach h]
  have hdir : ∀ k, ((combState g m).vol.ino k).isDir = true ↔ 1 ≤ k ∧ k ≤ m := by
    rw [hvol]
    exact combVol_isDir
  have hinodes := h.inodes
  change ((leadsTo g (entriesOf g _ _ n)).filter fun c => ((combState g m).vol.ino c).isDir) = _
  rw [entriesOf_out (combState_idle g m) (combState_wellFormed h) hreach ((hdir n).mpr hn), hvol,
    combVol_out h hn, combEnts, ← hvol]
  have h1 : ¬ g.Leads ([46], n) := fun hl => hl.1 (Or.inl rfl)
  have h2 : ¬ g.Leads ([46, 46], combUp n) := fun hl => hl.1 (Or.inr rfl)
  rw [leadsTo, List.filter_cons_of_neg (by simpa using h1), List.filter_cons_of_neg (by simpa using h2), combBelow]
  split
  · have h3 : g.Leads ([97], n + 1) := ⟨show ¬ IsDotName [97] by decide, show n + 1 < g.totalInodes by omega⟩
    have h4 : g.Leads ([98], n + 2) := ⟨show ¬ IsDotName [98] by decide, show n + 2 < g.totalInodes by omega⟩
    rw [List.filter_cons_of_pos (by simpa using h3), List.filter_cons_of_pos (by simpa using h4), List.filter_nil]
    refine List.filter_eq_self.mpr fun k hk => (hdir k).mpr ?_
    simp only [List.map_cons, List.map_nil, List.mem_cons, List.not_mem_nil, or_false] at hk
    omega
  · rfl

theorem comb_kids_chain {m n : ℕ} (h : CombOk g m) (hn : n % 2 = 1 ∧ n < m) :
    (entryTree g (combState g m).vol.ino (combState g m).disk).kids n = [n + 1, n + 2] := by
  rw [comb_kids h ⟨by omega, by omega⟩, combBelow, if_pos hn]
  rfl

/-- The stack is never higher than the numbers of the directories on it. -/
theorem comb_low {m n k : ℕ} (h : CombOk g m)
    (hat : (entryTree g (combState g m).vol.ino (combState g m).disk).At CFS_ROOT_INO n k) :
    (1 ≤ n ∧ n ≤ m) ∧ k + 1 ≤ n := by
  induction hat with
  | root =>
    have hm := h.odd
    unfold CFS_ROOT_INO
    omega
  | @step n c k i _ hget ih =>
    obtain ⟨hn, hle⟩ := ih
    rw [comb_kids h hn, combBelow] at hget
    split at hget
    · match i with
      | 0 =>
        obtain rfl : n + 1 = c := by simpa using hget
        omega
      | 1 =>
        obtain rfl : n + 2 = c := by simpa using hget
        have hm := h.odd
        omega
      | i + 2 => simp at hget
    · simp at hget

/-- Each directory of the chain lies one place higher than the one before it. -/
theorem comb_at {m : ℕ} (h : CombOk g m) {i : ℕ} (hi : 2 * i < m) :
    (entryTree g (combState g m).vol.ino (combState g m).disk).At CFS_ROOT_INO (2 * i + 1) i := by
  induction i with
  | zero => exact .root
  | succ i ih =>
    have hup := ih (by omega)
    refine Branching.At.step hup ?_
    rw [comb_kids_chain h ⟨by omega, by omega⟩]
    rfl

/-- A chain of two directories keeps everything. -/
theorem repair_keeps_live_comb : ∃ w ret s', (cfsFsck true).run (combState combGeom 3) =
    (some (some (w, ret)), s') ∧ LiveMarked (combState combGeom 3).vol s'.vol := by
  obtain ⟨w, ret, s', hrun, hlive⟩ := repair_keeps_live combGeom_wf combGeom_capped (combState_idle _ 3)
    (combState_writesOk _ _) (combState_wellFormed combOk_three)
  refine ⟨w, ret, s', hrun, hlive.mpr fun n k hat => ?_⟩
  obtain ⟨hn, hle⟩ := comb_low combOk_three hat
  have hbelow := length_combBelow 3 n
  rw [comb_kids combOk_three hn, List.length_map]
  unfold CFS_FSCK_MAX_STACK
  split at hbelow <;> omega

/-- On a chain of 2049 directories, each with one more beside the next, the stack overflows: a
repair gives away what is reachable. -/
theorem comb_repair_loses : WellFormed combGeom (combState combGeom 4097).vol ∧ combGeom.Capped ∧
    ∃ w ret s', (cfsFsck true).run (combState combGeom 4097) = (some (some (w, ret)), s') ∧
      ¬ LiveMarked (combState combGeom 4097).vol s'.vol := by
  have hs := combState_idle combGeom 4097
  have hv := combState_wellFormed combOk
  obtain ⟨t, w, ret, s', ht, hrun, hlive⟩ := repair_run combGeom_wf combGeom_capped hs (combState_writesOk _ _) hv
  refine ⟨hv, combGeom_capped, w, ret, s', hrun, fun hlive' => ?_⟩
  have hroom := (Branching.lost_eq_nil_iff (treeLike hs hv) (by decide) ht).mp (hlive.mp hlive')
  have hlast := hroom _ _ (comb_at combOk (i := 2047) (by omega))
  rw [comb_kids_chain combOk ⟨by omega, by omega⟩] at hlast
  exact absurd hlast (by decide)

end ComputerOS.Cfs
