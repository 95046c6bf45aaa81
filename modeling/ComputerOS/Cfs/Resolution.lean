import ComputerOS.Cfs.FsckLive

/-!
The two ways of splitting a path. `resolve_ino` goes through it component by component,
`resolve_parent` cuts it at the last slash and resolves what comes before. On every image they end
at the same inode, so the calls that take an inode and those that take a parent and a name act on
the same file.
-/
namespace ComputerOS.Cfs

open M Bytes

variable {g : Geom} {s s' : St} {n p : ℕ} {leaf c : Name} {cs : List Name} {path : List UInt8}

/-- One step of the walk of `resolve_ino`, in the order of its checks. -/
theorem walk_cons (hs : s.Mounted g) (n : ℕ) (c : Name) (cs : List Name) : (walk n (c :: cs)).run
    s = (some 0, s) ∨ ∃ next ≠ 0, ∀ cs, (walk n (c :: cs)).run s = (walk next cs).run s := by
  by_cases hlen : CFS_NAME_MAX < c.length
  · refine Or.inl ?_
    rw [walk, if_pos hlen, pure_run]
  by_cases hn : n ≠ 0 ∧ n < g.totalInodes
  swap
  · refine Or.inl ?_
    rw [walk, if_neg hlen, bind_of_some (attempt_run _ s), readDinode_none hs hn]
    rfl
  by_cases hd : (s.vol.ino n).isDir = true
  swap
  · refine Or.inl ?_
    rw [walk, if_neg hlen, bind_of_some (attempt_run _ s), readDinode_run hs hn]
    dsimp only
    rw [if_pos (Bool.not_eq_true _ ▸ hd), pure_run]
  have hstep : ∀ cs, (walk n (c :: cs)).run s =
      (if lookupEnt (entsIn s.view (s.vol.ino n)) c = 0 then pure 0
        else walk (lookupEnt (entsIn s.view (s.vol.ino n)) c) cs : M ℕ).run s := fun cs => by
    rw [walk, if_neg hlen, bind_of_some (attempt_run _ s), readDinode_run hs hn]
    dsimp only
    rw [if_neg (by rw [hd]; exact Bool.true_eq_false.mp), bind_of_some (dirLookup_run hs.reads _ _)]
  by_cases hz : lookupEnt (entsIn s.view (s.vol.ino n)) c = 0
  · refine Or.inl ?_
    rw [hstep, if_pos hz, pure_run]
  · exact Or.inr ⟨_, hz, fun cs => by rw [hstep, if_neg hz]⟩

theorem walk_ends (hs : s.Mounted g) (cs : List Name) (n : ℕ) : ∃ m, (walk n cs).run s = (some m, s) := by
  induction cs generalizing n with
  | nil => exact ⟨n, rfl⟩
  | cons c cs ih =>
    rcases walk_cons hs n c cs with h | ⟨next, -, h⟩
    · exact ⟨0, h⟩
    · obtain ⟨m, hm⟩ := ih next
      exact ⟨m, (h cs).trans hm⟩

theorem walk_snoc {m : ℕ} (hs : s.Mounted g) (h : (walk n cs).run s = (some m, s)) (hm : m ≠ 0) (c : Name) :
    (walk n (cs ++ [c])).run s = (walk m [c]).run s := by
  induction cs generalizing n with
  | nil =>
    obtain rfl : n = m := Option.some.inj (congrArg Prod.fst h)
    rfl
  | cons a cs ih =>
    rcases walk_cons hs n a cs with h0 | ⟨next, -, hnext⟩
    · exact absurd (Option.some.inj (congrArg Prod.fst (h.symm.trans h0))) hm
    · rw [List.cons_append, hnext]
      exact ih ((hnext cs).symm.trans h)

/-- The last step of the walk, at a directory that can be read. -/
theorem walk_last (hs : s.Mounted g) (hn : n ≠ 0 ∧ n < g.totalInodes) (hd : (s.vol.ino n).isDir = true)
    (hlen : c.length ≤ CFS_NAME_MAX) : (walk n [c]).run s = (dirLookup (s.vol.ino n) c).run s := by
  rw [walk, if_neg (Nat.not_lt.mpr hlen), bind_of_some (attempt_run _ s), readDinode_run hs hn]
  dsimp only
  rw [if_neg (by rw [hd]; exact Bool.true_eq_false.mp), bind_of_some (dirLookup_run hs.reads _ _),
    dirLookup_run hs.reads]
  by_cases hz : lookupEnt (entsIn s.view (s.vol.ino n)) c = 0
  · rw [if_pos hz, hz, pure_run]
  · rw [if_neg hz]
    rfl

theorem resolveParent_found (hs : s.Mounted g) (h : (resolveParent path).run s = (some (p, leaf), s')) :
    s' = s ∧ leaf = leafOf path ∧ leaf.length ≠ 0 ∧ leaf.length ≤ CFS_NAME_MAX ∧ p ≠ 0 ∧ p < g.totalInodes ∧
      (s.vol.ino p).isDir = true ∧ (resolveIno (parentOf path)).run s = (some p, s) := by
  obtain ⟨_, s1, h1, k1⟩ := bind_eq_some h
  obtain ⟨hleaf, rfl⟩ := ensure_eq_some h1
  obtain ⟨_, s2, h2, k2⟩ := bind_eq_some k1
  obtain ⟨-, rfl⟩ := ensure_eq_some h2
  obtain ⟨m, hm⟩ : ∃ m, (resolveIno (parentOf path)).run s2 = (some m, s2) := by
    obtain ⟨m, hm⟩ := walk_ends hs (components (parentOf path)) s2.fs.rootIno
    exact ⟨m, (bind_of_some (getFs_run s2)).trans hm⟩
  rw [bind_of_some hm] at k2
  obtain ⟨_, s3, h3, k3⟩ := bind_eq_some k2
  obtain ⟨hne, rfl⟩ := ensure_eq_some h3
  obtain ⟨d, s4, h4, k4⟩ := bind_eq_some k3
  obtain ⟨hin, rfl, rfl⟩ := readDinode_some hs h4
  obtain ⟨_, s5, h5, k5⟩ := bind_eq_some k4
  obtain ⟨hdir, rfl⟩ := ensure_eq_some h5
  simp only [pure_run, Prod.mk.injEq, Option.some.injEq] at k5
  obtain ⟨⟨rfl, rfl⟩, rfl⟩ := k5
  exact ⟨rfl, rfl, hleaf.1, hleaf.2, hne, hin.2, hdir, hm⟩

/-- Where `resolve_parent` succeeds, looking the leaf up in the parent gives the inode that
`resolve_ino` gives, and so does the beginning of the calls that work on a parent and a name. -/
theorem resolve_agrees (hs : s.Mounted g) (h : (resolveParent path).run s = (some (p, leaf), s')) :
    (resolveIno path).run s = (dirLookup (s.vol.ino p) leaf).run s ∧
    (resolveIno path).run s = (do
      let (parent, leaf) ← resolveParent path
      let pdin ← readDinode parent
      dirLookup pdin leaf).run s := by
  obtain ⟨rfl, hleaf, h0, h255, hp, hlt, hd, hparent⟩ := resolveParent_found hs h
  have hsnoc : (resolveIno path).run s' = (dirLookup (s'.vol.ino p) leaf).run s' := by
    rw [resolveIno, bind_of_some (getFs_run s')] at hparent ⊢
    have hne : leafOf path ≠ [] := fun hnil => h0 (by rw [hleaf, hnil]; rfl)
    rw [components_eq hne, walk_snoc hs hparent hp, ← hleaf, walk_last hs ⟨hp, hlt⟩ hd h255]
  refine ⟨hsnoc, ?_⟩
  rw [bind_of_some h, bind_of_some (readDinode_run hs ⟨hp, hlt⟩)]
  exact hsnoc

/-- The path `//a` on a volume with two directories in its root. -/
theorem resolve_agrees_comb :
    (resolveIno [47, 47, 97]).run (combState combGeom 3) =
      (dirLookup ((combState combGeom 3).vol.ino 1) [97]).run (combState combGeom 3) ∧
    (resolveIno [47, 47, 97]).run (combState combGeom 3) = (do
      let (parent, leaf) ← resolveParent [47, 47, 97]
      let pdin ← readDinode parent
      dirLookup pdin leaf).run (combState combGeom 3) := by
  have hok : CombOk combGeom 3 := ⟨combGeom_wf, rfl, by decide, by decide, by decide, by decide, by decide, by decide⟩
  have hs := (combState_idle combGeom 3).toMounted
  have hroot : (combState combGeom 3).vol.resolve (parentOf [47, 47, 97]) = 1 := by
    have hnil : components (parentOf [47, 47, 97]) = [] := by decide
    rw [Vol.resolve, hnil]
    rfl
  have hdir : ((combState combGeom 3).vol.ino 1).isDir = true := by
    rw [combState_vol hok]
    exact (combVol_isDir 1).mpr ⟨by decide, by decide⟩
  have hrun : (resolveParent [47, 47, 97]).run (combState combGeom 3) = (some (1, [97]), combState combGeom 3) := by
    rw [resolveParent_run combGeom_wf hs (combState_wellFormed hok).toConsistent.readable
      (by decide) (by decide) (by rw [hroot]; decide) (by rw [hroot]; exact hdir), hroot]
    rfl
  exact resolve_agrees hs hrun

end ComputerOS.Cfs
