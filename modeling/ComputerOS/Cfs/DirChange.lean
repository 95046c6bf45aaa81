import ComputerOS.Cfs.Working

/-!
What `dir_add` and `dir_remove` do to a volume: a successful call changes one directory
block, or appends one, and the directory's entries by exactly the entry named.
-/
namespace ComputerOS.Cfs

open M Bytes Function

variable {g : Geom} {s s' : St} {U : ℕ → Prop}

theorem growDir_safe (hg : g.Wf) (hs : s.Working g) (hU : ∀ b, U b → s.vol.bbit b = true)
    (d : DInode) (name : Name) (child type : ℕ) : Safe U (growDir d name child type) s := by
  refine Safe.bind (Safe.buffered allocBlock_buffered hs.toInTxn) fun b s1 h1 => ?_
  have hs1 := allocBlock_buffered.inTxn_of_run hs.toInTxn h1
  refine Safe.bind (Safe.buffered (Buffered.ensure _) hs1) fun _ s2 h2 => ?_
  obtain ⟨hb, rfl⟩ := ensure_eq_some h2
  obtain ⟨-, hw, hdata, hfree, -, -, hclean⟩ := allocBlock_some hg hs hb h1
  refine Safe.bind (Safe.rawWrite _ fun hu => ?_) fun _ s3 h3 => ?_
  · simp [hU b hu] at hfree
  · obtain ⟨hw3, -, -⟩ := rawWriteBlock_working hg hw hdata hclean h3
    split
    · exact Safe.buffered (.bind (freeBlock_buffered b) fun _ => .fail) hw3.toInTxn
    · exact Safe.buffered (.pure _) hw3.toInTxn

theorem dirAdd_safe (hg : g.Wf) (hs : s.Working g) (hU : ∀ b, U b → s.vol.bbit b = true)
    (d : DInode) (name : Name) (child type : ℕ) : Safe U (dirAdd d name child type) s := by
  have hbuf := addBlocks_buffered d name child type (List.range (d.size / 4096))
  refine Safe.bind (Safe.buffered hbuf hs.toInTxn) fun r s1 h1 => ?_
  have hs1 := hbuf.inTxn_of_run hs.toInTxn h1
  cases r with
  | some _ => exact Safe.buffered (.pure _) hs1
  | none =>
    rcases addBlocks_cases hs.reads d name child type (List.range (d.size / 4096))
      with h | h | ⟨_, _, _, _, _, _, _, _, h⟩
    · rw [h] at h1
      have heq : s = s1 := congrArg Prod.snd h1
      rw [← heq]
      exact growDir_safe hg hs hU d name child type
    · rw [h1] at h
      simp at h
    · rw [h] at h1
      simp at h1

/-- The effect of a successful `dir_add` on a volume and the directory's inode: the entry
goes to a block with room, or to a new block. -/
inductive Added (g : Geom) (name : Name) (child type : ℕ) (v : Vol) (d : DInode) :
    Vol → DInode → Prop
  | place {l₁ l₂ : List ℕ} {b off : ℕ} (hblocks : d.dirBlocks = l₁ ++ b :: l₂)
      (hfind : (dirRecs (v.data b) 0).find? (fitsAt (v.data b) (align8 (12 + name.length))) = some off) :
      Added g name child type v d (v.setData b (addAt (v.data b) off child type name)) d
  | grow {b : ℕ} {d' : DInode} (hdata : g.IsData b) (hfree : v.bbit b = false)
      (hpush : inodePushExtent d b 1 = some d') :
      Added g name child type v d ((v.takeBlock b).setData b (freshDirBlock child type name))
        (d'.setSize (d'.size + 4096))

/-- A directory grows by the first free block. -/
theorem growDir_grown (hg : g.Wf) (hs : s.Working g) {d d' : DInode} {name : Name} {child type : ℕ}
    (h : (growDir d name child type).run s = (some d', s')) :
    s'.Working g ∧ (s.lost = true → s'.lost = true) ∧ ∃ b d1, g.IsData b ∧ s.vol.bbit b = false ∧
      (∀ x, g.dataStart ≤ x → x < b → s.vol.bbit x = true) ∧ inodePushExtent d b 1 = some d1 ∧
      d' = d1.setSize (d1.size + 4096) ∧ s'.vol = (s.vol.takeBlock b).setData b (freshDirBlock child type name) := by
  unfold growDir at h
  obtain ⟨b, s3, hw3, hlost, hdata, hfree, hfirst, hvol3, k3⟩ := filledBlock_some hg hs h
  cases hpush : inodePushExtent d b 1 with
  | none =>
    rw [hpush] at k3
    obtain ⟨_, _, _, k4⟩ := bind_eq_some k3
    simp [fail_run] at k4
  | some d1 =>
    rw [hpush, pure_run] at k3
    simp only [Prod.mk.injEq, Option.some.injEq] at k3
    obtain ⟨rfl, rfl⟩ := k3
    exact ⟨hw3, hlost, b, d1, hdata, hfree, hfirst, hpush, rfl, hvol3⟩

theorem growDir_some (hg : g.Wf) (hs : s.Working g) {d d' : DInode} {name : Name} {child type : ℕ}
    (h : (growDir d name child type).run s = (some d', s')) :
    s'.Working g ∧ Added g name child type s.vol d s'.vol d' ∧ (s.lost = true → s'.lost = true) := by
  obtain ⟨hw, hlost, b, d1, hdata, hfree, -, hpush, rfl, hvol⟩ := growDir_grown hg hs h
  refine ⟨hw, ?_, hlost⟩
  rw [hvol]
  exact .grow hdata hfree hpush

theorem dirAdd_some (hg : g.Wf) (hs : s.Working g) {d d' : DInode} {name : Name} {child type : ℕ}
    (hd : ∀ b ∈ d.dirBlocks, g.IsData b ∧ s.vol.bbit b = true)
    (h : (dirAdd d name child type).run s = (some d', s')) :
    s'.Working g ∧ Added g name child type s.vol d s'.vol d' ∧ (s.lost = true → s'.lost = true) := by
  obtain ⟨r, s1, h1, k1⟩ := bind_eq_some h
  rcases addBlocks_cases hs.reads d name child type (List.range (d.size / 4096))
    with hrun | hrun | ⟨l₁, b, l₂, off, s2, hl, hfind, hwrite, hrun⟩
  · rw [hrun] at h1
    simp only [Prod.mk.injEq, Option.some.injEq] at h1
    obtain ⟨rfl, rfl⟩ := h1
    exact growDir_some hg hs k1
  · rw [h1] at hrun
    simp at hrun
  · rw [hrun] at h1
    simp only [Prod.mk.injEq, Option.some.injEq] at h1
    obtain ⟨rfl, rfl⟩ := h1
    rw [pure_run] at k1
    simp only [Prod.mk.injEq, Option.some.injEq] at k1
    obtain ⟨rfl, rfl⟩ := k1
    have hmem : b ∈ d.dirBlocks := by
      change b ∈ mappedAt d (List.range (d.size / 4096))
      rw [hl]
      simp
    obtain ⟨hdata, hused⟩ := hd b hmem
    obtain ⟨hvol, hin, -, -, hlost, hclean⟩ := bdWriteBlock_data hg hs.toInTxn hdata hwrite
    rw [← vol_data hs.toMounted hdata] at hfind hvol
    refine ⟨⟨hin, fun x hx hfree => ?_⟩, ?_, hlost⟩
    · rw [hvol] at hfree
      have hne : x ≠ b := by
        rintro rfl
        simp [Vol.setData, hused] at hfree
      exact hclean x hne (hs.clean x hx hfree)
    · rw [hvol]
      exact .place hl hfind

/-- The effect of a successful `dir_remove`. -/
inductive Removed (name : Name) (v : Vol) (d : DInode) : Vol → Prop
  | intro {l₁ l₂ : List ℕ} {b : ℕ} {blk : Block} (hblocks : d.dirBlocks = l₁ ++ b :: l₂)
      (hrem : removeFrom (v.data b) name none (dirRecs (v.data b) 0) = some blk) :
      Removed name v d (v.setData b blk)

theorem dirRemove_some (hg : g.Wf) (hs : s.Working g) {d : DInode} {name : Name} {u : Unit}
    (hd : ∀ b ∈ d.dirBlocks, g.IsData b ∧ s.vol.bbit b = true)
    (h : (dirRemove d name).run s = (some u, s')) :
    s'.Working g ∧ Removed name s.vol d s'.vol ∧ (s.lost = true → s'.lost = true) ∧
      ∀ x, x ∉ d.dirBlocks → txnFind s.txn x = none → txnFind s'.txn x = none := by
  obtain ⟨l₁, b, l₂, blk, hl, hrem, hwrite⟩ := removeBlocks_some hs.reads h
  have hmem : b ∈ d.dirBlocks := by
    change b ∈ mappedAt d (List.range (d.size / 4096))
    rw [hl]
    simp
  obtain ⟨hdata, hused⟩ := hd b hmem
  obtain ⟨hvol, hin, -, -, hlost, hclean⟩ := bdWriteBlock_data hg hs.toInTxn hdata hwrite
  rw [← vol_data hs.toMounted hdata] at hrem
  refine ⟨⟨hin, fun x hx hfree => ?_⟩, ?_, hlost, fun x hx => hclean x ?_⟩
  · rw [hvol] at hfree
    have hne : x ≠ b := by
      rintro rfl
      simp [Vol.setData, hused] at hfree
    exact hclean x hne (hs.clean x hx hfree)
  · rw [hvol]
    exact .intro hl hrem
  · rintro rfl
    exact hx hmem

end ComputerOS.Cfs
