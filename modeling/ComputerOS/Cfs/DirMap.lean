import ComputerOS.Cfs.DirChange
import ComputerOS.Lib.Assoc

/-!
A directory as a finite map. The abstract directory is a function from names to inodes, 0 for a name
that it does not have; `dir_add` and `dir_remove` update it at one name, `dir_lookup` applies it and
`dir_is_empty` asks for its support. A directory is sound while records tile its blocks and no name
is there twice, and in a run of the two functions it stays so, as long as the last extent has room
for one block more in its count.
-/
namespace ComputerOS.Cfs

open M Bytes Function

theorem flatMap_update {α β : Type} {l₁ l₂ : List ℕ} {b : ℕ} (h : (l₁ ++ b :: l₂).Nodup) (f : α → List β)
    (V : ℕ → α) (a : α) : (l₁ ++ b :: l₂).flatMap (fun x => f (update V b a x)) =
      l₁.flatMap (fun x => f (V x)) ++ (f a ++ l₂.flatMap fun x => f (V x)) := by
  have hne : ∀ x ∈ l₁ ++ l₂, x ≠ b := by
    rintro x hx rfl
    exact (List.nodup_middle.mp h).notMem hx
  have h₁ : l₁.flatMap (fun x => f (update V b a x)) = l₁.flatMap fun x => f (V x) :=
    List.flatMap_congr fun x hx => by rw [update_of_ne (hne x (List.mem_append_left _ hx))]
  have h₂ : l₂.flatMap (fun x => f (update V b a x)) = l₂.flatMap fun x => f (V x) :=
    List.flatMap_congr fun x hx => by rw [update_of_ne (hne x (List.mem_append_right _ hx))]
  rw [List.flatMap_append, List.flatMap_cons, update_self, h₁, h₂]

section SetSize

variable (d : DInode) (size : ℕ)

theorem setSize_blocks : (d.setSize size).blocks = d.blocks :=
  DInode.blocks_congr (getLE_setLE_ne _ (by omega))
    fun _ _ => ⟨getLE_setLE_ne _ (by omega), getLE_setLE_ne _ (by omega)⟩

theorem setSize_nextents : (d.setSize size).nextents = d.nextents := getLE_setLE_ne _ (by omega)

theorem setSize_noHoles (h : d.NoHoles) : (d.setSize size).NoHoles := by
  intro e he
  rw [setSize_nextents] at he
  rw [show (d.setSize size).extentStart e = d.extentStart e from getLE_setLE_ne _ (by omega)]
  exact h e he

end SetSize

variable {g : Geom} {v w : Vol} {s s' : St} {d d' : DInode} {name : Name} {b c type : ℕ}

/-- Twelve counts of 32 bits each. -/
theorem length_blocks_le (hn : d.nextents ≤ 12) : d.blocks.length ≤ 12 * 2 ^ 32 := by
  have hlen : ∀ n, ((List.range n).flatMap d.extentBlocks).length ≤ n * 2 ^ 32 := by
    intro n
    induction n with
    | zero => simp
    | succ n ih =>
      have hone : (d.extentBlocks n).length ≤ 2 ^ 32 := by
        unfold DInode.extentBlocks
        split
        · exact Nat.zero_le _
        · rw [List.length_map, List.length_range]
          exact (getLE_lt d _ 4).le
      rw [List.range_succ, List.flatMap_append, List.flatMap_singleton, List.length_append]
      omega
  have := hlen d.nextents
  exact this.trans (by omega)

/-- A well-formed directory: it covers as many blocks as its size says, all of them data blocks in
use, records tile each of them, and no name is there twice. -/
structure SoundDir (g : Geom) (v : Vol) (d : DInode) : Prop where
  extents : d.nextents ≤ 12
  noHoles : d.NoHoles
  size : d.size = 4096 * d.blocks.length
  inRange : ∀ b ∈ d.blocks, g.IsData b
  once : d.blocks.Nodup
  used : ∀ b ∈ d.blocks, v.bbit b = true
  tiled : ∀ b ∈ d.blocks, Tiled (v.data b)
  names : ((v.ents d).map Prod.fst).Nodup

/-- The new name fits into no block, and the first free block is the one behind the last extent,
whose count is at the limit of its 32 bits. -/
structure CountWraps (g : Geom) (v : Vol) (d : DInode) (name : Name) : Prop where
  full : ∀ b ∈ d.dirBlocks, (dirRecs (v.data b) 0).find? (fitsAt (v.data b) (align8 (12 + name.length))) = none
  limit : ∃ last b, d.nextents = last + 1 ∧ d.extentStart last ≠ 0 ∧
    d.extentCount last + 1 = 2 ^ 32 ∧ (d.extentStart last + d.extentCount last) % 2 ^ 64 = b ∧
    g.IsData b ∧ v.bbit b = false ∧ ∀ x, g.dataStart ≤ x → x < b → v.bbit x = true

theorem data_pos (hg : g.Wf) (h : g.IsData b) : b ≠ 0 ∧ b < 2 ^ 64 := by
  have h1 := h.1
  have h2 := h.2
  have h3 := hg.super
  have h4 := hg.blockBitmap
  have h5 := hg.inodeBitmap
  have h6 := hg.inodeTable
  have h7 := hg.sectors
  exact ⟨by omega, by omega⟩

namespace SoundDir

theorem dirBlocks (hg : g.Wf) (hd : SoundDir g v d) : d.dirBlocks = d.blocks :=
  dirBlocks_eq hd.noHoles hd.size fun b hb => (data_pos hg (hd.inRange b hb)).1

theorem ents_eq (hg : g.Wf) (hd : SoundDir g v d) : v.ents d = d.blocks.flatMap fun b => dirEnts (v.data b) := by
  rw [Vol.ents, entsIn, hd.dirBlocks hg]

/-- The blocks of the directory are all that counts. -/
theorem congr (hg : g.Wf) (hd : SoundDir g v d) (h : ∀ b ∈ d.blocks, w.data b = v.data b ∧ w.bbit b = true) :
    SoundDir g w d ∧ w.ents d = v.ents d := by
  have hents : w.ents d = v.ents d := by
    refine entsIn_congr fun b hb => (h b ?_).1
    rwa [hd.dirBlocks hg] at hb
  refine ⟨⟨hd.extents, hd.noHoles, hd.size, hd.inRange, hd.once, fun b hb => (h b hb).2, fun b hb => ?_, ?_⟩, hents⟩
  · rw [(h b hb).1]
    exact hd.tiled b hb
  · rw [hents]
    exact hd.names

/-- Another content of one block that is tiled, with other entries in its place. -/
theorem setData (hg : g.Wf) (hd : SoundDir g v d) {l₁ l₂ : List ℕ} {blk : Block} (hblocks : d.dirBlocks = l₁ ++ b :: l₂)
    (ht : Tiled blk) : ∃ m₁ m₂, v.ents d = m₁ ++ (dirEnts (v.data b) ++ m₂) ∧
      (v.setData b blk).ents d = m₁ ++ (dirEnts blk ++ m₂) ∧
      (((m₁ ++ (dirEnts blk ++ m₂)).map Prod.fst).Nodup → SoundDir g (v.setData b blk) d) := by
  have honce : (l₁ ++ b :: l₂).Nodup := by
    rw [← hblocks, hd.dirBlocks hg]
    exact hd.once
  have hafter : (v.setData b blk).ents d = l₁.flatMap (fun x => dirEnts (v.data x)) ++
      (dirEnts blk ++ l₂.flatMap fun x => dirEnts (v.data x)) := by
    rw [Vol.ents, entsIn, hblocks]
    exact flatMap_update honce dirEnts v.data blk
  refine ⟨_, _, ?_, hafter, fun hnames => ⟨hd.extents, hd.noHoles, hd.size, hd.inRange, hd.once,
    hd.used, fun x hx => ?_, hafter ▸ hnames⟩⟩
  · rw [Vol.ents, entsIn, hblocks, List.flatMap_append, List.flatMap_cons]
  · by_cases hxb : x = b
    · subst hxb
      simpa [Vol.setData] using ht
    · simpa [Vol.setData, hxb] using hd.tiled x hx

/-- The directory with a new block that holds one name. -/
theorem grow (hg : g.Wf) (hd : SoundDir g v d) (hdata : g.IsData b) (hfree : v.bbit b = false)
    (hpush : inodePushExtent d b 1 = some d') {blk : Block} (ht : Tiled blk) (hents : dirEnts blk = [(name, c)])
    (hname : name ∉ (v.ents d).map Prod.fst)
    (hfits : ∀ last, d.nextents = last + 1 → d.extentStart last ≠ 0 →
      (d.extentStart last + d.extentCount last) % 2 ^ 64 = b → d.extentCount last + 1 < 2 ^ 32) :
    SoundDir g ((v.takeBlock b).setData b blk) (d'.setSize (d'.size + 4096)) ∧
      ((v.takeBlock b).setData b blk).ents (d'.setSize (d'.size + 4096)) = v.ents d ++ [(name, c)] := by
  obtain ⟨hb, hb'⟩ := data_pos hg hdata
  have hx := hd.extents
  have hnext : (d'.setSize (d'.size + 4096)).nextents ≤ 12 := by
    rw [setSize_nextents]
    exact (inodePushExtent_nextents hx hpush).1
  have hblocks : (d'.setSize (d'.size + 4096)).blocks = d.blocks ++ [b] := by
    rw [setSize_blocks, inodePushExtent_append hx hb hb' hfits hpush]
  have hlen := length_blocks_le hnext
  rw [hblocks, List.length_append, List.length_singleton] at hlen
  have hsize : (d'.setSize (d'.size + 4096)).size = 4096 * (d'.setSize (d'.size + 4096)).blocks.length := by
    rw [hblocks, show d'.size = d.size from inodePushExtent_getLE hx hpush (by omega), hd.size, List.length_append,
      DInode.size, getLE_setLE_same _ _ (by omega), Nat.mod_eq_of_lt (by omega), List.length_singleton]
    omega
  have hnot : b ∉ d.blocks := by
    intro hmem
    rw [hd.used b hmem] at hfree
    cases hfree
  have hin : ∀ x ∈ (d'.setSize (d'.size + 4096)).blocks, x ∈ d.blocks ∨ x = b := by
    intro x hx
    rwa [hblocks, List.mem_append, List.mem_singleton] at hx
  have hholes := setSize_noHoles _ (d'.size + 4096) (inodePushExtent_noHoles hx hb hb' hd.noHoles hpush)
  have hrange : ∀ x ∈ (d'.setSize (d'.size + 4096)).blocks, g.IsData x := by
    intro x hx
    rcases hin x hx with hx | rfl
    · exact hd.inRange x hx
    · exact hdata
  have honce : (d.blocks ++ b :: []).Nodup := List.nodup_middle.mpr (by simpa using ⟨hnot, hd.once⟩)
  have hafter : ((v.takeBlock b).setData b blk).ents (d'.setSize (d'.size + 4096)) = v.ents d ++ [(name, c)] := by
    rw [Vol.ents, entsIn, dirBlocks_eq hholes hsize fun x hx => (data_pos hg (hrange x hx)).1, hblocks, hd.ents_eq hg]
    refine (flatMap_update honce dirEnts v.data blk).trans ?_
    rw [hents, List.flatMap_nil, List.append_nil]
  refine ⟨⟨hnext, hholes, hsize, hrange, hblocks ▸ honce, fun x hx => ?_, fun x hx => ?_, ?_⟩, hafter⟩
  · rcases hin x hx with hx | rfl
    · simp [Vol.setData, Vol.takeBlock, update_apply, hd.used x hx]
    · simp [Vol.setData, Vol.takeBlock]
  · by_cases hxb : x = b
    · subst hxb
      simpa [Vol.setData] using ht
    · simpa [Vol.setData, Vol.takeBlock, hxb] using hd.tiled x ((hin x hx).resolve_right hxb)
  · rw [hafter, List.map_append, List.nodup_append]
    refine ⟨hd.names, by simp, ?_⟩
    rintro _ h1 _ h2 rfl
    rw [List.map_singleton, List.mem_singleton] at h2
    rw [h2] at h1
    exact hname h1

end SoundDir

/-- The directory with entries `l`, as a map: 0 for a name that is not there. -/
def entMap (l : List Ent) (name : Name) : ℕ := lookupEnt l name

theorem entMap_eq (l : List Ent) (name : Name) : entMap l name = (Assoc.toMap l name).getD 0 := by
  unfold entMap lookupEnt
  congr 1
  induction l with
  | nil => rfl
  | cons e l ih =>
    obtain ⟨k, c⟩ := e
    by_cases hk : k = name
    · subst hk
      rw [List.find?_cons_of_pos (by simp), Assoc.toMap_cons_self]
      rfl
    · rw [List.find?_cons_of_neg (by simpa using hk), Assoc.toMap_cons_ne (Ne.symm hk)]
      exact ih

theorem mem_iff_entMap {l : List Ent} (hu : (l.map Prod.fst).Nodup) (h0 : ∀ e ∈ l, e.2 ≠ 0) :
    (name, c) ∈ l ↔ entMap l name = c ∧ c ≠ 0 := by
  refine ⟨fun h => ⟨lookupEnt_eq hu h, h0 _ h⟩, ?_⟩
  rintro ⟨rfl, hc⟩
  exact lookupEnt_mem hc

theorem entMap_insert {l₁ l₂ : List Ent} (hname : name ∉ (l₁ ++ l₂).map Prod.fst) :
    entMap (l₁ ++ (name, c) :: l₂) = update (entMap (l₁ ++ l₂)) name c := by
  funext x
  rw [entMap_eq, Assoc.toMap_insert hname, update_apply, update_apply, entMap_eq]
  split <;> rfl

theorem entMap_erase {l₁ l₂ : List Ent} (hu : Assoc.Unique (l₁ ++ (name, c) :: l₂)) :
    entMap (l₁ ++ l₂) = update (entMap (l₁ ++ (name, c) :: l₂)) name 0 := by
  funext x
  rw [entMap_eq, Assoc.toMap_erase hu, update_apply, update_apply, entMap_eq]
  split <;> rfl

/-- Where the search of `dir_add` ends without a place, no block has room. -/
theorem addBlocks_full (hr : s.ReadsOk) {fbs : List ℕ}
    (h : (addBlocks d name c type fbs).run s = (some none, s')) : ∀ b ∈ mappedAt d fbs,
      (dirRecs (s.view b) 0).find? (fitsAt (s.view b) (align8 (12 + name.length))) = none := by
  induction fbs with
  | nil => exact fun b hb => nomatch hb
  | cons fb fbs ih =>
    rw [addBlocks] at h
    by_cases hpb : mapFileblock d fb = 0
    · rw [if_pos hpb] at h
      rw [mappedAt_zero _ hpb]
      exact ih h
    · rw [if_neg hpb, bind_of_some (bdReadBlock_run hr _)] at h
      rw [mappedAt_pos _ hpb]
      cases hfind : (dirRecs (s.view (mapFileblock d fb)) 0).find?
          (fitsAt (s.view (mapFileblock d fb)) (align8 (12 + name.length))) with
      | some off =>
        rw [hfind] at h
        obtain ⟨_, s1, _, k1⟩ := bind_eq_some h
        simp [pure_run] at k1
      | none =>
        rw [hfind] at h
        exact List.forall_mem_cons.mpr ⟨hfind, ih h⟩

theorem SoundDir.held (hg : g.Wf) (hd : SoundDir g v d) : ∀ b ∈ d.dirBlocks, g.IsData b ∧ v.bbit b = true := by
  rw [hd.dirBlocks hg]
  exact fun b hb => ⟨hd.inRange b hb, hd.used b hb⟩

section Calls

variable (hg : g.Wf) (hs : s.Working g) (hd : SoundDir g s.vol d)

include hg hs hd

theorem dirAdd_inserts (hname : name.length ≤ 255) (hnew : name ∉ (s.vol.ents d).map Prod.fst) (hc : c ≠ 0)
    (hc' : c < 2 ^ 64) (hfits : ¬ CountWraps g s.vol d name)
    (h : (dirAdd d name c type).run s = (some d', s')) :
    s'.Working g ∧ SoundDir g s'.vol d' ∧
      ∃ l₁ l₂, s.vol.ents d = l₁ ++ l₂ ∧ s'.vol.ents d' = l₁ ++ (name, c) :: l₂ := by
  obtain ⟨hw', -, -⟩ := dirAdd_some hg hs (hd.held hg) h
  refine ⟨hw', ?_⟩
  obtain ⟨r, s1, h1, k1⟩ := bind_eq_some h
  rcases addBlocks_cases hs.reads d name c type (List.range (d.size / 4096))
    with hrun | hrun | ⟨l₁, b, l₂, off, s2, hl, hfind, hwrite, hrun⟩
  · have hfull := addBlocks_full hs.reads hrun
    rw [hrun] at h1
    simp only [Prod.mk.injEq, Option.some.injEq] at h1
    obtain ⟨rfl, rfl⟩ := h1
    obtain ⟨-, -, b, d1, hdata, hfree, hfirst, hpush, rfl, hvol⟩ := growDir_grown hg hs k1
    obtain ⟨ht, hents⟩ := freshDirBlock_spec type hname hc' hc
    rw [hvol]
    refine (hd.grow hg hdata hfree hpush ht hents hnew fun last hlast hne hnext => ?_).imp_right
      fun hafter => ⟨_, [], (List.append_nil _).symm, hafter⟩
    by_contra hcount
    have hlt : d.extentCount last < 2 ^ 32 := getLE_lt d (84 + 12 * last) 4
    refine hfits ⟨fun x hx => ?_, last, b, hlast, hne, by omega, hnext, hdata, hfree, hfirst⟩
    rw [vol_data hs.toMounted (hd.held hg x hx).1]
    exact hfull x hx
  · rw [h1] at hrun
    simp at hrun
  · rw [hrun] at h1
    simp only [Prod.mk.injEq, Option.some.injEq] at h1
    obtain ⟨rfl, rfl⟩ := h1
    rw [pure_run] at k1
    simp only [Prod.mk.injEq, Option.some.injEq] at k1
    obtain ⟨rfl, rfl⟩ := k1
    have hmem : b ∈ d.blocks := by
      rw [← hd.dirBlocks hg]
      change b ∈ mappedAt d (List.range (d.size / 4096))
      rw [hl]
      simp
    obtain ⟨hvol, -⟩ := bdWriteBlock_data hg hs.toInTxn (hd.inRange b hmem) hwrite
    rw [← vol_data hs.toMounted (hd.inRange b hmem)] at hfind hvol
    obtain ⟨ht, m₁, m₂, hold, hnew'⟩ := addAt_spec type (hd.tiled b hmem) hname hc' hc hfind
    obtain ⟨A, B, hbefore, hafter, hsound⟩ := hd.setData hg hl ht
    rw [hold, List.append_assoc, ← List.append_assoc A] at hbefore
    rw [hnew', List.append_assoc, List.cons_append, ← List.append_assoc A] at hafter hsound
    rw [hvol]
    refine ⟨hsound (Assoc.unique_insert.mpr ?_), A ++ m₁, m₂ ++ B, hbefore, hafter⟩
    rw [← hbefore]
    exact ⟨hnew, hd.names⟩

theorem dirRemove_erases {u : Unit} (h : (dirRemove d name).run s = (some u, s')) :
    s'.Working g ∧ SoundDir g s'.vol d ∧
      ∃ l₁ c l₂, s.vol.ents d = l₁ ++ (name, c) :: l₂ ∧ s'.vol.ents d = l₁ ++ l₂ := by
  obtain ⟨hw', hrem, -⟩ := dirRemove_some hg hs (hd.held hg) h
  refine ⟨hw', ?_⟩
  generalize s'.vol = w at hrem
  cases hrem with
  | @intro l₁ l₂ b blk hl hrem =>
    have hmem : b ∈ d.blocks := by
      rw [← hd.dirBlocks hg, hl]
      simp
    obtain ⟨ht, m₁, c, m₂, hold, hnew⟩ := removeFrom_spec (hd.tiled b hmem) hrem
    obtain ⟨A, B, hbefore, hafter, hsound⟩ := hd.setData hg hl ht
    rw [hold, List.append_assoc, List.cons_append, ← List.append_assoc A] at hbefore
    rw [hnew, List.append_assoc, ← List.append_assoc A] at hafter hsound
    refine ⟨hsound (Assoc.unique_insert.mp (hbefore ▸ hd.names)).2, A ++ m₁, c, m₂ ++ B, hbefore, hafter⟩

end Calls

end ComputerOS.Cfs
