import ComputerOS.Cfs.DirBlock
import ComputerOS.Cfs.Extents

/-!
The directory functions over the entries of a directory. Each of them walks the mapped
blocks of the directory in file order; lookup and the emptiness test read the entries,
adding and removing change one block.
-/
namespace ComputerOS.Cfs

open M Bytes Function

/-- The blocks the directory functions visit: the mapped ones, in file order. -/
def DInode.dirBlocks (d : DInode) : List ℕ :=
  ((List.range (d.size / 4096)).map (mapFileblock d)).filter (· ≠ 0)

def entsIn (V : ℕ → Block) (d : DInode) : List Ent := d.dirBlocks.flatMap fun b => dirEnts (V b)

/-- The inode of the first entry with the name; 0 when there is none. -/
def lookupEnt (l : List Ent) (name : Name) : ℕ :=
  ((l.find? (fun e => e.1 = name)).map Prod.snd).getD 0

/-- The entries of a directory of the volume. -/
def Vol.ents (v : Vol) (d : DInode) : List Ent := entsIn v.data d

def mappedAt (d : DInode) (fbs : List ℕ) : List ℕ := (fbs.map (mapFileblock d)).filter (· ≠ 0)

theorem mappedAt_zero {d : DInode} {fb : ℕ} (fbs : List ℕ) (h : mapFileblock d fb = 0) :
    mappedAt d (fb :: fbs) = mappedAt d fbs := by
  simp [mappedAt, h]

theorem mappedAt_pos {d : DInode} {fb : ℕ} (fbs : List ℕ) (h : mapFileblock d fb ≠ 0) :
    mappedAt d (fb :: fbs) = mapFileblock d fb :: mappedAt d fbs := by
  simp [mappedAt, h]

theorem mem_dirBlocks {d : DInode} {b : ℕ} (h : b ∈ d.dirBlocks) : b ∈ d.blocks := by
  obtain ⟨hmem, hne⟩ := List.mem_filter.mp h
  obtain ⟨fb, -, rfl⟩ := List.mem_map.mp hmem
  exact mapFileblock_mem (by simpa using hne)

/-- Entries depend on the directory's own blocks only. -/
theorem entsIn_congr {V W : ℕ → Block} {d : DInode} (h : ∀ b ∈ d.dirBlocks, V b = W b) :
    entsIn V d = entsIn W d := by
  apply List.flatMap_congr
  intro b hb
  rw [h b hb]

theorem lookupEnt_block (blk : Block) (rest : List Ent) (name : Name) :
    lookupEnt (dirEnts blk ++ rest) name =
      match (dirRecs blk 0).find? (nameEq blk name) with
      | some off => Dirent.inode blk off
      | none => lookupEnt rest name := by
  have hfind := find_nameEq blk name (dirRecs blk 0)
  change _ = ((dirEnts blk).find? _).map Prod.snd at hfind
  unfold lookupEnt
  rw [List.find?_append]
  cases hrec : (dirRecs blk 0).find? (nameEq blk name) with
  | none =>
    rw [hrec, Option.map_none, eq_comm, Option.map_eq_none_iff] at hfind
    rw [hfind, Option.none_or]
  | some off =>
    rw [hrec, Option.map_some] at hfind
    cases hent : (dirEnts blk).find? (fun e => decide (e.1 = name)) with
    | none => simp [hent] at hfind
    | some e =>
      rw [hent, Option.map_some, Option.some.injEq] at hfind
      rw [Option.some_or, Option.map_some, Option.getD_some, ← hfind]

theorem lookupBlocks_run {s : St} (hr : s.ReadsOk) (d : DInode) (name : Name) (fbs : List ℕ) :
    (lookupBlocks d name fbs).run s =
      (some (lookupEnt ((mappedAt d fbs).flatMap fun b => dirEnts (s.view b)) name), s) := by
  induction fbs with
  | nil => rfl
  | cons fb fbs ih =>
    rw [lookupBlocks]
    by_cases hz : mapFileblock d fb = 0
    · rw [mappedAt_zero fbs hz]
      simpa [hz] using ih
    · rw [mappedAt_pos fbs hz, List.flatMap_cons, lookupEnt_block]
      simp only [if_neg hz]
      rw [bind_of_some (attempt_run _ s), bdReadBlock_run hr]
      dsimp only
      cases (dirRecs (s.view (mapFileblock d fb)) 0).find? (nameEq (s.view (mapFileblock d fb)) name) with
      | none => exact ih
      | some off => rfl

theorem dirLookup_run {s : St} (hr : s.ReadsOk) (d : DInode) (name : Name) :
    (dirLookup d name).run s = (some (lookupEnt (entsIn s.view d) name), s) :=
  lookupBlocks_run hr d name _

theorem emptyBlocks_run {s : St} (hr : s.ReadsOk) (d : DInode) (fbs : List ℕ) :
    ∃ r, (emptyBlocks d fbs).run s = (some r, s) ∧
      (r = true ↔ ∀ e ∈ (mappedAt d fbs).flatMap (fun b => dirEnts (s.view b)), IsDotName e.1) := by
  induction fbs with
  | nil => exact ⟨true, rfl, by simp [mappedAt]⟩
  | cons fb fbs ih =>
    rw [emptyBlocks]
    obtain ⟨r, hrun, hiff⟩ := ih
    by_cases hz : mapFileblock d fb = 0
    · rw [mappedAt_zero fbs hz]
      exact ⟨r, by simpa [hz] using hrun, hiff⟩
    · rw [mappedAt_pos fbs hz, List.flatMap_cons]
      simp only [if_neg hz]
      rw [bind_of_some (attempt_run _ s), bdReadBlock_run hr]
      dsimp only
      have hblock := all_dots_iff (s.view (mapFileblock d fb))
      by_cases hall : (dirRecs (s.view (mapFileblock d fb)) 0).all
          (fun off => Dirent.inode (s.view (mapFileblock d fb)) off = 0 ∨
            isDots (s.view (mapFileblock d fb)) off) = true
      · rw [if_pos hall]
        refine ⟨r, hrun, ?_⟩
        rw [hiff]
        simp only [List.mem_append]
        constructor
        · rintro h e (he | he)
          · exact hblock.mp hall e he
          · exact h e he
        · exact fun h e he => h e (Or.inr he)
      · rw [if_neg hall]
        refine ⟨false, rfl, ?_⟩
        simp only [Bool.false_eq_true, false_iff]
        intro h
        exact hall (hblock.mpr fun e he => h e (List.mem_append_left _ he))

theorem dirIsEmpty_run {s : St} (hr : s.ReadsOk) (d : DInode) :
    ∃ r, (dirIsEmpty d).run s = (some r, s) ∧
      (r = true ↔ ∀ e ∈ entsIn s.view d, IsDotName e.1) :=
  emptyBlocks_run hr d _

/-- `dir_add` on the existing blocks: no room anywhere, or the entry goes to a block with
room, or the buffer is full. -/
theorem addBlocks_cases {s : St} (hr : s.ReadsOk) (d : DInode) (name : Name) (child type : ℕ)
    (fbs : List ℕ) :
    (addBlocks d name child type fbs).run s = (some none, s) ∨
    ((addBlocks d name child type fbs).run s).1 = none ∨
    ∃ l₁ b l₂ off s', mappedAt d fbs = l₁ ++ b :: l₂ ∧
      (dirRecs (s.view b) 0).find? (fitsAt (s.view b) (align8 (12 + name.length))) = some off ∧
      (bdWriteBlock b (addAt (s.view b) off child type name)).run s = (some (), s') ∧
      (addBlocks d name child type fbs).run s = (some (some ()), s') := by
  induction fbs with
  | nil => exact Or.inl rfl
  | cons fb fbs ih =>
    rw [addBlocks]
    by_cases hz : mapFileblock d fb = 0
    · rw [mappedAt_zero fbs hz]
      simpa [hz] using ih
    · rw [mappedAt_pos fbs hz]
      simp only [if_neg hz]
      rw [bind_of_some (bdReadBlock_run hr _)]
      cases hfind : (dirRecs (s.view (mapFileblock d fb)) 0).find?
          (fitsAt (s.view (mapFileblock d fb)) (align8 (12 + name.length))) with
      | none =>
        dsimp only
        rcases ih with h | h | ⟨l₁, b, l₂, off, s', hl, h⟩
        · exact Or.inl h
        · exact Or.inr (Or.inl h)
        · exact Or.inr (Or.inr ⟨mapFileblock d fb :: l₁, b, l₂, off, s', by rw [hl]; rfl, h⟩)
      | some off =>
        dsimp only
        rcases hw : (bdWriteBlock (mapFileblock d fb)
            (addAt (s.view (mapFileblock d fb)) off child type name)).run s with ⟨_ | u, s'⟩
        · rw [bind_of_none hw]
          exact Or.inr (Or.inl rfl)
        · rw [bind_of_some hw]
          exact Or.inr (Or.inr ⟨[], mapFileblock d fb, mappedAt d fbs, off, s', rfl, hfind, hw, rfl⟩)

theorem removeBlocks_some {s s' : St} (hr : s.ReadsOk) {d : DInode} {name : Name} {fbs : List ℕ}
    {u : Unit} (h : (removeBlocks d name fbs).run s = (some u, s')) :
    ∃ l₁ b l₂ blk, mappedAt d fbs = l₁ ++ b :: l₂ ∧
      removeFrom (s.view b) name none (dirRecs (s.view b) 0) = some blk ∧
      (bdWriteBlock b blk).run s = (some u, s') := by
  induction fbs with
  | nil => simp [removeBlocks, fail_run] at h
  | cons fb fbs ih =>
    rw [removeBlocks] at h
    by_cases hz : mapFileblock d fb = 0
    · rw [mappedAt_zero fbs hz]
      exact ih (by simpa [hz] using h)
    · rw [mappedAt_pos fbs hz]
      simp only [if_neg hz] at h
      rw [bind_of_some (bdReadBlock_run hr _)] at h
      cases hrem : removeFrom (s.view (mapFileblock d fb)) name none
          (dirRecs (s.view (mapFileblock d fb)) 0) with
      | none =>
        rw [hrem] at h
        obtain ⟨l₁, b, l₂, blk, hl, h⟩ := ih h
        exact ⟨mapFileblock d fb :: l₁, b, l₂, blk, by rw [hl]; rfl, h⟩
      | some blk =>
        rw [hrem] at h
        exact ⟨[], mapFileblock d fb, mappedAt d fbs, blk, rfl, hrem, h⟩

end ComputerOS.Cfs
