import ComputerOS.Fat32.Scan
import ComputerOS.Fat32.Table

/-!
Directory clusters as blocks of slots: what writing one slot, a long name with its short entry,
or deletion marks does to the slots of a cluster, and where the cluster stands in its directory.
-/
namespace ComputerOS.Fat32

open Function

variable {g : Geom} {v : Vol} {cell cell' : Mem} {c i j m : ℕ}

/-- The bytes of a slot that an entry fills. -/
def trim (e : Mem) : Mem := fun j => if j < 32 then e j else 0

theorem slotOf_putSlot (cell : Mem) (i : ℕ) (e : Mem) (j : ℕ) :
    slotOf (putSlot cell i e) j = if j = i then trim e else slotOf cell j := by
  funext k
  unfold slotOf putSlot trim
  by_cases hk : k < 32
  · rw [if_pos hk, show (32 * j + k) / 32 = j by omega, show (32 * j + k) % 32 = k by omega]
    split
    · exact (if_pos hk).symm
    · exact (if_pos hk).symm
  · rw [if_neg hk]
    split
    · exact (if_neg hk).symm
    · exact (if_neg hk).symm

@[simp]
theorem slotOf_zero (cell : Mem) (i : ℕ) : slotOf cell i 0 = cell (32 * i) := by
  rw [slotOf, if_pos (by omega), Nat.add_zero]

theorem attr_slotOf (cell : Mem) (i : ℕ) : attr (slotOf cell i) = (cell (32 * i + 11)).toNat := by
  rw [attr, slotOf, if_pos (by omega)]

/-- Two cells that differ in first bytes of slots only. -/
theorem attr_of_first (h : ∀ j, j % 32 ≠ 0 → cell' j = cell j) (i : ℕ) :
    attr (slotOf cell' i) = attr (slotOf cell i) := by
  rw [attr_slotOf, attr_slotOf, h _ (by omega)]

def block (cell : Mem) (c i m : ℕ) : List Slot := (List.range' i m).map fun j => ⟨c, j, slotOf cell j⟩

theorem slotsIn_eq (g : Geom) (v : Vol) (c : ℕ) :
    slotsIn g v c = block (v.disk (realCluster g c)) c 0 (entriesPerCluster g) := by
  rw [slotsIn, block, List.range_eq_range']

theorem block_append (cell : Mem) (c i m k : ℕ) : block cell c i (m + k) = block cell c i m ++ block
    cell c (i + m) k := by
  unfold block
  rw [← List.map_append, ← List.range'_append]
  simp

theorem block_split (cell : Mem) (c : ℕ) {i m k : ℕ} (h : i + m ≤ k) :
    block cell c 0 k = block cell c 0 i ++ block cell c i m ++ block cell c (i + m) (k - (i + m)) := by
  conv_lhs => rw [show k = i + m + (k - (i + m)) by omega]
  rw [block_append, block_append, Nat.zero_add, Nat.zero_add]

theorem block_congr (h : ∀ j, i ≤ j → j < i + m → slotOf cell' j = slotOf cell j) (c : ℕ) :
    block cell' c i m = block cell c i m := by
  unfold block
  refine List.map_congr_left fun j hj => ?_
  have := List.mem_range'_1.mp hj
  rw [h j this.1 this.2]

theorem mem_block {p : Slot} (h : p ∈ block cell c i m) :
    p.chunk = c ∧ i ≤ p.idx ∧ p.idx < i + m ∧ p.entry = slotOf cell p.idx := by
  unfold block at h
  obtain ⟨j, hj, rfl⟩ := List.mem_map.mp h
  have := List.mem_range'_1.mp hj
  exact ⟨rfl, this.1, this.2, rfl⟩

theorem block_concat (cell : Mem) (c i m : ℕ) :
    block cell c i (m + 1) = block cell c i m ++ [⟨c, i + m, slotOf cell (i + m)⟩] := by
  rw [block_append]
  rfl

/-- The slots of a directory that consists of the given clusters. -/
def slots (g : Geom) (v : Vol) (D : List ℕ) : List Slot := D.flatMap (slotsIn g v)

theorem visits_eq (g : Geom) (v : Vol) (n dir : ℕ) : visits g v n dir = scan [] (slots g v (chain g v n dir)) := rfl

theorem slots_congr {v' : Vol} {D : List ℕ} (h : ∀ c ∈ D, v'.disk (realCluster g c) = v.disk (realCluster g c)) :
    slots g v' D = slots g v D := by
  unfold slots
  induction D with
  | nil => rfl
  | cons c D ih =>
    rw [List.flatMap_cons, List.flatMap_cons, ih fun x hx => h x (List.mem_cons_of_mem _ hx),
      slotsIn_eq, slotsIn_eq, h c List.mem_cons_self]

/-- One cluster of the directory is rewritten. -/
theorem slots_update {D1 D2 : List ℕ} (hnodup : ((D1 ++ c :: D2).map (realCluster g)).Nodup) (cell : Mem) :
    slots g { v with disk := update v.disk (realCluster g c) cell } (D1 ++ c :: D2) =
      slots g v D1 ++ block cell c 0 (entriesPerCluster g) ++ slots g v D2 := by
  rw [List.map_append, List.map_cons, List.nodup_middle, List.nodup_cons, List.mem_append, not_or] at hnodup
  have hother : ∀ D : List ℕ, realCluster g c ∉ D.map (realCluster g) →
      slots g { v with disk := update v.disk (realCluster g c) cell } D = slots g v D := by
    intro D hD
    refine slots_congr fun x hx => ?_
    dsimp only
    rw [update_of_ne]
    intro heq
    exact hD (heq ▸ List.mem_map_of_mem hx)
  have happ : ∀ v : Vol, slots g v (D1 ++ c :: D2) = slots g v D1 ++ slotsIn g v c ++ slots g v D2 := by
    intro v
    unfold slots
    rw [List.flatMap_append, List.flatMap_cons, List.append_assoc]
  rw [happ, hother D1 hnodup.1.1, hother D2 hnodup.1.2, slotsIn_eq]
  dsimp only
  rw [update_self]

theorem slots_split {D1 D2 : List ℕ} (g : Geom) (v : Vol) (c : ℕ) : slots g v (D1 ++ c :: D2) =
    slots g v D1 ++ block (v.disk (realCluster g c)) c 0 (entriesPerCluster g) ++ slots g v D2 := by
  unfold slots
  rw [List.flatMap_append, List.flatMap_cons, List.append_assoc, slotsIn_eq]

theorem mem_slots {p : Slot} {D : List ℕ} (h : p ∈ slots g v D) :
    p.chunk ∈ D ∧ p.idx < entriesPerCluster g ∧ p.entry = slotOf (v.disk (realCluster g p.chunk)) p.idx := by
  unfold slots at h
  obtain ⟨c, hc, hp⟩ := List.mem_flatMap.mp h
  rw [slotsIn_eq] at hp
  obtain ⟨rfl, -, hlt, he⟩ := mem_block hp
  exact ⟨hc, by omega, he⟩

/-- In a cluster of the directory the slots `i .. i + m` change. An entry in none of them is
found as before, when the new slots have no end mark and the last of the old and of the new
ones ends a run of long name entries. -/
theorem mem_scan_update {D : List ℕ} {w : Visit} (hnodup : (D.map (realCluster g)).Nodup) (hc : c ∈ D)
    (hw : w ∈ scan [] (slots g v D)) (him : i + (m + 1) ≤ entriesPerCluster g)
    (hcell : ∀ j, ¬ (i ≤ j ∧ j ≤ i + m) → slotOf cell j = slotOf (v.disk (realCluster g c)) j)
    (hplace : ¬ (w.chunk = c ∧ i ≤ w.idx ∧ w.idx ≤ i + m))
    (hend : ∀ j, i ≤ j → j ≤ i + m → cell (32 * j) ≠ 0)
    (hold : v.disk (realCluster g c) (32 * (i + m)) ≠ 0 → Resets (slotOf (v.disk (realCluster g c)) (i + m)))
    (hnew : Resets (slotOf cell (i + m))) :
    w ∈ scan [] (slots g { v with disk := update v.disk (realCluster g c) cell } D) := by
  obtain ⟨D1, D2, rfl⟩ := List.append_of_mem hc
  rw [slots_update hnodup]
  rw [slots_split g v c] at hw
  rw [block_split _ c him] at hw ⊢
  have hbefore : block cell c 0 i = block (v.disk (realCluster g c)) c 0 i :=
    block_congr (fun j _ hj => hcell j (by omega)) c
  have hafter : ∀ k, block cell c (i + (m + 1)) k = block (v.disk (realCluster g c)) c (i + (m + 1)) k :=
    fun k => block_congr (fun j hj _ => hcell j (by omega)) c
  rw [hbefore, hafter]
  have hregroup : ∀ Y : List Slot,
      slots g v D1 ++ (block (v.disk (realCluster g c)) c 0 i ++ Y ++
        block (v.disk (realCluster g c)) c (i + (m + 1)) (entriesPerCluster g - (i + (m + 1)))) ++ slots g v D2 =
      (slots g v D1 ++ block (v.disk (realCluster g c)) c 0 i) ++ Y ++
        (block (v.disk (realCluster g c)) c (i + (m + 1)) (entriesPerCluster g - (i + (m + 1))) ++ slots g v D2) := by
    intro Y
    simp only [List.append_assoc]
  rw [hregroup] at hw ⊢
  refine mem_scan_replace hw (fun hmem => ?_) (fun hnoend => ?_) (fun p hp => ?_) ?_
  · obtain ⟨h1, h2, h3, -⟩ := mem_block hmem
    exact hplace ⟨h1, h2, by dsimp only at h3; omega⟩
  · refine ⟨_, _, block_concat _ c i m, hold ?_⟩
    have := hnoend ⟨c, i + m, slotOf (v.disk (realCluster g c)) (i + m)⟩ (by rw [block_concat]; simp)
    simpa using this
  · obtain ⟨-, h2, h3, he⟩ := mem_block hp
    rw [he, slotOf_zero]
    exact hend p.idx h2 (by omega)
  · exact ⟨_, _, block_concat _ c i m, hnew⟩

/-- In a cluster of the directory end marks change, and what stands after the first of them. -/
theorem mem_scan_unmark {D : List ℕ} {w : Visit} (hnodup : (D.map (realCluster g)).Nodup) (hc : c ∈ D)
    (hw : w ∈ scan [] (slots g v D))
    (hcell : ∀ j, slotOf cell j = slotOf (v.disk (realCluster g c)) j ∨ v.disk (realCluster g c) (32 * j) = 0) :
    w ∈ scan [] (slots g { v with disk := update v.disk (realCluster g c) cell } D) := by
  obtain ⟨D1, D2, rfl⟩ := List.append_of_mem hc
  rw [slots_update hnodup]
  rw [slots_split g v c] at hw
  refine mem_scan_after_end ?_ hw
  have hrefl : ∀ X : List Slot, List.Forall₂ (fun p p' : Slot => p' = p ∨ p.entry 0 = 0) X X :=
    fun X => List.forall₂_same.mpr fun p _ => Or.inl rfl
  refine List.rel_append (List.rel_append (hrefl _) ?_) (hrefl _)
  unfold block
  rw [List.forall₂_map_left_iff, List.forall₂_map_right_iff, List.forall₂_same]
  intro j _
  rcases hcell j with h | h
  · exact Or.inl (by rw [h])
  · exact Or.inr ((slotOf_zero _ j).trans h)

end ComputerOS.Fat32
