import ComputerOS.Fat32.Cells

/-!
Chains of clusters that end in an end mark. A chain is the only one from its first cluster, it
has no cluster twice, and walking, freeing and extending it are exact.
-/
namespace ComputerOS.Fat32

open Function

/-- The mark of a cluster that is not to be used. -/
def FAT32_BAD : ℕ := 0x0FFFFFF7

/-- What the format promises of the geometry: the table has an entry for every cluster, and no
cluster has the number of a mark. -/
structure Geom.Ok (g : Geom) : Prop where
  covers : g.totalClusters + 2 ≤ g.fatEntries
  size : g.fatEntries ≤ FAT32_EOC
  marks : g.totalClusters + 2 ≤ FAT32_BAD
  room : 512 ≤ g.bytesPerCluster

def DataCluster (g : Geom) (c : ℕ) : Prop := 2 ≤ c ∧ c < g.totalClusters + 2

/-- From the table entry `s` on, the chain has the clusters `L` and then an end mark. -/
def Linked (g : Geom) (v : Vol) : ℕ → List ℕ → Prop
  | s, [] => isEndOfChain s = true
  | s, c :: L => s = c ∧ DataCluster g c ∧ Linked g v (getEntry g v c) L

variable {g : Geom} {v v' : Vol} {s c x y n m : ℕ} {L L' : List ℕ}

theorem DataCluster.lt (hg : g.Ok) (hc : DataCluster g c) : c < g.fatEntries := hc.2.trans_le hg.covers

theorem DataCluster.not_end (hg : g.Ok) (hc : DataCluster g c) : isEndOfChain c = false := by
  have := hc.2
  have := hg.marks
  unfold isEndOfChain
  rw [Nat.mod_eq_of_lt (by unfold FAT32_BAD at *; omega)]
  exact decide_eq_false (by unfold FAT32_EOC FAT32_BAD at *; omega)

theorem DataCluster.real (hc : DataCluster g c) : realCluster g c = c := if_neg (by have := hc.1; omega)

namespace Linked

theorem data (h : Linked g v s L) : ∀ c ∈ L, DataCluster g c := by
  induction L generalizing s with
  | nil => exact fun c hc => by cases hc
  | cons d L ih =>
    intro c hc
    rcases List.mem_cons.mp hc with rfl | hc
    · exact h.2.1
    · exact ih h.2.2 c hc

/-- Two chains from one entry are equal. -/
theorem unique (hg : g.Ok) (h : Linked g v s L) (h' : Linked g v s L') : L = L' := by
  induction L generalizing s L' with
  | nil =>
    cases L' with
    | nil => rfl
    | cons c L' =>
      have hnot := h'.2.1.not_end hg
      rw [← h'.1] at hnot
      rw [Linked, hnot] at h
      cases h
  | cons c L ih =>
    cases L' with
    | nil =>
      have hnot := h.2.1.not_end hg
      rw [← h.1] at hnot
      rw [Linked, hnot] at h'
      cases h'
    | cons d L' =>
      obtain rfl : c = d := h.1.symm.trans h'.1
      rw [ih h.2.2 h'.2.2]

/-- From a cluster of a chain on, the rest of it is a chain. -/
theorem suffix {A B : List ℕ} (h : Linked g v s (A ++ c :: B)) : Linked g v c (c :: B) := by
  induction A generalizing s with
  | nil =>
    rw [List.nil_append] at h
    exact ⟨rfl, h.2⟩
  | cons d A ih => exact ih h.2.2

theorem nodup (hg : g.Ok) (h : Linked g v s L) : L.Nodup := by
  induction L generalizing s with
  | nil => exact List.nodup_nil
  | cons c L ih =>
    refine List.nodup_cons.mpr ⟨fun hc => ?_, ih h.2.2⟩
    obtain ⟨A, B, rfl⟩ := List.append_of_mem hc
    -- the rest after the second time would be the rest after the first
    have hself : Linked g v c (c :: (A ++ c :: B)) := ⟨rfl, h.2⟩
    have hrest : Linked g v c (c :: B) := h.2.2.suffix
    have := congrArg List.length (hself.unique hg hrest)
    simp only [List.length_cons, List.length_append] at this
    omega

theorem length_le (hg : g.Ok) (h : Linked g v s L) : L.length ≤ g.totalClusters := by
  have hsub : L ⊆ List.range' 2 g.totalClusters := fun c hc => by
    have := h.data c hc
    exact List.mem_range'_1.mpr ⟨this.1, by have := this.2; omega⟩
  have := (List.subperm_of_subset (h.nodup hg) hsub).length_le
  rwa [List.length_range'] at this

theorem congr (h : Linked g v s L) (hv : ∀ c ∈ L, getEntry g v' c = getEntry g v c) : Linked g v' s L := by
  induction L generalizing s with
  | nil => exact h
  | cons c L ih =>
    refine ⟨h.1, h.2.1, ?_⟩
    rw [hv c List.mem_cons_self]
    exact ih h.2.2 fun x hx => hv x (List.mem_cons_of_mem _ hx)

/-- The entry of a cluster of a chain is another cluster or an end mark. -/
theorem entry (h : Linked g v s L) (hc : c ∈ L) :
    DataCluster g (getEntry g v c) ∨ isEndOfChain (getEntry g v c) = true := by
  obtain ⟨A, B, rfl⟩ := List.append_of_mem hc
  cases B with
  | nil => exact Or.inr h.suffix.2.2
  | cons d B =>
    have hd := h.suffix.2.2
    rw [hd.1]
    exact Or.inl hd.2.1

theorem getEntry_ne (hg : g.Ok) (h : Linked g v s L) (hc : c ∈ L) :
    getEntry g v c ≠ FAT32_FREE ∧ getEntry g v c ≠ FAT32_BAD := by
  rcases h.entry hc with hd | hend
  · have h1 := hd.1
    have h2 := hd.2
    have := hg.marks
    unfold FAT32_FREE
    omega
  · have := eoc_le_of_isEndOfChain hend
    unfold FAT32_EOC at this
    unfold FAT32_FREE FAT32_BAD
    omega

/-- The first part of a chain with another end. -/
theorem append (h : Linked g v s (L ++ [c])) (hL : ∀ x ∈ L, getEntry g v' x = getEntry g v x)
    (hc : getEntry g v' c = y) (hy : Linked g v' y L') : Linked g v' s (L ++ c :: L') := by
  induction L generalizing s with
  | nil => exact ⟨h.1, h.2.1, by rw [hc]; exact hy⟩
  | cons d L ih =>
    refine ⟨h.1, h.2.1, ?_⟩
    rw [hL d List.mem_cons_self]
    exact ih h.2.2 fun x hx => hL x (List.mem_cons_of_mem _ hx)

end Linked

theorem getEntry_of_lt (hc : c < g.fatEntries) : getEntry g v c = v.fat c % 2 ^ 28 := if_neg (by omega)

theorem isFree_eq (hc : c < g.fatEntries) : isFree v c = true ↔ getEntry g v c = FAT32_FREE := by
  rw [getEntry_of_lt hc, isFree, decide_eq_true_iff]

theorem Linked.not_free (hg : g.Ok) (h : Linked g v s L) (hc : c ∈ L) : isFree v c = false := by
  rw [Bool.eq_false_iff]
  intro hfree
  exact (h.getEntry_ne hg hc).1 ((isFree_eq ((h.data c hc).lt hg)).mp hfree)

/-- The clusters of a directory, of which the root's first is 0. -/
theorem chain_of_linked (hg : g.Ok) {d : ℕ} (h : Linked g v (realCluster g d) (realCluster g d :: L))
    (hn : L.length < n) : chain g v n d = d :: L := by
  induction L generalizing d n with
  | nil =>
    obtain ⟨n, rfl⟩ : ∃ k, n = k + 1 := ⟨n - 1, by omega⟩
    have hend : isEndOfChain (getEntry g v (realCluster g d)) = true := h.2.2
    rw [chain_succ, if_pos hend]
  | cons c L ih =>
    rw [List.length_cons] at hn
    obtain ⟨n, rfl⟩ : ∃ k, n = k + 1 := ⟨n - 1, by omega⟩
    obtain ⟨heq, hdata, hrest⟩ := h.2.2
    rw [chain_succ, heq, if_neg (by rw [hdata.not_end hg]; decide), ih _ (by omega)]
    rw [hdata.real]
    exact ⟨rfl, hdata, hrest⟩

theorem map_real_of_linked (h : Linked g v s (s :: L)) {d : ℕ} (hd : realCluster g d = s) :
    (d :: L).map (realCluster g) = s :: L := by
  rw [List.map_cons, hd]
  congr 1
  rw [List.map_congr_left fun x hx => (h.data x (List.mem_cons_of_mem _ hx)).real, List.map_id']

theorem fat_setEntry_free (hc : c < g.fatEntries) : isFree (setEntry g c FAT32_FREE v) c = true := by
  rw [isFree_eq hc, getEntry_setEntry_self hc]
  rfl

theorem copies_setEntry (g : Geom) (c y : ℕ) (v : Vol) : (setEntry g c y v).copies = v.copies := by
  unfold setEntry
  split <;> rfl

/-- Freeing a chain frees its clusters and leaves the other ones. -/
theorem freeLoop_linked (hg : g.Ok) (h : Linked g v s L) (hm : L.length ≤ m) :
    (∀ x ∈ L, isFree (freeLoop g m s v) x = true) ∧ (∀ x ∉ L, (freeLoop g m s v).fat x = v.fat x) ∧
      (freeLoop g m s v).disk = v.disk ∧ (freeLoop g m s v).copies = v.copies := by
  induction L generalizing s m v with
  | nil =>
    have hend : isEndOfChain s = true := h
    have hle := eoc_le_of_isEndOfChain hend
    have hloop : freeLoop g m s v = v := by
      cases m <;>
      · rw [freeLoop, if_neg (by rw [hend]; simp)]
        split
        · exact setEntry_of_le (hg.size.trans hle)
        · rfl
    rw [hloop]
    exact ⟨fun x hx => (by cases hx), fun x _ => rfl, rfl, rfl⟩
  | cons c L ih =>
    rw [List.length_cons] at hm
    obtain ⟨m, rfl⟩ : ∃ k, m = k + 1 := ⟨m - 1, by omega⟩
    have hnodup := h.nodup hg
    obtain ⟨rfl, hdata, hrest⟩ := h
    have hnot : s ∉ L := (List.nodup_cons.mp hnodup).1
    have hrest' : Linked g (setEntry g s FAT32_FREE v) (getEntry g v s) L :=
      hrest.congr fun x hx => getEntry_setEntry_ne fun heq => hnot (heq ▸ hx)
    rw [freeLoop, if_pos ⟨hdata.1, hdata.not_end hg⟩]
    obtain ⟨hfree, hfat, hdisk, hcopies⟩ := ih hrest' (m := m) (by omega)
    refine ⟨fun x hx => ?_, fun x hx => ?_, by rw [hdisk, disk_setEntry], by rw [hcopies, copies_setEntry]⟩
    · rcases List.mem_cons.mp hx with rfl | hx
      · unfold isFree
        rw [hfat x hnot]
        exact fat_setEntry_free (hdata.lt hg)
      · exact hfree x hx
    · rw [List.mem_cons, not_or] at hx
      rw [hfat x hx.2, fat_setEntry_ne hx.1]

/-- The clusters `L` hold the bytes of `data` one after another. -/
def Stored (g : Geom) (v : Vol) : List ℕ → Str → Prop
  | [], data => data = []
  | c :: L, data =>
    data ≠ [] ∧ v.disk c = cellOf (data.take g.bytesPerCluster) ∧
      Stored g v L (data.drop g.bytesPerCluster)

theorem Stored.congr {data : Str} (h : Stored g v L data) (hv : ∀ c ∈ L, v'.disk c = v.disk c) :
    Stored g v' L data := by
  induction L generalizing data with
  | nil => exact h
  | cons c L ih =>
    refine ⟨h.1, ?_, ih h.2.2 fun x hx => hv x (List.mem_cons_of_mem _ hx)⟩
    rw [hv c List.mem_cons_self, h.2.1]

theorem map_cellOf {data : Str} (hm : m ≤ data.length) : (List.range m).map (cellOf data) = data.take m := by
  refine List.ext_getElem (by simp [hm]) fun i h1 h2 => ?_
  rw [List.length_take] at h2
  simp [cellOf, List.getElem?_eq_getElem (show i < data.length by omega)]

/-- Reading the clusters of a file gives the bytes that they hold. -/
theorem readLoop_stored (hg : g.Ok) {data : Str} (h : Stored g v L data) (hL : Linked g v s L ∨ L = []) {fuel : ℕ}
    (hfuel : data.length ≤ fuel) : readLoop g v fuel s data.length = data := by
  induction L generalizing s data fuel with
  | nil =>
    have hnil : data = [] := h
    subst hnil
    cases fuel with
    | zero => rfl
    | succ fuel =>
      rw [readLoop, if_neg (by simp)]
  | cons c L ih =>
    obtain ⟨rfl, hdata, hrest⟩ := hL.resolve_right (List.cons_ne_nil _ _)
    obtain ⟨hne, hdisk, hstored⟩ := h
    have hpos : 0 < data.length := List.length_pos_iff.mpr hne
    have hroom := hg.room
    obtain ⟨fuel, rfl⟩ : ∃ k, fuel = k + 1 := ⟨fuel - 1, by omega⟩
    rw [readLoop, if_pos ⟨hpos, hdata.1, hdata.not_end hg⟩, hdisk]
    have hlen : data.length - min data.length g.bytesPerCluster = (data.drop g.bytesPerCluster).length := by
      rw [List.length_drop]
      omega
    have htake : (List.range (min data.length g.bytesPerCluster)).map
        (cellOf (data.take g.bytesPerCluster)) = data.take g.bytesPerCluster := by
      rw [map_cellOf (by rw [List.length_take]; omega), List.take_of_length_le (by rw [List.length_take]; omega)]
    rw [htake, hlen, ih hstored (Or.inl hrest) (by rw [List.length_drop]; omega), List.take_append_drop]

end ComputerOS.Fat32
