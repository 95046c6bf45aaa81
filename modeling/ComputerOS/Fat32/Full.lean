import ComputerOS.Fat32.Keeps
import ComputerOS.Fat32.Tree

/-!
The steps of the operations when the heap has enough room: what they return and the volume that
they leave.
-/
namespace ComputerOS.Fat32

open Function Fallible

/-- A state whose heap never refuses. -/
def full (v : Vol) (cwd : ℕ) : St := ⟨v, cwd, fun _ => true⟩

def NoSpare (g : Geom) (v : Vol) : Prop := ∀ c, g.totalClusters + 2 ≤ c → c < g.fatEntries → isFree v c = false

/-- The first free entry of the table, if there is one, stands for a cluster. -/
def Allots (g : Geom) (v : Vol) : Prop :=
  ∀ c, (List.range' 2 (g.fatEntries - 2)).find? (isFree v) = some c → DataCluster g c

variable {g : Geom} {v v' : Vol} {n cwd d c i fuel first last f : ℕ} {data : Str} {L : List ℕ} {s : St}

@[simp]
theorem lookup_full (find : Vol → Option Visit) : (lookup find).run (full v cwd) = (some (find v), full v cwd) := rfl

@[simp]
theorem needBuf_full : needBuf.run (full v cwd) = (some (), full v cwd) := rfl

@[simp]
theorem getVol_full : getVol.run (full v cwd) = (some v, full v cwd) := rfl

@[simp]
theorem setVol_full (f : Vol → Vol) : (setVol f).run (full v cwd) = (some (), full (f v) cwd) := rfl

/-- An allocated cluster is one of the volume's. -/
theorem NoSpare.allots (h : NoSpare g v) : Allots g v := by
  intro c hfind
  have hmem := List.mem_range'_1.mp (List.mem_of_find?_eq_some hfind)
  refine ⟨hmem.1, ?_⟩
  by_contra hge
  have hused := h c (by omega) (by omega)
  rw [List.find?_some hfind] at hused
  cases hused

theorem allocCluster_full (hspare : Allots g v) (h : (allocCluster g).run (full v cwd) = (some (some c), s)) :
    DataCluster g c ∧ c < g.fatEntries ∧ isFree v c = true ∧ s = full (setEntry g c FAT32_EOC v) cwd := by
  rw [allocCluster_eq] at h
  cases hfind : (List.range' 2 (g.fatEntries - 2)).find? (isFree (full v cwd).vol) with
  | none =>
    rw [hfind] at h
    cases h
  | some c' =>
    rw [hfind] at h
    obtain ⟨hc, hs⟩ := Prod.mk.inj h
    obtain rfl := Option.some.inj (Option.some.inj hc)
    have hmem := List.mem_range'_1.mp (List.mem_of_find?_eq_some hfind)
    exact ⟨hspare c' hfind, by omega, List.find?_some hfind, hs.symm⟩

theorem NoSpare.congr (h : NoSpare g v) (hfat : ∀ c, g.totalClusters + 2 ≤ c → v'.fat c = v.fat c) : NoSpare g v' := by
  intro c h1 h2
  unfold isFree
  rw [hfat c h1]
  exact h c h1 h2

theorem stored_length (hg : g.Ok) (h : Stored g v L data) : L.length = clustersFor g data.length := by
  have hroom := hg.room
  unfold clustersFor
  induction L generalizing data with
  | nil =>
    have hnil : data = [] := h
    rw [hnil, List.length_nil, List.length_nil, Nat.zero_add, Nat.div_eq_of_lt (by omega)]
  | cons c L ih =>
    have hpos : 0 < data.length := List.length_pos_iff.mpr h.1
    rw [List.length_cons, ih h.2.2, List.length_drop]
    by_cases hle : g.bytesPerCluster ≤ data.length
    · rw [show data.length + g.bytesPerCluster - 1 =
        data.length - g.bytesPerCluster + g.bytesPerCluster - 1 + g.bytesPerCluster by omega,
        Nat.add_div_right _ (by omega)]
    · rw [show data.length - g.bytesPerCluster + g.bytesPerCluster - 1 = g.bytesPerCluster - 1 by omega,
        Nat.div_eq_of_lt (by omega), show data.length + g.bytesPerCluster - 1 =
        data.length - 1 + g.bytesPerCluster by omega, Nat.add_div_right _ (by omega), Nat.div_eq_of_lt (by omega)]

/-- What writing the clusters of a file leaves: they were free, hold the data and are linked, from
`last` on if there was a cluster before. -/
structure Wrote (g : Geom) (v v' : Vol) (first last f : ℕ) (N : List ℕ) (data : Str) : Prop where
  fresh : ∀ c ∈ N, DataCluster g c ∧ isFree v c = true
  table : ∀ x ∉ N, first = 0 ∨ x ≠ last → v'.fat x = v.fat x
  cells : ∀ x ∉ N, v'.disk x = v.disk x
  copies : v'.copies = v.copies
  stored : Stored g v' N data
  none : N = [] → v' = v ∧ f = first
  begin : N ≠ [] → first = 0 → Linked g v' f N
  link : N ≠ [] → first ≠ 0 → f = first ∧ Linked g v' (getEntry g v' last) N

theorem writeLoop_first (hdata : data ≠ [])
    (halloc : (allocCluster g).run (full v cwd) = (some (some c), full v' cwd)) :
    (writeLoop g (fuel + 1) data 0 last).run (full v cwd) =
      (writeLoop g fuel (data.drop g.bytesPerCluster) c c).run
        (full { setEntry g c FAT32_EOC v' with
          disk := update (setEntry g c FAT32_EOC v').disk c (cellOf (data.take g.bytesPerCluster)) } cwd) := by
  rw [writeLoop, if_neg hdata, bind_of_some halloc]
  dsimp only
  rw [if_neg (by simp), bind_of_some (setVol_full _), writeCluster, bind_of_some (setVol_full _), if_pos rfl]

theorem writeLoop_next (hdata : data ≠ []) (hf : first ≠ 0)
    (halloc : (allocCluster g).run (full v cwd) = (some (some c), full v' cwd)) :
    (writeLoop g (fuel + 1) data first last).run (full v cwd) =
      (writeLoop g fuel (data.drop g.bytesPerCluster) first c).run
        (full { setEntry g c FAT32_EOC (setEntry g last c v') with
          disk := update (setEntry g c FAT32_EOC (setEntry g last c v')).disk c
            (cellOf (data.take g.bytesPerCluster)) } cwd) := by
  rw [writeLoop, if_neg hdata, bind_of_some halloc]
  dsimp only
  rw [if_pos hf, bind_of_some (setVol_full _), bind_of_some (setVol_full _), writeCluster,
    bind_of_some (setVol_full _), if_neg hf]

theorem writeLoop_full (hg : g.Ok) (hspare : NoSpare g v) (hfuel : data.length ≤ fuel)
    (hlast : first ≠ 0 → DataCluster g last ∧ isFree v last = false)
    (h : (writeLoop g fuel data first last).run (full v cwd) = (some f, s)) :
    ∃ N v', s = full v' cwd ∧ Wrote g v v' first last f N data := by
  induction fuel generalizing v data first last with
  | zero =>
    have hnil : data = [] := List.length_eq_zero_iff.mp (by omega)
    obtain ⟨hf, rfl⟩ := Prod.mk.inj h
    obtain rfl := Option.some.inj hf
    refine ⟨[], v, rfl, fun c hc => (by cases hc), fun _ _ _ => rfl, fun _ _ => rfl, rfl, hnil,
      fun _ => ⟨rfl, rfl⟩, fun hne => absurd rfl hne, fun hne => absurd rfl hne⟩
  | succ fuel ih =>
    by_cases hnil : data = []
    · rw [writeLoop, if_pos hnil] at h
      obtain ⟨hf, rfl⟩ := Prod.mk.inj h
      obtain rfl := Option.some.inj hf
      exact ⟨[], v, rfl, fun c hc => (by cases hc), fun _ _ _ => rfl, fun _ _ => rfl, rfl, hnil,
        fun _ => ⟨rfl, rfl⟩, fun hne => absurd rfl hne, fun hne => absurd rfl hne⟩
    have hpos : 0 < data.length := List.length_pos_iff.mpr hnil
    have hroom := hg.room
    rcases halloc : (allocCluster g).run (full v cwd) with ⟨_ | _ | c, s1⟩
    · rw [writeLoop, if_neg hnil, bind_run, halloc] at h
      cases h
    · rw [writeLoop, if_neg hnil, bind_run, halloc] at h
      cases h
    obtain ⟨hdata, hlt, hfree, rfl⟩ := allocCluster_full hspare.allots halloc
    -- the volume after the cluster has been linked and written
    obtain ⟨V, hV⟩ : ∃ V, V = setEntry g c FAT32_EOC (if first = 0 then setEntry g c FAT32_EOC v
        else setEntry g last c (setEntry g c FAT32_EOC v)) := ⟨_, rfl⟩
    obtain ⟨u, hu⟩ : ∃ u : Vol, u = { V with disk := update V.disk c (cellOf
      (data.take g.bytesPerCluster)) } := ⟨_, rfl⟩
    have hrest : (writeLoop g fuel (data.drop g.bytesPerCluster) (if first = 0 then c else first)
        c).run (full u cwd) = (some f, s) := by
      by_cases hf : first = 0
      · rw [if_pos hf] at hV ⊢
        rw [hf, writeLoop_first hnil halloc] at h
        rw [hu, hV, ← h]
      · rw [if_neg hf] at hV ⊢
        rw [writeLoop_next hnil hf halloc] at h
        rw [hu, hV, ← h]
    have hVdisk : V.disk = v.disk := by
      rw [hV, disk_setEntry]
      split <;> simp only [disk_setEntry]
    have hVcopies : V.copies = v.copies := by
      rw [hV, copies_setEntry]
      split <;> simp only [copies_setEntry]
    have hufat : ∀ x, x ≠ c → first = 0 ∨ x ≠ last → u.fat x = v.fat x := by
      intro x hx hxl
      rw [hu]
      dsimp only
      rw [hV, fat_setEntry_ne hx]
      split
      · rw [fat_setEntry_ne hx]
      · rename_i hf
        rw [fat_setEntry_ne (hxl.resolve_left hf), fat_setEntry_ne hx]
    have huc : getEntry g u c = FAT32_EOC := by
      rw [hu]
      unfold getEntry
      rw [if_neg (by omega)]
      dsimp only
      rw [hV, fat_setEntry_self hlt]
      rfl
    have husedc : isFree u c = false := by
      rw [Bool.eq_false_iff]
      intro hcon
      rw [isFree_eq hlt, huc] at hcon
      exact absurd hcon (by decide)
    have hulast : first ≠ 0 → last ≠ c ∧ getEntry g u last = c := by
      intro hf
      obtain ⟨hld, hlused⟩ := hlast hf
      have hne : last ≠ c := by
        rintro rfl
        rw [show isFree v last = true from hfree] at hlused
        cases hlused
      refine ⟨hne, ?_⟩
      rw [hu, getEntry_of_lt (hld.lt hg)]
      dsimp only
      rw [hV, if_neg hf, fat_setEntry_ne hne, fat_setEntry_self (hld.lt hg)]
      have h1 := hdata.2
      have h2 := hg.marks
      exact Nat.mod_eq_of_lt (by unfold FAT32_BAD at h2; omega)
    have huspare : NoSpare g u := by
      refine hspare.congr fun x hx => hufat x (by have := hdata.2; omega) ?_
      by_cases hf : first = 0
      · exact Or.inl hf
      · exact Or.inr (by have := (hlast hf).1.2; omega)
    have hfirst : (if first = 0 then c else first) ≠ 0 := by
      have := hdata.1
      split <;> omega
    obtain ⟨N, v', hs, hw⟩ := ih huspare (by rw [List.length_drop]; omega) (fun _ => ⟨hdata, husedc⟩) hrest
    have hcN : c ∉ N := fun hc => by
      have := (hw.fresh c hc).2
      rw [husedc] at this
      cases this
    have hlastN : first ≠ 0 → last ∉ N := by
      intro hf hl
      have hfreel := (hw.fresh last hl).2
      rw [isFree_eq ((hlast hf).1.lt hg), (hulast hf).2] at hfreel
      have := hdata.1
      unfold FAT32_FREE at hfreel
      omega
    have hlinked : Linked g v' c (c :: N) := by
      refine ⟨rfl, hdata, ?_⟩
      by_cases hN : N = []
      · rw [hN, (hw.none hN).1, huc]
        exact isEndOfChain_eoc
      · exact (hw.link hN hfirst).2
    have hret : f = if first = 0 then c else first := by
      by_cases hN : N = []
      · exact (hw.none hN).2
      · exact (hw.link hN hfirst).1
    refine ⟨c :: N, v', hs, fun x hx => ?_, fun x hx hxl => ?_, fun x hx => ?_, ?_, ⟨hnil, ?_, hw.stored⟩,
      fun hcon => absurd hcon (List.cons_ne_nil _ _), fun _ hf => ?_, fun _ hf => ?_⟩
    · rcases List.mem_cons.mp hx with rfl | hx
      · exact ⟨hdata, hfree⟩
      · obtain ⟨hxd, hxfree⟩ := hw.fresh x hx
        refine ⟨hxd, ?_⟩
        have hxc : x ≠ c := fun heq => hcN (heq ▸ hx)
        have hxl : first = 0 ∨ x ≠ last := by
          by_cases hf : first = 0
          · exact Or.inl hf
          · exact Or.inr fun heq => hlastN hf (heq ▸ hx)
        unfold isFree at hxfree ⊢
        rwa [hufat x hxc hxl] at hxfree
    · rw [List.mem_cons, not_or] at hx
      rw [hw.table x hx.2 (Or.inr hx.1), hufat x hx.1 hxl]
    · rw [List.mem_cons, not_or] at hx
      rw [hw.cells x hx.2, hu]
      dsimp only
      rw [update_of_ne hx.1, hVdisk]
    · rw [hw.copies, hu]
      exact hVcopies
    · rw [hw.cells c hcN, hu]
      exact update_self _ _ _
    · rw [hret, if_pos hf]
      exact hlinked
    · rw [hret, if_neg hf]
      have hsame : getEntry g v' last = c := by
        rw [← (hulast hf).2]
        unfold getEntry
        rw [hw.table last (hlastN hf) (Or.inr (hulast hf).1)]
      rw [hsame]
      exact ⟨rfl, hlinked⟩

end ComputerOS.Fat32
