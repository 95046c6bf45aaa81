import ComputerOS.Fat32.Cells

/-!
An entry that the operations on other names leave alone. `Safe` says that a directory still has
the entry and that some clusters, those of the entry's file, are as they were; a step keeps it
when it changes only clusters that are guarded by neither. Clusters that are allocated were
free, and so are not.
-/
namespace ComputerOS.Fat32

open Function Fallible

/-- The entry `w` of directory `dir`, which now has the clusters `D`, and the clusters of `F` are
as they were in `v₀`. -/
structure Safe (g : Geom) (v₀ : Vol) (F : ℕ → Prop) (dir : ℕ) (w : Visit) (D : List ℕ) (v : Vol) : Prop where
  chain : ∀ m, D.length ≤ m → chain g v m dir = D
  nodup : (D.map (realCluster g)).Nodup
  used : ∀ c ∈ D, realCluster g c < g.fatEntries ∧ isFree v (realCluster g c) = false
  file : ∀ x, F x →
    isFree v x = false ∧ getEntry g v x = getEntry g v₀ x ∧ v.disk x = v₀.disk x
  apart : ∀ c ∈ D, ¬ F (realCluster g c)
  seen : w ∈ scan [] (slots g v D)

/-- The clusters that must not change: those of the file and of the directory. -/
def Guarded (g : Geom) (F : ℕ → Prop) (D : List ℕ) (x : ℕ) : Prop :=
  F x ∨ x ∈ D.map (realCluster g)

variable {g : Geom} {v₀ v v' : Vol} {F : ℕ → Prop} {dir n x y c i : ℕ} {w : Visit} {D : List ℕ} {cell : Mem}

namespace Safe

theorem not_guarded (h : Safe g v₀ F dir w D v) (hx : isFree v x = true) : ¬ Guarded g F D x := by
  rintro (hfile | hdir)
  · rw [(h.file x hfile).1] at hx
    cases hx
  · obtain ⟨c, hc, rfl⟩ := List.mem_map.mp hdir
    rw [(h.used c hc).2] at hx
    cases hx

/-- What is not guarded may change. -/
theorem of_unguarded (h : Safe g v₀ F dir w D v) (hfat : ∀ x, Guarded g F D x → v'.fat x = v.fat x)
    (hdisk : ∀ x, Guarded g F D x → v'.disk x = v.disk x) : Safe g v₀ F dir w D v' := by
  have hent : ∀ x, Guarded g F D x → getEntry g v' x = getEntry g v x := by
    intro x hx
    unfold getEntry
    rw [hfat x hx]
  have hfree : ∀ x, Guarded g F D x → isFree v' x = isFree v x := by
    intro x hx
    unfold isFree
    rw [hfat x hx]
  have hdir : ∀ c ∈ D, Guarded g F D (realCluster g c) := fun c hc => Or.inr (List.mem_map_of_mem hc)
  refine ⟨fun m hm => ?_, h.nodup, fun c hc => ?_, fun x hx => ?_, h.apart, ?_⟩
  · have hchain := h.chain m hm
    rw [← hchain]
    refine chain_congr fun c hc => hent _ (hdir c ?_)
    rwa [hchain] at hc
  · rw [hfree _ (hdir c hc)]
    exact h.used c hc
  · rw [hfree x (Or.inl hx), hent x (Or.inl hx), hdisk x (Or.inl hx)]
    exact h.file x hx
  · rw [slots_congr fun c hc => hdisk _ (hdir c hc)]
    exact h.seen

theorem setEntry (h : Safe g v₀ F dir w D v) (hx : ¬ Guarded g F D x) : Safe g v₀ F dir w D (setEntry g x y v) := by
  refine h.of_unguarded (fun z hz => fat_setEntry_ne ?_) fun z _ => by rw [disk_setEntry]
  rintro rfl
  exact hx hz

theorem writeCell (h : Safe g v₀ F dir w D v) (hx : ¬ Guarded g F D x) :
    Safe g v₀ F dir w D { v with disk := update v.disk x cell } := by
  refine h.of_unguarded (fun z _ => rfl) fun z hz => update_of_ne ?_ _ _
  rintro rfl
  exact hx hz

/-- A cluster of the directory is rewritten so that the entry is still found. -/
theorem rewrite (h : Safe g v₀ F dir w D v) (hc : c ∈ D)
    (hseen : w ∈ scan [] (slots g { v with disk := update v.disk (realCluster g c) cell } D)) :
    Safe g v₀ F dir w D { v with disk := update v.disk (realCluster g c) cell } := by
  refine ⟨fun m hm => ?_, h.nodup, h.used, fun x hx => ?_, h.apart, hseen⟩
  · rw [← h.chain m hm]
    exact chain_congr fun _ _ => rfl
  · obtain ⟨hfree, hent, hdisk⟩ := h.file x hx
    refine ⟨hfree, hent, ?_⟩
    dsimp only
    rw [update_of_ne, hdisk]
    rintro rfl
    exact h.apart c hc hx

theorem place (h : Safe g v₀ F dir w D v) : w.entry = slotOf (v.disk (realCluster g w.chunk))
    w.idx ∧ w.entry 0 ≠ 0 ∧ w.entry 0 ≠ 0xE5 ∧ attr w.entry ≠ ATTR_LFN := by
  obtain ⟨hmem, hrest⟩ := mem_scan h.seen
  exact ⟨(mem_slots hmem).2.2, hrest⟩

theorem not_slotFree (h : Safe g v₀ F dir w D v) :
    slotFree (slotOf (v.disk (realCluster g w.chunk)) w.idx) = false := by
  obtain ⟨heq, h0, h1, -⟩ := h.place
  rw [← heq]
  simp [slotFree, h0, h1]

end Safe

theorem resets_of_slotFree {e : Mem} (h : slotFree e = true) (h0 : e 0 ≠ 0) : Resets e := by
  left
  simpa [slotFree, h0] using h

/-- Free slots of a cluster of the directory are filled: the last one with an entry that is no
long name, and none with an end mark. -/
theorem Safe.fill (h : Safe g v₀ F dir w D v) (hc : c ∈ D) {m : ℕ} (him : i + m < entriesPerCluster g)
    (hfree : ∀ j ≤ m, slotFree (slotOf (v.disk (realCluster g c)) (i + j)) = true)
    (hcell : ∀ j, ¬ (i ≤ j ∧ j ≤ i + m) → slotOf cell j = slotOf (v.disk (realCluster g c)) j)
    (hend : ∀ j, i ≤ j → j ≤ i + m → cell (32 * j) ≠ 0) (hlast : Resets (slotOf cell (i + m))) :
    Safe g v₀ F dir w D { v with disk := update v.disk (realCluster g c) cell } := by
  refine h.rewrite hc (mem_scan_update h.nodup hc h.seen (by omega) hcell ?_ hend (fun h0 => ?_) hlast)
  · rintro ⟨hchunk, hlo, hhi⟩
    have hbusy := h.not_slotFree
    rw [hchunk, show w.idx = i + (w.idx - i) by omega, hfree _ (by omega)] at hbusy
    cases hbusy
  · exact resets_of_slotFree (hfree m le_rfl) (by rwa [slotOf_zero])

theorem isEndOfChain_of_lt (hg : g.fatEntries ≤ FAT32_EOC) (hx : x < g.fatEntries) : isEndOfChain x = false := by
  unfold isEndOfChain
  rw [Nat.mod_eq_of_lt (by unfold FAT32_EOC at hg; omega)]
  simp
  omega

theorem realCluster_of_ne (hx : x ≠ 0) : realCluster g x = x := if_neg hx

/-- A free cluster of zeros is linked to the end of the directory. -/
theorem Safe.grow (h : Safe g v₀ F dir w D v) (hg : g.fatEntries ≤ FAT32_EOC) {last : ℕ}
    (hlast : D.getLast? = some last)
    (hx2 : 2 ≤ x) (hxlt : x < g.fatEntries) (hxfree : isFree v x = true) :
    Safe g v₀ F dir w (D ++ [x]) { Fat32.setEntry g x FAT32_EOC (Fat32.setEntry g (realCluster g last) x
      (Fat32.setEntry g x FAT32_EOC v)) with disk := update v.disk x fun _ => 0 } := by
  have hxreal : realCluster g x = x := realCluster_of_ne (by omega)
  have hnot := h.not_guarded hxfree
  have hlastD : last ∈ D := List.mem_of_getLast? hlast
  have hlastused := h.used last hlastD
  have hne : realCluster g last ≠ x := fun heq => hnot (Or.inr (heq ▸ List.mem_map_of_mem hlastD))
  obtain ⟨u, hu⟩ : ∃ u : Vol, { Fat32.setEntry g x FAT32_EOC (Fat32.setEntry g (realCluster g last)
      x (Fat32.setEntry g x FAT32_EOC v)) with disk := update v.disk x fun _ => 0 } = u := ⟨_, rfl⟩
  have hfat : ∀ z, z ≠ x → z ≠ realCluster g last → u.fat z = v.fat z := by
    intro z hz hzl
    rw [← hu]
    dsimp only
    rw [fat_setEntry_ne hz, fat_setEntry_ne hzl, fat_setEntry_ne hz]
  have hlastent : u.fat (realCluster g last) % 2 ^ 28 = x := by
    rw [← hu]
    dsimp only
    rw [fat_setEntry_ne hne, fat_setEntry_self hlastused.1]
    exact Nat.mod_eq_of_lt (by unfold FAT32_EOC at hg; omega)
  have hxent : u.fat x % 2 ^ 28 = FAT32_EOC := by
    rw [← hu]
    dsimp only
    rw [fat_setEntry_self hxlt]
    rfl
  have hdisk : ∀ z, z ≠ x → u.disk z = v.disk z := by
    intro z hz
    rw [← hu]
    exact update_of_ne hz _ _
  have hgetx : getEntry g u x = FAT32_EOC := by
    unfold getEntry
    rw [if_neg (by omega), hxent]
  have hgetlast : getEntry g u (realCluster g last) = x := by
    unfold getEntry
    rw [if_neg (by omega), hlastent]
  have hdirne : ∀ c ∈ D, realCluster g c ≠ x := fun c hc heq => hnot (Or.inr (heq ▸ List.mem_map_of_mem hc))
  have hfilene : ∀ z, F z → z ≠ x ∧ z ≠ realCluster g last := by
    intro z hz
    refine ⟨?_, ?_⟩
    · rintro rfl
      exact hnot (Or.inl hz)
    · rintro rfl
      exact h.apart last hlastD hz
  rw [hu]
  have hD := h.chain D.length le_rfl
  have hDnodup : D.Nodup := List.Nodup.of_map _ h.nodup
  refine ⟨fun m hm => ?_, ?_, fun c hc => ?_, fun z hz => ?_, fun c hc => ?_, ?_⟩
  · have hext := chain_extend (n := D.length) (c := dir) (v := v) (y := x)
      (by rw [h.chain _ (by omega), hD]) (by rw [hD, hlast]) ?_ (by rw [hD]; exact hDnodup) hgetlast
      (isEndOfChain_of_lt hg hxlt) (by rw [hxreal, hgetx]; exact isEndOfChain_eoc) m
      (by rw [List.length_append, List.length_singleton] at hm; omega)
    · rw [hext, hD]
    · intro z hz hzl
      rw [hD] at hz
      have hzl' : realCluster g z ≠ realCluster g last := fun heq =>
        hzl (List.inj_on_of_nodup_map h.nodup hz hlastD heq)
      unfold getEntry
      rw [hfat _ (hdirne z hz) hzl']
  · rw [List.map_append, List.nodup_append]
    refine ⟨h.nodup, by simp, fun a ha b hb => ?_⟩
    obtain ⟨c, hc, rfl⟩ := List.mem_map.mp ha
    rw [List.map_singleton, List.mem_singleton, hxreal] at hb
    rw [hb]
    exact hdirne c hc
  · rcases List.mem_append.mp hc with hc | hc
    · refine ⟨(h.used c hc).1, ?_⟩
      by_cases hcl : realCluster g c = realCluster g last
      · unfold isFree
        rw [hcl, hlastent]
        exact decide_eq_false (by unfold FAT32_FREE; omega)
      · unfold isFree
        rw [hfat _ (hdirne c hc) hcl]
        exact (h.used c hc).2
    · obtain rfl := List.mem_singleton.mp hc
      rw [hxreal]
      refine ⟨hxlt, ?_⟩
      unfold isFree
      rw [hxent]
      rfl
  · obtain ⟨h1, h2⟩ := hfilene z hz
    obtain ⟨hf, he, hd⟩ := h.file z hz
    refine ⟨?_, ?_, by rw [hdisk z h1, hd]⟩
    · unfold isFree at hf ⊢
      rw [hfat z h1 h2]
      exact hf
    · rw [← he]
      unfold getEntry
      rw [hfat z h1 h2]
  · rcases List.mem_append.mp hc with hc | hc
    · exact h.apart c hc
    · obtain rfl := List.mem_singleton.mp hc
      rw [hxreal]
      exact fun hz => (hfilene c hz).1 rfl
  · have happ : slots g u (D ++ [x]) = slots g v D ++ slotsIn g u x := by
      unfold slots
      rw [List.flatMap_append, List.flatMap_singleton]
      congr 1
      exact slots_congr fun c hc => hdisk _ (hdirne c hc)
    rw [happ]
    exact mem_scan_append h.seen _

end ComputerOS.Fat32
