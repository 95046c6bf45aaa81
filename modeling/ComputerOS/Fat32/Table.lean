import ComputerOS.Fat32.Ops

/-!
The cached table: what one changed entry does to chains, which clusters a file's chain has, and
which ones freeing it touches.
-/
namespace ComputerOS.Fat32

open Function

variable {g : Geom} {v v' : Vol} {c x y n m : ℕ}

@[simp]
theorem disk_setEntry (g : Geom) (c y : ℕ) (v : Vol) : (setEntry g c y v).disk = v.disk := by
  unfold setEntry
  split <;> rfl

theorem fat_setEntry_ne (hx : x ≠ c) : (setEntry g c y v).fat x = v.fat x := by
  unfold setEntry
  split
  · rfl
  · exact update_of_ne hx _ _

theorem getEntry_setEntry_ne (hx : x ≠ c) : getEntry g (setEntry g c y v) x = getEntry g v x := by
  unfold getEntry
  rw [fat_setEntry_ne hx]

theorem fat_setEntry_self (hc : c < g.fatEntries) : (setEntry g c y v).fat c % 2 ^ 28 = y % 2 ^ 28 := by
  unfold setEntry
  rw [if_neg (by omega)]
  dsimp only
  rw [update_self]
  omega

theorem getEntry_setEntry_self (hc : c < g.fatEntries) : getEntry g (setEntry g c y v) c = y % 2 ^ 28 := by
  unfold getEntry
  rw [if_neg (by omega), fat_setEntry_self hc]

theorem setEntry_of_le (hc : g.fatEntries ≤ c) : setEntry g c y v = v := if_pos hc

theorem chain_succ (g : Geom) (v : Vol) (n c : ℕ) : chain g v (n + 1) c =
    c :: if isEndOfChain (getEntry g v (realCluster g c)) then [] else chain g v n
    (getEntry g v (realCluster g c)) := rfl

theorem chain_congr (h : ∀ x ∈ chain g v n c, getEntry g v' (realCluster g x) = getEntry g v (realCluster g x)) :
    chain g v' n c = chain g v n c := by
  induction n generalizing c with
  | zero => rfl
  | succ n ih =>
    have hc := h c (by rw [chain_succ]; exact List.mem_cons_self)
    rw [chain_succ, chain_succ, hc]
    by_cases hend : isEndOfChain (getEntry g v (realCluster g c)) = true
    · rw [if_pos hend, if_pos hend]
    · rw [if_neg hend, if_neg hend, ih]
      intro x hx
      exact h x (by rw [chain_succ, if_neg hend]; exact List.mem_cons_of_mem _ hx)

theorem chain_ne_nil (hn : n ≠ 0) : chain g v n c ≠ [] := by
  cases n with
  | zero => exact absurd rfl hn
  | succ n =>
    rw [chain]
    exact List.cons_ne_nil _ _

theorem isEndOfChain_eoc : isEndOfChain FAT32_EOC = true := by decide

theorem chain_extend (hend : chain g v (n + 1) c = chain g v n c) {last : ℕ}
    (hlast : (chain g v n c).getLast? = some last)
    (hold : ∀ x ∈ chain g v n c, x ≠ last → getEntry g v' (realCluster g x) = getEntry g v (realCluster g x))
    (hnodup : (chain g v n c).Nodup) (hlink : getEntry g v' (realCluster g last) = y)
    (hy : isEndOfChain y = false) (hnew : isEndOfChain (getEntry g v' (realCluster g y)) = true) :
    ∀ m, n < m → chain g v' m c = chain g v n c ++ [y] := by
  induction n generalizing c with
  | zero => cases hlast
  | succ n ih =>
    intro m hm
    obtain ⟨m, rfl⟩ : ∃ k, m = k + 2 := ⟨m - 2, by omega⟩
    rw [chain_succ g v (n + 1) c, chain_succ g v n c] at hend
    rw [chain_succ] at hlast hold hnodup
    rw [chain_succ g v' (m + 1) c, chain_succ g v n c]
    by_cases heoc : isEndOfChain (getEntry g v (realCluster g c)) = true
    · rw [if_pos heoc] at hlast ⊢
      obtain rfl : c = last := by simpa using hlast
      rw [hlink, if_neg (by simp [hy]), chain_succ, if_pos hnew]
      rfl
    · rw [if_neg heoc] at hlast hold hnodup ⊢
      rw [if_neg heoc, if_neg heoc] at hend
      have hne : chain g v n (getEntry g v (realCluster g c)) ≠ [] := by
        intro hnil
        have htail := (List.cons.inj hend).2
        rw [hnil] at htail
        exact chain_ne_nil (by omega) htail
      rw [List.getLast?_cons_of_ne_nil hne] at hlast
      obtain ⟨hnot, hnodup'⟩ := List.nodup_cons.mp hnodup
      have hcne : c ≠ last := by
        rintro rfl
        exact hnot (List.mem_of_getLast? hlast)
      rw [hold c List.mem_cons_self hcne, if_neg heoc, List.cons_append,
        ih (List.cons.inj hend).2 hlast (fun x hx => hold x (List.mem_cons_of_mem _ hx)) hnodup' (m + 1) (by omega)]

/-- The clusters of a file, as reading and freeing follow them. -/
def follow (g : Geom) (v : Vol) : ℕ → ℕ → List ℕ
  | 0, _ => []
  | n + 1, c => if 2 ≤ c ∧ isEndOfChain c = false then c :: follow g v n (getEntry g v c) else []

/-- Cluster `x` is in the file that begins at `c`. -/
def Reach (g : Geom) (v : Vol) (c x : ℕ) : Prop := ∃ n, x ∈ follow g v n c

theorem Reach.self (h2 : 2 ≤ c) (hc : isEndOfChain c = false) : Reach g v c c :=
  ⟨1, by rw [follow, if_pos ⟨h2, hc⟩]; exact List.mem_cons_self⟩

theorem Reach.step (h2 : 2 ≤ c) (hc : isEndOfChain c = false) (h : Reach g v (getEntry g v c) x) : Reach g v c x := by
  obtain ⟨n, hn⟩ := h
  exact ⟨n + 1, by rw [follow, if_pos ⟨h2, hc⟩]; exact List.mem_cons_of_mem _ hn⟩

/-- What is read depends on the clusters of the file only. -/
theorem readLoop_congr {r : ℕ} (h : ∀ x, Reach g v c x → getEntry g v' x = getEntry g v x ∧ v'.disk x = v.disk x) :
    readLoop g v' n c r = readLoop g v n c r := by
  induction n generalizing c r with
  | zero => rfl
  | succ n ih =>
    rw [readLoop, readLoop]
    by_cases hc : 0 < r ∧ 2 ≤ c ∧ isEndOfChain c = false
    · obtain ⟨hent, hdisk⟩ := h c (Reach.self hc.2.1 hc.2.2)
      rw [if_pos hc, if_pos hc, hent, hdisk, ih]
      exact fun x hx => h x (hx.step hc.2.1 hc.2.2)
    · rw [if_neg hc, if_neg hc]

theorem eoc_le_of_isEndOfChain (h : isEndOfChain c = true) : FAT32_EOC ≤ c := by
  unfold isEndOfChain at h
  have := of_decide_eq_true h
  have := Nat.mod_le c (2 ^ 28)
  omega

theorem freeLoop_zero (g : Geom) (safety : ℕ) (v : Vol) : freeLoop g safety 0 v = v := by
  cases safety <;> rw [freeLoop, if_neg (by omega), if_neg (by omega)]

/-- Freeing a chain changes entries of its own clusters only. -/
theorem freeLoop_fat (hg : g.fatEntries ≤ FAT32_EOC) {safety : ℕ}
    (hv' : ∀ x, v'.fat x = v.fat x ∨ getEntry g v' x = 0) (x : ℕ) :
    (freeLoop g safety c v').fat x = v'.fat x ∨ x ∈ follow g v safety c := by
  induction safety generalizing c v' with
  | zero =>
    left
    rw [freeLoop]
    split
    · rfl
    · split
      · rename_i hc
        rw [setEntry_of_le (hg.trans (eoc_le_of_isEndOfChain hc.2))]
      · rfl
  | succ safety ih =>
    rw [freeLoop]
    by_cases hc : 2 ≤ c ∧ isEndOfChain c = false
    · rw [if_pos hc, follow, if_pos hc]
      by_cases hx : x = c
      · exact Or.inr (hx ▸ List.mem_cons_self)
      have hkept : ∀ x, (setEntry g c FAT32_FREE v').fat x = v.fat x ∨
        getEntry g (setEntry g c FAT32_FREE v') x = 0 := by
        intro x
        by_cases hx : x = c
        · rw [hx]
          by_cases hlt : c < g.fatEntries
          · exact Or.inr (getEntry_setEntry_self hlt)
          · rw [setEntry_of_le (by omega)]
            exact hv' c
        · rw [fat_setEntry_ne hx, getEntry_setEntry_ne hx]
          exact hv' x
      rcases hv' c with hsame | hzero
      · have hnext : getEntry g v' c = getEntry g v c := by
          unfold getEntry
          rw [hsame]
        rw [hnext]
        rcases ih hkept (c := getEntry g v c) with h | h
        · rw [h, fat_setEntry_ne hx]
          exact Or.inl rfl
        · exact Or.inr (List.mem_cons_of_mem _ h)
      · -- a cluster that is free already ends the loop
        left
        rw [hzero, freeLoop_zero, fat_setEntry_ne hx]
    · left
      rw [if_neg hc]
      split
      · rename_i hend
        rw [setEntry_of_le (hg.trans (eoc_le_of_isEndOfChain hend.2))]
      · rfl

theorem disk_freeLoop (g : Geom) (safety c : ℕ) (v : Vol) : (freeLoop g safety c v).disk = v.disk := by
  induction safety generalizing c v with
  | zero =>
    rw [freeLoop]
    split
    · rfl
    · split
      · exact disk_setEntry g c FAT32_FREE v
      · rfl
  | succ safety ih =>
    rw [freeLoop]
    split
    · rw [ih, disk_setEntry]
    · split
      · exact disk_setEntry g c FAT32_FREE v
      · rfl

/-- The table after freeing a chain, away from the chain. -/
theorem freeLoop_other (hg : g.fatEntries ≤ FAT32_EOC) {safety : ℕ} (hx : ¬ Reach g v c x) :
    (freeLoop g safety c v).fat x = v.fat x :=
  (freeLoop_fat hg (fun _ => Or.inl rfl) x).resolve_right fun h => hx ⟨safety, h⟩

end ComputerOS.Fat32
