import ComputerOS.Kheap.Invariant

/-!
Requests near `2 ^ 32`. `ALIGN8` wraps to 0 for the last seven of them, and a request for 0 bytes is
met by any free block. The other sums wrap too, but only behind a search that has failed or in a
comparison that a block large enough does not reach.
-/
namespace ComputerOS.Kheap

variable {h : Heap} {blocks : List Blk} {live : List Live} {n : ℕ}

theorem align8_ge (h : n ≤ 2 ^ 32 - 8) : n ≤ align8 n := by
  have hmod : u32 (n + 7) = n + 7 := Nat.mod_eq_of_lt (by omega)
  rw [align8, hmod]
  omega

theorem align8_wrap (h : 2 ^ 32 - 8 < n) (hn : n < 2 ^ 32) : align8 n = 0 := by
  have hmod : u32 (n + 7) = n + 7 - 2 ^ 32 := by
    rw [u32, Nat.mod_eq_sub_mod (by omega), Nat.mod_eq_of_lt (by omega)]
  rw [align8, hmod]
  omega

theorem Inv.live_small (hI : Inv h blocks live) {a : Live} (ha : a ∈ live) : a.size + 4112 ≤ 2 ^ 32 := by
  obtain ⟨b, hb, -, -, hsize⟩ := hI.block_of_live ha
  obtain ⟨l₁, l₂, rfl⟩ := List.append_of_mem hb
  rw [← hsize]
  exact hI.middle.small

/-- In a heap without a free block nothing is found. -/
theorem findFit_full (hI : Inv h blocks live) (hfull : ∀ b ∈ blocks, b.used = true) (n : ℕ) : findFit n h = (0, h) := by
  have hwalk := findBlock_eq (n := n) hI.tiles hI.pos hI.linked hI.length_le
  rw [hI.headAddr_eq] at hwalk
  rcases hwalk with ⟨h0, -⟩ | ⟨l₁, b, l₂, rfl, hb, -, -⟩
  · rw [findFit, h0]
    rfl
  · rw [hfull b (by simp)] at hb
    cases hb

theorem findFit_zero (hI : Inv h blocks live) (hfree : ∃ b ∈ blocks, b.used = false) : (findFit 0 h).1 ≠ 0 := by
  rcases findFit_spec hI (n := 0) rfl with ⟨-, hall⟩ | ⟨p, h', _, hrun, hp, -, -⟩
  · obtain ⟨b, hb, hfree⟩ := hfree
    rcases hall b hb with hused | hsize
    · rw [hfree] at hused
      cases hused
    · exact absurd hsize (Nat.not_lt_zero _)
  · rwa [hrun]

/-- The heap has no free block and cannot grow by the least amount. -/
def Exhausted (map : MapRegion) (h : Heap) (blocks : List Blk) : Prop :=
  (∀ b ∈ blocks, b.used = true) ∧ Capped map HEADER_SIZE h

/-- A request that `ALIGN8` makes 0 is refused by an exhausted heap only. -/
theorem kmalloc_wrapped (hI : Inv h blocks live) (map : MapRegion) (hwrap : 2 ^ 32 - 8 < n) (hn : n < 2 ^ 32) :
    (kmalloc map n h).1 = 0 ↔ Exhausted map h blocks := by
  have hhead : h.head ≠ 0 := by
    have := hI.pos
    rw [hI.head]
    omega
  have hsum : u32 (0 + HEADER_SIZE) = HEADER_SIZE := rfl
  rw [kmalloc, if_neg (by omega)]
  dsimp only
  rw [align8_wrap hwrap hn, hsum]
  by_cases hfull : ∀ b ∈ blocks, b.used = true
  · simp only [findFit_full hI hfull]
    rcases kheapGrow_spec hI map HEADER_SIZE with ⟨hcap, hrun⟩ | ⟨hroom, added, h', blocks', hrun, hadded, hI', hfree⟩
    · simp only [hrun]
      exact ⟨fun _ => ⟨hfull, hcap⟩, fun _ => trivial⟩
    · obtain ⟨k, rfl⟩ := Nat.exists_eq_succ_of_ne_zero hadded
      simp only [hrun]
      exact ⟨fun h0 => absurd h0 (findFit_zero hI' hfree), fun hex => absurd hex.2 hroom⟩
  · have hfound : (findFit 0 h).1 ≠ 0 := findFit_zero hI (by simpa using hfull)
    refine ⟨fun h0 => absurd ?_ hfound, fun hex => absurd hex.1 hfull⟩
    rcases hrun : findFit 0 h with ⟨_ | p, h'⟩
    · rfl
    · rw [hrun] at h0
      exact h0

/-- A block that `kmalloc` returns has the size asked for, unless the request is above `2 ^ 32 - 8`
and met all the same. -/
theorem kmalloc_size_iff (hs : h.head = 0 ∨ Inv h blocks live) (map : MapRegion) (hn : n < 2 ^ 32) :
    ((kmalloc map n h).1 ≠ 0 → n ≤ (allocation (kmalloc map n h).1 (kmalloc map n h).2).size) ↔
      h.head = 0 ∨ n ≤ 2 ^ 32 - 8 ∨ Exhausted map h blocks := by
  rcases hs with h0 | hI
  · have hnone : (kmalloc map n h).1 = 0 := by rw [kmalloc, if_pos (Or.inr h0)]
    exact ⟨fun _ => Or.inl h0, fun _ hp => absurd hnone hp⟩
  have hhead : h.head ≠ 0 := by
    have := hI.pos
    rw [hI.head]
    omega
  rw [or_iff_right hhead]
  have hspec := kmalloc_inv hI map n
  by_cases hwrap : n ≤ 2 ^ 32 - 8
  · refine ⟨fun _ => Or.inl hwrap, fun _ hp => ?_⟩
    rcases hspec with ⟨h', _, hrun, -⟩ | ⟨p, h', _, hrun, -, hsize, -⟩
    · rw [hrun] at hp
      exact absurd rfl hp
    · rw [hrun]
      exact (align8_ge hwrap).trans hsize
  · rw [or_iff_right hwrap, ← kmalloc_wrapped hI map (Nat.not_le.mp hwrap) hn]
    refine ⟨fun hlarge => ?_, fun hnone hp => absurd hnone hp⟩
    -- no block of the heap is as large as the request
    by_contra hp
    rcases hspec with ⟨h', _, hrun, -⟩ | ⟨p, h', _, hrun, -, -, hI'⟩
    · rw [hrun] at hp
      exact hp rfl
    · have hle := hlarge hp
      have hsmall := hI'.live_small List.mem_cons_self
      rw [hrun] at hle
      dsimp only at hle
      omega

def zeroFrames : MapRegion := fun _ _ => some fun _ => 0

def kernelHeap : Heap := kheapInit zeroFrames 0xFFFFFFFF40000000 64 131072 ⟨fun _ => 0, 0, 0, 0, 0⟩

theorem kernelHeap_inv : Inv kernelHeap [⟨0xFFFFFFFF40000000, 64 * 4096 - 16, false⟩] [] :=
  kheapInit_inv ⟨by decide, by decide, by decide, by decide⟩ rfl _

/-- The first request, for `2 ^ 32 - 1` bytes, returns a block of 0 bytes. -/
theorem kmalloc_empty_block :
    (kmalloc zeroFrames (2 ^ 32 - 1) kernelHeap).1 = 0xFFFFFFFF40000010 ∧
    (allocation (kmalloc zeroFrames (2 ^ 32 - 1) kernelHeap).1
    (kmalloc zeroFrames (2 ^ 32 - 1) kernelHeap).2).size = 0 ∧
    ¬ ((kmalloc zeroFrames (2 ^ 32 - 1) kernelHeap).1 ≠ 0 → 2 ^ 32 - 1 ≤
      (allocation (kmalloc zeroFrames (2 ^ 32 - 1) kernelHeap).1
      (kmalloc zeroFrames (2 ^ 32 - 1) kernelHeap).2).size) := by
  decide +kernel

theorem kmalloc_hundred :
    ((kmalloc zeroFrames 100 kernelHeap).1 ≠ 0 →
      100 ≤ (allocation (kmalloc zeroFrames 100 kernelHeap).1 (kmalloc zeroFrames 100 kernelHeap).2).size) ↔
      kernelHeap.head = 0 ∨ 100 ≤ 2 ^ 32 - 8 ∨
        Exhausted zeroFrames kernelHeap [⟨0xFFFFFFFF40000000, 64 * 4096 - 16, false⟩] :=
  kmalloc_size_iff (Or.inr kernelHeap_inv) zeroFrames (by decide)

end ComputerOS.Kheap
