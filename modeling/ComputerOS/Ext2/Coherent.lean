import ComputerOS.Ext2.Ops
import Mathlib.Logic.Function.Basic

/-!
The cache holds what is on disk. This is kept by every program that invalidates the blocks of a
device write before the write, as long as no request runs over sector 2^32, where the 32-bit sector
numbers start again.
-/
namespace ComputerOS.Ext2

open Mem (clip)

variable {g : Geom}

namespace Geom

theorem sectors_eq (g : Geom) : 512 * g.spb = g.blockSize := by
  unfold spb
  rcases g.block_size with h | h | h <;> rw [h]

theorem two_le_spb (g : Geom) : 2 ≤ g.spb := by
  unfold spb
  rcases g.block_size with h | h | h <;> rw [h] <;> decide

theorem blockSize_pos (g : Geom) : 0 < g.blockSize := by
  rcases g.block_size with h | h | h <;> omega

end Geom

/-- The sectors of these blocks have 32-bit numbers. -/
def Fits (g : Geom) (r : ℕ × ℕ) : Prop := g.partLba + (r.1 + r.2) * g.spb ≤ 2 ^ 32

theorem sector_of_fits {blk n : ℕ} (hn : 0 < n) (h : Fits g (blk, n)) : g.sector blk = g.partLba + blk * g.spb := by
  unfold Fits at h
  dsimp only at h
  rw [Nat.add_mul] at h
  have hpos : 1 * 2 ≤ n * g.spb := Nat.mul_le_mul hn g.two_le_spb
  exact Nat.mod_eq_of_lt (by omega)

section Sectors

variable {disk data : Mem} {s n t k : ℕ}

theorem readSectors_write : readSectors (writeSectors disk s n data) s n = clip (512 * n) data := by
  refine Mem.clip_congr fun i hi => ?_
  rw [writeSectors, Mem.blit_at hi, Nat.zero_add]

theorem readSectors_write_ne (h : t + k ≤ s ∨ s + n ≤ t) :
    readSectors (writeSectors disk s n data) t k = readSectors disk t k := by
  refine Mem.clip_congr fun i hi => ?_
  exact Mem.blit_ne (by omega)

end Sectors

/-- No two valid entries hold one block, and every valid entry has the bytes that its block has on
disk. -/
structure Coherent (g : Geom) (cache : ℕ → Ent) (disk : Mem) : Prop where
  unique : ∀ i j, i < CACHE_N → j < CACHE_N → (cache i).valid → (cache j).valid → (cache i).blk = (cache j).blk → i = j
  current : ∀ i, i < CACHE_N → (cache i).valid → (cache i).data = readSectors disk (g.sector (cache i).blk) g.spb

/-- The cache is coherent, and its blocks lie below sector 2^32. -/
structure Sound (g : Geom) (cache : ℕ → Ent) (disk : Mem) : Prop extends Coherent g cache disk where
  fits : ∀ i, i < CACHE_N → (cache i).valid → Fits g ((cache i).blk, 1)

namespace Coherent

variable {cache : ℕ → Ent} {disk : Mem} {i : ℕ} {e : Ent}

theorem valid_of_update {j : ℕ} (he : e.valid = false) (hv : (Function.update cache i e j).valid) :
    Function.update cache i e j = cache j := by
  by_cases hij : j = i
  · rw [hij, Function.update_self, he] at hv
    cases hv
  · exact Function.update_of_ne hij _ _

theorem invalidate (h : Coherent g cache disk) (he : e.valid = false) :
    Coherent g (Function.update cache i e) disk := by
  refine ⟨fun j k hj hk vj vk heq => ?_, fun j hj vj => ?_⟩
  · have hvj := valid_of_update he vj
    have hvk := valid_of_update he vk
    rw [hvj] at vj heq
    rw [hvk] at vk heq
    exact h.unique j k hj hk vj vk heq
  · have hvj := valid_of_update he vj
    rw [hvj] at vj ⊢
    exact h.current j hj vj

theorem update_stamp (cache : ℕ → Ent) (i n j : ℕ) : ∃ k,
    Function.update cache i { cache i with stamp := n } j = { cache j with stamp := k } := by
  by_cases hji : j = i
  · exact ⟨n, by rw [hji, Function.update_self]⟩
  · exact ⟨(cache j).stamp, by rw [Function.update_of_ne hji]⟩

theorem restamp (h : Coherent g cache disk) (n : ℕ) :
    Coherent g (Function.update cache i { cache i with stamp := n }) disk := by
  refine ⟨fun j k hj hk vj vk heq => ?_, fun j hj vj => ?_⟩
  · obtain ⟨a, ha⟩ := update_stamp cache i n j
    obtain ⟨b, hb⟩ := update_stamp cache i n k
    rw [ha] at vj heq
    rw [hb] at vk heq
    exact h.unique j k hj hk vj vk heq
  · obtain ⟨a, ha⟩ := update_stamp cache i n j
    rw [ha] at vj ⊢
    exact h.current j hj vj

/-- An entry for a block that no other valid entry holds. -/
theorem install (h : Coherent g cache disk)
    (hother : ∀ j, j < CACHE_N → j ≠ i → (cache j).valid → (cache j).blk ≠ e.blk)
    (hdata : e.data = readSectors disk (g.sector e.blk) g.spb) : Coherent g (Function.update cache i e) disk := by
  refine ⟨fun j k hj hk vj vk heq => ?_, fun j hj vj => ?_⟩
  · by_cases hji : j = i
    · by_cases hki : k = i
      · rw [hji, hki]
      · rw [Function.update_of_ne hki] at vk heq
        rw [hji, Function.update_self] at heq
        exact absurd heq.symm (hother k hk hki vk)
    · rw [Function.update_of_ne hji] at vj heq
      by_cases hki : k = i
      · rw [hki, Function.update_self] at heq
        exact absurd heq (hother j hj hji vj)
      · rw [Function.update_of_ne hki] at vk heq
        exact h.unique j k hj hk vj vk heq
  · by_cases hji : j = i
    · rw [hji, Function.update_self]
      exact hdata
    · rw [Function.update_of_ne hji] at vj ⊢
      exact h.current j hj vj

end Coherent

namespace Sound

variable {cache : ℕ → Ent} {disk data : Mem} {i blk count : ℕ} {e : Ent}

theorem invalidate (h : Sound g cache disk) (he : e.valid = false) : Sound g (Function.update cache i e) disk := by
  refine ⟨h.toCoherent.invalidate he, fun j hj vj => ?_⟩
  have hvj := Coherent.valid_of_update he vj
  rw [hvj] at vj ⊢
  exact h.fits j hj vj

theorem restamp (h : Sound g cache disk) (n : ℕ) :
    Sound g (Function.update cache i { cache i with stamp := n }) disk := by
  refine ⟨h.toCoherent.restamp n, fun j hj vj => ?_⟩
  obtain ⟨a, ha⟩ := Coherent.update_stamp cache i n j
  rw [ha] at vj ⊢
  exact h.fits j hj vj

theorem install (h : Sound g cache disk)
    (hother : ∀ j, j < CACHE_N → j ≠ i → (cache j).valid → (cache j).blk ≠ e.blk)
    (hdata : e.data = readSectors disk (g.sector e.blk) g.spb) (hfits : Fits g (e.blk, 1)) :
    Sound g (Function.update cache i e) disk := by
  refine ⟨h.toCoherent.install hother hdata, fun j hj vj => ?_⟩
  by_cases hji : j = i
  · rw [hji, Function.update_self]
    exact hfits
  · rw [Function.update_of_ne hji] at vj ⊢
    exact h.fits j hj vj

/-- Sectors that belong to the blocks from `blk` on change; none of these blocks is in the cache. -/
theorem write (h : Sound g cache disk) {s n : ℕ}
    (hlow : g.partLba + blk * g.spb ≤ s) (hhigh : s + n ≤ g.partLba + (blk + count) * g.spb)
    (hnone : ∀ j, j < CACHE_N → (cache j).valid → (cache j).blk < blk ∨ blk + count ≤ (cache j).blk) :
    Sound g cache (writeSectors disk s n data) := by
  refine ⟨⟨h.unique, fun j hj vj => ?_⟩, h.fits⟩
  rw [h.current j hj vj, sector_of_fits Nat.one_pos (h.fits j hj vj)]
  refine (readSectors_write_ne ?_).symm
  rcases hnone j hj vj with hlt | hge
  · have := Nat.mul_le_mul_right g.spb (Nat.succ_le_of_lt hlt)
    rw [Nat.succ_mul] at this
    omega
  · have := Nat.mul_le_mul_right g.spb hge
    omega

end Sound

/-- As long as all requests have fitted, the cache is sound. -/
def Inv (g : Geom) (m : Machine) : Prop := (∀ r ∈ m.log, Fits g r) → Sound g m.cache m.disk

section Calls

variable {m : Machine} {i blk count : ℕ} {data : Mem}

theorem cacheFind_some (h : m.cacheFind blk = some i) :
    i < CACHE_N ∧ (m.cache i).valid = true ∧ (m.cache i).blk = blk := by
  have hmem := List.mem_range.mp (List.mem_of_find?_eq_some h)
  have hp := List.find?_some h
  rw [Bool.and_eq_true, beq_iff_eq] at hp
  exact ⟨hmem, hp⟩

theorem cacheFind_none (h : m.cacheFind blk = none) (hi : i < CACHE_N) (hv : (m.cache i).valid = true) :
    (m.cache i).blk ≠ blk := by
  intro heq
  have := List.find?_eq_none.mp h i (List.mem_range.mpr hi)
  rw [hv, heq, beq_self_eq_true] at this
  exact this rfl

/-- The entry that `bwrite` takes is the only one that may hold the block. -/
theorem sound_other (hs : Sound g m.cache m.disk) (i : ℕ) (hi : i < CACHE_N)
    (hne : i ≠ (m.cacheFind blk).getD m.cacheVictim) (hv : (m.cache i).valid) : (m.cache i).blk ≠ blk := by
  rcases hf : m.cacheFind blk with _ | j
  · exact cacheFind_none hf hi hv
  · obtain ⟨hj, hvj, hblk⟩ := cacheFind_some hf
    rw [hf, Option.getD_some] at hne
    intro heq
    exact hne (hs.unique i j hi hj hv hvj (heq.trans hblk.symm))

theorem bread_inv (h : Inv g m) : Inv g (m.bread g blk).2 := by
  intro hlog
  unfold Machine.bread at hlog ⊢
  rcases hf : m.cacheFind blk with _ | i
  · rw [hf] at hlog
    dsimp only [Machine.setEnt, Machine.devRead] at hlog ⊢
    rcases hio : m.io 0 with _ | left
    · rw [hio] at hlog
      have hs : Sound g (Function.update m.cache m.cacheVictim { m.cache m.cacheVictim with valid := false }) m.disk :=
        (h fun r hr => hlog r (List.mem_cons_of_mem _ hr)).invalidate rfl
      refine hs.install (fun j hj hne hv => ?_) ?_ (hlog (blk, 1) List.mem_cons_self)
      · rw [Function.update_of_ne hne] at hv ⊢
        exact cacheFind_none hf hj hv
      · dsimp only
        rw [Nat.one_mul]
    · rw [hio] at hlog
      exact (h fun r hr => hlog r (List.mem_cons_of_mem _ hr)).invalidate rfl
  · rw [hf] at hlog
    exact (h hlog).restamp _

theorem bwrite_inv (h : Inv g m) : Inv g (m.bwrite g blk data).2 := by
  intro hlog
  have hold : ∀ r ∈ m.log, Fits g r := by
    intro r hr
    refine hlog r ?_
    unfold Machine.bwrite
    dsimp only [Machine.setEnt, Machine.devWrite, Machine.writeAt, Machine.tick]
    rcases m.io 0 with _ | left <;> exact List.mem_cons_of_mem _ hr
  have hfits : Fits g (blk, 1) := by
    refine hlog _ ?_
    unfold Machine.bwrite
    dsimp only [Machine.setEnt, Machine.devWrite, Machine.writeAt, Machine.tick]
    rcases m.io 0 with _ | left <;> exact List.mem_cons_self
  have hs := h hold
  have hsector := sector_of_fits Nat.one_pos hfits
  -- the entry is free while the sectors change
  have hwrite : ∀ content e, e.valid = false →
      Sound g (Function.update m.cache ((m.cacheFind blk).getD m.cacheVictim) e)
        (writeSectors m.disk (g.sector blk) (1 * g.spb) content) := by
    intro content e he
    refine (hs.invalidate he).write (le_of_eq hsector.symm) (by rw [hsector, Nat.add_mul, Nat.add_assoc])
      fun j hj hv => ?_
    by_cases hne : j = (m.cacheFind blk).getD m.cacheVictim
    · rw [hne, Function.update_self, he] at hv
      cases hv
    · rw [Function.update_of_ne hne] at hv ⊢
      have := sound_other hs j hj hne hv
      omega
  unfold Machine.bwrite
  dsimp only [Machine.setEnt, Machine.devWrite, Machine.writeAt, Machine.tick]
  rcases m.io 0 with _ | left
  · dsimp only [Machine.requested]
    have hfree := hwrite (clip g.blockSize data) ⟨blk, 0, false, data⟩ rfl
    rw [← Function.update_idem (⟨blk, 0, false, data⟩ : Ent) ⟨blk, u32 (m.clock + 1), true,
      clip g.blockSize data⟩ m.cache]
    refine hfree.install (fun j hj hne hv => ?_) ?_ hfits
    · rw [Function.update_of_ne hne] at hv ⊢
      exact sound_other hs j hj hne hv
    · dsimp only
      rw [Nat.one_mul, readSectors_write, g.sectors_eq, Mem.clip_clip]
  · dsimp only [Machine.requested]
    rw [Function.update_idem]
    exact hwrite left _ rfl

theorem binval_inv (h : Inv g m) : Inv g (m.binval blk) := by
  intro hlog
  unfold Machine.binval at hlog ⊢
  rcases hf : m.cacheFind blk with _ | i
  · rw [hf] at hlog
    exact h hlog
  · rw [hf] at hlog
    exact (h hlog).invalidate rfl

theorem devRead_inv (h : Inv g m) : Inv g (m.devRead g blk count).2 := by
  intro hlog
  unfold Machine.devRead at hlog ⊢
  rcases hio : m.io 0 with _ | left <;>
  · rw [hio] at hlog
    exact h fun r hr => hlog r (List.mem_cons_of_mem _ hr)

/-- A device write goes well with the cache when its blocks are not in it. -/
theorem writeAt_inv {s n : ℕ} (h : Inv g m)
    (hrange : Fits g (blk, count) → g.partLba + blk * g.spb ≤ s ∧ s + n ≤ g.partLba + (blk + count) * g.spb)
    (hnone : Sound g m.cache m.disk → Fits g (blk, count) → ∀ j, j < CACHE_N → (m.cache j).valid →
      (m.cache j).blk < blk ∨ blk + count ≤ (m.cache j).blk) : Inv g (m.writeAt blk count s n data).2 := by
  intro hlog
  unfold Machine.writeAt at hlog ⊢
  rcases hio : m.io 0 with _ | left
  all_goals
    rw [hio] at hlog
    have hfits : Fits g (blk, count) := hlog (blk, count) List.mem_cons_self
    have hs := h fun r hr => hlog r (List.mem_cons_of_mem _ hr)
    exact hs.write (hrange hfits).1 (hrange hfits).2 (hnone hs hfits)

/-- The calls that by themselves leave the cache sound. -/
def Call.Quiet : Call → Prop
  | .devWrite _ _ _ => False
  | .superWrite _ => False
  | _ => True

theorem quiet_inv {c : Call} (hc : c.Quiet) (h : Inv g m) : Inv g (cached g c m).2 := by
  cases c with
  | bread blk => exact bread_inv h
  | bwrite blk data => exact bwrite_inv h
  | victim data => exact fun hlog => (h hlog).invalidate rfl
  | binval blk => exact binval_inv h
  | devRead blk count => exact devRead_inv h
  | devWrite blk count data => exact hc.elim
  | superWrite data => exact hc.elim
  | getMeta => exact h
  | setMeta md => exact h
  | now => exact h
  | kmalloc size => exact h

end Calls

/-- A volume of 4 TiB. -/
def wideGeom : Geom where
  partLba := 0
  blockSize := 4096
  firstDataBlock := 0
  blocksCount := 2 ^ 30
  blocksPerGroup := 2 ^ 15
  inodesCount := 2 ^ 19
  inodesPerGroup := 16
  inodeSize := 128
  firstIno := 11
  hasFiletype := true
  writable := true
  block_size := by decide
  data_lt := by decide
  groups_pos := by decide
  inodes_pos := by decide
  inode_le := by decide
  inode_dvd := by decide
  blocks_fit := by decide
  inodes_fit := by decide
  count_lt := by decide
  inodes_covered := by decide

/-- No bytes yet. -/
def zeros : Mem := fun _ => 0

end ComputerOS.Ext2
