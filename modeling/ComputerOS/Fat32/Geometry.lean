import ComputerOS.Fat32.Keeps

/-!
The geometry that `fat32_mount` takes from the boot sector. How many entries the table has comes
from its length in sectors, how many clusters there are from the number of sectors of the volume;
the free clusters are searched by the first.
-/
namespace ComputerOS.Fat32

open Fallible

def uint32 (n : ℕ) : ℕ := n % 2 ^ 32

/-- `bpb_t` and `bpb32_ext_t`, as far as `fat32_mount` reads them. -/
structure Bpb where
  bytesPerSector : UInt16
  sectorsPerCluster : UInt8
  reservedSectors : UInt16
  numFats : UInt8
  totalSectors16 : UInt16
  totalSectors32 : UInt32
  sectorsPerFat : UInt32
  rootCluster : UInt32
  fsType : Str
deriving DecidableEq, Repr

namespace Bpb

/-- The tests of `fat32_mount`. -/
def Accepted (b : Bpb) : Prop :=
  b.bytesPerSector = 512 ∧ b.sectorsPerCluster ≠ 0 ∧ b.numFats ≠ 0 ∧ b.sectorsPerFat ≠ 0 ∧
  b.fsType.take 5 = [70, 65, 84, 51, 50]

instance (b : Bpb) : Decidable b.Accepted := inferInstanceAs (Decidable (_ ∧ _))

def fatStart (b : Bpb) : ℕ := b.reservedSectors.toNat

def dataStart (b : Bpb) : ℕ := uint32 (b.fatStart + b.numFats.toNat * b.sectorsPerFat.toNat)

def totalSectors (b : Bpb) : ℕ := if b.totalSectors16 ≠ 0 then b.totalSectors16.toNat else b.totalSectors32.toNat

def dataSectors (b : Bpb) : ℕ := uint32 (b.totalSectors + (2 ^ 32 - b.dataStart))

/-- What `fat32_mount` keeps of it. -/
def geom (b : Bpb) : Geom where
  fatEntries := uint32 (b.sectorsPerFat.toNat * (512 / 4))
  totalClusters := b.dataSectors / b.sectorsPerCluster.toNat
  rootCluster := b.rootCluster.toNat
  bytesPerCluster := b.sectorsPerCluster.toNat * 512
  numFats := b.numFats.toNat

def clusterToLba (b : Bpb) (cluster : ℕ) : ℕ :=
  uint32 (b.dataStart + uint32 (cluster + (2 ^ 32 - 2)) * b.sectorsPerCluster.toNat)

def InDataArea (b : Bpb) (c : ℕ) : Prop :=
  ∀ k < b.sectorsPerCluster.toNat, b.dataStart ≤ b.clusterToLba c + k ∧
  b.clusterToLba c + k < b.totalSectors

end Bpb

variable {b : Bpb} {s : St}

theorem Bpb.totalSectors_lt (b : Bpb) : b.totalSectors < 2 ^ 32 := by
  unfold Bpb.totalSectors
  have h16 := b.totalSectors16.toNat_lt
  have h32 := b.totalSectors32.toNat_lt
  split <;> omega

theorem Bpb.inDataArea (h : b.dataStart ≤ b.totalSectors) {c : ℕ} (hc : 2 ≤ c) (hlt : c < b.geom.totalClusters + 2) :
    b.InDataArea c := by
  have htotal := b.totalSectors_lt
  have hsectors : b.dataSectors = b.totalSectors - b.dataStart := by
    unfold Bpb.dataSectors uint32
    omega
  have hmul : (c - 2 + 1) * b.sectorsPerCluster.toNat ≤ b.totalSectors - b.dataStart := by
    rw [← hsectors]
    have hle : c - 2 + 1 ≤ b.dataSectors / b.sectorsPerCluster.toNat := by
      have : c < b.dataSectors / b.sectorsPerCluster.toNat + 2 := hlt
      omega
    exact (Nat.mul_le_mul_right _ hle).trans (Nat.div_mul_le_self _ _)
  rw [Nat.succ_mul] at hmul
  intro k hk
  have hle : c - 2 ≤ (c - 2) * b.sectorsPerCluster.toNat := Nat.le_mul_of_pos_right _ (by omega)
  have hrel : uint32 (c + (2 ^ 32 - 2)) = c - 2 := by
    unfold uint32
    omega
  have hlba : b.clusterToLba c = b.dataStart + (c - 2) * b.sectorsPerCluster.toNat := by
    unfold Bpb.clusterToLba
    rw [hrel]
    exact Nat.mod_eq_of_lt (by omega)
  rw [hlba]
  omega

/-- The search finds the first free entry. -/
theorem allocCluster_first (g : Geom) (s : St) {c : ℕ} (h : ((allocCluster g).run s).1 = some (some c)) :
    2 ≤ c ∧ c < g.fatEntries ∧ isFree s.vol c = true ∧ ∀ d, 2 ≤ d → d < c → isFree s.vol d = false := by
  have hget : getVol.run s = (some s.vol, s) := rfl
  rw [allocCluster, bind_of_some hget] at h
  rcases hfind : (List.range' 2 (g.fatEntries - 2)).find? (isFree s.vol) with _ | c'
  · rw [hfind] at h
    cases h
  · rw [hfind] at h
    obtain rfl : c' = c := Option.some.inj (Option.some.inj h)
    have hmem := List.mem_range'_1.mp (List.mem_of_find?_eq_some hfind)
    obtain ⟨hfree, pre, post, heq, hpre⟩ := List.find?_eq_some_iff_append.mp hfind
    refine ⟨hmem.1, by omega, hfree, fun d h2 hd => ?_⟩
    have hd' : d ∈ pre := by
      have hin : d ∈ List.range' 2 (g.fatEntries - 2) := List.mem_range'_1.mpr (by omega)
      have hsorted := List.pairwise_lt_range' (s := 2) (n := g.fatEntries - 2)
      rw [heq] at hin hsorted
      rcases List.mem_append.mp hin with hin | hin
      · exact hin
      · rcases List.mem_cons.mp hin with rfl | hin
        · omega
        · have := List.rel_of_pairwise_cons (List.pairwise_append.mp hsorted).2.1 hin
          omega
    exact eq_false_of_ne_true fun h => absurd (hpre d hd') (by simp [h])

/-- Without a free entry nothing is found, and with one something is. -/
theorem allocCluster_none_iff (g : Geom) (s : St) :
    ((allocCluster g).run s).1 = some none ↔ ∀ c, 2 ≤ c → c < g.fatEntries → isFree s.vol c = false := by
  have hget : getVol.run s = (some s.vol, s) := rfl
  rw [allocCluster, bind_of_some hget]
  rcases hfind : (List.range' 2 (g.fatEntries - 2)).find? (isFree s.vol) with _ | c
  · refine ⟨fun _ d h2 hd => ?_, fun _ => rfl⟩
    exact eq_false_of_ne_true (List.find?_eq_none.mp hfind d (List.mem_range'_1.mpr (by omega)))
  · refine ⟨fun h => (by cases h), fun h => ?_⟩
    have hmem := List.mem_range'_1.mp (List.mem_of_find?_eq_some hfind)
    have hused := h c hmem.1 (by omega)
    rw [List.find?_some hfind] at hused
    cases hused

/-- The cluster that is allocated, if there is one, is one of the volume's and its sectors are in
the data area. -/
def AllocOk (b : Bpb) (s : St) : Prop :=
  ∀ c, ((allocCluster b.geom).run s).1 = some (some c) → 2 ≤ c ∧ c < b.geom.totalClusters + 2 ∧
  b.InDataArea c

/-- The volume has a data area with a free cluster. -/
def FreeInside (b : Bpb) (v : Vol) : Prop :=
  b.dataStart ≤ b.totalSectors ∧ ∃ c, 2 ≤ c ∧ c < b.geom.fatEntries ∧ c < b.geom.totalClusters + 2 ∧
  isFree v c = true

def TableFull (b : Bpb) (v : Vol) : Prop := ∀ c, 2 ≤ c → c < b.geom.fatEntries → isFree v c = false

/-- A free entry is only found in the data area when one is there. -/
theorem freeInside_of_allocOk (hb : b.Accepted) (h : AllocOk b s) : TableFull b s.vol ∨ FreeInside b s.vol := by
  by_cases hfull : TableFull b s.vol
  · exact Or.inl hfull
  · refine Or.inr ?_
    rcases allocCluster_run b.geom s with hrun | ⟨c, h2, hlt, hfree, hrun⟩
    · exact absurd ((allocCluster_none_iff b.geom s).mp (by rw [hrun])) hfull
    · obtain ⟨-, htotal, harea⟩ := h c (by rw [hrun])
      have hpos : 0 < b.sectorsPerCluster.toNat := by
        refine Nat.pos_of_ne_zero fun h0 => hb.2.1 (UInt8.toNat_inj.mp h0)
      have := harea 0 hpos
      exact ⟨by omega, c, h2, hlt, htotal, hfree⟩

/-- On every volume that is mounted, what is allocated is in the data area if and only if the table
has no free entry at all or a cluster of the data area is free. -/
theorem alloc_in_volume_iff (hb : b.Accepted) : AllocOk b s ↔ TableFull b s.vol ∨ FreeInside b s.vol := by
  refine ⟨freeInside_of_allocOk hb, fun h c hc => ?_⟩
  obtain ⟨h2, hlt, hfree, hfirst⟩ := allocCluster_first b.geom s hc
  rcases h with hfull | ⟨hdata, d, hd2, -, hd, hdfree⟩
  · rw [hfull c h2 hlt] at hfree
    cases hfree
  · have hcd : c ≤ d := by
      by_contra hgt
      rw [hfirst d hd2 (by omega)] at hdfree
      cases hdfree
    exact ⟨h2, by omega, Bpb.inDataArea hdata h2 (by omega)⟩

/-- A volume of 64 sectors with 31 clusters of one sector, and a table of one sector. -/
def smallBpb : Bpb where
  bytesPerSector := 512
  sectorsPerCluster := 1
  reservedSectors := 32
  numFats := 1
  totalSectors16 := 64
  totalSectors32 := 0
  sectorsPerFat := 1
  rootCluster := 2
  fsType := [70, 65, 84, 51, 50, 32, 32, 32]

/-- The clusters are all in use, the entries behind them are 0. -/
def usedUp : St := ⟨⟨fun c => if c < 33 then FAT32_EOC else 0, fun _ _ => 0, fun _ _ => 0⟩, 0, fun _ => true⟩

/-- Cluster 2 is free again. -/
def oneFree : St := ⟨⟨fun c => if c = 2 then 0 else FAT32_EOC, fun _ _ => 0, fun _ _ => 0⟩, 0, fun _ => true⟩

theorem alloc_in_volume_iff_oneFree : AllocOk smallBpb oneFree ∧ FreeInside smallBpb oneFree.vol := by
  have hfree : FreeInside smallBpb oneFree.vol := ⟨by decide, 2, by decide, by decide, by decide, by decide⟩
  exact ⟨(alloc_in_volume_iff (by decide)).mpr (Or.inr hfree), hfree⟩

/-- Cluster 33 is allocated, whose sector is the first behind the volume. -/
theorem alloc_behind_volume : smallBpb.Accepted ∧ ((allocCluster smallBpb.geom).run usedUp).1 = some
    (some 33) ∧ smallBpb.geom.totalClusters + 2 = 33 ∧
    smallBpb.clusterToLba 33 = smallBpb.totalSectors ∧ ¬ AllocOk smallBpb usedUp := by
  have hrun : ((allocCluster smallBpb.geom).run usedUp).1 = some (some 33) := by decide +kernel
  refine ⟨by decide, hrun, by decide, by decide, fun h => ?_⟩
  exact absurd (h 33 hrun).2.1 (by decide)

end ComputerOS.Fat32
