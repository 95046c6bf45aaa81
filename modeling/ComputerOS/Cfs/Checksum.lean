import ComputerOS.Lib.Crc
import ComputerOS.Cfs.Core

/-!
The checksums of inodes and of the superblock. `crc32_up` is a reflected cyclic redundancy check, so
it catches every burst of up to 32 bits; what is stored next to the bytes it covers is compared with
it.
-/
namespace ComputerOS.Cfs

open Bytes Crc

/-- The polynomial of `crc32_up`. -/
def crcPoly : BitVec 32 := 0xEDB88320

theorem crcRound_toBitVec (crc : UInt32) : (crcRound crc).toBitVec = shift crcPoly crc.toBitVec := by
  have hmask : (0 - (crc &&& 1)).toBitVec = if crc.toBitVec.getLsbD 0 then BitVec.allOnes 32 else 0 := by
    rw [UInt32.toBitVec_sub, UInt32.toBitVec_and, show (1 : UInt32).toBitVec = 1#32 from rfl,
      BitVec.and_one_eq_setWidth_ofBool_getLsbD]
    cases crc.toBitVec.getLsbD 0 <;> rfl
  rw [crcRound, UInt32.toBitVec_xor, UInt32.toBitVec_and, hmask, shift]
  refine congrArg₂ (· ^^^ ·) (by simp) ?_
  cases crc.toBitVec.getLsbD 0 <;> rfl

/-- The bits of a byte enter the register one by one. -/
theorem crcByte_toBitVec (crc : UInt32) (x : UInt8) :
    (crcByte crc x).toBitVec = Crc.run crcPoly crc.toBitVec ((List.range 8).map x.toBitVec.getLsbD) := by
  have hrounds : ∀ n (c : UInt32), (Nat.repeat crcRound n c).toBitVec = (shift crcPoly)^[n] c.toBitVec := fun n c => by
    induction n with
    | zero => rfl
    | succ n ih => rw [Nat.repeat, crcRound_toBitVec, ih, Function.iterate_succ_apply']
  rw [run_byte (by decide), crcByte, hrounds, UInt32.toBitVec_xor]
  rfl

theorem foldl_crcByte_toBitVec (crc : UInt32) (data : List UInt8) :
    (data.foldl crcByte crc).toBitVec = Crc.run crcPoly crc.toBitVec (bitsOf data) := by
  induction data generalizing crc with
  | nil => rfl
  | cons x data ih => rw [List.foldl_cons, ih, crcByte_toBitVec, bitsOf_cons, run_append]

/-- Checksums can be chained. -/
theorem crc32Up_append (crc : UInt32) (a b : List UInt8) : crc32Up (crc32Up crc a) b = crc32Up crc (a ++ b) := by
  rw [crc32Up, crc32Up, crc32Up, UInt32.not_not, List.foldl_append]

theorem crc32Up_ne {crc crc' : UInt32} {a b : List UInt8}
    (h : Crc.run crcPoly (~~~crc).toBitVec (bitsOf a) ≠ Crc.run crcPoly (~~~crc').toBitVec (bitsOf b)) :
    crc32Up crc a ≠ crc32Up crc' b := by
  intro heq
  rw [crc32Up, crc32Up, UInt32.not_inj] at heq
  rw [← foldl_crcByte_toBitVec, ← foldl_crcByte_toBitVec, heq] at h
  exact h rfl

/-- Every burst of up to 32 bits changes the checksum, whatever follows it. -/
theorem crc32Up_burst {a b : List UInt8} (h : Burst 32 a b) (crc : UInt32) (rest : List UInt8) :
    crc32Up crc (a ++ rest) ≠ crc32Up crc (b ++ rest) := by
  rw [← crc32Up_append, ← crc32Up_append]
  refine crc32Up_ne (Crc.run_ne_of_ne (by decide) (fun hnot => ?_) (bitsOf rest))
  exact crc32Up_ne (h.run_ne (by decide) _) (UInt32.not_inj.mp (UInt32.toBitVec_inj.mp hnot))

/-- The bytes that the checksum of an object covers, and those of the checksum itself. -/
structure Checked (n : ℕ) where
  covered : Bytes n → List UInt8
  stored : Bytes n → List UInt8

def inodeBytes : Checked 224 where
  covered d := d.slice 0 220
  stored d := d.slice 220 4

def superBytes : Checked 4096 where
  covered sb := sb.slice 0 140 ++ sb.slice 144 (4096 - 144)
  stored sb := sb.slice 140 4

/-- Either a burst of up to 32 bits has changed the bytes that are covered, or only the stored
checksum has changed. -/
def Checked.Damaged {n : ℕ} (c : Checked n) (x x' : Bytes n) : Prop :=
  (Burst 32 (c.covered x) (c.covered x') ∧ c.stored x' = c.stored x) ∨
    (c.covered x' = c.covered x ∧ c.stored x' ≠ c.stored x)

/-- A checksum over the covered bytes that catches bursts, next to a field that holds it. -/
theorem Checked.Damaged.ne {n off : ℕ} {c : Checked n} {x x' : Bytes n} {rest : List UInt8}
    (h : c.Damaged x x') (hstored : ∀ x, c.stored x = x.slice off 4)
    (hx : x.getLE off 4 = (crc32Up 0 (c.covered x ++ rest)).toNat) :
    x'.getLE off 4 ≠ (crc32Up 0 (c.covered x' ++ rest)).toNat := by
  intro hx'
  rcases h with ⟨hburst, hfield⟩ | ⟨hcov, hfield⟩
  · have hsame : x'.getLE off 4 = x.getLE off 4 := by
      rw [hstored, hstored] at hfield
      refine getLE_congr fun i hi => ?_
      rw [← getD_slice x' hi, ← getD_slice x hi, hfield]
    rw [hx, hx', UInt32.toNat_inj] at hsame
    exact crc32Up_burst hburst 0 rest hsame.symm
  · refine hfield ?_
    rw [hcov, ← hx] at hx'
    rw [hstored, hstored]
    exact slice_congr fun i hi => byte_eq_of_getLE_eq hx' hi

theorem slice_add {n : ℕ} (b : Bytes n) (off len len' : ℕ) :
    b.slice off (len + len') = b.slice off len ++ b.slice (off + len) len' := by
  rw [slice, slice, slice, List.range_add, List.map_append, List.map_map]
  refine congrArg _ (List.map_congr_left fun i _ => ?_)
  rw [Function.comp_apply, Nat.add_assoc]

theorem inodeCsum_eq (d : DInode) : inodeCsum d = (crc32Up 0 (inodeBytes.covered d ++ [0, 0, 0, 0])).toNat := by
  have hsplit : (d.setCsum 0).slice 0 224 = (d.setCsum 0).slice 0 220 ++ (d.setCsum 0).slice 220
    4 := slice_add _ 0 220 4
  have hcovered : (d.setCsum 0).slice 0 220 = inodeBytes.covered d := slice_put_ne d (Or.inl (by decide))
  have hfield : (d.setCsum 0).slice 220 4 = [0, 0, 0, 0] := slice_put_same d 220 [0, 0, 0, 0] (by decide)
  rw [inodeCsum, hsplit, hcovered, hfield]

theorem superCsum_eq (sb : Block) : superCsum sb = (crc32Up 0 (superBytes.covered sb ++ [])).toNat := by
  rw [List.append_nil]
  exact congrArg UInt32.toNat (crc32Up_append 0 (sb.slice 0 140) (sb.slice 144 (4096 - 144)))

/-- No short corruption of an inode goes unnoticed. -/
theorem inodeCsum_catches {d d' : DInode} (hd : d.csum = inodeCsum d) (h : inodeBytes.Damaged d d') :
    d'.csum ≠ inodeCsum d' := by
  rw [inodeCsum_eq] at hd ⊢
  exact h.ne (fun _ => rfl) hd

/-- Another link count is a burst of 16 bits. -/
theorem damaged_setLinks {d : DInode} {v : ℕ} (hv : v < 2 ^ 16) (h : d.links ≠ v) :
    inodeBytes.Damaged d (d.setLinks v) := by
  have hbyte : ∀ k, k / 8 < 220 → ¬ (16 ≤ k ∧ k < 16 + 32) →
    (d.setLinks v).byte (k / 8) = d.byte (k / 8) := fun k hk hout =>
    byte_setLE_ne d (by omega)
  refine Or.inl ⟨⟨by simp [inodeBytes], ⟨16, fun k hk => ?_⟩, fun heq => h ?_⟩, ?_⟩
  · by_contra hout
    refine hk ?_
    unfold bitAt
    by_cases hlt : k / 8 < 220
    · change (((d.slice 0 220).getD (k / 8) 0).toBitVec.getLsbD _) =
        ((((d.setLinks v).slice 0 220).getD (k / 8) 0).toBitVec.getLsbD _)
      rw [getD_slice d hlt, getD_slice _ hlt, Nat.zero_add, hbyte k hlt hout]
    · rw [List.getD_eq_default _ _ (by simp [inodeBytes]; omega),
        List.getD_eq_default _ _ (by simp [inodeBytes]; omega)]
  · have hlinks : d.links = (d.setLinks v).links := getLE_congr fun i hi => by
      rw [← Nat.zero_add (2 + i), ← getD_slice d (show 2 + i < 220 by omega),
        ← getD_slice (d.setLinks v) (show 2 + i < 220 by omega)]
      exact congrArg (List.getD · (2 + i) 0) heq
    rw [hlinks, DInode.links, DInode.setLinks, getLE_setLE_same d v (by decide), Nat.mod_eq_of_lt (by omega)]
  · exact slice_congr fun i hi => byte_setLE_ne d (by omega)

/-- No short corruption of the superblock goes unnoticed. -/
theorem superCsum_catches {sb sb' : Block} (hsb : Super.sbCsum sb = superCsum sb) (h : superBytes.Damaged sb sb') :
    Super.sbCsum sb' ≠ superCsum sb' := by
  rw [superCsum_eq] at hsb ⊢
  exact h.ne (fun _ => rfl) hsb

end ComputerOS.Cfs
