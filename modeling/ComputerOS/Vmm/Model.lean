import ComputerOS.Pmm.Model
import ComputerOS.Lib.TableTree

/-!
Four-level page tables. A table is a frame of 512 words, found through its physical address;
missing tables are allocated on the way to a page's entry. Words are 64 bits wide.
-/
namespace ComputerOS.Vmm

open Pmm

/-- The first entry of a root table for the upper half. -/
def PML4_KERNEL : ℕ := 256

def VMM_PRESENT : ℕ := 1

def VMM_WRITE : ℕ := 2

def VMM_USER : ℕ := 4

/-- `mem phys i` is word `i` of the frame at address `phys`, for `i` below 512. -/
structure VmmState where
  pmm : PmmState
  mem : ℕ → ℕ → ℕ
  kernelPml4 : ℕ

def pml4Index (v : ℕ) : ℕ := (v >>> 39) &&& 0x1FF

def pdptIndex (v : ℕ) : ℕ := (v >>> 30) &&& 0x1FF

def pdIndex (v : ℕ) : ℕ := (v >>> 21) &&& 0x1FF

def ptIndex (v : ℕ) : ℕ := (v >>> 12) &&& 0x1FF

def frameOf (e : ℕ) : ℕ := e &&& 0xFFFFFFFFFFFFF000

def present (e : ℕ) : Bool := e &&& VMM_PRESENT ≠ 0

def VmmState.write (s : VmmState) (table index e : ℕ) : VmmState :=
  { s with mem := Function.update s.mem table (Function.update (s.mem table) index e) }

/-- `alloc_pt_phys`: a zeroed frame, 0 when there is none. -/
def allocPtPhys (s : VmmState) : ℕ × VmmState :=
  let (phys, pmm) := pmmAlloc s.pmm
  if phys = 0 then (0, { s with pmm })
  else (phys, { s with pmm, mem := Function.update s.mem phys fun _ => 0 })

/-- One level of `walk_to_pte`: the table behind an entry, allocated if need be. -/
def nextTable (table index virt : ℕ) (alloc : Bool) (s : VmmState) : Option ℕ × VmmState :=
  let e := s.mem table index
  if present e then (some (frameOf e), s)
  else if alloc then
    let (phys, s) := allocPtPhys s
    if phys = 0 then (none, s)
    else (some phys, s.write table index
      (phys ||| VMM_PRESENT ||| VMM_WRITE ||| (if virt < 0xFFFF800000000000 then VMM_USER else 0)))
  else (none, s)

/-- `walk_to_pte`: the table and the index of the page's entry. -/
def walkToPte (pml4 virt : ℕ) (alloc : Bool) (s : VmmState) : Option (ℕ × ℕ) × VmmState :=
  match nextTable pml4 (pml4Index virt) virt alloc s with
  | (none, s) => (none, s)
  | (some pdpt, s) =>
    match nextTable pdpt (pdptIndex virt) virt alloc s with
    | (none, s) => (none, s)
    | (some pd, s) =>
      match nextTable pd (pdIndex virt) virt alloc s with
      | (none, s) => (none, s)
      | (some pt, s) => (some (pt, ptIndex virt), s)

/-- `vmm_map_in`: 1, or 0 when a table cannot be allocated. -/
def vmmMapIn (pml4 virt phys flags : ℕ) (s : VmmState) : ℕ × VmmState :=
  match walkToPte pml4 virt true s with
  | (none, s) => (0, s)
  | (some (pt, i), s) => (1, s.write pt i (frameOf phys ||| (flags &&& 0xFFF) ||| VMM_PRESENT))

/-- `vmm_resolve_in`: the physical address, 0 when the page is not mapped. -/
def vmmResolveIn (pml4 virt : ℕ) (s : VmmState) : ℕ :=
  match (walkToPte pml4 virt false s).1 with
  | none => 0
  | some (pt, i) => if present (s.mem pt i) then frameOf (s.mem pt i) ||| (virt &&& 0xFFF) else 0

/-- `vmm_new_user_pd`: an address space whose upper half is the kernel's; 0 on failure. -/
def vmmNewUserPd (s : VmmState) : ℕ × VmmState :=
  let (newPhys, s) := allocPtPhys s
  if newPhys = 0 then (0, s)
  else (newPhys, { s with mem := Function.update s.mem newPhys fun i =>
    if i < PML4_KERNEL then 0 else s.mem s.kernelPml4 i })

/-- Any part of the kernel that takes a frame for itself. -/
def takeFrame (s : VmmState) : ℕ × VmmState := ((pmmAlloc s.pmm).1, { s with pmm := (pmmAlloc s.pmm).2 })

def giveFrame (phys : ℕ) (s : VmmState) : VmmState := { s with pmm := pmmFree phys s.pmm }

theorem index_eq (v k : ℕ) : (v >>> k) &&& 0x1FF = v / 2 ^ k % 512 := by
  rw [Nat.shiftRight_eq_div_pow]
  exact Nat.and_two_pow_sub_one_eq_mod _ 9

theorem low_eq (v : ℕ) : v &&& 0xFFF = v % 4096 := Nat.and_two_pow_sub_one_eq_mod _ 12

/-- The 36 bits above the page offset are what the four indices say. -/
theorem page_eq_iff {v w : ℕ} (hv : v < 2 ^ 48) (hw : w < 2 ^ 48) :
    v / 4096 = w / 4096 ↔ pml4Index v = pml4Index w ∧ pdptIndex v = pdptIndex w ∧
      pdIndex v = pdIndex w ∧ ptIndex v = ptIndex w := by
  simp only [pml4Index, pdptIndex, pdIndex, ptIndex, index_eq]
  omega

theorem present_eq (e : ℕ) : present e = decide (e % 2 = 1) := by
  have h : e &&& VMM_PRESENT = e % 2 := Nat.and_two_pow_sub_one_eq_mod e 1
  rw [present, h]
  exact decide_eq_decide.mpr (by omega)

theorem frameOf_eq {e : ℕ} (he : e < 2 ^ 64) : frameOf e = e / 4096 * 4096 := by
  refine Nat.eq_of_testBit_eq fun i => ?_
  have hmask : (0xFFFFFFFFFFFFF000 : ℕ) = (2 ^ 52 - 1) * 2 ^ 12 := by norm_num
  have hshift : e / 4096 * 4096 = (e >>> 12) <<< 12 := by
    rw [Nat.shiftLeft_eq, Nat.shiftRight_eq_div_pow]
  rw [frameOf, Nat.testBit_and, hmask, ← Nat.shiftLeft_eq, Nat.testBit_shiftLeft, hshift,
    Nat.testBit_shiftLeft, Nat.testBit_shiftRight, Nat.testBit_two_pow_sub_one]
  by_cases h12 : 12 ≤ i
  · by_cases h64 : i < 64
    · have : i - 12 < 52 := by omega
      simp [h12, this]
    · have hbig : e.testBit i = false :=
        Nat.testBit_lt_two_pow (lt_of_lt_of_le he (Nat.pow_le_pow_right (by omega) (by omega)))
      simp [hbig, h12]
  · simp [h12]

theorem or_low {a f : ℕ} (ha : a % 4096 = 0) (hf : f < 4096) : a ||| f = a + f := by
  obtain ⟨k, rfl⟩ : ∃ k, a = k * 4096 := ⟨a / 4096, by omega⟩
  have h := Nat.two_pow_add_eq_or_of_lt (i := 12) hf k
  rw [Nat.mul_comm (2 ^ 12) k] at h
  exact h.symm

theorem entry_eq {a f : ℕ} (ha : a % 4096 = 0) (hlt : a < 2 ^ 64) (hf : f < 4096) (hodd : f % 2 = 1) :
    present (a ||| f) = true ∧ frameOf (a ||| f) = a := by
  rw [or_low ha hf]
  constructor
  · rw [present_eq, decide_eq_true_eq]
    omega
  · rw [frameOf_eq (by omega)]
    omega

end ComputerOS.Vmm
