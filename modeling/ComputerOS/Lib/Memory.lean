import ComputerOS.Lib.Bytes

/-!
Byte-addressed memory with little-endian fields, as C code sees it through pointers.
A field read depends on its own bytes only, and a field write changes them only.
-/
namespace ComputerOS

/-- The byte at every address. -/
abbrev Mem := ℕ → UInt8

namespace Mem

open Bytes (leBytes)

/-- The unsigned number stored in the `w` bytes from address `a` on. -/
def getLE (m : Mem) (a : ℕ) : ℕ → ℕ
  | 0 => 0
  | w + 1 => (m a).toNat + 256 * getLE m (a + 1) w

def setLE (m : Mem) (a w v : ℕ) : Mem := fun i =>
  if a ≤ i ∧ i < a + w then (leBytes w v).getD (i - a) 0 else m i

theorem getLE_lt (m : Mem) (a w : ℕ) : m.getLE a w < 256 ^ w := by
  induction w generalizing a with
  | zero => exact Nat.one_pos
  | succ w ih =>
    have h0 : (m a).toNat < 256 := (m a).toNat_lt
    have htail := ih (a + 1)
    rw [getLE, Nat.pow_succ]
    omega

theorem getLE_congr {m m' : Mem} {a a' w : ℕ} (h : ∀ i, i < w → m (a + i) = m' (a' + i)) :
    m.getLE a w = m'.getLE a' w := by
  induction w generalizing a a' with
  | zero => rfl
  | succ w ih =>
    have h0 : m a = m' a' := h 0 (by omega)
    have htail : m.getLE (a + 1) w = m'.getLE (a' + 1) w := by
      apply ih
      intro i hi
      rw [show a + 1 + i = a + (i + 1) by omega, show a' + 1 + i = a' + (i + 1) by omega]
      exact h (i + 1) (by omega)
    rw [getLE, getLE, h0, htail]

theorem setLE_ne (m : Mem) {a w v i : ℕ} (h : i < a ∨ a + w ≤ i) : m.setLE a w v i = m i :=
  if_neg (by omega)

theorem getLE_setLE_same (m : Mem) (a w v : ℕ) : (m.setLE a w v).getLE a w = v % 256 ^ w := by
  induction w generalizing m a v with
  | zero => simp [getLE, Nat.mod_one]
  | succ w ih =>
    have hhead : m.setLE a (w + 1) v a = UInt8.ofNat v := by
      rw [setLE, if_pos (by omega), Nat.sub_self]
      rfl
    have htail : (m.setLE a (w + 1) v).getLE (a + 1) w =
        (m.setLE (a + 1) w (v / 256)).getLE (a + 1) w := by
      apply getLE_congr
      intro i hi
      rw [setLE, setLE, if_pos (by omega), if_pos (by omega), show a + 1 + i - a = i + 1 by omega,
        show a + 1 + i - (a + 1) = i by omega]
      rfl
    have hlow : (UInt8.ofNat v).toNat = v % 256 := UInt8.toNat_ofNat'
    rw [getLE, hhead, htail, ih, hlow, pow_succ' 256 w, Nat.mod_mul]

theorem getLE_setLE_ne (m : Mem) {a w v a' w' : ℕ} (h : a' + w' ≤ a ∨ a + w ≤ a') :
    (m.setLE a w v).getLE a' w' = m.getLE a' w' :=
  getLE_congr fun i hi => setLE_ne m (by omega)

/-- Copy `src` to address `a`. -/
def put (m : Mem) (a : ℕ) (src : List UInt8) : Mem := fun i =>
  if a ≤ i ∧ i < a + src.length then src.getD (i - a) 0 else m i

theorem put_ne (m : Mem) {a i : ℕ} {src : List UInt8} (h : i < a ∨ a + src.length ≤ i) : m.put a src i = m i :=
  if_neg (by omega)

theorem put_at (m : Mem) {a i : ℕ} {src : List UInt8} (h : i < src.length) : m.put a src (a + i) = src.getD i 0 := by
  rw [put, if_pos (by omega), Nat.add_sub_cancel_left]

/-- A field among the bytes that are copied. -/
theorem getLE_put (m : Mem) (a : ℕ) (pre : List UInt8) (w v : ℕ) (post : List UInt8) :
    (m.put a (pre ++ leBytes w v ++ post)).getLE (a + pre.length) w = v % 256 ^ w := by
  rw [← getLE_setLE_same m (a + pre.length) w v]
  refine getLE_congr fun i hi => ?_
  have hlen : (leBytes w v).length = w := Bytes.length_leBytes w v
  rw [Nat.add_assoc, put_at m (by simp only [List.length_append]; omega), List.append_assoc,
    List.getD_append_right _ _ _ _ (Nat.le_add_right _ _), Nat.add_sub_cancel_left,
    List.getD_append _ _ _ _ (by omega), setLE, if_pos (by omega), ← Nat.add_assoc, Nat.add_sub_cancel_left]

/-- Bit `i`, counting from the least significant bit of the byte at address 0. -/
def bit (m : Mem) (i : ℕ) : Bool := (m (i / 8)).toBitVec.getLsbD (i % 8)

def setBit (m : Mem) (i : ℕ) (val : Bool) : Mem :=
  let mask := UInt8.ofNat (2 ^ (i % 8))
  Function.update m (i / 8) (if val then m (i / 8) ||| mask else m (i / 8) &&& ~~~mask)

theorem bit_setBit (m : Mem) (i j : ℕ) (val : Bool) :
    (m.setBit i val).bit j = if i = j then val else m.bit j := by
  by_cases hbyte : j / 8 = i / 8
  · have hpos : i % 8 = j % 8 ↔ i = j := by omega
    have hlt : j % 8 < 8 := Nat.mod_lt _ (by omega)
    rw [bit, bit, setBit, hbyte, Function.update_self]
    cases val with
    | true =>
      rw [if_pos rfl, UInt8.toBitVec_or, BitVec.getLsbD_or, Bytes.getLsbD_mask hlt]
      by_cases hij : i = j
      · simp [hij]
      · simp [hij, hpos]
    | false =>
      rw [if_neg (by simp), UInt8.toBitVec_and, BitVec.getLsbD_and, UInt8.toBitVec_not,
        BitVec.getLsbD_not, Bytes.getLsbD_mask hlt]
      by_cases hij : i = j
      · simp [hij]
      · simp [hij, hpos, hlt]
  · have hij : i ≠ j := by
      rintro rfl
      exact hbyte rfl
    rw [if_neg hij, bit, bit, setBit, Function.update_of_ne hbyte]

end Mem

end ComputerOS

namespace ComputerOS.Mem

variable {m dst src : Mem} {a b i n k w : ℕ}

/-- The first `n` bytes. -/
def clip (n : ℕ) (m : Mem) : Mem := fun i => if i < n then m i else 0

def blit (dst : Mem) (a : ℕ) (src : Mem) (b n : ℕ) : Mem := fun i =>
  if a ≤ i ∧ i < a + n then src (b + (i - a)) else dst i

theorem clip_of_lt (h : i < n) : m.clip n i = m i := if_pos h

theorem clip_of_le (h : n ≤ i) : m.clip n i = 0 := if_neg (by omega)

theorem clip_congr {m' : Mem} (h : ∀ i, i < n → m i = m' i) : m.clip n = m'.clip n := by
  funext i
  by_cases hi : i < n
  · rw [clip_of_lt hi, clip_of_lt hi, h i hi]
  · rw [clip_of_le (by omega), clip_of_le (by omega)]

@[simp] theorem clip_clip : (m.clip n).clip n = m.clip n := clip_congr fun _ hi => clip_of_lt hi

theorem blit_at (h : i < n) : dst.blit a src b n (a + i) = src (b + i) := by
  rw [blit, if_pos (by omega), Nat.add_sub_cancel_left]

theorem blit_ne (h : i < a ∨ a + n ≤ i) : dst.blit a src b n i = dst i := if_neg (by omega)

end ComputerOS.Mem
