import Mathlib.Data.Nat.Bitwise
import Mathlib.Data.List.Basic
import Mathlib.Data.Vector.Basic
import Mathlib.Tactic.Ring

/-!
Fixed-size byte objects, as a packed C structure or a disk block lays them out.
Every access is by byte offset: single bytes, little-endian unsigned fields,
byte strings and nested objects. A read outside the object gives zero and a
write outside it is dropped, so each operation is total. The laws say what a
field reads after a write that covers it and after one that misses it.
-/
namespace ComputerOS

def Bytes (n : ℕ) : Type := Vector UInt8 n

namespace Bytes

variable {n m : ℕ}

instance : DecidableEq (Bytes n) := inferInstanceAs (DecidableEq (Vector UInt8 n))

def byte (b : Bytes n) (i : ℕ) : UInt8 := b.toArray.getD i 0

def ofFn (f : ℕ → UInt8) : Bytes n := Vector.ofFn fun i => f i.val

def zero : Bytes n := ofFn fun _ => 0

instance : Inhabited (Bytes n) := ⟨zero⟩

theorem byte_ofFn (f : ℕ → UInt8) {i : ℕ} (h : i < n) : (ofFn f : Bytes n).byte i = f i := by
  simp [byte, ofFn, Vector.ofFn, h]

theorem byte_of_le (b : Bytes n) {i : ℕ} (h : n ≤ i) : b.byte i = 0 := by
  have hs : b.toArray.size ≤ i := by rw [b.size_toArray]; exact h
  simp [byte, hs]

theorem byte_ofFn_ite (f : ℕ → UInt8) (i : ℕ) :
    (ofFn f : Bytes n).byte i = if i < n then f i else 0 := by
  split
  · next h => exact byte_ofFn f h
  · next h => exact byte_of_le _ (by omega)

@[simp] theorem byte_zero (i : ℕ) : (zero : Bytes n).byte i = 0 := by
  simp [zero, byte_ofFn_ite]

theorem ext_byte {a b : Bytes n} (h : ∀ i, i < n → a.byte i = b.byte i) : a = b := by
  apply Vector.ext
  intro i hi
  have hi' := h i hi
  have ha : i < a.toArray.size := by rw [a.size_toArray]; exact hi
  have hb : i < b.toArray.size := by rw [b.size_toArray]; exact hi
  simp only [byte, Array.getD, ha, hb, dite_true] at hi'
  exact hi'

/-- Copy `src` into the object from offset `off` on. -/
def put (b : Bytes n) (off : ℕ) (src : List UInt8) : Bytes n :=
  ofFn fun i => if off ≤ i ∧ i < off + src.length then src.getD (i - off) 0 else b.byte i

def slice (b : Bytes n) (off len : ℕ) : List UInt8 :=
  (List.range len).map fun i => b.byte (off + i)

theorem byte_put_of_mem (b : Bytes n) {off i : ℕ} {src : List UInt8} (hn : i < n)
    (hl : off ≤ i) (hr : i < off + src.length) :
    (b.put off src).byte i = src.getD (i - off) 0 := by
  rw [put, byte_ofFn _ hn, if_pos ⟨hl, hr⟩]

theorem byte_put_of_not (b : Bytes n) {off i : ℕ} {src : List UInt8}
    (h : i < off ∨ off + src.length ≤ i) : (b.put off src).byte i = b.byte i := by
  rw [put, byte_ofFn_ite]
  split
  · rw [if_neg (by omega)]
  · exact (byte_of_le b (by omega)).symm

@[simp] theorem length_slice (b : Bytes n) (off len : ℕ) : (b.slice off len).length = len := by
  simp [slice]

theorem slice_congr {a : Bytes n} {b : Bytes m} {off off' len : ℕ}
    (h : ∀ i, i < len → a.byte (off + i) = b.byte (off' + i)) :
    a.slice off len = b.slice off' len := by
  apply List.map_congr_left
  intro i hi
  exact h i (List.mem_range.mp hi)

theorem slice_put_same (b : Bytes n) (off : ℕ) (src : List UInt8) (h : off + src.length ≤ n) :
    (b.put off src).slice off src.length = src := by
  apply List.ext_getElem
  · simp
  · intro i h1 h2
    have hi : i < src.length := h2
    have hget : ((b.put off src).slice off src.length)[i] = (b.put off src).byte (off + i) := by
      simp [slice]
    rw [hget, byte_put_of_mem b (by omega) (by omega) (by omega), Nat.add_sub_cancel_left]
    simp [hi]

theorem slice_put_ne (b : Bytes n) {off off' len : ℕ} {src : List UInt8}
    (h : off' + len ≤ off ∨ off + src.length ≤ off') :
    (b.put off src).slice off' len = b.slice off' len := by
  apply slice_congr
  intro i hi
  exact byte_put_of_not b (by omega)

/-- A write that covers an earlier one makes it invisible. -/
theorem put_put_same (b : Bytes n) {off : ℕ} {src src' : List UInt8}
    (h : src.length ≤ src'.length) : (b.put off src).put off src' = b.put off src' := by
  apply ext_byte
  intro i hi
  by_cases hin : off ≤ i ∧ i < off + src'.length
  · rw [byte_put_of_mem _ hi hin.1 hin.2, byte_put_of_mem _ hi hin.1 hin.2]
  · rw [byte_put_of_not _ (by omega), byte_put_of_not _ (by omega), byte_put_of_not _ (by omega)]

theorem getD_slice (b : Bytes n) {off len i : ℕ} (h : i < len) :
    (b.slice off len).getD i 0 = b.byte (off + i) := by
  simp [slice, h]

theorem take_slice (b : Bytes n) (off len k : ℕ) :
    (b.slice off len).take k = b.slice off (min k len) := by
  simp [slice, ← List.map_take, List.take_range]

theorem drop_slice (b : Bytes n) (off len k : ℕ) :
    (b.slice off len).drop k = b.slice (off + k) (len - k) := by
  apply List.ext_getElem
  · simp
  · intro i h1 h2
    simp [slice, Nat.add_assoc]

theorem slice_one (b : Bytes n) (off : ℕ) : b.slice off 1 = [b.byte off] := by
  simp [slice]

/-- The `w` bytes of `v`, least significant first; higher bits are dropped. -/
def leBytes : ℕ → ℕ → List UInt8
  | 0, _ => []
  | w + 1, v => UInt8.ofNat v :: leBytes w (v / 256)

@[simp] theorem length_leBytes (w v : ℕ) : (leBytes w v).length = w := by
  induction w generalizing v with
  | zero => rfl
  | succ w ih => simp [leBytes, ih]

/-- The unsigned number stored in the `w` bytes from `off` on. -/
def getLE (b : Bytes n) (off : ℕ) : ℕ → ℕ
  | 0 => 0
  | w + 1 => (b.byte off).toNat + 256 * getLE b (off + 1) w

def setLE (b : Bytes n) (off w v : ℕ) : Bytes n := b.put off (leBytes w v)

theorem getLE_congr {a : Bytes n} {b : Bytes m} {off off' w : ℕ}
    (h : ∀ i, i < w → a.byte (off + i) = b.byte (off' + i)) : a.getLE off w = b.getLE off' w := by
  induction w generalizing off off' with
  | zero => rfl
  | succ w ih =>
    have h0 : a.byte off = b.byte off' := h 0 (by omega)
    have htail : a.getLE (off + 1) w = b.getLE (off' + 1) w := by
      apply ih
      intro i hi
      have hstep := h (i + 1) (by omega)
      rwa [show off + (i + 1) = off + 1 + i by omega,
        show off' + (i + 1) = off' + 1 + i by omega] at hstep
    simp only [getLE, h0, htail]

theorem getLE_lt (b : Bytes n) (off w : ℕ) : b.getLE off w < 256 ^ w := by
  induction w generalizing off with
  | zero => simp [getLE]
  | succ w ih =>
    have hb : (b.byte off).toNat < 256 := (b.byte off).toNat_lt
    have htail := ih (off + 1)
    rw [getLE, pow_succ]
    omega

theorem getLE_put_leBytes (b : Bytes n) (off w v : ℕ) (h : off + w ≤ n) :
    (b.put off (leBytes w v)).getLE off w = v % 256 ^ w := by
  induction w generalizing b off v with
  | zero => simp [getLE, Nat.mod_one]
  | succ w ih =>
    have hhead : (b.put off (leBytes (w + 1) v)).byte off = UInt8.ofNat v := by
      rw [byte_put_of_mem b (by omega) (le_refl _) (by simp)]
      simp [leBytes]
    have htail : (b.put off (leBytes (w + 1) v)).getLE (off + 1) w =
        (b.put (off + 1) (leBytes w (v / 256))).getLE (off + 1) w := by
      apply getLE_congr
      intro i hi
      rw [byte_put_of_mem b (by omega) (by omega) (by simp; omega),
        byte_put_of_mem b (by omega) (by omega) (by simp; omega)]
      rw [show off + 1 + i - off = i + 1 by omega, show off + 1 + i - (off + 1) = i by omega]
      simp [leBytes]
    have hlow : (UInt8.ofNat v).toNat = v % 256 := UInt8.toNat_ofNat'
    rw [getLE, hhead, htail, ih b (off + 1) (v / 256) (by omega), hlow, pow_succ' 256 w,
      Nat.mod_mul]

theorem getLE_setLE_same (b : Bytes n) {off w : ℕ} (v : ℕ) (h : off + w ≤ n) :
    (b.setLE off w v).getLE off w = v % 256 ^ w :=
  getLE_put_leBytes b off w v h

theorem getLE_put_ne (b : Bytes n) {off off' w : ℕ} {src : List UInt8}
    (h : off' + w ≤ off ∨ off + src.length ≤ off') :
    (b.put off src).getLE off' w = b.getLE off' w := by
  apply getLE_congr
  intro i hi
  exact byte_put_of_not b (by omega)

@[simp] theorem getLE_setLE_ne (b : Bytes n) {off off' w w' v : ℕ}
    (h : off' + w' ≤ off ∨ off + w ≤ off') : (b.setLE off w v).getLE off' w' = b.getLE off' w' :=
  getLE_put_ne b (by simpa using h)

theorem setLE_setLE_same (b : Bytes n) (off w v v' : ℕ) :
    (b.setLE off w v).setLE off w v' = b.setLE off w v' :=
  put_put_same b (by simp)

theorem byte_setLE_ne (b : Bytes n) {off w v i : ℕ} (h : i < off ∨ off + w ≤ i) :
    (b.setLE off w v).byte i = b.byte i :=
  byte_put_of_not b (by simpa using h)

@[simp] theorem slice_setLE_ne (b : Bytes n) {off off' w v len : ℕ}
    (h : off' + len ≤ off ∨ off + w ≤ off') : (b.setLE off w v).slice off' len = b.slice off' len :=
  slice_put_ne b (by simpa using h)

@[simp] theorem getLE_zero (off w : ℕ) : (zero : Bytes n).getLE off w = 0 := by
  induction w generalizing off with
  | zero => rfl
  | succ w ih => simp [getLE, ih]

/-- A field is determined by its value: objects that agree outside it and in
its value agree on its bytes too. -/
theorem byte_eq_of_getLE_eq {a : Bytes n} {b : Bytes m} {off off' w i : ℕ}
    (h : a.getLE off w = b.getLE off' w) (hi : i < w) :
    a.byte (off + i) = b.byte (off' + i) := by
  induction w generalizing off off' i with
  | zero => omega
  | succ w ih =>
    simp only [getLE] at h
    have ha : (a.byte off).toNat < 256 := (a.byte off).toNat_lt
    have hb : (b.byte off').toNat < 256 := (b.byte off').toNat_lt
    have hhead : (a.byte off).toNat = (b.byte off').toNat := by omega
    cases i with
    | zero => exact UInt8.toNat_inj.mp hhead
    | succ i =>
      have htail := @ih (off + 1) (off' + 1) i (by omega) (by omega)
      rwa [show off + (i + 1) = off + 1 + i by omega,
        show off' + (i + 1) = off' + 1 + i by omega]

/-- Writing the value that is there changes nothing. -/
theorem setLE_self (b : Bytes n) {off w v : ℕ} (hw : off + w ≤ n) (h : b.getLE off w = v % 256 ^ w) :
    b.setLE off w v = b := by
  apply ext_byte
  intro i _
  by_cases hi : off ≤ i ∧ i < off + w
  · obtain ⟨j, rfl⟩ := Nat.exists_eq_add_of_le hi.1
    refine byte_eq_of_getLE_eq ?_ (show j < w by omega)
    rw [getLE_setLE_same b v hw, h]
  · exact byte_setLE_ne b (by omega)

/-- Bit `i`, counting from the least significant bit of byte 0. -/
def bit (b : Bytes n) (i : ℕ) : Bool := (b.byte (i / 8)).toBitVec.getLsbD (i % 8)

def setBit (b : Bytes n) (i : ℕ) (val : Bool) : Bytes n :=
  let m := UInt8.ofNat (2 ^ (i % 8))
  b.put (i / 8) [if val then b.byte (i / 8) ||| m else b.byte (i / 8) &&& ~~~m]

theorem getLsbD_mask {j k : ℕ} (hk : k < 8) :
    (UInt8.ofNat (2 ^ j)).toBitVec.getLsbD k = decide (j = k) := by
  have h : (UInt8.ofNat (2 ^ j)).toBitVec = BitVec.ofNat 8 (2 ^ j) := rfl
  rw [h, BitVec.getLsbD_ofNat, Nat.testBit_two_pow]
  simp [hk]

theorem bit_setBit (b : Bytes n) {i j : ℕ} (val : Bool) (hi : i < 8 * n) :
    (b.setBit i val).bit j = if i = j then val else b.bit j := by
  by_cases hbyte : i / 8 = j / 8
  · have hget : (b.setBit i val).byte (j / 8) =
        if val then b.byte (j / 8) ||| UInt8.ofNat (2 ^ (i % 8))
        else b.byte (j / 8) &&& ~~~ UInt8.ofNat (2 ^ (i % 8)) := by
      rw [setBit, byte_put_of_mem b (by omega) (by omega) (by simp; omega), hbyte]
      simp
    have hpos : i % 8 = j % 8 ↔ i = j := by omega
    have hlt : j % 8 < 8 := Nat.mod_lt _ (by omega)
    unfold bit
    rw [hget]
    cases val with
    | true =>
      rw [if_pos rfl, UInt8.toBitVec_or, BitVec.getLsbD_or, getLsbD_mask hlt]
      by_cases hij : i = j
      · simp [hij]
      · simp [hij, hpos]
    | false =>
      rw [if_neg (by simp), UInt8.toBitVec_and, BitVec.getLsbD_and, UInt8.toBitVec_not,
        BitVec.getLsbD_not, getLsbD_mask hlt]
      by_cases hij : i = j
      · simp [hij]
      · simp [hij, hpos, hlt]
  · have hij : i ≠ j := by
      intro h
      exact hbyte (by rw [h])
    rw [if_neg hij, bit, bit, setBit, byte_put_of_not b (by simp; omega)]

def sub (b : Bytes n) (off : ℕ) : Bytes m := ofFn fun i => b.byte (off + i)

/-- Overwrite the bytes from `off` on with a whole object. -/
def paste (b : Bytes n) (off : ℕ) (s : Bytes m) : Bytes n := b.put off (s.slice 0 m)

theorem byte_sub (b : Bytes n) {off i : ℕ} (h : i < m) :
    (b.sub off : Bytes m).byte i = b.byte (off + i) := byte_ofFn _ h

theorem byte_paste_of_mem (b : Bytes n) (s : Bytes m) {off i : ℕ} (hn : i < n) (hl : off ≤ i)
    (hr : i < off + m) : (b.paste off s).byte i = s.byte (i - off) := by
  rw [paste, byte_put_of_mem b hn hl (by simpa using hr), getD_slice s (by omega), Nat.zero_add]

theorem byte_paste_of_not (b : Bytes n) (s : Bytes m) {off i : ℕ} (h : i < off ∨ off + m ≤ i) :
    (b.paste off s).byte i = b.byte i :=
  byte_put_of_not b (by simpa using h)

theorem sub_paste_same (b : Bytes n) (s : Bytes m) {off : ℕ} (h : off + m ≤ n) :
    (b.paste off s).sub off = s := by
  apply ext_byte
  intro i hi
  rw [byte_sub _ hi, byte_paste_of_mem b s (by omega) (by omega) (by omega), Nat.add_sub_cancel_left]

theorem sub_paste_ne (b : Bytes n) (s : Bytes m) {off off' k : ℕ}
    (h : off' + k ≤ off ∨ off + m ≤ off') :
    ((b.paste off s).sub off' : Bytes k) = b.sub off' := by
  apply ext_byte
  intro i hi
  rw [byte_sub _ hi, byte_sub _ hi, byte_paste_of_not b s (by omega)]

end Bytes

end ComputerOS
