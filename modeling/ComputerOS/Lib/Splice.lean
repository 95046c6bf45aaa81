import Mathlib.Data.List.GetD
import Mathlib.Tactic.Common

/-!
Lists as arrays that grow: cutting or filling up to a length, and writing over a position with a
fill value between the end and the position. The laws say what stands at every index, with the
fill value outside.
-/
namespace ComputerOS

variable {α : Type*} (z : α)

/-- The first `n` elements, filled up. -/
def resize (l : List α) (n : ℕ) : List α := l.take n ++ List.replicate (n - l.length) z

def splice (l : List α) (pos : ℕ) (data : List α) : List α := resize z l pos ++ data ++ l.drop (pos + data.length)

variable {z} {l l' : List α} {n i : ℕ}

theorem ext_getD (hlen : l.length = l'.length) (h : ∀ i < l.length, l.getD i z = l'.getD i z) : l = l' := by
  refine List.ext_getElem hlen fun i hi hi' => ?_
  have := h i hi
  rwa [List.getD_eq_getElem _ _ hi, List.getD_eq_getElem _ _ hi'] at this

theorem getD_map_range (f : ℕ → α) (h : i < n) : ((List.range n).map f).getD i z = f i := by
  rw [List.getD_eq_getElem _ _ (by rw [List.length_map, List.length_range]; exact h),
    List.getElem_map, List.getElem_range]

theorem getD_drop (l : List α) (n i : ℕ) : (l.drop n).getD i z = l.getD (n + i) z := by
  rw [List.getD_eq_getElem?_getD, List.getD_eq_getElem?_getD, List.getElem?_drop]

theorem getD_take (h : i < n) : (l.take n).getD i z = l.getD i z := by
  rw [List.getD_eq_getElem?_getD, List.getD_eq_getElem?_getD, List.getElem?_take_of_lt h]

@[simp] theorem length_resize (l : List α) (n : ℕ) : (resize z l n).length = n := by
  unfold resize
  rw [List.length_append, List.length_take, List.length_replicate]
  omega

theorem getD_resize (h : i < n) : (resize z l n).getD i z = l.getD i z := by
  unfold resize
  by_cases hi : i < l.length
  · rw [List.getD_append _ _ _ _ (by rw [List.length_take]; omega), getD_take h]
  · rw [List.getD_append_right _ _ _ _ (by rw [List.length_take]; omega),
      List.getD_eq_default _ _ (Nat.not_lt.mp hi), List.length_take,
      List.getD_replicate (h := by omega)]

@[simp] theorem length_splice (l : List α) (pos : ℕ) (data : List α) :
    (splice z l pos data).length = max l.length (pos + data.length) := by
  unfold splice
  rw [List.length_append, List.length_append, length_resize, List.length_drop]
  omega

/-- What stands where after a write: the data, or what stood there before. -/
theorem getD_splice (l : List α) (pos : ℕ) (data : List α) (i : ℕ) :
    (splice z l pos data).getD i z = if pos ≤ i ∧ i < pos + data.length then data.getD (i - pos) z else l.getD i z := by
  unfold splice
  by_cases hlow : i < pos
  · rw [if_neg (by omega), List.append_assoc, List.getD_append _ _ _ _ (by rwa [length_resize]), getD_resize hlow]
  · by_cases hhigh : i < pos + data.length
    · rw [if_pos ⟨by omega, hhigh⟩, List.getD_append _ _ _ _ (by rw [List.length_append, length_resize]; exact hhigh),
        List.getD_append_right _ _ _ _ (by rw [length_resize]; omega), length_resize]
    · rw [if_neg (by omega), List.getD_append_right _ _ _ _
        (by rw [List.length_append, length_resize]; omega), List.length_append, length_resize,
        getD_drop]
      congr 1
      omega

/-- A part of a list, by its indices. -/
theorem map_range_eq_slice (f : ℕ → α) (l : List α) (pos n : ℕ) (hlen : pos + n ≤ l.length)
    (h : ∀ i < n, f i = l.getD (pos + i) z) : (List.range n).map f = (l.drop pos).take n := by
  have hlength : ((List.range n).map f).length = n := by rw [List.length_map, List.length_range]
  refine ext_getD (z := z) ?_ fun i hi => ?_
  · rw [hlength, List.length_take, List.length_drop]
    omega
  · rw [hlength] at hi
    rw [getD_map_range f hi, getD_take hi, getD_drop, h i hi]

end ComputerOS
