import Mathlib.Data.List.Basic
import Mathlib.Algebra.BigOperators.Group.List.Basic
import Mathlib.Order.Basic
import Mathlib.Algebra.Ring.Nat

/-!
Ones-complement sums of numbers up to `m`, which has all bits set. A carry out of the top is added
in again at the bottom, so a sum is the exact one modulo `m`, with `m` instead of zero where
something was added.
-/
namespace ComputerOS

variable {m a b r s : ℕ} {ws : List ℕ}

/-- Addition with the carry added in again. -/
def onesAdd (m a b : ℕ) : ℕ := if a + b ≤ m then a + b else a + b - m

def onesSum (m : ℕ) (ws : List ℕ) : ℕ := ws.foldr (onesAdd m) 0

/-- The ones-complement number for `s`. -/
def residue (m s : ℕ) : ℕ := if s = 0 then 0 else (s - 1) % m + 1

theorem residue_of_le (h : s ≤ m) : residue m s = s := by
  unfold residue
  split
  · omega
  · rw [Nat.mod_eq_of_lt (by omega)]
    omega

theorem residue_le (hm : 0 < m) (s : ℕ) : residue m s ≤ m := by
  unfold residue
  split
  · omega
  · exact Nat.mod_lt _ hm

/-- Taking away all the bits once does not change a number above them. -/
theorem residue_add_self (hs : s ≠ 0) : residue m (s + m) = residue m s := by
  unfold residue
  rw [if_neg hs, if_neg (by omega), Nat.sub_add_comm (by omega), Nat.add_mod_right]

theorem residue_add_mul (hs : s ≠ 0) (k : ℕ) : residue m (s + m * k) = residue m s := by
  induction k with
  | zero => rfl
  | succ k ih => rw [Nat.mul_succ, ← Nat.add_assoc, residue_add_self (by omega), ih]

theorem residue_decomp (m s : ℕ) : ∃ k, s = residue m s + m * k := by
  unfold residue
  split
  · exact ⟨0, by omega⟩
  · refine ⟨(s - 1) / m, ?_⟩
    have := Nat.mod_add_div (s - 1) m
    omega

theorem residue_eq_zero (m s : ℕ) : residue m s = 0 ↔ s = 0 := by
  unfold residue
  split
  · simp [*]
  · simp [*]

theorem onesAdd_residue (hm : 0 < m) (ha : a ≤ m) (s : ℕ) : onesAdd m a (residue m s) = residue m (a + s) := by
  obtain ⟨k, hk⟩ := residue_decomp m s
  have hle := residue_le hm s
  have hzero := residue_eq_zero m s
  have hsum : residue m (a + s) = residue m (a + residue m s) := by
    by_cases hs : a + residue m s = 0
    · have ha0 : a = 0 := by omega
      have hs0 := hzero.1 (by omega)
      rw [ha0, hs0]
      rfl
    · calc residue m (a + s) = residue m (a + residue m s + m * k) := by rw [Nat.add_assoc, ← hk]
        _ = residue m (a + residue m s) := residue_add_mul hs k
  rw [hsum]
  unfold onesAdd
  split
  · rename_i hfits
    exact (residue_of_le hfits).symm
  · obtain ⟨t, ht⟩ : ∃ t, a + residue m s = t + m := ⟨a + residue m s - m, by omega⟩
    rw [ht, residue_add_self (by omega), Nat.add_sub_cancel, residue_of_le (by omega)]

theorem onesSum_eq (hm : 0 < m) (h : ∀ w ∈ ws, w ≤ m) : onesSum m ws = residue m ws.sum := by
  induction ws with
  | nil => rfl
  | cons w ws ih =>
    rw [List.forall_mem_cons] at h
    change onesAdd m w (onesSum m ws) = _
    rw [ih h.2, onesAdd_residue hm h.1, List.sum_cons]

theorem residue_add_complement (hm : 0 < m) (s : ℕ) : residue m (s + (m - residue m s)) = m := by
  obtain ⟨k, hk⟩ := residue_decomp m s
  have hle := residue_le hm s
  have htotal : s + (m - residue m s) = m + m * k := by omega
  rw [htotal, residue_add_mul (by omega), residue_of_le (Nat.le_refl m)]

/-- Adding the part above the top to the part below it. -/
theorem residue_carry (m s : ℕ) : residue m (s % (m + 1) + s / (m + 1)) = residue m s := by
  have hdiv := Nat.mod_add_div s (m + 1)
  by_cases hs : s = 0
  · rw [hs, Nat.zero_mod, Nat.zero_div]
  · have hne : s % (m + 1) + s / (m + 1) ≠ 0 := by
      intro h
      rw [Nat.add_eq_zero_iff] at h
      rw [h.1, h.2] at hdiv
      omega
    have hsplit : s % (m + 1) + s / (m + 1) + m * (s / (m + 1)) = s := by
      rw [Nat.succ_mul] at hdiv
      omega
    rw [← residue_add_mul hne (s / (m + 1)), hsplit]

end ComputerOS
