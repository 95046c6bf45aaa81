import Mathlib.Logic.Function.Basic
import Mathlib.Data.List.Basic

/-!
Sequences of writes to a store, and stores left behind by a writer that stopped.
A write replaces the value of one cell and costs `u` units; a writer that stops
inside a write leaves the cell as `tear` says. Replaying a whole log over any
store that differs from the original only in the logged cells gives the same
result, which is why redo may be repeated after a crash.
-/
namespace ComputerOS.WriteLog

variable {A V : Type*} [DecidableEq A]

/-- The store after all writes of the log. -/
def apply : List (A × V) → (A → V) → A → V
  | [], d => d
  | (a, v) :: ws, d => apply ws (Function.update d a v)

/-- The store when the writer stopped after `p` units. -/
def crash (tear : ℕ → V → V → V) (u : ℕ) : ℕ → List (A × V) → (A → V) → A → V
  | _, [], d => d
  | p, (a, v) :: ws, d =>
      if u ≤ p then crash tear u (p - u) ws (Function.update d a v)
      else Function.update d a (tear p (d a) v)

theorem apply_append (ws vs : List (A × V)) (d : A → V) :
    apply (ws ++ vs) d = apply vs (apply ws d) := by
  induction ws generalizing d with
  | nil => rfl
  | cons w ws ih => exact ih _

theorem apply_of_not_mem {ws : List (A × V)} {d : A → V} {x : A}
    (h : ∀ w ∈ ws, w.1 ≠ x) : apply ws d x = d x := by
  induction ws generalizing d with
  | nil => rfl
  | cons w ws ih =>
    obtain ⟨a, v⟩ := w
    have hne : x ≠ a := Ne.symm (h (a, v) (List.mem_cons_self ..))
    rw [apply, ih (fun w hw => h w (List.mem_cons_of_mem _ hw)), Function.update_of_ne hne]

/-- Only the cells the log does not write remember the store it is applied to. -/
theorem apply_congr {ws : List (A × V)} {d e : A → V} {x : A}
    (h : (∀ w ∈ ws, w.1 ≠ x) → d x = e x) : apply ws d x = apply ws e x := by
  induction ws generalizing d e with
  | nil => exact h (by simp)
  | cons w ws ih =>
    obtain ⟨a, v⟩ := w
    apply ih
    intro hrest
    by_cases hx : x = a
    · subst hx
      simp
    · rw [Function.update_of_ne hx, Function.update_of_ne hx]
      apply h
      intro w hw
      rcases List.mem_cons.mp hw with rfl | hw
      · exact Ne.symm hx
      · exact hrest w hw

variable {tear : ℕ → V → V → V} {u : ℕ}

theorem crash_of_not_mem {p : ℕ} {ws : List (A × V)} {d : A → V} {x : A}
    (h : ∀ w ∈ ws, w.1 ≠ x) : crash tear u p ws d x = d x := by
  induction ws generalizing p d with
  | nil => rfl
  | cons w ws ih =>
    obtain ⟨a, v⟩ := w
    have hne : x ≠ a := Ne.symm (h (a, v) (List.mem_cons_self ..))
    rw [crash]
    split
    · rw [ih (fun w hw => h w (List.mem_cons_of_mem _ hw)), Function.update_of_ne hne]
    · exact Function.update_of_ne hne _ _

theorem crash_append (p : ℕ) (ws vs : List (A × V)) (d : A → V) :
    crash tear u p (ws ++ vs) d =
      if u * ws.length ≤ p then crash tear u (p - u * ws.length) vs (apply ws d)
      else crash tear u p ws d := by
  induction ws generalizing p d with
  | nil => simp [apply]
  | cons w ws ih =>
    obtain ⟨a, v⟩ := w
    rw [List.cons_append, crash, List.length_cons, Nat.mul_succ]
    by_cases hu : u ≤ p
    · rw [if_pos hu, ih]
      by_cases hl : u * ws.length ≤ p - u
      · rw [if_pos hl, if_pos (by omega), apply,
          show p - u - u * ws.length = p - (u * ws.length + u) by omega]
      · rw [if_neg hl, if_neg (by omega), crash, if_pos hu]
    · rw [if_neg hu, if_neg (by omega), crash, if_neg hu]

end ComputerOS.WriteLog
