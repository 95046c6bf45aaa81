import Mathlib.Data.List.Basic
import Mathlib.Order.Basic
import Mathlib.Algebra.Ring.Nat

/-!
The lines of a text, as the list that splitting it at the newlines gives, and the place of a
position among them: the row is the number of newlines before it, and the row starts where the lines
before it end.
-/
namespace ComputerOS

variable {α : Type} [DecidableEq α] {nl x : α} {t : List α} {r i : ℕ}

def lineStart (nl : α) (t : List α) (r : ℕ) : ℕ := (((t.splitOn nl).take r).map fun l => l.length + 1).sum

/-- The length of row `r`, without its newline. -/
def lineLength (nl : α) (t : List α) (r : ℕ) : ℕ := ((t.splitOn nl)[r]?.getD []).length

def rowOf (nl : α) (t : List α) (i : ℕ) : ℕ := (t.take i).count nl

theorem splitOn_nl_cons (nl : α) (t : List α) : (nl :: t).splitOn nl = [] :: t.splitOn nl := by
  rw [List.splitOn_eq_splitOnP, List.splitOnP_cons_eq_if_modifyHead, if_pos (beq_self_eq_true nl),
    ← List.splitOn_eq_splitOnP]

theorem splitOn_cons_of_ne (h : x ≠ nl) (t : List α) :
    ∃ l ls, t.splitOn nl = l :: ls ∧ (x :: t).splitOn nl = (x :: l) :: ls := by
  obtain ⟨l, ls, hsplit⟩ := List.exists_cons_of_ne_nil (List.splitOnP_ne_nil (fun y => y == nl) t)
  rw [List.splitOn_eq_splitOnP, List.splitOn_eq_splitOnP, List.splitOnP_cons_eq_if_modifyHead,
    if_neg (by simpa using h), hsplit]
  exact ⟨l, ls, rfl, rfl⟩

theorem length_splitOn (nl : α) (t : List α) : (t.splitOn nl).length = t.count nl + 1 := by
  induction t with
  | nil => rfl
  | cons x t ih =>
    by_cases hx : x = nl
    · rw [hx, splitOn_nl_cons, List.length_cons, ih, List.count_cons_self]
    · obtain ⟨l, ls, hsplit, hcons⟩ := splitOn_cons_of_ne hx t
      rw [hsplit] at ih
      rw [hcons, List.count_cons_of_ne hx, ← ih]
      rfl

@[simp] theorem lineStart_zero (nl : α) (t : List α) : lineStart nl t 0 = 0 := rfl

@[simp] theorem rowOf_zero (nl : α) (t : List α) : rowOf nl t 0 = 0 := rfl

theorem lineStart_nl_cons (nl : α) (t : List α) (r : ℕ) : lineStart nl (nl :: t) (r + 1) = lineStart nl t r + 1 := by
  rw [lineStart, splitOn_nl_cons, List.take_succ_cons, List.map_cons, List.sum_cons, lineStart,
    List.length_nil, Nat.zero_add, Nat.add_comm]

theorem lineStart_cons_of_ne (h : x ≠ nl) (t : List α) (r : ℕ) : lineStart nl (x :: t) (r + 1) =
    lineStart nl t (r + 1) + 1 := by
  obtain ⟨l, ls, hsplit, hcons⟩ := splitOn_cons_of_ne h t
  rw [lineStart, hcons, lineStart, hsplit, List.take_succ_cons, List.take_succ_cons, List.map_cons,
    List.map_cons, List.sum_cons, List.sum_cons, List.length_cons]
  omega

theorem lineLength_nl_cons_zero (nl : α) (t : List α) : lineLength nl (nl :: t) 0 = 0 := by
  rw [lineLength, splitOn_nl_cons]
  rfl

theorem lineLength_nl_cons (nl : α) (t : List α) (r : ℕ) : lineLength nl (nl :: t) (r + 1) = lineLength nl t r := by
  rw [lineLength, splitOn_nl_cons]
  rfl

theorem lineLength_cons_zero (h : x ≠ nl) (t : List α) : lineLength nl (x :: t) 0 = lineLength nl t 0 + 1 := by
  obtain ⟨l, ls, hsplit, hcons⟩ := splitOn_cons_of_ne h t
  rw [lineLength, hcons, lineLength, hsplit]
  rfl

theorem lineLength_cons_of_ne (h : x ≠ nl) (t : List α) (r : ℕ) : lineLength nl (x :: t) (r + 1) =
    lineLength nl t (r + 1) := by
  obtain ⟨l, ls, hsplit, hcons⟩ := splitOn_cons_of_ne h t
  rw [lineLength, hcons, lineLength, hsplit]
  rfl

theorem rowOf_nl_cons (nl : α) (t : List α) (i : ℕ) : rowOf nl (nl :: t) (i + 1) = rowOf nl t i + 1 := by
  rw [rowOf, List.take_succ_cons, List.count_cons_self, rowOf]

theorem rowOf_cons_of_ne (h : x ≠ nl) (t : List α) (i : ℕ) : rowOf nl (x :: t) (i + 1) = rowOf nl t i := by
  rw [rowOf, List.take_succ_cons, List.count_cons_of_ne h, rowOf]

theorem rowOf_le (nl : α) (t : List α) (i : ℕ) : rowOf nl t i ≤ t.count nl := (List.take_sublist i t).count_le nl

theorem rowOf_mono (nl : α) (t : List α) {i j : ℕ} (h : i ≤ j) : rowOf nl t i ≤ rowOf nl t j :=
  (List.take_sublist_take_left h).count_le nl

theorem rowOf_length (nl : α) (t : List α) : rowOf nl t t.length = t.count nl := by
  rw [rowOf, List.take_length]

theorem rowOf_succ (nl : α) (h : i < t.length) : rowOf nl t (i + 1) = rowOf nl t i + if t[i] = nl then 1 else 0 := by
  rw [rowOf, List.take_succ_eq_append_getElem h, List.count_append, rowOf, List.count_singleton]
  simp only [beq_iff_eq]

/-- A position lies in its row. -/
theorem lineStart_rowOf_le (nl : α) (hi : i ≤ t.length) :
    lineStart nl t (rowOf nl t i) ≤ i ∧ i ≤ lineStart nl t (rowOf nl t i) + lineLength nl t (rowOf nl t i) := by
  induction t generalizing i with
  | nil =>
    obtain rfl : i = 0 := Nat.le_zero.1 hi
    rw [rowOf_zero, lineStart_zero]
    exact ⟨Nat.le_refl _, Nat.zero_le _⟩
  | cons x t ih =>
    cases i with
    | zero =>
      rw [rowOf_zero, lineStart_zero]
      exact ⟨Nat.le_refl _, Nat.zero_le _⟩
    | succ i =>
      obtain ⟨hlo, hhi⟩ := ih (Nat.le_of_succ_le_succ hi)
      by_cases hx : x = nl
      · rw [hx, rowOf_nl_cons, lineStart_nl_cons, lineLength_nl_cons]
        omega
      · rw [rowOf_cons_of_ne hx]
        rcases hrow : rowOf nl t i with _ | r
        · rw [hrow, lineStart_zero] at hhi
          rw [lineStart_zero, lineLength_cons_zero hx]
          omega
        · rw [hrow] at hlo hhi
          rw [lineStart_cons_of_ne hx, lineLength_cons_of_ne hx]
          omega

theorem lineStart_after_nl (hi : i < t.length) (hnl : t[i] = nl) : lineStart nl t (rowOf nl t i + 1) = i + 1 := by
  induction t generalizing i with
  | nil => exact absurd hi (Nat.not_lt_zero _)
  | cons x t ih =>
    cases i with
    | zero =>
      obtain rfl : x = nl := hnl
      rw [lineStart_nl_cons]
      rfl
    | succ i =>
      have hrest := ih (Nat.lt_of_succ_lt_succ hi) hnl
      by_cases hx : x = nl
      · rw [hx, rowOf_nl_cons, lineStart_nl_cons, hrest]
      · rw [rowOf_cons_of_ne hx, lineStart_cons_of_ne hx, hrest]

/-- Before a newline and at the end of the text a row ends. -/
theorem lineEnd_of_nl (hi : i ≤ t.length) (hnl : ∀ h : i < t.length, t[i] = nl) :
    lineStart nl t (rowOf nl t i) + lineLength nl t (rowOf nl t i) = i := by
  induction t generalizing i with
  | nil =>
    obtain rfl : i = 0 := Nat.le_zero.1 hi
    rfl
  | cons x t ih =>
    cases i with
    | zero =>
      obtain rfl : x = nl := hnl (Nat.zero_lt_succ _)
      rw [rowOf_zero, lineStart_zero, lineLength_nl_cons_zero]
    | succ i =>
      have hrest := ih (Nat.le_of_succ_le_succ hi) fun h => hnl (Nat.succ_lt_succ h)
      by_cases hx : x = nl
      · rw [hx, rowOf_nl_cons, lineStart_nl_cons, lineLength_nl_cons]
        omega
      · rw [rowOf_cons_of_ne hx]
        rcases hrow : rowOf nl t i with _ | r
        · rw [hrow, lineStart_zero] at hrest
          rw [lineStart_zero, lineLength_cons_zero hx]
          omega
        · rw [hrow] at hrest
          rw [lineStart_cons_of_ne hx, lineLength_cons_of_ne hx]
          omega

/-- A row starts and ends inside the text, and its start lies in it. -/
theorem lineStart_spec (hr : r ≤ t.count nl) :
    lineStart nl t r + lineLength nl t r ≤ t.length ∧ rowOf nl t (lineStart nl t r) = r := by
  induction t generalizing r with
  | nil =>
    obtain rfl : r = 0 := Nat.le_zero.1 hr
    exact ⟨Nat.le_refl _, rfl⟩
  | cons x t ih =>
    rw [List.length_cons]
    by_cases hx : x = nl
    · cases r with
      | zero => exact ⟨by rw [lineStart_zero, hx, lineLength_nl_cons_zero]; exact Nat.zero_le _, rfl⟩
      | succ r =>
        rw [hx, List.count_cons_self] at hr
        obtain ⟨hle, hrow⟩ := ih (Nat.le_of_succ_le_succ hr)
        rw [hx, lineStart_nl_cons, lineLength_nl_cons, rowOf_nl_cons, hrow]
        exact ⟨by omega, rfl⟩
    · rw [List.count_cons_of_ne hx] at hr
      cases r with
      | zero =>
        obtain ⟨hle, -⟩ := ih (Nat.zero_le (t.count nl))
        rw [lineStart_zero] at hle ⊢
        rw [lineLength_cons_zero hx]
        exact ⟨by omega, rfl⟩
      | succ r =>
        obtain ⟨hle, hrow⟩ := ih hr
        rw [lineStart_cons_of_ne hx, lineLength_cons_of_ne hx, rowOf_cons_of_ne hx, hrow]
        exact ⟨by omega, rfl⟩

end ComputerOS

namespace ComputerOS

variable {α : Type}

/-- A text with a cursor. -/
@[ext] structure Doc (α : Type) where
  text : List α
  cursor : ℕ
  cursor_le : cursor ≤ text.length

namespace Doc

def insert (d : Doc α) (c : α) : Doc α where
  text := d.text.take d.cursor ++ c :: d.text.drop d.cursor
  cursor := d.cursor + 1
  cursor_le := by
    have := d.cursor_le
    rw [List.length_append, List.length_take, List.length_cons, List.length_drop]
    omega

def deleteBack (d : Doc α) : Doc α where
  text := d.text.take (d.cursor - 1) ++ d.text.drop d.cursor
  cursor := d.cursor - 1
  cursor_le := by
    have := d.cursor_le
    rw [List.length_append, List.length_take, List.length_drop]
    omega

def deleteForward (d : Doc α) : Doc α where
  text := d.text.take d.cursor ++ d.text.drop (d.cursor + 1)
  cursor := d.cursor
  cursor_le := by
    have := d.cursor_le
    rw [List.length_append, List.length_take, List.length_drop]
    omega

def moveTo (d : Doc α) (pos : ℕ) : Doc α :=
  if h : pos ≤ d.text.length then { d with cursor := pos, cursor_le := h } else d

theorem moveTo_text (d : Doc α) (pos : ℕ) : (d.moveTo pos).text = d.text := by
  unfold moveTo
  split
  · rfl
  · rfl

theorem moveTo_cursor (d : Doc α) {pos : ℕ} (h : pos ≤ d.text.length) : (d.moveTo pos).cursor = pos := by
  rw [moveTo, dif_pos h]

variable [DecidableEq α]

def row (nl : α) (d : Doc α) : ℕ := rowOf nl d.text d.cursor

def col (nl : α) (d : Doc α) : ℕ := d.cursor - lineStart nl d.text (d.row nl)

/-- The cursor is put in row `r`, at column `c` or at the end of the row. -/
def goto (nl : α) (d : Doc α) (r c : ℕ) : Doc α := d.moveTo (lineStart nl d.text r + min c (lineLength nl d.text r))

def left (d : Doc α) : Doc α := d.moveTo (d.cursor - 1)

def right (d : Doc α) : Doc α := d.moveTo (d.cursor + 1)

def home (nl : α) (d : Doc α) : Doc α := d.goto nl (d.row nl) 0

def lineEnd (nl : α) (d : Doc α) : Doc α := d.goto nl (d.row nl) (lineLength nl d.text (d.row nl))

def up (nl : α) (d : Doc α) : Doc α := if d.row nl = 0 then d else d.goto nl (d.row nl - 1) (d.col nl)

def down (nl : α) (d : Doc α) : Doc α :=
  if d.row nl + 1 < (d.text.splitOn nl).length then d.goto nl (d.row nl + 1) (d.col nl) else d

end Doc

end ComputerOS
