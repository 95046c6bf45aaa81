import Mathlib.Data.Nat.ModEq
import Mathlib.Logic.Function.Basic

/-!
Ring buffers of a fixed size, with a head, a tail and a count. What such a buffer holds is a
queue: a push adds at the end of it, a pop takes its first element.
-/
namespace ComputerOS

open Function

structure RingBuf (α : Type*) where
  buf : ℕ → α
  head : ℕ
  tail : ℕ
  used : ℕ

namespace RingBuf

variable {α : Type*} {N : ℕ} {r : RingBuf α} {x : α}

def push (N : ℕ) (r : RingBuf α) (x : α) : RingBuf α :=
  { r with buf := update r.buf r.tail x, tail := (r.tail + 1) % N, used := r.used + 1 }

def pop (N : ℕ) (r : RingBuf α) : RingBuf α := { r with head := (r.head + 1) % N, used := r.used - 1 }

/-- What the ring holds, the oldest element first. -/
def contents (N : ℕ) (r : RingBuf α) : List α := (List.range r.used).map fun i => r.buf ((r.head + i) % N)

/-- The tail is where the used cells end. -/
structure Valid (N : ℕ) (r : RingBuf α) : Prop where
  used_le : r.used ≤ N
  head_lt : r.head < N
  tail_eq : r.tail = (r.head + r.used) % N

@[simp]
theorem length_contents (N : ℕ) (r : RingBuf α) : (r.contents N).length = r.used := by
  simp [contents]

theorem Valid.push (h : r.Valid N) (hroom : r.used < N) (x : α) : (r.push N x).Valid N := by
  refine ⟨hroom, h.head_lt, ?_⟩
  change (r.tail + 1) % N = (r.head + (r.used + 1)) % N
  rw [h.tail_eq, Nat.mod_add_mod, Nat.add_assoc]

theorem Valid.pop (h : r.Valid N) (hused : 0 < r.used) : (r.pop N).Valid N := by
  have hN : 0 < N := Nat.zero_lt_of_lt h.head_lt
  refine ⟨(Nat.sub_le _ _).trans h.used_le, Nat.mod_lt _ hN, ?_⟩
  change r.tail = ((r.head + 1) % N + (r.used - 1)) % N
  rw [h.tail_eq, Nat.mod_add_mod]
  congr 1
  omega

/-- The cells in use are not the one at the tail. -/
theorem Valid.cell_ne (h : r.Valid N) (hroom : r.used < N) {i : ℕ} (hi : i < r.used) :
    (r.head + i) % N ≠ r.tail := by
  rw [h.tail_eq]
  intro heq
  have hmod : i % N = r.used % N := Nat.ModEq.add_left_cancel' r.head heq
  rw [Nat.mod_eq_of_lt (hi.trans hroom), Nat.mod_eq_of_lt hroom] at hmod
  omega

theorem contents_push (h : r.Valid N) (hroom : r.used < N) : (r.push N x).contents N = r.contents N ++ [x] := by
  unfold contents push
  rw [List.range_succ, List.map_append, List.map_singleton]
  congr 1
  · refine List.map_congr_left fun i hi => ?_
    exact update_of_ne (h.cell_ne hroom (List.mem_range.mp hi)) _ _
  · change [update r.buf r.tail x ((r.head + r.used) % N)] = [x]
    rw [← h.tail_eq, update_self]

theorem contents_pop (hused : 0 < r.used) :
    r.contents N = r.buf (r.head % N) :: (r.pop N).contents N := by
  obtain ⟨m, hm⟩ : ∃ m, r.used = m + 1 := ⟨r.used - 1, by omega⟩
  unfold contents pop
  rw [hm, List.range_succ_eq_map, List.map_cons, List.map_map]
  congr 1
  refine List.map_congr_left fun i _ => ?_
  change r.buf ((r.head + (i + 1)) % N) = r.buf (((r.head + 1) % N + i) % N)
  rw [Nat.mod_add_mod, Nat.add_right_comm, Nat.add_assoc]

end RingBuf

end ComputerOS
