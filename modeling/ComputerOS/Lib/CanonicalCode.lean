import Mathlib.Data.List.Count
import Mathlib.Algebra.BigOperators.Group.List.Basic
import Mathlib.Tactic

/-!
Canonical prefix codes, given by one code length for each symbol; the length 0 stands for a symbol
that is not used. The codes of a length are consecutive numbers, in the order of the symbols, and
begin behind those of the smaller lengths. Where the Kraft sum is at most one, every code fits into
its length; in any case no code begins another one.
-/
namespace CanonicalCode

variable (lengths : List ℕ)

/-- The number of codes of a length. -/
def blCount (l : ℕ) : ℕ := if l = 0 then 0 else lengths.count l

/-- The first code of a length: the codes of the length before, and one more bit. -/
def nextCode : ℕ → ℕ
  | 0 => 0
  | l + 1 => (nextCode l + blCount lengths l) * 2

/-- Each symbol takes the next code of its length. -/
def assign (next : ℕ → ℕ) : List ℕ → List ℕ
  | [] => []
  | l :: rest => next l :: assign (Function.update next l (next l + 1)) rest

def codes : List ℕ := assign (nextCode lengths) lengths

/-- The symbols of the same length before `s`. -/
def rank (s : ℕ) : ℕ := (lengths.take s).count (lengths.getD s 0)

def kraft : ℚ := (lengths.map fun l => if l = 0 then 0 else (1 / 2 : ℚ) ^ l).sum

def firstPlace (l : ℕ) : ℕ := ((List.range' 1 (l - 1)).map fun k => lengths.count k).sum

/-- The place of a symbol among the used symbols. -/
def place (s : ℕ) : ℕ := firstPlace lengths (lengths.getD s 0) + rank lengths s

variable {lengths} {l s s' : ℕ}

theorem blCount_of_pos (h : 0 < l) : blCount lengths l = lengths.count l := if_neg h.ne'

theorem getD_assign (next : ℕ → ℕ) (h : s < lengths.length) :
    (assign next lengths).getD s 0 = next (lengths.getD s 0) + rank lengths s := by
  induction lengths generalizing next s with
  | nil => exact absurd h (Nat.not_lt_zero s)
  | cons l rest ih =>
    cases s with
    | zero => simp [assign, rank]
    | succ s =>
      rw [assign, List.getD_cons_succ, ih _ (by simpa using h), rank, rank, List.getD_cons_succ,
        List.take_succ_cons, List.count_cons]
      by_cases heq : rest.getD s 0 = l
      · rw [heq, Function.update_self, if_pos (beq_self_eq_true l)]
        ring
      · have hne : ¬(l == rest.getD s 0) = true := fun h => heq (beq_iff_eq.1 h).symm
        rw [Function.update_of_ne heq, if_neg hne, Nat.add_zero]

theorem getD_codes (h : s < lengths.length) : (codes lengths).getD s 0 = nextCode lengths
    (lengths.getD s 0) + rank lengths s :=
  getD_assign _ h

theorem rank_lt (h : s < lengths.length) : rank lengths s < lengths.count (lengths.getD s 0) := by
  have hget : lengths.getD s 0 = lengths[s] := by
    rw [List.getD_eq_getElem?_getD, List.getElem?_eq_getElem h, Option.getD_some]
  have hsplit : lengths.count lengths[s] =
    ((lengths.take s) ++ lengths[s] :: lengths.drop (s + 1)).count lengths[s] := by
    rw [← List.drop_eq_getElem_cons h, List.take_append_drop]
  rw [rank, hget, hsplit, List.count_append, List.count_cons_self]
  omega

/-- Of two symbols of the same length the later one has the greater rank. -/
theorem rank_lt_rank (h : s < s') (hs' : s' < lengths.length) (hsame : lengths.getD s 0 = lengths.getD s' 0) :
    rank lengths s < rank lengths s' := by
  have hs : s < (lengths.take s').length := by
    rw [List.length_take]
    omega
  have hlt := rank_lt hs
  have hget : (lengths.take s').getD s 0 = lengths.getD s 0 := by
    rw [List.getD_eq_getElem?_getD, List.getElem?_take_of_lt h, ← List.getD_eq_getElem?_getD]
  rw [rank, hget, List.take_take, min_eq_left h.le] at hlt
  rw [rank, rank, ← hsame]
  exact hlt

theorem rank_inj (hs : s < lengths.length) (hs' : s' < lengths.length) (hsame : lengths.getD s 0 = lengths.getD s' 0)
    (hrank : rank lengths s = rank lengths s') : s = s' := by
  rcases Nat.lt_trichotomy s s' with h | h | h
  · have := rank_lt_rank h hs' hsame
    omega
  · exact h
  · have := rank_lt_rank h hs hsame.symm
    omega

theorem exists_rank (lengths : List ℕ) {l j : ℕ} (h : j < lengths.count l) :
    ∃ s < lengths.length, lengths.getD s 0 = l ∧ rank lengths s = j := by
  induction lengths generalizing j with
  | nil => exact absurd h (by simp)
  | cons k rest ih =>
    rw [List.count_cons] at h
    by_cases hfirst : k = l ∧ j = 0
    · exact ⟨0, by simp, by simpa using hfirst.1, by simp [rank, hfirst.2]⟩
    · have hj : (j - if k = l then 1 else 0) < rest.count l := by
        by_cases hk : k = l
        · rw [if_pos hk]
          rw [if_pos (beq_iff_eq.2 hk)] at h
          have : j ≠ 0 := fun h0 => hfirst ⟨hk, h0⟩
          omega
        · rw [if_neg hk]
          rw [if_neg (fun hb => hk (beq_iff_eq.1 hb))] at h
          omega
      obtain ⟨s, hs, hget, hrank⟩ := ih hj
      refine ⟨s + 1, by simpa using hs, by rw [List.getD_cons_succ, hget], ?_⟩
      rw [rank, List.getD_cons_succ, List.take_succ_cons, List.count_cons]
      rw [rank] at hrank
      rw [hrank, hget]
      by_cases hk : k = l
      · have : j ≠ 0 := fun h0 => hfirst ⟨hk, h0⟩
        rw [if_pos hk, if_pos (beq_iff_eq.2 hk)]
        omega
      · rw [if_neg hk, if_neg (fun hb => hk (beq_iff_eq.1 hb))]
        omega

/-- The codes of a greater length begin behind those of a smaller one, also when they are cut to its
length. -/
theorem codes_le_nextCode {m : ℕ} (h : l < m) : (nextCode lengths l + blCount lengths l) * 2 ^
    (m - l) ≤ nextCode lengths m := by
  induction m, h using Nat.le_induction with
  | base =>
    rw [Nat.succ_eq_add_one, Nat.add_sub_cancel_left, pow_one]
    exact le_rfl
  | succ m hm ih =>
    have hpow : 2 ^ (m + 1 - l) = 2 ^ (m - l) * 2 := by rw [Nat.succ_sub (by omega), pow_succ]
    rw [hpow, ← mul_assoc, nextCode]
    exact Nat.mul_le_mul_right 2 (ih.trans (Nat.le_add_right _ _))

theorem nextCode_le_code (h : s < lengths.length) : nextCode lengths (lengths.getD s 0) ≤ (codes lengths).getD s 0 := by
  rw [getD_codes h]
  exact Nat.le_add_right _ _

theorem code_lt (h : s < lengths.length) (hs : lengths.getD s 0 ≠ 0) :
    (codes lengths).getD s 0 < nextCode lengths (lengths.getD s 0) + blCount lengths (lengths.getD s 0) := by
  rw [getD_codes h, blCount_of_pos (Nat.pos_of_ne_zero hs)]
  exact Nat.add_lt_add_left (rank_lt h) _

theorem codes_le_prefix (h : s < lengths.length) (hl : l < lengths.getD s 0) :
    nextCode lengths l + blCount lengths l ≤ (codes lengths).getD s 0 / 2 ^ (lengths.getD s 0 - l) :=
  (Nat.le_div_iff_mul_le (Nat.two_pow_pos _)).2 ((codes_le_nextCode hl).trans (nextCode_le_code h))

theorem sum_map_eq (lengths : List ℕ) (l : ℕ) (c : ℚ) :
    (lengths.map fun k => if k = l then c else 0).sum = lengths.count l * c := by
  induction lengths with
  | nil => simp
  | cons k rest ih =>
    rw [List.map_cons, List.sum_cons, ih, List.count_cons]
    by_cases hk : k = l
    · simp [hk]
      ring
    · simp [hk]

theorem codes_eq_kraft (lengths : List ℕ) (l : ℕ) : ((nextCode lengths l + blCount lengths l : ℕ) : ℚ) =
    2 ^ l * (lengths.map fun k => if k ≠ 0 ∧ k ≤ l then (1 / 2 : ℚ) ^ k else 0).sum := by
  induction l with
  | zero =>
    have hzero : (lengths.map fun k => if k ≠ 0 ∧ k ≤ 0 then (1 / 2 : ℚ) ^ k else 0) = lengths.map fun _ => 0 :=
      List.map_congr_left fun k _ => if_neg fun h => h.1 (Nat.le_zero.1 h.2)
    rw [hzero]
    simp [nextCode, blCount]
  | succ l ih =>
    have hsplit : (lengths.map fun k => if k ≠ 0 ∧ k ≤ l + 1 then (1 / 2 : ℚ) ^ k else 0).sum =
        (lengths.map fun k => if k ≠ 0 ∧ k ≤ l then (1 / 2 : ℚ) ^ k else 0).sum + lengths.count
        (l + 1) * (1 / 2) ^ (l + 1) := by
      rw [← sum_map_eq, ← List.sum_map_add]
      refine congrArg List.sum (List.map_congr_left fun k _ => ?_)
      by_cases hk : k = l + 1
      · subst hk
        simp
      · have : (k ≠ 0 ∧ k ≤ l + 1) ↔ k ≠ 0 ∧ k ≤ l := by omega
        simp only [this, if_neg hk, add_zero]
    rw [hsplit, mul_add, pow_succ, mul_right_comm, ← ih, nextCode, blCount_of_pos (Nat.succ_pos l)]
    push_cast
    have hone : (2 : ℚ) ^ (l + 1) * (1 / 2) ^ (l + 1) = 1 := by rw [← mul_pow]; norm_num
    linear_combination -(lengths.count (l + 1) : ℚ) * hone

theorem codes_fit (hkraft : kraft lengths ≤ 1) (l : ℕ) : nextCode lengths l + blCount lengths l ≤ 2 ^ l := by
  have hpart : (lengths.map fun k => if k ≠ 0 ∧ k ≤ l then (1 / 2 : ℚ) ^ k else 0).sum ≤ kraft lengths := by
    refine List.sum_le_sum fun k _ => ?_
    have hpos : (0 : ℚ) ≤ (1 / 2) ^ k := by positivity
    split_ifs <;> simp_all
  have hscaled := mul_le_mul_of_nonneg_left (hpart.trans hkraft) (by positivity : (0 : ℚ) ≤ 2 ^ l)
  rw [← codes_eq_kraft, mul_one] at hscaled
  exact_mod_cast hscaled

theorem firstPlace_succ (h : 0 < l) : firstPlace lengths (l + 1) = firstPlace lengths l + lengths.count l := by
  obtain ⟨m, rfl⟩ : ∃ m, l = m + 1 := ⟨l - 1, by omega⟩
  simp only [firstPlace, Nat.add_sub_cancel]
  rw [List.range'_concat, List.map_append, List.sum_append, List.map_singleton, List.sum_singleton,
    Nat.one_mul, Nat.add_comm 1 m]

theorem firstPlace_mono {m : ℕ} (hl : 0 < l) (h : l < m) : firstPlace lengths l + lengths.count l ≤
    firstPlace lengths m := by
  induction m, h using Nat.le_induction with
  | base => rw [Nat.succ_eq_add_one, firstPlace_succ hl]
  | succ m hm ih =>
    rw [firstPlace_succ (by omega)]
    exact ih.trans (Nat.le_add_right _ _)

/-- No two symbols have the same place. -/
theorem place_inj (hs : s < lengths.length) (hs' : s' < lengths.length) (hused : lengths.getD s 0 ≠ 0)
    (hused' : lengths.getD s' 0 ≠ 0) (h : place lengths s = place lengths s') : s = s' := by
  have hlt := rank_lt hs
  have hlt' := rank_lt hs'
  unfold place at h
  rcases Nat.lt_trichotomy (lengths.getD s 0) (lengths.getD s' 0) with hl | hl | hl
  · have hmono := @firstPlace_mono lengths _ _ (Nat.pos_of_ne_zero hused) hl
    omega
  · rw [hl] at h
    exact rank_inj hs hs' hl (by omega)
  · have hmono := @firstPlace_mono lengths _ _ (Nat.pos_of_ne_zero hused') hl
    omega

end CanonicalCode
