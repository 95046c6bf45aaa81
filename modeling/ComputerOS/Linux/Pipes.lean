import ComputerOS.Linux.FdTable
import Mathlib.Algebra.BigOperators.Group.Finset.Piecewise
import Mathlib.Algebra.Order.BigOperators.Group.Finset

/-!
The counts of open pipe ends. A count is the number of entries, over all tables, that are that
end of the pipe. Calls that copy or drop an entry keep this as long as the entry is one end
only, and calls that move a position keep it as long as the entry is no pipe end: the position
is where the pipe's index is kept.
-/
namespace ComputerOS.Linux

open Function

def isReader (p : ℕ) (e : FdEntry) : Bool := e.flags.used && e.flags.pipeR && e.offset == p

def isWriter (p : ℕ) (e : FdEntry) : Bool := e.flags.used && e.flags.pipeW && e.offset == p

def one (b : Bool) : ℤ := if b then 1 else 0

def tally (P : FdEntry → Bool) (tab : FdTable) : ℤ := ∑ i ∈ Finset.range FD_MAX, one (P (tab i))

def tallyOf (P : FdEntry → Bool) : Option FdTable → ℤ
  | none => 0
  | some tab => tally P tab

def total (P : FdEntry → Bool) (s : St) : ℤ := ∑ k ∈ Finset.range s.tasks, tallyOf P (s.tables k)

def PipeEnd (e : FdEntry) : Prop :=
  e.flags.used = true → (e.flags.pipeR = true ∨ e.flags.pipeW = true) →
    e.offset < PIPE_MAX ∧ e.size = 0 ∧ e.flags.tty = false

structure Exact (s : St) : Prop where
  read : ∀ p < PIPE_MAX, (s.pool p).readOpen = total (isReader p) s
  write : ∀ p < PIPE_MAX, (s.pool p).writeOpen = total (isWriter p) s
  ends : ∀ k tab, s.tables k = some tab → ∀ i < FD_MAX, PipeEnd (tab i)
  boot : s.tables 0 ≠ none ∧ s.isUser 0 = false
  bound : ∀ k, s.tables k ≠ none → k < s.tasks
  users : ∀ k, s.isUser k = true → k < s.tasks

theorem one_false : one false = 0 := rfl

theorem one_nonneg (b : Bool) : 0 ≤ one b := by
  unfold one
  split <;> omega

theorem tally_nonneg (P : FdEntry → Bool) (tab : FdTable) : 0 ≤ tally P tab :=
  Finset.sum_nonneg fun _ _ => one_nonneg _

theorem tallyOf_nonneg (P : FdEntry → Bool) (o : Option FdTable) : 0 ≤ tallyOf P o := by
  cases o with
  | none => exact le_rfl
  | some tab => exact tally_nonneg P tab

theorem sum_update {n k : ℕ} (hk : k < n) (f : ℕ → ℤ) (x : ℤ) :
    ∑ i ∈ Finset.range n, update f k x i = ∑ i ∈ Finset.range n, f i - f k + x := by
  have hmem : k ∈ Finset.range n := Finset.mem_range.mpr hk
  rw [Finset.sum_update_of_mem hmem, ← Finset.add_sum_erase _ f hmem, Finset.sdiff_singleton_eq_erase]
  omega

theorem tally_update (P : FdEntry → Bool) (tab : FdTable) {i : ℕ} (hi : i < FD_MAX) (e : FdEntry) :
    tally P (update tab i e) = tally P tab - one (P (tab i)) + one (P e) := by
  unfold tally
  rw [← sum_update hi (fun j => one (P (tab j))) (one (P e))]
  refine Finset.sum_congr rfl fun j _ => ?_
  by_cases hj : j = i
  · rw [hj, update_self, update_self]
  · rw [update_of_ne hj, update_of_ne hj]

variable {s : St} {k i : ℕ} {P : FdEntry → Bool}

theorem total_update (hk : k < s.tasks) (o : Option FdTable) :
    total P { s with tables := update s.tables k o } = total P s - tallyOf P (s.tables k) + tallyOf P o := by
  unfold total
  rw [← sum_update hk (fun j => tallyOf P (s.tables j)) (tallyOf P o)]
  refine Finset.sum_congr rfl fun j _ => ?_
  by_cases hj : j = k
  · dsimp only
    rw [hj, update_self, update_self]
  · dsimp only
    rw [update_of_ne hj, update_of_ne hj]

theorem table_of_some {tab : FdTable} (h : s.tables k = some tab) : s.table k = tab := by
  rw [St.table, h, Option.getD_some]

theorem tables_of_ne_none (h : s.tables k ≠ none) : s.tables k = some (s.table k) := by
  obtain ⟨tab, htab⟩ := Option.ne_none_iff_exists'.mp h
  rw [table_of_some htab, htab]

theorem total_setEntry (hk : k < s.tasks) (htab : s.tables k ≠ none) (hi : i < FD_MAX) (e : FdEntry) :
    total P (s.setEntry k i e) = total P s - one (P (s.table k i)) + one (P e) := by
  unfold St.setEntry St.setTable
  rw [total_update hk, tables_of_ne_none htab, tallyOf, tallyOf, tally_update P _ hi]
  omega

/-- An entry is one of those counted. -/
theorem one_le_total (hk : k < s.tasks) (htab : s.tables k ≠ none) (hi : i < FD_MAX) :
    one (P (s.table k i)) ≤ total P s := by
  have h1 : one (P (s.table k i)) ≤ tallyOf P (s.tables k) := by
    rw [tables_of_ne_none htab]
    exact Finset.single_le_sum (f := fun j => one (P (s.table k j))) (fun j _ => one_nonneg _)
      (Finset.mem_range.mpr hi)
  exact h1.trans (Finset.single_le_sum (f := fun j => tallyOf P (s.tables j))
    (fun j _ => tallyOf_nonneg P _) (Finset.mem_range.mpr hk))

theorem total_eq_zero : total P s = 0 ↔
    ∀ k < s.tasks, s.tables k ≠ none → ∀ i < FD_MAX, P (s.table k i) = false := by
  unfold total
  rw [Finset.sum_eq_zero_iff_of_nonneg fun j _ => tallyOf_nonneg P _]
  constructor
  · intro h k hk htab i hi
    have hzero := h k (Finset.mem_range.mpr hk)
    rw [tables_of_ne_none htab, tallyOf, tally, Finset.sum_eq_zero_iff_of_nonneg fun j _ => one_nonneg _] at hzero
    have := hzero i (Finset.mem_range.mpr hi)
    unfold one at this
    by_contra hne
    rw [if_pos (by simpa using hne)] at this
    omega
  · intro h k hk
    cases htab : s.tables k with
    | none => rfl
    | some tab =>
      rw [tallyOf, tally]
      refine Finset.sum_eq_zero fun i hi => ?_
      have := h k (Finset.mem_range.mp hk) (by rw [htab]; exact Option.some_ne_none _) i (Finset.mem_range.mp hi)
      rw [table_of_some htab] at this
      rw [this]
      rfl

structure Follows (pool pool' : Pool) (old new : FdEntry) : Prop where
  read : ∀ p < PIPE_MAX, (pool' p).readOpen = (pool p).readOpen - one (isReader p old) + one (isReader p new)
  write : ∀ p < PIPE_MAX, (pool' p).writeOpen = (pool p).writeOpen - one (isWriter p old) + one (isWriter p new)

theorem Exact.lt (h : Exact s) (htab : s.tables k ≠ none) : k < s.tasks := h.bound k htab

/-- One entry changes, and the counts with it. -/
theorem Exact.setEntry (h : Exact s) (htab : s.tables k ≠ none) (hi : i < FD_MAX) {pool : Pool} {e : FdEntry}
    (hpool : Follows s.pool pool (s.table k i) e) (he : PipeEnd e) :
    Exact ({ s with pool := pool }.setEntry k i e) := by
  have hk := h.lt htab
  have htotal : ∀ P, total P ({ s with pool := pool }.setEntry k i e) =
      total P s - one (P (s.table k i)) + one (P e) := fun P =>
    total_setEntry (s := { s with pool := pool }) hk htab hi e
  have htables : ∀ j, j ≠ k → ({ s with pool := pool }.setEntry k i e).tables j = s.tables j :=
    fun j hj => update_of_ne hj _ _
  have hself : ({ s with pool := pool }.setEntry k i e).tables k = some (update (s.table k) i e) :=
    update_self _ _ _
  refine ⟨fun p hp => ?_, fun p hp => ?_, fun j tab hj x hx => ?_, ⟨?_, h.boot.2⟩, fun j hj => ?_, h.users⟩
  · rw [htotal, ← h.read p hp]
    exact hpool.read p hp
  · rw [htotal, ← h.write p hp]
    exact hpool.write p hp
  · by_cases hjk : j = k
    · rw [hjk, hself] at hj
      cases hj
      by_cases hxi : x = i
      · rw [hxi, update_self]
        exact he
      · rw [update_of_ne hxi]
        exact h.ends k _ (tables_of_ne_none htab) x hx
    · rw [htables j hjk] at hj
      exact h.ends j tab hj x hx
  · by_cases h0 : 0 = k
    · rw [h0, hself]
      exact Option.some_ne_none _
    · rw [htables 0 h0]
      exact h.boot.1
  · by_cases hjk : j = k
    · rw [hjk]
      exact hk
    · rw [htables j hjk] at hj
      exact h.bound j hj

theorem Exact.congr {s' : St} (h : Exact s) (htables : s'.tables = s.tables) (htasks : s'.tasks = s.tasks)
    (huser : s'.isUser = s.isUser) (hread : ∀ p < PIPE_MAX, (s'.pool p).readOpen = (s.pool p).readOpen)
    (hwrite : ∀ p < PIPE_MAX, (s'.pool p).writeOpen = (s.pool p).writeOpen) : Exact s' := by
  have htotal : ∀ P, total P s' = total P s := by
    intro P
    unfold total
    rw [htables, htasks]
  refine ⟨fun p hp => ?_, fun p hp => ?_, ?_, ?_, ?_, ?_⟩
  · rw [hread p hp, htotal, h.read p hp]
  · rw [hwrite p hp, htotal, h.write p hp]
  · rw [htables]
    exact h.ends
  · rw [htables, huser]
    exact h.boot
  · rw [htables, htasks]
    exact h.bound
  · rw [huser, htasks]
    exact h.users

theorem Exact.pipeEnd (h : Exact s) (htab : s.tables k ≠ none) (hi : i < FD_MAX) : PipeEnd (s.table k i) :=
  h.ends k _ (tables_of_ne_none htab) i hi

theorem isReader_unused {e : FdEntry} (h : e.flags.used = false) (p : ℕ) : isReader p e = false := by
  simp [isReader, h]

theorem isWriter_unused {e : FdEntry} (h : e.flags.used = false) (p : ℕ) : isWriter p e = false := by
  simp [isWriter, h]

def BothEnds (e : FdEntry) : Prop := e.flags.used = true ∧ e.flags.pipeR = true ∧ e.flags.pipeW = true

/-- Copying an entry to a free place. -/
theorem bumpOne_follows {pool : Pool} {e old new : FdEntry} (hused : e.flags.used = true) (hone : ¬ BothEnds e)
    (hold : old.flags.used = false) (hr : ∀ p, isReader p new = isReader p e)
    (hw : ∀ p, isWriter p new = isWriter p e) : Follows pool (bumpOne pool e) old new := by
  have hcount : ∀ p, (bumpOne pool e p).readOpen = (pool p).readOpen + one (isReader p e) ∧
      (bumpOne pool e p).writeOpen = (pool p).writeOpen + one (isWriter p e) := by
    intro p
    unfold bumpOne isReader isWriter one
    by_cases hpr : e.flags.pipeR = true
    · have hpw : e.flags.pipeW = false := by
        by_contra h
        exact hone ⟨hused, hpr, by simpa using h⟩
      by_cases hp : p = e.offset
      · subst hp
        simp [incRead, hpr, hpw, hused]
      · simp [incRead, hpr, hpw, hused, hp, Ne.symm hp]
    · by_cases hpw : e.flags.pipeW = true
      · by_cases hp : p = e.offset
        · subst hp
          simp [incWrite, hpr, hpw, hused]
        · simp [incWrite, hpr, hpw, hused, hp, Ne.symm hp]
      · simp [hpr, hpw]
  refine ⟨fun p _ => ?_, fun p _ => ?_⟩
  · rw [(hcount p).1, isReader_unused hold, hr p, one_false]
    omega
  · rw [(hcount p).2, isWriter_unused hold, hw p, one_false]
    omega

theorem bumpBoth_count (pool : Pool) {e : FdEntry} (hused : e.flags.used = true) (p : ℕ) :
    (bumpBoth pool e p).readOpen = (pool p).readOpen + one (isReader p e) ∧
      (bumpBoth pool e p).writeOpen = (pool p).writeOpen + one (isWriter p e) := by
  unfold bumpBoth isReader isWriter one incRead incWrite
  by_cases hp : p = e.offset
  · subst hp
    cases e.flags.pipeR <;> cases e.flags.pipeW <;> simp [hused]
  · cases e.flags.pipeR <;> cases e.flags.pipeW <;> simp [hused, hp, Ne.symm hp]

theorem bumpBoth_follows {pool : Pool} {e old new : FdEntry} (hused : e.flags.used = true)
    (hold : old.flags.used = false) (hr : ∀ p, isReader p new = isReader p e)
    (hw : ∀ p, isWriter p new = isWriter p e) : Follows pool (bumpBoth pool e) old new := by
  refine ⟨fun p _ => ?_, fun p _ => ?_⟩
  · rw [(bumpBoth_count pool hused p).1, isReader_unused hold, hr p, one_false]
    omega
  · rw [(bumpBoth_count pool hused p).2, isWriter_unused hold, hw p, one_false]
    omega

theorem dropOne_follows {pool : Pool} {e new : FdEntry} (hused : e.flags.used = true) (hone : ¬ BothEnds e)
    (hnew : new.flags.used = false) (hr : ∀ p < PIPE_MAX, one (isReader p e) ≤ (pool p).readOpen)
    (hw : ∀ p < PIPE_MAX, one (isWriter p e) ≤ (pool p).writeOpen) : Follows pool (dropOne pool e) e new := by
  have hcount : ∀ p < PIPE_MAX, (dropOne pool e p).readOpen = (pool p).readOpen - one
      (isReader p e) ∧ (dropOne pool e p).writeOpen = (pool p).writeOpen - one (isWriter p e) := by
    intro p hp
    have hr' := hr p hp
    have hw' := hw p hp
    unfold dropOne
    by_cases hpr : e.flags.pipeR = true
    · have hpw : e.flags.pipeW = false := by
        by_contra h
        exact hone ⟨hused, hpr, by simpa using h⟩
      by_cases hpo : p = e.offset
      · subst hpo
        have h1 : one (isReader e.offset e) = 1 := by simp [isReader, one, hused, hpr]
        have h2 : one (isWriter e.offset e) = 0 := by simp [isWriter, one, hpw]
        rw [h1] at hr'
        rw [if_pos hpr, decRead, update_self, h1, h2]
        dsimp only
        exact ⟨if_neg (by omega), by omega⟩
      · simp [decRead, hpr, hpw, hpo, isReader, isWriter, one, Ne.symm hpo]
    · by_cases hpw : e.flags.pipeW = true
      · by_cases hpo : p = e.offset
        · subst hpo
          have h1 : one (isReader e.offset e) = 0 := by simp [isReader, one, hpr]
          have h2 : one (isWriter e.offset e) = 1 := by simp [isWriter, one, hused, hpw]
          rw [h2] at hw'
          rw [if_neg hpr, if_pos hpw, decWrite, update_self, h1, h2]
          dsimp only
          exact ⟨by omega, if_neg (by omega)⟩
        · simp [decWrite, hpr, hpw, hpo, isReader, isWriter, one, Ne.symm hpo]
      · simp [hpr, hpw, isReader, isWriter, one]
  refine ⟨fun p hp => ?_, fun p hp => ?_⟩
  · rw [(hcount p hp).1, isReader_unused hnew]
    simp [one]
  · rw [(hcount p hp).2, isWriter_unused hnew]
    simp [one]

theorem follows_same {pool : Pool} {old new : FdEntry} (hr : ∀ p, isReader p new = isReader p old)
    (hw : ∀ p, isWriter p new = isWriter p old) : Follows pool pool old new :=
  ⟨fun p _ => by rw [hr p]; omega, fun p _ => by rw [hw p]; omega⟩

end ComputerOS.Linux
