import ComputerOS.Linux.Pipes

/-!
Every call keeps the counts of open pipe ends exact, under the condition `Op.Careful` on the
entries it works on. The pool and the tables change together: `Follows` says so for one entry,
and the loops of `fork`, `exec` and exit go through the entries one by one.
-/
namespace ComputerOS.Linux

open Function

variable {s : St} {t k i : ℕ} {ok : Bool}

def IsPipe (e : FdEntry) : Prop := e.flags.used = true ∧ (e.flags.pipeR = true ∨ e.flags.pipeW = true)

@[simp]
theorem table_setEntry (e : FdEntry) : (s.setEntry k i e).table k = update (s.table k) i e := by
  simp [St.setEntry, St.setTable, St.table]

@[simp]
theorem table_pool (pool : Pool) : ({ s with pool := pool } : St).table k = s.table k := rfl

theorem tables_setEntry_ne_none {j : ℕ} (e : FdEntry) (h : s.tables j ≠ none) :
    (s.setEntry k i e).tables j ≠ none := by
  unfold St.setEntry St.setTable
  by_cases hj : j = k
  · dsimp only
    rw [hj, update_self]
    exact Option.some_ne_none _
  · dsimp only
    rw [update_of_ne hj]
    exact h

theorem tally_fdtNew (P : FdEntry → Bool) (hP : ∀ e, e.flags.pipeR = false → e.flags.pipeW = false → P e = false) :
    tally P fdtNew = 0 := by
  refine Finset.sum_eq_zero fun i _ => ?_
  have : P (fdtNew i) = false := by
    unfold fdtNew
    split <;> exact hP _ rfl rfl
  rw [this, one_false]

theorem isReader_none (p : ℕ) (e : FdEntry) (hr : e.flags.pipeR = false) : isReader p e = false := by
  simp [isReader, hr]

theorem isWriter_none (p : ℕ) (e : FdEntry) (hw : e.flags.pipeW = false) : isWriter p e = false := by
  simp [isWriter, hw]

theorem Exact.newTable (h : Exact s) (hk : k < s.tasks) (hnone : s.tables k = none) : Exact (s.setTable k fdtNew) := by
  have htotal : ∀ P, (∀ e : FdEntry, e.flags.pipeR = false → e.flags.pipeW = false → P e = false) →
      total P (s.setTable k fdtNew) = total P s := by
    intro P hP
    unfold St.setTable
    rw [total_update hk, hnone, tallyOf, tallyOf, tally_fdtNew P hP]
    omega
  have htables : ∀ j, j ≠ k → (s.setTable k fdtNew).tables j = s.tables j := fun j hj => update_of_ne hj _ _
  have hself : (s.setTable k fdtNew).tables k = some fdtNew := update_self _ _ _
  refine ⟨fun p hp => ?_, fun p hp => ?_, fun j tab hj x hx => ?_, ⟨?_, h.boot.2⟩, fun j hj => ?_, h.users⟩
  · rw [htotal _ fun e hr _ => isReader_none p e hr]
    exact h.read p hp
  · rw [htotal _ fun e _ hw => isWriter_none p e hw]
    exact h.write p hp
  · by_cases hjk : j = k
    · rw [hjk, hself] at hj
      cases hj
      intro _ hpipe
      unfold fdtNew at hpipe
      split at hpipe <;> simp at hpipe
    · rw [htables j hjk] at hj
      exact h.ends j tab hj x hx
  · by_cases h0 : 0 = k
    · rw [h0, hself]
      exact Option.some_ne_none _
    · rw [htables 0 h0]
      exact h.boot.1
  · by_cases hjk : j = k
    · rw [hjk]
      exact hk
    · rw [htables j hjk] at hj
      exact h.bound j hj

/-- The table that a call works on exists, and making it keeps the counts. -/
theorem Exact.curFdt (h : Exact s) (t : ℕ) (ok : Bool) :
    Exact (curFdt t ok s).2 ∧ (curFdt t ok s).2.tables (curFdt t ok s).1 ≠ none := by
  unfold Linux.curFdt
  by_cases huser : s.isUser t = true
  · rw [if_pos huser]
    cases htab : s.tables t with
    | some tab => exact ⟨h, by rw [htab]; exact Option.some_ne_none _⟩
    | none =>
      dsimp only
      by_cases hok : ok = true
      · rw [if_pos hok]
        refine ⟨h.newTable (h.users t huser) htab, ?_⟩
        unfold St.setTable
        dsimp only
        rw [update_self]
        exact Option.some_ne_none _
      · rw [if_neg hok]
        exact ⟨h, h.boot.1⟩
  · rw [if_neg huser]
    exact ⟨h, h.boot.1⟩

theorem fdFlush_flags (e : FdEntry) : (fdFlush e).flags = e.flags := by
  unfold fdFlush
  split <;> rfl

theorem fdCloseEntry_unused (pool : Pool) {e : FdEntry} (h : e.flags.used = true) :
    (fdCloseEntry pool e).2.flags.used = false := by
  unfold fdCloseEntry
  rw [if_neg (by simp [h])]
  dsimp only
  rw [fdFlush_flags]

theorem pipeEnd_unused {e : FdEntry} (h : e.flags.used = false) : PipeEnd e := by
  intro hu
  rw [h] at hu
  cases hu

/-- What is counted covers the entry that is dropped. -/
theorem Exact.covers (h : Exact s) (htab : s.tables k ≠ none) (hi : i < FD_MAX) :
    (∀ p < PIPE_MAX, one (isReader p (s.table k i)) ≤ (s.pool p).readOpen) ∧
      ∀ p < PIPE_MAX, one (isWriter p (s.table k i)) ≤ (s.pool p).writeOpen := by
  refine ⟨fun p hp => ?_, fun p hp => ?_⟩
  · rw [h.read p hp]
    exact one_le_total (h.lt htab) htab hi
  · rw [h.write p hp]
    exact one_le_total (h.lt htab) htab hi

theorem Exact.closeAt (h : Exact s) (htab : s.tables k ≠ none) (hi : i < FD_MAX) (hone : ¬ BothEnds (s.table k i)) :
    Exact (closeAt k s i) := by
  unfold Linux.closeAt
  by_cases hused : (s.table k i).flags.used = true
  · refine h.setEntry htab hi ?_ (pipeEnd_unused (fdCloseEntry_unused _ hused))
    obtain ⟨hr, hw⟩ := h.covers htab hi
    have hdrop := dropOne_follows hused hone (fdCloseEntry_unused s.pool hused) hr hw
    have hpool : (fdCloseEntry s.pool (s.table k i)).1 =
        if (s.table k i).offset < PIPE_MAX then dropOne s.pool (s.table k i) else s.pool := by
      unfold fdCloseEntry
      rw [if_neg (by simp [hused])]
    rw [hpool]
    by_cases hpipe : (s.table k i).flags.pipeR = true ∨ (s.table k i).flags.pipeW = true
    · rw [if_pos (h.pipeEnd htab hi hused hpipe).1]
      exact hdrop
    · have hsame : dropOne s.pool (s.table k i) = s.pool := by
        unfold dropOne
        rw [if_neg fun hpr => hpipe (Or.inl hpr), if_neg fun hpw => hpipe (Or.inr hpw)]
      rw [hsame] at hdrop ⊢
      rw [ite_self]
      exact hdrop
  · have hclosed : fdCloseEntry s.pool (s.table k i) = (s.pool, s.table k i) := by
      unfold fdCloseEntry
      rw [if_pos (by simpa using hused)]
    rw [hclosed]
    exact h.setEntry htab hi (follows_same (fun _ => rfl) fun _ => rfl) (h.pipeEnd htab hi)

theorem tables_closeAt_ne_none {j : ℕ} (h : s.tables j ≠ none) : (closeAt k s i).tables j ≠ none :=
  tables_setEntry_ne_none (s := { s with pool := _ }) _ h

theorem table_closeAt_of_ne {j : ℕ} (hj : j ≠ i) : (closeAt k s i).table k j = s.table k j := by
  unfold Linux.closeAt
  rw [table_setEntry, update_of_ne hj, table_pool]

theorem Exact.closeMany (P : FdEntry → Prop) [DecidablePred P] (l : List ℕ) (hl : l.Nodup)
    (h : Exact s) (htab : s.tables k ≠ none)
    (hlt : ∀ i ∈ l, i < FD_MAX) (hone : ∀ i ∈ l, P (s.table k i) → ¬ BothEnds (s.table k i)) :
    Exact (l.foldl (fun s i => if P (s.table k i) then Linux.closeAt k s i else s) s) ∧
      (l.foldl (fun s i => if P (s.table k i) then Linux.closeAt k s i else s) s).tables k ≠ none := by
  induction l generalizing s with
  | nil => exact ⟨h, htab⟩
  | cons i l ih =>
    rw [List.foldl_cons]
    obtain ⟨hil, hl⟩ := List.nodup_cons.mp hl
    have hlt' : ∀ j ∈ l, j < FD_MAX := fun j hj => hlt j (List.mem_cons_of_mem i hj)
    by_cases hP : P (s.table k i)
    · rw [if_pos hP]
      have hi := hlt i List.mem_cons_self
      refine ih hl (h.closeAt htab hi (hone i List.mem_cons_self hP)) (tables_closeAt_ne_none htab) hlt' ?_
      intro j hj
      have hji : j ≠ i := fun hji => hil (hji ▸ hj)
      rw [table_closeAt_of_ne hji]
      exact hone j (List.mem_cons_of_mem i hj)
    · rw [if_neg hP]
      exact ih hl h htab hlt' fun j hj => hone j (List.mem_cons_of_mem i hj)

theorem Exact.fdtCloseOnExec (h : Exact s) (htab : s.tables k ≠ none)
    (hone : ∀ i, 3 ≤ i → i < FD_MAX → (s.table k i).flags.cloexec = true → ¬ BothEnds (s.table k i)) :
    Exact (fdtCloseOnExec k s) := by
  have hmem : ∀ i ∈ List.range' 3 (FD_MAX - 3), 3 ≤ i ∧ i < FD_MAX := by
    intro i hi
    have := List.mem_range'_1.mp hi
    unfold FD_MAX at *
    omega
  exact (h.closeMany (fun e => e.flags.used = true ∧ e.flags.cloexec = true)
    (List.range' 3 (FD_MAX - 3)) List.nodup_range' htab (fun i hi => (hmem i hi).2) fun i hi hP =>
      hone i (hmem i hi).1 (hmem i hi).2 hP.2).1

/-- A table whose entries are all closed counts for nothing. -/
theorem tally_unused {P : FdEntry → Bool} {tab : FdTable} (hP : ∀ e : FdEntry, e.flags.used = false → P e = false)
    (h : ∀ i < FD_MAX, (tab i).flags.used = false) : tally P tab = 0 :=
  Finset.sum_eq_zero fun i hi => by rw [hP _ (h i (Finset.mem_range.mp hi)), one_false]

theorem closeAt_closed (k i : ℕ) (s : St) : ((closeAt k s i).table k i).flags.used = false := by
  unfold Linux.closeAt
  rw [table_setEntry, update_self]
  by_cases hused : (s.table k i).flags.used = true
  · exact fdCloseEntry_unused _ hused
  · unfold fdCloseEntry
    rw [if_pos (by simpa using hused)]
    simpa using hused

/-- The loop of `linux_fdt_release` leaves every entry closed. -/
theorem release_closed (n : ℕ) (hn : n ≤ FD_MAX) :
    ∀ j < n, (((List.range n).foldl (closeAt k) s).table k j).flags.used = false := by
  induction n with
  | zero => intro j hj; omega
  | succ n ih =>
    intro j hj
    rw [List.range_succ, List.foldl_append, List.foldl_cons, List.foldl_nil]
    by_cases hjn : j = n
    · rw [hjn]
      exact closeAt_closed k n _
    · rw [table_closeAt_of_ne hjn]
      exact ih (by omega) j (by omega)

theorem Exact.linuxFdtRelease (h : Exact s) (ht : s.isUser t = true)
    (hone : s.tables t ≠ none → ∀ i < FD_MAX, ¬ BothEnds (s.table t i)) : Exact (linuxFdtRelease t s) := by
  unfold Linux.linuxFdtRelease
  cases htab : s.tables t with
  | none => exact h
  | some tab =>
    have hne : s.tables t ≠ none := by rw [htab]; exact Option.some_ne_none _
    have ht0 : t ≠ 0 := by
      rintro rfl
      rw [h.boot.2] at ht
      cases ht
    have hloop := h.closeMany (fun _ => True) (List.range FD_MAX) List.nodup_range hne
      (fun i hi => List.mem_range.mp hi) fun i hi _ => hone hne i (List.mem_range.mp hi)
    simp only [if_true] at hloop
    have hclosed := release_closed (s := s) (k := t) FD_MAX le_rfl
    dsimp only
    generalize List.foldl (Linux.closeAt t) s (List.range FD_MAX) = s' at hloop hclosed ⊢
    obtain ⟨hx, hne'⟩ := hloop
    have htotal : ∀ P, (∀ e : FdEntry, e.flags.used = false → P e = false) →
        total P { s' with tables := update s'.tables t none } = total P s' := by
      intro P hP
      rw [total_update (hx.lt hne'), tables_of_ne_none hne', tallyOf, tallyOf, tally_unused hP hclosed]
      omega
    refine ⟨fun p hp => ?_, fun p hp => ?_, fun j tab hj => ?_, ⟨?_, hx.boot.2⟩, fun j hj => ?_, hx.users⟩
    · rw [htotal _ fun e he => isReader_unused he p]
      exact hx.read p hp
    · rw [htotal _ fun e he => isWriter_unused he p]
      exact hx.write p hp
    · dsimp only at hj
      by_cases hjt : j = t
      · rw [hjt, update_self] at hj
        cases hj
      · rw [update_of_ne hjt] at hj
        exact hx.ends j tab hj
    · dsimp only
      rw [update_of_ne ht0.symm]
      exact hx.boot.1
    · dsimp only at hj
      by_cases hjt : j = t
      · rw [hjt, update_self] at hj
        exact absurd rfl hj
      · rw [update_of_ne hjt] at hj
        exact hx.bound j hj

def addTask (s : St) (user : Bool) (o : Option FdTable) (pool : Pool) : St :=
  { pool := pool
    tables := update s.tables s.tasks o
    isUser := update s.isUser s.tasks user
    tasks := s.tasks + 1 }

theorem total_addTask {P : FdEntry → Bool} (user : Bool) (o : Option FdTable) (pool : Pool) :
    total P (addTask s user o pool) = total P s + tallyOf P o := by
  unfold total addTask
  dsimp only
  rw [Finset.sum_range_succ, update_self]
  congr 1
  refine Finset.sum_congr rfl fun j hj => ?_
  rw [update_of_ne (Finset.mem_range.mp hj).ne]

theorem Exact.addTask (h : Exact s) (user : Bool) {o : Option FdTable} (pool : Pool)
    (hr : ∀ p < PIPE_MAX, (pool p).readOpen = (s.pool p).readOpen + tallyOf (isReader p) o)
    (hw : ∀ p < PIPE_MAX, (pool p).writeOpen = (s.pool p).writeOpen + tallyOf (isWriter p) o)
    (hends : ∀ tab, o = some tab → ∀ i < FD_MAX, PipeEnd (tab i)) : Exact (addTask s user o pool) := by
  have h0 : 0 ≠ s.tasks := (h.lt h.boot.1).ne
  refine ⟨fun p hp => ?_, fun p hp => ?_, fun j tab hj => ?_, ⟨?_, ?_⟩, fun j hj => ?_, fun j hj => ?_⟩
  · rw [total_addTask, ← h.read p hp]
    exact hr p hp
  · rw [total_addTask, ← h.write p hp]
    exact hw p hp
  · unfold Linux.addTask at hj
    dsimp only at hj
    by_cases hjt : j = s.tasks
    · rw [hjt, update_self] at hj
      exact hends tab hj
    · rw [update_of_ne hjt] at hj
      exact h.ends j tab hj
  · unfold Linux.addTask
    dsimp only
    rw [update_of_ne h0]
    exact h.boot.1
  · unfold Linux.addTask
    dsimp only
    rw [update_of_ne h0]
    exact h.boot.2
  · unfold Linux.addTask at hj ⊢
    dsimp only at hj ⊢
    by_cases hjt : j = s.tasks
    · omega
    · rw [update_of_ne hjt] at hj
      have := h.bound j hj
      omega
  · unfold Linux.addTask at hj ⊢
    dsimp only at hj ⊢
    by_cases hjt : j = s.tasks
    · omega
    · rw [update_of_ne hjt] at hj
      have := h.users j hj
      omega

theorem Exact.spawn (h : Exact s) (user : Bool) : Exact (spawn user s) :=
  h.addTask user (o := none) s.pool (fun _ _ => (add_zero _).symm) (fun _ _ => (add_zero _).symm)
  fun _ hn => by cases hn

/-- The loop of `linux_fdt_clone` over the first `n` entries. -/
theorem clone_counts (pool : Pool) (tab : FdTable) (n p : ℕ) :
    ((List.range n).foldl (fun pool i => if (tab i).flags.used then bumpBoth pool (tab i) else pool)
        pool p).readOpen = (pool p).readOpen + ∑ i ∈ Finset.range n, one (isReader p (tab i)) ∧
      ((List.range n).foldl (fun pool i => if (tab i).flags.used then bumpBoth pool
        (tab i) else pool) pool p).writeOpen = (pool p).writeOpen + ∑ i ∈ Finset.range n,
        one (isWriter p (tab i)) := by
  induction n with
  | zero => simp
  | succ n ih =>
    rw [List.range_succ, List.foldl_append, List.foldl_cons, List.foldl_nil, Finset.sum_range_succ,
      Finset.sum_range_succ]
    generalize List.foldl _ pool (List.range n) = pool' at ih ⊢
    by_cases hused : (tab n).flags.used = true
    · rw [if_pos hused, (bumpBoth_count pool' hused p).1, (bumpBoth_count pool' hused p).2, ih.1, ih.2]
      omega
    · have hu : (tab n).flags.used = false := by simpa using hused
      rw [if_neg hused, isReader_unused hu, isWriter_unused hu, one_false, ih.1, ih.2]
      omega

theorem cloneEntry_flags (bufOk : ℕ → Bool) (i : ℕ) (e : FdEntry) :
    (cloneEntry bufOk i e).flags = e.flags ∧ (cloneEntry bufOk i e).offset = e.offset ∧
      (cloneEntry bufOk i e).size = e.size := by
  unfold cloneEntry
  split <;> exact ⟨rfl, rfl, rfl⟩

/-- The child's copy is the same end of the same pipe. -/
theorem tally_clone (bufOk : ℕ → Bool) (tab : FdTable) (p : ℕ) :
    tally (isReader p) (fun i => cloneEntry bufOk i (tab i)) = tally (isReader p) tab ∧
      tally (isWriter p) (fun i => cloneEntry bufOk i (tab i)) = tally (isWriter p) tab := by
  unfold tally isReader isWriter
  refine ⟨Finset.sum_congr rfl fun i _ => ?_, Finset.sum_congr rfl fun i _ => ?_⟩
  all_goals rw [(cloneEntry_flags bufOk i (tab i)).1, (cloneEntry_flags bufOk i (tab i)).2.1]

theorem Exact.linuxFdtClone (h : Exact s) (ht : s.isUser t = true) (tableOk : Bool) (bufOk : ℕ → Bool) :
    Exact (linuxFdtClone t tableOk bufOk s) := by
  have hplain := h.spawn true
  have htt : t ≠ s.tasks := (h.users t ht).ne
  unfold Linux.linuxFdtClone
  dsimp only
  rw [update_of_ne htt]
  cases htab : s.tables t with
  | none => exact hplain
  | some tab =>
    dsimp only
    by_cases hok : tableOk = true
    · rw [if_pos hok]
      have hcounts := clone_counts s.pool tab FD_MAX
      have hnew := h.addTask true (o := some fun i => cloneEntry bufOk i (tab i))
        ((List.range FD_MAX).foldl
          (fun pool i => if (tab i).flags.used then bumpBoth pool (tab i) else pool) s.pool)
        (fun p _ => by rw [tallyOf, (tally_clone bufOk tab p).1]; exact (hcounts p).1)
        (fun p _ => by rw [tallyOf, (tally_clone bufOk tab p).2]; exact (hcounts p).2)
        (fun tab' htab' i hi => by
          cases htab'
          obtain ⟨hf, ho, hs⟩ := cloneEntry_flags bufOk i (tab i)
          unfold PipeEnd
          rw [hf, ho, hs]
          exact h.ends t tab htab i hi)
      unfold Linux.addTask at hnew
      unfold St.setTable
      dsimp only
      rw [update_idem]
      exact hnew
    · rw [if_neg hok]
      exact hplain

theorem fdAlloc_some {tab : FdTable} (h : fdAlloc tab = some i) : i < FD_MAX ∧ (tab i).flags.used = false := by
  unfold fdAlloc at h
  have hmem := List.mem_range'_1.mp (List.mem_of_find?_eq_some h)
  have hused := List.find?_some h
  unfold FD_MAX at *
  exact ⟨by omega, by simpa using hused⟩

theorem pipeAlloc_some {s' : St} (h : pipeAlloc s = (some i, s')) :
    i < PIPE_MAX ∧ (s.pool i).readOpen = 0 ∧ (s.pool i).writeOpen = 0 ∧
      s' = s.setPipe i { readOpen := 1, writeOpen := 1 } := by
  unfold pipeAlloc at h
  cases hfind : (List.range PIPE_MAX).find? fun i => (s.pool i).readOpen = 0 ∧ (s.pool i).writeOpen = 0 with
  | none =>
    rw [hfind] at h
    cases h
  | some j =>
    rw [hfind] at h
    cases h
    have hzero := List.find?_some hfind
    simp only [Bool.decide_and, Bool.and_eq_true, decide_eq_true_eq] at hzero
    exact ⟨List.mem_range.mp (List.mem_of_find?_eq_some hfind), hzero.1, hzero.2, rfl⟩

theorem pipeAlloc_none {s' : St} (h : pipeAlloc s = (none, s')) :
    s' = s ∧ ∀ i < PIPE_MAX, ¬ ((s.pool i).readOpen = 0 ∧ (s.pool i).writeOpen = 0) := by
  unfold pipeAlloc at h
  cases hfind : (List.range PIPE_MAX).find? fun i => (s.pool i).readOpen = 0 ∧ (s.pool i).writeOpen = 0 with
  | some j =>
    rw [hfind] at h
    cases h
  | none =>
    rw [hfind] at h
    cases h
    refine ⟨rfl, fun i hi hzero => ?_⟩
    have := List.find?_eq_none.mp hfind i (List.mem_range.mpr hi)
    simp [hzero.1, hzero.2] at this

theorem setEntry_idem (a b : FdEntry) : (s.setEntry k i a).setEntry k i b = s.setEntry k i b := by
  unfold St.setEntry St.setTable St.table
  simp

theorem setEntry_comm {j : ℕ} (hij : i ≠ j) (a b : FdEntry) :
    (s.setEntry k i a).setEntry k j b = (s.setEntry k j b).setEntry k i a := by
  unfold St.setEntry St.setTable St.table
  simp [update_comm hij]

theorem tables_setEntry_congr {s' : St} (h : s'.tables = s.tables) (e : FdEntry) :
    (s'.setEntry k i e).tables = (s.setEntry k i e).tables := by
  unfold St.setEntry St.setTable St.table
  rw [h]

/-- A free entry becomes an end of a pipe. -/
theorem Exact.addEntry (h : Exact s) (htab : s.tables k ≠ none) (hi : i < FD_MAX)
    (hfree : (s.table k i).flags.used = false) {e : FdEntry} (hused : e.flags.used = true) (he : PipeEnd e) :
    Exact ({ s with pool := bumpBoth s.pool e }.setEntry k i e) :=
  h.setEntry htab hi (bumpBoth_follows hused hfree (fun _ => rfl) fun _ => rfl) he

theorem Exact.setFree (h : Exact s) (htab : s.tables k ≠ none) (hi : i < FD_MAX)
    (hfree : (s.table k i).flags.used = false) {e : FdEntry} (hused : e.flags.used = false) :
    Exact (s.setEntry k i e) := by
  refine h.setEntry htab hi (follows_same (fun p => ?_) fun p => ?_) (pipeEnd_unused hused)
  · rw [isReader_unused hfree, isReader_unused hused]
  · rw [isWriter_unused hfree, isWriter_unused hused]

/-- Giving a slot back that was free before. -/
theorem undo_counts {pi : ℕ} (hr : (s.pool pi).readOpen = 0) (hw : (s.pool pi).writeOpen = 0) {s' : St}
    (hpool : ∀ p, p ≠ pi → s'.pool p = s.pool p) (p : ℕ) :
    ((pipeUndo s' pi).pool p).readOpen = (s.pool p).readOpen ∧
      ((pipeUndo s' pi).pool p).writeOpen = (s.pool p).writeOpen := by
  unfold pipeUndo St.setPipe
  dsimp only
  by_cases hp : p = pi
  · rw [hp, update_self, hr, hw]
    exact ⟨rfl, rfl⟩
  · rw [update_of_ne hp, hpool p hp]
    exact ⟨rfl, rfl⟩

theorem pipeEnd_fresh (old : FdEntry) {flags : FdFlags} {pi : ℕ} (hpi : pi < PIPE_MAX) (htty : flags.tty = false) :
    PipeEnd (pipeEntry old flags pi) := fun _ _ => ⟨hpi, rfl, htty⟩

theorem Exact.sysEventfd (h : Exact s) (htab : s.tables k ≠ none) : Exact (sysEventfd k s).2 := by
  unfold Linux.sysEventfd
  rcases hal : pipeAlloc s with ⟨_ | pi, s1⟩
  · rw [(pipeAlloc_none hal).1]
    exact h
  · obtain ⟨hpi, hr, hw, hs1⟩ := pipeAlloc_some hal
    subst hs1
    have hother : ∀ p, p ≠ pi → (s.setPipe pi { readOpen := 1, writeOpen := 1 }).pool p = s.pool p :=
      fun p hp => update_of_ne hp _ _
    dsimp only
    cases hfd : fdAlloc ((s.setPipe pi { readOpen := 1, writeOpen := 1 }).table k) with
    | none =>
      exact h.congr rfl rfl rfl (fun p _ => (undo_counts hr hw hother p).1) fun p _ =>
        (undo_counts hr hw hother p).2
    | some fd =>
      obtain ⟨hlt, hfree⟩ := fdAlloc_some hfd
      refine (h.addEntry htab hlt hfree (e := pipeEntry (s.table k fd)
        { used := true, pipeR := true, pipeW := true } pi) rfl (pipeEnd_fresh _ hpi rfl)).congr rfl rfl rfl ?_ ?_
      all_goals
        intro p _
        unfold St.setEntry St.setTable St.setPipe bumpBoth incRead incWrite pipeEntry
        by_cases hp : p = pi
        · subst hp
          simp [hr, hw]
        · simp [hp]

theorem Exact.sysPipe (h : Exact s) (htab : s.tables k ≠ none) (cloexec copied : Bool) :
    Exact (sysPipe k cloexec copied s).2 := by
  unfold Linux.sysPipe
  rcases hal : pipeAlloc s with ⟨_ | pi, s1⟩
  · rw [(pipeAlloc_none hal).1]
    exact h
  obtain ⟨hpi, hr, hw, hs1⟩ := pipeAlloc_some hal
  have hother : ∀ p, p ≠ pi → s1.pool p = s.pool p := by
    intro p hp
    rw [hs1]
    exact update_of_ne hp _ _
  have htables : s1.tables = s.tables := by rw [hs1]; rfl
  have htable : s1.table k = s.table k := by unfold St.table; rw [htables]
  have htasks : s1.tasks = s.tasks := by rw [hs1]; rfl
  have huser : s1.isUser = s.isUser := by rw [hs1]; rfl
  dsimp only
  cases hrfd : fdAlloc (s1.table k) with
  | none =>
    exact h.congr htables htasks huser (fun p _ => (undo_counts hr hw hother p).1)
      fun p _ => (undo_counts hr hw hother p).2
  | some rfd =>
    obtain ⟨hrlt, hrfree⟩ := fdAlloc_some hrfd
    rw [htable] at hrfree
    dsimp only
    generalize hre : pipeEntry (s1.table k rfd) { used := true, pipeR := true, cloexec } pi = re
    have hreused : re.flags.used = true := by rw [← hre]; rfl
    cases hwfd : fdAlloc ((s1.setEntry k rfd re).table k) with
    | none =>
      rw [setEntry_idem]
      exact (h.setFree htab hrlt hrfree rfl).congr (tables_setEntry_congr htables _) htasks huser
        (fun p _ => (undo_counts hr hw hother p).1) fun p _ => (undo_counts hr hw hother p).2
    | some wfd =>
      obtain ⟨hwlt, hwfree⟩ := fdAlloc_some hwfd
      rw [table_setEntry, htable] at hwfree
      have hne : wfd ≠ rfd := by
        rintro rfl
        rw [update_self, hreused] at hwfree
        cases hwfree
      rw [update_of_ne hne] at hwfree
      dsimp only
      generalize hwe : pipeEntry ((s1.setEntry k rfd re).table k wfd) { used := true, pipeW := true, cloexec } pi = we
      by_cases hcopied : copied = true
      · rw [if_pos hcopied]
        have hre' : PipeEnd re := by rw [← hre]; exact pipeEnd_fresh _ hpi rfl
        have hwe' : PipeEnd we := by rw [← hwe]; exact pipeEnd_fresh _ hpi rfl
        have hone := h.addEntry htab hrlt hrfree hreused hre'
        have hfree' : (({ s with pool := bumpBoth s.pool re }.setEntry k rfd re).table k wfd).flags.used = false := by
          rw [table_setEntry, update_of_ne hne]
          exact hwfree
        have htwo := hone.addEntry (tables_setEntry_ne_none _ htab) hwlt hfree' (by rw [← hwe]; rfl) hwe'
        refine htwo.congr (tables_setEntry_congr (tables_setEntry_congr htables _) _) htasks huser ?_ ?_
        all_goals
          intro p _
          subst hs1 hre hwe
          unfold St.setEntry St.setTable St.setPipe bumpBoth incRead incWrite pipeEntry
          by_cases hp : p = pi
          · subst hp
            simp [hr, hw]
          · simp [hp]
      · have hundone : ∀ a b : FdEntry, a.flags.used = false → b.flags.used = false →
            Exact (pipeUndo ((s1.setEntry k rfd a).setEntry k wfd b) pi) := by
          intro a b ha hb
          have hfree' : ((s.setEntry k rfd a).table k wfd).flags.used = false := by
            rw [table_setEntry, update_of_ne hne]
            exact hwfree
          refine ((h.setFree htab hrlt hrfree ha).setFree (tables_setEntry_ne_none _ htab) hwlt hfree' hb).congr
            (tables_setEntry_congr (tables_setEntry_congr htables _) _) htasks huser ?_ ?_
          · exact fun p _ => (undo_counts hr hw hother p).1
          · exact fun p _ => (undo_counts hr hw hother p).2
        rw [if_neg hcopied, setEntry_idem, setEntry_comm hne, setEntry_idem]
        exact hundone _ _ rfl rfl

theorem fdValid.lt {tab : FdTable} {fd : ℤ} (h : fdValid tab fd) : fd.toNat < FD_MAX := by
  obtain ⟨hnonneg, hlt, -⟩ := h
  omega

theorem Exact.sysDup (h : Exact s) (htab : s.tables k ≠ none) {oldfd : ℤ}
    (hone : fdValid (s.table k) oldfd → ¬ BothEnds (s.table k oldfd.toNat)) : Exact (sysDup k oldfd s).2 := by
  unfold Linux.sysDup
  by_cases hval : fdValid (s.table k) oldfd
  · rw [if_pos hval]
    cases hfd : fdAlloc (s.table k) with
    | none => exact h
    | some nfd =>
      obtain ⟨hlt, hfree⟩ := fdAlloc_some hfd
      have hold := hval.lt
      exact h.setEntry htab hlt (bumpOne_follows hval.2.2 (hone hval) hfree (fun _ => rfl) fun _ => rfl)
        (h.pipeEnd htab hold)
  · rw [if_neg hval]
    exact h

theorem Exact.dup2Close (h : Exact s) (htab : s.tables k ≠ none) (hi : i < FD_MAX)
    (hone : ¬ BothEnds (s.table k i)) : Exact (dup2Close k i s) := by
  unfold Linux.dup2Close
  dsimp only
  by_cases hused : (s.table k i).flags.used = true
  · rw [if_pos hused]
    obtain ⟨hr, hw⟩ := h.covers htab hi
    exact h.setEntry htab hi (dropOne_follows hused hone rfl hr hw) (pipeEnd_unused rfl)
  · rw [if_neg hused]
    exact h

theorem dup2Close_spec (h : s.tables k ≠ none) :
    (dup2Close k i s).tables k ≠ none ∧ ((dup2Close k i s).table k i).flags.used = false ∧
      ∀ j, j ≠ i → (dup2Close k i s).table k j = s.table k j := by
  unfold Linux.dup2Close
  dsimp only
  by_cases hused : (s.table k i).flags.used = true
  · rw [if_pos hused]
    refine ⟨tables_setEntry_ne_none (s := { s with pool := _ }) _ h, ?_, fun j hj => ?_⟩
    · rw [table_setEntry, update_self]
    · rw [table_setEntry, update_of_ne hj, table_pool]
  · rw [if_neg hused]
    exact ⟨h, by simpa using hused, fun _ _ => rfl⟩

/-- What `dup2` needs of the two descriptors. -/
def Dup2Ok (tab : FdTable) (oldfd newfd : ℤ) : Prop :=
  fdValid tab oldfd → 0 ≤ newfd → newfd < FD_MAX → newfd ≠ oldfd →
    ¬ BothEnds (tab oldfd.toNat) ∧ ¬ BothEnds (tab newfd.toNat)

theorem Exact.sysDup2 (h : Exact s) (htab : s.tables k ≠ none) {oldfd newfd : ℤ}
    (hok : Dup2Ok (s.table k) oldfd newfd) :
    Exact (sysDup2 k oldfd newfd s).2 ∧ (sysDup2 k oldfd newfd s).2.tables k ≠ none ∧
      (0 ≤ (sysDup2 k oldfd newfd s).1 → (sysDup2 k oldfd newfd s).1 < FD_MAX) := by
  unfold Linux.sysDup2
  by_cases hval : fdValid (s.table k) oldfd
  · rw [if_pos hval]
    by_cases hrange : newfd < 0 ∨ (FD_MAX : ℤ) ≤ newfd
    · rw [if_pos hrange]
      exact ⟨h, htab, fun hret => absurd hret (by dsimp only [EBADF]; decide)⟩
    · rw [if_neg hrange]
      by_cases hsame : newfd = oldfd
      · rw [if_pos hsame]
        exact ⟨h, htab, fun _ => by dsimp only; omega⟩
      · rw [if_neg hsame]
        obtain ⟨hold, hnew⟩ := hok hval (by omega) (by omega) hsame
        have hnlt : newfd.toNat < FD_MAX := by omega
        have holt := hval.lt
        have hne : oldfd.toNat ≠ newfd.toNat := by
          have := hval.1
          omega
        obtain ⟨htab', hfree, hkept⟩ := dup2Close_spec (i := newfd.toNat) htab
        have hclosed := h.dup2Close htab hnlt hnew
        have hentry := hkept oldfd.toNat hne
        dsimp only
        refine ⟨?_, tables_setEntry_ne_none
          (s := { Linux.dup2Close k newfd.toNat s with pool := _ }) _ htab', fun _ => by omega⟩
        refine hclosed.setEntry htab' hnlt (bumpOne_follows ?_ ?_ hfree (fun _ => rfl) fun _ => rfl)
          (hclosed.pipeEnd htab' holt)
        · rw [hentry]
          exact hval.2.2
        · rw [hentry]
          exact hold
  · rw [if_neg hval]
    exact ⟨h, htab, fun hret => absurd hret (by dsimp only [EBADF]; decide)⟩

/-- The close-on-exec flag has nothing to do with the counts. -/
theorem Exact.setCloexec (h : Exact s) (htab : s.tables k ≠ none) (hi : i < FD_MAX) (c : Bool) :
    Exact (s.setEntry k i ((s.table k i).copy c)) :=
  h.setEntry htab hi (follows_same (fun _ => rfl) fun _ => rfl) (h.pipeEnd htab hi)

theorem Exact.sysDup3 (h : Exact s) (htab : s.tables k ≠ none) {oldfd newfd : ℤ} (cloexec : Bool)
    (hok : Dup2Ok (s.table k) oldfd newfd) : Exact (sysDup3 k oldfd newfd cloexec s).2 := by
  unfold Linux.sysDup3
  by_cases hsame : oldfd = newfd
  · rw [if_pos hsame]
    exact h
  · rw [if_neg hsame]
    obtain ⟨hx, htab', hret⟩ := h.sysDup2 htab hok
    dsimp only
    by_cases hset : 0 ≤ (Linux.sysDup2 k oldfd newfd s).1 ∧ cloexec = true
    · rw [if_pos hset]
      have hlt := hret hset.1
      exact hx.setCloexec htab' (by omega) true
    · rw [if_neg hset]
      exact hx

theorem Exact.sysFcntl (h : Exact s) (htab : s.tables k ≠ none) (fd : ℤ) (cmd arg : ℕ) :
    Exact (sysFcntl k fd cmd arg s).2 := by
  unfold Linux.sysFcntl
  by_cases hval : fdValid (s.table k) fd
  · rw [if_pos hval]
    have hlt := hval.lt
    dsimp only
    split
    · split
      · exact h
      · cases hfind : (List.range' arg (FD_MAX - arg)).find? fun i => !(s.table k i).flags.used with
        | none => exact h
        | some nfd =>
          have hmem := List.mem_range'_1.mp (List.mem_of_find?_eq_some hfind)
          have hfree := List.find?_some hfind
          exact h.setEntry htab (by omega)
            (bumpBoth_follows hval.2.2 (by simpa using hfree) (fun _ => rfl) fun _ => rfl) (h.pipeEnd htab hlt)
    · split
      · exact h
      · split
        · exact h.setCloexec htab hlt _
        · split
          · exact h
          · split <;> exact h
  · rw [if_neg hval]
    exact h

/-- A position may change where it is no pipe's index. -/
theorem moved_same {e : FdEntry} {o : ℕ} (h : IsPipe e → o = e.offset) (p : ℕ) :
    isReader p { e with offset := o } = isReader p e ∧ isWriter p { e with offset := o } = isWriter p e := by
  by_cases hpipe : IsPipe e
  · rw [h hpipe]
    exact ⟨rfl, rfl⟩
  · unfold isReader isWriter
    dsimp only
    cases hu : e.flags.used with
    | false => exact ⟨rfl, rfl⟩
    | true =>
      have hr : e.flags.pipeR = false := by
        by_contra hne
        exact hpipe ⟨hu, Or.inl (by simpa using hne)⟩
      have hw : e.flags.pipeW = false := by
        by_contra hne
        exact hpipe ⟨hu, Or.inr (by simpa using hne)⟩
      rw [hr, hw]
      exact ⟨rfl, rfl⟩

theorem Exact.move (h : Exact s) (htab : s.tables k ≠ none) (hi : i < FD_MAX) {o : ℕ}
    (ho : IsPipe (s.table k i) → o = (s.table k i).offset) :
    Exact (s.setEntry k i { s.table k i with offset := o }) := by
  refine h.setEntry htab hi (follows_same (fun p => (moved_same ho p).1) fun p => (moved_same ho p).2) ?_
  intro hu hpipe
  obtain ⟨hlt, hrest⟩ := h.pipeEnd htab hi hu hpipe
  have heq := ho ⟨hu, hpipe⟩
  exact ⟨by dsimp only; omega, hrest⟩

theorem Exact.sysLseek (h : Exact s) (htab : s.tables k ≠ none) {fd offset whence : ℤ}
    (hstay : fdValid (s.table k) fd → IsPipe (s.table k fd.toNat) → ∀ pos,
      seekPos (s.table k fd.toNat) offset whence = some pos → 0 ≤ pos →
        pos.toNat % 2 ^ 32 = (s.table k fd.toNat).offset) : Exact (sysLseek k fd offset whence s).2 := by
  unfold Linux.sysLseek
  by_cases hval : fdValid (s.table k) fd
  · rw [if_pos hval]
    have hlt := hval.lt
    dsimp only
    cases hpos : seekPos (s.table k fd.toNat) offset whence with
    | none => exact h
    | some pos =>
      dsimp only
      by_cases hneg : pos < 0
      · rw [if_pos hneg]
        exact h
      · rw [if_neg hneg]
        exact h.move htab hlt fun hpipe => hstay hval hpipe pos hpos (by omega)
  · rw [if_neg hval]
    exact h

/-- Reading a pipe end as if it were a file gives nothing, since its size is 0. -/
theorem readIntoKernel_pipe (w : ReadEnv) {e : FdEntry} (hsize : e.size = 0) (htty : e.flags.tty = false) (count : ℕ) :
    readIntoKernel w e count ≤ 0 := by
  unfold readIntoKernel EISDIR
  rw [if_neg (c := e.flags.tty = true) (by simp [htty]), if_pos (c := e.size ≤ e.offset) (by omega)]
  split
  · exact le_rfl
  · split <;> omega

theorem writeFromKernel_spec (kmalloc vfs : Bool) (e : FdEntry) (count : ℕ) :
    (writeFromKernel kmalloc vfs e count).2.flags = e.flags ∧
      (writeFromKernel kmalloc vfs e count).2.offset = e.offset ∧
      (writeFromKernel kmalloc vfs e count).2.size = e.size := by
  unfold writeFromKernel
  dsimp only
  repeat' split
  all_goals exact ⟨rfl, rfl, rfl⟩

/-- The position that `sendfile` gives its input while it reads, for a caller's offset. -/
def sendPos (tmp : ℤ) : ℕ := if 0 ≤ tmp then tmp.toNat % 2 ^ 32 else 0

/-- After the read: the input's position is `o`, and `nr` bytes go on to the output. -/
theorem Exact.sent (h : Exact s) (htab : s.tables k ≠ none) {i j o : ℕ} (hi : i < FD_MAX) (hj : j < FD_MAX)
    (ho : IsPipe (s.table k i) → o = (s.table k i).offset) (kmalloc vfs : Bool) (n : ℕ) :
    Exact ((s.setEntry k i { s.table k i with offset := o }).setEntry k j
      (writeFromKernel kmalloc vfs ((s.setEntry k i { s.table k i with offset := o }).table k j) n).2) := by
  have hmove := h.move htab hi ho
  have htab' : (s.setEntry k i { s.table k i with offset := o }).tables k ≠ none := tables_setEntry_ne_none _ htab
  generalize s.setEntry k i { s.table k i with offset := o } = s' at hmove htab' ⊢
  obtain ⟨hflags, hoffset, hsize⟩ := writeFromKernel_spec kmalloc vfs (s'.table k j) n
  refine hmove.setEntry htab' hj (follows_same (fun p => ?_) fun p => ?_) ?_
  · unfold isReader
    rw [hflags, hoffset]
  · unfold isWriter
    rw [hflags, hoffset]
  · unfold PipeEnd
    rw [hflags, hoffset, hsize]
    exact hmove.pipeEnd htab' hj

theorem Exact.sysSendfile (h : Exact s) (htab : s.tables k ≠ none) {outfd infd : ℤ} {uoffset : Option (Option ℤ)}
    (count : ℕ) {buf : Bool} (w : ReadEnv) (kmalloc vfs : Bool)
    (hstay : fdValid (s.table k) outfd → fdValid (s.table k) infd → IsPipe (s.table k infd.toNat) →
      buf = true → ∀ tmp, uoffset = some (some tmp) → sendPos tmp = (s.table k infd.toNat).offset) :
    Exact (sysSendfile k outfd infd uoffset count buf w kmalloc vfs s).2 := by
  unfold Linux.sysSendfile
  by_cases hval : fdValid (s.table k) outfd ∧ fdValid (s.table k) infd
  · rw [if_pos hval]
    rcases uoffset with _ | _ | tmp
    · rw [if_neg (by simp)]
      by_cases hbuf : buf = false
      · rw [if_pos hbuf]
        exact h
      · rw [if_neg hbuf]
        dsimp only
        generalize hnr : readIntoKernel w _ count = nr
        have hnone : IsPipe (s.table k infd.toNat) → nr ≤ 0 ∧ (s.table k infd.toNat).offset < PIPE_MAX := by
          intro hpipe
          obtain ⟨hlt, hsize, htty⟩ := h.pipeEnd htab hval.2.lt hpipe.1 hpipe.2
          exact ⟨hnr ▸ readIntoKernel_pipe w (by exact hsize) (by exact htty) count, hlt⟩
        have hpos : IsPipe (s.table k infd.toNat) →
            ((s.table k infd.toNat).offset + (if 0 < nr then nr.toNat else 0)) % 2 ^ 32 =
              (s.table k infd.toNat).offset := by
          intro hpipe
          obtain ⟨hle, hlt⟩ := hnone hpipe
          rw [if_neg (by omega)]
          unfold PIPE_MAX at hlt
          omega
        by_cases hsome : 0 < nr
        · rw [if_pos (c := 0 < nr) hsome]
          exact h.sent htab hval.2.lt hval.1.lt hpos kmalloc vfs _
        · rw [if_neg (c := 0 < nr) hsome]
          exact h.move htab hval.2.lt hpos
    · exact h
    · rw [if_neg (by simp)]
      by_cases hbuf : buf = false
      · rw [if_pos hbuf]
        exact h
      · rw [if_neg hbuf]
        dsimp only
        have hpos := fun hpipe => hstay hval.1 hval.2 hpipe (by simpa using hbuf) tmp rfl
        unfold sendPos at hpos
        generalize (if 0 ≤ tmp then tmp.toNat % 2 ^ 32 else 0) = o at hpos ⊢
        split
        · exact h.sent htab hval.2.lt hval.1.lt hpos kmalloc vfs _
        · exact h.move htab hval.2.lt hpos
  · rw [if_neg hval]
    exact h

theorem Exact.sysClose (h : Exact s) (htab : s.tables k ≠ none) {fd : ℤ}
    (hone : fdValid (s.table k) fd → ¬ BothEnds (s.table k fd.toNat)) : Exact (sysClose k fd s).2 := by
  unfold Linux.sysClose
  by_cases hval : fdValid (s.table k) fd
  · rw [if_pos hval]
    exact h.closeAt htab hval.lt (hone hval)
  · rw [if_neg hval]
    exact h

end ComputerOS.Linux
