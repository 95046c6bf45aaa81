import ComputerOS.Linux.Calls

/-!
Runs of the descriptor calls by any number of tasks. As long as no call drops or duplicates one
end of an entry that is both ends, and none moves the position of a pipe entry, the counts of
every pipe are the numbers of entries. Then a slot is handed out only when nothing refers to it,
a reader of an empty pipe sees its end exactly when no writer is left, and a slot that nothing
refers to is free.
-/
namespace ComputerOS.Linux

open Function

/-- The state before the first call. -/
def boot : St where
  pool := fun _ => {}
  tables := update (fun _ => none) 0 (some fdtNew)
  isUser := fun _ => false
  tasks := 1

/-- The states reached from `boot` by calls that all satisfy `C`. -/
inductive Run (C : Op → St → Prop) : St → Prop
  | boot : Run C boot
  | step {s : St} (h : Run C s) (op : Op) (hop : C op s) : Run C (op.run s)

def callTable (t : ℕ) (ok : Bool) (s : St) : FdTable := (curFdt t ok s).2.table (curFdt t ok s).1

/-- The call neither drops nor duplicates an entry that is both ends of a pipe, other than by
`fork` and `fcntl`, and moves no position of a pipe entry. -/
def Op.Careful : Op → St → Prop
  | .pipe .., _ => True
  | .eventfd .., _ => True
  | .dup t ok oldfd, s => fdValid (callTable t ok s) oldfd → ¬ BothEnds (callTable t ok s oldfd.toNat)
  | .dup2 t ok oldfd newfd, s => Dup2Ok (callTable t ok s) oldfd newfd
  | .dup3 t ok oldfd newfd _, s => Dup2Ok (callTable t ok s) oldfd newfd
  | .fcntl .., _ => True
  | .lseek t ok fd offset whence, s => fdValid (callTable t ok s) fd → IsPipe (callTable t ok s fd.toNat) →
      ∀ pos, seekPos (callTable t ok s fd.toNat) offset whence = some pos → 0 ≤ pos →
        pos.toNat % 2 ^ 32 = (callTable t ok s fd.toNat).offset
  | .sendfile t ok outfd infd uoffset _ buf _ _ _, s =>
      fdValid (callTable t ok s) outfd → fdValid (callTable t ok s) infd →
        IsPipe (callTable t ok s infd.toNat) → buf = true →
          ∀ tmp, uoffset = some (some tmp) → sendPos tmp = (callTable t ok s infd.toNat).offset
  | .close t ok fd, s => fdValid (callTable t ok s) fd → ¬ BothEnds (callTable t ok s fd.toNat)
  | .fork .., _ => True
  | .exec t ok, s => ∀ i, 3 ≤ i → i < FD_MAX → (callTable t ok s i).flags.cloexec = true →
      ¬ BothEnds (callTable t ok s i)
  | .exit t, s => s.tables t ≠ none → ∀ i < FD_MAX, ¬ BothEnds (s.table t i)
  | .spawn _, _ => True

theorem exact_boot : Exact boot := by
  have hzero : ∀ P, (∀ e : FdEntry, e.flags.pipeR = false → e.flags.pipeW = false → P e = false) →
      total P boot = 0 := fun P hP => by
    unfold total boot
    dsimp only
    rw [Finset.sum_range_one, update_self, tallyOf, tally_fdtNew P hP]
  refine ⟨fun p _ => ?_, fun p _ => ?_, fun k tab hk i _ => ?_, ⟨?_, rfl⟩, fun k hk => ?_, fun k hk => ?_⟩
  · rw [hzero _ fun e hr _ => isReader_none p e hr]
    rfl
  · rw [hzero _ fun e _ hw => isWriter_none p e hw]
    rfl
  · unfold boot at hk
    dsimp only at hk
    by_cases hk0 : k = 0
    · rw [hk0, update_self] at hk
      cases hk
      intro _ hpipe
      unfold fdtNew at hpipe
      split at hpipe <;> simp at hpipe
    · rw [update_of_ne hk0] at hk
      cases hk
  · unfold boot
    dsimp only
    rw [update_self]
    exact Option.some_ne_none _
  · unfold boot at hk ⊢
    dsimp only at hk ⊢
    by_contra hne
    rw [update_of_ne (by omega)] at hk
    exact hk rfl
  · cases hk

variable {s : St}

/-- One call keeps the counts exact. -/
theorem Exact.step (h : Exact s) (op : Op) (hop : op.Careful s) : Exact (op.run s) := by
  cases op with
  | pipe t ok cloexec copied =>
    obtain ⟨hx, htab⟩ := h.curFdt t ok
    exact hx.sysPipe htab cloexec copied
  | eventfd t ok =>
    obtain ⟨hx, htab⟩ := h.curFdt t ok
    exact hx.sysEventfd htab
  | dup t ok oldfd =>
    obtain ⟨hx, htab⟩ := h.curFdt t ok
    exact hx.sysDup htab hop
  | dup2 t ok oldfd newfd =>
    obtain ⟨hx, htab⟩ := h.curFdt t ok
    exact (hx.sysDup2 htab hop).1
  | dup3 t ok oldfd newfd cloexec =>
    obtain ⟨hx, htab⟩ := h.curFdt t ok
    exact hx.sysDup3 htab cloexec hop
  | fcntl t ok fd cmd arg =>
    obtain ⟨hx, htab⟩ := h.curFdt t ok
    exact hx.sysFcntl htab fd cmd arg
  | lseek t ok fd offset whence =>
    obtain ⟨hx, htab⟩ := h.curFdt t ok
    exact hx.sysLseek htab hop
  | sendfile t ok outfd infd uoffset count buf w kmalloc vfs =>
    obtain ⟨hx, htab⟩ := h.curFdt t ok
    exact hx.sysSendfile htab count w kmalloc vfs hop
  | close t ok fd =>
    obtain ⟨hx, htab⟩ := h.curFdt t ok
    exact hx.sysClose htab hop
  | fork t tableOk bufOk =>
    unfold Op.run
    dsimp only
    split
    · rename_i ht
      exact h.linuxFdtClone ht tableOk bufOk
    · exact h
  | exec t ok =>
    obtain ⟨hx, htab⟩ := h.curFdt t ok
    have hclosed := hx.fdtCloseOnExec htab hop
    unfold Op.run onTable
    exact hclosed
  | exit t =>
    unfold Op.run
    dsimp only
    split
    · rename_i ht
      exact h.linuxFdtRelease ht hop
    · exact h
  | spawn user => exact h.spawn user

theorem Run.exact (h : Run Op.Careful s) : Exact s := by
  induction h with
  | boot => exact exact_boot
  | step _ op hop ih => exact ih.step op hop

/-- No entry of any table refers to pipe `p`. -/
def Unreferenced (s : St) (p : ℕ) : Prop :=
  ∀ k tab, s.tables k = some tab → ∀ i < FD_MAX, ¬ (IsPipe (tab i) ∧ (tab i).offset = p)

/-- No entry of any table is a write end of pipe `p`. -/
def Writerless (s : St) (p : ℕ) : Prop :=
  ∀ k tab, s.tables k = some tab → ∀ i < FD_MAX, isWriter p (tab i) = false

theorem Exact.total_zero (h : Exact s) (P : FdEntry → Bool) :
    total P s = 0 ↔ ∀ k tab, s.tables k = some tab → ∀ i < FD_MAX, P (tab i) = false := by
  rw [total_eq_zero]
  constructor
  · intro hz k tab htab i hi
    have hne : s.tables k ≠ none := by rw [htab]; exact Option.some_ne_none _
    have := hz k (h.bound k hne) hne i hi
    rwa [table_of_some htab] at this
  · intro hz k _ hne i hi
    exact hz k _ (tables_of_ne_none hne) i hi

theorem Exact.writeOpen_zero (h : Exact s) {p : ℕ} (hp : p < PIPE_MAX) :
    (s.pool p).writeOpen = 0 ↔ Writerless s p := by
  rw [h.write p hp]
  exact h.total_zero _

theorem Exact.free_iff (h : Exact s) {p : ℕ} (hp : p < PIPE_MAX) :
    (s.pool p).readOpen = 0 ∧ (s.pool p).writeOpen = 0 ↔ Unreferenced s p := by
  rw [h.read p hp, h.write p hp, h.total_zero, h.total_zero]
  constructor
  · rintro ⟨hr, hw⟩ k tab htab i hi ⟨⟨hu, hpipe⟩, ho⟩
    have hr := hr k tab htab i hi
    have hw := hw k tab htab i hi
    rcases hpipe with hpr | hpw
    · simp [isReader, hu, hpr, ho] at hr
    · simp [isWriter, hu, hpw, ho] at hw
  · intro hfree
    refine ⟨fun k tab htab i hi => ?_, fun k tab htab i hi => ?_⟩
    · by_contra hne
      simp only [isReader, Bool.not_eq_false, Bool.and_eq_true, beq_iff_eq] at hne
      exact hfree k tab htab i hi ⟨⟨hne.1.1, Or.inl hne.1.2⟩, hne.2⟩
    · by_contra hne
      simp only [isWriter, Bool.not_eq_false, Bool.and_eq_true, beq_iff_eq] at hne
      exact hfree k tab htab i hi ⟨⟨hne.1.1, Or.inr hne.1.2⟩, hne.2⟩

/-- The counts of every pipe are the numbers of entries that are its ends. -/
def Counted (s : St) : Prop :=
  ∀ p < PIPE_MAX, (s.pool p).readOpen = total (isReader p) s ∧
  (s.pool p).writeOpen = total (isWriter p) s

/-- In every state that careful calls reach the counts are right, and so a slot is reused only
when nothing refers to it, a reader of an empty pipe sees the end exactly when there is no
writer, and a slot that nothing refers to can be allocated. -/
theorem pipe_counts (h : Run Op.Careful s) :
    Counted s ∧
    (∀ p s', pipeAlloc s = (some p, s') → p < PIPE_MAX ∧ Unreferenced s p) ∧
    (∀ p < PIPE_MAX, ∀ used, pipeReadWait { s.pool p with used } = .eof ↔ used = 0 ∧ Writerless s p) ∧
    ∀ p < PIPE_MAX, Unreferenced s p →
      ((s.pool p).readOpen = 0 ∧ (s.pool p).writeOpen = 0) ∧ (pipeAlloc s).1 ≠ none := by
  have hx := h.exact
  refine ⟨fun p hp => ⟨hx.read p hp, hx.write p hp⟩, fun p s' hal => ?_, fun p hp used => ?_, fun p hp hfree => ?_⟩
  · obtain ⟨hp, hr, hw, -⟩ := pipeAlloc_some hal
    exact ⟨hp, (hx.free_iff hp).mp ⟨hr, hw⟩⟩
  · rw [← hx.writeOpen_zero hp]
    unfold pipeReadWait
    dsimp only
    by_cases hused : used = 0
    · rw [if_pos hused]
      by_cases hopen : (s.pool p).writeOpen = 0
      · simp [hused, hopen]
      · simp [hopen]
    · simp [hused]
  · have hzero := (hx.free_iff hp).mpr hfree
    refine ⟨hzero, fun hnone => ?_⟩
    have hal : pipeAlloc s = (none, (pipeAlloc s).2) := Prod.ext hnone rfl
    exact (pipeAlloc_none hal).2 p hp hzero

/-- A task makes a pipe and forks, and the parent closes its read end. -/
def pipeline : St :=
  (Op.close 1 true 3).run ((Op.fork 1 true fun _ => true).run
    ((Op.pipe 1 true false true).run ((Op.spawn true).run boot)))

theorem pipeline_counts : Run Op.Careful pipeline ∧ (pipeline.pool 0).writeOpen = 2 ∧
    total (isWriter 0) pipeline = 2 ∧ (pipeline.pool 0).readOpen = 1 := by
  have hrun : Run Op.Careful pipeline := by
    refine .step (.step (.step (.step .boot (.spawn true) trivial) (.pipe 1 true false true)
      trivial) (.fork 1 true fun _ => true) trivial) (.close 1 true 3) ?_
    intro _ hboth
    exact absurd hboth.2.2 (by decide)
  have hcount := ((pipe_counts hrun).1 0 (by decide)).2
  have hopen : (pipeline.pool 0).writeOpen = 2 := by decide
  exact ⟨hrun, hopen, hcount ▸ hopen, by decide⟩

/-- A task makes an event descriptor and closes it: the slot keeps a writer that is in no table. -/
theorem eventfd_leaks : ¬ ∀ s, Run (fun _ _ => True) s → Counted s := by
  intro hall
  have hrun := Run.step (.step (.step (C := fun _ _ => True) .boot (.spawn true) trivial) (.eventfd 1 true) trivial)
    (.close 1 true 3) trivial
  have hcount := (hall _ hrun 0 (by decide)).2
  have htotal : total (isWriter 0)
      ((Op.close 1 true 3).run ((Op.eventfd 1 true).run ((Op.spawn true).run boot))) = 0 := by decide +kernel
  rw [htotal] at hcount
  exact absurd hcount (by decide)

end ComputerOS.Linux
