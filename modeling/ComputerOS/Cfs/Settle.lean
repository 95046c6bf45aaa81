import ComputerOS.Cfs.Prog
import ComputerOS.Cfs.Journal

/-!
What a public mutating call leaves behind on a device that may fail at any access.
A body keeps the transaction open and the snapshot of the free counts, so an abort
closes the transaction and restores the counts. A commit closes it too, unless a
write of a journaled commit fails: then the function returns with the transaction
still in flight, and every later read sees its buffer instead of the disk.
-/
namespace ComputerOS.Cfs

open M WriteLog

/-- What every body keeps: the transaction, its snapshot, the geometry. -/
structure Framed (s s' : St) : Prop where
  active : s'.txnActive = s.txnActive
  freeBlocks : s'.txnFreeBlocks = s.txnFreeBlocks
  freeInodes : s'.txnFreeInodes = s.txnFreeInodes
  geom : s'.fs.toGeom = s.fs.toGeom
  jseq : s'.jseq = s.jseq

theorem Framed.refl (s : St) : Framed s s := ⟨rfl, rfl, rfl, rfl, rfl⟩

theorem Framed.trans (a b c : St) (h₁ : Framed a b) (h₂ : Framed b c) : Framed a c :=
  ⟨h₂.active.trans h₁.active, h₂.freeBlocks.trans h₁.freeBlocks,
    h₂.freeInodes.trans h₁.freeInodes, h₂.geom.trans h₁.geom, h₂.jseq.trans h₁.jseq⟩

theorem rawWriteBlock_framed (b : ℕ) (v : Block) : Keeps Framed (rawWriteBlock b v) := by
  intro s
  rw [rawWriteBlock_run]
  cases s.wr 0 <;> exact ⟨rfl, rfl, rfl, rfl, rfl⟩

theorem bdReadBlock_framed (b : ℕ) : Keeps Framed (bdReadBlock b) := by
  intro s
  rw [bdReadBlock_eq]
  split
  · exact Framed.refl s
  · exact ⟨rfl, rfl, rfl, rfl, rfl⟩

theorem bdWriteBlock_framed (b : ℕ) (v : Block) : Keeps Framed (bdWriteBlock b v) := by
  intro s
  rw [bdWriteBlock_eq]
  split
  · split
    · exact ⟨rfl, rfl, rfl, rfl, rfl⟩
    · exact ⟨rfl, rfl, rfl, rfl, rfl⟩
  · exact rawWriteBlock_framed b v s

theorem Ordered.framed {α : Type} {x : M α} (h : Ordered x) : Keeps Framed x :=
  h.keeps Framed.refl Framed.trans (fun _ _ => ⟨rfl, rfl, rfl, rfl, rfl⟩) bdReadBlock_framed
    bdWriteBlock_framed (fun _ _ => ⟨rfl, rfl, rfl, rfl, rfl⟩) rawWriteBlock_framed

/-- A run of block writes succeeds exactly when the device accepts each of them;
either way it changes nothing but the disk. -/
theorem writeAll_cases (ws : List (ℕ × Block)) (s : St) :
    ∃ d w, ((∀ i < ws.length, s.wr i = .ok) ∧
        (writeAll ws).run s = (some (), { s with disk := d, wr := w })) ∨
      ((∃ i < ws.length, s.wr i ≠ .ok) ∧
        (writeAll ws).run s = (none, { s with disk := d, wr := w })) := by
  induction ws generalizing s with
  | nil => exact ⟨s.disk, s.wr, Or.inl ⟨by simp, rfl⟩⟩
  | cons e ws ih =>
    obtain ⟨b, v⟩ := e
    rw [writeAll]
    cases h0 : s.wr 0 with
    | ok =>
      have hstep : (rawWriteBlock b v).run s = (some (), { s with
          disk := Function.update s.disk b v, wr := fun i => s.wr (i + 1) }) := by
        simp only [rawWriteBlock_run, h0]
      obtain ⟨d, w, ⟨hok, hrun⟩ | ⟨⟨i, hi, hbad⟩, hrun⟩⟩ := ih { s with
          disk := Function.update s.disk b v, wr := fun i => s.wr (i + 1) }
      · refine ⟨d, w, Or.inl ⟨?_, by rw [bind_of_some hstep, hrun]⟩⟩
        intro i hi
        cases i with
        | zero => exact h0
        | succ i => exact hok i (by simpa using hi)
      · exact ⟨d, w, Or.inr ⟨⟨i + 1, by simpa using hi, hbad⟩, by rw [bind_of_some hstep, hrun]⟩⟩
    | fail k =>
      have hstep : (rawWriteBlock b v).run s = (none, { s with
          disk := Function.update s.disk b (torn k (s.disk b) v), wr := fun i => s.wr (i + 1) }) := by
        simp only [rawWriteBlock_run, h0]
      exact ⟨_, _, Or.inr ⟨⟨0, by simp, by simp [h0]⟩, bind_of_none hstep⟩⟩

/-- The transaction of `s` goes through the journal. -/
def UsesJournal (s : St) : Prop :=
  s.txn ≠ [] ∧ s.fs.journalStart ≠ 0 ∧ s.txn.length + 2 ≤ s.fs.journalBlocks

/-- The number of block writes `txn_commit` issues in state `s`: the home blocks,
and with a journal also descriptor, copies, commit record and release record. -/
def commitCost (s : St) : ℕ :=
  if s.fs.journalStart = 0 ∨ s.fs.journalBlocks < s.txn.length + 2 then s.txn.length
  else if s.txn = [] then 0
  else 2 * s.txn.length + 3

def CommitWriteFails (s : St) : Prop := ∃ i < commitCost s, s.wr i ≠ .ok

theorem length_journalCopies (base : ℕ) (t : List (ℕ × Block)) :
    (journalCopies base t).length = t.length := by
  induction t generalizing base with
  | nil => rfl
  | cons e rest ih => simp [journalCopies, ih]

theorem length_commitLog (s : St) : (commitLog s).length = 2 * s.txn.length + 3 := by
  simp [commitLog, length_journalCopies]
  omega

/-- `txn_commit` fails exactly when one of its writes does. It then leaves the
transaction in flight if it used the journal, and always leaves the counts. -/
theorem txnCommit_cases {s : St} (ha : s.txnActive = true) :
    (¬ CommitWriteFails s ∧ (txnCommit.run s).1 = some () ∧ (txnCommit.run s).2.txnActive = false) ∨
    (CommitWriteFails s ∧ (txnCommit.run s).1 = none ∧ (txnCommit.run s).2.fs = s.fs ∧
      ((txnCommit.run s).2.txnActive = true ↔ UsesJournal s)) := by
  have hact : ¬ s.txnActive = false := by simp [ha]
  have hunfold : txnCommit.run s = _ := bind_of_some (get_run s)
  rw [if_neg hact] at hunfold
  by_cases hnil : s.txn = []
  · rw [if_pos hnil] at hunfold
    left
    rw [hunfold]
    refine ⟨?_, rfl, rfl⟩
    rintro ⟨i, hi, _⟩
    simp [commitCost, hnil] at hi
  · rw [if_neg hnil] at hunfold
    by_cases hj : s.fs.journalStart = 0 ∨ s.fs.journalBlocks < s.txn.length + 2
    · rw [if_pos hj] at hunfold
      have hcost : commitCost s = s.txn.length := by simp only [commitCost, if_pos hj]
      have hnot : ¬ UsesJournal s := by
        rintro ⟨_, h1, h2⟩
        omega
      obtain ⟨d, w, ⟨hok, hrun⟩ | ⟨hbad, hrun⟩⟩ := writeAll_cases s.txn s
      · left
        rw [hunfold, commitThrough, bind_run, attempt_run, hrun]
        refine ⟨?_, rfl, rfl⟩
        rintro ⟨i, hi, hne⟩
        exact hne (hok i (by omega))
      · right
        rw [hunfold, commitThrough, bind_run, attempt_run, hrun]
        refine ⟨by rw [CommitWriteFails, hcost]; exact hbad, rfl, rfl, ?_⟩
        exact ⟨fun h => absurd h (by simp [modify_run, fail_run, bind_run]), fun h => absurd h hnot⟩
    · have huses : UsesJournal s := ⟨hnil, by omega, by omega⟩
      have hcost : commitCost s = (commitLog s).length := by
        rw [length_commitLog]
        simp only [commitCost, if_neg hj, if_neg hnil]
      have hjour := txnCommit_journaled ⟨ha, hnil, huses.2.1, huses.2.2⟩
      obtain ⟨d, w, ⟨hok, hrun⟩ | ⟨hbad, hrun⟩⟩ := writeAll_cases (commitLog s) s
      · left
        rw [hjour, bind_of_some hrun, modify_run]
        refine ⟨?_, rfl, rfl⟩
        rintro ⟨i, hi, hne⟩
        exact hne (hok i (by omega))
      · right
        rw [hjour, bind_of_none hrun]
        exact ⟨by rw [CommitWriteFails, hcost]; exact hbad, rfl, rfl, by simp [ha, huses]⟩

/-- The state in which a body starts. -/
def St.begun (s : St) : St := (txnBegin.run s).2

def commitState (env : Env) (c : Call) (s : St) : Option St :=
  match (c.body env).run s.begun with
  | (some rc, s') => if 0 ≤ rc then some s' else none
  | (none, _) => none

theorem begun_run (s : St) : txnBegin.run s = (some (), s.begun) := rfl

theorem exec_aborts {env : Env} {c : Call} {s : St} (h : commitState env c s = none) :
    (c.exec env).run s = (none, (txnAbort.run ((c.body env).run s.begun).2).2) := by
  rw [Call.exec_eq, inTxn, bind_of_some (begun_run s), bind_of_some (attempt_run _ _)]
  unfold commitState at h
  rcases hb : (c.body env).run s.begun with ⟨_ | rc, s'⟩
  · rfl
  · rw [hb] at h
    have hneg : rc < 0 := by
      by_contra hge
      simp [show 0 ≤ rc by omega] at h
    simp only [if_pos hneg]
    rfl

theorem exec_commits {env : Env} {c : Call} {s s' : St} (h : commitState env c s = some s') :
    ∃ rc, (c.exec env).run s = (txnCommit >>= fun _ => pure rc).run s' ∧ 0 ≤ rc ∧
      (c.body env).run s.begun = (some rc, s') := by
  unfold commitState at h
  rcases hb : (c.body env).run s.begun with ⟨_ | rc, s1⟩
  · simp [hb] at h
  · rw [hb] at h
    by_cases hge : 0 ≤ rc
    · simp only [if_pos hge, Option.some.injEq] at h
      refine ⟨rc, ?_, hge, by rw [h]⟩
      rw [Call.exec_eq, inTxn, bind_of_some (begun_run s), bind_of_some (attempt_run _ _), hb]
      simp only [if_neg (show ¬ rc < 0 by omega), h]
    · simp [hge] at h

theorem commitState_framed {env : Env} {c : Call} {s s' : St} (h : commitState env c s = some s') :
    Framed s.begun s' := by
  obtain ⟨rc, _, _, hb⟩ := exec_commits h
  have hf := (Call.body_ordered env c).framed s.begun
  rwa [hb] at hf

/-- After the call no transaction is in flight, later reads see the disk, and a
result of `-1` comes with the free counts from before the call. -/
def Settles (env : Env) (c : Call) (s : St) : Prop :=
  ((c.exec env).run s).2.txnActive = false ∧
  (∀ b, ((c.exec env).run s).2.view b = ((c.exec env).run s).2.disk b) ∧
  (((c.exec env).run s).1 = none →
    ((c.exec env).run s).2.fs.freeBlocks = s.fs.freeBlocks ∧
    ((c.exec env).run s).2.fs.freeInodes = s.fs.freeInodes)

theorem view_of_inactive {s : St} (h : s.txnActive = false) (b : ℕ) : s.view b = s.disk b := by
  simp [St.view, h]

/-- A failed journaled commit leaves the transaction in flight. -/
theorem not_settles_of_journal {env : Env} {c : Call} {s s' : St}
    (hc : commitState env c s = some s') (hw : CommitWriteFails s') (hj : UsesJournal s') :
    ¬ Settles env c s := by
  rintro ⟨hin, _, _⟩
  obtain ⟨rc, hrun, _, _⟩ := exec_commits hc
  rcases hcom : txnCommit.run s' with ⟨r, s''⟩
  obtain ⟨hok, _, _⟩ | ⟨_, h1, _, h3⟩ := txnCommit_cases (commitState_framed hc).active
  · exact hok hw
  · rw [hcom] at h1 h3
    dsimp only at h1 h3
    subst h1
    rw [hrun, bind_of_none hcom] at hin
    exact absurd ((h3.mpr hj).symm.trans hin) (by simp)

/-- Exactly when a call settles: no block write of its commit fails, or one does
but the commit bypasses the journal and the body left the free counts alone. -/
theorem settles_iff (env : Env) (c : Call) (s : St) :
    Settles env c s ↔ ∀ s', commitState env c s = some s' → CommitWriteFails s' →
      ¬ UsesJournal s' ∧ s'.fs.freeBlocks = s.fs.freeBlocks ∧
        s'.fs.freeInodes = s.fs.freeInodes := by
  cases hc : commitState env c s with
  | none =>
    have hrun := exec_aborts hc
    have hf := (Call.body_ordered env c).framed s.begun
    refine ⟨fun _ s' h => by simp at h, fun _ => ?_⟩
    unfold Settles
    rw [hrun]
    exact ⟨rfl, fun b => rfl, fun _ => ⟨hf.freeBlocks, hf.freeInodes⟩⟩
  | some s' =>
    obtain ⟨rc, hrun, _, _⟩ := exec_commits hc
    have hact : s'.txnActive = true := (commitState_framed hc).active
    unfold Settles
    rw [hrun, bind_run]
    rcases hcom : txnCommit.run s' with ⟨r, s''⟩
    obtain ⟨hok, h1, h2⟩ | ⟨hbad, h1, h2, h3⟩ := txnCommit_cases hact
    · rw [hcom] at h1 h2
      dsimp only at h1 h2
      subst h1
      constructor
      · rintro _ s1 h hbad
        simp only [Option.some.injEq] at h
        subst h
        exact absurd hbad hok
      · intro _
        exact ⟨h2, fun b => view_of_inactive h2 b, by simp [pure_run]⟩
    · rw [hcom] at h1 h2 h3
      dsimp only at h1 h2 h3
      subst h1
      constructor
      · rintro ⟨hin, _, hcount⟩ s1 h _
        simp only [Option.some.injEq] at h
        subst h
        have hcount' := hcount rfl
        dsimp only at hin hcount'
        rw [h2] at hcount'
        exact ⟨fun hu => absurd (h3.mpr hu) (by simp [hin]), hcount'⟩
      · intro h
        obtain ⟨hnot, hcount⟩ := h s' rfl hbad
        have hin : s''.txnActive = false := by
          cases hb : s''.txnActive with
          | false => rfl
          | true => exact absurd (h3.mp hb) hnot
        refine ⟨hin, fun b => view_of_inactive hin b, fun _ => ?_⟩
        dsimp only
        rw [h2]
        exact hcount

/-- A new volume on a device that refuses every write. -/
def deadDevice : St :=
  { disk := formattedDisk, rd := fun _ => true, wr := fun _ => .fail 0,
    fs := { formatGeom 64 34 with freeBlocks := 22, freeInodes := 62, csumOk := true },
    txnActive := false, txn := [], txnFreeBlocks := 0, txnFreeInodes := 0, jseq := 1, lost := false }

/-- `cfs_chmod` of the root on the dead device: the commit's first write fails, and the
call returns with its transaction in flight. -/
theorem deadDevice_not_settles : ¬ Settles ⟨0, 0, 0⟩ (.chmod [47] 0o700) deadDevice := by
  have hc : ∃ v s', commitState ⟨0, 0, 0⟩ (.chmod [47] 0o700) deadDevice = some s' ∧
      s'.txn = [(37, v)] ∧ s'.wr = fun _ => .fail 0 := ⟨_, _, rfl, rfl, rfl⟩
  obtain ⟨v, s', hc, htxn, hwr⟩ := hc
  have hgeom := (commitState_framed hc).geom
  have hj : s'.fs.journalStart = 1 ∧ s'.fs.journalBlocks = 34 := by
    constructor
    · exact congrArg Geom.journalStart hgeom
    · exact congrArg Geom.journalBlocks hgeom
  refine not_settles_of_journal hc ⟨0, ?_, by simp [hwr]⟩ ⟨by simp [htxn], by simp [hj], ?_⟩
  · simp [commitCost, htxn, hj]
  · simp [htxn, hj]

end ComputerOS.Cfs
