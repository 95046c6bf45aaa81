import ComputerOS.Cfs.Device
import ComputerOS.Lib.WriteLog

/-!
The write-ahead log on a device that stops. A commit issues one fixed sequence of
block writes: descriptor, copies, commit record, home blocks, release record. A
replay issues the home blocks and a release record again. On a device that stops
after `p` sectors the disk is the crash of that sequence.
-/
namespace ComputerOS.Cfs

open M WriteLog Bytes

/-- A device that accepts the next `p` sector writes and fails from then on. -/
def stopsAfter (p : ℕ) : ℕ → Outcome := fun i =>
  if 8 * (i + 1) ≤ p then .ok else .fail (p - 8 * i)

theorem stopsAfter_succ (p : ℕ) : (fun i => stopsAfter p (i + 1)) = stopsAfter (p - 8) := by
  funext i
  by_cases h : 8 * (i + 1 + 1) ≤ p
  · simp [stopsAfter, h, show 8 * (i + 1) ≤ p - 8 by omega]
  · simp [stopsAfter, h, show ¬ 8 * (i + 1) ≤ p - 8 by omega,
      show p - 8 * (i + 1) = p - 8 - 8 * i by omega]

theorem torn_zero (old new : Block) : torn 0 old new = old := by
  apply ext_byte
  intro i hi
  simp [torn, byte_ofFn _ hi]

theorem getLE_torn {k off w : ℕ} (old new : Block) (hk : off + w ≤ 512 * k) (hw : off + w ≤ 4096) :
    (torn k old new).getLE off w = new.getLE off w := by
  apply getLE_congr
  intro i hi
  rw [torn, byte_ofFn _ (by omega), if_pos (by omega)]

abbrev crashBlocks (p : ℕ) (ws : List (ℕ × Block)) (d : Disk) : Disk := crash torn 8 p ws d

theorem rawWriteBlock_ok {s : St} (b : ℕ) (v : Block) (h : s.WritesOk) :
    (rawWriteBlock b v).run s = (some (), { s with disk := Function.update s.disk b v }) := by
  have hw : s.wr = fun _ => .ok := h
  simp only [rawWriteBlock_run, hw]

theorem rawWriteBlock_stops {s : St} {p : ℕ} (b : ℕ) (v : Block) (h : s.wr = stopsAfter p) :
    (rawWriteBlock b v).run s = (if 8 ≤ p then some () else none,
      { s with disk := crashBlocks p [(b, v)] s.disk, wr := stopsAfter (p - 8) }) := by
  have h0 : s.wr 0 = if 8 ≤ p then .ok else .fail p := by simp [h, stopsAfter]
  have htail : (fun i => s.wr (i + 1)) = stopsAfter (p - 8) := by
    rw [h]
    exact stopsAfter_succ p
  rw [rawWriteBlock_run]
  by_cases hp : 8 ≤ p
  · simp [h0, hp, htail, crashBlocks, crash]
  · simp [h0, hp, htail, crashBlocks, crash]

theorem writeAll_append (ws vs : List (ℕ × Block)) :
    writeAll (ws ++ vs) = (do writeAll ws; writeAll vs) := by
  induction ws with
  | nil => simp [writeAll]
  | cons w ws ih =>
    obtain ⟨b, v⟩ := w
    simp [writeAll, ih]

theorem writeAll_stops {s : St} {p : ℕ} (ws : List (ℕ × Block)) (h : s.wr = stopsAfter p) :
    (writeAll ws).run s = (if 8 * ws.length ≤ p then some () else none,
      { s with disk := crashBlocks p ws s.disk, wr := stopsAfter (p - 8 * ws.length) }) := by
  induction ws generalizing s p with
  | nil =>
    simp [writeAll, pure_run, crashBlocks, crash, ← h]
  | cons w ws ih =>
    obtain ⟨b, v⟩ := w
    have hw := rawWriteBlock_stops b v h
    by_cases hp : 8 ≤ p
    · rw [if_pos hp] at hw
      rw [writeAll, bind_of_some hw, ih rfl]
      have hsub : p - 8 - 8 * ws.length = p - 8 * (ws.length + 1) := by omega
      have hle : 8 * ws.length ≤ p - 8 ↔ 8 * (ws.length + 1) ≤ p := by omega
      simp only [crashBlocks, crash, hp, if_true, List.length_cons, hsub, hle]
    · rw [if_neg hp] at hw
      rw [writeAll, bind_of_none hw]
      have hlen : ¬ 8 * (ws.length + 1) ≤ p := by omega
      have hsub : p - 8 = p - 8 * (ws.length + 1) := by omega
      simp only [crashBlocks, crash, hp, if_false, List.length_cons, hlen, hsub]

/-- The writes of a journaled commit, in order. -/
def commitLog (s : St) : List (ℕ × Block) :=
  let j := s.fs.journalStart
  let desc := descriptor s.txn
  (j + 1, desc) :: journalCopies (j + 2) s.txn ++
    (j, JHdr.make CFS_JCOMMITTED s.jseq s.txn.length
      (journalCsum desc (s.txn.map Prod.snd)).toNat) :: s.txn ++
    [(j, JHdr.make CFS_JNONE s.jseq 0 0)]

/-- The transaction goes through the journal. -/
structure Journaled (s : St) : Prop where
  active : s.txnActive = true
  nonempty : s.txn ≠ []
  journal : s.fs.journalStart ≠ 0
  room : s.txn.length + 2 ≤ s.fs.journalBlocks

theorem txnCommit_journaled {s : St} (h : Journaled s) :
    txnCommit.run s = (do
      writeAll (commitLog s)
      modify fun s =>
        { s with jseq := (s.jseq + 1) % 2 ^ 64, txnActive := false, txn := [] }).run s := by
  have hbig : ¬ (s.fs.journalStart = 0 ∨ s.fs.journalBlocks < s.txn.length + 2) := by
    have := h.journal
    have := h.room
    omega
  have hact : ¬ s.txnActive = false := by simp [h.active]
  rw [txnCommit, bind_of_some (get_run s), if_neg hact, if_neg h.nonempty, if_neg hbig]
  simp [commitJournaled, commitLog, writeAll, writeAll_append]

theorem txnCommit_stops {s : St} {p : ℕ} (h : Journaled s) (hw : s.wr = stopsAfter p) :
    (txnCommit.run s).2.disk = crashBlocks p (commitLog s) s.disk := by
  rw [txnCommit_journaled h]
  have hrun := writeAll_stops (commitLog s) hw
  by_cases hp : 8 * (commitLog s).length ≤ p
  · rw [if_pos hp] at hrun
    rw [bind_of_some hrun, modify_run]
  · rw [if_neg hp] at hrun
    rw [bind_of_none hrun]

/-- The disk after block writes whose failures are ignored. -/
def attemptLog (wr : ℕ → Outcome) : List (ℕ × Block) → Disk → Disk
  | [], d => d
  | (b, v) :: ws, d =>
      attemptLog (fun i => wr (i + 1)) ws (match wr 0 with
        | .ok => Function.update d b v
        | .fail k => Function.update d b (torn k (d b) v))

theorem attemptLog_ok (ws : List (ℕ × Block)) (d : Disk) :
    attemptLog (fun _ => .ok) ws d = WriteLog.apply ws d := by
  induction ws generalizing d with
  | nil => rfl
  | cons w ws ih => exact ih _

theorem attemptLog_dead (ws : List (ℕ × Block)) (d : Disk) :
    attemptLog (stopsAfter 0) ws d = d := by
  induction ws generalizing d with
  | nil => rfl
  | cons w ws ih =>
    obtain ⟨b, v⟩ := w
    simp only [attemptLog, stopsAfter_succ]
    rw [ih]
    simp [stopsAfter, torn_zero]

theorem attemptLog_stops (p : ℕ) (ws : List (ℕ × Block)) (d : Disk) :
    attemptLog (stopsAfter p) ws d = crashBlocks p ws d := by
  induction ws generalizing p d with
  | nil => rfl
  | cons w ws ih =>
    obtain ⟨b, v⟩ := w
    simp only [attemptLog, stopsAfter_succ]
    by_cases hp : 8 ≤ p
    · rw [ih]
      simp [stopsAfter, hp, crashBlocks, crash]
    · rw [show p - 8 = 0 by omega, attemptLog_dead]
      simp [stopsAfter, hp, crashBlocks, crash]

theorem attempt_rawWriteBlock (b : ℕ) (v : Block) (s : St) :
    ((attempt (rawWriteBlock b v)).run s).1.isSome ∧
    ((attempt (rawWriteBlock b v)).run s).2 = { s with
      disk := attemptLog s.wr [(b, v)] s.disk, wr := fun i => s.wr (i + 1) } := by
  refine ⟨rfl, ?_⟩
  rw [attempt_run, rawWriteBlock_run]
  cases h : s.wr 0 <;> simp [attemptLog, h]

theorem rawReadBlock_ok {s : St} (b : ℕ) (h : s.ReadsOk) :
    (rawReadBlock b).run s = (some (s.disk b), s) := by
  have hr : s.rd = fun _ => true := h
  simp only [rawReadBlock_run, hr, if_true]
  rw [← hr]

/-- The blocks a replay of `n` descriptor entries from entry `i` on writes. -/
def redoLog (j : ℕ) (desc : Block) (d : Disk) : ℕ → ℕ → List (ℕ × Block)
  | _, 0 => []
  | i, n + 1 => (desc.getLE (8 * i) 8, d (j + 2 + i)) :: redoLog j desc d (i + 1) n

theorem redoLog_congr {j : ℕ} {desc : Block} {d e : Disk} {i n : ℕ}
    (h : ∀ k, i ≤ k → k < i + n → d (j + 2 + k) = e (j + 2 + k)) :
    redoLog j desc d i n = redoLog j desc e i n := by
  induction n generalizing i with
  | zero => rfl
  | succ n ih =>
    rw [redoLog, redoLog, h i (by omega) (by omega), ih (fun k hk hk' => h k (by omega) (by omega))]

/-- The redo loop writes its log when no home block is one of the copies it
has still to read. -/
theorem redo_run {s : St} {j i n : ℕ} {desc : Block} (hr : s.ReadsOk)
    (hout : ∀ k, i ≤ k → k < i + n → ∀ m, m < i + n → desc.getLE (8 * k) 8 ≠ j + 2 + m) :
    (redo j desc i n).run s = (some (), { s with
      disk := attemptLog s.wr (redoLog j desc s.disk i n) s.disk,
      wr := fun k => s.wr (k + n) }) := by
  induction n generalizing s i with
  | zero => rfl
  | succ n ih =>
    obtain ⟨hsome, hstep⟩ := attempt_rawWriteBlock (desc.getLE (8 * i) 8) (s.disk (j + 2 + i)) s
    obtain ⟨r, hr'⟩ := Option.isSome_iff_exists.mp hsome
    have hpair : (attempt (rawWriteBlock (desc.getLE (8 * i) 8) (s.disk (j + 2 + i)))).run s =
        (some r, _) := Prod.ext hr' hstep
    rw [redo, bind_of_some (rawReadBlock_ok _ hr), bind_of_some hpair]
    rw [ih (by exact hr) (fun k hk hk' m hm => hout k (by omega) (by omega) m (by omega))]
    have hlog : redoLog j desc (attemptLog s.wr [(desc.getLE (8 * i) 8, s.disk (j + 2 + i))] s.disk)
        (i + 1) n = redoLog j desc s.disk (i + 1) n := by
      apply redoLog_congr
      intro k hk hk'
      have hne := hout i (by omega) (by omega) k (by omega)
      simp only [attemptLog]
      cases s.wr 0 <;> simp [Function.update_of_ne (Ne.symm hne)]
    simp only [hlog]
    congr 2

end ComputerOS.Cfs
