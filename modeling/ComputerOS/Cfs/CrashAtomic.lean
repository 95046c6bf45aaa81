import ComputerOS.Cfs.Journal

/-!
Crash atomicity of the journal. A crashed disk is in one of three states: the
transaction never happened, it is logged and its home blocks are in any state, or
it is complete and released. A commit that stops anywhere leaves one of the three,
a replay that stops anywhere keeps the first and the third and takes the second to
the second or the third, and a replay that completes leaves the first or the third.
-/
namespace ComputerOS.Cfs

open M WriteLog Bytes

def Geom.InJournal (g : Geom) (b : ℕ) : Prop :=
  g.journalStart ≤ b ∧ b < g.journalStart + g.journalBlocks

def St.boot (g : Geom) (d : Disk) (wr : ℕ → Outcome) : St :=
  { disk := d, rd := fun _ => true, wr := wr,
    fs := { g with freeBlocks := 0, freeInodes := 0, csumOk := true },
    txnActive := false, txn := [], txnFreeBlocks := 0, txnFreeInodes := 0, jseq := 1, lost := false }

/-- The disk that one run of `journal_recover` leaves. -/
def recoverOn (g : Geom) (wr : ℕ → Outcome) (d : Disk) : Disk :=
  (journalRecover.run (St.boot g d wr)).2.disk

/-- Runs of `journal_recover` cut off after the given numbers of sector writes. -/
def recoverCrashes (g : Geom) : List ℕ → Disk → Disk
  | [], d => d
  | p :: ps, d => recoverCrashes g ps (recoverOn g (stopsAfter p) d)

/-- The blocks a transaction may change: addressable, outside the journal, and
few enough for the descriptor and the buffer. -/
structure Loggable (g : Geom) (t : List (ℕ × Block)) : Prop where
  homes : ∀ w ∈ t, w.1 < 2 ^ 64
  outside : ∀ w ∈ t, ¬ g.InJournal w.1
  journal : g.journalStart ≠ 0
  nonempty : 1 ≤ t.length
  bounded : t.length ≤ CFS_MAX_TXN
  room : t.length + 2 ≤ g.journalBlocks

/-- The journal holds transaction `t`, committed. -/
structure Logged (g : Geom) (t : List (ℕ × Block)) (d : Disk) : Prop where
  committed : JHdr.Committed (d g.journalStart)
  count : JHdr.nblocks (d g.journalStart) = t.length
  csum : JHdr.csum (d g.journalStart) =
    (journalCsum (descriptor t) (t.map Prod.snd)).toNat
  desc : d (g.journalStart + 1) = descriptor t
  data : ∀ i (h : i < t.length), d (g.journalStart + 2 + i) = (t[i]).2

theorem putHomes_getLE_before {desc : Block} {homes : List ℕ} {i k : ℕ} (hk : k < i) :
    (putHomes homes i desc).getLE (8 * k) 8 = desc.getLE (8 * k) 8 := by
  induction homes generalizing desc i with
  | nil => rfl
  | cons home rest ih =>
    rw [putHomes, ih (by omega), getLE_setLE_ne _ (by omega)]

theorem putHomes_getLE {desc : Block} {homes : List ℕ} {i k : ℕ} (hk : k < homes.length)
    (hfit : 8 * (i + homes.length) ≤ 4096) (hlt : ∀ h ∈ homes, h < 2 ^ 64) :
    (putHomes homes i desc).getLE (8 * (i + k)) 8 = homes[k] := by
  induction homes generalizing desc i k with
  | nil => simp at hk
  | cons home rest ih =>
    rw [List.length_cons] at hk hfit
    cases k with
    | zero =>
      rw [putHomes, putHomes_getLE_before (by omega)]
      rw [Nat.add_zero, getLE_setLE_same _ _ (by omega), List.getElem_cons_zero]
      exact Nat.mod_eq_of_lt (by simpa using hlt home (List.mem_cons_self ..))
    | succ k =>
      have hrec := @ih (desc.setLE (8 * i) 8 home) (i + 1) k (by omega) (by omega)
        (fun h hh => hlt h (List.mem_cons_of_mem _ hh))
      rw [putHomes, List.getElem_cons_succ, ← hrec,
        show 8 * (i + (k + 1)) = 8 * (i + 1 + k) by omega]

theorem descriptor_getLE {g : Geom} {t : List (ℕ × Block)} (ht : Loggable g t) {i : ℕ}
    (hi : i < t.length) : (descriptor t).getLE (8 * i) 8 = (t[i]).1 := by
  have hb := ht.bounded
  have hget := @putHomes_getLE Bytes.zero (t.map Prod.fst) 0 i (by simpa using hi)
    (by simp only [List.length_map, CFS_MAX_TXN] at hb ⊢; omega)
    (by
      intro h hh
      obtain ⟨w, hw, rfl⟩ := List.mem_map.mp hh
      exact ht.homes w hw)
  simpa [descriptor] using hget

theorem readRun_ok {s : St} (b n : ℕ) (h : s.ReadsOk) :
    (readRun b n).run s = (some ((List.range' b n).map s.disk), s) := by
  induction n generalizing b with
  | zero => rfl
  | succ n ih =>
    rw [readRun, bind_of_some (rawReadBlock_ok b h), bind_of_some (ih (b + 1)), pure_run]
    rfl

theorem Logged.readBack {g : Geom} {t : List (ℕ × Block)} {d : Disk} (h : Logged g t d) :
    (List.range' (g.journalStart + 2) t.length).map d = t.map Prod.snd := by
  apply List.ext_getElem
  · simp
  · intro i h1 h2
    have hi : i < t.length := by simpa using h2
    simp [h.data i hi]

theorem redoLog_eq {g : Geom} {t : List (ℕ × Block)} {d : Disk} (ht : Loggable g t)
    (h : Logged g t d) :
    redoLog g.journalStart (descriptor t) d 0 t.length = t := by
  have aux : ∀ n i, i + n = t.length →
      redoLog g.journalStart (descriptor t) d i n = t.drop i := by
    intro n
    induction n with
    | zero =>
      intro i hi
      rw [redoLog, List.drop_of_length_le (by omega)]
    | succ n ih =>
      intro i hi
      have hlt : i < t.length := by omega
      rw [redoLog, ih (i + 1) (by omega), descriptor_getLE ht hlt, h.data i hlt,
        List.drop_eq_getElem_cons hlt]
  simpa using aux t.length 0 (by omega)

def replayLog (g : Geom) (t : List (ℕ × Block)) : List (ℕ × Block) :=
  t ++ [(g.journalStart, JHdr.make CFS_JNONE 0 0 0)]

theorem attemptLog_append (wr : ℕ → Outcome) (ws vs : List (ℕ × Block)) (d : Disk) :
    attemptLog wr (ws ++ vs) d =
      attemptLog (fun i => wr (i + ws.length)) vs (attemptLog wr ws d) := by
  induction ws generalizing wr d with
  | nil => rfl
  | cons w ws ih =>
    obtain ⟨b, v⟩ := w
    simp only [List.cons_append, attemptLog, ih, List.length_cons]
    congr 1

/-- A journal that announces nothing is left alone. -/
theorem recoverBody_not_committed {s : St} {j n : ℕ} (hr : s.ReadsOk)
    (h : ¬ JHdr.Committed (s.disk j)) : ((recoverBody j n).run s).2 = s := by
  by_cases hj : j = 0
  · rw [recoverBody, bind_of_none (ensure_neg (not_not_intro hj) _)]
  · rw [recoverBody, bind_of_some (ensure_pos hj _), bind_of_some (rawReadBlock_ok _ hr),
      bind_of_none (ensure_neg h _)]

/-- A logged transaction is written home and its record released. -/
theorem recoverBody_logged {s : St} {g : Geom} {t : List (ℕ × Block)} (hr : s.ReadsOk)
    (ht : Loggable g t) (h : Logged g t s.disk) :
    ((recoverBody g.journalStart g.journalBlocks).run s).2.disk =
      attemptLog s.wr (replayLog g t) s.disk := by
  have hb := ht.bounded
  have hroom := ht.room
  have hne := ht.nonempty
  simp only [CFS_MAX_TXN] at hb
  have hn : t.length ≠ 0 ∧ (t.length + 2) % 2 ^ 32 ≤ g.journalBlocks := by omega
  have hout : ∀ k, 0 ≤ k → k < 0 + t.length → ∀ m, m < 0 + t.length →
      (descriptor t).getLE (8 * k) 8 ≠ g.journalStart + 2 + m := by
    intro k _ hk m hm heq
    rw [descriptor_getLE ht (by omega)] at heq
    apply ht.outside _ (List.getElem_mem (show k < t.length by omega))
    rw [heq]
    exact ⟨by omega, by omega⟩
  rw [recoverBody, bind_of_some (ensure_pos ht.journal _), bind_of_some (rawReadBlock_ok _ hr),
    bind_of_some (ensure_pos h.committed _), h.count, bind_of_some (ensure_pos hn _),
    bind_of_some (rawReadBlock_ok _ hr), bind_of_some (readRun_ok _ _ hr), h.desc, h.readBack,
    bind_of_some (ensure_pos h.csum.symm _), bind_of_some (redo_run hr hout),
    bind_of_some (modify_run _ _), redoLog_eq ht h]
  rw [bind_run]
  change ((attempt (rawWriteBlock g.journalStart (JHdr.make CFS_JNONE 0 0 0))).run _).2.disk = _
  rw [(attempt_rawWriteBlock _ _ _).2, replayLog, attemptLog_append]

theorem recoverOn_eq (g : Geom) (wr : ℕ → Outcome) (d : Disk) :
    recoverOn g wr d =
      ((recoverBody g.journalStart g.journalBlocks).run (St.boot g d wr)).2.disk := by
  rw [recoverOn, journalRecover, bind_of_some (getFs_run _), bind_of_some (attempt_run _ _), pure_run]
  rfl

theorem recoverOn_not_committed {g : Geom} {wr : ℕ → Outcome} {d : Disk}
    (h : ¬ JHdr.Committed (d g.journalStart)) : recoverOn g wr d = d := by
  have hr : (St.boot g d wr).ReadsOk := rfl
  rw [recoverOn_eq, recoverBody_not_committed hr h]
  rfl

theorem recoverOn_logged {g : Geom} {t : List (ℕ × Block)} {wr : ℕ → Outcome} {d : Disk}
    (ht : Loggable g t) (h : Logged g t d) :
    recoverOn g wr d = attemptLog wr (replayLog g t) d := by
  have hr : (St.boot g d wr).ReadsOk := rfl
  rw [recoverOn_eq]
  exact recoverBody_logged hr ht h

theorem make_magic (state seq n csum : ℕ) : JHdr.magic (JHdr.make state seq n csum) = CFS_JMAGIC := by
  simp only [JHdr.make, JHdr.magic]
  rw [getLE_setLE_ne _ (by omega), getLE_setLE_ne _ (by omega), getLE_setLE_ne _ (by omega),
    getLE_setLE_ne _ (by omega), getLE_setLE_same _ _ (by omega)]
  rfl

theorem make_state {state : ℕ} (seq n csum : ℕ) (h : state < 2 ^ 32) :
    JHdr.state (JHdr.make state seq n csum) = state := by
  simp only [JHdr.make, JHdr.state]
  rw [getLE_setLE_ne _ (by omega), getLE_setLE_ne _ (by omega), getLE_setLE_ne _ (by omega),
    getLE_setLE_same _ _ (by omega)]
  exact Nat.mod_eq_of_lt (by simpa using h)

theorem make_nblocks {n : ℕ} (state seq csum : ℕ) (h : n < 2 ^ 32) :
    JHdr.nblocks (JHdr.make state seq n csum) = n := by
  simp only [JHdr.make, JHdr.nblocks]
  rw [getLE_setLE_ne _ (by omega), getLE_setLE_same _ _ (by omega)]
  exact Nat.mod_eq_of_lt (by simpa using h)

theorem make_csum {csum : ℕ} (state seq n : ℕ) (h : csum < 2 ^ 32) :
    JHdr.csum (JHdr.make state seq n csum) = csum := by
  simp only [JHdr.make, JHdr.csum]
  rw [getLE_setLE_same _ _ (by omega)]
  exact Nat.mod_eq_of_lt (by simpa using h)

theorem make_none_not_committed (seq : ℕ) : ¬ JHdr.Committed (JHdr.make CFS_JNONE seq 0 0) := by
  rintro ⟨_, hstate⟩
  rw [make_state seq 0 0 (by decide)] at hstate
  exact absurd hstate (by decide)

theorem make_committed (seq n csum : ℕ) :
    JHdr.Committed (JHdr.make CFS_JCOMMITTED seq n csum) :=
  ⟨make_magic _ _ _ _, make_state seq n csum (by decide)⟩

/-- The first sector of a header block decides whether it is committed. -/
theorem torn_committed {k : ℕ} (old new : Block) (hk : 1 ≤ k) :
    JHdr.Committed (torn k old new) ↔ JHdr.Committed new := by
  unfold JHdr.Committed JHdr.magic JHdr.state
  rw [getLE_torn old new (by omega) (by omega), getLE_torn old new (by omega) (by omega)]

variable {g : Geom} {t : List (ℕ × Block)} {d₀ d : Disk}

inductive CrashState (g : Geom) (t : List (ℕ × Block)) (d₀ d : Disk) : Prop
  | before (header : ¬ JHdr.Committed (d g.journalStart))
      (home : ∀ b, ¬ g.InJournal b → d b = d₀ b)
  | logged (log : Logged g t d)
      (home : ∀ b, ¬ g.InJournal b → (∀ w ∈ t, w.1 ≠ b) → d b = d₀ b)
  | after (header : ¬ JHdr.Committed (d g.journalStart))
      (home : ∀ b, ¬ g.InJournal b → d b = WriteLog.apply t d₀ b)

theorem Loggable.inJournal_start (ht : Loggable g t) : g.InJournal g.journalStart := by
  have hroom := ht.room
  exact ⟨by omega, by omega⟩

theorem Loggable.ne_start (ht : Loggable g t) {b : ℕ} (hb : ¬ g.InJournal b) : b ≠ g.journalStart := by
  intro heq
  exact hb (heq ▸ ht.inJournal_start)

theorem Loggable.home_ne (ht : Loggable g t) {b : ℕ} (hb : g.InJournal b) : ∀ w ∈ t, w.1 ≠ b := by
  intro w hw heq
  exact ht.outside w hw (heq ▸ hb)

/-- The journal is still logged on a disk that has the same journal blocks. -/
theorem Logged.congr {e : Disk} (ht : Loggable g t) (h : Logged g t d)
    (heq : ∀ b, g.InJournal b → e b = d b) : Logged g t e := by
  have hroom := ht.room
  have h0 := heq g.journalStart ht.inJournal_start
  have h1 := heq (g.journalStart + 1) ⟨by omega, by omega⟩
  refine ⟨?_, ?_, ?_, ?_, ?_⟩
  · rw [h0]
    exact h.committed
  · rw [h0]
    exact h.count
  · rw [h0]
    exact h.csum
  · rw [h1]
    exact h.desc
  · intro i hi
    rw [heq _ ⟨by omega, by omega⟩]
    exact h.data i hi

/-- Cutting the home writes and the release record off anywhere leaves the
transaction logged or complete. -/
theorem crash_release {rel : Block} (ht : Loggable g t) (hrel : ¬ JHdr.Committed rel)
    (hlog : Logged g t d) (hhome : ∀ b, ¬ g.InJournal b → (∀ w ∈ t, w.1 ≠ b) → d b = d₀ b)
    (p : ℕ) : CrashState g t d₀ (crashBlocks p (t ++ [(g.journalStart, rel)]) d) := by
  have happly : ∀ b, ¬ g.InJournal b → WriteLog.apply t d b = WriteLog.apply t d₀ b :=
    fun b hb => apply_congr fun hw => hhome b hb hw
  rw [crashBlocks, crash_append]
  by_cases hp : 8 * t.length ≤ p
  · rw [if_pos hp, crash]
    have hafter : ∀ v : Block, ¬ JHdr.Committed v →
        CrashState g t d₀ (Function.update (WriteLog.apply t d) g.journalStart v) := by
      intro v hv
      refine .after (by simpa using hv) ?_
      intro b hb
      rw [Function.update_of_ne (ht.ne_start hb), happly b hb]
    split
    · exact hafter rel hrel
    · by_cases hk : 1 ≤ p - 8 * t.length
      · exact hafter _ (fun h => hrel ((torn_committed _ _ hk).mp h))
      · have hz : p - 8 * t.length = 0 := by omega
        rw [hz, torn_zero, Function.update_eq_self]
        refine .logged (hlog.congr ht ?_) ?_
        · intro b hb
          exact apply_of_not_mem (ht.home_ne hb)
        · intro b hb hw
          rw [apply_of_not_mem hw, hhome b hb hw]
  · rw [if_neg hp]
    refine .logged (hlog.congr ht ?_) ?_
    · intro b hb
      exact crash_of_not_mem (ht.home_ne hb)
    · intro b hb hw
      rw [crash_of_not_mem hw, hhome b hb hw]

/-- A replay that is cut off keeps the disk in one of the three states. -/
theorem CrashState.recover (ht : Loggable g t) (h : CrashState g t d₀ d) (p : ℕ) :
    CrashState g t d₀ (recoverOn g (stopsAfter p) d) := by
  cases h with
  | before header home =>
    rw [recoverOn_not_committed header]
    exact .before header home
  | logged log home =>
    rw [recoverOn_logged ht log, attemptLog_stops]
    exact crash_release ht (make_none_not_committed 0) log home p
  | after header home =>
    rw [recoverOn_not_committed header]
    exact .after header home

theorem CrashState.recoverCrashes (ht : Loggable g t) (ps : List ℕ) (h : CrashState g t d₀ d) :
    CrashState g t d₀ (recoverCrashes g ps d) := by
  induction ps generalizing d with
  | nil => exact h
  | cons p ps ih => exact ih (h.recover ht p)

/-- A replay that completes ends before or after the transaction. -/
theorem CrashState.complete (ht : Loggable g t) (h : CrashState g t d₀ d) :
    ((∀ b, ¬ g.InJournal b → recoverOn g (fun _ => .ok) d b = d₀ b) ∨
      (∀ b, ¬ g.InJournal b → recoverOn g (fun _ => .ok) d b = WriteLog.apply t d₀ b)) ∧
    ¬ JHdr.Committed (recoverOn g (fun _ => .ok) d g.journalStart) := by
  cases h with
  | before header home =>
    rw [recoverOn_not_committed header]
    exact ⟨Or.inl home, header⟩
  | logged log home =>
    rw [recoverOn_logged ht log, attemptLog_ok, replayLog, WriteLog.apply_append, WriteLog.apply,
      WriteLog.apply]
    refine ⟨Or.inr ?_, by simpa using make_none_not_committed 0⟩
    intro b hb
    rw [Function.update_of_ne (ht.ne_start hb)]
    exact apply_congr fun hw => home b hb hw
  | after header home =>
    rw [recoverOn_not_committed header]
    exact ⟨Or.inr home, header⟩

end ComputerOS.Cfs

-- A commit cut off after any number of sector writes, then any number of replays cut
-- off anywhere and one that completes: outside the journal the disk is the one before
-- the commit or the one with the whole transaction, and nothing is left to replay.
namespace ComputerOS.Cfs

open M WriteLog Bytes

variable {g : Geom} {t : List (ℕ × Block)} {d₀ d : Disk}

theorem mem_journalCopies {base : ℕ} {w : ℕ × Block} (hw : w ∈ journalCopies base t) :
    base ≤ w.1 ∧ w.1 < base + t.length := by
  induction t generalizing base with
  | nil => simp [journalCopies] at hw
  | cons e rest ih =>
    rw [journalCopies, List.mem_cons] at hw
    rw [List.length_cons]
    rcases hw with rfl | hw
    · exact ⟨le_refl _, by simp⟩
    · have := ih hw
      omega

theorem apply_journalCopies {base i : ℕ} (h : i < t.length) :
    WriteLog.apply (journalCopies base t) d (base + i) = (t[i]).2 := by
  induction t generalizing base i d with
  | nil => simp at h
  | cons e rest ih =>
    obtain ⟨b, v⟩ := e
    rw [journalCopies, WriteLog.apply]
    cases i with
    | zero =>
      rw [apply_of_not_mem]
      · simp
      · intro w hw
        have := mem_journalCopies hw
        omega
    | succ i =>
      have hi : i < rest.length := by simpa using h
      rw [show base + (i + 1) = base + 1 + i by omega, ih hi, List.getElem_cons_succ]

/-- The disk once descriptor, copies and commit record are written. -/
theorem logged_of_header {hdr : Block}
    (hcom : JHdr.Committed hdr) (hcount : JHdr.nblocks hdr = t.length)
    (hcsum : JHdr.csum hdr = (journalCsum (descriptor t) (t.map Prod.snd)).toNat) :
    Logged g t (Function.update
      (WriteLog.apply ((g.journalStart + 1, descriptor t) ::
        journalCopies (g.journalStart + 2) t) d) g.journalStart hdr) := by
  refine ⟨by simpa using hcom, by simpa using hcount, by simpa using hcsum, ?_, ?_⟩
  · rw [Function.update_of_ne (by omega), WriteLog.apply, apply_of_not_mem]
    · simp
    · intro w hw
      have := mem_journalCopies hw
      omega
  · intro i hi
    rw [Function.update_of_ne (by omega), WriteLog.apply, apply_journalCopies hi]

/-- Cutting a commit off anywhere leaves one of the three states. -/
theorem commitLog_crash {s : St} (ht : Loggable s.fs.toGeom s.txn)
    (hhdr : ¬ JHdr.Committed (s.disk s.fs.journalStart)) (p : ℕ) :
    CrashState s.fs.toGeom s.txn s.disk (crashBlocks p (commitLog s) s.disk) := by
  have hroom := ht.room
  have hbound := ht.bounded
  simp only [CFS_MAX_TXN] at hbound
  let front := (s.fs.journalStart + 1, descriptor s.txn) ::
    journalCopies (s.fs.journalStart + 2) s.txn
  let hdr := JHdr.make CFS_JCOMMITTED s.jseq s.txn.length
    (journalCsum (descriptor s.txn) (s.txn.map Prod.snd)).toNat
  let rel := JHdr.make CFS_JNONE s.jseq 0 0
  have hsplit : commitLog s = front ++ (s.fs.journalStart, hdr) ::
      (s.txn ++ [(s.fs.journalStart, rel)]) := by
    simp [commitLog, front, hdr, rel]
  have hfront : ∀ w ∈ front, s.fs.journalStart < w.1 ∧ s.fs.toGeom.InJournal w.1 := by
    intro w hw
    rcases List.mem_cons.mp hw with rfl | hw
    · exact ⟨by simp, by simp, by simp; omega⟩
    · have hin := mem_journalCopies hw
      exact ⟨by omega, by omega, by omega⟩
  have hfrontHome : ∀ b, ¬ s.fs.toGeom.InJournal b → ∀ w ∈ front, w.1 ≠ b := by
    intro b hb w hw heq
    exact hb (heq ▸ (hfront w hw).2)
  have hfrontStart : ∀ w ∈ front, w.1 ≠ s.fs.journalStart := by
    intro w hw heq
    have := (hfront w hw).1
    omega
  have hlogged : ∀ v : Block, JHdr.Committed v → JHdr.nblocks v = s.txn.length →
      JHdr.csum v = (journalCsum (descriptor s.txn) (s.txn.map Prod.snd)).toNat →
      Logged s.fs.toGeom s.txn
        (Function.update (WriteLog.apply front s.disk) s.fs.journalStart v) :=
    fun v h1 h2 h3 => logged_of_header h1 h2 h3
  have hhome : ∀ (v : Block) (b : ℕ), ¬ s.fs.toGeom.InJournal b →
      Function.update (WriteLog.apply front s.disk) s.fs.journalStart v b = s.disk b := by
    intro v b hb
    rw [Function.update_of_ne (ht.ne_start hb), apply_of_not_mem (hfrontHome b hb)]
  have hn : JHdr.nblocks hdr = s.txn.length := make_nblocks _ _ _ (by omega)
  have hc : JHdr.csum hdr = (journalCsum (descriptor s.txn) (s.txn.map Prod.snd)).toNat :=
    make_csum _ _ _ (UInt32.toNat_lt _)
  rw [hsplit, crashBlocks, crash_append]
  by_cases hp : 8 * front.length ≤ p
  · rw [if_pos hp, crash]
    split
    · exact crash_release ht (make_none_not_committed _)
        (hlogged hdr (make_committed _ _ _) hn hc) (fun b hb _ => hhome hdr b hb) _
    · by_cases hk : 1 ≤ p - 8 * front.length
      · -- the first sector of the commit record is on disk: it is committed
        refine .logged (hlogged _ ((torn_committed _ _ hk).mpr (make_committed _ _ _)) ?_ ?_)
          (fun b hb _ => hhome _ b hb)
        · rw [JHdr.nblocks, getLE_torn _ _ (by omega) (by omega)]
          exact hn
        · rw [JHdr.csum, getLE_torn _ _ (by omega) (by omega)]
          exact hc
      · have hz : p - 8 * front.length = 0 := by omega
        rw [hz, torn_zero, Function.update_eq_self]
        refine .before ?_ ?_
        · rw [apply_of_not_mem hfrontStart]
          exact hhdr
        · intro b hb
          exact apply_of_not_mem (hfrontHome b hb)
  · rw [if_neg hp]
    refine .before ?_ ?_
    · rw [crash_of_not_mem hfrontStart]
      exact hhdr
    · intro b hb
      exact crash_of_not_mem (hfrontHome b hb)

theorem Loggable.journaled {s : St} (ht : Loggable s.fs.toGeom s.txn) (ha : s.txnActive = true) :
    Journaled s := by
  refine ⟨ha, ?_, ht.journal, ht.room⟩
  intro hnil
  have hne := ht.nonempty
  rw [hnil] at hne
  simp at hne

/-- The disk after `txn_commit` was cut off after `p` sector writes and
`journal_recover` after the numbers in `ps`, and then ran to its end. -/
def crashAndRecover (s : St) (p : ℕ) (ps : List ℕ) : Disk :=
  recoverOn s.fs.toGeom (fun _ => .ok)
    (recoverCrashes s.fs.toGeom ps (txnCommit.run { s with wr := stopsAfter p }).2.disk)

/-- Crash atomicity of the journal: all or nothing outside the journal region. -/
theorem commit_crash_atomic (s : St) (p : ℕ) (ps : List ℕ) (hactive : s.txnActive = true)
    (ht : Loggable s.fs.toGeom s.txn) (hhdr : ¬ JHdr.Committed (s.disk s.fs.journalStart)) :
    ((∀ b, ¬ s.fs.toGeom.InJournal b → crashAndRecover s p ps b = s.disk b) ∨
      (∀ b, ¬ s.fs.toGeom.InJournal b →
        crashAndRecover s p ps b = WriteLog.apply s.txn s.disk b)) ∧
    ¬ JHdr.Committed (crashAndRecover s p ps s.fs.journalStart) := by
  have hj : Journaled { s with wr := stopsAfter p } :=
    Loggable.journaled (s := { s with wr := stopsAfter p }) ht hactive
  have hcommit := txnCommit_stops hj rfl
  have hstate : CrashState s.fs.toGeom s.txn s.disk
      (txnCommit.run { s with wr := stopsAfter p }).2.disk := by
    rw [hcommit]
    exact commitLog_crash (s := { s with wr := stopsAfter p }) ht hhdr p
  exact (hstate.recoverCrashes ht ps).complete ht

/-- A transaction of one block on an empty disk with a journal of 34 blocks. -/
def oneBlockTxn : St :=
  { disk := fun _ => Bytes.zero, rd := fun _ => true, wr := fun _ => .ok,
    fs := { inodeSize := 256, totalBlocks := 64, totalInodes := 64, blockBitmapStart := 35,
            inodeBitmapStart := 36, inodeTableStart := 37, dataStart := 41, rootIno := 1,
            journalStart := 1, journalBlocks := 34, flags := 1, freeBlocks := 22,
            freeInodes := 62, csumOk := true },
    txnActive := true, txn := [(37, Bytes.zero.setLE 0 2 1)], txnFreeBlocks := 22,
    txnFreeInodes := 62, jseq := 1, lost := false }

theorem oneBlockTxn_loggable : Loggable oneBlockTxn.fs.toGeom oneBlockTxn.txn := by
  refine ⟨?_, ?_, by decide, by decide, by decide, by decide⟩
  · intro w hw
    rw [oneBlockTxn, List.mem_singleton] at hw
    subst hw
    exact (by decide : 37 < 2 ^ 64)
  · intro w hw
    rw [oneBlockTxn, List.mem_singleton] at hw
    subst hw
    simp [Geom.InJournal, oneBlockTxn]

theorem oneBlockTxn_crash_atomic :
    ((∀ b, ¬ oneBlockTxn.fs.toGeom.InJournal b →
        crashAndRecover oneBlockTxn 29 [3, 8] b = oneBlockTxn.disk b) ∨
      (∀ b, ¬ oneBlockTxn.fs.toGeom.InJournal b →
        crashAndRecover oneBlockTxn 29 [3, 8] b =
          WriteLog.apply oneBlockTxn.txn oneBlockTxn.disk b)) ∧
    ¬ JHdr.Committed (crashAndRecover oneBlockTxn 29 [3, 8] 1) :=
  commit_crash_atomic oneBlockTxn 29 [3, 8] rfl oneBlockTxn_loggable
    (by rintro ⟨hmagic, _⟩; simp [oneBlockTxn, CFS_JMAGIC] at hmagic)

end ComputerOS.Cfs
