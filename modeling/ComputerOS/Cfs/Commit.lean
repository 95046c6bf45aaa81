import ComputerOS.Cfs.CrashAtomic
import ComputerOS.Cfs.Settle

/-!
What the core sees after a commit. On a working device every block outside the journal
reads as it did inside the transaction. Where a write fails, a journaled commit leaves the
transaction in flight, so that the core still sees its blocks; a commit without the
journal leaves each block old, new, or torn between the two at a sector boundary.
-/
namespace ComputerOS.Cfs

open M WriteLog Bytes

theorem mem_map_txnPut {t : List (ℕ × Block)} {b x : ℕ} {v : Block} :
    x ∈ (txnPut t b v).map Prod.fst ↔ x = b ∨ x ∈ t.map Prod.fst := by
  induction t with
  | nil => simp [txnPut]
  | cons e t ih =>
    obtain ⟨home, data⟩ := e
    by_cases hb : home = b
    · subst hb
      simp [txnPut]
    · rw [txnPut, if_neg hb, List.map_cons, List.map_cons, List.mem_cons, List.mem_cons, ih]
      tauto

theorem nodup_txnPut {t : List (ℕ × Block)} {b : ℕ} {v : Block} (h : (t.map Prod.fst).Nodup) :
    ((txnPut t b v).map Prod.fst).Nodup := by
  induction t with
  | nil => simp [txnPut]
  | cons e t ih =>
    obtain ⟨home, data⟩ := e
    rw [List.map_cons, List.nodup_cons] at h
    by_cases hb : home = b
    · subst hb
      simpa [txnPut] using h
    · rw [txnPut, if_neg hb, List.map_cons, List.nodup_cons, mem_map_txnPut]
      exact ⟨by simpa [hb] using h.1, ih h.2⟩

theorem txnFind_eq_none {t : List (ℕ × Block)} {b : ℕ} : txnFind t b = none ↔ b ∉ t.map Prod.fst := by
  induction t with
  | nil => simp [txnFind]
  | cons e t ih =>
    obtain ⟨home, data⟩ := e
    by_cases hb : home = b
    · simp [txnFind, hb]
    · simp only [txnFind, if_neg hb, ih, List.map_cons, List.mem_cons, not_or, Ne.symm hb,
        not_false_eq_true, true_and]

theorem apply_of_not_home {t : List (ℕ × Block)} {b : ℕ} (h : b ∉ t.map Prod.fst) (d : Disk) :
    WriteLog.apply t d b = d b := by
  refine apply_of_not_mem fun w hw hne => h ?_
  rw [← hne]
  exact List.mem_map_of_mem hw

theorem apply_txn {t : List (ℕ × Block)} (h : (t.map Prod.fst).Nodup) (d : Disk) (b : ℕ) :
    WriteLog.apply t d b = (txnFind t b).getD (d b) := by
  induction t generalizing d with
  | nil => rfl
  | cons e t ih =>
    obtain ⟨home, data⟩ := e
    rw [List.map_cons, List.nodup_cons] at h
    rw [WriteLog.apply, txnFind]
    by_cases hb : home = b
    · subst hb
      rw [apply_of_not_home h.1]
      simp
    · rw [if_neg hb, ih h.2, Function.update_of_ne (Ne.symm hb)]

theorem torn_all (old new : Block) : torn 8 old new = new := by
  apply ext_byte
  intro i hi
  rw [torn, byte_ofFn _ hi, if_pos (by omega)]

/-- A run of block writes on a device that may fail leaves every block old, new or torn. -/
theorem writeAll_run (ws : List (ℕ × Block)) (s : St) :
    ∃ d w, ((writeAll ws).run s).2 = { s with disk := d, wr := w } ∧
      (∀ b, b ∉ ws.map Prod.fst → d b = s.disk b) ∧
      (((writeAll ws).run s).1 = some () → d = WriteLog.apply ws s.disk) ∧
      ((ws.map Prod.fst).Nodup → ∀ b, ∃ k, d b = torn k (s.disk b) (WriteLog.apply ws s.disk b)) := by
  induction ws generalizing s with
  | nil => exact ⟨s.disk, s.wr, rfl, fun _ _ => rfl, fun _ => rfl, fun _ b => ⟨0, (torn_zero _ _).symm⟩⟩
  | cons e ws ih =>
    obtain ⟨b, v⟩ := e
    rw [writeAll]
    cases h0 : s.wr 0 with
    | ok =>
      have hstep : (rawWriteBlock b v).run s = (some (), { s with
          disk := Function.update s.disk b v, wr := fun i => s.wr (i + 1) }) := by
        simp only [rawWriteBlock_run, h0]
      obtain ⟨d, w, hrun, hout, hall, htorn⟩ := ih { s with
          disk := Function.update s.disk b v, wr := fun i => s.wr (i + 1) }
      rw [bind_of_some hstep]
      refine ⟨d, w, by rw [hrun], fun x hx => ?_, hall, fun hn x => ?_⟩
      · rw [List.map_cons, List.mem_cons, not_or] at hx
        rw [hout x hx.2]
        exact Function.update_of_ne hx.1 _ _
      · rw [List.map_cons, List.nodup_cons] at hn
        by_cases hx : x = b
        · subst hx
          refine ⟨8, ?_⟩
          rw [torn_all, hout x hn.1, WriteLog.apply, apply_of_not_home hn.1]
        · obtain ⟨k, hk⟩ := htorn hn.2 x
          refine ⟨k, ?_⟩
          dsimp only at hk
          rw [hk, Function.update_of_ne hx, WriteLog.apply]
    | fail k =>
      have hstep : (rawWriteBlock b v).run s = (none, { s with
          disk := Function.update s.disk b (torn k (s.disk b) v), wr := fun i => s.wr (i + 1) }) := by
        simp only [rawWriteBlock_run, h0]
      rw [bind_of_none hstep]
      refine ⟨_, _, rfl, fun x hx => ?_, by simp, fun hn x => ?_⟩
      · rw [List.map_cons, List.mem_cons, not_or] at hx
        exact Function.update_of_ne hx.1 _ _
      · rw [List.map_cons, List.nodup_cons] at hn
        by_cases hx : x = b
        · subst hx
          refine ⟨k, ?_⟩
          rw [Function.update_self, WriteLog.apply, apply_of_not_home hn.1, Function.update_self]
        · exact ⟨0, by rw [torn_zero, Function.update_of_ne hx]⟩

variable {s : St} {b : ℕ}

theorem commitLog_split (hj : s.txn.length + 2 ≤ s.fs.journalBlocks) :
    ∃ front back, commitLog s = front ++ s.txn ++ back ∧
      ∀ w ∈ front ++ back, s.fs.toGeom.InJournal w.1 := by
  refine ⟨(s.fs.journalStart + 1, descriptor s.txn) :: journalCopies (s.fs.journalStart + 2)
    s.txn ++ [(s.fs.journalStart, JHdr.make CFS_JCOMMITTED s.jseq s.txn.length
      (journalCsum (descriptor s.txn) (s.txn.map Prod.snd)).toNat)],
    [(s.fs.journalStart, JHdr.make CFS_JNONE s.jseq 0 0)], by simp [commitLog], fun w hw => ?_⟩
  simp only [List.mem_append, List.mem_cons, List.not_mem_nil, or_false] at hw
  rcases hw with ((rfl | hw) | rfl) | rfl
  · exact ⟨Nat.le_add_right _ _, by omega⟩
  · have := mem_journalCopies hw
    exact ⟨by omega, by omega⟩
  · exact ⟨le_rfl, by omega⟩
  · exact ⟨le_rfl, by omega⟩

theorem not_mem_commitLog (hj : s.txn.length + 2 ≤ s.fs.journalBlocks) (hb : ¬ s.fs.toGeom.InJournal b)
    (ht : b ∉ s.txn.map Prod.fst) : b ∉ (commitLog s).map Prod.fst := by
  obtain ⟨front, back, heq, hin⟩ := commitLog_split hj
  rw [heq]
  intro hmem
  obtain ⟨w, hw, rfl⟩ := List.mem_map.mp hmem
  rcases List.mem_append.mp hw with hw | hw
  · rcases List.mem_append.mp hw with hw | hw
    · exact hb (hin w (List.mem_append_left _ hw))
    · exact ht (List.mem_map_of_mem hw)
  · exact hb (hin w (List.mem_append_right _ hw))

theorem apply_commitLog (hj : s.txn.length + 2 ≤ s.fs.journalBlocks) (hb : ¬ s.fs.toGeom.InJournal b)
    (d : Disk) : WriteLog.apply (commitLog s) d b = WriteLog.apply s.txn d b := by
  obtain ⟨front, back, heq, hin⟩ := commitLog_split hj
  rw [heq, apply_append, apply_append, apply_of_not_mem fun w hw hne => ?_]
  · refine apply_congr fun _ => apply_of_not_mem fun w hw hne => ?_
    exact hb (hne ▸ hin w (List.mem_append_left _ hw))
  · exact hb (hne ▸ hin w (List.mem_append_right _ hw))

theorem view_of_active (ha : s.txnActive = true) (hn : (s.txn.map Prod.fst).Nodup) :
    s.view b = WriteLog.apply s.txn s.disk b := by
  rw [apply_txn hn, St.view, if_pos ha]

/-- After a commit the core sees what it saw, up to blocks of a failed unjournaled commit. -/
theorem txnCommit_view (ha : s.txnActive = true) (hn : (s.txn.map Prod.fst).Nodup)
    (hb : ¬ s.fs.toGeom.InJournal b) :
    (∃ k, (txnCommit.run s).2.view b = torn k (s.disk b) (s.view b)) ∧
    ((txnCommit.run s).1 = some () → (txnCommit.run s).2.view b = s.view b) := by
  have hunfold : txnCommit.run s = _ := bind_of_some (get_run s)
  rw [if_neg (by simp [ha])] at hunfold
  have hview := view_of_active (b := b) ha hn
  by_cases hnil : s.txn = []
  · rw [if_pos hnil] at hunfold
    have hsame : (txnCommit.run s).2.view b = s.view b := by
      rw [hunfold, hview, hnil]
      rfl
    exact ⟨⟨8, by rw [hsame, torn_all]⟩, fun _ => hsame⟩
  · rw [if_neg hnil] at hunfold
    by_cases hj : s.fs.journalStart = 0 ∨ s.fs.journalBlocks < s.txn.length + 2
    · -- without the journal: the home blocks are written one after another
      rw [if_pos hj] at hunfold
      obtain ⟨d, w, hrun, -, hall, htorn⟩ := writeAll_run s.txn s
      rcases hwr : (writeAll s.txn).run s with ⟨r, s'⟩
      rw [hwr] at hrun hall
      dsimp only at hrun hall
      have hdisk : (txnCommit.run s).2.view b = d b := by
        rw [hunfold, commitThrough, bind_of_some (attempt_run _ s), hwr, hrun]
        cases r <;> rfl
      have hone : (txnCommit.run s).1 = some () → r = some () := by
        rw [hunfold, commitThrough, bind_of_some (attempt_run _ s), hwr]
        cases r with
        | none => intro h; cases h
        | some u => intro _; rfl
      rw [hdisk, hview]
      exact ⟨htorn hn b, fun h => by rw [hall (hone h)]⟩
    · have hroom : s.txn.length + 2 ≤ s.fs.journalBlocks := by omega
      obtain ⟨d, w, hrun, hout, hall, -⟩ := writeAll_run (commitLog s) s
      rcases hwr : (writeAll (commitLog s)).run s with ⟨r, s'⟩
      rw [hwr] at hrun hall
      dsimp only at hrun hall
      have hsame : (txnCommit.run s).2.view b = s.view b := by
        rw [txnCommit_journaled ⟨ha, hnil, by omega, hroom⟩]
        cases r with
        | none =>
          -- the transaction is in flight, and its blocks cover what the writes left
          rw [bind_of_none hwr, hrun, St.view, St.view, if_pos ha, if_pos ha]
          cases hf : txnFind s.txn b with
          | some v => rfl
          | none => exact hout b (not_mem_commitLog hroom hb (txnFind_eq_none.mp hf))
        | some u =>
          rw [bind_of_some hwr, modify_run, hrun, hview, ← apply_commitLog hroom hb, ← hall rfl]
          rfl
      exact ⟨⟨8, by rw [hsame, torn_all]⟩, fun _ => hsame⟩

/-- What a commit keeps: the mount structure, the answers to reads, a device that works. -/
structure SameMount (s s' : St) : Prop where
  fs : s'.fs = s.fs
  reads : s'.rd = s.rd
  writes : s.WritesOk → s'.WritesOk

theorem rawWriteBlock_sameMount (b : ℕ) (v : Block) : Keeps SameMount (rawWriteBlock b v) := by
  intro s
  rw [rawWriteBlock_run]
  have hnext : s.WritesOk → (fun i => s.wr (i + 1)) = fun _ => Outcome.ok := fun hw => by rw [hw]
  cases s.wr 0 with
  | ok => exact ⟨rfl, rfl, hnext⟩
  | fail k => exact ⟨rfl, rfl, hnext⟩

theorem SameMount.refl (s : St) : SameMount s s := ⟨rfl, rfl, id⟩

theorem SameMount.trans (a b c : St) (h₁ : SameMount a b) (h₂ : SameMount b c) : SameMount a c :=
  ⟨h₂.fs.trans h₁.fs, h₂.reads.trans h₁.reads, h₂.writes ∘ h₁.writes⟩

theorem writeAll_sameMount (ws : List (ℕ × Block)) : Keeps SameMount (writeAll ws) := by
  induction ws with
  | nil => exact .pure SameMount.refl _
  | cons e ws ih => exact .bind SameMount.trans (rawWriteBlock_sameMount e.1 e.2) fun _ => ih

theorem txnCommit_sameMount : Keeps SameMount txnCommit := by
  have hr := SameMount.refl
  have ht := SameMount.trans
  have hput := rawWriteBlock_sameMount
  have hclose : ∀ f : St → St, (∀ s, SameMount s (f s)) → Keeps SameMount (modify f) := fun f hf s => hf s
  refine .bind ht (.get hr) fun s => ?_
  split
  · exact .pure hr _
  · split
    · exact hclose _ fun _ => ⟨rfl, rfl, id⟩
    · split
      · refine .bind ht (.attempt (writeAll_sameMount _)) fun r => ?_
        cases r with
        | none => exact .bind ht (hclose _ fun _ => ⟨rfl, rfl, id⟩) fun _ => .fail hr
        | some u => exact hclose _ fun _ => ⟨rfl, rfl, id⟩
      · refine .bind ht (hput _ _) fun _ => .bind ht (writeAll_sameMount _) fun _ => ?_
        refine .bind ht (hput _ _) fun _ => .bind ht (writeAll_sameMount _) fun _ => ?_
        exact .bind ht (hput _ _) fun _ => hclose _ fun _ => ⟨rfl, rfl, id⟩

/-- The buffer holds every block at most once. -/
theorem Ordered.nodup {α : Type} {x : M α} (h : Ordered x) :
    Keeps (fun s s' => (s.txn.map Prod.fst).Nodup → (s'.txn.map Prod.fst).Nodup) x := by
  have hput : ∀ (b : ℕ) (v : Block) (s : St), ((rawWriteBlock b v).run s).2.txn = s.txn := by
    intro b v s
    rw [rawWriteBlock_run]
    cases s.wr 0 <;> rfl
  refine h.keeps ?_ ?_ ?_ ?_ ?_ ?_ ?_
  · exact fun s => id
  · exact fun a b c h1 h2 => h2 ∘ h1
  · exact fun b s => id
  · intro b s hn
    rw [bdReadBlock_eq]
    split
    · exact hn
    · exact hn
  · intro b v s hn
    rw [bdWriteBlock_eq]
    split
    · split
      · exact hn
      · exact nodup_txnPut hn
    · rwa [hput]
  · exact fun c s => id
  · intro b v s hn
    rwa [hput]

end ComputerOS.Cfs
