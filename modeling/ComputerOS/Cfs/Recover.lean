import ComputerOS.Cfs.CrashAtomic

/-!
What `journal_recover` touches. The functions of the replay are given once more with a record of the
blocks they read, the slots of the descriptor they use and the home blocks they write. The record
stays inside the journal and the descriptor exactly when the one check on the number of blocks has
kept that number small.
-/
namespace ComputerOS.Cfs

open M Bytes

/-- One access of the replay: a block that is read, a slot of the descriptor, a home block that is
written. -/
inductive Touch
  | read (b : ℕ)
  | slot (i : ℕ)
  | home (b : ℕ)
  deriving DecidableEq

/-- A function on the state that also returns what it has touched. -/
def Traced (α : Type) : Type := St → List Touch × Option α × St

namespace Traced

variable {α β : Type}

protected def pure (a : α) : Traced α := fun s => ([], some a, s)

protected def bind (x : Traced α) (f : α → Traced β) : Traced β := fun s =>
  match x s with
  | (l, some a, s') => (l ++ (f a s').1, (f a s').2)
  | (l, none, s') => (l, none, s')

instance : Monad Traced where
  pure := Traced.pure
  bind := Traced.bind

def of (l : List Touch) (x : M α) : Traced α := fun s => (l, x.run s)

theorem bind_of_some {x : Traced α} {f : α → Traced β} {s s' : St} {l : List Touch} {a : α}
    (h : x s = (l, some a, s')) :
    (x >>= f) s = (l ++ (f a s').1, (f a s').2) := by
  change Traced.bind x f s = _
  rw [Traced.bind, h]

theorem bind_of_none {x : Traced α} {f : α → Traced β} {s s' : St} {l : List Touch} (h : x s = (l, none, s')) :
    (x >>= f) s = (l, none, s') := by
  change Traced.bind x f s = _
  rw [Traced.bind, h]

def Runs (x : Traced α) (y : M α) : Prop := ∀ s, (x s).2 = y.run s

theorem Runs.of (l : List Touch) (x : M α) : Runs (Traced.of l x) x := fun _ => rfl

theorem Runs.pure (a : α) : Runs (Pure.pure a) (Pure.pure a) := fun _ => rfl

theorem Runs.bind {x : Traced α} {y : M α} {f : α → Traced β} {g : α → M β} (hx : Runs x y)
    (hf : ∀ a, Runs (f a) (g a)) :
    Runs (x >>= f) (y >>= g) := by
  intro s
  rcases h : x s with ⟨l, _ | a, s'⟩
  · have hy : y.run s = (none, s') := by rw [← hx s, h]
    rw [bind_of_none h, M.bind_of_none hy]
  · have hy : y.run s = (some a, s') := by rw [← hx s, h]
    rw [bind_of_some h, M.bind_of_some hy]
    exact hf a s'

end Traced

open Cfs.Traced

def readRunT (b : ℕ) : ℕ → Traced (List Block)
  | 0 => pure []
  | n + 1 => do
      let v ← Traced.of [.read b] (rawReadBlock b)
      let rest ← readRunT (b + 1) n
      pure (v :: rest)

def redoT (j : ℕ) (desc : Block) : ℕ → ℕ → Traced Unit
  | _, 0 => pure ()
  | i, n + 1 => do
      let v ← Traced.of [.read (j + 2 + i)] (rawReadBlock (j + 2 + i))
      let _ ← Traced.of [.slot i, .home (desc.getLE (8 * i) 8)] (attempt (rawWriteBlock (desc.getLE (8 * i) 8) v))
      redoT j desc (i + 1) n

def recoverT (j journalBlocks : ℕ) : Traced Unit := do
  Traced.of [] (ensure (j ≠ 0))
  let h ← Traced.of [.read j] (rawReadBlock j)
  Traced.of [] (ensure (JHdr.Committed h))
  Traced.of [] (ensure (JHdr.nblocks h ≠ 0 ∧ (JHdr.nblocks h + 2) % 2 ^ 32 ≤ journalBlocks))
  let desc ← Traced.of [.read (j + 1)] (rawReadBlock (j + 1))
  let data ← readRunT (j + 2) (JHdr.nblocks h)
  Traced.of [] (ensure ((journalCsum desc data).toNat = JHdr.csum h))
  redoT j desc 0 (JHdr.nblocks h)
  Traced.of [] do
    modify fun s => { s with
      jseq := if s.jseq ≤ JHdr.seq h then (JHdr.seq h + 1) % 2 ^ 64 else s.jseq }
    let _ ← attempt (rawWriteBlock j (JHdr.make CFS_JNONE 0 0 0))

theorem readRunT_runs (b n : ℕ) : Runs (readRunT b n) (readRun b n) := by
  induction n generalizing b with
  | zero => exact .pure _
  | succ n ih => exact .bind (.of _ _) fun _ => .bind (ih _) fun _ => .pure _

theorem redoT_runs (j : ℕ) (desc : Block) (i n : ℕ) : Runs (redoT j desc i n) (redo j desc i n) := by
  induction n generalizing i with
  | zero => exact .pure _
  | succ n ih => exact .bind (.of _ _) fun _ => .bind (.of _ _) fun _ => ih _

/-- The record belongs to the replay. -/
theorem recoverT_runs (j journalBlocks : ℕ) : Runs (recoverT j journalBlocks) (recoverBody j journalBlocks) :=
  .bind (.of _ _) fun _ => .bind (.of _ _) fun _ => .bind (.of _ _) fun _ =>
  .bind (.of _ _) fun _ =>
    .bind (.of _ _) fun _ => .bind (readRunT_runs _ _) fun _ => .bind (.of _ _) fun _ =>
    .bind (redoT_runs _ _ _ _) fun _ =>
      .of _ _

variable {s : St} {j jb n i b : ℕ} {desc : Block}

def St.readOn (s : St) (n : ℕ) : St := { s with rd := fun i => s.rd (i + n) }

theorem St.readOn_readOn (s : St) (m n : ℕ) : (s.readOn m).readOn n = s.readOn (m + n) := by
  have hrd : (fun i => (s.readOn m).rd (i + n)) = fun i => s.rd (i + (m + n)) := by
    funext i
    exact congrArg s.rd (by omega)
  rw [St.readOn, hrd]
  rfl

theorem St.readOn_disk (s : St) (n : ℕ) : (s.readOn n).disk = s.disk := rfl

theorem read_ok {l : List Touch} (h : s.rd 0 = true) : Traced.of l (rawReadBlock b) s =
    (l, some (s.disk b), s.readOn 1) := by
  rw [Traced.of, rawReadBlock_run, h]
  rfl

theorem read_fails {l : List Touch} (h : s.rd 0 = false) : Traced.of l (rawReadBlock b) s = (l, none, s.readOn 1) := by
  rw [Traced.of, rawReadBlock_run, h]
  rfl

def St.Reads (s : St) (n : ℕ) : Prop := ∀ i < n, s.rd i = true

theorem St.reads_succ : s.Reads (n + 1) ↔ s.rd 0 = true ∧ (s.readOn 1).Reads n := by
  constructor
  · exact fun h => ⟨h 0 (Nat.succ_pos n), fun i hi => h (i + 1) (Nat.succ_lt_succ hi)⟩
  · rintro ⟨h0, h⟩ (_ | i) hi
    · exact h0
    · exact h i (Nat.lt_of_succ_lt_succ hi)

/-- The loop over the copies reads one block after the other until a read fails. -/
theorem mem_readRunT {t : Touch} : t ∈ (readRunT b n s).1 ↔ ∃ k < n, t = .read (b + k) ∧ s.Reads k := by
  induction n generalizing s b with
  | zero =>
    refine ⟨fun h => absurd h List.not_mem_nil, ?_⟩
    rintro ⟨k, hk, -⟩
    omega
  | succ n ih =>
    cases hrd : s.rd 0 with
    | false =>
      rw [readRunT, Traced.bind_of_none (read_fails hrd), List.mem_singleton]
      constructor
      · rintro rfl
        exact ⟨0, Nat.succ_pos n, rfl, fun i hi => absurd hi (Nat.not_lt_zero i)⟩
      · rintro ⟨k, -, rfl, hk⟩
        obtain _ | k := k
        · rfl
        · exact absurd (hk 0 (Nat.succ_pos k)) (by rw [hrd]; exact Bool.false_ne_true)
    | true =>
      have hrest : t ∈ ((readRunT (b + 1) n >>= fun rest => pure (s.disk b :: rest)) (s.readOn 1)).1
          ↔ t ∈ (readRunT (b + 1) n (s.readOn 1)).1 := by
        rcases hr : readRunT (b + 1) n (s.readOn 1) with ⟨l, _ | rest, s'⟩
        · rw [Traced.bind_of_none hr]
        · rw [Traced.bind_of_some hr]
          exact ⟨fun h => (List.mem_append.mp h).elim id fun h => absurd h List.not_mem_nil, List.mem_append_left _⟩
      rw [readRunT, Traced.bind_of_some (read_ok hrd), List.mem_append, List.mem_singleton, hrest, ih]
      constructor
      · rintro (rfl | ⟨k, hk, rfl, hok⟩)
        · exact ⟨0, Nat.succ_pos n, rfl, fun i hi => absurd hi (Nat.not_lt_zero i)⟩
        · exact ⟨k + 1, Nat.succ_lt_succ hk, congrArg Touch.read (by omega), St.reads_succ.mpr ⟨hrd, hok⟩⟩
      · rintro ⟨_ | k, hk, rfl, hok⟩
        · exact Or.inl rfl
        · exact Or.inr ⟨k, Nat.lt_of_succ_lt_succ hk, congrArg Touch.read (by omega), (St.reads_succ.mp hok).2⟩

theorem readRunT_ok (h : s.Reads n) :
    ∃ l, readRunT b n s = (l, some ((List.range' b n).map s.disk), s.readOn n) := by
  induction n generalizing s b with
  | zero => exact ⟨[], rfl⟩
  | succ n ih =>
    obtain ⟨hrd, hrest⟩ := St.reads_succ.mp h
    obtain ⟨l, hl⟩ := ih (s := s.readOn 1) (b := b + 1) hrest
    rw [St.readOn_readOn, Nat.add_comm 1 n] at hl
    rw [readRunT, Traced.bind_of_some (read_ok hrd), Traced.bind_of_some hl]
    exact ⟨_, rfl⟩

theorem readRunT_fails (h : ¬ s.Reads n) : ∃ l s', readRunT b n s = (l, none, s') := by
  induction n generalizing s b with
  | zero => exact absurd (fun i hi => absurd hi (Nat.not_lt_zero i)) h
  | succ n ih =>
    cases hrd : s.rd 0 with
    | false => exact ⟨_, _, by rw [readRunT, Traced.bind_of_none (read_fails hrd)]⟩
    | true =>
      obtain ⟨l, s', hl⟩ := ih (s := s.readOn 1) (b := b + 1) fun hrest => h (St.reads_succ.mpr ⟨hrd, hrest⟩)
      exact ⟨_, _, by rw [readRunT, Traced.bind_of_some (read_ok hrd), Traced.bind_of_none hl]⟩

/-- The redo loop reads a copy again, uses its slot and writes its home block, until a read fails.
-/
theorem mem_redoT {t : Touch} : t ∈ (redoT j desc i n s).1 ↔ ∃ k < n,
    (t = .read (j + 2 + (i + k)) ∧ s.Reads k) ∨
      ((t = .slot (i + k) ∨ t = .home (desc.getLE (8 * (i + k)) 8)) ∧ s.Reads (k + 1)) := by
  induction n generalizing s i with
  | zero =>
    refine ⟨fun h => absurd h List.not_mem_nil, ?_⟩
    rintro ⟨k, hk, -⟩
    omega
  | succ n ih =>
    cases hrd : s.rd 0 with
    | false =>
      rw [redoT, Traced.bind_of_none (read_fails hrd), List.mem_singleton]
      have hno : ∀ k, ¬ s.Reads (k + 1) :=
        fun k h => absurd (h 0 (Nat.succ_pos k)) (by rw [hrd]; exact Bool.false_ne_true)
      constructor
      · rintro rfl
        exact ⟨0, Nat.succ_pos n, Or.inl ⟨rfl, fun i hi => absurd hi (Nat.not_lt_zero i)⟩⟩
      · rintro ⟨k, -, ⟨rfl, hk⟩ | ⟨-, hk⟩⟩
        · obtain _ | k := k
          · rfl
          · exact absurd hk (hno k)
        · exact absurd hk (hno k)
    | true =>
      -- whether the write succeeds does not matter, and it does not change what later reads answer
      obtain ⟨s₁, hwrite, hreads⟩ : ∃ s₁, Traced.of [.slot i, .home (desc.getLE (8 * i) 8)]
          (attempt (rawWriteBlock (desc.getLE (8 * i) 8) (s.disk (j + 2 + i)))) (s.readOn 1) =
            ([.slot i, .home (desc.getLE (8 * i) 8)],
              some ((rawWriteBlock (desc.getLE (8 * i) 8) (s.disk (j + 2 + i))).run (s.readOn 1)).1, s₁) ∧
            s₁.rd = (s.readOn 1).rd := by
        refine ⟨_, rfl, ?_⟩
        rw [rawWriteBlock_run]
        split <;> rfl
      have hreads' : ∀ k, s₁.Reads k ↔ s.Reads (k + 1) := fun k => by
        rw [St.reads_succ, St.Reads, St.Reads, hreads]
        exact ⟨fun h => ⟨hrd, h⟩, And.right⟩
      rw [redoT, Traced.bind_of_some (read_ok hrd), List.mem_append, Traced.bind_of_some hwrite, List.mem_append, ih]
      simp only [hreads', List.mem_cons, List.not_mem_nil, or_false]
      constructor
      · rintro (rfl | hslot | ⟨k, hk, h⟩)
        · exact ⟨0, Nat.succ_pos n, Or.inl ⟨rfl, fun i hi => absurd hi (Nat.not_lt_zero i)⟩⟩
        · refine ⟨0, Nat.succ_pos n, Or.inr ⟨hslot, St.reads_succ.mpr ⟨hrd, fun i hi => absurd hi (Nat.not_lt_zero i)⟩⟩⟩
        · refine ⟨k + 1, Nat.succ_lt_succ hk, ?_⟩
          rwa [show i + (k + 1) = i + 1 + k by omega]
      · rintro ⟨_ | k, hk, h⟩
        · rcases h with ⟨rfl, -⟩ | ⟨hslot, -⟩
          · exact Or.inl rfl
          · exact Or.inr (Or.inl hslot)
        · rw [show i + (k + 1) = i + 1 + k by omega] at h
          exact Or.inr (Or.inr ⟨k, Nat.lt_of_succ_lt_succ hk, h⟩)

/-- The header in block `h` passes the checks made before anything else is read. -/
def Replayable (jb : ℕ) (h : Block) : Prop :=
  JHdr.Committed h ∧ JHdr.nblocks h ≠ 0 ∧ (JHdr.nblocks h + 2) % 2 ^ 32 ≤ jb

/-- The checksum in the header is that of the descriptor and the copies. -/
def CsumMatches (d : Disk) (j : ℕ) : Prop :=
  (journalCsum (d (j + 1)) ((List.range' (j + 2) (JHdr.nblocks (d j))).map d)).toNat = JHdr.csum
  (d j)

instance (d : Disk) (j : ℕ) : Decidable (CsumMatches d j) := inferInstanceAs (Decidable (_ = _))

def touched (s : St) (j jb : ℕ) : List Touch := (recoverT j jb s).1

theorem ensure_of {c : Prop} [Decidable c] (h : c) : Traced.of [] (ensure c) s = ([], some (), s) :=
  congrArg (Prod.mk []) (ensure_pos h s)

theorem ensure_of_not {c : Prop} [Decidable c] (h : ¬ c) : Traced.of [] (ensure c) s = ([], none, s) :=
  congrArg (Prod.mk []) (ensure_neg h s)

theorem bind_untouched {α β : Type} (x : Traced α) (y : α → M β) (s : St) :
    ((x >>= fun a => Traced.of [] (y a)) s).1 = (x s).1 := by
  rcases h : x s with ⟨l, _ | a, s'⟩
  · rw [Traced.bind_of_none h]
  · rw [Traced.bind_of_some h]
    exact List.append_nil l

/-- What follows the checks on the header: the descriptor, the copies, and the redo loop once the
checksum matches. -/
theorem mem_replay {t : Touch} (hj : j ≠ 0) (h0 : s.rd 0 = true) (hpass : Replayable jb (s.disk j))
    (h1 : s.rd 1 = true) :
    t ∈ touched s j jb ↔ t = .read j ∨ t = .read (j + 1) ∨
      t ∈ (readRunT (j + 2) (JHdr.nblocks (s.disk j)) (s.readOn 2)).1 ∨
      ((s.readOn 2).Reads (JHdr.nblocks (s.disk j)) ∧ CsumMatches s.disk j ∧
        t ∈ (redoT j (s.disk (j + 1)) 0 (JHdr.nblocks (s.disk j)) (s.readOn (2 + JHdr.nblocks (s.disk j)))).1) := by
  rw [touched, recoverT, Traced.bind_of_some (ensure_of hj), Traced.bind_of_some (read_ok h0),
    Traced.bind_of_some (ensure_of hpass.1), Traced.bind_of_some (ensure_of hpass.2), Traced.bind_of_some (read_ok h1),
    St.readOn_readOn]
  simp only [List.nil_append, List.cons_append, List.mem_cons]
  refine or_congr_right (or_congr_right ?_)
  by_cases hreads : (s.readOn 2).Reads (JHdr.nblocks (s.disk j))
  · obtain ⟨l, hl⟩ := readRunT_ok (b := j + 2) hreads
    rw [Traced.bind_of_some hl, List.mem_append, hl]
    refine or_congr_right ?_
    by_cases hcsum : (journalCsum ((s.readOn 1).disk (j + 1))
        ((List.range' (j + 2) (JHdr.nblocks (s.disk j))).map (s.readOn 2).disk)).toNat = JHdr.csum (s.disk j)
    · rw [Traced.bind_of_some (ensure_of hcsum), List.nil_append, bind_untouched, St.readOn_readOn, St.readOn_disk]
      exact ⟨fun h => ⟨hreads, hcsum, h⟩, fun h => h.2.2⟩
    · rw [Traced.bind_of_none (ensure_of_not hcsum)]
      exact ⟨fun h => absurd h List.not_mem_nil, fun h => absurd h.2.1 hcsum⟩
  · obtain ⟨l, s', hl⟩ := readRunT_fails (b := j + 2) hreads
    rw [Traced.bind_of_none hl, hl]
    exact ⟨Or.inl, fun h => h.elim id fun h => absurd h.1 hreads⟩

theorem touched_zero (h : j = 0) : touched s j jb = [] := by
  rw [touched, recoverT, Traced.bind_of_none (ensure_of_not (not_not_intro h))]

theorem touched_unread (hj : j ≠ 0) (h0 : s.rd 0 = false) : touched s j jb = [.read j] := by
  rw [touched, recoverT, Traced.bind_of_some (ensure_of hj), Traced.bind_of_none (read_fails h0)]
  rfl

theorem touched_refused (hj : j ≠ 0) (h0 : s.rd 0 = true) (hpass : ¬ Replayable jb (s.disk j)) :
    touched s j jb = [.read j] := by
  rw [touched, recoverT, Traced.bind_of_some (ensure_of hj), Traced.bind_of_some (read_ok h0)]
  by_cases hcom : JHdr.Committed (s.disk j)
  · rw [Traced.bind_of_some (ensure_of hcom), Traced.bind_of_none (ensure_of_not fun h => hpass ⟨hcom, h⟩)]
    rfl
  · rw [Traced.bind_of_none (ensure_of_not hcom)]
    rfl

theorem touched_short (hj : j ≠ 0) (h0 : s.rd 0 = true) (hpass : Replayable jb (s.disk j)) (h1 : s.rd 1 = false) :
    touched s j jb = [.read j, .read (j + 1)] := by
  have h1' : (s.readOn 1).rd 0 = false := h1
  rw [touched, recoverT, Traced.bind_of_some (ensure_of hj), Traced.bind_of_some (read_ok h0),
    Traced.bind_of_some (ensure_of hpass.1), Traced.bind_of_some (ensure_of hpass.2),
    Traced.bind_of_none (read_fails h1')]
  rfl

/-- A block of the journal, or one of the 512 slots of the descriptor. -/
def Touch.Inside (j jb : ℕ) : Touch → Prop
  | .read b => j ≤ b ∧ b < j + jb
  | .slot i => i < 512
  | .home _ => True

/-- There is no journal; or it has a block for the header, and when that passes the checks one for
the descriptor too, and then the number of blocks is such that the copies lie in the journal and
their homes in the descriptor, unless the loops end before they get that far. -/
def ReplaySafe (s : St) (j jb : ℕ) : Prop :=
  j = 0 ∨ 0 < jb ∧ (s.rd 0 = true → Replayable jb (s.disk j) → 1 < jb ∧ (s.rd 1 = true →
    (JHdr.nblocks (s.disk j) + 2 ≤ jb ∨ ¬ (s.readOn 2).Reads (jb - 2)) ∧
    (JHdr.nblocks (s.disk j) ≤ 512 ∨ ¬ CsumMatches s.disk j ∨ ¬ (s.readOn 2).Reads (JHdr.nblocks (s.disk j) + 513))))

theorem St.Reads.le {m : ℕ} (h : s.Reads m) (hn : n ≤ m) : s.Reads n := fun i hi => h i (Nat.lt_of_lt_of_le hi hn)

theorem St.reads_add {m : ℕ} : s.Reads (n + m) ↔ s.Reads n ∧ (s.readOn n).Reads m := by
  constructor
  · exact fun h => ⟨h.le (Nat.le_add_right n m), fun i hi => h (i + n) (by omega)⟩
  · rintro ⟨hn, hm⟩ i hi
    by_cases hlt : i < n
    · exact hn i hlt
    · have hrd : s.rd (i - n + n) = true := hm (i - n) (by omega)
      rwa [Nat.sub_add_cancel (Nat.le_of_not_lt hlt)] at hrd

theorem replay_inside (hj : j ≠ 0) (h0 : s.rd 0 = true) (hpass : Replayable jb (s.disk j))
    (h1 : s.rd 1 = true) (hjb : 1 < jb)
    (hcopies : JHdr.nblocks (s.disk j) + 2 ≤ jb ∨ ¬ (s.readOn 2).Reads (jb - 2))
    (hslots : JHdr.nblocks (s.disk j) ≤ 512 ∨ ¬ CsumMatches s.disk j ∨
    ¬ (s.readOn 2).Reads (JHdr.nblocks (s.disk j) + 513)) :
    ∀ t ∈ touched s j jb, t.Inside j jb := by
  intro t ht
  rcases (mem_replay hj h0 hpass h1).mp ht with rfl | rfl | hcopy | ⟨hreads, hcsum, hredo⟩
  · exact ⟨Nat.le_refl j, by omega⟩
  · exact ⟨Nat.le_succ j, by omega⟩
  · obtain ⟨k, hk, rfl, hok⟩ := mem_readRunT.mp hcopy
    refine ⟨by omega, ?_⟩
    rcases hcopies with hcopies | hcopies
    · omega
    · by_contra hout
      exact hcopies (hok.le (by omega))
  · -- by now all copies have been read once
    have hfit : JHdr.nblocks (s.disk j) + 2 ≤ jb := by
      rcases hcopies with hcopies | hcopies
      · exact hcopies
      · by_contra hout
        exact hcopies (hreads.le (by omega))
    obtain ⟨k, hk, ⟨rfl, -⟩ | ⟨rfl | rfl, hok⟩⟩ := mem_redoT.mp hredo
    · exact ⟨by omega, by omega⟩
    · rw [Touch.Inside, Nat.zero_add]
      rcases hslots with hslots | hslots | hslots
      · omega
      · exact absurd hcsum hslots
      · by_contra hout
        refine hslots (St.reads_add.mpr ⟨hreads, ?_⟩)
        rw [St.readOn_readOn]
        exact hok.le (by omega)
    · trivial

theorem home_checked (h : .home b ∈ touched s j jb) : JHdr.Committed (s.disk j) ∧ CsumMatches s.disk j := by
  by_cases hj : j = 0
  · rw [touched_zero hj] at h
    cases h
  cases h0 : s.rd 0 with
  | false =>
    rw [touched_unread hj h0] at h
    simp at h
  | true =>
    by_cases hpass : Replayable jb (s.disk j)
    swap
    · rw [touched_refused hj h0 hpass] at h
      simp at h
    cases h1 : s.rd 1 with
    | false =>
      rw [touched_short hj h0 hpass h1] at h
      simp at h
    | true =>
      rcases (mem_replay hj h0 hpass h1).mp h with h | h | h | ⟨-, hcsum, -⟩
      · cases h
      · cases h
      · obtain ⟨k, -, h, -⟩ := mem_readRunT.mp h
        cases h
      · exact ⟨hpass.1, hcsum⟩

theorem replaySafe_of_inside (h : ∀ t ∈ touched s j jb, t.Inside j jb) : ReplaySafe s j jb := by
  by_cases hj : j = 0
  · exact Or.inl hj
  refine Or.inr ⟨?_, fun h0 hpass => ?_⟩
  · have hhdr : Touch.read j ∈ touched s j jb := by
      cases h0 : s.rd 0 with
      | false =>
        rw [touched_unread hj h0]
        exact List.mem_cons_self
      | true =>
        by_cases hpass : Replayable jb (s.disk j)
        · cases h1 : s.rd 1 with
          | false =>
            rw [touched_short hj h0 hpass h1]
            exact List.mem_cons_self
          | true => exact (mem_replay hj h0 hpass h1).mpr (Or.inl rfl)
        · rw [touched_refused hj h0 hpass]
          exact List.mem_cons_self
    have := (h _ hhdr).2
    omega
  · cases h1 : s.rd 1 with
    | false =>
      have hdesc : Touch.read (j + 1) ∈ touched s j jb := by
        rw [touched_short hj h0 hpass h1]
        exact List.mem_cons_of_mem _ List.mem_cons_self
      have := (h _ hdesc).2
      exact ⟨by omega, fun h => absurd h Bool.false_ne_true⟩
    | true =>
      have hdesc := (h _ ((mem_replay hj h0 hpass h1).mpr (Or.inr (Or.inl rfl)))).2
      have hjb : 1 < jb := by omega
      refine ⟨hjb, fun _ => ⟨?_, ?_⟩⟩
      · by_contra hout
        obtain ⟨hlong, hreads⟩ := not_or.mp hout
        -- the copy behind the last block of the journal is read
        have hlast : Touch.read (j + 2 + (jb - 2)) ∈ touched s j jb :=
          (mem_replay hj h0 hpass h1).mpr (Or.inr (Or.inr (Or.inl
            (mem_readRunT.mpr ⟨jb - 2, by omega, rfl, not_not.mp hreads⟩))))
        have := (h _ hlast).2
        omega
      · by_contra hout
        obtain ⟨hlong, hrest⟩ := not_or.mp hout
        obtain ⟨hcsum, hreads⟩ := not_or.mp hrest
        obtain ⟨hcopies, hredo⟩ := St.reads_add.mp (not_not.mp hreads)
        rw [St.readOn_readOn] at hredo
        -- the slot behind the descriptor is used
        have hlast : Touch.slot 512 ∈ touched s j jb :=
          (mem_replay hj h0 hpass h1).mpr (Or.inr (Or.inr (Or.inr ⟨hcopies, not_not.mp hcsum,
            mem_redoT.mpr ⟨512, by omega, Or.inr ⟨Or.inl rfl, hredo⟩⟩⟩)))
        exact absurd (h _ hlast) (Nat.lt_irrefl 512)

/-- The replay of the journal reads only blocks inside it, uses only slots inside the descriptor and
writes home blocks only for a committed header with a matching checksum, exactly when the number of
blocks in a header that passes the checks is small enough for both. -/
theorem recover_contained (s : St) (j jb : ℕ) : Runs (recoverT j jb) (recoverBody j jb) ∧
    (((∀ t ∈ touched s j jb, t.Inside j jb) ∧
      ∀ b, .home b ∈ touched s j jb → JHdr.Committed (s.disk j) ∧ CsumMatches s.disk j) ↔ ReplaySafe s j jb) := by
  refine ⟨recoverT_runs j jb, fun h => replaySafe_of_inside h.1, fun hsafe => ⟨?_, fun b => home_checked⟩⟩
  rcases hsafe with hj | ⟨hjb, hrest⟩
  · rw [touched_zero hj]
    exact fun t ht => absurd ht List.not_mem_nil
  by_cases hj : j = 0
  · rw [touched_zero hj]
    exact fun t ht => absurd ht List.not_mem_nil
  have hhdr : (Touch.read j).Inside j jb := ⟨Nat.le_refl j, by omega⟩
  cases h0 : s.rd 0 with
  | false =>
    rw [touched_unread hj h0]
    exact List.forall_mem_singleton.mpr hhdr
  | true =>
    by_cases hpass : Replayable jb (s.disk j)
    swap
    · rw [touched_refused hj h0 hpass]
      exact List.forall_mem_singleton.mpr hhdr
    obtain ⟨h1jb, hloops⟩ := hrest h0 hpass
    cases h1 : s.rd 1 with
    | false =>
      rw [touched_short hj h0 hpass h1]
      exact List.forall_mem_cons.mpr ⟨hhdr, List.forall_mem_singleton.mpr ⟨Nat.le_succ j, by omega⟩⟩
    | true =>
      obtain ⟨hcopies, hslots⟩ := hloops h1
      exact replay_inside hj h0 hpass h1 h1jb hcopies hslots

/-- A journal in block 1 with a committed transaction of 513 empty blocks, and a checksum. -/
def longJournal (csum : ℕ) : Disk := fun b => if b = 1 then JHdr.make CFS_JCOMMITTED 1 513 csum else zero

theorem longJournal_header (csum : ℕ) : longJournal csum 1 = JHdr.make CFS_JCOMMITTED 1 513 csum := if_pos rfl

theorem longJournal_rest (csum : ℕ) (hb : b ≠ 1) : longJournal csum b = zero := if_neg hb

/-- That journal with the checksum that belongs to it. -/
def longState : St := St.boot { (default : Geom) with journalStart := 1, journalBlocks := 1024 }
  (longJournal (journalCsum zero (List.replicate 513 zero)).toNat) fun _ => .ok

theorem longState_disk : longState.disk = longJournal (journalCsum zero (List.replicate 513 zero)).toNat := rfl

/-- The replay of that journal uses a slot behind the descriptor. -/
theorem long_journal_slot : Touch.slot 512 ∈ touched longState 1 1024 ∧ ¬ (Touch.slot 512).Inside 1 1024 := by
  have hn : JHdr.nblocks (longState.disk 1) = 513 := by
    rw [longState_disk, longJournal_header, make_nblocks _ _ _ (by decide)]
  have hpass : Replayable 1024 (longState.disk 1) := by
    refine ⟨?_, ?_, ?_⟩
    · rw [longState_disk, longJournal_header]
      exact make_committed _ _ _
    · rw [hn]
      decide
    · rw [hn]
      decide
  have hcsum : CsumMatches longState.disk 1 := by
    have hdata : (List.range' (1 + 2) 513).map longState.disk = List.replicate 513 zero := by
      refine List.eq_replicate_iff.mpr ⟨by rw [List.length_map, List.length_range'], fun v hv => ?_⟩
      obtain ⟨b, hb, rfl⟩ := List.mem_map.mp hv
      rw [longState_disk, longJournal_rest _ (by have := List.mem_range'_1.mp hb; omega)]
    rw [CsumMatches, hn, hdata, longState_disk, longJournal_rest _ (by decide), longJournal_header,
      make_csum _ _ _ (UInt32.toNat_lt _)]
  refine ⟨(mem_replay (by decide) rfl hpass rfl).mpr
    (Or.inr (Or.inr (Or.inr ⟨fun _ _ => rfl, hcsum, ?_⟩))), Nat.lt_irrefl 512⟩
  rw [hn]
  exact mem_redoT.mpr ⟨512, by decide, Or.inr ⟨Or.inl rfl, fun _ _ => rfl⟩⟩

end ComputerOS.Cfs
