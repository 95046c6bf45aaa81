import ComputerOS.Tar.Model

/-!
How the walk over an archive gets on, and what it reads. Positions are 32-bit sums: a round leads on
exactly when the data that its header announces end below the largest position, and else it leads
back. What is read behind a header is as much as the header says, whatever the archive holds.
-/
namespace ComputerOS.Tar

variable {img : Image} {w w' : Walk} {m : Option Member} {extract : Bool}

/-- The states that the loop of `tar_process` comes to. -/
inductive Reached (img : Image) : Walk → Prop
  | start : Reached img {}
  | next {w w' : Walk} {m : Option Member} : Reached img w → step img w = some (w', m) → Reached img w'

def endsWithin (img : Image) : ℕ → Walk → Bool
  | 0, _ => false
  | n + 1, w => (step img w).elim true fun r => endsWithin img n r.1

/-- The bytes that a round goes over behind the block it starts at. -/
def skip (img : Image) (w : Walk) : ℕ :=
  if blockIsZero img w.pos ∨ typeflag img w.pos = 53 then 0 else padded (fileSize img w.pos)

theorem padded_le (size : ℕ) : padded size ≤ 2 ^ 32 - TAR_BLOCK := by
  have hlt : (size + TAR_BLOCK - 1) % 2 ^ 32 < 2 ^ 32 := Nat.mod_lt _ (by decide)
  unfold padded TAR_BLOCK at *
  omega

theorem skip_le (img : Image) (w : Walk) : skip img w ≤ 2 ^ 32 - TAR_BLOCK := by
  unfold skip
  split_ifs
  · exact Nat.zero_le (2 ^ 32 - TAR_BLOCK)
  · exact padded_le _

/-- Where a round that does not end the loop leads. -/
theorem step_pos (h : step img w = some (w', m)) :
    (w.pos + TAR_BLOCK) % 2 ^ 32 ≤ img.size ∧ w'.pos = (w.pos + TAR_BLOCK + skip img w) % 2 ^ 32 := by
  rw [step_eq] at h
  dsimp only at h
  split at h
  · cases h
  rename_i hin
  refine ⟨Nat.not_lt.mp hin, ?_⟩
  unfold skip
  split at h
  · rename_i hzero
    rw [if_pos (Or.inl hzero), Nat.add_zero]
    split at h
    · cases h
    · obtain ⟨rfl, -⟩ := Prod.mk.inj (Option.some.inj h)
      rfl
  rename_i hzero
  split at h
  · cases h
  by_cases hdir : typeflag img w.pos = 53
  · rw [if_pos (Or.inr hdir), Nat.add_zero]
    rw [hdir] at h
    simp at h
    obtain ⟨rfl, -⟩ := h
    rfl
  · rw [if_neg (not_or.mpr ⟨hzero, hdir⟩), ← Nat.mod_add_mod]
    rw [if_neg hdir] at h
    split_ifs at h <;> obtain ⟨rfl, -⟩ := Prod.mk.inj (Option.some.inj h) <;> rfl

theorem reached_lt (h : Reached img w) : w.pos < 2 ^ 32 := by
  cases h with
  | start => exact Nat.two_pow_pos 32
  | next _ hstep =>
    rw [(step_pos hstep).2]
    exact Nat.mod_lt _ (Nat.two_pow_pos 32)

/-- A round leads on exactly when the sum that gives the next position does not wrap. -/
theorem increases_iff (hpos : w.pos < 2 ^ 32) (h : step img w = some (w', m)) :
    w.pos < w'.pos ↔ w.pos + TAR_BLOCK + skip img w < 2 ^ 32 := by
  have hskip := skip_le img w
  rw [(step_pos h).2]
  unfold TAR_BLOCK at *
  omega

/-- When every round leads on, the loop ends. -/
theorem ends_of_increases (hup : ∀ w, Reached img w → ∀ w' m, step img w = some (w', m) → w.pos < w'.pos) {n : ℕ}
    (hw : Reached img w) (hn : img.size < n + w.pos) : endsWithin img (n + 1) w = true := by
  induction n generalizing w with
  | zero =>
    rw [endsWithin]
    cases hstep : step img w with
    | none => rfl
    | some r =>
      have hon := (increases_iff (reached_lt hw) hstep).mp (hup w hw r.1 r.2 hstep)
      have hin := (step_pos hstep).1
      rw [Nat.mod_eq_of_lt (by omega)] at hin
      omega
  | succ n ih =>
    rw [endsWithin]
    cases hstep : step img w with
    | none => rfl
    | some r =>
      obtain ⟨w', m⟩ := r
      have hlt := hup w hw w' m hstep
      have hleft : img.size < n + w'.pos := by omega
      rw [Option.elim_some]
      exact ih (hw.next hstep) hleft

/-- Every round of `tar_process` that does not end it leads on, and so it ends, exactly when no
header on the way announces so much data that the next position wraps. -/
theorem progress_iff (img : Image) :
    ((∀ w, Reached img w → ∀ w' m, step img w = some (w', m) → w.pos < w'.pos) ∧ ∃ n, endsWithin img n {} = true) ↔
      ∀ w, Reached img w → (step img w).isSome → w.pos + TAR_BLOCK + skip img w < 2 ^ 32 := by
  constructor
  · rintro ⟨hup, -⟩ w hw hsome
    obtain ⟨r, hr⟩ := Option.isSome_iff_exists.mp hsome
    exact (increases_iff (reached_lt hw) hr).mp (hup w hw r.1 r.2 hr)
  · intro hfit
    have hup : ∀ w, Reached img w → ∀ w' m, step img w = some (w', m) → w.pos < w'.pos := fun w hw w' m hstep =>
      (increases_iff (reached_lt hw) hstep).mpr (hfit w hw (by rw [hstep]; rfl))
    exact ⟨hup, img.size + 1 + 1, ends_of_increases hup .start (Nat.lt_succ_self _)⟩

/-- An archive of one header, for a file of 37777777000 bytes in octal: with its header that is 2 ^
32. -/
def endlessFile : Image where
  byte := fun i =>
    if 124 ≤ i ∧ i < 135 then [51, 55, 55, 55, 55, 55, 55, 55, 48, 48, 48].getD (i - 124) 0
    else if 148 ≤ i ∧ i < 152 then [49, 53, 54, 52].getD (i - 148) 0
    else if i = 156 then 48
    else 0
  size := 512

/-- A round over the header leads back to it. -/
theorem endlessFile_round (n : ℕ) :
    (step endlessFile { entries := n }).map Prod.fst = some { entries := n + 1 } := by
  have hzero : blockIsZero endlessFile 0 = false := by decide +kernel
  have hsum : checksumOk endlessFile 0 = true := by decide +kernel
  have hsize : fileSize endlessFile 0 = 4294966784 := by decide +kernel
  have hflag : typeflag endlessFile 0 = 48 := by decide +kernel
  rw [step_eq]
  simp only [hzero, hsum, hsize, hflag]
  rfl

theorem endlessFile_not_ends (n k : ℕ) : endsWithin endlessFile n { entries := k } = false := by
  induction n generalizing k with
  | zero => rfl
  | succ n ih =>
    obtain ⟨⟨w, m⟩, hstep, hw⟩ := Option.map_eq_some_iff.mp (endlessFile_round k)
    obtain rfl : w = { entries := k + 1 } := hw
    rw [endsWithin, hstep]
    exact ih (k + 1)

/-- One header of 512 bytes is enough for a loop without end. -/
theorem extract_endless : ¬ ∀ img : Image, img.size ≤ 4 * 1024 * 1024 →
    (∀ w, Reached img w → ∀ w' m, step img w = some (w', m) → w.pos < w'.pos) ∧ ∃ n, endsWithin img n {} = true := by
  intro h
  obtain ⟨n, hn⟩ := (h endlessFile (by decide)).2
  rw [endlessFile_not_ends n 0] at hn
  cases hn

/-- Bytes that a round reads or passes on: of the archive, or of the local buffer of the link
target. -/
inductive Access
  | archive (pos len : ℕ)
  | link (len : ℕ)
deriving DecidableEq, Repr

/-- The bytes are in the archive, or in the buffer. -/
def Access.Inside (size : ℕ) : Access → Prop
  | archive pos len => pos + len ≤ size
  | link len => len ≤ 256

/-- The content of the file is the link target. -/
def writesLink (img : Image) (w : Walk) : Prop :=
  (typeflag img w.pos = 49 ∨ typeflag img w.pos = 50) ∧ fileSize img w.pos = 0 ∧
  linkTarget img w ≠ []

instance (img : Image) (w : Walk) : Decidable (writesLink img w) := inferInstanceAs (Decidable (_ ∧ _ ∧ _))

def isFileFlag (flag : UInt8) : Prop := flag = 48 ∨ flag = 49 ∨ flag = 50

instance (flag : UInt8) : Decidable (isFileFlag flag) := inferInstanceAs (Decidable (_ ∨ _ ∨ _))

/-- What one round of `tar_process` reads. The functions on the header read no further than its
block; the data are copied for long names and links, and handed to `vfs_write_file` for files. -/
def accesses (extract : Bool) (img : Image) (w : Walk) : List Access :=
  let pos := (w.pos + TAR_BLOCK) % 2 ^ 32
  if img.size < pos then []
  else .archive w.pos TAR_BLOCK ::
    (if blockIsZero img w.pos = true ∨ checksumOk img w.pos = false then []
    else if typeflag img w.pos = 76 ∨ typeflag img w.pos = 75 then [.archive pos (min (fileSize img w.pos) 511)]
    else if isFileFlag (typeflag img w.pos) ∧ extract = true then
      [if writesLink img w then .link (linkTarget img w).length else .archive pos (fileSize img w.pos)]
    else [])

/-- A header is at the position of the loop. -/
structure AtHeader (img : Image) (w : Walk) : Prop where
  room : (w.pos + TAR_BLOCK) % 2 ^ 32 ≤ img.size
  nonzero : blockIsZero img w.pos = false
  checksum : checksumOk img w.pos = true

/-- The archive holds what a round over the header uses: no block reaches over the largest position,
and the data of a long name, a long link or a file that is written are as long as the header says.
-/
structure Complete (extract : Bool) (img : Image) (w : Walk) : Prop where
  block : (w.pos + TAR_BLOCK) % 2 ^ 32 ≤ img.size → w.pos + TAR_BLOCK < 2 ^ 32
  copied : AtHeader img w → typeflag img w.pos = 76 ∨ typeflag img w.pos = 75 →
    w.pos + TAR_BLOCK + min (fileSize img w.pos) 511 ≤ img.size
  written : AtHeader img w → isFileFlag (typeflag img w.pos) → extract = true → ¬ writesLink img w →
    w.pos + TAR_BLOCK + fileSize img w.pos ≤ img.size

theorem cstr_length_le (n : ℕ) (s : Vfs.Str) : (cstr n s).length ≤ n :=
  (List.takeWhile_prefix _).length_le.trans (List.length_take_le n s)

theorem linkTarget_length_le (img : Image) (w : Walk) : (linkTarget img w).length ≤ 256 := by
  unfold linkTarget
  split
  · exact (cstr_length_le 255 _).trans (by decide)
  · exact (cstr_length_le 99 _).trans (by decide)

/-- The accesses of a round are inside exactly when the archive holds what it uses. -/
theorem inside_iff (hsize : img.size < 2 ^ 32) :
    (∀ a ∈ accesses extract img w, a.Inside img.size) ↔ Complete extract img w := by
  unfold accesses
  dsimp only
  by_cases hend : img.size < (w.pos + TAR_BLOCK) % 2 ^ 32
  · rw [if_pos hend]
    exact iff_of_true (fun a ha => by cases ha) ⟨fun h => absurd h (Nat.not_le.mpr hend),
      fun h => absurd h.room (Nat.not_le.mpr hend), fun h => absurd h.room (Nat.not_le.mpr hend)⟩
  have hroom := Nat.not_lt.mp hend
  rw [if_neg hend, List.forall_mem_cons]
  by_cases hwrap : w.pos + TAR_BLOCK < 2 ^ 32
  swap
  · refine iff_of_false (fun h => ?_) fun h => hwrap (h.block hroom)
    have hin : w.pos + TAR_BLOCK ≤ img.size := h.1
    omega
  rw [Nat.mod_eq_of_lt hwrap] at hroom ⊢
  have hblock : (Access.archive w.pos TAR_BLOCK).Inside img.size := hroom
  rw [and_iff_right hblock]
  by_cases hskip : blockIsZero img w.pos = true ∨ checksumOk img w.pos = false
  · rw [if_pos hskip]
    have hnot : ¬ AtHeader img w := fun h => by
      obtain hzero | hsum := hskip
      · rw [h.nonzero] at hzero
        cases hzero
      · rw [h.checksum] at hsum
        cases hsum
    exact iff_of_true (fun a ha => by cases ha) ⟨fun _ => hwrap, fun h => absurd h hnot, fun h => absurd h hnot⟩
  rw [if_neg hskip]
  obtain ⟨hzero, hsum⟩ := not_or.mp hskip
  have hheader : AtHeader img w := ⟨by rwa [Nat.mod_eq_of_lt
    hwrap], Bool.not_eq_true _ ▸ hzero, Bool.not_eq_false _ ▸ hsum⟩
  by_cases hcopy : typeflag img w.pos = 76 ∨ typeflag img w.pos = 75
  · have hfile : ¬ isFileFlag (typeflag img w.pos) := by
      obtain hflag | hflag := hcopy <;> rw [hflag] <;> decide
    rw [if_pos hcopy, List.forall_mem_singleton]
    exact ⟨fun h => ⟨fun _ => hwrap, fun _ _ => h, fun _ hf => absurd hf hfile⟩, fun h => h.copied hheader hcopy⟩
  rw [if_neg hcopy]
  by_cases hfile : isFileFlag (typeflag img w.pos) ∧ extract = true
  · rw [if_pos hfile, List.forall_mem_singleton]
    by_cases hlink : writesLink img w
    · rw [if_pos hlink]
      exact iff_of_true (linkTarget_length_le img w)
        ⟨fun _ => hwrap, fun _ hc => absurd hc hcopy, fun _ _ _ hn => absurd hlink hn⟩
    · rw [if_neg hlink]
      exact ⟨fun h => ⟨fun _ => hwrap, fun _ hc => absurd hc hcopy, fun _ _ _ _ => h⟩,
        fun h => h.written hheader hfile.1 hfile.2 hlink⟩
  · rw [if_neg hfile]
    exact iff_of_true (fun a ha => by cases ha)
      ⟨fun _ => hwrap, fun _ hc => absurd hc hcopy, fun _ hf he => absurd ⟨hf, he⟩ hfile⟩

/-- `tar_process` stays inside the archive and the buffer of the link target exactly when the
archive holds all that its headers announce and that is used. -/
theorem reads_inside_iff (hsize : img.size < 2 ^ 32) :
    (∀ w, Reached img w → ∀ a ∈ accesses extract img w, a.Inside img.size) ↔
      ∀ w, Reached img w → Complete extract img w :=
  forall₂_congr fun _ _ => inside_iff hsize

/-- An archive that ends behind the header of a file of 512 bytes. -/
def cutFile : Image where
  byte := fun i =>
    if 124 ≤ i ∧ i < 128 then [49, 48, 48, 48].getD (i - 124) 0
    else if 148 ≤ i ∧ i < 151 then [55, 54, 49].getD (i - 148) 0
    else if i = 156 then 48
    else 0
  size := 512

/-- Of a file whose data are missing, `vfs_write_file` gets the memory behind the archive. -/
theorem cutFile_reads_outside : ¬ ∀ (img : Image) (extract : Bool), img.size < 2 ^ 32 →
    ∀ w, Reached img w → ∀ a ∈ accesses extract img w, a.Inside img.size := by
  intro h
  have hmem : Access.archive 512 512 ∈ accesses true cutFile {} := by decide +kernel
  have hin : 512 + 512 ≤ 512 := h cutFile true (by decide) {} .start _ hmem
  exact absurd hin (by decide)

/-- The listing of the same archive reads the header only. -/
theorem cutFile_listed : cutFile.size < 2 ^ 32 ∧
    ((∀ w, Reached cutFile w → ∀ a ∈ accesses false cutFile w, a.Inside cutFile.size) ↔
      ∀ w, Reached cutFile w → Complete false cutFile w) :=
  ⟨by decide, reads_inside_iff (by decide)⟩

end ComputerOS.Tar
