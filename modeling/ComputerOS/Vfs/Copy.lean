import ComputerOS.Vfs.Resolve

/-!
Copying files. `vfs_cp` hands a copy inside one mount to that mount and copies
between two mounts through a buffer of its own; the buffer of `vop_cp`, the copy of the disk
filesystem, has the same size. Both read once, into the buffer, and write what they read.
-/
namespace ComputerOS.Vfs

/-- The operations of a mount that copying uses, on the state `σ` of all mounts;
`none` is an operation the mount does not have. `readFile` gives the bytes it puts into the
buffer, `none` when it returns a negative number. -/
structure Ops (σ : Type) where
  readFile : Option (Str → ℕ → σ → Option (List UInt8) × σ)
  writeFile : Option (Str → List UInt8 → σ → ℤ × σ)
  cp : Option (Str → Str → σ → ℤ × σ)

variable {σ : Type}

/-- Read a file into a buffer of 65536 bytes and write the buffer to another. -/
def copyBuffer (read : Str → ℕ → σ → Option (List UInt8) × σ) (write : Str → List UInt8 → σ → ℤ × σ)
    (src dst : Str) (s : σ) : ℤ × σ :=
  match read src 65536 s with
  | (none, s) => (-1, s)
  | (some data, s) => write dst data s

def vopCp (read : Str → ℕ → σ → Option (List UInt8) × σ) (write : Str → List UInt8 → σ → ℤ × σ)
    (src dst : Str) (s : σ) : ℤ × σ :=
  match copyBuffer read write src dst s with
  | (r, s) => (if r < 0 then -1 else 0, s)

def vfsCp (mounts : List Mount) (ops : ℕ → Ops σ) (cwd src dst : Str) (s : σ) : ℤ × σ :=
  match resolveRoute mounts cwd src 256, resolveRoute mounts cwd dst 256 with
  | some (i, ssub), some (j, dsub) =>
      if i = j then
        match (ops i).cp with
        | none => (-1, s)
        | some cp => cp ssub dsub s
      else
        match (ops i).readFile, (ops j).writeFile with
        | some read, some write => copyBuffer read write ssub dsub s
        | _, _ => (-1, s)
  | _, _ => (-1, s)

section Copying

variable {mounts : List Mount} {ops : ℕ → Ops σ} {cwd src dst ssub dsub : Str}
  {read : Str → ℕ → σ → Option (List UInt8) × σ} {write : Str → List UInt8 → σ → ℤ × σ}

/-- A copy between two mounts, or inside a mount of the disk filesystem, that reads with
`read` and writes with `write`. -/
inductive CopyCase (mounts : List Mount) (ops : ℕ → Ops σ) (cwd src dst : Str)
    (read : Str → ℕ → σ → Option (List UInt8) × σ) (write : Str → List UInt8 → σ → ℤ × σ)
    (ssub dsub : Str) : Prop
  | cross {i j : ℕ} (hsrc : resolveRoute mounts cwd src 256 = some (i, ssub))
      (hdst : resolveRoute mounts cwd dst 256 = some (j, dsub)) (hne : i ≠ j)
      (hread : (ops i).readFile = some read) (hwrite : (ops j).writeFile = some write)
  | cfs {i : ℕ} (hsrc : resolveRoute mounts cwd src 256 = some (i, ssub))
      (hdst : resolveRoute mounts cwd dst 256 = some (i, dsub))
      (hcp : (ops i).cp = some (vopCp read write))

theorem vfsCp_eq (h : CopyCase mounts ops cwd src dst read write ssub dsub) (s : σ) :
    (vfsCp mounts ops cwd src dst s).2 = (copyBuffer read write ssub dsub s).2 ∧
    (0 ≤ (vfsCp mounts ops cwd src dst s).1 ↔ 0 ≤ (copyBuffer read write ssub dsub s).1) := by
  cases h with
  | cross hsrc hdst hne hread hwrite =>
    simp only [vfsCp, hsrc, hdst, if_neg hne, hread, hwrite, and_self]
  | cfs hsrc hdst hcp =>
    simp only [vfsCp, hsrc, hdst, if_pos, hcp, vopCp]
    refine ⟨trivial, ?_⟩
    split_ifs with hneg <;> omega

/-- A successful copy has the bytes `d` of its source exactly when these fit the buffer; it
does not succeed when the destination refuses what fits. `contents` is what a read of the
destination in full yields. -/
theorem vfsCp_copies_iff (h : CopyCase mounts ops cwd src dst read write ssub dsub) {s : σ}
    {d : List UInt8} (hread : ∀ max, (read ssub max s).1 = some (d.take max))
    (contents : σ → Option (List UInt8))
    (hwrite : ∀ data, 0 ≤ (write dsub data (read ssub 65536 s).2).1 →
      contents (write dsub data (read ssub 65536 s).2).2 = some data) :
    (0 ≤ (vfsCp mounts ops cwd src dst s).1 →
      contents (vfsCp mounts ops cwd src dst s).2 = some d) ↔
    d.length ≤ 65536 ∨ (write dsub (d.take 65536) (read ssub 65536 s).2).1 < 0 := by
  obtain ⟨hstate, hret⟩ := vfsCp_eq h s
  have hcopy : copyBuffer read write ssub dsub s = write dsub (d.take 65536) (read ssub 65536 s).2 := by
    have hpair : read ssub 65536 s = (some (d.take 65536), (read ssub 65536 s).2) :=
      Prod.ext (hread 65536) rfl
    rw [copyBuffer, hpair]
  rw [hstate, hret, hcopy]
  constructor
  · intro hok
    by_cases hneg : (write dsub (d.take 65536) (read ssub 65536 s).2).1 < 0
    · exact Or.inr hneg
    · left
      have hall := hok (by omega)
      rw [hwrite _ (by omega)] at hall
      have hlen := congrArg List.length (Option.some.inj hall)
      rw [List.length_take] at hlen
      omega
  · rintro (hlen | hneg) hok
    · rw [hwrite _ hok, List.take_of_length_le hlen]
    · omega

end Copying

/-- Whole files in memory, by mount and path. -/
abbrev Files := ℕ → Str → Option (List UInt8)

def Files.readFile (i : ℕ) (path : Str) (max : ℕ) (s : Files) : Option (List UInt8) × Files :=
  ((s i path).map (List.take max), s)

def Files.writeFile (i : ℕ) (path : Str) (data : List UInt8) (s : Files) : ℤ × Files :=
  (data.length, Function.update s i (Function.update (s i) path (some data)))

/-- Mounts that keep whole files, with the copy of the disk filesystem. -/
def Files.mountOps (i : ℕ) : Ops Files where
  readFile := some (Files.readFile i)
  writeFile := some (Files.writeFile i)
  cp := some (vopCp (Files.readFile i) (Files.writeFile i))

theorem Files.writeFile_correct (i : ℕ) (path : Str) (data : List UInt8) (s : Files) :
    (Files.writeFile i path data s).2 i path = some data := by
  simp [Files.writeFile]

def twoMounts : List Mount := [⟨[slash], true, none⟩, ⟨[slash, 116], true, none⟩]

/-- The file `/f` of the root mount, with `n` bytes. -/
def oneFile (n : ℕ) : Files := fun i path =>
  if i = 0 ∧ path = [slash, 102] then some (List.replicate n 7) else none

theorem oneFile_cross : CopyCase twoMounts Files.mountOps [slash] [slash, 102] [slash, 116, slash, 102]
    (Files.readFile 0) (Files.writeFile 1) [slash, 102] [slash, 102] :=
  .cross (i := 0) (j := 1) (by decide) (by decide) (by decide) rfl rfl

theorem oneFile_same : CopyCase twoMounts Files.mountOps [slash] [slash, 102] [slash, 103]
    (Files.readFile 0) (Files.writeFile 0) [slash, 102] [slash, 103] :=
  .cfs (i := 0) (by decide) (by decide) rfl

theorem oneFile_read (n max : ℕ) :
    (Files.readFile 0 [slash, 102] max (oneFile n)).1 = some ((List.replicate n 7).take max) := rfl

/-- A file that fills the buffer is copied to the other mount and inside its own. -/
theorem fullBuffer_copied :
    (0 ≤ (vfsCp twoMounts Files.mountOps [slash] [slash, 102] [slash, 116, slash, 102] (oneFile 65536)).1 →
      (vfsCp twoMounts Files.mountOps [slash] [slash, 102] [slash, 116, slash, 102] (oneFile 65536)).2 1 [slash, 102] =
        some (List.replicate 65536 7)) ∧
    (0 ≤ (vfsCp twoMounts Files.mountOps [slash] [slash, 102] [slash, 103] (oneFile 65536)).1 →
      (vfsCp twoMounts Files.mountOps [slash] [slash, 102] [slash, 103] (oneFile 65536)).2 0
        [slash, 103] = some (List.replicate 65536 7)) := by
  have hlen : (List.replicate 65536 (7 : UInt8)).length ≤ 65536 := by rw [List.length_replicate]
  constructor
  · exact (vfsCp_copies_iff oneFile_cross (oneFile_read 65536) (fun s => s 1 [slash, 102])
      fun data _ => Files.writeFile_correct 1 _ data _).mpr (Or.inl hlen)
  · exact (vfsCp_copies_iff oneFile_same (oneFile_read 65536) (fun s => s 0 [slash, 103])
      fun data _ => Files.writeFile_correct 0 _ data _).mpr (Or.inl hlen)

/-- Of a file one byte longer than the buffer, either copy succeeds without the last byte. -/
theorem overfull_not_copied :
    (0 ≤ (vfsCp twoMounts Files.mountOps [slash] [slash, 102] [slash, 116, slash, 102]
      (oneFile 65537)).1 ∧ (vfsCp twoMounts Files.mountOps [slash] [slash, 102]
        [slash, 116, slash, 102] (oneFile 65537)).2 1 [slash, 102] ≠ oneFile 65537 0 [slash, 102]) ∧
    (0 ≤ (vfsCp twoMounts Files.mountOps [slash] [slash, 102] [slash, 103] (oneFile 65537)).1 ∧
      (vfsCp twoMounts Files.mountOps [slash] [slash, 102] [slash, 103] (oneFile 65537)).2 0
        [slash, 103] ≠ oneFile 65537 0 [slash, 102]) := by
  have hcopy : ∀ j path, copyBuffer (Files.readFile 0) (Files.writeFile j) [slash, 102] path (oneFile 65537) =
      Files.writeFile j path ((List.replicate 65537 7).take 65536) (oneFile 65537) := fun _ _ => rfl
  have hshort : some ((List.replicate 65537 (7 : UInt8)).take 65536) ≠ some (List.replicate 65537 7) := by
    intro h
    have hlen := congrArg List.length (Option.some.inj h)
    rw [List.length_take, List.length_replicate] at hlen
    omega
  obtain ⟨hstate, hret⟩ := vfsCp_eq oneFile_cross (oneFile 65537)
  obtain ⟨hstate', hret'⟩ := vfsCp_eq oneFile_same (oneFile 65537)
  rw [hstate, hret, hstate', hret', hcopy, hcopy, Files.writeFile_correct, Files.writeFile_correct]
  exact ⟨⟨Int.natCast_nonneg _, hshort⟩, Int.natCast_nonneg _, hshort⟩

end ComputerOS.Vfs
