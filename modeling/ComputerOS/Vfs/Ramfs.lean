import ComputerOS.Lib.Assoc
import ComputerOS.Vfs.Resolve

/-!
The filesystem in memory, mounted at `/tmp`: 64 slots, each with a name and the bytes of one file. A
write claims a slot and frees the old buffer before it asks for the new one, and gives the slot up
when it gets none. For a new file that leaves everything as it was; a file that was there before is
gone.
-/
namespace ComputerOS.Vfs

open Function

def RAMFS_MAX_FILES : ℕ := 64
def RAMFS_MAX_SIZE : ℕ := 4 * 1024 * 1024
def RAMFS_NAME_MAX : ℕ := 256

/-- `ramfs_file_t`; `data` is the heap buffer, if there is one. -/
structure File where
  used : Bool
  name : Str
  size : ℕ
  data : Option (List UInt8)
deriving DecidableEq, Inhabited

def ramfsInit : List File := List.replicate RAMFS_MAX_FILES { used := false, name := [], size := 0, data := none }

def bare (path : Str) : Str := if path.head? = some slash then path.drop 1 else path

def isRoot (path : Str) : Bool := bare path = []

def findFile (files : List File) (name : Str) : Option ℕ := files.findIdx? fun f => f.used && f.name = name

def ramfsReadFile (files : List File) (path : Str) (max : ℕ) : Option (List UInt8) :=
  if isRoot path then none
  else do
    let i ← findFile files (bare path)
    let f := files.getD i default
    let data ← f.data
    some (data.take (if f.size < max then f.size else max))

/-- The end of `ramfs_write_file`, in the slot it has chosen: the old buffer is freed, a new one
asked for. -/
def fillFile (alloc : ℕ → Bool) (data : List UInt8) (f : File) : ℤ × File :=
  let f := { f with data := none }
  if alloc (if data.length = 0 then 1 else data.length) then
    (data.length, { f with data := some data, size := data.length })
  else (-1, { f with used := false })

/-- `ramfs_write_file` of bytes that no slot owns; `alloc` says which requests `kmalloc` grants. -/
def ramfsWriteFile (alloc : ℕ → Bool) (files : List File) (path : Str) (data : List UInt8) : ℤ × List File :=
  if isRoot path then (-1, files)
  else if RAMFS_MAX_SIZE < data.length then (-1, files)
  else if RAMFS_NAME_MAX ≤ (bare path).length then (-1, files)
  else match findFile files (bare path) with
    | some i =>
        let (r, f) := fillFile alloc data (files.getD i default)
        (r, files.set i f)
    | none =>
        match files.findIdx? fun f => !f.used with
        | none => (-1, files)
        | some i =>
            let (r, f) := fillFile alloc data { used := true, name := bare path, size := 0, data := none }
            (r, files.set i f)

def ramfsDeleteFile (files : List File) (path : Str) : ℤ × List File :=
  if isRoot path then (-1, files)
  else match findFile files (bare path) with
    | none => (-1, files)
    | some i => (0, files.set i { files.getD i default with data := none, used := false })

/-- The files: name, size and bytes of every slot in use. -/
def filesIn (files : List File) : List (Str × ℕ × Option (List UInt8)) :=
  (files.filter (·.used)).map fun f => (f.name, f.size, f.data)

def lookFile (files : List File) (name : Str) : Option (ℕ × Option (List UInt8)) := Assoc.toMap (filesIn files) name

variable {alloc : ℕ → Bool} {files pre post : List File} {path name : Str} {data : List UInt8} {f f' : File} {i : ℕ}

theorem filesIn_append : filesIn (pre ++ f :: post) =
    filesIn pre ++ (if f.used then [(f.name, f.size, f.data)] else []) ++ filesIn post := by
  unfold filesIn
  rw [List.filter_append, List.filter_cons, List.map_append]
  split <;> simp

theorem filesIn_used (h : f.used = true) :
    filesIn (pre ++ f :: post) = filesIn pre ++ (f.name, f.size, f.data) :: filesIn post := by
  rw [filesIn_append, if_pos h, List.append_assoc, List.singleton_append]

theorem filesIn_unused (h : f.used = false) : filesIn (pre ++ f :: post) = filesIn pre ++ filesIn post := by
  rw [filesIn_append, if_neg (by simp [h]), List.append_nil]

theorem findIdx_split {p : File → Bool} (h : files.findIdx? p = some i) :
    ∃ pre f post, files = pre ++ f :: post ∧ p f = true ∧ files.getD i default = f ∧
      ∀ f', files.set i f' = pre ++ f' :: post := by
  obtain ⟨hlt, hp, -⟩ := List.findIdx?_eq_some_iff_getElem.mp h
  refine ⟨files.take i, files[i], files.drop (i + 1), ?_, hp, ?_, fun f' => ?_⟩
  · rw [List.getElem_cons_drop, List.take_append_drop]
  · rw [List.getD_eq_getElem?_getD, List.getElem?_eq_getElem hlt, Option.getD_some]
  · exact List.set_eq_take_append_cons_drop .. |>.trans (if_pos hlt)

theorem findFile_none (h : findFile files name = none) : name ∉ (filesIn files).map Prod.fst := by
  intro hmem
  unfold filesIn at hmem
  rw [List.map_map, List.mem_map] at hmem
  obtain ⟨f, hf, rfl⟩ := hmem
  obtain ⟨hin, hused⟩ := List.mem_filter.mp hf
  have := List.findIdx?_eq_none_iff.mp h f hin
  simp [hused] at this

theorem findFile_some (h : findFile files name = some i) : ∃ pre f post, files = pre ++ f :: post ∧ f.used = true ∧
    f.name = name ∧ files.getD i default = f ∧ ∀ f', files.set i f' = pre ++ f' :: post := by
  obtain ⟨pre, f, post, hs, hp, hget, hset⟩ := findIdx_split h
  obtain ⟨hused, hname⟩ : f.used = true ∧ f.name = name := by simpa using hp
  exact ⟨pre, f, post, hs, hused, hname, hget, hset⟩

/-- The size asked of `kmalloc`. -/
def requestOf (data : List UInt8) : ℕ := if data.length = 0 then 1 else data.length

/-- The write passes its checks and there is a file with the name. -/
structure Overwrites (files : List File) (path : Str) (data : List UInt8) : Prop where
  inside : isRoot path = false
  fits : data.length ≤ RAMFS_MAX_SIZE
  named : (bare path).length < RAMFS_NAME_MAX
  exist : lookFile files (bare path) ≠ none

inductive Written (alloc : ℕ → Bool) (files : List File) (path : Str) (data : List UInt8) :
    ℤ → List (Str × ℕ × Option (List UInt8)) → Prop
  | refused (hold : ¬ Overwrites files path data) : Written alloc files path data (-1) (filesIn files)
  | lost {l₁ l₂ : List (Str × ℕ × Option (List UInt8))} {x : ℕ × Option (List UInt8)}
      (hold : Overwrites files path data)
      (hl : filesIn files = l₁ ++ (bare path, x) :: l₂) (halloc : alloc (requestOf data) = false) :
      Written alloc files path data (-1) (l₁ ++ l₂)
  | replaced {l₁ l₂ : List (Str × ℕ × Option (List UInt8))} {x : ℕ × Option (List UInt8)}
      (hl : filesIn files = l₁ ++ (bare path, x) :: l₂) (halloc : alloc (requestOf data) = true) :
      Written alloc files path data data.length (l₁ ++ (bare path, data.length, some data) :: l₂)
  | created {l₁ l₂ : List (Str × ℕ × Option (List UInt8))} (hl : filesIn files = l₁ ++ l₂)
      (hnew : bare path ∉ (filesIn files).map Prod.fst) :
      Written alloc files path data data.length (l₁ ++ (bare path, data.length, some data) :: l₂)

theorem fillFile_granted (h : alloc (requestOf data) = true) :
    fillFile alloc data f = ((data.length : ℤ), { f with data := some data, size := data.length }) := if_pos h

theorem fillFile_refused (h : alloc (requestOf data) = false) :
    fillFile alloc data f = (-1, { f with data := none, used := false }) := 
  if_neg (by rw [requestOf] at h; rw [h]; exact Bool.false_ne_true)

theorem ramfsWriteFile_written (alloc : ℕ → Bool) (files : List File) (path : Str) (data : List UInt8) :
    Written alloc files path data (ramfsWriteFile alloc files path data).1
      (filesIn (ramfsWriteFile alloc files path data).2) := by
  unfold ramfsWriteFile
  by_cases hroot : isRoot path = true
  · rw [if_pos hroot]
    exact .refused fun h => by simp [h.inside] at hroot
  rw [if_neg hroot]
  by_cases hsize : RAMFS_MAX_SIZE < data.length
  · rw [if_pos hsize]
    exact .refused fun h => absurd h.fits (Nat.not_le.mpr hsize)
  rw [if_neg hsize]
  by_cases hlen : RAMFS_NAME_MAX ≤ (bare path).length
  · rw [if_pos hlen]
    exact .refused fun h => absurd h.named (Nat.not_lt.mpr hlen)
  rw [if_neg hlen]
  cases hfind : findFile files (bare path) with
  | some i =>
    obtain ⟨pre, f, post, rfl, hused, hname, hget, hset⟩ := findFile_some hfind
    have hl : filesIn (pre ++ f :: post) = filesIn pre ++ (f.name, f.size, f.data) :: filesIn post := filesIn_used hused
    rw [hname] at hl
    dsimp only
    rw [hget, hset]
    cases halloc : alloc (requestOf data) with
    | true =>
      rw [fillFile_granted halloc, filesIn_used (by exact hused)]
      dsimp only
      rw [hname]
      exact .replaced hl halloc
    | false =>
      rw [fillFile_refused halloc, filesIn_unused rfl]
      refine .lost ⟨by simpa using hroot, Nat.not_lt.mp hsize, Nat.not_le.mp hlen, fun hnone => ?_⟩ hl halloc
      rw [lookFile, Assoc.toMap_eq_none, hl] at hnone
      simp at hnone
  | none =>
    have hnew := findFile_none hfind
    have hover : ¬ Overwrites files path data := fun h => h.exist (Assoc.toMap_eq_none.mpr hnew)
    cases hslot : files.findIdx? fun f => !f.used with
    | none => exact .refused hover
    | some i =>
      obtain ⟨pre, f, post, rfl, hfree, -, hset⟩ := findIdx_split hslot
      have hl : filesIn (pre ++ f :: post) = filesIn pre ++ filesIn post := filesIn_unused (by simpa using hfree)
      dsimp only
      rw [hset]
      cases halloc : alloc (requestOf data) with
      | true =>
        rw [fillFile_granted halloc, filesIn_used rfl]
        exact .created hl hnew
      | false =>
        rw [fillFile_refused halloc, filesIn_unused rfl, ← hl]
        exact .refused hover

/-- The states of the filesystem that calls lead to, whatever the allocator answers. -/
inductive RamfsReached : List File → Prop
  | init : RamfsReached ramfsInit
  | write {files : List File} (h : RamfsReached files) (alloc : ℕ → Bool) (path : Str) (data : List UInt8) :
      RamfsReached (ramfsWriteFile alloc files path data).2
  | delete {files : List File} (h : RamfsReached files) (path : Str) : RamfsReached (ramfsDeleteFile files path).2

/-- A write returns `-1` and every file is as before, or the size, and just the one file has
changed. -/
structure WriteAtomic (files files' : List File) (r : ℤ) (name : Str) (data : List UInt8) : Prop where
  answer : r = -1 ∨ r = data.length
  failed : r = -1 → lookFile files' = lookFile files ∧ Assoc.Unique (filesIn files')
  done : r = data.length →
    lookFile files' = update (lookFile files) name (some (data.length, some data)) ∧ Assoc.Unique (filesIn files')

theorem Written.unique {r : ℤ} {l : List (Str × ℕ × Option (List UInt8))} (h : Written alloc files path data r l)
    (hu : Assoc.Unique (filesIn files)) : Assoc.Unique l := by
  cases h with
  | refused => exact hu
  | lost _ hl => exact (Assoc.unique_insert.mp (hl ▸ hu)).2
  | replaced hl => exact Assoc.unique_insert.mpr (Assoc.unique_insert.mp (hl ▸ hu))
  | created hl hnew => exact Assoc.unique_insert.mpr ⟨hl ▸ hnew, hl ▸ hu⟩

theorem reached_unique (h : RamfsReached files) : Assoc.Unique (filesIn files) := by
  induction h with
  | init => exact List.nodup_nil
  | write _ alloc path data ih => exact (ramfsWriteFile_written alloc _ path data).unique ih
  | @delete files _ path ih =>
    unfold ramfsDeleteFile
    by_cases hroot : isRoot path = true
    · rwa [if_pos hroot]
    rw [if_neg hroot]
    cases hfind : findFile files (bare path) with
    | none => exact ih
    | some i =>
      obtain ⟨pre, f, post, rfl, hused, -, -, hset⟩ := findFile_some hfind
      dsimp only
      rw [hset, filesIn_unused rfl]
      rw [filesIn_used hused] at ih
      exact (Assoc.unique_insert.mp ih).2

theorem Written.atomic {r : ℤ} {l : List (Str × ℕ × Option (List UInt8))} (h : Written alloc files path data r l)
    (hu : Assoc.Unique (filesIn files)) :
    (r = -1 ∧ (Assoc.toMap l = lookFile files ↔ ¬ (Overwrites files path data ∧ alloc (requestOf data) = false))) ∨
    (r = data.length ∧ Assoc.toMap l = update (lookFile files) (bare path) (some (data.length, some data)) ∧
      ¬ (Overwrites files path data ∧ alloc (requestOf data) = false)) := by
  have hlook : lookFile files = Assoc.toMap (filesIn files) := rfl
  cases h with
  | refused hold => exact Or.inl ⟨rfl, fun _ hboth => hold hboth.1, fun _ => rfl⟩
  | @lost l₁ l₂ x hold hl halloc =>
    -- the file itself is gone
    refine Or.inl ⟨rfl, fun hsame _ => ?_, fun hnot => absurd ⟨hold, halloc⟩ hnot⟩
    rw [hl] at hu
    have hgone := congrFun (Assoc.toMap_erase hu) (bare path)
    rw [update_self, hsame] at hgone
    exact hold.exist hgone
  | replaced hl halloc =>
    refine Or.inr ⟨rfl, ?_, fun hboth => by simp [halloc] at hboth⟩
    rw [hlook, hl]
    exact Assoc.toMap_replace (hl ▸ hu)
  | created hl hnew =>
    refine Or.inr ⟨rfl, ?_, fun hboth => hboth.1.exist (Assoc.toMap_eq_none.mpr hnew)⟩
    rw [hlook, hl]
    exact Assoc.toMap_insert (hl ▸ hnew)

/-- A write is atomic unless it replaces a file and the allocator refuses the new buffer. -/
theorem write_atomic_iff (h : RamfsReached files) :
    WriteAtomic files (ramfsWriteFile alloc files path data).2
      (ramfsWriteFile alloc files path data).1 (bare path) data ↔
      ¬ (Overwrites files path data ∧ alloc (requestOf data) = false) := by
  have hu := reached_unique h
  have hw := ramfsWriteFile_written alloc files path data
  have hu' := hw.unique hu
  have hsize : (data.length : ℤ) ≠ -1 := by omega
  rcases hw.atomic hu with ⟨hr, hiff⟩ | ⟨hr, hmap, hnot⟩
  · refine ⟨fun hatomic => hiff.mp (hatomic.failed hr).1, fun hnot => ⟨Or.inl hr, fun _ => ⟨hiff.mpr hnot, hu'⟩, ?_⟩⟩
    exact fun hdone => absurd (hdone.symm.trans hr) hsize
  · refine ⟨fun _ => hnot, fun _ => ⟨Or.inr hr, fun hfail => ?_, fun _ => ⟨hmap, hu'⟩⟩⟩
    exact absurd (hr.symm.trans hfail) hsize

/-- The file `/f` with one byte. -/
def ramfsOne : List File := (ramfsWriteFile (fun _ => true) ramfsInit [slash, 102] [7]).2

/-- A second write of `/f` for which there is no memory returns `-1`, and the file is gone. -/
theorem write_loses_file : RamfsReached ramfsOne ∧ lookFile ramfsOne [102] = some (1, some [7]) ∧
    (ramfsWriteFile (fun _ => false) ramfsOne [slash, 102] [8]).1 = -1 ∧
    lookFile (ramfsWriteFile (fun _ => false) ramfsOne [slash, 102] [8]).2 [102] = none ∧
    ¬ WriteAtomic ramfsOne (ramfsWriteFile (fun _ => false) ramfsOne [slash, 102] [8]).2
      (ramfsWriteFile (fun _ => false) ramfsOne [slash, 102] [8]).1 [102] [8] := by
  have hold : lookFile ramfsOne [102] = some (1, some [7]) := by decide
  have hret : (ramfsWriteFile (fun _ => false) ramfsOne [slash, 102] [8]).1 = -1 := by decide
  have hnew : lookFile (ramfsWriteFile (fun _ => false) ramfsOne [slash, 102] [8]).2 [102] = none := by decide
  refine ⟨.write .init _ _ _, hold, hret, hnew, fun hatomic => ?_⟩
  have hsame := congrFun (hatomic.failed hret).1 [102]
  rw [hnew, hold] at hsame
  cases hsame

/-- A second write of `/f` with memory. -/
theorem write_atomic_one : WriteAtomic ramfsOne (ramfsWriteFile (fun _ => true) ramfsOne [slash, 102] [8, 9]).2
    (ramfsWriteFile (fun _ => true) ramfsOne [slash, 102] [8, 9]).1 (bare [slash, 102]) [8, 9] :=
  (write_atomic_iff (.write .init _ _ _)).mpr fun h => by cases h.2

end ComputerOS.Vfs
