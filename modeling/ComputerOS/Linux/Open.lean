import ComputerOS.Linux.Files

/-!
`open`. Whether a file is there, and how long it is, is read from a listing of its parent: at
most 64 entries, compared without regard to case. Where the listing does not show the file, it
is made anew, with one byte.
-/
namespace ComputerOS.Linux.Files

open Function

def ENOENT : ℤ := -2

def str (s : String) : Path := s.toList.map fun c => UInt8.ofNat c.toNat

/-- What `vfs_list` says of an entry. -/
structure Dirent where
  name : Path
  size : ℕ
deriving DecidableEq, Repr

/-- What the rest of the kernel answers during `open`: the path after its symbolic links, the
listings of directories, whether there is room for the buffers and on the device, and what a write
that fails leaves of the file (ext2 empties it first). `stack` is what stands behind the first 254
bytes of a long parent path. -/
structure OpenEnv where
  path : Option Path
  list : Path → Option (List Dirent)
  dirBuf : Bool := true
  sizeBuf : Bool := true
  created : Bool := true
  emptied : Bool := true
  left : Option (List UInt8) → Option (List UInt8) := id
  stack : Path := []

def toLower (c : UInt8) : UInt8 := if 65 ≤ c ∧ c ≤ 90 then c + 32 else c

/-- The index of the last slash, 0 if there is none. -/
def lastSlash (path : Path) : ℕ := path.length - (path.reverse.takeWhile (· ≠ 47)).length - 1

/-- The parent directory that `get_file_size` lists. -/
def sizeParent (env : OpenEnv) (path : Path) : Path :=
  if 0 < lastSlash path then
    if lastSlash path ≤ 254 then path.take (lastSlash path) else path.take 254 ++ env.stack
  else [47]

def sizeBase (path : Path) : Path := path.drop (lastSlash path + 1)

def sameName (a b : Path) : Bool := a.map toLower = b.map toLower

/-- A number of 32 bits as an `int`. -/
def toInt32 (n : ℕ) : ℤ := (n : ℤ).bmod (2 ^ 32)

def getFileSize (env : OpenEnv) (path : Path) : ℤ :=
  if env.sizeBuf = false then -1
  else
    match env.list (sizeParent env path) with
    | none => -1
    | some ents =>
      match (ents.take 64).find? fun e => sameName e.name (sizeBase path) with
      | none => -1
      | some e => toInt32 e.size

def isConsole (path : Path) : Bool :=
  path = str "/dev/tty" || path = str "/dev/console" || path = str "/dev/tty0" || path = str "/dev/tty1"

def isDir (env : OpenEnv) (path : Path) : Bool := env.dirBuf && (env.list path).isSome

def creat (flags : ℕ) : Bool := flags / 0x40 % 2 = 1

def trunc (flags : ℕ) : Bool := flags / 0x200 % 2 = 1

def cloexec (flags : ℕ) : Bool := flags / 0x80000 % 2 = 1

def writes (flags : ℕ) : Bool := flags % 2 = 1 || flags / 2 % 2 = 1 || creat flags

def written (env : OpenEnv) (ok : Bool) (files : Path → Option (List UInt8)) (path : Path) (data : List UInt8) :
    Path → Option (List UInt8) := update files path (if ok then some data else env.left (files path))

def openEntry (env : OpenEnv) (flags : ℕ) (path : Path) (size : ℕ) : Fd :=
  { flags := { used := true, dir := isDir env path, cloexec := cloexec flags }, path := path.take 255, size }

/-- `sys_linux_open` of a path other than the hosts file's, into the free entry `old`, or without
one; the error or the entry, and the files. -/
def sysOpen (env : OpenEnv) (flags : ℕ) (old : Option Fd) (files : Path → Option (List UInt8)) :
    (ℤ ⊕ Fd) × (Path → Option (List UInt8)) :=
  match env.path with
  | none => (.inl ENOENT, files)
  | some path =>
    match old with
    | none => (.inl EMFILE, files)
    | some old =>
      if isConsole path then (.inr { flags := { used := true, tty := true, cloexec := cloexec flags } }, files)
      else if isDir env path then (.inr (openEntry env flags path old.size), files)
      else
        let sz := getFileSize env path
        if writes flags = false then
          if sz < 0 then (.inl ENOENT, files) else (.inr (openEntry env flags path sz.toNat), files)
        else if sz < 0 then
          if creat flags then
            let files := written env env.created files path [0]
            if env.created then
              (.inr (openEntry env flags path 0),
                if trunc flags then written env env.emptied files path [] else files)
            else (.inl Linux.EIO, files)
          else (.inl ENOENT, files)
        else if trunc flags then (.inr (openEntry env flags path 0), written env env.emptied files path [])
        else (.inr (openEntry env flags path sz.toNat), files)

/-- No file is changed, at most the file at the path is made, and the new descriptor knows the size
of the file. -/
structure Harmless (env : OpenEnv) (flags : ℕ) (files : Path → Option (List UInt8))
    (out : (ℤ ⊕ Fd) × (Path → Option (List UInt8))) : Prop where
  kept : ∀ q c, files q = some c → out.2 q = some c
  made : ∀ q, files q = none → out.2 q ≠ none → env.path = some q ∧ creat flags = true
  size : ∀ e path, out.1 = .inr e → e.flags.dir = false → e.flags.tty = false →
    env.path = some path → ∃ c, out.2 path = some c ∧ e.size = c.length

/-- The entry that the parent's listing shows for a path: the first of its first 64 entries that
has the name but for the case. -/
def shown (env : OpenEnv) (path : Path) : Option Dirent :=
  if env.sizeBuf then
    (env.list (sizeParent env path)).bind fun ents => (ents.take 64).find? fun e => sameName e.name (sizeBase path)
  else none

/-- The entry shown for the path gives the length of the file that is there, or nothing is shown and
no file is made: without `O_CREAT`, or where the device cannot write, if there is no file at the
path or a write that fails spares it. -/
def SizeKnown (env : OpenEnv) (flags : ℕ) (old : Option Fd) (files : Path → Option (List UInt8)) : Prop :=
  ∀ path, env.path = some path → old.isSome → isConsole path = false → isDir env path = false →
    (∃ e c, shown env path = some e ∧ files path = some c ∧ toInt32 e.size = c.length) ∨
      (∀ e, shown env path = some e → toInt32 e.size < 0) ∧
        (creat flags = true → env.created = false ∧ ∀ c, files path = some c → env.left (some c) = some c)

variable {env : OpenEnv} {flags : ℕ} {old : Option Fd} {files : Path → Option (List UInt8)} {path : Path}

theorem harmless_inl (err : ℤ) : Harmless env flags files (.inl err, files) :=
  ⟨fun _ _ h => h, fun _ h hne => absurd h hne, fun _ _ h => by cases h⟩

theorem harmless_other {e : Fd} (h : e.flags.dir = true ∨ e.flags.tty = true) :
    Harmless env flags files (.inr e, files) := by
  refine ⟨fun _ _ h => h, fun _ h hne => absurd h hne, fun e' _ he hdir htty => ?_⟩
  obtain rfl := Sum.inr.inj he
  rcases h with h | h
  · rw [h] at hdir
    cases hdir
  · rw [h] at htty
    cases htty

theorem getFileSize_eq (env : OpenEnv) (path : Path) :
    getFileSize env path = match shown env path with
      | none => -1
      | some e => toInt32 e.size := by
  unfold getFileSize shown
  cases hbuf : env.sizeBuf with
  | false => rfl
  | true =>
    rw [if_neg (by decide), if_pos rfl]
    cases env.list (sizeParent env path) with
    | none => rfl
    | some ents => rfl

theorem shown_iff (env : OpenEnv) (path : Path) (files : Path → Option (List UInt8)) (made : Prop) :
    ((∃ e c, shown env path = some e ∧ files path = some c ∧ toInt32 e.size = c.length) ∨
        (∀ e, shown env path = some e → toInt32 e.size < 0) ∧ made) ↔
      (∃ c, files path = some c ∧ getFileSize env path = c.length) ∨ getFileSize env path < 0 ∧ made := by
  rw [getFileSize_eq]
  cases shown env path with
  | none =>
    refine or_congr (iff_of_false ?_ ?_) (and_congr_left' (iff_of_true (fun e he => by cases he) (by decide)))
    · rintro ⟨e, c, he, -⟩
      cases he
    · rintro ⟨c, -, hc⟩
      dsimp only at hc
      omega
  | some e =>
    refine or_congr ⟨?_, ?_⟩ (and_congr_left' ⟨fun h => h e rfl, fun h e' he => Option.some.inj he ▸ h⟩)
    · rintro ⟨e', c, he, hc, hlen⟩
      obtain rfl := Option.some.inj he
      exact ⟨c, hc, hlen⟩
    · rintro ⟨c, hc, hlen⟩
      exact ⟨e, c, rfl, hc, hlen⟩

/-- Opening a file that the lookup finds. -/
theorem harmless_found {n : ℕ} (hpath : env.path = some path) (hdir : isDir env path = false) :
    Harmless env flags files (.inr (openEntry env flags path n), files) ↔ ∃ c, files path = some c ∧ n = c.length := by
  constructor
  · intro h
    exact h.size _ path rfl hdir rfl hpath
  · rintro ⟨c, hc, hn⟩
    refine ⟨fun _ _ h => h, fun _ h hne => absurd h hne, fun e p he _ _ hp => ?_⟩
    obtain rfl := Sum.inr.inj he
    rw [hpath] at hp
    obtain rfl := Option.some.inj hp
    exact ⟨c, hc, hn⟩

/-- A file that is made has one byte, and the descriptor says none. -/
theorem not_harmless_made (hpath : env.path = some path) (hdir : isDir env path = false) :
    ¬ Harmless env flags files (.inr (openEntry env flags path 0), written env true files path [0]) := by
  intro h
  obtain ⟨c, hc, hsize⟩ := h.size _ path rfl hdir rfl hpath
  have hnew : written env true files path [0] path = some [0] := update_self _ _ _
  change written env true files path [0] path = some c at hc
  rw [hnew] at hc
  rw [← Option.some.inj hc] at hsize
  cases hsize

theorem harmless_failed (hpath : env.path = some path) (hcreat : creat flags = true) (err : ℤ) (data : List UInt8) :
    Harmless env flags files (.inl err, written env false files path data) ↔
      ∀ c, files path = some c → env.left (some c) = some c := by
  have hself : written env false files path data path = env.left (files path) := update_self _ _ _
  constructor
  · intro h c hc
    have hkept := h.kept path c hc
    dsimp only at hkept
    rwa [hself, hc] at hkept
  · intro h
    refine ⟨fun q c hq => ?_, fun q hq hne => ?_, fun _ _ he => by cases he⟩
    · by_cases hqp : q = path
      · subst hqp
        dsimp only
        rw [hself, hq]
        exact h c hq
      · exact (update_of_ne hqp _ _).trans hq
    · by_cases hqp : q = path
      · exact ⟨hqp ▸ hpath, hcreat⟩
      · exact absurd ((update_of_ne hqp _ _).trans hq) hne

/-- Without `O_TRUNC`, `open` is harmless exactly when the lookup knows the size of the file. -/
theorem open_harmless_iff (env : OpenEnv) (flags : ℕ) (old : Option Fd) (files : Path → Option (List UInt8))
    (htrunc : trunc flags = false) : Harmless env flags files (sysOpen env flags old files) ↔
    SizeKnown env flags old files := by
  unfold sysOpen SizeKnown
  cases hpath : env.path with
  | none => exact iff_of_true (harmless_inl _) fun p hp => by cases hp
  | some path =>
    cases old with
    | none => exact iff_of_true (harmless_inl _) fun p _ hold => by cases hold
    | some old =>
      dsimp only
      by_cases hcon : isConsole path = true
      · rw [if_pos hcon]
        refine iff_of_true (harmless_other (Or.inr rfl)) fun p hp _ hc => ?_
        obtain rfl := Option.some.inj hp
        rw [hcon] at hc
        cases hc
      rw [if_neg hcon]
      by_cases hdir : isDir env path = true
      · rw [if_pos hdir]
        refine iff_of_true (harmless_other (Or.inl hdir)) fun p hp _ _ hd => ?_
        obtain rfl := Option.some.inj hp
        rw [hdir] at hd
        cases hd
      rw [if_neg hdir]
      rw [Bool.not_eq_true] at hcon hdir
      have hknown : ∀ P : Path → Prop, (∀ p, some path = some p → (some old).isSome →
          isConsole p = false → isDir env p = false → P p) ↔ P path := fun P =>
        ⟨fun h => h path rfl rfl hcon hdir, fun h p hp _ _ _ => Option.some.inj hp ▸ h⟩
      rw [hknown fun p => (∃ e c, shown env p = some e ∧ files p = some c ∧
        toInt32 e.size = c.length) ∨ (∀ e, shown env p = some e → toInt32 e.size < 0) ∧
          (creat flags = true → env.created = false ∧ ∀ c, files p = some c → env.left (some c) = some c), shown_iff]
      by_cases hneg : getFileSize env path < 0
      · have hno : ¬ ∃ c, files path = some c ∧ getFileSize env path = c.length := by
          rintro ⟨c, -, hc⟩
          omega
        rw [or_iff_right hno, and_iff_right hneg]
        by_cases hw : writes flags = false
        · have hcreat : creat flags = false := by
            unfold writes at hw
            rw [Bool.or_eq_false_iff] at hw
            exact hw.2
          rw [if_pos hw, if_pos hneg]
          exact iff_of_true (harmless_inl _) fun h => by rw [hcreat] at h; cases h
        rw [if_neg hw, if_pos hneg]
        by_cases hcreat : creat flags = true
        · rw [if_pos hcreat]
          by_cases hmade : env.created = true
          · rw [if_pos hmade, htrunc, if_neg (by decide), hmade]
            exact iff_of_false (not_harmless_made hpath hdir) fun h => by cases (h hcreat).1
          · rw [if_neg hmade]
            rw [Bool.not_eq_true] at hmade
            rw [hmade, harmless_failed hpath hcreat]
            exact ⟨fun h _ => ⟨rfl, h⟩, fun h => (h hcreat).2⟩
        · rw [if_neg hcreat]
          exact iff_of_true (harmless_inl _) fun h => absurd h hcreat
      · have hfound : Harmless env flags files (.inr (openEntry env flags path (getFileSize env path).toNat), files) ↔
            (∃ c, files path = some c ∧ getFileSize env path = c.length) ∨
              getFileSize env path < 0 ∧ (creat flags = true → env.created = false ∧
                ∀ c, files path = some c → env.left (some c) = some c) := by
          rw [harmless_found hpath hdir]
          constructor
          · rintro ⟨c, hc, hlen⟩
            exact Or.inl ⟨c, hc, by omega⟩
          · rintro (⟨c, hc, hlen⟩ | ⟨hlt, -⟩)
            · exact ⟨c, hc, by omega⟩
            · exact absurd hlt hneg
        by_cases hw : writes flags = false
        · rw [if_pos hw, if_neg hneg]
          exact hfound
        · rw [if_neg hw, if_neg hneg, htrunc, if_neg (by decide)]
          exact hfound

def entryPath (dir name : Path) : Path := if dir = [47] then 47 :: name else dir ++ 47 :: name

/-- The listings show every file once, under its name and with its length. -/
structure Mounted (env : OpenEnv) (files : Path → Option (List UInt8)) : Prop where
  nodup : ∀ dir ents, env.list dir = some ents → (ents.map Dirent.name).Nodup
  listed : ∀ dir ents name c, env.list dir = some ents → 47 ∉ name →
    files (entryPath dir name) = some c → ⟨name, c.length⟩ ∈ ents

/-- 64 empty files, and one more. -/
def crowd : List Dirent :=
  ((List.range 64).map fun i => ⟨[48 + UInt8.ofNat (i / 10), 48 + UInt8.ofNat (i % 10)], 0⟩) ++
  [⟨[122], 2⟩]

def crowdEnv : OpenEnv := { path := some [47, 122], list := fun dir => if dir = [47] then some crowd else none }

def crowdFiles : Path → Option (List UInt8)
  | 47 :: name => if name = [122] then some [1, 2] else if ⟨name, 0⟩ ∈ crowd then some [] else none
  | _ => none

theorem crowd_mounted : Mounted crowdEnv crowdFiles := by
  constructor
  · intro dir ents hents
    unfold crowdEnv at hents
    dsimp only at hents
    split at hents
    · obtain rfl := Option.some.inj hents
      decide +kernel
    · cases hents
  · intro dir ents name c hents _ hc
    unfold crowdEnv at hents
    dsimp only at hents
    split at hents
    · obtain rfl := Option.some.inj hents
      rename_i hdir
      unfold entryPath at hc
      rw [if_pos hdir] at hc
      change (if name = [122] then some [1, 2] else if ⟨name, 0⟩ ∈ crowd then some [] else none) = some c at hc
      split at hc
      · rename_i hname
        obtain rfl := Option.some.inj hc
        rw [hname]
        decide +kernel
      · split at hc
        · rename_i hmem
          obtain rfl := Option.some.inj hc
          exact hmem
        · cases hc
    · cases hents

/-- Opening the file behind the 64 entries with `O_CREAT` replaces its content. -/
theorem crowded_file_lost : ¬ ∀ env flags old files, Mounted env files → trunc flags = false →
    Harmless env flags files (sysOpen env flags old files) := by
  intro h
  have hkept := (h crowdEnv 0x41 (some {}) crowdFiles crowd_mounted (by decide)).kept [47, 122] [1, 2] rfl
  revert hkept
  decide +kernel

/-- In an uncrowded directory the file keeps its content. -/
theorem sparse_file_kept :
    let env : OpenEnv := { path := some [47, 122], list := fun dir => if dir = [47] then some [⟨[122], 2⟩] else none }
    let files : Path → Option (List UInt8) := update (fun _ => none) [47, 122] (some [1, 2])
    trunc 0x41 = false ∧ Harmless env 0x41 files (sysOpen env 0x41 (some {}) files) := by
  intro env files
  refine ⟨by decide, (open_harmless_iff env 0x41 (some {}) files (by decide)).mpr ?_⟩
  intro path hpath _ _ _
  obtain rfl := Option.some.inj hpath
  exact Or.inl ⟨⟨[122], 2⟩, [1, 2], by decide +kernel, update_self _ _ _, by decide⟩

end ComputerOS.Linux.Files
