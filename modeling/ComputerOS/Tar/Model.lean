import ComputerOS.Vfs.Resolve

/-!
The tar extractor. `tar_process` walks the blocks of an archive in memory and hands a path to
the VFS for every directory and file of it. A string is the list of its bytes before the
terminator; positions are 32-bit and wrap, so that the walk need not end, and `members` says
what a number of its rounds comes to.
-/
namespace ComputerOS.Tar

open Vfs (Str slash)

def TAR_BLOCK : ℕ := 512

/-- The memory from `data` on, of which `size` bytes are the archive. -/
structure Image where
  byte : ℕ → UInt8
  size : ℕ

def Image.bytes (img : Image) (pos n : ℕ) : Str := (List.range n).map fun i => img.byte (pos + i)

/-- The string in a field of at most `n` bytes. -/
def cstr (n : ℕ) (s : Str) : Str := (s.take n).takeWhile (· ≠ 0)

def octalToUint (s : Str) : ℕ :=
  (s.takeWhile fun c => 48 ≤ c ∧ c ≤ 55).foldl (fun v c => v * 8 % 2 ^ 32 + (c.toNat - 48)) 0

def blockIsZero (img : Image) (pos : ℕ) : Bool := (img.bytes pos TAR_BLOCK).all (· = 0)

/-- `checksum_ok`: the checksum field itself counts as spaces. -/
def checksumOk (img : Image) (pos : ℕ) : Bool :=
  ((List.range TAR_BLOCK).map fun i =>
    if 148 ≤ i ∧ i < 156 then 32 else (img.byte (pos + i)).toNat).sum = octalToUint (img.bytes (pos + 148) 8)

/-- `build_name`; the buffer of 512 bytes is never full. Without a prefix the last byte of the
field is left out. -/
def buildName (img : Image) (pos : ℕ) : Str :=
  if img.bytes (pos + 257) 5 = [117, 115, 116, 97, 114] ∧ img.byte (pos + 345) ≠ 0 then
    cstr 155 (img.bytes (pos + 345) 155) ++ slash :: cstr 100 (img.bytes pos 100)
  else cstr 99 (img.bytes pos 100)

/-- `while (i > 1 && out[i-1] == '/') i--`, on the reversed text. -/
def stripRev : Str → Str
  | c :: d :: rest => if c = slash then stripRev (d :: rest) else c :: d :: rest
  | s => s

def strip (s : Str) : Str := (stripRev s.reverse).reverse

def joinPath (dir entry : Str) (outsz : ℕ) : Str :=
  let out := strip (dir.take (outsz - 1))
  let out := if out.length < outsz - 1 then out ++ [slash] else out
  strip (out ++ (entry.dropWhile (· = slash)).take (outsz - 1 - out.length))

/-- One more byte in the buffer of `mkdir_p`. -/
def put (buf : Str) (c : UInt8) : Str := if buf.length < 255 then buf ++ [c] else buf

/-- The loop of `mkdir_p` inside a component: the paths it passes to `vfs_mkdir`. -/
def mkdirLoop (buf : Str) : Str → List Str
  | [] => if 1 < buf.length then [buf] else []
  | c :: rest =>
      if c = slash then
        (if 1 < buf.length then [buf] else []) ++ (if rest = [] then [] else mkdirLoop (put buf slash) rest)
      else mkdirLoop (put buf c) rest

def mkdirP (path : Str) : List Str :=
  let buf := if path.head? = some slash then [slash] else []
  let rest := if path.head? = some slash then path.tail else path
  if rest = [] then [] else mkdirLoop buf rest

/-- The parent of a path, unless it is the root: the path up to its last separator. -/
def parentOf (path : Str) : Option Str :=
  let upTo := (path.reverse.dropWhile (· ≠ slash)).reverse
  if 1 < upTo.length then some upTo.dropLast else none

/-- The directories that are made before the file at `path` is written. -/
def mkdirParents (path : Str) : List Str :=
  match parentOf path with
  | some parent => mkdirP parent
  | none => []

/-- What is extracted: a directory, or a file with its content. -/
inductive Member
  | dir (name : Str)
  | file (name content : Str)
deriving DecidableEq, Repr

def Member.name : Member → Str
  | .dir name => name
  | .file name _ => name

def Member.isFile : Member → Bool
  | .dir _ => false
  | .file .. => true

/-- The variables of the loop of `tar_process`; a long name or link that is there was read
from the block before. -/
structure Walk where
  pos : ℕ := 0
  entries : ℕ := 0
  zeroBlocks : ℕ := 0
  longname : Option Str := none
  longlink : Option Str := none
deriving DecidableEq, Repr

/-- One round of the loop; `none` is its end. -/
def step (img : Image) (w : Walk) : Option (Walk × Option Member) :=
  let pos := (w.pos + TAR_BLOCK) % 2 ^ 32
  if img.size < pos then none
  else if blockIsZero img w.pos then
    if 2 ≤ w.zeroBlocks + 1 then none
    else some ({ w with zeroBlocks := w.zeroBlocks + 1, pos }, none)
  else if checksumOk img w.pos = false then none
  else
    let name := w.longname.getD (buildName img w.pos)
    let linkname := match w.longlink with
      | some longlink => cstr 255 longlink
      | none => cstr 99 (img.bytes (w.pos + 157) 100)
    let fileSize := octalToUint (img.bytes (w.pos + 124) 12)
    let dataBlocks := (fileSize + TAR_BLOCK - 1) % 2 ^ 32 / TAR_BLOCK
    let next : Walk := { pos := (pos + dataBlocks * TAR_BLOCK) % 2 ^ 32, entries := w.entries }
    let typeflag := if img.byte (w.pos + 156) = 0 then 48 else img.byte (w.pos + 156)
    let copied := cstr 511 (img.bytes pos (min fileSize 511))
    -- 'L' and 'K' name the next entry; 'g' and 'x' are skipped
    if typeflag = 76 then some ({ next with longname := some copied }, none)
    else if typeflag = 75 then some ({ next with longlink := some copied }, none)
    else if typeflag = 103 ∨ typeflag = 120 then some (next, none)
    -- a directory has no data blocks
    else if typeflag = 53 then some ({ pos, entries := w.entries + 1 }, some (.dir name))
    else if typeflag = 48 ∨ typeflag = 49 ∨ typeflag = 50 then
      let content :=
        if (typeflag = 49 ∨ typeflag = 50) ∧ fileSize = 0 ∧ linkname ≠ [] then linkname
        else img.bytes pos fileSize
      some ({ next with entries := w.entries + 1 }, some (.file name content))
    else some (next, none)

/-- The members that `n` rounds of the loop come to. -/
def members (img : Image) : ℕ → Walk → List Member
  | 0, _ => []
  | n + 1, w => (step img w).elim [] fun r => r.2.toList ++ members img n r.1

inductive Call
  | mkdir (path : Str)
  | write (path content : Str)
deriving DecidableEq, Repr

def dispatch (dstDir : Str) : Member → List Call
  | .dir name => (mkdirP (joinPath dstDir name 256)).map .mkdir
  | .file name content =>
      let fullpath := joinPath dstDir name 256
      (mkdirParents fullpath).map .mkdir ++ [.write fullpath content]

def tarProcess (img : Image) (dstDir : Str) (extract : Bool) (n : ℕ) : List Call :=
  if extract then (members img n {}).flatMap (dispatch dstDir) else []

end ComputerOS.Tar

-- The fields of a header. A field holds a text when the text fills it or a zero byte follows the
-- text. A ustar header stores a path as a name with or without a prefix, and `build_name` puts the
-- two together. It leaves out the hundredth byte of a name without a prefix, and the reader of link
-- targets leaves out that of a link name.
namespace ComputerOS.Tar

open Vfs (Str slash)

/-- The name of the entry, which may come from the block before. -/
def entryName (img : Image) (w : Walk) : Str := w.longname.getD (buildName img w.pos)

/-- The link target of the entry, which may come from the block before. -/
def linkTarget (img : Image) (w : Walk) : Str :=
  match w.longlink with
  | some longlink => cstr 255 longlink
  | none => cstr 99 (img.bytes (w.pos + 157) 100)

def fileSize (img : Image) (pos : ℕ) : ℕ := octalToUint (img.bytes (pos + 124) 12)

/-- The bytes of the data blocks that follow a header. -/
def padded (size : ℕ) : ℕ := (size + TAR_BLOCK - 1) % 2 ^ 32 / TAR_BLOCK * TAR_BLOCK

def typeflag (img : Image) (pos : ℕ) : UInt8 := if img.byte (pos + 156) = 0 then 48 else img.byte (pos + 156)

theorem step_eq (img : Image) (w : Walk) : step img w =
    (let pos := (w.pos + TAR_BLOCK) % 2 ^ 32
    if img.size < pos then none
    else if blockIsZero img w.pos then
      if 2 ≤ w.zeroBlocks + 1 then none else some ({ w with zeroBlocks := w.zeroBlocks + 1, pos }, none)
    else if checksumOk img w.pos = false then none
    else
      let size := fileSize img w.pos
      let next : Walk := { pos := (pos + padded size) % 2 ^ 32, entries := w.entries }
      let flag := typeflag img w.pos
      let copied := cstr 511 (img.bytes pos (min size 511))
      if flag = 76 then some ({ next with longname := some copied }, none)
      else if flag = 75 then some ({ next with longlink := some copied }, none)
      else if flag = 103 ∨ flag = 120 then some (next, none)
      else if flag = 53 then some ({ pos, entries := w.entries + 1 }, some (.dir (entryName img w)))
      else if flag = 48 ∨ flag = 49 ∨ flag = 50 then
        some ({ next with entries := w.entries + 1 }, some (.file (entryName img w)
          (if (flag = 49 ∨ flag = 50) ∧ size = 0 ∧ linkTarget img w ≠ [] then linkTarget img w
            else img.bytes pos size)))
      else some (next, none)) := rfl

/-- The text `s` fills the field, or a zero follows it. -/
def Holds (field s : Str) : Prop := 0 ∉ s ∧ (field = s ∨ ∃ rest, field = s ++ 0 :: rest)

variable {field s : Str} {img : Image} {pos : ℕ}

theorem Holds.length_le (h : Holds field s) : s.length ≤ field.length := by
  obtain ⟨-, rfl | ⟨rest, rfl⟩⟩ := h
  · exact le_rfl
  · rw [List.length_append]
    exact Nat.le_add_right _ _

theorem takeWhile_of_notMem (h : 0 ∉ s) (rest : Str) : (s ++ rest).takeWhile (· ≠ 0) = s ++ rest.takeWhile (· ≠ 0) := by
  refine List.takeWhile_append_of_pos fun c hc => decide_eq_true fun h0 => h ?_
  rwa [h0] at hc

theorem cstr_eq_take (h : Holds field s) (n : ℕ) : cstr n field = s.take n := by
  have htake : 0 ∉ s.take n := fun hmem => h.1 (List.mem_of_mem_take hmem)
  have hall : (s.take n).takeWhile (· ≠ 0) = s.take n := by
    simpa using takeWhile_of_notMem htake []
  obtain ⟨-, rfl | ⟨rest, rfl⟩⟩ := h
  · exact hall
  · rw [cstr, List.take_append, takeWhile_of_notMem htake]
    cases n - s.length with
    | zero => rw [List.take_zero, List.takeWhile_nil, List.append_nil]
    | succ k => rw [List.take_succ_cons, List.takeWhile_cons_of_neg (by decide), List.append_nil]

/-- A field begins with a zero exactly when it holds nothing. -/
theorem Holds.head (h : Holds field s) (hlen : 0 < field.length) : field[0] ≠ 0 ↔ s ≠ [] := by
  obtain ⟨h0, rfl | ⟨rest, rfl⟩⟩ := h
  · exact iff_of_true (fun hz => h0 (hz ▸ List.getElem_mem hlen)) (List.ne_nil_of_length_pos hlen)
  · cases s with
    | nil => exact iff_of_false (fun h => h rfl) (fun h => h rfl)
    | cons c s => exact iff_of_true (fun hz => h0 (hz ▸ List.mem_cons_self)) (List.cons_ne_nil c s)

@[simp] theorem length_bytes (pos n : ℕ) : (img.bytes pos n).length = n := by
  rw [Image.bytes, List.length_map, List.length_range]

theorem getElem_bytes {n i : ℕ} (h : i < (img.bytes pos n).length) : (img.bytes pos n)[i] = img.byte (pos + i) := by
  simp [Image.bytes]

def ustarPath (pre name : Str) : Str := if pre = [] then name else pre ++ slash :: name

structure UstarHeader (img : Image) (pos : ℕ) (pre name link : Str) : Prop where
  name : Holds (img.bytes pos 100) name
  link : Holds (img.bytes (pos + 157) 100) link
  magic : img.bytes (pos + 257) 5 = [117, 115, 116, 97, 114]
  pre : Holds (img.bytes (pos + 345) 155) pre

variable {pre name link : Str}

theorem UstarHeader.pre_ne_nil (h : UstarHeader img pos pre name link) : img.byte (pos + 345) ≠ 0 ↔ pre ≠ [] := by
  have hlen : 0 < (img.bytes (pos + 345) 155).length := by simp
  rw [← h.pre.head hlen, getElem_bytes, Nat.add_zero]

theorem buildName_eq (h : UstarHeader img pos pre name link) :
    buildName img pos = if pre = [] then name.take 99 else pre ++ slash :: name := by
  have hpre : pre.length ≤ 155 := h.pre.length_le.trans_eq (length_bytes _ _)
  have hname : name.length ≤ 100 := h.name.length_le.trans_eq (length_bytes _ _)
  rw [buildName, cstr_eq_take h.pre, cstr_eq_take h.name, cstr_eq_take h.name,
    List.take_of_length_le hpre, List.take_of_length_le hname]
  by_cases hnil : pre = []
  · rw [if_neg fun hc => h.pre_ne_nil.mp hc.2 hnil, if_pos hnil]
  · rw [if_pos ⟨h.magic, h.pre_ne_nil.mpr hnil⟩, if_neg hnil]

theorem take_eq_self_iff {n : ℕ} : s.take n = s ↔ s.length ≤ n := by
  constructor
  · intro h
    rw [← h]
    exact List.length_take_le n s
  · exact List.take_of_length_le

/-- The path and the link target that are read from a ustar header are those that it stores exactly
when a name without a prefix and the link target do not fill their fields. -/
theorem names_round_trip_iff (h : UstarHeader img pos pre name link) :
    (buildName img pos = ustarPath pre name ∧ ∀ w : Walk, w.pos = pos → w.longlink = none →
      linkTarget img w = link) ↔ (pre = [] → name.length ≤ 99) ∧ link.length ≤ 99 := by
  have hlink : ∀ w : Walk, w.pos = pos → w.longlink = none → linkTarget img w = link.take 99 := by
    intro w hpos hlong
    rw [linkTarget, hlong, hpos]
    exact cstr_eq_take h.link 99
  refine and_congr ?_ ?_
  · rw [buildName_eq h, ustarPath]
    by_cases hnil : pre = []
    · rw [if_pos hnil, if_pos hnil, imp_iff_right hnil, take_eq_self_iff]
    · rw [if_neg hnil, if_neg hnil]
      exact iff_of_true rfl fun h => absurd h hnil
  · rw [← take_eq_self_iff]
    constructor
    · intro hread
      rw [← hlink { pos := pos } rfl rfl]
      exact hread { pos := pos } rfl rfl
    · intro hshort w hpos hlong
      rw [hlink w hpos hlong, hshort]

def namedHeader (n : ℕ) : Image where
  byte := fun i => if i < n then 97 else if 257 ≤ i then [117, 115, 116, 97, 114].getD (i - 257) 0 else 0
  size := 512

theorem holds_of_zero {k : ℕ} (h0 : 0 ∉ s) (hfield : field = s ++ List.replicate k 0) : Holds field s := by
  refine ⟨h0, ?_⟩
  cases k with
  | zero => exact Or.inl (by rw [hfield, List.replicate_zero, List.append_nil])
  | succ k => exact Or.inr ⟨List.replicate k 0, hfield⟩

/-- The last byte of a name of a hundred bytes is lost. -/
theorem full_name_lost : ¬ ∀ (img : Image) (pos : ℕ) (pre name link : Str),
    UstarHeader img pos pre name link → buildName img pos = ustarPath pre name ∧
      ∀ w : Walk, w.pos = pos → w.longlink = none → linkTarget img w = link := by
  intro h
  have hstored : UstarHeader (namedHeader 100) 0 [] (List.replicate 100 97) [] :=
    ⟨⟨by decide, Or.inl (by decide +kernel)⟩, holds_of_zero (k := 100) (by decide) (by decide +kernel),
      by decide +kernel, holds_of_zero (k := 155) (by decide) (by decide +kernel)⟩
  exact absurd (h _ _ _ _ _ hstored).1 (by decide +kernel)

/-- A name of 99 bytes is read back. -/
theorem short_name_read : UstarHeader (namedHeader 99) 0 [] (List.replicate 99 97) [] ∧
    buildName (namedHeader 99) 0 = List.replicate 99 97 := by
  have hstored : UstarHeader (namedHeader 99) 0 [] (List.replicate 99 97) [] :=
    ⟨holds_of_zero (k := 1) (by decide) (by decide +kernel), holds_of_zero (k := 100) (by decide) (by decide +kernel),
      by decide +kernel, holds_of_zero (k := 155) (by decide) (by decide +kernel)⟩
  exact ⟨hstored, ((names_round_trip_iff hstored).mpr ⟨fun _ => by decide, by decide⟩).1⟩

end ComputerOS.Tar
