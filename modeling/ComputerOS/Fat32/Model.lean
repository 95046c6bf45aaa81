import ComputerOS.Lib.Memory

/-!
A mounted FAT32 volume: the cached table, the clusters on disk, directory entries with long
names, and how a name is looked up. A string is the list of its bytes before the terminator.
Clusters are cells of their own, since `cluster_to_lba` takes the clusters of a volume to
different sectors; the alias 0 stands for the root directory's first cluster.
-/
namespace ComputerOS.Fat32

abbrev Str := List UInt8

def FAT32_EOC : ℕ := 0x0FFFFFF8

def FAT32_FREE : ℕ := 0

def ATTR_DIRECTORY : ℕ := 0x10

def ATTR_ARCHIVE : ℕ := 0x20

def ATTR_LFN : ℕ := 0x0F

/-- What `fat32_mount` reads from the boot sector. -/
structure Geom where
  fatEntries : ℕ
  totalClusters : ℕ
  rootCluster : ℕ
  bytesPerCluster : ℕ
  numFats : ℕ
deriving DecidableEq, Repr

/-- The cached table, its copies on disk, and the bytes of every cluster. -/
structure Vol where
  fat : ℕ → ℕ
  copies : ℕ → ℕ → ℕ
  disk : ℕ → Mem

def getEntry (g : Geom) (v : Vol) (cluster : ℕ) : ℕ :=
  if g.fatEntries ≤ cluster then FAT32_EOC else v.fat cluster % 2 ^ 28

/-- `fat32_set_entry`: the upper four bits stay. -/
def setEntry (g : Geom) (cluster value : ℕ) (v : Vol) : Vol :=
  if g.fatEntries ≤ cluster then v
  else { v with fat := Function.update v.fat cluster (v.fat cluster / 2 ^ 28 * 2 ^ 28 + value % 2 ^ 28) }

def isEndOfChain (entry : ℕ) : Bool := FAT32_EOC ≤ entry % 2 ^ 28

def realCluster (g : Geom) (c : ℕ) : ℕ := if c = 0 then g.rootCluster else c

/-- The first `n` clusters of a chain, as the loops over a directory follow it. -/
def chain (g : Geom) (v : Vol) : ℕ → ℕ → List ℕ
  | 0, _ => []
  | n + 1, c =>
      let next := getEntry g v (realCluster g c)
      c :: if isEndOfChain next then [] else chain g v n next

/-- The bytes of entry `i` of a directory cluster. -/
def slotOf (cell : Mem) (i : ℕ) : Mem := fun j => if j < 32 then cell (32 * i + j) else 0

def putSlot (cell : Mem) (i : ℕ) (e : Mem) : Mem := fun j => if j / 32 = i then e (j % 32) else cell j

def shortName (e : Mem) : Str := (List.range 11).map e

def attr (e : Mem) : ℕ := (e 11).toNat

def entryCluster (e : Mem) : ℕ := e.getLE 20 2 * 2 ^ 16 + e.getLE 26 2

def entrySize (e : Mem) : ℕ := e.getLE 28 4

def isDirectory (e : Mem) : Bool := attr e / 16 % 2 = 1

def entriesPerCluster (g : Geom) : ℕ := g.bytesPerCluster / 32

def upper (c : UInt8) : UInt8 := if 97 ≤ c ∧ c ≤ 122 then c - 32 else c

def lower (c : UInt8) : UInt8 := if 65 ≤ c ∧ c ≤ 90 then c + 32 else c

/-- What stands after the last dot, if there is one. -/
def extOf (name : Str) : Str := if 46 ∈ name then (name.reverse.takeWhile (· ≠ 46)).reverse else []

/-- What stands before the last dot. -/
def stemOf (name : Str) : Str := if 46 ∈ name then name.take (name.length - (extOf name).length - 1) else name

def padTo (n : ℕ) (s : Str) : Str := s ++ List.replicate (n - s.length) 32

/-- `build_83`: the name cut to eight and three bytes, in upper case. -/
def build83 (name : Str) : Str :=
  if name = [46] ∨ name = [46, 46] then padTo 11 name
  else padTo 8 (((stemOf name).take 8).map upper) ++ padTo 3 (((extOf name).take 3).map upper)

def needsLfn (name : Str) : Bool := 8 < (stemOf name).length || 3 < (extOf name).length

/-- The decimal digits of a number, the last one first. -/
def revDigits : ℕ → ℕ → Str
  | 0, _ => []
  | f + 1, n => if n = 0 then [] else UInt8.ofNat (48 + n % 10) :: revDigits f (n / 10)

/-- `build_83_tail`: the short name with a number. -/
def build83Tail (name : Str) (n : ℕ) : Str :=
  let tail := 126 :: (if n = 0 then [48] else (revDigits 7 n).reverse)
  padTo 8 (((stemOf name).take (8 - tail.length)).map upper ++ tail) ++ padTo 3
  (((extOf name).take 3).map upper)

/-- `format_83`: a short name as it is listed. -/
def format83 (e : Mem) : Str :=
  let stem := ((shortName e).take 8).takeWhile (· ≠ 32)
  let ext := ((shortName e).drop 8).takeWhile (· ≠ 32)
  ((stem ++ if e 8 ≠ 32 then 46 :: ext else []).map lower).takeWhile (· ≠ 0)

/-- The thirteen characters of a long name entry. -/
def lfnChars (e : Mem) : List ℕ := [1, 3, 5, 7, 9, 14, 16, 18, 20, 22, 24, 28, 30].map fun o => e.getLE o 2

/-- `lfn_reconstruct`: the entries stand in reverse order. -/
def lfnReconstruct (segs : List Mem) : Str :=
  let chars := (segs.reverse.flatMap lfnChars).takeWhile (· ≠ 0)
  (((chars.filter (· ≠ 0xFFFF)).map fun c => UInt8.ofNat (c % 128)).take 255).takeWhile (· ≠ 0)

/-- What `dir_each_lfn` passes to its callback: the place of an entry, the entry, and its long
name, which is empty if there is none. -/
structure Visit where
  chunk : ℕ
  idx : ℕ
  entry : Mem
  lfn : Str

/-- A slot of a directory, with its place. -/
structure Slot where
  chunk : ℕ
  idx : ℕ
  entry : Mem

/-- The loop of `dir_each_lfn` over the slots of a directory. `segs` holds the long name entries
since the last other one, at most twenty. -/
def scan : List Mem → List Slot → List Visit
  | _, [] => []
  | segs, ⟨c, i, e⟩ :: rest =>
      if e 0 = 0 then []
      else if e 0 = 0xE5 then scan [] rest
      else if attr e = ATTR_LFN then scan (if segs.length < 20 then segs ++ [e] else segs) rest
      else ⟨c, i, e, lfnReconstruct segs⟩ :: scan [] rest

/-- The slots of one directory cluster. -/
def slotsIn (g : Geom) (v : Vol) (c : ℕ) : List Slot :=
  (List.range (entriesPerCluster g)).map fun i => ⟨c, i, slotOf (v.disk (realCluster g c)) i⟩

/-- The entries that `dir_each_lfn` comes to in the first `n` clusters of a directory. -/
def visits (g : Geom) (v : Vol) (n dir : ℕ) : List Visit := scan [] ((chain g v n dir).flatMap (slotsIn g v))

/-- The first test of `find_cb`. -/
def matchesShort (raw83 : Str) (w : Visit) : Bool := shortName w.entry = raw83

/-- The second test of `find_cb`. -/
def matchesLong (name : Str) (w : Visit) : Bool :=
  name ≠ [] && w.lfn ≠ [] && w.lfn.map lower = name.map lower

def dirFind (g : Geom) (v : Vol) (n dir : ℕ) (raw83 : Str) : Option Visit :=
  (visits g v n dir).find? (matchesShort raw83)

def dirFindLfn (g : Geom) (v : Vol) (n dir : ℕ) (raw83 name : Str) : Option Visit :=
  (visits g v n dir).find? fun w => matchesShort raw83 w || matchesLong (name.take 255) w

/-- The name under which `fat32_list_dir` reports an entry. -/
def listName (w : Visit) : Str := if w.lfn ≠ [] then w.lfn.take 255 else format83 w.entry

end ComputerOS.Fat32

-- The entry that each operation finds for a name in a directory. Reading, writing, deleting and
-- walking down compare the short name and the long name; removing a directory, copying and moving
-- compare the short name only.
namespace ComputerOS.Fat32

variable (g : Geom) (v : Vol) (n dir : ℕ) (name : Str)

def readFinds : Option Visit := dirFindLfn g v n dir (build83 name) name

def writeFinds : Option Visit := dirFindLfn g v n dir (build83 name) name

def deleteFinds : Option Visit := dirFindLfn g v n dir (build83 name) name

/-- `resolve_component`: `.` is not looked up. -/
def resolveFinds : Option Visit :=
  if name = [46] then none
  else if name = [46, 46] then dirFind g v n dir (build83 [46, 46])
  else dirFindLfn g v n dir (build83 name) name

/-- `fat32_rmdir` refuses `.` and `..`. -/
def rmdirFinds : Option Visit :=
  if name = [46] ∨ name = [46, 46] then none else dirFind g v n dir (build83 name)

def cpFinds : Option Visit := dirFind g v n dir (build83 name)

def mvFinds : Option Visit := dirFind g v n dir (build83 name)

/-- All operations find the same entry, or none of them finds one. -/
structure Agree : Prop where
  rmdir : rmdirFinds g v n dir name = readFinds g v n dir name
  cp : cpFinds g v n dir name = readFinds g v n dir name
  mv : mvFinds g v n dir name = readFinds g v n dir name
  write : writeFinds g v n dir name = readFinds g v n dir name
  delete : deleteFinds g v n dir name = readFinds g v n dir name
  resolve : resolveFinds g v n dir name = readFinds g v n dir name

/-- No entry has the name as its long name, unless one with the name's short form comes before
it or is it. -/
def ShortFirst : Prop :=
  ∀ pre w post, visits g v n dir = pre ++ w :: post → (∀ u ∈ pre, matchesShort (build83 name) u = false) →
    matchesLong (name.take 255) w = true → matchesShort (build83 name) w = true

/-- No entry has the name as its short or long name. -/
def Absent : Prop :=
  ∀ w ∈ visits g v n dir, matchesShort (build83 name) w = false ∧
  matchesLong (name.take 255) w = false

variable {g v n dir name}

/-- Two searches agree when the first entry that the wider one accepts is accepted by both. -/
theorem find?_eq_find?_or {α : Type*} {p q : α → Bool} {l : List α} :
    l.find? p = l.find? (fun x => p x || q x) ↔
      ∀ pre x post, l = pre ++ x :: post → (∀ y ∈ pre, p y = false) → q x = true → p x = true := by
  induction l with
  | nil => simp
  | cons a l ih =>
    rw [List.find?_cons, List.find?_cons]
    cases hp : p a with
    | true =>
      refine iff_of_true rfl fun pre x post heq hpre _ => ?_
      cases pre with
      | nil =>
        obtain ⟨rfl, -⟩ := List.cons.inj heq
        exact hp
      | cons b pre =>
        obtain ⟨rfl, -⟩ := List.cons.inj heq
        have := hpre a List.mem_cons_self
        rw [hp] at this
        cases this
    | false =>
      cases hq : q a with
      | true =>
        simp only [Bool.false_or]
        constructor
        · intro h
          have hmem := List.find?_some h
          rw [hp] at hmem
          cases hmem
        · intro h
          have := h [] a l rfl (by simp) hq
          rw [hp] at this
          cases this
      | false =>
        simp only [Bool.or_self]
        rw [ih]
        constructor
        · intro h pre x post heq hpre hx
          cases pre with
          | nil =>
            obtain ⟨rfl, -⟩ := List.cons.inj heq
            rw [hq] at hx
            cases hx
          | cons b pre =>
            obtain ⟨rfl, rfl⟩ := List.cons.inj heq
            exact h pre x post rfl (fun y hy => hpre y (List.mem_cons_of_mem _ hy)) hx
        · intro h pre x post heq hpre hx
          refine h (a :: pre) x post (by rw [heq, List.cons_append]) (fun y hy => ?_) hx
          rcases List.mem_cons.mp hy with rfl | hy
          · exact hp
          · exact hpre y hy

theorem dirFind_eq_readFinds : dirFind g v n dir (build83 name) = readFinds g v n dir name ↔
    ShortFirst g v n dir name := find?_eq_find?_or

theorem readFinds_eq_none : readFinds g v n dir name = none ↔ Absent g v n dir name := by
  unfold readFinds dirFindLfn Absent
  rw [List.find?_eq_none]
  refine forall_congr' fun w => forall_congr' fun _ => ?_
  simp only [Bool.or_eq_true, not_or, Bool.not_eq_true]

theorem Absent.shortFirst (h : Absent g v n dir name) : ShortFirst g v n dir name := by
  intro pre w post heq _ hw
  have := (h w (by rw [heq]; simp)).2
  rw [hw] at this
  cases this

/-- The operations agree on a name exactly when no entry is found by its long name alone; on `.`
and `..`, which are not removed, when no entry has that name. -/
theorem lookups_agree_iff (g : Geom) (v : Vol) (dir : ℕ) (name : Str) :
    (∀ n, Agree g v n dir name) ↔
      ∀ n, if name = [46] ∨ name = [46, 46] then Absent g v n dir name else ShortFirst g v n dir name := by
  refine forall_congr' fun n => ?_
  by_cases hdots : name = [46] ∨ name = [46, 46]
  · rw [if_pos hdots]
    constructor
    · intro h
      have hrmdir := h.rmdir
      rw [rmdirFinds, if_pos hdots] at hrmdir
      exact readFinds_eq_none.mp hrmdir.symm
    · intro h
      have hnone := readFinds_eq_none.mpr h
      have hshort := dirFind_eq_readFinds.mpr h.shortFirst
      refine ⟨?_, hshort, hshort, rfl, rfl, ?_⟩
      · rw [rmdirFinds, if_pos hdots, hnone]
      · rw [resolveFinds]
        by_cases hone : name = [46]
        · rw [if_pos hone, hnone]
        · have htwo : name = [46, 46] := hdots.resolve_left hone
          rw [if_neg hone, if_pos htwo, ← htwo]
          exact hshort
  · rw [if_neg hdots]
    constructor
    · intro h
      exact dirFind_eq_readFinds.mp h.cp
    · intro h
      have hshort := dirFind_eq_readFinds.mpr h
      rw [not_or] at hdots
      refine ⟨?_, hshort, hshort, rfl, rfl, ?_⟩
      · rw [rmdirFinds, if_neg (by rw [not_or]; exact hdots)]
        exact hshort
      · rw [resolveFinds, if_neg hdots.1, if_neg hdots.2]
        rfl

/-- `longdirname`, with the short name `LONGDI~1`. -/
def longEntry : Mem := fun j =>
  ([0x41, 108, 0, 111, 0, 110, 0, 103, 0, 100, 0, 0x0F, 0, 0x6C, 105, 0, 114, 0, 110, 0, 97, 0, 109, 0, 101, 0, 0, 0,
    0, 0, 0xFF, 0xFF, 76, 79, 78, 71, 68, 73, 126, 49, 32, 32, 32, 0x10] : Str).getD j 0

def longVol : Vol where
  fat := fun c => if c < 4 then FAT32_EOC else 0
  copies := fun _ c => if c < 4 then FAT32_EOC else 0
  disk := fun c => if c = 2 then longEntry else fun _ => 0

def longGeom : Geom where
  fatEntries := 128
  totalClusters := 126
  rootCluster := 2
  bytesPerCluster := 512
  numFats := 1

/-- Reading finds the directory, removing it does not. -/
theorem long_name_not_removed : ¬ ∀ (g : Geom) (v : Vol) (dir : ℕ) (name : Str), name ≠ [] →
    name.length ≤ 255 → (∀ c ∈ name, c < 128) → ∀ n, Agree g v n dir name := by
  intro h
  have hagree := h longGeom longVol 0 [108, 111, 110, 103, 100, 105, 114, 110, 97, 109, 101] (by decide) (by decide)
    (by simp) 1
  have hread : (readFinds longGeom longVol 1 0 [108, 111, 110, 103, 100, 105, 114, 110, 97, 109,
    101]).isSome = true := by
    decide +kernel
  have hrmdir : (rmdirFinds longGeom longVol 1 0 [108, 111, 110, 103, 100, 105, 114, 110, 97, 109,
      101]).isSome = false := by decide +kernel
  rw [hagree.rmdir, hread] at hrmdir
  cases hrmdir

end ComputerOS.Fat32
