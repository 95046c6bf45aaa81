import ComputerOS.Cfs.Layout
import Mathlib.Logic.Function.Basic

/-!
The state the CFS core works on and its block device. A device access may fail:
`rd` and `wr` are the outcomes of the accesses still to come, and a failing write
may leave any number of leading sectors of the block behind. The mount structure
`cfs_fs_t` is split into the geometry, which no operation changes, and the free
counts. The core's static transaction buffer is part of the state; the static
scratch buffers are local values. An inode record that crosses the end of its
block goes on in the memory behind the buffer, which the model takes as zeros.
-/
namespace ComputerOS.Cfs

/-- What the device answers to one block write: success, or failure after the
first `sectors` sectors of 512 bytes reached the disk. -/
inductive Outcome
  | ok
  | fail (sectors : ℕ)
  deriving DecidableEq

/-- The part of `cfs_fs_t` that is read from the superblock once, at mount. -/
structure Geom where
  inodeSize : ℕ
  totalBlocks : ℕ
  totalInodes : ℕ
  blockBitmapStart : ℕ
  inodeBitmapStart : ℕ
  inodeTableStart : ℕ
  dataStart : ℕ
  rootIno : ℕ
  journalStart : ℕ
  journalBlocks : ℕ
  flags : ℕ
  deriving DecidableEq, Inhabited

structure Fs extends Geom where
  freeBlocks : ℕ
  freeInodes : ℕ
  csumOk : Bool
  deriving DecidableEq, Inhabited

/-- A disk as the blocks it holds. A block is eight sectors; block `b` starts at
sector `base + 8 * b` of the device. -/
abbrev Disk := ℕ → Block

structure St where
  disk : Disk
  rd : ℕ → Bool
  wr : ℕ → Outcome
  fs : Fs
  txnActive : Bool
  txn : List (ℕ × Block)
  txnFreeBlocks : ℕ
  txnFreeInodes : ℕ
  jseq : ℕ
  /-- Not in the source: whether a `bd_write_block` found the buffer full. -/
  lost : Bool

/-- A C function on the state. `none` is the return value `-1`; the changes made
before the return stay. -/
def M (α : Type) : Type := St → Option α × St

namespace M

variable {α β : Type}

def mk (f : St → Option α × St) : M α := f

def run (x : M α) (s : St) : Option α × St := x s

instance : Monad M where
  pure a := mk fun s => (some a, s)
  bind x f := mk fun s =>
    match x.run s with
    | (some a, s') => (f a).run s'
    | (none, s') => (none, s')

@[ext] theorem ext {x y : M α} (h : ∀ s, x.run s = y.run s) : x = y := by
  funext s
  exact h s

theorem pure_run (a : α) (s : St) : (pure a : M α).run s = (some a, s) := rfl

theorem bind_run (x : M α) (f : α → M β) (s : St) :
    (x >>= f).run s = match x.run s with
      | (some a, s') => (f a).run s'
      | (none, s') => (none, s') := rfl

instance : LawfulMonad M := LawfulMonad.mk' M
  (by
    intro α x
    ext s : 1
    change (match x.run s with
      | (some a, s') => (some a, s')
      | (none, s') => (none, s')) = x.run s
    rcases x.run s with ⟨_ | a, s'⟩ <;> rfl)
  (by
    intro α β a f
    rfl)
  (by
    intro α β γ x f g
    ext s : 1
    rw [bind_run, bind_run, bind_run]
    rcases x.run s with ⟨_ | a, s'⟩ <;> rfl)

/-- `return -1`. -/
def fail : M α := mk fun s => (none, s)

/-- Go on only if `c` holds; otherwise `return -1`. -/
def ensure (c : Prop) [Decidable c] : M Unit := if c then pure () else fail

/-- Run `x` and hand its result to the caller, who decides what `-1` means. -/
def attempt (x : M α) : M (Option α) := mk fun s => (some (x.run s).1, (x.run s).2)

def orUndo (x : M α) (undo : M Unit) : M α := do
  match ← attempt x with
  | none => do
      undo
      fail
  | some a => pure a

def get : M St := mk fun s => (some s, s)

/-- The mount structure `*fs`. -/
def getFs : M Fs := mk fun s => (some s.fs, s)

def modify (f : St → St) : M Unit := mk fun s => (some (), f s)

theorem bind_of_some {x : M α} {f : α → M β} {s s' : St} {a : α} (h : x.run s = (some a, s')) :
    (x >>= f).run s = (f a).run s' := by
  rw [bind_run, h]

theorem bind_of_none {x : M α} {f : α → M β} {s s' : St} (h : x.run s = (none, s')) :
    (x >>= f).run s = (none, s') := by
  rw [bind_run, h]

/-- A sequence returns a value only if both of its parts do. -/
theorem bind_eq_some {x : M α} {f : α → M β} {s s' : St} {b : β}
    (h : (x >>= f).run s = (some b, s')) :
    ∃ a s1, x.run s = (some a, s1) ∧ (f a).run s1 = (some b, s') := by
  rw [bind_run] at h
  rcases hx : x.run s with ⟨_ | a, s1⟩
  · simp [hx] at h
  · rw [hx] at h
    exact ⟨a, s1, rfl, h⟩

theorem bind_eq_none {x : M α} {f : α → M β} {s s' : St} (h : (x >>= f).run s = (none, s')) :
    x.run s = (none, s') ∨ ∃ a s1, x.run s = (some a, s1) ∧ (f a).run s1 = (none, s') := by
  rw [bind_run] at h
  rcases hx : x.run s with ⟨_ | a, s1⟩
  · rw [hx] at h
    have hs : s1 = s' := congrArg Prod.snd h
    exact Or.inl (by rw [hs])
  · rw [hx] at h
    exact Or.inr ⟨a, s1, rfl, h⟩

theorem attempt_run (x : M α) (s : St) :
    (attempt x).run s = (some (x.run s).1, (x.run s).2) := rfl

theorem get_run (s : St) : get.run s = (some s, s) := rfl

theorem getFs_run (s : St) : getFs.run s = (some s.fs, s) := rfl

theorem modify_run (f : St → St) (s : St) : (modify f).run s = (some (), f s) := rfl

theorem fail_run (s : St) : (fail : M α).run s = (none, s) := rfl

theorem ensure_pos {c : Prop} [Decidable c] (h : c) (s : St) :
    (ensure c).run s = (some (), s) := by
  rw [ensure, if_pos h, pure_run]

theorem ensure_neg {c : Prop} [Decidable c] (h : ¬ c) (s : St) : (ensure c).run s = (none, s) := by
  rw [ensure, if_neg h, fail_run]

theorem ensure_eq_some {c : Prop} [Decidable c] {s s' : St} {u : Unit}
    (h : (ensure c).run s = (some u, s')) : c ∧ s' = s := by
  by_cases hc : c
  · rw [ensure_pos hc] at h
    exact ⟨hc, (congrArg Prod.snd h).symm⟩
  · rw [ensure_neg hc] at h
    simp at h

/-- Every run of `x` ends in a state related to the one it started from. -/
def Keeps (R : St → St → Prop) (x : M α) : Prop := ∀ s, R s (x.run s).2

variable {R : St → St → Prop}

theorem Keeps.pure (hr : ∀ s, R s s) (a : α) : Keeps R (Pure.pure a : M α) := hr

theorem Keeps.fail (hr : ∀ s, R s s) : Keeps R (M.fail : M α) := hr

theorem Keeps.ensure (hr : ∀ s, R s s) (c : Prop) [Decidable c] : Keeps R (M.ensure c) := by
  intro s
  rw [M.ensure]
  split
  · exact hr s
  · exact hr s

theorem Keeps.get (hr : ∀ s, R s s) : Keeps R M.get := hr

theorem Keeps.bind (ht : ∀ a b c, R a b → R b c → R a c) {x : M α} {f : α → M β}
    (hx : Keeps R x) (hf : ∀ a, Keeps R (f a)) : Keeps R (x >>= f) := by
  intro s
  have h1 := hx s
  rw [bind_run]
  rcases h : x.run s with ⟨_ | a, s1⟩
  · simpa [h] using h1
  · rw [h] at h1
    exact ht _ _ _ h1 (hf a s1)

theorem Keeps.attempt {x : M α} (hx : Keeps R x) : Keeps R (M.attempt x) := hx

end M

open M

/-- The block after a write that stopped once `sectors` sectors were written. -/
def torn (sectors : ℕ) (old new : Block) : Block :=
  Bytes.ofFn fun i => if i < 512 * sectors then new.byte i else old.byte i

def rawReadBlock (b : ℕ) : M Block := .mk fun s =>
  (if s.rd 0 then some (s.disk b) else none, { s with rd := fun i => s.rd (i + 1) })

def rawWriteBlock (b : ℕ) (v : Block) : M Unit := .mk fun s =>
  match s.wr 0 with
  | .ok => (some (), { s with disk := Function.update s.disk b v, wr := fun i => s.wr (i + 1) })
  | .fail k => (none, { s with
      disk := Function.update s.disk b (torn k (s.disk b) v), wr := fun i => s.wr (i + 1) })

theorem rawReadBlock_run (b : ℕ) (s : St) : (rawReadBlock b).run s =
    (if s.rd 0 then some (s.disk b) else none, { s with rd := fun i => s.rd (i + 1) }) := rfl

theorem rawWriteBlock_run (b : ℕ) (v : Block) (s : St) : (rawWriteBlock b v).run s =
    match s.wr 0 with
    | .ok => (some (), { s with disk := Function.update s.disk b v, wr := fun i => s.wr (i + 1) })
    | .fail k => (none, { s with
        disk := Function.update s.disk b (torn k (s.disk b) v), wr := fun i => s.wr (i + 1) }) := rfl

def CFS_MAX_TXN : ℕ := 32

def txnFind : List (ℕ × Block) → ℕ → Option Block
  | [], _ => none
  | (home, data) :: rest, b => if home = b then some data else txnFind rest b

/-- Overwrite the entry of a home block, or append one. -/
def txnPut : List (ℕ × Block) → ℕ → Block → List (ℕ × Block)
  | [], b, v => [(b, v)]
  | (home, data) :: rest, b, v =>
      if home = b then (home, v) :: rest else (home, data) :: txnPut rest b v

def bdReadBlock (b : ℕ) : M Block := .mk fun s =>
  match s.txnActive, txnFind s.txn b with
  | true, some data => (some data, s)
  | _, _ => (rawReadBlock b).run s

def bdWriteBlock (b : ℕ) (v : Block) : M Unit := .mk fun s =>
  if s.txnActive then
    if txnFind s.txn b = none ∧ CFS_MAX_TXN ≤ s.txn.length then
      (none, { s with lost := true })
    else (some (), { s with txn := txnPut s.txn b v })
  else (rawWriteBlock b v).run s

theorem bdReadBlock_eq (b : ℕ) (s : St) : (bdReadBlock b).run s =
    match s.txnActive, txnFind s.txn b with
    | true, some data => (some data, s)
    | _, _ => (rawReadBlock b).run s := rfl

theorem bdWriteBlock_eq (b : ℕ) (v : Block) (s : St) : (bdWriteBlock b v).run s =
    if s.txnActive then
      if txnFind s.txn b = none ∧ CFS_MAX_TXN ≤ s.txn.length then
        (none, { s with lost := true })
      else (some (), { s with txn := txnPut s.txn b v })
    else (rawWriteBlock b v).run s := rfl

def txnBegin : M Unit := modify fun s =>
  { s with txnActive := true, txn := [], txnFreeBlocks := s.fs.freeBlocks,
           txnFreeInodes := s.fs.freeInodes, lost := false }

def txnAbort : M Unit := modify fun s =>
  { s with txnActive := false, txn := [],
           fs := { s.fs with freeBlocks := s.txnFreeBlocks, freeInodes := s.txnFreeInodes } }

/-- Write the given blocks in order, stopping at the first failure. -/
def writeAll : List (ℕ × Block) → M Unit
  | [] => pure ()
  | (b, v) :: rest => do
      rawWriteBlock b v
      writeAll rest

/-- The journal descriptor: home numbers as 64-bit words from word `i` on. -/
def putHomes : List ℕ → ℕ → Block → Block
  | [], _, desc => desc
  | home :: rest, i, desc => putHomes rest (i + 1) (desc.setLE (8 * i) 8 home)

def descriptor (txn : List (ℕ × Block)) : Block := putHomes (txn.map Prod.fst) 0 Bytes.zero

def journalCopies (base : ℕ) : List (ℕ × Block) → List (ℕ × Block)
  | [] => []
  | (_, data) :: rest => (base, data) :: journalCopies (base + 1) rest

def journalCsum (desc : Block) (data : List Block) : UInt32 :=
  data.foldl (fun csum d => crc32Up csum (d.slice 0 4096)) (crc32Up 0 (desc.slice 0 4096))

/-- No journal, or too big to log: write through. -/
def commitThrough (txn : List (ℕ × Block)) : M Unit := do
  match ← attempt (writeAll txn) with
  | none => do
      modify fun s => { s with txnActive := false }
      fail
  | some _ => modify fun s => { s with txnActive := false, txn := [] }

def commitJournaled (j jseq : ℕ) (txn : List (ℕ × Block)) : M Unit := do
  let desc := descriptor txn
  rawWriteBlock (j + 1) desc
  writeAll (journalCopies (j + 2) txn)
  let csum := journalCsum desc (txn.map Prod.snd)
  rawWriteBlock j (JHdr.make CFS_JCOMMITTED jseq txn.length csum.toNat)
  writeAll txn
  rawWriteBlock j (JHdr.make CFS_JNONE jseq 0 0)
  modify fun s => { s with jseq := (s.jseq + 1) % 2 ^ 64, txnActive := false, txn := [] }

def txnCommit : M Unit := do
  let s ← get
  if s.txnActive = false then pure ()
  else if s.txn = [] then modify fun s => { s with txnActive := false }
  else if s.fs.journalStart = 0 ∨ s.fs.journalBlocks < s.txn.length + 2 then
    commitThrough s.txn
  else commitJournaled s.fs.journalStart s.jseq s.txn

def readRun (b : ℕ) : ℕ → M (List Block)
  | 0 => pure []
  | n + 1 => do
      let v ← rawReadBlock b
      let rest ← readRun (b + 1) n
      pure (v :: rest)

/-- The redo loop: copy journal block `j + 2 + i` to `homes[i]`. A failing write
is ignored; a failing read ends the replay. -/
def redo (j : ℕ) (desc : Block) : ℕ → ℕ → M Unit
  | _, 0 => pure ()
  | i, n + 1 => do
      let v ← rawReadBlock (j + 2 + i)
      let _ ← attempt (rawWriteBlock (desc.getLE (8 * i) 8) v)
      redo j desc (i + 1) n

/-- The body of `journal_recover`; a failed `ensure` is its early `return`. -/
def recoverBody (j journalBlocks : ℕ) : M Unit := do
  ensure (j ≠ 0)
  let h ← rawReadBlock j
  ensure (JHdr.Committed h)
  ensure (JHdr.nblocks h ≠ 0 ∧ (JHdr.nblocks h + 2) % 2 ^ 32 ≤ journalBlocks)
  let desc ← rawReadBlock (j + 1)
  let data ← readRun (j + 2) (JHdr.nblocks h)
  ensure ((journalCsum desc data).toNat = JHdr.csum h)
  redo j desc 0 (JHdr.nblocks h)
  modify fun s => { s with
    jseq := if s.jseq ≤ JHdr.seq h then (JHdr.seq h + 1) % 2 ^ 64 else s.jseq }
  let _ ← attempt (rawWriteBlock j (JHdr.make CFS_JNONE 0 0 0))

def journalRecover : M Unit := do
  let fs ← getFs
  let _ ← attempt (recoverBody fs.journalStart fs.journalBlocks)

def inc64 (x : ℕ) : ℕ := (x + 1) % 2 ^ 64

def dec64 (x : ℕ) : ℕ := (x + (2 ^ 64 - 1)) % 2 ^ 64

/-- Assign `fs->free_blocks` and `fs->free_inodes`. -/
def setCounts (c : Fs → ℕ × ℕ) : M Unit := modify fun s =>
  { s with fs := { s.fs with freeBlocks := (c s.fs).1, freeInodes := (c s.fs).2 } }

/-- The contents of block `b` as `bd_read_block` gives them. -/
def St.view (s : St) (b : ℕ) : Block :=
  if s.txnActive then (txnFind s.txn b).getD (s.disk b) else s.disk b

/-- No read of the device fails from here on. -/
def St.ReadsOk (s : St) : Prop := s.rd = fun _ => true

/-- No write of the device fails from here on. -/
def St.WritesOk (s : St) : Prop := s.wr = fun _ => .ok

end ComputerOS.Cfs
