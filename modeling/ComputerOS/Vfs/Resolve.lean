import ComputerOS.Lib.Path
import Mathlib.Algebra.Ring.Nat
import Mathlib.Algebra.Ring.Int.Defs

/-!
Name resolution of the VFS: `vfs_resolve` turns a user path into a normalised absolute path
with an in-place stack of component offsets, `route` picks the mount by its prefix, and
`vfs_chdir` moves the working directory. A string is the list of its bytes before the
terminator.
-/
namespace ComputerOS.Vfs

abbrev Str := List UInt8

abbrev slash : UInt8 := 47
abbrev dot : UInt8 := 46

/-- Append one byte to a buffer of `size` bytes that also holds a terminator. -/
def putc (size : ℕ) (buf : Str) (c : UInt8) : Option Str :=
  if size ≤ buf.length + 1 then none else some (buf ++ [c])

def puts (size : ℕ) (buf s : Str) : Option Str := s.foldlM (putc size) buf

/-- The input as it is joined in `buf`. -/
def joinPath (cwd path : Str) : Option Str := do
  let buf ← if path.head? ≠ some slash then puts 256 [] cwd else some []
  let buf ← putc 256 buf slash
  puts 256 buf path

/-- The output so far: `out[0 .. op)`, and `starts[0 .. depth)` with the last one first. -/
structure Out where
  text : Str
  starts : List ℕ
deriving DecidableEq, Repr

def Out.pop (o : Out) : Out :=
  match o.starts with
  | [] => o
  | start :: starts => ⟨o.text.take start, starts⟩

/-- One component of the joined path. -/
def putComponent (outsz : ℕ) (o : Out) (comp : Str) : Option Out :=
  if comp = [dot] then some o
  else if comp = [dot, dot] then some o.pop
  else if 64 ≤ o.starts.length then none
  else if outsz ≤ o.text.length + 1 + comp.length + 1 then none
  else some ⟨o.text ++ slash :: comp, o.text.length :: o.starts⟩

/-- The loop over `buf[i ..]`. -/
def scan (outsz : ℕ) : ℕ → Str → Out → Option Out
  | 0, _, o => some o
  | _ + 1, [], o => some o
  | fuel + 1, c :: rest, o =>
      if c = slash then scan outsz fuel rest o
      else do
        let o ← putComponent outsz o ((c :: rest).takeWhile (· ≠ slash))
        scan outsz fuel (((c :: rest).dropWhile (· ≠ slash)).drop 1) o

/-- `vfs_resolve` with the given working directory; `none` is the return value -1. -/
def vfsResolve (cwd path : Str) (outsz : ℕ) : Option Str := do
  let buf ← joinPath cwd path
  let o ← scan outsz (buf.length + 1) buf ⟨[], []⟩
  if o.text = [] then if outsz < 2 then none else some [slash]
  else some o.text

/-- A slot of the mount table, with the operation that `vfs_chdir` uses. -/
structure Mount where
  mountPoint : Str
  inUse : Bool
  isDir : Option (Str → Bool)

def under (mountPoint path : Str) : Bool :=
  if mountPoint = [slash] then true
  else if path.take mountPoint.length ≠ mountPoint then false
  else match path.drop mountPoint.length with
    | [] => true
    | c :: _ => c = slash

/-- One slot in the search for the longest prefix. -/
def better (abspath : Str) (best : Option (ℕ × Mount)) (slot : Mount × ℕ) : Option (ℕ × Mount) :=
  if !slot.1.inUse then best
  else if under slot.1.mountPoint abspath then
    match best with
    | none => some (slot.2, slot.1)
    | some (i, m) =>
        if m.mountPoint.length < slot.1.mountPoint.length then some (slot.2, slot.1) else some (i, m)
  else best

/-- `route`: the index of the mount and the path inside it. -/
def route (mounts : List Mount) (abspath : Str) (subsz : ℕ) : Option (ℕ × Str) := do
  let (i, m) ← mounts.zipIdx.foldl (better abspath) none
  let rest := if m.mountPoint = [slash] then abspath else abspath.drop m.mountPoint.length
  if rest = [] then some (i, [slash])
  else
    let sub ← if rest.head? ≠ some slash then if subsz < 2 then none else some [slash] else some []
    let sub ← puts subsz sub rest
    some (i, sub)

def resolveRoute (mounts : List Mount) (cwd path : Str) (subsz : ℕ) : Option (ℕ × Str) := do
  let abspath ← vfsResolve cwd path 256
  route mounts abspath subsz

/-- `vfs_chdir`: the new working directory, `none` when it stays. -/
def vfsChdir (mounts : List Mount) (cwd path : Str) : Option Str := do
  let abspath ← vfsResolve cwd path 256
  let (i, sub) ← route mounts abspath 256
  let m ← mounts[i]?
  let isDir ← m.isDir
  if isDir sub then some (abspath.take 255) else none

end ComputerOS.Vfs
