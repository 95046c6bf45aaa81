import ComputerOS.Loader.Headers
import ComputerOS.Loader.Placed

/-!
The second part of `elf_map`: the pages of the segments are mapped, and then the kernel switches to
the new space and stores the bytes of the file and the zeros behind them through the addresses of
the segments. A store that the processor refuses halts the kernel.
-/
namespace ComputerOS.Loader

open Function Fallible

/-- A space while `elf_map` works on it, the pages that `vmm_map_in` has mapped there, and the
addresses that the kernel has stored to, the one that halted it among them. -/
structure Loading where
  w : View
  mapped : List ℕ := []
  wrote : List ℕ := []

/-- The addresses that the processor knows. -/
def canonical (a : ℕ) : Bool := a < 2 ^ 47 ∨ 2 ^ 64 - 2 ^ 47 ≤ a

/-- The frame that an access to address `a` goes to. -/
def View.access (w : View) (a : ℕ) : Option ℕ := if canonical a then w.resolve a else none

def View.load (w : View) (a : ℕ) : Option UInt8 := (w.access a).map fun f => w.m.bytes f (a % 4096)

def View.setByte (w : View) (f o : ℕ) (b : UInt8) : View := w.setBytes f (update (w.m.bytes f) o b)

def storeByte (a : ℕ) (b : UInt8) : Fallible Loading Unit := .mk fun s =>
  match s.w.access a with
  | none => (none, { s with wrote := a :: s.wrote })
  | some f => (some (), { s with w := s.w.setByte f (a % 4096) b, wrote := a :: s.wrote })

/-- Bytes one after the other, from address `a` on. -/
def storeAll (a : ℕ) : List UInt8 → Fallible Loading Unit
  | [] => pure ()
  | b :: bs => do
    storeByte (u64 a) b
    storeAll (a + 1) bs

/-- How a `vfs_read_at` ends: one that fails has stored some of the bytes, and returns their number
or -1. One whose range wraps may have stored other bytes than the file's. -/
structure ReadAtEnv where
  failed : Option ℕ := none
  counts : Bool := false
  stray : Option (List UInt8) := none

/-- The bytes of the file that are asked for. -/
def fileRange (file : List UInt8) (offset len : ℕ) : List UInt8 := (file.drop offset).take len

/-- The end of the range wraps at 32 bits, or `kmalloc` rounds it up to 0 and the offset is negative
as an `int`. The fallback of `vfs_read_at` then copies from far outside its buffer, and `fat32` from
behind a cluster. -/
def Wraps (offset len : ℕ) : Prop := 2 ^ 32 ≤ offset + len ∨ (2 ^ 31 ≤ offset ∧ 2 ^ 32 ≤ offset + len + 7)

instance (offset len : ℕ) : Decidable (Wraps offset len) := inferInstanceAs (Decidable (_ ∨ _))

/-- The bytes that the read takes for those of the file. -/
def ReadAtEnv.source (e : ReadAtEnv) (file : List UInt8) (offset len : ℕ) : List UInt8 :=
  if Wraps offset len then (e.stray.getD (fileRange file offset len)).take len else fileRange file offset len

def ReadAtEnv.stored (e : ReadAtEnv) (all : List UInt8) : List UInt8 :=
  match e.failed with
  | none => all
  | some n => all.take n

/-- What `vfs_read_at` returns. -/
def ReadAtEnv.ret (e : ReadAtEnv) (all : List UInt8) : ℤ :=
  if e.failed.isNone || e.counts then int32 (e.stored all).length else -1

def minVaddr (phs : List Phdr) : ℕ := ((phs.filter (·.type = PT_LOAD)).map Phdr.vaddr).foldl min (2 ^ 64 - 1)

def Headers.bias (h : Headers) (dynBase : ℕ) : ℕ :=
  if h.eh.type = ET_DYN then u64 (dynBase + 2 ^ 64 - minVaddr h.phdrs / 0x1000 * 0x1000) else 0

/-- One round of the search for `phdr_vaddr`. -/
def findPhdrs (phoff v : ℕ) (ph : Phdr) : ℕ :=
  let v := if ph.type = PT_PHDR then ph.vaddr else v
  if ph.type = PT_LOAD ∧ v = 0 ∧ ph.offset ≤ phoff ∧ phoff < u64 (ph.offset + ph.filesz) then
    u64 (ph.vaddr + (phoff - ph.offset))
  else v

def INTERP_SIZE : ℕ := 128

def readInterp (e : ReadAtEnv) (file : List UInt8) (ph : Phdr) : Option (List UInt8) :=
  let len := u32 ph.filesz
  let all := e.source file (u32 ph.offset) len
  if len = 0 ∨ INTERP_SIZE ≤ len then none
  else if e.ret all < len then none
  else some (e.stored all)

/-- The path of the dynamic loader: the last `PT_INTERP` counts. -/
def findInterp (env : ℕ → ReadAtEnv) (file : List UInt8) (interp : List UInt8) : List Phdr → Option (List UInt8)
  | [] => some interp
  | ph :: phs =>
    if ph.type = PT_INTERP then
      match readInterp (env 0) file ph with
      | none => none
      | some s => findInterp (fun i => env (i + 1)) file s phs
    else findInterp (fun i => env (i + 1)) file interp phs

def Phdr.segment (ph : Phdr) : Segment where
  vaddr := ph.vaddr
  filesz := ph.filesz
  memsz := ph.memsz

/-- Where a segment begins in memory. -/
def Phdr.start (bias : ℕ) (ph : Phdr) : ℕ := u64 (ph.vaddr + bias)

/-- One round of the inner loop. The page is mapped when it is found afterwards. -/
def mapPage (e : PageEnv) (v : ℕ) : Fallible Loading Unit := .mk fun s =>
  if (s.w.resolve v).isSome then (some (), s)
  else
    let (r, w) := (allocUserPage e v).run s.w
    (r, { s with w := w, mapped := if (w.resolve v).isSome then v :: s.mapped else s.mapped })

/-- One round of the mapping loop. -/
def mapPhdr (bias : ℕ) (env : ℕ → PageEnv) (ph : Phdr) : Fallible Loading Unit :=
  if ph.type ≠ PT_LOAD ∨ ph.memsz = 0 then pure ()
  else if ph.memsz < ph.filesz then fail
  else each mapPage env (ph.segment.pages bias)

/-- The bytes of a segment that the file has. -/
def Phdr.data (file : List UInt8) (ph : Phdr) : List UInt8 := fileRange file (u32 ph.offset) (u32 ph.filesz)

/-- The bytes that a read takes for them. -/
def Phdr.read (e : ReadAtEnv) (file : List UInt8) (ph : Phdr) : List UInt8 :=
  e.source file (u32 ph.offset) (u32 ph.filesz)

/-- The zeros behind them. -/
def Phdr.bss (ph : Phdr) : List UInt8 :=
  if ph.filesz < ph.memsz then List.replicate (u32 (ph.memsz - ph.filesz)) 0 else []

/-- One round of the loading loop. -/
def loadPhdr (bias : ℕ) (file : List UInt8) (e : ReadAtEnv) (ph : Phdr) : Fallible Loading Unit :=
  if ph.type ≠ PT_LOAD ∨ ph.filesz = 0 then pure ()
  else do
    storeAll (ph.start bias) (e.stored (ph.read e file))
    check (int32 (u32 ph.filesz) ≤ e.ret (ph.read e file))
    storeAll (u64 (ph.start bias + ph.filesz)) ph.bss

structure ElfInfo where
  entry : ℕ
  phdr : ℕ
  phnum : ℕ
  bias : ℕ
  interp : List UInt8

/-- What a load depends on: the reads of the path of the dynamic loader, the pages of each segment,
and the reads of the segments. -/
structure MapEnv where
  interp : ℕ → ReadAtEnv := fun _ => {}
  pages : ℕ → ℕ → PageEnv := fun _ _ => {}
  reads : ℕ → ReadAtEnv := fun _ => {}

/-- `phdr_vaddr`, 0 when the headers are in no segment. -/
def Headers.phdrVaddr (h : Headers) : ℕ := h.phdrs.foldl (findPhdrs h.eh.phoff) 0

def Headers.info (h : Headers) (dynBase : ℕ) (interp : List UInt8) : ElfInfo where
  entry := u64 (h.eh.entry + h.bias dynBase)
  phdr := if h.phdrVaddr = 0 then 0 else u64 (h.phdrVaddr + h.bias dynBase)
  phnum := h.eh.nph
  bias := h.bias dynBase
  interp := interp

def mapHeaders (dynBase : ℕ) (env : MapEnv) (file : List UInt8) (h : Headers) : Fallible Loading ElfInfo :=
  if minVaddr h.phdrs = 2 ^ 64 - 1 then fail
  else match findInterp env.interp file [] h.phdrs with
    | none => fail
    | some interp => do
      each (mapPhdr (h.bias dynBase)) env.pages h.phdrs
      each (loadPhdr (h.bias dynBase) file) env.reads h.phdrs
      pure (h.info dynBase interp)

def mapFile (dynBase : ℕ) (e₁ e₂ : ReadEnv) (env : MapEnv) (file : List UInt8) : Fallible Loading ElfInfo :=
  match readHeaders e₁ e₂ file with
  | none => fail
  | some h => mapHeaders dynBase env file h

variable {s : Loading} {a f : ℕ} {b : UInt8} {bs : List UInt8}

theorem source_of_none {e : ReadAtEnv} (he : e.stray = none) (file : List UInt8) (offset len : ℕ) :
    e.source file offset len = fileRange file offset len := by
  unfold ReadAtEnv.source
  rw [he, Option.getD_none]
  split
  · exact List.take_of_length_le (List.length_take_le ..)
  · rfl

theorem mapPage_run (e : PageEnv) (v : ℕ) (s : Loading) : (mapPage e v).run s =
    if (s.w.resolve v).isSome then (some (), s)
    else (((allocUserPage e v).run s.w).1, { s with
      w := ((allocUserPage e v).run s.w).2
      mapped := if (((allocUserPage e v).run s.w).2.resolve v).isSome then v :: s.mapped else s.mapped }) := rfl

theorem storeByte_none (h : s.w.access a = none) :
    (storeByte a b).run s = (none, { s with wrote := a :: s.wrote }) := by
  change (match s.w.access a with
    | none => (none, { s with wrote := a :: s.wrote })
    | some f => (some (), { s with w := s.w.setByte f (a % 4096) b, wrote := a :: s.wrote })) = _
  rw [h]

theorem storeByte_some (h : s.w.access a = some f) :
    (storeByte a b).run s = (some (), { s with w := s.w.setByte f (a % 4096) b, wrote := a :: s.wrote }) := by
  change (match s.w.access a with
    | none => (none, { s with wrote := a :: s.wrote })
    | some f => (some (), { s with w := s.w.setByte f (a % 4096) b, wrote := a :: s.wrote })) = _
  rw [h]

/-- A store changes no translation. -/
theorem setByte_access (w : View) (f o : ℕ) (b : UInt8) (x : ℕ) : (w.setByte f o b).access x = w.access x := rfl

theorem setByte_bytes (w : View) (f o : ℕ) (b : UInt8) (g i : ℕ) :
    (w.setByte f o b).m.bytes g i = if g = f ∧ i = o then b else w.m.bytes g i := by
  unfold View.setByte View.setBytes
  dsimp only
  by_cases hg : g = f
  · subst hg
    by_cases hi : i = o
    · rw [update_self, hi, update_self, if_pos ⟨rfl, rfl⟩]
    · rw [update_self, update_of_ne hi, if_neg (fun h => hi h.2)]
  · rw [update_of_ne hg, if_neg (fun h => hg h.1)]

end ComputerOS.Loader
