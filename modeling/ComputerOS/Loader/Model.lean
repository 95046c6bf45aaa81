import ComputerOS.Lib.Fallible
import Mathlib.Logic.Function.Basic
import Mathlib.Data.Int.Notation
import Mathlib.Algebra.Ring.Nat
import Mathlib.Algebra.Ring.Int.Defs

/-!
The memory of user programs: the pages that a task gets from the loading of its program, `brk`,
`mmap` and `fork`, and the records by which they are freed. Page tables are maps from pages to
frames; that the tables in memory are such maps is shown for `vmm_map_in` and `vmm_resolve_in`.
-/
namespace ComputerOS.Loader

open Function Fallible

def LOADER_PIE_BASE : ℕ := 0x0000555555554000

def LOADER_INTERP_BASE : ℕ := 0x00007f0000000000

def LOADER_CODE_VIRT : ℕ := 0x01000000

def LOADER_CODE_PAGES : ℕ := 16

def LOADER_CODE_BYTES : ℕ := LOADER_CODE_PAGES * 4096

def LOADER_STACK_TOP : ℕ := 0x7fff0000

def LOADER_STACK_PAGE : ℕ := LOADER_STACK_TOP - 0x1000

def LOADER_STACK_PAGES : ℕ := 8

def LOADER_HEAP_BASE : ℕ := 0x02000000

def LOADER_HEAP_MAX : ℕ := 0x10000000

def PAGES_PER_BLOCK : ℕ := 64

def ENOMEM : ℤ := -12

def EINVAL : ℤ := -22

def toInt64 (x : ℕ) : ℤ := if x < 2 ^ 63 then x else x - 2 ^ 64

/-- The bits of an address that index the page tables. -/
def page (v : ℕ) : ℕ := v / 4096 % 2 ^ 36

/-- The lower half has this many pages. -/
def USER_PAGES : ℕ := 2 ^ 35

/-- `user_resources_t`, its `page_block_t` list from the head, and the page table of the task. -/
structure Space where
  pd : ℕ → Option ℕ := fun _ => none
  blocks : List (List (ℕ × ℕ)) := []
  heapBase : ℕ := LOADER_HEAP_BASE
  heapBrk : ℕ := LOADER_HEAP_BASE
  heapMax : ℕ := LOADER_HEAP_BASE + LOADER_HEAP_MAX

/-- The recorded pairs of a page's address and its frame. -/
def Space.records (u : Space) : List (ℕ × ℕ) := u.blocks.flatten

/-- The frames of the machine, and the upper half that all spaces share: where the kernel's root
has an entry, given by its index, the tables below it are the kernel's. -/
structure Frames where
  allocated : ℕ → Bool
  bytes : ℕ → ℕ → UInt8
  shared : ℕ → Bool
  kernel : ℕ → Option ℕ

/-- One space and the frames. -/
structure View where
  u : Space
  m : Frames

/-- The address is looked up in the space's own tables. -/
def Frames.own (m : Frames) (v : ℕ) : Bool := page v < USER_PAGES || !m.shared (page v / 2 ^ 27)

/-- `vmm_resolve_in`: the frame at an address. -/
def View.resolve (w : View) (v : ℕ) : Option ℕ := if w.m.own v then w.u.pd (page v) else w.m.kernel (page v)

/-- `vmm_map_in`, when there are frames for its tables. -/
def View.mapIn (w : View) (v f : ℕ) : View :=
  if w.m.own v then { w with u := { w.u with pd := update w.u.pd (page v) (some f) } }
  else { w with m := { w.m with kernel := update w.m.kernel (page v) (some f) } }

/-- `pmm_alloc`, where `f` is the frame that it finds, 0 for none. -/
def pmmAlloc (f : ℕ) (m : Frames) : Option Frames :=
  if f = 0 ∨ m.allocated f then none else some { m with allocated := update m.allocated f true }

def pmmFree (f : ℕ) (m : Frames) : Frames := { m with allocated := update m.allocated f false }

def View.setBytes (w : View) (f : ℕ) (bytes : ℕ → UInt8) : View :=
  { w with m := { w.m with bytes := update w.m.bytes f bytes } }

/-- What the placing of a page depends on: the frame that `pmm_alloc` finds, whether `vmm_map_in`
finds frames for its tables, and whether `kmalloc` has memory for a block of records. -/
structure PageEnv where
  frame : ℕ := 0
  mapOk : Bool := true
  recOk : Bool := true

def recordPage (recOk : Bool) (v f : ℕ) (u : Space) : Option Space :=
  match u.blocks with
  | b :: bs =>
    if b.length < PAGES_PER_BLOCK then some { u with blocks := (b ++ [(v, f)]) :: bs }
    else if recOk then some { u with blocks := [(v, f)] :: u.blocks } else none
  | [] => if recOk then some { u with blocks := [[(v, f)]] } else none

/-- The record of a page just mapped; without memory for it the frame is freed. -/
def recorded (e : PageEnv) (v : ℕ) (w : View) : Option Unit × View :=
  match recordPage e.recOk v e.frame w.u with
  | some u => (some (), { w with u := u })
  | none => (none, { w with m := pmmFree e.frame w.m })

def allocUserPage (e : PageEnv) (v : ℕ) : Fallible View Unit := .mk fun w =>
  match pmmAlloc e.frame w.m with
  | none => (none, w)
  | some m =>
    if e.mapOk then recorded e v ((View.mapIn { w with m := m } v e.frame).setBytes e.frame fun _ => 0)
    else (none, { w with m := pmmFree e.frame m })

theorem allocUserPage_none {e : PageEnv} {w : View} (v : ℕ) (h : pmmAlloc e.frame w.m = none) :
    (allocUserPage e v).run w = (none, w) := by
  simp only [allocUserPage, Fallible.mk, Fallible.run, h]

theorem allocUserPage_some {e : PageEnv} {w : View} {m : Frames} (v : ℕ) (h : pmmAlloc e.frame w.m = some m) :
    (allocUserPage e v).run w =
      if e.mapOk then recorded e v ((View.mapIn { w with m := m } v e.frame).setBytes e.frame fun _ => 0)
      else (none, { w with m := pmmFree e.frame m }) := by
  simp only [allocUserPage, Fallible.mk, Fallible.run, h]

/-- A page that is mapped already is left as it is: the loops of `elf_map` and `loader_sbrk64`,
and `loader_map_anon_page`. -/
def loaderMapAnonPage (e : PageEnv) (v : ℕ) : Fallible View Unit := .mk fun w =>
  if (w.resolve v).isSome then (some (), w) else (allocUserPage e v).run w

/-- The pages of a range whose ends are multiples of the page size. -/
def pagesIn (start stop : ℕ) : List ℕ := (List.range ((stop - start) / 0x1000)).map fun i => start + i * 0x1000

/-- `(x + 0xFFF) & ~0xFFF` -/
def pageUp (x : ℕ) : ℕ := (x + 0xFFF) % 2 ^ 64 / 0x1000 * 0x1000

def releaseResources (u : Space) (m : Frames) : Frames :=
  u.records.foldl (fun m r => if r.2 = 0 then m else pmmFree r.2 m) m

/-- A `PT_LOAD` header, and whether `vfs_read_at` gets all of the segment. What a segment holds is
not followed. -/
structure Segment where
  vaddr : ℕ
  filesz : ℕ
  memsz : ℕ
  readOk : Bool := true

/-- An ELF file whose header `elf_map` accepts. -/
structure Elf where
  dyn : Bool
  entry : ℕ
  loads : List Segment

def Elf.minVaddr (f : Elf) : ℕ := (f.loads.map Segment.vaddr).foldl min (2 ^ 64 - 1)

def Elf.bias (f : Elf) (dynBase : ℕ) : ℕ :=
  if f.dyn then (dynBase + 2 ^ 64 - f.minVaddr / 0x1000 * 0x1000) % 2 ^ 64 else 0

def Segment.pages (bias : ℕ) (s : Segment) : List ℕ :=
  pagesIn ((s.vaddr + bias) % 2 ^ 64 / 0x1000 * 0x1000) (pageUp (s.vaddr + bias + s.memsz))

/-- One round of the mapping loop of `elf_map`. -/
def mapSegment (bias : ℕ) (env : ℕ → PageEnv) (s : Segment) : Fallible View Unit :=
  if s.memsz = 0 then pure ()
  else if s.memsz < s.filesz then fail
  else each loaderMapAnonPage env (s.pages bias)

def elfMap (dynBase : ℕ) (env : ℕ → ℕ → PageEnv) (f : Elf) : Fallible View ℕ := do
  check (f.minVaddr ≠ 2 ^ 64 - 1)
  each (mapSegment (f.bias dynBase)) env f.loads
  check (f.loads.all fun s => s.filesz = 0 || s.readOk)
  pure ((f.entry + f.bias dynBase) % 2 ^ 64)

/-- A program's file: a flat binary of some size, or an ELF file with its dynamic loader, if it
names one. A file that is refused before any page is mapped is `none`. -/
inductive Image where
  | flat (filesz : ℕ)
  | elf (main : Option Elf) (interp : Option (Option Elf))

def elfLoadProgram (main : Option Elf) (interp : Option (Option Elf)) (env : ℕ → ℕ → ℕ → PageEnv) :
    Fallible View ℕ :=
  match main with
  | none => fail
  | some f => do
    let entry ← elfMap LOADER_PIE_BASE (env 0) f
    match interp with
    | none => pure entry
    | some none => fail
    | some (some g) => elfMap LOADER_INTERP_BASE (env 1) g

def flatPages : List ℕ := (List.range LOADER_CODE_PAGES).map fun i => LOADER_CODE_VIRT + i * 4096

def flatLoad (filesz : ℕ) (env : ℕ → PageEnv) : Fallible View ℕ := do
  check (filesz ≤ LOADER_CODE_BYTES)
  each allocUserPage env flatPages
  pure LOADER_CODE_VIRT

/-- The program's pages and its entry point, which is not 0. -/
def loadImage (image : Image) (env : ℕ → ℕ → ℕ → PageEnv) : Fallible View ℕ := do
  let entry ← match image with
    | .flat filesz => flatLoad filesz (env 0 0)
    | .elf main interp => elfLoadProgram main interp env
  check (entry ≠ 0)
  pure entry

def stackPages : List ℕ := (List.range (LOADER_STACK_PAGES + 1)).map fun i => LOADER_STACK_PAGE + 0x1000 - i * 0x1000

def mapUserStack (env : ℕ → PageEnv) : Fallible View Unit := each allocUserPage env stackPages

/-- What a load depends on: the root of the new space, the `user_resources_t`, the file (`none` when
it cannot be read), the pages, whether the arguments fit on the stack, and whether there is a task.
-/
structure LoadEnv where
  pdOk : Bool := true
  resOk : Bool := true
  image : Option Image
  pages : ℕ → ℕ → ℕ → PageEnv
  stack : ℕ → PageEnv
  argsFit : Bool := true
  taskOk : Bool := true

/-- `loader_run_args`, up to the new task. When the program cannot be loaded the frames that were
recorded for it stay allocated. -/
def loaderRunArgs (env : LoadEnv) (m : Frames) : Option Space × Frames :=
  if !env.pdOk || !env.resOk then (none, m)
  else match env.image with
    | none => (none, m)
    | some image =>
      match (loadImage image env.pages).run ⟨{}, m⟩ with
      | (none, w) => (none, w.m)
      | (some _, w) =>
        match (mapUserStack env.stack).run w with
        | (none, w) => (none, releaseResources w.u w.m)
        | (some _, w) =>
          if env.argsFit && env.taskOk then (some w.u, w.m) else (none, releaseResources w.u w.m)

def execStack (linuxAbi : Bool) (env : ℕ → PageEnv) : Fallible View Unit :=
  if linuxAbi then mapUserStack env else allocUserPage (env 0) LOADER_STACK_PAGE

def doExec (linuxAbi : Bool) (env : LoadEnv) (m : Frames) : Option Space × Frames :=
  if !env.pdOk || !env.resOk then (none, m)
  else match env.image with
    | none => (none, m)
    | some (.flat filesz) =>
      if linuxAbi then (none, m) else build linuxAbi env (.flat filesz) m
    | some (.elf main interp) => build linuxAbi env (.elf main interp) m
where
  build (linuxAbi : Bool) (env : LoadEnv) (image : Image) (m : Frames) : Option Space × Frames :=
    match (loadImage image env.pages).run ⟨{}, m⟩ with
    | (none, w) => (none, releaseResources w.u w.m)
    | (some _, w) =>
      match (execStack linuxAbi env.stack).run w with
      | (none, w) => (none, releaseResources w.u w.m)
      | (some _, w) =>
        if !linuxAbi || env.argsFit then (some w.u, w.m) else (none, releaseResources w.u w.m)

/-- `loader_sbrk64`: the break before. -/
def loaderSbrk64 (delta : ℤ) (env : ℕ → PageEnv) (w : View) : ℕ × View :=
  let oldBrk := w.u.heapBrk
  if delta ≤ 0 then (oldBrk, w)
  else
    let newBrk := (oldBrk + delta.toNat) % 2 ^ 64
    if w.u.heapMax < newBrk then (oldBrk, w)
    else match (each loaderMapAnonPage env (pagesIn (pageUp oldBrk) (pageUp newBrk))).run w with
      | (none, w) => (oldBrk, w)
      | (some _, w) => (oldBrk, { w with u := { w.u with heapBrk := newBrk } })

def loaderSetBrk (brk : ℕ) (w : View) : View :=
  if w.u.heapBase ≤ brk ∧ brk ≤ w.u.heapBrk then { w with u := { w.u with heapBrk := brk } } else w

def loaderBrk (newBrk : ℕ) (env : ℕ → PageEnv) (w : View) : ℤ × View :=
  let cur := w.u.heapBrk
  if newBrk = 0 then (toInt64 cur, w)
  else if newBrk ≤ cur then (toInt64 newBrk, loaderSetBrk newBrk w)
  else
    let w := (loaderSbrk64 (toInt64 (newBrk - cur)) env w).2
    (toInt64 w.u.heapBrk, w)

/-- `loader_sbrk`: the break before, or -1. -/
def loaderSbrk (delta : ℤ) (env : ℕ → PageEnv) (w : View) : ℤ × View :=
  let oldBrk := w.u.heapBrk
  if delta ≤ 0 then (oldBrk, w)
  else
    let newBrk := (oldBrk + delta.toNat) % 2 ^ 64
    if w.u.heapMax < newBrk then (-1, w)
    else match (each allocUserPage env (pagesIn (pageUp oldBrk) (pageUp newBrk))).run w with
      | (none, w) => (-1, w)
      | (some _, w) => (oldBrk, { w with u := { w.u with heapBrk := newBrk } })

/-- One round of `clone_resources`. -/
def clonePage (e : PageEnv) (r : ℕ × ℕ) : Fallible View Unit := .mk fun w =>
  if r.2 = 0 then (some (), w)
  else match pmmAlloc e.frame w.m with
    | none => (none, w)
    | some m =>
      let w := View.setBytes { w with m := m } e.frame (m.bytes r.2)
      if e.mapOk then recorded e r.1 (w.mapIn r.1 e.frame)
      else (none, { w with m := pmmFree e.frame w.m })

def cloneResources (src : Space) (env : ℕ → PageEnv) : Fallible View Unit := each clonePage env src.records

/-- What `fork` depends on: the child's root, its `user_resources_t`, its pages, and its task. -/
structure ForkEnv where
  pdOk : Bool := true
  resOk : Bool := true
  pages : ℕ → PageEnv
  taskOk : Bool := true

def loaderFork (pr : Space) (env : ForkEnv) (m : Frames) : Option Space × Frames :=
  if !env.pdOk || !env.resOk then (none, m)
  else
    let child : Space := { heapBase := pr.heapBase, heapBrk := pr.heapBrk, heapMax := pr.heapMax }
    match (cloneResources pr env.pages).run ⟨child, m⟩ with
    | (none, w) => (none, releaseResources w.u w.m)
    | (some _, w) => if env.taskOk then (some w.u, w.m) else (none, releaseResources w.u w.m)

/-- The user tasks by their numbers, and the static `mmap_next`. -/
structure Sys where
  frames : Frames
  tasks : ℕ → Option Space
  mmapNext : ℕ

/-- Before the first program is loaded. -/
def boot (m : Frames) : Sys where
  frames := m
  tasks := fun _ => none
  mmapNext := 0x40000000

def Sys.put (s : Sys) (t : ℕ) (w : View) : Sys := { s with frames := w.m, tasks := update s.tasks t (some w.u) }

def Sys.onTask (s : Sys) (t : ℕ) (f : View → View) : Sys :=
  match s.tasks t with
  | none => s
  | some u => s.put t (f ⟨u, s.frames⟩)

/-- The number of pages that `sys_linux_mmap` maps for a length. -/
def mmapCount (length : ℕ) : ℕ := (length + 0xFFF) % 2 ^ 64 / 0x1000 % 2 ^ 32

/-- The addresses that it maps: `i * 0x1000` is a product of 32-bit numbers. -/
def mmapPages (base length : ℕ) : List ℕ :=
  (List.range (mmapCount length)).map fun i => (base + i * 0x1000 % 2 ^ 32) % 2 ^ 64

def sysLinuxMmap (t length flags : ℕ) (fd : ℤ) (env : ℕ → PageEnv) (s : Sys) : ℤ × Sys :=
  if fd = -1 ∨ flags.testBit 5 then
    let base := s.mmapNext
    let s := { s with mmapNext := (base + mmapCount length * 0x1000) % 2 ^ 64 }
    match s.tasks t with
    | none => (if mmapCount length = 0 then toInt64 base else ENOMEM, s)
    | some u =>
      match (each loaderMapAnonPage env (mmapPages base length)).run ⟨u, s.frames⟩ with
      | (none, w) => (ENOMEM, s.put t w)
      | (some _, w) => (toInt64 base, s.put t w)
  else (EINVAL, s)

/-- Memory changes: a program stores to its pages, or the kernel to any frame. -/
def Sys.store (s : Sys) (bytes : ℕ → ℕ → UInt8) : Sys := { s with frames := { s.frames with bytes := bytes } }

def mremap (t oldAddr oldSize newSize : ℕ) (env : ℕ → PageEnv) (bytes : ℕ → ℕ → UInt8) (s : Sys) : ℤ × Sys :=
  if newSize ≤ oldSize then (toInt64 oldAddr, s)
  else
    let (nb, s) := sysLinuxMmap t newSize 0x22 (-1) env s
    if nb < 0 then (ENOMEM, s) else (nb, s.store bytes)

def sysLinuxMunmap (s : Sys) : ℤ × Sys := (0, s)

/-- A task `t` that loads, calls or exits. -/
inductive Op where
  | load (t : ℕ) (env : LoadEnv)
  | fork (t child : ℕ) (env : ForkEnv)
  | exec (t : ℕ) (linuxAbi : Bool) (env : LoadEnv)
  | brk (t newBrk : ℕ) (env : ℕ → PageEnv)
  | sbrk (t : ℕ) (delta : ℤ) (env : ℕ → PageEnv)
  | mmap (t length flags : ℕ) (fd : ℤ) (env : ℕ → PageEnv)
  | mremap (t oldAddr oldSize newSize : ℕ) (env : ℕ → PageEnv) (bytes : ℕ → ℕ → UInt8)
  | munmap (t addr length : ℕ)
  | exit (t : ℕ)
  | store (bytes : ℕ → ℕ → UInt8)

/-- A new task gets a number that no task has. -/
def Sys.spawn (s : Sys) (t : ℕ) : Option Space × Frames → Sys
  | (none, m) => { s with frames := m }
  | (some u, m) => { s with frames := m, tasks := update s.tasks t (some u) }

def Op.run : Op → Sys → Sys
  | .load t env, s => s.spawn t (loaderRunArgs { env with taskOk := env.taskOk && (s.tasks t).isNone } s.frames)
  | .fork t child env, s =>
    match s.tasks t with
    | none => s
    | some u => s.spawn child (loaderFork u { env with taskOk := env.taskOk && (s.tasks child).isNone } s.frames)
  | .exec t linuxAbi env, s =>
    match s.tasks t with
    | none => s
    | some old =>
      match doExec linuxAbi env s.frames with
      | (none, m) => { s with frames := m }
      | (some u, m) => s.put t ⟨u, releaseResources old m⟩
  | .brk t newBrk env, s => s.onTask t fun w => (loaderBrk newBrk env w).2
  | .sbrk t delta env, s => s.onTask t fun w => (loaderSbrk delta env w).2
  | .mmap t length flags fd env, s => (sysLinuxMmap t length flags fd env s).2
  | .mremap t oldAddr oldSize newSize env bytes, s => (Loader.mremap t oldAddr oldSize newSize env bytes s).2
  | .munmap _ _ _, s => (sysLinuxMunmap s).2
  | .exit t, s =>
    match s.tasks t with
    | none => s
    | some u => { s with frames := releaseResources u s.frames, tasks := update s.tasks t none }
  | .store bytes, s => s.store bytes

/-- The states that calls which meet `ok` lead to. -/
inductive Run (ok : Op → Sys → Prop) : Sys → Prop
  | boot (m : Frames) : Run ok (boot m)
  | step {s : Sys} (op : Op) (h : Run ok s) (hop : ok op s) : Run ok (op.run s)

end ComputerOS.Loader
