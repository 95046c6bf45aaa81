import ComputerOS.Lib.Memory

/-!
The physical page allocator. One bit for each page says whether it is in use; the bitmap
lies in the memory that it describes. Sizes and addresses are 64 bits wide, as in the C code.
-/
namespace ComputerOS.Pmm

inductive MemType
  | usable | reserved | acpiReclaim | acpiNvs | bad | bootloaderReclaim | kernelAndModules
  | framebuffer | other (n : ℕ)
deriving DecidableEq, Repr

/-- `memmap_entry_t` -/
structure Entry where
  base : ℕ
  length : ℕ
  type : MemType
deriving DecidableEq, Repr

def PAGE_SIZE : ℕ := 4096

/-- `PMM_ADDR_CAP`: 8 GiB. -/
def PMM_ADDR_CAP : ℕ := 8 * 1024 * 1024 * 1024

def u64 (n : ℕ) : ℕ := n % 2 ^ 64

def Entry.stop (e : Entry) : ℕ := u64 (e.base + e.length)

/-- The variables of `pmm.c`; `bitmap` holds the bytes from `g_bitmap` on, and `bitmapPhys` is
the physical address they lie at. -/
structure PmmState where
  bitmap : Mem
  bitmapPhys : ℕ
  totalPages : ℕ
  freePages : ℕ
  nextScan : ℕ

def bitTest (s : PmmState) (i : ℕ) : Bool := s.bitmap.bit i

def markUsedPage (s : PmmState) (i : ℕ) : PmmState :=
  if bitTest s i then s
  else { s with
    bitmap := s.bitmap.setBit i true
    freePages := if s.freePages ≠ 0 then s.freePages - 1 else s.freePages }

def markUsed (base size : ℕ) (s : PmmState) : PmmState :=
  let start := base / PAGE_SIZE
  let stop := u64 (base + size + (PAGE_SIZE - 1)) / PAGE_SIZE
  (List.range' start (min stop s.totalPages - start)).foldl markUsedPage s

def markFreePage (s : PmmState) (i : ℕ) : PmmState :=
  if s.totalPages ≤ i then s
  else if bitTest s i then
    { s with bitmap := s.bitmap.setBit i false, freePages := u64 (s.freePages + 1) }
  else s

/-- Pass 1: the highest usable address below the cap. -/
def topAddress (mm : List Entry) : ℕ :=
  let top := mm.foldl (fun top e =>
    if e.type ≠ .usable ∧ e.type ≠ .bootloaderReclaim then top
    else
      let stop := if PMM_ADDR_CAP < e.stop then PMM_ADDR_CAP else e.stop
      if top < stop then stop else top) 0
  if top = 0 then 0x10000000 else top

/-- Pass 2: the address for a bitmap of `bytes` bytes, in usable memory that begins below 4 GiB. -/
def findBitmap (bytes : ℕ) (mm : List Entry) : Option ℕ :=
  mm.findSome? fun e =>
    if e.type ≠ .usable then none
    else if 0x100000000 ≤ e.base then none
    else
      let base := if e.base < 0x100000 then 0x100000 else e.base
      if e.stop ≤ base then none
      else if bytes ≤ e.stop - base then some base
      else none

/-- One entry in pass 3 (`t` usable) or pass 4 (`t` bootloader reclaimable). -/
def freeEntry (t : MemType) (s : PmmState) (e : Entry) : PmmState :=
  if e.type ≠ t then s
  else if PMM_ADDR_CAP ≤ e.base then s
  else
    let start := u64 (e.base + (PAGE_SIZE - 1)) / PAGE_SIZE
    let len := if PMM_ADDR_CAP < e.stop then PMM_ADDR_CAP - e.base else e.length
    let stop := u64 (e.base + len) / PAGE_SIZE
    let stop := if s.totalPages < stop then s.totalPages else stop
    (List.range' start (stop - start)).foldl markFreePage s

def bitmapBytes (totalPages : ℕ) : ℕ := (totalPages + 7) / 8

/-- `pmm_init`, from boot; `none` when it halts for want of room. `mem` is what the memory
for the bitmap held before. -/
def pmmInit (mm : List Entry) (mem : Mem) : Option PmmState :=
  let totalPages := topAddress mm / PAGE_SIZE
  let bytes := bitmapBytes totalPages
  (findBitmap bytes mm).map fun phys =>
    let s : PmmState :=
      { bitmap := fun i => if i < bytes then 0xFF else mem i
        bitmapPhys := phys, totalPages, freePages := 0, nextScan := 0 }
    let s := mm.foldl (freeEntry .usable) s
    let s := mm.foldl (freeEntry .bootloaderReclaim) s
    markUsed 0 PAGE_SIZE (markUsed phys bytes s)

def takePage (s : PmmState) (i : ℕ) : ℕ × PmmState :=
  (i * PAGE_SIZE, { s with
    bitmap := s.bitmap.setBit i true, freePages := s.freePages - 1, nextScan := i + 1 })

/-- `pmm_alloc`: the address of a page, 0 when there is none. -/
def pmmAlloc (s : PmmState) : ℕ × PmmState :=
  match (List.range' s.nextScan (s.totalPages - s.nextScan)).find? fun i => !bitTest s i with
  | some i => takePage s i
  | none =>
    match (List.range' 1 (s.nextScan - 1)).find? fun i => !bitTest s i with
    | some i => takePage s i
    | none => (0, s)

def pmmFree (phys : ℕ) (s : PmmState) : PmmState :=
  let i := phys / PAGE_SIZE
  if s.totalPages ≤ i then s
  else if !bitTest s i then s
  else
    { s with
      bitmap := s.bitmap.setBit i false
      freePages := u64 (s.freePages + 1)
      nextScan := if i < s.nextScan then i else s.nextScan }

end ComputerOS.Pmm
