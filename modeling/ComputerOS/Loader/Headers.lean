import ComputerOS.Lib.Memory
import Mathlib.Data.Int.Notation
import Mathlib.Algebra.Ring.Nat
import Mathlib.Algebra.Ring.Int.Defs

/-!
The first part of `elf_map`: the ELF header and the program headers. They are read into a buffer of
the kernel heap, of which `vfs_read_file` fills as many bytes as the file has; behind them stands
what was in the heap before. The end of the program headers is computed at 64 bits, the size of the
buffer at 32, and the two are compared as `int`.
-/
namespace ComputerOS.Loader

def u32 (x : ℕ) : ℕ := x % 2 ^ 32

def u64 (x : ℕ) : ℕ := x % 2 ^ 64

def int32 (x : ℕ) : ℤ := if x < 2 ^ 31 then x else x - 2 ^ 32

def ELFCLASS64 : ℕ := 2
def ELFDATA2LSB : ℕ := 1
def ET_EXEC : ℕ := 2
def ET_DYN : ℕ := 3
def EM_X86_64 : ℕ := 62
def PT_LOAD : ℕ := 1
def PT_INTERP : ℕ := 3
def PT_PHDR : ℕ := 6
def MAX_PHDRS : ℕ := 32

def EHDR_SIZE : ℕ := 64

def PHDR_SIZE : ℕ := 56

/-- The size of the kernel heap when it has grown to its limit. -/
def KHEAP_BYTES : ℕ := 131072 * 4096

structure Ehdr where
  elfClass : ℕ
  data : ℕ
  type : ℕ
  machine : ℕ
  entry : ℕ
  phoff : ℕ
  phentsize : ℕ
  phnum : ℕ

structure Phdr where
  type : ℕ
  offset : ℕ
  vaddr : ℕ
  filesz : ℕ
  memsz : ℕ
  deriving DecidableEq

def ehdrAt (buf : Mem) : Ehdr where
  elfClass := buf.getLE 4 1
  data := buf.getLE 5 1
  type := buf.getLE 16 2
  machine := buf.getLE 18 2
  entry := buf.getLE 24 8
  phoff := buf.getLE 32 8
  phentsize := buf.getLE 54 2
  phnum := buf.getLE 56 2

def phdrAt (buf : Mem) (o : ℕ) : Phdr where
  type := buf.getLE o 4
  offset := buf.getLE (o + 8) 8
  vaddr := buf.getLE (o + 16) 8
  filesz := buf.getLE (o + 32) 8
  memsz := buf.getLE (o + 40) 8

/-- The header is one that `elf_map` goes on with. -/
def Ehdr.accepted (eh : Ehdr) : Bool :=
  eh.elfClass = ELFCLASS64 ∧ eh.data = ELFDATA2LSB ∧ (eh.type = ET_EXEC ∨ eh.type = ET_DYN) ∧
    eh.machine = EM_X86_64 ∧ eh.phnum ≠ 0 ∧ eh.phoff ≠ 0

def Ehdr.phdrsEnd (eh : Ehdr) : ℕ := u64 (eh.phoff + eh.phnum * eh.phentsize)

/-- `hdr_buf_sz` for headers that end behind the first 4096 bytes. -/
def Ehdr.bufSize (eh : Ehdr) : ℕ := u32 (u64 (eh.phdrsEnd + 4095) / 4096 * 4096)

def Ehdr.nph (eh : Ehdr) : ℕ := min eh.phnum MAX_PHDRS

/-- What a buffer and its filling depend on: whether the heap has room, what the memory held before,
whether the file can be read, and how many of its bytes are lost, since `fat32` stops without an
error at a cluster that the disk does not give. -/
structure ReadEnv where
  room : Bool := true
  junk : Mem := fun _ => 0
  readOk : Bool := true
  lost : ℕ := 0

def ReadEnv.kmalloc (e : ReadEnv) (size : ℕ) : Bool := e.room && decide (0 < size ∧ size < KHEAP_BYTES)

/-- The bytes that `vfs_read_file(path, buf, size)` stores. -/
def ReadEnv.count (e : ReadEnv) (file : List UInt8) (size : ℕ) : ℕ := min file.length size - e.lost

/-- The buffer after the read: the bytes of the file, and what was there behind them. -/
def ReadEnv.fill (e : ReadEnv) (file : List UInt8) (size : ℕ) : Mem :=
  fun i => if i < e.count file size then file.getD i 0 else e.junk i

def ReadEnv.got (e : ReadEnv) (file : List UInt8) (size : ℕ) : ℤ := if e.readOk then int32 (e.count file size) else -1

/-- The header, and the buffer that the program headers are copied from: `vfs_read_file` has filled
its first `filled` bytes. -/
structure Headers where
  eh : Ehdr
  buf : Mem
  filled : ℕ

/-- The header of the file, when it is accepted. -/
def readEhdr (e : ReadEnv) (file : List UInt8) : Option Ehdr :=
  if e.kmalloc 4096 = false then none
  else if e.got file 4096 < EHDR_SIZE then none
  else
    let eh := ehdrAt (e.fill file 4096)
    if eh.accepted then some eh else none

/-- The buffer is read again when the program headers end behind it. -/
def expand (e : ReadEnv) (file : List UInt8) (eh : Ehdr) : Option Headers :=
  if e.kmalloc eh.bufSize = false then none
  else if e.got file eh.bufSize < int32 (u32 eh.phdrsEnd) then none
  else some ⟨eh, e.fill file eh.bufSize, e.count file eh.bufSize⟩

def readHeaders (e₁ e₂ : ReadEnv) (file : List UInt8) : Option Headers :=
  match readEhdr e₁ file with
  | none => none
  | some eh =>
    if 4096 < eh.phdrsEnd then expand e₂ file eh else some ⟨eh, e₁.fill file 4096, e₁.count file 4096⟩

/-- Where the header `i` is copied from. -/
def Ehdr.phdrOffset (eh : Ehdr) (i : ℕ) : ℕ := u64 (eh.phoff + i * eh.phentsize)

def Headers.phdrs (h : Headers) : List Phdr := (List.range h.eh.nph).map fun i => phdrAt h.buf (h.eh.phdrOffset i)

/-- Every program header that is copied lies in the bytes that were read, and the sum that the size
of the buffer is rounded up from wraps at neither of its additions. -/
def HeadersInside (e₁ e₂ : ReadEnv) (file : List UInt8) : Prop :=
  (∀ eh, readEhdr e₁ file = some eh → eh.phoff + eh.phnum * eh.phentsize + 4095 < 2 ^ 64) ∧
  ∀ h, readHeaders e₁ e₂ file = some h → ∀ i < h.eh.nph, h.eh.phdrOffset i + PHDR_SIZE ≤ h.filled

/-- The header that the file begins with. -/
def fileEhdr (file : List UInt8) : Ehdr := ehdrAt fun i => file.getD i 0

/-- The first read gives an ELF header. -/
def ReadEnv.HasEhdr (e : ReadEnv) (file : List UInt8) : Prop :=
  e.kmalloc 4096 ∧ e.readOk ∧ EHDR_SIZE ≤ e.count file 4096

/-- The larger buffer is refused, or the second read does not fill it. -/
def Refused (e : ReadEnv) (file : List UInt8) (eh : Ehdr) : Prop :=
  4096 < eh.phdrsEnd ∧
    (e.kmalloc eh.bufSize = false ∨ e.readOk = false ∨ e.count file eh.bufSize < u32 eh.phdrsEnd)

def readSize (e₁ e₂ : ReadEnv) (file : List UInt8) (eh : Ehdr) : ℕ :=
  if 4096 < eh.phdrsEnd then e₂.count file eh.bufSize else e₁.count file 4096

/-- The end of the last program header that is copied. -/
def Ehdr.lastEnd (eh : Ehdr) : ℕ := eh.phoff + (eh.nph - 1) * eh.phentsize + PHDR_SIZE

variable {e e₁ e₂ : ReadEnv} {file : List UInt8} {eh : Ehdr} {h : Headers} {n : ℕ}

theorem int32_of_lt (hn : n < 2 ^ 31) : int32 n = n := if_pos hn

theorem count_le (e : ReadEnv) (file : List UInt8) (size : ℕ) : e.count file size ≤ min file.length
    size := Nat.sub_le _ _

/-- What stands behind the bytes read does not show in the header. -/
theorem ehdr_fill (hlen : EHDR_SIZE ≤ e.count file 4096) : ehdrAt (e.fill file 4096) = fileEhdr file := by
  have hsame : ∀ i < 64, e.fill file 4096 i = file.getD i 0 := by
    intro i hi
    unfold EHDR_SIZE at hlen
    exact if_pos (by omega)
  have hfield : ∀ a w, a + w ≤ 64 → (e.fill file 4096).getLE a w = Mem.getLE (fun i => file.getD i 0) a w :=
    fun a w hw => Mem.getLE_congr fun i hi => hsame _ (by omega)
  unfold fileEhdr ehdrAt
  rw [hfield 4 1 (by omega), hfield 5 1 (by omega), hfield 16 2 (by omega), hfield 18 2 (by omega),
    hfield 24 8 (by omega), hfield 32 8 (by omega), hfield 54 2 (by omega), hfield 56 2 (by omega)]

/-- A read that fails returns less than any number that is not negative. -/
theorem le_got_iff {size : ℕ} (hsize : size < 2 ^ 31) : (n : ℤ) ≤ e.got file size ↔ e.readOk ∧
    n ≤ e.count file size := by
  have hle := count_le e file size
  unfold ReadEnv.got
  split
  · rename_i hok
    rw [int32_of_lt (by omega)]
    exact ⟨fun h => ⟨hok, by omega⟩, fun h => by omega⟩
  · rename_i hok
    exact ⟨fun h => by omega, fun h => absurd h.1 hok⟩

theorem readEhdr_eq_some : readEhdr e file = some eh ↔ e.HasEhdr file ∧ (fileEhdr file).accepted ∧
    eh = fileEhdr file := by
  unfold readEhdr ReadEnv.HasEhdr
  have hgot := @le_got_iff e file EHDR_SIZE 4096 (by decide)
  by_cases hroom : e.kmalloc 4096 = false
  · simp [hroom]
  rw [if_neg hroom]
  by_cases hn : e.got file 4096 < EHDR_SIZE
  · rw [if_pos hn]
    have hno : ¬ (e.readOk ∧ EHDR_SIZE ≤ e.count file 4096) := fun h => absurd (hgot.2 h) (Int.not_le.2 hn)
    exact ⟨fun h => (by cases h), fun h => absurd h.1.2 hno⟩
  rw [if_neg hn]
  have hok := hgot.1 (Int.not_lt.1 hn)
  dsimp only
  rw [ehdr_fill hok.2]
  by_cases hacc : (fileEhdr file).accepted
  · rw [if_pos hacc]
    exact ⟨fun h => ⟨⟨Bool.eq_true_of_not_eq_false hroom, hok⟩, hacc, (Option.some.inj h).symm⟩, fun h => by rw [h.2.2]⟩
  · rw [if_neg hacc]
    exact ⟨fun h => (by cases h), fun h => absurd h.2.1 hacc⟩

theorem accepted_pos (hacc : eh.accepted) : 0 < eh.nph := by
  unfold Ehdr.accepted at hacc
  simp only [decide_eq_true_eq] at hacc
  unfold Ehdr.nph MAX_PHDRS
  have := hacc.2.2.2.2.1
  omega

/-- Without a wrap the headers lie one behind the other, the last one last. -/
theorem copied_iff (hacc : eh.accepted) (hsum : eh.phoff + eh.phnum * eh.phentsize < 2 ^ 64) :
    (∀ i < eh.nph, eh.phdrOffset i + PHDR_SIZE ≤ n) ↔ eh.lastEnd ≤ n := by
  have hpos := accepted_pos hacc
  have hnph : eh.nph ≤ eh.phnum := Nat.min_le_left _ _
  have hoff : ∀ i < eh.nph, eh.phdrOffset i = eh.phoff + i * eh.phentsize := fun i hi => by
    have := Nat.mul_le_mul_right eh.phentsize (hi.le.trans hnph)
    exact Nat.mod_eq_of_lt (by omega)
  unfold Ehdr.lastEnd
  constructor
  · intro h
    rw [← hoff _ (Nat.sub_one_lt hpos.ne')]
    exact h _ (Nat.sub_one_lt hpos.ne')
  · intro h i hi
    rw [hoff i hi]
    have := Nat.mul_le_mul_right eh.phentsize (Nat.le_sub_one_of_lt hi)
    omega

/-- A buffer that the heap has room for holds what the low 32 bits of the end say. -/
theorem phdrsEnd_le_bufSize (hroom : e.kmalloc eh.bufSize) : u32 eh.phdrsEnd ≤ eh.bufSize ∧ eh.bufSize < 2 ^ 31 := by
  have hend : eh.phdrsEnd < 2 ^ 64 := Nat.mod_lt _ (by decide)
  simp only [ReadEnv.kmalloc, Bool.and_eq_true, decide_eq_true_eq] at hroom
  unfold Ehdr.bufSize KHEAP_BYTES u32 u64 at *
  omega

/-- The larger buffer is filled exactly when it is not refused. -/
theorem expand_eq (e : ReadEnv) (file : List UInt8) (hend : 4096 < eh.phdrsEnd) : expand e file eh = some h ↔
    ¬ Refused e file eh ∧ h = ⟨eh, e.fill file eh.bufSize, e.count file eh.bufSize⟩ := by
  unfold expand Refused
  by_cases hroom : e.kmalloc eh.bufSize = false
  · simp [hroom, hend]
  rw [if_neg hroom]
  rw [Bool.not_eq_false] at hroom
  obtain ⟨hle, hlt⟩ := phdrsEnd_le_bufSize hroom
  have hgot := @le_got_iff e file (u32 eh.phdrsEnd) eh.bufSize hlt
  rw [int32_of_lt (show u32 eh.phdrsEnd < 2 ^ 31 by omega)]
  have hread : e.got file eh.bufSize < (u32 eh.phdrsEnd : ℕ) ↔
      e.readOk = false ∨ e.count file eh.bufSize < u32 eh.phdrsEnd := by
    rw [← Int.not_le, hgot, not_and_or, Bool.not_eq_true, Nat.not_le]
  simp only [hroom, hend, true_and, Bool.true_eq_false, false_or]
  by_cases hshort : e.got file eh.bufSize < (u32 eh.phdrsEnd : ℕ)
  · rw [if_pos hshort]
    exact ⟨fun h => (by cases h), fun h => absurd (hread.1 hshort) h.1⟩
  · rw [if_neg hshort]
    exact ⟨fun h => ⟨fun h' => hshort (hread.2 h'), (Option.some.inj h).symm⟩, fun h => by rw [h.2]⟩

/-- What the program headers are copied from. -/
theorem readHeaders_eq (hr : readHeaders e₁ e₂ file = some h) :
    h.eh = fileEhdr file ∧ e₁.HasEhdr file ∧ h.eh.accepted ∧ ¬ Refused e₂ file h.eh ∧
    h.filled = readSize e₁ e₂ file h.eh := by
  unfold readHeaders at hr
  split at hr
  · cases hr
  rename_i eh heh
  obtain ⟨hread, hacc, rfl⟩ := readEhdr_eq_some.1 heh
  split at hr
  · rename_i hend
    obtain ⟨hfits, rfl⟩ := (expand_eq e₂ file hend).1 hr
    exact ⟨rfl, hread, hacc, hfits, by rw [readSize, if_pos hend]⟩
  · rename_i hend
    cases hr
    exact ⟨rfl, hread, hacc, fun h => hend h.1, by rw [readSize, if_neg hend]⟩

theorem readHeaders_of_fits (hread : e₁.HasEhdr file) (hacc : (fileEhdr file).accepted)
    (hfits : ¬ Refused e₂ file (fileEhdr file)) :
    ∃ h, readHeaders e₁ e₂ file = some h ∧ h.eh = fileEhdr file ∧ h.filled = readSize e₁ e₂ file (fileEhdr file) := by
  unfold readHeaders
  rw [readEhdr_eq_some.2 ⟨hread, hacc, rfl⟩]
  dsimp only
  split
  · rename_i hend
    exact ⟨_, (expand_eq e₂ file hend).2 ⟨hfits, rfl⟩, rfl, by rw [readSize, if_pos hend]⟩
  · rename_i hend
    exact ⟨_, rfl, rfl, by rw [readSize, if_neg hend]⟩

/-- The program headers are read from the file alone exactly when the sum of their end does not wrap
and the last one that is copied ends in the bytes that were read: the end is not compared with these
when it lies in the first 4096, and only its low 32 bits are when it lies behind them. -/
theorem headers_inside_iff (e₁ e₂ : ReadEnv) (file : List UInt8) :
    HeadersInside e₁ e₂ file ↔
      (e₁.HasEhdr file → (fileEhdr file).accepted →
        (fileEhdr file).phoff + (fileEhdr file).phnum * (fileEhdr file).phentsize + 4095 < 2 ^ 64 ∧
          (Refused e₂ file (fileEhdr file) ∨ (fileEhdr file).lastEnd ≤ readSize e₁ e₂ file (fileEhdr file))) := by
  constructor
  · rintro ⟨hsum, hcopied⟩ hread hacc
    have hend := hsum _ (readEhdr_eq_some.2 ⟨hread, hacc, rfl⟩)
    refine ⟨hend, or_iff_not_imp_left.2 fun hfits => ?_⟩
    obtain ⟨h, hr, heh, hfilled⟩ := readHeaders_of_fits hread hacc hfits
    have hin := hcopied h hr
    rw [heh, hfilled] at hin
    exact (copied_iff hacc (by omega)).1 hin
  · intro hcond
    constructor
    · intro eh hr
      obtain ⟨hread, hacc, rfl⟩ := readEhdr_eq_some.1 hr
      exact (hcond hread hacc).1
    · intro h hr
      obtain ⟨heh, hread, hacc, hfits, hfilled⟩ := readHeaders_eq hr
      rw [heh] at hacc hfits hfilled ⊢
      rw [hfilled]
      obtain ⟨hsum, hin⟩ := hcond hread hacc
      exact (copied_iff hacc (by omega)).2 (hin.resolve_left hfits)

/-- A file of an ELF header alone, whose one program header is said to lie behind the end of the
file. -/
def headerOnly : List UInt8 :=
  [0x7f, 0x45, 0x4c, 0x46, 2, 1, 1, 0, 0, 0, 0, 0, 0, 0, 0, 0, 2, 0, 62, 0, 1, 0, 0, 0,
    0, 0, 0x40, 0, 0, 0, 0, 0, 0, 8, 0, 0, 0, 0, 0, 0, 0, 0, 0, 0, 0, 0, 0, 0,
    0, 0, 0, 0, 64, 0, 56, 0, 1, 0, 0, 0, 0, 0, 0, 0]

/-- The buffer has 4096 bytes, of which the file fills 64; the program header is copied from byte
2048 on. -/
theorem headers_read_past_file : ¬ HeadersInside {} {} headerOnly := by
  rintro ⟨-, hcopied⟩
  obtain ⟨h, hr, heh, hfilled⟩ := @readHeaders_of_fits {} {} headerOnly (by unfold ReadEnv.HasEhdr; decide) (by decide)
    (by unfold Refused; decide)
  have hin := hcopied h hr 0
  rw [heh, hfilled] at hin
  revert hin
  decide

end ComputerOS.Loader
