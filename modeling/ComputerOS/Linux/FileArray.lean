import ComputerOS.Lib.Splice
import ComputerOS.Linux.BufferBounds

/-!
One descriptor of a file, from `open` to `close`, against an array of bytes with a position. The
content is in the write buffer if there is one, else on the disk; the calls agree with the array
as long as nothing is written behind a gap, no sum leaves 32 bits, and `ftruncate` does not make a
file with a write buffer longer. A new file that is closed untouched keeps one byte.
-/
namespace ComputerOS.Linux.Files

open Function

structure ByteFile where
  bytes : List UInt8
  pos : ℕ
deriving DecidableEq, Repr

/-- What the user sees of a call: the return value and the bytes read. -/
abbrev Answer := ℤ × List UInt8

namespace ByteFile

def read (count : ℕ) (f : ByteFile) : Answer × ByteFile :=
  let data := (f.bytes.drop f.pos).take count
  ((data.length, data), { f with pos := f.pos + data.length })

def write (data : List UInt8) (f : ByteFile) : Answer × ByteFile :=
  if data = [] then ((0, []), f)
  else ((data.length, []), ⟨splice 0 f.bytes f.pos data, f.pos + data.length⟩)

/-- A call at an offset, which leaves the position. -/
def at' (off : ℤ) (io : ByteFile → Answer × ByteFile) (f : ByteFile) : Answer × ByteFile :=
  if off < 0 then ((EINVAL, []), f)
  else
    let out := io { f with pos := off.toNat }
    (out.1, { out.2 with pos := f.pos })

def seekTo (offset whence : ℤ) (f : ByteFile) : Option ℤ :=
  if whence = 0 then some offset
  else if whence = 1 then some (f.pos + offset)
  else if whence = 2 then some (f.bytes.length + offset)
  else none

def lseek (offset whence : ℤ) (f : ByteFile) : Answer × ByteFile :=
  match seekTo offset whence f with
  | none => ((EINVAL, []), f)
  | some pos => if pos < 0 then ((EINVAL, []), f) else ((pos, []), { f with pos := pos.toNat })

def ftruncate (length : ℤ) (f : ByteFile) : Answer × ByteFile :=
  if length < 0 then ((EINVAL, []), f) else ((0, []), { f with bytes := resize 0 f.bytes length.toNat })

end ByteFile

inductive Call
  | read (count : ℕ)
  | write (data : List UInt8)
  | pread (count : ℕ) (off : ℤ)
  | pwrite (data : List UInt8) (off : ℤ)
  | lseek (offset whence : ℤ)
  | ftruncate (length : ℤ)
  | fsync
deriving DecidableEq, Repr

namespace Call

def onArray : Call → ByteFile → Answer × ByteFile
  | .read count => ByteFile.read count
  | .write data => ByteFile.write data
  | .pread count off => ByteFile.at' off (ByteFile.read count)
  | .pwrite data off => ByteFile.at' off (ByteFile.write data)
  | .lseek offset whence => ByteFile.lseek offset whence
  | .ftruncate length => ByteFile.ftruncate length
  | .fsync => fun f => ((0, []), f)

def run (env : Env) : Call → FileSt → Out
  | .read count => sysRead env count
  | .write data => sysWrite env data
  | .pread count off => sysPread off (sysRead env count)
  | .pwrite data off => sysPread off (sysWrite env data)
  | .lseek offset whence => sysLseek offset whence
  | .ftruncate length => sysFtruncate env length
  | .fsync => sysFsync env

def Changes : Call → Prop
  | .write data => data ≠ []
  | .pwrite data off => data ≠ [] ∧ 0 ≤ off
  | .ftruncate length => 0 ≤ length
  | _ => False

/-- Every argument is below `2 ^ 31`. -/
def Small : Call → Prop
  | .read count => count < 2 ^ 31
  | .write data => data.length < 2 ^ 31
  | .pread count off => count < 2 ^ 31 ∧ off < 2 ^ 31
  | .pwrite data off => data.length < 2 ^ 31 ∧ off < 2 ^ 31
  | .lseek offset _ => -2 ^ 63 ≤ offset ∧ offset < 2 ^ 31
  | .ftruncate length => length < 2 ^ 31
  | .fsync => True

instance : (c : Call) → Decidable c.Changes
  | .write _ => inferInstanceAs (Decidable (_ ≠ _))
  | .pwrite _ _ => inferInstanceAs (Decidable (_ ∧ _))
  | .ftruncate _ => inferInstanceAs (Decidable (_ ≤ _))
  | .read _ => inferInstanceAs (Decidable False)
  | .pread _ _ => inferInstanceAs (Decidable False)
  | .lseek _ _ => inferInstanceAs (Decidable False)
  | .fsync => inferInstanceAs (Decidable False)

instance : (c : Call) → Decidable c.Small
  | .read _ => inferInstanceAs (Decidable (_ < _))
  | .write _ => inferInstanceAs (Decidable (_ < _))
  | .pread _ _ => inferInstanceAs (Decidable (_ ∧ _))
  | .pwrite _ _ => inferInstanceAs (Decidable (_ ∧ _))
  | .lseek _ _ => inferInstanceAs (Decidable (_ ∧ _))
  | .ftruncate _ => inferInstanceAs (Decidable (_ < _))
  | .fsync => inferInstanceAs (Decidable True)

end Call

/-- There is memory, the file system works, and the user's memory is there. -/
structure Serves (env : Env) (s : FileSt) : Prop where
  room : hasRoom env s.heap = true
  kbuf : env.kbuf = true
  filebuf : env.filebuf = true
  readable : env.readable = true
  writable : env.writable = true
  copied : env.copied = none

/-- A read at the position of a descriptor does not leave 32 bits. -/
def ReadFits (count : ℕ) (e : Fd) : Prop := e.offset < e.size → e.offset + count < 2 ^ 32

/-- A write leaves no gap, and the file and what is written fit the write buffer. -/
def WriteFits (n : ℕ) (e : Fd) : Prop := e.offset ≤ e.size ∧ e.size ≤ capFor e n ∧ e.offset + n ≤ capFor e n

/-- The size of the buffer that a call asks the kernel heap for. -/
def Call.asks : Call → Fd → ℕ
  | .read _, e => e.size
  | .pread _ _, e => e.size
  | .write data, e => if data = [] then 0 else capFor e data.length
  | .pwrite data off, e => if data = [] ∨ off < 0 then 0 else capFor { e with offset := off.toNat } data.length
  | .ftruncate length, _ => length.toNat + 1
  | .lseek _ _, _ => 0
  | .fsync, _ => 0

def Call.Faithful : Call → Fd → Prop
  | .read count, e => ReadFits count e
  | .write data, e => data ≠ [] → WriteFits data.length e
  | .pread count off, e => 0 ≤ off → ReadFits count { e with offset := off.toNat }
  | .pwrite data off, e => data ≠ [] → 0 ≤ off → WriteFits data.length { e with offset := off.toNat }
  | .lseek offset whence, e => ∀ pos, seekPos e.entry offset whence = some pos → pos < 2 ^ 32
  | .ftruncate length, e => 0 ≤ length → e.wbuf.isSome → length.toNat ≤ e.size
  | .fsync, _ => True

/-- A descriptor with the content of an array: in the write buffer, or on the disk; a file that is
still as `open` made it (`fresh`) may have one byte there. -/
structure Holds (path : Path) (fresh : Prop) (f : ByteFile) (s : FileSt) : Prop where
  used : s.fd.flags.used = true
  plain : s.fd.flags.tty = false ∧ s.fd.flags.dir = false ∧ s.fd.isPipeOrSock = false
  named : s.fd.path = path ∧ path ≠ []
  pos : s.fd.offset = f.pos
  pos_lt : f.pos < 2 ^ 32
  size : s.fd.size = f.bytes.length
  size_lt : f.bytes.length < 2 ^ 32
  fits : Fits s.heap s.fd
  cap_lt : s.fd.wbufCap < 2 ^ 32
  buffer : ∀ b, s.fd.wbuf = some b → ∀ i < f.bytes.length, bytesOf s.heap b i = f.bytes.getD i 0
  disk : s.fd.wbuf = none → s.files path = some f.bytes ∨ fresh ∧ f.bytes = [] ∧ s.files path = some [0]
  empty : s.fd.wbuf.isSome → f.bytes = [] → s.files path = some []

variable {path : Path} {fresh : Prop} {f : ByteFile} {s : FileSt} {env : Env}

/-- Moving the position. -/
theorem Holds.seek (h : Holds path fresh f s) {p : ℕ} (hp : p < 2 ^ 32) :
    Holds path fresh { f with pos := p } { s with fd := { s.fd with offset := p } } where
  used := h.used
  plain := h.plain
  named := h.named
  pos := rfl
  pos_lt := hp
  size := h.size
  size_lt := h.size_lt
  fits := h.fits.congr rfl rfl rfl rfl
  cap_lt := h.cap_lt
  buffer := h.buffer
  disk := h.disk
  empty := h.empty

theorem Holds.live (h : Holds path fresh f s) : Live s := by
  intro a ha
  rw [Fd.buffer_used h.used] at ha
  obtain ⟨b, hb, -⟩ := h.fits.block a ha
  rw [hb]
  rfl

theorem Holds.weaken (h : Holds path fresh f s) {fresh' : Prop} (himp : fresh → fresh') : Holds path fresh' f s :=
  { h with disk := fun hb => (h.disk hb).imp_right fun ⟨hf, hrest⟩ => ⟨himp hf, hrest⟩ }

/-- A file that is not empty is on the disk or in the buffer. -/
theorem Holds.vfsRead (h : Holds path fresh f s) (hs : Serves env s) (hb : s.fd.wbuf = none)
    (hsize : 0 < f.bytes.length) :
    vfsRead env s s.fd.size = some f.bytes := by
  unfold Files.vfsRead
  rw [if_pos hs.readable, h.named.1, h.size]
  rcases h.disk hb with hdisk | ⟨-, hnil, -⟩
  · rw [hdisk, Option.map_some, List.take_length]
  · rw [hnil] at hsize
    cases hsize

theorem toRead_eq (h : Holds path fresh f s) {count : ℕ} (hcount : count < 2 ^ 31) (hlt : s.fd.offset < s.fd.size)
    (hfits : ReadFits count s.fd) : toRead s.fd count = min count (f.bytes.length - f.pos) := by
  have hsum := hfits hlt
  have hpos := h.pos
  have hsize := h.size
  unfold toRead
  rw [Nat.mod_eq_of_lt (show count < 2 ^ 32 by omega), Nat.mod_eq_of_lt hsum]
  split <;> omega

theorem read_handOut (h : Holds path fresh f s) (hs : Serves env s) {count : ℕ} {data : List UInt8} (used : List Access)
    (hdata : data = (f.bytes.drop f.pos).take count) (hlt : s.fd.offset < s.fd.size) :
    let out := handOut env s data used
    (out.ret, out.data) = (f.read count).1 ∧ Holds path fresh (f.read count).2 out.st := by
  subst hdata
  have hlen := h.size_lt
  have hlt' : f.pos < f.bytes.length := by
    rw [← h.pos, ← h.size]
    exact hlt
  have hlength : ((f.bytes.drop f.pos).take count).length ≤ f.bytes.length - f.pos := by
    rw [List.length_take, List.length_drop]
    omega
  unfold handOut ByteFile.read
  dsimp only
  rw [hs.copied, if_neg (by decide), h.pos, Nat.mod_eq_of_lt (by omega)]
  exact ⟨rfl, h.seek (by omega)⟩

theorem Holds.sysRead (h : Holds path fresh f s) (hs : Serves env s) {count : ℕ} (hcount : count < 2 ^ 31)
    (hfits : ReadFits count s.fd) :
    let out := sysRead env count s
    (out.ret, out.data) = (f.read count).1 ∧ Holds path fresh (f.read count).2 out.st := by
  have hnone : (f.bytes.drop f.pos).take count = [] →
      (((0 : ℤ), ([] : List UInt8)) = (f.read count).1 ∧ Holds path fresh (f.read count).2 s) := by
    intro hnil
    unfold ByteFile.read
    dsimp only
    rw [hnil]
    exact ⟨rfl, h⟩
  unfold Files.sysRead
  dsimp only
  split
  · rename_i hzero
    exact hnone (by rw [hzero, List.take_zero])
  rename_i hzero
  rw [if_neg (by rw [h.plain.1]; decide), if_neg (by rw [h.plain.2.1]; decide)]
  split
  · rename_i hend
    refine hnone ?_
    rw [h.size, h.pos] at hend
    rw [List.drop_eq_nil_of_le hend, List.take_nil]
  rename_i hlt
  rw [Nat.not_le] at hlt
  have hread := toRead_eq h hcount hlt hfits
  have hlt' : f.pos < f.bytes.length := by
    rw [← h.pos, ← h.size]
    exact hlt
  have hlen := h.size_lt
  have hslice : ∀ n, n = min count (f.bytes.length - f.pos) →
      (f.bytes.drop f.pos).take n = (f.bytes.drop f.pos).take count := by
    intro n hn
    rw [hn, List.take_eq_take_iff, List.length_drop]
    omega
  have hgo : ¬ (env.kbuf = false ∨ toRead s.fd count = 0) := by
    rw [hs.kbuf, hread, not_or]
    exact ⟨by decide, by omega⟩
  rw [if_neg hgo]
  cases hb : s.fd.wbuf with
  | some b =>
    dsimp only
    refine read_handOut h hs _ ?_ hlt
    rw [hread, ← hslice _ rfl]
    refine map_range_eq_slice (z := 0) _ _ _ _ (by omega) fun i hi => ?_
    rw [h.pos, Nat.mod_eq_of_lt (by omega)]
    exact h.buffer b hb _ (by omega)
  | none =>
    dsimp only
    rw [if_neg (by rw [hs.filebuf]; decide), h.vfsRead hs hb (by omega)]
    dsimp only
    rw [if_neg (by rw [h.pos]; omega)]
    refine read_handOut h hs _ ?_ hlt
    have hend : ¬ f.bytes.length < (f.pos + min count (f.bytes.length - f.pos)) % 2 ^ 32 := by omega
    rw [hread, h.pos, if_neg hend, ← hslice _ rfl]
    refine map_range_eq_slice (z := 0) _ _ _ _ (by omega) fun i hi => ?_
    rw [Nat.mod_eq_of_lt (by omega)]

variable {heap : Heap} {a : ℕ}

theorem kmalloc_of_room (h : hasRoom env heap = true) (cap : ℕ) : ∃ m, kmalloc env cap heap = some m := by
  unfold hasRoom kmalloc at h
  unfold kmalloc
  cases hg : env.grant with
  | none =>
    rw [hg] at h
    cases h
  | some g =>
    rw [hg] at h
    dsimp only at h ⊢
    split at h
    · rename_i hfree
      rw [if_pos hfree]
      exact ⟨_, rfl⟩
    · cases h

theorem bytesOf_update (blk : Block) : bytesOf (update heap a (some blk)) a = blk.bytes := by
  unfold bytesOf
  rw [update_self]

theorem bytesOf_store {blk : Block} (h : heap a = some blk) (pos : ℕ) (data : List UInt8) (i : ℕ) :
    bytesOf (store heap a pos data) a i =
      if pos ≤ i ∧ i < pos + data.length then data.getD (i - pos) 0 else bytesOf heap a i := by
  rw [store_some pos data h, bytesOf_update]
  unfold bytesOf
  rw [h]

theorem growTo_lt (need : ℕ) : growTo need < 2 ^ 32 := by
  unfold growTo
  split <;> omega

/-- With memory and a disk that can be read, there is a buffer afterwards. -/
theorem ensure_none (h : Holds path fresh f s) (hs : Serves env s) (need : ℕ) :
    ∃ s' used, ensure env need s = (none, s', used) := by
  unfold ensure
  dsimp only
  by_cases hneed : s.fd.wbufCap < need
  · obtain ⟨⟨a, heap⟩, hk⟩ := kmalloc_of_room hs.room (growTo need)
    rw [if_pos hneed, hk]
    dsimp only
    cases hb : s.fd.wbuf with
    | some b =>
      dsimp only
      split <;> exact ⟨_, _, rfl⟩
    | none =>
      dsimp only
      split
      · rename_i hsize
        rw [h.size] at hsize
        rw [h.vfsRead hs hb hsize]
        exact ⟨_, _, rfl⟩
      · exact ⟨_, _, rfl⟩
  · rw [if_neg hneed]
    cases hb : s.fd.wbuf with
    | some b => exact ⟨_, _, rfl⟩
    | none =>
      obtain ⟨⟨a, heap⟩, hk⟩ := kmalloc_of_room hs.room 4096
      dsimp only
      rw [hk]
      exact ⟨_, _, rfl⟩

/-- A descriptor whose content is in a live write buffer. -/
structure Buffered (path : Path) (f : ByteFile) (a : ℕ) (s s' : FileSt) : Prop where
  fd : s'.fd.wbuf = some a ∧ s'.fd.flags = s.fd.flags ∧ s'.fd.path = s.fd.path ∧
    s'.fd.offset = s.fd.offset ∧ s'.fd.size = s.fd.size
  cap_lt : s'.fd.wbufCap < 2 ^ 32
  block : ∃ b, s'.heap a = some b
  bytes : ∀ i < f.bytes.length, bytesOf s'.heap a i = f.bytes.getD i 0

/-- Making the buffer large enough keeps the content. -/
theorem buffered_ensure (h : Holds path fresh f s) (hs : Serves env s) {need : ℕ} (hneed : 0 < need) {s' : FileSt}
    {used : List Access} (hout : ensure env need s = (none, s', used)) : ∃ a, Buffered path f a s s' := by
  have hcase := ensured env need s
  rw [hout] at hcase
  cases hcase with
  | kept b hb _ =>
    obtain ⟨blk, hblk, -⟩ := h.fits.block b hb
    exact ⟨b, ⟨hb, rfl, rfl, rfl, rfl⟩, h.cap_lt, ⟨blk, hblk⟩, h.buffer b hb⟩
  | bare a junk _ hfree hb hle =>
    rw [h.fits.none hb] at hle
    omega
  | loaded a bytes _ hfree hb _ hbytes =>
    refine ⟨a, ⟨rfl, rfl, rfl, rfl, rfl⟩, growTo_lt need, ⟨_, update_self _ _ _⟩, fun i hi => ?_⟩
    have hsize : 0 < s.fd.size := by
      rw [h.size]
      omega
    obtain ⟨d, hd, hall⟩ := hbytes hsize
    rw [h.vfsRead hs hb (h.size ▸ hsize)] at hd
    obtain rfl := Option.some.inj hd
    change bytesOf (update s.heap a _) a i = _
    rw [bytesOf_update]
    exact hall i hi
  | moved a b bytes _ hfree hb _ hbytes =>
    obtain ⟨blk, hblk, -⟩ := h.fits.block b hb
    have hab : a ≠ b := by
      rintro rfl
      rw [hfree] at hblk
      cases hblk
    have hheap : kfree (update s.heap a (some ⟨given (growTo need), bytes⟩)) b a = some ⟨given (growTo need), bytes⟩ :=
      (update_of_ne hab _ _).trans (update_self _ _ _)
    refine ⟨a, ⟨rfl, rfl, rfl, rfl, rfl⟩, growTo_lt need, ⟨_, hheap⟩, fun i hi => ?_⟩
    change bytesOf (kfree (update s.heap a (some ⟨given (growTo need), bytes⟩)) b) a i = _
    unfold bytesOf
    rw [hheap]
    dsimp only
    rw [hbytes i (by rw [h.size]; exact hi)]
    exact h.buffer b hb i hi

theorem capFor_lt (h : Holds path fresh f s) (n : ℕ) : capFor s.fd n < 2 ^ 32 := by
  have := h.cap_lt
  unfold capFor
  split
  · exact growTo_lt _
  split <;> omega

/-- A size that the heap gives in full is not one that `ALIGN8` wraps. -/
theorem small_of_given {n : ℕ} (h : given n = n) (hn : n < 2 ^ 32) : n + 7 < 2 ^ 32 := by
  unfold given Kheap.align8 Kheap.u32 at h
  omega

theorem Holds.sysWrite (h : Holds path fresh f s) (hs : Serves env s) {data : List UInt8} (hne : data ≠ [])
    (hlen : data.length < 2 ^ 31) (hfits : WriteFits data.length s.fd)
    (hgiven : given (capFor s.fd data.length) = capFor s.fd data.length) :
    let out := sysWrite env data s
    (out.ret, out.data) = (f.write data).1 ∧ Holds path False (f.write data).2 out.st := by
  have hdata : 0 < data.length := List.length_pos_iff.mpr hne
  have hmod : data.length % 2 ^ 32 = data.length := Nat.mod_eq_of_lt (by omega)
  have hcap := capFor_lt h data.length
  obtain ⟨hgap, hsize, hend⟩ := hfits
  have hneed : (s.fd.offset + data.length) % 2 ^ 32 = s.fd.offset + data.length := Nat.mod_eq_of_lt (by omega)
  have hpos : f.pos + data.length < 2 ^ 32 := by
    rw [← h.pos]
    omega
  have hsound := sound_sysWrite h.fits h.live h.used fun _ _ _ => by
    rw [hmod]
    exact ⟨hsize, small_of_given hgiven hcap, fun _ => by rw [copyLen_none hs.copied]; exact hend⟩
  obtain ⟨s', used, hout⟩ := ensure_none h hs (s.fd.offset + data.length)
  obtain ⟨a, hbuf⟩ := buffered_ensure h hs (by omega) hout
  obtain ⟨⟨hwbuf, hflags, hpath, hoffset, hsz⟩, hcaplt, ⟨blk, hblk⟩, hbytes⟩ := hbuf
  have hwrite : Files.sysWrite env data s = put env data data.length s' used := by
    unfold Files.sysWrite
    rw [if_neg hne, if_neg (by rw [h.plain.1]; decide)]
    dsimp only
    rw [hmod, hneed, hout]
  have hput : Files.sysWrite env data s = { put env data data.length s' used with
      ret := data.length
      data := []
      st := { s' with
        heap := store s'.heap a f.pos data
        fd := { s'.fd with offset := f.pos + data.length, size := max f.bytes.length (f.pos + data.length) } } } := by
    rw [hwrite]
    unfold put
    dsimp only
    rw [hs.copied, hwbuf, hoffset, hsz, h.pos, h.size, List.take_length, Nat.mod_eq_of_lt hpos]
    dsimp only [Option.getD_some]
    congr 3
    split <;> omega
  have hspec : f.write data = (((data.length : ℤ), []), ⟨splice 0 f.bytes f.pos data, f.pos + data.length⟩) := by
    unfold ByteFile.write
    rw [if_neg hne]
  have hfits' := hsound.fits
  rw [hput] at hfits' ⊢
  rw [hspec]
  rw [h.pos, h.size] at hgap
  refine ⟨rfl, ?_⟩
  have hlenlt : max f.bytes.length (f.pos + data.length) < 2 ^ 32 := by
    have := h.size_lt
    omega
  refine ⟨hflags ▸ h.used, ?_, ⟨hpath.trans h.named.1, h.named.2⟩, rfl, hpos, ?_, ?_,
    hfits' (hflags ▸ h.used), hcaplt, ?_, ?_, ?_⟩
  · unfold Fd.isPipeOrSock
    dsimp only
    rw [hflags]
    exact h.plain
  · dsimp only
    rw [length_splice]
  · dsimp only
    rwa [length_splice]
  · intro b hb i hi
    obtain rfl : a = b := Option.some.inj (hwbuf.symm.trans hb)
    dsimp only at hi ⊢
    rw [length_splice] at hi
    rw [bytesOf_store hblk, getD_splice]
    split
    · rfl
    · exact hbytes i (by omega)
  · intro hb
    rw [hwbuf] at hb
    cases hb
  · intro _ hnil
    have hlen0 := congrArg List.length hnil
    rw [length_splice, List.length_nil] at hlen0
    omega

/-- A call at an offset, from the same call at the position. -/
theorem Holds.sysPread (h : Holds path fresh f s) {off : ℤ} (hoff : off < 2 ^ 31) {io : FileSt → Out}
    {spec : ByteFile → Answer × ByteFile} {fresh' : Prop} (hfresh : off < 0 → fresh → fresh')
    (hio : 0 ≤ off → Holds path fresh { f with pos := off.toNat } { s with fd := { s.fd with offset := off.toNat } } →
      let out := io { s with fd := { s.fd with offset := off.toNat } }
      (out.ret, out.data) = (spec { f with pos := off.toNat }).1 ∧
      Holds path fresh' (spec { f with pos := off.toNat }).2 out.st) :
    let out := sysPread off io s
    (out.ret, out.data) = (ByteFile.at' off spec f).1 ∧ Holds path fresh' (ByteFile.at' off spec f).2 out.st := by
  have hplain : ¬ (s.fd.flags.tty ∨ s.fd.flags.pipeR ∨ s.fd.flags.pipeW ∨ s.fd.flags.sock) := by
    obtain ⟨htty, -, hpipe⟩ := h.plain
    unfold Fd.isPipeOrSock at hpipe
    rw [Bool.or_eq_false_iff, Bool.or_eq_false_iff] at hpipe
    rw [htty, hpipe.1.1, hpipe.1.2, hpipe.2]
    decide
  unfold Files.sysPread ByteFile.at'
  dsimp only
  rw [if_neg hplain]
  split
  · rename_i hneg
    exact ⟨rfl, h.weaken (hfresh hneg)⟩
  · rename_i hneg
    rw [Nat.mod_eq_of_lt (show off.toNat < 2 ^ 32 by omega)]
    obtain ⟨hret, hout⟩ := hio (by omega) (h.seek (by omega))
    refine ⟨hret, ?_⟩
    have hback := hout.seek h.pos_lt
    rwa [← h.pos] at hback ⊢

theorem seekPos_eq (h : Holds path fresh f s) {offset : ℤ} (whence : ℤ) (hoff : -2 ^ 63 ≤ offset ∧ offset < 2 ^ 31) :
    seekPos s.fd.entry offset whence = f.seekTo offset whence := by
  have hpos := h.pos_lt
  have hsize := h.size_lt
  unfold seekPos ByteFile.seekTo
  change (if whence = 0 then some offset else if whence = 1 then some (wrap64 (s.fd.offset + offset))
    else if whence = 2 then some (wrap64 (s.fd.size + offset)) else none) = _
  unfold wrap64
  rw [h.pos, h.size, Int.bmod_eq_of_le (by omega) (by omega), Int.bmod_eq_of_le (by omega) (by omega)]

theorem Holds.sysLseek (h : Holds path fresh f s) {offset whence : ℤ} (hoff : -2 ^ 63 ≤ offset ∧ offset < 2 ^ 31)
    (hfits : ∀ pos, seekPos s.fd.entry offset whence = some pos → pos < 2 ^ 32) :
    let out := sysLseek offset whence s
    (out.ret, out.data) = (f.lseek offset whence).1 ∧ Holds path fresh (f.lseek offset whence).2 out.st := by
  rw [seekPos_eq h whence hoff] at hfits
  unfold Files.sysLseek ByteFile.lseek
  rw [seekPos_eq h whence hoff]
  cases hp : f.seekTo offset whence with
  | none => exact ⟨rfl, h⟩
  | some pos =>
    have hlt := hfits pos hp
    dsimp only
    split
    · exact ⟨rfl, h⟩
    · rw [Nat.mod_eq_of_lt (show pos.toNat < 2 ^ 32 by omega)]
      exact ⟨rfl, h.seek (by omega)⟩

/-- What `ftruncate` writes where the content is on the disk. -/
theorem truncated_eq (h : Holds path fresh f s) (hs : Serves env s) (hb : s.fd.wbuf = none) (n : ℕ) :
    truncated env s n = resize 0 f.bytes n := by
  have hlen : (truncated env s n).length = n := by
    unfold truncated
    rw [List.length_map, List.length_range]
  refine ext_getD (z := 0) (by rw [hlen, length_resize]) fun i hi => ?_
  rw [hlen] at hi
  rw [getD_resize hi]
  have hcopy : (if 0 < s.fd.size ∧ 0 < n ∧ env.filebuf then min s.fd.size n else 0) = min f.bytes.length n := by
    rw [h.size]
    split
    · rfl
    · rename_i hnot
      rw [hs.filebuf] at hnot
      have : ¬ 0 < f.bytes.length := fun hsize => hnot ⟨hsize, by omega, rfl⟩
      omega
  unfold truncated
  dsimp only
  rw [getD_map_range _ hi, hcopy]
  by_cases hin : i < f.bytes.length
  · rw [if_pos (by omega), h.vfsRead hs hb (by omega), Option.getD_some,
      List.getD_eq_getElem _ _ hin, List.getD_eq_getElem _ _ hin]
  · rw [if_neg (by omega), List.getD_eq_default _ _ (by omega)]

theorem vfsWrite_eq (h : Holds path fresh f s) (hs : Serves env s) (data : List UInt8) :
    vfsWrite env s data = { s with files := update s.files path (some data) } := by
  unfold vfsWrite
  rw [if_pos hs.writable, h.named.1]

/-- `ftruncate` cuts the array or fills it up with zeros; a file with a write buffer is only cut. -/
theorem Holds.sysFtruncate (h : Holds path fresh f s) (hs : Serves env s) {length : ℤ} (hlen : length < 2 ^ 31)
    (hfits : 0 ≤ length → s.fd.wbuf.isSome → length.toNat ≤ s.fd.size) :
    let out := sysFtruncate env length s
    (out.ret, out.data) = (f.ftruncate length).1 ∧ Holds path (fresh ∧ length < 0) (f.ftruncate length).2 out.st := by
  unfold Files.sysFtruncate ByteFile.ftruncate
  split
  · rename_i hneg
    exact ⟨rfl, h.weaken fun hf => ⟨hf, hneg⟩⟩
  rename_i hneg
  have hmod : length.toNat % 2 ^ 32 = length.toNat := Nat.mod_eq_of_lt (by omega)
  have hkbuf : ¬ (env.kbuf = false ∨ (length.toNat % 2 ^ 32 + 1) % 2 ^ 32 = 0) := by
    rw [hs.kbuf, hmod]
    rintro (hfalse | hwraps)
    · cases hfalse
    · omega
  rw [if_neg hkbuf]
  dsimp only
  rw [hmod, vfsWrite_eq h hs]
  refine ⟨rfl, ?_⟩
  refine ⟨h.used, h.plain, h.named, h.pos, h.pos_lt, ?_, ?_,
    ⟨fun a ha => ?_, h.fits.none, h.fits.small⟩, h.cap_lt, fun b hb i hi => ?_, fun hb => Or.inl ?_,
    fun _ hnil => ?_⟩
  · rw [length_resize]
  · rw [length_resize]
    omega
  · obtain ⟨b, hblk, hcap, hsize⟩ := h.fits.block a ha
    have hwbuf : s.fd.wbuf = some a := ha
    exact ⟨b, hblk, hcap, Nat.le_trans (hfits (by omega) (by rw [hwbuf]; rfl)) hsize⟩
  · have hwbuf : s.fd.wbuf = some b := hb
    have hle := hfits (by omega) (by rw [hwbuf]; rfl)
    rw [h.size] at hle
    rw [length_resize] at hi
    rw [getD_resize hi]
    exact h.buffer b hwbuf i (by omega)
  · rw [truncated_eq h hs hb]
    exact update_self _ _ _
  · have hzero : length.toNat = 0 := by
      have := congrArg List.length hnil
      rwa [length_resize, List.length_nil] at this
    rw [hzero]
    exact update_self _ _ _

theorem Holds.sysFsync (h : Holds path fresh f s) (hs : Serves env s) :
    let out := sysFsync env s
    (out.ret, out.data) = ((0 : ℤ), ([] : List UInt8)) ∧ Holds path fresh f out.st := by
  unfold Files.sysFsync
  cases hb : s.fd.wbuf with
  | none => exact ⟨rfl, h⟩
  | some b =>
    dsimp only
    split
    · rename_i hsize
      have hne : f.bytes ≠ [] := fun hnil => by
        rw [h.size, hnil] at hsize
        exact Nat.lt_irrefl 0 hsize.1
      rw [vfsWrite_eq h hs]
      refine ⟨rfl, h.used, h.plain, h.named, h.pos, h.pos_lt, h.size, h.size_lt, h.fits, h.cap_lt,
        h.buffer, fun hn => ?_, fun _ hnil => absurd hnil hne⟩
      rw [show s.fd.wbuf = none from hn] at hb
      cases hb
    · exact ⟨rfl, h⟩

/-- The content of the buffer. -/
theorem firstOf_eq (h : Holds path fresh f s) {b : ℕ} (hb : s.fd.wbuf = some b) :
    firstOf s.heap b s.fd.size = f.bytes := by
  rw [h.size]
  refine ext_getD (z := 0) (length_firstOf _ _ _) fun i hi => ?_
  rw [length_firstOf] at hi
  rw [getD_firstOf _ _ hi]
  exact h.buffer b hb i hi

/-- After closing, the array is on the disk. -/
theorem Holds.fdCloseEntry (h : Holds path fresh f s) (hs : Serves env s) (hfresh : ¬ fresh) :
    (fdCloseEntry env s).1.files path = some f.bytes := by
  have hdisk : s.fd.wbuf = none → s.files path = some f.bytes := fun hb =>
    (h.disk hb).resolve_right fun hc => hfresh hc.1
  unfold Files.fdCloseEntry
  rw [if_neg (by rw [h.used]; decide)]
  unfold fdFlush
  dsimp only
  cases hb : s.fd.wbuf with
  | none => exact hdisk hb
  | some b =>
    dsimp only
    split
    · rw [firstOf_eq h hb]
      unfold vfsWrite
      rw [if_pos hs.writable]
      change update s.files s.fd.path (some f.bytes) path = some f.bytes
      rw [h.named.1, update_self]
    · rename_i hsize
      have hnil : f.bytes = [] := by
        by_contra hne
        refine hsize ⟨?_, by rw [h.named.1]; exact h.named.2⟩
        rw [h.size]
        exact List.length_pos_iff.mpr hne
      rw [hnil]
      exact h.empty (by rw [hb]; rfl) hnil

/-- One call answers as the array does, and leaves its content. -/
theorem Holds.call (h : Holds path fresh f s) (hs : Serves env s) (c : Call) (hsmall : c.Small) (hok : c.Faithful s.fd)
    (hgiven : given (c.asks s.fd) = c.asks s.fd) :
    let out := c.run env s
    (out.ret, out.data) = (c.onArray f).1 ∧ Holds path (fresh ∧ ¬ c.Changes) (c.onArray f).2 out.st := by
  have hkeep : ∀ {P : Prop}, ¬ P → fresh → fresh ∧ ¬ P := fun hP hf => ⟨hf, hP⟩
  cases c with
  | read count =>
    obtain ⟨hret, hout⟩ := h.sysRead hs hsmall hok
    exact ⟨hret, hout.weaken (hkeep not_false)⟩
  | write data =>
    by_cases hne : data = []
    · subst hne
      exact ⟨rfl, h.weaken (hkeep fun hne => hne rfl)⟩
    · obtain ⟨hret, hout⟩ := h.sysWrite hs hne hsmall (hok hne) (by simpa only [Call.asks, if_neg hne] using hgiven)
      exact ⟨hret, hout.weaken False.elim⟩
  | pread count off =>
    refine h.sysPread hsmall.2 (fun _ => hkeep not_false) fun hoff hseek => ?_
    obtain ⟨hret, hout⟩ := hseek.sysRead ⟨hs.room, hs.kbuf, hs.filebuf, hs.readable, hs.writable,
      hs.copied⟩ hsmall.1 (hok hoff)
    exact ⟨hret, hout.weaken (hkeep not_false)⟩
  | pwrite data off =>
    refine h.sysPread hsmall.2 (fun hneg => hkeep fun hc => absurd hc.2 (by omega)) fun hoff hseek => ?_
    by_cases hne : data = []
    · subst hne
      exact ⟨rfl, hseek.weaken (hkeep fun hc => hc.1 rfl)⟩
    · obtain ⟨hret, hout⟩ := hseek.sysWrite ⟨hs.room, hs.kbuf, hs.filebuf, hs.readable, hs.writable,
        hs.copied⟩ hne hsmall.1
        (hok hne hoff) (by simpa only [Call.asks, if_neg (not_or.mpr ⟨hne, Int.not_lt.mpr hoff⟩)] using hgiven)
      exact ⟨hret, hout.weaken False.elim⟩
  | lseek offset whence =>
    obtain ⟨hret, hout⟩ := h.sysLseek hsmall hok
    exact ⟨hret, hout.weaken (hkeep not_false)⟩
  | ftruncate length =>
    obtain ⟨hret, hout⟩ := h.sysFtruncate hs hsmall hok
    exact ⟨hret, hout.weaken fun hf => ⟨hf.1, fun hc => Int.not_le.mpr hf.2 hc⟩⟩
  | fsync =>
    obtain ⟨hret, hout⟩ := h.sysFsync hs
    exact ⟨hret, hout.weaken (hkeep not_false)⟩

/-- A sequence of calls, each with what the rest of the kernel answers: the answers, and the state.
-/
def runCalls : List (Env × Call) → FileSt → List Answer × FileSt
  | [], s => ([], s)
  | (env, c) :: rest, s =>
      let out := c.run env s
      let more := runCalls rest out.st
      ((out.ret, out.data) :: more.1, more.2)

def arrayCalls : List Call → ByteFile → List Answer × ByteFile
  | [], f => ([], f)
  | c :: rest, f =>
      let out := c.onArray f
      let more := arrayCalls rest out.2
      (out.1 :: more.1, more.2)

def AllCalls (P : Env → Call → FileSt → Prop) : List (Env × Call) → FileSt → Prop
  | [], _ => True
  | (env, c) :: rest, s => P env c s ∧ AllCalls P rest (c.run env s).st

/-- Each call has a working file system, and memory: the heap gives the buffer it asks for in full.
-/
def AllServed : List (Env × Call) → FileSt → Prop :=
  AllCalls fun env c s => Serves env s ∧ given (c.asks s.fd) = c.asks s.fd

/-- Each call finds the descriptor so that it does what it does to an array. -/
def AllFaithful : List (Env × Call) → FileSt → Prop := AllCalls fun _ c s => c.Faithful s.fd

/-- A sequence of calls answers as the array does. -/
theorem Holds.runCalls (calls : List (Env × Call)) (h : Holds path fresh f s) (hsmall : ∀ c ∈ calls, c.2.Small)
    (hserved : AllServed calls s) (hok : AllFaithful calls s) :
    (runCalls calls s).1 = (arrayCalls (calls.map Prod.snd) f).1 ∧
      Holds path (fresh ∧ ∀ c ∈ calls, ¬ c.2.Changes) (arrayCalls (calls.map Prod.snd) f).2 (runCalls calls s).2 := by
  induction calls generalizing fresh f s with
  | nil => exact ⟨rfl, h.weaken fun hf => ⟨hf, fun c hc => by cases hc⟩⟩
  | cons head rest ih =>
    obtain ⟨env, c⟩ := head
    obtain ⟨hret, hout⟩ := h.call hserved.1.1 c (hsmall _ List.mem_cons_self) hok.1 hserved.1.2
    obtain ⟨hanswers, hend⟩ := ih hout (fun d hd => hsmall d (List.mem_cons_of_mem _ hd)) hserved.2 hok.2
    refine ⟨?_, hend.weaken fun hf => ⟨hf.1.1, fun d hd => ?_⟩⟩
    · exact congrArg₂ List.cons hret hanswers
    · rcases List.mem_cons.mp hd with rfl | hd
      · exact hf.1.2
      · exact hf.2 d hd

structure Regular (env : OpenEnv) (path : Path) : Prop where
  named : env.path = some path
  nonempty : path ≠ []
  console : isConsole path = false
  dir : isDir env path = false

/-- `open` with `O_RDWR|O_CREAT` shows the length of the file, or makes a new one, under a path that
fits the descriptor. -/
structure Opens (env : OpenEnv) (files : Path → Option (List UInt8)) (path : Path) : Prop where
  short : path.length ≤ 255
  found : (∃ e bytes, shown env path = some e ∧ files path = some bytes ∧ toInt32 e.size = bytes.length) ∨
    files path = none ∧ env.created = true ∧ ∀ e, shown env path = some e → toInt32 e.size < 0

/-- The content of a file, nothing if there is none. -/
def content (files : Path → Option (List UInt8)) (path : Path) : List UInt8 := (files path).getD []

theorem toInt32_lt (n : ℕ) : toInt32 n < 2 ^ 31 := by
  unfold toInt32
  have := Int.bmod_lt (x := (n : ℤ)) (m := 2 ^ 32) (by decide)
  omega

/-- A new entry for an array. -/
theorem holds_openEntry {env : OpenEnv} (bytes : List UInt8) {files : Path → Option (List UInt8)} {fresh : Prop}
    (hreg : Regular env path) (hshort : path.length ≤ 255) (hlen : bytes.length < 2 ^ 32) (heap : Heap)
    (hdisk : files path = some bytes ∨ fresh ∧ bytes = [] ∧ files path = some [0]) :
    Holds path fresh ⟨bytes, 0⟩ ⟨openEntry env 0x42 path bytes.length, heap, files⟩ where
  used := rfl
  plain := ⟨rfl, hreg.dir, rfl⟩
  named := ⟨List.take_of_length_le hshort, hreg.nonempty⟩
  pos := rfl
  pos_lt := Nat.two_pow_pos 32
  size := rfl
  size_lt := hlen
  fits := fits_none rfl rfl
  cap_lt := Nat.two_pow_pos 32
  buffer := fun b hb => by cases hb
  disk := fun _ => hdisk
  empty := fun hb => by cases hb

theorem holds_open {env : OpenEnv} {files files' : Path → Option (List UInt8)} {old e : Fd} (hreg : Regular env path)
    (hopens : Opens env files path) (hfd : sysOpen env 0x42 (some old) files = (.inr e, files')) (heap : Heap) :
    Holds path (files path = none) ⟨content files path, 0⟩ ⟨e, heap, files'⟩ := by
  have hw : writes 0x42 = true := by decide
  have hc : creat 0x42 = true := by decide
  have ht : trunc 0x42 = false := by decide
  unfold sysOpen at hfd
  rw [hreg.named] at hfd
  dsimp only at hfd
  rw [hreg.console, if_neg (by decide), hreg.dir, if_neg (by decide), hw, if_neg (by decide), hc, ht] at hfd
  unfold content
  rcases hopens.found with ⟨d, bytes, hshown, hfile, hsize⟩ | ⟨hfile, hcreated, hshown⟩
  · have hlt := toInt32_lt d.size
    have hsz : getFileSize env path = bytes.length := by rw [getFileSize_eq, hshown, ← hsize]
    rw [hsz, if_neg (by omega)] at hfd
    obtain ⟨he, rfl⟩ := Prod.mk.inj hfd
    obtain rfl := Sum.inr.inj he
    rw [hfile]
    exact holds_openEntry bytes hreg hopens.short (by omega) heap (Or.inl hfile)
  · have hneg : getFileSize env path < 0 := by
      rw [getFileSize_eq]
      cases hs : shown env path with
      | none => decide
      | some d => exact hshown d hs
    rw [if_pos hneg, if_pos rfl, hcreated, if_pos rfl] at hfd
    obtain ⟨he, rfl⟩ := Prod.mk.inj hfd
    obtain rfl := Sum.inr.inj he
    rw [hfile]
    exact holds_openEntry [] hreg hopens.short (Nat.two_pow_pos 32) heap (Or.inr ⟨rfl, rfl, update_self _ _ _⟩)

/-- A descriptor from `open` answers as an array, and closing it leaves the array on the disk, if
the file existed or was changed. -/
theorem file_is_array {env : OpenEnv} {files files' : Path → Option (List UInt8)} {old e : Fd} (hreg : Regular env path)
    (hopens : Opens env files path) (hfd : sysOpen env 0x42 (some old) files = (.inr e, files')) (heap : Heap)
    (calls : List (Env × Call)) (closeEnv : Env) (hsmall : ∀ c ∈ calls, c.2.Small)
    (hserved : AllServed calls ⟨e, heap, files'⟩) (hclose : Serves closeEnv (runCalls calls ⟨e, heap, files'⟩).2)
    (hok : AllFaithful calls ⟨e, heap, files'⟩) (htouched : files path ≠ none ∨ ∃ c ∈ calls, c.2.Changes) :
    let out := runCalls calls ⟨e, heap, files'⟩
    let array := arrayCalls (calls.map Prod.snd) ⟨content files path, 0⟩
    out.1 = array.1 ∧ out.2.fd.offset = array.2.pos ∧ (fdCloseEntry closeEnv out.2).1.files path =
    some array.2.bytes := by
  obtain ⟨hanswers, hend⟩ := (holds_open hreg hopens hfd heap).runCalls calls hsmall hserved hok
  refine ⟨hanswers, hend.pos, hend.fdCloseEntry hclose fun hfresh => ?_⟩
  rcases htouched with hfile | ⟨c, hc, hchanges⟩
  · exact hfile hfresh.1
  · exact hfresh.2 c hc hchanges

/-- A root directory without entries, where "a" is opened. -/
def emptyRoot : OpenEnv := { path := some [47, 97], list := fun dir => if dir = [47] then some [] else none }

/-- A new file that is opened and closed has one byte. -/
theorem untouched_file_differs : ¬ ∀ env files path old e files' heap calls closeEnv,
    Regular env path → Mounted env files → sysOpen env 0x42 (some old) files = (.inr e, files') →
      (∀ c ∈ calls, c.2.Small) → AllServed calls ⟨e, heap, files'⟩ →
        Serves closeEnv (runCalls calls ⟨e, heap, files'⟩).2 →
          (fdCloseEntry closeEnv (runCalls calls ⟨e, heap, files'⟩).2).1.files path = some
          (arrayCalls (calls.map Prod.snd) ⟨content files path, 0⟩).2.bytes := by
  intro h
  have hreg : Regular emptyRoot [47, 97] := ⟨rfl, by decide, by decide +kernel, by decide⟩
  have hmounted : Mounted emptyRoot fun _ => none := by
    refine ⟨fun dir ents hents => ?_, fun _ _ _ _ _ _ hc => by cases hc⟩
    unfold emptyRoot at hents
    dsimp only at hents
    split at hents
    · obtain rfl := Option.some.inj hents
      exact List.nodup_nil
    · cases hents
  have hclosed := h emptyRoot (fun _ => none) [47, 97] {} (openEntry emptyRoot 0x42 [47, 97] 0)
    (written emptyRoot true (fun _ => none) [47, 97] [0]) (fun _ => none) []
    { grant := some (8, fun _ => 0) } hreg hmounted
    (by rw [sysOpen]; rfl) (fun _ hc => by cases hc) trivial ⟨rfl, rfl, rfl, rfl, rfl, rfl⟩
  have hbyte : (written emptyRoot true (fun _ => none) [47, 97] [0]) [47, 97] = some [0] := by decide
  change (written emptyRoot true (fun _ => none) [47, 97] [0]) [47, 97] = some [] at hclosed
  rw [hbyte] at hclosed
  cases hclosed

/-- Two bytes written to a new file, and one of them read, are the array's. -/
theorem written_file_is_array :
    let calls : List (Env × Call) := [({ grant := some (8, fun _ => 0) }, .write [1, 2]),
      ({ grant := some (9, fun _ => 0) }, .pread 1 1)]
    let s : FileSt := ⟨openEntry emptyRoot 0x42 [47, 97] 0, fun _ => none,
      written emptyRoot true (fun _ => none) [47, 97] [0]⟩
    (runCalls calls s).1 = [(2, []), (1, [2])] ∧
      (fdCloseEntry { grant := some (9, fun _ => 0) } (runCalls calls s).2).1.files [47, 97] = some [1, 2] := by
  intro calls s
  have hreg : Regular emptyRoot [47, 97] := ⟨rfl, by decide, by decide +kernel, by decide⟩
  have hnone : shown emptyRoot [47, 97] = none := by decide +kernel
  have hopens : Opens emptyRoot (fun _ => none) [47, 97] :=
    ⟨by decide, Or.inr ⟨rfl, rfl, fun e he => by rw [hnone] at he; cases he⟩⟩
  have hserved : AllServed calls s :=
    ⟨⟨⟨rfl, rfl, rfl, rfl, rfl, rfl⟩, by decide⟩, ⟨⟨rfl, rfl, rfl, rfl, rfl, rfl⟩, by decide⟩, trivial⟩
  have hok : AllFaithful calls s := by
    refine ⟨fun _ => ?_, fun _ => ?_, trivial⟩
    · unfold WriteFits
      decide
    · intro _
      decide
  have h := file_is_array hreg hopens (show sysOpen _ 0x42 (some {}) _ = _ by rw [sysOpen]; rfl) (fun _ => none) calls
    { grant := some (9, fun _ => 0) } (by decide) hserved ⟨rfl, rfl, rfl, rfl, rfl, rfl⟩ hok
    (Or.inr ⟨_, List.mem_cons_self, by decide⟩)
  exact ⟨h.1, h.2.2⟩

end ComputerOS.Linux.Files
