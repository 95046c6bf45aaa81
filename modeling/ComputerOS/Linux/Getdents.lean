import ComputerOS.Lib.Memory
import ComputerOS.Linux.Files
import Mathlib.Data.List.TakeWhile

/-!
`getdents64`. Every call lists the directory anew, with room for 64 entries, and goes on at the
entry that the position of the descriptor counts. What the user finds in the buffer is read back
with the lengths of the records.
-/
namespace ComputerOS.Linux.Files

open Bytes (leBytes)

def ENOTDIR : ℤ := -20

def EIO : ℤ := -5

def u32 (n : ℕ) : ℕ := n % 2 ^ 32

def u16 (n : ℕ) : ℕ := n % 2 ^ 16

/-- `vfs_dirent_t`; a name is a string without its terminator. -/
structure Entry where
  name : List UInt8
  attr : ℕ
deriving DecidableEq, Repr

/-- The memory of the user from the buffer on: what stands there, where user addresses end, and
which bytes are mapped for writing. -/
structure UserBuf where
  mem : Mem
  limit : ℕ
  canWrite : ℕ → Bool

def copyToUser (u : UserBuf) (pos : ℕ) (src : List UInt8) : Bool × UserBuf :=
  if u.limit < pos + src.length then (false, u)
  else
    let n := ((List.range src.length).takeWhile fun i => u.canWrite (pos + i)).length
    (n = src.length, { u with mem := u.mem.put pos (src.take n) })

def vfsList (list : Path → Option (List Entry)) (path : Path) (max : ℕ) : Option (List Entry) :=
  (list path).map (·.take max)

def dType (e : Entry) : UInt8 := if e.attr &&& 0x10 ≠ 0 then 4 else 8

def dReclen (e : Entry) : ℕ := u16 ((u16 (19 + e.name.length + 1) + 7) / 8 * 8)

/-- `linux_dirent64_t` up to its name, for entry `i`. -/
def dHeader (i : ℕ) (e : Entry) : List UInt8 :=
  (leBytes 8 (i + 1) ++ leBytes 8 (i + 1)) ++ leBytes 2 (dReclen e) ++ [dType e]

/-- The loop of `sys_linux_getdents64`, from entry `i` on. -/
def getdentsFrom (count : ℕ) : List Entry → ℕ → ℕ → Fd → UserBuf → ℤ × Fd × UserBuf
  | [], _, written, f, u => (written, f, u)
  | e :: ents, i, written, f, u =>
      if count < u32 (written + dReclen e) then (written, f, u)
      else
        match copyToUser u written (dHeader i e) with
        | (false, u) => (EFAULT, f, u)
        | (true, u) =>
          match copyToUser u (written + 19) (e.name ++ [0]) with
          | (false, u) => (EFAULT, f, u)
          | (true, u) =>
            getdentsFrom count ents (i + 1) (u32 (written + dReclen e)) { f with offset := u32 (f.offset + 1) } u

/-- One call: the buffer and its size, and whether there is memory for the listing. -/
structure Getdents where
  buf : UserBuf
  count : ℕ
  room : Bool

/-- `sys_linux_getdents64` on a valid descriptor. A position is not negative as an `int`. -/
def sysGetdents64 (list : Path → Option (List Entry)) (c : Getdents) (f : Fd) : ℤ × Fd × UserBuf :=
  if f.flags.dir = false then (ENOTDIR, f, c.buf)
  else if c.room = false then (ENOMEM, f, c.buf)
  else
    match vfsList list f.path 64 with
    | none => ( EIO, f, c.buf)
    | some ents => getdentsFrom c.count (ents.drop f.offset) f.offset 0 f c.buf

structure IsString (m : Mem) (a : ℕ) (s : List UInt8) : Prop where
  bytes : ∀ i < s.length, m (a + i) = s.getD i 0
  ends : m (a + s.length) = 0
  nonzero : 0 ∉ s

/-- The records from `pos` on lead to `stop`: their names and types. -/
inductive Delivers (m : Mem) (stop : ℕ) : ℕ → List (List UInt8 × UInt8) → Prop
  | done : Delivers m stop stop []
  | record {pos reclen : ℕ} {name : List UInt8} {rest : List (List UInt8 × UInt8)}
      (hlen : m.getLE (pos + 16) 2 = reclen)
      (haligned : reclen % 8 = 0) (hname : IsString m (pos + 19) name) (hroom : 19 + name.length + 1 ≤ reclen)
      (hstop : pos + reclen ≤ stop) (hrest : Delivers m stop (pos + reclen) rest) :
      Delivers m stop pos ((name, m (pos + 18)) :: rest)

/-- What a record says of an entry. -/
def Entry.shown (e : Entry) : List UInt8 × UInt8 := (e.name, dType e)

theorem IsString.unique {m : Mem} {a : ℕ} {s t : List UInt8} (hs : IsString m a s) (ht : IsString m a t) : s = t := by
  have hlen : ∀ {s t : List UInt8}, IsString m a s → IsString m a t → s.length ≤ t.length := by
    intro s t hs ht
    by_contra hlt
    have hzero : s.getD t.length 0 = 0 := by rw [← hs.bytes _ (by omega), ht.ends]
    rw [List.getD_eq_getElem _ _ (by omega)] at hzero
    exact hs.nonzero (hzero ▸ List.getElem_mem _)
  have heq : s.length = t.length := le_antisymm (hlen hs ht) (hlen ht hs)
  refine List.ext_getElem heq fun i h1 h2 => ?_
  rw [← List.getD_eq_getElem s 0 h1, ← List.getD_eq_getElem t 0 h2, ← hs.bytes i h1, ht.bytes i h2]

/-- The user can find one list of records at most. -/
theorem Delivers.unique {m : Mem} {stop pos : ℕ} {r r' : List (List UInt8 × UInt8)} (h : Delivers m stop pos r)
    (h' : Delivers m stop pos r') : r = r' := by
  induction h generalizing r' with
  | done =>
    cases h' with
    | done => rfl
    | record hlen haligned hname hroom hstop hrest => omega
  | record hlen haligned hname hroom hstop hrest ih =>
    cases h' with
    | done => omega
    | record hlen' haligned' hname' hroom' hstop' hrest' =>
      subst hlen hlen'
      rw [hname.unique hname', ih hrest']

variable {u : UserBuf} {f : Fd} {pos count : ℕ} {src : List UInt8} {e : Entry} {ents : List Entry}

def UserBuf.Writable (u : UserBuf) (count : ℕ) : Prop := count ≤ u.limit ∧ ∀ i < count, u.canWrite i = true

theorem copyToUser_ok (hu : u.Writable count) (h : pos + src.length ≤ count) :
    copyToUser u pos src = (true, { u with mem := u.mem.put pos src }) := by
  have hall : (List.range src.length).takeWhile (fun i => u.canWrite (pos + i)) = List.range src.length := by
    rw [List.takeWhile_eq_self_iff]
    intro i hi
    have := List.mem_range.mp hi
    exact hu.2 _ (by omega)
  unfold copyToUser
  rw [if_neg (by have := hu.1; omega), hall]
  simp

theorem dReclen_spec (h : e.name.length ≤ 255) :
    dReclen e % 8 = 0 ∧ 19 + e.name.length + 1 ≤ dReclen e ∧ dReclen e ≤ 280 := by
  unfold dReclen u16
  omega

theorem length_dHeader (i : ℕ) (e : Entry) : (dHeader i e).length = 19 := by
  simp only [dHeader, List.length_append, Bytes.length_leBytes, List.length_singleton]

def putRecord (m : Mem) (pos i : ℕ) (e : Entry) : Mem := (m.put pos (dHeader i e)).put (pos + 19) (e.name ++ [0])

theorem putRecord_ne (m : Mem) {j : ℕ} (i : ℕ) (h : j < pos ∨ pos + 19 + e.name.length + 1 ≤ j) :
    putRecord m pos i e j = m j := by
  have hheader := length_dHeader i e
  unfold putRecord
  rw [Mem.put_ne _ (by rw [List.length_append, List.length_singleton]; omega), Mem.put_ne _ (by omega)]

theorem putRecord_reclen (m : Mem) (pos i : ℕ) (h : e.name.length ≤ 255) :
    (putRecord m pos i e).getLE (pos + 16) 2 = dReclen e := by
  have hlt := (dReclen_spec h).2.2
  have hfield := Mem.getLE_put m pos (leBytes 8 (i + 1) ++ leBytes 8 (i + 1)) 2 (dReclen e) [dType e]
  rw [List.length_append, Bytes.length_leBytes, Nat.mod_eq_of_lt (by omega)] at hfield
  rw [← hfield]
  exact Mem.getLE_congr fun j hj => Mem.put_ne _ (by omega)

theorem putRecord_type (m : Mem) (pos i : ℕ) : putRecord m pos i e (pos + 18) = dType e := by
  have hheader := length_dHeader i e
  unfold putRecord
  rw [Mem.put_ne _ (by omega), Mem.put_at _ (by omega)]
  unfold dHeader
  rw [List.getD_append_right _ _ _ _ (by simp)]
  simp

theorem putRecord_name (m : Mem) (pos i : ℕ) (h : 0 ∉ e.name) : IsString (putRecord m pos i e) (pos + 19) e.name where
  bytes := by
    intro j hj
    unfold putRecord
    rw [Mem.put_at _ (by rw [List.length_append]; omega), List.getD_append _ _ _ _ hj]
  ends := by
    unfold putRecord
    rw [Mem.put_at _ (by rw [List.length_append, List.length_singleton]; omega),
      List.getD_append_right _ _ _ _ le_rfl, Nat.sub_self]
    rfl
  nonzero := h

theorem IsString.congr {m m' : Mem} {a : ℕ} {s : List UInt8} (h : IsString m a s)
    (hsame : ∀ i ≤ s.length, m' (a + i) = m (a + i)) : IsString m' a s where
  bytes i hi := by rw [hsame i hi.le, h.bytes i hi]
  ends := by rw [hsame _ le_rfl, h.ends]
  nonzero := h.nonzero

/-- What has been written behind a position does not change the records before it. -/
theorem Delivers.cons {m m' : Mem} {i stop : ℕ} {rest : List (List UInt8 × UInt8)} (hlen : e.name.length ≤ 255)
    (hname : 0 ∉ e.name) (hsame : ∀ j < pos + dReclen e, m' j = putRecord m pos i e j) (hstop : pos + dReclen e ≤ stop)
    (h : Delivers m' stop (pos + dReclen e) rest) : Delivers m' stop pos (e.shown :: rest) := by
  obtain ⟨haligned, hroom, -⟩ := dReclen_spec hlen
  have htype : m' (pos + 18) = dType e := by rw [hsame _ (by omega), putRecord_type]
  rw [Entry.shown, ← htype]
  refine Delivers.record ?_ haligned ((putRecord_name m pos i hname).congr fun j hj => hsame _ (by omega)) hroom hstop h
  rw [← putRecord_reclen m pos i hlen]
  exact Mem.getLE_congr fun j hj => hsame _ (by omega)

/-- The names that fit a `vfs_dirent_t`. -/
def Named (ents : List Entry) : Prop := ∀ e ∈ ents, e.name.length ≤ 255 ∧ 0 ∉ e.name

/-- One call hands out the next entries, at least one when there is one and the buffer has room for
it. -/
theorem getdentsFrom_spec (hnamed : Named ents) (i : ℕ) {written : ℕ} (hu : u.Writable count) (hle : written ≤ count)
    (hsize : written + 280 * ents.length < 2 ^ 32) (hoff : f.offset + ents.length < 2 ^ 32) :
    ∃ (k stop : ℕ) (m : Mem), getdentsFrom count ents i written f u =
      ((stop : ℤ), { f with offset := f.offset + k }, { u with mem := m }) ∧ k ≤ ents.length ∧
      (written + 280 ≤ count → ents ≠ [] → 0 < k) ∧ (stop = written ↔ k = 0) ∧ written ≤ stop ∧
      stop ≤ count ∧ Delivers m stop written ((ents.take k).map Entry.shown) ∧ ∀ j, j < written ∨
      count ≤ j → m j = u.mem j := by
  induction ents generalizing i written f u with
  | nil =>
    exact ⟨0, written, u.mem, rfl, le_rfl, fun _ h => absurd rfl h, by simp, le_rfl, hle, .done, fun _ _ => rfl⟩
  | cons e ents ih =>
    obtain ⟨hlen, hname⟩ := hnamed e List.mem_cons_self
    obtain ⟨-, hroom, hmax⟩ := dReclen_spec hlen
    rw [List.length_cons] at hsize hoff
    have hsum : u32 (written + dReclen e) = written + dReclen e := Nat.mod_eq_of_lt (by omega)
    have hnext : u32 (f.offset + 1) = f.offset + 1 := Nat.mod_eq_of_lt (by omega)
    unfold getdentsFrom
    rw [hsum, hnext]
    by_cases hfull : count < written + dReclen e
    · rw [if_pos hfull]
      exact ⟨0, written, u.mem, rfl, Nat.zero_le _, fun h => by omega, by simp, le_rfl, hle, .done, fun _ _ => rfl⟩
    · have hheader := length_dHeader i e
      rw [if_neg hfull, copyToUser_ok hu (by omega)]
      dsimp only
      have hterm : (e.name ++ [0]).length = e.name.length + 1 := by rw [List.length_append, List.length_singleton]
      have hu' : { u with mem := u.mem.put written (dHeader i e) }.Writable count := hu
      rw [copyToUser_ok hu' (by omega)]
      dsimp only
      obtain ⟨k, stop, m, heq, hk, -, -, hlow, hstop, hrest, hsame⟩ :=
        @ih { u with mem := putRecord u.mem written i e } { f with offset := f.offset + 1 }
          (fun x hx => hnamed x (List.mem_cons_of_mem e hx)) (i + 1) (written + dReclen e) hu (by omega) (by omega)
          (by dsimp only; omega)
      refine ⟨k + 1, stop, m, ?_, by rw [List.length_cons]; omega, fun _ _ => Nat.succ_pos k, by omega,
        by omega, hstop, ?_, ?_⟩
      · rw [show f.offset + (k + 1) = f.offset + 1 + k by omega]
        exact heq
      · rw [List.take_succ_cons, List.map_cons]
        exact hrest.cons hlen hname (fun j hj => hsame j (Or.inl hj)) hlow
      · intro j hj
        exact (hsame j (by omega)).trans (putRecord_ne u.mem i (by omega))

section Run

variable (list : Path → Option (List Entry)) (f : Fd) (calls : ℕ → Getdents)

/-- The descriptor before call `n`. -/
def before : ℕ → Fd
  | 0 => f
  | n + 1 => (sysGetdents64 list (calls n) (before n)).2.1

def returned (n : ℕ) : ℤ := (sysGetdents64 list (calls n) (before list f calls n)).1

def found (n : ℕ) : Mem := (sysGetdents64 list (calls n) (before list f calls n)).2.2.mem

/-- The calls up to one that returns 0 deliver the entries `ls` in their order, each within its
buffer; and there is such a call. A call without memory delivers nothing. -/
def Enumerates (ls : List Entry) : Prop :=
  (∃ n, returned list f calls n = 0) ∧
  ∀ n, returned list f calls n = 0 → (∀ m < n, returned list f calls m ≠ 0) →
    ∃ records : ℕ → List (List UInt8 × UInt8), (List.range (n + 1)).flatMap records = ls.map Entry.shown ∧
      ∀ m ≤ n, (∀ i, (calls m).count ≤ i → found list f calls m i = (calls m).buf.mem i) ∧
        (returned list f calls m = ENOMEM ∧ records m = [] ∨ ∃ stop : ℕ, returned list f calls m = stop ∧
          stop ≤ (calls m).count ∧ Delivers (found list f calls m) stop 0 (records m))

variable {list f calls} {ls : List Entry}

/-- Buffers of 280 bytes at least that the user may write to, and memory for a listing again and
again. -/
structure Fair (calls : ℕ → Getdents) : Prop where
  large : ∀ n, 280 ≤ (calls n).count ∧ (calls n).count < 2 ^ 32
  writable : ∀ n, (calls n).buf.Writable (calls n).count
  room : ∀ n, ∃ m, n ≤ m ∧ (calls m).room = true

/-- What one call does on a directory. -/
theorem sysGetdents64_spec {c : Getdents} (hdir : f.flags.dir = true)
    (hlist : list f.path = some ls) (hnamed : Named ls)
    (hcount : 280 ≤ c.count) (hwritable : c.buf.Writable c.count) (hoff : f.offset ≤ (ls.take 64).length) :
    (c.room = false ∧ sysGetdents64 list c f = (ENOMEM, f, c.buf)) ∨
    (c.room = true ∧ ∃ (k stop : ℕ) (m : Mem),
      sysGetdents64 list c f = ((stop : ℤ), { f with offset := f.offset + k }, { c.buf with mem := m }) ∧
      f.offset + k ≤ (ls.take 64).length ∧ (stop = 0 ↔ f.offset = (ls.take 64).length) ∧
      (k = 0 → stop = 0) ∧ stop ≤ c.count ∧
      Delivers m stop 0 ((((ls.take 64).drop f.offset).take k).map Entry.shown) ∧
      ∀ j, c.count ≤ j → m j = c.buf.mem j) := by
  have h64 : (ls.take 64).length ≤ 64 := by
    rw [List.length_take]
    exact min_le_left _ _
  unfold sysGetdents64 vfsList
  rw [if_neg (by rw [hdir]; decide), hlist]
  by_cases hroom : c.room = false
  · rw [if_pos hroom]
    exact Or.inl ⟨hroom, rfl⟩
  · rw [if_neg hroom]
    dsimp only [Option.map_some]
    have hdrop : ((ls.take 64).drop f.offset).length = (ls.take 64).length - f.offset := List.length_drop
    have hshown : Named ((ls.take 64).drop f.offset) :=
      fun e he => hnamed e (List.mem_of_mem_take (List.mem_of_mem_drop he))
    obtain ⟨k, stop, m, heq, hk, hpos, hzero, -, hstop, hdel, hsame⟩ :=
      @getdentsFrom_spec _ f _ _ hshown f.offset 0 hwritable (Nat.zero_le _) (by omega) (by omega)
    refine Or.inr ⟨eq_true_of_ne_false hroom, k, stop, m,
      heq, by omega, ?_, fun h => hzero.mpr h, hstop, hdel, fun j hj => hsame j (Or.inr hj)⟩
    rw [hzero]
    constructor
    · intro h
      by_contra hne
      have hmore : (ls.take 64).drop f.offset ≠ [] :=
        fun h' => by rw [h'] at hdrop; simp only [List.length_nil] at hdrop; omega
      exact absurd h (hpos (by omega) hmore).ne'
    · omega

def handedOut (list : Path → Option (List Entry)) (f : Fd) (calls : ℕ → Getdents) (ls : List Entry)
    (n : ℕ) : List Entry :=
  ((ls.take 64).drop (before list f calls n).offset).take
    ((before list f calls (n + 1)).offset - (before list f calls n).offset)

section Fair

variable (hdir : f.flags.dir = true) (hfresh : f.offset = 0) (hlist : list f.path = some ls) (hnamed : Named ls)
  (hfair : Fair calls)

include hdir hfresh hlist hnamed hfair

/-- Before each call the position counts entries of the listing. -/
theorem before_spec (n : ℕ) :
    ∃ o ≤ (ls.take 64).length, before list f calls n = { f with offset := o } := by
  induction n with
  | zero => exact ⟨0, Nat.zero_le _, by rw [before, ← hfresh]⟩
  | succ n ih =>
    obtain ⟨o, ho, heq⟩ := ih
    rw [before, heq]
    rcases sysGetdents64_spec (f := { f with offset := o }) hdir hlist hnamed (hfair.large n).1
      (hfair.writable n) ho with
      ⟨-, hcall⟩ | ⟨-, k, stop, m, hcall, hk, -⟩
    · rw [hcall]
      exact ⟨o, ho, rfl⟩
    · rw [hcall]
      exact ⟨o + k, hk, rfl⟩

/-- What call `n` does: without memory nothing; otherwise it hands out the next entries, and returns
0 at the end. -/
theorem call_spec (n : ℕ) :
    (before list f calls n).offset ≤ (before list f calls (n + 1)).offset ∧
    (before list f calls (n + 1)).offset ≤ (ls.take 64).length ∧
    (∀ i, (calls n).count ≤ i → found list f calls n i = (calls n).buf.mem i) ∧
    ((calls n).room = false ∧ returned list f calls n = ENOMEM ∧ handedOut list f calls ls n = [] ∨
      (calls n).room = true ∧ (returned list f calls n = 0 ↔ (before list f calls n).offset = (ls.take 64).length) ∧
        (returned list f calls n ≠ 0 → (before list f calls n).offset < (before list f calls (n + 1)).offset) ∧
        ∃ stop : ℕ, returned list f calls n = stop ∧ stop ≤ (calls n).count ∧
          Delivers (found list f calls n) stop 0 ((handedOut list f calls ls n).map Entry.shown)) := by
  obtain ⟨o, ho, heq⟩ := before_spec hdir hfresh hlist hnamed hfair n
  unfold handedOut returned found
  rw [before, heq]
  rcases sysGetdents64_spec (f := { f with offset := o }) hdir hlist hnamed (hfair.large n).1 (hfair.writable n) ho with
    ⟨hroom, hcall⟩ | ⟨hroom, k, stop, m, hcall, hk, hzero, hnone, hstop, hdel, hsame⟩
  · rw [hcall]
    exact ⟨le_rfl, ho, fun _ _ => rfl, Or.inl ⟨hroom, rfl, by rw [Nat.sub_self, List.take_zero]⟩⟩
  · rw [hcall]
    refine ⟨Nat.le_add_right _ _, hk, hsame, Or.inr ⟨hroom, ?_, fun hne => ?_, stop, rfl, hstop, ?_⟩⟩
    · rw [← hzero]
      exact Int.natCast_eq_zero
    · have hk0 : k ≠ 0 := fun h => hne (by rw [hnone h]; rfl)
      exact Nat.lt_add_of_pos_right (Nat.pos_of_ne_zero hk0)
    · dsimp only at hdel ⊢
      rw [Nat.add_sub_cancel_left]
      exact hdel

/-- The first calls have handed out the entries that the position counts. -/
theorem flatMap_handedOut (n : ℕ) :
    (List.range n).flatMap (handedOut list f calls ls) = (ls.take 64).take (before list f calls n).offset := by
  induction n with
  | zero =>
    rw [before, hfresh]
    rfl
  | succ n ih =>
    obtain ⟨hle, -⟩ := call_spec hdir hfresh hlist hnamed hfair n
    rw [List.range_succ, List.flatMap_append, ih, List.flatMap_singleton, handedOut,
      ← List.take_add, Nat.add_sub_cancel' hle]

theorem offset_mono {m n : ℕ} (h : m ≤ n) : (before list f calls m).offset ≤ (before list f calls n).offset := by
  induction h with
  | refl => exact le_rfl
  | step _ ih => exact ih.trans (call_spec hdir hfresh hlist hnamed hfair _).1

theorem exists_returned_zero : ∃ n, returned list f calls n = 0 := by
  have hreach : ∀ d ≤ (ls.take 64).length, ∃ n, d ≤ (before list f calls n).offset := by
    intro d
    induction d with
    | zero => exact fun _ => ⟨0, Nat.zero_le _⟩
    | succ d ih =>
      intro hd
      obtain ⟨n, hn⟩ := ih (by omega)
      obtain ⟨m, hnm, hroom⟩ := hfair.room n
      have hm := offset_mono hdir hfresh hlist hnamed hfair hnm
      obtain ⟨-, -, -, hcall⟩ := call_spec hdir hfresh hlist hnamed hfair m
      rcases hcall with ⟨hno, -⟩ | ⟨-, hzero, hmore, -⟩
      · rw [hroom] at hno
        cases hno
      · by_cases hend : (before list f calls m).offset = (ls.take 64).length
        · exact ⟨m, by omega⟩
        · have := hmore fun h => hend (hzero.mp h)
          exact ⟨m + 1, by omega⟩
  obtain ⟨n, hn⟩ := hreach _ le_rfl
  obtain ⟨m, hnm, hroom⟩ := hfair.room n
  have hm := offset_mono hdir hfresh hlist hnamed hfair hnm
  obtain ⟨o, ho, heq⟩ := before_spec hdir hfresh hlist hnamed hfair m
  obtain ⟨-, -, -, hcall⟩ := call_spec hdir hfresh hlist hnamed hfair m
  rcases hcall with ⟨hno, -⟩ | ⟨-, hzero, -⟩
  · rw [hroom] at hno
    cases hno
  · refine ⟨m, hzero.mpr ?_⟩
    rw [heq] at hm ⊢
    exact le_antisymm ho (hn.trans hm)

theorem flatMap_of_returned_zero {n : ℕ} (hn : returned list f calls n = 0) :
    (List.range (n + 1)).flatMap (handedOut list f calls ls) = ls.take 64 := by
  obtain ⟨hle, hmax, -, hcall⟩ := call_spec hdir hfresh hlist hnamed hfair n
  rw [flatMap_handedOut hdir hfresh hlist hnamed hfair]
  rcases hcall with ⟨-, hret, -⟩ | ⟨-, hzero, -⟩
  · rw [hn] at hret
    cases hret
  · exact List.take_of_length_le (by rw [← hzero.mp hn]; exact hle)

/-- Only a directory of at most 64 entries is enumerated. -/
theorem length_le_of_enumerates (h : Enumerates list f calls ls) : ls.length ≤ 64 := by
  obtain ⟨hex, hall⟩ := h
  obtain ⟨records, hflat, hrec⟩ := hall (Nat.find hex) (Nat.find_spec hex) fun m hm => Nat.find_min hex hm
  have hsame : ∀ m ∈ List.range (Nat.find hex + 1), records m = (handedOut list f calls ls m).map Entry.shown := by
    intro m hm
    obtain ⟨-, -, -, hcall⟩ := call_spec hdir hfresh hlist hnamed hfair m
    rcases hcall with ⟨-, hret, hnone⟩ | ⟨-, -, -, stop, hret, -, hdel⟩ <;>
      rcases (hrec m (Nat.le_of_lt_succ (List.mem_range.mp hm))).2 with ⟨hret', hnone'⟩ | ⟨stop', hret', -, hdel'⟩
    · rw [hnone, hnone']
      rfl
    · rw [hret] at hret'
      cases hret'
    · rw [hret] at hret'
      cases hret'
    · obtain rfl : stop = stop' := Int.natCast_inj.mp (hret.symm.trans hret')
      exact hdel'.unique hdel
  have htotal : (ls.take 64).map Entry.shown = ls.map Entry.shown := by
    rw [← hflat, ← flatMap_of_returned_zero hdir hfresh hlist hnamed hfair (Nat.find_spec hex), List.map_flatMap]
    exact (List.flatMap_congr hsame).symm
  have hlen := congrArg List.length htotal
  rw [List.length_map, List.length_map, List.length_take] at hlen
  omega

/-- A fresh descriptor of a directory that does not change enumerates its entries if and only if
they are at most 64. -/
theorem getdents_enumerates_iff : Enumerates list f calls ls ↔ ls.length ≤ 64 := by
  refine ⟨length_le_of_enumerates hdir hfresh hlist hnamed hfair, fun h64 =>
    ⟨exists_returned_zero hdir hfresh hlist hnamed hfair, fun n hn _ =>
      ⟨fun m => (handedOut list f calls ls m).map Entry.shown, ?_, fun m _ => ?_⟩⟩⟩
  · rw [← List.map_flatMap, flatMap_of_returned_zero hdir hfresh hlist hnamed hfair hn, List.take_of_length_le h64]
  · obtain ⟨-, -, hsame, hcall⟩ := call_spec hdir hfresh hlist hnamed hfair m
    refine ⟨hsame, ?_⟩
    rcases hcall with ⟨-, hret, hnone⟩ | ⟨-, -, -, hdel⟩
    · exact Or.inl ⟨hret, congrArg (List.map Entry.shown) hnone⟩
    · exact Or.inr hdel

end Fair

end Run

/-- 65 files, with two letters each. -/
def manyFiles : List Entry := (List.range 65).map fun i => ⟨[UInt8.ofNat (97 + i / 26), UInt8.ofNat (97 + i % 26)], 0⟩

/-- They are in the root directory. -/
def crowded (path : Path) : Option (List Entry) := if path = [47] then some manyFiles else none

/-- A fresh descriptor of it. -/
def crowdedFd : Fd := { flags := { used := true, dir := true }, path := [47] }

/-- Calls with a buffer of 1024 bytes. -/
def steadyCalls (_ : ℕ) : Getdents := ⟨⟨fun _ => 0, 1024, fun _ => true⟩, 1024, true⟩

theorem steadyCalls_fair : Fair steadyCalls where
  large _ := ⟨by show 280 ≤ 1024; decide, by show 1024 < 2 ^ 32; decide⟩
  writable _ := ⟨le_rfl, fun _ _ => rfl⟩
  room n := ⟨n, le_rfl, rfl⟩

theorem manyFiles_named : Named manyFiles := by
  unfold Named
  decide

theorem getdents_enumerates_iff_many :
    Enumerates crowded crowdedFd steadyCalls manyFiles ↔ manyFiles.length ≤ 64 :=
  getdents_enumerates_iff rfl rfl rfl manyFiles_named steadyCalls_fair

/-- The last of the files is not handed out before a call returns 0. -/
theorem manyFiles_not_enumerated : ¬ Enumerates crowded crowdedFd steadyCalls manyFiles := fun h =>
  absurd (length_le_of_enumerates rfl rfl rfl manyFiles_named steadyCalls_fair h) (by decide)

end ComputerOS.Linux.Files
