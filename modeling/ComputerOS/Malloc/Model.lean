import ComputerOS.Lib.Memory
import Mathlib.Data.List.Chain

/-!
The allocator of the user programs. A block is a header of 16 bytes, followed by the payload;
`heap_head` begins a singly linked list of headers. Integers are unsigned and wrap: sizes at 32
bits, addresses at 64. Behind the blocks not every address is mapped, and a call that reaches an
address which is not mapped does not return; such a call gives `none`. A walk along the list takes
at most as many steps as headers fit into the address space.
-/
namespace ComputerOS.Malloc

open Mem

def u32 (x : ℕ) : ℕ := x % 2 ^ 32

def u64 (x : ℕ) : ℕ := x % 2 ^ 64

def int32 (x : ℕ) : ℤ := if x < 2 ^ 31 then x else x - 2 ^ 32

/-- `sizeof(block_t)` -/
def HEADER : ℕ := 16

def ALIGN : ℕ := 8

/-- `ALIGN_UP` on `unsigned int`. -/
def alignUp (x : ℕ) : ℕ := u32 (x + (ALIGN - 1)) / ALIGN * ALIGN

/-- The headers that fit into the address space. -/
def MAX_BLOCKS : ℕ := 2 ^ 60

abbrev next (m : Mem) (b : ℕ) : ℕ := m.getLE b 8
abbrev size (m : Mem) (b : ℕ) : ℕ := m.getLE (b + 8) 4
abbrev isFree (m : Mem) (b : ℕ) : ℕ := m.getLE (b + 12) 4

abbrev setNext (m : Mem) (b v : ℕ) : Mem := m.setLE b 8 v
abbrev setSize (m : Mem) (b v : ℕ) : Mem := m.setLE (b + 8) 4 v
abbrev setFree (m : Mem) (b v : ℕ) : Mem := m.setLE (b + 12) 4 v

/-- The memory of a program, the addresses that are mapped in it, its break, and `heap_head`. -/
structure Heap where
  mem : Mem
  mapped : ℕ → Bool
  brk : ℕ
  head : ℕ

/-- What `sbrk` returns; what is mapped afterwards, and the break then. -/
structure Grant where
  addr : ℕ
  mapped : ℕ → Bool
  brk : ℕ

abbrev Sbrk := ℤ → Grant

/-- `(void*)-1` -/
def FAILED : ℕ := 2 ^ 64 - 1

def Heap.Accessible (h : Heap) (a n : ℕ) : Prop := ∀ i < n, h.mapped (a + i) = true

instance (h : Heap) (a n : ℕ) : Decidable (h.Accessible a n) := inferInstanceAs (Decidable (∀ i < n, _))

def normalize (size : ℕ) : ℕ :=
  let size := if size = 0 then 1 else size
  alignUp (u32 size)

def lastBlock (m : Mem) : ℕ → ℕ → ℕ
  | 0, tail => tail
  | fuel + 1, tail => if next m tail ≠ 0 then lastBlock m fuel (next m tail) else tail

/-- The bytes that `grow_heap` asks for. -/
def growChunk (need : ℕ) : ℕ :=
  let chunk := u32 (need + HEADER)
  if chunk < 4096 then 4096 else chunk

/-- `grow_heap`: the new block, 0 on failure. -/
def growHeap (sbrk : Sbrk) (need : ℕ) (h : Heap) : Option (ℕ × Heap) :=
  let chunk := growChunk need
  let old := sbrk (int32 chunk)
  let h := { h with mapped := old.mapped, brk := old.brk }
  let b := old.addr
  if b = FAILED then some (0, h)
  else if h.Accessible b HEADER then
    let m := setFree (setSize (setNext h.mem b 0) b (u32 (chunk - HEADER))) b 1
    if h.head = 0 then some (b, { h with mem := m, head := b })
    else some (b, { h with mem := setNext m (lastBlock m MAX_BLOCKS h.head) b })
  else none

/-- `split_block`: the sum is computed at 64 bits, the size of the tail at 32. -/
def splitBlock (m : Mem) (b want : ℕ) : Mem :=
  if size m b < want + HEADER + ALIGN then m
  else
    let tail := u64 (b + HEADER + want)
    let m' := setNext m tail (next m b)
    let m' := setSize m' tail (u32 (size m b - want - HEADER))
    let m' := setFree m' tail 1
    setSize (setNext m' b tail) b want

/-- The block behind `b` becomes a part of it. -/
def absorb (m : Mem) (b : ℕ) : Mem :=
  let m' := setSize m b (u32 (size m b + (HEADER + size m (next m b))))
  setNext m' b (next m' (next m' b))

def coalesceWithNext (m : Mem) (b : ℕ) : Mem :=
  if isFree m b = 0 ∨ next m b = 0 ∨ isFree m (next m b) = 0 then m
  else if next m b ≠ u64 (b + HEADER + size m b) then m
  else absorb m b

/-- The first free block of the list that is large enough, 0 when there is none. -/
def findBlock (m : Mem) (want : ℕ) : ℕ → ℕ → ℕ
  | 0, _ => 0
  | fuel + 1, b =>
      if b = 0 then 0
      else if isFree m b ≠ 0 ∧ want ≤ size m b then b
      else findBlock m want fuel (next m b)

def takeBlock (m : Mem) (b want : ℕ) : Mem := setFree (splitBlock m b want) b 0

def malloc (sbrk : Sbrk) (size : ℕ) (h : Heap) : Option (ℕ × Heap) :=
  let want := normalize size
  let b := findBlock h.mem want MAX_BLOCKS h.head
  if b ≠ 0 then some (u64 (b + HEADER), { h with mem := takeBlock h.mem b want })
  else
    match growHeap sbrk want h with
    | none => none
    | some (nb, h) =>
      if nb = 0 then some (0, h) else some (u64 (nb + HEADER), { h with mem := takeBlock h.mem nb want })

/-- The pass of `free`: each block in turn is merged with the one behind it. -/
def coalesce : ℕ → Mem → ℕ → Mem
  | 0, m, _ => m
  | fuel + 1, m, p =>
      if p ≠ 0 ∧ next m p ≠ 0 then
        let m := coalesceWithNext m p
        coalesce fuel m (next m p)
      else m

def free (ptr : ℕ) (h : Heap) : Heap :=
  if ptr = 0 then h
  else
    let b := ptr - HEADER
    { h with mem := coalesce MAX_BLOCKS (setFree h.mem b 1) h.head }

def zeroes (m : Mem) (a n : ℕ) : Mem := fun i => if a ≤ i ∧ i < a + n then 0 else m i

def calloc (sbrk : Sbrk) (count size : ℕ) (h : Heap) : Option (ℕ × Heap) :=
  let total := u64 (count * size)
  if count ≠ 0 ∧ total / count ≠ size then some (0, h)
  else
    match malloc sbrk total h with
    | none => none
    | some (p, h) =>
      if p = 0 then some (0, h)
      else if h.Accessible p total then some (p, { h with mem := zeroes h.mem p total })
      else none

/-- The loop of `realloc` that copies the payload, from byte `i` on. -/
def copyLoop (b want dst src : ℕ) : ℕ → ℕ → Mem → Mem
  | 0, _, m => m
  | fuel + 1, i, m =>
      if i < size m b ∧ i < want then copyLoop b want dst src fuel (i + 1) (Function.update m (dst + i) (m (src + i)))
      else m

def realloc (sbrk : Sbrk) (ptr size : ℕ) (h : Heap) : Option (ℕ × Heap) :=
  if ptr = 0 then malloc sbrk size h
  else if size = 0 then some (0, free ptr h)
  else
    let b := ptr - HEADER
    let want := normalize size
    let bsize := Malloc.size h.mem b
    let nb := next h.mem b
    if want ≤ bsize then some (ptr, { h with mem := splitBlock h.mem b want })
    else if nb ≠ 0 ∧ isFree h.mem nb ≠ 0 ∧ nb = u64 (b + HEADER + bsize) ∧
        want ≤ bsize + HEADER + Malloc.size h.mem nb then
      some (ptr, { h with mem := splitBlock (absorb h.mem b) b want })
    else
      match malloc sbrk size h with
      | none => none
      | some (np, h) =>
        if np = 0 then some (0, h)
        else if h.Accessible np (min (Malloc.size h.mem b) want) then
          some (np, free ptr { h with mem := copyLoop b want np ptr want 0 h.mem })
        else none

end ComputerOS.Malloc

-- The block list behind the headers. The blocks stand in address order, with or without a gap
-- between two of them, and the headers in memory hold their sizes, their flags and the address of
-- the next one. The walks of the source are searches of that list, and it is the only list that the
-- headers describe.
namespace ComputerOS.Malloc

open Mem

/-- A block: its header address, the size of its payload, and whether it is free. -/
structure Blk where
  addr : ℕ
  size : ℕ
  free : Bool
  deriving DecidableEq

abbrev Blk.stop (b : Blk) : ℕ := b.addr + 16 + b.size

/-- The header of block `b` in memory, with next pointer `nx`. -/
structure Header (m : Mem) (b : Blk) (nx : ℕ) : Prop where
  size : Malloc.size m b.addr = b.size
  free : Malloc.isFree m b.addr = b.free.toNat
  next : Malloc.next m b.addr = nx

/-- The address of the first block; `e` when there is none. -/
def headAddr : List Blk → ℕ → ℕ
  | [], e => e
  | b :: _, _ => b.addr

/-- The headers in memory link the blocks; the last one points to `e`. -/
def Linked (m : Mem) : List Blk → ℕ → Prop
  | [], _ => True
  | b :: l, e => Header m b (headAddr l e) ∧ Linked m l e

/-- The blocks that a walk along the headers passes. -/
def blocksFrom (m : Mem) : ℕ → ℕ → List Blk
  | 0, _ => []
  | fuel + 1, b =>
      if b = 0 then [] else ⟨b, size m b, decide (isFree m b ≠ 0)⟩ :: blocksFrom m fuel (next m b)

def Heap.blocks (h : Heap) : List Blk := blocksFrom h.mem MAX_BLOCKS h.head

/-- The address and the size of a block fit into their fields. -/
structure Blk.Ok (b : Blk) : Prop where
  pos : 0 < b.addr
  stop : b.stop < 2 ^ 64
  small : b.size < 2 ^ 32

def Ordered (l : List Blk) : Prop := l.Pairwise fun b c => b.stop ≤ c.addr

structure Shape (h : Heap) (l : List Blk) : Prop where
  head : h.head = headAddr l 0
  linked : Linked h.mem l 0
  ordered : Ordered l
  ok : ∀ b ∈ l, b.Ok

variable {m m' : Mem} {h : Heap} {e : ℕ} {b c : Blk} {l l₁ l₂ : List Blk}

theorem headAddr_append (l₁ l₂ : List Blk) (e : ℕ) : headAddr (l₁ ++ l₂) e = headAddr l₁ (headAddr l₂ e) := by
  cases l₁ <;> rfl

theorem linked_append : Linked m (l₁ ++ l₂) e ↔ Linked m l₁ (headAddr l₂ e) ∧ Linked m l₂ e := by
  induction l₁ with
  | nil => simp [Linked]
  | cons b l₁ ih =>
    simp only [List.cons_append, Linked, ih, headAddr_append]
    tauto

theorem Header.congr {nx : ℕ} (h : Header m b nx) (heq : ∀ i, b.addr ≤ i → i < b.addr + 16 → m' i = m i) :
    Header m' b nx := by
  refine ⟨h.size ▸ ?_, h.free ▸ ?_, h.next ▸ ?_⟩
  · exact getLE_congr fun i hi => heq _ (by omega) (by omega)
  · exact getLE_congr fun i hi => heq _ (by omega) (by omega)
  · exact getLE_congr fun i hi => heq _ (by omega) (by omega)

theorem Linked.congr (h : Linked m l e) (heq : ∀ b ∈ l, ∀ i, b.addr ≤ i → i < b.addr + 16 → m' i = m i) :
    Linked m' l e := by
  induction l with
  | nil => trivial
  | cons b l ih =>
    exact ⟨h.1.congr (heq b List.mem_cons_self), ih h.2 fun c hc => heq c (List.mem_cons_of_mem b hc)⟩

theorem headAddr_ne_zero (hok : ∀ b ∈ l, b.Ok) (hne : l ≠ []) : headAddr l e ≠ 0 := by
  cases l with
  | nil => exact absurd rfl hne
  | cons b l => exact (hok b List.mem_cons_self).pos.ne'

theorem headAddr_lt (hok : ∀ b ∈ l, b.Ok) : headAddr l 0 < 2 ^ 64 := by
  cases l with
  | nil => decide
  | cons b l =>
    have := (hok b List.mem_cons_self).stop
    change b.addr < 2 ^ 64
    unfold Blk.stop at this
    omega

/-- In address order all headers have room below the end of the last block. -/
theorem Ordered.room (ho : Ordered l) {z : ℕ} (hz : ∀ b ∈ l, b.stop ≤ z) {a : ℕ} (ha : ∀ b ∈ l, a ≤ b.addr) :
    a + 16 * l.length ≤ z ∨ l = [] := by
  induction l generalizing a with
  | nil => exact Or.inr rfl
  | cons b l ih =>
    left
    have hb := hz b List.mem_cons_self
    have hab := ha b List.mem_cons_self
    obtain ⟨hnext, hrest⟩ := List.pairwise_cons.mp ho
    rw [List.length_cons]
    unfold Blk.stop at hb
    rcases ih hrest (fun c hc => hz c (List.mem_cons_of_mem b hc)) hnext with h | rfl
    · unfold Blk.stop at h
      omega
    · simp only [List.length_nil]
      omega

theorem Ordered.length_le (ho : Ordered l) (hok : ∀ b ∈ l, b.Ok) : l.length ≤ MAX_BLOCKS := by
  unfold MAX_BLOCKS
  rcases ho.room (fun b hb => (hok b hb).stop.le) (fun b _ => Nat.zero_le b.addr) with h | rfl
  · omega
  · simp

theorem Header.decide_free {nx : ℕ} (h : Header m b nx) : decide (isFree m b.addr ≠ 0) = b.free := by
  rw [h.free]
  cases b.free <;> rfl

theorem blocksFrom_eq (hl : Linked m l 0) (hok : ∀ b ∈ l, b.Ok) {fuel : ℕ} (hf : l.length ≤ fuel) :
    blocksFrom m fuel (headAddr l 0) = l := by
  induction l generalizing fuel with
  | nil =>
    cases fuel with
    | zero => rfl
    | succ fuel => exact if_pos rfl
  | cons b l ih =>
    have hpos := (hok b List.mem_cons_self).pos
    obtain ⟨fuel, rfl⟩ : ∃ k, fuel = k + 1 := ⟨fuel - 1, by rw [List.length_cons] at hf; omega⟩
    change blocksFrom m (fuel + 1) b.addr = _
    rw [blocksFrom, if_neg (by omega), hl.1.size, hl.1.decide_free, hl.1.next,
      ih hl.2 (fun c hc => hok c (List.mem_cons_of_mem b hc)) (Nat.le_of_succ_le_succ hf)]

theorem Shape.length_le (hS : Shape h l) : l.length ≤ MAX_BLOCKS := hS.ordered.length_le hS.ok

theorem Shape.blocks_eq (hS : Shape h l) : h.blocks = l := by
  rw [Heap.blocks, hS.head]
  exact blocksFrom_eq hS.linked hS.ok hS.length_le

theorem lastBlock_eq (hl : Linked m (l ++ [b]) 0) (hok : ∀ c ∈ l ++ [b], c.Ok) {fuel : ℕ} (hf : l.length ≤ fuel) :
    lastBlock m fuel (headAddr (l ++ [b]) 0) = b.addr := by
  induction l generalizing fuel with
  | nil =>
    have hnext : next m b.addr = 0 := hl.1.next
    cases fuel with
    | zero => rfl
    | succ fuel =>
      change lastBlock m (fuel + 1) b.addr = b.addr
      rw [lastBlock, if_neg (fun h => h hnext)]
  | cons c l ih =>
    have hnext : next m c.addr = headAddr (l ++ [b]) 0 := hl.1.next
    have hok' : ∀ d ∈ l ++ [b], d.Ok := fun d hd => hok d (List.mem_cons_of_mem c hd)
    have hpos : headAddr (l ++ [b]) 0 ≠ 0 := headAddr_ne_zero hok' (by simp)
    obtain ⟨fuel, rfl⟩ : ∃ k, fuel = k + 1 := ⟨fuel - 1, by rw [List.length_cons] at hf; omega⟩
    change lastBlock m (fuel + 1) c.addr = b.addr
    rw [lastBlock, if_pos (by rwa [hnext]), hnext]
    exact ih hl.2 hok' (Nat.le_of_succ_le_succ hf)

theorem findBlock_eq {n : ℕ} (hl : Linked m l 0) (hok : ∀ b ∈ l, b.Ok) {fuel : ℕ} (hf : l.length ≤ fuel) :
    (findBlock m n fuel (headAddr l 0) = 0 ∧ ∀ b ∈ l, b.free = false ∨ b.size < n) ∨
    ∃ l₁ b l₂, l = l₁ ++ b :: l₂ ∧ b.free = true ∧ n ≤ b.size ∧ findBlock m n fuel (headAddr l 0) = b.addr := by
  induction l generalizing fuel with
  | nil =>
    left
    cases fuel with
    | zero => exact ⟨rfl, fun b hb => by cases hb⟩
    | succ fuel => exact ⟨if_pos rfl, fun b hb => by cases hb⟩
  | cons c l ih =>
    have hpos := (hok c List.mem_cons_self).pos
    obtain ⟨fuel, rfl⟩ : ∃ k, fuel = k + 1 := ⟨fuel - 1, by rw [List.length_cons] at hf; omega⟩
    have hstep : findBlock m n (fuel + 1) (headAddr (c :: l) 0) =
        if c.free = true ∧ n ≤ c.size then c.addr else findBlock m n fuel (headAddr l 0) := by
      change findBlock m n (fuel + 1) c.addr = _
      rw [findBlock, if_neg (by omega), hl.1.free, hl.1.size, hl.1.next]
      cases c.free <;> simp
    rw [hstep]
    by_cases hfit : c.free = true ∧ n ≤ c.size
    · rw [if_pos hfit]
      exact Or.inr ⟨[], c, l, rfl, hfit.1, hfit.2, rfl⟩
    · rw [if_neg hfit]
      rcases ih hl.2 (fun d hd => hok d (List.mem_cons_of_mem c hd)) (Nat.le_of_succ_le_succ hf) with
        ⟨h0, hall⟩ | ⟨l₁, b, l₂, rfl, hb⟩
      · refine Or.inl ⟨h0, fun b hb => ?_⟩
        rcases List.mem_cons.mp hb with rfl | hb
        · cases hfree : b.free with
          | false => exact Or.inl rfl
          | true => exact Or.inr (by by_contra hge; exact hfit ⟨hfree, by omega⟩)
        · exact hall b hb
      · exact Or.inr ⟨c :: l₁, b, l₂, rfl, hb⟩

theorem getLE_setLE_eq (m : Mem) {a w v : ℕ} (hv : v < 256 ^ w) : (m.setLE a w v).getLE a w = v := by
  rw [getLE_setLE_same, Nat.mod_eq_of_lt hv]

theorem toNat_lt (x : Bool) : x.toNat < 256 ^ 4 := by
  cases x <;> decide

theorem header_write (m : Mem) (b : Blk) {nx : ℕ} (hs : b.size < 2 ^ 32) (hn : nx < 2 ^ 64) :
    Header (setFree (setSize (setNext m b.addr nx) b.addr b.size) b.addr b.free.toNat) b nx := by
  refine ⟨?_, getLE_setLE_eq _ (toNat_lt _), ?_⟩
  · rw [size, getLE_setLE_ne _ (by omega), getLE_setLE_eq _ hs]
  · rw [next, getLE_setLE_ne _ (by omega), getLE_setLE_ne _ (by omega), getLE_setLE_eq _ hn]

theorem header_ne (m : Mem) {b i s f nx : ℕ} (hi : i < b ∨ b + 16 ≤ i) :
    setFree (setSize (setNext m b nx) b s) b f i = m i := by
  rw [setFree, setLE_ne _ (by omega), setSize, setLE_ne _ (by omega), setNext, setLE_ne _ (by omega)]

theorem Header.setFree {nx : ℕ} (h : Header m b nx) (f : Bool) :
    Header (Malloc.setFree m b.addr f.toNat) { b with free := f } nx := by
  refine ⟨?_, getLE_setLE_eq _ (toNat_lt _), ?_⟩
  · rw [Malloc.size, getLE_setLE_ne _ (by simp only; omega)]
    exact h.size
  · rw [Malloc.next, getLE_setLE_ne _ (by simp only; omega)]
    exact h.next

theorem Header.setNext {nx : ℕ} (h : Header m b nx) {ny : ℕ} (hn : ny < 2 ^ 64) :
    Header (Malloc.setNext m b.addr ny) b ny := by
  refine ⟨?_, ?_, getLE_setLE_eq _ hn⟩
  · rw [Malloc.size, getLE_setLE_ne _ (by omega)]
    exact h.size
  · rw [Malloc.isFree, getLE_setLE_ne _ (by omega)]
    exact h.free

theorem Header.setSize {nx : ℕ} (h : Header m b nx) {n : ℕ} (hn : n < 2 ^ 32) :
    Header (Malloc.setSize m b.addr n) { b with size := n } nx := by
  refine ⟨getLE_setLE_eq _ hn, ?_, ?_⟩
  · rw [Malloc.isFree, getLE_setLE_ne _ (by simp only; omega)]
    exact h.free
  · rw [Malloc.next, getLE_setLE_ne _ (by simp only; omega)]
    exact h.next

/-- The headers of the blocks, written into empty memory. -/
def layOut : List Blk → Mem
  | [] => fun _ => 0
  | b :: l => setFree (setSize (setNext (layOut l) b.addr (headAddr l 0)) b.addr b.size) b.addr b.free.toNat

/-- A heap with the given blocks below the break, all of memory mapped. -/
def heapOf (l : List Blk) (brk : ℕ) : Heap where
  mem := layOut l
  mapped _ := true
  brk := brk
  head := headAddr l 0

theorem linked_layOut (ho : Ordered l) (hok : ∀ b ∈ l, b.Ok) : Linked (layOut l) l 0 := by
  induction l with
  | nil => trivial
  | cons b l ih =>
    obtain ⟨hb, hol⟩ := List.pairwise_cons.mp ho
    have hokl : ∀ c ∈ l, c.Ok := fun c hc => hok c (List.mem_cons_of_mem b hc)
    refine ⟨header_write _ b (hok b List.mem_cons_self).small (headAddr_lt hokl), ?_⟩
    refine (ih hol hokl).congr fun c hc i hi _ => header_ne _ (Or.inr ?_)
    have := hb c hc
    unfold Blk.stop at this
    omega

theorem shape_heapOf (ho : Ordered l) (hok : ∀ b ∈ l, b.Ok) (brk : ℕ) : Shape (heapOf l brk) l :=
  ⟨rfl, linked_layOut ho hok, ho, hok⟩

end ComputerOS.Malloc
