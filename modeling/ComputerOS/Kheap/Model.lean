import ComputerOS.Lib.Memory
import Mathlib.Data.List.Chain
import Mathlib.Logic.Relation

/-!
The kernel heap. A block is a header of 16 bytes in memory, followed by the user bytes;
the headers form a singly linked list in address order. Integers are unsigned and wrap:
sizes at 32 bits, addresses at 64. A walk along the list takes at most as many steps as
headers fit into the heap; `map_region` is a parameter, which answers with the contents
of the fresh frames or fails.
-/
namespace ComputerOS.Kheap

open Mem

/-- Addresses and 32-bit sizes wrap. -/
def u32 (x : ℕ) : ℕ := x % 2 ^ 32

def u64 (x : ℕ) : ℕ := x % 2 ^ 64

def HEADER_SIZE : ℕ := 16
def MIN_GROW_PAGES : ℕ := 16
def PAGE : ℕ := 4096

/-- `ALIGN8` on `unsigned int`. -/
def align8 (x : ℕ) : ℕ := u32 (x + 7) / 8 * 8

abbrev size (m : Mem) (b : ℕ) : ℕ := m.getLE b 4
abbrev used (m : Mem) (b : ℕ) : ℕ := m.getLE (b + 4) 1
abbrev next (m : Mem) (b : ℕ) : ℕ := m.getLE (b + 8) 8

abbrev setSize (m : Mem) (b v : ℕ) : Mem := m.setLE b 4 v
abbrev setUsed (m : Mem) (b v : ℕ) : Mem := m.setLE (b + 4) 1 v
abbrev setNext (m : Mem) (b v : ℕ) : Mem := m.setLE (b + 8) 8 v

/-- The static variables of the heap, and the memory it lives in. -/
structure Heap where
  mem : Mem
  head : ℕ
  start : ℕ
  stop : ℕ
  limit : ℕ

/-- What `map_region(virt, pages)` does: it maps frames with some contents, or fails. -/
abbrev MapRegion := ℕ → ℕ → Option Mem

/-- Memory with the bytes from `a` to `z` replaced. -/
def splice (m fresh : Mem) (a z : ℕ) : Mem := fun i => if a ≤ i ∧ i < z then fresh i else m i

def Heap.bound (h : Heap) : ℕ := (h.stop - h.start) / HEADER_SIZE

def lastBlock (m : Mem) : ℕ → ℕ → ℕ
  | 0, b => b
  | fuel + 1, b => if b ≠ 0 ∧ next m b ≠ 0 then lastBlock m fuel (next m b) else b

def kheapInit (map : MapRegion) (base initialPages maxPages : ℕ) (h : Heap) : Heap :=
  let maxPages := if maxPages < initialPages then initialPages else maxPages
  match map base initialPages with
  | none => h
  | some fresh =>
      let m := splice h.mem fresh base (base + initialPages * PAGE)
      let m := setSize m base (u32 (u32 (initialPages * PAGE) + (2 ^ 32 - HEADER_SIZE)))
      { mem := setNext (setUsed m base 0) base 0, head := base, start := base,
        stop := u64 (base + u32 (initialPages * PAGE)), limit := u64 (base + u32 (maxPages * PAGE)) }

def growPages (h : Heap) (minBytes : ℕ) : ℕ :=
  let needed := u32 (u32 (minBytes + PAGE) + (2 ^ 32 - 1)) / PAGE
  let needed := if needed < MIN_GROW_PAGES then MIN_GROW_PAGES else needed
  let room := u32 ((h.limit - h.stop) / PAGE)
  if room < needed then room else needed

/-- Stitch a freshly mapped region of `added` bytes behind the list. -/
def stitch (h : Heap) (added : ℕ) : Heap :=
  let tail := lastBlock h.mem h.bound h.head
  let h' := { h with stop := u64 (h.stop + added) }
  if tail ≠ 0 ∧ used h.mem tail = 0 then
    { h' with mem := setSize h.mem tail (u32 (size h.mem tail + added)) }
  else
    let nb := h.stop
    let m := setSize h.mem nb (u32 (added + (2 ^ 32 - HEADER_SIZE)))
    let m := setNext (setUsed m nb 0) nb 0
    if tail ≠ 0 then { h' with mem := setNext m tail nb } else { h' with mem := m, head := nb }

/-- `kheap_grow`: the bytes added, 0 on failure. -/
def kheapGrow (map : MapRegion) (minBytes : ℕ) (h : Heap) : ℕ × Heap :=
  if h.head = 0 then (0, h)
  else if h.limit ≤ h.stop then (0, h)
  else
    let pages := growPages h minBytes
    if pages = 0 then (0, h)
    else match map h.stop pages with
      | none => (0, h)
      | some fresh =>
          let added := u32 (pages * PAGE)
          (added, stitch { h with mem := splice h.mem fresh h.stop (h.stop + pages * PAGE) } added)

/-- The block that the first-fit search finds; 0 when there is none. -/
def findBlock (m : Mem) (n : ℕ) : ℕ → ℕ → ℕ
  | 0, _ => 0
  | fuel + 1, b =>
      if b = 0 then 0
      else if used m b ≠ 0 ∨ size m b < n then findBlock m n fuel (next m b)
      else b

/-- Take `n` bytes of the free block `b`: split it when the rest can hold a block. -/
def takeBlock (m : Mem) (b n : ℕ) : Mem :=
  if u32 (n + HEADER_SIZE + 8) ≤ size m b then
    let rest := u64 (b + HEADER_SIZE + n)
    let m' := setSize m rest (u32 (size m b - n + (2 ^ 32 - HEADER_SIZE)))
    let m' := setNext (setUsed m' rest 0) rest (next m b)
    setUsed (setNext (setSize m' b n) b rest) b 1
  else setUsed m b 1

/-- `find_fit`: the user pointer, 0 when nothing fits. -/
def findFit (n : ℕ) (h : Heap) : ℕ × Heap :=
  let b := findBlock h.mem n h.bound h.head
  if b = 0 then (0, h) else (u64 (b + HEADER_SIZE), { h with mem := takeBlock h.mem b n })

def kmalloc (map : MapRegion) (n : ℕ) (h : Heap) : ℕ × Heap :=
  if n = 0 ∨ h.head = 0 then (0, h)
  else
    let n := align8 n
    match findFit n h with
    | (0, h) =>
        match kheapGrow map (u32 (n + HEADER_SIZE)) h with
        | (0, h) => (0, h)
        | (_, h) => findFit n h
    | r => r

/-- The free block whose next block is `b`; 0 when there is none. -/
def findPrev (m : Mem) (b : ℕ) : ℕ → ℕ → ℕ
  | 0, _ => 0
  | fuel + 1, p =>
      if p = 0 then 0
      else if next m p = b ∧ used m p = 0 then p
      else findPrev m b fuel (next m p)

def absorb (m : Mem) (b c : ℕ) : Mem :=
  setNext (setSize m b (u32 (size m b + (HEADER_SIZE + size m c)))) b (next m c)

/-- Coalesce forward: join block `b` with the one behind it if that is free. -/
def joinNext (m : Mem) (b : ℕ) : Mem :=
  if next m b ≠ 0 ∧ used m (next m b) = 0 then absorb m b (next m b) else m

/-- Coalesce backward: join block `b` with the one before it if that is free. -/
def joinPrev (h : Heap) (b : ℕ) : Heap :=
  if b ≠ h.head then
    let p := findPrev h.mem b h.bound h.head
    if p ≠ 0 then { h with mem := absorb h.mem p b } else h
  else h

def kfree (ptr : ℕ) (h : Heap) : Heap :=
  if ptr = 0 then h
  else
    let b := ptr - HEADER_SIZE
    joinPrev { h with mem := joinNext (setUsed h.mem b 0) b } b

end ComputerOS.Kheap

-- The block list behind the headers. A list of blocks tiles an address range when each
-- block starts where the one before it ends, and it is linked in memory when the headers
-- hold its sizes, its flags and the address of the next block. The walks of the source
-- are searches of that list.
namespace ComputerOS.Kheap

open Mem

/-- A block: its header address, the size of its user area, and whether it is in use. -/
structure Blk where
  addr : ℕ
  size : ℕ
  used : Bool

abbrev Blk.stop (b : Blk) : ℕ := b.addr + 16 + b.size

/-- The blocks tile the addresses from `a` to `z`. -/
def Tiles : ℕ → ℕ → List Blk → Prop
  | a, z, [] => a = z
  | a, z, b :: l => b.addr = a ∧ Tiles b.stop z l

/-- The header of block `b` in memory, with next pointer `nx`. -/
structure Header (m : Mem) (b : Blk) (nx : ℕ) : Prop where
  size : Kheap.size m b.addr = b.size
  used : Kheap.used m b.addr = b.used.toNat
  next : Kheap.next m b.addr = nx

/-- The address of the first block; `e` when there is none. -/
def headAddr : List Blk → ℕ → ℕ
  | [], e => e
  | b :: _, _ => b.addr

/-- The headers in memory link the blocks; the last one points to `e`. -/
def Linked (m : Mem) : List Blk → ℕ → Prop
  | [], _ => True
  | b :: l, e => Header m b (headAddr l e) ∧ Linked m l e

variable {m m' : Mem} {a z e : ℕ} {l l₁ l₂ : List Blk}

theorem Tiles.append {c : ℕ} (h₁ : Tiles a c l₁) (h₂ : Tiles c z l₂) : Tiles a z (l₁ ++ l₂) := by
  induction l₁ generalizing a with
  | nil =>
    obtain rfl : a = c := h₁
    exact h₂
  | cons b l₁ ih => exact ⟨h₁.1, ih h₁.2⟩

theorem Tiles.split (h : Tiles a z (l₁ ++ l₂)) : ∃ c, Tiles a c l₁ ∧ Tiles c z l₂ := by
  induction l₁ generalizing a with
  | nil => exact ⟨a, rfl, h⟩
  | cons b l₁ ih =>
    obtain ⟨c, h1, h2⟩ := ih h.2
    exact ⟨c, ⟨h.1, h1⟩, h2⟩

theorem Tiles.le (h : Tiles a z l) : a + 16 * l.length ≤ z := by
  induction l generalizing a with
  | nil => exact le_of_eq h
  | cons b l ih =>
    obtain ⟨hb, hl⟩ := h
    have := ih hl
    simp only [Blk.stop, List.length_cons] at *
    omega

theorem Tiles.bounds (h : Tiles a z l) {b : Blk} (hb : b ∈ l) : a ≤ b.addr ∧ b.stop ≤ z := by
  induction l generalizing a with
  | nil => cases hb
  | cons c l ih =>
    obtain ⟨hc, hl⟩ := h
    have hle := hl.le
    simp only [Blk.stop] at *
    rcases List.mem_cons.mp hb with rfl | hb
    · exact ⟨by omega, by omega⟩
    · have := ih hl hb
      exact ⟨by omega, by omega⟩

/-- The blocks on both sides of a block stay clear of it. -/
theorem Tiles.sides {b : Blk} (h : Tiles a z (l₁ ++ b :: l₂)) :
    Tiles a b.addr l₁ ∧ Tiles b.stop z l₂ ∧ a ≤ b.addr ∧ b.stop ≤ z := by
  obtain ⟨c, h1, hc, h2⟩ := h.split
  subst hc
  exact ⟨h1, h2, by have := h1.le; omega, by have := h2.le; omega⟩

/-- Distinct places of a tiled list are disjoint. -/
theorem Tiles.pairwise (h : Tiles a z l) : l.Pairwise fun b c => b.stop ≤ c.addr := by
  induction l generalizing a with
  | nil => exact .nil
  | cons b l ih =>
    refine .cons ?_ (ih h.2)
    intro c hc
    exact (h.2.bounds hc).1

theorem headAddr_append (l₁ l₂ : List Blk) (e : ℕ) :
    headAddr (l₁ ++ l₂) e = headAddr l₁ (headAddr l₂ e) := by
  cases l₁ <;> rfl

theorem linked_append : Linked m (l₁ ++ l₂) e ↔ Linked m l₁ (headAddr l₂ e) ∧ Linked m l₂ e := by
  induction l₁ with
  | nil => simp [Linked]
  | cons b l₁ ih =>
    simp only [List.cons_append, Linked, ih, headAddr_append]
    tauto

theorem Header.congr {b : Blk} {nx : ℕ} (h : Header m b nx)
    (heq : ∀ i, b.addr ≤ i → i < b.addr + 16 → m' i = m i) : Header m' b nx := by
  refine ⟨h.size ▸ ?_, h.used ▸ ?_, h.next ▸ ?_⟩
  · exact getLE_congr fun i hi => heq _ (by omega) (by omega)
  · exact getLE_congr fun i hi => heq _ (by omega) (by omega)
  · exact getLE_congr fun i hi => heq _ (by omega) (by omega)

theorem Linked.congr (h : Linked m l e)
    (heq : ∀ b ∈ l, ∀ i, b.addr ≤ i → i < b.addr + 16 → m' i = m i) : Linked m' l e := by
  induction l with
  | nil => trivial
  | cons b l ih =>
    exact ⟨h.1.congr (heq b List.mem_cons_self),
      ih h.2 fun c hc => heq c (List.mem_cons_of_mem b hc)⟩

/-- Memory that is the same from `a` to `z` links the same tiling of these addresses. -/
theorem Linked.congr_tiles (h : Linked m l e) (ht : Tiles a z l)
    (heq : ∀ i, a ≤ i → i < z → m' i = m i) : Linked m' l e := by
  refine h.congr fun b hb i h1 h2 => heq i ?_ ?_
  · have := (ht.bounds hb).1
    omega
  · have := (ht.bounds hb).2
    simp only [Blk.stop] at this
    omega

/-- Every block of a tiling of positive addresses has a header address. -/
theorem Tiles.addr_ne_zero (h : Tiles a z l) (ha : 0 < a) {b : Blk} (hb : b ∈ l) : b.addr ≠ 0 := by
  have := (h.bounds hb).1
  omega

theorem lastBlock_eq {b : Blk} (ht : Tiles a z (l ++ [b])) (ha : 0 < a)
    (h : Linked m (l ++ [b]) 0) {fuel : ℕ} (hf : l.length ≤ fuel) :
    lastBlock m fuel (headAddr (l ++ [b]) 0) = b.addr := by
  induction l generalizing a fuel with
  | nil =>
    have hnext : next m b.addr = 0 := h.1.next
    cases fuel with
    | zero => rfl
    | succ fuel =>
      change lastBlock m (fuel + 1) b.addr = b.addr
      rw [lastBlock, if_neg (by rw [hnext]; exact fun h => h.2 rfl)]
  | cons c l ih =>
    have hc : c.addr ≠ 0 := ht.addr_ne_zero ha List.mem_cons_self
    have hnext : next m c.addr = headAddr (l ++ [b]) 0 := h.1.next
    have hpos : headAddr (l ++ [b]) 0 ≠ 0 := by
      cases l with
      | nil => exact ht.addr_ne_zero ha (by simp)
      | cons d l => exact ht.addr_ne_zero ha (by simp)
    rw [List.length_cons] at hf
    obtain ⟨fuel, rfl⟩ : ∃ k, fuel = k + 1 := ⟨fuel - 1, by omega⟩
    change lastBlock m (fuel + 1) c.addr = b.addr
    rw [lastBlock, if_pos ⟨hc, by rw [hnext]; exact hpos⟩, hnext]
    exact ih ht.2 (by simp only [Blk.stop]; omega) h.2 (by omega)

theorem findBlock_eq {n : ℕ} (ht : Tiles a z l) (ha : 0 < a) (h : Linked m l 0) {fuel : ℕ}
    (hf : l.length ≤ fuel) :
    (findBlock m n fuel (headAddr l 0) = 0 ∧ ∀ b ∈ l, b.used = true ∨ b.size < n) ∨
    ∃ l₁ b l₂, l = l₁ ++ b :: l₂ ∧ b.used = false ∧ n ≤ b.size ∧
      findBlock m n fuel (headAddr l 0) = b.addr := by
  induction l generalizing a fuel with
  | nil =>
    left
    cases fuel with
    | zero => exact ⟨rfl, fun b hb => by cases hb⟩
    | succ fuel => exact ⟨if_pos rfl, fun b hb => by cases hb⟩
  | cons c l ih =>
    have hc : c.addr ≠ 0 := ht.addr_ne_zero ha List.mem_cons_self
    rw [List.length_cons] at hf
    obtain ⟨fuel, rfl⟩ : ∃ k, fuel = k + 1 := ⟨fuel - 1, by omega⟩
    have hused := h.1.used
    have hstep : findBlock m n (fuel + 1) (headAddr (c :: l) 0) =
        if c.used = true ∨ c.size < n then findBlock m n fuel (headAddr l 0) else c.addr := by
      change findBlock m n (fuel + 1) c.addr = _
      rw [findBlock, if_neg hc, hused, h.1.size, h.1.next]
      cases c.used <;> simp
    rw [hstep]
    by_cases hskip : c.used = true ∨ c.size < n
    · rw [if_pos hskip]
      have hlen : l.length ≤ fuel := by omega
      rcases ih ht.2 (by simp only [Blk.stop]; omega) h.2 hlen with ⟨h0, hall⟩ | ⟨l₁, b, l₂, rfl, hb⟩
      · refine Or.inl ⟨h0, ?_⟩
        intro b hb
        rcases List.mem_cons.mp hb with rfl | hb
        · exact hskip
        · exact hall b hb
      · exact Or.inr ⟨c :: l₁, b, l₂, rfl, hb⟩
    · rw [if_neg hskip]
      refine Or.inr ⟨[], c, l, rfl, ?_, by omega, rfl⟩
      cases hcu : c.used
      · rfl
      · exact absurd (Or.inl hcu) hskip

theorem findPrev_cons {c : Blk} {t fuel : ℕ} (hc : c.addr ≠ 0) (h : Linked m (c :: l) 0) :
    findPrev m t (fuel + 1) (headAddr (c :: l) 0) =
      if headAddr l 0 = t ∧ c.used = false then c.addr else findPrev m t fuel (headAddr l 0) := by
  change findPrev m t (fuel + 1) c.addr = _
  have hused := h.1.used
  rw [findPrev, if_neg hc, hused, h.1.next]
  cases c.used <;> simp

theorem findPrev_behind {t fuel : ℕ} (ht : Tiles a z l) (h : Linked m l 0) (h0 : t ≠ 0) (hta : t ≤ a) :
    findPrev m t fuel (headAddr l 0) = 0 := by
  induction l generalizing a fuel with
  | nil =>
    cases fuel with
    | zero => rfl
    | succ fuel => exact if_pos rfl
  | cons c l ih =>
    cases fuel with
    | zero => rfl
    | succ fuel =>
      have hc : c.addr = a := ht.1
      have hne : headAddr l 0 ≠ t := by
        cases l with
        | nil => exact fun h => h0 h.symm
        | cons d l =>
          have hd : d.addr = c.stop := ht.2.1
          simp only [headAddr, Blk.stop] at hd ⊢
          omega
      rw [findPrev_cons (by omega) h, if_neg (fun h => hne h.1)]
      exact ih ht.2 h.2 (by simp only [Blk.stop]; omega)

/-- The backward walk of `kfree` stops at the block before `b` exactly when it is free. -/
theorem findPrev_eq {p b : Blk} (ht : Tiles a z (l₁ ++ p :: b :: l₂)) (ha : 0 < a)
    (h : Linked m (l₁ ++ p :: b :: l₂) 0) {fuel : ℕ} (hf : l₁.length < fuel) :
    findPrev m b.addr fuel (headAddr (l₁ ++ p :: b :: l₂) 0) = if p.used then 0 else p.addr := by
  induction l₁ generalizing a fuel with
  | nil =>
    obtain ⟨fuel, rfl⟩ : ∃ k, fuel = k + 1 := ⟨fuel - 1, by simp at hf; omega⟩
    have hb := ht.2.1
    have hp : p.addr = a := ht.1
    simp only [Blk.stop] at hb
    rw [List.nil_append, findPrev_cons (by omega) h]
    cases p.used with
    | false => exact if_pos ⟨rfl, rfl⟩
    | true =>
      rw [if_neg (fun h => by cases h.2)]
      exact findPrev_behind ht.2 h.2 (by omega) (by simp only [Blk.stop]; omega)
  | cons c l₁ ih =>
    rw [List.length_cons] at hf
    obtain ⟨fuel, rfl⟩ : ∃ k, fuel = k + 1 := ⟨fuel - 1, by omega⟩
    have hc : c.addr = a := ht.1
    have hne : headAddr (l₁ ++ p :: b :: l₂) 0 ≠ b.addr := by
      -- the block behind `c` lies before `p` or is `p`, and `b` lies behind `p`
      have hpair := ht.pairwise
      cases l₁ with
      | nil =>
        have hb := ht.2.2.1
        simp only [List.nil_append, headAddr, Blk.stop] at hb ⊢
        omega
      | cons d l₁ =>
        have hd := (List.pairwise_cons.mp (List.pairwise_cons.mp hpair).2).1 b (by simp)
        simp only [List.cons_append, headAddr, Blk.stop] at hd ⊢
        omega
    rw [List.cons_append] at h ⊢
    rw [findPrev_cons (by omega) h, if_neg (fun h => hne h.1)]
    exact ih ht.2 (by simp only [Blk.stop]; omega) h.2 (by omega)

theorem getLE_setLE_eq (m : Mem) {a w v : ℕ} (hv : v < 256 ^ w) : (m.setLE a w v).getLE a w = v := by
  rw [getLE_setLE_same, Nat.mod_eq_of_lt hv]

theorem header_write (m : Mem) (b : Blk) {nx : ℕ} (hs : b.size < 2 ^ 32) (hn : nx < 2 ^ 64) :
    Header (setNext (setUsed (setSize m b.addr b.size) b.addr b.used.toNat) b.addr nx) b nx := by
  have hu : b.used.toNat < 256 ^ 1 := by cases b.used <;> decide
  refine ⟨?_, ?_, getLE_setLE_eq _ hn⟩
  · rw [size, getLE_setLE_ne _ (by omega), getLE_setLE_ne _ (by omega), getLE_setLE_eq _ hs]
  · rw [used, getLE_setLE_ne _ (by omega), getLE_setLE_eq _ hu]

theorem setHeader_ne (m : Mem) {b i s u nx : ℕ} (hi : i < b ∨ b + 16 ≤ i) :
    setNext (setUsed (setSize m b s) b u) b nx i = m i := by
  rw [setNext, setLE_ne _ (by omega), setUsed, setLE_ne _ (by omega), setSize, setLE_ne _ (by omega)]

section Take

variable {b : Blk} {nx n : ℕ} (hb : Header m b nx) (hlt : b.size + 4096 ≤ 2 ^ 32)

include hb hlt

/-- A block taken with a rest: both headers, and nothing changes outside the block. -/
theorem takeBlock_split (hs : b.stop < 2 ^ 64) (hnx : nx < 2 ^ 64) (hfit : n + 24 ≤ b.size) :
    Header (takeBlock m b.addr n) ⟨b.addr, n, true⟩ (b.addr + 16 + n) ∧
    Header (takeBlock m b.addr n) ⟨b.addr + 16 + n, b.size - n - 16, false⟩ nx ∧
    ∀ i, i < b.addr ∨ b.stop ≤ i → takeBlock m b.addr n i = m i := by
  simp only [Blk.stop] at hs ⊢
  have hsize : size m b.addr = b.size := hb.size
  have hrest : u64 (b.addr + HEADER_SIZE + n) = b.addr + 16 + n := Nat.mod_eq_of_lt (by
    simp only [HEADER_SIZE]
    omega)
  have hleft : u32 (b.size - n + (2 ^ 32 - HEADER_SIZE)) = b.size - n - 16 := by
    simp only [u32, HEADER_SIZE]
    omega
  have hcond : u32 (n + HEADER_SIZE + 8) ≤ b.size := by
    simp only [u32, HEADER_SIZE]
    omega
  rw [takeBlock, hsize, if_pos hcond, hrest, hleft, show next m b.addr = nx from hb.next]
  obtain ⟨m₁, hm₁⟩ : ∃ m₁, setNext (setUsed (setSize m (b.addr + 16 + n) (b.size - n - 16))
      (b.addr + 16 + n) 0) (b.addr + 16 + n) nx = m₁ := ⟨_, rfl⟩
  have hrestHdr : Header m₁ ⟨b.addr + 16 + n, b.size - n - 16, false⟩ nx :=
    hm₁ ▸ header_write m ⟨b.addr + 16 + n, b.size - n - 16, false⟩ (by simp only; omega) hnx
  have hout : ∀ m : Mem, ∀ i, i < b.addr ∨ b.addr + 16 ≤ i →
      setUsed (setNext (setSize m b.addr n) b.addr (b.addr + 16 + n)) b.addr 1 i = m i := by
    intro m i hi
    rw [setUsed, setLE_ne _ (by omega), setNext, setLE_ne _ (by omega), setSize, setLE_ne _ (by omega)]
  simp only [hm₁]
  refine ⟨⟨?_, ?_, ?_⟩, ?_, ?_⟩
  · rw [size, getLE_setLE_ne _ (by simp only; omega), getLE_setLE_ne _ (by simp only; omega),
      getLE_setLE_eq _ (by omega)]
  · rw [used, getLE_setLE_eq _ (by decide)]
    rfl
  · rw [next, getLE_setLE_ne _ (by simp only; omega), getLE_setLE_eq _ (by omega)]
  · exact hrestHdr.congr fun i h1 _ => hout m₁ i (by simp only at h1; omega)
  · intro i hi
    rw [hout m₁ i (by omega), ← hm₁, setHeader_ne m (by omega)]

theorem takeBlock_whole (hn : n ≤ b.size) (hfit : b.size < n + 24) :
    Header (takeBlock m b.addr n) ⟨b.addr, b.size, true⟩ nx ∧
    ∀ i, i < b.addr ∨ b.addr + 16 ≤ i → takeBlock m b.addr n i = m i := by
  have hcond : ¬ u32 (n + HEADER_SIZE + 8) ≤ size m b.addr := by
    rw [hb.size]
    simp only [u32, HEADER_SIZE]
    omega
  rw [takeBlock, if_neg hcond]
  refine ⟨⟨?_, ?_, ?_⟩, ?_⟩
  · rw [size, getLE_setLE_ne _ (by simp only; omega)]
    exact hb.size
  · rw [used, getLE_setLE_eq _ (by decide)]
    rfl
  · rw [next, getLE_setLE_ne _ (by simp only; omega)]
    exact hb.next
  · intro i hi
    rw [setUsed, setLE_ne _ (by omega)]

end Take

theorem absorb_spec {b c : Blk} {ny nz : ℕ} (hb : Header m b ny) (hc : Header m c nz)
    (hsum : b.size + 16 + c.size < 2 ^ 32) (hnz : nz < 2 ^ 64) :
    Header (absorb m b.addr c.addr) ⟨b.addr, b.size + 16 + c.size, b.used⟩ nz ∧
    ∀ i, i < b.addr ∨ b.addr + 16 ≤ i → absorb m b.addr c.addr i = m i := by
  have hsize : u32 (size m b.addr + (HEADER_SIZE + size m c.addr)) = b.size + 16 + c.size := by
    rw [hb.size, hc.size]
    simp only [u32, HEADER_SIZE]
    omega
  rw [absorb, hsize, show next m c.addr = nz from hc.next]
  refine ⟨⟨?_, ?_, getLE_setLE_eq _ hnz⟩, ?_⟩
  · rw [size, getLE_setLE_ne _ (by simp only; omega), getLE_setLE_eq _ hsum]
  · rw [used, getLE_setLE_ne _ (by simp only; omega), getLE_setLE_ne _ (by simp only; omega)]
    exact hb.used
  · intro i hi
    rw [setNext, setLE_ne _ (by omega), setSize, setLE_ne _ (by omega)]

theorem Linked.replace {mid mid' : List Blk} {x y : ℕ} (h : Linked m (l₁ ++ mid ++ l₂) e)
    (h₁ : Tiles a x l₁) (h₂ : Tiles y z l₂) (hmid : headAddr (mid ++ l₂) e = x)
    (hmid' : headAddr (mid' ++ l₂) e = x) (hnew : Linked m' mid' (headAddr l₂ e))
    (hout : ∀ i, i < x ∨ y ≤ i → m' i = m i) : Linked m' (l₁ ++ mid' ++ l₂) e := by
  rw [List.append_assoc, linked_append] at h ⊢
  obtain ⟨hl₁, hrest⟩ := h
  rw [linked_append] at hrest ⊢
  rw [hmid] at hl₁
  rw [hmid']
  exact ⟨hl₁.congr_tiles h₁ fun i _ hi => hout i (Or.inl hi), hnew,
    hrest.2.congr_tiles h₂ fun i hi _ => hout i (Or.inr hi)⟩

end ComputerOS.Kheap
