import ComputerOS.Kheap.Model

/-!
The representation invariant of the kernel heap over whole runs. A run allocates, frees
what it allocated, grows the heap and writes into live payloads, in any order, while
`map_region` succeeds or fails as it likes. The live allocations are kept beside the
heap: each with its pointer, its size and the bytes its owner put there.
-/
namespace ComputerOS.Kheap

open Mem

/-- An allocation that is not freed yet. -/
structure Live where
  ptr : ℕ
  size : ℕ
  bytes : ℕ → UInt8

/-- Pointer and size of the user area of a block. -/
def Blk.payload (b : Blk) : ℕ × ℕ := (b.addr + 16, b.size)

def Live.payload (a : Live) : ℕ × ℕ := (a.ptr, a.size)

/-- The blocks tile the heap, their headers link them, and their sizes are multiples of 8. -/
structure Shape (h : Heap) (blocks : List Blk) : Prop where
  head : h.head = h.start
  pos : 0 < h.start
  lt : h.start < h.stop
  le : h.stop ≤ h.limit
  limit : h.limit < 2 ^ 64
  small : h.limit + 4096 ≤ h.start + 2 ^ 32
  tiles : Tiles h.start h.stop blocks
  linked : Linked h.mem blocks 0
  aligned : ∀ b ∈ blocks, b.size % 8 = 0

/-- No two consecutive blocks are both free. -/
def Apart (blocks : List Blk) : Prop := blocks.IsChain fun b c => b.used = true ∨ c.used = true

structure Inv (h : Heap) (blocks : List Blk) (live : List Live) : Prop extends Shape h blocks where
  apart : Apart blocks
  allocated : ((blocks.filter Blk.used).map Blk.payload).Perm (live.map Live.payload)
  bytes : ∀ a ∈ live, ∀ i < a.size, h.mem (a.ptr + i) = a.bytes i

variable {h : Heap} {blocks l₁ l₂ : List Blk} {live : List Live}

theorem Inv.block_of_live (hI : Inv h blocks live) {a : Live} (ha : a ∈ live) :
    ∃ b ∈ blocks, b.used = true ∧ b.addr + 16 = a.ptr ∧ b.size = a.size := by
  have hmem : a.payload ∈ (blocks.filter Blk.used).map Blk.payload :=
    hI.allocated.mem_iff.mpr (List.mem_map_of_mem ha)
  obtain ⟨b, hb, heq⟩ := List.mem_map.mp hmem
  obtain ⟨hb, hu⟩ := List.mem_filter.mp hb
  exact ⟨b, hb, hu, congrArg Prod.fst heq, congrArg Prod.snd heq⟩

/-- Memory that is the same on the user areas of the used blocks keeps every allocation. -/
theorem Inv.bytes_congr (hI : Inv h blocks live) {m' : Mem}
    (heq : ∀ b ∈ blocks, b.used = true → ∀ i, b.addr + 16 ≤ i → i < b.stop → m' i = h.mem i) :
    ∀ a ∈ live, ∀ i < a.size, m' (a.ptr + i) = a.bytes i := by
  intro a ha i hi
  obtain ⟨b, hb, hu, hptr, hsize⟩ := hI.block_of_live ha
  rw [← hI.bytes a ha i hi]
  exact heq b hb hu _ (by omega) (by simp only [Blk.stop]; omega)

theorem Shape.length_le (hS : Shape h blocks) : blocks.length ≤ h.bound := by
  have := hS.tiles.le
  rw [Heap.bound, HEADER_SIZE, Nat.le_div_iff_mul_le (by omega)]
  omega

theorem Shape.headAddr_eq (hS : Shape h blocks) (e : ℕ) : headAddr blocks e = h.head := by
  rw [hS.head]
  have ht := hS.tiles
  have hlt := hS.lt
  cases blocks with
  | nil =>
    have heq : h.start = h.stop := ht
    omega
  | cons b l => exact ht.1

theorem headAddr_lt {a z : ℕ} {l : List Blk} (ht : Tiles a z l) (hz : z < 2 ^ 64) :
    headAddr l 0 < 2 ^ 64 := by
  cases l with
  | nil => exact (by decide : 0 < 2 ^ 64)
  | cons b l =>
    have := (ht.bounds List.mem_cons_self).2
    simp only [headAddr, Blk.stop] at *
    omega

structure Middle (h : Heap) (l₁ : List Blk) (b : Blk) (l₂ : List Blk) : Prop where
  before : Tiles h.start b.addr l₁
  behind : Tiles b.stop h.stop l₂
  header : Header h.mem b (headAddr l₂ 0)
  ge : h.start ≤ b.addr
  le : b.stop ≤ h.stop
  stop : b.stop < 2 ^ 64
  small : b.size + 4112 ≤ 2 ^ 32
  next_lt : headAddr l₂ 0 < 2 ^ 64

theorem Shape.middle {b : Blk} (hS : Shape h (l₁ ++ b :: l₂)) : Middle h l₁ b l₂ := by
  obtain ⟨h1, h2, hge, hle⟩ := hS.tiles.sides
  have hlim := hS.limit
  have hlims := hS.le
  have hsmall := hS.small
  refine ⟨h1, h2, (linked_append.mp hS.linked).2.1, hge, hle, by omega, ?_, headAddr_lt h2 (by omega)⟩
  simp only [Blk.stop] at hle
  omega

theorem Shape.replace {b b' : Blk} {mid : List Blk} {m' : Mem} (hS : Shape h (l₁ ++ b :: l₂))
    (ht : Tiles b.addr b.stop (b' :: mid)) (hlink : Linked m' (b' :: mid) (headAddr l₂ 0))
    (hout : ∀ i, i < b.addr ∨ b.stop ≤ i → m' i = h.mem i)
    (hal : ∀ c ∈ b' :: mid, c.size % 8 = 0) :
    Shape { h with mem := m' } (l₁ ++ (b' :: mid) ++ l₂) := by
  have hm := hS.middle
  refine ⟨hS.head, hS.pos, hS.lt, hS.le, hS.limit, hS.small, ?_, ?_, ?_⟩
  · rw [List.append_assoc]
    exact hm.before.append (ht.append hm.behind)
  · have hl : Linked h.mem (l₁ ++ [b] ++ l₂) 0 := by simpa using hS.linked
    exact hl.replace hm.before hm.behind rfl ht.1 hlink hout
  · intro c hc
    simp only [List.mem_append] at hc
    rcases hc with (hc | hc) | hc
    · exact hS.aligned c (List.mem_append_left _ hc)
    · exact hal c hc
    · exact hS.aligned c (List.mem_append_right _ (List.mem_cons_of_mem _ hc))

theorem apart_sides {b : Blk} (h : Apart (l₁ ++ b :: l₂)) : Apart l₁ ∧ Apart l₂ := by
  obtain ⟨h1, h2, -⟩ := List.isChain_append.mp h
  exact ⟨h1, (List.isChain_cons.mp h2).2⟩

theorem apart_free {b : Blk} (h : Apart (l₁ ++ b :: l₂)) (hb : b.used = false) :
    (∀ c ∈ l₁.getLast?, c.used = true) ∧ ∀ c ∈ l₂.head?, c.used = true := by
  obtain ⟨-, h2, hlink⟩ := List.isChain_append.mp h
  constructor
  · intro c hc
    have := hlink c hc b (by simp)
    simpa [hb] using this
  · intro c hc
    have := (List.isChain_cons.mp h2).1 c hc
    simpa [hb] using this

/-- Any block may stand between neighbours in use. -/
theorem apart_insert {b : Blk} (h1 : Apart l₁) (h2 : Apart l₂) (hl : ∀ c ∈ l₁.getLast?, c.used = true)
    (hr : ∀ c ∈ l₂.head?, c.used = true) : Apart (l₁ ++ b :: l₂) := by
  refine List.isChain_append.mpr ⟨h1, List.isChain_cons.mpr ⟨fun c hc => Or.inr (hr c hc), h2⟩, ?_⟩
  intro c hc _ _
  exact Or.inl (hl c hc)

/-- The allocation that a pointer returned by `kmalloc` stands for. -/
def allocation (p : ℕ) (h : Heap) : Live where
  ptr := p
  size := size h.mem (p - HEADER_SIZE)
  bytes i := h.mem (p + i)

/-- A free block that is large enough is taken, whole or with a rest. -/
theorem Inv.take {b : Blk} {n : ℕ} (hI : Inv h (l₁ ++ b :: l₂) live) (hb : b.used = false)
    (hn : n % 8 = 0) (hfit : n ≤ b.size) :
    ∃ b' rest, b'.addr = b.addr ∧ n ≤ b'.size ∧
      size (takeBlock h.mem b.addr n) b.addr = b'.size ∧ b'.used = true ∧
      Shape { h with mem := takeBlock h.mem b.addr n } (l₁ ++ (b' :: rest) ++ l₂) ∧
      (∀ c ∈ rest, c.used = false) ∧ Apart (l₁ ++ (b' :: rest) ++ l₂) ∧
      ∀ i, i < b.addr ∨ b.stop ≤ i → takeBlock h.mem b.addr n i = h.mem i := by
  have hm := hI.middle
  have hsmall := hm.small
  have hal := hI.aligned b (by simp)
  obtain ⟨hA1, hA2⟩ := apart_sides hI.apart
  obtain ⟨hleft, hright⟩ := apart_free hI.apart hb
  by_cases hsplit : n + 24 ≤ b.size
  · obtain ⟨hhdr, hrest, hout⟩ := takeBlock_split hm.header (by omega) hm.stop hm.next_lt hsplit
    refine ⟨⟨b.addr, n, true⟩, [⟨b.addr + 16 + n, b.size - n - 16, false⟩], rfl, le_refl _,
      hhdr.size, rfl, ?_, by simp, ?_, hout⟩
    · refine hI.replace ⟨rfl, rfl, ?_⟩ ⟨hhdr, hrest, trivial⟩ hout ?_
      · change b.addr + 16 + n + 16 + (b.size - n - 16) = b.addr + 16 + b.size
        omega
      · intro c hc
        simp only [List.mem_cons, List.not_mem_nil, or_false] at hc
        rcases hc with rfl | rfl
        · exact hn
        · simp only
          omega
    · have hlist : ∀ x y : Blk, l₁ ++ [x, y] ++ l₂ = (l₁ ++ [x]) ++ y :: l₂ := by simp
      rw [hlist]
      refine apart_insert ?_ hA2 ?_ hright
      · exact apart_insert hA1 List.IsChain.nil hleft (by simp)
      · simp
  · obtain ⟨hhdr, hout⟩ := takeBlock_whole hm.header (by omega) hfit (by omega)
    have hout' : ∀ i, i < b.addr ∨ b.stop ≤ i → takeBlock h.mem b.addr n i = h.mem i :=
      fun i hi => hout i (by simp only [Blk.stop] at hi; omega)
    refine ⟨⟨b.addr, b.size, true⟩, [], rfl, hfit, hhdr.size, rfl, ?_, by simp, ?_, hout'⟩
    · refine hI.replace ⟨rfl, rfl⟩ ⟨hhdr, trivial⟩ hout' ?_
      simpa using hal
    · rw [List.append_assoc]
      exact apart_insert hA1 hA2 hleft hright

/-- `find_fit` changes nothing, or turns a free block into an allocation. -/
theorem findFit_spec (hI : Inv h blocks live) {n : ℕ} (hn : n % 8 = 0) :
    (findFit n h = (0, h) ∧ ∀ b ∈ blocks, b.used = true ∨ b.size < n) ∨
    ∃ p h' blocks', findFit n h = (p, h') ∧ p ≠ 0 ∧ n ≤ (allocation p h').size ∧
      Inv h' blocks' (allocation p h' :: live) := by
  have hwalk := findBlock_eq (n := n) hI.tiles hI.pos hI.linked hI.length_le
  rw [hI.headAddr_eq] at hwalk
  rcases hwalk with ⟨h0, hall⟩ | ⟨l₁, b, l₂, rfl, hb, hfit, hfound⟩
  · left
    rw [findFit, h0]
    exact ⟨rfl, hall⟩
  · right
    have hm := hI.middle
    have hpos := hI.pos
    have hge := hm.ge
    have hstop := hm.stop
    simp only [Blk.stop] at hstop
    obtain ⟨b', rest, haddr, hle, hsize, hused, hS, hfree, hA, hout⟩ := hI.take hb hn hfit
    have hp : u64 (b.addr + HEADER_SIZE) = b.addr + 16 := Nat.mod_eq_of_lt (by
      simp only [HEADER_SIZE]
      omega)
    have hsize' : (allocation (b.addr + 16) { h with mem := takeBlock h.mem b.addr n }).size = b'.size := by
      simp only [allocation, HEADER_SIZE, Nat.add_sub_cancel]
      exact hsize
    refine ⟨b.addr + 16, { h with mem := takeBlock h.mem b.addr n }, l₁ ++ (b' :: rest) ++ l₂, ?_,
      by omega, by rw [hsize']; exact hle, hS, hA, ?_, ?_⟩
    · rw [findFit, hfound, if_neg (by omega), hp]
    · -- the used blocks are those before and the one just taken
      have hrest : rest.filter Blk.used = [] := by
        rw [List.filter_eq_nil_iff]
        intro c hc
        simp [hfree c hc]
      have hold := hI.allocated
      simp only [List.filter_append, List.filter_cons, hb, hused, hrest, if_true, List.map_append,
        List.map_cons, List.map_nil, Bool.false_eq_true, if_false] at hold ⊢
      have hpay : b'.payload = (allocation (b.addr + 16) { h with mem := takeBlock h.mem b.addr n }).payload := by
        rw [Blk.payload, Live.payload, hsize', haddr]
        rfl
      rw [hpay, List.append_assoc, List.singleton_append]
      exact List.perm_middle.trans (hold.cons _)
    · intro a ha i hi
      rcases List.mem_cons.mp ha with rfl | ha
      · rfl
      · refine hI.bytes_congr ?_ a ha i hi
        intro c hc hu j hj1 hj2
        apply hout
        -- a used block lies on one side of the free block
        rcases List.mem_append.mp hc with hc | hc
        · have := (hm.before.bounds hc).2
          omega
        · rcases List.mem_cons.mp hc with rfl | hc
          · rw [hb] at hu
            cases hu
          · have := (hm.behind.bounds hc).1
            omega

theorem growPages_le (hS : Shape h blocks) (minBytes : ℕ) :
    h.stop + growPages h minBytes * 4096 ≤ h.limit := by
  have hle := hS.le
  have hroom : growPages h minBytes ≤ (h.limit - h.stop) / 4096 := by
    have hmod : u32 ((h.limit - h.stop) / PAGE) ≤ (h.limit - h.stop) / 4096 := Nat.mod_le _ _
    simp only [growPages]
    split_ifs <;> omega
  omega

/-- Other bytes behind the heap make no difference. -/
theorem Inv.splice (hI : Inv h blocks live) (fresh : Mem) (z : ℕ) :
    Inv { h with mem := splice h.mem fresh h.stop z } blocks live := by
  have hsame : ∀ i, i < h.stop → Kheap.splice h.mem fresh h.stop z i = h.mem i :=
    fun i hi => if_neg (by omega)
  refine ⟨⟨hI.head, hI.pos, hI.lt, hI.le, hI.limit, hI.small, hI.tiles, ?_, hI.aligned⟩, hI.apart,
    hI.allocated, ?_⟩
  · exact hI.linked.congr_tiles hI.tiles fun i _ hi => hsame i hi
  · refine hI.bytes_congr fun b hb _ i _ hi => hsame i ?_
    have := (hI.tiles.bounds hb).2
    omega

section Stitch

variable {l : List Blk} {t : Blk} {added : ℕ} (hI : Inv h (l ++ [t]) live) (h16 : 16 ≤ added)
  (h8 : added % 8 = 0) (hlim : h.stop + added ≤ h.limit)

include hI

theorem stitch_tail : lastBlock h.mem h.bound h.head = t.addr := by
  have hlen := hI.length_le
  rw [List.length_append, List.length_singleton] at hlen
  rw [← hI.headAddr_eq 0]
  exact lastBlock_eq hI.tiles hI.pos hI.linked (by omega)

include h8 hlim

theorem stitch_free (hfree : t.used = false) :
    Inv (stitch h added) (l ++ [⟨t.addr, t.size + added, false⟩]) live := by
  have hlim64 := hI.limit
  have hsmall := hI.small
  have hlt := hI.lt
  have hpos := hI.pos
  have hm := hI.middle
  have hge := hm.ge
  have htsmall := hm.small
  have hend : t.addr + 16 + t.size = h.stop := hm.behind
  have hal : t.size % 8 = 0 := hI.aligned t (by simp)
  obtain ⟨hA1, -⟩ := apart_sides hI.apart
  obtain ⟨hleft, -⟩ := apart_free hI.apart hfree
  have hused : used h.mem t.addr = t.used.toNat := hm.header.used
  have hstop : u64 (h.stop + added) = h.stop + added := Nat.mod_eq_of_lt (by omega)
  have hsize : u32 (size h.mem t.addr + added) = t.size + added := by
    rw [hm.header.size]
    exact Nat.mod_eq_of_lt (by omega)
  have hst : stitch h added = { h with
      mem := setSize h.mem t.addr (t.size + added), stop := h.stop + added } := by
    simp only [stitch, stitch_tail hI, hused, hfree, hstop, hsize]
    rw [if_pos ⟨by omega, rfl⟩]
  have hout : ∀ i, i < t.addr ∨ t.addr + 16 ≤ i → setSize h.mem t.addr (t.size + added) i = h.mem i :=
    fun i hi => setLE_ne _ (by omega)
  have hhdr : Header (setSize h.mem t.addr (t.size + added)) ⟨t.addr, t.size + added, false⟩ 0 := by
    refine ⟨getLE_setLE_eq _ (by omega), ?_, ?_⟩
    · rw [used, getLE_setLE_ne _ (by simp only; omega)]
      exact hfree ▸ hm.header.used
    · rw [next, getLE_setLE_ne _ (by simp only; omega)]
      exact hm.header.next
  have hl : Linked h.mem (l ++ [t] ++ []) 0 := by simpa using hI.linked
  have hnew : Linked (setSize h.mem t.addr (t.size + added))
      (l ++ [⟨t.addr, t.size + added, false⟩] ++ []) 0 :=
    hl.replace (y := h.stop) hm.before rfl rfl rfl ⟨hhdr, trivial⟩ fun i hi => hout i (by omega)
  rw [hst]
  refine ⟨⟨hI.head, hpos, by simp only; omega, hlim, hlim64, hsmall, hm.before.append ⟨rfl, ?_⟩,
    by simpa using hnew, ?_⟩, apart_insert hA1 List.IsChain.nil hleft (by simp), ?_, ?_⟩
  · change t.addr + 16 + (t.size + added) = h.stop + added
    omega
  · intro b hb
    rcases List.mem_append.mp hb with hb | hb
    · exact hI.aligned b (List.mem_append_left _ hb)
    · obtain rfl := List.mem_singleton.mp hb
      simp only
      omega
  · have hold := hI.allocated
    simpa [List.filter_append, hfree] using hold
  · refine hI.bytes_congr fun b hb hu i hi1 hi2 => hout i ?_
    rcases List.mem_append.mp hb with hb | hb
    · have := (hm.before.bounds hb).2
      omega
    · obtain rfl := List.mem_singleton.mp hb
      rw [hfree] at hu
      cases hu

include h16

/-- Behind a used last block the new region becomes a block of its own. -/
theorem stitch_used (hu : t.used = true) :
    Inv (stitch h added) (l ++ [t, ⟨h.stop, added - 16, false⟩]) live := by
  have hlim64 := hI.limit
  have hsmall := hI.small
  have hlt := hI.lt
  have hpos := hI.pos
  have hm := hI.middle
  have hge := hm.ge
  have hend : t.addr + 16 + t.size = h.stop := hm.behind
  have hused : used h.mem t.addr = t.used.toNat := hm.header.used
  have hstop : u64 (h.stop + added) = h.stop + added := Nat.mod_eq_of_lt (by omega)
  have hsize : u32 (added + (2 ^ 32 - HEADER_SIZE)) = added - 16 := by
    simp only [u32, HEADER_SIZE]
    omega
  obtain ⟨m₁, hm₁⟩ : ∃ m₁, setNext (setUsed (setSize h.mem h.stop (added - 16)) h.stop 0) h.stop 0 = m₁ :=
    ⟨_, rfl⟩
  have hnb : Header m₁ ⟨h.stop, added - 16, false⟩ 0 :=
    hm₁ ▸ header_write h.mem ⟨h.stop, added - 16, false⟩ (by simp only; omega) (by omega)
  have hout₁ : ∀ i, i < h.stop ∨ h.stop + 16 ≤ i → m₁ i = h.mem i :=
    fun i hi => hm₁ ▸ setHeader_ne h.mem hi
  have hst : stitch h added = { h with mem := setNext m₁ t.addr h.stop, stop := h.stop + added } := by
    simp only [stitch, stitch_tail hI, hused, hu, hstop, hsize, hm₁]
    rw [if_neg (fun h => by cases h.2), if_pos (by omega)]
  have hout : ∀ i, i < t.addr + 8 ∨ t.addr + 16 ≤ i → i < h.stop ∨ h.stop + 16 ≤ i →
      setNext m₁ t.addr h.stop i = h.mem i := by
    intro i hi1 hi2
    rw [setNext, setLE_ne _ (by omega), hout₁ i hi2]
  have htail : Header m₁ t 0 := hm.header.congr fun i _ hi => hout₁ i (by omega)
  have hhdr : Header (setNext m₁ t.addr h.stop) t h.stop := by
    refine ⟨?_, ?_, getLE_setLE_eq _ (by omega)⟩
    · rw [size, getLE_setLE_ne _ (by omega)]
      exact htail.size
    · rw [used, getLE_setLE_ne _ (by omega)]
      exact htail.used
  have hnb' : Header (setNext m₁ t.addr h.stop) ⟨h.stop, added - 16, false⟩ 0 :=
    hnb.congr fun i hi _ => setLE_ne _ (by simp only at hi; omega)
  have hl : Linked h.mem (l ++ [t] ++ []) 0 := by simpa using hI.linked
  have hnew : Linked (setNext m₁ t.addr h.stop) (l ++ [t, ⟨h.stop, added - 16, false⟩] ++ []) 0 :=
    hl.replace (y := h.stop + added) hm.before rfl rfl rfl ⟨hhdr, hnb', trivial⟩
      fun i hi => hout i (by omega) (by omega)
  have hlist : ∀ x : Blk, l ++ [t, x] = (l ++ [t]) ++ [x] := by simp
  rw [hst]
  refine ⟨⟨hI.head, hpos, by simp only; omega, hlim, hlim64, hsmall,
    hm.before.append ⟨rfl, hend.symm, ?_⟩, by simpa using hnew, ?_⟩, ?_, ?_, ?_⟩
  · change h.stop + 16 + (added - 16) = h.stop + added
    omega
  · intro b hb
    rw [hlist] at hb
    rcases List.mem_append.mp hb with hb | hb
    · exact hI.aligned b hb
    · obtain rfl := List.mem_singleton.mp hb
      simp only
      omega
  · rw [hlist]
    exact apart_insert hI.apart List.IsChain.nil (by simpa using hu) (by simp)
  · have hold := hI.allocated
    rw [hlist, List.filter_append]
    simpa using hold
  · refine hI.bytes_congr fun b hb _ i hi1 hi2 => ?_
    have hb' := (hI.tiles.bounds hb).2
    refine hout i ?_ (by omega)
    rcases List.mem_append.mp hb with hb | hb
    · have := (hm.before.bounds hb).2
      omega
    · obtain rfl := List.mem_singleton.mp hb
      omega

end Stitch

/-- `kheap_grow` adds nothing: the limit is less than a page away, or `map_region` fails. -/
def Capped (map : MapRegion) (minBytes : ℕ) (h : Heap) : Prop :=
  h.limit < h.stop + PAGE ∨ map h.stop (growPages h minBytes) = none

theorem growPages_eq_zero (hS : Shape h blocks) (minBytes : ℕ) :
    growPages h minBytes = 0 ↔ h.limit < h.stop + PAGE := by
  have hsmall := hS.small
  have hle := hS.le
  have hlt := hS.lt
  have hroom : u32 ((h.limit - h.stop) / PAGE) = (h.limit - h.stop) / 4096 :=
    Nat.mod_eq_of_lt (by simp only [PAGE]; omega)
  have hleast : ∀ needed, 0 < (if needed < MIN_GROW_PAGES then MIN_GROW_PAGES else needed) := by
    intro needed
    have hmin : 0 < MIN_GROW_PAGES := by decide
    split
    · exact hmin
    · exact hmin.trans_le (Nat.not_lt.mp (by assumption))
  have hzero : ∀ room needed : ℕ, 0 < needed → ((if room < needed then room else needed) = 0 ↔ room = 0) := by
    intro room needed hpos
    split_ifs <;> omega
  simp only [growPages]
  rw [hzero _ _ (hleast _), hroom, PAGE]
  omega

/-- `kheap_grow` changes nothing, or leaves a free block at the end. -/
theorem kheapGrow_spec (hI : Inv h blocks live) (map : MapRegion) (minBytes : ℕ) :
    (Capped map minBytes h ∧ kheapGrow map minBytes h = (0, h)) ∨
    (¬ Capped map minBytes h ∧ ∃ added h' blocks', kheapGrow map minBytes h = (added, h') ∧
      added ≠ 0 ∧ Inv h' blocks' live ∧ ∃ b ∈ blocks', b.used = false) := by
  have hhead : h.head ≠ 0 := by
    have := hI.pos
    rw [hI.head]
    omega
  have hpages := growPages_eq_zero hI.toShape minBytes
  rw [kheapGrow, if_neg hhead]
  by_cases hnear : h.limit < h.stop + PAGE
  · left
    refine ⟨Or.inl hnear, ?_⟩
    dsimp only
    rw [if_pos (hpages.mpr hnear), ite_self]
  have hstop : ¬ h.limit ≤ h.stop := by
    simp only [PAGE] at hnear
    omega
  have hsome : growPages h minBytes ≠ 0 := fun h0 => hnear (hpages.mp h0)
  rw [if_neg hstop]
  dsimp only
  rw [if_neg hsome]
  cases hmap : map h.stop (growPages h minBytes) with
  | none => exact Or.inl ⟨Or.inr hmap, rfl⟩
  | some fresh =>
    right
    refine ⟨fun hcap => hcap.elim hnear (hmap ▸ Option.some_ne_none fresh), ?_⟩
    have hroom := growPages_le hI.toShape minBytes
    have hsmall := hI.small
    have hlt := hI.lt
    have hadded : u32 (growPages h minBytes * PAGE) = growPages h minBytes * 4096 :=
      Nat.mod_eq_of_lt (by simp only [PAGE]; omega)
    have hJ := hI.splice fresh (h.stop + growPages h minBytes * PAGE)
    have hne : blocks ≠ [] := by
      rintro rfl
      have heq : h.start = h.stop := hI.tiles
      omega
    obtain ⟨l, t, rfl⟩ : ∃ l t, blocks = l ++ [t] :=
      ⟨blocks.dropLast, blocks.getLast hne, (List.dropLast_append_getLast hne).symm⟩
    have hne0 : growPages h minBytes * 4096 ≠ 0 := by omega
    dsimp only
    rw [hadded]
    cases htu : t.used with
    | false => exact ⟨_, _, _, rfl, hne0, stitch_free hJ (by omega) hroom htu, _,
        List.mem_append_right _ List.mem_cons_self, rfl⟩
    | true =>
      exact ⟨_, _, _, rfl, hne0, stitch_used hJ (by omega) (by omega) hroom htu,
        ⟨h.stop, growPages h minBytes * 4096 - 16, false⟩, by simp, rfl⟩

theorem kheapGrow_inv (hI : Inv h blocks live) (map : MapRegion) (minBytes : ℕ) :
    ∃ blocks', Inv (kheapGrow map minBytes h).2 blocks' live := by
  rcases kheapGrow_spec hI map minBytes with ⟨-, hrun⟩ | ⟨-, _, _, blocks', hrun, -, hI', -⟩
  · exact ⟨blocks, by rw [hrun]; exact hI⟩
  · exact ⟨blocks', by rw [hrun]; exact hI'⟩

theorem align8_mod (n : ℕ) : align8 n % 8 = 0 := by
  simp only [align8]
  omega

/-- `kmalloc` keeps the invariant; a pointer it returns is a new allocation. -/
theorem kmalloc_inv (hI : Inv h blocks live) (map : MapRegion) (n : ℕ) :
    (∃ h' blocks', kmalloc map n h = (0, h') ∧ Inv h' blocks' live) ∨
    ∃ p h' blocks', kmalloc map n h = (p, h') ∧ p ≠ 0 ∧ align8 n ≤ (allocation p h').size ∧
      Inv h' blocks' (allocation p h' :: live) := by
  rw [kmalloc]
  split_ifs with h0
  · exact Or.inl ⟨h, blocks, rfl, hI⟩
  · rcases findFit_spec hI (align8_mod n) with ⟨hnone, -⟩ | ⟨p, h', blocks', hfound, hp, hsize, hI'⟩
    · obtain ⟨blocks₁, hI₁⟩ := kheapGrow_inv hI map (u32 (align8 n + HEADER_SIZE))
      simp only [hnone]
      rcases hgrow : kheapGrow map (u32 (align8 n + HEADER_SIZE)) h with ⟨_ | added, h₁⟩
      · rw [hgrow] at hI₁
        exact Or.inl ⟨h₁, blocks₁, rfl, hI₁⟩
      · rw [hgrow] at hI₁
        rcases findFit_spec hI₁ (align8_mod n) with ⟨hnone₁, -⟩ | ⟨p, h', blocks', hfound, hp, hsize, hI'⟩
        · exact Or.inl ⟨h₁, blocks₁, hnone₁, hI₁⟩
        · exact Or.inr ⟨p, h', blocks', hfound, hp, hsize, hI'⟩
    · obtain ⟨k, rfl⟩ := Nat.exists_eq_succ_of_ne_zero hp
      simp only [hfound]
      exact Or.inr ⟨k + 1, h', blocks', rfl, hp, hsize, hI'⟩

theorem Shape.absorb {b c : Blk} (hS : Shape h (l₁ ++ b :: c :: l₂)) :
    Shape { h with mem := absorb h.mem b.addr c.addr }
      (l₁ ++ ⟨b.addr, b.size + 16 + c.size, b.used⟩ :: l₂) ∧
    ∀ i, i < b.addr ∨ b.addr + 16 ≤ i → Kheap.absorb h.mem b.addr c.addr i = h.mem i := by
  have hm := hS.middle
  have hlist : l₁ ++ b :: c :: l₂ = (l₁ ++ [b]) ++ c :: l₂ := by simp
  have hmc : Middle h (l₁ ++ [b]) c l₂ := (hlist ▸ hS).middle
  have hc : c.addr = b.stop := hm.behind.1
  have hle := hmc.le
  have hge := hm.ge
  have hlim := hS.le
  have hsmall := hS.small
  have hmcs := hmc.small
  simp only [Blk.stop] at hc hle
  obtain ⟨hhdr, hout⟩ := absorb_spec hm.header hmc.header (by omega) hmc.next_lt
  refine ⟨⟨hS.head, hS.pos, hS.lt, hlim, hS.limit, hsmall, ?_, ?_, ?_⟩, hout⟩
  · refine hm.before.append ⟨rfl, ?_⟩
    have heq : (⟨b.addr, b.size + 16 + c.size, b.used⟩ : Blk).stop = c.stop := by
      simp only [Blk.stop]
      omega
    rw [heq]
    exact hmc.behind
  · have hl : Linked h.mem (l₁ ++ [b, c] ++ l₂) 0 := by simpa using hS.linked
    have hnew : Linked (Kheap.absorb h.mem b.addr c.addr)
        (l₁ ++ [⟨b.addr, b.size + 16 + c.size, b.used⟩] ++ l₂) 0 :=
      hl.replace hm.before hmc.behind rfl rfl ⟨hhdr, trivial⟩
        fun i hi => hout i (by simp only [Blk.stop] at hi; omega)
    simpa using hnew
  · intro x hx
    have hb := hS.aligned b (by simp)
    have hc := hS.aligned c (by simp)
    rcases List.mem_append.mp hx with hx | hx
    · exact hS.aligned x (List.mem_append_left _ hx)
    · rcases List.mem_cons.mp hx with rfl | hx
      · simp only
        omega
      · exact hS.aligned x (by simp [hx])

theorem Shape.clear {b : Blk} (hS : Shape h (l₁ ++ b :: l₂)) :
    Shape { h with mem := setUsed h.mem b.addr 0 } (l₁ ++ ⟨b.addr, b.size, false⟩ :: l₂) ∧
    ∀ i, i < b.addr ∨ b.addr + 16 ≤ i → setUsed h.mem b.addr 0 i = h.mem i := by
  have hm := hS.middle
  have hout : ∀ i, i < b.addr ∨ b.addr + 16 ≤ i → setUsed h.mem b.addr 0 i = h.mem i :=
    fun i hi => setLE_ne _ (by omega)
  have hhdr : Header (setUsed h.mem b.addr 0) ⟨b.addr, b.size, false⟩ (headAddr l₂ 0) := by
    refine ⟨?_, getLE_setLE_eq _ (by decide), ?_⟩
    · rw [size, getLE_setLE_ne _ (by simp only; omega)]
      exact hm.header.size
    · rw [next, getLE_setLE_ne _ (by simp only; omega)]
      exact hm.header.next
  have hrep : Shape { h with mem := setUsed h.mem b.addr 0 } (l₁ ++ [⟨b.addr, b.size, false⟩] ++ l₂) :=
    hS.replace ⟨rfl, rfl⟩ ⟨hhdr, trivial⟩ (fun i hi => hout i (by simp only [Blk.stop] at hi; omega))
      (by simpa using hS.aligned b (by simp))
  exact ⟨by simpa using hrep, hout⟩

/-- After a forward join the block behind is in use. -/
theorem joinNext_spec {f : Blk} (hS : Shape h (l₁ ++ f :: l₂)) (hA : Apart l₂) :
    ∃ n l₂', Shape { h with mem := joinNext h.mem f.addr } (l₁ ++ ⟨f.addr, n, f.used⟩ :: l₂') ∧
      Apart l₂' ∧ (∀ c ∈ l₂'.head?, c.used = true) ∧ l₂'.filter Blk.used = l₂.filter Blk.used ∧
      ∀ i, i < f.addr ∨ f.addr + 16 ≤ i → joinNext h.mem f.addr i = h.mem i := by
  have hm := hS.middle
  have hnext : next h.mem f.addr = headAddr l₂ 0 := hm.header.next
  have hpos := hS.pos
  cases l₂ with
  | nil =>
    have hsame : joinNext h.mem f.addr = h.mem := by
      rw [joinNext, hnext]
      exact if_neg fun h => h.1 rfl
    rw [hsame]
    exact ⟨f.size, [], hS, List.IsChain.nil, by simp, rfl, fun i _ => rfl⟩
  | cons c l₂ =>
    have hlist : l₁ ++ f :: c :: l₂ = (l₁ ++ [f]) ++ c :: l₂ := by simp
    have hmc : Middle h (l₁ ++ [f]) c l₂ := (hlist ▸ hS).middle
    have hge := hmc.ge
    have hcu : used h.mem c.addr = c.used.toNat := hmc.header.used
    have hnext' : next h.mem f.addr = c.addr := hnext
    obtain ⟨hhead, hA2⟩ := List.isChain_cons.mp hA
    cases hu : c.used with
    | true =>
      have hsame : joinNext h.mem f.addr = h.mem := by
        rw [joinNext, hnext', hcu, hu]
        exact if_neg fun h => by cases h.2
      rw [hsame]
      exact ⟨f.size, c :: l₂, hS, hA, by simpa using hu, rfl, fun i _ => rfl⟩
    | false =>
      have hjoin : joinNext h.mem f.addr = absorb h.mem f.addr c.addr := by
        rw [joinNext, hnext', hcu, hu]
        exact if_pos ⟨by omega, rfl⟩
      obtain ⟨hS', hout⟩ := hS.absorb
      rw [hjoin]
      refine ⟨f.size + 16 + c.size, l₂, hS', hA2, ?_, by simp [hu], hout⟩
      intro d hd
      have := hhead d hd
      simpa [hu] using this

/-- After a backward join the block before is in use. -/
theorem joinPrev_spec {f : Blk} (hS : Shape h (l₁ ++ f :: l₂)) (hA : Apart l₁) (hf : f.used = false) :
    ∃ f' l₁', Shape (joinPrev h f.addr) (l₁' ++ f' :: l₂) ∧ f'.used = false ∧ Apart l₁' ∧
      (∀ c ∈ l₁'.getLast?, c.used = true) ∧ l₁'.filter Blk.used = l₁.filter Blk.used ∧
      ∀ i, (∀ p ∈ l₁, i < p.addr ∨ p.addr + 16 ≤ i) → (joinPrev h f.addr).mem i = h.mem i := by
  have hm := hS.middle
  rcases List.eq_nil_or_concat l₁ with rfl | ⟨l, p, rfl⟩
  · have hhead : f.addr = h.head := hS.headAddr_eq 0
    have hsame : joinPrev h f.addr = h := if_neg fun h => h hhead
    rw [hsame]
    exact ⟨f, [], hS, hf, hA, by simp, rfl, fun i _ => rfl⟩
  · rw [List.concat_eq_append] at hS hA hm ⊢
    have hlist : (l ++ [p]) ++ f :: l₂ = l ++ p :: f :: l₂ := by simp
    rw [hlist] at hS
    have hmp := hS.middle
    have hfp : f.addr = p.stop := hmp.behind.1
    have hge := hmp.ge
    have hpos := hS.pos
    have hne : f.addr ≠ h.head := by
      rw [hS.head, hfp]
      simp only [Blk.stop]
      omega
    have hlen := hS.length_le
    simp only [List.length_append, List.length_cons] at hlen
    have hprev : findPrev h.mem f.addr h.bound (headAddr (l ++ p :: f :: l₂) 0) =
        if p.used then 0 else p.addr :=
      findPrev_eq hS.tiles hS.pos hS.linked (by omega)
    rw [hS.headAddr_eq] at hprev
    cases hu : p.used with
    | true =>
      have hsame : joinPrev h f.addr = h := by
        simp only [joinPrev, hprev, hu]
        rw [if_pos hne]
        exact if_neg fun h => h rfl
      rw [hsame]
      exact ⟨f, l ++ [p], hlist ▸ hS, hf, hA, by simpa using hu, rfl, fun i _ => rfl⟩
    | false =>
      have hjoin : joinPrev h f.addr = { h with mem := absorb h.mem p.addr f.addr } := by
        simp only [joinPrev, hprev, hu, Bool.false_eq_true, if_false]
        rw [if_pos hne, if_pos (by omega)]
      obtain ⟨hS', hout⟩ := hS.absorb
      obtain ⟨hA1, -⟩ := apart_sides (show Apart (l ++ p :: []) from hA)
      obtain ⟨hleft, -⟩ := apart_free (show Apart (l ++ p :: []) from hA) hu
      rw [hjoin]
      refine ⟨_, l, hS', hu, hA1, hleft, by simp [hu], ?_⟩
      intro i hi
      exact hout i (hi p (by simp))

/-- The user area of a block holds no header. -/
theorem Tiles.header_apart {a z : ℕ} {l : List Blk} (ht : Tiles a z l) {b c : Blk} (hb : b ∈ l)
    (hc : c ∈ l) {i : ℕ} (h1 : b.addr + 16 ≤ i) (h2 : i < b.stop) :
    i < c.addr ∨ c.addr + 16 ≤ i := by
  induction l generalizing a with
  | nil => cases hb
  | cons d l ih =>
    obtain ⟨hd, hl⟩ := ht
    simp only [Blk.stop] at *
    rcases List.mem_cons.mp hb with rfl | hbl
    · rcases List.mem_cons.mp hc with rfl | hc
      · omega
      · have := (hl.bounds hc).1
        omega
    · rcases List.mem_cons.mp hc with rfl | hc
      · have := (hl.bounds hbl).1
        omega
      · exact ih hl hbl hc

/-- `kfree` of a live pointer keeps the invariant and ends that allocation. -/
theorem kfree_inv {L₁ L₂ : List Live} {a : Live} (hI : Inv h blocks (L₁ ++ a :: L₂)) :
    ∃ blocks', Inv (kfree a.ptr h) blocks' (L₁ ++ L₂) := by
  obtain ⟨b, hb, hu, hptr, hsize⟩ := hI.block_of_live (a := a) (by simp)
  obtain ⟨l₁, l₂, rfl⟩ := List.append_of_mem hb
  have hm := hI.middle
  obtain ⟨hA1, hA2⟩ := apart_sides hI.apart
  have hsub : a.ptr - 16 = b.addr := by omega
  -- clear the flag, then join with the neighbours
  obtain ⟨hS1, hout1⟩ := hI.toShape.clear
  obtain ⟨n, l₂', hS2, hA2', hright, hfil2, hout2⟩ := joinNext_spec hS1 hA2
  obtain ⟨f, l₁', hS3, hf, hA1', hleft, hfil1, hout3⟩ := joinPrev_spec hS2 hA1 rfl
  have hfree : kfree a.ptr h =
      joinPrev { h with mem := joinNext (setUsed h.mem b.addr 0) b.addr } b.addr := by
    rw [kfree, if_neg (by omega), HEADER_SIZE, hsub]
  rw [hfree]
  refine ⟨l₁' ++ f :: l₂', hS3, apart_insert hA1' hA2' hleft hright, ?_, ?_⟩
  · have hold := hI.allocated
    simp only [List.filter_append, List.filter_cons, hu, hf, if_true, Bool.false_eq_true, if_false,
      hfil1, hfil2, List.map_append, List.map_cons] at hold ⊢
    have hpay : b.payload = a.payload := Prod.ext hptr hsize
    rw [hpay] at hold
    exact (List.perm_cons _).mp (List.perm_middle.symm.trans (hold.trans List.perm_middle))
  · intro c hc i hi
    have hc' : c ∈ L₁ ++ a :: L₂ := by
      rcases List.mem_append.mp hc with hc | hc
      · exact List.mem_append_left _ hc
      · exact List.mem_append_right _ (List.mem_cons_of_mem _ hc)
    refine hI.bytes_congr ?_ c hc' i hi
    intro x hx _ j hj1 hj2
    -- only header bytes were written
    have hhdr : ∀ y ∈ l₁ ++ b :: l₂, j < y.addr ∨ y.addr + 16 ≤ j :=
      fun y hy => hI.tiles.header_apart hx hy hj1 hj2
    have hjb := hhdr b (by simp)
    have h3 := hout3 j fun p hp => hhdr p (List.mem_append_left _ hp)
    have h2 : joinNext (setUsed h.mem b.addr 0) b.addr j = setUsed h.mem b.addr 0 j := hout2 j hjb
    rw [h3]
    dsimp only
    rw [h2, hout1 j hjb]

/-- The addresses of two user areas do not overlap. -/
def Disjoint (x y : ℕ × ℕ) : Prop := x.1 + x.2 ≤ y.1 ∨ y.1 + y.2 ≤ x.1

theorem Inv.disjoint (hI : Inv h blocks live) : (live.map Live.payload).Pairwise Disjoint := by
  have hused : ((blocks.filter Blk.used).map Blk.payload).Pairwise Disjoint := by
    rw [List.pairwise_map]
    refine (hI.tiles.pairwise.sublist List.filter_sublist).imp ?_
    intro b c hbc
    left
    simp only [Blk.payload, Blk.stop] at *
    omega
  exact (hI.allocated.pairwise_iff fun h => h.symm).mp hused

/-- A write of the owner of an allocation into it. -/
theorem Inv.write {L₁ L₂ : List Live} {a : Live} (hI : Inv h blocks (L₁ ++ a :: L₂)) {i : ℕ}
    (hi : i < a.size) (v : UInt8) :
    Inv { h with mem := Function.update h.mem (a.ptr + i) v } blocks
      (L₁ ++ { a with bytes := Function.update a.bytes i v } :: L₂) := by
  obtain ⟨b, hb, hu, hptr, hsize⟩ := hI.block_of_live (a := a) (by simp)
  have hdis := hI.disjoint
  rw [List.map_append, List.map_cons, List.pairwise_append, List.pairwise_cons] at hdis
  obtain ⟨-, ⟨hright, -⟩, hleft⟩ := hdis
  refine ⟨⟨hI.head, hI.pos, hI.lt, hI.le, hI.limit, hI.small, hI.tiles, ?_, hI.aligned⟩, hI.apart, ?_, ?_⟩
  · refine hI.linked.congr fun c hc j hj1 hj2 => Function.update_of_ne ?_ _ _
    have := hI.tiles.header_apart hb hc (i := a.ptr + i) (by omega) (by simp only [Blk.stop]; omega)
    omega
  · have hold := hI.allocated
    rw [List.map_append, List.map_cons] at hold ⊢
    exact hold
  · have hother : ∀ c : Live, Disjoint c.payload a.payload ∨ Disjoint a.payload c.payload →
        ∀ j < c.size, Function.update h.mem (a.ptr + i) v (c.ptr + j) = h.mem (c.ptr + j) := by
      intro c hc j hj
      apply Function.update_of_ne
      simp only [Disjoint, Live.payload] at hc
      omega
    intro c hc j hj
    change Function.update h.mem (a.ptr + i) v (c.ptr + j) = c.bytes j
    rcases List.mem_append.mp hc with hc | hc
    · rw [hother c (Or.inl (hleft _ (List.mem_map_of_mem hc) _ List.mem_cons_self)) j hj]
      exact hI.bytes c (List.mem_append_left _ hc) j hj
    · rcases List.mem_cons.mp hc with rfl | hc
      · have hold := hI.bytes a (by simp) j hj
        by_cases hij : j = i
        · subst hij
          simp
        · simp only [Function.update_of_ne hij]
          rw [Function.update_of_ne (by omega)]
          exact hold
      · rw [hother c (Or.inr (hright _ (List.mem_map_of_mem hc))) j hj]
        exact hI.bytes c (List.mem_append_right _ (List.mem_cons_of_mem _ hc)) j hj

/-- One step of a run: the heap, and the allocations not freed yet. -/
inductive Step : Heap × List Live → Heap × List Live → Prop
  | malloc {h h' : Heap} {live : List Live} (map : MapRegion) {n p : ℕ} (hn : n < 2 ^ 32)
      (hrun : kmalloc map n h = (p, h')) :
      Step (h, live) (h', if p = 0 then live else allocation p h' :: live)
  | free {h : Heap} {L₁ L₂ : List Live} (a : Live) :
      Step (h, L₁ ++ a :: L₂) (kfree a.ptr h, L₁ ++ L₂)
  | grow {h : Heap} {live : List Live} (map : MapRegion) (minBytes : ℕ) :
      Step (h, live) ((kheapGrow map minBytes h).2, live)
  | write {h : Heap} {L₁ L₂ : List Live} (a : Live) {i : ℕ} (hi : i < a.size) (v : UInt8) :
      Step (h, L₁ ++ a :: L₂) ({ h with mem := Function.update h.mem (a.ptr + i) v },
        L₁ ++ { a with bytes := Function.update a.bytes i v } :: L₂)

/-- Every step keeps the invariant. -/
theorem Step.inv {s t : Heap × List Live} (hstep : Step s t) (hI : ∃ blocks, Inv s.1 blocks s.2) :
    ∃ blocks, Inv t.1 blocks t.2 := by
  obtain ⟨blocks, hI⟩ := hI
  cases hstep with
  | @malloc h h' live map n p hn hrun =>
    rcases kmalloc_inv hI map n with ⟨h₁, blocks', heq, hI'⟩ | ⟨q, h₁, blocks', heq, hq, -, hI'⟩
    · obtain ⟨rfl, rfl⟩ := Prod.mk.inj (hrun.symm.trans heq)
      exact ⟨blocks', hI'⟩
    · obtain ⟨rfl, rfl⟩ := Prod.mk.inj (hrun.symm.trans heq)
      simp only [if_neg hq]
      exact ⟨blocks', hI'⟩
  | free a => exact kfree_inv hI
  | grow map minBytes => exact kheapGrow_inv hI map minBytes
  | write a hi v => exact ⟨blocks, hI.write hi v⟩

/-- A heap of at least one page, all of it addressable, with sizes that fit 32 bits. -/
structure HeapArgs (base initialPages maxPages : ℕ) : Prop where
  base_pos : 0 < base
  initial_pos : 1 ≤ initialPages
  size_lt : max maxPages initialPages * 4096 < 2 ^ 32
  addr_lt : base + max maxPages initialPages * 4096 < 2 ^ 64

/-- One free block of the whole region is a heap. -/
theorem firstBlock_inv {base pages top : ℕ} (hb : 0 < base) (hi : 1 ≤ pages) (hle : pages ≤ top)
    (hlt : top * 4096 < 2 ^ 32) (haddr : base + top * 4096 < 2 ^ 64) (m : Mem) :
    Inv ⟨setNext (setUsed (setSize m base (pages * 4096 - 16)) base 0) base 0, base, base,
      base + pages * 4096, base + top * 4096⟩ [⟨base, pages * 4096 - 16, false⟩] [] := by
  refine ⟨⟨rfl, hb, by simp only; omega, by simp only; omega, haddr, by simp only; omega, ⟨rfl, ?_⟩,
    ⟨?_, trivial⟩, ?_⟩, List.IsChain.singleton _, List.Perm.refl _, by simp⟩
  · change base + 16 + (pages * 4096 - 16) = base + pages * 4096
    omega
  · exact header_write m ⟨base, pages * 4096 - 16, false⟩ (by simp only; omega) (by decide)
  · intro b hb
    obtain rfl := List.mem_singleton.mp hb
    simp only
    omega

theorem kheapInit_inv {base initialPages maxPages : ℕ} (ha : HeapArgs base initialPages maxPages)
    {map : MapRegion} {fresh : Mem} (hmap : map base initialPages = some fresh) (h : Heap) :
    Inv (kheapInit map base initialPages maxPages h) [⟨base, initialPages * 4096 - 16, false⟩] [] := by
  obtain ⟨hb, hi, hlt, haddr⟩ := ha
  have hmax : (if maxPages < initialPages then initialPages else maxPages) = max maxPages initialPages := by
    split_ifs <;> omega
  have hle : initialPages ≤ max maxPages initialPages := le_max_right _ _
  simp only [kheapInit, hmap, hmax]
  clear hmax
  obtain ⟨top, htop⟩ : ∃ top, max maxPages initialPages = top := ⟨_, rfl⟩
  rw [htop] at hle hlt haddr ⊢
  clear htop
  have hmul : initialPages * 4096 ≤ top * 4096 := Nat.mul_le_mul_right _ hle
  have hinit : initialPages * 4096 < 2 ^ 32 := hmul.trans_lt hlt
  have hstop : base + initialPages * 4096 < 2 ^ 64 := (Nat.add_le_add_left hmul _).trans_lt haddr
  have h1 : u32 (initialPages * PAGE) = initialPages * 4096 := Nat.mod_eq_of_lt hinit
  have h2 : u32 (top * PAGE) = top * 4096 := Nat.mod_eq_of_lt hlt
  have h3 : u32 (initialPages * 4096 + (2 ^ 32 - HEADER_SIZE)) = initialPages * 4096 - 16 := by
    simp only [u32, HEADER_SIZE]
    omega
  have h4 : u64 (base + initialPages * 4096) = base + initialPages * 4096 := Nat.mod_eq_of_lt hstop
  have h5 : u64 (base + top * 4096) = base + top * 4096 := Nat.mod_eq_of_lt haddr
  rw [h1, h2, h3, h4, h5]
  exact firstBlock_inv hb hi hle hlt haddr _

/-- In every state that a run reaches, the blocks in `next` order tile the heap, their
sizes are multiples of 8, no two neighbours are free, the used blocks are the live
allocations, and these do not overlap and hold what their owners put there. -/
theorem heap_invariant {base initialPages maxPages : ℕ} (ha : HeapArgs base initialPages maxPages)
    {map : MapRegion} {fresh : Mem} (hmap : map base initialPages = some fresh) (h₀ : Heap)
    {h : Heap} {live : List Live}
    (hrun : Relation.ReflTransGen Step (kheapInit map base initialPages maxPages h₀, []) (h, live)) :
    (∃ blocks, Inv h blocks live) ∧ (live.map Live.payload).Pairwise Disjoint := by
  have hall : ∀ t, Relation.ReflTransGen Step (kheapInit map base initialPages maxPages h₀, []) t →
      ∃ blocks, Inv t.1 blocks t.2 := by
    intro t ht
    induction ht with
    | refl => exact ⟨_, kheapInit_inv ha hmap h₀⟩
    | tail _ hstep ih => exact hstep.inv ih
  obtain ⟨blocks, hI⟩ := hall (h, live) hrun
  exact ⟨⟨blocks, hI⟩, hI.disjoint⟩

/-- The heap of the kernel after one `kmalloc(100)`. -/
theorem kernelHeap_invariant :
    let map : MapRegion := fun _ _ => some fun _ => 0
    let h₀ := kheapInit map 0xFFFFFFFF40000000 64 131072 ⟨fun _ => 0, 0, 0, 0, 0⟩
    let r := kmalloc map 100 h₀
    HeapArgs 0xFFFFFFFF40000000 64 131072 ∧ (∃ blocks, Inv h₀ blocks []) ∧
      ∃ blocks, Inv r.2 blocks (if r.1 = 0 then [] else [allocation r.1 r.2]) := by
  have ha : HeapArgs 0xFFFFFFFF40000000 64 131072 := ⟨by decide, by decide, by decide, by decide⟩
  intro map h₀ r
  have hmap : map 0xFFFFFFFF40000000 64 = some fun _ => 0 := rfl
  have hstep : Step (h₀, []) (r.2, if r.1 = 0 then [] else [allocation r.1 r.2]) :=
    Step.malloc map (by decide : 100 < 2 ^ 32) rfl
  exact ⟨ha, (heap_invariant ha hmap _ .refl).1, (heap_invariant ha hmap _ (.single hstep)).1⟩

end ComputerOS.Kheap
