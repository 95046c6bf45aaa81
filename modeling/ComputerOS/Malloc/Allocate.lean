import ComputerOS.Malloc.Coalesce

/-!
Taking blocks and growing the heap. A block that is taken keeps its address and has at least the
bytes that were asked for; what is left over becomes a free block behind it. Growing puts one free
block behind all others. Nothing changes outside the headers.
-/
namespace ComputerOS.Malloc

open Mem

variable {sbrk : Sbrk} {m : Mem} {h h' : Heap} {b c : Blk} {l l₁ l₂ : List Blk} {n p want : ℕ}

/-- The part of the block that is kept when `want` bytes are needed. -/
def kept (b : Blk) (want : ℕ) : Blk := if b.size < want + 24 then b else { b with size := want }

/-- The part that is left over. -/
def spare (b : Blk) (want : ℕ) : List Blk :=
  if b.size < want + 24 then [] else [⟨b.addr + 16 + want, b.size - want - 16, true⟩]

theorem kept_addr (b : Blk) (want : ℕ) : (kept b want).addr = b.addr := by
  unfold kept
  split <;> rfl

theorem le_kept (hle : want ≤ b.size) : want ≤ (kept b want).size := by
  unfold kept
  split
  · exact hle
  · exact le_rfl

theorem kept_size_le (b : Blk) (want : ℕ) : (kept b want).size ≤ b.size := by
  unfold kept
  split
  · exact le_rfl
  · simp only
    omega

theorem kept_stop_le (b : Blk) (want : ℕ) : (kept b want).stop ≤ b.stop := by
  have h1 := kept_addr b want
  have h2 := kept_size_le b want
  unfold Blk.stop
  omega

/-- `split_block` leaves what is kept and what is left over, and the kept payload as it was. -/
theorem splitBlock_shape (hS : Shape h (l₁ ++ b :: l₂)) (want : ℕ) :
    Shape { h with mem := splitBlock h.mem b.addr want } (l₁ ++ (kept b want :: spare b want) ++ l₂) ∧
    ∀ i, i < b.addr ∨ b.addr + 16 ≤ i → i < b.addr + 16 + want ∨ b.stop ≤ i →
    splitBlock h.mem b.addr want i = h.mem i := by
  have hm := hS.middle
  have hok := hm.ok
  have hsmall := hok.small
  have hstop := hok.stop
  unfold Blk.stop at hstop
  have hsize : size h.mem b.addr = b.size := hm.header.size
  have hnext : next h.mem b.addr = headAddr l₂ 0 := hm.header.next
  unfold splitBlock
  rw [hsize, hnext]
  unfold HEADER ALIGN
  by_cases hlt : b.size < want + 24
  · rw [if_pos (by omega), kept, spare, if_pos hlt, if_pos hlt]
    refine ⟨?_, fun _ _ _ => rfl⟩
    rw [List.append_assoc]
    exact hS
  · rw [if_neg (by omega), kept, spare, if_neg hlt, if_neg hlt]
    have htail : u64 (b.addr + 16 + want) = b.addr + 16 + want := Nat.mod_eq_of_lt (by omega)
    have hleft : u32 (b.size - want - 16) = b.size - want - 16 := Nat.mod_eq_of_lt (by omega)
    dsimp only
    rw [htail, hleft]
    obtain ⟨m', hm'⟩ : ∃ m', setFree (setSize (setNext h.mem (b.addr + 16 + want) (headAddr l₂ 0))
        (b.addr + 16 + want) (b.size - want - 16)) (b.addr + 16 + want) 1 = m' := ⟨_, rfl⟩
    rw [hm']
    have htailHdr : Header m' ⟨b.addr + 16 + want, b.size - want - 16, true⟩ (headAddr l₂ 0) :=
      hm' ▸ header_write h.mem ⟨b.addr + 16 + want, b.size - want - 16, true⟩ (by simp only; omega) hm.next_lt
    have hout' : ∀ i, i < b.addr + 16 + want ∨ b.addr + 16 + want + 16 ≤ i → m' i = h.mem i :=
      fun i hi => hm' ▸ header_ne h.mem hi
    have hhdr : Header m' b (headAddr l₂ 0) := hm.header.congr fun i _ hi => hout' i (by omega)
    have hlink : b.addr + 16 + want < 2 ^ 64 := by omega
    have hfinal := (hhdr.setNext hlink).setSize (n := want) (by omega)
    have hout : ∀ i, i < b.addr ∨ b.addr + 16 ≤ i →
        setSize (setNext m' b.addr (b.addr + 16 + want)) b.addr want i = m' i :=
      fun i hi => by rw [setSize, setLE_ne _ (by omega), setNext, setLE_ne _ (by omega)]
    have hok1 : Blk.Ok { b with size := want } :=
      ⟨hok.pos, by unfold Blk.stop; simp only; omega, by simp only; omega⟩
    have hok2 : Blk.Ok ⟨b.addr + 16 + want, b.size - want - 16, true⟩ :=
      ⟨by simp only; omega, by unfold Blk.stop; simp only; omega, by simp only; omega⟩
    refine ⟨hS.replace rfl ⟨hfinal, htailHdr.congr fun i hi _ => hout i (by simp only at hi; omega),
      trivial⟩ (List.pairwise_pair.mpr le_rfl) ?_ ?_ ?_, fun i h1 h2 => ?_⟩
    · intro c hc
      simp only [List.mem_cons, List.not_mem_nil, or_false] at hc
      rcases hc with rfl | rfl
      · exact hok1
      · exact hok2
    · intro c hc
      simp only [List.mem_cons, List.not_mem_nil, or_false] at hc
      rcases hc with rfl | rfl
      · unfold Blk.stop
        simp only
        omega
      · unfold Blk.stop
        simp only
        omega
    · intro i hi
      unfold Blk.stop at hi
      rw [hout i (by omega), hout' i (by omega)]
    · unfold Blk.stop at h2
      rw [hout i h1, hout' i (by omega)]

theorem takeBlock_shape (hS : Shape h (l₁ ++ b :: l₂)) (want : ℕ) :
    Shape { h with mem := takeBlock h.mem b.addr want }
      (l₁ ++ { kept b want with free := false } :: (spare b want ++ l₂)) ∧
    ∀ i, i < b.addr ∨ b.addr + 16 ≤ i → i < b.addr + 16 + want ∨ b.stop ≤ i →
    takeBlock h.mem b.addr want i = h.mem i := by
  obtain ⟨hsplit, hout⟩ := splitBlock_shape hS want
  rw [List.append_assoc, List.cons_append] at hsplit
  have hfree := hsplit.setFree false
  have hmem : setFree (splitBlock h.mem b.addr want) (kept b want).addr false.toNat = takeBlock h.mem b.addr want := by
    rw [kept_addr]
    rfl
  change Shape { h with mem := setFree (splitBlock h.mem b.addr want) (kept b want).addr false.toNat } _ at hfree
  rw [hmem] at hfree
  refine ⟨hfree, fun i h1 h2 => ?_⟩
  rw [takeBlock, setFree, setLE_ne _ (by omega)]
  exact hout i h1 h2

theorem growChunk_bounds (need : ℕ) : 4096 ≤ growChunk need ∧ growChunk need < 2 ^ 32 := by
  unfold growChunk u32
  dsimp only
  split <;> omega

theorem Shape.remap (hS : Shape h l) (mapped : ℕ → Bool) (brk : ℕ) : Shape { h with mapped := mapped, brk := brk } l :=
  ⟨hS.head, hS.linked, hS.ordered, hS.ok⟩

theorem Shape.head_eq_zero (hS : Shape h l) : h.head = 0 ↔ l = [] := by
  rw [hS.head]
  constructor
  · intro h0
    by_contra hne
    exact headAddr_ne_zero hS.ok hne h0
  · rintro rfl
    rfl

/-- The block that `grow_heap` puts behind the others. -/
def newBlock (g : Grant) (want : ℕ) : Blk := ⟨g.addr, growChunk want - 16, true⟩

/-- The region that `sbrk` grants stands behind all blocks. -/
structure Behind (l : List Blk) (g : Grant) (want : ℕ) : Prop where
  pos : 0 < g.addr
  ge : ∀ b ∈ l, b.stop ≤ g.addr
  fits : g.addr + growChunk want < 2 ^ 64

theorem newBlock_ok {g : Grant} (hg : Behind l g want) : (newBlock g want).Ok := by
  obtain ⟨h1, h2⟩ := growChunk_bounds want
  have hfit := hg.fits
  refine ⟨hg.pos, ?_, ?_⟩
  · unfold Blk.stop newBlock
    dsimp only
    omega
  · unfold newBlock
    dsimp only
    omega

/-- The header of the new block is written, and the last block points to it. -/
theorem growHeap_shape (sbrk : Sbrk) {g : Grant} (hS : Shape h l) (hg : Behind l g want) :
    ∃ h', Shape h' (l ++ [newBlock g want]) ∧ h'.brk = g.brk ∧
      (∀ i, (∀ b ∈ l, i < b.addr ∨ b.addr + 16 ≤ i) → i < g.addr ∨ g.addr + 16 ≤ i → h'.mem i = h.mem i) ∧
      (sbrk (int32 (growChunk want)) = g → g.addr ≠ FAILED →
        growHeap sbrk want h = some (g.addr, h') ∨ growHeap sbrk want h = none) := by
  obtain ⟨hge, hlt⟩ := growChunk_bounds want
  have hnew := newBlock_ok hg
  have hsize : u32 (growChunk want - HEADER) = (newBlock g want).size := Nat.mod_eq_of_lt (by unfold HEADER; omega)
  obtain ⟨m, hm⟩ : ∃ m, setFree (setSize (setNext h.mem g.addr 0) g.addr (newBlock g want).size)
    g.addr 1 = m := ⟨_, rfl⟩
  have hhdr : Header m (newBlock g want) 0 := hm ▸ header_write h.mem (newBlock g want) hnew.small (by decide)
  have hout : ∀ i, i < g.addr ∨ g.addr + 16 ≤ i → m i = h.mem i := fun i hi => hm ▸ header_ne h.mem hi
  have hbelow : ∀ b ∈ l, b.addr + 16 ≤ g.addr := fun b hb => by
    have := hg.ge b hb
    unfold Blk.stop at this
    omega
  have ho : Ordered (l ++ [newBlock g want]) := List.pairwise_append.mpr
    ⟨hS.ordered, List.pairwise_singleton _ _, fun b hb c hc => List.mem_singleton.mp hc ▸ hg.ge b hb⟩
  have hok : ∀ b ∈ l ++ [newBlock g want], b.Ok := fun b hb => by
    rcases List.mem_append.mp hb with hb | hb
    · exact hS.ok b hb
    · exact List.mem_singleton.mp hb ▸ hnew
  rcases List.eq_nil_or_concat l with rfl | ⟨l₀, t, rfl⟩
  · refine ⟨{ h with mem := m, mapped := g.mapped, brk := g.brk, head := g.addr },
      ⟨rfl, ⟨hhdr, trivial⟩, ho, hok⟩, rfl, fun i _ hi => hout i hi, ?_⟩
    rintro rfl hne
    unfold growHeap
    dsimp only
    rw [if_neg hne]
    split
    · rw [if_pos (hS.head_eq_zero.mpr rfl), hsize, hm]
      exact Or.inl rfl
    · exact Or.inr rfl
  · rw [List.concat_eq_append] at *
    have htail : t.addr + 16 ≤ g.addr := hbelow t (by simp)
    have hlinked : Linked m (l₀ ++ [t]) 0 :=
      hS.linked.congr fun b hb i _ hi => hout i (Or.inl (hi.trans_le (hbelow b hb)))
    have hlast : lastBlock m MAX_BLOCKS h.head = t.addr := by
      have hlen := hS.length_le
      rw [List.length_append] at hlen
      rw [hS.head]
      exact lastBlock_eq hlinked hS.ok (by omega)
    have haddr : g.addr < 2 ^ 64 := by
      have := hg.fits
      omega
    obtain ⟨hl0, ht⟩ := linked_append.mp hlinked
    refine ⟨{ h with mem := setNext m t.addr g.addr, mapped := g.mapped, brk := g.brk },
      ⟨?_, ?_, ho, hok⟩, rfl, fun i h1 h2 => ?_, ?_⟩
    · rw [hS.head, List.append_assoc, headAddr_append, headAddr_append]
      rfl
    · rw [List.append_assoc]
      refine linked_append.mpr ⟨?_, ?_, ?_, trivial⟩
      · refine hl0.congr fun b hb i _ hi => setLE_ne _ (Or.inl ?_)
        have := (List.pairwise_append.mp hS.ordered).2.2 b hb t (by simp)
        unfold Blk.stop at this
        omega
      · exact ht.1.setNext haddr
      · exact hhdr.congr fun i hi _ => setLE_ne _ (Or.inr (by have : g.addr ≤ i := hi; omega))
    · have := h1 t (by simp)
      dsimp only
      rw [setNext, setLE_ne _ (by omega), hout i h2]
    · rintro rfl hne
      unfold growHeap
      dsimp only
      rw [if_neg hne]
      split
      · have hhead : h.head ≠ 0 := fun h0 => absurd (hS.head_eq_zero.mp h0) (by simp)
        rw [if_neg hhead, hsize, hm, hlast]
        exact Or.inl rfl
      · exact Or.inr rfl

/-- What `malloc` does to the blocks `l` when it returns `p`. -/
inductive Allocated (sbrk : Sbrk) (want : ℕ) (h : Heap) (l : List Blk) : ℕ → Heap → Prop
  | refused (g : Grant) (hg : g = sbrk (int32 (growChunk want))) (hno : ∀ b ∈ l, b.free = false ∨ b.size < want)
      (hfail : g.addr = FAILED) (h' : Heap) (hS : Shape h' l) (hbrk : h'.brk = g.brk) (hsame : h'.mem = h.mem) :
      Allocated sbrk want h l 0 h'
  | found (l₁ l₂ : List Blk) (b : Blk) (hl : l = l₁ ++ b :: l₂) (hfree : b.free = true)
      (hfit : want ≤ b.size) (h' : Heap)
      (hS : Shape h' (l₁ ++ { kept b want with free := false } :: (spare b want ++ l₂))) (hbrk : h'.brk = h.brk)
      (hsame : ∀ i, i < b.addr ∨ b.stop ≤ i → h'.mem i = h.mem i) : Allocated sbrk want h l (b.addr + 16) h'
  | grown (g : Grant) (hg : g = sbrk (int32 (growChunk want))) (hno : ∀ b ∈ l, b.free = false ∨ b.size < want)
      (hbehind : Behind l g want) (h' : Heap)
      (hS : Shape h' (l ++ { kept (newBlock g want) want with free := false } :: spare (newBlock g want) want))
      (hbrk : h'.brk = g.brk)
      (hsame : ∀ i, (∀ b ∈ l, i < b.addr ∨ b.addr + 16 ≤ i) → i < g.addr ∨
      (newBlock g want).stop ≤ i → h'.mem i = h.mem i) :
      Allocated sbrk want h l (g.addr + 16) h'

/-- A block that is taken changes between its address and its end only. -/
theorem taken_same {mem : Mem} (hout : ∀ i, i < b.addr ∨ b.addr + 16 ≤ i → i < b.addr + 16 + want ∨
    b.stop ≤ i → takeBlock mem b.addr want i = mem i) {i : ℕ} (hi : i < b.addr ∨ b.stop ≤ i) :
    takeBlock mem b.addr want i = mem i := by
  unfold Blk.stop at hi hout
  exact hout i (by omega) (by omega)

theorem malloc_allocated (hS : Shape h l) (hg : (sbrk (int32 (growChunk (normalize n)))).addr = FAILED ∨
    Behind l (sbrk (int32 (growChunk (normalize n)))) (normalize n)) (hrun : malloc sbrk n h = some (p, h')) :
    Allocated sbrk (normalize n) h l p h' := by
  obtain ⟨want, hwant⟩ : ∃ want, want = normalize n := ⟨_, rfl⟩
  rw [← hwant] at hg ⊢
  obtain ⟨g, hgeq⟩ : ∃ g, sbrk (int32 (growChunk want)) = g := ⟨_, rfl⟩
  rw [hgeq] at hg
  unfold malloc at hrun
  rw [← hwant] at hrun
  dsimp only at hrun
  have hfind := findBlock_eq (n := want) hS.linked hS.ok hS.length_le
  rw [← hS.head] at hfind
  rcases hfind with ⟨h0, hno⟩ | ⟨l₁, b, l₂, rfl, hfree, hfit, hfound⟩
  · rw [if_neg (by simp [h0])] at hrun
    by_cases hfail : g.addr = FAILED
    · have hgrow : growHeap sbrk want h = some (0, { h with mapped := g.mapped, brk := g.brk }) := by
        unfold growHeap
        dsimp only
        rw [hgeq, if_pos hfail]
      rw [hgrow] at hrun
      cases hrun
      exact .refused g hgeq.symm hno hfail _ (hS.remap _ _) rfl rfl
    · have hbehind := hg.resolve_left hfail
      obtain ⟨h₁, hS₁, hbrk, hsame, hgrow⟩ := growHeap_shape sbrk hS hbehind
      rcases hgrow hgeq hfail with hgrow | hgrow
      · rw [hgrow] at hrun
        have hpos := hbehind.pos
        have hfits := hbehind.fits
        have hchunk := growChunk_bounds want
        have hptr : u64 (g.addr + HEADER) = g.addr + 16 := Nat.mod_eq_of_lt (by unfold HEADER; omega)
        dsimp only at hrun
        rw [if_neg (by omega), hptr] at hrun
        cases hrun
        obtain ⟨htaken, hout⟩ := takeBlock_shape hS₁ want
        rw [List.append_nil] at htaken
        refine .grown g hgeq.symm hno hbehind _ htaken hbrk fun i h1 h2 => ?_
        have htake : takeBlock h₁.mem g.addr want i = h₁.mem i := taken_same hout h2
        have hstop : g.addr + 16 ≤ (newBlock g want).stop := Nat.le_add_right _ _
        dsimp only
        rw [htake]
        exact hsame i h1 (by omega)
      · rw [hgrow] at hrun
        cases hrun
  · have hok := hS.ok b (by simp)
    have hpos := hok.pos
    have hstop := hok.stop
    unfold Blk.stop at hstop
    have hptr : u64 (b.addr + HEADER) = b.addr + 16 := Nat.mod_eq_of_lt (by unfold HEADER; omega)
    obtain ⟨htaken, hout⟩ := takeBlock_shape hS want
    rw [if_pos (by omega), hfound, hptr] at hrun
    cases hrun
    exact .found l₁ l₂ b rfl hfree hfit _ htaken rfl fun i hi => taken_same hout hi

end ComputerOS.Malloc
