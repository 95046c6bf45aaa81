import ComputerOS.Malloc.Allocate

/-!
`realloc`. The block is kept, or takes in the free block behind it, or a new block is taken, the
payload is copied and the old block is freed. Blocks in use stay in the list when other blocks are
freed.
-/
namespace ComputerOS.Malloc

open Mem

variable {sbrk : Sbrk} {m : Mem} {h h' : Heap} {b c : Blk} {l l₁ l₂ : List Blk} {n p want : ℕ}

theorem absorb_shape (hS : Shape h (l₁ ++ b :: c :: l₂)) (hj : b.stop = c.addr) :
    Shape { h with mem := absorb h.mem b.addr } (l₁ ++ joined b c :: l₂) ∧
    ∀ i, i < b.addr ∨ b.addr + 16 ≤ i → absorb h.mem b.addr i = h.mem i := by
  have hm := hS.middle
  have hokc : c.Ok := hS.ok c (by simp)
  obtain ⟨hc, hl₂⟩ : Header h.mem c (headAddr l₂ 0) ∧ Linked h.mem l₂ 0 := hm.linked₂
  obtain ⟨hcl, hol⟩ := List.pairwise_cons.mp hm.ordered₂
  have hnext : headAddr l₂ 0 < 2 ^ 64 := headAddr_lt fun d hd => hS.ok d (by simp [hd])
  obtain ⟨hhdr, hout⟩ := absorb_spec hm.header hc hj.le hnext
  refine ⟨⟨?_, ?_, ?_, ?_⟩, hout⟩
  · rw [hS.head, headAddr_append, headAddr_append]
    rfl
  · refine linked_append.mpr ⟨hm.linked₁.congr fun d hd i _ hi => hout i (Or.inl ?_), hhdr,
      hl₂.congr fun d hd i hi _ => hout i (Or.inr ?_)⟩
    · have := hm.before d hd
      unfold Blk.stop at this
      omega
    · have := hm.behind d (List.mem_cons_of_mem c hd)
      unfold Blk.stop at this
      omega
  · refine List.pairwise_append.mpr ⟨hm.ordered₁, List.pairwise_cons.mpr ⟨fun d hd => ?_, hol⟩, fun d hd x hx => ?_⟩
    · exact (joined_stop hj).trans (hcl d hd)
    · rcases List.mem_cons.mp hx with rfl | hx
      · exact hm.before d hd
      · have := hm.behind x (List.mem_cons_of_mem c hx)
        unfold Blk.stop at this
        exact (hm.before d hd).trans (by omega)
  · intro d hd
    rcases List.mem_append.mp hd with hd | hd
    · exact hS.ok d (by simp [hd])
    · rcases List.mem_cons.mp hd with rfl | hd
      · exact joined_ok hm.ok hokc hj
      · exact hS.ok d (by simp [hd])

theorem mem_merge (hc : c ∈ l) (hu : c.free = false) : c ∈ merge l := by
  induction l using merge.induct with
  | case1 b d l hj ih =>
    rw [merge, if_pos hj]
    rcases List.mem_cons.mp hc with rfl | hc
    · exact absurd (hj.1.symm.trans hu) (by simp)
    rcases List.mem_cons.mp hc with rfl | hc
    · exact absurd (hj.2.1.symm.trans hu) (by simp)
    · exact List.mem_cons_of_mem _ (ih hc)
  | case2 b d l hj ih =>
    rw [merge, if_neg hj]
    rcases List.mem_cons.mp hc with rfl | hc
    · exact List.mem_cons_self
    · exact List.mem_cons_of_mem _ (ih hc)
  | case3 l hl =>
    have heq : merge l = l := by
      unfold merge
      split
      · exact absurd rfl (hl _ _ _)
      · rfl
    rwa [heq]

theorem Shape.size_eq (hS : Shape h l) (hb : b ∈ l) : size h.mem b.addr = b.size := by
  obtain ⟨l₁, l₂, rfl⟩ := List.append_of_mem hb
  exact hS.middle.header.size

/-- Bytes outside the headers make no difference to the blocks. -/
theorem Shape.congr {m' : Mem} (hS : Shape h l) (hout : ∀ b ∈ l, ∀ i, b.addr ≤ i → i < b.addr + 16 → m' i = h.mem i) :
    Shape { h with mem := m' } l :=
  ⟨hS.head, hS.linked.congr hout, hS.ordered, hS.ok⟩

/-- Two blocks of a list in address order are the same, or one ends before the other one starts. -/
theorem Ordered.apart (ho : Ordered l) (hb : b ∈ l) (hc : c ∈ l) : b = c ∨ b.stop ≤ c.addr ∨ c.stop ≤ b.addr := by
  induction l with
  | nil => cases hb
  | cons x l ih =>
    obtain ⟨hx, hol⟩ := List.pairwise_cons.mp ho
    rcases List.mem_cons.mp hb with rfl | hb' <;> rcases List.mem_cons.mp hc with rfl | hc'
    · exact Or.inl rfl
    · exact Or.inr (Or.inl (hx c hc'))
    · exact Or.inr (Or.inr (hx b hb'))
    · exact ih hol hb' hc'

/-- The bytes that the loop copies from byte `i` on, when it reads neither its own bytes nor writes
the size it compares with. -/
theorem copyLoop_eq {dst src fuel i k : ℕ} (hsize : size m b.addr = b.size) (hk : k = min b.size want) (hi : i ≤ k)
    (hfuel : k ≤ i + fuel) (hhdr : dst + k ≤ b.addr ∨ b.addr + 16 ≤ dst) (hsrc : dst + k ≤ src ∨ src + k ≤ dst) :
    copyLoop b.addr want dst src fuel i m = fun x => if dst + i ≤ x ∧
    x < dst + k then m (src + (x - dst)) else m x := by
  induction fuel generalizing i m with
  | zero =>
    obtain rfl : i = k := by omega
    funext x
    rw [if_neg (by omega)]
    rfl
  | succ fuel ih =>
    unfold copyLoop
    rw [hsize]
    by_cases hmore : i < k
    · rw [if_pos (by omega)]
      have hsize' : size (Function.update m (dst + i) (m (src + i))) b.addr = b.size := by
        rw [← hsize]
        exact getLE_congr fun j hj => Function.update_of_ne (by omega) _ _
      rw [ih hsize' (by omega) (by omega)]
      funext x
      by_cases hx : x = dst + i
      · rw [hx, if_neg (by omega), if_pos (by omega), Function.update_self, Nat.add_sub_cancel_left]
      · by_cases hin : dst + i ≤ x ∧ x < dst + k
        · rw [if_pos (by omega), if_pos hin, Function.update_of_ne (by omega)]
        · rw [if_neg (by omega), if_neg hin, Function.update_of_ne hx]
    · rw [if_neg (by omega)]
      funext x
      rw [if_neg (by omega)]

/-- The block that `malloc` returns, in the list that it leaves; the blocks that were in use stay
clear of it. -/
structure Taken (l : List Blk) (p : ℕ) (h' : Heap) (l' : List Blk) (t : Blk) : Prop where
  shape : Shape h' l'
  mem : t ∈ l'
  used : t.free = false
  ptr : p = t.addr + 16
  stay : ∀ c ∈ l, c.free = false → c ∈ l'
  clear : ∀ c ∈ l, c.free = false → c.stop ≤ t.addr ∨ t.stop ≤ c.addr

theorem Allocated.taken (ha : Allocated sbrk want h l p h') (ho : Ordered l) (hp : p ≠ 0) :
    ∃ l' t, Taken l p h' l' t ∧
      ((∃ b ∈ l, want ≤ b.size ∧ t.addr = b.addr ∧ t.size = (kept b want).size ∧ t.stop ≤ b.stop ∧ h'.brk = h.brk) ∨
        ∃ g, g = sbrk (int32 (growChunk want)) ∧ Behind l g want ∧ t.addr = g.addr ∧
          t.size = (kept (newBlock g want) want).size ∧ t.stop ≤ (newBlock g want).stop ∧ h'.brk = g.brk) := by
  cases ha with
  | refused g hg hno hfail _ hS hbrk hsame => exact absurd rfl hp
  | found l₁ l₂ b hl hfree hfit _ hS hbrk hsame =>
    refine ⟨_, { kept b want with free := false }, ⟨hS, by simp, rfl, ?_, fun c hc hu => ?_, fun c hc hu => ?_⟩,
      Or.inl ⟨b, by simp [hl], hfit, kept_addr b want, rfl, kept_stop_le b want, hbrk⟩⟩
    · change b.addr + 16 = (kept b want).addr + 16
      rw [kept_addr]
    · rw [hl] at hc
      simp only [List.mem_append, List.mem_cons] at hc ⊢
      rcases hc with hc | rfl | hc
      · exact Or.inl hc
      · exact absurd (hfree.symm.trans hu) (by simp)
      · exact Or.inr (Or.inr (Or.inr hc))
    · have hstop := kept_stop_le b want
      have haddr := kept_addr b want
      rcases ho.apart hc (c := b) (by simp [hl]) with rfl | h1 | h1
      · exact absurd (hfree.symm.trans hu) (by simp)
      · exact Or.inl (h1.trans_eq haddr.symm)
      · exact Or.inr (hstop.trans h1)
  | grown g hg hno hbehind _ hS hbrk hsame =>
    refine ⟨_, { kept (newBlock g want) want with free := false },
      ⟨hS, by simp, rfl, ?_, fun c hc hu => ?_, fun c hc hu => ?_⟩,
      Or.inr ⟨g, hg, hbehind, kept_addr _ want, rfl, kept_stop_le _ want, hbrk⟩⟩
    · change g.addr + 16 = (kept (newBlock g want) want).addr + 16
      rw [kept_addr]
      rfl
    · exact List.mem_append_left _ hc
    · refine Or.inl ?_
      change c.stop ≤ (kept (newBlock g want) want).addr
      rw [kept_addr]
      exact hbehind.ge c hc

/-- What `realloc` of the block `b` in use does when it returns `p`. -/
inductive Reallocated (sbrk : Sbrk) (want : ℕ) (h : Heap) (l₁ : List Blk) (b : Blk) (l₂ : List Blk) : ℕ → Heap → Prop
  | kept (hfit : want ≤ b.size) (h' : Heap) (hmem : h' = { h with mem := splitBlock h.mem b.addr want }) :
      Reallocated sbrk want h l₁ b l₂ (b.addr + 16) h'
  | widened (c : Blk) (l₃ : List Blk) (hl : l₂ = c :: l₃) (hbig : b.size < want) (hfree : c.free = true)
      (hj : b.stop = c.addr) (hfit : want ≤ b.size + 16 + c.size) (h' : Heap)
      (hmem : h' = { h with mem := splitBlock (absorb h.mem b.addr) b.addr want }) :
      Reallocated sbrk want h l₁ b l₂ (b.addr + 16) h'
  | moved (hbig : b.size < want) (p : ℕ) (hp : p ≠ 0) (h₁ : Heap) (ha : Allocated sbrk want h (l₁ ++ b :: l₂) p h₁)
      (h' : Heap)
      (hmem : h' = free (b.addr + 16) { h₁ with mem := copyLoop b.addr want p (b.addr + 16) want 0 h₁.mem }) :
      Reallocated sbrk want h l₁ b l₂ p h'
  | refused (h' : Heap) (ha : Allocated sbrk want h (l₁ ++ b :: l₂) 0 h') : Reallocated sbrk want h l₁ b l₂ 0 h'

theorem realloc_reallocated (hS : Shape h (l₁ ++ b :: l₂)) (hn : n ≠ 0)
    (hg : (sbrk (int32 (growChunk (normalize n)))).addr = FAILED ∨
      Behind (l₁ ++ b :: l₂) (sbrk (int32 (growChunk (normalize n)))) (normalize n))
    (hrun : realloc sbrk (b.addr + 16) n h = some (p, h')) : Reallocated sbrk (normalize n) h l₁ b l₂ p h' := by
  have hm := hS.middle
  have hok := hm.ok
  have hstop := hok.stop
  have hptr : b.addr + 16 - HEADER = b.addr := Nat.add_sub_cancel _ _
  have hsize : size h.mem b.addr = b.size := hm.header.size
  have hnext : next h.mem b.addr = headAddr l₂ 0 := hm.header.next
  have hend : u64 (b.addr + HEADER + b.size) = b.stop := Nat.mod_eq_of_lt hstop
  have halloc : ∀ p h', malloc sbrk n h = some (p, h') → Allocated sbrk (normalize n) h (l₁ ++ b :: l₂) p h' :=
    fun _ _ => malloc_allocated hS hg
  unfold realloc at hrun
  rw [if_neg (by omega), if_neg hn, hptr] at hrun
  dsimp only at hrun
  rw [hsize, hnext, hend] at hrun
  by_cases hfit : normalize n ≤ b.size
  · rw [if_pos hfit] at hrun
    cases hrun
    exact .kept hfit _ rfl
  rw [if_neg hfit] at hrun
  split at hrun
  · rename_i hwide
    obtain ⟨hne, hfree, hj, hroom⟩ := hwide
    cases l₂ with
    | nil => exact absurd rfl hne
    | cons c l₃ =>
      obtain ⟨hc, -⟩ : Header h.mem c (headAddr l₃ 0) ∧ Linked h.mem l₃ 0 := hm.linked₂
      change isFree h.mem c.addr ≠ 0 at hfree
      change normalize n ≤ b.size + HEADER + size h.mem c.addr at hroom
      rw [hc.free] at hfree
      rw [hc.size] at hroom
      have hcf : c.free = true := by
        cases hx : c.free
        · rw [hx] at hfree
          exact absurd rfl hfree
        · rfl
      cases hrun
      exact .widened c l₃ rfl (by omega) hcf hj.symm hroom _ rfl
  · rcases hmal : malloc sbrk n h with _ | ⟨np, h₁⟩
    · rw [hmal] at hrun
      cases hrun
    · rw [hmal] at hrun
      dsimp only at hrun
      by_cases h0 : np = 0
      · rw [if_pos h0] at hrun
        cases hrun
        exact .refused _ (halloc _ _ (h0 ▸ hmal))
      · rw [if_neg h0] at hrun
        split at hrun
        · cases hrun
          exact .moved (by omega) _ h0 h₁ (halloc _ _ hmal) _ rfl
        · cases hrun

/-- The payload of a block lies outside all headers. -/
theorem Shape.outside (hS : Shape h l) (hb : b ∈ l) {i : ℕ} (h1 : b.addr + 16 ≤ i) (h2 : i < b.stop) :
    ∀ c ∈ l, i < c.addr ∨ c.addr + 16 ≤ i := by
  intro c hc
  rcases hS.ordered.apart hb hc with rfl | h3 | h3
  · exact Or.inr h1
  · exact Or.inl (h2.trans_le h3)
  · have := (hS.ok b hb).stop
    unfold Blk.stop at *
    exact Or.inr (by omega)

section Moved

variable {t : Blk} {h₁ : Heap} {l' : List Blk} (ht : Taken l p h₁ l' t) (hb : b ∈ l) (hu : b.free = false)
  (hfit : want ≤ t.size)

include ht hb hu hfit

theorem copied_eq : copyLoop b.addr want p (b.addr + 16) want 0 h₁.mem = fun x =>
    if p ≤ x ∧ x < p + min b.size want then h₁.mem (b.addr + 16 + (x - p)) else h₁.mem x := by
  have hclear := ht.clear b hb hu
  have hptr := ht.ptr
  unfold Blk.stop at hclear
  exact copyLoop_eq (ht.shape.size_eq (ht.stay b hb hu)) rfl (Nat.zero_le _) (by omega) (by omega) (by omega)

theorem moved_shape : ∃ l₂, Shape
      (free (b.addr + 16) { h₁ with mem := copyLoop b.addr want p (b.addr + 16) want 0 h₁.mem }) l₂ ∧ t ∈ l₂ ∧
    (∀ c ∈ l, c.free = false → c ≠ b → c ∈ l₂) ∧ ∀ i, (∀ c ∈ l', i < c.addr ∨ c.addr + 16 ≤ i) →
      (free (b.addr + 16) { h₁ with mem := copyLoop b.addr want p (b.addr + 16) want 0 h₁.mem }).mem
        i = copyLoop b.addr want p (b.addr + 16) want 0 h₁.mem i := by
  have hb' := ht.stay b hb hu
  have hptr := ht.ptr
  have hcopied : Shape { h₁ with mem := copyLoop b.addr want p (b.addr + 16) want 0 h₁.mem } l' := by
    refine ht.shape.congr fun c hc i h1 h2 => ?_
    rw [copied_eq ht hb hu hfit]
    refine if_neg fun hi => ?_
    have hout := ht.shape.outside ht.mem (i := i) (by omega) (by unfold Blk.stop; omega) c hc
    omega
  obtain ⟨l₃, l₄, hl'⟩ := List.append_of_mem hb'
  rw [hl'] at hcopied
  have hne : t ≠ b := by
    rintro rfl
    have := ht.clear t hb hu
    unfold Blk.stop at this
    omega
  have hin : ∀ c ∈ l', c.free = false → c ≠ b → c ∈ merge (l₃ ++ { b with free := true } :: l₄) := by
    intro c hc hcu hcb
    rw [hl'] at hc
    refine mem_merge ?_ hcu
    simp only [List.mem_append, List.mem_cons] at hc ⊢
    rcases hc with hc | hc | hc
    · exact Or.inl hc
    · exact absurd hc hcb
    · exact Or.inr (Or.inr hc)
  refine ⟨_, free_shape hcopied, hin t ht.mem ht.used hne, fun c hc hcu => hin c (ht.stay c hc hcu) hcu, fun i hi => ?_⟩
  rw [hl'] at hi
  exact free_same hcopied hi

end Moved

end ComputerOS.Malloc
