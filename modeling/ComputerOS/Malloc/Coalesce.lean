import ComputerOS.Malloc.Model

/-!
The pass of `free` over the blocks. It joins a free block with the free block behind it, and goes on
behind both. So the block that has grown is not compared with its new neighbour, and of three free
blocks in a row the first two become one and the third stays.
-/
namespace ComputerOS.Malloc

open Mem

variable {m : Mem} {h : Heap} {a b c d x : Blk} {nx : ℕ} {l l₀ l₁ l₂ : List Blk}

/-- Two free blocks, where the first one ends and the second one starts at the same address. -/
def Joins (b c : Blk) : Prop := b.free = true ∧ c.free = true ∧ b.stop = c.addr

instance (b c : Blk) : Decidable (Joins b c) := inferInstanceAs (Decidable (_ ∧ _))

/-- The block that `b` becomes when it takes in the block `c` behind it. -/
def joined (b c : Blk) : Blk := { b with size := u32 (b.size + (16 + c.size)) }

/-- What the pass leaves of the list. -/
def merge : List Blk → List Blk
  | b :: c :: l => if Joins b c then joined b c :: merge l else b :: merge (c :: l)
  | l => l

/-- No two blocks that touch each other are both free. -/
def Apart (l : List Blk) : Prop := ∀ b ∈ l, ∀ c ∈ l, ¬ Joins b c

theorem absorb_spec (hb : Header m b c.addr) (hc : Header m c nx) (hle : b.stop ≤ c.addr) (hn : nx < 2 ^ 64) :
    Header (absorb m b.addr) (joined b c) nx ∧ ∀ i, i < b.addr ∨ b.addr + 16 ≤ i → absorb m b.addr i = m i := by
  unfold Blk.stop at hle
  have hnext : next m b.addr = c.addr := hb.next
  have hsize : u32 (size m b.addr + (HEADER + size m (next m b.addr))) = (joined b c).size := by
    rw [hnext, hb.size, hc.size]
    rfl
  have hlt : (joined b c).size < 2 ^ 32 := Nat.mod_lt _ (by decide)
  have hgrown := hb.setSize hlt
  have hnext' : next (setSize m b.addr (joined b c).size) (next (setSize m b.addr (joined b c).size) b.addr) = nx := by
    rw [hgrown.next, next, getLE_setLE_ne _ (by omega)]
    exact hc.next
  unfold absorb
  rw [hsize]
  dsimp only
  rw [hnext']
  refine ⟨hgrown.setNext hn, fun i hi => ?_⟩
  rw [setNext, setLE_ne _ (by omega), setSize, setLE_ne _ (by omega)]

theorem coalesceWithNext_eq (hb : Header m b c.addr) (hc : Header m c nx) (hok : b.Ok) (hpos : 0 < c.addr) :
    coalesceWithNext m b.addr = if Joins b c then absorb m b.addr else m := by
  have hnext : next m b.addr = c.addr := hb.next
  have hend : u64 (b.addr + HEADER + size m b.addr) = b.stop := by
    rw [hb.size]
    exact Nat.mod_eq_of_lt hok.stop
  have hfree : (isFree m b.addr = 0 ∨ next m b.addr = 0 ∨ isFree m (next m b.addr) = 0) ↔
    ¬ (b.free = true ∧ c.free = true) := by
    rw [hnext, hb.free, hc.free]
    cases b.free <;> cases c.free <;> simp [hpos.ne']
  unfold coalesceWithNext
  by_cases hboth : b.free = true ∧ c.free = true
  · rw [if_neg (fun h => hfree.mp h hboth), hend, hnext]
    by_cases hstop : b.stop = c.addr
    · rw [if_neg (not_not.mpr hstop.symm), if_pos ⟨hboth.1, hboth.2, hstop⟩]
    · rw [if_pos (Ne.symm hstop), if_neg fun hj => hstop hj.2.2]
  · rw [if_pos (hfree.mpr hboth), if_neg fun hj => hboth ⟨hj.1, hj.2.1⟩]

theorem joined_stop (hj : b.stop = c.addr) : (joined b c).stop ≤ c.stop := by
  unfold Blk.stop at *
  have : (joined b c).size ≤ b.size + (16 + c.size) := Nat.mod_le _ _
  change b.addr + 16 + (joined b c).size ≤ _
  omega

theorem joined_ok (hb : b.Ok) (hc : c.Ok) (hj : b.stop = c.addr) : (joined b c).Ok :=
  ⟨hb.pos, (joined_stop hj).trans_lt hc.stop, Nat.mod_lt _ (by decide)⟩

theorem headAddr_merge (l : List Blk) (e : ℕ) : headAddr (merge l) e = headAddr l e := by
  unfold merge
  split
  · split <;> rfl
  · rfl

/-- A block stays behind what stood before it, and the list keeps its order. -/
theorem merge_keeps (ho : Ordered l) (hok : ∀ b ∈ l, b.Ok) : Ordered (merge l) ∧
    (∀ b ∈ merge l, b.Ok) ∧ ∀ z, (∀ b ∈ l, z ≤ b.addr) → ∀ b ∈ merge l, z ≤ b.addr := by
  induction l using merge.induct with
  | case1 b c l hj ih =>
    obtain ⟨hb, hc, ho⟩ : (∀ d ∈ c :: l, b.stop ≤ d.addr) ∧ (∀ d ∈ l, c.stop ≤ d.addr) ∧ Ordered l := by
      obtain ⟨hb, hcl⟩ := List.pairwise_cons.mp ho
      exact ⟨hb, List.pairwise_cons.mp hcl⟩
    obtain ⟨ho', hok', hge'⟩ := ih ho fun d hd => hok d (by simp [hd])
    rw [merge, if_pos hj]
    refine ⟨List.pairwise_cons.mpr ⟨fun d hd => ?_, ho'⟩, fun d hd => ?_, fun z hz d hd => ?_⟩
    · exact (joined_stop hj.2.2).trans (hge' _ hc d hd)
    · rcases List.mem_cons.mp hd with rfl | hd
      · exact joined_ok (hok b (by simp)) (hok c (by simp)) hj.2.2
      · exact hok' d hd
    · rcases List.mem_cons.mp hd with rfl | hd
      · exact hz b (by simp)
      · exact hge' z (fun x hx => hz x (by simp [hx])) d hd
  | case2 b c l hj ih =>
    obtain ⟨hb, ho⟩ := List.pairwise_cons.mp ho
    obtain ⟨ho', hok', hge'⟩ := ih ho fun d hd => hok d (List.mem_cons_of_mem b hd)
    rw [merge, if_neg hj]
    refine ⟨List.pairwise_cons.mpr ⟨fun d hd => hge' _ hb d hd, ho'⟩, fun d hd => ?_, fun z hz d hd => ?_⟩
    · rcases List.mem_cons.mp hd with rfl | hd
      · exact hok d (by simp)
      · exact hok' d hd
    · rcases List.mem_cons.mp hd with rfl | hd
      · exact hz d (by simp)
      · exact hge' z (fun x hx => hz x (List.mem_cons_of_mem b hx)) d hd
  | case3 l hl =>
    have heq : merge l = l := by
      unfold merge
      split
      · exact absurd rfl (hl _ _ _)
      · rfl
    rw [heq]
    exact ⟨ho, hok, fun z hz => hz⟩

/-- The pass turns the blocks into `merge` of them, and changes nothing outside their headers. -/
theorem coalesce_eq (hl : Linked m l 0) (ho : Ordered l) (hok : ∀ b ∈ l, b.Ok) {fuel : ℕ} (hf : l.length ≤ fuel) :
    Linked (coalesce fuel m (headAddr l 0)) (merge l) 0 ∧
    ∀ i, (∀ b ∈ l, i < b.addr ∨ b.addr + 16 ≤ i) → coalesce fuel m (headAddr l 0) i = m i := by
  induction l using merge.induct generalizing m fuel with
  | case1 b c l hj ih =>
    obtain ⟨hb, hc, hl⟩ : Header m b c.addr ∧ Header m c (headAddr l 0) ∧ Linked m l 0 := hl
    have hokb := hok b (by simp)
    have hokc := hok c (by simp)
    have hokl : ∀ d ∈ l, d.Ok := fun d hd => hok d (by simp [hd])
    obtain ⟨hbl, hcl, hol⟩ : (∀ d ∈ c :: l, b.stop ≤ d.addr) ∧ (∀ d ∈ l, c.stop ≤ d.addr) ∧ Ordered l := by
      obtain ⟨hbl, hcl⟩ := List.pairwise_cons.mp ho
      exact ⟨hbl, List.pairwise_cons.mp hcl⟩
    obtain ⟨hhdr, hout⟩ := absorb_spec hb hc hj.2.2.le (headAddr_lt hokl)
    obtain ⟨fuel, rfl⟩ : ∃ k, fuel = k + 1 := ⟨fuel - 1, by simp at hf; omega⟩
    have hrun : coalesce (fuel + 1) m (headAddr (b :: c :: l) 0) = coalesce fuel (absorb m b.addr) (headAddr l 0) := by
      change coalesce (fuel + 1) m b.addr = _
      rw [coalesce, if_pos ⟨hokb.pos.ne', by rw [hb.next]; exact hokc.pos.ne'⟩,
        coalesceWithNext_eq hb hc hokb hokc.pos, if_pos hj]
      dsimp only
      rw [show next (absorb m b.addr) b.addr = headAddr l 0 from hhdr.next]
    have hpast : ∀ d ∈ l, b.addr + 16 ≤ d.addr := by
      intro d hd
      have := hbl d (List.mem_cons_of_mem c hd)
      unfold Blk.stop at this
      omega
    have hl' : Linked (absorb m b.addr) l 0 := hl.congr fun d hd i hi _ => hout i (Or.inr ((hpast d hd).trans hi))
    obtain ⟨hlink, hsame⟩ := ih hl' hol hokl (by simp only [List.length_cons] at hf; omega : l.length ≤ fuel)
    rw [hrun, merge, if_pos hj]
    refine ⟨⟨?_, hlink⟩, fun i hi => ?_⟩
    · rw [headAddr_merge]
      refine hhdr.congr fun i _ hi => hsame i fun d hd => Or.inl ?_
      exact hi.trans_le (hpast d hd)
    · rw [hsame i fun d hd => hi d (by simp [hd])]
      exact hout i (hi b (by simp))
  | case2 b c l hj ih =>
    obtain ⟨hb, hc, hl⟩ : Header m b c.addr ∧ Header m c (headAddr l 0) ∧ Linked m l 0 := hl
    have hokb := hok b (by simp)
    have hokc := hok c (by simp)
    obtain ⟨hbl, hol⟩ := List.pairwise_cons.mp ho
    obtain ⟨fuel, rfl⟩ : ∃ k, fuel = k + 1 := ⟨fuel - 1, by simp at hf; omega⟩
    have hrun : coalesce (fuel + 1) m (headAddr (b :: c :: l) 0) = coalesce fuel m (headAddr (c :: l) 0) := by
      change coalesce (fuel + 1) m b.addr = _
      rw [coalesce, if_pos ⟨hokb.pos.ne', by rw [hb.next]; exact hokc.pos.ne'⟩,
        coalesceWithNext_eq hb hc hokb hokc.pos, if_neg hj]
      dsimp only
      rw [show next m b.addr = headAddr (c :: l) 0 from hb.next]
    obtain ⟨hlink, hsame⟩ := ih ⟨hc, hl⟩ hol (fun d hd => hok d (List.mem_cons_of_mem b hd)) (Nat.le_of_succ_le_succ hf)
    rw [hrun, merge, if_neg hj]
    refine ⟨⟨?_, hlink⟩, fun i hi => hsame i fun d hd => hi d (List.mem_cons_of_mem b hd)⟩
    rw [headAddr_merge]
    refine hb.congr fun i _ hi => hsame i fun d hd => Or.inl ?_
    have := hbl d hd
    unfold Blk.stop at this
    omega
  | case3 l hshort =>
    -- at most one block is left, and the loop stops
    rcases l with _ | ⟨b, _ | ⟨c, l⟩⟩
    · cases fuel with
      | zero => exact ⟨trivial, fun _ _ => rfl⟩
      | succ fuel =>
        rw [show coalesce (fuel + 1) m (headAddr [] 0) = m from if_neg fun h => h.1 rfl]
        exact ⟨trivial, fun _ _ => rfl⟩
    · obtain ⟨fuel, rfl⟩ : ∃ k, fuel = k + 1 := ⟨fuel - 1, by simp at hf; omega⟩
      rw [show coalesce (fuel + 1) m (headAddr [b] 0) = m from if_neg fun h => h.2 hl.1.next]
      exact ⟨hl, fun _ _ => rfl⟩
    · exact absurd rfl (hshort b c l)

theorem shape_coalesce (hS : Shape h l) {fuel : ℕ} (hf : l.length ≤ fuel) :
    Shape { h with mem := coalesce fuel h.mem h.head } (merge l) := by
  obtain ⟨ho, hok, -⟩ := merge_keeps hS.ordered hS.ok
  have hrun := (coalesce_eq hS.linked hS.ordered hS.ok hf).1
  rw [← hS.head] at hrun
  exact ⟨hS.head.trans (headAddr_merge l 0).symm, hrun, ho, hok⟩

/-- A block of a heap stands between the blocks before it and those behind it. -/
structure Middle (h : Heap) (l₁ : List Blk) (b : Blk) (l₂ : List Blk) : Prop where
  header : Header h.mem b (headAddr l₂ 0)
  ok : b.Ok
  before : ∀ c ∈ l₁, c.stop ≤ b.addr
  behind : ∀ c ∈ l₂, b.stop ≤ c.addr
  ordered₁ : Ordered l₁
  ordered₂ : Ordered l₂
  linked₁ : Linked h.mem l₁ b.addr
  linked₂ : Linked h.mem l₂ 0
  next_lt : headAddr l₂ 0 < 2 ^ 64

theorem Shape.middle (hS : Shape h (l₁ ++ b :: l₂)) : Middle h l₁ b l₂ := by
  obtain ⟨ho1, ho2, hcross⟩ := List.pairwise_append.mp hS.ordered
  obtain ⟨hb, ho2⟩ := List.pairwise_cons.mp ho2
  obtain ⟨hl1, hhdr, hl2⟩ := linked_append.mp hS.linked
  exact ⟨hhdr, hS.ok b (by simp), fun c hc => hcross c hc b List.mem_cons_self, hb, ho1, ho2, hl1,
    hl2, headAddr_lt fun c hc => hS.ok c (by simp [hc])⟩

/-- A block is replaced by blocks in its place; memory changes between its address and its end only.
-/
theorem Shape.replace {b' : Blk} {mid : List Blk} {m' : Mem} (hS : Shape h (l₁ ++ b :: l₂)) (haddr : b'.addr = b.addr)
    (hlink : Linked m' (b' :: mid) (headAddr l₂ 0)) (ho : Ordered (b' :: mid)) (hok : ∀ c ∈ b' :: mid, c.Ok)
    (hstop : ∀ c ∈ b' :: mid, b.addr ≤ c.addr ∧ c.stop ≤ b.stop)
    (hout : ∀ i, i < b.addr ∨ b.stop ≤ i → m' i = h.mem i) :
    Shape { h with mem := m' } (l₁ ++ (b' :: mid) ++ l₂) := by
  have hm := hS.middle
  refine ⟨?_, ?_, ?_, ?_⟩
  · rw [hS.head, List.append_assoc, headAddr_append, headAddr_append]
    congr 1
    exact haddr.symm
  · rw [List.append_assoc, linked_append, linked_append]
    refine ⟨?_, hlink, hm.linked₂.congr fun c hc i hi _ => hout i (Or.inr ((hm.behind c hc).trans hi))⟩
    have hhead : headAddr (b' :: mid ++ l₂) 0 = b.addr := haddr
    rw [hhead]
    refine hm.linked₁.congr fun c hc i _ hi => hout i (Or.inl ?_)
    have := hm.before c hc
    unfold Blk.stop at this
    omega
  · rw [List.append_assoc]
    refine List.pairwise_append.mpr ⟨hm.ordered₁, List.pairwise_append.mpr ⟨ho, hm.ordered₂, ?_⟩, ?_⟩
    · exact fun c hc d hd => (hstop c hc).2.trans (hm.behind d hd)
    · intro c hc d hd
      rcases List.mem_append.mp hd with hd | hd
      · exact (hm.before c hc).trans (hstop d hd).1
      · have := hm.behind d hd
        unfold Blk.stop at this
        exact (hm.before c hc).trans (by omega)
  · intro c hc
    simp only [List.mem_append] at hc
    rcases hc with (hc | hc) | hc
    · exact hS.ok c (by simp [hc])
    · exact hok c hc
    · exact hS.ok c (by simp [hc])

theorem Shape.setFree (hS : Shape h (l₁ ++ b :: l₂)) (f : Bool) :
    Shape { h with mem := Malloc.setFree h.mem b.addr f.toNat } (l₁ ++ { b with free := f } :: l₂) := by
  have hm := hS.middle
  have hok : Blk.Ok { b with free := f } := ⟨hm.ok.pos, hm.ok.stop, hm.ok.small⟩
  have hrep : Shape { h with mem := Malloc.setFree h.mem b.addr f.toNat } (l₁ ++ [{ b with free := f }] ++ l₂) :=
    hS.replace rfl ⟨hm.header.setFree f, trivial⟩ (List.pairwise_singleton _ _)
    (fun c hc => List.mem_singleton.mp hc ▸ hok)
    (fun c hc => List.mem_singleton.mp hc ▸ ⟨le_rfl, le_rfl⟩) fun i hi => setLE_ne _ (by unfold Blk.stop at hi; omega)
  simpa using hrep

theorem free_shape (hS : Shape h (l₁ ++ b :: l₂)) :
    Shape (free (b.addr + 16) h) (merge (l₁ ++ { b with free := true } :: l₂)) := by
  have hset := hS.setFree true
  have hptr : b.addr + 16 - HEADER = b.addr := Nat.add_sub_cancel _ _
  rw [free, if_neg (by omega), hptr]
  exact shape_coalesce hset hset.length_le

theorem free_same (hS : Shape h (l₁ ++ b :: l₂)) {i : ℕ} (hi : ∀ c ∈ l₁ ++ b :: l₂, i < c.addr ∨ c.addr + 16 ≤ i) :
    (free (b.addr + 16) h).mem i = h.mem i := by
  have hset := hS.setFree true
  have hptr : b.addr + 16 - HEADER = b.addr := Nat.add_sub_cancel _ _
  rw [free, if_neg (by omega), hptr]
  have hout := (coalesce_eq hset.linked hset.ordered hset.ok hset.length_le).2 i fun c hc => by
    rcases List.mem_append.mp hc with hc | hc
    · exact hi c (by simp [hc])
    · rcases List.mem_cons.mp hc with rfl | hc
      · exact hi b (by simp)
      · exact hi c (by simp [hc])
  rw [← hset.head] at hout
  have hb := hi b (by simp)
  exact hout.trans (setLE_ne _ (by omega))

theorem free_brk (h : Heap) (p : ℕ) : (free p h).brk = h.brk := by
  unfold free
  split <;> rfl

theorem joins_joined_left : Joins x (joined b c) ↔ Joins x b := Iff.rfl

/-- The block that has grown touches what its second part touched, unless its size wraps. -/
theorem joins_joined_right (hbc : Joins b c) (hd : c.stop ≤ d.addr) :
    Joins (joined b c) d ↔ Joins c d ∧ b.size + 16 + c.size < 2 ^ 32 := by
  obtain ⟨hb, hc, heq⟩ := hbc
  have hsize : (joined b c).size = (b.size + (16 + c.size)) % 2 ^ 32 := rfl
  unfold Joins Blk.stop at *
  rw [hsize]
  constructor
  · rintro ⟨-, hf, hstop⟩
    have haddr : (joined b c).addr = b.addr := rfl
    rw [haddr] at hstop
    exact ⟨⟨hc, hf, by omega⟩, by omega⟩
  · rintro ⟨⟨-, hf, hstop⟩, hlt⟩
    refine ⟨hb, hf, ?_⟩
    change b.addr + 16 + _ = _
    omega

/-- Only neighbours in the list touch each other. -/
theorem apart_cons (ho : Ordered (b :: l)) : Apart (b :: l) ↔ (∀ c ∈ l.head?, ¬ Joins b c) ∧ Apart l := by
  obtain ⟨hb, hol⟩ := List.pairwise_cons.mp ho
  constructor
  · exact fun h => ⟨fun c hc => h b List.mem_cons_self c (List.mem_cons_of_mem b (List.mem_of_mem_head? hc)),
      fun c hc d hd => h c (List.mem_cons_of_mem b hc) d (List.mem_cons_of_mem b hd)⟩
  · rintro ⟨hhead, hl⟩ c hc d hd hj
    have hstop := hj.2.2
    unfold Blk.stop at hb hstop
    rcases List.mem_cons.mp hc with hcb | hcl <;> rcases List.mem_cons.mp hd with hdb | hdl
    · rw [hcb, hdb] at hstop
      omega
    · -- a block behind the first one of `l` stands away from `b`
      rw [hcb] at hj hstop
      cases l with
      | nil => cases hdl
      | cons x l =>
        rcases List.mem_cons.mp hdl with rfl | hdl'
        · exact hhead d rfl hj
        · have h1 := hb x List.mem_cons_self
          have h2 := (List.pairwise_cons.mp hol).1 d hdl'
          unfold Blk.stop at h2
          omega
    · have := hb c hcl
      rw [hdb] at hstop
      omega
    · exact hl c hcl d hdl hj

theorem apart_iff (ho : Ordered l) : Apart l ↔ l.IsChain fun b c => ¬ Joins b c := by
  induction l with
  | nil => exact ⟨fun _ => .nil, fun _ b hb => by cases hb⟩
  | cons b l ih => rw [apart_cons ho, List.isChain_cons, ih (List.pairwise_cons.mp ho).2]

theorem merge_chain (h : l.IsChain fun b c => ¬ Joins b c) : merge l = l := by
  induction l using merge.induct with
  | case1 b c l hj ih => exact absurd hj (List.isChain_cons_cons.mp h).1
  | case2 b c l hj ih => rw [merge, if_neg hj, ih (List.isChain_cons_cons.mp h).2]
  | case3 l hl =>
    unfold merge
    split
    · exact absurd rfl (hl _ _ _)
    · rfl

/-- Before the first two blocks that join nothing happens. -/
theorem merge_append (h : (l₁ ++ [x]).IsChain fun b c => ¬ Joins b c) : merge (l₁ ++ x :: l₂) =
    l₁ ++ merge (x :: l₂) := by
  induction l₁ with
  | nil => rfl
  | cons b l₁ ih =>
    obtain ⟨hb, hrest⟩ := List.isChain_cons.mp h
    cases l₁ with
    | nil =>
      rw [List.cons_append, List.nil_append, merge, if_neg (hb x rfl)]
      rfl
    | cons c l₁ =>
      rw [List.cons_append, List.cons_append, merge, if_neg (hb c rfl)]
      exact congrArg (List.cons b) (ih hrest)

/-- The blocks on both sides of `b` are free and touch it, and the first two fit into one block. -/
def Between (l₁ : List Blk) (b : Blk) (l₂ : List Blk) : Prop :=
  ∃ a ∈ l₁.getLast?, ∃ c ∈ l₂.head?, a.free = true ∧ c.free = true ∧ a.stop = b.addr ∧
    b.stop = c.addr ∧ a.size + 16 + b.size < 2 ^ 32

theorem merge_left (h₀ : (l₀ ++ [a]).IsChain fun b c => ¬ Joins b c) (h₂ : l₂.IsChain fun b c => ¬ Joins b c)
    (hj : Joins a b) : merge (l₀ ++ a :: b :: l₂) = l₀ ++ joined a b :: l₂ := by
  rw [merge_append h₀, merge, if_pos hj, merge_chain h₂]

theorem merge_right (h₁ : (l₁ ++ [b]).IsChain fun b c => ¬ Joins b c) (h₂ : (c :: l₂).IsChain fun b c => ¬ Joins b c)
    (hj : Joins b c) : merge (l₁ ++ b :: c :: l₂) = l₁ ++ joined b c :: l₂ := by
  rw [merge_append h₁, merge, if_pos hj, merge_chain (List.isChain_cons.mp h₂).2]

/-- The pass over a list in which `b` alone may be free beside another free block. -/
theorem apart_merge_iff (hS : Shape h (l₁ ++ b :: l₂)) (hA : Apart (l₁ ++ b :: l₂)) :
    Apart (merge (l₁ ++ { b with free := true } :: l₂)) ↔ ¬ Between l₁ b l₂ := by
  obtain ⟨b', hb'⟩ : ∃ b', b' = { b with free := true } := ⟨_, rfl⟩
  have hS' := hS.setFree true
  rw [← hb'] at hS' ⊢
  have hm := hS'.middle
  obtain ⟨hc1, hc2, -⟩ := List.isChain_append.mp ((apart_iff hS.ordered).mp hA)
  have hc2' := (List.isChain_cons.mp hc2).2
  rw [apart_iff (merge_keeps hS'.ordered hS'.ok).1]
  have hleft : ∀ a, Joins a b' ↔ a.free = true ∧ a.stop = b.addr := fun a => by rw [hb']; simp [Joins]
  have hright : ∀ c, Joins b' c ↔ c.free = true ∧ b.stop = c.addr := fun c => by rw [hb']; simp [Joins]
  have hsize : b'.size = b.size := by rw [hb']
  by_cases hl : ∃ a ∈ l₁.getLast?, Joins a b'
  · obtain ⟨a, ha, hj⟩ := hl
    obtain ⟨l₀, rfl⟩ := List.getLast?_eq_some_iff.mp ha
    obtain ⟨h0, -, hcross⟩ := List.isChain_append.mp hc1
    have hchain : (l₀ ++ joined a b' :: l₂).IsChain (fun b c => ¬ Joins b c) ↔
        ∀ c ∈ l₂.head?, ¬ Joins (joined a b') c := by
      rw [List.isChain_append, List.isChain_cons]
      refine ⟨fun h => h.2.1.1, fun h => ⟨h0, ⟨h, hc2'⟩, fun x hx y hy => ?_⟩⟩
      obtain rfl : joined a b' = y := Option.some.inj hy
      exact fun hxy => hcross x hx a rfl (joins_joined_left.mp hxy)
    rw [List.append_assoc, List.singleton_append, merge_left hc1 hc2' hj, hchain]
    unfold Between
    have hfree := (hleft a).mp hj
    constructor
    · rintro h ⟨a', ha', c, hc, haf, hcf, h1, h2, h3⟩
      obtain rfl : a = a' := by simpa using ha'
      exact h c hc ((joins_joined_right hj (hm.behind c (List.mem_of_mem_head? hc))).mpr
        ⟨(hright c).mpr ⟨hcf, h2⟩, by rw [hsize]; exact h3⟩)
    · intro h c hc hjc
      obtain ⟨hj2, hlt⟩ := (joins_joined_right hj (hm.behind c (List.mem_of_mem_head? hc))).mp hjc
      obtain ⟨hcf, hcs⟩ := (hright c).mp hj2
      exact h ⟨a, by simp, c, hc, hfree.1, hcf, hfree.2, hcs, by rw [← hsize]; exact hlt⟩
  · have hno : ∀ a ∈ l₁.getLast?, ¬ Joins a b' := fun a ha hj => hl ⟨a, ha, hj⟩
    have hnot : ¬ Between l₁ b l₂ := fun ⟨a, ha, c, _, haf, _, h1, _⟩ => hno a ha ((hleft a).mpr ⟨haf, h1⟩)
    have hc1' : (l₁ ++ [b']).IsChain fun b c => ¬ Joins b c := by
      refine hc1.append (List.isChain_singleton _) fun a ha y hy => ?_
      obtain rfl : b' = y := Option.some.inj hy
      exact hno a ha
    refine iff_of_true ?_ hnot
    by_cases hr : ∃ c ∈ l₂.head?, Joins b' c
    · obtain ⟨c, hc, hj⟩ := hr
      obtain ⟨l₃, rfl⟩ := List.head?_eq_some_iff.mp hc
      obtain ⟨hc3, hc4⟩ := List.isChain_cons.mp hc2'
      rw [merge_right hc1' hc2' hj]
      refine hc1.append (List.isChain_cons.mpr ⟨fun d hd hjd => ?_, hc4⟩) fun x hx y hy => ?_
      · have hle : c.stop ≤ d.addr := (List.pairwise_cons.mp hm.ordered₂).1 d (List.mem_of_mem_head? hd)
        exact hc3 d hd ((joins_joined_right hj hle).mp hjd).1
      · obtain rfl : joined b' c = y := Option.some.inj hy
        exact fun hxy => hno x hx (joins_joined_left.mp hxy)
    · have hlist : (l₁ ++ b' :: l₂).IsChain fun b c => ¬ Joins b c := by
        rw [List.isChain_append]
        refine ⟨hc1, List.isChain_cons.mpr ⟨fun c hc hj => hr ⟨c, hc, hj⟩, hc2'⟩, fun a ha y hy => ?_⟩
        obtain rfl : b' = y := Option.some.inj hy
        exact hno a ha
      rwa [merge_chain hlist]

def Heap.Valid (h : Heap) : Prop := Shape h h.blocks

/-- After `free` no two blocks that touch each other are both free, exactly when the freed block did
not stand between two free ones. -/
theorem free_coalesces_iff (hv : h.Valid) (hsplit : h.blocks = l₁ ++ b :: l₂) (hA : Apart h.blocks) :
    Apart (free (b.addr + 16) h).blocks ↔ ¬ Between l₁ b l₂ := by
  have hS : Shape h (l₁ ++ b :: l₂) := hsplit ▸ hv
  rw [(free_shape hS).blocks_eq]
  exact apart_merge_iff hS (hsplit ▸ hA)

theorem Shape.valid (hS : Shape h l) : h.Valid := by
  rw [Heap.Valid, hS.blocks_eq]
  exact hS

/-- A block in use between two free ones. -/
def threeBlocks : List Blk := [⟨4096, 8, true⟩, ⟨4120, 8, false⟩, ⟨4144, 8, true⟩]

theorem threeBlocks_shape : Shape (heapOf threeBlocks 8192) threeBlocks :=
  shape_heapOf (by unfold Ordered; decide) (fun b hb => by
    simp only [threeBlocks, List.mem_cons, List.not_mem_nil, or_false] at hb
    rcases hb with rfl | rfl | rfl <;> exact ⟨by decide, by decide, by decide⟩) 8192

theorem free_coalesces_iff_threeBlocks : ¬ Apart (free 4136 (heapOf threeBlocks 8192)).blocks := by
  have hblocks := threeBlocks_shape.blocks_eq
  have hbetween : Between [⟨4096, 8, true⟩] ⟨4120, 8, false⟩ [⟨4144, 8, true⟩] :=
    ⟨_, rfl, _, rfl, rfl, rfl, rfl, rfl, by decide⟩
  have hsplit : (heapOf threeBlocks 8192).blocks = [⟨4096, 8, true⟩] ++ ⟨4120, 8, false⟩ :: [⟨4144, 8, true⟩] := hblocks
  have hiff := free_coalesces_iff threeBlocks_shape.valid hsplit
    (by rw [hblocks]; unfold Apart; decide)
  rw [show (⟨4120, 8, false⟩ : Blk).addr + 16 = 4136 from rfl] at hiff
  exact fun h => hiff.mp h hbetween

/-- The free blocks on both sides are not joined: the first one has grown, and the last one touches
it. -/
theorem free_leaves_neighbours : Apart (heapOf threeBlocks 8192).blocks ∧
    (⟨4120, 8, false⟩ : Blk) ∈ (heapOf threeBlocks 8192).blocks ∧
    (free 4136 (heapOf threeBlocks 8192)).blocks = [⟨4096, 32, true⟩, ⟨4144, 8, true⟩] ∧
    ¬ Apart (free 4136 (heapOf threeBlocks 8192)).blocks := by
  have hS : Shape (heapOf threeBlocks 8192)
    ([⟨4096, 8, true⟩] ++ ⟨4120, 8, false⟩ :: [⟨4144, 8, true⟩]) := threeBlocks_shape
  have hfree := (free_shape hS).blocks_eq
  rw [show (⟨4120, 8, false⟩ : Blk).addr + 16 = 4136 from rfl] at hfree
  have hmerge : merge ([⟨4096, 8, true⟩] ++ { (⟨4120, 8, false⟩ : Blk) with free := true } ::
      [⟨4144, 8, true⟩]) = [⟨4096, 32, true⟩, ⟨4144, 8, true⟩] := by decide
  rw [threeBlocks_shape.blocks_eq, hfree, hmerge]
  refine ⟨by unfold Apart; decide, by decide, rfl, by unfold Apart; decide⟩

end ComputerOS.Malloc
