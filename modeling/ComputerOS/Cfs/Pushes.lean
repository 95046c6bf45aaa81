import ComputerOS.Cfs.Store

/-!
Blocks pushed one by one onto an inode without extents. The extents cover the blocks in order as
long as no 32-bit count wraps, that is unless 2³² of the block numbers follow each other.
-/
namespace ComputerOS.Cfs

open M Bytes Function

/-- The inode covers the blocks of the list, for a reader and when its data is freed. -/
structure Covers (d : DInode) (bs : List ℕ) : Prop where
  extents : d.nextents ≤ CFS_INLINE_EXTENTS
  mapped : ∀ i (h : i < bs.length), mapFileblock d i = bs[i]
  past : ∀ i, bs.length ≤ i → mapFileblock d i = 0
  freed : inodeFreeData d = (do freeAll bs; pure ((d.setNextents 0).setSize 0))

def consecutive (b n : ℕ) : List ℕ := (List.range n).map fun k => (b + k) % 2 ^ 64

/-- 2³² of the block numbers follow each other. -/
def LongRun (bs : List ℕ) : Prop := ∃ b, consecutive b (2 ^ 32) <:+: bs

def BlockNumbers (bs : List ℕ) : Prop := ∀ b ∈ bs, b ≠ 0 ∧ b < 2 ^ 64

/-- An extent list as pushes build it. -/
structure PushedOn (d : DInode) : Prop where
  extents : d.nextents ≤ 12
  noHoles : d.NoHoles

structure EndsAt (d : DInode) (last b : ℕ) : Prop where
  nextents : d.nextents = last + 1
  next : (d.extentStart last + d.extentCount last) % 2 ^ 64 = b % 2 ^ 64

variable {d d' : DInode} {b m n last : ℕ} {bs bs' : List ℕ}

theorem pushAll_cons (d : DInode) (b : ℕ) (bs : List ℕ) :
    pushAll d (b :: bs) = (inodePushExtent d b 1).bind fun d => pushAll d bs := by
  rw [pushAll]
  cases inodePushExtent d b 1 with
  | none => rfl
  | some d => rfl

theorem length_consecutive (b n : ℕ) : (consecutive b n).length = n := by simp [consecutive]

theorem consecutive_succ (b n : ℕ) : consecutive b (n + 1) = b % 2 ^ 64 :: consecutive (b + 1) n := by
  rw [consecutive, List.range_succ_eq_map, List.map_cons, List.map_map, Nat.add_zero, consecutive]
  refine congrArg _ (List.map_congr_left fun k _ => ?_)
  change (b + (k + 1)) % 2 ^ 64 = (b + 1 + k) % 2 ^ 64
  rw [Nat.add_right_comm, Nat.add_assoc]

theorem consecutive_snoc (b n : ℕ) : consecutive b (n + 1) = consecutive b n ++ [(b + n) % 2 ^ 64] := by
  rw [consecutive, List.range_succ, List.map_append, List.map_singleton, consecutive]

theorem extentBlocks_eq (hne : d.extentStart last ≠ 0) :
    d.extentBlocks last = consecutive (d.extentStart last) (d.extentCount last) := if_neg hne

theorem blocks_snoc (hlast : d.nextents = last + 1) :
    d.blocks = (List.range last).flatMap d.extentBlocks ++ d.extentBlocks last := by
  rw [DInode.blocks, hlast, List.range_succ, List.flatMap_append, List.flatMap_singleton]

theorem PushedOn.push (hd : PushedOn d) (hb : b ≠ 0) (hb' : b < 2 ^ 64) (h : inodePushExtent d b 1 = some d') :
    PushedOn d' :=
  ⟨(inodePushExtent_nextents hd.extents h).1, inodePushExtent_noHoles hd.extents hb hb' hd.noHoles
  h⟩

/-- With a count of 0 the last extent covers nothing. -/
theorem wrapped_blocks (hn : d.nextents ≤ 12) (hlast : d.nextents = last + 1)
    (hcount : d.extentCount last + 1 = 2 ^ 32) :
    (d.setExtentCount last (d.extentCount last + 1)).blocks = (List.range last).flatMap d.extentBlocks := by
  have hnext : (d.setExtentCount last (d.extentCount last + 1)).nextents = last + 1 := by
    rw [← hlast]
    exact getLE_setLE_ne _ (by omega)
  have hzero : (d.setExtentCount last (d.extentCount last + 1)).extentCount last = 0 := by
    rw [DInode.extentCount, DInode.setExtentCount, getLE_setLE_same _ _ (by omega), hcount]
    decide
  have hfront := @DInode.flatMap_extentBlocks_congr d (d.setExtentCount last (d.extentCount last + 1)) last
    fun e he => ⟨getLE_setLE_ne _ (by omega), getLE_setLE_ne _ (by omega)⟩
  have hend : (d.setExtentCount last (d.extentCount last + 1)).extentBlocks last = [] := by
    unfold DInode.extentBlocks
    rw [hzero]
    split <;> rfl
  rw [blocks_snoc hnext, hfront, hend, List.append_nil]

/-- A count that wraps leaves fewer blocks covered than were pushed. -/
theorem wrapped_length (hn : d.nextents ≤ 12) (hlast : d.nextents = last + 1) (hne : d.extentStart last ≠ 0)
    (hcount : d.extentCount last + 1 = 2 ^ 32) :
    (d.setExtentCount last (d.extentCount last + 1)).blocks.length < d.blocks.length := by
  rw [wrapped_blocks hn hlast hcount, blocks_snoc hlast, List.length_append, length_extentBlocks hne]
  omega

theorem count_or_wrap (d : DInode) (last : ℕ) : d.extentCount last + 1 < 2 ^ 32 ∨ d.extentCount last + 1 = 2 ^ 32 := by
  have h : d.extentCount last < 256 ^ 4 := getLE_lt d _ 4
  omega

theorem EndsAt.push (he : EndsAt d last b) (hd : PushedOn d) :
    inodePushExtent d (b % 2 ^ 64) 1 = some (d.setExtentCount last (d.extentCount last + 1)) :=
  inodePushExtent_last he.nextents (hd.noHoles last (by rw [he.nextents]; omega)) he.next

theorem EndsAt.next_push (he : EndsAt d last b) (hd : PushedOn d) (hfits : d.extentCount last + 1 < 2 ^ 32) :
    EndsAt (d.setExtentCount last (d.extentCount last + 1)) last (b + 1) ∧
      (d.setExtentCount last (d.extentCount last + 1)).extentCount last = d.extentCount last + 1 := by
  have hn := hd.extents
  have hlast := he.nextents
  have hnext := he.next
  have hstart : (d.setExtentCount last (d.extentCount last + 1)).extentStart last = d.extentStart last :=
    getLE_setLE_ne _ (by omega)
  have hcount : (d.setExtentCount last (d.extentCount last + 1)).extentCount last = d.extentCount last + 1 := by
    rw [DInode.extentCount, DInode.setExtentCount, getLE_setLE_same _ _ (by omega)]
    exact Nat.mod_eq_of_lt (by omega)
  refine ⟨⟨?_, ?_⟩, hcount⟩
  · rw [← hlast]
    exact getLE_setLE_ne _ (by omega)
  · rw [hstart, hcount]
    omega

/-- A push covers one block more, and its number is the last one, or it covers less than it should.
-/
theorem PushedOn.push_cases (hd : PushedOn d) (hb : b ≠ 0) (hb' : b < 2 ^ 64) (h : inodePushExtent d b 1 = some d') :
    (d'.blocks = d.blocks ++ [b] ∧ ∃ last, EndsAt d' last (b + 1) ∧ 1 ≤ d'.extentCount last) ∨
      d'.blocks.length < d.blocks.length + 1 := by
  rcases inodePushExtent_cases h with ⟨last, hlast, hne, heq, rfl⟩ | ⟨hlt, rfl⟩
  · have hn := hd.extents
    rcases count_or_wrap d last with hfits | hwrap
    · have he : EndsAt d last b := ⟨hlast, by rw [heq, Nat.mod_eq_of_lt hb']⟩
      obtain ⟨he', hcount⟩ := he.next_push hd hfits
      refine Or.inl ⟨inodePushExtent_append hn hb hb' (fun last' hlast' _ _ => ?_) h, last, he', by omega⟩
      obtain rfl : last' = last := by omega
      exact hfits
    · have := wrapped_length hn hlast hne hwrap
      exact Or.inr (by omega)
  · have hn := hd.extents
    have hstart : (((d.setExtentStart d.nextents b).setExtentCount d.nextents 1).setNextents
      (d.nextents + 1)).extentStart
        d.nextents = b := by
      rw [DInode.extentStart, DInode.setNextents, getLE_setLE_ne _ (by omega), DInode.setExtentCount,
        getLE_setLE_ne _ (by omega), DInode.setExtentStart, getLE_setLE_same _ _ (by omega)]
      exact Nat.mod_eq_of_lt (by omega)
    have hcount : (((d.setExtentStart d.nextents b).setExtentCount d.nextents 1).setNextents
      (d.nextents + 1)).extentCount
        d.nextents = 1 := by
      rw [DInode.extentCount, DInode.setNextents, getLE_setLE_ne _ (by omega),
        DInode.setExtentCount, getLE_setLE_same _ _ (by omega)]
      rfl
    refine Or.inl ⟨inodePushExtent_append hn hb hb' (fun last hlast hne heq => ?_) h, d.nextents, ⟨?_, ?_⟩, ?_⟩
    · -- a block behind the last extent would have been added to it
      rw [inodePushExtent_last hlast hne heq] at h
      have hsame := congrArg (fun d => d.getLE 56 4) (Option.some.inj h)
      have hold : (d.setExtentCount last (d.extentCount last + 1)).getLE 56 4 = d.nextents :=
        getLE_setLE_ne _ (by omega)
      have hnew : (((d.setExtentStart d.nextents b).setExtentCount d.nextents 1).setNextents
          (d.nextents + 1)).getLE 56 4 = d.nextents + 1 := by
        rw [DInode.setNextents, getLE_setLE_same _ _ (by omega)]
        exact Nat.mod_eq_of_lt (by omega)
      omega
    · rw [DInode.nextents, DInode.setNextents, getLE_setLE_same _ _ (by omega)]
      exact Nat.mod_eq_of_lt (by omega)
    · rw [hstart, hcount]
    · rw [hcount]

theorem PushedOn.pushAll_length (hd : PushedOn d) (hbs : BlockNumbers bs) (h : pushAll d bs = some d') :
    PushedOn d' ∧ d'.blocks.length ≤ d.blocks.length + bs.length := by
  induction bs generalizing d with
  | nil =>
    cases h
    exact ⟨hd, le_refl _⟩
  | cons b bs ih =>
    rw [pushAll_cons] at h
    obtain ⟨d₁, hpush, hrest⟩ := Option.bind_eq_some_iff.1 h
    obtain ⟨hb, hbs⟩ := List.forall_mem_cons.1 hbs
    obtain ⟨hd', hle⟩ := ih (hd.push hb.1 hb.2 hpush) hbs hrest
    refine ⟨hd', ?_⟩
    rw [List.length_cons]
    rcases hd.push_cases hb.1 hb.2 hpush with ⟨heq, -⟩ | hlt
    · rw [heq, List.length_append, List.length_singleton] at hle
      omega
    · omega

theorem pushAll_append (d : DInode) (bs bs' : List ℕ) :
    pushAll d (bs ++ bs') = (pushAll d bs).bind fun d => pushAll d bs' := by
  induction bs generalizing d with
  | nil => rfl
  | cons b bs ih =>
    rw [List.cons_append, pushAll_cons, pushAll_cons, Option.bind_assoc]
    exact congrArg _ (funext ih)

/-- Consecutive blocks are added to the last extent until its count wraps. -/
theorem PushedOn.run_cases (hd : PushedOn d) (he : EndsAt d last b) (hbs : BlockNumbers (consecutive b n))
    (h : pushAll d (consecutive b n) = some d') :
    (d'.extentCount last = d.extentCount last + n) ∨ d'.blocks.length < d.blocks.length + n := by
  induction n generalizing d b with
  | zero =>
    cases h
    exact Or.inl rfl
  | succ n ih =>
    rw [consecutive_succ] at hbs h
    rw [pushAll_cons] at h
    obtain ⟨d₁, hpush, hrest⟩ := Option.bind_eq_some_iff.1 h
    obtain ⟨hb, hbs⟩ := List.forall_mem_cons.1 hbs
    have hd₁ := hd.push hb.1 hb.2 hpush
    have hne := hd.noHoles last (by rw [he.nextents]; omega)
    rw [he.push hd] at hpush
    obtain rfl := Option.some.inj hpush
    have hn := hd.extents
    have hlast := he.nextents
    rcases count_or_wrap d last with hfits | hwrap
    · obtain ⟨he₁, hcount⟩ := he.next_push hd hfits
      have hlen : (d.setExtentCount last (d.extentCount last + 1)).blocks.length ≤ d.blocks.length + 1 := by
        have hone : pushAll d [b % 2 ^ 64] = some (d.setExtentCount last (d.extentCount last + 1)) := by
          rw [pushAll, he.push hd]
          rfl
        exact (hd.pushAll_length (List.forall_mem_singleton.2 hb) hone).2
      rcases ih hd₁ he₁ hbs hrest with h | h
      · exact Or.inl (by omega)
      · exact Or.inr (by omega)
    · have hlt := wrapped_length hn hlast hne hwrap
      have hle := (hd₁.pushAll_length hbs hrest).2
      rw [length_consecutive] at hle
      exact Or.inr (by omega)

theorem PushedOn.longRun_length (hd : PushedOn d) (hbs : BlockNumbers bs) (hrun : LongRun bs)
    (h : pushAll d bs = some d') :
    d'.blocks.length < d.blocks.length + bs.length := by
  obtain ⟨b, pre, post, rfl⟩ := hrun
  obtain ⟨n, hn⟩ : ∃ n, 2 ^ 32 = n + 1 := ⟨2 ^ 32 - 1, by omega⟩
  rw [hn, consecutive_succ] at hbs h ⊢
  have hpre : BlockNumbers pre := fun x hx => hbs x (by simp [hx])
  have hhead := hbs (b % 2 ^ 64) (by simp)
  have hmid : BlockNumbers (consecutive (b + 1) n) := fun x hx => hbs x (by simp [hx])
  have hpost : BlockNumbers post := fun x hx => hbs x (by simp [hx])
  rw [pushAll_append, pushAll_append] at h
  obtain ⟨d₃, h₃, hpushed₃⟩ := Option.bind_eq_some_iff.1 h
  obtain ⟨d₁, h₁, h⟩ := Option.bind_eq_some_iff.1 h₃
  rw [pushAll_cons] at h
  obtain ⟨d₂, h₂, hpushed₂⟩ := Option.bind_eq_some_iff.1 h
  obtain ⟨hd₁, hle₁⟩ := hd.pushAll_length hpre h₁
  have hd₂ := hd₁.push hhead.1 hhead.2 h₂
  obtain ⟨hd₃, hle₃⟩ := hd₂.pushAll_length hmid hpushed₂
  obtain ⟨-, hle₄⟩ := hd₃.pushAll_length hpost hpushed₃
  rw [length_consecutive] at hle₃
  rw [List.length_append, List.length_append, List.length_cons, length_consecutive]
  rcases hd₁.push_cases hhead.1 hhead.2 h₂ with ⟨heq, last, he, hcount⟩ | hlt
  · rw [heq, List.length_append, List.length_singleton] at hle₃
    have he' : EndsAt d₂ last (b + 1) := ⟨he.nextents, by rw [he.next]; omega⟩
    rcases hd₂.run_cases he' hmid hpushed₂ with hfull | hlt
    · have hbound : d₃.extentCount last < 256 ^ 4 := getLE_lt d₃ _ 4
      omega
    · rw [heq, List.length_append, List.length_singleton] at hlt
      omega
  · omega

theorem PushedOn.pushAll_blocks (hd : PushedOn d) (hbs : BlockNumbers bs) (hrun : ¬ LongRun (d.blocks ++ bs))
    (h : pushAll d bs = some d') : d'.blocks = d.blocks ++ bs := by
  induction bs generalizing d with
  | nil =>
    cases h
    rw [List.append_nil]
  | cons b bs ih =>
    rw [pushAll_cons] at h
    obtain ⟨d₁, hpush, hrest⟩ := Option.bind_eq_some_iff.1 h
    obtain ⟨hb, hbs⟩ := List.forall_mem_cons.1 hbs
    have happend : d₁.blocks = d.blocks ++ [b] := by
      refine inodePushExtent_append hd.extents hb.1 hb.2 (fun last hlast hne heq => ?_) hpush
      rcases count_or_wrap d last with hfits | hwrap
      · exact hfits
      · refine absurd ⟨d.extentStart last, (List.range last).flatMap d.extentBlocks, bs, ?_⟩ hrun
        rw [← hwrap, consecutive_snoc, heq, blocks_snoc hlast, extentBlocks_eq hne]
        simp
    have hrun₁ : ¬ LongRun (d₁.blocks ++ bs) := by
      rwa [happend, List.append_assoc, List.singleton_append]
    rw [ih (hd.push hb.1 hb.2 hpush) hbs hrun₁ hrest, happend, List.append_assoc, List.singleton_append]

theorem covers_of_blocks (hd : PushedOn d) (h : d.blocks = bs) : Covers d bs where
  extents := hd.extents
  mapped i hi := by rw [mapFileblock_eq hd.noHoles, h, List.getD_eq_getElem]
  past i hi := by rw [mapFileblock_eq hd.noHoles, h, List.getD_eq_default _ _ hi]
  freed := by rw [inodeFreeData_eq, h]

theorem not_covers_of_length (hd : PushedOn d) (hbs : BlockNumbers bs)
    (hlt : d.blocks.length < bs.length) : ¬ Covers d bs := by
  intro hc
  have hmap := hc.mapped d.blocks.length hlt
  rw [mapFileblock_eq hd.noHoles, List.getD_eq_default _ _ (le_refl _)] at hmap
  exact (hbs _ (List.getElem_mem hlt)).1 hmap.symm

theorem pushedOn_empty (hd : d.nextents = 0) : PushedOn d ∧ d.blocks = [] := by
  refine ⟨⟨by omega, fun e he => absurd he (by omega)⟩, ?_⟩
  rw [DInode.blocks, hd]
  rfl

/-- The blocks are read and freed as they were pushed exactly when no 2³² of them follow each other.
-/
theorem covers_iff (hd : d.nextents = 0) (hbs : BlockNumbers bs) (h : pushAll d bs = some d') :
    Covers d' bs ↔ ¬ LongRun bs := by
  obtain ⟨hpushed, hblocks⟩ := pushedOn_empty hd
  have hd' := (hpushed.pushAll_length hbs h).1
  constructor
  · intro hc hrun
    have hlt := hpushed.longRun_length hbs hrun h
    rw [hblocks, List.length_nil, Nat.zero_add] at hlt
    exact not_covers_of_length hd' hbs hlt hc
  · intro hrun
    refine covers_of_blocks hd' ?_
    rw [hpushed.pushAll_blocks hbs (by rwa [hblocks]) h, hblocks, List.nil_append]

def noExtents : DInode := Bytes.zero

theorem PushedOn.run_some (hd : PushedOn d) (he : EndsAt d last b) (hbs : BlockNumbers (consecutive b n))
    (hcount : d.extentCount last + n ≤ 2 ^ 32) : ∃ d', pushAll d (consecutive b n) = some d' := by
  induction n generalizing d b with
  | zero => exact ⟨d, rfl⟩
  | succ n ih =>
    rw [consecutive_succ] at hbs ⊢
    obtain ⟨hb, hbs⟩ := List.forall_mem_cons.1 hbs
    have hpush := he.push hd
    rw [pushAll, hpush]
    rcases count_or_wrap d last with hfits | hwrap
    · obtain ⟨he₁, hcount₁⟩ := he.next_push hd hfits
      exact ih (hd.push hb.1 hb.2 hpush) he₁ hbs (by omega)
    · obtain rfl : n = 0 := by omega
      exact ⟨_, rfl⟩

/-- From an inode without extents every run of up to 2³² blocks is taken. -/
theorem firstRun_some (hd : d.nextents = 0) (hn : n ≤ 2 ^ 32) (hbs : BlockNumbers (consecutive b n)) :
    ∃ d', pushAll d (consecutive b n) = some d' := by
  cases n with
  | zero => exact ⟨d, rfl⟩
  | succ n =>
    rw [consecutive_succ] at hbs ⊢
    obtain ⟨hb, hbs⟩ := List.forall_mem_cons.1 hbs
    obtain ⟨hpushed, hblocks⟩ := pushedOn_empty hd
    have hpush : inodePushExtent d (b % 2 ^ 64) 1 =
        some (((d.setExtentStart d.nextents (b % 2 ^ 64)).setExtentCount d.nextents 1).setNextents
        (d.nextents + 1)) := by
      unfold inodePushExtent
      dsimp only
      rw [if_neg fun h => absurd h.1 (by omega), if_neg (by unfold CFS_INLINE_EXTENTS; omega)]
    have happend := inodePushExtent_append hpushed.extents hb.1 hb.2
      (fun last hlast _ _ => absurd hlast (by omega)) hpush
    rw [pushAll, hpush]
    rcases hpushed.push_cases hb.1 hb.2 hpush with ⟨-, last, he, -⟩ | hlt
    · have hd₁ := hpushed.push hb.1 hb.2 hpush
      have hcount := congrArg List.length happend
      rw [blocks_snoc he.nextents, List.length_append,
        length_extentBlocks (hd₁.noHoles last (by rw [he.nextents]; omega)), hblocks] at hcount
      simp only [List.nil_append, List.length_singleton] at hcount
      refine hd₁.run_some ⟨he.nextents, ?_⟩ hbs (by omega)
      rw [he.next]
      omega
    · rw [happend, List.length_append, List.length_singleton] at hlt
      omega

theorem noExtents_nextents : noExtents.nextents = 0 := getLE_zero _ _

theorem blockNumbers_consecutive (hn : n ≤ 2 ^ 32) : BlockNumbers (consecutive 1 n) := by
  intro x hx
  obtain ⟨k, hk, rfl⟩ := List.mem_map.1 hx
  have := List.mem_range.1 hk
  omega

/-- Ten blocks are pushed onto an inode without extents and read back. -/
theorem tenBlocks_covers : ∃ d', pushAll noExtents (consecutive 1 10) = some d' ∧ Covers d' (consecutive 1 10) := by
  obtain ⟨d', h⟩ := firstRun_some (b := 1) (n := 10) noExtents_nextents (by omega) (blockNumbers_consecutive (by omega))
  refine ⟨d', h, (covers_iff noExtents_nextents (blockNumbers_consecutive (by omega)) h).2 fun hrun => ?_⟩
  obtain ⟨b, hb⟩ := hrun
  have hle := hb.length_le
  rw [length_consecutive, length_consecutive] at hle
  omega

/-- The pushes of 2³² blocks that follow each other succeed, but the inode does not cover them. -/
theorem longFile_not_covered : ¬ ∀ (d d' : DInode) (bs : List ℕ), d.nextents = 0 → BlockNumbers bs →
    pushAll d bs = some d' → Covers d' bs := by
  intro hall
  have hbs := blockNumbers_consecutive (le_refl (2 ^ 32))
  obtain ⟨hpushed, hblocks⟩ := pushedOn_empty noExtents_nextents
  obtain ⟨d', h⟩ := firstRun_some noExtents_nextents (le_refl _) hbs
  have hlt := hpushed.longRun_length hbs ⟨1, List.infix_refl _⟩ h
  rw [hblocks, List.length_nil, Nat.zero_add] at hlt
  exact not_covers_of_length (hpushed.pushAll_length hbs h).1 hbs hlt (hall _ _ _ noExtents_nextents hbs h)

end ComputerOS.Cfs
