import ComputerOS.Cfs.Alloc

/-!
The allocators on any bitmap and geometry. With no failing access they take the first clear bit of
their range, unless the number of bitmap blocks wraps to 0.
-/
namespace ComputerOS.Cfs

open M Bytes Function

/-- No access fails from here on, and the transaction has room for a block. -/
structure St.NoFailingIo (s : St) : Prop where
  reads : s.ReadsOk
  writes : s.WritesOk
  room : s.txnActive = true → s.txn.length < CFS_MAX_TXN

def SetsBit (region b : ℕ) (V V' : ℕ → Block) : Prop :=
  ∀ blk, ∀ k < 32768, (V' blk).bit k = if blk = region + b / 32768 ∧
  k = b % 32768 then true else (V blk).bit k

/-- `alloc` takes the first clear bit of `[lo, hi)`, which leaves the mount structure `fs'`, or
returns 0. -/
structure FirstFit (alloc : M ℕ) (region lo hi : ℕ) (fs' : Fs) (s : St) : Prop where
  takes : ∀ b, FirstFree lo hi (bitAt s.view region) b →
    ∃ s', alloc.run s = (some b, s') ∧ SetsBit region b s.view s'.view ∧ s'.fs = fs'
  full : alloc.run s = (some 0, s) ↔ ∀ x, lo ≤ x → x < hi → bitAt s.view region x = true
  zero : (alloc.run s).1 = some 0 → (alloc.run s).2 = s

/-- `nbits + BS * 8 - 1` does not wrap. -/
def Counted (nbits : ℕ) : Prop := nbits + 32767 < 2 ^ 64

instance (nbits : ℕ) : Decidable (Counted nbits) := Nat.decLt _ _

variable {s : St} {region lo hi n : ℕ} {count : Fs → ℕ × ℕ}

theorem bdWriteBlock_view (hio : s.NoFailingIo) (b : ℕ) (v : Block) :
    ∃ s', (bdWriteBlock b v).run s = (some (), s') ∧ s'.view = update s.view b v ∧ s'.fs = s.fs := by
  by_cases ha : s.txnActive = true
  · refine ⟨s.buffer b v, ?_, view_buffer ha b v, rfl⟩
    rw [bdWriteBlock_eq, if_pos ha, if_neg fun h => absurd (hio.room ha) (Nat.not_lt.2 h.2)]
    rfl
  · refine ⟨{ s with disk := update s.disk b v, wr := fun i => s.wr (i + 1) }, ?_, ?_, rfl⟩
    · rw [bdWriteBlock_eq, if_neg ha, rawWriteBlock_run, hio.writes]
    · have hdisk : s.view = s.disk := funext fun x => if_neg ha
      rw [hdisk]
      exact funext fun x => if_neg ha

theorem takeBit_run (hio : s.NoFailingIo) (region b : ℕ) (count : Fs → ℕ × ℕ) :
    ∃ s', (takeBit region b (s.view (region + b / 32768)) count).run s = (some b, s') ∧
      SetsBit region b s.view s'.view ∧
      s'.fs = { s.fs with freeBlocks := (count s.fs).1, freeInodes := (count s.fs).2 } := by
  obtain ⟨s₁, hrun, hview, hfs⟩ :=
    bdWriteBlock_view hio (region + b / 32768) ((s.view (region + b / 32768)).setBit (b % 32768) true)
  refine ⟨s₁.withCounts (count s₁.fs), ?_, fun blk k hk => ?_, ?_⟩
  · rw [takeBit, bind_of_some (attempt_run _ s), hrun]
    rfl
  · change (s₁.view blk).bit k = _
    rw [hview]
    by_cases hblk : blk = region + b / 32768
    · subst hblk
      rw [update_self, bit_setBit _ _ (by omega)]
      by_cases hk : b % 32768 = k
      · rw [if_pos hk, if_pos ⟨rfl, hk.symm⟩]
      · rw [if_neg hk, if_neg fun h => hk h.2.symm]
    · rw [update_of_ne hblk, if_neg fun h => hblk h.1]
  · unfold St.withCounts
    rw [hfs]

theorem allocBit_firstFit (hio : s.NoFailingIo) (hlo : 1 ≤ lo) (hcover : hi ≤ n * 32768) :
    FirstFit (allocBit region lo hi count (List.range n)) region lo hi
      { s.fs with freeBlocks := (count s.fs).1, freeInodes := (count s.fs).2 } s := by
  rw [List.range_eq_range']
  rcases allocBit_search hio.reads region lo hi count 0 n (by rwa [Nat.zero_add])
    (fun x hx => absurd hx (by omega)) with
    ⟨hrun, hfull⟩ | ⟨b, hfirst, hrun⟩
  · refine ⟨fun b hb => ?_, ⟨fun _ => hfull, fun _ => hrun⟩, fun _ => by rw [hrun]⟩
    have hset := hfull b hb.1 hb.2.1
    rw [hb.2.2.1] at hset
    cases hset
  · obtain ⟨s', htake, hsets, hfs⟩ := takeBit_run hio region b count
    have hne : (some b : Option ℕ) ≠ some 0 := fun h => by
      have := Option.some.inj h
      have := hfirst.1
      omega
    refine ⟨fun b' hb' => ?_, ⟨fun h => ?_, fun h => ?_⟩, fun h => ?_⟩
    · obtain rfl : b = b' := by
        rcases lt_trichotomy b b' with hlt | heq | hlt
        · have := hb'.2.2.2 b hfirst.1 hlt
          rw [hfirst.2.2.1] at this
          cases this
        · exact heq
        · have := hfirst.2.2.2 b' hb'.1 hlt
          rw [hb'.2.2.1] at this
          cases this
      exact ⟨s', hrun.trans htake, hsets, hfs⟩
    · rw [hrun, htake] at h
      exact absurd (congrArg Prod.fst h) hne
    · have := h b hfirst.1 hfirst.2.1
      rw [hfirst.2.2.1] at this
      cases this
    · rw [hrun, htake] at h
      exact absurd h hne

/-- A scan of no block finds nothing. -/
theorem firstFit_nil (fs' : Fs) :
    FirstFit (allocBit region lo hi count []) region lo hi fs' s ↔ ∀ x, lo ≤ x → x < hi →
    bitAt s.view region x = true := by
  refine ⟨fun h => h.full.1 rfl, fun hfull => ⟨fun b hb => ?_, ⟨fun _ => hfull, fun _ => rfl⟩, fun _ => rfl⟩⟩
  have hset := hfull b hb.1 hb.2.1
  rw [hb.2.2.1] at hset
  cases hset

/-- Without blocks to look at, `alloc_block` and `alloc_inode` return 0. -/
theorem bmblocks_wraps (hn : n < 2 ^ 64) (hwrap : ¬ Counted n) : bmblocks n = [] := by
  unfold Counted at hwrap
  rw [bmblocks, show (n + 32767) % 2 ^ 64 / 32768 = 0 by omega]
  rfl

theorem firstFit_iff (hio : s.NoFailingIo) (hlo : 1 ≤ lo) (hhi : hi < 2 ^ 64) :
    FirstFit (allocBit region lo hi count (bmblocks hi)) region lo hi
        { s.fs with freeBlocks := (count s.fs).1, freeInodes := (count s.fs).2 } s ↔
      Counted hi ∨ ∀ x, lo ≤ x → x < hi → bitAt s.view region x = true := by
  by_cases hc : Counted hi
  · refine ⟨fun _ => Or.inl hc, fun _ => ?_⟩
    rw [bmblocks_eq hc]
    exact allocBit_firstFit hio hlo (by omega)
  · rw [bmblocks_wraps hhi hc, firstFit_nil]
    exact ⟨Or.inr, fun h => h.resolve_left hc⟩

theorem FirstFit.congr {alloc alloc' : M ℕ} {fs' : Fs} (hrun : alloc'.run s = alloc.run s) :
    FirstFit alloc' region lo hi fs' s ↔ FirstFit alloc region lo hi fs' s := by
  constructor
  · rintro ⟨htakes, hfull, hzero⟩
    rw [hrun] at hfull hzero
    exact ⟨fun b hb => hrun ▸ htakes b hb, hfull, hzero⟩
  · rintro ⟨htakes, hfull, hzero⟩
    rw [← hrun] at hfull hzero
    exact ⟨fun b hb => hrun ▸ htakes b hb, hfull, hzero⟩

/-- `alloc_block` and `alloc_inode` are first fit exactly when the number of bitmap blocks does not
wrap, or nothing is free. -/
theorem allocators_firstFit_iff (hio : s.NoFailingIo) (hdata : 1 ≤ s.fs.dataStart) (hblocks : s.fs.totalBlocks < 2 ^ 64)
    (hinodes : s.fs.totalInodes < 2 ^ 64) :
    (FirstFit allocBlock s.fs.blockBitmapStart s.fs.dataStart s.fs.totalBlocks
        { s.fs with freeBlocks := dec64 s.fs.freeBlocks } s ↔
      Counted s.fs.totalBlocks ∨
        ∀ x, s.fs.dataStart ≤ x → x < s.fs.totalBlocks → bitAt s.view s.fs.blockBitmapStart x = true) ∧
    (FirstFit allocInode s.fs.inodeBitmapStart 2 s.fs.totalInodes { s.fs with freeInodes := dec64 s.fs.freeInodes } s ↔
      Counted s.fs.totalInodes ∨ ∀ x, 2 ≤ x → x < s.fs.totalInodes → bitAt s.view s.fs.inodeBitmapStart x = true) := by
  have hblock : allocBlock.run s = (allocBit s.fs.blockBitmapStart s.fs.dataStart s.fs.totalBlocks
      (fun fs => (dec64 fs.freeBlocks, fs.freeInodes)) (bmblocks s.fs.totalBlocks)).run s := bind_of_some (getFs_run s)
  have hinode : allocInode.run s = (allocBit s.fs.inodeBitmapStart 2 s.fs.totalInodes
      (fun fs => (fs.freeBlocks, dec64 fs.freeInodes)) (bmblocks s.fs.totalInodes)).run s := bind_of_some (getFs_run s)
  rw [FirstFit.congr hblock, FirstFit.congr hinode]
  exact ⟨firstFit_iff hio hdata hblocks, firstFit_iff hio (by omega) hinodes⟩

def emptyVolume (fs : Fs) : St where
  disk _ := Bytes.zero
  rd _ := true
  wr _ := .ok
  fs := fs
  txnActive := false
  txn := []
  txnFreeBlocks := 0
  txnFreeInodes := 0
  jseq := 0
  lost := false

theorem emptyVolume_noFailingIo (fs : Fs) : (emptyVolume fs).NoFailingIo := ⟨rfl, rfl, fun h => by cases h⟩

theorem emptyVolume_bit (fs : Fs) (region x : ℕ) : bitAt (emptyVolume fs).view region x = false := by
  unfold bitAt Bytes.bit
  rw [show (emptyVolume fs).view (region + x / 32768) = Bytes.zero from rfl, byte_zero]
  exact BitVec.getLsbD_zero

def smallFs : Fs := { (default : Fs) with
  dataStart := 1, totalBlocks := 64, totalInodes := 8, blockBitmapStart := 2, inodeBitmapStart := 3 }

theorem smallFs_firstFit :
    (emptyVolume smallFs).NoFailingIo ∧
      FirstFit allocBlock 2 1 64 { smallFs with freeBlocks := dec64 0 } (emptyVolume smallFs) ∧
      FirstFit allocInode 3 2 8 { smallFs with freeInodes := dec64 0 } (emptyVolume smallFs) :=
  have h := allocators_firstFit_iff (emptyVolume_noFailingIo smallFs) (by decide) (by decide) (by decide)
  ⟨emptyVolume_noFailingIo smallFs, h.1.2 (Or.inl (by decide)), h.2.2 (Or.inl (by decide))⟩

def hugeFs : Fs := { smallFs with totalBlocks := 0xFFFFFFFFFFFFFFFF }

theorem hugeFs_lt : hugeFs.totalBlocks < 2 ^ 64 := by decide

theorem hugeFs_bmblocks : bmblocks hugeFs.totalBlocks = [] := bmblocks_wraps hugeFs_lt (by decide)

/-- A volume that is said to have 2⁶⁴ - 1 blocks has a free one, and `alloc_block` returns 0. -/
theorem hugeVolume_not_firstFit :
    ¬ ∀ s : St, s.NoFailingIo → 1 ≤ s.fs.dataStart → s.fs.totalBlocks < 2 ^ 64 → s.fs.totalInodes < 2 ^ 64 →
      FirstFit allocBlock s.fs.blockBitmapStart s.fs.dataStart s.fs.totalBlocks
        { s.fs with freeBlocks := dec64 s.fs.freeBlocks } s ∧
      FirstFit allocInode s.fs.inodeBitmapStart 2 s.fs.totalInodes
      { s.fs with freeInodes := dec64 s.fs.freeInodes } s := by
  intro hall
  have hio := emptyVolume_noFailingIo hugeFs
  have hfull := (hall (emptyVolume hugeFs) hio (le_refl 1) hugeFs_lt (show 8 < 2 ^ 64 by decide)).1.full.1 ?_
  · have hset := hfull 1 (le_refl 1) (by decide)
    rw [emptyVolume_bit] at hset
    cases hset
  · rw [allocBlock, bind_of_some (getFs_run _)]
    change (allocBit _ _ _ _ (bmblocks hugeFs.totalBlocks)).run _ = _
    rw [hugeFs_bmblocks]
    rfl

end ComputerOS.Cfs
