import ComputerOS.Cfs.Calm

/-!
The allocators. The three nested loops look at the bits of a bitmap in increasing
order, so a block or inode they return is the first clear one of its range.
-/
namespace ComputerOS.Cfs

open M Bytes Function

/-- The scan passes over index `x`: below the range, or in use. -/
def Passed (lo : ℕ) (bits : ℕ → Bool) (x : ℕ) : Prop := x < lo ∨ bits x = true

/-- What a scan of the indices from `a` on, up to `z`, may answer. -/
def ScanSpec (lo hi : ℕ) (bits : ℕ → Bool) (a z : ℕ) : Scan → Prop
  | .found b => a ≤ b ∧ b < z ∧ lo ≤ b ∧ b < hi ∧ bits b = false ∧
      ∀ x, a ≤ x → x < b → Passed lo bits x
  | .full => ∀ x, a ≤ x → x < hi → Passed lo bits x
  | .next => ∀ x, a ≤ x → x < z → Passed lo bits x

theorem ScanSpec.extend {lo hi a m z : ℕ} {bits : ℕ → Bool} {r : Scan} (ham : a ≤ m)
    (h : ∀ x, a ≤ x → x < m → Passed lo bits x) (hr : ScanSpec lo hi bits m z r) :
    ScanSpec lo hi bits a z r := by
  cases r with
  | found b =>
    obtain ⟨h1, h2, h3, h4, h5, h6⟩ := hr
    refine ⟨by omega, h2, h3, h4, h5, fun x hx hxb => ?_⟩
    by_cases hm : x < m
    · exact h x hx hm
    · exact h6 x (by omega) hxb
  | full =>
    intro x hx hxz
    by_cases hm : x < m
    · exact h x hx hm
    · exact hr x (by omega) hxz
  | next =>
    intro x hx hxz
    by_cases hm : x < m
    · exact h x hx hm
    · exact hr x (by omega) hxz

theorem scanBits_spec {lo hi base j n : ℕ} {byte : UInt8} {bits : ℕ → Bool}
    (hbits : ∀ k, j ≤ k → k < j + n → bits (base + k) = byte.toBitVec.getLsbD k) :
    ScanSpec lo hi bits (base + j) (base + (j + n)) (scanBits lo hi byte base (List.range' j n)) := by
  induction n generalizing j with
  | zero => exact fun x h1 h2 => absurd h1 (by omega)
  | succ n ih =>
    have hrest := @ih (j + 1) (fun k h1 h2 => hbits k (by omega) (by omega))
    rw [show j + 1 + n = j + (n + 1) by omega] at hrest
    have hhere := hbits j (by omega) (by omega)
    rw [List.range'_succ, scanBits]
    split
    · exact fun x h1 h2 => absurd h2 (by omega)
    · split
      · next hlo =>
        refine ScanSpec.extend (by omega) (fun x h1 h2 => ?_) hrest
        exact Or.inl (by omega)
      · split
        · next hclear =>
          exact ⟨by omega, by omega, by omega, by omega, by rw [hhere, hclear],
            fun x h1 h2 => absurd h1 (by omega)⟩
        · next hset =>
          refine ScanSpec.extend (by omega) (fun x h1 h2 => ?_) hrest
          have hx : x = base + j := by omega
          refine Or.inr ?_
          rw [hx, hhere]
          simpa using hset

theorem bit_of_byte (buf : Block) {i j : ℕ} (hj : j < 8) :
    buf.bit (8 * i + j) = (buf.byte i).toBitVec.getLsbD j := by
  rw [bit, show (8 * i + j) / 8 = i by omega, show (8 * i + j) % 8 = j by omega]

theorem getLsbD_ff {j : ℕ} (hj : j < 8) : (0xFF : UInt8).toBitVec.getLsbD j = true := by
  revert j
  decide

theorem scanBytes_spec {lo hi base i n : ℕ} {buf : Block} {bits : ℕ → Bool}
    (hbits : ∀ k, 8 * i ≤ k → k < 8 * (i + n) → bits (base + k) = buf.bit k) :
    ScanSpec lo hi bits (base + 8 * i) (base + 8 * (i + n))
      (scanBytes lo hi buf base (List.range' i n)) := by
  induction n generalizing i with
  | zero => exact fun x h1 h2 => absurd h1 (by omega)
  | succ n ih =>
    have hrest := @ih (i + 1) (fun k h1 h2 => hbits k (by omega) (by omega))
    rw [show i + 1 + n = i + (n + 1) by omega] at hrest
    rw [List.range'_succ, scanBytes]
    split
    · next hff =>
      refine ScanSpec.extend (by omega) (fun x h1 h2 => ?_) hrest
      obtain ⟨j, rfl⟩ : ∃ j, x = base + (8 * i + j) := ⟨x - (base + 8 * i), by omega⟩
      refine Or.inr ?_
      rw [hbits _ (by omega) (by omega), bit_of_byte buf (by omega), hff]
      exact getLsbD_ff (by omega)
    · have hbyte := @scanBits_spec lo hi (base + 8 * i) 0 8 (buf.byte i) bits (fun k _ h2 => by
        rw [show base + 8 * i + k = base + (8 * i + k) by omega, hbits _ (by omega) (by omega),
          bit_of_byte buf (by omega)])
      rw [← List.range_eq_range'] at hbyte
      rcases hscan : scanBits lo hi (buf.byte i) (base + 8 * i) (List.range 8) with b | _ | _
      · rw [hscan] at hbyte
        obtain ⟨h1, h2, h3⟩ := hbyte
        exact ⟨by omega, by omega, h3⟩
      · rw [hscan] at hbyte
        exact fun x h1 h2 => hbyte x (by omega) h2
      · rw [hscan] at hbyte
        refine ScanSpec.extend (by omega) (fun x h1 h2 => ?_) hrest
        exact hbyte x (by omega) (by omega)

def bitAt (V : ℕ → Block) (region x : ℕ) : Bool := (V (region + x / 32768)).bit (x % 32768)

theorem blockBytes_eq : ∃ n, n = 4096 ∧ blockBytes = List.range' 0 n := by
  have h : ∀ n, List.range n = List.range' 0 n := fun n => List.range_eq_range'
  refine ⟨4096, rfl, ?_⟩
  unfold blockBytes
  exact h 4096

theorem scanBlock_spec (V : ℕ → Block) (region lo hi bb : ℕ) :
    ScanSpec lo hi (bitAt V region) (bb * 32768) (bb * 32768 + 32768)
      (scanBytes lo hi (V (region + bb)) (bb * 32768) blockBytes) := by
  obtain ⟨n, hn, hbytes⟩ := blockBytes_eq
  have h := @scanBytes_spec lo hi (bb * 32768) 0 n (V (region + bb)) (bitAt V region)
    (fun k _ h2 => by
      rw [bitAt, show (bb * 32768 + k) / 32768 = bb by omega,
        show (bb * 32768 + k) % 32768 = k by omega])
  rw [show bb * 32768 + 8 * 0 = bb * 32768 by omega,
    show bb * 32768 + 8 * (0 + n) = bb * 32768 + 32768 by omega] at h
  rwa [hbytes]

/-- The state with other free counts. -/
def St.withCounts (s : St) (c : ℕ × ℕ) : St :=
  { s with fs := { s.fs with freeBlocks := c.1, freeInodes := c.2 } }

theorem vol_withCounts (s : St) (c : ℕ × ℕ) : (s.withCounts c).vol = s.vol.setFree c := rfl

theorem Step.withCounts (g : Geom) (s : St) (c : ℕ × ℕ) : Step g s (s.withCounts c) :=
  ⟨rfl, rfl, rfl, rfl, rfl, id, fun _ _ => id⟩

def FirstFree (lo hi : ℕ) (bits : ℕ → Bool) (b : ℕ) : Prop :=
  lo ≤ b ∧ b < hi ∧ bits b = false ∧ ∀ x, lo ≤ x → x < b → bits x = true

/-- What follows the scan once it has found bit `b` of a bitmap block with the contents `buf`. -/
def takeBit (region b : ℕ) (buf : Block) (count : Fs → ℕ × ℕ) : M ℕ := do
  match ← attempt (bdWriteBlock (region + b / 32768) (buf.setBit (b % 32768) true)) with
  | none => pure 0
  | some _ => do
      setCounts count
      pure b

/-- The scan ends at the first clear bit, or with 0 when there is none. -/
theorem allocBit_search {s : St} (hr : s.ReadsOk) (region lo hi : ℕ) (count : Fs → ℕ × ℕ) (bb n : ℕ)
    (hcover : hi ≤ (bb + n) * 32768)
    (hpassed : ∀ x, x < bb * 32768 → Passed lo (bitAt s.view region) x) :
    ((allocBit region lo hi count (List.range' bb n)).run s = (some 0, s) ∧
      ∀ x, lo ≤ x → x < hi → bitAt s.view region x = true) ∨
    (∃ b, FirstFree lo hi (bitAt s.view region) b ∧
      (allocBit region lo hi count (List.range' bb n)).run s =
        (takeBit region b (s.view (region + b / 32768)) count).run s) := by
  induction n generalizing bb with
  | zero =>
    refine Or.inl ⟨rfl, fun x hx1 hx2 => ?_⟩
    exact (hpassed x (by omega)).resolve_left (by omega)
  | succ n ih =>
    have hread := bdReadBlock_run hr (region + bb)
    have hspec := scanBlock_spec s.view region lo hi bb
    rw [List.range'_succ, allocBit, bind_of_some (attempt_run _ s), hread]
    dsimp only
    rcases hscan : scanBytes lo hi (s.view (region + bb)) (bb * 32768) blockBytes with b | _ | _
    · rw [hscan] at hspec
      obtain ⟨h1, h2, h3, h4, h5, h6⟩ := hspec
      have hbb : b / 32768 = bb := by omega
      refine Or.inr ⟨b, ⟨h3, h4, h5, fun x hx1 hx2 => ?_⟩, ?_⟩
      · have hp : Passed lo (bitAt s.view region) x := by
          by_cases hx : x < bb * 32768
          · exact hpassed x hx
          · exact h6 x (by omega) hx2
        exact hp.resolve_left (by omega)
      · subst hbb
        rfl
    · rw [hscan] at hspec
      refine Or.inl ⟨rfl, fun x hx1 hx2 => ?_⟩
      have hp : Passed lo (bitAt s.view region) x := by
        by_cases hx : x < bb * 32768
        · exact hpassed x hx
        · exact hspec x (by omega) hx2
      exact hp.resolve_left (by omega)
    · rw [hscan] at hspec
      have hcover' : hi ≤ (bb + 1 + n) * 32768 := by
        rwa [show bb + 1 + n = bb + (n + 1) from Nat.succ_add_eq_add_succ bb n]
      refine ih (bb + 1) hcover' fun x hx => ?_
      by_cases hx' : x < bb * 32768
      · exact hpassed x hx'
      · exact hspec x (by omega) (by omega)

/-- An allocation returns 0 when every bit of its range is set or the buffer is full, and
changes nothing the core sees; otherwise it takes the first clear bit. -/
theorem allocBit_spec {s : St} (hr : s.ReadsOk) (ha : s.txnActive = true) (region lo hi : ℕ)
    (count : Fs → ℕ × ℕ) (bb n : ℕ)
    (hcover : hi ≤ (bb + n) * 32768)
    (hpassed : ∀ x, x < bb * 32768 → Passed lo (bitAt s.view region) x) :
    (∃ s', (allocBit region lo hi count (List.range' bb n)).run s = (some 0, s') ∧
      ((s' = s ∧ ∀ x, lo ≤ x → x < hi → bitAt s.view region x = true) ∨
        s' = { s with lost := true })) ∨
    (∃ b, lo ≤ b ∧ b < hi ∧ bitAt s.view region b = false ∧
      (∀ x, lo ≤ x → x < b → bitAt s.view region x = true) ∧
      (allocBit region lo hi count (List.range' bb n)).run s = (some b,
        (s.buffer (region + b / 32768) ((s.view (region + b / 32768)).setBit (b % 32768)
          true)).withCounts (count s.fs))) := by
  rcases allocBit_search hr region lo hi count bb n hcover hpassed with ⟨hrun, hfull⟩ | ⟨b, hfirst, hrun⟩
  · exact Or.inl ⟨s, hrun, Or.inl ⟨rfl, hfull⟩⟩
  · rcases bdWriteBlock_cases ha (region + b / 32768)
      ((s.view (region + b / 32768)).setBit (b % 32768) true) with hw | hw
    · refine Or.inr ⟨b, hfirst.1, hfirst.2.1, hfirst.2.2.1, hfirst.2.2.2, hrun.trans ?_⟩
      rw [takeBit, bind_of_some (attempt_run _ s), hw]
      rfl
    · refine Or.inl ⟨{ s with lost := true }, hrun.trans ?_, Or.inr rfl⟩
      rw [takeBit, bind_of_some (attempt_run _ s), hw]
      rfl

namespace Vol

/-- Mark a free block as used, with its free count. -/
def takeBlock (v : Vol) (b : ℕ) : Vol :=
  { v with bbit := update v.bbit b true, freeBlocks := dec64 v.freeBlocks }

def giveBlock (v : Vol) (b : ℕ) : Vol :=
  { v with bbit := update v.bbit b false, freeBlocks := inc64 v.freeBlocks }

def takeInode (v : Vol) (n : ℕ) : Vol :=
  { v with ibit := update v.ibit n true, freeInodes := dec64 v.freeInodes }

def giveInode (v : Vol) (n : ℕ) : Vol :=
  { v with ibit := update v.ibit n false, freeInodes := inc64 v.freeInodes }

end Vol

section Specs

variable {g : Geom} {s s' : St} (hg : g.Wf) (hs : s.InTxn g)

theorem bbm_not_data (hg : g.Wf) {b : ℕ} (hb : b < g.totalBlocks) :
    ¬ g.IsData (g.blockBitmapStart + b / 32768) := by
  rintro ⟨h1, _⟩
  have h2 := hg.blockBitmap
  have h3 := hg.inodeBitmap
  have h4 := hg.inodeTable
  omega

theorem ibm_not_data (hg : g.Wf) {n : ℕ} (hn : n < g.totalInodes) :
    ¬ g.IsData (g.inodeBitmapStart + n / 32768) := by
  rintro ⟨h1, _⟩
  have h3 := hg.inodeBitmap
  have h4 := hg.inodeTable
  omega

theorem setCounts_run (c : Fs → ℕ × ℕ) (s : St) :
    (setCounts c).run s = (some (), s.withCounts (c s.fs)) := rfl

theorem bitSet_cases (hs : s.InTxn g) {region idx : ℕ} (val : Bool)
    (hmeta : ¬ g.IsData (region + idx / 32768)) :
    ∃ s', Step g s s' ∧
      (((bitSet region idx val).run s = (some (), s') ∧ s' = s.buffer (region + idx / 32768)
        ((s.view (region + idx / 32768)).setBit (idx % 32768) val)) ∨
       ((bitSet region idx val).run s = (none, s') ∧ s'.vol = s.vol ∧ s'.lost = true)) := by
  have hrun : (bitSet region idx val).run s = (bdWriteBlock (region + idx / 32768)
      ((s.view (region + idx / 32768)).setBit (idx % 32768) val)).run s := by
    rw [bitSet]
    exact bind_of_some (bdReadBlock_run hs.reads _)
  rcases bdWriteBlock_cases hs.active (region + idx / 32768)
    ((s.view (region + idx / 32768)).setBit (idx % 32768) val) with h | h
  · exact ⟨_, Step.buffer _ hmeta, Or.inl ⟨hrun.trans h, rfl⟩⟩
  · exact ⟨_, Step.setLost, Or.inr ⟨hrun.trans h, rfl, rfl⟩⟩

include hg hs

theorem allocBlock_spec {r : Option ℕ} (h : allocBlock.run s = (r, s')) :
    ∃ b, r = some b ∧ Step g s s' ∧
      ((b = 0 ∧ s'.vol = s.vol ∧ (s'.lost = true ∨ ∀ x, g.IsData x → s.vol.bbit x = true)) ∨
       (b ≠ 0 ∧ g.IsData b ∧ s.vol.bbit b = false ∧
        (∀ x, g.dataStart ≤ x → x < b → s.vol.bbit x = true) ∧
        s'.vol = s.vol.takeBlock b)) := by
  obtain ⟨⟨rfl, hr⟩, ha⟩ := hs
  have hbit : ∀ x, x < s.fs.totalBlocks →
      s.vol.bbit x = bitAt s.view s.fs.blockBitmapStart x := by
    intro x hx
    simp [St.vol, Fs.image, hx, bitAt]
  have hpos : 0 < s.fs.dataStart := by
    have h1 := hg.super
    have h2 := hg.blockBitmap
    have h3 := hg.inodeBitmap
    have h4 := hg.inodeTable
    omega
  rw [allocBlock, bind_of_some (getFs_run s), bmblocks_eq (by have := hg.sectors; omega),
    bitmapBlocks, List.range_eq_range'] at h
  rcases allocBit_spec hr ha s.fs.blockBitmapStart s.fs.dataStart s.fs.totalBlocks
    (fun fs => (dec64 fs.freeBlocks, fs.freeInodes)) 0 ((s.fs.totalBlocks + 32767) / 32768)
    (by omega) (fun x hx => absurd hx (by omega)) with ⟨s1, hrun, hs1⟩ | ⟨b, h1, h2, h3, h4, hrun⟩
  · obtain ⟨rfl, rfl⟩ := Prod.mk.inj (hrun.symm.trans h)
    rcases hs1 with ⟨rfl, hset⟩ | rfl
    · refine ⟨0, rfl, Step.refl _ s1, Or.inl ⟨rfl, rfl, Or.inr ?_⟩⟩
      rintro x ⟨hx1, hx2⟩
      rw [hbit x hx2]
      exact hset x hx1 hx2
    · exact ⟨0, rfl, Step.setLost, Or.inl ⟨rfl, rfl, Or.inl rfl⟩⟩
  · obtain ⟨rfl, rfl⟩ := Prod.mk.inj (hrun.symm.trans h)
    refine ⟨b, rfl, ?_, Or.inr ⟨by omega, ⟨h1, h2⟩, ?_, ?_, ?_⟩⟩
    · exact Step.trans (Step.buffer _ (bbm_not_data hg h2)) (Step.withCounts _ _ _)
    · rw [hbit b h2, h3]
    · intro x hx1 hx2
      rw [hbit x (by omega)]
      exact h4 x hx1 hx2
    · rw [vol_withCounts, vol_buffer ha, image_update_bbit hg h2]
      rfl

theorem allocInode_spec {r : Option ℕ} (h : allocInode.run s = (r, s')) :
    ∃ n, r = some n ∧ Step g s s' ∧
      ((n = 0 ∧ s'.vol = s.vol) ∨
       (2 ≤ n ∧ n < g.totalInodes ∧ s.vol.ibit n = false ∧ s'.vol = s.vol.takeInode n)) := by
  obtain ⟨⟨rfl, hr⟩, ha⟩ := hs
  rw [allocInode, bind_of_some (getFs_run s), bmblocks_eq (by have := hg.tableBytes; omega),
    bitmapBlocks, List.range_eq_range'] at h
  rcases allocBit_spec hr ha s.fs.inodeBitmapStart 2 s.fs.totalInodes
    (fun fs => (fs.freeBlocks, dec64 fs.freeInodes)) 0 ((s.fs.totalInodes + 32767) / 32768)
    (by omega) (fun x hx => absurd hx (by omega)) with ⟨s1, hrun, hs1⟩ | ⟨n, h1, h2, h3, _, hrun⟩
  · obtain ⟨rfl, rfl⟩ := Prod.mk.inj (hrun.symm.trans h)
    rcases hs1 with ⟨rfl, -⟩ | rfl
    · exact ⟨0, rfl, Step.refl _ s1, Or.inl ⟨rfl, rfl⟩⟩
    · exact ⟨0, rfl, Step.setLost, Or.inl ⟨rfl, rfl⟩⟩
  · obtain ⟨rfl, rfl⟩ := Prod.mk.inj (hrun.symm.trans h)
    refine ⟨n, rfl, ?_, Or.inr ⟨h1, h2, ?_, ?_⟩⟩
    · exact Step.trans (Step.buffer _ (ibm_not_data hg h2)) (Step.withCounts _ _ _)
    · simp only [bitAt] at h3
      simp [St.vol, Fs.image, h2, h3]
    · rw [vol_withCounts, vol_buffer ha, image_update_ibit hg h2]
      rfl

/-- `free_block` of a data block clears its bit, unless the buffer is full. -/
theorem freeBlock_spec (b : ℕ) :
    ∃ s', (freeBlock b).run s = (some (), s') ∧ Step g s s' ∧
      ((¬ g.IsData b ∧ s'.vol = s.vol) ∨ (g.IsData b ∧ s'.vol = s.vol.giveBlock b) ∨
       (s'.vol = s.vol ∧ s'.lost = true)) := by
  have hs' := hs
  obtain ⟨⟨rfl, hr⟩, ha⟩ := hs
  rw [freeBlock, bind_of_some (getFs_run s)]
  by_cases hb : s.fs.IsData b
  · have hin : ¬ (b < s.fs.dataStart ∨ s.fs.totalBlocks ≤ b) := by
      obtain ⟨hlo, hhi⟩ := hb
      omega
    rw [if_neg hin, bind_of_some (attempt_run _ s)]
    obtain ⟨s1, hstep, ⟨hrun, rfl⟩ | ⟨hrun, hvol, hlost⟩⟩ :=
      bitSet_cases hs' false (bbm_not_data hg hb.2)
    · rw [hrun]
      refine ⟨_, setCounts_run _ _, hstep.trans (Step.withCounts _ _ _), Or.inr (Or.inl ⟨hb, ?_⟩)⟩
      rw [vol_withCounts, vol_buffer ha, image_update_bbit hg hb.2]
      rfl
    · rw [hrun]
      exact ⟨s1, rfl, hstep, Or.inr (Or.inr ⟨hvol, hlost⟩)⟩
  · have hout : b < s.fs.dataStart ∨ s.fs.totalBlocks ≤ b := by
      unfold Geom.IsData at hb
      omega
    rw [if_pos hout]
    exact ⟨s, rfl, Step.refl _ s, Or.inl ⟨hb, rfl⟩⟩

/-- `free_inode` of an inode other than the root clears its bit, unless the buffer is full. -/
theorem freeInode_spec {n : ℕ} (hn : 2 ≤ n) (hlt : n < g.totalInodes) :
    ∃ s', (freeInode n).run s = (some (), s') ∧ Step g s s' ∧
      (s'.vol = s.vol.giveInode n ∨ (s'.vol = s.vol ∧ s'.lost = true)) := by
  have hs' := hs
  obtain ⟨⟨rfl, hr⟩, ha⟩ := hs
  have hin : ¬ (n < 2 ∨ s.fs.totalInodes ≤ n) := by omega
  rw [freeInode, bind_of_some (getFs_run s), if_neg hin, bind_of_some (attempt_run _ s)]
  obtain ⟨s1, hstep, ⟨hrun, rfl⟩ | ⟨hrun, hvol, hlost⟩⟩ :=
    bitSet_cases hs' false (ibm_not_data hg hlt)
  · rw [hrun]
    refine ⟨_, setCounts_run _ _, hstep.trans (Step.withCounts _ _ _), Or.inl ?_⟩
    rw [vol_withCounts, vol_buffer ha, image_update_ibit hg hlt]
    rfl
  · rw [hrun]
    exact ⟨s1, rfl, hstep, Or.inr ⟨hvol, hlost⟩⟩

end Specs

end ComputerOS.Cfs
