import ComputerOS.Cfs.Alloc

/-!
The blocks an inode covers. An extent list is a list of block runs; pushing a block
appends it, mapping a file block looks it up, and truncation frees every one of them.
-/
namespace ComputerOS.Cfs

open M Bytes Function

namespace DInode

def extentBlocks (d : DInode) (e : ℕ) : List ℕ :=
  if d.extentStart e = 0 then []
  else (List.range (d.extentCount e)).map fun k => (d.extentStart e + k) % 2 ^ 64

/-- The blocks the extents of an inode cover, in file order. -/
def blocks (d : DInode) : List ℕ := (List.range d.nextents).flatMap d.extentBlocks

def NoHoles (d : DInode) : Prop := ∀ e < d.nextents, d.extentStart e ≠ 0

theorem mem_blocks {d : DInode} {b : ℕ} :
    b ∈ d.blocks ↔ ∃ e < d.nextents, d.extentStart e ≠ 0 ∧
      ∃ k < d.extentCount e, (d.extentStart e + k) % 2 ^ 64 = b := by
  simp only [blocks, List.mem_flatMap, List.mem_range, extentBlocks]
  constructor
  · rintro ⟨e, he, hb⟩
    split at hb
    · simp at hb
    · next hne =>
      obtain ⟨k, hk, rfl⟩ := List.mem_map.mp hb
      exact ⟨e, he, hne, k, List.mem_range.mp hk, rfl⟩
  · rintro ⟨e, he, hne, k, hk, rfl⟩
    refine ⟨e, he, ?_⟩
    rw [if_neg hne]
    exact List.mem_map.mpr ⟨k, List.mem_range.mpr hk, rfl⟩

theorem flatMap_extentBlocks_congr {d d' : DInode} {n : ℕ}
    (h : ∀ e < n, d'.extentStart e = d.extentStart e ∧ d'.extentCount e = d.extentCount e) :
    (List.range n).flatMap d'.extentBlocks = (List.range n).flatMap d.extentBlocks := by
  apply List.flatMap_congr
  intro e he
  obtain ⟨h1, h2⟩ := h e (List.mem_range.mp he)
  unfold extentBlocks
  rw [h1, h2]

theorem blocks_congr {d d' : DInode} (hn : d'.nextents = d.nextents)
    (h : ∀ e < d.nextents, d'.extentStart e = d.extentStart e ∧ d'.extentCount e = d.extentCount e) :
    d'.blocks = d.blocks := by
  unfold blocks
  rw [hn, flatMap_extentBlocks_congr h]

end DInode

theorem mapFrom_mem {d : DInode} {fb e n logical : ℕ} (h : mapFrom d fb e n logical ≠ 0)
    (hn : e + n ≤ d.nextents) (hl : logical ≤ fb) : mapFrom d fb e n logical ∈ d.blocks := by
  induction n generalizing e logical with
  | zero => exact absurd rfl h
  | succ n ih =>
    rw [mapFrom] at h ⊢
    split at h
    · next hlt =>
      rw [if_pos hlt]
      split at h
      · exact absurd rfl h
      · next hne =>
        rw [if_neg hne]
        exact DInode.mem_blocks.mpr ⟨e, by omega, hne, fb - logical, by omega, rfl⟩
    · next hge =>
      rw [if_neg hge]
      exact ih h (by omega) (by omega)

/-- A mapped block is covered. -/
theorem mapFileblock_mem {d : DInode} {fb : ℕ} (h : mapFileblock d fb ≠ 0) :
    mapFileblock d fb ∈ d.blocks :=
  mapFrom_mem h (by omega) (by omega)

theorem length_extentBlocks {d : DInode} {e : ℕ} (h : d.extentStart e ≠ 0) :
    (d.extentBlocks e).length = d.extentCount e := by
  simp [DInode.extentBlocks, h]

theorem mapFrom_eq {d : DInode} {fb e n logical : ℕ} (hd : ∀ i, e ≤ i → i < e + n → d.extentStart i ≠ 0)
    (hl : logical ≤ fb) :
    mapFrom d fb e n logical = ((List.range' e n).flatMap d.extentBlocks).getD (fb - logical) 0 := by
  induction n generalizing e logical with
  | zero => simp [mapFrom]
  | succ n ih =>
    have hne := hd e (by omega) (by omega)
    have hlen := length_extentBlocks hne
    rw [mapFrom, List.range'_succ, List.flatMap_cons]
    split
    · next hlt =>
      rw [List.getD_append _ _ _ _ (by omega)]
      simp [DInode.extentBlocks, hne, show fb - logical < d.extentCount e by omega]
    · next hge =>
      rw [ih (fun i h1 h2 => hd i (by omega) (by omega)) (by omega),
        List.getD_append_right _ _ _ _ (by omega), hlen,
        show fb - (logical + d.extentCount e) = fb - logical - d.extentCount e by omega]

/-- Without holes, file block `fb` is the covered block at that place. -/
theorem mapFileblock_eq {d : DInode} (hd : d.NoHoles) (fb : ℕ) :
    mapFileblock d fb = d.blocks.getD fb 0 := by
  have h := @mapFrom_eq d fb 0 d.nextents 0 (fun i _ h2 => hd i (by omega)) (by omega)
  rw [mapFileblock, h, DInode.blocks, List.range_eq_range', Nat.sub_zero]

section Push

variable {d d' : DInode} {b : ℕ}

/-- The two ways a block is pushed: into the last extent, or as a new one. -/
theorem inodePushExtent_cases (h : inodePushExtent d b 1 = some d') :
    (∃ last, d.nextents = last + 1 ∧ d.extentStart last ≠ 0 ∧
      (d.extentStart last + d.extentCount last) % 2 ^ 64 = b ∧
      d' = d.setExtentCount last (d.extentCount last + 1)) ∨
    (d.nextents < 12 ∧
      d' = ((d.setExtentStart d.nextents b).setExtentCount d.nextents 1).setNextents (d.nextents + 1)) := by
  unfold inodePushExtent at h
  dsimp only at h
  split at h
  · next hc =>
    obtain ⟨hpos, hne, heq⟩ := hc
    refine Or.inl ⟨d.nextents - 1, by omega, hne, heq, ?_⟩
    exact (Option.some.inj h).symm
  · split at h
    · simp at h
    · next hlt =>
      unfold CFS_INLINE_EXTENTS at hlt
      exact Or.inr ⟨by omega, (Option.some.inj h).symm⟩

theorem inodePushExtent_last {last : ℕ} (hlast : d.nextents = last + 1) (hne : d.extentStart last ≠ 0)
    (hnext : (d.extentStart last + d.extentCount last) % 2 ^ 64 = b) :
    inodePushExtent d b 1 = some (d.setExtentCount last (d.extentCount last + 1)) := by
  obtain rfl : d.nextents - 1 = last := by omega
  unfold inodePushExtent
  dsimp only
  rw [if_pos ⟨by omega, hne, hnext⟩]

/-- Pushing leaves everything before the extent count alone. -/
theorem inodePushExtent_getLE (hn : d.nextents ≤ 12) (h : inodePushExtent d b 1 = some d')
    {off w : ℕ} (hw : off + w ≤ 56) : d'.getLE off w = d.getLE off w := by
  rcases inodePushExtent_cases h with ⟨last, _, _, _, rfl⟩ | ⟨_, rfl⟩
  · rw [DInode.setExtentCount, getLE_setLE_ne _ (by omega)]
  · rw [DInode.setNextents, getLE_setLE_ne _ (by omega), DInode.setExtentCount,
      getLE_setLE_ne _ (by omega), DInode.setExtentStart, getLE_setLE_ne _ (by omega)]

theorem inodePushExtent_nextents (hn : d.nextents ≤ 12) (h : inodePushExtent d b 1 = some d') :
    d'.nextents ≤ 12 ∧ 1 ≤ d'.nextents := by
  rcases inodePushExtent_cases h with ⟨last, hlast, _, _, rfl⟩ | ⟨hlt, rfl⟩
  · rw [DInode.setExtentCount, DInode.nextents, getLE_setLE_ne _ (by omega)]
    change d.nextents ≤ 12 ∧ 1 ≤ d.nextents
    omega
  · rw [DInode.setNextents, DInode.nextents, getLE_setLE_same _ _ (by omega)]
    have hmod : (d.nextents + 1) % 256 ^ 4 = d.nextents + 1 := Nat.mod_eq_of_lt (by omega)
    omega

/-- A pushed block is appended to the covered ones, unless the 32 bits of the last extent's count
wrap. -/
theorem inodePushExtent_append (hn : d.nextents ≤ 12) (hb : b ≠ 0) (hb' : b < 2 ^ 64)
    (hfits : ∀ last, d.nextents = last + 1 → d.extentStart last ≠ 0 →
      (d.extentStart last + d.extentCount last) % 2 ^ 64 = b → d.extentCount last + 1 < 2 ^ 32)
    (h : inodePushExtent d b 1 = some d') : d'.blocks = d.blocks ++ [b] := by
  rcases inodePushExtent_cases h with ⟨last, hlast, hne, heq, rfl⟩ | ⟨hlt, rfl⟩
  · have hroom := hfits last hlast hne heq
    have hcount : (d.setExtentCount last (d.extentCount last + 1)).extentCount last =
        d.extentCount last + 1 := by
      rw [DInode.extentCount, DInode.setExtentCount, getLE_setLE_same _ _ (by omega)]
      exact Nat.mod_eq_of_lt (by omega)
    have hstart : ∀ e ≤ last,
        (d.setExtentCount last (d.extentCount last + 1)).extentStart e = d.extentStart e :=
      fun e he => getLE_setLE_ne _ (by omega)
    have hbefore : ∀ e < last,
        (d.setExtentCount last (d.extentCount last + 1)).extentCount e = d.extentCount e :=
      fun e he => getLE_setLE_ne _ (by omega)
    have hnext : (d.setExtentCount last (d.extentCount last + 1)).nextents = last + 1 := by
      rw [← hlast]
      exact getLE_setLE_ne _ (by omega)
    have hfront := @DInode.flatMap_extentBlocks_congr d
      (d.setExtentCount last (d.extentCount last + 1)) last
      (fun e he => ⟨hstart e (by omega), hbefore e he⟩)
    rw [DInode.blocks, DInode.blocks, hnext, hlast, List.range_succ, List.flatMap_append, hfront,
      List.flatMap_append, List.append_assoc]
    refine (List.append_right_inj _).mpr ?_
    simp only [List.flatMap_singleton, DInode.extentBlocks, hstart last (le_refl _), hcount,
      if_neg hne, List.range_succ, List.map_append, List.map_singleton, heq]
  · generalize hk : d.nextents = k at *
    have hnext : (((d.setExtentStart k b).setExtentCount k 1).setNextents (k + 1)).nextents = k + 1 := by
      rw [DInode.nextents, DInode.setNextents, getLE_setLE_same _ _ (by omega)]
      exact Nat.mod_eq_of_lt (by omega)
    have hstart : (((d.setExtentStart k b).setExtentCount k 1).setNextents (k + 1)).extentStart k = b := by
      rw [DInode.extentStart, DInode.setNextents, getLE_setLE_ne _ (by omega), DInode.setExtentCount,
        getLE_setLE_ne _ (by omega), DInode.setExtentStart, getLE_setLE_same _ _ (by omega)]
      exact Nat.mod_eq_of_lt (by omega)
    have hcount : (((d.setExtentStart k b).setExtentCount k 1).setNextents (k + 1)).extentCount k = 1 := by
      rw [DInode.extentCount, DInode.setNextents, getLE_setLE_ne _ (by omega),
        DInode.setExtentCount, getLE_setLE_same _ _ (by omega)]
      rfl
    have hfront := @DInode.flatMap_extentBlocks_congr d
      (((d.setExtentStart k b).setExtentCount k 1).setNextents (k + 1)) k (fun e he => by
        constructor
        · rw [DInode.extentStart, DInode.setNextents, getLE_setLE_ne _ (by omega),
            DInode.setExtentCount, getLE_setLE_ne _ (by omega), DInode.setExtentStart,
            getLE_setLE_ne _ (by omega)]
        · rw [DInode.extentCount, DInode.setNextents, getLE_setLE_ne _ (by omega),
            DInode.setExtentCount, getLE_setLE_ne _ (by omega), DInode.setExtentStart,
            getLE_setLE_ne _ (by omega)])
    rw [DInode.blocks, DInode.blocks, hnext, hk, List.range_succ, List.flatMap_append, hfront]
    refine (List.append_right_inj _).mpr ?_
    simpa [DInode.extentBlocks, hstart, hcount, hb] using hb'

theorem inodePushExtent_blocks (hn : d.nextents ≤ 12) (hb : b ≠ 0) (hb' : b < 2 ^ 64)
    (hlen : d.blocks.length + 1 < 2 ^ 32) (h : inodePushExtent d b 1 = some d') :
    d'.blocks = d.blocks ++ [b] := by
  refine inodePushExtent_append hn hb hb' (fun last hlast hne _ => ?_) h
  have hle : d.extentCount last ≤ d.blocks.length := by
    rw [DInode.blocks, hlast, List.range_succ, List.flatMap_append, List.length_append]
    simp [length_extentBlocks hne]
  omega

theorem inodePushExtent_noHoles (hn : d.nextents ≤ 12) (hb : b ≠ 0) (hb' : b < 2 ^ 64)
    (hd : d.NoHoles) (h : inodePushExtent d b 1 = some d') : d'.NoHoles := by
  rcases inodePushExtent_cases h with ⟨last, hlast, hne, heq, rfl⟩ | ⟨hlt, rfl⟩
  · intro e he
    have hnext : (d.setExtentCount last (d.extentCount last + 1)).nextents = d.nextents :=
      getLE_setLE_ne _ (by omega)
    rw [hnext] at he
    rw [DInode.extentStart, DInode.setExtentCount, getLE_setLE_ne _ (by omega)]
    exact hd e he
  · intro e he
    rw [DInode.nextents, DInode.setNextents, getLE_setLE_same _ _ (by omega),
      Nat.mod_eq_of_lt (by omega)] at he
    rw [DInode.extentStart, DInode.setNextents, getLE_setLE_ne _ (by omega), DInode.setExtentCount,
      getLE_setLE_ne _ (by omega), DInode.setExtentStart]
    by_cases hlast : e = d.nextents
    · rw [hlast, getLE_setLE_same _ _ (by omega), Nat.mod_eq_of_lt (by omega)]
      exact hb
    · rw [getLE_setLE_ne _ (by omega)]
      exact hd e (by omega)

end Push

def freeAll : List ℕ → M Unit
  | [] => pure ()
  | b :: bs => do
      freeBlock b
      freeAll bs

theorem freeAll_append (l₁ l₂ : List ℕ) :
    freeAll (l₁ ++ l₂) = (do freeAll l₁; freeAll l₂) := by
  induction l₁ with
  | nil => rfl
  | cons b l₁ ih => simp [freeAll, ih]

theorem freeExtent_eq (start k n : ℕ) :
    freeExtent start k n = freeAll ((List.range' k n).map fun i => (start + i) % 2 ^ 64) := by
  induction n generalizing k with
  | zero => rfl
  | succ n ih => rw [freeExtent, List.range'_succ, List.map_cons, freeAll, ih]

theorem freeExtents_eq (d : DInode) (e n : ℕ) :
    freeExtents d e n = freeAll ((List.range' e n).flatMap d.extentBlocks) := by
  induction n generalizing e with
  | zero => rfl
  | succ n ih =>
    have hhead : freeExtentAt d e = freeAll (d.extentBlocks e) := by
      unfold freeExtentAt DInode.extentBlocks
      split
      · rfl
      · rw [freeExtent_eq, List.range_eq_range']
    rw [freeExtents, List.range'_succ, List.flatMap_cons, freeAll_append, hhead, ih]

theorem inodeFreeData_eq (d : DInode) :
    inodeFreeData d = (do freeAll d.blocks; pure ((d.setNextents 0).setSize 0)) := by
  rw [inodeFreeData, freeExtents_eq, DInode.blocks, List.range_eq_range']

namespace Vol

def giveBlocks (v : Vol) (F : List ℕ) : Vol := F.foldl giveBlock v

variable (v : Vol) (F : List ℕ)

theorem giveBlocks_bbit (b : ℕ) : (v.giveBlocks F).bbit b = (decide (b ∉ F) && v.bbit b) := by
  induction F generalizing v with
  | nil => simp [giveBlocks]
  | cons x F ih =>
    have h := ih (v.giveBlock x)
    change ((v.giveBlock x).giveBlocks F).bbit b = _
    rw [h]
    by_cases hb : b = x
    · simp [giveBlock, hb]
    · simp [giveBlock, hb]

@[simp] theorem giveBlocks_ino : (v.giveBlocks F).ino = v.ino := by
  induction F generalizing v with
  | nil => rfl
  | cons x F ih => exact ih (v.giveBlock x)

@[simp] theorem giveBlocks_data : (v.giveBlocks F).data = v.data := by
  induction F generalizing v with
  | nil => rfl
  | cons x F ih => exact ih (v.giveBlock x)

@[simp] theorem giveBlocks_ibit : (v.giveBlocks F).ibit = v.ibit := by
  induction F generalizing v with
  | nil => rfl
  | cons x F ih => exact ih (v.giveBlock x)

@[simp] theorem giveBlocks_super : (v.giveBlocks F).super = v.super := by
  induction F generalizing v with
  | nil => rfl
  | cons x F ih => exact ih (v.giveBlock x)

@[simp] theorem giveBlocks_freeInodes : (v.giveBlocks F).freeInodes = v.freeInodes := by
  induction F generalizing v with
  | nil => rfl
  | cons x F ih => exact ih (v.giveBlock x)

end Vol

/-- Truncation gives back blocks the inode covers: all of them, unless the buffer is full. -/
theorem freeAll_spec {g : Geom} {s : St} (hg : g.Wf) (hs : s.InTxn g) (l : List ℕ) :
    ∃ s' F, (freeAll l).run s = (some (), s') ∧ Step g s s' ∧ F ⊆ l ∧ (∀ b ∈ F, g.IsData b) ∧
      s'.vol = s.vol.giveBlocks F ∧
      (s'.lost = false → F = l.filter (fun b => g.IsData b)) := by
  induction l generalizing s with
  | nil => exact ⟨s, [], rfl, Step.refl g s, by simp, by simp, rfl, fun _ => rfl⟩
  | cons b l ih =>
    obtain ⟨s1, hrun1, hstep1, hcase⟩ := freeBlock_spec hg hs b
    obtain ⟨s2, F, hrun2, hstep2, hsub, hdata, hvol, hall⟩ := ih (hstep1.inTxn hs)
    have hrun : (freeAll (b :: l)).run s = (some (), s2) := by
      rw [freeAll, bind_of_some hrun1, hrun2]
    rcases hcase with ⟨hb, hv⟩ | ⟨hb, hv⟩ | ⟨hv, hlost⟩
    · refine ⟨s2, F, hrun, hstep1.trans hstep2, fun x hx => by simp [hsub hx], hdata,
        by rw [hvol, hv], fun hl => ?_⟩
      rw [hall hl, List.filter_cons, if_neg (by simpa using hb)]
    · refine ⟨s2, b :: F, hrun, hstep1.trans hstep2, ?_, ?_, by rw [hvol, hv]; rfl, fun hl => ?_⟩
      · exact List.cons_subset_cons b hsub
      · simpa using ⟨hb, hdata⟩
      · rw [hall hl, List.filter_cons, if_pos (by simpa using hb)]
    · refine ⟨s2, F, hrun, hstep1.trans hstep2, fun x hx => by simp [hsub hx], hdata,
        by rw [hvol, hv], fun hl => ?_⟩
      have := hstep2.not_lost hl
      simp [hlost] at this

theorem inodeFreeData_spec {g : Geom} {s : St} (hg : g.Wf) (hs : s.InTxn g) (d : DInode) :
    ∃ s' F, (inodeFreeData d).run s = (some ((d.setNextents 0).setSize 0), s') ∧ Step g s s' ∧
      F ⊆ d.blocks ∧ (∀ b ∈ F, g.IsData b) ∧ s'.vol = s.vol.giveBlocks F ∧
      (s'.lost = false → F = d.blocks.filter (fun b => g.IsData b)) := by
  obtain ⟨s', F, hrun, h⟩ := freeAll_spec hg hs d.blocks
  refine ⟨s', F, ?_, h⟩
  rw [inodeFreeData_eq, bind_of_some hrun, pure_run]

end ComputerOS.Cfs
