import ComputerOS.Pmm.Model
import Mathlib.Data.Finset.Card
import Mathlib.Data.List.Nodup
import Mathlib.Logic.Relation

/-!
Safety of the page allocator from boot on. The clear bits are the pages that may be handed
out and are not allocated; the scan hint is below all of them. Both are kept by every
allocation and every free, so a scan from the hint finds the lowest free page.
-/
namespace ComputerOS.Pmm

open Mem

def PmmState.clear (s : PmmState) : Finset ℕ := (Finset.range s.totalPages).filter fun i => bitTest s i = false

@[simp]
theorem mem_clear {s : PmmState} {i : ℕ} : i ∈ s.clear ↔ i < s.totalPages ∧ bitTest s i = false := by
  simp [PmmState.clear]

/-- The page `p` lies wholly inside the entry, below the cap. -/
structure Entry.Holds (e : Entry) (p : ℕ) : Prop where
  ge : e.base ≤ p * 4096
  le : (p + 1) * 4096 ≤ e.base + e.length
  cap : (p + 1) * 4096 ≤ 8 * 2 ^ 30

def Entry.Freeable (e : Entry) : Prop := e.type = .usable ∨ e.type = .bootloaderReclaim

/-- The page `p` may be handed out: one usable entry holds it, and neither the bitmap of
`bytes` bytes at `phys` nor address 0 is in it. -/
structure Allocatable (mm : List Entry) (phys bytes p : ℕ) : Prop where
  entry : ∃ e ∈ mm, e.Freeable ∧ e.Holds p
  ne_zero : p ≠ 0
  bitmap : phys + bytes ≤ p * 4096 ∨ (p + 1) * 4096 ≤ phys

/-- No entry reaches the end of the address space. -/
def NoWrap (mm : List Entry) : Prop := ∀ e ∈ mm, e.base + e.length < 2 ^ 64

/-- The free pages are counted, and only the bitmap and the count differ from `s`. -/
structure Marked (s s' : PmmState) : Prop where
  total : s'.totalPages = s.totalPages
  phys : s'.bitmapPhys = s.bitmapPhys
  scan : s'.nextScan = s.nextScan
  counted : s'.freePages = s'.clear.card

theorem Marked.trans {s t u : PmmState} (h : Marked s t) (h' : Marked t u) : Marked s u :=
  ⟨h'.total.trans h.total, h'.phys.trans h.phys, h'.scan.trans h.scan, h'.counted⟩

variable {s : PmmState}

theorem clear_setBit_true (f n i : ℕ) :
    PmmState.clear { s with bitmap := s.bitmap.setBit i true, freePages := f, nextScan := n } =
      s.clear.erase i := by
  ext j
  simp only [mem_clear, bitTest, bit_setBit, Finset.mem_erase]
  by_cases hij : i = j
  · simp [hij]
  · simp [hij, Ne.symm hij]

theorem clear_setBit_false {i : ℕ} (hi : i < s.totalPages) (f n : ℕ) :
    PmmState.clear { s with bitmap := s.bitmap.setBit i false, freePages := f, nextScan := n } =
      insert i s.clear := by
  ext j
  simp only [mem_clear, bitTest, bit_setBit, Finset.mem_insert]
  by_cases hij : i = j
  · subst hij
    simp [hi]
  · simp [hij, Ne.symm hij]

theorem card_clear_le (s : PmmState) : s.clear.card ≤ s.totalPages := by
  have := Finset.card_filter_le (Finset.range s.totalPages) fun i => bitTest s i = false
  simpa [PmmState.clear] using this

theorem markUsedPage_spec (hc : s.freePages = s.clear.card) {i : ℕ} (hi : i < s.totalPages) :
    Marked s (markUsedPage s i) ∧ (markUsedPage s i).clear = s.clear.erase i := by
  rw [markUsedPage]
  by_cases hbit : bitTest s i = true
  · have hnot : i ∉ s.clear := by simp [hbit]
    rw [if_pos hbit]
    exact ⟨⟨rfl, rfl, rfl, hc⟩, (Finset.erase_eq_of_notMem hnot).symm⟩
  · have hmem : i ∈ s.clear := by simpa [hi] using hbit
    have hpos := Finset.card_pos.mpr ⟨i, hmem⟩
    have hclear := clear_setBit_true (s := s) (s.freePages - 1) s.nextScan i
    rw [if_neg hbit, if_pos (by omega)]
    refine ⟨⟨rfl, rfl, rfl, ?_⟩, hclear⟩
    rw [hclear, Finset.card_erase_of_mem hmem, ← hc]

theorem markFreePage_spec (hc : s.freePages = s.clear.card) (ht : s.totalPages < 2 ^ 32) (i : ℕ) :
    Marked s (markFreePage s i) ∧
      ∀ p, p ∈ (markFreePage s i).clear ↔ p ∈ s.clear ∨ (p = i ∧ i < s.totalPages) := by
  rw [markFreePage]
  split_ifs with htop hbit
  · exact ⟨⟨rfl, rfl, rfl, hc⟩, fun p => by simp; omega⟩
  · have hi : i < s.totalPages := by omega
    have hnot : i ∉ s.clear := by simp [hbit]
    have hclear := clear_setBit_false hi (u64 (s.freePages + 1)) s.nextScan
    have hcard := card_clear_le s
    refine ⟨⟨rfl, rfl, rfl, ?_⟩, fun p => ?_⟩
    · rw [hclear, Finset.card_insert_of_notMem hnot, ← hc]
      exact Nat.mod_eq_of_lt (by omega)
    · rw [hclear, Finset.mem_insert]
      tauto
  · have hi : i < s.totalPages := by omega
    have hmem : i ∈ s.clear := by simpa [hi] using hbit
    refine ⟨⟨rfl, rfl, rfl, hc⟩, fun p => ⟨Or.inl, ?_⟩⟩
    rintro (hp | ⟨rfl, -⟩)
    · exact hp
    · exact hmem

theorem foldl_markUsedPage (l : List ℕ) (hc : s.freePages = s.clear.card)
    (hl : ∀ i ∈ l, i < s.totalPages) :
    Marked s (l.foldl markUsedPage s) ∧
      ∀ p, p ∈ (l.foldl markUsedPage s).clear ↔ p ∈ s.clear ∧ p ∉ l := by
  induction l generalizing s with
  | nil => exact ⟨⟨rfl, rfl, rfl, hc⟩, by simp⟩
  | cons i l ih =>
    obtain ⟨hm, hclear⟩ := markUsedPage_spec hc (hl i List.mem_cons_self)
    obtain ⟨hm', hclear'⟩ := ih hm.counted fun j hj => by
      rw [hm.total]
      exact hl j (List.mem_cons_of_mem _ hj)
    refine ⟨hm.trans hm', fun p => ?_⟩
    rw [List.foldl_cons, hclear', hclear, Finset.mem_erase, List.mem_cons]
    tauto

theorem foldl_markFreePage (l : List ℕ) (hc : s.freePages = s.clear.card) (ht : s.totalPages < 2 ^ 32) :
    Marked s (l.foldl markFreePage s) ∧
      ∀ p, p ∈ (l.foldl markFreePage s).clear ↔ p ∈ s.clear ∨ (p ∈ l ∧ p < s.totalPages) := by
  induction l generalizing s with
  | nil => exact ⟨⟨rfl, rfl, rfl, hc⟩, by simp⟩
  | cons i l ih =>
    obtain ⟨hm, hclear⟩ := markFreePage_spec hc ht i
    obtain ⟨hm', hclear'⟩ := ih hm.counted (hm.total ▸ ht)
    refine ⟨hm.trans hm', fun p => ?_⟩
    rw [List.foldl_cons, hclear', hclear, List.mem_cons, hm.total]
    constructor
    · rintro ((h | ⟨rfl, h⟩) | h)
      · exact Or.inl h
      · exact Or.inr ⟨Or.inl rfl, h⟩
      · exact Or.inr ⟨Or.inr h.1, h.2⟩
    · rintro (h | ⟨rfl | h, h'⟩)
      · exact Or.inl (Or.inl h)
      · exact Or.inl (Or.inr ⟨rfl, h'⟩)
      · exact Or.inr ⟨h, h'⟩

/-- `mark_used` sets the bit of every page that the bytes reach into. -/
theorem markUsed_spec (hc : s.freePages = s.clear.card) {base size : ℕ}
    (hwrap : base + size + 4095 < 2 ^ 64) :
    Marked s (markUsed base size s) ∧
      ∀ p, p ∈ (markUsed base size s).clear ↔
        p ∈ s.clear ∧ (base + size ≤ p * 4096 ∨ (p + 1) * 4096 ≤ base) := by
  have hstop : u64 (base + size + (PAGE_SIZE - 1)) = base + size + 4095 := Nat.mod_eq_of_lt hwrap
  simp only [markUsed, hstop]
  obtain ⟨hm, hclear⟩ := foldl_markUsedPage
    (List.range' (base / PAGE_SIZE) (min ((base + size + 4095) / PAGE_SIZE) s.totalPages - base / PAGE_SIZE))
    hc fun i hi => by
      rw [List.mem_range'_1] at hi
      omega
  refine ⟨hm, fun p => ?_⟩
  rw [hclear, List.mem_range'_1, PAGE_SIZE]
  refine and_congr_right fun hp => ?_
  have hlt : p < s.totalPages := (mem_clear.mp hp).1
  omega

theorem freeEntry_spec (hc : s.freePages = s.clear.card) (ht : s.totalPages < 2 ^ 32) (t : MemType)
    {e : Entry} (he : e.base + e.length < 2 ^ 64) :
    Marked s (freeEntry t s e) ∧
      ∀ p, p ∈ (freeEntry t s e).clear ↔
        p ∈ s.clear ∨ (e.type = t ∧ e.Holds p ∧ p < s.totalPages) := by
  have hstop : e.stop = e.base + e.length := Nat.mod_eq_of_lt he
  simp only [freeEntry]
  by_cases htype : e.type = t
  swap
  · rw [if_pos htype]
    exact ⟨⟨rfl, rfl, rfl, hc⟩, fun p => by simp [htype]⟩
  rw [if_neg (not_not.mpr htype)]
  by_cases hcap : PMM_ADDR_CAP ≤ e.base
  · rw [if_pos hcap]
    refine ⟨⟨rfl, rfl, rfl, hc⟩, fun p => ⟨Or.inl, ?_⟩⟩
    rintro (hp | ⟨-, hp, -⟩)
    · exact hp
    · have h1 := hp.ge
      have h2 := hp.cap
      rw [PMM_ADDR_CAP] at hcap
      omega
  rw [if_neg hcap]
  rw [PMM_ADDR_CAP] at hcap
  obtain ⟨z, hz, hzle⟩ : ∃ z, e.base + (if PMM_ADDR_CAP < e.stop then PMM_ADDR_CAP - e.base else e.length) = z ∧
      z = min (8 * 2 ^ 30) (e.base + e.length) := by
    refine ⟨_, rfl, ?_⟩
    rw [hstop, PMM_ADDR_CAP]
    split_ifs <;> omega
  have h1 : u64 (e.base + (PAGE_SIZE - 1)) = e.base + 4095 := Nat.mod_eq_of_lt (by
    rw [PAGE_SIZE]
    omega)
  have h2 : u64 z = z := Nat.mod_eq_of_lt (by omega)
  rw [hz, h1, h2]
  obtain ⟨hm, hclear⟩ := foldl_markFreePage (List.range' ((e.base + 4095) / PAGE_SIZE)
    ((if s.totalPages < z / PAGE_SIZE then s.totalPages else z / PAGE_SIZE) - (e.base + 4095) / PAGE_SIZE)) hc ht
  refine ⟨hm, fun p => ?_⟩
  rw [hclear, List.mem_range'_1, PAGE_SIZE]
  refine or_congr_right ?_
  constructor
  · rintro ⟨⟨hge, hlt⟩, htot⟩
    have hpz : p < z / 4096 := by
      split_ifs at hlt <;> omega
    exact ⟨htype, ⟨by omega, by omega, by omega⟩, htot⟩
  · rintro ⟨-, ⟨hge, hle, hcap'⟩, htot⟩
    refine ⟨⟨by omega, ?_⟩, htot⟩
    have hpz : p < z / 4096 := by omega
    split_ifs <;> omega

theorem foldl_freeEntry (t : MemType) (mm : List Entry) (hc : s.freePages = s.clear.card)
    (ht : s.totalPages < 2 ^ 32) (hmm : NoWrap mm) :
    Marked s (mm.foldl (freeEntry t) s) ∧
      ∀ p, p ∈ (mm.foldl (freeEntry t) s).clear ↔
        p ∈ s.clear ∨ ((∃ e ∈ mm, e.type = t ∧ e.Holds p) ∧ p < s.totalPages) := by
  induction mm generalizing s with
  | nil => exact ⟨⟨rfl, rfl, rfl, hc⟩, by simp⟩
  | cons e mm ih =>
    obtain ⟨hm, hclear⟩ := freeEntry_spec hc ht t (hmm e List.mem_cons_self)
    obtain ⟨hm', hclear'⟩ := ih hm.counted (hm.total ▸ ht) fun e' he' => hmm e' (List.mem_cons_of_mem _ he')
    refine ⟨hm.trans hm', fun p => ?_⟩
    rw [List.foldl_cons, hclear', hclear, hm.total]
    simp only [List.mem_cons, exists_eq_or_imp]
    tauto

section Top

/-- One step of pass 1. -/
def raiseTop (top : ℕ) (e : Entry) : ℕ :=
  if e.type ≠ .usable ∧ e.type ≠ .bootloaderReclaim then top
  else
    let stop := if PMM_ADDR_CAP < e.stop then PMM_ADDR_CAP else e.stop
    if top < stop then stop else top

theorem raiseTop_ge (top : ℕ) (e : Entry) : top ≤ raiseTop top e := by
  simp only [raiseTop]
  split_ifs <;> omega

theorem foldl_raiseTop_ge (mm : List Entry) (top : ℕ) : top ≤ mm.foldl raiseTop top := by
  induction mm generalizing top with
  | nil => exact le_refl _
  | cons e mm ih => exact (raiseTop_ge top e).trans (ih _)

theorem foldl_raiseTop_le (mm : List Entry) {top : ℕ} (h : top ≤ PMM_ADDR_CAP) :
    mm.foldl raiseTop top ≤ PMM_ADDR_CAP := by
  induction mm generalizing top with
  | nil => exact h
  | cons e mm ih =>
    refine ih ?_
    simp only [raiseTop]
    split_ifs <;> omega

/-- A page that an entry holds lies below the address that pass 1 finds. -/
theorem foldl_raiseTop_holds {mm : List Entry} (hmm : NoWrap mm) {e : Entry} (he : e ∈ mm)
    (hf : e.Freeable) {p : ℕ} (hp : e.Holds p) (top : ℕ) : (p + 1) * 4096 ≤ mm.foldl raiseTop top := by
  induction mm generalizing top with
  | nil => cases he
  | cons d mm ih =>
    rcases List.mem_cons.mp he with rfl | he
    · refine le_trans ?_ (foldl_raiseTop_ge mm _)
      have hstop : e.stop = e.base + e.length := Nat.mod_eq_of_lt (hmm e List.mem_cons_self)
      have hle := hp.le
      have hcap := hp.cap
      simp only [raiseTop, hstop, PMM_ADDR_CAP]
      rw [if_neg (fun h => hf.elim h.1 h.2)]
      split_ifs <;> omega
    · exact ih (fun e' he' => hmm e' (List.mem_cons_of_mem _ he')) he _

theorem topAddress_le (mm : List Entry) : topAddress mm ≤ PMM_ADDR_CAP := by
  have h : mm.foldl raiseTop 0 ≤ PMM_ADDR_CAP := foldl_raiseTop_le mm (Nat.zero_le _)
  change (if mm.foldl raiseTop 0 = 0 then 0x10000000 else mm.foldl raiseTop 0) ≤ _
  split_ifs
  · decide
  · exact h

/-- There is a bit for every page that may be handed out. -/
theorem lt_topAddress {mm : List Entry} (hmm : NoWrap mm) {e : Entry} (he : e ∈ mm) (hf : e.Freeable)
    {p : ℕ} (hp : e.Holds p) : p < topAddress mm / PAGE_SIZE := by
  have h := foldl_raiseTop_holds hmm he hf hp 0
  have htop : topAddress mm = mm.foldl raiseTop 0 :=
    if_neg (show ¬ mm.foldl raiseTop 0 = 0 by omega)
  rw [htop, PAGE_SIZE]
  omega

end Top

theorem findBitmap_lt {mm : List Entry} {bytes phys : ℕ} (h : findBitmap bytes mm = some phys) :
    phys < 2 ^ 32 := by
  obtain ⟨e, -, hphys⟩ := List.exists_of_findSome?_eq_some h
  dsimp only at hphys
  split_ifs at hphys
  all_goals
    obtain rfl := Option.some.inj hphys
    omega

/-- The free pages after `boot`, of which `live` are allocated. -/
structure Inv (mm : List Entry) (boot s : PmmState) (live : List ℕ) : Prop where
  total : s.totalPages = boot.totalPages
  small : s.totalPages < 2 ^ 32
  bound : s.nextScan ≤ s.totalPages
  clear : ∀ p, p ∈ s.clear ↔
    Allocatable mm boot.bitmapPhys (bitmapBytes boot.totalPages) p ∧ p * 4096 ∉ live
  counted : s.freePages = s.clear.card
  scan : ∀ p ∈ s.clear, s.nextScan ≤ p
  allocated : ∀ a ∈ live, ∃ p, a = p * 4096 ∧ p < s.totalPages ∧
    Allocatable mm boot.bitmapPhys (bitmapBytes boot.totalPages) p
  nodup : live.Nodup

theorem clear_full (mem : Mem) (phys total : ℕ) :
    PmmState.clear ⟨fun i => if i < bitmapBytes total then 0xFF else mem i, phys, total, 0, 0⟩ = ∅ := by
  rw [Finset.eq_empty_iff_forall_notMem]
  intro p hp
  obtain ⟨hlt, hbit⟩ := mem_clear.mp hp
  have hbyte : p / 8 < bitmapBytes total := by
    rw [bitmapBytes]
    dsimp only at hlt
    omega
  have hmod : p % 8 < 8 := Nat.mod_lt _ (by omega)
  simp only [bitTest, bit, if_pos hbyte] at hbit
  revert hbit
  generalize p % 8 = k at hmod
  revert k
  decide

/-- `pmm_init` leaves exactly the pages free that may be handed out. -/
theorem pmmInit_inv {mm : List Entry} (hmm : NoWrap mm) {mem : Mem} (h : pmmInit mm mem = some s) :
    Inv mm s s [] := by
  obtain ⟨phys, hphys, rfl⟩ := Option.map_eq_some_iff.mp h
  have hlow := findBitmap_lt hphys
  have htop := topAddress_le mm
  obtain ⟨total, htotal⟩ : ∃ total, topAddress mm / PAGE_SIZE = total := ⟨_, rfl⟩
  have hbits : ∀ e ∈ mm, e.Freeable → ∀ p, e.Holds p → p < total := by
    intro e he hf p hp
    rw [← htotal]
    exact lt_topAddress hmm he hf hp
  simp only [htotal] at hphys ⊢
  have hsmall : total ≤ 2 ^ 21 := by
    rw [← htotal, PAGE_SIZE]
    rw [PMM_ADDR_CAP] at htop
    omega
  have hbytes : bitmapBytes total ≤ 2 ^ 18 := by
    rw [bitmapBytes]
    omega
  obtain ⟨s₀, hs₀⟩ : ∃ s₀ : PmmState,
    s₀ = ⟨fun i => if i < bitmapBytes total then 0xFF else mem i, phys, total, 0, 0⟩ := ⟨_, rfl⟩
  have hclear₀ : s₀.clear = ∅ := by
    rw [hs₀]
    exact clear_full mem phys total
  have hc₀ : s₀.freePages = s₀.clear.card := by
    rw [hclear₀, hs₀]
    rfl
  have htot₀ : s₀.totalPages = total := by rw [hs₀]
  have hphys₀ : s₀.bitmapPhys = phys := by rw [hs₀]
  have hscan₀ : s₀.nextScan = 0 := by rw [hs₀]
  rw [← hs₀]
  -- the passes over the entries, then the bitmap and page 0
  obtain ⟨m₁, h₁⟩ := foldl_freeEntry .usable mm hc₀ (by omega) hmm
  obtain ⟨m₂, h₂⟩ := foldl_freeEntry .bootloaderReclaim mm m₁.counted (by rw [m₁.total]; omega) hmm
  have m₁₂ := m₁.trans m₂
  generalize mm.foldl (freeEntry .bootloaderReclaim) (mm.foldl (freeEntry .usable) s₀) = s₂ at *
  obtain ⟨m₃, h₃⟩ := markUsed_spec m₂.counted
    (show phys + bitmapBytes total + 4095 < 2 ^ 64 by omega)
  have m₁₃ := m₁₂.trans m₃
  generalize markUsed phys (bitmapBytes total) s₂ = s₃ at *
  obtain ⟨m₄, h₄⟩ := markUsed_spec m₃.counted (show 0 + PAGE_SIZE + 4095 < 2 ^ 64 by decide)
  have m := m₁₃.trans m₄
  generalize markUsed 0 PAGE_SIZE s₃ = s₄ at *
  have htot : s₄.totalPages = total := m.total.trans htot₀
  have hph : s₄.bitmapPhys = phys := m.phys.trans hphys₀
  refine ⟨rfl, by omega, by rw [m.scan, hscan₀]; omega, fun p => ?_, m.counted, fun p _ => ?_, by simp, List.nodup_nil⟩
  · rw [h₄, h₃, h₂, h₁, hclear₀, m₁.total, htot₀, htot, hph, PAGE_SIZE]
    constructor
    · rintro ⟨⟨hentry, hbm⟩, hzero⟩
      refine ⟨⟨?_, by omega, hbm⟩, List.not_mem_nil⟩
      rcases hentry with (hempty | ⟨⟨e, he, ht, hp⟩, -⟩) | ⟨⟨e, he, ht, hp⟩, -⟩
      · cases hempty
      · exact ⟨e, he, Or.inl ht, hp⟩
      · exact ⟨e, he, Or.inr ht, hp⟩
    · rintro ⟨⟨⟨e, he, hf, hp⟩, hne, hbm⟩, -⟩
      have hlt := hbits e he hf p hp
      refine ⟨⟨?_, hbm⟩, by omega⟩
      rcases hf with ht | ht
      · exact Or.inl (Or.inr ⟨⟨e, he, ht, hp⟩, hlt⟩)
      · exact Or.inr ⟨⟨e, he, ht, hp⟩, hlt⟩
  · rw [m.scan, hscan₀]
    exact Nat.zero_le _

variable {mm : List Entry} {boot : PmmState} {live : List ℕ}

/-- The page `p` may be handed out and is not allocated. -/
def Available (mm : List Entry) (boot : PmmState) (live : List ℕ) (p : ℕ) : Prop :=
  Allocatable mm boot.bitmapPhys (bitmapBytes boot.totalPages) p ∧ p * 4096 ∉ live

/-- `pmm_alloc` takes the lowest page with a clear bit; it fails only when there is none. -/
theorem pmmAlloc_cases (hI : Inv mm boot s live) :
    (pmmAlloc s = (0, s) ∧ s.clear = ∅) ∨
    ∃ p, pmmAlloc s = takePage s p ∧ p ∈ s.clear ∧ ∀ q ∈ s.clear, p ≤ q := by
  have hbound := hI.bound
  rw [pmmAlloc]
  cases hfind : (List.range' s.nextScan (s.totalPages - s.nextScan)).find? fun i => !bitTest s i with
  | some i =>
    obtain ⟨hbit, hmem, hbefore⟩ := List.find?_range'_eq_some.mp hfind
    have hlt := (List.mem_range'_1.mp hmem).2
    refine Or.inr ⟨i, rfl, mem_clear.mpr ⟨by omega, by simpa using hbit⟩, fun q hq => ?_⟩
    by_contra hqi
    have hused := hbefore q (hI.scan q hq) (by omega)
    simp [(mem_clear.mp hq).2] at hused
  | none =>
    have hnone := List.find?_range'_eq_none.mp hfind
    have hempty : s.clear = ∅ := by
      rw [Finset.eq_empty_iff_forall_notMem]
      intro q hq
      have hlt := (mem_clear.mp hq).1
      have hused := hnone q (hI.scan q hq) (by omega)
      simp [(mem_clear.mp hq).2] at hused
    -- below the hint every bit is set, so the second loop finds nothing
    have hsecond : (List.range' 1 (s.nextScan - 1)).find? (fun i => !bitTest s i) = none := by
      refine List.find?_range'_eq_none.mpr fun i h1 hi => ?_
      have hnot : i ∉ s.clear := hempty ▸ Finset.notMem_empty i
      have hlt : i < s.totalPages := by omega
      simpa [hlt] using hnot
    rw [hsecond]
    exact Or.inl ⟨rfl, hempty⟩

theorem takePage_inv (hI : Inv mm boot s live) {p : ℕ} (hp : p ∈ s.clear) (hmin : ∀ q ∈ s.clear, p ≤ q) :
    Inv mm boot (takePage s p).2 (p * 4096 :: live) := by
  have hclear : (takePage s p).2.clear = s.clear.erase p := clear_setBit_true _ _ p
  have hlt := (mem_clear.mp hp).1
  obtain ⟨hall, hfree⟩ := (hI.clear p).mp hp
  refine ⟨hI.total, hI.small, hlt, fun q => ?_, ?_, fun q hq => ?_, ?_, List.nodup_cons.mpr ⟨hfree, hI.nodup⟩⟩
  · rw [hclear, Finset.mem_erase, hI.clear, List.mem_cons]
    constructor
    · rintro ⟨hne, hq, hl⟩
      refine ⟨hq, ?_⟩
      rintro (heq | hmem)
      · exact hne (by omega)
      · exact hl hmem
    · rintro ⟨hq, hl⟩
      refine ⟨?_, hq, fun h => hl (Or.inr h)⟩
      rintro rfl
      exact hl (Or.inl rfl)
  · rw [hclear, Finset.card_erase_of_mem hp, ← hI.counted]
    rfl
  · rw [hclear, Finset.mem_erase] at hq
    have := hmin q hq.2
    change p + 1 ≤ q
    omega
  · intro a ha
    rcases List.mem_cons.mp ha with rfl | ha
    · exact ⟨p, rfl, hlt, hall⟩
    · exact hI.allocated a ha

theorem pmmFree_inv (hI : Inv mm boot s live) {a : ℕ} (ha : a ∈ live) :
    Inv mm boot (pmmFree a s) (live.erase a) := by
  obtain ⟨p, rfl, hlt, hall⟩ := hI.allocated a ha
  have hnot : p ∉ s.clear := fun h => ((hI.clear p).mp h).2 ha
  have hbit : bitTest s p = true := by simpa [hlt] using hnot
  have hfree : pmmFree (p * 4096) s = { s with
      bitmap := s.bitmap.setBit p false, freePages := u64 (s.freePages + 1)
      nextScan := if p < s.nextScan then p else s.nextScan } := by
    simp only [pmmFree, PAGE_SIZE, Nat.mul_div_cancel p (by decide : 0 < 4096)]
    rw [if_neg (by omega), if_neg (by simp [hbit])]
  have hclear : (pmmFree (p * 4096) s).clear = insert p s.clear := by
    rw [hfree]
    exact clear_setBit_false hlt _ _
  have hsmall := hI.small
  have hcard := card_clear_le s
  have hbound := hI.bound
  have hmem : ∀ b, b ∈ live.erase (p * 4096) ↔ b ≠ p * 4096 ∧ b ∈ live := fun b => hI.nodup.mem_erase_iff
  refine ⟨?_, ?_, ?_, fun q => ?_, ?_, fun q hq => ?_, fun b hb => ?_, hI.nodup.erase _⟩
  · rw [hfree]
    exact hI.total
  · rw [hfree]
    exact hI.small
  · rw [hfree]
    dsimp only
    split_ifs <;> omega
  · rw [hclear, Finset.mem_insert, hI.clear, hmem]
    constructor
    · rintro (rfl | ⟨hq, hl⟩)
      · exact ⟨hall, fun h => h.1 rfl⟩
      · exact ⟨hq, fun h => hl h.2⟩
    · rintro ⟨hq, hl⟩
      by_cases hqp : q = p
      · exact Or.inl hqp
      · exact Or.inr ⟨hq, fun h => hl ⟨by omega, h⟩⟩
  · rw [hclear, Finset.card_insert_of_notMem hnot, ← hI.counted, hfree]
    exact Nat.mod_eq_of_lt (by rw [hI.counted]; omega)
  · rw [hclear, Finset.mem_insert] at hq
    rw [hfree]
    rcases hq with rfl | hq
    · dsimp only
      split_ifs <;> omega
    · have := hI.scan q hq
      dsimp only
      split_ifs <;> omega
  · rw [hfree]
    exact hI.allocated b ((hmem b).mp hb).2

/-- One step of a run: the allocator, and the addresses of the pages not freed yet. -/
inductive Step : PmmState × List ℕ → PmmState × List ℕ → Prop
  | alloc {s s' : PmmState} {live : List ℕ} {a : ℕ} (hrun : pmmAlloc s = (a, s')) :
      Step (s, live) (s', if a = 0 then live else a :: live)
  | free {s : PmmState} {live : List ℕ} {a : ℕ} (ha : a ∈ live) :
      Step (s, live) (pmmFree a s, live.erase a)

theorem Step.inv {x y : PmmState × List ℕ} (hstep : Step x y) (hI : Inv mm boot x.1 x.2) :
    Inv mm boot y.1 y.2 := by
  cases hstep with
  | alloc hrun =>
    rcases pmmAlloc_cases hI with ⟨heq, -⟩ | ⟨p, heq, hp, hmin⟩
    · obtain ⟨rfl, rfl⟩ := Prod.mk.inj (hrun.symm.trans heq)
      exact hI
    · obtain ⟨rfl, rfl⟩ := Prod.mk.inj (hrun.symm.trans heq)
      have hne : p ≠ 0 := ((hI.clear p).mp hp).1.ne_zero
      have hpos : p * PAGE_SIZE ≠ 0 := Nat.mul_ne_zero hne (by decide)
      simp only [if_neg hpos]
      exact takePage_inv hI hp hmin
  | free ha => exact pmmFree_inv hI ha

/-- From boot on, after any allocations and frees: the free count is the number of clear
bits, these are the available pages, `pmm_alloc` fails only when there is none, and a page
that it returns is the lowest of them. -/
theorem pmm_safe (hmm : NoWrap mm) {mem : Mem} (hboot : pmmInit mm mem = some boot)
    (hrun : Relation.ReflTransGen Step (boot, []) (s, live)) :
    s.freePages = s.clear.card ∧
    (∀ p, p ∈ s.clear ↔ Available mm boot live p) ∧
    ((pmmAlloc s).1 = 0 → ∀ p, ¬ Available mm boot live p) ∧
    ((pmmAlloc s).1 ≠ 0 → ∃ p, (pmmAlloc s).1 = p * 4096 ∧ Available mm boot live p ∧
      ∀ q, Available mm boot live q → p ≤ q) := by
  have hall : ∀ y, Relation.ReflTransGen Step (boot, []) y → Inv mm boot y.1 y.2 := by
    intro y hy
    induction hy with
    | refl => exact pmmInit_inv hmm hboot
    | tail _ hstep ih => exact hstep.inv ih
  have hI : Inv mm boot s live := hall (s, live) hrun
  refine ⟨hI.counted, hI.clear, fun h0 p hp => ?_, fun h0 => ?_⟩
  · rcases pmmAlloc_cases hI with ⟨-, hempty⟩ | ⟨q, heq, hq, -⟩
    · have hmem := (hI.clear p).mpr hp
      rw [hempty] at hmem
      cases hmem
    · have hne : q ≠ 0 := ((hI.clear q).mp hq).1.ne_zero
      rw [heq] at h0
      simp only [takePage, PAGE_SIZE] at h0
      omega
  · rcases pmmAlloc_cases hI with ⟨heq, -⟩ | ⟨p, heq, hp, hmin⟩
    · rw [heq] at h0
      exact absurd rfl h0
    · exact ⟨p, by rw [heq]; rfl, (hI.clear p).mp hp, fun q hq => hmin q ((hI.clear q).mpr hq)⟩

/-- Three usable pages behind the first MiB: the bitmap takes the first, and the second is
the first to be handed out. -/
theorem threePages_safe :
    let mm : List Entry := [⟨0x100000, 0x3000, .usable⟩]
    NoWrap mm ∧ ∃ boot, pmmInit mm (fun _ => 0) = some boot ∧
      (pmmAlloc boot).1 = 0x101000 ∧ (∀ p, p ∈ boot.clear ↔ Available mm boot [] p) ∧
      ∀ p, p ∈ (pmmAlloc boot).2.clear ↔ Available mm boot [0x101000] p := by
  intro mm
  have hmm : NoWrap mm := by
    intro e he
    obtain rfl := List.mem_singleton.mp he
    decide
  have hfirst : (pmmInit mm (fun _ => 0)).map (fun s => (pmmAlloc s).1) = some 0x101000 := by
    decide +kernel
  obtain ⟨boot, hboot, haddr⟩ := Option.map_eq_some_iff.mp hfirst
  have hrun : pmmAlloc boot = (0x101000, (pmmAlloc boot).2) := Prod.ext haddr rfl
  have hstep : Step (boot, []) ((pmmAlloc boot).2, [0x101000]) := .alloc hrun
  exact ⟨hmm, boot, hboot, haddr, (pmm_safe hmm hboot .refl).2.1, (pmm_safe hmm hboot (.single hstep)).2.1⟩

end ComputerOS.Pmm
