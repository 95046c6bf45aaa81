import ComputerOS.Malloc.Realloc
import ComputerOS.Loader.Brk

/-!
Sizes that the allocator honors. A size passes through `unsigned int`, the size of the region
through `int`, and `sbrk` answers an amount below zero with the break. So a size from about 2³¹ on
is granted a block that is too small, or one that has no memory, unless the kernel refuses the
region.
-/
namespace ComputerOS.Malloc

open Mem Loader Fallible

variable {sbrk : Sbrk} {h h' : Heap} {g : Grant} {b c t : Blk} {l l₁ l₂ : List Blk} {n p want : ℕ}

/-- What `sbrk` may answer at the break `brk`. -/
inductive Served (brk : ℕ) (delta : ℤ) : Grant → Prop
  | unchanged (mapped : ℕ → Bool) (hd : delta ≤ 0) : Served brk delta ⟨brk, mapped, brk⟩
  | refused (mapped : ℕ → Bool) (hd : 0 < delta) : Served brk delta ⟨FAILED, mapped, brk⟩
  | granted (mapped : ℕ → Bool) (hd : 0 < delta) (hmax : brk + delta.toNat ≤ LOADER_HEAP_BASE + LOADER_HEAP_MAX) :
      Served brk delta ⟨brk, mapped, brk + delta.toNat⟩

/-- The answer of the kernel as the program sees it, -1 as an address. -/
def answer (delta : ℤ) (env : ℕ → PageEnv) (w : View) : Grant :=
  let (r, w) := loaderSbrk delta env w
  ⟨if r < 0 then FAILED else r.toNat, fun a => (w.resolve a).isSome, w.u.heapBrk⟩

theorem served_loaderSbrk {w : View} (hw : HeapIn w) {delta : ℤ} (hdelta : delta < 2 ^ 31) (env : ℕ → PageEnv) :
    Served w.u.heapBrk delta (answer delta env w) := by
  have hupper := hw.upper
  unfold LOADER_HEAP_BASE LOADER_HEAP_MAX at hupper
  unfold answer loaderSbrk
  dsimp only
  by_cases hd : delta ≤ 0
  · rw [if_pos hd]
    dsimp only
    rw [if_neg (by omega), Int.toNat_natCast]
    exact .unchanged _ hd
  · rw [if_neg hd, Nat.mod_eq_of_lt (by omega), hw.max]
    split
    · exact .refused _ (by omega)
    · next hmax =>
      obtain ⟨hdone, hfailed⟩ := grown_eachNew env (pagesIn (pageUp w.u.heapBrk) (pageUp (w.u.heapBrk + delta.toNat))) w
        (Grown.refl w)
      split
      · next hrun =>
        rw [hrun] at hfailed
        dsimp only
        rw [(hfailed rfl).brk]
        exact .refused _ (by omega)
      · dsimp only
        rw [if_neg (by omega), Int.toNat_natCast]
        exact .granted _ (by omega) (by omega)

/-- The heap of a program: its blocks stand between the base and the break. -/
structure Process (h : Heap) : Prop where
  valid : h.Valid
  low : ∀ b ∈ h.blocks, LOADER_HEAP_BASE ≤ b.addr
  high : ∀ b ∈ h.blocks, b.stop ≤ h.brk
  lower : LOADER_HEAP_BASE ≤ h.brk
  upper : h.brk ≤ LOADER_HEAP_BASE + LOADER_HEAP_MAX

/-- The block behind the pointer `p` has `n` bytes of memory, and its header says so. -/
def Backed (n p : ℕ) (h : Heap) : Prop := n ≤ size h.mem (p - 16) ∧ p + n ≤ h.brk

/-- Sizes for which the region is as large as it should be, or is refused by the kernel. -/
def Fits (n : ℕ) : Prop :=
  n ≤ 2 ^ 31 - 24 ∨ LOADER_HEAP_MAX < normalize n + 16 ∧ normalize n + 16 < 2 ^ 31

instance (n : ℕ) : Decidable (Fits n) := inferInstanceAs (Decidable (_ ∨ _))

/-- Whatever the kernel answers, a pointer that the call returns has `n` bytes behind it. -/
def Honors (n : ℕ) (call : Sbrk → Heap → Option (ℕ × Heap)) (h : Heap) : Prop :=
  ∀ sbrk, (∀ delta, Served h.brk delta (sbrk delta)) → ∀ p h', call sbrk h = some (p, h') → p ≠ 0 →
  Backed n p h'

theorem normalize_le (n : ℕ) : normalize n ≤ 2 ^ 32 - 8 := by
  unfold normalize alignUp u32 ALIGN
  dsimp only
  omega

theorem Fits.lt (hf : Fits n) : normalize n + 16 < 2 ^ 31 := by
  rcases hf with hle | ⟨-, hlt⟩
  · unfold normalize alignUp u32 ALIGN
    dsimp only
    split <;> omega
  · exact hlt

theorem Fits.le (hf : Fits n) (hroom : normalize n + 16 ≤ LOADER_HEAP_MAX) : n ≤ normalize n := by
  rcases hf with hle | ⟨hlt, -⟩
  · unfold normalize alignUp u32 ALIGN
    dsimp only
    split <;> omega
  · exact absurd hroom (Nat.not_le.mpr hlt)

theorem growChunk_lt (hlt : want + 16 < 2 ^ 31) : growChunk want < 2 ^ 31 ∧
    want ≤ growChunk want - 16 ∧ int32 (growChunk want) = growChunk want := by
  have hchunk : growChunk want < 2 ^ 31 ∧ want ≤ growChunk want - 16 := by
    unfold growChunk u32 HEADER
    dsimp only
    split <;> omega
  exact ⟨hchunk.1, hchunk.2, if_pos hchunk.1⟩

/-- What the kernel grants stands behind all blocks. -/
theorem Process.behind (hP : Process h) (hlt : want + 16 < 2 ^ 31) (hs : Served h.brk (int32 (growChunk want)) g) :
    g.addr = FAILED ∨ Behind h.blocks g want ∧ g.addr = h.brk ∧ g.brk = h.brk + growChunk want ∧
      g.brk ≤ LOADER_HEAP_BASE + LOADER_HEAP_MAX := by
  obtain ⟨hchunk, -, hint⟩ := growChunk_lt hlt
  have hpos := (growChunk_bounds want).1
  have hlower := hP.lower
  rw [hint] at hs
  cases hs with
  | unchanged mapped hd => omega
  | refused mapped hd => exact Or.inl rfl
  | granted mapped hd hmax =>
    rw [Int.toNat_natCast] at hmax
    unfold LOADER_HEAP_BASE LOADER_HEAP_MAX at *
    refine Or.inr ⟨⟨?_, hP.high, ?_⟩, rfl, by rw [Int.toNat_natCast], ?_⟩ <;>
    · dsimp only
      omega

/-- The block that `malloc` takes lies between the base and the break. -/
theorem Process.allocated (hP : Process h) (hlt : want + 16 < 2 ^ 31) (hs : Served h.brk (int32 (growChunk want))
    (sbrk (int32 (growChunk want)))) (ha : Allocated sbrk want h h.blocks p h') (hp : p ≠ 0) :
    ∃ l' t, Taken h.blocks p h' l' t ∧ want ≤ t.size ∧ LOADER_HEAP_BASE ≤ t.addr ∧ t.stop ≤ h'.brk ∧
      h'.brk ≤ LOADER_HEAP_BASE + LOADER_HEAP_MAX := by
  obtain ⟨-, hwant, -⟩ := growChunk_lt hlt
  obtain ⟨l', t, ht, hcase⟩ := ha.taken hP.valid.ordered hp
  rcases hcase with ⟨b, hb, hfit, haddr, hsize, hstop, hbrk⟩ | ⟨g, hg, hgrant, haddr, hsize, hstop, hbrk⟩
  · refine ⟨l', t, ht, hsize ▸ le_kept hfit, haddr ▸ hP.low b hb, ?_, hbrk ▸ hP.upper⟩
    rw [hbrk]
    exact hstop.trans (hP.high b hb)
  · rw [← hg] at hs
    rcases hP.behind hlt hs with hfail | ⟨hbehind, hga, hgb, hmax⟩
    · have hfits := hgrant.fits
      have hchunk := growChunk_bounds want
      unfold FAILED at hfail
      omega
    · refine ⟨l', t, ht, hsize ▸ le_kept hwant, ?_, ?_, hbrk ▸ hmax⟩
      · rw [haddr, hga]
        exact hP.lower
      · refine hstop.trans ?_
        rw [hbrk, hgb]
        have := (growChunk_bounds want).1
        unfold Blk.stop newBlock
        dsimp only
        omega

theorem backed_of_shape (hS : Shape h l) (ht : t ∈ l) (hn : n ≤ t.size) (hstop : t.stop ≤ h.brk) :
    Backed n (t.addr + 16) h := by
  rw [Backed, Nat.add_sub_cancel, hS.size_eq ht]
  unfold Blk.stop at hstop
  exact ⟨hn, by omega⟩

theorem malloc_honors (hP : Process h) (hf : Fits n) : Honors n (fun sbrk => malloc sbrk n) h := by
  intro sbrk hsbrk p h' hrun hp
  have ha := malloc_allocated hP.valid ((hP.behind hf.lt (hsbrk _)).imp id fun hg => hg.1) hrun
  obtain ⟨l', t, ht, hsize, hbase, hstop, hmax⟩ := hP.allocated hf.lt (hsbrk _) ha hp
  rw [ht.ptr]
  refine backed_of_shape ht.shape ht.mem ((hf.le ?_).trans hsize) hstop
  unfold Blk.stop at hstop
  omega

/-- Zero bytes in the payload do not touch the headers. -/
theorem calloc_honors (hP : Process h) (hf : Fits n) {count size : ℕ} (hmul : u64 (count * size) = n) :
    Honors n (fun sbrk => calloc sbrk count size) h := by
  intro sbrk hsbrk p h' hrun hp
  dsimp only at hrun
  unfold calloc at hrun
  rw [hmul] at hrun
  dsimp only at hrun
  split at hrun
  · cases hrun
    exact absurd rfl hp
  rcases hmal : malloc sbrk n h with _ | ⟨q, h₁⟩
  · rw [hmal] at hrun
    cases hrun
  rw [hmal] at hrun
  dsimp only at hrun
  split at hrun
  · cases hrun
    exact absurd rfl hp
  rename_i hq
  split at hrun
  · cases hrun
    have ha := malloc_allocated hP.valid ((hP.behind hf.lt (hsbrk _)).imp id fun hg => hg.1) hmal
    obtain ⟨l', t, ht, hsize, hbase, hstop, hmax⟩ := hP.allocated hf.lt (hsbrk _) ha hq
    have hn : n ≤ t.size := by
      refine (hf.le ?_).trans hsize
      unfold Blk.stop at hstop
      omega
    have hzero : Shape { h₁ with mem := zeroes h₁.mem p n } l' := ht.shape.congr fun c hc i h1 h2 => if_neg fun hi => by
      have hptr := ht.ptr
      have hout := ht.shape.outside ht.mem (i := i) (by omega) (by unfold Blk.stop; omega) c hc
      omega
    rw [ht.ptr] at hzero ⊢
    exact backed_of_shape hzero ht.mem hn hstop
  · cases hrun

theorem realloc_honors (hP : Process h) (hb : b ∈ h.blocks) (hu : b.free = false) (hn : n ≠ 0) (hf : Fits n) :
    Honors n (fun sbrk => realloc sbrk (b.addr + 16) n) h := by
  intro sbrk hsbrk p h' hrun hp
  dsimp only at hrun
  obtain ⟨l₁, l₂, hl⟩ := List.append_of_mem hb
  have hS : Shape h (l₁ ++ b :: l₂) := hl ▸ hP.valid
  have hg := (hP.behind hf.lt (hsbrk _)).imp id fun hg => hg.1
  rw [hl] at hg
  have hupper := hP.upper
  have hlow := hP.low b hb
  have hhigh := hP.high b hb
  have hr := realloc_reallocated hS hn hg hrun
  cases hr with
  | kept hfit _ hmem =>
    have hsplit := (splitBlock_shape hS (normalize n)).1
    rw [← hmem] at hsplit
    have hstop := (kept_stop_le b (normalize n)).trans hhigh
    have hbrk : h'.brk = h.brk := by rw [hmem]
    have hroom : normalize n + 16 ≤ LOADER_HEAP_MAX := by
      unfold Blk.stop at hhigh
      omega
    have hback := backed_of_shape (t := kept b (normalize n)) hsplit (by simp) ((hf.le hroom).trans (le_kept hfit))
      (hbrk ▸ hstop)
    rwa [kept_addr] at hback
  | widened c l₃ hl₂ hbig hfree hj hfit _ hmem =>
    rw [hl₂] at hS hl
    have hc : c ∈ h.blocks := by simp [hl]
    have hcstop := hP.high c hc
    have hsplit := (splitBlock_shape (absorb_shape hS hj).1 (normalize n)).1
    change Shape { h with mem := splitBlock (absorb h.mem b.addr) b.addr (normalize n) } _ at hsplit
    rw [← hmem] at hsplit
    have hbrk : h'.brk = h.brk := by rw [hmem]
    have hsize : (joined b c).size = b.size + (16 + c.size) := by
      refine Nat.mod_eq_of_lt ?_
      unfold Blk.stop at hcstop hj
      unfold LOADER_HEAP_BASE LOADER_HEAP_MAX at hupper
      omega
    have hroom : normalize n + 16 ≤ LOADER_HEAP_MAX := by
      unfold Blk.stop at hcstop hj
      omega
    have hstop := ((kept_stop_le (joined b c) (normalize n)).trans (joined_stop hj)).trans hcstop
    have hback := backed_of_shape (t := kept (joined b c) (normalize n)) hsplit (by simp)
      ((hf.le hroom).trans (le_kept (by rw [hsize]; omega))) (hbrk ▸ hstop)
    rwa [kept_addr] at hback
  | moved hbig _ _ h₁ ha _ hmem =>
    obtain ⟨l', t, ht, hsize, hbase, hstop, hmax⟩ := hP.allocated hf.lt (hsbrk _) (hl ▸ ha) hp
    obtain ⟨l₃, hshape, hmem₃, -⟩ := moved_shape ht hb hu hsize
    have hroom : normalize n + 16 ≤ LOADER_HEAP_MAX := by
      unfold Blk.stop at hstop
      omega
    rw [hmem, ht.ptr]
    rw [ht.ptr] at hshape
    refine backed_of_shape hshape hmem₃ ((hf.le hroom).trans hsize) ?_
    rw [free_brk]
    exact hstop
  | refused _ ha => exact absurd rfl hp

/-- The kernel grants what its limit allows, and all of memory is mapped. -/
def sbrkAt (brk : ℕ) : Sbrk := fun delta =>
  if delta ≤ 0 then ⟨brk, fun _ => true, brk⟩
  else if brk + delta.toNat ≤ LOADER_HEAP_BASE + LOADER_HEAP_MAX then ⟨brk, fun _ => true, brk + delta.toNat⟩
  else ⟨FAILED, fun _ => true, brk⟩

theorem served_sbrkAt (brk : ℕ) (delta : ℤ) : Served brk delta (sbrkAt brk delta) := by
  unfold sbrkAt
  split
  · exact .unchanged _ ‹_›
  split
  · exact .granted _ (by omega) ‹_›
  · exact .refused _ (by omega)

/-- A pointer into the heap does not have so many bytes behind it. -/
theorem not_backed (hf : ¬ Fits n) (hp : LOADER_HEAP_BASE ≤ p) (hbrk : h.brk ≤ LOADER_HEAP_BASE + LOADER_HEAP_MAX) :
    ¬ Backed n p h := by
  rintro ⟨-, hle⟩
  have hn : ¬ n ≤ 2 ^ 31 - 24 := fun h => hf (Or.inl h)
  unfold LOADER_HEAP_MAX at hbrk
  omega

/-- The region is granted, or is none at all. -/
theorem granted_of_not_fits (hf : ¬ Fits n) {brk : ℕ}
    (hroom : brk = LOADER_HEAP_BASE ∨ brk = LOADER_HEAP_BASE + 4096 ∧ ¬ normalize n + 16 ≤ LOADER_HEAP_MAX) :
    (sbrkAt brk (int32 (growChunk (normalize n)))).addr = brk ∧
      (sbrkAt brk (int32 (growChunk (normalize n)))).brk ≤ LOADER_HEAP_BASE + LOADER_HEAP_MAX ∧
      (sbrkAt brk (int32 (growChunk (normalize n)))).mapped = fun _ => true := by
  have hcases : normalize n + 16 ≤ LOADER_HEAP_MAX ∨ 2 ^ 31 ≤ normalize n + 16 := by
    by_contra hno
    exact hf (Or.inr ⟨by omega, by omega⟩)
  have hle := normalize_le n
  have hdelta : int32 (growChunk (normalize n)) ≤ 0 ∨
      brk + (int32 (growChunk (normalize n))).toNat ≤ LOADER_HEAP_BASE + LOADER_HEAP_MAX := by
    unfold LOADER_HEAP_BASE LOADER_HEAP_MAX at *
    unfold int32 growChunk u32 HEADER
    dsimp only
    split_ifs <;> omega
  have hbrk : brk ≤ LOADER_HEAP_BASE + LOADER_HEAP_MAX := by
    unfold LOADER_HEAP_BASE LOADER_HEAP_MAX at *
    omega
  unfold sbrkAt
  split
  · exact ⟨rfl, hbrk, rfl⟩
  · rw [if_pos (hdelta.resolve_left ‹_›)]
    exact ⟨rfl, hdelta.resolve_left ‹_›, rfl⟩

theorem accessible_all (hall : h.mapped = fun _ => true) (a k : ℕ) : h.Accessible a k := fun i _ => by rw [hall]

/-- With all of memory mapped the call returns. -/
theorem malloc_returns (hS : Shape h l) (hno : ∀ b ∈ l, b.free = false)
    (hg : g = sbrk (int32 (growChunk (normalize n))))
    (hbehind : Behind l g (normalize n)) (hmapped : g.mapped = fun _ => true) :
    ∃ h', malloc sbrk n h = some (g.addr + 16, h') ∧ h'.brk = g.brk ∧ h'.mapped = fun _ => true := by
  have hpos := hbehind.pos
  have hfits := hbehind.fits
  have hchunk := growChunk_bounds (normalize n)
  have hptr : u64 (g.addr + HEADER) = g.addr + 16 := Nat.mod_eq_of_lt (by unfold HEADER; omega)
  have hfound : findBlock h.mem (normalize n) MAX_BLOCKS h.head = 0 := by
    rw [hS.head]
    rcases findBlock_eq (n := normalize n) hS.linked hS.ok hS.length_le with ⟨h0, -⟩ | ⟨l₁, b, l₂, rfl, hfree, -, -⟩
    · exact h0
    · exact absurd ((hno b (by simp)).symm.trans hfree) (by simp)
  obtain ⟨h₁, hgrow, hbrk, hall⟩ : ∃ h₁, growHeap sbrk (normalize n) h = some (g.addr, h₁) ∧
      h₁.brk = g.brk ∧ h₁.mapped = fun _ => true := by
    unfold growHeap
    dsimp only
    rw [← hg, if_neg (by unfold FAILED; omega), if_pos (accessible_all hmapped _ _)]
    split <;> exact ⟨_, rfl, rfl, hmapped⟩
  refine ⟨{ h₁ with mem := takeBlock h₁.mem g.addr (normalize n) }, ?_, hbrk, hall⟩
  unfold malloc
  dsimp only
  rw [hfound, if_neg (fun h => h rfl), hgrow]
  dsimp only
  rw [if_neg (by omega), hptr]

theorem process_heapOf {brk : ℕ} (ho : Ordered l) (hok : ∀ b ∈ l, b.Ok) (hlow : ∀ b ∈ l, LOADER_HEAP_BASE ≤ b.addr)
    (hhigh : ∀ b ∈ l, b.stop ≤ brk) (hlower : LOADER_HEAP_BASE ≤ brk)
    (hupper : brk ≤ LOADER_HEAP_BASE + LOADER_HEAP_MAX) :
    Process (heapOf l brk) := by
  have hS := shape_heapOf ho hok brk
  refine ⟨hS.valid, ?_, ?_, hlower, hupper⟩
  · rwa [hS.blocks_eq]
  · rwa [hS.blocks_eq]

/-- Before the first allocation. -/
theorem emptyHeap_process : Process (heapOf [] LOADER_HEAP_BASE) :=
  process_heapOf .nil (fun b hb => by cases hb) (fun b hb => by cases hb) (fun b hb => by cases hb)
  le_rfl (Nat.le_add_right _ _)

theorem malloc_empty (hf : ¬ Fits n) : ∃ p h', malloc (sbrkAt LOADER_HEAP_BASE) n
    (heapOf [] LOADER_HEAP_BASE) = some (p, h') ∧ LOADER_HEAP_BASE ≤ p ∧
    h'.brk ≤ LOADER_HEAP_BASE + LOADER_HEAP_MAX ∧ h'.mapped = fun _ => true := by
  obtain ⟨haddr, hbrk, hmapped⟩ := granted_of_not_fits hf (Or.inl rfl)
  have hbehind : Behind [] (sbrkAt LOADER_HEAP_BASE (int32 (growChunk (normalize n)))) (normalize n) := by
    have hchunk := growChunk_bounds (normalize n)
    have hbase : LOADER_HEAP_BASE = 2 ^ 25 := rfl
    exact ⟨by rw [haddr]; omega, (fun b hb => by cases hb), by rw [haddr]; omega⟩
  obtain ⟨h', hrun, hbrk', hall⟩ := malloc_returns emptyHeap_process.valid (fun b hb => by cases hb) rfl hbehind hmapped
  exact ⟨_, h', hrun, by rw [haddr]; exact Nat.le_add_right _ _, hbrk' ▸ hbrk, hall⟩

theorem calloc_empty (hf : ¬ Fits n) {count size : ℕ} (hmul : count * size = n) (h64 : n < 2 ^ 64) (hn : 0 < n) :
    ∃ p h', calloc (sbrkAt LOADER_HEAP_BASE) count size (heapOf [] LOADER_HEAP_BASE) = some
      (p, h') ∧ LOADER_HEAP_BASE ≤ p ∧ h'.brk ≤ LOADER_HEAP_BASE + LOADER_HEAP_MAX := by
  obtain ⟨p, h₁, hrun, hp, hbrk, hall⟩ := malloc_empty hf
  have hcount : 0 < count := Nat.pos_of_ne_zero fun h0 => by simp [← hmul, h0] at hn
  have hdiv : n / count = size := by rw [← hmul, Nat.mul_div_cancel_left _ hcount]
  have hbase : LOADER_HEAP_BASE = 2 ^ 25 := rfl
  refine ⟨p, { h₁ with mem := zeroes h₁.mem p n }, ?_, hp, hbrk⟩
  unfold calloc
  rw [hmul, show u64 n = n from Nat.mod_eq_of_lt h64]
  dsimp only
  rw [if_neg (fun h => h.2 hdiv), hrun]
  dsimp only
  rw [if_neg (by omega), if_pos (accessible_all hall _ _)]

def oneBlock : List Blk := [⟨LOADER_HEAP_BASE, 4080, false⟩]

theorem oneBlock_process : Process (heapOf oneBlock (LOADER_HEAP_BASE + 4096)) ∧
    Shape (heapOf oneBlock (LOADER_HEAP_BASE + 4096)) ([] ++ ⟨LOADER_HEAP_BASE, 4080, false⟩ :: []) := by
  have hone : ∀ b ∈ oneBlock, b = ⟨LOADER_HEAP_BASE, 4080, false⟩ := fun b hb => List.mem_singleton.mp hb
  have ho : Ordered oneBlock := List.pairwise_singleton _ _
  have hok : ∀ b ∈ oneBlock, b.Ok := fun b hb => hone b hb ▸ ⟨by decide, by decide, by decide⟩
  exact ⟨process_heapOf ho hok (fun b hb => hone b hb ▸ le_rfl) (fun b hb => hone b hb ▸ le_rfl)
    (by decide) (by decide), shape_heapOf ho hok _⟩

/-- One small block in use, and all the rest of the heap free behind it. -/
def fullHeap : List Blk := [⟨LOADER_HEAP_BASE, 8, false⟩, ⟨LOADER_HEAP_BASE + 24, LOADER_HEAP_MAX - 40, true⟩]

theorem fullHeap_process : Process (heapOf fullHeap (LOADER_HEAP_BASE + LOADER_HEAP_MAX)) ∧
    Shape (heapOf fullHeap (LOADER_HEAP_BASE + LOADER_HEAP_MAX)) ([] ++ ⟨LOADER_HEAP_BASE, 8, false⟩ ::
      [⟨LOADER_HEAP_BASE + 24, LOADER_HEAP_MAX - 40, true⟩]) := by
  have htwo : ∀ b ∈ fullHeap, b = ⟨LOADER_HEAP_BASE, 8, false⟩ ∨
    b = ⟨LOADER_HEAP_BASE + 24, LOADER_HEAP_MAX - 40, true⟩ :=
    fun b hb => by simpa [fullHeap] using hb
  have ho : Ordered fullHeap := List.pairwise_pair.mpr (by decide)
  have hok : ∀ b ∈ fullHeap, b.Ok := fun b hb => by
    rcases htwo b hb with rfl | rfl <;> exact ⟨by decide, by decide, by decide⟩
  refine ⟨process_heapOf ho hok (fun b hb => ?_) (fun b hb => ?_) (by decide) (by decide), shape_heapOf ho hok _⟩
  · rcases htwo b hb with rfl | rfl <;> decide
  · rcases htwo b hb with rfl | rfl <;> decide

/-- `realloc` of a block in use goes wrong when the size that is computed is one that the heap has.
-/
theorem realloc_full (hn : n ≠ 0) (hroom : normalize n + 16 ≤ LOADER_HEAP_MAX) : ∃ h',
    realloc (sbrkAt (LOADER_HEAP_BASE + LOADER_HEAP_MAX)) (LOADER_HEAP_BASE + 16) n
      (heapOf fullHeap (LOADER_HEAP_BASE + LOADER_HEAP_MAX)) = some (LOADER_HEAP_BASE + 16, h') ∧
    h'.brk = LOADER_HEAP_BASE + LOADER_HEAP_MAX := by
  obtain ⟨-, hS⟩ := fullHeap_process
  have hm := hS.middle
  have hsize : size (layOut fullHeap) LOADER_HEAP_BASE = 8 := hm.header.size
  have hnext : next (layOut fullHeap) LOADER_HEAP_BASE = LOADER_HEAP_BASE + 24 := hm.header.next
  have hrest : Header (layOut fullHeap) ⟨LOADER_HEAP_BASE + 24, LOADER_HEAP_MAX - 40, true⟩ 0 := hm.linked₂.1
  have hfree : isFree (layOut fullHeap) (LOADER_HEAP_BASE + 24) = 1 := hrest.free
  have hrestSize : size (layOut fullHeap) (LOADER_HEAP_BASE + 24) = LOADER_HEAP_MAX - 40 := hrest.size
  have hptr : LOADER_HEAP_BASE + 16 - HEADER = LOADER_HEAP_BASE := rfl
  have hend : LOADER_HEAP_BASE + 24 = u64 (LOADER_HEAP_BASE + HEADER + 8) := rfl
  unfold realloc heapOf
  rw [if_neg (by decide), if_neg hn, hptr]
  dsimp only
  rw [hsize, hnext, hfree, hrestSize]
  by_cases hfit : normalize n ≤ 8
  · rw [if_pos hfit]
    exact ⟨_, rfl, rfl⟩
  · rw [if_neg hfit, if_pos ⟨by decide, by decide, hend, by unfold LOADER_HEAP_MAX HEADER at *; omega⟩]
    exact ⟨_, rfl, rfl⟩

/-- Or when the region that is asked for is none at all. -/
theorem realloc_oneBlock (hn : n ≠ 0) (hf : ¬ Fits n) (hroom : ¬ normalize n + 16 ≤ LOADER_HEAP_MAX) : ∃ p h',
    realloc (sbrkAt (LOADER_HEAP_BASE + 4096)) (LOADER_HEAP_BASE + 16) n
      (heapOf oneBlock (LOADER_HEAP_BASE + 4096)) = some (p, h') ∧ LOADER_HEAP_BASE ≤ p ∧
    h'.brk ≤ LOADER_HEAP_BASE + LOADER_HEAP_MAX := by
  obtain ⟨-, hS⟩ := oneBlock_process
  have hm := hS.middle
  have hsize : size (heapOf oneBlock (LOADER_HEAP_BASE + 4096)).mem LOADER_HEAP_BASE = 4080 := hm.header.size
  have hnext : next (heapOf oneBlock (LOADER_HEAP_BASE + 4096)).mem LOADER_HEAP_BASE = 0 := hm.header.next
  have hptr : LOADER_HEAP_BASE + 16 - HEADER = LOADER_HEAP_BASE := rfl
  obtain ⟨haddr, hbrk, hmapped⟩ := granted_of_not_fits hf (Or.inr ⟨rfl, hroom⟩)
  have hbase : LOADER_HEAP_BASE = 2 ^ 25 := rfl
  have hbehind : Behind ([] ++ ⟨LOADER_HEAP_BASE, 4080, false⟩ :: [])
      (sbrkAt (LOADER_HEAP_BASE + 4096) (int32 (growChunk (normalize n)))) (normalize n) := by
    have hchunk := growChunk_bounds (normalize n)
    refine ⟨by rw [haddr]; omega, fun b hb => ?_, by rw [haddr]; omega⟩
    rw [haddr, List.mem_singleton.mp hb]
    exact le_rfl
  obtain ⟨h₁, hrun, hbrk₁, hall⟩ := malloc_returns hS (fun b hb => by rw [List.mem_singleton.mp hb]) rfl hbehind hmapped
  rw [haddr] at hrun
  have hbig : ¬ normalize n ≤ 4080 := by
    unfold LOADER_HEAP_MAX at hroom
    omega
  obtain ⟨m, hm⟩ : ∃ m, copyLoop LOADER_HEAP_BASE (normalize n) (LOADER_HEAP_BASE + 4096 + 16) (LOADER_HEAP_BASE + 16)
      (normalize n) 0 h₁.mem = m := ⟨_, rfl⟩
  refine ⟨LOADER_HEAP_BASE + 4096 + 16, free (LOADER_HEAP_BASE + 16) { h₁ with mem := m }, ?_, by omega, ?_⟩
  · unfold realloc
    rw [if_neg (by decide), if_neg hn, hptr, hrun]
    dsimp only
    rw [hsize, hnext, if_neg hbig, if_neg (fun h => h.1 rfl), if_neg (by omega), if_pos (accessible_all hall _ _), hm]
  · rw [free_brk]
    exact hbrk₁ ▸ hbrk

/-- A pointer that is returned has the bytes that were asked for behind it, in every heap, exactly
for the sizes that fit. -/
theorem sizes_honored_iff (hn : 0 < n) (h64 : n < 2 ^ 64) :
    ((∀ h, Process h → Honors n (fun sbrk => malloc sbrk n) h) ↔ Fits n) ∧
    (∀ count size, count * size = n → ((∀ h, Process h → Honors n (fun sbrk => calloc sbrk count size) h) ↔ Fits n)) ∧
    ((∀ h b, Process h → b ∈ h.blocks → b.free = false →
    Honors n (fun sbrk => realloc sbrk (b.addr + 16) n) h) ↔ Fits n) := by
  have hpos : ∀ {p}, LOADER_HEAP_BASE ≤ p → p ≠ 0 := fun hp => by
    have hbase : LOADER_HEAP_BASE = 2 ^ 25 := rfl
    omega
  refine ⟨⟨fun hall => ?_, fun hf h hP => malloc_honors hP hf⟩, fun count size hmul =>
    ⟨fun hall => ?_, fun hf h hP => ?_⟩,
    ⟨fun hall => ?_, fun hf h b hP hb hu => realloc_honors hP hb hu hn.ne' hf⟩⟩
  · by_contra hf
    obtain ⟨p, h', hrun, hp, hbrk, -⟩ := malloc_empty hf
    exact not_backed hf hp hbrk (hall _ emptyHeap_process _ (served_sbrkAt _) p h' hrun (hpos hp))
  · by_contra hf
    obtain ⟨p, h', hrun, hp, hbrk⟩ := calloc_empty hf hmul h64 hn
    exact not_backed hf hp hbrk (hall _ emptyHeap_process _ (served_sbrkAt _) p h' hrun (hpos hp))
  · exact calloc_honors hP hf (by rw [hmul]; exact Nat.mod_eq_of_lt h64)
  · by_contra hf
    by_cases hroom : normalize n + 16 ≤ LOADER_HEAP_MAX
    · obtain ⟨hP, hS⟩ := fullHeap_process
      obtain ⟨h', hrun, hbrk⟩ := realloc_full hn.ne' hroom
      have hmem : (⟨LOADER_HEAP_BASE, 8, false⟩ : Blk) ∈
        (heapOf fullHeap (LOADER_HEAP_BASE + LOADER_HEAP_MAX)).blocks := by
        rw [hS.blocks_eq]
        exact List.mem_cons_self
      exact not_backed hf (Nat.le_add_right _ _) hbrk.le
        (hall _ _ hP hmem rfl _ (served_sbrkAt _) _ h' hrun (hpos (Nat.le_add_right _ _)))
    · obtain ⟨hP, hS⟩ := oneBlock_process
      obtain ⟨p, h', hrun, hp, hbrk⟩ := realloc_oneBlock hn.ne' hf hroom
      have hmem : (⟨LOADER_HEAP_BASE, 4080, false⟩ : Blk) ∈ (heapOf oneBlock (LOADER_HEAP_BASE + 4096)).blocks := by
        rw [hS.blocks_eq]
        exact List.mem_cons_self
      exact not_backed hf hp hbrk (hall _ _ hP hmem rfl _ (served_sbrkAt _) p h' hrun (hpos hp))

theorem sizes_honored_iff_wide : ¬ ∀ h, Process h → Honors (2 ^ 32 + 1) (fun sbrk => malloc sbrk (2 ^ 32 + 1)) h :=
  fun h => absurd ((sizes_honored_iff (n := 2 ^ 32 + 1) (by decide) (by decide)).1.mp h) (by decide)

/-- A request for 2³² + 1 bytes is granted with a block of eight. -/
theorem wide_malloc_cut : (malloc (sbrkAt LOADER_HEAP_BASE) (2 ^ 32 + 1) (heapOf [] LOADER_HEAP_BASE)).map
    (fun r => (r.1, size r.2.mem (r.1 - 16))) = some (LOADER_HEAP_BASE + 16, 8) := by
  decide +kernel

end ComputerOS.Malloc
