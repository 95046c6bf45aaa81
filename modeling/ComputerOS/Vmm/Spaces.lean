import ComputerOS.Vmm.Model
import ComputerOS.Pmm.Invariant

/-!
Address spaces as maps from pages to frames. The tables of all spaces form one forest in
which every table has one owner, and no frame of it can be handed out again. So a mapping
changes the one page it is for, in the one space it is for, and one that fails for want of
tables changes no page at all.
-/
namespace ComputerOS.Vmm

open Pmm TableTree Function

/-- The table that an entry points to. -/
def tableOf (e : ℕ) : Option ℕ := if present e then some (frameOf e) else none

/-- The entries of a user space: a root's lower half, and all of every other table. -/
def UserEntry (p : List ℕ) (i : ℕ) : Prop := p = [] → i < PML4_KERNEL

/-- The indices that lead to the last table for an address. -/
def indices (v : ℕ) : List ℕ := [pml4Index v, pdptIndex v, pdIndex v]

/-- What an entry of a last table says about an address on its page. -/
def shown (e v : ℕ) : ℕ := if present e then frameOf e ||| (v &&& 0xFFF) else 0

theorem nextTable_read (table index virt : ℕ) (s : VmmState) :
    nextTable table index virt false s = (tableOf (s.mem table index), s) := by
  unfold nextTable tableOf
  dsimp only
  split <;> rfl

/-- Resolving an address reads one entry of the space's tree. -/
theorem vmmResolveIn_eq (pml4 virt : ℕ) (s : VmmState) :
    vmmResolveIn pml4 virt s = shown (read tableOf 0 s.mem pml4 (indices virt) (ptIndex virt)) virt := by
  have hzero : shown 0 virt = 0 := rfl
  unfold vmmResolveIn walkToPte indices
  rw [nextTable_read]
  cases h1 : tableOf (s.mem pml4 (pml4Index virt)) with
  | none => rw [read_cons_of_none h1, hzero]
  | some pdpt =>
    rw [read_cons_of_some h1]
    dsimp only
    rw [nextTable_read]
    cases h2 : tableOf (s.mem pdpt (pdptIndex virt)) with
    | none => rw [read_cons_of_none h2, hzero]
    | some pd =>
      rw [read_cons_of_some h2]
      dsimp only
      rw [nextTable_read]
      cases h3 : tableOf (s.mem pd (pdIndex virt)) with
      | none => rw [read_cons_of_none h3, hzero]
      | some pt =>
        rw [read_cons_of_some h3, read_nil]
        rfl

theorem pmmAlloc_nothing_or_page {s : PmmState} (hb : s.nextScan ≤ s.totalPages) :
    pmmAlloc s = (0, s) ∨ ∃ i ∈ s.clear, pmmAlloc s = takePage s i := by
  unfold pmmAlloc
  split
  · next i hfind =>
    refine Or.inr ⟨i, mem_clear.mpr ⟨?_, by simpa using List.find?_some hfind⟩, rfl⟩
    have := List.mem_range'_1.mp (List.mem_of_find?_eq_some hfind)
    omega
  · split
    · next i hfind =>
      refine Or.inr ⟨i, mem_clear.mpr ⟨?_, by simpa using List.find?_some hfind⟩, rfl⟩
      have := List.mem_range'_1.mp (List.mem_of_find?_eq_some hfind)
      omega
    · exact Or.inl rfl

theorem pmmAlloc_takes {s : PmmState} (hb : s.nextScan ≤ s.totalPages) :
    (pmmAlloc s).2.totalPages = s.totalPages ∧ (pmmAlloc s).2.nextScan ≤ s.totalPages ∧
      (pmmAlloc s).2.clear ⊆ s.clear ∧ (pmmAlloc s).1 % 4096 = 0 ∧
      ((pmmAlloc s).1 ≠ 0 → (pmmAlloc s).1 / 4096 ∈ s.clear ∧ (pmmAlloc s).1 / 4096 ∉ (pmmAlloc s).2.clear) := by
  rcases pmmAlloc_nothing_or_page hb with hrun | ⟨i, hi, hrun⟩
  · rw [hrun]
    exact ⟨rfl, hb, Finset.Subset.refl _, rfl, fun h => absurd rfl h⟩
  have hlt := (mem_clear.mp hi).1
  have hdiv : (takePage s i).1 / 4096 = i := Nat.mul_div_cancel i (by decide)
  have hclear : (takePage s i).2.clear = s.clear.erase i := clear_setBit_true _ _ i
  rw [hrun]
  refine ⟨rfl, hlt, ?_, Nat.mul_mod_left i 4096, fun _ => ?_⟩
  · rw [hclear]
    exact Finset.erase_subset i _
  · rw [hdiv, hclear]
    exact ⟨hi, Finset.notMem_erase i _⟩

theorem pmmAlloc_taken {s : PmmState} (hb : s.nextScan ≤ s.totalPages) {k : ℕ} (hk : k ≠ 0) :
    k ∈ s.clear ∧ k ∉ (pmmAlloc s).2.clear ↔ (pmmAlloc s).1 ≠ 0 ∧ k = (pmmAlloc s).1 / 4096 := by
  rcases pmmAlloc_nothing_or_page hb with hrun | ⟨i, hi, hrun⟩
  · rw [hrun]
    exact ⟨fun h => absurd h.1 h.2, fun h => absurd rfl h.1⟩
  have hdiv : (takePage s i).1 / 4096 = i := Nat.mul_div_cancel i (by decide)
  have hzero : (takePage s i).1 ≠ 0 ↔ i ≠ 0 := by
    simp only [takePage, PAGE_SIZE]
    omega
  rw [hrun, hdiv, hzero, show (takePage s i).2.clear = s.clear.erase i from clear_setBit_true _ _ i, Finset.mem_erase]
  constructor
  · rintro ⟨hclear, hgone⟩
    obtain rfl : k = i := by_contra fun hne => hgone ⟨hne, hclear⟩
    exact ⟨hk, rfl⟩
  · rintro ⟨-, rfl⟩
    exact ⟨hi, fun h => h.1 rfl⟩

theorem pmmFree_gives (a : ℕ) (s : PmmState) :
    (pmmFree a s).totalPages = s.totalPages ∧ (pmmFree a s).nextScan ≤ s.nextScan ∧
      ∀ p ∈ (pmmFree a s).clear, p ∈ s.clear ∨ p = a / 4096 := by
  unfold pmmFree
  dsimp only
  split
  · exact ⟨rfl, le_rfl, fun p hp => Or.inl hp⟩
  · next hlt =>
    split
    · exact ⟨rfl, le_rfl, fun p hp => Or.inl hp⟩
    · refine ⟨rfl, ?_, fun p hp => ?_⟩
      · dsimp only
        split <;> omega
      · rw [clear_setBit_false (by omega), Finset.mem_insert] at hp
        exact hp.symm

/-- The page of frame `f` is not free, and no part of the kernel has taken it for itself. -/
structure Held (s : VmmState) (live : List ℕ) (f : ℕ) : Prop where
  used : f / 4096 ∉ s.pmm.clear
  apart : ∀ a ∈ live, a / 4096 ≠ f / 4096

/-- The indices of an address in the upper half, as far as they go. -/
def Upper (q : List ℕ) : Prop := q.length ≤ 3 ∧ ∀ i ∈ q.head?, PML4_KERNEL ≤ i

/-- The frames in which the kernel half is looked up are not free. -/
def KernelKept (s : VmmState) : Prop :=
  ∀ q u, Upper q → walk tableOf s.mem s.kernelPml4 q = some u → u / 4096 ∉ s.pmm.clear

/-- `s` after a run from `s₀`: `spaces` are the roots of the spaces made, `live` the frames
taken by others, and `owner` gives each table of a user half its root and indices. The kernel
half stays if its frames were not free before the run. -/
structure Inv (s₀ s : VmmState) (spaces live : List ℕ) (owner : ℕ → Option (ℕ × List ℕ)) : Prop where
  owned : Owned tableOf UserEntry 3 owner s.mem
  roots : ∀ r ∈ spaces, owner r = some (r, [])
  held : ∀ f, owner f ≠ none → Held s live f
  kernel : KernelKept s₀ → ∀ q u, Upper q → walk tableOf s₀.mem s₀.kernelPml4 q = some u →
    owner u = none ∧ s.mem u = s₀.mem u ∧ Held s live u
  upper : KernelKept s₀ → ∀ r ∈ spaces, ∀ i, PML4_KERNEL ≤ i → s.mem r i = s₀.mem s₀.kernelPml4 i
  root : s.kernelPml4 = s₀.kernelPml4
  taken : ∀ a ∈ live, a / 4096 ∉ s.pmm.clear
  distinct : (live.map (· / 4096)).Nodup
  bound : s.pmm.nextScan ≤ s.pmm.totalPages
  small : s.pmm.totalPages ≤ 2 ^ 52

variable {s₀ s s' : VmmState} {spaces live : List ℕ} {owner : ℕ → Option (ℕ × List ℕ)} {t r i f : ℕ}
  {p : List ℕ}

theorem Inv.fresh (hI : Inv s₀ s spaces live owner) (hf : (pmmAlloc s.pmm).1 = f) (h0 : f ≠ 0) :
    owner f = none ∧ (∀ a ∈ live, a / 4096 ≠ f / 4096) ∧ f / 4096 ∉ (pmmAlloc s.pmm).2.clear ∧
      f % 4096 = 0 ∧ f < 2 ^ 64 ∧
      (KernelKept s₀ → ∀ q u, Upper q → walk tableOf s₀.mem s₀.kernelPml4 q = some u → u / 4096 ≠ f / 4096) := by
  obtain ⟨-, -, -, halign, htake⟩ := pmmAlloc_takes hI.bound
  rw [hf] at halign htake
  obtain ⟨hclear, hgone⟩ := htake h0
  refine ⟨?_, fun a ha he => hI.taken a ha (he ▸ hclear), hgone, halign, ?_, fun hk q u hq hu he => ?_⟩
  · by_contra hne
    exact (hI.held f hne).used hclear
  · have := (mem_clear.mp hclear).1
    have := hI.small
    omega
  · exact (hI.kernel hk q u hq hu).2.2.used (he ▸ hclear)

theorem Inv.shrink (hI : Inv s₀ s spaces live owner) :
    Inv s₀ { s with pmm := (pmmAlloc s.pmm).2 } spaces live owner := by
  obtain ⟨htotal, hscan, hsub, -⟩ := pmmAlloc_takes hI.bound
  have hheld : ∀ u, Held s live u → Held { s with pmm := (pmmAlloc s.pmm).2 } live u :=
    fun u h => ⟨fun hu => h.used (hsub hu), h.apart⟩
  exact {
    owned := hI.owned
    roots := hI.roots
    held := fun f hf => hheld f (hI.held f hf)
    kernel := fun hk q u hq hu =>
      ⟨(hI.kernel hk q u hq hu).1, (hI.kernel hk q u hq hu).2.1, hheld u (hI.kernel hk q u hq hu).2.2⟩
    upper := hI.upper
    root := hI.root
    taken := fun a ha h => hI.taken a ha (hsub h)
    distinct := hI.distinct
    bound := by rw [htotal]; exact hscan
    small := by rw [htotal]; exact hI.small }

/-- The words of a frame that is no table may be anything. -/
theorem Inv.setFrame (hI : Inv s₀ s spaces live owner) (hf : owner f = none)
    (hk : KernelKept s₀ → ∀ q u, Upper q → walk tableOf s₀.mem s₀.kernelPml4 q = some u → u ≠ f) (w : ℕ → ℕ) :
    Inv s₀ { s with mem := update s.mem f w } spaces live owner := by
  have hne : ∀ x r p, owner x = some (r, p) → x ≠ f := by
    rintro x r p hx rfl
    rw [hf] at hx
    cases hx
  exact {
    owned := fun x r p i u hx hlen hok hnext => by
      dsimp only at hnext
      rw [update_of_ne (hne x r p hx)] at hnext
      exact hI.owned x r p i u hx hlen hok hnext
    roots := hI.roots
    held := fun x hx => ⟨(hI.held x hx).used, (hI.held x hx).apart⟩
    kernel := fun hkept q u hq hu => ⟨(hI.kernel hkept q u hq hu).1,
      (update_of_ne (hk hkept q u hq hu) w s.mem).trans (hI.kernel hkept q u hq hu).2.1,
      ⟨(hI.kernel hkept q u hq hu).2.2.used, (hI.kernel hkept q u hq hu).2.2.apart⟩⟩
    upper := fun hkept r hr i hi => by
      dsimp only
      rw [update_of_ne (hne r r [] (hI.roots r hr))]
      exact hI.upper hkept r hr i hi
    root := hI.root
    taken := hI.taken
    distinct := hI.distinct
    bound := hI.bound
    small := hI.small }

/-- The pages that the allocator handed out between `s` and `s'`; the address 0 says that it had
none. -/
def takenPages (s s' : VmmState) : Finset ℕ := (s.pmm.clear \ s'.pmm.clear).erase 0

/-- The entries that `vmm_free_user_pd` looks at, level by level. -/
def widths : List ℕ := [PML4_KERNEL, 512, 512]

/-- Every table is where its owner says. -/
def Placed (s : VmmState) (owner : ℕ → Option (ℕ × List ℕ)) : Prop :=
  ∀ f r p, owner f = some (r, p) → owner r = some (r, []) ∧ Below widths p ∧
  walk tableOf s.mem r p = some f

theorem inside_of_below {is : List ℕ} (h : Below widths is) : Inside UserEntry [] is := by
  match is, h with
  | [], _ => exact trivial
  | [_], h => exact ⟨fun _ => h.1, trivial⟩
  | [_, _], h => exact ⟨fun _ => h.1, fun h => (List.cons_ne_nil _ _ h).elim, trivial⟩
  | [_, _, _], h =>
    exact ⟨fun _ => h.1, fun h => (List.cons_ne_nil _ _ h).elim, fun h => (List.cons_ne_nil _ _ h).elim, trivial⟩

theorem below_next {is : List ℕ} {i : ℕ} (h : Below widths is) (hlen : is.length < 3) (hok : UserEntry is i)
    (hi : i < 512) : Below widths (is ++ [i]) := by
  match is, hlen with
  | [], _ => exact ⟨hok rfl, below_nil _⟩
  | [_], _ => exact h.concat rfl hi
  | [_, _], _ => exact h.concat rfl hi

/-- The tables of `s'` that `s` has not are the pages handed out meanwhile, and belong to the space
`r`. -/
structure Allots (r : ℕ) (s s' : VmmState) (owner owner' : ℕ → Option (ℕ × List ℕ)) : Prop where
  clear : s'.pmm.clear ⊆ s.pmm.clear
  same : ∀ f, owner f ≠ none → owner' f = owner f
  gained : ∀ f, owner' f ≠ owner f ↔ f % 4096 = 0 ∧ f / 4096 ∈ takenPages s s'
  root : ∀ f, owner' f ≠ owner f → ∃ p, owner' f = some (r, p)
  placed : Placed s owner → Placed s' owner'

theorem takenPages_trans {s'' : VmmState} (h : s'.pmm.clear ⊆ s.pmm.clear) (h' : s''.pmm.clear ⊆ s'.pmm.clear) :
    takenPages s s'' = takenPages s s' ∪ takenPages s' s'' := by
  ext k
  have hk := @h k
  have hk' := @h' k
  simp only [takenPages, Finset.mem_erase, Finset.mem_sdiff, Finset.mem_union]
  tauto

theorem Allots.refl (r : ℕ) (s : VmmState) (owner : ℕ → Option (ℕ × List ℕ)) : Allots r s s owner owner := by
  refine ⟨subset_rfl, fun _ _ => rfl, fun f => ?_, fun f hf => absurd rfl hf, fun h => h⟩
  rw [takenPages, Finset.sdiff_self]
  simp

theorem Allots.trans {s'' : VmmState} {owner' owner'' : ℕ → Option (ℕ × List ℕ)}
    (h : Allots r s s' owner owner') (h' : Allots r s' s'' owner' owner'') : Allots r s s'' owner owner'' := by
  have hchange : ∀ f, owner'' f ≠ owner f ↔ owner' f ≠ owner f ∨ owner'' f ≠ owner' f := by
    intro f
    by_cases hnone : owner' f = none
    · have hf : owner f = none := by
        by_contra hf
        exact hf ((h.same f hf).symm.trans hnone)
      rw [hnone, hf]
      simp
    · rw [h'.same f hnone]
      simp
  refine ⟨h'.clear.trans h.clear, fun f hf => ?_, fun f => ?_, fun f hf => ?_, h'.placed ∘ h.placed⟩
  · rw [h'.same f (by rwa [h.same f hf]), h.same f hf]
  · rw [hchange, h.gained, h'.gained, takenPages_trans h.clear h'.clear, Finset.mem_union, and_or_left]
  · by_cases hf' : owner'' f = owner' f
    · obtain ⟨p, hp⟩ := h.root f (by rwa [← hf'])
      exact ⟨p, hf'.trans hp⟩
    · exact h'.root f hf'

/-- What the allocator has handed out is the frame it answered. -/
theorem Inv.mem_takenPages (hI : Inv s₀ s spaces live owner) (hpmm : s'.pmm = (pmmAlloc s.pmm).2) {k : ℕ} :
    k ∈ takenPages s s' ↔ (pmmAlloc s.pmm).1 ≠ 0 ∧ k = (pmmAlloc s.pmm).1 / 4096 := by
  rw [takenPages, hpmm, Finset.mem_erase, Finset.mem_sdiff]
  obtain ⟨-, -, -, halign, -⟩ := pmmAlloc_takes hI.bound
  constructor
  · rintro ⟨hk, hmem⟩
    exact (pmmAlloc_taken hI.bound hk).mp hmem
  · intro h
    have hk : k ≠ 0 := by omega
    exact ⟨hk, (pmmAlloc_taken hI.bound hk).mpr h⟩

theorem Inv.allots_none (hI : Inv s₀ s spaces live owner) (h0 : (pmmAlloc s.pmm).1 = 0) :
    Allots r s { s with pmm := (pmmAlloc s.pmm).2 } owner owner := by
  obtain ⟨-, -, hsub, -⟩ := pmmAlloc_takes hI.bound
  refine ⟨hsub, fun _ _ => rfl, fun f => ?_, fun f hf => absurd rfl hf, fun h => h⟩
  rw [hI.mem_takenPages rfl]
  exact ⟨fun h => absurd rfl h, fun h => absurd h0 h.2.1⟩

/-- A frame that was handed out becomes a table. -/
theorem Inv.allots (hI : Inv s₀ s spaces live owner) (hf : (pmmAlloc s.pmm).1 = f) (h0 : f ≠ 0)
    (hpmm : s'.pmm = (pmmAlloc s.pmm).2)
    (hplaced : Placed s owner → Placed s' (update owner f (some (r, p)))) :
    Allots r s s' owner (update owner f (some (r, p))) := by
  obtain ⟨hnone, -, -, halign, -⟩ := hI.fresh hf h0
  obtain ⟨-, -, hsub, -⟩ := pmmAlloc_takes hI.bound
  have hne : ∀ x, x ≠ f → update owner f (some (r, p)) x = owner x := fun x hx => update_of_ne hx _ _
  refine ⟨by rw [hpmm]; exact hsub, fun x hx => hne x fun h => hx (h ▸ hnone), fun x => ?_, fun x hx => ?_, hplaced⟩
  · rw [hI.mem_takenPages hpmm, hf]
    constructor
    · intro hx
      obtain rfl : x = f := by_contra fun h => hx (hne x h)
      exact ⟨halign, h0, rfl⟩
    · rintro ⟨hx, -, hpage⟩
      obtain rfl : x = f := by omega
      rw [update_self, hnone]
      exact Option.some_ne_none _
  · obtain rfl : x = f := by_contra fun h => hx (hne x h)
    exact ⟨p, update_self ..⟩

/-- No page of a user half looks different. -/
def SameLower (spaces : List ℕ) (s s' : VmmState) : Prop :=
  ∀ r ∈ spaces, ∀ is j, is.length = 3 → Inside UserEntry [] is →
    read tableOf 0 s'.mem r is j = read tableOf 0 s.mem r is j

theorem SameLower.trans {s'' : VmmState} (h : SameLower spaces s s') (h' : SameLower spaces s' s'') :
    SameLower spaces s s'' := fun r hr is j hlen hin =>
  (h' r hr is j hlen hin).trans (h r hr is j hlen hin)

/-- The tables of `s` are still there in `s'`, with the entries they had. -/
structure Grown (s s' : VmmState) (owner owner' : ℕ → Option (ℕ × List ℕ)) : Prop where
  same : ∀ x, owner x ≠ none → owner' x = owner x
  kept : ∀ x j, owner x ≠ none → tableOf (s.mem x j) ≠ none → s'.mem x j = s.mem x j

theorem Grown.trans {s'' : VmmState} {owner' owner'' : ℕ → Option (ℕ × List ℕ)}
    (h : Grown s s' owner owner') (h' : Grown s' s'' owner' owner'') : Grown s s'' owner owner'' := by
  refine ⟨fun x hx => ?_, fun x j hx hj => ?_⟩
  · have hx' := h.same x hx
    rw [h'.same x (by rwa [hx']), hx']
  · have hsame := h.kept x j hx hj
    rw [h'.kept x j (by rwa [h.same x hx]) (by rwa [hsame]), hsame]

theorem tableOf_entry {phys flags : ℕ} (hp : phys % 4096 = 0) (hlt : phys < 2 ^ 64) (hf : flags < 4096)
    (hodd : flags % 2 = 1) : tableOf (phys ||| flags) = some phys := by
  obtain ⟨h1, h2⟩ := entry_eq hp hlt hf hodd
  rw [tableOf, if_pos h1, h2]

theorem write_mem_ne (s : VmmState) {t i e x j : ℕ} (h : x = t → j ≠ i) : (s.write t i e).mem x j = s.mem x j := by
  unfold VmmState.write
  dsimp only
  by_cases hx : x = t
  · rw [hx, update_self, update_of_ne (h hx)]
  · rw [update_of_ne hx]

theorem write_mem_same (s : VmmState) (t i e : ℕ) : (s.write t i e).mem t i = e := by
  unfold VmmState.write
  dsimp only
  rw [update_self, update_self]

/-- A write to a table keeps the kernel's tables and every root's upper half. -/
theorem Inv.write (hI : Inv s₀ s spaces live owner) (ht : owner t = some (r, p)) (hok : UserEntry p i) (e : ℕ)
    (howned : Owned tableOf UserEntry 3 owner (s.write t i e).mem) :
    Inv s₀ (s.write t i e) spaces live owner where
  owned := howned
  roots := hI.roots
  held x hx := ⟨(hI.held x hx).used, (hI.held x hx).apart⟩
  kernel hk q u hq hu := by
    obtain ⟨hnone, hmem, hheld⟩ := hI.kernel hk q u hq hu
    refine ⟨hnone, funext fun j => ?_, hheld.used, hheld.apart⟩
    rw [write_mem_ne s fun he => ?_, hmem]
    rw [he, ht] at hnone
    cases hnone
  upper hk r' hr' j hj := by
    rw [write_mem_ne s fun he => ?_, hI.upper hk r' hr' j hj]
    have hroot := hI.roots r' hr'
    rw [he, ht] at hroot
    cases hroot
    have := hok rfl
    omega
  root := hI.root
  taken := hI.taken
  distinct := hI.distinct
  bound := hI.bound
  small := hI.small

theorem Inv.newTable (hI : Inv s₀ s spaces live owner) (hf : (pmmAlloc s.pmm).1 = f) (h0 : f ≠ 0)
    (o : ℕ × List ℕ) {w : ℕ → ℕ} (hw : ∀ i, UserEntry o.2 i → tableOf (w i) = none) :
    Inv s₀ { s with pmm := (pmmAlloc s.pmm).2, mem := update s.mem f w } spaces live
      (update owner f (some o)) := by
  obtain ⟨hnone, hlive, hgone, -, -, hker⟩ := hI.fresh hf h0
  have hI1 := hI.shrink.setFrame hnone (fun hk q u hq hu he => hker hk q u hq hu (by rw [he])) w
  have hne : ∀ x, owner x ≠ none → x ≠ f := by
    rintro x hx rfl
    exact hx hnone
  exact { hI1 with
    owned := fun x r p i u hx hlen hok hnext => by
      by_cases hxf : x = f
      · subst hxf
        rw [update_self] at hx
        cases hx
        dsimp only at hnext
        rw [update_self, hw i hok] at hnext
        cases hnext
      · rw [update_of_ne hxf] at hx
        have hu := hI1.owned x r p i u hx hlen hok hnext
        rw [update_of_ne (hne u (by rw [hu]; exact Option.some_ne_none _))]
        exact hu
    roots := fun r hr => by
      rw [update_of_ne (hne r (by rw [hI.roots r hr]; exact Option.some_ne_none _))]
      exact hI.roots r hr
    held := fun x hx => by
      by_cases hxf : x = f
      · rw [hxf]
        exact ⟨hgone, hlive⟩
      · rw [update_of_ne hxf] at hx
        exact hI1.held x hx
    kernel := fun hk q u hq hu => by
      rw [update_of_ne fun he => hker hk q u hq hu (by rw [he])]
      exact hI1.kernel hk q u hq hu }

theorem Inv.link (hI : Inv s₀ s spaces live owner) (ht : owner t = some (r, p)) (hp : p.length < 3)
    (hok : UserEntry p i) (habsent : tableOf (s.mem t i) = none) (hf : (pmmAlloc s.pmm).1 = f) (h0 : f ≠ 0)
    (hi : i < 512) {e : ℕ} (he : tableOf e = some f) (hs' : s' = VmmState.write
      { s with pmm := (pmmAlloc s.pmm).2, mem := update s.mem f fun _ => 0 } t i e) :
    Inv s₀ s' spaces live (update owner f (some (r, p ++ [i]))) ∧
      Grown s s' owner (update owner f (some (r, p ++ [i]))) ∧ SameLower spaces s s' ∧
      Allots r s s' owner (update owner f (some (r, p ++ [i]))) := by
  obtain ⟨hnone, -⟩ := hI.fresh hf h0
  have htf : t ≠ f := by
    rintro rfl
    rw [ht] at hnone
    cases hnone
  have hI1 := hI.newTable hf h0 (r, p ++ [i]) (w := fun _ => 0) fun _ _ => rfl
  have hother : ∀ x j, x ≠ f → (x = t → j ≠ i) → s'.mem x j = s.mem x j := by
    intro x j hx hj
    rw [hs', write_mem_ne _ hj]
    dsimp only
    rw [update_of_ne hx]
  have hnew : ∀ j, s'.mem f j = 0 := by
    intro j
    rw [hs', write_mem_ne _ fun h => absurd h.symm htf]
    dsimp only
    rw [update_self]
  have hentry : s'.mem t i = e := by rw [hs', write_mem_same]
  have hl : Linked tableOf 0 s.mem s'.mem t i f :=
    ⟨habsent, by rw [hentry, he], fun j => by rw [hnew j]; rfl, hnew, hother⟩
  have hkept : ∀ x j, owner x ≠ none → tableOf (s.mem x j) ≠ none → s'.mem x j = s.mem x j := by
    refine fun x j hx hj => hother x j (fun h => hx (by rw [h, hnone])) fun h hji => hj ?_
    rw [h, hji]
    exact habsent
  have hpmm : s'.pmm = (pmmAlloc s.pmm).2 := by rw [hs']; rfl
  refine ⟨?_, ⟨fun x hx => ?_, hkept⟩, fun r' hr' is j hlen hin => ?_, hI.allots hf h0 hpmm fun hplaced => ?_⟩
  · rw [hs']
    refine hI1.write (by rw [update_of_ne htf]; exact ht) hok e ?_
    rw [← hs']
    exact hl.owned hI.owned ht hnone
  · have hxf : x ≠ f := fun h => hx (by rw [h, hnone])
    exact update_of_ne hxf _ _
  rotate_left
  · -- the walks to the old tables are still there, and one of them goes on to the new table
    have hold : ∀ x r' q, owner x = some (r', q) → update owner f (some (r, p ++ [i])) r' = some
        (r', []) ∧ Below widths q ∧ walk tableOf s'.mem r' q = some x := by
      intro x r' q hx
      obtain ⟨hroot, hbelow, hwalk⟩ := hplaced x r' q hx
      refine ⟨?_, hbelow, hI.owned.walk_kept hkept hroot ?_ (inside_of_below hbelow) hwalk⟩
      · rw [update_of_ne fun h => by rw [h, hnone] at hroot; cases hroot]
        exact hroot
      · simpa [widths] using hbelow.length_le
    intro x r' p' hx
    by_cases hxf : x = f
    · rw [hxf, update_self] at hx
      cases hx
      obtain ⟨hroot, hbelow, hwalk⟩ := hold t r p ht
      refine ⟨hroot, below_next hbelow hp hok hi, ?_⟩
      rw [walk_append, hwalk, Option.bind_some, walk_cons_of_some (by rw [hentry, he]), hxf]
      rfl
    · rw [update_of_ne hxf] at hx
      exact hold x r' p' hx
  · exact hl.read hI.owned ht hp hnone (hI.roots r' hr') (by simpa using hlen) hin j

/-- One level of the walk: the table behind the entry is there afterwards, or memory ran out. -/
theorem nextTable_inv (hI : Inv s₀ s spaces live owner) (ht : owner t = some (r, p)) (hp : p.length < 3)
    (hok : UserEntry p i) (hi : i < 512) (virt : ℕ) {o : Option ℕ} (hrun : nextTable t i virt true s = (o, s')) :
    ∃ owner', Inv s₀ s' spaces live owner' ∧ Grown s s' owner owner' ∧ SameLower spaces s s' ∧
      Allots r s s' owner owner' ∧
      ∀ u, o = some u → owner' u = some (r, p ++ [i]) ∧ tableOf (s'.mem t i) = some u := by
  unfold nextTable allocPtPhys at hrun
  dsimp only at hrun
  by_cases hpres : present (s.mem t i) = true
  · rw [if_pos hpres] at hrun
    cases hrun
    have htab : tableOf (s.mem t i) = some (frameOf (s.mem t i)) := if_pos hpres
    refine ⟨owner, hI, ⟨fun _ _ => rfl, fun _ _ _ _ => rfl⟩, fun _ _ _ _ _ _ => rfl, .refl r s owner, fun u hu => ?_⟩
    cases hu
    exact ⟨hI.owned t r p i _ ht hp hok htab, htab⟩
  · rw [if_neg hpres, if_pos rfl] at hrun
    by_cases h0 : (pmmAlloc s.pmm).1 = 0
    · rw [if_pos h0] at hrun
      dsimp only at hrun
      rw [if_pos rfl] at hrun
      cases hrun
      exact ⟨owner, hI.shrink, ⟨fun _ _ => rfl, fun _ _ _ _ => rfl⟩, fun _ _ _ _ _ _ => rfl,
        hI.allots_none h0, fun u hu => by cases hu⟩
    · rw [if_neg h0] at hrun
      dsimp only at hrun
      rw [if_neg h0] at hrun
      obtain ⟨hnone, -, -, halign, hlt, -⟩ := hI.fresh rfl h0
      cases hrun
      have habsent : tableOf (s.mem t i) = none := if_neg hpres
      have hent : tableOf ((pmmAlloc s.pmm).1 ||| VMM_PRESENT ||| VMM_WRITE |||
          (if virt < 0xFFFF800000000000 then VMM_USER else 0)) = some (pmmAlloc s.pmm).1 := by
        rw [Nat.or_assoc, Nat.or_assoc]
        refine tableOf_entry halign hlt ?_ ?_ <;> split_ifs <;> decide
      obtain ⟨hI', hgrown, hsame, hallots⟩ := hI.link ht hp hok habsent rfl h0 hi hent rfl
      refine ⟨_, hI', hgrown, hsame, hallots, fun u hu => ?_⟩
      cases hu
      rw [update_self, write_mem_same]
      exact ⟨rfl, hent⟩

theorem inside_indices {v : ℕ} (hv : v < 2 ^ 47) : Inside UserEntry [] (indices v) := by
  refine ⟨fun _ => ?_, fun h => ?_, fun h => ?_, trivial⟩
  · rw [pml4Index, index_eq, PML4_KERNEL]
    omega
  · cases h
  · cases h

/-- The walk of `vmm_map_in`: it reaches the table of the page, or memory ran out on the way. -/
theorem walkToPte_inv (hI : Inv s₀ s spaces live owner) (hr : r ∈ spaces) {virt : ℕ} (hv : virt < 2 ^ 47)
    {o : Option (ℕ × ℕ)} (hrun : walkToPte r virt true s = (o, s')) :
    ∃ owner', Inv s₀ s' spaces live owner' ∧ SameLower spaces s s' ∧ Allots r s s' owner owner' ∧
      ∀ x, o = some x → x.2 = ptIndex virt ∧ owner' x.1 = some (r, indices virt) ∧
        walk tableOf s'.mem r (indices virt) = some x.1 := by
  obtain ⟨hok1, hok2, hok3, -⟩ := inside_indices hv
  have hlt : ∀ k, (virt >>> k) &&& 0x1FF < 512 := fun k => by
    rw [index_eq]
    exact Nat.mod_lt _ (by decide)
  unfold walkToPte at hrun
  rcases h1 : nextTable r (pml4Index virt) virt true s with ⟨_ | pdpt, s1⟩
  · rw [h1] at hrun
    cases hrun
    obtain ⟨owner1, hI1, -, hsame1, hadd1, -⟩ := nextTable_inv hI (hI.roots r hr) (by decide) hok1 (hlt _) virt h1
    exact ⟨owner1, hI1, hsame1, hadd1, fun x hx => by cases hx⟩
  rw [h1] at hrun
  dsimp only at hrun
  obtain ⟨owner1, hI1, -, hsame1, hadd1, hnext1⟩ := nextTable_inv hI (hI.roots r hr) (by decide) hok1 (hlt _) virt h1
  obtain ⟨hpdpt, htab1⟩ := hnext1 pdpt rfl
  rcases h2 : nextTable pdpt (pdptIndex virt) virt true s1 with ⟨_ | pd, s2⟩
  · rw [h2] at hrun
    cases hrun
    obtain ⟨owner2, hI2, -, hsame2, hadd2, -⟩ := nextTable_inv hI1 hpdpt (by simp) hok2 (hlt _) virt h2
    exact ⟨owner2, hI2, hsame1.trans hsame2, hadd1.trans hadd2, fun x hx => by cases hx⟩
  rw [h2] at hrun
  dsimp only at hrun
  obtain ⟨owner2, hI2, hgrown2, hsame2, hadd2, hnext2⟩ := nextTable_inv hI1 hpdpt (by simp) hok2 (hlt _) virt h2
  obtain ⟨hpd, htab2⟩ := hnext2 pd rfl
  rcases h3 : nextTable pd (pdIndex virt) virt true s2 with ⟨_ | pt, s3⟩
  · rw [h3] at hrun
    cases hrun
    obtain ⟨owner3, hI3, -, hsame3, hadd3, -⟩ := nextTable_inv hI2 hpd (by simp) hok3 (hlt _) virt h3
    exact ⟨owner3, hI3, (hsame1.trans hsame2).trans hsame3, (hadd1.trans hadd2).trans hadd3, fun x hx => by cases hx⟩
  rw [h3] at hrun
  cases hrun
  obtain ⟨owner3, hI3, hgrown3, hsame3, hadd3, hnext3⟩ := nextTable_inv hI2 hpd (by simp) hok3 (hlt _) virt h3
  obtain ⟨hpt, htab3⟩ := hnext3 pt rfl
  refine ⟨owner3, hI3, (hsame1.trans hsame2).trans hsame3, (hadd1.trans hadd2).trans hadd3, fun x hx => ?_⟩
  cases hx
  refine ⟨rfl, hpt, ?_⟩
  -- the entries of the upper tables are still there when the lower ones are linked
  have hroot1 : owner1 r ≠ none := by rw [hI1.roots r hr]; exact Option.some_ne_none _
  have hkept1 := (hgrown2.trans hgrown3).kept r (pml4Index virt) hroot1 (by rw [htab1]; exact Option.some_ne_none _)
  have hpdpt2 : owner2 pdpt ≠ none := by
    rw [hgrown2.same pdpt (by rw [hpdpt]; exact Option.some_ne_none _), hpdpt]
    exact Option.some_ne_none _
  have hkept2 := hgrown3.kept pdpt (pdptIndex virt) hpdpt2 (by rw [htab2]; exact Option.some_ne_none _)
  rw [indices, walk_cons_of_some (by rw [hkept1, htab1]), walk_cons_of_some (by rw [hkept2, htab2]),
    walk_cons_of_some htab3, walk]

/-- The entries of the last tables lead to no table. -/
theorem Allots.writeLeaf {owner' : ℕ → Option (ℕ × List ℕ)} {e : ℕ} (h : Allots r s s' owner owner')
    (howned : Owned tableOf UserEntry 3 owner' s'.mem) (ht : owner' t = some (r, p)) (hp : p.length = 3)
    (hother : ∀ x j, (x = t → j ≠ i) → (s'.write t i e).mem x j = s'.mem x j) :
    Allots r s (s'.write t i e) owner owner' := by
  refine ⟨h.clear, h.same, h.gained, h.root, fun hplaced x r' q hx => ?_⟩
  obtain ⟨hroot, hbelow, hwalk⟩ := h.placed hplaced x r' q hx
  refine ⟨hroot, hbelow, ?_⟩
  rw [howned.walk_writeLeaf ht hp hother hroot (by simpa [widths] using hbelow.length_le)
    (inside_of_below hbelow), hwalk]

/-- `vmm_map_in` sets the one entry of its page, or nothing that a page shows. -/
theorem Inv.mapIn (hI : Inv s₀ s spaces live owner) (hr : r ∈ spaces) {virt phys flags rc : ℕ}
    (hv : virt < 2 ^ 47) (hrun : vmmMapIn r virt phys flags s = (rc, s')) :
    (∃ owner', Inv s₀ s' spaces live owner' ∧ Allots r s s' owner owner') ∧
      ((rc = 0 ∧ SameLower spaces s s') ∨
        (rc = 1 ∧ read tableOf 0 s'.mem r (indices virt) (ptIndex virt) = frameOf phys |||
      (flags &&& 0xFFF) ||| VMM_PRESENT ∧ ∀ r' ∈ spaces, ∀ is j, is.length = 3 →
        Inside UserEntry [] is → (r' ≠ r ∨ is ≠ indices virt ∨ j ≠ ptIndex virt) →
        read tableOf 0 s'.mem r' is j = read tableOf 0 s.mem r' is j)) := by
  unfold vmmMapIn at hrun
  rcases hwalk : walkToPte r virt true s with ⟨_ | ⟨pt, i⟩, s1⟩
  · rw [hwalk] at hrun
    cases hrun
    obtain ⟨owner1, hI1, hsame, hadd, -⟩ := walkToPte_inv hI hr hv hwalk
    exact ⟨⟨owner1, hI1, hadd⟩, Or.inl ⟨rfl, hsame⟩⟩
  · rw [hwalk] at hrun
    cases hrun
    obtain ⟨owner1, hI1, hsame, hadd, hpte⟩ := walkToPte_inv hI hr hv hwalk
    obtain ⟨hi, hpt, hreach⟩ := hpte _ rfl
    dsimp only at hi hpt hreach
    subst hi
    have hother : ∀ x j, (x = pt → j ≠ ptIndex virt) → (s1.write pt (ptIndex virt)
        (frameOf phys ||| (flags &&& 0xFFF) ||| VMM_PRESENT)).mem x j = s1.mem x j :=
      fun x j h => write_mem_ne s1 h
    refine ⟨⟨owner1, hI1.write hpt (fun h => by cases h) _ (hI1.owned.writeLeaf hpt rfl hother),
      hadd.writeLeaf hI1.owned hpt rfl hother⟩, Or.inr ⟨rfl, ?_, fun r' hr' is j hlen hin hne => ?_⟩⟩
    · -- the walk reads the tables above the one written
      have hwalk' : walk tableOf (s1.write pt (ptIndex virt)
          (frameOf phys ||| (flags &&& 0xFFF) ||| VMM_PRESENT)).mem r (indices virt) = some pt := by
        rw [hI1.owned.walk_writeLeaf hpt rfl hother (hI1.roots r hr) le_rfl (inside_indices hv), hreach]
      rw [TableTree.read, hwalk']
      exact write_mem_same s1 _ _ _
    · rw [hI1.owned.read_writeLeaf hpt rfl hother (hI1.roots r' hr') (by simpa using hlen) hin j ?_]
      · exact hsame r' hr' is j hlen hin
      · rw [List.nil_append, ne_eq, Prod.mk.injEq]
        tauto

/-- The states that a kernel reaches from `s₀` with the roots of the spaces it made and the
frames it took for other uses; what lies in these frames may be anything. -/
inductive Reached (s₀ : VmmState) : VmmState → List ℕ → List ℕ → Prop
  | start : Reached s₀ s₀ [] []
  | newUserPd {s s' : VmmState} {spaces live : List ℕ} {r : ℕ} (h : Reached s₀ s spaces live)
      (hrun : vmmNewUserPd s = (r, s')) : Reached s₀ s' (if r = 0 then spaces else r :: spaces) live
  | mapIn {s s' : VmmState} {spaces live : List ℕ} {r virt phys flags rc : ℕ} (h : Reached s₀ s spaces live)
      (hr : r ∈ spaces) (hv : virt < 2 ^ 47) (hrun : vmmMapIn r virt phys flags s = (rc, s')) :
      Reached s₀ s' spaces live
  | take {s s' : VmmState} {spaces live : List ℕ} {a : ℕ} (h : Reached s₀ s spaces live)
      (hrun : takeFrame s = (a, s')) : Reached s₀ s' spaces (if a = 0 then live else a :: live)
  | give {s : VmmState} {spaces live : List ℕ} {a : ℕ} (h : Reached s₀ s spaces live) (ha : a ∈ live) :
      Reached s₀ (giveFrame a s) spaces (live.erase a)
  | store {s : VmmState} {spaces live : List ℕ} {a : ℕ} (h : Reached s₀ s spaces live) (ha : a ∈ live)
      (w : ℕ → ℕ) : Reached s₀ { s with mem := update s.mem a w } spaces live

/-- The allocator has page numbers for 64-bit addresses only, and looks for pages among them. -/
structure Sized (s : VmmState) : Prop where
  bound : s.pmm.nextScan ≤ s.pmm.totalPages
  small : s.pmm.totalPages ≤ 2 ^ 52

/-- The allocator is so after `pmm_init` and any calls of it. -/
theorem sized_of_inv {mm : List Entry} {boot pmm : PmmState} {held : List ℕ} (h : Pmm.Inv mm boot pmm held)
    (mem : ℕ → ℕ → ℕ) (root : ℕ) : Sized ⟨pmm, mem, root⟩ := by
  have hsmall := h.small
  exact ⟨h.bound, show pmm.totalPages ≤ 2 ^ 52 by omega⟩

/-- Before the first space is made. -/
structure Booted (s : VmmState) : Prop extends Sized s where
  kernel : KernelKept s

theorem Sized.inv (h : Sized s) : Inv s s [] [] fun _ => none where
  owned _ _ _ _ _ hx := by cases hx
  roots _ hr := by cases hr
  held _ hx := absurd rfl hx
  kernel hk q u hq hu := ⟨rfl, rfl, hk q u hq hu, fun _ ha => by cases ha⟩
  upper _ _ hr := by cases hr
  root := rfl
  taken _ ha := by cases ha
  distinct := List.nodup_nil
  bound := h.bound
  small := h.small

/-- A new space has an empty lower half and the kernel's upper half. -/
theorem Inv.newUserPd (hI : Inv s₀ s spaces live owner) (hrun : vmmNewUserPd s = (r, s')) :
    ∃ owner', Inv s₀ s' (if r = 0 then spaces else r :: spaces) live owner' ∧ Allots r s s' owner owner' := by
  unfold vmmNewUserPd allocPtPhys at hrun
  dsimp only at hrun
  by_cases h0 : (pmmAlloc s.pmm).1 = 0
  · rw [if_pos h0] at hrun
    dsimp only at hrun
    rw [if_pos rfl] at hrun
    cases hrun
    exact ⟨owner, hI.shrink, hI.allots_none h0⟩
  · rw [if_neg h0] at hrun
    dsimp only at hrun
    rw [if_neg h0, update_idem] at hrun
    obtain ⟨hnone, -, -, -, -, hker⟩ := hI.fresh rfl h0
    have hroot : Upper [] := ⟨by decide, fun i hi => by cases hi⟩
    have hpml4 : KernelKept s₀ → s.kernelPml4 ≠ (pmmAlloc s.pmm).1 := fun hk => by
      rw [hI.root]
      exact fun he => hker hk [] _ hroot rfl (by rw [he])
    cases hrun
    rw [if_neg h0]
    have hnew := hI.newTable rfl h0 ((pmmAlloc s.pmm).1, [])
      (w := fun i => if i < PML4_KERNEL then 0 else update s.mem (pmmAlloc s.pmm).1 (fun _ => 0) s.kernelPml4 i)
      fun i hi => by rw [if_pos (hi rfl)]; rfl
    refine ⟨_, { hnew with roots := fun x hx => ?_, upper := fun hk x hx i hi => ?_ },
      hI.allots rfl h0 rfl fun hplaced => ?_⟩
    rotate_right
    · intro x r' q hx
      by_cases hxf : x = (pmmAlloc s.pmm).1
      · rw [hxf, update_self] at hx
        cases hx
        exact ⟨update_self .., below_nil _, by rw [hxf]; rfl⟩
      · rw [update_of_ne hxf] at hx
        obtain ⟨hroot, hbelow, hwalk⟩ := hplaced x r' q hx
        refine ⟨?_, hbelow, hI.owned.walk_kept (fun y j hy _ => ?_) hroot ?_ (inside_of_below hbelow) hwalk⟩
        · rw [update_of_ne fun h => by rw [h, hnone] at hroot; cases hroot]
          exact hroot
        · dsimp only
          rw [update_of_ne fun h => hy (by rw [h, hnone])]
        · simpa [widths] using hbelow.length_le
    · rcases List.mem_cons.mp hx with rfl | hx
      · rw [update_self]
      · exact hnew.roots x hx
    · rcases List.mem_cons.mp hx with rfl | hx
      · dsimp only
        rw [update_self, if_neg (by omega), update_of_ne (hpml4 hk), hI.root, (hI.kernel hk [] _ hroot rfl).2.1]
      · exact hnew.upper hk x hx i hi

theorem Inv.take (hI : Inv s₀ s spaces live owner) {a : ℕ} (hrun : takeFrame s = (a, s')) :
    Inv s₀ s' spaces (if a = 0 then live else a :: live) owner := by
  cases hrun
  have hI1 := hI.shrink
  by_cases h0 : (pmmAlloc s.pmm).1 = 0
  · rw [if_pos h0]
    exact hI1
  · rw [if_neg h0]
    obtain ⟨-, hlive, hgone, -, -, hker⟩ := hI.fresh rfl h0
    obtain ⟨-, -, -, -, htake⟩ := pmmAlloc_takes hI.bound
    have hclear := (htake h0).1
    have hcons : ∀ f, Held { s with pmm := (pmmAlloc s.pmm).2 } live f →
        (pmmAlloc s.pmm).1 / 4096 ≠ f / 4096 →
        Held { s with pmm := (pmmAlloc s.pmm).2 } ((pmmAlloc s.pmm).1 :: live) f := by
      intro f hf hne
      refine ⟨hf.used, fun a ha => ?_⟩
      rcases List.mem_cons.mp ha with rfl | ha
      · exact hne
      · exact hf.apart a ha
    exact { hI1 with
      held := fun f hf => hcons f (hI1.held f hf) fun he => (hI.held f hf).used (he ▸ hclear)
      kernel := fun hk q u hq hu => ⟨(hI1.kernel hk q u hq hu).1, (hI1.kernel hk q u hq hu).2.1,
        hcons u (hI1.kernel hk q u hq hu).2.2 (hker hk q u hq hu).symm⟩
      taken := fun a ha => by
        rcases List.mem_cons.mp ha with rfl | ha
        · exact hgone
        · exact hI1.taken a ha
      distinct := by
        rw [List.map_cons, List.nodup_cons]
        refine ⟨fun hmem => ?_, hI.distinct⟩
        obtain ⟨a, ha, he⟩ := List.mem_map.mp hmem
        exact hlive a ha he }

theorem Inv.give (hI : Inv s₀ s spaces live owner) {a : ℕ} (ha : a ∈ live) :
    Inv s₀ (giveFrame a s) spaces (live.erase a) owner := by
  obtain ⟨htotal, hscan, hclear⟩ := pmmFree_gives a s.pmm
  have hheld : ∀ f, Held s live f → Held (giveFrame a s) (live.erase a) f := by
    intro f hf
    refine ⟨fun hmem => ?_, fun b hb => hf.apart b (List.mem_of_mem_erase hb)⟩
    rcases hclear _ hmem with h | h
    · exact hf.used h
    · exact hf.apart a ha h.symm
  have hperm := (List.perm_cons_erase ha).map (· / 4096)
  have hnodup := hperm.nodup_iff.mp hI.distinct
  rw [List.map_cons, List.nodup_cons] at hnodup
  exact {
    owned := hI.owned
    roots := hI.roots
    held := fun f hf => hheld f (hI.held f hf)
    kernel := fun hk q u hq hu => ⟨(hI.kernel hk q u hq hu).1, (hI.kernel hk q u hq hu).2.1,
      hheld u (hI.kernel hk q u hq hu).2.2⟩
    upper := hI.upper
    root := hI.root
    taken := fun b hb hmem => by
      rcases hclear _ hmem with h | h
      · exact hI.taken b (List.mem_of_mem_erase hb) h
      · exact hnodup.1 (List.mem_map.mpr ⟨b, hb, h⟩)
    distinct := hnodup.2
    bound := (hscan.trans hI.bound).trans htotal.ge
    small := htotal.trans_le hI.small }

theorem Inv.store (hI : Inv s₀ s spaces live owner) {a : ℕ} (ha : a ∈ live) (w : ℕ → ℕ) :
    Inv s₀ { s with mem := update s.mem a w } spaces live owner := by
  refine hI.setFrame ?_ (fun hk q u hq hu he => ?_) w
  · by_contra hne
    exact (hI.held a hne).apart a ha rfl
  · exact (hI.kernel hk q u hq hu).2.2.apart a ha (by rw [he])

theorem Reached.inv (hb : Sized s₀) (h : Reached s₀ s spaces live) : ∃ owner, Inv s₀ s spaces live owner := by
  induction h with
  | start => exact ⟨_, hb.inv⟩
  | newUserPd _ hrun ih =>
    obtain ⟨owner, hI⟩ := ih
    obtain ⟨owner', hI', -⟩ := hI.newUserPd hrun
    exact ⟨owner', hI'⟩
  | mapIn _ hr hv hrun ih =>
    obtain ⟨owner, hI⟩ := ih
    obtain ⟨⟨owner', hI', -⟩, -⟩ := hI.mapIn hr hv hrun
    exact ⟨owner', hI'⟩
  | take _ hrun ih =>
    obtain ⟨owner, hI⟩ := ih
    exact ⟨owner, hI.take hrun⟩
  | give _ ha ih =>
    obtain ⟨owner, hI⟩ := ih
    exact ⟨owner, hI.give ha⟩
  | store _ ha w ih =>
    obtain ⟨owner, hI⟩ := ih
    exact ⟨owner, hI.store ha w⟩

theorem Inv.resolve_upper (hk : KernelKept s₀) (hI : Inv s₀ s spaces live owner) (hr : r ∈ spaces) {v : ℕ}
    (hv : PML4_KERNEL ≤ pml4Index v) : vmmResolveIn r v s = vmmResolveIn s₀.kernelPml4 v s₀ := by
  rw [vmmResolveIn_eq, vmmResolveIn_eq]
  congr 1
  have hfirst := hI.upper hk r hr (pml4Index v) hv
  unfold indices
  cases hnext : tableOf (s₀.mem s₀.kernelPml4 (pml4Index v)) with
  | none => rw [read_cons_of_none hnext, read_cons_of_none (by rw [hfirst, hnext])]
  | some u =>
    rw [read_cons_of_some hnext, read_cons_of_some (by rw [hfirst, hnext])]
    refine read_congr (fun js ks w hjs hw => ?_) _
    have hlen := congrArg List.length hjs
    rw [List.length_append] at hlen
    simp only [List.length_cons, List.length_nil] at hlen
    refine (hI.kernel hk (pml4Index v :: js) w ⟨by rw [List.length_cons]; omega, fun i hi => ?_⟩ ?_).2.1
    · cases hi
      exact hv
    · rw [walk_cons_of_some hnext, hw]

/-- Addresses whose upper bits are copies of bit 47. -/
def Canonical (v : ℕ) : Prop := v < 2 ^ 47 ∨ (2 ^ 64 - 2 ^ 47 ≤ v ∧ v < 2 ^ 64)

theorem shown_entry {phys flags v : ℕ} (hp : phys < 2 ^ 64) :
    shown (frameOf phys ||| (flags &&& 0xFFF) ||| VMM_PRESENT) v = phys / 4096 * 4096 + v % 4096 := by
  have halign : frameOf phys % 4096 = 0 := by
    rw [frameOf_eq hp]
    omega
  have hlow : (flags &&& 0xFFF) ||| VMM_PRESENT < 2 ^ 12 := by
    refine Nat.or_lt_two_pow ?_ (by decide)
    rw [low_eq]
    omega
  have hodd : ((flags &&& 0xFFF) ||| VMM_PRESENT) % 2 = 1 := by
    simp [VMM_PRESENT]
  have hlt : frameOf phys < 2 ^ 64 := by
    rw [frameOf_eq hp]
    omega
  obtain ⟨hpres, hframe⟩ := entry_eq halign hlt hlow hodd
  rw [Nat.or_assoc, shown, if_pos hpres, hframe, low_eq, or_low halign (by omega), frameOf_eq hp]

/-- Page tables are maps from pages to frames, one for each space: in every state of a run, a
mapping that succeeds is what its page resolves to and changes no other page of any space,
and one that fails changes no page. -/
theorem mapIn_refines (hb : Booted s₀) (h : Reached s₀ s spaces live) (hr : r ∈ spaces)
    {virt phys flags rc : ℕ} (hv : virt < 2 ^ 47) (hp : phys < 2 ^ 64)
    (hrun : vmmMapIn r virt phys flags s = (rc, s')) :
    (rc = 1 ∧
      (∀ v, v / 4096 = virt / 4096 → vmmResolveIn r v s' = phys / 4096 * 4096 + v % 4096) ∧
      ∀ r' ∈ spaces, ∀ v, Canonical v → (r' ≠ r ∨ v / 4096 ≠ virt / 4096) →
        vmmResolveIn r' v s' = vmmResolveIn r' v s) ∨
    (rc = 0 ∧ ∀ r' ∈ spaces, ∀ v, Canonical v → vmmResolveIn r' v s' = vmmResolveIn r' v s) := by
  obtain ⟨owner, hI⟩ := h.inv hb.toSized
  obtain ⟨⟨owner', hI', -⟩, hcase⟩ := hI.mapIn hr hv hrun
  have hupper : ∀ r' ∈ spaces, ∀ v, 2 ^ 64 - 2 ^ 47 ≤ v → v < 2 ^ 64 →
      vmmResolveIn r' v s' = vmmResolveIn r' v s := by
    intro r' hr' v hlo hhi
    have hidx : PML4_KERNEL ≤ pml4Index v := by
      rw [pml4Index, index_eq, PML4_KERNEL]
      omega
    rw [hI'.resolve_upper hb.kernel hr' hidx, hI.resolve_upper hb.kernel hr' hidx]
  rcases hcase with ⟨rfl, hsame⟩ | ⟨rfl, hself, hother⟩
  · refine Or.inr ⟨rfl, fun r' hr' v hcan => ?_⟩
    rcases hcan with hlow | ⟨hlo, hhi⟩
    · rw [vmmResolveIn_eq, vmmResolveIn_eq, hsame r' hr' _ _ rfl (inside_indices hlow)]
    · exact hupper r' hr' v hlo hhi
  · refine Or.inl ⟨rfl, fun v hpage => ?_, fun r' hr' v hcan hne => ?_⟩
    · obtain ⟨h1, h2, h3, h4⟩ := (page_eq_iff (by omega) (by omega)).mp hpage
      rw [vmmResolveIn_eq, indices, h1, h2, h3, h4]
      exact (congrArg (shown · v) hself).trans (shown_entry hp)
    · rcases hcan with hlow | ⟨hlo, hhi⟩
      · rw [vmmResolveIn_eq, vmmResolveIn_eq, hother r' hr' _ _ rfl (inside_indices hlow)]
        by_contra hall
        push Not at hall
        obtain ⟨hr', his, hpt⟩ := hall
        rw [indices, indices] at his
        simp only [List.cons.injEq, and_true] at his
        exact hne.elim (fun h => h hr') fun h =>
          h ((page_eq_iff (by omega) (by omega)).mpr ⟨his.1, his.2.1, his.2.2, hpt⟩)
      · exact hupper r' hr' v hlo hhi

/-- Eight free pages, and one table in the kernel half. -/
def eightPages : VmmState :=
  { pmm := { bitmap := fun _ => 0, bitmapPhys := 0x100000, totalPages := 8, freePages := 8, nextScan := 1 }
    mem := fun t i => if t = 0x200000 ∧ i = 256 then 0x201003 else 0
    kernelPml4 := 0x200000 }

theorem eightPages_kernel (i : ℕ) : tableOf (eightPages.mem 0x200000 i) = if i = 256 then some 0x201000 else none := by
  by_cases hi : i = 256
  · rw [hi]
    rfl
  · rw [if_neg hi, eightPages]
    dsimp only
    rw [if_neg fun h => hi h.2]
    rfl

theorem eightPages_booted : Booted eightPages := by
  refine ⟨⟨by decide, by decide⟩, fun q u _ hu hmem => ?_⟩
  have hpage := (mem_clear.mp hmem).1
  change walk tableOf eightPages.mem 0x200000 q = some u at hu
  -- the root, or the table behind its entry 256
  match q with
  | [] =>
    obtain rfl : 0x200000 = u := Option.some.inj hu
    exact absurd hpage (by decide)
  | [i] =>
    cases hnext : tableOf (eightPages.mem 0x200000 i) with
    | none =>
      rw [walk_cons_of_none hnext] at hu
      cases hu
    | some t =>
      rw [walk_cons_of_some hnext] at hu
      rw [eightPages_kernel] at hnext
      split at hnext
      · obtain rfl := Option.some.inj hnext
        obtain rfl : 0x201000 = u := Option.some.inj hu
        exact absurd hpage (by decide)
      · cases hnext
  | i :: j :: is =>
    have hempty : tableOf (eightPages.mem 0x201000 j) = none := by
      rw [eightPages]
      dsimp only
      rw [if_neg fun h => absurd h.1 (by decide)]
      rfl
    cases hnext : tableOf (eightPages.mem 0x200000 i) with
    | none =>
      rw [walk_cons_of_none hnext] at hu
      cases hu
    | some t =>
      rw [walk_cons_of_some hnext] at hu
      rw [eightPages_kernel] at hnext
      split at hnext
      · obtain rfl := Option.some.inj hnext
        rw [walk_cons_of_none hempty] at hu
        cases hu
      · cases hnext

/-- The first space of `eightPages` with one page mapped. -/
theorem eightPages_maps : (vmmMapIn 0x1000 0x400000 0x7000 7 (vmmNewUserPd eightPages).2).1 = 1 ∧
    vmmResolveIn 0x1000 0x400123 (vmmMapIn 0x1000 0x400000 0x7000 7 (vmmNewUserPd eightPages).2).2 = 0x7123 := by
  have hreach : Reached eightPages (vmmNewUserPd eightPages).2 [0x1000] [] :=
    .newUserPd .start (Prod.ext (by rfl) rfl)
  have hrun := (Prod.mk.eta (p := vmmMapIn 0x1000 0x400000 0x7000 7 (vmmNewUserPd eightPages).2)).symm
  rcases mapIn_refines eightPages_booted hreach List.mem_cons_self (by decide) (by decide) hrun with
    ⟨hrc, hpage, -⟩ | ⟨hrc, -⟩
  · exact ⟨hrc, hpage 0x400123 (by decide)⟩
  · revert hrc
    decide

end ComputerOS.Vmm
