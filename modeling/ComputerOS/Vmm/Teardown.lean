import ComputerOS.Vmm.Spaces

/-!
Giving up an address space. `vmm_free_user_pd` walks the user half with three nested loops and
passes each table to `pmm_free` behind the tables below it. These are all the frames that the
space's own calls took from the allocator, each once, and no others.
-/
namespace ComputerOS.Vmm

open Pmm TableTree Function

def ENTRIES : ℕ := 512

/-- The addresses passed to `pmm_free` so far, in order, and the state. -/
abbrev Freeing := List ℕ × VmmState

def freeFrame (phys : ℕ) (st : Freeing) : Freeing := (st.1 ++ [phys], giveFrame phys st.2)

/-- One turn of a loop over the entries of a table: `body` for the table behind the entry, and
`pmm_free` of it. -/
def freeEntry (table : ℕ) (body : ℕ → Freeing → Freeing) (st : Freeing) (i : ℕ) : Freeing :=
  if present (st.2.mem table i) then
    let st := body (frameOf (st.2.mem table i)) st
    freeFrame (frameOf (st.2.mem table i)) st
  else st

def freeEntries (n table : ℕ) (body : ℕ → Freeing → Freeing) (st : Freeing) : Freeing :=
  (List.range n).foldl (freeEntry table body) st

def vmmFreeUserPd (pml4 : ℕ) (s : VmmState) : Freeing :=
  freeFrame pml4 (freeEntries PML4_KERNEL pml4 (fun pdpt =>
    freeEntries ENTRIES pdpt fun pd => freeEntries ENTRIES pd fun _ st => st) ([], s))

/-- The body of a loop frees the tables below a table, of the given widths, and leaves the memory
alone. -/
def FreesBelow (mem : ℕ → ℕ → ℕ) (ns : List ℕ) (body : ℕ → Freeing → Freeing) : Prop :=
  ∀ t st, st.2.mem = mem → (body t st).2.mem = mem ∧ (body t st).1 ++ [t] = st.1 ++ subtables
  tableOf mem ns t

variable {mem : ℕ → ℕ → ℕ} {ns : List ℕ} {body : ℕ → Freeing → Freeing}

/-- The tables behind an entry. -/
def behind (mem : ℕ → ℕ → ℕ) (ns : List ℕ) (t i : ℕ) : List ℕ :=
  match tableOf (mem t i) with
  | none => []
  | some u => subtables tableOf mem ns u

theorem FreesBelow.entry (h : FreesBelow mem ns body) {st : Freeing} (hst : st.2.mem = mem) (t i : ℕ) :
    (freeEntry t body st i).2.mem = mem ∧ (freeEntry t body st i).1 = st.1 ++ behind mem ns t i := by
  rw [freeEntry, behind, tableOf, hst]
  by_cases hpres : present (mem t i) = true
  · obtain ⟨hmem, hfreed⟩ := h (frameOf (mem t i)) st hst
    rw [if_pos hpres, if_pos hpres]
    dsimp only
    rw [hmem, ← hfreed]
    exact ⟨hmem, rfl⟩
  · rw [if_neg hpres, if_neg hpres, List.append_nil]
    exact ⟨hst, rfl⟩

theorem FreesBelow.entries (h : FreesBelow mem ns body) (n : ℕ) :
    FreesBelow mem (n :: ns) fun t => freeEntries n t body := by
  intro t st hst
  have hloop : ∀ (l : List ℕ) (st : Freeing), st.2.mem = mem → (l.foldl (freeEntry t body) st).2.mem = mem ∧
      (l.foldl (freeEntry t body) st).1 = st.1 ++ l.flatMap (behind mem ns t) := by
    intro l
    induction l with
    | nil => exact fun st hst => ⟨hst, (List.append_nil _).symm⟩
    | cons i l ih =>
      intro st hst
      obtain ⟨hmem, hfreed⟩ := h.entry hst t i
      obtain ⟨hmem', hfreed'⟩ := ih (freeEntry t body st i) hmem
      refine ⟨hmem', ?_⟩
      rw [List.foldl_cons, hfreed', hfreed, List.flatMap_cons, List.append_assoc]
  obtain ⟨hmem, hfreed⟩ := hloop (List.range n) st hst
  refine ⟨hmem, ?_⟩
  dsimp only [freeEntries]
  rw [hfreed, subtables, List.append_assoc]
  rfl

theorem vmmFreeUserPd_eq (pml4 : ℕ) (s : VmmState) :
    (vmmFreeUserPd pml4 s).1 = subtables tableOf s.mem widths pml4 := by
  have hnone : FreesBelow s.mem [] fun _ st => st := fun _ _ hst => ⟨hst, rfl⟩
  have hall := ((hnone.entries ENTRIES).entries ENTRIES).entries PML4_KERNEL
  exact (hall pml4 ([], s) rfl).2

/-- For each space the pages that its calls took from the allocator, and the frames that it was
asked to map. -/
structure Log where
  tables : ℕ → Finset ℕ
  mapped : ℕ → List ℕ

def Log.empty : Log := ⟨fun _ => ∅, fun _ => []⟩

def Log.took (g : Log) (r : ℕ) (pages : Finset ℕ) : Log := { g with tables := update g.tables r (g.tables r ∪ pages) }

theorem Log.took_same (g : Log) (r : ℕ) (pages : Finset ℕ) : (g.took r pages).tables r = g.tables r ∪ pages :=
  update_self ..

theorem Log.took_of_ne (g : Log) {r x : ℕ} (h : x ≠ r) (pages : Finset ℕ) :
    (g.took r pages).tables x = g.tables x := update_of_ne h ..

def Log.maps (g : Log) (r f : ℕ) : Log := { g with mapped := update g.mapped r (f :: g.mapped r) }

/-- The runs of `Reached`, with a log. -/
inductive Logged (s₀ : VmmState) : VmmState → List ℕ → List ℕ → Log → Prop
  | start : Logged s₀ s₀ [] [] .empty
  | newUserPd {s s' : VmmState} {spaces live : List ℕ} {g : Log} {r : ℕ} (h : Logged s₀ s spaces live g)
      (hrun : vmmNewUserPd s = (r, s')) :
      Logged s₀ s' (if r = 0 then spaces else r :: spaces) live (g.took r (takenPages s s'))
  | mapIn {s s' : VmmState} {spaces live : List ℕ} {g : Log} {r virt phys flags rc : ℕ}
      (h : Logged s₀ s spaces live g) (hr : r ∈ spaces) (hv : virt < 2 ^ 47)
      (hrun : vmmMapIn r virt phys flags s = (rc, s')) :
      Logged s₀ s' spaces live ((g.took r (takenPages s s')).maps r (frameOf phys))
  | take {s s' : VmmState} {spaces live : List ℕ} {g : Log} {a : ℕ} (h : Logged s₀ s spaces live g)
      (hrun : takeFrame s = (a, s')) : Logged s₀ s' spaces (if a = 0 then live else a :: live) g
  | give {s : VmmState} {spaces live : List ℕ} {g : Log} {a : ℕ} (h : Logged s₀ s spaces live g) (ha : a ∈ live) :
      Logged s₀ (giveFrame a s) spaces (live.erase a) g
  | store {s : VmmState} {spaces live : List ℕ} {g : Log} {a : ℕ} (h : Logged s₀ s spaces live g) (ha : a ∈ live)
      (w : ℕ → ℕ) : Logged s₀ { s with mem := update s.mem a w } spaces live g

variable {s₀ s s' : VmmState} {spaces live : List ℕ} {owner owner' : ℕ → Option (ℕ × List ℕ)} {g : Log} {r : ℕ}

/-- Each table is where its owner says, and the tables of a space are the pages in the log. -/
structure Exact (s : VmmState) (owner : ℕ → Option (ℕ × List ℕ)) (tables : ℕ → Finset ℕ) : Prop where
  placed : Placed s owner
  tables : ∀ r f, (∃ p, owner f = some (r, p)) ↔ f % 4096 = 0 ∧ f / 4096 ∈ tables r

/-- Calls for the space `r` add to its tables what they took. -/
theorem Exact.allots (h : Exact s owner g.tables) (ha : Allots r s s' owner owner') :
    Exact s' owner' (g.took r (takenPages s s')).tables := by
  refine ⟨ha.placed h.placed, fun x f => ?_⟩
  have hold := h.tables x f
  have hgained := ha.gained f
  by_cases hsame : owner' f = owner f
  · -- an old table, or no table
    have hnot : ¬ (f % 4096 = 0 ∧ f / 4096 ∈ takenPages s s') := fun hg => hgained.mpr hg hsame
    rw [hsame, hold]
    by_cases hx : x = r
    · rw [hx, Log.took_same, Finset.mem_union]
      tauto
    · rw [Log.took_of_ne g hx]
  · obtain ⟨halign, htaken⟩ := hgained.mp hsame
    obtain ⟨p, hp⟩ := ha.root f hsame
    have hnone : owner f = none := by_contra fun hne => hsame (ha.same f hne)
    rw [hp]
    by_cases hx : x = r
    · rw [hx, Log.took_same, Finset.mem_union]
      exact ⟨fun _ => ⟨halign, Or.inr htaken⟩, fun _ => ⟨p, rfl⟩⟩
    · rw [Log.took_of_ne g hx, ← hold, hnone]
      refine ⟨fun ⟨q, hq⟩ => absurd ?_ hx, fun ⟨q, hq⟩ => by cases hq⟩
      cases hq
      rfl

theorem Logged.exact (hb : Sized s₀) (h : Logged s₀ s spaces live g) :
    ∃ owner, Inv s₀ s spaces live owner ∧ Exact s owner g.tables := by
  induction h with
  | start =>
    refine ⟨_, hb.inv, fun f r p hf => (Option.some_ne_none _ hf.symm).elim, fun r f => ?_⟩
    exact ⟨fun ⟨p, hp⟩ => (Option.some_ne_none _ hp.symm).elim, fun hf => absurd hf.2 (Finset.notMem_empty _)⟩
  | newUserPd _ hrun ih =>
    obtain ⟨owner, hI, hE⟩ := ih
    obtain ⟨owner', hI', hadd⟩ := hI.newUserPd hrun
    exact ⟨owner', hI', hE.allots hadd⟩
  | mapIn _ hr hv hrun ih =>
    obtain ⟨owner, hI, hE⟩ := ih
    obtain ⟨⟨owner', hI', hadd⟩, -⟩ := hI.mapIn hr hv hrun
    exact ⟨owner', hI', hE.allots hadd⟩
  | take _ hrun ih =>
    obtain ⟨owner, hI, hE⟩ := ih
    refine ⟨owner, hI.take hrun, ?_⟩
    cases hrun
    exact ⟨hE.placed, hE.tables⟩
  | give _ ha ih =>
    obtain ⟨owner, hI, hE⟩ := ih
    exact ⟨owner, hI.give ha, hE.placed, hE.tables⟩
  | @store s _ _ _ a _ ha w ih =>
    obtain ⟨owner, hI, hE⟩ := ih
    refine ⟨owner, hI.store ha w, fun f r p hf => ?_, hE.tables⟩
    obtain ⟨hroot, hbelow, hwalk⟩ := hE.placed f r p hf
    have hkept : ∀ x j, owner x ≠ none → tableOf (s.mem x j) ≠ none → update s.mem a w x j = s.mem x j := by
      intro x j hx _
      rw [update_of_ne]
      rintro rfl
      exact (hI.held x hx).apart x ha rfl
    refine ⟨hroot, hbelow, hI.owned.walk_kept hkept hroot ?_ (inside_of_below hbelow) hwalk⟩
    simpa [widths] using hbelow.length_le

/-- No table of a user half is found through the kernel half. -/
theorem Inv.upper_unowned (hk : KernelKept s₀) (hI : Inv s₀ s spaces live owner) (hr : r ∈ spaces)
    {q : List ℕ} {u : ℕ} (hq : Upper q)
    (hne : q ≠ []) (hwalk : walk tableOf s.mem r q = some u) : owner u = none := by
  obtain ⟨hlen, hfirst⟩ := hq
  cases q with
  | nil => exact absurd rfl hne
  | cons i is =>
    have hi : PML4_KERNEL ≤ i := hfirst i rfl
    have hentry := hI.upper hk r hr i hi
    cases hnext : tableOf (s₀.mem s₀.kernelPml4 i) with
    | none =>
      rw [walk_cons_of_none (by rw [hentry, hnext])] at hwalk
      cases hwalk
    | some w =>
      rw [walk_cons_of_some (by rw [hentry, hnext])] at hwalk
      -- the tables on the way are as they were at boot
      have hsame : walk tableOf s.mem w is = walk tableOf s₀.mem w is := by
        refine walk_congr fun js ks x hjs hx => (hI.kernel hk (i :: js) x ⟨?_, fun j hj => ?_⟩ ?_).2.1
        · have hlen' := congrArg List.length hjs
          simp only [List.length_cons, List.length_append] at hlen hlen' ⊢
          omega
        · cases hj
          exact hi
        · rw [walk_cons_of_some hnext, hx]
      refine (hI.kernel hk (i :: is) u ⟨hlen, hfirst⟩ ?_).1
      rw [walk_cons_of_some hnext, ← hsame, hwalk]

/-- `vmm_free_user_pd` passes to `pmm_free` each frame that the calls for the space took, once, and
neither a mapped frame, nor one that another part of the kernel holds. Every one of them is found
through the entries of the user half, and none through the kernel half if the frames of that half
were not free at the start. -/
theorem vmmFreeUserPd_exact (hb : Sized s₀) (h : Logged s₀ s spaces live g) (hr : r ∈ spaces)
    (hmapped : ∀ f ∈ g.mapped r, f / 4096 ∉ g.tables r) :
    (vmmFreeUserPd r s).1.Nodup ∧
    (∀ f, f ∈ (vmmFreeUserPd r s).1 ↔ f % 4096 = 0 ∧ f / 4096 ∈ g.tables r) ∧
    (∀ f ∈ g.mapped r, f ∉ (vmmFreeUserPd r s).1) ∧ (∀ a ∈ live, a ∉ (vmmFreeUserPd r s).1) ∧
    (∀ f ∈ (vmmFreeUserPd r s).1, ∃ is, Below widths is ∧ walk tableOf s.mem r is = some f) ∧
    (KernelKept s₀ → ∀ q u, Upper q → q ≠ [] → walk tableOf s.mem r q = some u → u ∉ (vmmFreeUserPd r s).1) := by
  obtain ⟨owner, hI, hE⟩ := h.exact hb
  have hroot := hI.roots r hr
  have hinside : ∀ is, Below widths is → Inside UserEntry [] is := fun _ => inside_of_below
  have hfreed : ∀ f, f ∈ (vmmFreeUserPd r s).1 ↔ ∃ p, owner f = some (r, p) := by
    intro f
    rw [vmmFreeUserPd_eq, mem_subtables]
    constructor
    · rintro ⟨is, hbelow, hwalk⟩
      exact ⟨is, hI.owned.walk hroot (by simpa [widths] using hbelow.length_le) (hinside is hbelow) hwalk⟩
    · rintro ⟨p, hp⟩
      obtain ⟨-, hbelow, hwalk⟩ := hE.placed f r p hp
      exact ⟨p, hbelow, hwalk⟩
  refine ⟨?_, fun f => (hfreed f).trans (hE.tables r f), fun f hf hmem => ?_, fun a ha hmem => ?_,
    fun f hf => ?_, fun hk q u hq hne hwalk hmem => ?_⟩
  · rw [vmmFreeUserPd_eq]
    exact hI.owned.nodup_subtables hroot (by simp [widths]) hinside
  · exact hmapped f hf ((hE.tables r f).mp ((hfreed f).mp hmem)).2
  · obtain ⟨p, hp⟩ := (hfreed a).mp hmem
    exact (hI.held a (by rw [hp]; exact Option.some_ne_none _)).apart a ha rfl
  · rwa [vmmFreeUserPd_eq, mem_subtables] at hf
  · obtain ⟨p, hp⟩ := (hfreed u).mp hmem
    rw [hI.upper_unowned hk hr hq hne hwalk] at hp
    cases hp

/-- The first space of `eightPages` with the frame `0x7000` mapped: its four tables are freed, the
root last, and the kernel's table is not. -/
theorem eightPages_teardown :
    (vmmFreeUserPd 0x1000 (vmmMapIn 0x1000 0x400000 0x7000 7 (vmmNewUserPd eightPages).2).2).1.Nodup ∧
    0x4000 ∈ (vmmFreeUserPd 0x1000 (vmmMapIn 0x1000 0x400000 0x7000 7 (vmmNewUserPd eightPages).2).2).1 ∧
    0x7000 ∉ (vmmFreeUserPd 0x1000 (vmmMapIn 0x1000 0x400000 0x7000 7 (vmmNewUserPd eightPages).2).2).1 ∧
    0x201000 ∉ (vmmFreeUserPd 0x1000 (vmmMapIn 0x1000 0x400000 0x7000 7 (vmmNewUserPd eightPages).2).2).1 := by
  have hnew : vmmNewUserPd eightPages = (0x1000, (vmmNewUserPd eightPages).2) := Prod.ext (by rfl) rfl
  have hlog := (Logged.start.newUserPd hnew).mapIn List.mem_cons_self (by decide)
    (Prod.mk.eta (p := vmmMapIn 0x1000 0x400000 0x7000 7 (vmmNewUserPd eightPages).2)).symm
  obtain ⟨hnodup, hmem, hmapped, -, -, hkernel⟩ :=
    vmmFreeUserPd_exact eightPages_booted.toSized hlog List.mem_cons_self (by decide +kernel)
  refine ⟨hnodup, (hmem 0x4000).mpr (by decide +kernel), hmapped 0x7000 (by decide +kernel), ?_⟩
  exact hkernel eightPages_booted.kernel [256] _ ⟨by decide, fun i hi => by cases hi; decide⟩ (List.cons_ne_nil _ _)
    (by decide +kernel)

end ComputerOS.Vmm
