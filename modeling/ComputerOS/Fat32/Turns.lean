import ComputerOS.Fat32.Tree

/-!
The loops over the clusters of a directory, turn after turn, with the places at which the cached
table is read or written. Freeing a chain counts its turns; walking a directory and looking for a
free slot do not, and on a chain that leads back to itself they go on as long as no slot stops them.
-/
namespace ComputerOS.Fat32.Turns

open Function Fallible

/-- The volume, the answers of the heap, and the places of the table that have been touched, the
last one first. -/
structure Walk where
  vol : Vol
  heap : ℕ → Bool
  touched : List ℕ

/-- No result means that the turns have not been enough; an error of the code is a result. -/
abbrev W := Fallible Walk

def touch (c : ℕ) : W Unit := modify fun s => { s with touched := c :: s.touched }

def setVol (f : Vol → Vol) : W Unit := modify fun s => { s with vol := f s.vol }

def kmalloc : W Bool := mk fun s => (some (s.heap 0), { s with heap := fun i => s.heap (i + 1) })

variable (g : Geom)

def getEntry (c : ℕ) : W ℕ := do
  if g.fatEntries ≤ c then pure FAT32_EOC
  else do
    touch c
    let s ← get
    pure (s.vol.fat c % 2 ^ 28)

def setEntry (c value : ℕ) : W Unit := do
  if g.fatEntries ≤ c then pure ()
  else do
    touch c
    setVol (Fat32.setEntry g c value)

/-- The loop of `fat32_alloc_cluster` over the clusters that are left. -/
def allocLoop : List ℕ → W (Option ℕ)
  | [] => pure none
  | c :: rest => do
      touch c
      let s ← get
      if isFree s.vol c then do
        setEntry g c FAT32_EOC
        pure (some c)
      else allocLoop rest

def allocCluster : W (Option ℕ) := allocLoop g (List.range' 2 (g.fatEntries - 2))

/-- The loop of `fat32_free_chain`, and what comes after it. -/
def freeLoop : ℕ → ℕ → W Unit
  | safety, c => do
      if 2 ≤ c ∧ isEndOfChain c = false then
        match safety with
        | 0 => pure ()
        | safety + 1 => do
            let next ← getEntry g c
            setEntry g c FAT32_FREE
            freeLoop safety next
      else if 2 ≤ c ∧ isEndOfChain c then setEntry g c FAT32_FREE else pure ()

def freeChain (start : ℕ) : W Unit := freeLoop g (g.totalClusters + 2) start

def extendChain (last : ℕ) : W (Option ℕ) := do
  match ← allocCluster g with
  | none => pure none
  | some c => do
      setEntry g last c
      setEntry g c FAT32_EOC
      pure (some c)

variable {κ : Type}

/-- The loop of `dir_each` over the slots of a chunk: what it is left with, if it is left, and the
chunk. The callback gives its return value and the entry as it leaves it. -/
def eachSlots (cb : ℕ → ℕ → Mem → κ → ℤ × Mem × κ) (chunk : ℕ) : List ℕ → Mem → κ → Option ℤ × Mem × κ
  | [], buf, k => (none, buf, k)
  | i :: rest, buf, k =>
      if buf (32 * i) = 0 then (some 0, buf, k)
      else
        let r := cb chunk i (slotOf buf i) k
        let buf := putSlot buf i r.2.1
        if r.1 ≠ 0 then (some r.1, buf, r.2.2) else eachSlots cb chunk rest buf r.2.2

/-- The loop of `dir_each` over the chunks. -/
def eachLoop (cb : ℕ → ℕ → Mem → κ → ℤ × Mem × κ) : ℕ → ℕ → κ → W (ℤ × κ)
  | 0, _, _ => fail
  | turns + 1, chunk, k => do
      let s ← get
      match eachSlots cb chunk (List.range (entriesPerCluster g)) (chunkOf g s.vol chunk) k with
      | (some r, buf, k) => do
          if r = 1 then setVol fun v => { v with disk := update v.disk (realCluster g chunk) buf }
          pure (r, k)
      | (none, _, k) => do
          let next ← getEntry g (realCluster g chunk)
          if isEndOfChain next then pure (0, k) else eachLoop cb turns next k

def dirEach (cb : ℕ → ℕ → Mem → κ → ℤ × Mem × κ) (turns dir : ℕ) (k : κ) : W (ℤ × κ) := do
  if ← kmalloc then eachLoop g cb turns dir k else pure (-1, k)

/-- The loop of `dir_each_lfn` over the slots of a chunk; `segs` holds the long name entries since
the last other one. -/
def eachLfnSlots (cb : Visit → κ → ℤ × κ) (cell : Mem) (chunk : ℕ) : List ℕ → List Mem → κ → Option ℤ × List Mem × κ
  | [], segs, k => (none, segs, k)
  | i :: rest, segs, k =>
      let e := slotOf cell i
      if e 0 = 0 then (some 0, segs, k)
      else if e 0 = 0xE5 then eachLfnSlots cb cell chunk rest [] k
      else if attr e = ATTR_LFN then
        eachLfnSlots cb cell chunk rest (if segs.length < 20 then segs ++ [e] else segs) k
      else
        let r := cb ⟨chunk, i, e, lfnReconstruct segs⟩ k
        if r.1 ≠ 0 then (some r.1, [], r.2) else eachLfnSlots cb cell chunk rest [] r.2

def eachLfnLoop (cb : Visit → κ → ℤ × κ) : ℕ → ℕ → List Mem → κ → W (ℤ × κ)
  | 0, _, _, _ => fail
  | turns + 1, chunk, segs, k => do
      let s ← get
      match eachLfnSlots cb (chunkOf g s.vol chunk) chunk (List.range (entriesPerCluster g)) segs k with
      | (some r, _, k) => pure (r, k)
      | (none, segs, k) => do
          let next ← getEntry g (realCluster g chunk)
          if isEndOfChain next then pure (0, k) else eachLfnLoop cb turns next segs k

def dirEachLfn (cb : Visit → κ → ℤ × κ) (turns dir : ℕ) (k : κ) : W (ℤ × κ) := do
  if ← kmalloc then
    if ← kmalloc then eachLfnLoop g cb turns dir [] k else pure (-1, k)
  else pure (-1, k)

/-- The cluster at the end of a directory that has no free slot. -/
def growDir (last : ℕ) : W (Option (ℕ × ℕ)) := do
  match ← extendChain g last with
  | none => pure none
  | some c => do
      setVol fun v => { v with disk := update v.disk c fun _ => 0 }
      pure (some (c, 0))

/-- The loop of `dir_alloc_slot`; `none` as a result is the return value -1. -/
def slotLoop : ℕ → ℕ → W (Option (ℕ × ℕ))
  | 0, _ => fail
  | turns + 1, chunk => do
      let s ← get
      match (slotsIn g s.vol chunk).find? fun p => slotFree p.entry with
      | some p => pure (some (p.chunk, p.idx))
      | none => do
          let next ← getEntry g (realCluster g chunk)
          if isEndOfChain next then growDir g (realCluster g chunk) else slotLoop turns next

def dirAllocSlot (turns dir : ℕ) : W (Option (ℕ × ℕ)) := do
  if ← kmalloc then slotLoop g turns dir else pure none

variable {g} {v : Vol} {dir c start safety turns : ℕ} {s : Walk} {L : List ℕ} {buf cell : Mem} {segs : List Mem} {k : κ}

def InTable (g : Geom) (s : Walk) : Prop := ∀ c ∈ s.touched, c < g.fatEntries

/-- The function touches only places of the table, also when the turns are not enough. -/
def Guarded {α : Type} (g : Geom) (x : W α) : Prop := Triple (InTable g) x (fun _ => InTable g) (InTable g)

namespace Guarded

variable {α β : Type}

theorem pure (a : α) : Guarded g (Pure.pure a) := Triple.pure fun _ hs => hs

theorem fail : Guarded g (Fallible.fail : W α) := Triple.fail fun _ hs => hs

theorem bind {x : W α} {f : α → W β} (hx : Guarded g x) (hf : ∀ a, Guarded g (f a)) : Guarded g (x >>= f) :=
  Triple.bind hx hf

theorem get : Guarded g (Fallible.get : W Walk) :=
  (Triple.get (P := InTable g)).mono (fun _ hs => hs) (fun _ _ hs => hs.1) fun _ hs => hs

theorem kmalloc : Guarded g kmalloc := fun _ hs => ⟨fun _ _ => hs, fun _ => hs⟩

theorem setVol (f : Vol → Vol) : Guarded g (setVol f) := Triple.modify fun _ hs => hs

theorem touch (hc : c < g.fatEntries) : Guarded g (touch c) := by
  refine Triple.modify fun s hs x hx => ?_
  rcases List.mem_cons.mp hx with rfl | hx
  · exact hc
  · exact hs x hx

theorem getEntry (g : Geom) (c : ℕ) : Guarded g (getEntry g c) := by
  unfold Turns.getEntry
  split
  · exact pure _
  · exact (touch (by omega)).bind fun _ => get.bind fun _ => pure _

theorem setEntry (g : Geom) (c value : ℕ) : Guarded g (setEntry g c value) := by
  unfold Turns.setEntry
  split
  · exact pure _
  · exact (touch (by omega)).bind fun _ => setVol _

theorem allocLoop (hL : ∀ c ∈ L, c < g.fatEntries) : Guarded g (allocLoop g L) := by
  induction L with
  | nil => exact pure _
  | cons c L ih =>
    refine (touch (hL c List.mem_cons_self)).bind fun _ => get.bind fun s => ?_
    split
    · exact (setEntry g c _).bind fun _ => pure _
    · exact ih fun x hx => hL x (List.mem_cons_of_mem _ hx)

theorem allocCluster (g : Geom) : Guarded g (allocCluster g) := by
  refine allocLoop fun c hc => ?_
  have := List.mem_range'_1.mp hc
  omega

theorem extendChain (g : Geom) (last : ℕ) : Guarded g (extendChain g last) := by
  refine (allocCluster g).bind fun r => ?_
  cases r with
  | none => exact pure _
  | some c => exact (setEntry g last c).bind fun _ => (setEntry g c _).bind fun _ => pure _

theorem freeLoop (g : Geom) (safety c : ℕ) : Guarded g (freeLoop g safety c) := by
  induction safety generalizing c with
  | zero =>
    unfold Turns.freeLoop
    split
    · exact pure _
    · split
      · exact setEntry g c _
      · exact pure _
  | succ safety ih =>
    unfold Turns.freeLoop
    split
    · exact (getEntry g c).bind fun next => (setEntry g c _).bind fun _ => ih next
    · split
      · exact setEntry g c _
      · exact pure _

theorem eachLoop (cb : ℕ → ℕ → Mem → κ → ℤ × Mem × κ) (turns chunk : ℕ) (k : κ) :
    Guarded g (eachLoop g cb turns chunk k) := by
  induction turns generalizing chunk k with
  | zero => exact fail
  | succ turns ih =>
    refine get.bind fun s => ?_
    split
    · split
      · exact (setVol _).bind fun _ => pure _
      · exact pure _
    · refine (getEntry g _).bind fun next => ?_
      split
      · exact pure _
      · exact ih next _

theorem eachLfnLoop (cb : Visit → κ → ℤ × κ) (turns chunk : ℕ) (segs : List Mem) (k : κ) :
    Guarded g (eachLfnLoop g cb turns chunk segs k) := by
  induction turns generalizing chunk segs k with
  | zero => exact fail
  | succ turns ih =>
    refine get.bind fun s => ?_
    split
    · exact pure _
    · refine (getEntry g _).bind fun next => ?_
      split
      · exact pure _
      · exact ih next _ _

theorem slotLoop (g : Geom) (turns chunk : ℕ) : Guarded g (slotLoop g turns chunk) := by
  induction turns generalizing chunk with
  | zero => exact fail
  | succ turns ih =>
    refine get.bind fun s => ?_
    split
    · exact pure _
    · refine (getEntry g _).bind fun next => ?_
      split
      · refine (extendChain g _).bind fun r => ?_
        cases r with
        | none => exact pure _
        | some c => exact (setVol _).bind fun _ => pure _
      · exact ih next

theorem dirEach (cb : ℕ → ℕ → Mem → κ → ℤ × Mem × κ) (turns dir : ℕ) (k : κ) :
    Guarded g (dirEach g cb turns dir k) := by
  refine kmalloc.bind fun b => ?_
  cases b with
  | false => exact pure _
  | true => exact eachLoop cb turns dir k

theorem dirEachLfn (cb : Visit → κ → ℤ × κ) (turns dir : ℕ) (k : κ) : Guarded g (dirEachLfn g cb turns dir k) := by
  refine kmalloc.bind fun b => ?_
  cases b with
  | false => exact pure _
  | true =>
    refine kmalloc.bind fun b => ?_
    cases b with
    | false => exact pure _
    | true => exact eachLfnLoop cb turns dir [] k

theorem dirAllocSlot (g : Geom) (turns dir : ℕ) : Guarded g (dirAllocSlot g turns dir) := by
  refine kmalloc.bind fun b => ?_
  cases b with
  | false => exact pure _
  | true => exact slotLoop g turns dir

/-- What has been touched after a run. -/
theorem run {x : W α} (h : Guarded g x) (hs : InTable g s) : InTable g (x.run s).2 := by
  cases hr : (x.run s).1 with
  | none => exact (h s hs).2 hr
  | some a => exact (h s hs).1 a hr

end Guarded

/-- A chunk that the walk from `dir` comes to if nothing stops it. -/
inductive Chunk (g : Geom) (v : Vol) (dir : ℕ) : ℕ → Prop
  | first : Chunk g v dir dir
  | next {c : ℕ} : Chunk g v dir c → isEndOfChain (Fat32.getEntry g v (realCluster g c)) = false →
      Chunk g v dir (Fat32.getEntry g v (realCluster g c))

/-- The chunk is the last one of its chain, or has an end mark. -/
def Stops (g : Geom) (v : Vol) (c : ℕ) : Prop :=
  isEndOfChain (Fat32.getEntry g v (realCluster g c)) = true ∨ ∃ i < entriesPerCluster g,
  chunkOf g v c (32 * i) = 0

def Stopped (g : Geom) (v : Vol) (dir : ℕ) : Prop := ∃ c, Chunk g v dir c ∧ Stops g v c

/-- What holds at a chunk that stops the walk, and at a chunk when it holds at the next one. -/
theorem Stopped.back {E : ℕ → Prop} (h : Stopped g v dir) (hstop : ∀ c, Stops g v c → E c)
    (hnext : ∀ c, isEndOfChain (Fat32.getEntry g v (realCluster g c)) = false →
      E (Fat32.getEntry g v (realCluster g c)) → E c) : E dir := by
  obtain ⟨c, hc, hs⟩ := h
  have hE := hstop c hs
  clear hs
  induction hc with
  | first => exact hE
  | next _ hend ih => exact ih (hnext _ hend hE)

theorem getEntry_run (g : Geom) (c : ℕ) (s : Walk) : ∃ l, (getEntry g c).run s =
    (some (Fat32.getEntry g s.vol c), { s with touched := l }) := by
  unfold getEntry Fat32.getEntry
  split
  · exact ⟨s.touched, rfl⟩
  · exact ⟨c :: s.touched, rfl⟩

/-- The function has a result. -/
def Ends {α : Type} (x : W α) (s : Walk) : Prop := (x.run s).1.isSome = true

theorem ends_of_some {α : Type} {x : W α} {a : α} {s' : Walk} (h : x.run s = (some a, s')) : Ends x s := by
  rw [Ends, h]
  rfl

theorem ends_bind {α β : Type} {x : W α} {f : α → W β} {a : α} {s' : Walk} (h : x.run s = (some a, s')) :
    Ends (x >>= f) s ↔ Ends (f a) s' := by
  rw [Ends, Ends, bind_of_some h]

theorem ends_get {α : Type} {f : Walk → W α} : Ends (Fallible.get >>= f) s ↔ Ends (f s) s := Iff.rfl

theorem eachSlots_stops {cb : ℕ → ℕ → Mem → κ → ℤ × Mem × κ} (hL : L.Nodup) (h : ∃ i ∈ L, buf (32 * i) = 0) :
    (eachSlots cb c L buf k).1.isSome = true := by
  induction L generalizing buf k with
  | nil =>
    obtain ⟨i, hi, -⟩ := h
    cases hi
  | cons j L ih =>
    rw [List.nodup_cons] at hL
    rw [eachSlots]
    split
    · rfl
    · rename_i hj
      dsimp only
      split
      · rfl
      · refine ih hL.2 ?_
        obtain ⟨i, hi, h0⟩ := h
        rcases List.mem_cons.mp hi with rfl | hi
        · exact absurd h0 hj
        · have hij : i ≠ j := fun heq => hL.1 (heq ▸ hi)
          exact ⟨i, hi, by rw [putSlot, if_neg (by omega)]; exact h0⟩

/-- The callback that goes on. -/
def goOn (_ _ : ℕ) (e : Mem) (k : κ) : ℤ × Mem × κ := (0, e, k)

theorem eachSlots_goOn (h : ∀ i ∈ L, buf (32 * i) ≠ 0) (hcell : ∀ i, buf (32 * i) = cell (32 * i)) :
    (eachSlots goOn c L buf k).1 = none ∧ (eachSlots goOn c L buf k).2.2 = k := by
  induction L generalizing buf with
  | nil => exact ⟨rfl, rfl⟩
  | cons j L ih =>
    rw [eachSlots, if_neg (h j List.mem_cons_self)]
    dsimp only [goOn]
    rw [if_neg (by decide)]
    have hput : ∀ i, putSlot buf j (slotOf buf j) (32 * i) = buf (32 * i) := by
      intro i
      rw [putSlot]
      split
      · rename_i heq
        have hi : i = j := by omega
        rw [hi, show 32 * j % 32 = 0 by omega, slotOf_zero]
      · rfl
    exact ih (fun i hi => by rw [hput]; exact h i (List.mem_cons_of_mem _ hi)) fun i => by rw [hput, hcell]

theorem eachLoop_of_some {cb : ℕ → ℕ → Mem → κ → ℤ × Mem × κ} {r : ℤ} {k' : κ}
    (h : eachSlots cb c (List.range (entriesPerCluster g)) (chunkOf g s.vol c) k = (some r, buf, k')) :
    Ends (eachLoop g cb (turns + 1) c k) s := by
  rw [eachLoop, ends_get, h]
  dsimp only
  split
  · exact ends_of_some rfl
  · exact ends_of_some rfl

/-- Nothing stops the walk in the chunk: it goes on with the next one, if there is one. -/
theorem eachLoop_of_none {cb : ℕ → ℕ → Mem → κ → ℤ × Mem × κ} {k' : κ}
    (h : eachSlots cb c (List.range (entriesPerCluster g)) (chunkOf g s.vol c) k = (none, buf, k')) :
    ∃ l, ∀ turns, Ends (eachLoop g cb (turns + 1) c k) s ↔
      isEndOfChain (Fat32.getEntry g s.vol (realCluster g c)) = true ∨
        Ends (eachLoop g cb turns (Fat32.getEntry g s.vol (realCluster g c)) k') { s with touched := l } := by
  obtain ⟨l, hl⟩ := getEntry_run g (realCluster g c) s
  refine ⟨l, fun turns => ?_⟩
  rw [eachLoop, ends_get, h]
  dsimp only
  rw [ends_bind hl]
  split
  · rename_i hend
    exact iff_of_true (ends_of_some rfl) (Or.inl hend)
  · rename_i hend
    exact ⟨Or.inr, fun h => h.resolve_left hend⟩

theorem eachLoop_ends {cb : ℕ → ℕ → Mem → κ → ℤ × Mem × κ} (h : Stopped g v dir) :
    ∀ k s, s.vol = v → ∃ turns, Ends (eachLoop g cb turns dir k) s := by
  refine Stopped.back (E := fun c => ∀ k s, s.vol = v → ∃ turns, Ends (eachLoop g cb turns c k) s) h
    (fun c hc k s hs => ⟨1, ?_⟩) fun c hend ih k s hs => ?_
  · subst hs
    rcases hr : eachSlots cb c (List.range (entriesPerCluster g)) (chunkOf g s.vol c) k with ⟨_ | r, buf, k'⟩
    · obtain ⟨l, hl⟩ := eachLoop_of_none hr
      rcases hc with hc | ⟨i, hi, h0⟩
      · exact (hl 0).mpr (Or.inl hc)
      · have : (eachSlots cb c (List.range (entriesPerCluster g)) (chunkOf g s.vol c) k).1.isSome = true :=
          eachSlots_stops List.nodup_range ⟨i, List.mem_range.mpr hi, h0⟩
        rw [hr] at this
        cases this
    · exact eachLoop_of_some hr
  · subst hs
    rcases hr : eachSlots cb c (List.range (entriesPerCluster g)) (chunkOf g s.vol c) k with ⟨_ | r, buf, k'⟩
    · obtain ⟨l, hl⟩ := eachLoop_of_none hr
      obtain ⟨turns, ht⟩ := ih k' { s with touched := l } rfl
      exact ⟨turns + 1, (hl turns).mpr (Or.inr ht)⟩
    · exact ⟨1, eachLoop_of_some hr⟩

theorem eachLoop_endless (h : ¬ Stopped g v dir) (hc : Chunk g v dir c) (hs : s.vol = v) :
    ¬ Ends (eachLoop g goOn turns c k) s := by
  subst hs
  induction turns generalizing c k s with
  | zero => exact Bool.false_ne_true
  | succ turns ih =>
    have hend : isEndOfChain (Fat32.getEntry g s.vol (realCluster g c)) = false :=
      Bool.eq_false_iff.mpr fun he => h ⟨c, hc, Or.inl he⟩
    have hslots : ∀ i ∈ List.range (entriesPerCluster g), chunkOf g s.vol c (32 * i) ≠ 0 := fun i hi h0 =>
      h ⟨c, hc, Or.inr ⟨i, List.mem_range.mp hi, h0⟩⟩
    have hgo := eachSlots_goOn (c := c) (k := k) hslots fun _ => rfl
    rcases hr : eachSlots goOn c (List.range (entriesPerCluster g)) (chunkOf g s.vol c) k with ⟨r, buf, k'⟩
    rw [hr] at hgo
    obtain ⟨rfl, -⟩ := hgo
    obtain ⟨l, hl⟩ := eachLoop_of_none hr
    rw [hl turns, hend]
    rintro (he | he)
    · cases he
    · exact ih (s := { s with touched := l }) h (hc.next hend) he

/-- The heap answers first. -/
theorem ends_kmalloc {α : Type} {f : Bool → W α} :
    Ends (kmalloc >>= f) s ↔ Ends (f (s.heap 0)) { s with heap := fun i => s.heap (i + 1) } := Iff.rfl

theorem dirEach_ends (cb : ℕ → ℕ → Mem → κ → ℤ × Mem × κ) (h : Stopped g s.vol dir) (k : κ) :
    ∃ turns, Ends (dirEach g cb turns dir k) s := by
  simp only [dirEach, ends_kmalloc]
  cases s.heap 0 with
  | false => exact ⟨0, ends_of_some rfl⟩
  | true => exact eachLoop_ends h k _ rfl

theorem eachLfnSlots_stops {cb : Visit → κ → ℤ × κ} (h : ∃ i ∈ L, cell (32 * i) = 0) :
    (eachLfnSlots cb cell c L segs k).1.isSome = true := by
  induction L generalizing segs k with
  | nil =>
    obtain ⟨i, hi, -⟩ := h
    cases hi
  | cons j L ih =>
    rw [eachLfnSlots]
    dsimp only
    by_cases h0 : cell (32 * j) = 0
    · rw [if_pos (by rw [slotOf_zero]; exact h0)]
      rfl
    · have hL : ∃ i ∈ L, cell (32 * i) = 0 := by
        obtain ⟨i, hi, hz⟩ := h
        rcases List.mem_cons.mp hi with rfl | hi
        · exact absurd hz h0
        · exact ⟨i, hi, hz⟩
      rw [if_neg (by rw [slotOf_zero]; exact h0)]
      split
      · exact ih hL
      · split
        · exact ih hL
        · split
          · rfl
          · exact ih hL

theorem eachLfnLoop_of_some {cb : Visit → κ → ℤ × κ} {r : ℤ} {segs' : List Mem} {k' : κ}
    (h : eachLfnSlots cb (chunkOf g s.vol c) c (List.range (entriesPerCluster g)) segs k = (some r, segs', k')) :
    Ends (eachLfnLoop g cb (turns + 1) c segs k) s := by
  rw [eachLfnLoop, ends_get, h]
  exact ends_of_some rfl

theorem eachLfnLoop_of_none {cb : Visit → κ → ℤ × κ} {segs' : List Mem} {k' : κ}
    (h : eachLfnSlots cb (chunkOf g s.vol c) c (List.range (entriesPerCluster g)) segs k = (none, segs', k')) :
    ∃ l, ∀ turns, Ends (eachLfnLoop g cb (turns + 1) c segs k) s ↔
      isEndOfChain (Fat32.getEntry g s.vol (realCluster g c)) = true ∨
        Ends (eachLfnLoop g cb turns (Fat32.getEntry g s.vol (realCluster g c)) segs' k') { s with touched := l } := by
  obtain ⟨l, hl⟩ := getEntry_run g (realCluster g c) s
  refine ⟨l, fun turns => ?_⟩
  rw [eachLfnLoop, ends_get, h]
  dsimp only
  rw [ends_bind hl]
  split
  · rename_i hend
    exact iff_of_true (ends_of_some rfl) (Or.inl hend)
  · rename_i hend
    exact ⟨Or.inr, fun h => h.resolve_left hend⟩

theorem eachLfnLoop_ends {cb : Visit → κ → ℤ × κ} (h : Stopped g v dir) :
    ∀ segs k s, s.vol = v → ∃ turns, Ends (eachLfnLoop g cb turns dir segs k) s := by
  refine Stopped.back (E := fun c => ∀ segs k s, s.vol = v → ∃ turns, Ends (eachLfnLoop g cb turns c segs k) s) h
    (fun c hc segs k s hs => ⟨1, ?_⟩) fun c hend ih segs k s hs => ?_
  · subst hs
    rcases hr : eachLfnSlots cb (chunkOf g s.vol c) c (List.range (entriesPerCluster g)) segs k with ⟨_ | r, segs', k'⟩
    · obtain ⟨l, hl⟩ := eachLfnLoop_of_none hr
      rcases hc with hc | ⟨i, hi, h0⟩
      · exact (hl 0).mpr (Or.inl hc)
      · have : (eachLfnSlots cb (chunkOf g s.vol c) c (List.range (entriesPerCluster g)) segs k).1.isSome = true :=
          eachLfnSlots_stops ⟨i, List.mem_range.mpr hi, h0⟩
        rw [hr] at this
        cases this
    · exact eachLfnLoop_of_some hr
  · subst hs
    rcases hr : eachLfnSlots cb (chunkOf g s.vol c) c (List.range (entriesPerCluster g)) segs k with ⟨_ | r, segs', k'⟩
    · obtain ⟨l, hl⟩ := eachLfnLoop_of_none hr
      obtain ⟨turns, ht⟩ := ih segs' k' { s with touched := l } rfl
      exact ⟨turns + 1, (hl turns).mpr (Or.inr ht)⟩
    · exact ⟨1, eachLfnLoop_of_some hr⟩

theorem dirEachLfn_ends (cb : Visit → κ → ℤ × κ) (h : Stopped g s.vol dir) (k : κ) :
    ∃ turns, Ends (dirEachLfn g cb turns dir k) s := by
  simp only [dirEachLfn, ends_kmalloc]
  cases s.heap 0 with
  | false => exact ⟨0, ends_of_some rfl⟩
  | true =>
    simp only [if_true, ends_kmalloc]
    cases s.heap (0 + 1) with
    | false => exact ⟨0, ends_of_some rfl⟩
    | true => exact eachLfnLoop_ends h [] k _ rfl

theorem setEntry_run (g : Geom) (c value : ℕ) (s : Walk) : ∃ s', (setEntry g c value).run s = (some (), s') := by
  unfold setEntry
  split
  · exact ⟨s, rfl⟩
  · exact ⟨_, rfl⟩

theorem allocLoop_run (g : Geom) (L : List ℕ) (s : Walk) : ∃ r s', (allocLoop g L).run s = (some r, s') := by
  induction L generalizing s with
  | nil => exact ⟨none, s, rfl⟩
  | cons c L ih =>
    rw [allocLoop, bind_of_some (x := touch c) rfl, bind_of_some (x := Fallible.get) rfl]
    split
    · obtain ⟨s', hs'⟩ := setEntry_run g c FAT32_EOC { s with touched := c :: s.touched }
      exact ⟨some c, s', by rw [bind_of_some hs']; rfl⟩
    · exact ih _

theorem growDir_ends (g : Geom) (last : ℕ) (s : Walk) : Ends (growDir g last) s := by
  obtain ⟨r, s1, h1⟩ := allocLoop_run g (List.range' 2 (g.fatEntries - 2)) s
  have hx : ∃ r s', (extendChain g last).run s = (some r, s') := by
    rw [extendChain, bind_of_some (x := allocCluster g) h1]
    cases r with
    | none => exact ⟨none, s1, rfl⟩
    | some c =>
      obtain ⟨s2, h2⟩ := setEntry_run g last c s1
      obtain ⟨s3, h3⟩ := setEntry_run g c FAT32_EOC s2
      exact ⟨some c, s3, by dsimp only; rw [bind_of_some h2, bind_of_some h3]; rfl⟩
  obtain ⟨r, s2, h2⟩ := hx
  rw [growDir, ends_bind h2]
  cases r with
  | none => exact ends_of_some rfl
  | some c => exact ends_of_some rfl

theorem slotLoop_of_some {p : Slot} (h : (slotsIn g s.vol c).find? (fun p => slotFree p.entry) = some p) :
    Ends (slotLoop g (turns + 1) c) s := by
  rw [slotLoop, ends_get, h]
  exact ends_of_some rfl

theorem slotLoop_of_none (h : (slotsIn g s.vol c).find? (fun p => slotFree p.entry) = none) :
    ∃ l, ∀ turns, Ends (slotLoop g (turns + 1) c) s ↔
      isEndOfChain (Fat32.getEntry g s.vol (realCluster g c)) = true ∨
        Ends (slotLoop g turns (Fat32.getEntry g s.vol (realCluster g c))) { s with touched := l } := by
  obtain ⟨l, hl⟩ := getEntry_run g (realCluster g c) s
  refine ⟨l, fun turns => ?_⟩
  rw [slotLoop, ends_get, h]
  dsimp only
  rw [ends_bind hl]
  split
  · rename_i hend
    exact iff_of_true (growDir_ends g _ _) (Or.inl hend)
  · rename_i hend
    exact ⟨Or.inr, fun h => h.resolve_left hend⟩

theorem find_slotFree (h : ∃ i < entriesPerCluster g, chunkOf g v c (32 * i) = 0) :
    (slotsIn g v c).find? (fun p => slotFree p.entry) ≠ none := by
  obtain ⟨i, hi, h0⟩ := h
  intro hnone
  have hp : (⟨c, i, slotOf (chunkOf g v c) i⟩ : Slot) ∈ slotsIn g v c :=
    List.mem_map.mpr ⟨i, List.mem_range.mpr hi, rfl⟩
  have hfree := List.find?_eq_none.mp hnone _ hp
  have h0' : slotOf (chunkOf g v c) i 0 = 0 := by rw [slotOf_zero, h0]
  exact hfree (by simp only [slotFree, h0', decide_true, Bool.or_true])

theorem slotLoop_ends (h : Stopped g v dir) : ∀ s, s.vol = v → ∃ turns, Ends (slotLoop g turns dir) s := by
  refine Stopped.back (E := fun c => ∀ s, s.vol = v → ∃ turns, Ends (slotLoop g turns c) s) h
    (fun c hc s hs => ⟨1, ?_⟩) fun c hend ih s hs => ?_
  · subst hs
    cases hr : (slotsIn g s.vol c).find? fun p => slotFree p.entry with
    | none =>
      obtain ⟨l, hl⟩ := slotLoop_of_none hr
      exact (hl 0).mpr (Or.inl (hc.resolve_right fun h0 => find_slotFree h0 hr))
    | some p => exact slotLoop_of_some hr
  · subst hs
    cases hr : (slotsIn g s.vol c).find? fun p => slotFree p.entry with
    | none =>
      obtain ⟨l, hl⟩ := slotLoop_of_none hr
      obtain ⟨turns, ht⟩ := ih { s with touched := l } rfl
      exact ⟨turns + 1, (hl turns).mpr (Or.inr ht)⟩
    | some p => exact ⟨1, slotLoop_of_some hr⟩

theorem dirAllocSlot_ends (h : Stopped g s.vol dir) : ∃ turns, Ends (dirAllocSlot g turns dir) s := by
  simp only [dirAllocSlot, ends_kmalloc]
  cases s.heap 0 with
  | false => exact ⟨0, ends_of_some rfl⟩
  | true => exact slotLoop_ends h _ rfl

/-- The step budget bounds the loop on every chain. -/
theorem freeLoop_ends (g : Geom) (safety c : ℕ) (s : Walk) : Ends (freeLoop g safety c) s := by
  have hlast : ∀ c s, Ends (if 2 ≤ c ∧ isEndOfChain c then setEntry g c FAT32_FREE else pure ()) s := by
    intro c s
    split
    · obtain ⟨s', hs'⟩ := setEntry_run g c FAT32_FREE s
      exact ends_of_some hs'
    · exact ends_of_some rfl
  induction safety generalizing c s with
  | zero =>
    unfold freeLoop
    split
    · exact ends_of_some rfl
    · exact hlast c s
  | succ safety ih =>
    unfold freeLoop
    split
    · obtain ⟨l, hl⟩ := getEntry_run g c s
      obtain ⟨s', hs'⟩ := setEntry_run g c FAT32_FREE { s with touched := l }
      rw [ends_bind hl, ends_bind hs']
      exact ih _ _
    · exact hlast c s

/-- The four functions end from `dir`, whatever the heap answers and the callback does, and touch
only places of the table. -/
structure WalksEnd (g : Geom) (v : Vol) (dir : ℕ) : Prop where
  each : ∀ (κ : Type) (cb : ℕ → ℕ → Mem → κ → ℤ × Mem × κ) (k : κ) heap, ∃ turns,
    Ends (dirEach g cb turns dir k) ⟨v, heap, []⟩
  eachLfn : ∀ (κ : Type) (cb : Visit → κ → ℤ × κ) (k : κ) heap, ∃ turns,
    Ends (dirEachLfn g cb turns dir k) ⟨v, heap, []⟩
  allocSlot : ∀ heap, ∃ turns, Ends (dirAllocSlot g turns dir) ⟨v, heap, []⟩
  free : ∀ heap, Ends (freeChain g dir) ⟨v, heap, []⟩
  each_inTable : ∀ (κ : Type) (cb : ℕ → ℕ → Mem → κ → ℤ × Mem × κ) (k : κ) heap turns,
    InTable g ((dirEach g cb turns dir k).run ⟨v, heap, []⟩).2
  eachLfn_inTable : ∀ (κ : Type) (cb : Visit → κ → ℤ × κ) (k : κ) heap turns,
    InTable g ((dirEachLfn g cb turns dir k).run ⟨v, heap, []⟩).2
  allocSlot_inTable : ∀ heap turns, InTable g ((dirAllocSlot g turns dir).run ⟨v, heap, []⟩).2
  free_inTable : ∀ heap, InTable g ((freeChain g dir).run ⟨v, heap, []⟩).2

/-- Every walk ends exactly when the walk that nothing else stops comes to the end of a chain or to
an end mark. -/
theorem walksEnd_iff (g : Geom) (v : Vol) (dir : ℕ) : WalksEnd g v dir ↔ Stopped g v dir := by
  constructor
  · intro h
    by_contra hn
    obtain ⟨turns, ht⟩ := h.each Unit goOn () fun _ => true
    exact eachLoop_endless hn .first rfl ht
  · intro h
    have hnil : ∀ heap, InTable g ⟨v, heap, []⟩ := fun _ _ hc => by cases hc
    exact
      { each := fun κ cb k heap => dirEach_ends cb h k
        eachLfn := fun κ cb k heap => dirEachLfn_ends cb h k
        allocSlot := fun heap => dirAllocSlot_ends h
        free := fun heap => freeLoop_ends g _ _ _
        each_inTable := fun κ cb k heap turns => (Guarded.dirEach cb turns dir k).run (hnil heap)
        eachLfn_inTable := fun κ cb k heap turns => (Guarded.dirEachLfn cb turns dir k).run (hnil heap)
        allocSlot_inTable := fun heap turns => (Guarded.dirAllocSlot g turns dir).run (hnil heap)
        free_inTable := fun heap => (Guarded.freeLoop g _ _).run (hnil heap) }

/-- The entry of the directory's cluster names the cluster itself, and every slot of it is deleted.
-/
theorem self_link_endless : ¬ ∀ (g : Geom) (v : Vol) (dir : ℕ), WalksEnd g v dir := by
  intro h
  let g : Geom := ⟨8, 6, 2, 512, 2⟩
  let v : Vol := ⟨fun _ => 2, fun _ _ => 2, fun _ _ => 0xE5⟩
  have htwo : ∀ c, Chunk g v 2 c → c = 2 := by
    intro c hc
    induction hc with
    | first => rfl
    | next _ _ ih => rw [ih]; rfl
  obtain ⟨c, hc, hs⟩ := (walksEnd_iff g v 2).mp (h g v 2)
  obtain rfl := htwo c hc
  rcases hs with hend | ⟨i, hi, h0⟩
  · exact absurd hend (by decide)
  · exact absurd (show (0xE5 : UInt8) = 0 from h0) (by decide)

end ComputerOS.Fat32.Turns
