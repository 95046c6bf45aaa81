import ComputerOS.Fat32.Cells

/-!
Exactly which entries a directory has after a change of its slots: marking end marks as free
slots changes none, filling free slots adds one, marking slots as deleted removes one, and
rewriting a slot replaces one.
-/
namespace ComputerOS.Fat32

open Function

variable {g : Geom} {v v' : Vol} {A B L X Y Z : List Slot} {segs : List Mem} {p q : Slot} {u w : Visit}

/-- After an end mark there are only end marks, as the format demands. -/
def Tidy (L : List Slot) : Prop := L.Pairwise fun p q => p.entry 0 = 0 → q.entry 0 = 0

def IsLong (e : Mem) : Prop := slotFree e = false ∧ attr e = ATTR_LFN

/-- Behind every part of a long name there is a slot in use. -/
def NoOrphan : List Slot → Prop
  | [] => True
  | [p] => ¬ IsLong p.entry
  | p :: q :: L => (IsLong p.entry → slotFree q.entry = false) ∧ NoOrphan (q :: L)

theorem slotFree_iff {e : Mem} : slotFree e = true ↔ e 0 = 0xE5 ∨ e 0 = 0 := by
  simp [slotFree]

theorem slotFree_eq_false {e : Mem} : slotFree e = false ↔ e 0 ≠ 0xE5 ∧ e 0 ≠ 0 := by
  simp [slotFree]

theorem scan_free (h : ∀ p ∈ L, slotFree p.entry = true) : scan segs L = [] := by
  induction L generalizing segs with
  | nil => rfl
  | cons p L ih =>
    rw [scan]
    split
    · rfl
    · rename_i h0
      rw [if_pos ((slotFree_iff.mp (h p List.mem_cons_self)).resolve_right h0)]
      exact ih fun q hq => h q (List.mem_cons_of_mem _ hq)

theorem Tidy.of_append (h : Tidy (X ++ Y)) : Tidy X ∧ Tidy Y :=
  ⟨(List.pairwise_append.mp h).1, (List.pairwise_append.mp h).2.1⟩

theorem Tidy.free_after (h : Tidy (X ++ Y)) (hX : ¬ NoEnd X) : ∀ q ∈ Y, q.entry 0 = 0 := by
  intro q hq
  unfold NoEnd at hX
  push Not at hX
  obtain ⟨p, hp, h0⟩ := hX
  exact (List.pairwise_append.mp h).2.2 p hp q hq h0

/-- Slots that are free or end marks hide nothing after them but what the end marks hide. -/
theorem scan_free_append (h : ∀ p ∈ Y, slotFree p.entry = true) (hne : Y ≠ []) (htidy : Tidy (Y ++ Z)) :
    scan segs (Y ++ Z) = scan [] Z := by
  by_cases hend : NoEnd Y
  · obtain ⟨Y', q, rfl⟩ := (List.eq_nil_or_concat' Y).resolve_left hne
    rw [scan_append hend, scan_free h, collected_of_resets, List.nil_append]
    left
    exact (slotFree_iff.mp (h q (by simp))).resolve_right (hend q (by simp))
  · rw [scan_append_of_end hend, scan_free h, scan_free]
    exact fun q hq => slotFree_iff.mpr (Or.inr (htidy.free_after hend q hq))

/-- Some end marks are turned into free slots. -/
def Unmarked (p p' : Slot) : Prop :=
  p'.chunk = p.chunk ∧ p'.idx = p.idx ∧ (p'.entry = p.entry ∨ p.entry 0 = 0 ∧ p'.entry 0 = 0xE5)

theorem Unmarked.free (h : Unmarked p q) (hp : slotFree p.entry = true) : slotFree q.entry = true := by
  rcases h.2.2 with heq | heq
  · rw [heq]
    exact hp
  · exact slotFree_iff.mpr (Or.inl heq.2)

theorem free_of_unmarked (hrel : List.Forall₂ Unmarked L X) (h : ∀ p ∈ L, slotFree p.entry = true) :
    ∀ q ∈ X, slotFree q.entry = true := by
  induction hrel with
  | nil => exact fun q hq => by cases hq
  | cons hp _ ih =>
    intro q hq
    rcases List.mem_cons.mp hq with rfl | hq
    · exact hp.free (h _ List.mem_cons_self)
    · exact ih (fun p hp => h p (List.mem_cons_of_mem _ hp)) q hq

theorem scan_unmarked (hrel : List.Forall₂ Unmarked L X) (htidy : Tidy L) : scan segs X = scan segs L := by
  induction hrel generalizing segs with
  | nil => rfl
  | @cons p p' L X hp hrest ih =>
    obtain ⟨htail, htidy'⟩ := List.pairwise_cons.mp htidy
    obtain ⟨c, i, e⟩ := p
    obtain ⟨c', i', e'⟩ := p'
    obtain ⟨rfl, rfl, he⟩ := hp
    dsimp only at he htail
    by_cases h0 : e 0 = 0
    · have hfree := free_of_unmarked hrest fun q hq => slotFree_iff.mpr (Or.inr (htail q hq h0))
      rw [scan, scan, if_pos h0]
      split
      · rfl
      · rename_i h0'
        rcases he with he | he
        · rw [he] at h0'
          exact absurd h0 h0'
        · rw [if_pos he.2]
          exact scan_free hfree
    · obtain rfl := he.resolve_right fun he => h0 he.1
      rw [scan, scan]
      simp only [ih htidy']

/-- A slot that is neither free nor part of a long name is an entry. -/
theorem scan_entry (hX : NoEnd X) (hp : slotFree p.entry = false) (hattr : attr p.entry ≠ ATTR_LFN) :
    scan segs (X ++ p :: Y) =
      scan segs X ++ ⟨p.chunk, p.idx, p.entry, lfnReconstruct (collected segs X)⟩ :: scan [] Y := by
  obtain ⟨h1, h0⟩ := slotFree_eq_false.mp hp
  rw [scan_append hX, scan, if_neg h0, if_neg h1, if_neg hattr]

/-- Slots of a long name, of at most twenty parts, are collected. -/
theorem collected_long (h : ∀ p ∈ L, IsLong p.entry) (hlen : segs.length + L.length ≤ 20) :
    collected segs L = segs ++ L.map Slot.entry := by
  induction L generalizing segs with
  | nil => simp [collected]
  | cons p L ih =>
    obtain ⟨hfree, hattr⟩ := h p List.mem_cons_self
    rw [List.length_cons] at hlen
    rw [collected, if_neg (slotFree_eq_false.mp hfree).1, if_pos hattr, if_pos (by omega),
      ih (fun q hq => h q (List.mem_cons_of_mem _ hq)) (by rw [List.length_append, List.length_singleton]; omega)]
    simp

theorem scan_long (h : ∀ p ∈ L, IsLong p.entry) : scan segs L = [] := by
  induction L generalizing segs with
  | nil => rfl
  | cons p L ih =>
    obtain ⟨hfree, hattr⟩ := h p List.mem_cons_self
    obtain ⟨h1, h0⟩ := slotFree_eq_false.mp hfree
    rw [scan, if_neg h0, if_neg h1, if_pos hattr]
    exact ih fun q hq => h q (List.mem_cons_of_mem _ hq)

theorem scan_fill (hX : NoEnd X) (hcoll : collected [] X = []) (hA : ∀ q ∈ A, slotFree q.entry = true) (hne : A ≠ [])
    (htidy : Tidy (A ++ Y)) (hL : ∀ q ∈ L, IsLong q.entry) (hlen : L.length ≤ 20) (hp : slotFree p.entry = false)
    (hattr : attr p.entry ≠ ATTR_LFN) : scan [] (X ++ (A ++ Y)) = scan [] X ++ scan [] Y ∧
      scan [] (X ++ (L ++ p :: Y)) =
        scan [] X ++ ⟨p.chunk, p.idx, p.entry, lfnReconstruct (L.map Slot.entry)⟩ :: scan [] Y := by
  constructor
  · rw [scan_append hX, scan_free_append hA hne htidy]
  · have hend : NoEnd L := fun q hq => (slotFree_eq_false.mp (hL q hq).1).2
    rw [scan_append hX, hcoll, scan_entry hend hp hattr, scan_long hL, collected_long hL (by simpa using hlen)]
    rfl

theorem scan_erase (hX : NoEnd X) (hL : ∀ q ∈ L, IsLong q.entry) (hp : slotFree p.entry = false)
    (hattr : attr p.entry ≠ ATTR_LFN) (hA : ∀ q ∈ A, q.entry 0 = 0xE5) (hne : A ≠ []) :
    ∃ lfn, scan [] (X ++ (L ++ p :: Y)) = scan [] X ++ ⟨p.chunk, p.idx, p.entry, lfn⟩ :: scan [] Y ∧
      scan [] (X ++ (A ++ Y)) = scan [] X ++ scan [] Y := by
  have hend : NoEnd L := fun q hq => (slotFree_eq_false.mp (hL q hq).1).2
  have hendA : NoEnd A := fun q hq => by
    rw [hA q hq]
    decide
  refine ⟨_, by rw [scan_append hX, scan_entry hend hp hattr, scan_long hL]; rfl, ?_⟩
  obtain ⟨A', q, rfl⟩ := (List.eq_nil_or_concat' A).resolve_left hne
  rw [scan_append hX, scan_append hendA, collected_of_resets (Or.inl (hA q (by simp))),
    scan_free fun q hq => slotFree_iff.mpr (Or.inl (hA q hq)), List.nil_append]

theorem NoOrphan.of_append (h : NoOrphan (X ++ Y)) : NoOrphan Y := by
  induction X with
  | nil => exact h
  | cons p X ih =>
    refine ih ?_
    rw [List.cons_append] at h
    cases hXY : X ++ Y with
    | nil => trivial
    | cons q L =>
      rw [hXY] at h
      exact h.2

/-- The parts of a long name before a free slot would be open. -/
theorem collected_of_noOrphan (hX : NoEnd X) (h : NoOrphan (X ++ q :: Y)) (hq : slotFree q.entry = true) :
    collected [] X = [] := by
  rcases List.eq_nil_or_concat' X with rfl | ⟨X', p, rfl⟩
  · rfl
  · refine collected_of_resets ?_
    by_contra hres
    unfold Resets at hres
    rw [not_or, not_not] at hres
    rw [List.append_assoc] at h
    have hused := h.of_append.1 ⟨slotFree_eq_false.mpr ⟨hres.1, hX p (by simp)⟩, hres.2⟩
    rw [hq] at hused
    cases hused

theorem collected_end_of_noOrphan (hX : NoEnd X) (h : NoOrphan X) : collected [] X = [] := by
  rcases List.eq_nil_or_concat' X with rfl | ⟨X', p, rfl⟩
  · rfl
  · refine collected_of_resets ?_
    by_contra hres
    unfold Resets at hres
    rw [not_or, not_not] at hres
    exact h.of_append ⟨slotFree_eq_false.mpr ⟨hres.1, hX p (by simp)⟩, hres.2⟩

theorem Unmarked.of_used (h : Unmarked p q) (hp : slotFree p.entry = false) : q.entry = p.entry :=
  h.2.2.resolve_right fun h0 => (slotFree_eq_false.mp hp).2 h0.1

theorem Unmarked.of_long (h : Unmarked p q) (hq : IsLong q.entry) : q.entry = p.entry :=
  h.2.2.resolve_right fun h0 => (slotFree_eq_false.mp hq.1).1 h0.2

theorem NoOrphan.unmarked (hrel : List.Forall₂ Unmarked L X) (h : NoOrphan L) : NoOrphan X := by
  induction hrel with
  | nil => trivial
  | @cons p p' L X hp hrest ih =>
    cases hrest with
    | nil =>
      intro hlong
      exact h (hp.of_long hlong ▸ hlong)
    | @cons q q' L X hq hrest =>
      refine ⟨fun hlong => ?_, ih h.2⟩
      have hused := h.1 (hp.of_long hlong ▸ hlong)
      rw [hq.of_used hused]
      exact hused

end ComputerOS.Fat32
