import ComputerOS.Fat32.Ops

/-!
What a walk over a directory comes to, when some of its slots change. An entry is still found
under its long name as long as the slots before it that change are still no end mark and the
last of them is no part of a long name.
-/
namespace ComputerOS.Fat32

variable {X Y Y' Z L : List Slot} {segs : List Mem} {w : Visit}

/-- The slot ends a run of long name entries. -/
def Resets (e : Mem) : Prop := e 0 = 0xE5 ∨ attr e ≠ ATTR_LFN

def NoEnd (X : List Slot) : Prop := ∀ p ∈ X, p.entry 0 ≠ 0

/-- The long name entries that are collected after some slots. -/
def collected : List Mem → List Slot → List Mem
  | segs, [] => segs
  | segs, p :: rest =>
      if p.entry 0 = 0xE5 then collected [] rest
      else if attr p.entry = ATTR_LFN then collected (if segs.length < 20 then segs ++ [p.entry] else segs) rest
      else collected [] rest

theorem NoEnd.of_cons {p : Slot} (h : NoEnd (p :: X)) : p.entry 0 ≠ 0 ∧ NoEnd X :=
  ⟨h p List.mem_cons_self, fun q hq => h q (List.mem_cons_of_mem p hq)⟩

theorem scan_append (h : NoEnd X) : scan segs (X ++ Z) = scan segs X ++ scan (collected segs X) Z := by
  induction X generalizing segs with
  | nil => rfl
  | cons p X ih =>
    obtain ⟨hp, hX⟩ := h.of_cons
    rw [List.cons_append, scan, scan, collected, if_neg hp, if_neg hp]
    by_cases h1 : p.entry 0 = 0xE5
    · rw [if_pos h1, if_pos h1, if_pos h1, ih hX]
    · rw [if_neg h1, if_neg h1, if_neg h1]
      by_cases h2 : attr p.entry = ATTR_LFN
      · rw [if_pos h2, if_pos h2, if_pos h2, ih hX]
      · rw [if_neg h2, if_neg h2, if_neg h2, ih hX, List.cons_append]

theorem scan_append_of_end (h : ¬ NoEnd X) : scan segs (X ++ Z) = scan segs X := by
  induction X generalizing segs with
  | nil => exact absurd (fun p hp => by cases hp) h
  | cons p X ih =>
    rw [List.cons_append, scan, scan]
    by_cases h0 : p.entry 0 = 0
    · rw [if_pos h0, if_pos h0]
    · have hX : ¬ NoEnd X := fun hX => h fun q hq => by
        rcases List.mem_cons.mp hq with rfl | hq
        · exact h0
        · exact hX q hq
      rw [if_neg h0, if_neg h0]
      by_cases h1 : p.entry 0 = 0xE5
      · rw [if_pos h1, if_pos h1, ih hX]
      · rw [if_neg h1, if_neg h1]
        by_cases h2 : attr p.entry = ATTR_LFN
        · rw [if_pos h2, if_pos h2, ih hX]
        · rw [if_neg h2, if_neg h2, ih hX]

theorem collected_append : collected segs (X ++ Y) = collected (collected segs X) Y := by
  induction X generalizing segs with
  | nil => rfl
  | cons p X ih =>
    rw [List.cons_append, collected, collected]
    split
    · exact ih
    · split
      · exact ih
      · exact ih

theorem collected_of_resets {p : Slot} (h : Resets p.entry) : collected segs (X ++ [p]) = [] := by
  rw [collected_append, collected]
  rcases h with h | h
  · rw [if_pos h, collected]
  · rw [if_neg h, collected, ite_self]

/-- What is found is a slot, and neither free nor an end mark nor part of a long name. -/
theorem mem_scan (h : w ∈ scan segs L) : ⟨w.chunk, w.idx, w.entry⟩ ∈ L ∧ w.entry 0 ≠ 0 ∧
    w.entry 0 ≠ 0xE5 ∧ attr w.entry ≠ ATTR_LFN := by
  induction L generalizing segs with
  | nil => cases h
  | cons p L ih =>
    have tail : ∀ segs, w ∈ scan segs L → ⟨w.chunk, w.idx, w.entry⟩ ∈ p :: L ∧ w.entry 0 ≠ 0 ∧
        w.entry 0 ≠ 0xE5 ∧ attr w.entry ≠ ATTR_LFN := fun segs hw =>
      ⟨List.mem_cons_of_mem p (ih hw).1, (ih hw).2⟩
    rw [scan] at h
    by_cases h0 : p.entry 0 = 0
    · rw [if_pos h0] at h
      cases h
    rw [if_neg h0] at h
    by_cases h1 : p.entry 0 = 0xE5
    · rw [if_pos h1] at h
      exact tail _ h
    rw [if_neg h1] at h
    by_cases h2 : attr p.entry = ATTR_LFN
    · rw [if_pos h2] at h
      exact tail _ h
    rw [if_neg h2] at h
    rcases List.mem_cons.mp h with rfl | h
    · exact ⟨List.mem_cons_self, h0, h1, h2⟩
    · exact tail _ h

/-- More slots at the end hide nothing. -/
theorem mem_scan_append (h : w ∈ scan segs X) (Z : List Slot) : w ∈ scan segs (X ++ Z) := by
  by_cases hX : NoEnd X
  · rw [scan_append hX]
    exact List.mem_append_left _ h
  · rw [scan_append_of_end hX]
    exact h

/-- A block of slots is replaced by one without an end mark; both end a run of long name
entries. An entry outside of the block is found as before. -/
theorem mem_scan_replace (h : w ∈ scan segs (X ++ Y ++ Z)) (hw : ⟨w.chunk, w.idx, w.entry⟩ ∉ Y)
    (hY : NoEnd Y → ∃ A p, Y = A ++ [p] ∧ Resets p.entry) (hend : NoEnd Y')
    (hY' : ∃ A p, Y' = A ++ [p] ∧ Resets p.entry) : w ∈ scan segs (X ++ Y' ++ Z) := by
  rw [List.append_assoc] at h ⊢
  by_cases hX : NoEnd X
  · rw [scan_append hX] at h ⊢
    rcases List.mem_append.mp h with h | h
    · exact List.mem_append_left _ h
    · apply List.mem_append_right
      by_cases hYend : NoEnd Y
      · obtain ⟨A, p, rfl, hp⟩ := hY hYend
        obtain ⟨A', p', rfl, hp'⟩ := hY'
        rw [scan_append hYend, collected_of_resets hp] at h
        rw [scan_append hend, collected_of_resets hp']
        rcases List.mem_append.mp h with h | h
        · exact absurd (mem_scan h).1 hw
        · exact List.mem_append_right _ h
      · rw [scan_append_of_end hYend] at h
        exact absurd (mem_scan h).1 hw
  · rw [scan_append_of_end hX] at h ⊢
    exact h

/-- Only slots from the first end mark on change. -/
theorem mem_scan_after_end {L' : List Slot} (hrel : List.Forall₂ (fun p p' => p' = p ∨ p.entry 0 = 0) L L')
    (h : w ∈ scan segs L) : w ∈ scan segs L' := by
  induction hrel generalizing segs with
  | nil => exact h
  | @cons p p' L L' hp _ ih =>
    rw [scan] at h
    by_cases h0 : p.entry 0 = 0
    · rw [if_pos h0] at h
      cases h
    obtain rfl : p' = p := hp.resolve_right h0
    rw [if_neg h0] at h
    rw [scan, if_neg h0]
    by_cases h1 : p'.entry 0 = 0xE5
    · rw [if_pos h1] at h ⊢
      exact ih h
    rw [if_neg h1] at h ⊢
    by_cases h2 : attr p'.entry = ATTR_LFN
    · rw [if_pos h2] at h ⊢
      exact ih h
    rw [if_neg h2] at h ⊢
    rcases List.mem_cons.mp h with h | h
    · exact h ▸ List.mem_cons_self
    · exact List.mem_cons_of_mem _ (ih h)

end ComputerOS.Fat32
