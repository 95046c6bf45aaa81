import ComputerOS.Editor.Model

/-!
The text of the gap buffer is what stands before the gap and what stands after it. Moving the gap
and growing the block keep every byte of it at its position; the other operations work at the edges
of the gap.
-/
namespace ComputerOS.Editor

variable {s : GapBuffer} {a b i n pos : ℕ} {buf : Mem}

theorem u32_of_lt (h : n < 2 ^ 32) : u32 n = n := Nat.mod_eq_of_lt h

theorem sub32_of_le (h : b ≤ a) (ha : a < 2 ^ 32) : sub32 a b = a - b := by
  unfold sub32 u32
  omega

theorem int32_of_lt {x : ℤ} (hlo : -2 ^ 31 ≤ x) (hhi : x < 2 ^ 31) : int32 x = x := by
  unfold int32
  omega

theorem moveForward_eq (buf : Mem) {d s : ℕ} (h : d < s) (n : ℕ) : moveForward buf d s n = buf.blit d buf s n := by
  induction n with
  | zero =>
    funext i
    exact (Mem.blit_ne (by omega)).symm
  | succ n ih =>
    funext i
    rw [moveForward, ih, Mem.blit_ne (i := s + n) (by omega)]
    by_cases hi : i = d + n
    · rw [hi, Function.update_self, Mem.blit_at (by omega)]
    · rw [Function.update_of_ne hi]
      unfold Mem.blit
      by_cases hin : d ≤ i ∧ i < d + n
      · rw [if_pos hin, if_pos (by omega)]
      · rw [if_neg hin, if_neg (by omega)]

theorem moveBackward_eq (buf : Mem) {d s : ℕ} (h : s < d) (n : ℕ) : moveBackward buf d s n = buf.blit d buf s n := by
  induction n generalizing buf with
  | zero =>
    funext i
    exact (Mem.blit_ne (by omega)).symm
  | succ n ih =>
    funext i
    rw [moveBackward, ih]
    unfold Mem.blit
    by_cases hin : d ≤ i ∧ i < d + n
    · rw [if_pos hin, if_pos (by omega), Function.update_of_ne (by omega)]
    · rw [if_neg hin]
      by_cases hi : i = d + n
      · rw [if_pos (by omega), hi, Function.update_self, Nat.add_sub_cancel_left]
      · rw [if_neg (by omega), Function.update_of_ne hi]

/-- Overlapping ranges are moved as if through a copy. -/
theorem memMove_eq (buf : Mem) (d s n : ℕ) : memMove buf d s n = buf.blit d buf s n := by
  unfold memMove
  split_ifs with hnone hlt
  · funext i
    unfold Mem.blit
    split
    · rcases hnone with rfl | rfl
      · refine congrArg buf ?_
        omega
      · omega
    · rfl
  · exact moveForward_eq buf hlt n
  · exact moveBackward_eq buf (by omega) n

/-- What every operation keeps. -/
structure WellFormed (s : GapBuffer) : Prop where
  start_le : s.gapStart ≤ s.gapEnd
  end_le : s.gapEnd ≤ s.cap
  chunks : INITIAL_CAP ∣ s.cap
  cap_pos : 0 < s.cap
  cap_lt : s.cap < 2 ^ 32

/-- Where position `i` of the text is found in the block. -/
def GapBuffer.place (s : GapBuffer) (i : ℕ) : ℕ := if i < s.gapStart then i else i - s.gapStart + s.gapEnd

def GapBuffer.text (s : GapBuffer) : List UInt8 := (List.range s.textLen).map s.textAt

@[simp] theorem length_text (s : GapBuffer) : s.text.length = s.textLen := by
  rw [GapBuffer.text, List.length_map, List.length_range]

@[simp] theorem getElem_text (h : i < s.text.length) : s.text[i] = s.textAt i := by
  simp only [GapBuffer.text, List.getElem_map, List.getElem_range]

theorem text_congr {s' : GapBuffer} (hlen : s'.textLen = s.textLen) (hat : ∀ i < s.textLen, s'.textAt i = s.textAt i) :
    s'.text = s.text := by
  rw [GapBuffer.text, hlen]
  exact List.map_congr_left fun i hi => hat i (List.mem_range.1 hi)

theorem grow_none (s : GapBuffer) : s.grow none = (-1, s) := rfl

namespace WellFormed

theorem textLen_eq (h : WellFormed s) : s.textLen = s.gapStart + (s.cap - s.gapEnd) := by
  have := h.start_le
  have := h.end_le
  have := h.cap_lt
  rw [GapBuffer.textLen, sub32_of_le (by omega) (by omega), u32_of_lt (by omega)]

theorem textAt_eq (h : WellFormed s) (hi : i < s.textLen) : s.textAt i = s.buf (s.place i) := by
  have := h.start_le
  have := h.end_le
  have := h.cap_lt
  rw [h.textLen_eq] at hi
  unfold GapBuffer.textAt GapBuffer.place
  split
  · rfl
  · rw [sub32_of_le (by omega) (by omega), u32_of_lt (by omega)]

/-- The text is the same when the bytes are found at their new places. -/
theorem text_moved {s' : GapBuffer} (h : WellFormed s) (h' : WellFormed s')
    (hlen : s'.gapStart + (s'.cap - s'.gapEnd) = s.gapStart + (s.cap - s.gapEnd))
    (hat : ∀ i < s.gapStart + (s.cap - s.gapEnd), s'.buf (s'.place i) = s.buf (s.place i)) : s'.text = s.text := by
  have hlen' : s'.textLen = s.textLen := by rw [h'.textLen_eq, hlen, h.textLen_eq]
  refine text_congr hlen' fun i hi => ?_
  rw [h'.textAt_eq (hlen' ▸ hi), h.textAt_eq hi]
  exact hat i (h.textLen_eq ▸ hi)

/-- What stands before the gap, and what stands after it. -/
theorem text_eq (h : WellFormed s) : s.text =
    (List.range s.gapStart).map s.buf ++ (List.range (s.cap - s.gapEnd)).map fun i => s.buf (s.gapEnd + i) := by
  refine List.ext_getElem ?_ fun i hi hi' => ?_
  · rw [length_text, h.textLen_eq, List.length_append, List.length_map, List.length_map,
      List.length_range, List.length_range]
  · rw [length_text] at hi
    rw [getElem_text, h.textAt_eq hi, GapBuffer.place]
    split
    · rename_i hlt
      rw [List.getElem_append_left (by rwa [List.length_map, List.length_range]), List.getElem_map, List.getElem_range]
    · rename_i hge
      rw [List.getElem_append_right (by rw [List.length_map, List.length_range]; omega),
        List.getElem_map, List.getElem_range, List.length_map, List.length_range, Nat.add_comm]

theorem take_text (h : WellFormed s) : s.text.take s.gapStart = (List.range s.gapStart).map s.buf := by
  rw [h.text_eq, List.take_append_of_le_length (by rw [List.length_map, List.length_range]), List.take_of_length_le]
  rw [List.length_map, List.length_range]

theorem drop_text (h : WellFormed s) :
    s.text.drop s.gapStart = (List.range (s.cap - s.gapEnd)).map fun i => s.buf (s.gapEnd + i) := by
  rw [h.text_eq, List.drop_append, List.drop_eq_nil_of_le (by rw [List.length_map, List.length_range]), List.length_map,
    List.length_range, Nat.sub_self, List.drop_zero, List.nil_append]

theorem moveGap (h : WellFormed s) (hpos : pos ≤ s.textLen) :
    WellFormed (s.moveGap pos) ∧ (s.moveGap pos).text = s.text ∧ (s.moveGap pos).gapStart = pos ∧
    (s.moveGap pos).cap = s.cap := by
  have hlen := h.textLen_eq
  obtain ⟨h1, h2, hchunks, hcap, h3⟩ := h
  have h : WellFormed s := ⟨h1, h2, hchunks, hcap, h3⟩
  rw [hlen] at hpos
  by_cases hback : pos < s.gapStart
  · have hmoved : s.moveGap pos = { s with
        buf := s.buf.blit (s.gapEnd - (s.gapStart - pos)) s.buf pos (s.gapStart - pos)
        gapStart := pos
        gapEnd := s.gapEnd - (s.gapStart - pos) } := by
      unfold GapBuffer.moveGap
      dsimp only
      rw [if_pos hback, memMove_eq, sub32_of_le hback.le (by omega), sub32_of_le (by omega) (by omega),
        sub32_of_le (by omega) (by omega), Nat.sub_sub_self hback.le]
    have h' : WellFormed (s.moveGap pos) := by
      rw [hmoved]
      exact ⟨show pos ≤ s.gapEnd - (s.gapStart - pos)
        by omega, show s.gapEnd - (s.gapStart - pos) ≤ s.cap by omega, hchunks, hcap, h3⟩
    rw [hmoved] at h' ⊢
    refine ⟨h', h.text_moved h' ?_ fun i hi => ?_, rfl, rfl⟩
    · dsimp only
      omega
    · unfold GapBuffer.place
      dsimp only
      by_cases hlo : i < pos
      · rw [if_pos hlo, if_pos (by omega), Mem.blit_ne (by omega)]
      · rw [if_neg hlo, Nat.add_comm]
        by_cases hcross : i < s.gapStart
        · rw [if_pos hcross, Mem.blit_at (by omega), Nat.add_sub_cancel' (by omega)]
        · rw [if_neg hcross, Mem.blit_ne (by omega)]
          refine congrArg s.buf ?_
          omega
  · by_cases hfwd : s.gapStart < pos
    · have hmoved : s.moveGap pos = { s with
          buf := s.buf.blit s.gapStart s.buf s.gapEnd (pos - s.gapStart)
          gapStart := pos
          gapEnd := s.gapEnd + (pos - s.gapStart) } := by
        unfold GapBuffer.moveGap
        dsimp only
        rw [if_neg hback, if_pos hfwd, memMove_eq, sub32_of_le hfwd.le (by omega),
          u32_of_lt (by omega), u32_of_lt (by omega), Nat.add_sub_cancel' hfwd.le]
      have h' : WellFormed (s.moveGap pos) := by
        rw [hmoved]
        exact ⟨show pos ≤ s.gapEnd + (pos - s.gapStart)
          by omega, show s.gapEnd + (pos - s.gapStart) ≤ s.cap by omega, hchunks, hcap, h3⟩
      rw [hmoved] at h' ⊢
      refine ⟨h', h.text_moved h' ?_ fun i hi => ?_, rfl, rfl⟩
      · dsimp only
        omega
      · unfold GapBuffer.place
        dsimp only
        by_cases hlo : i < s.gapStart
        · rw [if_pos (by omega), if_pos hlo, Mem.blit_ne (by omega)]
        · rw [if_neg hlo]
          by_cases hcross : i < pos
          · obtain ⟨k, rfl⟩ : ∃ k, i = s.gapStart + k := ⟨i - s.gapStart, by omega⟩
            rw [if_pos hcross, Mem.blit_at (by omega), Nat.add_sub_cancel_left, Nat.add_comm]
          · rw [if_neg hcross, Mem.blit_ne (by omega)]
            refine congrArg s.buf ?_
            omega
    · obtain rfl : pos = s.gapStart := by omega
      rw [GapBuffer.moveGap, if_neg hback, if_neg hfwd]
      exact ⟨h, rfl, rfl, rfl⟩

theorem grow_some (h : WellFormed s) (hcap : s.cap < 2 ^ 31) (nb : Mem) :
    (s.grow (some nb)).1 = 0 ∧ WellFormed (s.grow (some nb)).2 ∧ (s.grow (some nb)).2.text = s.text ∧
      (s.grow (some nb)).2.gapStart = s.gapStart ∧ (s.grow (some nb)).2.gapStart < (s.grow (some nb)).2.gapEnd ∧
      (s.grow (some nb)).2.cap = s.cap * 2 := by
  obtain ⟨h1, h2, hchunks, hpos, h3⟩ := h
  have h : WellFormed s := ⟨h1, h2, hchunks, hpos, h3⟩
  have hgrown : s.grow (some nb) = (0, { s with
      buf := (nb.blit 0 s.buf 0 s.gapStart).blit (s.cap * 2 - (s.cap - s.gapEnd)) s.buf s.gapEnd (s.cap - s.gapEnd)
      gapEnd := s.cap * 2 - (s.cap - s.gapEnd)
      cap := s.cap * 2 }) := by
    unfold GapBuffer.grow
    dsimp only
    rw [u32_of_lt (by omega), sub32_of_le h2 (by omega), sub32_of_le (by omega) (by omega)]
  have h' : WellFormed (s.grow (some nb)).2 := by
    rw [hgrown]
    exact ⟨show s.gapStart ≤ s.cap * 2 - (s.cap - s.gapEnd) by omega,
      show s.cap * 2 - (s.cap - s.gapEnd) ≤ s.cap * 2 by omega, Dvd.dvd.mul_right hchunks 2, show 0 < s.cap * 2 by omega, show s.cap * 2 < 2 ^ 32 by omega⟩
  rw [hgrown] at h' ⊢
  refine ⟨rfl, h', h.text_moved h' ?_ fun i hi => ?_, rfl, ?_, rfl⟩
  · dsimp only
    omega
  · unfold GapBuffer.place
    dsimp only
    by_cases hlo : i < s.gapStart
    · have hat : nb.blit 0 s.buf 0 s.gapStart (0 + i) = s.buf (0 + i) := Mem.blit_at hlo
      rw [Nat.zero_add] at hat
      rw [if_pos hlo, if_pos hlo, Mem.blit_ne (by omega), hat]
    · obtain ⟨k, rfl⟩ : ∃ k, i = s.gapStart + k := ⟨i - s.gapStart, by omega⟩
      rw [if_neg hlo, Nat.add_sub_cancel_left, Nat.add_comm, Mem.blit_at (by omega), if_neg hlo, Nat.add_comm k]
  · dsimp only
    omega

theorem putChar (h : WellFormed s) (hgap : s.gapStart < s.gapEnd) (c : UInt8) :
    WellFormed (s.putChar c) ∧ (s.putChar c).text = s.text.take s.gapStart ++ c :: s.text.drop
      s.gapStart ∧ (s.putChar c).gapStart = s.gapStart + 1 := by
  have hlt := h.cap_lt
  have hle := h.end_le
  have hput : s.putChar c =
      { s with buf := Function.update s.buf s.gapStart c, gapStart := s.gapStart + 1, modified := true } := by
    rw [GapBuffer.putChar, u32_of_lt (by omega)]
  rw [hput]
  have h' : WellFormed
      { s with buf := Function.update s.buf s.gapStart c, gapStart := s.gapStart + 1, modified := true } :=
    ⟨hgap, hle, h.chunks, h.cap_pos, hlt⟩
  refine ⟨h', ?_, rfl⟩
  rw [h'.text_eq, h.take_text, h.drop_text, List.range_succ, List.map_append, List.map_singleton,
    List.append_assoc]
  dsimp only
  rw [Function.update_self]
  congr 1
  · refine List.map_congr_left fun i hi => Function.update_of_ne ?_ _ _
    exact (List.mem_range.1 hi).ne
  · refine congrArg (List.cons c) (List.map_congr_left fun i _ => Function.update_of_ne ?_ _ _)
    omega

theorem deleteBack (h : WellFormed s) : WellFormed s.deleteBack ∧
    s.deleteBack.text = s.text.take (s.gapStart - 1) ++ s.text.drop s.gapStart ∧
    s.deleteBack.gapStart = s.gapStart - 1 := by
  unfold GapBuffer.deleteBack
  split
  · rename_i hzero
    rw [hzero, Nat.zero_sub, List.take_zero, List.drop_zero, List.nil_append]
    exact ⟨h, rfl, rfl⟩
  · have hle := h.start_le
    have h' : WellFormed { s with gapStart := s.gapStart - 1, modified := true } :=
      ⟨show s.gapStart - 1 ≤ s.gapEnd by omega, h.end_le, h.chunks, h.cap_pos, h.cap_lt⟩
    refine ⟨h', ?_, rfl⟩
    have htake : s.text.take (s.gapStart - 1) = (List.range (s.gapStart - 1)).map s.buf := by
      rw [← Nat.min_eq_left (Nat.sub_le s.gapStart 1), ← List.take_take, h.take_text,
        ← List.map_take, List.take_range, Nat.min_eq_left (Nat.sub_le s.gapStart 1)]
    rw [h'.text_eq, h.drop_text, htake]

theorem deleteForward (h : WellFormed s) : WellFormed s.deleteForward ∧
    s.deleteForward.text = s.text.take s.gapStart ++ s.text.drop (s.gapStart + 1) ∧
    s.deleteForward.gapStart = s.gapStart := by
  have hle := h.end_le
  have hlt := h.cap_lt
  unfold GapBuffer.deleteForward
  split
  · rename_i hend
    refine ⟨h, ?_, rfl⟩
    have hlen : s.text.length = s.gapStart := by
      rw [length_text, h.textLen_eq]
      omega
    rw [List.take_of_length_le hlen.le, List.drop_eq_nil_of_le (by omega), List.append_nil]
  · have h' : WellFormed { s with gapEnd := u32 (s.gapEnd + 1), modified := true } := by
      rw [u32_of_lt (by omega)]
      have := h.start_le
      exact ⟨show s.gapStart ≤ s.gapEnd + 1 by omega, show s.gapEnd + 1 ≤ s.cap by omega, h.chunks, h.cap_pos, hlt⟩
    refine ⟨h', ?_, rfl⟩
    have hsplit : s.cap - s.gapEnd = s.cap - (s.gapEnd + 1) + 1 := by omega
    rw [h'.text_eq, h.take_text, ← List.drop_drop, h.drop_text, hsplit, List.range_succ_eq_map,
      List.map_cons, List.drop_one, List.tail_cons, List.map_map]
    dsimp only
    rw [u32_of_lt (by omega)]
    refine congrArg _ (List.map_congr_left fun i _ => congrArg s.buf ?_)
    omega

end WellFormed

end ComputerOS.Editor
