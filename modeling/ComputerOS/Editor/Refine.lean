import ComputerOS.Editor.Gap
import ComputerOS.Lib.Lines

/-!
The gap buffer behaves as a text with a cursor: every operation does to the text and the cursor what
it does to a document, and the loops over the buffer find the rows and columns of the text's lines.
-/
namespace ComputerOS.Editor

variable {s : GapBuffer} {d : Doc UInt8} {i k r : ℕ}

def Shows (s : GapBuffer) (d : Doc UInt8) : Prop := s.text = d.text ∧ s.gapStart = d.cursor

theorem WellFormed.gapStart_le (h : WellFormed s) : s.gapStart ≤ s.textLen := by
  rw [h.textLen_eq]
  omega

/-- Counts of positions are far from the end of the `int` range. -/
theorem WellFormed.textLen_lt (h : WellFormed s) (hcap : s.cap < 2 ^ 31) : s.textLen + 1 < 2 ^ 31 := by
  obtain ⟨c, hc⟩ := h.chunks
  have := h.start_le
  have := h.end_le
  rw [h.textLen_eq]
  unfold INITIAL_CAP at hc
  omega

theorem cursorLoop_eq (hlen : s.textLen + 1 < 2 ^ 31) (hi : i ≤ s.gapStart) (hi' : i ≤ s.textLen) : s.cursorLoop i =
    ((rowOf nl s.text i : ℤ), (i : ℤ) - lineStart nl s.text (rowOf nl s.text i)) := by
  induction i with
  | zero => rfl
  | succ i ih =>
    have hlt : i < s.text.length := by rwa [length_text]
    have hat : s.buf i = s.text[i] := by rw [getElem_text, GapBuffer.textAt, if_pos (Nat.lt_of_succ_le hi)]
    obtain ⟨hstart, -⟩ := lineStart_rowOf_le nl hlt.le
    have hrow := rowOf_mono nl s.text hlt.le
    have hcount := List.count_le_length (a := nl) (l := s.text)
    rw [rowOf_length] at hrow
    rw [length_text] at hcount
    rw [GapBuffer.cursorLoop, ih (by omega) (by omega), hat, rowOf_succ nl hlt]
    by_cases hnl : s.text[i] = nl
    · rw [if_pos hnl, if_pos hnl, lineStart_after_nl hlt hnl, int32_of_lt (by omega) (by omega)]
      push_cast
      rw [Int.sub_self]
    · rw [if_neg hnl, if_neg hnl, int32_of_lt (by omega) (by omega)]
      push_cast
      rw [Nat.add_zero]
      exact Prod.ext rfl (by dsimp only; omega)

theorem lineCountLoop_eq (hlen : s.textLen + 1 < 2 ^ 31) (hi : i ≤ s.textLen) :
    s.lineCountLoop i = (rowOf nl s.text i : ℤ) + 1 := by
  induction i with
  | zero => rfl
  | succ i ih =>
    have hlt : i < s.text.length := by rwa [length_text]
    have hrow := rowOf_mono nl s.text hlt.le
    have hcount := List.count_le_length (a := nl) (l := s.text)
    rw [rowOf_length] at hrow
    rw [length_text] at hcount
    rw [GapBuffer.lineCountLoop, ih (by omega), rowOf_succ nl hlt, ← getElem_text hlt]
    by_cases hnl : s.text[i] = nl
    · have hfull := rowOf_succ nl hlt
      have hmono := rowOf_mono nl s.text (show i + 1 ≤ s.text.length from hlt)
      rw [if_pos hnl] at hfull
      rw [rowOf_length] at hmono
      rw [if_pos hnl, if_pos hnl, int32_of_lt (by omega) (by omega)]
      push_cast
      rfl
    · rw [if_neg hnl, if_neg hnl, Nat.add_zero]

theorem posOfLineLoop_eq (hlen : s.textLen + 1 < 2 ^ 31) (hr : r ≤ s.text.count nl) (hk : k + i = s.textLen)
    (hrow : rowOf nl s.text i ≤ r) (hi : i ≤ lineStart nl s.text r) :
    s.posOfLineLoop r k i (rowOf nl s.text i) = lineStart nl s.text r := by
  obtain ⟨hend, hin⟩ := lineStart_spec hr
  have hcount := List.count_le_length (a := nl) (l := s.text)
  rw [length_text] at hend hcount
  induction k generalizing i with
  | zero =>
    rw [GapBuffer.posOfLineLoop]
    omega
  | succ k ih =>
    have hlt : i < s.text.length := by rw [length_text]; omega
    have hnext := rowOf_succ nl hlt
    rw [GapBuffer.posOfLineLoop, ← getElem_text hlt]
    by_cases hthere : rowOf nl s.text i = r
    · rw [if_pos (by exact_mod_cast hthere)]
      have hstart := (lineStart_rowOf_le nl hlt.le).1
      rw [hthere] at hstart
      omega
    · have hbefore : i < lineStart nl s.text r := by
        by_contra hge
        have := rowOf_mono nl s.text (Nat.not_lt.1 hge)
        omega
      have hle : rowOf nl s.text (i + 1) ≤ r := by
        rw [hnext]
        split <;> omega
      rw [if_neg (by exact_mod_cast hthere), ← ih (i := i + 1) (by omega) hle hbefore, hnext]
      by_cases hnl : s.text[i] = nl
      · rw [if_pos hnl, if_pos hnl, int32_of_lt (by omega) (by omega)]
        push_cast
        rfl
      · rw [if_neg hnl, if_neg hnl]
        rfl

theorem posOfLine_eq (hlen : s.textLen + 1 < 2 ^ 31) (hr : r ≤ s.text.count nl) :
    s.posOfLine r = lineStart nl s.text r := by
  have h := posOfLineLoop_eq hlen hr (Nat.add_zero s.textLen) (Nat.zero_le _) (Nat.zero_le _)
  rwa [rowOf_zero] at h

theorem lineLengthLoop_eq (hlen : s.textLen + 1 < 2 ^ 31) (hk : k + i = s.textLen) (hrow : rowOf nl s.text i = r) :
    s.lineLengthLoop k i ((i : ℤ) - lineStart nl s.text r) = lineLength nl s.text r := by
  induction k generalizing i with
  | zero =>
    have hend : lineStart nl s.text (rowOf nl s.text i) + lineLength nl s.text (rowOf nl s.text i) = i :=
      lineEnd_of_nl (by rw [length_text]; omega) fun h => by
        rw [length_text] at h
        omega
    rw [hrow] at hend
    rw [GapBuffer.lineLengthLoop]
    omega
  | succ k ih =>
    have hlt : i < s.text.length := by rw [length_text]; omega
    obtain ⟨hstart, -⟩ := lineStart_rowOf_le nl hlt.le
    rw [hrow] at hstart
    rw [GapBuffer.lineLengthLoop, ← getElem_text hlt]
    by_cases hnl : s.text[i] = nl
    · have hend := lineEnd_of_nl hlt.le fun _ => hnl
      rw [hrow] at hend
      rw [if_pos hnl]
      omega
    · have hnext := rowOf_succ nl hlt
      rw [if_neg hnl, hrow, Nat.add_zero] at hnext
      rw [if_neg hnl, int32_of_lt (by omega) (by omega), ← ih (by omega) hnext]
      push_cast
      refine congrArg (s.lineLengthLoop k (i + 1)) ?_
      omega

theorem lineLengthFrom_eq (hlen : s.textLen + 1 < 2 ^ 31) (hr : r ≤ s.text.count nl) :
    s.lineLengthFrom (lineStart nl s.text r) = lineLength nl s.text r := by
  obtain ⟨hend, hrow⟩ := lineStart_spec hr
  rw [length_text] at hend
  have h := lineLengthLoop_eq hlen (Nat.sub_add_cancel (show lineStart nl s.text r ≤ s.textLen by omega)) hrow
  rwa [Int.sub_self] at h

theorem homeLoop_eq (hi : i ≤ s.textLen) : s.homeLoop i = lineStart nl s.text (rowOf nl s.text i) := by
  induction i with
  | zero => rfl
  | succ i ih =>
    have hlt : i < s.text.length := by rwa [length_text]
    rw [GapBuffer.homeLoop, ← getElem_text hlt, rowOf_succ nl hlt]
    by_cases hnl : s.text[i] = nl
    · rw [if_neg (not_not.2 hnl), if_pos hnl, lineStart_after_nl hlt hnl]
    · rw [if_pos hnl, if_neg hnl, ih (by omega), Nat.add_zero]

theorem endLoop_eq (hk : k + i = s.textLen) :
    s.endLoop k i = lineStart nl s.text (rowOf nl s.text i) + lineLength nl s.text (rowOf nl s.text i) := by
  induction k generalizing i with
  | zero =>
    rw [lineEnd_of_nl (by rw [length_text]; omega) fun h => by rw [length_text] at h; omega]
    rfl
  | succ k ih =>
    have hlt : i < s.text.length := by rw [length_text]; omega
    rw [GapBuffer.endLoop, ← getElem_text hlt]
    by_cases hnl : s.text[i] = nl
    · rw [if_neg (not_not.2 hnl), lineEnd_of_nl hlt.le fun _ => hnl]
    · have hnext := rowOf_succ nl hlt
      rw [if_neg hnl] at hnext
      rw [if_pos hnl, ih (by omega), hnext]
      rfl

theorem Shows.deleteBack (h : WellFormed s) (hd : Shows s d) : WellFormed s.deleteBack ∧
    Shows s.deleteBack d.deleteBack := by
  obtain ⟨h', htext, hstart⟩ := h.deleteBack
  rw [hd.1, hd.2] at htext
  rw [hd.2] at hstart
  exact ⟨h', htext, hstart⟩

theorem Shows.deleteForward (h : WellFormed s) (hd : Shows s d) :
    WellFormed s.deleteForward ∧ Shows s.deleteForward d.deleteForward := by
  obtain ⟨h', htext, hstart⟩ := h.deleteForward
  rw [hd.1, hd.2] at htext
  exact ⟨h', htext, hstart.trans hd.2⟩

theorem Shows.textLen (hd : Shows s d) : s.textLen = d.text.length := by rw [← hd.1, length_text]

theorem Shows.moveGap (h : WellFormed s) (hd : Shows s d) {pos : ℕ} (hpos : pos ≤ s.textLen) :
    WellFormed (s.moveGap pos) ∧ Shows (s.moveGap pos) (d.moveTo pos) := by
  obtain ⟨h', htext, hstart, -⟩ := h.moveGap hpos
  rw [hd.textLen] at hpos
  exact ⟨h', by rw [htext, d.moveTo_text, hd.1], by rw [hstart, d.moveTo_cursor hpos]⟩

theorem Shows.actionLeft (h : WellFormed s) (hd : Shows s d) : WellFormed s.actionLeft ∧ Shows s.actionLeft d.left := by
  have hle := h.gapStart_le
  unfold GapBuffer.actionLeft Doc.left
  rw [← hd.2]
  split
  · rename_i hzero
    rw [hzero]
    refine ⟨h, by rw [d.moveTo_text, hd.1], ?_⟩
    rw [d.moveTo_cursor (Nat.zero_le _), hzero]
  · exact Shows.moveGap h hd (by omega)

theorem Shows.actionRight (h : WellFormed s) (hd : Shows s d) : WellFormed s.actionRight ∧
    Shows s.actionRight d.right := by
  have hlen := h.textLen_eq
  have := h.start_le
  have := h.end_le
  have := h.cap_lt
  unfold GapBuffer.actionRight Doc.right
  rw [← hd.2]
  split
  · rename_i hend
    have hlast : ¬ s.gapStart + 1 ≤ d.text.length := by
      rw [← hd.textLen]
      omega
    rw [Doc.moveTo, dif_neg hlast]
    exact ⟨h, hd⟩
  · rw [u32_of_lt (by omega)]
    exact Shows.moveGap h hd (by omega)

theorem Shows.actionHome (h : WellFormed s) (hd : Shows s d) : WellFormed s.actionHome ∧
    Shows s.actionHome (d.home nl) := by
  have hle := h.gapStart_le
  have hstart := (lineStart_rowOf_le nl (t := s.text) (i := s.gapStart) (by rwa [length_text])).1
  unfold GapBuffer.actionHome Doc.home Doc.goto Doc.row
  rw [homeLoop_eq hle, Nat.zero_min, Nat.add_zero, ← hd.1, ← hd.2]
  exact Shows.moveGap h hd (by omega)

theorem Shows.actionEnd (h : WellFormed s) (hd : Shows s d) : WellFormed s.actionEnd ∧
    Shows s.actionEnd (d.lineEnd nl) := by
  have hle := h.gapStart_le
  have hend := (lineStart_spec (rowOf_le nl s.text s.gapStart)).1
  rw [length_text] at hend
  unfold GapBuffer.actionEnd Doc.lineEnd Doc.goto Doc.row
  rw [endLoop_eq (Nat.sub_add_cancel hle), Nat.min_self, ← hd.1, ← hd.2]
  exact Shows.moveGap h hd hend

/-- Row and column are those of the cursor. -/
structure Located (s : GapBuffer) (d : Doc UInt8) : Prop where
  row : s.curRow = d.row nl
  col : s.curCol = d.col nl

theorem WellFormed.recomputeCursor (h : WellFormed s) : WellFormed s.recomputeCursor :=
  ⟨h.start_le, h.end_le, h.chunks, h.cap_pos, h.cap_lt⟩

theorem Shows.recomputeCursor (h : WellFormed s) (hcap : s.cap < 2 ^ 31) (hd : Shows s d) :
    Shows s.recomputeCursor d ∧ Located s.recomputeCursor d := by
  have hle := h.gapStart_le
  have hloop := cursorLoop_eq (h.textLen_lt hcap) (Nat.le_refl _) hle
  have hstart := (lineStart_rowOf_le nl (t := s.text) (i := s.gapStart) (by rwa [length_text])).1
  refine ⟨hd, ?_, ?_⟩
  · change (s.cursorLoop s.gapStart).1 = _
    rw [hloop, Doc.row, hd.1, hd.2]
  · change (s.cursorLoop s.gapStart).2 = _
    rw [hloop, Doc.col, Doc.row, ← hd.1, ← hd.2]
    omega

/-- The gap moves to the cursor's column in row `r`. -/
theorem Shows.moveToColumn (h : WellFormed s) (hcap : s.cap < 2 ^ 31) (hd : Shows s d) (hat : Located s d)
    (hr : r ≤ d.text.count nl) :
    WellFormed (s.moveToColumn (s.posOfLine r)) ∧ Shows (s.moveToColumn (s.posOfLine r)) (d.goto nl r (d.col nl)) := by
  have hlen := h.textLen_lt hcap
  rw [← hd.1] at hr
  have hend := (lineStart_spec hr).1
  rw [length_text] at hend
  unfold GapBuffer.moveToColumn Doc.goto
  dsimp only
  rw [posOfLine_eq hlen hr, lineLengthFrom_eq hlen hr, hat.col, ← hd.1]
  have hpos : (((lineStart nl s.text r : ℤ) + if (d.col nl : ℤ) < lineLength nl s.text r then (d.col nl : ℤ)
      else lineLength nl s.text r) % 2 ^ 32).toNat = lineStart nl s.text r + min (d.col nl)
        (lineLength nl s.text r) := by
    split <;> omega
  rw [hpos]
  exact Shows.moveGap h hd (by omega)

theorem Shows.actionUp (h : WellFormed s) (hcap : s.cap < 2 ^ 31) (hd : Shows s d) (hat : Located s d) :
    WellFormed s.actionUp ∧ Shows s.actionUp (d.up nl) := by
  have hlen := h.textLen_lt hcap
  have hrow : d.row nl ≤ d.text.count nl := rowOf_le nl d.text d.cursor
  have hcount := List.count_le_length (a := nl) (l := d.text)
  rw [hd.textLen] at hlen
  unfold GapBuffer.actionUp Doc.up
  rw [hat.row]
  by_cases htop : d.row nl = 0
  · rw [if_pos (by exact_mod_cast htop), if_pos htop]
    exact ⟨h, hd⟩
  · have hprev : int32 ((d.row nl : ℤ) - 1) = ((d.row nl - 1 : ℕ) : ℤ) := by
      rw [int32_of_lt (by omega) (by omega)]
      omega
    rw [if_neg (by exact_mod_cast htop), if_neg htop, hprev]
    exact Shows.moveToColumn h hcap hd hat (by omega)

theorem Shows.actionDown (h : WellFormed s) (hcap : s.cap < 2 ^ 31) (hd : Shows s d) (hat : Located s d) :
    WellFormed s.actionDown ∧ Shows s.actionDown (d.down nl) := by
  have hlen := h.textLen_lt hcap
  have hrow : d.row nl ≤ d.text.count nl := rowOf_le nl d.text d.cursor
  have hcount := List.count_le_length (a := nl) (l := d.text)
  have hlines : s.lineCount = (d.text.count nl : ℤ) + 1 := by
    rw [GapBuffer.lineCount, lineCountLoop_eq hlen (Nat.le_refl _), ← length_text, rowOf_length, hd.1]
  rw [hd.textLen] at hlen
  unfold GapBuffer.actionDown Doc.down
  dsimp only
  rw [hlines, hat.row, length_splitOn, int32_of_lt (by omega) (by omega)]
  by_cases hlast : d.row nl + 1 < d.text.count nl + 1
  · have hnext : int32 ((d.row nl : ℤ) + 1) = ((d.row nl + 1 : ℕ) : ℤ) := by
      rw [int32_of_lt (by omega) (by omega)]
      push_cast
      rfl
    rw [if_neg (by omega), if_pos hlast, hnext]
    exact Shows.moveToColumn h hcap hd hat (by omega)
  · rw [if_pos (by omega), if_neg hlast]
    exact ⟨h, hd⟩

end ComputerOS.Editor

-- Editing a text: any sequence of the editor's operations, with `kmalloc` failing whenever it
-- likes, does to the gap buffer what it does to a plain text with a cursor.
namespace ComputerOS.Editor

variable {s s₀ : GapBuffer} {d d₀ : Doc UInt8}

/-- The operations; `alloc` is the block that `kmalloc` gives if it is asked for one. -/
inductive Op
  | insertChar (c : UInt8) (alloc : Option Mem)
  | deleteBack
  | deleteForward
  | moveGap (pos : ℕ)
  | left
  | right
  | home
  | lineEnd
  | up
  | down
  | grow (alloc : Option Mem)

namespace Op

/-- What the operation returns, and the buffer after it; a function that returns nothing is given 0.
-/
def run (s : GapBuffer) : Op → ℤ × GapBuffer
  | insertChar c alloc => s.insertChar alloc c
  | deleteBack => (0, s.deleteBack)
  | deleteForward => (0, s.deleteForward)
  | moveGap pos => (0, s.moveGap pos)
  | left => (0, s.actionLeft)
  | right => (0, s.actionRight)
  | home => (0, s.actionHome)
  | lineEnd => (0, s.actionEnd)
  | up => (0, s.recomputeCursor.actionUp)
  | down => (0, s.recomputeCursor.actionDown)
  | grow alloc => s.grow alloc

/-- The gap is moved to positions of the text only. -/
def Ok (s : GapBuffer) : Op → Prop
  | moveGap pos => pos ≤ s.textLen
  | _ => True

/-- What the operation does to a document, when it returns `r`. -/
def apply (d : Doc UInt8) (r : ℤ) : Op → Doc UInt8
  | insertChar c _ => if r = 0 then d.insert c else d
  | deleteBack => d.deleteBack
  | deleteForward => d.deleteForward
  | moveGap pos => d.moveTo pos
  | left => d.left
  | right => d.right
  | home => d.home nl
  | lineEnd => d.lineEnd nl
  | up => d.up nl
  | down => d.down nl
  | grow _ => d

def Moves : Op → Prop
  | moveGap _ | left | right | home | lineEnd | up | down => True
  | _ => False

/-- A new block is asked for, and there is none. -/
def Refused (s : GapBuffer) : Op → Prop
  | insertChar _ alloc => s.gapStart = s.gapEnd ∧ alloc = none
  | grow alloc => alloc = none
  | _ => False

end Op

/-- The buffer as `editor_run` has it when the editing starts: the gap is at the end, behind what
was loaded. -/
structure Opened (s : GapBuffer) : Prop where
  doubled : ∃ k, s.cap = INITIAL_CAP * 2 ^ k
  cap_lt : s.cap < 2 ^ 32
  start_le : s.gapStart ≤ s.cap
  gapEnd : s.gapEnd = s.cap

theorem Opened.wellFormed (h : Opened s) : WellFormed s := by
  obtain ⟨k, hk⟩ := h.doubled
  refine ⟨h.gapEnd ▸ h.start_le, h.gapEnd.le, ⟨_, hk⟩, ?_, h.cap_lt⟩
  rw [hk]
  exact Nat.mul_pos (by decide) (Nat.two_pow_pos k)

/-- The states that operations lead to from `s₀`, with the operations and what they returned; each
is done with less than 2³¹ bytes. -/
inductive Run (s₀ : GapBuffer) : List (Op × ℤ) → GapBuffer → Prop
  | start : Run s₀ [] s₀
  | step {s : GapBuffer} {trace : List (Op × ℤ)} (op : Op) : Run s₀ trace s → s.cap < 2 ^ 31 →
      op.Ok s → Run s₀ (trace ++ [(op, (op.run s).1)]) (op.run s).2

theorem insertChar_refused (c : UInt8) (hfull : s.gapStart = s.gapEnd) : s.insertChar none c = (-1, s) := by
  rw [GapBuffer.insertChar, if_pos hfull, grow_none]
  rfl

theorem insertChar_granted (h : WellFormed s) (hcap : s.cap < 2 ^ 31) {alloc : Option Mem} (c : UInt8)
    (hroom : s.gapStart = s.gapEnd → alloc ≠ none) : ∃ s', WellFormed s' ∧ s'.text = s.text ∧ s'.gapStart = s.gapStart ∧
      s'.gapStart < s'.gapEnd ∧ s.insertChar alloc c = (0, s'.putChar c) := by
  by_cases hfull : s.gapStart = s.gapEnd
  · obtain ⟨nb, rfl⟩ := Option.ne_none_iff_exists'.1 (hroom hfull)
    obtain ⟨hret, h', htext, hstart, hgap, -⟩ := h.grow_some hcap nb
    refine ⟨(s.grow (some nb)).2, h', htext, hstart, hgap, ?_⟩
    rw [GapBuffer.insertChar, if_pos hfull]
    dsimp only
    rw [hret, if_neg (by decide)]
  · exact ⟨s, h, rfl, rfl, Nat.lt_of_le_of_ne h.start_le hfull, by rw [GapBuffer.insertChar, if_neg hfull]⟩

theorem Shows.insertChar (h : WellFormed s) (hcap : s.cap < 2 ^ 31) (hd : Shows s d) {alloc : Option Mem} (c : UInt8)
    (hroom : s.gapStart = s.gapEnd → alloc ≠ none) : (s.insertChar alloc c).1 = 0 ∧
      WellFormed (s.insertChar alloc c).2 ∧ Shows (s.insertChar alloc c).2 (d.insert c) := by
  obtain ⟨s', h', htext, hstart, hgap, hrun⟩ := insertChar_granted h hcap c hroom
  obtain ⟨hput, hputText, hputStart⟩ := h'.putChar hgap c
  rw [hrun]
  refine ⟨rfl, hput, ?_, ?_⟩
  · rw [hputText, htext, hstart, hd.1, hd.2]
    rfl
  · rw [hputStart, hstart, hd.2]
    rfl

/-- An operation that is refused returns -1 and changes nothing; every other one returns 0. -/
theorem run_spec (op : Op) (h : WellFormed s) (hcap : s.cap < 2 ^ 31) (hok : op.Ok s) (hd : Shows s d) :
    WellFormed (op.run s).2 ∧ Shows (op.run s).2 (op.apply d (op.run s).1) ∧
      (op.Refused s → op.run s = (-1, s)) ∧ (¬ op.Refused s → (op.run s).1 = 0) := by
  have done : ∀ {s' : GapBuffer} {d' : Doc UInt8}, WellFormed s' ∧ Shows s' d' →
      WellFormed s' ∧ Shows s' d' ∧ (False → ((0 : ℤ), s') = (-1, s)) ∧ (¬ False → (0 : ℤ) = 0) :=
    fun h => ⟨h.1, h.2, False.elim, fun _ => rfl⟩
  obtain ⟨hd₁, hat⟩ := Shows.recomputeCursor h hcap hd
  cases op with
  | insertChar c alloc =>
    by_cases hrefused : s.gapStart = s.gapEnd ∧ alloc = none
    · obtain ⟨hfull, rfl⟩ := hrefused
      have hrun : (Op.insertChar c none).run s = (-1, s) := insertChar_refused c hfull
      rw [hrun]
      exact ⟨h, hd, fun _ => rfl, fun hno => (hno ⟨hfull, rfl⟩).elim⟩
    · obtain ⟨hret, h', hshows⟩ := Shows.insertChar h hcap hd c fun hfull hnone => hrefused ⟨hfull, hnone⟩
      refine ⟨h', ?_, fun hno => (hrefused hno).elim, fun _ => hret⟩
      change Shows (s.insertChar alloc c).2 (if (s.insertChar alloc c).1 = 0 then d.insert c else d)
      rw [if_pos hret]
      exact hshows
  | deleteBack => exact done (Shows.deleteBack h hd)
  | deleteForward => exact done (Shows.deleteForward h hd)
  | moveGap pos => exact done (Shows.moveGap h hd hok)
  | left => exact done (Shows.actionLeft h hd)
  | right => exact done (Shows.actionRight h hd)
  | home => exact done (Shows.actionHome h hd)
  | lineEnd => exact done (Shows.actionEnd h hd)
  | up => exact done (Shows.actionUp h.recomputeCursor hcap hd₁ hat)
  | down => exact done (Shows.actionDown h.recomputeCursor hcap hd₁ hat)
  | grow alloc =>
    cases alloc with
    | none => exact ⟨h, hd, fun _ => rfl, fun hno => (hno rfl).elim⟩
    | some nb =>
      obtain ⟨hret, h', htext, hstart, -⟩ := h.grow_some hcap nb
      exact ⟨h', ⟨htext.trans hd.1, hstart.trans hd.2⟩, fun hno => (Option.some_ne_none nb hno).elim, fun _ => hret⟩

theorem apply_moves {op : Op} (hmoves : op.Moves) (d : Doc UInt8) (r : ℤ) : (op.apply d r).text = d.text := by
  cases op with
  | moveGap pos => exact d.moveTo_text pos
  | left => exact d.moveTo_text _
  | right => exact d.moveTo_text _
  | home => exact d.moveTo_text _
  | lineEnd => exact d.moveTo_text _
  | up =>
    change (d.up nl).text = _
    unfold Doc.up
    split
    · rfl
    · exact d.moveTo_text _
  | down =>
    change (d.down nl).text = _
    unfold Doc.down
    split
    · exact d.moveTo_text _
    · rfl
  | insertChar c alloc => exact hmoves.elim
  | deleteBack => exact hmoves.elim
  | deleteForward => exact hmoves.elim
  | grow alloc => exact hmoves.elim

theorem Run.refines {trace : List (Op × ℤ)} (h₀ : WellFormed s₀) (hd₀ : Shows s₀ d₀) (hrun : Run s₀ trace s) :
    WellFormed s ∧ Shows s (trace.foldl (fun d e => e.1.apply d e.2) d₀) := by
  induction hrun with
  | start => exact ⟨h₀, hd₀⟩
  | step op _ hcap hok ih =>
    rw [List.foldl_append]
    obtain ⟨h', hd', -⟩ := run_spec op ih.1 hcap hok ih.2
    exact ⟨h', hd'⟩

/-- A run does to text and cursor what it does to a document, the gap stays in the block, moving the
cursor keeps the text, and an operation fails only when it gets no memory, and then it changes
nothing. -/
theorem gapBuffer_refines {trace : List (Op × ℤ)} (hopen : Opened s₀) (hd₀ : Shows s₀ d₀) (hrun : Run s₀ trace s) :
    Shows s (trace.foldl (fun d e => e.1.apply d e.2) d₀) ∧ s.gapStart ≤ s.gapEnd ∧ s.gapEnd ≤ s.cap ∧
      ∀ op : Op, s.cap < 2 ^ 31 → op.Ok s → (op.Moves → (op.run s).2.text = s.text) ∧
        (op.Refused s → op.run s = (-1, s)) ∧ (¬ op.Refused s → (op.run s).1 = 0) := by
  obtain ⟨h, hd⟩ := hrun.refines hopen.wellFormed hd₀
  refine ⟨hd, h.start_le, h.end_le, fun op hcap hok => ?_⟩
  obtain ⟨-, hshows, hrest⟩ := run_spec op h hcap hok hd
  refine ⟨fun hmoves => ?_, hrest⟩
  rw [hshows.1, apply_moves hmoves, hd.1]

theorem opened_editorOpen (buf : Mem) : Opened (editorOpen buf) :=
  ⟨⟨0, rfl⟩, show INITIAL_CAP < 2 ^ 32 by decide, Nat.zero_le _, rfl⟩

theorem shows_editorOpen (buf : Mem) : Shows (editorOpen buf) ⟨[], 0, Nat.le_refl _⟩ := by
  refine ⟨List.eq_nil_of_length_eq_zero ?_, rfl⟩
  rw [length_text, (opened_editorOpen buf).wellFormed.textLen_eq]
  change 0 + (INITIAL_CAP - INITIAL_CAP) = 0
  rw [Nat.sub_self]

/-- Two characters are typed and the cursor goes back between them; then the block is refused and
granted more memory, and the character behind the cursor is deleted. -/
theorem edited_refines : ∃ s, Run (editorOpen fun _ => 0)
      [(.insertChar 65 none, 0), (.insertChar 66 none, 0), (.left, 0), (.grow none, -1),
    (.grow (some fun _ => 0), 0), (.deleteForward, 0)] s ∧ Shows s ⟨[65], 1, by decide⟩ ∧
    s.cap = 2 * INITIAL_CAP ∧ s.gapStart ≤ s.gapEnd ∧ s.gapEnd ≤ s.cap := by
  have hopened : Run (editorOpen fun _ => 0) [] (editorOpen fun _ => 0) := .start
  have htyped := (hopened.step (.insertChar 65 none) (by decide) trivial).step (.insertChar 66 none) (by decide) trivial
  have hmoved := htyped.step .left (by decide) trivial
  have hgrown := (hmoved.step (.grow none) (by decide) trivial).step (.grow (some fun _ => 0)) (by decide) trivial
  have hrun := hgrown.step .deleteForward (by decide) trivial
  obtain ⟨hd, hstart, hend, -⟩ := gapBuffer_refines (opened_editorOpen _) (shows_editorOpen _) hrun
  exact ⟨_, hrun, hd, rfl, hstart, hend⟩

end ComputerOS.Editor
