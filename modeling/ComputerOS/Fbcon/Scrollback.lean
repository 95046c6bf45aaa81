import ComputerOS.Fbcon.Cursor
import Mathlib.Data.Int.Basic

/-!
The rows that scrolled off the top. Row `j` of all of them is kept at place `j % 512` of the ring
while it is one of the last 512, so the view shows consecutive rows of the history and the screen,
and a row that scrolls off moves the view with it. Only an offset that leaves the `int` range breaks
this.
-/
namespace ComputerOS.Fbcon

/-- The steps of the console that concern the history, and those that draw. -/
inductive ScreenOp
  | scrollUpOne
  | write (row col : ℤ) (cell : Cell)
  | drawCursor (invert : Bool)
  | moveCursor (row col : ℤ) (pending : Bool)
  | setColor (fg bg : UInt8)
  | clear
  | scrollUp (rows : ℤ)
  | scrollDown (rows : ℤ)
  | scrollReset

namespace ScreenOp

def run (s : Con) : ScreenOp → Con
  | scrollUpOne => s.scrollUpOne
  | write row col cell => s.write row col cell
  | drawCursor invert => s.drawCursor invert
  | moveCursor row col pending => { s with curRow := row, curCol := col, wrapPending := pending }
  | setColor fg bg => s.fbSetColor fg bg
  | clear => s.fbClear
  | scrollUp rows => s.fbScrollUp rows
  | scrollDown rows => s.fbScrollDown rows
  | scrollReset => s.fbScrollReset

/-- The argument of a scroll is an `int`. -/
def Typed : ScreenOp → Prop
  | scrollUp rows => rows < 2 ^ 31
  | scrollDown rows => rows < 2 ^ 31
  | _ => True

/-- The new offset is an `int`, before it is compared with the number of rows. -/
def Fits (s : Con) : ScreenOp → Prop
  | scrollUp rows => s.viewOffset + rows < 2 ^ 31
  | _ => True

/-- The state in which the step calls `redraw_view`. -/
def Redraws (s t : Con) : ScreenOp → Prop
  | scrollUp rows => 0 < rows ∧ t = s.moveUp rows
  | scrollDown rows => 0 < rows ∧ t = s.moveDown rows
  | scrollReset => s.viewOffset ≠ 0 ∧ t = { s with viewOffset := 0 }
  | _ => False

end ScreenOp

/-- The states reached by steps that are all `ok`. -/
inductive Run (ok : Con → ScreenOp → Prop) : Con → Prop
  | init {cols rows : ℤ} (hcols : 1 ≤ cols) (hrows : 1 ≤ rows) : Run ok (fbconInit cols rows)
  | step {s : Con} (op : ScreenOp) : Run ok s → op.Typed → ok s op → Run ok (op.run s)

/-- The last 512 rows that scrolled off the top, and then the rows of the screen. -/
def Con.lines (s : Con) : List (ℤ → Cell) :=
  s.scrolled.drop (s.scrolled.length - 512) ++ (List.range s.rows.toNat).map fun r : ℕ => s.cells r

/-- After `redraw_view` in state `t` the screen shows the lines from the offset on. -/
def Paints (t : Con) : Prop :=
  ∀ r c : ℕ, r < t.rows → c < t.cols → ∃ row,
    (t.lines[t.lines.length - t.rows.toNat - t.viewOffset.toNat + r]?) = some row ∧
    t.redrawView.fb r c = .cell (row c) false

/-- What holds of the view in every state of a run. -/
structure Scrollback (ok : Con → ScreenOp → Prop) (s : Con) : Prop where
  offset_nonneg : 0 ≤ s.viewOffset
  offset_le : s.viewOffset ≤ s.histCount
  count_le : s.histCount ≤ 512
  paints : ∀ op : ScreenOp, op.Typed → ok s op → ∀ t, op.Redraws s t → Paints t
  stays : 0 < s.viewOffset → s.viewOffset < 512 → ∀ r c : ℕ, r < s.rows → c < s.cols →
    s.scrollUpOne.redrawView.fb r c = s.redrawView.fb r c

variable {s s' t : Con} {rows : ℤ}

/-- The ring holds the last rows that scrolled off. -/
structure History (s : Con) : Prop where
  size : 1 ≤ s.cols ∧ 1 ≤ s.rows
  ready : s.ready = true
  idle : s.redrawing = false
  count : s.histCount = min 512 (s.scrolled.length : ℤ)
  head : s.histHead = (s.scrolled.length : ℤ) % 512
  kept : ∀ (j : ℕ) (h : j < s.scrolled.length), s.scrolled.length ≤ j + 512 → ∀ c : ℤ, 0 ≤ c →
    c < s.cols → s.hist ((j : ℤ) % 512) c = s.scrolled[j] c
  offset : 0 ≤ s.viewOffset ∧ s.viewOffset ≤ s.histCount

theorem Shown.history (h : Shown s s') (hs : History s) : History s' := by
  obtain ⟨fb, rfl⟩ := h
  exact ⟨hs.size, hs.ready, hs.idle, hs.count, hs.head, hs.kept, hs.offset⟩

theorem History.moveView (hs : History s) {off : ℤ} (hoff : 0 ≤ off ∧ off ≤ s.histCount) :
    History { s with viewOffset := off } := ⟨hs.size, hs.ready, hs.idle, hs.count, hs.head, hs.kept, hoff⟩

/-- Row `g` of all rows ever: those that scrolled off, and then those of the screen. -/
def Con.rowAt (s : Con) (g : ℤ) (c : ℤ) : Cell :=
  if h : 0 ≤ g ∧ g < s.scrolled.length then s.scrolled[g.toNat] c else s.cells (g - s.scrolled.length) c

theorem wrapIndex {x : ℤ} (hlo : -512 ≤ x) (hhi : x < 512) :
    (if x.tmod 512 < 0 then x.tmod 512 + 512 else x.tmod 512) = x % 512 := by
  rcases Int.le_total 0 x with hx | hx
  · rw [Int.tmod_eq_emod_of_nonneg hx]
    omega
  · obtain ⟨y, rfl⟩ : ∃ y, x = -y := ⟨-x, (Int.neg_neg x).symm⟩
    rw [Int.neg_tmod, Int.tmod_eq_emod_of_nonneg (by omega)]
    omega

/-- Row `r` of the view is found in the ring or on the screen. -/
theorem History.viewCell (hs : History s) {r c : ℤ} (hr : 0 ≤ r) (hr' : r < s.rows) (hc : 0 ≤ c) (hc' : c < s.cols) :
    s.viewCell r c = s.rowAt (s.scrolled.length - s.viewOffset + r) c := by
  obtain ⟨hoff, hoff'⟩ := hs.offset
  have hcount := hs.count
  have hhead := hs.head
  unfold Con.viewCell Con.rowAt
  dsimp only
  rw [if_neg (by omega)]
  by_cases hlog : s.histCount - s.viewOffset + r < s.histCount
  · rw [if_pos hlog, dif_pos (by omega)]
    have hkept := hs.kept (s.scrolled.length - s.viewOffset + r).toNat (by omega) (by omega) c hc hc'
    rw [← hkept]
    refine congrArg (fun i => s.hist i c) ?_
    unfold HIST_ROWS
    rw [wrapIndex (by omega) (by omega)]
    omega
  · rw [if_neg hlog, dif_neg (by omega), if_pos (by omega)]
    refine congrArg (fun i => s.cells i c) ?_
    omega

theorem length_lines (s : Con) : s.lines.length = min 512 s.scrolled.length + s.rows.toNat := by
  rw [Con.lines, List.length_append, List.length_drop, List.length_map, List.length_range]
  omega

theorem lines_rowAt (s : Con) {i : ℕ} (hi : i < min 512 s.scrolled.length + s.rows.toNat) :
    ∃ row, s.lines[i]? = some row ∧ ∀ c, row c = s.rowAt ((s.scrolled.length - 512 + i : ℕ) : ℤ) c := by
  unfold Con.lines Con.rowAt
  by_cases hold : i < min 512 s.scrolled.length
  · have hlt : s.scrolled.length - 512 + i < s.scrolled.length := by omega
    refine ⟨s.scrolled[s.scrolled.length - 512 + i], ?_, fun c => ?_⟩
    · rw [List.getElem?_append_left (by rw [List.length_drop]; omega), List.getElem?_drop, List.getElem?_eq_getElem hlt]
    · rw [dif_pos (by omega)]
      rfl
  · refine ⟨s.cells ((i - min 512 s.scrolled.length : ℕ) : ℤ), ?_, fun c => ?_⟩
    · rw [List.getElem?_append_right (by rw [List.length_drop]; omega), List.length_drop,
        List.getElem?_map, List.getElem?_range (by omega), Option.map_some]
      refine congrArg (fun r : ℕ => some (s.cells r)) ?_
      omega
    · rw [dif_neg (by omega)]
      refine congrArg (fun r => s.cells r c) ?_
      omega

/-- The tiles that a loop over the columns draws in row `vr`. -/
theorem forCols_draw (s : Con) {vr : ℤ} (hready : s.ready = true) (hdraw : s.redrawing = true)
    (hvr : 0 ≤ vr ∧ vr < s.rows) {n : ℕ}
    (hn : n ≤ s.cols) :
    Con.forTo (fun c s => s.drawCell vr c (s.viewCell vr c) false) n s =
      { s with fb := fun r c => if r = vr ∧ 0 ≤ c ∧ c < n then .cell (s.viewCell r c) false else s.fb r c } := by
  induction n with
  | zero =>
    have hfb : (fun r c => if r = vr ∧ 0 ≤ c ∧ c < ((0 : ℕ) : ℤ) then Tile.cell (s.viewCell r c)
      false else s.fb r c) = s.fb := by
      funext r c
      exact if_neg (by omega)
    rw [hfb]
    rfl
  | succ n ih =>
    rw [Con.forTo, ih (by omega)]
    unfold Con.drawCell
    rw [if_neg (by simp [hready]), if_neg (by dsimp only; omega), if_neg (by simp [hdraw])]
    congr 1
    funext r c
    by_cases hhere : r = vr ∧ c = n
    · obtain ⟨rfl, rfl⟩ := hhere
      rw [if_pos ⟨rfl, rfl⟩, if_pos (by omega)]
      rfl
    · rw [if_neg hhere]
      dsimp only
      by_cases hold : r = vr ∧ 0 ≤ c ∧ c < n
      · rw [if_pos hold, if_pos (by omega)]
      · rw [if_neg hold, if_neg (by omega)]

theorem forRows_draw (s : Con) (hready : s.ready = true) (hdraw : s.redrawing = true)
    (hcols : 0 ≤ s.cols) {n : ℕ} (hn : n ≤ s.rows) :
    Con.forTo (fun vr s => Con.forTo (fun c s => s.drawCell vr c (s.viewCell vr c) false)
      s.cols.toNat s) n s = { s with fb := fun r c =>
          if 0 ≤ r ∧ r < n ∧ 0 ≤ c ∧ c < s.cols then .cell (s.viewCell r c) false else s.fb r c } := by
  induction n with
  | zero =>
    have hfb : (fun r c => if 0 ≤ r ∧ r < ((0 : ℕ) : ℤ) ∧ 0 ≤ c ∧
        c < s.cols then Tile.cell (s.viewCell r c) false else s.fb r c) = s.fb := by
      funext r c
      exact if_neg (by omega)
    rw [hfb]
    rfl
  | succ n ih =>
    have hrow := forCols_draw { s with fb := fun r c =>
        if 0 ≤ r ∧ r < n ∧ 0 ≤ c ∧ c < s.cols then .cell (s.viewCell r c) false else s.fb r c }
      hready hdraw (show (0 : ℤ) ≤ n ∧ (n : ℤ) < s.rows by omega) (show (s.cols.toNat : ℤ) ≤ s.cols by omega)
    rw [Con.forTo, ih (by omega), hrow]
    congr 1
    funext r c
    by_cases hhere : r = n ∧ 0 ≤ c ∧ c < (s.cols.toNat : ℤ)
    · rw [if_pos hhere, if_pos (by omega)]
      rfl
    · rw [if_neg hhere]
      dsimp only
      by_cases hold : 0 ≤ r ∧ r < n ∧ 0 ≤ c ∧ c < s.cols
      · rw [if_pos hold, if_pos (by omega)]
      · rw [if_neg hold, if_neg (by omega)]

theorem History.redrawView_eq (hs : History s) : s.redrawView =
    { s with
      redrawing := false
      fb := fun r c => if 0 ≤ r ∧ r < s.rows ∧ 0 ≤ c ∧
        c < s.cols then .cell (s.viewCell r c) false else s.fb r c } := by
  obtain ⟨hcols, hrows⟩ := hs.size
  have hnat : ((s.rows.toNat : ℕ) : ℤ) = s.rows := Int.toNat_of_nonneg (by omega)
  unfold Con.redrawView
  dsimp only
  rw [forRows_draw { s with redrawing := true } hs.ready rfl (by dsimp only; omega) (by dsimp only; omega), hnat]
  rfl

theorem History.redrawView (hs : History s) : History s.redrawView := by
  rw [hs.redrawView_eq]
  exact ⟨hs.size, hs.ready, rfl, hs.count, hs.head, hs.kept, hs.offset⟩

theorem History.redrawView_fb (hs : History s) {r c : ℕ} (hr : r < s.rows) (hc : c < s.cols) :
    s.redrawView.fb r c = .cell (s.rowAt (s.scrolled.length - s.viewOffset + r) c) false := by
  rw [hs.redrawView_eq]
  dsimp only
  rw [if_pos (by omega), hs.viewCell (by omega) hr (by omega) hc]

theorem History.paints (hs : History s) : Paints s := by
  intro r c hr hc
  obtain ⟨hoff, hoff'⟩ := hs.offset
  have hcount := hs.count
  have hlen := length_lines s
  obtain ⟨row, hrow, hat⟩ := lines_rowAt s (i := s.lines.length - s.rows.toNat - s.viewOffset.toNat + r) (by omega)
  refine ⟨row, hrow, ?_⟩
  rw [hs.redrawView_fb hr hc, hat c]
  refine congrArg (fun g => Tile.cell (s.rowAt g c) false) ?_
  omega

/-- The new row in the ring, with the offset that keeps the view in place. -/
def Con.scrolledOff (s : Con) : Con :=
  let s := (s.histPush (s.cells 0)).shiftCells
  { s with viewOffset := if s.viewOffset ≠ 0 ∧ s.viewOffset < s.histCount then s.viewOffset + 1 else s.viewOffset }

theorem scrollUpOne_shown (s : Con) : Shown s.scrolledOff s.scrollUpOne := by
  unfold Con.scrollUpOne Con.scrolledOff
  generalize (s.histPush (s.cells 0)).shiftCells = t
  dsimp only
  by_cases hoff : t.viewOffset ≠ 0
  · rw [if_pos hoff]
    by_cases hlt : t.viewOffset < t.histCount
    · rw [if_pos hlt, if_pos ⟨hoff, hlt⟩]
      exact Shown.refl _
    · rw [if_neg hlt, if_neg fun h => hlt h.2]
      exact Shown.refl _
  · rw [if_neg hoff, if_neg fun h => hoff h.1]
    obtain ⟨fb, hfb⟩ := Shown.forTo (fun c s => .drawCell s (s.rows - 1) c s.blankCell false) t.cols.toNat
      { t with fb := fun r c => if 0 ≤ r ∧ r < t.rows - 1 then t.fb (r + 1) c else t.fb r c }
    exact ⟨fb, hfb⟩

theorem scrolledOff_count (s : Con) :
    s.scrolledOff.histCount = if s.histCount < 512 then s.histCount + 1 else s.histCount := rfl

theorem scrolledOff_offset (s : Con) : s.scrolledOff.viewOffset =
    if s.viewOffset ≠ 0 ∧ s.viewOffset < s.scrolledOff.histCount then s.viewOffset + 1 else s.viewOffset := rfl

theorem scrolledOff_length (s : Con) : s.scrolledOff.scrolled.length = s.scrolled.length + 1 := List.length_append

theorem scrolledOff_old {j : ℕ} (h : j < s.scrolled.length) (h' : j < s.scrolledOff.scrolled.length) :
    s.scrolledOff.scrolled[j] = s.scrolled[j] := List.getElem_append_left h

theorem scrolledOff_last {j : ℕ} (h : j = s.scrolled.length) (h' : j < s.scrolledOff.scrolled.length) :
    s.scrolledOff.scrolled[j] = s.cells 0 := List.getElem_concat_length h _

theorem History.scrolledOff (hs : History s) : History s.scrolledOff := by
  have hcount := hs.count
  have hhead := hs.head
  obtain ⟨hoff, hoff'⟩ := hs.offset
  have hlen := scrolledOff_length s
  refine ⟨hs.size, hs.ready, hs.idle, ?_, ?_, ?_, ?_⟩
  · rw [scrolledOff_count, hlen]
    split_ifs
    · omega
    · omega
  · change (s.histHead + 1).tmod 512 = _
    rw [hlen, Int.tmod_eq_emod_of_nonneg (by omega)]
    omega
  · intro j hj hlast c hc hc'
    change (if (j : ℤ) % 512 = s.histHead ∧ 0 ≤ c ∧ c < s.cols then s.cells 0 c else s.hist ((j : ℤ) % 512) c) = _
    by_cases hnew : j = s.scrolled.length
    · rw [scrolledOff_last hnew hj, if_pos ⟨by omega, hc, hc'⟩]
    · rw [scrolledOff_old (by omega) hj, if_neg (by omega)]
      exact hs.kept j (by omega) (by omega) c hc hc'
  · rw [scrolledOff_offset, scrolledOff_count]
    split_ifs
    all_goals omega

theorem History.scrollUpOne (hs : History s) : History s.scrollUpOne := (scrollUpOne_shown s).history hs.scrolledOff

/-- The rows keep their numbers. -/
theorem scrolledOff_rowAt (s : Con) {g : ℤ} (hg : 0 ≤ g) (hg' : g < s.scrolled.length + s.rows - 1) {c : ℤ} (hc : 0 ≤ c)
    (hc' : c < s.cols) : s.scrolledOff.rowAt g c = s.rowAt g c := by
  have hlen := scrolledOff_length s
  have hcells : ∀ r, 0 ≤ r → r < s.rows - 1 → s.scrolledOff.cells r c = s.cells (r + 1) c := by
    intro r hr hr'
    change (if 0 ≤ c ∧ c < s.cols then if 0 ≤ r ∧ r < s.rows - 1 then s.cells (r + 1) c else _ else _) = _
    rw [if_pos ⟨hc, hc'⟩, if_pos ⟨hr, hr'⟩]
  unfold Con.rowAt
  by_cases hold : g < s.scrolled.length
  · rw [dif_pos (by omega), dif_pos ⟨hg, hold⟩]
    rw [scrolledOff_old (by omega)]
  · rw [dif_neg (c := 0 ≤ g ∧ g < s.scrolled.length) (by omega)]
    by_cases hnew : g = s.scrolled.length
    · rw [dif_pos (by omega), scrolledOff_last (by omega), hnew, Int.sub_self]
    · rw [dif_neg (by omega), hcells _ (by omega) (by omega)]
      refine congrArg (fun r => s.cells r c) ?_
      omega

/-- A row that scrolls off leaves a view that was moved back in place. -/
theorem History.stays (hs : History s) (hoff : 0 < s.viewOffset) (hoff' : s.viewOffset < 512)
    {r c : ℕ} (hr : r < s.rows)
    (hc : c < s.cols) : s.scrollUpOne.redrawView.fb r c = s.redrawView.fb r c := by
  have hcount := hs.count
  have hle := hs.offset.2
  have hoffset := scrolledOff_offset s
  rw [scrolledOff_count, if_pos ⟨by omega, by split_ifs <;> omega⟩] at hoffset
  have hlen := scrolledOff_length s
  have hrow := scrolledOff_rowAt s (g := s.scrolled.length - s.viewOffset + r) (by omega) (by omega)
    (c := c) (by omega) hc
  have hnew := hs.scrollUpOne
  obtain ⟨fb, hfb⟩ := scrollUpOne_shown s
  rw [hfb] at hnew ⊢
  rw [hs.redrawView_fb hr hc, hnew.redrawView_fb hr hc, ← hrow]
  change Tile.cell (s.scrolledOff.rowAt (s.scrolledOff.scrolled.length - s.scrolledOff.viewOffset + r) c) false = _
  refine congrArg (fun g => Tile.cell (s.scrolledOff.rowAt g c) false) ?_
  rw [hlen, hoffset]
  omega

theorem int32_of_range {x : ℤ} (hlo : -2 ^ 31 ≤ x) (hhi : x < 2 ^ 31) : int32 x = x := by
  unfold int32
  omega

theorem History.moveUp (hs : History s) (hrows : 0 < rows) (hfits : s.viewOffset + rows < 2 ^ 31) :
    History (s.moveUp rows) := by
  obtain ⟨fb, hfb⟩ := Shown.drawCursor s false
  obtain ⟨hoff, hoff'⟩ := hs.offset
  unfold Con.moveUp
  rw [hfb]
  dsimp only
  rw [int32_of_range (by omega) hfits]
  split_ifs
  · exact (Shown.history ⟨fb, rfl⟩ hs).moveView ⟨hoff.trans hoff', le_refl _⟩
  · exact (Shown.history ⟨fb, rfl⟩ hs).moveView ⟨by omega, show s.viewOffset + rows ≤ s.histCount by omega⟩

theorem History.moveDown (hs : History s) (hrows : 0 < rows) (hint : rows < 2 ^ 31) : History (s.moveDown rows) := by
  obtain ⟨fb, hfb⟩ := Shown.drawCursor s false
  obtain ⟨hoff, hoff'⟩ := hs.offset
  have hcount := hs.count
  unfold Con.moveDown
  rw [hfb]
  dsimp only
  rw [int32_of_range (by omega) (by omega)]
  split_ifs
  · exact (Shown.history ⟨fb, rfl⟩ hs).moveView ⟨le_refl _, hoff.trans hoff'⟩
  · exact (Shown.history ⟨fb, rfl⟩ hs).moveView ⟨by omega, show s.viewOffset - rows ≤ s.histCount by omega⟩

theorem History.drawCursor (hs : History s) (invert : Bool) : History (s.drawCursor invert) :=
  (Shown.drawCursor s invert).history hs

/-- A step that calls `redraw_view` does so with the offset inside the history. -/
theorem History.redraws {op : ScreenOp} (hs : History s) (htyped : op.Typed) (hfits : op.Fits s) (ht : op.Redraws s t) :
    History t := by
  have hcount := hs.offset.1.trans hs.offset.2
  cases op with
  | scrollUp rows =>
    obtain ⟨hrows, rfl⟩ := ht
    exact hs.moveUp hrows hfits
  | scrollDown rows =>
    obtain ⟨hrows, rfl⟩ := ht
    exact hs.moveDown hrows htyped
  | scrollReset =>
    obtain ⟨-, rfl⟩ := ht
    exact hs.moveView ⟨le_refl _, hcount⟩
  | _ => exact ht.elim

theorem History.step {op : ScreenOp} (hs : History s) (htyped : op.Typed) (hfits : op.Fits s) : History (op.run s) := by
  have hcount := hs.offset.1.trans hs.offset.2
  cases op with
  | scrollUpOne => exact hs.scrollUpOne
  | write row col cell =>
    exact (Shown.drawCell { s with
      cells := fun r c => if r = row ∧ c = col then cell else s.cells r c } row col cell false).history
      ⟨hs.size, hs.ready, hs.idle, hs.count, hs.head, hs.kept, hs.offset⟩
  | drawCursor invert => exact hs.drawCursor invert
  | moveCursor row col pending => exact ⟨hs.size, hs.ready, hs.idle, hs.count, hs.head, hs.kept, hs.offset⟩
  | setColor fg bg => exact ⟨hs.size, hs.ready, hs.idle, hs.count, hs.head, hs.kept, hs.offset⟩
  | clear =>
    obtain ⟨fb, hfb⟩ := Shown.drawCursor s false
    change History s.fbClear
    unfold Con.fbClear
    rw [hfb]
    refine History.drawCursor ?_ true
    exact ⟨hs.size, hs.ready, hs.idle, hs.count, hs.head, hs.kept, le_refl _, hcount⟩
  | scrollUp rows =>
    change History (s.fbScrollUp rows)
    unfold Con.fbScrollUp
    split
    · exact hs
    · exact (hs.moveUp (by omega) hfits).redrawView
  | scrollDown rows =>
    change History (s.fbScrollDown rows)
    unfold Con.fbScrollDown
    split
    · exact hs
    · dsimp only
      split
      · exact (hs.moveDown (by omega) htyped).redrawView.drawCursor true
      · exact (hs.moveDown (by omega) htyped).redrawView
  | scrollReset =>
    change History s.fbScrollReset
    unfold Con.fbScrollReset
    split
    · exact hs
    · exact (hs.moveView ⟨le_refl _, hcount⟩).redrawView.drawCursor true

theorem history_init {cols rows : ℤ} (hcols : 1 ≤ cols) (hrows : 1 ≤ rows) : History (fbconInit cols rows) :=
  ⟨⟨hcols, hrows⟩, rfl, rfl, rfl, rfl, fun _ h => absurd h (Nat.not_lt_zero _), le_refl _,
  le_refl _⟩

theorem Run.history (hs : Run (fun s op => op.Fits s) s) : History s := by
  induction hs with
  | init hcols hrows => exact history_init hcols hrows
  | step _ _ htyped hfits ih => exact ih.step htyped hfits

theorem History.fits (hs : History s) (hrows : rows ≤ 2 ^ 30) : (ScreenOp.scrollUp rows).Fits s := by
  have hoff := hs.offset.2
  have hcount := hs.count
  change s.viewOffset + rows < 2 ^ 31
  omega

/-- In every run whose offsets stay in the `int` range, the view shows the lines. -/
theorem scrollback_of_fits (hs : Run (fun s op => op.Fits s) s) : Scrollback (fun s op => op.Fits s) s := by
  have hhist := hs.history
  have hcount := hhist.count
  exact ⟨hhist.offset.1, hhist.offset.2, by omega, fun op htyped hfits t ht => (hhist.redraws htyped
    hfits ht).paints, fun hoff hoff' r c hr hc => hhist.stays hoff hoff' hr hc⟩

theorem moveUp_offset (s : Con) (rows : ℤ) : (s.moveUp rows).histCount = s.histCount ∧ (s.moveUp rows).viewOffset =
    if s.histCount < int32 (s.viewOffset + rows) then s.histCount else int32 (s.viewOffset + rows) := by
  obtain ⟨fb, hfb⟩ := Shown.drawCursor s false
  unfold Con.moveUp
  rw [hfb]
  dsimp only
  split_ifs
  · exact ⟨rfl, rfl⟩
  · exact ⟨rfl, rfl⟩

theorem redrawView_offset (s : Con) : s.redrawView.histCount = s.histCount ∧
    s.redrawView.viewOffset = s.viewOffset := by
  obtain ⟨fb, hfb⟩ := Shown.forTo (fun vr s =>
    .forTo (fun c s => .drawCell s vr c (s.viewCell vr c) false) s.cols.toNat s)
    s.rows.toNat { s with redrawing := true }
  unfold Con.redrawView
  dsimp only
  rw [hfb]
  exact ⟨rfl, rfl⟩

def oneOff : Con := (fbconInit 80 25).scrollUpOne

theorem oneOff_run (ok : Con → ScreenOp → Prop) (hok : ok (fbconInit 80 25) .scrollUpOne) : Run ok oneOff :=
  .step .scrollUpOne (.init (by decide) (by decide)) trivial hok

theorem scrolledBack_run : Run (fun s op => op.Fits s) (oneOff.fbScrollUp 1) ∧
    Scrollback (fun s op => op.Fits s) (oneOff.fbScrollUp 1) := by
  have hone : Run (fun s op => op.Fits s) oneOff := oneOff_run _ trivial
  have hrun : Run (fun s op => op.Fits s) (oneOff.fbScrollUp 1) :=
    .step (.scrollUp 1) hone (show (1 : ℤ) < 2 ^ 31 by omega) (hone.history.fits (by omega))
  exact ⟨hrun, scrollback_of_fits hrun⟩

/-- The arguments of a call keep the offset in the `int` range. -/
def Call.Fits (s : Con) : Call → Prop
  | .scrollUp rows => rows < 2 ^ 31 ∧ s.viewOffset + rows < 2 ^ 31
  | .scrollDown rows => rows < 2 ^ 31
  | _ => True

/-- The states of the runs whose offsets stay in the `int` range. -/
abbrev FittingRun (s : Con) : Prop := Run (fun s op => op.Fits s) s

namespace FittingRun

theorem newline (hs : FittingRun s) : FittingRun s.newline := by
  have hcol : FittingRun { s with curCol := 0 } := .step (.moveCursor s.curRow 0 s.wrapPending) hs trivial trivial
  unfold Con.newline
  dsimp only
  split
  · exact .step .scrollUpOne hcol trivial trivial
  · exact .step (.moveCursor (s.curRow + 1) 0 s.wrapPending) hs trivial trivial

theorem write (hs : FittingRun s) (row col : ℤ) (cell : Cell) : FittingRun (s.write row col cell) :=
  .step (.write row col cell) hs trivial trivial

theorem drawCursor (hs : FittingRun s) (invert : Bool) : FittingRun (s.drawCursor invert) :=
  .step (.drawCursor invert) hs trivial trivial

theorem moveCursor (hs : FittingRun s) (row col : ℤ) (pending : Bool) :
    FittingRun { s with curRow := row, curCol := col, wrapPending := pending } :=
  .step (.moveCursor row col pending) hs trivial trivial

theorem putGlyph (hs : FittingRun s) (c : UInt8) : FittingRun (s.putGlyph c) := by
  have hwrapped : FittingRun (if s.wrapPending then { s.newline with wrapPending := false } else s) := by
    split
    · exact hs.newline.moveCursor s.newline.curRow s.newline.curCol false
    · exact hs
  unfold Con.putGlyph
  generalize (if s.wrapPending then { s.newline with wrapPending := false } else s) = t at hwrapped ⊢
  have hwritten := write hwrapped t.curRow t.curCol ⟨c, t.fg, t.bg⟩
  dsimp only
  generalize t.write t.curRow t.curCol ⟨c, t.fg, t.bg⟩ = u at hwritten ⊢
  split
  · exact moveCursor hwritten u.curRow (u.cols - 1) true
  · exact moveCursor hwritten u.curRow (u.curCol + 1) u.wrapPending

theorem backspace (hs : FittingRun s) : FittingRun s.backspace := by
  unfold Con.backspace
  dsimp only
  refine write ?_ _ _ _
  split_ifs
  · exact hs.moveCursor s.curRow (s.curCol - 1) false
  · exact hs.moveCursor (s.curRow - 1) (s.cols - 1) false
  · exact hs.moveCursor s.curRow s.curCol false

theorem tabLoop {next : ℤ} {n : ℕ} {r : Option Unit} (hs : FittingRun s)
    (hrun : (Con.tabLoop next n).run s = some (r, s')) :
    FittingRun s' := by
  induction n generalizing s with
  | zero => cases hrun
  | succ n ih =>
    change (Looping.loop (Con.tabTurn next) (n + 1) ()).run s = _ at hrun
    rw [Looping.loop, Looping.bind_run, tabTurn_run] at hrun
    split_ifs at hrun
    · exact ih (hs.putGlyph 32) hrun
    · cases hrun
      exact hs

theorem putchar {n : ℕ} {c : UInt8} (hs : FittingRun s) (hrun : (Con.fbPutchar n c).run s = some (some (), s')) :
    FittingRun s' := by
  have hdrawn := hs.drawCursor false
  by_cases h9 : c = 9
  · subst h9
    rw [fbPutchar_tab, Looping.bind_run] at hrun
    rcases hloop : (Con.tabLoop s.tabStop n).run (s.drawCursor false) with _ | ⟨_ | u, t⟩
    all_goals
      rw [hloop] at hrun
      cases hrun
    exact drawCursor (hdrawn.tabLoop hloop) true
  · by_cases h10 : c = 10
    · subst h10
      cases hrun
      exact drawCursor (newline (hdrawn.moveCursor _ _ false)) true
    · by_cases h13 : c = 13
      · subst h13
        cases hrun
        exact drawCursor (hdrawn.moveCursor _ 0 false) true
      · by_cases h8 : c = 8
        · subst h8
          cases hrun
          exact drawCursor hdrawn.backspace true
        · unfold Con.fbPutchar at hrun
          rw [if_neg h10, if_neg h13, if_neg h8, if_neg h9] at hrun
          cases hrun
          exact drawCursor (hdrawn.putGlyph c) true

/-- Every call is a sequence of steps. -/
theorem call {k : Call} (hs : FittingRun s) (hreturns : k.Returns s s') (hfits : k.Fits s) : FittingRun s' := by
  cases k with
  | putchar c =>
    obtain ⟨n, hrun⟩ := hreturns
    exact hs.putchar hrun
  | putcharAtCursor c =>
    obtain rfl : s' = s.fbPutcharAtCursor c := hreturns
    unfold Con.fbPutcharAtCursor
    split
    · exact hs
    · exact drawCursor (write (hs.drawCursor false) _ _ _) true
  | setCursor row col =>
    obtain rfl : s' = s.fbSetCursor row col := hreturns
    exact drawCursor (moveCursor (hs.drawCursor false) _ _ false) true
  | setColor fg bg =>
    obtain rfl : s' = s.fbSetColor fg bg := hreturns
    exact .step (.setColor fg bg) hs trivial trivial
  | clear =>
    obtain rfl : s' = s.fbClear := hreturns
    exact .step .clear hs trivial trivial
  | scrollUp rows =>
    obtain rfl : s' = s.fbScrollUp rows := hreturns
    exact .step (.scrollUp rows) hs hfits.1 hfits.2
  | scrollDown rows =>
    obtain rfl : s' = s.fbScrollDown rows := hreturns
    exact .step (.scrollDown rows) hs hfits trivial
  | scrollReset =>
    obtain rfl : s' = s.fbScrollReset := hreturns
    exact .step .scrollReset hs trivial trivial

end FittingRun

/-- The states that calls lead to when their arguments keep the offset in the `int` range. -/
inductive Called : Con → Prop
  | init {cols rows : ℤ} (hcols : 1 ≤ cols) (hrows : 1 ≤ rows) : Called (fbconInit cols rows)
  | call {s s' : Con} {k : Call} : Called s → k.Returns s s' → k.Fits s → Called s'

theorem Called.fittingRun (hs : Called s) : FittingRun s := by
  induction hs with
  | init hcols hrows => exact .init hcols hrows
  | call _ hreturns hfits ih => exact ih.call hreturns hfits

theorem Called.reachable (hs : Called s) : Reachable s := by
  induction hs with
  | init hcols hrows => exact .init hcols hrows
  | call _ hreturns _ ih => exact .call ih hreturns

/-- Whatever calls are made: the view is inside the history, `redraw_view` paints the lines at the
offset, a row that scrolls off leaves the view where it is, and the cursor is on the screen. -/
theorem calls_show (hs : Called s) : 0 ≤ s.viewOffset ∧ s.viewOffset ≤ s.histCount ∧
    s.histCount ≤ 512 ∧ Paints s ∧ Inside s ∧
      (0 < s.viewOffset → s.viewOffset < 512 → ∀ r c : ℕ, r < s.rows → c < s.cols →
      s.scrollUpOne.redrawView.fb r c = s.redrawView.fb r c) := by
  have hhist := hs.fittingRun.history
  have hcount := hhist.count
  exact ⟨hhist.offset.1, hhist.offset.2, by omega, hhist.paints, hs.reachable.inside, fun hoff hoff' r c hr hc =>
    hhist.stays hoff hoff' hr hc⟩

def Con.lineFeed (s : Con) : Con := { s.drawCursor false with wrapPending := false }.newline.drawCursor true

theorem lineFeed_returns (s : Con) : (Call.putchar 10).Returns s s.lineFeed := ⟨0, rfl⟩

theorem lineFeed_offset (hlast : s.rows ≤ s.curRow + 1) (hoff : s.viewOffset = 0) (hcount : s.histCount < 512) :
    s.lineFeed.histCount = s.histCount + 1 ∧ s.lineFeed.viewOffset = 0 := by
  obtain ⟨fb, hfb⟩ := Shown.drawCursor s false
  obtain ⟨fb', hfb'⟩ := Shown.drawCursor { s.drawCursor false with wrapPending := false }.newline true
  unfold Con.lineFeed
  rw [hfb', hfb]
  unfold Con.newline
  dsimp only
  rw [if_pos hlast]
  obtain ⟨fb'', hfb''⟩ := scrollUpOne_shown { s with fb := fb, wrapPending := false, curCol := 0 }
  rw [hfb'']
  dsimp only
  rw [scrolledOff_offset, scrolledOff_count]
  dsimp only
  rw [if_pos hcount, hoff]
  exact ⟨rfl, if_neg fun h => h.1 rfl⟩

/-- A line feed in the last row, and a look at the row that it pushed off. -/
def lookedBack : Con := ((fbconInit 80 25).fbSetCursor 24 0).lineFeed.fbScrollUp 1

theorem lookedBack_offset : lookedBack.viewOffset = 1 := by
  obtain ⟨hcount, hoff⟩ := lineFeed_offset (s := (fbconInit 80 25).fbSetCursor 24 0) (by decide) rfl (by decide)
  unfold lookedBack Con.fbScrollUp
  rw [if_neg (by omega), (redrawView_offset _).2, (moveUp_offset _ _).2, hcount, hoff]
  decide

theorem calls_show_scrolled : Called lookedBack ∧ lookedBack.viewOffset ≤ lookedBack.histCount ∧
    Paints lookedBack ∧ ∀ r c : ℕ, r < lookedBack.rows → c < lookedBack.cols →
      lookedBack.scrollUpOne.redrawView.fb r c = lookedBack.redrawView.fb r c := by
  have hset : Called ((fbconInit 80 25).fbSetCursor 24 0) :=
    .call (k := .setCursor 24 0) (.init (by decide) (by decide)) rfl trivial
  have hfeed : Called ((fbconInit 80 25).fbSetCursor 24 0).lineFeed := .call hset (lineFeed_returns _) trivial
  have hcalled : Called lookedBack :=
    .call (k := .scrollUp 1) hfeed rfl ⟨show (1 : ℤ) < 2 ^ 31 by omega, hfeed.fittingRun.history.fits (by omega)⟩
  obtain ⟨-, hcount, -, hpaints, -, hstays⟩ := calls_show hcalled
  rw [lookedBack_offset] at hstays
  exact ⟨hcalled, hcount, hpaints, hstays (by decide) (by decide)⟩

end ComputerOS.Fbcon
