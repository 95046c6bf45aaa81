import ComputerOS.Fbcon.Model

/-!
The cursor of the framebuffer console. It stays on the screen, and `fb_putchar` returns unless it is
given a tab in one of the last columns: there the cursor never passes the tab stop, and the loop
that waits for it does not end.
-/
namespace ComputerOS.Fbcon

open Looping

/-- Only tiles differ. -/
def Shown (s s' : Con) : Prop := ∃ fb, s' = { s with fb := fb }

namespace Shown

variable {s s' s'' : Con}

theorem refl (s : Con) : Shown s s := ⟨s.fb, rfl⟩

theorem trans (h : Shown s s') (h' : Shown s' s'') : Shown s s'' := by
  obtain ⟨fb, rfl⟩ := h
  obtain ⟨fb', rfl⟩ := h'
  exact ⟨fb', rfl⟩

theorem drawCell (s : Con) (row col : ℤ) (cell : Cell) (invert : Bool) : Shown s (s.drawCell row col cell invert) := by
  unfold Con.drawCell
  split_ifs
  · exact refl s
  · exact refl s
  · exact ⟨_, rfl⟩
  · exact refl s

theorem drawCursor (s : Con) (invert : Bool) : Shown s (s.drawCursor invert) := by
  unfold Con.drawCursor
  split
  · exact refl s
  · exact drawCell ..

theorem forTo {body : ℤ → Con → Con} (h : ∀ i s, Shown s (body i s)) (n : ℕ) (s : Con) :
    Shown s (Con.forTo body n s) := by
  induction n with
  | zero => exact refl s
  | succ n ih => exact ih.trans (h n _)

end Shown

/-- The cursor is on the screen. -/
structure Inside (s : Con) : Prop where
  row_nonneg : 0 ≤ s.curRow
  row_lt : s.curRow < s.rows
  col_nonneg : 0 ≤ s.curCol
  col_lt : s.curCol < s.cols

structure SameCursor (s s' : Con) : Prop where
  cols : s'.cols = s.cols
  rows : s'.rows = s.rows
  curRow : s'.curRow = s.curRow
  curCol : s'.curCol = s.curCol
  wrapPending : s'.wrapPending = s.wrapPending

variable {s s' s'' : Con} {c : UInt8} {next : ℤ}

namespace SameCursor

theorem inside (h : SameCursor s s') (hs : Inside s) : Inside s' := by
  obtain ⟨hcols, hrows, hrow, hcol, -⟩ := h
  obtain ⟨h1, h2, h3, h4⟩ := hs
  rw [← hrow] at h1 h2
  rw [← hcol] at h3 h4
  rw [← hrows] at h2
  rw [← hcols] at h4
  exact ⟨h1, h2, h3, h4⟩

theorem of_shown (h : Shown s s') : SameCursor s s' := by
  obtain ⟨fb, rfl⟩ := h
  exact ⟨rfl, rfl, rfl, rfl, rfl⟩

theorem drawCursor (s : Con) (invert : Bool) : SameCursor s (s.drawCursor invert) := of_shown (.drawCursor s invert)

theorem write (s : Con) (row col : ℤ) (cell : Cell) : SameCursor s (s.write row col cell) := by
  have h := of_shown (.drawCell { s with
    cells := fun r c => if r = row ∧ c = col then cell else s.cells r c } row col cell false)
  exact ⟨h.cols, h.rows, h.curRow, h.curCol, h.wrapPending⟩

theorem scrollUpOne (s : Con) : SameCursor s s.scrollUpOne := by
  unfold Con.scrollUpOne
  dsimp only
  split_ifs
  · exact ⟨rfl, rfl, rfl, rfl, rfl⟩
  · exact ⟨rfl, rfl, rfl, rfl, rfl⟩
  · have h := of_shown <| Shown.forTo (fun c s => .drawCell s (s.rows - 1) c s.blankCell false) s.cols.toNat
      { (s.histPush (s.cells 0)).shiftCells with
        fb := fun r c => if 0 ≤ r ∧ r < s.rows - 1 then s.fb (r + 1) c else s.fb r c }
    exact ⟨h.cols, h.rows, h.curRow, h.curCol, h.wrapPending⟩

theorem redrawView (s : Con) : SameCursor s s.redrawView := by
  unfold Con.redrawView
  dsimp only
  have h := of_shown <| Shown.forTo (fun vr s =>
    .forTo (fun c s => .drawCell s vr c (s.viewCell vr c) false) s.cols.toNat s)
    s.rows.toNat { s with redrawing := true }
  exact ⟨h.cols, h.rows, h.curRow, h.curCol, h.wrapPending⟩

end SameCursor

theorem newline_cols (s : Con) : s.newline.cols = s.cols := by
  unfold Con.newline
  dsimp only
  split_ifs
  · exact (SameCursor.scrollUpOne _).cols
  · rfl

theorem newline_curCol (s : Con) : s.newline.curCol = 0 := by
  unfold Con.newline
  dsimp only
  split_ifs
  · exact (SameCursor.scrollUpOne _).curCol
  · rfl

theorem Inside.newline (hs : Inside s) : Inside s.newline := by
  obtain ⟨h1, h2, h3, h4⟩ := hs
  unfold Con.newline
  dsimp only
  split_ifs with hlast
  · exact (SameCursor.scrollUpOne _).inside ⟨h1, h2, le_refl _, by dsimp only; omega⟩
  · exact ⟨by dsimp only; omega, by dsimp only; omega, le_refl _, by dsimp only; omega⟩

/-- `put_glyph` writes at the cursor, after the wrap that was deferred, and moves it on. -/
theorem putGlyph_spec (hs : Inside s) (c : UInt8) :
    Inside (s.putGlyph c) ∧ (s.putGlyph c).cols = s.cols ∧
      if (if s.wrapPending then 0 else s.curCol) + 1 < s.cols then
        (s.putGlyph c).curCol = (if s.wrapPending then 0 else s.curCol) + 1 ∧ (s.putGlyph c).wrapPending = false
      else (s.putGlyph c).wrapPending = true := by
  obtain ⟨t, ht⟩ : ∃ t, (if s.wrapPending then { s.newline with wrapPending := false } else s) = t := ⟨_, rfl⟩
  have hin : Inside t ∧ t.cols = s.cols ∧ t.curCol = (if s.wrapPending then 0 else s.curCol) ∧
    t.wrapPending = false := by
    rw [← ht]
    split_ifs with hpending
    · obtain ⟨h1, h2, h3, h4⟩ := hs.newline
      exact ⟨⟨h1, h2, h3, h4⟩, newline_cols s, newline_curCol s, rfl⟩
    · exact ⟨hs, rfl, rfl, Bool.not_eq_true _ ▸ hpending⟩
  obtain ⟨hin, hcols, hcol, hpending⟩ := hin
  have hsame := SameCursor.write t t.curRow t.curCol ⟨c, t.fg, t.bg⟩
  obtain ⟨u, hu⟩ : ∃ u, t.write t.curRow t.curCol ⟨c, t.fg, t.bg⟩ = u := ⟨_, rfl⟩
  have hrun : s.putGlyph c = if u.cols ≤ u.curCol + 1 then { u with curCol := u.cols - 1, wrapPending := true }
      else { u with curCol := u.curCol + 1 } := by
    rw [← hu, ← ht]
    rfl
  rw [hu] at hsame
  obtain ⟨h1, h2, h3, h4⟩ := hsame.inside hin
  rw [hrun, ← hcol, ← hcols, ← hsame.cols, ← hsame.curCol]
  by_cases hwrap : u.cols ≤ u.curCol + 1
  · rw [if_pos hwrap, if_neg (by omega)]
    exact ⟨⟨h1, h2, by dsimp only; omega, by dsimp only; omega⟩, rfl, rfl⟩
  · rw [if_neg hwrap, if_pos (by omega)]
    exact ⟨⟨h1, h2, by dsimp only; omega, by dsimp only; omega⟩, rfl, rfl, hsame.wrapPending.trans hpending⟩

theorem Inside.backspace (hs : Inside s) : Inside s.backspace := by
  obtain ⟨h1, h2, h3, h4⟩ := hs
  unfold Con.backspace
  dsimp only
  refine (SameCursor.write _ _ _ _).inside ?_
  split_ifs
  · exact ⟨h1, h2, by dsimp only; omega, by dsimp only; omega⟩
  · exact ⟨by dsimp only; omega, by dsimp only; omega, by dsimp only; omega, by dsimp only; omega⟩
  · exact ⟨h1, h2, h3, h4⟩

theorem tabTurn_run (next : ℤ) (u : Unit) (s : Con) : (Con.tabTurn next u).run s =
    if s.curCol < next ∧ s.curCol < s.cols then some (some (.inl ()), s.putGlyph 32) else some (some (.inr ()), s) := by
  unfold Con.tabTurn
  rw [Looping.bind_run]
  change (if s.curCol < next ∧ s.curCol < s.cols then _ else _ : Looping Con (Unit ⊕ Unit)).run s = _
  split_ifs
  · rfl
  · rfl

/-- One more than the glyphs that the loop still writes. -/
def tabMeasure (next : ℤ) (s : Con) : ℕ := (next - s.curCol).toNat + if s.wrapPending then s.cols.toNat + 1 else 0

/-- The turns that the loop makes when the tab stop is on the screen. -/
theorem tabLoop_ends {cols : ℤ} (hnext : next < cols) (n : ℕ) :
    Ends (fun s => (Inside s ∧ s.cols = cols) ∧ tabMeasure next s < n) (Con.tabLoop next n) fun _ s => Inside s := by
  refine Ends.loop (fun _ s => Inside s ∧ s.cols = cols) (fun _ s => tabMeasure next s) (fun _ m => ?_) n ()
  intro s hs
  obtain ⟨hm, hin, hcols⟩ := hs
  by_cases hgo : s.curCol < next ∧ s.curCol < s.cols
  · refine ⟨some (.inl ()), s.putGlyph 32, ?_, fun a ha => ?_⟩
    · rw [tabTurn_run, if_pos hgo]
    · cases ha
      obtain ⟨hin', hcols', hspec⟩ := putGlyph_spec hin 32
      refine ⟨⟨hin', hcols'.trans hcols⟩, ?_⟩
      have hcol := hin.col_nonneg
      rw [← hm]
      unfold tabMeasure
      by_cases hpending : s.wrapPending = true
      · rw [if_pos hpending] at hspec ⊢
        split_ifs at hspec with hlt
        · rw [hspec.1, hspec.2, if_neg (by decide)]
          omega
        · omega
      · rw [if_neg hpending] at hspec ⊢
        rw [if_pos (by omega)] at hspec
        rw [hspec.1, hspec.2, if_neg (by decide)]
        omega
  · refine ⟨some (.inr ()), s, ?_, fun a ha => ?_⟩
    · rw [tabTurn_run, if_neg hgo]
    · cases ha
      exact hin

/-- A tab stop behind the last column is never reached. -/
theorem tabLoop_endless (hs : Inside s) (hnext : s.cols ≤ next) (n : ℕ) : (Con.tabLoop next n).run s = none := by
  refine loop_endless (I := fun _ s => Inside s ∧ s.cols ≤ next) (fun _ s hs => ?_) n ⟨hs, hnext⟩
  obtain ⟨hin, hle⟩ := hs
  obtain ⟨hin', hcols', -⟩ := putGlyph_spec hin 32
  refine ⟨(), s.putGlyph 32, ?_, hin', by rw [hcols']; exact hle⟩
  have hcol := hin.col_lt
  rw [tabTurn_run, if_pos (by omega)]

theorem tabLoop_neverFails (next : ℤ) (n : ℕ) : NeverFails (Con.tabLoop next n) := by
  refine NeverFails.loop (fun u s s' hrun => ?_) n ()
  rw [tabTurn_run] at hrun
  split_ifs at hrun
  · cases hrun
  · cases hrun

theorem tabLoop_returns (hs : Inside s) (hnext : next < s.cols) :
    ∃ n s', (Con.tabLoop next n).run s = some (some (), s') ∧ Inside s' := by
  obtain ⟨r, s', hrun, hr⟩ := tabLoop_ends hnext (tabMeasure next s + 1) s ⟨⟨hs, rfl⟩, Nat.lt_succ_self _⟩
  cases r with
  | none => exact (tabLoop_neverFails _ _ _ _ hrun).elim
  | some a => exact ⟨_, s', hrun, hr a rfl⟩

def Con.tabStop (s : Con) : ℤ := (s.curCol + 8) / 8 * 8

/-- The tab is given in one of the last columns. -/
def StuckTab (s : Con) (c : UInt8) : Prop := c = 9 ∧ s.cols ≤ s.tabStop

theorem fbPutchar_tab (n : ℕ) (s : Con) : (Con.fbPutchar n 9).run s =
    (do Con.tabLoop s.tabStop n; Looping.modify fun s => s.drawCursor true : Looping Con Unit).run
    (s.drawCursor false) := by
  have hcol := (SameCursor.drawCursor s false).curCol
  unfold Con.tabStop
  rw [← hcol]
  rfl

/-- Every character but a tab is done with in a bounded number of steps. -/
theorem fbPutchar_of_ne_tab (hs : Inside s) (hc : c ≠ 9) :
    ∃ s', (∀ n, (Con.fbPutchar n c).run s = some (some (), s')) ∧ Inside s' := by
  have hin := (SameCursor.drawCursor s false).inside hs
  have hdone : ∀ (f : Con → Con), Inside (f (s.drawCursor false)) →
      (∀ n, (Con.fbPutchar n c).run s = (do
        Looping.modify f; Looping.modify fun s => s.drawCursor true : Looping Con Unit).run
        (s.drawCursor false)) → ∃ s', (∀ n, (Con.fbPutchar n c).run s = some (some (), s')) ∧
        Inside s' :=
    fun f hf hrun => ⟨(f (s.drawCursor false)).drawCursor true, hrun, (SameCursor.drawCursor _ true).inside hf⟩
  by_cases h10 : c = 10
  · subst h10
    refine hdone (fun s => { s with wrapPending := false }.newline) ?_ fun _ => rfl
    exact Inside.newline (s := { s.drawCursor false with wrapPending := false }) ⟨hin.1, hin.2, hin.3, hin.4⟩
  · by_cases h13 : c = 13
    · subst h13
      refine hdone (fun s => { s with wrapPending := false, curCol := 0 }) ⟨hin.1, hin.2, le_refl _, ?_⟩ fun _ => rfl
      have := hin.col_nonneg
      have := hin.col_lt
      dsimp only
      omega
    · by_cases h8 : c = 8
      · subst h8
        exact hdone Con.backspace hin.backspace fun _ => rfl
      · refine hdone (fun s => s.putGlyph c) (putGlyph_spec hin c).1 fun n => ?_
        unfold Con.fbPutchar
        rw [if_neg h10, if_neg h13, if_neg h8, if_neg hc]
        rfl

/-- `fb_putchar` returns, with the cursor on the screen, exactly when it is not given a tab in one
of the last columns. -/
theorem fbPutchar_iff (hs : Inside s) (c : UInt8) :
    (∃ s', (Call.putchar c).Returns s s' ∧ Inside s') ↔ ¬ StuckTab s c := by
  have hin := (SameCursor.drawCursor s false).inside hs
  have hcols := (SameCursor.drawCursor s false).cols
  by_cases hc : c = 9
  · subst hc
    constructor
    · rintro ⟨s', ⟨n, hrun⟩, -⟩ ⟨-, hstuck⟩
      rw [fbPutchar_tab, Looping.bind_run, tabLoop_endless hin (hcols ▸ hstuck)] at hrun
      cases hrun
    · intro hstuck
      obtain ⟨n, s', hrun, hin'⟩ := tabLoop_returns hin (show s.tabStop < _ by
        rw [hcols]
        exact not_le.1 fun h => hstuck ⟨rfl, h⟩)
      refine ⟨s'.drawCursor true, ⟨n, ?_⟩, (SameCursor.drawCursor _ true).inside hin'⟩
      rw [fbPutchar_tab, Looping.bind_run, hrun]
      rfl
  · obtain ⟨s', hrun, hin'⟩ := fbPutchar_of_ne_tab hs hc
    exact ⟨fun _ h => hc h.1, fun _ => ⟨s', ⟨0, hrun 0⟩, hin'⟩⟩

theorem Inside.write (hs : Inside s) (row col : ℤ) (cell : Cell) : Inside (s.write row col cell) :=
  (SameCursor.write s row col cell).inside hs

theorem Inside.drawCursor (hs : Inside s) (invert : Bool) : Inside (s.drawCursor invert) :=
  (SameCursor.drawCursor s invert).inside hs

theorem Inside.redrawView (hs : Inside s) : Inside s.redrawView := (SameCursor.redrawView s).inside hs

theorem Inside.moveUp (hs : Inside s) (rows : ℤ) : Inside (s.moveUp rows) := by
  obtain ⟨h1, h2, h3, h4⟩ := hs.drawCursor false
  unfold Con.moveUp
  dsimp only
  split_ifs
  · exact ⟨h1, h2, h3, h4⟩
  · exact ⟨h1, h2, h3, h4⟩

theorem Inside.moveDown (hs : Inside s) (rows : ℤ) : Inside (s.moveDown rows) := by
  obtain ⟨h1, h2, h3, h4⟩ := hs.drawCursor false
  unfold Con.moveDown
  dsimp only
  split_ifs
  · exact ⟨h1, h2, h3, h4⟩
  · exact ⟨h1, h2, h3, h4⟩

/-- However many turns the loop makes, the cursor stays on the screen. -/
theorem tabLoop_inside {n : ℕ} {r : Option Unit} (hs : Inside s) (hrun : (Con.tabLoop next n).run s = some (r, s')) :
    Inside s' := by
  induction n generalizing s with
  | zero => cases hrun
  | succ n ih =>
    change (Looping.loop (Con.tabTurn next) (n + 1) ()).run s = _ at hrun
    rw [Looping.loop, Looping.bind_run, tabTurn_run] at hrun
    split_ifs at hrun
    · exact ih (putGlyph_spec hs 32).1 hrun
    · cases hrun
      exact hs

theorem Inside.putchar {n : ℕ} (hs : Inside s) (hrun : (Con.fbPutchar n c).run s = some (some (), s')) : Inside s' := by
  by_cases hc : c = 9
  · subst hc
    rw [fbPutchar_tab, Looping.bind_run] at hrun
    rcases hloop : (Con.tabLoop s.tabStop n).run (s.drawCursor false) with _ | ⟨_ | u, t⟩
    · rw [hloop] at hrun
      cases hrun
    · rw [hloop] at hrun
      cases hrun
    · rw [hloop] at hrun
      cases hrun
      exact (tabLoop_inside (hs.drawCursor false) hloop).drawCursor true
  · obtain ⟨t, hall, hin⟩ := fbPutchar_of_ne_tab hs hc
    rw [hall n] at hrun
    cases hrun
    exact hin

theorem Inside.call {k : Call} (hs : Inside s) (h : k.Returns s s') : Inside s' := by
  have hpos : 0 < s.rows ∧ 0 < s.cols := ⟨by have := hs.1; have := hs.2; omega, by have := hs.3; have := hs.4; omega⟩
  cases k with
  | putchar c =>
    obtain ⟨n, hrun⟩ := h
    exact hs.putchar hrun
  | putcharAtCursor c =>
    obtain rfl : s' = s.fbPutcharAtCursor c := h
    unfold Con.fbPutcharAtCursor
    split
    · exact hs
    · exact ((hs.drawCursor false).write _ _ _).drawCursor true
  | setCursor row col =>
    obtain rfl : s' = s.fbSetCursor row col := h
    have hcols := (SameCursor.drawCursor s false).cols
    have hrows := (SameCursor.drawCursor s false).rows
    refine (SameCursor.drawCursor _ true).inside ⟨?_, ?_, ?_, ?_⟩
    all_goals
      dsimp only
      split_ifs
      all_goals omega
  | setColor fg bg =>
    obtain rfl : s' = s.fbSetColor fg bg := h
    exact ⟨hs.1, hs.2, hs.3, hs.4⟩
  | clear =>
    obtain rfl : s' = s.fbClear := h
    have hcols := (SameCursor.drawCursor s false).cols
    have hrows := (SameCursor.drawCursor s false).rows
    refine (SameCursor.drawCursor _ true).inside ⟨le_refl _, ?_, le_refl _, ?_⟩
    · dsimp only
      omega
    · dsimp only
      omega
  | scrollUp rows =>
    obtain rfl : s' = s.fbScrollUp rows := h
    unfold Con.fbScrollUp
    split
    · exact hs
    · exact (hs.moveUp rows).redrawView
  | scrollDown rows =>
    obtain rfl : s' = s.fbScrollDown rows := h
    unfold Con.fbScrollDown
    dsimp only
    split_ifs
    · exact hs
    · exact (hs.moveDown rows).redrawView.drawCursor true
    · exact (hs.moveDown rows).redrawView
  | scrollReset =>
    obtain rfl : s' = s.fbScrollReset := h
    unfold Con.fbScrollReset
    split_ifs
    · exact hs
    · refine Inside.drawCursor (Inside.redrawView ?_) true
      exact ⟨hs.1, hs.2, hs.3, hs.4⟩

theorem Reachable.inside (hs : Reachable s) : Inside s := by
  induction hs with
  | init hcols hrows => exact ⟨le_refl _, hrows, le_refl _, hcols⟩
  | call _ hcall ih => exact ih.call hcall

/-- In every state that is reached, `fb_putchar` returns and leaves the cursor on the screen exactly
when it is not given a tab in one of the last columns. -/
theorem putchar_returns_iff (hs : Reachable s) (c : UInt8) :
    (∃ s', (Call.putchar c).Returns s s' ∧ Inside s') ↔ ¬ StuckTab s c := fbPutchar_iff hs.inside c

theorem newConsole_putchar : Reachable (fbconInit 80 25) ∧
    ∃ s', (Call.putchar 9).Returns (fbconInit 80 25) s' ∧ Inside s' :=
  ⟨.init (by decide) (by decide),
    (putchar_returns_iff (.init (by decide) (by decide)) 9).2 fun h => absurd h.2 (by decide)⟩

/-- On 80 columns a tab in column 72 never returns. -/
theorem tab_hangs : ¬ ∀ s, Reachable s → ∀ c, ∃ s', (Call.putchar c).Returns s s' ∧ Inside s' := by
  intro hall
  have hreach : Reachable ((fbconInit 80 25).fbSetCursor 0 72) :=
    .call (k := .setCursor 0 72) (.init (by decide) (by decide)) rfl
  exact (fbPutchar_iff hreach.inside 9).1 (hall _ hreach 9) ⟨rfl, by decide⟩

end ComputerOS.Fbcon
