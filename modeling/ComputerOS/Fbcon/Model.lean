import ComputerOS.Lib.Looping
import Mathlib.Order.Lattice
import Mathlib.Algebra.Ring.Nat
import Mathlib.Algebra.Ring.Int.Defs

/-!
The framebuffer console: a cursor with deferred wrapping over an array of cells, a ring of the rows
that scrolled off the top, and a view that can be moved back over them. The pixels are modelled by
the tile that was last drawn at each place.
-/
namespace ComputerOS.Fbcon

structure Cell where
  ch : UInt8
  fg : UInt8
  bg : UInt8
  deriving DecidableEq

/-- What a place of the screen shows: a cell, inverted under the cursor, or one colour. -/
inductive Tile
  | cell (c : Cell) (invert : Bool)
  | solid (color : UInt8)
  deriving DecidableEq

def HIST_ROWS : ℤ := 512

/-- `int` arithmetic as the processor does it. -/
def int32 (x : ℤ) : ℤ := (x + 2 ^ 31) % 2 ^ 32 - 2 ^ 31

structure Con where
  cols : ℤ
  rows : ℤ
  curRow : ℤ := 0
  curCol : ℤ := 0
  wrapPending : Bool := false
  fg : UInt8 := 7
  bg : UInt8 := 0
  ready : Bool := true
  cells : ℤ → ℤ → Cell
  hist : ℤ → ℤ → Cell
  histHead : ℤ := 0
  histCount : ℤ := 0
  viewOffset : ℤ := 0
  redrawing : Bool := false
  fb : ℤ → ℤ → Tile
  /-- Not in the source: the rows that scrolled off the top, the oldest one first. -/
  scrolled : List (ℤ → Cell) := []

namespace Con

def blankCell (s : Con) : Cell := ⟨32, s.fg, s.bg⟩

def histPush (s : Con) (row : ℤ → Cell) : Con :=
  { s with
    hist := fun i c => if i = s.histHead ∧ 0 ≤ c ∧ c < s.cols then row c else s.hist i c
    histHead := (s.histHead + 1).tmod HIST_ROWS
    histCount := if s.histCount < HIST_ROWS then s.histCount + 1 else s.histCount
    scrolled := s.scrolled ++ [row] }

def drawCell (s : Con) (row col : ℤ) (cell : Cell) (invert : Bool) : Con :=
  if ¬ s.ready then s
  else if row < 0 ∨ s.rows ≤ row ∨ col < 0 ∨ s.cols ≤ col then s
  else if s.viewOffset ≠ 0 ∧ ¬ s.redrawing then s
  else { s with fb := fun r c => if r = row ∧ c = col then .cell cell invert else s.fb r c }

def drawCursor (s : Con) (invert : Bool) : Con :=
  if ¬ s.ready then s else s.drawCell s.curRow s.curCol (s.cells s.curRow s.curCol) invert

/-- `for (int i = 0; i < n; i++)` -/
def forTo (body : ℤ → Con → Con) : ℕ → Con → Con
  | 0, s => s
  | n + 1, s => body n (forTo body n s)

/-- The rows move up by one, and a blank row comes in at the bottom. -/
def shiftCells (s : Con) : Con :=
  { s with cells := fun r c =>
      if 0 ≤ c ∧ c < s.cols then
        if 0 ≤ r ∧ r < s.rows - 1 then s.cells (r + 1) c
        else if r = s.rows - 1 then s.blankCell
        else s.cells r c
      else s.cells r c }

def scrollUpOne (s : Con) : Con :=
  let s := (s.histPush (s.cells 0)).shiftCells
  if s.viewOffset ≠ 0 then
    if s.viewOffset < s.histCount then { s with viewOffset := s.viewOffset + 1 } else s
  else
    let s := { s with fb := fun r c => if 0 ≤ r ∧ r < s.rows - 1 then s.fb (r + 1) c else s.fb r c }
    forTo (fun c s => s.drawCell (s.rows - 1) c s.blankCell false) s.cols.toNat s

/-- The cell that `redraw_view` finds for row `vr` of the screen. -/
def viewCell (s : Con) (vr c : ℤ) : Cell :=
  let logical := s.histCount - s.viewOffset + vr
  if logical < 0 then s.blankCell
  else if logical < s.histCount then
    let idx := (s.histHead - s.histCount + logical).tmod HIST_ROWS
    let idx := if idx < 0 then idx + HIST_ROWS else idx
    s.hist idx c
  else
    let sr := logical - s.histCount
    if 0 ≤ sr ∧ sr < s.rows then s.cells sr c else s.blankCell

def redrawView (s : Con) : Con :=
  let s := { s with redrawing := true }
  let s := forTo (fun vr s => forTo (fun c s => s.drawCell vr c (s.viewCell vr c) false) s.cols.toNat s) s.rows.toNat s
  { s with redrawing := false }

def newline (s : Con) : Con :=
  let s := { s with curCol := 0 }
  if s.rows ≤ s.curRow + 1 then s.scrollUpOne else { s with curRow := s.curRow + 1 }

def fbClear (s : Con) : Con :=
  let s := s.drawCursor false
  let s := { s with
    cells := fun r c => if 0 ≤ r ∧ r < s.rows ∧ 0 ≤ c ∧ c < s.cols then s.blankCell else s.cells r c }
  let s := { s with fb := fun _ _ => .solid (s.bg &&& 0x0F) }
  let s := { s with curRow := 0, curCol := 0, viewOffset := 0 }
  s.drawCursor true

def fbSetColor (s : Con) (fg bg : UInt8) : Con := { s with fg := fg &&& 0x0F, bg := bg &&& 0x0F }

def write (s : Con) (row col : ℤ) (cell : Cell) : Con :=
  { s with cells := fun r c => if r = row ∧ c = col then cell else s.cells r c }.drawCell row col
  cell false

def putGlyph (s : Con) (c : UInt8) : Con :=
  let s := if s.wrapPending then { s.newline with wrapPending := false } else s
  let s := s.write s.curRow s.curCol ⟨c, s.fg, s.bg⟩
  let s := { s with curCol := s.curCol + 1 }
  if s.cols ≤ s.curCol then { s with curCol := s.cols - 1, wrapPending := true } else s

def backspace (s : Con) : Con :=
  let s := { s with wrapPending := false }
  let s :=
    if 0 < s.curCol then { s with curCol := s.curCol - 1 }
    else if 0 < s.curRow then { s with curRow := s.curRow - 1, curCol := s.cols - 1 }
    else s
  s.write s.curRow s.curCol s.blankCell

/-- `if (!(g_cur_col < next && g_cur_col < g_cols)) break; put_glyph(' ')` -/
def tabTurn (next : ℤ) (_ : Unit) : Looping Con (Unit ⊕ Unit) := do
  let s ← Looping.get
  if s.curCol < next ∧ s.curCol < s.cols then do
    Looping.modify fun s => s.putGlyph 32
    pure (.inl ())
  else pure (.inr ())

def tabLoop (next : ℤ) (n : ℕ) : Looping Con Unit := Looping.loop (tabTurn next) n ()

def fbPutchar (n : ℕ) (c : UInt8) : Looping Con Unit := do
  Looping.modify fun s => s.drawCursor false
  if c = 10 then Looping.modify fun s => { s with wrapPending := false }.newline
  else if c = 13 then Looping.modify fun s => { s with wrapPending := false, curCol := 0 }
  else if c = 8 then Looping.modify backspace
  else if c = 9 then do
    let s ← Looping.get
    tabLoop ((s.curCol + 8) / 8 * 8) n
  else Looping.modify fun s => s.putGlyph c
  Looping.modify fun s => s.drawCursor true

def fbSetCursor (s : Con) (row col : ℤ) : Con :=
  let s := s.drawCursor false
  let row := if row < 0 then 0 else row
  let row := if s.rows ≤ row then s.rows - 1 else row
  let col := if col < 0 then 0 else col
  let col := if s.cols ≤ col then s.cols - 1 else col
  { s with curRow := row, curCol := col, wrapPending := false }.drawCursor true

def fbPutcharAtCursor (s : Con) (c : UInt8) : Con :=
  if c < 0x20 ∨ 0x7E < c then s
  else
    let s := s.drawCursor false
    (s.write s.curRow s.curCol ⟨c, s.fg, s.bg⟩).drawCursor true

/-- `fb_scroll_up` up to its call of `redraw_view`. -/
def moveUp (s : Con) (rows : ℤ) : Con :=
  let s := s.drawCursor false
  let s := { s with viewOffset := int32 (s.viewOffset + rows) }
  if s.histCount < s.viewOffset then { s with viewOffset := s.histCount } else s

def fbScrollUp (s : Con) (rows : ℤ) : Con := if rows ≤ 0 then s else (s.moveUp rows).redrawView

/-- `fb_scroll_down` up to its call of `redraw_view`. -/
def moveDown (s : Con) (rows : ℤ) : Con :=
  let s := s.drawCursor false
  let s := { s with viewOffset := int32 (s.viewOffset - rows) }
  if s.viewOffset < 0 then { s with viewOffset := 0 } else s

def fbScrollDown (s : Con) (rows : ℤ) : Con :=
  if rows ≤ 0 then s
  else
    let s := (s.moveDown rows).redrawView
    if s.viewOffset = 0 then s.drawCursor true else s

def fbScrollReset (s : Con) : Con :=
  if s.viewOffset = 0 then s else { s with viewOffset := 0 }.redrawView.drawCursor true

end Con

/-- The console after `fbcon_init`, with `cols` columns and `rows` rows; the cells of the arrays
were blank or zero. -/
def fbconInit (cols rows : ℤ) : Con where
  cols := cols
  rows := rows
  cells r c := if 0 ≤ r ∧ r < rows ∧ 0 ≤ c ∧ c < cols then ⟨32, 7, 0⟩ else ⟨0, 0, 0⟩
  hist _ _ := ⟨0, 0, 0⟩
  fb r c := if r = 0 ∧ c = 0 then .cell ⟨32, 7, 0⟩ true else .solid 0

/-- The functions of the console backend, with their arguments. -/
inductive Call
  | putchar (c : UInt8)
  | putcharAtCursor (c : UInt8)
  | setCursor (row col : ℤ)
  | setColor (fg bg : UInt8)
  | clear
  | scrollUp (rows : ℤ)
  | scrollDown (rows : ℤ)
  | scrollReset

def Call.Returns (s s' : Con) : Call → Prop
  | .putchar c => ∃ n, (Con.fbPutchar n c).run s = some (some (), s')
  | .putcharAtCursor c => s' = s.fbPutcharAtCursor c
  | .setCursor row col => s' = s.fbSetCursor row col
  | .setColor fg bg => s' = s.fbSetColor fg bg
  | .clear => s' = s.fbClear
  | .scrollUp rows => s' = s.fbScrollUp rows
  | .scrollDown rows => s' = s.fbScrollDown rows
  | .scrollReset => s' = s.fbScrollReset

/-- The states reached by calls, on a console with at least one row and one column. -/
inductive Reachable : Con → Prop
  | init {cols rows : ℤ} (hcols : 1 ≤ cols) (hrows : 1 ≤ rows) : Reachable (fbconInit cols rows)
  | call {s s' : Con} {k : Call} : Reachable s → k.Returns s s' → Reachable s'

end ComputerOS.Fbcon
