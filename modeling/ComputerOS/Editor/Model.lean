import ComputerOS.Lib.Memory
import Mathlib.Logic.Function.Basic

/-!
The gap buffer of the text editor: one array of bytes with a gap in it, where the gap starts at the
cursor. The row and the column of the cursor are computed from the text when they are needed.
-/
namespace ComputerOS.Editor

def u32 (n : ℕ) : ℕ := n % 2 ^ 32

def sub32 (a b : ℕ) : ℕ := u32 (a + 2 ^ 32 - b)

/-- `int` arithmetic as the processor does it. -/
def int32 (x : ℤ) : ℤ := (x + 2 ^ 31) % 2 ^ 32 - 2 ^ 31

def INITIAL_CAP : ℕ := 64 * 1024

/-- `'\n'` -/
def nl : UInt8 := 10

structure GapBuffer where
  buf : Mem
  cap : ℕ
  gapStart : ℕ
  gapEnd : ℕ
  modified : Bool := false
  curRow : ℤ := 0
  curCol : ℤ := 0

/-- `for (i = 0; i < n; i++) d[i] = s[i]` -/
def moveForward (buf : Mem) (d s : ℕ) : ℕ → Mem
  | 0 => buf
  | n + 1 =>
      let buf := moveForward buf d s n
      Function.update buf (d + n) (buf (s + n))

/-- `for (i = n; i > 0; i--) d[i - 1] = s[i - 1]` -/
def moveBackward (buf : Mem) (d s : ℕ) : ℕ → Mem
  | 0 => buf
  | n + 1 => moveBackward (Function.update buf (d + n) (buf (s + n))) d s n

def memMove (buf : Mem) (d s n : ℕ) : Mem :=
  if d = s ∨ n = 0 then buf else if d < s then moveForward buf d s n else moveBackward buf d s n

namespace GapBuffer

variable (s : GapBuffer)

def textLen : ℕ := u32 (s.gapStart + sub32 s.cap s.gapEnd)

def textAt (i : ℕ) : UInt8 := if i < s.gapStart then s.buf i else s.buf (u32 (sub32 i s.gapStart + s.gapEnd))

/-- `grow`; `alloc` is the new block with what was in it, if `kmalloc` gives one. -/
def grow (alloc : Option Mem) : ℤ × GapBuffer :=
  let newCap := u32 (s.cap * 2)
  match alloc with
  | none => (-1, s)
  | some nb =>
      let left := s.gapStart
      let right := sub32 s.cap s.gapEnd
      let nb := nb.blit 0 s.buf 0 left
      let nb := nb.blit (sub32 newCap right) s.buf s.gapEnd right
      (0, { s with buf := nb, gapEnd := sub32 newCap right, cap := newCap })

def moveGap (pos : ℕ) : GapBuffer :=
  if pos < s.gapStart then
    let n := sub32 s.gapStart pos
    { s with
      buf := memMove s.buf (sub32 s.gapEnd n) pos n
      gapStart := sub32 s.gapStart n
      gapEnd := sub32 s.gapEnd n }
  else if s.gapStart < pos then
    let n := sub32 pos s.gapStart
    { s with
      buf := memMove s.buf s.gapStart s.gapEnd n
      gapStart := u32 (s.gapStart + n)
      gapEnd := u32 (s.gapEnd + n) }
  else s

/-- `buf[gap_start++] = c; modified = 1` -/
def putChar (c : UInt8) : GapBuffer :=
  { s with buf := Function.update s.buf s.gapStart c, gapStart := u32 (s.gapStart + 1), modified := true }

def insertChar (alloc : Option Mem) (c : UInt8) : ℤ × GapBuffer :=
  if s.gapStart = s.gapEnd then
    let (r, s) := s.grow alloc
    if r < 0 then (-1, s) else (0, s.putChar c)
  else (0, s.putChar c)

def deleteBack : GapBuffer :=
  if s.gapStart = 0 then s else { s with gapStart := s.gapStart - 1, modified := true }

def deleteForward : GapBuffer :=
  if s.gapEnd = s.cap then s else { s with gapEnd := u32 (s.gapEnd + 1), modified := true }

def posOfLineLoop (target : ℤ) : ℕ → ℕ → ℤ → ℕ
  | 0, i, _ => i
  | k + 1, i, line =>
      if line = target then i else posOfLineLoop target k (i + 1) (if s.textAt i = nl then int32 (line + 1) else line)

def posOfLine (target : ℤ) : ℕ := s.posOfLineLoop target s.textLen 0 0

def lineLengthLoop : ℕ → ℕ → ℤ → ℤ
  | 0, _, len => len
  | k + 1, i, len => if s.textAt i = nl then len else lineLengthLoop k (i + 1) (int32 (len + 1))

def lineLengthFrom (start : ℕ) : ℤ := s.lineLengthLoop (s.textLen - start) start 0

/-- Row and column after the first `i` bytes of the buffer. -/
def cursorLoop : ℕ → ℤ × ℤ
  | 0 => (0, 0)
  | i + 1 => if s.buf i = nl then (int32 ((cursorLoop i).1 + 1), 0) else ((cursorLoop i).1, int32 ((cursorLoop i).2 + 1))

def recomputeCursor : GapBuffer :=
  { s with curRow := (s.cursorLoop s.gapStart).1, curCol := (s.cursorLoop s.gapStart).2 }

def lineCountLoop : ℕ → ℤ
  | 0 => 1
  | i + 1 => if s.textAt i = nl then int32 (lineCountLoop i + 1) else lineCountLoop i

def lineCount : ℤ := s.lineCountLoop s.textLen

def actionLeft : GapBuffer := if s.gapStart = 0 then s else s.moveGap (s.gapStart - 1)

def actionRight : GapBuffer := if s.gapEnd = s.cap then s else s.moveGap (u32 (s.gapStart + 1))

/-- `while (p > 0 && text_at(p - 1) != '\n') p--` -/
def homeLoop : ℕ → ℕ
  | 0 => 0
  | p + 1 => if s.textAt p ≠ nl then homeLoop p else p + 1

def actionHome : GapBuffer := s.moveGap (s.homeLoop s.gapStart)

/-- `while (p < n && text_at(p) != '\n') p++` with `k` positions left. -/
def endLoop : ℕ → ℕ → ℕ
  | 0, p => p
  | k + 1, p => if s.textAt p ≠ nl then endLoop k (p + 1) else p

def actionEnd : GapBuffer := s.moveGap (s.endLoop (s.textLen - s.gapStart) s.gapStart)

/-- The gap moves to the cursor's column in the line that starts at `start`, or to the end of that
line. -/
def moveToColumn (start : ℕ) : GapBuffer :=
  let len := s.lineLengthFrom start
  let targetCol := if s.curCol < len then s.curCol else len
  s.moveGap ((start + targetCol) % 2 ^ 32).toNat

def actionUp : GapBuffer := if s.curRow = 0 then s else s.moveToColumn (s.posOfLine (int32 (s.curRow - 1)))

def actionDown : GapBuffer :=
  let total := s.lineCount
  if int32 (total - 1) ≤ s.curRow then s else s.moveToColumn (s.posOfLine (int32 (s.curRow + 1)))

end GapBuffer

/-- The buffer that `editor_run` makes, in a block that held `buf`. -/
def editorOpen (buf : Mem) : GapBuffer where
  buf := buf
  cap := INITIAL_CAP
  gapStart := 0
  gapEnd := INITIAL_CAP

end ComputerOS.Editor
