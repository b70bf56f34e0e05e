import Mathlib.Logic.Function.Basic
import Mathlib.Data.List.GetD
import Mathlib.Algebra.Order.Ring.Int

/-!
The text terminal (`vga.c`): the screen memory, the cursor, and the ring of the lines that
were scrolled off.

`sb_top`, `sb_off` and the line that `sb_redraw` reads are `int` and wrap around; the other
counters stay far below. The cells of the screen are numbered row by row, as the memory is.
-/

namespace AtmKoala.Terminal

def vgaWidth : Nat := 80
def vgaHeight : Nat := 25
def scrollbackLines : Nat := 500

/-- Arithmetic of `int`. -/
def wrap32 (n : Int) : Int := n.bmod (2 ^ 32)

/-- `normal_fg` and `normal_bg` of the color schemes. -/
def schemes : List (Nat × Nat) :=
  [(7, 0), (2, 0), (11, 1), (7, 8), (14, 0), (7, 0), (3, 8), (14, 0)]

def mkcolor (fg bg : Nat) : Nat := fg % 16 + bg % 16 * 16

def mkentry (c col : Nat) : Nat := c + col * 256

/-- The entries of a line. -/
abbrev Row : Type := List Nat

structure Terminal where
  vga : Nat → Nat
  scrollbuf : Int → Row
  sbTop : Int
  sbCount : Nat
  sbOff : Int
  termRow : Nat
  termCol : Nat
  termColor : Nat
  curScheme : Nat
  /-- The position in the registers of the hardware cursor. -/
  crtcPos : Nat
  crtcHidden : Bool

namespace Terminal

/-- A blank in the normal colors of the scheme. -/
def blank (t : Terminal) : Nat :=
  let scheme := schemes.getD t.curScheme (0, 0)
  mkentry 32 (mkcolor scheme.1 scheme.2)

/-- The entries of row `r`. -/
def line (t : Terminal) (r : Nat) : Row := (List.range vgaWidth).map fun c => t.vga (r * vgaWidth + c)

/-- The rows of the screen. -/
def screen (t : Terminal) : List Row := (List.range vgaHeight).map t.line

/-! ### Hardware cursor -/

def hwCursor (t : Terminal) (r c : Nat) : Terminal := { t with crtcPos := r * vgaWidth + c }

def hwCursorHide (t : Terminal) : Terminal := { t with crtcHidden := true }

/-! ### Scrollback -/

def sbCommit (t : Terminal) (row : Nat) : Terminal :=
  let slot := t.sbTop.tmod scrollbackLines
  { t with
    scrollbuf := Function.update t.scrollbuf slot (t.line row)
    sbTop := wrap32 (t.sbTop + 1)
    sbCount := if t.sbCount < scrollbackLines then t.sbCount + 1 else t.sbCount }

/-- What `sb_redraw` puts into row `r`. -/
def redrawLine (t : Terminal) (r : Nat) : Row :=
  let src := wrap32 (t.sbTop - vgaHeight - t.sbOff + r)
  if src < t.sbTop - t.sbCount ∨ src < 0 then List.replicate vgaWidth t.blank
  else t.scrollbuf ((src.tmod scrollbackLines + scrollbackLines).tmod scrollbackLines)

def sbRedraw (t : Terminal) : Terminal :=
  let drawn := { t with vga := fun i =>
    if i < vgaHeight * vgaWidth then (t.redrawLine (i / vgaWidth)).getD (i % vgaWidth) 0 else t.vga i }
  if t.sbOff = 0 then drawn.hwCursor t.termRow t.termCol else drawn.hwCursorHide

def scrollUpOne (t : Terminal) : Terminal :=
  let t := t.sbCommit 0
  { t with
    vga := fun i =>
      if i < (vgaHeight - 1) * vgaWidth then t.vga (i + vgaWidth)
      else if i < vgaHeight * vgaWidth then t.blank else t.vga i
    termRow := vgaHeight - 1 }

/-! ### Init and clear -/

def terminalClear (t : Terminal) : Terminal :=
  { t with
    vga := fun i => if i < vgaWidth * vgaHeight then t.blank else t.vga i
    termRow := 0
    termCol := 0
    sbOff := 0 }.hwCursor 0 0

def terminalInit (t : Terminal) : Terminal :=
  let color := mkcolor 7 0
  { t with
    termColor := color
    sbTop := 0
    sbCount := 0
    sbOff := 0
    scrollbuf := fun i =>
      if 0 ≤ i ∧ i < scrollbackLines then List.replicate vgaWidth (mkentry 32 color)
      else t.scrollbuf i }.terminalClear

/-! ### Scrolling -/

/-- The most lines that can be scrolled back. -/
def most (t : Terminal) : Int := if vgaHeight < t.sbCount then t.sbCount - vgaHeight else 0

def terminalScrollUp (t : Terminal) (n : Nat) : Terminal :=
  let off := wrap32 (t.sbOff + n)
  { t with sbOff := if off > t.most then t.most else off }.sbRedraw

def terminalScrollDown (t : Terminal) (n : Nat) : Terminal :=
  let off := wrap32 (t.sbOff - n)
  { t with sbOff := if off < 0 then 0 else off }.sbRedraw

def terminalScrollToBottom (t : Terminal) : Terminal :=
  if t.sbOff ≠ 0 then { t with sbOff := 0 }.sbRedraw else t

/-! ### Output -/

/-- A character at the cursor, which moves on. -/
def put (t : Terminal) (c : Nat) : Terminal :=
  { t with
    vga := Function.update t.vga (t.termRow * vgaWidth + t.termCol) (mkentry c t.termColor)
    termCol := t.termCol + 1 }

def puts (t : Terminal) (c : Nat) : Nat → Terminal
  | 0 => t
  | n + 1 => (t.put c).puts c n

/-- To the start of the next line, at a line break or behind the last column. -/
def nextLine (t : Terminal) : Terminal :=
  let t := { t with termCol := 0, termRow := t.termRow + 1 }
  if vgaHeight ≤ t.termRow then t.scrollUpOne else t

/-- The `switch` of `terminal_putchar`. -/
def act (t : Terminal) (c : UInt8) : Terminal :=
  if c = 10 then t.nextLine
  else if c = 13 then { t with termCol := 0 }
  else if c = 8 then { t with termCol := t.termCol - 1 }
  else if c = 9 then
    let nx := (t.termCol + 8) / 8 * 8
    let nx := if vgaWidth ≤ nx then vgaWidth - 1 else nx
    t.puts 32 (nx - t.termCol)
  else if c < 0x20 then t
  else
    let t := t.put c.toNat
    if vgaWidth ≤ t.termCol then t.nextLine else t

def terminalPutchar (t : Terminal) (c : UInt8) : Terminal :=
  let t := if 0 < t.sbOff then { t with sbOff := 0 }.sbRedraw else t
  let t := t.act c
  if t.sbOff = 0 then t.hwCursor t.termRow t.termCol else t

/-- `terminal_write`, up to the NUL. -/
def terminalWrite (t : Terminal) (s : List UInt8) : Terminal :=
  (s.takeWhile (· ≠ 0)).foldl terminalPutchar t

end Terminal

end AtmKoala.Terminal
