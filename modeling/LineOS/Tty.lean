import LineOS.ByteMemory
import LineOS.TextPage

/- `lib/tty/tty.c`, the text console. The screen is an array of 16-bit cells,
   character below and colour above, at the address given to `tty_setup`:
   `ttyScr i` is `tty_scr[i]`, and `accesses` are the indices read or written
   since then. An `int` is an `Int`: C leaves an overflow undefined, and the
   largest number the functions compute from the size is that of the cells of the
   screen. `/` and `%` round towards zero. A `char` is signed. -/
namespace LineOS
open ByteMemory

structure Tty where
  ttyW : Int
  ttyH : Int
  ttyColor : U32
  ttyX : Int
  ttyY : Int
  ttyScr : Int → BitVec 16
  accesses : List Int
  /-- what went to the ports of the video card, newest first -/
  outports : List (BitVec 16 × U8)

namespace Tty

def store (i : Int) (v : BitVec 16) (s : Tty) : Tty :=
  { s with ttyScr := fun j => if j = i then v else s.ttyScr j, accesses := i :: s.accesses }

def copy (i j : Int) (s : Tty) : Tty :=
  { s.store i (s.ttyScr j) with accesses := i :: j :: s.accesses }

def outportb (port : BitVec 16) (v : U8) (s : Tty) : Tty := { s with outports := (port, v) :: s.outports }

end Tty

/-- `c | (tty_color<<8)`, as an `unsigned short` -/
def ttyCell (c : U8) (color : U32) : BitVec 16 := (c.signExtend 32 ||| color <<< 8).setWidth 16

def turns (body : Int → Tty → Tty) : Nat → Int → Tty → Tty
  | 0, _, s => s
  | n + 1, t, s => turns body n (t + 1) (body t s)

/-- `for(t=lo; t < hi; t++) body`, for a body that leaves `hi` as it is. -/
def forTo (lo hi : Int) (body : Int → Tty → Tty) (s : Tty) : Tty := turns body (hi - lo).toNat lo s

def ttySetcursor (x y _w _h : Int) (s : Tty) : Tty :=
  let position : BitVec 16 := BitVec.ofInt 16 (x * 80 + y)
  (((s.outportb 0x3D4 0x0F).outportb 0x3D5 ((position &&& 0xFF).setWidth 8)).outportb 0x3D4 0x0E).outportb
    0x3D5 (((position >>> 8) &&& 0xFF).setWidth 8)

def ttyCls (s : Tty) : Tty :=
  let s := forTo 0 (s.ttyW * s.ttyH) (fun t s => s.store t (ttyCell 0x20 s.ttyColor)) s
  ttySetcursor 0 0 s.ttyW s.ttyH { s with ttyX := 0, ttyY := 0 }

/-- `tty_scrollup`: the second loop goes on where the first ended. -/
def ttyScrollup (s : Tty) : Tty :=
  let e := s.ttyW * (s.ttyH - 1)
  let s := forTo 0 e (fun t s => s.copy t (t + s.ttyW)) s
  forTo (max 0 e) (s.ttyW * s.ttyH) (fun t s => s.store t (ttyCell 0x20 s.ttyColor)) s

def putcSwitch (c : U8) (s : Tty) : Tty :=
  if c = 0x0D then { s with ttyX := 0 }
  else if c = 0x0A then { s with ttyX := 0, ttyY := s.ttyY + 1 }
  else if c = 8 then
    let t := s.ttyX + s.ttyY * s.ttyW
    let t := if 0 < t then t - 1 else t
    let s := { s with ttyX := t.tmod s.ttyW, ttyY := t.tdiv s.ttyW }
    s.store t (ttyCell 0x20 s.ttyColor)
  else if c.toInt < 0x20 then s
  else
    let s := s.store (s.ttyX + s.ttyY * s.ttyW) (ttyCell c s.ttyColor)
    let s := { s with ttyX := s.ttyX + 1 }
    if s.ttyX = s.ttyW then { s with ttyX := 0, ttyY := s.ttyY + 1 } else s

/-- The end of `tty_putc`: scroll when the cursor has left the screen. -/
def putcScroll (s : Tty) : Tty :=
  if s.ttyY = s.ttyH then
    let s := ttyScrollup s
    { s with ttyY := s.ttyY - 1 }
  else s

def ttyPutc (c : U8) (s : Tty) : Tty :=
  let s := putcScroll (putcSwitch c s)
  ttySetcursor s.ttyX s.ttyY s.ttyW s.ttyH s

def ttyGotoxy (x y : Int) (s : Tty) : Tty :=
  let s := { s with ttyX := x.tmod s.ttyW, ttyY := y.tmod s.ttyH }
  ttySetcursor s.ttyX s.ttyY s.ttyW s.ttyH s

def ttySetcolor (color : U8) (s : Tty) : Tty := { s with ttyColor := color.setWidth 32 }

/-- `tty_write`: the bytes from `str` on, up to the first NUL. -/
def ttyWrite : List U8 → Tty → Tty
  | [], s => s
  | c :: str, s => if c ≠ 0 then ttyWrite str (ttyPutc c s) else s

/-- `tty_setup`: no cell of the new screen has been touched yet. -/
def ttySetup (w h : Int) (screen : Int → BitVec 16) (s : Tty) : Tty :=
  ttyCls { s with ttyW := w, ttyH := h, ttyX := 0, ttyY := 0, ttyScr := screen, accesses := [] }

end LineOS
