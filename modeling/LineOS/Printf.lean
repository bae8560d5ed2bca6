import LineOS.CString

/- `do_printf` of `lib/stdio/doprintf.c`, with the format, the arguments and the
   strings they point to in memory. `fn` gets its first argument from `put`; its
   calls are kept in order, and it leaves alone the memory that `do_printf` reads.
   A `char` is signed, so a character of the format is sign-extended on its way to
   `fn` and one of a string, an `unsigned char`, is not. `int` and `long` have 32
   bits, and `-num` wraps.

   `where` is the text before the NUL it leads to: the digits collected in `buf`, a
   `char`, or a string in memory. A digit that would be written before the start of
   `buf` makes `convert` fail. Every loop has a bound on its rounds and gives
   `none` beyond it. -/
namespace LineOS
open ByteMemory ByteMemory.Mem

def chr (c : Char) : U8 := BitVec.ofNat 8 c.toNat

/-- A character as `fn` gets it. -/
def code (c : Char) : U32 := BitVec.ofNat 32 c.toNat

def PR_LJ : U32 := 0x01
def PR_CA : U32 := 0x02
def PR_SG : U32 := 0x04
def PR_32 : U32 := 0x08
def PR_16 : U32 := 0x10
def PR_WS : U32 := 0x20
def PR_LZ : U32 := 0x40
def PR_FP : U32 := 0x80

def PR_BUFLEN : Nat := 16

/-- The variables of `do_printf`, and the calls of `fn` so far. -/
structure Printf where
  fmt : U32
  args : U32
  state : Nat
  flags : U32
  givenWd : U32
  count : U32
  out : List U32

namespace Printf

/-- `fn(c, &ptr)` and `count++` -/
def put (c : U32) (s : Printf) : Printf := { s with out := s.out ++ [c], count := s.count + 1 }

/-- `state = flags = given_wd = 0` -/
def reset (s : Printf) : Printf := { s with state := 0, flags := 0, givenWd := 0 }

/-- `flags & f` is not 0. -/
def has (s : Printf) (f : U32) : Prop := s.flags &&& f ≠ 0

instance (s : Printf) (f : U32) : Decidable (s.has f) := inferInstanceAs (Decidable (_ ≠ _))

/-- `flags |= f` -/
def set (f : U32) (s : Printf) : Printf := { s with flags := s.flags ||| f }

/-- `fmt++` -/
def advance (s : Printf) : Printf := { s with fmt := s.fmt + 1 }

/-- `given_wd = g` -/
def setWd (g : U32) (s : Printf) : Printf := { s with givenWd := g }

/-- `va_arg` moves on by one stack item. -/
def nextArg (s : Printf) : Printf := { s with args := s.args + 4 }

end Printf

/-- `while(given_wd > actual_wd)`: one `c` and `given_wd--`. -/
def padLoop (c actualWd : U32) : Nat → Printf → Option Printf
  | 0, _ => none
  | n + 1, s =>
    if s.givenWd > actualWd then padLoop c actualWd n ((s.put c).setWd (s.givenWd - 1)) else some s

/-- From `EMIT2` on, after the padding on the left. -/
def emitText (fuel : Nat) (text : List U8) (actualWd : U32) (s : Printf) : Option Printf :=
  let s := if s.flags &&& (PR_WS ||| PR_LZ) = PR_WS then s.put (code '-') else s
  let s := text.foldl (fun s c => s.put (c.setWidth 32)) s
  let s := s.setWd (if s.givenWd < actualWd then 0 else s.givenWd - actualWd)
  padLoop (code ' ') 0 fuel s

/-- From `EMIT2` on. -/
def emit2 (fuel : Nat) (text : List U8) (actualWd : U32) (s : Printf) : Option Printf :=
  if s.flags &&& PR_LJ = 0 then
    (padLoop (if s.has PR_LZ then code '0' else code ' ') actualWd fuel s).bind (emitText fuel text actualWd)
  else emitText fuel text actualWd s

/-- From `EMIT` on. -/
def emit (fuel : Nat) (text : List U8) (s : Printf) : Option Printf :=
  let strlen := BitVec.ofNat 32 text.length
  let actualWd := if s.has PR_WS then strlen + 1 else strlen
  let s := if s.flags &&& (PR_WS ||| PR_LZ) = PR_WS ||| PR_LZ then s.put (code '-') else s
  emit2 fuel text actualWd s

def digitChar (flags temp : U32) : U8 :=
  if temp < 10 then (temp + code '0').setWidth 8
  else if flags &&& PR_CA ≠ 0 then (temp - 10 + code 'A').setWidth 8
  else (temp - 10 + code 'a').setWidth 8

/-- The conversion loop, with `room` bytes of `buf` before `where`. -/
def convert (flags radix : U32) : (room : Nat) → (num : U32) → (text : List U8) → Option (List U8)
  | 0, _, _ => none
  | room + 1, num, text =>
    let text := digitChar flags (num % radix) :: text
    if num / radix ≠ 0 then convert flags radix room (num / radix) text else some text

/-- The value that `DO_NUM` loads. -/
def loadNum (m : Mem) (s : Printf) : U32 :=
  let word := m.load32 s.args
  if s.has PR_32 then word
  else if s.has PR_16 then
    if s.has PR_SG then (word.setWidth 16).signExtend 32 else (word.setWidth 16).setWidth 32
  else word

/-- From `DO_NUM` on. -/
def doNum (m : Mem) (fuel : Nat) (radix : U32) (s : Printf) : Option Printf :=
  let num := loadNum m s
  let s := s.nextArg
  let neg := s.has PR_SG ∧ num.msb = true
  let s' := if neg then s.set PR_WS else s
  let num := if neg then -num else num
  (convert s'.flags radix (PR_BUFLEN - 1) num []).bind fun text => emit fuel text s'

/-- The `switch` of state 4. -/
def conversion (m : Mem) (fuel : Nat) (s : Printf) : Option Printf :=
  let c := m.byte s.fmt
  if c = chr 'X' then doNum m fuel 16 (s.set PR_CA)
  else if c = chr 'x' ∨ c = chr 'p' ∨ c = chr 'n' then doNum m fuel 16 s
  else if c = chr 'd' ∨ c = chr 'i' then doNum m fuel 10 (s.set PR_SG)
  else if c = chr 'u' then doNum m fuel 10 s
  else if c = chr 'o' then doNum m fuel 8 s
  else if c = chr 'c' then
    let s := { s with flags := s.flags &&& ~~~PR_LZ }
    let arg := m.byte s.args
    emit2 fuel (if arg = 0 then [] else [arg]) 1 s.nextArg
  else if c = chr 's' then
    let s := { s with flags := s.flags &&& ~~~PR_LZ }
    (m.upToNul fuel (m.load32 s.args)).bind fun text => emit fuel text s.nextArg
  else some s

/-- State 4: awaiting the conversion. It runs on into the `default` that resets. -/
def state4 (m : Mem) (fuel : Nat) (s : Printf) : Option Printf := (conversion m fuel s).map Printf.reset

def state3 (m : Mem) (fuel : Nat) (s : Printf) : Option Printf :=
  let c := m.byte s.fmt
  if c = chr 'F' then some (s.set PR_FP)
  else if c = chr 'N' then some s
  else if c = chr 'l' then some (s.set PR_32)
  else if c = chr 'h' then some (s.set PR_16)
  else state4 m fuel { s with state := 4 }

/-- State 2: awaiting the field width. As a `char` no byte from 0x80 on is between `'0'` and `'9'`. -/
def state2 (m : Mem) (fuel : Nat) (s : Printf) : Option Printf :=
  let c := m.byte s.fmt
  if chr '0' ≤ c ∧ c ≤ chr '9' then
    some (s.setWd (10 * s.givenWd + (c - chr '0').setWidth 32))
  else state3 m fuel { s with state := 3 }

def state1 (m : Mem) (fuel : Nat) (s : Printf) : Option Printf :=
  let c := m.byte s.fmt
  if c = chr '%' then some (s.put (c.signExtend 32)).reset
  else if c = chr '-' then
    if s.has PR_LJ then some s.reset else some (s.set PR_LJ)
  else
    let s := { s with state := 2 }
    state2 m fuel (if c = chr '0' then (s.set PR_LZ).advance else s)

/-- State 0: awaiting `%`. -/
def state0 (m : Mem) (fuel : Nat) (s : Printf) : Option Printf :=
  let c := m.byte s.fmt
  if c ≠ chr '%' then some (s.put (c.signExtend 32))
  else state1 m fuel { s.advance with state := 1 }

/-- The outer `switch`. -/
def switchState (m : Mem) (fuel : Nat) (s : Printf) : Option Printf :=
  match s.state with
  | 0 => state0 m fuel s
  | 1 => state1 m fuel s
  | 2 => state2 m fuel s
  | 3 => state3 m fuel s
  | 4 => state4 m fuel s
  | _ => some s.reset

/-- `for(; *fmt; fmt++)` -/
def formatLoop (m : Mem) (fuel : Nat) : Nat → Printf → Option Printf
  | 0, _ => none
  | n + 1, s =>
    if m.byte s.fmt = 0 then some s
    else (switchState m fuel s).bind fun s => formatLoop m fuel n s.advance

/-- `do_printf`: the variables at its end. It returns `count`. -/
def doPrintf (m : Mem) (fmt args : U32) (fuel : Nat) : Option Printf :=
  formatLoop m fuel fuel { fmt, args, state := 0, flags := 0, givenWd := 0, count := 0, out := [] }

end LineOS
