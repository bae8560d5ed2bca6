import LineOS.Process

/- The part of the 32-bit processor that the assembly of `cpu/irq.asm` and
   `process/switchto.asm` uses. All code runs in ring 0, so neither an interrupt
   nor `iret` moves `ss`. A segment register is pushed as a half word into a slot
   of four bytes, as processors do since the Pentium Pro: the other two bytes keep
   what memory held (the stack in `doc/ts.explain.txt` shows them).

   Code is a list of instructions. A conditional jump over one instruction is that
   instruction under a condition; `eip` is set where control leaves the list. -/
namespace LineOS
open ByteMemory

structure Cpu where
  eax : U32
  ecx : U32
  edx : U32
  ebx : U32
  esp : U32
  ebp : U32
  esi : U32
  edi : U32
  cs : U16
  ds : U16
  es : U16
  fs : U16
  gs : U16
  eflags : U32
  eip : U32

inductive Reg where
  | eax | ecx | edx | ebx | esp | ebp | esi | edi

inductive Seg where
  | cs | ds | es | fs | gs

structure Core where
  cpu : Cpu
  mem : Mem

namespace Cpu

def reg (c : Cpu) : Reg → U32
  | .eax => c.eax
  | .ecx => c.ecx
  | .edx => c.edx
  | .ebx => c.ebx
  | .esp => c.esp
  | .ebp => c.ebp
  | .esi => c.esi
  | .edi => c.edi

def setReg (c : Cpu) (r : Reg) (w : U32) : Cpu :=
  match r with
  | .eax => { c with eax := w }
  | .ecx => { c with ecx := w }
  | .edx => { c with edx := w }
  | .ebx => { c with ebx := w }
  | .esp => { c with esp := w }
  | .ebp => { c with ebp := w }
  | .esi => { c with esi := w }
  | .edi => { c with edi := w }

def seg (c : Cpu) : Seg → U16
  | .cs => c.cs
  | .ds => c.ds
  | .es => c.es
  | .fs => c.fs
  | .gs => c.gs

def setSeg (c : Cpu) (g : Seg) (h : U16) : Cpu :=
  match g with
  | .cs => { c with cs := h }
  | .ds => { c with ds := h }
  | .es => { c with es := h }
  | .fs => { c with fs := h }
  | .gs => { c with gs := h }

end Cpu

/-! `eflags`. -/

def flagBit (n : Nat) (b : Bool) : U32 := if b then 1 <<< n else 0

/-- The six arithmetic flags set, the others kept. -/
def withFlags (f : U32) (cf pf af zf sf of : Bool) : U32 :=
  (f &&& ~~~0x8D5) ||| flagBit 0 cf ||| flagBit 2 pf ||| flagBit 4 af ||| flagBit 6 zf ||| flagBit 7 sf ||| flagBit 11 of

/-- Whether the low byte has an even number of ones. -/
def evenParity (x : U32) : Bool := ((List.range 8).filter fun i => x.getLsbD i).length % 2 = 0

/-- After `a - b`. -/
def subFlags (f a b : U32) : U32 :=
  let r := a - b
  withFlags f (decide (a < b)) (evenParity r) (decide (a &&& 0xF < b &&& 0xF)) (decide (r = 0)) r.msb
    (a.msb != b.msb && r.msb != a.msb)

/-- After `a + b`. -/
def addFlags (f a b : U32) : U32 :=
  let r := a + b
  withFlags f (decide (r < a)) (evenParity r) (decide (0xF < (a &&& 0xF) + (b &&& 0xF))) (decide (r = 0)) r.msb
    (a.msb == b.msb && r.msb != a.msb)

def zeroFlag (f : U32) : Bool := f.getLsbD 6

def clearIf (f : U32) : U32 := f &&& ~~~0x200

namespace Core

def push (w : U32) (s : Core) : Core :=
  { cpu := { s.cpu with esp := s.cpu.esp - 4 }, mem := s.mem.store32 (s.cpu.esp - 4) w }

def pushHalf (h : U16) (s : Core) : Core :=
  { cpu := { s.cpu with esp := s.cpu.esp - 4 }, mem := s.mem.store16 (s.cpu.esp - 4) h }

def top (s : Core) : U32 := s.mem.load32 s.cpu.esp

def drop (s : Core) : Core := { s with cpu := { s.cpu with esp := s.cpu.esp + 4 } }

def setReg (r : Reg) (w : U32) (s : Core) : Core := { s with cpu := s.cpu.setReg r w }

def popReg (r : Reg) (s : Core) : Core := s.drop.setReg r s.top

def popSeg (g : Seg) (s : Core) : Core := { s.drop with cpu := s.drop.cpu.setSeg g (s.top.setWidth 16) }

def pushad (s : Core) : Core :=
  let t := s.cpu.esp
  let s := (((s.push s.cpu.eax).push s.cpu.ecx).push s.cpu.edx).push s.cpu.ebx
  (((s.push t).push s.cpu.ebp).push s.cpu.esi).push s.cpu.edi

/-- The saved `esp` is passed over. -/
def popad (s : Core) : Core :=
  let s := ((s.popReg .edi).popReg .esi).popReg .ebp
  ((((s.drop).popReg .ebx).popReg .edx).popReg .ecx).popReg .eax

def iret (s : Core) : Core :=
  let s := { s.drop with cpu := { s.drop.cpu with eip := s.top } }
  let s := s.popSeg .cs
  { s.drop with cpu := { s.drop.cpu with eflags := s.top } }

/-- An interrupt through a gate of `map_interrupt_gate`: selector 0x10, flags 0x8E.
TF, IF and NT are cleared. -/
def interrupt (s : Core) : Core :=
  let s := ((s.push s.cpu.eflags).pushHalf s.cpu.cs).push s.cpu.eip
  { s with cpu := { s.cpu with cs := 0x10, eflags := s.cpu.eflags &&& ~~~0x4300 } }

end Core

inductive Instr where
  | push (r : Reg)
  | pushImm (w : U32)
  | pushSeg (g : Seg)
  | pushfd
  | pushad
  | pop (r : Reg)
  | popSeg (g : Seg)
  | popad
  | iret
  | cli
  | mov (r q : Reg)
  | movImm (r : Reg) (w : U32)
  /-- `mov ax, h` -/
  | movAx (h : U16)
  /-- `mov g, ax` -/
  | movSeg (g : Seg)
  /-- `mov r, [b+d]` -/
  | load (r b : Reg) (d : U32)
  /-- `mov [b], r` -/
  | store (b r : Reg)
  /-- `mov r, [a]` -/
  | loadAbs (r : Reg) (a : U32)
  /-- `mov [a], r` -/
  | storeAbs (a : U32) (r : Reg)
  | cmp (r : Reg) (w : U32)
  | add (r : Reg) (w : U32)
  /-- A call from which the list goes on at `link`. -/
  | call (link : U32)
  /-- `jz` past the instruction -/
  | jzOver (i : Instr)

def Instr.step (s : Core) : Instr → Core
  | .push r => s.push (s.cpu.reg r)
  | .pushImm w => s.push w
  | .pushSeg g => s.pushHalf (s.cpu.seg g)
  | .pushfd => s.push s.cpu.eflags
  | .pushad => s.pushad
  | .pop r => s.popReg r
  | .popSeg g => s.popSeg g
  | .popad => s.popad
  | .iret => s.iret
  | .cli => { s with cpu := { s.cpu with eflags := clearIf s.cpu.eflags } }
  | .mov r q => s.setReg r (s.cpu.reg q)
  | .movImm r w => s.setReg r w
  | .movAx h => s.setReg .eax ((s.cpu.eax &&& 0xFFFF0000) ||| h.setWidth 32)
  | .movSeg g => { s with cpu := s.cpu.setSeg g (s.cpu.eax.setWidth 16) }
  | .load r b d => s.setReg r (s.mem.load32 (s.cpu.reg b + d))
  | .store b r => { s with mem := s.mem.store32 (s.cpu.reg b) (s.cpu.reg r) }
  | .loadAbs r a => s.setReg r (s.mem.load32 a)
  | .storeAbs a r => { s with mem := s.mem.store32 a (s.cpu.reg r) }
  | .cmp r w => { s with cpu := { s.cpu with eflags := subFlags s.cpu.eflags (s.cpu.reg r) w } }
  | .add r w =>
    { s with cpu := { s.cpu.setReg r (s.cpu.reg r + w) with eflags := addFlags s.cpu.eflags (s.cpu.reg r) w } }
  | .call link => s.push link
  | .jzOver i => if zeroFlag s.cpu.eflags then s else i.step s

def runCode (code : List Instr) (s : Core) : Core := code.foldl Instr.step s

/-! `cpu/irq.asm`. -/

/-- `_irq0` to `_irq15`: the second has no `cli`. -/
def irqCode (irq : U32) : List Instr :=
  (if irq = 1 then [] else [.cli]) ++ [.pushImm 0, .pushImm (32 + irq)]

/-- `irq_common_stub` up to the call, whose return address is `link`. -/
def irqStub (handler link : U32) : List Instr :=
  [.pushad, .pushSeg .ds, .pushSeg .es, .pushSeg .fs, .pushSeg .gs,
    .movAx 0x08, .movSeg .ds, .movSeg .es, .movSeg .fs, .movSeg .gs,
    .mov .eax .esp, .push .eax, .movImm .eax handler, .call link]

/-- `irq_common_stub` after the call. -/
def irqReturn : List Instr :=
  [.pop .eax, .popSeg .gs, .popSeg .fs, .popSeg .es, .popSeg .ds, .popad, .add .esp 8, .iret]

/-! `process/switchto.asm`. -/

/-- `_switchTo`, with `k_proclist.current` at `klist`. -/
def switchToCode (klist : U32) : List Instr :=
  [.pop .eax, .pushfd, .pushSeg .cs, .push .eax,
    .pushSeg .es, .pushSeg .ds, .pushSeg .fs, .pushSeg .gs, .pushad,
    .loadAbs .eax klist, .cmp .eax 0, .jzOver (.store .eax .esp),
    .load .eax .esp 60, .storeAbs klist .eax, .load .esp .eax 0,
    .popad, .popSeg .gs, .popSeg .fs, .popSeg .ds, .popSeg .es, .iret]

/-! What the pieces do to the registers. -/

theorem push_cpu (w : U32) (s : Core) : (s.push w).cpu = { s.cpu with esp := s.cpu.esp - 4 } := rfl

theorem pushHalf_cpu (h : U16) (s : Core) : (s.pushHalf h).cpu = { s.cpu with esp := s.cpu.esp - 4 } := rfl

theorem pushad_cpu (s : Core) : s.pushad.cpu = { s.cpu with esp := s.cpu.esp - 4 - 4 - 4 - 4 - 4 - 4 - 4 - 4 } := by
  simp only [Core.pushad, push_cpu]

theorem interrupt_cpu (s : Core) : s.interrupt.cpu =
    { s.cpu with esp := s.cpu.esp - 4 - 4 - 4, cs := 0x10, eflags := s.cpu.eflags &&& ~~~0x4300 } := by
  simp only [Core.interrupt, push_cpu, pushHalf_cpu]

theorem runCode_append (c d : List Instr) (s : Core) : runCode (c ++ d) s = runCode d (runCode c s) :=
  List.foldl_append

/-! ZF after a comparison. -/

theorem zeroFlag_withFlags (f : U32) (cf pf af zf sf of : Bool) :
    zeroFlag (withFlags f cf pf af zf sf of) = zf := by
  have hother : ∀ n ∈ [0, 2, 4, 7, 11], ∀ b, (flagBit n b).getLsbD 6 = false := by decide
  have hzero : ∀ b, (flagBit 6 b).getLsbD 6 = b := by decide
  have hmask : (f &&& ~~~0x8D5).getLsbD 6 = false := by
    rw [BitVec.getLsbD_and, show (~~~0x8D5 : U32).getLsbD 6 = false from rfl, Bool.and_false]
  unfold zeroFlag withFlags
  simp only [BitVec.getLsbD_or, hmask, hzero, hother 0 (by simp), hother 2 (by simp), hother 4 (by simp),
    hother 7 (by simp), hother 11 (by simp), Bool.false_or, Bool.or_false]

theorem zeroFlag_subFlags (f a : U32) : zeroFlag (subFlags f a 0) = decide (a = 0) := by
  rw [subFlags, zeroFlag_withFlags]
  simp

end LineOS
