import LineOS.BootMemory
import LineOS.FaultStubs
import LineOS.Gates
import LineOS.Interrupts

/- From a line of the 8259s to its handler. `Chip` is one controller as far as the
   kernel programs it: the initialisation words `init_pic` writes, and the EOI.
   `startup` is what `init_interrupts`, `init_pic` and `init_timer` leave in
   memory and in the controllers. The table is written through the kernel's
   window and found by the processor through the identity map, since `lidt` is
   given physical addresses; `low_alias` says that both show the same bytes. -/
namespace LineOS
open ByteMemory ByteMemory.Mem SlotStack

/-! The controllers. -/

/-- The word a controller expects at its second port. -/
inductive Expects where
  | icw2 | icw3 | icw4 | mask
  deriving DecidableEq

structure Chip where
  expects : Expects
  single : Bool
  needsIcw4 : Bool
  base : U8
  cascade : U8
  mode : U8
  mask : U8
  inService : U8
  deriving DecidableEq

namespace Chip

/-- The first port: a word with bit 4 starts the initialisation, 0x20 is the EOI. The
kernel gives no other command. -/
def command (v : U8) (c : Chip) : Chip :=
  if v.getLsbD 4 then
    { c with expects := .icw2, single := v.getLsbD 1, needsIcw4 := v.getLsbD 0, mask := 0,
             mode := if v.getLsbD 0 then c.mode else 0 }
  else if v = 0x20 then { c with inService := eoi c.inService }
  else c

def afterIcw3 (c : Chip) : Expects := if c.needsIcw4 then .icw4 else .mask

/-- The second port. -/
def data (v : U8) (c : Chip) : Chip :=
  match c.expects with
  | .icw2 => { c with base := v &&& 0xF8, expects := if c.single then c.afterIcw3 else .icw3 }
  | .icw3 => { c with cascade := v, expects := c.afterIcw3 }
  | .icw4 => { c with mode := v, expects := .mask }
  | .mask => { c with mask := v }

end Chip

structure Chips where
  master : Chip
  slave : Chip
  deriving DecidableEq

namespace Chips

def outportb (port : U16) (v : U8) (c : Chips) : Chips :=
  if port = 0x20 then { c with master := c.master.command v }
  else if port = 0x21 then { c with master := c.master.data v }
  else if port = 0xA0 then { c with slave := c.slave.command v }
  else if port = 0xA1 then { c with slave := c.slave.data v }
  else c

def outs (ws : List (U16 × U8)) (c : Chips) : Chips := ws.foldl (fun c w => c.outportb w.1 w.2) c

def pics (c : Chips) : Pics := ⟨c.master.inService, c.slave.inService⟩

def accept (irq : Fin 16) (c : Chips) : Chips :=
  { master := { c.master with inService := (c.pics.accept irq).master }
    slave := { c.slave with inService := (c.pics.accept irq).slave } }

def vector (irq : Fin 16) (c : Chips) : Nat :=
  if irq.val < 8 then c.master.base.toNat + irq.val else c.slave.base.toNat + (irq.val - 8)

end Chips

def initPicWrites : List (U16 × U8) :=
  [(0x20, 0x11), (0xA0, 0x11), (0x21, 0x20), (0xA1, 0x28), (0x21, 0x04), (0xA1, 0x02), (0x21, 0x01), (0xA1, 0x01),
    (0x21, 0x0), (0xA1, 0x0)]

/-- A controller after `init_pic`: nothing masked, and the EOI is the kernel's business. -/
def Chip.ready (base cascade inService : U8) : Chip :=
  { expects := .mask, single := false, needsIcw4 := true, base := base, cascade := cascade, mode := 0x01, mask := 0,
    inService := inService }

/-- The controllers while the kernel runs: nothing but interrupts and EOIs. -/
inductive Serving (c : Chips) : Chips → Prop
  | start : Serving c c
  | accept {d : Chips} (irq : Fin 16) : Serving c d → Serving c (d.accept irq)
  | eoi {d : Chips} (port : U16) : port = 0x20 ∨ port = 0xA0 → Serving c d → Serving c (d.outportb port 0x20)

section
variable {c d : Chips}

/-- **`init_pic` from any state** of the controllers, be it in the middle of an initialisation. -/
theorem initPic_ready (c : Chips) : c.outs initPicWrites =
    ⟨.ready 0x20 0x04 c.master.inService, .ready 0x28 0x02 c.slave.inService⟩ := by
  rfl

/-- The in-service registers are the `Pics` of the kernel's runs. -/
theorem outportb_pics {port : U16} (hp : port = 0x20 ∨ port = 0xA0) (c : Chips) :
    (c.outportb port 0x20).pics = c.pics.outportb port 0x20 := by
  rcases hp with rfl | rfl
  · rfl
  · rfl

theorem accept_pics (irq : Fin 16) (c : Chips) : (c.accept irq).pics = c.pics.accept irq := rfl

theorem Serving.keeps (h : Serving c d) : ∃ p : Pics,
    d = ⟨{ c.master with inService := p.master }, { c.slave with inService := p.slave }⟩ := by
  induction h with
  | start => exact ⟨c.pics, rfl⟩
  | accept irq _ ih =>
    obtain ⟨p, rfl⟩ := ih
    exact ⟨_, rfl⟩
  | eoi port hp _ ih =>
    obtain ⟨p, rfl⟩ := ih
    rcases hp with rfl | rfl
    · exact ⟨⟨LineOS.eoi p.master, p.slave⟩, rfl⟩
    · exact ⟨⟨p.master, LineOS.eoi p.slave⟩, rfl⟩

theorem Serving.vector (h : Serving c d) (irq : Fin 16) : d.vector irq = c.vector irq := by
  obtain ⟨p, rfl⟩ := h.keeps
  rfl

theorem initPic_vector (c : Chips) (irq : Fin 16) : (c.outs initPicWrites).vector irq = 32 + irq.val := by
  rw [initPic_ready, Chips.vector]
  split
  · rfl
  · show 40 + (irq.val - 8) = 32 + irq.val
    omega

end

/-! The tables. -/

/-- Where the linker put the tables and the code they refer to. -/
structure Symbols where
  idt : U32
  idtPtr : U32
  irqRoutines : U32
  isr : Nat → U32
  irq : Nat → U32
  timerHandler : U32
  press : U32

def kAddrAdjust : U32 := 0xBFF00000

structure Idtr where
  limit : U16
  base : U32

def isrGates (a : Symbols) : List GateCall :=
  (List.range 32).map fun v => ⟨BitVec.ofNat 16 v, a.isr v, 0x10, 0x8E⟩

def irqGates (a : Symbols) : List GateCall :=
  (List.range 16).map fun i => ⟨BitVec.ofNat 16 (32 + i), a.irq i, 0x10, 0x8E⟩

def initInterrupts (a : Symbols) (m : Mem) : Mem :=
  let m := m.store16 a.idtPtr (8 * 256 - 1)
  let m := m.store32 (a.idtPtr + 2) (a.idt - kAddrAdjust)
  mapGates a.idt (isrGates a) m

/-- `idt_load` -/
def idtLoad (a : Symbols) (m : Mem) : Idtr :=
  ⟨m.byte (a.idtPtr + 1) ++ m.byte a.idtPtr, m.load32 (a.idtPtr + 2)⟩

def setIrqHandler (a : Symbols) (irq : U16) (handler : U32) (m : Mem) : Mem :=
  m.store32 (a.irqRoutines + BitVec.ofNat 32 (4 * irq.toNat)) handler

/-- `handler` in `irq_handler` -/
def irqRoutine (a : Symbols) (intNo : U32) (m : Mem) : U32 := m.load32 (a.irqRoutines + 4 * (intNo - 32))

structure Startup where
  mem : Mem
  chips : Chips
  idtr : Idtr

/-- `init_interrupts`, `init_pic` and `init_timer`, whose writes to the timer's ports the
controllers do not see. -/
def startup (a : Symbols) (c : Chips) (m : Mem) : Startup :=
  let m := initInterrupts a m
  let idtr := idtLoad a m
  let m := setIrqHandler a 1 a.press (mapGates a.idt (irqGates a) m)
  { mem := setIrqHandler a 0 a.timerHandler m, chips := c.outs initPicWrites, idtr := idtr }

/-- The tables lie apart, in the first 3 MB of the window. -/
structure Symbols.Ok (a : Symbols) : Prop where
  idtLo : 0xC0000000 ≤ a.idt.toNat
  idtHi : a.idt.toNat + 2048 ≤ 0xC0300000
  ptrLo : 0xC0000000 ≤ a.idtPtr.toNat
  ptrHi : a.idtPtr.toNat + 6 ≤ 0xC0300000
  routinesLo : 0xC0000000 ≤ a.irqRoutines.toNat
  routinesHi : a.irqRoutines.toNat + 64 ≤ 0xC0300000
  ptrApart : ∀ x, InSpan a.idt 2048 x → ¬ InSpan a.idtPtr 6 x
  routinesApart : ∀ x, InSpan a.irqRoutines 64 x → ¬ InSpan a.idt 2048 x ∧ ¬ InSpan a.idtPtr 6 x

section
variable {a : Symbols}

def Symbols.handler (a : Symbols) (v : Nat) : U32 := if v < 32 then a.isr v else a.irq (v - 32)

theorem gates_last {v : Nat} (hv : v < 48) : (lastCall (isrGates a ++ irqGates a) v).map GateCall.gate =
    some ⟨a.handler v, 0x10, 0, 0x8E⟩ := by
  have hisr : ∀ i < 32, (BitVec.ofNat 16 i).toNat = 0 + i := by
    intro i hi
    rw [BitVec.toNat_ofNat]
    omega
  have hirq : ∀ i < 16, (BitVec.ofNat 16 (32 + i)).toNat = 32 + i := by
    intro i hi
    rw [BitVec.toNat_ofNat]
    omega
  rw [lastCall_append, isrGates, irqGates, lastCall_range v 32 hisr, lastCall_range v 16 hirq, Symbols.handler]
  by_cases h : v < 32
  · rw [if_neg (by omega), if_pos (by omega), if_pos h]
    rfl
  · rw [if_pos (by omega), if_neg h]
    rfl

theorem gates_num : ∀ g ∈ isrGates a ++ irqGates a, g.num.toNat < 256 := by
  intro g hg
  rcases List.mem_append.mp hg with hg | hg
  · obtain ⟨i, hi, rfl⟩ := List.mem_map.mp hg
    have := List.mem_range.mp hi
    show (BitVec.ofNat 16 i).toNat < 256
    rw [BitVec.toNat_ofNat]
    omega
  · obtain ⟨i, hi, rfl⟩ := List.mem_map.mp hg
    have := List.mem_range.mp hi
    show (BitVec.ofNat 16 (32 + i)).toNat < 256
    rw [BitVec.toNat_ofNat]
    omega

theorem ptr_writes (ha : a.Ok) (m : Mem) :
    WritesOnly (InSpan a.idtPtr 6) m ((m.store16 a.idtPtr (8 * 256 - 1)).store32 (a.idtPtr + 2) (a.idt - kAddrAdjust)) := by
  have hhi := ha.ptrHi
  have e2 : (a.idtPtr + 2).toNat = a.idtPtr.toNat + 2 := by bv_omega
  have h₁ : WritesOnly (InSpan a.idtPtr 6) m (m.store16 a.idtPtr (8 * 256 - 1)) := by
    refine WritesOnly.store16 m _ (by omega) fun x hx => ?_
    unfold InSpan at hx ⊢
    omega
  refine h₁.trans (WritesOnly.store32 _ _ (by omega) fun x hx => ?_)
  unfold InSpan at hx ⊢
  omega

theorem isrGates_num : ∀ g ∈ isrGates a, g.num.toNat < 256 :=
  fun g hg => gates_num g (List.mem_append_left _ hg)

theorem irqGates_num : ∀ g ∈ irqGates a, g.num.toNat < 256 :=
  fun g hg => gates_num g (List.mem_append_right _ hg)

theorem routine_addr (ha : a.Ok) {i : Nat} (hi : i < 16) :
    (a.irqRoutines + BitVec.ofNat 32 (4 * i)).toNat = a.irqRoutines.toNat + 4 * i := by
  have hhi := ha.routinesHi
  rw [BitVec.toNat_add, BitVec.toNat_ofNat]
  omega

theorem irqRoutine_eq (a : Symbols) (i : Nat) (m : Mem) :
    irqRoutine a (BitVec.ofNat 32 (32 + i)) m = m.load32 (a.irqRoutines + BitVec.ofNat 32 (4 * i)) := by
  have haddr : a.irqRoutines + 4 * (BitVec.ofNat 32 (32 + i) - 32) = a.irqRoutines + BitVec.ofNat 32 (4 * i) := by
    bv_omega
  rw [irqRoutine, haddr]

theorem setIrqHandler_writes (ha : a.Ok) (irq : U16) (hi : irq.toNat < 16) (h : U32) (m : Mem) :
    WritesOnly (InSpan a.irqRoutines 64) m (setIrqHandler a irq h m) := by
  have hhi := ha.routinesHi
  have e := routine_addr ha hi
  refine WritesOnly.store32 m h (by omega) fun x hx => ?_
  unfold InSpan at hx ⊢
  omega

theorem bothHandlers_writes (ha : a.Ok) (m : Mem) :
    WritesOnly (InSpan a.irqRoutines 64) m (setIrqHandler a 0 a.timerHandler (setIrqHandler a 1 a.press m)) :=
  (setIrqHandler_writes ha 1 (by decide) a.press m).trans (setIrqHandler_writes ha 0 (by decide) a.timerHandler _)

/-- **The register `lidt` loads**: it names the table by its physical address. -/
theorem startup_idtr (ha : a.Ok) (c : Chips) (m : Mem) : (startup a c m).idtr = ⟨2047, a.idt - kAddrAdjust⟩ := by
  have hi := ha.idtHi
  have hp := ha.ptrHi
  have e1 : (a.idtPtr + 1).toNat = a.idtPtr.toNat + 1 := by bv_omega
  have e2 : (a.idtPtr + 2).toNat = a.idtPtr.toNat + 2 := by bv_omega
  show Idtr.mk _ _ = _
  unfold initInterrupts
  have hw := fun m => @mapGates_writes a.idt (by omega) (isrGates a) isrGates_num m
  have hoff : ∀ x, InSpan a.idtPtr 6 x → ¬ InSpan a.idt 2048 x := fun x hx hx' => ha.ptrApart x hx' hx
  have hlo : ∀ w x, x = a.idtPtr ∨ x = a.idtPtr + 1 →
      ((m.store16 a.idtPtr (8 * 256 - 1)).store32 (a.idtPtr + 2) w).byte x = (m.store16 a.idtPtr (8 * 256 - 1)).byte x := by
    intro w x hx
    refine byte_store32_off _ w (by omega) fun hin => ?_
    unfold InSpan at hin
    rcases hx with rfl | rfl <;> omega
  rw [(hw _).2 _ (hoff _ ⟨by omega, by omega⟩), (hw _).2 _ (hoff _ ⟨by omega, by omega⟩), hlo _ _ (Or.inr rfl),
    hlo _ _ (Or.inl rfl), (hw _).load32_eq (by omega), load32_store32_same]
  · have hhigh : (m.store16 a.idtPtr (8 * 256 - 1)).byte (a.idtPtr + 1) = 0x07 := byte_store8_same _ _ _
    have hlow : (m.store16 a.idtPtr (8 * 256 - 1)).byte a.idtPtr = 0xFF := by
      rw [store16, byte_store8_ne _ _ (by bv_omega), byte_store8_same]
      rfl
    rw [hhigh, hlow]
    rfl
  · intro x hx
    refine hoff x ?_
    unfold InSpan at hx ⊢
    omega

theorem startup_gate (ha : a.Ok) (c : Chips) (m : Mem) {v : Nat} (hv : v < 48) :
    readGate a.idt v (startup a c m).mem = ⟨a.handler v, 0x10, 0, 0x8E⟩ := by
  have hi := ha.idtHi
  have e : (gateAddr a.idt v).toNat = a.idt.toNat + 8 * v := gateAddr_toNat (by omega)
  have hoff : ∀ x, InSpan (gateAddr a.idt v) 8 x → ¬ InSpan a.irqRoutines 64 x := by
    intro x hx hx'
    refine (ha.routinesApart x hx').1 ?_
    unfold InSpan at hx ⊢
    omega
  have happ : ∀ m, mapGates a.idt (irqGates a) (mapGates a.idt (isrGates a) m) = mapGates a.idt (isrGates a ++ irqGates a) m :=
    fun m => List.foldl_append.symm
  show readGate a.idt v (setIrqHandler a 0 a.timerHandler (setIrqHandler a 1 a.press (mapGates a.idt (irqGates a)
    (mapGates a.idt (isrGates a) _)))) = _
  rw [readGate_frame (bothHandlers_writes ha _) (by omega) hoff, happ, mapGates_read (by omega) _ gates_num _ (by omega),
    gates_last hv]
  rfl

/-- A word of the routines that `init_interrupts` and `init_pic` have not set. -/
theorem routine_zero (ha : a.Ok) {i : Nat} (hi : i < 16) {m m' : Mem} (hzero : ∀ x, InSpan a.irqRoutines 64 x → m.byte x = 0)
    (hw : WritesOnly (fun x => InSpan a.idt 2048 x ∨ InSpan a.idtPtr 6 x) m m') :
    m'.load32 (a.irqRoutines + BitVec.ofNat 32 (4 * i)) = 0 := by
  have hhi := ha.routinesHi
  have e := routine_addr ha hi
  have hin : ∀ x, InSpan (a.irqRoutines + BitVec.ofNat 32 (4 * i)) 4 x → m'.byte x = 0 := by
    intro x hx
    have hx' : InSpan a.irqRoutines 64 x := by
      unfold InSpan at hx ⊢
      omega
    rw [hw.2 x (not_or.mpr (ha.routinesApart x hx')), hzero x hx']
  have hall := @load32_congr ⟨fun _ => 0, []⟩ m' _ (by omega) hin
  rw [hall]
  show (0 : U8) ++ (0 : U8) ++ (0 : U8) ++ (0 : U8) = (0 : U32)
  decide

theorem startup_routine (ha : a.Ok) (c : Chips) (m : Mem) (hzero : ∀ x, InSpan a.irqRoutines 64 x → m.byte x = 0)
    (irq : Fin 16) : irqRoutine a (BitVec.ofNat 32 (32 + irq.val)) (startup a c m).mem =
      if irq.val = 0 then a.timerHandler else if irq.val = 1 then a.press else 0 := by
  have hhi := ha.routinesHi
  have hi := ha.idtHi
  have hw : WritesOnly (fun x => InSpan a.idt 2048 x ∨ InSpan a.idtPtr 6 x) m
      (mapGates a.idt (irqGates a) (initInterrupts a m)) :=
    (((ptr_writes ha m).mono fun _ h => Or.inr h).trans ((mapGates_writes (by omega) _ isrGates_num _).mono
      fun _ h => Or.inl h)).trans ((mapGates_writes (by omega) _ irqGates_num _).mono fun _ h => Or.inl h)
  have e : ∀ i < 16, (a.irqRoutines + BitVec.ofNat 32 (4 * i)).toNat = a.irqRoutines.toNat + 4 * i :=
    fun _ hi => routine_addr ha hi
  rw [irqRoutine_eq]
  show (setIrqHandler a 0 a.timerHandler (setIrqHandler a 1 a.press _)).load32 _ = _
  generalize mapGates a.idt (irqGates a) (initInterrupts a m) = m₁ at hw
  have hoff : ∀ {i j : Nat}, i < 16 → j < 16 → i ≠ j → ∀ (m : Mem) (w : U32),
      (m.store32 (a.irqRoutines + BitVec.ofNat 32 (4 * i)) w).load32 (a.irqRoutines + BitVec.ofNat 32 (4 * j)) =
        m.load32 (a.irqRoutines + BitVec.ofNat 32 (4 * j)) := by
    intro i j hi hj hne m w
    have e₁ := e i hi
    have e₂ := e j hj
    exact load32_store32_off m w (by omega) (by omega) (by omega)
  have h0 : (0 : Nat) < 16 := by decide
  have h1 : (1 : Nat) < 16 := by decide
  have hirq := irq.isLt
  unfold setIrqHandler
  show ((m₁.store32 (a.irqRoutines + BitVec.ofNat 32 (4 * 1)) _).store32
    (a.irqRoutines + BitVec.ofNat 32 (4 * 0)) _).load32 _ = _
  by_cases hz : irq.val = 0
  · rw [if_pos hz, hz, load32_store32_same]
  · rw [if_neg hz, hoff h0 hirq (Ne.symm hz)]
    by_cases ho : irq.val = 1
    · rw [if_pos ho, ho, load32_store32_same]
    · rw [if_neg ho, hoff h1 hirq (Ne.symm ho)]
      exact routine_zero ha hirq hzero hw

/-! The way the processor takes. -/

/-- The pages of the first 4 MB and of an image of `k` pages translate as `start.asm` has
them. -/
structure WindowMapped (k : Nat) (m : Machine) : Prop where
  low : ∀ p < 1024, m.walk p = some p
  image : ∀ i ≤ k, i < 1024 → m.walk (786432 + i) = some (256 + i)

/-- The entry of vector `v`, fetched from linear memory; none beyond the limit. -/
def fetchGate (r : Idtr) (v : Nat) (m : Machine) : Option Gate :=
  if 8 * v + 7 ≤ r.limit.toNat then
    let b := fun k => m.loadByte (gateAddr r.base v + k)
    (b 0).bind fun b0 => (b 1).bind fun b1 => (b 2).bind fun b2 => (b 3).bind fun b3 =>
      (b 4).bind fun b4 => (b 5).bind fun b5 => (b 6).bind fun b6 => (b 7).map fun b7 =>
        ⟨b7 ++ b6 ++ b1 ++ b0, b3 ++ b2, b4, b5⟩
  else none

theorem fetchGate_eq {r : Idtr} {idt : U32} {v : Nat} {m : Machine} {mem : Mem} (hl : 8 * v + 7 ≤ r.limit.toNat)
    (h : ∀ k : U32, k.toNat < 8 → m.loadByte (gateAddr r.base v + k) = some (mem.byte (gateAddr idt v + k))) :
    fetchGate r v m = some (readGate idt v mem) := by
  have h0 : ∀ x : U32, x + 0 = x := fun x => by simp
  have hz : m.loadByte (gateAddr r.base v) = some (mem.byte (gateAddr idt v)) := by simpa using h 0 (by decide)
  rw [fetchGate, if_pos hl]
  simp only [hz, h 1 (by decide), h 2 (by decide), h 3 (by decide), h 4 (by decide), h 5 (by decide),
    h 6 (by decide), h 7 (by decide), Option.bind_some, Option.map_some, h0]
  rfl

/-- **The two ways to the image**: an address of the first 3 MB of the window and its
physical address show the same byte. -/
theorem low_alias {k : Nat} {m : Machine} (h : WindowMapped k m) {x : U32} (hlo : 0xC0000000 ≤ x.toNat)
    (hhi : x.toNat < 0xC0300000) (hk : x.toNat < 0xC0000000 + 4096 * (k + 1)) :
    m.loadByte (x - kAddrAdjust) = m.loadByte x := by
  have e : (x - kAddrAdjust).toNat = x.toNat - 0xBFF00000 := by
    unfold kAddrAdjust
    bv_omega
  have hi : m.walk (x.toNat / 4096) = some (256 + (x.toNat / 4096 - 786432)) := by
    have hi := h.image (x.toNat / 4096 - 786432) (by omega) (by omega)
    rwa [Nat.add_sub_of_le (by omega)] at hi
  have hq : (x - kAddrAdjust).toNat / 4096 = 256 + (x.toNat / 4096 - 786432) := by omega
  have hl : m.walk ((x - kAddrAdjust).toNat / 4096) = some (256 + (x.toNat / 4096 - 786432)) :=
    (h.low _ (by omega)).trans (congrArg some hq)
  have hoff : (x - kAddrAdjust).toNat % 4096 = x.toNat % 4096 := by omega
  have hbyte : (x - kAddrAdjust).toNat % 4 = x.toNat % 4 := by omega
  rw [loadByte_eq hi, loadByte_eq hl, hoff, hbyte]


/-- The pages `init_paging` leaves mapped, as long as none of them moves. -/
theorem BootSpace.window {pd k : Nat} {m₀ m : Machine} (h : BootSpace pd k m₀) (hon : WalksOn m₀ m) : WindowMapped k m :=
  ⟨fun p hp => hon p (by omega) p (h.low p hp), fun i hi hlt => hon _ (by omega) _ (h.image i hi hlt)⟩

theorem startup_fetch (ha : a.Ok) {k : Nat} (hin : a.idt.toNat + 2048 ≤ 0xC0000000 + 4096 * (k + 1)) (c : Chips) (mem : Mem)
    {m : Machine} (hm : WindowMapped k m) (hshow : ∀ x, InSpan a.idt 2048 x → m.loadByte x = some ((startup a c mem).mem.byte x))
    {v : Nat} (hv : v < 48) : fetchGate (startup a c mem).idtr v m = some ⟨a.handler v, 0x10, 0, 0x8E⟩ := by
  have hlo := ha.idtLo
  have hhi := ha.idtHi
  rw [← startup_gate ha c mem hv, startup_idtr ha]
  refine fetchGate_eq (by show 8 * v + 7 ≤ 2047; omega) fun j hj => ?_
  have e : (gateAddr a.idt v).toNat = a.idt.toNat + 8 * v := gateAddr_toNat (by omega)
  have ej : (gateAddr a.idt v + j).toNat = a.idt.toNat + 8 * v + j.toNat := by bv_omega
  have hlow : gateAddr (a.idt - kAddrAdjust) v + j = gateAddr a.idt v + j - kAddrAdjust := by
    unfold gateAddr
    bv_omega
  show m.loadByte (gateAddr (a.idt - kAddrAdjust) v + j) = _
  rw [hlow, low_alias hm (by omega) (by omega) (by omega)]
  exact hshow _ ⟨by omega, by omega⟩

/-! The stub. -/

theorem irq_called (handler link irq : U32) (s : Core) (hroom : 76 ≤ s.cpu.esp.toNat) :
    Called s.mem s.cpu.esp link (enterIrq handler link irq s) (regsSlots s.cpu (32 + irq) 0) := by
  have h0 : Pushed s.mem s.cpu.esp 19 s [] := Pushed.start (by omega)
  have h3 : Pushed s.mem s.cpu.esp 16 s.interrupt [.word s.cpu.eip, .half s.cpu.cs, .word s.cpu.eflags] :=
    (((h0.push s.cpu.eflags).pushHalf s.cpu.cs).push s.cpu.eip).keep rfl rfl
  obtain ⟨h5, hcpu⟩ := irqCode_pushed irq h3
  have hall := stub_called handler link h5
  rw [hcpu, interrupt_cpu] at hall
  refine Pushed.forget hall (.cons (.inl rfl) (.cons (.inl rfl) ?_))
  simp [regsSlots]

/-- `r->int_no`, of the argument of a handler. -/
def regsIntNo (t : Core) : U32 := t.mem.load32 (t.mem.load32 (t.cpu.esp + 4) + 48)

theorem RegsGiven.intNo {b : Cpu} {v e : U32} {t : Core} (h : RegsGiven b v e t) : regsIntNo t = v := by
  obtain ⟨-, -, -, -, -, -, -, -, -, -, -, -, hint, -⟩ := h
  have e48 : ∀ x : U32, x + 4 + 4 + 4 + 4 + 4 + 4 + 4 + 4 + 4 + 4 + 4 + 4 = x + 48 := by
    intro x
    simp only [BitVec.add_assoc]
    rfl
  rw [e48] at hint
  exact hint

theorem enterIrq_routine (ha : a.Ok) (handler link irq : U32) {s : Core} (hroom : 76 ≤ s.cpu.esp.toNat)
    (hoff : s.cpu.esp.toNat ≤ a.irqRoutines.toNat ∨ a.irqRoutines.toNat + 64 + 76 ≤ s.cpu.esp.toNat) {i : Nat} (hi : i < 16) :
    irqRoutine a (BitVec.ofNat 32 (32 + i)) (enterIrq handler link irq s).mem =
      irqRoutine a (BitVec.ofNat 32 (32 + i)) s.mem := by
  have hcalled := irq_called handler link irq s hroom
  have hdepth : (enterIrq handler link irq s).cpu.esp.toNat + 76 = s.cpu.esp.toNat := hcalled.depth
  have e := routine_addr ha hi
  have hhi := ha.routinesHi
  rw [irqRoutine_eq, irqRoutine_eq]
  refine hcalled.writes.load32_eq (by omega) fun x hx hx' => ?_
  unfold InSpan at hx
  omega

/-- **From a line to its handler.** Whatever state the controllers were in before startup
and whatever interrupts they have passed on since, a line comes with its own
vector; the processor finds the gate of the line's stub there; the stub gives
`irq_handler` the interrupted state with this vector as `int_no`; and the
routine it looks up by it is the one that was set for the line. -/
theorem irq_dispatch (ha : a.Ok) {k : Nat} (hin : a.idt.toNat + 2048 ≤ 0xC0000000 + 4096 * (k + 1)) (c : Chips) (mem : Mem)
    (hzero : ∀ x, InSpan a.irqRoutines 64 x → mem.byte x = 0) {d : Chips} (hd : Serving (startup a c mem).chips d)
    {m : Machine} (hm : WindowMapped k m)
    (hshow : ∀ x, InSpan a.idt 2048 x → m.loadByte x = some ((startup a c mem).mem.byte x))
    {s : Core} (hroom : 76 ≤ s.cpu.esp.toNat)
    (hoff : s.cpu.esp.toNat ≤ a.irqRoutines.toNat ∨ a.irqRoutines.toNat + 64 + 76 ≤ s.cpu.esp.toNat)
    (hsame : ∀ x, InSpan a.irqRoutines 64 x → s.mem.byte x = (startup a c mem).mem.byte x) (handler link : U32) (irq : Fin 16) :
    fetchGate (startup a c mem).idtr (d.vector irq) m = some ⟨a.irq irq.val, 0x10, 0, 0x8E⟩ ∧
      RegsGiven s.cpu (BitVec.ofNat 32 (d.vector irq)) 0 (enterIrq handler link (BitVec.ofNat 32 irq.val) s) ∧
      irqRoutine a (regsIntNo (enterIrq handler link (BitVec.ofNat 32 irq.val) s))
          (enterIrq handler link (BitVec.ofNat 32 irq.val) s).mem =
        if irq.val = 0 then a.timerHandler else if irq.val = 1 then a.press else 0 := by
  have hvec : d.vector irq = 32 + irq.val := (hd.vector irq).trans (initPic_vector c irq)
  have hlt := irq.isLt
  have hregs := (irq_called handler link (BitVec.ofNat 32 irq.val) s hroom).given
  have hint : (32 : U32) + BitVec.ofNat 32 irq.val = BitVec.ofNat 32 (32 + irq.val) := by
    rw [BitVec.ofNat_add]
    rfl
  rw [hint] at hregs
  have hhandler : a.handler (32 + irq.val) = a.irq irq.val := by
    rw [Symbols.handler, if_neg (by omega), Nat.add_sub_cancel_left]
  refine ⟨?_, hvec ▸ hregs, ?_⟩
  · rw [hvec, startup_fetch ha hin c mem hm hshow (by omega), hhandler]
  · have hload : irqRoutine a (BitVec.ofNat 32 (32 + irq.val)) s.mem =
        irqRoutine a (BitVec.ofNat 32 (32 + irq.val)) (startup a c mem).mem := by
      have e := routine_addr ha hlt
      have hhi := ha.routinesHi
      rw [irqRoutine_eq, irqRoutine_eq]
      refine load32_congr (by omega) fun x hx => hsame x ?_
      unfold InSpan at hx ⊢
      omega
    rw [RegsGiven.intNo hregs, enterIrq_routine ha _ _ _ hroom hoff hlt, hload]
    exact startup_routine ha c mem hzero irq

end

/-! A run of it. -/

/-- An image like that of `linker/link.ld`, with the first tables at 0xC002C000. -/
def sampleSymbols : Symbols :=
  { idt := 0xC002F000, idtPtr := 0xC002F800, irqRoutines := 0xC0010000
    isr := fun v => 0xC0001000 + BitVec.ofNat 32 (16 * v), irq := fun i => 0xC0001400 + BitVec.ofNat 32 (16 * i)
    timerHandler := 0xC0003000, press := 0xC0004000 }

theorem sampleSymbols_ok : sampleSymbols.Ok := by
  constructor
  all_goals first
    | decide
    | intro x hx
      simp only [InSpan, sampleSymbols] at hx ⊢
      have h₁ : (0xC002F000 : U32).toNat = 3221417984 := rfl
      have h₂ : (0xC002F800 : U32).toNat = 3221420032 := rfl
      have h₃ : (0xC0010000 : U32).toNat = 3221291008 := rfl
      omega

/-- Controllers in the middle of an initialisation. -/
def sampleChips : Chips := ⟨⟨.icw3, true, false, 8, 1, 2, 0xFF, 0⟩, ⟨.icw4, true, true, 0x70, 3, 2, 0xFF, 0⟩⟩

def sampleStartup : Startup := startup sampleSymbols sampleChips ⟨fun _ => 0, []⟩

/-- The tables of `start.asm`, and behind the window what startup left. -/
def sampleBoot : Machine :=
  startMachine 300 (fun f i => wordOf fun j => sampleStartup.mem.byte (BitVec.ofNat 32 ((f + 786176) * 4096 + 4 * i + j)))
    sampleSys

theorem sampleBoot_window : WindowMapped 60 sampleBoot :=
  ⟨fun _ hp => start_low (by decide) hp, fun _ _ hlt => (start_walk (by decide) hlt).1⟩

theorem sampleBoot_shows (x : U32) (hx : InSpan sampleSymbols.idt 2048 x) :
    sampleBoot.loadByte x = some (sampleStartup.mem.byte x) := by
  have h₁ : sampleSymbols.idt.toNat = 3221417984 := rfl
  unfold InSpan at hx
  have hpage : x.toNat / 4096 = 786432 + 47 := by omega
  have hw : sampleBoot.walk (x.toNat / 4096) = some 303 := by
    rw [hpage]
    exact sampleBoot_window.image 47 (by omega) (by omega)
  have hphys : sampleBoot.phys 303 = fun i => wordOf fun j =>
      sampleStartup.mem.byte (BitVec.ofNat 32 ((303 + 786176) * 4096 + 4 * i + j)) := rfl
  rw [loadByte_eq hw, hphys, byteOf_wordOf _ (by omega)]
  congr 2
  bv_omega

theorem irq_dispatch_sample :
    fetchGate sampleStartup.idtr ((sampleStartup.chips.accept 1).vector 0) sampleBoot = some ⟨0xC0001400, 0x10, 0, 0x8E⟩ ∧
      RegsGiven sampleCore.cpu (BitVec.ofNat 32 ((sampleStartup.chips.accept 1).vector 0)) 0
        (enterIrq 0xC0001600 0xC0001610 (BitVec.ofNat 32 0) { sampleCore with mem := sampleStartup.mem }) ∧
      irqRoutine sampleSymbols
          (regsIntNo (enterIrq 0xC0001600 0xC0001610 (BitVec.ofNat 32 0) { sampleCore with mem := sampleStartup.mem }))
          (enterIrq 0xC0001600 0xC0001610 (BitVec.ofNat 32 0) { sampleCore with mem := sampleStartup.mem }).mem =
        0xC0003000 :=
  @irq_dispatch sampleSymbols sampleSymbols_ok 60 (by decide) sampleChips ⟨fun _ => 0, []⟩ (fun _ _ => rfl) _
    (.accept 1 .start) sampleBoot sampleBoot_window sampleBoot_shows { sampleCore with mem := sampleStartup.mem } (by decide)
    (Or.inl (by decide)) (fun _ _ => rfl) 0xC0001600 0xC0001610 0

end LineOS
