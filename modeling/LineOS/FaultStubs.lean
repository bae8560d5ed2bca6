import LineOS.ContextSwitch

/- The exceptions: what the processor pushes, the stubs of `cpu/isr.asm`, and the
   `struct regs` their handlers are given. The stubs from 8 and 10 to 14 count on
   the processor's error code and the others push a zero for it; the processor
   pushes one for 17 as well, whose stub does not expect it (`fault_frame_iff`).
   `_isr14` calls `page_fault` and returns to the instruction that faulted
   (`page_fault_resumes`). -/
namespace LineOS
open ByteMemory ByteMemory.Mem SlotStack

/-- Exceptions for which the processor pushes an error code. -/
def pushesErrorCode (v : Nat) : Bool := v = 8 ∨ (10 ≤ v ∧ v ≤ 14) ∨ v = 17

/-- Exception `v`, with the error code `e` if it has one. -/
def Core.exception (v : Nat) (e : U32) (s : Core) : Core :=
  if pushesErrorCode v then s.interrupt.push e else s.interrupt

/-- `_isr0` to `_isr31`, up to the jump. -/
def isrCode (v : Nat) : List Instr :=
  .cli :: ((if v = 8 ∨ (10 ≤ v ∧ v ≤ 14) then [] else [.pushImm 0]) ++ [.pushImm (BitVec.ofNat 32 v)])

/-- `isr_common_stub`, and the rest of `_isr14`, up to the call: the instructions of `irq_common_stub`. -/
def isrStub (v : Nat) (faultHandler pageFault link : U32) : List Instr :=
  irqStub (if v = 14 then pageFault else faultHandler) link

def enterFault (v : Nat) (e faultHandler pageFault link : U32) (s : Core) : Core :=
  runCode (isrStub v faultHandler pageFault link) (runCode (isrCode v) (s.exception v e))

/-- `struct regs` of the interrupted state `a`; nobody reads `esp` in it. -/
def regsSlots (a : Cpu) (intNo errCode : U32) : List Slot :=
  [.half a.gs, .half a.fs, .half a.es, .half a.ds,
    .word a.edi, .word a.esi, .word a.ebp, .any, .word a.ebx, .word a.edx, .word a.ecx, .word a.eax,
    .word intNo, .word errCode, .word a.eip, .half a.cs, .word a.eflags]

/-- What a handler finds: the return address, a pointer to the slots `ss`, and these. -/
def Called (m₀ : Mem) (e₀ link : U32) (t : Core) (ss : List Slot) : Prop :=
  Pushed m₀ e₀ 0 t (.word link :: .word (t.cpu.esp + 8) :: ss)

section
variable {m₀ m : Mem} {e₀ : U32} {n : Nat} {s t : Core} {ss tt : List Slot} {a : Cpu} {v : Nat}

/-! The way in. -/

theorem Pushed.less (h : Pushed m₀ e₀ (n + 1) s ss) : Pushed m₀ e₀ n s ss :=
  ⟨h.holds, h.depth, Nat.le_trans (by omega) h.room, h.writes⟩

theorem dataSegments_eax (s : Core) : (runCode dataSegments s).cpu.eax = (runCode dataSegments s).cpu.esp := by
  simp only [runCode, dataSegments, List.foldl_cons, List.foldl_nil, Instr.step, Core.setReg, Cpu.setReg, Cpu.setSeg,
    Cpu.reg]

theorem stub_called (handler link : U32) (h : Pushed m₀ e₀ 14 s ss) : Called m₀ e₀ link (runCode (irqStub handler link) s)
    (.half s.cpu.gs :: .half s.cpu.fs :: .half s.cpu.es :: .half s.cpu.ds ::
      .word s.cpu.edi :: .word s.cpu.esi :: .word s.cpu.ebp :: .word s.cpu.esp ::
      .word s.cpu.ebx :: .word s.cpu.edx :: .word s.cpu.ecx :: .word s.cpu.eax :: ss) := by
  have hdata := dataSegments_pushed (saveRegs_pushed h)
  have heax := dataSegments_eax (runCode saveRegs s)
  have hstub : irqStub handler link = saveRegs ++ (dataSegments ++ [.push .eax, .movImm .eax handler, .call link]) := rfl
  unfold Called
  rw [hstub, runCode_append, runCode_append]
  generalize runCode dataSegments (runCode saveRegs s) = u at hdata heax ⊢
  have hset : Pushed m₀ e₀ 1 ((u.push u.cpu.eax).setReg .eax handler) _ := (hdata.push u.cpu.eax).keep rfl rfl
  have harg : (((u.push u.cpu.eax).setReg .eax handler).push link).cpu.esp + 8 = u.cpu.eax := by
    show u.cpu.esp - 4 - 4 + 8 = u.cpu.eax
    rw [heax]
    bv_omega
  show Pushed m₀ e₀ 0 _ (.word link :: .word ((((u.push u.cpu.eax).setReg .eax handler).push link).cpu.esp + 8) :: _)
  rw [harg]
  exact hset.push link

theorem isrCode_pushed (v : Nat) (h : Pushed m₀ e₀ (n + 2) s ss) :
    Pushed m₀ e₀ n (runCode (isrCode v) s)
        (.word (BitVec.ofNat 32 v) :: ((if v = 8 ∨ (10 ≤ v ∧ v ≤ 14) then [] else [.word 0]) ++ ss)) ∧
      ∃ e f, (runCode (isrCode v) s).cpu = { s.cpu with esp := e, eflags := f } := by
  have hc : Pushed m₀ e₀ (n + 2) (Instr.cli.step s) ss := h.keep rfl rfl
  unfold isrCode
  split
  · exact ⟨(hc.push (BitVec.ofNat 32 v)).less, _, _, rfl⟩
  · exact ⟨(hc.push 0).push (BitVec.ofNat 32 v), _, _, rfl⟩

theorem exception_pushed (v : Nat) (e : U32) (h : Pushed m₀ e₀ (n + 4) s []) : Pushed m₀ e₀ n (s.exception v e)
      ((if pushesErrorCode v then [.word e] else []) ++ [.word s.cpu.eip, .half s.cpu.cs, .word s.cpu.eflags]) ∧
    ∃ esp cs f, (s.exception v e).cpu = { s.cpu with esp := esp, cs := cs, eflags := f } := by
  have h3 : Pushed m₀ e₀ (n + 1) s.interrupt [.word s.cpu.eip, .half s.cpu.cs, .word s.cpu.eflags] :=
    (((h.push s.cpu.eflags).pushHalf s.cpu.cs).push s.cpu.eip).keep rfl rfl
  unfold Core.exception
  split
  · exact ⟨h3.push e, _, _, _, rfl⟩
  · exact ⟨h3.less, _, _, _, rfl⟩

/-- **The stack an exception's handler gets**, for every exception. -/
theorem enterFault_called (v : Nat) (e faultHandler pageFault link : U32) (s : Core) (hroom : 80 ≤ s.cpu.esp.toNat) :
    Called s.mem s.cpu.esp link (enterFault v e faultHandler pageFault link s)
      ([.half s.cpu.gs, .half s.cpu.fs, .half s.cpu.es, .half s.cpu.ds, .word s.cpu.edi, .word s.cpu.esi,
          .word s.cpu.ebp, .any, .word s.cpu.ebx, .word s.cpu.edx, .word s.cpu.ecx, .word s.cpu.eax,
          .word (BitVec.ofNat 32 v)] ++
        ((if v = 8 ∨ (10 ≤ v ∧ v ≤ 14) then [] else [.word 0]) ++
          ((if pushesErrorCode v then [.word e] else []) ++ [.word s.cpu.eip, .half s.cpu.cs, .word s.cpu.eflags]))) := by
  have h0 : Pushed s.mem s.cpu.esp 20 s [] := Pushed.start (by omega)
  obtain ⟨h4, e₁, c₁, f₁, hcpu₁⟩ := exception_pushed v e h0
  obtain ⟨h6, e₂, f₂, hcpu₂⟩ := isrCode_pushed v h4
  have hall := stub_called (if v = 14 then pageFault else faultHandler) link h6
  rw [hcpu₂, hcpu₁] at hall
  refine Pushed.forget hall (.cons (.inl rfl) (.cons (.inl rfl) ?_))
  simp [List.forall₂_same]

/-! What the handlers read. -/

/-- The handler's argument points to a `struct regs` of the interrupted state. -/
def RegsGiven (a : Cpu) (intNo errCode : U32) (t : Core) : Prop :=
  Holds t.mem (t.mem.load32 (t.cpu.esp + 4)) (regsSlots a intNo errCode)

theorem Called.given {link : U32} (h : Called m₀ e₀ link t ss) : Holds t.mem (t.mem.load32 (t.cpu.esp + 4)) ss := by
  obtain ⟨-, harg, hslots⟩ := h.holds
  have h8 : t.cpu.esp + 4 + 4 = t.cpu.esp + 8 := by bv_omega
  rw [show t.mem.load32 (t.cpu.esp + 4) = t.cpu.esp + 8 from harg, ← h8]
  exact hslots

theorem stub_expects (v : Nat) (hv : v ≠ 17) : pushesErrorCode v = true ↔ v = 8 ∨ (10 ≤ v ∧ v ≤ 14) := by
  rw [pushesErrorCode, decide_eq_true_eq]
  omega

theorem regs_called (hv : v ≠ 17) (e faultHandler pageFault link : U32) (s : Core) (hroom : 80 ≤ s.cpu.esp.toNat) :
    Called s.mem s.cpu.esp link (enterFault v e faultHandler pageFault link s)
      (regsSlots s.cpu (BitVec.ofNat 32 v) (if pushesErrorCode v then e else 0)) := by
  have h := enterFault_called v e faultHandler pageFault link s hroom
  by_cases hp : pushesErrorCode v = true
  · rw [if_pos ((stub_expects v hv).mp hp), if_pos hp] at h
    rw [if_pos hp]
    exact h
  · rw [if_neg (fun hc => hp ((stub_expects v hv).mpr hc)), if_neg hp] at h
    rw [if_neg hp]
    exact h

/-- An alignment check finds the error code where `eip` should be. -/
theorem alignment_given (e faultHandler pageFault link : U32) (s : Core) (hroom : 80 ≤ s.cpu.esp.toNat)
    (h : RegsGiven s.cpu 17 e (enterFault 17 e faultHandler pageFault link s)) : e = 0 ∧ s.cpu.eip = 0 := by
  have hreal := (enterFault_called 17 e faultHandler pageFault link s hroom).given
  generalize enterFault 17 e faultHandler pageFault link s = t at h hreal
  obtain ⟨_, _, _, _, _, _, _, _, _, _, _, _, _, herr, heip, _⟩ := h
  obtain ⟨_, _, _, _, _, _, _, _, _, _, _, _, _, herr', heip', _⟩ := hreal
  have h₁ : e = 0 := herr.symm.trans herr'
  have h₂ : s.cpu.eip = e := heip.symm.trans heip'
  exact ⟨h₁, h₂.trans h₁⟩

/-- **The `struct regs` of an exception** is the interrupted state, with its number and
its error code or zero, for every exception but 17. -/
theorem fault_frame_iff (v : Fin 32) : (∀ (s : Core) (e faultHandler pageFault link : U32), 80 ≤ s.cpu.esp.toNat →
    RegsGiven s.cpu (BitVec.ofNat 32 v) (if pushesErrorCode v then e else 0)
      (enterFault v e faultHandler pageFault link s)) ↔ v ≠ 17 := by
  refine ⟨?_, fun hv s e f p l hroom => (regs_called (fun h => hv (Fin.ext h)) e f p l s hroom).given⟩
  rintro h rfl
  have h1 := h ⟨⟨0, 0, 0, 0, 0x1000, 0, 0, 0, 0, 0, 0, 0, 0, 0, 0⟩, ⟨fun _ => 0, []⟩⟩ 1 0 0 0 (by decide)
  have h2 := alignment_given 1 0 0 0 _ (by decide) h1
  exact absurd h2.1 (by decide)

/-! The way back. -/

/-- What the handlers leave of their frame: it may only be overwritten below the `struct regs`. -/
def FrameKept (t : Core) (m' : Mem) : Prop := ∀ x, InSpan (t.cpu.esp + 8) 68 x → m'.byte x = t.mem.byte x

theorem regs_return {a : Cpu} {v e : U32} (h : Holds m (s.cpu.esp + 4) (regsSlots a v e)) (hm : s.mem = m)
    (he : s.cpu.esp + 4 + 68 = a.esp) : runCode irqReturn s = { cpu := a, mem := m } := by
  subst hm
  refine irqReturn_spec (h.forget ?_) he
  simp [Forgets, regsSlots, irqSlots]

/-- **An exception whose handler returns** goes on where it came from, with every register
and segment as it was: for 14 the instruction that faulted is tried again. -/
theorem fault_resumes {v : Nat} (hv : v ≠ 17) (e faultHandler pageFault link : U32) {s : Core}
    (hroom : 80 ≤ s.cpu.esp.toNat) {c : Cpu} {m' : Mem}
    (hesp : c.esp = (enterFault v e faultHandler pageFault link s).cpu.esp + 4)
    (hkept : FrameKept (enterFault v e faultHandler pageFault link s) m') :
    runCode irqReturn ⟨c, m'⟩ = ⟨s.cpu, m'⟩ := by
  have hcalled := regs_called hv e faultHandler pageFault link s hroom
  generalize enterFault v e faultHandler pageFault link s = t at hesp hkept hcalled
  have hdepth : t.cpu.esp.toNat + 76 = s.cpu.esp.toNat := hcalled.depth
  have hframe : c.esp + 4 = t.cpu.esp + 8 := by rw [hesp]; bv_omega
  have e8 : (t.cpu.esp + 8).toNat = t.cpu.esp.toNat + 8 := by bv_omega
  have hheld : Holds t.mem (t.cpu.esp + 8) (regsSlots s.cpu (BitVec.ofNat 32 v) (if pushesErrorCode v then e else 0)) := by
    have hg := hcalled.given
    rwa [show t.mem.load32 (t.cpu.esp + 4) = t.cpu.esp + 8 from hcalled.holds.2.1] at hg
  have hheld' : Holds m' (c.esp + 4) (regsSlots s.cpu (BitVec.ofNat 32 v) (if pushesErrorCode v then e else 0)) := by
    rw [hframe]
    exact hheld.congr (by rw [e8]; show _ + 68 ≤ 2 ^ 32; omega) hkept
  refine @regs_return m' ⟨c, m'⟩ s.cpu _ _ hheld' rfl ?_
  show c.esp + 4 + 68 = s.cpu.esp
  rw [hframe]
  bv_omega

end

def sampleCore : Core :=
  ⟨⟨1, 2, 3, 4, 0x1000, 5, 6, 7, 0x10, 8, 8, 8, 8, 0x202, 0xC0100000⟩, ⟨fun _ => 0xCC, []⟩⟩

/-- The handler stores an entry at 0x5000, off the frame, and uses the registers. -/
theorem fault_resumes_sample :
    let t := enterFault 14 2 0xC0100200 0xC0100300 0xC0100400 sampleCore
    let m := t.mem.store32 0x5000 0x7003
    m.byte 0x5000 ≠ t.mem.byte 0x5000 ∧
      runCode irqReturn ⟨{ t.cpu with esp := t.cpu.esp + 4, eax := 9 }, m⟩ = ⟨sampleCore.cpu, m⟩ := by
  intro t m
  have hesp : (t.cpu.esp + 8).toNat = 0xFBC := by decide +kernel
  have hw : WritesOnly (InSpan 0x5000 4) t.mem m := WritesOnly.store32 _ _ (by decide) fun _ hx => hx
  refine ⟨by decide +kernel, fault_resumes (by decide) 2 0xC0100200 0xC0100300 0xC0100400 (by decide) rfl fun x hx => ?_⟩
  refine hw.2 x fun hx' => ?_
  have h5 : (0x5000 : U32).toNat = 0x5000 := rfl
  have hlo : x.toNat < (t.cpu.esp + 8).toNat + 68 := hx.2
  rw [hesp] at hlo
  unfold InSpan at hx'
  omega

end LineOS
