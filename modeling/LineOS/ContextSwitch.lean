import LineOS.Cpu
import LineOS.ProcessMem
import LineOS.SlotStack

/- What the assembly does to a stack, slot by slot. Three pieces of code lay out
   frames: `irq_common_stub` when an interrupt comes (`irqSlots`), `switchTo` when
   a process gives up the processor, and `setup_kernel_process` for a process that
   has never run (both `switchSlots`). Two pieces take them apart again: the stub's
   end (`irqReturn_spec`) and the end of `switchTo` (`restore_spec`). A frame is
   described by the processor state it restores. -/
namespace LineOS
open ByteMemory ByteMemory.Mem SlotStack

/-- The frame the stub leaves on the stack of whoever was interrupted in state `a`. -/
def irqSlots (a : Cpu) : List Slot :=
  [.half a.gs, .half a.fs, .half a.es, .half a.ds,
    .word a.edi, .word a.esi, .word a.ebp, .any, .word a.ebx, .word a.edx, .word a.ecx, .word a.eax,
    .any, .any, .word a.eip, .half a.cs, .word a.eflags]

/-- The frame from which the end of `switchTo` restores `a`. -/
def switchSlots (a : Cpu) : List Slot :=
  [.word a.edi, .word a.esi, .word a.ebp, .any, .word a.ebx, .word a.edx, .word a.ecx, .word a.eax,
    .half a.gs, .half a.fs, .half a.ds, .half a.es, .word a.eip, .half a.cs, .word a.eflags]

/-! Pushing. -/

/-- The slots pushed since the stack pointer was `e₀`, with room for `n` more. -/
structure Pushed (m₀ : Mem) (e₀ : U32) (n : Nat) (s : Core) (ss : List Slot) : Prop where
  holds : Holds s.mem s.cpu.esp ss
  depth : s.cpu.esp.toNat + 4 * ss.length = e₀.toNat
  room : 4 * n ≤ s.cpu.esp.toNat
  writes : WritesOnly (fun x => s.cpu.esp.toNat ≤ x.toNat ∧ x.toNat < e₀.toNat) m₀ s.mem

section
variable {m₀ : Mem} {e₀ : U32} {n : Nat} {s s' : Core} {ss : List Slot} {a : Cpu}

theorem Pushed.start (h : 4 * n ≤ s.cpu.esp.toNat) : Pushed s.mem s.cpu.esp n s [] :=
  ⟨trivial, rfl, h, WritesOnly.refl _⟩

theorem Pushed.keep (h : Pushed m₀ e₀ n s ss) (hm : s'.mem = s.mem) (he : s'.cpu.esp = s.cpu.esp) :
    Pushed m₀ e₀ n s' ss := by
  obtain ⟨h1, h2, h3, h4⟩ := h
  refine ⟨?_, ?_, ?_, ?_⟩
  · rw [hm, he]
    exact h1
  · rw [he]
    exact h2
  · rw [he]
    exact h3
  · rw [hm, he]
    exact h4

theorem Pushed.step {v : Slot} (h : Pushed m₀ e₀ (n + 1) s ss) (he : s'.cpu.esp = s.cpu.esp - 4)
    (hw : WritesOnly (InSpan (s.cpu.esp - 4) 4) s.mem s'.mem)
    (hv : Holds s'.mem (s.cpu.esp - 4) (v :: ss)) : Pushed m₀ e₀ n s' (v :: ss) := by
  have hroom := h.room
  have hdepth := h.depth
  have e4 : (s.cpu.esp - 4).toNat = s.cpu.esp.toNat - 4 := push_addr (by omega)
  refine ⟨he ▸ hv, ?_, ?_, ?_⟩
  · rw [he, e4, List.length_cons]
    omega
  · rw [he, e4]
    omega
  · rw [he]
    refine (h.writes.mono fun x hx => ?_).trans (hw.mono fun x hx => ?_)
    · omega
    · unfold InSpan at hx
      omega

theorem Pushed.top (h : Pushed m₀ e₀ n s ss) : s.cpu.esp.toNat + 4 * ss.length ≤ 2 ^ 32 := by
  have := h.depth
  omega

theorem Pushed.push (h : Pushed m₀ e₀ (n + 1) s ss) (w : U32) : Pushed m₀ e₀ n (s.push w) (.word w :: ss) := by
  have hroom := h.room
  exact h.step rfl (writes_push w (by omega)) (h.holds.push (by omega) h.top w)

theorem Pushed.pushHalf (h : Pushed m₀ e₀ (n + 1) s ss) (w : U16) :
    Pushed m₀ e₀ n (s.pushHalf w) (.half w :: ss) := by
  have hroom := h.room
  exact h.step rfl (writes_pushHalf w (by omega)) (h.holds.pushHalf (by omega) h.top w)

theorem Pushed.forget {tt : List Slot} (h : Pushed m₀ e₀ n s ss) (hst : Forgets ss tt) : Pushed m₀ e₀ n s tt := by
  refine ⟨h.holds.forget hst, ?_, h.room, h.writes⟩
  rw [← hst.length_eq]
  exact h.depth

/-- `pushad` lays its eight words out as `popad` takes them. -/
theorem Pushed.pushad (h : Pushed m₀ e₀ (n + 8) s ss) : Pushed m₀ e₀ n s.pushad
    (.word s.cpu.edi :: .word s.cpu.esi :: .word s.cpu.ebp :: .word s.cpu.esp ::
      .word s.cpu.ebx :: .word s.cpu.edx :: .word s.cpu.ecx :: .word s.cpu.eax :: ss) := by
  have h := (((h.push s.cpu.eax).push s.cpu.ecx).push s.cpu.edx).push s.cpu.ebx
  exact (((h.push s.cpu.esp).push s.cpu.ebp).push s.cpu.esi).push s.cpu.edi

end

/-! The stub. -/

def enterIrq (handler link irq : U32) (s : Core) : Core :=
  runCode (irqStub handler link) (runCode (irqCode irq) s.interrupt)

def saveRegs : List Instr := [.pushad, .pushSeg .ds, .pushSeg .es, .pushSeg .fs, .pushSeg .gs]

/-- The kernel's data segments, and `eax` for the argument. -/
def dataSegments : List Instr :=
  [.movAx 0x08, .movSeg .ds, .movSeg .es, .movSeg .fs, .movSeg .gs, .mov .eax .esp]

section
variable {m₀ : Mem} {e₀ : U32} {n : Nat} {s : Core} {ss : List Slot}

theorem saveRegs_pushed (h : Pushed m₀ e₀ (n + 12) s ss) : Pushed m₀ e₀ n (runCode saveRegs s)
    (.half s.cpu.gs :: .half s.cpu.fs :: .half s.cpu.es :: .half s.cpu.ds ::
      .word s.cpu.edi :: .word s.cpu.esi :: .word s.cpu.ebp :: .word s.cpu.esp ::
      .word s.cpu.ebx :: .word s.cpu.edx :: .word s.cpu.ecx :: .word s.cpu.eax :: ss) := by
  have hrun : runCode saveRegs s =
      (((s.pushad.pushHalf s.cpu.ds).pushHalf s.cpu.es).pushHalf s.cpu.fs).pushHalf s.cpu.gs := by
    simp only [runCode, saveRegs, List.foldl_cons, List.foldl_nil, Instr.step, Cpu.seg, pushHalf_cpu, pushad_cpu]
  rw [hrun]
  exact (((h.pushad.pushHalf s.cpu.ds).pushHalf s.cpu.es).pushHalf s.cpu.fs).pushHalf s.cpu.gs

theorem dataSegments_pushed (h : Pushed m₀ e₀ n s ss) : Pushed m₀ e₀ n (runCode dataSegments s) ss := by
  refine h.keep ?_ ?_
  · simp only [runCode, dataSegments, List.foldl_cons, List.foldl_nil, Instr.step, Core.setReg]
  · simp only [runCode, dataSegments, List.foldl_cons, List.foldl_nil, Instr.step, Core.setReg, Cpu.setReg, Cpu.setSeg]

theorem irqCode_pushed (irq : U32) (h : Pushed m₀ e₀ (n + 2) s ss) :
    Pushed m₀ e₀ n (runCode (irqCode irq) s) (.word (32 + irq) :: .word 0 :: ss) ∧
      (runCode (irqCode irq) s).cpu =
        { s.cpu with esp := s.cpu.esp - 4 - 4, eflags := (runCode (irqCode irq) s).cpu.eflags } := by
  unfold irqCode
  split
  · exact ⟨(h.push 0).push (32 + irq), rfl⟩
  · have hc : Pushed m₀ e₀ (n + 2) (Instr.cli.step s) ss := h.keep rfl rfl
    exact ⟨(hc.push 0).push (32 + irq), rfl⟩

end

/-- The stub lays the interrupted state out under the stack pointer, with the
argument and the return address of `irq_handler` below. -/
theorem enterIrq_spec (handler link irq : U32) {s : Core} (hroom : 76 ≤ s.cpu.esp.toNat) :
    Pushed s.mem s.cpu.esp 0 (enterIrq handler link irq s) (.any :: .any :: irqSlots s.cpu) := by
  have h0 : Pushed s.mem s.cpu.esp 19 s [] := Pushed.start (by omega)
  have h3 : Pushed s.mem s.cpu.esp 16 s.interrupt [.word s.cpu.eip, .half s.cpu.cs, .word s.cpu.eflags] :=
    (((h0.push s.cpu.eflags).pushHalf s.cpu.cs).push s.cpu.eip).keep rfl rfl
  obtain ⟨h5, hcpu⟩ := irqCode_pushed irq h3
  have h17 := dataSegments_pushed (saveRegs_pushed h5)
  rw [hcpu, interrupt_cpu] at h17
  have hstub : irqStub handler link = saveRegs ++ (dataSegments ++ [.push .eax, .movImm .eax handler, .call link]) := rfl
  unfold enterIrq
  rw [hstub, runCode_append, runCode_append]
  generalize runCode dataSegments (runCode saveRegs (runCode (irqCode irq) s.interrupt)) = u at h17 ⊢
  have hset : Pushed s.mem s.cpu.esp 1 ((u.push u.cpu.eax).setReg .eax handler) _ := (h17.push u.cpu.eax).keep rfl rfl
  refine (hset.push link).forget ?_
  simp [Forgets, irqSlots]

theorem irqReturn_spec {s : Core} {a : Cpu} (h : Holds s.mem (s.cpu.esp + 4) (irqSlots a))
    (he : s.cpu.esp + 4 + 68 = a.esp) : runCode irqReturn s = { cpu := a, mem := s.mem } := by
  simp only [irqSlots, Holds, Slot.In] at h
  obtain ⟨hgs, hfs, hes, hds, hedi, hesi, hebp, -, hebx, hedx, hecx, heax, -, -, heip, hcs, hfl, -⟩ := h
  have h8 : ∀ x : U32, x + 8 = x + 4 + 4 := fun x => by rw [BitVec.add_assoc]; rfl
  have hesp : s.cpu.esp + 4 + 4 + 4 + 4 + 4 + 4 + 4 + 4 + 4 + 4 + 4 + 4 + 4 + 4 + 4 + 4 + 4 + 4 = a.esp := by
    rw [← he]
    simp only [BitVec.add_assoc]
    rfl
  simp only [runCode, irqReturn, List.foldl_cons, List.foldl_nil, Instr.step, Core.popReg, Core.popSeg, Core.popad,
    Core.iret, Core.setReg, Core.drop, Core.top, Cpu.setReg, Cpu.setSeg, Cpu.reg, h8]
  rw [hgs, hfs, hes, hds, hedi, hesi, hebp, hebx, hedx, hecx, heax, heip, hcs, hfl, hesp]

/-! `switchTo`. -/

/-- `switchTo` up to the frame it leaves on the stack. -/
def saveCode : List Instr :=
  [.pop .eax, .pushfd, .pushSeg .cs, .push .eax, .pushSeg .es, .pushSeg .ds, .pushSeg .fs, .pushSeg .gs, .pushad]

/-- The change of `k_proclist.current` and of the stack. -/
def swapCode (klist : U32) : List Instr :=
  [.loadAbs .eax klist, .cmp .eax 0, .jzOver (.store .eax .esp), .load .eax .esp 60, .storeAbs klist .eax,
    .load .esp .eax 0]

def restoreCode : List Instr := [.popad, .popSeg .gs, .popSeg .fs, .popSeg .ds, .popSeg .es, .iret]

theorem switchToCode_eq (klist : U32) : switchToCode klist = saveCode ++ (swapCode klist ++ restoreCode) := rfl

/-- What a call of `switchTo` in state `a` leaves to be restored: the state at its
return, with the return address in `eax`. -/
def returned (a : Cpu) (ret : U32) : Cpu := { a with esp := a.esp + 4, eip := ret, eax := ret }

theorem save_spec {s : Core} (hroom : 56 ≤ s.cpu.esp.toNat) (htop : s.cpu.esp.toNat + 4 < 2 ^ 32) :
    Pushed s.mem (s.cpu.esp + 4) 0 (runCode saveCode s) (switchSlots (returned s.cpu s.top)) := by
  have e4 : (s.cpu.esp + 4).toNat = s.cpu.esp.toNat + 4 := by bv_omega
  have hpop : (s.popReg .eax).cpu = { s.cpu with esp := s.cpu.esp + 4, eax := s.top } := rfl
  have h0 : Pushed s.mem (s.cpu.esp + 4) 15 (s.popReg .eax) [] :=
    @Pushed.start 15 (s.popReg .eax) (by rw [hpop]; show 4 * 15 ≤ (s.cpu.esp + 4).toNat; omega)
  have h3 := ((h0.push s.cpu.eflags).pushHalf s.cpu.cs).push s.top
  have h7 := (((h3.pushHalf s.cpu.es).pushHalf s.cpu.ds).pushHalf s.cpu.fs).pushHalf s.cpu.gs
  have hrun : runCode saveCode s = (((((((((s.popReg .eax).push s.cpu.eflags).pushHalf s.cpu.cs).push s.top).pushHalf
      s.cpu.es).pushHalf s.cpu.ds).pushHalf s.cpu.fs).pushHalf s.cpu.gs).pushad) := by
    simp only [runCode, saveCode, List.foldl_cons, List.foldl_nil, Instr.step, Cpu.seg, Cpu.reg, push_cpu,
      pushHalf_cpu, hpop]
  rw [hrun]
  refine h7.pushad.forget ?_
  simp [Forgets, switchSlots, returned, push_cpu, pushHalf_cpu, hpop]

/-- The middle of `switchTo`: with no current process nothing is saved. -/
theorem swap_spec (klist : U32) (s : Core) :
    let m := if s.mem.load32 klist = 0 then s.mem else s.mem.store32 (s.mem.load32 klist) s.cpu.esp
    let next := m.load32 (s.cpu.esp + 60)
    (runCode (swapCode klist) s).mem = m.store32 klist next ∧
      (runCode (swapCode klist) s).cpu.esp = (m.store32 klist next).load32 next := by
  have h0 : ∀ x : U32, x + 0 = x := fun x => by simp
  simp only [runCode, swapCode, List.foldl_cons, List.foldl_nil, Instr.step, Core.setReg, Cpu.setReg, Cpu.reg,
    zeroFlag_subFlags, decide_eq_true_eq, h0]
  split
  · exact ⟨rfl, rfl⟩
  · exact ⟨rfl, rfl⟩

theorem restore_spec {s : Core} {a : Cpu} (h : Holds s.mem s.cpu.esp (switchSlots a)) (he : s.cpu.esp + 60 = a.esp) :
    runCode restoreCode s = { cpu := a, mem := s.mem } := by
  simp only [switchSlots, Holds, Slot.In] at h
  obtain ⟨hedi, hesi, hebp, -, hebx, hedx, hecx, heax, hgs, hfs, hds, hes, heip, hcs, hfl, -⟩ := h
  have hesp : s.cpu.esp + 4 + 4 + 4 + 4 + 4 + 4 + 4 + 4 + 4 + 4 + 4 + 4 + 4 + 4 + 4 = a.esp := by
    rw [← he]
    simp only [BitVec.add_assoc]
    rfl
  simp only [runCode, restoreCode, List.foldl_cons, List.foldl_nil, Instr.step, Core.popReg, Core.popSeg, Core.popad,
    Core.iret, Core.setReg, Core.drop, Core.top, Cpu.setReg, Cpu.setSeg]
  rw [hgs, hfs, hes, hds, hedi, hesi, hebp, hebx, hedx, hecx, heax, heip, hcs, hfl, hesp]

/-! A new process. -/

/-- The state from which a process with the stack pointer `top` starts. -/
def freshCpu (proc top : U32) : Cpu :=
  { eax := 0, ecx := 0, edx := 0, ebx := 0, esp := top, ebp := 0, esi := 8, edi := 8,
    cs := 0x10, ds := 0x08, es := 0x08, fs := 0x08, gs := 0x08, eflags := 0x202, eip := proc }

/-- Words stored downwards are slots, the last one lowest. -/
theorem storeDown_holds : ∀ (ws : List U32) (a e : U32) (m : Mem) (ss : List Slot), Holds m (a + 4) ss →
    a.toNat + 4 + 4 * ss.length ≤ 2 ^ 32 → a.toNat + 4 < 2 ^ 32 → e.toNat + 4 * ws.length = a.toNat + 4 →
    Holds (storeDown a ws m) e (ws.reverse.map Slot.word ++ ss)
  | [], a, e, m, ss, h, _, htop, he => by
    obtain rfl : e = a + 4 := by
      rw [List.length_nil] at he
      bv_omega
    exact h
  | w :: ws, a, e, m, ss, h, hss, htop, he => by
    have e4 : (a + 4).toNat = a.toNat + 4 := by bv_omega
    have ha : a + 4 - 4 = a := by rw [BitVec.add_sub_cancel]
    have h1 := h.push (by omega) (by omega) w
    rw [ha] at h1
    rw [storeDown, List.reverse_cons, List.map_append, List.append_assoc]
    rw [List.length_cons] at he
    by_cases hn : ws = []
    · subst hn
      obtain rfl : e = a := by
        rw [List.length_nil] at he
        bv_omega
      exact h1
    · have hpos : 0 < ws.length := List.length_pos_iff.2 hn
      have hsub : (a - 4).toNat = a.toNat - 4 := by bv_omega
      have hback : a - 4 + 4 = a := pop_push a
      refine storeDown_holds ws (a - 4) e _ (.word w :: ss) ?_ ?_ (by omega) (by omega)
      · rw [hback]
        exact h1
      · rw [List.length_cons]
        omega

/-- `setup_kernel_process` forges the frame from which the process starts. -/
theorem setup_spec {m : Mem} {p top : U32} (proc : U32) (hesp : m.load32 p = top) (hlo : 60 ≤ top.toNat)
    (hhi : top.toNat + 4 < 2 ^ 32) (hp : p.toNat + 84 ≤ 2 ^ 32)
    (hoff : ∀ x, InSpan p 84 x → ¬ FrameByte top x) :
    Holds (setupKernelProcess p proc m) (top - 60) (switchSlots (freshCpu proc top)) ∧
      (setupKernelProcess p proc m).load32 p = top - 60 := by
  have e60 : (top - 60).toNat = top.toNat - 60 := by bv_omega
  have hlen : (initialFrame p proc).length = 16 := rfl
  have hwords := storeDown_holds (initialFrame p proc) top (top - 60) m [] trivial
    (by rw [List.length_nil]; omega) hhi (by omega)
  have hset : setupKernelProcess p proc m = setupFields p (top - 60) (storeDown top (initialFrame p proc) m) := by
    rw [setupKernelProcess, hesp]
    rfl
  rw [hset]
  generalize storeDown top (initialFrame p proc) m = m₁ at hwords ⊢
  refine ⟨?_, setupFields_esp _ hp⟩
  have hkeep : Holds (setupFields p (top - 60) m₁) (top - 60) ((initialFrame p proc).reverse.map Slot.word ++ []) := by
    refine hwords.congr ?_ fun x hx => (setupFields_writes _ hp).2 x fun hx' => hoff x hx' ?_
    · simp only [List.append_nil, List.length_map, List.length_reverse, hlen]
      omega
    · simp only [List.append_nil, List.length_map, List.length_reverse, hlen] at hx
      obtain ⟨h1, h2⟩ := hx
      exact ⟨by omega, by omega⟩
  simp only [initialFrame, List.reverse_cons, List.reverse_nil, List.nil_append, List.cons_append, List.map_cons,
    List.map_nil, Holds, Slot.In] at hkeep
  simp only [switchSlots, freshCpu, Holds, Slot.In]
  obtain ⟨h1, h2, h3, -, h5, h6, h7, h8, h9, h10, h11, h12, h13, h14, h15, -⟩ := hkeep
  rw [h1, h2, h3, h5, h6, h7, h8, h9, h10, h11, h12, h13, h14, h15]
  simp

end LineOS
