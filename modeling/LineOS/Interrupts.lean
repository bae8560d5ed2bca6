import LineOS.SleepInterrupt
import LineOS.SwitchRun

/- Interrupts and the two 8259s. `Board` is the kernel with its processor, both
   controllers and what the running code has still to do, as a list of statements:
   an interrupt puts the stub and `irq_handler` in front of it, a call of
   `schedule` its own tail, and `switchTo` parks it with the process and takes up
   what another process had left. Between statements the code does what it likes
   to registers and memory; an interrupt can come whenever IF is set and no
   interrupt of its priority or a higher one is in service.

   An IRQ is acknowledged in `irq_handler`, or in `schedule` when that switches
   away, possibly on behalf of another process. `Acks` is what a list of
   statements needs for nothing to be in service whenever it enables interrupts;
   each step keeps it for the running code and for every parked one
   (`boardStep_settles`), whence `no_irq_in_service`. -/
namespace LineOS
open ByteMemory

/-! The controllers. -/

/-- The non-specific EOI: the lowest bit set, which has the highest priority, is cleared. -/
def eoi (isr : BitVec 8) : BitVec 8 := isr &&& (isr - 1)

/-- In fully nested mode a line is held off by those in service up to itself. -/
def HeldOff (isr : BitVec 8) (line : Nat) : Prop := ∃ k ≤ line, isr.getLsbD k = true

structure Pics where
  master : BitVec 8
  slave : BitVec 8
  deriving DecidableEq

namespace Pics

def idle : Pics := ⟨0, 0⟩

/-- `outportb`: the value 0x20 at a command port is the EOI. -/
def outportb (port : U16) (value : BitVec 8) (p : Pics) : Pics :=
  if value = 0x20 then
    if port = 0x20 then { p with master := eoi p.master }
    else if port = 0xA0 then { p with slave := eoi p.slave }
    else p
  else p

/-- IRQ 8 to 15 are lines of the slave, which is line 2 of the master. -/
def accept (irq : Fin 16) (p : Pics) : Pics :=
  if irq.val < 8 then { p with master := p.master ||| 1 <<< irq.val }
  else { master := p.master ||| 1 <<< 2, slave := p.slave ||| 1 <<< (irq.val - 8) }

def Deliverable (irq : Fin 16) (p : Pics) : Prop :=
  if irq.val < 8 then ¬ HeldOff p.master irq.val
  else ¬ HeldOff p.master 2 ∧ ¬ HeldOff p.slave (irq.val - 8)

theorem idle_deliverable (irq : Fin 16) : idle.Deliverable irq := by
  have h : ∀ line, ¬ HeldOff 0 line := by
    rintro line ⟨k, -, hk⟩
    simp at hk
  unfold Deliverable
  split
  · exact h _
  · exact ⟨h _, h _⟩

end Pics

/-! The code. -/

def interruptFlag (f : U32) : Bool := f.getLsbD 9

def setIf (f : U32) : U32 := f ||| 0x200

inductive Stmt where
  | expireTicks
  | setState
  | setTimeout (ticks : U32)
  /-- `list_del` and `kfree` of the current process -/
  | free
  | disableInts
  | enableInts
  | schedule
  | accountTicks (p : U32)
  /-- `switchTo` up to the change of stacks -/
  | switchTo (p : U32)
  | handler (irq : Fin 16)
  | outportb (port : U16) (value : BitVec 8)
  /-- The end of the stub or of `switchTo`, on the frame of a record. -/
  | restore (r : Record)

def processExpireBody : List Stmt := [.expireTicks, .disableInts, .schedule, .enableInts]

def processSleepBody (ticks : U32) : List Stmt := .setState :: .setTimeout ticks :: processExpireBody

def processEndBody : List Stmt := .free :: processExpireBody

def scheduleTail (nextproc : U32) : List Stmt := [.outportb 0x20 0x20, .accountTicks nextproc, .switchTo nextproc]

def timerHandlerBody : List Stmt := [.schedule]

/-- `press`; `ps` and `dump_heap_stats` only print. -/
def pressBody (scancode : U32) : List Stmt := if scancode = 0x48 then [.schedule] else []

/-- The handlers `init_timer` and `init_pic` set in `k_irq_routines`. -/
def kIrqRoutines (scancode : U32) (irq : Fin 16) : List Stmt :=
  if irq.val = 0 then timerHandlerBody else if irq.val = 1 then pressBody scancode else []

def irqHandlerBody (irq : Fin 16) : List Stmt :=
  .handler irq :: ((if 40 ≤ 32 + irq.val then [.outportb 0xA0 0x20] else []) ++ [.outportb 0x20 0x20])

/-- `_irq0` to `_irq15` with the stub and `irq_handler`, after an interrupt in the state `a`. -/
def irqBody (irq : Fin 16) (a : Cpu) : List Stmt :=
  (if irq.val = 1 then [] else [.disableInts]) ++ (irqHandlerBody irq ++ [.restore (.irq a)])

structure Board where
  kernel : Kernel
  core : Core
  pics : Pics
  /-- What is left of the calls and interrupts the running code is in. -/
  code : List Stmt
  /-- The same, of the processes that have been switched away from. -/
  parked : U32 → List Stmt

namespace Board

def enabled (s : Board) : Bool := interruptFlag s.core.cpu.eflags

def setFlags (f : U32) (s : Board) : Board :=
  { s with core := { s.core with cpu := { s.core.cpu with eflags := f } } }

/-- `switchTo`, called with the return address `ret`, saves the current process, if there is one. -/
def park (ret : U32) (s : Board) : U32 → List Stmt :=
  if s.kernel.proclist.current = 0 then s.parked
  else Function.update s.parked s.kernel.proclist.current (.restore (.call s.core.cpu ret) :: s.code)

end Board

/-- What the key 0x50 leaves of the process structures, which are in the heap it writes over. -/
def overwriteHeap (mem : U32 → Process) (list : List U32) (s : Kernel) : Kernel :=
  { s with proc := mem, proclist := { s.proclist with list := list } }

/-- What running a statement makes of the machine, whose code is what follows the statement. -/
inductive StmtStep : Stmt → Board → Board → Prop
  | expireTicks {s} : StmtStep .expireTicks s { s with kernel := expireCurrent s.kernel }
  | setState {s} : StmtStep .setState s { s with kernel := setSleeping s.kernel }
  | setTimeout {n s} : StmtStep (.setTimeout n) s { s with kernel := setTimeout n s.kernel }
  | free {s} : StmtStep .free s { s with kernel := freeCurrent s.kernel }
  | disableInts {s} : StmtStep .disableInts s (s.setFlags (clearIf s.core.cpu.eflags))
  | enableInts {s} : StmtStep .enableInts s (s.setFlags (setIf s.core.cpu.eflags))
  | scheduleReturn {s k} : scheduleEntry s.kernel = .returned k → StmtStep .schedule s { s with kernel := k }
  | scheduleSwitch {s k p k'} (fuel : Nat) : scheduleEntry s.kernel = .searching k →
      selectNextProcess fuel k = (some p, k') →
      StmtStep .schedule s
        { s with kernel := modify p (fun q => { q with state := .running }) k', code := scheduleTail p ++ s.code }
  | accountTicks {p s} : StmtStep (.accountTicks p) s { s with kernel := accountTicks p s.kernel }
  | switchTo {p s} (ret : U32) :
      StmtStep (.switchTo p) s
        { s with kernel := switchTo p s.kernel, code := s.park ret p, parked := s.park ret }
  | handler {irq s} (scancode : U32) : StmtStep (.handler irq) s { s with code := kIrqRoutines scancode irq ++ s.code }
  | corrupt {irq s} (mem : U32 → Process) (list : List U32) : irq.val = 1 →
      StmtStep (.handler irq) s
        { s with kernel := overwriteHeap mem list s.kernel, code := kIrqRoutines 0x50 irq ++ s.code }
  | outportb {port value s} : StmtStep (.outportb port value) s { s with pics := s.pics.outportb port value }
  | restore {r s} : StmtStep (.restore r) s { s with core := { s.core with cpu := r.resume } }

/-- What a process does between calls, or `main` before the first switch. -/
inductive TaskCall : Board → Board → Prop
  | expire {s} : TaskCall s { s with code := processExpireBody }
  | sleep {s} (ticks : U32) : TaskCall s { s with code := processSleepBody ticks }
  | exit {s} : TaskCall s { s with code := processEndBody }
  | disableInts {s} : TaskCall s { s with code := [.disableInts] }
  | enableInts {s} : TaskCall s { s with code := [.enableInts] }
  | preempt {s} (on : Bool) :
      TaskCall s { s with kernel := { s.kernel with proclist := { s.kernel.proclist with kernelPreempt := on } } }
  | create {s} (p k proc top : U32) :
      TaskCall s
        { s with
          kernel := (createProcess p k s.kernel).2
          parked := if p = 0 then s.parked else Function.update s.parked p [.restore (.fresh proc top)] }

inductive BoardStep : Board → Board → Prop
  | work {s} (core : Core) : interruptFlag core.cpu.eflags = s.enabled → BoardStep s { s with core := core }
  | call {s s'} : s.code = [] → TaskCall s s' → BoardStep s s'
  | irq {s} (irq : Fin 16) : s.enabled = true → s.pics.Deliverable irq →
      BoardStep s
        { s with core := s.core.interrupt, pics := s.pics.accept irq, code := irqBody irq s.core.cpu ++ s.code }
  | run {s s' st rest} : s.code = st :: rest → StmtStep st { s with code := rest } s' → BoardStep s s'

inductive BoardRun : Board → Prop
  | start (mem : U32 → Process) (core : Core) : BoardRun ⟨initProcess mem, core, .idle, [], fun _ => []⟩
  | step {s s'} : BoardRun s → BoardStep s s' → BoardRun s'

/-! What a list of statements needs. -/

/-- Run with IF as in `i` and `p` in service, the statements leave nothing in service
whenever they have interrupts on, nor at their end, nor when they switch away. -/
def Acks : List Stmt → Bool → Pics → Prop
  | [], _, p => p = .idle
  | st :: c, i, p =>
    (i = true → p = .idle) ∧
      match st with
      | .disableInts => Acks c false p
      | .enableInts => Acks c true p
      | .restore r => Acks c (interruptFlag r.resume.eflags) p
      | .outportb port value => Acks c i (p.outportb port value)
      | .schedule => Acks c i p ∧ p.outportb 0x20 0x20 = .idle ∧ Acks c i .idle
      | .switchTo _ => p = .idle ∧ Acks c i .idle
      | .handler irq => Acks c i p ∧ (irq.val < 2 → p.outportb 0x20 0x20 = .idle ∧ Acks c i .idle)
      | _ => Acks c i p

structure Settles (s : Board) : Prop where
  running : Acks s.code s.enabled s.pics
  parked : ∀ p i, Acks (s.parked p) i .idle

section

variable {s s' : Board} {c : List Stmt} {i : Bool} {p : Pics} {st : Stmt}

theorem Acks.quiet (h : Acks c i p) (hi : i = true) : p = .idle := by
  cases c with
  | nil => exact h
  | cons st c => exact h.1 hi

theorem clearIf_off (f : U32) : interruptFlag (clearIf f) = false := by
  simp [interruptFlag, clearIf]

theorem setIf_on (f : U32) : interruptFlag (setIf f) = true := by
  simp [interruptFlag, setIf]

theorem interrupt_off (s : Core) : interruptFlag s.interrupt.cpu.eflags = false := by
  simp [interruptFlag, interrupt_cpu]

theorem Pics.outportb_idle (port : U16) (value : BitVec 8) : idle.outportb port value = idle := by
  have h : eoi 0 = 0 := by decide
  unfold Pics.outportb
  simp only [idle, h, ite_self]

/-- `schedule` switching away: the EOI, and then everybody finds nothing in service. -/
theorem Acks.schedule {q : U32} (h : Acks (.schedule :: c) i p) : Acks (scheduleTail q ++ c) i p := by
  obtain ⟨hi, -, heoi, hc⟩ := h
  show (_ ∧ _ ∧ _ ∧ _)
  rw [heoi]
  exact ⟨hi, fun _ => rfl, fun _ => rfl, rfl, hc⟩

theorem Acks.handler {irq : Fin 16} (scancode : U32) (h : Acks (.handler irq :: c) i p) :
    Acks (kIrqRoutines scancode irq ++ c) i p := by
  obtain ⟨hi, hc, hs⟩ := h
  have hsched : irq.val < 2 → Acks (.schedule :: c) i p := fun hlt => ⟨hi, hc, hs hlt⟩
  unfold kIrqRoutines
  split
  · next h0 => exact hsched (by omega)
  · split
    · next h1 =>
      unfold pressBody
      split
      · exact hsched (by omega)
      · exact hc
    · exact hc

/-- What the controllers make of the EOIs of one interrupt: of `schedule` called by a handler,
and of `irq_handler` for the slave's lines and the master's. -/
theorem accept_acked : ∀ irq : Fin 16,
    (irq.val < 2 → (Pics.idle.accept irq).outportb 0x20 0x20 = .idle) ∧
      (40 ≤ 32 + irq.val → ((Pics.idle.accept irq).outportb 0xA0 0x20).outportb 0x20 0x20 = .idle) ∧
      (¬ 40 ≤ 32 + irq.val → (Pics.idle.accept irq).outportb 0x20 0x20 = .idle) := by decide

theorem Acks.irq (irq : Fin 16) {a : Cpu} (ha : interruptFlag a.eflags = true) (h : Acks c true .idle) :
    Acks (irqBody irq a ++ c) false (Pics.idle.accept irq) := by
  obtain ⟨hsched, hslave, hmaster⟩ := accept_acked irq
  have hlast : ∀ p : Pics, p.outportb 0x20 0x20 = .idle →
      Acks (.outportb 0x20 0x20 :: .restore (.irq a) :: c) false p := by
    intro p hp
    refine ⟨nofun, nofun, ?_⟩
    show Acks c (interruptFlag a.eflags) (p.outportb 0x20 0x20)
    rwa [ha, hp]
  -- the EOIs after the handler, which `schedule` may have acknowledged already
  have heoi : ∀ p : Pics, p = .idle ∨ p = Pics.idle.accept irq →
      Acks ((if 40 ≤ 32 + irq.val then [.outportb 0xA0 0x20] else []) ++ .outportb 0x20 0x20 :: .restore (.irq a) :: c)
        false p := by
    rintro p (rfl | rfl)
    · split
      · exact ⟨nofun, hlast _ (by rw [Pics.outportb_idle, Pics.outportb_idle])⟩
      · exact hlast _ (Pics.outportb_idle _ _)
    · split
      · next h40 => exact ⟨nofun, hlast _ (hslave h40)⟩
      · next h40 => exact hlast _ (hmaster h40)
  have hbody : Acks (irqHandlerBody irq ++ .restore (.irq a) :: c) false (Pics.idle.accept irq) := by
    rw [irqHandlerBody, List.cons_append, List.append_assoc]
    exact ⟨nofun, heoi _ (.inr rfl), fun hlt => ⟨hsched hlt, heoi _ (.inl rfl)⟩⟩
  rw [irqBody, List.append_assoc, List.append_assoc]
  split
  · exact hbody
  · exact ⟨nofun, hbody⟩

theorem park_acks (ret : U32) (h : Acks s.code s.enabled .idle) (hp : ∀ p i, Acks (s.parked p) i .idle) (q : U32)
    (i : Bool) : Acks (s.park ret q) i .idle := by
  unfold Board.park
  split
  · exact hp q i
  · by_cases hq : q = s.kernel.proclist.current
    · subst hq
      rw [Function.update_self]
      exact ⟨fun _ => rfl, h⟩
    · rw [Function.update_of_ne hq]
      exact hp q i

theorem stmtStep_settles (h : StmtStep st s s') (hr : Acks (st :: s.code) s.enabled s.pics)
    (hp : ∀ p i, Acks (s.parked p) i .idle) : Settles s' := by
  cases h with
  | expireTicks => exact ⟨hr.2, hp⟩
  | setState => exact ⟨hr.2, hp⟩
  | setTimeout => exact ⟨hr.2, hp⟩
  | free => exact ⟨hr.2, hp⟩
  | disableInts =>
    refine ⟨?_, hp⟩
    show Acks s.code (interruptFlag (clearIf _)) s.pics
    rw [clearIf_off]
    exact hr.2
  | enableInts =>
    refine ⟨?_, hp⟩
    show Acks s.code (interruptFlag (setIf _)) s.pics
    rw [setIf_on]
    exact hr.2
  | scheduleReturn => exact ⟨hr.2.1, hp⟩
  | scheduleSwitch => exact ⟨hr.schedule, hp⟩
  | accountTicks => exact ⟨hr.2, hp⟩
  | switchTo ret =>
    obtain ⟨-, hidle, hc⟩ := hr
    have hparked := park_acks ret hc hp
    refine ⟨?_, hparked⟩
    show Acks (s.park ret _) s.enabled s.pics
    rw [hidle]
    exact hparked _ _
  | handler scancode => exact ⟨hr.handler scancode, hp⟩
  | corrupt => exact ⟨hr.handler 0x50, hp⟩
  | outportb => exact ⟨hr.2, hp⟩
  | restore => exact ⟨hr.2, hp⟩

/-- Between calls nothing is in service, so a process may do as it likes with interrupts. -/
theorem taskCall_settles (h : TaskCall s s') (hs : Settles s) (hc : s.code = []) : Settles s' := by
  obtain ⟨hr, hp⟩ := hs
  rw [hc] at hr
  have hidle : s.pics = .idle := hr
  have hexpire : ∀ i, Acks processExpireBody i .idle := fun i =>
    ⟨fun _ => rfl, fun _ => rfl, nofun, ⟨nofun, rfl⟩, Pics.outportb_idle _ _, nofun, rfl⟩
  cases h with
  | expire => exact ⟨hidle ▸ hexpire _, hp⟩
  | sleep => exact ⟨hidle ▸ ⟨fun _ => rfl, fun _ => rfl, hexpire _⟩, hp⟩
  | exit => exact ⟨hidle ▸ ⟨fun _ => rfl, hexpire _⟩, hp⟩
  | disableInts => exact ⟨hidle ▸ ⟨fun _ => rfl, rfl⟩, hp⟩
  | enableInts => exact ⟨hidle ▸ ⟨fun _ => rfl, rfl⟩, hp⟩
  | preempt => exact ⟨by rw [hc]; exact hidle, hp⟩
  | create p k proc top =>
    refine ⟨by rw [hc]; exact hidle, fun q i => ?_⟩
    show Acks ((if p = 0 then s.parked else Function.update s.parked p [.restore (.fresh proc top)]) q) i .idle
    split
    · exact hp q i
    · by_cases hq : q = p
      · rw [hq, Function.update_self]
        exact ⟨fun _ => rfl, rfl⟩
      · rw [Function.update_of_ne hq]
        exact hp q i

theorem boardStep_settles (h : BoardStep s s') (hs : Settles s) : Settles s' := by
  cases h with
  | work core hi =>
    refine ⟨?_, hs.parked⟩
    show Acks s.code (interruptFlag core.cpu.eflags) s.pics
    rw [hi]
    exact hs.running
  | call hc ht => exact taskCall_settles ht hs hc
  | irq irq hi =>
    have hidle := hs.running.quiet hi
    refine ⟨?_, hs.parked⟩
    show Acks (irqBody irq s.core.cpu ++ s.code) (interruptFlag s.core.interrupt.cpu.eflags) (s.pics.accept irq)
    rw [interrupt_off, hidle]
    refine Acks.irq irq hi ?_
    have hr := hs.running
    rwa [hi, hidle] at hr
  | run hc hst =>
    refine stmtStep_settles hst ?_ hs.parked
    rw [← hc]
    exact hs.running

/-- The statements of `schedule`, run one after the other, do to the kernel what `schedule` does. -/
theorem schedule_statements {k : Kernel} {fuel : Nat} (h : BoardRun s) (hc : s.code = .schedule :: c)
    (hk : schedule fuel s.kernel = (true, k)) : ∃ s', BoardRun s' ∧ s'.kernel = k := by
  unfold LineOS.schedule at hk
  split at hk
  · next k' he =>
    obtain rfl : k' = k := (Prod.mk.inj hk).2
    exact ⟨_, h.step (.run hc (.scheduleReturn he)), rfl⟩
  · next k₁ he =>
    split at hk
    · next q k₂ hs =>
      obtain rfl : dispatch q k₂ = k := (Prod.mk.inj hk).2
      have h := h.step (.run hc (.scheduleSwitch fuel he hs))
      have h := (h.step (.run rfl .outportb)).step (.run rfl .accountTicks)
      exact ⟨_, h.step (.run rfl (.switchTo 0)), rfl⟩
    · exact absurd (Prod.mk.inj hk).1 (by decide)

theorem boardRun_settles (h : BoardRun s) : Settles s := by
  induction h with
  | start mem core => exact ⟨rfl, fun _ _ => rfl⟩
  | step _ hstep ih => exact boardStep_settles hstep ih

end

/-- **No IRQ is left in service**: in every run, whenever interrupts are on the controllers
have nothing in service, and so would pass on any IRQ, the timer's among them. -/
theorem no_irq_in_service {s : Board} (h : BoardRun s) (hi : s.enabled = true) :
    s.pics = .idle ∧ ∀ irq, s.pics.Deliverable irq := by
  have hidle := (boardRun_settles h).running.quiet hi
  rw [hidle]
  exact ⟨rfl, Pics.idle_deliverable⟩

/-- `main` creates a process, and the key that calls `schedule` dispatches it. -/
theorem no_irq_in_service_sample :
    ∃ s, BoardRun s ∧ s.kernel.proclist.current = 0xA000 ∧ s.enabled = true ∧ s.pics = .idle ∧
      ∀ irq, s.pics.Deliverable irq := by
  have h := BoardRun.start (fun _ => newProcess 0 0 0) bootCore
  have h := h.step (.call rfl (.preempt true))
  have h := (h.step (.call rfl .enableInts)).step (.run rfl .enableInts)
  have h := h.step (.call rfl (.create 0xA000 0x4000 0x100000 0x4F00))
  have h := h.step (.irq 1 (by decide) (Pics.idle_deliverable 1))
  have h := h.step (.run rfl (.handler 0x48))
  have h := h.step (.run rfl (.scheduleSwitch 1 rfl rfl))
  have h := (h.step (.run rfl .outportb)).step (.run rfl .accountTicks)
  have h := (h.step (.run rfl (.switchTo 0))).step (.run rfl .restore)
  exact ⟨_, h, rfl, by decide, no_irq_in_service h (by decide)⟩

end LineOS
