import LineOS.ContextSwitch

/- Any number of processes under interrupts and `switchTo`. `Tasks` is the machine
   with the processes created so far and, for each, the records of where it was
   left: interrupted, inside `switchTo`, or never run. A process can be left many
   times over, an interrupt's handler being interrupted or calling `switchTo` in
   turn; its newest record comes first. Context 0 is the boot code, which runs
   while `k_proclist.current` is NULL and which nothing resumes.

   C code runs in `work` steps: it may do what it likes to the registers and to
   memory, but for the stacks of the other processes, the frames on its own,
   `k_proclist.current` and the `esp` fields. The stub and
   `switchTo` are one step each, since no interrupt comes in between: the gates are
   interrupt gates, no handler enables interrupts, and the callers of `schedule`
   have them off.

   `Inv` holds in every run: below each record the frame it stands for is on the
   stack. `switches_transparent` is what it is for. -/
namespace LineOS
open ByteMemory ByteMemory.Mem SlotStack

inductive Record where
  /-- interrupted in the state `a` -/
  | irq (a : Cpu)
  /-- in a call of `switchTo` made in the state `a`, with the return address on its stack -/
  | call (a : Cpu) (ret : U32)
  /-- created with the function `proc`, never run -/
  | fresh (proc top : U32)

namespace Record

def resume : Record → Cpu
  | irq a => a
  | call a ret => returned a ret
  | fresh proc top => freshCpu proc top

def slots : Record → List Slot
  | irq a => irqSlots a
  | r => switchSlots r.resume

/-- Where its frame begins. -/
def base : Record → U32
  | irq a => a.esp - 68
  | r => r.resume.esp - 60

def Waits : Record → Prop
  | irq _ => False
  | _ => True

/-- The state `c` in which a process goes on is the one the record promises. -/
def Resumed : Record → Cpu → Prop
  | irq a, c => c = a
  | call a ret, c => c.eip = ret ∧ c.esp = a.esp + 4 ∧ c.ebx = a.ebx ∧ c.ecx = a.ecx ∧ c.edx = a.edx ∧
      c.esi = a.esi ∧ c.edi = a.edi ∧ c.ebp = a.ebp ∧ c.cs = a.cs ∧ c.ds = a.ds ∧ c.es = a.es ∧ c.fs = a.fs ∧
      c.gs = a.gs ∧ c.eflags = a.eflags
  | fresh proc _, c => c.eip = proc ∧ c.cs = 0x10 ∧ c.ds = 0x08 ∧ c.es = 0x08 ∧ c.fs = 0x08 ∧ c.gs = 0x08 ∧
      c.eflags.getLsbD 9 = true

theorem resumed_resume (r : Record) : r.Resumed r.resume := by
  cases r with
  | irq a => rfl
  | call a ret => exact ⟨rfl, rfl, rfl, rfl, rfl, rfl, rfl, rfl, rfl, rfl, rfl, rfl, rfl, rfl⟩
  | fresh proc top => exact ⟨rfl, rfl, rfl, rfl, rfl, rfl, by show (0x202 : U32).getLsbD 9 = true; decide⟩

theorem Waits.frame : ∀ {r : Record}, r.Waits → r.slots = switchSlots r.resume ∧ r.base + 60 = r.resume.esp
  | call _ _, _ => ⟨rfl, BitVec.sub_add_cancel _ 60⟩
  | fresh _ _, _ => ⟨rfl, BitVec.sub_add_cancel _ 60⟩

end Record

/-- Fixed addresses, and the stack `[lo p, hi p)` that each process is to have. -/
structure SwitchEnv where
  /-- `&k_proclist.current` -/
  klist : U32
  /-- `irq_handler` -/
  handler : U32
  /-- the address after its call -/
  link : U32
  lo : U32 → Nat
  hi : U32 → Nat

structure Tasks where
  core : Core
  procs : List U32
  records : U32 → List Record

/-- The records, with those of `c` replaced. -/
def noted (records : U32 → List Record) (c : U32) (rs : List Record) : U32 → List Record :=
  fun p => if p = c then rs else records p

theorem noted_self (records : U32 → List Record) (c : U32) (rs : List Record) : noted records c rs c = rs :=
  if_pos rfl

theorem noted_ne {p c : U32} (records : U32 → List Record) (rs : List Record) (h : p ≠ c) :
    noted records c rs p = records p := if_neg h

section
variable (E : SwitchEnv)

/-- `k_proclist.current` -/
def Tasks.current (s : Tasks) : U32 := s.core.mem.load32 E.klist

def OnStack (c x : U32) : Prop := E.lo c ≤ x.toNat ∧ x.toNat < E.hi c

/-- The stacks, the `esp` fields of the processes `ps` and `k_proclist.current` are
apart from one another. -/
structure Separate (ps : List U32) : Prop where
  stack : ∀ a ∈ 0 :: ps, ∀ b ∈ 0 :: ps, a ≠ b → ∀ x, OnStack E a x → ¬ OnStack E b x
  field : ∀ p ∈ ps, ∀ a ∈ 0 :: ps, ∀ x, InSpan p 4 x → ¬ OnStack E a x
  fields : ∀ p ∈ ps, ∀ q ∈ ps, p ≠ q → ∀ x, InSpan p 4 x → ¬ InSpan q 4 x
  currentField : ∀ p ∈ ps, ∀ x, InSpan p 4 x → ¬ InSpan E.klist 4 x
  currentStack : ∀ a ∈ 0 :: ps, ∀ x, InSpan E.klist 4 x → ¬ OnStack E a x
  stackTop : ∀ a ∈ 0 :: ps, E.hi a < 2 ^ 32
  fieldTop : ∀ p ∈ ps, p.toNat + 4 ≤ 2 ^ 32
  currentTop : E.klist.toNat + 4 ≤ 2 ^ 32
  nonNull : 0 ∉ ps

/-- The end of the part of its stack that a process may use, given its records. -/
def limit (hi : Nat) : List Record → Nat
  | [] => hi
  | r :: _ => r.base.toNat

def Framed (rs : List Record) (x : U32) : Prop := ∃ r ∈ rs, InSpan r.base (4 * r.slots.length) x

/-- The bytes the running C code leaves alone. -/
def Guarded (s : Tasks) (x : U32) : Prop :=
  InSpan E.klist 4 x ∨ (∃ p ∈ s.procs, InSpan p 4 x) ∨ (∃ p ∈ s.procs, p ≠ s.current E ∧ OnStack E p x) ∨
    Framed (s.records (s.current E)) x

/-- What a step brings back: nothing, or what the newest record of a process stands for. -/
inductive Label where
  | other
  | resumes (r : Option Record)

inductive TaskStep : Tasks → Label → Tasks → Prop
  /-- C code. -/
  | work {s} (core : Core) : (∀ x, Guarded E s x → core.mem.byte x = s.core.mem.byte x) →
      E.lo (s.current E) ≤ core.cpu.esp.toNat →
      core.cpu.esp.toNat ≤ limit (E.hi (s.current E)) (s.records (s.current E)) →
      TaskStep s .other { s with core }
  /-- An interrupt, with room on the stack. -/
  | irq {s} (irq : U32) : E.lo (s.current E) + 76 ≤ s.core.cpu.esp.toNat →
      TaskStep s .other { s with
        core := enterIrq E.handler E.link irq s.core
        records := noted s.records (s.current E) (.irq s.core.cpu :: s.records (s.current E)) }
  /-- `irq_handler` has returned: its argument is on top of the stack. -/
  | leave {s a rs} : s.records (s.current E) = .irq a :: rs → s.core.cpu.esp + 4 = (Record.irq a).base →
      TaskStep s (.resumes (some (.irq a))) { s with
        core := runCode irqReturn s.core
        records := noted s.records (s.current E) rs }
  /-- A call of `switchTo(next)`: its return address and `next` are on top of the stack. -/
  | switch {s : Tasks} {rs : U32 → List Record} (next : U32) : next ∈ s.procs →
      s.core.mem.load32 (s.core.cpu.esp + 4) = next →
      E.lo (s.current E) + 56 ≤ s.core.cpu.esp.toNat →
      s.core.cpu.esp.toNat + 8 ≤ limit (E.hi (s.current E)) (s.records (s.current E)) →
      rs = noted s.records (s.current E) (.call s.core.cpu s.core.top :: s.records (s.current E)) →
      TaskStep s (.resumes (rs next).head?) { s with
        core := runCode (switchToCode E.klist) s.core
        records := noted rs next (rs next).tail }
  /-- `create_process` has come to `setup_kernel_process`, with `esp` set. -/
  | create {s} (p proc top : U32) : p ∉ s.procs → Separate E (p :: s.procs) → s.core.mem.load32 p = top →
      60 ≤ top.toNat → (∀ x, FrameByte top x → OnStack E p x) → p.toNat + 84 ≤ 2 ^ 32 →
      (∀ x, InSpan p 84 x → ¬ Guarded E s x ∧ ¬ OnStack E p x) →
      TaskStep s .other
        { core := { s.core with mem := setupKernelProcess p proc s.core.mem }
          procs := p :: s.procs
          records := noted s.records p [.fresh proc top] }

inductive TaskRun : Tasks → Prop
  | start (core : Core) : core.mem.load32 E.klist = 0 → Separate E [] → E.lo 0 ≤ core.cpu.esp.toNat →
      core.cpu.esp.toNat ≤ E.hi 0 → TaskRun ⟨core, [], fun _ => []⟩
  | step {s l s'} : TaskRun s → TaskStep E s l s' → TaskRun s'

/-- The frames of a process lie one above the other in its stack. -/
def Nested (m : Mem) (c : U32) : List Record → Prop
  | [] => True
  | r :: rs => Holds m r.base r.slots ∧ E.lo c ≤ r.base.toNat ∧
      r.base.toNat + 4 * r.slots.length = r.resume.esp.toNat ∧ r.resume.esp.toNat ≤ limit (E.hi c) rs ∧ Nested m c rs

/-- A process that is not running: its newest record is one for `switchTo`, and
its `esp` field is where the frame begins. -/
def Parked (m : Mem) (p : U32) (rs : List Record) : Prop :=
  Nested E m p rs ∧ ∃ r, rs.head? = some r ∧ r.Waits ∧ m.load32 p = r.base

structure Inv (s : Tasks) : Prop where
  separate : Separate E s.procs
  current : s.current E ∈ 0 :: s.procs
  running : Nested E s.core.mem (s.current E) (s.records (s.current E))
  esp : s.core.cpu.esp.toNat ≤ limit (E.hi (s.current E)) (s.records (s.current E))
  parked : ∀ p ∈ s.procs, p ≠ s.current E → Parked E s.core.mem p (s.records p)

end

/-! Frames. -/

section
variable {E : SwitchEnv} {m m' : Mem} {c p : U32} {r : Record} {rs : List Record}

theorem limit_le : ∀ {rs : List Record}, Nested E m c rs → limit (E.hi c) rs ≤ E.hi c
  | [], _ => Nat.le_refl _
  | r :: rs, ⟨_, _, h2, h3, hr⟩ => by
    have := limit_le hr
    show r.base.toNat ≤ E.hi c
    omega

theorem Nested.framed : ∀ {rs : List Record}, Nested E m c rs → ∀ {x}, Framed rs x →
    limit (E.hi c) rs ≤ x.toNat ∧ OnStack E c x
  | r :: rs, ⟨_, h1, h2, h3, hr⟩, x, ⟨q, hq, hx⟩ => by
    have hle := limit_le hr
    show r.base.toNat ≤ x.toNat ∧ OnStack E c x
    obtain rfl | hq := List.mem_cons.1 hq
    · obtain ⟨hx1, hx2⟩ := hx
      exact ⟨hx1, by omega, by omega⟩
    · obtain ⟨hx1, hx2⟩ := hr.framed ⟨q, hq, hx⟩
      exact ⟨by omega, hx2⟩

theorem Nested.congr : ∀ {rs : List Record}, Nested E m c rs →
    (∀ x, Framed rs x → m'.byte x = m.byte x) → Nested E m' c rs
  | [], _, _ => trivial
  | r :: rs, ⟨hh, h1, h2, h3, hr⟩, hb => by
    refine ⟨hh.congr (by omega) fun x hx => hb x ⟨r, List.mem_cons_self, hx⟩, h1, h2, h3, ?_⟩
    exact hr.congr fun x ⟨q, hq, hx⟩ => hb x ⟨q, List.mem_cons_of_mem r hq, hx⟩

theorem Parked.congr (h : Parked E m p rs) (hp : p.toNat + 4 ≤ 2 ^ 32)
    (hs : ∀ x, OnStack E p x → m'.byte x = m.byte x) (hf : ∀ x, InSpan p 4 x → m'.byte x = m.byte x) :
    Parked E m' p rs := by
  obtain ⟨hn, r, hr, hw, hb⟩ := h
  exact ⟨hn.congr fun x hx => hs x (hn.framed hx).2, r, hr, hw, (load32_congr hp hf).trans hb⟩

theorem Parked.resume {u : Core} (h : Parked E u.mem p rs) (he : u.cpu.esp = u.mem.load32 p) :
    ∃ r, rs.head? = some r ∧ runCode restoreCode u = { cpu := r.resume, mem := u.mem } := by
  obtain ⟨hnest, r, hhead, hwait, hload⟩ := h
  obtain ⟨tail, rfl⟩ := List.head?_eq_some_iff.1 hhead
  obtain ⟨hslots, hresume⟩ := hwait.frame
  have hframe := hnest.1
  rw [hslots, ← hload, ← he] at hframe
  rw [← hload, ← he] at hresume
  exact ⟨r, hhead, restore_spec hframe hresume⟩

/-! What the running process may write. -/

variable {s : Tasks}

theorem Inv.free (hi : Inv E s) {x : U32} (hs : OnStack E (s.current E) x)
    (hx : x.toNat < limit (E.hi (s.current E)) (s.records (s.current E))) : ¬ Guarded E s x := by
  have hsep := hi.separate
  rintro (h | ⟨p, hp, h⟩ | ⟨p, hp, hne, h⟩ | h)
  · exact hsep.currentStack _ hi.current x h hs
  · exact hsep.field p hp _ hi.current x h hs
  · exact hsep.stack p (List.mem_cons_of_mem 0 hp) _ hi.current hne x h hs
  · exact Nat.not_lt.2 (hi.running.framed h).1 hx

theorem Separate.known {procs : List U32} (hsep : Separate E (p :: procs)) (hp : p ∉ procs) :
    ∀ q ∈ 0 :: procs, q ≠ p ∧ q ∈ 0 :: p :: procs := by
  intro q hq
  obtain rfl | hq := List.mem_cons.1 hq
  · exact ⟨fun e => hsep.nonNull (e ▸ List.mem_cons_self), List.mem_cons_self⟩
  · exact ⟨fun e => hp (e ▸ hq), List.mem_cons_of_mem _ (List.mem_cons_of_mem _ hq)⟩

theorem Inv.unborn (hi : Inv E s) (hp : p ∉ s.procs) (hsep : Separate E (p :: s.procs)) {x : U32}
    (hx : OnStack E p x) : ¬ Guarded E s x := by
  have hpm : p ∈ 0 :: p :: s.procs := List.mem_cons_of_mem _ List.mem_cons_self
  rintro (h | ⟨q, hq, h⟩ | ⟨q, hq, -, h⟩ | h)
  · exact hsep.currentStack p hpm x h hx
  · exact hsep.field q (List.mem_cons_of_mem p hq) p hpm x h hx
  · obtain ⟨hne, hq'⟩ := hsep.known hp q (List.mem_cons_of_mem 0 hq)
    exact hsep.stack q hq' p hpm hne x h hx
  · obtain ⟨hne, hq'⟩ := hsep.known hp _ hi.current
    exact hsep.stack _ hq' p hpm hne x (hi.running.framed h).2 hx

/-- Whoever leaves the guarded bytes keeps the current process and all frames. -/
theorem Inv.keep (hi : Inv E s) (hb : ∀ x, Guarded E s x → m'.byte x = s.core.mem.byte x) :
    m'.load32 E.klist = s.current E ∧ Nested E m' (s.current E) (s.records (s.current E)) ∧
      ∀ p ∈ s.procs, p ≠ s.current E → Parked E m' p (s.records p) := by
  have hsep := hi.separate
  refine ⟨load32_congr hsep.currentTop fun x hx => hb x (.inl hx), ?_, fun p hp hne => ?_⟩
  · exact hi.running.congr fun x hx => hb x (.inr (.inr (.inr hx)))
  · refine (hi.parked p hp hne).congr (hsep.fieldTop p hp) (fun x hx => ?_) fun x hx => ?_
    · exact hb x (.inr (.inr (.inl ⟨p, hp, hne, hx⟩)))
    · exact hb x (.inr (.inl ⟨p, hp, hx⟩))

theorem inv_of (hc : s.current E = c) (hsep : Separate E s.procs) (hm : c ∈ 0 :: s.procs)
    (hrun : Nested E s.core.mem c (s.records c)) (he : s.core.cpu.esp.toNat ≤ limit (E.hi c) (s.records c))
    (hp : ∀ p ∈ s.procs, p ≠ c → Parked E s.core.mem p (s.records p)) : Inv E s := by
  subst hc
  exact ⟨hsep, hm, hrun, he, hp⟩

/-- `Inv` after a step that changes the records of the process that runs then. -/
theorem inv_noted {core : Core} {procs : List U32} {records : U32 → List Record} (hc : core.mem.load32 E.klist = c)
    (hsep : Separate E procs) (hm : c ∈ 0 :: procs) (hrun : Nested E core.mem c rs)
    (he : core.cpu.esp.toNat ≤ limit (E.hi c) rs) (hp : ∀ p ∈ procs, p ≠ c → Parked E core.mem p (records p)) :
    Inv E ⟨core, procs, noted records c rs⟩ := by
  refine inv_of hc hsep hm ?_ ?_ fun p hpm hne => ?_
  · show Nested E core.mem c (noted records c rs c)
    rw [noted_self]
    exact hrun
  · show core.cpu.esp.toNat ≤ limit (E.hi c) (noted records c rs c)
    rw [noted_self]
    exact he
  · show Parked E core.mem p (noted records c rs p)
    rw [noted_ne _ _ hne]
    exact hp p hpm hne

/-! The steps. -/

theorem work_inv (hi : Inv E s) {core : Core} (hb : ∀ x, Guarded E s x → core.mem.byte x = s.core.mem.byte x)
    (he : core.cpu.esp.toNat ≤ limit (E.hi (s.current E)) (s.records (s.current E))) : Inv E { s with core } := by
  obtain ⟨hc, hr, hp⟩ := hi.keep hb
  exact inv_of hc hi.separate hi.current hr he hp

theorem irq_inv (hi : Inv E s) (irq : U32) (hroom : E.lo (s.current E) + 76 ≤ s.core.cpu.esp.toNat) :
    Inv E { s with
      core := enterIrq E.handler E.link irq s.core
      records := noted s.records (s.current E) (.irq s.core.cpu :: s.records (s.current E)) } := by
  have hpush := enterIrq_spec E.handler E.link irq (show 76 ≤ s.core.cpu.esp.toNat by omega)
  have hesp := hi.esp
  have hle := limit_le hi.running
  generalize enterIrq E.handler E.link irq s.core = core at hpush ⊢
  have hdepth : core.cpu.esp.toNat + 76 = s.core.cpu.esp.toNat := hpush.depth
  -- the frame goes to the free part of the stack
  obtain ⟨hc, hr, hp⟩ := hi.keep fun x hx => hpush.writes.2 x fun hw =>
    hi.free ⟨by omega, by omega⟩ (by omega) hx
  have hframe : Holds core.mem (core.cpu.esp + 4 + 4) (irqSlots s.core.cpu) := hpush.holds.2.2
  have hbase : core.cpu.esp + 4 + 4 = s.core.cpu.esp - 68 := by bv_omega
  have h68 : (s.core.cpu.esp - 68).toNat = core.cpu.esp.toNat + 8 := by bv_omega
  rw [hbase] at hframe
  refine inv_noted hc hi.separate hi.current ⟨hframe, ?_, ?_, hesp, hr⟩ ?_ hp
  · show E.lo (s.current E) ≤ (s.core.cpu.esp - 68).toNat
    omega
  · show (s.core.cpu.esp - 68).toNat + 4 * 17 = s.core.cpu.esp.toNat
    omega
  · show core.cpu.esp.toNat ≤ (s.core.cpu.esp - 68).toNat
    omega

theorem leave_spec (hi : Inv E s) {a : Cpu} (hrec : s.records (s.current E) = .irq a :: rs)
    (he : s.core.cpu.esp + 4 = (Record.irq a).base) : runCode irqReturn s.core = { cpu := a, mem := s.core.mem } := by
  have hrun := hi.running
  rw [hrec] at hrun
  obtain ⟨hh, -, -, -, -⟩ := hrun
  refine irqReturn_spec (by rw [he]; exact hh) ?_
  rw [he]
  exact BitVec.sub_add_cancel a.esp 68

theorem leave_inv (hi : Inv E s) {a : Cpu} (hrec : s.records (s.current E) = .irq a :: rs)
    (he : s.core.cpu.esp + 4 = (Record.irq a).base) :
    Inv E { s with
      core := runCode irqReturn s.core
      records := noted s.records (s.current E) rs } := by
  rw [leave_spec hi hrec he]
  have hrun := hi.running
  rw [hrec] at hrun
  obtain ⟨-, -, -, hle, hr⟩ := hrun
  exact inv_noted rfl hi.separate hi.current hr hle hi.parked

/-- What `switchTo` has done when the frame of the running process is on its stack. -/
theorem save_nested (hi : Inv E s) (hroom : E.lo (s.current E) + 56 ≤ s.core.cpu.esp.toNat)
    (hesp : s.core.cpu.esp.toNat + 8 ≤ limit (E.hi (s.current E)) (s.records (s.current E))) :
    let u := runCode saveCode s.core
    u.mem.load32 E.klist = s.current E ∧
      Nested E u.mem (s.current E) (.call s.core.cpu s.core.top :: s.records (s.current E)) ∧
      (∀ p ∈ s.procs, p ≠ s.current E → Parked E u.mem p (s.records p)) ∧
      (Record.call s.core.cpu s.core.top).base = u.cpu.esp ∧ u.cpu.esp + 60 = s.core.cpu.esp + 4 ∧
      u.mem.load32 (s.core.cpu.esp + 4) = s.core.mem.load32 (s.core.cpu.esp + 4) := by
  intro u
  have hle := limit_le hi.running
  have htop := hi.separate.stackTop _ hi.current
  have hpush : Pushed s.core.mem (s.core.cpu.esp + 4) 0 u (switchSlots (returned s.core.cpu s.core.top)) :=
    save_spec (by omega) (by omega)
  generalize u = v at hpush ⊢
  have e4 : (s.core.cpu.esp + 4).toNat = s.core.cpu.esp.toNat + 4 := by bv_omega
  have hdepth : v.cpu.esp.toNat + 60 = (s.core.cpu.esp + 4).toNat := hpush.depth
  have hbase : (Record.call s.core.cpu s.core.top).base = v.cpu.esp := by
    show s.core.cpu.esp + 4 - 60 = v.cpu.esp
    bv_omega
  -- the frame takes the place of the return address and goes below it
  obtain ⟨hc, hr, hp⟩ := hi.keep fun x hx => hpush.writes.2 x fun hw =>
    hi.free ⟨by omega, by omega⟩ (by omega) hx
  refine ⟨hc, ⟨?_, ?_, ?_, ?_, hr⟩, hp, hbase, by bv_omega, ?_⟩
  · rw [hbase]
    exact hpush.holds
  · rw [hbase]
    omega
  · rw [hbase]
    exact hpush.depth
  · show (s.core.cpu.esp + 4).toNat ≤ _
    omega
  · refine load32_congr (by omega) fun x hx => hpush.writes.2 x fun hw => ?_
    have := hx.1
    omega

theorem saveEsp_spec {procs : List U32} (hsep : Separate E procs) (hc : c ∈ 0 :: procs) (m : Mem) (esp : U32) :
    WritesOnly (fun x => c ∈ procs ∧ InSpan c 4 x) m (if c = 0 then m else m.store32 c esp) ∧
      (c ∈ procs → (if c = 0 then m else m.store32 c esp).load32 c = esp) := by
  by_cases h0 : c = 0
  · rw [if_pos h0]
    exact ⟨WritesOnly.refl _, fun h => absurd (h0 ▸ h) hsep.nonNull⟩
  · have hcp : c ∈ procs := (List.mem_cons.1 hc).resolve_left h0
    rw [if_neg h0]
    refine ⟨?_, fun _ => load32_store32_same m c esp⟩
    exact WritesOnly.store32 m esp (hsep.fieldTop c hcp) fun x hx => ⟨hcp, hx⟩

/-- The middle of `switchTo` parks the running process, whose frame is on its
stack, and turns to `next`. -/
theorem swap_parked {u : Core} {procs : List U32} {records : U32 → List Record} {next : U32}
    (hsep : Separate E procs) (hc : c ∈ 0 :: procs) (hcur : u.mem.load32 E.klist = c)
    (harg : u.mem.load32 (u.cpu.esp + 60) = next) (hargs : ∀ x, InSpan (u.cpu.esp + 60) 4 x → OnStack E c x)
    (hargt : (u.cpu.esp + 60).toNat + 4 ≤ 2 ^ 32)
    (hrun : Nested E u.mem c (r :: rs)) (hw : r.Waits) (hb : r.base = u.cpu.esp)
    (hp : ∀ p ∈ procs, p ≠ c → Parked E u.mem p (records p)) :
    (runCode (swapCode E.klist) u).mem.load32 E.klist = next ∧
      (runCode (swapCode E.klist) u).cpu.esp = (runCode (swapCode E.klist) u).mem.load32 next ∧
      ∀ p ∈ procs, Parked E (runCode (swapCode E.klist) u).mem p (noted records c (r :: rs) p) := by
  have hfield : ∀ p ∈ procs, ∀ x, InSpan p 4 x → ¬ InSpan E.klist 4 x := hsep.currentField
  obtain ⟨hwm, hesp⟩ := saveEsp_spec hsep hc u.mem u.cpu.esp
  have hspec := swap_spec E.klist u
  simp only [hcur] at hspec
  generalize (if c = 0 then u.mem else u.mem.store32 c u.cpu.esp) = m at hwm hesp hspec
  have hnext : m.load32 (u.cpu.esp + 60) = next := by
    refine (load32_congr hargt fun x hx => hwm.2 x fun ⟨hcp, hx'⟩ => ?_).trans harg
    exact hsep.field c hcp c hc x hx' (hargs x hx)
  rw [hnext] at hspec
  obtain ⟨hvm, hve⟩ := hspec
  have hwv : WritesOnly (InSpan E.klist 4) m (m.store32 E.klist next) :=
    WritesOnly.store32 _ _ hsep.currentTop fun _ hx => hx
  rw [← hvm] at hwv hve
  refine ⟨hvm ▸ load32_store32_same _ _ _, hve, fun p hpm => ?_⟩
  generalize (runCode (swapCode E.klist) u).mem = v at hwv ⊢
  -- the two stores hit nobody's stack
  have hstack : ∀ a ∈ 0 :: procs, ∀ x, OnStack E a x → v.byte x = u.mem.byte x := fun a ha x hx =>
    (hwv.2 x fun hk => hsep.currentStack a ha x hk hx).trans
      (hwm.2 x fun ⟨hcp, hf⟩ => hsep.field c hcp a ha x hf hx)
  by_cases hpc : p = c
  · subst hpc
    rw [noted_self]
    refine ⟨hrun.congr fun x hx => hstack p hc x (hrun.framed hx).2, r, rfl, hw, ?_⟩
    rw [hb, load32_congr (hsep.fieldTop p hpm) fun x hx => hwv.2 x (hfield p hpm x hx)]
    exact hesp hpm
  · rw [noted_ne _ _ hpc]
    refine (hp p hpm hpc).congr (hsep.fieldTop p hpm) (hstack p (List.mem_cons_of_mem 0 hpm)) fun x hx => ?_
    exact (hwv.2 x (hfield p hpm x hx)).trans (hwm.2 x fun ⟨hcp, hf⟩ => hsep.fields p hpm c hcp hpc x hx hf)

theorem switch_spec (hi : Inv E s) {records : U32 → List Record} {next : U32} (hn : next ∈ s.procs)
    (harg : s.core.mem.load32 (s.core.cpu.esp + 4) = next)
    (hroom : E.lo (s.current E) + 56 ≤ s.core.cpu.esp.toNat)
    (hesp : s.core.cpu.esp.toNat + 8 ≤ limit (E.hi (s.current E)) (s.records (s.current E)))
    (hrec : records = noted s.records (s.current E) (.call s.core.cpu s.core.top :: s.records (s.current E))) :
    ∃ m r, (records next).head? = some r ∧ runCode (switchToCode E.klist) s.core = { cpu := r.resume, mem := m } ∧
      m.load32 E.klist = next ∧ ∀ p ∈ s.procs, Parked E m p (records p) := by
  have hle := limit_le hi.running
  have htop := hi.separate.stackTop _ hi.current
  have e4 : (s.core.cpu.esp + 4).toNat = s.core.cpu.esp.toNat + 4 := by bv_omega
  obtain ⟨hc, hrun, hp, hbase, h60, hread⟩ := save_nested hi hroom hesp
  rw [switchToCode_eq, runCode_append, runCode_append]
  -- the caller's registers are now a frame below its stack pointer
  generalize runCode saveCode s.core = u at hc hrun hp hbase h60 hread ⊢
  rw [harg, ← h60] at hread
  have hargs : ∀ x, InSpan (u.cpu.esp + 60) 4 x → OnStack E (s.current E) x := by
    intro x hx
    rw [h60] at hx
    obtain ⟨hx1, hx2⟩ := hx
    exact ⟨by omega, by omega⟩
  obtain ⟨hcur, hesp', hpark⟩ := swap_parked hi.separate hi.current hc hread hargs (by rw [h60]; omega) hrun
    trivial hbase hp
  rw [← hrec] at hpark
  obtain ⟨r, hhead, hcode⟩ := (hpark next hn).resume hesp'
  exact ⟨_, r, hhead, hcode, hcur, hpark⟩

theorem switch_inv (hi : Inv E s) {records : U32 → List Record} {next : U32} (hn : next ∈ s.procs)
    (harg : s.core.mem.load32 (s.core.cpu.esp + 4) = next)
    (hroom : E.lo (s.current E) + 56 ≤ s.core.cpu.esp.toNat)
    (hesp : s.core.cpu.esp.toNat + 8 ≤ limit (E.hi (s.current E)) (s.records (s.current E)))
    (hrec : records = noted s.records (s.current E) (.call s.core.cpu s.core.top :: s.records (s.current E))) :
    Inv E { s with
      core := runCode (switchToCode E.klist) s.core
      records := noted records next (records next).tail } := by
  obtain ⟨m, r, hr, hcode, hc, hp⟩ := switch_spec hi hn harg hroom hesp hrec
  rw [hcode]
  have hnext := (hp next hn).1
  obtain ⟨tail, htail⟩ := List.head?_eq_some_iff.1 hr
  rw [htail] at hnext ⊢
  obtain ⟨-, -, -, hle, hrest⟩ := hnext
  exact inv_noted hc hi.separate (List.mem_cons_of_mem 0 hn) hrest hle fun p hpm _ => hp p hpm

theorem frame_room {top : U32} (hlo : 60 ≤ top.toNat) (hst : ∀ x, FrameByte top x → OnStack E p x)
    (htop : E.hi p < 2 ^ 32) : top.toNat + 4 < 2 ^ 32 ∧ (top - 60).toNat = top.toNat - 60 ∧
      E.lo p ≤ (top - 60).toNat ∧ top.toNat < E.hi p := by
  have e60 : (top - 60).toNat = top.toNat - 60 := by bv_omega
  refine ⟨?_, e60, (hst (top - 60) ⟨by omega, by omega⟩).1, (hst top ⟨by omega, by omega⟩).2⟩
  -- the last address would be on the stack
  by_contra h
  have hx : (0xFFFFFFFF : U32).toNat = 2 ^ 32 - 1 := rfl
  obtain ⟨-, h2⟩ := hst 0xFFFFFFFF ⟨by omega, by omega⟩
  omega

theorem spawn_inv (hi : Inv E s) {p proc top : U32} (hp : p ∉ s.procs) (hsep : Separate E (p :: s.procs))
    (hesp : s.core.mem.load32 p = top) (hlo : 60 ≤ top.toNat) (hst : ∀ x, FrameByte top x → OnStack E p x)
    (hptop : p.toNat + 84 ≤ 2 ^ 32) (hfield : ∀ x, InSpan p 84 x → ¬ Guarded E s x ∧ ¬ OnStack E p x) :
    Inv E
      { core := { s.core with mem := setupKernelProcess p proc s.core.mem }
        procs := p :: s.procs
        records := noted s.records p [.fresh proc top] } := by
  obtain ⟨hhi, e60, hlow, hhigh⟩ := frame_room hlo hst (hsep.stackTop p (List.mem_cons_of_mem _ List.mem_cons_self))
  have hoff : ∀ x, InSpan p 84 x → ¬ FrameByte top x := fun x hx hf => (hfield x hx).2 (hst x hf)
  have hw := (setup_writes proc hesp hlo (by omega) hptop).1
  obtain ⟨hframe, hload⟩ := setup_spec proc hesp hlo hhi hptop hoff
  obtain ⟨hc, hr, hp'⟩ := hi.keep fun x hx => hw.2 x fun h =>
    h.elim (fun hf => (hfield x hf).1 hx) fun hf => hi.unborn hp hsep (hst x hf) hx
  -- the new frame is on a stack of its own, so every other task is parked as before
  generalize setupKernelProcess p proc s.core.mem = m at hc hr hp' hframe hload ⊢
  obtain ⟨hcur, hmem⟩ := hsep.known hp _ hi.current
  refine inv_of hc hsep hmem ?_ ?_ fun q hq hne => ?_
  · show Nested E m _ (noted s.records p _ _)
    rw [noted_ne _ _ hcur]
    exact hr
  · show s.core.cpu.esp.toNat ≤ limit _ (noted s.records p _ _)
    rw [noted_ne _ _ hcur]
    exact hi.esp
  · show Parked E m q (noted s.records p _ q)
    by_cases hqp : q = p
    · subst hqp
      rw [noted_self]
      refine ⟨⟨hframe, ?_, ?_, ?_, trivial⟩, _, rfl, trivial, hload⟩
      · show E.lo q ≤ (top - 60).toNat
        omega
      · show (top - 60).toNat + 4 * 15 = top.toNat
        omega
      · show top.toNat ≤ E.hi q
        omega
    · rw [noted_ne _ _ hqp]
      exact hp' q ((List.mem_cons.1 hq).resolve_left hqp) hne

theorem taskStep_inv {l : Label} {s' : Tasks} (hi : Inv E s) (h : TaskStep E s l s') : Inv E s' := by
  cases h with
  | work core hb hlo hhi => exact work_inv hi hb hhi
  | irq irq hroom => exact irq_inv hi irq hroom
  | leave hrec he => exact leave_inv hi hrec he
  | switch next hn harg hroom hesp hrec => exact switch_inv hi hn harg hroom hesp hrec
  | create p proc top hp hsep hesp hlo hst hptop hfield => exact spawn_inv hi hp hsep hesp hlo hst hptop hfield

theorem taskRun_inv (h : TaskRun E s) : Inv E s := by
  induction h with
  | start core hc hsep hlo hhi =>
    refine inv_of hc hsep List.mem_cons_self trivial hhi fun p hp => ?_
    exact absurd hp List.not_mem_nil
  | step _ hstep ih => exact taskStep_inv ih hstep

end

/-- **Context switches are transparent.** Whenever a process goes on, after the
stub's `iret` or after a `switchTo`, it has a record and goes on in the state the
record promises. -/
theorem switches_transparent {E : SwitchEnv} {s s' : Tasks} {r : Option Record} (h : TaskRun E s)
    (hs : TaskStep E s (.resumes r) s') : ∃ rec, r = some rec ∧ rec.Resumed s'.core.cpu := by
  have hi := taskRun_inv h
  cases hs with
  | leave hrec he =>
    refine ⟨_, rfl, ?_⟩
    rw [leave_spec hi hrec he]
    exact Record.resumed_resume _
  | switch next hn harg hroom hesp hrec =>
    obtain ⟨m, rec, hhead, hcode, -⟩ := switch_spec hi hn harg hroom hesp hrec
    refine ⟨rec, hhead, ?_⟩
    rw [hcode]
    exact rec.resumed_resume

/-! A run: the boot code starts a process, whose interrupt switches to another, which switches back. -/

structure RunsAt (E : SwitchEnv) (c : U32) (cpu : Cpu) (records : U32 → List Record) (s : Tasks) : Prop where
  run : TaskRun E s
  current : s.current E = c
  cpu : s.core.cpu = cpu
  records : s.records = records

section
variable {E : SwitchEnv} {c : U32} {cpu : Cpu} {records : U32 → List Record} {s : Tasks} {r : Record}
  {rs : List Record}

/-- The C code of the running process has come to `switchTo(next)`, in the state `a`. -/
theorem RunsAt.calls (h : RunsAt E c cpu records s) (next : U32) (hn : next ∈ s.procs) (a : Cpu) (ret : U32)
    (hroom : E.lo c + 56 ≤ a.esp.toNat) (hlim : a.esp.toNat + 8 ≤ limit (E.hi c) (records c))
    (hnext : noted records c (.call a ret :: records c) next = r :: rs) : ∃ t u, TaskRun E t ∧
      TaskStep E t (.resumes (some r)) u ∧ u.procs = s.procs ∧
      RunsAt E next r.resume (noted (noted records c (.call a ret :: records c)) next rs) u := by
  obtain ⟨hrun, rfl, rfl, rfl⟩ := h
  have hi := taskRun_inv hrun
  have hle := limit_le hi.running
  have htop := hi.separate.stackTop _ hi.current
  have e4 : (a.esp + 4).toNat = a.esp.toNat + 4 := by bv_omega
  -- `next` and the return address are pushed on the free part of the stack
  let core : Core := { cpu := a, mem := (s.core.mem.store32 (a.esp + 4) next).store32 a.esp ret }
  have hw : WritesOnly (InSpan a.esp 8) s.core.mem core.mem :=
    (WritesOnly.store32 _ next (by omega) fun x hx => by unfold InSpan at hx ⊢; omega).trans
      (WritesOnly.store32 _ ret (by omega) fun x hx => by unfold InSpan at hx ⊢; omega)
  have hkeep : ∀ x, Guarded E s x → core.mem.byte x = s.core.mem.byte x := fun x hx => hw.2 x fun hsp => by
    unfold InSpan at hsp
    exact hi.free ⟨by omega, by omega⟩ (by omega) hx
  have hrun₁ := hrun.step (.work core hkeep (show E.lo _ ≤ a.esp.toNat by omega) (show a.esp.toNat ≤ _ by omega))
  have hi₁ := taskRun_inv hrun₁
  have hcur : Tasks.current E { s with core } = s.current E := (hi.keep hkeep).1
  have hret : core.top = ret := load32_store32_same _ _ _
  have harg : core.mem.load32 (core.cpu.esp + 4) = next := by
    have hoff : ((s.core.mem.store32 (a.esp + 4) next).store32 a.esp ret).load32 (a.esp + 4) =
        (s.core.mem.store32 (a.esp + 4) next).load32 (a.esp + 4) :=
      (WritesOnly.store32 (P := InSpan a.esp 4) _ ret (by omega) fun _ hx => hx).load32_eq (by omega) fun x hx hx' => by
        unfold InSpan at hx hx'
        omega
    exact hoff.trans (load32_store32_same _ _ _)
  have hr : noted s.records (s.current E) (.call a ret :: s.records (s.current E)) =
      noted s.records (Tasks.current E { s with core })
        (.call core.cpu core.top :: s.records (Tasks.current E { s with core })) := by
    rw [hcur, hret]
  obtain ⟨m, r', hhead, hcode, hm, -⟩ := switch_spec hi₁ hn harg (by rw [hcur]; exact hroom) (by rw [hcur]; exact hlim) hr
  have hstep := @TaskStep.switch E { s with core } _ next hn harg (by rw [hcur]; exact hroom) (by rw [hcur]; exact hlim) hr
  rw [hnext] at hhead hstep
  obtain rfl : r = r' := Option.some.inj hhead
  refine ⟨_, _, hrun₁, hstep, rfl, hrun₁.step hstep, ?_, ?_, rfl⟩
  · show (runCode (switchToCode E.klist) core).mem.load32 E.klist = next
    rw [hcode]
    exact hm
  · show (runCode (switchToCode E.klist) core).cpu = r.resume
    rw [hcode]

theorem RunsAt.irq (h : RunsAt E c cpu records s) (irq : U32) (hroom : E.lo c + 76 ≤ cpu.esp.toNat) : ∃ b t,
    t.procs = s.procs ∧ RunsAt E c b (noted records c (.irq cpu :: records c)) t := by
  obtain ⟨hrun, rfl, rfl, rfl⟩ := h
  have hi := taskRun_inv hrun
  have hesp := hi.esp
  have hle := limit_le hi.running
  have hpush := enterIrq_spec E.handler E.link irq (show 76 ≤ s.core.cpu.esp.toNat by omega)
  have hrun₁ := hrun.step (.irq irq hroom)
  generalize enterIrq E.handler E.link irq s.core = core at hpush hrun₁
  have hdepth : core.cpu.esp.toNat + 76 = s.core.cpu.esp.toNat := hpush.depth
  have hkeep := (hi.keep fun x hx => hpush.writes.2 x fun hw => hi.free ⟨by omega, by omega⟩ (by omega) hx).1
  exact ⟨core.cpu, ⟨core, s.procs, noted s.records (s.current E) (.irq s.core.cpu :: s.records (s.current E))⟩, rfl,
    hrun₁, hkeep, rfl, rfl⟩

theorem RunsAt.returns (h : RunsAt E c cpu records s) {a : Cpu} (hrec : records c = .irq a :: rs)
    (hroom : E.lo c + 4 ≤ (Record.irq a).base.toNat) : ∃ t u, TaskRun E t ∧ TaskStep E t (.resumes (some (.irq a))) u ∧
      RunsAt E c a (noted records c rs) u := by
  obtain ⟨hrun, rfl, rfl, rfl⟩ := h
  have hi := taskRun_inv hrun
  have hlim : limit (E.hi (s.current E)) (s.records (s.current E)) = (Record.irq a).base.toNat := by rw [hrec]; rfl
  have e4 : ((Record.irq a).base - 4).toNat = (Record.irq a).base.toNat - 4 := by bv_omega
  let core : Core := { cpu := { s.core.cpu with esp := (Record.irq a).base - 4 }, mem := s.core.mem }
  have hrun₁ := hrun.step (.work core (fun _ _ => rfl) (show E.lo _ ≤ ((Record.irq a).base - 4).toNat by omega)
    (show ((Record.irq a).base - 4).toNat ≤ _ by omega))
  have hback : core.cpu.esp + 4 = (Record.irq a).base := BitVec.sub_add_cancel _ 4
  have hstep := @TaskStep.leave E { s with core } a rs hrec hback
  have hcode : runCode irqReturn core = { cpu := a, mem := core.mem } := leave_spec (taskRun_inv hrun₁) hrec hback
  refine ⟨_, _, hrun₁, hstep, hrun₁.step hstep, ?_, ?_, rfl⟩
  · show (runCode irqReturn core).mem.load32 E.klist = _
    rw [hcode]
    rfl
  · show (runCode irqReturn core).cpu = a
    rw [hcode]

end

/-- The boot code's stack is at 0x8000, those of the processes at 0xA000 and 0xB000
are at 0x4000 and 0x6000. -/
def bootEnv : SwitchEnv :=
  { klist := 0x1000, handler := 0x2000, link := 0x3000
    lo := fun p => if p = 0 then 0x8000 else if p = 0xA000 then 0x4000 else 0x6000
    hi := fun p => if p = 0 then 0x9000 else if p = 0xA000 then 0x5000 else 0x7000 }

def bootCpu : Cpu := { freshCpu 0x1111 0x8800 with eflags := 2 }

/-- The interrupted process inside the handler, where it calls `switchTo`. -/
def handlerCpu : Cpu := { freshCpu 0x2222 0x4E00 with eflags := 2, ebx := 7 }

/-- The second process where it calls `switchTo`. -/
def backCpu : Cpu := { freshCpu 0x3333 0x6E00 with eflags := 2 }

def bootCore : Core :=
  { cpu := bootCpu, mem := ((⟨fun _ => 0, []⟩ : Mem).store32 0xA000 0x4F00).store32 0xB000 0x6F00 }

def firstCore : Core := { bootCore with mem := setupKernelProcess 0xA000 0x100000 bootCore.mem }

def spawnCore : Core := { bootCore with mem := setupKernelProcess 0xB000 0x200000 firstCore.mem }

def firstRecords : U32 → List Record := noted (fun _ => []) 0xA000 [.fresh 0x100000 0x4F00]

def spawnRecords : U32 → List Record := noted firstRecords 0xB000 [.fresh 0x200000 0x6F00]

theorem bootStack (a x : U32) : OnStack bootEnv a x ↔
    if a = 0 then 0x8000 ≤ x.toNat ∧ x.toNat < 0x9000
    else if a = 0xA000 then 0x4000 ≤ x.toNat ∧ x.toNat < 0x5000
    else 0x6000 ≤ x.toNat ∧ x.toNat < 0x7000 := by
  unfold OnStack bootEnv
  by_cases h : a = 0
  · simp only [if_pos h]
  · by_cases h' : a = 0xA000
    · simp only [if_neg h, if_pos h']
    · simp only [if_neg h, if_neg h']

theorem bootStack_bounds {a x : U32} (h : OnStack bootEnv a x) : 0x4000 ≤ x.toNat ∧ x.toNat < 0x9000 := by
  rw [bootStack] at h
  split at h
  · omega
  · split at h <;> omega

theorem bootStack_apart {a b x : U32} (ha : a = 0 ∨ a = 0xA000 ∨ a = 0xB000) (hb : b = 0 ∨ b = 0xA000 ∨ b = 0xB000)
    (hab : a ≠ b) (hx : OnStack bootEnv a x) : ¬ OnStack bootEnv b x := by
  intro hx'
  rw [bootStack] at hx hx'
  obtain rfl | rfl | rfl := ha <;> obtain rfl | rfl | rfl := hb <;> simp at hx hx' hab <;> omega

theorem bootSeparate {ps : List U32} (h : ∀ p ∈ ps, p = 0xA000 ∨ p = 0xB000) : Separate bootEnv ps := by
  have hall : ∀ a ∈ 0 :: ps, a = 0 ∨ a = 0xA000 ∨ a = 0xB000 := by
    intro a ha
    exact (List.mem_cons.1 ha).imp_right (h a)
  have hfield : ∀ p ∈ ps, ∀ x, InSpan p 4 x → (p = 0xA000 ∧ 0xA000 ≤ x.toNat ∧ x.toNat < 0xA004) ∨
      (p = 0xB000 ∧ 0xB000 ≤ x.toNat ∧ x.toNat < 0xB004) := by
    intro p hp x hx
    unfold InSpan at hx
    obtain rfl | rfl := h p hp
    · exact .inl ⟨rfl, hx⟩
    · exact .inr ⟨rfl, hx⟩
  have hk : ∀ x, InSpan bootEnv.klist 4 x → 0x1000 ≤ x.toNat ∧ x.toNat < 0x1004 := fun x hx => hx
  refine ⟨?_, ?_, ?_, ?_, ?_, ?_, ?_, by decide, fun h0 => ?_⟩
  · intro a ha b hb hab x hx
    exact bootStack_apart (hall a ha) (hall b hb) hab hx
  · intro p hpm a _ x hx hs
    have := bootStack_bounds hs
    have := hfield p hpm x hx
    omega
  · intro p hpm q hqm hne x hx hx'
    obtain ⟨rfl, h1⟩ | ⟨rfl, h1⟩ := hfield p hpm x hx <;> obtain ⟨rfl, h2⟩ | ⟨rfl, h2⟩ := hfield q hqm x hx'
    · exact hne rfl
    · omega
    · omega
    · exact hne rfl
  · intro p hpm x hx hx'
    have := hfield p hpm x hx
    have := hk x hx'
    omega
  · intro a _ x hx hs
    have := bootStack_bounds hs
    have := hk x hx
    omega
  · intro a ha
    obtain rfl | rfl | rfl := hall a ha <;> decide
  · intro p hpm
    obtain rfl | rfl := h p hpm <;> decide
  · obtain h0 | h0 := h 0 h0 <;> exact absurd h0 (by decide)

/-- Both processes are created, and the boot code still runs. -/
theorem spawned : RunsAt bootEnv 0 bootCpu spawnRecords ⟨spawnCore, [0xB000, 0xA000], spawnRecords⟩ := by
  have hA : (0xA000 : U32).toNat = 0xA000 := rfl
  have hB : (0xB000 : U32).toNat = 0xB000 := rfl
  have hk : ∀ x, InSpan bootEnv.klist 4 x → 0x1000 ≤ x.toNat ∧ x.toNat < 0x1004 := fun x hx => hx
  have h0 : Tasks.current bootEnv ⟨firstCore, [0xA000], firstRecords⟩ = 0 := by decide +kernel
  have hfirst : TaskRun bootEnv ⟨firstCore, [0xA000], firstRecords⟩ := by
    refine (TaskRun.start bootCore (by decide +kernel) (bootSeparate fun p hp => ?_) (by decide) (by decide)).step
      (.create 0xA000 0x100000 0x4F00 List.not_mem_nil (bootSeparate fun p hp => ?_) (by decide +kernel) (by decide)
        (fun x hx => ?_) (by decide) fun x hx => ⟨?_, fun hs => ?_⟩)
    · exact absurd hp List.not_mem_nil
    · exact .inl (List.mem_singleton.1 hp)
    · simp [FrameByte] at hx
      simp [OnStack, bootEnv]
      omega
    · unfold InSpan at hx
      rintro (hx' | ⟨p, hp, -⟩ | ⟨p, hp, -⟩ | ⟨r, hr, -⟩)
      · have := hk x hx'
        omega
      · exact absurd hp List.not_mem_nil
      · exact absurd hp List.not_mem_nil
      · exact absurd hr List.not_mem_nil
    · unfold InSpan at hx
      have := bootStack_bounds hs
      omega
  refine ⟨hfirst.step (.create 0xB000 0x200000 0x6F00 (by decide) (bootSeparate fun p hp => ?_) (by decide +kernel)
    (by decide) (fun x hx => ?_) (by decide) fun x hx => ⟨?_, fun hs => ?_⟩), by decide +kernel, rfl, rfl⟩
  · simp at hp
    exact hp.symm
  · simp [FrameByte] at hx
    simp [OnStack, bootEnv]
    omega
  · unfold InSpan at hx
    rintro (hx' | ⟨p, hp, hx'⟩ | ⟨p, hp, -, hs⟩ | ⟨r, hr, -⟩)
    · have := hk x hx'
      omega
    · obtain rfl := List.mem_singleton.1 hp
      unfold InSpan at hx'
      omega
    · have := bootStack_bounds hs
      omega
    · rw [h0] at hr
      exact absurd hr List.not_mem_nil
  · unfold InSpan at hx
    have := bootStack_bounds hs
    omega

/-- In a run, the process that the record `r` is of has gone on from it, reaching `s`. -/
def Continued (r : Record) (s : Tasks) : Prop :=
  (∃ t, TaskRun bootEnv t ∧ TaskStep bootEnv t (.resumes (some r)) s) ∧ r.Resumed s.core.cpu

/-- The boot code starts the first process. It is interrupted, and the handler
switches to the second, which switches back; the handler returns. -/
theorem switches_transparent_sample : ∃ s₁ s₂ s₃ s₄ : Tasks, Continued (.fresh 0x100000 0x4F00) s₁ ∧
    Continued (.fresh 0x200000 0x6F00) s₂ ∧ Continued (.call handlerCpu 0x2345) s₃ ∧
    Continued (.irq (freshCpu 0x100000 0x4F00)) s₄ ∧ s₄.current bootEnv = 0xA000 := by
  obtain ⟨t₁, s₁, hrun₁, hstep₁, hp₁, h₁⟩ := spawned.calls 0xA000 (by decide) bootCpu 0x1234
    (by decide) (by decide) rfl
  obtain ⟨b, u, hp, hu⟩ := h₁.irq 0 (by decide)
  rw [hp₁] at hp
  obtain ⟨t₂, s₂, hrun₂, hstep₂, hp₂, h₂⟩ := hu.calls 0xB000 (by rw [hp]; decide) handlerCpu 0x2345
    (by decide) (by decide) rfl
  rw [hp] at hp₂
  obtain ⟨t₃, s₃, hrun₃, hstep₃, -, h₃⟩ := h₂.calls 0xA000 (by rw [hp₂]; decide) backCpu 0x3456
    (by decide) (by decide) rfl
  obtain ⟨t₄, s₄, hrun₄, hstep₄, h₄⟩ := h₃.returns rfl (by decide)
  obtain ⟨_, ⟨⟩, hr₁⟩ := switches_transparent hrun₁ hstep₁
  obtain ⟨_, ⟨⟩, hr₂⟩ := switches_transparent hrun₂ hstep₂
  obtain ⟨_, ⟨⟩, hr₃⟩ := switches_transparent hrun₃ hstep₃
  obtain ⟨_, ⟨⟩, hr₄⟩ := switches_transparent hrun₄ hstep₄
  exact ⟨s₁, s₂, s₃, s₄, ⟨⟨t₁, hrun₁, hstep₁⟩, hr₁⟩, ⟨⟨t₂, hrun₂, hstep₂⟩, hr₂⟩, ⟨⟨t₃, hrun₃, hstep₃⟩, hr₃⟩,
    ⟨⟨t₄, hrun₄, hstep₄⟩, hr₄⟩, h₄.current⟩

end LineOS
