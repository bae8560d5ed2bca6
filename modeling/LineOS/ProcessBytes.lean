import LineOS.ContextSwitch
import LineOS.ProcessInv

/- `process/process.c` in memory: the process table and the scheduler, byte for byte.
   `k_proclist` is 24 bytes at `klist`, with `current` first and the head of the list
   at 16; a `process_t` is looked up by its offsets, and the loops walk the links.

   `ProcImage` is how a memory shows a kernel of `Process`. Each function here keeps
   it beside the function of the same name there (`wakeMem_updates` to
   `schedule_image`): what the scheduler does to the bytes is what it does to the
   records, and it stores to nothing else.

   What the calls of C functions keep on the stack is left out, but for the call of
   `switchTo`, which is the code of `switchto.asm` itself. -/
namespace LineOS
open ByteMemory ByteMemory.Mem LinkedRing SlotStack

/-! `k_proclist`, by offset: `current` is at 0. -/

def offPidcnt : U32 := 4
def offCount : U32 := 8
def offPreempt : U32 := 12
def offProcs : U32 := 16

def offTimeout : U32 := 68

/-- The values of `process.h`. -/
def stateOf (b : U8) : ProcState :=
  if b = 0x1 then .ready else if b = 0x2 then .running else if b = 0x3 then .sleeping else .unset

/-- The `process_t` at `p`. -/
def processAt (m : Mem) (p : U32) : Process where
  pid := m.load32 (p + offPid)
  kstack := m.load32 (p + offKstack)
  state := stateOf (m.byte (p + offState))
  ticks := m.load16 (p + offTicks)
  timeout := m.load32 (p + offTimeout)
  parent := m.load32 (p + offParent)
  tt := m.load32 (p + offTt)

/-! The code. -/

def initProcessMem (klist : U32) (m : Mem) : Mem :=
  let m := initListHead (klist + offProcs) m
  let m := m.store32 klist 0
  let m := m.store32 (klist + offPidcnt) 0
  let m := m.store32 (klist + offCount) 0
  m.store32 (klist + offPreempt) 0

def enableKernelPreemptMem (klist : U32) (m : Mem) : Mem := m.store32 (klist + offPreempt) 1

/-- The flag is a `u32`, returned as a `u8`. -/
def isKernelPreemptMem (klist : U32) (m : Mem) : U8 := (m.load32 (klist + offPreempt)).setWidth 8

/-- `list_for_each` from the node `this` on, over processes. -/
def forEachMem (head : U32) (body : U32 → Mem → Mem) : Nat → U32 → Mem → Option Mem
  | 0, _, _ => none
  | fuel + 1, this, m =>
    if this = head then some m
    else
      let m := body (this - offList) m
      forEachMem head body fuel (listNext m this) m

def walkProcs (klist : U32) (body : U32 → Mem → Mem) (m : Mem) : Option Mem :=
  forEachMem (klist + offProcs) body (2 ^ 32) (listNext m (klist + offProcs)) m

/-- The body of `update_timeouts`. -/
def wakeMem (ptr : U32) (m : Mem) : Mem :=
  if m.byte (ptr + offState) = 0x3 then
    let m := m.store32 (ptr + offTimeout) (m.load32 (ptr + offTimeout) - 1)
    if m.load32 (ptr + offTimeout) = 0 then m.store8 (ptr + offState) 0x1 else m
  else m

def updateTimeoutsMem (klist : U32) (m : Mem) : Option Mem := walkProcs klist wakeMem m

def refillMem (ptr : U32) (m : Mem) : Mem := m.store16 (ptr + offTicks) 100

def giveTicksMem (klist : U32) (m : Mem) : Option Mem := walkProcs klist refillMem m

def accountTicksMem (process : U32) (m : Mem) : Mem :=
  if 0 < m.load16 (process + offTicks) then
    let m := m.store16 (process + offTicks) (m.load16 (process + offTicks) - 1)
    m.store32 (process + offTt) (m.load32 (process + offTt) + 1)
  else m

def eligibleMem (m : Mem) (ptr : U32) : Bool :=
  decide (m.byte (ptr + offState) = 0x1) && decide (0 < m.load16 (ptr + offTicks))

/-- `select_next_process`, stopped after the given number of walks. -/
def selectNextProcessMem (klist : U32) : Nat → Mem → Option (Option U32 × Mem)
  | 0, m => some (none, m)
  | fuel + 1, m => do
    match ← seek (listNext m) (klist + offProcs) (fun this => eligibleMem m (this - offList)) (2 ^ 32)
        (listNext m (klist + offProcs)) with
    | some this => some (some (this - offList), m)
    | none => selectNextProcessMem klist fuel (← giveTicksMem klist m)

/-- The call `switchTo(nextproc)` with the registers `cpu`, to return to `ret`. -/
def switchToMem (klist nextproc : U32) (cpu : Cpu) (ret : U32) (m : Mem) : Core :=
  runCode (switchToCode klist) (((⟨cpu, m⟩ : Core).push nextproc).push ret)

def yieldMem (current : U32) (m : Mem) : Mem :=
  if m.byte (current + offState) = 0x2 then m.store8 (current + offState) 0x1 else m

/-- `schedule` from `select_next_process` on. -/
def searchMem (klist : U32) (cpu : Cpu) (ret : U32) (fuel : Nat) (m : Mem) : Option (Bool × Mem) := do
  match ← selectNextProcessMem klist fuel m with
  | (none, m) => some (false, m)
  | (some nextproc, m) =>
    let m := accountTicksMem nextproc (m.store8 (nextproc + offState) 0x2)
    some (true, (switchToMem klist nextproc cpu ret m).mem)

/-- `schedule`. The flag is false if the search is still going on. -/
def scheduleMem (klist : U32) (cpu : Cpu) (ret : U32) (fuel : Nat) (m : Mem) : Option (Bool × Mem) :=
  if isKernelPreemptMem klist m = 0 then some (true, m)
  else if m.load32 (klist + offCount) = 0 then some (true, m)
  else do
    let m ← updateTimeoutsMem klist m
    let current := m.load32 klist
    if current ≠ 0 ∧ m.load16 (current + offTicks) ≠ 0 then some (true, accountTicksMem current m)
    else searchMem klist cpu ret fuel (yieldMem current m)

def expireCurrentMem (klist : U32) (m : Mem) : Mem := m.store16 (m.load32 klist + offTicks) 0

def sleepCurrentMem (klist ticks : U32) (m : Mem) : Mem :=
  let me := m.load32 klist
  (m.store8 (me + offState) 0x3).store32 (me + offTimeout) ticks

/-! How memory shows a kernel. -/

/-- The bytes of a structure that its record is in. -/
def RecordByte (p x : U32) : Prop :=
  p.toNat + 8 ≤ x.toNat ∧ x.toNat < p.toNat + 12 ∨ p.toNat + 20 ≤ x.toNat ∧ x.toNat < p.toNat + 24 ∨
    p.toNat + 64 ≤ x.toNat ∧ x.toNat < p.toNat + 84

/-- Those, and its links. -/
def TableByte (p x : U32) : Prop :=
  p.toNat + 8 ≤ x.toNat ∧ x.toNat < p.toNat + 12 ∨ p.toNat + 20 ≤ x.toNat ∧ x.toNat < p.toNat + 32 ∨
    p.toNat + 64 ≤ x.toNat ∧ x.toNat < p.toNat + 84

/-- `k_proclist`, and these bytes of the structures `ps`. -/
def ProcTableByte (klist : U32) (ps : List U32) (x : U32) : Prop := InSpan klist 24 x ∨ ∃ p ∈ ps, TableByte p x

/-- The structures the scheduler may look at. -/
def Kernel.seen (s : Kernel) : List U32 := s.proclist.current :: s.proclist.list

structure ProcImage (klist : U32) (m : Mem) (s : Kernel) : Prop where
  current : m.load32 klist = s.proclist.current
  pidcnt : m.load32 (klist + offPidcnt) = s.proclist.pidcnt
  count : m.load32 (klist + offCount) = s.proclist.count
  preempt : isKernelPreemptMem klist m ≠ 0 ↔ s.proclist.kernelPreempt = true
  ring : MemRing m (klist + offProcs) (s.proclist.list.map (· + offList))
  procs : ∀ p ∈ s.seen, processAt m p = s.proc p

/-- The structures `ps` and `k_proclist` do not overlap. -/
structure ProcLayout (klist : U32) (ps : List U32) : Prop where
  top : klist.toNat + 24 ≤ 2 ^ 32
  fit : ∀ p ∈ ps, p.toNat + 84 ≤ 2 ^ 32
  off : ∀ p ∈ ps, p.toNat + 84 ≤ klist.toNat ∨ klist.toNat + 24 ≤ p.toNat
  apart : ∀ p ∈ ps, ∀ q ∈ ps, p ≠ q → p.toNat + 84 ≤ q.toNat ∨ q.toNat + 84 ≤ p.toNat

theorem ProcLayout.mono {klist : U32} {ps qs : List U32} (h : ProcLayout klist ps) (hs : ∀ p ∈ qs, p ∈ ps) :
    ProcLayout klist qs :=
  ⟨h.top, fun p hp => h.fit p (hs p hp), fun p hp => h.off p (hs p hp),
    fun p hp q hq => h.apart p (hs p hp) q (hs q hq)⟩

/-- What the scheduler's stores to the structure at `p` hit. -/
def FieldsByte (p x : U32) : Prop := p.toNat + 64 ≤ x.toNat ∧ x.toNat < p.toNat + 84

/-- From `m` to `m'` the structure at `p` was changed as its record is by `f`. -/
structure Updates (f : Process → Process) (p : U32) (m m' : Mem) : Prop where
  writes : WritesOnly (FieldsByte p) m m'
  record : processAt m' p = f (processAt m p)

/-! The fields of one structure. -/

section
variable {m m' : Mem} {p : U32} {P : U32 → Prop}

theorem off_toNat (hp : p.toNat + 84 ≤ 2 ^ 32) {a : U32} (ha : a.toNat < 84) : (p + a).toNat = p.toNat + a.toNat := by
  rw [BitVec.toNat_add]
  exact Nat.mod_eq_of_lt (by omega)

/-- A word of the structure that the stores from offset `a` on miss. -/
theorem load32_beside {a b : U32} {n : Nat} (hp : p.toNat + 84 ≤ 2 ^ 32) (hw : WritesOnly (InSpan (p + a) n) m m')
    (ha : a.toNat < 84) (hb : b.toNat + 4 ≤ 84) (h : b.toNat + 4 ≤ a.toNat ∨ a.toNat + n ≤ b.toNat) :
    m'.load32 (p + b) = m.load32 (p + b) := by
  have ea := off_toNat hp ha
  have eb := off_toNat hp (a := b) (by omega)
  refine hw.load32_eq (by omega) fun x hx hx' => ?_
  unfold InSpan at hx hx'
  omega

theorem load16_beside {a b : U32} {n : Nat} (hp : p.toNat + 84 ≤ 2 ^ 32) (hw : WritesOnly (InSpan (p + a) n) m m')
    (ha : a.toNat < 84) (hb : b.toNat + 2 ≤ 84) (h : b.toNat + 2 ≤ a.toNat ∨ a.toNat + n ≤ b.toNat) :
    m'.load16 (p + b) = m.load16 (p + b) := by
  have ea := off_toNat hp ha
  have eb := off_toNat hp (a := b) (by omega)
  refine hw.load16_eq (by omega) fun x hx hx' => ?_
  unfold InSpan at hx hx'
  omega

theorem byte_beside {a b : U32} {n : Nat} (hp : p.toNat + 84 ≤ 2 ^ 32) (hw : WritesOnly (InSpan (p + a) n) m m')
    (ha : a.toNat < 84) (hb : b.toNat < 84) (h : b.toNat < a.toNat ∨ a.toNat + n ≤ b.toNat) :
    m'.byte (p + b) = m.byte (p + b) := by
  have ea := off_toNat hp ha
  have eb := off_toNat hp hb
  refine hw.2 _ fun hx => ?_
  unfold InSpan at hx
  omega

theorem writes_part32 (hp : p.toNat + 84 ≤ 2 ^ 32) {a : U32} (ha : a.toNat + 4 ≤ 84) (m : Mem) (w : U32) :
    WritesOnly (InSpan (p + a) 4) m (m.store32 (p + a) w) :=
  WritesOnly.store32 m w (by rw [off_toNat hp (by omega)]; omega) fun _ hx => hx

theorem writes_part16 (hp : p.toNat + 84 ≤ 2 ^ 32) {a : U32} (ha : a.toNat + 2 ≤ 84) (m : Mem) (w : U16) :
    WritesOnly (InSpan (p + a) 2) m (m.store16 (p + a) w) :=
  WritesOnly.store16 m w (by rw [off_toNat hp (by omega)]; omega) fun _ hx => hx

theorem writes_part8 (a : U32) (m : Mem) (v : U8) : WritesOnly (InSpan (p + a) 1) m (m.store8 (p + a) v) :=
  WritesOnly.store8 m v (by unfold InSpan; omega)

theorem processAt_congr (hp : p.toNat + 84 ≤ 2 ^ 32) (h : ∀ x, RecordByte p x → m'.byte x = m.byte x) :
    processAt m' p = processAt m p := by
  have e8 : (p + 8).toNat = p.toNat + 8 := by bv_omega
  have e20 : (p + 20).toNat = p.toNat + 20 := by bv_omega
  have e64 : (p + 64).toNat = p.toNat + 64 := by bv_omega
  have e66 : (p + 66).toNat = p.toNat + 66 := by bv_omega
  have e68 : (p + 68).toNat = p.toNat + 68 := by bv_omega
  have e76 : (p + 76).toNat = p.toNat + 76 := by bv_omega
  have e80 : (p + 80).toNat = p.toNat + 80 := by bv_omega
  have h16 : m'.load16 (p + 66) = m.load16 (p + 66) := by
    have e67 : (p + 66 + 1).toNat = p.toNat + 67 := by bv_omega
    unfold load16
    rw [h (p + 66) (by unfold RecordByte; omega), h (p + 66 + 1) (by unfold RecordByte; omega)]
  unfold processAt
  simp only [offKstack, offPid, offState, offTicks, offTimeout, offParent, offTt]
  rw [h16, h (p + 64) (by unfold RecordByte; omega),
    load32_congr (m := m) (a := p + 20) (by omega) fun x hx => h x (by unfold InSpan at hx; unfold RecordByte; omega),
    load32_congr (m := m) (a := p + 8) (by omega) fun x hx => h x (by unfold InSpan at hx; unfold RecordByte; omega),
    load32_congr (m := m) (a := p + 68) (by omega) fun x hx => h x (by unfold InSpan at hx; unfold RecordByte; omega),
    load32_congr (m := m) (a := p + 76) (by omega) fun x hx => h x (by unfold InSpan at hx; unfold RecordByte; omega),
    load32_congr (m := m) (a := p + 80) (by omega) fun x hx => h x (by unfold InSpan at hx; unfold RecordByte; omega)]

/-! One store to a field. -/

theorem processAt_state (hp : p.toNat + 84 ≤ 2 ^ 32) (m : Mem) (v : U8) :
    processAt (m.store8 (p + offState) v) p = { processAt m p with state := stateOf v } := by
  have hw := writes_part8 (p := p) offState m v
  unfold processAt
  rw [byte_store8_same, load32_beside hp hw (b := offPid) (by decide) (by decide) (by decide),
    load32_beside hp hw (b := offKstack) (by decide) (by decide) (by decide),
    load16_beside hp hw (b := offTicks) (by decide) (by decide) (by decide),
    load32_beside hp hw (b := offTimeout) (by decide) (by decide) (by decide),
    load32_beside hp hw (b := offParent) (by decide) (by decide) (by decide),
    load32_beside hp hw (b := offTt) (by decide) (by decide) (by decide)]

theorem processAt_ticks (hp : p.toNat + 84 ≤ 2 ^ 32) (m : Mem) (v : U16) :
    processAt (m.store16 (p + offTicks) v) p = { processAt m p with ticks := v } := by
  have hw := writes_part16 hp (a := offTicks) (by decide) m v
  unfold processAt
  rw [load16_store16_same, load32_beside hp hw (b := offPid) (by decide) (by decide) (by decide),
    load32_beside hp hw (b := offKstack) (by decide) (by decide) (by decide),
    byte_beside hp hw (b := offState) (by decide) (by decide) (by decide),
    load32_beside hp hw (b := offTimeout) (by decide) (by decide) (by decide),
    load32_beside hp hw (b := offParent) (by decide) (by decide) (by decide),
    load32_beside hp hw (b := offTt) (by decide) (by decide) (by decide)]

theorem processAt_timeout (hp : p.toNat + 84 ≤ 2 ^ 32) (m : Mem) (v : U32) :
    processAt (m.store32 (p + offTimeout) v) p = { processAt m p with timeout := v } := by
  have hw := writes_part32 hp (a := offTimeout) (by decide) m v
  unfold processAt
  rw [load32_store32_same, load32_beside hp hw (b := offPid) (by decide) (by decide) (by decide),
    load32_beside hp hw (b := offKstack) (by decide) (by decide) (by decide),
    byte_beside hp hw (b := offState) (by decide) (by decide) (by decide),
    load16_beside hp hw (b := offTicks) (by decide) (by decide) (by decide),
    load32_beside hp hw (b := offParent) (by decide) (by decide) (by decide),
    load32_beside hp hw (b := offTt) (by decide) (by decide) (by decide)]

theorem processAt_parent (hp : p.toNat + 84 ≤ 2 ^ 32) (m : Mem) (v : U32) :
    processAt (m.store32 (p + offParent) v) p = { processAt m p with parent := v } := by
  have hw := writes_part32 hp (a := offParent) (by decide) m v
  unfold processAt
  rw [load32_store32_same, load32_beside hp hw (b := offPid) (by decide) (by decide) (by decide),
    load32_beside hp hw (b := offKstack) (by decide) (by decide) (by decide),
    byte_beside hp hw (b := offState) (by decide) (by decide) (by decide),
    load16_beside hp hw (b := offTicks) (by decide) (by decide) (by decide),
    load32_beside hp hw (b := offTimeout) (by decide) (by decide) (by decide),
    load32_beside hp hw (b := offTt) (by decide) (by decide) (by decide)]

theorem processAt_tt (hp : p.toNat + 84 ≤ 2 ^ 32) (m : Mem) (v : U32) :
    processAt (m.store32 (p + offTt) v) p = { processAt m p with tt := v } := by
  have hw := writes_part32 hp (a := offTt) (by decide) m v
  unfold processAt
  rw [load32_store32_same, load32_beside hp hw (b := offPid) (by decide) (by decide) (by decide),
    load32_beside hp hw (b := offKstack) (by decide) (by decide) (by decide),
    byte_beside hp hw (b := offState) (by decide) (by decide) (by decide),
    load16_beside hp hw (b := offTicks) (by decide) (by decide) (by decide),
    load32_beside hp hw (b := offTimeout) (by decide) (by decide) (by decide),
    load32_beside hp hw (b := offParent) (by decide) (by decide) (by decide)]

/-! The bodies of the loops, and the other stores to one structure. -/

theorem stateOf_ready {b : U8} : stateOf b = .ready ↔ b = 0x1 := by
  unfold stateOf
  grind

theorem stateOf_running {b : U8} : stateOf b = .running ↔ b = 0x2 := by
  unfold stateOf
  grind

theorem stateOf_sleeping {b : U8} : stateOf b = .sleeping ↔ b = 0x3 := by
  unfold stateOf
  grind

theorem Updates.congr {f g : Process → Process} (h : Updates f p m m') (hfg : f (processAt m p) = g (processAt m p)) :
    Updates g p m m' := ⟨h.writes, h.record.trans hfg⟩

theorem Updates.nothing {f : Process → Process} (hf : f (processAt m p) = processAt m p) : Updates f p m m :=
  ⟨WritesOnly.refl m, hf.symm⟩

theorem Updates.trans {f g : Process → Process} {m₁ : Mem} (h : Updates f p m m₁) (h' : Updates g p m₁ m') :
    Updates (fun q => g (f q)) p m m' :=
  ⟨h.writes.trans h'.writes, h'.record.trans (congrArg g h.record)⟩

theorem fields_part (hp : p.toNat + 84 ≤ 2 ^ 32) {a x : U32} {n : Nat} (ha : 64 ≤ a.toNat) (hn : a.toNat + n ≤ 84)
    (h0 : 0 < n) (hx : InSpan (p + a) n x) : FieldsByte p x := by
  have e := off_toNat hp (a := a) (by omega)
  unfold InSpan at hx
  unfold FieldsByte
  omega

theorem setState_updates (hp : p.toNat + 84 ≤ 2 ^ 32) (m : Mem) (v : U8) :
    Updates (fun q => { q with state := stateOf v }) p m (m.store8 (p + offState) v) :=
  ⟨(writes_part8 offState m v).mono fun _ hx => fields_part hp (by decide) (by decide) (by decide) hx,
    processAt_state hp m v⟩

theorem setTicks_updates (hp : p.toNat + 84 ≤ 2 ^ 32) (m : Mem) (v : U16) :
    Updates (fun q => { q with ticks := v }) p m (m.store16 (p + offTicks) v) :=
  ⟨(writes_part16 hp (by decide) m v).mono fun _ hx => fields_part hp (by decide) (by decide) (by decide) hx,
    processAt_ticks hp m v⟩

theorem setTimeout_updates (hp : p.toNat + 84 ≤ 2 ^ 32) (m : Mem) (v : U32) :
    Updates (fun q => { q with timeout := v }) p m (m.store32 (p + offTimeout) v) :=
  ⟨(writes_part32 hp (by decide) m v).mono fun _ hx => fields_part hp (by decide) (by decide) (by decide) hx,
    processAt_timeout hp m v⟩

theorem setTt_updates (hp : p.toNat + 84 ≤ 2 ^ 32) (m : Mem) (v : U32) :
    Updates (fun q => { q with tt := v }) p m (m.store32 (p + offTt) v) :=
  ⟨(writes_part32 hp (by decide) m v).mono fun _ hx => fields_part hp (by decide) (by decide) (by decide) hx,
    processAt_tt hp m v⟩

theorem wakeMem_updates (hp : p.toNat + 84 ≤ 2 ^ 32) (m : Mem) : Updates wake p m (wakeMem p m) := by
  have hst : (processAt m p).state = .sleeping ↔ m.byte (p + offState) = 0x3 := stateOf_sleeping
  unfold wakeMem
  by_cases hs : m.byte (p + offState) = 0x3
  · have hu := setTimeout_updates hp m (m.load32 (p + offTimeout) - 1)
    rw [if_pos hs]
    simp only [load32_store32_same]
    by_cases h0 : m.load32 (p + offTimeout) - 1 = 0
    · rw [if_pos h0]
      refine (hu.trans (setState_updates hp _ 0x1)).congr ?_
      rw [wake, if_pos (hst.mpr hs)]
      exact (if_pos h0).symm
    · rw [if_neg h0]
      refine hu.congr ?_
      rw [wake, if_pos (hst.mpr hs)]
      exact (if_neg h0).symm
  · rw [if_neg hs]
    exact Updates.nothing (if_neg (mt hst.mp hs))

theorem refillMem_updates (hp : p.toNat + 84 ≤ 2 ^ 32) (m : Mem) : Updates refill p m (refillMem p m) :=
  setTicks_updates hp m 100

theorem accountTicksMem_updates (hp : p.toNat + 84 ≤ 2 ^ 32) (m : Mem) : Updates spendTick p m (accountTicksMem p m) := by
  unfold accountTicksMem
  by_cases h0 : 0 < m.load16 (p + offTicks)
  · rw [if_pos h0]
    have hu := setTicks_updates hp m (m.load16 (p + offTicks) - 1)
    refine (hu.trans (setTt_updates hp _ _)).congr ?_
    have htt := congrArg Process.tt hu.record
    rw [spendTick, if_pos (show 0 < (processAt m p).ticks from h0)]
    exact Process.mk.injEq .. ▸ ⟨rfl, rfl, rfl, rfl, rfl, rfl, congrArg (· + 1) htt⟩
  · rw [if_neg h0]
    exact Updates.nothing (if_neg h0)

theorem yieldMem_updates (hp : p.toNat + 84 ≤ 2 ^ 32) (m : Mem) : Updates yieldCpu p m (yieldMem p m) := by
  have hst : (processAt m p).state = .running ↔ m.byte (p + offState) = 0x2 := stateOf_running
  unfold yieldMem
  by_cases hr : m.byte (p + offState) = 0x2
  · rw [if_pos hr]
    refine (setState_updates hp m 0x1).congr ?_
    rw [yieldCpu, if_pos (hst.mpr hr)]
    rfl
  · rw [if_neg hr]
    exact Updates.nothing (if_neg (mt hst.mp hr))

theorem eligibleMem_iff (m : Mem) (p : U32) : eligibleMem m p = decide (Eligible (processAt m p)) := by
  have hst : (processAt m p).state = .ready ↔ m.byte (p + offState) = 0x1 := stateOf_ready
  rw [eligibleMem, ← Bool.decide_and, decide_eq_decide, Eligible, hst]
  rfl

end

/-! The image. -/

section
variable {klist : U32} {m m' : Mem} {s s' : Kernel} {p : U32} {ps : List U32}

theorem node_toNat (hl : ProcLayout klist ps) (hp : p ∈ ps) : (p + offList).toNat = p.toNat + 24 :=
  off_toNat (hl.fit p hp) (by decide)

theorem klist_toNat (hl : ProcLayout klist ps) {a : U32} (ha : a.toNat < 24) :
    (klist + a).toNat = klist.toNat + a.toNat := by
  have := hl.top
  rw [BitVec.toNat_add]
  exact Nat.mod_eq_of_lt (by omega)

theorem mem_seen (hp : p ∈ s.proclist.list) : p ∈ s.seen := List.mem_cons_of_mem _ hp

theorem ProcImage.of_links (h : ProcImage klist m s) (hl : ProcLayout klist s.seen) (hs : s'.proclist = s.proclist)
    (hk : ∀ x, InSpan klist 24 x → m'.byte x = m.byte x)
    (hlinks : ∀ p ∈ s.proclist.list, ∀ x, InSpan (p + offList) 8 x → m'.byte x = m.byte x)
    (hprocs : ∀ p ∈ s.seen, processAt m' p = s'.proc p) : ProcImage klist m' s' := by
  have htop := hl.top
  have hk32 : ∀ {a : U32}, a.toNat + 4 ≤ 24 → m'.load32 (klist + a) = m.load32 (klist + a) := by
    intro a ha
    have ea := klist_toNat hl (a := a) (by omega)
    exact load32_congr (by omega) fun x hx => hk x (by unfold InSpan at hx ⊢; omega)
  have hcur : m'.load32 klist = m.load32 klist := load32_congr (by omega) fun x hx => hk x (by unfold InSpan at hx ⊢; omega)
  refine ⟨?_, ?_, ?_, ?_, ?_, ?_⟩
  · rw [hcur, h.current, hs]
  · rw [hk32 (a := offPidcnt) (by decide), h.pidcnt, hs]
  · rw [hk32 (a := offCount) (by decide), h.count, hs]
  · rw [isKernelPreemptMem, hk32 (a := offPreempt) (by decide), hs]
    exact h.preempt
  · rw [hs]
    refine Ring.congr h.ring fun a ha => ?_
    have hnode : a.toNat + 8 ≤ 2 ^ 32 ∧ ∀ x, InSpan a 8 x → m'.byte x = m.byte x := by
      rcases List.mem_cons.mp ha with rfl | ha
      · have e16 := klist_toNat hl (a := offProcs) (by decide)
        rw [show offProcs.toNat = 16 from rfl] at e16
        exact ⟨by omega, fun x hx => hk x (by unfold InSpan at hx ⊢; omega)⟩
      · obtain ⟨q, hq, rfl⟩ := List.mem_map.mp ha
        have e24 := node_toNat hl (mem_seen hq)
        have hfit := hl.fit q (mem_seen hq)
        exact ⟨by omega, hlinks q hq⟩
    exact ⟨load32_congr (by omega) fun x hx => hnode.2 x (inSpan_low hx),
      load32_congr (by rw [toNat_add_four hnode.1]; omega) fun x hx => hnode.2 x (inSpan_high hnode.1 hx)⟩
  · have hseen : s'.seen = s.seen := by rw [Kernel.seen, Kernel.seen, hs]
    rw [hseen]
    exact hprocs

theorem ProcImage.keep (h : ProcImage klist m s) (hl : ProcLayout klist s.seen)
    (hm : ∀ x, ProcTableByte klist s.seen x → m'.byte x = m.byte x) : ProcImage klist m' s := by
  refine h.of_links hl rfl (fun x hx => hm x (.inl hx)) (fun p hp x hx => hm x (.inr ⟨p, mem_seen hp, ?_⟩)) fun p hp => ?_
  · have e24 := node_toNat hl (mem_seen hp)
    unfold InSpan at hx
    unfold TableByte
    omega
  · rw [processAt_congr (hl.fit p hp) fun x hx => hm x (.inr ⟨p, hp, ?_⟩), h.procs p hp]
    unfold RecordByte at hx
    unfold TableByte
    omega

theorem ProcImage.update {f : Process → Process} (h : ProcImage klist m s) (hl : ProcLayout klist s.seen) (hp : p ∈ s.seen)
    (hu : Updates f p m m') : ProcImage klist m' (modify p f s) := by
  refine h.of_links hl rfl (fun x hx => hu.writes.2 x ?_) (fun q hq x hx => hu.writes.2 x ?_) fun q hq => ?_
  · have := hl.off p hp
    unfold InSpan at hx
    unfold FieldsByte
    omega
  · have e24 := node_toNat hl (mem_seen hq)
    unfold InSpan at hx
    unfold FieldsByte
    by_cases hqp : q = p
    · subst hqp
      omega
    · have := hl.apart q (mem_seen hq) p hp hqp
      omega
  · by_cases hqp : q = p
    · subst hqp
      rw [modify_same, hu.record, h.procs q hp]
    · rw [modify_off _ _ _ hqp, processAt_congr (hl.fit q hq) fun x hx => hu.writes.2 x ?_, h.procs q hq]
      have := hl.apart q hq p hp hqp
      unfold RecordByte at hx
      unfold FieldsByte
      omega

theorem ProcImage.congr (h : ProcImage klist m s) (hs : s'.proclist = s.proclist) (hp : s'.proc = s.proc) :
    ProcImage klist m s' :=
  ⟨by rw [hs]; exact h.current, by rw [hs]; exact h.pidcnt, by rw [hs]; exact h.count, by rw [hs]; exact h.preempt,
    by rw [hs]; exact h.ring, fun p hm => by rw [hp]; exact h.procs p (by rwa [Kernel.seen, hs] at hm)⟩

/-! The loops. -/

theorem node_ne_head (hl : ProcLayout klist ps) (hp : p ∈ ps) : p + offList ≠ klist + offProcs := by
  intro e
  have e24 := node_toNat hl hp
  have e16 := klist_toNat hl (a := offProcs) (by decide)
  have hoff := hl.off p hp
  rw [e, e16, show offProcs.toNat = 16 from rfl] at e24
  omega

/-- A loop that changes each structure as `f` changes its record. -/
theorem forEachMem_image {f : Process → Process} {body : U32 → Mem → Mem}
    (hb : ∀ (p : U32) (m : Mem), p.toNat + 84 ≤ 2 ^ 32 → Updates f p m (body p m)) :
    ∀ {rest pre : List U32} {m : Mem} {s : Kernel} {fuel : Nat}, s.proclist.list = pre ++ rest → ProcImage klist m s →
      ProcLayout klist s.seen → rest.length < fuel → ∃ m',
        forEachMem (klist + offProcs) body fuel (first (klist + offProcs) (rest.map (· + offList))) m = some m' ∧
          ProcImage klist m' (forEach f rest s) ∧ WritesOnly (fun x => ∃ p ∈ s.seen, FieldsByte p x) m m'
  | [], _, m, s, fuel + 1, _, h, _, _ => ⟨m, if_pos rfl, h, WritesOnly.refl m⟩
  | p :: rest, pre, m, s, fuel + 1, hlist, h, hl, hlen => by
    have hp : p ∈ s.seen := mem_seen (hlist ▸ List.mem_append_right _ List.mem_cons_self)
    have hu := hb p m (hl.fit p hp)
    have h' := h.update hl hp hu
    have hring := h'.ring
    rw [modify_proclist, hlist, List.map_append, List.map_cons] at hring
    have hsplit : (modify p f s).proclist.list = (pre ++ [p]) ++ rest := by
      rw [modify_proclist, hlist, List.append_assoc]
      rfl
    obtain ⟨m', hrun, him, hw⟩ := forEachMem_image hb hsplit h' hl (Nat.lt_of_succ_lt_succ hlen)
    refine ⟨m', ?_, him, (hu.writes.mono fun x hx => ⟨p, hp, hx⟩).trans hw⟩
    rw [forEachMem, show first (klist + offProcs) ((p :: rest).map (· + offList)) = p + offList from rfl,
      if_neg (node_ne_head hl hp), BitVec.add_sub_cancel]
    simp only
    rw [show listNext (body p m) (p + offList) = _ from hring.next_mid]
    exact hrun

theorem walkProcs_image {f : Process → Process} {body : U32 → Mem → Mem}
    (hb : ∀ (p : U32) (m : Mem), p.toNat + 84 ≤ 2 ^ 32 → Updates f p m (body p m)) (h : ProcImage klist m s)
    (hl : ProcLayout klist s.seen) (hlen : s.proclist.list.length < 2 ^ 32) : ∃ m', walkProcs klist body m = some m' ∧
      ProcImage klist m' (forEach f s.proclist.list s) ∧ WritesOnly (fun x => ∃ p ∈ s.seen, FieldsByte p x) m m' := by
  rw [walkProcs, show listNext m (klist + offProcs) = _ from h.ring.next_head]
  exact forEachMem_image hb (List.nil_append _).symm h hl hlen

/-- The walk of the search: the first eligible process of the list. -/
theorem findProc_find (ps : List U32) (s : Kernel) : (findProc ps s).1 = ps.find? (fun p => decide (Eligible (s.proc p))) ∧
    (findProc ps s).2.proclist = s.proclist ∧ (findProc ps s).2.proc = s.proc := by
  induction ps generalizing s with
  | nil => exact ⟨rfl, rfl, rfl⟩
  | cons p ps ih =>
    rw [findProc, List.find?_cons]
    by_cases he : Eligible (s.proc p)
    · rw [if_pos he, decide_eq_true he]
      exact ⟨rfl, rfl, rfl⟩
    · rw [if_neg he, decide_eq_false he]
      exact ih (deref p s)

theorem seek_image (h : ProcImage klist m s) (hl : ProcLayout klist s.seen) (hlen : s.proclist.list.length < 2 ^ 32) :
    seek (listNext m) (klist + offProcs) (fun this => eligibleMem m (this - offList)) (2 ^ 32)
      (listNext m (klist + offProcs)) = some ((findProc s.proclist.list s).1.map (· + offList)) := by
  have hhead : klist + offProcs ∉ s.proclist.list.map (· + offList) := fun hm => by
    obtain ⟨p, hp, e⟩ := List.mem_map.mp hm
    exact node_ne_head hl (mem_seen hp) e
  rw [h.ring.seek_eq hhead _ (by rwa [List.length_map]), (findProc_find _ s).1, List.find?_map]
  congr 2
  refine List.find?_congr fun p hp => ?_
  rw [Function.comp_apply, BitVec.add_sub_cancel, eligibleMem_iff, h.procs p (mem_seen hp)]

/-- The search. -/
theorem select_image : ∀ (fuel : Nat) {m : Mem} {s : Kernel},
    ProcImage klist m s → ProcLayout klist s.seen → s.proclist.list.length < 2 ^ 32 → ∃ m',
      selectNextProcessMem klist fuel m = some ((selectNextProcess fuel s).1, m') ∧
        ProcImage klist m' (selectNextProcess fuel s).2 ∧ WritesOnly (fun x => ∃ p ∈ s.seen, FieldsByte p x) m m'
  | 0, m, s, h, _, _ => ⟨m, rfl, h, WritesOnly.refl m⟩
  | fuel + 1, m, s, h, hl, hlen => by
    obtain ⟨-, hproclist, hproc⟩ := findProc_find s.proclist.list s
    have hseek := seek_image h hl hlen
    rw [selectNextProcessMem, selectNextProcess]
    simp only [hseek, Option.bind_eq_bind, Option.bind_some]
    cases hf : findProc s.proclist.list s with
    | mk found t =>
      rw [hf] at hproclist hproc
      have ht : ProcImage klist m t := h.congr hproclist hproc
      have hseen : t.seen = s.seen := by rw [Kernel.seen, Kernel.seen, hproclist]
      cases found with
      | some p =>
        refine ⟨m, ?_, ht, WritesOnly.refl m⟩
        simp only [Option.map_some, BitVec.add_sub_cancel]
      | none =>
        obtain ⟨m₁, hgive, him, hw⟩ := walkProcs_image (fun p m hp => refillMem_updates hp m) ht (hseen ▸ hl)
          (by rw [hproclist]; exact hlen)
        have hg : (giveTicks t).proclist = t.proclist := forEach_proclist ..
        have hseen' : (giveTicks t).seen = s.seen := by rw [Kernel.seen, hg, ← hseen]; rfl
        obtain ⟨m', hrun, him', hw'⟩ := select_image fuel him (by
          rw [show (forEach refill _ t).seen = s.seen from hseen']
          exact hl)
          (by rw [show (forEach refill _ t).proclist = s.proclist from hg.trans hproclist]; exact hlen)
        refine ⟨m', ?_, him', (hseen ▸ hw).trans ?_⟩
        · simp only [Option.map_none]
          rw [show giveTicksMem klist m = some m₁ from hgive]
          exact hrun
        · rw [show (forEach refill _ t).seen = s.seen from hseen'] at hw'
          exact hw'

/-! `k_proclist`. -/

/-- A store to one of its members leaves the list, the records and the other members. -/
theorem ProcImage.member (h : ProcImage klist m s) (hl : ProcLayout klist s.seen) {a : U32} (ha : a.toNat + 4 ≤ 16) (w : U32) :
    MemRing (m.store32 (klist + a) w) (klist + offProcs) (s.proclist.list.map (· + offList)) ∧
      (∀ p ∈ s.seen, processAt (m.store32 (klist + a) w) p = s.proc p) ∧
      ∀ b : U32, b.toNat + 4 ≤ 16 → b.toNat + 4 ≤ a.toNat ∨ a.toNat + 4 ≤ b.toNat →
        (m.store32 (klist + a) w).load32 (klist + b) = m.load32 (klist + b) := by
  have htop := hl.top
  have ea := klist_toNat hl (a := a) (by omega)
  have e16 := klist_toNat hl (a := offProcs) (by decide)
  rw [show offProcs.toNat = 16 from rfl] at e16
  have hw : WritesOnly (InSpan (klist + a) 4) m (m.store32 (klist + a) w) :=
    WritesOnly.store32 m w (by omega) fun _ hx => hx
  refine ⟨?_, fun p hp => ?_, fun b hb hab => ?_⟩
  · refine h.ring.frame hw (fun c hc => ?_) ?_
    · rcases List.mem_cons.mp hc with rfl | hc
      · omega
      · obtain ⟨q, hq, rfl⟩ := List.mem_map.mp hc
        have e24 := node_toNat hl (mem_seen hq)
        have := hl.fit q (mem_seen hq)
        omega
    · rintro x ⟨c, hc, hx⟩ hx'
      unfold InSpan at hx hx'
      rcases List.mem_cons.mp hc with rfl | hc
      · omega
      · obtain ⟨q, hq, rfl⟩ := List.mem_map.mp hc
        have e24 := node_toNat hl (mem_seen hq)
        have := hl.off q (mem_seen hq)
        omega
  · rw [processAt_congr (hl.fit p hp) fun x hx => hw.2 x fun hx' => ?_, h.procs p hp]
    have := hl.off p hp
    unfold RecordByte at hx
    unfold InSpan at hx'
    omega
  · have eb := klist_toNat hl (a := b) (by omega)
    exact hw.load32_eq (by omega) fun x hx hx' => by unfold InSpan at hx hx'; omega

theorem ProcImage.setCurrent (h : ProcImage klist m s) (hl : ProcLayout klist s.seen) (hp : p ∈ s.proclist.list) :
    ProcImage klist (m.store32 klist p) (switchTo p s) := by
  obtain ⟨hring, hprocs, hload⟩ := h.member hl (a := 0) (by decide) p
  rw [show klist + 0 = klist from BitVec.add_zero klist] at hring hprocs hload
  refine ⟨load32_store32_same _ _ _, ?_, ?_, ?_, ?_, fun q hq => ?_⟩
  · rw [hload offPidcnt (by decide) (by decide), h.pidcnt]
    unfold switchTo
    split <;> rfl
  · rw [hload offCount (by decide) (by decide), h.count]
    unfold switchTo
    split <;> rfl
  · rw [isKernelPreemptMem, hload offPreempt (by decide) (by decide), show (switchTo p s).proclist.kernelPreempt =
      s.proclist.kernelPreempt by unfold switchTo; split <;> rfl]
    exact h.preempt
  · rw [show (switchTo p s).proclist.list = s.proclist.list by unfold switchTo; split <;> rfl]
    exact hring
  · rw [show (switchTo p s).proc q = s.proc q by unfold switchTo; split <;> rfl]
    refine hprocs q ?_
    rw [show (switchTo p s).seen = p :: s.proclist.list by unfold switchTo; split <;> rfl] at hq
    rcases List.mem_cons.mp hq with rfl | hq
    · exact mem_seen hp
    · exact mem_seen hq

/-! `switchTo`. -/

/-- The stack from `esp` down has room for the frame of `switchTo`, off the table. -/
structure SwitchRoom (klist : U32) (ps : List U32) (esp : U32) : Prop where
  room : 64 ≤ esp.toNat
  off : ∀ x : U32, esp.toNat - 64 ≤ x.toNat → x.toNat < esp.toNat → ¬ InSpan klist 24 x ∧ ∀ p ∈ ps, ¬ InSpan p 84 x

/-- What `switchTo` stores to. -/
def SwitchByte (klist : U32) (ps : List U32) (esp x : U32) : Prop :=
  InSpan klist 4 x ∨ (∃ p ∈ ps, InSpan p 4 x) ∨ esp.toNat - 64 ≤ x.toNat ∧ x.toNat < esp.toNat

theorem restore_mem (t : Core) : (runCode restoreCode t).mem = t.mem := by
  simp only [runCode, restoreCode, List.foldl_cons, List.foldl_nil, Instr.step, Core.popReg, Core.popSeg, Core.popad,
    Core.iret, Core.setReg, Core.drop]

theorem pushArgs (m : Mem) {cpu : Cpu} (hroom : 64 ≤ cpu.esp.toNat) (p ret : U32) :
    (((⟨cpu, m⟩ : Core).push p).push ret).cpu.esp + 4 = cpu.esp - 4 ∧
      (((⟨cpu, m⟩ : Core).push p).push ret).cpu.esp.toNat = cpu.esp.toNat - 8 ∧
      (((⟨cpu, m⟩ : Core).push p).push ret).mem.load32 (cpu.esp - 4) = p ∧
      WritesOnly (fun x => cpu.esp.toNat - 64 ≤ x.toNat ∧ x.toNat < cpu.esp.toNat) m
        (((⟨cpu, m⟩ : Core).push p).push ret).mem := by
  have e4 : (cpu.esp - 4).toNat = cpu.esp.toNat - 4 := push_addr (by omega)
  have e8 : (cpu.esp - 4 - 4).toNat = cpu.esp.toNat - 8 := by rw [push_addr (by omega), e4]; omega
  have hmem : (((⟨cpu, m⟩ : Core).push p).push ret).mem = (m.store32 (cpu.esp - 4) p).store32 (cpu.esp - 4 - 4) ret := rfl
  have hesp : (((⟨cpu, m⟩ : Core).push p).push ret).cpu.esp = cpu.esp - 4 - 4 := rfl
  rw [hmem, hesp]
  refine ⟨pop_push _, e8, ?_, (WritesOnly.store32 m p (by omega) fun x hx => ?_).trans
    (WritesOnly.store32 _ ret (by omega) fun x hx => ?_)⟩
  · rw [load32_store32_off _ _ (by omega) (by omega) (by omega), load32_store32_same]
  · unfold InSpan at hx
    omega
  · unfold InSpan at hx
    omega

/-- The code of `switchTo` in a memory that shows `s`. -/
theorem switchToMem_image (h : ProcImage klist m s) (hl : ProcLayout klist s.seen) (hp : p ∈ s.proclist.list) {cpu : Cpu}
    (hr : SwitchRoom klist s.seen cpu.esp) (ret : U32) : ProcImage klist (switchToMem klist p cpu ret m).mem (switchTo p s) ∧
      WritesOnly (SwitchByte klist s.seen cpu.esp) m (switchToMem klist p cpu ret m).mem := by
  have htop := hl.top
  have hroom := hr.room
  have e4 : (cpu.esp - 4).toNat = cpu.esp.toNat - 4 := push_addr (by omega)
  have hcode : switchToMem klist p cpu ret m = runCode restoreCode (runCode (swapCode klist)
      (runCode saveCode (((⟨cpu, m⟩ : Core).push p).push ret))) := by
    rw [switchToMem, switchToCode_eq, runCode_append, runCode_append]
  obtain ⟨hback, hesp, harg, hwt⟩ := pushArgs m hroom p ret
  rw [hcode, restore_mem]
  generalize ((⟨cpu, m⟩ : Core).push p).push ret = t at *
  have hsave := save_spec (s := t) (by omega) (by omega)
  rw [hback] at hsave
  have hlen : (switchSlots (returned t.cpu t.top)).length = 15 := rfl
  generalize runCode saveCode t = u at hsave ⊢
  have hdepth := hsave.depth
  rw [hlen] at hdepth
  have hu60 : u.cpu.esp + 60 = cpu.esp - 4 := by bv_omega
  have hwu : WritesOnly (fun x => cpu.esp.toNat - 64 ≤ x.toNat ∧ x.toNat < cpu.esp.toNat - 4) t.mem u.mem :=
    hsave.writes.mono fun x hx => ⟨by omega, by omega⟩
  have hargu : u.mem.load32 (cpu.esp - 4) = p := by
    rw [hwu.load32_eq (by omega) fun x hx hx' => by unfold InSpan at hx; omega]
    exact harg
  have hwstack := hwt.trans (hwu.mono fun x hx => ⟨hx.1, Nat.lt_of_lt_of_le hx.2 (Nat.sub_le _ _)⟩)
  have hwm : WritesOnly (SwitchByte klist s.seen cpu.esp) m u.mem := hwstack.mono fun x hx => .inr (.inr hx)
  -- nothing on the stack is part of the table
  have hstack : ∀ x, ProcTableByte klist s.seen x → ¬ (cpu.esp.toNat - 64 ≤ x.toNat ∧ x.toNat < cpu.esp.toNat) := by
    rintro x hx ⟨h1, h2⟩
    obtain ⟨hk, hps⟩ := hr.off x h1 h2
    rcases hx with hx | ⟨q, hq, hx⟩
    · exact hk hx
    · have := hl.fit q hq
      exact hps q hq (by unfold TableByte at hx; unfold InSpan; omega)
  have himu : ProcImage klist u.mem s := h.keep hl fun x hx => hwstack.2 x (hstack x hx)
  obtain ⟨hmem, -⟩ := swap_spec klist u
  rw [hmem, hu60, himu.current]
  split
  · rw [hargu]
    exact ⟨himu.setCurrent hl hp, hwm.trans (WritesOnly.store32 _ _ (by omega) fun x hx => .inl hx)⟩
  · -- the stack pointer goes into the structure of the process that is left
    have hc : s.proclist.current ∈ s.seen := List.mem_cons_self
    have hfit := hl.fit _ hc
    have hwc : WritesOnly (InSpan s.proclist.current 4) u.mem (u.mem.store32 s.proclist.current u.cpu.esp) :=
      WritesOnly.store32 _ _ (by omega) fun _ hx => hx
    have hargc : (u.mem.store32 s.proclist.current u.cpu.esp).load32 (cpu.esp - 4) = p := by
      rw [hwc.load32_eq (by omega) fun x hx hx' => ?_, hargu]
      exact (hr.off x (by unfold InSpan at hx; omega) (by unfold InSpan at hx; omega)).2 _ hc
        (by unfold InSpan at hx' ⊢; omega)
    rw [hargc]
    refine ⟨(himu.keep hl fun x hx => hwc.2 x fun hx' => ?_).setCurrent hl hp,
      (hwm.trans (hwc.mono fun x hx => .inr (.inl ⟨_, hc, hx⟩))).trans
        (WritesOnly.store32 _ _ (by omega) fun x hx => .inl hx)⟩
    unfold InSpan at hx'
    rcases hx with hx | ⟨q, hq, hx⟩
    · have := hl.off _ hc
      unfold InSpan at hx
      omega
    · unfold TableByte at hx
      by_cases hqc : q = s.proclist.current
      · subst hqc
        omega
      · have := hl.apart q hq _ hc hqc
        omega

/-! `schedule`. -/

/-- What a call of `schedule` stores to: the state, the ticks and the times of the structures, and what `switchTo` does. -/
def ScheduleByte (klist : U32) (ps : List U32) (esp x : U32) : Prop :=
  (∃ p ∈ ps, FieldsByte p x) ∨ SwitchByte klist ps esp x

/-- `schedule` from `select_next_process` on, for the records. -/
def searchResult (fuel : Nat) (s : Kernel) : Bool × Kernel :=
  match selectNextProcess fuel s with
  | (some p, s) => (true, dispatch p s)
  | (none, s) => (false, s)

theorem schedule_search {fuel : Nat} (h : Scheduling s) (ht : ¬ HasTicks s) :
    schedule fuel s = searchResult fuel (searchState s) := by
  rw [schedule, entry_search h ht]
  rfl

theorem search_image (fuel : Nat) (h : ProcImage klist m s) (hl : ProcLayout klist s.seen)
    (hlen : s.proclist.list.length < 2 ^ 32) {cpu : Cpu} (hr : SwitchRoom klist s.seen cpu.esp) (ret : U32) :
    ∃ m', searchMem klist cpu ret fuel m = some ((searchResult fuel s).1, m') ∧ ProcImage klist m' (searchResult fuel s).2 ∧
      WritesOnly (ScheduleByte klist s.seen cpu.esp) m m' := by
  obtain ⟨m₁, hrun, him, hw⟩ := select_image fuel h hl hlen
  have hsel := (select_searched fuel s).proclist
  unfold searchMem searchResult
  simp only [hrun, Option.bind_eq_bind, Option.bind_some]
  cases hf : selectNextProcess fuel s with
  | mk found t =>
    rw [hf] at him hsel
    have hseen : t.seen = s.seen := by rw [Kernel.seen, Kernel.seen, hsel]
    cases found with
    | none => exact ⟨m₁, rfl, him, hw.mono fun x hx => .inl hx⟩
    | some p =>
      have hp : p ∈ t.proclist.list := hsel ▸ (select_some hf).1
      have hl' : ProcLayout klist t.seen := hseen ▸ hl
      have hfit := hl'.fit p (mem_seen hp)
      have hu₁ := setState_updates hfit m₁ 0x2
      have h₁ := him.update hl' (mem_seen hp) hu₁
      have hu₂ := accountTicksMem_updates hfit (m₁.store8 (p + offState) 0x2)
      have h₂ := h₁.update hl' (mem_seen hp) hu₂
      obtain ⟨h₃, hw₃⟩ := switchToMem_image h₂ hl' hp (hseen ▸ hr) ret
      refine ⟨_, rfl, h₃, ?_⟩
      have hfields : ∀ x, FieldsByte p x → ScheduleByte klist s.seen cpu.esp x := fun x hx =>
        .inl ⟨p, hseen ▸ mem_seen hp, hx⟩
      have hseen' : ∀ f g : Process → Process, (modify p g (modify p f t)).seen = s.seen := fun _ _ => hseen
      rw [hseen'] at hw₃
      exact (((hw.mono fun x hx => .inl hx).trans (hu₁.writes.mono hfields)).trans (hu₂.writes.mono hfields)).trans
        (hw₃.mono fun x hx => .inr hx)

/-- **`schedule` in memory** does what `schedule` does to the records, and returns or goes on searching with it. -/
theorem schedule_image (fuel : Nat) (h : ProcImage klist m s) (hl : ProcLayout klist s.seen)
    (hlen : s.proclist.list.length < 2 ^ 32) {cpu : Cpu} (hr : SwitchRoom klist s.seen cpu.esp) (ret : U32) :
    ∃ m', scheduleMem klist cpu ret fuel m = some ((schedule fuel s).1, m') ∧ ProcImage klist m' (schedule fuel s).2 ∧
      WritesOnly (ScheduleByte klist s.seen cpu.esp) m m' := by
  have hflag : isKernelPreemptMem klist m = 0 ↔ s.proclist.kernelPreempt = false := by
    rw [← not_iff_not, Bool.not_eq_false]
    exact h.preempt
  unfold scheduleMem
  by_cases hpre : isKernelPreemptMem klist m = 0
  · rw [if_pos hpre, schedule_idle fun hs => absurd (hs.1.symm.trans (hflag.mp hpre)) (by decide)]
    exact ⟨m, rfl, h, WritesOnly.refl m⟩
  rw [if_neg hpre, h.count]
  by_cases hcount : s.proclist.count = 0
  · rw [if_pos hcount, schedule_idle fun hs => hs.2 hcount]
    exact ⟨m, rfl, h, WritesOnly.refl m⟩
  rw [if_neg hcount]
  have hsch : Scheduling s := ⟨by simpa using mt hflag.mpr hpre, hcount⟩
  obtain ⟨m₁, hwake, h₁, hw₁⟩ := walkProcs_image (fun p m hp => wakeMem_updates hp m) h hl hlen
  have hproclist : (updateTimeouts s).proclist = s.proclist := forEach_proclist ..
  have hseen : (updateTimeouts s).seen = s.seen := by rw [Kernel.seen, Kernel.seen, hproclist]
  have h₁' : ProcImage klist m₁ (updateTimeouts s) := h₁
  have hl₁ : ProcLayout klist (updateTimeouts s).seen := hseen ▸ hl
  have hw₁' : WritesOnly (ScheduleByte klist s.seen cpu.esp) m m₁ := hw₁.mono fun x hx => .inl hx
  have hcur : s.proclist.current ∈ s.seen := List.mem_cons_self
  have hcur₁ : s.proclist.current ∈ (updateTimeouts s).seen := hseen ▸ hcur
  have hfit := hl.fit _ hcur
  have hload : m₁.load32 klist = s.proclist.current := h₁'.current.trans (congrArg ProcList.current hproclist)
  have hticks : m₁.load16 (s.proclist.current + offTicks) = ((updateTimeouts s).proc s.proclist.current).ticks :=
    congrArg Process.ticks (h₁'.procs _ hcur₁)
  simp only [show updateTimeoutsMem klist m = some m₁ from hwake, Option.bind_eq_bind, Option.bind_some, hload, hticks]
  by_cases ht : HasTicks s
  · have hu := accountTicksMem_updates hfit m₁
    rw [if_pos (show _ ∧ _ from ht), schedule_ticks hsch ht]
    exact ⟨_, rfl, h₁'.update hl₁ hcur₁ hu, hw₁'.trans (hu.writes.mono fun x hx => .inl ⟨_, hcur, hx⟩)⟩
  · have hu := yieldMem_updates hfit m₁
    have hseen₂ : (searchState s).seen = s.seen := hseen
    have h₂ : ProcImage klist (yieldMem s.proclist.current m₁) (searchState s) := h₁'.update hl₁ hcur₁ hu
    obtain ⟨m₂, hrun, h₃, hw₃⟩ := search_image fuel h₂ (hseen₂ ▸ hl) (by rw [(scheduled_search s).list]; exact hlen)
      (hseen₂ ▸ hr) ret
    rw [if_neg (show ¬ (_ ∧ _) from ht), schedule_search hsch ht]
    exact ⟨m₂, hrun, h₃, (hw₁'.trans (hu.writes.mono fun x hx => .inl ⟨_, hcur, hx⟩)).trans (hseen₂ ▸ hw₃)⟩

end
end LineOS
