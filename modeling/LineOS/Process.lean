import LineOS.ByteMemory
import Mathlib.Logic.Function.Basic

/- `process/process.c`, `cpu/timer.c` and `process/switchto.asm`: the process list
   and the scheduler. A `process_t` is looked up by its address, whatever is there
   (`Kernel.proc` is defined at every address, NULL and freed blocks included),
   and `k_proclist.list` is the list of the structures linked into it. The name,
   the stack frame and the registers saved on it are left out: nothing the
   scheduler decides depends on them.

   Beside the program's own data a kernel keeps what a run is judged by: the heap
   blocks `create_process` holds, every access to a process structure with
   whether it was live then, and the processes `switchTo` was given.

   `select_next_process` need not end, so the functions that reach it take the
   number of walks over the list it may make and say whether that was enough. -/
namespace LineOS
open ByteMemory

abbrev U16 := BitVec 16

/-- The state byte of a process: one of the three values of `process.h`, or another. -/
inductive ProcState where
  | unset
  | ready
  | running
  | sleeping
  deriving DecidableEq, Repr

/-- `process_t`, the fields the scheduler reads. -/
structure Process where
  pid : U32
  kstack : U32
  state : ProcState
  ticks : U16
  timeout : U32
  parent : U32
  tt : U32

/-- `k_proclist` -/
structure ProcList where
  current : U32
  pidcnt : U32
  count : U32
  kernelPreempt : Bool
  list : List U32

/-- An access to the process structure at `ptr`. -/
structure Access where
  ptr : U32
  live : Bool
  deriving DecidableEq

structure Kernel where
  proclist : ProcList
  proc : U32 → Process
  allocated : List U32
  trace : List Access
  switches : List U32

/-- A process pointer that may be dereferenced. -/
def Live (s : Kernel) (p : U32) : Prop := p ≠ 0 ∧ p ∈ s.allocated

instance (s : Kernel) (p : U32) : Decidable (Live s p) := inferInstanceAs (Decidable (_ ∧ _))

def deref (p : U32) (s : Kernel) : Kernel :=
  { s with trace := ⟨p, decide (Live s p)⟩ :: s.trace }

/-- Read and write the structure at `p`. -/
def modify (p : U32) (f : Process → Process) (s : Kernel) : Kernel :=
  { deref p s with proc := Function.update s.proc p (f (s.proc p)) }

/-- `list_for_each` over processes whose body changes the visited one by `f`. -/
def forEach (f : Process → Process) (ps : List U32) (s : Kernel) : Kernel :=
  ps.foldl (fun s p => modify p f s) s

/-- `init_process`, in whatever memory holds. -/
def initProcess (mem : U32 → Process) : Kernel :=
  ⟨⟨0, 0, 0, false, []⟩, mem, [], [], []⟩

def enableKernelPreempt (s : Kernel) : Kernel :=
  { s with proclist := { s.proclist with kernelPreempt := true } }

def isKernelPreempt (s : Kernel) : Bool := s.proclist.kernelPreempt

def getCurrentProcess (s : Kernel) : U32 := s.proclist.current

/-- A structure as `memset`, `setup_kernel_process` and the rest of
`create_process` leave it. -/
def newProcess (pid kstack parent : U32) : Process := ⟨pid, kstack, .ready, 100, 0, parent, 0⟩

/-- `create_process`, where the two calls of `kmalloc` return `p` and `k`. After a
NULL stack the structure is freed and used all the same: `panic` returns, and no
`return` follows it. -/
def createProcess (p k : U32) (s : Kernel) : U32 × Kernel :=
  if p = 0 then (0, s)
  else
    let pid := s.proclist.pidcnt
    let blocks := if k = 0 then (p :: s.allocated).erase p else k :: p :: s.allocated
    let s := modify p (fun _ => newProcess pid k (getCurrentProcess s)) { s with allocated := blocks }
    (pid, { s with proclist := { s.proclist with
      pidcnt := pid + 1, count := s.proclist.count + 1, list := s.proclist.list ++ [p] } })

/-! The scheduler. -/

/-- The body of `update_timeouts`. -/
def wake (q : Process) : Process :=
  if q.state = .sleeping then
    let q := { q with timeout := q.timeout - 1 }
    if q.timeout = 0 then { q with state := .ready } else q
  else q

def updateTimeouts (s : Kernel) : Kernel := forEach wake s.proclist.list s

def refill (q : Process) : Process := { q with ticks := 100 }

def giveTicks (s : Kernel) : Kernel := forEach refill s.proclist.list s

def spendTick (q : Process) : Process :=
  if 0 < q.ticks then { q with ticks := q.ticks - 1, tt := q.tt + 1 } else q

def accountTicks (p : U32) (s : Kernel) : Kernel := modify p spendTick s

/-- A process `select_next_process` may take. -/
def Eligible (q : Process) : Prop := q.state = .ready ∧ 0 < q.ticks

instance (q : Process) : Decidable (Eligible q) := inferInstanceAs (Decidable (_ ∧ _))

/-- One walk from `findproc:` to the first eligible process. -/
def findProc : List U32 → Kernel → Option U32 × Kernel
  | [], s => (none, s)
  | p :: ps, s => if Eligible (s.proc p) then (some p, deref p s) else findProc ps (deref p s)

/-- `select_next_process`, stopped after the given number of walks. -/
def selectNextProcess : Nat → Kernel → Option U32 × Kernel
  | 0, s => (none, s)
  | fuel + 1, s =>
    match findProc s.proclist.list s with
    | (some p, s) => (some p, s)
    | (none, s) => selectNextProcess fuel (giveTicks s)

/-- `_switchTo`: the old stack pointer is saved unless there is no current process. -/
def switchTo (p : U32) (s : Kernel) : Kernel :=
  let s := if s.proclist.current = 0 then s else deref s.proclist.current s
  deref p { s with proclist := { s.proclist with current := p }, switches := p :: s.switches }

/-- Where `schedule` is after its checks: back at its caller, or at the search. -/
inductive Entry where
  | returned (s : Kernel)
  | searching (s : Kernel)

def yieldCpu (q : Process) : Process := if q.state = .running then { q with state := .ready } else q

/-- `schedule` up to its call of `select_next_process`. -/
def scheduleEntry (s : Kernel) : Entry :=
  if !isKernelPreempt s then .returned s
  else if s.proclist.count = 0 then .returned s
  else
    let s := updateTimeouts s
    let cur := s.proclist.current
    if cur ≠ 0 ∧ (s.proc cur).ticks ≠ 0 then .returned (accountTicks cur s)
    else .searching (modify cur yieldCpu s)

/-- `schedule` after the search found `p`. -/
def dispatch (p : U32) (s : Kernel) : Kernel :=
  switchTo p (accountTicks p (modify p (fun q => { q with state := .running }) s))

def schedule (fuel : Nat) (s : Kernel) : Bool × Kernel :=
  match scheduleEntry s with
  | .returned s => (true, s)
  | .searching s =>
    match selectNextProcess fuel s with
    | (some p, s) => (true, dispatch p s)
    | (none, s) => (false, s)

/-! The calls a process makes, each in two parts: what it does itself, and `schedule`. -/

def timerHandler (fuel : Nat) (s : Kernel) : Bool × Kernel := schedule fuel s

def expireCurrent (s : Kernel) : Kernel :=
  modify (getCurrentProcess s) (fun q => { q with ticks := 0 }) s

def processExpire (fuel : Nat) (s : Kernel) : Bool × Kernel := schedule fuel (expireCurrent s)

def sleepCurrent (ticks : U32) (s : Kernel) : Kernel :=
  modify (getCurrentProcess s) (fun q => { q with state := .sleeping, timeout := ticks }) s

def processSleep (fuel : Nat) (ticks : U32) (s : Kernel) : Bool × Kernel :=
  processExpire fuel (sleepCurrent ticks s)

/-- `list_del` and `kfree` of the current process. Its stack is not freed and
`k_proclist.count` stays. -/
def freeCurrent (s : Kernel) : Kernel :=
  let me := getCurrentProcess s
  let s := deref me s
  { s with
    proclist := { s.proclist with list := s.proclist.list.erase me }
    allocated := s.allocated.erase me }

def processEnd (fuel : Nat) (s : Kernel) : Bool × Kernel := processExpire fuel (freeCurrent s)

/-! What accesses leave alone. -/

section
variable (p : U32) (f : Process → Process) (s : Kernel)

@[simp] theorem modify_proclist : (modify p f s).proclist = s.proclist := rfl
@[simp] theorem modify_switches : (modify p f s).switches = s.switches := rfl
@[simp] theorem modify_same : (modify p f s).proc p = f (s.proc p) := Function.update_self ..

theorem modify_off {q : U32} (h : q ≠ p) : (modify p f s).proc q = s.proc q :=
  Function.update_of_ne h ..

/-- A field that `f` keeps is kept at every process. -/
theorem modify_field {α : Type} (g : Process → α) (hf : ∀ r, g (f r) = g r) (q : U32) :
    g ((modify p f s).proc q) = g (s.proc q) := by
  by_cases h : q = p
  · rw [h, modify_same, hf]
  · rw [modify_off p f s h]

end

section
variable (f : Process → Process) (ps : List U32) (s : Kernel)

@[simp] theorem forEach_proclist : (forEach f ps s).proclist = s.proclist := by
  induction ps generalizing s with
  | nil => rfl
  | cons p ps ih => exact ih _

@[simp] theorem forEach_allocated : (forEach f ps s).allocated = s.allocated := by
  induction ps generalizing s with
  | nil => rfl
  | cons p ps ih => exact ih _

@[simp] theorem forEach_switches : (forEach f ps s).switches = s.switches := by
  induction ps generalizing s with
  | nil => rfl
  | cons p ps ih => exact ih _

theorem forEach_off {q : U32} (h : q ∉ ps) : (forEach f ps s).proc q = s.proc q := by
  induction ps generalizing s with
  | nil => rfl
  | cons p ps ih =>
    have hq : q ≠ p := fun e => h (e ▸ List.mem_cons_self)
    have := ih (modify p f s) fun hm => h (List.mem_cons_of_mem _ hm)
    rw [modify_off p f s hq] at this
    exact this

/-- A walk over a list without repetition visits each of its processes once. -/
theorem forEach_on (hn : ps.Nodup) {q : U32} (h : q ∈ ps) : (forEach f ps s).proc q = f (s.proc q) := by
  induction ps generalizing s with
  | nil => cases h
  | cons p ps ih =>
    have hp := List.nodup_cons.mp hn
    obtain e | hq := List.mem_cons.mp h
    · have := forEach_off f ps (modify p f s) hp.1
      rw [modify_same] at this
      rw [e]
      exact this
    · have hne : q ≠ p := fun e => hp.1 (e ▸ hq)
      have := ih (modify p f s) hp.2 hq
      rw [modify_off p f s hne] at this
      exact this

theorem forEach_field {α : Type} (g : Process → α) (hf : ∀ r, g (f r) = g r) (q : U32) :
    g ((forEach f ps s).proc q) = g (s.proc q) := by
  induction ps generalizing s with
  | nil => rfl
  | cons p ps ih => exact (ih (modify p f s)).trans (modify_field p f s g hf q)

end
end LineOS
