import LineOS.SleepRun

/- `process_sleep` statement by statement, with timer interrupts between any two
   of them. Beside the kernel there is for each process the place it has reached
   in a call of `process_sleep` or `process_expire`, whether it is running or was
   interrupted there and switched away from; the last two statements, with the
   interrupts off, are one move. The other calls are moves as a whole.

   An interrupt right after `me->state=PROC_SLEEPING` finds a sleeping process
   whose timeout is still 0, and counts it down to 2^32 - 1 (`window_wraps`).
   `move_inv` is that without such interrupts the timeout of a sleeping process is
   between 1 and what it asked for, and `sleep_interrupt_iff` every run. -/
namespace LineOS
open ByteMemory

/-! Statements. -/

/-- Where a process is: in no call, or at the statement named. -/
inductive SleepPc where
  | idle
  | setState (n : U32)
  | setTimeout (n : U32)
  | setTicks
  | yield

/-- A kernel whose processes are in the middle of calls; `asked` is the argument of
the last call of `process_sleep`. -/
structure Threads where
  kernel : Kernel
  pc : U32 → SleepPc
  asked : U32 → U32

namespace Threads

def current (s : Threads) : U32 := getCurrentProcess s.kernel

def proc (s : Threads) (p : U32) : Process := s.kernel.proc p

def goto (s : Threads) (pc : SleepPc) (k : Kernel) : Threads :=
  { s with kernel := k, pc := Function.update s.pc s.current pc }

end Threads

/-- `me->state=PROC_SLEEPING` -/
def setSleeping (s : Kernel) : Kernel :=
  modify (getCurrentProcess s) (fun q => { q with state := .sleeping }) s

/-- `me->timeout=ticks` -/
def setTimeout (ticks : U32) (s : Kernel) : Kernel :=
  modify (getCurrentProcess s) (fun q => { q with timeout := ticks }) s

/-- The statement the current process has reached. -/
def statement (fuel : Nat) (s : Threads) : Bool × Threads :=
  match s.pc s.current with
  | .idle => (true, s)
  | .setState n => (true, s.goto (.setTimeout n) (setSleeping s.kernel))
  | .setTimeout n => (true, s.goto .setTicks (setTimeout n s.kernel))
  | .setTicks => (true, s.goto .yield (expireCurrent s.kernel))
  | .yield =>
    let r := schedule fuel s.kernel
    (r.1, s.goto .idle r.2)

/-- Uninterrupted, the statements lead to the `schedule` of `process_sleep`. -/
theorem statements_sleep (n : U32) (s : Kernel) :
    (expireCurrent (setTimeout n (setSleeping s))).proc = (expireCurrent (sleepCurrent n s)).proc ∧
      (expireCurrent (setTimeout n (setSleeping s))).proclist = (expireCurrent (sleepCurrent n s)).proclist := by
  refine ⟨?_, rfl⟩
  simp [expireCurrent, setTimeout, setSleeping, sleepCurrent, modify, deref, getCurrentProcess]

/-! Moves. -/

inductive Move where
  | timer
  | statement
  | sleep (n : U32)
  | expire
  | create (p k : U32)
  | exit

def perform (fuel : Nat) : Move → Threads → Bool × Threads
  | .timer, s =>
    let r := timerHandler fuel s.kernel
    (r.1, { s with kernel := r.2 })
  | .statement, s => statement fuel s
  | .sleep n, s => (true, { s.goto (.setState n) s.kernel with asked := Function.update s.asked s.current n })
  | .expire, s => (true, s.goto .setTicks s.kernel)
  | .create p k, s =>
    (true, { s with kernel := (createProcess p k s.kernel).2, pc := Function.update s.pc p .idle })
  | .exit, s =>
    let r := processEnd fuel s.kernel
    (r.1, { s with kernel := r.2 })

/-- The timer may interrupt anywhere; the current process goes on with its call, or
makes another one. -/
def Allowed : Move → Threads → Prop
  | .timer, _ => True
  | .statement, s => s.current ≠ 0 ∧ s.pc s.current ≠ .idle
  | .sleep n, s => n ≠ 0 ∧ s.current ≠ 0 ∧ s.pc s.current = .idle
  | .expire, s => s.current ≠ 0 ∧ s.pc s.current = .idle
  | .create p k, s => Fresh p k s.kernel ∧ (s.current ≠ 0 → s.pc s.current = .idle)
  | .exit, s => s.current ≠ 0 ∧ s.pc s.current = .idle

/-- Moves that all meet `ok`, each to its end. -/
inductive MoveRun (ok : Move → Threads → Prop) (s₀ : Threads) : Threads → Prop
  | start : MoveRun ok s₀ s₀
  | step {s s'} (fuel : Nat) (m : Move) : MoveRun ok s₀ s → Allowed m s → ok m s →
      perform fuel m s = (true, s') → MoveRun ok s₀ s'

def started (mem : U32 → Process) : Threads := ⟨booted mem, fun _ => .idle, fun _ => 0⟩

/-- The current process has set its state, and not yet its timeout. -/
def InWindow (s : Threads) : Prop := s.current ≠ 0 ∧ ∃ n, s.pc s.current = .setTimeout n

/-- The move is no timer interrupt in the window. -/
def Outside : Move → Threads → Prop
  | .timer, s => ¬ InWindow s
  | _, _ => True

/-- No process sleeps for longer than it asked to. -/
def TimeoutKept (s : Threads) : Prop :=
  ∀ p ∈ s.kernel.proclist.list, (s.proc p).state = .sleeping → (s.proc p).timeout ≤ s.asked p

/-! The invariant, process by process. -/

/-- Outside the window: awake with timeout 0, or asleep for what is left of `asked`. -/
structure Quiet (q : Process) (pc : SleepPc) (asked : U32) : Prop where
  awake : q.state ≠ .sleeping → q.timeout = 0
  asleep : q.state = .sleeping → q.timeout ≠ 0 ∧ q.timeout ≤ asked
  outside : ∀ n, pc ≠ .setTimeout n
  asks : ∀ n, pc = .setState n → n = asked ∧ n ≠ 0

/-- In the window: asleep, with the timeout of a process awake. -/
structure Window (q : Process) (pc : SleepPc) (asked : U32) : Prop where
  state : q.state = .sleeping
  timeout : q.timeout = 0
  pc : pc = .setTimeout asked
  asked : asked ≠ 0

/-- The places where the current process need not be in state PROC_RUNNING, though it
may have ticks. -/
def SleepPc.Mid (pc : SleepPc) : Prop := pc = .setTicks ∨ ∃ n, pc = .setTimeout n

/-- The current process runs, or is about to give up the CPU. -/
def CurrentOk (q : Process) (pc : SleepPc) : Prop :=
  pc.Mid ∨ q.state = .running ∨ pc = .yield ∧ q.ticks = 0

structure ThreadInv (n : Nat) (ks : List U32) (s : Threads) : Prop where
  table : Table n ks s.kernel
  listed : s.current ≠ 0 → s.current ∈ s.kernel.proclist.list
  current : s.current ≠ 0 → CurrentOk (s.proc s.current) (s.pc s.current)
  procs : ∀ p ∈ s.kernel.proclist.list, Quiet (s.proc p) (s.pc p) (s.asked p) ∨
    p = s.current ∧ Window (s.proc p) (s.pc p) (s.asked p)

section
variable {n fuel : Nat} {ks : List U32} {s s' : Threads} {u t : Kernel} {q q' : Process} {pc : SleepPc} {a : U32}

theorem Quiet.congr (h : Quiet q pc a) (hs : SameSleep q q') : Quiet q' pc a := by
  refine ⟨fun hst => ?_, fun hst => ?_, h.outside, h.asks⟩
  · rw [hs.timeout]
    exact h.awake fun e => hst (hs.sleeping.mpr e)
  · rw [hs.timeout]
    exact h.asleep (hs.sleeping.mp hst)

theorem Quiet.idle (h : Quiet q pc a) : Quiet q .idle a :=
  ⟨h.awake, h.asleep, fun _ => by simp, fun _ e => by simp at e⟩

theorem Quiet.wake (h : Quiet q pc a) : Quiet (wake q) pc a := by
  by_cases hs : q.state = .sleeping
  · obtain ⟨h0, hle⟩ := h.asleep hs
    by_cases h1 : q.timeout = 1
    · rw [wake_due hs h1]
      exact ⟨fun _ => rfl, fun e => by simp at e, h.outside, h.asks⟩
    · rw [wake_early hs h1]
      refine ⟨fun e => absurd hs e, fun _ => ⟨?_, ?_⟩, h.outside, h.asks⟩
      · show q.timeout - 1 ≠ 0
        bv_omega
      · show q.timeout - 1 ≤ a
        bv_omega
  · rw [wake_off hs]
    exact h

theorem Window.wake (h : Window q pc a) :
    (wake q).state = .sleeping ∧ (wake q).timeout = BitVec.ofNat 32 (2 ^ 32 - 1) := by
  have h1 : q.timeout ≠ 1 := by
    rw [h.timeout]
    decide
  rw [wake_early h.state h1, h.timeout]
  exact ⟨h.state, rfl⟩

theorem ThreadInv.timeoutKept (h : ThreadInv n ks s) : TimeoutKept s := by
  intro p hp hst
  obtain hq | ⟨_, hw⟩ := h.procs p hp
  · exact (hq.asleep hst).2
  · rw [hw.timeout]
    bv_omega

theorem ThreadInv.quiet (h : ThreadInv n ks s) (hw : ¬ InWindow s) :
    ∀ p ∈ s.kernel.proclist.list, Quiet (s.proc p) (s.pc p) (s.asked p) := by
  intro p hp
  obtain hq | ⟨rfl, hwin⟩ := h.procs p hp
  · exact hq
  · have hne : s.current ≠ 0 := fun e => h.table.null_list (e ▸ hp)
    exact absurd ⟨hne, _, hwin.pc⟩ hw

theorem notInWindow {pc : SleepPc} (h : s.pc s.current = pc) (hpc : ∀ n, pc ≠ .setTimeout n) : ¬ InWindow s :=
  fun ⟨_, n, hn⟩ => hpc n (h.symm.trans hn)

/-! `schedule`. -/

/-- A completed call of `schedule` among processes outside the window. -/
theorem schedule_threads {pcs : U32 → SleepPc} {asked : U32 → U32} (ht : Table n ks u) (hn : 0 < n)
    (hq : ∀ p ∈ u.proclist.list, Quiet (u.proc p) (pcs p) (asked p))
    (hcur : HasTicks u → u.proclist.current ∈ u.proclist.list ∧
      ((pcs u.proclist.current).Mid ∨ (u.proc u.proclist.current).state = .running))
    (he : schedule fuel u = (true, t)) : ThreadInv n ks ⟨t, pcs, asked⟩ := by
  have hsch := ht.scheduling hn
  have hprocs : ∀ p ∈ t.proclist.list, Quiet (t.proc p) (pcs p) (asked p) := by
    intro p hp
    rw [(scheduled_schedule he).list] at hp
    have hw := schedule_wakes ht.nodup hp hsch fuel
    rw [he] at hw
    exact (hq p hp).wake.congr hw
  have htable := ht.of_scheduled (scheduled_schedule he)
  obtain ⟨hs, _⟩ | ⟨_, hticks, rfl⟩ | ⟨_, _, p, v, hsel, rfl⟩ := schedule_cases he
  · exact absurd hsch hs
  · -- a tick is charged to the current process, which runs on
    obtain ⟨hl, hok⟩ := hcur hticks
    have hc : (accountTicks u.proclist.current (updateTimeouts u)).proclist = u.proclist := updateTimeouts_proclist u
    refine ⟨htable, fun _ => ?_, fun _ => ?_, fun p hp => .inl (hprocs p hp)⟩
    · rw [hc]
      show (accountTicks u.proclist.current (updateTimeouts u)).proclist.current ∈ _
      rw [hc]
      exact hl
    · show CurrentOk ((accountTicks u.proclist.current (updateTimeouts u)).proc
          (accountTicks u.proclist.current (updateTimeouts u)).proclist.current)
        (pcs (accountTicks u.proclist.current (updateTimeouts u)).proclist.current)
      rw [hc]
      refine hok.imp_right fun hrun => .inl ?_
      have hst := modify_field u.proclist.current spendTick (updateTimeouts u) Process.state spendTick_state
        u.proclist.current
      refine hst.trans ?_
      rw [updateTimeouts_on ht.nodup hl, wake_off (by rw [hrun]; decide), hrun]
  · -- a process was found, and runs
    have hse := select_searched fuel (searchState u)
    rw [hsel] at hse
    have hlist := (scheduled_dispatch p v).list
    refine ⟨htable, fun _ => ?_, fun _ => ?_, fun p hp => .inl (hprocs p hp)⟩
    · show (dispatch p v).proclist.current ∈ (dispatch p v).proclist.list
      rw [dispatch_current, hlist]
      exact (select_some hsel).1
    · show CurrentOk ((dispatch p v).proc (dispatch p v).proclist.current) _
      rw [dispatch_current]
      exact .inr (.inl (dispatch_state p v))

/-- What a call made by the current process, or on its behalf, comes down to. -/
theorem schedule_result {f : Kernel → Threads} (he : ((schedule fuel u).1, f (schedule fuel u).2) = (true, s')) :
    schedule fuel u = (true, (schedule fuel u).2) ∧ s' = f (schedule fuel u).2 := by
  obtain ⟨h₁, h₂⟩ := Prod.mk.inj he
  exact ⟨Prod.ext h₁ rfl, h₂.symm⟩

/-! Moves that do not switch. -/

theorem current_inv {k : Kernel} (h : ThreadInv n ks s) (ht : Table n ks k)
    (hk : k.proclist = s.kernel.proclist) (hoff : ∀ p, p ≠ s.current → k.proc p = s.proc p)
    (hok : CurrentOk (k.proc s.current) pc)
    (hq : Quiet (k.proc s.current) pc a ∨ Window (k.proc s.current) pc a) :
    ThreadInv n ks ⟨k, Function.update s.pc s.current pc, Function.update s.asked s.current a⟩ := by
  have hcur : k.proclist.current = s.current := congrArg ProcList.current hk
  have hlist : k.proclist.list = s.kernel.proclist.list := congrArg ProcList.list hk
  refine ⟨ht, ?_, fun _ => ?_, fun p hp => ?_⟩
  · show k.proclist.current ≠ 0 → k.proclist.current ∈ k.proclist.list
    rw [hcur, hlist]
    exact h.listed
  · show CurrentOk (k.proc k.proclist.current) (Function.update s.pc s.current pc k.proclist.current)
    rw [hcur, Function.update_self]
    exact hok
  · show Quiet (k.proc p) (Function.update s.pc s.current pc p) (Function.update s.asked s.current a p) ∨
      p = k.proclist.current ∧ Window (k.proc p) (Function.update s.pc s.current pc p)
        (Function.update s.asked s.current a p)
    have hp : p ∈ k.proclist.list := hp
    rw [hlist] at hp
    by_cases hpc : p = s.current
    · subst hpc
      rw [Function.update_self, Function.update_self, hcur]
      exact hq.imp_right fun hw => ⟨rfl, hw⟩
    · rw [Function.update_of_ne hpc, Function.update_of_ne hpc, hoff p hpc]
      exact .inl ((h.procs p hp).resolve_right fun hw => hpc hw.1)

theorem goto_inv {k : Kernel} (h : ThreadInv n ks s) (ht : Table n ks k)
    (hk : k.proclist = s.kernel.proclist) (hoff : ∀ p, p ≠ s.current → k.proc p = s.proc p)
    (hok : CurrentOk (k.proc s.current) pc)
    (hq : Quiet (k.proc s.current) pc (s.asked s.current) ∨ Window (k.proc s.current) pc (s.asked s.current)) :
    ThreadInv n ks (s.goto pc k) := by
  have hi := current_inv h ht hk hoff hok hq
  rwa [Function.update_eq_self] at hi

theorem CurrentOk.running (h : CurrentOk q pc) (hpc : pc = .idle ∨ ∃ m, pc = .setState m) : q.state = .running := by
  obtain hm | hr | ⟨hy, _⟩ := h
  · obtain e | ⟨m, e⟩ := hm <;> obtain h | ⟨m', h⟩ := hpc <;> rw [h] at e <;> cases e
  · exact hr
  · obtain h | ⟨m', h⟩ := hpc <;> rw [h] at hy <;> cases hy

/-! The statements of `process_sleep` and `process_expire`. -/

/-- What a statement that assigns to the current process makes of it, and of the others. -/
theorem assign_current (f : Process → Process) : (modify s.current f s.kernel).proc s.current = f (s.proc s.current) ∧
    ∀ p, p ≠ s.current → (modify s.current f s.kernel).proc p = s.proc p :=
  ⟨modify_same _ f _, fun _ hp => modify_off _ f _ hp⟩

theorem setState_threads {m : U32} (h : ThreadInv n ks s) (hc : s.current ≠ 0) (hst : s.pc s.current = .setState m)
    (he : statement fuel s = (true, s')) : ThreadInv n ks s' := by
  have hl := h.listed hc
  have hrun := (h.current hc).running (.inr ⟨m, hst⟩)
  have hq := h.quiet (notInWindow hst fun _ => by simp) _ hl
  rw [hst] at hq
  obtain ⟨hm, hm0⟩ := hq.asks m rfl
  rw [statement, hst] at he
  obtain ⟨_, rfl⟩ := Prod.mk.inj he
  obtain ⟨hon, hoff⟩ := assign_current (s := s) fun q => { q with state := .sleeping }
  refine goto_inv h (h.table.of_scheduled (scheduled_modify _ _ _ fun _ => rfl)) rfl hoff (.inl (.inr ⟨m, rfl⟩))
    (.inr ?_)
  show Window ((modify s.current _ s.kernel).proc s.current) _ _
  rw [hon]
  exact ⟨rfl, hq.awake (by rw [hrun]; decide), by rw [hm], hm ▸ hm0⟩

theorem setTimeout_threads {m : U32} (h : ThreadInv n ks s) (hc : s.current ≠ 0) (hst : s.pc s.current = .setTimeout m)
    (he : statement fuel s = (true, s')) : ThreadInv n ks s' := by
  have hw := ((h.procs _ (h.listed hc)).resolve_left fun hq => hq.outside m hst).2
  have hm : m = s.asked s.current := by
    have := hst.symm.trans hw.pc
    injection this
  rw [statement, hst] at he
  obtain ⟨_, rfl⟩ := Prod.mk.inj he
  obtain ⟨hon, hoff⟩ := assign_current (s := s) fun q => { q with timeout := m }
  refine goto_inv h (h.table.of_scheduled (scheduled_modify _ _ _ fun _ => rfl)) rfl hoff (.inl (.inl rfl))
    (.inl ?_)
  show Quiet ((modify s.current _ s.kernel).proc s.current) _ _
  rw [hon]
  refine ⟨fun hne => absurd hw.state hne, fun _ => ⟨?_, ?_⟩, fun _ => by simp, fun _ e => by simp at e⟩
  · show m ≠ 0
    rw [hm]
    exact hw.asked
  · show m ≤ s.asked s.current
    rw [hm]
    bv_omega

theorem setTicks_threads (h : ThreadInv n ks s) (hc : s.current ≠ 0) (hst : s.pc s.current = .setTicks)
    (he : statement fuel s = (true, s')) : ThreadInv n ks s' := by
  have hq := h.quiet (notInWindow hst fun _ => by simp) _ (h.listed hc)
  rw [statement, hst] at he
  obtain ⟨_, rfl⟩ := Prod.mk.inj he
  obtain ⟨hon, hoff⟩ := assign_current (s := s) fun q => { q with ticks := 0 }
  refine goto_inv h (h.table.of_scheduled (scheduled_expire _)) rfl hoff (.inr (.inr ⟨rfl, ?_⟩)) (.inl ?_)
  · exact expireCurrent_ticks s.kernel
  · show Quiet ((modify s.current _ s.kernel).proc s.current) _ _
    rw [hon]
    exact ⟨hq.awake, hq.asleep, fun _ => by simp, fun _ e => by simp at e⟩

theorem yield_threads (h : ThreadInv n ks s) (hc : s.current ≠ 0) (hst : s.pc s.current = .yield)
    (he : statement fuel s = (true, s')) : ThreadInv n ks s' := by
  have hl := h.listed hc
  have hok := h.current hc
  have hq := h.quiet (notInWindow hst fun _ => by simp)
  rw [hst] at hok
  rw [statement, hst] at he
  obtain ⟨hes, rfl⟩ := schedule_result he
  refine schedule_threads h.table (Nat.zero_lt_of_lt (h.table.bound _ hl)) (fun p hp => ?_) (fun hticks => ?_) hes
  · by_cases hpc : p = s.current
    · subst hpc
      rw [Function.update_self]
      exact (hq _ hp).idle
    · rw [Function.update_of_ne hpc]
      exact hq p hp
  · -- with ticks left, it was switched away from and runs again
    have htk := hticks.2
    rw [updateTimeouts_ticks] at htk
    refine ⟨hl, .inr ?_⟩
    obtain hm | hr | ⟨_, h0⟩ := hok
    · obtain e | ⟨m, e⟩ := hm <;> cases e
    · exact hr
    · exact absurd h0 htk

theorem statement_inv (h : ThreadInv n ks s) (hc : s.current ≠ 0) (hpc : s.pc s.current ≠ .idle)
    (he : statement fuel s = (true, s')) : ThreadInv n ks s' := by
  cases hst : s.pc s.current with
  | idle => exact absurd hst hpc
  | setState m => exact setState_threads h hc hst he
  | setTimeout m => exact setTimeout_threads h hc hst he
  | setTicks => exact setTicks_threads h hc hst he
  | yield => exact yield_threads h hc hst he

theorem timer_inv (h : ThreadInv n ks s) (hw : ¬ InWindow s) (he : perform fuel .timer s = (true, s')) :
    ThreadInv n ks s' := by
  obtain ⟨hes, rfl⟩ := schedule_result (f := fun k => { s with kernel := k }) he
  by_cases hsch : Scheduling s.kernel
  · have hn : 0 < n := by
      have hcount := h.table.count
      have hne := hsch.2
      bv_omega
    refine schedule_threads h.table hn (h.quiet hw) (fun hticks => ?_) hes
    have htk := hticks.2
    rw [updateTimeouts_ticks] at htk
    refine ⟨h.listed hticks.1, ?_⟩
    obtain hm | hr | ⟨_, h0⟩ := h.current hticks.1
    · exact .inl hm
    · exact .inr hr
    · exact absurd h0 htk
  · rw [schedule_idle hsch]
    exact h

theorem create_inv {p k : U32} (h : ThreadInv n ks s) (hf : Fresh p k s.kernel)
    (hidle : s.current ≠ 0 → s.pc s.current = .idle) : ThreadInv (n + 1) (k :: ks)
      { s with kernel := (createProcess p k s.kernel).2, pc := Function.update s.pc p .idle } := by
  have hlist := createProcess_list hf
  have hcur : (createProcess p k s.kernel).2.proclist.current = s.current := by
    rw [createProcess_proclist hf]
    rfl
  have hne := h.table.proc_ne hf
  have hw : ¬ InWindow s := by
    rintro ⟨hc, m, hm⟩
    rw [hidle hc] at hm
    cases hm
  refine ⟨h.table.create hf, ?_, ?_, ?_⟩
  · show (createProcess p k s.kernel).2.proclist.current ≠ 0 → (createProcess p k s.kernel).2.proclist.current ∈ _
    rw [hcur, hlist]
    exact fun hc => List.mem_append_left _ (h.listed hc)
  · show (createProcess p k s.kernel).2.proclist.current ≠ 0 →
      CurrentOk ((createProcess p k s.kernel).2.proc (createProcess p k s.kernel).2.proclist.current)
        (Function.update s.pc p .idle (createProcess p k s.kernel).2.proclist.current)
    rw [hcur]
    intro hc
    have hcp := hne _ (h.listed hc)
    rw [createProcess_off hf hcp, Function.update_of_ne hcp]
    exact h.current hc
  · intro r hr
    refine .inl ?_
    show Quiet ((createProcess p k s.kernel).2.proc r) (Function.update s.pc p .idle r) (s.asked r)
    have hr : r ∈ (createProcess p k s.kernel).2.proclist.list := hr
    rw [hlist] at hr
    obtain hr | hr := List.mem_append.mp hr
    · rw [createProcess_off hf (hne r hr), Function.update_of_ne (hne r hr)]
      exact h.quiet hw r hr
    · rw [List.mem_singleton.mp hr, createProcess_new hf, Function.update_self]
      exact ⟨fun _ => rfl, fun e => by simp [newProcess] at e, fun _ => by simp, fun _ e => by simp at e⟩

theorem exit_inv (h : ThreadInv n ks s) (hc : s.current ≠ 0) (hidle : s.pc s.current = .idle)
    (he : perform fuel .exit s = (true, s')) : ThreadInv n ks s' := by
  obtain ⟨hes, rfl⟩ := schedule_result (f := fun k => { s with kernel := k }) he
  have hl := h.listed hc
  have ht := h.table.free hl
  refine schedule_threads (ht.of_scheduled (scheduled_expire _)) (Nat.zero_lt_of_lt (h.table.bound _ hl)) ?_
    (fun hticks => absurd hticks (expire_searches _)) hes
  intro p hp
  have hp : p ∈ s.kernel.proclist.list.erase s.current := hp
  obtain ⟨hne, hp⟩ := (List.Nodup.mem_erase_iff h.table.nodup).mp hp
  rw [expireCurrent_off (freeCurrent s.kernel) hne]
  exact h.quiet (notInWindow hidle fun _ => by simp) p hp

theorem move_inv {m : Move} (h : ThreadInv n ks s) (ha : Allowed m s) (hok : Outside m s)
    (he : perform fuel m s = (true, s')) : ∃ n' ks', ThreadInv n' ks' s' := by
  cases m with
  | timer => exact ⟨n, ks, timer_inv h hok he⟩
  | statement => exact ⟨n, ks, statement_inv h ha.1 ha.2 he⟩
  | sleep m =>
    obtain ⟨hm, hc, hidle⟩ := ha
    obtain ⟨_, rfl⟩ := Prod.mk.inj he
    have hrun := (h.current hc).running (.inl hidle)
    have hq := h.quiet (notInWindow hidle fun _ => by simp) _ (h.listed hc)
    have hquiet : Quiet (s.proc s.current) (.setState m) m := by
      refine ⟨hq.awake, fun e => ?_, fun _ => by simp, fun _ e => ?_⟩
      · rw [hrun] at e
        cases e
      · injection e with e
        exact ⟨e.symm, e ▸ hm⟩
    exact ⟨n, ks, current_inv h h.table rfl (fun _ _ => rfl) (.inr (.inl hrun)) (.inl hquiet)⟩
  | expire =>
    obtain ⟨hc, hidle⟩ := ha
    obtain ⟨_, rfl⟩ := Prod.mk.inj he
    have hq := h.quiet (notInWindow hidle fun _ => by simp) _ (h.listed hc)
    refine ⟨n, ks, goto_inv h h.table rfl (fun _ _ => rfl) (.inl (.inl rfl)) (.inl ?_)⟩
    exact ⟨hq.awake, hq.asleep, fun _ => by simp, fun _ e => by simp at e⟩
  | create p k =>
    obtain ⟨_, rfl⟩ := Prod.mk.inj he
    exact ⟨n + 1, k :: ks, create_inv h ha.1 ha.2⟩
  | exit => exact ⟨n, ks, exit_inv h ha.1 ha.2 he⟩

theorem window_wraps (h : ThreadInv n ks s) (hw : InWindow s) (he : perform fuel .timer s = (true, s')) :
    s.current ∈ s'.kernel.proclist.list ∧ (s'.proc s.current).state = .sleeping ∧
      (s'.proc s.current).timeout = BitVec.ofNat 32 (2 ^ 32 - 1) ∧ s'.asked = s.asked ∧
      ∀ p ∈ s'.kernel.proclist.list, p ≠ s.current → (s'.proc p).state = .sleeping →
        (s'.proc p).timeout ≤ s'.asked p := by
  obtain ⟨hc, m, hm⟩ := hw
  obtain ⟨hes, rfl⟩ := schedule_result (f := fun k => { s with kernel := k }) he
  have hl := h.listed hc
  have hsch := h.table.scheduling (Nat.zero_lt_of_lt (h.table.bound _ hl))
  have hlist := (scheduled_schedule hes).list
  -- the state is set and the timeout is still 0, which the tick decrements
  have hwin := ((h.procs _ hl).resolve_left fun hq => hq.outside m hm).2
  have hself := schedule_wakes h.table.nodup hl hsch fuel
  obtain ⟨hst, hto⟩ := hwin.wake
  refine ⟨?_, hself.sleeping.mpr hst, hself.timeout.trans hto, rfl, fun p hp hpc hps => ?_⟩
  · show s.current ∈ (schedule fuel s.kernel).2.proclist.list
    rw [hlist]
    exact hl
  · have hp : p ∈ (schedule fuel s.kernel).2.proclist.list := hp
    rw [hlist] at hp
    have hq := (h.procs p hp).resolve_right fun hw => hpc hw.1
    exact ((hq.wake.congr (schedule_wakes h.table.nodup hp hsch fuel)).asleep hps).2

end

/-! Runs. -/

theorem started_inv (mem : U32 → Process) : ThreadInv 0 [] (started mem) :=
  ⟨table_booted mem, fun h => absurd rfl h, fun h => absurd rfl h,
    by simp [started, booted, enableKernelPreempt, initProcess]⟩

theorem thread_run {mem : U32 → Process} {s : Threads} (h : MoveRun Outside (started mem) s) :
    ∃ n ks, ThreadInv n ks s := by
  induction h with
  | start => exact ⟨0, [], started_inv mem⟩
  | step fuel m _ ha hok he ih =>
    obtain ⟨n, ks, hi⟩ := ih
    exact move_inv hi ha hok he

/-- **`process_sleep` under timer interrupts.** In every run with no interrupt between
the two statements that set state and timeout, no process sleeps for longer than it
asked to; and an interrupt between them breaks that at once, unless 2^32 - 1 ticks
were asked for. -/
theorem sleep_interrupt_iff {mem : U32 → Process} {s : Threads} (h : MoveRun Outside (started mem) s) :
    TimeoutKept s ∧ ∀ fuel s', InWindow s → perform fuel .timer s = (true, s') →
      (TimeoutKept s' ↔ s.asked s.current = BitVec.ofNat 32 (2 ^ 32 - 1)) := by
  obtain ⟨n, ks, hi⟩ := thread_run h
  refine ⟨hi.timeoutKept, fun fuel s' hw he => ?_⟩
  obtain ⟨hl, hst, hto, ha, hother⟩ := window_wraps hi hw he
  refine ⟨fun hk => ?_, fun hmax p hp hps => ?_⟩
  · have hle := hk _ hl hst
    rw [hto, ha] at hle
    have hlt := (s.asked s.current).isLt
    bv_omega
  · by_cases hpc : p = s.current
    · subst hpc
      rw [hto, ha, hmax]
      exact Nat.le_refl _
    · exact hother p hp hpc hps

/-! Two processes, of which the first is about to set its timeout. -/

/-- The state after a move whose search takes at most two walks. -/
def moved (m : Move) (s : Threads) : Threads := (perform 2 m s).2

theorem run_moved {ok : Move → Threads → Prop} {s₀ s : Threads} (h : MoveRun ok s₀ s) (m : Move)
    (ha : Allowed m s) (hok : ok m s) (he : (perform 2 m s).1 = true) : MoveRun ok s₀ (moved m s) :=
  MoveRun.step 2 m h ha hok (Prod.ext he rfl)

def sampleCreated : Threads :=
  moved (.create 0xC000B098 0xC000B108) (moved (.create 0xC000A014 0xC000A084) (started zeroMem))

def sampleWindow : Threads := moved .statement (moved (.sleep 5) (moved .timer sampleCreated))

theorem sampleWindow_run : MoveRun Outside (started zeroMem) sampleWindow ∧ InWindow sampleWindow := by
  have h := run_moved (@MoveRun.start Outside (started zeroMem)) (.create 0xC000A014 0xC000A084)
    ⟨by constructor <;> decide, fun _ => rfl⟩ trivial rfl
  have h := run_moved h (.create 0xC000B098 0xC000B108) ⟨by constructor <;> decide, fun _ => rfl⟩ trivial rfl
  have h : MoveRun Outside (started zeroMem) sampleCreated := h
  have h := run_moved h .timer trivial (fun hw => hw.1 rfl) (by decide)
  have hc : (moved .timer sampleCreated).current = 0xC000A014 := by decide
  have h := run_moved h (.sleep 5) ⟨by decide, by rw [hc]; decide, rfl⟩ trivial rfl
  have hpc : (moved (.sleep 5) (moved .timer sampleCreated)).pc
      (moved (.sleep 5) (moved .timer sampleCreated)).current = .setState 5 := by
    show Function.update (moved .timer sampleCreated).pc (moved .timer sampleCreated).current (.setState 5)
      (moved .timer sampleCreated).current = _
    exact Function.update_self ..
  have h := run_moved h .statement ⟨by show (moved .timer sampleCreated).current ≠ 0; rw [hc]; decide,
    by rw [hpc]; simp⟩ trivial (by rw [perform, statement, hpc])
  have hgo : sampleWindow = (moved (.sleep 5) (moved .timer sampleCreated)).goto (.setTimeout 5)
      (setSleeping (moved .timer sampleCreated).kernel) := by
    rw [sampleWindow, moved, perform, statement, hpc]
    rfl
  refine ⟨h, ?_, 5, ?_⟩
  · rw [hgo]
    show (moved .timer sampleCreated).current ≠ 0
    rw [hc]
    decide
  · rw [hgo]
    show Function.update (moved (.sleep 5) (moved .timer sampleCreated)).pc (moved .timer sampleCreated).current
      (.setTimeout 5) (moved .timer sampleCreated).current = _
    exact Function.update_self ..

theorem sleep_interrupt_sample : TimeoutKept sampleWindow :=
  (sleep_interrupt_iff sampleWindow_run.1).1

theorem MoveRun.mono {ok ok' : Move → Threads → Prop} {s₀ s : Threads} (hok : ∀ m s, ok m s → ok' m s)
    (h : MoveRun ok s₀ s) : MoveRun ok' s₀ s := by
  induction h with
  | start => exact MoveRun.start
  | step fuel m _ ha hm he ih => exact MoveRun.step fuel m ih ha (hok _ _ hm) he

/-- An interrupt there, with another process ready: the caller sleeps for 2^32 - 1
more calls of `schedule`, having asked for 5. -/
theorem sleep_interrupted : ∃ s, MoveRun (fun _ _ => True) (started zeroMem) s ∧
    (∃ p ∈ s.kernel.proclist.list, p ≠ s.current ∧ (s.proc p).state = .ready) ∧
    (s.proc 0xC000A014).state = .sleeping ∧ s.asked 0xC000A014 = 5 ∧
    (s.proc 0xC000A014).timeout = 0xFFFFFFFF ∧ ¬ TimeoutKept s := by
  obtain ⟨h, hw⟩ := sampleWindow_run
  obtain ⟨n, ks, hi⟩ := thread_run h
  have he : (perform 2 .timer sampleWindow).1 = true := by decide
  have hc : sampleWindow.current = 0xC000A014 := by decide
  obtain ⟨hl, hst, hto, ha, _⟩ := window_wraps hi hw (Prod.ext he rfl : _ = (true, moved .timer sampleWindow))
  rw [hc] at hl hst hto
  have hasked : (moved .timer sampleWindow).asked 0xC000A014 = 5 := by rw [ha]; decide
  refine ⟨_, run_moved (h.mono fun _ _ _ => trivial) .timer trivial trivial he, ?_, hst, hasked, hto, fun hk => ?_⟩
  · exact ⟨0xC000B098, by decide, by decide, by decide⟩
  · have hle := hk _ hl hst
    rw [hto, hasked] at hle
    exact absurd hle (by decide)

end LineOS
