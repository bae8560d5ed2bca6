import LineOS.Schedule
import Mathlib.Data.Finset.Card
import Mathlib.Order.Interval.Finset.Nat

/- Runs of the scheduler and what holds after each of their steps. A step is a
   call of `create_process`, a timer interrupt, or a call of `process_expire`,
   `process_sleep` or `process_end` by whatever process is current, each run to
   its end with the interrupts off.

   The invariant has two halves. `Table` is about the list, the counters and the
   heap blocks behind them, and scheduling keeps it whole: the list is increasing
   in pid, and every process created still holds its stack, so there are fewer
   than 2^32 of them and neither counter wraps. `Settled` is about `current` and
   the states of the listed processes; between a call and the `schedule` it makes
   only `Entering` holds, where the current process may be asleep or gone.
   `schedule_settled` is that `schedule` restores it. -/
namespace LineOS
open ByteMemory

/-! Runs. -/

inductive Op where
  | create (p k : U32)
  | timer
  | expire
  | sleep (n : U32)
  | exit

def exec (fuel : Nat) : Op → Kernel → Bool × Kernel
  | .create p k, s => (true, (createProcess p k s).2)
  | .timer, s => timerHandler fuel s
  | .expire, s => processExpire fuel s
  | .sleep n, s => processSleep fuel n s
  | .exit, s => processEnd fuel s

/-- The kernel when the step calls `schedule`. -/
def callsSchedule : Op → Kernel → Option Kernel
  | .create _ _, _ => none
  | .timer, s => some s
  | .expire, s => some (expireCurrent s)
  | .sleep n, s => some (expireCurrent (sleepCurrent n s))
  | .exit, s => some (expireCurrent (freeCurrent s))

theorem exec_schedule {op : Op} {s t : Kernel} (h : callsSchedule op s = some t) (fuel : Nat) :
    exec fuel op s = schedule fuel t := by
  cases op <;> cases h <;> rfl

/-- Two blocks as `kmalloc` hands them out while the heap has room. -/
structure Fresh (p k : U32) (s : Kernel) : Prop where
  proc_null : p ≠ 0
  stack_null : k ≠ 0
  apart : p ≠ k
  proc_new : p ∉ s.allocated
  stack_new : k ∉ s.allocated

/-- `create_process` gets two fresh blocks, and only a process can end. -/
def Permitted : Op → Kernel → Prop
  | .create p k, s => Fresh p k s
  | .exit, s => s.proclist.current ≠ 0
  | _, _ => True

/-- `main` before its first `create_process`. -/
def booted (mem : U32 → Process) : Kernel := enableKernelPreempt (initProcess mem)

/-- A run from `s₀`, with its steps and where each began, latest first. The flag
is false if the search of the last step is still going on. -/
inductive Run (s₀ : Kernel) : List (Kernel × Op) → Bool → Kernel → Prop
  | start : Run s₀ [] true s₀
  | step {tr s b s'} (fuel : Nat) (op : Op) : Run s₀ tr true s → Permitted op s →
      exec fuel op s = (b, s') → Run s₀ ((s, op) :: tr) b s'

/-! The process table. -/

/-- The heap blocks behind the table: the structures on the list, and the stacks
handed out so far, which are never freed. -/
structure Blocks (ks : List U32) (s : Kernel) : Prop where
  null : 0 ∉ s.allocated
  blocks : s.allocated.Nodup
  nodup : s.proclist.list.Nodup
  held : ∀ p ∈ s.proclist.list, p ∈ s.allocated
  kstacks_held : ∀ k ∈ ks, k ∈ s.allocated ∧ k ∉ s.proclist.list
  kstacks_nodup : ks.Nodup

/-- The table after `n` creations, with the stacks they were given. -/
structure Table (n : Nat) (ks : List U32) (s : Kernel) : Prop extends Blocks ks s where
  preempt : s.proclist.kernelPreempt = true
  kstacks_length : ks.length = n
  pidcnt : s.proclist.pidcnt.toNat = n
  count : s.proclist.count.toNat = n
  pids : s.proclist.list.Pairwise fun p q => (s.proc p).pid < (s.proc q).pid
  bound : ∀ p ∈ s.proclist.list, (s.proc p).pid.toNat < n

theorem length_lt_of_nodup {l : List U32} (hn : l.Nodup) (h0 : 0 ∉ l) : l.length < 2 ^ 32 := by
  have hm : (l.map BitVec.toNat).Nodup := hn.map fun a b h => BitVec.eq_of_toNat_eq h
  have hsub : (l.map BitVec.toNat).toFinset ⊆ Finset.Ico 1 (2 ^ 32) := by
    intro x hx
    obtain ⟨a, ha, rfl⟩ := List.mem_map.mp (List.mem_toFinset.mp hx)
    have hne : a.toNat ≠ 0 := fun e => h0 (BitVec.eq_of_toNat_eq (y := 0) e ▸ ha)
    exact Finset.mem_Ico.mpr ⟨Nat.one_le_iff_ne_zero.mpr hne, a.isLt⟩
  have hc := Finset.card_le_card hsub
  rw [List.toFinset_card_of_nodup hm, List.length_map, Nat.card_Ico] at hc
  omega

section
variable {n : Nat} {ks : List U32} {s t : Kernel} {p k : U32}

theorem Blocks.null_list (h : Blocks ks s) : 0 ∉ s.proclist.list := fun h0 => h.null (h.held 0 h0)

theorem Blocks.listLive (h : Blocks ks s) : ListLive s := fun p hp =>
  ⟨fun e => h.null_list (e ▸ hp), h.held p hp⟩

theorem Blocks.of_scheduled (h : Blocks ks s) (hs : Scheduled s t) : Blocks ks t := by
  refine ⟨?_, ?_, ?_, ?_, ?_, h.kstacks_nodup⟩
  · rw [hs.allocated]
    exact h.null
  · rw [hs.allocated]
    exact h.blocks
  · rw [hs.list]
    exact h.nodup
  · rw [hs.list, hs.allocated]
    exact h.held
  · rw [hs.list, hs.allocated]
    exact h.kstacks_held

theorem Table.of_scheduled (h : Table n ks s) (hs : Scheduled s t) : Table n ks t := by
  refine ⟨h.toBlocks.of_scheduled hs, ?_, h.kstacks_length, ?_, ?_, ?_, ?_⟩
  · rw [hs.preempt, h.preempt]
  · rw [hs.pidcnt, h.pidcnt]
  · rw [hs.count, h.count]
  · simp only [hs.list, hs.pid]
    exact h.pids
  · simp only [hs.list, hs.pid]
    exact h.bound

theorem table_booted (mem : U32 → Process) : Table 0 [] (booted mem) := by
  refine ⟨?_, rfl, rfl, rfl, rfl, List.Pairwise.nil, ?_⟩
  · constructor <;> simp [booted, enableKernelPreempt, initProcess]
  · simp [booted, enableKernelPreempt, initProcess]

/-- Another stack is a new one, so the stacks handed out bound the number of
creations: the counters have room for one more. -/
theorem Blocks.room (h : Blocks ks s) {p k : U32} (hf : Fresh p k s) :
    (k :: ks).Nodup ∧ (k :: ks).length < 2 ^ 32 := by
  have hk : k ∉ ks := fun hk => hf.stack_new (h.kstacks_held k hk).1
  have hn : (k :: ks).Nodup := List.nodup_cons.mpr ⟨hk, h.kstacks_nodup⟩
  refine ⟨hn, length_lt_of_nodup hn fun h0 => ?_⟩
  obtain e | h0 := List.mem_cons.mp h0
  · exact hf.stack_null e.symm
  · exact h.null (h.kstacks_held 0 h0).1

section
variable (h : Fresh p k s)
include h

theorem createProcess_proclist : (createProcess p k s).2.proclist = { s.proclist with
    pidcnt := s.proclist.pidcnt + 1
    count := s.proclist.count + 1
    list := s.proclist.list ++ [p] } := by
  rw [createProcess, if_neg h.proc_null]
  rfl

theorem createProcess_allocated : (createProcess p k s).2.allocated = k :: p :: s.allocated := by
  rw [createProcess, if_neg h.proc_null]
  simp only [if_neg h.stack_null]
  rfl

theorem createProcess_proc : (createProcess p k s).2.proc =
    Function.update s.proc p (newProcess s.proclist.pidcnt k s.proclist.current) := by
  rw [createProcess, if_neg h.proc_null]
  rfl

theorem createProcess_switches : (createProcess p k s).2.switches = s.switches := by
  rw [createProcess, if_neg h.proc_null]
  rfl

theorem createProcess_off {q : U32} (hq : q ≠ p) : (createProcess p k s).2.proc q = s.proc q := by
  rw [createProcess_proc h, Function.update_of_ne hq]

theorem createProcess_new : (createProcess p k s).2.proc p =
    newProcess s.proclist.pidcnt k s.proclist.current := by
  rw [createProcess_proc h, Function.update_self]

end

theorem createProcess_list (h : Fresh p k s) :
    (createProcess p k s).2.proclist.list = s.proclist.list ++ [p] := by
  rw [createProcess_proclist h]

theorem Blocks.create (h : Blocks ks s) (hf : Fresh p k s) :
    Blocks (k :: ks) (createProcess p k s).2 := by
  have hlist := createProcess_list hf
  have hal := createProcess_allocated hf
  -- two blocks are taken, and only the record's is listed
  refine ⟨?_, ?_, ?_, ?_, ?_, (h.room hf).1⟩
  · rw [hal, List.mem_cons, List.mem_cons]
    exact fun h0 => h0.elim (fun e => hf.stack_null e.symm) fun h0 =>
      h0.elim (fun e => hf.proc_null e.symm) h.null
  · rw [hal]
    refine List.nodup_cons.mpr ⟨?_, List.nodup_cons.mpr ⟨hf.proc_new, h.blocks⟩⟩
    rw [List.mem_cons]
    exact fun hk => hk.elim (fun e => hf.apart e.symm) hf.stack_new
  · rw [hlist]
    have hpl : p ∉ s.proclist.list := fun hp => hf.proc_new (h.held p hp)
    exact List.nodup_append'.mpr ⟨h.nodup, List.nodup_singleton p, by simpa using hpl⟩
  · rw [hlist, hal]
    intro q hq
    obtain hq | hq := List.mem_append.mp hq
    · exact List.mem_cons_of_mem _ (List.mem_cons_of_mem _ (h.held q hq))
    · rw [List.mem_singleton.mp hq]
      exact List.mem_cons_of_mem _ List.mem_cons_self
  · rw [hlist, hal]
    intro j hj
    rw [List.mem_append, List.mem_singleton, not_or]
    obtain rfl | hj := List.mem_cons.mp hj
    · exact ⟨List.mem_cons_self, fun hjl => hf.stack_new (h.held j hjl), hf.apart.symm⟩
    · obtain ⟨hja, hjl⟩ := h.kstacks_held j hj
      exact ⟨List.mem_cons_of_mem _ (List.mem_cons_of_mem _ hja), hjl, fun e => hf.proc_new (e ▸ hja)⟩

theorem Blocks.proc_ne (h : Blocks ks s) (hf : Fresh p k s) : ∀ q ∈ s.proclist.list, q ≠ p :=
  fun q hq e => hf.proc_new (e ▸ h.held q hq)

theorem Table.create (h : Table n ks s) (hf : Fresh p k s) :
    Table (n + 1) (k :: ks) (createProcess p k s).2 := by
  have hlist := createProcess_list hf
  have hpid : ∀ q ∈ s.proclist.list, ((createProcess p k s).2.proc q).pid = (s.proc q).pid := by
    intro q hq
    rw [createProcess_off hf (h.proc_ne hf q hq)]
  have hnew : ((createProcess p k s).2.proc p).pid.toNat = n := by
    rw [createProcess_new hf]
    exact h.pidcnt
  have hlt : n + 1 < 2 ^ 32 := by
    have hroom := (h.room hf).2
    rwa [List.length_cons, h.kstacks_length] at hroom
  refine ⟨h.toBlocks.create hf, ?_, ?_, ?_, ?_, ?_, ?_⟩
  · rw [createProcess_proclist hf]
    exact h.preempt
  · rw [List.length_cons, h.kstacks_length]
  · have := h.pidcnt
    rw [createProcess_proclist hf]
    bv_omega
  · have := h.count
    rw [createProcess_proclist hf]
    bv_omega
  · -- the new pid is the counter, which is above every pid on the list
    rw [hlist]
    refine List.pairwise_append.mpr ⟨?_, List.pairwise_singleton .., ?_⟩
    · refine h.pids.imp_of_mem fun {a b} ha hb hab => ?_
      rw [hpid a ha, hpid b hb]
      exact hab
    · intro a ha b hb
      rw [List.mem_singleton.mp hb, BitVec.lt_def, hpid a ha, hnew]
      exact h.bound a ha
  · rw [hlist]
    intro q hq
    obtain hq | hq := List.mem_append.mp hq
    · rw [hpid q hq]
      exact Nat.lt_succ_of_lt (h.bound q hq)
    · rw [List.mem_singleton.mp hq, hnew]
      exact Nat.lt_succ_self n

/-- Ending a listed process takes it off the list and gives its block back. -/
theorem Blocks.free (h : Blocks ks s) (hc : s.proclist.current ∈ s.proclist.list) :
    Blocks ks (freeCurrent s) := by
  refine ⟨fun h0 => h.null (List.mem_of_mem_erase h0), h.blocks.erase _, h.nodup.erase _, ?_, ?_,
    h.kstacks_nodup⟩
  · intro p hp
    have hne := (List.Nodup.mem_erase_iff h.nodup).mp hp
    exact (List.Nodup.mem_erase_iff h.blocks).mpr ⟨hne.1, h.held p hne.2⟩
  · intro k hk
    obtain ⟨hka, hkl⟩ := h.kstacks_held k hk
    have hne : k ≠ s.proclist.current := fun e => hkl (e ▸ hc)
    exact ⟨(List.Nodup.mem_erase_iff h.blocks).mpr ⟨hne, hka⟩, fun hm => hkl (List.mem_of_mem_erase hm)⟩

theorem Table.free (h : Table n ks s) (hc : s.proclist.current ∈ s.proclist.list) :
    Table n ks (freeCurrent s) :=
  ⟨h.toBlocks.free hc, h.preempt, h.kstacks_length, h.pidcnt, h.count, h.pids.sublist List.erase_sublist,
    fun p hp => h.bound p (List.mem_of_mem_erase hp)⟩

/-! The states of the processes. -/

/-- What a listed process is when it does not run. -/
def Waiting (q : Process) : Prop := q.state = .ready ∨ q.state = .sleeping

/-- Before the first dispatch, after `n` creations, all processes are ready. -/
structure Undispatched (n : Nat) (s : Kernel) : Prop where
  length : s.proclist.list.length = n
  ready : ∀ p ∈ s.proclist.list, (s.proc p).state = .ready

/-- Between two steps: the current process runs, the others wait. -/
structure Settled (n : Nat) (s : Kernel) : Prop where
  switched : s.proclist.current = 0 ↔ s.switches = []
  undispatched : s.proclist.current = 0 → Undispatched n s
  listed : s.proclist.current ≠ 0 → s.proclist.current ∈ s.proclist.list
  running : s.proclist.current ≠ 0 → (s.proc s.proclist.current).state = .running
  waiting : ∀ p ∈ s.proclist.list, p ≠ s.proclist.current → Waiting (s.proc p)

/-- On the way to `schedule`: the current process may sleep, or be off the list. -/
structure Leaving (n : Nat) (s : Kernel) : Prop where
  switched : s.proclist.current = 0 ↔ s.switches = []
  undispatched : s.proclist.current = 0 → Undispatched n s
  created : s.proclist.current ≠ 0 → 0 < n
  known : s.proclist.current ∈ s.proclist.list → (s.proc s.proclist.current).state ≠ .unset
  waiting : ∀ p ∈ s.proclist.list, p ≠ s.proclist.current → Waiting (s.proc p)

/-- At the call of `schedule`: only a running process still has ticks. -/
structure Entering (n : Nat) (s : Kernel) : Prop extends Leaving n s where
  busy : s.proclist.current ≠ 0 → (s.proc s.proclist.current).ticks ≠ 0 →
    s.proclist.current ∈ s.proclist.list ∧ (s.proc s.proclist.current).state = .running

/-! `update_timeouts` at one process: it was not asleep, it wakes, or it sleeps on. -/

theorem wake_off {q : Process} (h : q.state ≠ .sleeping) : wake q = q := if_neg h

theorem wake_due {q : Process} (h : q.state = .sleeping) (h1 : q.timeout = 1) :
    wake q = { q with timeout := 0, state := .ready } := by
  simp only [wake, if_pos h, h1]
  exact if_pos rfl

theorem wake_early {q : Process} (h : q.state = .sleeping) (h1 : q.timeout ≠ 1) :
    wake q = { q with timeout := q.timeout - 1 } := by
  have h0 : q.timeout - 1 ≠ 0 := by bv_omega
  simp only [wake, if_pos h]
  exact if_neg h0

/-- A process that the next `update_timeouts` leaves ready. -/
def Waking (q : Process) : Prop := q.state = .ready ∨ q.state = .sleeping ∧ q.timeout = 1

theorem wake_ready (q : Process) : (wake q).state = .ready ↔ Waking q := by
  by_cases hs : q.state = .sleeping
  · by_cases h1 : q.timeout = 1
    · rw [wake_due hs h1]
      exact iff_of_true rfl (.inr ⟨hs, h1⟩)
    · rw [wake_early hs h1]
      exact (or_iff_left fun h => h1 h.2).symm
  · rw [wake_off hs]
    exact (or_iff_left fun h => hs h.1).symm

theorem wake_waiting {q : Process} (h : Waiting q) : Waiting (wake q) := by
  by_cases hs : q.state = .sleeping
  · by_cases h1 : q.timeout = 1
    · rw [wake_due hs h1]
      exact .inl rfl
    · rw [wake_early hs h1]
      exact .inr hs
  · rw [wake_off hs]
    exact h

theorem wake_known {q : Process} (h : q.state ≠ .unset) : (wake q).state ≠ .unset := by
  by_cases hs : q.state = .sleeping
  · cases wake_waiting (.inr hs) with
    | inl hr =>
      rw [hr]
      decide
    | inr hr =>
      rw [hr]
      decide
  · rwa [wake_off hs]

theorem wake_ticks (q : Process) : (wake q).ticks = q.ticks := by
  simp only [wake]
  split <;> try split
  all_goals rfl

theorem yieldCpu_waiting {q : Process} (h : q.state ≠ .unset) : Waiting (yieldCpu q) := by
  rw [yieldCpu]
  split
  · exact .inl rfl
  · next hr =>
    rw [Waiting]
    cases hq : q.state with
    | unset => exact absurd hq h
    | ready => exact .inl rfl
    | running => exact absurd hq hr
    | sleeping => exact .inr rfl

theorem updateTimeouts_on (hn : s.proclist.list.Nodup) {p : U32} (hp : p ∈ s.proclist.list) :
    (updateTimeouts s).proc p = wake (s.proc p) :=
  forEach_on _ _ _ hn hp

theorem updateTimeouts_proclist (s : Kernel) : (updateTimeouts s).proclist = s.proclist := forEach_proclist ..

theorem updateTimeouts_ticks (s : Kernel) (p : U32) :
    ((updateTimeouts s).proc p).ticks = (s.proc p).ticks :=
  forEach_field _ _ s Process.ticks wake_ticks p

theorem searchState_off (hn : s.proclist.list.Nodup) {p : U32} (hp : p ∈ s.proclist.list)
    (hc : p ≠ s.proclist.current) : (searchState s).proc p = wake (s.proc p) := by
  rw [searchState, modify_off _ _ _ hc, updateTimeouts_on hn hp]

theorem searchState_current (hn : s.proclist.list.Nodup) (hp : s.proclist.current ∈ s.proclist.list) :
    (searchState s).proc s.proclist.current = yieldCpu (wake (s.proc s.proclist.current)) := by
  rw [searchState, modify_same, updateTimeouts_on hn hp]

theorem searchState_waiting (ht : Table n ks s) (h : Leaving n s) {p : U32}
    (hp : p ∈ s.proclist.list) : Waiting ((searchState s).proc p) := by
  by_cases hc : p = s.proclist.current
  · subst hc
    rw [searchState_current ht.nodup hp]
    exact yieldCpu_waiting (wake_known (h.known hp))
  · rw [searchState_off ht.nodup hp hc]
    exact wake_waiting (h.waiting p hp hc)

theorem Table.scheduling (h : Table n ks s) (hn : 0 < n) : Scheduling s := by
  refine ⟨h.preempt, fun hc => ?_⟩
  have := h.count
  rw [hc] at this
  simp at this
  omega

/-- The current process runs on: a tick is charged, and it stays the running one. -/
theorem Entering.runs_on (ht : Table n ks s) (h : Entering n s) (hticks : HasTicks s) :
    Settled n (accountTicks s.proclist.current (updateTimeouts s)) := by
  obtain ⟨hne, htk⟩ := hticks
  rw [updateTimeouts_ticks] at htk
  obtain ⟨hcl, hrun⟩ := h.busy hne htk
  have hl : (accountTicks s.proclist.current (updateTimeouts s)).proclist = s.proclist :=
    updateTimeouts_proclist s
  have hst : ∀ p ∈ s.proclist.list, ((accountTicks s.proclist.current (updateTimeouts s)).proc p).state =
      (wake (s.proc p)).state := by
    intro p hp
    rw [← updateTimeouts_on ht.nodup hp]
    exact modify_field _ _ _ Process.state spendTick_state p
  constructor
  · rw [hl, accountTicks, modify_switches, updateTimeouts, forEach_switches]
    exact h.switched
  · rw [hl]
    exact fun h0 => absurd h0 hne
  · rw [hl]
    exact fun _ => hcl
  · rw [hl, hst _ hcl, wake_off (by rw [hrun]; decide)]
    exact fun _ => hrun
  · rw [hl]
    intro p hp hpc
    rw [Waiting, hst p hp]
    exact wake_waiting (h.waiting p hp hpc)

theorem Leaving.dispatches {fuel : Nat} (ht : Table n ks s) (h : Leaving n s)
    (hsel : selectNextProcess fuel (searchState s) = (some p, t)) : Settled n (dispatch p t) := by
  have hse := select_searched fuel (searchState s)
  rw [hsel] at hse
  have hsch := (scheduled_search s).trans hse.scheduled
  have hp := (select_some hsel).1
  have hlist : (dispatch p t).proclist.list = t.proclist.list := (scheduled_dispatch p t).list
  have hne : p ≠ 0 := fun e => ht.null_list (by rw [← hsch.list, ← e]; exact hp)
  constructor
  · rw [dispatch_current, dispatch_switches]
    exact iff_of_false hne (List.cons_ne_nil _ _)
  · rw [dispatch_current]
    exact fun h0 => absurd h0 hne
  · rw [dispatch_current, hlist]
    exact fun _ => hp
  · rw [dispatch_current]
    exact fun _ => dispatch_state p t
  · rw [dispatch_current, hlist]
    intro q hq hqp
    rw [dispatch_off t hqp, Waiting, hse.state]
    exact searchState_waiting ht h (hsch.list ▸ hq)

theorem schedule_settled {fuel : Nat} (ht : Table n ks s) (h : Entering n s)
    (he : schedule fuel s = (true, t)) : Settled n t := by
  obtain ⟨hs, rfl⟩ | ⟨hs, hticks, rfl⟩ | ⟨hs, _, p, u, hsel, rfl⟩ := schedule_cases he
  · -- it returned at once, so nothing was created yet and no process is current
    have hc : t.proclist.current = 0 := by
      apply Decidable.byContradiction
      exact fun hne => hs (ht.scheduling (h.created hne))
    exact ⟨h.switched, h.undispatched, fun hne => absurd hc hne, fun hne => absurd hc hne, h.waiting⟩
  · exact h.runs_on ht hticks
  · exact h.toLeaving.dispatches ht hsel

/-! The steps before `schedule`. -/

theorem settled_booted (mem : U32 → Process) : Settled 0 (booted mem) :=
  ⟨iff_of_true rfl rfl, fun _ => ⟨rfl, by simp [booted, enableKernelPreempt, initProcess]⟩,
    fun h => absurd rfl h, fun h => absurd rfl h, by simp [booted, enableKernelPreempt, initProcess]⟩

theorem Settled.leaving (h : Settled n s) (ht : Table n ks s) : Leaving n s := by
  refine ⟨h.switched, h.undispatched, ?_, ?_, h.waiting⟩
  · intro hne
    exact Nat.zero_lt_of_lt (ht.bound _ (h.listed hne))
  · intro hl
    have hne : s.proclist.current ≠ 0 := fun e => ht.null_list (e ▸ hl)
    rw [h.running hne]
    decide

theorem Settled.entering (h : Settled n s) (ht : Table n ks s) : Entering n s :=
  ⟨h.leaving ht, fun hne _ => ⟨h.listed hne, h.running hne⟩⟩

/-- A change of the current process alone, as long as its state stays a known one. -/
theorem Leaving.modify (h : Leaving n s) (ht : Table n ks s) {f : Process → Process}
    (hf : ∀ q, q.state ≠ .unset → (f q).state ≠ .unset) :
    Leaving n (modify s.proclist.current f s) := by
  refine ⟨h.switched, ?_, h.created, ?_, ?_⟩
  · intro h0
    obtain ⟨hlen, hready⟩ := h.undispatched h0
    refine ⟨hlen, fun p hp => ?_⟩
    have hne : p ≠ s.proclist.current := fun e => ht.null_list (by rw [← h0]; exact e ▸ hp)
    rw [modify_off _ _ _ hne]
    exact hready p hp
  · intro hl
    rw [modify_proclist, modify_same]
    exact hf _ (h.known hl)
  · intro p hp hne
    rw [modify_proclist] at hp hne
    rw [modify_off _ _ _ hne]
    exact h.waiting p hp hne

theorem Leaving.expire (h : Leaving n s) (ht : Table n ks s) : Entering n (expireCurrent s) := by
  refine ⟨h.modify ht fun _ hq => hq, fun _ hne => ?_⟩
  have h0 : ((expireCurrent s).proc s.proclist.current).ticks = 0 := by
    rw [expireCurrent, getCurrentProcess, modify_same]
  exact absurd h0 hne

theorem Leaving.sleep (h : Leaving n s) (ht : Table n ks s) (m : U32) : Leaving n (sleepCurrent m s) :=
  h.modify ht fun _ _ e => nomatch e

theorem Settled.free (h : Settled n s) (ht : Table n ks s) (hc : s.proclist.current ≠ 0) :
    Leaving n (freeCurrent s) := by
  have hoff : s.proclist.current ∉ s.proclist.list.erase s.proclist.current := ht.nodup.not_mem_erase
  refine ⟨h.switched, fun h0 => absurd h0 hc, (h.leaving ht).created, fun hl => absurd hl hoff, ?_⟩
  exact fun p hp hne => h.waiting p (List.mem_of_mem_erase hp) hne

theorem scheduled_expire (s : Kernel) : Scheduled s (expireCurrent s) :=
  scheduled_modify _ _ _ fun _ => rfl

theorem scheduled_sleep (m : U32) (s : Kernel) : Scheduled s (sleepCurrent m s) :=
  scheduled_modify _ _ _ fun _ => rfl

/-- Every call of `schedule` finds the table whole and the states as it needs them. -/
theorem calls_entering (op : Op) (ht : Table n ks s) (h : Settled n s) (hp : Permitted op s)
    (hc : callsSchedule op s = some t) : Table n ks t ∧ Entering n t := by
  cases op with
  | create p k => cases hc
  | timer =>
    cases hc
    exact ⟨ht, h.entering ht⟩
  | expire =>
    cases hc
    exact ⟨ht.of_scheduled (scheduled_expire s), (h.leaving ht).expire ht⟩
  | sleep m =>
    cases hc
    have ht' := ht.of_scheduled (scheduled_sleep m s)
    exact ⟨ht'.of_scheduled (scheduled_expire _), ((h.leaving ht).sleep ht m).expire ht'⟩
  | exit =>
    cases hc
    have ht' := ht.free (h.listed hp)
    exact ⟨ht'.of_scheduled (scheduled_expire _), (h.free ht hp).expire ht'⟩

theorem Settled.create (h : Settled n s) (ht : Table n ks s) (hf : Fresh p k s) :
    Settled (n + 1) (createProcess p k s).2 := by
  -- the new record goes to the end of the list, and no other one changes
  have hne := ht.proc_ne hf
  have hlist := createProcess_list hf
  have hcur : (createProcess p k s).2.proclist.current = s.proclist.current := by
    rw [createProcess_proclist hf]
  have hnew : ((createProcess p k s).2.proc p).state = .ready := by
    rw [createProcess_new hf]
    rfl
  constructor
  · rw [hcur, createProcess_switches hf]
    exact h.switched
  · rw [hcur]
    intro h0
    obtain ⟨hlen, hready⟩ := h.undispatched h0
    refine ⟨by rw [hlist, List.length_append, hlen]; rfl, ?_⟩
    rw [hlist]
    intro q hq
    obtain hq | hq := List.mem_append.mp hq
    · rw [createProcess_off hf (hne q hq)]
      exact hready q hq
    · rw [List.mem_singleton.mp hq]
      exact hnew
  · rw [hcur, hlist]
    exact fun h0 => List.mem_append_left _ (h.listed h0)
  · rw [hcur]
    intro h0
    rw [createProcess_off hf (hne _ (h.listed h0))]
    exact h.running h0
  · rw [hcur, hlist]
    intro q hq hqc
    obtain hq | hq := List.mem_append.mp hq
    · rw [createProcess_off hf (hne q hq)]
      exact h.waiting q hq hqc
    · rw [List.mem_singleton.mp hq]
      exact .inl hnew

/-- What one step preserves. -/
theorem step_inv {fuel : Nat} {op : Op} (ht : Table n ks s) (h : Settled n s) (hp : Permitted op s)
    (he : exec fuel op s = (true, t)) : ∃ n' ks', Table n' ks' t ∧ Settled n' t := by
  cases hc : callsSchedule op s with
  | none =>
    cases op with
    | create p k =>
      obtain rfl : (createProcess p k s).2 = t := (Prod.mk.inj he).2
      exact ⟨n + 1, k :: ks, ht.create hp, h.create ht hp⟩
    | _ => cases hc
  | some u =>
    obtain ⟨htu, hu⟩ := calls_entering op ht h hp hc
    rw [exec_schedule hc] at he
    exact ⟨n, ks, htu.of_scheduled (scheduled_schedule he), schedule_settled htu hu he⟩

end

/-- **The invariant of every run.** -/
theorem proc_inv {s₀ s : Kernel} {tr : List (Kernel × Op)} {b : Bool} (h : Run s₀ tr b s)
    (h₀ : ∃ n ks, Table n ks s₀ ∧ Settled n s₀) (hb : b = true) : ∃ n ks, Table n ks s ∧ Settled n s := by
  induction h with
  | start => exact h₀
  | step fuel op _ hp he ih =>
    subst hb
    obtain ⟨n, ks, ht, hs⟩ := ih rfl
    exact step_inv ht hs hp he

theorem booted_inv {mem : U32 → Process} {s : Kernel} {tr : List (Kernel × Op)}
    (h : Run (booted mem) tr true s) : ∃ n ks, Table n ks s ∧ Settled n s :=
  proc_inv h ⟨0, [], table_booted mem, settled_booted mem⟩ rfl

end LineOS
