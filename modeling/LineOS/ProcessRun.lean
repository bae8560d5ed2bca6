import LineOS.ProcessInv

/- What holds over runs of the scheduler.

   1. `process_table`: in every state between two steps the list is increasing in
      pid, the current process is listed and running, and the others wait.
   2. `search_ends_iff`: when the search of `select_next_process` ends. It does
      unless a process goes to sleep or ends while no other is ready or about to
      wake; then nothing on the list is ready, and the refill loop goes on for
      ever (`search_loops`).
   3. `accesses_live_iff`: when the process structures accessed are all live.
      Those of the listed processes are; the ones that are not are reached
      through `k_proclist.current`, which is NULL until the first dispatch and
      freed in `process_end` (`dead_accesses`). -/
namespace LineOS
open ByteMemory

/-! A machine to run: two processes with their stacks, in memory full of zeros. -/

def zeroMem : U32 → Process := fun _ => ⟨0, 0, .unset, 0, 0, 0, 0⟩

/-- The kernel after an operation whose search takes at most two walks. -/
def after (op : Op) (s : Kernel) : Kernel := (exec 2 op s).2

def sampleOne : Kernel := after (.create 0xC000A014 0xC000A084) (booted zeroMem)
def sampleTwo : Kernel := after (.create 0xC000B098 0xC000B108) sampleOne

theorem run_after {s₀ s : Kernel} {tr : List (Kernel × Op)} (h : Run s₀ tr true s) (op : Op)
    (hp : Permitted op s) (he : (exec 2 op s).1 = true) : Run s₀ ((s, op) :: tr) true (after op s) :=
  Run.step 2 op h hp (Prod.ext he rfl)

theorem sampleOne_run : Run (booted zeroMem) [(booted zeroMem, .create 0xC000A014 0xC000A084)] true sampleOne :=
  run_after Run.start _ (by constructor <;> decide) rfl

/-! The process table. -/

/-- `current` and the states of the listed processes, as the scheduler keeps them. -/
structure ProcTable (s : Kernel) : Prop where
  increasing : s.proclist.list.Pairwise fun p q => (s.proc p).pid < (s.proc q).pid
  undispatched : s.proclist.current = 0 ↔ s.switches = []
  current : s.switches ≠ [] → s.proclist.current ∈ s.proclist.list ∧
    (s.proc s.proclist.current).state = .running
  others : ∀ p ∈ s.proclist.list, p ≠ s.proclist.current →
    (s.proc p).state = .ready ∨ (s.proc p).state = .sleeping

/-- **The process table** in every state between two steps of a run. -/
theorem process_table {mem : U32 → Process} {tr : List (Kernel × Op)} {s : Kernel}
    (h : Run (booted mem) tr true s) : ProcTable s := by
  obtain ⟨n, ks, ht, hs⟩ := booted_inv h
  refine ⟨ht.pids, hs.switched, fun hne => ?_, hs.waiting⟩
  have hc : s.proclist.current ≠ 0 := fun h0 => hne (hs.switched.mp h0)
  exact ⟨hs.listed hc, hs.running hc⟩

/-- The first process is dispatched, goes to sleep, and is woken by the same call. -/
theorem process_table_sample :
    ProcTable (after .exit (after (.sleep 1) (after .timer sampleTwo))) := by
  have h := run_after sampleOne_run (.create 0xC000B098 0xC000B108) (by constructor <;> decide) rfl
  have h := run_after h .timer trivial (by decide)
  have h := run_after h (.sleep 1) trivial (by decide)
  exact process_table (run_after h .exit (by rw [Permitted]; decide) (by decide))

/-! The search. -/

/-- Where the step calls `select_next_process`, the call returns a listed process
in state PROC_READY with ticks left. -/
def SearchEnds (op : Op) (s : Kernel) : Prop :=
  ∀ u t, callsSchedule op s = some u → scheduleEntry u = .searching t →
    ∃ fuel p t', selectNextProcess fuel t = (some p, t') ∧ p ∈ t'.proclist.list ∧
      (t'.proc p).state = .ready ∧ 0 < (t'.proc p).ticks

def OtherWaking (s : Kernel) : Prop :=
  ∃ p ∈ s.proclist.list, p ≠ s.proclist.current ∧ Waking (s.proc p)

def LeavesReady : Op → Kernel → Prop
  | .sleep n, s => s.proclist.current = 0 ∨ n = 1 ∨ OtherWaking s
  | .exit, s => OtherWaking s
  | _, _ => True

/-- The search ends just if it starts with a ready process on the list. -/
theorem select_iff {t : Kernel} (hn : t.proclist.list.Nodup) :
    (∃ fuel p t', selectNextProcess fuel t = (some p, t') ∧ p ∈ t'.proclist.list ∧
      (t'.proc p).state = .ready ∧ 0 < (t'.proc p).ticks) ↔
    ∃ p ∈ t.proclist.list, (t.proc p).state = .ready := by
  constructor
  · intro ⟨fuel, p, t', h, _⟩
    exact ⟨p, select_ready h⟩
  · intro ⟨p, hp, hr⟩
    obtain ⟨q, t', h⟩ := select_finds hn hp hr
    obtain ⟨hq, he⟩ := select_some h
    exact ⟨2, q, t', h, hq, he.1, he.2⟩

theorem yieldCpu_ready (q : Process) : (yieldCpu (wake q)).state = .ready ↔ q.state = .running ∨ Waking q := by
  rw [yieldCpu]
  by_cases hr : q.state = .running
  · rw [wake_off (by rw [hr]; decide), if_pos hr]
    exact iff_of_true rfl (.inl hr)
  · have hw : (wake q).state ≠ .running := by
      by_cases hs : q.state = .sleeping
      · cases wake_waiting (.inr hs) with
        | inl h =>
          rw [h]
          decide
        | inr h =>
          rw [h]
          decide
      · rwa [wake_off hs]
    rw [if_neg hw, wake_ready]
    exact (or_iff_right hr).symm

section
variable {n : Nat} {ks : List U32} {s u : Kernel}

theorem searchState_ready (ht : Table n ks u) :
    (∃ p ∈ (searchState u).proclist.list, ((searchState u).proc p).state = .ready) ↔
    (u.proclist.current ∈ u.proclist.list ∧ ((u.proc u.proclist.current).state = .running ∨
      Waking (u.proc u.proclist.current))) ∨ OtherWaking u := by
  rw [(scheduled_search u).list]
  constructor
  · intro ⟨p, hp, hr⟩
    by_cases hc : p = u.proclist.current
    · subst hc
      rw [searchState_current ht.nodup hp, yieldCpu_ready] at hr
      exact .inl ⟨hp, hr⟩
    · rw [searchState_off ht.nodup hp hc, wake_ready] at hr
      exact .inr ⟨p, hp, hc, hr⟩
  · intro h
    obtain ⟨hp, hr⟩ | ⟨p, hp, hc, hr⟩ := h
    · refine ⟨_, hp, ?_⟩
      rw [searchState_current ht.nodup hp, yieldCpu_ready]
      exact hr
    · refine ⟨p, hp, ?_⟩
      rw [searchState_off ht.nodup hp hc, wake_ready]
      exact hr

/-- Where `schedule` gets to the search, it ends just if a process is ready there. -/
theorem searchEnds_ready {op : Op} (hn : u.proclist.list.Nodup) (hc : callsSchedule op s = some u)
    (hs : Scheduling u) (hticks : ¬ HasTicks u) : SearchEnds op s ↔
    ∃ p ∈ (searchState u).proclist.list, ((searchState u).proc p).state = .ready := by
  have hn' : (searchState u).proclist.list.Nodup := by
    rw [(scheduled_search u).list]
    exact hn
  rw [← select_iff hn']
  constructor
  · exact fun h => h u _ hc (entry_search hs hticks)
  · intro h u' t hc' he
    rw [hc] at hc'
    cases hc'
    rw [entry_search hs hticks] at he
    cases he
    exact h

theorem searchEnds_iff {op : Op} (ht : Table n ks u) (hc : callsSchedule op s = some u)
    (hs : Scheduling u) (hticks : ¬ HasTicks u) : SearchEnds op s ↔
    (u.proclist.current ∈ u.proclist.list ∧ ((u.proc u.proclist.current).state = .running ∨
      Waking (u.proc u.proclist.current))) ∨ OtherWaking u :=
  (searchEnds_ready ht.nodup hc hs hticks).trans (searchState_ready ht)

theorem searchEnds_of {op : Op} (ht : Table n ks u) (hc : callsSchedule op s = some u)
    (h : Scheduling u → (u.proclist.current ∈ u.proclist.list ∧
      ((u.proc u.proclist.current).state = .running ∨ Waking (u.proc u.proclist.current))) ∨
      OtherWaking u) : SearchEnds op s := by
  by_cases hs : Scheduling u
  · by_cases hticks : HasTicks u
    · intro u' t hc' he
      rw [hc] at hc'
      cases hc'
      rw [entry_ticks hs hticks] at he
      cases he
    · exact (searchEnds_iff ht hc hs hticks).mpr (h hs)
  · intro u' t hc' he
    rw [hc] at hc'
    cases hc'
    rw [entry_idle hs] at he
    cases he

theorem undispatched_waking (ht : Table n ks u) (h : Leaving n u) (hs : Scheduling u)
    (h0 : u.proclist.current = 0) : OtherWaking u := by
  obtain ⟨hlen, hready⟩ := h.undispatched h0
  have hn : n ≠ 0 := by
    intro e
    have := ht.count
    exact hs.2 (BitVec.eq_of_toNat_eq (by rw [this, e]; rfl))
  obtain ⟨p, hp⟩ := List.exists_mem_of_length_pos (by omega : 0 < u.proclist.list.length)
  refine ⟨p, hp, fun e => ?_, .inl (hready p hp)⟩
  rw [h0] at e
  exact ht.null_list (e ▸ hp)

theorem expireCurrent_off {p : U32} (s : Kernel) (h : p ≠ s.proclist.current) :
    (expireCurrent s).proc p = s.proc p :=
  modify_off _ _ _ h

theorem expireCurrent_ticks (s : Kernel) : ((expireCurrent s).proc s.proclist.current).ticks = 0 := by
  rw [expireCurrent, getCurrentProcess, modify_same]

theorem expireCurrent_state (s : Kernel) (p : U32) : ((expireCurrent s).proc p).state = (s.proc p).state :=
  modify_field _ (fun q => { q with ticks := 0 }) s Process.state (fun _ => rfl) p

/-- After `process_expire` the current process has no ticks, so `schedule` searches. -/
theorem expire_searches (s : Kernel) : ¬ HasTicks (expireCurrent s) := by
  intro h
  apply h.2
  rw [updateTimeouts_ticks]
  exact expireCurrent_ticks s

theorem otherWaking_sleep (m : U32) (s : Kernel) :
    OtherWaking (expireCurrent (sleepCurrent m s)) ↔ OtherWaking s := by
  have hoff : ∀ p, p ≠ s.proclist.current → (expireCurrent (sleepCurrent m s)).proc p = s.proc p :=
    fun p hp => (expireCurrent_off (sleepCurrent m s) hp).trans (modify_off _ _ _ hp)
  constructor
  · intro ⟨p, hp, hne, hw⟩
    exact ⟨p, hp, hne, hoff p hne ▸ hw⟩
  · intro ⟨p, hp, hne, hw⟩
    exact ⟨p, hp, hne, (hoff p hne).symm ▸ hw⟩

theorem otherWaking_free (hn : s.proclist.list.Nodup) :
    OtherWaking (expireCurrent (freeCurrent s)) ↔ OtherWaking s := by
  have hoff : ∀ p, p ≠ s.proclist.current → (expireCurrent (freeCurrent s)).proc p = s.proc p :=
    fun p hp => expireCurrent_off (freeCurrent s) hp
  constructor
  · intro ⟨p, hp, hne, hw⟩
    exact ⟨p, List.mem_of_mem_erase hp, hne, hoff p hne ▸ hw⟩
  · intro ⟨p, hp, hne, hw⟩
    exact ⟨p, (List.Nodup.mem_erase_iff hn).mpr ⟨hne, hp⟩, hne, (hoff p hne).symm ▸ hw⟩

theorem searchEnds_sleep (ht : Table n ks s) (hs : Settled n s) (h0 : s.proclist.current ≠ 0) (m : U32) :
    SearchEnds (.sleep m) s ↔ m = 1 ∨ OtherWaking s := by
  obtain ⟨htu, hu⟩ := calls_entering (.sleep m) ht hs trivial rfl
  have hme : (expireCurrent (sleepCurrent m s)).proc s.proclist.current =
      { s.proc s.proclist.current with state := .sleeping, timeout := m, ticks := 0 } := by
    rw [expireCurrent, getCurrentProcess, sleepCurrent, modify_proclist, modify_same, getCurrentProcess,
      modify_same]
  have hcur : (expireCurrent (sleepCurrent m s)).proclist.current = s.proclist.current := rfl
  rw [searchEnds_iff htu rfl (htu.scheduling (hu.created h0)) (expire_searches _), otherWaking_sleep, hcur, hme]
  refine or_congr_left ?_
  simp only [Waking, reduceCtorEq, false_or, true_and]
  exact and_iff_right (hs.listed h0)

/-- A process that ends is off the list, and leaves it to the others. -/
theorem searchEnds_exit (ht : Table n ks s) (hs : Settled n s) (h0 : s.proclist.current ≠ 0) :
    SearchEnds .exit s ↔ OtherWaking s := by
  obtain ⟨htu, hu⟩ := calls_entering .exit ht hs h0 rfl
  have hoff : s.proclist.current ∉ s.proclist.list.erase s.proclist.current := ht.nodup.not_mem_erase
  rw [searchEnds_iff htu rfl (htu.scheduling (hu.created h0)) (expire_searches _), otherWaking_free ht.nodup]
  exact or_iff_right fun hc => hoff hc.1

end

/-- **When the search ends**: from every state a run reaches, and for every step
from there. -/
theorem search_ends_iff {mem : U32 → Process} {tr : List (Kernel × Op)} {s : Kernel}
    (h : Run (booted mem) tr true s) (op : Op) (hp : Permitted op s) :
    SearchEnds op s ↔ LeavesReady op s := by
  obtain ⟨n, ks, ht, hs⟩ := booted_inv h
  cases op with
  | create p k => exact iff_of_true (fun _ _ hc => nomatch hc) trivial
  | timer =>
    refine iff_of_true (searchEnds_of ht rfl fun hsch => ?_) trivial
    by_cases h0 : s.proclist.current = 0
    · exact .inr (undispatched_waking ht (hs.leaving ht) hsch h0)
    · exact .inl ⟨hs.listed h0, .inl (hs.running h0)⟩
  | expire =>
    obtain ⟨htu, hu⟩ := calls_entering .expire ht hs hp rfl
    refine iff_of_true (searchEnds_of htu rfl fun hsch => ?_) trivial
    by_cases h0 : s.proclist.current = 0
    · exact .inr (undispatched_waking htu hu.toLeaving hsch h0)
    · refine .inl ⟨hs.listed h0, .inl ?_⟩
      rw [expireCurrent_state]
      exact hs.running h0
  | sleep m =>
    by_cases h0 : s.proclist.current = 0
    · obtain ⟨htu, hu⟩ := calls_entering (.sleep m) ht hs hp rfl
      refine iff_of_true (searchEnds_of htu rfl fun hsch => .inr ?_) (.inl h0)
      exact undispatched_waking htu hu.toLeaving hsch h0
    · exact (searchEnds_sleep ht hs h0 m).trans (or_iff_right h0).symm
  | exit => exact searchEnds_exit ht hs hp

/-- The sleeper leaves another process ready, so the search ends. -/
theorem search_ends_sample : SearchEnds (.sleep 5) (after .timer sampleTwo) := by
  have h := run_after sampleOne_run (.create 0xC000B098 0xC000B108) (by constructor <;> decide) rfl
  have h := run_after h .timer trivial (by decide)
  exact (search_ends_iff h (.sleep 5) trivial).mpr (.inr (.inr ⟨0xC000B098, by decide, by decide, .inl (by decide)⟩))

/-- With one process in the system, the search goes on for ever when it sleeps, and
when it ends. -/
theorem search_loops : ∃ tr s, Run (booted zeroMem) tr true s ∧
    ¬ SearchEnds (.sleep 5) s ∧ ¬ SearchEnds .exit s := by
  have h := run_after sampleOne_run .timer trivial (by decide)
  obtain ⟨n, ks, ht, hs⟩ := booted_inv h
  have hcur : (after .timer sampleOne).proclist.current ≠ 0 := by decide
  have hlist : (after .timer sampleOne).proclist.list = [(after .timer sampleOne).proclist.current] := by decide
  have halone : ¬ OtherWaking (after .timer sampleOne) := by
    intro ⟨p, hp, hne, _⟩
    rw [hlist] at hp
    exact hne (List.mem_singleton.mp hp)
  refine ⟨_, _, h, ?_, ?_⟩
  · rw [searchEnds_sleep ht hs hcur]
    exact fun h => h.elim (by decide) halone
  · rw [searchEnds_exit ht hs hcur]
    exact halone

/-! Accesses. -/

/-- The step reaches no process structure that is not live. -/
def Safe : Op → Kernel → Prop
  | .create _ _, _ => True
  | .timer, s => s.proclist.count = 0 ∨ s.proclist.current ≠ 0
  | .expire, s => s.proclist.current ≠ 0
  | .sleep _, s => s.proclist.current ≠ 0
  | .exit, _ => False

def watched (s : Kernel) : Kernel := { s with trace := [] }

section
variable {n : Nat} {ks : List U32} {s : Kernel}

theorem allLive_create {p k : U32} (hf : Fresh p k s) : AllLive (createProcess p k s).2 ↔ AllLive s := by
  have htr : (createProcess p k s).2.trace = ⟨p, true⟩ :: s.trace := by
    rw [createProcess, if_neg hf.proc_null]
    simp only [if_neg hf.stack_null]
    have hl : Live { s with allocated := k :: p :: s.allocated } p :=
      ⟨hf.proc_null, List.mem_cons_of_mem _ List.mem_cons_self⟩
    simp only [modify, deref, hl, decide_true]
  simp [AllLive, htr]

theorem live_current (ht : Table n ks s) (hs : Settled n s) :
    Live s s.proclist.current ↔ s.proclist.current ≠ 0 :=
  ⟨fun h => h.1, fun h => ⟨h, ht.held _ (hs.listed h)⟩⟩

/-- What one step accesses, whether its search ends or not. -/
theorem step_allLive {op : Op} {fuel : Nat} (ht : Table n ks s) (hs : Settled n s) (hp : Permitted op s) :
    AllLive (exec fuel op s).2 ↔ AllLive s ∧ Safe op s := by
  have hcur := live_current ht hs
  cases hc : callsSchedule op s with
  | none =>
    cases op with
    | create p k => exact (allLive_create hp).trans (and_iff_left trivial).symm
    | _ => cases hc
  | some u =>
    obtain ⟨htu, _⟩ := calls_entering op ht hs hp hc
    rw [exec_schedule hc, allLive_schedule htu.listLive]
    cases op with
    | create p k => cases hc
    | timer =>
      cases hc
      rw [hcur]
      refine and_congr_right fun _ => ⟨fun h => ?_, fun h hsch => h.resolve_left hsch.2⟩
      by_cases h0 : s.proclist.count = 0
      · exact .inl h0
      · exact .inr (h ⟨ht.preempt, h0⟩)
    | expire =>
      cases hc
      have ha : AllLive (expireCurrent s) ↔ Live s s.proclist.current ∧ AllLive s := allLive_modify
      have hl : Live (expireCurrent s) s.proclist.current ↔ Live s s.proclist.current := live_congr rfl _
      rw [ha, hcur]
      exact ⟨fun h => ⟨h.1.2, h.1.1⟩, fun h => ⟨⟨h.2, h.1⟩, fun _ => hl.mpr (hcur.mpr h.2)⟩⟩
    | sleep m =>
      cases hc
      have ha : AllLive (expireCurrent (sleepCurrent m s)) ↔
          Live s s.proclist.current ∧ Live s s.proclist.current ∧ AllLive s :=
        allLive_modify.trans (and_congr (live_congr rfl _) allLive_modify)
      have hl : Live (expireCurrent (sleepCurrent m s)) s.proclist.current ↔ Live s s.proclist.current :=
        live_congr rfl _
      rw [ha, hcur]
      exact ⟨fun h => ⟨h.1.2.2, h.1.1⟩, fun h => ⟨⟨h.2, h.2, h.1⟩, fun _ => hl.mpr (hcur.mpr h.2)⟩⟩
    | exit =>
      cases hc
      refine iff_of_false (fun h => ?_) fun h => h.2
      -- `process_expire` writes to the structure that was just freed
      have ha : Live (freeCurrent s) s.proclist.current := (allLive_modify.mp h.1).1
      exact ht.blocks.not_mem_erase ha.2

end

/-- **Which accesses are live**: watched from any state a run reaches, over any run
from there, the search of its last step possibly still going on. -/
theorem accesses_live_iff {mem : U32 → Process} {tr₀ tr : List (Kernel × Op)} {s t : Kernel} {b : Bool}
    (h₀ : Run (booted mem) tr₀ true s) (h : Run (watched s) tr b t) :
    AllLive t ↔ ∀ q ∈ tr, Safe q.2 q.1 := by
  have hinv : ∃ n ks, Table n ks (watched s) ∧ Settled n (watched s) := by
    obtain ⟨n, ks, ht, hs⟩ := booted_inv h₀
    exact ⟨n, ks, ht.of_scheduled ⟨rfl, rfl, rfl, rfl, rfl, fun _ => rfl⟩,
      hs.switched, fun h0 => ⟨(hs.undispatched h0).length, (hs.undispatched h0).ready⟩, hs.listed,
      hs.running, hs.waiting⟩
  induction h with
  | start => simp [AllLive, watched]
  | @step tr u b t fuel op hr hp he ih =>
    obtain ⟨n, ks, ht, hs⟩ := proc_inv hr hinv rfl
    obtain rfl : (exec fuel op u).2 = t := by rw [he]
    rw [step_allLive ht hs hp, List.forall_mem_cons, and_comm]
    exact and_congr_right' ih

/-- Once a process is current, timer interrupts and expiries access live structures. -/
theorem accesses_live_sample :
    AllLive (after .expire (after .timer (watched (after .timer sampleTwo)))) := by
  have h := run_after sampleOne_run (.create 0xC000B098 0xC000B108) (by constructor <;> decide) rfl
  have h := run_after h .timer trivial (by decide)
  have r : Run (watched (after .timer sampleTwo)) [] true (watched (after .timer sampleTwo)) := Run.start
  have r := run_after (run_after r .timer trivial (by decide)) .expire trivial (by decide)
  refine (accesses_live_iff h r).mpr fun q hq => ?_
  obtain rfl | hq := List.mem_cons.mp hq
  · show _ ≠ _
    decide
  · obtain rfl := List.mem_singleton.mp hq
    exact .inr (by decide)

/-- The first dispatch reads the structure at NULL, and the end of a process the one
it freed. -/
theorem dead_accesses : ∃ tr s, Run (booted zeroMem) tr true s ∧
    ⟨0, false⟩ ∈ s.trace ∧ ⟨0xC000A014, false⟩ ∈ s.trace := by
  have h := run_after sampleOne_run (.create 0xC000B098 0xC000B108) (by constructor <;> decide) rfl
  have h := run_after h .timer trivial (by decide)
  have h := run_after h .exit (by rw [Permitted]; decide) (by decide)
  exact ⟨_, _, h, by decide, by decide⟩

end LineOS
