import LineOS.ProcessRun

/- How long a process sleeps. A run here is one of timer interrupts, of calls by
   the current process and of keys: `press` calls `schedule` too. The timeout of
   a sleeping process goes down by one in every call of `schedule`, whoever makes
   it (`schedule_sleeper`), so a sleep is as long as the calls of `schedule` it
   takes, the one of `process_sleep` itself included (`sleep_length`).
   `sleep_on_time_iff` compares that with the timer interrupts among them. -/
namespace LineOS
open ByteMemory

/-! Runs with a keyboard. -/

/-- `press`. The keys that only print do nothing here. -/
def press (fuel : Nat) (scancode : U32) (s : Kernel) : Bool × Kernel :=
  if scancode = 0x48 then schedule fuel s else (true, s)

inductive Event where
  | op (o : Op)
  | key (scancode : U32)

namespace Event

def handle (fuel : Nat) : Event → Kernel → Bool × Kernel
  | .op o, s => exec fuel o s
  | .key scancode, s => press fuel scancode s

/-- The key `0x50`, which overwrites the heap for a test, is not pressed. -/
def Allowed : Event → Kernel → Prop
  | .op o, s => Permitted o s
  | .key scancode, _ => scancode ≠ 0x50

def calls : Event → Bool
  | .op (.create _ _) => false
  | .op _ => true
  | .key scancode => scancode = 0x48

def isTimer : Event → Bool
  | .op .timer => true
  | _ => false

end Event

/-- As `Run`, of events. -/
inductive EventRun (s₀ : Kernel) : List (Kernel × Event) → Bool → Kernel → Prop
  | start : EventRun s₀ [] true s₀
  | step {es s b s'} (fuel : Nat) (e : Event) : EventRun s₀ es true s → e.Allowed s →
      e.handle fuel s = (b, s') → EventRun s₀ ((s, e) :: es) b s'

theorem EventRun.run {s₀ s : Kernel} {es : List (Kernel × Event)} {b : Bool} (h : EventRun s₀ es b s) :
    ∃ tr, Run s₀ tr b s := by
  induction h with
  | start => exact ⟨[], Run.start⟩
  | step fuel e _ ha he ih =>
    obtain ⟨tr, h⟩ := ih
    cases e with
    | op o => exact ⟨_, Run.step fuel o h ha he⟩
    | key scancode =>
      simp only [Event.handle, press] at he
      split at he
      · exact ⟨_, Run.step fuel .timer h trivial he⟩
      · obtain ⟨rfl, rfl⟩ := Prod.mk.inj he
        exact ⟨tr, h⟩

theorem EventRun.inv {mem : U32 → Process} {s : Kernel} {es : List (Kernel × Event)}
    (h : EventRun (booted mem) es true s) : ∃ n ks, Table n ks s ∧ Settled n s := by
  obtain ⟨tr, h⟩ := h.run
  exact booted_inv h

theorem EventRun.last {s₀ s s' : Kernel} {e : Event} {es : List (Kernel × Event)} {b : Bool}
    (h : EventRun s₀ ((s, e) :: es) b s') :
    EventRun s₀ es true s ∧ e.Allowed s ∧ ∃ fuel, e.handle fuel s = (b, s') := by
  cases h with
  | step fuel e h ha he => exact ⟨h, ha, fuel, he⟩

/-! One call of `schedule`, for a process that sleeps. -/

/-- The process sleeps for `r` more calls of `schedule`. -/
structure SleepsFor (r : Nat) (q : Process) : Prop where
  state : q.state = .sleeping
  timeout : q.timeout = BitVec.ofNat 32 r
  pos : 0 < r
  le : r ≤ 2 ^ 32

/-- It wakes, or sleeps on for one call less. -/
def CountsDown (r : Nat) (q : Process) : Prop :=
  r = 1 ∧ q.state ≠ .sleeping ∨ 1 < r ∧ SleepsFor (r - 1) q

theorem wake_countsDown {r : Nat} {q : Process} (h : SleepsFor r q) : CountsDown r (wake q) := by
  have hpos := h.pos
  have hle := h.le
  have ht := h.timeout
  -- the last tick wakes the process, an earlier one only counts
  by_cases h1 : r = 1
  · subst h1
    rw [wake_due h.state ht]
    exact .inl ⟨rfl, by simp⟩
  · have hne : q.timeout ≠ 1 := by
      rw [ht]
      intro e
      have := congrArg BitVec.toNat e
      rw [BitVec.toNat_ofNat, show (1 : U32).toNat = 1 from rfl] at this
      omega
    have hdown : q.timeout - 1 = BitVec.ofNat 32 (r - 1) := by
      rw [ht]
      apply BitVec.eq_of_toNat_eq
      rw [BitVec.toNat_sub, BitVec.toNat_ofNat, BitVec.toNat_ofNat, show (1 : U32).toNat = 1 from rfl]
      omega
    rw [wake_early h.state hne]
    exact .inr ⟨by omega, h.state, hdown, by omega, by omega⟩

theorem yieldCpu_sleeping (q : Process) : (yieldCpu q).state = .sleeping ↔ q.state = .sleeping := by
  rw [yieldCpu]
  split
  · next h => simp [h]
  · rfl

theorem yieldCpu_timeout (q : Process) : (yieldCpu q).timeout = q.timeout := by
  rw [yieldCpu]
  split <;> rfl

theorem spendTick_timeout (q : Process) : (spendTick q).timeout = q.timeout := by
  rw [spendTick]
  split <;> rfl

theorem Searched.timeout {s s' : Kernel} (h : Searched s s') (q : U32) :
    (s'.proc q).timeout = (s.proc q).timeout := by
  have := congrArg Process.timeout (h.fields q)
  exact this

section
variable {n r fuel : Nat} {ks : List U32} {s u t : Kernel} {p : U32}

/-- The process that is dispatched was ready, so no sleeping process is. -/
theorem dispatch_sleeping {q : U32} (hq : (t.proc q).state = .ready) (p : U32) :
    ((dispatch q t).proc p).state = .sleeping ↔ (t.proc p).state = .sleeping := by
  by_cases hpq : p = q
  · subst hpq
    rw [dispatch_state, hq]
    simp
  · rw [dispatch_off t hpq]

theorem dispatch_timeout (q : U32) (t : Kernel) (p : U32) :
    ((dispatch q t).proc p).timeout = (t.proc p).timeout := by
  rw [dispatch, switchTo_proc]
  exact (modify_field _ _ _ Process.timeout spendTick_timeout p).trans
    (modify_field q (fun r => { r with state := .running }) t Process.timeout (fun _ => rfl) p)

structure SameSleep (q q' : Process) : Prop where
  timeout : q'.timeout = q.timeout
  sleeping : q'.state = .sleeping ↔ q.state = .sleeping

theorem SameSleep.trans {q q' q'' : Process} (h : SameSleep q q') (h' : SameSleep q' q'') : SameSleep q q'' :=
  ⟨h'.timeout.trans h.timeout, h'.sleeping.trans h.sleeping⟩

theorem CountsDown.congr {q q' : Process} (h : CountsDown r q) (hs : SameSleep q q') : CountsDown r q' := by
  obtain ⟨h1, hne⟩ | ⟨h1, hq⟩ := h
  · exact .inl ⟨h1, fun e => hne (hs.sleeping.mp e)⟩
  · exact .inr ⟨h1, hs.sleeping.mpr hq.state, hs.timeout.trans hq.timeout, hq.pos, hq.le⟩

theorem sameSleep_spend (p q : U32) (t : Kernel) : SameSleep (t.proc q) ((accountTicks p t).proc q) :=
  ⟨modify_field _ _ _ Process.timeout spendTick_timeout q, by
    rw [show ((accountTicks p t).proc q).state = _ from modify_field _ _ _ Process.state spendTick_state q]⟩

theorem sameSleep_dispatch {q : U32} (hq : (t.proc q).state = .ready) (p : U32) :
    SameSleep (t.proc p) ((dispatch q t).proc p) :=
  ⟨dispatch_timeout q t p, dispatch_sleeping hq p⟩

/-- **What every call of `schedule` does to a process on the list**, whether its
search ends or not: `update_timeouts`, and nothing else as to sleeping. -/
theorem schedule_wakes (hn : u.proclist.list.Nodup) (hp : p ∈ u.proclist.list) (hsch : Scheduling u) (fuel : Nat) :
    SameSleep (wake (u.proc p)) ((schedule fuel u).2.proc p) := by
  rw [← updateTimeouts_on hn hp]
  by_cases hticks : HasTicks u
  · rw [schedule_ticks hsch hticks]
    exact sameSleep_spend ..
  · have hsearch : SameSleep ((updateTimeouts u).proc p) ((searchState u).proc p) := by
      refine ⟨modify_field _ _ _ Process.timeout yieldCpu_timeout p, ?_⟩
      by_cases hc : p = u.proclist.current
      · subst hc
        rw [searchState, modify_same, yieldCpu_sleeping]
      · rw [searchState, modify_off _ _ _ hc]
    have hse := select_searched fuel (searchState u)
    cases hsel : selectNextProcess fuel (searchState u) with
    | mk found t =>
      rw [hsel] at hse
      have ht := hsearch.trans ⟨hse.timeout p, by rw [hse.state]⟩
      cases found with
      | none =>
        rw [schedule_lost hsch hticks hsel]
        exact ht
      | some q =>
        rw [schedule_found hsch hticks hsel]
        exact ht.trans (sameSleep_dispatch (select_some hsel).2.1 p)

theorem schedule_sleeper (hn : u.proclist.list.Nodup) (hp : p ∈ u.proclist.list) (hsch : Scheduling u)
    (h : SleepsFor r (u.proc p)) : CountsDown r ((schedule fuel u).2.proc p) :=
  (wake_countsDown h).congr (schedule_wakes hn hp hsch fuel)

/-! One event. -/

theorem Settled.asleep (hs : Settled n s) (hst : (s.proc p).state = .sleeping) :
    p ≠ s.proclist.current ∨ s.proclist.current = 0 := by
  by_cases h0 : s.proclist.current = 0
  · exact .inr h0
  · refine .inl fun e => ?_
    have hrun := hs.running h0
    rw [← e, hst] at hrun
    cases hrun

/-- At the call of `schedule` another process's fields are as before the step, and
it is listed still. -/
theorem calls_other {o : Op} (ht : Table n ks s) (hc : callsSchedule o s = some u) (hp : p ∈ s.proclist.list)
    (hne : p ≠ s.proclist.current) : u.proc p = s.proc p ∧ p ∈ u.proclist.list := by
  cases o with
  | create _ _ => cases hc
  | timer =>
    cases hc
    exact ⟨rfl, hp⟩
  | expire =>
    cases hc
    exact ⟨expireCurrent_off s hne, hp⟩
  | sleep m =>
    cases hc
    exact ⟨(expireCurrent_off (sleepCurrent m s) hne).trans (modify_off _ _ _ hne), hp⟩
  | exit =>
    cases hc
    exact ⟨expireCurrent_off (freeCurrent s) hne, (List.Nodup.mem_erase_iff ht.nodup).mpr ⟨hne, hp⟩⟩

/-- An event of another process: the sleeper counts down if it calls `schedule`, and
is left alone otherwise. -/
theorem event_sleeper {e : Event} {b : Bool} {s' : Kernel} (ht : Table n ks s) (hs : Settled n s)
    (ha : e.Allowed s) (he : e.handle fuel s = (b, s')) (hp : p ∈ s.proclist.list) (h : SleepsFor r (s.proc p)) :
    (e.calls = true → CountsDown r (s'.proc p)) ∧ (e.calls = false → s'.proc p = s.proc p) := by
  have hn0 : 0 < n := Nat.zero_lt_of_lt (ht.bound p hp)
  -- a sleeping process is not the current one
  have hne : p ≠ s.proclist.current := by
    obtain hne | h0 := hs.asleep h.state
    · exact hne
    · exact fun e => ht.null_list (by rw [← h0, ← e]; exact hp)
  obtain rfl : (e.handle fuel s).2 = s' := by rw [he]
  cases e with
  | op o =>
    cases hc : callsSchedule o s with
    | none =>
      cases o with
      | create q k =>
        refine ⟨fun hcalls => absurd hcalls (by simp [Event.calls]), fun _ => ?_⟩
        exact createProcess_off ha (ht.proc_ne ha p hp)
      | _ => cases hc
    | some u =>
      obtain ⟨htu, hu⟩ := calls_entering o ht hs ha hc
      obtain ⟨hpu, hlu⟩ := calls_other ht hc hp hne
      refine ⟨fun _ => ?_, fun hcalls => ?_⟩
      · rw [Event.handle, exec_schedule hc]
        exact schedule_sleeper htu.nodup hlu (htu.scheduling hn0) (hpu ▸ h)
      · cases o with
        | create _ _ => cases hc
        | _ => cases hcalls
  | key scancode =>
    -- only scancode 0x48 calls the scheduler
    by_cases hk : scancode = 0x48
    · refine ⟨fun _ => ?_, fun hcalls => absurd hk (of_decide_eq_false hcalls)⟩
      rw [Event.handle, press, if_pos hk]
      exact schedule_sleeper ht.nodup hp (ht.scheduling hn0) h
    · refine ⟨fun hcalls => absurd (of_decide_eq_true hcalls) hk, fun _ => ?_⟩
      rw [Event.handle, press, if_neg hk]

theorem event_listed {e : Event} {s' : Kernel} (ht : Table n ks s) (ha : e.Allowed s)
    (he : e.handle fuel s = (true, s')) (hp : p ∈ s.proclist.list) (hne : p ≠ s.proclist.current) :
    p ∈ s'.proclist.list := by
  cases e with
  | op o =>
    cases hc : callsSchedule o s with
    | none =>
      cases o with
      | create q k =>
        obtain rfl : (createProcess q k s).2 = s' := (Prod.mk.inj he).2
        rw [createProcess_list ha]
        exact List.mem_append_left _ hp
      | _ => cases hc
    | some u =>
      have he : exec fuel o s = (true, s') := he
      rw [exec_schedule hc] at he
      rw [(scheduled_schedule he).list]
      exact (calls_other ht hc hp hne).2
  | key scancode =>
    simp only [Event.handle, press] at he
    split at he
    · rw [(scheduled_schedule he).list]
      exact hp
    · obtain ⟨_, rfl⟩ := Prod.mk.inj he
      exact hp

end

/-! A sleep. -/

/-- The calls of `schedule` among the events, and the timer interrupts. -/
def calls (es : List (Kernel × Event)) : Nat := es.countP (fun x => x.2.calls)
def timers (es : List (Kernel × Event)) : Nat := es.countP (fun x => x.2.isTimer)
/-- The calls of `schedule` that are no timer interrupts. -/
def others (es : List (Kernel × Event)) : Nat := es.countP (fun x => x.2.calls && !x.2.isTimer)

theorem calls_eq (es : List (Kernel × Event)) : calls es = timers es + others es := by
  induction es with
  | nil => rfl
  | cons x es ih =>
    have hx : x.2.calls.toNat = x.2.isTimer.toNat + (x.2.calls && !x.2.isTimer).toNat := by
      cases x.2 with
      | op o => cases o <;> rfl
      | key scancode => simp [Event.isTimer]
    simp only [calls, timers, others, List.countP_cons] at ih ⊢
    cases hc : x.2.calls <;> cases ht : x.2.isTimer <;> simp [hc, ht] at hx ⊢ <;> omega

/-- How many calls of `schedule` a sleep takes: the timeout is decremented before it
is compared with zero. -/
def sleepCalls (n : U32) : Nat := if n = 0 then 2 ^ 32 else n.toNat

theorem sleepCalls_spec (n : U32) : 0 < sleepCalls n ∧ sleepCalls n ≤ 2 ^ 32 ∧
    n = BitVec.ofNat 32 (sleepCalls n) := by
  unfold sleepCalls
  split
  · next h => exact ⟨by omega, by omega, by rw [h]; rfl⟩
  · next h =>
    have hlt := n.isLt
    refine ⟨by bv_omega, by omega, ?_⟩
    rw [BitVec.ofNat_toNat, BitVec.setWidth_eq]

theorem CountsDown.call {n : U32} {k : Nat} {q : Process} (h : CountsDown (sleepCalls n - k) q)
    (hk : k < sleepCalls n) : q.state ≠ .sleeping ∧ k + 1 = sleepCalls n ∨
      k + 1 < sleepCalls n ∧ SleepsFor (sleepCalls n - (k + 1)) q := by
  obtain ⟨h1, hw⟩ | ⟨h1, hq⟩ := h
  · exact .inl ⟨hw, by omega⟩
  · rw [Nat.sub_sub] at hq
    exact .inr ⟨by omega, hq⟩

/-- **The length of a sleep**, in calls of `schedule`, from the call of
`process_sleep` on: while it lasts the rest is in the timeout. -/
theorem sleep_length {mem : U32 → Process} {tr : List (Kernel × Event)} {s₀ : Kernel} {n : U32}
    (h0 : s₀.proclist.current ≠ 0) : ∀ (es : List (Kernel × Event)) {b : Bool} {s : Kernel},
    EventRun (booted mem) (es ++ (s₀, .op (.sleep n)) :: tr) b s →
    (∀ x ∈ es, (x.1.proc s₀.proclist.current).state = .sleeping) →
    (b = true → s₀.proclist.current ∈ s.proclist.list) ∧
    ((s.proc s₀.proclist.current).state ≠ .sleeping ∧ calls es + 1 = sleepCalls n ∨
      calls es + 1 < sleepCalls n ∧ SleepsFor (sleepCalls n - (calls es + 1)) (s.proc s₀.proclist.current))
  | [], b, s, h, _ => by
    obtain ⟨hr, ha, fuel, he⟩ := h.last
    obtain ⟨m, ks, ht, hs⟩ := hr.inv
    obtain ⟨htu, hu⟩ := calls_entering (.sleep n) ht hs ha rfl
    have hl := hs.listed h0
    have hme : SleepsFor (sleepCalls n) ((expireCurrent (sleepCurrent n s₀)).proc s₀.proclist.current) := by
      obtain ⟨hpos, hle, hn⟩ := sleepCalls_spec n
      rw [expireCurrent, getCurrentProcess, sleepCurrent, modify_proclist, modify_same, getCurrentProcess,
        modify_same]
      exact ⟨rfl, hn, hpos, hle⟩
    have he : schedule fuel (expireCurrent (sleepCurrent n s₀)) = (b, s) := he
    have hdown : CountsDown (sleepCalls n)
        ((schedule fuel (expireCurrent (sleepCurrent n s₀))).2.proc s₀.proclist.current) :=
      schedule_sleeper htu.nodup hl (htu.scheduling (hu.created h0)) hme
    rw [he] at hdown
    refine ⟨fun hb => ?_, hdown.call (k := 0) (sleepCalls_spec n).1⟩
    subst hb
    rw [(scheduled_schedule he).list]
    exact hl
  | x :: es, b, s, h, hall => by
    obtain ⟨hr, ha, fuel, he⟩ := h.last
    have hx := hall x List.mem_cons_self
    obtain ⟨hlist, hcount⟩ := sleep_length h0 es hr (fun y hy => hall y (List.mem_cons_of_mem x hy))
    obtain ⟨m, ks, ht, hs⟩ := hr.inv
    have hl := hlist rfl
    obtain ⟨hlt, hsl⟩ := hcount.resolve_left fun hc => hc.1 hx
    obtain ⟨hcall, hquiet⟩ := event_sleeper ht hs ha he hl hsl
    refine ⟨fun hb => ?_, ?_⟩
    · subst hb
      refine event_listed ht ha he hl ?_
      obtain hne | hz := hs.asleep hx
      · exact hne
      · exact fun e => ht.null_list (by rw [← hz, ← e]; exact hl)
    · have hcons : calls (x :: es) = calls es + if x.2.calls then 1 else 0 := List.countP_cons
      rw [hcons]
      cases hc : x.2.calls with
      | true =>
        rw [if_pos rfl]
        exact (hcall hc).call hlt
      | false =>
        rw [if_neg (by decide), hquiet hc]
        exact .inr ⟨hlt, hsl⟩

/-- Nothing but the timer calls `schedule` during the sleep; for `n = 0` next to
nothing of it is the timer. -/
def Undisturbed (n : U32) (es : List (Kernel × Event)) : Prop :=
  if n = 0 then 2 ^ 32 - 2 ≤ others es else others es = 0

/-- **When a sleep is on time.** The current process calls `process_sleep(n)`, and
`es` are the events since, in all of which it was asleep. If it is awake now, then
after `n - 1` to `n + 1` timer interrupts exactly if it was undisturbed; and if it is
asleep still, then it is not late, unless `n` is 0 and an interrupt has come. -/
theorem sleep_on_time_iff {mem : U32 → Process} {tr es : List (Kernel × Event)} {s₀ s : Kernel} {n : U32} {b : Bool}
    (h : EventRun (booted mem) (es ++ (s₀, .op (.sleep n)) :: tr) b s) (h0 : s₀.proclist.current ≠ 0)
    (hes : ∀ x ∈ es, (x.1.proc s₀.proclist.current).state = .sleeping) :
    ((s.proc s₀.proclist.current).state ≠ .sleeping →
      (n.toNat - 1 ≤ timers es ∧ timers es ≤ n.toNat + 1 ↔ Undisturbed n es)) ∧
    ((s.proc s₀.proclist.current).state = .sleeping →
      (timers es ≤ n.toNat ↔ (n = 0 → timers es = 0))) := by
  have hcount := (sleep_length h0 es h hes).2
  have hsum := calls_eq es
  unfold sleepCalls at hcount
  unfold Undisturbed
  by_cases hn : n = 0
  · subst hn
    rw [if_pos rfl] at hcount ⊢
    have hz : (0 : U32).toNat = 0 := rfl
    refine ⟨fun hw => ?_, fun _ => ?_⟩
    · have hc := hcount.resolve_right (fun hc => hw hc.2.state)
      rw [hz]
      omega
    · rw [hz]
      simp
  · rw [if_neg hn] at hcount ⊢
    have hpos : 0 < n.toNat := by bv_omega
    refine ⟨fun hw => ?_, fun hst => ?_⟩
    · have hc := hcount.resolve_right (fun hc => hw hc.2.state)
      omega
    · have hc := hcount.resolve_left (fun hc => hc.1 hst)
      exact iff_of_true (by omega) (fun e => absurd e hn)

/-! Two processes, of which the first sleeps. -/

theorem event_after {s₀ s : Kernel} {es : List (Kernel × Event)} (h : EventRun s₀ es true s) (o : Op)
    (hp : Permitted o s) (he : (exec 2 o s).1 = true) : EventRun s₀ ((s, .op o) :: es) true (after o s) :=
  EventRun.step 2 (.op o) h hp (Prod.ext he rfl)

/-- The first process runs, and calls `process_sleep(2)`. -/
def sampleRuns : Kernel := after .timer sampleTwo
def sampleSleeps : Kernel := after (.sleep 2) sampleRuns

theorem sampleSleeps_run : ∃ tr, EventRun (booted zeroMem) ((sampleRuns, .op (.sleep 2)) :: tr) true sampleSleeps ∧
    sampleRuns.proclist.current ≠ 0 ∧ (sampleSleeps.proc sampleRuns.proclist.current).state = .sleeping := by
  have h := event_after (@EventRun.start (booted zeroMem)) (.create 0xC000A014 0xC000A084) (by constructor <;> decide) rfl
  have h := event_after h (.create 0xC000B098 0xC000B108) (by constructor <;> decide) rfl
  have h := event_after h .timer trivial (by decide)
  have h := event_after h (.sleep 2) trivial (by decide)
  have h0 : sampleRuns.proclist.current ≠ 0 := by decide
  obtain hc | hc := (sleep_length h0 [] h (by simp)).2
  · exact absurd hc.2 (by decide)
  · exact ⟨_, h, h0, hc.2.state⟩

/-- A timer interrupt later it is awake, on time. -/
theorem sleep_on_time_sample : 2 - 1 ≤ timers [(sampleSleeps, .op .timer)] ∧
    timers [(sampleSleeps, .op .timer)] ≤ 2 + 1 := by
  obtain ⟨tr, h, h0, hst⟩ := sampleSleeps_run
  have hes : ∀ x ∈ [(sampleSleeps, Event.op .timer)], (x.1.proc sampleRuns.proclist.current).state = .sleeping := by
    simpa using hst
  have h' := event_after h .timer trivial (by decide)
  obtain hc | hc := (sleep_length h0 [(sampleSleeps, .op .timer)] h' hes).2
  · exact ((@sleep_on_time_iff zeroMem tr [(sampleSleeps, .op .timer)] sampleRuns _ 2 true h' h0 hes).1 hc.1).mpr rfl
  · exact absurd hc.1 (by decide)

/-- The other process gives up the CPU: that wakes it, before any timer interrupt. -/
theorem sleep_cut_short : ∃ tr s₀ s, EventRun (booted zeroMem)
      ([(sampleSleeps, .op .expire)] ++ (s₀, .op (.sleep 2)) :: tr) true s ∧ s₀.proclist.current ≠ 0 ∧
    (sampleSleeps.proc s₀.proclist.current).state = .sleeping ∧ (s.proc s₀.proclist.current).state ≠ .sleeping ∧
    ¬ (2 : U32).toNat - 1 ≤ timers [(sampleSleeps, .op .expire)] := by
  obtain ⟨tr, h, h0, hst⟩ := sampleSleeps_run
  have hes : ∀ x ∈ [(sampleSleeps, Event.op .expire)], (x.1.proc sampleRuns.proclist.current).state = .sleeping := by
    simpa using hst
  have h' := event_after h .expire trivial (by decide)
  obtain hc | hc := (sleep_length h0 [(sampleSleeps, .op .expire)] h' hes).2
  · exact ⟨tr, sampleRuns, _, h', h0, hst, hc.1, by decide⟩
  · exact absurd hc.1 (by decide)

end LineOS
