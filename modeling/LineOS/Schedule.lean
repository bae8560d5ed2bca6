import LineOS.Process

/- What one call of `schedule` does. `schedule_cases` is its case analysis: back
   at once, a tick charged to the current process, or a search that found a
   process to switch to. The search is `select_next_process` with its retry
   loop: it finds a listed process in state PROC_READY with ticks left
   (`select_some`), in two walks if any listed process is PROC_READY
   (`select_finds`), and never if none is (`select_ready`).

   `allLive_schedule` is the same for the accesses: with every listed process
   live, the only access of `schedule` that may fail is the one to
   `k_proclist.current`. -/
namespace LineOS
open ByteMemory

/-! What `schedule` leaves alone. -/

/-- `s'` comes from `s` by scheduling: the table of processes is the same. -/
structure Scheduled (s s' : Kernel) : Prop where
  list : s'.proclist.list = s.proclist.list
  pidcnt : s'.proclist.pidcnt = s.proclist.pidcnt
  count : s'.proclist.count = s.proclist.count
  preempt : s'.proclist.kernelPreempt = s.proclist.kernelPreempt
  allocated : s'.allocated = s.allocated
  pid : ∀ q, (s'.proc q).pid = (s.proc q).pid

theorem Scheduled.trans {s t u : Kernel} (h : Scheduled s t) (h' : Scheduled t u) : Scheduled s u :=
  ⟨h'.list.trans h.list, h'.pidcnt.trans h.pidcnt, h'.count.trans h.count, h'.preempt.trans h.preempt,
    h'.allocated.trans h.allocated, fun q => (h'.pid q).trans (h.pid q)⟩

theorem scheduled_refl (s : Kernel) : Scheduled s s := ⟨rfl, rfl, rfl, rfl, rfl, fun _ => rfl⟩

theorem scheduled_modify (p : U32) (f : Process → Process) (s : Kernel) (hf : ∀ r, (f r).pid = r.pid) :
    Scheduled s (modify p f s) :=
  ⟨rfl, rfl, rfl, rfl, rfl, modify_field p f s _ hf⟩

theorem scheduled_forEach (f : Process → Process) (ps : List U32) (s : Kernel)
    (hf : ∀ r, (f r).pid = r.pid) : Scheduled s (forEach f ps s) := by
  refine ⟨?_, ?_, ?_, ?_, forEach_allocated f ps s, forEach_field f ps s _ hf⟩ <;> rw [forEach_proclist]

theorem wake_pid (q : Process) : (wake q).pid = q.pid := by
  simp only [wake]
  split <;> try split
  all_goals rfl

theorem yieldCpu_pid (q : Process) : (yieldCpu q).pid = q.pid := by
  simp only [yieldCpu]
  split <;> rfl

theorem spendTick_pid (q : Process) : (spendTick q).pid = q.pid := by
  simp only [spendTick]
  split <;> rfl

theorem spendTick_state (q : Process) : (spendTick q).state = q.state := by
  simp only [spendTick]
  split <;> rfl

/-! `select_next_process`. -/

/-- `s'` comes from `s` by searching: at most tick counts have changed. -/
structure Searched (s s' : Kernel) : Prop where
  proclist : s'.proclist = s.proclist
  allocated : s'.allocated = s.allocated
  switches : s'.switches = s.switches
  fields : ∀ q, refill (s'.proc q) = refill (s.proc q)

theorem Searched.trans {s t u : Kernel} (h : Searched s t) (h' : Searched t u) : Searched s u :=
  ⟨h'.proclist.trans h.proclist, h'.allocated.trans h.allocated, h'.switches.trans h.switches,
    fun q => (h'.fields q).trans (h.fields q)⟩

theorem Searched.state {s s' : Kernel} (h : Searched s s') (q : U32) :
    (s'.proc q).state = (s.proc q).state := by
  have := congrArg Process.state (h.fields q)
  exact this

theorem Searched.scheduled {s s' : Kernel} (h : Searched s s') : Scheduled s s' := by
  refine ⟨?_, ?_, ?_, ?_, h.allocated, fun q => ?_⟩
  · rw [h.proclist]
  · rw [h.proclist]
  · rw [h.proclist]
  · rw [h.proclist]
  · have := congrArg Process.pid (h.fields q)
    exact this

theorem searched_give (s : Kernel) : Searched s (giveTicks s) :=
  ⟨forEach_proclist .., forEach_allocated .., forEach_switches .., forEach_field _ _ s refill fun _ => rfl⟩

theorem findProc_searched (ps : List U32) (s : Kernel) : Searched s (findProc ps s).2 := by
  induction ps generalizing s with
  | nil => exact ⟨rfl, rfl, rfl, fun _ => rfl⟩
  | cons p ps ih =>
    have ht : Searched s (deref p s) := ⟨rfl, rfl, rfl, fun _ => rfl⟩
    rw [findProc]
    split
    · exact ht
    · exact ht.trans (ih _)

theorem findProc_some {ps : List U32} {s s' : Kernel} {p : U32} (h : findProc ps s = (some p, s')) :
    p ∈ ps ∧ Eligible (s'.proc p) := by
  induction ps generalizing s with
  | nil => simp [findProc] at h
  | cons q ps ih =>
    rw [findProc] at h
    split at h
    · next hq =>
      obtain ⟨e, rfl⟩ := Prod.mk.inj h
      rw [← Option.some.inj e]
      exact ⟨List.mem_cons_self, hq⟩
    · exact ⟨List.mem_cons_of_mem _ (ih h).1, (ih h).2⟩

theorem findProc_none {ps : List U32} {s s' : Kernel} (h : findProc ps s = (none, s')) :
    ∀ p ∈ ps, ¬ Eligible (s.proc p) := by
  induction ps generalizing s with
  | nil => simp
  | cons q ps ih =>
    rw [findProc] at h
    split at h
    · simp at h
    · next hq =>
      intro p hp
      obtain rfl | hp := List.mem_cons.mp hp
      · exact hq
      · exact ih h p hp

theorem select_searched (fuel : Nat) (s : Kernel) : Searched s (selectNextProcess fuel s).2 := by
  induction fuel generalizing s with
  | zero => exact ⟨rfl, rfl, rfl, fun _ => rfl⟩
  | succ fuel ih =>
    have hf := findProc_searched s.proclist.list s
    rw [selectNextProcess]
    split
    · next h => rwa [h] at hf
    · next h =>
      rw [h] at hf
      exact hf.trans ((searched_give _).trans (ih _))

theorem select_some {fuel : Nat} {s s' : Kernel} {p : U32} (h : selectNextProcess fuel s = (some p, s')) :
    p ∈ s'.proclist.list ∧ Eligible (s'.proc p) := by
  induction fuel generalizing s with
  | zero => simp [selectNextProcess] at h
  | succ fuel ih =>
    rw [selectNextProcess] at h
    split at h
    · next hf =>
      obtain ⟨e, rfl⟩ := Prod.mk.inj h
      rw [Option.some.inj e] at hf
      have hs := findProc_searched s.proclist.list s
      rw [hf] at hs
      rw [hs.proclist]
      exact findProc_some hf
    · exact ih h

/-- The search finds only processes that were PROC_READY when it began. -/
theorem select_ready {fuel : Nat} {s s' : Kernel} {p : U32} (h : selectNextProcess fuel s = (some p, s')) :
    p ∈ s.proclist.list ∧ (s.proc p).state = .ready := by
  have hs := select_searched fuel s
  rw [h] at hs
  obtain ⟨hp, he, _⟩ := select_some h
  rw [hs.proclist] at hp
  rw [hs.state] at he
  exact ⟨hp, he⟩

/-- One round of `give_ticks` is enough for any ready process to be found. -/
theorem select_finds {s : Kernel} (hn : s.proclist.list.Nodup) {p : U32} (hp : p ∈ s.proclist.list)
    (hr : (s.proc p).state = .ready) : ∃ q s', selectNextProcess 2 s = (some q, s') := by
  rw [selectNextProcess]
  split
  · next q t _ => exact ⟨q, t, rfl⟩
  · next t hf =>
    have hs := findProc_searched s.proclist.list s
    rw [hf] at hs
    have hpt : p ∈ t.proclist.list := hs.proclist ▸ hp
    have hon := forEach_on refill t.proclist.list t (hs.proclist ▸ hn) hpt
    rw [selectNextProcess]
    split
    · next q u _ => exact ⟨q, u, rfl⟩
    · next u hf' =>
      have hlist : (giveTicks t).proclist.list = t.proclist.list := (searched_give t).scheduled.list
      rw [hlist] at hf'
      -- after `give_ticks` the process `p` is eligible, so the second walk cannot miss it
      refine absurd ?_ (findProc_none hf' p hpt)
      have hst : ((giveTicks t).proc p).state = .ready := by rw [(searched_give t).state, hs.state, hr]
      have htk : ((giveTicks t).proc p).ticks = 100 := congrArg Process.ticks hon
      exact ⟨hst, by rw [htk]; decide⟩

/-! `switchTo`. -/

@[simp] theorem switchTo_proclist (p : U32) (s : Kernel) :
    (switchTo p s).proclist = { s.proclist with current := p } := by
  simp only [switchTo]
  split <;> rfl

@[simp] theorem switchTo_proc (p : U32) (s : Kernel) : (switchTo p s).proc = s.proc := by
  simp only [switchTo]
  split <;> rfl

@[simp] theorem switchTo_allocated (p : U32) (s : Kernel) : (switchTo p s).allocated = s.allocated := by
  simp only [switchTo]
  split <;> rfl

@[simp] theorem switchTo_switches (p : U32) (s : Kernel) : (switchTo p s).switches = p :: s.switches := by
  simp only [switchTo]
  split <;> rfl

theorem scheduled_dispatch (p : U32) (s : Kernel) : Scheduled s (dispatch p s) := by
  have h := (scheduled_modify p (fun q => { q with state := .running }) s fun _ => rfl).trans
    (scheduled_modify p spendTick _ spendTick_pid)
  refine h.trans ?_
  rw [dispatch]
  refine ⟨?_, ?_, ?_, ?_, switchTo_allocated .., fun q => ?_⟩
  all_goals first | rw [switchTo_proclist]; rfl | rw [switchTo_proc]; rfl

theorem dispatch_current (p : U32) (s : Kernel) : (dispatch p s).proclist.current = p := by
  rw [dispatch, switchTo_proclist]

theorem dispatch_state (p : U32) (s : Kernel) : ((dispatch p s).proc p).state = .running := by
  rw [dispatch, switchTo_proc, accountTicks, modify_same, spendTick_state, modify_same]

theorem dispatch_off {p q : U32} (s : Kernel) (h : q ≠ p) : (dispatch p s).proc q = s.proc q := by
  rw [dispatch, switchTo_proc, accountTicks, modify_off _ _ _ h, modify_off _ _ _ h]

theorem dispatch_switches (p : U32) (s : Kernel) : (dispatch p s).switches = p :: s.switches := by
  rw [dispatch, switchTo_switches]
  rfl

/-! `schedule`. -/

/-- The kernel when `schedule` calls `select_next_process`. -/
def searchState (s : Kernel) : Kernel :=
  modify s.proclist.current yieldCpu (updateTimeouts s)

/-- `schedule` gets past its first two checks. -/
def Scheduling (s : Kernel) : Prop := s.proclist.kernelPreempt = true ∧ s.proclist.count ≠ 0

/-- The current process keeps the CPU: it has ticks left. -/
def HasTicks (s : Kernel) : Prop :=
  s.proclist.current ≠ 0 ∧ ((updateTimeouts s).proc s.proclist.current).ticks ≠ 0

instance (s : Kernel) : Decidable (Scheduling s) := inferInstanceAs (Decidable (_ ∧ _))
instance (s : Kernel) : Decidable (HasTicks s) := inferInstanceAs (Decidable (_ ∧ _))

theorem entry_idle {s : Kernel} (h : ¬ Scheduling s) : scheduleEntry s = .returned s := by
  rw [scheduleEntry, isKernelPreempt]
  cases hp : s.proclist.kernelPreempt with
  | false => rfl
  | true =>
    have hc : s.proclist.count = 0 := by
      apply Decidable.byContradiction
      exact fun hne => h ⟨hp, hne⟩
    rw [if_neg (by decide), if_pos hc]

theorem entry_scheduling {s : Kernel} (h : Scheduling s) : scheduleEntry s =
    if s.proclist.current ≠ 0 ∧ ((updateTimeouts s).proc s.proclist.current).ticks ≠ 0 then
      .returned (accountTicks s.proclist.current (updateTimeouts s))
    else .searching (searchState s) := by
  have hl : (updateTimeouts s).proclist = s.proclist := forEach_proclist ..
  rw [scheduleEntry, isKernelPreempt, h.1, if_neg (by decide), if_neg h.2]
  simp only [hl]
  rfl

theorem entry_ticks {s : Kernel} (h : Scheduling s) (ht : HasTicks s) :
    scheduleEntry s = .returned (accountTicks s.proclist.current (updateTimeouts s)) := by
  rw [entry_scheduling h]
  exact if_pos ht

theorem entry_search {s : Kernel} (h : Scheduling s) (ht : ¬ HasTicks s) :
    scheduleEntry s = .searching (searchState s) := by
  rw [entry_scheduling h]
  exact if_neg ht

theorem schedule_idle {fuel : Nat} {s : Kernel} (h : ¬ Scheduling s) : schedule fuel s = (true, s) := by
  rw [schedule, entry_idle h]

theorem schedule_ticks {fuel : Nat} {s : Kernel} (h : Scheduling s) (ht : HasTicks s) :
    schedule fuel s = (true, accountTicks s.proclist.current (updateTimeouts s)) := by
  rw [schedule, entry_ticks h ht]

theorem schedule_found {fuel : Nat} {s t : Kernel} {p : U32} (h : Scheduling s) (ht : ¬ HasTicks s)
    (hf : selectNextProcess fuel (searchState s) = (some p, t)) :
    schedule fuel s = (true, dispatch p t) := by
  rw [schedule, entry_search h ht]
  simp only [hf]

theorem schedule_lost {fuel : Nat} {s t : Kernel} (h : Scheduling s) (ht : ¬ HasTicks s)
    (hf : selectNextProcess fuel (searchState s) = (none, t)) : schedule fuel s = (false, t) := by
  rw [schedule, entry_search h ht]
  simp only [hf]

/-- What a call of `schedule` that ended can have done. -/
theorem schedule_cases {fuel : Nat} {s s' : Kernel} (h : schedule fuel s = (true, s')) :
    (¬ Scheduling s ∧ s' = s) ∨
    (Scheduling s ∧ HasTicks s ∧ s' = accountTicks s.proclist.current (updateTimeouts s)) ∨
    (Scheduling s ∧ ¬ HasTicks s ∧ ∃ p t, selectNextProcess fuel (searchState s) = (some p, t) ∧
      s' = dispatch p t) := by
  by_cases hs : Scheduling s
  · by_cases ht : HasTicks s
    · rw [schedule_ticks hs ht] at h
      exact .inr (.inl ⟨hs, ht, (Prod.mk.inj h).2.symm⟩)
    · refine .inr (.inr ⟨hs, ht, ?_⟩)
      cases hsel : selectNextProcess fuel (searchState s) with
      | mk found t =>
        cases found with
        | none => simp [schedule_lost hs ht hsel] at h
        | some p =>
          rw [schedule_found hs ht hsel] at h
          exact ⟨p, t, rfl, (Prod.mk.inj h).2.symm⟩
  · rw [schedule_idle hs] at h
    exact .inl ⟨hs, (Prod.mk.inj h).2.symm⟩

theorem scheduled_timeouts (s : Kernel) : Scheduled s (updateTimeouts s) := scheduled_forEach _ _ s wake_pid

theorem scheduled_search (s : Kernel) : Scheduled s (searchState s) :=
  (scheduled_timeouts s).trans (scheduled_modify _ _ _ yieldCpu_pid)

theorem scheduled_schedule {fuel : Nat} {s s' : Kernel} (h : schedule fuel s = (true, s')) :
    Scheduled s s' := by
  obtain ⟨_, rfl⟩ | ⟨_, _, rfl⟩ | ⟨_, _, p, t, hsel, rfl⟩ := schedule_cases h
  · exact scheduled_refl _
  · exact (scheduled_timeouts s).trans (scheduled_modify _ _ _ spendTick_pid)
  · have hs := (select_searched fuel (searchState s)).scheduled
    rw [hsel] at hs
    exact ((scheduled_search s).trans hs).trans (scheduled_dispatch p t)

/-! Accesses. -/

def AllLive (s : Kernel) : Prop := ∀ a ∈ s.trace, a.live = true

theorem live_congr {s t : Kernel} (h : t.allocated = s.allocated) (p : U32) : Live t p ↔ Live s p := by
  rw [Live, Live, h]

theorem allLive_deref {p : U32} {s : Kernel} : AllLive (deref p s) ↔ Live s p ∧ AllLive s := by
  simp [AllLive, deref]

theorem allLive_modify {p : U32} {f : Process → Process} {s : Kernel} :
    AllLive (modify p f s) ↔ Live s p ∧ AllLive s :=
  allLive_deref

theorem allLive_forEach {f : Process → Process} {ps : List U32} {s : Kernel} (h : ∀ p ∈ ps, Live s p) :
    AllLive (forEach f ps s) ↔ AllLive s := by
  induction ps generalizing s with
  | nil => rfl
  | cons p ps ih =>
    have hp := h p List.mem_cons_self
    have ht := ih (s := modify p f s) fun q hq => h q (List.mem_cons_of_mem _ hq)
    exact ht.trans (allLive_modify.trans (and_iff_right hp))

theorem allLive_find {ps : List U32} {s : Kernel} (h : ∀ p ∈ ps, Live s p) :
    AllLive (findProc ps s).2 ↔ AllLive s := by
  induction ps generalizing s with
  | nil => rfl
  | cons p ps ih =>
    have hp := h p List.mem_cons_self
    have ht : AllLive (deref p s) ↔ AllLive s := allLive_deref.trans (and_iff_right hp)
    rw [findProc]
    split
    · exact ht
    · have hps := ih (s := deref p s) fun q hq => h q (List.mem_cons_of_mem _ hq)
      exact hps.trans ht

def ListLive (s : Kernel) : Prop := ∀ p ∈ s.proclist.list, Live s p

theorem ListLive.of_scheduled {s t : Kernel} (h : ListLive s) (hs : Scheduled s t) : ListLive t := by
  intro p hp
  rw [hs.list] at hp
  exact (live_congr hs.allocated p).mpr (h p hp)

theorem allLive_select {s : Kernel} (h : ListLive s) (fuel : Nat) :
    AllLive (selectNextProcess fuel s).2 ↔ AllLive s := by
  induction fuel generalizing s with
  | zero => rfl
  | succ fuel ih =>
    have hs := (findProc_searched s.proclist.list s).scheduled
    have hf := allLive_find h
    rw [selectNextProcess]
    split
    · next heq => rwa [heq] at hf
    · next t heq =>
      rw [heq] at hf hs
      have ht := h.of_scheduled hs
      exact (ih (ht.of_scheduled (searched_give t).scheduled)).trans ((allLive_forEach ht).trans hf)

theorem allLive_switchTo {p : U32} {s : Kernel} : AllLive (switchTo p s) ↔
    Live s p ∧ (s.proclist.current ≠ 0 → Live s s.proclist.current) ∧ AllLive s := by
  rw [switchTo, allLive_deref]
  split
  · next h => exact and_congr_right fun _ => (and_iff_right fun hne => absurd h hne).symm
  · next h =>
    refine and_congr_right fun _ => ?_
    rw [imp_iff_right h]
    exact allLive_deref

theorem allLive_dispatch {p : U32} {s : Kernel} (hp : Live s p) : AllLive (dispatch p s) ↔
    (s.proclist.current ≠ 0 → Live s s.proclist.current) ∧ AllLive s := by
  have hm : AllLive (accountTicks p (modify p (fun q => { q with state := .running }) s)) ↔ AllLive s :=
    allLive_modify.trans ((and_iff_right hp).trans (allLive_modify.trans (and_iff_right hp)))
  exact allLive_switchTo.trans ((and_iff_right hp).trans (and_congr_right fun _ => hm))

/-- **The accesses of `schedule`**: beside the listed processes, the current one. -/
theorem allLive_schedule {s : Kernel} (h : ListLive s) (fuel : Nat) :
    AllLive (schedule fuel s).2 ↔ AllLive s ∧ (Scheduling s → Live s s.proclist.current) := by
  have hu : AllLive (updateTimeouts s) ↔ AllLive s := allLive_forEach h
  have hlu := live_congr (scheduled_timeouts s).allocated s.proclist.current
  by_cases hs : Scheduling s
  · rw [imp_iff_right hs]
    by_cases ht : HasTicks s
    · rw [schedule_ticks hs ht]
      exact allLive_modify.trans ((and_congr hlu hu).trans and_comm)
    · have hm : AllLive (searchState s) ↔ AllLive s ∧ Live s s.proclist.current :=
        allLive_modify.trans ((and_congr hlu hu).trans and_comm)
      have hls := h.of_scheduled (scheduled_search s)
      have hsel := (allLive_select hls fuel).trans hm
      have hse := select_searched fuel (searchState s)
      cases heq : selectNextProcess fuel (searchState s) with
      | mk found t =>
        rw [heq] at hsel hse
        cases found with
        | none =>
          rw [schedule_lost hs ht heq]
          exact hsel
        | some p =>
          rw [schedule_found hs ht heq]
          have hp : Live t p := hls.of_scheduled hse.scheduled p (select_some heq).1
          have hcur : t.proclist.current = s.proclist.current :=
            (congrArg ProcList.current hse.proclist).trans (congrArg ProcList.current (forEach_proclist ..))
          have hal := live_congr ((scheduled_search s).trans hse.scheduled).allocated s.proclist.current
          rw [allLive_dispatch hp, hcur, hsel, hal]
          -- what `switchTo` reads of the old process was read before
          exact and_iff_right_of_imp fun hd _ => hd.2
  · rw [schedule_idle hs]
    exact (and_iff_left fun h' => absurd h' hs).symm

end LineOS
