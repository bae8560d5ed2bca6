import LineOS.SleepRun

/- Rounds of `give_ticks`. `RoundRun` is a run in smaller steps, which stops each
   time `select_next_process` starts a walk over the list; its history holds the
   events and, between them, the kernel at each call of `give_ticks`. Every run
   of events is one of these (`EventRun.rounds`).

   A tick that `account_ticks` takes from a process is added to its `tt`, so
   between two rounds the two together stay what the first round made them, 100
   above the old `tt`, unless the process gives ticks away (`Charge`). The second
   round begins when no ready process has a tick left, which gives
   `ticks_per_round`. -/
namespace LineOS
open ByteMemory

/-! Runs, walk by walk. -/

def Entry.kernel : Entry → Kernel
  | .returned s => s
  | .searching s => s

/-- The event up to the search: what it does itself, and `schedule` up to there. -/
def Event.enter : Event → Kernel → Entry
  | .op (.create p k), s => .returned (createProcess p k s).2
  | .op .timer, s => scheduleEntry s
  | .op .expire, s => scheduleEntry (expireCurrent s)
  | .op (.sleep n), s => scheduleEntry (expireCurrent (sleepCurrent n s))
  | .op .exit, s => scheduleEntry (expireCurrent (freeCurrent s))
  | .key scancode, s => if scancode = 0x48 then scheduleEntry s else .returned s

/-- Between two events, or at the start of a walk. -/
inductive Phase where
  | between (s : Kernel)
  | searching (s : Kernel)

def Phase.kernel : Phase → Kernel
  | .between s => s
  | .searching s => s

/-- What a run goes through: an event begins, or `give_ticks` is called. -/
inductive Mark where
  | event (s : Kernel) (e : Event)
  | round (s : Kernel)

inductive RoundRun (s₀ : Kernel) : List Mark → Phase → Prop
  | start : RoundRun s₀ [] (.between s₀)
  | returned {ms s s'} (e : Event) : RoundRun s₀ ms (.between s) → e.Allowed s →
      e.enter s = .returned s' → RoundRun s₀ (.event s e :: ms) (.between s')
  | searching {ms s s'} (e : Event) : RoundRun s₀ ms (.between s) → e.Allowed s →
      e.enter s = .searching s' → RoundRun s₀ (.event s e :: ms) (.searching s')
  | round {ms s s'} : RoundRun s₀ ms (.searching s) → findProc s.proclist.list s = (none, s') →
      RoundRun s₀ (.round s' :: ms) (.searching (giveTicks s'))
  | found {ms s p s'} : RoundRun s₀ ms (.searching s) → findProc s.proclist.list s = (some p, s') →
      RoundRun s₀ ms (.between (dispatch p s'))

def Mark.event? : Mark → Option (Kernel × Event)
  | .event s e => some (s, e)
  | .round _ => none

/-- The end of a search that was given so many walks. -/
def searchPhase : Option U32 × Kernel → Phase
  | (some p, s) => .between (dispatch p s)
  | (none, s) => .searching s

theorem Event.handle_enter (fuel : Nat) (e : Event) (s : Kernel) : e.handle fuel s =
    match e.enter s with
    | .returned s => (true, s)
    | .searching s =>
      match selectNextProcess fuel s with
      | (some p, s) => (true, dispatch p s)
      | (none, s) => (false, s) := by
  cases e with
  | op o => cases o <;> rfl
  | key scancode =>
    simp only [Event.handle, press, Event.enter]
    split <;> rfl

/-- The search is walks and rounds; they are no events. -/
theorem select_rounds {s₀ : Kernel} (fuel : Nat) : ∀ {ms : List Mark} {s : Kernel}, RoundRun s₀ ms (.searching s) →
    ∃ ms', RoundRun s₀ ms' (searchPhase (selectNextProcess fuel s)) ∧
      ms'.filterMap Mark.event? = ms.filterMap Mark.event? := by
  induction fuel with
  | zero => exact fun h => ⟨_, h, rfl⟩
  | succ fuel ih =>
    intro ms s h
    rw [selectNextProcess]
    split
    · next p t hf => exact ⟨ms, RoundRun.found h hf, rfl⟩
    · next t hf =>
      obtain ⟨ms', h', e⟩ := ih (RoundRun.round h hf)
      exact ⟨ms', h', e⟩

/-- **Every run of events is a run in these steps**, of the same events. -/
theorem EventRun.rounds {s₀ s : Kernel} {es : List (Kernel × Event)} {b : Bool} (h : EventRun s₀ es b s) :
    ∃ ms, RoundRun s₀ ms (if b then .between s else .searching s) ∧ ms.filterMap Mark.event? = es := by
  induction h with
  | start => exact ⟨[], RoundRun.start, rfl⟩
  | @step es s b s' fuel e _ ha he ih =>
    obtain ⟨ms, h, rfl⟩ := ih
    rw [Event.handle_enter] at he
    cases hent : e.enter s with
    | returned t =>
      simp only [hent] at he
      obtain ⟨rfl, rfl⟩ := Prod.mk.inj he
      exact ⟨_, RoundRun.returned e h ha hent, rfl⟩
    | searching t =>
      simp only [hent] at he
      obtain ⟨ms', h', hms⟩ := select_rounds fuel (RoundRun.searching e h ha hent)
      refine ⟨ms', ?_, hms⟩
      cases hsel : selectNextProcess fuel t with
      | mk found u =>
        rw [hsel] at he h'
        cases found with
        | none =>
          obtain ⟨rfl, rfl⟩ := Prod.mk.inj he
          exact h'
        | some p =>
          obtain ⟨rfl, rfl⟩ := Prod.mk.inj he
          exact h'

/-! The invariant, walk by walk. -/

/-- Between two events the table and the states are in order; a walk is some way into
the search of a `schedule` that found them in order. -/
def PhaseInv : Phase → Prop
  | .between s => ∃ n ks, Table n ks s ∧ Settled n s
  | .searching s => ∃ n ks u, Table n ks u ∧ Leaving n u ∧
      ∃ walks, ∀ fuel, selectNextProcess (walks + fuel) (searchState u) = selectNextProcess fuel s

theorem entry_searching {u t : Kernel} (h : scheduleEntry u = .searching t) : t = searchState u := by
  by_cases hs : Scheduling u
  · by_cases ht : HasTicks u
    · rw [entry_ticks hs ht] at h
      cases h
    · rw [entry_search hs ht] at h
      injection h with h
      exact h.symm
  · rw [entry_idle hs] at h
    cases h

theorem enter_calls {e : Event} {s t : Kernel} (h : e.enter s = .searching t) :
    ∃ o u, callsSchedule o s = some u ∧ scheduleEntry u = .searching t ∧ (e.Allowed s → Permitted o s) := by
  cases e with
  | op o =>
    cases o with
    | create p k => cases h
    | timer => exact ⟨.timer, _, rfl, h, id⟩
    | expire => exact ⟨.expire, _, rfl, h, id⟩
    | sleep n => exact ⟨.sleep n, _, rfl, h, id⟩
    | exit => exact ⟨.exit, _, rfl, h, id⟩
  | key scancode =>
    simp only [Event.enter] at h
    split at h
    · exact ⟨.timer, s, rfl, h, fun _ => trivial⟩
    · cases h

section
variable {mem : U32 → Process} {ms : List Mark} {ph : Phase} {s s' : Kernel}

theorem RoundRun.inv (h : RoundRun (booted mem) ms ph) : PhaseInv ph := by
  induction h with
  | start => exact ⟨0, [], table_booted mem, settled_booted mem⟩
  | @returned ms s s' e _ ha he ih =>
    -- no search: the event is a step of a run with no walks to spare
    obtain ⟨n, ks, ht, hs⟩ := ih
    have hh : e.handle 0 s = (true, s') := by rw [Event.handle_enter, he]
    cases e with
    | op o => exact step_inv ht hs ha hh
    | key scancode =>
      simp only [Event.handle, press] at hh
      split at hh
      · have hh : exec 0 .timer s = (true, s') := hh
        have hp : Permitted .timer s := trivial
        exact step_inv ht hs hp hh
      · obtain ⟨_, rfl⟩ := Prod.mk.inj hh
        exact ⟨n, ks, ht, hs⟩
  | @searching ms s s' e _ ha he ih =>
    obtain ⟨n, ks, ht, hs⟩ := ih
    obtain ⟨o, u, hc, hu, hp⟩ := enter_calls he
    obtain ⟨htu, hue⟩ := calls_entering o ht hs (hp ha) hc
    refine ⟨n, ks, u, htu, hue.toLeaving, 0, fun fuel => ?_⟩
    rw [Nat.zero_add, entry_searching hu]
  | @round ms s s' _ hf ih =>
    obtain ⟨n, ks, u, ht, hl, walks, hw⟩ := ih
    refine ⟨n, ks, u, ht, hl, walks + 1, fun fuel => ?_⟩
    rw [Nat.add_assoc, Nat.add_comm 1 fuel, hw, selectNextProcess, hf]
  | @found ms s p s' _ hf ih =>
    obtain ⟨n, ks, u, ht, hl, walks, hw⟩ := ih
    have hsel : selectNextProcess (walks + 1) (searchState u) = (some p, s') := by
      rw [hw, selectNextProcess, hf]
    have hsch := (scheduled_search u).trans (select_searched (walks + 1) (searchState u)).scheduled
    rw [hsel] at hsch
    exact ⟨n, ks, ht.of_scheduled (hsch.trans (scheduled_dispatch p s')), hl.dispatches ht hsel⟩

/-- At a walk the table is whole, and every listed process waits. -/
theorem PhaseInv.walk (h : PhaseInv (.searching s)) : ∃ n ks, Table n ks s ∧
    ∀ p ∈ s.proclist.list, Waiting (s.proc p) := by
  obtain ⟨n, ks, u, ht, hl, walks, hw⟩ := h
  have hse := select_searched walks (searchState u)
  have hs : (selectNextProcess walks (searchState u)).2 = s := congrArg Prod.snd (hw 0)
  rw [hs] at hse
  have hsch := (scheduled_search u).trans hse.scheduled
  refine ⟨n, ks, ht.of_scheduled hsch, fun p hp => ?_⟩
  rw [Waiting, hse.state]
  rw [hsch.list] at hp
  exact searchState_waiting ht hl hp

theorem PhaseInv.table (h : PhaseInv ph) : ∃ n ks, Table n ks ph.kernel := by
  cases ph with
  | between s =>
    obtain ⟨n, ks, ht, _⟩ := h
    exact ⟨n, ks, ht⟩
  | searching s =>
    obtain ⟨n, ks, ht, _⟩ := PhaseInv.walk h
    exact ⟨n, ks, ht⟩

end

/-! What a process was charged, and has left. -/

/-- The ticks taken since `tt` was `base`, and those left. -/
def spent (base : U32) (q : Process) : Nat := (q.tt - base).toNat + q.ticks.toNat

/-- `q'` is `q`, charged for nothing it did not have. -/
structure NoGain (q q' : Process) : Prop where
  pid : q'.pid = q.pid
  spent : ∀ base, spent base q ≤ 100 → spent base q' ≤ spent base q

/-- Nor did it give any ticks away. -/
structure NoLoss (q q' : Process) : Prop where
  pid : q'.pid = q.pid
  spent : ∀ base, LineOS.spent base q ≤ 100 → LineOS.spent base q' = LineOS.spent base q

theorem NoLoss.noGain {q q' : Process} (h : NoLoss q q') : NoGain q q' :=
  ⟨h.pid, fun base hle => (h.spent base hle).le⟩

theorem NoLoss.of_eq {q q' : Process} (hp : q'.pid = q.pid) (htt : q'.tt = q.tt) (hti : q'.ticks = q.ticks) :
    NoLoss q q' :=
  ⟨hp, fun base _ => by rw [LineOS.spent, LineOS.spent, htt, hti]⟩

theorem NoLoss.trans {q q' q'' : Process} (h : NoLoss q q') (h' : NoLoss q' q'') : NoLoss q q'' :=
  ⟨h'.pid.trans h.pid, fun base hle =>
    (h'.spent base ((h.spent base hle).trans_le hle)).trans (h.spent base hle)⟩

theorem NoGain.trans {q q' q'' : Process} (h : NoGain q q') (h' : NoGain q' q'') : NoGain q q'' :=
  ⟨h'.pid.trans h.pid, fun base hle =>
    (h'.spent base ((h.spent base hle).trans hle)).trans (h.spent base hle)⟩

theorem spendTick_noLoss (q : Process) : NoLoss q (spendTick q) := by
  refine ⟨spendTick_pid q, fun base hle => ?_⟩
  rw [spendTick]
  split
  · next h =>
    -- the charge is less than 2^32 away from the base
    have hti : 0 < q.ticks.toNat := h
    unfold spent at hle ⊢
    have h1 : (q.tt + 1 - base).toNat = (q.tt - base).toNat + 1 := by bv_omega
    have h2 : (q.ticks - 1).toNat = q.ticks.toNat - 1 := by bv_omega
    rw [h1, h2]
    omega
  · rfl

theorem wake_tt (q : Process) : (wake q).tt = q.tt := by
  simp only [wake]
  split <;> try split
  all_goals rfl

theorem wake_noLoss (q : Process) : NoLoss q (wake q) := NoLoss.of_eq (wake_pid q) (wake_tt q) (wake_ticks q)

theorem yieldCpu_noLoss (q : Process) : NoLoss q (yieldCpu q) := by
  rw [yieldCpu]
  split <;> exact NoLoss.of_eq rfl rfl rfl

theorem expire_noGain (q : Process) : NoGain q { q with ticks := 0 } :=
  ⟨rfl, fun _ _ => Nat.add_le_add_left (Nat.zero_le _) _⟩

/-! What a step charges. -/

/-- From `s` to `s'` no process is created and none gains; those that meet `quiet`
stay on the list and lose nothing. -/
structure Charge (quiet : U32 → Prop) (s s' : Kernel) : Prop where
  pidcnt : s'.proclist.pidcnt = s.proclist.pidcnt
  listed : ∀ p ∈ s'.proclist.list, p ∈ s.proclist.list
  noGain : ∀ p, NoGain (s.proc p) (s'.proc p)
  stays : ∀ p ∈ s.proclist.list, quiet p → p ∈ s'.proclist.list
  noLoss : ∀ p, quiet p → NoLoss (s.proc p) (s'.proc p)

def Any : U32 → Prop := fun _ => True

theorem Charge.of_noLoss {s s' : Kernel} (hl : s'.proclist.list = s.proclist.list)
    (hp : s'.proclist.pidcnt = s.proclist.pidcnt) (h : ∀ p, NoLoss (s.proc p) (s'.proc p)) : Charge Any s s' :=
  ⟨hp, fun _ hm => hl ▸ hm, fun p => (h p).noGain, fun _ hm _ => hl.symm ▸ hm, fun p _ => h p⟩

theorem Charge.trans {quiet : U32 → Prop} {s t u : Kernel} (h : Charge quiet s t) (h' : Charge Any t u) :
    Charge quiet s u :=
  ⟨h'.pidcnt.trans h.pidcnt, fun p hp => h.listed p (h'.listed p hp), fun p => (h.noGain p).trans (h'.noGain p),
    fun p hp hq => h'.stays p (h.stays p hp hq) trivial, fun p hq => (h.noLoss p hq).trans (h'.noLoss p trivial)⟩

theorem modify_noLoss {f : Process → Process} (hf : ∀ q, NoLoss q (f q)) (p : U32) (s : Kernel) (q : U32) :
    NoLoss (s.proc q) ((modify p f s).proc q) := by
  by_cases h : q = p
  · rw [h, modify_same]
    exact hf _
  · rw [modify_off p f s h]
    exact NoLoss.of_eq rfl rfl rfl

theorem forEach_noLoss {f : Process → Process} (hf : ∀ q, NoLoss q (f q)) (ps : List U32) :
    ∀ (s : Kernel) (q : U32), NoLoss (s.proc q) ((forEach f ps s).proc q) := by
  induction ps with
  | nil => exact fun s q => NoLoss.of_eq rfl rfl rfl
  | cons p ps ih => exact fun s q => (modify_noLoss hf p s q).trans (ih (modify p f s) q)

theorem findProc_proc (ps : List U32) : ∀ (s : Kernel), (findProc ps s).2.proc = s.proc := by
  induction ps with
  | nil => exact fun _ => rfl
  | cons p ps ih =>
    intro s
    rw [findProc]
    split
    · rfl
    · exact ih (deref p s)

section
variable {s s' t u : Kernel} {p : U32}

theorem charge_timeouts (u : Kernel) : Charge Any u (updateTimeouts u) :=
  Charge.of_noLoss (by rw [updateTimeouts_proclist]) (by rw [updateTimeouts_proclist])
    (forEach_noLoss wake_noLoss _ u)

theorem charge_search (u : Kernel) : Charge Any u (searchState u) :=
  (charge_timeouts u).trans (Charge.of_noLoss rfl rfl (modify_noLoss yieldCpu_noLoss _ _))

theorem charge_refl (quiet : U32 → Prop) (s : Kernel) : Charge quiet s s :=
  ⟨rfl, fun _ hp => hp, fun _ => NoLoss.noGain (NoLoss.of_eq rfl rfl rfl), fun _ hp _ => hp,
    fun _ _ => NoLoss.of_eq rfl rfl rfl⟩

theorem charge_entry (u : Kernel) : Charge Any u (scheduleEntry u).kernel := by
  by_cases hs : Scheduling u
  · by_cases ht : HasTicks u
    · rw [entry_ticks hs ht]
      exact (charge_timeouts u).trans (Charge.of_noLoss rfl rfl (modify_noLoss spendTick_noLoss _ _))
    · rw [entry_search hs ht]
      exact charge_search u
  · rw [entry_idle hs]
    exact charge_refl Any u

theorem charge_find {found : Option U32} (h : findProc s.proclist.list s = (found, t)) : Charge Any s t := by
  have hse := findProc_searched s.proclist.list s
  have hpr := findProc_proc s.proclist.list s
  rw [h] at hse hpr
  refine Charge.of_noLoss (by rw [hse.proclist]) (by rw [hse.proclist]) fun q => ?_
  have hq : t.proc q = s.proc q := congrFun hpr q
  rw [hq]
  exact NoLoss.of_eq rfl rfl rfl

theorem charge_dispatch (p : U32) (s : Kernel) : Charge Any s (dispatch p s) := by
  have hsch := scheduled_dispatch p s
  refine Charge.of_noLoss hsch.list hsch.pidcnt fun q => ?_
  rw [dispatch, switchTo_proc]
  exact (modify_noLoss (f := fun r => { r with state := .running }) (fun _ => NoLoss.of_eq rfl rfl rfl) p s q).trans
    (modify_noLoss spendTick_noLoss p _ q)

/-- The event makes the current process give up its time slice. -/
def Event.yields : Event → Bool
  | .op .expire => true
  | .op (.sleep _) => true
  | .op .exit => true
  | _ => false

/-- What the step itself does to the current process, before `schedule`. -/
theorem charge_current {quiet : U32 → Prop} (hq : ¬ quiet s.proclist.current) {f : Process → Process}
    (hf : ∀ q, NoGain q (f q)) : Charge quiet s (modify s.proclist.current f s) := by
  refine ⟨rfl, fun p hp => hp, fun p => ?_, fun p hp _ => hp, fun p hp => ?_⟩
  · by_cases hc : p = s.proclist.current
    · rw [hc, modify_same]
      exact hf _
    · rw [modify_off _ _ _ hc]
      exact (NoLoss.of_eq rfl rfl rfl).noGain
  · have hc : p ≠ s.proclist.current := fun e => hq (e ▸ hp)
    rw [modify_off _ _ _ hc]
    exact NoLoss.of_eq rfl rfl rfl

/-- A process that the event, if it gives up a time slice, is not made by. -/
def Bystander (s : Kernel) (e : Event) (p : U32) : Prop := s.proclist.current = p → e.yields = false

theorem charge_calls {o : Op} (hn : s.proclist.list.Nodup) (hc : callsSchedule o s = some u) :
    Charge (Bystander s (.op o)) s u := by
  -- the current process is no bystander of an operation that yields
  have hquiet : ∀ {o : Op}, Event.yields (.op o) = true → ¬ Bystander s (.op o) s.proclist.current := by
    intro o hy hb
    rw [hb rfl] at hy
    cases hy
  have hexp : ∀ {o : Op} {t : Kernel}, Event.yields (.op o) = true → t.proclist.current = s.proclist.current →
      Charge (Bystander s (.op o)) s t → Charge (Bystander s (.op o)) s (expireCurrent t) := by
    intro o t hy ht hch
    have hcur : Charge (Bystander s (.op o)) t (expireCurrent t) :=
      charge_current (by rw [ht]; exact hquiet hy) expire_noGain
    exact ⟨hcur.pidcnt.trans hch.pidcnt, fun p hp => hch.listed p (hcur.listed p hp),
      fun p => (hch.noGain p).trans (hcur.noGain p), fun p hp hq => hcur.stays p (hch.stays p hp hq) hq,
      fun p hq => (hch.noLoss p hq).trans (hcur.noLoss p hq)⟩
  cases o with
  | create p k => cases hc
  | timer =>
    cases hc
    exact charge_refl _ s
  | expire =>
    cases hc
    exact hexp rfl rfl (charge_refl _ s)
  | sleep n =>
    cases hc
    refine hexp rfl rfl ?_
    exact charge_current (hquiet rfl) fun _ => NoLoss.noGain (NoLoss.of_eq rfl rfl rfl)
  | exit =>
    cases hc
    refine hexp rfl rfl ⟨rfl, fun p hp => List.mem_of_mem_erase hp, fun _ => (NoLoss.of_eq rfl rfl rfl).noGain,
      fun p hp hq => ?_, fun _ _ => NoLoss.of_eq rfl rfl rfl⟩
    have hne : p ≠ s.proclist.current := fun e => hquiet (o := .exit) rfl (e ▸ hq)
    exact (List.Nodup.mem_erase_iff hn).mpr ⟨hne, hp⟩

theorem charge_enter (hn : s.proclist.list.Nodup) (e : Event) (he : ∀ p k, e ≠ .op (.create p k)) :
    Charge (Bystander s e) s (e.enter s).kernel := by
  cases e with
  | op o =>
    cases o with
    | create p k => exact absurd rfl (he p k)
    | _ => exact (charge_calls hn rfl).trans (charge_entry _)
  | key scancode =>
    simp only [Event.enter]
    split
    · exact (charge_refl _ s).trans (charge_entry s)
    · exact charge_refl _ s

end

/-! Since a round. -/

/-- The process was listed at the round, and has used and kept 100 ticks at most since;
or it was created later, and has so ever. -/
def Tracked (g : Kernel) (p : U32) (q : Process) : Prop :=
  p ∈ g.proclist.list ∧ q.pid = (g.proc p).pid ∧ spent (g.proc p).tt q ≤ 100 ∨
    g.proclist.pidcnt ≤ q.pid ∧ spent 0 q ≤ 100

/-- What holds since the round at `g`, the processes that meet `quiet` having given
nothing away. -/
structure Since (g : Kernel) (quiet : U32 → Prop) (t : Kernel) : Prop where
  pidcnt : g.proclist.pidcnt ≤ t.proclist.pidcnt
  tracked : ∀ p ∈ t.proclist.list, Tracked g p (t.proc p)
  exact : ∀ p ∈ g.proclist.list, quiet p →
    p ∈ t.proclist.list ∧ (t.proc p).pid = (g.proc p).pid ∧ spent (g.proc p).tt (t.proc p) = 100

section
variable {g s t : Kernel} {quiet quiet' : U32 → Prop}

theorem Since.charge {bystander : U32 → Prop} (h : Since g quiet s) (hc : Charge bystander s t)
    (hq : ∀ p, quiet' p → quiet p ∧ bystander p) : Since g quiet' t := by
  refine ⟨by rw [hc.pidcnt]; exact h.pidcnt, fun p hp => ?_, fun p hp hqp => ?_⟩
  · have hg := hc.noGain p
    obtain ⟨hl, hpid, hle⟩ | ⟨hpid, hle⟩ := h.tracked p (hc.listed p hp)
    · exact .inl ⟨hl, hg.pid.trans hpid, (hg.spent _ hle).trans hle⟩
    · exact .inr ⟨by rw [hg.pid]; exact hpid, (hg.spent _ hle).trans hle⟩
  · obtain ⟨hq, hb⟩ := hq p hqp
    obtain ⟨hl, hpid, hsp⟩ := h.exact p hp hq
    have hn := hc.noLoss p hb
    exact ⟨hc.stays p hl hb, hn.pid.trans hpid, (hn.spent _ hsp.le).trans hsp⟩

/-- A new process has 100 ticks, and a pid no process had before. -/
theorem Since.create {n : Nat} {ks : List U32} {p k : U32} (h : Since g quiet s) (ht : Table n ks s)
    (hf : Fresh p k s) : Since g quiet (createProcess p k s).2 := by
  have ht' := ht.create hf
  have hlist := createProcess_list hf
  have hold : ∀ q ∈ s.proclist.list, (createProcess p k s).2.proc q = s.proc q :=
    fun q hq => createProcess_off hf (ht.proc_ne hf q hq)
  refine ⟨?_, fun q hq => ?_, fun q hq hqq => ?_⟩
  · have h₁ := ht.pidcnt
    have h₂ := ht'.pidcnt
    have h₃ := h.pidcnt
    rw [BitVec.le_def] at h₃ ⊢
    omega
  · rw [hlist] at hq
    obtain hq | hq := List.mem_append.mp hq
    · rw [hold q hq]
      exact h.tracked q hq
    · rw [List.mem_singleton.mp hq, createProcess_new hf]
      refine .inr ⟨h.pidcnt, ?_⟩
      show ((0 : U32) - 0).toNat + (100 : U16).toNat ≤ 100
      decide
  · obtain ⟨hl, hpid, hsp⟩ := h.exact q hq hqq
    rw [hold q hl, hlist]
    exact ⟨List.mem_append_left _ hl, hpid, hsp⟩

theorem since_give (hn : g.proclist.list.Nodup) (quiet : U32 → Prop) : Since g quiet (giveTicks g) := by
  have hl : (giveTicks g).proclist = g.proclist := (searched_give g).proclist
  have hp : ∀ p ∈ g.proclist.list, ((giveTicks g).proc p).pid = (g.proc p).pid ∧
      spent (g.proc p).tt ((giveTicks g).proc p) = 100 := by
    intro p hp
    have hon : (giveTicks g).proc p = refill (g.proc p) := forEach_on _ _ _ hn hp
    rw [hon, spent]
    show (g.proc p).pid = _ ∧ ((g.proc p).tt - (g.proc p).tt).toNat + (100 : U16).toNat = 100
    rw [BitVec.sub_self]
    exact ⟨rfl, rfl⟩
  refine ⟨by rw [hl]; exact Nat.le_refl _, fun p hm => ?_, fun p hm _ => ?_⟩
  · rw [hl] at hm
    exact .inl ⟨hm, (hp p hm).1, (hp p hm).2.le⟩
  · rw [hl]
    exact ⟨hm, hp p hm⟩

end

/-- The process gives no time slice away in these steps. -/
def QuietIn (ms : List Mark) (p : U32) : Prop := ∀ s e, .event s e ∈ ms → Bystander s e p

theorem quietIn_cons {s : Kernel} {e : Event} {ms : List Mark} {p : U32} (h : QuietIn (.event s e :: ms) p) :
    QuietIn ms p ∧ Bystander s e p :=
  ⟨fun s' e' hm => h s' e' (List.mem_cons_of_mem _ hm), h s e List.mem_cons_self⟩

section
variable {mem : U32 → Process} {ms : List Mark} {ph : Phase} {s : Kernel}

theorem Since.enter {n : Nat} {ks : List U32} {g : Kernel} {mid : List Mark} {e : Event} (ht : Table n ks s)
    (h : Since g (QuietIn mid) s) (ha : e.Allowed s) :
    Since g (QuietIn (.event s e :: mid)) (e.enter s).kernel := by
  by_cases hcr : ∃ p k, e = .op (.create p k)
  · obtain ⟨p, k, rfl⟩ := hcr
    have hc := h.create ht ha
    exact ⟨hc.pidcnt, hc.tracked, fun q hq hqq => hc.exact q hq (quietIn_cons hqq).1⟩
  · have hne : ∀ p k, e ≠ .op (.create p k) := fun p k he => hcr ⟨p, k, he⟩
    exact h.charge (charge_enter ht.nodup e hne) fun p hp => quietIn_cons hp

/-- **What every run keeps since its last round.** -/
theorem RoundRun.since (h : RoundRun (booted mem) ms ph) : ∀ {mid older : List Mark} {g : Kernel},
    ms = mid ++ .round g :: older → (∀ g', .round g' ∉ mid) → Since g (QuietIn mid) ph.kernel := by
  induction h with
  | start =>
    intro mid older g e
    exact absurd e.symm (List.append_ne_nil_of_right_ne_nil _ (List.cons_ne_nil _ _))
  | @returned ms s s' e hr ha he ih | @searching ms s s' e hr ha he ih =>
    -- what the call does is charged on top of the marks before it
    intro mid older g hms hmid
    cases mid with
    | nil => injection hms with hm _; cases hm
    | cons m mid =>
      obtain ⟨rfl, hrest⟩ := List.cons.inj hms
      obtain ⟨n, ks, ht⟩ := hr.inv.table
      have hs : Since g (QuietIn mid) s := ih hrest fun g' hg' => hmid g' (List.mem_cons_of_mem _ hg')
      have ht : Table n ks s := ht
      have hs := hs.enter ht ha
      rw [he] at hs
      exact hs
  | @round ms s s' hr hf ih =>
    -- the mark of the round itself starts the count
    intro mid older g hms hmid
    cases mid with
    | nil =>
      injection hms with hm _
      injection hm with hm
      subst hm
      obtain ⟨n, ks, ht, _⟩ := hr.inv.walk
      have hse := findProc_searched s.proclist.list s
      rw [hf] at hse
      exact since_give (by rw [hse.proclist]; exact ht.nodup) _
    | cons m mid =>
      obtain ⟨rfl, _⟩ := List.cons.inj hms
      exact absurd List.mem_cons_self (hmid s')
  | @found ms s p s' hr hf ih =>
    intro mid older g hms hmid
    exact (ih hms hmid).charge ((charge_find hf).trans (charge_dispatch p s')) fun p hp => ⟨hp, trivial⟩

/-- Where a run was at one of its marks. -/
def Mark.Begins (s₀ : Kernel) (older : List Mark) : Mark → Prop
  | .event s _ => RoundRun s₀ older (.between s)
  | .round g => ∃ s, RoundRun s₀ older (.searching s) ∧ findProc s.proclist.list s = (none, g)

theorem RoundRun.begins {s₀ : Kernel} (h : RoundRun s₀ ms ph) : ∀ {newer older : List Mark} {m : Mark},
    ms = newer ++ m :: older → m.Begins s₀ older := by
  -- only a returned, searching or round step adds a mark; a found process adds none
  induction h with
  | start =>
    intro newer older m e
    exact absurd e.symm (List.append_ne_nil_of_right_ne_nil _ (List.cons_ne_nil _ _))
  | returned e hr _ _ ih | searching e hr _ _ ih =>
    intro newer older m hms
    cases newer with
    | nil =>
      obtain ⟨rfl, rfl⟩ := List.cons.inj hms
      exact hr
    | cons _ newer => exact ih (List.cons.inj hms).2
  | round hr hf ih =>
    intro newer older m hms
    cases newer with
    | nil =>
      obtain ⟨rfl, rfl⟩ := List.cons.inj hms
      exact ⟨_, hr, hf⟩
    | cons _ newer => exact ih (List.cons.inj hms).2
  | found _ _ ih => exact fun hms => ih hms

theorem Since.bound {g t : Kernel} {quiet : U32 → Prop} (h : Since g quiet t) : ∀ p ∈ t.proclist.list,
    p ∈ g.proclist.list ∧ (t.proc p).pid = (g.proc p).pid ∧ ((t.proc p).tt - (g.proc p).tt).toNat ≤ 100 ∨
      g.proclist.pidcnt ≤ (t.proc p).pid ∧ (t.proc p).tt.toNat ≤ 100 := by
  intro p hp
  obtain ⟨hl, hpid, hle⟩ | ⟨hpid, hle⟩ := h.tracked p hp
  · exact .inl ⟨hl, hpid, (Nat.le_add_right _ _).trans hle⟩
  · refine .inr ⟨hpid, ?_⟩
    unfold spent at hle
    bv_omega

/-- A walk that finds nobody leaves no ticks to a process that is not asleep. -/
theorem spent_ticks {s g : Kernel} {p : U32} (hs : PhaseInv (.searching s))
    (hf : findProc s.proclist.list s = (none, g)) (hl : p ∈ g.proclist.list)
    (hst : (g.proc p).state ≠ .sleeping) : (g.proc p).ticks.toNat = 0 := by
  obtain ⟨n, ks, ht, hwait⟩ := hs.walk
  have hse := findProc_searched s.proclist.list s
  have hpr := findProc_proc s.proclist.list s
  rw [hf] at hse hpr
  have hpg : g.proc p = s.proc p := congrFun hpr p
  rw [hse.proclist] at hl
  have hno := findProc_none hf p hl
  rw [hpg] at hst ⊢
  -- it is ready, and the walk has passed it over
  have hready : (s.proc p).state = .ready := (hwait p hl).resolve_right hst
  by_contra hne
  exact hno ⟨hready, Nat.pos_of_ne_zero hne⟩

end

/-- **Between two consecutive rounds of `give_ticks`** a process listed at the first one
that gives no time slice away, and is not asleep at the second, is charged exactly 100
ticks; and no process, listed at the first one or created since, is charged more. -/
theorem ticks_per_round {mem : U32 → Process} {newer mid older : List Mark} {g₁ g₂ : Kernel} {ph : Phase}
    (h : RoundRun (booted mem) (newer ++ .round g₂ :: (mid ++ .round g₁ :: older)) ph)
    (hmid : ∀ g, .round g ∉ mid) :
    (∀ p ∈ g₁.proclist.list,
      (∀ s e, .event s e ∈ mid → s.proclist.current = p → e.yields = false) →
      (g₂.proc p).state ≠ .sleeping →
      p ∈ g₂.proclist.list ∧ (g₂.proc p).pid = (g₁.proc p).pid ∧ (g₂.proc p).tt = (g₁.proc p).tt + 100) ∧
    ∀ t, t = g₂ ∨ (∃ e, .event t e ∈ mid) → ∀ p ∈ t.proclist.list,
      p ∈ g₁.proclist.list ∧ (t.proc p).pid = (g₁.proc p).pid ∧ ((t.proc p).tt - (g₁.proc p).tt).toNat ≤ 100 ∨
      g₁.proclist.pidcnt ≤ (t.proc p).pid ∧ (t.proc p).tt.toNat ≤ 100 := by
  obtain ⟨s, hs, hf⟩ := h.begins rfl
  have hcharge : Since g₁ (QuietIn mid) g₂ :=
    (hs.since rfl hmid).charge (charge_find hf) fun p hp => ⟨hp, trivial⟩
  refine ⟨fun p hp hq hst => ?_, fun t ht => ?_⟩
  · obtain ⟨hl, hpid, hsp⟩ := hcharge.exact p hp hq
    have h0 := spent_ticks hs.inv hf hl hst
    refine ⟨hl, hpid, ?_⟩
    unfold spent at hsp
    bv_omega
  · obtain rfl | ⟨e, he⟩ := ht
    · exact hcharge.bound
    · obtain ⟨newer', mid', rfl⟩ := List.append_of_mem he
      have hms : newer ++ .round g₂ :: ((newer' ++ .event t e :: mid') ++ .round g₁ :: older) =
          (newer ++ .round g₂ :: newer') ++ .event t e :: (mid' ++ .round g₁ :: older) := by
        simp
      have hbt : RoundRun (booted mem) (mid' ++ .round g₁ :: older) (.between t) := h.begins hms
      exact (hbt.since rfl fun g hg => hmid g (by simp [hg])).bound

/-! Time slices to their ends: two processes, and a round between two calls of `give_ticks`. -/

def Timers (n : Nat) (mid : List Mark) : Prop := mid.length = n ∧ ∀ k ∈ mid, ∃ u, k = .event u (.op .timer)

theorem Timers.append {n n' : Nat} {mid mid' : List Mark} (h : Timers n mid) (h' : Timers n' mid') :
    Timers (n + n') (mid ++ mid') := by
  refine ⟨by rw [List.length_append, h.1, h'.1], fun k hk => ?_⟩
  rcases List.mem_append.mp hk with hk | hk
  · exact h.2 k hk
  · exact h'.2 k hk

theorem Timers.no_round {n : Nat} {mid : List Mark} (h : Timers n mid) (g : Kernel) : .round g ∉ mid := by
  intro hg
  obtain ⟨u, hu⟩ := h.2 _ hg
  cases hu

theorem Timers.quiet {n : Nat} {mid : List Mark} (h : Timers n mid) {s : Kernel} {e : Event} (he : .event s e ∈ mid) :
    e.yields = false := by
  obtain ⟨u, hu⟩ := h.2 _ he
  cases hu
  rfl

/-- Process `p` has the CPU, and nobody sleeps. -/
structure Turn (p : U32) (s : Kernel) : Prop where
  scheduling : Scheduling s
  current : s.proclist.current = p
  ne : p ≠ 0
  awake : ∀ q, (s.proc q).state ≠ .sleeping

def chargedFor (n : Nat) (q : Process) : Process :=
  { q with ticks := q.ticks - BitVec.ofNat 16 n, tt := q.tt + BitVec.ofNat 32 n }

theorem updateTimeouts_awake {s : Kernel} (h : ∀ q, (s.proc q).state ≠ .sleeping) : (updateTimeouts s).proc = s.proc := by
  unfold updateTimeouts
  generalize s.proclist.list = ps
  induction ps generalizing s with
  | nil => rfl
  | cons p ps ih =>
    have hp : (modify p wake s).proc = s.proc := by
      funext q
      by_cases hq : q = p
      · rw [hq, modify_same, wake_off (h p)]
      · exact modify_off p wake s hq
    have hrest := @ih (modify p wake s) (fun q => hp ▸ h q)
    exact hrest.trans hp

theorem charged_succ {n : Nat} {q : Process} (h : n < q.ticks.toNat) :
    spendTick (chargedFor n q) = chargedFor (n + 1) q ∧ (chargedFor n q).ticks ≠ 0 := by
  have hlt := q.ticks.isLt
  have hn : (q.ticks - BitVec.ofNat 16 n).toNat = q.ticks.toNat - n := by
    rw [BitVec.toNat_sub_of_le (BitVec.le_def.mpr (by rw [BitVec.toNat_ofNat]; omega)), BitVec.toNat_ofNat]
    omega
  have hpos : 0 < q.ticks - BitVec.ofNat 16 n := by
    apply BitVec.lt_def.mpr
    show 0 < (q.ticks - BitVec.ofNat 16 n).toNat
    omega
  have h32 : BitVec.ofNat 32 (n + 1) = BitVec.ofNat 32 n + 1 := BitVec.ofNat_add ..
  have h16 : BitVec.ofNat 16 (n + 1) = BitVec.ofNat 16 n + 1 := BitVec.ofNat_add ..
  refine ⟨?_, fun h0 => ?_⟩
  · have hticks : q.ticks - BitVec.ofNat 16 n - 1 = q.ticks - (BitVec.ofNat 16 n + 1) := by bv_omega
    rw [spendTick, chargedFor, if_pos hpos, chargedFor, h32, h16]
    simp only [hticks, BitVec.add_assoc]
  · have h0' : q.ticks - BitVec.ofNat 16 n = 0 := h0
    rw [h0'] at hpos
    exact absurd hpos (by decide)

theorem charged_zero (q : Process) : chargedFor 0 q = q := by
  unfold chargedFor
  simp

section
variable {s₀ s : Kernel} {ms : List Mark} {p : U32}

theorem timers_charge (h : RoundRun s₀ ms (.between s)) (ht : Turn p s) : ∀ n ≤ (s.proc p).ticks.toNat,
    ∃ mid t, RoundRun s₀ (mid ++ ms) (.between t) ∧ Timers n mid ∧ Turn p t ∧ t.proclist = s.proclist ∧
      t.proc = Function.update s.proc p (chargedFor n (s.proc p)) := by
  intro n
  induction n with
  | zero =>
    intro _
    exact ⟨[], s, h, ⟨rfl, by simp⟩, ht, rfl, by rw [charged_zero, Function.update_eq_self]⟩
  | succ n ih =>
    intro hn
    obtain ⟨mid, t, hrun, hmid, htt, hpl, hproc⟩ := ih (Nat.le_of_succ_le hn)
    have hself : t.proc p = chargedFor n (s.proc p) := by rw [hproc, Function.update_self]
    obtain ⟨hspend, hticks⟩ := charged_succ hn
    have hup := updateTimeouts_awake htt.awake
    have hhas : HasTicks t := ⟨htt.current ▸ htt.ne, by rw [hup, htt.current, hself]; exact hticks⟩
    have henter : (Event.op .timer).enter t = .returned (accountTicks p (updateTimeouts t)) := by
      rw [Event.enter, entry_ticks htt.scheduling hhas, htt.current]
    have hnew : (accountTicks p (updateTimeouts t)).proc = Function.update s.proc p (chargedFor (n + 1) (s.proc p)) := by
      rw [accountTicks, modify, hup, hself, hspend, hproc, Function.update_idem]
    have hlist : (accountTicks p (updateTimeouts t)).proclist = t.proclist := forEach_proclist ..
    refine ⟨.event t (.op .timer) :: mid, _, RoundRun.returned (.op .timer) hrun trivial henter, ?_,
      ⟨?_, ?_, ht.ne, fun q => ?_⟩, hlist.trans hpl, hnew⟩
    · refine ⟨by rw [List.length_cons, hmid.1], fun k hk => ?_⟩
      rcases List.mem_cons.mp hk with rfl | hk
      · exact ⟨t, rfl⟩
      · exact hmid.2 k hk
    · rw [Scheduling, hlist]
      exact htt.scheduling
    · rw [hlist]
      exact htt.current
    · rw [hnew]
      by_cases hq : q = p
      · rw [hq, Function.update_self]
        exact ht.awake p
      · rw [Function.update_of_ne hq]
        exact ht.awake q

theorem turn_over (h : RoundRun s₀ ms (.between s)) (ht : Turn p s) : ∃ mid t, RoundRun s₀ (mid ++ ms) (.searching t) ∧
    Timers ((s.proc p).ticks.toNat + 1) mid ∧ t.proclist = s.proclist ∧
    t.proc = Function.update s.proc p (yieldCpu (chargedFor (s.proc p).ticks.toNat (s.proc p))) := by
  obtain ⟨mid, t, hrun, hmid, htt, hpl, hproc⟩ := timers_charge h ht _ (Nat.le_refl _)
  have hself : t.proc p = chargedFor (s.proc p).ticks.toNat (s.proc p) := by rw [hproc, Function.update_self]
  have hup := updateTimeouts_awake htt.awake
  have hno : ¬ HasTicks t := fun hh => hh.2 <| by
    rw [hup, htt.current, hself, chargedFor, BitVec.ofNat_toNat, BitVec.setWidth_eq, BitVec.sub_self]
    rfl
  have henter : (Event.op .timer).enter t = .searching (searchState t) := by
    rw [Event.enter, entry_search htt.scheduling hno]
  refine ⟨.event t (.op .timer) :: mid, searchState t, RoundRun.searching (.op .timer) hrun trivial henter, ?_,
    (forEach_proclist ..).trans hpl, ?_⟩
  · refine ⟨by rw [List.length_cons, hmid.1], fun k hk => ?_⟩
    rcases List.mem_cons.mp hk with rfl | hk
    · exact ⟨t, rfl⟩
    · exact hmid.2 k hk
  · rw [searchState, htt.current, modify, hup, hself, hproc, Function.update_idem]

end

/-- Two processes, created one after the other, and what their structures hold. -/
structure Pair (cur : U32) (x y : Process) (s : Kernel) : Prop where
  proclist : s.proclist = ⟨cur, 2, 2, true, [0xC000A014, 0xC000B098]⟩
  first : s.proc 0xC000A014 = x
  second : s.proc 0xC000B098 = y
  awake : ∀ q, (s.proc q).state ≠ .sleeping

def Unspent (x : Process) : Prop := x.state = .ready ∧ x.ticks = 100

def sliceUsed (x : Process) : Process := { x with ticks := 0, tt := x.tt + 100 }

theorem awake_update {f : U32 → Process} (h : ∀ q, (f q).state ≠ .sleeping) (p : U32) {x : Process}
    (hx : x.state ≠ .sleeping) : ∀ q, (Function.update f p x q).state ≠ .sleeping := by
  intro q
  by_cases hq : q = p
  · rw [hq, Function.update_self]
    exact hx
  · rw [Function.update_of_ne hq]
    exact h q

/-- From its dispatch to the end of its slice a process is charged for all of it. -/
theorem slice_used {x : Process} (h : Unspent x) :
    yieldCpu (chargedFor (spendTick { x with state := .running }).ticks.toNat
      (spendTick { x with state := .running })) = sliceUsed x ∧
      (spendTick { x with state := .running }).ticks.toNat = 99 := by
  obtain ⟨hst, hticks⟩ := h
  cases x
  subst hst hticks
  refine ⟨?_, by simp [spendTick]⟩
  simp only [spendTick, chargedFor, yieldCpu, sliceUsed]
  simp [BitVec.add_assoc]

section
variable {s₀ t : Kernel} {ms : List Mark} {cur : U32} {x y : Process}

/-- The walk finds `p`, which then runs for a hundred timer interrupts. -/
theorem slice (h : RoundRun s₀ ms (.searching t)) (hp : Pair cur x y t) {p : U32} (hp0 : p ≠ 0)
    (hf : (findProc t.proclist.list t).1 = some p) (hx : Unspent (t.proc p)) :
    ∃ mid u, RoundRun s₀ (mid ++ ms) (.searching u) ∧ Timers 100 mid ∧ u.proclist = { t.proclist with current := p } ∧
      u.proc = Function.update t.proc p (sliceUsed (t.proc p)) := by
  obtain ⟨hused, hticks⟩ := slice_used hx
  have hproc := findProc_proc t.proclist.list t
  have hlist := (findProc_searched t.proclist.list t).proclist
  have hrun := RoundRun.found h (Prod.ext hf rfl)
  have hself : (dispatch p (findProc t.proclist.list t).2).proc =
      Function.update t.proc p (spendTick { t.proc p with state := .running }) := by
    rw [dispatch, switchTo_proc, accountTicks, modify, modify_same, modify, hproc, Function.update_idem]
  have hpl : (dispatch p (findProc t.proclist.list t).2).proclist = { t.proclist with current := p } := by
    rw [dispatch, switchTo_proclist, accountTicks, modify_proclist, modify_proclist, hlist]
  have hturn : Turn p (dispatch p (findProc t.proclist.list t).2) := by
    refine ⟨?_, congrArg ProcList.current hpl, hp0, ?_⟩
    · rw [Scheduling, hpl, hp.proclist]
      exact ⟨rfl, show (2 : U32) ≠ 0 by decide⟩
    · rw [hself]
      refine awake_update hp.awake p ?_
      rw [spendTick, if_pos (by rw [hx.2]; decide)]
      exact ProcState.noConfusion
  obtain ⟨mid, u, hu, hmid, hul, hup⟩ := turn_over hrun hturn
  rw [hself, Function.update_self, hticks] at hmid
  rw [hself, Function.update_self, hused, Function.update_idem] at hup
  exact ⟨mid, u, hu, hmid, hul.trans hpl, hup⟩

/-- Both have their slices, one after the other, and the next walk is in vain. -/
theorem both_slices (h : RoundRun s₀ ms (.searching t)) (hp : Pair cur x y t) (hx : Unspent x) (hy : Unspent y) :
    ∃ mid g, RoundRun s₀ (.round g :: (mid ++ ms)) (.searching (giveTicks g)) ∧ Timers 200 mid ∧
      Pair 0xC000B098 (sliceUsed x) (sliceUsed y) g := by
  have heligible : ∀ {z : Process}, Unspent z → Eligible z := fun hz => ⟨hz.1, by rw [hz.2]; decide⟩
  have hspent : ∀ z : Process, ¬ Eligible (sliceUsed z) := fun z hz => absurd hz.2 (by simp [sliceUsed])
  obtain ⟨mid₁, u, hu, hmid₁, hul, hup⟩ := slice h hp (p := 0xC000A014) (by decide)
    (by rw [hp.proclist, findProc, if_pos (hp.first ▸ heligible hx)]) (hp.first ▸ hx)
  have hawake : ∀ {z : Process}, Unspent z → (sliceUsed z).state ≠ .sleeping := fun hz => by
    show _ ≠ _
    rw [show (sliceUsed _).state = _ from hz.1]
    exact ProcState.noConfusion
  have hpu : Pair 0xC000A014 (sliceUsed x) y u := by
    refine ⟨by rw [hul, hp.proclist], by rw [hup, Function.update_self, hp.first], ?_, ?_⟩
    · rw [hup, Function.update_of_ne (by decide), hp.second]
    · rw [hup]
      exact awake_update hp.awake _ (hp.first ▸ hawake hx)
  obtain ⟨mid₂, v, hv, hmid₂, hvl, hvp⟩ := slice hu hpu (p := 0xC000B098) (by decide)
    (by
      rw [hpu.proclist, findProc, if_neg (hpu.first ▸ hspent x), findProc]
      exact congrArg Prod.fst (if_pos (show Eligible (u.proc 0xC000B098) from hpu.second ▸ heligible hy)))
    (hpu.second ▸ hy)
  have hpv : Pair 0xC000B098 (sliceUsed x) (sliceUsed y) v := by
    refine ⟨by rw [hvl, hpu.proclist], ?_, by rw [hvp, Function.update_self, hpu.second], ?_⟩
    · rw [hvp, Function.update_of_ne (by decide), hpu.first]
    · rw [hvp]
      exact awake_update hpu.awake _ (hpu.second ▸ hawake hy)
  have hnone : (findProc v.proclist.list v).1 = none := by
    rw [hpv.proclist, findProc, if_neg (hpv.first ▸ hspent x), findProc]
    exact congrArg Prod.fst (if_neg (show ¬ Eligible (v.proc 0xC000B098) from hpv.second ▸ hspent y))
  have hproc := findProc_proc v.proclist.list v
  have hlist := (findProc_searched v.proclist.list v).proclist
  refine ⟨mid₂ ++ mid₁, (findProc v.proclist.list v).2, ?_, hmid₂.append hmid₁, ?_⟩
  · rw [List.append_assoc]
    exact RoundRun.round hv (Prod.ext hnone rfl)
  · exact ⟨hlist.trans hpv.proclist, hproc ▸ hpv.first, hproc ▸ hpv.second, hproc ▸ hpv.awake⟩

theorem refilled (hp : Pair cur x y t) (hx : x.state = .ready) (hy : y.state = .ready) :
    Pair cur (refill x) (refill y) (giveTicks t) ∧ Unspent (refill x) ∧ Unspent (refill y) := by
  have hproc : (giveTicks t).proc =
      Function.update (Function.update t.proc 0xC000A014 (refill x)) 0xC000B098 (refill y) := by
    rw [giveTicks, hp.proclist, ← hp.first, ← hp.second]
    rfl
  refine ⟨⟨(forEach_proclist ..).trans hp.proclist, ?_, ?_, ?_⟩, ⟨hx, rfl⟩, hy, rfl⟩
  · rw [hproc, Function.update_of_ne (by decide), Function.update_self]
  · rw [hproc, Function.update_self]
  · rw [hproc]
    refine awake_update (awake_update hp.awake _ ?_) _ ?_
    · exact fun h => absurd (hx.symm.trans h) ProcState.noConfusion
    · exact fun h => absurd (hy.symm.trans h) ProcState.noConfusion

end

def twoAwake : Kernel :=
  (createProcess 0xC000B098 0xC000B108 (createProcess 0xC000A014 0xC000A084 (booted zeroMem)).2).2

theorem twoAwake_awake (q : U32) : ((searchState twoAwake).proc q).state ≠ .sleeping := by
  have hzero : ∀ q, (zeroMem q).state ≠ .sleeping := fun _ => ProcState.noConfusion
  have htwo : ∀ q, (twoAwake.proc q).state ≠ .sleeping := by
    apply awake_update
    · apply awake_update hzero
      exact ProcState.noConfusion
    · exact ProcState.noConfusion
  have hup : ∀ q, ((updateTimeouts twoAwake).proc q).state ≠ .sleeping := updateTimeouts_awake htwo ▸ htwo
  refine awake_update hup _ ?_ q
  exact (ProcState.noConfusion : ProcState.unset ≠ .sleeping)

/-- Two processes are created; from the first interrupt to the second call of `give_ticks`
both have had two slices. -/
theorem two_rounds : ∃ mid older g₁ g₂ x y,
    RoundRun (booted zeroMem) ([] ++ .round g₂ :: (mid ++ .round g₁ :: older)) (.searching (giveTicks g₂)) ∧
      Timers 200 mid ∧ Pair 0xC000B098 x y g₁ ∧ Pair 0xC000B098 (sliceUsed (refill x)) (sliceUsed (refill y)) g₂ ∧
      x.tt = 100 ∧ y.tt = 100 := by
  have h := RoundRun.returned (.op (.create 0xC000A014 0xC000A084)) (@RoundRun.start (booted zeroMem))
    (by constructor <;> decide) rfl
  have h := RoundRun.returned (.op (.create 0xC000B098 0xC000B108)) h (by constructor <;> decide) rfl
  have h : RoundRun (booted zeroMem) _ (.searching (searchState twoAwake)) := RoundRun.searching (.op .timer) h trivial rfl
  obtain ⟨mid₁, g₁, h₁, -, hp₁⟩ := @both_slices _ _ _ 0 (newProcess 0 0xC000A084 0) (newProcess 1 0xC000B108 0) h
    ⟨rfl, rfl, rfl, twoAwake_awake⟩ ⟨rfl, rfl⟩ ⟨rfl, rfl⟩
  obtain ⟨hp₁', hx, hy⟩ := refilled hp₁ rfl rfl
  obtain ⟨mid₂, g₂, h₂, hmid₂, hp₂⟩ := both_slices h₁ hp₁' hx hy
  exact ⟨mid₂, _, g₁, g₂, _, _, h₂, hmid₂, hp₁, hp₂, rfl, rfl⟩

/-- In the second of the rounds, 200 timer interrupts long, each of the two is charged exactly 100 ticks. -/
theorem ticks_per_round_sample : ∃ mid older g₁ g₂,
    RoundRun (booted zeroMem) ([] ++ .round g₂ :: (mid ++ .round g₁ :: older)) (.searching (giveTicks g₂)) ∧
      mid.length = 200 ∧ (g₁.proc 0xC000A014).tt = 100 ∧ (g₁.proc 0xC000B098).tt = 100 ∧
      (g₂.proc 0xC000A014).tt = 200 ∧ (g₂.proc 0xC000B098).tt = 200 ∧
      ∀ p ∈ g₂.proclist.list, p ∈ g₁.proclist.list ∧ (g₂.proc p).pid = (g₁.proc p).pid ∧
        ((g₂.proc p).tt - (g₁.proc p).tt).toNat ≤ 100 ∨ g₁.proclist.pidcnt ≤ (g₂.proc p).pid ∧ (g₂.proc p).tt.toNat ≤ 100 := by
  obtain ⟨mid, older, g₁, g₂, x, y, h, hmid, hp₁, hp₂, hx, hy⟩ := two_rounds
  obtain ⟨hexact, hbound⟩ := ticks_per_round h hmid.no_round
  have hin : ∀ p ∈ [(0xC000A014 : U32), 0xC000B098], p ∈ g₁.proclist.list := fun p hp => by rwa [hp₁.proclist]
  have hcharge : ∀ p ∈ [(0xC000A014 : U32), 0xC000B098], (g₂.proc p).tt = (g₁.proc p).tt + 100 := fun p hp =>
    (hexact p (hin p hp) (fun _ _ he _ => hmid.quiet he) (hp₂.awake p)).2.2
  refine ⟨mid, older, g₁, g₂, h, hmid.1, hp₁.first ▸ hx, hp₁.second ▸ hy, ?_, ?_, hbound g₂ (.inl rfl)⟩
  · rw [hcharge _ List.mem_cons_self, hp₁.first, hx]
    rfl
  · rw [hcharge _ (List.mem_cons_of_mem _ List.mem_cons_self), hp₁.second, hy]
    rfl

end LineOS
