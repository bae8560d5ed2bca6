import LineOS.ProcessRun

/- Giving up the CPU with preemption turned off. `schedule` returns at once while
   `k_proclist.kernel_preempt` is 0, and `process_sleep` and `process_end` have marked the
   caller asleep or freed it before they call it. `FlagRun` runs the scheduler with the flag
   turned on and off at will; the current process runs, is listed and is allocated in every
   state just if each of these two calls was made with the flag on (`gives_up_iff`). -/
namespace LineOS
open ByteMemory

def disableKernelPreempt (s : Kernel) : Kernel :=
  { s with proclist := { s.proclist with kernelPreempt := false } }

inductive FlagOp where
  | call (op : Op)
  | enable
  | disable

/-- The kernel before an operation, the operation, and the kernel after it. -/
structure FlagStep where
  pre : Kernel
  op : FlagOp
  post : Kernel

/-- Runs from `init_process` with their steps, latest first. -/
inductive FlagRun (mem : U32 → Process) : List FlagStep → Kernel → Prop
  | start : FlagRun mem [] (initProcess mem)
  | call {tr s s'} (fuel : Nat) (op : Op) : FlagRun mem tr s → Permitted op s → exec fuel op s = (true, s') →
      FlagRun mem (⟨s, .call op, s'⟩ :: tr) s'
  | enable {tr s} : FlagRun mem tr s → FlagRun mem (⟨s, .enable, enableKernelPreempt s⟩ :: tr) (enableKernelPreempt s)
  | disable {tr s} : FlagRun mem tr s →
      FlagRun mem (⟨s, .disable, disableKernelPreempt s⟩ :: tr) (disableKernelPreempt s)

/-- The code that runs is a process's that is on the list, allocated and PROC_RUNNING. -/
structure CurrentRuns (s : Kernel) : Prop where
  listed : s.proclist.current ∈ s.proclist.list
  allocated : s.proclist.current ∈ s.allocated
  running : (s.proc s.proclist.current).state = .running

/-- After the step the current process runs, if there is one, and it is not the one that has ended. -/
def Effective (e : FlagStep) : Prop :=
  (e.post.proclist.current ≠ 0 → CurrentRuns e.post) ∧
    (e.op = .call .exit → e.post.proclist.current ≠ e.pre.proclist.current)

/-- A process that sleeps or ends does so with preemption on. -/
def Preemptible (e : FlagStep) : Prop :=
  match e.op with
  | .call (.sleep _) => e.pre.proclist.current = 0 ∨ e.pre.proclist.kernelPreempt = true
  | .call .exit => e.pre.proclist.kernelPreempt = true
  | _ => True

/-- The table and the states are in order, whatever the flag. -/
def Steady (s : Kernel) : Prop :=
  ∃ n ks, Table n ks (enableKernelPreempt s) ∧ Settled n (enableKernelPreempt s)

section

variable {s s' : Kernel} {p k : U32} {op : Op} {fuel : Nat}

theorem enable_on (h : s.proclist.kernelPreempt = true) : enableKernelPreempt s = s := by
  unfold enableKernelPreempt
  rw [← h]

theorem Steady.flag (h : Steady s) : Steady (enableKernelPreempt s) ∧ Steady (disableKernelPreempt s) := ⟨h, h⟩

theorem Steady.runs (h : Steady s) (hc : s.proclist.current ≠ 0) : CurrentRuns s := by
  obtain ⟨n, ks, ht, hs⟩ := h
  exact ⟨hs.listed hc, ht.held _ (hs.listed hc), hs.running hc⟩

theorem Steady.step_on (h : Steady s) (hp : Permitted op s) (he : exec fuel op s = (true, s'))
    (hon : s.proclist.kernelPreempt = true) : Steady s' := by
  obtain ⟨n, ks, ht, hs⟩ := h
  rw [enable_on hon] at ht hs
  obtain ⟨n', ks', ht', hs'⟩ := step_inv ht hs hp he
  have hon' := enable_on ht'.preempt
  exact ⟨n', ks', by rwa [hon'], by rwa [hon']⟩

theorem create_enable (p k : U32) (s : Kernel) :
    enableKernelPreempt (createProcess p k s).2 = (createProcess p k (enableKernelPreempt s)).2 := by
  unfold createProcess
  by_cases hp : p = 0
  · rw [if_pos hp, if_pos hp]
  · rw [if_neg hp, if_neg hp]
    rfl

theorem Steady.create (h : Steady s) (hf : Fresh p k s) : Steady (createProcess p k s).2 := by
  obtain ⟨n, ks, ht, hs⟩ := h
  have hf' : Fresh p k (enableKernelPreempt s) := ⟨hf.proc_null, hf.stack_null, hf.apart, hf.proc_new, hf.stack_new⟩
  refine ⟨n + 1, k :: ks, ?_, ?_⟩
  · rw [create_enable]
    exact ht.create hf'
  · rw [create_enable]
    exact hs.create ht hf'

theorem Steady.expire (h : Steady s) : Steady (expireCurrent s) := by
  obtain ⟨n, ks, ht, hs⟩ := h
  have hst := expireCurrent_state s
  refine ⟨n, ks, ht.of_scheduled (scheduled_expire (enableKernelPreempt s)), hs.switched, fun h0 => ?_, hs.listed,
    fun hc => ?_, fun q hq hne => ?_⟩
  · exact ⟨(hs.undispatched h0).length, fun q hq => (hst q).trans ((hs.undispatched h0).ready q hq)⟩
  · exact (hst _).trans (hs.running hc)
  · have hw : Waiting (s.proc q) := hs.waiting q hq hne
    show Waiting ((expireCurrent s).proc q)
    unfold Waiting at hw ⊢
    rwa [hst]

theorem schedule_off (h : s.proclist.kernelPreempt = false) : schedule fuel s = (true, s) :=
  schedule_idle fun hs => absurd (h.symm.trans hs.1) (by decide)

/-- Off, a call that gives up the CPU comes back with what it did before. -/
theorem call_off {t : Kernel} (hoff : s.proclist.kernelPreempt = false) (hc : callsSchedule op s = some t)
    (he : exec fuel op s = (true, s')) : s' = t := by
  have hflag : t.proclist.kernelPreempt = s.proclist.kernelPreempt := by
    cases op <;> cases hc <;> rfl
  rw [exec_schedule hc, schedule_off (hflag.trans hoff)] at he
  exact (Prod.mk.inj he).2.symm

/-- A sleep before the first dispatch writes to the structure at NULL, which is not on the list. -/
theorem Steady.sleep_null {m : U32} (h : Steady s) (hc : s.proclist.current = 0) : Steady (sleepCurrent m s) := by
  obtain ⟨n, ks, ht, hs⟩ := h
  have hoff : ∀ q ∈ s.proclist.list, (sleepCurrent m s).proc q = s.proc q := by
    intro q hq
    refine modify_off _ _ _ ?_
    rw [getCurrentProcess, hc]
    exact fun e => ht.null_list (e ▸ hq)
  refine ⟨n, ks, ht.of_scheduled (scheduled_sleep m (enableKernelPreempt s)), hs.switched, fun h0 => ?_, hs.listed,
    fun hne => absurd hc hne, fun q hq hne => ?_⟩
  · refine ⟨(hs.undispatched h0).length, fun q hq => ?_⟩
    show ((sleepCurrent m s).proc q).state = _
    rw [hoff q hq]
    exact (hs.undispatched h0).ready q hq
  · show Waiting ((sleepCurrent m s).proc q)
    rw [hoff q hq]
    exact hs.waiting q hq hne

theorem Steady.exit_leaves (h : Steady s) (hc : s.proclist.current ≠ 0) (he : exec fuel .exit s = (true, s'))
    (h' : Steady s') : s'.proclist.current ≠ s.proclist.current := by
  obtain ⟨n, ks, ht, -⟩ := h
  have hsch : Scheduled (freeCurrent s) s' := (scheduled_expire _).trans (scheduled_schedule he)
  by_cases h0 : s'.proclist.current = 0
  · rw [h0]
    exact hc.symm
  · have hl := (h'.runs h0).listed
    rw [hsch.list] at hl
    exact ((List.Nodup.mem_erase_iff ht.nodup).1 hl).1

/-- **One step** from a state in order is effective just if it is no sleep or end with preemption
off, and then it leads to a state in order. -/
theorem Steady.step (h : Steady s) (hp : Permitted op s) (he : exec fuel op s = (true, s')) :
    (Effective ⟨s, .call op, s'⟩ ↔ Preemptible ⟨s, .call op, s'⟩) ∧ (Preemptible ⟨s, .call op, s'⟩ → Steady s') := by
  have hgood : Steady s' → op ≠ .exit → Effective ⟨s, .call op, s'⟩ :=
    fun h' hne => ⟨h'.runs, fun e => absurd (FlagOp.call.inj e) hne⟩
  cases hflag : s.proclist.kernelPreempt with
  | true =>
    have h' := h.step_on hp he hflag
    have hpre : Preemptible ⟨s, .call op, s'⟩ := by
      cases op with
      | sleep m => exact .inr hflag
      | exit => exact hflag
      | _ => trivial
    refine ⟨iff_of_true ?_ hpre, fun _ => h'⟩
    by_cases hx : op = .exit
    · subst hx
      exact ⟨h'.runs, fun _ => h.exit_leaves hp he h'⟩
    · exact hgood h' hx
  | false =>
    cases op with
    | create p k =>
      obtain rfl : (createProcess p k s).2 = s' := (Prod.mk.inj he).2
      have h' := h.create hp
      exact ⟨iff_of_true (hgood h' (by simp)) trivial, fun _ => h'⟩
    | timer =>
      obtain rfl := call_off hflag rfl he
      exact ⟨iff_of_true (hgood h (by simp)) trivial, fun _ => h⟩
    | expire =>
      obtain rfl := call_off hflag rfl he
      exact ⟨iff_of_true (hgood h.expire (by simp)) trivial, fun _ => h.expire⟩
    | sleep m =>
      obtain rfl := call_off hflag rfl he
      by_cases hc : s.proclist.current = 0
      · have h' := (h.sleep_null (m := m) hc).expire
        exact ⟨iff_of_true (hgood h' (by simp)) (.inl hc), fun _ => h'⟩
      · -- it is asleep, and goes on
        have hst : ((expireCurrent (sleepCurrent m s)).proc s.proclist.current).state = .sleeping := by
          rw [expireCurrent_state, sleepCurrent, getCurrentProcess, modify_same]
        have hno : ¬ Preemptible ⟨s, .call (.sleep m), expireCurrent (sleepCurrent m s)⟩ :=
          fun hq => hq.elim hc fun hon => absurd (hflag.symm.trans hon) (by decide)
        refine ⟨iff_of_false (fun hq => ?_) hno, fun hq => absurd hq hno⟩
        exact absurd (hst.symm.trans (hq.1 hc).running) (by decide)
    | exit =>
      obtain rfl := call_off hflag rfl he
      have hno : ¬ Preemptible ⟨s, .call .exit, expireCurrent (freeCurrent s)⟩ :=
        fun hon => absurd (hflag.symm.trans hon) (by decide)
      exact ⟨iff_of_false (fun hq => hq.2 rfl rfl) hno, fun hq => absurd hq hno⟩

end

theorem steady_init (mem : U32 → Process) : Steady (initProcess mem) :=
  ⟨0, [], table_booted mem, settled_booted mem⟩

theorem flagRun_steady {mem : U32 → Process} {tr : List FlagStep} {s : Kernel} (h : FlagRun mem tr s)
    (hpre : ∀ e ∈ tr, Preemptible e) : Steady s := by
  induction h with
  | start => exact steady_init mem
  | call fuel op _ hp he ih =>
    obtain ⟨hpre, hpres⟩ := List.forall_mem_cons.1 hpre
    exact ((ih hpres).step hp he).2 hpre
  | enable _ ih => exact (ih (List.forall_mem_cons.1 hpre).2).flag.1
  | disable _ ih => exact (ih (List.forall_mem_cons.1 hpre).2).flag.2

/-- **Giving up the CPU is effective** in all of a run just if `process_sleep` and `process_end` are called
with preemption on: then after every step the current process is listed, allocated and running, and
`process_end` has left the process that called it. -/
theorem gives_up_iff {mem : U32 → Process} {tr : List FlagStep} {s : Kernel} (h : FlagRun mem tr s) :
    (∀ e ∈ tr, Effective e) ↔ ∀ e ∈ tr, Preemptible e := by
  induction h with
  | start => simp
  | @call tr s s' fuel op hr hp he ih =>
    rw [List.forall_mem_cons, List.forall_mem_cons, ih]
    exact and_congr_left fun hpre => ((flagRun_steady hr hpre).step hp he).1
  | @enable tr s hr ih =>
    rw [List.forall_mem_cons, List.forall_mem_cons, ih]
    refine and_congr_left fun hpre => iff_of_true ⟨?_, fun e => nomatch e⟩ trivial
    have hs : Steady (enableKernelPreempt s) := (flagRun_steady hr hpre).flag.1
    exact hs.runs
  | @disable tr s hr ih =>
    rw [List.forall_mem_cons, List.forall_mem_cons, ih]
    refine and_congr_left fun hpre => iff_of_true ⟨?_, fun e => nomatch e⟩ trivial
    have hs : Steady (disableKernelPreempt s) := (flagRun_steady hr hpre).flag.2
    exact hs.runs

/-! Two processes, and preemption off. -/

theorem flagRun_after {mem : U32 → Process} {tr : List FlagStep} {s : Kernel} (h : FlagRun mem tr s) (op : Op)
    (hp : Permitted op s) (he : (exec 2 op s).1 = true) : FlagRun mem (⟨s, .call op, after op s⟩ :: tr) (after op s) :=
  FlagRun.call 2 op h hp (Prod.ext he rfl)

/-- Both processes created and the first one current, with preemption turned off again. -/
def pinned : Kernel := disableKernelPreempt (after .timer sampleTwo)

theorem pinned_run : ∃ tr, FlagRun zeroMem tr pinned ∧ ∀ e ∈ tr, Preemptible e := by
  have h : FlagRun zeroMem _ _ := FlagRun.enable FlagRun.start
  have h := flagRun_after h (.create 0xC000A014 0xC000A084) (by constructor <;> decide) rfl
  have h := flagRun_after h (.create 0xC000B098 0xC000B108) (by constructor <;> decide) rfl
  have h := flagRun_after h .timer trivial (by decide)
  exact ⟨_, FlagRun.disable h, by simp [Preemptible]⟩

/-- Three processes: the first goes to sleep, the second ends, and preemption is turned off and on again. -/
theorem gives_up_sample : ∃ tr s, FlagRun zeroMem tr s ∧
    (∃ e ∈ tr, e.op = .call (.sleep 5) ∧ e.pre.proclist.current = 0xC000A014 ∧ e.post.proclist.current = 0xC000B098) ∧
    (∃ e ∈ tr, e.op = .call .exit ∧ e.pre.proclist.current = 0xC000B098 ∧ e.post.proclist.current = 0xC000C11C) ∧
    (∃ e ∈ tr, e.op = .disable) ∧ ∀ e ∈ tr, Effective e := by
  have h : FlagRun zeroMem _ _ := FlagRun.enable FlagRun.start
  have h := flagRun_after h (.create 0xC000A014 0xC000A084) (by constructor <;> decide) rfl
  have h := flagRun_after h (.create 0xC000B098 0xC000B108) (by constructor <;> decide) rfl
  have h := flagRun_after h (.create 0xC000C11C 0xC000C18C) (by constructor <;> decide) rfl
  have h := flagRun_after h .timer trivial (by decide)
  have h := flagRun_after h (.sleep 5) trivial (by decide)
  have h := flagRun_after h .exit (by rw [Permitted]; decide) (by decide)
  have h := FlagRun.enable (FlagRun.disable h)
  refine ⟨_, _, h, ?_, ?_, ?_, (gives_up_iff h).2 ?_⟩
  · exact ⟨_, .tail _ (.tail _ (.tail _ (.head _))), rfl, by decide, by decide⟩
  · exact ⟨_, .tail _ (.tail _ (.head _)), rfl, by decide, by decide⟩
  · exact ⟨_, .tail _ (.head _), rfl⟩
  · have hflag : (after (.sleep 5) (after .timer
        (after (.create 0xC000C11C 0xC000C18C) sampleTwo))).proclist.kernelPreempt = true := by
      decide
    simp only [List.forall_mem_cons]
    exact ⟨trivial, trivial, hflag, .inr (by decide), trivial, trivial, trivial, trivial, trivial, by simp⟩

/-- The first process goes on after its `process_end`, freed and off the list; and asleep after its
`process_sleep`. -/
theorem gives_up_not : (∃ tr s, FlagRun zeroMem (⟨pinned, .call .exit, s⟩ :: tr) s ∧
      s.proclist.current = pinned.proclist.current ∧ s.proclist.current ∉ s.allocated) ∧
    ∃ tr s, FlagRun zeroMem (⟨pinned, .call (.sleep 5), s⟩ :: tr) s ∧
      s.proclist.current = pinned.proclist.current ∧ (s.proc s.proclist.current).state = .sleeping := by
  obtain ⟨tr, h, -⟩ := pinned_run
  refine ⟨⟨tr, _, flagRun_after h .exit (by rw [Permitted]; decide) (by decide), by decide, by decide⟩,
    tr, _, flagRun_after h (.sleep 5) trivial (by decide), by decide, by decide⟩

end LineOS
