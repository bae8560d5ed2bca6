import LineOS.HeapSafety
import LineOS.ProcessHeap
import LineOS.ProcessRun

/- What `create_process` takes and `process_end` gives back. `Lifetimes` runs the system as
   `System` does and keeps the two blocks of every process: of those on the list, in order, and
   of those that have ended. `process_end` takes the process off the list and frees its
   structure; the stack stays a used block, and `k_proclist.count` is not lowered
   (`process_end_never_undoes`). So the count and the blocks held are those of the processes on the
   list just as long as none has ended (`processes_balanced_iff`). -/
namespace LineOS
open ByteMemory ByteMemory.Mem

/-- Runs of the system, with the structure and the stack of each process on the list, and of each ended. -/
inductive Lifetimes (L : HeapLayout) (mem : U32 → Process) :
    Heap → List (U32 × U32) → Kernel → List (U32 × U32) → List (U32 × U32) → Prop
  | boot {hp live} : Reach L hp live → Lifetimes L mem hp live (booted mem) [] []
  | create {hp live s procs ended p hp' k hp''} : Lifetimes L mem hp live s procs ended →
      Admissible L procSize hp → kmalloc L procSize hp = some (p, hp') →
      Admissible L stackSize hp' → kmalloc L stackSize hp' = some (k, hp'') →
      Lifetimes L mem hp'' ((k, stackSize) :: (p, procSize) :: live) (createProcess p k s).2
        (procs ++ [(p, k)]) ended
  | call {hp live s procs ended s'} (fuel : Nat) (op : Op) : Lifetimes L mem hp live s procs ended →
      op = .timer ∨ op = .expire ∨ (∃ n, op = .sleep n) → exec fuel op s = (true, s') →
      Lifetimes L mem hp live s' procs ended
  | exit {hp live s pre post ended k s'} (fuel : Nat) :
      Lifetimes L mem hp live s (pre ++ (s.proclist.current, k) :: post) ended → s.proclist.current ≠ 0 →
      exec fuel .exit s = (true, s') →
      Lifetimes L mem (kfree s.proclist.current hp) (live.erase (s.proclist.current, procSize)) s' (pre ++ post)
        ((s.proclist.current, k) :: ended)
  | kmalloc {hp live s procs ended bytes p hp'} : Lifetimes L mem hp live s procs ended → bytes ≠ 0 →
      Admissible L bytes hp → kmalloc L bytes hp = some (p, hp') →
      Lifetimes L mem hp' ((p, bytes) :: live) s procs ended
  | kfree {hp live s procs ended} (l : U32 × U32) : Lifetimes L mem hp live s procs ended → l ∈ live →
      l.1 ∉ s.allocated → Lifetimes L mem (kfree l.1 hp) (live.erase l) s procs ended
  | client {hp live s procs ended} (x : U32) (v : U8) : Lifetimes L mem hp live s procs ended →
      ClientByte L hp live x → Lifetimes L mem { hp with mem := hp.mem.store8 x v } live s procs ended

/-- `ptr->state & KMALLOC_USED` of the block behind a payload. -/
def BlockUsed (hp : Heap) (a : U32) : Prop := stateUsed (headState hp.mem (a - headLen)) = true

/-- The list, the blocks held and the count, in terms of the processes. -/
structure Accounts (s : Kernel) (procs ended : List (U32 × U32)) : Prop where
  list : s.proclist.list = procs.map Prod.fst
  blocks : s.allocated.Perm (procs.map Prod.fst ++ (procs.map Prod.snd ++ ended.map Prod.snd))
  count : s.proclist.count.toNat = procs.length + ended.length

section

variable {L : HeapLayout} {mem : U32 → Process} {hp : Heap} {live : List (U32 × U32)} {s s' : Kernel}
  {procs ended pre post : List (U32 × U32)} {p k : U32} {n : Nat} {ks : List U32}

theorem lifetimes_system (h : Lifetimes L mem hp live s procs ended) : System L mem hp live s := by
  induction h with
  | boot hr => exact .boot hr
  | create _ had hk had' hk' ih => exact .create ih had hk had' hk'
  | call fuel op _ hop he ih => exact .call fuel op ih hop he
  | exit fuel _ hc he ih => exact .exit fuel ih hc he
  | kmalloc _ hne had hk ih => exact .kmalloc ih hne had hk
  | kfree l _ hl hla ih => exact .kfree l ih hl hla
  | client x v _ hx ih => exact .client x v ih hx

/-! The accounts. -/

theorem Accounts.scheduled (h : Accounts s procs ended) (hs : Scheduled s s') : Accounts s' procs ended := by
  refine ⟨?_, ?_, ?_⟩
  · rw [hs.list]
    exact h.list
  · rw [hs.allocated]
    exact h.blocks
  · rw [hs.count]
    exact h.count

theorem Accounts.create (h : Accounts s procs ended) (ht : Table n ks s) (hf : Fresh p k s) :
    Accounts (createProcess p k s).2 (procs ++ [(p, k)]) ended := by
  have hcount := (ht.create hf).count
  have hn := h.count
  rw [ht.count] at hn
  refine ⟨?_, ?_, ?_⟩
  · rw [createProcess_list hf, h.list, List.map_append]
    rfl
  · have hb := h.blocks
    rw [createProcess_allocated hf, List.perm_iff_count]
    rw [List.perm_iff_count] at hb
    intro a
    have := hb a
    simp only [List.map_append, List.map_cons, List.map_nil, List.count_append, List.count_cons, List.count_nil] at this ⊢
    omega
  · rw [hcount, List.length_append, hn, List.length_singleton]
    omega

theorem Accounts.free (h : Accounts s (pre ++ (s.proclist.current, k) :: post) ended) (ht : Table n ks s) :
    Accounts (freeCurrent s) (pre ++ post) ((s.proclist.current, k) :: ended) := by
  have hlist := h.list
  have hn := ht.nodup
  rw [List.map_append, List.map_cons] at hlist
  rw [hlist] at hn
  have hpre : s.proclist.current ∉ pre.map Prod.fst := fun hm =>
    (List.nodup_append.1 hn).2.2 _ hm _ List.mem_cons_self rfl
  refine ⟨?_, ?_, ?_⟩
  · show s.proclist.list.erase s.proclist.current = _
    rw [hlist, List.erase_append_right _ hpre, List.erase_cons_head, List.map_append]
  · show (s.allocated.erase s.proclist.current).Perm _
    have hb := h.blocks
    rw [List.perm_iff_count] at hb ⊢
    intro a
    have := hb a
    rw [List.count_erase]
    simp only [List.map_append, List.map_cons, List.count_append, List.count_cons] at this ⊢
    omega
  · have hc := h.count
    show s.proclist.count.toNat = _
    rw [hc]
    simp only [List.length_append, List.length_cons]
    omega

/-- **The accounts of every run.** -/
theorem lifetimes_accounts (h : Lifetimes L mem hp live s procs ended) : Accounts s procs ended := by
  induction h with
  | boot _ => exact ⟨rfl, List.Perm.nil, rfl⟩
  | create h had hk had' hk' ih =>
    obtain ⟨hr, ⟨tr, hrun⟩, hh⟩ := system_run (lifetimes_system h)
    obtain ⟨n, ks, ht, -⟩ := booted_inv hrun
    exact ih.create ht (fresh_blocks hr hh had hk had' hk')
  | call fuel op _ hop he ih =>
    obtain rfl | rfl | ⟨m, rfl⟩ := hop
    · exact ih.scheduled (scheduled_schedule he)
    · exact ih.scheduled ((scheduled_expire _).trans (scheduled_schedule he))
    · exact ih.scheduled (((scheduled_sleep m _).trans (scheduled_expire _)).trans (scheduled_schedule he))
  | exit fuel h _ he ih =>
    obtain ⟨-, ⟨tr, hrun⟩, -⟩ := system_run (lifetimes_system h)
    obtain ⟨n, ks, ht, -⟩ := booted_inv hrun
    exact (ih.free ht).scheduled ((scheduled_expire _).trans (scheduled_schedule he))
  | kmalloc _ _ _ _ ih => exact ih
  | kfree _ _ _ _ ih => exact ih
  | client _ _ _ _ ih => exact ih

theorem held_used (h : System L mem hp live s) {a : U32} (ha : a ∈ s.allocated) : BlockUsed hp a := by
  obtain ⟨hr, -, hh⟩ := system_run h
  obtain ⟨bs, hi, hl⟩ := run_inv hr
  obtain ⟨l, hlm, rfl⟩ := hh.blocks a ha
  obtain ⟨b, hb, hbu, hbp, -⟩ := hl.owner l hlm
  rw [BlockUsed, hbp, payload_sub, (hi.headers b hb).state]
  exact hbu

theorem kfree_unused {l : U32 × U32} (hr : Reach L hp live) (hl : l ∈ live) : ¬ BlockUsed (kfree l.1 hp) l.1 := by
  obtain ⟨bs, hi, hlive⟩ := run_inv hr
  obtain ⟨b, hb, -, hbp, -⟩ := hlive.owner l hl
  obtain ⟨pre, post, rfl⟩ := List.append_of_mem hb
  rw [hbp]
  have hst := ((kfree_step hi).1.headers { b with state := 0 } (by simp)).state
  rw [BlockUsed, payload_sub]
  have h0 : stateUsed 0 = false := by decide
  show ¬ stateUsed (headState (kfree b.payload hp).mem b.addr) = true
  rw [hst, h0]
  decide

/-! What the end of a process gives back. -/

/-- How many of the blocks the processes hold are used blocks of the heap. -/
def heldUsed (hp : Heap) (s : Kernel) : Nat := s.allocated.countP fun a => stateUsed (headState hp.mem (a - headLen))

/-- The count is the length of the list, and every process on it holds two used blocks. -/
def InBalance (hp : Heap) (s : Kernel) : Prop :=
  s.proclist.count.toNat = s.proclist.list.length ∧ heldUsed hp s = 2 * s.proclist.list.length

/-- The current process of `s`, with the stack `k`, has been ended: `s'` and `hp'` are as if it had
never been created. -/
structure Undone (hp' : Heap) (s s' : Kernel) (k : U32) : Prop where
  list : s'.proclist.list = s.proclist.list.erase s.proclist.current
  count : s'.proclist.count.toNat = s'.proclist.list.length
  proc : ¬ BlockUsed hp' s.proclist.current
  stack : ¬ BlockUsed hp' k

theorem heldUsed_eq (h : System L mem hp live s) : heldUsed hp s = s.allocated.length :=
  List.countP_eq_length.2 fun _ ha => held_used h ha

/-- The count and the blocks of a run, in terms of the processes that have ended. -/
theorem lifetimes_balance (h : Lifetimes L mem hp live s procs ended) :
    s.proclist.count.toNat = s.proclist.list.length + ended.length ∧
    heldUsed hp s = 2 * s.proclist.list.length + ended.length := by
  have ha := lifetimes_accounts h
  have hl : s.proclist.list.length = procs.length := by rw [ha.list, List.length_map]
  refine ⟨by rw [ha.count, hl], ?_⟩
  rw [heldUsed_eq (lifetimes_system h), ha.blocks.length_eq, hl]
  simp only [List.length_append, List.length_map]
  omega

theorem processes_balanced_iff (h : Lifetimes L mem hp live s procs ended) : InBalance hp s ↔ ended = [] := by
  obtain ⟨hc, hu⟩ := lifetimes_balance h
  rw [← List.length_eq_zero_iff, InBalance, hc, hu]
  omega

theorem exit_frees {fuel : Nat} (h : System L mem hp live s) (hc : s.proclist.current ≠ 0)
    (he : exec fuel .exit s = (true, s')) : s'.proclist.list = s.proclist.list.erase s.proclist.current ∧
      ¬ BlockUsed (kfree s.proclist.current hp) s.proclist.current := by
  obtain ⟨hr, ⟨tr, hrun⟩, hh⟩ := system_run h
  obtain ⟨n, ks, ht, hs⟩ := booted_inv hrun
  have hproc : (s.proclist.current, procSize) ∈ live := hh.procs _ (hs.listed hc)
  have hsch : Scheduled (freeCurrent s) s' := (scheduled_expire _).trans (scheduled_schedule he)
  have hfree := kfree_unused hr hproc
  exact ⟨hsch.list, hfree⟩

theorem exit_keeps {fuel : Nat} (h : Lifetimes L mem hp live s procs ended) (hc : s.proclist.current ≠ 0)
    (hk : (s.proclist.current, k) ∈ procs) (he : exec fuel .exit s = (true, s')) :
    BlockUsed (kfree s.proclist.current hp) k ∧ s'.proclist.count.toNat ≠ s'.proclist.list.length := by
  obtain ⟨pre, post, rfl⟩ := List.append_of_mem hk
  have h' := Lifetimes.exit fuel h hc he
  have hmem : k ∈ s'.allocated := (lifetimes_accounts h').blocks.mem_iff.2 (by simp)
  refine ⟨held_used (lifetimes_system h') hmem, ?_⟩
  rw [(lifetimes_balance h').1, List.length_cons]
  omega

/-- **`process_end` never undoes `create_process`**: in every run, the end of the current process takes it
off the list and frees its structure, but its stack stays a used block and the count is not the length
of the list; and the count and the blocks held match the list just if no process has ended so far. -/
theorem process_end_never_undoes (h : Lifetimes L mem hp live s procs ended) : (InBalance hp s ↔ ended = []) ∧
    ∀ fuel k s', (s.proclist.current, k) ∈ procs → s.proclist.current ≠ 0 → exec fuel .exit s = (true, s') →
      s'.proclist.list = s.proclist.list.erase s.proclist.current ∧
      ¬ BlockUsed (kfree s.proclist.current hp) s.proclist.current ∧
      BlockUsed (kfree s.proclist.current hp) k ∧
      s'.proclist.count.toNat ≠ s'.proclist.list.length ∧ ¬ Undone (kfree s.proclist.current hp) s s' k := by
  refine ⟨processes_balanced_iff h, fun fuel k s' hk hc he => ?_⟩
  obtain ⟨hlist, hproc⟩ := exit_frees (lifetimes_system h) hc he
  obtain ⟨hstack, hcount⟩ := exit_keeps h hc hk he
  exact ⟨hlist, hproc, hstack, hcount, fun hu => hu.stack hstack⟩

end

/-! Two processes on an empty heap, and the end of the first. -/

def twoProcesses : Kernel :=
  after .timer (createProcess 0xC000B090 0xC000B0F8 (createProcess 0xC000A014 0xC000A07C (booted zeroMem)).2).2

theorem twoProcesses_run : ∃ hp live, Lifetimes sampleLayout zeroMem hp live twoProcesses
    [(0xC000A014, 0xC000A07C), (0xC000B090, 0xC000B0F8)] [] := by
  have h₁ : Lifetimes sampleLayout zeroMem _ _ _ ([] ++ [(0xC000A014, 0xC000A07C)]) [] :=
    Lifetimes.create (.boot (Reach.init dirtyMem)) (Or.inr (by decide)) rfl (Or.inr (by decide)) rfl
  have h₂ := Lifetimes.create h₁ (p := 0xC000B090) (k := 0xC000B0F8) (Or.inr (by decide)) rfl (Or.inr (by decide)) rfl
  exact ⟨_, _, Lifetimes.call 2 .timer h₂ (.inl rfl) (Prod.ext (by decide) rfl)⟩

/-- As long as both live the accounts balance. The end of the first takes it off the list and frees its structure,
and from then on the stack is still used and the accounts do not balance. -/
theorem process_end_sample : ∃ hp live, Lifetimes sampleLayout zeroMem hp live twoProcesses
      [(0xC000A014, 0xC000A07C), (0xC000B090, 0xC000B0F8)] [] ∧ InBalance hp twoProcesses ∧
    exec 2 .exit twoProcesses = (true, after .exit twoProcesses) ∧
    (after .exit twoProcesses).proclist.list = [0xC000B090] ∧ ¬ BlockUsed (kfree 0xC000A014 hp) 0xC000A014 ∧
    BlockUsed (kfree 0xC000A014 hp) 0xC000A07C ∧ ¬ InBalance (kfree 0xC000A014 hp) (after .exit twoProcesses) := by
  obtain ⟨hp, live, h⟩ := twoProcesses_run
  obtain ⟨hbalance, hend⟩ := process_end_never_undoes h
  have he : exec 2 .exit twoProcesses = (true, after .exit twoProcesses) := Prod.ext (by decide) rfl
  have hcur : twoProcesses.proclist.current = 0xC000A014 := by decide
  obtain ⟨hlist, hproc, hstack, -⟩ := hend 2 0xC000A07C _ (by rw [hcur]; exact List.mem_cons_self) (by decide) he
  rw [hcur] at hproc hstack
  have h' : Lifetimes sampleLayout zeroMem hp live twoProcesses
      ([] ++ (twoProcesses.proclist.current, 0xC000A07C) :: [(0xC000B090, 0xC000B0F8)]) [] := by
    rw [hcur]
    exact h
  have hafter := process_end_never_undoes (Lifetimes.exit 2 h' (by decide) he)
  rw [hcur] at hafter
  exact ⟨hp, live, h, hbalance.2 rfl, he, hlist.trans (by decide), hproc, hstack,
    fun hb => List.cons_ne_nil _ _ (hafter.1.1 hb)⟩

/-- Its end leaves a count of 2 for a list of one process. -/
theorem process_end_keeps : ∃ hp live, Lifetimes sampleLayout zeroMem hp live twoProcesses
    [(0xC000A014, 0xC000A07C), (0xC000B090, 0xC000B0F8)] [] ∧
    exec 2 .exit twoProcesses = (true, after .exit twoProcesses) ∧
    (after .exit twoProcesses).proclist.list = [0xC000B090] ∧ (after .exit twoProcesses).proclist.count = 2 ∧
    ¬ Undone (kfree twoProcesses.proclist.current hp) twoProcesses (after .exit twoProcesses) 0xC000A07C := by
  obtain ⟨hp, live, h⟩ := twoProcesses_run
  refine ⟨hp, live, h, Prod.ext (by decide) rfl, by decide, by decide, fun hu => ?_⟩
  exact absurd hu.count (by decide)

end LineOS
