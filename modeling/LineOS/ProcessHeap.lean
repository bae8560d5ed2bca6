import LineOS.HeapRun
import LineOS.ProcessInv

/- The process list over the kernel heap. `System` runs the scheduler and `heap.c`
   side by side: `create_process` takes what two calls of `kmalloc` return,
   `process_end` frees with `kfree`, and other code uses the heap in between.

   `system_run` is that this is an instance of both models: the heap's part is a
   run of the heap, the scheduler's part a run with fresh blocks at every
   creation, and the blocks counted as held are live payloads of the heap. -/
namespace LineOS
open ByteMemory

/-- `sizeof(process_t)` -/
def procSize : U32 := 84
/-- `k_sysmem.page_size`, the size of a stack. -/
def stackSize : U32 := 4096

inductive System (L : HeapLayout) (mem : U32 → Process) : Heap → List (U32 × U32) → Kernel → Prop
  /-- `init_process` on a heap in use. -/
  | boot {hp live} : Reach L hp live → System L mem hp live (booted mem)
  | create {hp live s p hp' k hp''} : System L mem hp live s →
      Admissible L procSize hp → kmalloc L procSize hp = some (p, hp') →
      Admissible L stackSize hp' → kmalloc L stackSize hp' = some (k, hp'') →
      System L mem hp'' ((k, stackSize) :: (p, procSize) :: live) (createProcess p k s).2
  /-- A timer interrupt, or a call that gives up the CPU. -/
  | call {hp live s s'} (fuel : Nat) (op : Op) : System L mem hp live s →
      op = .timer ∨ op = .expire ∨ (∃ n, op = .sleep n) → exec fuel op s = (true, s') →
      System L mem hp live s'
  | exit {hp live s s'} (fuel : Nat) : System L mem hp live s → s.proclist.current ≠ 0 →
      exec fuel .exit s = (true, s') →
      System L mem (kfree s.proclist.current hp) (live.erase (s.proclist.current, procSize)) s'
  /-- Other code allocates, frees what is its own, and writes. -/
  | kmalloc {hp live s bytes p hp'} : System L mem hp live s → bytes ≠ 0 → Admissible L bytes hp →
      kmalloc L bytes hp = some (p, hp') → System L mem hp' ((p, bytes) :: live) s
  | kfree {hp live s} (l : U32 × U32) : System L mem hp live s → l ∈ live → l.1 ∉ s.allocated →
      System L mem (kfree l.1 hp) (live.erase l) s
  | client {hp live s} (x : U32) (v : U8) : System L mem hp live s → ClientByte L hp live x →
      System L mem { hp with mem := hp.mem.store8 x v } live s

/-- The blocks of the processes are live payloads, the structures at their size. -/
structure HeldBlocks (live : List (U32 × U32)) (s : Kernel) : Prop where
  blocks : ∀ a ∈ s.allocated, ∃ l ∈ live, l.1 = a
  procs : ∀ p ∈ s.proclist.list, (p, procSize) ∈ live

section
variable {L : HeapLayout} {hp hp' hp'' : Heap} {live : List (U32 × U32)} {s t : Kernel} {p k : U32}

theorem kmalloc_fresh {bytes : U32} (h : Sound L hp live) (hne : bytes ≠ 0) (had : Admissible L bytes hp)
    (hk : kmalloc L bytes hp = some (p, hp')) : p ≠ 0 ∧ ∀ l ∈ live, l.1 ≠ p := by
  obtain ⟨bs, hi, hl⟩ := h.kmalloc hne had hk
  refine ⟨?_, fun l hlm e => (List.pairwise_cons.mp hl.distinct).1 l hlm e.symm⟩
  obtain ⟨b, hb, _, hbp, _⟩ := hl.owner _ List.mem_cons_self
  have := payload_toNat hi hb
  rw [← hbp] at this
  intro e
  rw [e] at this
  simp at this

theorem HeldBlocks.mono {live' : List (U32 × U32)} (h : HeldBlocks live s) (hs : ∀ l ∈ live, l ∈ live') :
    HeldBlocks live' s := by
  refine ⟨fun a ha => ?_, fun p hp => hs _ (h.procs p hp)⟩
  obtain ⟨l, hl, e⟩ := h.blocks a ha
  exact ⟨l, hs l hl, e⟩

theorem HeldBlocks.scheduled (h : HeldBlocks live s) (hs : Scheduled s t) : HeldBlocks live t := by
  refine ⟨?_, ?_⟩
  · rw [hs.allocated]
    exact h.blocks
  · rw [hs.list]
    exact h.procs

theorem fresh_blocks (hr : Reach L hp live) (hh : HeldBlocks live s)
    (had : Admissible L procSize hp) (hk : kmalloc L procSize hp = some (p, hp'))
    (had' : Admissible L stackSize hp') (hk' : kmalloc L stackSize hp' = some (k, hp'')) : Fresh p k s := by
  obtain ⟨hp0, hpn⟩ := kmalloc_fresh (run_inv hr) (by decide) had hk
  obtain ⟨hk0, hkn⟩ := kmalloc_fresh ((run_inv hr).kmalloc (by decide) had hk) (by decide) had' hk'
  refine ⟨hp0, hk0, hkn _ List.mem_cons_self, fun hm => ?_, fun hm => ?_⟩
  · obtain ⟨l, hl, e⟩ := hh.blocks p hm
    exact hpn l hl e
  · obtain ⟨l, hl, e⟩ := hh.blocks k hm
    exact hkn l (List.mem_cons_of_mem _ hl) e

theorem HeldBlocks.create (h : HeldBlocks live s) (hf : Fresh p k s) :
    HeldBlocks ((k, stackSize) :: (p, procSize) :: live) (createProcess p k s).2 := by
  refine ⟨fun a ha => ?_, fun q hq => ?_⟩
  · rw [createProcess_allocated hf] at ha
    obtain rfl | ha := List.mem_cons.mp ha
    · exact ⟨_, List.mem_cons_self, rfl⟩
    obtain rfl | ha := List.mem_cons.mp ha
    · exact ⟨_, List.mem_cons_of_mem _ List.mem_cons_self, rfl⟩
    · obtain ⟨l, hl, e⟩ := h.blocks a ha
      exact ⟨l, List.mem_cons_of_mem _ (List.mem_cons_of_mem _ hl), e⟩
  · rw [createProcess_proclist hf] at hq
    obtain hq | hq := List.mem_append.mp hq
    · exact List.mem_cons_of_mem _ (List.mem_cons_of_mem _ (h.procs q hq))
    · rw [List.mem_singleton.mp hq]
      exact List.mem_cons_of_mem _ List.mem_cons_self

theorem HeldBlocks.free {n : Nat} {ks : List U32} (h : HeldBlocks live s) (ht : Table n ks s) :
    HeldBlocks (live.erase (s.proclist.current, procSize)) (freeCurrent s) := by
  refine ⟨fun a ha => ?_, fun q hq => ?_⟩
  · obtain ⟨hne, ha⟩ := (List.Nodup.mem_erase_iff ht.blocks).mp ha
    obtain ⟨l, hl, e⟩ := h.blocks a ha
    have hlc : l ≠ (s.proclist.current, procSize) := fun hl' => hne (e.symm.trans (congrArg Prod.fst hl'))
    exact ⟨l, (List.mem_erase_of_ne hlc).mpr hl, e⟩
  · obtain ⟨hne, hq⟩ := (List.Nodup.mem_erase_iff ht.nodup).mp hq
    exact (List.mem_erase_of_ne fun he => hne (congrArg Prod.fst he)).mpr (h.procs q hq)

theorem HeldBlocks.erase {l : U32 × U32} (h : HeldBlocks live s) (hl : l.1 ∉ s.allocated)
    (hheld : ∀ p ∈ s.proclist.list, p ∈ s.allocated) : HeldBlocks (live.erase l) s := by
  refine ⟨fun a ha => ?_, fun q hq => ?_⟩
  · obtain ⟨m, hm, e⟩ := h.blocks a ha
    exact ⟨m, (List.mem_erase_of_ne fun hml => hl (by rw [← hml, e]; exact ha)).mpr hm, e⟩
  · refine (List.mem_erase_of_ne fun hql => hl ?_).mpr (h.procs q hq)
    rw [← hql]
    exact hheld q hq

end

/-- **The scheduler over the heap** runs as the heap alone and the scheduler alone do. -/
theorem system_run {L : HeapLayout} {mem : U32 → Process} {hp : Heap} {live : List (U32 × U32)} {s : Kernel}
    (h : System L mem hp live s) : Reach L hp live ∧ (∃ tr, Run (booted mem) tr true s) ∧ HeldBlocks live s := by
  induction h with
  | boot hr => exact ⟨hr, ⟨[], Run.start⟩, by constructor <;> simp [booted, enableKernelPreempt, initProcess]⟩
  | create _ had hk had' hk' ih =>
    obtain ⟨hr, ⟨tr, h⟩, hh⟩ := ih
    have hf := fresh_blocks hr hh had hk had' hk'
    have hr' := Reach.kmalloc hr (by decide) had hk
    exact ⟨Reach.kmalloc hr' (by decide) had' hk', ⟨_, Run.step 0 (.create _ _) h hf rfl⟩, hh.create hf⟩
  | call fuel op _ hop he ih =>
    obtain ⟨hr, ⟨tr, h⟩, hh⟩ := ih
    obtain rfl | rfl | ⟨n, rfl⟩ := hop
    · exact ⟨hr, ⟨_, Run.step fuel .timer h trivial he⟩, hh.scheduled (scheduled_schedule he)⟩
    · refine ⟨hr, ⟨_, Run.step fuel .expire h trivial he⟩, hh.scheduled ?_⟩
      exact (scheduled_expire _).trans (scheduled_schedule he)
    · refine ⟨hr, ⟨_, Run.step fuel (.sleep n) h trivial he⟩, hh.scheduled ?_⟩
      exact ((scheduled_sleep n _).trans (scheduled_expire _)).trans (scheduled_schedule he)
  | exit fuel _ hc he ih =>
    obtain ⟨hr, ⟨tr, h⟩, hh⟩ := ih
    obtain ⟨n, ks, ht, hs⟩ := booted_inv h
    refine ⟨Reach.kfree _ hr (hh.procs _ (hs.listed hc)), ⟨_, Run.step fuel .exit h hc he⟩, ?_⟩
    exact (hh.free ht).scheduled ((scheduled_expire _).trans (scheduled_schedule he))
  | kmalloc _ hne had hk ih =>
    obtain ⟨hr, h, hh⟩ := ih
    exact ⟨Reach.kmalloc hr hne had hk, h, hh.mono fun _ hl => List.mem_cons_of_mem _ hl⟩
  | kfree l _ hl hla ih =>
    obtain ⟨hr, ⟨tr, h⟩, hh⟩ := ih
    obtain ⟨n, ks, ht, _⟩ := booted_inv h
    exact ⟨Reach.kfree l hr hl, ⟨tr, h⟩, hh.erase hla ht.held⟩
  | client x v _ hx ih =>
    obtain ⟨hr, h, hh⟩ := ih
    exact ⟨Reach.client x v hr hx, h, hh⟩

end LineOS
