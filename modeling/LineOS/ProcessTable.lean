import LineOS.HeapStore
import LineOS.ProcessRefines

/- The process table over whole runs, in memory and as records. `TableRun` runs the functions of `process.c` on the heap
   and its bytes, from `init_process` on: `create_process` with the real `kmalloc`, the calls of `schedule`, and
   `process_end` with the real `kfree`, while other code calls the heap and stores to its own memory. `table_refines` is
   that such a run is a run of the records, step for step, that the heap stays in order, and that no call of `schedule`
   gets lost in the list. -/
namespace LineOS
open ByteMemory ByteMemory.Mem LinkedRing SlotStack

/-! The table and the heap. -/

/-- `k_proclist` lies in the kernel image, apart from the heap's head. -/
structure ImageTable (L : HeapLayout) (klist : U32) : Prop where
  lo : kVirStart.toNat ≤ klist.toNat
  hi : klist.toNat + 24 ≤ L.kernelEnd.toNat
  apart : ∀ x, InSpan klist 24 x → ¬ InSpan L.chain 16 x

/-- The new stack is the last thing in the heap, or its block has three bytes to spare: what `create_process` stores
past its end hits no header. -/
def StackSpare (L : HeapLayout) (name : U32) (g : ProcGlobals) (s : Heap) (p k : U32) : Prop :=
  ∀ s₁ s₂, kmalloc L procSize s = some (p, s₁) →
    kmalloc L stackSize { s₁ with mem := fillProcess p g.pidcnt name s₁.mem } = some (k, s₂) →
    s₂.brk = k + stackSize ∨ stackSize + 3 ≤ headSize s₂.mem (k - headLen)

section
variable {L : HeapLayout} {klist name p k : U32} {s s' : Heap} {live : List (U32 × U32)} {ps held : List U32}

/-- The structures are payloads, but for the one at NULL. -/
def Payloads (live : List (U32 × U32)) (ps : List U32) : Prop := ∀ q ∈ ps, q = 0 ∨ (q, procSize) ∈ live

theorem ImageTable.bounds (hD : ImageTable L klist) : klist.toNat + 24 ≤ 2 ^ 32 ∧ 84 ≤ klist.toNat := by
  have hlo := hD.lo
  have hhi := hD.hi
  have hbase := chain_bounds L
  rw [kVirStart_toNat] at hlo
  omega

theorem Sound.base (hr : Sound L s live) : s.base = L.kernelEnd := by
  obtain ⟨bs, hi, -⟩ := hr
  exact hi.base_eq

/-! What the kernel stores to is none of the heap's own bytes. -/

theorem klist_client (hr : Sound L s live) (hD : ImageTable L klist) {x : U32} (hx : InSpan klist 24 x) :
    ClientByte L s live x := by
  have hhi := hD.hi
  refine .inr ⟨hD.apart x hx, .inl ?_⟩
  rw [hr.base]
  unfold InSpan at hx
  omega

theorem structure_client (hr : Sound L s live) {q : U32} (hq : q = 0 ∨ (q, procSize) ∈ live) {x : U32}
    (hx : InSpan q 84 x) : ClientByte L s live x := by
  have hbase := chain_bounds L
  rcases hq with rfl | hq
  · unfold InSpan at hx
    rw [show (0 : U32).toNat = 0 from rfl] at hx
    refine .inr ⟨fun hc => ?_, .inl ?_⟩
    · unfold InSpan at hc
      omega
    · rw [hr.base]
      omega
  · exact .inl ⟨_, hq, by rwa [procSize_toNat]⟩

theorem table_client (hr : Sound L s live) (hD : ImageTable L klist) (hps : Payloads live ps) {x : U32}
    (hx : ProcTableByte klist ps x) : ClientByte L s live x := by
  rcases hx with hx | ⟨q, hq, hx⟩
  · exact klist_client hr hD hx
  · exact structure_client hr (hps q hq) (by unfold TableByte at hx; unfold InSpan; omega)

theorem node_client (hr : Sound L s live) (hD : ImageTable L klist) (hps : ∀ q ∈ ps, (q, procSize) ∈ live) {x : U32}
    (hx : LinkByte ((klist + offProcs) :: ps.map (· + offList)) x) : ClientByte L s live x := by
  have hb := hD.bounds
  obtain ⟨a, ha, hx⟩ := hx
  rcases List.mem_cons.mp ha with rfl | ha
  · have e16 : (klist + offProcs).toNat = klist.toNat + 16 := by unfold offProcs; bv_omega
    exact klist_client hr hD (by unfold InSpan at hx ⊢; omega)
  · obtain ⟨q, hq, rfl⟩ := List.mem_map.mp ha
    have hrange : q.toNat + 84 < 4290756608 := (live_range hr (hps q hq)).2
    have e24 : (q + offList).toNat = q.toNat + 24 := by unfold offList; bv_omega
    exact structure_client hr (.inr (hps q hq)) (by unfold InSpan at hx ⊢; omega)

/-- Room on the stack, in memory that the heap does not need. -/
structure CallRoom (L : HeapLayout) (klist : U32) (s : Heap) (live : List (U32 × U32)) (ps : List U32) (esp : U32) : Prop
    extends SwitchRoom klist ps esp where
  client : ∀ x : U32, esp.toNat - 64 ≤ x.toNat → x.toNat < esp.toNat → ClientByte L s live x

theorem schedule_client (hr : Sound L s live) (hD : ImageTable L klist) (hps : Payloads live ps) {esp x : U32}
    (hroom : CallRoom L klist s live ps esp) (hx : ScheduleByte klist ps esp x) : ClientByte L s live x := by
  rcases hx with ⟨q, hq, hx⟩ | hx | ⟨q, hq, hx⟩ | ⟨h₁, h₂⟩
  · exact structure_client hr (hps q hq) (by unfold FieldsByte at hx; unfold InSpan; omega)
  · exact klist_client hr hD (by unfold InSpan at hx ⊢; omega)
  · exact structure_client hr (hps q hq) (by unfold InSpan at hx ⊢; omega)
  · exact hroom.client x h₁ h₂

/-- A payload may be taken for any size its block has. -/
theorem LiveIn.resize {bs : List Block} {n n' : U32} (hi : HeapInv L s bs) (hl : LiveIn bs ((k, n) :: live))
    (hn : n' ≤ headSize s.mem (k - headLen)) : LiveIn bs ((k, n') :: live) := by
  obtain ⟨⟨b, hb, hu, hp, hs⟩, hrest⟩ := List.forall_mem_cons.mp hl.owner
  have hp' : k = b.payload := hp
  refine ⟨List.forall_mem_cons.mpr ⟨⟨b, hb, hu, hp, ?_⟩, hrest⟩, ?_⟩
  · rwa [hp', payload_sub, (hi.headers b hb).size] at hn
  · obtain ⟨h₁, h₂⟩ := List.pairwise_cons.mp hl.distinct
    exact List.pairwise_cons.mpr ⟨h₁, h₂⟩

theorem create_heap {s₂ : Heap} {bs : List Block} {m' : Mem} {qs : List U32} (hi : HeapInv L s₂ bs)
    (hl : LiveIn bs ((k, stackSize) :: (p, procSize) :: live)) (hD : ImageTable L klist)
    (hqs : ∀ q ∈ qs, (q, procSize) ∈ live)
    (hspare : s₂.brk = k + stackSize ∨ stackSize + 3 ≤ headSize s₂.mem (k - headLen))
    (hw : WritesOnly (CreateByte klist p k qs) s₂.mem m') : HeapInv L { s₂ with mem := m' } bs := by
  obtain ⟨hklo, hkhi⟩ : L.kernelEnd.toNat ≤ k.toNat ∧ k.toNat + 4096 < 4290756608 :=
    live_range ⟨bs, hi, hl⟩ List.mem_cons_self
  have hbase := chain_bounds L
  -- the three bytes past the stack are the client's, if need be as part of a longer payload
  obtain ⟨n, hl', hstack⟩ : ∃ n, LiveIn bs ((k, n) :: (p, procSize) :: live) ∧
      ∀ x, InSpan k 4099 x → ClientByte L s₂ ((k, n) :: (p, procSize) :: live) x := by
    rcases hspare with hbrk | hsize
    · refine ⟨stackSize, hl, fun x hx => ?_⟩
      have ebrk : s₂.brk.toNat = k.toNat + 4096 := by rw [hbrk]; unfold stackSize; bv_omega
      unfold InSpan at hx
      by_cases hxk : x.toNat < k.toNat + 4096
      · exact .inl ⟨_, List.mem_cons_self, hx.1, by rw [stackSize_toNat]; exact hxk⟩
      · exact .inr ⟨fun hc => by unfold InSpan at hc; omega, .inr (by omega)⟩
    · exact ⟨stackSize + 3, hl.resize hi hsize, fun x hx => .inl ⟨_, List.mem_cons_self, hx⟩⟩
  have hr : Sound L s₂ ((k, n) :: (p, procSize) :: live) := ⟨bs, hi, hl'⟩
  have hlive : ∀ {l}, l ∈ (p, procSize) :: live → l ∈ (k, n) :: (p, procSize) :: live := fun h => List.mem_cons_of_mem _ h
  refine hi.frame hw fun x hx hp => client_not_own hi hl' ?_ hx
  rcases hp with (hp | hp) | hp | hp
  · exact structure_client hr (.inr (hlive List.mem_cons_self)) hp
  · exact hstack x hp
  · exact klist_client hr hD hp
  · refine node_client hr hD (fun q hq => ?_) hp
    rcases List.mem_cons.mp hq with rfl | hq
    · exact hlive List.mem_cons_self
    · exact hlive (List.mem_cons_of_mem _ (hqs q hq))

theorem kmalloc_table (hD : ImageTable L klist) (hps : Payloads live ps) {bytes : U32} (hr : Sound L s live)
    (hne : bytes ≠ 0) (had : Admissible L bytes s) (hk : kmalloc L bytes s = some (p, s')) {x : U32}
    (hx : ProcTableByte klist ps x ∨ ∃ l ∈ live, InSpan l.1 l.2.toNat x) : s'.mem.byte x = s.mem.byte x := by
  have hlo := hD.lo
  have hhi := hD.hi
  have hbase := chain_bounds L
  rw [kVirStart_toNat] at hlo
  have himage := (kmalloc_image hr hne had hk).2 x
  have hkeeps := (kmalloc_keeps hr hne had hk).2 x
  have h16 : (16 : U32).toNat = 16 := rfl
  rcases hx with (hx | ⟨q, hq, hx⟩) | ⟨l, hl, hx⟩
  · refine himage fun hb => ?_
    have hap := hD.apart x hx
    unfold InSpan at hx
    rcases hb with rfl | hb | hb
    · omega
    · exact hap hb
    · omega
  · rcases hps q hq with rfl | hq
    · refine himage fun hb => ?_
      unfold TableByte at hx
      rw [show (0 : U32).toNat = 0 from rfl] at hx
      rcases hb with rfl | hb | hb
      · omega
      · unfold InSpan at hb
        omega
      · omega
    · refine hkeeps fun hn => hn ⟨_, hq, ?_⟩
      show InSpan q procSize.toNat x
      unfold TableByte at hx
      unfold InSpan
      rw [procSize_toNat]
      omega
  · exact hkeeps fun hn => hn ⟨l, hl, hx⟩

theorem Payloads.range (hr : Sound L s live) (hps : Payloads live ps) {q : U32} (hq : q ∈ ps) :
    q = 0 ∨ (q, procSize) ∈ live ∧ L.kernelEnd.toNat ≤ q.toNat ∧ q.toNat + 84 < 4290756608 :=
  (hps q hq).imp id fun h => ⟨h, live_range hr h⟩

/-- Structures that are payloads lie apart, and off `k_proclist`. -/
theorem Payloads.layout (hr : Sound L s live) (hD : ImageTable L klist) (hps : Payloads live ps) : ProcLayout klist ps := by
  have hhi := hD.hi
  have hbounds := hD.bounds
  have hbase := chain_bounds L
  have hzero : (0 : U32).toNat = 0 := rfl
  refine ⟨hbounds.1, fun q hq => ?_, fun q hq => ?_, fun q hq r hr' hqr => ?_⟩
  · rcases hps.range hr hq with rfl | ⟨-, -, h⟩
    · decide
    · omega
  · rcases hps.range hr hq with rfl | ⟨-, h, -⟩
    · exact .inl (by omega)
    · omega
  · rcases hps.range hr hq with rfl | ⟨hq, hqlo, -⟩
    · rcases hps.range hr hr' with rfl | ⟨-, hlo, -⟩
      · exact absurd rfl hqr
      · omega
    · rcases hps.range hr hr' with rfl | ⟨hr', -, -⟩
      · omega
      · have hgap := live_gap hr hq hr' hqr
        simp only [procSize_toNat] at hgap
        omega

/-- **While nothing has gone wrong with the heap**, a `create_process` that is served its two blocks gets them apart from
the table, which both calls of `kmalloc` leave alone. -/
theorem create_given (hr : Sound L s live) (hD : ImageTable L klist) (hps : Payloads live ps)
    (hheld : ∀ a ∈ held, a ∈ live.map Prod.fst) (hs : Served L name (procGlobals klist s.mem) s p k) :
    CreateGiven L klist name ps held s p k := by
  obtain ⟨s₁, s₂, hk₁, hok₁, hk₂, hok₂⟩ := hs
  have had₁ := admissible_of_ok hr (by decide) (by decide) hk₁ hok₁
  have hr₁ := hr.kmalloc (by decide) had₁ hk₁
  have hr₁' := fillProcess_sound hr₁ (procGlobals klist s.mem).pidcnt name
  have had₂ := admissible_of_ok hr₁' (by decide) (by decide) hk₂ hok₂
  have hr₂ := hr₁'.kmalloc (by decide) had₂ hk₂
  obtain ⟨hp0, hpn⟩ := kmalloc_fresh hr (by decide) had₁ hk₁
  obtain ⟨hk0, hkn⟩ := kmalloc_fresh hr₁' (by decide) had₂ hk₂
  have hkm : (k, stackSize) ∈ (k, stackSize) :: (p, procSize) :: live := List.mem_cons_self
  have hpm : (p, procSize) ∈ (k, stackSize) :: (p, procSize) :: live := List.mem_cons_of_mem _ List.mem_cons_self
  have hlive : ∀ l ∈ live, l ∈ (k, stackSize) :: (p, procSize) :: live := fun l hl =>
    List.mem_cons_of_mem _ (List.mem_cons_of_mem _ hl)
  obtain ⟨hplo, hphi⟩ : L.kernelEnd.toNat ≤ p.toNat ∧ p.toNat + 84 < 4290756608 := live_range hr₂ hpm
  obtain ⟨hklo, hkhi⟩ : L.kernelEnd.toNat ≤ k.toNat ∧ k.toNat + 4096 < 4290756608 := live_range hr₂ hkm
  have hhi := hD.hi
  have hbase := chain_bounds L
  have hps₂ : Payloads ((k, stackSize) :: (p, procSize) :: live) (p :: ps) := by
    intro q hq
    rcases List.mem_cons.mp hq with rfl | hq
    · exact .inr hpm
    · exact (hps q hq).imp id (hlive _)
  -- what is between the stack and a structure
  have hgap : ∀ q ∈ p :: ps, q ≠ k → k.toNat + 4096 + 20 ≤ q.toNat ∨ q.toNat + 84 ≤ k.toNat := by
    intro q hq hqk
    rcases hps₂ q hq with rfl | hq
    · have hzero : (0 : U32).toNat = 0 := rfl
      exact .inr (by omega)
    · have := live_gap hr₂ hkm hq fun e => hqk e.symm
      simp only [procSize_toNat, stackSize_toNat] at this
      omega
  have hne : ∀ q ∈ p :: ps, q ≠ k := by
    intro q hq e
    rcases List.mem_cons.mp hq with rfl | hq
    · exact hkn _ List.mem_cons_self e
    · rcases hps q hq with h | h
      · exact hk0 (e.symm.trans h)
      · exact hkn _ (List.mem_cons_of_mem _ h) e
  refine ⟨⟨s₁, s₂, hk₁, hk₂, fun x hx => kmalloc_table hD hps hr (by decide) had₁ hk₁ (.inl hx), fun x hx => ?_⟩, hp0, hk0,
    hne p List.mem_cons_self, fun hm => ?_, fun hm => ?_, hps₂.layout hr₂ hD, by omega, by omega,
    fun x hx => ⟨fun h => ?_, fun q hq h => ?_⟩⟩
  · have hps₁ : Payloads _ ps := fun q hq => (hps q hq).imp id (List.mem_cons_of_mem (p, procSize))
    refine kmalloc_table hD hps₁ hr₁' (by decide) had₂ hk₂ ?_
    exact hx.imp id fun hx => ⟨(p, procSize), List.mem_cons_self, hx⟩
  · obtain ⟨l, hl, e⟩ := List.mem_map.mp (hheld p hm)
    exact hpn l hl e
  · obtain ⟨l, hl, e⟩ := List.mem_map.mp (hheld k hm)
    exact hkn l (List.mem_cons_of_mem _ hl) e
  · unfold InSpan at h hx
    omega
  · have := hgap q hq (hne q hq)
    unfold InSpan at h hx
    omega

end

/-! Runs. -/

/-- The structures the scheduler may look at, of the processes that have not ended. -/
def seenMem (klist : U32) (procs : List (U32 × U32)) (m : Mem) : List U32 := m.load32 klist :: procs.map Prod.fst

def processBlocks (procs ended : List (U32 × U32)) : List U32 :=
  procs.map Prod.fst ++ (procs.map Prod.snd ++ ended.map Prod.snd)

/-- The kernel's heap and the payloads in use, and the structure and the stack of each process on the list, and of each
ended. -/
structure TableState where
  heap : Heap
  live : List (U32 × U32)
  procs : List (U32 × U32)
  ended : List (U32 × U32)

/-- Runs of the kernel from `init_process` on, over the heap `s₀`: the operations, latest first. The flag is false if
the search of the last step is still going on. -/
inductive TableRun (L : HeapLayout) (klist : U32) (s₀ : Heap) : List Op → Bool → TableState → Prop
  | boot {live} : Reach L s₀ live → TableRun L klist s₀ [] true
      ⟨{ s₀ with mem := enableKernelPreemptMem klist (initProcessMem klist s₀.mem) }, live, [], []⟩
  /-- other code stores to its own memory -/
  | store {ops s live procs ended} (x : U32) (v : U8) : TableRun L klist s₀ ops true ⟨s, live, procs, ended⟩ →
      ClientByte L s live x → ¬ ProcTableByte klist (seenMem klist procs s.mem) x →
      TableRun L klist s₀ ops true ⟨{ s with mem := s.mem.store8 x v }, live, procs, ended⟩
  /-- and calls the heap -/
  | kmalloc {ops s live procs ended bytes q s'} : TableRun L klist s₀ ops true ⟨s, live, procs, ended⟩ → bytes ≠ 0 →
      Admissible L bytes s → kmalloc L bytes s = some (q, s') →
      TableRun L klist s₀ ops true ⟨s', (q, bytes) :: live, procs, ended⟩
  | kfree {ops s live procs ended} (l : U32 × U32) : TableRun L klist s₀ ops true ⟨s, live, procs, ended⟩ → l ∈ live →
      l.1 ∉ processBlocks procs ended → TableRun L klist s₀ ops true ⟨kfree l.1 s, live.erase l, procs, ended⟩
  | create {ops s live procs ended p k c s'} (name arg proc : U32) : TableRun L klist s₀ ops true ⟨s, live, procs, ended⟩ →
      Served L name (procGlobals klist s.mem) s p k → StackSpare L name (procGlobals klist s.mem) s p k →
      createTableMem L klist name arg proc s = some (c, s') →
      TableRun L klist s₀ (.create p k :: ops) true
        ⟨s', (k, stackSize) :: (p, procSize) :: live, procs ++ [(p, k)], ended⟩
  | call {ops s live procs ended b m'} (op : Op) (cpu : Cpu) (ret : U32) (fuel : Nat) :
      TableRun L klist s₀ ops true ⟨s, live, procs, ended⟩ → IsCall op →
      CallRoom L klist s live (seenMem klist procs s.mem) cpu.esp → callMem klist cpu ret fuel op s.mem = some (b, m') →
      TableRun L klist s₀ (op :: ops) b ⟨{ s with mem := m' }, live, procs, ended⟩
  | exit {ops s live pre post ended p k b m'} (cpu : Cpu) (ret : U32) (fuel : Nat) :
      TableRun L klist s₀ ops true ⟨s, live, pre ++ (p, k) :: post, ended⟩ → s.mem.load32 klist = p → p ≠ 0 →
      CallRoom L klist s live (seenMem klist (pre ++ (p, k) :: post) s.mem) cpu.esp →
      callMem klist cpu ret fuel .expire (freeCurrentMem klist s).mem = some (b, m') →
      TableRun L klist s₀ (.exit :: ops) b
        ⟨{ freeCurrentMem klist s with mem := m' }, live.erase (p, procSize), pre ++ post, (p, k) :: ended⟩

section
variable {L : HeapLayout} {klist : U32} {m₀ : Mem} {ops : List Op} {live procs ended : List (U32 × U32)} {b : Bool}
  {s s' : Heap} {t : Kernel}

/-- The records that the memory of a run shows, and the heap they are kept in. -/
structure Shown (L : HeapLayout) (klist : U32) (m₀ : Mem) (ops : List Op) (b : Bool) (w : TableState) (t : Kernel) :
    Prop where
  run : ∃ tr, Run (booted (processAt m₀)) tr b t ∧ tr.map Prod.snd = ops
  image : ProcImage klist w.heap.mem t
  layout : ProcLayout klist t.seen
  sound : Sound L w.heap w.live
  accounts : b = true → Accounts t w.procs w.ended
  held : b = true → HeldBlocks w.live t

theorem Shown.seen {w : TableState} (h : Shown L klist m₀ ops true w t) : seenMem klist w.procs w.heap.mem = t.seen := by
  rw [seenMem, h.image.current, Kernel.seen, (h.accounts rfl).list]

theorem Shown.table {w : TableState} (h : Shown L klist m₀ ops true w t) :
    ∃ n ks, Table n ks t ∧ Settled n t ∧ t.proclist.list.length < 2 ^ 32 := by
  obtain ⟨tr, hrun, -⟩ := h.run
  obtain ⟨n, ks, ht, hs⟩ := booted_inv hrun
  exact ⟨n, ks, ht, hs, length_lt_of_nodup ht.nodup ht.null_list⟩

theorem Shown.payloads {w : TableState} (h : Shown L klist m₀ ops true w t) : Payloads w.live t.seen := by
  obtain ⟨n, ks, -, hs, -⟩ := h.table
  intro q hq
  by_cases h0 : q = 0
  · exact .inl h0
  · rcases List.mem_cons.mp hq with rfl | hq
    · exact .inr ((h.held rfl).procs _ (hs.listed h0))
    · exact .inr ((h.held rfl).procs _ hq)

theorem Shown.other {live' : List (U32 × U32)} (h : Shown L klist m₀ ops true ⟨s, live, procs, ended⟩ t)
    (hsame : ∀ x, ProcTableByte klist t.seen x → s'.mem.byte x = s.mem.byte x) (hs : Sound L s' live')
    (hh : HeldBlocks live' t) : Shown L klist m₀ ops true ⟨s', live', procs, ended⟩ t :=
  ⟨h.run, h.image.keep h.layout hsame, h.layout, hs, h.accounts, fun _ => hh⟩

theorem Shown.store {x : U32} (v : U8) (h : Shown L klist m₀ ops true ⟨s, live, procs, ended⟩ t)
    (hx : ClientByte L s live x) (hoff : ¬ ProcTableByte klist (seenMem klist procs s.mem) x) :
    Shown L klist m₀ ops true ⟨{ s with mem := s.mem.store8 x v }, live, procs, ended⟩ t := by
  have hw : WritesOnly (· = x) s.mem (s.mem.store8 x v) := WritesOnly.store8 _ v rfl
  have hseen : seenMem klist procs s.mem = t.seen := h.seen
  refine h.other (fun y hy => hw.2 y fun e => hoff ?_) (h.sound.client hw fun y e => e ▸ hx) (h.held rfl)
  rw [hseen, ← e]
  exact hy

theorem Shown.kmalloc {bytes q : U32} (hD : ImageTable L klist) (h : Shown L klist m₀ ops true ⟨s, live, procs, ended⟩ t)
    (hne : bytes ≠ 0) (had : Admissible L bytes s) (hk : kmalloc L bytes s = some (q, s')) :
    Shown L klist m₀ ops true ⟨s', (q, bytes) :: live, procs, ended⟩ t :=
  h.other (fun _ hx => kmalloc_table hD h.payloads h.sound hne had hk (.inl hx)) (h.sound.kmalloc hne had hk)
    ((h.held rfl).mono fun _ hl => List.mem_cons_of_mem _ hl)

theorem Shown.kfree {l : U32 × U32} (hD : ImageTable L klist) (h : Shown L klist m₀ ops true ⟨s, live, procs, ended⟩ t)
    (hl : l ∈ live) (hoff : l.1 ∉ processBlocks procs ended) :
    Shown L klist m₀ ops true ⟨kfree l.1 s, live.erase l, procs, ended⟩ t := by
  obtain ⟨n, ks, ht, -, -⟩ := h.table
  refine h.other (fun x hx => kfree_client h.sound hl (table_client h.sound hD h.payloads hx)) (h.sound.kfree hl)
    ((h.held rfl).erase (fun hm => hoff ?_) ht.held)
  exact (h.accounts rfl).blocks.mem_iff.mp hm

theorem Shown.given {name p k : U32} (hD : ImageTable L klist) (h : Shown L klist m₀ ops true ⟨s, live, procs, ended⟩ t)
    (hs : Served L name (procGlobals klist s.mem) s p k) :
    CreateGiven L klist name t.seen (processBlocks procs ended) s p k ∧ Fresh p k t ∧ p ∉ t.seen := by
  obtain ⟨n, ks, ht, hset, -⟩ := h.table
  have hacc : Accounts t procs ended := h.accounts rfl
  have hheld : ∀ a ∈ processBlocks procs ended, a ∈ live.map Prod.fst := fun a ha => by
    obtain ⟨l, hl, e⟩ := (h.held rfl).blocks a (hacc.blocks.mem_iff.mpr ha)
    exact e ▸ List.mem_map_of_mem hl
  have hg := create_given h.sound hD h.payloads hheld hs
  have hf : Fresh p k t := ⟨hg.proc_null, hg.stack_null, hg.apart, fun hm => hg.proc_new (hacc.blocks.mem_iff.mp hm),
    fun hm => hg.stack_new (hacc.blocks.mem_iff.mp hm)⟩
  refine ⟨hg, hf, fun hm => ?_⟩
  rcases List.mem_cons.mp hm with rfl | hm
  · exact ht.proc_ne hf _ (hset.listed hf.proc_null) rfl
  · exact ht.proc_ne hf p hm rfl

theorem Shown.create {name p k arg proc : U32} {c : Created} (hD : ImageTable L klist)
    (h : Shown L klist m₀ ops true ⟨s, live, procs, ended⟩ t) (hs : Served L name (procGlobals klist s.mem) s p k)
    (hspare : StackSpare L name (procGlobals klist s.mem) s p k)
    (hc : createTableMem L klist name arg proc s = some (c, s')) :
    Shown L klist m₀ (.create p k :: ops) true
      ⟨s', (k, stackSize) :: (p, procSize) :: live, procs ++ [(p, k)], ended⟩ (createProcess p k t).2 := by
  obtain ⟨n, ks, ht, hset, -⟩ := h.table
  obtain ⟨hg, hf, hp⟩ := h.given hD hs
  obtain ⟨c', s₁, s₂, m', hk₁, hk₂, hrun, him, hw⟩ := create_image h.image hg hp ht.nodup arg proc
  obtain ⟨-, rfl⟩ := Prod.mk.inj (Option.some.inj (hrun.symm.trans hc))
  obtain ⟨tr, htr, hops⟩ := h.run
  have hheld : HeldBlocks live t := h.held rfl
  obtain ⟨bs, hi₂, hl₂⟩ : Sound L s₂ ((k, stackSize) :: (p, procSize) :: live) := by
    obtain ⟨r₁, r₂, hr₁, hok₁, hr₂, hok₂⟩ := hs
    obtain ⟨-, rfl⟩ := Prod.mk.inj (Option.some.inj (hr₁.symm.trans hk₁))
    obtain ⟨-, rfl⟩ := Prod.mk.inj (Option.some.inj (hr₂.symm.trans hk₂))
    have had₁ := admissible_of_ok h.sound (by decide) (by decide) hr₁ hok₁
    have hs₁ := fillProcess_sound (h.sound.kmalloc (by decide) had₁ hr₁) (procGlobals klist s.mem).pidcnt name
    exact hs₁.kmalloc (by decide) (admissible_of_ok hs₁ (by decide) (by decide) hr₂ hok₂) hr₂
  refine ⟨⟨_, Run.step 0 (.create p k) htr hf rfl, by rw [List.map_cons, hops]⟩, him, hg.layout.mono fun q hq => ?_,
    ⟨bs, create_heap hi₂ hl₂ hD hheld.procs (hspare s₁ s₂ hk₁ hk₂) hw, hl₂⟩, fun _ => (h.accounts rfl).create ht hf,
    fun _ => hheld.create hf⟩
  rw [Kernel.seen, createProcess_proclist hf] at hq
  rcases List.mem_cons.mp hq with rfl | hq
  · exact List.mem_cons_of_mem _ List.mem_cons_self
  · rcases List.mem_append.mp hq with hq | hq
    · exact List.mem_cons_of_mem _ (mem_seen hq)
    · exact List.mem_cons.mpr (.inl (List.mem_singleton.mp hq))

theorem Shown.call {op : Op} {m' : Mem} {cpu : Cpu} {ret : U32} {fuel : Nat} (hD : ImageTable L klist)
    (h : Shown L klist m₀ ops true ⟨s, live, procs, ended⟩ t) (hop : IsCall op)
    (hr : CallRoom L klist s live (seenMem klist procs s.mem) cpu.esp)
    (hc : callMem klist cpu ret fuel op s.mem = some (b, m')) :
    Shown L klist m₀ (op :: ops) b ⟨{ s with mem := m' }, live, procs, ended⟩ (exec fuel op t).2 := by
  obtain ⟨n, ks, ht, hs, hlen⟩ := h.table
  rw [show seenMem klist procs s.mem = t.seen from h.seen] at hr
  obtain ⟨m'', hrun, him, hw⟩ := call_image hop fuel h.image h.layout hlen hr.toSwitchRoom ret
  obtain ⟨rfl, rfl⟩ := Prod.mk.inj (Option.some.inj (hrun.symm.trans hc))
  obtain ⟨tr, htr, hops⟩ := h.run
  have hperm : Permitted op t := by
    obtain rfl | rfl | ⟨k, rfl⟩ := hop <;> exact trivial
  have hsch : (exec fuel op t).1 = true → Scheduled t (exec fuel op t).2 := fun hb => by
    have he : exec fuel op t = (true, (exec fuel op t).2) := Prod.ext hb rfl
    obtain rfl | rfl | ⟨k, rfl⟩ := hop
    · exact scheduled_schedule he
    · exact (scheduled_expire _).trans (scheduled_schedule he)
    · exact ((scheduled_sleep k _).trans (scheduled_expire _)).trans (scheduled_schedule he)
  refine ⟨⟨_, Run.step fuel op htr hperm rfl, by rw [List.map_cons, hops]⟩, him, h.layout.mono fun q hq => ?_,
    h.sound.client hw fun x hx => schedule_client h.sound hD h.payloads hr hx,
    fun hb => (h.accounts rfl).scheduled (hsch hb), fun hb => (h.held rfl).scheduled (hsch hb)⟩
  obtain rfl | rfl | ⟨k, rfl⟩ := hop
  · exact schedule_seen fuel t q hq
  · exact schedule_seen fuel (expireCurrent t) q hq
  · exact schedule_seen fuel (expireCurrent (sleepCurrent k t)) q hq

theorem Shown.free (hD : ImageTable L klist) (h : Shown L klist m₀ ops true ⟨s, live, procs, ended⟩ t)
    (h0 : t.proclist.current ≠ 0) : ProcImage klist (freeCurrentMem klist s).mem (freeCurrent t) ∧
      ∀ (P : U32 → Prop) (m' : Mem), WritesOnly P (freeCurrentMem klist s).mem m' → (∀ x, P x → ClientByte L s live x) →
        Sound L { freeCurrentMem klist s with mem := m' } (live.erase (t.proclist.current, procSize)) := by
  obtain ⟨n, ks, ht, hs, -⟩ := h.table
  have hlist := hs.listed h0
  have hm : (t.proclist.current, procSize) ∈ live := (h.held rfl).procs _ hlist
  obtain ⟨-, hw⟩ := h.image.delete h.layout hlist ht.nodup
  have hs₁ := h.sound.client hw fun x hx => node_client h.sound hD (h.held rfl).procs hx
  have hcur : s.mem.load32 klist = t.proclist.current := h.image.current
  have hfree : freeCurrentMem klist s =
      LineOS.kfree t.proclist.current { s with mem := listDel (t.proclist.current + offList) s.mem } := by
    rw [freeCurrentMem, hcur]
  refine ⟨free_image h.image h.layout hlist ht.nodup fun x hx => ?_, fun P m' hw' hP => ?_⟩
  · rw [hfree, show s.mem.load32 klist = t.proclist.current from h.image.current]
    exact kfree_client hs₁ hm (table_client hs₁ hD h.payloads hx)
  · rw [hfree] at hw' ⊢
    exact hs₁.stale hm hw' hP

theorem Shown.exit {pre post : List (U32 × U32)} {p k : U32} {m' : Mem} {cpu : Cpu} {ret : U32} {fuel : Nat}
    (hD : ImageTable L klist) (h : Shown L klist m₀ ops true ⟨s, live, pre ++ (p, k) :: post, ended⟩ t)
    (hcur : s.mem.load32 klist = p) (h0 : p ≠ 0)
    (hr : CallRoom L klist s live (seenMem klist (pre ++ (p, k) :: post) s.mem) cpu.esp)
    (hc : callMem klist cpu ret fuel .expire (freeCurrentMem klist s).mem = some (b, m')) :
    Shown L klist m₀ (.exit :: ops) b
      ⟨{ freeCurrentMem klist s with mem := m' }, live.erase (p, procSize), pre ++ post, (p, k) :: ended⟩
      (exec fuel .exit t).2 := by
  obtain rfl : t.proclist.current = p := h.image.current.symm.trans hcur
  obtain ⟨n, ks, ht, hs, hlen⟩ := h.table
  rw [show seenMem klist _ s.mem = t.seen from h.seen] at hr
  obtain ⟨him, hsound⟩ := h.free hD h0
  have hseen : ∀ q ∈ (freeCurrent t).seen, q ∈ t.seen := fun q hq =>
    List.mem_cons.mpr ((List.mem_cons.mp hq).imp id List.mem_of_mem_erase)
  have hroom : SwitchRoom klist (freeCurrent t).seen cpu.esp :=
    ⟨hr.room, fun x h₁ h₂ => ⟨(hr.off x h₁ h₂).1, fun q hq => (hr.off x h₁ h₂).2 q (hseen q hq)⟩⟩
  obtain ⟨m'', hrun, him', hw⟩ := call_image (.inr (.inl rfl)) fuel him (h.layout.mono hseen)
    ((List.length_erase_le).trans_lt hlen) hroom ret
  obtain ⟨rfl, rfl⟩ := Prod.mk.inj (Option.some.inj (hrun.symm.trans hc))
  obtain ⟨tr, htr, hops⟩ := h.run
  have hstores : ∀ x, ScheduleByte klist (freeCurrent t).seen cpu.esp x → ClientByte L s live x := fun x hx =>
    schedule_client h.sound hD (fun q hq => h.payloads q (hseen q hq)) ⟨hroom, hr.client⟩ hx
  have hsch : (exec fuel .exit t).1 = true → Scheduled (freeCurrent t) (exec fuel .exit t).2 := fun hb => by
    have he : exec fuel .exit t = (true, (exec fuel .exit t).2) := Prod.ext hb rfl
    exact (scheduled_expire _).trans (scheduled_schedule he)
  refine ⟨⟨_, Run.step fuel .exit htr h0 rfl, by rw [List.map_cons, hops]⟩, him', h.layout.mono fun q hq => ?_,
    hsound _ _ hw hstores, fun hb => ((h.accounts rfl).free ht).scheduled (hsch hb),
    fun hb => ((h.held rfl).free ht).scheduled (hsch hb)⟩
  exact hseen q (schedule_seen fuel (expireCurrent (freeCurrent t)) q hq)

theorem shown_boot (hD : ImageTable L klist) (hr : Reach L s live) : Shown L klist s.mem [] true
    ⟨{ s with mem := enableKernelPreemptMem klist (initProcessMem klist s.mem) }, live, [], []⟩
      (booted (processAt s.mem)) := by
  obtain ⟨hk, h0⟩ := hD.bounds
  refine ⟨⟨[], Run.start, rfl⟩, boot_image hk h0 s.mem, boot_layout hk h0, ?_, fun _ => ⟨rfl, List.Perm.nil, rfl⟩,
    fun _ => by constructor <;> simp [booted, enableKernelPreempt, initProcess]⟩
  exact (run_inv hr).client (boot_writes hk s.mem) fun x hx => klist_client (run_inv hr) hD hx

/-- **A run of the table in memory is a run of the records.** -/
theorem table_run {s₀ : Heap} {w : TableState} (hD : ImageTable L klist) (h : TableRun L klist s₀ ops b w) :
    ∃ t, Shown L klist s₀.mem ops b w t := by
  induction h with
  | boot hr => exact ⟨_, shown_boot hD hr⟩
  | store x v _ hx hoff ih => exact ih.imp fun t ht => ht.store v hx hoff
  | kmalloc _ hne had hk ih => exact ih.imp fun t ht => ht.kmalloc hD hne had hk
  | kfree l _ hl hoff ih => exact ih.imp fun t ht => ht.kfree hD hl hoff
  | create name arg proc _ hs hspare hc ih =>
    obtain ⟨t, ht⟩ := ih
    exact ⟨_, ht.create hD hs hspare hc⟩
  | call op cpu ret fuel _ hop hr hc ih =>
    obtain ⟨t, ht⟩ := ih
    exact ⟨_, ht.call hD hop hr hc⟩
  | exit cpu ret fuel _ hcur h0 hr hc ih =>
    obtain ⟨t, ht⟩ := ih
    exact ⟨_, ht.exit hD hcur h0 hr hc⟩

/-- **The process table in memory**, after every completed step of every run: the list is the processes that have not
ended, in order of creation and of pid; the current one, once there is one, is on it and running, and the others are
ready or asleep; `count` is the number of processes ever created, and `pidcnt` the next pid. -/
theorem table_in_memory {s₀ : Heap} {w : TableState} (hD : ImageTable L klist) (h : TableRun L klist s₀ ops true w) :
    nodes (listNext w.heap.mem) (klist + offProcs) (2 ^ 32) (listNext w.heap.mem (klist + offProcs)) =
        some (w.procs.map fun l => l.1 + offList) ∧
      w.procs.Pairwise (fun l l' => w.heap.mem.load32 (l.1 + offPid) < w.heap.mem.load32 (l'.1 + offPid)) ∧
      (w.heap.mem.load32 klist ≠ 0 → w.heap.mem.load32 klist ∈ w.procs.map Prod.fst ∧
        w.heap.mem.byte (w.heap.mem.load32 klist + offState) = 0x2) ∧
      (∀ l ∈ w.procs, l.1 ≠ w.heap.mem.load32 klist →
        w.heap.mem.byte (l.1 + offState) = 0x1 ∨ w.heap.mem.byte (l.1 + offState) = 0x3) ∧
      (w.heap.mem.load32 (klist + offCount)).toNat = w.procs.length + w.ended.length ∧
      w.heap.mem.load32 (klist + offPidcnt) = w.heap.mem.load32 (klist + offCount) := by
  obtain ⟨t, ht⟩ := table_run hD h
  obtain ⟨n, ks, htab, hs, hlen⟩ := ht.table
  have hacc := ht.accounts rfl
  have him := ht.image
  have hmem : ∀ l ∈ w.procs, l.1 ∈ t.proclist.list := fun l hl => hacc.list ▸ List.mem_map_of_mem hl
  have hproc : ∀ l ∈ w.procs, processAt w.heap.mem l.1 = t.proc l.1 := fun l hl => him.procs _ (mem_seen (hmem l hl))
  have hstate : ∀ {p : U32} {q : ProcState}, p ∈ t.seen → (t.proc p).state = q →
      stateOf (w.heap.mem.byte (p + offState)) = q :=
    fun hp he => (congrArg Process.state (him.procs _ hp)).trans he
  refine ⟨?_, ?_, fun hne => ?_, fun l hl hne => ?_, ?_, ?_⟩
  · have hhead : klist + offProcs ∉ t.proclist.list.map (· + offList) := fun hm => by
      obtain ⟨q, hq, e⟩ := List.mem_map.mp hm
      exact node_ne_head ht.layout (mem_seen hq) e
    rw [him.ring.nodes_eq hhead (by rwa [List.length_map]), hacc.list, List.map_map]
    rfl
  · have hp := htab.pids
    rw [hacc.list, List.pairwise_map] at hp
    refine hp.imp_of_mem fun {l l'} hl hl' hlt => ?_
    rw [← hproc l hl, ← hproc l' hl'] at hlt
    exact hlt
  · rw [him.current] at hne ⊢
    exact ⟨hacc.list ▸ hs.listed hne, stateOf_running.mp (hstate List.mem_cons_self (hs.running hne))⟩
  · rw [him.current] at hne
    exact (hs.waiting l.1 (hmem l hl) hne).imp (fun he => stateOf_ready.mp (hstate (mem_seen (hmem l hl)) he))
      fun he => stateOf_sleeping.mp (hstate (mem_seen (hmem l hl)) he)
  · rw [him.count]
    exact hacc.count
  · rw [him.count, him.pidcnt]
    exact BitVec.eq_of_toNat_eq (htab.pidcnt.trans htab.count.symm)

end

/-! Runs that go on. -/

section
variable {L : HeapLayout} {klist name : U32} {s s₀ : Heap} {bs : List Block} {ops : List Op}
  {live procs ended : List (U32 × U32)} {t : Kernel} {g : ProcGlobals}

/-- A heap with no free block: what `kmalloc` returns next begins at the break. -/
def Tight (L : HeapLayout) (s : Heap) (live : List (U32 × U32)) : Prop :=
  ∃ bs, HeapInv L s bs ∧ LiveIn bs live ∧ ∀ b ∈ bs, b.used = true

theorem Tight.kmalloc (h : Tight L s live) (bytes : U32) (hne : bytes ≠ 0)
    (hlt : s.brk.toNat + 20 + bytes.toNat < brkMax.toNat) : ∃ s', kmalloc L bytes s = some (s.brk + headLen, s') ∧
      Tight L s' ((s.brk + headLen, bytes) :: live) ∧ s'.brk = s.brk + (headLen + bytes) ∧ s'.panics = s.panics := by
  obtain ⟨bs, hi, hl, hu⟩ := h
  have hf : firstFit bytes bs = none := List.find?_eq_none.mpr fun b hb => by simp [hu b hb]
  obtain ⟨s', hk, hi', hbrk, hpan⟩ := kmalloc_grow hi hne hf hlt
  refine ⟨s', hk, ⟨_, hi', ?_, List.forall_mem_cons.mpr ⟨Block.take_used _, hu⟩⟩, hbrk, hpan⟩
  refine live_kmalloc hl List.mem_cons_self (Block.take_used _) (BitVec.le_refl _) fun c hc _ =>
    ⟨List.mem_cons_of_mem _ hc, fun e => ?_⟩
  have hb := hi.bounds hc
  have e' : c.addr.toNat = s.brk.toNat := congrArg BitVec.toNat e
  omega

/-- `create_process` gets both blocks at the break. -/
theorem Tight.served (h : Tight L s live) (hroom : s.brk.toNat + 4220 < brkMax.toNat) (g : ProcGlobals) (name : U32) :
    ∃ s₁ s₂,
    LineOS.kmalloc L procSize s = some (s.brk + headLen, s₁) ∧
      LineOS.kmalloc L stackSize { s₁ with mem := fillProcess (s.brk + headLen) g.pidcnt name s₁.mem } =
        some (s.brk + 124, s₂) ∧
      Served L name g s (s.brk + headLen) (s.brk + 124) ∧ StackSpare L name g s (s.brk + headLen) (s.brk + 124) ∧
      Tight L s₂ ((s.brk + 124, stackSize) :: (s.brk + headLen, procSize) :: live) ∧ s₂.brk = s.brk + 4220 := by
  rw [brkMax_toNat] at hroom
  obtain ⟨s₁, hk₁, ⟨bs₁, hi₁, hl₁, hu₁⟩, hbrk₁, hpan₁⟩ := h.kmalloc procSize (by decide)
    (by rw [brkMax_toNat, procSize_toNat]; omega)
  have e₁ : s₁.brk = s.brk + 104 := hbrk₁
  have e₁' : s₁.brk.toNat = s.brk.toNat + 104 := by rw [e₁]; bv_omega
  have ep : (s.brk + headLen).toNat = s.brk.toNat + 20 := by unfold headLen; bv_omega
  have hfill : Tight L { s₁ with mem := fillProcess (s.brk + headLen) g.pidcnt name s₁.mem }
      ((s.brk + headLen, procSize) :: live) := by
    refine ⟨bs₁, hi₁.frame (fillProcess_writes _ name (by omega)) fun x hx hp => ?_, hl₁, hu₁⟩
    exact payload_not_own hi₁ hl₁ List.mem_cons_self hp hx
  obtain ⟨s₂, hk₂, ht₂, hbrk₂, hpan₂⟩ := hfill.kmalloc stackSize (by decide)
    (by rw [brkMax_toNat, stackSize_toNat]; show s₁.brk.toNat + _ + _ < _; omega)
  have ek : s₁.brk + headLen = s.brk + 124 := by rw [e₁]; unfold headLen; bv_omega
  have e₂ : s₂.brk = s.brk + 4220 := by
    rw [hbrk₂]
    show s₁.brk + _ = _
    rw [e₁]
    unfold headLen stackSize
    bv_omega
  have hnull : ∀ n : U32, n.toNat < 4096 → n ≠ 0 → s.brk + n ≠ 0 := fun n hn hn0 => by bv_omega
  refine ⟨s₁, s₂, hk₁, ek ▸ hk₂, ⟨s₁, s₂, hk₁, ?_, ek ▸ hk₂, ?_⟩, fun r₁ r₂ hr₁ hr₂ => .inl ?_, ek ▸ ht₂, e₂⟩
  · exact fun hr => hr.elim (hnull headLen (by decide) (by decide)) fun hne => hne hpan₁
  · exact fun hr => hr.elim (hnull 124 (by decide) (by decide)) fun hne => hne hpan₂
  · obtain ⟨-, rfl⟩ := Prod.mk.inj (Option.some.inj (hr₁.symm.trans hk₁))
    obtain ⟨-, rfl⟩ := Prod.mk.inj (Option.some.inj (hr₂.symm.trans (ek ▸ hk₂)))
    rw [e₂]
    unfold stackSize
    bv_omega

structure Going (L : HeapLayout) (klist : U32) (s₀ : Heap) (ops : List Op) (w : TableState) (t : Kernel) : Prop where
  run : TableRun L klist s₀ ops true w
  shown : Shown L klist s₀.mem ops true w t

theorem Going.create (hD : ImageTable L klist) (h : Going L klist s₀ ops ⟨s, live, procs, ended⟩ t) (ht : Tight L s live)
    (hroom : s.brk.toNat + 4220 < brkMax.toNat) (name arg proc : U32) : ∃ s',
      Going L klist s₀ (.create (s.brk + headLen) (s.brk + 124) :: ops)
        ⟨s', (s.brk + 124, stackSize) :: (s.brk + headLen, procSize) :: live,
          procs ++ [(s.brk + headLen, s.brk + 124)], ended⟩ (createProcess (s.brk + headLen) (s.brk + 124) t).2 ∧
      Tight L s' ((s.brk + 124, stackSize) :: (s.brk + headLen, procSize) :: live) ∧ s'.brk = s.brk + 4220 := by
  obtain ⟨s₁, s₂, hk₁, hk₂, hs, hspare, ⟨bs, hi, hl, hu⟩, hbrk⟩ :=
    ht.served hroom (procGlobals klist s.mem) name
  obtain ⟨n, ks, htab, -, -⟩ := h.shown.table
  obtain ⟨hg, -, hp⟩ := h.shown.given hD hs
  obtain ⟨c, r₁, r₂, m', hr₁, hr₂, hc, -, hw⟩ := create_image h.shown.image hg hp htab.nodup arg proc
  obtain ⟨-, rfl⟩ := Prod.mk.inj (Option.some.inj (hr₁.symm.trans hk₁))
  obtain ⟨-, rfl⟩ := Prod.mk.inj (Option.some.inj (hr₂.symm.trans hk₂))
  have hheld : HeldBlocks live t := h.shown.held rfl
  have hi' := create_heap hi hl hD hheld.procs (hspare _ _ hk₁ hk₂) hw
  exact ⟨_, ⟨.create name arg proc h.run hs hspare hc, h.shown.create hD hs hspare hc⟩, ⟨bs, hi', hl, hu⟩, hbrk⟩

theorem Going.call {op : Op} (hD : ImageTable L klist) (h : Going L klist s₀ ops ⟨s, live, procs, ended⟩ t)
    (fuel : Nat) (cpu : Cpu) (hop : IsCall op) (hr : CallRoom L klist s live t.seen cpu.esp) (hb : (exec fuel op t).1 = true) (ret : U32) : ∃ m',
      Going L klist s₀ (op :: ops) ⟨{ s with mem := m' }, live, procs, ended⟩ (exec fuel op t).2 := by
  obtain ⟨n, ks, -, -, hlen⟩ := h.shown.table
  obtain ⟨m', hc, -, -⟩ := call_image hop fuel h.shown.image h.shown.layout hlen hr.toSwitchRoom ret
  rw [hb] at hc
  rw [← h.shown.seen] at hr
  exact ⟨m', .call op cpu ret fuel h.run hop hr hc, h.shown.call hD hop hr hc⟩

theorem Going.exit (hD : ImageTable L klist) (pre post : List (U32 × U32)) (p k : U32) (fuel : Nat) (cpu : Cpu)
    (h : Going L klist s₀ ops ⟨s, live, pre ++ (p, k) :: post, ended⟩ t) (hcur : t.proclist.current = p) (h0 : p ≠ 0)
    (hr : CallRoom L klist s live t.seen cpu.esp) (hb : (exec fuel .exit t).1 = true) (ret : U32) : ∃ s',
      Going L klist s₀ (.exit :: ops) ⟨s', live.erase (p, procSize), pre ++ post, (p, k) :: ended⟩
        (exec fuel .exit t).2 := by
  obtain ⟨n, ks, -, -, hlen⟩ := h.shown.table
  obtain ⟨him, -⟩ := h.shown.free hD (hcur ▸ h0)
  have hseen : ∀ q ∈ (freeCurrent t).seen, q ∈ t.seen := fun q hq =>
    List.mem_cons.mpr ((List.mem_cons.mp hq).imp id List.mem_of_mem_erase)
  have hroom : SwitchRoom klist (freeCurrent t).seen cpu.esp :=
    ⟨hr.room, fun x h₁ h₂ => ⟨(hr.off x h₁ h₂).1, fun q hq => (hr.off x h₁ h₂).2 q (hseen q hq)⟩⟩
  obtain ⟨m', hc, -, -⟩ := call_image (.inr (.inl rfl)) fuel him (h.shown.layout.mono hseen)
    ((List.length_erase_le).trans_lt hlen) hroom ret
  have hc' : callMem klist cpu ret fuel .expire (freeCurrentMem klist s).mem = some (true, m') := by
    rw [hc]
    exact congrArg (fun b => some (b, m')) hb
  have hcur' : s.mem.load32 klist = p := h.shown.image.current.trans hcur
  rw [← h.shown.seen] at hr
  exact ⟨_, .exit cpu ret fuel h.run hcur' h0 hr hc', h.shown.exit hD hcur' h0 hr hc'⟩

theorem callRoom {esp : U32} (hs : Sound L s live) (h64 : 64 ≤ esp.toNat)
    (hk : esp.toNat ≤ klist.toNat ∨ klist.toNat + 24 + 64 ≤ esp.toNat)
    (hq : t.seen.all fun q => esp.toNat ≤ q.toNat ∨ q.toNat + 84 + 64 ≤ esp.toNat)
    (hc : esp.toNat ≤ L.chain.toNat ∨ ∃ l ∈ live, l.1.toNat + 64 ≤ esp.toNat ∧ esp.toNat ≤ l.1.toNat + l.2.toNat) :
    CallRoom L klist s live t.seen esp := by
  refine ⟨⟨h64, fun x h₁ h₂ => ⟨fun hx => ?_, fun q hqs hx => ?_⟩⟩, fun x h₁ h₂ => ?_⟩
  · unfold InSpan at hx
    omega
  · have := of_decide_eq_true (List.all_eq_true.mp hq q hqs)
    unfold InSpan at hx
    omega
  · have hend := chain_bounds L
    rcases hc with hc | ⟨l, hl, h₃, h₄⟩
    · refine .inr ⟨fun hx => ?_, .inl ?_⟩
      · unfold InSpan at hx
        omega
      · rw [hs.base]
        omega
    · exact .inl ⟨l, hl, by omega, by omega⟩

end

/-! Two processes: the first one sleeps, and the second one ends. -/

def mainHeap : Heap := initHeap sampleLayout dirtyMem

theorem main_table : ImageTable sampleLayout sampleHead where
  lo := by decide
  hi := by decide
  apart := fun x hx hc => by
    unfold InSpan sampleHead sampleLayout at *
    simp only [BitVec.reduceToNat] at hx hc
    omega

def core1 : U32 × U32 := (0xC000A014, 0xC000A07C)
def core2 : U32 × U32 := (0xC000B090, 0xC000B0F8)

def coreLive : List (U32 × U32) :=
  [(core2.2, stackSize), (core2.1, procSize), (core1.2, stackSize), (core1.1, procSize)]

/-- The first is dispatched from the boot code and sleeps for two ticks; the next tick wakes it. -/
def sleepOps : List Op := [.timer, .sleep 2, .timer, .create core2.1 core2.2, .create core1.1 core1.2]

def recordsAfter : List Op → Kernel
  | [] => booted (processAt mainHeap.mem)
  | op :: ops => (exec 2 op (recordsAfter ops)).2

theorem main_boot : ∃ s, Going sampleLayout sampleHead mainHeap [] ⟨s, [], [], []⟩ (recordsAfter []) ∧
    Tight sampleLayout s [] ∧ s.brk = 0xC000A000 := by
  have hr : Reach sampleLayout mainHeap [] := Reach.init dirtyMem
  have hl : LiveIn [] [] := ⟨by simp, List.Pairwise.nil⟩
  have hi : HeapInv sampleLayout mainHeap [] := init_inv sampleLayout dirtyMem
  refine ⟨_, ⟨.boot hr, shown_boot main_table hr⟩, ⟨[], ?_, hl, by simp⟩, rfl⟩
  exact hi.frame (boot_writes (by decide) _) fun x hx hp =>
    client_not_own hi hl (klist_client (run_inv hr) main_table hp) hx

theorem main_created : ∃ s, Going sampleLayout sampleHead mainHeap
    [.create core2.1 core2.2, .create core1.1 core1.2] ⟨s, coreLive, [core1, core2], []⟩
    (recordsAfter [.create core2.1 core2.2, .create core1.1 core1.2]) := by
  obtain ⟨s₀, h₀, ht₀, hb₀⟩ := main_boot
  obtain ⟨s₁, h₁, ht₁, hb₁⟩ := h₀.create main_table ht₀ (by rw [hb₀]; decide) 0xC0009300 0 0xC0001000
  rw [hb₀] at h₁ ht₁ hb₁
  obtain ⟨s₂, h₂, -, -⟩ := h₁.create main_table ht₁ (by rw [hb₁]; decide) 0xC0009310 0 0xC0002000
  rw [hb₁] at h₂
  exact ⟨s₂, h₂⟩

theorem main_slept : ∃ s, Going sampleLayout sampleHead mainHeap sleepOps ⟨s, coreLive, [core1, core2], []⟩
    (recordsAfter sleepOps) := by
  obtain ⟨s₂, h₂⟩ := main_created
  have hseen₂ : (recordsAfter [.create core2.1 core2.2, .create core1.1 core1.2]).seen.all fun q =>
      (0xC0009000 : U32).toNat ≤ q.toNat ∨ q.toNat + 84 + 64 ≤ (0xC0009000 : U32).toNat := by decide +kernel
  obtain ⟨m₃, h₃⟩ := h₂.call main_table 2 (freshCpu 0 0xC0009000) (.inl rfl)
    (callRoom h₂.shown.sound (by decide) (by decide) hseen₂ (.inl (by decide))) (by decide +kernel) 0
  have hseen₃ : (recordsAfter [.timer, .create core2.1 core2.2, .create core1.1 core1.2]).seen.all fun q =>
      (0xC000B000 : U32).toNat ≤ q.toNat ∨ q.toNat + 84 + 64 ≤ (0xC000B000 : U32).toNat := by decide +kernel
  obtain ⟨m₄, h₄⟩ := h₃.call main_table 2 (freshCpu 0 0xC000B000) (.inr (.inr ⟨2, rfl⟩))
    (callRoom h₃.shown.sound (by decide) (by decide) hseen₃ (.inr ⟨(core1.2, stackSize), by decide, by decide, by decide⟩))
    (by decide +kernel) 0
  have hseen₄ : (recordsAfter [.sleep 2, .timer, .create core2.1 core2.2, .create core1.1 core1.2]).seen.all fun q =>
      (0xC000C000 : U32).toNat ≤ q.toNat ∨ q.toNat + 84 + 64 ≤ (0xC000C000 : U32).toNat := by decide +kernel
  obtain ⟨m₅, h₅⟩ := h₄.call main_table 2 (freshCpu 0 0xC000C000) (.inl rfl)
    (callRoom h₄.shown.sound (by decide) (by decide) hseen₄ (.inr ⟨(core2.2, stackSize), by decide, by decide, by decide⟩))
    (by decide +kernel) 0
  exact ⟨_, h₅⟩

theorem main_ended : ∃ s, Going sampleLayout sampleHead mainHeap (.exit :: sleepOps)
    ⟨s, [(core2.2, stackSize), (core1.2, stackSize), (core1.1, procSize)], [core1], [core2]⟩
    (recordsAfter (.exit :: sleepOps)) := by
  obtain ⟨s, h⟩ := main_slept
  have hseen : (recordsAfter sleepOps).seen.all fun q =>
      (0xC000C000 : U32).toNat ≤ q.toNat ∨ q.toNat + 84 + 64 ≤ (0xC000C000 : U32).toNat := by decide +kernel
  obtain ⟨s', h'⟩ := Going.exit main_table [core1] [] core2.1 core2.2 2
    (freshCpu 0 0xC000C000) h (by decide +kernel) (by decide)
    (callRoom h.shown.sound (by decide) (by decide) hseen (.inr ⟨(core2.2, stackSize), by decide, by decide, by decide⟩))
    (by decide +kernel) 0
  exact ⟨s', h'⟩

/-- While both are on the list, the second running; and when it has ended. -/
theorem table_in_memory_sample : ∃ w w', TableRun sampleLayout sampleHead mainHeap sleepOps true w ∧
    TableRun sampleLayout sampleHead mainHeap (.exit :: sleepOps) true w' ∧
    nodes (listNext w.heap.mem) (sampleHead + offProcs) (2 ^ 32) (listNext w.heap.mem (sampleHead + offProcs)) =
      some [core1.1 + offList, core2.1 + offList] ∧
    w.heap.mem.load32 (core1.1 + offPid) < w.heap.mem.load32 (core2.1 + offPid) ∧
    w.heap.mem.byte (core2.1 + offState) = 0x2 ∧
    (w.heap.mem.byte (core1.1 + offState) = 0x1 ∨ w.heap.mem.byte (core1.1 + offState) = 0x3) ∧
    nodes (listNext w'.heap.mem) (sampleHead + offProcs) (2 ^ 32) (listNext w'.heap.mem (sampleHead + offProcs)) =
      some [core1.1 + offList] ∧
    w'.heap.mem.byte (core1.1 + offState) = 0x2 ∧ (w'.heap.mem.load32 (sampleHead + offCount)).toNat = 2 ∧
    w'.heap.mem.load32 (sampleHead + offPidcnt) = w'.heap.mem.load32 (sampleHead + offCount) := by
  obtain ⟨s, h⟩ := main_slept
  obtain ⟨s', h'⟩ := main_ended
  have hcur : s.mem.load32 sampleHead = core2.1 := h.shown.image.current.trans (by decide +kernel)
  have hcur' : s'.mem.load32 sampleHead = core1.1 := h'.shown.image.current.trans (by decide +kernel)
  obtain ⟨hlist, hpids, hrunning, hwaiting, -, -⟩ := table_in_memory main_table h.run
  obtain ⟨hlist', -, hrunning', -, hcount', hpidcnt'⟩ := table_in_memory main_table h'.run
  rw [hcur] at hrunning hwaiting
  rw [hcur'] at hrunning'
  exact ⟨_, _, h.run, h'.run, hlist, by simpa using hpids, (hrunning (by decide)).2,
    hwaiting core1 List.mem_cons_self (by decide), hlist', (hrunning' (by decide)).2, hcount', hpidcnt'⟩

end LineOS
