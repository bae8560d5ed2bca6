import LineOS.CreateWrites
import LineOS.ProcessBytes
import LineOS.ProcessEnds

/- The functions of `process.c` that change the list, in memory: each keeps `ProcImage` beside the function of the
   same name there, `create_process` where its two calls of `kmalloc` leave the table alone (`CreateGiven`),
   `process_end` where its `kfree` does. -/
namespace LineOS
open ByteMemory ByteMemory.Mem LinkedRing SlotStack

/-! The code. -/

/-- The members of `k_proclist` that `create_process` reads. -/
def procGlobals (klist : U32) (m : Mem) : ProcGlobals :=
  ⟨m.load32 klist, m.load32 (klist + offPidcnt), m.load32 (klist + offCount)⟩

/-- `create_process`, with `k_proclist` in memory. -/
def createTableMem (L : HeapLayout) (klist name arg proc : U32) (s : Heap) : Option (Created × Heap) :=
  (createProcessMem L (klist + offProcs) name arg proc (procGlobals klist s.mem) s).map fun (c, g, s) =>
    (c, { s with mem := (s.mem.store32 (klist + offPidcnt) g.pidcnt).store32 (klist + offCount) g.count })

/-- The calls that `exec` makes, but for `create_process` and `process_end`. -/
def callMem (klist : U32) (cpu : Cpu) (ret : U32) (fuel : Nat) : Op → Mem → Option (Bool × Mem)
  | .timer, m => scheduleMem klist cpu ret fuel m
  | .expire, m => scheduleMem klist cpu ret fuel (expireCurrentMem klist m)
  | .sleep n, m => scheduleMem klist cpu ret fuel (expireCurrentMem klist (sleepCurrentMem klist n m))
  | _, _ => none

/-- `process_end` up to `process_expire`. -/
def freeCurrentMem (klist : U32) (s : Heap) : Heap :=
  let me := s.mem.load32 klist
  kfree me { s with mem := listDel (me + offList) s.mem }

/-! Lists of structures in memory. -/

section
variable {klist : U32} {m m' : Mem} {s : Kernel} {p : U32} {ps qs : List U32}

/-- The nodes of distinct structures and the list's head do not overlap. -/
theorem nodes_spread (hl : ProcLayout klist ps) (hq : ∀ q ∈ qs, q ∈ ps) (hn : qs.Nodup) :
    Spread 8 ((klist + offProcs) :: qs.map (· + offList)) := by
  have htop := hl.top
  have e16 := klist_toNat hl (a := offProcs) (by decide)
  rw [show offProcs.toNat = 16 from rfl] at e16
  have hnode : ∀ q ∈ qs, (q + offList).toNat = q.toNat + 24 ∧ q.toNat + 84 ≤ 2 ^ 32 ∧
      (q.toNat + 84 ≤ klist.toNat ∨ klist.toNat + 24 ≤ q.toNat) := fun q h =>
    ⟨node_toNat hl (hq q h), hl.fit q (hq q h), hl.off q (hq q h)⟩
  refine ⟨List.nodup_cons.mpr ⟨fun hm => ?_, hn.map fun a b h => ?_⟩, fun a ha b hb hab => ?_, fun a ha => ?_⟩
  · obtain ⟨q, h, e⟩ := List.mem_map.mp hm
    exact node_ne_head hl (hq q h) e
  · have h' : a + offList = b + offList := h
    bv_omega
  · rcases List.mem_cons.mp ha with rfl | ha <;> rcases List.mem_cons.mp hb with rfl | hb
    · exact absurd rfl hab
    · obtain ⟨q, h, rfl⟩ := List.mem_map.mp hb
      have := hnode q h
      omega
    · obtain ⟨q, h, rfl⟩ := List.mem_map.mp ha
      have := hnode q h
      omega
    · obtain ⟨q, h, rfl⟩ := List.mem_map.mp ha
      obtain ⟨r, h', rfl⟩ := List.mem_map.mp hb
      have := hl.apart q (hq q h) r (hq r h') fun e => hab (by rw [e])
      have := hnode q h
      have := hnode r h'
      omega
  · rcases List.mem_cons.mp ha with rfl | ha
    · omega
    · obtain ⟨q, h, rfl⟩ := List.mem_map.mp ha
      have := hnode q h
      omega

/-- The links are apart from the records and the other members of `k_proclist`. -/
theorem linkByte_off (hl : ProcLayout klist ps) (hq : ∀ q ∈ qs, q ∈ ps) {x : U32}
    (hx : LinkByte ((klist + offProcs) :: qs.map (· + offList)) x) : ¬ InSpan klist 16 x ∧
      ∀ q ∈ ps, InSpan q 84 x → q.toNat + 24 ≤ x.toNat ∧ x.toNat < q.toNat + 32 := by
  have htop := hl.top
  have e16 := klist_toNat hl (a := offProcs) (by decide)
  rw [show offProcs.toNat = 16 from rfl] at e16
  obtain ⟨a, ha, hx⟩ := hx
  unfold InSpan at hx
  rcases List.mem_cons.mp ha with rfl | ha
  · refine ⟨fun h => by unfold InSpan at h; omega, fun q hq h => ?_⟩
    have := hl.off q hq
    unfold InSpan at h
    omega
  · obtain ⟨r, hr, rfl⟩ := List.mem_map.mp ha
    have e24 := node_toNat hl (hq r hr)
    have hoff := hl.off r (hq r hr)
    refine ⟨fun h => by unfold InSpan at h; omega, fun q hq' h => ?_⟩
    unfold InSpan at h
    by_cases hqr : q = r
    · subst hqr
      omega
    · have := hl.apart q hq' r (hq r hr) hqr
      omega

theorem ProcImage.relink {l : List U32} {proc : U32 → Process} (h : ProcImage klist m s) (hl : ProcLayout klist ps)
    (hq : ∀ q ∈ qs, q ∈ ps) (hw : WritesOnly (LinkByte ((klist + offProcs) :: qs.map (· + offList))) m m')
    (hring : MemRing m' (klist + offProcs) (l.map (· + offList)))
    (hprocs : ∀ q ∈ s.proclist.current :: l, q ∈ ps ∧ processAt m q = proc q) :
    ProcImage klist m' { s with proclist := { s.proclist with list := l }, proc := proc } := by
  have htop := hl.top
  have hload : ∀ {a : U32}, a.toNat + 4 ≤ 16 → m'.load32 (klist + a) = m.load32 (klist + a) := by
    intro a ha
    have ea := klist_toNat hl (a := a) (by omega)
    refine hw.load32_eq (by omega) fun x hx hx' => (linkByte_off hl hq hx').1 ?_
    unfold InSpan at hx ⊢
    omega
  have hcur : m'.load32 klist = m.load32 klist :=
    hw.load32_eq (by omega) fun x hx hx' => (linkByte_off hl hq hx').1 (by unfold InSpan at hx ⊢; omega)
  refine ⟨hcur.trans h.current, (hload (by decide)).trans h.pidcnt, (hload (by decide)).trans h.count, ?_, hring, ?_⟩
  · rw [isKernelPreemptMem, hload (a := offPreempt) (by decide)]
    exact h.preempt
  · intro q hm
    obtain ⟨hqp, hproc⟩ := hprocs q hm
    refine (processAt_congr (hl.fit q hqp) fun x hx => hw.2 x fun hx' => ?_).trans hproc
    have hlink := (linkByte_off hl hq hx').2 q hqp
    unfold RecordByte at hx
    unfold InSpan at hlink
    omega

/-- The nodes with that of a new process before the head. -/
theorem nodes_swap (hl : ProcLayout klist (p :: s.seen)) (hp : p ∉ s.seen) (hn : s.proclist.list.Nodup) :
    Spread 8 ((p + offList) :: (klist + offProcs) :: s.proclist.list.map (· + offList)) := by
  have hpl : p ∉ s.proclist.list := fun hm => hp (mem_seen hm)
  have hmem : ∀ q ∈ p :: s.proclist.list, q ∈ p :: s.seen := fun q hq =>
    List.mem_cons.mpr ((List.mem_cons.mp hq).imp id mem_seen)
  have hsp := nodes_spread hl hmem (List.nodup_cons.mpr ⟨hpl, hn⟩)
  exact ⟨(List.Perm.swap ..).nodup_iff.mp hsp.nodup, fun a ha b hb => hsp.apart a ((List.Perm.swap ..).mem_iff.mp ha) b
    ((List.Perm.swap ..).mem_iff.mp hb), fun a ha => hsp.top a ((List.Perm.swap ..).mem_iff.mp ha)⟩

theorem addLast_writes (h : ProcImage klist m s) (hl : ProcLayout klist (p :: s.seen)) (hp : p ∉ s.seen)
    (hn : s.proclist.list.Nodup) : WritesOnly (LinkByte ((klist + offProcs) :: (p :: s.proclist.list).map (· + offList))) m
      (listAddTail (p + offList) (klist + offProcs) m) := by
  refine (writes_listAddTail h.ring.prev_head fun a ha => (nodes_swap hl hp hn).top a ha).mono fun x hx => ?_
  obtain ⟨a, ha, hx⟩ := hx
  exact ⟨a, (List.Perm.swap ..).mem_iff.mp ha, hx⟩

theorem ProcImage.addLast (h : ProcImage klist m s) (hl : ProcLayout klist (p :: s.seen)) (hp : p ∉ s.seen)
    (hn : s.proclist.list.Nodup) : ProcImage klist (listAddTail (p + offList) (klist + offProcs) m)
      { s with proclist := { s.proclist with list := s.proclist.list ++ [p] }
               proc := Function.update s.proc p (processAt m p) } := by
  have hsub : ∀ q ∈ p :: s.proclist.list, q ∈ p :: s.seen := fun q hq =>
    List.mem_cons.mpr ((List.mem_cons.mp hq).imp id mem_seen)
  refine h.relink hl hsub (addLast_writes h hl hp hn) ?_ ?_
  · rw [List.map_append]
    exact ring_listAddLast h.ring (nodes_swap hl hp hn)
  · intro q hq
    by_cases hqp : q = p
    · subst hqp
      exact ⟨List.mem_cons_self, (Function.update_self q (processAt m q) s.proc).symm⟩
    · have hqs : q ∈ s.seen := by
        rcases List.mem_cons.mp hq with rfl | hq
        · exact List.mem_cons_self
        · rcases List.mem_append.mp hq with hq | hq
          · exact mem_seen hq
          · exact absurd (List.mem_singleton.mp hq) hqp
      rw [Function.update_of_ne hqp]
      exact ⟨List.mem_cons_of_mem _ hqs, h.procs q hqs⟩

theorem ProcImage.delete (h : ProcImage klist m s) (hl : ProcLayout klist s.seen) (hp : p ∈ s.proclist.list)
    (hn : s.proclist.list.Nodup) : ProcImage klist (listDel (p + offList) m)
        { s with proclist := { s.proclist with list := s.proclist.list.erase p } } ∧
      WritesOnly (LinkByte ((klist + offProcs) :: s.proclist.list.map (· + offList))) m (listDel (p + offList) m) := by
  obtain ⟨pre, post, hlist⟩ := List.append_of_mem hp
  have hsp := nodes_spread hl (fun q hq => mem_seen hq) hn
  have hring := h.ring
  have hpre : p ∉ pre := fun hm => by
    rw [hlist] at hn
    exact (List.nodup_append.mp hn).2.2 p hm p List.mem_cons_self rfl
  have herase : s.proclist.list.erase p = pre ++ post := by
    rw [hlist, List.erase_append_right _ hpre, List.erase_cons_head]
  rw [hlist, List.map_append, List.map_cons] at hring hsp
  have hsub : ∀ q ∈ pre ++ post, q ∈ s.seen := fun q hq => mem_seen <| hlist ▸
    List.mem_append.mpr ((List.mem_append.mp hq).imp id (List.mem_cons_of_mem _))
  have hw := writes_listDel hring hsp
  refine ⟨h.relink hl hsub ?_ ?_ ?_, hw.mono fun x hx => ?_⟩
  · rw [List.map_append]
    exact hw
  · rw [herase, List.map_append]
    exact ring_listDel hring hsp
  · intro q hq
    have hqs : q ∈ s.seen := List.mem_cons.mpr ((List.mem_cons.mp hq).imp id List.mem_of_mem_erase)
    exact ⟨hqs, h.procs q hqs⟩
  · obtain ⟨a, ha, hx⟩ := hx
    refine ⟨a, ?_, hx⟩
    rw [hlist, List.map_append, List.map_cons]
    rcases List.mem_cons.mp ha with rfl | ha
    · exact List.mem_cons_self
    · exact List.mem_cons_of_mem _
        (List.mem_append.mpr ((List.mem_append.mp ha).imp id (List.mem_cons_of_mem _)))

theorem ProcImage.setPidcnt (h : ProcImage klist m s) (hl : ProcLayout klist s.seen) (n : U32) :
    ProcImage klist (m.store32 (klist + offPidcnt) n) { s with proclist := { s.proclist with pidcnt := n } } := by
  obtain ⟨hring, hprocs, hload⟩ := h.member hl (a := offPidcnt) (by decide) n
  have hcur := hload 0 (by decide) (by decide)
  rw [show klist + 0 = klist from BitVec.add_zero klist] at hcur
  refine ⟨hcur.trans h.current, load32_store32_same _ _ _, (hload offCount (by decide) (by decide)).trans h.count, ?_,
    hring, hprocs⟩
  rw [isKernelPreemptMem, hload offPreempt (by decide) (by decide)]
  exact h.preempt

theorem ProcImage.setCount (h : ProcImage klist m s) (hl : ProcLayout klist s.seen) (n : U32) :
    ProcImage klist (m.store32 (klist + offCount) n) { s with proclist := { s.proclist with count := n } } := by
  obtain ⟨hring, hprocs, hload⟩ := h.member hl (a := offCount) (by decide) n
  have hcur := hload 0 (by decide) (by decide)
  rw [show klist + 0 = klist from BitVec.add_zero klist] at hcur
  refine ⟨hcur.trans h.current, (hload offPidcnt (by decide) (by decide)).trans h.pidcnt, load32_store32_same _ _ _, ?_,
    hring, hprocs⟩
  rw [isKernelPreemptMem, hload offPreempt (by decide) (by decide)]
  exact h.preempt

end

/-! `create_process`. -/

section
variable {m m' : Mem} {p k : U32}

theorem memset_byte (v : U8) : ∀ (n : Nat) (dest : U32) (m : Mem), dest.toNat + n ≤ 2 ^ 32 →
    ∀ x, InSpan dest n x → (memset dest v n m).byte x = v
  | 0, dest, _, _, x, hx => by unfold InSpan at hx; omega
  | n + 1, dest, m, h, x, hx => by
    unfold InSpan at hx
    rw [memset]
    by_cases hn : n = 0
    · subst hn
      obtain rfl : x = dest := by bv_omega
      exact byte_store8_same _ _ _
    · have e : (dest + 1).toNat = dest.toNat + 1 := by bv_omega
      by_cases hxd : x = dest
      · subst hxd
        rw [(memset_writes v n (x + 1) _ (by omega)).2 x (by unfold InSpan; omega), byte_store8_same]
      · exact memset_byte v n (dest + 1) _ (by omega) x (by unfold InSpan; bv_omega)

theorem processAt_pid (hp : p.toNat + 84 ≤ 2 ^ 32) (m : Mem) (v : U32) :
    processAt (m.store32 (p + offPid) v) p = { processAt m p with pid := v } := by
  have hw := writes_part32 hp (a := offPid) (by decide) m v
  unfold processAt
  rw [load32_store32_same, load32_beside hp hw (b := offKstack) (by decide) (by decide) (by decide),
    byte_beside hp hw (b := offState) (by decide) (by decide) (by decide),
    load16_beside hp hw (b := offTicks) (by decide) (by decide) (by decide),
    load32_beside hp hw (b := offTimeout) (by decide) (by decide) (by decide),
    load32_beside hp hw (b := offParent) (by decide) (by decide) (by decide),
    load32_beside hp hw (b := offTt) (by decide) (by decide) (by decide)]

theorem processAt_kstack (hp : p.toNat + 84 ≤ 2 ^ 32) (m : Mem) (v : U32) :
    processAt (m.store32 (p + offKstack) v) p = { processAt m p with kstack := v } := by
  have hw := writes_part32 hp (a := offKstack) (by decide) m v
  unfold processAt
  rw [load32_store32_same, load32_beside hp hw (b := offPid) (by decide) (by decide) (by decide),
    byte_beside hp hw (b := offState) (by decide) (by decide) (by decide),
    load16_beside hp hw (b := offTicks) (by decide) (by decide) (by decide),
    load32_beside hp hw (b := offTimeout) (by decide) (by decide) (by decide),
    load32_beside hp hw (b := offParent) (by decide) (by decide) (by decide),
    load32_beside hp hw (b := offTt) (by decide) (by decide) (by decide)]

theorem processAt_zero (hp : p.toNat + 84 ≤ 2 ^ 32) (h : ∀ x, InSpan p 84 x → m.byte x = 0) :
    processAt m p = ⟨0, 0, .unset, 0, 0, 0, 0⟩ := by
  -- the record of a memory of zeros, byte for byte
  have hz : processAt ⟨fun _ => 0, []⟩ p = ⟨0, 0, .unset, 0, 0, 0, 0⟩ := by
    simp [processAt, load32, load16, stateOf]
  rw [← hz]
  refine processAt_congr hp fun x hx => h x ?_
  unfold RecordByte at hx
  unfold InSpan
  omega

theorem fillProcess_record (pid name : U32) (hp : p.toNat + 84 ≤ 2 ^ 32) (m : Mem) :
    processAt (fillProcess p pid name m) p = ⟨pid, 0, .unset, 0, 0, 0, 0⟩ := by
  have e32 : (p + offName).toNat = p.toNat + 32 := off_toNat hp (by decide)
  have hname := strncpy_writes (32 - 1) (p + offName) name ((memset p 0 procSize.toNat m).store32 (p + offPid) pid)
    (by omega)
  rw [fillProcess, processAt_congr hp fun x hx => hname.2 x fun hx' => ?_, processAt_pid hp,
    processAt_zero hp (memset_byte 0 procSize.toNat p m hp)]
  unfold RecordByte at hx
  unfold InSpan at hx'
  omega

/-- The bytes of a new process: its structure, and its stack with the three bytes above it. -/
def FreshByte (p k x : U32) : Prop := InSpan p 84 x ∨ InSpan k 4099 x

theorem fillStack_record (hp : p.toNat + 84 ≤ 2 ^ 32) (hk : k.toNat + 4099 ≤ 2 ^ 32)
    (hoff : ∀ x, InSpan k 4099 x → ¬ InSpan p 84 x) (hread : m.load32 (p + offKstack) = k) :
    processAt (fillStack p m) p = processAt m p ∧ (fillStack p m).load32 p = k + (stackSize - 1) ∧
      WritesOnly (FreshByte p k) m (fillStack p m) := by
  have e8 : (p + offKstack).toNat = p.toNat + 8 := off_toNat hp (by decide)
  have hset : WritesOnly (InSpan k 4096) m (memset k 0 stackSize.toNat m) :=
    memset_writes 0 stackSize.toNat k m (by rw [stackSize_toNat]; omega)
  have hstack : ∀ x, InSpan k 4096 x → ¬ InSpan p 84 x := fun x hx => hoff x (by unfold InSpan at hx ⊢; omega)
  have hread' : (memset k 0 stackSize.toNat m).load32 (p + offKstack) = k := by
    rw [hset.load32_eq (by omega) fun x hx hx' => hstack x hx' (by unfold InSpan at hx ⊢; omega), hread]
  have hfill : fillStack p m = (memset k 0 stackSize.toNat m).store32 p (k + (stackSize - 1)) := by
    rw [fillStack, hread]
    simp only [hread']
  have hesp : WritesOnly (InSpan p 4) (memset k 0 stackSize.toNat m) (fillStack p m) := by
    rw [hfill]
    exact WritesOnly.store32 _ _ (by omega) fun _ hx => hx
  refine ⟨?_, by rw [hfill, load32_store32_same], ?_⟩
  · rw [processAt_congr hp fun x hx => hesp.2 x fun hx' => ?_, processAt_congr hp fun x hx => hset.2 x fun hx' => ?_]
    · refine hstack x hx' ?_
      unfold RecordByte at hx
      unfold InSpan
      omega
    · unfold RecordByte at hx
      unfold InSpan at hx'
      omega
  · refine (hset.mono fun x hx => .inr ?_).trans (hesp.mono fun x hx => .inl ?_)
    · unfold InSpan at hx ⊢
      omega
    · unfold InSpan at hx ⊢
      omega

/-- A frame and the `esp` and `ss` of its process. -/
def SetupByte (p k x : U32) : Prop := InSpan p 8 x ∨ InSpan k 4099 x

/-- `setup_kernel_process` stores outside the table, but for the state. -/
theorem setupKernelProcess_eq (proc : U32) (hp : p.toNat + 84 ≤ 2 ^ 32) (hk : k.toNat + 4099 ≤ 2 ^ 32)
    (hesp : m.load32 p = k + (stackSize - 1)) : ∃ m₁, WritesOnly (SetupByte p k) m m₁ ∧
      setupKernelProcess p proc m = m₁.store8 (p + offState) 0x1 := by
  have etop : (k + (stackSize - 1)).toNat = k.toNat + 4095 := by unfold stackSize; bv_omega
  have hlen : (initialFrame p proc).length = 16 := rfl
  have e4 : (p + offSs).toNat = p.toNat + 4 := off_toNat hp (by decide)
  have hframe := storeDown_writes (initialFrame p proc) (k + (stackSize - 1)) m (by omega) (by omega)
  rw [hlen] at hframe
  have hesp' : ∀ (m : Mem) (w : U32), WritesOnly (SetupByte p k) m (m.store32 p w) := fun m w =>
    WritesOnly.store32 m w (by omega) fun x hx => .inl (by unfold InSpan at hx ⊢; omega)
  have hss : ∀ (m : Mem) (w : U32), WritesOnly (SetupByte p k) m (m.store32 (p + offSs) w) := fun m w =>
    WritesOnly.store32 m w (by omega) fun x hx => .inl (by unfold InSpan at hx ⊢; omega)
  refine ⟨_, ((hframe.mono fun x hx => .inr ?_).trans (hesp' _ _)).trans (hss _ _),
    by rw [setupKernelProcess, hesp]; rfl⟩
  unfold InSpan
  omega

theorem setParent_updates (hp : p.toNat + 84 ≤ 2 ^ 32) (m : Mem) (v : U32) :
    Updates (fun q => { q with parent := v }) p m (m.store32 (p + offParent) v) :=
  ⟨(writes_part32 hp (by decide) m v).mono fun _ hx => fields_part hp (by decide) (by decide) (by decide) hx,
    processAt_parent hp m v⟩

theorem fillAccount_updates (hp : p.toNat + 84 ≤ 2 ^ 32) (m : Mem) (parent : U32) :
    Updates (fun q => { q with ticks := 100, tt := 0, parent := parent }) p m (fillAccount p parent m) :=
  ((setTicks_updates hp m 100).trans (setTt_updates hp _ 0)).trans (setParent_updates hp _ parent)

end

/-- Both blocks are got, by calls of `kmalloc` that leave the table alone, and are apart from it. -/
structure CreateGiven (L : HeapLayout) (klist name : U32) (ps held : List U32) (s : Heap) (p k : U32) : Prop where
  given : ∃ s₁ s₂, kmalloc L procSize s = some (p, s₁) ∧
    kmalloc L stackSize { s₁ with mem := fillProcess p (s.mem.load32 (klist + offPidcnt)) name s₁.mem } = some (k, s₂) ∧
    (∀ x, ProcTableByte klist ps x → s₁.mem.byte x = s.mem.byte x) ∧
    ∀ x, ProcTableByte klist ps x ∨ InSpan p 84 x →
      s₂.mem.byte x = (fillProcess p (s.mem.load32 (klist + offPidcnt)) name s₁.mem).byte x
  proc_null : p ≠ 0
  stack_null : k ≠ 0
  apart : p ≠ k
  proc_new : p ∉ held
  stack_new : k ∉ held
  layout : ProcLayout klist (p :: ps)
  proc_top : p.toNat + 84 < 2 ^ 32
  stack_top : k.toNat + 4099 ≤ 2 ^ 32
  stack : ∀ x, InSpan k 4099 x → ¬ InSpan klist 24 x ∧ ∀ q ∈ p :: ps, ¬ InSpan q 84 x

section
variable {L : HeapLayout} {klist name p k : U32} {s : Heap} {t : Kernel} {held : List U32}

theorem freshByte_off (hg : CreateGiven L klist name t.seen held s p k) (hp : p ∉ t.seen) {x : U32} (hx : FreshByte p k x) :
    ¬ ProcTableByte klist t.seen x := by
  rintro (h | ⟨q, hq, h⟩)
  · rcases hx with hx | hx
    · have := hg.layout.off p List.mem_cons_self
      unfold InSpan at h hx
      omega
    · exact (hg.stack x hx).1 h
  · unfold TableByte at h
    rcases hx with hx | hx
    · have := hg.layout.apart p List.mem_cons_self q (List.mem_cons_of_mem _ hq) fun e => hp (e ▸ hq)
      unfold InSpan at hx
      omega
    · exact (hg.stack x hx).2 q (List.mem_cons_of_mem _ hq) (by unfold InSpan; omega)

theorem setupByte_off {qs : List U32} (hg : CreateGiven L klist name t.seen held s p k) (hq : ∀ q ∈ qs, q ∈ p :: t.seen)
    {x : U32} (hx : SetupByte p k x) : ¬ ProcTableByte klist qs x := by
  have hp := hg.layout.off p List.mem_cons_self
  rintro (h | ⟨q, hqs, h⟩)
  · rcases hx with hx | hx
    · unfold InSpan at h hx
      omega
    · exact (hg.stack x hx).1 h
  · unfold TableByte at h
    rcases hx with hx | hx
    · unfold InSpan at hx
      by_cases hqp : q = p
      · subst hqp
        omega
      · have := hg.layout.apart q (hq q hqs) p List.mem_cons_self hqp
        omega
    · exact (hg.stack x hx).2 q (hq q hqs) (by unfold InSpan; omega)

/-- What `create_process` stores from the second `kmalloc` on. -/
def CreateByte (klist p k : U32) (qs : List U32) (x : U32) : Prop :=
  FreshByte p k x ∨ InSpan klist 24 x ∨ LinkByte ((klist + offProcs) :: (p :: qs).map (· + offList)) x

/-- The memory when the new process is about to be put on the list. -/
theorem create_filled (h : ProcImage klist s.mem t) (hg : CreateGiven L klist name t.seen held s p k) (hp : p ∉ t.seen) :
    ∃ s₁ s₂, kmalloc L procSize s = some (p, s₁) ∧
      kmalloc L stackSize { s₁ with mem := fillProcess p t.proclist.pidcnt name s₁.mem } = some (k, s₂) ∧
      ProcImage klist (fillStack p (s₂.mem.store32 (p + offKstack) k)) t ∧
      processAt (fillStack p (s₂.mem.store32 (p + offKstack) k)) p = ⟨t.proclist.pidcnt, k, .unset, 0, 0, 0, 0⟩ ∧
      (fillStack p (s₂.mem.store32 (p + offKstack) k)).load32 p = k + (stackSize - 1) ∧
      WritesOnly (FreshByte p k) s₂.mem (fillStack p (s₂.mem.store32 (p + offKstack) k)) := by
  obtain ⟨s₁, s₂, hk₁, hk₂, hkeep₁, hkeep₂⟩ := hg.given
  rw [h.pidcnt] at hk₂ hkeep₂
  have hfit : p.toNat + 84 ≤ 2 ^ 32 := hg.proc_top.le
  have hl : ProcLayout klist t.seen := hg.layout.mono fun q hq => List.mem_cons_of_mem _ hq
  have hoff : ∀ x, InSpan k 4099 x → ¬ InSpan p 84 x := fun x hx => (hg.stack x hx).2 p List.mem_cons_self
  have hw₁ := fillProcess_writes (m := s₁.mem) t.proclist.pidcnt name hg.proc_top
  have hrec₂ : processAt s₂.mem p = ⟨t.proclist.pidcnt, 0, .unset, 0, 0, 0, 0⟩ := by
    refine (processAt_congr hfit fun x hx => hkeep₂ x (.inr ?_)).trans (fillProcess_record _ name hfit s₁.mem)
    unfold RecordByte at hx
    unfold InSpan
    omega
  have e8 : (p + offKstack).toNat = p.toNat + 8 := off_toNat hfit (by decide)
  have hw₂ : WritesOnly (FreshByte p k) s₂.mem (s₂.mem.store32 (p + offKstack) k) :=
    (writes_part32 hfit (a := offKstack) (by decide) s₂.mem k).mono fun x hx => .inl (by unfold InSpan at hx ⊢; omega)
  obtain ⟨hrec₃, hesp, hw₃⟩ := fillStack_record hfit hg.stack_top hoff (load32_store32_same s₂.mem (p + offKstack) k)
  have hw₂₃ := hw₂.trans hw₃
  refine ⟨s₁, s₂, hk₁, hk₂, h.keep hl fun x hx => ?_, ?_, hesp, hw₂₃⟩
  · have hnot : ¬ FreshByte p k x := fun hf => freshByte_off hg hp hf hx
    rw [hw₂₃.2 x hnot, hkeep₂ x (.inl hx), hw₁.2 x fun hx' => hnot (.inl hx'), hkeep₁ x hx]
  · rw [hrec₃, processAt_kstack hfit, hrec₂]

/-- **`create_process` in memory.** -/
theorem create_image (h : ProcImage klist s.mem t) (hg : CreateGiven L klist name t.seen held s p k) (hp : p ∉ t.seen)
    (hn : t.proclist.list.Nodup) (arg proc : U32) : ∃ c s₁ s₂ m', kmalloc L procSize s = some (p, s₁) ∧
      kmalloc L stackSize { s₁ with mem := fillProcess p (procGlobals klist s.mem).pidcnt name s₁.mem } = some (k, s₂) ∧
      createTableMem L klist name arg proc s = some (c, { s₂ with mem := m' }) ∧
      ProcImage klist m' (createProcess p k t).2 ∧ WritesOnly (CreateByte klist p k t.proclist.list) s₂.mem m' := by
  obtain ⟨s₁, s₂, hk₁, hk₂, h₃, hrec₃, hesp₃, hw₃⟩ := create_filled h hg hp
  have hfit : p.toNat + 84 ≤ 2 ^ 32 := hg.proc_top.le
  have htop := hg.layout.top
  have hpid : (procGlobals klist s.mem).pidcnt = t.proclist.pidcnt := h.pidcnt
  have hc := createProcessMem_eq (g := procGlobals klist s.mem) (klist + offProcs) arg proc hk₁ hg.proc_null
    (by rw [hpid]; exact hk₂) hg.stack_null
  simp only at hc
  refine ⟨_, s₁, s₂, _, hk₁, by rw [hpid]; exact hk₂, by rw [createTableMem, hc]; rfl, ?_⟩
  generalize fillStack p (s₂.mem.store32 (p + offKstack) k) = m₃ at *
  rw [show (procGlobals klist s.mem).current = t.proclist.current from h.current, hpid,
    show (procGlobals klist s.mem).count = t.proclist.count from h.count]
  -- on the list
  have h₄ := h₃.addLast hg.layout hp hn
  have hw₄ := addLast_writes h₃ hg.layout hp hn
  rw [hrec₃] at h₄
  have hesp₄ : (listAddTail (p + offList) (klist + offProcs) m₃).load32 p = k + (stackSize - 1) := by
    rw [hw₄.load32_eq (by omega) fun x hx hx' => ?_, hesp₃]
    have hlink := (linkByte_off hg.layout (fun q hq => List.mem_cons.mpr ((List.mem_cons.mp hq).imp id mem_seen)) hx').2 p
      List.mem_cons_self
    unfold InSpan at hx hlink
    omega
  have hw₃₄ : WritesOnly (CreateByte klist p k t.proclist.list) s₂.mem _ :=
    (hw₃.mono fun x hx => .inl hx).trans (hw₄.mono fun x hx => .inr (.inr hx))
  generalize listAddTail (p + offList) (klist + offProcs) m₃ = m₄ at h₄ hesp₄ hw₃₄ ⊢
  -- set up
  obtain ⟨m₅, hw₅, hset⟩ := setupKernelProcess_eq proc hfit hg.stack_top hesp₄
  rw [hset]
  have hfields : ∀ x, FieldsByte p x → CreateByte klist p k t.proclist.list x := fun x hx =>
    .inl (.inl (by unfold FieldsByte at hx; unfold InSpan; omega))
  have hu₅ := setState_updates hfit m₅ 0x1
  have hu₆ := fillAccount_updates hfit (m₅.store8 (p + offState) 0x1) t.proclist.current
  have hw₆ : WritesOnly (CreateByte klist p k t.proclist.list) s₂.mem _ :=
    ((hw₃₄.trans (hw₅.mono fun x hx => .inl (hx.imp (fun h => by unfold InSpan at h ⊢; omega) id))).trans
      (hu₅.writes.mono hfields)).trans (hu₆.writes.mono hfields)
  generalize ht₄ : ({ t with
    proclist := { t.proclist with list := t.proclist.list ++ [p] }
    proc := Function.update t.proc p ⟨t.proclist.pidcnt, k, .unset, 0, 0, 0, 0⟩ } : Kernel) = t₄ at h₄
  have hseen₄ : ∀ q ∈ t₄.seen, q ∈ p :: t.seen := by
    rw [← ht₄]
    intro q hq
    rcases List.mem_cons.mp hq with rfl | hq
    · exact List.mem_cons_of_mem _ List.mem_cons_self
    · rcases List.mem_append.mp hq with hq | hq
      · exact List.mem_cons_of_mem _ (mem_seen hq)
      · exact List.mem_cons.mpr (.inl (List.mem_singleton.mp hq))
  have hl₄ : ProcLayout klist t₄.seen := hg.layout.mono hseen₄
  have hp₄ : p ∈ t₄.seen := by rw [← ht₄]; exact mem_seen (by simp)
  have h₅ : ProcImage klist m₅ t₄ := h₄.keep hl₄ fun x hx => hw₅.2 x fun hx' => setupByte_off hg hseen₄ hx' hx
  have h₆ := (h₅.update hl₄ hp₄ hu₅).update hl₄ hp₄ hu₆
  generalize fillAccount p t.proclist.current (m₅.store8 (p + offState) 0x1) = m₆ at h₆ hw₆ ⊢
  have e4 : (klist + offPidcnt).toNat = klist.toNat + 4 := klist_toNat hg.layout (by decide)
  have e8 : (klist + offCount).toNat = klist.toNat + 8 := klist_toNat hg.layout (by decide)
  refine ⟨((h₆.setPidcnt hl₄ (t.proclist.pidcnt + 1)).setCount hl₄ (t.proclist.count + 1)).congr ?_ ?_,
    (hw₆.trans (WritesOnly.store32 _ _ (by omega) fun x hx => .inr (.inl ?_))).trans
      (WritesOnly.store32 _ _ (by omega) fun x hx => .inr (.inl ?_))⟩
  · rw [← ht₄, createProcess, if_neg hg.proc_null]
    rfl
  · rw [← ht₄, createProcess, if_neg hg.proc_null]
    funext q
    by_cases hq : q = p
    · subst hq
      simp [modify, newProcess, getCurrentProcess, stateOf]
    · simp [modify, hq]
  · unfold InSpan at hx ⊢
    omega
  · unfold InSpan at hx ⊢
    omega

end

/-! `main` up to its first process. -/

section
variable {klist : U32} {m : Mem}

theorem boot_layout (hk : klist.toNat + 24 ≤ 2 ^ 32) (h0 : 84 ≤ klist.toNat) : ProcLayout klist [0] := by
  refine ⟨hk, fun p hp => ?_, fun p hp => ?_, fun p hp q hq hpq => ?_⟩
  · rw [List.mem_singleton.mp hp]
    decide
  · rw [List.mem_singleton.mp hp]
    exact .inl h0
  · exact absurd ((List.mem_singleton.mp hp).trans (List.mem_singleton.mp hq).symm) hpq

theorem boot_writes (hk : klist.toNat + 24 ≤ 2 ^ 32) (m : Mem) :
    WritesOnly (InSpan klist 24) m (enableKernelPreemptMem klist (initProcessMem klist m)) := by
  have e4 : (klist + offPidcnt).toNat = klist.toNat + 4 := by unfold offPidcnt; bv_omega
  have e8 : (klist + offCount).toNat = klist.toNat + 8 := by unfold offCount; bv_omega
  have e12 : (klist + offPreempt).toNat = klist.toNat + 12 := by unfold offPreempt; bv_omega
  have e16 : (klist + offProcs).toNat = klist.toNat + 16 := by unfold offProcs; bv_omega
  have hst : ∀ {a : U32} (m : Mem) (w : U32), klist.toNat ≤ a.toNat → a.toNat + 4 ≤ klist.toNat + 24 →
      WritesOnly (InSpan klist 24) m (m.store32 a w) := fun m w h₁ h₂ =>
    WritesOnly.store32 m w (by omega) fun x hx => by unfold InSpan at hx ⊢; omega
  have hring : WritesOnly (InSpan klist 24) m (initListHead (klist + offProcs) m) :=
    (writes_initListHead m (by omega)).mono fun x hx => by unfold InSpan at hx ⊢; omega
  exact ((((hring.trans (hst _ 0 (by omega) (by omega))).trans (hst _ 0 (by omega) (by omega))).trans
    (hst _ 0 (by omega) (by omega))).trans (hst _ 0 (by omega) (by omega))).trans (hst _ 1 (by omega) (by omega))

theorem boot_image (hk : klist.toNat + 24 ≤ 2 ^ 32) (h0 : 84 ≤ klist.toNat) (m : Mem) :
    ProcImage klist (enableKernelPreemptMem klist (initProcessMem klist m)) (booted (processAt m)) := by
  have e4 : (klist + offPidcnt).toNat = klist.toNat + 4 := klist_toNat (boot_layout hk h0) (by decide)
  have e8 : (klist + offCount).toNat = klist.toNat + 8 := klist_toNat (boot_layout hk h0) (by decide)
  have e12 : (klist + offPreempt).toNat = klist.toNat + 12 := klist_toNat (boot_layout hk h0) (by decide)
  have e16 : (klist + offProcs).toNat = klist.toNat + 16 := klist_toNat (boot_layout hk h0) (by decide)
  have hring := ring_initListHead m (p := klist + offProcs) (by omega)
  have hw₀ : WritesOnly (InSpan klist 24) m (initListHead (klist + offProcs) m) :=
    (writes_initListHead m (by omega)).mono fun x hx => by unfold InSpan at hx ⊢; omega
  have hst : ∀ {a : U32} (m : Mem) (w : U32), klist.toNat ≤ a.toNat → a.toNat + 4 ≤ klist.toNat + 16 →
      WritesOnly (InSpan klist 16) m (m.store32 a w) := fun m w h₁ h₂ =>
    WritesOnly.store32 m w (by omega) fun x hx => by unfold InSpan at hx ⊢; omega
  unfold enableKernelPreemptMem initProcessMem
  dsimp only
  generalize initListHead (klist + offProcs) m = m₀ at hring hw₀ ⊢
  have hw := ((((hst m₀ 0 (a := klist) (by omega) (by omega)).trans (hst _ 0 (a := klist + offPidcnt) (by omega)
    (by omega))).trans (hst _ 0 (a := klist + offCount) (by omega) (by omega))).trans
    (hst _ 0 (a := klist + offPreempt) (by omega) (by omega))).trans
    (hst _ 1 (a := klist + offPreempt) (by omega) (by omega))
  refine ⟨?_, ?_, ?_, ?_, ?_, fun p hp => ?_⟩
  · rw [load32_store32_off _ _ (by omega) (by omega) (by omega), load32_store32_off _ _ (by omega) (by omega) (by omega),
      load32_store32_off _ _ (by omega) (by omega) (by omega), load32_store32_off _ _ (by omega) (by omega) (by omega),
      load32_store32_same]
    rfl
  · rw [load32_store32_off _ _ (by omega) (by omega) (by omega), load32_store32_off _ _ (by omega) (by omega) (by omega),
      load32_store32_off _ _ (by omega) (by omega) (by omega), load32_store32_same]
    rfl
  · rw [load32_store32_off _ _ (by omega) (by omega) (by omega), load32_store32_off _ _ (by omega) (by omega) (by omega),
      load32_store32_same]
    rfl
  · rw [isKernelPreemptMem, load32_store32_same]
    exact iff_of_true (by decide) rfl
  · refine hring.frame hw (fun a ha => ?_) ?_
    · rw [List.mem_singleton.mp ha]
      omega
    · rintro x ⟨a, ha, hx⟩ hx'
      rw [List.mem_singleton.mp ha] at hx
      unfold InSpan at hx hx'
      omega
  · obtain rfl : p = 0 := List.mem_singleton.mp hp
    refine processAt_congr (by decide) fun x hx => ?_
    have hlow : x.toNat < klist.toNat := by
      unfold RecordByte at hx
      rw [show (0 : U32).toNat = 0 from rfl] at hx
      omega
    rw [hw.2 x (by unfold InSpan; omega), hw₀.2 x (by unfold InSpan; omega)]

end

/-! The calls. -/

/-- An operation that is a call of `schedule` and no more than stores to the current structure before it. -/
def IsCall (op : Op) : Prop := op = .timer ∨ op = .expire ∨ ∃ n, op = .sleep n

section
variable {klist : U32} {m : Mem} {s : Kernel}

theorem expire_image (h : ProcImage klist m s) (hl : ProcLayout klist s.seen) :
    ProcImage klist (expireCurrentMem klist m) (expireCurrent s) ∧
      WritesOnly (FieldsByte s.proclist.current) m (expireCurrentMem klist m) := by
  have hu := setTicks_updates (hl.fit _ List.mem_cons_self) m 0
  rw [expireCurrentMem, h.current]
  exact ⟨h.update hl List.mem_cons_self hu, hu.writes⟩

theorem sleep_image (n : U32) (h : ProcImage klist m s) (hl : ProcLayout klist s.seen) :
    ProcImage klist (sleepCurrentMem klist n m) (sleepCurrent n s) ∧
      WritesOnly (FieldsByte s.proclist.current) m (sleepCurrentMem klist n m) := by
  have hfit := hl.fit _ (List.mem_cons_self (a := s.proclist.current))
  have hu := (setState_updates hfit m 0x3).trans (setTimeout_updates hfit _ n)
  unfold sleepCurrentMem
  rw [h.current]
  exact ⟨h.update hl List.mem_cons_self hu, hu.writes⟩

/-- **A call in memory.** -/
theorem call_image {op : Op} (hop : IsCall op) (fuel : Nat) (h : ProcImage klist m s) (hl : ProcLayout klist s.seen)
    (hlen : s.proclist.list.length < 2 ^ 32) {cpu : Cpu} (hr : SwitchRoom klist s.seen cpu.esp) (ret : U32) :
    ∃ m', callMem klist cpu ret fuel op m = some ((exec fuel op s).1, m') ∧ ProcImage klist m' (exec fuel op s).2 ∧
      WritesOnly (ScheduleByte klist s.seen cpu.esp) m m' := by
  have hfields : ∀ x, FieldsByte s.proclist.current x → ScheduleByte klist s.seen cpu.esp x := fun x hx =>
    .inl ⟨_, List.mem_cons_self, hx⟩
  obtain rfl | rfl | ⟨n, rfl⟩ := hop
  · exact schedule_image fuel h hl hlen hr ret
  · obtain ⟨h₁, hw₁⟩ := expire_image h hl
    obtain ⟨m', hrun, him, hw⟩ := schedule_image fuel h₁ hl hlen hr ret
    exact ⟨m', hrun, him, (hw₁.mono hfields).trans hw⟩
  · obtain ⟨h₁, hw₁⟩ := sleep_image n h hl
    obtain ⟨h₂, hw₂⟩ := expire_image h₁ hl
    obtain ⟨m', hrun, him, hw⟩ := schedule_image fuel h₂ hl hlen hr ret
    exact ⟨m', hrun, him, ((hw₁.mono hfields).trans (hw₂.mono hfields)).trans hw⟩

theorem schedule_seen (fuel : Nat) (s : Kernel) : ∀ q ∈ (schedule fuel s).2.seen, q ∈ s.seen := by
  intro q hq
  by_cases hs : Scheduling s
  · by_cases ht : HasTicks s
    · rw [schedule_ticks hs ht, Kernel.seen, accountTicks, modify_proclist, updateTimeouts_proclist] at hq
      exact hq
    · cases hsel : selectNextProcess fuel (searchState s) with
      | mk found t =>
        have hpl : t.proclist = s.proclist := by
          have := (select_searched fuel (searchState s)).proclist
          rw [hsel] at this
          exact this.trans (updateTimeouts_proclist s)
        cases found with
        | none =>
          rw [schedule_lost hs ht hsel, Kernel.seen, hpl] at hq
          exact hq
        | some p =>
          rw [schedule_found hs ht hsel, Kernel.seen, dispatch_current, (scheduled_dispatch p t).list, hpl] at hq
          rcases List.mem_cons.mp hq with rfl | hq
          · exact mem_seen (hpl ▸ (select_some hsel).1)
          · exact mem_seen hq
  · rw [schedule_idle hs] at hq
    exact hq

theorem free_image {hp : Heap} (h : ProcImage klist hp.mem s) (hl : ProcLayout klist s.seen)
    (hc : s.proclist.current ∈ s.proclist.list) (hn : s.proclist.list.Nodup)
    (hfree : ∀ x, ProcTableByte klist s.seen x →
      (freeCurrentMem klist hp).mem.byte x = (listDel (hp.mem.load32 klist + offList) hp.mem).byte x) :
    ProcImage klist (freeCurrentMem klist hp).mem (freeCurrent s) := by
  rw [h.current] at hfree
  have h₁ : ProcImage klist (freeCurrentMem klist hp).mem _ := (h.delete hl hc hn).1.keep
    (hl.mono fun q hq => List.mem_cons.mpr ((List.mem_cons.mp hq).imp id List.mem_of_mem_erase)) fun x hx => hfree x ?_
  · exact h₁.congr rfl rfl
  · rcases hx with hx | ⟨q, hq, hx⟩
    · exact .inl hx
    · exact .inr ⟨q, List.mem_cons.mpr ((List.mem_cons.mp hq).imp id List.mem_of_mem_erase), hx⟩

end

end LineOS
