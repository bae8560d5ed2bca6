import LineOS.CreateWrites
import LineOS.ObjectStore

/- The heap is a store of objects: every run of `kmalloc`, `kfree` and the clients'
   loads and stores is one of `ObjectStore`, where the payloads are the objects. So a
   payload keeps what its owner stored to it until it is freed, whatever the others
   do in between (`heap_store`): the searches, splits and growth of `kmalloc` never show. -/
namespace LineOS
open ByteMemory ByteMemory.Mem LinkedRing Tiling ObjectStore

def payloadCells (l : U32 × U32) (x : U32) : Prop := InSpan l.1 l.2.toNat x

inductive HeapStep (L : HeapLayout) :
    Heap × List (U32 × U32) → StoreOp U32 U8 (U32 × U32) → Heap × List (U32 × U32) → Prop
  | kmalloc {s live bytes p s'} : bytes ≠ 0 → Admissible L bytes s → kmalloc L bytes s = some (p, s') →
      HeapStep L (s, live) (.alloc (p, bytes)) (s', (p, bytes) :: live)
  | kfree {s live} (l : U32 × U32) : l ∈ live → HeapStep L (s, live) (.free l) (kfree l.1 s, live.erase l)
  | store {s live} (x : U32) (v : U8) : InUse payloadCells live x →
      HeapStep L (s, live) (.store x v) ({ s with mem := s.mem.store8 x v }, live)
  | load {s live} (x : U32) : InUse payloadCells live x → HeapStep L (s, live) (.load x (s.mem.byte x)) (s, live)
  | other {s live} (x : U32) (v : U8) : ¬ InSpan L.chain 16 x → x.toNat < s.base.toNat ∨ s.brk.toNat ≤ x.toNat →
      HeapStep L (s, live) .other ({ s with mem := s.mem.store8 x v }, live)

/-- The payloads, with the bytes of memory. -/
def objects (w : Heap × List (U32 × U32)) : Objects U32 U8 (U32 × U32) := ⟨w.2, w.1.mem.byte⟩

section
variable {L : HeapLayout} {s s' : Heap} {live live' : List (U32 × U32)} {p : U32}

theorem kmalloc_keeps {bytes : U32} (h : Sound L s live) (hne : bytes ≠ 0) (had : Admissible L bytes s)
    (hk : kmalloc L bytes s = some (p, s')) : WritesOnly (fun x => ¬ InUse payloadCells live x) s.mem s'.mem := by
  obtain ⟨bs, hi, hl⟩ := h
  have hrange : ∀ l ∈ live, L.kernelEnd.toNat ≤ l.1.toNat ∧ l.1.toNat + l.2.toNat ≤ s.brk.toNat := by
    intro l hlm
    have hin := (live_apart hi hl).1 l hlm
    rwa [hi.base_eq] at hin
  have hch := chain_bounds L
  cases hf : firstFit bytes bs with
  | none =>
    -- the new block lies behind all payloads, and the byte at 16 before them
    have hlt : s.brk.toNat + 20 + bytes.toNat < brkMax.toNat :=
      had.resolve_left fun h => (freeFits_iff hi bytes).1 h hf
    have hmax := hlt
    rw [brkMax_toNat] at hmax
    have e16 : (s.brk + 16).toNat = s.brk.toNat + 16 := by bv_omega
    have z16 : (16 : U32).toNat = 16 := rfl
    obtain ⟨-, hw⟩ := grow_inv hi hlt
    have h1 : (kmallocGrow L bytes s).1 = s.brk := by rw [kmallocGrow_eq hlt]
    rw [kmalloc_unfold_grow hi hne hf, h1] at hk
    obtain ⟨-, rfl⟩ := Prod.mk.inj (Option.some.inj hk)
    have hbehind : ∀ x : U32, s.brk.toNat ≤ x.toNat → ¬ InUse payloadCells live x := by
      rintro x hx ⟨l, hlm, -, hx₂⟩
      have := hrange l hlm
      omega
    refine (hw.mono fun x hx => ?_).trans (WritesOnly.store8 _ _ (hbehind _ (by omega)))
    rcases hx with rfl | hx | ⟨a, ha, hxa⟩
    · rintro ⟨l, hlm, hx₁, -⟩
      have := hrange l hlm
      omega
    · exact hbehind x (by unfold DataByte at hx; omega)
    · by_cases hab : a = s.brk
      · exact hbehind x (by rw [hab] at hxa; exact hxa.1)
      · rintro ⟨l, hlm, hx'⟩
        refine payload_not_own hi hl hlm hx' (.inl ⟨a, ?_, hxa⟩)
        rcases List.mem_cons.mp ha with rfl | ha
        · exact List.mem_cons_self
        · exact List.mem_cons_of_mem _ ((List.mem_cons.mp ha).resolve_left hab)
  | some b =>
    obtain ⟨-, hfree, pre, post, rfl⟩ := firstFit_some hf
    obtain ⟨t, hk', hi', -, -, hw⟩ := kmalloc_reuse hi hne hf
    rw [hk] at hk'
    obtain ⟨-, rfl⟩ := Prod.mk.inj (Option.some.inj hk')
    have hl' := hl.mono fun c hc hu => mem_reused (b := b) bytes (used_middle hfree hc hu)
    refine hw.mono fun x hx => ?_
    rintro ⟨l, hlm, hx'⟩
    exact payload_not_own hi' hl' hlm hx' (reuse_own hx)

theorem kfree_keeps {l : U32 × U32} (h : Sound L s live) (hlm : l ∈ live) :
    WritesOnly (fun x => ¬ InUse payloadCells live x) s.mem (kfree l.1 s).mem := by
  obtain ⟨bs, hi, hl⟩ := h
  obtain ⟨b, hb, -, hbp, -⟩ := hl.owner l hlm
  obtain ⟨pre, post, rfl⟩ := List.append_of_mem hb
  rw [hbp]
  obtain ⟨-, -, -, hw⟩ := kfree_step hi
  refine hw.mono fun x hx => ?_
  rintro ⟨l', hl', hx'⟩
  exact payload_not_own hi hl hl' hx' (.inr ⟨b, hb, hx⟩)

theorem heapStep_reach {w w' : Heap × List (U32 × U32)} {op : StoreOp U32 U8 (U32 × U32)} (h : Reach L w.1 w.2)
    (hs : HeapStep L w op w') : Reach L w'.1 w'.2 := by
  cases hs with
  | kmalloc hne had hk => exact .kmalloc h hne had hk
  | kfree l hl => exact .kfree l h hl
  | store x v hx => exact .client x v h (.inl hx)
  | load x hx => exact h
  | other x v hc hx => exact .client x v h (.inr ⟨hc, hx⟩)

theorem inUse_erase {l : U32 × U32} {x : U32} (h : InUse payloadCells (live.erase l) x) : InUse payloadCells live x := by
  obtain ⟨r, hr, hx⟩ := h
  exact ⟨r, List.mem_of_mem_erase hr, hx⟩

/-- **The step lemma**: a step of the heap is one of the store. -/
theorem heapStep_objects {w w' : Heap × List (U32 × U32)} {op : StoreOp U32 U8 (U32 × U32)} (h : Reach L w.1 w.2)
    (hs : HeapStep L w op w') : Step payloadCells (objects w) op (objects w') := by
  cases hs with
  | @kmalloc s live bytes p s' hne had hk =>
    have hw := kmalloc_keeps (run_inv h) hne had hk
    have hr := run_inv (Reach.kmalloc h hne had hk)
    refine .alloc (p, bytes) ?_ fun a ha => hw.2 a (not_not.mpr ha)
    rintro a ha ⟨l, hlm, hx⟩
    have hp := (kmalloc_fresh (run_inv h) hne had hk).2 l hlm
    have hgap := live_gap hr (List.mem_cons_of_mem _ hlm) List.mem_cons_self hp
    have ha' : p.toNat ≤ a.toNat ∧ a.toNat < p.toNat + bytes.toNat := ha
    have hx' : l.1.toNat ≤ a.toNat ∧ a.toNat < l.1.toNat + l.2.toNat := hx
    dsimp only at hgap
    omega
  | kfree l hl => exact .free l hl fun a ha => (kfree_keeps (run_inv h) hl).2 a (not_not.mpr (inUse_erase ha))
  | @store s live x v hx =>
    have hcell : objects ({ s with mem := s.mem.store8 x v }, live) = ⟨live, Function.update s.mem.byte x v⟩ := by
      simp only [objects, Objects.mk.injEq, true_and]
      funext a
      rw [Function.update_apply]
      rfl
    rw [hcell]
    exact .store x v hx
  | load x hx => exact .load x hx
  | @other s live x v hc hx =>
    refine .other fun a ha => byte_store8_ne _ _ ?_
    rintro rfl
    obtain ⟨l, hlm, hx₁, hx₂⟩ := ha
    obtain ⟨bs, hi, hl⟩ := run_inv h
    obtain ⟨h₁, h₂⟩ := (live_apart hi hl).1 l hlm
    dsimp only at hx h₁ h₂
    omega

/-- **The heap is a store of objects.** Every run from a reachable heap is a run of the store with the same
operations, loads with what they return included. Whatever is done to the others meanwhile, a payload that is not
freed stays in use, and each of its bytes is the last one stored to it, or what it was. -/
theorem heap_store {ops : List (StoreOp U32 U8 (U32 × U32))} (h : Reach L s live)
    (hr : Trace (HeapStep L) (s, live) ops (s', live')) :
    Trace (Step payloadCells) (objects (s, live)) ops (objects (s', live')) ∧
      ∀ l ∈ live, StoreOp.free l ∉ ops → l ∈ live' ∧
        ∀ x, InSpan l.1 l.2.toNat x → s'.mem.byte x = last x (s.mem.byte x) ops := by
  have hobj : Trace (Step payloadCells) (objects (s, live)) ops (objects (s', live')) :=
    Trace.map (I := fun w => Reach L w.1 w.2) objects hr h
      fun _ _ _ hi hs => ⟨heapStep_reach hi hs, heapStep_objects hi hs⟩
  exact ⟨hobj, fun _ hl hf => trace_cell hobj hl hf⟩

end

theorem heap_store_sample : ∃ p s', kmalloc sampleLayout 1000 { sampleHeap with mem := sampleHeap.mem.store8 0xC000A020 5 } =
    some (p, s') ∧ s'.mem.byte 0xC000A020 = 5 := by
  have hstore : HeapStep sampleLayout (sampleHeap, [(0xC000A014, 40), (0xC000A08C, 4096)]) (.store 0xC000A020 5) _ :=
    .store 0xC000A020 5 ⟨(0xC000A014, 40), by decide, by unfold payloadCells InSpan; decide⟩
  have hk : kmalloc sampleLayout 1000 { sampleHeap with mem := sampleHeap.mem.store8 0xC000A020 5 } = some (_, _) := rfl
  obtain ⟨-, hkeep⟩ := heap_store sampleHeap_reach
    ((Trace.nil.snoc hstore).snoc (.kmalloc (by decide) (.inr (by decide)) hk))
  refine ⟨_, _, hk, ?_⟩
  exact (hkeep (0xC000A014, 40) (by decide) (by simp)).2 0xC000A020 (by unfold InSpan; decide)

end LineOS
