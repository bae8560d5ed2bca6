import LineOS.HeapSafety

/- The counters of `k_malloc_chain` against the chain, along runs in which `kfree` may be given
   any pointer that `kmalloc` ever returned, a freed one too: blocks are split and never joined,
   so behind such a pointer there is a header for good, and its magic passes. `total_blocks` is
   the number of blocks. `used_blocks` is not lowered on the word of the flag: a `kfree` of a
   block that is not in use, a stale one, lowers it again (`heap_counters_iff`). -/
namespace LineOS
open ByteMemory ByteMemory.Mem Tiling

/-- Is this a `kfree` that lowers `used_blocks` for a block that is not in use? -/
def staleFree (p : U32) (s : Heap) : Nat :=
  if p = 0 ∨ stateUsed (headState s.mem (p - headLen)) then 0 else 1

/-- Runs of the heap, with the pointers returned so far and the number of stale calls of `kfree`. -/
inductive HeapCalls (L : HeapLayout) : Heap → List U32 → Nat → Prop
  | init (m : Mem) : HeapCalls L (initHeap L m) [] 0
  | kmalloc {s past n bytes p s'} : HeapCalls L s past n → bytes = 0 ∨ Admissible L bytes s →
      kmalloc L bytes s = some (p, s') → HeapCalls L s' (p :: past) n
  | kfree {s past n} (p : U32) : HeapCalls L s past n → p ∈ past → p = 0 ∨ headMagic s.mem (p - headLen) = 0xBEEF →
      HeapCalls L (kfree p s) past (n + staleFree p s)
  | client {s past n} (x : U32) (v : U8) : HeapCalls L s past n → ¬ AllocatorByte L s x →
      HeapCalls L { s with mem := s.mem.store8 x v } past n

/-- The counters, with `n` stale calls so far. -/
structure InStep (s : Heap) (bs : List Block) (n : Nat) : Prop where
  total : s.totalBlocks = BitVec.ofNat 32 bs.length
  used : s.usedBlocks + BitVec.ofNat 32 n = BitVec.ofNat 32 (bs.countP Block.used)

section

variable {L : HeapLayout} {s s' : Heap} {bs pre post : List Block} {b : Block} {past : List U32} {n : Nat}

theorem ofNat_succ (k : Nat) : BitVec.ofNat 32 (k + 1) = BitVec.ofNat 32 k + 1 := BitVec.ofNat_add ..

theorem countP_middle (pre post : List Block) (b : Block) :
    (pre ++ b :: post).countP Block.used = (pre ++ post).countP Block.used + if b.used then 1 else 0 := by
  rw [List.countP_append, List.countP_cons, List.countP_append]
  omega

theorem InStep.take (h : InStep s bs n) {bs' : List Block} {k : Nat}
    (ht : s'.totalBlocks = s.totalBlocks + BitVec.ofNat 32 k)
    (hl : bs'.length = bs.length + k) (hu : s'.usedBlocks = s.usedBlocks + 1)
    (hc : bs'.countP Block.used = bs.countP Block.used + 1) : InStep s' bs' n := by
  refine ⟨?_, ?_⟩
  · rw [ht, h.total, hl, BitVec.ofNat_add]
  · rw [hu, hc, ofNat_succ, ← h.used, BitVec.add_assoc, BitVec.add_assoc, BitVec.add_comm 1]

theorem kmalloc_counted {bytes : U32} (hi : HeapInv L s bs) (h : InStep s bs n) (hne : bytes ≠ 0)
    (had : Admissible L bytes s) : ∃ s' bs' y, kmalloc L bytes s = some (y.payload, s') ∧ HeapInv L s' bs' ∧
      InStep s' bs' n ∧ y ∈ bs' ∧ ∀ a ∈ bs.map Block.addr, a ∈ bs'.map Block.addr := by
  cases hf : firstFit bytes bs with
  | none =>
    have hlt : s.brk.toNat + 20 + bytes.toNat < brkMax.toNat :=
      had.resolve_left fun hff => (freeFits_iff hi bytes).mp hff hf
    obtain ⟨s', hk, hi', -, -⟩ := kmalloc_grow hi hne hf hlt
    refine ⟨s', _, Block.take ⟨s.brk, bytes, headState s.mem s.brk⟩, hk, hi', ?_, List.mem_cons_self,
      fun a ha => List.mem_cons_of_mem _ ha⟩
    rw [kmalloc_unfold_grow hi hne hf, kmallocGrow_eq hlt] at hk
    obtain ⟨-, rfl⟩ := Prod.mk.inj (Option.some.inj hk)
    refine h.take (k := 1) rfl rfl rfl ?_
    rw [List.countP_cons, if_pos (Block.take_used _)]
  | some b =>
    obtain ⟨-, hfree, pre, post, rfl⟩ := firstFit_some hf
    obtain ⟨s', hk, hi', -, -, -⟩ := kmalloc_reuse hi hne hf
    have hbh := hi.headers b (by simp)
    rw [kmalloc_unfold_reuse hi hne hf] at hk
    obtain ⟨-, rfl⟩ := Prod.mk.inj (Option.some.inj hk)
    by_cases hl : headLen + 8 ≤ b.size - bytes
    · rw [reused, if_pos hl] at hi'
      refine ⟨_, _, Block.take { b with size := bytes }, by rw [kmalloc_unfold_reuse hi hne hf]; rfl, hi', ?_, by simp,
        fun a ha => ?_⟩
      · refine h.take (k := 1) ?_ (by simp) ?_ ?_
        · rw [kmallocReuse_split hbh hl]
          rfl
        · rw [kmallocReuse_split hbh hl]
        · have hrest : (b.rest bytes).used = false := by
            show stateUsed 0 = false
            decide
          rw [List.countP_cons, countP_middle, countP_middle, hfree, hrest, Block.take_used]
          simp
      · simpa [Block.take] using Or.inr (by simpa using ha)
    · rw [reused, if_neg hl] at hi'
      refine ⟨_, _, b.take, by rw [kmalloc_unfold_reuse hi hne hf]; rfl, hi', ?_, by simp, fun a ha => ?_⟩
      · refine h.take (k := 0) ?_ (by simp) ?_ ?_
        · rw [kmallocReuse_whole hbh hl]
          simp
        · rw [kmallocReuse_whole hbh hl]
        · rw [countP_middle, countP_middle, hfree, Block.take_used]
          simp
      · simpa [Block.take] using ha

/-- `kfree` of a block counts down, whatever the flag was. -/
theorem kfree_counted (hi : HeapInv L s (pre ++ b :: post)) (h : InStep s (pre ++ b :: post) n) :
    InStep (kfree b.payload s) (pre ++ { b with state := 0 } :: post) (n + staleFree b.payload s) := by
  have hh := hi.headers b (by simp)
  have hne := payload_ne_zero hi (b := b) (by simp)
  have hk : (kfree b.payload s).totalBlocks = s.totalBlocks ∧ (kfree b.payload s).usedBlocks = s.usedBlocks - 1 := by
    rw [kfree, if_neg hne]
    simp [payload_sub, hh.magic]
  have hst : staleFree b.payload s = if b.used then 0 else 1 := by
    rw [staleFree, payload_sub, hh.state]
    simp only [hne, false_or]
    rfl
  have h0 : Block.used { b with state := 0 } = false := by
    show stateUsed 0 = false
    decide
  have hu := h.used
  rw [countP_middle] at hu
  refine ⟨?_, ?_⟩
  · rw [hk.1, h.total]
    simp
  · rw [hk.2, hst, countP_middle, h0]
    cases hb : b.used with
    | true =>
      rw [hb, if_pos rfl, ofNat_succ] at hu
      simp only [if_true, Nat.add_zero, Bool.false_eq_true, if_false]
      bv_omega
    | false =>
      rw [hb, if_neg (by decide)] at hu
      simp only [Bool.false_eq_true, if_false, ofNat_succ]
      bv_omega

/-- **The counters along a run**: a list of blocks is in memory and is counted, and every pointer
ever returned, NULL apart, is the payload of one of them. -/
theorem heapCalls_inv (h : HeapCalls L s past n) : ∃ bs, HeapInv L s bs ∧ InStep s bs n ∧
    ∀ p ∈ past, p = 0 ∨ p - headLen ∈ bs.map Block.addr := by
  induction h with
  | init m => exact ⟨[], init_inv L m, ⟨rfl, rfl⟩, by simp⟩
  | @kmalloc s past n bytes p s' _ had hk ih =>
    obtain ⟨bs, hi, hc, hp⟩ := ih
    by_cases hne : bytes = 0
    · rw [kmalloc, if_pos hne] at hk
      obtain ⟨rfl, rfl⟩ := Prod.mk.inj (Option.some.inj hk)
      exact ⟨bs, hi, hc, List.forall_mem_cons.2 ⟨.inl rfl, hp⟩⟩
    · obtain ⟨s', bs', y, hk', hi', hc', hy, hold⟩ := kmalloc_counted hi hc hne (had.resolve_left hne)
      rw [hk] at hk'
      obtain ⟨rfl, rfl⟩ := Prod.mk.inj (Option.some.inj hk')
      refine ⟨bs', hi', hc', List.forall_mem_cons.2 ⟨.inr ?_, fun p hpm => (hp p hpm).imp_right (hold _)⟩⟩
      rw [payload_sub]
      exact List.mem_map_of_mem hy
  | @kfree s past n p _ hpm _ ih =>
    obtain ⟨bs, hi, hc, hp⟩ := ih
    rcases hp p hpm with rfl | hb
    · exact ⟨bs, hi, hc, hp⟩
    · obtain ⟨b, hbm, hba⟩ := List.mem_map.1 hb
      obtain ⟨pre, post, rfl⟩ := List.append_of_mem hbm
      have hpay : p = b.payload := by
        unfold Block.payload
        rw [hba]
        bv_omega
      subst hpay
      refine ⟨_, (kfree_step hi).1, kfree_counted hi hc, ?_⟩
      simpa using hp
  | @client s past n x v _ hx ih =>
    obtain ⟨bs, hi, hc, hp⟩ := ih
    refine ⟨bs, hi.frame (P := (· = x)) (WritesOnly.store8 _ v rfl) ?_, ⟨hc.total, hc.used⟩, hp⟩
    rintro y hy rfl
    exact hx (own_allocator hi hy)

def usedCount (m : Mem) (as : List U32) : Nat := as.countP fun a => stateUsed (headState m a)

theorem usedCount_eq (hi : HeapInv L s bs) : usedCount s.mem (bs.map Block.addr) = bs.countP Block.used := by
  rw [usedCount, List.countP_map]
  refine List.countP_congr fun b hb => ?_
  rw [Function.comp_apply, (hi.headers b hb).state, Block.used]

/-- **The counters match the chain** in every run of `kmalloc` and `kfree`: the blocks always, the
blocks in use just if the stale calls of `kfree` so far are a multiple of 2^32, so none in practice;
and then `kfree` of a block in use does not take the counter below zero. -/
theorem heap_counters_iff (h : HeapCalls L s past n) : ∃ as, chainBlocks L s.mem = some as ∧
    s.totalBlocks.toNat = as.length ∧ (s.usedBlocks.toNat = usedCount s.mem as ↔ 2 ^ 32 ∣ n) ∧
    (2 ^ 32 ∣ n → ∀ p ∈ past, p ≠ 0 → staleFree p s = 0 → s.usedBlocks ≠ 0) := by
  obtain ⟨bs, hi, hc, hp⟩ := heapCalls_inv h
  have hlen := chain_length hi
  rw [List.length_map] at hlen
  have hle : bs.countP Block.used ≤ bs.length := List.countP_le_length
  have hiff : s.usedBlocks.toNat = bs.countP Block.used ↔ 2 ^ 32 ∣ n := by
    have hu := congrArg BitVec.toNat hc.used
    rw [BitVec.toNat_add, BitVec.toNat_ofNat, BitVec.toNat_ofNat] at hu
    have := s.usedBlocks.isLt
    omega
  refine ⟨bs.map Block.addr, chainBlocks_eq hi, ?_, ?_, fun hn p hpm hne hst => ?_⟩
  · rw [hc.total, BitVec.toNat_ofNat, List.length_map, Nat.mod_eq_of_lt hlen]
  · rw [usedCount_eq hi]
    exact hiff
  · obtain ⟨b, hb, hba⟩ := List.mem_map.1 ((hp p hpm).resolve_left hne)
    have hused : b.used = true := by
      rw [staleFree, ← hba, (hi.headers b hb).state] at hst
      simp only [hne, false_or] at hst
      simpa [Block.used] using hst
    have hpos : 0 < bs.countP Block.used := List.countP_pos_iff.2 ⟨b, hb, hused⟩
    rw [← hiff.2 hn] at hpos
    intro h0
    rw [h0] at hpos
    exact absurd hpos (by decide)

end

def freedHeap : Heap :=
  let s := initHeap sampleLayout dirtyMem
  kfree 0xC000A014 ((kmalloc sampleLayout 100 s).getD (0, s)).2

theorem freedHeap_run : HeapCalls sampleLayout freedHeap [0xC000A014] 0 := by
  have had : Admissible sampleLayout 100 (initHeap sampleLayout dirtyMem) := .inr (by decide)
  exact HeapCalls.kfree 0xC000A014 (HeapCalls.kmalloc (HeapCalls.init dirtyMem) (.inr had) rfl) List.mem_cons_self
    (.inr (by decide))

theorem heap_counters_sample : ∃ as, chainBlocks sampleLayout freedHeap.mem = some as ∧
    freedHeap.totalBlocks.toNat = as.length ∧ freedHeap.usedBlocks.toNat = usedCount freedHeap.mem as := by
  obtain ⟨as, has, ht, hu, -⟩ := heap_counters_iff freedHeap_run
  exact ⟨as, has, ht, hu.2 (Nat.dvd_zero _)⟩

/-- The same pointer once more: the magic passes, and no block is in use but 2^32 - 1 are counted. -/
theorem heap_counters_wrap : ∃ s as, HeapCalls sampleLayout s [0xC000A014] 1 ∧ chainBlocks sampleLayout s.mem = some as ∧
    s.usedBlocks = 0xFFFFFFFF ∧ usedCount s.mem as = 0 := by
  refine ⟨kfree 0xC000A014 freedHeap, [0xC000A000], ?_, by decide, by decide, by decide⟩
  exact HeapCalls.kfree 0xC000A014 freedHeap_run List.mem_cons_self (.inr (by decide))

end LineOS
